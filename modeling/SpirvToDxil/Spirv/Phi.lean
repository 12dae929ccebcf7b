import SpirvToDxil.Util.Worklist
import SpirvToDxil.Util.Run

/-!
# Phis of SPIR-V and the variables they become

Each phi becomes a variable that is loaded where the phi stands and stored at the end of the
predecessors.
-/

namespace SpirvToDxil

namespace Spirv.Phi

abbrev Label := Nat

abbrev Id := Nat

structure Operand where
  value : Id
  parent : Label
  deriving DecidableEq, Repr

/-- An `OpPhi` at the word `w` of the module. -/
structure OpPhi where
  w : Nat
  result : Id
  operands : List Operand
  deriving DecidableEq, Repr

/-- An instruction of a block. `line` is one that `vtn_foreach_instruction` handles itself, and
`op` one that is for the handler. -/
inductive Instr (Op : Type) where
  | label
  | line
  | phi (phi : OpPhi)
  | op (op : Op)
  deriving DecidableEq, Repr

inductive Terminator where
  | branch (target : Label)
  | branchConditional (condition : Id) (ifTrue ifFalse : Label)
  | switch (selector : Id) (default : Label) (cases : List (UInt64 × Label))
  | exit
  deriving DecidableEq, Repr

/-- In the order in which the blocks are added to the worklist. -/
def Terminator.successors : Terminator → List Label
  | branch target => [target]
  | branchConditional _ ifTrue ifFalse => [ifTrue, ifFalse]
  | switch _ default cases => (cases.map Prod.snd).filter (· ≠ default) ++ [default]
  | exit => []

structure Block (Op : Type) where
  label : Label
  instrs : List (Instr Op)
  terminator : Terminator

def Instr.phi? {Op : Type} : Instr Op → Option OpPhi
  | phi found => some found
  | _ => none

def Instr.op? {Op : Type} : Instr Op → Option Op
  | op found => some found
  | _ => none

def Block.phis {Op : Type} (block : Block Op) : List OpPhi := block.instrs.filterMap Instr.phi?

def Block.ops {Op : Type} (block : Block Op) : List Op := block.instrs.filterMap Instr.op?

/-- A function whose blocks obey the rules of SPIR-V for labels and phis. -/
structure Function (Op : Type) where
  blocks : List (Block Op)
  start : Label
  labels_nodup : (blocks.map Block.label).Nodup
  start_mem : start ∈ blocks.map Block.label
  targets : ∀ block ∈ blocks, ∀ target ∈ block.terminator.successors,
    target ∈ blocks.map Block.label
  start_phis : ∀ block ∈ blocks, block.label = start → block.phis = []
  words_nodup : ((blocks.flatMap Block.phis).map OpPhi.w).Nodup
  results_nodup : ∀ block ∈ blocks, (block.phis.map OpPhi.result).Nodup
  parents_nodup : ∀ phi ∈ blocks.flatMap Block.phis, (phi.operands.map Operand.parent).Nodup
  parents : ∀ block ∈ blocks, ∀ next ∈ blocks, next.label ∈ block.terminator.successors →
    ∀ phi ∈ next.phis, block.label ∈ phi.operands.map Operand.parent

/-- The meaning of the instructions other than phis, and of a value as a condition or a
selector. -/
structure Semantics (Op Value World : Type) where
  exec : Op → (Id → Value) × World → (Id → Value) × World
  isTrue : Value → Bool
  literal : Value → UInt64

section Source

variable {Op Value World : Type} (semantics : Semantics Op Value World)

def Terminator.next (env : Id → Value) : Terminator → Option Label
  | branch target => some target
  | branchConditional condition ifTrue ifFalse =>
    some (if semantics.isTrue (env condition) then ifTrue else ifFalse)
  | switch selector default cases =>
    some (((cases.find? (·.1 = semantics.literal (env selector))).map Prod.snd).getD default)
  | exit => none

def execOps (ops : List Op) (state : (Id → Value) × World) : (Id → Value) × World :=
  ops.foldl (fun state op => semantics.exec op state) state

def OpPhi.operandFor (phi : OpPhi) (parent : Label) : Option Id :=
  (phi.operands.find? (·.parent = parent)).map Operand.value

/-- All phis of a block read what their operands have at the end of the predecessor. -/
def evalPhis (phis : List OpPhi) (parent : Label) (env : Id → Value) : Id → Value := fun id =>
  match (phis.find? (·.result = id)).bind (·.operandFor parent) with
  | some value => env value
  | none => env id

/-- A block after its phis. -/
structure Config (Value World : Type) where
  label : Label
  env : Id → Value
  world : World

namespace Function

variable (f : Function Op)

def block? (label : Label) : Option (Block Op) := f.blocks.find? (·.label = label)

def step (config : Config Value World) : Option (Config Value World) := do
  let block ← f.block? config.label
  let (env, world) := execOps semantics block.ops (config.env, config.world)
  let next ← block.terminator.next semantics env
  let target ← f.block? next
  return ⟨next, evalPhis target.phis config.label env, world⟩

end Function

end Source

/-- `load` and `store` access the variable of the phi at the word. -/
inductive NirInstr (Op : Type) where
  | load (result : Id) (w : Nat)
  | op (op : Op)
  | nop
  | store (w : Nat) (value : Id)
  deriving DecidableEq, Repr

structure NirBlock (Op : Type) where
  code : List (NirInstr Op)
  terminator : Terminator

/-- What is emitted: the blocks with an `end_nop`, and the phis with a variable. -/
structure Emitted (Op : Type) where
  blocks : Label → Option (NirBlock Op)
  phiTable : List Nat

section Emit

variable {Op : Type}

/-- `vtn_foreach_instruction` with `vtn_handle_phis_first_pass`: the loads, and the instructions
from where it stops. -/
def vtnHandlePhisFirstPass : List (Instr Op) → List OpPhi × List (Instr Op)
  | .label :: instrs | .line :: instrs => vtnHandlePhisFirstPass instrs
  | .phi phi :: instrs =>
    let (phis, rest) := vtnHandlePhisFirstPass instrs
    (phi :: phis, rest)
  | instrs => ([], instrs)

/-- `vtn_foreach_instruction` with the handler, which fails on a phi. -/
def handleBody : List (Instr Op) → Option (List (NirInstr Op))
  | [] => some []
  | .op op :: instrs => (handleBody instrs).map (NirInstr.op op :: ·)
  | .label :: instrs | .line :: instrs => handleBody instrs
  | .phi _ :: _ => none

def vtnEmitBlock (emitted : Emitted Op) (block : Block Op) : Option (Emitted Op) := do
  let (phis, rest) := vtnHandlePhisFirstPass block.instrs
  let body ← handleBody rest
  let loads := phis.map fun phi => NirInstr.load phi.result phi.w
  return ⟨Function.update emitted.blocks block.label
    (some ⟨loads ++ body ++ [.nop], block.terminator⟩), emitted.phiTable ++ phis.map OpPhi.w⟩

def insertAfterNop (instr : NirInstr Op) : List (NirInstr Op) → List (NirInstr Op)
  | [] => []
  | .nop :: code => .nop :: instr :: code
  | other :: code => other :: insertAfterNop instr code

/-- One operand in `vtn_handle_phi_second_pass`. -/
def storeOperand (phiTable : List Nat) (blocks : Label → Option (NirBlock Op))
    (visit : OpPhi × Operand) : Label → Option (NirBlock Op) :=
  if visit.1.w ∈ phiTable then
    Function.update blocks visit.2.parent ((blocks visit.2.parent).map fun pred =>
      { pred with code := insertAfterNop (.store visit.1.w visit.2.value) pred.code })
  else
    blocks

namespace Function

variable (f : Function Op)

def emitLabel (emitted : Option (Emitted Op)) (label : Label) : Option (Emitted Op) := do
  let emitted ← emitted
  let block ← f.block? label
  vtnEmitBlock emitted block

/-- The operands in the order of the second pass. -/
def phiOperands : List (OpPhi × Operand) :=
  (f.blocks.flatMap Block.phis).flatMap fun phi => phi.operands.map (phi, ·)

def successors (label : Label) : List Label :=
  ((f.block? label).map (·.terminator.successors)).getD []

/-- `vtn_function_emit`: the blocks are emitted in one order, and then the operands stored in
another. -/
def vtnFunctionEmit (order : List Label) (visits : List (OpPhi × Operand)) :
    Option (Label → Option (NirBlock Op)) := do
  let emitted ← order.foldl f.emitLabel (some ⟨fun _ => none, []⟩)
  return visits.foldl (storeOperand emitted.phiTable) emitted.blocks

/-- The blocks of `vtn_emit_cf_func_unstructured`, whose worklist starts with the first. -/
def vtnEmitCfFuncUnstructured : Option (Emitted Op) × List Label :=
  Worklist.run f.successors f.emitLabel (f.blocks.map Block.label).toFinset
    (some ⟨fun _ => none, []⟩) [] [f.start]

end Function

end Emit

section Nir

variable {Op Value World : Type} (semantics : Semantics Op Value World)

structure NirState (Value World : Type) where
  env : Id → Value
  vars : Nat → Value
  world : World

def execInstr (state : NirState Value World) : NirInstr Op → NirState Value World
  | .load result w => { state with env := Function.update state.env result (state.vars w) }
  | .op op =>
    let (env, world) := semantics.exec op (state.env, state.world)
    { state with env, world }
  | .nop => state
  | .store w value =>
    { state with vars := Function.update state.vars w (state.env value) }

def execCode (code : List (NirInstr Op)) (state : NirState Value World) :
    NirState Value World := code.foldl (execInstr semantics) state

/-- A block before its loads. -/
structure NirConfig (Value World : Type) where
  label : Label
  state : NirState Value World

def nirStep (blocks : Label → Option (NirBlock Op)) (config : NirConfig Value World) :
    Option (NirConfig Value World) := do
  let block ← blocks config.label
  let state := execCode semantics block.code config.state
  let next ← block.terminator.next semantics state.env
  return ⟨next, state⟩

end Nir

end Spirv.Phi

end SpirvToDxil
