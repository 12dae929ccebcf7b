import SpirvToDxil.Dxil.Signature
import SpirvToDxil.Nir.Shader
import SpirvToDxil.Util.Worklist

/-!
# The analysis of input-output dependencies

From every load of an input, `dxil_nir_analyze_io_dependencies` follows uses,
the insides of ifs and the bodies of loops to the stores of outputs.
-/

namespace SpirvToDxil

open Nir

/-! ## The worklist -/

def addDefToWorklist (body : CfList) (value : Nir.Def) : List Nir.Instr :=
  (body.ifUses value).flatMap CfNode.instrs ++
    body.instrs.flatMap (fun instr =>
      instr.srcs.filterMap (fun src => if src = value then some instr else none))

/-- What an instruction pushes: the uses of what it defines, and for a jump its loop. -/
def pushes (body : CfList) (instr : Nir.Instr) : List Nir.Instr :=
  instr.defs.flatMap (addDefToWorklist body) ++
    match instr.kind with
    | .jump _ => (body.jumpLoops instr).flatMap CfList.instrs
    | _ => []

theorem mem_instrs_of_pushes {body : CfList} {instr other : Nir.Instr}
    (pushed : other ∈ pushes body instr) : other ∈ body.instrs := by
  rw [pushes, List.mem_append] at pushed
  rcases pushed with use | inLoop
  · rcases List.mem_flatMap.mp use with ⟨value, -, use⟩
    rcases List.mem_append.mp use with condition | source
    · rcases List.mem_flatMap.mp condition with ⟨node, isUse, member⟩
      exact CfList.instrs_of_mem_ifUses isUse member
    · rcases List.mem_flatMap.mp source with ⟨user, listed, uses⟩
      rcases List.mem_filterMap.mp uses with ⟨src, -, isUser⟩
      rw [Option.ite_none_right_eq_some, Option.some.injEq] at isUser
      exact isUser.2 ▸ listed
  · split at inLoop
    · rcases List.mem_flatMap.mp inLoop with ⟨loop, isLoop, member⟩
      exact CfList.instrs_of_mem_jumpLoops isLoop member
    · cases inLoop

/-! ## The rows that loads and stores touch -/

/-- The elements that the inner loop visits: the one of a constant row, or all of them. -/
def visitedElements (record : RecordRegisters) (row : Option Nat) : List ElementRegister :=
  match row with
  | some baseElement => [record.element baseElement]
  | none => (List.range record.numElements).map record.element

/-- The components of the elements that have a register, with the streams. -/
def touchedComponents (record : RecordRegisters) (row : Option Nat) (intr : Intrinsic) :
    List (Nat × Nat) :=
  (List.range intr.numComponents).flatMap (fun component =>
    (visitedElements record row).filterMap (fun element =>
      if element.reg = NO_REGISTER then none
      else some (element.reg * 4 + (component + intr.component), element.stream)))

def rowSrc (intr : Intrinsic) : Option Nir.Def :=
  match intr.op with
  | .loadPerVertexInput => intr.srcs[1]?
  | .storeOutput => intr.srcs[1]?
  | .storePerVertexOutput => intr.srcs[2]?
  -- The first source of `load_interpolated_input` is the barycentric coordinate.
  | .loadInput | .loadInterpolatedInput | .loadViewIndex => intr.srcs[0]?

def constRow (body : CfList) (intr : Intrinsic) : Option Nat := (rowSrc intr).bind body.constValue

namespace IoModule

variable (mod : IoModule)

def readsPatchConst (intr : Intrinsic) : Bool :=
  mod.shaderKind = .domain ∧ intr.op = .loadInput

def writesPatchConst (intr : Intrinsic) : Bool :=
  mod.shaderKind = .hull ∧ intr.op = .storeOutput

def noRecord : RecordRegisters := ⟨[]⟩

def inputRecord (intr : Intrinsic) : RecordRegisters :=
  if mod.readsPatchConst intr then mod.patchConsts.getD (mod.patchMappings intr.base) noRecord
  else mod.inputs.getD (mod.inputMappings intr.base) noRecord

def outputRecord (intr : Intrinsic) : RecordRegisters :=
  if mod.writesPatchConst intr then mod.patchConsts.getD (mod.patchMappings intr.base) noRecord
  else mod.outputs.getD (mod.outputMappings intr.base) noRecord

def inputBits (body : CfList) (intr : Intrinsic) : List Nat :=
  if intr.op = .loadViewIndex then [0]
  else (touchedComponents (mod.inputRecord intr) (constRow body intr) intr).map Prod.fst

/-- The tables and widths, as arrays of pointers; the second ones for patch constants. -/
def inputTables (intr : Intrinsic) (tables : Nat → Nat) : Nat → Nat :=
  if intr.op ≠ .loadViewIndex ∧ mod.readsPatchConst intr then fun i => tables (i + 1) else tables

/-- The output components of `set_output_bits`, with the indices of their tables. -/
def outputBits (body : CfList) (intr : Intrinsic) : List (Nat × Nat) :=
  (touchedComponents (mod.outputRecord intr) (constRow body intr) intr).map (fun touched =>
    (touched.1, if mod.writesPatchConst intr then 1 else touched.2))

end IoModule

/-! ## The tables -/

/-- `BITSET_SET` on the words from `set` on. -/
def bitsetSet (memory : Memory) (set bit : Nat) : Memory :=
  Function.update memory (set + bit / 32)
    (memory (set + bit / 32) ||| 1#32 <<< (bit % 32))

/-- `input_bits` has 128 bits, and `BITSET_FOREACH_SET` goes through these. -/
def foreachSet (inputBits : List Nat) : List Nat :=
  (List.range (32 * 4)).filter (fun bit => bit ∈ inputBits)

def setOutputBits (mod : IoModule) (body : CfList) (intr : Intrinsic) (inputBits : List Nat)
    (tables tableSizes : Nat → Nat) (state : Memory × Bool) : Memory × Bool :=
  (mod.outputBits body intr).foldl (fun state output =>
    let (outputComponent, tableIdx) := output
    (foreachSet inputBits).foldl (fun state inputComponent =>
      let tableForInputComponent := tables tableIdx + tableSizes tableIdx * inputComponent
      (bitsetSet state.1 tableForInputComponent outputComponent, true)) state) state

/-- What the worklist does with an instruction, besides pushing others. -/
def visitInstr (mod : IoModule) (body : CfList) (inputBits : List Nat)
    (tables tableSizes : Nat → Nat) (state : Memory × Bool) (instr : Nir.Instr) : Memory × Bool :=
  match instr.kind with
  | .intrinsic intr =>
    if intr.op.isLoad then state
    else setOutputBits mod body intr inputBits tables tableSizes state
  | _ => state

def propagateInputToOutputDependencies (mod : IoModule) (body : CfList) (load : Nir.Instr)
    (intr : Intrinsic) (tables tableSizes : Nat → Nat) (state : Memory × Bool) : Memory × Bool :=
  let inputBits := mod.inputBits body intr
  if inputBits = [] then state
  else
    let tables := mod.inputTables intr tables
    let tableSizes := mod.inputTables intr tableSizes
    (Worklist.run (pushes body) (visitInstr mod body inputBits tables tableSizes)
      body.instrs.toFinset state [] [load]).1

def inputLoads (body : CfList) : List (Nir.Instr × Intrinsic) :=
  body.instrs.filterMap (fun instr =>
    match instr.kind with
    | .intrinsic intr => if intr.op.isLoad then some (instr, intr) else none
    | _ => none)

def analyzeFunction (mod : IoModule) (tables : DependencyTables) (state : Memory × Bool)
    (body : CfList) : Memory × Bool :=
  (inputLoads body).foldl (fun state load =>
    propagateInputToOutputDependencies mod body load.1 load.2
      (if load.2.op = .loadViewIndex then tables.viewid else tables.io)
      tables.dwordsPerInput state) state

/-- The memory after the analysis, and whether any bit was set. -/
def analyzeIoDependencies (mod : IoModule) (tables : DependencyTables) (functions : List CfList) :
    Memory × Bool :=
  let anyOutputs := (List.range 4).any (fun i => mod.numPsvOutputs i > 0) ||
    (mod.shaderKind = .hull && mod.numPsvPatchConsts > 0)
  if anyOutputs then functions.foldl (analyzeFunction mod tables) (tables.memory, false)
  else (tables.memory, false)

end SpirvToDxil
