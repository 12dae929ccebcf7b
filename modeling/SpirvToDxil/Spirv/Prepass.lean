import Mathlib.Algebra.Order.Ring.Nat
import Mathlib.Data.List.Basic
import SpirvToDxil.Util.Logged

/-!
# The prepass over a function section

Every word of the section that the walk reads is logged, with the instruction it is read for.
-/

namespace SpirvToDxil

namespace Spirv

inductive SpvOp where
  | opNop
  | opLine
  | opFunction
  | opFunctionParameter
  | opFunctionEnd
  | opLoopMerge
  | opSelectionMerge
  | opLabel
  | opBranch
  | opBranchConditional
  | opSwitch
  | opKill
  | opReturn
  | opReturnValue
  | opUnreachable
  | opNoLine
  | opTerminateInvocation
  | opIgnoreIntersectionKHR
  | opTerminateRayKHR
  | opAbortKHR
  | opEmitMeshTasksEXT
  | other (code : Nat)
  deriving DecidableEq, Repr

def SpvOp.ofCode : Nat → SpvOp
  | 0 => opNop
  | 8 => opLine
  | 54 => opFunction
  | 55 => opFunctionParameter
  | 56 => opFunctionEnd
  | 246 => opLoopMerge
  | 247 => opSelectionMerge
  | 248 => opLabel
  | 249 => opBranch
  | 250 => opBranchConditional
  | 251 => opSwitch
  | 252 => opKill
  | 253 => opReturn
  | 254 => opReturnValue
  | 255 => opUnreachable
  | 317 => opNoLine
  | 4416 => opTerminateInvocation
  | 4448 => opIgnoreIntersectionKHR
  | 4449 => opTerminateRayKHR
  | 5121 => opAbortKHR
  | 5294 => opEmitMeshTasksEXT
  | code => other code

inductive ValueType where
  | invalid
  | undef
  | string
  | decorationGroup
  | type
  | constant
  | pointer
  | function
  | block
  | ssa
  | extension
  | imagePointer
  deriving DecidableEq, Repr

inductive BaseType where
  | void
  | scalar
  | vector
  | matrix
  | array
  | struct
  | pointer
  | image
  | sampler
  | sampledImage
  | accelStruct
  | rayQuery
  | function
  | event
  | cooperativeMatrix
  | buffer
  deriving DecidableEq, Repr

/-- `nir_alu_type_get_base_type`. -/
inductive AluBaseType where
  | int
  | uint
  | bool
  | float
  deriving DecidableEq, Repr

/-- The members of a `vtn_type` of a function: the return type, and for each parameter
`glsl_type_count_function_params`. -/
structure FunctionType where
  returnVoid : Bool
  returnType : Nat
  paramCounts : List Nat
  deriving DecidableEq, Repr

/-- A `vtn_type`; the `glsl_type`s are interned and stand for their pointers. -/
structure VtnType where
  baseType : BaseType
  type : Nat
  bareType : Nat
  aluBase : AluBaseType
  bitSize : Nat
  function : Option FunctionType
  deriving DecidableEq, Repr

structure Value where
  valueType : ValueType
  type : Option VtnType
  block : Nat
  deriving DecidableEq, Repr

inductive Linkage where
  | exported
  | imported
  | linkOnceODR
  | max
  deriving DecidableEq, Repr

/-- The members of a `vtn_function` that the prepass reads back. -/
structure Function where
  linkage : Linkage
  control : UInt32
  numParams : Nat
  startBlock : Option Nat
  deriving DecidableEq, Repr

/-- A `vtn_block`: the positions of its instructions. -/
structure Block where
  label : Nat
  merge : Option Nat
  branch : Option Nat
  deriving DecidableEq, Repr

/-- The members of `vtn_builder` that the prepass uses. -/
structure Builder where
  values : List Value
  func : Option Function
  block : Option Nat
  blocks : List Block
  funcParamIdx : Nat
  ignoreReturnAfterEmitMeshTasks : Bool
  createLibrary : Bool
  file : Option UInt32
  line : UInt32
  col : UInt32

/-- The builder when the walk starts: what comes before the functions has given ids values. -/
def Builder.initial (values : List Value) (ignoreReturnAfterEmitMeshTasks createLibrary : Bool) :
    Builder :=
  ⟨values, none, none, [], 0, ignoreReturnAfterEmitMeshTasks, createLibrary, none, -1, -1⟩

/-- What the prepass calls that reads no word of the section: `vtn_foreach_decoration` and
`vtn_foreach_execution_mode` on a function's id, `vtn_create_ssa_value`, and
`vtn_ssa_value_load_function_param` with the decorations of the parameter's id, which moves the
parameter index. None, or false, where the callee fails. -/
structure Callees where
  functionLinkage : UInt32 → Option Linkage
  executionModes : UInt32 → Bool
  createSsaValue : VtnType → Bool
  loadFunctionParam : VtnType → UInt32 → Nat → Option Nat

/-- The section, and the memory it lies in. -/
structure Words where
  memory : Nat → UInt32
  start : Nat
  finish : Nat

/-- An instruction, where the word count of its first word places its end. -/
structure Instruction where
  position : Nat
  count : Nat
  deriving DecidableEq, Repr

inductive Access where
  /-- The first word, from which the length is known. -/
  | header (position : Nat)
  | operand (instruction : Instruction) (index : Nat)
  deriving DecidableEq, Repr

/-- The end of a run: `vtn_fail`, or a pointer followed that is no pointer to a word and that
leads nowhere. -/
inductive Stop where
  | fail
  | undefined
  deriving DecidableEq, Repr

abbrev Parse (α : Type) := Logged Access Stop α

def vtnAssert (condition : Bool) : Parse Unit :=
  if condition then pure () else Logged.stop .fail

def vtnFailIf (condition : Bool) : Parse Unit := vtnAssert !condition

/-- A pointer is followed that is NULL if there is no value. -/
def follow {α : Type} : Option α → Parse α
  | some value => pure value
  | none => Logged.stop .undefined

def orFail {α : Type} : Option α → Parse α
  | some value => pure value
  | none => Logged.stop .fail

namespace Words

variable (words : Words)

/-- `w[index]`. -/
def word (w : Instruction) (index : Nat) : Parse UInt32 :=
  Logged.record (.operand w index) (words.memory (w.position + index))

def opcode (position : Nat) : SpvOp := .ofCode ((words.memory position).toNat % 2 ^ 16)

def instruction (position : Nat) : Instruction :=
  ⟨position, (words.memory position).toNat / 2 ^ 16⟩

end Words

namespace Builder

def vtnUntypedValue (b : Builder) (id : UInt32) : Parse Value := orFail b.values[id.toNat]?

def vtnValue (b : Builder) (id : UInt32) (valueType : ValueType) : Parse Value := do
  let val ← b.vtnUntypedValue id
  vtnAssert (val.valueType = valueType)
  return val

def vtnGetType (b : Builder) (id : UInt32) : Parse VtnType := do
  let val ← b.vtnValue id .type
  follow val.type

def vtnGetValueType (b : Builder) (id : UInt32) : Parse VtnType := do
  let val ← b.vtnUntypedValue id
  orFail val.type

def vtnBlock (b : Builder) (id : UInt32) : Parse Nat := do
  let val ← b.vtnValue id .block
  return val.block

def setValue (b : Builder) (id : UInt32) (val : Value) : Builder :=
  { b with values := b.values.set id.toNat val }

/-- `vtn_push_value`; the value is filled in by the caller. -/
def vtnPushValue (b : Builder) (id : UInt32) (fill : Value → Value) : Parse Builder := do
  let val ← b.vtnUntypedValue id
  vtnAssert (val.valueType = .invalid)
  return b.setValue id (fill val)

def vtnPushSsaValue (b : Builder) (id : UInt32) (ssaType : Nat) : Parse Builder := do
  let type ← b.vtnGetValueType id
  vtnFailIf (ssaType ≠ type.bareType)
  b.vtnPushValue id fun val =>
    { val with valueType := if type.baseType = .pointer then .pointer else .ssa }

def setBlock (b : Builder) (index : Nat) (update : Block → Block) : Builder :=
  { b with blocks := b.blocks.modify index update }

end Builder

section Handlers

variable (callees : Callees) (words : Words)

def handleFunction (b : Builder) (w : Instruction) : Parse Builder := do
  vtnAssert b.func.isNone
  let control ← words.word w 3
  let resultType ← b.vtnGetType (← words.word w 1)
  let id ← words.word w 2
  let b ← b.vtnPushValue id fun val => { val with valueType := .function }
  let linkage ← orFail (callees.functionLinkage id)
  let type ← b.vtnGetType (← words.word w 4)
  let funcType ← follow type.function
  vtnAssert (funcType.returnType = resultType.type)
  vtnAssert (!b.createLibrary || callees.executionModes id)
  let returned := if funcType.returnVoid then 0 else 1
  let func : Function := ⟨linkage, control, funcType.paramCounts.sum + returned, none⟩
  return { b with func := some func, funcParamIdx := returned }

def handleFunctionEnd (b : Builder) : Parse Builder := do
  let func ← follow b.func
  if func.startBlock.isNone then
    vtnFailIf (func.linkage ≠ .imported)
  else
    vtnFailIf (func.linkage = .imported)
  return { b with func := none }

def handleFunctionParameter (b : Builder) (w : Instruction) : Parse Builder := do
  let func ← follow b.func
  vtnAssert (b.funcParamIdx < func.numParams)
  let type ← b.vtnGetType (← words.word w 1)
  vtnAssert (callees.createSsaValue type)
  let id ← words.word w 2
  let _ ← b.vtnUntypedValue id
  let funcParamIdx ← orFail (callees.loadFunctionParam type id b.funcParamIdx)
  let id ← words.word w 2
  { b with funcParamIdx }.vtnPushSsaValue id type.bareType

def handleLabel (b : Builder) (w : Instruction) : Parse Builder := do
  vtnAssert b.block.isNone
  let block := b.blocks.length
  let b := { b with block := some block, blocks := b.blocks ++ [Block.mk w.position none none] }
  let b ← b.vtnPushValue (← words.word w 1) fun val => { val with valueType := .block, block }
  let func ← follow b.func
  return { b with func := some { func with startBlock := some (func.startBlock.getD block) } }

def handleMerge (b : Builder) (w : Instruction) : Parse Builder := do
  let block ← orFail b.block
  vtnAssert ((b.blocks[block]?.bind Block.merge).isNone)
  return b.setBlock block fun block => { block with merge := some w.position }

def handleBranch (b : Builder) (opcode : SpvOp) (w : Instruction) : Parse Builder := do
  if b.ignoreReturnAfterEmitMeshTasks && opcode = .opReturn && b.block.isNone then
    return b
  else
    let block ← orFail b.block
    vtnAssert ((b.blocks[block]?.bind Block.branch).isNone)
    return { b.setBlock block fun block => { block with branch := some w.position } with
      block := none }

/-- `vtn_cfg_handle_prepass_instruction`, which always answers that the walk goes on. -/
def vtnCfgHandlePrepassInstruction (b : Builder) (opcode : SpvOp) (w : Instruction) :
    Parse (Bool × Builder) :=
  match opcode with
  | .opFunction => return (true, ← handleFunction callees words b w)
  | .opFunctionEnd => return (true, ← handleFunctionEnd b)
  | .opFunctionParameter => return (true, ← handleFunctionParameter callees words b w)
  | .opLabel => return (true, ← handleLabel words b w)
  | .opSelectionMerge | .opLoopMerge => return (true, ← handleMerge b w)
  | .opBranch | .opBranchConditional | .opSwitch | .opKill | .opTerminateInvocation
  | .opIgnoreIntersectionKHR | .opTerminateRayKHR | .opEmitMeshTasksEXT | .opReturn
  | .opReturnValue | .opUnreachable | .opAbortKHR => return (true, ← handleBranch b opcode w)
  | .opNop | .opLine | .opNoLine | .other _ => return (true, b)

def handleLine (b : Builder) (w : Instruction) : Parse Builder := do
  let file ← words.word w 1
  let _ ← b.vtnValue file .string
  let line ← words.word w 2
  let col ← words.word w 3
  return { b with file := some file, line, col }

/-- What `vtn_foreach_instruction` does with one instruction. -/
def visitInstruction (handler : Builder → SpvOp → Instruction → Parse (Bool × Builder))
    (b : Builder) (opcode : SpvOp) (w : Instruction) : Parse (Bool × Builder) :=
  match opcode with
  | .opNop => return (true, b)
  | .opLine => return (true, ← handleLine words b w)
  | .opNoLine => return (true, { b with file := none, line := -1, col := -1 })
  | opcode => handler b opcode w

def vtnForeachInstruction (handler : Builder → SpvOp → Instruction → Parse (Bool × Builder))
    (position : Nat) (b : Builder) : Parse (Nat × Builder) :=
  if _inside : position < words.finish then do
    let _ ← Logged.record (.header position) ()
    let w := words.instruction position
    if _bounded : 1 ≤ w.count ∧ position + w.count ≤ words.finish then
      let (more, b) ← visitInstruction words handler b (words.opcode position) w
      if more then
        vtnForeachInstruction handler (position + w.count) b
      else
        return (position, b)
    else
      Logged.stop .fail
  else
    return (position, b)
termination_by words.finish - position
decreasing_by
  have positive : 1 ≤ (words.instruction position).count := _bounded.1
  omega

/-- A `vtn_case`. -/
structure Case where
  block : Nat
  isDefault : Bool
  values : List UInt64
  deriving DecidableEq, Repr

/-- The case that a label selects gets the default or one more value. -/
def addCase (cases : List Case) (block : Nat) (literal : Option UInt64) : List Case :=
  let update (cse : Case) : Case := match literal with
    | none => { cse with isDefault := true }
    | some literal => { cse with values := cse.values ++ [literal] }
  if cases.any fun cse => cse.block = block then
    cases.map fun cse => if cse.block = block then update cse else cse
  else
    cases ++ [update ⟨block, false, []⟩]

def vtnU64Literal (w : Instruction) (index : Nat) : Parse UInt64 := do
  let high ← words.word w (index + 1)
  let low ← words.word w index
  return high.toUInt64 <<< 32 ||| low.toUInt64

/-- The literals and labels after the default one. -/
def parseSwitchCases (b : Builder) (branch : Instruction) (bitSize : Nat) (index : Nat)
    (cases : List Case) : Parse (List Case) :=
  if index < branch.count then
    if bitSize ≤ 32 then do
      let literal ← words.word branch index
      let block ← b.vtnBlock (← words.word branch (index + 1))
      parseSwitchCases b branch bitSize (index + 2) (addCase cases block (some literal.toUInt64))
    else do
      let literal ← vtnU64Literal words branch index
      let block ← b.vtnBlock (← words.word branch (index + 2))
      parseSwitchCases b branch bitSize (index + 3) (addCase cases block (some literal))
  else
    return cases
termination_by branch.count - index

/-- The width of the selector of an `OpSwitch`. -/
def selectorBitSize (b : Builder) (id : UInt32) : Parse Nat := do
  let selVal ← b.vtnUntypedValue id
  let type ← orFail selVal.type
  vtnFailIf (type.baseType ≠ .scalar)
  vtnFailIf (type.aluBase ≠ .int && type.aluBase ≠ .uint)
  return type.bitSize

def vtnParseSwitch (b : Builder) (branch : Instruction) : Parse (List Case) := do
  let _ ← Logged.record (.header branch.position) ()
  let bitSize ← selectorBitSize b (← words.word branch 1)
  if 2 < branch.count then
    let block ← b.vtnBlock (← words.word branch 2)
    parseSwitchCases words b branch bitSize 3 (addCase [] block none)
  else
    return []

end Handlers

end Spirv

end SpirvToDxil
