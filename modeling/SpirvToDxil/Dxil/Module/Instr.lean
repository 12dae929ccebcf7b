import SpirvToDxil.Dxil.Module.Block

/-!
# Values and instructions

The lists of a `struct dxil_module`, the ids that `assign_values` gives to their
entries, and the records written for constants, module info and functions.

A pointer to a value is the list entry it points into, and a type is its position
in the type list.  A write past a local array, an `UNREACHABLE` and an overflow of
`next_value_id` are `none`; assertions are not checked, as in a release build.
-/

namespace SpirvToDxil

open Bitstream

inductive DxilType where
  | void
  | integer (intBits : Nat)
  | float (floatBits : Nat)
  | pointer (ptrTargetType : Nat)
  | struct (elem : List Nat)
  | array (numElems elemType : Nat)
  | vector (numElems elemType : Nat)
  | function (retType : Nat) (args : List Nat)
  deriving DecidableEq, Repr

/-- A `const struct dxil_value *`; instructions are counted within their function. -/
inductive Value where
  | gvar (index : Nat)
  | func (index : Nat)
  | const (index : Nat)
  | instr (index : Nat)
  deriving DecidableEq, Repr

structure Gvar where
  type : Nat
  constant : Bool
  as : Nat
  align : Nat
  initializer : Option Value
  deriving DecidableEq, Repr

structure Func where
  type : Nat
  decl : Bool
  attrSet : Nat
  deriving DecidableEq, Repr

/-- The `undef` flag and the union of `struct dxil_const`; a float is its bit pattern
at the width of its type. -/
inductive ConstValue where
  | undef
  | int (intValue : Int)
  | float (floatValue : Nat)
  | aggregate (values : List Value)
  deriving DecidableEq, Repr

structure Const where
  type : Nat
  value : ConstValue
  deriving DecidableEq, Repr

inductive Instr where
  | binop (opcode : Nat) (op0 op1 : Value) (flags : Nat)
  | cmp (pred : Nat) (op0 op1 : Value)
  | select (op0 op1 op2 : Value)
  | cast (opcode type : Nat) (value : Value)
  | br (cond : Option Value) (succ0 succ1 : Nat)
  | phi (type : Nat) (incoming : List (Value × Nat))
  | call (func : Nat) (args : List Value) (hasValue : Bool)
  | ret (value : Option Value)
  | extractval (src : Value) (type idx : Nat)
  | alloca (allocType sizeType : Nat) (size : Value) (align : Nat)
  | gep (inbounds : Bool) (sourceElemType : Nat) (operands : List Value)
  | load (ptr : Value) (type align : Nat) (isVolatile : Bool)
  | store (value ptr : Value) (align : Nat) (isVolatile : Bool)
  | cmpxchg (cmpval newval ptr : Value) (isVolatile : Bool) (ordering syncscope : Nat)
  | atomicrmw (value ptr : Value) (op : Nat) (isVolatile : Bool) (ordering syncscope : Nat)
  deriving DecidableEq, Repr

/-- The flag `has_value` that the `dxil_emit_*` functions set. -/
def Instr.hasValue : Instr → Bool
  | br _ _ _ => false
  | ret _ => false
  | store _ _ _ _ => false
  | call _ _ hasValue => hasValue
  | _ => true

structure FuncDef where
  instrs : List Instr
  basicBlockIds : List Int
  currBlock : Nat
  deriving DecidableEq, Repr

structure DxilModule where
  types : List DxilType
  gvars : List Gvar
  funcs : List Func
  consts : List Const
  funcDefs : List FuncDef
  deriving DecidableEq, Repr

/-! ## Ids -/

/-- `next_value_id++`, on an `int`. -/
def nextValueId (id : Nat) : Option Nat := if id + 1 < 2 ^ 31 then some (id + 1) else none

/-- The ids of the entries of a list, and the next one. -/
def assignIds : Nat → Nat → Option (List Nat × Nat)
  | 0, next => some ([], next)
  | count + 1, next => do
    let after ← nextValueId next
    let (ids, last) ← assignIds count after
    some (next :: ids, last)

/-- Every instruction is given the next id, but only those with a value use it up. -/
def assignInstrIds : List Instr → Nat → Option (List Nat)
  | [], _ => some []
  | instr :: instrs, next => do
    let after ← if instr.hasValue then nextValueId next else some next
    let ids ← assignInstrIds instrs after
    some (next :: ids)

/-- The `value.id` fields of the module's lists and of the function being emitted. -/
structure Ids where
  gvars : List Nat
  funcs : List Nat
  consts : List Nat
  instrs : List Nat

def Ids.of? (ids : Ids) : Value → Option Nat
  | .gvar index => ids.gvars[index]?
  | .func index => ids.funcs[index]?
  | .const index => ids.consts[index]?
  | .instr index => ids.instrs[index]?

/-- The ids outside the functions, and those in each function. -/
def DxilModule.assignValues (m : DxilModule) : Option (Ids × List (List Nat)) := do
  let (gvars, next) ← assignIds m.gvars.length 0
  let (funcs, next) ← assignIds m.funcs.length next
  let (consts, valueIdAtFunctionsStart) ← assignIds m.consts.length next
  let instrs ← m.funcDefs.mapM fun func => assignInstrIds func.instrs valueIdAtFunctionsStart
  some (⟨gvars, funcs, consts, []⟩, instrs)

/-! ## Operands of records -/

/-- The conversion of an integer to `uint64_t`. -/
def toU64 (value : Int) : Nat := (value % 2 ^ 64).toNat

def encodeSigned (value : Int) : Nat :=
  if 0 ≤ value then toU64 (2 * value) else toU64 (2 * -value + 1)

/-- `instr->value.id - operand->id`. -/
def Ids.relative (ids : Ids) (valueId : Nat) (operand : Value) : Option Nat := do
  let id ← ids.of? operand
  some (toU64 (valueId - id))

/-- The data of a record that is built in a local array. -/
def localArray (size : Nat) (data : List Nat) : Option (List Nat) :=
  if data.length ≤ size then some data else none

/-! ## Function blocks -/

def FUNC_CODE_DECLAREBLOCKS : Nat := 1
def FUNC_CODE_INST_BINOP : Nat := 2
def FUNC_CODE_INST_CAST : Nat := 3
def FUNC_CODE_INST_RET : Nat := 10
def FUNC_CODE_INST_BR : Nat := 11
def FUNC_CODE_INST_UNREACHABLE : Nat := 15
def FUNC_CODE_INST_PHI : Nat := 16
def FUNC_CODE_INST_ALLOCA : Nat := 19
def FUNC_CODE_INST_LOAD : Nat := 20
def FUNC_CODE_INST_EXTRACTVAL : Nat := 26
def FUNC_CODE_INST_CMP2 : Nat := 28
def FUNC_CODE_INST_VSELECT : Nat := 29
def FUNC_CODE_INST_CALL : Nat := 34
def FUNC_CODE_INST_CMPXCHG_OLD : Nat := 37
def FUNC_CODE_INST_ATOMICRMW : Nat := 38
def FUNC_CODE_INST_GEP : Nat := 43
def FUNC_CODE_INST_STORE : Nat := 44

/-- The operand `TYPE_INDEX` of the operand tables. -/
def TYPE_INDEX : AbbrevOperand := .fixed 32

inductive FuncAbbrevId where
  | load
  | binop
  | binopFlags
  | cast
  | retVoid
  | retVal
  | unreachable
  | gep
  deriving DecidableEq, Repr

def FuncAbbrevId.index : FuncAbbrevId → Nat
  | load => 0
  | binop => 1
  | binopFlags => 2
  | cast => 3
  | retVoid => 4
  | retVal => 5
  | unreachable => 6
  | gep => 7

def funcAbbrevs : FuncAbbrevId → DxilAbbrev
  | .load => { operands := [.literal FUNC_CODE_INST_LOAD, .vbr 6, TYPE_INDEX, .vbr 4, .fixed 1] }
  | .binop => { operands := [.literal FUNC_CODE_INST_BINOP, .vbr 6, .vbr 6, .fixed 4] }
  | .binopFlags =>
    { operands := [.literal FUNC_CODE_INST_BINOP, .vbr 6, .vbr 6, .fixed 4, .fixed 7] }
  | .cast => { operands := [.literal FUNC_CODE_INST_CAST, .vbr 6, TYPE_INDEX, .fixed 4] }
  | .retVoid => { operands := [.literal FUNC_CODE_INST_RET] }
  | .retVal => { operands := [.literal FUNC_CODE_INST_RET, .vbr 6] }
  | .unreachable => { operands := [.literal FUNC_CODE_INST_UNREACHABLE] }
  | .gep => { operands := [.literal FUNC_CODE_INST_GEP, .fixed 1, TYPE_INDEX, .array, .vbr 6] }

def emitFuncAbbrevRecord (abbrevId : FuncAbbrevId) (data : List Nat) : WriterCall :=
  .emitRecordAbbrev (abbrevId.index + DXIL_FIRST_APPLICATION_ABBREV) (funcAbbrevs abbrevId) data

section Emit

variable (ids : Ids) (blockIds : List Int) (funcs : List Func) (valueId : Nat)

def emitBinop (opcode : Nat) (op0 op1 : Value) (flags : Nat) : Option WriterCall := do
  let op0 ← ids.relative valueId op0
  let op1 ← ids.relative valueId op1
  if flags ≠ 0 then
    some (emitFuncAbbrevRecord .binopFlags [FUNC_CODE_INST_BINOP, op0, op1, opcode, flags])
  else some (emitFuncAbbrevRecord .binop [FUNC_CODE_INST_BINOP, op0, op1, opcode])

def emitCmp (pred : Nat) (op0 op1 : Value) : Option WriterCall := do
  let op0 ← ids.relative valueId op0
  let op1 ← ids.relative valueId op1
  some (.emitRecordNoAbbrev FUNC_CODE_INST_CMP2 [op0, op1, pred])

def emitSelect (op0 op1 op2 : Value) : Option WriterCall := do
  let op1 ← ids.relative valueId op1
  let op2 ← ids.relative valueId op2
  let op0 ← ids.relative valueId op0
  some (.emitRecordNoAbbrev FUNC_CODE_INST_VSELECT [op1, op2, op0])

def emitCast (opcode type : Nat) (value : Value) : Option WriterCall := do
  let value ← ids.relative valueId value
  some (emitFuncAbbrevRecord .cast [FUNC_CODE_INST_CAST, value, type, opcode])

def emitBranch (cond : Option Value) (succ0 succ1 : Nat) : Option WriterCall := do
  let block0 ← blockIds[succ0]?
  match cond with
  | none => some (.emitRecordNoAbbrev FUNC_CODE_INST_BR [toU64 block0])
  | some cond => do
    let block1 ← blockIds[succ1]?
    let cond ← ids.relative valueId cond
    some (.emitRecordNoAbbrev FUNC_CODE_INST_BR [toU64 block0, toU64 block1, cond])

def emitIncoming (incoming : Value × Nat) : Option (List Nat) := do
  let id ← ids.of? incoming.1
  let block ← blockIds[incoming.2]?
  some [encodeSigned (valueId - id), toU64 block]

def emitPhi (type : Nat) (incoming : List (Value × Nat)) : Option WriterCall := do
  let pairs ← incoming.mapM (emitIncoming ids blockIds valueId)
  let data ← localArray 128 (type :: pairs.flatten)
  some (.emitRecordNoAbbrev FUNC_CODE_INST_PHI data)

def emitExtractval (src : Value) (idx : Nat) : Option WriterCall := do
  let src ← ids.relative valueId src
  some (.emitRecordNoAbbrev FUNC_CODE_INST_EXTRACTVAL [src, idx])

def emitCall (func : Nat) (args : List Value) : Option WriterCall := do
  let callee ← funcs[func]?
  let valueIdDelta ← ids.relative valueId (.func func)
  let args ← args.mapM (ids.relative valueId)
  -- attribute id, then calling convention etc
  let data ← localArray 256 (0 :: 2 ^ 15 :: callee.type :: valueIdDelta :: args)
  some (.emitRecordNoAbbrev FUNC_CODE_INST_CALL data)

def emitRet (value : Option Value) : Option WriterCall :=
  match value with
  | some value => do
    let id ← ids.of? value
    some (emitFuncAbbrevRecord .retVal [FUNC_CODE_INST_RET, id])
  | none => some (emitFuncAbbrevRecord .retVoid [FUNC_CODE_INST_RET])

def emitAlloca (allocType sizeType : Nat) (size : Value) (align : Nat) : Option WriterCall := do
  let size ← ids.of? size
  some (.emitRecordNoAbbrev FUNC_CODE_INST_ALLOCA [allocType, sizeType, size, align])

def emitGep (inbounds : Bool) (sourceElemType : Nat) (operands : List Value) :
    Option WriterCall := do
  let operands ← operands.mapM (ids.relative valueId)
  let data ← localArray 256 (FUNC_CODE_INST_GEP :: inbounds.toNat :: sourceElemType :: operands)
  some (emitFuncAbbrevRecord .gep data)

def emitLoad (ptr : Value) (type align : Nat) (isVolatile : Bool) : Option WriterCall := do
  let ptr ← ids.relative valueId ptr
  some (.emitRecordNoAbbrev FUNC_CODE_INST_LOAD [ptr, type, align, isVolatile.toNat])

def emitStore (value ptr : Value) (align : Nat) (isVolatile : Bool) : Option WriterCall := do
  let ptr ← ids.relative valueId ptr
  let value ← ids.relative valueId value
  some (.emitRecordNoAbbrev FUNC_CODE_INST_STORE [ptr, value, align, isVolatile.toNat])

def emitCmpxchg (cmpval newval ptr : Value) (isVolatile : Bool) (ordering syncscope : Nat) :
    Option WriterCall := do
  let ptr ← ids.relative valueId ptr
  let cmpval ← ids.relative valueId cmpval
  let newval ← ids.relative valueId newval
  some (.emitRecordNoAbbrev FUNC_CODE_INST_CMPXCHG_OLD
    [ptr, cmpval, newval, isVolatile.toNat, ordering, syncscope])

def emitAtomicrmw (value ptr : Value) (op : Nat) (isVolatile : Bool) (ordering syncscope : Nat) :
    Option WriterCall := do
  let ptr ← ids.relative valueId ptr
  let value ← ids.relative valueId value
  some (.emitRecordNoAbbrev FUNC_CODE_INST_ATOMICRMW
    [ptr, value, op, isVolatile.toNat, ordering, syncscope])

def emitInstr : Instr → Option WriterCall
  | .binop opcode op0 op1 flags => emitBinop ids valueId opcode op0 op1 flags
  | .cmp pred op0 op1 => emitCmp ids valueId pred op0 op1
  | .select op0 op1 op2 => emitSelect ids valueId op0 op1 op2
  | .cast opcode type value => emitCast ids valueId opcode type value
  | .br cond succ0 succ1 => emitBranch ids blockIds valueId cond succ0 succ1
  | .phi type incoming => emitPhi ids blockIds valueId type incoming
  | .call func args _ => emitCall ids funcs valueId func args
  | .ret value => emitRet ids value
  | .extractval src _ idx => emitExtractval ids valueId src idx
  | .alloca allocType sizeType size align => emitAlloca ids allocType sizeType size align
  | .gep inbounds sourceElemType operands => emitGep ids valueId inbounds sourceElemType operands
  | .load ptr type align isVolatile => emitLoad ids valueId ptr type align isVolatile
  | .store value ptr align isVolatile => emitStore ids valueId value ptr align isVolatile
  | .cmpxchg cmpval newval ptr isVolatile ordering syncscope =>
    emitCmpxchg ids valueId cmpval newval ptr isVolatile ordering syncscope
  | .atomicrmw value ptr op isVolatile ordering syncscope =>
    emitAtomicrmw ids valueId value ptr op isVolatile ordering syncscope

end Emit

def emitInstrs (ids : Ids) (blockIds : List Int) (funcs : List Func) :
    List Instr → List Nat → Option (List WriterCall)
  | instr :: instrs, valueId :: valueIds => do
    let call ← emitInstr ids blockIds funcs valueId instr
    let calls ← emitInstrs ids blockIds funcs instrs valueIds
    some (call :: calls)
  | _, _ => some []

/-- What `emit_function` writes inside the block of a function. -/
def emitFunction (ids : Ids) (funcs : List Func) (func : FuncDef) : Option (List WriterCall) := do
  let calls ← emitInstrs ids func.basicBlockIds funcs func.instrs ids.instrs
  some (.emitRecordNoAbbrev FUNC_CODE_DECLAREBLOCKS [func.currBlock] :: calls)

/-! ## Module info -/

def DXIL_MODULE_CODE_TRIPLE : Nat := 2
def DXIL_MODULE_CODE_DATALAYOUT : Nat := 3
def DXIL_MODULE_CODE_GLOBALVAR : Nat := 7
def DXIL_MODULE_CODE_FUNCTION : Nat := 8

def GVAR_FLAG_CONSTANT : Nat := 1
def GVAR_FLAG_EXPLICIT_TYPE : Nat := 2
def GVAR_LINKAGE_EXTERNAL : Nat := 0
def GVAR_LINKAGE_INTERNAL : Nat := 3

def emitTargetTriple (triple : String) : WriterCall :=
  .emitRecordNoAbbrev DXIL_MODULE_CODE_TRIPLE (triple.toList.map Char.toNat)

def emitDatalayout (datalayout : String) : WriterCall :=
  .emitRecordNoAbbrev DXIL_MODULE_CODE_DATALAYOUT (datalayout.toList.map Char.toNat)

def emitModuleInfoFunction (func : Func) : WriterCall :=
  .emitRecordNoAbbrev DXIL_MODULE_CODE_FUNCTION
    [func.type, 0, func.decl.toNat, 0, func.attrSet, 0, 0, 0, 0, 0, 0, 0, 0, 0, 0]

/-- The abbreviation whose field widths are taken from the global variables. -/
def simpleGvarAbbr (gvars : List Gvar) : DxilAbbrev where
  operands :=
    let maxGlobalType := (gvars.map Gvar.type).foldl max 0
    let maxAlignment := (gvars.map Gvar.align).foldl max 0
    [.literal DXIL_MODULE_CODE_GLOBALVAR, .fixed (Nat.log2 maxGlobalType + 1), .vbr 6, .vbr 6,
      .fixed 5, .fixed (Nat.log2 maxAlignment + 1), .literal 0]
  atMostSeven := by simp

/-- `gvar->initializer ? gvar->initializer->id + 1 : 0`. -/
def initializerOperand (ids : Ids) : Option Value → Option Nat
  | some value => do
    let id ← ids.of? value
    some (id + 1)
  | none => some 0

def emitModuleInfoGlobal (ids : Ids) (simpleGvarAbbr : DxilAbbrev) (gvar : Gvar) :
    Option WriterCall := do
  let initializer ← initializerOperand ids gvar.initializer
  let linkage := if gvar.initializer.isSome then GVAR_LINKAGE_INTERNAL else GVAR_LINKAGE_EXTERNAL
  let flags := if gvar.constant then GVAR_FLAG_CONSTANT else 0
  some (.emitRecordAbbrev 4 simpleGvarAbbr
    [DXIL_MODULE_CODE_GLOBALVAR, gvar.type, gvar.as <<< 2 ||| GVAR_FLAG_EXPLICIT_TYPE ||| flags,
      initializer, linkage, Nat.log2 gvar.align + 1, 0])

def DxilModule.emitModuleInfo (m : DxilModule) (ids : Ids) : Option (List WriterCall) := do
  let gvars ← m.gvars.mapM (emitModuleInfoGlobal ids (simpleGvarAbbr m.gvars))
  some (emitTargetTriple "dxil-ms-dx" ::
    emitDatalayout ("e-m:e-p:32:32-i1:32-i8:32-i16:32-i32:32-i64:64-f16:32-f32:32-f64:64-" ++
      "n8:16:32:64") ::
    .defineAbbrev (simpleGvarAbbr m.gvars) :: (gvars ++ m.funcs.map emitModuleInfoFunction))

/-! ## Constants -/

def CST_CODE_SETTYPE : Nat := 1
def CST_CODE_NULL : Nat := 2
def CST_CODE_UNDEF : Nat := 3
def CST_CODE_INTEGER : Nat := 4
def CST_CODE_FLOAT : Nat := 6
def CST_CODE_AGGREGATE : Nat := 7
def CST_CODE_STRING : Nat := 8
def CST_CODE_CSTRING : Nat := 9
def CST_CODE_CE_CAST : Nat := 11

inductive ConstAbbrevId where
  | setType
  | integer
  | ceCast
  | null
  deriving DecidableEq, Repr

def ConstAbbrevId.index : ConstAbbrevId → Nat
  | setType => 0
  | integer => 1
  | ceCast => 2
  | null => 3

def constAbbrevs : ConstAbbrevId → DxilAbbrev
  | .setType => { operands := [.literal CST_CODE_SETTYPE, TYPE_INDEX] }
  | .integer => { operands := [.literal CST_CODE_INTEGER, .vbr 8] }
  | .ceCast => { operands := [.literal CST_CODE_CE_CAST, .fixed 4, TYPE_INDEX, .vbr 8] }
  | .null => { operands := [.literal CST_CODE_NULL] }

def emitConstAbbrevRecord (abbrevId : ConstAbbrevId) (data : List Nat) : WriterCall :=
  .emitRecordAbbrev (abbrevId.index + DXIL_FIRST_APPLICATION_ABBREV) (constAbbrevs abbrevId) data

def emitModuleConstAbbrevs : List WriterCall :=
  [.defineAbbrev { operands := [.literal CST_CODE_AGGREGATE, .array, .fixed 5] },
    .defineAbbrev { operands := [.literal CST_CODE_STRING, .array, .fixed 8] },
    .defineAbbrev { operands := [.literal CST_CODE_CSTRING, .array, .fixed 7] },
    .defineAbbrev { operands := [.literal CST_CODE_CSTRING, .array, .char6] }]

def emitSetType (typeIndex : Nat) : WriterCall :=
  emitConstAbbrevRecord .setType [CST_CODE_SETTYPE, typeIndex]

def emitNullValue : WriterCall := .emitRecordNoAbbrev CST_CODE_NULL []

def emitUndefValue : WriterCall := .emitRecordNoAbbrev CST_CODE_UNDEF []

def emitIntValue (value : Int) : WriterCall :=
  if value = 0 then emitNullValue
  else emitConstAbbrevRecord .integer [CST_CODE_INTEGER, encodeSigned value]

/-- `emit_float16_value`, `emit_float_value` and `emit_double_value`. -/
def emitFloatValue (bits : Nat) : WriterCall :=
  if bits = 0 then emitNullValue else .emitRecordNoAbbrev CST_CODE_FLOAT [bits]

def emitAggregateValues (ids : Ids) (values : List Value) (numValues : Nat) :
    Option WriterCall :=
  if numValues ≤ values.length then do
    let valueIds ← (values.take numValues).mapM ids.of?
    some (.emitRecordNoAbbrev CST_CODE_AGGREGATE valueIds)
  else none

def emitConst (types : List DxilType) (ids : Ids) (c : Const) : Option WriterCall :=
  match c.value, types[c.type]? with
  | .undef, _ => some emitUndefValue
  | .int value, some (.integer _) => some (emitIntValue value)
  | .int value, some (.float 16) => some (emitFloatValue (toU64 value % 2 ^ 16))
  | .float value, some (.float 32) => some (emitFloatValue value)
  | .float value, some (.float 64) => some (emitFloatValue value)
  | .aggregate values, some (.array numElems _) => emitAggregateValues ids values numElems
  | .aggregate values, some (.struct elem) => emitAggregateValues ids values elem.length
  | _, _ => none

/-- The loop of `emit_consts`, with the type set last. -/
def emitConstsFrom (types : List DxilType) (ids : Ids) :
    Option Nat → List Const → Option (List WriterCall)
  | _, [] => some []
  | currType, c :: consts => do
    let setType := if currType = some c.type then [] else [emitSetType c.type]
    let record ← emitConst types ids c
    let rest ← emitConstsFrom types ids (some c.type) consts
    some (setType ++ record :: rest)

def DxilModule.emitConsts (m : DxilModule) (ids : Ids) : Option (List WriterCall) :=
  emitConstsFrom m.types ids none m.consts

/-! ## The module -/

/-- The parts of a module that carry values: the module info, the body of the constant
block and the bodies of the function blocks. -/
structure ValueCalls where
  moduleInfo : List WriterCall
  moduleConsts : List WriterCall
  functions : List (List WriterCall)

/-- What `dxil_emit_module` writes for the values of a module. -/
def DxilModule.emitValues (m : DxilModule) : Option ValueCalls := do
  let (ids, instrIds) ← m.assignValues
  let moduleInfo ← m.emitModuleInfo ids
  let consts ← m.emitConsts ids
  let functions ← (m.funcDefs.zip instrIds).mapM fun entry =>
    emitFunction { ids with instrs := entry.2 } m.funcs entry.1
  some {
    moduleInfo := moduleInfo
    moduleConsts := emitModuleConstAbbrevs ++ consts
    functions := functions }

end SpirvToDxil
