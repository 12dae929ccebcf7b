import SpirvToDxil.Dxil.Module.Instr

/-!
# What a reader numbers

Ids are not stored in the stream.  A reader gives the next id to every record that
defines a value: global variables and functions, then the constants, then in each
function block, from the same start again, the instructions with a value.  The
operands of instructions are decoded against that table.
-/

namespace SpirvToDxil

abbrev CodedRecord := Nat × List Nat

def WriterCall.record? : WriterCall → Option CodedRecord
  | .emitRecordNoAbbrev code data => some (code, data)
  | .emitRecordAbbrev _ _ (code :: data) => some (code, data)
  | _ => none

/-- The values that the records of the module info define; `gvars` and `funcs` count
those met so far. -/
def globalValues : Nat → Nat → List CodedRecord → List Value
  | _, _, [] => []
  | gvars, funcs, record :: records =>
    if record.1 = DXIL_MODULE_CODE_GLOBALVAR then
      .gvar gvars :: globalValues (gvars + 1) funcs records
    else if record.1 = DXIL_MODULE_CODE_FUNCTION then
      .func funcs :: globalValues gvars (funcs + 1) records
    else globalValues gvars funcs records

def constValues : Nat → List CodedRecord → List Value
  | _, [] => []
  | consts, record :: records =>
    if record.1 = CST_CODE_SETTYPE then constValues consts records
    else .const consts :: constValues (consts + 1) records

def returnsVoid (types : List DxilType) (functionType : Nat) : Option Bool :=
  match types[functionType]? with
  | some (.function retType _) => some (types[retType]? = some .void)
  | _ => none

/-- A call defines a value unless the function type in the record returns void. -/
def producesValue (types : List DxilType) (record : CodedRecord) : Bool :=
  if record.1 = FUNC_CODE_INST_CALL then
    (record.2[2]?.bind (returnsVoid types)) = some false
  else record.1 ∈ [FUNC_CODE_INST_BINOP, FUNC_CODE_INST_CAST, FUNC_CODE_INST_PHI,
    FUNC_CODE_INST_ALLOCA, FUNC_CODE_INST_LOAD, FUNC_CODE_INST_EXTRACTVAL, FUNC_CODE_INST_CMP2,
    FUNC_CODE_INST_VSELECT, FUNC_CODE_INST_CMPXCHG_OLD, FUNC_CODE_INST_ATOMICRMW,
    FUNC_CODE_INST_GEP]

/-- The values that the instruction records of a function block define. -/
def instrValues (types : List DxilType) : Nat → List CodedRecord → List Value
  | _, [] => []
  | index, record :: records =>
    if producesValue types record then .instr index :: instrValues types (index + 1) records
    else instrValues types (index + 1) records

/-- The sign-rotated form: bit 0 is the sign. -/
def decodeSigned (value : Nat) : Int :=
  if value % 2 = 0 then (value / 2 : Nat)
  else if value = 1 then -2 ^ 63
  else -(value / 2 : Nat)

/-- Every other operand of a phi, behind its type, is a value. -/
def incomingIds (next : Nat) : List Nat → List Int
  | value :: _ :: rest => (next - decodeSigned value) :: incomingIds next rest
  | _ => []

/-- The ids in the value fields of an instruction record, where `next` is the id that
the next value gets. -/
def operandIds (next : Nat) (record : CodedRecord) : List Int :=
  let relative (operand : Nat) : Int := next - operand
  match record.1, record.2 with
  | 2, op0 :: op1 :: _ => [relative op0, relative op1]
  | 3, value :: _ => [relative value]
  | 11, [_, _, cond] => [relative cond]
  | 16, _ :: incoming => incomingIds next incoming
  | 19, [_, _, size, _] => [(size : Int)]
  | 20, ptr :: _ => [relative ptr]
  | 26, src :: _ => [relative src]
  | 28, [op0, op1, _] => [relative op0, relative op1]
  | 29, [op1, op2, op0] => [relative op1, relative op2, relative op0]
  | 34, _ :: _ :: _ :: callee :: args => relative callee :: args.map relative
  | 37, ptr :: cmpval :: newval :: _ => [relative ptr, relative cmpval, relative newval]
  | 38, ptr :: value :: _ => [relative ptr, relative value]
  | 43, _ :: _ :: operands => operands.map relative
  | 44, ptr :: value :: _ => [relative ptr, relative value]
  | _, _ => []

def lookup (table : List Value) (id : Int) : Option Value :=
  if 0 ≤ id then table[id.toNat]? else none

def readInstrs (types : List DxilType) (table : List Value) :
    Nat → List CodedRecord → List (List (Option Value))
  | _, [] => []
  | next, record :: records =>
    (operandIds next record).map (lookup table) ::
      readInstrs types table (if producesValue types record then next + 1 else next) records

/-- A function block is read with the ids of the module in front of its own. -/
def readFunction (types : List DxilType) (globals : List Value) (records : List CodedRecord) :
    List (List (Option Value)) :=
  let body := records.filter (·.1 ≠ FUNC_CODE_DECLAREBLOCKS)
  readInstrs types (globals ++ instrValues types 0 body) globals.length body

/-- The operands of every instruction of every function, in stream order. -/
def ValueCalls.read (types : List DxilType) (calls : ValueCalls) :
    List (List (List (Option Value))) :=
  let globals := globalValues 0 0 (calls.moduleInfo.filterMap WriterCall.record?) ++
    constValues 0 (calls.moduleConsts.filterMap WriterCall.record?)
  calls.functions.map fun body =>
    readFunction types globals (body.filterMap WriterCall.record?)

/-! ## What the module was built with -/

/-- The values that an instruction was built with, in the order of its record.  The
writer's form of a returned value is not part of this table. -/
def Instr.operands : Instr → List Value
  | binop _ op0 op1 _ => [op0, op1]
  | cmp _ op0 op1 => [op0, op1]
  | select op0 op1 op2 => [op1, op2, op0]
  | cast _ _ value => [value]
  | br cond _ _ => cond.toList
  | phi _ incoming => incoming.map (·.1)
  | call func args _ => .func func :: args
  | ret _ => []
  | extractval src _ _ => [src]
  | alloca _ _ size _ => [size]
  | gep _ _ operands => operands
  | load ptr _ _ _ => [ptr]
  | store value ptr _ _ => [ptr, value]
  | cmpxchg cmpval newval ptr _ _ _ => [ptr, cmpval, newval]
  | atomicrmw value ptr _ _ _ _ => [ptr, value]

def Instr.isPhi : Instr → Bool
  | phi _ _ => true
  | _ => false

/-- An entry of the module's lists, or one of the first `bound` instructions, that has
a value. -/
def DxilModule.Defines (m : DxilModule) (instrs : List Instr) (bound : Nat) : Value → Prop
  | .gvar index => index < m.gvars.length
  | .func index => index < m.funcs.length
  | .const index => index < m.consts.length
  | .instr index => index < bound ∧ instrs[index]?.map Instr.hasValue = some true

instance (m : DxilModule) (instrs : List Instr) (bound : Nat) :
    (value : Value) → Decidable (m.Defines instrs bound value)
  | .gvar _ => inferInstanceAs (Decidable (_ < _))
  | .func _ => inferInstanceAs (Decidable (_ < _))
  | .const _ => inferInstanceAs (Decidable (_ < _))
  | .instr _ => inferInstanceAs (Decidable (_ ∧ _))

/-- What the `dxil_emit_*` functions ask of an instruction besides its operands. -/
def Instr.Asserted (m : DxilModule) (f : FuncDef) : Instr → Prop
  | br cond succ0 succ1 => succ0 < f.basicBlockIds.length ∧
      (cond.isSome → succ1 < f.basicBlockIds.length)
  | phi _ incoming => ∀ source ∈ incoming, source.2 < f.basicBlockIds.length
  | call func _ hasValue =>
    (m.funcs[func]?.bind fun callee => returnsVoid m.types callee.type) = some !hasValue
  | ret value => value = none
  | _ => True

instance (m : DxilModule) (f : FuncDef) : (instr : Instr) → Decidable (instr.Asserted m f)
  | .br _ _ _ => inferInstanceAs (Decidable (_ ∧ _))
  | .phi _ incoming => inferInstanceAs (Decidable (∀ source ∈ incoming, _))
  | .call _ _ _ => inferInstanceAs (Decidable (_ = _))
  | .ret _ => inferInstanceAs (Decidable (_ = _))
  | .binop _ _ _ _ | .cmp _ _ _ | .select _ _ _ | .cast _ _ _ | .extractval _ _ _
  | .alloca _ _ _ _ | .gep _ _ _ | .load _ _ _ _ | .store _ _ _ _ | .cmpxchg _ _ _ _ _ _
  | .atomicrmw _ _ _ _ _ _ => .isTrue trivial

/-- An instruction whose operands are defined before it, or anywhere for a phi. -/
structure DxilModule.BuiltInstr (m : DxilModule) (f : FuncDef) (index : Nat) (instr : Instr) :
    Prop where
  operands : ∀ value ∈ instr.operands,
    m.Defines f.instrs (if instr.isPhi then f.instrs.length else index) value
  asserted : instr.Asserted m f

instance (m : DxilModule) (f : FuncDef) (index : Nat) (instr : Instr) :
    Decidable (m.BuiltInstr f index instr) :=
  decidable_of_iff (_ ∧ _) ⟨fun both => ⟨both.1, both.2⟩, fun built => ⟨built.1, built.2⟩⟩

/-- A constant that the `dxil_module_get_*` functions create. -/
def DxilModule.BuiltConst (m : DxilModule) (c : Const) : Prop :=
  match c.value, m.types[c.type]? with
  | .undef, _ => True
  | .int _, some (.integer _) => True
  | .int _, some (.float 16) => True
  | .float _, some (.float 32) => True
  | .float _, some (.float 64) => True
  | .aggregate values, some (.array numElems _) =>
    values.length = numElems ∧ ∀ value ∈ values, m.Defines [] 0 value
  | .aggregate values, some (.vector numElems _) =>
    values.length = numElems ∧ ∀ value ∈ values, m.Defines [] 0 value
  | .aggregate values, some (.struct elem) =>
    values.length = elem.length ∧ ∀ value ∈ values, m.Defines [] 0 value
  | _, _ => False

/-- A module as the functions of `dxil_module.h` build it, with every operand that is
not a phi's defined before it is used. -/
structure DxilModule.Built (m : DxilModule) : Prop where
  gvars : ∀ gvar ∈ m.gvars, ∀ value ∈ gvar.initializer, m.Defines [] 0 value
  consts : ∀ c ∈ m.consts, m.BuiltConst c
  instrs : ∀ f ∈ m.funcDefs, ∀ entry ∈ f.instrs.zipIdx, m.BuiltInstr f entry.2 entry.1

instance (m : DxilModule) (c : Const) : Decidable (m.BuiltConst c) := by
  unfold DxilModule.BuiltConst
  split <;> infer_instance

instance (m : DxilModule) : Decidable m.Built :=
  decidable_of_iff (_ ∧ _ ∧ _)
    ⟨fun all => ⟨all.1, all.2.1, all.2.2⟩, fun built => ⟨built.1, built.2, built.3⟩⟩

/-! ## When the writer has room -/

def Instr.Fits : Instr → Prop
  | phi _ incoming => incoming.length ≤ 63
  | call _ args _ => args.length ≤ 252
  | gep _ _ operands => operands.length ≤ 253
  | _ => True

instance : (instr : Instr) → Decidable instr.Fits
  | .phi _ _ | .call _ _ _ | .gep _ _ _ => inferInstanceAs (Decidable (_ ≤ _))
  | .binop _ _ _ _ | .cmp _ _ _ | .select _ _ _ | .cast _ _ _ | .br _ _ _ | .ret _
  | .extractval _ _ _ | .alloca _ _ _ _ | .load _ _ _ _ | .store _ _ _ _
  | .cmpxchg _ _ _ _ _ _ | .atomicrmw _ _ _ _ _ _ => .isTrue trivial

/-- `emit_consts` has a case for every type but vectors. -/
def DxilModule.FitsConst (m : DxilModule) (c : Const) : Prop :=
  match c.value, m.types[c.type]? with
  | .aggregate _, some (.vector _ _) => False
  | _, _ => True

instance (m : DxilModule) (c : Const) : Decidable (m.FitsConst c) := by
  unfold DxilModule.FitsConst
  split <;> infer_instance

def DxilModule.valueIdAtFunctionsStart (m : DxilModule) : Nat :=
  m.gvars.length + m.funcs.length + m.consts.length

structure DxilModule.Fits (m : DxilModule) : Prop where
  globals : m.valueIdAtFunctionsStart < 2 ^ 31
  values : ∀ f ∈ m.funcDefs,
    m.valueIdAtFunctionsStart + (f.instrs.filter Instr.hasValue).length < 2 ^ 31
  consts : ∀ c ∈ m.consts, m.FitsConst c
  instrs : ∀ f ∈ m.funcDefs, ∀ instr ∈ f.instrs, instr.Fits

end SpirvToDxil
