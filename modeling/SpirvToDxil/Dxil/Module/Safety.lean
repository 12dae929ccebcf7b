import SpirvToDxil.Dxil.Module.Tables

/-!
# Record builders stay in their arrays

Most records are built in a local array of fixed size. Some builders assert the
length, some do not, and some assert how ids compare. A module with its names,
attributes and metadata is emitted safely if no array overflows and no assertion
fails.
-/

namespace SpirvToDxil

inductive Attrib where
  | enum (kind : Nat)
  | enumValue (kind integer : Nat)
  | string (key : List UInt8)
  | stringValue (key value : List UInt8)
  deriving DecidableEq, Repr

def TypeEntry.toDxilType : TypeEntry → DxilType
  | void => .void
  | integer type => .integer type.intBits
  | float type => .float type.floatBits
  | pointer ptrTargetType => .pointer ptrTargetType
  | struct _ elem => .struct elem
  | array elemType numElems => .array numElems elemType
  | vector elemType numElems => .vector numElems elemType
  | function retType args => .function retType args

/-- A `dxil_module` with all that is emitted; the names are those that the API was given. -/
structure BitcodeModule where
  values : DxilModule
  typeEntries : List TypeEntry
  types_eq : values.types = typeEntries.map TypeEntry.toDxilType
  gvarNames : List (List UInt8)
  gvarNames_length : gvarNames.length = values.gvars.length
  funcNames : List (List UInt8)
  funcNames_length : funcNames.length = values.funcs.length
  attrSets : List (List Attrib)
  metadata : MetadataTable

/-! ## Attributes and symbols -/

def PARAMATTR_GRP_CODE_ENTRY : Nat := 3
def PARAMATTR_CODE_ENTRY : Nat := 2

def attribWords : Attrib → List Nat
  | .enum kind => [0, kind]
  | .enumValue kind integer => [1, kind, integer]
  | .string key => 3 :: (key.map charToU64 ++ [0])
  | .stringValue key value => 4 :: (key.map charToU64 ++ 0 :: (value.map charToU64 ++ [0]))

def emitAttribGroup (id slot : Nat) (attrs : List Attrib) : Option WriterCall := do
  let record ← localArray 128 (id :: slot :: attrs.flatMap attribWords)
  some (.emitRecordNoAbbrev PARAMATTR_GRP_CODE_ENTRY record)

/-- The loops of `emit_attrib_group_table` and `emit_attribute_table`. -/
def emitAttribGroupTable : Nat → List (List Attrib) → Option (List WriterCall)
  | _, [] => some []
  | id, attrs :: attrSets => do
    let group ← emitAttribGroup id (2 ^ 32 - 1) attrs
    let groups ← emitAttribGroupTable (id + 1) attrSets
    some (group :: groups)

def emitAttributeTable (attrSets : List (List Attrib)) : List WriterCall :=
  (List.range attrSets.length).map fun index => .emitRecordNoAbbrev PARAMATTR_CODE_ENTRY [index + 1]

def VST_CODE_ENTRY : Nat := 1
def VST_CODE_BBENTRY : Nat := 2

inductive ValueSymtabAbbrevId where
  | entry8
  | entry7
  | entry6
  | bbentry6
  deriving DecidableEq, Repr

def ValueSymtabAbbrevId.index : ValueSymtabAbbrevId → Nat
  | entry8 => 0
  | entry7 => 1
  | entry6 => 2
  | bbentry6 => 3

def valueSymtabAbbrevs : ValueSymtabAbbrevId → DxilAbbrev
  | .entry8 => { operands := [.fixed 3, .vbr 8, .array, .fixed 8] }
  | .entry7 => { operands := [.literal VST_CODE_ENTRY, .vbr 8, .array, .fixed 7] }
  | .entry6 => { operands := [.literal VST_CODE_ENTRY, .vbr 8, .array, .char6] }
  | .bbentry6 => { operands := [.literal VST_CODE_BBENTRY, .vbr 8, .array, .char6] }

def isChar7String (str : List UInt8) : Bool := str.all fun ch => ch.toNat < 128

def emitSymtabEntry (value : Nat) (name : List UInt8) : Option WriterCall := do
  let temp ← localArray 256 (VST_CODE_ENTRY :: value :: name.map UInt8.toNat)
  let abbrevId : ValueSymtabAbbrevId :=
    if isChar6String name then .entry6 else if isChar7String name then .entry7 else .entry8
  some (.emitRecordAbbrev (abbrevId.index + DXIL_FIRST_APPLICATION_ABBREV)
    (valueSymtabAbbrevs abbrevId) temp)

namespace BitcodeModule

/-- `add_function` truncates names. -/
def symbolNames (m : BitcodeModule) : List (List UInt8) :=
  m.funcNames.map (List.take 253) ++ m.gvarNames

def emitValueSymbolTable (m : BitcodeModule) (ids : Ids) : Option (List WriterCall) :=
  ((ids.funcs ++ ids.gvars).zip m.symbolNames).mapM fun (id, name) => emitSymtabEntry id name

end BitcodeModule

/-! ## The module -/

def DXIL_BLOCKINFO_CODE_SETBID : Nat := 1

def switchToBlock (block : Nat) : WriterCall :=
  .emitRecordNoAbbrev DXIL_BLOCKINFO_CODE_SETBID [block]

def emitBlockinfo : List WriterCall :=
  switchToBlock DXIL_VALUE_SYMTAB_BLOCK ::
    ([ValueSymtabAbbrevId.entry8, .entry7, .entry6, .bbentry6].map
        fun id => .defineAbbrev (valueSymtabAbbrevs id)) ++
  switchToBlock DXIL_CONST_BLOCK ::
    ([ConstAbbrevId.setType, .integer, .ceCast, .null].map
        fun id => .defineAbbrev (constAbbrevs id)) ++
  switchToBlock DXIL_FUNCTION_BLOCK ::
    ([FuncAbbrevId.load, .binop, .binopFlags, .cast, .retVoid, .retVal, .unreachable, .gep].map
        fun id => .defineAbbrev (funcAbbrevs id))

namespace BitcodeModule

/-- What `dxil_emit_module` writes; a write past a local array is `none`. -/
def emit (m : BitcodeModule) : Option ModuleCalls := do
  let (ids, _) ← m.values.assignValues
  let attribGroupTable ← emitAttribGroupTable 1 m.attrSets
  let typeTable ← emitTypeTable m.typeEntries
  let values ← m.values.emitValues
  let metadata ← emitMetadata ids m.metadata
  let valueSymbolTable ← m.emitValueSymbolTable ids
  some {
    blockinfo := emitBlockinfo
    attribGroupTable := attribGroupTable
    attributeTable := emitAttributeTable m.attrSets
    typeTable := typeTable
    moduleInfo := values.moduleInfo
    moduleConsts := values.moduleConsts
    metadata := metadata
    valueSymbolTable := valueSymbolTable
    functions := values.functions }

end BitcodeModule

/-! ## Assertions -/

/-- `size < ARRAY_SIZE(record) - strlen(str)`, on `size_t`. -/
def attribStringAssertion (size : Nat) (str : List UInt8) : Prop := size < toU64 (128 - str.length)

/-- The assertions of `emit_attrib_group`, where `size` words are written. -/
def attribAssertions : Nat → List Attrib → Prop
  | _, [] => True
  | size, attr :: attrs =>
    size < 126 ∧
      (match attr with
        | .enum _ => True
        | .enumValue _ _ => True
        | .string key => attribStringAssertion (size + 1) key
        | .stringValue key value => attribStringAssertion (size + 1) key ∧
          attribStringAssertion (size + 1 + key.length + 1) value) ∧
      attribAssertions (size + (attribWords attr).length) attrs

/-- The assertions of `emit_struct_name`, `emit_struct_name_char6`, `emit_struct_type` and
`emit_function_type`; ids are never negative. -/
def TypeEntry.Assertions : TypeEntry → Prop
  | struct name elem => elem.length < 254 ∧
      ∀ str, name = some str → str.length < if isChar6String str then 255 else 256
  | function _ args => args.length < 253
  | _ => True

/-- The assertions of `emit_metadata_string`, `emit_metadata_value` and `emit_metadata_node`. -/
def MdNode.Assertions (ids : Ids) : MdNode → Prop
  | string str => str.length < 255
  | value _ v => (ids.of? v).isSome = true
  | node subnodes => subnodes.length < 256

/-- The assertions of `emit_metadata_name` and `emit_metadata_named_node`. -/
structure NamedNode.Assertions (n : NamedNode) : Prop where
  name : n.name.length < 255
  subnodes : n.subnodes.length < 256
  notNull : ∀ id ∈ n.subnodes, 0 < id

/-- The operand was numbered before the instruction: `instr->value.id > operand->id`. -/
def Ids.Before (ids : Ids) (valueId : Nat) (operand : Value) : Prop :=
  ∃ id, ids.of? operand = some id ∧ id < valueId

def BlockGiven (blockIds : List Int) (block : Nat) : Prop :=
  ∃ id, blockIds[block]? = some id ∧ 0 ≤ id

def Instr.Assertions (ids : Ids) (blockIds : List Int) (valueId : Nat) : Instr → Prop
  | binop _ op0 op1 _ => ids.Before valueId op0 ∧ ids.Before valueId op1
  | cmp _ op0 op1 => ids.Before valueId op0 ∧ ids.Before valueId op1
  | select op0 op1 op2 =>
    ids.Before valueId op0 ∧ ids.Before valueId op1 ∧ ids.Before valueId op2
  | cast _ _ value => ids.Before valueId value
  | br cond succ0 succ1 => BlockGiven blockIds succ0 ∧
      ∀ value, cond = some value → ids.Before valueId value ∧ BlockGiven blockIds succ1
  | phi _ incoming => 0 < incoming.length ∧ ∀ source ∈ incoming, BlockGiven blockIds source.2
  | extractval src type _ => ids.Before valueId src ∧ type < valueId
  | call func args _ => (∃ id, ids.of? (.func func) = some id ∧ id ≤ valueId) ∧
      args.length < 252 ∧ ∀ arg ∈ args, (ids.of? arg).isSome = true
  | ret value => ∀ v, value = some v → (ids.of? v).isSome = true
  | alloca _ _ size _ => (ids.of? size).isSome = true
  | gep _ _ operands => operands.length < 253 ∧ ∀ operand ∈ operands, ids.Before valueId operand
  | load ptr _ _ _ => ids.Before valueId ptr
  | store value ptr _ _ => ids.Before valueId value ∧ ids.Before valueId ptr
  | cmpxchg cmpval newval ptr _ _ _ =>
    ids.Before valueId cmpval ∧ ids.Before valueId newval ∧ ids.Before valueId ptr
  | atomicrmw value ptr _ _ _ _ => ids.Before valueId value ∧ ids.Before valueId ptr

namespace BitcodeModule

/-- The assertions of all record builders, with the ids of the values. -/
structure Assertions (m : BitcodeModule) (ids : Ids) (instrIds : List (List Nat)) : Prop where
  attribGroups : ∀ attrs ∈ m.attrSets, attribAssertions 2 attrs
  types : ∀ type ∈ m.typeEntries, type.Assertions
  nodes : ∀ node ∈ m.metadata.mdnodeList, node.Assertions ids
  named : ∀ n ∈ m.metadata.mdNamedNodeList, n.Assertions
  symbols : ∀ name ∈ m.symbolNames, name.length < 254
  instrs : ∀ entry ∈ m.values.funcDefs.zip instrIds, ∀ (k : Nat) (instr : Instr) (valueId : Nat),
    entry.1.instrs[k]? = some instr → entry.2[k]? = some valueId →
      instr.Assertions { ids with instrs := entry.2 } entry.1.basicBlockIds valueId

/-- All arrays suffice and all assertions hold. -/
def Safe (m : BitcodeModule) : Prop :=
  ∃ calls ids instrIds, m.emit = some calls ∧ m.values.assignValues = some (ids, instrIds) ∧
    m.Assertions ids instrIds

/-- Operands are defined before they are used, and the members of a named node are nodes. -/
structure Built (m : BitcodeModule) : Prop where
  values : m.values.Built
  nodes : ∀ type value, .value type value ∈ m.metadata.mdnodeList → m.values.Defines [] 0 value
  named : ∀ n ∈ m.metadata.mdNamedNodeList, ∀ id ∈ n.subnodes, 0 < id

end BitcodeModule

/-! ## Bounds -/

/-- The words of an attribute group stay in their array where they are asserted to. -/
def AttribsWithin : Nat → List Attrib → Prop
  | _, [] => True
  | size, attr :: attrs =>
    size < 126 ∧ (size + (attribWords attr).length ≤ 128) ∧
      AttribsWithin (size + (attribWords attr).length) attrs

/-- What an instruction has to keep to, besides being built: the blocks it names have ids, a
phi has 1 to 63 incoming values, a call at most 251 arguments, a gep at most 252 operands,
and the type of an extracted value has a smaller id than the value. -/
def Instr.Within (blockIds : List Int) (valueId : Nat) : Instr → Prop
  | br cond succ0 succ1 => BlockGiven blockIds succ0 ∧
    (cond.isSome = true → BlockGiven blockIds succ1)
  | phi _ incoming => 0 < incoming.length ∧ incoming.length ≤ 63 ∧
      ∀ source ∈ incoming, BlockGiven blockIds source.2
  | call _ args _ => args.length ≤ 251
  | gep _ _ operands => operands.length ≤ 252
  | extractval _ type _ => type < valueId
  | _ => True

structure BitcodeModule.Within (m : BitcodeModule) : Prop where
  globals : m.values.valueIdAtFunctionsStart < 2 ^ 31
  values : ∀ f ∈ m.values.funcDefs, m.values.valueIdAtFunctionsStart + valueCount f.instrs < 2 ^ 31
  consts : ∀ c ∈ m.values.consts, m.values.FitsConst c
  attribGroups : ∀ attrs ∈ m.attrSets, AttribsWithin 2 attrs
  types : ∀ type ∈ m.typeEntries, type.Assertions
  strings : ∀ str, .string str ∈ m.metadata.mdnodeList → str.length ≤ 254
  nodes : ∀ subnodes, .node subnodes ∈ m.metadata.mdnodeList → subnodes.length ≤ 255
  named : ∀ n ∈ m.metadata.mdNamedNodeList, n.name.length ≤ 254 ∧ n.subnodes.length ≤ 255
  gvarNames : ∀ name ∈ m.gvarNames, name.length ≤ 253
  instrs : ∀ f ∈ m.values.funcDefs, ∀ (k : Nat) (instr : Instr), f.instrs[k]? = some instr →
    instr.Within f.basicBlockIds (m.values.valueIdAtFunctionsStart + valueCount (f.instrs.take k))

/-! ## Attribute groups -/

theorem attribAssertions_of_within {attrs : List Attrib} {size : Nat}
    (within : AttribsWithin size attrs) :
    attribAssertions size attrs := by
  induction attrs generalizing size with
  | nil => exact trivial
  | cons attr attrs inductionHypothesis =>
    rcases within with ⟨room, short, rest⟩
    refine ⟨room, ?_, inductionHypothesis rest⟩
    cases attr with
    | enum kind => exact trivial
    | enumValue kind integer => exact trivial
    | string key =>
      simp only [attribWords, List.length_cons, List.length_append, List.length_map,
        List.length_nil] at short
      simp only [attribStringAssertion, toU64]
      omega
    | stringValue key value =>
      simp only [attribWords, List.length_cons, List.length_append, List.length_map,
        List.length_nil] at short
      simp only [attribStringAssertion, toU64]
      omega

theorem length_of_within {attrs : List Attrib} {size : Nat} (within : AttribsWithin size attrs)
    (start : size ≤ 128) : size + (attrs.flatMap attribWords).length ≤ 128 := by
  induction attrs generalizing size with
  | nil => exact start
  | cons attr attrs inductionHypothesis =>
    rcases within with ⟨-, short, rest⟩
    have whole := inductionHypothesis rest short
    rw [List.flatMap_cons, List.length_append]
    omega

theorem within_of_attribAssertions {attrs : List Attrib} {size : Nat}
    (asserted : attribAssertions size attrs)
    (short : size + (attrs.flatMap attribWords).length ≤ 128) : AttribsWithin size attrs := by
  induction attrs generalizing size with
  | nil => exact trivial
  | cons attr attrs inductionHypothesis =>
    rw [List.flatMap_cons, List.length_append] at short
    rcases asserted with ⟨room, -, rest⟩
    refine ⟨room, ?_, inductionHypothesis rest ?_⟩ <;> omega

theorem emitAttribGroup_of_within {id slot : Nat} {attrs : List Attrib}
    (within : AttribsWithin 2 attrs) :
    ∃ call, emitAttribGroup id slot attrs = some call := by
  have short : (id :: slot :: attrs.flatMap attribWords).length ≤ 128 := by
    have words := length_of_within within (by decide)
    simp only [List.length_cons]
    omega
  exact ⟨_, by rw [emitAttribGroup, localArray_of_le short]; rfl⟩

theorem length_of_emitAttribGroup {id slot : Nat} {attrs : List Attrib} {call : WriterCall}
    (emitted : emitAttribGroup id slot attrs = some call) :
    2 + (attrs.flatMap attribWords).length ≤ 128 := by
  rcases Option.bind_eq_some_iff.mp emitted with ⟨record, inside, -⟩
  have short := length_of_localArray inside
  simp only [List.length_cons] at short
  omega

theorem exists_attribGroupTable {attrSets : List (List Attrib)}
    (within : ∀ attrs ∈ attrSets, AttribsWithin 2 attrs) (id : Nat) :
    ∃ calls, emitAttribGroupTable id attrSets = some calls := by
  induction attrSets generalizing id with
  | nil => exact ⟨[], rfl⟩
  | cons attrs attrSets inductionHypothesis =>
    rw [List.forall_mem_cons] at within
    rcases @emitAttribGroup_of_within id (2 ^ 32 - 1) attrs within.1 with ⟨group, emitted⟩
    rcases inductionHypothesis within.2 (id + 1) with ⟨groups, emitted'⟩
    exact ⟨group :: groups, by rw [emitAttribGroupTable, emitted, emitted']; rfl⟩

theorem length_of_attribGroupTable {attrSets : List (List Attrib)} {id : Nat}
    {calls : List WriterCall} (emitted : emitAttribGroupTable id attrSets = some calls) :
    ∀ attrs ∈ attrSets, 2 + (attrs.flatMap attribWords).length ≤ 128 := by
  induction attrSets generalizing id calls with
  | nil => nofun
  | cons attrs attrSets inductionHypothesis =>
    rcases Option.bind_eq_some_iff.mp emitted with ⟨group, isGroup, rest⟩
    rcases Option.bind_eq_some_iff.mp rest with ⟨groups, isGroups, -⟩
    rw [List.forall_mem_cons]
    exact ⟨length_of_emitAttribGroup isGroup, inductionHypothesis isGroups⟩

/-! ## Instructions -/

section Instructions

variable {m : DxilModule} {f : FuncDef} {k : Nat} {instr : Instr}

abbrev valueIdAt (m : DxilModule) (f : FuncDef) (k : Nat) : Nat :=
  m.valueIdAtFunctionsStart + valueCount (f.instrs.take k)

theorem before_of_defines (room : m.valueIdAtFunctionsStart + valueCount f.instrs < 2 ^ 31)
    {operand : Value} (defined : m.Defines f.instrs k operand) :
    (m.idsIn f).Before (valueIdAt m f k) operand := by
  rcases defined.resolves room with ⟨id, resolves, below⟩
  exact ⟨id, resolves.written, below k (Nat.le_refl k)⟩

theorem Ids.Before.isSome {ids : Ids} {valueId : Nat} {operand : Value}
    (before : ids.Before valueId operand) : (ids.of? operand).isSome = true := by
  rcases before with ⟨id, isId, -⟩
  rw [isId]
  rfl

/-- Of a built instruction only the bounds are left to check. -/
theorem assertions_of_within (room : m.valueIdAtFunctionsStart + valueCount f.instrs < 2 ^ 31)
    (built : m.BuiltInstr f k instr) (within : instr.Within f.basicBlockIds (valueIdAt m f k)) :
    instr.Assertions (m.idsIn f) f.basicBlockIds (valueIdAt m f k) := by
  have before : instr.isPhi = false → ∀ operand ∈ instr.operands,
      (m.idsIn f).Before (valueIdAt m f k) operand := by
    intro notPhi operand member
    have defined := built.operands operand member
    rw [notPhi] at defined
    exact before_of_defines room defined
  cases instr with
  | binop opcode op0 op1 flags =>
    exact ⟨before rfl op0 (by simp [Instr.operands]), before rfl op1 (by simp [Instr.operands])⟩
  | cmp pred op0 op1 =>
    exact ⟨before rfl op0 (by simp [Instr.operands]), before rfl op1 (by simp [Instr.operands])⟩
  | select op0 op1 op2 =>
    exact ⟨before rfl op0 (by simp [Instr.operands]), before rfl op1 (by simp [Instr.operands]),
      before rfl op2 (by simp [Instr.operands])⟩
  | cast opcode type value => exact before rfl value (by simp [Instr.operands])
  | br cond succ0 succ1 =>
    refine ⟨within.1, ?_⟩
    rintro value rfl
    exact ⟨before rfl value (by simp [Instr.operands]), within.2 rfl⟩
  | phi type incoming => exact ⟨within.1, within.2.2⟩
  | extractval src type idx => exact ⟨before rfl src (by simp [Instr.operands]), within⟩
  | call func args hasValue =>
    rcases before rfl (.func func) (by simp [Instr.operands]) with ⟨id, isId, below⟩
    refine ⟨⟨id, isId, below.le⟩, Nat.lt_succ_of_le within, ?_⟩
    intro arg member
    exact (before rfl arg (by simp [Instr.operands, member])).isSome
  | ret value =>
    have none : value = none := built.asserted
    rw [none]
    intro returned isSome
    cases isSome
  | alloca allocType sizeType size align =>
    exact (before rfl size (by simp [Instr.operands])).isSome
  | gep inbounds sourceElemType operands =>
    refine ⟨Nat.lt_succ_of_le within, ?_⟩
    intro operand member
    exact before rfl operand member
  | load ptr type align isVolatile => exact before rfl ptr (by simp [Instr.operands])
  | store value ptr align isVolatile =>
    exact ⟨before rfl value (by simp [Instr.operands]), before rfl ptr (by simp [Instr.operands])⟩
  | cmpxchg cmpval newval ptr isVolatile ordering syncscope =>
    exact ⟨before rfl cmpval (by simp [Instr.operands]),
      before rfl newval (by simp [Instr.operands]),
      before rfl ptr (by simp [Instr.operands])⟩
  | atomicrmw value ptr op isVolatile ordering syncscope =>
    exact ⟨before rfl value (by simp [Instr.operands]), before rfl ptr (by simp [Instr.operands])⟩

theorem within_of_assertions {ids : Ids} {blockIds : List Int} {valueId : Nat}
    (asserted : instr.Assertions ids blockIds valueId) (fits : instr.Fits) :
    instr.Within blockIds valueId := by
  cases instr with
  | br cond succ0 succ1 =>
    refine ⟨asserted.1, ?_⟩
    intro isSome
    rcases Option.isSome_iff_exists.mp isSome with ⟨value, isValue⟩
    exact (asserted.2 value isValue).2
  | phi type incoming => exact ⟨asserted.1, fits, asserted.2⟩
  | extractval src type idx => exact asserted.2
  | call func args hasValue => exact Nat.le_of_lt_succ asserted.2.1
  | gep inbounds sourceElemType operands => exact Nat.le_of_lt_succ asserted.1
  | _ => exact trivial

theorem fits_of_within {blockIds : List Int} {valueId : Nat}
    (within : instr.Within blockIds valueId) :
    instr.Fits := by
  cases instr with
  | phi type incoming => exact within.2.1
  | call func args hasValue => exact Nat.le_succ_of_le within
  | gep inbounds sourceElemType operands => exact Nat.le_succ_of_le within
  | _ => exact trivial

end Instructions

/-! ## Names -/

theorem emitSymtabEntry_of_short {value : Nat} {name : List UInt8} (short : name.length ≤ 254) :
    ∃ call, emitSymtabEntry value name = some call := by
  have fits : (VST_CODE_ENTRY :: value :: name.map UInt8.toNat).length ≤ 256 := by
    simp only [List.length_cons, List.length_map]
    omega
  exact ⟨_, by rw [emitSymtabEntry, localArray_of_le fits]; rfl⟩

namespace BitcodeModule

variable {m : BitcodeModule}

theorem symbolNames_short (gvarNames : ∀ name ∈ m.gvarNames, name.length ≤ 253) :
    ∀ name ∈ m.symbolNames, name.length ≤ 253 := by
  intro name member
  rcases List.mem_append.mp member with function | gvar
  · rcases List.mem_map.mp function with ⟨full, -, rfl⟩
    rw [List.length_take]
    exact Nat.min_le_left ..
  · exact gvarNames name gvar

theorem fits_of_assertions {type : TypeEntry} (asserted : type.Assertions) : type.Fits := by
  cases type with
  | struct name elem =>
    refine ⟨Nat.le_of_lt asserted.1, ?_⟩
    intro str isName
    exact Nat.le_trans (Nat.le_of_lt (asserted.2 str isName)) (Nat.le_refl _)
  | function retType args => exact Nat.le_of_lt asserted
  | _ => exact trivial

theorem exists_emitTypeTable {types : List TypeEntry} (fits : ∀ type ∈ types, type.Assertions) :
    ∃ calls, emitTypeTable types = some calls := by
  have each : ∀ type ∈ types, ∃ calls, emitType type = some calls :=
    fun type member => exists_emitType (fits_of_assertions (fits type member))
  rcases exists_mapM each with ⟨calls, emitted⟩
  exact ⟨_, by rw [emitTypeTable, emitted]; rfl⟩

theorem exists_emitMetadata (built : m.Built) (within : m.Within) :
    ∃ calls, emitMetadata m.values.globalIds m.metadata = some calls := by
  have nodes : ∀ node ∈ m.metadata.mdnodeList,
      ∃ call, emitMdnode m.values.globalIds node = some call := by
    intro node member
    cases node with
    | string str =>
      have short : (METADATA_STRING :: str.map UInt8.toNat).length ≤ 256 := by
        have few := within.strings str member
        simp only [List.length_cons, List.length_map]
        omega
      exact ⟨_, by rw [emitMdnode, emitMetadataString, localArray_of_le short]; rfl⟩
    | value type value =>
      rcases (built.nodes type value member).written within.globals with ⟨id, isId⟩
      exact ⟨_, by rw [emitMdnode, emitMetadataValue, isId]; rfl⟩
    | node subnodes =>
      have short : (subnodes.map fun subnode => subnode.getD 0).length ≤ 256 := by
        have few := within.nodes subnodes member
        rw [List.length_map]
        omega
      exact ⟨_, by rw [emitMdnode, emitMetadataNode, localArray_of_le short]; rfl⟩
  have named : ∀ n ∈ m.metadata.mdNamedNodeList, ∃ calls, emitMetadataNamedNode n = some calls := by
    intro n member
    rcases within.named n member with ⟨shortName, few⟩
    have short : (METADATA_NAME :: n.name.map charToU64).length ≤ 256 := by
      simp only [List.length_cons, List.length_map]
      omega
    have short' : (n.subnodes.map (· - 1)).length ≤ 256 := by
      rw [List.length_map]
      omega
    exact ⟨_, by
      rw [emitMetadataNamedNode, emitMetadataName, localArray_of_le short, localArray_of_le short']
      rfl⟩
  rcases exists_mapM nodes with ⟨nodes, emitted⟩
  rcases exists_mapM named with ⟨named, emitted'⟩
  exact ⟨_, by rw [emitMetadata, emitted, emitted']; rfl⟩

theorem exists_emitValueSymbolTable (within : m.Within) (ids : Ids) :
    ∃ calls, m.emitValueSymbolTable ids = some calls := by
  apply exists_mapM
  rintro ⟨id, name⟩ member
  have short := symbolNames_short within.gvarNames name (List.of_mem_zip member).2
  exact emitSymtabEntry_of_short (Nat.le_succ_of_le short)

theorem values_fit (within : m.Within) : m.values.Fits := by
  refine ⟨within.globals, within.values, within.consts, ?_⟩
  intro f inModule instr member
  rcases List.getElem?_of_mem member with ⟨k, isInstr⟩
  exact fits_of_within (within.instrs f inModule k instr isInstr)

theorem builtInstr_at (built : m.Built) {f : FuncDef} (inModule : f ∈ m.values.funcDefs) {k : Nat}
    {instr : Instr} (isInstr : f.instrs[k]? = some instr) : m.values.BuiltInstr f k instr := by
  apply built.values.instrs f inModule (instr, k)
  rw [List.mem_zipIdx_iff_getElem?]
  exact isInstr

theorem mem_zip_numbers {number : FuncDef → List Nat} {funcDefs : List FuncDef} {f : FuncDef}
    {numbers : List Nat} (member : (f, numbers) ∈ funcDefs.zip (funcDefs.map number)) :
    f ∈ funcDefs ∧ numbers = number f := by
  induction funcDefs with
  | nil => cases member
  | cons g funcDefs inductionHypothesis =>
    rw [List.map_cons, List.zip_cons_cons, List.mem_cons, Prod.mk.injEq] at member
    rcases member with ⟨rfl, rfl⟩ | member
    · exact ⟨List.mem_cons_self, rfl⟩
    · rcases inductionHypothesis member with ⟨inside, same⟩
      exact ⟨List.mem_cons_of_mem _ inside, same⟩

theorem mem_zip_numbers_of_mem {number : FuncDef → List Nat} {funcDefs : List FuncDef} {f : FuncDef}
    (member : f ∈ funcDefs) : (f, number f) ∈ funcDefs.zip (funcDefs.map number) := by
  induction funcDefs with
  | nil => cases member
  | cons g funcDefs inductionHypothesis =>
    rw [List.map_cons, List.zip_cons_cons]
    rcases List.mem_cons.mp member with rfl | member
    · exact List.mem_cons_self
    · exact List.mem_cons_of_mem _ (inductionHypothesis member)

theorem assertions_of_within (built : m.Built) (within : m.Within) :
    m.Assertions m.values.globalIds
      (m.values.funcDefs.map fun f => instrIds f.instrs m.values.valueIdAtFunctionsStart) := by
  refine ⟨?_, within.types, ?_, ?_, ?_, ?_⟩
  · exact fun attrs member => attribAssertions_of_within (within.attribGroups attrs member)
  · intro node member
    cases node with
    | string str => exact Nat.lt_succ_of_le (within.strings str member)
    | value type value =>
      rcases (built.nodes type value member).written within.globals with ⟨id, isId⟩
      rw [MdNode.Assertions, isId]
      rfl
    | node subnodes => exact Nat.lt_succ_of_le (within.nodes subnodes member)
  · intro n member
    rcases within.named n member with ⟨shortName, few⟩
    exact ⟨Nat.lt_succ_of_le shortName, Nat.lt_succ_of_le few, built.named n member⟩
  · exact fun name member => Nat.lt_succ_of_le (symbolNames_short within.gvarNames name member)
  · rintro ⟨f, numbers⟩ member k instr valueId isInstr isId
    rcases mem_zip_numbers member with ⟨inModule, rfl⟩
    have inside := (List.getElem?_eq_some_iff.mp isInstr).1
    have number := @instrIds_getElem? f.instrs m.values.valueIdAtFunctionsStart k inside
    rw [number, Option.some.injEq] at isId
    subst isId
    exact SpirvToDxil.assertions_of_within (within.values f inModule)
      (builtInstr_at built inModule isInstr)
      (within.instrs f inModule k instr isInstr)

theorem safe_of_within (built : m.Built) (within : m.Within) : m.Safe := by
  have assigned := m.values.assignValues_eq within.globals within.values
  rcases exists_attribGroupTable within.attribGroups 1 with ⟨groups, emittedGroups⟩
  rcases exists_emitTypeTable within.types with ⟨types, emittedTypes⟩
  rcases DxilModule.readBack_of_fits built.values (values_fit within) with
    ⟨values, emittedValues, -⟩
  rcases exists_emitMetadata built within with ⟨metadata, emittedMetadata⟩
  rcases exists_emitValueSymbolTable within m.values.globalIds with ⟨symbols, emittedSymbols⟩
  refine ⟨⟨emitBlockinfo, groups, emitAttributeTable m.attrSets, types, values.moduleInfo,
    values.moduleConsts, metadata, symbols, values.functions⟩, _, _, ?_, assigned,
    assertions_of_within built within⟩
  simp only [emit, assigned, emittedGroups, emittedTypes, emittedValues, emittedMetadata,
    emittedSymbols, Option.bind_eq_bind, Option.bind_some]

theorem within_of_safe (safe : m.Safe) : m.Within := by
  rcases safe with ⟨calls, ids, numbers, emitted, assigned, asserted⟩
  rw [emit, assigned, Option.bind_eq_bind, Option.bind_some] at emitted
  rcases Option.bind_eq_some_iff.mp emitted with ⟨groups, emittedGroups, emitted⟩
  rcases Option.bind_eq_some_iff.mp emitted with ⟨types, -, emitted⟩
  rcases Option.bind_eq_some_iff.mp emitted with ⟨values, emittedValues, -⟩
  have fits := DxilModule.fits_of_emitValues emittedValues
  rw [m.values.assignValues_eq fits.globals fits.values, Option.some.injEq, Prod.mk.injEq]
    at assigned
  rcases assigned with ⟨rfl, rfl⟩
  refine ⟨fits.globals, fits.values, fits.consts, ?_, asserted.types, ?_, ?_, ?_, ?_, ?_⟩
  · intro attrs member
    exact within_of_attribAssertions (asserted.attribGroups attrs member)
      (length_of_attribGroupTable emittedGroups attrs member)
  · exact fun str member => Nat.le_of_lt_succ (asserted.nodes _ member)
  · exact fun subnodes member => Nat.le_of_lt_succ (asserted.nodes _ member)
  · intro n member
    have bounds := asserted.named n member
    exact ⟨Nat.le_of_lt_succ bounds.name, Nat.le_of_lt_succ bounds.subnodes⟩
  · exact fun name member =>
      Nat.le_of_lt_succ (asserted.symbols name (List.mem_append_right _ member))
  · intro f inModule k instr isInstr
    have inside := (List.getElem?_eq_some_iff.mp isInstr).1
    have assertions := asserted.instrs _ (mem_zip_numbers_of_mem inModule) k instr _ isInstr
      (instrIds_getElem? inside)
    exact within_of_assertions assertions
      (fits.instrs f inModule instr (List.mem_of_getElem? isInstr))

theorem safe_iff_within (built : m.Built) : m.Safe ↔ m.Within :=
  ⟨within_of_safe, safe_of_within built⟩

/-- A function that returns at once, with a name, attributes and metadata. -/
def returning : BitcodeModule where
  values := ⟨[.void, .function 0 []], [], [⟨1, false, 1⟩], [⟨0, .undef⟩], [⟨[.ret none], [0], 1⟩]⟩
  typeEntries := [.void, .function 0 []]
  types_eq := rfl
  gvarNames := []
  gvarNames_length := rfl
  funcNames := [[0x6d]]
  funcNames_length := rfl
  attrSets := [[.string [0x61]]]
  metadata := ⟨[.string [0x6d], .value 0 (.const 0), .node [some 1, none, some 2]], [⟨[0x6e], [3]⟩]⟩

theorem safe_iff_within_returning : returning.Safe := by
  have built : returning.Built := by
    refine ⟨by decide, ?_, by decide⟩
    intro type value member
    simp only [returning, List.mem_cons, MdNode.value.injEq, reduceCtorEq, false_or,
      List.not_mem_nil, or_false] at member
    rw [member.2]
    exact Nat.one_pos
  apply (safe_iff_within built).mpr
  refine ⟨by decide, by decide, by decide, ?_, ?_, ?_, ?_, by decide, nofun, ?_⟩
  · intro attrs member
    rw [List.mem_singleton.mp member]
    exact ⟨by decide, by decide, trivial⟩
  · intro type member
    rcases List.mem_pair.mp member with rfl | rfl
    · exact trivial
    · exact (by decide : 0 < 253)
  · intro str member
    simp only [returning, List.mem_cons, MdNode.string.injEq, reduceCtorEq, List.not_mem_nil,
      or_false] at member
    rw [member]
    decide
  · intro subnodes member
    simp only [returning, List.mem_cons, MdNode.node.injEq, reduceCtorEq, false_or,
      List.not_mem_nil, or_false] at member
    rw [member]
    decide
  · intro f inModule k instr isInstr
    rw [List.mem_singleton.mp inModule] at isInstr
    cases k with
    | zero =>
      cases isInstr
      exact trivial
    | succ k => cases isInstr

/-- A phi that merges one value from each of 64 blocks. -/
def merging : BitcodeModule where
  values := DxilModule.mergeModule 64
  typeEntries := [.void, .integer .int32, .integer .int1, .function 0 []]
  types_eq := rfl
  gvarNames := []
  gvarNames_length := rfl
  funcNames := [[0x6d]]
  funcNames_length := rfl
  attrSets := []
  metadata := {}

theorem not_safe_merging : ¬ ∀ m : BitcodeModule, m.Built → m.Safe := by
  intro all
  have built : merging.Built := ⟨by decide +kernel, nofun, nofun⟩
  have within := within_of_safe (all merging built)
  have bounded := within.instrs _ List.mem_cons_self 64 _ rfl
  exact absurd bounded.2.1 (by decide)

end BitcodeModule

end SpirvToDxil
