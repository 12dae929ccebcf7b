import SpirvToDxil.Dxil.Module.FlatBlock
import SpirvToDxil.Dxil.Module.FloatConst
import SpirvToDxil.Util.MapM

/-!
# The type table

Types are interned by position. `void`, the integers and the floats are cached in
the module, the derived types are searched for, and a function type is new each
time it is added. The records of the table name other types by position; only
the name of a struct stands in a record of its own, in front of the struct.
-/

namespace SpirvToDxil

open Bitstream

/-- The bit sizes that `dxil_module_get_int_type` has a case for. -/
inductive IntType where
  | int1
  | int8
  | int16
  | int32
  | int64
  deriving DecidableEq, Repr

def IntType.intBits : IntType → Nat
  | int1 => 1
  | int8 => 8
  | int16 => 16
  | int32 => 32
  | int64 => 64

/-- `struct dxil_type`: another type is its `id`, and a name the bytes of a string. -/
inductive TypeEntry where
  | void
  | integer (type : IntType)
  | float (type : FloatType)
  | pointer (ptrTargetType : Nat)
  | struct (name : Option (List UInt8)) (elem : List Nat)
  | array (elemType numElems : Nat)
  | vector (elemType numElems : Nat)
  | function (retType : Nat) (args : List Nat)
  deriving DecidableEq, Repr

namespace TypeEntry

def isFunction : TypeEntry → Bool
  | function _ _ => true
  | _ => false

def refs : TypeEntry → List Nat
  | pointer ptrTargetType => [ptrTargetType]
  | struct _ elem => elem
  | array elemType _ => [elemType]
  | vector elemType _ => [elemType]
  | function retType args => retType :: args
  | _ => []

end TypeEntry

structure TypeTable where
  typeList : List TypeEntry := []
  voidType : Option Nat := none
  intType : IntType → Option Nat := fun _ => none
  floatType : FloatType → Option Nat := fun _ => none

namespace TypeTable

/-- The `id` is an `int`. -/
def createType (m : TypeTable) (type : TypeEntry) : Option (Nat × TypeTable) :=
  if m.typeList.length < 2 ^ 31 then
    some (m.typeList.length, { m with typeList := m.typeList ++ [type] })
  else none

def getVoidType (m : TypeTable) : Option (Nat × TypeTable) :=
  match m.voidType with
  | some id => some (id, m)
  | none => do
    let (id, m) ← m.createType .void
    some (id, { m with voidType := some id })

def getIntType (m : TypeTable) (type : IntType) : Option (Nat × TypeTable) :=
  match m.intType type with
  | some id => some (id, m)
  | none => do
    let (id, m) ← m.createType (.integer type)
    some (id, { m with intType := Function.update m.intType type (some id) })

def getFloatType (m : TypeTable) (type : FloatType) : Option (Nat × TypeTable) :=
  match m.floatType type with
  | some id => some (id, m)
  | none => do
    let (id, m) ← m.createType (.float type)
    some (id, { m with floatType := Function.update m.floatType type (some id) })

def findOrCreate (m : TypeTable) (type : TypeEntry) : Option (Nat × TypeTable) :=
  match m.typeList.findIdx? (· = type) with
  | some id => some (id, m)
  | none => m.createType type

def getPointerType (m : TypeTable) (target : Nat) : Option (Nat × TypeTable) :=
  m.findOrCreate (.pointer target)

def getStructType (m : TypeTable) (name : Option (List UInt8)) (elemTypes : List Nat) :
    Option (Nat × TypeTable) :=
  m.findOrCreate (.struct name elemTypes)

def getArrayType (m : TypeTable) (elemType numElems : Nat) : Option (Nat × TypeTable) :=
  m.findOrCreate (.array elemType numElems)

def getVectorType (m : TypeTable) (elemType numElems : Nat) : Option (Nat × TypeTable) :=
  m.findOrCreate (.vector elemType numElems)

def addFunctionType (m : TypeTable) (retType : Nat) (argTypes : List Nat) :
    Option (Nat × TypeTable) :=
  m.createType (.function retType argTypes)

def request (m : TypeTable) : TypeEntry → Option (Nat × TypeTable)
  | .void => m.getVoidType
  | .integer type => m.getIntType type
  | .float type => m.getFloatType type
  | .pointer target => m.getPointerType target
  | .struct name elemTypes => m.getStructType name elemTypes
  | .array elemType numElems => m.getArrayType elemType numElems
  | .vector elemType numElems => m.getVectorType elemType numElems
  | .function retType argTypes => m.addFunctionType retType argTypes

end TypeTable

/-- `types_equal`, by recursion on the depth of the types. -/
def typesEqual (types : List TypeEntry) : Nat → Nat → Nat → Bool
  | 0, lhs, rhs => lhs = rhs
  | depth + 1, lhs, rhs =>
    lhs = rhs ||
      match types[lhs]?, types[rhs]? with
      | some .void, some .void => true
      | some (.float type), some (.float type') => type.floatBits = type'.floatBits
      | some (.integer type), some (.integer type') => type.intBits = type'.intBits
      | some (.pointer target), some (.pointer target') => typesEqual types depth target target'
      | some (.array elem num), some (.array elem' num') =>
        num = num' && typesEqual types depth elem elem'
      | some (.vector elem num), some (.vector elem' num') =>
        num = num' && typesEqual types depth elem elem'
      | some (.function ret args), some (.function ret' args') =>
        typesEqual types depth ret ret' &&
          (args.length = args'.length && (args.zip args').all fun (l, r) =>
            typesEqual types depth l r)
      | some (.struct _ elem), some (.struct _ elem') =>
        elem.length = elem'.length && (elem.zip elem').all fun (l, r) => typesEqual types depth l r
      | _, _ => false

/-! ## Emission -/

def TYPE_CODE_NUMENTRY : Nat := 1
def TYPE_CODE_VOID : Nat := 2
def TYPE_CODE_FLOAT : Nat := 3
def TYPE_CODE_DOUBLE : Nat := 4
def TYPE_CODE_INTEGER : Nat := 7
def TYPE_CODE_POINTER : Nat := 8
def TYPE_CODE_HALF : Nat := 10
def TYPE_CODE_ARRAY : Nat := 11
def TYPE_CODE_VECTOR : Nat := 12
def TYPE_CODE_METADATA : Nat := 16
def TYPE_CODE_STRUCT_ANON : Nat := 18
def TYPE_CODE_STRUCT_NAME : Nat := 19
def TYPE_CODE_STRUCT_NAMED : Nat := 20
def TYPE_CODE_FUNCTION : Nat := 21

inductive TypeTableAbbrevId where
  | pointer
  | function
  | structAnon
  | structName
  | structNamed
  | array
  | vector
  deriving DecidableEq, Repr

def TypeTableAbbrevId.index : TypeTableAbbrevId → Nat
  | pointer => 0
  | function => 1
  | structAnon => 2
  | structName => 3
  | structNamed => 4
  | array => 5
  | vector => 6

def typeTableAbbrevs : TypeTableAbbrevId → DxilAbbrev
  | .pointer => { operands := [.literal TYPE_CODE_POINTER, TYPE_INDEX, .literal 0] }
  | .function => { operands := [.literal TYPE_CODE_FUNCTION, .fixed 1, .array, TYPE_INDEX] }
  | .structAnon => { operands := [.literal TYPE_CODE_STRUCT_ANON, .fixed 1, .array, TYPE_INDEX] }
  | .structName => { operands := [.literal TYPE_CODE_STRUCT_NAME, .array, .char6] }
  | .structNamed => { operands := [.literal TYPE_CODE_STRUCT_NAMED, .fixed 1, .array, TYPE_INDEX] }
  | .array => { operands := [.literal TYPE_CODE_ARRAY, .vbr 8, TYPE_INDEX] }
  | .vector => { operands := [.literal TYPE_CODE_VECTOR, .vbr 8, TYPE_INDEX] }

def emitTypeTableAbbrevs : List WriterCall :=
  [.defineAbbrev (typeTableAbbrevs .pointer), .defineAbbrev (typeTableAbbrevs .function),
    .defineAbbrev (typeTableAbbrevs .structAnon), .defineAbbrev (typeTableAbbrevs .structName),
    .defineAbbrev (typeTableAbbrevs .structNamed), .defineAbbrev (typeTableAbbrevs .array),
    .defineAbbrev (typeTableAbbrevs .vector)]

def emitTypeTableAbbrevRecord (abbrevId : TypeTableAbbrevId) (data : List Nat) : WriterCall :=
  .emitRecordAbbrev (abbrevId.index + DXIL_FIRST_APPLICATION_ABBREV)
    (typeTableAbbrevs abbrevId) data

/-- The conversion of a `char`, which is signed, to `uint64_t`. -/
def charToU64 (ch : UInt8) : Nat := toU64 ((ch.toNat : Int).bmod 256)

def isChar6String (str : List UInt8) : Bool := str.all fun ch => isChar6 ch.toNat

def emitFloatType : FloatType → WriterCall
  | .float16 => .emitRecordNoAbbrev TYPE_CODE_HALF []
  | .float32 => .emitRecordNoAbbrev TYPE_CODE_FLOAT []
  | .float64 => .emitRecordNoAbbrev TYPE_CODE_DOUBLE []

def emitPointerType (typeIndex : Nat) : WriterCall :=
  emitTypeTableAbbrevRecord .pointer [TYPE_CODE_POINTER, typeIndex, 0]

def emitStructName (name : List UInt8) : Option WriterCall := do
  let temp ← localArray 256 (name.map charToU64)
  some (.emitRecordNoAbbrev TYPE_CODE_STRUCT_NAME temp)

def emitStructNameChar6 (name : List UInt8) : Option WriterCall := do
  let temp ← localArray 256 (TYPE_CODE_STRUCT_NAME :: name.map charToU64)
  some (emitTypeTableAbbrevRecord .structName temp)

def emitStructType (name : Option (List UInt8)) (elem : List Nat) : Option (List WriterCall) :=
  match name with
  | some name => do
    let named ← (if isChar6String name then emitStructNameChar6 name else emitStructName name)
    let temp ← localArray 256 (TYPE_CODE_STRUCT_NAMED :: 0 :: elem)
    some [named, emitTypeTableAbbrevRecord .structNamed temp]
  | none => do
    let temp ← localArray 256 (TYPE_CODE_STRUCT_ANON :: 0 :: elem)
    some [emitTypeTableAbbrevRecord .structAnon temp]

def emitArrayType (elemType numElems : Nat) : WriterCall :=
  emitTypeTableAbbrevRecord .array [TYPE_CODE_ARRAY, numElems, elemType]

def emitFunctionType (retType : Nat) (args : List Nat) : Option WriterCall := do
  let temp ← localArray 256 (TYPE_CODE_FUNCTION :: 0 :: retType :: args)
  some (emitTypeTableAbbrevRecord .function temp)

def emitVectorType (elemType numElems : Nat) : WriterCall :=
  emitTypeTableAbbrevRecord .vector [TYPE_CODE_VECTOR, numElems, elemType]

def emitMetadataType : WriterCall := .emitRecordNoAbbrev TYPE_CODE_METADATA []

def emitType : TypeEntry → Option (List WriterCall)
  | .void => some [.emitRecordNoAbbrev TYPE_CODE_VOID []]
  | .integer type => some [.emitRecordNoAbbrev TYPE_CODE_INTEGER [type.intBits]]
  | .float type => some [emitFloatType type]
  | .pointer ptrTargetType => some [emitPointerType ptrTargetType]
  | .struct name elem => emitStructType name elem
  | .array elemType numElems => some [emitArrayType elemType numElems]
  | .function retType args => (emitFunctionType retType args).map ([·])
  | .vector elemType numElems => some [emitVectorType elemType numElems]

/-- The value is an int, which is widened to 64 bits. -/
def emitRecordInt (code : Nat) (value : BitVec 32) : WriterCall :=
  .emitRecordNoAbbrev code [(value.signExtend 64).toNat]

/-- What `emit_type_table` writes inside its block. -/
def emitTypeTable (types : List TypeEntry) : Option (List WriterCall) := do
  let calls ← types.mapM emitType
  some (emitTypeTableAbbrevs ++
    emitRecordInt TYPE_CODE_NUMENTRY (BitVec.ofNat 32 (1 + types.length)) ::
      (calls.flatten ++ [emitMetadataType]))

/-! ## Reading the table -/

inductive ReadType where
  | entry (type : TypeEntry)
  | metadata
  deriving DecidableEq, Repr

def IntType.ofBits? : Nat → Option IntType
  | 1 => some int1
  | 8 => some int8
  | 16 => some int16
  | 32 => some int32
  | 64 => some int64
  | _ => none

def readType (name : Option (List UInt8)) (record : CodedRecord) : Option ReadType :=
  match record.1, record.2 with
  | 2, [] => some (.entry .void)
  | 3, [] => some (.entry (.float .float32))
  | 4, [] => some (.entry (.float .float64))
  | 7, [bits] => (IntType.ofBits? bits).map fun type => .entry (.integer type)
  | 8, [target, _] => some (.entry (.pointer target))
  | 10, [] => some (.entry (.float .float16))
  | 11, [numElems, elemType] => some (.entry (.array elemType numElems))
  | 12, [numElems, elemType] => some (.entry (.vector elemType numElems))
  | 16, [] => some .metadata
  | 18, _ :: elem => some (.entry (.struct none elem))
  | 20, _ :: elem => name.map fun name => .entry (.struct (some name) elem)
  | 21, _ :: retType :: args => some (.entry (.function retType args))
  | _, _ => none

/-- A string is read by the low bytes of its characters. -/
def readString (data : List Nat) : List UInt8 := data.map UInt8.ofNat

def readTypes : Option (List UInt8) → List CodedRecord → Option (List ReadType)
  | _, [] => some []
  | name, record :: records =>
    if record.1 = TYPE_CODE_STRUCT_NAME then readTypes (some (readString record.2)) records
    else do
      let type ← readType name record
      let types ← readTypes none records
      some (type :: types)

/-- The table starts with the number of its entries. -/
def readTypeTable : List CodedRecord → Option (List ReadType)
  | record :: records => do
    let types ← readTypes none records
    if record = (TYPE_CODE_NUMENTRY, [types.length]) then some types else none
  | [] => none

/-! ## Answers -/

/-- How a request is answered: by the first entry that is equal, or by a new one. -/
inductive Answered (types : List TypeEntry) (type : TypeEntry) : Nat → List TypeEntry → Prop where
  | found {id : Nat} : type.isFunction = false → types.findIdx? (· = type) = some id →
      Answered types type id types
  | created : types.length < 2 ^ 31 → type.isFunction = true ∨ type ∉ types →
      Answered types type types.length (types ++ [type])

namespace TypeTable

/-- The cached types are those that a search would find. -/
structure CachesFit (m : TypeTable) : Prop where
  void : m.voidType = m.typeList.findIdx? (· = .void)
  integer : ∀ type, m.intType type = m.typeList.findIdx? (· = .integer type)
  float : ∀ type, m.floatType type = m.typeList.findIdx? (· = .float type)

theorem cachesFit_empty : CachesFit {} := ⟨rfl, fun _ => rfl, fun _ => rfl⟩

theorem findIdx?_snoc_self {types : List TypeEntry} {type : TypeEntry} (missing : type ∉ types) :
    (types ++ [type]).findIdx? (· = type) = some types.length := by
  have none : types.findIdx? (· = type) = none := by
    rw [List.findIdx?_eq_none_iff]
    intro other member
    exact decide_eq_false fun same => missing (same ▸ member)
  rw [List.findIdx?_append, none]
  simp

theorem findIdx?_snoc_ne {types : List TypeEntry} {cache : Option Nat} {type other : TypeEntry}
    (isCache : cache = types.findIdx? (· = other)) (different : type ≠ other) :
    cache = (types ++ [type]).findIdx? (· = other) := by
  rw [isCache, List.findIdx?_append]
  simp [different]

/-- A new derived type leaves the caches as they are. -/
theorem CachesFit.created {m : TypeTable} (fit : m.CachesFit) {type : TypeEntry}
    (derived : type ≠ .void ∧ (∀ t, type ≠ .integer t) ∧ ∀ t, type ≠ .float t) :
    CachesFit { m with typeList := m.typeList ++ [type] } := by
  constructor
  · exact findIdx?_snoc_ne fit.void derived.1
  · exact fun t => findIdx?_snoc_ne (fit.integer t) (derived.2.1 t)
  · exact fun t => findIdx?_snoc_ne (fit.float t) (derived.2.2 t)

theorem not_mem_of_findIdx? {types : List TypeEntry} {type : TypeEntry}
    (missing : types.findIdx? (· = type) = none) : type ∉ types := by
  intro member
  rw [List.findIdx?_eq_none_iff] at missing
  exact of_decide_eq_false (missing type member) rfl

/-- What a call leaves, and that it fails only if a new type has no id. -/
def Answers (m : TypeTable) (type : TypeEntry) (answer : Option (Nat × TypeTable)) : Prop :=
  (∀ id m', answer = some (id, m') → m'.CachesFit ∧ Answered m.typeList type id m'.typeList) ∧
    (answer = none → 2 ^ 31 ≤ m.typeList.length ∧ (type.isFunction = true ∨ type ∉ m.typeList))

theorem createType_answers {m : TypeTable} (fit : m.CachesFit) {type : TypeEntry}
    (derived : type ≠ .void ∧ (∀ t, type ≠ .integer t) ∧ ∀ t, type ≠ .float t)
    (isNew : type.isFunction = true ∨ type ∉ m.typeList) : m.Answers type (m.createType type) := by
  rw [createType]
  split
  · next room =>
    refine ⟨?_, nofun⟩
    rintro id m' ⟨⟩
    exact ⟨fit.created derived, .created room isNew⟩
  · next full => exact ⟨nofun, fun _ => ⟨Nat.le_of_not_lt full, isNew⟩⟩

theorem findOrCreate_answers {m : TypeTable} (fit : m.CachesFit) {type : TypeEntry}
    (derived : type ≠ .void ∧ (∀ t, type ≠ .integer t) ∧ ∀ t, type ≠ .float t)
    (shared : type.isFunction = false) : m.Answers type (m.findOrCreate type) := by
  rw [findOrCreate]
  split
  · next id isFirst =>
    refine ⟨?_, nofun⟩
    rintro id m' ⟨⟩
    exact ⟨fit, .found shared isFirst⟩
  · next missing => exact createType_answers fit derived (Or.inr (not_mem_of_findIdx? missing))

theorem cached_answers {m : TypeTable} (fit : m.CachesFit) {type : TypeEntry}
    (shared : type.isFunction = false) {cache : Option Nat}
    (isCache : cache = m.typeList.findIdx? (· = type)) {update : Nat → TypeTable → TypeTable}
    (sameList : ∀ id (m : TypeTable), (update id m).typeList = m.typeList)
    (fits : type ∉ m.typeList →
      (update m.typeList.length { m with typeList := m.typeList ++ [type] }).CachesFit)
    {answer : Option (Nat × TypeTable)} (hit : ∀ id, cache = some id → answer = some (id, m))
    (miss : cache = none →
      answer = (m.createType type).bind fun (id, m) => some (id, update id m)) :
    m.Answers type answer := by
  cases cache with
  | some id =>
    rw [hit id rfl]
    refine ⟨?_, nofun⟩
    rintro id m' ⟨⟩
    exact ⟨fit, .found shared isCache.symm⟩
  | none =>
    have missing := not_mem_of_findIdx? isCache.symm
    rw [miss rfl]
    by_cases room : m.typeList.length < 2 ^ 31
    · rw [createType, if_pos room]
      refine ⟨?_, nofun⟩
      rintro id m' ⟨⟩
      refine ⟨fits missing, ?_⟩
      rw [sameList]
      exact .created room (Or.inr missing)
    · rw [createType, if_neg room]
      exact ⟨nofun, fun _ => ⟨Nat.le_of_not_lt room, Or.inr missing⟩⟩

theorem request_answers {m : TypeTable} (fit : m.CachesFit) (type : TypeEntry) :
    m.Answers type (m.request type) := by
  cases type with
  | void =>
    refine @cached_answers _ fit _ rfl _ fit.void (fun id m => { m with voidType := some id })
      (fun _ _ => rfl) ?_ _
      (fun id known => by rw [request, getVoidType, known])
      (fun unknown => by rw [request, getVoidType, unknown]; rfl)
    intro missing
    constructor
    · exact (findIdx?_snoc_self missing).symm
    · exact fun t => findIdx?_snoc_ne (fit.integer t) (by nofun)
    · exact fun t => findIdx?_snoc_ne (fit.float t) (by nofun)
  | integer type =>
    refine @cached_answers _ fit _ rfl _ (fit.integer type)
      (fun id m => { m with intType := Function.update m.intType type (some id) })
      (fun _ _ => rfl) ?_ _
      (fun id known => by rw [request, getIntType, known])
      (fun unknown => by rw [request, getIntType, unknown]; rfl)
    intro missing
    constructor
    · exact findIdx?_snoc_ne fit.void (by nofun)
    · intro t
      by_cases own : t = type
      · subst own
        exact (Function.update_self ..).trans (findIdx?_snoc_self missing).symm
      · refine (Function.update_of_ne own ..).trans (findIdx?_snoc_ne (fit.integer t) ?_)
        exact fun same => own (TypeEntry.integer.inj same).symm
    · exact fun t => findIdx?_snoc_ne (fit.float t) (by nofun)
  | float type =>
    refine @cached_answers _ fit _ rfl _ (fit.float type)
      (fun id m => { m with floatType := Function.update m.floatType type (some id) })
      (fun _ _ => rfl) ?_ _
      (fun id known => by rw [request, getFloatType, known])
      (fun unknown => by rw [request, getFloatType, unknown]; rfl)
    intro missing
    constructor
    · exact findIdx?_snoc_ne fit.void (by nofun)
    · exact fun t => findIdx?_snoc_ne (fit.integer t) (by nofun)
    · intro t
      by_cases own : t = type
      · subst own
        exact (Function.update_self ..).trans (findIdx?_snoc_self missing).symm
      · refine (Function.update_of_ne own ..).trans (findIdx?_snoc_ne (fit.float t) ?_)
        exact fun same => own (TypeEntry.float.inj same).symm
  | pointer target => exact findOrCreate_answers fit ⟨nofun, nofun, nofun⟩ rfl
  | struct name elem => exact findOrCreate_answers fit ⟨nofun, nofun, nofun⟩ rfl
  | array elemType numElems => exact findOrCreate_answers fit ⟨nofun, nofun, nofun⟩ rfl
  | vector elemType numElems => exact findOrCreate_answers fit ⟨nofun, nofun, nofun⟩ rfl
  | function retType args => exact createType_answers fit ⟨nofun, nofun, nofun⟩ (Or.inl rfl)

end TypeTable

/-! ## Reading what was emitted -/

theorem charToU64_of_lt {ch : UInt8} (small : ch.toNat < 128) : charToU64 ch = ch.toNat := by
  rw [charToU64, toU64]
  have same : ((ch.toNat : Int).bmod 256) = ch.toNat := by
    rw [Int.bmod_eq_of_le] <;> omega
  rw [same]
  omega

theorem charToU64_lt (ch : UInt8) : charToU64 ch < 2 ^ 64 := by
  rw [charToU64, toU64]
  omega

theorem ofNat_charToU64 (ch : UInt8) : UInt8.ofNat (charToU64 ch) = ch := by
  have small := ch.toNat_lt
  apply UInt8.toNat_inj.mp
  rw [UInt8.toNat_ofNat', charToU64, toU64]
  have wrapped := Int.bmod_emod (x := (ch.toNat : Int)) (m := 256)
  omega

@[simp] theorem readString_charToU64 (str : List UInt8) :
    readString (str.map charToU64) = str := by
  rw [readString, List.map_map]
  conv_rhs => rw [← List.map_id str]
  apply List.map_congr_left
  intro ch _
  exact ofNat_charToU64 ch

theorem localArray_of_le {size : Nat} {data : List Nat} (short : data.length ≤ size) :
    localArray size data = some data := if_pos short

theorem length_of_localArray {size : Nat} {data array : List Nat}
    (inside : localArray size data = some array) : data.length ≤ size := by
  rw [localArray] at inside
  split at inside
  · assumption
  · cases inside

def typeTableLayouts : List Abbrev :=
  [⟨[.literal TYPE_CODE_POINTER, .scalar (.fixed 32), .literal 0], none⟩,
    ⟨[.literal TYPE_CODE_FUNCTION, .scalar (.fixed 1)], some (.fixed 32)⟩,
    ⟨[.literal TYPE_CODE_STRUCT_ANON, .scalar (.fixed 1)], some (.fixed 32)⟩,
    ⟨[.literal TYPE_CODE_STRUCT_NAME], some .char6⟩,
    ⟨[.literal TYPE_CODE_STRUCT_NAMED, .scalar (.fixed 1)], some (.fixed 32)⟩,
    ⟨[.literal TYPE_CODE_ARRAY, .scalar (.vbr 8), .scalar (.fixed 32)], none⟩,
    ⟨[.literal TYPE_CODE_VECTOR, .scalar (.vbr 8), .scalar (.fixed 32)], none⟩]

namespace TypeEntry

/-- The local arrays of the record builders suffice. -/
def Fits : TypeEntry → Prop
  | struct name elem => elem.length ≤ 254 ∧
      ∀ str, name = some str → str.length ≤ if isChar6String str then 255 else 256
  | function _ args => args.length ≤ 253
  | _ => True

/-- The counts are `size_t`, and the types exist. -/
structure Below (bound : Nat) (type : TypeEntry) : Prop where
  refs : ∀ id ∈ type.refs, id < bound
  count : ∀ elemType numElems, type = .array elemType numElems ∨ type = .vector elemType numElems →
    numElems < 2 ^ 64

end TypeEntry

theorem readTypes_cons {name : Option (List UInt8)} {record : CodedRecord} {read : ReadType}
    (notName : record.1 ≠ TYPE_CODE_STRUCT_NAME) (isType : readType name record = some read)
    (records : List CodedRecord) :
    readTypes name (record :: records) = (readTypes none records).map (read :: ·) := by
  rw [readTypes, if_neg notName, isType, Option.map_eq_bind]
  rfl

theorem words_of_le {data : List Nat} (short : data.length ≤ 256)
    (small : ∀ value ∈ data, value < 2 ^ 64) : Words data :=
  ⟨Nat.lt_of_le_of_lt short (by decide), small⟩

section Emitted

variable {bound : Nat} (bounded : bound ≤ 2 ^ 31) {type : TypeEntry}

include bounded

theorem fits_elements {code : Nat} {elem : List Nat} (small : code < 32)
    (refs : ∀ id ∈ elem, id < bound) (short : (code :: 0 :: elem).length ≤ 256) :
    Abbrev.Conforms [.literal code, .scalar (.fixed 1)] (some (.fixed 32)) (code :: 0 :: elem) ∧
      Words (code :: 0 :: elem) := by
  refine ⟨⟨rfl, Nat.two_pow_pos 1, ?_⟩, words_of_le short ?_⟩
  · intro id member
    exact Nat.lt_of_lt_of_le (refs id member) (bounded.trans (by decide))
  · intro value member
    rcases List.mem_cons.mp member with rfl | member
    · omega
    · rcases List.mem_cons.mp member with rfl | member
      · decide
      · have below := refs value member
        omega

theorem fits_counted {code count elemType : Nat} (small : code < 32) (countFits : count < 2 ^ 64)
    (refs : elemType < bound) :
    Abbrev.Conforms [.literal code, .scalar (.vbr 8), .scalar (.fixed 32)] none
        [code, count, elemType] ∧ Words [code, count, elemType] := by
  refine ⟨⟨rfl, trivial, ?_, rfl⟩, words_of_le (by decide : 3 ≤ 256) ?_⟩
  · exact Nat.lt_of_lt_of_le refs (bounded.trans (by decide))
  · intro value member
    simp only [List.mem_cons, List.not_mem_nil, or_false] at member
    omega

end Emitted

theorem fits_structName {name : List UInt8} (short : name.length ≤ 256) :
    (WriterCall.emitRecordNoAbbrev TYPE_CODE_STRUCT_NAME (name.map charToU64)).Fits
      typeTableLayouts := by
  apply WriterCall.Fits.noAbbrev (by decide)
  apply words_of_le
  · rwa [List.length_map]
  · intro value member
    rcases List.mem_map.mp member with ⟨ch, -, rfl⟩
    exact charToU64_lt ch

theorem isChar6_lt {ch : Nat} (valid : isChar6 ch = true) : ch < 128 := by
  rw [isChar6] at valid
  split at valid
  · omega
  · rw [decide_eq_true_eq] at valid
    omega

theorem isSome_char6Code {ch : Nat} (valid : isChar6 ch = true) : (char6Code ch).isSome := by
  rw [isChar6] at valid
  rw [char6Code]
  split_ifs <;> simp_all

theorem fits_structNameChar6 {name : List UInt8} (valid : isChar6String name = true)
    (short : name.length ≤ 255) :
    (emitTypeTableAbbrevRecord .structName (TYPE_CODE_STRUCT_NAME :: name.map charToU64)).Fits
      typeTableLayouts := by
  rw [isChar6String, List.all_eq_true] at valid
  refine .withAbbrev (by decide) rfl (by decide) rfl ⟨rfl, ?_⟩ (words_of_le ?_ ?_)
  · intro value member
    rcases List.mem_map.mp member with ⟨ch, inside, rfl⟩
    rw [charToU64_of_lt (isChar6_lt (valid ch inside))]
    exact isSome_char6Code (valid ch inside)
  · rw [List.length_cons, List.length_map]
    omega
  · intro value member
    rcases List.mem_cons.mp member with rfl | member
    · decide
    · rcases List.mem_map.mp member with ⟨ch, -, rfl⟩
      exact charToU64_lt ch

theorem emitName_reads {name : List UInt8}
    (short : name.length ≤ if isChar6String name then 255 else 256) :
    ∃ call, (if isChar6String name then emitStructNameChar6 name else emitStructName name) =
        some call ∧ call.Fits typeTableLayouts ∧
      call.record? = some (TYPE_CODE_STRUCT_NAME, name.map charToU64) := by
  by_cases valid : isChar6String name = true
  · rw [if_pos valid] at short
    refine ⟨_, ?_, fits_structNameChar6 valid short, rfl⟩
    rw [if_pos valid, emitStructNameChar6, localArray_of_le]
    · rfl
    · rw [List.length_cons, List.length_map]
      omega
  · rw [if_neg valid] at short
    refine ⟨_, ?_, fits_structName short, rfl⟩
    rw [if_neg valid, emitStructName, localArray_of_le]
    · rfl
    · rwa [List.length_map]

structure Renders (calls : List WriterCall) (type : TypeEntry) : Prop where
  fits : ∀ c ∈ calls, c.Fits typeTableLayouts
  reads : ∀ records, readTypes none (calls.filterMap WriterCall.record? ++ records) =
    (readTypes none records).map (ReadType.entry type :: ·)

theorem renders_singleton {call : WriterCall} {record : CodedRecord} {type : TypeEntry}
    (fits : call.Fits typeTableLayouts) (isRecord : call.record? = some record)
    (notName : record.1 ≠ TYPE_CODE_STRUCT_NAME)
    (isType : readType none record = some (.entry type)) : Renders [call] type := by
  constructor
  · intro c member
    rwa [List.mem_singleton.mp member]
  · intro records
    rw [List.filterMap_cons_some isRecord]
    exact readTypes_cons notName isType records

theorem renders_plain {code : Nat} {data : List Nat} {type : TypeEntry} (small : code < 19)
    (words : Words data) (isType : readType none (code, data) = some (.entry type)) :
    Renders [.emitRecordNoAbbrev code data] type :=
  renders_singleton (.noAbbrev (Nat.lt_trans small (by decide)) words) rfl
    (Nat.ne_of_lt small) isType

theorem emitType_renders {bound : Nat} (bounded : bound ≤ 2 ^ 31) {type : TypeEntry}
    (below : type.Below bound) (fits : type.Fits) :
    ∃ calls, emitType type = some calls ∧ Renders calls type := by
  have none_words : Words [] := words_of_le (by decide) nofun
  cases type with
  | void => exact ⟨_, rfl, renders_plain (by decide) none_words rfl⟩
  | integer type =>
    refine ⟨_, rfl, renders_plain (by decide) (words_of_le (by decide : 1 ≤ 256) ?_) ?_⟩
    · cases type <;> decide
    · cases type <;> rfl
  | float type =>
    refine ⟨_, rfl, ?_⟩
    cases type <;> exact renders_plain (by decide) none_words rfl
  | pointer target =>
    have small : target < 2 ^ 32 :=
      Nat.lt_of_lt_of_le (below.refs target List.mem_cons_self) (bounded.trans (by decide))
    refine ⟨_, rfl, renders_singleton ?_ rfl (by decide : (8 : Nat) ≠ 19) rfl⟩
    refine .withAbbrev (by decide) rfl (by decide) rfl ⟨rfl, small, rfl, rfl⟩ ?_
    refine words_of_le (by decide : 3 ≤ 256) ?_
    intro value member
    simp only [List.mem_cons, List.not_mem_nil, or_false, TYPE_CODE_POINTER] at member
    omega
  | array elemType numElems =>
    rcases fits_counted bounded (by decide : TYPE_CODE_ARRAY < 32)
      (below.count elemType numElems (Or.inl rfl)) (below.refs elemType List.mem_cons_self)
      with ⟨conforms, words⟩
    refine ⟨_, rfl, renders_singleton ?_ rfl (by decide : (11 : Nat) ≠ 19) rfl⟩
    exact .withAbbrev (by decide) rfl (by decide) rfl conforms words
  | vector elemType numElems =>
    rcases fits_counted bounded (by decide : TYPE_CODE_VECTOR < 32)
      (below.count elemType numElems (Or.inr rfl)) (below.refs elemType List.mem_cons_self)
      with ⟨conforms, words⟩
    refine ⟨_, rfl, renders_singleton ?_ rfl (by decide : (12 : Nat) ≠ 19) rfl⟩
    exact .withAbbrev (by decide) rfl (by decide) rfl conforms words
  | function retType args =>
    have short : (TYPE_CODE_FUNCTION :: 0 :: retType :: args).length ≤ 256 := by
      simp only [TypeEntry.Fits] at fits
      simp only [List.length_cons]
      omega
    rcases fits_elements bounded (by decide : TYPE_CODE_FUNCTION < 32) below.refs short with
      ⟨conforms, words⟩
    refine ⟨[emitTypeTableAbbrevRecord .function (TYPE_CODE_FUNCTION :: 0 :: retType :: args)], ?_,
      renders_singleton ?_ rfl (by decide : (21 : Nat) ≠ 19) rfl⟩
    · rw [emitType, emitFunctionType, localArray_of_le short]
      rfl
    · exact .withAbbrev (by decide) rfl (by decide) rfl conforms words
  | struct name elem =>
    have short : ∀ code : Nat, (code :: 0 :: elem).length ≤ 256 := by
      intro code
      have few := fits.1
      simp only [List.length_cons]
      omega
    cases name with
    | none =>
      rcases fits_elements bounded (by decide : TYPE_CODE_STRUCT_ANON < 32)  below.refs
          (short _) with
        ⟨conforms, words⟩
      refine ⟨[emitTypeTableAbbrevRecord .structAnon (TYPE_CODE_STRUCT_ANON :: 0 :: elem)], ?_,
        renders_singleton ?_ rfl (by decide : (18 : Nat) ≠ 19) rfl⟩
      · rw [emitType, emitStructType, localArray_of_le (short _)]
        rfl
      · exact .withAbbrev (by decide) rfl (by decide) rfl conforms words
    | some name =>
      rcases fits_elements bounded (by decide : TYPE_CODE_STRUCT_NAMED < 32)  below.refs
          (short _) with ⟨conforms, words⟩
      rcases emitName_reads (fits.2 name rfl) with ⟨named, emitted, nameFits, isName⟩
      refine ⟨[named, emitTypeTableAbbrevRecord .structNamed (TYPE_CODE_STRUCT_NAMED :: 0 :: elem)],
        ?_, ?_, ?_⟩
      · rw [emitType, emitStructType, emitted, localArray_of_le (short _)]
        rfl
      · intro c member
        rcases List.mem_pair.mp member with rfl | rfl
        · exact nameFits
        · exact .withAbbrev (by decide) rfl (by decide) rfl conforms words
      · intro records
        rw [List.filterMap_cons_some isName, List.cons_append, readTypes, if_pos rfl,
          readString_charToU64]
        exact readTypes_cons (by decide : (20 : Nat) ≠ 19) rfl records

/-- What `emit_type_table` writes can be written in the type block, and is read as the types
and the metadata type behind them. -/
def ReadsTypeTable (types : List TypeEntry) : Prop :=
  ∃ calls, emitTypeTable types = some calls ∧
    ∀ scope : Scope, scope.blockId = some DXIL_TYPE_BLOCK →
    scope.abbrevs = [] → ∃ contents inner, Nested scope calls contents inner ∧
      readTypeTable (recordsOf contents) = some (types.map ReadType.entry ++ [.metadata])

theorem emitTypes_render {bound : Nat} (bounded : bound ≤ 2 ^ 31) {types : List TypeEntry}
    (below : ∀ type ∈ types, type.Below bound) (fits : ∀ type ∈ types, type.Fits) :
    ∃ calls, types.mapM emitType = some calls ∧
      (∀ c ∈ calls.flatten, c.Fits typeTableLayouts) ∧
      ∀ records, readTypes none (calls.flatten.filterMap WriterCall.record? ++ records) =
        (readTypes none records).map (types.map ReadType.entry ++ ·) := by
  induction types with
  | nil =>
    refine ⟨[], rfl, nofun, ?_⟩
    intro records
    exact (congrFun Option.map_id _).symm
  | cons type types inductionHypothesis =>
    rw [List.forall_mem_cons] at below fits
    rcases emitType_renders bounded below.1 fits.1 with ⟨first, emitted, renders⟩
    rcases inductionHypothesis below.2 fits.2 with ⟨calls, emitted', fits', reads⟩
    refine ⟨first :: calls, ?_, ?_, ?_⟩
    · rw [List.mapM_cons, emitted, emitted']
      rfl
    · intro c member
      rw [List.flatten_cons, List.mem_append] at member
      rcases member with inside | behind
      · exact renders.fits c inside
      · exact fits' c behind
    · intro records
      rw [List.flatten_cons, List.filterMap_append, List.append_assoc, renders.reads, reads,
        Option.map_map]
      rfl

/-- The number of entries is read as it is while the int does not wrap. -/
theorem toNat_signExtend_ofNat {count : Nat} (bounded : count < 2 ^ 32) :
    ((BitVec.ofNat 32 count).signExtend 64).toNat = count ↔ count < 2 ^ 31 := by
  rw [BitVec.toNat_signExtend, BitVec.toNat_setWidth, BitVec.toNat_ofNat,
    Nat.mod_eq_of_lt bounded, Nat.mod_eq_of_lt (bounded.trans (by decide)),
    BitVec.msb_eq_decide, BitVec.toNat_ofNat, Nat.mod_eq_of_lt bounded]
  simp

theorem readsTypeTable_of_fits {types : List TypeEntry} (bounded : types.length + 1 < 2 ^ 31)
    (below : ∀ type ∈ types, type.Below types.length) (fits : ∀ type ∈ types, type.Fits) :
    ReadsTypeTable types := by
  rcases emitTypes_render (by omega) below fits with ⟨calls, emitted, callsFit, reads⟩
  have count : emitRecordInt TYPE_CODE_NUMENTRY (BitVec.ofNat 32 (1 + types.length)) =
      .emitRecordNoAbbrev TYPE_CODE_NUMENTRY [1 + types.length] := by
    rw [emitRecordInt, (toNat_signExtend_ofNat (by omega)).mpr (by omega)]
  refine ⟨_, by rw [emitTypeTable, emitted, count]; rfl, ?_⟩
  intro scope inBlock empty
  have outside : scope.blockId ≠ some 0 := by
    rw [inBlock]
    decide
  have records : ∀ c ∈ .emitRecordNoAbbrev TYPE_CODE_NUMENTRY [1 + types.length] ::
      (calls.flatten ++ [emitMetadataType]), c.Fits (scope.abbrevs ++ typeTableLayouts) := by
    rw [empty, List.nil_append]
    intro c member
    rcases List.mem_cons.mp member with rfl | member
    · refine .noAbbrev (by decide) (words_of_le (by decide : 1 ≤ 256) ?_)
      intro value inside
      rw [List.mem_singleton.mp inside]
      omega
    · rcases List.mem_append.mp member with inside | last
      · exact callsFit c inside
      · rw [List.mem_singleton.mp last]
        exact .noAbbrev (by decide) (words_of_le (by decide) nofun)
  rcases @nested_records { scope with abbrevs := scope.abbrevs ++ typeTableLayouts } outside _
    records with ⟨contents, nested, isRecords⟩
  have shapes : List.Forall₂ (fun (a : DxilAbbrev) layout => a.layout? = some layout)
      [typeTableAbbrevs .pointer, typeTableAbbrevs .function, typeTableAbbrevs .structAnon,
        typeTableAbbrevs .structName, typeTableAbbrevs .structNamed, typeTableAbbrevs .array,
        typeTableAbbrevs .vector] typeTableLayouts :=
    .cons rfl (.cons rfl (.cons rfl (.cons rfl (.cons rfl (.cons rfl (.cons rfl .nil))))))
  rcases nested_abbrevs outside shapes (by decide) nested with ⟨contents', nested', isRecords'⟩
  refine ⟨contents', _, nested', ?_⟩
  have last : readTypes none ([emitMetadataType].filterMap WriterCall.record?) =
    some [.metadata] := rfl
  have body : readTypes none ((calls.flatten ++ [emitMetadataType]).filterMap WriterCall.record?) =
      some (types.map ReadType.entry ++ [.metadata]) := by
    rw [List.filterMap_append, reads, last]
    rfl
  have record : (WriterCall.emitRecordNoAbbrev TYPE_CODE_NUMENTRY [1 + types.length]).record? =
      some (TYPE_CODE_NUMENTRY, [1 + types.length]) := rfl
  rw [isRecords', isRecords, List.filterMap_cons_some record, readTypeTable, body]
  rw [Option.bind_eq_bind, Option.bind_some, if_pos]
  rw [List.length_append, List.length_map, List.length_singleton, Nat.add_comm]

theorem exists_emitType {type : TypeEntry} (fits : type.Fits) :
    ∃ calls, emitType type = some calls := by
  cases type with
  | struct name elem =>
    have short : ∀ code : Nat, (code :: 0 :: elem).length ≤ 256 := by
      intro code
      have few := fits.1
      simp only [List.length_cons]
      omega
    cases name with
    | none => exact ⟨_, by rw [emitType, emitStructType, localArray_of_le (short _)]; rfl⟩
    | some name =>
      rcases emitName_reads (fits.2 name rfl) with ⟨named, emitted, -, -⟩
      exact ⟨_, by rw [emitType, emitStructType, emitted, localArray_of_le (short _)]; rfl⟩
  | function retType args =>
    have short : (TYPE_CODE_FUNCTION :: 0 :: retType :: args).length ≤ 256 := by
      simp only [TypeEntry.Fits] at fits
      simp only [List.length_cons]
      omega
    exact ⟨_, by rw [emitType, emitFunctionType, localArray_of_le short]; rfl⟩
  | _ => exact ⟨_, rfl⟩

/-- A type whose records do not fit their arrays stops the emission. -/
theorem fits_of_emitType {type : TypeEntry} {calls : List WriterCall}
    (emitted : emitType type = some calls) : type.Fits := by
  cases type with
  | struct name elem =>
    have short_of : ∀ {code : Nat} {temp : List Nat},
        localArray 256 (code :: 0 :: elem) = some temp → elem.length ≤ 254 := by
      intro code temp inside
      have short := length_of_localArray inside
      simp only [List.length_cons] at short
      omega
    simp only [emitType, emitStructType] at emitted
    cases name with
    | none =>
      rcases Option.bind_eq_some_iff.mp emitted with ⟨temp, inside, -⟩
      exact ⟨short_of inside, nofun⟩
    | some name =>
      rcases Option.bind_eq_some_iff.mp emitted with ⟨named, isNamed, rest⟩
      rcases Option.bind_eq_some_iff.mp rest with ⟨temp, inside, -⟩
      refine ⟨short_of inside, ?_⟩
      rintro str ⟨⟩
      by_cases valid : isChar6String name = true
      · rw [if_pos valid] at isNamed ⊢
        rcases Option.bind_eq_some_iff.mp isNamed with ⟨temp', inside', -⟩
        have short := length_of_localArray inside'
        rw [List.length_cons, List.length_map] at short
        omega
      · rw [if_neg valid] at isNamed ⊢
        rcases Option.bind_eq_some_iff.mp isNamed with ⟨temp', inside', -⟩
        have short := length_of_localArray inside'
        rwa [List.length_map] at short
  | function retType args =>
    rcases Option.map_eq_some_iff.mp emitted with ⟨call, isCall, -⟩
    rcases Option.bind_eq_some_iff.mp isCall with ⟨temp, inside, -⟩
    have short := length_of_localArray inside
    simp only [List.length_cons] at short
    simp only [TypeEntry.Fits]
    omega
  | _ => exact trivial

theorem fits_of_readsTypeTable {types : List TypeEntry} (reads : ReadsTypeTable types) :
    ∀ type ∈ types, type.Fits := by
  rcases reads with ⟨calls, emitted, -⟩
  rcases Option.bind_eq_some_iff.mp emitted with ⟨lists, isLists, -⟩
  intro type member
  rcases exists_of_mapM isLists member with ⟨calls, -, isCalls⟩
  exact fits_of_emitType isCalls

theorem recordsOf_of_nested (abbrevs : List DxilAbbrev) {scope scope' : Scope} {code : Nat}
    {data : List Nat} {calls : List WriterCall} {contents : Contents}
    (nested : Nested scope (abbrevs.map .defineAbbrev ++ .emitRecordNoAbbrev code data :: calls)
      contents scope') : ∃ records, recordsOf contents = (code, data) :: records := by
  induction abbrevs generalizing scope contents with
  | nil =>
    cases nested with
    | emitRecordNoAbbrev _ _ _ _ => exact ⟨_, rfl⟩
  | cons a abbrevs inductionHypothesis =>
    cases nested with
    | defineAbbrev _ _ _ behind =>
      have behind := inductionHypothesis behind
      exact behind

/-- A table whose number of entries does not fit an int is not read back. -/
theorem count_of_readsTypeTable {types : List TypeEntry} (reads : ReadsTypeTable types)
    (bounded : types.length ≤ 2 ^ 31) : types.length + 1 < 2 ^ 31 := by
  rcases reads with ⟨calls, emitted, isRead⟩
  rcases Option.bind_eq_some_iff.mp emitted with ⟨lists, -, isCalls⟩
  cases isCalls
  rcases isRead ⟨some DXIL_TYPE_BLOCK, [], [], none⟩ rfl rfl with ⟨contents, inner, nested, table⟩
  rcases recordsOf_of_nested [typeTableAbbrevs .pointer, typeTableAbbrevs .function,
    typeTableAbbrevs .structAnon, typeTableAbbrevs .structName, typeTableAbbrevs .structNamed,
    typeTableAbbrevs .array, typeTableAbbrevs .vector] nested with ⟨records, isRecords⟩
  rw [isRecords, readTypeTable] at table
  rcases Option.bind_eq_some_iff.mp table with ⟨entries, -, isCount⟩
  split at isCount
  case isTrue count =>
    cases isCount
    have same := List.singleton_inj.mp (Prod.mk.inj count).2
    rw [List.length_append, List.length_map, List.length_singleton, Nat.add_comm types.length]
      at same
    have small := (toNat_signExtend_ofNat (by omega)).mp same
    omega
  case isFalse => cases isCount

end SpirvToDxil
