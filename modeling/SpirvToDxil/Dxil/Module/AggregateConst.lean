import SpirvToDxil.Dxil.Module.IntConst
import SpirvToDxil.Util.BackwardTable

/-!
# Constants from initializers

A constant initializer is turned into entries of `const_list` by recursion over
its type. `emit_consts` goes over the list again later, and a reader decodes the
records with the ids that the entries got by their positions.
-/

namespace SpirvToDxil

open Ieee

/-! ## Initializers -/

inductive GlslBaseType where
  | uint
  | int
  | float
  | float16
  | bfloat16
  | floatE4m3fn
  | floatE5m2
  | double
  | uint8
  | int8
  | uint16
  | int16
  | uint64
  | int64
  | bool
  deriving DecidableEq, Repr

namespace GlslBaseType

/-- `glsl_base_type_bit_size`, which has 32 bits for a `bool`. -/
def bitSize : GlslBaseType → Nat
  | bool | int | uint | float => 32
  | float16 | bfloat16 | uint16 | int16 => 16
  | uint8 | int8 | floatE4m3fn | floatE5m2 => 8
  | double | int64 | uint64 => 64

/-- The base of the type that `nir_get_nir_type_for_glsl_base_type` returns is `nir_type_float`;
the formats without arithmetic are unsigned there. -/
def isNirFloat : GlslBaseType → Bool
  | float | float16 | double => true
  | _ => false

end GlslBaseType

mutual

/-- The `glsl_type` of a constant. -/
inductive ConstantType where
  | scalar (baseType : GlslBaseType)
  | vector (baseType : GlslBaseType) (vectorElements : Nat)
  | matrix (baseType : GlslBaseType) (vectorElements matrixColumns : Nat)
  | array (element : ConstantType) (length : Nat)
  | struct (name : List UInt8) (fields : ConstantFields)

inductive ConstantFields where
  | nil
  | cons (type : ConstantType) (rest : ConstantFields)

end

/-- A `nir_constant`; each of the `values` is the union `nir_const_value`, of which a narrow
member fills the low bits and a `bool` only the lowest. -/
inductive NirConstant where
  | mk (values : List (BitVec 64)) (elements : List NirConstant)

namespace NirConstant

def values : NirConstant → List (BitVec 64)
  | mk values _ => values

def elements : NirConstant → List NirConstant
  | mk _ elements => elements

end NirConstant

/-! ## The constant list -/

/-- The `undef` flag and the union of `struct dxil_const`. The elements of an aggregate are
positions in the list. -/
inductive DxilConstValue where
  | undef
  | int (intValue : Int)
  | float (value : FloatConstValue)
  | array (arrayValues : List Nat)
  | vector (vectorValues : List Nat)
  | struct (structValues : List Nat)
  deriving DecidableEq

structure DxilConst where
  type : Nat
  value : DxilConstValue
  deriving DecidableEq

/-- The parts of a `dxil_module` that getting a constant changes. -/
structure ConstModule where
  types : TypeTable := {}
  constList : List DxilConst := []

def FloatType.ofBits? : Nat → Option FloatType
  | 16 => some float16
  | 32 => some float32
  | 64 => some float64
  | _ => none

/-- A stored value equals the value asked for, and is no other member of the union. -/
def DxilConstValue.sameFloat (value : FloatConstValue) : DxilConstValue → Bool
  | float stored => stored.same value
  | _ => false

namespace ConstModule

/-- The search of the list, and `create_const` where it finds nothing. -/
def getConst (m : ConstModule) (same : DxilConst → Bool) (c : DxilConst) : Nat × ConstModule :=
  let (index, constList) := Intern.intern same c m.constList
  (index, { m with constList := constList })

/-- `dxil_module_get_int1_const` and the getters after it. -/
def getIntConst (m : ConstModule) (size : IntType) (value : BitVec 64) :
    Option (Nat × ConstModule) := do
  let (type, types) ← m.types.getIntType size
  let intValue := size.parameter value
  let accepts : DxilConst → Bool := fun c => c.type = type ∧ c.value = .int intValue
  some ({ m with types := types }.getConst accepts ⟨type, .int intValue⟩)

/-- `dxil_module_get_float16_const`, `dxil_module_get_float_const` and
`dxil_module_get_double_const`. -/
def getFloatConst (m : ConstModule) (r : FloatRequest) : Option (Nat × ConstModule) := do
  let (type, types) ← m.types.getFloatType r.type
  let accepts : DxilConst → Bool := fun c => c.type = type && c.value.sameFloat r.value
  some ({ m with types := types }.getConst accepts ⟨type, .float r.value⟩)

/-- `dxil_module_get_array_const`, `dxil_module_get_vector_const` and
`dxil_module_get_struct_const`, which compare the pointers to the elements. -/
def getAggregateConst (m : ConstModule) (type : Nat) (value : DxilConstValue) :
    Nat × ConstModule :=
  m.getConst (fun c => c.type = type ∧ c.value = value) ⟨type, value⟩

end ConstModule

/-! ## Types of initializers -/

def getTypeForGlslBaseType (m : TypeTable) (type : GlslBaseType) : Option (Nat × TypeTable) :=
  if type.isNirFloat then (FloatType.ofBits? type.bitSize).bind m.getFloatType
  else (IntType.ofBits? type.bitSize).bind m.getIntType

mutual

/-- `get_type_for_glsl_type`: a matrix has no fields to read, as it is no structure. -/
def getTypeForGlslType : ConstantType → TypeTable → Option (Nat × TypeTable)
  | .scalar baseType, m => getTypeForGlslBaseType m baseType
  | .vector baseType vectorElements, m => do
    let (element, m) ← getTypeForGlslBaseType m baseType
    m.getVectorType element vectorElements
  | .matrix .., _ => none
  | .array element length, m => do
    let (element, m) ← getTypeForGlslType element m
    m.getArrayType element length
  | .struct name fields, m => do
    let (fields, m) ← getTypesForFields fields m
    m.getStructType (some name) fields

def getTypesForFields : ConstantFields → TypeTable → Option (List Nat × TypeTable)
  | .nil, m => some ([], m)
  | .cons type rest, m => do
    let (type, m) ← getTypeForGlslType type m
    let (types, m) ← getTypesForFields rest m
    some (type :: types, m)

end

/-! ## Constants of initializers -/

/-- `get_value_for_const`, which compares the type with those cached in the module. -/
def getValueForConst (type : Nat) (c : BitVec 64) (m : ConstModule) : Option (Nat × ConstModule) :=
  if m.types.intType .int1 = some type then m.getIntConst .int1 ((c.setWidth 1).setWidth 64)
  else if m.types.floatType .float32 = some type then m.getFloatConst (.float (.ofBits c.toNat))
  else if m.types.intType .int32 = some type then m.getIntConst .int32 c
  else if m.types.intType .int16 = some type then m.getIntConst .int16 c
  else if m.types.intType .int64 = some type then m.getIntConst .int64 c
  else if m.types.floatType .float16 = some type then m.getFloatConst (.float16 (c.setWidth 16))
  else if m.types.floatType .float64 = some type then m.getFloatConst (.double (.ofBits c.toNat))
  else none

def getEach {Element : Type} (get : Element → ConstModule → Option (Nat × ConstModule)) :
    List Element → ConstModule → Option (List Nat × ConstModule)
  | [], m => some ([], m)
  | element :: elements, m => do
    let (value, m) ← get element m
    let (values, m) ← getEach get elements m
    some (value :: values, m)

/-- The loop reads as many elements as the type has, which the constant has to hold. -/
def getFirst {Element : Type} (get : Element → ConstModule → Option (Nat × ConstModule))
    (count : Nat) (elements : List Element) (m : ConstModule) :
    Option (List Nat × ConstModule) :=
  if count ≤ elements.length then getEach get (elements.take count) m else none

mutual

def getValueForConstAggregate : ConstantType → NirConstant → ConstModule →
    Option (Nat × ConstModule)
  | .scalar baseType, c, m => do
    let (_, types) ← getTypeForGlslType (.scalar baseType) m.types
    let (elementType, types) ← getTypeForGlslBaseType types baseType
    let (elements, m) ← getFirst (getValueForConst elementType) 1 c.values { m with types := types }
    elements.head?.map fun element => (element, m)
  | .vector baseType vectorElements, c, m => do
    let (dxilType, types) ← getTypeForGlslType (.vector baseType vectorElements) m.types
    let (elementType, types) ← getTypeForGlslBaseType types baseType
    let (elements, m) ← getFirst (getValueForConst elementType) vectorElements c.values
      { m with types := types }
    some (m.getAggregateConst dxilType (.vector elements))
  | .matrix baseType vectorElements matrixColumns, _, m => do
    let _ ← getTypeForGlslType (.matrix baseType vectorElements matrixColumns) m.types
    none
  | .array element length, c, m => do
    let (dxilType, types) ← getTypeForGlslType (.array element length) m.types
    let (values, m) ← getFirst (getValueForConstAggregate element) length c.elements
      { m with types := types }
    some (m.getAggregateConst dxilType (.array values))
  | .struct name fields, c, m => do
    let (dxilType, types) ← getTypeForGlslType (.struct name fields) m.types
    let (values, m) ← getValuesForFields fields c.elements { m with types := types }
    some (m.getAggregateConst dxilType (.struct values))

def getValuesForFields : ConstantFields → List NirConstant → ConstModule →
    Option (List Nat × ConstModule)
  | .nil, _, m => some ([], m)
  | .cons _ _, [], _ => none
  | .cons type rest, element :: elements, m => do
    let (value, m) ← getValueForConstAggregate type element m
    let (values, m) ← getValuesForFields rest elements m
    some (value :: values, m)

end

/-! ## Emission -/

/-- A constant as `emit_consts` takes it, with the conversions of the calls there. -/
def ConstModule.toConst (m : ConstModule) (c : DxilConst) : Const where
  type := c.type
  value :=
    match c.value, m.types.typeList[c.type]? with
    | .undef, _ => .undef
    | .int intValue, _ => .int intValue
    | .float (.int intValue), _ => .int intValue.toNat
    | .float (.float floatValue), some (.float .float32) =>
      .float (floatValue.convert binary32).bits
    | .float (.float floatValue), _ => .float floatValue.bits
    | .array values, _ | .vector values, _ | .struct values, _ => .aggregate (values.map .const)

/-! ## The trees of values -/

inductive ConstTree where
  | undef
  | integer (type : IntType) (value : BitVec type.intBits)
  | float (value : FloatRequest)
  | aggregate (elements : List ConstTree)

/-- The float that a pattern of bits stands for. -/
def FloatType.request : FloatType → Nat → FloatRequest
  | float16, bits => .float16 (BitVec.ofNat 16 bits)
  | float32, bits => .float (.ofBits bits)
  | float64, bits => .double (.ofBits bits)

/-- The value of a scalar, where a float may be kept as another one. -/
def GlslBaseType.tree (keep : FloatRequest → FloatRequest) (type : GlslBaseType) (c : BitVec 64) :
    Option ConstTree :=
  if type.isNirFloat then
    (FloatType.ofBits? type.bitSize).map fun size => .float (keep (size.request c.toNat))
  else (IntType.ofBits? type.bitSize).map fun size => .integer size (c.setWidth size.intBits)

mutual

/-- The values that an initializer stands for. -/
def ConstantType.tree (keep : FloatRequest → FloatRequest) :
    ConstantType → NirConstant → Option ConstTree
  | .scalar baseType, c => c.values.head?.bind (baseType.tree keep)
  | .vector baseType vectorElements, c =>
    if vectorElements ≤ c.values.length then
      ((c.values.take vectorElements).mapM (baseType.tree keep)).map .aggregate
    else none
  | .matrix .., _ => none
  | .array element length, c =>
    if length ≤ c.elements.length then
      ((c.elements.take length).mapM (element.tree keep)).map .aggregate
    else none
  | .struct _ fields, c => (fields.trees keep c.elements).map .aggregate

def ConstantFields.trees (keep : FloatRequest → FloatRequest) :
    ConstantFields → List NirConstant → Option (List ConstTree)
  | .nil, _ => some []
  | .cons _ _, [] => none
  | .cons type rest, element :: elements => do
    let tree ← type.tree keep element
    let trees ← rest.trees keep elements
    some (tree :: trees)

end

def GlslBaseType.floats (type : GlslBaseType) (c : BitVec 64) : List FloatRequest :=
  if type.isNirFloat then
    ((FloatType.ofBits? type.bitSize).map fun size => size.request c.toNat).toList
  else []

mutual

/-- The floats of an initializer, in the order in which their constants are got. -/
def ConstantType.floats : ConstantType → NirConstant → List FloatRequest
  | .scalar baseType, c => (c.values.take 1).flatMap baseType.floats
  | .vector baseType vectorElements, c => (c.values.take vectorElements).flatMap baseType.floats
  | .matrix .., _ => []
  | .array element length, c => (c.elements.take length).flatMap element.floats
  | .struct _ fields, c => fields.floats c.elements

def ConstantFields.floats : ConstantFields → List NirConstant → List FloatRequest
  | .nil, _ => []
  | .cons _ _, [] => []
  | .cons type rest, element :: elements => type.floats element ++ rest.floats elements

end

mutual

/-- An initializer of the type holds a vector; an array of no elements holds nothing. -/
def ConstantType.HasVector : ConstantType → Prop
  | .scalar _ | .matrix .. => False
  | .vector .. => True
  | .array element length => length ≠ 0 ∧ element.HasVector
  | .struct _ fields => fields.HasVector

def ConstantFields.HasVector : ConstantFields → Prop
  | .nil => False
  | .cons type rest => type.HasVector ∨ rest.HasVector

end

/-! ## Reading the block -/

def readConsts : Option Nat → List CodedRecord → List (Option Nat × CodedRecord)
  | _, [] => []
  | currType, record :: records =>
    if record.1 = CST_CODE_SETTYPE then readConsts record.2.head? records
    else (currType, record) :: readConsts currType records

/-- What the constants in front decode to, by position. -/
def earlierTree (earlier : List (Option ConstTree)) (index : Nat) : Option ConstTree :=
  earlier[index]?.join

/-- The elements of an aggregate are ids, which the constants have from `start` on. -/
def decodeElements (start : Nat) (earlier : List (Option ConstTree)) (record : CodedRecord) :
    Option ConstTree :=
  if record.1 = CST_CODE_AGGREGATE then
    (record.2.mapM fun id => if start ≤ id then earlierTree earlier (id - start) else none).map
      .aggregate
  else none

def decodeConst (types : List DxilType) (start : Nat) (earlier : List (Option ConstTree))
    (entry : Option Nat × CodedRecord) : Option ConstTree :=
  if entry.2.1 = CST_CODE_UNDEF then some .undef
  else
    match entry.1.bind (types[·]?) with
    | some (.integer bits) => (IntType.ofBits? bits).bind fun size =>
      (decodeInteger size.intBits entry.2).map (.integer size)
    | some (.float bits) => (FloatType.ofBits? bits).bind fun size =>
      (floatPayload entry.2).map fun payload => .float (size.request payload)
    | some (.array ..) | some (.vector ..) | some (.struct _) =>
      decodeElements start earlier entry.2
    | _ => none

def decodeConsts (types : List DxilType) (start : Nat) (table : List (Option Nat × CodedRecord)) :
    List (Option ConstTree) :=
  BackwardTable.meanings (decodeConst types start) table

/-- The constants of the module are written, every aggregate with the ids of its elements, which
stand in front of it, and the constant at a position is read back as a tree of values. -/
def ReadsBack (d : DxilModule) (ids : Ids) (index : Nat) (tree : ConstTree) : Prop :=
  ∃ calls, d.emitConsts ids = some calls ∧
    (∀ i c values, d.consts[i]? = some c → c.value = .aggregate values →
      ∃ elementIds, values.mapM ids.of? = some elementIds ∧
        (readConsts none (calls.filterMap WriterCall.record?))[i]? =
          some (some c.type, CST_CODE_AGGREGATE, elementIds) ∧
        ∀ id ∈ elementIds, d.gvars.length + d.funcs.length ≤ id ∧
          id < d.gvars.length + d.funcs.length + i) ∧
    (decodeConsts d.types (d.gvars.length + d.funcs.length)
      (readConsts none (calls.filterMap WriterCall.record?)))[index]? = some (some tree)

end SpirvToDxil
