import Mathlib.Algebra.Order.Ring.Int
import Mathlib.Order.Basic

/-!
# The GLSL types of NIR variables

Types are interned in the source, so that pointer equality is structural
equality; `unsigned` sizes wrap at `2 ^ 32`.
-/

namespace SpirvToDxil

/-- The base types of which variables are bound to descriptors one by one. -/
inductive HandleType where
  | sampler
  | texture
  | image
  deriving DecidableEq, Repr

mutual

inductive GlslType where
  /-- Scalars and vectors; `bit_size` is that of the base type. -/
  | vector (bitSize vectorElements : Nat)
  | matrix (bitSize vectorElements matrixColumns explicitStride : Nat) (rowMajor : Bool)
  /-- `sampled` unless the sampled type is `GLSL_TYPE_VOID`. -/
  | handle (baseType : HandleType) (sampled : Bool)
  | struct (isInterface : Bool) (name : String) (fields : StructFields)
  | array (element : GlslType) (length explicitStride : Nat)
  deriving DecidableEq, Repr

inductive StructFields where
  | nil
  | cons (offset : Nat) (type : GlslType) (rest : StructFields)
  deriving DecidableEq, Repr

end

namespace GlslType

def unsigned (n : Nat) : Nat := n % 2 ^ 32

def isArray : GlslType → Bool
  | array .. => true
  | _ => false

def isUnsizedArray : GlslType → Bool
  | array _ length _ => length = 0
  | _ => false

def isStruct : GlslType → Bool
  | struct isInterface _ _ => !isInterface
  | _ => false

def isTexture (type : GlslType) : Bool := type matches handle .texture _

def isBareSampler (type : GlslType) : Bool := type matches handle .sampler false

/-- 0 on types that have no length. -/
def getLength : GlslType → Nat
  | array _ length _ => length
  | _ => 0

def withoutArray : GlslType → GlslType
  | array element _ _ => withoutArray element
  | type => type

/-- The `while` loop of `glsl_get_aoa_size`. -/
def aoaSizeLoop (size : Nat) : GlslType → Nat
  | array element length _ => aoaSizeLoop (unsigned (size * length)) element
  | _ => size

def getAoaSize : GlslType → Nat
  | array element length _ => aoaSizeLoop length element
  | _ => 0

mutual

def getExplicitSize : GlslType → Nat
  | struct _ _ fields => fieldsSize 0 fields
  | array element length explicitStride =>
    if length = 0 then explicitStride
    else unsigned (explicitStride * (length - 1) + getExplicitSize element)
  | matrix bitSize vectorElements matrixColumns explicitStride rowMajor =>
    let length := if rowMajor then vectorElements else matrixColumns
    let elements := if rowMajor then matrixColumns else vectorElements
    unsigned (explicitStride * (length - 1) + elements * (bitSize / 8))
  | vector bitSize vectorElements => unsigned (vectorElements * (bitSize / 8))
  | handle .. => 8

/-- The loop over the fields of a structure, with the running maximum `size`. -/
def fieldsSize (size : Nat) : StructFields → Nat
  | .nil => size
  | .cons offset type rest =>
    fieldsSize (max size (unsigned (offset + getExplicitSize type))) rest

end

mutual

/-- `glsl_type_count`: interface blocks hold no counted handles. -/
def count (baseType : HandleType) : GlslType → Nat
  | array element length _ => unsigned (length * count baseType element)
  | struct isInterface _ fields => if isInterface then 0 else fieldsCount baseType 0 fields
  | handle handleType _ => if handleType = baseType then 1 else 0
  | vector .. | matrix .. => 0

def fieldsCount (baseType : HandleType) (total : Nat) : StructFields → Nat
  | .nil => total
  | .cons _ type rest => fieldsCount baseType (unsigned (total + count baseType type)) rest

end

theorem vec4_pos : 0 < 4 := by decide

mutual

/-- `glsl_count_vec4_slots` of a variable that is neither a vertex attribute nor bindless. -/
def countVec4Slots : GlslType → Nat
  | vector bitSize vectorElements => if bitSize = 64 ∧ 2 < vectorElements then 2 else 1
  | matrix bitSize vectorElements matrixColumns _ _ =>
    if bitSize = 64 ∧ 2 < vectorElements then unsigned (matrixColumns * 2) else matrixColumns
  | struct _ _ fields => fieldsVec4Slots 0 fields
  | array element length _ => unsigned (length * countVec4Slots element)
  | handle .. => 0

def fieldsVec4Slots (size : Nat) : StructFields → Nat
  | .nil => size
  | .cons _ type rest => fieldsVec4Slots (unsigned (size + countVec4Slots type)) rest

end

mutual

def getComponentSlots : GlslType → Nat
  | vector bitSize vectorElements => if bitSize = 64 then 2 * vectorElements else vectorElements
  | matrix bitSize vectorElements matrixColumns _ _ =>
    if bitSize = 64 then 2 * (vectorElements * matrixColumns) else vectorElements * matrixColumns
  | struct _ _ fields => fieldsComponentSlots 0 fields
  | array element length _ => unsigned (length * getComponentSlots element)
  | handle .. => 2

def fieldsComponentSlots (size : Nat) : StructFields → Nat
  | .nil => size
  | .cons _ type rest => fieldsComponentSlots (unsigned (size + getComponentSlots type)) rest

end

def getArrayElement : GlslType → GlslType
  | array element _ _ => element
  | matrix bitSize vectorElements _ _ _ => vector bitSize vectorElements
  | vector bitSize _ => vector bitSize 1
  | type => type

def arrayType (element : GlslType) (arraySize explicitStride : Nat) : GlslType :=
  array element arraySize explicitStride

@[simp] theorem isArray_arrayType (element : GlslType) (arraySize explicitStride : Nat) :
    (arrayType element arraySize explicitStride).isArray = true := rfl

@[simp] theorem withoutArray_arrayType (element : GlslType) (arraySize explicitStride : Nat) :
    (arrayType element arraySize explicitStride).withoutArray = element.withoutArray := rfl

@[simp] theorem isArray_withoutArray (type : GlslType) : type.withoutArray.isArray = false := by
  fun_induction withoutArray type with
  | case1 element length explicitStride inductionHypothesis => exact inductionHypothesis
  | case2 type notArray =>
    cases type with
    | array element length explicitStride =>
      exact absurd rfl (notArray element length explicitStride)
    | vector | matrix | handle | struct => rfl

@[simp] theorem withoutArray_withoutArray (type : GlslType) :
    type.withoutArray.withoutArray = type.withoutArray := by
  fun_induction withoutArray type with
  | case1 element length explicitStride inductionHypothesis => exact inductionHypothesis
  | case2 type notArray => rw [withoutArray]; exact notArray

theorem getAoaSize_of_not_isArray {type : GlslType} (notArray : type.isArray = false) :
    type.getAoaSize = 0 := by
  cases type with
  | array => cases notArray
  | vector | matrix | handle | struct => rfl

@[simp] theorem getAoaSize_arrayType_withoutArray (type : GlslType)
    (arraySize explicitStride : Nat) :
    (arrayType type.withoutArray arraySize explicitStride).getAoaSize = arraySize := by
  have notArray : type.withoutArray.isArray = false := isArray_withoutArray type
  revert notArray
  cases type.withoutArray with
  | array => intro notArray; cases notArray
  | vector | matrix | handle | struct => intro _; rfl

end GlslType

end SpirvToDxil
