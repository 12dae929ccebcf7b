import SpirvToDxil.Nir.QuantizeToHalf
import SpirvToDxil.Util.Narrowing
import Mathlib.Logic.Function.Basic

/-!
# Variables of other bit sizes

Variables of small scalars get a wider type, and those of 64-bit scalars become arrays of 32-bit
ones. Initializers are rewritten in place, and every access on its own.
-/

namespace SpirvToDxil

namespace LowerVarBitSize

open Ieee

/-- The `glsl_base_type`s of scalars. -/
inductive BaseType where
  | bool
  | int8
  | uint8
  | int16
  | uint16
  | float16
  | int32
  | uint32
  | float32
  | int64
  | uint64
  | float64
  deriving DecidableEq, Repr

def BaseType.bitSize : BaseType → Nat
  | bool => 1
  | int8 | uint8 => 8
  | int16 | uint16 | float16 => 16
  | int32 | uint32 | float32 => 32
  | int64 | uint64 | float64 => 64

inductive AluType where
  | bool
  | int
  | uint
  | float
  deriving DecidableEq, Repr

def BaseType.aluType : BaseType → AluType
  | bool => .bool
  | int8 | int16 | int32 | int64 => .int
  | uint8 | uint16 | uint32 | uint64 => .uint
  | float16 | float32 | float64 => .float

section Convert

/-- The float that a 16-bit value holds. -/
def half (x : BitVec 16) : Datum binary16 where
  sign := x.msb
  magnitude := x.toNat % 2 ^ 15
  magnitude_lt := Nat.mod_lt _ (Nat.two_pow_pos 15)

/-- `f2f32`, and `_mesa_half_to_float` up to the payload of NaNs. -/
def f2f32 (x : BitVec 16) : BitVec 32 := BitVec.ofNat 32 ((half x).convert binary32).bits

def f2f16 (x : BitVec 32) : BitVec 16 := BitVec.ofNat 16 ((single x).convert binary16).bits

/-- `nir_type_convert`. Floats are converted between 16 and 32 bits only. -/
def nirTypeConvert {srcSize : Nat} (src : BitVec srcSize) (srcType destType : AluType)
    (destSize : Nat) : BitVec destSize :=
  if destType = .bool ∧ srcType ≠ .bool then if src ≠ 0 then 1 else 0
  else
    match srcType with
    | .bool | .uint => src.setWidth destSize
    | .int => src.signExtend destSize
    | .float =>
      if srcSize < destSize then (f2f32 (src.setWidth 16)).setWidth destSize
      else (f2f16 (src.setWidth 32)).setWidth destSize

end Convert

/-- A scalar or an array of scalars. Its size in bytes is `unsigned`. -/
structure Variable where
  type : BaseType
  arrayLength : Option Nat
  sized : arrayLength.getD 1 * 8 < 2 ^ 32
  /-- The constants of the elements, or the one of a scalar. The rest of each union is zero. -/
  constantInitializer : Option (Nat → BitVec type.bitSize)

namespace Variable

/-- The type of a widened variable, where `none` is not reached. -/
def widenedType (minBitSize : Nat) (type : BaseType) : Option BaseType :=
  match minBitSize with
  | 16 =>
    match type with
    | .bool => some .uint16
    | .int8 => some .int16
    | .uint8 => some .uint16
    | _ => none
  | 32 =>
    match type with
    | .bool => some .uint32
    | .int8 | .int16 => some .int32
    | .float16 => some .float32
    | .uint8 | .uint16 => some .uint32
    | _ => none
  | _ => none

/-- What `lower_var_bit_size_types` makes of a variable. -/
inductive Lowered where
  | unchanged
  | widened (type : BaseType)
  | split
  deriving DecidableEq, Repr

variable (var : Variable) (minBitSize maxBitSize : Nat)

def lowered : Option Lowered :=
  if var.type.bitSize < minBitSize then (widenedType minBitSize var.type).map .widened
  else if maxBitSize < var.type.bitSize then some .split
  else some .unchanged

def length : Nat := var.arrayLength.getD 1

/-- The `nir_const_value` of a constant. -/
def constValue (element : Nat) : Option (BitVec 64) :=
  var.constantInitializer.map fun constants => (constants element).setWidth 64

/-- The loops over the elements of the initializer. They do nothing for a scalar. -/
def widenedConstValue (newType : BaseType) (element : Nat) : Option (BitVec 64) :=
  if var.arrayLength.isNone then var.constValue element
  else
    (var.constValue element).map fun value =>
      match var.type with
      | .bool => (if value.setWidth 8 ≠ 0 then BitVec.allOnes newType.bitSize else 0).setWidth 64
      | .int8 => ((value.setWidth 8).signExtend newType.bitSize).setWidth 64
      | .int16 => ((value.setWidth 16).signExtend newType.bitSize).setWidth 64
      | .float16 => (f2f32 (value.setWidth 16)).setWidth 64
      | _ => value

/-- The elements of a split initializer. Those of a scalar are never set. -/
def splitConstValue (slot : Nat) : Option (BitVec 32) :=
  if var.arrayLength.isNone then none
  else
    (var.constValue (slot / 2)).map fun (value : BitVec 64) =>
      if slot % 2 = 0 then value.setWidth 32 else (value >>> 32).setWidth 32

end Variable

/-- A load or a store that is executed, by the number of its instruction. -/
structure Step (n : Nat) where
  access : Nat
  element : Nat
  /-- Only stores have one. -/
  stored : Option (BitVec n)

section Run

/-- What is loaded, with `none` for values that are undefined. -/
def run {n : Nat} (memory : Nat → Option (BitVec n)) : List (Step n) → List (Option (BitVec n))
  | [] => []
  | step :: trace =>
    match step.stored with
    | none => memory step.element :: run memory trace
    | some value => run (Function.update memory step.element (some value)) trace

variable {n m : Nat} (srcType destType : AluType)

/-- The run with conversions to and from another type. An access whose deref has the new type
already is passed over, and does not fit the type. -/
def runWidened (derefs : List Nat) (memory : Nat → Option (BitVec m)) :
    List (Step n) → Option (List (Option (BitVec n)))
  | [] => some []
  | step :: trace =>
    match derefs[step.access]? with
    | none => none
    | some deref =>
      if deref ∈ derefs.take step.access then none
      else
        match step.stored with
        | none => do
          let results ← runWidened derefs memory trace
          some ((memory step.element).map (nirTypeConvert · destType srcType n) :: results)
        | some value =>
          let upcast := nirTypeConvert value srcType destType m
          runWidened derefs (Function.update memory step.element (some upcast)) trace

def pack (low high : BitVec 32) : BitVec n := low.setWidth n ||| high.setWidth n <<< 32

/-- The run with two accesses of 32 bits for each one of 64. Both stores go through the first
deref. -/
def runSplit (memory : Nat → Option (BitVec 32)) : List (Step n) → List (Option (BitVec n))
  | [] => []
  | step :: trace =>
    let index := UInt32.ofNat step.element * 2
    let slot := index.toNat
    let slot2 := (index + 1).toNat
    match step.stored with
    | none =>
      (do let src1 ← memory slot; let src2 ← memory slot2; some (pack src1 src2)) ::
        runSplit memory trace
    | some value =>
      let src1 := value.setWidth 32
      let src2 := (value >>> 32).setWidth 32
      runSplit (Function.update (Function.update memory slot (some src1)) slot (some src2)) trace

end Run

def IsNaN {n : Nat} (value : BitVec n) : Prop := (half (value.setWidth 16)).isNaN

/-- Values are the same up to the payload of NaNs. -/
def SameValue (type : BaseType) (first second : BitVec type.bitSize) : Prop :=
  first = second ∨ type = .float16 ∧ IsNaN first ∧ IsNaN second

def Refines (type : BaseType) (original lowered : Option (BitVec type.bitSize)) : Prop :=
  ∀ value, original = some value → ∃ value', lowered = some value' ∧ SameValue type value value'

namespace Variable

variable (var : Variable) (minBitSize maxBitSize : Nat)

def initial (element : Nat) : Option (BitVec var.type.bitSize) :=
  var.constantInitializer.map (· element)

def widenedInitial (newType : BaseType) (element : Nat) : Option (BitVec newType.bitSize) :=
  (var.widenedConstValue newType element).map (BitVec.setWidth newType.bitSize)

/-- The steps are in bounds, and of the accesses that the pass comes by with these derefs. -/
def Valid (derefs : List Nat) (trace : List (Step var.type.bitSize)) : Prop :=
  ∀ step ∈ trace, step.access < derefs.length ∧ step.element < var.length

def Exact (derefs : List Nat) (trace : List (Step var.type.bitSize)) : Prop :=
  match var.lowered minBitSize maxBitSize with
  | none => False
  | some .unchanged => True
  | some (.widened newType) => ∃ results,
      runWidened var.type.aluType newType.aluType derefs (var.widenedInitial newType) trace =
        some results ∧
      List.Forall₂ (Refines var.type) (run var.initial trace) results
  | some .split =>
    List.Forall₂ (Refines var.type) (run var.initial trace) (runSplit var.splitConstValue trace)

end Variable

section Conversions

theorem half_magnitude (x : BitVec 16) : (half x).magnitude = x.toNat % 2 ^ 15 := rfl

theorem bits_half (x : BitVec 16) : (half x).bits = x.toNat := by
  have sign : (half x).sign = decide (2 ^ 15 ≤ x.toNat) := BitVec.msb_eq_decide x
  have small := x.isLt
  rw [Datum.bits, half_magnitude, sign]
  change _ * 2 ^ 15 + _ = _
  by_cases negative : 2 ^ 15 ≤ x.toNat
  · rw [decide_eq_true negative, Bool.toNat_true]
    omega
  · rw [decide_eq_false negative, Bool.toNat_false]
    omega

theorem bits_single (x : BitVec 32) : (single x).bits = x.toNat := by
  have small := x.isLt
  rw [Datum.bits, single_magnitude, single_sign]
  change _ * 2 ^ 31 + _ = _
  by_cases negative : 2 ^ 31 ≤ x.toNat
  · rw [decide_eq_true negative, Bool.toNat_true]
    omega
  · rw [decide_eq_false negative, Bool.toNat_false]
    omega

theorem bits_lt {f : Format} (x : Datum f) : x.bits < 2 * 2 ^ (f.expBits + f.fracBits) := by
  have small := x.magnitude_lt
  rw [Datum.bits]
  cases x.sign
  · rw [Bool.toNat_false]
    omega
  · rw [Bool.toNat_true]
    omega

theorem single_ofNat_bits (x : Datum binary32) : single (BitVec.ofNat 32 x.bits) = x := by
  have small : x.bits < 2 ^ 32 := bits_lt x
  apply Datum.bits_injective
  rw [bits_single, BitVec.toNat_ofNat, Nat.mod_eq_of_lt small]

theorem half_ofNat_bits (x : Datum binary16) : half (BitVec.ofNat 16 x.bits) = x := by
  have small : x.bits < 2 ^ 16 := bits_lt x
  apply Datum.bits_injective
  rw [bits_half, BitVec.toNat_ofNat, Nat.mod_eq_of_lt small]

/-- Only the payload of a NaN is lost on the way through 32 bits. -/
theorem f2f16_f2f32 (x : BitVec 16) :
    f2f16 (f2f32 x) = x ∨ (half x).isNaN ∧ (half (f2f16 (f2f32 x))).isNaN := by
  have wider : Wider binary16 binary32 := ⟨by decide, by decide, by decide, by decide⟩
  have back : f2f16 (f2f32 x) =
      BitVec.ofNat 16 (((half x).convert binary32).convert binary16).bits := by
    rw [f2f16, f2f32, single_ofNat_bits]
  by_cases signaling : (half x).isSignaling
  · right
    rw [back, half_ofNat_bits, Datum.isNaN_convert, Datum.isNaN_convert]
    exact ⟨signaling.1, signaling.1⟩
  · left
    rw [back, Datum.convert_convert wider signaling, bits_half]
    exact BitVec.ofNat_toNat 16 x

/-- The bits of a half are those of a tiny float, which is rounded to zero. -/
theorem f2f16_small {x : BitVec 32} (small : x.toNat < 2 ^ 16) : f2f16 x = 0 := by
  have magnitude : (single x).magnitude = x.toNat := by
    rw [single_magnitude, Nat.mod_eq_of_lt (by omega)]
  have positive : (single x).sign = false := by
    rw [single_sign, decide_eq_false (by omega)]
  have infinity : binary32.infinity = 0x7f800000 := by decide
  have notNaN : ¬ (single x).isNaN := by
    rw [Datum.isNaN, magnitude, infinity]
    omega
  have finite : (single x).magnitude ≠ binary32.infinity := by
    rw [magnitude, infinity]
    omega
  have significand : (single x).significand = x.toNat := by
    rw [Datum.significand, magnitude]
    exact if_pos (show x.toNat < 2 ^ 23 by omega)
  have scale : (single x).scale = 1 := by
    rw [Datum.scale, magnitude]
    change max 1 (x.toNat / 2 ^ 23) = 1
    omega
  have rounded : shiftRound x.toNat (125 : Nat) = 0 := by
    show (if 2 ^ 125 < 2 * (x.toNat % 2 ^ 125) ∨ _ then _ else x.toNat / 2 ^ 125) = 0
    rw [Nat.mod_eq_of_lt (by omega), Nat.div_eq_of_lt (by omega), if_neg (by omega)]
  have vanishes : convertFinite binary32 binary16 x.toNat 1 = 0 := by
    rw [convertFinite]
    by_cases zero : x.toNat = 0
    · rw [if_pos zero]
    · have log : x.toNat.log2 < 16 := (Nat.log2_lt zero).mpr small
      have bias : (binary32.bias : Int) = 127 := by decide
      have bias' : (binary16.bias : Int) = 15 := by decide
      have leading : ((1 : Nat) : Int) + x.toNat.log2 - binary32.fracBits - binary32.bias +
          binary16.bias ≤ 1 := by
        have fracBits : (binary32.fracBits : Int) = 23 := by decide
        omega
      have shift : 1 - (binary16.bias : Int) - binary16.fracBits -
          (((1 : Nat) : Int) - binary32.bias - binary32.fracBits) = (125 : Nat) := by decide
      rw [if_neg zero]
      dsimp only
      rw [max_eq_left leading, shift, rounded]
      rfl
  have converted : ((single x).convert binary16).bits = 0 := by
    rw [Datum.convert, if_neg notNaN, Datum.bits]
    simp only [if_neg finite, significand, scale, vanishes, positive]
    rfl
  rw [f2f16, converted]
  rfl

theorem convert_int {n m : Nat} (value : BitVec n) (wide : n ≤ m) :
    nirTypeConvert (nirTypeConvert value .int .int m) .int .int n = value := by
  show (value.signExtend m).signExtend n = value
  rw [Narrowing.signExtend_signExtend value wide, BitVec.signExtend_eq]

theorem convert_uint {n m : Nat} (value : BitVec n) (wide : n ≤ m) :
    nirTypeConvert (nirTypeConvert value .uint .uint m) .uint .uint n = value := by
  show (value.setWidth m).setWidth n = value
  rw [BitVec.setWidth_setWidth_of_le _ wide, BitVec.setWidth_eq]

theorem convert_bool {m : Nat} (value : BitVec 1) (wide : 1 ≤ m) :
    nirTypeConvert (nirTypeConvert value .bool .uint m) .uint .bool 1 = value := by
  show (if value.setWidth m ≠ 0 then 1 else 0 : BitVec 1) = value
  have bits : value = 0 ∨ value = 1 := by
    revert value
    decide
  rcases bits with rfl | rfl
  · simp
  · apply if_pos
    intro zero
    have toNat := congrArg BitVec.toNat zero
    have large : 1 < 2 ^ m := Nat.one_lt_two_pow (by omega)
    simp [Nat.mod_eq_of_lt large] at toNat

theorem convert_allOnes {m : Nat} (value : BitVec 1) (wide : 1 ≤ m) :
    nirTypeConvert (if (value.setWidth 64).setWidth 8 ≠ 0 then BitVec.allOnes m else 0)  .uint
      .bool 1 =
      value := by
  have bits : value = 0 ∨ value = 1 := by
    revert value
    decide
  have ones : BitVec.allOnes m ≠ 0 := by
    intro zero
    have bit := congrArg (BitVec.getLsbD · 0) zero
    simp [show 0 < m by omega] at bit
  rcases bits with rfl | rfl
  · rfl
  · exact if_pos ones

theorem convert_float (value : BitVec 16) : SameValue .float16 value
    (nirTypeConvert (nirTypeConvert value .float .float 32) .float .float 16) := by
  have back : nirTypeConvert (nirTypeConvert value .float .float 32) .float .float 16 =
      f2f16 (f2f32 value) := by
    show (f2f16 (((f2f32 (value.setWidth 16)).setWidth 32).setWidth 32)).setWidth 16 = _
    simp only [BitVec.setWidth_eq]
  rw [back]
  rcases f2f16_f2f32 value with same | ⟨nan, nan'⟩
  · exact .inl same.symm
  · right
    refine ⟨rfl, ?_, ?_⟩
    · show (half (value.setWidth 16)).isNaN
      rw [BitVec.setWidth_eq]
      exact nan
    · show (half ((f2f16 (f2f32 value)).setWidth 16)).isNaN
      rw [BitVec.setWidth_eq]
      exact nan'

end Conversions

section Widening

variable {minBitSize : Nat} {type newType : BaseType}

theorem widenedType_eq (widens : Variable.widenedType minBitSize type = some newType) :
    type = .bool ∧ newType.aluType = .uint ∧ 1 ≤ newType.bitSize ∨
    (type = .int8 ∨ type = .int16) ∧ newType.aluType = .int ∧ type.bitSize ≤ newType.bitSize ∨
    (type = .uint8 ∨ type = .uint16) ∧ newType.aluType = .uint ∧ type.bitSize ≤ newType.bitSize ∨
    type = .float16 ∧ newType = .float32 := by
  unfold Variable.widenedType at widens
  split at widens
  · cases type <;> cases widens <;> decide
  · cases type <;> cases widens <;> decide
  · cases widens

def widen (type newType : BaseType) (value : BitVec type.bitSize) : BitVec newType.bitSize :=
  nirTypeConvert value type.aluType newType.aluType newType.bitSize

def narrow (type newType : BaseType) (value : BitVec newType.bitSize) : BitVec type.bitSize :=
  nirTypeConvert value newType.aluType type.aluType type.bitSize

/-- A value that is widened and narrowed again is the same. -/
theorem narrow_widen (widens : Variable.widenedType minBitSize type = some newType)
    (value : BitVec type.bitSize) :
    SameValue type value (narrow type newType (widen type newType value)) := by
  rw [narrow, widen]
  rcases widenedType_eq widens with
    ⟨rfl, uint, wide⟩ | ⟨int, int', wide⟩ | ⟨uint, uint', wide⟩ | ⟨rfl, rfl⟩
  · rw [uint]
    exact .inl (convert_bool value wide).symm
  · have same : type.aluType = .int := by rcases int with rfl | rfl <;> rfl
    rw [same, int']
    exact .inl (convert_int value wide).symm
  · have same : type.aluType = .uint := by rcases uint with rfl | rfl <;> rfl
    rw [same, uint']
    exact .inl (convert_uint value wide).symm
  · exact convert_float value

/-- So is one that is padded with zeros, unless it is a float. -/
theorem narrow_setWidth (widens : Variable.widenedType minBitSize type = some newType)
    (notFloat : type ≠ .float16) (value : BitVec type.bitSize) :
    narrow type newType ((value.setWidth 64).setWidth newType.bitSize) = value := by
  have padded : (value.setWidth 64).setWidth newType.bitSize = value.setWidth newType.bitSize := by
    apply BitVec.setWidth_setWidth
    have fits : type.bitSize ≤ 64 := by cases type <;> decide
    omega
  rw [padded, narrow]
  rcases widenedType_eq widens with
    ⟨rfl, uint, wide⟩ | ⟨int, int', wide⟩ | ⟨uint, uint', wide⟩ | ⟨float, -⟩
  · rw [uint]
    exact convert_bool value wide
  · have same : type.aluType = .int := by rcases int with rfl | rfl <;> rfl
    rw [same, int']
    show (value.setWidth newType.bitSize).signExtend type.bitSize = value
    rw [BitVec.signExtend_eq_setWidth_of_le _ wide, BitVec.setWidth_setWidth_of_le _ wide,
      BitVec.setWidth_eq]
  · have same : type.aluType = .uint := by rcases uint with rfl | rfl <;> rfl
    rw [same, uint']
    exact convert_uint value wide
  · exact absurd float notFloat

/-- The bits of a half at those of a float are lost. -/
theorem narrow_setWidth_float (widens : Variable.widenedType minBitSize type = some newType)
    (float : type = .float16) (value : BitVec type.bitSize) :
    narrow type newType ((value.setWidth 64).setWidth newType.bitSize) = 0 := by
  subst float
  rcases widenedType_eq widens with ⟨⟨⟩, -⟩ | ⟨⟨⟨⟩⟩ | ⟨⟨⟩⟩, -⟩ | ⟨⟨⟨⟩⟩ | ⟨⟨⟩⟩, -⟩ | ⟨-, rfl⟩
  have small : (((value.setWidth 64).setWidth 32).setWidth 32).toNat < 2 ^ 16 := by
    rw [BitVec.setWidth_eq, BitVec.toNat_setWidth, BitVec.toNat_setWidth]
    have fits := value.isLt
    change _ < 2 ^ 16 at fits
    omega
  show (f2f16 (((value.setWidth 64).setWidth 32).setWidth 32)).setWidth 16 = 0
  rw [f2f16_small small]
  rfl

theorem sameValue_zero_iff (value : BitVec type.bitSize) : SameValue type value 0 ↔ value = 0 := by
  constructor
  · rintro (same | ⟨-, -, nan⟩)
    · exact same
    · have notNaN : ¬ (half 0).isNaN := by
        show ¬ binary16.infinity < 0
        exact Nat.not_lt_zero _
      have zero : (0 : BitVec type.bitSize).setWidth 16 = 0 := BitVec.setWidth_zero _ _
      rw [IsNaN, zero] at nan
      exact absurd nan notNaN
  · exact .inl

end Widening

namespace Variable

variable {var : Variable} {minBitSize : Nat} {newType : BaseType}

theorem widenedInitial_array (array : var.arrayLength ≠ none)
    (widens : widenedType minBitSize var.type = some newType)
    {constants : Nat → BitVec var.type.bitSize} (init : var.constantInitializer = some constants)
    (element : Nat) : ∃ constant, var.widenedInitial newType element = some constant ∧
      SameValue var.type (constants element) (narrow var.type newType constant) := by
  have notNone : var.arrayLength.isNone = false := by
    cases length : var.arrayLength with
    | none => exact absurd length array
    | some length => rfl
  rw [widenedInitial, widenedConstValue, constValue, notNone, init]
  refine ⟨_, rfl, ?_⟩
  dsimp only
  generalize constants element = value
  obtain ⟨type, arrayLength, sized, initializer⟩ := var
  dsimp only at widens value ⊢
  have same {n : Nat} (x : BitVec n) (fits : n ≤ 64) : (x.setWidth 64).setWidth n = x := by
    rw [BitVec.setWidth_setWidth_of_le _ fits, BitVec.setWidth_eq]
  have fits : newType.bitSize ≤ 64 := by cases newType <;> decide
  rcases widenedType_eq widens with
    ⟨rfl, uint, wide⟩ | ⟨rfl | rfl, int, wide⟩ | ⟨rfl | rfl, uint, wide⟩ | ⟨rfl, rfl⟩
  all_goals dsimp only
  · left
    rw [same _ fits, narrow, uint]
    exact (convert_allOnes value wide).symm
  · rw [same _ fits]
    have eight : (BitVec.setWidth 64 value).setWidth 8 = value := same value (by decide)
    rw [eight]
    have widened := narrow_widen widens value
    rw [widen, int] at widened
    exact widened
  · rw [same _ fits]
    have sixteen : (BitVec.setWidth 64 value).setWidth 16 = value := same value (by decide)
    rw [sixteen]
    have widened := narrow_widen widens value
    rw [widen, int] at widened
    exact widened
  · exact .inl (narrow_setWidth widens (by decide) value).symm
  · exact .inl (narrow_setWidth widens (by decide) value).symm
  · have sixteen : (BitVec.setWidth 64 value).setWidth 16 = value := same value (by decide)
    rw [sixteen]
    have trip : (BitVec.setWidth 64 (f2f32 value)).setWidth BaseType.float32.bitSize =
        widen .float16 .float32 value := by
      calc (BitVec.setWidth 64 (f2f32 value)).setWidth 32
          = f2f32 value := same (f2f32 value) (by decide)
        _ = (f2f32 (value.setWidth 16)).setWidth 32 := by
          rw [BitVec.setWidth_eq]
          exact congrArg f2f32 (BitVec.setWidth_eq value).symm
    rw [trip]
    exact narrow_widen widens value

theorem widenedInitial_scalar (scalar : var.arrayLength = none)
    {constants : Nat → BitVec var.type.bitSize} (init : var.constantInitializer = some constants)
    (element : Nat) : var.widenedInitial newType element =
      some (((constants element).setWidth 64).setWidth newType.bitSize) := by
  rw [widenedInitial, widenedConstValue, constValue, scalar, init]
  rfl

end Variable

end LowerVarBitSize

end SpirvToDxil
