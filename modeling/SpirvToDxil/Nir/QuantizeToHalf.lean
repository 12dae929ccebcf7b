import SpirvToDxil.Util.IeeeValue
import Mathlib.Order.Bounds.Basic
import Mathlib.Tactic.Linarith

/-!
# Quantizing to half precision

`fquantize2f16` becomes comparisons and a mask over the bits of a 32-bit float.
-/

namespace SpirvToDxil

open Ieee

def single (x : BitVec 32) : Datum binary32 where
  sign := x.msb
  magnitude := x.toNat % 2 ^ 31
  magnitude_lt := Nat.mod_lt _ (Nat.two_pow_pos 31)

def flt (x y : BitVec 32) : Bool := decide ((single x).lt (single y))

def fabs (x : BitVec 32) : BitVec 32 := x &&& 0x7fffffff#32

def bitfieldMask (n : Nat) : BitVec 32 := BitVec.ofNat 32 (2 ^ n - 1)

/-- `lower_fquantize2f16`, with the constants as bits. -/
def lowerFquantize2f16 (src : BitVec 32) : BitVec 32 :=
  let negInfCond := flt src 0xc77fe000#32 -- -65504
  let posInfCond := flt 0x477fe000#32 src -- 65504
  let zeroCond := flt (fabs src) 0x38800000#32 -- 2 ^ -14
  let zero := src &&& 0x80000000#32
  let round := src &&& ~~~bitfieldMask 13
  let res := if negInfCond then 0xff800000#32 else round
  let res := if posInfCond then 0x7f800000#32 else res
  if zeroCond then zero else res

section Bits

theorem toNat_and_not_bitfieldMask (x : BitVec 32) {n : Nat} (small : n ≤ 32) :
    (x &&& ~~~bitfieldMask n).toNat = x.toNat - x.toNat % 2 ^ n := by
  have low : (x &&& bitfieldMask n).toNat = x.toNat % 2 ^ n := by
    have fits : 2 ^ n - 1 < 2 ^ 32 := by
      have := Nat.pow_le_pow_right (show 0 < 2 by decide) small
      have := Nat.two_pow_pos n
      omega
    rw [BitVec.toNat_and, bitfieldMask, BitVec.toNat_ofNat, Nat.mod_eq_of_lt fits,
      Nat.and_two_pow_sub_one_eq_mod]
  have disjoint : (x &&& ~~~bitfieldMask n) &&& (x &&& bitfieldMask n) = 0#32 := by
    ext i
    simp only [BitVec.getElem_and, BitVec.getElem_not]
    cases x[i] <;> cases (bitfieldMask n)[i] <;> simp
  have both : (x &&& ~~~bitfieldMask n) ||| (x &&& bitfieldMask n) = x := by
    ext i
    simp only [BitVec.getElem_or, BitVec.getElem_and, BitVec.getElem_not]
    cases x[i] <;> cases (bitfieldMask n)[i] <;> rfl
  have sum := BitVec.toNat_add_of_and_eq_zero disjoint
  rw [BitVec.add_eq_or_of_and_eq_zero _ _ disjoint, both, low] at sum
  omega

theorem single_magnitude (x : BitVec 32) : (single x).magnitude = x.toNat % 2 ^ 31 := rfl

theorem single_sign (x : BitVec 32) : (single x).sign = decide (2 ^ 31 ≤ x.toNat) :=
  BitVec.msb_eq_decide x

theorem single_fabs (x : BitVec 32) :
    (single (fabs x)).sign = false ∧ (single (fabs x)).magnitude = (single x).magnitude := by
  have masked : (fabs x).toNat = x.toNat % 2 ^ 31 := by
    rw [fabs, BitVec.toNat_and]
    exact Nat.and_two_pow_sub_one_eq_mod x.toNat 31
  constructor
  · rw [single_sign, masked, decide_eq_false_iff_not]
    omega
  · rw [single_magnitude, single_magnitude, masked, Nat.mod_mod]

theorem single_signBit (x : BitVec 32) :
    (single (x &&& 0x80000000#32)).sign = (single x).sign ∧
      (single (x &&& 0x80000000#32)).magnitude = 0 := by
  have masked : (x &&& 0x80000000#32).toNat = x.toNat - x.toNat % 2 ^ 31 :=
    toNat_and_not_bitfieldMask x (show 31 ≤ 32 by decide)
  have small := x.isLt
  constructor
  · rw [single_sign, single_sign, masked, decide_eq_decide]
    omega
  · rw [single_magnitude, masked]
    omega

theorem single_round (x : BitVec 32) :
    (single (x &&& ~~~bitfieldMask 13)).sign = (single x).sign ∧
      (single (x &&& ~~~bitfieldMask 13)).magnitude =
        (single x).magnitude / 2 ^ 13 * 2 ^ 13 := by
  have masked := toNat_and_not_bitfieldMask x (show 13 ≤ 32 by decide)
  have small := x.isLt
  constructor
  · rw [single_sign, single_sign, masked, decide_eq_decide]
    omega
  · rw [single_magnitude, single_magnitude, masked]
    omega

end Bits

section Half

/-- The neighbours of a number: the next halves, which may be the number itself. -/
def IsNeighbour (number half : ℚ) : Prop :=
  IsGreatest {v | v ≤ number ∧ ∃ h : Datum binary16, h.isFinite ∧ h.value = v} half ∨
    IsLeast {v | number ≤ v ∧ ∃ h : Datum binary16, h.isFinite ∧ h.value = v} half

def TooLarge (x : Datum binary32) : Prop :=
  ∀ h : Datum binary16, h.isFinite → |h.value| < |x.value|

def TooSmall (x : Datum binary32) : Prop :=
  ∀ h : Datum binary16, h.isNormal → |x.value| < |h.value|

/-- What is documented of the quantized value. -/
structure Quantizes (x y : Datum binary32) : Prop where
  nan : x.isNaN → y.isNaN
  large : ¬ x.isNaN → TooLarge x → y.magnitude = binary32.infinity ∧ y.sign = x.sign
  small : ¬ x.isNaN → TooSmall x → y.isZero ∧ y.sign = x.sign
  normal : ¬ x.isNaN → ¬ TooLarge x → ¬ TooSmall x →
    (∃ h : Datum binary16, h.isNormal ∧ h.value = y.value) ∧ IsNeighbour x.value y.value

/-- The magnitude of a normal half as a float. -/
def halfAsFloat (magnitude : Nat) : Nat := (magnitude + 112 * 2 ^ 10) * 2 ^ 13

theorem widened_half (magnitude : Nat) :
    Format.widened binary16 binary32 magnitude = halfAsFloat magnitude := rfl

theorem abs_value_half {h : Datum binary16} (normal : h.isNormal) :
    |h.value| = binary32.ulps (halfAsFloat h.magnitude) / binary32.unit := by
  have fits : halfAsFloat h.magnitude < 2 ^ (binary32.expBits + binary32.fracBits) := by
    have finite := normal.1
    rw [Datum.isFinite] at finite
    have below : binary16.infinity = 31744 := rfl
    rw [halfAsFloat]
    show _ < 2 ^ 31
    omega
  have same := Datum.value_eq_widened (f := binary16) (g := binary32) (by decide) (by decide) normal
    (y := ⟨h.sign, halfAsFloat h.magnitude, fits⟩) rfl rfl
  rw [← same, Datum.abs_value]

theorem abs_value_half_lt_iff {h : Datum binary16} (normal : h.isNormal) (x : Datum binary32) :
    (|h.value| < |x.value| ↔ halfAsFloat h.magnitude < x.magnitude) ∧
      (|x.value| < |h.value| ↔ x.magnitude < halfAsFloat h.magnitude) := by
  rw [abs_value_half normal, Datum.abs_value, div_lt_div_iff_of_pos_right Datum.unit_pos,
    div_lt_div_iff_of_pos_right Datum.unit_pos, Nat.cast_lt, Nat.cast_lt, Format.ulps_lt_iff,
    Format.ulps_lt_iff]
  exact ⟨Iff.rfl, Iff.rfl⟩

/-- The greatest finite half, 65504. -/
def maxHalf : Datum binary16 := ⟨false, 0x7bff, by decide⟩

/-- The least normal half, `2 ^ -14`. -/
def minNormalHalf : Datum binary16 := ⟨false, 0x400, by decide⟩

theorem tooLarge_iff (x : Datum binary32) : TooLarge x ↔ 0x477fe000 < x.magnitude := by
  have greatest := (abs_value_half_lt_iff (h := maxHalf) (by decide) x).1
  constructor
  · intro large
    exact greatest.mp (large maxHalf (by decide))
  · intro above h finite
    have upTo : |h.value| ≤ |maxHalf.value| := by
      rw [← not_lt, Datum.abs_value_lt_iff]
      have below : h.magnitude < 0x7c00 := finite
      have bound : maxHalf.magnitude = 0x7bff := rfl
      omega
    exact upTo.trans_lt (greatest.mpr above)

theorem tooSmall_iff (x : Datum binary32) : TooSmall x ↔ x.magnitude < 0x38800000 := by
  have least := (abs_value_half_lt_iff (h := minNormalHalf) (by decide) x).2
  constructor
  · intro small
    exact least.mp (small minNormalHalf (by decide))
  · intro below h normal
    have upTo : |minNormalHalf.value| ≤ |h.value| := by
      rw [← not_lt, Datum.abs_value_lt_iff]
      have above : 2 ^ 10 ≤ h.magnitude := normal.2
      have bound : minNormalHalf.magnitude = 0x400 := rfl
      omega
    exact (least.mpr below).trans_le upTo

/-- Rounding down gives the next half towards zero. -/
theorem half_of_rounded {x y : Datum binary32} (sign : y.sign = x.sign)
    (rounded : y.magnitude = x.magnitude / 2 ^ 13 * 2 ^ 13) (large : ¬ TooLarge x)
    (small : ¬ TooSmall x) :
    (∃ h : Datum binary16, h.isNormal ∧ h.value = y.value) ∧ IsNeighbour x.value y.value := by
  rw [tooLarge_iff] at large
  rw [tooSmall_iff] at small
  let h : Datum binary16 := ⟨x.sign, x.magnitude / 2 ^ 13 - 112 * 2 ^ 10, by
    show _ < 2 ^ 15
    omega⟩
  have magnitude : h.magnitude = x.magnitude / 2 ^ 13 - 112 * 2 ^ 10 := rfl
  have infinity : binary16.infinity = 0x7c00 := rfl
  have fracBits : binary16.fracBits = 10 := rfl
  have normal : h.isNormal := by
    rw [Datum.isNormal, Datum.isFinite, magnitude, infinity, fracBits]
    omega
  have same : y.magnitude = Format.widened binary16 binary32 h.magnitude := by
    have enough : 112 * 2 ^ 10 ≤ x.magnitude / 2 ^ 13 := by omega
    rw [widened_half, halfAsFloat, magnitude, Nat.sub_add_cancel enough, rounded]
  have value : h.value = y.value :=
    (Datum.value_eq_widened (by decide) (by decide) normal sign same).symm
  have down : |y.value| ≤ |x.value| := by
    rw [← not_lt, Datum.abs_value_lt_iff]
    omega
  -- no half is between the two
  have next (other : Datum binary16) (finite : other.isFinite)
      (below : |other.value| ≤ |x.value|) : |other.value| ≤ |y.value| := by
    by_cases isNormal : other.isNormal
    · rw [← not_lt, (abs_value_half_lt_iff isNormal _).2] at below ⊢
      rw [halfAsFloat] at below ⊢
      omega
    · have least : |minNormalHalf.value| ≤ |y.value| := by
        rw [← not_lt, (abs_value_half_lt_iff (h := minNormalHalf) (by decide) y).2, rounded]
        have : halfAsFloat minNormalHalf.magnitude = 0x38800000 := rfl
        omega
      have subnormal : other.magnitude < 2 ^ 10 := by
        by_contra above
        exact isNormal ⟨finite, Nat.not_lt.mp above⟩
      have less : |other.value| < |minNormalHalf.value| :=
        Datum.abs_value_lt_iff.mpr subnormal
      exact less.le.trans least
  have signed (z : Datum binary32) : z.value = if z.sign then -|z.value| else |z.value| := by
    rw [Datum.abs_value, Datum.value]
    cases z.sign <;> simp
  have xSigned := signed x
  have ySigned := signed y
  rw [sign] at ySigned
  refine ⟨⟨h, normal, value⟩, ?_⟩
  cases xSign : x.sign with
  | false =>
      simp only [xSign, Bool.false_eq_true, if_false] at xSigned ySigned
      refine .inl ⟨⟨by linarith, h, normal.1, value⟩, ?_⟩
      rintro v ⟨below, other, finite, rfl⟩
      by_cases within : |other.value| ≤ |x.value|
      · have := next other finite within
        have := le_abs_self other.value
        linarith
      · rcases abs_choice other.value with same | opposite
        · linarith
        · have := abs_nonneg other.value
          have := abs_nonneg y.value
          linarith
  | true =>
      simp only [xSign, if_true] at xSigned ySigned
      refine .inr ⟨⟨by linarith, h, normal.1, value⟩, ?_⟩
      rintro v ⟨above, other, finite, rfl⟩
      by_cases within : |other.value| ≤ |x.value|
      · have := next other finite within
        have := neg_abs_le other.value
        linarith
      · rcases abs_choice other.value with same | opposite
        · have := abs_nonneg other.value
          have := abs_nonneg y.value
          linarith
        · linarith

theorem isNaN_iff (x : Datum binary32) : x.isNaN ↔ 0x7f800000 < x.magnitude := Iff.rfl

theorem flt_negInf (src : BitVec 32) : flt src 0xc77fe000#32 ↔
    ¬ (single src).isNaN ∧ (single src).sign ∧ 0x477fe000 < (single src).magnitude := by
  have sign : (single 0xc77fe000#32).sign = true := by decide
  have magnitude : (single 0xc77fe000#32).magnitude = 0x477fe000 := by decide
  have number : ¬ (single 0xc77fe000#32).isNaN := by decide
  rw [flt, decide_eq_true_iff, Datum.lt, Datum.order, Datum.order, sign, magnitude,
    and_iff_right number]
  cases (single src).sign <;> simp

theorem flt_posInf (src : BitVec 32) : flt 0x477fe000#32 src ↔
    ¬ (single src).isNaN ∧ (single src).sign = false ∧ 0x477fe000 < (single src).magnitude := by
  have sign : (single 0x477fe000#32).sign = false := by decide
  have magnitude : (single 0x477fe000#32).magnitude = 0x477fe000 := by decide
  have number : ¬ (single 0x477fe000#32).isNaN := by decide
  rw [flt, decide_eq_true_iff, Datum.lt, Datum.order, Datum.order, sign, magnitude,
    and_iff_right number]
  cases (single src).sign <;> simp

theorem flt_zero (src : BitVec 32) : flt (fabs src) 0x38800000#32 ↔
    (single src).magnitude < 0x38800000 := by
  have sign : (single 0x38800000#32).sign = false := by decide
  have magnitude : (single 0x38800000#32).magnitude = 0x38800000 := by decide
  have number : ¬ (single 0x38800000#32).isNaN := by decide
  obtain ⟨absSign, absMagnitude⟩ := single_fabs src
  rw [flt, decide_eq_true_iff, Datum.lt, Datum.order, Datum.order, sign, magnitude, absSign,
    absMagnitude, isNaN_iff, absMagnitude, and_iff_right number]
  simp only [Bool.false_eq_true, if_false]
  omega

theorem lowerFquantize2f16_cases (src : BitVec 32) :
    if (single src).magnitude < 0x38800000 then
      lowerFquantize2f16 src = src &&& 0x80000000#32
    else if ¬ (single src).isNaN ∧ 0x477fe000 < (single src).magnitude then
      lowerFquantize2f16 src = if (single src).sign then 0xff800000#32 else 0x7f800000#32
    else lowerFquantize2f16 src = src &&& ~~~bitfieldMask 13 := by
  have negInf := flt_negInf src
  have posInf := flt_posInf src
  have zero := flt_zero src
  rw [lowerFquantize2f16]
  split
  next small => simp [zero, small]
  next notSmall =>
    have notZero : ¬ flt (fabs src) 0x38800000#32 := fun does => notSmall (zero.mp does)
    split
    next large =>
      cases sign : (single src).sign with
      | false => simp [posInf.mpr ⟨large.1, sign, large.2⟩]
      | true =>
          have notPos : ¬ flt 0x477fe000#32 src := by
            rw [posInf, sign]
            simp
          simp [notPos, negInf.mpr ⟨large.1, sign, large.2⟩]
    next notLarge =>
      have notPos : ¬ flt 0x477fe000#32 src := by
        rw [posInf]
        exact fun does => notLarge ⟨does.1, does.2.2⟩
      have notNeg : ¬ flt src 0xc77fe000#32 := by
        rw [negInf]
        exact fun does => notLarge ⟨does.1, does.2.2⟩
      simp [notPos, notNeg]

/-- Quantizing does what is documented for all but the NaNs of which only bits are set that it
masks out: they become infinities. -/
theorem lowerFquantize2f16_quantizes_iff (src : BitVec 32) :
    Quantizes (single src) (single (lowerFquantize2f16 src)) ↔
      ¬ ((single src).isNaN ∧ (single src).magnitude < binary32.infinity + 2 ^ 13) := by
  have infinity : binary32.infinity = 0x7f800000 := rfl
  have cases_ := lowerFquantize2f16_cases src
  obtain ⟨roundSign, roundMagnitude⟩ := single_round src
  rw [isNaN_iff, infinity]
  split at cases_
  next small =>
    rw [cases_]
    obtain ⟨zeroSign, zeroMagnitude⟩ := single_signBit src
    have number : ¬ (single src).isNaN := by
      rw [isNaN_iff]
      omega
    constructor
    · intro _
      omega
    · intro _
      refine ⟨fun nan => absurd nan number, fun _ large => ?_, fun _ _ => ⟨zeroMagnitude, zeroSign⟩,
        fun _ _ notSmall => absurd ((tooSmall_iff _).mpr small) notSmall⟩
      have := (tooLarge_iff _).mp large
      omega
  next notSmall =>
    split at cases_
    next large =>
      rw [cases_]
      have number := large.1
      rw [isNaN_iff] at number
      constructor
      · intro _
        omega
      · intro _
        refine ⟨fun nan => absurd nan large.1, fun _ _ => ?_, fun _ small => ?_,
          fun _ notLarge => absurd ((tooLarge_iff _).mpr large.2) notLarge⟩
        · cases (single src).sign <;> exact ⟨by decide, by decide⟩
        · exact absurd ((tooSmall_iff _).mp small) notSmall
    next notLarge =>
      rw [cases_]
      by_cases nan : (single src).isNaN
      · have isNaN := (isNaN_iff _).mp nan
        constructor
        · intro quantizes
          have stays := (isNaN_iff _).mp (quantizes.nan nan)
          rw [roundMagnitude] at stays
          omega
        · intro payload
          refine ⟨fun _ => ?_, fun number => absurd nan number, fun number => absurd nan number,
            fun number => absurd nan number⟩
          rw [isNaN_iff, roundMagnitude]
          omega
      · have number := nan
        rw [isNaN_iff] at number
        have within : (single src).magnitude ≤ 0x477fe000 := by
          by_contra above
          exact notLarge ⟨nan, Nat.not_le.mp above⟩
        constructor
        · intro _
          omega
        · intro _
          refine ⟨fun isNaN => absurd isNaN nan, fun _ large => ?_, fun _ small => ?_,
            fun _ large small => half_of_rounded roundSign roundMagnitude large small⟩
          · have := (tooLarge_iff _).mp large
            omega
          · exact absurd ((tooSmall_iff _).mp small) notSmall

/-- A NaN whose payload is in its lowest bit becomes an infinity. -/
theorem not_lowerFquantize2f16_quantizes :
    lowerFquantize2f16 0x7f800001#32 = 0x7f800000#32 ∧
      ¬ Quantizes (single 0x7f800001#32) (single (lowerFquantize2f16 0x7f800001#32)) := by
  constructor
  · decide
  · intro quantizes
    exact absurd (quantizes.nan (by decide)) (by decide)

end Half

end SpirvToDxil
