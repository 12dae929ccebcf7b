import Mathlib.Algebra.Order.Ring.Int
import Mathlib.Data.Nat.Log
import Mathlib.Tactic.Ring

/-!
# Binary floating-point data

Bit patterns of the binary interchange formats: comparison as `==` has it, and
conversion between formats, which rounds to nearest and quiets NaNs.
-/

namespace Ieee

structure Format where
  expBits : Nat
  fracBits : Nat
  fracBits_pos : 0 < fracBits

namespace Format

variable (f : Format)

def bias : Nat := 2 ^ (f.expBits - 1) - 1

/-- The magnitude bits of infinity. -/
def infinity : Nat := (2 ^ f.expBits - 1) * 2 ^ f.fracBits

def quietBit : Nat := 2 ^ (f.fracBits - 1)

theorem infinity_add : f.infinity + 2 ^ f.fracBits = 2 ^ (f.expBits + f.fracBits) := by
  have pos : 0 < 2 ^ f.expBits := Nat.two_pow_pos _
  rw [infinity, Nat.pow_add, ← Nat.succ_mul, Nat.succ_eq_add_one, Nat.sub_add_cancel pos]

theorem quietBit_add : f.quietBit + f.quietBit = 2 ^ f.fracBits := by
  rw [quietBit, ← Nat.two_mul, ← Nat.pow_succ', Nat.succ_eq_add_one,
    Nat.sub_add_cancel f.fracBits_pos]

end Format

def binary32 : Format := ⟨8, 23, by decide⟩

def binary64 : Format := ⟨11, 52, by decide⟩

/-- A bit pattern: the sign, and exponent and fraction as one number. -/
structure Datum (f : Format) where
  sign : Bool
  magnitude : Nat
  magnitude_lt : magnitude < 2 ^ (f.expBits + f.fracBits)
  deriving DecidableEq

namespace Datum

variable {f : Format} (x y : Datum f)

def bits : Nat := x.sign.toNat * 2 ^ (f.expBits + f.fracBits) + x.magnitude

def isNaN : Prop := f.infinity < x.magnitude

def isZero : Prop := x.magnitude = 0

/-- A NaN whose first fraction bit is clear. -/
def isSignaling : Prop := x.isNaN ∧ x.magnitude < f.infinity + f.quietBit

instance : Decidable x.isNaN := inferInstanceAs (Decidable (_ < _))

instance : Decidable x.isZero := inferInstanceAs (Decidable (_ = _))

instance : Decidable x.isSignaling := inferInstanceAs (Decidable (_ ∧ _))

/-- The comparison `==`: NaNs equal nothing, and both zeros are equal. -/
def eqv : Prop := ¬ x.isNaN ∧ ¬ y.isNaN ∧ (x = y ∨ x.isZero ∧ y.isZero)

instance : Decidable (x.eqv y) := inferInstanceAs (Decidable (_ ∧ _))

variable {x y}

theorem eqv_symm (equal : x.eqv y) : y.eqv x := by
  rcases equal with ⟨notNaN, notNaN', rfl | ⟨zero, zero'⟩⟩
  · exact ⟨notNaN', notNaN, Or.inl rfl⟩
  · exact ⟨notNaN', notNaN, Or.inr ⟨zero', zero⟩⟩

theorem eqv_trans {z : Datum f} (first : x.eqv y) (second : y.eqv z) : x.eqv z := by
  rcases first with ⟨notNaN, -, rfl | ⟨zero, zero'⟩⟩
  · exact second
  · rcases second with ⟨-, notNaN', rfl | ⟨-, zero''⟩⟩
    · exact ⟨notNaN, notNaN', Or.inr ⟨zero, zero'⟩⟩
    · exact ⟨notNaN, notNaN', Or.inr ⟨zero, zero''⟩⟩

theorem eqv_congr_right (equal : x.eqv y) (z : Datum f) : z.eqv x ↔ z.eqv y :=
  ⟨fun same => eqv_trans same equal, fun same => eqv_trans same (eqv_symm equal)⟩

theorem not_isNaN_of_isZero (zero : x.isZero) : ¬ x.isNaN := by
  rw [isZero] at zero
  rw [isNaN, zero]
  exact Nat.not_lt_zero _

theorem eqv_of_isZero (zero : x.isZero) (zero' : y.isZero) : x.eqv y :=
  ⟨not_isNaN_of_isZero zero, not_isNaN_of_isZero zero', Or.inr ⟨zero, zero'⟩⟩

variable (x y)

theorem bits_injective : Function.Injective (bits (f := f)) := by
  rintro ⟨sign, magnitude, small⟩ ⟨sign', magnitude', small'⟩ same
  simp only [bits] at same
  have signs : sign = sign' := by
    cases sign <;> cases sign' <;>
      simp only [Bool.toNat_false, Bool.toNat_true, Nat.zero_mul, Nat.one_mul] at same <;>
      first | rfl | omega
  subst signs
  have magnitudes : magnitude = magnitude' := Nat.add_left_cancel same
  subst magnitudes
  rfl

def ofBits (bits : Nat) : Datum f where
  sign := bits / 2 ^ (f.expBits + f.fracBits) % 2 = 1
  magnitude := bits % 2 ^ (f.expBits + f.fracBits)
  magnitude_lt := Nat.mod_lt _ (Nat.two_pow_pos _)

@[simp]
theorem ofBits_bits : ofBits x.bits = x := by
  obtain ⟨sign, magnitude, small⟩ := x
  have high : (sign.toNat * 2 ^ (f.expBits + f.fracBits) + magnitude) /
      2 ^ (f.expBits + f.fracBits) = sign.toNat := by
    rw [Nat.mul_comm, Nat.mul_add_div (Nat.two_pow_pos _), Nat.div_eq_of_lt small, Nat.add_zero]
  have low : (sign.toNat * 2 ^ (f.expBits + f.fracBits) + magnitude) %
      2 ^ (f.expBits + f.fracBits) = magnitude := by
    rw [Nat.mul_comm, Nat.mul_add_mod, Nat.mod_eq_of_lt small]
  simp only [ofBits, bits, high, low]
  cases sign <;> rfl

/-- The significand of a finite number, with its leading bit. -/
def significand : Nat :=
  if x.magnitude < 2 ^ f.fracBits then x.magnitude
  else 2 ^ f.fracBits + x.magnitude % 2 ^ f.fracBits

/-- The exponent field, which is 1 for subnormal numbers. -/
def scale : Nat := max 1 (x.magnitude / 2 ^ f.fracBits)

def quietNaN (sign : Bool) (frac : Nat) (small : frac < 2 ^ f.fracBits) : Datum f where
  sign := sign
  magnitude := f.infinity + if frac < f.quietBit then frac + f.quietBit else frac
  magnitude_lt := by
    rw [← f.infinity_add, ← f.quietBit_add]
    rw [← f.quietBit_add] at small
    split <;> omega

end Datum

/-- `n` divided by a power of two, to nearest with ties to even. -/
def shiftRound (n : Nat) : Int → Nat
  | .ofNat shift =>
    let quotient := n / 2 ^ shift
    let rest := n % 2 ^ shift
    if 2 ^ shift < 2 * rest ∨ (2 * rest = 2 ^ shift ∧ quotient % 2 = 1) then quotient + 1
    else quotient
  | .negSucc shift => n * 2 ^ (shift + 1)

/-- The fraction of a NaN in another format. -/
def convertFrac (f g : Format) (frac : Nat) : Nat :=
  if f.fracBits ≤ g.fracBits then frac * 2 ^ (g.fracBits - f.fracBits)
  else frac / 2 ^ (f.fracBits - g.fracBits)

/-- The magnitude of a finite number in another format, without bound. -/
def convertFinite (f g : Format) (significand scale : Nat) : Nat :=
  if significand = 0 then 0
  else
    -- The exponent field at which the leading bit takes its place.
    let leading : Int := scale + Nat.log2 significand - f.fracBits - f.bias + g.bias
    let scale' : Int := max 1 leading
    let shift := (scale' - g.bias - g.fracBits) - (scale - f.bias - f.fracBits)
    (scale' - 1).toNat * 2 ^ g.fracBits + shiftRound significand shift

theorem convertFrac_lt {f g : Format} {frac : Nat} (small : frac < 2 ^ f.fracBits) :
    convertFrac f g frac < 2 ^ g.fracBits := by
  rw [convertFrac]
  split
  · next wider =>
    calc frac * 2 ^ (g.fracBits - f.fracBits)
        < 2 ^ f.fracBits * 2 ^ (g.fracBits - f.fracBits) :=
          Nat.mul_lt_mul_of_pos_right small (Nat.two_pow_pos _)
      _ = 2 ^ g.fracBits := by rw [← Nat.pow_add, Nat.add_sub_cancel' wider]
  · next narrower =>
    apply Nat.div_lt_of_lt_mul
    rw [← Nat.pow_add, Nat.sub_add_cancel (Nat.le_of_not_le narrower)]
    exact small

namespace Datum

variable {f : Format}

theorem fraction_lt (x : Datum f) : x.magnitude - f.infinity < 2 ^ f.fracBits := by
  have small := x.magnitude_lt
  have total := f.infinity_add
  have pos : 0 < 2 ^ f.fracBits := Nat.two_pow_pos _
  omega

def convert (g : Format) (x : Datum f) : Datum g :=
  if x.isNaN then
    quietNaN x.sign (convertFrac f g (x.magnitude - f.infinity)) (convertFrac_lt x.fraction_lt)
  else
    { sign := x.sign
      magnitude :=
        if x.magnitude = f.infinity then g.infinity
        else min g.infinity (convertFinite f g x.significand x.scale)
      magnitude_lt := by
        have total := g.infinity_add
        have pos : 0 < 2 ^ g.fracBits := Nat.two_pow_pos _
        split <;> omega }

end Datum

/-! ## Widening -/

/-- Every number of the first format is a normal number of the second. -/
structure Wider (f g : Format) : Prop where
  fracBits : f.fracBits ≤ g.fracBits
  bias : f.bias + f.fracBits ≤ g.bias
  expBits : 2 ≤ f.expBits
  exponents : 2 ^ f.expBits + g.bias ≤ 2 ^ g.expBits + f.bias

theorem wider_binary32 : Wider binary32 binary64 := ⟨by decide, by decide, by decide, by decide⟩

theorem shiftRound_mul (n shift : Nat) : shiftRound (n * 2 ^ shift) shift = n := by
  have pos : 0 < 2 ^ shift := Nat.two_pow_pos _
  show (if 2 ^ shift < 2 * (n * 2 ^ shift % 2 ^ shift) ∨ _ then _ else _) = n
  rw [Nat.mul_mod_left, Nat.mul_div_cancel n pos, if_neg]
  omega

theorem shiftRound_neg (n shift : Nat) : shiftRound n (-shift) = n * 2 ^ shift := by
  cases shift with
  | zero =>
    have exact_ := shiftRound_mul n 0
    simpa using exact_
  | succ shift => rfl

namespace Datum

variable {f g : Format} (x y : Datum f)

theorem significand_lt : x.significand < 2 ^ (f.fracBits + 1) := by
  have pos : 0 < 2 ^ f.fracBits := Nat.two_pow_pos _
  have rest := Nat.mod_lt x.magnitude pos
  rw [significand, Nat.pow_succ]
  split <;> omega

theorem magnitude_eq : (x.scale - 1) * 2 ^ f.fracBits + x.significand = x.magnitude := by
  have pos : 0 < 2 ^ f.fracBits := Nat.two_pow_pos _
  rw [scale, significand]
  split
  · next subnormal =>
    rw [Nat.div_eq_of_lt subnormal]
    simp
  · next normal =>
    have leading : 1 ≤ x.magnitude / 2 ^ f.fracBits :=
      (Nat.one_le_div_iff pos).mpr (Nat.le_of_not_lt normal)
    have parts := Nat.div_add_mod x.magnitude (2 ^ f.fracBits)
    rw [Nat.max_eq_right leading, Nat.sub_one_mul, Nat.mul_comm]
    have room : 2 ^ f.fracBits ≤ 2 ^ f.fracBits * (x.magnitude / 2 ^ f.fracBits) :=
      Nat.le_mul_of_pos_right _ leading
    omega

/-- Only subnormal numbers have a short significand. -/
theorem log2_significand (nonzero : x.significand ≠ 0) :
    Nat.log2 x.significand ≤ f.fracBits ∧
      (Nat.log2 x.significand < f.fracBits → x.scale = 1) := by
  have small := x.significand_lt
  constructor
  · exact Nat.lt_succ_iff.mp ((Nat.log2_lt nonzero).mpr small)
  · intro short
    rw [Nat.log2_lt nonzero, significand] at short
    split at short
    · next subnormal =>
      rw [scale, Nat.div_eq_of_lt subnormal]
      rfl
    · omega

end Datum

/-- The exponent field of a widened number, and its significand. -/
theorem convertFinite_wider {f g : Format} (wider : Wider f g) {significand scale : Nat}
    (nonzero : significand ≠ 0) (short : Nat.log2 significand ≤ f.fracBits) (positive : 1 ≤ scale) :
    let shift := g.fracBits - Nat.log2 significand
    let scale' := scale + Nat.log2 significand + g.bias - f.fracBits - f.bias
    convertFinite f g significand scale =
      (scale' - 1) * 2 ^ g.fracBits + significand * 2 ^ shift := by
  intro shift scale'
  have fracs := wider.fracBits
  have biases := wider.bias
  have leading : ((scale + Nat.log2 significand : Nat) : Int) - f.fracBits - f.bias + g.bias =
      (scale' : Nat) := by omega
  have above : (1 : Int) ≤ (scale' : Nat) := by omega
  have left : ((scale' : Nat) : Int) - g.bias - g.fracBits - (scale - f.bias - f.fracBits) =
      -(shift : Nat) := by omega
  rw [convertFinite, if_neg nonzero]
  push_cast at leading
  simp only [leading, max_eq_right above, left, shiftRound_neg]
  congr 2
  omega

theorem log2_mul_two_pow {n : Nat} (nonzero : n ≠ 0) (shift : Nat) :
    Nat.log2 (n * 2 ^ shift) = Nat.log2 n + shift := by
  have pos : 0 < 2 ^ shift := Nat.two_pow_pos _
  rw [Nat.log2_eq_iff (Nat.mul_ne_zero nonzero pos.ne')]
  rcases (Nat.log2_eq_iff nonzero).mp rfl with ⟨lower, upper⟩
  constructor
  · rw [Nat.pow_add]
    exact Nat.mul_le_mul_right _ lower
  · rw [Nat.add_right_comm, Nat.pow_add]
    exact Nat.mul_lt_mul_of_pos_right upper pos

theorem convertFinite_narrower {f g : Format} (wider : Wider f g) {significand scale : Nat}
    (nonzero : significand ≠ 0) (short : Nat.log2 significand ≤ f.fracBits) (positive : 1 ≤ scale)
    (normal : Nat.log2 significand < f.fracBits → scale = 1) :
    let shift := g.fracBits - Nat.log2 significand
    let scale' := scale + Nat.log2 significand + g.bias - f.fracBits - f.bias
    convertFinite g f (significand * 2 ^ shift) scale' =
      (scale - 1) * 2 ^ f.fracBits + significand := by
  intro shift scale'
  have fracs := wider.fracBits
  have biases := wider.bias
  have pos : 0 < 2 ^ shift := Nat.two_pow_pos _
  have log : Nat.log2 (significand * 2 ^ shift) = g.fracBits := by
    rw [log2_mul_two_pow nonzero]
    omega
  have nonzero' : significand * 2 ^ shift ≠ 0 := Nat.mul_ne_zero nonzero pos.ne'
  have leading : max (1 : Int) ((scale' : Nat) + (g.fracBits : Nat) - (g.fracBits : Nat) - g.bias +
      f.bias) = (scale : Nat) := by omega
  have right : ((scale : Nat) : Int) - f.bias - f.fracBits - (scale' - g.bias - g.fracBits) =
      (shift : Nat) := by omega
  rw [convertFinite, if_neg nonzero', log]
  simp only [leading, right, shiftRound_mul]
  congr 2
  omega

namespace Datum

variable {f g : Format}

theorem parts_of_magnitude (x : Datum f) {significand scale : Nat} (positive : 1 ≤ scale)
    (leading : 2 ^ f.fracBits ≤ significand) (short : significand < 2 ^ (f.fracBits + 1))
    (magnitude : x.magnitude = (scale - 1) * 2 ^ f.fracBits + significand) :
    x.significand = significand ∧ x.scale = scale := by
  have pos : 0 < 2 ^ f.fracBits := Nat.two_pow_pos _
  have split : x.magnitude = (significand - 2 ^ f.fracBits) + 2 ^ f.fracBits * scale := by
    rw [magnitude, Nat.sub_one_mul, Nat.mul_comm]
    have room : 2 ^ f.fracBits ≤ 2 ^ f.fracBits * scale := Nat.le_mul_of_pos_right _ positive
    omega
  rw [Nat.pow_succ] at short
  have rest : significand - 2 ^ f.fracBits < 2 ^ f.fracBits := by omega
  have quotient : x.magnitude / 2 ^ f.fracBits = scale := by
    rw [split, Nat.add_mul_div_left _ _ pos, Nat.div_eq_of_lt rest, Nat.zero_add]
  have remainder : x.magnitude % 2 ^ f.fracBits = significand - 2 ^ f.fracBits := by
    rw [split, Nat.add_mul_mod_self_left, Nat.mod_eq_of_lt rest]
  constructor
  · rw [Datum.significand, if_neg, remainder]
    · omega
    · have room : 2 ^ f.fracBits ≤ 2 ^ f.fracBits * scale := Nat.le_mul_of_pos_right _ positive
      omega
  · rw [Datum.scale, quotient, max_eq_right positive]

theorem significand_eq_zero_iff (x : Datum f) : x.significand = 0 ↔ x.isZero := by
  have pos : 0 < 2 ^ f.fracBits := Nat.two_pow_pos _
  rw [significand, isZero]
  split <;> omega

theorem scale_lt_of_finite {x : Datum f} (finite : x.magnitude < f.infinity) :
    x.scale < 2 ^ f.expBits - 1 ∨ x.scale = 1 := by
  rw [Format.infinity] at finite
  rw [scale]
  have quotient : x.magnitude / 2 ^ f.fracBits < 2 ^ f.expBits - 1 :=
    Nat.div_lt_of_lt_mul (by rwa [Nat.mul_comm] at finite)
  omega

theorem convert_finite (wider : Wider f g) {x : Datum f} (finite : x.magnitude < f.infinity) :
    (x.convert g).magnitude = convertFinite f g x.significand x.scale ∧
      (x.convert g).magnitude < g.infinity ∧
      convertFinite g f (x.convert g).significand (x.convert g).scale = x.magnitude := by
  have notNaN : ¬ x.isNaN := Nat.not_lt.mpr finite.le
  have magnitude : (x.convert g).magnitude =
      min g.infinity (convertFinite f g x.significand x.scale) := by
    simp only [convert, if_neg notNaN, if_neg finite.ne]
  have positive : 1 ≤ x.scale := Nat.le_max_left ..
  by_cases zero : x.significand = 0
  · have isZero : x.magnitude = 0 := (significand_eq_zero_iff x).mp zero
    have none : convertFinite f g x.significand x.scale = 0 := if_pos zero
    rw [none, Nat.min_zero] at magnitude
    have zero' : (x.convert g).significand = 0 := (significand_eq_zero_iff _).mpr magnitude
    have room : 0 < g.infinity := by
      have exponents := wider.exponents
      have biases := wider.bias
      have wide : 2 ^ 2 ≤ 2 ^ f.expBits := Nat.pow_le_pow_right (by decide) wider.expBits
      exact Nat.mul_pos (by omega) (Nat.two_pow_pos _)
    refine ⟨magnitude.trans none.symm, magnitude ▸ room, ?_⟩
    rw [convertFinite, if_pos zero', isZero]
  · rcases x.log2_significand zero with ⟨short, normal⟩
    have formula := convertFinite_wider wider zero short positive
    have back := convertFinite_narrower wider zero short positive normal
    dsimp only at formula back
    have fracs := wider.fracBits
    have biases := wider.bias
    have exponents := wider.exponents
    have wide : 2 ^ 2 ≤ 2 ^ f.expBits := Nat.pow_le_pow_right (by decide) wider.expBits
    have scales := scale_lt_of_finite finite
    generalize exponent : x.scale + Nat.log2 x.significand + g.bias - f.fracBits - f.bias = scale'
      at formula back
    generalize scaled : x.significand * 2 ^ (g.fracBits - Nat.log2 x.significand) = significand'
      at formula back
    have bounds : 2 ^ g.fracBits ≤ significand' ∧ significand' < 2 ^ (g.fracBits + 1) := by
      have log : Nat.log2 significand' = g.fracBits := by
        rw [← scaled, log2_mul_two_pow zero]
        omega
      have nonzero : significand' ≠ 0 := by
        rw [← scaled]
        exact Nat.mul_ne_zero zero (Nat.two_pow_pos _).ne'
      exact (Nat.log2_eq_iff nonzero).mp log
    have small : convertFinite f g x.significand x.scale < g.infinity := by
      have top : scale' + 1 ≤ 2 ^ g.expBits - 1 := by omega
      calc convertFinite f g x.significand x.scale
          = (scale' - 1) * 2 ^ g.fracBits + significand' := formula
        _ < (scale' - 1) * 2 ^ g.fracBits + 2 ^ (g.fracBits + 1) := by omega
        _ = (scale' - 1 + 2) * 2 ^ g.fracBits := by ring
        _ ≤ g.infinity := Nat.mul_le_mul_right _ (by omega)
    rw [Nat.min_eq_right small.le] at magnitude
    rcases parts_of_magnitude (x.convert g) (by omega) bounds.1 bounds.2
      (magnitude.trans formula) with ⟨significands, scales'⟩
    refine ⟨magnitude, magnitude ▸ small, ?_⟩
    rw [significands, scales', back, x.magnitude_eq]

theorem quietBit_pos (f : Format) : 0 < f.quietBit := Nat.two_pow_pos _

theorem isNaN_quietNaN {sign : Bool} {frac : Nat} (small : frac < 2 ^ f.fracBits) :
    (quietNaN sign frac small).isNaN ∧ ¬ (quietNaN sign frac small).isSignaling := by
  have pos := quietBit_pos f
  simp only [isSignaling, isNaN, quietNaN]
  split <;> omega

theorem isNaN_convert (g : Format) (x : Datum f) : (x.convert g).isNaN ↔ x.isNaN := by
  rw [convert]
  split
  · next nan =>
    exact iff_of_true (isNaN_quietNaN _).1 nan
  · next notNaN =>
    apply iff_of_false _ notNaN
    simp only [isNaN]
    split <;> omega

theorem not_isSignaling_convert (g : Format) (x : Datum f) : ¬ (x.convert g).isSignaling := by
  by_cases nan : x.isNaN
  · rw [convert, if_pos nan]
    exact (isNaN_quietNaN _).2
  · rintro ⟨nan', -⟩
    exact nan ((isNaN_convert g x).mp nan')

theorem sign_convert (g : Format) (x : Datum f) : (x.convert g).sign = x.sign := by
  rw [convert]
  split <;> rfl

theorem quietBit_mul (wider : Wider f g) :
    g.quietBit = f.quietBit * 2 ^ (g.fracBits - f.fracBits) := by
  have fracs := wider.fracBits
  have pos := f.fracBits_pos
  rw [Format.quietBit, Format.quietBit, ← Nat.pow_add]
  congr 1
  omega

theorem convertFrac_back (wider : Wider f g) (frac : Nat) :
    convertFrac g f (frac * 2 ^ (g.fracBits - f.fracBits)) = frac := by
  have fracs := wider.fracBits
  have pos : 0 < 2 ^ (g.fracBits - f.fracBits) := Nat.two_pow_pos _
  rw [convertFrac]
  split
  · next narrower =>
    have equal : g.fracBits - f.fracBits = 0 := by omega
    have equal' : f.fracBits - g.fracBits = 0 := by omega
    rw [equal, equal', Nat.pow_zero, Nat.mul_one, Nat.mul_one]
  · exact Nat.mul_div_cancel _ pos

/-- Widening a quiet NaN keeps its fraction. -/
theorem magnitude_convert_quiet (wider : Wider f g) {x : Datum f} (nan : x.isNaN)
    (quiet : ¬ x.isSignaling) :
    (x.convert g).magnitude =
      g.infinity + (x.magnitude - f.infinity) * 2 ^ (g.fracBits - f.fracBits) := by
  have above : f.infinity + f.quietBit ≤ x.magnitude :=
    Nat.le_of_not_lt (fun low => quiet ⟨nan, low⟩)
  have bit : g.quietBit ≤ (x.magnitude - f.infinity) * 2 ^ (g.fracBits - f.fracBits) := by
    rw [quietBit_mul wider]
    exact Nat.mul_le_mul_right _ (by omega)
  simp only [convert, if_pos nan, quietNaN, convertFrac, if_pos wider.fracBits]
  rw [if_neg (Nat.not_lt.mpr bit)]

/-- Every pattern but that of a signaling NaN survives a wider format. -/
theorem convert_convert (wider : Wider f g) {x : Datum f} (quiet : ¬ x.isSignaling) :
    (x.convert g).convert f = x := by
  have sign : ((x.convert g).convert f).sign = x.sign := by rw [sign_convert, sign_convert]
  have magnitude : ((x.convert g).convert f).magnitude = x.magnitude := by
    by_cases nan : x.isNaN
    · have nan' : (x.convert g).isNaN := (isNaN_convert g x).mpr nan
      have above : f.infinity + f.quietBit ≤ x.magnitude :=
        Nat.le_of_not_lt (fun low => quiet ⟨nan, low⟩)
      have frac : convertFrac g f ((x.convert g).magnitude - g.infinity) =
          x.magnitude - f.infinity := by
        rw [magnitude_convert_quiet wider nan quiet, Nat.add_sub_cancel_left,
          convertFrac_back wider]
      rw [convert, if_pos nan']
      simp only [quietNaN, frac]
      rw [if_neg (by omega)]
      exact Nat.add_sub_cancel' (Nat.le_of_lt nan)
    · have nan' : ¬ (x.convert g).isNaN := fun nan' => nan ((isNaN_convert g x).mp nan')
      by_cases infinite : x.magnitude = f.infinity
      · have infinite' : (x.convert g).magnitude = g.infinity := by
          simp only [convert, if_neg nan, if_pos infinite]
        rw [convert, if_neg nan', infinite]
        exact if_pos infinite'
      · have finite : x.magnitude < f.infinity := by
          simp only [isNaN] at nan
          omega
        rcases convert_finite wider finite with ⟨-, finite', back⟩
        rw [convert, if_neg nan']
        simp only [if_neg finite'.ne, back, Nat.min_eq_right finite.le]
  cases x
  cases same : (Datum.convert g _).convert f
  rw [same] at sign magnitude
  cases sign
  cases magnitude
  rfl

theorem convert_injOn (wider : Wider f g) {x y : Datum f} (notNaN : ¬ x.isNaN)
    (same : x.convert g = y.convert g) : x = y := by
  have notNaN' : ¬ y.isNaN := by
    rw [← isNaN_convert g, ← same, isNaN_convert]
    exact notNaN
  rw [← convert_convert wider (fun signaling => notNaN signaling.1), same,
    convert_convert wider (fun signaling => notNaN' signaling.1)]

theorem isZero_convert (wider : Wider f g) (x : Datum f) : (x.convert g).isZero ↔ x.isZero := by
  by_cases finite : x.magnitude < f.infinity
  · rcases convert_finite wider finite with ⟨-, -, back⟩
    rw [← significand_eq_zero_iff, ← significand_eq_zero_iff x]
    constructor
    · intro zero
      rw [convertFinite, if_pos zero] at back
      exact (significand_eq_zero_iff x).mpr back.symm
    · intro zero
      have isZero : x.magnitude = 0 := (significand_eq_zero_iff x).mp zero
      rcases convert_finite wider finite with ⟨magnitude, -, -⟩
      rw [convertFinite, if_pos zero] at magnitude
      exact (significand_eq_zero_iff _).mpr magnitude
  · have room : 0 < f.infinity := by
      have wide : 2 ^ 2 ≤ 2 ^ f.expBits := Nat.pow_le_pow_right (by decide) wider.expBits
      exact Nat.mul_pos (by omega) (Nat.two_pow_pos _)
    have room' : 0 < g.infinity := by
      have exponents := wider.exponents
      have biases := wider.bias
      have wide : 2 ^ 2 ≤ 2 ^ f.expBits := Nat.pow_le_pow_right (by decide) wider.expBits
      exact Nat.mul_pos (by omega) (Nat.two_pow_pos _)
    simp only [isZero, convert]
    split
    · simp only [quietNaN]
      omega
    · next notNaN =>
      have infinite : x.magnitude = f.infinity := by
        simp only [isNaN] at notNaN
        omega
      simp only [if_pos infinite]
      omega

theorem eqv_convert (wider : Wider f g) (x y : Datum f) :
    (x.convert g).eqv (y.convert g) ↔ x.eqv y := by
  rw [eqv, eqv, isNaN_convert, isNaN_convert, isZero_convert wider, isZero_convert wider]
  apply and_congr_right
  intro notNaN
  apply and_congr_right
  intro _
  apply or_congr_left
  exact ⟨convert_injOn wider notNaN, fun same => same ▸ rfl⟩

end Datum

end Ieee
