import SpirvToDxil.Util.Ieee
import Mathlib.Algebra.Order.Field.Basic
import Mathlib.Data.Rat.Cast.Order
import Mathlib.Order.Monotone.Basic
import Mathlib.Tactic.FieldSimp
import Mathlib.Tactic.NormNum

/-!
# The numbers of floating-point data

Finite data are whole multiples of the least positive number of their format.
-/

namespace Ieee

def binary16 : Format := ⟨5, 10, by decide⟩

namespace Format

variable (f : Format)

/-- A magnitude in units of the least positive number. -/
def ulps (magnitude : Nat) : Nat :=
  if magnitude < 2 ^ f.fracBits then magnitude
  else (2 ^ f.fracBits + magnitude % 2 ^ f.fracBits) * 2 ^ (magnitude / 2 ^ f.fracBits - 1)

/-- The least positive number is one over this. -/
def unit : Nat := 2 ^ (f.bias + f.fracBits - 1)

theorem ulps_lt_succ (magnitude : Nat) : f.ulps magnitude < f.ulps (magnitude + 1) := by
  have positive := Nat.two_pow_pos f.fracBits
  rw [ulps, ulps]
  by_cases small : magnitude < 2 ^ f.fracBits
  · rw [if_pos small]
    by_cases next : magnitude + 1 < 2 ^ f.fracBits
    · rw [if_pos next]
      exact Nat.lt_succ_self magnitude
    · have last : magnitude + 1 = 2 ^ f.fracBits := by omega
      rw [if_neg next, last, Nat.mod_self, Nat.div_self positive]
      omega
  · rw [if_neg small, if_neg (by omega)]
    have divided := Nat.div_add_mod magnitude (2 ^ f.fracBits)
    have below := Nat.mod_lt magnitude positive
    have expPositive : 1 ≤ magnitude / 2 ^ f.fracBits :=
      (Nat.one_le_div_iff positive).mpr (Nat.not_lt.mp small)
    generalize magnitude / 2 ^ f.fracBits = e at divided expPositive ⊢
    generalize magnitude % 2 ^ f.fracBits = r at divided below ⊢
    subst divided
    by_cases next : r + 1 < 2 ^ f.fracBits
    · rw [Nat.add_assoc, Nat.mul_add_mod, Nat.mod_eq_of_lt next, Nat.mul_add_div positive,
        Nat.div_eq_of_lt next, Nat.add_zero]
      exact Nat.mul_lt_mul_of_pos_right (by omega) (Nat.two_pow_pos _)
    · have last : 2 ^ f.fracBits * e + r + 1 = 2 ^ f.fracBits * (e + 1) := by
        rw [Nat.mul_add]
        omega
      rw [last, Nat.mul_mod_right, Nat.mul_div_cancel_left _ positive, Nat.add_zero,
        Nat.add_sub_cancel]
      calc (2 ^ f.fracBits + r) * 2 ^ (e - 1)
          < (2 ^ f.fracBits + 2 ^ f.fracBits) * 2 ^ (e - 1) :=
            Nat.mul_lt_mul_of_pos_right (by omega) (Nat.two_pow_pos _)
        _ = 2 ^ f.fracBits * (2 ^ (e - 1) * 2) := by ring
        _ = 2 ^ f.fracBits * 2 ^ e := by
            rw [← Nat.pow_succ, Nat.succ_eq_add_one, Nat.sub_add_cancel expPositive]

theorem ulps_strictMono : StrictMono f.ulps := strictMono_nat_of_lt_succ f.ulps_lt_succ

theorem ulps_lt_iff {m n : Nat} : f.ulps m < f.ulps n ↔ m < n := f.ulps_strictMono.lt_iff_lt

end Format

namespace Datum

variable {f : Format} (x y : Datum f)

/-- The number that a datum is, where it is finite. -/
def value : ℚ := (if x.sign then -1 else 1) * (f.ulps x.magnitude / f.unit)

def isFinite : Prop := x.magnitude < f.infinity

/-- A finite number that is not zero and has a leading bit of one. -/
def isNormal : Prop := x.isFinite ∧ 2 ^ f.fracBits ≤ x.magnitude

/-- The place in the order of numbers: bit patterns of one sign are in the order of magnitude. -/
def order : Int := if x.sign then -x.magnitude else x.magnitude

/-- The comparison `<`: NaNs are not in order. -/
def lt : Prop := ¬ x.isNaN ∧ ¬ y.isNaN ∧ x.order < y.order

instance : Decidable x.isFinite := inferInstanceAs (Decidable (_ < _))

instance : Decidable x.isNormal := inferInstanceAs (Decidable (_ ∧ _))

instance : Decidable (x.lt y) := inferInstanceAs (Decidable (_ ∧ _))

variable {x y}

theorem abs_value (x : Datum f) : |x.value| = f.ulps x.magnitude / f.unit := by
  have nonneg : (0 : ℚ) ≤ f.ulps x.magnitude / f.unit :=
    div_nonneg (Nat.cast_nonneg _) (Nat.cast_nonneg _)
  rw [value, abs_mul, abs_of_nonneg nonneg]
  cases x.sign <;> simp

theorem unit_pos : (0 : ℚ) < f.unit := Nat.cast_pos.mpr (Nat.two_pow_pos _)

theorem abs_value_lt_iff : |x.value| < |y.value| ↔ x.magnitude < y.magnitude := by
  rw [abs_value, abs_value, div_lt_div_iff_of_pos_right unit_pos, Nat.cast_lt, f.ulps_lt_iff]

end Datum

namespace Format

variable {f g : Format}

/-- A normal magnitude in a format with more fraction bits and a greater bias. -/
def widened (f g : Format) (magnitude : Nat) : Nat :=
  (magnitude + (g.bias - f.bias) * 2 ^ f.fracBits) * 2 ^ (g.fracBits - f.fracBits)

theorem unit_mul_eq (finer : f.fracBits ≤ g.fracBits) (greater : f.bias ≤ g.bias) :
    f.unit * 2 ^ (g.bias - f.bias + (g.fracBits - f.fracBits)) = g.unit := by
  have positive := f.fracBits_pos
  rw [unit, unit, ← Nat.pow_add]
  congr 1
  omega

theorem ulps_widened (finer : f.fracBits ≤ g.fracBits) {magnitude : Nat}
    (normal : 2 ^ f.fracBits ≤ magnitude) :
    g.ulps (widened f g magnitude) =
      f.ulps magnitude * 2 ^ (g.bias - f.bias + (g.fracBits - f.fracBits)) := by
  have positive := Nat.two_pow_pos f.fracBits
  obtain ⟨extra, sum⟩ := Nat.exists_eq_add_of_le finer
  have divided := Nat.div_add_mod magnitude (2 ^ f.fracBits)
  have below := Nat.mod_lt magnitude positive
  have expPositive := (Nat.one_le_div_iff positive).mpr normal
  rw [ulps, ulps, if_neg (Nat.not_lt.mpr normal), widened, sum, Nat.add_sub_cancel_left]
  generalize magnitude / 2 ^ f.fracBits = e at divided expPositive ⊢
  generalize magnitude % 2 ^ f.fracBits = r at divided below ⊢
  have split : (magnitude + (g.bias - f.bias) * 2 ^ f.fracBits) * 2 ^ extra =
      2 ^ (f.fracBits + extra) * (e + (g.bias - f.bias)) + r * 2 ^ extra := by
    rw [← divided, Nat.pow_add]
    ring
  have small : r * 2 ^ extra < 2 ^ (f.fracBits + extra) := by
    rw [Nat.pow_add]
    exact Nat.mul_lt_mul_of_pos_right below (Nat.two_pow_pos _)
  have atLeast : ¬ 2 ^ (f.fracBits + extra) * (e + (g.bias - f.bias)) + r * 2 ^ extra <
      2 ^ (f.fracBits + extra) := by
    have := Nat.le_mul_of_pos_right (2 ^ (f.fracBits + extra))
      (show 0 < e + (g.bias - f.bias) by omega)
    omega
  rw [split, if_neg atLeast, Nat.mul_add_mod, Nat.mod_eq_of_lt small,
    Nat.mul_add_div (Nat.two_pow_pos _), Nat.div_eq_of_lt small, Nat.add_zero,
    show e + (g.bias - f.bias) - 1 = e - 1 + (g.bias - f.bias) by omega]
  simp only [Nat.pow_add]
  ring

end Format

namespace Datum

variable {f g : Format}

/-- A normal number in a wider format. -/
theorem value_eq_widened (finer : f.fracBits ≤ g.fracBits) (greater : f.bias ≤ g.bias)
    {x : Datum f} (normal : x.isNormal) {y : Datum g} (sign : y.sign = x.sign)
    (magnitude : y.magnitude = Format.widened f g x.magnitude) : y.value = x.value := by
  rw [value, value, sign, magnitude, Format.ulps_widened finer normal.2,
    ← Format.unit_mul_eq finer greater]
  push_cast
  rw [mul_div_mul_right _ _ (by positivity)]

end Datum

end Ieee
