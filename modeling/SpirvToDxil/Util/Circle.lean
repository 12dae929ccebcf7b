import Mathlib.Algebra.Order.Ring.Int
import Mathlib.Data.Int.ModEq

/-!
# Arithmetic progressions on a circle

The terms of a progression are read on a circle of integers that starts somewhere. A point goes
around towards a limit in steps of one size. Where a bound on the terms first holds is known
before the point passes the end of the circle, and again once it has passed it.
-/

namespace Circle

/-- The representative of `x` on the circle of `size` integers that starts at `low`. -/
def wrap (low size x : Int) : Int := (x - low) % size + low

variable {low size x : Int}

theorem wrap_of_mem (above : low ≤ x) (below : x < low + size) : wrap low size x = x := by
  rw [wrap, Int.emod_eq_of_lt (by omega) (by omega)]
  omega

theorem wrap_of_next (above : low + size ≤ x) (below : x < low + size + size) :
    wrap low size x = x - size := by
  rw [wrap, ← Int.sub_emod_right, Int.emod_eq_of_lt (by omega) (by omega)]
  omega

theorem wrap_of_previous (above : low - size ≤ x) (below : x < low) :
    wrap low size x = x + size := by
  rw [wrap, ← Int.add_emod_right, Int.emod_eq_of_lt (by omega) (by omega)]
  omega

theorem le_wrap (positive : 0 < size) : low ≤ wrap low size x := by
  have nonneg := Int.emod_nonneg (x - low) (Int.ne_of_gt positive)
  unfold wrap
  omega

theorem wrap_lt (positive : 0 < size) : wrap low size x < low + size := by
  have less := Int.emod_lt_of_pos (x - low) positive
  unfold wrap
  omega

theorem wrap_modEq (low size x : Int) : wrap low size x ≡ x [ZMOD size] := by
  have same : (x - low) % size + low ≡ x - low + low [ZMOD size] :=
    (Int.mod_modEq _ _).add_right low
  rwa [Int.sub_add_cancel] at same

/-- The representative is the only one. -/
theorem wrap_eq_of_modEq {y : Int} (above : low ≤ y) (below : y < low + size)
    (same : y ≡ x [ZMOD size]) : wrap low size x = y := by
  have shifted : (x - low) % size = (y - low) % size := (same.sub_right low).symm
  rw [wrap, shifted, Int.emod_eq_of_lt (by omega) (by omega)]
  omega

theorem wrap_neg (positive : 0 < size) :
    wrap (1 - low - size) size (-x) = -wrap low size x := by
  have above := @le_wrap low size x positive
  have below := @wrap_lt low size x positive
  apply wrap_eq_of_modEq
  · omega
  · omega
  · exact (wrap_modEq low size x).neg

inductive Relation where
  | ge
  | gt
  | le
  | lt
  | eq
  | ne
  deriving DecidableEq, Repr

namespace Relation

def Holds : Relation → Int → Int → Prop
  | ge, value, limit => limit ≤ value
  | gt, value, limit => limit < value
  | le, value, limit => value ≤ limit
  | lt, value, limit => value < limit
  | eq, value, limit => value = limit
  | ne, value, limit => value ≠ limit

/-- The relation between the opposites. -/
def mirror : Relation → Relation
  | ge => le
  | gt => lt
  | le => ge
  | lt => gt
  | eq => eq
  | ne => ne

@[simp]
theorem holds_mirror (relation : Relation) (value limit : Int) :
    relation.mirror.Holds (-value) (-limit) ↔ relation.Holds value limit := by
  cases relation <;> simp only [mirror, Holds] <;> omega

/-- It bounds the values from above. -/
def IsUpper (relation : Relation) : Prop := relation = le ∨ relation = lt

instance (relation : Relation) : Decidable relation.IsUpper :=
  inferInstanceAs (Decidable (_ ∨ _))

end Relation

/-- A point that goes up from `init` in steps, on the circle of `size` integers from `low`, and
that is `distance` below the limit. -/
structure Rising (low size init limit step distance : Int) : Prop where
  step_pos : 0 < step
  init_mem : low ≤ init ∧ init < low + size
  limit_mem : low ≤ limit ∧ limit < low + size
  distance_mem : 0 ≤ distance ∧ distance < size
  reaches : distance = limit - init ∨ distance = limit - init + size

namespace Rising

variable {init limit step distance : Int} (rising : Rising low size init limit step distance)
  {relation : Relation} {tested start : Nat}
include rising

omit rising in
theorem mul_sub_steps (count : Nat) (less : Int) :
    ((count : Int) - less) * step = count * step - less * step := Int.sub_mul ..

theorem steps_le {k k' : Nat} (le : k ≤ k') : (k : Int) * step ≤ (k' : Int) * step :=
  Int.mul_le_mul_of_nonneg_right (by omega) (Int.le_of_lt rising.step_pos)

/-- Up to the limit, the point passes the end of the circle at most once. -/
theorem wrap_eq {offset : Int} (nonneg : 0 ≤ offset) (le : offset ≤ distance) :
    wrap low size (init + offset) =
      if init + offset < low + size then init + offset else init + offset - size := by
  have initMem := rising.init_mem
  have distanceMem := rising.distance_mem
  split
  next inside => exact wrap_of_mem (by omega) inside
  next passed => exact wrap_of_next (by omega) (by omega)

/-- Where the relation first fails, and later holds two steps or more before one that does not
pass the limit, the point passes the end of the circle first. -/
theorem passes_of_holds (reach : (tested : Int) * step ≤ distance) (notEq : relation ≠ .ne)
    (first : ¬relation.Holds (wrap low size (init + start * step)) limit) {k : Nat}
    (late : start ≤ k) (early : k + 2 ≤ tested)
    (holds : relation.Holds (wrap low size (init + k * step)) limit) :
    relation.IsUpper ∧ limit < init ∧ init + start * step < low + size ∧
      low + size ≤ init + (tested - 2 : Int) * step := by
  have startNonneg := rising.steps_le (Nat.zero_le start)
  have startLe := rising.steps_le late
  have kLe := rising.steps_le early
  have split : ((k + 2 : Nat) : Int) * step = k * step + 2 * step := by
    push_cast
    exact Int.add_mul ..
  rw [split] at kLe
  have positive := rising.step_pos
  rw [rising.wrap_eq (by omega) (by omega)] at first holds
  obtain ⟨_, initMem, limitMem, distanceMem, reaches⟩ := rising
  rw [mul_sub_steps]
  have goal : relation ≠ .ge ∧ relation ≠ .gt ∧ relation ≠ .eq ∧ limit < init ∧
      init + start * step < low + size ∧ low + size ≤ init + (tested * step - 2 * step) := by
    split at first <;> split at holds <;> rcases reaches with reaches | reaches <;>
      cases relation <;> simp only [Relation.Holds, ne_eq, reduceCtorEq, not_true_eq_false,
        not_false_eq_true, true_and, false_and] at * <;> omega
  refine ⟨?_, goal.2.2.2⟩
  unfold Relation.IsUpper
  cases relation <;> simp_all

/-- The other way round, the relation fails first, and holds two steps before the one that does
not pass the limit and one step before it. -/
theorem holds_of_passes (reach : (tested : Int) * step ≤ distance) (upper : relation.IsUpper)
    (around : limit < init) (inside : init + start * step < low + size)
    (passed : low + size ≤ init + (tested - 2 : Int) * step) :
    ¬relation.Holds (wrap low size (init + start * step)) limit ∧
      relation.Holds (wrap low size (init + (tested - 2 : Int) * step)) limit ∧
      relation.Holds (wrap low size (init + (tested - 1 : Int) * step)) limit := by
  have startNonneg := rising.steps_le (Nat.zero_le start)
  have positive := rising.step_pos
  have initMem := rising.init_mem
  have distanceMem := rising.distance_mem
  have reaches := rising.reaches
  rw [mul_sub_steps] at passed
  rw [mul_sub_steps, mul_sub_steps, wrap_of_mem (by omega) inside, rising.wrap_eq (by omega)
    (by omega), rising.wrap_eq (by omega) (by omega), if_neg (by omega), if_neg (by omega)]
  rcases upper with rfl | rfl <;> simp only [Relation.Holds] <;> omega

end Rising

end Circle
