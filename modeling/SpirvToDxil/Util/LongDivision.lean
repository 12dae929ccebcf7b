import Mathlib.Algebra.Ring.Nat
import Mathlib.Tactic.Ring

/-!
# Long division

Binary long division takes the shifted divisor away wherever it fits, from the highest place
down. A state is the quotient found so far and what is left of the numerator.
-/

namespace LongDivision

def step (d : Nat) (state : Nat × Nat) (place : Nat) : Nat × Nat :=
  if d * 2 ^ place ≤ state.2 then (state.1 + 2 ^ place, state.2 - d * 2 ^ place) else state

/-- What holds once the places from `place` on are done. -/
structure Divides (n d place : Nat) (state : Nat × Nat) : Prop where
  product : n = state.1 * d + state.2
  below : state.2 < d * 2 ^ place
  multiple : 2 ^ place ∣ state.1

variable {n d place : Nat} {state : Nat × Nat}

theorem divides_start (below : n < d * 2 ^ place) : Divides n d place (0, n) := by
  constructor
  · simp
  · exact below
  · exact dvd_zero _

theorem Divides.step (divides : Divides n d (place + 1) state) :
    Divides n d place (step d state place) := by
  have double : d * 2 ^ (place + 1) = d * 2 ^ place + d * 2 ^ place := by
    rw [pow_succ]
    ring
  have coarser : 2 ^ place ∣ state.1 :=
    Nat.dvd_trans (Nat.pow_dvd_pow 2 (Nat.le_succ place)) divides.multiple
  have below := divides.below
  unfold LongDivision.step
  split
  next fits =>
    constructor
    · have product := divides.product
      rw [Nat.add_mul, Nat.mul_comm (2 ^ place) d]
      dsimp only
      omega
    · dsimp only
      omega
    · exact Nat.dvd_add coarser (Nat.dvd_refl _)
  next short =>
    constructor
    · exact divides.product
    · exact Nat.lt_of_not_le short
    · exact coarser

/-- A loop whose steps do the division's steps divides. -/
theorem divides_foldl {State : Type} {r : State → Nat × Nat} {next : State → Nat → State}
    (simulates : ∀ current i, i < place → Divides n d (i + 1) (r current) →
      r (next current i) = step d (r current) i)
    {start : State} (divides : Divides n d place (r start)) :
    Divides n d 0 (r ((List.range place).reverse.foldl next start)) := by
  induction place generalizing start with
  | zero => exact divides
  | succ place inductionHypothesis =>
      rw [List.range_succ, List.reverse_append, List.reverse_singleton, List.singleton_append,
        List.foldl_cons]
      apply inductionHypothesis
      · intro current i below
        exact simulates current i (Nat.lt_succ_of_lt below)
      · rw [simulates start place (Nat.lt_succ_self place) divides]
        exact divides.step

theorem Divides.remainder_lt (divides : Divides n d 0 state) : state.2 < d := by
  simpa using divides.below

/-- The quotient has no bit at the place or below. -/
theorem Divides.or_place (divides : Divides n d (place + 1) state) :
    state.1 ||| 2 ^ place = state.1 + 2 ^ place := by
  obtain ⟨factor, multiple⟩ := divides.multiple
  rw [multiple]
  apply Eq.symm
  apply Nat.two_pow_add_eq_or_of_lt
  exact Nat.pow_lt_pow_of_lt (by decide) (Nat.lt_succ_self place)

end LongDivision
