import Mathlib.Data.Fintype.EquivFin
import Mathlib.Data.Nat.ModEq

/-!
# Probing

A table of some size is searched from an address on, in steps of one length around the table, until
the search comes back to where it began. If the length and the size are coprime, the search has then
been at every address.
-/

namespace Probing

universe u v

variable {size step start : Nat}

def probe (size step start n : Nat) : Nat := (start + n * step) % size

theorem probe_zero (less : start < size) : probe size step start 0 = start := by
  rw [probe, Nat.zero_mul, Nat.add_zero, Nat.mod_eq_of_lt less]

theorem probe_lt (less : start < size) (n : Nat) : probe size step start n < size :=
  Nat.mod_lt _ (Nat.zero_lt_of_lt less)

/-- One step without a division. -/
theorem probe_succ (less : start < size) (short : step < size) (n : Nat) :
    probe size step start (n + 1) =
      if probe size step start n + step ≥ size then probe size step start n + step - size
      else probe size step start n + step := by
  have inside : probe size step start n < size := probe_lt less n
  have sum : start + (n + 1) * step = start + n * step + step := by
    rw [Nat.succ_mul, Nat.add_assoc]
  unfold probe at inside ⊢
  rw [sum, Nat.add_mod, Nat.mod_eq_of_lt short]
  split
  next beyond => rw [Nat.mod_eq_sub_mod beyond, Nat.mod_eq_of_lt (by omega)]
  next within => rw [Nat.mod_eq_of_lt (Nat.lt_of_not_le within)]

theorem probe_injective (coprime : size.Coprime step) {n m : Nat} (nLess : n < size)
    (mLess : m < size) (same : probe size step start n = probe size step start m) : n = m := by
  have congruent : n * step ≡ m * step [MOD size] := Nat.ModEq.add_left_cancel' start same
  exact Nat.ModEq.eq_of_lt_of_lt (congruent.cancel_right_of_coprime coprime) nLess mLess

theorem exists_probe (coprime : size.Coprime step) {address : Nat} (inside : address < size) :
    ∃ n < size, probe size step start n = address := by
  let around : Fin size → Fin size := fun n =>
    ⟨probe size step start n, Nat.mod_lt _ (Nat.zero_lt_of_lt inside)⟩
  have injective : Function.Injective around := fun n m same =>
    Fin.ext (probe_injective coprime n.2 m.2 (congrArg Fin.val same))
  obtain ⟨n, reached⟩ := Finite.injective_iff_surjective.mp injective ⟨address, inside⟩
  exact ⟨n, n.2, congrArg Fin.val reached⟩

/-- The search is back at the start after as many steps as there are addresses, and not before. -/
theorem probe_eq_start_iff (coprime : size.Coprime step) (less : start < size) {n : Nat}
    (most : n < size) : probe size step start (n + 1) = start ↔ n + 1 = size := by
  constructor
  · intro back
    by_contra more
    have same : probe size step start (n + 1) = probe size step start 0 := by
      rw [back, probe_zero less]
    have zero : n + 1 = 0 :=
      probe_injective coprime (by omega) (Nat.zero_lt_of_lt less) same
    omega
  · intro whole
    rw [whole, probe, Nat.add_mul_mod_self_left, Nat.mod_eq_of_lt less]

section Search

variable {State : Type u} {Result : Type v}

/-- Visits one address after the other, at most `fuel` of them, until a visit has a result or the
search is back at the start. -/
def search (next : Nat → Nat) (start : Nat) (visit : Nat → State → Except Result State) :
    Nat → Nat → State → Except Result State
  | 0, _, state => .ok state
  | fuel + 1, address, state =>
    match visit address state with
    | .error result => .error result
    | .ok state =>
      if next address = start then .ok state else search next start visit fuel (next address) state

/-- Something with a property was found, or a state with another property is left. -/
def Outcome (Found : Result → Prop) (Left : State → Prop) : Except Result State → Prop
  | .error result => Found result
  | .ok state => Left state

/-- What one visit makes of an invariant, the whole search makes of it. -/
theorem search_spec (coprime : size.Coprime step) (less : start < size) {next : Nat → Nat}
    (steps : ∀ n, next (probe size step start n) = probe size step start (n + 1))
    (visit : Nat → State → Except Result State) (Invariant : Nat → State → Prop)
    (Found : Result → Prop) {initial : State} (begins : Invariant 0 initial)
    (visits : ∀ n < size, ∀ state, Invariant n state →
      Outcome Found (Invariant (n + 1)) (visit (probe size step start n) state)) :
    Outcome Found (Invariant size) (search next start visit size start initial) := by
  have later (fuel : Nat) : ∀ (n : Nat) (state : State), n + fuel = size → 0 < fuel →
      Invariant n state →
        Outcome Found (Invariant size)
          (search next start visit fuel (probe size step start n) state) := by
    induction fuel with
    | zero => exact fun _ _ _ absurd => nomatch absurd
    | succ fuel inductionHypothesis =>
        intro n state whole _ holds
        have visited := visits n (by omega) state holds
        rw [search]
        cases result : visit (probe size step start n) state with
        | error found =>
            rw [result] at visited
            exact visited
        | ok after =>
            rw [result] at visited
            simp only [steps, probe_eq_start_iff coprime less (show n < size by omega)]
            by_cases back : n + 1 = size
            · simp only [if_pos back]
              rw [← back]
              exact visited
            · simp only [if_neg back]
              exact inductionHypothesis (n + 1) after (by omega) (by omega) visited
  have whole := later size 0 initial (Nat.zero_add size) (Nat.zero_lt_of_lt less) begins
  rw [probe_zero less] at whole
  exact whole

end Search

section Count

variable {Entry : Type u} {table : Nat → Entry} (holds : Entry → Bool)

def count (table : Nat → Entry) (size : Nat) : Nat :=
  (List.range size).countP fun address => holds (table address)

theorem count_succ (table : Nat → Entry) (size : Nat) :
    count holds table (size + 1) =
      count holds table size + if holds (table size) then 1 else 0 := by
  rw [count, List.range_succ, List.countP_append, List.countP_singleton, count]

theorem count_update_of_le {entry : Entry} {address : Nat} (outside : size ≤ address) :
    count holds (Function.update table address entry) size = count holds table size := by
  apply List.countP_congr
  intro other inside
  rw [Function.update_of_ne (Nat.ne_of_lt (Nat.lt_of_lt_of_le (List.mem_range.mp inside) outside))]

theorem count_update (table : Nat → Entry) (entry : Entry) {address : Nat}
    (inside : address < size) :
    count holds (Function.update table address entry) size +
    (if holds (table address) then 1 else 0) =
      count holds table size + if holds entry then 1 else 0 := by
  induction size with
  | zero => exact absurd inside (Nat.not_lt_zero address)
  | succ size inductionHypothesis =>
      rw [count_succ, count_succ]
      rcases Nat.lt_succ_iff_lt_or_eq.mp inside with less | rfl
      · rw [Function.update_of_ne (Nat.ne_of_gt less)]
        have earlier := inductionHypothesis less
        omega
      · rw [count_update_of_le holds (Nat.le_refl address), Function.update_self]
        omega

theorem exists_of_count_lt (less : count holds table size < size) :
    ∃ address < size, holds (table address) = false := by
  by_contra all
  have every : ∀ address ∈ List.range size, holds (table address) = true := by
    intro address inside
    by_contra fails
    exact all ⟨address, List.mem_range.mp inside, Bool.eq_false_iff.mpr fails⟩
  rw [count, List.countP_eq_length.mpr every, List.length_range] at less
  exact Nat.lt_irrefl size less

end Count

end Probing
