import Mathlib.Order.Basic

/-!
# Ranges that tile an interval

Each range starts where the one before it ends. Then they are disjoint, and together they have
the addresses of the interval.
-/

namespace Tiling

structure Range where
  start : Nat
  length : Nat
  deriving DecidableEq, Repr

instance : Membership Nat Range :=
  ⟨fun range address => range.start ≤ address ∧ address < range.start + range.length⟩

theorem mem_iff {range : Range} {address : Nat} :
    address ∈ range ↔ range.start ≤ address ∧ address < range.start + range.length := Iff.rfl

instance (range : Range) (address : Nat) : Decidable (address ∈ range) :=
  inferInstanceAs (Decidable (_ ∧ _))

def Disjoint (first second : Range) : Prop := ∀ address ∈ first, address ∉ second

/-- The ranges lie one behind the other from `start` to `stop`. -/
def Tiles : Nat → List Range → Nat → Prop
  | start, [], stop => start = stop
  | start, range :: ranges, stop =>
    range.start = start ∧ Tiles (start + range.length) ranges stop

variable {start middle stop : Nat} {ranges ranges' : List Range}

theorem Tiles.append (first : Tiles start ranges middle) (second : Tiles middle ranges' stop) :
    Tiles start (ranges ++ ranges') stop := by
  induction ranges generalizing start with
  | nil =>
      cases first
      exact second
  | cons range ranges inductionHypothesis => exact ⟨first.1, inductionHypothesis first.2⟩

theorem Tiles.le (tiles : Tiles start ranges stop) : start ≤ stop := by
  induction ranges generalizing start with
  | nil => exact Nat.le_of_eq tiles
  | cons range ranges inductionHypothesis =>
      exact Nat.le_trans (Nat.le_add_right ..) (inductionHypothesis tiles.2)

/-- The ranges have exactly the addresses of the interval. -/
theorem Tiles.exists_mem_iff (tiles : Tiles start ranges stop) (address : Nat) :
    (∃ range ∈ ranges, address ∈ range) ↔ start ≤ address ∧ address < stop := by
  induction ranges generalizing start with
  | nil =>
      cases tiles
      simp
  | cons range ranges inductionHypothesis =>
      obtain ⟨here, rest⟩ := tiles
      have above := rest.le
      simp only [List.mem_cons, exists_eq_or_imp]
      rw [inductionHypothesis rest, mem_iff, here]
      omega

theorem Tiles.pairwise_disjoint (tiles : Tiles start ranges stop) :
    ranges.Pairwise Disjoint := by
  induction ranges generalizing start with
  | nil => exact List.Pairwise.nil
  | cons range ranges inductionHypothesis =>
      obtain ⟨here, rest⟩ := tiles
      apply List.Pairwise.cons _ (inductionHypothesis rest)
      intro other member address inside also
      have below := (rest.exists_mem_iff address).mp ⟨other, member, also⟩
      rw [mem_iff] at inside
      omega

end Tiling
