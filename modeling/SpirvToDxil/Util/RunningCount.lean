import Mathlib.Data.List.Basic

/-!
# Running counts

How many elements with a property stand before a position of a list. The count steps up right
behind each of them, so it names them apart, and below it there is always a last one.
-/

namespace RunningCount

variable {α : Type*} (counted : α → Bool) (list : List α)

def before (position : Nat) : Nat := (list.take position).countP counted

@[simp]
theorem before_zero : before counted list 0 = 0 := rfl

theorem before_succ {position : Nat} (bound : position < list.length) :
    before counted list (position + 1) =
      before counted list position + if counted list[position] then 1 else 0 := by
  rw [before, List.take_succ_eq_append_getElem bound, List.countP_append]
  simp [before]

theorem before_cons (first : α) (position : Nat) :
    before counted (first :: list) (position + 1) =
      (if counted first then 1 else 0) + before counted list position := by
  rw [before, List.take_succ_cons, List.countP_cons, Nat.add_comm]
  rfl

variable {list}

theorem before_le_position (position : Nat) : before counted list position ≤ position :=
  Nat.le_trans List.countP_le_length (List.length_take_le position list)

variable {counted}

theorem before_mono {first second : Nat} (order : first ≤ second) :
    before counted list first ≤ before counted list second :=
  (List.take_sublist_take_left order).countP_le

theorem before_lt {first second : Nat} (order : first < second) (bound : first < list.length)
    (isCounted : counted list[first]) :
    before counted list first < before counted list second := by
  calc before counted list first < before counted list (first + 1) := by
        rw [before_succ counted list bound, if_pos isCounted]
        omega
    _ ≤ before counted list second := before_mono order

/-- The last counted element before a position that has one. -/
theorem exists_last {position : Nat} (bound : position ≤ list.length)
    (positive : 0 < before counted list position) :
    ∃ (last : Nat) (inside : last < list.length), last < position ∧ counted list[last] ∧
      before counted list last + 1 = before counted list position := by
  induction position with
  | zero => exact absurd positive (Nat.lt_irrefl 0)
  | succ position inductionHypothesis =>
      rw [before_succ counted list bound] at positive ⊢
      by_cases isCounted : counted list[position]
      · rw [if_pos isCounted]
        exact ⟨position, bound, Nat.lt_succ_self position, isCounted, rfl⟩
      · rw [if_neg isCounted] at positive ⊢
        obtain ⟨last, inside, earlier, isCounted, same⟩ :=
          inductionHypothesis (Nat.le_of_succ_le bound) positive
        exact ⟨last, inside, Nat.lt_succ_of_lt earlier, isCounted, same⟩

end RunningCount
