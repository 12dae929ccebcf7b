import Mathlib.Algebra.Order.Ring.Nat
import Mathlib.Algebra.BigOperators.Group.List.Basic
import Mathlib.Algebra.Order.BigOperators.Group.List
import Mathlib.Data.List.Sort

/-!
# Where a sort may place an element

A sort by a comparison that lets different elements compare equal may leave these in any order.
The total weight of what it places in front of an element is then at least the weight of what has
to be there and at most the weight of what may be there, and both bounds are reached.
-/

namespace Placement

universe u
variable {α : Type u} (le : α → α → Prop) [DecidableRel le]

/-- What a sort may leave of the items. -/
structure Sorted (items sorted : List α) : Prop where
  perm : sorted.Perm items
  ordered : sorted.Pairwise le

instance [DecidableEq α] (items sorted : List α) : Decidable (Sorted le items sorted) :=
  decidable_of_iff (sorted.Perm items ∧ sorted.Pairwise le)
    ⟨fun sort => ⟨sort.1, sort.2⟩, fun sort => ⟨sort.perm, sort.ordered⟩⟩

def total (weight : α → Nat) (items : List α) : Nat := (items.map weight).sum

/-- The weight of the items that stand in front of the element in every order. -/
def least (weight : α → Nat) (items : List α) (a : α) : Nat :=
  total weight (items.filter (fun b => ¬ le a b))

/-- The weight of the other items that stand in front of the element in some order. -/
def greatest [DecidableEq α] (weight : α → Nat) (items : List α) (a : α) : Nat :=
  total weight ((items.erase a).filter (fun b => le b a))

section Total

variable (weight : α → Nat)

theorem total_append (front back : List α) :
    total weight (front ++ back) = total weight front + total weight back := by
  simp [total]

theorem total_perm {items other : List α} (perm : items.Perm other) :
    total weight items = total weight other :=
  (perm.map weight).sum_eq

theorem total_filter_le (kept : α → Bool) (items : List α) :
    total weight (items.filter kept) ≤ total weight items := by
  induction items with
  | nil => exact Nat.le_refl _
  | cons item items inductionHypothesis =>
      rw [List.filter_cons]
      simp only [total, List.map_cons, List.sum_cons] at inductionHypothesis ⊢
      split
      · simp only [List.map_cons, List.sum_cons]
        omega
      · omega

theorem total_filter_add (kept : α → Bool) (items : List α) :
    total weight (items.filter kept) + total weight (items.filter fun item => !kept item) =
      total weight items := by
  rw [← total_append]
  exact total_perm weight (List.filter_append_perm kept items)

theorem total_map {β : Type u} (f : β → α) (items : List β) :
    total weight (items.map f) = total (weight ∘ f) items := by
  rw [total, List.map_map, total]

theorem total_eq_zero_iff (items : List α) :
    total weight items = 0 ↔ ∀ item ∈ items, weight item = 0 := by
  rw [total, List.sum_eq_zero_iff, List.forall_mem_map]

end Total

/-- The weight of the other items that compare equal to the element. -/
def tied [DecidableEq α] (weight : α → Nat) (items : List α) (a : α) : Nat :=
  total weight ((items.erase a).filter (fun b => le b a ∧ le a b))

theorem greatest_eq [DecidableEq α] (weight : α → Nat) {items : List α} {a : α}
    (whole : ∀ a b, le a b ∨ le b a) (mem : a ∈ items) :
    greatest le weight items a = least le weight items a + tied le weight items a := by
  have refl : le a a := (whole a a).elim id id
  have others : least le weight items a =
      total weight ((items.erase a).filter fun b => ¬ le a b) := by
    rw [least, total_perm weight ((List.perm_cons_erase mem).filter _),
      List.filter_cons_of_neg (by simpa using refl)]
  rw [greatest, others, tied, ← total_filter_add weight (fun b => le a b), List.filter_filter,
    List.filter_filter, Nat.add_comm]
  congr 2
  · apply List.filter_congr
    intro b inside
    have := whole a b
    by_cases behind : le a b
    · simp [behind]
    · simp [behind, this.resolve_left behind]
  · apply List.filter_congr
    intro b inside
    simp [Bool.and_comm]

theorem erase_map_perm {β : Type u} [DecidableEq α] [DecidableEq β] (f : β → α)
    {items : List β} {b : β} (mem : b ∈ items) :
    ((items.map f).erase (f b)).Perm ((items.erase b).map f) := by
  apply List.Perm.cons_inv (a := f b)
  rw [← List.map_cons]
  exact (List.perm_cons_erase (List.mem_map_of_mem mem)).symm.trans
    ((List.perm_cons_erase mem).map f)

section Bounds

variable {le} [DecidableEq α] {weight : α → Nat} {items front back : List α} {a : α}

omit [DecidableRel le] in
theorem Sorted.perm_erase (sort : Sorted le items (front ++ a :: back)) :
    (front ++ back).Perm (items.erase a) := by
  apply (List.cons_perm_iff_perm_erase.mp _).2
  exact List.perm_middle.symm.trans sort.perm

theorem Sorted.le_greatest (sort : Sorted le items (front ++ a :: back)) :
    total weight front ≤ greatest le weight items a := by
  have inFront : front.filter (fun b => le b a) = front := by
    apply List.filter_eq_self.mpr
    intro b member
    apply decide_eq_true
    exact (List.pairwise_append.mp sort.ordered).2.2 b member a List.mem_cons_self
  calc total weight front = total weight (front.filter (fun b => le b a)) := by rw [inFront]
    _ ≤ total weight ((front ++ back).filter (fun b => le b a)) := by
        rw [List.filter_append, total_append]
        exact Nat.le_add_right _ _
    _ = greatest le weight items a := total_perm weight (sort.perm_erase.filter _)

omit [DecidableEq α] in
theorem Sorted.least_le (refl : ∀ a, le a a) (sort : Sorted le items (front ++ a :: back)) :
    least le weight items a ≤ total weight front := by
  have behind : (a :: back).filter (fun b => ¬ le a b) = [] := by
    apply List.filter_eq_nil_iff.mpr
    intro b member
    simp only [decide_eq_true_eq, not_not]
    rcases List.mem_cons.mp member with rfl | member
    · exact refl b
    · exact List.rel_of_pairwise_cons (List.pairwise_append.mp sort.ordered).2.1 member
  calc least le weight items a
      = total weight ((front ++ a :: back).filter (fun b => ¬ le a b)) :=
        total_perm weight (sort.perm.symm.filter _)
    _ = total weight (front.filter (fun b => ¬ le a b)) := by
        rw [List.filter_append, behind, List.append_nil]
    _ ≤ total weight front := total_filter_le weight _ front

end Bounds

section Reached

variable {le} [DecidableEq α] {weight : α → Nat} {items : List α} {a : α}

/-- The items apart from one can be sorted on their own. -/
theorem exists_sorted_erase (whole : ∀ a b, le a b ∨ le b a)
    (trans : ∀ a b c, le a b → le b c → le a c) (items : List α) (a : α) :
    ∃ rest : List α, rest.Perm (items.erase a) ∧ rest.Pairwise le := by
  refine ⟨(items.erase a).mergeSort (fun a b => le a b), List.mergeSort_perm _ _, ?_⟩
  have sorted := @List.pairwise_mergeSort _ (fun a b => decide (le a b))
    (fun a b c first second => decide_eq_true
      (trans a b c (of_decide_eq_true first) (of_decide_eq_true second)))
    (fun a b => by simpa using whole a b) (items.erase a)
  exact sorted.imp of_decide_eq_true

/-- The others that compare at most and at least equal to the element can go to its two sides. -/
theorem exists_sorted_filter (whole : ∀ a b, le a b ∨ le b a)
    (trans : ∀ a b c, le a b → le b c → le a c) (member : a ∈ items) (inFront : α → Bool)
    (before : ∀ b, inFront b = true → le b a) (behind : ∀ b, inFront b = false → le a b) :
    ∃ front back, Sorted le items (front ++ a :: back) ∧
      front.Perm ((items.erase a).filter inFront) := by
  obtain ⟨rest, perm, ordered⟩ := exists_sorted_erase whole trans items a
  refine ⟨rest.filter inFront, rest.filter (fun b => !inFront b), ⟨?_, ?_⟩, perm.filter _⟩
  · apply List.perm_middle.trans
    apply ((List.filter_append_perm inFront rest).cons a).trans
    exact (perm.cons a).trans (List.perm_cons_erase member).symm
  · apply List.pairwise_append.mpr
    refine ⟨ordered.filter _, List.pairwise_cons.mpr ⟨?_, ordered.filter _⟩, ?_⟩
    · intro b inBack
      exact behind b (by simpa using (List.mem_filter.mp inBack).2)
    · intro b inFront' c inBack
      have first := before b (List.mem_filter.mp inFront').2
      rcases List.mem_cons.mp inBack with rfl | inBack
      · exact first
      · exact trans b a c first (behind c (by simpa using (List.mem_filter.mp inBack).2))

theorem exists_sorted_least (whole : ∀ a b, le a b ∨ le b a)
    (trans : ∀ a b c, le a b → le b c → le a c) (member : a ∈ items) :
    ∃ front back, Sorted le items (front ++ a :: back) ∧
      total weight front = least le weight items a := by
  obtain ⟨front, back, sort, perm⟩ := exists_sorted_filter whole trans member
    (fun b => decide ¬ le a b)
    (fun b inFront => (whole b a).resolve_right (of_decide_eq_true inFront))
    (fun b inBack => not_not.mp (of_decide_eq_false inBack))
  refine ⟨front, back, sort, ?_⟩
  have refl : le a a := (whole a a).elim id id
  calc total weight front
      = total weight ((items.erase a).filter (fun b => decide ¬ le a b)) := total_perm weight perm
    _ = total weight ((a :: items.erase a).filter (fun b => decide ¬ le a b)) := by
        simp [refl]
    _ = least le weight items a :=
        total_perm weight ((List.perm_cons_erase member).symm.filter _)

theorem exists_sorted_greatest (whole : ∀ a b, le a b ∨ le b a)
    (trans : ∀ a b c, le a b → le b c → le a c) (member : a ∈ items) :
    ∃ front back, Sorted le items (front ++ a :: back) ∧
      total weight front = greatest le weight items a := by
  obtain ⟨front, back, sort, perm⟩ := exists_sorted_filter whole trans member
    (fun b => decide (le b a)) (fun b inFront => of_decide_eq_true inFront)
    (fun b inBack => (whole a b).resolve_right (of_decide_eq_false inBack))
  exact ⟨front, back, sort, total_perm weight perm⟩

end Reached

end Placement
