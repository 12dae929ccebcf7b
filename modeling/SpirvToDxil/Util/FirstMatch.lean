import Mathlib.Data.List.Basic

/-!
# Folding a list into its first matches

A walk over a list that searches the whole list, from the front, for the first
item with the key of the current one, and may fold that item into the current
one and drop it. Items of different keys do not meet: the items of one key go
through a queue of their own.
-/

namespace FirstMatch

universe u v
variable {Item : Type u} {Key : Type v} [DecidableEq Key]

/-- `combine item other` is the item that replaces both, if they combine. -/
def walk (key : Item → Option Key) (combine : Item → Item → Option Item) :
    List Item → List Item → List Item
  | done, [] => done
  | done, item :: rest =>
    match key item with
    | none => walk key combine (done ++ [item]) rest
    | some k =>
      match (done ++ item :: rest).find? (fun other => key other = some k) with
      | none => walk key combine (done ++ [item]) rest
      | some other =>
        match combine item other with
        | none => walk key combine (done ++ [item]) rest
        | some merged =>
          walk key combine (done.eraseP (fun other => key other = some k) ++ [merged]) rest

/-- The queue of the items of one key: the next item meets the oldest one. -/
def push (combine : Item → Item → Option Item) : List Item → Item → List Item
  | [], item => [item]
  | other :: queue, item =>
    match combine item other with
    | none => other :: queue ++ [item]
    | some merged => queue ++ [merged]

def group (key : Item → Option Key) (k : Key) (items : List Item) : List Item :=
  items.filter (fun item => key item = some k)

@[simp] theorem mem_group {key : Item → Option Key} {k : Key} {items : List Item} {item : Item} :
    item ∈ group key k items ↔ item ∈ items ∧ key item = some k := by
  simp [group]

@[simp] theorem group_append (key : Item → Option Key) (k : Key) (front back : List Item) :
    group key k (front ++ back) = group key k front ++ group key k back :=
  List.filter_append ..

theorem group_cons_same {key : Item → Option Key} {k : Key} {item : Item} (same : key item = some k)
    (items : List Item) : group key k (item :: items) = item :: group key k items :=
  List.filter_cons_of_pos (by simp [same])

theorem group_cons_other {key : Item → Option Key} {k : Key} {item : Item}
    (different : key item ≠ some k) (items : List Item) :
    group key k (item :: items) = group key k items :=
  List.filter_cons_of_neg (by simp [different])

theorem group_eraseP_same (key : Item → Option Key) (k : Key) (items : List Item) :
    group key k (items.eraseP (fun other => key other = some k)) = (group key k items).tail := by
  induction items with
  | nil => rfl
  | cons item items inductionHypothesis =>
    by_cases same : key item = some k
    · rw [List.eraseP_cons_of_pos (by simp [same]), group_cons_same same, List.tail_cons]
    · rw [List.eraseP_cons_of_neg (by simp [same]), group_cons_other same, group_cons_other same,
        inductionHypothesis]

theorem group_eraseP_other (key : Item → Option Key) {k l : Key} (different : l ≠ k)
    (items : List Item) :
    group key k (items.eraseP (fun other => key other = some l)) = group key k items := by
  induction items with
  | nil => rfl
  | cons item items inductionHypothesis =>
    by_cases erased : key item = some l
    · rw [List.eraseP_cons_of_pos (by simp [erased]), group_cons_other]
      intro same
      exact different (Option.some.inj (erased.symm.trans same))
    · rw [List.eraseP_cons_of_neg (by simp [erased])]
      by_cases same : key item = some k
      · rw [group_cons_same same, group_cons_same same, inductionHypothesis]
      · rw [group_cons_other same, group_cons_other same, inductionHypothesis]

theorem filter_eraseP (key : Item → Option Key) (k : Key) (items : List Item) :
    (items.eraseP (fun other => key other = some k)).filter (fun item => (key item).isNone) =
      items.filter (fun item => (key item).isNone) := by
  induction items with
  | nil => rfl
  | cons item items inductionHypothesis =>
    by_cases erased : key item = some k
    · rw [List.eraseP_cons_of_pos (by simp [erased]), List.filter_cons_of_neg (by simp [erased])]
    · rw [List.eraseP_cons_of_neg (by simp [erased]), List.filter_cons, List.filter_cons,
        inductionHypothesis]

theorem find?_eq_head?_group (key : Item → Option Key) (k : Key) (items : List Item) :
    items.find? (fun other => key other = some k) = (group key k items).head? :=
  List.head?_filter.symm

/-- No two items share a key exactly when no group has two items. -/
theorem pairwise_iff_length_group (key : Item → Option Key) (items : List Item) :
    items.Pairwise (fun item other => ∀ k, key item = some k → key other ≠ some k) ↔
      ∀ k, (group key k items).length ≤ 1 := by
  induction items with
  | nil => simp [group]
  | cons item items inductionHypothesis =>
    rw [List.pairwise_cons, inductionHypothesis]
    constructor
    · intro distinct k
      by_cases same : key item = some k
      · have alone : group key k items = [] := by
          apply List.eq_nil_iff_forall_not_mem.mpr
          intro other member
          rcases mem_group.mp member with ⟨listed, otherKey⟩
          exact distinct.1 other listed k same otherKey
        rw [group_cons_same same, alone]
        exact Nat.le_refl 1
      · rw [group_cons_other same]
        exact distinct.2 k
    · intro short
      constructor
      · intro other listed k same otherKey
        have two := short k
        rw [group_cons_same same, List.length_cons] at two
        have member : other ∈ group key k items := mem_group.mpr ⟨listed, otherKey⟩
        have positive := List.length_pos_of_mem member
        omega
      · intro k
        by_cases same : key item = some k
        · have one := short k
          rw [group_cons_same same, List.length_cons] at one
          omega
        · simpa only [group_cons_other same] using short k

section Walk

variable {key : Item → Option Key} {combine : Item → Item → Option Item}

/-- The laws a combination has to satisfy for the walk to split into groups. -/
structure Lawful (key : Item → Option Key) (combine : Item → Item → Option Item) : Prop where
  self : ∀ item, combine item item = none
  key_eq : ∀ {item other merged}, combine item other = some merged → key merged = key item

/-- Each group of the result is the queue that the group of the input goes through. -/
theorem group_walk (lawful : Lawful key combine) (k : Key) (done rest : List Item) :
    group key k (walk key combine done rest) =
      (group key k rest).foldl (push combine) (group key k done) := by
  induction rest generalizing done with
  | nil => rfl
  | cons item rest inductionHypothesis =>
    by_cases same : key item = some k
    · have firstMatch : (done ++ item :: rest).find? (fun other => key other = some k) =
          (group key k done ++ item :: group key k rest).head? := by
        rw [find?_eq_head?_group, group_append, group_cons_same same]
      rw [group_cons_same same, List.foldl_cons]
      simp only [walk, same, firstMatch]
      cases older : group key k done with
      | nil =>
        -- The first match is the item itself.
        simp only [List.nil_append, List.head?_cons, lawful.self, inductionHypothesis,
          group_append, older, push, group_cons_same same]
        rfl
      | cons other queue =>
        simp only [List.cons_append, List.head?_cons]
        cases combination : combine item other with
        | none =>
          simp only [inductionHypothesis, group_append, older, push, combination,
            group_cons_same same]
          rfl
        | some merged =>
          have mergedKey : key merged = some k := (lawful.key_eq combination).trans same
          simp only [inductionHypothesis, group_append, group_eraseP_same, older, push,
            combination, group_cons_same mergedKey, List.tail_cons]
          rfl
    · rw [group_cons_other same]
      have kept : group key k [item] = [] := group_cons_other same []
      cases itemKey : key item with
      | none => simp only [walk, itemKey, inductionHypothesis, group_append, kept, List.append_nil]
      | some l =>
        have different : l ≠ k := fun equal => same (by rw [itemKey, equal])
        simp only [walk, itemKey]
        split
        · simp only [inductionHypothesis, group_append, kept, List.append_nil]
        · split
          · simp only [inductionHypothesis, group_append, kept, List.append_nil]
          · next combination =>
            have mergedKey := (lawful.key_eq combination).trans itemKey
            have dropped : group key k [_] = [] := group_cons_other
              (fun sameMerged => different (Option.some.inj (mergedKey.symm.trans sameMerged))) []
            simp only [inductionHypothesis, group_append, group_eraseP_other key different,
              dropped, List.append_nil]

/-- Items without a key stay where they are, relative to each other. -/
theorem filter_walk (lawful : Lawful key combine) (done rest : List Item) :
    (walk key combine done rest).filter (fun item => (key item).isNone) =
      (done ++ rest).filter (fun item => (key item).isNone) := by
  induction rest generalizing done with
  | nil => rw [walk, List.append_nil]
  | cons item rest inductionHypothesis =>
    have skipped : (walk key combine (done ++ [item]) rest).filter (fun item => (key item).isNone) =
        (done ++ item :: rest).filter (fun item => (key item).isNone) := by
      rw [inductionHypothesis, List.append_assoc, List.singleton_append]
    cases itemKey : key item with
    | none => simpa only [walk, itemKey] using skipped
    | some k =>
      simp only [walk, itemKey]
      split
      · exact skipped
      · split
        · exact skipped
        · next combination =>
          have mergedKey := (lawful.key_eq combination).trans itemKey
          simp [inductionHypothesis, filter_eraseP, mergedKey, itemKey]

end Walk

section Fold

variable (combine : Item → Item → Option Item)

/-- Folding a whole group into one item, oldest first. -/
def fold (oldest : Item) (items : List Item) : Option Item :=
  items.foldlM (fun other item => combine item other) oldest

theorem fold_cons (oldest item : Item) (items : List Item) :
    fold combine oldest (item :: items) =
      (combine item oldest).bind (fun merged => fold combine merged items) := rfl

theorem fold_concat (oldest item : Item) (items : List Item) :
    fold combine oldest (items ++ [item]) = (fold combine oldest items).bind (combine item) := by
  rw [fold, List.foldlM_append, ← fold]
  exact congrArg _ (funext fun merged => Option.bind_fun_some (combine item merged))

theorem two_le_length_push {queue : List Item} (item : Item) (two : 2 ≤ queue.length) :
    2 ≤ (push combine queue item).length := by
  cases queue with
  | nil => cases two
  | cons other queue =>
    rw [push]
    split
    · exact Nat.le_trans two (by simp)
    · simpa using two

theorem two_le_length_foldl_push {queue : List Item} (items : List Item)
    (two : 2 ≤ queue.length) : 2 ≤ (items.foldl (push combine) queue).length := by
  induction items generalizing queue with
  | nil => exact two
  | cons item items inductionHypothesis =>
    exact inductionHypothesis (two_le_length_push combine item two)

theorem foldl_push_of_fold {oldest merged : Item} {items : List Item}
    (folded : fold combine oldest items = some merged) :
    items.foldl (push combine) [oldest] = [merged] := by
  induction items generalizing oldest with
  | nil => rw [Option.some.inj folded, List.foldl_nil]
  | cons item items inductionHypothesis =>
    obtain ⟨newer, combination, foldedRest⟩ := Option.bind_eq_some_iff.mp folded
    have pushed : push combine [oldest] item = [newer] := by
      simp only [push, show combine item oldest = some newer from combination, List.nil_append]
    rw [List.foldl_cons, pushed]
    exact inductionHypothesis foldedRest

/-- One refusal leaves two items in the queue for good. -/
theorem two_le_length_of_fold_none {oldest : Item} {items : List Item}
    (refused : fold combine oldest items = none) :
    2 ≤ (items.foldl (push combine) [oldest]).length := by
  induction items generalizing oldest with
  | nil => cases refused
  | cons item items inductionHypothesis =>
    rw [List.foldl_cons, push]
    cases combination : combine item oldest with
    | none => exact two_le_length_foldl_push combine items (Nat.le_refl 2)
    | some merged =>
      rw [fold_cons, combination] at refused
      exact inductionHypothesis refused

end Fold

end FirstMatch
