import Mathlib.Logic.Function.Basic
import Mathlib.Data.List.Nodup

/-!
# Assignments one after another
-/

theorem List.find?_key_eq_some {Item Key : Type*} [DecidableEq Key] {key : Item → Key}
    {items : List Item} (nodup : (items.map key).Nodup) {item : Item} (member : item ∈ items) :
    items.find? (fun other => key other = key item) = some item := by
  cases found : items.find? (fun other => key other = key item) with
  | none =>
      have missing := List.find?_eq_none.mp found item member
      simp at missing
  | some other =>
      have same : key other = key item := by simpa using List.find?_some found
      rw [List.inj_on_of_nodup_map nodup (List.mem_of_find?_eq_some found) member same]

namespace Assign

variable {Key Value : Type*} [DecidableEq Key]

def assign (env : Key → Value) (pairs : List (Key × Value)) : Key → Value :=
  pairs.foldl (fun env pair => Function.update env pair.1 pair.2) env

theorem assign_cons (env : Key → Value) (pair : Key × Value) (pairs : List (Key × Value)) :
    assign env (pair :: pairs) = assign (Function.update env pair.1 pair.2) pairs := rfl

theorem assign_of_not_mem {env : Key → Value} {pairs : List (Key × Value)} {key : Key}
    (fresh : key ∉ pairs.map Prod.fst) : assign env pairs key = env key := by
  induction pairs generalizing env with
  | nil => rfl
  | cons pair pairs inductionHypothesis =>
      rw [List.map_cons, List.mem_cons, not_or] at fresh
      rw [assign_cons, inductionHypothesis fresh.2, Function.update_of_ne fresh.1]

theorem assign_of_mem {env : Key → Value} {pairs : List (Key × Value)} {key : Key} {value : Value}
    (assigned : (key, value) ∈ pairs)
    (unique : ∀ pair ∈ pairs, pair.1 = key → pair.2 = value) : assign env pairs key = value := by
  induction pairs generalizing env with
  | nil => cases assigned
  | cons pair pairs inductionHypothesis =>
      have rest := fun other member => unique other (List.mem_cons_of_mem pair member)
      by_cases later : key ∈ pairs.map Prod.fst
      · obtain ⟨other, member, same⟩ := List.mem_map.mp later
        apply inductionHypothesis _ rest
        have found := rest other member same
        subst same
        subst found
        exact member
      · have head : (key, value) = pair := by
          rcases List.mem_cons.mp assigned with head | member
          · exact head
          · exact absurd (List.mem_map_of_mem member) later
        rw [assign_cons, assign_of_not_mem later, ← head, Function.update_self]

end Assign
