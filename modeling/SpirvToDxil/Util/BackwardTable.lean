import Mathlib.Data.List.Forall2

/-!
# Tables whose entries refer backwards

A table is read from the front, and an entry may use what the entries before it
mean. What an entry means does not depend on what follows it.
-/

namespace BackwardTable

universe u v w
variable {Entry : Type u} {Meaning : Type v}

def meaningsFrom (read : List Meaning → Entry → Meaning) :
    List Meaning → List Entry → List Meaning
  | earlier, [] => earlier
  | earlier, entry :: rest => meaningsFrom read (earlier ++ [read earlier entry]) rest

def meanings (read : List Meaning → Entry → Meaning) (table : List Entry) : List Meaning :=
  meaningsFrom read [] table

variable {read : List Meaning → Entry → Meaning} {earlier : List Meaning} {table : List Entry}

theorem length_meaningsFrom :
    (meaningsFrom read earlier table).length = earlier.length + table.length := by
  induction table generalizing earlier with
  | nil => rfl
  | cons entry rest inductionHypothesis =>
    rw [meaningsFrom, inductionHypothesis, List.length_append, List.length_cons]
    simp only [List.length_cons, List.length_nil]
    omega

@[simp]
theorem length_meanings : (meanings read table).length = table.length := by
  rw [meanings, length_meaningsFrom]
  exact Nat.zero_add _

theorem prefix_meaningsFrom : earlier <+: meaningsFrom read earlier table := by
  induction table generalizing earlier with
  | nil => exact List.prefix_rfl
  | cons entry rest inductionHypothesis =>
    exact (List.prefix_append ..).trans inductionHypothesis

theorem getElem?_meaningsFrom {i : Nat} {entry : Entry} (isEntry : table[i]? = some entry) :
    (meaningsFrom read earlier table)[earlier.length + i]? =
      some (read ((meaningsFrom read earlier table).take (earlier.length + i)) entry) := by
  induction table generalizing earlier i with
  | nil => cases isEntry
  | cons first rest inductionHypothesis =>
    rw [meaningsFrom]
    cases i with
    | zero =>
      cases isEntry
      have isPrefix : earlier ++ [read earlier entry] <+:
        meaningsFrom read (earlier ++ [read earlier entry]) rest := prefix_meaningsFrom
      obtain ⟨tail, appended⟩ := isPrefix
      rw [← appended, Nat.add_zero, List.append_assoc, List.take_left]
      simp
    | succ i =>
      have later := @inductionHypothesis (earlier ++ [read earlier first]) i isEntry
      rw [List.length_append, List.length_singleton, Nat.add_assoc, Nat.add_comm 1] at later
      exact later

/-- An entry is read with the meanings in front of its own. -/
theorem getElem?_meanings {i : Nat} {entry : Entry} (isEntry : table[i]? = some entry) :
    (meanings read table)[i]? = some (read ((meanings read table).take i) entry) := by
  have found := @getElem?_meaningsFrom _ _ read [] _ _ _ isEntry
  rwa [List.length_nil, Nat.zero_add] at found

/-- Tables that are read alike, entry by entry, mean the same. -/
theorem meaningsFrom_congr {Entry' : Type w} {read' : List Meaning → Entry' → Meaning}
    {table' : List Entry'}
    (alike : List.Forall₂ (fun entry entry' => ∀ earlier, read earlier entry = read' earlier entry')
      table table') :
    meaningsFrom read earlier table = meaningsFrom read' earlier table' := by
  induction alike generalizing earlier with
  | nil => rfl
  | cons same _ inductionHypothesis =>
    rw [meaningsFrom, meaningsFrom, same, inductionHypothesis]

theorem meanings_congr {Entry' : Type w} {read' : List Meaning → Entry' → Meaning}
    {table' : List Entry'}
    (alike : List.Forall₂ (fun entry entry' => ∀ earlier, read earlier entry = read' earlier entry')
      table table') : meanings read table = meanings read' table' :=
  meaningsFrom_congr alike

end BackwardTable
