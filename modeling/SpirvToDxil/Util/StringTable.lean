import Mathlib.Data.List.Basic

/-!
# Tables of terminated strings

Strings lie one behind the other with a terminator after each; some strings are shared, so that
a second insertion finds the first one. What a table has at an offset stays there as it grows.
-/

namespace StringTable

variable {α : Type} {terminator : α}

def table (terminator : α) (strings : List (List α)) : List α :=
  strings.flatMap (· ++ [terminator])

/-- One more string, unless it is shared and in the table already. -/
def insert [DecidableEq α] (shared : List α → Prop) [DecidablePred shared]
    (strings : List (List α)) (string : List α) : List (List α) :=
  if shared string ∧ string ∈ strings then strings else strings ++ [string]

/-- The string and its terminator are in the table from `offset` on. -/
def ReadsAt (terminator : α) (string bytes : List α) (offset : Nat) : Prop :=
  string ++ [terminator] <+: bytes.drop offset

instance [DecidableEq α] (terminator : α) (string bytes : List α) (offset : Nat) :
    Decidable (ReadsAt terminator string bytes offset) :=
  inferInstanceAs (Decidable (_ <+: _))

theorem table_append_singleton (strings : List (List α)) (string : List α) :
    table terminator (strings ++ [string]) =
    table terminator strings ++ (string ++ [terminator]) := by
  simp [table]

theorem length_table_le_insert [DecidableEq α] (shared : List α → Prop)
    [DecidablePred shared] (strings : List (List α)) (string : List α) :
    (table terminator strings).length ≤
    (table terminator (insert shared strings string)).length := by
  rw [insert]
  split
  · exact Nat.le_refl _
  · rw [table_append_singleton, List.length_append]
    exact Nat.le_add_right _ _

theorem length_table_le_foldl [DecidableEq α] (shared : List α → Prop)
    [DecidablePred shared] (strings : List (List α)) (more : List (List α)) :
    (table terminator strings).length ≤
      (table terminator (more.foldl (insert shared) strings)).length := by
  induction more generalizing strings with
  | nil => exact Nat.le_refl _
  | cons string more inductionHypothesis =>
      exact Nat.le_trans (length_table_le_insert shared strings string)
        (inductionHypothesis (insert shared strings string))

namespace ReadsAt

variable {string bytes : List α} {offset : Nat}

theorem atEnd (bytes string : List α) :
    ReadsAt terminator string (bytes ++ (string ++ [terminator])) bytes.length := by
  unfold ReadsAt
  simp

theorem append (reads : ReadsAt terminator string bytes offset) (rest : List α) :
    ReadsAt terminator string (bytes ++ rest) offset := by
  apply reads.trans
  rw [List.drop_append]
  exact List.prefix_append _ _

theorem grow {bytes' : List α} (reads : ReadsAt terminator string bytes offset)
    (grown : bytes <+: bytes') : ReadsAt terminator string bytes' offset := by
  obtain ⟨rest, rfl⟩ := grown
  exact reads.append rest

theorem behind (reads : ReadsAt terminator string bytes offset) (front : List α) :
    ReadsAt terminator string (front ++ bytes) (front.length + offset) := by
  rw [ReadsAt, ← List.drop_drop, List.drop_left]
  exact reads

theorem inside (reads : ReadsAt terminator string bytes offset) :
    offset + string.length < bytes.length := by
  have length := reads.length_le
  rw [List.length_append, List.length_drop, List.length_singleton] at length
  omega

end ReadsAt

end StringTable
