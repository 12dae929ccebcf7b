import Mathlib.Data.List.Basic

/-!
# Looking for a run of values in a list

A search that has matched the first values of a run may go on behind them if the first value
of the run does not come back inside it. A list of values that is shared by runs grows at its
end only, so a place once found stays good.
-/

namespace RunSearch

universe u
variable {α : Type u}

/-- The run lies in the entries from `start` on. -/
def OccursAt (run entries : List α) (start : Nat) : Prop :=
  ∀ k < run.length, entries[start + k]? = run[k]?

instance [DecidableEq α] (run entries : List α) : DecidablePred (OccursAt run entries) :=
  fun start => inferInstanceAs (Decidable (∀ k < run.length, entries[start + k]? = run[k]?))

/-- The first value of the run is found nowhere else in it. -/
def HeadUnique (run : List α) : Prop := ∀ k, 0 < k → k < run.length → run[k]? ≠ run[0]?

/-- No run begins among the values that were matched, the first one apart. -/
theorem HeadUnique.not_occursAt_inside {run entries : List α} {start matched k : Nat}
    (headUnique : HeadUnique run) (short : matched ≤ run.length)
    (agrees : ∀ k < matched, entries[start + k]? = run[k]?) (positive : 0 < k)
    (inside : k < matched) : ¬ OccursAt run entries (start + k) := by
  intro occurs
  apply headUnique k positive
  · exact Nat.lt_of_lt_of_le inside short
  · calc run[k]? = entries[start + k]? := (agrees k inside).symm
      _ = run[0]? := occurs 0 (by omega)

theorem OccursAt.bounded {run entries : List α} {start : Nat} (occurs : OccursAt run entries start)
    (nonempty : 0 < run.length) : start < entries.length := by
  have first := occurs 0 nonempty
  rw [List.getElem?_eq_getElem nonempty, Nat.add_zero] at first
  exact (List.getElem?_eq_some_iff.mp first).1

theorem OccursAt.grow {run entries entries' : List α} {start : Nat}
    (occurs : OccursAt run entries start) (grows : entries <+: entries') :
    OccursAt run entries' start := by
  intro k inside
  have found := occurs k inside
  rw [List.getElem?_eq_getElem inside] at found ⊢
  obtain ⟨bounded, equal⟩ := List.getElem?_eq_some_iff.mp found
  apply List.getElem?_eq_some_iff.mpr
  exact ⟨Nat.lt_of_lt_of_le bounded grows.length_le, by rw [← grows.getElem bounded, equal]⟩

theorem occursAt_append (run entries : List α) : OccursAt run (entries ++ run) entries.length := by
  intro k _
  rw [List.getElem?_append_right (Nat.le_add_right _ _), Nat.add_sub_cancel_left]

/-- What a request for a run makes of a list of shared values: the run is there, nothing that was
there has changed, and the list grows only if the run was not there before. -/
structure Shared (run entries entries' : List α) (start : Nat) : Prop where
  occurs : OccursAt run entries' start
  grows : entries <+: entries'
  thrifty : entries' ≠ entries → ∀ other, ¬ OccursAt run entries other

theorem Shared.found {run entries : List α} {start : Nat} (occurs : OccursAt run entries start) :
    Shared run entries entries start :=
  ⟨occurs, List.prefix_refl entries, fun grown => absurd rfl grown⟩

theorem Shared.appended {run entries : List α}
    (missing : ∀ start < entries.length, ¬ OccursAt run entries start) :
    Shared run entries (entries ++ run) entries.length := by
  refine ⟨occursAt_append run entries, List.prefix_append entries run, ?_⟩
  intro grown other occurs
  cases run with
  | nil => exact grown (List.append_nil entries)
  | cons value run => exact missing other (occurs.bounded (Nat.succ_pos _)) occurs

/-- Requests one after the other, each with the start that it got. -/
inductive Session : List α → List (List α × Nat) → List α → Prop
  | nil (entries : List α) : Session entries [] entries
  | cons {run entries between entries' : List α} {start : Nat} {served : List (List α × Nat)}
      (shared : Shared run entries between start) (rest : Session between served entries') :
      Session entries ((run, start) :: served) entries'

theorem Session.grows {entries entries' : List α} {served : List (List α × Nat)}
    (session : Session entries served entries') : entries <+: entries' := by
  induction session with
  | nil entries => exact List.prefix_refl entries
  | cons shared _ inductionHypothesis => exact shared.grows.trans inductionHypothesis

/-- Later requests leave every run where an earlier one was told it is. -/
theorem Session.occurs {entries entries' : List α} {served : List (List α × Nat)}
    (session : Session entries served entries') {run : List α} {start : Nat}
    (member : (run, start) ∈ served) : OccursAt run entries' start := by
  induction session with
  | nil entries => cases member
  | cons shared rest inductionHypothesis =>
      rcases List.mem_cons.mp member with same | later
      · cases same
        exact shared.occurs.grow rest.grows
      · exact inductionHypothesis later

end RunSearch
