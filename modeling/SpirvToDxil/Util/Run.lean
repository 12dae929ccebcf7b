import Mathlib.Data.Option.Basic

/-!
# Runs of deterministic step functions

A step gives the next state, or none at the end. Two step functions that keep a relation keep
it along their runs.
-/

namespace Run

variable {State State' : Type*}

theorem rel_imp {Related Weaker : State → State' → Prop}
    (imp : ∀ state state', Related state state' → Weaker state state') {state : Option State}
    {state' : Option State'} (related : Option.Rel Related state state') :
    Option.Rel Weaker state state' := by
  cases related with
  | some related => exact .some (imp _ _ related)
  | none => exact .none

theorem exists_of_rel_some {Related : State → State' → Prop} {state : Option State}
    {state' : State'} (related : Option.Rel Related state (some state')) :
    ∃ first, state = some first ∧ Related first state' := by
  cases related with
  | some related => exact ⟨_, rfl, related⟩

def run (step : State → Option State) (state : State) : Nat → Option State
  | 0 => some state
  | count + 1 => (run step state count).bind step

/-- A relation that every pair of steps keeps holds along the runs, which end together. -/
theorem run_related {Related : State → State' → Prop} {step : State → Option State}
    {step' : State' → Option State'}
    (steps : ∀ state state', Related state state' →
      Option.Rel Related (step state) (step' state'))
    {state : State} {state' : State'} (related : Related state state') (count : Nat) :
    Option.Rel Related (run step state count) (run step' state' count) := by
  induction count with
  | zero => exact .some related
  | succ count inductionHypothesis =>
      rw [run, run]
      generalize run step state count = reached at *
      generalize run step' state' count = reached' at *
      cases inductionHypothesis with
      | some related => exact steps _ _ related
      | none => exact .none

end Run
