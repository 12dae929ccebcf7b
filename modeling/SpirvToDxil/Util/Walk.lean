import Mathlib.Data.List.Basic

/-!
# Walks of a transition function

A step reads an input and either moves on or stops. A walk is the list of the states that are
visited, and a map between states that commutes with steps commutes with walks.
-/

namespace SpirvToDxil

variable {State State' Input : Type*}

def walk (step : State → Input → Option State) (state : State) : List Input → List State
  | [] => [state]
  | input :: inputs =>
    state :: match step state input with
      | some next => walk step next inputs
      | none => []

/-- `invariant` holds of every state that the walk visits. -/
theorem walk_map {step : State → Input → Option State} {step' : State' → Input → Option State'}
    (f : State → State') (invariant : State → Prop)
    (preserved : ∀ state input next, invariant state → step state input = some next →
      invariant next)
    (commutes : ∀ state input, invariant state → step' (f state) input = (step state input).map f)
    {state : State} (initial : invariant state) (inputs : List Input) :
    walk step' (f state) inputs = (walk step state inputs).map f := by
  induction inputs generalizing state with
  | nil => rfl
  | cons input inputs inductionHypothesis =>
    rw [walk, walk, List.map_cons, commutes state input initial]
    cases moved : step state input with
    | none => rfl
    | some next =>
      rw [Option.map_some]
      exact congrArg (f state :: ·) (inductionHypothesis (preserved state input next initial moved))

end SpirvToDxil
