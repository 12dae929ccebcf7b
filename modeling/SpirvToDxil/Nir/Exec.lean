import Mathlib.Logic.Function.Basic
import SpirvToDxil.Nir.Shader

/-!
# Running structured functions

A machine gives every instruction its meaning. Phis read the values at the end
of the block that control comes from; a loop runs for at most `fuel` rounds.
-/

namespace SpirvToDxil.Nir

/-- What instructions compute, which inputs loads read and which outputs stores write. -/
structure Machine (Val Input Output InputKey OutputKey : Type) where
  reads : Intrinsic → List InputKey
  writes : Intrinsic → List OutputKey
  alu : Nat → List Val → Val
  const : Nat → Val
  truth : Val → Bool
  load : Intrinsic → List Input → List Val → Val
  /-- The new content of one output, from the sources and the old content. -/
  store : Intrinsic → OutputKey → List Val → Output → Output

structure State (Val Output OutputKey : Type) where
  env : Def → Val
  outputs : OutputKey → Output
  /-- The block that control comes from. -/
  pred : Nat

inductive Outcome where
  | next
  | jump (type : JumpType)
  deriving DecidableEq, Repr

variable {Val Input Output InputKey OutputKey : Type} [DecidableEq OutputKey]

abbrev Result (Val Output OutputKey : Type) := Outcome × State Val Output OutputKey

def State.set (state : State Val Output OutputKey) (value : Def) (val : Val) :
    State Val Output OutputKey :=
  { state with env := Function.update state.env value val }

def phiStep (state : State Val Output OutputKey) (env : Def → Val) (instr : Instr) : Def → Val :=
  match instr.kind with
  | .phi srcs =>
    match srcs.lookup state.pred with
    | some src => Function.update env instr.index (state.env src)
    | none => env
  | _ => env

def phiValues (state : State Val Output OutputKey) (instrs : List Instr) : Def → Val :=
  instrs.foldl (phiStep state) state.env

namespace Machine

variable (machine : Machine Val Input Output InputKey OutputKey) (inputs : InputKey → Input)

def stepInstr (state : State Val Output OutputKey) (instr : Instr) : State Val Output OutputKey :=
  match instr.kind with
  | .alu op srcs => state.set instr.index (machine.alu op (srcs.map state.env))
  | .loadConst value => state.set instr.index (machine.const value)
  | .intrinsic intr =>
    let vals := intr.srcs.map state.env
    if intr.op.isLoad then
      state.set instr.index (machine.load intr ((machine.reads intr).map inputs) vals)
    else
      { state with outputs := fun key =>
          if key ∈ machine.writes intr then machine.store intr key vals (state.outputs key)
          else state.outputs key }
  | .phi _ | .jump _ => state

def runInstrs (state : State Val Output OutputKey) : List Instr → Result Val Output OutputKey
  | [] => (.next, state)
  | instr :: instrs =>
    match instr.kind with
    | .jump type => (.jump type, state)
    | _ => runInstrs (machine.stepInstr inputs state instr) instrs

def runBlock (block : Block) (state : State Val Output OutputKey) : Result Val Output OutputKey :=
  machine.runInstrs inputs
    { state with env := phiValues state block.instrs, pred := block.index } block.instrs

/-- Rounds of a loop, until one of them breaks. -/
def runRounds (round : State Val Output OutputKey → Option (Result Val Output OutputKey)) :
    Nat → State Val Output OutputKey → Option (Result Val Output OutputKey)
  | 0, _ => none
  | fuel + 1, state =>
    match round state with
    | none => none
    | some (.jump .breakLoop, state) => some (.next, state)
    | some (_, state) => runRounds round fuel state

mutual

def runNode (fuel : Nat) : CfNode → State Val Output OutputKey →
    Option (Result Val Output OutputKey)
  | .ifNode condition thenList elseList, state =>
    if machine.truth (state.env condition) then runList fuel thenList state
    else runList fuel elseList state
  | .loopNode body, state => runRounds (fun state => runList fuel body state) fuel state

def runList (fuel : Nat) : CfList → State Val Output OutputKey →
    Option (Result Val Output OutputKey)
  | .last block, state => some (machine.runBlock inputs block state)
  | .cons block node rest, state =>
    match machine.runBlock inputs block state with
    | (.jump type, state) => some (.jump type, state)
    | (.next, state) =>
      match runNode fuel node state with
      | none => none
      | some (.jump type, state) => some (.jump type, state)
      | some (.next, state) => runList fuel rest state

end

end Machine

end SpirvToDxil.Nir
