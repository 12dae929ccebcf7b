import SpirvToDxil.Util.Structured

/-!
# Lowering of returns

`nir_lower_returns_impl` on a function body without phis. Returns become stores to a flag and
breaks, and what follows a node with a return is predicated on the flag.
-/

namespace SpirvToDxil.Nir

open Structured

variable {Action Test : Type}

/-- What `lower_returns_state` changes in the course of the pass. -/
structure ReturnsState where
  hasPredicatedReturn : Bool := false
  /-- Whether there is a `return_flag`. -/
  hasFlag : Bool := false
  removedUnreachableCode : Bool := false
  deriving DecidableEq, Repr

def hasPreds : Node Action Test → Bool
  | .ifNode _ thenList elseList => thenList.lastJump.isNone || elseList.lastJump.isNone
  | .loopNode body => body.jumps .breakLoop
  | .continueNode body continueList =>
    body.jumps .breakLoop || continueList.jumps .breakLoop

/-- `predicate_following` on what is behind a node. -/
def predicateFollowing (flag : Nat) (inLoop : Bool) (rest : Code Action Test) : Code Action Test :=
  if inLoop then
    .cons [] (.ifNode (.load flag) (.last [] (some .breakLoop)) .empty) rest
  else if rest.isEmpty then rest
  else .cons [] (.ifNode (.load flag) .empty rest) .empty

mutual

/-- `lower_returns_in_if` and `lower_returns_in_loop`, with the lowered code behind the node. -/
def lowerReturnsInNode (flag : Nat) (inLoop : Bool) :
    Node Action Test → Code Action Test → ReturnsState →
      Node Action Test × Code Action Test × Bool × ReturnsState
  | .ifNode condition thenList elseList, rest, state =>
    let (thenList', thenProgress, thenState) :=
      lowerReturnsInCfList flag inLoop false true thenList
        { state with hasPredicatedReturn := false }
    let (elseList', elseProgress, elseState) :=
      lowerReturnsInCfList flag inLoop false true elseList thenState
    let progress := thenProgress || elseProgress
    let after := { elseState with hasPredicatedReturn := progress || state.hasPredicatedReturn }
    if progress && !inLoop then
      if elseState.hasPredicatedReturn then
        (.ifNode condition thenList' elseList', predicateFollowing flag inLoop rest, progress,
          after)
      else if thenProgress && elseProgress then
        (.ifNode condition thenList' elseList', .empty, progress, after)
      else if thenProgress then
        (.ifNode condition thenList' (elseList'.append rest), .empty, progress, after)
      else
        (.ifNode condition (thenList'.append rest) elseList', .empty, progress, after)
    else (.ifNode condition thenList' elseList', rest, progress, after)
  | .loopNode body, rest, state =>
    let (body', progress, bodyState) := lowerReturnsInCfList flag true false true body state
    if progress then
      (.loopNode body', predicateFollowing flag inLoop rest, progress,
        { bodyState with hasPredicatedReturn := true })
    else (.loopNode body', rest, progress, bodyState)
  | .continueNode body continueList, rest, state =>
    (.continueNode body continueList, rest, false, state)

/-- `lower_returns_in_cf_list` from the end to the front, with `lower_returns_in_block`. `isBody`
marks the list whose last block is the last of the function, `reachable` a list whose first block
has predecessors or is the first of the function. -/
def lowerReturnsInCfList (flag : Nat) (inLoop isBody reachable : Bool) :
    Code Action Test → ReturnsState → Code Action Test × Bool × ReturnsState
  | .last ops jump, state =>
    if !reachable then
      if (Code.last ops jump : Code Action Test).isEmpty then (.empty, false, state)
      else (.empty, false, { state with removedUnreachableCode := true })
    else if jump ≠ some .returnFunction then (.last ops jump, false, state)
    else if isBody then (.last ops none, true, state)
    else
      (.last (ops ++ [.store flag true]) (if inLoop then some .breakLoop else none), true,
        { state with hasFlag := true })
  | .cons ops node rest, state =>
    let (rest', restProgress, restState) :=
      lowerReturnsInCfList flag inLoop isBody (hasPreds node) rest state
    let (node', following, nodeProgress, nodeState) :=
      lowerReturnsInNode flag inLoop node rest' restState
    let progress := restProgress || nodeProgress
    if !reachable then (.empty, progress, { nodeState with removedUnreachableCode := true })
    else (.cons ops node' following, progress, nodeState)

end

/-- `nir_lower_returns_impl` in a function with so many registers: the new body, whether it changed,
and the new number of registers. -/
def lowerReturnsImpl (registers : Nat) (body : Code Action Test) :
    Code Action Test × Bool × Nat :=
  let (lowered, progress, state) := lowerReturnsInCfList registers false true true body {}
  let changed := progress || state.removedUnreachableCode
  if state.hasFlag then (lowered.prepend [.store registers false], changed, registers + 1)
  else (lowered, changed, registers)

end SpirvToDxil.Nir
