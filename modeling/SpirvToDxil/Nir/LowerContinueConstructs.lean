import SpirvToDxil.Util.Structured

/-!
# Lowering of continue constructs

`nir_lower_continue_constructs` on a function body without phis. The continue jumps of a loop become
stores to a flag, what is behind them moves to the other side of a conditional or is predicated on
the flag, and the continue construct goes to the end of the loop's body.
-/

namespace SpirvToDxil.Nir

open Structured

variable {Action Test : Type}

def lowerJump (type : Jump) (flag : Nat) (code : Code Action Test) : Code Action Test × Bool :=
  if code.lastJump = some type then (code.dropJump.append (.last [.store flag true] none), true)
  else (code, false)

section If

variable (lower : Code Action Test → Code Action Test × Bool) (type : Jump) (flag : Nat)

/-- What is done to a list of a conditional before the code behind the conditional moves. -/
def lowerBefore (side : Code Action Test) : Code Action Test × Bool :=
  let (side', removed) := lowerJump type flag side
  if side.lastJump.isSome then
    let (lowered, progress) := lower side'
    (lowered, removed || progress)
  else (side', removed)

/-- What is done afterwards to a list that did not jump. -/
def lowerAfter (jumps : Bool) (side : Code Action Test) : Code Action Test × Bool :=
  if jumps then (side, false) else lower side

/-- The code behind the conditional goes to the side that does not jump. -/
def moveFollowing (thenJumps elseJumps : Bool) (thenList elseList rest : Code Action Test) :
    Code Action Test × Code Action Test :=
  if thenJumps && elseJumps then (thenList, elseList)
  else if thenJumps then (thenList, elseList.append rest)
  else (thenList.append rest, elseList)

/-- `lower_jumps_in_if`, with the code behind the conditional. -/
def lowerJumpsInIf (condition : Cond Test) (thenList elseList rest : Code Action Test) :
    Node Action Test × Code Action Test × Bool :=
  let thenJumps := thenList.lastJump.isSome
  let elseJumps := elseList.lastJump.isSome
  let (thenList, thenProgress) := lowerBefore lower type flag thenList
  let (elseList, elseProgress) := lowerBefore lower type flag elseList
  let moves := !rest.isEmpty && (thenProgress || elseProgress)
  let (thenList, elseList) :=
    if moves then moveFollowing thenJumps elseJumps thenList elseList rest else (thenList, elseList)
  let rest := if moves then .empty else rest
  let (thenList, thenAfter) := lowerAfter lower thenJumps thenList
  let (elseList, elseAfter) := lowerAfter lower elseJumps elseList
  let progress := thenProgress || elseProgress || thenAfter || elseAfter
  (.ifNode condition thenList elseList,
    if !rest.isEmpty && progress then .cons [] (.ifNode (.load flag) .empty rest) .empty else rest,
    progress)

end If

/-- The nodes of a list from the last to the first; only conditionals are lowered. -/
def lowerJumpsInNodes
    (lowerIf : Cond Test → Code Action Test → Code Action Test → Code Action Test →
      Node Action Test × Code Action Test × Bool) :
    Code Action Test → Code Action Test × Bool
  | .last ops jump => (.last ops jump, false)
  | .cons ops (.ifNode condition thenList elseList) rest =>
    let (rest, restProgress) := lowerJumpsInNodes lowerIf rest
    let (node, rest, progress) := lowerIf condition thenList elseList rest
    (.cons ops node rest, restProgress || progress)
  | .cons ops node rest =>
    let (rest, progress) := lowerJumpsInNodes lowerIf rest
    (.cons ops node rest, progress)

/-- How deep conditionals are nested in the list, loops apart. -/
def conditionalDepth : Code Action Test → Nat
  | .last _ _ => 0
  | .cons _ (.ifNode _ thenList elseList) rest =>
    max (max (conditionalDepth thenList) (conditionalDepth elseList) + 1) (conditionalDepth rest)
  | .cons _ _ rest => conditionalDepth rest

/-- `lower_jumps_in_cf_list` down to a depth. -/
def lowerJumpsInCfList (type : Jump) (flag : Nat) :
    Nat → Code Action Test → Code Action Test × Bool
  | 0, code => (code, false)
  | depth + 1, code =>
    lowerJumpsInNodes (lowerJumpsInIf (lowerJumpsInCfList type flag depth) type flag) code

/-- `nir_simplify_loop` for continue jumps, on the body of a loop. -/
def simplifyLoop (flag : Nat) (body : Code Action Test) : Code Action Test :=
  (lowerJumpsInCfList .continueLoop flag (conditionalDepth body) body).1.prepend [.store flag false]

/-- `simplify_loop_continues`: the new body and the number of registers. -/
def simplifyLoopContinues (body : Code Action Test) (registers : Nat) : Code Action Test × Nat :=
  -- the trivial continue
  let body := if body.lastJump = some .continueLoop then body.dropJump else body
  if body.lastJump.isNone && !body.jumps .continueLoop then (body, registers)
  else (simplifyLoop registers body, registers + 1)

/-- `lower_loop_continue_block`: the new loop and the number of registers. -/
def lowerLoopContinueBlock (body continueList : Code Action Test) (registers : Nat) :
    Node Action Test × Nat :=
  let (body, registers) := simplifyLoopContinues body registers
  let continues := body.lastJump.isNone || body.jumps .continueLoop
  (.loopNode (if continues then body.append continueList else body), registers)

mutual

/-- A node in `visit_cf_list`. -/
def visitNode : Node Action Test → Nat → Node Action Test × Bool × Nat
  | .ifNode condition thenList elseList, registers =>
    let (thenList, thenProgress, registers) := visitCfList thenList registers
    let (elseList, elseProgress, registers) := visitCfList elseList registers
    (.ifNode condition thenList elseList, thenProgress || elseProgress, registers)
  | .loopNode body, registers =>
    let (body, progress, registers) := visitCfList body registers
    (.loopNode body, progress, registers)
  | .continueNode body continueList, registers =>
    let (body, _, registers) := visitCfList body registers
    let (continueList, _, registers) := visitCfList continueList registers
    let (node, registers) := lowerLoopContinueBlock body continueList registers
    (node, true, registers)

/-- `visit_cf_list`: the new list, whether it changed, and the number of registers. -/
def visitCfList : Code Action Test → Nat → Code Action Test × Bool × Nat
  | .last ops jump, registers => (.last ops jump, false, registers)
  | .cons ops node rest, registers =>
    let (node, nodeProgress, registers) := visitNode node registers
    let (rest, restProgress, registers) := visitCfList rest registers
    (.cons ops node rest, nodeProgress || restProgress, registers)

end

/-- `lower_continue_constructs_impl` in a function with so many registers. -/
def lowerContinueConstructsImpl (registers : Nat) (body : Code Action Test) :
    Code Action Test × Bool × Nat :=
  visitCfList body registers

end SpirvToDxil.Nir
