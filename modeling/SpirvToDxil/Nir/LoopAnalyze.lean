import Mathlib.Algebra.Order.Ring.Nat
import Mathlib.Logic.Function.Iterate

/-!
# Trip counts of loops

A terminator leaves the loop when an integer induction variable compares with a limit. The
iteration count comes from one division, or from running the variable.
-/

namespace SpirvToDxil

namespace LoopAnalyze

inductive CompareOp where
  | ige
  | ilt
  | uge
  | ult
  | ieq
  | ine
  deriving DecidableEq, Repr

def CompareOp.eval {w : Nat} (src0 src1 : BitVec w) : CompareOp → Bool
  | ige => src1.sle src0
  | ilt => src0.slt src1
  | uge => src1.ule src0
  | ult => src0.ult src1
  | ieq => src0 == src1
  | ine => src0 != src1

def invertComparisonIfNeeded (aluOp : CompareOp) (invert : Bool) : CompareOp :=
  if invert then
    match aluOp with
    | .ige => .ilt
    | .uge => .ult
    | .ilt => .ige
    | .ult => .uge
    | .ieq => .ine
    | .ine => .ieq
  else aluOp

inductive ShiftOp where
  | ishl
  | ishr
  | ushr
  deriving DecidableEq, Repr

def ShiftOp.eval {w : Nat} (src0 : BitVec w) (src1 : BitVec 32) (op : ShiftOp) : BitVec w :=
  let count := src1.toNat &&& (w - 1)
  match op with
  | ishl => src0 <<< count
  | ishr => src0.sshiftRight count
  | ushr => src0 >>> count

/-- The instruction that gives the variable its next value, with its constant operand. A
constant may also be shifted by the variable, which is a number of 32 bits then. -/
inductive Update (w : Nat) where
  | iadd (step : BitVec w)
  | imul (factor : BitVec w)
  | shift (op : ShiftOp) (count : BitVec 32)
  | shiftOf (op : ShiftOp) (value : BitVec w)
  deriving DecidableEq, Repr

def Update.eval {w : Nat} (basis : BitVec w) : Update w → BitVec w
  | iadd step => basis + step
  | imul factor => basis * factor
  | shift op count => op.eval basis count
  | shiftOf op value => op.eval value (basis.setWidth 32)

/-- A condition on which the loop ends. `readsUpdate` if it reads the variable after its update. -/
structure Terminator (w : Nat) where
  initial : BitVec w
  update : Update w
  limit : BitVec w
  aluOp : CompareOp
  limitRhs : Bool
  invertCond : Bool
  readsUpdate : Bool
  deriving DecidableEq, Repr

section Division

variable {w : Nat}

def idiv (src0 src1 : BitVec w) : BitVec w :=
  if src1 = 0#w ∨ src0 = BitVec.intMin w ∧ src1 = -1#w then 0#w else src0.sdiv src1

def udiv (src0 src1 : BitVec w) : BitVec w := if src1 = 0#w then 0#w else src0 / src1

/-- The `int32_t` that a quotient is returned as. -/
def toIteration (iter : BitVec w) : Int :=
  if 2 ^ (w - 1) - 1 < iter.toNat then -1 else (BitVec.ofNat 32 iter.toNat).toInt

def getIteration (condOp : CompareOp) (initial step limit : BitVec w) (invertCond : Bool) : Int :=
  match invertComparisonIfNeeded condOp invertCond with
  | .ine => if step = 0#w then -1 else 1
  | .ige | .ilt | .ieq => toIteration (idiv (limit - initial) step)
  | .uge | .ult => toIteration (udiv (limit - initial) step)

end Division

namespace Terminator

variable {w : Nat} (terminator : Terminator w)

/-- The comparison of a value with the limit, inverted where the loop goes on if it holds. -/
def compare (value : BitVec w) : Bool :=
  let result :=
    if terminator.limitRhs then terminator.aluOp.eval value terminator.limit
    else terminator.aluOp.eval terminator.limit value
  if terminator.invertCond then !result else result

/-- `try_eval_const_alu` of the condition, for a value of the variable at the start of an
iteration. -/
def evalCond (basis : BitVec w) : Bool :=
  terminator.compare (if terminator.readsUpdate then terminator.update.eval basis else basis)

/-- The loop of `get_iteration_empirical` from an iteration on. -/
def empiricalFrom (basis : BitVec w) (iterCount : Int) : Nat → Int
  | 0 => -1
  | left + 1 =>
    if terminator.evalCond basis then iterCount
    else empiricalFrom (terminator.update.eval basis) (iterCount + 1) left

def getIterationEmpirical (maxUnrollIterations : Nat) : Int :=
  terminator.empiricalFrom terminator.initial 0 (maxUnrollIterations + 1)

def willBreakOnFirstIteration : Bool := terminator.evalCond terminator.initial

def testIterations (step : BitVec w) (iterInt : Int) : Bool :=
  terminator.compare (BitVec.ofInt w iterInt * step + terminator.initial)

/-- The first count among those around the quotient that passes the test. -/
def testBiases (step : BitVec w) (iterInt tripOffset : Int) : List Int → Int
  | [] => -1
  | bias :: biases =>
    let iterBias := (BitVec.ofInt 32 (iterInt + bias)).toInt
    if 1 ≤ iterBias ∧ terminator.testIterations step iterBias then iterBias - tripOffset
    else testBiases step iterInt tripOffset biases

def calculateIterations (maxUnrollIterations : Nat) : Int :=
  let tripOffset := if terminator.readsUpdate then 1 else 0
  if terminator.willBreakOnFirstIteration then 0
  else
    match terminator.update with
    | .iadd step =>
      let iterInt := getIteration terminator.aluOp terminator.initial step terminator.limit
        terminator.invertCond
      if iterInt < 0 then -1
      else if invertComparisonIfNeeded terminator.aluOp terminator.invertCond = .ine then iterInt
      else terminator.testBiases step iterInt tripOffset [-1, 0, 1]
    | .imul _ | .shift .. | .shiftOf .. => terminator.getIterationEmpirical maxUnrollIterations

def value (iteration : Nat) : BitVec w := terminator.update.eval^[iteration] terminator.initial

/-- The exit condition is false in the first iterations and true in the next one. -/
def LeavesAfter (count : Nat) : Prop :=
  (∀ iteration < count, ¬terminator.evalCond (terminator.value iteration)) ∧
    terminator.evalCond (terminator.value count)

end Terminator

end LoopAnalyze

end SpirvToDxil
