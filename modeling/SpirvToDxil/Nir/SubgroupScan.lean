import Mathlib.Algebra.Order.Ring.Nat
import Mathlib.Data.List.Basic
import Mathlib.Order.Nat

/-!
# Scans over a subgroup

Scans that have no operation of their own become a loop over the lanes, in which every lane reads
the values of the others.
-/

namespace SpirvToDxil

namespace SubgroupScan

inductive ReductionOp where
  | iadd
  | imul
  | iand
  | ior
  | ixor
  | imin
  | imax
  | umin
  | umax
  deriving DecidableEq, Repr

inductive Scan where
  | exclusive
  | inclusive
  deriving DecidableEq, Repr

namespace ReductionOp

variable {w : Nat}

/-- `nir_build_alu2` -/
def apply (op : ReductionOp) (x y : BitVec w) : BitVec w :=
  match op with
  | iadd => x + y
  | imul => x * y
  | iand => x &&& y
  | ior => x ||| y
  | ixor => x ^^^ y
  | imin => if x.slt y then x else y
  | imax => if x.slt y then y else x
  | umin => if x.ult y then x else y
  | umax => if x.ult y then y else x

/-- The value that a scan starts from. -/
def identity (w : Nat) : ReductionOp → BitVec w
  | iadd | ior | ixor | umax => 0
  | imul => 1
  | iand | umin => BitVec.allOnes w
  | imin => BitVec.intMax w
  | imax => BitVec.intMin w

end ReductionOp

/-- The lanes of a subgroup. A ballot has 128 bits. -/
structure Subgroup where
  size : Nat
  size_le : size ≤ 128
  active : Nat → Bool
  current : Nat
  current_lt : current < size
  current_active : active current

section Meaning

variable {w : Nat}

def Subgroup.scanned (group : Subgroup) (scan : Scan) (lane : Nat) : Bool :=
  group.active lane &&
    match scan with
    | .exclusive => lane < group.current
    | .inclusive => lane ≤ group.current

def scanValue (group : Subgroup) (scan : Scan) (op : ReductionOp) (src : Nat → BitVec w) :
    BitVec w :=
  (((List.range group.size).filter (group.scanned scan)).map src).foldl op.apply (op.identity w)

end Meaning

section Lowering

variable {w : Nat}

/-- `nir_ballot` of true, over four words -/
def ballot (group : Subgroup) : BitVec 128 :=
  (BitVec.ofBoolListLE
    ((List.range 128).map fun lane => lane < group.size && group.active lane)).setWidth 128

def ballotBitfieldExtract (value : BitVec 128) (index : BitVec 32) : Bool :=
  value.getLsbD index.toNat

def immIntN (x : BitVec 64) (bitSize : Nat) : BitVec bitSize := x.setWidth bitSize

def baseValue (op : ReductionOp) (bitSize : Nat) : BitVec bitSize :=
  match op with
  | .iand | .umin => immIntN (~~~0) bitSize
  | .imin => immIntN ((1#64 <<< (bitSize - 1)) - 1) bitSize
  | .imax => immIntN (1#64 <<< (bitSize - 1)) bitSize
  | _ => immIntN 0 bitSize

structure LoopState (w : Nat) where
  subgroupLoopCounter : BitVec 32
  subgroupLoopResult : BitVec w

/-- The body of the loop, or `none` at the `break`. Every lane has a value to be read, also the
inactive ones. -/
def loopBody (group : Subgroup) (scan : Scan) (op : ReductionOp) (src : Nat → BitVec w)
    (state : LoopState w) : Option (LoopState w) :=
  let loopCounter := state.subgroupLoopCounter
  let subgroupSize := BitVec.ofNat 32 group.size
  let subgroupId := BitVec.ofNat 32 group.current
  if loopCounter.slt subgroupSize then
    let otherThreadVal := src loopCounter.toNat
    let threadInRange :=
      match scan with
      | .inclusive => loopCounter.sle subgroupId
      | .exclusive => loopCounter.slt subgroupId
    let threadActive := ballotBitfieldExtract (ballot group) loopCounter
    let result :=
      if threadInRange && threadActive then op.apply state.subgroupLoopResult otherThreadVal
      else state.subgroupLoopResult
    some ⟨loopCounter + 1, result⟩
  else none

/-- The loop, with the number of its iterations. -/
def runLoop (body : LoopState w → Option (LoopState w)) :
    Nat → LoopState w → Option (LoopState w × Nat)
  | 0, _ => none
  | fuel + 1, state =>
    match body state with
    | none => some (state, 0)
    | some next => (runLoop body fuel next).map fun (last, iterations) => (last, iterations + 1)

inductive Lowered (w : Nat) where
  /-- The scan stays as it is. -/
  | kept
  /-- An exclusive scan and one operation after it. -/
  | exclusiveThen (value : BitVec w)
  /-- The loop, with its result and the number of its iterations. -/
  | loop (run : Nat → Option (BitVec w × Nat))

/-- `lower_subgroup_scan`, for the current lane. -/
def lowerSubgroupScan (group : Subgroup) (scan : Scan) (op : ReductionOp) (src : Nat → BitVec w) :
    Lowered w :=
  match op, scan with
  | .iadd, .exclusive | .imul, .exclusive => .kept
  | .iadd, .inclusive | .imul, .inclusive =>
    .exclusiveThen (op.apply (scanValue group .exclusive op src) (src group.current))
  | op, scan =>
    .loop fun fuel =>
      (runLoop (loopBody group scan op src) fuel ⟨0, baseValue op w⟩).map
        fun (last, iterations) => (last.subgroupLoopResult, iterations)

end Lowering

section Identity

variable {w : Nat}

theorem ReductionOp.apply_identity (op : ReductionOp) (x : BitVec w) :
    op.apply (op.identity w) x = x := by
  cases op with
  | iadd => exact BitVec.zero_add x
  | imul => exact BitVec.one_mul x
  | iand => exact BitVec.allOnes_and
  | ior => exact BitVec.zero_or
  | ixor => exact BitVec.zero_xor
  | imin =>
      rw [apply, identity, if_neg]
      rw [BitVec.slt_iff_toInt_lt, BitVec.toInt_intMax]
      have := BitVec.toInt_lt (x := x)
      omega
  | imax =>
      rw [apply, identity]
      split
      next => rfl
      next notLess =>
        apply BitVec.eq_of_toInt_eq
        rw [BitVec.slt_iff_toInt_lt] at notLess
        have := BitVec.toInt_intMin_le x
        omega
  | umin =>
      rw [apply, identity, if_neg]
      rw [BitVec.ult_iff_toNat_lt, BitVec.toNat_allOnes]
      have := x.isLt
      omega
  | umax =>
      rw [apply, identity]
      split
      next => rfl
      next notLess =>
        apply BitVec.eq_of_toNat_eq
        rw [BitVec.ult_iff_toNat_lt] at notLess
        simp only [BitVec.toNat_ofNat, BitVec.ofNat_eq_ofNat, Nat.zero_mod] at notLess ⊢
        omega

/-- The loop starts from the identity, for the operators that it is used for. -/
theorem baseValue_eq_identity {op : ReductionOp} (notProduct : op ≠ .imul) (small : w ≤ 64) :
    baseValue op w = op.identity w := by
  have power : 2 ^ (w - 1) < 2 ^ 64 := Nat.pow_lt_pow_right (by decide) (by omega)
  have positive := Nat.two_pow_pos (w - 1)
  have top : (1#64 <<< (w - 1)).toNat = 2 ^ (w - 1) := by
    rw [BitVec.toNat_shiftLeft, Nat.shiftLeft_eq, BitVec.toNat_ofNat,
      Nat.mod_eq_of_lt (show 1 < 2 ^ 64 by decide), Nat.one_mul, Nat.mod_eq_of_lt power]
  have below : 2 ^ (w - 1) - 1 < 2 ^ w := by
    have := Nat.pow_le_pow_right (show 0 < 2 by decide) (Nat.sub_le w 1)
    omega
  cases op with
  | imul => exact absurd rfl notProduct
  | iadd | ior | ixor | umax => exact BitVec.setWidth_zero ..
  | iand | umin =>
      apply BitVec.eq_of_getLsbD_eq
      intro i inside
      have all : ~~~(0 : BitVec 64) = BitVec.allOnes 64 := rfl
      simp only [baseValue, immIntN, ReductionOp.identity, all, BitVec.getLsbD_setWidth,
        BitVec.getLsbD_allOnes, inside, show i < 64 by omega, decide_true, Bool.and_self]
  | imin =>
      apply BitVec.eq_of_toNat_eq
      rw [baseValue, immIntN, BitVec.toNat_setWidth, BitVec.toNat_sub, top, ReductionOp.identity,
        BitVec.toNat_intMax]
      have one : (1 : BitVec 64).toNat = 1 := rfl
      rw [one, show 2 ^ 64 - 1 + 2 ^ (w - 1) = 2 ^ (w - 1) - 1 + 2 ^ 64 by omega,
        Nat.add_mod_right, Nat.mod_eq_of_lt (show 2 ^ (w - 1) - 1 < 2 ^ 64 by omega),
        Nat.mod_eq_of_lt below]
  | imax =>
      apply BitVec.eq_of_toNat_eq
      rw [baseValue, immIntN, BitVec.toNat_setWidth, top, ReductionOp.identity,
        BitVec.toNat_intMin]

end Identity

section Loop

variable {w : Nat} (group : Subgroup) (scan : Scan) (op : ReductionOp) (src : Nat → BitVec w)

theorem slt_ofNat {m n : Nat} (small : m < 2 ^ 31) (small' : n < 2 ^ 31) :
    (BitVec.ofNat 32 m).slt (BitVec.ofNat 32 n) = decide (m < n) := by
  have toInt {k : Nat} (fits : k < 2 ^ 31) : (BitVec.ofNat 32 k).toInt = k := by
    rw [BitVec.toInt_eq_toNat_of_lt (by rw [BitVec.toNat_ofNat]; omega), BitVec.toNat_ofNat,
      Nat.mod_eq_of_lt (by omega)]
  rw [BitVec.slt_eq_decide, toInt small, toInt small']
  simp

theorem sle_ofNat {m n : Nat} (small : m < 2 ^ 31) (small' : n < 2 ^ 31) :
    (BitVec.ofNat 32 m).sle (BitVec.ofNat 32 n) = decide (m ≤ n) := by
  rw [BitVec.sle_eq_not_slt, slt_ofNat small' small, ← decide_not, decide_eq_decide]
  exact Nat.not_lt

theorem ballotBitfieldExtract_ballot {lane : Nat} (inside : lane < group.size) :
    ballotBitfieldExtract (ballot group) (BitVec.ofNat 32 lane) = group.active lane := by
  have small := group.size_le
  have index : (BitVec.ofNat 32 lane).toNat = lane := by
    rw [BitVec.toNat_ofNat, Nat.mod_eq_of_lt (by omega)]
  rw [ballotBitfieldExtract, ballot, index, BitVec.getLsbD_setWidth, BitVec.getLsbD_ofBoolListLE,
    List.getD_eq_getElem?_getD, List.getElem?_map, List.getElem?_range (by omega)]
  simp [inside, show lane < 128 by omega]

/-- The result after some of the lanes. -/
def partialScan (lanes : Nat) : BitVec w :=
  (((List.range lanes).filter (group.scanned scan)).map src).foldl op.apply (op.identity w)

theorem partialScan_succ (lanes : Nat) :
    partialScan group scan op src (lanes + 1) =
      if group.scanned scan lanes then op.apply (partialScan group scan op src lanes) (src lanes)
      else partialScan group scan op src lanes := by
  rw [partialScan, partialScan, List.range_succ, List.filter_append, List.map_append,
    List.foldl_append, List.filter_singleton]
  cases group.scanned scan lanes <;> rfl

/-- An iteration takes in the next lane. -/
theorem loopBody_eq {lanes : Nat} (inside : lanes < group.size) :
    loopBody group scan op src ⟨BitVec.ofNat 32 lanes, partialScan group scan op src lanes⟩ =
      some ⟨BitVec.ofNat 32 (lanes + 1), partialScan group scan op src (lanes + 1)⟩ := by
  have small := group.size_le
  have current := group.current_lt
  have index : (BitVec.ofNat 32 lanes).toNat = lanes := by
    rw [BitVec.toNat_ofNat, Nat.mod_eq_of_lt (by omega)]
  have smallLane : lanes < 2 ^ 31 := by omega
  have smallCurrent : group.current < 2 ^ 31 := by omega
  have smallSize : group.size < 2 ^ 31 := by omega
  cases scan <;>
    simp only [loopBody, slt_ofNat smallLane smallSize, slt_ofNat smallLane smallCurrent,
      sle_ofNat smallLane smallCurrent, inside, decide_true, if_true,
      ballotBitfieldExtract_ballot group inside, index, partialScan_succ, BitVec.ofNat_add,
      Subgroup.scanned, Bool.and_comm (group.active lanes)] <;>
    rfl

/-- The loop leaves after as many iterations as the subgroup has lanes. -/
theorem runLoop_eq (lanes fuel : Nat) (upTo : lanes ≤ group.size)
    (enough : group.size - lanes < fuel) :
    runLoop (loopBody group scan op src) fuel
        ⟨BitVec.ofNat 32 lanes, partialScan group scan op src lanes⟩ =
      some (⟨BitVec.ofNat 32 group.size, partialScan group scan op src group.size⟩,
        group.size - lanes) := by
  have small := group.size_le
  induction fuel generalizing lanes with
  | zero => omega
  | succ fuel inductionHypothesis =>
      rw [runLoop]
      rcases Nat.eq_or_lt_of_le upTo with rfl | inside
      · have leaves : loopBody group scan op src
            ⟨BitVec.ofNat 32 group.size, partialScan group scan op src group.size⟩ = none := by
          have smallSize : group.size < 2 ^ 31 := by omega
          simp [loopBody.eq_def, slt_ofNat smallSize smallSize]
        simp only [leaves, Nat.sub_self]
      · rw [loopBody_eq group scan op src inside]
        simp only [inductionHypothesis (lanes + 1) inside (by omega), Option.map_some]
        congr 2
        omega

/-- An inclusive scan has one more value than an exclusive one, that of the current lane. -/
theorem partialScan_inclusive (lanes : Nat) :
    partialScan group .inclusive op src lanes =
      if group.current < lanes then
        op.apply (partialScan group .exclusive op src lanes) (src group.current)
      else partialScan group .exclusive op src lanes := by
  induction lanes with
  | zero => rfl
  | succ lanes inductionHypothesis =>
      rw [partialScan_succ, partialScan_succ, inductionHypothesis]
      rcases Nat.lt_trichotomy lanes group.current with below | same | above
      · have inclusive : group.scanned .inclusive lanes = group.scanned .exclusive lanes := by
          simp [Subgroup.scanned, below, Nat.le_of_lt below]
        rw [inclusive, if_neg (show ¬ group.current < lanes by omega),
          if_neg (show ¬ group.current < lanes + 1 by omega)]
      · subst same
        have inclusive : group.scanned .inclusive group.current = true := by
          simp [Subgroup.scanned, group.current_active]
        have exclusive : group.scanned .exclusive group.current = false := by
          simp [Subgroup.scanned]
        rw [inclusive, exclusive, if_neg (lt_irrefl _)]
        simp
      · have inclusive : group.scanned .inclusive lanes = false := by
          simp [Subgroup.scanned, above]
        have exclusive : group.scanned .exclusive lanes = false := by
          simp [Subgroup.scanned, Nat.le_of_lt above]
        rw [inclusive, exclusive, if_pos above, if_pos (show group.current < lanes + 1 by omega)]
        rfl

/-- A scan is lowered to the fold over the active lanes before the current one, and for inclusive
scans the current one, from the identity of the operator. -/
theorem lowerSubgroupScan_eq (small : w ≤ 64) :
    (∀ x, op.apply (op.identity w) x = x) ∧
      match lowerSubgroupScan group scan op src with
      | .kept => scan = .exclusive ∧ (op = .iadd ∨ op = .imul)
      | .exclusiveThen value => value = scanValue group scan op src
      | .loop run =>
        ∀ fuel, group.size < fuel → run fuel = some (scanValue group scan op src, group.size) := by
  refine ⟨op.apply_identity, ?_⟩
  have sum : scanValue group .inclusive op src =
      op.apply (scanValue group .exclusive op src) (src group.current) :=
    (partialScan_inclusive group op src group.size).trans (if_pos group.current_lt)
  have loop (notProduct : op ≠ .imul) (fuel : Nat) (enough : group.size < fuel) :
      (runLoop (loopBody group scan op src) fuel ⟨0, baseValue op w⟩).map
          (fun (last, iterations) => (last.subgroupLoopResult, iterations)) =
        some (scanValue group scan op src, group.size) := by
    have run := runLoop_eq group scan op src 0 fuel (Nat.zero_le _) (by omega)
    have start : partialScan group scan op src 0 = baseValue op w :=
      (baseValue_eq_identity notProduct small).symm
    rw [start] at run
    rw [show (0 : BitVec 32) = BitVec.ofNat 32 0 from rfl, run]
    rfl
  cases op with
  | iadd | imul =>
      cases scan with
      | exclusive => simp [lowerSubgroupScan]
      | inclusive => exact sum.symm
  | _ => exact loop (by simp)

/-- Four lanes, of which the second is not active. -/
def fourLanes : Subgroup where
  size := 4
  size_le := by decide
  active := fun lane => lane ≠ 1
  current := 2
  current_lt := by decide
  current_active := by decide

theorem lowerSubgroupScan_eq_fourLanes :
    (∀ x, ReductionOp.imin.apply (ReductionOp.imin.identity 8) x = x) ∧
      match lowerSubgroupScan fourLanes .inclusive .imin (BitVec.ofNat 8) with
      | .kept => Scan.inclusive = .exclusive ∧ (ReductionOp.imin = .iadd ∨ ReductionOp.imin = .imul)
      | .exclusiveThen value => value = scanValue fourLanes .inclusive .imin (BitVec.ofNat 8)
      | .loop run => ∀ fuel, fourLanes.size < fuel →
          run fuel = some (scanValue fourLanes .inclusive .imin (BitVec.ofNat 8), fourLanes.size) :=
  lowerSubgroupScan_eq fourLanes .inclusive .imin (BitVec.ofNat 8) (by decide)

end Loop

end SubgroupScan

end SpirvToDxil
