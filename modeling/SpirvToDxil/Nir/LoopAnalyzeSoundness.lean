import SpirvToDxil.Nir.LoopAnalyze
import SpirvToDxil.Util.Circle
import Mathlib.Tactic.Ring

/-!
# When trip counts are exact
-/

namespace SpirvToDxil

namespace LoopAnalyze

open Circle

section Reading

variable {w : Nat} (signed : Bool)

def read (value : BitVec w) : Int := if signed then value.toInt else value.toNat

def low (w : Nat) : Int := if signed then -2 ^ (w - 1) else 0

variable {signed}

theorem read_mem (wide : 0 < w) (value : BitVec w) :
    low signed w ≤ read signed value ∧ read signed value < low signed w + 2 ^ w := by
  have double : (2 : Int) ^ w = 2 * 2 ^ (w - 1) := by
    rw [← Int.pow_succ', Nat.sub_add_cancel wide]
  cases signed with
  | false =>
      have less := value.isLt
      simp only [read, low, Bool.false_eq_true, if_false]
      constructor
      · omega
      · rw [Int.zero_add]
        exact_mod_cast less
  | true =>
      have above := BitVec.le_toInt value
      have below := @BitVec.toInt_lt w value
      simp only [read, low, if_true]
      constructor
      · exact above
      · rw [double]
        omega

theorem read_modEq (value : BitVec w) : read signed value ≡ value.toNat [ZMOD 2 ^ w] := by
  cases signed with
  | false => exact Int.ModEq.refl _
  | true =>
      have same : value.toInt ≡ value.toNat [ZMOD (2 ^ w : Nat)] := by
        rw [BitVec.toInt_eq_toNat_bmod]
        exact Int.bmod_emod
      push_cast at same
      exact same

theorem read_ofInt (wide : 0 < w) (x : Int) :
    read signed (BitVec.ofInt w x) = wrap (low signed w) (2 ^ w) x := by
  have inside := @read_mem w signed wide (BitVec.ofInt w x)
  symm
  apply wrap_eq_of_modEq inside.1 inside.2
  apply (read_modEq _).trans
  have natural : ((BitVec.ofInt w x).toNat : Int) = x % (2 ^ w : Nat) := by
    rw [BitVec.toNat_ofInt]
    apply Int.toNat_of_nonneg
    apply Int.emod_nonneg
    exact_mod_cast Nat.two_pow_pos w |>.ne'
  rw [natural]
  push_cast
  exact Int.mod_modEq x _

theorem ofInt_read (value : BitVec w) : BitVec.ofInt w (read signed value) = value := by
  cases signed with
  | false => simp [read]
  | true => simp [read]

theorem read_inj {value value' : BitVec w} :
    read signed value = read signed value' ↔ value = value' := by
  constructor
  · intro same
    rw [← @ofInt_read w signed value, same, ofInt_read]
  · exact congrArg (read signed)

end Reading

def SameSign (a b : Int) : Prop := 0 < a ∧ 0 < b ∨ a < 0 ∧ b < 0

instance (a b : Int) : Decidable (SameSign a b) := inferInstanceAs (Decidable (_ ∨ _))

section Division

variable {w : Nat}

theorem two_pow_pos (w : Nat) : (0 : Int) < 2 ^ w := by
  exact_mod_cast Nat.two_pow_pos w

theorem two_mul_pow_pred (wide : 0 < w) : 2 * 2 ^ (w - 1) = 2 ^ w :=
  mul_pow_sub_one (Nat.ne_of_gt wide) 2

theorem toNat_eq_toInt {x : BitVec w} (wide : 0 < w) (small : x.toNat < 2 ^ (w - 1)) :
    x.toInt = x.toNat := by
  apply BitVec.toInt_eq_toNat_of_lt
  have double := two_mul_pow_pred wide
  omega

theorem tdiv_pos {a b : Int} (positive : 0 < a.tdiv b) : SameSign a b := by
  rcases Int.lt_trichotomy b 0 with negative | rfl | rest
  · right
    refine ⟨?_, negative⟩
    by_contra nonneg
    have le := Int.tdiv_nonpos_of_nonneg_of_nonpos (Int.not_lt.mp nonneg) (Int.le_of_lt negative)
    omega
  · simp at positive
  · left
    refine ⟨?_, rest⟩
    by_contra nonpos
    have opposite := Int.tdiv_nonneg (a := -a) (b := b) (by omega) (Int.le_of_lt rest)
    rw [Int.neg_tdiv] at opposite
    omega

theorem toInt_idiv {a b : BitVec w} (nonzero : b ≠ 0#w)
    (fits : a ≠ BitVec.intMin w ∨ b ≠ -1#w) : (idiv a b).toInt = a.toInt.tdiv b.toInt := by
  rw [idiv, if_neg, BitVec.toInt_sdiv_of_ne_or_ne a b fits]
  rintro (zero | ⟨least, minusOne⟩)
  · exact nonzero zero
  · exact fits.elim (· least) (· minusOne)

theorem idiv_of_pos (wide : 0 < w) {a b : BitVec w} (positive : 0 < (idiv a b).toNat)
    (small : (idiv a b).toNat < 2 ^ (w - 1)) :
    SameSign a.toInt b.toInt ∧ (idiv a b).toNat = a.toInt.natAbs / b.toInt.natAbs := by
  have defined : ¬(b = 0#w ∨ a = BitVec.intMin w ∧ b = -1#w) := by
    intro special
    rw [idiv, if_pos special] at positive
    simp at positive
  rw [not_or, not_and_or] at defined
  have divides := toInt_idiv defined.1 defined.2
  rw [toNat_eq_toInt wide small] at divides
  refine ⟨tdiv_pos (by omega), ?_⟩
  have absolute := congrArg Int.natAbs divides
  rwa [Int.natAbs_natCast, Int.natAbs_tdiv] at absolute

theorem idiv_of_sameSign (wide : 0 < w) {a b : BitVec w} (sameSign : SameSign a.toInt b.toInt)
    (small : a.toInt.natAbs / b.toInt.natAbs < 2 ^ (w - 1)) :
    (idiv a b).toNat = a.toInt.natAbs / b.toInt.natAbs := by
  have nonzero : b ≠ 0#w := by
    rintro rfl
    rcases sameSign with ⟨_, positive⟩ | ⟨_, negative⟩ <;> simp at *
  have fits : a ≠ BitVec.intMin w ∨ b ≠ -1#w := by
    by_contra special
    rw [not_or, not_not, not_not] at special
    obtain ⟨rfl, rfl⟩ := special
    rw [BitVec.neg_one_eq_allOnes, BitVec.toInt_allOnes, if_pos wide,
      BitVec.toInt_intMin_of_pos wide] at small
    simp at small
  have divides := toInt_idiv nonzero fits
  have nonneg : 0 ≤ a.toInt.tdiv b.toInt := by
    rcases sameSign with ⟨first, second⟩ | ⟨first, second⟩
    · exact Int.tdiv_nonneg (Int.le_of_lt first) (Int.le_of_lt second)
    · exact Int.tdiv_nonneg_of_nonpos_of_nonpos (Int.le_of_lt first) (Int.le_of_lt second)
  rw [← divides] at nonneg
  have absolute := congrArg Int.natAbs divides
  rw [Int.natAbs_tdiv] at absolute
  have unsigned := BitVec.toInt_eq_toNat_of_lt (BitVec.toInt_pos_iff.mp nonneg)
  rw [unsigned, Int.natAbs_natCast] at absolute
  exact absolute

theorem udiv_toNat (a b : BitVec w) : (udiv a b).toNat = a.toNat / b.toNat := by
  unfold udiv
  split
  next zero => simp [zero]
  next => exact BitVec.toNat_udiv

theorem toIteration_eq (iter : BitVec w) (count : Nat) :
    toIteration iter = count ↔
      iter.toNat < 2 ^ (w - 1) ∧ iter.toNat % 2 ^ 32 = count ∧ count < 2 ^ 31 := by
  have positive := Nat.two_pow_pos (w - 1)
  unfold toIteration
  split
  next large =>
    constructor
    · intro negative
      omega
    · rintro ⟨small, _⟩
      omega
  next small =>
    have cond := BitVec.toInt_eq_toNat_cond (BitVec.ofNat 32 iter.toNat)
    rw [BitVec.toNat_ofNat] at cond
    rw [cond]
    split <;> omega

end Division

namespace Terminator

variable {w : Nat} (terminator : Terminator w)

def actualOp : CompareOp := invertComparisonIfNeeded terminator.aluOp terminator.invertCond

def signed : Bool :=
  match terminator.actualOp with
  | .ige | .ilt | .ieq | .ine => true
  | .uge | .ult => false

/-- How the variable compares with the limit when the loop ends. -/
def relation : Relation :=
  match terminator.actualOp, terminator.limitRhs with
  | .ige, true | .uge, true => .ge
  | .ige, false | .uge, false => .le
  | .ilt, true | .ult, true => .lt
  | .ilt, false | .ult, false => .gt
  | .ieq, _ => .eq
  | .ine, _ => .ne

theorem compare_iff (value : BitVec w) :
    terminator.compare value ↔ terminator.relation.Holds (read terminator.signed value)
      (read terminator.signed terminator.limit) := by
  obtain ⟨initial, update, limit, aluOp, limitRhs, invertCond, readsUpdate⟩ := terminator
  cases aluOp <;> cases limitRhs <;> cases invertCond <;>
    simp [compare, relation, actualOp, signed, invertComparisonIfNeeded, CompareOp.eval, read,
      Relation.Holds, BitVec.sle, BitVec.slt, BitVec.ule, BitVec.ult, ← BitVec.toInt_inj]
  all_goals first | exact eq_comm | exact not_congr eq_comm

/-- The evaluations of the condition read the variable this many steps further. -/
def tripOffset : Nat := if terminator.readsUpdate then 1 else 0

variable {terminator} {step : BitVec w}

section Addition

variable (adds : terminator.update = .iadd step)
include adds

theorem value_eq (iteration : Nat) :
    terminator.value iteration = BitVec.ofInt w
      (read terminator.signed terminator.initial + iteration * read terminator.signed step) := by
  induction iteration with
  | zero => simp [value, ofInt_read]
  | succ iteration inductionHypothesis =>
      rw [value] at inductionHypothesis
      calc terminator.value (iteration + 1)
          = BitVec.ofInt w (read terminator.signed terminator.initial +
              iteration * read terminator.signed step) + step := by
            rw [value, Function.iterate_succ_apply', inductionHypothesis, adds, Update.eval]
        _ = BitVec.ofInt w (read terminator.signed terminator.initial +
              iteration * read terminator.signed step + read terminator.signed step) := by
            conv_rhs => rw [BitVec.ofInt_add, ofInt_read]
        _ = _ := by
            congr 1
            push_cast
            ring

/-- The variable stands beyond the limit after so many steps. -/
def ExitsAt (terminator : Terminator w) (step : BitVec w) (steps : Int) : Prop :=
  terminator.relation.Holds (wrap (low terminator.signed w) (2 ^ w)
    (read terminator.signed terminator.initial + steps * read terminator.signed step))
    (read terminator.signed terminator.limit)

theorem compare_value_iff (wide : 0 < w) (steps : Nat) :
    terminator.compare (terminator.value steps) ↔ terminator.ExitsAt step steps := by
  rw [compare_iff, value_eq adds, read_ofInt wide, ExitsAt]

theorem evalCond_iff (wide : 0 < w) (iteration : Nat) :
    terminator.evalCond (terminator.value iteration) ↔
      terminator.ExitsAt step (iteration + terminator.tripOffset : Nat) := by
  rw [← compare_value_iff adds wide, evalCond, tripOffset]
  split
  next => rw [value, value, Function.iterate_succ_apply']
  next => rw [Nat.add_zero]

omit adds in
theorem testIterations_iff (wide : 0 < w) (iterations : Int) :
    terminator.testIterations step iterations ↔ terminator.ExitsAt step iterations := by
  have tested : BitVec.ofInt w iterations * step + terminator.initial = BitVec.ofInt w
      (read terminator.signed terminator.initial + iterations * read terminator.signed step) := by
    rw [BitVec.ofInt_add, BitVec.ofInt_mul, ofInt_read, ofInt_read, BitVec.add_comm]
  rw [testIterations, compare_iff, tested, read_ofInt wide, ExitsAt]

end Addition

section Quotient

variable (terminator step)

def distance : Int := read terminator.signed (terminator.limit - terminator.initial)

def wholeSteps : Nat := terminator.distance.natAbs / (read terminator.signed step).natAbs

def intSteps : Nat := terminator.wholeSteps step % 2 ^ 32

/-- The variable goes towards the limit, and the steps fit. -/
structure Approaches : Prop where
  sameSign : SameSign terminator.distance (read terminator.signed step)
  whole : terminator.wholeSteps step < 2 ^ (w - 1)
  int : terminator.intSteps step < 2 ^ 31

variable {terminator step}

theorem getIteration_eq (notIne : terminator.actualOp ≠ .ine) :
    getIteration terminator.aluOp terminator.initial step terminator.limit
        terminator.invertCond =
      toIteration (if terminator.signed then idiv (terminator.limit - terminator.initial) step
        else udiv (terminator.limit - terminator.initial) step) := by
  unfold getIteration signed
  unfold actualOp at notIne ⊢
  cases op : invertComparisonIfNeeded terminator.aluOp terminator.invertCond with
  | ine => exact absurd op notIne
  | _ => rfl

/-- A positive quotient is the number of steps that fit in the distance. -/
theorem quotient_eq_iff (wide : 0 < w) {iterations : Nat} (positive : 0 < iterations) :
    let quotient := if terminator.signed then idiv (terminator.limit - terminator.initial) step
      else udiv (terminator.limit - terminator.initial) step
    (quotient.toNat < 2 ^ (w - 1) ∧ quotient.toNat = iterations) ↔
      SameSign terminator.distance (read terminator.signed step) ∧
        terminator.wholeSteps step < 2 ^ (w - 1) ∧ terminator.wholeSteps step = iterations := by
  simp only [wholeSteps, distance, read]
  split
  next =>
    constructor
    · rintro ⟨small, rfl⟩
      obtain ⟨sameSign, whole⟩ := idiv_of_pos wide positive small
      exact ⟨sameSign, whole ▸ small, whole.symm⟩
    · rintro ⟨sameSign, small, whole⟩
      rw [idiv_of_sameSign wide sameSign small]
      exact ⟨small, whole⟩
  next =>
    rw [udiv_toNat, Int.natAbs_natCast, Int.natAbs_natCast]
    constructor
    · rintro ⟨small, whole⟩
      refine ⟨.inl ?_, small, whole⟩
      obtain ⟨stepPos, le⟩ := Nat.div_pos_iff.mp (whole ▸ positive)
      omega
    · rintro ⟨_, small, whole⟩
      exact ⟨small, whole⟩

/-- A positive iteration count is the number of steps that fit in the distance, as an `int`. -/
theorem getIteration_eq_iff (wide : 0 < w) (notIne : terminator.actualOp ≠ .ine) {count : Nat}
    (positive : 0 < count) :
    getIteration terminator.aluOp terminator.initial step terminator.limit
        terminator.invertCond = count ↔
      terminator.Approaches step ∧ terminator.intSteps step = count := by
  rw [getIteration_eq notIne, toIteration_eq]
  constructor
  · rintro ⟨small, int, fits⟩
    obtain ⟨sameSign, whole, same⟩ := (quotient_eq_iff wide (by omega)).mp ⟨small, rfl⟩
    rw [← same] at int
    exact ⟨⟨sameSign, whole, by rwa [intSteps, int]⟩, int⟩
  · rintro ⟨⟨sameSign, whole, fits⟩, int⟩
    have stepsPos : 0 < terminator.wholeSteps step := by
      unfold intSteps at int
      omega
    obtain ⟨small, same⟩ := (quotient_eq_iff wide stepsPos).mpr ⟨sameSign, whole, rfl⟩
    rw [same]
    exact ⟨whole, int, int ▸ fits⟩

end Quotient

section Circle

variable (terminator step)

/-- Before the last tested count but one, the variable goes up past the end of its range and
comes to the limit from below, where the loop ends below the limit. -/
structure PassesTop : Prop where
  rises : 0 < read terminator.signed step
  upper : terminator.relation.IsUpper
  around : read terminator.signed terminator.limit < read terminator.signed terminator.initial
  starts : read terminator.signed terminator.initial +
    terminator.tripOffset * read terminator.signed step < low terminator.signed w + 2 ^ w
  passes : low terminator.signed w + 2 ^ w ≤ read terminator.signed terminator.initial +
    (terminator.intSteps step - 2 : Int) * read terminator.signed step

/-- The same downwards, where the loop ends above the limit. -/
structure PassesBottom : Prop where
  falls : read terminator.signed step < 0
  lower : terminator.relation.mirror.IsUpper
  around : read terminator.signed terminator.initial < read terminator.signed terminator.limit
  starts : low terminator.signed w ≤ read terminator.signed terminator.initial +
    terminator.tripOffset * read terminator.signed step
  passes : read terminator.signed terminator.initial +
    (terminator.intSteps step - 2 : Int) * read terminator.signed step < low terminator.signed w

/-- The variable leaves its range two tested steps before the limit or more, and the loop ends
there. -/
def LeavesRange : Prop :=
  terminator.Approaches step ∧ (terminator.PassesTop step ∨ terminator.PassesBottom step)

variable {terminator step}

theorem distance_eq (wide : 0 < w) :
    terminator.distance = wrap (low terminator.signed w) (2 ^ w)
      (read terminator.signed terminator.limit - read terminator.signed terminator.initial) := by
  rw [← read_ofInt wide, distance, Int.sub_eq_add_neg, BitVec.ofInt_add, BitVec.ofInt_neg,
    ofInt_read, ofInt_read, BitVec.sub_eq_add_neg]

theorem low_mem (wide : 0 < w) (signed : Bool) :
    low signed w ≤ 0 ∧ 0 < low signed w + 2 ^ w := by
  have zero := @read_mem w signed wide 0#w
  have isZero : read signed (0#w) = 0 := by
    cases signed <;> simp [read]
  rwa [isZero] at zero

/-- The distance is the difference of the numbers, up to one turn. -/
theorem distance_cases (wide : 0 < w) :
    let difference := read terminator.signed terminator.limit -
      read terminator.signed terminator.initial
    terminator.distance = difference ∨
      terminator.distance = difference + 2 ^ w ∧ difference < 0 ∨
      terminator.distance = difference - 2 ^ w ∧ 0 < difference := by
  have initial := @read_mem w terminator.signed wide terminator.initial
  have limit := @read_mem w terminator.signed wide terminator.limit
  have zero := low_mem wide terminator.signed
  have around := @distance_eq w terminator wide
  intro difference
  change _ = wrap _ _ difference at around
  have difference_eq : difference = read terminator.signed terminator.limit -
    read terminator.signed terminator.initial := rfl
  rcases lt_or_ge difference (low terminator.signed w) with below | above
  · rw [wrap_of_previous (by omega) below] at around
    exact .inr (.inl ⟨around, by omega⟩)
  · rcases lt_or_ge difference (low terminator.signed w + 2 ^ w) with inside | past
    · rw [wrap_of_mem above inside] at around
      exact .inl around
    · rw [wrap_of_next past (by omega)] at around
      exact .inr (.inr ⟨around, by omega⟩)

theorem rising (wide : 0 < w) (positive : 0 < read terminator.signed step)
    (ahead : 0 < terminator.distance) :
    Rising (low terminator.signed w) (2 ^ w) (read terminator.signed terminator.initial)
      (read terminator.signed terminator.limit) (read terminator.signed step)
      terminator.distance := by
  have initial := @read_mem w terminator.signed wide terminator.initial
  have limit := @read_mem w terminator.signed wide terminator.limit
  have zero := low_mem wide terminator.signed
  have cases := @distance_cases w terminator wide
  exact ⟨positive, initial, limit, by omega, by omega⟩

theorem falling (wide : 0 < w) (negative : read terminator.signed step < 0)
    (behind : terminator.distance < 0) :
    Rising (1 - low terminator.signed w - 2 ^ w) (2 ^ w)
      (-read terminator.signed terminator.initial) (-read terminator.signed terminator.limit)
      (-read terminator.signed step) (-terminator.distance) := by
  have initial := @read_mem w terminator.signed wide terminator.initial
  have limit := @read_mem w terminator.signed wide terminator.limit
  have zero := low_mem wide terminator.signed
  have cases := @distance_cases w terminator wide
  exact ⟨by omega, by omega, by omega, by omega, by omega⟩

theorem intSteps_mul_le :
    (terminator.intSteps step : Int) * (read terminator.signed step).natAbs ≤
      terminator.distance.natAbs := by
  have le : terminator.intSteps step * (read terminator.signed step).natAbs ≤
      terminator.distance.natAbs :=
    Nat.le_trans (Nat.mul_le_mul_right _ (Nat.mod_le _ _)) (Nat.div_mul_le_self _ _)
  exact_mod_cast le

/-- Where the loop ends seen from the other side. -/
theorem exitsAt_mirror (steps : Int) :
    terminator.relation.mirror.Holds (wrap (1 - low terminator.signed w - 2 ^ w) (2 ^ w)
        (-read terminator.signed terminator.initial + steps * -read terminator.signed step))
      (-read terminator.signed terminator.limit) ↔ terminator.ExitsAt step steps := by
  have opposite : -read terminator.signed terminator.initial +
      steps * -read terminator.signed step =
      -(read terminator.signed terminator.initial + steps * read terminator.signed step) := by
    ring
  rw [opposite, wrap_neg (two_pow_pos w), Relation.holds_mirror, ExitsAt]

/-- An exit two steps or more before the tested count means that the range was left. -/
theorem leavesRange_of_exitsAt (wide : 0 < w) (notIne : terminator.relation ≠ .ne)
    (approaches : terminator.Approaches step)
    (first : ¬terminator.ExitsAt step terminator.tripOffset) {k : Nat}
    (late : terminator.tripOffset ≤ k) (early : k + 2 ≤ terminator.intSteps step)
    (exits : terminator.ExitsAt step k) : terminator.LeavesRange step := by
  have reach := @intSteps_mul_le w terminator step
  refine ⟨approaches, ?_⟩
  rcases approaches.sameSign with ⟨ahead, positive⟩ | ⟨behind, negative⟩
  · left
    rw [Int.natAbs_of_nonneg (by omega), Int.natAbs_of_nonneg (by omega)] at reach
    obtain ⟨upper, around, starts, passes⟩ :=
      (rising wide positive ahead).passes_of_holds reach notIne first late early exits
    exact ⟨positive, upper, around, starts, passes⟩
  · right
    rw [Int.ofNat_natAbs_of_nonpos (by omega), Int.ofNat_natAbs_of_nonpos (by omega)] at reach
    have notIne' : terminator.relation.mirror ≠ .ne := by
      cases relation : terminator.relation <;> simp_all [Relation.mirror]
    rw [← exitsAt_mirror] at first exits
    obtain ⟨upper, around, starts, passes⟩ :=
      (falling wide negative behind).passes_of_holds reach notIne' first late early exits
    refine ⟨negative, upper, by omega, ?_, ?_⟩
    · rw [Int.mul_neg] at starts
      omega
    · rw [Int.mul_neg] at passes
      omega

theorem lt_of_passes {init step bound : Int} {start tested : Nat} (positive : 0 < step)
    (starts : init + start * step < bound) (passes : bound ≤ init + (tested - 2 : Int) * step) :
    start + 3 ≤ tested := by
  have less : (start : Int) * step < (tested - 2 : Int) * step := by
    omega
  have := Int.lt_of_mul_lt_mul_right less (Int.le_of_lt positive)
  omega

/-- The first two counts that are tested lie beyond the limit once the range was left. -/
theorem exitsAt_of_leavesRange (wide : 0 < w) (leaves : terminator.LeavesRange step) :
    terminator.tripOffset + 3 ≤ terminator.intSteps step ∧
      ¬terminator.ExitsAt step terminator.tripOffset ∧
      terminator.ExitsAt step (terminator.intSteps step - 2 : Int) ∧
      terminator.ExitsAt step (terminator.intSteps step - 1 : Int) := by
  have reach := @intSteps_mul_le w terminator step
  obtain ⟨approaches, ⟨positive, upper, around, starts, passes⟩ |
    ⟨negative, upper, around, starts, passes⟩⟩ := leaves
  · have ahead : 0 < terminator.distance := by
      have := approaches.sameSign
      unfold SameSign at this
      omega
    rw [Int.natAbs_of_nonneg (by omega), Int.natAbs_of_nonneg (by omega)] at reach
    obtain ⟨first, second, last⟩ :=
      (rising wide positive ahead).holds_of_passes reach upper around starts passes
    exact ⟨lt_of_passes positive starts passes, first, second, last⟩
  · have behind : terminator.distance < 0 := by
      have := approaches.sameSign
      unfold SameSign at this
      omega
    rw [Int.ofNat_natAbs_of_nonpos (by omega), Int.ofNat_natAbs_of_nonpos (by omega)] at reach
    have starts' : -read terminator.signed terminator.initial +
        terminator.tripOffset * -read terminator.signed step <
        1 - low terminator.signed w - 2 ^ w + 2 ^ w := by
      rw [Int.mul_neg]
      omega
    have passes' : 1 - low terminator.signed w - 2 ^ w + 2 ^ w ≤
        -read terminator.signed terminator.initial +
          (terminator.intSteps step - 2 : Int) * -read terminator.signed step := by
      rw [Int.mul_neg]
      omega
    have exits := (falling wide negative behind).holds_of_passes reach upper
      (by omega) starts' passes'
    rw [exitsAt_mirror, exitsAt_mirror, exitsAt_mirror] at exits
    exact ⟨lt_of_passes (Int.neg_pos_of_neg negative) starts' passes', exits⟩

end Circle

section Counting

theorem leavesAfter_iff (adds : terminator.update = .iadd step) (wide : 0 < w) (count : Nat) :
    terminator.LeavesAfter count ↔
      (∀ k, terminator.tripOffset ≤ k → k < count + terminator.tripOffset →
        ¬terminator.ExitsAt step k) ∧
      terminator.ExitsAt step (count + terminator.tripOffset : Nat) := by
  unfold LeavesAfter
  apply and_congr
  · constructor
    · intro stays k late early
      have here := stays (k - terminator.tripOffset) (by omega)
      rwa [evalCond_iff adds wide, Nat.sub_add_cancel late] at here
    · intro stays iteration early
      rw [evalCond_iff adds wide]
      exact stays _ (by omega) (by omega)
  · exact evalCond_iff adds wide count

theorem willBreakOnFirstIteration_iff (adds : terminator.update = .iadd step) (wide : 0 < w) :
    terminator.willBreakOnFirstIteration ↔ terminator.ExitsAt step terminator.tripOffset := by
  have first := evalCond_iff adds wide 0
  rwa [Nat.zero_add] at first

theorem testBiases_cons {iterInt bias : Int} (nonneg : 0 ≤ iterInt) (int : iterInt < 2 ^ 31)
    (least : -1 ≤ bias) (most : bias ≤ 1) (biases : List Int) (offset : Int) :
    terminator.testBiases step iterInt offset (bias :: biases) =
      if (1 ≤ iterInt + bias ∧ iterInt + bias < 2 ^ 31) ∧
          terminator.testIterations step (iterInt + bias) then iterInt + bias - offset
      else terminator.testBiases step iterInt offset biases := by
  rw [testBiases]
  rcases lt_or_ge (iterInt + bias) (2 ^ 31) with fits | overflows
  · rw [BitVec.toInt_ofInt_eq_self (by omega) (by omega) (by omega)]
    simp only [fits, and_true]
  · have last : iterInt + bias = 2 ^ 31 := by omega
    rw [last]
    simp

/-- The result is the least of the tested counts beyond the limit. -/
theorem exists_of_testBiases (wide : 0 < w) {iterInt : Int} (nonneg : 0 ≤ iterInt)
    (int : iterInt < 2 ^ 31) {biases : List Int} (sorted : biases.Pairwise (· < ·))
    (near : ∀ bias ∈ biases, -1 ≤ bias ∧ bias ≤ 1) {count : Nat}
    (result : terminator.testBiases step iterInt terminator.tripOffset biases = count) :
    ∃ bias ∈ biases, iterInt + bias = (count + terminator.tripOffset : Nat) ∧
      terminator.ExitsAt step (iterInt + bias) ∧
      ∀ earlier ∈ biases, earlier < bias → 1 ≤ iterInt + earlier →
        ¬terminator.ExitsAt step (iterInt + earlier) := by
  induction biases with
  | nil =>
      rw [testBiases] at result
      omega
  | cons head tail inductionHypothesis =>
      obtain ⟨above, sortedTail⟩ := List.pairwise_cons.mp sorted
      have nearHead := near head List.mem_cons_self
      rw [testBiases_cons nonneg int nearHead.1 nearHead.2] at result
      split at result
      next first =>
        refine ⟨head, List.mem_cons_self, by omega, ?_, ?_⟩
        · exact (testIterations_iff wide _).mp first.2
        · intro earlier member less
          rcases List.mem_cons.mp member with rfl | member
          · omega
          · have := above earlier member
            omega
      next notFirst =>
        obtain ⟨bias, member, same, exits, least⟩ := inductionHypothesis sortedTail
          (fun bias member => near bias (List.mem_cons_of_mem head member)) result
        refine ⟨bias, List.mem_cons_of_mem head member, same, exits, ?_⟩
        intro earlier member' less positive
        rcases List.mem_cons.mp member' with rfl | member'
        · intro exitsEarlier
          apply notFirst
          constructor
          · constructor
            · exact positive
            · have := near bias (List.mem_cons_of_mem earlier member)
              omega
          · exact (testIterations_iff wide _).mpr exitsEarlier
        · exact least earlier member' less positive

variable (terminator step) in
/-- The count around which the loop is tested. -/
def iterInt : Int :=
  getIteration terminator.aluOp terminator.initial step terminator.limit terminator.invertCond

theorem iterInt_lt (notIne : terminator.actualOp ≠ .ine)
    (nonneg : 0 ≤ terminator.iterInt step) : terminator.iterInt step < 2 ^ 31 := by
  obtain ⟨count, same⟩ := Int.eq_ofNat_of_zero_le nonneg
  rw [iterInt, getIteration_eq notIne] at same
  have fits := ((toIteration_eq _ count).mp same).2.2
  rw [iterInt, getIteration_eq notIne, same]
  exact_mod_cast fits

theorem relation_eq_ne_iff : terminator.relation = .ne ↔ terminator.actualOp = .ine := by
  unfold relation
  cases terminator.actualOp <;> cases terminator.limitRhs <;> simp

/-- What is returned for a variable that steps, past the first test. -/
theorem calculateIterations_iadd (adds : terminator.update = .iadd step) (wide : 0 < w)
    (maxUnrollIterations : Nat) (first : ¬terminator.ExitsAt step terminator.tripOffset) :
    terminator.calculateIterations maxUnrollIterations =
      if terminator.iterInt step < 0 then -1
      else if terminator.actualOp = .ine then terminator.iterInt step
      else terminator.testBiases step (terminator.iterInt step) terminator.tripOffset
        [-1, 0, 1] := by
  have trip : (if terminator.readsUpdate then 1 else 0 : Int) = terminator.tripOffset := by
    unfold tripOffset
    split <;> rfl
  rw [← willBreakOnFirstIteration_iff adds wide] at first
  rw [calculateIterations, if_neg first, trip, adds]
  rfl

/-- A variable that stands at the limit leaves it with the next step. -/
theorem leavesAfter_of_ine (adds : terminator.update = .iadd step) (wide : 0 < w)
    (ine : terminator.actualOp = .ine) (first : ¬terminator.ExitsAt step terminator.tripOffset)
    (nonneg : 0 ≤ terminator.iterInt step) :
    terminator.iterInt step = 1 ∧ terminator.LeavesAfter 1 := by
  have one : terminator.iterInt step = if step = 0#w then -1 else 1 := by
    change getIteration .. = _
    unfold actualOp at ine
    rw [getIteration, ine]
  have nonzero : step ≠ 0#w := by
    rintro rfl
    rw [one, if_pos rfl] at nonneg
    omega
  refine ⟨by rw [one, if_neg nonzero], ?_⟩
  rw [leavesAfter_iff adds wide]
  constructor
  · intro k late early
    obtain rfl : k = terminator.tripOffset := by omega
    exact first
  · rw [Nat.add_comm]
    rw [← compare_value_iff adds wide, compare_iff, relation_eq_ne_iff.mpr ine] at first ⊢
    have atLimit := not_not.mp first
    intro again
    have same := (read_inj.mp (again.trans atLimit.symm)).symm
    rw [value, value, Function.iterate_succ_apply', adds, Update.eval] at same
    exact nonzero (BitVec.self_eq_add_right.mp same)

/-- Counts of steps are exact where the variable does not leave its range. -/
theorem leavesAfter_of_iadd (adds : terminator.update = .iadd step) (wide : 0 < w)
    (maxUnrollIterations : Nat) (stays : ¬terminator.LeavesRange step) {count : Nat}
    (result : terminator.calculateIterations maxUnrollIterations = count) :
    terminator.LeavesAfter count := by
  by_cases first : terminator.ExitsAt step terminator.tripOffset
  · have breaks := (willBreakOnFirstIteration_iff adds wide).mpr first
    rw [calculateIterations, if_pos breaks] at result
    obtain rfl : count = 0 := by omega
    rw [leavesAfter_iff adds wide, Nat.zero_add]
    exact ⟨fun k _ _ => by omega, first⟩
  · rw [calculateIterations_iadd adds wide _ first] at result
    split at result
    next => omega
    next nonneg =>
      split at result
      next ine =>
        obtain ⟨one, leaves⟩ := leavesAfter_of_ine adds wide ine first (Int.not_lt.mp nonneg)
        obtain rfl : count = 1 := by omega
        exact leaves
      next notIne =>
        obtain ⟨bias, near, same, exits, least⟩ :=
          exists_of_testBiases wide (Int.not_lt.mp nonneg)
            (iterInt_lt notIne (Int.not_lt.mp nonneg)) (by decide) (by decide) result
        have near' : -1 ≤ bias ∧ bias ≤ 1 := by
          simp only [List.mem_cons, List.not_mem_nil, or_false] at near
          omega
        rw [leavesAfter_iff adds wide, ← same]
        refine ⟨?_, exits⟩
        intro k late early exitsEarly
        rcases lt_or_ge (k : Int) (terminator.iterInt step - 1) with far | tested
        · obtain ⟨iterations, int⟩ := Int.eq_ofNat_of_zero_le (Int.not_lt.mp nonneg)
          obtain ⟨approaches, int'⟩ :=
            (getIteration_eq_iff wide notIne (by omega : 0 < iterations)).mp int
          have notNe : terminator.relation ≠ .ne := fun ne => notIne (relation_eq_ne_iff.mp ne)
          apply stays
          exact leavesRange_of_exitsAt wide notNe approaches first late (by omega) exitsEarly
        · have away : k ≠ terminator.tripOffset := by
            rintro rfl
            exact first exitsEarly
          have here : (k : Int) = terminator.iterInt step + (k - terminator.iterInt step) := by
            omega
          rw [here] at exitsEarly
          refine least (k - terminator.iterInt step) ?_ (by omega) (by omega) exitsEarly
          simp only [List.mem_cons, List.not_mem_nil, or_false]
          omega

theorem stays_of_empiricalFrom (left : Nat) {iterCount count : Nat}
    (result : terminator.empiricalFrom (terminator.value iterCount) iterCount left = count) :
    (∀ iteration, iterCount ≤ iteration → iteration < count →
      ¬terminator.evalCond (terminator.value iteration)) ∧
      terminator.evalCond (terminator.value count) := by
  induction left generalizing iterCount with
  | zero =>
      rw [empiricalFrom] at result
      omega
  | succ left inductionHypothesis =>
      rw [empiricalFrom] at result
      split at result
      next exits =>
        obtain rfl : iterCount = count := by omega
        exact ⟨fun _ _ _ => by omega, exits⟩
      next stays =>
        have next : terminator.update.eval (terminator.value iterCount) =
            terminator.value (iterCount + 1) := by
          rw [value, value, Function.iterate_succ_apply']
        rw [next] at result
        obtain ⟨later, exits⟩ := @inductionHypothesis (iterCount + 1) result
        refine ⟨?_, exits⟩
        intro iteration late early
        rcases Nat.eq_or_lt_of_le late with rfl | late
        · exact stays
        · exact later iteration late early

theorem leavesAfter_of_empirical {maxUnrollIterations : Nat} {count : Nat}
    (result : terminator.getIterationEmpirical maxUnrollIterations = count) :
    terminator.LeavesAfter count := by
  obtain ⟨stays, exits⟩ := @stays_of_empiricalFrom w terminator _ 0 count result
  exact ⟨fun iteration early => stays iteration (Nat.zero_le iteration) early, exits⟩

/-- A variable that has left its range is counted too long. -/
theorem not_leavesAfter_of_leavesRange (adds : terminator.update = .iadd step) (wide : 0 < w)
    (maxUnrollIterations : Nat) (leaves : terminator.LeavesRange step) :
    ∃ count : Nat, terminator.calculateIterations maxUnrollIterations = count ∧
      ¬terminator.LeavesAfter count := by
  obtain ⟨many, first, before, last⟩ := exitsAt_of_leavesRange wide leaves
  have notIne : terminator.actualOp ≠ .ine := by
    intro ine
    have ne := relation_eq_ne_iff.mpr ine
    rcases leaves.2 with top | bottom
    · have := top.upper
      simp [ne, Relation.IsUpper] at this
    · have := bottom.lower
      simp [ne, Relation.mirror, Relation.IsUpper] at this
  have int : terminator.iterInt step = terminator.intSteps step :=
    (getIteration_eq_iff wide notIne (by omega)).mpr ⟨leaves.1, rfl⟩
  have fits := leaves.1.int
  refine ⟨terminator.intSteps step - 1 - terminator.tripOffset, ?_, ?_⟩
  · rw [calculateIterations_iadd adds wide _ first, int, if_neg (by omega), if_neg notIne,
      testBiases_cons (by omega) (by omega) (by omega) (by omega), if_pos]
    · omega
    · rw [testIterations_iff wide]
      exact ⟨by omega, last⟩
  · rw [leavesAfter_iff adds wide]
    rintro ⟨stays, _⟩
    apply stays (terminator.intSteps step - 2) (by omega) (by omega)
    rwa [Int.ofNat_sub (by omega)]

end Counting

/-- Counts are exact but for a variable that steps and leaves its range before the limit. -/
theorem exact_iff (wide : 0 < w) (terminator : Terminator w) (maxUnrollIterations : Nat) :
    (∀ count : Nat, terminator.calculateIterations maxUnrollIterations = count →
      terminator.LeavesAfter count) ↔
    ∀ step, terminator.update = .iadd step → ¬terminator.LeavesRange step := by
  constructor
  · intro exact step adds leaves
    obtain ⟨count, result, fails⟩ :=
      not_leavesAfter_of_leavesRange adds wide maxUnrollIterations leaves
    exact fails (exact count result)
  · intro stays count result
    cases update : terminator.update with
    | iadd step =>
        exact leavesAfter_of_iadd update wide maxUnrollIterations (stays step update) result
    | _ =>
        rw [calculateIterations, update] at result
        split at result
        next first =>
          obtain rfl : count = 0 := by omega
          exact ⟨fun _ _ => by omega, first⟩
        next => exact leavesAfter_of_empirical result

/-- Eight steps from zero on. -/
def countUp : Terminator 32 :=
  { initial := 0
    update := .iadd 3
    limit := 24
    aluOp := .ilt
    limitRhs := true
    invertCond := true
    readsUpdate := false }

theorem exact_iff_countUp :
    countUp.calculateIterations 32 = 8 ∧ countUp.LeavesAfter 8 := by
  have exact := (exact_iff (by decide) countUp 32).mpr
  have result : countUp.calculateIterations 32 = 8 := by decide
  refine ⟨result, exact ?_ 8 result⟩
  intro step adds leaves
  cases adds
  rcases leaves.2 with top | bottom
  · exact absurd top.around (by decide)
  · exact absurd bottom.falls (by decide)

/-- The variable starts close to the end of its range and the limit lies close to its start. -/
def wrapsAround : Terminator 32 :=
  { initial := 2147483600
    update := .iadd 10
    limit := -2147483600
    aluOp := .ige
    limitRhs := false
    invertCond := false
    readsUpdate := false }

theorem not_exact_wrapsAround :
    ¬∀ count : Nat, wrapsAround.calculateIterations 32 = count → wrapsAround.LeavesAfter count := by
  intro exact
  have stays := (exact 8 (by decide)).1 5 (by decide)
  exact stays (by decide)

end Terminator

end LoopAnalyze

end SpirvToDxil
