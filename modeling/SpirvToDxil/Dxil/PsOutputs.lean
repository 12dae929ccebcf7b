import Mathlib.Data.List.Nodup
import Mathlib.Data.List.Range
import SpirvToDxil.Util.RunningCount

/-!
# Driver locations of pixel shader outputs

`dxil_sort_ps_outputs` sorts the outputs, color outputs first, and numbers those that start at
component 0; an output that starts at another component takes the number before the next one.
-/

namespace SpirvToDxil.PsOutputs

open RunningCount

def VARYING_SLOT_PATCH0 : Nat := 64
def NIR_STREAM_PACKED : Nat := 1 <<< 8

def FRAG_RESULT_DEPTH : Nat := 0
def FRAG_RESULT_STENCIL : Nat := 1
def FRAG_RESULT_SAMPLE_MASK : Nat := 3
def FRAG_RESULT_DATA0 : Nat := 4
def FRAG_RESULT_MAX : Nat := 13

/-- A `nir_variable` of a fragment shader's outputs, whose location is a `gl_frag_result`. -/
structure PsOutput where
  location : Nat
  locationFrac : Fin 4
  index : Nat
  stream : Nat
  componentSlots : Nat
  driverLocation : Int
  isFragResult : location < FRAG_RESULT_MAX := by decide
  deriving DecidableEq

def variableLocationCmp (a b : PsOutput) : Int :=
  let aLocation := if a.location ≥ VARYING_SLOT_PATCH0 then a.location - VARYING_SLOT_PATCH0
    else a.location
  let bLocation := if b.location ≥ VARYING_SLOT_PATCH0 then b.location - VARYING_SLOT_PATCH0
    else b.location
  let aStream := a.stream % NIR_STREAM_PACKED
  let bStream := b.stream % NIR_STREAM_PACKED
  if aStream ≠ bStream then (aStream : Int) - bStream
  else if a.driverLocation ≠ b.driverLocation then a.driverLocation - b.driverLocation
  else if aLocation ≠ bLocation then (aLocation : Int) - bLocation
  else if a.locationFrac ≠ b.locationFrac then
    (a.locationFrac.val : Int) - b.locationFrac.val
  else if a.index ≠ b.index then (a.index : Int) - b.index
  else (b.componentSlots : Int) - a.componentSlots

/-- The first loop of `dxil_sort_ps_outputs`. -/
def classify (var : PsOutput) : PsOutput :=
  { var with
    driverLocation :=
      if var.location = FRAG_RESULT_DEPTH then 1
      else if var.location = FRAG_RESULT_STENCIL then 2
      else if var.location = FRAG_RESULT_SAMPLE_MASK then 3
      else 0 }

/-- What the sort leaves: nothing is lost and no variable stands behind one that it precedes.
Variables that compare equal may come in any order. -/
structure Sorted (vars sorted : List PsOutput) : Prop where
  perm : sorted.Perm vars
  ordered : sorted.Pairwise fun a b => variableLocationCmp a b ≤ 0

instance (vars sorted : List PsOutput) : Decidable (Sorted vars sorted) :=
  decidable_of_iff (sorted.Perm vars ∧ sorted.Pairwise fun a b => variableLocationCmp a b ≤ 0)
    ⟨fun sort => ⟨sort.1, sort.2⟩, fun sort => ⟨sort.perm, sort.ordered⟩⟩

/-- One turn of the last loop, when `driverLoc` numbers are taken. A fractional variable in
front of all others takes the number -1, which is stored without its sign. -/
def PsOutput.numbered (var : PsOutput) (driverLoc : Nat) : PsOutput :=
  { var with driverLocation := if var.locationFrac ≠ 0 then (driverLoc : Int) - 1 else driverLoc }

def numberOutputs : Nat → List PsOutput → List PsOutput
  | _, [] => []
  | driverLoc, var :: vars =>
    var.numbered driverLoc ::
      numberOutputs (if var.locationFrac ≠ 0 then driverLoc else driverLoc + 1) vars

/-! ## Consistent numbers -/

/-- `base` starts at component 0 of the place of `var`. -/
def IsBase (base var : PsOutput) : Prop :=
  base.location = var.location ∧ base.index = var.index ∧ base.locationFrac = 0

instance (base var : PsOutput) : Decidable (IsBase base var) :=
  inferInstanceAs (Decidable (_ ∧ _))

/-- A fractional output that has a base among the outputs. -/
def Based (outputs : List PsOutput) (var : PsOutput) : Prop :=
  var.locationFrac ≠ 0 ∧ ∃ base ∈ outputs, IsBase base var

instance (outputs : List PsOutput) (var : PsOutput) : Decidable (Based outputs var) :=
  inferInstanceAs (Decidable (_ ∧ _))

structure Consistent (outputs : List PsOutput) : Prop where
  shared : ∀ var ∈ outputs, Based outputs var →
    ∃ base ∈ outputs, IsBase base var ∧ var.driverLocation = base.driverLocation
  counted : (outputs.filter fun var => ¬Based outputs var).map PsOutput.driverLocation =
    (List.range (outputs.filter fun var => ¬Based outputs var).length).map Int.ofNat
  inRange : ∀ var ∈ outputs, 0 ≤ var.driverLocation ∧ var.driverLocation < outputs.length

/-- Every fractional variable has a base that sorts before it, with no other variable that
starts at component 0 in between. -/
def BasesPrecede (vars : List PsOutput) : Prop :=
  ∀ var ∈ vars, var.locationFrac ≠ 0 → ∃ base ∈ vars, IsBase base var ∧
    variableLocationCmp (classify base) (classify var) ≤ 0 ∧
    ∀ other ∈ vars, other.locationFrac = 0 →
      variableLocationCmp (classify other) (classify var) ≤ 0 →
      variableLocationCmp (classify other) (classify base) ≤ 0

instance (vars : List PsOutput) : Decidable (BasesPrecede vars) :=
  inferInstanceAs (Decidable (∀ _ ∈ vars, _))

/-! ## The comparison -/

theorem variableLocationCmp_self (var : PsOutput) : variableLocationCmp var var = 0 := by
  simp [variableLocationCmp]

/-- One key of a lexicographic comparison and the comparison of the rest. -/
theorem key_eq {first second rest rest' : Int} {Same : Prop} [Decidable Same]
    (apart : ¬Same → first + second = 0 ∧ first ≠ 0)
    (below : (if ¬Same then first else rest) ≤ 0) (above : (if ¬Same then second else rest') ≤ 0) :
    Same ∧ rest ≤ 0 ∧ rest' ≤ 0 := by
  by_cases same : Same
  · rw [if_neg (not_not.mpr same)] at below above
    exact ⟨same, below, above⟩
  · have := apart same
    rw [if_pos same] at below above
    omega

theorem same_of_cmp {a b : PsOutput} (first : variableLocationCmp a b ≤ 0)
    (second : variableLocationCmp b a ≤ 0) :
    a.location = b.location ∧ a.index = b.index ∧ a.locationFrac = b.locationFrac := by
  have below (var : PsOutput) : ¬var.location ≥ VARYING_SLOT_PATCH0 :=
    Nat.not_le_of_lt (var.isFragResult.trans (by decide))
  simp only [variableLocationCmp, if_neg (below a), if_neg (below b), ne_eq,
    @eq_comm _ (b.stream % _), @eq_comm _ b.driverLocation, @eq_comm _ b.location,
    @eq_comm _ b.locationFrac, @eq_comm _ b.index] at first second
  obtain ⟨_, first, second⟩ := key_eq (by omega) first second
  obtain ⟨_, first, second⟩ := key_eq (by omega) first second
  obtain ⟨location, first, second⟩ := key_eq (by omega) first second
  obtain ⟨frac, first, second⟩ := key_eq (by omega) first second
  obtain ⟨index, _, _⟩ := key_eq (by omega) first second
  exact ⟨location, index, frac⟩

/-! ## The numbers -/

/-- The variables that take a number of their own. -/
def whole (var : PsOutput) : Bool := var.locationFrac = 0

theorem whole_iff {var : PsOutput} : whole var ↔ var.locationFrac = 0 := decide_eq_true_iff

@[simp]
theorem numbered_locationFrac (var : PsOutput) (driverLoc : Nat) :
    (var.numbered driverLoc).locationFrac = var.locationFrac := rfl

theorem driverLocation_whole {var : PsOutput} (frac : var.locationFrac = 0) (driverLoc : Nat) :
    (var.numbered driverLoc).driverLocation = driverLoc :=
  if_neg (not_not.mpr frac)

theorem driverLocation_frac {var : PsOutput} (frac : var.locationFrac ≠ 0) (driverLoc : Nat) :
    (var.numbered driverLoc).driverLocation = (driverLoc : Int) - 1 :=
  if_pos frac

@[simp]
theorem length_numberOutputs (driverLoc : Nat) (vars : List PsOutput) :
    (numberOutputs driverLoc vars).length = vars.length := by
  induction vars generalizing driverLoc with
  | nil => rfl
  | cons var vars inductionHypothesis => simp [numberOutputs, inductionHypothesis]

theorem getElem_numberOutputs {driverLoc : Nat} {vars : List PsOutput} {i : Nat}
    (bound : i < vars.length) (bound' : i < (numberOutputs driverLoc vars).length) :
    (numberOutputs driverLoc vars)[i] =
      vars[i].numbered (driverLoc + before whole vars i) := by
  induction vars generalizing driverLoc i with
  | nil => exact absurd bound (Nat.not_lt_zero i)
  | cons var vars inductionHypothesis =>
      cases i with
      | zero => rfl
      | succ i =>
          have inside : i < vars.length := Nat.lt_of_succ_lt_succ bound
          rw [before_cons]
          simp only [numberOutputs, List.getElem_cons_succ]
          rw [inductionHypothesis inside]
          by_cases frac : var.locationFrac = 0
          · rw [if_neg (not_not.mpr frac), if_pos (whole_iff.mpr frac), Nat.add_assoc]
          · rw [if_pos frac, if_neg (whole_iff.not.mpr frac), Nat.zero_add]

theorem numberOutputs_whole (driverLoc : Nat) (vars : List PsOutput) :
    ((numberOutputs driverLoc vars).filter whole).map PsOutput.driverLocation =
      (List.range' driverLoc (vars.countP whole)).map Int.ofNat := by
  induction vars generalizing driverLoc with
  | nil => rfl
  | cons var vars inductionHypothesis =>
      rw [numberOutputs, List.countP_cons]
      by_cases frac : var.locationFrac = 0
      · have isWhole : whole (var.numbered driverLoc) := whole_iff.mpr frac
        rw [List.filter_cons_of_pos isWhole, List.map_cons, inductionHypothesis,
          if_pos (whole_iff.mpr frac), List.range'_succ, List.map_cons,
          if_neg (not_not.mpr frac), driverLocation_whole frac]
        rfl
      · have notWhole : ¬whole (var.numbered driverLoc) := whole_iff.not.mpr frac
        rw [List.filter_cons_of_neg notWhole, inductionHypothesis,
          if_neg (whole_iff.not.mpr frac), if_pos frac, Nat.add_zero]

/-- Every fractional variable directly follows a base, other fractions aside. -/
def BasesLast (sorted : List PsOutput) : Prop :=
  ∀ (i : Nat) (bound : i < sorted.length), sorted[i].locationFrac ≠ 0 →
    ∃ (j : Nat) (inside : j < sorted.length), j < i ∧ IsBase sorted[j] sorted[i] ∧
      before whole sorted j + 1 = before whole sorted i

section Numbers

variable {sorted : List PsOutput}

theorem mem_numberOutputs {var : PsOutput} :
    var ∈ numberOutputs 0 sorted ↔ ∃ (i : Nat) (bound : i < sorted.length),
      sorted[i].numbered (before whole sorted i) = var := by
  rw [List.mem_iff_getElem]
  constructor
  · rintro ⟨i, bound, rfl⟩
    rw [length_numberOutputs] at bound
    exact ⟨i, bound, by rw [getElem_numberOutputs bound, Nat.zero_add]⟩
  · rintro ⟨i, bound, rfl⟩
    have bound' : i < (numberOutputs 0 sorted).length := by rwa [length_numberOutputs]
    exact ⟨i, bound', by rw [getElem_numberOutputs bound, Nat.zero_add]⟩

theorem based_of_basesLast (bases : BasesLast sorted) {var : PsOutput}
    (member : var ∈ numberOutputs 0 sorted) (frac : var.locationFrac ≠ 0) :
    Based (numberOutputs 0 sorted) var := by
  obtain ⟨i, bound, rfl⟩ := mem_numberOutputs.mp member
  obtain ⟨j, inside, _, isBase, _⟩ := bases i bound frac
  exact ⟨frac, _, mem_numberOutputs.mpr ⟨j, inside, rfl⟩, isBase⟩

theorem consistent_of_basesLast (bases : BasesLast sorted) :
    Consistent (numberOutputs 0 sorted) where
  shared := by
    intro var member based
    obtain ⟨i, bound, rfl⟩ := mem_numberOutputs.mp member
    obtain ⟨j, inside, _, isBase, count⟩ := bases i bound based.1
    refine ⟨_, mem_numberOutputs.mpr ⟨j, inside, rfl⟩, isBase, ?_⟩
    have frac : sorted[i].locationFrac ≠ 0 := based.1
    have start : sorted[j].locationFrac = 0 := isBase.2.2
    rw [driverLocation_frac frac, driverLocation_whole start]
    omega
  counted := by
    have own : (numberOutputs 0 sorted).filter (fun var => ¬Based (numberOutputs 0 sorted) var) =
        (numberOutputs 0 sorted).filter whole := by
      apply List.filter_congr
      intro var member
      apply decide_eq_decide.mpr
      constructor
      · intro unbased
        by_contra frac
        exact unbased (based_of_basesLast bases member frac)
      · intro frac based
        exact based.1 frac
    have length := congrArg List.length (numberOutputs_whole 0 sorted)
    rw [List.length_map, List.length_map, List.length_range'] at length
    rw [own, numberOutputs_whole, length, List.range_eq_range']
  inRange := by
    intro var member
    obtain ⟨i, bound, rfl⟩ := mem_numberOutputs.mp member
    have small := @before_le_position _ whole sorted i
    rw [length_numberOutputs]
    by_cases frac : sorted[i].locationFrac = 0
    · rw [driverLocation_whole frac]
      omega
    · obtain ⟨j, _, _, _, count⟩ := bases i bound frac
      rw [driverLocation_frac frac]
      omega

theorem Consistent.number_ne {outputs : List PsOutput} (consistent : Consistent outputs)
    {i j : Nat} (bound : i < outputs.length) (inside : j < i)
    (first : ¬Based outputs outputs[j]) (second : ¬Based outputs outputs[i]) :
    outputs[j].driverLocation ≠ outputs[i].driverLocation := by
  have nodup : (outputs.filter fun var => ¬Based outputs var).Pairwise fun a b =>
      a.driverLocation ≠ b.driverLocation := by
    rw [← List.pairwise_map, consistent.counted]
    exact List.Nodup.map (fun _ _ => Int.ofNat.inj) List.nodup_range
  rw [List.pairwise_filter] at nodup
  exact List.pairwise_iff_getElem.mp nodup j i _ bound inside (decide_eq_true first)
    (decide_eq_true second)

theorem basesLast_of_consistent (consistent : Consistent (numberOutputs 0 sorted)) :
    BasesLast sorted := by
  intro i bound frac
  have bound' : i < (numberOutputs 0 sorted).length := by rwa [length_numberOutputs]
  have here := getElem_numberOutputs bound bound'
  rw [Nat.zero_add] at here
  have based : Based (numberOutputs 0 sorted) (sorted[i].numbered (before whole sorted i)) := by
    by_contra unbased
    have range := consistent.inRange _ (mem_numberOutputs.mpr ⟨i, bound, rfl⟩)
    rw [driverLocation_frac frac] at range
    have positive : 0 < before whole sorted i := by omega
    obtain ⟨j, inside, earlier, isWhole, count⟩ := exists_last (Nat.le_of_lt bound) positive
    have there := getElem_numberOutputs inside (earlier.trans bound')
    rw [Nat.zero_add] at there
    have numbers := consistent.number_ne bound' earlier
      (by rw [there]; exact fun based => based.1 (whole_iff.mp isWhole)) (by rwa [here])
    apply numbers
    rw [here, there, driverLocation_frac frac, driverLocation_whole (whole_iff.mp isWhole)]
    omega
  obtain ⟨base, member, isBase, same⟩ :=
    consistent.shared _ (mem_numberOutputs.mpr ⟨i, bound, rfl⟩) based
  obtain ⟨j, inside, rfl⟩ := mem_numberOutputs.mp member
  have start : sorted[j].locationFrac = 0 := isBase.2.2
  rw [driverLocation_frac frac, driverLocation_whole start] at same
  refine ⟨j, inside, ?_, isBase, by omega⟩
  by_contra later
  have := @before_mono _ whole sorted _ _ (Nat.le_of_not_lt later)
  omega

end Numbers

/-! ## The order -/

section Order

variable {vars sorted : List PsOutput} (sort : Sorted (vars.map classify) sorted)
include sort

theorem Sorted.exists_getElem {var : PsOutput} (member : var ∈ vars) :
    ∃ (i : Nat) (bound : i < sorted.length), sorted[i] = classify var :=
  List.mem_iff_getElem.mp (sort.perm.mem_iff.mpr (List.mem_map_of_mem member))

theorem Sorted.exists_of_getElem {i : Nat} (bound : i < sorted.length) :
    ∃ var ∈ vars, classify var = sorted[i] :=
  List.mem_map.mp (sort.perm.mem_iff.mp (List.getElem_mem bound))

omit sort in
theorem Sorted.cmp_le (sort : Sorted vars sorted) {i j : Nat} (bound : j < sorted.length)
    (order : i ≤ j) : variableLocationCmp sorted[i] sorted[j] ≤ 0 := by
  rcases Nat.lt_or_eq_of_le order with earlier | rfl
  · exact List.pairwise_iff_getElem.mp sort.ordered i j _ bound earlier
  · exact Int.le_of_eq (variableLocationCmp_self _)

omit sort in
/-- A variable that takes a number and does not sort behind a fractional one stands before it. -/
theorem Sorted.lt_of_cmp (sort : Sorted vars sorted) {i j : Nat} (bound : i < sorted.length)
    (inside : j < sorted.length) (start : sorted[j].locationFrac = 0)
    (frac : sorted[i].locationFrac ≠ 0)
    (precedes : variableLocationCmp sorted[j] sorted[i] ≤ 0) : j < i := by
  by_contra later
  have same := same_of_cmp precedes (sort.cmp_le inside (Nat.le_of_not_lt later))
  exact frac (same.2.2.symm.trans start)

theorem Sorted.basesPrecede_of_basesLast (bases : BasesLast sorted) : BasesPrecede vars := by
  intro var member frac
  obtain ⟨i, bound, here⟩ := sort.exists_getElem member
  have frac' : sorted[i].locationFrac ≠ 0 := by rwa [here]
  obtain ⟨j, inside, earlier, isBase, count⟩ := bases i bound frac'
  obtain ⟨base, isVar, there⟩ := sort.exists_of_getElem inside
  have isWhole := whole_iff.mpr isBase.2.2
  rw [← there, here] at isBase
  refine ⟨base, isVar, isBase, ?_, ?_⟩
  · rw [there, ← here]
    exact sort.cmp_le bound (Nat.le_of_lt earlier)
  · intro other otherMember start precedes
    obtain ⟨k, inside', elsewhere⟩ := sort.exists_getElem otherMember
    have start' : sorted[k].locationFrac = 0 := by rwa [elsewhere]
    rw [there, ← elsewhere]
    rw [← here, ← elsewhere] at precedes
    have before := sort.lt_of_cmp bound inside' start' frac' precedes
    apply sort.cmp_le inside
    by_contra between
    -- a second variable in front of the fraction would count once more
    have first := before_lt (Nat.lt_of_not_le between) inside isWhole
    have second := before_lt before inside' (whole_iff.mpr start')
    omega

theorem Sorted.basesLast_of_basesPrecede (bases : BasesPrecede vars) : BasesLast sorted := by
  intro i bound frac
  obtain ⟨var, member, here⟩ := sort.exists_of_getElem bound
  rw [← here] at frac
  obtain ⟨base, baseMember, isBase, precedes, closest⟩ := bases var member frac
  obtain ⟨k, inside, there⟩ := sort.exists_getElem baseMember
  have start : sorted[k].locationFrac = 0 := by
    rw [there]
    exact isBase.2.2
  rw [← there, here] at precedes
  rw [here] at frac
  have earlier := sort.lt_of_cmp bound inside start frac precedes
  have positive := before_lt earlier inside (whole_iff.mpr start)
  obtain ⟨j, inside', earlier', isWhole, count⟩ :=
    exists_last (Nat.le_of_lt bound) (Nat.zero_lt_of_lt positive)
  refine ⟨j, inside', earlier', ?_, count⟩
  have behind : k ≤ j := by
    by_contra before
    have := before_lt (Nat.lt_of_not_le before) inside' isWhole
    omega
  obtain ⟨last, lastMember, elsewhere⟩ := sort.exists_of_getElem inside'
  have startLast : (classify last).locationFrac = 0 := by
    rw [elsewhere]
    exact whole_iff.mp isWhole
  have atMost := closest last lastMember startLast (by
    rw [elsewhere, here]
    exact sort.cmp_le bound (Nat.le_of_lt earlier'))
  rw [elsewhere, ← there] at atMost
  have same := same_of_cmp atMost (sort.cmp_le inside' behind)
  rw [IsBase, same.1, same.2.1, there, ← here]
  exact ⟨isBase.1, isBase.2.1, whole_iff.mp isWhole⟩

end Order

/-- The numbers are consistent exactly when every fractional output sorts right behind its
base. -/
theorem consistent_iff {vars sorted : List PsOutput} (sort : Sorted (vars.map classify) sorted) :
    Consistent (numberOutputs 0 sorted) ↔ BasesPrecede vars := by
  constructor
  · intro consistent
    exact sort.basesPrecede_of_basesLast (basesLast_of_consistent consistent)
  · intro bases
    exact consistent_of_basesLast (sort.basesLast_of_basesPrecede bases)

/-- An output of the first render target. -/
def color (index : Nat) (locationFrac : Fin 4) (componentSlots : Nat) : PsOutput :=
  ⟨FRAG_RESULT_DATA0, locationFrac, index, 0, componentSlots, 0, by decide⟩

def depth : PsOutput := ⟨FRAG_RESULT_DEPTH, 0, 0, 0, 1, 0, by decide⟩

theorem consistent_iff_splitColor :
    Consistent (numberOutputs 0 ([color 0 0 2, color 0 2 2, depth].map classify)) ↔
      BasesPrecede [depth, color 0 2 2, color 0 0 2] :=
  @consistent_iff [depth, color 0 2 2, color 0 0 2]
    ([color 0 0 2, color 0 2 2, depth].map classify) (by decide)

/-- The fraction of the first color takes the number of the second source. -/
theorem not_consistent_dualSource :
    ¬∀ vars sorted : List PsOutput, Sorted (vars.map classify) sorted →
      Consistent (numberOutputs 0 sorted) := by
  intro all
  have sort : Sorted ([color 0 0 1, color 1 0 4, color 0 1 3].map classify)
      ([color 0 0 1, color 1 0 4, color 0 1 3].map classify) := by decide
  have bases := sort.basesPrecede_of_basesLast (basesLast_of_consistent (all _ _ sort))
  revert bases
  decide

end SpirvToDxil.PsOutputs
