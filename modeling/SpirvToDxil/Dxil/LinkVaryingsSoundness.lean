import Mathlib.Algebra.BigOperators.Group.Multiset.Basic
import Mathlib.Data.Multiset.UnionInter
import Mathlib.Data.Prod.Lex
import SpirvToDxil.Dxil.LinkVaryingsLeft

/-!
# When linked signatures agree

A driver location is the number of slots of the variables of its kind that were sorted in front.
Each side is sorted by itself. What stands in front of a varying on both sides counts for nothing:
the location is the same exactly when what stands in front on one side only takes as many slots as
what stands there on the other side only, and no other variable compares equal.
-/

namespace SpirvToDxil.LinkVaryings

open Placement

/-! ## The order -/

def key (var : Variable) : Int ×ₗ Int ×ₗ Int ×ₗ Int ×ₗ Int ×ₗ Int :=
  let location := if var.location ≥ VARYING_SLOT_PATCH0 then var.location - VARYING_SLOT_PATCH0
    else var.location
  toLex ((var.stream % NIR_STREAM_PACKED : Nat), toLex (var.driverLocation, toLex (location,
    toLex (var.locationFrac, toLex (var.index, -var.type.getComponentSlots)))))

theorem step_le_iff {a b : Nat} {rest : Int} {Rest : Prop} (same : rest ≤ 0 ↔ Rest) :
    (if a ≠ b then (a : Int) - b else rest) ≤ 0 ↔ (a : Int) < b ∨ (a : Int) = b ∧ Rest := by
  by_cases equal : a = b
  · simp [equal, same]
  · have apart : (a : Int) ≠ b := by exact_mod_cast equal
    rw [if_pos equal]
    constructor
    · intro below
      exact Or.inl (by omega)
    · rintro (below | ⟨equal, _⟩)
      · omega
      · exact absurd equal apart

theorem precedes_iff_key {a b : Variable} : Precedes a b ↔ key a ≤ key b := by
  have last : (b.type.getComponentSlots : Int) - a.type.getComponentSlots ≤ 0 ↔
      -(a.type.getComponentSlots : Int) ≤ -b.type.getComponentSlots := by omega
  unfold Precedes variableLocationCmp key
  simp only [Prod.Lex.toLex_le_toLex]
  exact step_le_iff (step_le_iff (step_le_iff (step_le_iff (step_le_iff last))))

theorem precedes_total (a b : Variable) : Precedes a b ∨ Precedes b a := by
  rw [precedes_iff_key, precedes_iff_key]
  exact le_total (key a) (key b)

theorem precedes_trans (a b c : Variable) (first : Precedes a b) (second : Precedes b c) :
    Precedes a c := by
  rw [precedes_iff_key] at first second ⊢
  exact first.trans second

theorem precedes_refl (a : Variable) : Precedes a a := precedes_iff_key.mpr (le_refl (key a))

/-! ## Running locations -/

@[simp] theorem slots_located (stage other : ShaderStage) (front : List Variable) (var : Variable) :
    (located stage front var).slots other = var.slots other := rfl

theorem numberVariables_eq (stage : ShaderStage) (done rest : List Variable) :
    numberVariables stage (total (kindSlots stage false) done) (total (kindSlots stage true) done)
        rest =
      rest.mapIdx (fun i var => located stage (done ++ rest.take i) var) := by
  induction rest generalizing done with
  | nil => rfl
  | cons var rest inductionHypothesis =>
      have later := inductionHypothesis (done ++ [var])
      rw [total_append, total_append] at later
      simp only [List.append_assoc, List.singleton_append] at later
      rw [numberVariables, List.mapIdx_cons, List.take_zero, List.append_nil]
      simp only [List.take_succ_cons]
      rw [← later]
      cases isPatch : var.patch with
      | false => simp [located, kindSlots, isPatch, total]
      | true => simp [located, kindSlots, isPatch, total]

theorem mem_numberVariables {stage : ShaderStage} {sorted : List Variable} {var' : Variable} :
    var' ∈ numberVariables stage 0 0 sorted ↔
      ∃ front var back, sorted = front ++ var :: back ∧ var' = located stage front var := by
  have numbered := numberVariables_eq stage [] sorted
  simp only [total, List.map_nil, List.sum_nil, List.nil_append] at numbered
  rw [numbered, List.mem_mapIdx]
  constructor
  · rintro ⟨i, inside, rfl⟩
    refine ⟨sorted.take i, sorted[i], sorted.drop (i + 1), ?_, rfl⟩
    rw [List.getElem_cons_drop, List.take_append_drop]
  · rintro ⟨front, var, back, rfl, rfl⟩
    exact ⟨front.length, by simp, by simp⟩

/-! ## Agreement -/

/-- A varying that is on both sides, with as many slots on both. -/
structure Matches (stage prevStage : ShaderStage) (output input : Variable) : Prop where
  location : output.location = input.location
  locationFrac : output.locationFrac = input.locationFrac
  patch : output.patch = input.patch
  slots : output.slots prevStage = input.slots stage

def Disjoint (stage : ShaderStage) (vars : List Variable) : Prop :=
  vars.Pairwise (fun a b => a.patch = b.patch →
    a.driverLocation + a.slots stage ≤ b.driverLocation ∨
      b.driverLocation + b.slots stage ≤ a.driverLocation)

structure SignaturesAgree (stage prevStage : ShaderStage) (inputs outputs : List Variable) :
    Prop where
  agree : ∀ output ∈ outputs, ∀ input ∈ inputs, Matches stage prevStage output input →
    output.driverLocation = input.driverLocation
  inputsDisjoint : Disjoint stage inputs
  outputsDisjoint : Disjoint prevStage outputs

theorem disjoint_numberVariables (stage : ShaderStage) (sorted : List Variable) :
    Disjoint stage (numberVariables stage 0 0 sorted) := by
  have numbered := numberVariables_eq stage [] sorted
  simp only [total, List.map_nil, List.sum_nil, List.nil_append] at numbered
  rw [numbered]
  apply List.pairwise_iff_getElem.mpr
  intro i j inside inside' earlier sameKind
  simp only [List.getElem_mapIdx, List.length_mapIdx] at inside inside' sameKind ⊢
  have samePatch : sorted[i].patch = sorted[j].patch := sameKind
  left
  have upTo : (sorted.take (i + 1)) ++ (sorted.drop (i + 1)).take (j - (i + 1)) =
      sorted.take j := by
    rw [← List.take_add]
    congr 1
    omega
  show total _ (sorted.take i) + sorted[i].slots stage ≤ total _ (sorted.take j)
  calc total (kindSlots stage sorted[i].patch) (sorted.take i) + sorted[i].slots stage
      = total (kindSlots stage sorted[j].patch) (sorted.take (i + 1)) := by
        rw [List.take_succ_eq_append_getElem inside, total_append, samePatch]
        simp [total, kindSlots, samePatch]
    _ ≤ total (kindSlots stage sorted[j].patch) (sorted.take j) := by
        rw [← upTo, total_append]
        exact Nat.le_add_right _ _

/-- In front of a varying that is on both sides, the variables of its kind that may stand there on
one side take as many slots as those that have to stand there on the other side. -/
structure Balanced (stage prevStage : ShaderStage) (inputs outputs : List Variable)
    (output input : Variable) : Prop where
  outputs_le : greatest Precedes (kindSlots prevStage output.patch) outputs output =
    least Precedes (kindSlots stage input.patch) inputs input
  inputs_le : greatest Precedes (kindSlots stage input.patch) inputs input =
    least Precedes (kindSlots prevStage output.patch) outputs output

theorem reassigns_mem {stage : ShaderStage} {classified vars : List Variable}
    (reassigns : Reassigns stage classified vars) {located' : Variable} (member : located' ∈ vars) :
    ∃ front, ∃ var ∈ classified, located' = located stage front var ∧
      least Precedes (kindSlots stage var.patch) classified var ≤ located'.driverLocation ∧
      located'.driverLocation ≤ greatest Precedes (kindSlots stage var.patch) classified var := by
  obtain ⟨sorted, sort, rfl⟩ := reassigns
  obtain ⟨front, var, back, rfl, rfl⟩ := mem_numberVariables.mp member
  refine ⟨front, var, ?_, rfl, ?_, ?_⟩
  · exact sort.perm.mem_iff.mp (List.mem_append_right _ List.mem_cons_self)
  · exact sort.least_le precedes_refl
  · exact sort.le_greatest

theorem exists_reassigns_least (stage : ShaderStage) {classified : List Variable} {var : Variable}
    (member : var ∈ classified) :
    ∃ vars front, Reassigns stage classified vars ∧ located stage front var ∈ vars ∧
      total (kindSlots stage var.patch) front =
        least Precedes (kindSlots stage var.patch) classified var := by
  obtain ⟨front, back, sort, same⟩ := exists_sorted_least precedes_total precedes_trans member
  refine ⟨_, front, ⟨_, sort, rfl⟩, ?_, same⟩
  exact mem_numberVariables.mpr ⟨front, var, back, rfl, rfl⟩

theorem exists_reassigns_greatest (stage : ShaderStage) {classified : List Variable}
    {var : Variable} (member : var ∈ classified) :
    ∃ vars front, Reassigns stage classified vars ∧ located stage front var ∈ vars ∧
      total (kindSlots stage var.patch) front =
        greatest Precedes (kindSlots stage var.patch) classified var := by
  obtain ⟨front, back, sort, same⟩ := exists_sorted_greatest precedes_total precedes_trans member
  refine ⟨_, front, ⟨_, sort, rfl⟩, ?_, same⟩
  exact mem_numberVariables.mpr ⟨front, var, back, rfl, rfl⟩

theorem Matches.located {stage prevStage : ShaderStage} {output input : Variable}
    (both : Matches stage prevStage output input) (front back : List Variable) :
    Matches stage prevStage (located prevStage front output) (located stage back input) :=
  ⟨both.location, both.locationFrac, both.patch, both.slots⟩

section Stages

variable (stages : Stages)

/-- The signatures agree, whatever the sorts make of variables that compare equal. -/
def Stages.Agree : Prop :=
  ∀ inputs outputs, stages.Reassigns inputs outputs →
    SignaturesAgree stages.nir.stage stages.prevStageNir.stage inputs outputs

/-- Every varying that is on both sides has as much in front of it on one as on the other. -/
def Stages.Balanced : Prop :=
  ∀ output ∈ stages.classifiedOutputs, ∀ input ∈ stages.classifiedInputs,
    Matches stages.nir.stage stages.prevStageNir.stage output input →
      LinkVaryings.Balanced stages.nir.stage stages.prevStageNir.stage stages.classifiedInputs
        stages.classifiedOutputs output input

variable {stages}

theorem agree_of_balanced (balanced : stages.Balanced) : stages.Agree := by
  rintro inputs outputs ⟨inputsReassign, outputsReassign⟩
  refine ⟨?_, ?_, ?_⟩
  · intro output outputMember input inputMember both
    obtain ⟨front, outVar, outListed, rfl, outLow, outHigh⟩ :=
      reassigns_mem outputsReassign outputMember
    obtain ⟨back, inVar, inListed, rfl, inLow, inHigh⟩ := reassigns_mem inputsReassign inputMember
    have balance := balanced outVar outListed inVar inListed
      ⟨both.location, both.locationFrac, both.patch, both.slots⟩
    have outputs_le := balance.outputs_le
    have inputs_le := balance.inputs_le
    omega
  · obtain ⟨sorted, _, rfl⟩ := inputsReassign
    exact disjoint_numberVariables _ sorted
  · obtain ⟨sorted, _, rfl⟩ := outputsReassign
    exact disjoint_numberVariables _ sorted

theorem balanced_of_agree (agree : stages.Agree) : stages.Balanced := by
  intro output outputMember input inputMember both
  constructor
  · obtain ⟨outputs, front, outputsReassign, outputPlaced, greatestOut⟩ :=
      exists_reassigns_greatest stages.prevStageNir.stage outputMember
    obtain ⟨inputs, back, inputsReassign, inputPlaced, leastIn⟩ :=
      exists_reassigns_least stages.nir.stage inputMember
    have same := (agree inputs outputs ⟨inputsReassign, outputsReassign⟩).agree _ outputPlaced _
      inputPlaced (both.located front back)
    rw [← greatestOut, ← leastIn]
    exact same
  · obtain ⟨outputs, front, outputsReassign, outputPlaced, leastOut⟩ :=
      exists_reassigns_least stages.prevStageNir.stage outputMember
    obtain ⟨inputs, back, inputsReassign, inputPlaced, greatestIn⟩ :=
      exists_reassigns_greatest stages.nir.stage inputMember
    have same := (agree inputs outputs ⟨inputsReassign, outputsReassign⟩).agree _ outputPlaced _
      inputPlaced (both.located front back)
    rw [← greatestIn, ← leastOut]
    exact same.symm

theorem agree_iff_balanced : stages.Agree ↔ stages.Balanced :=
  ⟨balanced_of_agree, agree_of_balanced⟩

end Stages

/-! ## The declared variables -/

/-- What the sort goes by: the stream, the class that the mask of the other stage gives the
variable, the location, the component, the index and the size. -/
def sortKey (otherStageMask : Nat) (var : Variable) : Int ×ₗ Int ×ₗ Int ×ₗ Int ×ₗ Int ×ₗ Int :=
  let location := if var.location ≥ VARYING_SLOT_PATCH0 then var.location - VARYING_SLOT_PATCH0
    else var.location
  toLex ((var.stream % NIR_STREAM_PACKED : Nat),
    toLex (nirVarToDxilSysvalueType var otherStageMask none, toLex (location,
      toLex (var.locationFrac, toLex (var.index, -var.type.getComponentSlots)))))

/-- No other variable of the kind that takes slots compares equal. -/
def Alone (stage : ShaderStage) (otherStageMask : Nat) (vars : List Variable) (var : Variable) :
    Prop :=
  ∀ other ∈ vars.erase var, other.patch = var.patch →
    sortKey otherStageMask other = sortKey otherStageMask var → other.slots stage = 0

/-- The varyings of the kind that sort before a variable: location, component and slots. -/
def fronts (stage : ShaderStage) (otherStageMask : Nat) (vars : List Variable) (var : Variable) :
    Multiset (Nat × Nat × Nat) :=
  (vars.filter fun other =>
    other.patch = var.patch ∧ sortKey otherStageMask other < sortKey otherStageMask var).map
      fun other => (other.location, other.locationFrac, other.slots stage)

def excess (varyings others : Multiset (Nat × Nat × Nat)) : Nat :=
  ((varyings - others).map (·.2.2)).sum

/-- What sorts before a varying on one side only takes as many slots as what sorts before it on
the other side only. -/
structure Aligned (stages : Stages) (inputs outputs : List Variable) (output input : Variable) :
    Prop where
  outputAlone : Alone stages.prevStageNir.stage stages.nir.inputsRead outputs output
  inputAlone : Alone stages.nir.stage stages.prevStageNir.outputsWritten inputs input
  fronts_eq :
    excess (fronts stages.prevStageNir.stage stages.nir.inputsRead outputs output)
        (fronts stages.nir.stage stages.prevStageNir.outputsWritten inputs input) =
      excess (fronts stages.nir.stage stages.prevStageNir.outputsWritten inputs input)
        (fronts stages.prevStageNir.stage stages.nir.inputsRead outputs output)

theorem excess_eq_iff (varyings others : Multiset (Nat × Nat × Nat)) :
    excess varyings others = excess others varyings ↔
      (varyings.map (·.2.2)).sum = (others.map (·.2.2)).sum := by
  have split : ∀ first second : Multiset (Nat × Nat × Nat),
      (first.map (·.2.2)).sum = excess first second + ((first ∩ second).map (·.2.2)).sum := by
    intro first second
    rw [excess, ← Multiset.sum_add, ← Multiset.map_add, Multiset.sub_add_inter]
  have here := split varyings others
  have there := split others varyings
  rw [Multiset.inter_comm] at there
  omega

section Side

variable {stage : ShaderStage} {mask : Nat} {vars : List Variable} {var : Variable}

theorem precedes_classify (first second : Variable) :
    Precedes (classify mask none first) (classify mask none second) ↔
      sortKey mask first ≤ sortKey mask second :=
  precedes_iff_key

theorem kindSlots_classify (patch : Bool) (other : Variable) :
    kindSlots stage patch (classify mask none other) = kindSlots stage patch other := rfl

theorem total_kindSlots (patch : Bool) (vars : List Variable) :
    total (kindSlots stage patch) vars =
      total (Variable.slots stage) (vars.filter (·.patch = patch)) := by
  induction vars with
  | nil => rfl
  | cons var vars inductionHypothesis =>
    simp only [total, List.map_cons, List.sum_cons] at inductionHypothesis ⊢
    rw [inductionHypothesis, List.filter_cons]
    by_cases kind : var.patch = patch
    · simp [kindSlots, kind]
    · simp [kindSlots, kind]

theorem least_classify :
    least Precedes (kindSlots stage var.patch) (vars.map (classify mask none))
        (classify mask none var) =
      ((fronts stage mask vars var).map (·.2.2)).sum := by
  rw [least, List.filter_map, total_map]
  show total (kindSlots stage var.patch) _ = _
  rw [total_kindSlots, List.filter_filter, fronts, Multiset.map_coe, Multiset.sum_coe,
    List.map_map, total]
  congr 2
  apply List.filter_congr
  intro other mem
  simp only [Function.comp_apply, precedes_classify, not_le, Bool.decide_and]

theorem tied_classify_eq_zero_iff (mem : var ∈ vars) :
    tied Precedes (kindSlots stage var.patch) (vars.map (classify mask none))
        (classify mask none var) = 0 ↔ Alone stage mask vars var := by
  rw [tied, total_perm _ ((erase_map_perm (classify mask none) mem).filter _), List.filter_map,
    total_map, total_eq_zero_iff, Alone]
  simp only [List.mem_filter, Function.comp_apply, precedes_classify, kindSlots_classify,
    decide_eq_true_eq, ← le_antisymm_iff, and_imp]
  constructor
  · intro empty other inside kind same
    simpa [kindSlots, kind] using empty other inside same
  · intro alone other inside same
    rw [kindSlots]
    split_ifs with kind
    · exact alone other inside kind same
    · rfl

end Side

/-- No other variable compares equal on either side, and the slots in front are as many. -/
theorem balanced_classify_iff {stages : Stages} {inputs outputs : List Variable}
    {output input : Variable} (outputMem : output ∈ outputs) (inputMem : input ∈ inputs) :
    Balanced stages.nir.stage stages.prevStageNir.stage
        (inputs.map (classify stages.prevStageNir.outputsWritten none))
        (outputs.map (classify stages.nir.inputsRead none))
        (classify stages.nir.inputsRead none output)
        (classify stages.prevStageNir.outputsWritten none input) ↔
      Aligned stages inputs outputs output input := by
  let classifyOutput := classify stages.nir.inputsRead none
  let classifyInput := classify stages.prevStageNir.outputsWritten none
  let outputSlots := kindSlots stages.prevStageNir.stage output.patch
  let inputSlots := kindSlots stages.nir.stage input.patch
  have outputsEq := greatest_eq Precedes outputSlots precedes_total
    (List.mem_map_of_mem (f := classifyOutput) outputMem)
  have inputsEq := greatest_eq Precedes inputSlots precedes_total
    (List.mem_map_of_mem (f := classifyInput) inputMem)
  have outputsTied : tied Precedes outputSlots (outputs.map classifyOutput)
      (classifyOutput output) = 0 ↔ Alone _ stages.nir.inputsRead outputs output :=
    tied_classify_eq_zero_iff outputMem
  have inputsTied : tied Precedes inputSlots (inputs.map classifyInput)
      (classifyInput input) = 0 ↔ Alone _ stages.prevStageNir.outputsWritten inputs input :=
    tied_classify_eq_zero_iff inputMem
  have outputsLeast : least Precedes outputSlots (outputs.map classifyOutput)
      (classifyOutput output) = _ := least_classify
  have inputsLeast : least Precedes inputSlots (inputs.map classifyInput)
      (classifyInput input) = _ := least_classify
  constructor
  · rintro ⟨outputs_le, inputs_le⟩
    change greatest Precedes outputSlots (outputs.map classifyOutput) (classifyOutput output) =
      least Precedes inputSlots (inputs.map classifyInput) (classifyInput input) at outputs_le
    change greatest Precedes inputSlots (inputs.map classifyInput) (classifyInput input) =
      least Precedes outputSlots (outputs.map classifyOutput) (classifyOutput output) at inputs_le
    refine ⟨outputsTied.mp (by omega), inputsTied.mp (by omega), (excess_eq_iff _ _).mpr ?_⟩
    rw [← outputsLeast, ← inputsLeast]
    omega
  · rintro ⟨outputAlone, inputAlone, frontsEq⟩
    have noOutputTied := outputsTied.mpr outputAlone
    have noInputTied := inputsTied.mpr inputAlone
    have same := (excess_eq_iff _ _).mp frontsEq
    rw [← outputsLeast, ← inputsLeast] at same
    constructor
    · show greatest Precedes outputSlots (outputs.map classifyOutput) (classifyOutput output) =
        least Precedes inputSlots (inputs.map classifyInput) (classifyInput input)
      omega
    · show greatest Precedes inputSlots (inputs.map classifyInput) (classifyInput input) =
        least Precedes outputSlots (outputs.map classifyOutput) (classifyOutput output)
      omega

/-- Linking makes the signatures agree exactly when the varyings that are left on both sides are
aligned. -/
theorem agree_killAndPad_iff (cleanInputs cleanOutputs : Variable → Uses) (stages : Stages) :
    (stages.killAndPad cleanInputs cleanOutputs).Agree ↔
      ∀ output ∈ stages.outputsLeft cleanOutputs,
        ∀ input ∈ stages.inputsLeft cleanInputs cleanOutputs,
        Matches stages.nir.stage stages.prevStageNir.stage output input →
          Aligned stages (stages.inputsLeft cleanInputs cleanOutputs)
            (stages.outputsLeft cleanOutputs) output input := by
  -- the kill passes and the padding leave the stages and the masks as they are
  have masks : (stages.killAndPad cleanInputs cleanOutputs).nir.inputsRead =
      stages.nir.inputsRead := by
    simp only [Stages.killAndPad, dxilNirPadTesInputSignature]
    split_ifs <;> rfl
  have stage : (stages.killAndPad cleanInputs cleanOutputs).nir.stage = stages.nir.stage := by
    simp only [Stages.killAndPad, dxilNirPadTesInputSignature]
    split_ifs <;> rfl
  have written : (stages.killAndPad cleanInputs cleanOutputs).prevStageNir.outputsWritten =
      stages.prevStageNir.outputsWritten := rfl
  have prevStage : (stages.killAndPad cleanInputs cleanOutputs).prevStageNir.stage =
      stages.prevStageNir.stage := rfl
  rw [agree_iff_balanced, Stages.Balanced, Stages.classifiedOutputs, Stages.classifiedInputs,
    Stages.outputs_killAndPad, Stages.inputs_killAndPad, List.forall_mem_map, masks, stage,
    written, prevStage]
  apply forall₂_congr
  intro output outputMem
  rw [List.forall_mem_map]
  apply forall₂_congr
  intro input inputMem
  exact imp_congr ⟨fun both => ⟨both.location, both.locationFrac, both.patch, both.slots⟩,
    fun both => ⟨both.location, both.locationFrac, both.patch, both.slots⟩⟩
    (balanced_classify_iff outputMem inputMem)

/-- A tessellation control shader that writes both levels and an evaluation shader that reads the
inner one. -/
def innerLevel : Stages where
  nir :=
    { stage := .tessEval
      inputs := [{ tessLevel VARYING_SLOT_TESS_LEVEL_INNER 2 with uses := { loads := 1 } }]
      outputs := []
      inputsRead := 2 ^ VARYING_SLOT_TESS_LEVEL_INNER
      outputsWritten := 0
      outputsRead := 0
      patchInputsRead := 0
      patchOutputsWritten := 0
      patchOutputsRead := 0 }
  prevStageNir :=
    { stage := .tessCtrl
      inputs := []
      outputs := [(VARYING_SLOT_TESS_LEVEL_OUTER, 4), (VARYING_SLOT_TESS_LEVEL_INNER, 2)].map
        fun level => { tessLevel level.1 level.2 with mode := .shaderOut, uses := { stores := 1 } }
      inputsRead := 0
      outputsWritten := 2 ^ VARYING_SLOT_TESS_LEVEL_OUTER + 2 ^ VARYING_SLOT_TESS_LEVEL_INNER
      outputsRead := 0
      patchInputsRead := 0
      patchOutputsWritten := 0
      patchOutputsRead := 0 }

/-- The outer level is in front of the inner one on the side where it was added, and behind it on
the other side. -/
theorem not_agree_innerLevel : ¬ (innerLevel.killAndPad Variable.uses Variable.uses).Agree := by
  intro agree
  let inner : Variable := tessLevel VARYING_SLOT_TESS_LEVEL_INNER 2
  have balanced := balanced_of_agree agree
    { inner with driverLocation := 1, mode := .shaderOut, uses := { stores := 1 } } (by decide)
    { inner with driverLocation := 1, uses := { loads := 1 } } (by decide)
    ⟨rfl, rfl, rfl, rfl⟩
  have slots := balanced.outputs_le
  revert slots
  decide

end SpirvToDxil.LinkVaryings
