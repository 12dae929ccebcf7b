import SpirvToDxil.Dxil.LinkVaryings

/-!
# The varyings that linking leaves

The kill passes and the padding in terms of the variables that the two stages declare: which
of them are left, and which are added to the inputs of a tessellation evaluation shader. Only
the uses of a variable that is left may differ from those declared.
-/

namespace SpirvToDxil.LinkVaryings

def firstAtEach : List Variable → List Variable
  | [] => []
  | var :: vars => var :: (firstAtEach vars).filter (fun other => other.location ≠ var.location)

def FreeOf (vars : List Variable) (location : Nat) : Prop :=
  ∀ var ∈ vars, var.location ≠ location

instance (vars : List Variable) (location : Nat) : Decidable (FreeOf vars location) :=
  inferInstanceAs (Decidable (∀ var ∈ vars, _))

def Variable.withUses (var : Variable) (uses : Uses) : Variable := { var with uses := uses }

/-- The control shader reads the output back and the inputs lack it. -/
def NeedsPad (tcs : Shader) (inputs : List Variable) (var : Variable) : Prop :=
  var.location ∉ [VARYING_SLOT_POS, VARYING_SLOT_PSIZ, VARYING_SLOT_PRIMITIVE_ID,
      VARYING_SLOT_LAYER, VARYING_SLOT_VIEWPORT] ∧
    intraAccessed tcs var ∧ FreeOf inputs var.location

instance (tcs : Shader) (inputs : List Variable) (var : Variable) :
    Decidable (NeedsPad tcs inputs var) :=
  inferInstanceAs (Decidable (_ ∧ _))

namespace Stages

variable (cleanInputs cleanOutputs : Variable → Uses) (stages : Stages)

/-- Nothing that the producer writes is in the locations of the input. -/
def IsUndefined (var : Variable) : Prop :=
  isDeadInVariable var none ∧
    ¬ var.inMask stages.prevStageNir.outputsWritten stages.prevStageNir.patchOutputsWritten

instance (var : Variable) : Decidable (stages.IsUndefined var) :=
  inferInstanceAs (Decidable (_ ∧ _))

def withoutLoads (var : Variable) : Variable :=
  if stages.IsUndefined var then { var with uses := { var.uses with loads := 0 } } else var

/-- The uses of a declared input that are left: dead code is removed once a load is. -/
def inputUses (var : Variable) : Uses :=
  if ∃ other ∈ stages.nir.inputs, stages.IsUndefined other ∧ other.uses.loads ≠ 0 then
    cleanInputs (stages.withoutLoads var)
  else var.uses

def KeepsInput (var : Variable) : Prop :=
  ¬ isDeadInVariable var (some (stages.nir.stage, stages.prevStageNir.outputsWritten,
      stages.prevStageNir.patchOutputsWritten)) ∨ stages.inputUses cleanInputs var ≠ {}

instance (var : Variable) : Decidable (stages.KeepsInput cleanInputs var) :=
  inferInstanceAs (Decidable (_ ∨ _))

/-- Neither the consumer nor the producer itself reads the locations of the output. -/
def IsUnread (var : Variable) : Prop :=
  (stages.prevStageNir.stage = .tessCtrl ∨ !var.alwaysActiveIo) ∧ isDeadOutVariable var ∧
    ¬ var.inMask (intraShaderLoadMasks stages.prevStageNir).1
      (intraShaderLoadMasks stages.prevStageNir).2 ∧
    ¬ var.inMask stages.nir.inputsRead stages.nir.patchInputsRead

instance (var : Variable) : Decidable (stages.IsUnread var) :=
  inferInstanceAs (Decidable (_ ∧ _))

def withoutAccesses (var : Variable) : Variable :=
  if stages.IsUnread var then { var with uses := { var.uses with loads := 0, stores := 0 } }
  else var

def outputUses (var : Variable) : Uses :=
  if ∃ other ∈ stages.prevStageNir.outputs, stages.IsUnread other ∧
      (other.uses.loads ≠ 0 ∨ other.uses.stores ≠ 0) then
    cleanOutputs (stages.withoutAccesses var)
  else var.uses

def KeepsOutput (var : Variable) : Prop :=
  ¬ isDeadOutVariable var ∨ stages.outputUses cleanOutputs var ≠ {}

instance (var : Variable) : Decidable (stages.KeepsOutput cleanOutputs var) :=
  inferInstanceAs (Decidable (_ ∨ _))

/-- The declared outputs that are left, with the uses that are left. -/
def outputsLeft : List Variable :=
  (stages.prevStageNir.outputs.filter fun var => stages.KeepsOutput cleanOutputs var).map
    fun var => var.withUses (stages.outputUses cleanOutputs var)

def declaredInputsLeft : List Variable :=
  (stages.nir.inputs.filter fun var => stages.KeepsInput cleanInputs var).map
    fun var => var.withUses (stages.inputUses cleanInputs var)

def readBackOutputs : List Variable :=
  firstAtEach ((stages.outputsLeft cleanOutputs).filter fun var =>
    NeedsPad stages.prevStageNir (stages.declaredInputsLeft cleanInputs) var)

/-- The declared inputs that are left, with those that are added for an evaluation shader. -/
def inputsLeft : List Variable :=
  let declared := stages.declaredInputsLeft cleanInputs
  if stages.nir.stage = .tessEval ∧ stages.prevStageNir.stage = .tessCtrl then
    let padded := declared ++
      (stages.readBackOutputs cleanInputs cleanOutputs).map Variable.asInput
    padded ++ ([(VARYING_SLOT_TESS_LEVEL_OUTER, 4), (VARYING_SLOT_TESS_LEVEL_INNER, 2)].filter
      fun level => FreeOf padded level.1).map fun level => tessLevel level.1 level.2
  else declared

/-! ## The kill passes -/

theorem map_eq_self_iff {α : Type} (f : α → α) (items : List α) :
    items.map f = items ↔ ∀ item ∈ items, f item = item := by
  induction items with
  | nil => simp
  | cons item items inductionHypothesis => simp [inductionHypothesis]

variable {cleanInputs cleanOutputs stages}

theorem withoutLoads_eq_self_iff (var : Variable) :
    stages.withoutLoads var = var ↔ ¬ (stages.IsUndefined var ∧ var.uses.loads ≠ 0) := by
  rw [withoutLoads]
  split_ifs with undefined
  · obtain ⟨io, active, loads, stores, others⟩ := var
    simp [undefined, eq_comm]
  · simp [undefined]

theorem withoutAccesses_eq_self_iff (var : Variable) :
    stages.withoutAccesses var = var ↔
      ¬ (stages.IsUnread var ∧ (var.uses.loads ≠ 0 ∨ var.uses.stores ≠ 0)) := by
  rw [withoutAccesses]
  split_ifs with unread
  · obtain ⟨io, active, loads, stores, others⟩ := var
    simp [unread, eq_comm]
  · simp [unread]

/-- Dead code is removed just when the kill pass has changed something. -/
theorem cleaned_eq (kill : Variable → Variable) (cleanUp : Variable → Uses)
    (vars : List Variable) (changes : Variable → Prop) [DecidablePred changes]
    (keeps : ∀ var, kill var = var ↔ ¬ changes var)
    (same : ∀ var, (kill var).withUses (cleanUp (kill var)) = var.withUses (cleanUp (kill var))) :
    (if vars.map kill = vars then vars.map kill
      else (vars.map kill).map fun var => { var with uses := cleanUp var }) =
      vars.map fun var => var.withUses
        (if ∃ other ∈ vars, changes other then cleanUp (kill var) else var.uses) := by
  by_cases changed : ∃ other ∈ vars, changes other
  · have differs : ¬ vars.map kill = vars := by
      rw [map_eq_self_iff]
      intro all
      obtain ⟨other, mem, change⟩ := changed
      exact (keeps other).mp (all other mem) change
    rw [if_neg differs, List.map_map]
    simp only [if_pos changed]
    exact List.map_congr_left fun var _ => same var
  · have unchanged : vars.map kill = vars := by
      rw [map_eq_self_iff]
      intro var mem
      exact (keeps var).mpr fun change => changed ⟨var, mem, change⟩
    rw [if_pos unchanged, unchanged]
    simp only [if_neg changed, Variable.withUses]
    exact (List.map_id _).symm

theorem outputs_killAndPad :
    (stages.killAndPad cleanInputs cleanOutputs).prevStageNir.outputs =
      stages.outputsLeft cleanOutputs := by
  have killed : killUnusedOutputs stages.prevStageNir.stage
      (intraShaderLoadMasks stages.prevStageNir) stages.nir.inputsRead stages.nir.patchInputsRead
      none = stages.withoutAccesses := by
    funext var
    simp only [killUnusedOutputs, withoutAccesses, IsUnread, Variable.inOtherStage, Bool.and_true,
      Bool.not_eq_true']
    simp
  simp only [killAndPad, dxilNirKillUnusedOutputs, dxilNirKillUndefinedVaryings, killed]
  rw [cleaned_eq _ _ _ _ withoutAccesses_eq_self_iff]
  · rw [removeDeadVariables, List.filter_map, outputsLeft]
    congr 1
    apply List.filter_congr
    intro var mem
    simp [KeepsOutput, outputUses, Variable.withUses, isDeadOutVariable]
  · intro var
    rw [withoutAccesses]
    split_ifs <;> rfl

theorem isDeadInVariable_withUses (var : Variable) (uses : Uses)
    (masks : Option (ShaderStage × Nat × Nat)) :
    isDeadInVariable (var.withUses uses) masks = isDeadInVariable var masks := rfl

theorem inputs_killUndefined :
    (dxilNirKillUndefinedVaryings cleanInputs stages.nir stages.prevStageNir.outputsWritten
        stages.prevStageNir.patchOutputsWritten none).inputs =
      stages.declaredInputsLeft cleanInputs := by
  have killed : killUndefinedVaryings stages.prevStageNir.outputsWritten
      stages.prevStageNir.patchOutputsWritten none = stages.withoutLoads := by
    funext var
    simp only [killUndefinedVaryings, withoutLoads, IsUndefined, Variable.inOtherStage,
      Bool.and_true, Bool.not_eq_true']
    simp
  simp only [dxilNirKillUndefinedVaryings, killed]
  rw [cleaned_eq _ _ _ _ withoutLoads_eq_self_iff]
  · rw [removeDeadVariables, List.filter_map, declaredInputsLeft]
    congr 1
    apply List.filter_congr
    intro var mem
    rw [Bool.eq_iff_iff]
    simp only [Function.comp_apply, isDeadInVariable_withUses, decide_eq_true_eq, KeepsInput,
      inputUses, Bool.or_eq_true, Bool.not_eq_true', Bool.not_eq_true]
    rfl
  · intro var
    rw [withoutLoads]
    split_ifs <;> rfl

/-! ## Padding -/

theorem findWithLocation_isSome (vars : List Variable) (location : Nat) :
    (findWithLocation vars location).isSome ↔ ¬ FreeOf vars location := by
  rw [findWithLocation, List.find?_isSome, FreeOf]
  simp

theorem firstAtEach_filter (chosen : Nat → Bool) (vars : List Variable) :
    firstAtEach (vars.filter fun var => chosen var.location) =
      (firstAtEach vars).filter fun var => chosen var.location := by
  induction vars with
  | nil => rfl
  | cons var vars inductionHypothesis =>
    rw [List.filter_cons]
    split_ifs with choice
    · rw [firstAtEach, firstAtEach, inductionHypothesis, List.filter_cons, if_pos choice,
        List.filter_comm]
    · rw [inductionHypothesis, firstAtEach, List.filter_cons, if_neg choice, List.filter_filter]
      apply List.filter_congr
      intro other mem
      by_cases same : other.location = var.location
      · simp [same, choice]
      · simp [same]

theorem freeOf_append_asInput (inputs : List Variable) (out : Variable) (location : Nat) :
    FreeOf (inputs ++ [out.asInput]) location ↔
      FreeOf inputs location ∧ location ≠ out.location := by
  simp only [FreeOf, List.mem_append, List.mem_singleton, or_imp, forall_and, forall_eq,
    Variable.asInput, ne_eq, eq_comm]

theorem padReadBack_eq (tcs : Shader) (inputs : List Variable) (out : Variable) :
    padReadBack tcs inputs out =
      if NeedsPad tcs inputs out then inputs ++ [out.asInput] else inputs := by
  simp only [padReadBack, NeedsPad, findWithLocation_isSome]
  split_ifs <;> simp_all [Variable.asInput]

/-- The outputs that are read back come behind the inputs, the first one at each location. -/
theorem foldl_padReadBack (tcs : Shader) (inputs outputs : List Variable) :
    outputs.foldl (padReadBack tcs) inputs =
      inputs ++ (firstAtEach (outputs.filter fun var => NeedsPad tcs inputs var)).map
        Variable.asInput := by
  induction outputs generalizing inputs with
  | nil => simp [firstAtEach]
  | cons out outputs inductionHypothesis =>
    rw [List.foldl_cons, padReadBack_eq, inductionHypothesis]
    split_ifs with needs
    · have later : (fun var => decide (NeedsPad tcs (inputs ++ [out.asInput]) var)) = fun var =>
          (decide (var.location ≠ out.location) && decide (NeedsPad tcs inputs var)) := by
        funext var
        rw [← Bool.decide_and, decide_eq_decide]
        simp only [NeedsPad, freeOf_append_asInput]
        tauto
      rw [later, ← List.filter_filter,
        firstAtEach_filter (fun location => decide (location ≠ out.location)),
        List.filter_cons_of_pos (by simpa using needs), firstAtEach, List.map_cons,
        List.append_assoc, List.singleton_append]
    · rw [List.filter_cons_of_neg (by simpa using needs)]

theorem padTessLevel_eq (inputs : List Variable) (level : Nat × Nat) :
    padTessLevel inputs level =
      if FreeOf inputs level.1 then inputs ++ [tessLevel level.1 level.2] else inputs := by
  rw [padTessLevel]
  simp only [findWithLocation_isSome]
  split_ifs <;> simp_all

theorem foldl_padTessLevel (inputs : List Variable) :
    [(VARYING_SLOT_TESS_LEVEL_OUTER, 4), (VARYING_SLOT_TESS_LEVEL_INNER, 2)].foldl padTessLevel
        inputs =
      inputs ++ ([(VARYING_SLOT_TESS_LEVEL_OUTER, 4), (VARYING_SLOT_TESS_LEVEL_INNER, 2)].filter
        fun level => FreeOf inputs level.1).map fun level => tessLevel level.1 level.2 := by
  have apart : FreeOf (inputs ++ [tessLevel VARYING_SLOT_TESS_LEVEL_OUTER 4])
      VARYING_SLOT_TESS_LEVEL_INNER ↔ FreeOf inputs VARYING_SLOT_TESS_LEVEL_INNER := by
    simp only [FreeOf, List.mem_append, List.mem_singleton, or_imp, forall_and, forall_eq]
    exact and_iff_left (by decide)
  simp only [List.foldl_cons, List.foldl_nil, padTessLevel_eq, List.filter_cons, List.filter_nil,
    decide_eq_true_eq]
  split_ifs <;> simp_all

theorem inputs_dxilNirPadTesInputSignature (tes tcs : Shader) :
    (dxilNirPadTesInputSignature tes tcs).inputs =
      if tes.stage = .tessEval ∧ tcs.stage = .tessCtrl then
        [(VARYING_SLOT_TESS_LEVEL_OUTER, 4), (VARYING_SLOT_TESS_LEVEL_INNER, 2)].foldl padTessLevel
          (tcs.outputs.foldl (padReadBack tcs) tes.inputs)
      else tes.inputs := by
  rw [dxilNirPadTesInputSignature]
  split_ifs <;> simp_all

theorem inputs_killAndPad :
    (stages.killAndPad cleanInputs cleanOutputs).nir.inputs =
      stages.inputsLeft cleanInputs cleanOutputs := by
  let nir := dxilNirKillUndefinedVaryings cleanInputs stages.nir
    stages.prevStageNir.outputsWritten stages.prevStageNir.patchOutputsWritten none
  let prevStageNir := (stages.killAndPad cleanInputs cleanOutputs).prevStageNir
  have inputsEq : nir.inputs = stages.declaredInputsLeft cleanInputs := inputs_killUndefined
  have outputsEq : prevStageNir.outputs = stages.outputsLeft cleanOutputs := outputs_killAndPad
  have padded : (stages.killAndPad cleanInputs cleanOutputs).nir =
      if nir.stage = .tessEval then dxilNirPadTesInputSignature nir prevStageNir else nir := rfl
  rw [padded, apply_ite Shader.inputs, inputs_dxilNirPadTesInputSignature, outputsEq, inputsEq,
    foldl_padTessLevel, foldl_padReadBack]
  have stage : nir.stage = stages.nir.stage := rfl
  have prevStage : prevStageNir.stage = stages.prevStageNir.stage := rfl
  rw [stage, prevStage, inputsLeft]
  split_ifs <;> first | rfl | simp_all

end Stages

end SpirvToDxil.LinkVaryings
