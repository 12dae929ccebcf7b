import Mathlib.Data.List.Find
import SpirvToDxil.Dxil.SignatureLayout

/-!
# Collisions in the signatures of a shader

The three signatures of a shader are built by one loop over the variables that are not
skipped; a skipped variable is never a base variable.
-/

namespace SpirvToDxil

namespace SignatureRoutine

theorem addVariable_congr {routine other : SignatureRoutine} {earlier others : List IoVariable}
    {var : IoVariable} (stage : routine.stage = other.stage)
    (clipSize : routine.clipSize = other.clipSize) (counter : routine.counter = other.counter)
    (semantics : routine.semantics var = other.semantics var)
    (baseVar : routine.baseVar earlier var = other.baseVar others var)
    (state : SignatureState) :
    routine.addVariable earlier state var = other.addVariable others state var := by
  simp only [addVariable, placeVariable, stage, clipSize, counter, semantics, baseVar]

/-- A loop that skips variables is one over the others, if the skipped ones take no part in
the search for base variables. -/
theorem addVariables_eq_addAll {routine whole : SignatureRoutine}
    (previous earlier vars : List IoVariable) (state : SignatureState)
    (agrees : ∀ before var after, vars = before ++ var :: after → routine.skips var = false →
      ∀ state, routine.addVariable (earlier ++ before) state var =
        whole.addVariable (previous ++ (earlier ++ before).filter (!routine.skips ·)) state var) :
    routine.addVariables earlier vars state =
      whole.addAll (previous ++ earlier.filter (!routine.skips ·))
        (vars.filter (!routine.skips ·)) state := by
  induction vars generalizing earlier state with
  | nil => rfl
  | cons var vars inductionHypothesis =>
    have later : ∀ before other after, vars = before ++ other :: after →
        routine.skips other = false → ∀ state,
        routine.addVariable (earlier ++ [var] ++ before) state other =
          whole.addVariable
            (previous ++ (earlier ++ [var] ++ before).filter (!routine.skips ·)) state other := by
      intro before other after split
      rw [List.append_assoc]
      apply agrees (var :: before) other after
      rw [split, List.cons_append]
    rw [addVariables, inductionHypothesis _ _ later, List.filter_append, List.filter_cons]
    cases skipped : routine.skips var with
    | true => simp [skipped]
    | false =>
      have first := agrees [] var vars rfl skipped state
      rw [List.append_nil] at first
      simp [skipped, addAll, first]

theorem mem_signatures_addAll {routine : SignatureRoutine} {earlier vars : List IoVariable}
    {state : SignatureState} {signature : IoSignature}
    (mem : signature ∈ (routine.addAll earlier vars state).signatures) :
    signature ∈ state.signatures ∨
      ∃ semantic : Semantic, semantic.fillIoSignature = signature := by
  induction vars generalizing earlier state with
  | nil => exact Or.inl mem
  | cons var vars inductionHypothesis =>
    rcases inductionHypothesis mem with added | filled
    · simp only [addVariable, List.mem_append, List.mem_singleton] at added
      rcases added with old | new
      · exact Or.inl old
      · exact Or.inr ⟨_, new.symm⟩
    · exact Or.inr filled

theorem placement_counted_of_kind {routine : SignatureRoutine} {var base : IoVariable}
    (kind : (routine.semantics base).kind = (routine.semantics var).kind)
    (mode : base.mode = var.mode) (counted : routine.placement var = .counted) :
    routine.placement base = .counted := by
  revert counted
  simp only [placement, kind, mode]
  split_ifs <;> simp

theorem target_of_placement {routine : SignatureRoutine} {var : IoVariable} {index : Nat}
    (fixed : routine.placement var = .fixed index) :
    (routine.semantics var).kind = .target ∧ (routine.semantics var).index = index := by
  revert fixed
  simp only [placement]
  split_ifs with target
  · intro same
    cases same
    exact ⟨target, rfl⟩
  · intro same
    cases same
  · intro same
    cases same

end SignatureRoutine

inductive SignatureKind where
  | input
  | output
  | patchConst
  deriving DecidableEq, Repr

namespace IoShader

/-! ## The search for base variables -/

theorem inputBaseLoop_filter (stage : ShaderStage) (var : IoVariable)
    (keeps : IoVariable → Bool) (base : Option IoVariable) (vars : List IoVariable)
    (kept : ∀ other ∈ vars, var.location = other.location → keeps other = true) :
    inputBaseLoop stage var base (vars.filter keeps) = inputBaseLoop stage var base vars := by
  induction vars generalizing base with
  | nil => rfl
  | cons head vars inductionHypothesis =>
    have keptRest : ∀ other ∈ vars, var.location = other.location → keeps other = true :=
      fun other mem => kept other (List.mem_cons_of_mem _ mem)
    by_cases located : var.location = head.location
    · rw [List.filter_cons_of_pos (kept head List.mem_cons_self located)]
      simp only [inputBaseLoop, inductionHypothesis _ keptRest]
    · rw [inputBaseLoop, if_neg located, List.filter_cons]
      split
      · rw [inputBaseLoop, if_neg located]
        exact inductionHypothesis _ keptRest
      · exact inductionHypothesis _ keptRest

theorem inputBaseLoop_mem {stage : ShaderStage} {var found : IoVariable}
    {base : Option IoVariable} {vars : List IoVariable}
    (result : inputBaseLoop stage var base vars = some found) :
    base = some found ∨ found ∈ vars ∧ found.location = var.location := by
  induction vars generalizing base with
  | nil => exact Or.inl result
  | cons head vars inductionHypothesis =>
    rw [inputBaseLoop] at result
    split_ifs at result with located room
    · cases result
      exact Or.inr ⟨List.mem_cons_self, located.symm⟩
    · rcases inductionHypothesis result with last | ⟨mem, sameLocation⟩
      · cases last
        exact Or.inr ⟨List.mem_cons_self, located.symm⟩
      · exact Or.inr ⟨List.mem_cons_of_mem _ mem, sameLocation⟩
    · rcases inductionHypothesis result with last | ⟨mem, sameLocation⟩
      · exact Or.inl last
      · exact Or.inr ⟨List.mem_cons_of_mem _ mem, sameLocation⟩

theorem inputBaseVar_mem {stage : ShaderStage} {var found : IoVariable}
    {earlier : List IoVariable} (result : inputBaseVar stage earlier var = some found) :
    found ∈ earlier ∧ found.location = var.location := by
  rw [inputBaseVar] at result
  split_ifs at result
  exact (inputBaseLoop_mem result).resolve_left fun none => by cases none

theorem inputBaseVar_filter (stage : ShaderStage) (var : IoVariable)
    (keeps : IoVariable → Bool) (vars : List IoVariable)
    (kept : ∀ other ∈ vars, var.location = other.location → keeps other = true) :
    inputBaseVar stage (vars.filter keeps) var = inputBaseVar stage vars var := by
  rw [inputBaseVar, inputBaseVar, inputBaseLoop_filter stage var keeps none vars kept]

theorem findVariableWithLocation_mem {var found : IoVariable} {earlier : List IoVariable}
    (result : findVariableWithLocation earlier var = some found) :
    found ∈ earlier ∧ found.location = var.location := by
  rw [findVariableWithLocation] at result
  split_ifs at result
  exact ⟨List.mem_of_find?_eq_some result, by simpa using List.find?_some result⟩

theorem findVariableWithLocation_filter (var : IoVariable) (keeps : IoVariable → Bool)
    (vars : List IoVariable)
    (kept : var.locationFrac ≠ 0 →
      ∀ other ∈ vars, other.location = var.location → keeps other = true) :
    findVariableWithLocation (vars.filter keeps) var = findVariableWithLocation vars var := by
  rw [findVariableWithLocation, findVariableWithLocation]
  split_ifs with whole
  · rfl
  · rw [List.find?_filter]
    apply List.find?_congr
    intro other mem
    by_cases located : other.location = var.location
    · simp [kept whole other mem located]
    · simp [located]

theorem outputBaseVar_mem {var found : IoVariable} {earlier : List IoVariable}
    (result : outputBaseVar earlier var = some found) :
    found ∈ earlier ∧ found.location = var.location :=
  findVariableWithLocation_mem (Option.filter_eq_some_iff.mp result).1

/-! ## Kinds -/

theorem kind_getSemanticName {var other : IoVariable} (located : var.location = other.location) :
    (getSemanticName var).kind = (getSemanticName other).kind := by
  simp only [getSemanticName, located, apply_ite Semantic.kind]

theorem kind_getSemanticSvName {var other : IoVariable}
    (located : var.location = other.location) :
    (getSemanticSvName var).kind = (getSemanticSvName other).kind := by
  simp only [getSemanticSvName, located]

theorem kind_getSemanticPsOutname {var other : IoVariable}
    (located : var.location = other.location) :
    (getSemanticPsOutname var).kind = (getSemanticPsOutname other).kind := by
  simp only [getSemanticPsOutname, located, apply_ite Semantic.kind]

theorem index_getSemanticPsOutname (var : IoVariable)
    (target : (getSemanticPsOutname var).kind = .target) :
    (getSemanticPsOutname var).index < 8 := by
  have small := var.index_lt
  revert target
  rw [getSemanticPsOutname]
  by_cases color : var.location = FRAG_RESULT_COLOR
  · rw [if_pos color]
    intro _
    exact small.trans (by decide)
  · rw [if_neg color]
    by_cases data : FRAG_RESULT_DATA0 ≤ var.location ∧ var.location ≤ FRAG_RESULT_DATA7
    · rw [if_pos data]
      intro _
      have first : FRAG_RESULT_DATA0 = 4 := rfl
      have last : FRAG_RESULT_DATA7 = 11 := rfl
      by_cases blended : var.location = FRAG_RESULT_DATA0 ∧ 0 < var.index
      · rw [if_pos blended]
        exact small.trans (by decide)
      · rw [if_neg blended]
        show var.location - FRAG_RESULT_DATA0 < 8
        omega
    · rw [if_neg data]
      repeat' split
      all_goals exact SemanticKind.noConfusion

theorem startCol_getSemanticName (var : IoVariable) : (getSemanticName var).startCol = 0 := by
  rw [getSemanticName]
  split_ifs <;> rfl

theorem startCol_getSemanticSvName (var : IoVariable) :
    (getSemanticSvName var).startCol = 0 := by
  rw [getSemanticSvName]
  split_ifs <;> rfl

theorem startCol_getSemanticPsOutname (var : IoVariable) :
    (getSemanticPsOutname var).startCol = 0 := by
  rw [getSemanticPsOutname]
  split_ifs <;> rfl

theorem kind_getSemanticName_ne_target (var : IoVariable) :
    (getSemanticName var).kind ≠ .target := by
  rw [getSemanticName]
  repeat' split
  all_goals exact SemanticKind.noConfusion

theorem kind_getSemanticSvName_ne_target (var : IoVariable) :
    (getSemanticSvName var).kind ≠ .target := by
  rw [getSemanticSvName]
  repeat' split
  all_goals exact SemanticKind.noConfusion

/-! ## The routines -/

/-- Both groups of inputs in one loop: base variables are of the mode of the variable. -/
def wholeInputRoutine (shader : IoShader) (inputClipSize : Nat) : SignatureRoutine where
  stage := shader.stage
  clipSize := inputClipSize
  skips var := var.patch
  semantics var :=
    if var.mode = .systemValue then getSemanticSvName var else shader.getSemanticInName var
  baseVar earlier var := inputBaseVar shader.stage (earlier.filter (·.mode = var.mode)) var
  counter _ := 0

def signatureRoutine (shader : IoShader) (inputClipSize : Nat) :
    SignatureKind → SignatureRoutine
  | .input => shader.wholeInputRoutine inputClipSize
  | .output => shader.outputRoutine
  | .patchConst => shader.patchConstRoutine

def signatureVariables (shader : IoShader) : SignatureKind → List IoVariable
  | .input => (shader.variablesWithMode .shaderIn).filter (!·.patch) ++
      (shader.variablesWithMode .systemValue).filter (!·.patch)
  | .output => (shader.variablesWithMode .shaderOut).filter (!shader.outputRoutine.skips ·)
  | .patchConst =>
    if shader.stage = .tessCtrl ∨ shader.stage = .tessEval then
      (shader.variablesWithMode shader.patchConstMode).filter (!shader.patchConstRoutine.skips ·)
    else []

def processSignature (shader : IoShader) (inputClipSize : Nat) :
    SignatureKind → SignatureState
  | .input => shader.processInputSignature inputClipSize
  | .output => shader.processOutputSignature
  | .patchConst => shader.processPatchConstSignature

theorem mem_variablesWithMode {shader : IoShader} {mode : IoMode} {var : IoVariable} :
    var ∈ shader.variablesWithMode mode ↔ var ∈ shader.vars ∧ var.mode = mode := by
  simp [variablesWithMode]

theorem patch_eq_of_mode {shader : IoShader} {mode : IoMode} {var other : IoVariable}
    (varMem : var ∈ shader.variablesWithMode mode)
    (otherMem : other ∈ shader.variablesWithMode mode)
    (located : var.location = other.location) : var.patch = other.patch := by
  rw [mem_variablesWithMode] at varMem otherMem
  exact shader.patch_eq var varMem.1 other otherMem.1 (varMem.2.trans otherMem.2.symm) located

theorem mem_of_split {vars before after : List IoVariable} {var : IoVariable}
    (split : vars = before ++ var :: after) : var ∈ vars ∧ ∀ other ∈ before, other ∈ vars := by
  subst split
  constructor
  · simp
  · intro other mem
    exact List.mem_append_left _ mem

theorem getInputSignatureGroup_eq (shader : IoShader) (mode : IoMode)
    (getSemantics : IoVariable → Semantic) (inputClipSize : Nat) (previous : List IoVariable)
    (semantics : ∀ var, var.mode = mode →
      getSemantics var = (shader.wholeInputRoutine inputClipSize).semantics var)
    (others : ∀ var ∈ previous, var.mode ≠ mode) (state : SignatureState) :
    shader.getInputSignatureGroup mode getSemantics inputClipSize state =
      (shader.wholeInputRoutine inputClipSize).addAll previous
        ((shader.variablesWithMode mode).filter (!·.patch)) state := by
  rw [getInputSignatureGroup,
    SignatureRoutine.addVariables_eq_addAll previous [] (shader.variablesWithMode mode) state]
  · rw [List.filter_nil, List.append_nil]
    rfl
  · intro before var after split keeps state
    obtain ⟨varMem, beforeMem⟩ := mem_of_split split
    have varMode : var.mode = mode := (mem_variablesWithMode.mp varMem).2
    refine SignatureRoutine.addVariable_congr ?_ ?_ ?_ (semantics var varMode) ?_ state
    · rfl
    · rfl
    · rfl
    have noneEarlier : previous.filter (·.mode = var.mode) = [] := by
      apply List.filter_eq_nil_iff.mpr
      intro other mem
      simpa [varMode] using others other mem
    simp only [wholeInputRoutine, inputRoutine, List.nil_append, List.filter_append, noneEarlier,
      List.filter_filter]
    symm
    apply inputBaseVar_filter
    intro other mem located
    have otherMode : other.mode = var.mode :=
      ((mem_variablesWithMode.mp (beforeMem other mem)).2).trans varMode.symm
    have samePatch := patch_eq_of_mode varMem (beforeMem other mem) located
    simp only [inputRoutine] at keeps
    simp [otherMode, ← samePatch, keeps]

theorem processOutputSignature_eq (shader : IoShader) :
    shader.processOutputSignature =
      shader.outputRoutine.addAll [] (shader.signatureVariables .output) {} := by
  rw [processOutputSignature, signatureVariables]
  apply SignatureRoutine.addVariables_eq_addAll [] []
  intro before var after split keeps state
  obtain ⟨varMem, beforeMem⟩ := mem_of_split split
  refine SignatureRoutine.addVariable_congr rfl rfl rfl rfl ?_ state
  simp only [outputRoutine, outputBaseVar, List.nil_append]
  rw [findVariableWithLocation_filter]
  intro partly other mem located
  simp only [outputRoutine, Bool.or_eq_false_iff, Bool.and_eq_false_iff] at keeps
  have samePatch := patch_eq_of_mode (beforeMem other mem) varMem located
  have notFragment : ¬ shader.stage = .fragment := by simpa [partly] using keeps.2
  simp [samePatch, keeps.1, notFragment]

theorem processPatchConstSignature_eq (shader : IoShader) :
    shader.processPatchConstSignature =
      shader.patchConstRoutine.addAll [] (shader.signatureVariables .patchConst) {} := by
  rw [processPatchConstSignature, signatureVariables]
  split_ifs
  · apply SignatureRoutine.addVariables_eq_addAll [] []
    intro before var after split keeps state
    obtain ⟨varMem, beforeMem⟩ := mem_of_split split
    refine SignatureRoutine.addVariable_congr rfl rfl rfl rfl ?_ state
    simp only [patchConstRoutine, List.nil_append]
    rw [findVariableWithLocation_filter]
    intro partly other mem located
    simp only [patchConstRoutine] at keeps
    have samePatch := patch_eq_of_mode (beforeMem other mem) varMem located
    simpa [samePatch] using keeps
  · rfl

theorem processInputSignature_eq (shader : IoShader) (inputClipSize : Nat) :
    shader.processInputSignature inputClipSize =
      (shader.wholeInputRoutine inputClipSize).addAll []
        (shader.signatureVariables .input) {} := by
  rw [processInputSignature, signatureVariables, SignatureRoutine.addAll_append, List.nil_append,
    getInputSignatureGroup_eq shader .shaderIn _ inputClipSize [],
    getInputSignatureGroup_eq shader .systemValue _ inputClipSize
      ((shader.variablesWithMode .shaderIn).filter (!·.patch))]
  · intro var mode
    simp [wholeInputRoutine, mode]
  · intro var mem
    rw [(mem_variablesWithMode.mp (List.mem_of_mem_filter mem)).2]
    decide
  · intro var mode
    simp [wholeInputRoutine, mode]
  · intro var mem
    cases mem

theorem processSignature_eq (shader : IoShader) (inputClipSize : Nat) (kind : SignatureKind) :
    shader.processSignature inputClipSize kind =
      (shader.signatureRoutine inputClipSize kind).addAll [] (shader.signatureVariables kind)
        {} := by
  cases kind with
  | input => exact shader.processInputSignature_eq inputClipSize
  | output => exact shader.processOutputSignature_eq
  | patchConst => exact shader.processPatchConstSignature_eq

theorem kind_wholeInputRoutine (shader : IoShader) (inputClipSize : Nat) {var other : IoVariable}
    (mode : var.mode = other.mode) (located : var.location = other.location) :
    ((shader.wholeInputRoutine inputClipSize).semantics var).kind =
      ((shader.wholeInputRoutine inputClipSize).semantics other).kind := by
  simp only [wholeInputRoutine, mode, getSemanticInName]
  split_ifs
  · exact kind_getSemanticSvName located
  · rfl
  · exact kind_getSemanticName located

theorem wholeInputRoutine_ne_target (shader : IoShader) (inputClipSize : Nat)
    (var : IoVariable) :
    ((shader.wholeInputRoutine inputClipSize).semantics var).kind ≠ .target := by
  simp only [wholeInputRoutine, getSemanticInName]
  split_ifs
  · exact kind_getSemanticSvName_ne_target var
  · simp [getSemanticVsInName]
  · exact kind_getSemanticName_ne_target var

theorem lawful_input (shader : IoShader) (inputClipSize : Nat) (all : List IoVariable) :
    (shader.wholeInputRoutine inputClipSize).Lawful all where
  base_mem := by
    intro earlier var base found
    exact List.mem_of_mem_filter (inputBaseVar_mem found).1
  base_counted := by
    intro earlier var base varMem baseMem found counted
    obtain ⟨mem, located⟩ := inputBaseVar_mem found
    have mode : base.mode = var.mode := by simpa using List.of_mem_filter mem
    exact SignatureRoutine.placement_counted_of_kind
      (shader.kind_wholeInputRoutine inputClipSize mode located) mode counted
  fixed_lt := by
    intro var index fixed
    exact absurd (SignatureRoutine.target_of_placement fixed).1
      (shader.wholeInputRoutine_ne_target inputClipSize var)
  startCol_unset := by
    intro var
    simp only [wholeInputRoutine, getSemanticInName]
    split_ifs
    · exact startCol_getSemanticSvName var
    · rfl
    · exact startCol_getSemanticName var

theorem lawful_output (shader : IoShader) :
    shader.outputRoutine.Lawful (shader.signatureVariables .output) where
  base_mem := by
    intro earlier var base found
    exact (outputBaseVar_mem found).1
  base_counted := by
    intro earlier var base varMem baseMem found counted
    have located := (outputBaseVar_mem found).2
    have mode : base.mode = var.mode :=
      (mem_variablesWithMode.mp (List.mem_of_mem_filter baseMem)).2.trans
        (mem_variablesWithMode.mp (List.mem_of_mem_filter varMem)).2.symm
    apply SignatureRoutine.placement_counted_of_kind _ mode counted
    simp only [outputRoutine]
    split_ifs
    · exact kind_getSemanticPsOutname located
    · exact kind_getSemanticName located
  fixed_lt := by
    intro var index fixed
    obtain ⟨target, rfl⟩ := SignatureRoutine.target_of_placement fixed
    simp only [outputRoutine] at target ⊢
    split_ifs at target ⊢
    · exact index_getSemanticPsOutname var target
    · exact absurd target (kind_getSemanticName_ne_target var)
  startCol_unset := by
    intro var
    simp only [outputRoutine]
    split_ifs
    · exact startCol_getSemanticPsOutname var
    · exact startCol_getSemanticName var

theorem lawful_patchConst (shader : IoShader) :
    shader.patchConstRoutine.Lawful (shader.signatureVariables .patchConst) where
  base_mem := by
    intro earlier var base found
    exact (findVariableWithLocation_mem found).1
  base_counted := by
    intro earlier var base varMem baseMem found counted
    have located := (findVariableWithLocation_mem found).2
    rw [signatureVariables] at varMem baseMem
    split_ifs at varMem baseMem
    · have mode : base.mode = var.mode :=
        (mem_variablesWithMode.mp (List.mem_of_mem_filter baseMem)).2.trans
          (mem_variablesWithMode.mp (List.mem_of_mem_filter varMem)).2.symm
      exact SignatureRoutine.placement_counted_of_kind (kind_getSemanticName located) mode counted
    · cases varMem
  fixed_lt := by
    intro var index fixed
    exact absurd (SignatureRoutine.target_of_placement fixed).1
      (kind_getSemanticName_ne_target var)
  startCol_unset := startCol_getSemanticName

theorem lawful_signatureRoutine (shader : IoShader) (inputClipSize : Nat)
    (kind : SignatureKind) :
    (shader.signatureRoutine inputClipSize kind).Lawful (shader.signatureVariables kind) := by
  cases kind with
  | input => exact shader.lawful_input inputClipSize _
  | output => exact shader.lawful_output
  | patchConst => exact shader.lawful_patchConst

theorem exists_fillIoSignature {shader : IoShader} {inputClipSize : Nat} {kind : SignatureKind}
    {signature : IoSignature}
    (mem : signature ∈ (shader.processSignature inputClipSize kind).signatures) :
    ∃ semantic : Semantic, semantic.fillIoSignature = signature := by
  rw [processSignature_eq] at mem
  rcases SignatureRoutine.mem_signatures_addAll mem with initial | filled
  · cases initial
  · exact filled

/-! ## Combined variables -/

/-- The variable with which a variable is combined, of those declared before it at its
location: none if it begins at the first component. An input is combined with the first one
that leaves its component free, counted from the first component, or else with the last. -/
def combinedWith (shader : IoShader) (kind : SignatureKind) (earlier : List IoVariable)
    (var : IoVariable) : Option IoVariable :=
  if var.locationFrac = 0 then none
  else match kind with
    | .input =>
      let here := earlier.filter fun other =>
        other.mode = var.mode ∧ other.location = var.location
      let leavesFree := here.find? fun other =>
        other.locationFrac = 0 ∧
          (other.vertexType shader.stage).getComponentSlots ≤ var.locationFrac
      leavesFree.or here.getLast?
    | .output => (earlier.find? (·.location = var.location)).filter (·.stream = var.stream)
    | .patchConst => earlier.find? (·.location = var.location)

theorem inputBaseLoop_eq (stage : ShaderStage) (var : IoVariable) (base : Option IoVariable)
    (vars : List IoVariable) :
    inputBaseLoop stage var base vars =
      (((vars.filter (·.location = var.location)).find? fun other =>
          other.locationFrac = 0 ∧ (other.vertexType stage).getComponentSlots ≤ var.locationFrac).or
        (vars.filter (·.location = var.location)).getLast?).or base := by
  induction vars generalizing base with
  | nil => rfl
  | cons head vars inductionHypothesis =>
    rw [inputBaseLoop]
    by_cases located : var.location = head.location
    · rw [if_pos located, List.filter_cons_of_pos (by simp [located]), List.find?_cons]
      split_ifs with room
      · simp [room]
      · rw [inductionHypothesis]
        simp only [room, decide_false]
        cases lastEq : (vars.filter (·.location = var.location)).getLast? with
        | none => simp [List.getLast?_eq_none_iff.mp lastEq]
        | some last =>
          rw [List.getLast?_cons, lastEq]
          simp
    · rw [if_neg located, inductionHypothesis,
        List.filter_cons_of_neg (by simpa using Ne.symm located)]

theorem baseVar_signatureRoutine (shader : IoShader) (inputClipSize : Nat)
    (kind : SignatureKind) :
    (shader.signatureRoutine inputClipSize kind).baseVar = shader.combinedWith kind := by
  funext earlier var
  cases kind with
  | input =>
    simp only [signatureRoutine, wholeInputRoutine, inputBaseVar, combinedWith]
    split_ifs
    · rfl
    · rw [inputBaseLoop_eq, List.filter_filter, Option.or_none]
      simp only [Bool.and_comm, Bool.decide_and]
  | output =>
    simp only [signatureRoutine, outputRoutine, outputBaseVar, findVariableWithLocation,
      combinedWith]
    split_ifs <;> rfl
  | patchConst => rfl

/-- A signature whose variables have slots of their own is free of collisions just when its
declarations can be packed. -/
theorem collisionFree_processSignature_iff (shader : IoShader) (inputClipSize : Nat)
    (kind : SignatureKind)
    (slots : (shader.signatureRoutine inputClipSize kind).HasSlots
      (shader.signatureVariables kind)) :
    (shader.processSignature inputClipSize kind).CollisionFree
        (shader.signatureRoutine inputClipSize kind).counter (shader.signatureVariables kind) ↔
      (shader.signatureRoutine inputClipSize kind).PacksApart (shader.combinedWith kind)
        (shader.signatureVariables kind) := by
  have lawful := shader.lawful_signatureRoutine inputClipSize kind
  rw [processSignature_eq, SignatureRoutine.collisionFree_addAll_iff lawful slots,
    SignatureRoutine.placedApart_iff lawful slots, baseVar_signatureRoutine]

def packedVector : IoVariable where
  type := .vector 32 3
  mode := .shaderIn
  location := 32
  locationFrac := 0
  driverLocation := 0
  locationFrac_lt := by decide
  index_lt := by decide

/-- A scalar in the component that `packedVector` leaves free. -/
def packedScalar : IoVariable :=
  { packedVector with
    type := .vector 32 1, locationFrac := 3, driverLocation := 1, locationFrac_lt := by decide }

def packedPair : IoShader where
  stage := .fragment
  vars := [packedVector, packedScalar]
  clipDistanceArraySize := 0
  patch_eq := by decide

theorem collisionFree_packedPair :
    (packedPair.processSignature 0 .input).CollisionFree (fun _ => 0)
      [packedVector, packedScalar] := by
  apply (packedPair.collisionFree_processSignature_iff 0 .input ?slots).mpr
  case slots => exact ⟨by decide +kernel, by decide +kernel, by decide +kernel⟩
  have counted : ∀ var ∈ packedPair.signatureVariables .input,
      (packedPair.signatureRoutine 0 .input).placement var = .counted := by
    decide +kernel
  have openersEq : (packedPair.signatureRoutine 0 .input).openers (packedPair.combinedWith .input)
      (packedPair.signatureVariables .input) = [packedVector] := by
    decide +kernel
  have besides : ∀ var ∈ packedPair.signatureVariables .input,
      ∀ other ∈ packedPair.signatureVariables .input, var ≠ other →
        (packedPair.signatureRoutine 0 .input).ColumnsApart var other := by
    decide +kernel
  refine ⟨by decide +kernel, by decide +kernel, ?targets, ?combined, ?overrun, ?indices⟩
  case targets =>
    intro var mem other otherMem different sameStream index fixed
    rw [counted var mem] at fixed
    cases fixed
  case combined =>
    intro var mem other otherMem different sameStream _ _ sameOpener
    exact besides var mem other otherMem different
  case overrun =>
    intro var mem other otherMem sameStream _ _ meets left between right split
    have two := congrArg List.length split
    rw [openersEq, List.length_append, List.length_append, List.length_cons] at two
    simp only [List.length_cons, List.length_nil] at two
    omega
  case indices =>
    intro var mem other otherMem sameStream _ index fixed
    rw [counted other otherMem] at fixed
    cases fixed

/-- Two scalar attributes of a vertex shader in one location, which is their driver
location. -/
def sharedAttribute : IoShader where
  stage := .vertex
  vars :=
    [{ packedVector with type := .vector 32 1, location := 15 },
     { packedScalar with location := 15, driverLocation := 0 }]
  clipDistanceArraySize := 0
  patch_eq := by decide

theorem not_collisionFree_sharedAttribute :
    (sharedAttribute.signatureRoutine 0 .input).HasSlots
        (sharedAttribute.signatureVariables .input) ∧
      ¬ (sharedAttribute.processSignature 0 .input).CollisionFree (fun _ => 0)
        (sharedAttribute.signatureVariables .input) := by
  constructor
  · exact ⟨by decide +kernel, by decide +kernel, by decide +kernel⟩
  · intro collisionFree
    have first := collisionFree.mapped 0 _ rfl
    revert first
    decide +kernel

end IoShader

end SpirvToDxil
