import SpirvToDxil.Dxil.SignatureElements

/-!
# Splitting clip and cull distances

`dxil_nir_split_clip_cull_distance`. The derefs of a shader are visited in order; the first
variable of each direction that has to be split is cut in two, and accesses behind the cut move
to the new variable. `first_run` says which variable that is, and `run_results` where each
element ends up.
-/

namespace SpirvToDxil

def VARYING_SLOT_CULL_DIST1 : Nat := 20

/-- The derefs that the pass looks at: of a variable, of the array for one vertex, and of a
distance with a constant index. -/
inductive IoDeref (Target : Type) where
  | var (target : Target)
  | vertex (target : Target) (vertex : Nat)
  | element (target : Target) (vertex : Option Nat) (index : Nat)
  deriving DecidableEq

def IoDeref.target {Target : Type} : IoDeref Target → Target
  | var target => target
  | vertex target _ => target
  | element target _ _ => target

/-- A variable of the shader, or one of the two that are added. -/
inductive ClipCullTarget where
  | old (var : Nat)
  | new (idx : Fin 2)
  deriving DecidableEq

def IoDeref.old : IoDeref Nat → IoDeref ClipCullTarget
  | var target => var (.old target)
  | vertex target operand => vertex (.old target) operand
  | element target operand index => element (.old target) operand index

/-- The end of the pass: an index past `oldLength` is one of the new variable. -/
def IoDeref.redirect (idx : Fin 2) (oldLength : Nat) : IoDeref Nat → IoDeref ClipCullTarget
  | element target operand index =>
    if index < oldLength then element (.old target) operand index
    else element (.new idx) operand (index - oldLength)
  | deref => deref.old

namespace IoVariable

def isClipCull (var : IoVariable) : Bool :=
  VARYING_SLOT_CLIP_DIST0 ≤ var.location && var.location ≤ VARYING_SLOT_CULL_DIST1 && var.compact

def newVarIdx (var : IoVariable) : Fin 2 := if var.mode = .shaderIn then 0 else 1

def floatArray (length : Nat) : GlslType := .array (.vector 32 1) length 0

/-- The variable with an array of `length` floats, for each vertex when there are several. -/
def withLength (stage : ShaderStage) (length : Nat) (var : IoVariable) : IoVariable :=
  { var with
    type :=
      if var.isArrayedIo stage then .array (floatArray length) var.type.getLength 0
      else floatArray length }

def oldLength (stage : ShaderStage) (var : IoVariable) : Nat := (var.vertexType stage).getLength

def clipSizeAccurate (stage : ShaderStage) (var : IoVariable) : Bool :=
  var.mode = .shaderOut || stage = .fragment

/-- How many floats the new variable gets, and whether it is cut at the clip size. -/
def newLength (stage : ShaderStage) (clipDistanceArraySize : Nat) (var : IoVariable) :
    Option (Nat × Bool) :=
  if 4 < var.oldLength stage + var.locationFrac then
    some (var.oldLength stage + var.locationFrac - 4, false)
  else if var.clipSizeAccurate stage then
    let start := (var.location - VARYING_SLOT_CLIP_DIST0) * 4
    let stop := start + var.oldLength stage
    -- `location_frac` has no part in these bounds
    if clipDistanceArraySize ≤ start ∨ stop ≤ clipDistanceArraySize then none
    else some (stop - clipDistanceArraySize, true)
  else none

def newVar (stage : ShaderStage) (var : IoVariable) (length : Nat) (isClipCullSplit : Bool) :
    IoVariable :=
  if isClipCullSplit then
    { var.withLength stage length with
      locationFrac := (var.oldLength stage - length) % 4
      locationFrac_lt := Nat.mod_lt _ (by decide) }
  else
    { var.withLength stage length with
      location := var.location + 1
      locationFrac := 0
      locationFrac_lt := GlslType.vec4_pos }

end IoVariable

structure ClipCullState where
  vars : Nat → IoVariable
  newVar : Fin 2 → Option IoVariable

namespace ClipCullState

/-- `dxil_nir_split_clip_cull_distance_instr`. -/
def step (stage : ShaderStage) (clipDistanceArraySize : Nat) (params : ClipCullState)
    (deref : IoDeref Nat) : ClipCullState × IoDeref ClipCullTarget :=
  let var := params.vars deref.target
  if !var.isClipCull then (params, deref.old)
  else if (params.newVar var.newVarIdx).isSome then
    (params, deref.redirect var.newVarIdx (var.oldLength stage))
  else
    match var.newLength stage clipDistanceArraySize with
    | none => (params, deref.old)
    | some (length, isClipCullSplit) =>
      let oldLength := var.oldLength stage - length
      ({ vars := Function.update params.vars deref.target (var.withLength stage oldLength)
         newVar := Function.update params.newVar var.newVarIdx
           (some (var.newVar stage length isClipCullSplit)) },
        deref.redirect var.newVarIdx oldLength)

def run (stage : ShaderStage) (clipDistanceArraySize : Nat) (params : ClipCullState) :
    List (IoDeref Nat) → ClipCullState × List (IoDeref ClipCullTarget)
  | [] => (params, [])
  | deref :: derefs =>
    let stepped := params.step stage clipDistanceArraySize deref
    let rest := stepped.1.run stage clipDistanceArraySize derefs
    (rest.1, stepped.2 :: rest.2)

end ClipCullState

def splitClipCullDistance (stage : ShaderStage) (clipDistanceArraySize : Nat)
    (vars : Nat → IoVariable) (derefs : List (IoDeref Nat)) :
    ClipCullState × List (IoDeref ClipCullTarget) :=
  ClipCullState.run stage clipDistanceArraySize ⟨vars, fun _ => none⟩ derefs

/-! ## The variable that is cut -/

namespace IoVariable

variable (stage : ShaderStage) (size : Nat) (var : IoVariable)

theorem isArray_of_oldLength (positive : 0 < var.oldLength stage) : var.type.isArray = true := by
  rw [oldLength, vertexType] at positive
  split at positive
  · next arrayed =>
      rw [isArrayedIo] at arrayed
      split at arrayed
      · cases arrayed
      · next kept => simp_all
  · cases h : var.type <;> simp_all [GlslType.getLength, GlslType.isArray]

theorem oldLength_withLength {length : Nat} (isArray : var.type.isArray = true) :
    (var.withLength stage length).oldLength stage = length := by
  have arrayed : (var.withLength stage length).isArrayedIo stage = var.isArrayedIo stage := by
    have same : (var.withLength stage length).type.isArray = var.type.isArray := by
      rw [isArray, withLength]
      simp only
      split <;> rfl
    rw [isArrayedIo, isArrayedIo, same]
    rfl
  rw [oldLength, vertexType, arrayed, withLength]
  split <;> rfl

theorem newLength_bounds {length : Nat} {clipCull : Bool}
    (cut : var.newLength stage size = some (length, clipCull)) :
    0 < length ∧ length < var.oldLength stage := by
  have frac := var.locationFrac_lt
  simp only [newLength] at cut
  split_ifs at cut with crosses accurate outside
  · obtain ⟨rfl, -⟩ := Prod.mk.inj (Option.some.inj cut)
    omega
  · obtain ⟨rfl, -⟩ := Prod.mk.inj (Option.some.inj cut)
    omega

end IoVariable

section Run

variable (stage : ShaderStage) (size : Nat) (vars : Nat → IoVariable)

def cut (v : Nat) : Option (Nat × Bool) :=
  ((vars v).newLength stage size).map fun (length, clipCull) =>
    ((vars v).oldLength stage - length, clipCull)

def claim (first : Fin 2 → Option Nat) (deref : IoDeref Nat) : Fin 2 → Option Nat :=
  let var := vars deref.target
  if var.isClipCull ∧ first var.newVarIdx = none ∧ (cut stage size vars deref.target).isSome then
    Function.update first var.newVarIdx (some deref.target)
  else first

/-- The state of the pass once `first` have been cut. -/
def cutState (first : Fin 2 → Option Nat) : ClipCullState where
  vars v :=
    if first (vars v).newVarIdx = some v then
      ((cut stage size vars v).map fun kept => (vars v).withLength stage kept.1).getD (vars v)
    else vars v
  newVar k := (first k).bind fun v => ((vars v).newLength stage size).map fun (length, clipCull) =>
    (vars v).newVar stage length clipCull

/-- The variables that are cut have to be. -/
def Cuts (first : Fin 2 → Option Nat) : Prop :=
  ∀ k v, first k = some v → (vars v).newVarIdx = k ∧ (vars v).isClipCull = true ∧
    (cut stage size vars v).isSome = true

/-- Where a deref goes once `first` have been cut. -/
def settle (first : Fin 2 → Option Nat) (deref : IoDeref Nat) : IoDeref ClipCullTarget :=
  let var := vars deref.target
  if !var.isClipCull then deref.old
  else
    match first var.newVarIdx with
    | none => deref.old
    | some v =>
      deref.redirect var.newVarIdx
        (if v = deref.target then ((cut stage size vars v).map Prod.fst).getD 0
        else var.oldLength stage)

variable {stage size vars} {first : Fin 2 → Option Nat}

theorem Cuts.claim (cuts : Cuts stage size vars first) (deref : IoDeref Nat) :
    Cuts stage size vars (claim stage size vars first deref) := by
  simp only [SpirvToDxil.claim]
  split
  · next claims =>
      intro k v found
      by_cases here : k = (vars deref.target).newVarIdx
      · subst here
        rw [Function.update_self] at found
        cases found
        exact ⟨rfl, claims.1, claims.2.2⟩
      · rw [Function.update_of_ne here] at found
        exact cuts k v found
  · exact cuts

theorem cutState_isClipCull (v : Nat) :
    ((cutState stage size vars first).vars v).isClipCull = (vars v).isClipCull := by
  simp only [cutState]
  split
  · cases cut stage size vars v <;> rfl
  · rfl

theorem cutState_newVarIdx (v : Nat) :
    ((cutState stage size vars first).vars v).newVarIdx = (vars v).newVarIdx := by
  simp only [cutState]
  split
  · cases cut stage size vars v <;> rfl
  · rfl

theorem cutState_newVar_isSome (cuts : Cuts stage size vars first) (k : Fin 2) :
    ((cutState stage size vars first).newVar k).isSome = (first k).isSome := by
  simp only [cutState]
  cases found : first k with
  | none => rfl
  | some v =>
      have isSome := (cuts k v found).2.2
      rw [cut, Option.isSome_map] at isSome
      rw [Option.bind_some, Option.isSome_map, isSome]
      rfl

/-- One deref cuts its variable if nothing was cut before, and goes where it belongs. -/
theorem step_cutState (cuts : Cuts stage size vars first) (deref : IoDeref Nat) :
    (cutState stage size vars first).step stage size deref =
      (cutState stage size vars (claim stage size vars first deref),
        settle stage size vars (claim stage size vars first deref) deref) := by
  rw [ClipCullState.step]
  simp only [cutState_isClipCull, cutState_newVarIdx, cutState_newVar_isSome cuts]
  by_cases other : (vars deref.target).isClipCull = true
  · rw [if_neg (by simp [other])]
    cases found : first (vars deref.target).newVarIdx with
    | some v =>
        have kept : claim stage size vars first deref = first := by
          simp [claim, found]
        rw [if_pos Option.isSome_some, kept, settle]
        simp only [other, found, Bool.not_true, Bool.false_eq_true, if_false]
        congr 2
        simp only [cutState, found, Option.some.injEq]
        split
        · next same =>
            subst same
            obtain ⟨_, _, isSome⟩ := cuts _ _ found
            obtain ⟨kept, here⟩ := Option.isSome_iff_exists.mp isSome
            obtain ⟨⟨length, clipCull⟩, parts, rfl⟩ := Option.map_eq_some_iff.mp here
            have bounds := (vars deref.target).newLength_bounds stage size parts
            rw [here, Option.map_some, Option.getD_some, Option.map_some, Option.getD_some,
              IoVariable.oldLength_withLength]
            exact (vars deref.target).isArray_of_oldLength stage (by omega)
        · rfl
    | none =>
        have same : (cutState stage size vars first).vars deref.target = vars deref.target := by
          simp [cutState, found]
        rw [if_neg (by simp), same]
        cases parts : (vars deref.target).newLength stage size with
        | none =>
            have kept : claim stage size vars first deref = first := by
              simp [claim, cut, parts]
            rw [kept, settle]
            simp only [other, found, Bool.not_true, Bool.false_eq_true, if_false]
        | some length =>
            obtain ⟨length, clipCull⟩ := length
            have claimed : claim stage size vars first deref =
                Function.update first (vars deref.target).newVarIdx (some deref.target) := by
              simp [claim, cut, parts, found, other]
            have kept : cut stage size vars deref.target =
                some ((vars deref.target).oldLength stage - length, clipCull) := by
              rw [cut, parts]
              rfl
            rw [claimed, settle]
            simp only [other, Function.update_self, Bool.not_true, Bool.false_eq_true, if_false,
              kept, if_pos, Option.map_some, Option.getD_some]
            congr 1
            rw [cutState, cutState]
            congr 1
            · funext v
              by_cases here : v = deref.target
              · subst here
                simp [kept]
              · rw [Function.update_of_ne here]
                by_cases idx : (vars v).newVarIdx = (vars deref.target).newVarIdx
                · have others : deref.target ≠ v := fun same => here same.symm
                  simp [idx, found, others]
                · rw [Function.update_of_ne idx]
            · funext k
              by_cases idx : k = (vars deref.target).newVarIdx
              · subst idx
                simp [parts]
              · rw [Function.update_of_ne idx, Function.update_of_ne idx]
  · have unchanged : claim stage size vars first deref = first := by
      simp [claim, other]
    rw [if_pos (by simp [other]), unchanged, settle]
    simp [other]

/-- The first variable of a direction that is used and has to be cut. -/
def firstCut (stage : ShaderStage) (size : Nat) (vars : Nat → IoVariable)
    (derefs : List (IoDeref Nat)) (k : Fin 2) : Option Nat :=
  (derefs.find? fun deref => (vars deref.target).isClipCull &&
    (vars deref.target).newVarIdx = k && (cut stage size vars deref.target).isSome).map
    IoDeref.target

theorem claim_kept (deref : IoDeref Nat) {k : Fin 2} {v : Nat} (found : first k = some v) :
    claim stage size vars first deref k = some v := by
  simp only [claim]
  split
  · next claims =>
      rw [Function.update_of_ne]
      · exact found
      · rintro rfl
        rw [found] at claims
        exact absurd claims.2.1 (by simp)
  · exact found

/-- A variable that is used and not cut need not be. -/
theorem cut_of_free (deref : IoDeref Nat) (other : (vars deref.target).isClipCull = true)
    (free : claim stage size vars first deref (vars deref.target).newVarIdx = none) :
    cut stage size vars deref.target = none := by
  by_contra isSome
  cases found : first (vars deref.target).newVarIdx with
  | some v =>
      rw [claim_kept deref found] at free
      cases free
  | none =>
      rw [claim, if_pos ⟨other, found, Option.isSome_iff_ne_none.mpr isSome⟩,
        Function.update_self] at free
      cases free

theorem foldl_claim (derefs : List (IoDeref Nat)) (k : Fin 2) :
    derefs.foldl (claim stage size vars) first k =
      (first k).or (firstCut stage size vars derefs k) := by
  induction derefs generalizing first with
  | nil => simp [firstCut]
  | cons deref derefs inductionHypothesis =>
      rw [List.foldl_cons, inductionHypothesis]
      cases found : first k with
      | some v => rw [claim_kept deref found, Option.some_or, Option.some_or]
      | none =>
          rw [Option.none_or]
          by_cases claims : (vars deref.target).isClipCull = true ∧
              (vars deref.target).newVarIdx = k ∧ (cut stage size vars deref.target).isSome = true
          · obtain ⟨other, rfl, isSome⟩ := claims
            simp [claim, firstCut, other, isSome, found]
          · have unclaimed : claim stage size vars first deref k = none := by
              simp only [claim]
              split
              · next takes =>
                  rw [Function.update_of_ne]
                  · exact found
                  · rintro rfl
                    exact claims ⟨takes.1, rfl, takes.2.2⟩
              · exact found
            have passed : ((vars deref.target).isClipCull &&
                decide ((vars deref.target).newVarIdx = k) &&
                (cut stage size vars deref.target).isSome) = false := by
              by_contra taken
              simp only [Bool.not_eq_false, Bool.and_eq_true, decide_eq_true_eq] at taken
              exact claims ⟨taken.1.1, taken.1.2, taken.2⟩
            rw [unclaimed, Option.none_or, firstCut, firstCut, List.find?_cons, passed]

theorem Cuts.foldl (cuts : Cuts stage size vars first) (derefs : List (IoDeref Nat)) :
    Cuts stage size vars (derefs.foldl (SpirvToDxil.claim stage size vars) first) := by
  induction derefs generalizing first with
  | nil => exact cuts
  | cons deref derefs inductionHypothesis => exact inductionHypothesis (cuts.claim deref)

/-- What is cut later does not move an element that was settled. -/
theorem settle_later {final : Fin 2 → Option Nat} (cuts : Cuts stage size vars final)
    (later : ∀ k v, first k = some v → final k = some v) {v index : Nat} {vertex : Option Nat}
    (claimed : (vars v).isClipCull = true → first (vars v).newVarIdx = none →
      cut stage size vars v = none)
    (inside : index < (vars v).oldLength stage) :
    settle stage size vars first (.element v vertex index) =
      settle stage size vars final (.element v vertex index) := by
  by_cases other : (vars v).isClipCull = true
  · simp only [settle, IoDeref.target, other, Bool.not_true, Bool.false_eq_true, if_false]
    cases found : first (vars v).newVarIdx with
    | some w => rw [later _ w found]
    | none =>
        cases foundLater : final (vars v).newVarIdx with
        | none => rfl
        | some w =>
            have others : w ≠ v := by
              rintro rfl
              have isSome := (cuts _ w foundLater).2.2
              rw [claimed other found] at isSome
              cases isSome
            simp [IoDeref.redirect, IoDeref.old, others, inside]
  · simp [settle, IoDeref.target, other]

/-- The pass cuts the first variable of each direction, and puts every element where that
leaves it. -/
theorem run_cutState (cuts : Cuts stage size vars first) (derefs : List (IoDeref Nat)) :
    ((cutState stage size vars first).run stage size derefs).1 =
        cutState stage size vars (derefs.foldl (claim stage size vars) first) ∧
      ∀ (k v : Nat) vertex index, derefs[k]? = some (.element v vertex index) →
        index < (vars v).oldLength stage →
        ((cutState stage size vars first).run stage size derefs).2[k]? =
          some (settle stage size vars (derefs.foldl (claim stage size vars) first)
            (.element v vertex index)) := by
  induction derefs generalizing first with
  | nil => exact ⟨rfl, fun _ _ _ _ here => by simp at here⟩
  | cons deref derefs inductionHypothesis =>
      have claimed := cuts.claim deref
      obtain ⟨state, results⟩ := inductionHypothesis claimed
      rw [ClipCullState.run, step_cutState cuts]
      refine ⟨state, ?_⟩
      intro k v vertex index here inside
      cases k with
      | succ k => exact results k v vertex index here inside
      | zero =>
          cases here
          rw [List.getElem?_cons_zero, Option.some.injEq]
          apply settle_later (claimed.foldl derefs) _ _ inside
          · intro k w found
            rw [foldl_claim, found, Option.some_or]
          · intro other free
            exact cut_of_free _ other free

end Run

/-! ## Positions of elements -/

/-- The flat component position of an element. -/
def IoVariable.position (var : IoVariable) (index : Nat) : Nat :=
  4 * var.location + var.locationFrac + index

def AtCull (clipSize position : Nat) : Prop := 4 * VARYING_SLOT_CLIP_DIST0 + clipSize ≤ position

/-- The signature element of the variable is one of cull distances. -/
def IoVariable.IsCull (stage : ShaderStage) (clipSize : Nat) (var : IoVariable) : Prop :=
  (getAdditionalSemanticInfo stage var { kind := .clipDistance } 0 clipSize).1.kind = .cullDistance

theorem IoVariable.isClipCull_iff {var : IoVariable} :
    var.isClipCull = true ↔ VARYING_SLOT_CLIP_DIST0 ≤ var.location ∧
      var.location ≤ VARYING_SLOT_CULL_DIST1 ∧ var.compact = true := by
  simp only [isClipCull, Bool.and_eq_true, decide_eq_true_eq, and_assoc]

theorem IoVariable.isCull_iff {var : IoVariable} (stage : ShaderStage) (clipSize : Nat)
    (compact : var.compact = true) (above : VARYING_SLOT_CLIP_DIST0 ≤ var.location)
    (below : var.location ≤ VARYING_SLOT_CULL_DIST1 + 1) :
    var.IsCull stage clipSize ↔ AtCull clipSize (var.position 0) := by
  have frac := var.locationFrac_lt
  rw [VARYING_SLOT_CLIP_DIST0] at above
  rw [VARYING_SLOT_CULL_DIST1] at below
  have offset : (((var.location : Int) - 17) * 4 + var.locationFrac) % 2 ^ 32 =
      ((var.location : Int) - 17) * 4 + var.locationFrac := by
    apply Int.emod_eq_of_lt <;> omega
  simp only [IsCull, getAdditionalSemanticInfo, compact, isDepthOutput, VARYING_SLOT_CLIP_DIST0,
    AtCull, position]
  split_ifs <;> simp_all
  all_goals omega

def ClipCullState.lookup (params : ClipCullState) : ClipCullTarget → Option IoVariable
  | .old v => some (params.vars v)
  | .new idx => params.newVar idx

/-! ## Which elements stay -/

namespace IoVariable

variable (stage : ShaderStage) (size inputClipSize : Nat) (var : IoVariable)

/-- The clip size that the signature of the variable is made with. -/
def clipSize : Nat := if var.clipSizeAccurate stage then size else inputClipSize

/-- The first component of the variable's vector, counted from the first clip distance. -/
def firstComponent : Nat := 4 * (var.location - VARYING_SLOT_CLIP_DIST0)

/-- The array goes on in the next vector. -/
def CrossesVector : Prop := 4 < var.locationFrac + var.oldLength stage

/-- The clip size is known, and inside of an array of this length from the first component on. -/
def StraddlesClipSize : Prop :=
  var.clipSizeAccurate stage ∧ var.firstComponent < size ∧
    size < var.firstComponent + var.oldLength stage

instance : Decidable (var.CrossesVector stage) := inferInstanceAs (Decidable (_ < _))

instance : Decidable (var.StraddlesClipSize stage size) := inferInstanceAs (Decidable (_ ∧ _))

end IoVariable

/-- Where an element is declared after the pass: what a variable has lost is in the new one. -/
def ClipCullState.place (stage : ShaderStage) (final : ClipCullState) (v index : Nat) :
    ClipCullTarget × Nat :=
  let kept := (final.vars v).oldLength stage
  if index < kept then (.old v, index) else (.new (final.vars v).newVarIdx, index - kept)

/-- The clip size does not separate the components. -/
def OneSided (clipSize start stop : Nat) : Prop := clipSize ≤ start ∨ stop ≤ clipSize

section Elements

variable (stage : ShaderStage) (size inputClipSize : Nat) (vars : Nat → IoVariable)
  (derefs : List (IoDeref Nat))

/-- The place is at the position of the element, in a variable of the right kind. -/
def KeepsElement (final : ClipCullState) (v index : Nat) (place : ClipCullTarget × Nat) : Prop :=
  ∃ var, final.lookup place.1 = some var ∧ place.2 < var.oldLength stage ∧
    var.position place.2 = (vars v).position index ∧
    (var.IsCull stage ((vars v).clipSize stage size inputClipSize) ↔
      AtCull ((vars v).clipSize stage size inputClipSize) ((vars v).position index))

/-- The first accessed variable of a direction that crosses into the next vector, or straddles the
clip size. -/
def cutVariable (k : Fin 2) : Option Nat :=
  (derefs.find? fun deref => (vars deref.target).isClipCull &&
    (vars deref.target).newVarIdx = k && ((vars deref.target).CrossesVector stage ∨
      (vars deref.target).StraddlesClipSize stage size)).map IoDeref.target

/-- A variable that is cut between two vectors has one kind of distances in each. One that is cut at
the clip size starts at component 0. Any other has one kind of distances. -/
def StaysPut (v : Nat) : Prop :=
  let var := vars v
  let clipSize := var.clipSize stage size inputClipSize
  let start := var.firstComponent + var.locationFrac
  let stop := start + var.oldLength stage
  if cutVariable stage size vars derefs var.newVarIdx = some v then
    if var.CrossesVector stage then
      OneSided clipSize start (var.firstComponent + 4) ∧
        OneSided clipSize (var.firstComponent + 4) stop
    else var.locationFrac = 0
  else OneSided clipSize start stop

variable {stage size inputClipSize vars derefs} {first : Fin 2 → Option Nat}

theorem cut_eq (v : Nat) :
    cut stage size vars v =
      if (vars v).CrossesVector stage then some (4 - (vars v).locationFrac, false)
      else if (vars v).StraddlesClipSize stage size then
        some (size - (vars v).firstComponent, true)
      else none := by
  have frac := (vars v).locationFrac_lt
  have crossing : (vars v).CrossesVector stage ↔
      4 < (vars v).oldLength stage + (vars v).locationFrac := by
    rw [IoVariable.CrossesVector, Nat.add_comm]
  have start : ((vars v).location - VARYING_SLOT_CLIP_DIST0) * 4 = (vars v).firstComponent :=
    Nat.mul_comm ..
  rw [cut, IoVariable.newLength]
  by_cases crosses : (vars v).CrossesVector stage
  · have longer := crossing.mp crosses
    rw [if_pos longer, if_pos crosses, Option.map_some]
    exact congrArg (fun kept => some (kept, false)) (by omega)
  rw [if_neg (mt crossing.mpr crosses), if_neg crosses, start]
  by_cases accurate : (vars v).clipSizeAccurate stage = true
  · rw [if_pos accurate]
    by_cases inside : (vars v).firstComponent < size ∧
        size < (vars v).firstComponent + (vars v).oldLength stage
    · have outside : ¬ (size ≤ (vars v).firstComponent ∨
          (vars v).firstComponent + (vars v).oldLength stage ≤ size) := by omega
      simp only [if_neg outside, Option.map_some]
      rw [if_pos ⟨accurate, inside⟩]
      exact congrArg (fun kept => some (kept, true)) (by omega)
    · have outside : size ≤ (vars v).firstComponent ∨
          (vars v).firstComponent + (vars v).oldLength stage ≤ size := by omega
      simp only [if_pos outside, Option.map_none]
      rw [if_neg fun straddles => inside straddles.2]
  · rw [if_neg accurate, Option.map_none, if_neg fun straddles => accurate straddles.1]

theorem isSome_cut_iff (v : Nat) :
    (cut stage size vars v).isSome = true ↔
      (vars v).CrossesVector stage ∨ (vars v).StraddlesClipSize stage size := by
  rw [cut_eq]
  split
  · next crosses => exact iff_of_true rfl (Or.inl crosses)
  · next within =>
      split
      · next straddles => exact iff_of_true rfl (Or.inr straddles)
      · next whole => exact iff_of_false (by simp) (not_or.mpr ⟨within, whole⟩)

theorem firstCut_eq : firstCut stage size vars derefs = cutVariable stage size vars derefs := by
  funext k
  rw [firstCut, cutVariable]
  congr 2
  funext deref
  congr 1
  exact Bool.eq_iff_iff.mpr ((isSome_cut_iff deref.target).trans decide_eq_true_iff.symm)

theorem atCull_position {var : IoVariable} (above : VARYING_SLOT_CLIP_DIST0 ≤ var.location)
    (clipSize index : Nat) :
    AtCull clipSize (var.position index) ↔
      clipSize ≤ var.firstComponent + var.locationFrac + index := by
  rw [AtCull, IoVariable.position, IoVariable.firstComponent]
  omega

theorem oneSided_iff (clipSize start length : Nat) :
    (∀ i < length, (clipSize ≤ start ↔ clipSize ≤ start + i)) ↔
      OneSided clipSize start (start + length) := by
  constructor
  · intro same
    by_contra separated
    obtain ⟨behind, before⟩ := not_or.mp separated
    have side := same (clipSize - start) (by omega)
    omega
  · rintro (before | behind) i inside <;> omega

/-- Where the new variable starts: behind the kept floats when it is in the next vector, and
without the component of the old one when it is in the same. -/
theorem position_newVar {v kept : Nat} {clipCull : Bool}
    (found : first (vars v).newVarIdx = some v)
    (parts : cut stage size vars v = some (kept, clipCull)) :
    ∃ var, (cutState stage size vars first).newVar (vars v).newVarIdx = some var ∧
      var.compact = (vars v).compact ∧
      var.oldLength stage = (vars v).oldLength stage - kept ∧ (vars v).location ≤ var.location ∧
      var.location ≤ (vars v).location + 1 ∧
      ∀ i, var.position i + (if clipCull then (vars v).locationFrac else 0) =
        (vars v).position (kept + i) := by
  have frac := (vars v).locationFrac_lt
  obtain ⟨⟨length, clipCull⟩, cuts, same⟩ := Option.map_eq_some_iff.mp parts
  obtain ⟨rfl, rfl⟩ := Prod.mk.inj same
  refine ⟨(vars v).newVar stage length clipCull, ?_, ?_⟩
  · simp only [cutState, found, Option.bind_some, cuts, Option.map_some]
  · have bounds := (vars v).newLength_bounds stage size cuts
    have isArray := (vars v).isArray_of_oldLength stage (by omega)
    simp only [IoVariable.newLength] at cuts
    split_ifs at cuts with crosses accurate outside
    · obtain ⟨rfl, rfl⟩ := Prod.mk.inj (Option.some.inj cuts)
      refine ⟨rfl, ?_, Nat.le_succ _, Nat.le_refl _, ?_⟩
      · exact (IoVariable.oldLength_withLength stage (vars v) isArray).trans (by omega)
      intro i
      simp only [IoVariable.position, IoVariable.newVar, Bool.false_eq_true, if_false]
      omega
    · obtain ⟨rfl, rfl⟩ := Prod.mk.inj (Option.some.inj cuts)
      refine ⟨rfl, ?_, Nat.le_refl _, Nat.le_succ _, ?_⟩
      · exact (IoVariable.oldLength_withLength stage (vars v) isArray).trans (by omega)
      intro i
      simp only [IoVariable.position, IoVariable.newVar, if_true, IoVariable.withLength]
      omega

theorem lookup_old (v : Nat) :
    ∃ var, (cutState stage size vars first).lookup (.old v) = some var ∧
      var.compact = (vars v).compact ∧ var.location = (vars v).location ∧
      ∀ i, var.position i = (vars v).position i := by
  refine ⟨_, rfl, ?_⟩
  simp only [cutState]
  split
  · cases cut stage size vars v <;> exact ⟨rfl, rfl, fun _ => rfl⟩
  · exact ⟨rfl, rfl, fun _ => rfl⟩

theorem settle_behind {v kept index : Nat} {clipCull : Bool} {vertex : Option Nat}
    (clipCullVar : (vars v).isClipCull = true) (found : first (vars v).newVarIdx = some v)
    (parts : cut stage size vars v = some (kept, clipCull)) (behind : kept ≤ index) :
    settle stage size vars first (.element v vertex index) =
      .element (.new (vars v).newVarIdx) vertex (index - kept) := by
  simp [settle, IoDeref.target, clipCullVar, found, parts, IoDeref.redirect, behind]

theorem settle_kept {v index : Nat} {vertex : Option Nat} (cuts : Cuts stage size vars first)
    (inside : index < (vars v).oldLength stage)
    (kept : ∀ kept clipCull, first (vars v).newVarIdx = some v →
      cut stage size vars v = some (kept, clipCull) → index < kept) :
    settle stage size vars first (.element v vertex index) = .element (.old v) vertex index := by
  by_cases clipCullVar : (vars v).isClipCull = true
  · cases found : first (vars v).newVarIdx with
    | none => simp [settle, IoDeref.target, clipCullVar, found, IoDeref.old]
    | some w =>
        have below : index < if w = v then ((cut stage size vars w).map Prod.fst).getD 0
            else (vars v).oldLength stage := by
          split
          · next same =>
              subst same
              obtain ⟨⟨length, clipCull⟩, parts⟩ :=
                Option.isSome_iff_exists.mp (cuts _ _ found).2.2
              rw [parts]
              exact kept length clipCull found parts
          · exact inside
        simp only [settle, IoDeref.target, clipCullVar, found, Bool.not_true, Bool.false_eq_true,
          if_false]
        exact if_pos below
  · simp [settle, IoDeref.target, clipCullVar, IoDeref.old]

theorem oldLength_cutState {v kept : Nat} {clipCull : Bool}
    (found : first (vars v).newVarIdx = some v)
    (parts : cut stage size vars v = some (kept, clipCull)) :
    ((cutState stage size vars first).vars v).oldLength stage = kept := by
  obtain ⟨⟨length, clipCull⟩, cuts, -⟩ := Option.map_eq_some_iff.mp parts
  have bounds := (vars v).newLength_bounds stage size cuts
  simp only [cutState, found, if_true, parts, Option.map_some, Option.getD_some]
  exact (vars v).oldLength_withLength stage ((vars v).isArray_of_oldLength stage (by omega))

theorem oldLength_cutState_of_whole {v : Nat} (whole : first (vars v).newVarIdx ≠ some v) :
    ((cutState stage size vars first).vars v).oldLength stage = (vars v).oldLength stage := by
  simp only [cutState, if_neg whole]

/-- A variable that is not cut keeps the elements that are on the side of the first one. -/
theorem keepsElement_old {v index : Nat} (clipCullVar : (vars v).isClipCull = true)
    (inside : index < ((cutState stage size vars first).vars v).oldLength stage) :
    KeepsElement stage size inputClipSize vars (cutState stage size vars first) v index
        (.old v, index) ↔
      (AtCull ((vars v).clipSize stage size inputClipSize) ((vars v).position 0) ↔
        AtCull ((vars v).clipSize stage size inputClipSize) ((vars v).position index)) := by
  obtain ⟨above, below, compact⟩ := IoVariable.isClipCull_iff.mp clipCullVar
  obtain ⟨var, here, compactVar, location, position⟩ := @lookup_old stage size vars first v
  have isCull := var.isCull_iff stage ((vars v).clipSize stage size inputClipSize)
    (compactVar.trans compact) (location ▸ above) (location ▸ Nat.le_succ_of_le below)
  rw [position 0] at isCull
  constructor
  · rintro ⟨var', same, -, -, side⟩
    obtain rfl := Option.some.inj (here.symm.trans same)
    exact isCull.symm.trans side
  · intro side
    refine ⟨var, here, ?_, position index, isCull.trans side⟩
    obtain rfl := Option.some.inj here
    exact inside

/-- The new variable keeps the elements that are on the side of its first one, unless it is cut at
the clip size and does not start at component 0. -/
theorem keepsElement_new {v kept index : Nat} {clipCull : Bool}
    (clipCullVar : (vars v).isClipCull = true) (found : first (vars v).newVarIdx = some v)
    (parts : cut stage size vars v = some (kept, clipCull)) (behind : kept ≤ index)
    (inside : index < (vars v).oldLength stage) :
    KeepsElement stage size inputClipSize vars (cutState stage size vars first) v index
        (.new (vars v).newVarIdx, index - kept) ↔
      (clipCull = true → (vars v).locationFrac = 0) ∧
      (AtCull ((vars v).clipSize stage size inputClipSize) ((vars v).position kept) ↔
        AtCull ((vars v).clipSize stage size inputClipSize) ((vars v).position index)) := by
  obtain ⟨above, below, compact⟩ := IoVariable.isClipCull_iff.mp clipCullVar
  obtain ⟨var, here, compactVar, long, low, high, position⟩ := position_newVar found parts
  have start := position 0
  have element := position (index - kept)
  rw [Nat.add_zero] at start
  rw [Nat.add_sub_cancel' behind] at element
  have isCull := var.isCull_iff stage ((vars v).clipSize stage size inputClipSize)
    (compactVar.trans compact) (Nat.le_trans above low) (Nat.le_trans high (Nat.succ_le_succ below))
  constructor
  · rintro ⟨var', same, -, stays, side⟩
    obtain rfl := Option.some.inj (here.symm.trans same)
    have stays : var.position (index - kept) = (vars v).position index := stays
    have unmoved : (if clipCull then (vars v).locationFrac else 0) = 0 := by omega
    rw [unmoved] at start
    refine ⟨fun atClip => ?_, ?_⟩
    · rwa [if_pos atClip] at unmoved
    · rw [← start, ← side, isCull]
      rfl
  · rintro ⟨aligned, side⟩
    have unmoved : (if clipCull then (vars v).locationFrac else 0) = 0 := by
      split
      · next atClip => exact aligned atClip
      · rfl
    rw [unmoved] at start element
    have within : index - kept < var.oldLength stage := by omega
    refine ⟨var, here, within, element, ?_⟩
    rw [isCull, ← side, ← start]
    rfl

theorem place_cut {v kept : Nat} {clipCull : Bool} (found : first (vars v).newVarIdx = some v)
    (parts : cut stage size vars v = some (kept, clipCull)) (index : Nat) :
    (cutState stage size vars first).place stage v index =
      if index < kept then (.old v, index) else (.new (vars v).newVarIdx, index - kept) := by
  rw [ClipCullState.place, oldLength_cutState found parts, cutState_newVarIdx]

theorem place_whole {v index : Nat} (whole : first (vars v).newVarIdx ≠ some v)
    (inside : index < (vars v).oldLength stage) :
    (cutState stage size vars first).place stage v index = (.old v, index) := by
  rw [ClipCullState.place, oldLength_cutState_of_whole whole]
  exact if_pos inside

/-- An access goes where its element is declared. -/
theorem settle_eq_place {v index : Nat} (vertex : Option Nat) (cuts : Cuts stage size vars first)
    (clipCullVar : (vars v).isClipCull = true) (inside : index < (vars v).oldLength stage) :
    settle stage size vars first (.element v vertex index) =
      .element ((cutState stage size vars first).place stage v index).1 vertex
        ((cutState stage size vars first).place stage v index).2 := by
  by_cases found : first (vars v).newVarIdx = some v
  · obtain ⟨⟨kept, clipCull⟩, parts⟩ := Option.isSome_iff_exists.mp (cuts _ _ found).2.2
    rw [place_cut found parts]
    by_cases before : index < kept
    · rw [if_pos before]
      refine settle_kept cuts inside fun kept' clipCull' _ parts' => ?_
      obtain ⟨rfl, -⟩ := Prod.mk.inj (Option.some.inj (parts.symm.trans parts'))
      exact before
    · rw [if_neg before]
      exact settle_behind clipCullVar found parts (Nat.not_lt.mp before)
  · rw [place_whole found inside]
    exact settle_kept cuts inside fun _ _ found' => absurd found' found

theorem forall_lt_iff {part whole : Nat} (le : part ≤ whole) {property : Nat → Prop} :
    (∀ i < whole, property i) ↔
      (∀ i < part, property i) ∧ ∀ i < whole - part, property (part + i) := by
  constructor
  · exact fun all => ⟨fun i inside => all i (by omega), fun i inside => all (part + i) (by omega)⟩
  · rintro ⟨first, second⟩ i inside
    by_cases before : i < part
    · exact first i before
    · have later := second (i - part) (by omega)
      rwa [Nat.add_sub_cancel' (Nat.not_lt.mp before)] at later

/-- The elements in front of a cut, or all those of a whole variable, are on one side. -/
theorem forall_keepsElement_old {v length : Nat} (clipCullVar : (vars v).isClipCull = true)
    (within : length ≤ ((cutState stage size vars first).vars v).oldLength stage) :
    (∀ index < length, KeepsElement stage size inputClipSize vars (cutState stage size vars first)
      v index ((cutState stage size vars first).place stage v index)) ↔
      OneSided ((vars v).clipSize stage size inputClipSize)
        ((vars v).firstComponent + (vars v).locationFrac)
        ((vars v).firstComponent + (vars v).locationFrac + length) := by
  have above := (IoVariable.isClipCull_iff.mp clipCullVar).1
  rw [← oneSided_iff]
  refine forall₂_congr fun index inside => ?_
  have kept : index < ((cutState stage size vars first).vars v).oldLength stage :=
    Nat.lt_of_lt_of_le inside within
  have place : (cutState stage size vars first).place stage v index = (.old v, index) :=
    if_pos kept
  rw [place, keepsElement_old clipCullVar kept, atCull_position above, atCull_position above,
    Nat.add_zero]

theorem forall_keepsElement_new {v kept : Nat} {clipCull : Bool}
    (clipCullVar : (vars v).isClipCull = true) (found : first (vars v).newVarIdx = some v)
    (parts : cut stage size vars v = some (kept, clipCull))
    (bounded : kept < (vars v).oldLength stage) :
    (∀ index < (vars v).oldLength stage - kept,
      KeepsElement stage size inputClipSize vars (cutState stage size vars first) v (kept + index)
        ((cutState stage size vars first).place stage v (kept + index))) ↔
      (clipCull = true → (vars v).locationFrac = 0) ∧
        OneSided ((vars v).clipSize stage size inputClipSize)
          ((vars v).firstComponent + (vars v).locationFrac + kept)
          ((vars v).firstComponent + (vars v).locationFrac + kept +
            ((vars v).oldLength stage - kept)) := by
  have above := (IoVariable.isClipCull_iff.mp clipCullVar).1
  have element (index : Nat) (inside : index < (vars v).oldLength stage - kept) :
      KeepsElement stage size inputClipSize vars (cutState stage size vars first) v (kept + index)
        ((cutState stage size vars first).place stage v (kept + index)) ↔
      (clipCull = true → (vars v).locationFrac = 0) ∧
        ((vars v).clipSize stage size inputClipSize ≤
            (vars v).firstComponent + (vars v).locationFrac + kept ↔
          (vars v).clipSize stage size inputClipSize ≤
            (vars v).firstComponent + (vars v).locationFrac + kept + index) := by
    rw [place_cut found parts, if_neg (Nat.not_lt.mpr (Nat.le_add_right ..)),
      keepsElement_new clipCullVar found parts (Nat.le_add_right ..) (by omega),
      atCull_position above, atCull_position above, Nat.add_assoc _ kept index]
  rw [← oneSided_iff]
  constructor
  · intro keeps
    exact ⟨((element 0 (by omega)).mp (keeps 0 (by omega))).1, fun index inside =>
      ((element index inside).mp (keeps index inside)).2⟩
  · rintro ⟨aligned, sides⟩ index inside
    exact (element index inside).mpr ⟨aligned, sides index inside⟩

/-- The elements of a variable keep their positions and sides exactly when it stays put. -/
theorem keepsElement_iff {v : Nat} (clipCullVar : (vars v).isClipCull = true)
    (cuts : Cuts stage size vars (cutVariable stage size vars derefs)) :
    (∀ index < (vars v).oldLength stage,
      KeepsElement stage size inputClipSize vars
        (cutState stage size vars (cutVariable stage size vars derefs)) v index
        ((cutState stage size vars (cutVariable stage size vars derefs)).place stage v index)) ↔
      StaysPut stage size inputClipSize vars derefs v := by
  have frac := (vars v).locationFrac_lt
  rw [StaysPut]
  by_cases found : cutVariable stage size vars derefs (vars v).newVarIdx = some v
  · rw [if_pos found]
    obtain ⟨⟨kept, clipCull⟩, parts⟩ := Option.isSome_iff_exists.mp (cuts _ _ found).2.2
    have bounded : kept < (vars v).oldLength stage := by
      obtain ⟨⟨length, _⟩, newLength, same⟩ := Option.map_eq_some_iff.mp parts
      have bounds := (vars v).newLength_bounds stage size newLength
      obtain ⟨rfl, -⟩ := Prod.mk.inj same
      omega
    rw [forall_lt_iff (Nat.le_of_lt bounded),
      forall_keepsElement_old clipCullVar (oldLength_cutState found parts).ge,
      forall_keepsElement_new clipCullVar found parts bounded]
    rw [cut_eq] at parts
    by_cases crosses : (vars v).CrossesVector stage
    · rw [if_pos crosses] at parts ⊢
      obtain ⟨rfl, rfl⟩ := Prod.mk.inj (Option.some.inj parts)
      have middle : (vars v).firstComponent + (vars v).locationFrac + (4 - (vars v).locationFrac) =
          (vars v).firstComponent + 4 := by omega
      have stop : (vars v).firstComponent + 4 +
          ((vars v).oldLength stage - (4 - (vars v).locationFrac)) =
          (vars v).firstComponent + (vars v).locationFrac + (vars v).oldLength stage := by omega
      rw [middle, stop]
      simp only [Bool.false_eq_true, false_implies, true_and]
    · rw [if_neg crosses] at parts ⊢
      obtain ⟨straddles, same⟩ := Option.ite_none_right_eq_some.mp parts
      obtain ⟨rfl, rfl⟩ := Prod.mk.inj (Option.some.inj same)
      obtain ⟨accurate, low, high⟩ := straddles
      have clipSize : (vars v).clipSize stage size inputClipSize = size := if_pos accurate
      rw [clipSize]
      constructor
      · rintro ⟨-, aligned, -⟩
        exact aligned rfl
      · intro aligned
        rw [aligned, OneSided, OneSided]
        omega
  · rw [if_neg found, forall_keepsElement_old clipCullVar (oldLength_cutState_of_whole found).ge]

/-- What the pass is to do to a shader of `count` variables: every declared element is declared at
its position in a variable of the right kind, the accesses go there, and elements at different
positions stay apart. -/
structure KeepsElements (stage : ShaderStage) (size inputClipSize count : Nat)
    (vars : Nat → IoVariable) (derefs : List (IoDeref Nat)) (final : ClipCullState)
    (results : List (IoDeref ClipCullTarget)) : Prop where
  declared : ∀ v < count, (vars v).isClipCull = true → ∀ index < (vars v).oldLength stage,
    KeepsElement stage size inputClipSize vars final v index (final.place stage v index)
  accessed : ∀ (k v : Nat) vertex index, derefs[k]? = some (.element v vertex index) →
    v < count → (vars v).isClipCull = true → index < (vars v).oldLength stage →
    results[k]? =
      some (.element (final.place stage v index).1 vertex (final.place stage v index).2)
  apart : ∀ v < count, ∀ v' < count, ∀ index < (vars v).oldLength stage,
    ∀ index' < (vars v').oldLength stage, (vars v).isClipCull = true →
    (vars v').isClipCull = true → (vars v).position index ≠ (vars v').position index' →
    ∀ var var', final.lookup (final.place stage v index).1 = some var →
      final.lookup (final.place stage v' index').1 = some var' →
      var.position (final.place stage v index).2 ≠ var'.position (final.place stage v' index').2

/-- The pass keeps the elements exactly when each variable stays put. -/
theorem keepsElements_iff (stage : ShaderStage) (size inputClipSize count : Nat)
    (vars : Nat → IoVariable) (derefs : List (IoDeref Nat)) :
    KeepsElements stage size inputClipSize count vars derefs
        (splitClipCullDistance stage size vars derefs).1
        (splitClipCullDistance stage size vars derefs).2 ↔
      ∀ v < count, (vars v).isClipCull = true →
        StaysPut stage size inputClipSize vars derefs v := by
  have none : Cuts stage size vars fun _ => none := fun _ _ found => by cases found
  have initial : (⟨vars, fun _ => Option.none⟩ : ClipCullState) =
      cutState stage size vars fun _ => Option.none := by simp [cutState]
  have cutFirst : derefs.foldl (claim stage size vars) (fun _ => Option.none) =
      cutVariable stage size vars derefs := by
    funext k
    rw [foldl_claim, Option.none_or, firstCut_eq]
  have cuts := none.foldl derefs
  obtain ⟨state, results⟩ := run_cutState none derefs
  rw [cutFirst] at cuts state results
  rw [← initial] at state results
  have state : (splitClipCullDistance stage size vars derefs).1 =
      cutState stage size vars (cutVariable stage size vars derefs) := state
  constructor
  · intro keeps v small clipCull
    refine (keepsElement_iff clipCull cuts).mp fun index inside => ?_
    exact state ▸ keeps.declared v small clipCull index inside
  · intro stays
    have declared : ∀ v < count, (vars v).isClipCull = true →
        ∀ index < (vars v).oldLength stage,
          KeepsElement stage size inputClipSize vars
            (splitClipCullDistance stage size vars derefs).1 v index
            ((splitClipCullDistance stage size vars derefs).1.place stage v index) := by
      intro v small clipCull
      rw [state]
      exact (keepsElement_iff clipCull cuts).mpr (stays v small clipCull)
    refine ⟨declared, ?_, ?_⟩
    · intro k v vertex index here small clipCull inside
      rw [state, ← settle_eq_place vertex cuts clipCull inside]
      exact results k v vertex index here inside
    · intro v small v' small' index inside index' inside' clipCull clipCull' differ var var' found
        found'
      obtain ⟨_, own, -, position, -⟩ := declared v small clipCull index inside
      obtain ⟨_, own', -, position', -⟩ := declared v' small' clipCull' index' inside'
      cases own.symm.trans found
      cases own'.symm.trans found'
      rw [position, position']
      exact differ

end Elements

/-- One clip distance and two cull distances behind it in the same vector. -/
def mergedDistances (v : Nat) : IoVariable where
  type := IoVariable.floatArray (if v = 0 then 1 else 2)
  mode := .shaderOut
  location := VARYING_SLOT_CLIP_DIST0
  locationFrac := if v = 0 then 0 else 1
  driverLocation := v
  compact := true
  locationFrac_lt := by split <;> decide
  index_lt := Nat.two_pos

/-- The second cull distance moves to the component of the first. -/
theorem splitClipCull_not_keeps :
    ¬ KeepsElements .vertex 1 1 2 mergedDistances
      [.var 0, .element 0 none 0, .var 1, .element 1 none 0, .element 1 none 1]
      (splitClipCullDistance .vertex 1 mergedDistances
        [.var 0, .element 0 none 0, .var 1, .element 1 none 0, .element 1 none 1]).1
      (splitClipCullDistance .vertex 1 mergedDistances
        [.var 0, .element 0 none 0, .var 1, .element 1 none 0, .element 1 none 1]).2 := by
  intro keeps
  obtain ⟨var, found, -, position, -⟩ := keeps.declared 1 (by decide) (by decide) 1 (by decide)
  have there : (splitClipCullDistance .vertex 1 mergedDistances
      [.var 0, .element 0 none 0, .var 1, .element 1 none 0, .element 1 none 1]).1.lookup
      (.new 1) = some ((mergedDistances 1).newVar .vertex 1 true) := by decide
  cases there.symm.trans found
  revert position
  decide

end SpirvToDxil
