import SpirvToDxil.Dxil.SignatureElements
import SpirvToDxil.Util.Placement

/-!
# Linking the varyings of two stages

`dxil_spirv_nir_link` from the kill passes on. Varyings that the other stage does not know are
removed as far as they are not needed, the inputs of a tessellation evaluation shader are padded,
and both sides are sorted and given driver locations, each by itself.
-/

namespace SpirvToDxil

mutual

/-- `glsl_varying_count`: the innermost array of a varying is not counted. -/
def GlslType.varyingCount : GlslType → Nat
  | .vector .. | .matrix .. => 1
  | .struct _ _ fields => fieldsVaryingCount 0 fields
  | .array element length _ =>
    match element with
    | .array .. | .struct .. => unsigned (length * varyingCount element)
    | _ => varyingCount element
  | .handle .. => 0

def GlslType.fieldsVaryingCount (size : Nat) : StructFields → Nat
  | .nil => size
  | .cons _ type rest => fieldsVaryingCount (unsigned (size + varyingCount type)) rest

end

namespace LinkVaryings

def VARYING_SLOT_PSIZ : Nat := 12
def VARYING_SLOT_EDGE : Nat := 15
def VARYING_SLOT_CLIP_VERTEX : Nat := 16
def VARYING_SLOT_CULL_DIST0 : Nat := 19
def VARYING_SLOT_CULL_DIST1 : Nat := 20
def VARYING_SLOT_BOUNDING_BOX0 : Nat := 28
def VARYING_SLOT_BOUNDING_BOX1 : Nat := 29
def VARYING_SLOT_VIEW_INDEX : Nat := 30
def VARYING_SLOT_VIEWPORT_MASK : Nat := 31
def VARYING_SLOT_VAR0 : Nat := 32
def VARYING_SLOT_PATCH0 : Nat := 64
def NIR_STREAM_PACKED : Nat := 1 <<< 8

structure Uses where
  loads : Nat := 0
  stores : Nat := 0
  others : Nat := 0
  deriving DecidableEq, Repr

/-- A `nir_variable` of an input or an output, with the uses that keep it alive. -/
structure Variable extends IoVariable where
  alwaysActiveIo : Bool := false
  uses : Uses := {}
  deriving DecidableEq, Repr

/-- The members of `shader_info` are those gathered before the link, bit for bit. -/
structure Shader where
  stage : ShaderStage
  inputs : List Variable
  outputs : List Variable
  inputsRead : Nat
  outputsWritten : Nat
  outputsRead : Nat
  patchInputsRead : Nat
  patchOutputsWritten : Nat
  patchOutputsRead : Nat

/-- The components of generic varyings that the other stage knows; `none` if it does not say. -/
abbrev FracMask := Option (Nat → Bool)

/-! ## Masks -/

/-- `BITFIELD_MASK` and `BITFIELD64_MASK`. -/
def bitfieldMask (bits b : Nat) : Nat := if b = bits then 2 ^ bits - 1 else 2 ^ (b % bits) - 1

/-- `BITFIELD_RANGE` and `BITFIELD64_RANGE`. -/
def bitfieldRange (bits b count : Nat) : Nat :=
  bitfieldMask bits (b + count) &&& (2 ^ bits - 1 - bitfieldMask bits b)

namespace Variable

def isPatchSlot (var : Variable) : Bool := var.patch ∧ var.location ≥ VARYING_SLOT_PATCH0

/-- The location in its mask, which is another one for the generic patch varyings. -/
def maskLocation (var : Variable) : Nat :=
  if var.isPatchSlot then var.location - VARYING_SLOT_PATCH0 else var.location

def inMask (var : Variable) (mask patchMask : Nat) : Bool :=
  bitfieldRange 64 var.maskLocation var.type.varyingCount &&&
    (if var.isPatchSlot then patchMask else mask) ≠ 0

/-- Whether the other stage knows the location, and the component if it tells components apart. -/
def inOtherStage (var : Variable) (mask patchMask : Nat) (fracMask : FracMask) : Bool :=
  var.inMask mask patchMask &&
    match fracMask with
    | none => true
    | some frac => var.locationFrac = 0 || var.location < VARYING_SLOT_VAR0 ||
        frac ((var.location - VARYING_SLOT_VAR0) * 4 + var.locationFrac)

end Variable

/-! ## The kill passes -/

/-- `is_dead_in_variable`; the masks are those of the pass, if it has any. -/
def isDeadInVariable (var : Variable) (masks : Option (ShaderStage × Nat × Nat)) : Bool :=
  if masks.any (fun masks => masks.1 = .tessEval && var.inMask masks.2.1 masks.2.2) then false
  else var.location ∉ [VARYING_SLOT_PRIMITIVE_ID, VARYING_SLOT_FACE, VARYING_SLOT_VIEW_INDEX,
    VARYING_SLOT_TESS_LEVEL_INNER, VARYING_SLOT_TESS_LEVEL_OUTER]

/-- `nir_remove_dead_variables` with a predicate. -/
def removeDeadVariables (canRemoveVar : Variable → Bool) (vars : List Variable) : List Variable :=
  vars.filter (fun var => !canRemoveVar var || var.uses ≠ {})

/-- `kill_undefined_varyings` on the loads of one variable. -/
def killUndefinedVaryings (mask patchMask : Nat) (fracMask : FracMask) (var : Variable) :
    Variable :=
  if isDeadInVariable var none ∧ !var.inOtherStage mask patchMask fracMask then
    { var with uses := { var.uses with loads := 0 } }
  else var

/-- `dxil_nir_kill_undefined_varyings`. The uses that are left once dead code has been removed
are `cleanUp`. -/
def dxilNirKillUndefinedVaryings (cleanUp : Variable → Uses) (shader : Shader)
    (mask patchMask : Nat) (fracMask : FracMask) : Shader :=
  let killed := shader.inputs.map (killUndefinedVaryings mask patchMask fracMask)
  let cleaned := if killed = shader.inputs then killed
    else killed.map (fun var => { var with uses := cleanUp var })
  { shader with
    inputs := removeDeadVariables
      (fun var => isDeadInVariable var (some (shader.stage, mask, patchMask))) cleaned }

/-- `nir_slot_is_sysval_output` for an unknown stage. -/
def nirSlotIsSysvalOutput (slot : Nat) : Bool :=
  slot ∈ [VARYING_SLOT_POS, VARYING_SLOT_PSIZ, VARYING_SLOT_EDGE, VARYING_SLOT_CLIP_VERTEX,
    VARYING_SLOT_CLIP_DIST0, VARYING_SLOT_CLIP_DIST1, VARYING_SLOT_CULL_DIST0,
    VARYING_SLOT_CULL_DIST1, VARYING_SLOT_LAYER, VARYING_SLOT_VIEWPORT, VARYING_SLOT_VIEW_INDEX,
    VARYING_SLOT_VIEWPORT_MASK, VARYING_SLOT_FACE, VARYING_SLOT_TESS_LEVEL_OUTER,
    VARYING_SLOT_TESS_LEVEL_INNER, VARYING_SLOT_BOUNDING_BOX0, VARYING_SLOT_BOUNDING_BOX1]

def isDeadOutVariable (var : Variable) : Bool := !nirSlotIsSysvalOutput var.location

/-- The locations of the outputs that a tessellation control shader reads back. -/
def intraShaderLoadMasks (shader : Shader) : Nat × Nat :=
  if shader.stage = .tessCtrl then
    (shader.outputs.filter (fun var => 0 < var.uses.loads)).foldl
      (fun masks var =>
        if var.isPatchSlot then
          (masks.1, masks.2 ||| bitfieldRange 32 var.maskLocation var.type.varyingCount)
        else (masks.1 ||| bitfieldRange 64 var.location var.type.varyingCount, masks.2))
      (0, 0)
  else (0, 0)

/-- `kill_unused_outputs` on the stores and loads of one variable. -/
def killUnusedOutputs (stage : ShaderStage) (intra : Nat × Nat) (mask patchMask : Nat)
    (fracMask : FracMask) (var : Variable) : Variable :=
  if (stage = .tessCtrl ∨ !var.alwaysActiveIo) ∧ isDeadOutVariable var ∧
      !var.inMask intra.1 intra.2 ∧ !var.inOtherStage mask patchMask fracMask then
    { var with uses := { var.uses with loads := 0, stores := 0 } }
  else var

def dxilNirKillUnusedOutputs (cleanUp : Variable → Uses) (shader : Shader)
    (mask patchMask : Nat) (fracMask : FracMask) : Shader :=
  let killed := shader.outputs.map (killUnusedOutputs shader.stage (intraShaderLoadMasks shader)
    mask patchMask fracMask)
  let cleaned := if killed = shader.outputs then killed
    else killed.map (fun var => { var with uses := cleanUp var })
  { shader with outputs := removeDeadVariables isDeadOutVariable cleaned }

/-! ## Padding -/

def findWithLocation (vars : List Variable) (location : Nat) : Option Variable :=
  vars.find? (fun var => var.location = location)

def intraAccessed (tcs : Shader) (var : Variable) : Bool :=
  if var.isPatchSlot then tcs.patchOutputsRead.testBit (var.location - VARYING_SLOT_PATCH0)
  else tcs.outputsRead.testBit var.location

/-- The clone of an output that the inputs lack. -/
def Variable.asInput (var : Variable) : Variable := { var with mode := .shaderIn, uses := {} }

/-- The first loop of `dxil_nir_pad_tes_input_signature`. -/
def padReadBack (tcs : Shader) (inputs : List Variable) (outVar : Variable) : List Variable :=
  if outVar.location ∈ [VARYING_SLOT_POS, VARYING_SLOT_PSIZ, VARYING_SLOT_PRIMITIVE_ID,
      VARYING_SLOT_LAYER, VARYING_SLOT_VIEWPORT] then inputs
  else if !intraAccessed tcs outVar then inputs
  else if (findWithLocation inputs outVar.location).isSome then inputs
  else inputs ++ [outVar.asInput]

/-- A tessellation level, which the fixed function fills in. -/
def tessLevel (location length : Nat) : Variable where
  type := .array (.vector 32 1) length 0
  mode := .shaderIn
  location := location
  locationFrac := 0
  driverLocation := 0
  patch := true
  compact := true
  alwaysActiveIo := true
  locationFrac_lt := GlslType.vec4_pos
  index_lt := Nat.two_pos

def padTessLevel (inputs : List Variable) (level : Nat × Nat) : List Variable :=
  if (findWithLocation inputs level.1).isSome then inputs
  else inputs ++ [tessLevel level.1 level.2]

def dxilNirPadTesInputSignature (tes tcs : Shader) : Shader :=
  if tes.stage ≠ .tessEval ∨ tcs.stage ≠ .tessCtrl then tes
  else { tes with
    inputs := [(VARYING_SLOT_TESS_LEVEL_OUTER, 4), (VARYING_SLOT_TESS_LEVEL_INNER, 2)].foldl
      padTessLevel (tcs.outputs.foldl (padReadBack tcs) tes.inputs) }

/-! ## Driver locations -/

/-- The enumerators of `dxil_sysvalue_type`. -/
def DXIL_NO_SYSVALUE : Nat := 0
def DXIL_USED_SYSVALUE : Nat := 1
def DXIL_UNUSED_NO_SYSVALUE : Nat := 2
def DXIL_SYSVALUE : Nat := 3
def DXIL_GENERATED_SYSVALUE : Nat := 4

def nirVarToDxilSysvalueType (var : Variable) (otherStageMask : Nat)
    (otherStageFracMask : FracMask) : Nat :=
  if var.location = VARYING_SLOT_FACE then DXIL_GENERATED_SYSVALUE
  else if var.location ∈ [VARYING_SLOT_POS, VARYING_SLOT_PRIMITIVE_ID, VARYING_SLOT_CLIP_DIST0,
      VARYING_SLOT_CLIP_DIST1, VARYING_SLOT_PSIZ, VARYING_SLOT_TESS_LEVEL_INNER,
      VARYING_SLOT_TESS_LEVEL_OUTER, VARYING_SLOT_VIEWPORT, VARYING_SLOT_LAYER,
      VARYING_SLOT_VIEW_INDEX] then
    if !otherStageMask.testBit var.location then DXIL_SYSVALUE else DXIL_USED_SYSVALUE
  else if var.location < VARYING_SLOT_PATCH0 ∧ !otherStageMask.testBit var.location then
    DXIL_UNUSED_NO_SYSVALUE
  else
    match otherStageFracMask with
    | none => DXIL_NO_SYSVALUE
    | some frac =>
      if var.locationFrac ≠ 0 ∧ var.location ≥ VARYING_SLOT_VAR0 ∧
          !frac ((var.location - VARYING_SLOT_VAR0) * 4 + var.locationFrac) then
        DXIL_UNUSED_NO_SYSVALUE
      else DXIL_NO_SYSVALUE

def variableLocationCmp (a b : Variable) : Int :=
  let aLocation := if a.location ≥ VARYING_SLOT_PATCH0 then a.location - VARYING_SLOT_PATCH0
    else a.location
  let bLocation := if b.location ≥ VARYING_SLOT_PATCH0 then b.location - VARYING_SLOT_PATCH0
    else b.location
  let aStream := a.stream % NIR_STREAM_PACKED
  let bStream := b.stream % NIR_STREAM_PACKED
  if aStream ≠ bStream then (aStream : Int) - bStream
  else if a.driverLocation ≠ b.driverLocation then (a.driverLocation : Int) - b.driverLocation
  else if aLocation ≠ bLocation then (aLocation : Int) - bLocation
  else if a.locationFrac ≠ b.locationFrac then (a.locationFrac : Int) - b.locationFrac
  else if a.index ≠ b.index then (a.index : Int) - b.index
  else (b.type.getComponentSlots : Int) - a.type.getComponentSlots

def Precedes (a b : Variable) : Prop := variableLocationCmp a b ≤ 0

instance : DecidableRel Precedes := fun _ _ => inferInstanceAs (Decidable (_ ≤ _))

def Variable.slots (stage : ShaderStage) (var : Variable) : Nat :=
  (var.vertexType stage).countVec4Slots

/-- The first loop of `dxil_reassign_driver_locations`. -/
def classify (mask : Nat) (fracMask : FracMask) (var : Variable) : Variable :=
  { var with driverLocation := nirVarToDxilSysvalueType var mask fracMask }

def numberVariables (stage : ShaderStage) : Nat → Nat → List Variable → List Variable
  | _, _, [] => []
  | driverLoc, driverPatchLoc, var :: vars =>
    { var with driverLocation := if var.patch then driverPatchLoc else driverLoc } ::
      if var.patch then numberVariables stage driverLoc (driverPatchLoc + var.slots stage) vars
      else numberVariables stage (driverLoc + var.slots stage) driverPatchLoc vars

/-- What a variable adds to the running location of a kind. -/
def kindSlots (stage : ShaderStage) (patch : Bool) (var : Variable) : Nat :=
  if var.patch = patch then var.slots stage else 0

/-- The variable with its location behind the variables in front. -/
def located (stage : ShaderStage) (front : List Variable) (var : Variable) : Variable :=
  { var with driverLocation := Placement.total (kindSlots stage var.patch) front }

/-- The sort of `dxil_reassign_driver_locations`, which leaves variables that compare equal in any
order, and its last loop. -/
def Reassigns (stage : ShaderStage) (classified vars : List Variable) : Prop :=
  ∃ sorted, Placement.Sorted Precedes classified sorted ∧ vars = numberVariables stage 0 0 sorted

structure Stages where
  nir : Shader
  prevStageNir : Shader

/-- The kill passes and the padding of `dxil_spirv_nir_link`. -/
def Stages.killAndPad (cleanInputs cleanOutputs : Variable → Uses) (stages : Stages) : Stages :=
  let nir := dxilNirKillUndefinedVaryings cleanInputs stages.nir
    stages.prevStageNir.outputsWritten stages.prevStageNir.patchOutputsWritten none
  let prevStageNir := dxilNirKillUnusedOutputs cleanOutputs stages.prevStageNir nir.inputsRead
    nir.patchInputsRead none
  ⟨if nir.stage = .tessEval then dxilNirPadTesInputSignature nir prevStageNir else nir,
    prevStageNir⟩

def Stages.classifiedInputs (stages : Stages) : List Variable :=
  stages.nir.inputs.map (classify stages.prevStageNir.outputsWritten none)

def Stages.classifiedOutputs (stages : Stages) : List Variable :=
  stages.prevStageNir.outputs.map (classify stages.nir.inputsRead none)

/-- The rest of `dxil_spirv_nir_link`. -/
def Stages.Reassigns (stages : Stages) (inputs outputs : List Variable) : Prop :=
  LinkVaryings.Reassigns stages.nir.stage stages.classifiedInputs inputs ∧
    LinkVaryings.Reassigns stages.prevStageNir.stage stages.classifiedOutputs outputs

end LinkVaryings

end SpirvToDxil
