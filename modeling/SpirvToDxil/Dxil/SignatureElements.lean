import Mathlib.Logic.Function.Basic
import SpirvToDxil.Nir.GlslType

/-!
# The elements of a signature

How `dxil_signature.c` gives rows and columns to the variables of the three
signatures of a shader.
-/

namespace SpirvToDxil

inductive ShaderStage where
  | vertex
  | tessCtrl
  | tessEval
  | geometry
  | fragment
  deriving DecidableEq, Repr

inductive IoMode where
  | shaderIn
  | shaderOut
  | systemValue
  deriving DecidableEq, Repr

/-- A `nir_variable` that is an input or an output of the shader. -/
structure IoVariable where
  type : GlslType
  mode : IoMode
  location : Nat
  locationFrac : Nat
  driverLocation : Nat
  stream : Nat := 0
  index : Nat := 0
  patch : Bool := false
  compact : Bool := false
  perVertex : Bool := false
  /-- A bit field of two bits. -/
  locationFrac_lt : locationFrac < 4
  /-- The index of dual source blending is 0 or 1. -/
  index_lt : index < 2
  deriving DecidableEq, Repr

def FRAG_RESULT_DEPTH : Nat := 0
def FRAG_RESULT_STENCIL : Nat := 1
def FRAG_RESULT_COLOR : Nat := 2
def FRAG_RESULT_SAMPLE_MASK : Nat := 3
def FRAG_RESULT_DATA0 : Nat := 4
def FRAG_RESULT_DATA7 : Nat := 11

def SYSTEM_VALUE_INSTANCE_ID : Nat := 10
def SYSTEM_VALUE_VERTEX_ID_ZERO_BASE : Nat := 12
def SYSTEM_VALUE_SAMPLE_ID : Nat := 29
def SYSTEM_VALUE_PRIMITIVE_ID : Nat := 37

def VARYING_SLOT_POS : Nat := 0
def VARYING_SLOT_CLIP_DIST0 : Nat := 17
def VARYING_SLOT_CLIP_DIST1 : Nat := 18
def VARYING_SLOT_PRIMITIVE_ID : Nat := 21
def VARYING_SLOT_LAYER : Nat := 22
def VARYING_SLOT_VIEWPORT : Nat := 23
def VARYING_SLOT_FACE : Nat := 24
def VARYING_SLOT_TESS_LEVEL_OUTER : Nat := 26
def VARYING_SLOT_TESS_LEVEL_INNER : Nat := 27

/-- The members of `dxil_semantic_kind` that a variable can get. -/
inductive SemanticKind where
  | arbitrary
  | vertexId
  | instanceId
  | position
  | renderTargetArrayIndex
  | viewportArrayIndex
  | clipDistance
  | cullDistance
  | primitiveId
  | sampleIndex
  | isFrontFace
  | coverage
  | target
  | depth
  | stencilRef
  | tessFactor
  | insideTessFactor
  | invalid
  deriving DecidableEq, Repr

/-- The members of `semantic_info` that say where an element lies; a first row of -1 stands
for no register. -/
structure Semantic where
  kind : SemanticKind := .arbitrary
  index : Nat := 0
  startRow : Int := 0
  rows : Nat := 0
  startCol : Nat := 0
  cols : Nat := 0
  stream : Nat := 0
  deriving DecidableEq, Repr

/-- `nir_is_arrayed_io`: whether the outer dimension of the type counts vertices. -/
def IoVariable.isArrayedIo (var : IoVariable) (stage : ShaderStage) : Bool :=
  if var.patch || !var.type.isArray then false
  else match var.mode with
    | .shaderIn =>
      var.perVertex || stage = .geometry || stage = .tessCtrl || stage = .tessEval
    | .shaderOut => stage = .tessCtrl
    | .systemValue => false

def IoVariable.vertexType (var : IoVariable) (stage : ShaderStage) : GlslType :=
  if var.isArrayedIo stage then var.type.getArrayElement else var.type

def isDepthOutput (kind : SemanticKind) : Bool := kind = .depth || kind = .stencilRef

def getAdditionalSemanticInfo (stage : ShaderStage) (var : IoVariable) (info : Semantic)
    (nextRow clipSize : Nat) : Semantic × Nat :=
  let type := var.vertexType stage
  let isGsInput := stage = .geometry ∧ (var.mode = .shaderIn ∨ var.mode = .systemValue)
  let info := { info with stream := var.stream, rows := 1 }
  if info.kind = .target then
    ({ info with startRow := info.index, cols := 4 }, nextRow)
  else if isDepthOutput info.kind ∨ (info.kind = .primitiveId ∧ isGsInput) ∨
      info.kind = .coverage ∨ info.kind = .sampleIndex then
    ({ info with startRow := -1, cols := 1 }, nextRow)
  else if info.kind = .tessFactor ∨ info.kind = .insideTessFactor then
    let rows := type.getAoaSize
    ({ info with startRow := nextRow, rows := rows, cols := 1 }, nextRow + rows)
  else if var.compact then
    let numFloats := type.getAoaSize
    let startOffset :=
      ((var.location : Int) - VARYING_SLOT_CLIP_DIST0) * 4 + var.locationFrac
    let kind := if clipSize ≤ startOffset % 2 ^ 32 then .cullDistance else info.kind
    ({ info with
        kind := kind, startRow := nextRow, cols := numFloats % 2 ^ 8
        startCol := var.locationFrac }, nextRow + 1)
  else
    let rows := type.countVec4Slots
    let type := if type.isArray then type.getArrayElement else type
    ({ info with
        startRow := nextRow, rows := rows, startCol := var.locationFrac
        cols := min type.getComponentSlots 4 }, nextRow + rows)

def getSemanticVsInName (var : IoVariable) : Semantic :=
  { kind := .arbitrary, index := var.driverLocation }

def getSemanticSvName (var : IoVariable) : Semantic :=
  if var.location = SYSTEM_VALUE_VERTEX_ID_ZERO_BASE then { kind := .vertexId }
  else if var.location = SYSTEM_VALUE_INSTANCE_ID then { kind := .instanceId }
  else if var.location = SYSTEM_VALUE_PRIMITIVE_ID then { kind := .primitiveId }
  else if var.location = SYSTEM_VALUE_SAMPLE_ID then { kind := .sampleIndex }
  else {}

def getSemanticPsOutname (var : IoVariable) : Semantic :=
  if var.location = FRAG_RESULT_COLOR then { kind := .target, index := var.index }
  else if FRAG_RESULT_DATA0 ≤ var.location ∧ var.location ≤ FRAG_RESULT_DATA7 then
    { kind := .target
      index :=
        if var.location = FRAG_RESULT_DATA0 ∧ 0 < var.index then var.index
        else var.location - FRAG_RESULT_DATA0 }
  else if var.location = FRAG_RESULT_DEPTH then { kind := .depth }
  else if var.location = FRAG_RESULT_STENCIL then { kind := .stencilRef }
  else if var.location = FRAG_RESULT_SAMPLE_MASK then { kind := .coverage }
  else { kind := .invalid }

def getSemanticName (var : IoVariable) : Semantic :=
  if var.location = VARYING_SLOT_POS then { kind := .position }
  else if var.location = VARYING_SLOT_FACE then { kind := .isFrontFace }
  else if var.location = VARYING_SLOT_PRIMITIVE_ID then { kind := .primitiveId }
  else if var.location = VARYING_SLOT_CLIP_DIST1 then { kind := .clipDistance, index := 1 }
  else if var.location = VARYING_SLOT_CLIP_DIST0 then { kind := .clipDistance }
  else if var.location = VARYING_SLOT_TESS_LEVEL_INNER then { kind := .insideTessFactor }
  else if var.location = VARYING_SLOT_TESS_LEVEL_OUTER then { kind := .tessFactor }
  else if var.location = VARYING_SLOT_VIEWPORT then { kind := .viewportArrayIndex }
  else if var.location = VARYING_SLOT_LAYER then { kind := .renderTargetArrayIndex }
  else { kind := .arbitrary, index := var.driverLocation }

/-! ## Records -/

/-- The part of a `dxil_signature_element` that says where it lies. -/
structure ElementSlot where
  stream : Nat
  semanticIndex : Nat
  reg : Nat
  mask : Nat
  deriving DecidableEq, Repr

/-- What `fill_io_signature` writes for one variable: its `dxil_signature_record` and the
first row of its `dxil_psv_signature_element`. -/
structure IoSignature where
  semantic : Semantic
  elements : List ElementSlot
  psvStartRow : Nat
  deriving DecidableEq, Repr

namespace Semantic

def fillSignatureElement (semantic : Semantic) (row : Nat) : ElementSlot where
  stream := semantic.stream
  semanticIndex := semantic.index + row
  reg := ((semantic.startRow + row) % 2 ^ 32).toNat
  mask := ((2 ^ semantic.cols - 1) <<< semantic.startCol) % 2 ^ 8

def fillPsvSignatureElement (semantic : Semantic) : Nat :=
  if 0 ≤ semantic.startRow then semantic.startRow.toNat % 2 ^ 8 else 0

def fillIoSignature (semantic : Semantic) : IoSignature where
  semantic := semantic
  elements := (List.range semantic.rows).map semantic.fillSignatureElement
  psvStartRow := semantic.fillPsvSignatureElement

end Semantic

/-- One of the signatures of a `dxil_module` while it is built, with the next row that is
free. The vectors are counted for each stream in the signature of the outputs only. -/
structure SignatureState where
  signatures : List IoSignature := []
  mappings : Nat → Nat := fun _ => 0
  numPsv : Nat → Nat := fun _ => 0
  nextRow : Nat := 0

/-- The first row in the element of a record; the array starts out as zeros. -/
def SignatureState.psvStartRow (state : SignatureState) (record : Nat) : Nat :=
  (state.signatures[record]?.map (·.psvStartRow)).getD 0

/-- What differs between the routines that build a signature. A base variable is one before
the variable, in whose rows it is placed. -/
structure SignatureRoutine where
  stage : ShaderStage
  clipSize : Nat
  skips : IoVariable → Bool
  semantics : IoVariable → Semantic
  baseVar : List IoVariable → IoVariable → Option IoVariable
  counter : Nat → Nat

namespace SignatureRoutine

/-- The semantic of a variable, with rows of its own or those of its base variable. -/
def placeVariable (routine : SignatureRoutine) (earlier : List IoVariable)
    (state : SignatureState) (var : IoVariable) : Semantic × Nat :=
  let info := routine.semantics var
  match routine.baseVar earlier var with
  | some base =>
    let startRow := state.psvStartRow (state.mappings base.driverLocation)
    ((getAdditionalSemanticInfo routine.stage var info startRow routine.clipSize).1,
      state.nextRow)
  | none => getAdditionalSemanticInfo routine.stage var info state.nextRow routine.clipSize

def addVariable (routine : SignatureRoutine) (earlier : List IoVariable)
    (state : SignatureState) (var : IoVariable) : SignatureState :=
  let (semantic, nextRow) := routine.placeVariable earlier state var
  let counter := routine.counter semantic.stream
  { signatures := state.signatures ++ [semantic.fillIoSignature]
    mappings :=
      Function.update state.mappings var.driverLocation (state.signatures.length % 2 ^ 8)
    numPsv :=
      Function.update state.numPsv counter
        (max (state.numPsv counter) (semantic.startRow + semantic.rows).toNat)
    nextRow := nextRow }

def addVariables (routine : SignatureRoutine) (earlier : List IoVariable) :
    List IoVariable → SignatureState → SignatureState
  | [], state => state
  | var :: rest, state =>
    routine.addVariables (earlier ++ [var]) rest
      (if routine.skips var then state else routine.addVariable earlier state var)

end SignatureRoutine

/-- The variables of a shader. Variables of a patch have locations of their own. -/
structure IoShader where
  stage : ShaderStage
  vars : List IoVariable
  clipDistanceArraySize : Nat
  patch_eq : ∀ var ∈ vars, ∀ other ∈ vars, var.mode = other.mode →
    var.location = other.location → var.patch = other.patch

namespace IoShader

def variablesWithMode (shader : IoShader) (mode : IoMode) : List IoVariable :=
  shader.vars.filter (·.mode = mode)

/-- The search for a base variable among the inputs: it stops at a variable that leaves room
for the component, and otherwise finds the last one. -/
def inputBaseLoop (stage : ShaderStage) (var : IoVariable) :
    Option IoVariable → List IoVariable → Option IoVariable
  | base, [] => base
  | base, testVar :: rest =>
    if var.location = testVar.location then
      if testVar.locationFrac = 0 ∧
          (testVar.vertexType stage).getComponentSlots ≤ var.locationFrac then
        some testVar
      else inputBaseLoop stage var (some testVar) rest
    else inputBaseLoop stage var base rest

def inputBaseVar (stage : ShaderStage) (earlier : List IoVariable) (var : IoVariable) :
    Option IoVariable :=
  if var.locationFrac = 0 then none else inputBaseLoop stage var none earlier

/-- `nir_find_variable_with_location`; a variable at the location that is not before the
given one is that variable itself. -/
def findVariableWithLocation (earlier : List IoVariable) (var : IoVariable) :
    Option IoVariable :=
  if var.locationFrac = 0 then none else earlier.find? (·.location = var.location)

def outputBaseVar (earlier : List IoVariable) (var : IoVariable) : Option IoVariable :=
  (findVariableWithLocation earlier var).filter (·.stream = var.stream)

def inputRoutine (shader : IoShader) (getSemantics : IoVariable → Semantic)
    (inputClipSize : Nat) : SignatureRoutine where
  stage := shader.stage
  clipSize := inputClipSize
  skips var := var.patch
  semantics := getSemantics
  baseVar := inputBaseVar shader.stage
  counter _ := 0

def getInputSignatureGroup (shader : IoShader) (mode : IoMode)
    (getSemantics : IoVariable → Semantic) (inputClipSize : Nat) :
    SignatureState → SignatureState :=
  (shader.inputRoutine getSemantics inputClipSize).addVariables []
    (shader.variablesWithMode mode)

def getSemanticInName (shader : IoShader) : IoVariable → Semantic :=
  if shader.stage = .vertex then getSemanticVsInName else getSemanticName

def processInputSignature (shader : IoShader) (inputClipSize : Nat) : SignatureState :=
  shader.getInputSignatureGroup .systemValue getSemanticSvName inputClipSize
    (shader.getInputSignatureGroup .shaderIn shader.getSemanticInName inputClipSize {})

/-- Fragment outputs that start at another component than the first are ignored. -/
def outputRoutine (shader : IoShader) : SignatureRoutine where
  stage := shader.stage
  clipSize := shader.clipDistanceArraySize
  skips var := var.patch || (shader.stage = .fragment && var.locationFrac ≠ 0)
  semantics := if shader.stage = .fragment then getSemanticPsOutname else getSemanticName
  baseVar := outputBaseVar
  counter stream := stream

def processOutputSignature (shader : IoShader) : SignatureState :=
  shader.outputRoutine.addVariables [] (shader.variablesWithMode .shaderOut) {}

def patchConstRoutine (shader : IoShader) : SignatureRoutine where
  stage := shader.stage
  clipSize := 0
  skips var := !var.patch
  semantics := getSemanticName
  baseVar := findVariableWithLocation
  counter _ := 0

def patchConstMode (shader : IoShader) : IoMode :=
  if shader.stage = .tessCtrl then .shaderOut else .shaderIn

def processPatchConstSignature (shader : IoShader) : SignatureState :=
  if shader.stage = .tessCtrl ∨ shader.stage = .tessEval then
    shader.patchConstRoutine.addVariables [] (shader.variablesWithMode shader.patchConstMode) {}
  else {}

end IoShader

end SpirvToDxil
