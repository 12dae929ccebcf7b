import SpirvToDxil.Dxil.SignatureCollisions

/-!
# The usage masks of a signature

The stores to outputs and the loads of inputs of a shader update the usage masks of the
elements that they reach, beside the calls that are emitted for them.
-/

namespace SpirvToDxil

inductive IoIntrinsic where
  | loadInput
  | loadPerVertexInput
  | loadInterpolatedInput
  | loadOutput
  | loadPerVertexOutput
  | storeOutput
  | storePerVertexOutput
  deriving DecidableEq, Repr

/-- An input or output intrinsic; `row` is the value of its row source, if that is a
constant, and `location` that of its semantics. -/
structure IoAccess where
  intrinsic : IoIntrinsic
  base : Nat
  component : Nat
  numComponents : Nat
  writeMask : Nat := 0
  bitSize : Nat := 32
  location : Nat
  row : Option Nat
  deriving DecidableEq, Repr

/-- A call that reads or writes one component of a signature; the column counts from the
first one of the element. -/
structure SignatureCall where
  isStore : Bool
  signature : SignatureKind
  record : Nat
  row : Option Nat
  column : Nat
  deriving DecidableEq, Repr

/-- A record with the masks that are updated while the code is emitted: for each of its
elements the union of `never_writes_mask` and `always_reads_mask`, and the byte of
`dynamic_mask_and_stream`. -/
structure RecordUsage where
  signature : IoSignature
  usageMasks : List (BitVec 8)
  dynamicMaskAndStream : BitVec 8

/-- The part of a `dxil_module` that input and output intrinsics read and write. -/
structure UsageModule where
  minorValidator : Nat
  records : SignatureKind → List RecordUsage
  mappings : SignatureKind → Nat → Nat
  calls : List SignatureCall

namespace IoAccess

def compSize (access : IoAccess) : Nat := if access.bitSize = 64 then 2 else 1

def column (access : IoAccess) (varBaseComponent i : Nat) : Nat :=
  (((i : Int) + access.component - varBaseComponent) % 2 ^ 8).toNat

/-- The row of a component of a tessellation level, a 32-bit constant. -/
def levelRow (access : IoAccess) (varBaseComponent i : Nat) : Nat :=
  (((i : Int) + access.component - varBaseComponent) % 2 ^ 32).toNat

def isTessLevelLocation (access : IoAccess) : Bool :=
  access.location = VARYING_SLOT_TESS_LEVEL_INNER ||
    access.location = VARYING_SLOT_TESS_LEVEL_OUTER

def storeCompMask (access : IoAccess) (isTessLevel : Bool) (varBaseComponent : Nat) : Nat :=
  if isTessLevel then 1
  else if access.compSize = 1 then access.writeMask <<< varBaseComponent
  else (List.range access.numComponents).foldl (fun compMask i =>
    if access.writeMask.testBit i then
      compMask ||| 3 <<< ((i + varBaseComponent) * access.compSize)
    else compMask) 0

def loadCompMask (access : IoAccess) (isTessLevel : Bool) (varBaseComponent : Nat) : Nat :=
  if isTessLevel then 1
  else (2 ^ (access.numComponents * access.compSize) - 1) <<<
    (varBaseComponent * access.compSize)

end IoAccess

namespace RecordUsage

def neverWrites (compMask : Nat) (record : RecordUsage) : RecordUsage :=
  { record with
    usageMasks := record.usageMasks.map fun usage => usage &&& ~~~BitVec.ofNat 8 compMask }

def alwaysReads (compMask : Nat) (record : RecordUsage) : RecordUsage :=
  { record with
    usageMasks := List.zipWith (fun usage element =>
        usage ||| (BitVec.ofNat 8 compMask &&& BitVec.ofNat 8 element.mask))
      record.usageMasks record.signature.elements }

def indexesDynamically (compMask : Nat) (record : RecordUsage) : RecordUsage :=
  { record with
    dynamicMaskAndStream := record.dynamicMaskAndStream ||| BitVec.ofNat 8 compMask }

end RecordUsage

namespace UsageModule

def modifyRecord (mod : UsageModule) (signature : SignatureKind) (record : Nat)
    (update : RecordUsage → RecordUsage) : UsageModule :=
  { mod with
    records :=
      Function.update mod.records signature ((mod.records signature).modify record update) }

def addCalls (mod : UsageModule) (calls : List SignatureCall) : UsageModule :=
  { mod with calls := mod.calls ++ calls }

end UsageModule

namespace IoShader

def findPatchMatchingVariable (shader : IoShader) (mode : IoMode) (driverLocation : Nat)
    (patch : Bool) : Option IoVariable :=
  (shader.variablesWithMode mode).find? fun var =>
    var.driverLocation = driverLocation && var.patch == patch

def varBaseComponent (shader : IoShader) (mode : IoMode) (driverLocation : Nat)
    (patch : Bool) : Nat :=
  ((shader.findPatchMatchingVariable mode driverLocation patch).map (·.locationFrac)).getD 0

def storesPatchConstant (shader : IoShader) (intr : IoAccess) : Bool :=
  intr.intrinsic = .storeOutput && shader.stage = .tessCtrl

def loadsPatchConstant (shader : IoShader) (intr : IoAccess) : Bool :=
  (shader.stage = .tessEval && intr.intrinsic = .loadInput) ||
    (shader.stage = .tessCtrl && intr.intrinsic = .loadOutput)

def emitStoreOutputViaIntrinsic (shader : IoShader) (mod : UsageModule) (intr : IoAccess) :
    UsageModule :=
  let isPatchConstant := shader.storesPatchConstant intr
  let signature : SignatureKind := if isPatchConstant then .patchConst else .output
  let ioIndex := mod.mappings signature intr.base
  let isTessLevel := isPatchConstant && intr.isTessLevelLocation
  let varBaseComponent := shader.varBaseComponent .shaderOut intr.base isPatchConstant
  let compMask := intr.storeCompMask isTessLevel varBaseComponent
  let marked :=
    if 5 ≤ mod.minorValidator then
      let mod := mod.modifyRecord signature ioIndex (RecordUsage.neverWrites compMask)
      if intr.row = none then
        mod.modifyRecord signature ioIndex (RecordUsage.indexesDynamically compMask)
      else mod
    else mod
  marked.addCalls (((List.range intr.numComponents).filter intr.writeMask.testBit).map fun i =>
    { isStore := true, signature := signature, record := ioIndex
      row := if isTessLevel then some (intr.levelRow varBaseComponent i) else intr.row
      column := if isTessLevel then 0 else intr.column varBaseComponent i })

def emitLoadInputViaIntrinsic (shader : IoShader) (mod : UsageModule) (intr : IoAccess) :
    UsageModule :=
  let isPatchConstant := shader.loadsPatchConstant intr
  let isOutputControlPoint := intr.intrinsic = .loadPerVertexOutput
  let signature : SignatureKind :=
    if isPatchConstant then .patchConst
    else if isOutputControlPoint then .output else .input
  let ioIndex := mod.mappings signature intr.base
  let isTessLevel := isPatchConstant && intr.isTessLevelLocation
  let varBaseComponent := shader.varBaseComponent .shaderIn intr.base isPatchConstant
  let compMask := intr.loadCompMask isTessLevel varBaseComponent
  let marked :=
    if 5 ≤ mod.minorValidator ∧ ¬ isOutputControlPoint ∧ intr.intrinsic ≠ .loadOutput then
      let mod := mod.modifyRecord signature ioIndex (RecordUsage.alwaysReads compMask)
      if intr.row = none then
        mod.modifyRecord signature ioIndex (RecordUsage.indexesDynamically compMask)
      else mod
    else mod
  marked.addCalls ((List.range intr.numComponents).map fun i =>
    { isStore := false, signature := signature, record := ioIndex
      row := if isTessLevel then some (intr.levelRow varBaseComponent i) else intr.row
      column := if isTessLevel then 0 else intr.column varBaseComponent i })

def emitLoadInterpolatedInput (shader : IoShader) (mod : UsageModule) (intr : IoAccess) :
    UsageModule :=
  let ioIndex := mod.mappings .input intr.base
  let varBaseComponent := shader.varBaseComponent .shaderIn intr.base false
  let compMask := intr.loadCompMask false varBaseComponent
  let marked :=
    if 5 ≤ mod.minorValidator then
      let mod := mod.modifyRecord .input ioIndex (RecordUsage.alwaysReads compMask)
      if intr.row = none then
        mod.modifyRecord .input ioIndex (RecordUsage.indexesDynamically compMask)
      else mod
    else mod
  marked.addCalls ((List.range intr.numComponents).map fun i =>
    { isStore := false, signature := .input, record := ioIndex, row := intr.row
      column := intr.column varBaseComponent i })

/-- The cases of `emit_intrinsic` for inputs and outputs. -/
def emitIntrinsic (shader : IoShader) (mod : UsageModule) (intr : IoAccess) : UsageModule :=
  match intr.intrinsic with
  | .storeOutput | .storePerVertexOutput => shader.emitStoreOutputViaIntrinsic mod intr
  | .loadInterpolatedInput => shader.emitLoadInterpolatedInput mod intr
  | .loadInput | .loadPerVertexInput | .loadOutput | .loadPerVertexOutput =>
    shader.emitLoadInputViaIntrinsic mod intr

def writes (shader : IoShader) : SignatureKind → Bool
  | .input => false
  | .output => true
  | .patchConst => shader.patchConstMode = .shaderOut

def initialUsage (shader : IoShader) (minorValidator : Nat) (signature : SignatureKind)
    (element : ElementSlot) : BitVec 8 :=
  if shader.writes signature then
    (if minorValidator ≤ 4 then 0xff else 0xf) &&& ~~~BitVec.ofNat 8 element.mask
  else 0

def recordUsage (shader : IoShader) (minorValidator : Nat) (kind : SignatureKind)
    (signature : IoSignature) : RecordUsage where
  signature := signature
  usageMasks := signature.elements.map (shader.initialUsage minorValidator kind)
  dynamicMaskAndStream := BitVec.ofNat 8 signature.semantic.stream <<< 4

def preprocessSignatures (shader : IoShader) (inputClipSize minorValidator : Nat) :
    UsageModule where
  minorValidator := minorValidator
  records kind :=
    (shader.processSignature inputClipSize kind).signatures.map
      (shader.recordUsage minorValidator kind)
  mappings kind := (shader.processSignature inputClipSize kind).mappings
  calls := []

/-- The inputs and outputs of the emitted functions, in the order of their code. -/
def emitIntrinsics (shader : IoShader) (mod : UsageModule) (intrs : List IoAccess) :
    UsageModule :=
  intrs.foldl shader.emitIntrinsic mod

end IoShader

end SpirvToDxil
