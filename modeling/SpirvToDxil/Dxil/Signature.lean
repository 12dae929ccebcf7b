import Mathlib.Logic.Function.Basic
import Mathlib.Data.List.Basic
import Mathlib.Algebra.Order.Ring.Int

/-!
# Signatures and the layout of the dependency tables

What the analysis of input-output dependencies reads of a DXIL module: the
registers of the signature elements, and where the tables lie in memory.
-/

namespace SpirvToDxil

inductive ShaderKind where
  | pixel
  | vertex
  | geometry
  | hull
  | domain
  deriving DecidableEq, Repr

/-- The registers that `get_additional_semantic_info` gives to a variable; a first row of -1
stands for none. -/
structure SemanticInfo where
  startRow : Int
  rows : Nat
  stream : Nat
  startRow_ge : -1 ≤ startRow
  rows_pos : 0 < rows

/-- The register and stream of a `dxil_signature_element`. -/
structure ElementRegister where
  reg : Nat
  stream : Nat
  deriving DecidableEq, Repr

/-- The register of a first row of -1. -/
def NO_REGISTER : Nat := 0xffffffff

/-- The registers of a `dxil_signature_record`. -/
structure RecordRegisters where
  elements : List ElementRegister
  deriving DecidableEq, Repr

namespace RecordRegisters

def numElements (record : RecordRegisters) : Nat := record.elements.length

/-- An element of the array, which starts out as zeros. -/
def element (record : RecordRegisters) (i : Nat) : ElementRegister :=
  record.elements.getD i ⟨0, 0⟩

end RecordRegisters

def fillSignatureElement (semantic : SemanticInfo) (row : Nat) : ElementRegister where
  reg := ((semantic.startRow + row) % 2 ^ 32).toNat
  stream := semantic.stream

def fillIoSignature (semantic : SemanticInfo) : RecordRegisters where
  elements := (List.range semantic.rows).map (fillSignatureElement semantic)

/-- The part of a `dxil_module` that holds its signatures. -/
structure IoModule where
  shaderKind : ShaderKind
  inputs : List RecordRegisters := []
  outputs : List RecordRegisters := []
  patchConsts : List RecordRegisters := []
  inputMappings : Nat → Nat := fun _ => 0
  outputMappings : Nat → Nat := fun _ => 0
  patchMappings : Nat → Nat := fun _ => 0
  numPsvInputs : Nat := 0
  numPsvOutputs : Nat → Nat := fun _ => 0
  numPsvPatchConsts : Nat := 0

namespace IoModule

def addInput (mod : IoModule) (input : Nat × SemanticInfo) : IoModule :=
  { mod with
    inputs := mod.inputs ++ [fillIoSignature input.2]
    inputMappings := Function.update mod.inputMappings input.1 mod.inputs.length
    numPsvInputs := max mod.numPsvInputs (input.2.startRow + input.2.rows).toNat }

def addOutput (mod : IoModule) (output : Nat × SemanticInfo) : IoModule :=
  { mod with
    outputs := mod.outputs ++ [fillIoSignature output.2]
    outputMappings := Function.update mod.outputMappings output.1 mod.outputs.length
    numPsvOutputs := Function.update mod.numPsvOutputs output.2.stream
      (max (mod.numPsvOutputs output.2.stream) (output.2.startRow + output.2.rows).toNat) }

def addPatchConst (mod : IoModule) (patchConst : Nat × SemanticInfo) : IoModule :=
  { mod with
    patchConsts := mod.patchConsts ++ [fillIoSignature patchConst.2]
    patchMappings := Function.update mod.patchMappings patchConst.1 mod.patchConsts.length
    numPsvPatchConsts :=
      max mod.numPsvPatchConsts (patchConst.2.startRow + patchConst.2.rows).toNat }

end IoModule

/-- The signatures of a shader, as lists of driver locations and semantics. -/
structure Signatures where
  shaderKind : ShaderKind
  inputs : List (Nat × SemanticInfo)
  outputs : List (Nat × SemanticInfo)
  patchConsts : List (Nat × SemanticInfo)

def processSignatures (signatures : Signatures) : IoModule :=
  let mod : IoModule := { shaderKind := signatures.shaderKind }
  let mod := signatures.inputs.foldl IoModule.addInput mod
  let mod := signatures.outputs.foldl IoModule.addOutput mod
  signatures.patchConsts.foldl IoModule.addPatchConst mod

/-! ## The tables -/

/-- The memory that holds the serialized tables, by word. -/
abbrev Memory := Nat → BitVec 32

/-- The part of a `dxil_module` that locates the tables; pointers are offsets. -/
structure DependencyTables where
  dwordsPerInput : Nat → Nat
  ioSize : Nat → Nat
  viewid : Nat → Nat := fun _ => 0
  io : Nat → Nat := fun _ => 0
  serializedSize : Nat
  memory : Memory := fun _ => 0

def divRoundUp (a b : Nat) : Nat := (a + b - 1) / b

def outputVecsPerDword : Nat := 32 / 4

def masksPerInputVec : Nat := 4

namespace IoModule

variable (mod : IoModule)

def numOutputStreams : Nat := if mod.shaderKind = .geometry then 4 else 1

def hasPatchTables : Bool := mod.shaderKind = .hull || mod.shaderKind = .domain

def numTables : Nat := if mod.hasPatchTables then 2 else mod.numOutputStreams

/-- `dependency_table_dwords_per_input`; zero where it is not set. -/
def dwordsPerInput (i : Nat) : Nat :=
  if mod.shaderKind = .hull ∧ i = 1 then divRoundUp mod.numPsvPatchConsts outputVecsPerDword
  else if i < mod.numOutputStreams then divRoundUp (mod.numPsvOutputs i) outputVecsPerDword
  else 0

def viewIdTableSize (usesViewId : Bool) (i : Nat) : Nat :=
  if usesViewId ∧ i < 4 then mod.dwordsPerInput i else 0

/-- `io_dependency_table_size`; zero where it is not set. -/
def ioTableSize (i : Nat) : Nat :=
  if mod.shaderKind = .hull ∧ i = 1 then
    mod.dwordsPerInput 1 * mod.numPsvInputs * masksPerInputVec
  else if mod.shaderKind = .domain ∧ i = 1 then
    mod.dwordsPerInput 0 * mod.numPsvPatchConsts * masksPerInputVec
  else if i < mod.numOutputStreams then
    mod.dwordsPerInput i * mod.numPsvInputs * masksPerInputVec
  else 0

def putWord (state : DependencyTables × Nat) (word : Nat) : DependencyTables × Nat :=
  let (tables, table) := state
  ({ tables with memory := Function.update tables.memory table (BitVec.ofNat 32 word) }, table + 1)

def placeStreamTables (usesViewId : Bool) (state : DependencyTables × Nat) (i : Nat) :
    DependencyTables × Nat :=
  let (tables, table) := putWord state (mod.numPsvOutputs i * 4)
  let tables := { tables with viewid := Function.update tables.viewid i table }
  let table := table + mod.viewIdTableSize usesViewId i
  let tables := { tables with io := Function.update tables.io i table }
  (tables, table + tables.ioSize i)

def placePatchTables (usesViewId : Bool) (state : DependencyTables × Nat) :
    DependencyTables × Nat :=
  let (tables, table) := putWord state (mod.numPsvPatchConsts * 4)
  let (tables, table) :=
    if mod.shaderKind = .hull then
      ({ tables with viewid := Function.update tables.viewid 1 table },
        table + mod.viewIdTableSize usesViewId 1)
    else (tables, table)
  let tables := { tables with io := Function.update tables.io 1 table }
  (tables, table + tables.ioSize 1)

def prepareDependencyTables (usesViewId : Bool) : DependencyTables :=
  let tables : DependencyTables :=
    { dwordsPerInput := mod.dwordsPerInput
      ioSize := mod.ioTableSize
      serializedSize := mod.numTables + 1 +
        ((List.range mod.numTables).map (fun i =>
          mod.viewIdTableSize usesViewId i + mod.ioTableSize i)).sum }
  let state := putWord (tables, 0) (mod.numPsvInputs * 4)
  let state := (List.range mod.numOutputStreams).foldl (mod.placeStreamTables usesViewId) state
  if mod.hasPatchTables then (mod.placePatchTables usesViewId state).1 else state.1

end IoModule

end SpirvToDxil
