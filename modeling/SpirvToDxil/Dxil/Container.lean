import Mathlib.Data.Fintype.Basic
import SpirvToDxil.Container.Format
import SpirvToDxil.Util.Blob

/-!
# The DXIL container

`dxil_container.c`.  Every `dxil_container_add_*` function computes the size of its
part, writes the header of the part with it and then writes the payload; the sizes
come from their own formulas.  `Container.Holds` says which parts a container
stands for, and `dxil_container_write` turns them into a file of that format.

A failed assertion or write is `none`, but for the two assertions of `dxil_container_add_module`
on the bitcode, which are left out: that no bits of it are pending and that it consists of words.
-/

namespace SpirvToDxil

open Bitstream

def wordBytes (word : UInt32) : List UInt8 := bytesOfNat 4 word.toNat

@[simp] theorem length_wordBytes (word : UInt32) : (wordBytes word).length = 4 := by
  simp [wordBytes]

/-! ## Containers -/

def DXIL_MAX_PARTS : Nat := 8

structure Container where
  parts : Blob
  partOffsets : List Nat
  roomForParts : partOffsets.length ≤ DXIL_MAX_PARTS

namespace Container

def init : Container := ⟨Blob.init, [], by decide⟩

def writeAll (c : Container) (writes : List (List UInt8)) : Option Container := do
  let parts ← c.parts.writeAll writes
  some { c with parts := parts }

def addPartHeader (c : Container) (fourcc partSize : Nat) : Option Container :=
  if c.parts.size < 2 ^ 32 - 1 then do
    let written ← c.writeAll [bytesOfNat 4 fourcc, bytesOfNat 4 partSize]
    if room : c.partOffsets.length < DXIL_MAX_PARTS then
      some {
        parts := written.parts
        partOffsets := c.partOffsets ++ [c.parts.size]
        roomForParts := by simpa using Nat.succ_le_of_lt room }
    else none
  else none

end Container

def fourcc (tag : String) : Nat := natOfBytes (tag.toList.map fun ch => UInt8.ofNat ch.toNat)

def DXIL_ISG1 : Nat := fourcc "ISG1"
def DXIL_SFI0 : Nat := fourcc "SFI0"
def DXIL_DXIL : Nat := fourcc "DXIL"
def DXIL_PSV0 : Nat := fourcc "PSV0"

/-! ## Signatures -/

structure SignatureElement where
  stream : UInt32
  semanticNameOffset : UInt32
  semanticIndex : UInt32
  systemValue : UInt32
  compType : UInt32
  reg : UInt32
  mask : UInt8
  /-- The union of `never_writes_mask` and `always_reads_mask`. -/
  usageMask : UInt8
  pad : UInt16
  minPrecision : UInt32
  deriving DecidableEq

/-- `struct dxil_signature_element` in memory. -/
def SignatureElement.bytes (e : SignatureElement) : List UInt8 :=
  wordBytes e.stream ++ wordBytes e.semanticNameOffset ++ wordBytes e.semanticIndex ++
    wordBytes e.systemValue ++ wordBytes e.compType ++ wordBytes e.reg ++
    [e.mask, e.usageMask] ++ bytesOfNat 2 e.pad.toNat ++ wordBytes e.minPrecision

@[simp] theorem SignatureElement.length_bytes (e : SignatureElement) : e.bytes.length = 32 := by
  simp [bytes]

structure SignatureRecord where
  elements : List SignatureElement
  name : List UInt8
  inArray : elements.length ≤ 32

def SignatureRecord.setSemanticNameOffset (io : SignatureRecord) (offset : Nat) :
    SignatureRecord where
  elements := io.elements.map fun e => { e with semanticNameOffset := UInt32.ofNat offset }
  name := io.name
  inArray := by simpa using io.inArray

def DXIL_SHADER_MAX_IO_ROWS : Nat := 128

/-- The records of one signature, which are an array of `struct dxil_module`. -/
structure IoData where
  records : List SignatureRecord
  inArray : records.length ≤ DXIL_SHADER_MAX_IO_ROWS

/-- `_mesa_string_buffer_append_len`, whose result nobody looks at. The capacity, which doubles
up to 2^31 bytes, is left out. -/
def appendLen (buf bytes : List UInt8) : List UInt8 :=
  if buf.length + bytes.length + 1 < 2 ^ 32 then buf ++ bytes else buf

structure SemanticNames where
  entries : List (List UInt8 × Nat)
  buf : List UInt8

/-- The offset of a name; only an array's worth of names is remembered. -/
def getSemanticNameOffset (names : SemanticNames) (name : List UInt8) (bufOffset : Nat)
    (validator7 : Bool) : Option (Nat × SemanticNames) :=
  let offset := (names.buf.length + bufOffset) % 2 ^ 32
  let appended := appendLen names.buf (name ++ [0])
  -- DXC doesn't de-duplicate arbitrary semantic names until validator 1.7, only SVs
  if validator7 ∨ name.take 3 = [83, 86, 95] then
    match names.entries.find? (·.1 = name) with
    | some entry => some (entry.2, names)
    | none =>
      if names.entries.length < DXIL_SHADER_MAX_IO_ROWS then
        some (offset, { entries := names.entries ++ [(name, offset)], buf := appended })
      else none
  else some (offset, { names with buf := appended })

/-- The loop of `collect_semantic_names`: the records with their name offsets. -/
def collectNames (bufOffset : Nat) (validator7 : Bool) :
    SemanticNames → List SignatureRecord → Option (List SignatureRecord × SemanticNames)
  | names, [] => some ([], names)
  | names, io :: ios => do
    let (offset, names) ← getSemanticNameOffset names io.name bufOffset validator7
    let (ios, names) ← collectNames bufOffset validator7 names ios
    some (io.setSemanticNameOffset offset :: ios, names)

/-- The records with their name offsets, and the names padded for newer validators. -/
def collectSemanticNames (ioData : List SignatureRecord) (bufOffset : Nat) (validator7 : Bool) :
    Option (List SignatureRecord × List UInt8) := do
  let (ioData, names) ← collectNames bufOffset validator7 ⟨[], []⟩ ioData
  let padding := List.replicate (4 - names.buf.length % 4) 0
  some (ioData,
    if validator7 ∧ names.buf.length % 4 ≠ 0 then appendLen names.buf padding else names.buf)

def paramCount (ioData : List SignatureRecord) : Nat :=
  (ioData.map fun io => io.elements.length).sum

/-- What `dxil_container_add_io_signature` writes behind the header of the part. -/
def ioSignatureWrites (ioData : List SignatureRecord) (names : List UInt8) (count : Nat) :
    List (List UInt8) :=
  (bytesOfNat 4 count ++ bytesOfNat 4 8) ::
    ((ioData.flatMap fun io => io.elements.map SignatureElement.bytes) ++ [names])

def Container.addIoSignature (c : Container) (part : Nat) (io : IoData) (validator7 : Bool) :
    Option Container := do
  let fixedSize := 8 + 32 * paramCount io.records
  let (ioData, names) ← collectSemanticNames io.records fixedSize validator7
  let lastOffset := (fixedSize + names.length) % 2 ^ 32
  let c ← c.addPartHeader part lastOffset
  c.writeAll (ioSignatureWrites ioData names (paramCount io.records))

/-! ## Features and the module -/

/-- The features are given as the 64 bits that the bitfield is packed into. -/
def Container.addFeatures (c : Container) (features : UInt64) : Option Container := do
  let c ← c.addPartHeader DXIL_SFI0 8
  c.writeAll [bytesOfNat 8 features.toNat]

/-- The fields of `struct dxil_module` that `dxil_container_add_module` reads. -/
structure Program where
  shaderKind : Nat
  majorVersion : Nat
  minorVersion : Nat
  bitcode : List UInt8

def Program.size (m : Program) : Nat := 24 + m.bitcode.length

def Program.writes (m : Program) : List (List UInt8) :=
  [bytesOfNat 4 (m.shaderKind <<< 16 ||| m.majorVersion <<< 4 ||| m.minorVersion),
    bytesOfNat 4 (m.size % 2 ^ 32 / 4), bytesOfNat 4 0x4C495844, bytesOfNat 4 (1 <<< 8),
    bytesOfNat 4 16, bytesOfNat 4 m.bitcode.length, m.bitcode]

def Container.addModule (c : Container) (m : Program) : Option Container := do
  let c ← c.addPartHeader DXIL_DXIL (m.size % 2 ^ 32)
  c.writeAll m.writes

/-! ## State validation -/

structure PsvSignatureElement where
  semanticNameOffset : UInt32
  semanticIndexesOffset : UInt32
  rows : UInt8
  startRow : UInt8
  colsAndStart : UInt8
  semanticKind : UInt8
  componentType : UInt8
  interpolationMode : UInt8
  dynamicMaskAndStream : UInt8
  reserved : UInt8
  deriving DecidableEq

def PsvSignatureElement.bytes (e : PsvSignatureElement) : List UInt8 :=
  wordBytes e.semanticNameOffset ++ wordBytes e.semanticIndexesOffset ++
    [e.rows, e.startRow, e.colsAndStart, e.semanticKind, e.componentType, e.interpolationMode,
      e.dynamicMaskAndStream, e.reserved]

/-- `struct dxil_psv_runtime_info_3`; the sixteen bytes of stage data are a union. -/
structure PsvRuntimeInfo where
  stageData : List UInt8
  minExpectedWaveLaneCount : UInt32
  maxExpectedWaveLaneCount : UInt32
  shaderStage : UInt8
  usesViewId : UInt8
  maxVertexCount : UInt16
  sigInputElements : UInt8
  sigOutputElements : UInt8
  sigPatchConstOrPrimElements : UInt8
  sigInputVectors : UInt8
  sigOutputVectors : List UInt8
  numThreadsX : UInt32
  numThreadsY : UInt32
  numThreadsZ : UInt32
  entryFunctionName : UInt32
  stageDataSize : stageData.length = 16
  outputStreams : sigOutputVectors.length = 4

def PsvRuntimeInfo.bytes (s : PsvRuntimeInfo) : List UInt8 :=
  s.stageData ++ wordBytes s.minExpectedWaveLaneCount ++ wordBytes s.maxExpectedWaveLaneCount ++
    [s.shaderStage, s.usesViewId] ++ bytesOfNat 2 s.maxVertexCount.toNat ++
    [s.sigInputElements, s.sigOutputElements, s.sigPatchConstOrPrimElements, s.sigInputVectors] ++
    s.sigOutputVectors ++ wordBytes s.numThreadsX ++ wordBytes s.numThreadsY ++
    wordBytes s.numThreadsZ ++ wordBytes s.entryFunctionName

/-- `struct dxil_resource_v1`, of which `struct dxil_resource_v0` is the start. -/
structure ResourceRecord where
  resourceType : UInt32
  space : UInt32
  lowerBound : UInt32
  upperBound : UInt32
  resourceKind : UInt32
  resourceFlags : UInt32
  deriving DecidableEq

def ResourceRecord.bytes (r : ResourceRecord) (size : Nat) : List UInt8 :=
  (wordBytes r.resourceType ++ wordBytes r.space ++ wordBytes r.lowerBound ++
    wordBytes r.upperBound ++ wordBytes r.resourceKind ++ wordBytes r.resourceFlags).take size

structure ValidationState where
  state : PsvRuntimeInfo
  resources : List ResourceRecord

/-- The fields of `struct dxil_module` that go into the state validation part.  The
tables of each stream have the sizes that the module says. -/
structure PsvModule where
  isGeometryShader : Bool
  minorValidator : Nat
  semStringTable : List UInt8
  semIndexTable : List UInt32
  psvInputs : List PsvSignatureElement
  psvOutputs : List PsvSignatureElement
  psvPatchConsts : List PsvSignatureElement
  numPsvInputs : Nat
  numPsvOutputs : List Nat
  dependencyTableDwordsPerInput : List Nat
  ioDependencyTableSize : List Nat
  viewidDependencyTable : List (List UInt32)
  ioDependencyTable : List (List UInt32)
  outputStreams : numPsvOutputs.length = 4
  viewidSizes : viewidDependencyTable.map List.length = dependencyTableDwordsPerInput
  ioSizes : ioDependencyTable.map List.length = ioDependencyTableSize

namespace PsvModule

def psvSize (m : PsvModule) : Nat :=
  if 8 ≤ m.minorValidator then 52 else if 6 ≤ m.minorValidator then 48 else 36

def resourceBindInfoSize (m : PsvModule) : Nat := if 6 ≤ m.minorValidator then 24 else 16

def hasSignature (m : PsvModule) : Bool :=
  m.psvInputs.length ≠ 0 ∨ m.psvOutputs.length ≠ 0 ∨ m.psvPatchConsts.length ≠ 0

def stringTableSize (m : PsvModule) : Nat := (m.semStringTable.length + 3) / 4 * 4

/-- The vector counts that are copied from the module, as bytes. -/
def patchState (m : PsvModule) (s : PsvRuntimeInfo) : PsvRuntimeInfo :=
  { s with
    sigInputVectors := UInt8.ofNat m.numPsvInputs
    sigOutputVectors := m.numPsvOutputs.map UInt8.ofNat
    outputStreams := by simpa using m.outputStreams }

/-- The size that `dxil_container_add_state_validation` puts into the part header. -/
def validationSize (m : PsvModule) (state : ValidationState) : Nat :=
  let count := state.resources.length
  let size := m.psvSize + 2 * 4
  let size := size + if 0 < count then 4 + m.resourceBindInfoSize * count else 0
  let size := size + (4 + m.stringTableSize)
  let size := size + (4 + m.semIndexTable.length * 4)
  let size := size + if m.hasSignature then 4 else 0
  let size := size + 16 * m.psvInputs.length
  let size := size + 16 * m.psvOutputs.length
  let size := size + 16 * m.psvPatchConsts.length
  let size := size + if state.state.usesViewId ≠ 0 then
    (m.dependencyTableDwordsPerInput.map (· * 4)).sum else 0
  size + (m.ioDependencyTableSize.map (· * 4)).sum

/-- The loop over the streams of a geometry shader, from the last stream on: every
table below one that has data is cleared. -/
def clearEarlier : Bool → List (List UInt32) → List (List UInt32)
  | _, [] => []
  | zero, table :: tables =>
    (if zero then table.map fun _ => 0 else table) :: clearEarlier (zero || table ≠ []) tables

/-- The tables of a geometry shader as the validators before 1.8 compute them. -/
def tablesWritten (m : PsvModule) (tables : List (List UInt32)) : List (List UInt32) :=
  if m.isGeometryShader ∧ m.minorValidator < 8 then (clearEarlier false tables.reverse).reverse
  else tables

def tableWrites (tables : List (List UInt32)) (sizes : List Nat) : List (List UInt8) :=
  List.zipWith (fun table size => (table.take size).flatMap wordBytes) tables sizes

/-- What `dxil_container_add_state_validation` writes behind the part header. -/
def validationWrites (m : PsvModule) (state : ValidationState) : List (List UInt8) :=
  let count := state.resources.length
  [bytesOfNat 4 m.psvSize, (m.patchState state.state).bytes.take m.psvSize, bytesOfNat 4 count] ++
    (if 0 < count then
      [bytesOfNat 4 m.resourceBindInfoSize,
        state.resources.flatMap fun r => r.bytes m.resourceBindInfoSize]
    else []) ++
    [bytesOfNat 4 m.stringTableSize, m.semStringTable,
      List.replicate (m.stringTableSize - m.semStringTable.length) 0] ++
    [bytesOfNat 4 m.semIndexTable.length] ++
    (if 0 < m.semIndexTable.length then [m.semIndexTable.flatMap wordBytes] else []) ++
    (if m.hasSignature then
      [bytesOfNat 4 16, m.psvInputs.flatMap PsvSignatureElement.bytes,
        m.psvOutputs.flatMap PsvSignatureElement.bytes,
        m.psvPatchConsts.flatMap PsvSignatureElement.bytes]
    else []) ++
    (if state.state.usesViewId ≠ 0 then
      tableWrites (m.tablesWritten m.viewidDependencyTable) m.dependencyTableDwordsPerInput
    else []) ++
    tableWrites (m.tablesWritten m.ioDependencyTable) m.ioDependencyTableSize

end PsvModule

def Container.addStateValidation (c : Container) (m : PsvModule) (state : ValidationState) :
    Option Container := do
  let c ← c.addPartHeader DXIL_PSV0 (m.validationSize state % 2 ^ 32)
  c.writeAll (m.validationWrites state)

/-! ## Writing the container -/

def DXIL_DXBC : Nat := fourcc "DXBC"

def Container.write (c : Container) (blob : Blob) : Option Blob :=
  let headerSize := 32 + 4 * c.partOffsets.length
  let size := headerSize + c.parts.size
  let offsets := c.partOffsets.map (headerSize + ·)
  if blob.size = 0 ∧ size ≤ 2 ^ 32 - 1 ∧ ∀ offset ∈ offsets, offset ≤ 2 ^ 32 - 1 then
    blob.writeAll [bytesOfNat 4 DXIL_DXBC, List.replicate 16 0, bytesOfNat 2 1, bytesOfNat 2 0,
      bytesOfNat 4 size, bytesOfNat 4 c.partOffsets.length, offsets.flatMap (bytesOfNat 4),
      c.parts.data]
  else none

/-! ## The parts of a container -/

namespace Container

/-- The container consists of these parts, written one behind the other. -/
structure Holds (c : Container) (parts : List PartFile.Part) : Prop where
  growable : c.parts.Growable
  data : c.parts.data = PartFile.body parts
  offsets : c.partOffsets = PartFile.offsets 0 parts

theorem holds_init : init.Holds [] := ⟨Blob.growable_init, rfl, rfl⟩

theorem writeAll_growable {c : Container} (growable : c.parts.Growable)
    (writes : List (List UInt8)) :
    ∃ c', c.writeAll writes = some c' ∧ c'.parts.Growable ∧
      c'.parts.data = c.parts.data ++ writes.flatten ∧ c'.partOffsets = c.partOffsets := by
  obtain ⟨parts, written, stillGrowable, data⟩ := Blob.writeAll_growable growable writes
  refine ⟨{ c with parts := parts }, ?_, stillGrowable, data, rfl⟩
  rw [writeAll, written]
  rfl

/-- A header with the size of what is written behind it makes one more part. -/
theorem Holds.addPart {c : Container} {parts : List PartFile.Part} (holds : c.Holds parts)
    {tag size : Nat} {writes : List (List UInt8)} (room : parts.length < DXIL_MAX_PARTS)
    (small : (PartFile.body parts).length < 2 ^ 32 - 1) (declared : size = writes.flatten.length) :
    ∃ c₁ c₂, c.addPartHeader tag size = some c₁ ∧ c₁.writeAll writes = some c₂ ∧
      c₂.Holds (parts ++ [⟨tag, writes.flatten⟩]) := by
  obtain ⟨c₀, written, growable, data, offsets⟩ :=
    writeAll_growable holds.growable [bytesOfNat 4 tag, bytesOfNat 4 size]
  have roomHere : c.partOffsets.length < DXIL_MAX_PARTS := by
    rw [holds.offsets, PartFile.length_offsets]
    exact room
  have smallHere : c.parts.size < 2 ^ 32 - 1 := by
    rw [Blob.size, holds.data]
    exact small
  obtain ⟨c₂, payload, growable₂, data₂, offsets₂⟩ := @writeAll_growable
    { parts := c₀.parts, partOffsets := c.partOffsets ++ [c.parts.size],
      roomForParts := by simpa using Nat.succ_le_of_lt roomHere } growable writes
  refine ⟨_, c₂, ?_, payload, growable₂, ?_, ?_⟩
  · rw [addPartHeader, if_pos smallHere, written, Option.bind_eq_bind, Option.bind_some,
      dif_pos roomHere]
  · rw [data₂, PartFile.body_append, PartFile.body_cons, PartFile.body_nil, List.append_nil,
      PartFile.Part.bytes]
    simp only [data, holds.data, declared, List.flatten_cons, List.flatten_nil, List.append_nil,
      List.append_assoc]
  · have here : PartFile.offsets (PartFile.body parts).length [⟨tag, writes.flatten⟩] =
        [c.parts.size] := by
      rw [Blob.size, holds.data]
      rfl
    rw [offsets₂, PartFile.offsets_append, Nat.zero_add, here, ← holds.offsets]

end Container

/-! ## The sizes of the parts -/

@[simp] theorem length_words (words : List UInt32) :
    (words.flatMap wordBytes).length = 4 * words.length := by
  induction words with
  | nil => rfl
  | cons word words inductionHypothesis =>
    simp only [List.flatMap_cons, List.length_append, length_wordBytes, inductionHypothesis,
      List.length_cons]
    omega

theorem length_flatMap_const {α : Type} {bytes : α → List UInt8} {size : Nat} (list : List α)
    (each : ∀ a, (bytes a).length = size) : (list.flatMap bytes).length = size * list.length := by
  induction list with
  | nil => rfl
  | cons a list inductionHypothesis =>
    rw [List.flatMap_cons, List.length_append, each, inductionHypothesis, List.length_cons,
      Nat.mul_succ, Nat.add_comm]

theorem PsvSignatureElement.length_bytes (e : PsvSignatureElement) : e.bytes.length = 16 := by
  simp [bytes]

theorem PsvRuntimeInfo.length_bytes (s : PsvRuntimeInfo) : s.bytes.length = 52 := by
  simp [bytes, s.stageDataSize, s.outputStreams]

theorem ResourceRecord.length_bytes {size : Nat} (small : size ≤ 24) (r : ResourceRecord) :
    (r.bytes size).length = size := by
  simp [bytes, small]

namespace PsvModule

theorem clearEarlier_lengths (zero : Bool) (tables : List (List UInt32)) :
    (clearEarlier zero tables).map List.length = tables.map List.length := by
  induction tables generalizing zero with
  | nil => rfl
  | cons table tables inductionHypothesis =>
    cases zero <;> simp [clearEarlier, inductionHypothesis]

theorem tablesWritten_lengths (m : PsvModule) (tables : List (List UInt32)) :
    (m.tablesWritten tables).map List.length = tables.map List.length := by
  unfold tablesWritten
  split
  · rw [List.map_reverse, clearEarlier_lengths, List.map_reverse, List.reverse_reverse]
  · rfl

theorem length_tableWrites {tables : List (List UInt32)} {sizes : List Nat}
    (lengths : tables.map List.length = sizes) :
    (tableWrites tables sizes).flatten.length = (sizes.map (· * 4)).sum := by
  subst lengths
  induction tables with
  | nil => rfl
  | cons table tables inductionHypothesis =>
    simp only [tableWrites] at inductionHypothesis
    simp only [tableWrites, List.map_cons, List.zipWith_cons_cons, List.flatten_cons,
      List.length_append, List.take_length, length_words, inductionHypothesis, List.sum_cons]
    omega

theorem length_resourceWrites (m : PsvModule) (resources : List ResourceRecord) :
    (if 0 < resources.length then
      [bytesOfNat 4 m.resourceBindInfoSize, resources.flatMap fun r =>
        r.bytes m.resourceBindInfoSize]
    else []).flatten.length =
      if 0 < resources.length then 4 + m.resourceBindInfoSize * resources.length else 0 := by
  have narrow : m.resourceBindInfoSize ≤ 24 := by
    unfold resourceBindInfoSize
    split_ifs <;> decide
  have each := length_flatMap_const resources (ResourceRecord.length_bytes narrow)
  split
  · simp only [List.flatten_cons, List.flatten_nil, List.length_append, List.length_nil,
      length_bytesOfNat, each]
    omega
  · rfl

theorem length_signatureWrites (m : PsvModule) :
    (if m.hasSignature then
      [bytesOfNat 4 16, m.psvInputs.flatMap PsvSignatureElement.bytes,
        m.psvOutputs.flatMap PsvSignatureElement.bytes,
        m.psvPatchConsts.flatMap PsvSignatureElement.bytes]
    else []).flatten.length = (if m.hasSignature then 4 else 0) + 16 * m.psvInputs.length +
      16 * m.psvOutputs.length + 16 * m.psvPatchConsts.length := by
  have elements : ∀ list : List PsvSignatureElement,
      (list.flatMap PsvSignatureElement.bytes).length = 16 * list.length := fun list =>
    length_flatMap_const list PsvSignatureElement.length_bytes
  by_cases some_ : m.hasSignature
  · simp only [some_, if_true, List.flatten_cons, List.flatten_nil, List.length_append,
      List.length_nil, length_bytesOfNat, elements]
    omega
  · simp only [hasSignature, ne_eq, decide_eq_true_eq, not_or, not_not] at some_
    obtain ⟨inputs, outputs, patchConsts⟩ := some_
    simp [hasSignature, inputs, outputs, patchConsts]

/-- The declared size of the state validation part is what is written. -/
theorem validationSize_eq (m : PsvModule) (state : ValidationState) :
    m.validationSize state = (m.validationWrites state).flatten.length := by
  have info : ((m.patchState state.state).bytes.take m.psvSize).length = m.psvSize := by
    rw [List.length_take, PsvRuntimeInfo.length_bytes]
    unfold psvSize
    split_ifs <;> rfl
  have strings : m.semStringTable.length + (m.stringTableSize - m.semStringTable.length) =
      m.stringTableSize := by
    unfold stringTableSize
    omega
  have indexes : (if 0 < m.semIndexTable.length then [m.semIndexTable.flatMap wordBytes]
      else []).flatten.length = m.semIndexTable.length * 4 := by
    split
    · simp only [List.flatten_cons, List.flatten_nil, List.append_nil, length_words]
      omega
    · rename_i none
      rw [List.flatten_nil, List.length_nil]
      omega
  have viewid : (if state.state.usesViewId ≠ 0 then tableWrites
      (m.tablesWritten m.viewidDependencyTable) m.dependencyTableDwordsPerInput
      else []).flatten.length = if state.state.usesViewId ≠ 0 then
        (m.dependencyTableDwordsPerInput.map (· * 4)).sum else 0 := by
    split
    · exact length_tableWrites ((m.tablesWritten_lengths _).trans m.viewidSizes)
    · rfl
  have io := length_tableWrites ((m.tablesWritten_lengths m.ioDependencyTable).trans m.ioSizes)
  simp only [validationSize, validationWrites, List.flatten_append, List.length_append,
    length_resourceWrites, length_signatureWrites, indexes, viewid, io, List.flatten_cons,
    List.flatten_nil, List.length_nil, length_bytesOfNat, info, List.length_replicate]
  omega

end PsvModule

theorem Program.size_eq (m : Program) : m.size = m.writes.flatten.length := by
  simp only [size, writes, List.flatten_cons, List.flatten_nil, List.length_append,
    length_bytesOfNat, List.length_nil]
  omega

/-! ## Names of a signature -/

theorem getSemanticNameOffset_isSome (names : SemanticNames) (name : List UInt8)
    (bufOffset : Nat) (validator7 : Bool)
    (room : names.entries.length < DXIL_SHADER_MAX_IO_ROWS) :
    ∃ offset names', getSemanticNameOffset names name bufOffset validator7 =
      some (offset, names') ∧ names'.entries.length ≤ names.entries.length + 1 := by
  unfold getSemanticNameOffset
  split
  · split
    · exact ⟨_, _, rfl, by omega⟩
    · exact ⟨_, _, rfl, by simp⟩
  · exact ⟨_, _, rfl, by simp⟩

/-- The records of one signature do not overflow the cache, and keep their elements. -/
theorem collectNames_isSome {names : SemanticNames} {ioData : List SignatureRecord}
    (bufOffset : Nat) (validator7 : Bool)
    (room : names.entries.length + ioData.length ≤ DXIL_SHADER_MAX_IO_ROWS) :
    ∃ ioData' names', collectNames bufOffset validator7 names ioData = some (ioData', names') ∧
      paramCount ioData' = paramCount ioData := by
  induction ioData generalizing names with
  | nil => exact ⟨[], names, rfl, rfl⟩
  | cons io ioData inductionHypothesis =>
    simp only [List.length_cons] at room
    obtain ⟨offset, names₁, found, grown⟩ :=
      getSemanticNameOffset_isSome names io.name bufOffset validator7 (by omega)
    obtain ⟨ioData', names₂, rest, counts⟩ := @inductionHypothesis names₁ (by omega)
    refine ⟨io.setSemanticNameOffset offset :: ioData', names₂, ?_, ?_⟩
    · simp only [collectNames, found, rest, Option.bind_eq_bind, Option.bind_some]
    · simp only [paramCount, List.map_cons, List.sum_cons, SignatureRecord.setSemanticNameOffset,
        List.length_map] at counts ⊢
      rw [counts]

theorem collectSemanticNames_isSome (io : IoData) (bufOffset : Nat) (validator7 : Bool) :
    ∃ ioData names, collectSemanticNames io.records bufOffset validator7 = some (ioData, names) ∧
      paramCount ioData = paramCount io.records := by
  obtain ⟨ioData, names, collected, counts⟩ := @collectNames_isSome ⟨[], []⟩ io.records bufOffset
    validator7 (by simpa using io.inArray)
  exact ⟨ioData, _, by simp only [collectSemanticNames, collected, Option.bind_eq_bind,
    Option.bind_some]; rfl, counts⟩

theorem ioSignatureSize_eq (ioData : List SignatureRecord) (names : List UInt8) (count : Nat) :
    8 + 32 * paramCount ioData + names.length =
      (ioSignatureWrites ioData names count).flatten.length := by
  have elements : (ioData.flatMap fun io => io.elements.map SignatureElement.bytes).flatten.length =
      32 * paramCount ioData := by
    induction ioData with
    | nil => rfl
    | cons io ioData inductionHypothesis =>
      have own : (io.elements.map SignatureElement.bytes).flatten.length =
          32 * io.elements.length :=
        length_flatMap_const io.elements SignatureElement.length_bytes
      simp only [List.flatMap_cons, List.flatten_append, List.length_append, own,
        inductionHypothesis, paramCount, List.map_cons, List.sum_cons]
      omega
  simp only [ioSignatureWrites, List.flatten_cons, List.flatten_append, List.flatten_nil,
    List.length_append, List.length_nil, length_bytesOfNat, elements]
  omega

/-! ## Sequences of parts -/

inductive PartCall where
  | addFeatures (features : UInt64)
  | addIoSignature (part : UInt32) (io : IoData) (validator7 : Bool)
  | addStateValidation (m : PsvModule) (state : ValidationState)
  | addModule (m : Program)

def PartCall.part : PartCall → PartFile.Part
  | addFeatures features => ⟨DXIL_SFI0, bytesOfNat 8 features.toNat⟩
  | addIoSignature part io validator7 =>
    match collectSemanticNames io.records (8 + 32 * paramCount io.records) validator7 with
    | some (ioData, names) =>
      ⟨part.toNat, (ioSignatureWrites ioData names (paramCount io.records)).flatten⟩
    | none => ⟨part.toNat, []⟩
  | addStateValidation m state => ⟨DXIL_PSV0, (m.validationWrites state).flatten⟩
  | addModule m => ⟨DXIL_DXIL, m.writes.flatten⟩

namespace Container

def add (c : Container) : PartCall → Option Container
  | .addFeatures features => c.addFeatures features
  | .addIoSignature part io validator7 => c.addIoSignature part.toNat io validator7
  | .addStateValidation m state => c.addStateValidation m state
  | .addModule m => c.addModule m

def addAll (c : Container) (calls : List PartCall) : Option Container := calls.foldlM add c

theorem Holds.add {c : Container} {parts : List PartFile.Part} (holds : c.Holds parts)
    {call : PartCall} (room : parts.length < DXIL_MAX_PARTS)
    (small : (PartFile.body (parts ++ [call.part])).length < 2 ^ 32) :
    ∃ c', c.add call = some c' ∧ c'.Holds (parts ++ [call.part]) := by
  simp only [PartFile.body_append, PartFile.body_cons, PartFile.body_nil, List.append_nil,
    List.length_append, PartFile.Part.length_bytes] at small
  have before : (PartFile.body parts).length < 2 ^ 32 - 1 := by omega
  cases call with
  | addFeatures features =>
    obtain ⟨c₁, c₂, header, payload, holds₂⟩ := @addPart c parts holds DXIL_SFI0 8
      [bytesOfNat 8 features.toNat] room before (by simp)
    refine ⟨c₂, ?_, by simpa [PartCall.part] using holds₂⟩
    simp only [Container.add, addFeatures, header, Option.bind_eq_bind, Option.bind_some, payload]
  | addIoSignature part io validator7 =>
    obtain ⟨ioData, names, collected, counts⟩ := collectSemanticNames_isSome io
      (8 + 32 * paramCount io.records) validator7
    have size := ioSignatureSize_eq ioData names (paramCount io.records)
    simp only [PartCall.part, collected] at small ⊢
    rw [← size] at small
    obtain ⟨c₁, c₂, header, payload, holds₂⟩ := @addPart c parts holds part.toNat
      ((8 + 32 * paramCount io.records + names.length) % 2 ^ 32)
      (ioSignatureWrites ioData names (paramCount io.records)) room before
      (by rw [← size, counts, Nat.mod_eq_of_lt (by omega)])
    refine ⟨c₂, ?_, holds₂⟩
    simp only [Container.add, addIoSignature, collected, header, Option.bind_eq_bind,
      Option.bind_some, payload]
  | addStateValidation m state =>
    have size := m.validationSize_eq state
    simp only [PartCall.part] at small ⊢
    obtain ⟨c₁, c₂, header, payload, holds₂⟩ := @addPart c parts holds DXIL_PSV0
      (m.validationSize state % 2 ^ 32) (m.validationWrites state) room before
      (by rw [size, Nat.mod_eq_of_lt (by omega)])
    refine ⟨c₂, ?_, holds₂⟩
    simp only [Container.add, addStateValidation, header, Option.bind_eq_bind, Option.bind_some,
      payload]
  | addModule m =>
    have size := m.size_eq
    simp only [PartCall.part] at small ⊢
    obtain ⟨c₁, c₂, header, payload, holds₂⟩ := @addPart c parts holds DXIL_DXIL
      (m.size % 2 ^ 32) m.writes room before (by rw [size, Nat.mod_eq_of_lt (by omega)])
    refine ⟨c₂, ?_, holds₂⟩
    simp only [Container.add, addModule, header, Option.bind_eq_bind, Option.bind_some, payload]

theorem Holds.addAll {c : Container} {parts : List PartFile.Part} (holds : c.Holds parts)
    {calls : List PartCall} (room : parts.length + calls.length ≤ DXIL_MAX_PARTS)
    (small : (PartFile.body (parts ++ calls.map PartCall.part)).length < 2 ^ 32) :
    ∃ c', c.addAll calls = some c' ∧ c'.Holds (parts ++ calls.map PartCall.part) := by
  induction calls generalizing c parts with
  | nil => exact ⟨c, rfl, by simpa using holds⟩
  | cons call calls inductionHypothesis =>
    simp only [List.length_cons] at room
    have split : parts ++ (call :: calls).map PartCall.part =
        (parts ++ [call.part]) ++ calls.map PartCall.part := by simp
    rw [split] at small ⊢
    have smallHere := small
    rw [PartFile.body_append, List.length_append] at smallHere
    obtain ⟨c₁, added, holds₁⟩ := @Holds.add c parts holds call (by omega) (by omega)
    obtain ⟨c₂, rest, holds₂⟩ := inductionHypothesis holds₁ (by simp; omega) small
    refine ⟨c₂, ?_, holds₂⟩
    rw [Container.addAll, List.foldlM_cons, added]
    exact rest

/-- The bytes in front of the size of a container: the magic number, the digest of an
unsigned file and the version. -/
def signature : List UInt8 :=
  bytesOfNat 4 DXIL_DXBC ++ List.replicate 16 0 ++ bytesOfNat 2 1 ++ bytesOfNat 2 0

theorem Holds.write {c : Container} {parts : List PartFile.Part} (holds : c.Holds parts)
    {blob : Blob} (growable : blob.Growable) (empty : blob.data = [])
    (small : PartFile.fileSize signature parts < 2 ^ 32) :
    ∃ blob', c.write blob = some blob' ∧ blob'.data = PartFile.encode signature parts := by
  have total : 32 + 4 * c.partOffsets.length + c.parts.size =
      PartFile.fileSize signature parts := by
    rw [holds.offsets, PartFile.length_offsets, Blob.size, holds.data]
    rfl
  have header : PartFile.headerSize signature parts = 32 + 4 * c.partOffsets.length := by
    rw [holds.offsets, PartFile.length_offsets]
    rfl
  have offsets : c.partOffsets.map (32 + 4 * c.partOffsets.length + ·) =
      PartFile.offsets (PartFile.headerSize signature parts) parts := by
    rw [header, ← Nat.add_zero (32 + 4 * c.partOffsets.length), PartFile.offsets_shift,
      ← holds.offsets]
    simp
  have asserted : blob.size = 0 ∧ 32 + 4 * c.partOffsets.length + c.parts.size ≤ 2 ^ 32 - 1 ∧
      ∀ offset ∈ c.partOffsets.map (32 + 4 * c.partOffsets.length + ·), offset ≤ 2 ^ 32 - 1 := by
    refine ⟨by simp [Blob.size, empty], by omega, fun offset member => ?_⟩
    rw [offsets] at member
    have below := PartFile.offsets_lt member
    have whole : PartFile.fileSize signature parts =
        PartFile.headerSize signature parts + (PartFile.body parts).length := rfl
    omega
  obtain ⟨blob', written, -, data⟩ := Blob.writeAll_growable growable
    [bytesOfNat 4 DXIL_DXBC, List.replicate 16 0, bytesOfNat 2 1, bytesOfNat 2 0,
      bytesOfNat 4 (32 + 4 * c.partOffsets.length + c.parts.size),
      bytesOfNat 4 c.partOffsets.length,
      (c.partOffsets.map (32 + 4 * c.partOffsets.length + ·)).flatMap (bytesOfNat 4),
      c.parts.data]
  refine ⟨blob', ?_, ?_⟩
  · rw [Container.write, if_pos asserted, written]
  · have count : c.partOffsets.length = parts.length := by
      rw [holds.offsets, PartFile.length_offsets]
    rw [data, empty, total, offsets, count, holds.data]
    simp [PartFile.encode, signature]

/-- The file written for any sequence of parts describes itself: a reader that goes by
its sizes and offsets finds these parts, one behind the other up to the end, each as
long as it says. -/
theorem write_self_describing {calls : List PartCall} (room : calls.length ≤ DXIL_MAX_PARTS)
    (small : PartFile.fileSize signature (calls.map PartCall.part) < 2 ^ 32) :
    ∃ c blob, init.addAll calls = some c ∧ c.write Blob.init = some blob ∧
      blob.data = PartFile.encode signature (calls.map PartCall.part) ∧
      PartFile.read signature blob.data = some (calls.map PartCall.part) := by
  have whole : PartFile.fileSize signature (calls.map PartCall.part) =
      PartFile.headerSize signature (calls.map PartCall.part) +
        (PartFile.body (calls.map PartCall.part)).length := rfl
  obtain ⟨c, added, holds⟩ := @Holds.addAll init [] holds_init calls (by simpa using room)
    (by rw [List.nil_append]; omega)
  obtain ⟨blob, written, data⟩ := holds.write Blob.growable_init rfl small
  refine ⟨c, blob, added, written, data, ?_⟩
  rw [data]
  refine PartFile.read_encode (fun part member => ?_) small
  obtain ⟨call, -, rfl⟩ := List.mem_map.mp member
  cases call with
  | addFeatures features => exact (by decide : DXIL_SFI0 < 2 ^ 32)
  | addIoSignature part io validator7 =>
    simp only [PartCall.part]
    split <;> exact part.toNat_lt
  | addStateValidation m state => exact (by decide : DXIL_PSV0 < 2 ^ 32)
  | addModule m => exact (by decide : DXIL_DXIL < 2 ^ 32)

/-- An output signature with one element, the validation state of its shader and a
module of four bytes. -/
def smallCalls : List PartCall :=
  [.addFeatures 5,
    .addIoSignature 0x3147534F ⟨[{
      elements := [⟨0, 0, 0, 1, 3, 0, 15, 0, 0, 0⟩]
      name := [83, 86, 95, 80, 111, 115, 105, 116, 105, 111, 110]
      inArray := by decide }], by decide⟩ true,
    .addStateValidation {
      isGeometryShader := false
      minorValidator := 7
      semStringTable := [0]
      semIndexTable := [0]
      psvInputs := []
      psvOutputs := [⟨0, 0, 1, 0, 68, 3, 3, 4, 0, 0⟩]
      psvPatchConsts := []
      numPsvInputs := 0
      numPsvOutputs := [1, 0, 0, 0]
      dependencyTableDwordsPerInput := [1, 0, 0, 0]
      ioDependencyTableSize := [2, 0, 0, 0]
      viewidDependencyTable := [[0], [], [], []]
      ioDependencyTable := [[1, 2], [], [], []]
      outputStreams := rfl
      viewidSizes := rfl
      ioSizes := rfl } {
      state := {
        stageData := List.replicate 16 0
        minExpectedWaveLaneCount := 0
        maxExpectedWaveLaneCount := 0xffffffff
        shaderStage := 1
        usesViewId := 0
        maxVertexCount := 0
        sigInputElements := 0
        sigOutputElements := 1
        sigPatchConstOrPrimElements := 0
        sigInputVectors := 0
        sigOutputVectors := [0, 0, 0, 0]
        numThreadsX := 0
        numThreadsY := 0
        numThreadsZ := 0
        entryFunctionName := 0
        stageDataSize := rfl
        outputStreams := rfl }
      resources := [⟨2, 0, 0, 0, 13, 0⟩] },
    .addModule ⟨1, 6, 0, [0x42, 0x43, 0xC0, 0xDE]⟩]

theorem write_self_describing_small :
    ∃ c blob, init.addAll smallCalls = some c ∧ c.write Blob.init = some blob ∧
      blob.data = PartFile.encode signature (smallCalls.map PartCall.part) ∧
      PartFile.read signature blob.data = some (smallCalls.map PartCall.part) :=
  write_self_describing (by decide) (by decide +kernel)

end Container

end SpirvToDxil
