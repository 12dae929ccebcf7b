import SpirvToDxil.Nir.Variable
import SpirvToDxil.Util.RowMajor

/-!
# Bindless resource accesses

Each access becomes a load of a handle from the buffer that holds the entries of a
descriptor set.
-/

namespace SpirvToDxil

namespace GlslType

/-- The lengths of nested arrays, the outermost first. -/
def lengths : GlslType → List Nat
  | array element length _ => length :: lengths element
  | _ => []

theorem aoaSizeLoop_eq (size : Nat) : (type : GlslType) →
    BitVec.ofNat 32 (aoaSizeLoop size type) = BitVec.ofNat 32 (size * type.lengths.prod)
  | .array element length stride => by
      have wrapped : BitVec.ofNat 32 (unsigned (size * length)) = BitVec.ofNat 32 (size * length) :=
        BitVec.eq_of_toNat_eq (by simp [unsigned])
      rw [aoaSizeLoop, aoaSizeLoop_eq _ element, lengths, List.prod_cons, ← Nat.mul_assoc,
        BitVec.ofNat_mul, wrapped, ← BitVec.ofNat_mul]
  | .vector .. | .matrix .. | .handle .. | .struct .. => by simp [aoaSizeLoop, lengths]

theorem getAoaSize_eq {type : GlslType} (array : type.isArray) :
    BitVec.ofNat 32 type.getAoaSize = BitVec.ofNat 32 type.lengths.prod := by
  cases type with
  | array element length stride =>
      rw [getAoaSize, aoaSizeLoop_eq, lengths, List.prod_cons]
  | _ => simp [isArray] at array

end GlslType

namespace Bindless

/-- `sizeof(struct dxil_spirv_bindless_entry)`. -/
def descriptorSize : BitVec 32 := 8

structure BindingRemapping where
  descriptorSet : UInt32
  binding : UInt32
  isSampler : Bool

structure Options where
  numDescriptorSets : UInt32
  remapBinding : BindingRemapping → BindingRemapping

/-- The size and the alignment. -/
def typeSizeAlign1 (type : GlslType) : BitVec 32 × BitVec 32 :=
  let size := if type.isArray then BitVec.ofNat 32 type.getAoaSize else 1
  (size, size)

def alignPot (x potAlign : BitVec 32) : BitVec 32 := (x + potAlign - 1#32) &&& ~~~(potAlign - 1#32)

def typeGetArrayStride (elemType : GlslType) : BitVec 32 :=
  let (elemSize, elemAlign) := typeSizeAlign1 elemType
  alignPot elemSize elemAlign

/-- `nir_build_deref_offset` of a chain of array derefs: the value of the offset it builds, for
the values of the indices. -/
def buildDerefOffset (offset : BitVec 32) : GlslType → List (BitVec 32) → BitVec 32
  | .array element _ _, index :: indices =>
    buildDerefOffset (offset + index * typeGetArrayStride element) element indices
  | _, _ => offset

/-- A load from the storage buffer at a binding, `load_vulkan_ssbo`. -/
structure EntryLoad where
  bufIdx : UInt32
  offset : BitVec 32
  numComps : Nat

def lowerDerefToIndex (options : Options) (var : Variable) (indices : List (BitVec 32))
    (isSamplerHandle : Bool) : Option EntryLoad :=
  let remap := options.remapBinding ⟨var.descriptorSet, var.binding, isSamplerHandle⟩
  if remap.descriptorSet = 0xffffffff then none
  else
    let indexInUbo := buildDerefOffset 0 var.type indices + remap.binding.toBitVec
    let offset := indexInUbo * descriptorSize
    let offset := if isSamplerHandle then offset + 4 else offset
    some ⟨var.descriptorSet, offset, 1⟩

def lowerVulkanResourceIndex (options : Options) (descriptorSet binding : UInt32)
    (index : BitVec 32) : Option EntryLoad :=
  let remap : BindingRemapping := ⟨descriptorSet, binding, false⟩
  if options.numDescriptorSets ≤ remap.descriptorSet then none
  else
    let remap := options.remapBinding remap
    let indexInUbo := index + remap.binding.toBitVec
    some ⟨remap.descriptorSet, indexInUbo * descriptorSize, 2⟩

/-- The accesses that `lower_bindless_instr` rewrites: the two derefs of a texture instruction,
the deref of an image intrinsic, and `vulkan_resource_index`. -/
inductive Access where
  | textureDeref (var : Variable) (indices : List (BitVec 32))
  | samplerDeref (var : Variable) (indices : List (BitVec 32))
  | imageDeref (var : Variable) (indices : List (BitVec 32))
  | resourceIndex (descriptorSet binding : UInt32) (index : BitVec 32)

/-- The load of the handle that replaces the operand; none where the access stays. -/
def lowerBindlessInstr (options : Options) : Access → Option EntryLoad
  | .textureDeref var indices => lowerDerefToIndex options var indices false
  | .samplerDeref var indices => lowerDerefToIndex options var indices true
  | .imageDeref var indices => lowerDerefToIndex options var indices false
  | .resourceIndex descriptorSet binding index =>
    lowerVulkanResourceIndex options descriptorSet binding index

inductive DerefKind where
  | texture
  | sampler
  | image
  deriving DecidableEq

def DerefKind.access (kind : DerefKind) (var : Variable) (indices : List (BitVec 32)) : Access :=
  match kind with
  | .texture => .textureDeref var indices
  | .sampler => .samplerDeref var indices
  | .image => .imageDeref var indices

def DerefKind.isSampler (kind : DerefKind) : Bool := kind = .sampler

/-- The lengths of a variable's arrays; an unsized array has as many elements as are bound. -/
def elementCounts (bound : Nat) (var : Variable) : List Nat :=
  match var.type.lengths with
  | 0 :: inner => bound :: inner
  | lengths => lengths

def InBounds (bound : Nat) (var : Variable) (indices : List (BitVec 32)) : Prop :=
  RowMajor.InBounds (elementCounts bound var) (indices.map BitVec.toNat)

def flatIndex (bound : Nat) (var : Variable) (indices : List (BitVec 32)) : Nat :=
  RowMajor.flatIndex (elementCounts bound var) (indices.map BitVec.toNat)

def handleOffset (binding : UInt32) (position : Nat) (isSampler : Bool) : Nat :=
  8 * (binding.toNat + position) + if isSampler then 4 else 0

/-- The accesses to elements, one at each position below the count, read the entries of a remapped
binding: each its own one, and all of them together all of the entries. -/
structure ReadsEntries {Index : Type} (lowered : Index → Option EntryLoad) (inside : Index → Prop)
    (position : Index → Nat) (remap : BindingRemapping) (isSampler : Bool) (count : Nat) :
    Prop where
  reads : ∀ index, inside index → ∃ load, lowered index = some load ∧
    load.bufIdx = remap.descriptorSet ∧
    load.offset.toNat = handleOffset remap.binding (position index) isSampler
  apart : ∀ index index', inside index → inside index' → index ≠ index' →
    (lowered index).map EntryLoad.offset ≠ (lowered index').map EntryLoad.offset
  entries : ∀ offset : BitVec 32,
    (∃ index, inside index ∧ (lowered index).map EntryLoad.offset = some offset) ↔
      ∃ position < count, offset.toNat = handleOffset remap.binding position isSampler

def DerefReadsEntries (options : Options) (kind : DerefKind) (var : Variable) (bound : Nat) :
    Prop :=
  ReadsEntries (fun indices => lowerBindlessInstr options (kind.access var indices))
    (InBounds bound var) (flatIndex bound var)
    (options.remapBinding ⟨var.descriptorSet, var.binding, kind.isSampler⟩) kind.isSampler
    (elementCounts bound var).prod

def ResourceReadsEntries (options : Options) (descriptorSet binding : UInt32) (count : Nat) :
    Prop :=
  ReadsEntries (fun index =>
    lowerBindlessInstr options (.resourceIndex descriptorSet binding index))
    (fun index => index.toNat < count) BitVec.toNat
    (options.remapBinding ⟨descriptorSet, binding, false⟩) false count

/-- On both paths the handle is loaded from the same set, and as many bytes behind the element's own
offset. -/
def PathsAgree (options : Options) (var : Variable) : Prop :=
  ∀ kind ≠ DerefKind.sampler, ∀ indices index, ∃ derefLoad resourceLoad,
    lowerBindlessInstr options (kind.access var indices) = some derefLoad ∧
    lowerBindlessInstr options (.resourceIndex var.descriptorSet var.binding index) =
      some resourceLoad ∧
    derefLoad.bufIdx = resourceLoad.bufIdx ∧
    derefLoad.offset - buildDerefOffset 0 var.type indices * descriptorSize =
      resourceLoad.offset - index * descriptorSize

/-- The callback keeps the set, the elements are packed and the offsets do not wrap. -/
structure Addressable (options : Options) (kind : DerefKind) (var : Variable) (bound : Nat) :
    Prop where
  lowered : (options.remapBinding
    ⟨var.descriptorSet, var.binding, kind.isSampler⟩).descriptorSet ≠ 0xffffffff
  sameSet : (options.remapBinding
    ⟨var.descriptorSet, var.binding, kind.isSampler⟩).descriptorSet = var.descriptorSet
  packed : RowMajor.PackedStrides (elementCounts bound var)
  fits : 8 * ((options.remapBinding
    ⟨var.descriptorSet, var.binding, kind.isSampler⟩).binding.toNat +
      (elementCounts bound var).prod) ≤ 2 ^ 32

/-- The set is one of the buffers, and the offsets do not wrap. -/
structure ResourceAddressable (options : Options) (descriptorSet binding : UInt32) (count : Nat) :
    Prop where
  known : descriptorSet < options.numDescriptorSets
  fits : 8 * ((options.remapBinding ⟨descriptorSet, binding, false⟩).binding.toNat + count) ≤ 2 ^ 32

section Entries

variable {Index : Type} {lowered : Index → Option EntryLoad} {inside : Index → Prop}
  {position : Index → Nat} {remap : BindingRemapping} {isSampler : Bool} {count : Nat}

theorem handleOffset_injective {binding : UInt32} {position position' : Nat} {isSampler : Bool}
    (same : handleOffset binding position isSampler = handleOffset binding position' isSampler) :
    position = position' := by
  unfold handleOffset at same
  split at same <;> omega

/-- It is enough that each access reads its entry, when there is an access to each position. -/
theorem readsEntries_of_reads
    (reads : ∀ index, inside index → ∃ load, lowered index = some load ∧
      load.bufIdx = remap.descriptorSet ∧
      load.offset.toNat = handleOffset remap.binding (position index) isSampler)
    (injective : ∀ index index', inside index → inside index' →
      position index = position index' → index = index')
    (below : ∀ index, inside index → position index < count)
    (onto : ∀ place < count, place < 2 ^ 32 → ∃ index, inside index ∧ position index = place) :
    ReadsEntries lowered inside position remap isSampler count where
  reads := reads
  apart index index' within within' differ := by
    obtain ⟨load, isLowered, -, offset⟩ := reads index within
    obtain ⟨load', isLowered', -, offset'⟩ := reads index' within'
    rw [isLowered, isLowered', Option.map_some, Option.map_some, Ne, Option.some_inj]
    intro same
    rw [same, offset'] at offset
    exact differ (injective index index' within within' (handleOffset_injective offset).symm)
  entries offset := by
    constructor
    · rintro ⟨index, within, read⟩
      obtain ⟨load, isLowered, -, place⟩ := reads index within
      rw [isLowered, Option.map_some, Option.some_inj] at read
      exact ⟨_, below index within, read ▸ place⟩
    · rintro ⟨place, less, read⟩
      have small : place < 2 ^ 32 := by
        have bounded := offset.isLt
        rw [read, handleOffset] at bounded
        omega
      obtain ⟨index, within, rfl⟩ := onto place less small
      obtain ⟨load, isLowered, -, value⟩ := reads index within
      refine ⟨index, within, ?_⟩
      rw [isLowered, Option.map_some, Option.some_inj]
      exact BitVec.eq_of_toNat_eq (value.trans read.symm)

theorem readsEntries_of_empty (empty : count = 0) (none : ∀ index, ¬ inside index) :
    ReadsEntries lowered inside position remap isSampler count where
  reads index within := absurd within (none index)
  apart index _ within := absurd within (none index)
  entries offset := by
    constructor
    · rintro ⟨index, within, -⟩
      exact absurd within (none index)
    · rintro ⟨_, less, -⟩
      exact absurd (empty ▸ less) (Nat.not_lt_zero _)

theorem ReadsEntries.fits (reads : ReadsEntries lowered inside position remap isSampler count)
    (nonzero : count ≠ 0)
    (onto : ∀ place < count, place < 2 ^ 32 → ∃ index, inside index ∧ position index = place) :
    8 * (remap.binding.toNat + count) ≤ 2 ^ 32 := by
  by_contra tooMany
  obtain ⟨index, within, place⟩ := onto (2 ^ 29 - remap.binding.toNat) (by omega) (by omega)
  obtain ⟨load, -, -, offset⟩ := reads.reads index within
  have bounded := load.offset.isLt
  rw [offset, place, handleOffset] at bounded
  omega

end Entries

theorem typeSizeAlign1_eq (type : GlslType) :
    typeSizeAlign1 type =
      (BitVec.ofNat 32 type.lengths.prod, BitVec.ofNat 32 type.lengths.prod) := by
  by_cases array : type.isArray
  · simp [typeSizeAlign1, array, GlslType.getAoaSize_eq array]
  · have scalar : type.lengths = [] := by
      cases type with
      | array element length stride => simp [GlslType.isArray] at array
      | _ => rfl
    simp [typeSizeAlign1, array, scalar]

theorem toNat_and_not (x y : BitVec 32) : (x &&& ~~~y).toNat = Nat.ldiff x.toNat y.toNat := by
  apply Nat.eq_of_testBit_eq
  intro i
  rw [Nat.testBit_ldiff, BitVec.testBit_toNat, BitVec.testBit_toNat, BitVec.testBit_toNat,
    BitVec.getLsbD_and, BitVec.getLsbD_not]
  by_cases inside : i < 32
  · simp [inside]
  · simp [inside, BitVec.getLsbD_of_ge x i (by omega)]

theorem typeGetArrayStride_eq {type : GlslType} (positive : 0 < type.lengths.prod)
    (bound : type.lengths.prod ≤ 2 ^ 29) :
    typeGetArrayStride type = BitVec.ofNat 32 (RowMajor.alignSelf type.lengths.prod) := by
  have aligned := RowMajor.alignSelf_lt positive
  generalize size : type.lengths.prod = elements at *
  have double : (BitVec.ofNat 32 elements + BitVec.ofNat 32 elements - 1#32).toNat =
      2 * elements - 1 := by
    rw [← BitVec.ofNat_add, BitVec.toNat_sub_of_le]
    · simp
      omega
    · simp [BitVec.le_def]
      omega
  have below : (BitVec.ofNat 32 elements - 1#32).toNat = elements - 1 := by
    rw [BitVec.toNat_sub_of_le]
    · simp
      omega
    · simp [BitVec.le_def]
      omega
  apply BitVec.eq_of_toNat_eq
  simp only [typeGetArrayStride, typeSizeAlign1_eq, size, alignPot]
  rw [toNat_and_not, double, below, BitVec.toNat_ofNat, Nat.mod_eq_of_lt (by omega),
    RowMajor.alignSelf]

/-- The offset that the builder computes is the one with aligned strides. -/
theorem buildDerefOffset_eq (offset : BitVec 32) : (type : GlslType) →
    (indices : List (BitVec 32)) →
    type.lengths.tail.prod ≠ 0 → type.lengths.tail.prod ≤ 2 ^ 29 →
    buildDerefOffset offset type indices =
      offset + BitVec.ofNat 32 (RowMajor.alignedOffset type.lengths (indices.map BitVec.toNat))
  | .array element length stride, index :: indices, nonzero, bound => by
      have positive : 0 < element.lengths.prod := Nat.pos_of_ne_zero nonzero
      have inner : element.lengths.tail.prod ≠ 0 ∧
          element.lengths.tail.prod ≤ element.lengths.prod := by
        cases lengths : element.lengths with
        | nil => simp
        | cons head tail =>
            rw [lengths, List.prod_cons] at positive
            rw [List.tail_cons, List.prod_cons]
            have nonzero := Nat.ne_of_gt positive
            have outer := Nat.ne_zero_of_mul_ne_zero_left nonzero
            exact ⟨Nat.ne_zero_of_mul_ne_zero_right nonzero,
              Nat.le_mul_of_pos_left _ (Nat.pos_of_ne_zero outer)⟩
      rw [buildDerefOffset, buildDerefOffset_eq _ element indices inner.1
        (Nat.le_trans inner.2 bound), typeGetArrayStride_eq positive bound]
      simp only [GlslType.lengths, List.map_cons, RowMajor.alignedOffset, RowMajor.offset,
        BitVec.ofNat_add, BitVec.ofNat_mul, BitVec.ofNat_toNat, BitVec.setWidth_eq]
      rw [BitVec.add_assoc]
  | .array .., [], _, _ => by simp [buildDerefOffset, RowMajor.alignedOffset, RowMajor.offset]
  | .vector .., _, _, _ | .matrix .., _, _, _ | .handle .., _, _, _ | .struct .., _, _, _ => by
      simp [buildDerefOffset, GlslType.lengths, RowMajor.alignedOffset, RowMajor.offset]

theorem alignedOffset_elementCounts (bound : Nat) (var : Variable) (indices : List Nat) :
    RowMajor.alignedOffset (elementCounts bound var) indices =
      RowMajor.alignedOffset var.type.lengths indices := by
  unfold elementCounts
  split
  next inner unsized =>
    rw [unsized]
    cases indices <;> rfl
  next => rfl

theorem tail_elementCounts (bound : Nat) (var : Variable) :
    (elementCounts bound var).tail = var.type.lengths.tail := by
  unfold elementCounts
  split
  next inner unsized => rw [unsized, List.tail_cons, List.tail_cons]
  next => rfl

section Offsets

variable {options : Options} {kind : DerefKind} {var : Variable} {bound : Nat}

theorem lowerBindlessInstr_access (indices : List (BitVec 32)) :
    lowerBindlessInstr options (kind.access var indices) =
      lowerDerefToIndex options var indices kind.isSampler := by
  cases kind <;> rfl

theorem exists_indices {indices : List Nat}
    (inside : RowMajor.InBounds (elementCounts bound var) indices)
    (small : ∀ index ∈ indices, index < 2 ^ 32) :
    InBounds bound var (indices.map (BitVec.ofNat 32)) ∧
      (indices.map (BitVec.ofNat 32)).map BitVec.toNat = indices := by
  have same : (indices.map (BitVec.ofNat 32)).map BitVec.toNat = indices := by
    rw [List.map_map]
    conv => rhs; rw [← List.map_id indices]
    apply List.map_congr_left
    intro index member
    simpa using small index member
  exact ⟨by rw [InBounds, same]; exact inside, same⟩

/-- The offset of a lowered deref, before it wraps. -/
theorem lowerDerefToIndex_offset {load : EntryLoad} {indices : List (BitVec 32)}
    {isSampler : Bool} (nonzero : (elementCounts bound var).prod ≠ 0)
    (small : (elementCounts bound var).prod ≤ 2 ^ 29)
    (lowered : lowerDerefToIndex options var indices isSampler = some load) :
    load.offset.toNat = handleOffset
      (options.remapBinding ⟨var.descriptorSet, var.binding, isSampler⟩).binding
      (RowMajor.alignedOffset (elementCounts bound var) (indices.map BitVec.toNat)) isSampler %
        2 ^ 32 := by
  have inner : var.type.lengths.tail.prod ≠ 0 ∧ var.type.lengths.tail.prod ≤ 2 ^ 29 := by
    rw [← tail_elementCounts bound var]
    cases counts : elementCounts bound var with
    | nil => simp
    | cons head tail =>
        rw [counts, List.prod_cons] at nonzero small
        have outer := Nat.ne_zero_of_mul_ne_zero_left nonzero
        exact ⟨Nat.ne_zero_of_mul_ne_zero_right nonzero,
          Nat.le_trans (Nat.le_mul_of_pos_left _ (Nat.pos_of_ne_zero outer)) small⟩
  rw [alignedOffset_elementCounts]
  simp only [lowerDerefToIndex, buildDerefOffset_eq _ _ _ inner.1 inner.2] at lowered
  split at lowered
  next => cases lowered
  next =>
    cases lowered
    cases isSampler with
    | true =>
        simp [handleOffset, descriptorSize, BitVec.toNat_add, BitVec.toNat_mul]
        omega
    | false =>
        simp [handleOffset, descriptorSize, BitVec.toNat_add, BitVec.toNat_mul]
        omega

theorem inBounds_prod_ne_zero {indices : List (BitVec 32)} (inside : InBounds bound var indices) :
    (elementCounts bound var).prod ≠ 0 :=
  Nat.ne_of_gt (RowMajor.prod_pos_of_inBounds inside)

theorem flatIndex_injective {indices indices' : List (BitVec 32)}
    (inside : InBounds bound var indices) (inside' : InBounds bound var indices')
    (same : flatIndex bound var indices = flatIndex bound var indices') : indices = indices' :=
  List.map_injective_iff.mpr (fun _ _ => BitVec.eq_of_toNat_eq)
    (RowMajor.flatIndex_injective inside inside' same)

/-- There is an element at every position, as far as indices go. -/
theorem exists_element {position : Nat} (less : position < (elementCounts bound var).prod)
    (small : position < 2 ^ 32) :
    ∃ indices, InBounds bound var indices ∧ flatIndex bound var indices = position := by
  obtain ⟨naturals, natInside, found⟩ := RowMajor.exists_flatIndex less
  have fewer : ∀ index ∈ naturals, index < 2 ^ 32 := by
    intro index member
    have positive := fun length (member : length ∈ elementCounts bound var) =>
      RowMajor.pos_of_prod_ne_zero (by omega) member
    have le := RowMajor.le_flatIndex positive natInside member
    omega
  obtain ⟨inside, same⟩ := exists_indices natInside fewer
  exact ⟨_, inside, by rw [flatIndex, same, found]⟩

theorem Addressable.readsEntries (addressable : Addressable options kind var bound) :
    DerefReadsEntries options kind var bound := by
  have fits := addressable.fits
  refine readsEntries_of_reads ?_ (fun _ _ => flatIndex_injective)
    (fun _ => RowMajor.flatIndex_lt) (fun _ => exists_element)
  intro indices inside
  have nonzero := inBounds_prod_ne_zero inside
  have less := RowMajor.flatIndex_lt inside
  obtain ⟨load, lowered, buffer⟩ : ∃ load,
      lowerDerefToIndex options var indices kind.isSampler = some load ∧
      load.bufIdx = var.descriptorSet := by
    simp [lowerDerefToIndex, addressable.lowered]
  have offset := lowerDerefToIndex_offset nonzero (by omega) lowered
  rw [RowMajor.alignedOffset_eq_flatIndex addressable.packed inside] at offset
  refine ⟨load, by rw [lowerBindlessInstr_access, lowered],
    buffer.trans addressable.sameSet.symm, ?_⟩
  rw [offset, flatIndex, Nat.mod_eq_of_lt]
  unfold handleOffset
  split <;> omega

theorem DerefReadsEntries.addressable (reads : DerefReadsEntries options kind var bound)
    (nonzero : (elementCounts bound var).prod ≠ 0) : Addressable options kind var bound := by
  have fits := ReadsEntries.fits reads nonzero fun _ => exists_element
  obtain ⟨first, inside, -⟩ := exists_element (Nat.pos_of_ne_zero nonzero) (by decide)
  obtain ⟨load, lowered, buffer, -⟩ := reads.reads first inside
  simp only [lowerBindlessInstr_access, lowerDerefToIndex] at lowered
  split at lowered
  next => cases lowered
  next bindless =>
    cases lowered
    refine ⟨bindless, buffer.symm, ?_, fits⟩
    apply RowMajor.packedStrides_of_offsets nonzero (by omega : _ ≤ 2 ^ 29)
    intro naturals natInside
    have fewer : ∀ index ∈ naturals, index < 2 ^ 32 := by
      intro index member
      have less := RowMajor.lt_of_inBounds natInside member
      omega
    obtain ⟨inside, same⟩ := exists_indices natInside fewer
    obtain ⟨load, lowered, _, offset⟩ := reads.reads _ inside
    rw [lowerBindlessInstr_access] at lowered
    have wrapped := lowerDerefToIndex_offset nonzero (by omega) lowered
    rw [offset, same, flatIndex, same] at wrapped
    simp only [handleOffset] at wrapped
    omega

theorem derefReadsEntries_iff :
    DerefReadsEntries options kind var bound ↔
      (elementCounts bound var).prod = 0 ∨ Addressable options kind var bound := by
  constructor
  · intro reads
    by_cases empty : (elementCounts bound var).prod = 0
    · exact .inl empty
    · exact .inr (reads.addressable empty)
  · rintro (empty | addressable)
    · exact readsEntries_of_empty empty fun _ inside => inBounds_prod_ne_zero inside empty
    · exact addressable.readsEntries

variable {descriptorSet binding : UInt32} {count : Nat}

theorem exists_index {position : Nat} (less : position < count) (small : position < 2 ^ 32) :
    ∃ index : BitVec 32, index.toNat < count ∧ index.toNat = position := by
  have same : (BitVec.ofNat 32 position).toNat = position := by
    rw [BitVec.toNat_ofNat, Nat.mod_eq_of_lt small]
  exact ⟨BitVec.ofNat 32 position, same.symm ▸ less, same⟩

theorem resourceReadsEntries_iff :
    ResourceReadsEntries options descriptorSet binding count ↔
      count = 0 ∨ ResourceAddressable options descriptorSet binding count := by
  constructor
  · intro reads
    by_cases empty : count = 0
    · exact .inl empty
    refine .inr ⟨?_, ReadsEntries.fits reads empty fun _ => exists_index⟩
    obtain ⟨load, lowered, -⟩ := reads.reads 0#32 (Nat.pos_of_ne_zero empty)
    simp only [lowerBindlessInstr, lowerVulkanResourceIndex] at lowered
    split at lowered
    next => cases lowered
    next less => exact UInt32.not_le.mp less
  · rintro (empty | ⟨known, fits⟩)
    · exact readsEntries_of_empty empty fun _ less => absurd (empty ▸ less) (Nat.not_lt_zero _)
    refine readsEntries_of_reads ?_ (fun _ _ _ _ => BitVec.eq_of_toNat_eq) (fun _ => id)
      (fun _ => exists_index)
    intro index inside
    refine ⟨_, by rw [lowerBindlessInstr, lowerVulkanResourceIndex,
      if_neg (UInt32.not_le.mpr known)], rfl, ?_⟩
    simp [handleOffset, descriptorSize, BitVec.toNat_add, BitVec.toNat_mul]
    omega

theorem pathsAgree_iff :
    PathsAgree options var ↔
      (options.remapBinding ⟨var.descriptorSet, var.binding, false⟩).descriptorSet ≠ 0xffffffff ∧
      (options.remapBinding ⟨var.descriptorSet, var.binding, false⟩).descriptorSet =
        var.descriptorSet ∧
      var.descriptorSet < options.numDescriptorSets := by
  constructor
  · intro agree
    obtain ⟨derefLoad, resourceLoad, lowered, lowered', buffer, -⟩ := agree .texture nofun [] 0
    simp only [lowerBindlessInstr, DerefKind.access, lowerDerefToIndex,
      lowerVulkanResourceIndex] at lowered lowered'
    split at lowered
    next => cases lowered
    next bindless =>
      split at lowered'
      next => cases lowered'
      next less =>
        cases lowered
        cases lowered'
        exact ⟨bindless, buffer.symm, UInt32.not_le.mp less⟩
  · rintro ⟨bindless, sameSet, known⟩ kind notSampler indices index
    have plain : kind.isSampler = false := by simp [DerefKind.isSampler, notSampler]
    rw [lowerBindlessInstr_access, plain]
    refine ⟨_, _, by rw [lowerDerefToIndex, if_neg bindless], by rw [lowerBindlessInstr,
      lowerVulkanResourceIndex, if_neg (UInt32.not_le.mpr known)], sameSet.symm, ?_⟩
    have cancel (x y : BitVec 32) : (x + y) * descriptorSize - x * descriptorSize =
        y * descriptorSize := by
      rw [BitVec.add_mul, BitVec.add_comm, BitVec.add_sub_cancel]
    simp only [Bool.false_eq_true, if_false, cancel]

end Offsets

/-- The accesses through derefs, and those through `vulkan_resource_index`, read the entries that
the callback gives them just when their condition holds or there is nothing to access, and the two
paths agree just when both are lowered and the callback keeps the set. -/
theorem readsEntries_iff (options : Options) (kind : DerefKind) (var : Variable) (bound : Nat) :
    (DerefReadsEntries options kind var bound ↔
      (elementCounts bound var).prod = 0 ∨ Addressable options kind var bound) ∧
    (∀ descriptorSet binding count, ResourceReadsEntries options descriptorSet binding count ↔
      count = 0 ∨ ResourceAddressable options descriptorSet binding count) ∧
    (PathsAgree options var ↔
      (options.remapBinding ⟨var.descriptorSet, var.binding, false⟩).descriptorSet ≠ 0xffffffff ∧
      (options.remapBinding ⟨var.descriptorSet, var.binding, false⟩).descriptorSet =
        var.descriptorSet ∧
      var.descriptorSet < options.numDescriptorSets) :=
  ⟨derefReadsEntries_iff, fun _ _ _ => resourceReadsEntries_iff, pathsAgree_iff⟩

/-- Two arrays of three textures each. -/
def textures : Variable :=
  ⟨.array (.array (.handle .texture true) 3 0) 2 0, .uniform, 0, 0, 0⟩

/-- The second array starts at the sixth entry instead of the fourth. -/
theorem not_readsEntries_textures : ¬DerefReadsEntries ⟨1, id⟩ .texture textures 0 := by
  intro reads
  obtain ⟨load, lowered, -, offset⟩ := reads.reads [1, 0] (by
    unfold InBounds RowMajor.InBounds
    decide)
  have fortieth : lowerBindlessInstr ⟨1, id⟩ (DerefKind.texture.access textures [1, 0]) =
      some ⟨0, 40, 1⟩ := rfl
  rw [fortieth, Option.some_inj] at lowered
  subst lowered
  revert offset
  decide

end Bindless

end SpirvToDxil
