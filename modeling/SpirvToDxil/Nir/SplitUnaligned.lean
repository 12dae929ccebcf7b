import SpirvToDxil.Nir.LowerMemStoreSoundness

/-!
# Splitting unaligned accesses

A load or a store through a deref of too little alignment becomes accesses of the size of the
alignment, one after the other.
-/

namespace SpirvToDxil

namespace SplitUnaligned

open Components ExtractBits MemAccess

/-- A load or a store through a deref, with what is known of the deref. -/
structure DerefAccess where
  /-- `nir_deref_mode_may_be` of the modes of the pass -/
  modeMayBe : Bool
  /-- Whether the mode is `nir_var_mem_ubo` or `nir_var_mem_push_const`. -/
  isConstant : Bool
  alignMul : Nat
  alignOffset : Nat
  isBoolean : Bool
  bitSize : Nat
  /-- The distance of the components of a vector, when it is not their size. -/
  explicitStride : Nat
  numComponents : Nat
  /-- Only stores have one. -/
  writeMask : Option Nat
  deriving DecidableEq, Repr

/-- `get_cast_type`, by the size of the type. -/
def getCastType (bitSize : Nat) : Option Nat :=
  if bitSize = 64 ∨ bitSize = 32 ∨ bitSize = 16 ∨ bitSize = 8 then some bitSize else none

/-- A part of the memory that one access touches. -/
structure Piece where
  address : Nat
  bitSize : Nat
  deriving DecidableEq, Repr

structure PieceStore where
  address : Nat
  bitSize : Nat
  data : List (BitVec bitSize)

def PieceStore.exec (memory : Nat → BitVec 8) (store : PieceStore) : Nat → BitVec 8 :=
  storeVector memory store.address store.data

/-- The pieces that are written, of one size and one after the other, change their bits. -/
theorem memoryBit_foldl {w address : Nat} (bytes : 8 ∣ w) (positive : 0 < w)
    (written : Nat → Bool) (data : Nat → List (BitVec w)) {count : Nat}
    (length : ∀ i < count, (data i).length = 1) (bits : Nat → Bool)
    (same : ∀ i < count, ∀ j < w, bit (data i) j = bits (i * w + j))
    (memory : Nat → BitVec 8) (i : Nat) :
    memoryBit ((((List.range count).filter written).map fun i =>
        PieceStore.mk (address + i * (w / 8)) w (data i)).foldl PieceStore.exec memory) i =
      if 8 * address ≤ i ∧ i < 8 * address + count * w ∧ written ((i - 8 * address) / w) then
        bits (i - 8 * address)
      else memoryBit memory i := by
  induction count with
  | zero =>
      rw [if_neg (by omega)]
      rfl
  | succ count inductionHypothesis =>
      have inductionHypothesis := inductionHypothesis
        (fun i less => length i (Nat.lt_succ_of_lt less))
        (fun i less => same i (Nat.lt_succ_of_lt less))
      have place : 8 * (address + count * (w / 8)) = 8 * address + count * w := by
        rw [Nat.mul_add, Nat.mul_left_comm, Nat.mul_div_cancel' bytes]
      have next : (count + 1) * w = count * w + w := Nat.succ_mul count w
      rw [List.range_succ, List.filter_append, List.map_append, List.foldl_append]
      by_cases here : 8 * address + count * w ≤ i ∧ i < 8 * address + count * w + w
      · have quotient : (i - 8 * address) / w = count :=
          Nat.div_eq_of_lt_le (by omega) (by omega)
        rw [quotient]
        cases isWritten : written count with
        | false =>
            rw [if_neg (by simp), List.filter_singleton, isWritten, cond_false]
            exact inductionHypothesis.trans (if_neg (by omega))
        | true =>
            have inPiece : i - (8 * address + count * w) < w := by omega
            rw [if_pos ⟨by omega, by omega, rfl⟩, List.filter_singleton, isWritten, cond_true,
              List.map_singleton, List.foldl_cons, List.foldl_nil, PieceStore.exec,
              memoryBit_storeVector _ bytes, place, length count (Nat.lt_succ_self count),
              Nat.one_mul, if_pos here, same count (Nat.lt_succ_self count) _ inPiece]
            congr 1
            omega
      · have elsewhere : 8 * address ≤ i ∧ i < 8 * address + (count + 1) * w ∧
              written ((i - 8 * address) / w) ↔
            8 * address ≤ i ∧ i < 8 * address + count * w ∧ written ((i - 8 * address) / w) := by
          apply and_congr_right
          intro after
          apply and_congr_left
          intro _
          omega
        rw [List.filter_singleton, if_congr elsewhere rfl rfl, ← inductionHypothesis]
        cases isWritten : written count with
        | false => rfl
        | true =>
            rw [cond_true, List.map_singleton, List.foldl_cons, List.foldl_nil, PieceStore.exec,
              memoryBit_storeVector _ bytes, place, length count (Nat.lt_succ_self count),
              Nat.one_mul, if_neg here]

namespace DerefAccess

variable (access : DerefAccess)

def alignment : Nat := combinedAlign access.alignMul access.alignOffset

def isUnalignedLoadStore : Bool :=
  if access.modeMayBe = false then false
  else
    let reqAlign := if access.isConstant then 16 else 4
    if reqAlign ≤ access.alignment then false
    else
      let scalarByteSize := if access.isBoolean then 4 else access.bitSize / 8
      let numComponents :=
        if scalarByteSize < access.explicitStride then 1
        else if access.numComponents = 3 then 4 else access.numComponents
      access.alignment < scalarByteSize * numComponents

/-- `split_unaligned_load`: the loads, and the vector that they are packed into. -/
def splitUnalignedLoad (alignment : Nat) (memory : Nat → BitVec 8) (address : Nat) :
    Option (List Piece × List (BitVec access.bitSize)) := do
  let compSize := access.bitSize / 8
  let castBitSize ← getCastType (alignment * 8)
  let numLoads := MemAccess.divRoundUp (compSize * access.numComponents) alignment
  let pieces := (List.range numLoads).map fun i => Piece.mk (address + i * alignment) castBitSize
  let srcs := pieces.map fun piece =>
    Def.mk piece.bitSize (loadVector memory piece.address 1 piece.bitSize)
  let value ← extractBits srcs 0 access.numComponents access.bitSize
  some (pieces, value)

/-- `split_unaligned_store`: the stores of the pieces of which the component is written. -/
def splitUnalignedStore (alignment writeMask address : Nat)
    (value : List (BitVec access.bitSize)) : Option (List PieceStore) := do
  let compSize := access.bitSize / 8
  let castBitSize ← getCastType (alignment * 8)
  let numStores := MemAccess.divRoundUp (compSize * access.numComponents) alignment
  let written := (List.range numStores).filter fun i =>
    let firstSrcComp := i * alignment / compSize
    writeMask.testBit firstSrcComp
  written.mapM fun i => do
    let substoreVal ← extractBits [⟨access.bitSize, value⟩] (i * alignment * 8) 1 castBitSize
    some ⟨address + i * alignment, castBitSize, substoreVal⟩

/-- The alignment of a store with holes in its mask. The component size there is in bits already. -/
def storeAlignment (writeMask : Nat) : Nat :=
  if writeMask ≠ 1 <<< access.numComponents - 1 then min access.alignment (access.bitSize * 8)
  else access.alignment

/-- The `vec_stride` of explicit accesses. -/
def vecStride : Nat := max access.explicitStride (access.bitSize / 8)

def load (memory : Nat → BitVec 8) (address : Nat) : List (BitVec access.bitSize) :=
  (List.range access.numComponents).map fun i =>
    BitVec.ofNat access.bitSize
      (littleEndian memory (address + i * access.vecStride) (access.bitSize / 8))

def componentAt (writeMask address at' : Nat) : Option Nat :=
  (List.range access.numComponents).find? fun i =>
    writeMask.testBit i ∧ address + i * access.vecStride ≤ at' ∧
      at' < address + i * access.vecStride + access.bitSize / 8

/-- The memory after the access itself stores: only bytes of the components in the mask change. -/
def store (writeMask : Nat) (memory : Nat → BitVec 8) (address : Nat)
    (value : List (BitVec access.bitSize)) : Nat → BitVec 8 := fun at' =>
  match access.componentAt writeMask address at' with
  | some i =>
    (value.getD i 0#_).extractLsb' (8 * (at' - (address + i * access.vecStride))) 8
  | none => memory at'

/-- The pieces together do what the access does, in every memory, and none is wider than the
alignment. -/
def Exact : Prop :=
  match access.writeMask with
  | none => ∀ memory address, ∃ pieces,
      access.splitUnalignedLoad access.alignment memory address =
        some (pieces, access.load memory address) ∧
      ∀ piece ∈ pieces, piece.bitSize ≤ 8 * access.alignment
  | some writeMask => ∀ memory address (value : List (BitVec access.bitSize)),
      value.length = access.numComponents → ∃ stores,
        access.splitUnalignedStore (access.storeAlignment writeMask) writeMask address value =
          some stores ∧
        (∀ piece ∈ stores, piece.bitSize ≤ 8 * access.alignment) ∧
        stores.foldl PieceStore.exec memory = access.store writeMask memory address value

/-- Components of whole bytes, and a known alignment that is below their size. -/
structure InScope : Prop where
  selected : access.isUnalignedLoadStore
  size : access.bitSize = 8 ∨ access.bitSize = 16 ∨ access.bitSize = 32 ∨ access.bitSize = 64
  notBoolean : access.isBoolean = false
  nonempty : 1 ≤ access.numComponents
  few : access.numComponents ≤ 16
  aligned : access.alignment = 1 ∨ access.alignment = 2 ∨ access.alignment = 4
  below : access.alignment < access.bitSize / 8

namespace InScope

variable {access} (inScope : access.InScope)

include inScope

theorem bitSize_eq : access.bitSize = 8 * (access.bitSize / 8) := by
  rcases inScope.size with size | size | size | size <;> rw [size]

theorem isSize : IsSize access.bitSize := by
  rcases inScope.size with size | size | size | size
  · exact ⟨3, by decide, size⟩
  · exact ⟨4, by decide, size⟩
  · exact ⟨5, by decide, size⟩
  · exact ⟨6, by decide, size⟩

theorem isSize_alignment : IsSize (access.alignment * 8) := by
  rcases inScope.aligned with aligned | aligned | aligned <;> rw [aligned]
  · exact ⟨3, by decide, rfl⟩
  · exact ⟨4, by decide, rfl⟩
  · exact ⟨5, by decide, rfl⟩

theorem getCastType_eq : getCastType (access.alignment * 8) = some (access.alignment * 8) := by
  rcases inScope.aligned with aligned | aligned | aligned <;> rw [aligned] <;> rfl

theorem alignment_dvd : access.alignment ∣ access.bitSize / 8 := by
  have below := inScope.below
  rcases inScope.size with size | size | size | size <;>
    rcases inScope.aligned with aligned | aligned | aligned <;>
    rw [size, aligned] at below ⊢ <;> revert below <;> decide

theorem divRoundUp_mul :
    MemAccess.divRoundUp (access.bitSize / 8 * access.numComponents) access.alignment *
    access.alignment =
      access.bitSize / 8 * access.numComponents := by
  obtain ⟨per, eq⟩ := inScope.alignment_dvd
  have positive : 0 < access.alignment := by
    rcases inScope.aligned with aligned | aligned | aligned <;> omega
  have shape : access.alignment * per * access.numComponents =
      access.alignment * (per * access.numComponents) := Nat.mul_assoc _ _ _
  rw [MemAccess.divRoundUp, eq, shape, Nat.add_sub_assoc positive, Nat.mul_add_div positive,
    Nat.div_eq_of_lt (Nat.sub_lt positive Nat.one_pos), Nat.add_zero, Nat.mul_comm]

theorem few_bits : access.numComponents * access.bitSize ≤ 1024 := by
  have few := inScope.few
  rcases inScope.size with size | size | size | size <;> rw [size] <;> omega

end InScope

section Load

variable {access} (inScope : access.InScope)

include inScope

/-- The vector is loaded from the bytes from the address on. -/
theorem splitUnalignedLoad_eq (memory : Nat → BitVec 8) (address : Nat) :
    ∃ pieces, access.splitUnalignedLoad access.alignment memory address =
        some (pieces, loadVector memory address access.numComponents access.bitSize) ∧
      ∀ piece ∈ pieces, piece.bitSize ≤ 8 * access.alignment := by
  let numLoads := MemAccess.divRoundUp (access.bitSize / 8 * access.numComponents) access.alignment
  have whole : 8 * (numLoads * access.alignment) = access.numComponents * access.bitSize := by
    rw [inScope.divRoundUp_mul, ← Nat.mul_assoc, ← inScope.bitSize_eq, Nat.mul_comm]
  have narrow : access.alignment * 8 ≤ 128 := by
    rcases inScope.aligned with aligned | aligned | aligned <;> omega
  have spans := @spans_map_range access.alignment (fun i => memoryBit memory (8 * address + i))
    (access.alignment * 8) numLoads inScope.isSize_alignment narrow (Nat.mul_comm _ _)
    (fun i => loadVector memory (address + i * access.alignment) 1 (access.alignment * 8))
    (fun _ _ => length_loadVector _ _ _ _) (by
      intro i _ j inside
      have place : 8 * (address + i * access.alignment) =
          8 * address + i * (access.alignment * 8) := by
        ring
      rw [bit_loadVector _ _ (Nat.dvd_mul_left 8 _) (by omega), place, Nat.add_assoc])
  obtain ⟨value, isValue, length, bits⟩ := extractBits_eq inScope.isSize spans.sizes spans.short
    (Nat.dvd_zero 8) (by rw [spans.size, whole, Nat.zero_add]) inScope.few_bits
  have same : value = loadVector memory address access.numComponents access.bitSize := by
    apply Components.ext
    · rw [length, length_loadVector]
    · intro i less
      rw [length] at less
      rw [bits i less, Nat.zero_add, spans.bits i (by omega),
        bit_loadVector _ _ inScope.isSize.eight_dvd less]
  let pieces := (List.range numLoads).map fun i =>
    Piece.mk (address + i * access.alignment) (access.alignment * 8)
  refine ⟨pieces, ?_, ?_⟩
  · rw [same] at isValue
    simp only [splitUnalignedLoad, inScope.getCastType_eq, Option.bind_eq_bind, Option.bind_some,
      List.map_map, Function.comp_def]
    rw [isValue, Option.bind_some]
  · intro piece member
    obtain ⟨i, _, rfl⟩ := List.mem_map.mp member
    exact Nat.le_of_eq (Nat.mul_comm _ _)

omit inScope in
theorem load_eq (contiguous : access.explicitStride ≤ access.bitSize / 8 ∨
      ∀ i < access.numComponents, i = 0) (memory : Nat → BitVec 8) (address : Nat) :
    access.load memory address = loadVector memory address access.numComponents access.bitSize := by
  apply List.map_congr_left
  intro i member
  rcases contiguous with close | single
  · rw [vecStride, Nat.max_eq_right close]
  · rw [single i (List.mem_range.mp member), Nat.zero_mul, Nat.zero_mul]

/-- The second component of a strided vector is not where the pieces are. -/
theorem load_ne (strided : access.bitSize / 8 < access.explicitStride)
    (several : 1 < access.numComponents) :
    ∃ memory, access.load memory 0 ≠ loadVector memory 0 access.numComponents access.bitSize := by
  have stride : access.vecStride = access.explicitStride := Nat.max_eq_left (Nat.le_of_lt strided)
  have positive : 0 < access.bitSize / 8 := Nat.zero_lt_of_lt inScope.below
  let memory : Nat → BitVec 8 := fun at' => if access.vecStride ≤ at' then 1 else 0
  refine ⟨memory, fun same => ?_⟩
  have second := congrArg (BitVec.getLsbD · 0)
    (List.map_inj_left.mp same 1 (List.mem_range.mpr several))
  have outside : ¬ access.vecStride ≤ access.bitSize / 8 := by omega
  simp only [BitVec.getLsbD_ofNat, testBit_littleEndian, Nat.zero_add, Nat.one_mul, Nat.zero_div,
    Nat.add_zero, memory, le_refl, outside, if_true, if_false] at second
  simp [positive] at second
  omega

end Load

section Store

variable {access} (inScope : access.InScope)

include inScope

theorem storeAlignment_eq (writeMask : Nat) :
    access.storeAlignment writeMask = access.alignment := by
  have below := inScope.below
  rw [storeAlignment, Nat.min_eq_left (by omega), ite_self]

/-- The pieces change the bits of the components in the mask, as if these followed one another. -/
theorem splitUnalignedStore_eq (writeMask address : Nat) {value : List (BitVec access.bitSize)}
    (length : value.length = access.numComponents) :
    ∃ stores, access.splitUnalignedStore access.alignment writeMask address value = some stores ∧
      (∀ piece ∈ stores, piece.bitSize ≤ 8 * access.alignment) ∧
      ∀ memory i, memoryBit (stores.foldl PieceStore.exec memory) i =
        if 8 * address ≤ i ∧ i < 8 * address + access.numComponents * access.bitSize ∧
            writeMask.testBit ((i - 8 * address) / access.bitSize) then
          bit value (i - 8 * address)
        else memoryBit memory i := by
  obtain ⟨per, sizeEq⟩ := inScope.alignment_dvd
  have bitSizeEq := inScope.bitSize_eq
  have positive : 0 < access.alignment := by
    rcases inScope.aligned with aligned | aligned | aligned <;> omega
  have bitsEq : access.bitSize = access.alignment * 8 * per := by
    rw [bitSizeEq, sizeEq]
    ring
  have short : access.bitSize ≤ 128 := by
    rcases inScope.size with size | size | size | size <;> omega
  let numStores := MemAccess.divRoundUp (access.bitSize / 8 * access.numComponents) access.alignment
  have whole : numStores * (access.alignment * 8) = access.numComponents * access.bitSize := by
    rw [← Nat.mul_assoc, inScope.divRoundUp_mul, Nat.mul_comm, ← Nat.mul_assoc, ← bitSizeEq,
      Nat.mul_comm]
  have span : blobSize [⟨access.bitSize, value⟩] = access.numComponents * access.bitSize := by
    rw [blobSize, blobSize, length, Nat.add_zero, Nat.mul_comm]
  have extracted (i : Nat) : ∃ data : List (BitVec (access.alignment * 8)), i < numStores →
      extractBits [⟨access.bitSize, value⟩] (i * access.alignment * 8) 1 (access.alignment * 8) =
          some data ∧ data.length = 1 ∧
        ∀ j < access.alignment * 8, bit data j = bit value (i * (access.alignment * 8) + j) := by
    by_cases inside : i < numStores
    · have room : (i + 1) * (access.alignment * 8) ≤ access.numComponents * access.bitSize :=
        whole ▸ Nat.mul_le_mul_right _ inside
      rw [Nat.succ_mul] at room
      obtain ⟨data, isData, single, bits⟩ := @extractBits_eq [⟨access.bitSize, value⟩]
        (i * access.alignment * 8) 1 _ inScope.isSize_alignment (by simpa using inScope.isSize)
        (by simpa using short) (Nat.dvd_mul_left 8 _)
        (by rw [span, Nat.one_mul, Nat.mul_assoc]; exact room) (by
          have small := inScope.below
          omega)
      refine ⟨data, fun _ => ⟨isData, single, fun j less => ?_⟩⟩
      have inVector : i * access.alignment * 8 + j < access.bitSize * value.length := by
        rw [length, Nat.mul_assoc, Nat.mul_comm access.bitSize]
        omega
      rw [bits j (by omega), blobBit, if_pos inVector, Nat.mul_assoc]
    · exact ⟨[], fun within => absurd within inside⟩
  choose data isData using extracted
  let written := fun i => writeMask.testBit (i * access.alignment / (access.bitSize / 8))
  refine ⟨((List.range numStores).filter written).map fun i =>
    ⟨address + i * (access.alignment * 8 / 8), access.alignment * 8, data i⟩, ?_, ?_, ?_⟩
  · rw [splitUnalignedStore, inScope.getCastType_eq, Option.bind_eq_bind, Option.bind_some]
    apply mapM_eq_some_map
    intro i member
    have inside := List.mem_range.mp (List.mem_of_mem_filter member)
    rw [(isData i inside).1, Option.bind_eq_bind, Option.bind_some,
      Nat.mul_div_cancel _ (by decide)]
  · intro piece member
    obtain ⟨i, _, rfl⟩ := List.mem_map.mp member
    exact Nat.le_of_eq (Nat.mul_comm _ _)
  · intro memory i
    have component : written ((i - 8 * address) / (access.alignment * 8)) =
        writeMask.testBit ((i - 8 * address) / access.bitSize) := by
      dsimp only [written]
      rw [sizeEq, Nat.mul_comm access.alignment per, Nat.mul_div_mul_right _ _ positive,
        Nat.div_div_eq_div_mul, ← bitsEq]
    rw [memoryBit_foldl (Nat.dvd_mul_left 8 _) (by omega) written data
      (fun i less => (isData i less).2.1) (bit value) (fun i less => (isData i less).2.2), whole,
      component]

theorem componentAt_eq_some {writeMask address at' i : Nat} :
    access.componentAt writeMask address at' = some i ↔
      i < access.numComponents ∧ writeMask.testBit i ∧ address + i * access.vecStride ≤ at' ∧
        at' < address + i * access.vecStride + access.bitSize / 8 := by
  have positive : 0 < access.bitSize / 8 := Nat.zero_lt_of_lt inScope.below
  have wide : access.bitSize / 8 ≤ access.vecStride := Nat.le_max_right _ _
  -- the distance of the components is no less than their size
  have unique {j k : Nat} (first : address + j * access.vecStride ≤ at')
      (before : at' < address + k * access.vecStride + access.bitSize / 8) : j ≤ k := by
    by_contra above
    have later := Nat.mul_le_mul_right access.vecStride (Nat.lt_of_not_le above)
    rw [Nat.succ_mul] at later
    omega
  rw [componentAt]
  constructor
  · intro found
    have holds := List.find?_some found
    rw [decide_eq_true_eq] at holds
    exact ⟨List.mem_range.mp (List.mem_of_find?_eq_some found), holds⟩
  · rintro ⟨inside, holds⟩
    cases found : (List.range access.numComponents).find? fun i =>
        writeMask.testBit i ∧ address + i * access.vecStride ≤ at' ∧
          at' < address + i * access.vecStride + access.bitSize / 8 with
    | none =>
        have absent := List.find?_eq_none.mp found i (List.mem_range.mpr inside)
        exact absurd (decide_eq_true holds) absent
    | some j =>
        have other := List.find?_some found
        rw [decide_eq_true_eq] at other
        have same : j = i :=
          Nat.le_antisymm (unique other.2.1 holds.2.2) (unique holds.2.1 other.2.2)
        rw [same]

/-- Where the components in the mask are as if they followed one another, the bits of the memory
after the store are those that the pieces leave. -/
theorem memoryBit_store {writeMask : Nat}
    (contiguous : access.explicitStride ≤ access.bitSize / 8 ∨
      ∀ i < access.numComponents, writeMask.testBit i → i = 0) (memory : Nat → BitVec 8)
    (address : Nat) {value : List (BitVec access.bitSize)} (i : Nat) :
    memoryBit (access.store writeMask memory address value) i =
      if 8 * address ≤ i ∧ i < 8 * address + access.numComponents * access.bitSize ∧
          writeMask.testBit ((i - 8 * address) / access.bitSize) then
        bit value (i - 8 * address)
      else memoryBit memory i := by
  have bitSizeEq := inScope.bitSize_eq
  have positive : 0 < access.bitSize := inScope.isSize.pos
  have bits (j : Nat) : j * access.bitSize = 8 * (j * (access.bitSize / 8)) := by
    rw [Nat.mul_left_comm, ← bitSizeEq]
  have place {j : Nat} (inside : j < access.numComponents) (written : writeMask.testBit j) :
      j * access.vecStride = j * (access.bitSize / 8) := by
    rcases contiguous with close | first
    · rw [vecStride, Nat.max_eq_right close]
    · rw [first j inside written, Nat.zero_mul, Nat.zero_mul]
  rw [memoryBit, store]
  cases found : access.componentAt writeMask address (i / 8) with
  | some j =>
      obtain ⟨inside, written, after, before⟩ := (componentAt_eq_some inScope).mp found
      rw [place inside written] at after before
      have ofJ := bits j
      have all := Nat.mul_le_mul_right access.bitSize inside
      rw [Nat.succ_mul] at all
      have quotient : (i - 8 * address) / access.bitSize = j := by
        apply Nat.div_eq_of_lt_le
        · omega
        · rw [Nat.succ_mul j]
          omega
      have offset : i - 8 * address = j * access.bitSize +
          (8 * (i / 8 - (address + j * (access.bitSize / 8))) + i % 8) := by omega
      dsimp only
      rw [if_pos ⟨by omega, by omega, by rwa [quotient]⟩, place inside written, offset,
        bit_of_component _ (by omega), BitVec.getLsbD_extractLsb',
        decide_eq_true (Nat.mod_lt _ (by decide)), Bool.true_and]
  | none =>
      rw [if_neg, memoryBit]
      rintro ⟨after, before, written⟩
      have ofQuotient := bits ((i - 8 * address) / access.bitSize)
      have whole := Nat.div_add_mod' (i - 8 * address) access.bitSize
      have part := Nat.mod_lt (i - 8 * address) positive
      have inside : (i - 8 * address) / access.bitSize < access.numComponents := by
        apply Nat.div_lt_of_lt_mul
        rw [Nat.mul_comm access.bitSize]
        omega
      have start := place inside written
      have written : access.componentAt writeMask address (i / 8) = some _ :=
        (componentAt_eq_some inScope).mpr ⟨inside, written, by omega, by omega⟩
      rw [found] at written
      cases written

/-- A component of a strided vector other than the first is not stored where the pieces are. -/
theorem store_ne {writeMask j : Nat} (strided : access.bitSize / 8 < access.explicitStride)
    (inside : j < access.numComponents) (written : writeMask.testBit j) (later : j ≠ 0) :
    ∃ value : List (BitVec access.bitSize), value.length = access.numComponents ∧
      ∃ i, memoryBit (access.store writeMask (fun _ => 0) 0 value) i ≠
        if i < access.numComponents * access.bitSize ∧
            writeMask.testBit (i / access.bitSize) then bit value i
        else false := by
  have bitSizeEq := inScope.bitSize_eq
  have positive : 0 < access.bitSize := inScope.isSize.pos
  have stride : access.vecStride = access.explicitStride := Nat.max_eq_left (Nat.le_of_lt strided)
  have far : j * (access.bitSize / 8 + 1) ≤ j * access.vecStride :=
    Nat.mul_le_mul_left j (stride ▸ strided)
  rw [Nat.mul_succ] at far
  let component : Nat → BitVec access.bitSize := fun k => if k = j then BitVec.allOnes _ else 0#_
  -- the last byte of the component is behind where the pieces have it
  let at' := j * access.vecStride + (access.bitSize / 8 - 1)
  refine ⟨(List.range access.numComponents).map component, by simp, 8 * at', ?_⟩
  have found : access.componentAt writeMask 0 at' = some j :=
    (componentAt_eq_some inScope).mpr ⟨inside, written, by omega, by omega⟩
  have stored : memoryBit (access.store writeMask (fun _ => 0) 0
      ((List.range access.numComponents).map component)) (8 * at') = true := by
    rw [memoryBit, Nat.mul_div_cancel_left _ (by decide), Nat.mul_mod_right, store, found]
    simp [inside, component]
    omega
  rw [stored]
  split
  next within =>
    rw [bit_map_range _ within.1]
    have other : 8 * at' / access.bitSize ≠ j := by
      rintro same
      have before := Nat.lt_mul_div_succ (8 * at') positive
      rw [same, bitSizeEq, Nat.mul_assoc, Nat.mul_succ] at before
      have swap := Nat.mul_comm j (access.bitSize / 8)
      omega
    simp [component, other]
  next => decide

end Store

def touches (i : Nat) : Bool :=
  match access.writeMask with
  | none => true
  | some writeMask => writeMask.testBit i

/-- The pieces are right where the components of the vector follow one another, or where only the
first one is accessed. -/
theorem split_exact_iff (inScope : access.InScope) :
    access.Exact ↔ access.explicitStride ≤ access.bitSize / 8 ∨
      ∀ i < access.numComponents, access.touches i → i = 0 := by
  rw [Exact]
  cases mask : access.writeMask with
  | none =>
      constructor
      · intro exact
        rcases Nat.lt_or_ge (access.bitSize / 8) access.explicitStride with strided | close
        · right
          intro i inside _
          by_contra later
          obtain ⟨memory, differs⟩ := load_ne inScope strided (by omega)
          obtain ⟨pieces, split, -⟩ := splitUnalignedLoad_eq inScope memory 0
          obtain ⟨pieces', split', -⟩ := exact memory 0
          rw [split, Option.some.injEq, Prod.mk.injEq] at split'
          exact differs split'.2.symm
        · exact Or.inl close
      · intro contiguous memory address
        obtain ⟨pieces, split, narrow⟩ := splitUnalignedLoad_eq inScope memory address
        rw [← load_eq (contiguous.imp_right fun first i inside => first i inside (by
          rw [touches, mask]))] at split
        exact ⟨pieces, split, narrow⟩
  | some writeMask =>
      have touched : access.touches = writeMask.testBit := by
        funext i
        rw [touches, mask]
      simp only [storeAlignment_eq inScope, touched]
      constructor
      · intro exact
        rcases Nat.lt_or_ge (access.bitSize / 8) access.explicitStride with strided | close
        · right
          intro i inside written
          by_contra later
          obtain ⟨value, length, k, differs⟩ := store_ne inScope strided inside written later
          obtain ⟨stores, split, -, bits⟩ := splitUnalignedStore_eq inScope writeMask 0 length
          obtain ⟨stores', split', -, final⟩ := exact (fun _ => 0) 0 value length
          rw [split, Option.some.injEq] at split'
          rw [← final, ← split', bits] at differs
          simp [memoryBit] at differs
        · exact Or.inl close
      · intro contiguous memory address value length
        obtain ⟨stores, split, narrow, bits⟩ :=
          splitUnalignedStore_eq inScope writeMask address length
        refine ⟨stores, split, narrow, eq_of_memoryBit fun i => ?_⟩
        rw [bits, memoryBit_store inScope contiguous]

/-- A column of a row-major matrix of two rows, of which only two bytes of alignment are known. -/
def columnLoad : DerefAccess where
  modeMayBe := true
  isConstant := false
  alignMul := 2
  alignOffset := 0
  isBoolean := false
  bitSize := 32
  explicitStride := 8
  numComponents := 2
  writeMask := none

theorem inScope_columnLoad : columnLoad.InScope where
  selected := by decide
  size := by decide
  notBoolean := rfl
  nonempty := by decide
  few := by decide
  aligned := by decide
  below := by decide

theorem split_exact_iff_columnLoad :
    columnLoad.Exact ↔ columnLoad.explicitStride ≤ columnLoad.bitSize / 8 ∨
      ∀ i < columnLoad.numComponents, columnLoad.touches i → i = 0 :=
  split_exact_iff columnLoad inScope_columnLoad

/-- The second component is taken from the bytes right after the first. -/
theorem not_exact_columnLoad : columnLoad.InScope ∧ ¬ columnLoad.Exact := by
  refine ⟨inScope_columnLoad, fun exact => ?_⟩
  obtain ⟨memory, differs⟩ := load_ne inScope_columnLoad (by decide) (by decide)
  obtain ⟨pieces, split, -⟩ := splitUnalignedLoad_eq inScope_columnLoad memory 0
  obtain ⟨pieces', split', -⟩ := exact memory 0
  rw [split, Option.some.injEq, Prod.mk.injEq] at split'
  exact differs split'.2.symm

end DerefAccess

end SplitUnaligned

end SpirvToDxil
