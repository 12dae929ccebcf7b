import SpirvToDxil.Nir.LowerMemAccessAnswers

/-!
# Stores in chunks
-/

namespace SpirvToDxil

namespace MemAccess

open Components ExtractBits

section Memory

variable {memory : Nat → BitVec 8} {offset : Nat}

theorem memoryBit_storeVector {w : Nat} (data : List (BitVec w)) (bytes : 8 ∣ w) (i : Nat) :
    memoryBit (storeVector memory offset data) i =
      if 8 * offset ≤ i ∧ i < 8 * offset + data.length * w then bit data (i - 8 * offset)
      else memoryBit memory i := by
  obtain ⟨size, rfl⟩ := bytes
  have place := Nat.div_add_mod i 8
  have part := Nat.mod_lt i (by decide : 0 < 8)
  have whole : data.length * (8 * size) = 8 * (data.length * size) := Nat.mul_left_comm ..
  have same : offset ≤ i / 8 ∧ i / 8 < offset + data.length * (8 * size / 8) ↔
      8 * offset ≤ i ∧ i < 8 * offset + data.length * (8 * size) := by
    rw [Nat.mul_div_cancel_left size (by decide), whole]
    omega
  unfold memoryBit storeVector
  dsimp only
  split
  next inside =>
    have positive : 0 < 8 := by decide
    have byte : i - 8 * offset = 8 * (i / 8 - offset) + i % 8 := by omega
    rw [if_pos (same.mp inside), Nat.mul_div_cancel_left size positive, bit, byte,
      ← Nat.div_div_eq_div_mul, Nat.mul_add_div positive, Nat.div_eq_of_lt part, Nat.add_zero,
      Nat.mod_mul, Nat.mul_add_mod, Nat.mul_add_div positive, Nat.div_eq_of_lt part,
      BitVec.getLsbD_extractLsb', decide_eq_true (Nat.mod_lt _ positive), Bool.true_and,
      Nat.mod_mod, Nat.add_zero, Nat.add_comm]
  next outside => rw [if_neg (fun inside => outside (same.mpr inside))]

theorem bit_map {w : Nat} (f : BitVec w → BitVec w) (data : List (BitVec w)) {i : Nat}
    (less : i < data.length * w) :
    bit (data.map f) i = (f (data.getD (i / w) 0#w)).getLsbD (i % w) := by
  have inside : i / w < data.length := Nat.div_lt_of_lt_mul (by rwa [Nat.mul_comm])
  simp [bit, List.getD_eq_getElem?_getD, inside]

theorem memoryBit_atomic (op : AtomicOp) (data : BitVec 32) (i : Nat) :
    memoryBit (Emitted.exec memory (.atomic op offset data)) i =
      if 8 * offset ≤ i ∧ i < 8 * offset + 32 then
        match op with
        | .iand => memoryBit memory i && data.getLsbD (i - 8 * offset)
        | .ior => memoryBit memory i || data.getLsbD (i - 8 * offset)
      else memoryBit memory i := by
  rw [Emitted.exec, memoryBit_storeVector _ (by decide), List.length_map, length_loadVector,
    Nat.one_mul]
  split
  next inside =>
    have less : i - 8 * offset < 32 := by omega
    have word := bit_loadVector memory offset (by decide) (by omega : i - 8 * offset < 1 * 32)
    rw [bit, Nat.div_eq_of_lt less, Nat.mod_eq_of_lt less,
      Nat.add_sub_cancel' inside.1] at word
    rw [bit_map _ _ (by rw [length_loadVector]; omega), Nat.div_eq_of_lt less,
      Nat.mod_eq_of_lt less]
    cases op with
    | iand => rw [AtomicOp.eval, BitVec.getLsbD_and, word]
    | ior => rw [AtomicOp.eval, BitVec.getLsbD_or, word]
  next => rfl

end Memory

namespace ByteSet

theorem getLsbD_range {first count : Nat} (few : first + count ≤ 128) (i : Nat) :
    (range first count).getLsbD i = decide (first ≤ i ∧ i < first + count) := by
  rw [range, BitVec.getLsbD_shiftLeft, BitVec.getLsbD_ushiftRight, BitVec.getLsbD_allOnes,
    Bool.eq_iff_iff]
  simp only [Bool.and_eq_true, decide_eq_true_eq, Bool.not_eq_true', decide_eq_false_iff_not]
  omega

theorem getLsbD_clearCount {first count : Nat} (set : ByteSet) (few : first + count ≤ 128)
    (i : Nat) :
    (set.clearCount first count).getLsbD i =
      (set.getLsbD i && !decide (first ≤ i ∧ i < first + count)) := by
  rw [clearCount, BitVec.getLsbD_and, BitVec.getLsbD_not, getLsbD_range few]
  rcases Nat.lt_or_ge i 128 with inside | outside
  · rw [decide_eq_true inside, Bool.true_and]
  · rw [BitVec.getLsbD_of_ge set _ outside, Bool.false_and, Bool.false_and]

theorem ffs_eq_none {set : ByteSet} (none : set.ffs = none) (i : Nat) : set.getLsbD i = false := by
  rcases Nat.lt_or_ge i 128 with inside | outside
  · have isFalse := List.find?_eq_none.mp none i (List.mem_range.mpr inside)
    simpa using isFalse
  · exact BitVec.getLsbD_of_ge set _ outside

theorem ffs_eq_some {set : ByteSet} {first : Nat} (some : set.ffs = some first) :
    set.getLsbD first ∧ ∀ i < first, set.getLsbD i = false := by
  obtain ⟨member, _, least⟩ := List.find?_range_eq_some.mp some
  exact ⟨member, fun i less => by simpa using least i less⟩

end ByteSet

namespace Store

variable {store : Store}

theorem chunkEnd_spec (mask : ByteSet) (finish left : Nat) :
    let finish' := chunkEnd mask finish left
    finish ≤ finish' ∧ finish' ≤ finish + left ∧
      ∀ i, finish ≤ i → i < finish' → mask.getLsbD i := by
  induction left generalizing finish with
  | zero =>
      refine ⟨Nat.le_refl _, Nat.le_refl _, ?_⟩
      intro i after before
      exact absurd before (Nat.not_lt.mpr after)
  | succ left inductionHypothesis =>
      rw [chunkEnd]
      split
      next member =>
        obtain ⟨after, before, all⟩ := inductionHypothesis (finish + 1)
        refine ⟨by omega, by omega, ?_⟩
        intro i le less
        rcases Nat.eq_or_lt_of_le le with rfl | later
        · exact member
        · exact all i later less
      next => exact ⟨Nat.le_refl _, by omega, fun i after before => by omega⟩

theorem byteSize_cases (is : IsBitSize store.bitSize) :
    store.bitSize = 8 * store.byteSize ∧ (store.byteSize = 1 ∨ store.byteSize = 2 ∨
      store.byteSize = 4 ∨ store.byteSize = 8) := by
  unfold byteSize
  rcases is with size | size | size | size <;> rw [size] <;> decide

/-- The bytes of the components that are written. -/
theorem byteMask_spec (is : IsBitSize store.bitSize) (left : Nat) {mask : ByteSet} {first : Nat}
    (few : first + left ≤ 16) :
    ∃ mask', store.byteMask mask first left = some mask' ∧
      ∀ i, mask'.getLsbD i = (mask.getLsbD i ||
        (decide (first ≤ i / store.byteSize ∧ i / store.byteSize < first + left) &&
          store.writemask.testBit (i / store.byteSize))) := by
  obtain ⟨_, size⟩ := byteSize_cases is
  induction left generalizing mask first with
  | zero =>
      refine ⟨mask, rfl, ?_⟩
      intro i
      have none : ¬(first ≤ i / store.byteSize ∧ i / store.byteSize < first + 0) := by omega
      rw [decide_eq_false none, Bool.false_and, Bool.or_false]
  | succ left inductionHypothesis =>
      have same (i : Nat) (elsewhere : i / store.byteSize ≠ first) :
          first + 1 ≤ i / store.byteSize ∧ i / store.byteSize < first + 1 + left ↔
            first ≤ i / store.byteSize ∧ i / store.byteSize < first + (left + 1) := by
        omega
      rw [byteMask]
      split
      next written =>
        have inWord : first * store.byteSize / 32 = ((first + 1) * store.byteSize - 1) / 32 := by
          rcases size with size | size | size | size <;> rw [size] <;> omega
        have count : (first + 1) * store.byteSize - 1 + 1 - first * store.byteSize =
            store.byteSize := by
          rw [Nat.succ_mul]
          omega
        have room : first * store.byteSize + store.byteSize ≤ 128 := by
          rcases size with size | size | size | size <;> rw [size] <;> omega
        have component (i : Nat) : first * store.byteSize ≤ i ∧
            i < first * store.byteSize + store.byteSize ↔ i / store.byteSize = first := by
          rw [Nat.div_eq_iff (by omega)]
          omega
        obtain ⟨mask', isMask, bits⟩ := @inductionHypothesis
          (mask ||| ByteSet.range (first * store.byteSize) store.byteSize) (first + 1) (by omega)
        rw [ByteSet.setRangeInsideWord, if_pos inWord, count, Option.bind_eq_bind,
          Option.bind_some]
        refine ⟨mask', isMask, ?_⟩
        intro i
        rw [bits i, BitVec.getLsbD_or, ByteSet.getLsbD_range room, Bool.eq_iff_iff]
        simp only [Bool.or_eq_true, Bool.and_eq_true, decide_eq_true_eq, component]
        by_cases here : i / store.byteSize = first
        · simp [here, written]
        · rw [or_iff_left here, same i here]
      next skipped =>
        obtain ⟨mask', isMask, bits⟩ := @inductionHypothesis mask (first + 1) (by omega)
        refine ⟨mask', isMask, ?_⟩
        intro i
        rw [bits i, Bool.eq_iff_iff]
        simp only [Bool.or_eq_true, Bool.and_eq_true, decide_eq_true_eq]
        by_cases here : i / store.byteSize = first
        · simp [here, skipped]
        · rw [same i here]

/-- What the pass may assume of a store, of 16 components at most. -/
structure Consistent (store : Store) (value : List (BitVec store.bitSize)) (offset : Nat) :
    Prop where
  some : 0 < store.numComponents
  few : store.numComponents ≤ 16
  isBitSize : IsBitSize store.bitSize
  power : ∃ k < 32, store.alignMul = 2 ^ k
  less : store.alignOffset < store.alignMul
  offset_mod : offset % store.alignMul = store.alignOffset
  length_eq : value.length = store.numComponents
  writemask_lt : store.writemask < 2 ^ store.numComponents

section Chunk

variable {value : List (BitVec store.bitSize)} {offset chunkStart : Nat}

structure Chunk.Correct (chunk : Chunk) (value : List (BitVec store.bitSize))
    (offset chunkStart maxChunkBytes : Nat) : Prop where
  some : 0 < chunk.chunkBytes
  few : chunk.chunkBytes ≤ maxChunkBytes
  shiftCounts : ∀ count ∈ chunk.shiftCounts, count < 32
  writes : ∀ memory i, memoryBit (chunk.emitted.foldl Emitted.exec memory) i =
    if 8 * (offset + chunkStart) ≤ i ∧ i < 8 * (offset + chunkStart + chunk.chunkBytes) then
      bit value (i - 8 * offset)
    else memoryBit memory i

theorem bits_eq (consistent : store.Consistent value offset) :
    store.bitSize * value.length = 8 * store.bytesWritten := by
  obtain ⟨size, _⟩ := byteSize_cases consistent.isBitSize
  rw [bytesWritten, consistent.length_eq, size, Nat.mul_assoc, Nat.mul_comm store.byteSize]

theorem bytesWritten_le (consistent : store.Consistent value offset) :
    store.bytesWritten ≤ 128 := by
  have few := consistent.few
  unfold bytesWritten
  rcases (byteSize_cases consistent.isBitSize).2 with size | size | size | size <;> rw [size] <;>
    omega

theorem exists_extractBits (consistent : store.Consistent value offset) {w count : Nat}
    (isSize : IsSize w) {size : Nat} (whole : count * w = 8 * size)
    (room : chunkStart + size ≤ store.bytesWritten) :
    ∃ data, extractBits [⟨store.bitSize, value⟩] (chunkStart * 8) count w = some data ∧
      data.length = count ∧
      ∀ i < 8 * size, bit data i = bit value (8 * chunkStart + i) := by
  have all := bits_eq consistent
  have few := bytesWritten_le consistent
  have short : store.bitSize ≤ 128 := by
    rcases consistent.isBitSize with size | size | size | size <;> omega
  obtain ⟨data, isData, length, bits⟩ := @extractBits_eq [⟨store.bitSize, value⟩]
    (chunkStart * 8) count w isSize (by simpa using consistent.isBitSize.isSize)
    (by simpa using short) (Nat.dvd_mul_left 8 chunkStart)
    (by rw [blobSize, blobSize]; dsimp only; omega) (by omega)
  refine ⟨data, isData, length, ?_⟩
  intro i less
  rw [bits i (by omega), blobBit, if_pos (by dsimp only; omega), Nat.mul_comm]

theorem ishl_zero {w : Nat} (x : BitVec w) : ishl x 0 = x := by
  simp [ishl, shiftCount]

theorem isSize_mul_eight {size : Nat} (is : size = 1 ∨ size = 2 ∨ size = 4) :
    IsSize (size * 8) := by
  rcases is with rfl | rfl | rfl
  · exact ⟨3, by decide, by decide⟩
  · exact ⟨4, by decide, by decide⟩
  · exact ⟨5, by decide, by decide⟩

/-- Three bytes and a byte of zeros make a word. -/
theorem exists_packBits (consistent : store.Consistent value offset)
    (room : chunkStart + 3 ≤ store.bytesWritten) :
    ∃ data word, extractBits [⟨store.bitSize, value⟩] (chunkStart * 8) 3 8 = some data ∧
      packBits (data ++ [0#8]) 32 = some word ∧
      ∀ i < 32, word.getLsbD i = (decide (i < 8 * 3) && bit value (8 * chunkStart + i)) := by
  obtain ⟨data, isData, length, bits⟩ :=
    exists_extractBits consistent (isSize_mul_eight (.inl rfl)) (by rfl : 3 * (1 * 8) = 8 * 3) room
  obtain ⟨word, isWord, wordBits⟩ := @packBits_eq 8 32 (data ++ [0#8]) (by simp [length])
  refine ⟨data, word, isData, isWord, ?_⟩
  intro i less
  rw [wordBits i less, bit_append, length]
  split
  next inside => rw [bits i (by omega), decide_eq_true (by omega), Bool.true_and]
  next past =>
    rw [bit_cons, if_pos (by omega), BitVec.getLsbD_zero, decide_eq_false (by omega),
      Bool.false_and]

theorem exists_setWidth (consistent : store.Consistent value offset) {size : Nat}
    (is : size = 1 ∨ size = 2) (room : chunkStart + size ≤ store.bytesWritten) :
    ∃ data component, extractBits [⟨store.bitSize, value⟩] (chunkStart * 8) 1 (size * 8) =
        some data ∧
      data[0]? = some component ∧
      ∀ i < 32, (component.setWidth 32).getLsbD i =
        (decide (i < 8 * size) && bit value (8 * chunkStart + i)) := by
  obtain ⟨data, isData, length, bits⟩ := exists_extractBits consistent
    (isSize_mul_eight (is.imp_right .inl)) (by omega : 1 * (size * 8) = 8 * size) room
  obtain ⟨component, rfl⟩ := List.length_eq_one_iff.mp length
  refine ⟨[component], component, isData, rfl, ?_⟩
  intro i less
  rw [BitVec.getLsbD_setWidth, decide_eq_true less, Bool.true_and]
  rcases Nat.lt_or_ge i (8 * size) with inside | past
  · have same := bits i inside
    rw [bit_cons, if_pos (by omega)] at same
    rw [same, decide_eq_true inside, Bool.true_and]
  · rw [BitVec.getLsbD_of_ge _ _ (by omega), decide_eq_false (by omega), Bool.false_and]

/-- A word with the bytes of a chunk in place of its own. -/
theorem memoryBit_atomics {memory : Nat → BitVec 8} {address pad size : Nat}
    (data : BitVec 32) (padLt : pad < 4) (room : pad + size ≤ 4)
    (bits : ∀ i < 32, data.getLsbD i = (decide (i < 8 * size) && bit value (8 * chunkStart + i)))
    (i : Nat) :
    memoryBit
        (Emitted.exec
          (Emitted.exec memory
            (.atomic .iand address (~~~ishl (BitVec.ofNat 32 (1 <<< (size * 8) - 1)) (pad * 8))))
          (.atomic .ior address (ishl data (pad * 8)))) i =
      if 8 * (address + pad) ≤ i ∧ i < 8 * (address + pad + size) then
        bit value (8 * chunkStart + (i - 8 * (address + pad)))
      else memoryBit memory i := by
  have count : shiftCount 32 (pad * 8) = pad * 8 :=
    @shiftCount_two_pow 5 (pad * 8) (by omega)
  have mask (j : Nat) (less : j < 32) :
      (BitVec.ofNat 32 (1 <<< (size * 8) - 1)).getLsbD j = decide (j < 8 * size) := by
    rw [BitVec.getLsbD_ofNat, decide_eq_true less, Bool.true_and, Nat.shiftLeft_eq, Nat.one_mul,
      Nat.testBit_two_pow_sub_one, Nat.mul_comm]
  rw [memoryBit_atomic, memoryBit_atomic]
  dsimp only
  split
  next inWord =>
    have less : i - 8 * address < 32 := by omega
    rw [ishl, ishl, count, BitVec.getLsbD_not, BitVec.getLsbD_shiftLeft, BitVec.getLsbD_shiftLeft,
      decide_eq_true less, Bool.true_and, Bool.true_and]
    rcases Nat.lt_or_ge (i - 8 * address) (pad * 8) with before | after
    · rw [decide_eq_true before, if_neg (by omega)]
      simp
    · have shifted : i - 8 * address - pad * 8 = i - 8 * (address + pad) := by omega
      rw [decide_eq_false (Nat.not_lt.mpr after), shifted, mask _ (by omega), bits _ (by omega)]
      by_cases inside : i - 8 * (address + pad) < 8 * size
      · rw [if_pos (by omega), decide_eq_true inside]
        simp
      · rw [if_neg (by omega), decide_eq_false inside]
        simp
  next outside =>
    rw [if_neg (by omega)]

/-- What a store's atomics do to the memory. -/
theorem writes_atomics {pad size : Nat} (data : BitVec 32) (padLe : pad ≤ offset + chunkStart)
    (padLt : pad < 4) (room : pad + size ≤ 4)
    (bits : ∀ i < 32, data.getLsbD i = (decide (i < 8 * size) && bit value (8 * chunkStart + i)))
    (memory : Nat → BitVec 8) (i : Nat) :
    memoryBit (List.foldl Emitted.exec memory
        [.atomic .iand (offset + chunkStart - pad)
          (~~~ishl (BitVec.ofNat 32 (1 <<< (size * 8) - 1)) (pad * 8)),
          .atomic .ior (offset + chunkStart - pad) (ishl data (pad * 8))]) i =
      if 8 * (offset + chunkStart) ≤ i ∧ i < 8 * (offset + chunkStart + size) then
        bit value (i - 8 * offset)
      else memoryBit memory i := by
  rw [List.foldl_cons, List.foldl_cons, List.foldl_nil, memoryBit_atomics data padLt room bits,
    Nat.sub_add_cancel padLe]
  split
  next inside =>
    congr 1
    omega
  next => rfl

/-- Two atomics write the bytes of a chunk that lies in a word. -/
theorem lowerUnaligned_spec (consistent : store.Consistent value offset) {maxChunkBytes j : Nat}
    (positive : 0 < maxChunkBytes) (room : chunkStart + maxChunkBytes ≤ store.bytesWritten)
    (dvd : 2 ^ j ∣ offset + chunkStart) (small : 4 ≤ 2 ^ j → maxChunkBytes < 4) :
    ∃ chunk, store.lowerUnaligned value offset chunkStart maxChunkBytes (2 ^ j) = some chunk ∧
      chunk.Correct value offset chunkStart maxChunkBytes := by
  have masked : (offset + chunkStart) &&& (4 - 1) = (offset + chunkStart) % 4 :=
    Nat.and_two_pow_sub_one_eq_mod _ 2
  have aligned (whole : ¬2 ^ j < 4) : (offset + chunkStart) % 4 = 0 :=
    Nat.mod_eq_zero_of_dvd
      (Nat.dvd_trans (two_pow_dvd_of_le (j := 2) (Nat.not_lt.mp whole)) dvd)
  have part (less : 2 ^ j < 4) : (offset + chunkStart) % 4 + 2 ^ j ≤ 4 :=
    add_le_of_mod (two_pow_dvd_of_le (k := 2) (Nat.le_of_lt less)) dvd (by decide)
  have one := Nat.two_pow_pos j
  have isPad : (if 2 ^ j < 4 then (offset + chunkStart) &&& (4 - 1) else 0) =
      (offset + chunkStart) % 4 := by
    split
    next => exact masked
    next whole => exact (aligned whole).symm
  have isShifted (word : BitVec 32) :
      (if decide (2 ^ j < 4) then ishl word ((offset + chunkStart) % 4 * 8) else word) =
        ishl word ((offset + chunkStart) % 4 * 8) := by
    split
    next => rfl
    next whole => rw [aligned (by simpa using whole), Nat.zero_mul, ishl_zero]
  have padLe := Nat.mod_le (offset + chunkStart) 4
  have padLt := Nat.mod_lt (offset + chunkStart) (by decide : 0 < 4)
  unfold lowerUnaligned
  dsimp only
  rw [isPad]
  simp only [isShifted, andNot, masked]
  obtain ⟨size, isSize⟩ :
      ∃ size, min maxChunkBytes (4 - if 2 ^ j < 4 then 4 - 2 ^ j else 0) = size := ⟨_, rfl⟩
  have sizes : (offset + chunkStart) % 4 + size ≤ 4 ∧ 0 < size ∧ size ≤ 3 ∧
      size ≤ maxChunkBytes := by
    split at isSize
    next less =>
      have := part less
      omega
    next whole =>
      have := aligned whole
      have := small (Nat.not_lt.mp whole)
      omega
  rw [isSize]
  generalize (offset + chunkStart) % 4 = pad at *
  have shifts : ∀ count ∈ if decide (2 ^ j < 4) then [size * 8, pad * 8] else [size * 8],
      count < 32 := by
    intro count member
    split at member <;> simp only [List.mem_cons, List.not_mem_nil, or_false] at member <;> omega
  have correct (word : BitVec 32)
      (bits : ∀ i < 32, word.getLsbD i =
        (decide (i < 8 * size) && bit value (8 * chunkStart + i))) :
      Chunk.Correct
        { emitted := [.atomic .iand (offset + chunkStart - pad)
            (~~~ishl (BitVec.ofNat 32 (1 <<< (size * 8) - 1)) (pad * 8)),
            .atomic .ior (offset + chunkStart - pad) (ishl word (pad * 8))]
          shiftCounts := if decide (2 ^ j < 4) then [size * 8, pad * 8] else [size * 8]
          chunkBytes := size } value offset chunkStart maxChunkBytes :=
    { some := sizes.2.1
      few := sizes.2.2.2
      shiftCounts := shifts
      writes := writes_atomics word padLe padLt sizes.1 bits }
  by_cases three : size = 3
  · subst three
    obtain ⟨data, word, isData, isWord, bits⟩ := @exists_packBits store value offset chunkStart
      consistent (by omega)
    refine ⟨_, ?_, correct word bits⟩
    rw [if_pos rfl, isData]
    simp only [Option.bind_eq_bind, Option.bind_some, isWord]
  · obtain ⟨data, component, isData, isComponent, bits⟩ :=
      @exists_setWidth store value offset chunkStart consistent size (by omega) (by omega)
    refine ⟨_, ?_, correct _ bits⟩
    rw [if_neg (by omega), isData]
    simp only [Option.bind_eq_bind, Option.bind_some, isComponent]

theorem lowerChunk_spec (lowerInt16 : Bool) (consistent : store.Consistent value offset)
    {finish : Nat} (less : chunkStart < finish) (room : finish ≤ store.bytesWritten) :
    ∃ chunk, store.lowerChunk lowerInt16 value offset chunkStart finish = some chunk ∧
      chunk.Correct value offset chunkStart (finish - chunkStart) := by
  obtain ⟨k, _, power⟩ := consistent.power
  have chunkLess : (store.alignOffset + chunkStart) % store.alignMul < store.alignMul :=
    Nat.mod_lt _ (power ▸ Nat.two_pow_pos k)
  have address : (offset + chunkStart) % store.alignMul =
      (store.alignOffset + chunkStart) % store.alignMul := by
    rw [← consistent.offset_mod, Nat.mod_add_mod]
  obtain ⟨j, le, combined, dvd⟩ := combinedAlign_spec power chunkLess
  rw [← address, power] at dvd
  have addressDvd : 2 ^ j ∣ offset + chunkStart :=
    (Nat.dvd_mod_iff (Nat.pow_dvd_pow 2 le)).mp dvd
  have serves := @lowerMemAccessBitSizesCb_serves lowerInt16 .storeSsbo (finish - chunkStart) _
    store.alignMul _ consistent.isBitSize (by omega) ⟨j, combined⟩
  have fits := @lowerMemAccessBitSizesCb_store lowerInt16 (finish - chunkStart) _
    store.alignMul ((store.alignOffset + chunkStart) % store.alignMul) consistent.isBitSize
  unfold lowerChunk requested
  dsimp only at fits ⊢
  rw [if_neg (not_not.mpr serves.valid)]
  rw [combined] at fits serves ⊢
  generalize lowerMemAccessBitSizesCb _ _ _ _ _ _ = requested at *
  obtain ⟨numComponents, bitSize, align⟩ := requested
  obtain ⟨bitSize_eq, align_eq, _, _, numComponents_pos, _⟩ := serves
  dsimp only at *
  subst bitSize_eq
  have bytes : 8 * align / 8 = align := Nat.mul_div_cancel_left align (by decide)
  have one := Nat.le_mul_of_pos_left align numComponents_pos
  rw [bytes] at fits ⊢
  split
  next misfit =>
    have four := fits misfit
    rw [if_pos four]
    apply lowerUnaligned_spec consistent (by omega) (by omega) addressDvd
    intro aligned
    omega
  next fit =>
    obtain ⟨packed, isPacked, length, bits⟩ := @exists_extractBits store value offset chunkStart
      consistent (8 * align) numComponents (isSize_eight_mul align_eq) (numComponents * align)
      (Nat.mul_left_comm ..) (by omega)
    refine ⟨_, by rw [isPacked]; rfl, ?_⟩
    constructor
    · dsimp only
      omega
    · dsimp only
      omega
    · simp
    · intro memory i
      have whole : numComponents * (8 * align) = 8 * (numComponents * align) :=
        Nat.mul_left_comm ..
      dsimp only
      rw [List.foldl_cons, List.foldl_nil, Emitted.exec,
        memoryBit_storeVector packed (Nat.dvd_mul_right 8 align), length, whole]
      dsimp only
      split
      next inside =>
        rw [if_pos (by omega), bits _ (by omega)]
        congr 1
        omega
      next outside => rw [if_neg (by omega)]

end Chunk

section Loop

variable {value : List (BitVec store.bitSize)} {offset : Nat}

structure Lowering.Correct (emitted : List Emitted) (shiftCounts : List Nat)
    (value : List (BitVec store.bitSize)) (offset : Nat) (mask : ByteSet) : Prop where
  shiftCounts : ∀ count ∈ shiftCounts, count < 32
  writes : ∀ memory i, memoryBit (emitted.foldl Emitted.exec memory) i =
    if 8 * offset ≤ i ∧ mask.getLsbD ((i - 8 * offset) / 8) then bit value (i - 8 * offset)
    else memoryBit memory i

theorem Lowering.correct_nil {mask : ByteSet} (none : ∀ i, mask.getLsbD i = false) :
    Lowering.Correct [] [] value offset mask := by
  refine ⟨by simp, ?_⟩
  intro memory i
  rw [none, List.foldl_nil, if_neg (by simp)]

/-- A chunk and the rest of the set. -/
theorem Lowering.Correct.cons {chunk : Chunk} {mask : ByteSet} {chunkStart finish : Nat}
    {emitted : List Emitted} {shiftCounts : List Nat}
    (correct : chunk.Correct value offset chunkStart (finish - chunkStart))
    (all : ∀ i, chunkStart ≤ i → i < finish → mask.getLsbD i) (few : finish ≤ 128)
    (less : chunkStart < finish)
    (rest : Lowering.Correct emitted shiftCounts value offset
      (mask.clearCount chunkStart chunk.chunkBytes)) :
    Lowering.Correct (chunk.emitted ++ emitted) (chunk.shiftCounts ++ shiftCounts) value offset
      mask := by
  have size := correct.few
  constructor
  · intro count member
    exact (List.mem_append.mp member).elim (correct.shiftCounts count) (rest.shiftCounts count)
  · intro memory i
    have byte := Nat.div_add_mod (i - 8 * offset) 8
    have part := Nat.mod_lt (i - 8 * offset) (by decide : 0 < 8)
    rw [List.foldl_append, rest.writes, correct.writes,
      ByteSet.getLsbD_clearCount mask (by omega)]
    by_cases inChunk : 8 * (offset + chunkStart) ≤ i ∧
        i < 8 * (offset + chunkStart + chunk.chunkBytes)
    · have member := all ((i - 8 * offset) / 8) (by omega) (by omega)
      rw [if_pos inChunk, ite_self, if_pos ⟨by omega, member⟩]
    · rw [if_neg inChunk]
      rcases Nat.lt_or_ge i (8 * offset) with before | after
      · rw [if_neg (by omega), if_neg (by omega)]
      · have kept : ¬(chunkStart ≤ (i - 8 * offset) / 8 ∧
            (i - 8 * offset) / 8 < chunkStart + chunk.chunkBytes) := by
          omega
        rw [decide_eq_false kept, Bool.not_false, Bool.and_true]

theorem lowerChunks_spec (lowerInt16 : Bool) (consistent : store.Consistent value offset)
    (rounds : Nat) {mask : ByteSet} {first : Nat} (done : Lowering)
    (none : ∀ i < first, mask.getLsbD i = false)
    (inside : ∀ i, mask.getLsbD i → i < store.bytesWritten)
    (enough : store.bytesWritten ≤ first + rounds) :
    ∃ emitted shiftCounts, store.lowerChunks lowerInt16 value offset mask done rounds =
        some ⟨done.emitted ++ emitted, done.shiftCounts ++ shiftCounts⟩ ∧
      Lowering.Correct emitted shiftCounts value offset mask := by
  have total := bytesWritten_le consistent
  induction rounds generalizing mask first done with
  | zero =>
      have empty (i : Nat) : mask.getLsbD i = false := by
        by_contra member
        have := inside i (by simpa using member)
        exact member (none i (by omega))
      have isNone : mask.ffs = .none := by
        cases next : mask.ffs with
        | none => rfl
        | some chunkStart => exact absurd (ByteSet.ffs_eq_some next).1 (by simp [empty])
      refine ⟨[], [], ?_, Lowering.correct_nil empty⟩
      rw [lowerChunks, isNone, List.append_nil, List.append_nil]
      rfl
  | succ rounds inductionHypothesis =>
      rw [lowerChunks]
      cases next : mask.ffs with
      | none =>
          refine ⟨[], [], ?_, Lowering.correct_nil (ByteSet.ffs_eq_none next)⟩
          rw [List.append_nil, List.append_nil]
      | some chunkStart =>
          obtain ⟨member, least⟩ := ByteSet.ffs_eq_some next
          have startLess := inside chunkStart member
          have firstLe : first ≤ chunkStart := by
            by_contra before
            rw [none chunkStart (Nat.not_le.mp before)] at member
            exact Bool.false_ne_true member
          obtain ⟨finishLe, finishLt, later⟩ := chunkEnd_spec mask (chunkStart + 1)
            (store.bytesWritten - (chunkStart + 1))
          dsimp only
          generalize chunkEnd mask _ _ = finish at *
          have all (i : Nat) (after : chunkStart ≤ i) (before : i < finish) : mask.getLsbD i := by
            rcases Nat.eq_or_lt_of_le after with rfl | after
            · exact member
            · exact later i after before
          obtain ⟨chunk, isChunk, correct⟩ := @lowerChunk_spec store value offset chunkStart
            lowerInt16 consistent finish (by omega) (by omega)
          have some := correct.some
          have few := correct.few
          have cleared (i : Nat) := @ByteSet.getLsbD_clearCount chunkStart chunk.chunkBytes mask
            (by omega) i
          obtain ⟨emitted, shiftCounts, isLowering, rest⟩ := @inductionHypothesis
            (mask.clearCount chunkStart chunk.chunkBytes) (chunkStart + chunk.chunkBytes)
            ⟨done.emitted ++ chunk.emitted, done.shiftCounts ++ chunk.shiftCounts⟩
            (by
              intro i less
              rw [cleared]
              rcases Nat.lt_or_ge i chunkStart with before | after
              · rw [least i before, Bool.false_and]
              · rw [decide_eq_true ⟨after, less⟩, Bool.not_true, Bool.and_false])
            (by
              intro i member
              rw [cleared, Bool.and_eq_true] at member
              exact inside i member.1)
            (by omega)
          refine ⟨chunk.emitted ++ emitted, chunk.shiftCounts ++ shiftCounts, ?_,
            Lowering.Correct.cons correct all (by omega) (by omega) rest⟩
          rw [isChunk, Option.bind_eq_bind, Option.bind_some, isLowering, List.append_assoc,
            List.append_assoc]

theorem testBit_writemask_lt (consistent : store.Consistent value offset) {component : Nat}
    (enabled : store.writemask.testBit component) : component < store.numComponents := by
  by_contra outside
  have small : store.writemask < 2 ^ component :=
    Nat.lt_of_lt_of_le consistent.writemask_lt
      (Nat.pow_le_pow_right Nat.zero_lt_two (Nat.not_lt.mp outside))
  rw [Nat.testBit_lt_two_pow small] at enabled
  exact Bool.false_ne_true enabled

theorem eq_of_bits (consistent : store.Consistent value offset) {memory memory' : Nat → BitVec 8}
    (bits : ∀ i, memoryBit memory' i =
      if 8 * offset ≤ i ∧ store.writemask.testBit ((i - 8 * offset) / 8 / store.byteSize) then
        bit value (i - 8 * offset)
      else memoryBit memory i) (address : Nat) :
    memory' address =
      if offset ≤ address ∧ store.writemask.testBit ((address - offset) / store.byteSize) then
        storeVector memory offset value address
      else memory address := by
  have size := (byteSize_cases consistent.isBitSize).1
  apply BitVec.eq_of_getLsbD_eq
  intro j less
  have byte : (8 * address + j - 8 * offset) / 8 = address - offset := by omega
  rw [← memoryBit_eq memory' address less, bits, byte]
  by_cases enabled :
    offset ≤ address ∧ store.writemask.testBit ((address - offset) / store.byteSize)
  · have inside := testBit_writemask_lt consistent enabled.2
    have positive : 0 < store.byteSize := by
      have := (byteSize_cases consistent.isBitSize).2
      omega
    rw [Nat.div_lt_iff_lt_mul positive] at inside
    have whole : store.numComponents * (8 * store.byteSize) =
        8 * (store.numComponents * store.byteSize) := Nat.mul_left_comm ..
    rw [if_pos ⟨by omega, enabled.2⟩, if_pos enabled, ← memoryBit_eq _ address less,
      memoryBit_storeVector value (Dvd.intro _ size.symm), consistent.length_eq, if_pos]
    rw [size, whole]
    omega
  · rw [if_neg enabled, ← memoryBit_eq memory address less, if_neg]
    rintro ⟨after, bit⟩
    exact enabled ⟨by omega, bit⟩

/-- The lowered store writes the bytes of the components that are enabled, and no others, and its
shifts are by less than the size. -/
theorem lowerMemStore_writes (lowerInt16 : Bool) (store : Store)
    (value : List (BitVec store.bitSize)) (offset : Nat)
    (consistent : store.Consistent value offset) :
    ∃ lowering, store.lowerMemStore lowerInt16 value offset = some lowering ∧
      (∀ memory address, lowering.emitted.foldl Emitted.exec memory address =
        if offset ≤ address ∧ store.writemask.testBit ((address - offset) / store.byteSize) then
          storeVector memory offset value address
        else memory address) ∧
      ∀ count ∈ lowering.shiftCounts, count < 32 := by
  obtain ⟨k, _, power⟩ := consistent.power
  obtain ⟨j, _, combined, _⟩ := combinedAlign_spec power consistent.less
  have total := bytesWritten_le consistent
  have positive : 0 < store.byteSize := by
    have := (byteSize_cases consistent.isBitSize).2
    omega
  have some : 0 < store.bytesWritten := Nat.mul_pos consistent.some positive
  have serves : Serves (unit lowerInt16 .storeSsbo store.bitSize)
      (store.requested lowerInt16 store.bytesWritten store.alignOffset)
      (combinedAlign store.alignMul store.alignOffset) :=
    lowerMemAccessBitSizesCb_serves lowerInt16 .storeSsbo consistent.isBitSize some ⟨j, combined⟩
  have isPower : isPowerOfTwoNonzero store.alignMul := power ▸ isPowerOfTwoNonzero_two_pow k
  unfold lowerMemStore
  dsimp only
  rw [if_neg (Nat.not_le.mpr consistent.writemask_lt),
    if_neg (not_or.mpr ⟨not_not.mpr serves.valid, not_not.mpr isPower⟩)]
  split
  next asIs =>
    refine ⟨_, rfl, ?_, by simp⟩
    intro memory address
    dsimp only
    rw [List.foldl_cons, List.foldl_nil, Emitted.exec]
    split
    next => rfl
    next disabled =>
      rw [asIs.2.2.2, Nat.testBit_two_pow_sub_one, decide_eq_true_eq,
        Nat.div_lt_iff_lt_mul positive, ← consistent.length_eq] at disabled
      apply if_neg
      rintro ⟨after, before⟩
      have start : offset ≤ address := after
      have inside : address < offset + value.length * store.byteSize := before
      exact disabled ⟨start, by omega⟩
  next =>
    obtain ⟨mask, isMask, members⟩ := @byteMask_spec store consistent.isBitSize
      store.numComponents 0#128 0 (by have := consistent.few; omega)
    have member (i : Nat) : mask.getLsbD i = store.writemask.testBit (i / store.byteSize) := by
      rw [members, BitVec.getLsbD_zero, Bool.false_or, Bool.eq_iff_iff, Bool.and_eq_true,
        decide_eq_true_eq]
      constructor
      · exact And.right
      · intro enabled
        exact ⟨⟨Nat.zero_le _, by have := testBit_writemask_lt consistent enabled; omega⟩, enabled⟩
    obtain ⟨emitted, shiftCounts, isLowering, shifts, writes⟩ := @lowerChunks_spec store value
      offset lowerInt16 consistent store.bytesWritten mask 0 ⟨[], []⟩ (by omega)
      (by
        intro i inMask
        rw [member] at inMask
        exact (Nat.div_lt_iff_lt_mul positive).mp (testBit_writemask_lt consistent inMask))
      (by omega)
    rw [isMask, Option.bind_eq_bind, Option.bind_some, isLowering]
    refine ⟨_, rfl, ?_, shifts⟩
    intro memory
    apply eq_of_bits consistent
    intro i
    rw [← member]
    exact writes memory i

/-- Two of three words at an odd offset. -/
def oddStore : Store :=
  { numComponents := 3
    bitSize := 32
    alignMul := 4
    alignOffset := 1
    writemask := 5 }

theorem lowerMemStore_writes_oddStore :
    ∃ lowering, oddStore.lowerMemStore false [1#32, 2#32, 3#32] 5 = some lowering ∧
      (∀ memory address, lowering.emitted.foldl Emitted.exec memory address =
        if 5 ≤ address ∧ oddStore.writemask.testBit ((address - 5) / oddStore.byteSize) then
          storeVector memory 5 [1#32, 2#32, 3#32] address
        else memory address) ∧
      ∀ count ∈ lowering.shiftCounts, count < 32 :=
  lowerMemStore_writes false oddStore [1#32, 2#32, 3#32] 5
    { some := by decide
      few := by decide
      isBitSize := by unfold IsBitSize; decide
      power := ⟨2, by decide, rfl⟩
      less := by decide
      offset_mod := by decide
      length_eq := by decide
      writemask_lt := by decide }

end Loop

end Store

end MemAccess

end SpirvToDxil
