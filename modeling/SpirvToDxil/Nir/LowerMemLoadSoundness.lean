import SpirvToDxil.Nir.LowerMemAccessAnswers

/-!
# Loads in chunks
-/

namespace SpirvToDxil

namespace MemAccess

open Components ExtractBits

section Shift

variable {w : Nat}

theorem getD_getD_map (load : List (BitVec w)) (f : BitVec w → BitVec w)
    (zero : f 0#w = 0#w) (c : Nat) : (load.map f).getD c 0#w = f (load.getD c 0#w) := by
  rw [List.getD_eq_getElem?_getD, List.getD_eq_getElem?_getD, List.getElem?_map]
  cases load[c]? with
  | none => exact zero.symm
  | some component => rfl

theorem getD_drop_append {α : Type} (list : List α) (last : α) (i : Nat) :
    (list.drop 1 ++ [last]).getD i last = list.getD (i + 1) last := by
  cases list with
  | nil => cases i <;> rfl
  | cons head tail =>
      rw [List.drop_one, List.tail_cons, List.getD_cons_succ, List.getD_eq_getElem?_getD,
        List.getD_eq_getElem?_getD, List.getElem?_append]
      split
      next => rfl
      next past =>
        rw [List.getElem?_eq_none (Nat.not_lt.mp past)]
        cases i - tail.length <;> rfl

theorem getD_zipWith_or (first second : List (BitVec w)) (same : first.length = second.length)
    (i : Nat) :
    (List.zipWith (· ||| ·) first second).getD i 0#w =
      first.getD i 0#w ||| second.getD i 0#w := by
  simp only [List.getD_eq_getElem?_getD, List.getElem?_zipWith]
  rcases Nat.lt_or_ge i first.length with inside | outside
  · simp [inside, same ▸ inside]
  · simp [outside, same ▸ outside]

/-- A component of the shifted vector has bits of two components. -/
theorem getD_shiftLoadDataScalar {k shift : Nat} (load : List (BitVec (2 ^ k)))
    (many : 1 < load.length) (less : shift < 2 ^ k) (some : shift ≠ 0) (c : Nat) :
    (List.zipWith (· ||| ·) (load.map (ushr · shift))
        ((load.map (ishl · (2 ^ k - shift))).drop 1 ++ [0#(2 ^ k)])).getD c 0#(2 ^ k) =
      load.getD c 0#(2 ^ k) >>> shift ||| load.getD (c + 1) 0#(2 ^ k) <<< (2 ^ k - shift) := by
  have zero : ushr 0#(2 ^ k) shift = 0#(2 ^ k) := by simp [ushr]
  have zero' : ishl 0#(2 ^ k) (2 ^ k - shift) = 0#(2 ^ k) := by simp [ishl]
  have same : (load.map (ushr · shift)).length =
      ((load.map (ishl · (2 ^ k - shift))).drop 1 ++ [0#(2 ^ k)]).length := by
    rw [List.length_map, List.length_append, List.length_drop, List.length_map]
    exact (Nat.sub_add_cancel (Nat.le_of_lt many)).symm
  rw [getD_zipWith_or _ _ same, getD_drop_append, getD_getD_map _ _ zero, getD_getD_map _ _ zero',
    ushr, ishl, shiftCount_two_pow less, shiftCount_two_pow (by omega)]

/-- The vector is moved down by the bytes that its offset is past an aligned one. -/
theorem bit_shiftLoadDataScalar {align : Nat} (load : List (BitVec w)) (offset : Nat)
    (bytes : align = 2 ∨ align = 4) (size : w = 8 * align) {i : Nat}
    (inside : i + 8 * (offset % align) < load.length * w) :
    bit (shiftLoadDataScalar load offset (align - 1)) i = bit load (i + 8 * (offset % align)) := by
  obtain ⟨k, rfl⟩ : ∃ k, w = 2 ^ k := by
    rcases bytes with rfl | rfl
    · exact ⟨4, size⟩
    · exact ⟨5, size⟩
  have less : offset % align < align := Nat.mod_lt _ (by omega)
  unfold shiftLoadDataScalar
  dsimp only
  rw [and_align_sub_one bytes]
  generalize offset % align = pad at *
  have inRow := Nat.mod_lt i (Nat.two_pow_pos k)
  have place := Nat.div_add_mod' i (2 ^ k)
  generalize i / 2 ^ k = c at *
  generalize i % 2 ^ k = j at *
  subst place
  split
  next many =>
    split
    next zero =>
      obtain rfl : pad = 0 := by omega
      rfl
    next some =>
      rw [bit_of_component _ inRow, getD_shiftLoadDataScalar load many (by omega) some,
        BitVec.getLsbD_or, BitVec.getLsbD_ushiftRight, BitVec.getLsbD_shiftLeft]
      rcases Nat.lt_or_ge (j + 8 * pad) (2 ^ k) with here | next
      · have before : j < 2 ^ k - pad * 8 := by omega
        rw [Nat.add_assoc, bit_of_component _ here, decide_eq_true before, Nat.mul_comm,
          Nat.add_comm]
        simp
      · have after : ¬j < 2 ^ k - pad * 8 := by omega
        have past : (load.getD c 0#(2 ^ k)).getLsbD (pad * 8 + j) = false :=
          BitVec.getLsbD_of_ge _ _ (by omega)
        have nextPlace : c * 2 ^ k + j + 8 * pad =
            (c + 1) * 2 ^ k + (j - (2 ^ k - pad * 8)) := by
          rw [Nat.succ_mul c]
          omega
        rw [nextPlace, bit_of_component _ (by omega), past, decide_eq_false after]
        simp [inRow]
  next single =>
    have one : load.length * 2 ^ k ≤ 1 * 2 ^ k := Nat.mul_le_mul_right _ (Nat.not_lt.mp single)
    obtain rfl : c = 0 := by
      by_contra later
      have := Nat.mul_le_mul_right (2 ^ k) (Nat.pos_of_ne_zero later)
      omega
    rw [bit_of_component _ inRow, Nat.add_assoc, bit_of_component _ (by omega),
      getD_getD_map _ _ (by simp [ushr]), ushr, shiftCount_two_pow (by omega),
      BitVec.getLsbD_ushiftRight, Nat.mul_comm, Nat.add_comm]

theorem length_shiftLoadDataScalar (load : List (BitVec w)) (offset alignMask : Nat) :
    (shiftLoadDataScalar load offset alignMask).length = load.length := by
  unfold shiftLoadDataScalar
  dsimp only
  split
  next many =>
    split
    next => rfl
    next =>
      rw [List.length_zipWith, List.length_map, List.length_append, List.length_drop,
        List.length_map]
      exact Nat.min_eq_left (Nat.le_of_eq (Nat.sub_add_cancel (Nat.le_of_lt many)).symm)
  next => exact List.length_map _

end Shift

/-- An access has the size that was answered, and an alignment that suffices and is true. -/
structure Served (requested : SizeAlign) (access : Access) : Prop where
  numComponents_eq : access.numComponents = requested.numComponents
  bitSize_eq : access.bitSize = requested.bitSize
  align_dvd : requested.align ∣ access.offset
  align_le : requested.align ≤ combinedAlign access.alignMul access.alignOffset
  offset_mod : access.offset % access.alignMul = access.alignOffset

namespace Load

/-- What the pass may assume of a load, of 16 components at most. -/
structure Consistent (load : Load) (offset : Nat) : Prop where
  isLoad : load.intrin ≠ .storeSsbo
  some : 0 < load.numComponents
  few : load.numComponents ≤ 16
  isBitSize : IsBitSize load.bitSize
  power : ∃ k < 32, load.alignMul = 2 ^ k
  less : load.alignOffset < load.alignMul
  offset_mod : offset % load.alignMul = load.alignOffset

theorem chunkBitSize_spec {chunkBytes bitSize : Nat} (is : IsBitSize bitSize) :
    let chunkBitSize := min (8 * lowestBit chunkBytes) bitSize
    IsSize chunkBitSize ∧ chunkBitSize ≤ 64 ∧ chunkBitSize / 8 ∣ chunkBytes ∧
      8 * (chunkBitSize / 8) = chunkBitSize := by
  obtain ⟨j, _, lowest⟩ :=
    (Nat.dvd_prime_pow Nat.prime_two).mp (Nat.gcd_dvd_right chunkBytes (2 ^ 32))
  change lowestBit chunkBytes = 2 ^ j at lowest
  have isLowest : IsSize (8 * lowestBit chunkBytes) :=
    ⟨j + 3, by omega, by rw [lowest, Nat.pow_add, Nat.mul_comm]⟩
  obtain ⟨isMin, dvdLowest, dvdSize⟩ := isSize_min isLowest is.isSize
  have le : min (8 * lowestBit chunkBytes) bitSize ≤ 64 := by
    rcases is with rfl | rfl | rfl | rfl <;> omega
  have eight : 8 ∣ min (8 * lowestBit chunkBytes) bitSize := isMin.eight_dvd
  refine ⟨isMin, le, ?_, Nat.mul_div_cancel' eight⟩
  rw [← Nat.mul_div_cancel' eight] at dvdLowest
  exact Nat.dvd_trans (Nat.dvd_of_mul_dvd_mul_left (by decide) dvdLowest) (Nat.gcd_dvd_left _ _)

theorem split_spec {load : Load} (is : IsBitSize load.bitSize) {chunkData : Def}
    (isSize : IsSize chunkData.bitSize) (short : chunkData.bitSize ≤ 128)
    {firstBit chunkBytes : Nat} (aligned : 8 ∣ firstBit)
    (room : firstBit + 8 * chunkBytes ≤ chunkData.bitSize * chunkData.components.length) :
    ∃ chunks, load.split chunkData firstBit chunkBytes = some chunks ∧
      chunks.length ≤ chunkBytes ∧
      Spans chunks chunkBytes fun i => bit chunkData.components (firstBit + i) := by
  obtain ⟨isChunk, le, dvd, whole⟩ := @chunkBitSize_spec chunkBytes _ is
  unfold split
  dsimp only at isChunk le dvd whole ⊢
  generalize min (8 * lowestBit chunkBytes) load.bitSize = chunkBitSize at *
  have all : chunkBytes / (chunkBitSize / 8) * (chunkBitSize / 8) = chunkBytes :=
    Nat.div_mul_cancel dvd
  have fewer : chunkBytes / (chunkBitSize / 8) ≤ chunkBytes := Nat.div_le_self _ _
  generalize chunkBytes / (chunkBitSize / 8) = count at *
  have bits : count * chunkBitSize = 8 * chunkBytes := by
    calc count * chunkBitSize = count * (8 * (chunkBitSize / 8)) := by rw [whole]
      _ = 8 * (count * (chunkBitSize / 8)) := Nat.mul_left_comm ..
      _ = 8 * chunkBytes := by rw [all]
  have taken : ∀ i < count, ∃ component : List (BitVec chunkBitSize),
      extractBits [chunkData] (firstBit + i * chunkBitSize) 1 chunkBitSize = some component ∧
        component.length = 1 ∧
        ∀ j < 1 * chunkBitSize, bit component j =
          blobBit [chunkData] (firstBit + i * chunkBitSize + j) := by
    intro i less
    have inside := Nat.mul_le_mul_right chunkBitSize less
    rw [Nat.succ_mul] at inside
    apply extractBits_eq isChunk (by simpa using isSize) (by simpa using short)
    · exact Nat.dvd_add aligned (Nat.dvd_mul_left_of_dvd isChunk.eight_dvd i)
    · rw [blobSize, blobSize]
      omega
    · omega
  choose! component isComponent length componentBits using taken
  refine ⟨(List.range count).map fun i => ⟨chunkBitSize, component i⟩, ?_, by simpa using fewer, ?_⟩
  · apply mapM_eq_some_map
    intro i member
    rw [isComponent i (List.mem_range.mp member)]
    rfl
  · rw [← all]
    apply spans_map_range isChunk (Nat.le_trans le (by decide)) whole.symm _ length
    intro i less j inside
    have inData := Nat.mul_le_mul_right chunkBitSize less
    rw [Nat.succ_mul] at inData
    rw [componentBits i less j (by omega), blobBit, if_pos (by omega), Nat.add_assoc]

section Vectors

variable {memory : Nat → BitVec 8} {numComponents align : Nat}

theorem bit_loadVector_eight_mul (address : Nat) {i : Nat}
    (less : i < 8 * (numComponents * align)) :
    bit (loadVector memory address numComponents (8 * align)) i =
      memoryBit memory (8 * address + i) := by
  apply bit_loadVector memory address (Nat.dvd_mul_right 8 align)
  rwa [Nat.mul_left_comm]

/-- Components out of an aligned load that is moved down. -/
theorem exists_split_shifted {load : Load} (is : IsBitSize load.bitSize)
    (align_eq : align = 2 ∨ align = 4) (address : Nat) {chunkBytes : Nat}
    (room : chunkBytes + address % align ≤ numComponents * align) :
    ∃ chunks, load.split ⟨8 * align, shiftLoadDataScalar
          (loadVector memory (address - address % align) numComponents (8 * align)) address
          (align - 1)⟩ 0 chunkBytes = some chunks ∧
      chunks.length ≤ chunkBytes ∧
      Spans chunks chunkBytes fun i => memoryBit memory (8 * address + i) := by
  have padLe := Nat.mod_le address align
  have whole : numComponents * (8 * align) = 8 * (numComponents * align) := Nat.mul_left_comm ..
  obtain ⟨chunks, areChunks, fewer, spans⟩ := @split_spec load is
    ⟨8 * align, shiftLoadDataScalar
      (loadVector memory (address - address % align) numComponents (8 * align)) address
      (align - 1)⟩
    (isSize_eight_mul align_eq) (by dsimp only; omega) 0 chunkBytes (Nat.dvd_zero 8) (by
      rw [length_shiftLoadDataScalar, length_loadVector]
      dsimp only
      rw [Nat.mul_comm _ numComponents]
      omega)
  refine ⟨chunks, areChunks, fewer, ?_⟩
  apply spans.congr
  intro i less
  dsimp only
  rw [bit_shiftLoadDataScalar _ _ align_eq rfl, bit_loadVector_eight_mul _ (by omega)]
  · congr 1
    omega
  · rw [length_loadVector, whole]
    omega

/-- Components out of a load that starts some bytes before. -/
theorem exists_split_past {load : Load} (is : IsBitSize load.bitSize)
    (align_eq : align = 2 ∨ align = 4) {address delta chunkBytes : Nat} (le : delta ≤ address)
    (room : chunkBytes + delta ≤ numComponents * align) :
    ∃ chunks, load.split ⟨8 * align,
          loadVector memory (address - delta) numComponents (8 * align)⟩
          (delta * 8) chunkBytes = some chunks ∧
      chunks.length ≤ chunkBytes ∧
      Spans chunks chunkBytes fun i => memoryBit memory (8 * address + i) := by
  have whole : numComponents * (8 * align) = 8 * (numComponents * align) := Nat.mul_left_comm ..
  obtain ⟨chunks, areChunks, fewer, spans⟩ := @split_spec load is
    ⟨8 * align, loadVector memory (address - delta) numComponents (8 * align)⟩
    (isSize_eight_mul align_eq) (by dsimp only; omega) (delta * 8) chunkBytes
    (Nat.dvd_mul_left 8 delta) (by
      rw [length_loadVector]
      dsimp only
      rw [Nat.mul_comm _ numComponents]
      omega)
  refine ⟨chunks, areChunks, fewer, ?_⟩
  apply spans.congr
  intro i less
  dsimp only
  rw [bit_loadVector_eight_mul _ (by omega)]
  congr 1
  omega

end Vectors

section Chunk

variable {lowerInt16 : Bool} {load : Load} {memory : Nat → BitVec 8} {offset chunkStart : Nat}

/-- Either every chunk is moved down, or only the first one starts at an offset that is not a
multiple of the unit. -/
def Phase (lowerInt16 : Bool) (load : Load) (chunkStart : Nat) : Prop :=
  let unit := unit lowerInt16 load.intrin load.bitSize
  load.alignMul < unit ∨ chunkStart = 0 ∨ unit ∣ load.alignOffset + chunkStart

structure Correct (lowerInt16 : Bool) (load : Load) (memory : Nat → BitVec 8)
    (offset chunkStart : Nat) (chunk : Chunk) : Prop where
  served : Served chunk.requested chunk.access
  some : 0 < chunk.chunkBytes
  few : chunk.chunks.length ≤ chunk.chunkBytes
  room : chunkStart + chunk.chunks.length ≤ maxChunks
  spans : Spans chunk.chunks chunk.chunkBytes
    fun i => memoryBit memory (8 * (offset + chunkStart) + i)
  phase : load.Phase lowerInt16 (chunkStart + chunk.chunkBytes)

theorem bytesRead_le (consistent : load.Consistent offset) : load.bytesRead ≤ maxChunks := by
  have few := consistent.few
  unfold bytesRead maxChunks
  rcases consistent.isBitSize with size | size | size | size <;> rw [size] <;> omega

/-- The place of a chunk in a unit of the alignment is known. -/
theorem mod_of_dvd_alignMul (consistent : load.Consistent offset) {align : Nat}
    (dvd : align ∣ load.alignMul) :
    (offset + chunkStart) % align = (load.alignOffset + chunkStart) % load.alignMul % align ∧
      (load.alignOffset + chunkStart) % align =
        (load.alignOffset + chunkStart) % load.alignMul % align := by
  have same : (load.alignOffset + chunkStart) % align = (offset + chunkStart) % align := by
    rw [← consistent.offset_mod, Nat.add_mod, Nat.mod_mod_of_dvd _ dvd, ← Nat.add_mod]
  rw [Nat.mod_mod_of_dvd _ dvd]
  exact ⟨same.symm, rfl⟩

section Answer

variable {numComponents align : Nat}

/-- The offset of a chunk is aligned down, and the load that is too long by it is moved down. -/
theorem exists_correct_shifted (consistent : load.Consistent offset)
    (inside : chunkStart < load.bytesRead)
    (serves : Serves (unit lowerInt16 load.intrin load.bitSize) ⟨numComponents, 8 * align, align⟩
      (combinedAlign load.alignMul ((load.alignOffset + chunkStart) % load.alignMul)))
    (unaligned : load.alignMul < align) :
    let address := offset + chunkStart
    let chunkAlign := combinedAlign load.alignMul ((load.alignOffset + chunkStart) % load.alignMul)
    let chunkBytes :=
      min (load.bytesRead - chunkStart) (numComponents * align - (align - chunkAlign))
    ∃ chunks, load.split ⟨8 * align, shiftLoadDataScalar
          (loadVector memory (address - address % align) numComponents (8 * align)) address
          (align - 1)⟩ 0 chunkBytes = some chunks ∧
      load.Correct lowerInt16 memory offset chunkStart
        { requested := ⟨numComponents, 8 * align, align⟩
          access := ⟨address - address % align, align, 0, numComponents, 8 * align⟩
          chunks
          chunkBytes } := by
  intro address chunkAlign chunkBytes
  have total := bytesRead_le consistent
  obtain ⟨-, align_eq, -, known, numComponents_pos, fits⟩ := serves
  dsimp only at align_eq known numComponents_pos fits
  obtain ⟨k, -, power⟩ := consistent.power
  obtain ⟨j, le, combined, dvd⟩ := combinedAlign_spec power
    (Nat.mod_lt (load.alignOffset + chunkStart) (power ▸ Nat.two_pow_pos k))
  have mulLe : 2 ^ j ≤ 2 ^ k := Nat.pow_le_pow_right Nat.zero_lt_two le
  have addressDvd : 2 ^ j ∣ address := by
    rw [← consistent.offset_mod, Nat.mod_add_mod, power] at dvd
    exact (Nat.dvd_mod_iff (two_pow_dvd_of_le mulLe)).mp dvd
  have padRoom := add_le_of_mod (two_pow_dvd_align align_eq (by omega)) addressDvd (by omega)
  have some := Nat.two_pow_pos j
  have one := Nat.le_mul_of_pos_left align numComponents_pos
  rw [combined] at known
  have chunkBytes_eq : chunkBytes =
      min (load.bytesRead - chunkStart) (numComponents * align - (align - 2 ^ j)) := by
    rw [← combined]
  obtain ⟨chunks, areChunks, fewer, spans⟩ := @exists_split_shifted memory numComponents align
    load consistent.isBitSize align_eq address chunkBytes (by omega)
  refine ⟨chunks, areChunks, ?_, ?_, fewer, ?_, spans, ?_⟩
  · refine ⟨rfl, rfl, Nat.dvd_sub_mod _, Nat.le_refl _, ?_⟩
    exact Nat.mod_eq_zero_of_dvd (Nat.dvd_sub_mod _)
  · dsimp only
    omega
  · dsimp only
    omega
  · left
    rcases known with rfl | known
    · exact unaligned
    · have := Nat.le_of_dvd some known
      omega

/-- The first chunk may start some bytes into what is loaded for it. -/
theorem exists_correct_past (consistent : load.Consistent offset)
    (phase : load.Phase lowerInt16 chunkStart)
    (serves : Serves (unit lowerInt16 load.intrin load.bitSize) ⟨numComponents, 8 * align, align⟩
      (combinedAlign load.alignMul ((load.alignOffset + chunkStart) % load.alignMul)))
    (enough : align ≤ load.alignMul)
    (past : (load.alignOffset + chunkStart) % load.alignMul % align ≠ 0) :
    let chunkAlignOffset := (load.alignOffset + chunkStart) % load.alignMul
    let delta := chunkAlignOffset % align
    let chunkBytes := numComponents * align
    ∃ chunks, load.split ⟨8 * align,
          loadVector memory (offset + chunkStart - delta) numComponents (8 * align)⟩
          (delta * 8) (chunkBytes - delta) = some chunks ∧
      load.Correct lowerInt16 memory offset chunkStart
        { requested := ⟨numComponents, 8 * align, align⟩
          access := ⟨offset + chunkStart - delta, load.alignMul,
            (chunkAlignOffset - delta) % load.alignMul, numComponents, 8 * align⟩
          chunks
          chunkBytes := chunkBytes - delta } := by
  intro chunkAlignOffset delta chunkBytes
  obtain ⟨-, align_eq, unit_dvd, known, numComponents_pos, fits⟩ := serves
  dsimp only at align_eq unit_dvd known numComponents_pos fits
  obtain ⟨k, -, power⟩ := consistent.power
  have chunkLess : chunkAlignOffset < load.alignMul := Nat.mod_lt _ (power ▸ Nat.two_pow_pos k)
  have address : (offset + chunkStart) % load.alignMul = chunkAlignOffset := by
    rw [← Nat.mod_add_mod, consistent.offset_mod]
  obtain ⟨j, -, combined, dvd⟩ := combinedAlign_spec power chunkLess
  have mulDvd : align ∣ load.alignMul := by
    rw [power] at enough ⊢
    exact align_dvd_two_pow align_eq enough
  have addressMod : (offset + chunkStart) % align = delta :=
    (mod_of_dvd_alignMul consistent mulDvd).1
  have startMod : (load.alignOffset + chunkStart) % align = delta :=
    (@mod_of_dvd_alignMul load offset chunkStart consistent _ mulDvd).2
  have one := Nat.le_mul_of_pos_left align numComponents_pos
  have deltaLt : delta < align := Nat.mod_lt _ (by omega)
  have deltaLe : delta ≤ offset + chunkStart := addressMod ▸ Nat.mod_le (offset + chunkStart) align
  have downMod : align ∣ chunkAlignOffset - delta := Nat.dvd_sub_mod _
  have isUnit : align = unit lowerInt16 load.intrin load.bitSize := by
    apply known.resolve_right
    intro ofAlign
    rw [combined] at ofAlign
    exact past (Nat.mod_eq_zero_of_dvd (Nat.dvd_trans ofAlign dvd))
  have first : chunkStart = 0 := by
    rcases phase with small | first | onUnit
    · omega
    · exact first
    · exact absurd (startMod.symm.trans (Nat.mod_eq_zero_of_dvd (isUnit ▸ onUnit))) past
  obtain ⟨chunks, areChunks, fewer, spans⟩ := @exists_split_past memory numComponents align
    load consistent.isBitSize align_eq (offset + chunkStart) delta (chunkBytes - delta) deltaLe
    (by omega)
  refine ⟨chunks, areChunks, ?_, ?_, fewer, ?_, spans, ?_⟩
  · have place : offset + chunkStart - delta =
        load.alignMul * ((offset + chunkStart) / load.alignMul) + (chunkAlignOffset - delta) := by
      have division := Nat.div_add_mod (offset + chunkStart) load.alignMul
      have offsetLe : delta ≤ chunkAlignOffset := Nat.mod_le _ _
      omega
    have small : (chunkAlignOffset - delta) % load.alignMul = chunkAlignOffset - delta :=
      Nat.mod_eq_of_lt (by omega)
    refine ⟨rfl, rfl, addressMod ▸ Nat.dvd_sub_mod (offset + chunkStart), ?_, ?_⟩
    · dsimp only
      rw [small]
      exact le_combinedAlign align_eq enough downMod
    · dsimp only
      rw [place, Nat.mul_add_mod]
  · dsimp only
    omega
  · unfold maxChunks
    dsimp only
    omega
  · right
    right
    have startLe := startMod ▸ Nat.mod_le (load.alignOffset + chunkStart) align
    have dvdStart : align ∣ load.alignOffset + chunkStart - delta :=
      startMod ▸ Nat.dvd_sub_mod (load.alignOffset + chunkStart)
    have place : load.alignOffset + (chunkStart + (chunkBytes - delta)) =
        load.alignOffset + chunkStart - delta + chunkBytes := by
      omega
    dsimp only
    rw [place]
    exact Nat.dvd_trans unit_dvd (Nat.dvd_add dvdStart (Nat.dvd_mul_left align _))

theorem correct_aligned (consistent : load.Consistent offset)
    (inside : chunkStart < load.bytesRead)
    (serves : Serves (unit lowerInt16 load.intrin load.bitSize) ⟨numComponents, 8 * align, align⟩
      (combinedAlign load.alignMul ((load.alignOffset + chunkStart) % load.alignMul)))
    (enough : align ≤ load.alignMul)
    (aligned : (load.alignOffset + chunkStart) % load.alignMul % align = 0) :
    load.Correct lowerInt16 memory offset chunkStart
      { requested := ⟨numComponents, 8 * align, align⟩
        access := ⟨offset + chunkStart, load.alignMul,
          (load.alignOffset + chunkStart) % load.alignMul, numComponents, 8 * align⟩
        chunks :=
          [⟨8 * align, loadVector memory (offset + chunkStart) numComponents (8 * align)⟩]
        chunkBytes := numComponents * align } := by
  have total := bytesRead_le consistent
  obtain ⟨-, align_eq, unit_dvd, -, numComponents_pos, fits⟩ := serves
  dsimp only at align_eq unit_dvd numComponents_pos fits
  obtain ⟨k, -, power⟩ := consistent.power
  have mulDvd : align ∣ load.alignMul := by
    rw [power] at enough ⊢
    exact align_dvd_two_pow align_eq enough
  obtain ⟨addressMod, startMod⟩ := @mod_of_dvd_alignMul load offset chunkStart consistent _ mulDvd
  have one := Nat.le_mul_of_pos_left align numComponents_pos
  refine ⟨⟨rfl, rfl, ?_, ?_, ?_⟩, ?_, ?_, ?_, ?_, ?_⟩
  · exact Nat.dvd_of_mod_eq_zero (addressMod.trans aligned)
  · exact le_combinedAlign align_eq enough (Nat.dvd_of_mod_eq_zero aligned)
  · dsimp only
    rw [← Nat.mod_add_mod, consistent.offset_mod]
  · dsimp only
    omega
  · dsimp only [List.length_singleton]
    omega
  · dsimp only [List.length_singleton]
    omega
  · apply spans_single (isSize_eight_mul align_eq)
    · dsimp only
      omega
    · rw [length_loadVector, Nat.mul_comm]
      exact Nat.mul_left_comm ..
    · intro i less
      exact bit_loadVector_eight_mul _ less
  · right
    right
    have dvdStart : align ∣ load.alignOffset + chunkStart :=
      Nat.dvd_of_mod_eq_zero (startMod.trans aligned)
    dsimp only
    rw [← Nat.add_assoc]
    exact Nat.dvd_trans unit_dvd (Nat.dvd_add dvdStart (Nat.dvd_mul_left align _))

end Answer

/-- Each answer of the callback gives a chunk with its bytes of the memory. -/
theorem lowerChunk_spec (consistent : load.Consistent offset)
    (inside : chunkStart < load.bytesRead) (phase : load.Phase lowerInt16 chunkStart) :
    ∃ chunk, load.lowerChunk lowerInt16 memory offset chunkStart = some chunk ∧
      load.Correct lowerInt16 memory offset chunkStart chunk := by
  obtain ⟨k, -, power⟩ := consistent.power
  obtain ⟨j, -, combined, -⟩ := combinedAlign_spec power
    (Nat.mod_lt (load.alignOffset + chunkStart) (power ▸ Nat.two_pow_pos k))
  have serves := @lowerMemAccessBitSizesCb_serves lowerInt16 load.intrin
    (load.bytesRead - chunkStart) _ load.alignMul _ consistent.isBitSize (by omega) ⟨j, combined⟩
  unfold lowerChunk requested
  dsimp only
  rw [if_neg (not_not.mpr serves.valid)]
  generalize lowerMemAccessBitSizesCb _ _ _ _ _ _ = requested at *
  obtain ⟨numComponents, bitSize, align⟩ := requested
  obtain rfl : bitSize = 8 * align := serves.bitSize_eq
  have align_eq : align = 2 ∨ align = 4 := serves.align_eq
  have bytes : 8 * align / 8 = align := Nat.mul_div_cancel_left align (by decide)
  dsimp only
  rw [bytes]
  split
  next unaligned =>
    have requestedBytes : numComponents * (8 * align) / 8 = numComponents * align := by
      rw [Nat.mul_left_comm, Nat.mul_div_cancel_left _ (by decide)]
    rw [if_pos (Nat.le_of_eq (Nat.mul_comm align 8)), requestedBytes, andNot,
      and_align_sub_one align_eq]
    obtain ⟨chunks, areChunks, correct⟩ :=
      @exists_correct_shifted _ _ memory _ _ _ _ consistent inside serves unaligned
    exact ⟨_, by rw [Access.load, areChunks]; rfl, correct⟩
  next enough =>
    split
    next past =>
      have deltaLt := Nat.mod_lt ((load.alignOffset + chunkStart) % load.alignMul)
        (by omega : 0 < align)
      have one : align ≤ numComponents * align :=
        Nat.le_mul_of_pos_left align serves.numComponents_pos
      rw [if_pos ⟨(isSize_eight_mul align_eq).eight_le, by omega⟩]
      obtain ⟨chunks, areChunks, correct⟩ :=
        @exists_correct_past _ _ memory _ _ _ _ consistent phase serves (Nat.not_lt.mp enough) past
      exact ⟨_, by rw [Access.load, areChunks]; rfl, correct⟩
    next aligned =>
      exact ⟨_, rfl, correct_aligned consistent inside serves (Nat.not_lt.mp enough)
        (not_not.mp aligned)⟩

end Chunk

section Loop

variable {lowerInt16 : Bool} {load : Load} {memory : Nat → BitVec 8} {offset : Nat}

structure Loop.Correct (loop : Loop) (memory : Nat → BitVec 8) (offset chunkStart : Nat) :
    Prop where
  served : ∀ access ∈ loop.accesses, Served access.1 access.2
  few : loop.chunks.length ≤ min chunkStart maxChunks
  spans : Spans loop.chunks chunkStart fun i => memoryBit memory (8 * offset + i)

/-- The loop ends after all bytes, which may be more than are read. -/
theorem lowerChunks_spec (consistent : load.Consistent offset) {chunkStart rounds : Nat}
    {loop : Loop} (correct : loop.Correct memory offset chunkStart)
    (phase : load.Phase lowerInt16 chunkStart) (enough : load.bytesRead ≤ chunkStart + rounds) :
    ∃ finish loop', load.bytesRead ≤ finish ∧
      load.lowerChunks lowerInt16 memory offset chunkStart loop rounds = some loop' ∧
      loop'.Correct memory offset finish := by
  induction rounds generalizing chunkStart loop with
  | zero => exact ⟨chunkStart, loop, enough, if_neg (by omega), correct⟩
  | succ rounds inductionHypothesis =>
      rw [lowerChunks]
      split
      next inside =>
        obtain ⟨chunk, isChunk, served, some, few, room, spans, next⟩ :=
          @lowerChunk_spec lowerInt16 load memory offset chunkStart consistent inside phase
        have total : (loop.chunks ++ chunk.chunks).length ≤
            min (chunkStart + chunk.chunkBytes) maxChunks := by
          have before := correct.few
          rw [List.length_append]
          omega
        rw [isChunk, Option.bind_eq_bind, Option.bind_some]
        dsimp only
        rw [if_pos (Nat.le_trans total (Nat.min_le_right _ _))]
        apply inductionHypothesis _ next (by omega)
        refine ⟨?_, total, ?_⟩
        · intro access member
          rcases List.mem_append.mp member with member | member
          · exact correct.served access member
          · rw [List.mem_singleton.mp member]
            exact served
        · apply correct.spans.append
          apply spans.congr
          intro i _
          congr 1
          omega
      next past => exact ⟨chunkStart, loop, Nat.not_lt.mp past, rfl, correct⟩

theorem align_dvd_offset {align : Nat} (consistent : load.Consistent offset)
    (bytes : align = 2 ∨ align = 4)
    (le : align ≤ combinedAlign load.alignMul load.alignOffset) : align ∣ offset := by
  obtain ⟨k, _, power⟩ := consistent.power
  obtain ⟨j, jLe, combined, dvd⟩ := combinedAlign_spec power consistent.less
  rw [← consistent.offset_mod, power] at dvd
  have dvdOffset : 2 ^ j ∣ offset := (Nat.dvd_mod_iff (Nat.pow_dvd_pow 2 jLe)).mp dvd
  rw [combined] at le
  exact Nat.dvd_trans (align_dvd_two_pow bytes le) dvdOffset

/-- The chunks that the loop has collected give the value of the load. -/
theorem extractBits_chunks (consistent : load.Consistent offset) {finish : Nat} {chunks : List Def}
    (enough : load.bytesRead ≤ finish)
    (spans : Spans chunks finish fun i => memoryBit memory (8 * offset + i)) :
    extractBits chunks 0 load.numComponents load.bitSize =
      some (loadVector memory offset load.numComponents load.bitSize) := by
  have isSize := consistent.isBitSize.isSize
  have total := bytesRead_le consistent
  have bits : load.numComponents * load.bitSize = 8 * load.bytesRead := by
    rw [bytesRead, Nat.mul_left_comm, Nat.mul_div_cancel' isSize.eight_dvd]
  unfold maxChunks at total
  obtain ⟨value, isValue, length, valueBits⟩ := extractBits_eq isSize spans.sizes spans.short
    (Nat.dvd_zero 8) (by rw [spans.size, bits]; omega) (by rw [bits]; omega)
  rw [isValue, Option.some_inj]
  apply ext (by rw [length, length_loadVector])
  intro i less
  rw [length] at less
  rw [valueBits i less, Nat.zero_add, spans.bits i (by omega),
    bit_loadVector memory offset isSize.eight_dvd less]

/-- The value of the lowered load is that of the load, and every access that it is lowered to is
served as the callback asked. -/
theorem lowerMemLoad_eq (lowerInt16 : Bool) (load : Load) (memory : Nat → BitVec 8) (offset : Nat)
    (consistent : load.Consistent offset) :
    ∃ lowering, load.lowerMemLoad lowerInt16 memory offset = some lowering ∧
      lowering.value = loadVector memory offset load.numComponents load.bitSize ∧
      (∀ access ∈ lowering.accesses, Served access.1 access.2) ∧
      lowering.numChunks ≤ maxChunks := by
  obtain ⟨k, _, power⟩ := consistent.power
  obtain ⟨j, _, combined, _⟩ := combinedAlign_spec power consistent.less
  have some : 0 < load.bytesRead := by
    have part := consistent.isBitSize.isSize.eight_le
    exact Nat.mul_pos consistent.some (by omega)
  have serves : Serves (unit lowerInt16 load.intrin load.bitSize)
      (load.requested lowerInt16 load.bytesRead load.alignOffset)
      (combinedAlign load.alignMul load.alignOffset) :=
    lowerMemAccessBitSizesCb_serves lowerInt16 load.intrin consistent.isBitSize some ⟨j, combined⟩
  have isPower : isPowerOfTwoNonzero load.alignMul := power ▸ isPowerOfTwoNonzero_two_pow k
  unfold lowerMemLoad
  dsimp only
  rw [if_neg (not_or.mpr ⟨not_not.mpr serves.valid, not_not.mpr isPower⟩)]
  split
  next asIs =>
    refine ⟨_, rfl, rfl, ?_, Nat.zero_le _⟩
    intro access member
    rw [List.mem_singleton.mp member]
    exact
      { numComponents_eq := asIs.1.symm
        bitSize_eq := asIs.2.1.symm
        align_dvd := align_dvd_offset consistent serves.align_eq asIs.2.2
        align_le := asIs.2.2
        offset_mod := consistent.offset_mod }
  next =>
    have empty : Loop.Correct ⟨[], []⟩ memory offset 0 := ⟨by simp, by simp, spans_nil _⟩
    obtain ⟨finish, loop, enough, isLoop, served, few, spans⟩ := @lowerChunks_spec lowerInt16 load
      memory offset consistent 0 load.bytesRead _ empty (.inr (.inl rfl)) (by omega)
    rw [isLoop, Option.bind_eq_bind, Option.bind_some, extractBits_chunks consistent enough spans]
    exact ⟨_, rfl, rfl, served, Nat.le_trans few (Nat.min_le_right _ _)⟩

/-- Three words of 64 bits at an odd offset. -/
def oddLoad : Load :=
  { intrin := .loadSsbo
    numComponents := 3
    bitSize := 64
    alignMul := 8
    alignOffset := 3 }

theorem lowerMemLoad_eq_oddLoad :
    ∃ lowering, oddLoad.lowerMemLoad false (fun address => BitVec.ofNat 8 address) 11 =
        some lowering ∧
      lowering.value = loadVector (fun address => BitVec.ofNat 8 address) 11 3 64 ∧
      (∀ access ∈ lowering.accesses, Served access.1 access.2) ∧
      lowering.numChunks ≤ maxChunks :=
  lowerMemLoad_eq false oddLoad _ 11
    { isLoad := by decide
      some := by decide
      few := by decide
      isBitSize := by unfold IsBitSize; decide
      power := ⟨3, by decide, rfl⟩
      less := by decide
      offset_mod := by decide }

end Loop

end Load

end MemAccess

end SpirvToDxil
