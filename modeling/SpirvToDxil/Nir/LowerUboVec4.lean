import SpirvToDxil.Util.LittleEndian

/-!
# Loads of uniform buffers in units of four words

A load of some bytes becomes loads of whole 16-byte rows.
-/

namespace SpirvToDxil

namespace UboVec4

inductive ChanSize where
  | two
  | four
  | eight
  deriving DecidableEq, Repr

def ChanSize.bytes : ChanSize → Nat
  | two => 2
  | four => 4
  | eight => 8

/-- `load_ubo`, with what is known of its byte offset. -/
structure LoadUbo where
  chanSize : ChanSize
  numComponents : Nat
  alignMul : Nat
  alignOffset : Nat
  deriving DecidableEq, Repr

abbrev Vector := List Nat

def channel (vector : Vector) (i : Nat) : Nat := vector.getD i 0

/-- The components of a 16-byte row, as `cbufferLoadLegacy` gives them. -/
def row (buffer : Nat → BitVec 8) (chanSize : ChanSize) (vec4Offset : BitVec 32) : Vector :=
  (List.range (16 / chanSize.bytes)).map fun i =>
    littleEndian buffer (16 * vec4Offset.toNat + i * chanSize.bytes) chanSize.bytes

/-- `emit_load_ubo_vec4` of a `load_ubo_vec4`. -/
def emitLoadUboVec4 (buffer : Nat → BitVec 8) (chanSize : ChanSize)
    (numComponents component : Nat) (vec4Offset : BitVec 32) : Vector :=
  (List.range numComponents).map fun i => channel (row buffer chanSize vec4Offset) (i + component)

/-- `nir_channels`, for the 16 components of the largest vector. -/
def nirChannels (vector : Vector) (mask : Nat) : Vector :=
  ((List.range 16).filter mask.testBit).map (channel vector)

def selectFromArray (array : Vector) (index : BitVec 32) (start finish : Nat) : Nat :=
  if finish ≤ start + 1 then channel array start
  else
    let mid := start + (finish - start) / 2
    if index.slt (BitVec.ofNat 32 mid) then selectFromArray array index start mid
    else selectFromArray array index mid finish
termination_by finish - start

def nirVectorExtract (vector : Vector) (index : BitVec 32) : Nat :=
  selectFromArray vector index 0 vector.length

/-- The component of a row that a byte offset is in. -/
def componentOf (chanSize : ChanSize) (byteOffset : BitVec 32) : BitVec 32 :=
  byteOffset / BitVec.ofNat 32 chanSize.bytes &&& BitVec.ofNat 32 (16 / chanSize.bytes - 1)

/-- `nir_lower_ubo_vec4_lower`: the value of the expression that it builds. -/
def nirLowerUboVec4Lower (load : LoadUbo) (buffer : Nat → BitVec 8) (byteOffset : BitVec 32) :
    Vector :=
  let vec4Offset := byteOffset >>> 4
  let chanSizeBytes := load.chanSize.bytes
  let chansPerVec4 := 16 / chanSizeBytes
  let alignMul := min load.alignMul 16
  let alignOffset := load.alignOffset % 16
  let alignedMul := alignMul = 16 ∧ alignOffset + chanSizeBytes * load.numComponents ≤ 16
  let alignChanOffset := alignOffset / chanSizeBytes
  if alignedMul then
    emitLoadUboVec4 buffer load.chanSize load.numComponents alignChanOffset vec4Offset
  else
    let result := emitLoadUboVec4 buffer load.chanSize chansPerVec4 0 vec4Offset
    if load.numComponents = 1 then
      [nirVectorExtract result (componentOf load.chanSize byteOffset)]
    else if alignMul = 8 ∧ alignOffset + chanSizeBytes * load.numComponents ≤ 8 then
      let lowChannels := (2 ^ load.numComponents - 1) <<< alignChanOffset
      let highChannels := lowChannels <<< (8 / chanSizeBytes)
      if byteOffset &&& 8#32 ≠ 0#32 then nirChannels result highChannels
      else nirChannels result lowChannels
    else
      let nextVec4Offset := vec4Offset + 1
      let nextLoad := emitLoadUboVec4 buffer load.chanSize chansPerVec4 0 nextVec4Offset
      (List.range load.numComponents).map fun i =>
        let chanByteOffset := byteOffset + BitVec.ofNat 32 (i * chanSizeBytes)
        let chanVec4Offset := chanByteOffset >>> 4
        nirVectorExtract (if chanVec4Offset = vec4Offset then result else nextLoad)
          (componentOf load.chanSize chanByteOffset)

namespace LoadUbo

variable (load : LoadUbo)

def value (buffer : Nat → BitVec 8) (byteOffset : BitVec 32) : Vector :=
  (List.range load.numComponents).map fun i =>
    littleEndian buffer (byteOffset.toNat + i * load.chanSize.bytes) load.chanSize.bytes

/-- The load fits in 16 bytes and does not wrap, and its alignment says the truth. -/
structure Consistent (byteOffset : BitVec 32) : Prop where
  fits : load.numComponents * load.chanSize.bytes ≤ 16
  power : ∃ k, load.alignMul = 2 ^ k
  wide : load.chanSize.bytes ≤ load.alignMul
  less : load.alignOffset < load.alignMul
  offset : byteOffset.toNat % load.alignMul = load.alignOffset
  noWrap : byteOffset.toNat + load.numComponents * load.chanSize.bytes ≤ 2 ^ 32

end LoadUbo

section Vectors

variable {buffer : Nat → BitVec 8} {chanSize : ChanSize}

theorem channel_map_range (f : Nat → Nat) {count i : Nat} (less : i < count) :
    channel ((List.range count).map f) i = f i := by
  simp [channel, List.getD_eq_getElem?_getD, less]

theorem channel_row {vec4Offset : BitVec 32} {i : Nat} (less : i < 16 / chanSize.bytes) :
    channel (row buffer chanSize vec4Offset) i =
      littleEndian buffer (16 * vec4Offset.toNat + i * chanSize.bytes) chanSize.bytes :=
  channel_map_range _ less

theorem emitLoadUboVec4_row (vec4Offset : BitVec 32) :
    emitLoadUboVec4 buffer chanSize (16 / chanSize.bytes) 0 vec4Offset =
      row buffer chanSize vec4Offset := by
  apply List.map_congr_left
  intro i member
  exact channel_row (List.mem_range.mp member)

/-- The selects pick the component of the index, which they compare as a signed number. -/
theorem selectFromArray_eq (array : Vector) {index : BitVec 32} {start finish : Nat}
    (above : start ≤ index.toNat) (below : index.toNat < finish) (small : finish ≤ 2 ^ 31) :
    selectFromArray array index start finish = channel array index.toNat := by
  rw [selectFromArray]
  split
  next single => rw [show start = index.toNat by omega]
  next several =>
    have signed : index.slt (BitVec.ofNat 32 (start + (finish - start) / 2)) ↔
        index.toNat < start + (finish - start) / 2 := by
      rw [BitVec.slt_iff_toInt_lt, BitVec.toInt_eq_toNat_of_lt (by omega),
        BitVec.toInt_eq_toNat_of_lt]
      · rw [BitVec.toNat_ofNat, Nat.mod_eq_of_lt (by omega)]
        omega
      · rw [BitVec.toNat_ofNat, Nat.mod_eq_of_lt (by omega)]
        omega
    simp only [signed]
    split
    next less => exact selectFromArray_eq array above less (by omega)
    next more => exact selectFromArray_eq array (by omega) below small
termination_by finish - start

theorem nirVectorExtract_eq {vector : Vector} {index : BitVec 32}
    (below : index.toNat < vector.length) (small : vector.length ≤ 2 ^ 31) :
    nirVectorExtract vector index = channel vector index.toNat :=
  selectFromArray_eq vector (Nat.zero_le _) below small

/-- The channels of a mask of neighbours. -/
theorem nirChannels_shift (vector : Vector) {count first : Nat} (fits : first + count ≤ 16) :
    nirChannels vector ((2 ^ count - 1) <<< first) =
      (List.range count).map fun i => channel vector (first + i) := by
  have bit (i : Nat) : ((2 ^ count - 1) <<< first).testBit i =
      (decide (first ≤ i) && decide (i - first < count)) := by
    rw [Nat.testBit_shiftLeft, Nat.testBit_two_pow_sub_one]
  have split : List.range 16 = List.range first ++ (List.range count).map (first + ·) ++
      (List.range (16 - (first + count))).map (first + count + ·) := by
    rw [← List.range_add, ← List.range_add, Nat.add_sub_cancel' fits]
  have below : (List.range first).filter ((2 ^ count - 1) <<< first).testBit = [] := by
    rw [List.filter_eq_nil_iff]
    intro i member
    have less := List.mem_range.mp member
    simp [bit]
    omega
  have inside : ((List.range count).map (first + ·)).filter
      ((2 ^ count - 1) <<< first).testBit = (List.range count).map (first + ·) := by
    rw [List.filter_eq_self]
    intro i member
    obtain ⟨j, less, rfl⟩ := List.mem_map.mp member
    simpa [bit] using less
  have above : ((List.range (16 - (first + count))).map (first + count + ·)).filter
      ((2 ^ count - 1) <<< first).testBit = [] := by
    rw [List.filter_eq_nil_iff]
    intro i member
    obtain ⟨j, _, rfl⟩ := List.mem_map.mp member
    simp [bit]
    omega
  rw [nirChannels, split, List.filter_append, List.filter_append, below, inside, above,
    List.nil_append, List.append_nil, List.map_map]
  rfl

theorem extract_row {vec4Offset byteOffset : BitVec 32}
    (inRow : vec4Offset.toNat = byteOffset.toNat / 16)
    (aligned : byteOffset.toNat % chanSize.bytes = 0) :
    nirVectorExtract (row buffer chanSize vec4Offset) (componentOf chanSize byteOffset) =
      littleEndian buffer byteOffset.toNat chanSize.bytes := by
  have component : (componentOf chanSize byteOffset).toNat =
      byteOffset.toNat / chanSize.bytes % (16 / chanSize.bytes) := by
    rw [componentOf, BitVec.toNat_and, BitVec.toNat_udiv]
    cases chanSize with
    | two => exact Nat.and_two_pow_sub_one_eq_mod _ 3
    | four => exact Nat.and_two_pow_sub_one_eq_mod _ 2
    | eight => exact Nat.and_two_pow_sub_one_eq_mod _ 1
  have less : (componentOf chanSize byteOffset).toNat < 16 / chanSize.bytes := by
    rw [component]
    apply Nat.mod_lt
    cases chanSize <;> decide
  have length : (row buffer chanSize vec4Offset).length = 16 / chanSize.bytes := by
    rw [row, List.length_map, List.length_range]
  rw [nirVectorExtract_eq, channel_row less, component, inRow]
  · congr 1
    cases chanSize <;> simp only [ChanSize.bytes] at * <;> omega
  · rwa [length]
  · rw [length]
    cases chanSize <;> decide

end Vectors

namespace LoadUbo

variable {load : LoadUbo} {buffer : Nat → BitVec 8} {byteOffset : BitVec 32}

theorem toNat_ushr (offset : BitVec 32) : (offset >>> 4).toNat = offset.toNat / 16 := by
  rw [BitVec.toNat_ushiftRight, Nat.shiftRight_eq_div_pow]

theorem two_pow_dvd (n : Nat) {k : Nat} (le : 2 ^ n ≤ 2 ^ k) : 2 ^ n ∣ 2 ^ k :=
  Nat.pow_dvd_pow 2 ((Nat.pow_le_pow_iff_right (by decide)).mp le)

namespace Consistent

variable (consistent : load.Consistent byteOffset)
include consistent

theorem aligned (asserted : load.alignOffset % load.chanSize.bytes = 0) :
    byteOffset.toNat % load.chanSize.bytes = 0 := by
  obtain ⟨k, power⟩ := consistent.power
  have wide := consistent.wide
  have divides : load.chanSize.bytes ∣ load.alignMul := by
    rw [power] at wide ⊢
    generalize load.chanSize = chanSize at *
    cases chanSize with
    | two => exact two_pow_dvd 1 wide
    | four => exact two_pow_dvd 2 wide
    | eight => exact two_pow_dvd 3 wide
  rw [← Nat.mod_mod_of_dvd _ divides, consistent.offset, asserted]

theorem offset_mod (wide : 16 ≤ load.alignMul) :
    byteOffset.toNat % 16 = load.alignOffset % 16 := by
  obtain ⟨k, power⟩ := consistent.power
  have divides : 16 ∣ load.alignMul := by
    rw [power] at wide ⊢
    exact two_pow_dvd 4 wide
  rw [← consistent.offset, Nat.mod_mod_of_dvd _ divides]

end Consistent

theorem value_of_single (single : load.numComponents = 1) :
    load.value buffer byteOffset =
      [littleEndian buffer byteOffset.toNat load.chanSize.bytes] := by
  simp [value, single]

end LoadUbo

theorem channel_at {chanSize : ChanSize} {buffer : Nat → BitVec 8} {byteOffset : BitVec 32}
    {i : Nat} (aligned : byteOffset.toNat % chanSize.bytes = 0)
    (inRow : byteOffset.toNat % 16 + (i * chanSize.bytes + chanSize.bytes) ≤ 16) :
    channel (row buffer chanSize (byteOffset >>> 4)) (byteOffset.toNat % 16 / chanSize.bytes + i) =
      littleEndian buffer (byteOffset.toNat + i * chanSize.bytes) chanSize.bytes := by
  rw [channel_row, LoadUbo.toNat_ushr]
  · congr 1
    cases chanSize <;> simp only [ChanSize.bytes] at * <;> omega
  · cases chanSize <;> simp only [ChanSize.bytes] at * <;> omega

theorem toNat_and_eight (offset : BitVec 32) :
    offset &&& 8#32 ≠ 0#32 ↔ offset.toNat % 16 = offset.toNat % 8 + 8 := by
  have masked : (offset &&& 8#32).toNat = (offset.toNat.testBit 3).toNat * 8 :=
    (BitVec.toNat_and ..).trans (Nat.and_two_pow offset.toNat 3)
  rw [ne_eq, ← BitVec.toNat_inj, masked, Nat.testBit_eq_decide_div_mod_eq]
  by_cases odd : offset.toNat / 2 ^ 3 % 2 = 1
  · simp only [odd]
    simp
    omega
  · simp only [odd]
    simp
    omega

/-- The components of the result lie in one row or the next, behind the offset. -/
theorem LoadUbo.Consistent.chanByteOffset {load : LoadUbo} {byteOffset : BitVec 32}
    (consistent : load.Consistent byteOffset) {i : Nat} (less : i < load.numComponents) :
    i * load.chanSize.bytes + load.chanSize.bytes ≤ load.numComponents * load.chanSize.bytes ∧
      (byteOffset + BitVec.ofNat 32 (i * load.chanSize.bytes)).toNat =
        byteOffset.toNat + i * load.chanSize.bytes := by
  have within : i * load.chanSize.bytes + load.chanSize.bytes ≤
      load.numComponents * load.chanSize.bytes := by
    rw [← Nat.succ_mul]
    exact Nat.mul_le_mul_right _ less
  have positive : 0 < load.chanSize.bytes := by
    cases load.chanSize <;> decide
  have fits := consistent.fits
  have noWrap := consistent.noWrap
  refine ⟨within, ?_⟩
  rw [BitVec.toNat_add, BitVec.toNat_ofNat, Nat.mod_eq_of_lt (a := i * _) (by omega),
    Nat.mod_eq_of_lt (by omega)]

theorem nirLowerUboVec4Lower_eq (load : LoadUbo) (buffer : Nat → BitVec 8)
    (byteOffset : BitVec 32) (consistent : load.Consistent byteOffset)
    (asserted : load.alignOffset % load.chanSize.bytes = 0) :
    nirLowerUboVec4Lower load buffer byteOffset = load.value buffer byteOffset := by
  have aligned := consistent.aligned asserted
  have fits := consistent.fits
  have mul_comm := Nat.mul_comm load.chanSize.bytes load.numComponents
  simp only [nirLowerUboVec4Lower, emitLoadUboVec4_row]
  split
  next known =>
    have offset := consistent.offset_mod (by omega)
    apply List.map_congr_left
    intro i member
    have within := (consistent.chanByteOffset (List.mem_range.mp member)).1
    rw [← offset, Nat.add_comm i]
    apply channel_at aligned
    omega
  next unknown =>
  split
  next single =>
    rw [extract_row (LoadUbo.toNat_ushr _) aligned, LoadUbo.value_of_single single]
  next =>
  split
  next half =>
    obtain ⟨eight, small⟩ := half
    have alignMul : load.alignMul = 8 := by omega
    have offset := consistent.offset
    rw [alignMul] at offset
    have less := consistent.less
    rw [← Nat.shiftLeft_add]
    split
    next high =>
      have place := (toNat_and_eight byteOffset).mp high
      have chan : load.alignOffset % 16 / load.chanSize.bytes + 8 / load.chanSize.bytes =
          byteOffset.toNat % 16 / load.chanSize.bytes := by
        generalize load.chanSize = chanSize at *
        cases chanSize <;> simp only [ChanSize.bytes] at * <;> omega
      rw [chan, nirChannels_shift]
      · apply List.map_congr_left
        intro i member
        have within := (consistent.chanByteOffset (List.mem_range.mp member)).1
        exact channel_at aligned (by omega)
      · generalize load.chanSize = chanSize at *
        cases chanSize <;> simp only [ChanSize.bytes] at * <;> omega
    next low =>
      have place := mt (toNat_and_eight byteOffset).mpr low
      have chan : load.alignOffset % 16 = byteOffset.toNat % 16 := by omega
      rw [chan, nirChannels_shift]
      · apply List.map_congr_left
        intro i member
        have within := (consistent.chanByteOffset (List.mem_range.mp member)).1
        exact channel_at aligned (by omega)
      · generalize load.chanSize = chanSize at *
        cases chanSize <;> simp only [ChanSize.bytes] at * <;> omega
  next =>
    apply List.map_congr_left
    intro i member
    obtain ⟨within, chanByteOffset⟩ := consistent.chanByteOffset (List.mem_range.mp member)
    have chanAligned : (byteOffset + BitVec.ofNat 32 (i * load.chanSize.bytes)).toNat %
        load.chanSize.bytes = 0 := by
      rw [chanByteOffset, Nat.add_mul_mod_self_right, aligned]
    have next : (byteOffset >>> 4 + 1).toNat = byteOffset.toNat / 16 + 1 := by
      have bound := byteOffset.isLt
      rw [BitVec.toNat_add, LoadUbo.toNat_ushr]
      apply Nat.mod_eq_of_lt
      change byteOffset.toNat / 16 + 1 < _
      omega
    rw [← chanByteOffset]
    split
    next same =>
      rw [← same]
      exact extract_row (LoadUbo.toNat_ushr _) chanAligned
    next differs =>
      apply extract_row _ chanAligned
      rw [← BitVec.toNat_inj, LoadUbo.toNat_ushr, LoadUbo.toNat_ushr, chanByteOffset] at differs
      rw [next, chanByteOffset]
      omega

/-- Three words that straddle two rows. -/
theorem nirLowerUboVec4Lower_straddling :
    nirLowerUboVec4Lower ⟨.four, 3, 4, 0⟩ (fun address => BitVec.ofNat 8 address) 8 =
      LoadUbo.value ⟨.four, 3, 4, 0⟩ (fun address => BitVec.ofNat 8 address) 8 :=
  nirLowerUboVec4Lower_eq ⟨.four, 3, 4, 0⟩ _ 8
    ⟨by decide, ⟨2, rfl⟩, by decide, by decide, by decide, by decide⟩ (by decide)

/-- A word at an offset that is no multiple of its size: the low half is lost. -/
theorem nirLowerUboVec4Lower_misaligned :
    LoadUbo.Consistent ⟨.four, 1, 4, 2⟩ 2 ∧
      nirLowerUboVec4Lower ⟨.four, 1, 4, 2⟩ (fun address => BitVec.ofNat 8 address) 2 ≠
        LoadUbo.value ⟨.four, 1, 4, 2⟩ (fun address => BitVec.ofNat 8 address) 2 := by
  constructor
  · exact ⟨by decide, ⟨2, rfl⟩, by decide, by decide, by decide, by decide⟩
  · have lowered : nirLowerUboVec4Lower ⟨.four, 1, 4, 2⟩ (fun address => BitVec.ofNat 8 address)
        2 = [channel (row (fun address => BitVec.ofNat 8 address) .four 0) 0] := by
      simp only [nirLowerUboVec4Lower, emitLoadUboVec4_row]
      rw [if_neg (by decide), if_pos trivial, nirVectorExtract_eq (by decide) (by decide)]
      rfl
    rw [lowered]
    decide

end UboVec4

end SpirvToDxil
