import SpirvToDxil.Nir.ExtractBits
import SpirvToDxil.Util.LittleEndian

/-!
# Accesses of the sizes that a backend has

A load or a store of a buffer becomes accesses of the sizes and alignments that a callback asks
for. A failed assertion is `none`.
-/

namespace SpirvToDxil

namespace MemAccess

open Components ExtractBits

inductive Intrinsic where
  | loadUbo
  | loadSsbo
  | storeSsbo
  deriving DecidableEq, Repr

structure SizeAlign where
  numComponents : Nat
  bitSize : Nat
  align : Nat
  deriving DecidableEq, Repr

def divRoundUp (a b : Nat) : Nat := (a + b - 1) / b

def combinedAlign (alignMul alignOffset : Nat) : Nat :=
  if alignOffset ≠ 0 then lowestBit alignOffset else alignMul

section Callback

def maxBitSize : Nat := 32

def minBitSize (lowerInt16 : Bool) : Nat := if lowerInt16 then 32 else 16

def closestBitSize (lowerInt16 : Bool) (bitSizeIn : Nat) : Nat :=
  max (minBitSize lowerInt16) (min maxBitSize bitSizeIn)

/-- The first loop, which is left after so many steps at the latest. -/
def decrease (target least bitSize : Nat) : Nat → Nat
  | 0 => bitSize
  | steps + 1 =>
    if target < bitSize / 8 ∧ least < bitSize then decrease target least (bitSize / 2) steps
    else bitSize

def increase (target bitSize : Nat) : Nat → Nat
  | 0 => bitSize
  | steps + 1 =>
    if bitSize / 8 * 4 < target ∧ bitSize < maxBitSize then increase target (bitSize * 2) steps
    else bitSize

def lowerMemAccessBitSizesCb (lowerInt16 : Bool) (intrin : Intrinsic)
    (bytes bitSizeIn alignMul alignOffset : Nat) : SizeAlign :=
  let minBitSize := minBitSize lowerInt16
  let closestBitSize := closestBitSize lowerInt16 bitSizeIn
  if intrin = .loadUbo then
    { align := closestBitSize / 8
      bitSize := closestBitSize
      numComponents := divRoundUp (min bytes 16 * 8) closestBitSize }
  else
    let align := combinedAlign alignMul alignOffset
    if align < minBitSize / 8 then
      let idealNumComponents :=
        if intrin = .loadSsbo then divRoundUp (bytes * 8) minBitSize else 32 / minBitSize
      { align := minBitSize / 8
        bitSize := minBitSize
        numComponents := min 4 idealNumComponents }
    else
      let target := min bytes align
      let bitSize := increase target (decrease target minBitSize closestBitSize maxBitSize)
        maxBitSize
      let numComponents :=
        if intrin = .loadSsbo then divRoundUp (bytes * 8) bitSize
        else max 1 (bytes * 8 / bitSize)
      { align := bitSize / 8
        bitSize := bitSize
        numComponents := min 4 numComponents }

end Callback

def isPowerOfTwoNonzero (v : Nat) : Prop := v ≠ 0 ∧ v &&& (v - 1) = 0

instance (v : Nat) : Decidable (isPowerOfTwoNonzero v) := inferInstanceAs (Decidable (_ ∧ _))

def SizeAlign.Valid (requested : SizeAlign) : Prop :=
  0 < requested.numComponents ∧ 0 < requested.bitSize ∧ isPowerOfTwoNonzero requested.align

instance (requested : SizeAlign) : Decidable requested.Valid :=
  inferInstanceAs (Decidable (_ ∧ _))

/-- `x & ~mask` -/
def andNot (x mask : Nat) : Nat := x - (x &&& mask)

structure Access where
  offset : Nat
  alignMul : Nat
  alignOffset : Nat
  numComponents : Nat
  bitSize : Nat
  deriving DecidableEq, Repr

def loadVector (memory : Nat → BitVec 8) (offset numComponents bitSize : Nat) :
    List (BitVec bitSize) :=
  (List.range numComponents).map fun i =>
    BitVec.ofNat bitSize (littleEndian memory (offset + i * (bitSize / 8)) (bitSize / 8))

@[simp]
theorem length_loadVector (memory : Nat → BitVec 8) (offset numComponents bitSize : Nat) :
    (loadVector memory offset numComponents bitSize).length = numComponents := by
  simp [loadVector]

/-- The bits of the vector are bits of the memory from the offset on. -/
theorem bit_loadVector (memory : Nat → BitVec 8) (offset : Nat) {numComponents bitSize i : Nat}
    (bytes : 8 ∣ bitSize) (less : i < numComponents * bitSize) :
    bit (loadVector memory offset numComponents bitSize) i = memoryBit memory (8 * offset + i) := by
  obtain ⟨size, rfl⟩ := bytes
  have positive : 0 < 8 * size := Nat.pos_of_mul_pos_left (Nat.zero_lt_of_lt less)
  have inside := Nat.mod_lt i positive
  have whole : i / 8 = i / (8 * size) * size + i % (8 * size) / 8 := by
    rw [← Nat.div_div_eq_div_mul, Nat.mod_mul_right_div_self, Nat.div_add_mod']
  have part : i % (8 * size) % 8 = i % 8 := Nat.mod_mul_right_mod i 8 size
  rw [loadVector, bit_map_range _ less, BitVec.getLsbD_ofNat, decide_eq_true inside,
    Bool.true_and, testBit_littleEndian, Nat.mul_div_cancel_left size (by decide),
    decide_eq_true inside, Bool.true_and, part, memoryBit, Nat.mul_add_div (by decide),
    Nat.mul_add_mod, whole, Nat.add_assoc]

def Access.load (access : Access) (memory : Nat → BitVec 8) : List (BitVec access.bitSize) :=
  loadVector memory access.offset access.numComponents access.bitSize

section Shift

variable {w : Nat}

/-- The count of a shift that is modulo the size, which is a power of two. -/
def shiftCount (w count : Nat) : Nat := count &&& (w - 1)

theorem shiftCount_two_pow {k count : Nat} (less : count < 2 ^ k) :
    shiftCount (2 ^ k) count = count := by
  rw [shiftCount, Nat.and_two_pow_sub_one_eq_mod, Nat.mod_eq_of_lt less]

def ushr (src0 : BitVec w) (src1 : Nat) : BitVec w := src0 >>> shiftCount w src1

def ishl (src0 : BitVec w) (src1 : Nat) : BitVec w := src0 <<< shiftCount w src1

def shiftLoadDataScalar (load : List (BitVec w)) (offset alignMask : Nat) : List (BitVec w) :=
  let pad := offset &&& alignMask
  let shift := pad * 8
  let shifted := load.map (ushr · shift)
  if 1 < load.length then
    let revShift := w - shift
    let revShifted := (load.map (ishl · revShift)).drop 1 ++ [0#w]
    if shift = 0 then load else List.zipWith (· ||| ·) shifted revShifted
  else shifted

end Shift

structure Load where
  intrin : Intrinsic
  numComponents : Nat
  bitSize : Nat
  alignMul : Nat
  alignOffset : Nat
  deriving DecidableEq, Repr

namespace Load

variable (lowerInt16 : Bool) (load : Load) (memory : Nat → BitVec 8) (offset : Nat)

def bytesRead : Nat := load.numComponents * (load.bitSize / 8)

def requested (bytes alignOffset : Nat) : SizeAlign :=
  lowerMemAccessBitSizesCb lowerInt16 load.intrin bytes load.bitSize load.alignMul alignOffset

/-- What a chunk of the load becomes: an access, and components in place of so many bytes. -/
structure Chunk where
  requested : SizeAlign
  access : Access
  chunks : List Def
  chunkBytes : Nat

/-- Components of one size out of a vector from a bit on. -/
def split (chunkData : Def) (firstBit chunkBytes : Nat) : Option (List Def) :=
  let chunkBitSize := min (8 * lowestBit chunkBytes) load.bitSize
  let chunkNumComponents := chunkBytes / (chunkBitSize / 8)
  (List.range chunkNumComponents).mapM fun i => do
    let component ← extractBits [chunkData] (firstBit + i * chunkBitSize) 1 chunkBitSize
    some ⟨chunkBitSize, component⟩

/-- One round of the loop of `lower_mem_load`. -/
def lowerChunk (chunkStart : Nat) : Option Chunk :=
  let bytesLeft := load.bytesRead - chunkStart
  let chunkAlignOffset := (load.alignOffset + chunkStart) % load.alignMul
  let chunkAlign := combinedAlign load.alignMul chunkAlignOffset
  let requested := load.requested lowerInt16 bytesLeft chunkAlignOffset
  if ¬requested.Valid then none
  else if load.alignMul < requested.align then
    if requested.align * 8 ≤ requested.bitSize then do
      let alignMask := requested.align - 1
      let chunkOffset := offset + chunkStart
      let access : Access :=
        { offset := andNot chunkOffset alignMask
          alignMul := requested.align
          alignOffset := 0
          numComponents := requested.numComponents
          bitSize := requested.bitSize }
      let maxPad := requested.align - chunkAlign
      let requestedBytes := requested.numComponents * requested.bitSize / 8
      let chunkBytes := min bytesLeft (requestedBytes - maxPad)
      let shifted := shiftLoadDataScalar (access.load memory) chunkOffset alignMask
      let chunks ← load.split ⟨requested.bitSize, shifted⟩ 0 chunkBytes
      some { requested, access, chunks, chunkBytes }
    else none
  else if chunkAlignOffset % requested.align ≠ 0 then
    let delta := chunkAlignOffset % requested.align
    let access : Access :=
      { offset := offset + chunkStart - delta
        alignMul := load.alignMul
        alignOffset := (chunkAlignOffset - delta) % load.alignMul
        numComponents := requested.numComponents
        bitSize := requested.bitSize }
    let chunkBytes := requested.numComponents * (requested.bitSize / 8)
    if 8 ≤ requested.bitSize ∧ delta < chunkBytes then do
      let chunks ← load.split ⟨requested.bitSize, access.load memory⟩ (delta * 8)
        (chunkBytes - delta)
      some { requested, access, chunks, chunkBytes := chunkBytes - delta }
    else none
  else
    let access : Access :=
      { offset := offset + chunkStart
        alignMul := load.alignMul
        alignOffset := chunkAlignOffset
        numComponents := requested.numComponents
        bitSize := requested.bitSize }
    some
      { requested
        access
        chunks := [⟨requested.bitSize, access.load memory⟩]
        chunkBytes := requested.numComponents * (requested.bitSize / 8) }

/-- What the loop has emitted, with the answers, and the chunks that it has collected. -/
structure Loop where
  accesses : List (SizeAlign × Access)
  chunks : List Def

def maxChunks : Nat := 128

/-- The loop from a chunk on. It is left after so many rounds at the latest. -/
def lowerChunks (chunkStart : Nat) (loop : Loop) : Nat → Option Loop
  | 0 => if chunkStart < load.bytesRead then none else some loop
  | rounds + 1 =>
    if chunkStart < load.bytesRead then do
      let chunk ← load.lowerChunk lowerInt16 memory offset chunkStart
      let chunks := loop.chunks ++ chunk.chunks
      if chunks.length ≤ maxChunks then
        lowerChunks (chunkStart + chunk.chunkBytes)
          { accesses := loop.accesses ++ [(chunk.requested, chunk.access)], chunks } rounds
      else none
    else some loop

/-- The accesses that a load becomes, the number of chunks, and the value in its place. -/
structure Lowering where
  accesses : List (SizeAlign × Access)
  numChunks : Nat
  value : List (BitVec load.bitSize)

/-- `lower_mem_load`. The load itself stays where it can be done as it is. -/
def lowerMemLoad : Option load.Lowering :=
  let requested := load.requested lowerInt16 load.bytesRead load.alignOffset
  let wholeAlign := combinedAlign load.alignMul load.alignOffset
  if ¬requested.Valid ∨ ¬isPowerOfTwoNonzero load.alignMul then none
  else if requested.numComponents = load.numComponents ∧ requested.bitSize = load.bitSize ∧
      requested.align ≤ wholeAlign then
    let access : Access :=
      { offset
        alignMul := load.alignMul
        alignOffset := load.alignOffset
        numComponents := load.numComponents
        bitSize := load.bitSize }
    some { accesses := [(requested, access)], numChunks := 0, value := access.load memory }
  else do
    let loop ← load.lowerChunks lowerInt16 memory offset 0 ⟨[], []⟩ load.bytesRead
    let value ← extractBits loop.chunks 0 load.numComponents load.bitSize
    some { accesses := loop.accesses, numChunks := loop.chunks.length, value }

end Load

def storeVector {w : Nat} (memory : Nat → BitVec 8) (offset : Nat) (data : List (BitVec w)) :
    Nat → BitVec 8 := fun address =>
  if offset ≤ address ∧ address < offset + data.length * (w / 8) then
    let byte := address - offset
    (data.getD (byte / (w / 8)) 0#w).extractLsb' (8 * (byte % (w / 8))) 8
  else memory address

inductive AtomicOp where
  | iand
  | ior
  deriving DecidableEq, Repr

def AtomicOp.eval (src0 src1 : BitVec 32) : AtomicOp → BitVec 32
  | iand => src0 &&& src1
  | ior => src0 ||| src1

inductive Emitted where
  | store (access : Access) (data : List (BitVec access.bitSize))
  | atomic (op : AtomicOp) (offset : Nat) (data : BitVec 32)

def Emitted.exec (memory : Nat → BitVec 8) : Emitted → Nat → BitVec 8
  | store access data => storeVector memory access.offset data
  | atomic op offset data =>
    storeVector memory offset ((loadVector memory offset 1 32).map (op.eval · data))

/-- A set of bytes, in words of 32 bits. -/
abbrev ByteSet := BitVec 128

namespace ByteSet

/-- So many bits from one on. -/
def range (first count : Nat) : ByteSet := BitVec.allOnes 128 >>> (128 - count) <<< first

def setRangeInsideWord (set : ByteSet) (first last : Nat) : Option ByteSet :=
  if first / 32 = last / 32 then some (set ||| range first (last + 1 - first)) else none

def clearCount (set : ByteSet) (first count : Nat) : ByteSet := set &&& ~~~range first count

/-- `BITSET_FFS`, less one. -/
def ffs (set : ByteSet) : Option Nat := (List.range 128).find? (set.getLsbD ·)

end ByteSet

structure Store where
  numComponents : Nat
  bitSize : Nat
  alignMul : Nat
  alignOffset : Nat
  writemask : Nat
  deriving DecidableEq, Repr

namespace Store

variable (lowerInt16 : Bool) (store : Store) (value : List (BitVec store.bitSize)) (offset : Nat)

def byteSize : Nat := store.bitSize / 8

def bytesWritten : Nat := store.numComponents * store.byteSize

def requested (bytes alignOffset : Nat) : SizeAlign :=
  lowerMemAccessBitSizesCb lowerInt16 .storeSsbo bytes store.bitSize store.alignMul alignOffset

def byteMask (mask : ByteSet) (i : Nat) : Nat → Option ByteSet
  | 0 => some mask
  | left + 1 => do
    let mask ←
      if store.writemask.testBit i then
        mask.setRangeInsideWord (i * store.byteSize) ((i + 1) * store.byteSize - 1)
      else some mask
    byteMask mask (i + 1) left

def chunkEnd (mask : ByteSet) (finish : Nat) : Nat → Nat
  | 0 => finish
  | left + 1 => if mask.getLsbD finish then chunkEnd mask (finish + 1) left else finish

/-- What a chunk of the store becomes, with the counts of its shifts of 32 bits. -/
structure Chunk where
  emitted : List Emitted
  shiftCounts : List Nat
  chunkBytes : Nat

/-- Two atomics change only the right bits of a word. -/
def lowerUnaligned (chunkStart maxChunkBytes chunkAlign : Nat) : Option Chunk := do
  let align := 4
  let alignMask := align - 1
  let chunkOffset := offset + chunkStart
  let pad := if chunkAlign < 4 then chunkOffset &&& alignMask else 0
  let chunkOffset := andNot chunkOffset alignMask
  let maxPad := if chunkAlign < align then align - chunkAlign else 0
  let chunkBytes := min maxChunkBytes (4 - maxPad)
  let chunkBits := chunkBytes * 8
  let data ←
    if chunkBits = 24 then do
      let data ← extractBits [⟨store.bitSize, value⟩] (chunkStart * 8) 3 8
      packBits (data ++ [0#8]) 32
    else do
      let data ← extractBits [⟨store.bitSize, value⟩] (chunkStart * 8) 1 chunkBits
      let data ← data[0]?
      some (data.setWidth 32)
  let iandMask := BitVec.ofNat 32 (1 <<< chunkBits - 1)
  let shift := pad * 8
  let shifted := decide (chunkAlign < align)
  let data := if shifted then ishl data shift else data
  let iandMask := ~~~(if shifted then ishl iandMask shift else iandMask)
  some
    { emitted := [.atomic .iand chunkOffset iandMask, .atomic .ior chunkOffset data]
      shiftCounts := if shifted then [chunkBits, shift] else [chunkBits]
      chunkBytes }

/-- One round of the loop of `lower_mem_store`, for bytes that follow one another. -/
def lowerChunk (chunkStart finish : Nat) : Option Chunk :=
  let maxChunkBytes := finish - chunkStart
  let chunkAlignOffset := (store.alignOffset + chunkStart) % store.alignMul
  let chunkAlign := combinedAlign store.alignMul chunkAlignOffset
  let requested := store.requested lowerInt16 maxChunkBytes chunkAlignOffset
  let chunkBytes := requested.numComponents * (requested.bitSize / 8)
  if ¬requested.Valid then none
  else if chunkAlign < requested.align ∨ maxChunkBytes < chunkBytes then
    if chunkBytes ≤ 4 then store.lowerUnaligned value offset chunkStart maxChunkBytes chunkAlign
    else none
  else do
    let packed ← extractBits [⟨store.bitSize, value⟩] (chunkStart * 8) requested.numComponents
      requested.bitSize
    let access : Access :=
      { offset := offset + chunkStart
        alignMul := store.alignMul
        alignOffset := chunkAlignOffset
        numComponents := requested.numComponents
        bitSize := requested.bitSize }
    some { emitted := [.store access packed], shiftCounts := [], chunkBytes }

structure Lowering where
  emitted : List Emitted
  shiftCounts : List Nat

/-- The loop over the bytes that are left. It is left after so many rounds at the latest. -/
def lowerChunks (mask : ByteSet) (done : Lowering) : Nat → Option Lowering
  | 0 => if mask.ffs.isSome then none else some done
  | rounds + 1 =>
    match mask.ffs with
    | none => some done
    | some chunkStart => do
      let finish := chunkEnd mask (chunkStart + 1) (store.bytesWritten - (chunkStart + 1))
      let chunk ← store.lowerChunk lowerInt16 value offset chunkStart finish
      lowerChunks (mask.clearCount chunkStart chunk.chunkBytes)
        { emitted := done.emitted ++ chunk.emitted
          shiftCounts := done.shiftCounts ++ chunk.shiftCounts } rounds

/-- `lower_mem_store`. The store itself stays where it can be done as it is. -/
def lowerMemStore : Option Lowering :=
  let requested := store.requested lowerInt16 store.bytesWritten store.alignOffset
  let wholeAlign := combinedAlign store.alignMul store.alignOffset
  if 2 ^ store.numComponents ≤ store.writemask then none
  else if ¬requested.Valid ∨ ¬isPowerOfTwoNonzero store.alignMul then none
  else if requested.numComponents = store.numComponents ∧ requested.bitSize = store.bitSize ∧
      requested.align ≤ wholeAlign ∧ store.writemask = 2 ^ store.numComponents - 1 then
    let access : Access :=
      { offset
        alignMul := store.alignMul
        alignOffset := store.alignOffset
        numComponents := store.numComponents
        bitSize := store.bitSize }
    some { emitted := [.store access value], shiftCounts := [] }
  else do
    let mask ← store.byteMask 0#128 0 store.numComponents
    store.lowerChunks lowerInt16 value offset mask ⟨[], []⟩ store.bytesWritten

end Store

end MemAccess

end SpirvToDxil
