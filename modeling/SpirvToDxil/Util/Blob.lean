import SpirvToDxil.Bitstream.Bits

/-!
# Growing byte buffers

`util/blob.c`.  The written bytes are the first `size` bytes of the allocation;
what lies behind them is never read, so a blob holds the written bytes and the
size of the allocation, and `fits` keeps the one below the other.  Reallocation
of a growable blob is taken to succeed; a blob over a fixed buffer runs out.
-/

namespace SpirvToDxil

open Bitstream

def BLOB_INITIAL_SIZE : Nat := 4096

structure Blob where
  data : List UInt8
  allocated : Nat
  fixedAllocation : Bool
  outOfMemory : Bool
  fits : data.length ≤ allocated

namespace Blob

def size (blob : Blob) : Nat := blob.data.length

def init : Blob := ⟨[], 0, false, false, Nat.le_refl 0⟩

def initFixed (size : Nat) : Blob := ⟨[], size, true, false, Nat.zero_le size⟩

/-- The allocation `grow_to_fit` asks for, or `none` when the blob cannot take
`additional` more bytes. -/
def growToFit (blob : Blob) (additional : Nat) : Option Nat :=
  if blob.outOfMemory then none
  else if blob.size + additional ≤ blob.allocated then some blob.allocated
  else if blob.fixedAllocation then none
  else
    let toAllocate := if blob.allocated = 0 then BLOB_INITIAL_SIZE else blob.allocated * 2
    some (max toAllocate (blob.allocated + additional))

theorem growToFit_le {blob : Blob} {additional allocated : Nat}
    (grown : blob.growToFit additional = some allocated) :
    blob.size + additional ≤ allocated := by
  have bound : blob.size ≤ blob.allocated := blob.fits
  unfold growToFit at grown
  split_ifs at grown <;> simp only [Option.some.injEq] at grown <;> omega

/-- `blob_write_bytes`: the bytes are appended, or the blob is out of memory from
now on. -/
def writeBytes (blob : Blob) (bytes : List UInt8) : Blob × Bool :=
  match grown : blob.growToFit bytes.length with
  | none => ({ blob with outOfMemory := true }, false)
  | some allocated =>
    ({ blob with
        data := blob.data ++ bytes
        allocated := allocated
        fits := by simpa [size] using growToFit_le grown }, true)

/-- Writes one after the other, up to the first that fails. -/
def writeAll (blob : Blob) (writes : List (List UInt8)) : Option Blob :=
  writes.foldlM (fun blob bytes =>
    match blob.writeBytes bytes with
    | (blob, true) => some blob
    | (_, false) => none) blob

/-- `blob_reserve_bytes`: the reserved bytes are unspecified until they are
overwritten, and are zero here. -/
def reserveBytes (blob : Blob) (toWrite : Nat) : Blob × Option Nat :=
  match blob.writeBytes (List.replicate toWrite 0) with
  | (blob', true) => (blob', some blob.size)
  | (blob', false) => (blob', none)

/-- The multiple of `alignment` that `align_uintptr` rounds up to. -/
def alignUintptr (n alignment : Nat) : Nat := (n + alignment - 1) / alignment * alignment

/-- `blob_align`: zero bytes up to the next multiple of `alignment`. -/
def align (blob : Blob) (alignment : Nat) : Blob × Bool :=
  let newSize := alignUintptr blob.size alignment
  if blob.size < newSize then blob.writeBytes (List.replicate (newSize - blob.size) 0)
  else (blob, true)

/-- `blob_reserve_uint32`: the result of the alignment is not looked at. -/
def reserveUint32 (blob : Blob) : Blob × Option Nat :=
  (blob.align 4).1.reserveBytes 4

/-- `blob_overwrite_bytes` within the written bytes. -/
def overwriteBytes (blob : Blob) (offset : Nat) (bytes : List UInt8) : Option Blob :=
  if inside : offset + bytes.length ≤ blob.size then
    some { blob with
      data := blob.data.take offset ++ bytes ++ blob.data.drop (offset + bytes.length)
      fits := by
        have := blob.fits
        simp only [size] at inside
        simp
        omega }
  else none

def overwriteUint32 (blob : Blob) (offset value : Nat) : Option Blob :=
  blob.overwriteBytes offset (bytesOfNat 4 value)

/-- A blob that reallocates when it is full. -/
def Growable (blob : Blob) : Prop := blob.fixedAllocation = false ∧ blob.outOfMemory = false

theorem growable_init : init.Growable := ⟨rfl, rfl⟩

theorem writeBytes_growable {blob : Blob} (growable : blob.Growable) (bytes : List UInt8) :
    (blob.writeBytes bytes).2 = true ∧ (blob.writeBytes bytes).1.data = blob.data ++ bytes ∧
      (blob.writeBytes bytes).1.Growable := by
  have grows : blob.growToFit bytes.length ≠ none := by
    unfold growToFit
    rw [growable.1, growable.2]
    split_ifs <;> simp_all
  unfold writeBytes
  split
  · contradiction
  · exact ⟨rfl, rfl, growable⟩

theorem writeAll_growable {blob : Blob} (growable : blob.Growable) (writes : List (List UInt8)) :
    ∃ blob', blob.writeAll writes = some blob' ∧ blob'.Growable ∧
      blob'.data = blob.data ++ writes.flatten := by
  induction writes generalizing blob with
  | nil => exact ⟨blob, rfl, growable, by simp⟩
  | cons bytes writes inductionHypothesis =>
    obtain ⟨written, data, stillGrowable⟩ := writeBytes_growable growable bytes
    obtain ⟨blob', rest, growable', data'⟩ := inductionHypothesis stillGrowable
    refine ⟨blob', ?_, growable', ?_⟩
    · rw [writeAll, List.foldlM_cons]
      split
      · rename_i blob₁ equation
        rw [equation] at rest
        exact rest
      · rename_i blob₁ equation
        rw [equation] at written
        contradiction
    · rw [data', data, List.flatten_cons, List.append_assoc]

theorem reserveUint32_growable {blob : Blob} (growable : blob.Growable)
    (aligned : blob.size % 4 = 0) :
    blob.reserveUint32.2 = some blob.size ∧
      blob.reserveUint32.1.data = blob.data ++ List.replicate 4 0 ∧
      blob.reserveUint32.1.Growable := by
  have stays : blob.align 4 = (blob, true) := by
    have here : alignUintptr blob.size 4 = blob.size := by
      unfold alignUintptr
      omega
    simp [align, here]
  obtain ⟨written, data, stillGrowable⟩ := writeBytes_growable growable (List.replicate 4 0)
  unfold reserveUint32 reserveBytes
  rw [stays]
  split
  · rename_i result equation
    rw [equation] at data stillGrowable
    exact ⟨rfl, data, stillGrowable⟩
  · rename_i result equation
    rw [equation] at written
    contradiction

theorem overwriteBytes_inside {blob : Blob} {offset : Nat} {bytes : List UInt8}
    (inside : offset + bytes.length ≤ blob.size) :
    ∃ blob', blob.overwriteBytes offset bytes = some blob' ∧
      blob'.data = blob.data.take offset ++ bytes ++ blob.data.drop (offset + bytes.length) ∧
      blob'.fixedAllocation = blob.fixedAllocation ∧ blob'.outOfMemory = blob.outOfMemory := by
  refine ⟨_, dif_pos inside, rfl, rfl, rfl⟩

end Blob

end SpirvToDxil
