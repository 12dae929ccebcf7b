import SpirvToDxil.Util.Blob

/-!
# Calls on blobs and blob readers

`util/blob.c` with an allocator that may refuse: `realloc` says which sizes it grants. A reader
is a position in its data, which alignment can move past the end; what a read gives back is a
place in the data.
-/

namespace SpirvToDxil

open Bitstream

/-- The types that are written at multiples of their size; an `intptr_t` has eight bytes. -/
inductive ValueType where
  | uint8
  | uint16
  | uint32
  | uint64
  deriving DecidableEq

def ValueType.size : ValueType → Nat
  | uint8 => 1
  | uint16 => 2
  | uint32 => 4
  | uint64 => 8

/-! ## Writing -/

namespace Blob

/-- `grow_to_fit`. -/
def growToFitWith (realloc : Nat → Bool) (blob : Blob) (additional : Nat) : Option Nat :=
  if blob.outOfMemory then none
  else if blob.size + additional ≤ blob.allocated then some blob.allocated
  else if blob.fixedAllocation then none
  else
    let toAllocate := max (if blob.allocated = 0 then BLOB_INITIAL_SIZE else blob.allocated * 2)
      (blob.allocated + additional)
    if realloc toAllocate then some toAllocate else none

/-- The blob of the other functions is the one whose allocator grants everything. -/
theorem growToFitWith_true (blob : Blob) (additional : Nat) :
    blob.growToFitWith (fun _ => true) additional = blob.growToFit additional := by
  simp [growToFitWith, growToFit]

theorem growToFitWith_le {realloc : Nat → Bool} {blob : Blob} {additional allocated : Nat}
    (grown : blob.growToFitWith realloc additional = some allocated) :
    blob.size + additional ≤ allocated := by
  have bound : blob.size ≤ blob.allocated := blob.fits
  simp only [growToFitWith] at grown
  split_ifs at grown <;> simp only [Option.some.injEq] at grown <;> omega

/-- `blob_write_bytes`. -/
def writeBytesWith (realloc : Nat → Bool) (blob : Blob) (bytes : List UInt8) : Blob × Bool :=
  match grown : blob.growToFitWith realloc bytes.length with
  | none => ({ blob with outOfMemory := true }, false)
  | some allocated =>
    ({ blob with
        data := blob.data ++ bytes
        allocated := allocated
        fits := by simpa [size] using growToFitWith_le grown }, true)

/-- `blob_align`. -/
def alignWith (realloc : Nat → Bool) (blob : Blob) (alignment : Nat) : Blob × Bool :=
  let newSize := alignUintptr blob.size alignment
  if blob.size < newSize then
    blob.writeBytesWith realloc (List.replicate (newSize - blob.size) 0)
  else (blob, true)

/-- `BLOB_WRITE_TYPE` and the reservations of a type, which do not look whether the alignment
failed. -/
def writeAligned (realloc : Nat → Bool) (blob : Blob) (type : ValueType) (bytes : List UInt8) :
    Blob × Bool :=
  (blob.alignWith realloc type.size).1.writeBytesWith realloc bytes

end Blob

/-- A call on a blob. Reserved bytes are what the allocation happens to hold. -/
inductive BlobCall where
  | writeBytes (bytes : List UInt8)
  | writeString (string : List UInt8) (terminated : 0 ∉ string)
  | writeValue (type : ValueType) (value : BitVec (8 * type.size))
  | align (log : Nat)
  | reserveBytes (found : List UInt8)
  | reserveValue (type : ValueType) (found : List UInt8) (size : found.length = type.size)
  | overwriteBytes (offset : Nat) (bytes : List UInt8)

namespace Blob

def step (realloc : Nat → Bool) (blob : Blob) : BlobCall → Blob × Bool
  | .writeBytes bytes => blob.writeBytesWith realloc bytes
  | .writeString string _ => blob.writeBytesWith realloc (string ++ [0])
  | .writeValue type value => blob.writeAligned realloc type (bytesOfNat type.size value.toNat)
  | .align log => blob.alignWith realloc (2 ^ log)
  | .reserveBytes found => blob.writeBytesWith realloc found
  | .reserveValue type found _ => blob.writeAligned realloc type found
  | .overwriteBytes offset bytes =>
    match blob.overwriteBytes offset bytes with
    | some blob' => (blob', true)
    | none => (blob, false)

def run (blob : Blob) : List (BlobCall × (Nat → Bool)) → Blob × List Bool
  | [] => (blob, [])
  | (call, realloc) :: calls =>
    let stepped := blob.step realloc call
    let rest := stepped.1.run calls
    (rest.1, stepped.2 :: rest.2)

end Blob

/-! ## Reading -/

/-- `struct blob_reader`; `current` counts from the start of the data. -/
structure BlobReader where
  data : List UInt8
  current : Int
  overrun : Bool
  deriving DecidableEq

structure BlobPlace where
  offset : Int
  size : Nat
  deriving DecidableEq

def BlobPlace.bytes (data : List UInt8) (place : BlobPlace) : List UInt8 :=
  (data.drop place.offset.toNat).take place.size

def BlobPlace.Inside (data : List UInt8) (place : BlobPlace) : Prop :=
  0 ≤ place.offset ∧ place.offset + place.size ≤ data.length

namespace BlobReader

def init (data : List UInt8) : BlobReader := ⟨data, 0, false⟩

def align (blob : BlobReader) (alignment : Nat) : BlobReader :=
  { blob with current := (blob.current + alignment - 1) / alignment * alignment }

/-- `blob_read_bytes` with `ensure_can_read`. -/
def readBytes (blob : BlobReader) (size : Nat) : Option BlobPlace × BlobReader :=
  if blob.overrun then (none, blob)
  else if blob.current ≤ blob.data.length ∧ size ≤ blob.data.length - blob.current then
    (some ⟨blob.current, size⟩, { blob with current := blob.current + size })
  else (none, { blob with overrun := true })

/-- `blob_read_string`. The size is an `int`, and `overrun` is looked at in an assertion only. -/
def readString (blob : BlobReader) : Option BlobPlace × BlobReader :=
  if blob.data.length ≤ blob.current then (none, { blob with overrun := true })
  else
    match (blob.data.drop blob.current.toNat).findIdx? (· = 0) with
    | none => (none, { blob with overrun := true })
    | some nul =>
      (some ⟨blob.current, nul + 1⟩,
        { blob with current := blob.current + (BitVec.ofNat 32 (nul + 1)).toInt })

end BlobReader

inductive BlobRead where
  | bytes (size : Nat)
  | string
  | value (type : ValueType)
  | align (log : Nat)
  deriving DecidableEq

namespace BlobReader

/-- One call on a reader, and where the bytes are that it gives back. -/
def step (blob : BlobReader) : BlobRead → List (Option BlobPlace) × BlobReader
  | .bytes size => ([(blob.readBytes size).1], (blob.readBytes size).2)
  | .string => ([blob.readString.1], blob.readString.2)
  | .value type =>
    ([((blob.align type.size).readBytes type.size).1],
      ((blob.align type.size).readBytes type.size).2)
  | .align log => ([], blob.align (2 ^ log))

def run (blob : BlobReader) : List BlobRead → List (BlobRead × Option BlobPlace) × BlobReader
  | [] => ([], blob)
  | read :: reads =>
    let stepped := blob.step read
    let rest := stepped.2.run reads
    (stepped.1.map (read, ·) ++ rest.1, rest.2)

end BlobReader

/-- What a caller gets: a number, which is zero for bytes that are not there, or bytes. -/
inductive ReadValue where
  | number (value : Nat)
  | bytes (bytes : Option (List UInt8))
  deriving DecidableEq

def BlobRead.returned (data : List UInt8) (place : Option BlobPlace) : BlobRead → ReadValue
  | .value _ => .number (natOfBytes ((place.map (BlobPlace.bytes data)).getD []))
  | _ => .bytes (place.map (BlobPlace.bytes data))

end SpirvToDxil
