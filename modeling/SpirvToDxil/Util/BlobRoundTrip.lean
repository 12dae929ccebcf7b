import SpirvToDxil.Util.BlobCalls

/-!
# What a blob holds

A blob without failed writes is a sequence of items, each behind its padding; overwriting
replaces bytes of items in place. Readers that follow the items get them back. `step_full` and
`step_fails` are about blobs that ran out, and the bounds of a reader need no items.
-/

namespace SpirvToDxil

open Bitstream
open Blob (alignUintptr)

theorem le_alignUintptr (n : Nat) {alignment : Nat} (positive : 0 < alignment) :
    n ≤ alignUintptr n alignment := by
  have parts := Nat.div_add_mod (n + alignment - 1) alignment
  have below := Nat.mod_lt (n + alignment - 1) positive
  rw [alignUintptr, Nat.mul_comm]
  omega

theorem alignUintptr_lt (n : Nat) {alignment : Nat} (positive : 0 < alignment) :
    alignUintptr n alignment < n + alignment := by
  have below := Nat.div_mul_le_self (n + alignment - 1) alignment
  rw [alignUintptr]
  omega

theorem alignUintptr_one (n : Nat) : alignUintptr n 1 = n := by simp [alignUintptr]

theorem ValueType.size_pos (type : ValueType) : 0 < type.size := by cases type <;> decide

/-! ## Writes that fail -/

namespace Blob

variable (realloc : Nat → Bool) (blob : Blob)

/-- Bytes are appended, or the blob stays as it is and is out of memory. -/
theorem writeBytesWith_cases (bytes : List UInt8) :
    ((blob.writeBytesWith realloc bytes).2 = true ∧ blob.outOfMemory = false ∧
      (blob.writeBytesWith realloc bytes).1.data = blob.data ++ bytes ∧
      (blob.writeBytesWith realloc bytes).1.outOfMemory = false) ∨
    ((blob.writeBytesWith realloc bytes).2 = false ∧
      (blob.writeBytesWith realloc bytes).1.data = blob.data ∧
      (blob.writeBytesWith realloc bytes).1.outOfMemory = true) := by
  unfold writeBytesWith
  split
  · exact .inr ⟨rfl, rfl, rfl⟩
  · next allocated grown =>
      have memory : blob.outOfMemory = false := by
        simp only [growToFitWith] at grown
        split at grown
        · cases grown
        · next memory => simpa using memory
      exact .inl ⟨rfl, memory, rfl, memory⟩

theorem alignWith_cases (alignment : Nat) (positive : 0 < alignment) :
    ((blob.alignWith realloc alignment).2 = true ∧
      (blob.alignWith realloc alignment).1.data =
        blob.data ++ List.replicate (alignUintptr blob.size alignment - blob.size) 0 ∧
      (blob.alignWith realloc alignment).1.outOfMemory = blob.outOfMemory ∧
      (blob.outOfMemory = true → alignUintptr blob.size alignment = blob.size)) ∨
    ((blob.alignWith realloc alignment).2 = false ∧
      (blob.alignWith realloc alignment).1.data = blob.data ∧
      (blob.alignWith realloc alignment).1.outOfMemory = true) := by
  simp only [alignWith]
  split
  · obtain ⟨written, memory, data, after⟩ | failed := blob.writeBytesWith_cases realloc
      (List.replicate (alignUintptr blob.size alignment - blob.size) 0)
    · exact .inl ⟨written, data, after.trans memory.symm, fun full => by simp [full] at memory⟩
    · exact .inr failed
  · next aligned =>
      have here := Nat.le_antisymm (Nat.not_lt.mp aligned) (le_alignUintptr blob.size positive)
      refine .inl ⟨rfl, ?_, rfl, fun _ => here⟩
      rw [here, Nat.sub_self, List.replicate_zero, List.append_nil]

theorem writeAligned_cases (type : ValueType) (bytes : List UInt8) :
    ((blob.writeAligned realloc type bytes).2 = true ∧ blob.outOfMemory = false ∧
      (blob.writeAligned realloc type bytes).1.data = blob.data ++
        List.replicate (alignUintptr blob.size type.size - blob.size) 0 ++ bytes ∧
      (blob.writeAligned realloc type bytes).1.outOfMemory = false) ∨
    ((blob.writeAligned realloc type bytes).2 = false ∧
      (∃ k < type.size, (blob.writeAligned realloc type bytes).1.data =
        blob.data ++ List.replicate k 0) ∧
      (blob.outOfMemory = true → (blob.writeAligned realloc type bytes).1.data = blob.data) ∧
      (blob.writeAligned realloc type bytes).1.outOfMemory = true) := by
  have positive := type.size_pos
  rw [writeAligned]
  obtain ⟨written, memory, data, after⟩ | ⟨failed, data, after⟩ :=
    (blob.alignWith realloc type.size).1.writeBytesWith_cases realloc bytes
  · obtain ⟨_, aligned, same, _⟩ | ⟨_, _, full⟩ := blob.alignWith_cases realloc type.size positive
    · exact .inl ⟨written, same ▸ memory, by rw [data, aligned], after⟩
    · rw [full] at memory
      cases memory
  · refine .inr ⟨failed, ?_, ?_, after⟩
    · rw [data]
      obtain ⟨_, aligned, _⟩ | ⟨_, unaligned, _⟩ :=
        blob.alignWith_cases realloc type.size positive
      · have below := alignUintptr_lt blob.size positive
        exact ⟨_, by omega, aligned⟩
      · exact ⟨0, positive, by rw [unaligned, List.replicate_zero, List.append_nil]⟩
    · intro full
      rw [data]
      obtain ⟨_, aligned, _, none⟩ | ⟨_, unaligned, _⟩ :=
        blob.alignWith_cases realloc type.size positive
      · rw [aligned, none full, Nat.sub_self, List.replicate_zero, List.append_nil]
      · exact unaligned

end Blob

def BlobCall.alignment : BlobCall → Nat
  | .writeValue type _ => type.size
  | .reserveValue type _ _ => type.size
  | .align log => 2 ^ log
  | _ => 1

def BlobCall.Overwrites : BlobCall → Prop
  | .overwriteBytes _ _ => True
  | _ => False

/-- The calls that add nothing to a blob of `size` bytes. -/
def BlobCall.Adjusts (size : Nat) (call : BlobCall) : Prop :=
  call.Overwrites ∨ ∃ log, call = .align log ∧ alignUintptr size (2 ^ log) = size

namespace Blob

variable (realloc : Nat → Bool) {blob : Blob}

theorem overwriteBytes_spec {blob' : Blob} {offset : Nat} {bytes : List UInt8}
    (written : blob.overwriteBytes offset bytes = some blob') :
    offset + bytes.length ≤ blob.size ∧
      blob'.data = blob.data.take offset ++ bytes ++ blob.data.drop (offset + bytes.length) ∧
      blob'.outOfMemory = blob.outOfMemory := by
  unfold overwriteBytes at written
  split at written
  · next inside =>
      cases written
      exact ⟨inside, rfl, rfl⟩
  · cases written

/-- A write that fails leaves what was written, up to padding. -/
theorem step_fails {call : BlobCall} (writes : ¬call.Overwrites)
    (failed : (blob.step realloc call).2 = false) :
    (∃ k < call.alignment, (blob.step realloc call).1.data = blob.data ++ List.replicate k 0) ∧
      (blob.step realloc call).1.outOfMemory = true := by
  have appends : ∀ bytes, (blob.writeBytesWith realloc bytes).2 = false →
      (∃ k < 1, (blob.writeBytesWith realloc bytes).1.data = blob.data ++ List.replicate k 0) ∧
        (blob.writeBytesWith realloc bytes).1.outOfMemory = true := by
    intro bytes failed
    obtain ⟨written, _⟩ | ⟨_, data, full⟩ := blob.writeBytesWith_cases realloc bytes
    · rw [failed] at written
      cases written
    · exact ⟨⟨0, Nat.one_pos, by rw [data, List.replicate_zero, List.append_nil]⟩, full⟩
  have appendsAligned : ∀ type bytes, (blob.writeAligned realloc type bytes).2 = false →
      (∃ k < type.size, (blob.writeAligned realloc type bytes).1.data =
        blob.data ++ List.replicate k 0) ∧
        (blob.writeAligned realloc type bytes).1.outOfMemory = true := by
    intro type bytes failed
    obtain ⟨written, _⟩ | ⟨_, data, _, full⟩ := blob.writeAligned_cases realloc type bytes
    · rw [failed] at written
      cases written
    · exact ⟨data, full⟩
  cases call with
  | writeBytes bytes => exact appends bytes failed
  | writeString string _ => exact appends _ failed
  | writeValue type value => exact appendsAligned type _ failed
  | align log =>
      obtain ⟨aligned, _⟩ | ⟨_, data, full⟩ :=
        blob.alignWith_cases realloc (2 ^ log) (Nat.two_pow_pos log)
      · rw [BlobCall.alignment]
        exact absurd (aligned.symm.trans failed) (by decide)
      · exact ⟨⟨0, Nat.two_pow_pos log, by rw [List.replicate_zero, List.append_nil]; exact data⟩,
          full⟩
  | reserveBytes found => exact appends found failed
  | reserveValue type found _ => exact appendsAligned type found failed
  | overwriteBytes => exact absurd trivial writes

theorem step_full (call : BlobCall) (full : blob.outOfMemory = true) :
    (blob.step realloc call).1.size = blob.size ∧
      (blob.step realloc call).1.outOfMemory = true ∧
      ((blob.step realloc call).2 = true → call.Adjusts blob.size) := by
  have appends : ∀ bytes, (blob.writeBytesWith realloc bytes).1.size = blob.size ∧
      (blob.writeBytesWith realloc bytes).1.outOfMemory = true ∧
      (blob.writeBytesWith realloc bytes).2 = false := by
    intro bytes
    obtain ⟨_, memory, _⟩ | ⟨failed, data, after⟩ := blob.writeBytesWith_cases realloc bytes
    · rw [full] at memory
      cases memory
    · exact ⟨congrArg List.length data, after, failed⟩
  have appendsAligned : ∀ type bytes, (blob.writeAligned realloc type bytes).1.size = blob.size ∧
      (blob.writeAligned realloc type bytes).1.outOfMemory = true ∧
      (blob.writeAligned realloc type bytes).2 = false := by
    intro type bytes
    obtain ⟨_, memory, _⟩ | ⟨failed, _, data, after⟩ := blob.writeAligned_cases realloc type bytes
    · rw [full] at memory
      cases memory
    · exact ⟨congrArg List.length (data full), after, failed⟩
  have fails : ∀ {result : Blob × Bool}, result.1.size = blob.size ∧
      result.1.outOfMemory = true ∧ result.2 = false →
      result.1.size = blob.size ∧ result.1.outOfMemory = true ∧
        (result.2 = true → call.Adjusts blob.size) :=
    fun ⟨size, after, failed⟩ =>
      ⟨size, after, fun written => by rw [failed] at written; cases written⟩
  cases call with
  | writeBytes bytes => exact fails (appends bytes)
  | writeString string _ => exact fails (appends _)
  | writeValue type value => exact fails (appendsAligned type _)
  | align log =>
      obtain ⟨_, data, same, none⟩ | ⟨failed, data, after⟩ :=
        blob.alignWith_cases realloc (2 ^ log) (Nat.two_pow_pos log)
      · have aligned := none full
        rw [aligned, Nat.sub_self, List.replicate_zero, List.append_nil] at data
        exact ⟨congrArg List.length data, same.trans full, fun _ => .inr ⟨log, rfl, aligned⟩⟩
      · exact fails ⟨congrArg List.length data, after, failed⟩
  | reserveBytes found => exact fails (appends found)
  | reserveValue type found _ => exact fails (appendsAligned type found)
  | overwriteBytes offset bytes =>
      rw [step]
      split
      · next blob' written =>
          obtain ⟨inside, data, same⟩ := overwriteBytes_spec written
          refine ⟨?_, same.trans full, fun _ => .inl trivial⟩
          rw [size] at inside
          simp only [size, data, List.length_append, List.length_take, List.length_drop]
          omega
      · exact ⟨rfl, full, fun _ => .inl trivial⟩

/-- After a failure only calls that add nothing succeed. -/
theorem run_full (full : blob.outOfMemory = true) (calls : List (BlobCall × (Nat → Bool))) :
    (blob.run calls).1.size = blob.size ∧
      ∀ entry succeeded, (entry, succeeded) ∈ calls.zip (blob.run calls).2 →
        succeeded = true → entry.1.Adjusts blob.size := by
  induction calls generalizing blob with
  | nil => exact ⟨rfl, fun _ _ member => absurd member List.not_mem_nil⟩
  | cons entry calls inductionHypothesis =>
      obtain ⟨call, realloc⟩ := entry
      obtain ⟨size, after, adjusts⟩ := step_full realloc call full
      obtain ⟨sizeRest, rest⟩ := inductionHypothesis after
      rw [run]
      refine ⟨sizeRest.trans size, ?_⟩
      intro entry succeeded member written
      rw [List.zip_cons_cons, List.mem_cons] at member
      cases member with
      | inl here =>
          obtain ⟨rfl, rfl⟩ := Prod.mk.inj here
          exact adjusts written
      | inr later =>
          rw [← size]
          exact rest entry succeeded later written

end Blob

/-! ## Items -/

def BlobRead.alignment : BlobRead → Nat
  | .bytes _ => 1
  | .string => 1
  | .value type => type.size
  | .align log => 2 ^ log

/-- How many bytes a read takes, a string's terminator tells. -/
def BlobRead.Fits (length : Nat) : BlobRead → Prop
  | .bytes size => length = size
  | .string => True
  | .value type => length = type.size
  | .align _ => length = 0

structure BlobItem where
  padding : List UInt8
  content : List UInt8
  read : BlobRead

namespace BlobItem

def bytes (items : List BlobItem) : List UInt8 :=
  items.flatMap fun item => item.padding ++ item.content

/-- `old` from `start` on with `new` written over it at `offset`. -/
def patchBytes (start offset : Nat) (new old : List UInt8) : List UInt8 :=
  old.mapIdx fun k byte => if offset ≤ start + k then new.getD (start + k - offset) byte else byte

def patch (offset : Nat) (new : List UInt8) : Nat → List BlobItem → List BlobItem
  | _, [] => []
  | start, item :: items =>
    { padding := patchBytes start offset new item.padding
      content := patchBytes (start + item.padding.length) offset new item.content
      read := item.read } ::
      patch offset new (start + item.padding.length + item.content.length) items

/-- The items lie one behind the other, each at a multiple of its alignment. -/
def Laid : Nat → List BlobItem → Prop
  | _, [] => True
  | start, item :: items =>
    start + item.padding.length = alignUintptr start item.read.alignment ∧
      item.read.Fits item.content.length ∧
      Laid (start + item.padding.length + item.content.length) items

def Terminated (item : BlobItem) : Prop :=
  item.read = .string → ∃ string, 0 ∉ string ∧ item.content = string ++ [0]

def values (item : BlobItem) : List ReadValue :=
  match item.read with
  | .value _ => [.number (natOfBytes item.content)]
  | .align _ => []
  | _ => [.bytes (some item.content)]

end BlobItem

namespace BlobCall

def content : BlobCall → List UInt8
  | writeBytes bytes => bytes
  | writeString string _ => string ++ [0]
  | writeValue type value => bytesOfNat type.size value.toNat
  | reserveBytes found => found
  | reserveValue _ found _ => found
  | _ => []

def read : BlobCall → BlobRead
  | writeBytes bytes => .bytes bytes.length
  | writeString _ _ => .string
  | writeValue type _ => .value type
  | align log => .align log
  | reserveBytes found => .bytes found.length
  | reserveValue type _ _ => .value type
  | overwriteBytes _ _ => .align 0

def values : BlobCall → List ReadValue
  | writeBytes bytes => [.bytes (some bytes)]
  | writeString string _ => [.bytes (some (string ++ [0]))]
  | writeValue _ value => [.number value.toNat]
  | reserveBytes found => [.bytes (some found)]
  | reserveValue _ found _ => [.number (natOfBytes found)]
  | _ => []

def item (size : Nat) (call : BlobCall) : BlobItem where
  padding := List.replicate (alignUintptr size call.alignment - size) 0
  content := call.content
  read := call.read

def perform (items : List BlobItem) : BlobCall → List BlobItem
  | overwriteBytes offset bytes => BlobItem.patch offset bytes 0 items
  | call => items ++ [call.item (BlobItem.bytes items).length]

end BlobCall

namespace BlobItem

@[simp] theorem length_patchBytes (start offset : Nat) (new old : List UInt8) :
    (patchBytes start offset new old).length = old.length := by simp [patchBytes]

theorem patchBytes_append (start offset : Nat) (new first second : List UInt8) :
    patchBytes start offset new (first ++ second) = patchBytes start offset new first ++
      patchBytes (start + first.length) offset new second := by
  rw [patchBytes, List.mapIdx_append]
  congr 1
  apply List.mapIdx_eq_mapIdx_iff.mpr
  intro k _
  rw [Nat.add_comm k, Nat.add_assoc]

theorem bytes_patch (start offset : Nat) (new : List UInt8) (items : List BlobItem) :
    bytes (patch offset new start items) = patchBytes start offset new (bytes items) := by
  induction items generalizing start with
  | nil => rfl
  | cons item items inductionHypothesis =>
      have rest := inductionHypothesis (start + item.padding.length + item.content.length)
      simp only [bytes, patch, List.flatMap_cons] at rest ⊢
      rw [rest, patchBytes_append, patchBytes_append, List.length_append, Nat.add_assoc]

theorem patchBytes_inside {offset : Nat} {new old : List UInt8}
    (inside : offset + new.length ≤ old.length) :
    patchBytes 0 offset new old = old.take offset ++ new ++ old.drop (offset + new.length) := by
  have front : (old.take offset).length = offset := List.length_take_of_le (by omega)
  apply List.ext_getElem?
  intro k
  rw [patchBytes, List.getElem?_mapIdx, Nat.zero_add]
  by_cases before : k < offset
  · rw [List.append_assoc, List.getElem?_append_left (by omega), List.getElem?_take_of_lt before]
    simp only [if_neg (Nat.not_le.mpr before), Option.map_id']
  · simp only [if_pos (Nat.not_lt.mp before)]
    by_cases replaced : k < offset + new.length
    · rw [List.getElem?_append_left (by rw [List.length_append]; omega),
        List.getElem?_append_right (by omega), front,
        List.getElem?_eq_getElem (by omega : k < old.length),
        List.getElem?_eq_getElem (by omega : k - offset < new.length), Option.map_some,
        List.getD_eq_getElem?_getD, List.getElem?_eq_getElem (by omega : k - offset < new.length),
        Option.getD_some]
    · rw [List.getElem?_append_right (by rw [List.length_append]; omega), List.length_append, front,
        List.getElem?_drop]
      have past : new[k - offset]? = none := List.getElem?_eq_none (by omega)
      simp only [List.getD_eq_getElem?_getD, past, Option.getD_none, Option.map_id']
      congr 1
      omega

theorem Laid.append {start : Nat} {items : List BlobItem} {item : BlobItem}
    (laid : Laid start items)
    (here : start + (bytes items).length + item.padding.length =
      alignUintptr (start + (bytes items).length) item.read.alignment)
    (fits : item.read.Fits item.content.length) : Laid start (items ++ [item]) := by
  induction items generalizing start with
  | nil => exact ⟨here, fits, trivial⟩
  | cons first items inductionHypothesis =>
      obtain ⟨aligned, firstFits, rest⟩ := laid
      refine ⟨aligned, firstFits, inductionHypothesis rest ?_⟩
      simpa [bytes, Nat.add_assoc] using here

theorem Laid.patch {start offset : Nat} {new : List UInt8} {items : List BlobItem}
    (laid : Laid start items) : Laid start (BlobItem.patch offset new start items) := by
  induction items generalizing start with
  | nil => trivial
  | cons item items inductionHypothesis =>
      obtain ⟨aligned, fits, rest⟩ := laid
      simp only [BlobItem.patch, Laid, length_patchBytes]
      exact ⟨aligned, fits, inductionHypothesis rest⟩

end BlobItem

namespace Blob

variable (realloc : Nat → Bool) {blob : Blob}

/-- A call that succeeds does to the bytes what it does to the items. -/
theorem step_items {items : List BlobItem} (data : blob.data = BlobItem.bytes items)
    (call : BlobCall)
    (succeeded : (blob.step realloc call).2 = true) :
    (blob.step realloc call).1.data = BlobItem.bytes (call.perform items) := by
  have size : blob.size = (BlobItem.bytes items).length := congrArg List.length data
  have appended :
      ∀ call : BlobCall, BlobItem.bytes (items ++ [call.item (BlobItem.bytes items).length]) =
      blob.data ++ List.replicate (alignUintptr blob.size call.alignment - blob.size) 0 ++
        call.content := by
    intro call
    simp [BlobItem.bytes, BlobCall.item, data, size]
  have appends : ∀ bytes, (blob.writeBytesWith realloc bytes).2 = true →
      (blob.writeBytesWith realloc bytes).1.data =
        blob.data ++ List.replicate (alignUintptr blob.size 1 - blob.size) 0 ++ bytes := by
    intro bytes succeeded
    obtain ⟨_, _, data, _⟩ | ⟨failed, _⟩ := blob.writeBytesWith_cases realloc bytes
    · rw [data, alignUintptr_one, Nat.sub_self, List.replicate_zero, List.append_nil]
    · rw [succeeded] at failed
      cases failed
  have appendsAligned : ∀ type bytes, (blob.writeAligned realloc type bytes).2 = true →
      (blob.writeAligned realloc type bytes).1.data =
        blob.data ++ List.replicate (alignUintptr blob.size type.size - blob.size) 0 ++ bytes := by
    intro type bytes succeeded
    obtain ⟨_, _, data, _⟩ | ⟨failed, _⟩ := blob.writeAligned_cases realloc type bytes
    · exact data
    · rw [succeeded] at failed
      cases failed
  cases call with
  | writeBytes bytes => exact (appends bytes succeeded).trans (appended (.writeBytes bytes)).symm
  | writeString string terminated =>
      exact (appends _ succeeded).trans (appended (.writeString string terminated)).symm
  | writeValue type value =>
      exact (appendsAligned type _ succeeded).trans (appended (.writeValue type value)).symm
  | align log =>
      apply Eq.trans _ (appended (.align log)).symm
      obtain ⟨_, data, _⟩ | ⟨failed, _⟩ :=
        blob.alignWith_cases realloc (2 ^ log) (Nat.two_pow_pos log)
      · exact data.trans (List.append_nil _).symm
      · exact absurd (failed.symm.trans succeeded) (by decide)
  | reserveBytes found =>
    exact (appends found succeeded).trans (appended (.reserveBytes found)).symm
  | reserveValue type found size =>
      exact (appendsAligned type found succeeded).trans
        (appended (.reserveValue type found size)).symm
  | overwriteBytes offset bytes =>
      rw [step] at succeeded ⊢
      split
      · next blob' written =>
          obtain ⟨inside, replaced, _⟩ := overwriteBytes_spec written
          rw [size] at inside
          rw [BlobCall.perform, BlobItem.bytes_patch, BlobItem.patchBytes_inside inside, ← data]
          exact replaced
      · next failed =>
          rw [failed] at succeeded
          cases succeeded

end Blob

namespace BlobCall

theorem laid_perform {items : List BlobItem} (laid : BlobItem.Laid 0 items) (call : BlobCall) :
    BlobItem.Laid 0 (call.perform items) := by
  have appended : call.read.alignment = call.alignment →
      call.read.Fits call.content.length →
      BlobItem.Laid 0 (items ++ [call.item (BlobItem.bytes items).length]) := by
    intro alignment fits
    apply laid.append _ fits
    have positive : 0 < call.alignment := by
      cases call with
      | writeValue type _ => exact type.size_pos
      | reserveValue type _ _ => exact type.size_pos
      | align log => exact Nat.two_pow_pos log
      | _ => exact Nat.one_pos
    have above := le_alignUintptr (BlobItem.bytes items).length positive
    simp only [item, List.length_replicate, alignment, Nat.zero_add]
    omega
  cases call with
  | overwriteBytes offset bytes => exact laid.patch
  | writeBytes bytes => exact appended rfl rfl
  | writeString string _ => exact appended rfl trivial
  | writeValue type value => exact appended rfl (length_bytesOfNat _ _)
  | align log => exact appended rfl rfl
  | reserveBytes found => exact appended rfl rfl
  | reserveValue type found size => exact appended rfl size

end BlobCall

namespace BlobCall

/-- Without overwriting the items are the writes. -/
theorem foldl_perform (calls : List BlobCall) (writes : ∀ call ∈ calls, ¬call.Overwrites)
    {items : List BlobItem} (terminated : ∀ item ∈ items, item.Terminated) :
    (∀ item ∈ calls.foldl perform items, item.Terminated) ∧
      (calls.foldl perform items).map BlobItem.read = items.map BlobItem.read ++ calls.map read ∧
      (calls.foldl perform items).flatMap BlobItem.values =
        items.flatMap BlobItem.values ++ calls.flatMap values := by
  induction calls generalizing items with
  | nil => simpa using terminated
  | cons call calls inductionHypothesis =>
      have appended : call.perform items = items ++ [call.item (BlobItem.bytes items).length] := by
        cases call with
        | overwriteBytes => exact absurd trivial (writes _ List.mem_cons_self)
        | _ => rfl
      have own : (call.item (BlobItem.bytes items).length).Terminated := by
        intro isString
        cases call with
        | writeString string noZero => exact ⟨string, noZero, rfl⟩
        | _ => cases isString
      have written : (call.item (BlobItem.bytes items).length).values = call.values := by
        cases call with
        | writeValue type value =>
            have fits : value.toNat < 256 ^ type.size := by
              have bound := value.isLt
              rwa [Nat.pow_mul] at bound
            exact congrArg (fun n => [ReadValue.number n]) (natOfBytes_bytesOfNat fits)
        | _ => rfl
      obtain ⟨all, reads, values⟩ := @inductionHypothesis
        (fun call member => writes call (List.mem_cons_of_mem _ member))
        (items ++ [call.item (BlobItem.bytes items).length])
        (fun item member => by
          cases List.mem_append.mp member with
          | inl before => exact terminated item before
          | inr last => exact List.mem_singleton.mp last ▸ own)
      rw [List.foldl_cons, appended]
      refine ⟨all, ?_, ?_⟩
      · rw [reads]
        simp [item]
      · rw [values]
        simp [written]

end BlobCall

/-- The items after calls that all succeed. -/
theorem Blob.run_items {blob : Blob} {items : List BlobItem}
    (data : blob.data = BlobItem.bytes items)
    (laid : BlobItem.Laid 0 items) (calls : List (BlobCall × (Nat → Bool)))
    (succeeded : ∀ result ∈ (blob.run calls).2, result = true) :
    (blob.run calls).1.data = BlobItem.bytes ((calls.map Prod.fst).foldl BlobCall.perform items) ∧
      BlobItem.Laid 0 ((calls.map Prod.fst).foldl BlobCall.perform items) := by
  induction calls generalizing blob items with
  | nil => exact ⟨data, laid⟩
  | cons entry calls inductionHypothesis =>
      obtain ⟨call, realloc⟩ := entry
      have here := step_items realloc data call (succeeded _ List.mem_cons_self)
      exact inductionHypothesis here (BlobCall.laid_perform laid call)
        fun result member => succeeded result (List.mem_cons_of_mem _ member)

/-! ## Reading back -/

namespace BlobReader

theorem align_natCast {data : List UInt8} {overrun : Bool} (n : Nat) {alignment : Nat}
    (positive : 0 < alignment) :
    align ⟨data, n, overrun⟩ alignment = ⟨data, (alignUintptr n alignment : Nat), overrun⟩ := by
  have sum : (n : Int) + alignment - 1 = ((n + alignment - 1 : Nat) : Int) := by omega
  rw [align, sum, alignUintptr, Int.natCast_mul, Int.natCast_ediv]

theorem readBytes_inside {data : List UInt8} {place size : Nat}
    (inside : place + size ≤ data.length) :
    readBytes ⟨data, place, false⟩ size =
      (some ⟨place, size⟩, ⟨data, (place + size : Nat), false⟩) := by
  have room : (place : Int) ≤ data.length ∧ (size : Int) ≤ data.length - place := by omega
  rw [readBytes, if_neg Bool.false_ne_true, if_pos room, Int.natCast_add]

theorem toInt_of_small {size : Nat} (small : size < 2 ^ 31) :
    (BitVec.ofNat 32 size).toInt = (size : Int) := by
  rw [BitVec.toInt_eq_toNat_of_lt, BitVec.toNat_ofNat, Nat.mod_eq_of_lt (by omega)]
  rw [BitVec.toNat_ofNat, Nat.mod_eq_of_lt (by omega)]
  omega

theorem readString_terminated {front string rest : List UInt8} (terminated : 0 ∉ string)
    (small : string.length + 1 < 2 ^ 31) :
    readString ⟨front ++ (string ++ [0] ++ rest), front.length, false⟩ =
      (some ⟨front.length, string.length + 1⟩,
        ⟨front ++ (string ++ [0] ++ rest), (front.length + (string.length + 1) : Nat), false⟩) := by
  have found : (string ++ [0] ++ rest).findIdx? (· = 0) = some string.length := by
    have none : string.findIdx? (· = 0) = none := by
      rw [List.findIdx?_eq_none_iff]
      intro byte member
      apply decide_eq_false
      rintro rfl
      exact terminated member
    rw [List.append_assoc, List.findIdx?_append, none]
    simp [List.findIdx?_cons]
  rw [readString, if_neg, Int.toNat_natCast, List.drop_left, found]
  · simp only [toInt_of_small small, Int.natCast_add]
  · simp only [List.length_append, List.length_singleton]
    omega

end BlobReader

theorem BlobPlace.bytes_middle (front content rest : List UInt8) :
    BlobPlace.bytes (front ++ (content ++ rest)) ⟨front.length, content.length⟩ = content := by
  rw [BlobPlace.bytes, Int.toNat_natCast, List.drop_left, List.take_left]

/-- One item is read from its padding on. -/
theorem BlobItem.step_read {front rest data : List UInt8} {item : BlobItem}
    (here : data = front ++ (item.padding ++ item.content ++ rest))
    (aligned : front.length + item.padding.length =
      alignUintptr front.length item.read.alignment)
    (fits : item.read.Fits item.content.length) (terminated : item.Terminated)
    (small : item.read = .string → item.content.length < 2 ^ 31) :
    (BlobReader.step ⟨data, front.length, false⟩ item.read).2 =
        ⟨data, (front.length + item.padding.length + item.content.length : Nat), false⟩ ∧
      ((BlobReader.step ⟨data, front.length, false⟩ item.read).1.map
        fun place => item.read.returned data place) = item.values := by
  have behind : data = (front ++ item.padding) ++ (item.content ++ rest) := by simp [here]
  have start : (front ++ item.padding).length = front.length + item.padding.length :=
    List.length_append
  have inside : front.length + item.padding.length + item.content.length ≤ data.length := by
    rw [behind, List.length_append, start, List.length_append]
    omega
  have middle :
    BlobPlace.bytes data ⟨(front.length + item.padding.length : Nat), item.content.length⟩ =
      item.content := by
    rw [behind, ← start]
    exact BlobPlace.bytes_middle _ _ _
  obtain ⟨padding, content, read⟩ := item
  cases read with
  | bytes size =>
      obtain rfl : content.length = size := fits
      rw [BlobRead.alignment, alignUintptr_one] at aligned
      have unpadded : front.length + padding.length = front.length := aligned
      simp only [unpadded] at inside middle ⊢
      simp only [BlobReader.step, BlobReader.readBytes_inside inside, List.map_cons, List.map_nil,
        BlobRead.returned, Option.map_some, middle, BlobItem.values]
      exact ⟨trivial, trivial⟩
  | string =>
      obtain ⟨string, noZero, rfl⟩ := terminated rfl
      rw [BlobRead.alignment, alignUintptr_one] at aligned
      have unpadded : front.length + padding.length = front.length := aligned
      obtain rfl : padding = [] := List.eq_nil_of_length_eq_zero (by omega)
      have read := @BlobReader.readString_terminated front string rest noZero
        (by simpa using small rfl)
      rw [show front ++ (string ++ [0] ++ rest) = data by simpa using here.symm] at read
      simp only [List.length_append, List.length_singleton, List.length_nil, Nat.add_zero] at middle
      simp only [BlobReader.step, read, List.map_cons, List.map_nil, BlobRead.returned,
        Option.map_some, middle, BlobItem.values, List.length_append, List.length_singleton,
        List.length_nil, Nat.add_zero]
      exact ⟨trivial, trivial⟩
  | value type =>
      have size : content.length = type.size := fits
      have there : BlobReader.align ⟨data, front.length, false⟩ type.size =
          ⟨data, (front.length + padding.length : Nat), false⟩ := by
        rw [BlobReader.align_natCast front.length type.size_pos]
        exact congrArg (fun n : Nat => BlobReader.mk data n false) aligned.symm
      simp only [size] at inside middle ⊢
      simp only [BlobReader.step, there, BlobReader.readBytes_inside inside, List.map_cons,
        List.map_nil, BlobRead.returned, Option.map_some, middle, BlobItem.values, Option.getD_some]
      exact ⟨trivial, trivial⟩
  | align log =>
      have empty : content.length = 0 := fits
      have there : BlobReader.align ⟨data, front.length, false⟩ (2 ^ log) =
          ⟨data, (front.length + padding.length : Nat), false⟩ := by
        rw [BlobReader.align_natCast front.length (Nat.two_pow_pos log)]
        exact congrArg (fun n : Nat => BlobReader.mk data n false) aligned.symm
      simp only [BlobReader.step, there, empty, Nat.add_zero, List.map_nil, BlobItem.values]
      exact ⟨trivial, trivial⟩

/-- Reading the items one behind the other gives back their values and ends behind the last. -/
theorem BlobItem.run_reads {front data : List UInt8} {items : List BlobItem}
    (here : data = front ++ BlobItem.bytes items) (laid : BlobItem.Laid front.length items)
    (terminated : ∀ item ∈ items, item.Terminated)
    (small : ∀ item ∈ items, item.read = .string → item.content.length < 2 ^ 31) :
    (BlobReader.run ⟨data, front.length, false⟩ (items.map BlobItem.read)).2 =
        ⟨data, data.length, false⟩ ∧
      ((BlobReader.run ⟨data, front.length, false⟩ (items.map BlobItem.read)).1.map
        fun read => read.1.returned data read.2) = items.flatMap BlobItem.values := by
  induction items generalizing front with
  | nil =>
      rw [BlobItem.bytes, List.flatMap_nil, List.append_nil] at here
      rw [here]
      exact ⟨rfl, rfl⟩
  | cons item items inductionHypothesis =>
      obtain ⟨aligned, fits, laidRest⟩ := laid
      rw [BlobItem.bytes, List.flatMap_cons, ← BlobItem.bytes] at here
      obtain ⟨after, values⟩ := item.step_read here aligned fits
        (terminated item List.mem_cons_self) (small item List.mem_cons_self)
      have next : (front ++ (item.padding ++ item.content)).length =
          front.length + item.padding.length + item.content.length := by
        rw [List.length_append, List.length_append, Nat.add_assoc]
      rw [← next] at after laidRest
      obtain ⟨final, rest⟩ := inductionHypothesis (here.trans (List.append_assoc ..).symm) laidRest
        (fun item member => terminated item (List.mem_cons_of_mem _ member))
        fun item member => small item (List.mem_cons_of_mem _ member)
      rw [List.map_cons, BlobReader.run]
      simp only [after]
      refine ⟨final, ?_⟩
      rw [List.map_append, List.map_map, rest, List.flatMap_cons, ← values]
      rfl

/-! ## Any bytes -/

namespace BlobReader

variable {blob : BlobReader}

theorem step_inside (small : blob.data.length < 2 ^ 31) (behind : 0 ≤ blob.current)
    (read : BlobRead) :
    (blob.step read).2.data = blob.data ∧ 0 ≤ (blob.step read).2.current ∧
      ∀ place, some place ∈ (blob.step read).1 → place.Inside blob.data := by
  have bytes : ∀ {blob : BlobReader} (size : Nat), 0 ≤ blob.current →
      (blob.readBytes size).2.data = blob.data ∧ 0 ≤ (blob.readBytes size).2.current ∧
        ∀ place, (blob.readBytes size).1 = some place → place.Inside blob.data := by
    intro blob size behind
    unfold readBytes
    split_ifs with overrun room
    · exact ⟨rfl, behind, fun _ none => by cases none⟩
    · refine ⟨rfl, by simp only; omega, ?_⟩
      rintro place ⟨⟩
      refine ⟨behind, ?_⟩
      simp only
      omega
    · exact ⟨rfl, behind, fun _ none => by cases none⟩
  have aligned : ∀ {alignment : Nat}, 0 < alignment → 0 ≤ (blob.align alignment).current := by
    intro alignment positive
    apply Int.mul_nonneg _ (Int.natCast_nonneg _)
    exact Int.ediv_nonneg (by omega) (Int.natCast_nonneg _)
  cases read with
  | bytes size =>
      obtain ⟨data, current, inside⟩ := bytes size behind
      exact ⟨data, current, fun place member => inside place (List.mem_singleton.mp member).symm⟩
  | value type =>
      obtain ⟨data, current, inside⟩ := @bytes (blob.align type.size) type.size
        (aligned type.size_pos)
      exact ⟨data, current, fun place member => inside place (List.mem_singleton.mp member).symm⟩
  | align log =>
      exact ⟨rfl, aligned (Nat.two_pow_pos log), fun _ member => absurd member List.not_mem_nil⟩
  | string =>
      have noPlace : ∀ place, some place ∈ [(none : Option BlobPlace)] → place.Inside blob.data :=
        fun _ member => by simp at member
      rw [step, readString]
      split
      · exact ⟨rfl, behind, noPlace⟩
      · split
        · exact ⟨rfl, behind, noPlace⟩
        · next nul found =>
            have bound := (List.findIdx?_eq_some_iff_getElem.mp found).1
            rw [List.length_drop] at bound
            refine ⟨rfl, ?_, ?_⟩
            · simp only
              rw [toInt_of_small (by omega)]
              omega
            · intro place member
              cases List.mem_singleton.mp member
              refine ⟨behind, ?_⟩
              simp only
              omega

/-- A reader that overran stays so, and only strings are read after that. -/
theorem step_overrun (overrun : blob.overrun = true) (read : BlobRead) :
    (blob.step read).2.overrun = true ∧
      (read ≠ .string → ∀ place ∈ (blob.step read).1, place = none) := by
  cases read with
  | bytes size =>
      have none : blob.readBytes size = (none, blob) := by rw [readBytes, if_pos overrun]
      simp [step, none, overrun]
  | value type =>
      have none : (blob.align type.size).readBytes type.size = (none, blob.align type.size) := by
        rw [readBytes, if_pos (by exact overrun)]
      simp only [step, none, List.mem_singleton]
      exact ⟨overrun, fun _ _ same => same⟩
  | align log => exact ⟨overrun, fun _ _ member => absurd member List.not_mem_nil⟩
  | string =>
      refine ⟨?_, fun other => absurd rfl other⟩
      rw [step, readString]
      split
      · rfl
      · split
        · rfl
        · exact overrun

theorem run_inside (small : blob.data.length < 2 ^ 31) (behind : 0 ≤ blob.current)
    (reads : List BlobRead) :
    ∀ read place, (read, some place) ∈ (blob.run reads).1 → place.Inside blob.data := by
  induction reads generalizing blob with
  | nil => exact fun _ _ member => absurd member List.not_mem_nil
  | cons first reads inductionHypothesis =>
      obtain ⟨data, current, inside⟩ := step_inside small behind first
      intro read place member
      rw [run, List.mem_append] at member
      cases member with
      | inl here =>
          obtain ⟨_, placed, same⟩ := List.mem_map.mp here
          obtain ⟨rfl, rfl⟩ := Prod.mk.inj same
          exact inside place placed
      | inr later =>
          rw [← data]
          exact inductionHypothesis (data ▸ small) current read place later

theorem run_overrun (overrun : blob.overrun = true) (reads : List BlobRead) :
    (blob.run reads).2.overrun = true ∧
      ∀ read place, (read, place) ∈ (blob.run reads).1 → read ≠ .string → place = none := by
  induction reads generalizing blob with
  | nil => exact ⟨overrun, fun _ _ member => absurd member List.not_mem_nil⟩
  | cons first reads inductionHypothesis =>
      obtain ⟨after, none⟩ := step_overrun overrun first
      obtain ⟨final, rest⟩ := inductionHypothesis after
      refine ⟨final, ?_⟩
      intro read place member other
      rw [run, List.mem_append] at member
      cases member with
      | inl here =>
          obtain ⟨_, placed, same⟩ := List.mem_map.mp here
          obtain ⟨rfl, rfl⟩ := Prod.mk.inj same
          exact none other _ placed
      | inr later => exact rest read place later other

end BlobReader

/-! ## Sequences of calls -/

/-- An empty blob that grows, or one over a buffer of some size. -/
def Blob.start : Option Nat → Blob
  | none => init
  | some size => initFixed size

theorem Blob.data_start (capacity : Option Nat) : (start capacity).data = [] := by
  cases capacity <;> rfl

/-- Whatever the allocator answers, the written bytes are inside the allocation; a write that
fails leaves them up to padding and nothing is added after it; and where no call failed the
matching reads give back what was written, with what overwrote it, and end at the end. No read
leaves any data, and after an overrun only strings are read. -/
theorem blobs_round_trip (capacity : Option Nat) (calls : List (BlobCall × (Nat → Bool))) :
    (((Blob.start capacity).run calls).1.size ≤ ((Blob.start capacity).run calls).1.allocated) ∧
    (∀ before call realloc after, calls = before ++ (call, realloc) :: after →
      ∀ there failed, there = ((Blob.start capacity).run before).1 →
      failed = there.step realloc call → ¬call.Overwrites → failed.2 = false →
      (∃ k < call.alignment, failed.1.data = there.data ++ List.replicate k 0) ∧
      (failed.1.run after).1.size = failed.1.size ∧
      ∀ entry succeeded, (entry, succeeded) ∈ after.zip (failed.1.run after).2 →
        succeeded = true → entry.1.Adjusts failed.1.size) ∧
    (∀ blob items, blob = ((Blob.start capacity).run calls).1 →
      items = (calls.map Prod.fst).foldl BlobCall.perform [] →
      ((∀ result ∈ ((Blob.start capacity).run calls).2, result = true) →
        (∀ item ∈ items, item.Terminated) →
        (∀ item ∈ items, item.read = .string → item.content.length < 2 ^ 31) →
        blob.data = BlobItem.bytes items ∧
        ((BlobReader.init blob.data).run (items.map BlobItem.read)).2 =
        ⟨blob.data, blob.size, false⟩ ∧
        ((BlobReader.init blob.data).run (items.map BlobItem.read)).1.map
          (fun read => read.1.returned blob.data read.2) = items.flatMap BlobItem.values) ∧
      ((∀ call ∈ calls.map Prod.fst, ¬call.Overwrites) →
        (∀ item ∈ items, item.Terminated) ∧
        items.map BlobItem.read = (calls.map Prod.fst).map BlobCall.read ∧
        items.flatMap BlobItem.values = (calls.map Prod.fst).flatMap BlobCall.values)) ∧
    ∀ (data : List UInt8) (reads later : List BlobRead) (reader : BlobReader),
      data.length < 2 ^ 31 → reader = ((BlobReader.init data).run reads).2 →
      (∀ read place, (read, some place) ∈ ((BlobReader.init data).run reads).1 →
        place.Inside data) ∧
      (reader.overrun = true → (reader.run later).2.overrun = true ∧
        ∀ read place, (read, place) ∈ (reader.run later).1 → read ≠ .string → place = none) := by
  refine ⟨Blob.fits _, ?_, ?_, ?_⟩
  · rintro before call realloc after - there failed - rfl writes fails
    obtain ⟨padded, full⟩ := Blob.step_fails realloc writes fails
    exact ⟨padded, Blob.run_full full after⟩
  · rintro blob items rfl rfl
    constructor
    · intro succeeded terminated short
      obtain ⟨data, laid⟩ := @Blob.run_items (Blob.start capacity) [] (Blob.data_start capacity)
        trivial calls succeeded
      refine ⟨data, ?_⟩
      exact @BlobItem.run_reads [] _ _ data laid terminated short
    · intro writes
      obtain ⟨terminated, reads, values⟩ := @BlobCall.foldl_perform (calls.map Prod.fst) writes []
        fun _ member => absurd member List.not_mem_nil
      exact ⟨terminated, reads, values⟩
  · rintro data reads later reader small rfl
    refine ⟨BlobReader.run_inside small (Int.le_refl 0) reads, ?_⟩
    intro overrun
    exact BlobReader.run_overrun overrun later

/-- In a buffer of one byte the second byte does not fit, and the first can still be
overwritten; and a string that is overwritten with its terminator ends early for its reader. -/
theorem blobs_not_round_trip :
    (¬∀ (capacity : Option Nat) (calls : List (BlobCall × (Nat → Bool)))
      (before after : List Bool),
      ((Blob.start capacity).run calls).2 = before ++ false :: after →
      ∀ result ∈ after, result = false) ∧
    ¬∀ (capacity : Option Nat) (calls : List (BlobCall × (Nat → Bool))) (reads : List BlobRead),
      (∀ result ∈ ((Blob.start capacity).run calls).2, result = true) →
      reads = ((calls.map Prod.fst).foldl BlobCall.perform []).map BlobItem.read →
      ((BlobReader.init ((Blob.start capacity).run calls).1.data).run reads).2.current =
        ((Blob.start capacity).run calls).1.size := by
  constructor
  · intro fails
    have later := fails (some 1) [(.writeBytes [1], fun _ => true),
      (.writeBytes [2], fun _ => true), (.overwriteBytes 0 [3], fun _ => true)] [true] [true]
      (by decide) true (by decide)
    cases later
  · intro ends
    have final := ends none [(.writeString [65] (by decide), fun _ => true),
      (.overwriteBytes 0 [0], fun _ => true), (.writeBytes [7], fun _ => true)]
      [.string, .bytes 1] (by decide) rfl
    revert final
    decide

end SpirvToDxil
