import SpirvToDxil.Bitstream.Bits

/-!
# Files made of tagged parts

A file starts with a fixed signature, its total size, the number of its parts and
the offset of each; every part is a tag, a size and that many bytes.  A reader that
follows the offsets accepts a file only if each part starts where the one before it
ends and the last ends with the file.
-/

namespace PartFile

open Bitstream

structure Part where
  tag : Nat
  payload : List UInt8
  deriving DecidableEq

/-! ## Writing -/

def Part.bytes (part : Part) : List UInt8 :=
  bytesOfNat 4 part.tag ++ (bytesOfNat 4 part.payload.length ++ part.payload)

def body (parts : List Part) : List UInt8 := parts.flatMap Part.bytes

/-- Where each part starts when the first one starts at `start`. -/
def offsets : Nat → List Part → List Nat
  | _, [] => []
  | start, part :: parts => start :: offsets (start + part.bytes.length) parts

def headerSize (signature : List UInt8) (parts : List Part) : Nat :=
  signature.length + 8 + 4 * parts.length

def fileSize (signature : List UInt8) (parts : List Part) : Nat :=
  headerSize signature parts + (body parts).length

def encode (signature : List UInt8) (parts : List Part) : List UInt8 :=
  signature ++ (bytesOfNat 4 (fileSize signature parts) ++ (bytesOfNat 4 parts.length ++
    ((offsets (headerSize signature parts) parts).flatMap (bytesOfNat 4) ++ body parts)))

/-! ## Reading -/

def wordAt (file : List UInt8) (place : Nat) : Option Nat :=
  if place + 4 ≤ file.length then some (natOfBytes ((file.drop place).take 4)) else none

/-- The parts at the given offsets, the first of which must stand at `place`. -/
def readParts (file : List UInt8) : Nat → List Nat → Option (List Part)
  | place, [] => if place = file.length then some [] else none
  | place, offset :: offsets => do
    let tag ← wordAt file offset
    let size ← wordAt file (offset + 4)
    if offset = place ∧ offset + 8 + size ≤ file.length then do
      let parts ← readParts file (offset + 8 + size) offsets
      some (⟨tag, (file.drop (offset + 8)).take size⟩ :: parts)
    else none

def read (signature file : List UInt8) : Option (List Part) := do
  let total ← wordAt file signature.length
  let count ← wordAt file (signature.length + 4)
  let offsets ← (List.range count).mapM fun index => wordAt file (signature.length + 8 + 4 * index)
  if file.take signature.length = signature ∧ total = file.length then
    readParts file (signature.length + 8 + 4 * count) offsets
  else none

/-! ## Round trip -/

@[simp] theorem Part.length_bytes (part : Part) : part.bytes.length = 8 + part.payload.length := by
  simp only [bytes, List.length_append, length_bytesOfNat]
  omega

@[simp] theorem body_nil : body [] = [] := rfl

@[simp] theorem body_cons (part : Part) (parts : List Part) :
    body (part :: parts) = part.bytes ++ body parts := rfl

@[simp] theorem body_append (first second : List Part) :
    body (first ++ second) = body first ++ body second := List.flatMap_append

@[simp] theorem length_offsets (start : Nat) (parts : List Part) :
    (offsets start parts).length = parts.length := by
  induction parts generalizing start with
  | nil => rfl
  | cons part parts inductionHypothesis => simp [offsets, inductionHypothesis]

theorem offsets_append (start : Nat) (first second : List Part) :
    offsets start (first ++ second) =
      offsets start first ++ offsets (start + (body first).length) second := by
  induction first generalizing start with
  | nil => rfl
  | cons part first inductionHypothesis =>
    simp [offsets, inductionHypothesis, Nat.add_assoc]

theorem offsets_shift (start base : Nat) (parts : List Part) :
    offsets (base + start) parts = (offsets start parts).map (base + ·) := by
  induction parts generalizing start with
  | nil => rfl
  | cons part parts inductionHypothesis =>
    rw [offsets, Nat.add_assoc, inductionHypothesis]
    rfl

theorem offsets_lt {start : Nat} {parts : List Part} {offset : Nat}
    (member : offset ∈ offsets start parts) : offset < start + (body parts).length := by
  induction parts generalizing start with
  | nil => simp [offsets] at member
  | cons part parts inductionHypothesis =>
    rw [body_cons, List.length_append]
    simp only [offsets, List.mem_cons] at member
    rcases member with rfl | member
    · simp only [Part.length_bytes]
      omega
    · have := inductionHypothesis member
      omega

theorem length_flatMap_words (words : List Nat) :
    (words.flatMap (bytesOfNat 4)).length = 4 * words.length := by
  induction words with
  | nil => rfl
  | cons word words inductionHypothesis =>
    simp only [List.flatMap_cons, List.length_append, length_bytesOfNat, inductionHypothesis,
      List.length_cons]
    omega

@[simp] theorem length_encode (signature : List UInt8) (parts : List Part) :
    (encode signature parts).length = fileSize signature parts := by
  simp only [encode, fileSize, headerSize, List.length_append, length_bytesOfNat,
    length_flatMap_words, length_offsets]
  omega

theorem wordAt_append {before after : List UInt8} {word place : Nat} (small : word < 2 ^ 32)
    (here : place = before.length) :
    wordAt (before ++ (bytesOfNat 4 word ++ after)) place = some word := by
  have inside : place + 4 ≤ (before ++ (bytesOfNat 4 word ++ after)).length := by
    simp only [List.length_append, length_bytesOfNat]
    omega
  have taken : (bytesOfNat 4 word ++ after).take 4 = bytesOfNat 4 word :=
    List.take_left' (length_bytesOfNat 4 word)
  rw [wordAt, if_pos inside, here, List.drop_left, taken, natOfBytes_bytesOfNat small]

theorem wordsAt_append {before after : List UInt8} {words : List Nat} {place : Nat}
    (small : ∀ word ∈ words, word < 2 ^ 32) (here : place = before.length) :
    ((List.range words.length).mapM fun index =>
      wordAt (before ++ (words.flatMap (bytesOfNat 4) ++ after)) (place + 4 * index)) =
      some words := by
  induction words generalizing before place with
  | nil => rfl
  | cons word words inductionHypothesis =>
    have first : wordAt (before ++ ((word :: words).flatMap (bytesOfNat 4) ++ after))
        (place + 4 * 0) = some word := by
      rw [List.flatMap_cons, List.append_assoc]
      exact wordAt_append (small word (by simp)) here
    have rest := @inductionHypothesis (before ++ bytesOfNat 4 word) (place + 4)
      (fun word member => small word (by simp [member])) (by simp [here])
    have shifted :
      (fun index => wordAt (before ++ ((word :: words).flatMap (bytesOfNat 4) ++ after))
        (place + 4 * (index + 1))) = fun index => wordAt (before ++ bytesOfNat 4 word ++
        (words.flatMap (bytesOfNat 4) ++ after)) (place + 4 + 4 * index) := by
      funext index
      rw [List.flatMap_cons, List.append_assoc, List.append_assoc]
      congr 1
      omega
    rw [List.length_cons, List.range_succ_eq_map, List.mapM_cons, first, List.mapM_map]
    simp only [Function.comp_def]
    rw [shifted, rest]
    rfl

theorem readParts_body {before : List UInt8} {parts : List Part}
    (tags : ∀ part ∈ parts, part.tag < 2 ^ 32)
    (small : before.length + (body parts).length < 2 ^ 32) :
    readParts (before ++ body parts) before.length (offsets before.length parts) = some parts := by
  induction parts generalizing before with
  | nil => simp [readParts, offsets]
  | cons part parts inductionHypothesis =>
    have length := part.length_bytes
    rw [body_cons, List.length_append] at small
    have tag : wordAt (before ++ body (part :: parts)) before.length = some part.tag := by
      rw [body_cons, Part.bytes, List.append_assoc]
      exact wordAt_append (tags part (by simp)) rfl
    have size : wordAt (before ++ body (part :: parts)) (before.length + 4) =
        some part.payload.length := by
      have regrouped : before ++ body (part :: parts) = (before ++ bytesOfNat 4 part.tag) ++
          (bytesOfNat 4 part.payload.length ++ (part.payload ++ body parts)) := by
        simp [Part.bytes]
      rw [regrouped]
      exact wordAt_append (by omega) (by simp)
    have payload : ((before ++ body (part :: parts)).drop (before.length + 8)).take
        part.payload.length = part.payload := by
      have regrouped : before ++ body (part :: parts) = (before ++ bytesOfNat 4 part.tag ++
          bytesOfNat 4 part.payload.length) ++ (part.payload ++ body parts) := by
        simp [Part.bytes]
      rw [regrouped, List.drop_left' (by simp), List.take_left]
    have rest := @inductionHypothesis (before ++ part.bytes)
      (fun part member => tags part (by simp [member])) (by rw [List.length_append]; omega)
    have next : before.length + 8 + part.payload.length = (before ++ part.bytes).length := by
      rw [List.length_append]
      omega
    have inside : before.length = before.length ∧
        before.length + 8 + part.payload.length ≤ (before ++ body (part :: parts)).length := by
      rw [body_cons, next]
      simp
    rw [offsets, readParts, tag, Option.bind_eq_bind, Option.bind_some, size, Option.bind_eq_bind,
      Option.bind_some, if_pos inside, payload, next, body_cons, ← List.append_assoc,
      ← List.length_append, rest]
    rfl

/-- A file is read as the parts it was made of, if its size fits a word. -/
theorem read_encode {signature : List UInt8} {parts : List Part}
    (tags : ∀ part ∈ parts, part.tag < 2 ^ 32) (small : fileSize signature parts < 2 ^ 32) :
    read signature (encode signature parts) = some parts := by
  have sizes := length_encode signature parts
  have header : headerSize signature parts = signature.length + 8 + 4 * parts.length := rfl
  have total : fileSize signature parts = headerSize signature parts + (body parts).length := rfl
  have totalWord : wordAt (encode signature parts) signature.length =
      some (fileSize signature parts) := wordAt_append small rfl
  have countWord : wordAt (encode signature parts) (signature.length + 4) =
      some parts.length := by
    rw [encode, ← List.append_assoc]
    exact wordAt_append (by omega) (by simp)
  have offsetWords := @wordsAt_append
    (signature ++ (bytesOfNat 4 (fileSize signature parts) ++ bytesOfNat 4 parts.length))
    (body parts) (offsets (headerSize signature parts) parts) (signature.length + 8)
    (fun offset member => (offsets_lt member).trans_le (by omega)) (by simp)
  rw [length_offsets] at offsetWords
  have regrouped : encode signature parts =
      (signature ++ (bytesOfNat 4 (fileSize signature parts) ++ bytesOfNat 4 parts.length)) ++
        ((offsets (headerSize signature parts) parts).flatMap (bytesOfNat 4) ++ body parts) := by
    simp [encode]
  rw [← regrouped] at offsetWords
  have front : (signature ++ (bytesOfNat 4 (fileSize signature parts) ++
      (bytesOfNat 4 parts.length ++
        (offsets (headerSize signature parts) parts).flatMap (bytesOfNat 4)))).length =
      headerSize signature parts := by
    simp only [List.length_append, length_bytesOfNat, length_flatMap_words, length_offsets]
    omega
  have partsRead := @readParts_body (signature ++ (bytesOfNat 4 (fileSize signature parts) ++
      (bytesOfNat 4 parts.length ++
        (offsets (headerSize signature parts) parts).flatMap (bytesOfNat 4)))) parts tags
    (by rw [front]; exact small)
  rw [front] at partsRead
  have whole : encode signature parts = (signature ++ (bytesOfNat 4 (fileSize signature parts) ++
      (bytesOfNat 4 parts.length ++
        (offsets (headerSize signature parts) parts).flatMap (bytesOfNat 4)))) ++ body parts := by
    simp [encode]
  have signed : (encode signature parts).take signature.length = signature ∧
      fileSize signature parts = (encode signature parts).length := by
    constructor
    · rw [encode, List.take_left]
    · exact sizes.symm
  rw [read, totalWord, Option.bind_eq_bind, Option.bind_some, countWord, Option.bind_eq_bind,
    Option.bind_some, offsetWords, Option.bind_some, if_pos signed, ← header, whole]
  exact partsRead

end PartFile
