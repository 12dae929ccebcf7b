import SpirvToDxil.Util.Blob
import SpirvToDxil.Bitstream.Reader

/-!
# The bit buffer

`dxil_buffer.c`.  Bits are collected in a 64-bit accumulator and flushed to a
blob a word at a time.  A failed assertion or a failed write is `none`.

`Buffer.bits` is the bit string a buffer stands for, flushed and pending bits
together; `Appends` says what an operation adds to it, and every operation has
one lemma of that form.
-/

namespace SpirvToDxil

open Bitstream

structure Buffer where
  blob : Blob
  buf : Nat
  bufBits : Nat
  abbrevWidth : Nat

namespace Buffer

def init (abbrevWidth : Nat) : Buffer := ⟨Blob.init, 0, 0, abbrevWidth⟩

/-- `flush_dword`: the low word of the accumulator goes to the blob. -/
def flushDword (b : Buffer) : Option Buffer :=
  if 32 ≤ b.bufBits ∧ b.bufBits < 64 then
    match b.blob.writeBytes (bytesOfNat 4 (b.buf % 2 ^ 32)) with
    | (blob, true) => some { b with blob := blob, buf := b.buf / 2 ^ 32, bufBits := b.bufBits - 32 }
    | (_, false) => none
  else none

def emitBits (b : Buffer) (data width : Nat) : Option Buffer :=
  if b.bufBits < 32 ∧ (0 < width ∧ width ≤ 32) ∧ data < 2 ^ width then
    let b' := { b with
      buf := b.buf ||| (data <<< b.bufBits) % 2 ^ 64
      bufBits := b.bufBits + width }
    if 32 ≤ b'.bufBits then b'.flushDword else some b'
  else none

/-- The loop of `dxil_buffer_emit_vbr_bits`.  Each turn shifts a 64-bit value by
at least one bit, so 64 turns are enough. -/
def emitVbrBitsLoop (width : Nat) : Nat → Buffer → Nat → Option Buffer
  | 0, _, _ => none
  | fuel + 1, b, data =>
    let tag := 1 <<< (width - 1)
    let max := tag - 1
    if max < data then do
      let b ← b.emitBits ((data &&& max) ||| tag) width
      emitVbrBitsLoop width fuel b (data >>> (width - 1))
    else b.emitBits data width

def emitVbrBits (b : Buffer) (data width : Nat) : Option Buffer :=
  if 1 < width ∧ width ≤ 32 then emitVbrBitsLoop width 65 b data else none

def align (b : Buffer) : Option Buffer :=
  if b.bufBits < 32 then
    if b.bufBits ≠ 0 then { b with bufBits := 32 }.flushDword else some b
  else none

def emitAbbrevId (b : Buffer) (id : Nat) : Option Buffer := b.emitBits id b.abbrevWidth

/-! ## The bits of a buffer -/

def bits (b : Buffer) : List Bool := bitsOfBytes b.blob.data ++ bitsOfNat b.bufBits b.buf

/-- Between operations less than a word is pending, no bit is set above the
pending ones, and only whole words were flushed. -/
structure WellFormed (b : Buffer) : Prop where
  pending : b.bufBits < 32
  clean : b.buf < 2 ^ b.bufBits
  growable : b.blob.Growable
  words : b.blob.size % 4 = 0

structure Appends (b b' : Buffer) (bits : List Bool) : Prop where
  wellFormed : b'.WellFormed
  bits_eq : b'.bits = b.bits ++ bits
  abbrevWidth_eq : b'.abbrevWidth = b.abbrevWidth

theorem wellFormed_init (abbrevWidth : Nat) : (init abbrevWidth).WellFormed :=
  ⟨by simp [init], by simp [init], Blob.growable_init, rfl⟩

@[simp] theorem bits_init (abbrevWidth : Nat) : (init abbrevWidth).bits = [] := rfl

theorem Appends.refl {b : Buffer} (wellFormed : b.WellFormed) : Appends b b [] :=
  ⟨wellFormed, by simp, rfl⟩

theorem Appends.trans {b b' b'' : Buffer} {bits bits' : List Bool} (first : Appends b b' bits)
    (second : Appends b' b'' bits') : Appends b b'' (bits ++ bits') :=
  ⟨second.wellFormed, by rw [second.bits_eq, first.bits_eq, List.append_assoc],
    second.abbrevWidth_eq.trans first.abbrevWidth_eq⟩

theorem length_bits (b : Buffer) : b.bits.length = 8 * b.blob.size + b.bufBits := by
  simp [bits, Blob.size]

/-- The pending bits are those past the last word boundary. -/
theorem WellFormed.bufBits_eq {b : Buffer} (wellFormed : b.WellFormed) :
    b.bits.length % 32 = b.bufBits := by
  have := wellFormed.pending
  have := wellFormed.words
  rw [length_bits]
  omega

theorem flushDword_spec (b : Buffer) (growable : b.blob.Growable) (words : b.blob.size % 4 = 0)
    (full : 32 ≤ b.bufBits) (short : b.bufBits < 64) (clean : b.buf < 2 ^ b.bufBits) :
    ∃ b', b.flushDword = some b' ∧ Appends b b' [] := by
  obtain ⟨written, data, stillGrowable⟩ :=
    Blob.writeBytes_growable growable (bytesOfNat 4 (b.buf % 2 ^ 32))
  have split : b.bufBits = 32 + (b.bufBits - 32) := by omega
  refine ⟨{ b with
      blob := (b.blob.writeBytes (bytesOfNat 4 (b.buf % 2 ^ 32))).1
      buf := b.buf / 2 ^ 32
      bufBits := b.bufBits - 32 }, ?_, ⟨?_, ?_, rfl⟩⟩
  · unfold flushDword
    rw [if_pos ⟨full, short⟩]
    split
    · rename_i blob equation
      rw [equation]
    · rename_i blob equation
      rw [equation] at written
      contradiction
  · refine ⟨by simp only; omega, ?_, stillGrowable, ?_⟩
    · show b.buf / 2 ^ 32 < 2 ^ (b.bufBits - 32)
      rw [Nat.div_lt_iff_lt_mul (Nat.two_pow_pos 32), ← Nat.pow_add]
      rwa [show b.bufBits - 32 + 32 = b.bufBits by omega]
    · simp only [Blob.size, data, List.length_append, length_bytesOfNat]
      simp only [Blob.size] at words
      omega
  · simp only [bits, data, bitsOfBytes_append, bitsOfBytes_bytesOfNat, List.append_nil,
      List.append_assoc]
    congr 1
    conv_rhs => rw [split, bitsOfNat_add]
    rw [bitsOfNat_mod]

theorem accumulate {buf bufBits data width : Nat} (pending : bufBits < 32) (narrow : width ≤ 32)
    (clean : buf < 2 ^ bufBits) (fits : data < 2 ^ width) :
    buf ||| (data <<< bufBits) % 2 ^ 64 = buf + 2 ^ bufBits * data ∧
      buf + 2 ^ bufBits * data < 2 ^ (bufBits + width) := by
  have above : buf + 2 ^ bufBits * data < 2 ^ (bufBits + width) := by
    calc buf + 2 ^ bufBits * data < 2 ^ bufBits + 2 ^ bufBits * data := by omega
      _ = 2 ^ bufBits * (data + 1) := by ring
      _ ≤ 2 ^ bufBits * 2 ^ width := Nat.mul_le_mul_left _ fits
      _ = 2 ^ (bufBits + width) := (Nat.pow_add 2 bufBits width).symm
  have noWrap : (data <<< bufBits) % 2 ^ 64 = 2 ^ bufBits * data := by
    rw [Nat.shiftLeft_eq, Nat.mul_comm data, Nat.mod_eq_of_lt]
    calc 2 ^ bufBits * data < 2 ^ (bufBits + width) := by omega
      _ ≤ 2 ^ 64 := Nat.pow_le_pow_right (by decide) (by omega)
  refine ⟨?_, above⟩
  rw [noWrap, Nat.or_comm, ← Nat.two_pow_add_eq_or_of_lt clean, Nat.add_comm]

theorem emitBits_spec {b : Buffer} {data width : Nat} (wellFormed : b.WellFormed)
    (positive : 0 < width) (narrow : width ≤ 32) (fits : data < 2 ^ width) :
    ∃ b', b.emitBits data width = some b' ∧ Appends b b' (bitsOfNat width data) := by
  obtain ⟨pending, clean, growable, words⟩ := wellFormed
  obtain ⟨joined, below⟩ := accumulate pending narrow clean fits
  let next : Buffer :=
    { b with buf := b.buf + 2 ^ b.bufBits * data, bufBits := b.bufBits + width }
  have nextBits : next.bits = b.bits ++ bitsOfNat width data := by
    simp only [next, bits, List.append_assoc, bitsOfNat_append width data clean]
  have unfolded : b.emitBits data width =
      if 32 ≤ next.bufBits then next.flushDword else some next := by
    simp only [emitBits, if_pos (And.intro pending (And.intro (And.intro positive narrow) fits)),
      joined, next]
  rw [unfolded]
  split
  · rename_i full
    obtain ⟨b', flushed, appended⟩ :=
      flushDword_spec next growable words full (by simp only [next]; omega) below
    refine ⟨b', flushed, appended.wellFormed, ?_, appended.abbrevWidth_eq⟩
    rw [appended.bits_eq, nextBits, List.append_nil]
  · rename_i notFull
    exact ⟨next, rfl, ⟨by omega, below, growable, words⟩, nextBits, rfl⟩

theorem emitVbrBitsLoop_spec {width : Nat} (wide : 1 < width) (narrow : width ≤ 32) (fuel : Nat)
    {b : Buffer} {data : Nat} (wellFormed : b.WellFormed) (enough : data < 2 ^ fuel) :
    ∃ b', emitVbrBitsLoop width (fuel + 1) b data = some b' ∧
      Appends b b' (vbrBits width data) := by
  induction fuel generalizing b data with
  | zero =>
    have zero : data = 0 := by simpa using enough
    subst zero
    rw [emitVbrBitsLoop, if_neg (by omega), vbrBits_of_lt (Nat.two_pow_pos _)]
    exact emitBits_spec wellFormed (by omega) narrow (Nat.two_pow_pos _)
  | succ fuel ih =>
    have groups := two_groups wide
    have tag : 1 <<< (width - 1) = 2 ^ (width - 1) := Nat.one_shiftLeft _
    rw [emitVbrBitsLoop]
    simp only [tag]
    by_cases small : data < 2 ^ (width - 1)
    · rw [if_neg (by omega), vbrBits_of_lt small]
      exact emitBits_spec wellFormed (by omega) narrow (by omega)
    · have remainder : data % 2 ^ (width - 1) < 2 ^ (width - 1) :=
        Nat.mod_lt _ (Nat.two_pow_pos _)
      have chunk : (data &&& (2 ^ (width - 1) - 1)) ||| 2 ^ (width - 1) =
          data % 2 ^ (width - 1) + 2 ^ (width - 1) := by
        have joined := Nat.two_pow_add_eq_or_of_lt remainder 1
        rw [Nat.mul_one] at joined
        rw [Nat.and_two_pow_sub_one_eq_mod, Nat.or_comm, ← joined, Nat.add_comm]
      have chunkFits : data % 2 ^ (width - 1) + 2 ^ (width - 1) < 2 ^ width := by omega
      obtain ⟨b₁, emitted, appended⟩ := emitBits_spec wellFormed (by omega) narrow chunkFits
      have shrinks : data / 2 ^ (width - 1) < 2 ^ fuel := by
        have two := group_pos wide
        rw [Nat.div_lt_iff_lt_mul (Nat.two_pow_pos _)]
        calc data < 2 ^ fuel * 2 := by rwa [← Nat.pow_succ]
          _ ≤ 2 ^ fuel * 2 ^ (width - 1) := Nat.mul_le_mul_left _ two
      obtain ⟨b₂, rest, appendedRest⟩ := ih appended.wellFormed shrinks
      rw [if_pos (by omega), chunk, emitted, Nat.shiftRight_eq_div_pow]
      refine ⟨b₂, rest, ?_⟩
      rw [vbrBits_of_not_lt wide small]
      exact appended.trans appendedRest

theorem emitVbrBits_spec {b : Buffer} {data width : Nat} (wellFormed : b.WellFormed)
    (wide : 1 < width) (narrow : width ≤ 32) (fits : data < 2 ^ 64) :
    ∃ b', b.emitVbrBits data width = some b' ∧ Appends b b' (vbrBits width data) := by
  rw [emitVbrBits, if_pos ⟨wide, narrow⟩]
  exact emitVbrBitsLoop_spec wide narrow 64 wellFormed fits

theorem align_spec {b : Buffer} (wellFormed : b.WellFormed) :
    ∃ b', b.align = some b' ∧ Appends b b' (padding 32 b.bits.length) ∧ b'.bufBits = 0 := by
  have pos := wellFormed.bufBits_eq
  obtain ⟨pending, clean, growable, words⟩ := wellFormed
  rw [align, if_pos pending, padding, pos]
  by_cases empty : b.bufBits = 0
  · rw [if_neg (by simpa using empty)]
    refine ⟨b, rfl, ?_, empty⟩
    simpa [empty] using Appends.refl ⟨pending, clean, growable, words⟩
  · rw [if_pos empty]
    let full : Buffer := { b with bufBits := 32 }
    have fullBits : full.bits = b.bits ++ List.replicate ((32 - b.bufBits) % 32) false := by
      have noHigh : b.buf / 2 ^ b.bufBits = 0 := Nat.div_eq_of_lt clean
      have split : (32 : Nat) = b.bufBits + (32 - b.bufBits) := by omega
      simp only [full, bits, List.append_assoc]
      congr 1
      conv_lhs => rw [split, bitsOfNat_add, noHigh, bitsOfNat_zero]
      rw [Nat.mod_eq_of_lt (by omega)]
    have below : b.buf < 2 ^ 32 :=
      clean.trans_le (Nat.pow_le_pow_right (by decide) (by omega))
    obtain ⟨b', flushed, appended⟩ :=
      flushDword_spec full growable words (Nat.le_refl 32) (by simp [full]) below
    refine ⟨b', flushed, ⟨appended.wellFormed, ?_, appended.abbrevWidth_eq⟩, ?_⟩
    · rw [appended.bits_eq, fullBits, List.append_nil]
    · have length := congrArg List.length appended.bits_eq
      have aligned := appended.wellFormed.words
      have short := appended.wellFormed.pending
      have fullWords : full.blob.size % 4 = 0 := words
      rw [List.append_nil, length_bits, length_bits] at length
      simp only [full] at length fullWords
      omega

theorem emitAbbrevId_spec {b : Buffer} {id : Nat} (wellFormed : b.WellFormed)
    (positive : 0 < b.abbrevWidth) (narrow : b.abbrevWidth ≤ 32) (fits : id < 2 ^ b.abbrevWidth) :
    ∃ b', b.emitAbbrevId id = some b' ∧ Appends b b' (bitsOfNat b.abbrevWidth id) :=
  emitBits_spec wellFormed positive narrow fits

end Buffer

end SpirvToDxil
