import SpirvToDxil.Dxil.Buffer

/-!
# Sequences of calls on the bit buffer

The layout of a sequence of calls is read off the calls alone, without a buffer. Running them
on a fresh buffer produces that layout, and a reader with the same widths takes it apart.
-/

namespace SpirvToDxil

open Bitstream

namespace Buffer

inductive Call where
  | emitBits (data width : Nat)
  | emitVbrBits (data width : Nat)
  | align
  deriving DecidableEq, Repr

namespace Call

/-- The arguments that the asserted ranges admit, for data in a 32 or a 64-bit integer. -/
def InRange : Call → Prop
  | emitBits data width => (0 < width ∧ width ≤ 32) ∧ data < 2 ^ width
  | emitVbrBits data width => (1 < width ∧ width ≤ 32) ∧ data < 2 ^ 64
  | align => True

instance : DecidablePred InRange
  | emitBits _ _ => inferInstanceAs (Decidable (_ ∧ _))
  | emitVbrBits _ _ => inferInstanceAs (Decidable (_ ∧ _))
  | align => inferInstanceAs (Decidable True)

def run (b : Buffer) : Call → Option Buffer
  | emitBits data width => b.emitBits data width
  | emitVbrBits data width => b.emitVbrBits data width
  | align => b.align

def bits (pos : Nat) : Call → List Bool
  | emitBits data width => bitsOfNat width data
  | emitVbrBits data width => vbrBits width data
  | align => padding 32 pos

/-- The value that a reader gets back; an alignment carries none. -/
def value? : Call → Option Nat
  | emitBits data _ => some data
  | emitVbrBits data _ => some data
  | align => none

def reader : Call → Reader (Option Nat)
  | emitBits _ width => some <$> fixed width
  | emitVbrBits _ width => some <$> vbr width
  | align => do
    alignTo 32
    pure none

theorem run_spec {b : Buffer} (wellFormed : b.WellFormed) {call : Call} (inRange : call.InRange) :
    ∃ b', call.run b = some b' ∧ Appends b b' (call.bits b.bits.length) := by
  cases call with
  | emitBits data width =>
      obtain ⟨⟨positive, narrow⟩, fits⟩ := inRange
      exact emitBits_spec wellFormed positive narrow fits
  | emitVbrBits data width =>
      obtain ⟨⟨wide, narrow⟩, fits⟩ := inRange
      exact emitVbrBits_spec wellFormed wide narrow fits
  | align =>
      obtain ⟨b', aligned, appends, _⟩ := align_spec wellFormed
      exact ⟨b', aligned, appends⟩

theorem reads {call : Call} (inRange : call.InRange) (pos : Nat) :
    Reads pos call.reader (call.bits pos) call.value? := by
  cases call with
  | emitBits data width =>
      apply Reads.map
      exact reads_fixed inRange.2
  | emitVbrBits data width =>
      apply Reads.map
      exact reads_vbr inRange.1.1 pos data
  | align =>
      apply Reads.bind_nil
      · exact reads_alignTo pos 32
      · exact Reads.pure none

end Call

def runCalls (b : Buffer) (calls : List Call) : Option Buffer :=
  calls.foldlM Call.run b

def layout : Nat → List Call → List Bool
  | _, [] => []
  | pos, call :: calls =>
    call.bits pos ++ layout (pos + (call.bits pos).length) calls

def readCalls : List Call → Reader (List (Option Nat))
  | [] => pure []
  | call :: calls => do
    let value ← call.reader
    let values ← readCalls calls
    pure (value :: values)

theorem runCalls_spec {calls : List Call} (inRange : ∀ call ∈ calls, call.InRange) {b : Buffer}
    (wellFormed : b.WellFormed) :
    ∃ b', runCalls b calls = some b' ∧ Appends b b' (layout b.bits.length calls) := by
  induction calls generalizing b with
  | nil => exact ⟨b, rfl, Appends.refl wellFormed⟩
  | cons call calls inductionHypothesis =>
      obtain ⟨between, ran, first⟩ := call.run_spec wellFormed (inRange call (by simp))
      obtain ⟨b', rest, second⟩ :=
        inductionHypothesis (fun call member => inRange call (by simp [member])) first.wellFormed
      refine ⟨b', ?_, ?_⟩
      · rw [runCalls, List.foldlM_cons, ran]
        exact rest
      · rw [first.bits_eq, List.length_append] at second
        exact first.trans second

theorem reads_calls {calls : List Call} (inRange : ∀ call ∈ calls, call.InRange) (pos : Nat) :
    Reads pos (readCalls calls) (layout pos calls) (calls.map Call.value?) := by
  induction calls generalizing pos with
  | nil => exact Reads.pure []
  | cons call calls inductionHypothesis =>
      apply Reads.bind
      · exact call.reads (inRange call (by simp)) pos
      · apply Reads.bind_nil
        · exact inductionHypothesis (fun call member => inRange call (by simp [member])) _
        · exact Reads.pure _

/-- After any calls the flushed and the pending bits are the layout of the calls, less than a
word is pending with nothing above it, and reading the bits gives back every value. -/
theorem runCalls_faithful (abbrevWidth : Nat) {calls : List Call}
    (inRange : ∀ call ∈ calls, call.InRange) :
    ∃ b, runCalls (init abbrevWidth) calls = some b ∧
      bitsOfBytes b.blob.data ++ bitsOfNat b.bufBits b.buf = layout 0 calls ∧
      b.bufBits < 32 ∧ b.buf < 2 ^ b.bufBits ∧
      readCalls calls (Cursor.start b.bits) =
        some (calls.map Call.value?, ⟨b.bits.length, []⟩) := by
  obtain ⟨b, ran, appends⟩ := runCalls_spec inRange (wellFormed_init abbrevWidth)
  have whole : b.bits = layout 0 calls := by
    rw [appends.bits_eq, bits_init]
    rfl
  refine ⟨b, ran, whole, appends.wellFormed.pending, appends.wellFormed.clean, ?_⟩
  have read := reads_calls inRange 0 []
  rw [List.append_nil, Nat.zero_add] at read
  rw [whole]
  exact read

theorem runCalls_faithful_acrossWords :
    ∃ b, runCalls (init 2)
        [.emitBits 0x1111111 28, .emitVbrBits 0x22222222 6, .align, .emitBits 0xbeef 16] =
          some b ∧
      bitsOfBytes b.blob.data ++ bitsOfNat b.bufBits b.buf =
        layout 0
          [.emitBits 0x1111111 28, .emitVbrBits 0x22222222 6, .align, .emitBits 0xbeef 16] ∧
      b.bufBits < 32 ∧ b.buf < 2 ^ b.bufBits ∧
      readCalls [.emitBits 0x1111111 28, .emitVbrBits 0x22222222 6, .align, .emitBits 0xbeef 16]
          (Cursor.start b.bits) =
        some ([some 0x1111111, some 0x22222222, none, some 0xbeef], ⟨b.bits.length, []⟩) :=
  runCalls_faithful 2 (by decide)

end Buffer

end SpirvToDxil
