import SpirvToDxil.Dxil.BufferCalls
import SpirvToDxil.Dxil.Module.Record

/-!
# Fields of up to 64 bits

`emit_bits64` splits a field in two when its data does not fit in 32 bits. The first half goes out
with the width of the whole field, and a wide field with small data is not split at all.
-/

namespace SpirvToDxil

open Bitstream

namespace Buffer

/-- The calls of `dxil_buffer_emit_bits` that `emit_bits64` makes. -/
def emitBits64Calls (data width : Nat) : List Call :=
  if 2 ^ 32 - 1 < data then
    [.emitBits (data % 2 ^ 32) width, .emitBits (data / 2 ^ 32) (width - 32)]
  else [.emitBits data width]

theorem emitBits64_eq_runCalls (b : Buffer) {data width : Nat} (fits : data < 2 ^ width) :
    b.emitBits64 data width = runCalls b (emitBits64Calls data width) := by
  unfold emitBits64 emitBits64Calls
  split
  · next large =>
    have wide : 32 < width := by
      have above : 2 ^ 32 < 2 ^ width := by
        apply Nat.lt_of_le_of_lt _ fits
        exact Nat.le_of_pred_lt large
      exact (Nat.pow_lt_pow_iff_right (Nat.lt_succ_self 1)).mp above
    rw [if_pos wide]
    simp [runCalls, Call.run]
  · simp [runCalls, Call.run]

/-- The field reaches the buffer through calls that it admits, and whatever is emitted behind it
finds the bits of the field in front, lowest bit first. -/
structure EmitsField (data width : Nat) : Prop where
  inRange : ∀ call ∈ emitBits64Calls data width, call.InRange
  appends : ∀ b : Buffer, b.WellFormed → ∀ calls : List Call, (∀ call ∈ calls, call.InRange) →
    ∃ b', (b.emitBits64 data width).bind (fun b => runCalls b calls) = some b' ∧
      Appends b b' (bitsOfNat width data ++ layout (b.bits.length + width) calls)

theorem emitBits64Calls_narrow {data width : Nat} (narrow : width ≤ 32) (fits : data < 2 ^ width) :
    emitBits64Calls data width = [.emitBits data width] := by
  have oneWord : data < 2 ^ 32 := fits.trans_le (Nat.pow_le_pow_right (by decide) narrow)
  exact if_neg (by omega)

theorem exists_call_of_width (data width : Nat) :
    ∃ low, Call.emitBits low width ∈ emitBits64Calls data width := by
  unfold emitBits64Calls
  split
  · exact ⟨data % 2 ^ 32, List.mem_cons_self⟩
  · exact ⟨data, List.mem_cons_self⟩

theorem emitsField_of_narrow {data width : Nat} (positive : 0 < width) (narrow : width ≤ 32)
    (fits : data < 2 ^ width) : EmitsField data width := by
  have calls : emitBits64Calls data width = [.emitBits data width] :=
    emitBits64Calls_narrow narrow fits
  have inRange : ∀ call ∈ emitBits64Calls data width, call.InRange := by
    intro call member
    rw [calls] at member
    cases List.mem_singleton.mp member
    exact ⟨⟨positive, narrow⟩, fits⟩
  refine ⟨inRange, ?_⟩
  intro b wellFormed more moreInRange
  obtain ⟨between, emitted, first⟩ := runCalls_spec inRange wellFormed
  obtain ⟨b', ran, second⟩ := runCalls_spec moreInRange first.wellFormed
  have field : layout b.bits.length (emitBits64Calls data width) = bitsOfNat width data := by
    rw [calls]
    exact List.append_nil _
  refine ⟨b', ?_, ?_⟩
  · rw [emitBits64_eq_runCalls b fits, emitted]
    exact ran
  · rw [field] at first
    rw [first.bits_eq, List.length_append, length_bitsOfNat] at second
    exact first.trans second

theorem emitsField_iff {data width : Nat} (positive : 0 < width) (fits : data < 2 ^ width) :
    EmitsField data width ↔ width ≤ 32 := by
  constructor
  · intro emits
    obtain ⟨low, member⟩ := exists_call_of_width data width
    exact (emits.inRange _ member).1.2
  · intro narrow
    exact emitsField_of_narrow positive narrow fits

theorem emitsField_iff_word : EmitsField 0xdeadbeef 32 ↔ 32 ≤ 32 :=
  emitsField_iff (by decide) (by decide)

/-- The low word of 2^32 goes out as a field of 33 bits. -/
theorem not_emitsField_33 : ¬ EmitsField (2 ^ 32) 33 := by
  intro emits
  have narrow := (emits.inRange (.emitBits 0 33) (by decide)).1.2
  exact absurd narrow (by decide)

end Buffer

end SpirvToDxil
