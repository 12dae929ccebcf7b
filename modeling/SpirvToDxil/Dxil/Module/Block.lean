import SpirvToDxil.Dxil.Module.RoundTrip
import SpirvToDxil.Bitstream.Block

/-!
# Blocks of the bitcode writer

`enter_subblock` pads to a word, reserves the word count of the block and saves
the abbreviation width on a stack; `exit_block` pads again, patches the count and
restores the width.  A run of writer calls that opens and closes blocks in a
nested way encodes one tree of blocks, which every reader of the stream finds.
-/

namespace SpirvToDxil

open Bitstream

structure OpenBlock where
  abbrevWidth : Nat
  offset : Nat
  deriving DecidableEq, Repr

/-- The parts of `struct dxil_module` that writing blocks changes; the innermost
open block comes first, and `num_blocks` is their number. -/
structure Writer where
  buf : Buffer
  blocks : List OpenBlock

def MAX_BLOCKS : Nat := 16

inductive WriterCall where
  | enterSubblock (id abbrevWidth : Nat)
  | exitBlock
  | emitRecordNoAbbrev (code : Nat) (data : List Nat)
  | emitRecordAbbrev (id : Nat) (a : DxilAbbrev) (data : List Nat)
  | defineAbbrev (a : DxilAbbrev)

namespace Writer

def enterSubblock (m : Writer) (id abbrevWidth : Nat) : Option Writer :=
  if m.blocks.length < MAX_BLOCKS then do
    let buf ← m.buf.emitAbbrevId DXIL_ENTER_SUBBLOCK
    let buf ← buf.emitVbrBits id 8
    let buf ← buf.emitVbrBits abbrevWidth 4
    let buf ← buf.align
    let (blob, reserved) := buf.blob.reserveUint32
    let offset ← reserved
    some {
      buf := { buf with blob := blob, abbrevWidth := abbrevWidth }
      blocks := ⟨m.buf.abbrevWidth, offset⟩ :: m.blocks }
  else none

def exitBlock (m : Writer) : Option Writer :=
  match m.blocks with
  | [] => none
  | block :: blocks =>
    if m.blocks.length < MAX_BLOCKS then do
      let buf ← m.buf.emitAbbrevId DXIL_END_BLOCK
      let buf ← buf.align
      let size := (buf.blob.size - block.offset - 1) / 4 % 2 ^ 32
      let blob ← buf.blob.overwriteUint32 block.offset size
      some { buf := { buf with blob := blob, abbrevWidth := block.abbrevWidth }, blocks := blocks }
    else none

def call (m : Writer) : WriterCall → Option Writer
  | .enterSubblock id abbrevWidth => m.enterSubblock id abbrevWidth
  | .exitBlock => m.exitBlock
  | .emitRecordNoAbbrev code data => do
    let buf ← m.buf.emitRecordNoAbbrev code data
    some { m with buf := buf }
  | .emitRecordAbbrev id a data => do
    let buf ← m.buf.emitRecordAbbrev id a data
    some { m with buf := buf }
  | .defineAbbrev a => do
    let buf ← m.buf.defineAbbrev a
    some { m with buf := buf }

def run (m : Writer) (calls : List WriterCall) : Option Writer := calls.foldlM call m

@[simp] theorem run_nil (m : Writer) : m.run [] = some m := rfl

@[simp] theorem run_cons (m : Writer) (c : WriterCall) (calls : List WriterCall) :
    m.run (c :: calls) = (m.call c).bind fun m => m.run calls := rfl

theorem run_append (m : Writer) (first second : List WriterCall) :
    m.run (first ++ second) = (m.run first).bind fun m => m.run second := by
  simp [run, List.foldlM_append]

end Writer

/-! ## Nested calls -/

/-- A sequence of calls whose blocks are properly nested, each record of which fits
an abbreviation that is in scope, and the contents that it stands for. -/
inductive Nested : Scope → List WriterCall → Contents → Scope → Prop where
  | nil {scope} : Nested scope [] .nil scope
  | defineAbbrev {scope scope' scope'' a layout calls rest} :
      a.layout? = some layout → a.WidthsOk → scope.define? layout = some scope' →
      Nested scope' calls rest scope'' →
      Nested scope (.defineAbbrev a :: calls) (.define layout rest) scope''
  | emitRecordNoAbbrev {scope scope' code data calls rest} :
      code < 2 ^ 32 → data.length < 2 ^ 64 → (∀ value ∈ data, value < 2 ^ 64) →
      Nested (scope.unabbrev code data) calls rest scope' →
      Nested scope (.emitRecordNoAbbrev code data :: calls) (.unabbrev code data rest) scope'
  | emitRecordAbbrev {scope scope' id a layout data calls rest} :
      DXIL_FIRST_APPLICATION_ABBREV ≤ id → a.layout? = some layout → a.WidthsOk →
      scope.abbrevs[id - 4]? = some layout →
      Abbrev.Conforms layout.fields layout.array data →
      data.length < 2 ^ 64 → (∀ value ∈ data, value < 2 ^ 64) →
      Nested scope calls rest scope' →
      Nested scope (.emitRecordAbbrev id a data :: calls) (.record id data rest) scope'
  | block {scope inner outer blockId abbrevWidth body calls bodyContents rest} :
      Nested (scope.enter blockId) body bodyContents inner →
      Nested (scope.leave inner) calls rest outer →
      Nested scope (.enterSubblock blockId abbrevWidth :: (body ++ .exitBlock :: calls))
        (.block blockId abbrevWidth bodyContents rest) outer

/-- The abbreviation ids used in contents are below `2 ^ width`, and the widths that
blocks ask for leave room for the reserved ids. -/
def IdsFit : Nat → Contents → Prop
  | _, .nil => True
  | width, .define _ rest => IdsFit width rest
  | width, .unabbrev _ _ rest => IdsFit width rest
  | width, .record id _ rest => id < 2 ^ width ∧ IdsFit width rest
  | width, .block blockId newWidth body rest =>
    blockId < 2 ^ 32 ∧ (2 ≤ newWidth ∧ newWidth ≤ 32) ∧ IdsFit newWidth body ∧ IdsFit width rest

/-! ## Patching the word count -/

theorem bitsOfBytes_take (bytes : List UInt8) (n : Nat) :
    bitsOfBytes (bytes.take n) = (bitsOfBytes bytes).take (8 * n) := by
  rcases Nat.le_total n bytes.length with inside | outside
  · conv_rhs => rw [← List.take_append_drop n bytes, bitsOfBytes_append]
    rw [List.take_left' (by simp [inside])]
  · rw [List.take_of_length_le outside, List.take_of_length_le (by simp; omega)]

theorem bitsOfBytes_drop (bytes : List UInt8) (n : Nat) :
    bitsOfBytes (bytes.drop n) = (bitsOfBytes bytes).drop (8 * n) := by
  rcases Nat.le_total n bytes.length with inside | outside
  · conv_rhs => rw [← List.take_append_drop n bytes, bitsOfBytes_append]
    rw [List.drop_left' (by simp [inside])]
  · rw [List.drop_of_length_le outside, List.drop_of_length_le (by simp; omega)]
    rfl

namespace Buffer

/-- Overwriting a flushed word replaces its bits and no other. -/
theorem overwrite_spec {b : Buffer} {before word after : List Bool} {offset : Nat} (value : Nat)
    (wellFormed : b.WellFormed) (flushed : b.bufBits = 0)
    (bits : b.bits = before ++ (word ++ after)) (position : before.length = 8 * offset)
    (wordLength : word.length = 32) :
    ∃ blob, b.blob.overwriteUint32 offset value = some blob ∧
      ∀ abbrevWidth, ({ b with blob := blob, abbrevWidth := abbrevWidth } : Buffer).WellFormed ∧
        ({ b with blob := blob, abbrevWidth := abbrevWidth } : Buffer).bits =
          before ++ (bitsOfNat 32 value ++ after) := by
  obtain ⟨pending, clean, growable, words⟩ := wellFormed
  have blobBits : bitsOfBytes b.blob.data = before ++ (word ++ after) := by
    simpa [Buffer.bits, flushed] using bits
  have total : 8 * b.blob.size = before.length + (32 + after.length) := by
    have := congrArg List.length blobBits
    simpa [Blob.size, wordLength] using this
  have inside : offset + (bytesOfNat 4 value).length ≤ b.blob.size := by
    rw [length_bytesOfNat]
    omega
  obtain ⟨blob, written, data, fixedSame, memorySame⟩ := Blob.overwriteBytes_inside inside
  refine ⟨blob, written, fun abbrevWidth => ⟨⟨pending, clean, ?_, ?_⟩, ?_⟩⟩
  · exact ⟨fixedSame.trans growable.1, memorySame.trans growable.2⟩
  · simp only [Blob.size, length_bytesOfNat] at inside words total
    simp only [Blob.size, data, List.length_append, List.length_take, List.length_drop,
      length_bytesOfNat]
    omega
  · have prefixBits : (before ++ (word ++ after)).take (8 * offset) = before := by
      rw [← position, List.take_left]
    have suffixBits : (before ++ (word ++ after)).drop (8 * (offset + 4)) = after := by
      rw [← List.append_assoc, List.drop_left']
      simp only [List.length_append, position, wordLength]
      omega
    simp only [Buffer.bits, flushed, bitsOfNat_zero_width, List.append_nil, data,
      length_bytesOfNat, bitsOfBytes_append, bitsOfBytes_take, bitsOfBytes_drop, blobBits,
      prefixBits, suffixBits, bitsOfBytes_bytesOfNat, List.append_assoc]

end Buffer

/-! ## One block -/

namespace Writer

theorem enterSubblock_spec {m : Writer} {blockId newWidth : Nat} (wellFormed : m.buf.WellFormed)
    (wide : 2 ≤ m.buf.abbrevWidth) (narrow : m.buf.abbrevWidth ≤ 32) (blockFits : blockId < 2 ^ 32)
    (newNarrow : newWidth ≤ 32) (free : m.blocks.length < MAX_BLOCKS) :
    ∃ m' offset, m.enterSubblock blockId newWidth = some m' ∧ m'.buf.WellFormed ∧
      m'.buf.abbrevWidth = newWidth ∧ m'.blocks = ⟨m.buf.abbrevWidth, offset⟩ :: m.blocks ∧
      (m.buf.bits ++ (blockHeader m.buf.abbrevWidth blockId newWidth ++
        padding 32 (m.buf.bits.length +
          (blockHeader m.buf.abbrevWidth blockId newWidth).length))).length = 8 * offset ∧
      m'.buf.bits = m.buf.bits ++ (blockHeader m.buf.abbrevWidth blockId newWidth ++
        padding 32 (m.buf.bits.length +
          (blockHeader m.buf.abbrevWidth blockId newWidth).length)) ++ bitsOfNat 32 0 := by
  have idFits : DXIL_ENTER_SUBBLOCK < 2 ^ m.buf.abbrevWidth :=
    calc 1 < 2 ^ 2 := by decide
      _ ≤ 2 ^ m.buf.abbrevWidth := Nat.pow_le_pow_right (by decide) wide
  obtain ⟨b₁, ident, first⟩ := Buffer.emitAbbrevId_spec wellFormed (by omega) narrow idFits
  obtain ⟨b₂, blockIdWritten, second⟩ := Buffer.emitVbrBits_spec first.wellFormed
    (by decide : 1 < 8) (by decide) (blockFits.trans (by decide))
  obtain ⟨b₃, widthWritten, third⟩ := Buffer.emitVbrBits_spec second.wellFormed
    (by decide : 1 < 4) (by decide) (show newWidth < 2 ^ 64 by omega)
  obtain ⟨b₄, aligned, fourth, flushed⟩ := Buffer.align_spec third.wellFormed
  have header := first.trans (second.trans third)
  have position : b₃.bits.length =
      m.buf.bits.length + (blockHeader m.buf.abbrevWidth blockId newWidth).length := by
    rw [header.bits_eq, List.length_append]
    rfl
  rw [position] at fourth
  have all := header.trans fourth
  obtain ⟨pending, clean, growable, words⟩ := all.wellFormed
  obtain ⟨reserved, data, stillGrowable⟩ := Blob.reserveUint32_growable growable words
  refine ⟨{
      buf := { b₄ with blob := b₄.blob.reserveUint32.1, abbrevWidth := newWidth }
      blocks := ⟨m.buf.abbrevWidth, b₄.blob.size⟩ :: m.blocks },
    b₄.blob.size, ?_, ⟨?_, ?_, stillGrowable, ?_⟩, rfl, rfl, ?_, ?_⟩
  · simp only [enterSubblock, if_pos free, ident, blockIdWritten, widthWritten, aligned, reserved,
      Option.bind_eq_bind, Option.bind_some]
  · exact pending
  · exact clean
  · simp only [Blob.size, data, List.length_append, List.length_replicate] at words ⊢
    omega
  · have length := Buffer.length_bits b₄
    rw [flushed, all.bits_eq] at length
    exact length
  · have flushedBits := all.bits_eq
    simp only [Buffer.bits, flushed, bitsOfNat_zero_width, List.append_nil] at flushedBits
    simp only [Buffer.bits, flushed, bitsOfNat_zero_width, List.append_nil, data,
      bitsOfBytes_append, flushedBits]
    rfl

/-- Leaving a block writes the end marker and patches the word reserved in front of
the body with the number of words up to it. -/
theorem exitBlock_spec {m : Writer} {saved offset words : Nat} {blocks : List OpenBlock}
    {before word body : List Bool} (wellFormed : m.buf.WellFormed)
    (wide : 2 ≤ m.buf.abbrevWidth) (narrow : m.buf.abbrevWidth ≤ 32)
    (opened : m.blocks = ⟨saved, offset⟩ :: blocks) (free : blocks.length + 1 < MAX_BLOCKS)
    (bits : m.buf.bits = before ++ (word ++ body)) (position : before.length = 8 * offset)
    (wordLength : word.length = 32)
    (count : (body ++ blockEnd m.buf.abbrevWidth m.buf.bits.length).length = 32 * words) :
    ∃ m', m.exitBlock = some m' ∧ m'.buf.WellFormed ∧ m'.buf.abbrevWidth = saved ∧
      m'.blocks = blocks ∧
      m'.buf.bits = before ++ (bitsOfNat 32 (words % 2 ^ 32) ++
        (body ++ blockEnd m.buf.abbrevWidth m.buf.bits.length)) := by
  obtain ⟨b₁, ident, first⟩ := Buffer.emitAbbrevId_spec wellFormed (by omega) narrow
    (Nat.two_pow_pos m.buf.abbrevWidth : DXIL_END_BLOCK < 2 ^ m.buf.abbrevWidth)
  obtain ⟨b₂, aligned, second, flushed⟩ := Buffer.align_spec first.wellFormed
  have all := first.trans second
  have ended : bitsOfNat m.buf.abbrevWidth 0 ++ padding 32 b₁.bits.length =
      blockEnd m.buf.abbrevWidth m.buf.bits.length := by
    rw [first.bits_eq, List.length_append, length_bitsOfNat]
    rfl
  have finished : b₂.bits =
      before ++ (word ++ (body ++ blockEnd m.buf.abbrevWidth m.buf.bits.length)) := by
    rw [all.bits_eq, ended, bits, List.append_assoc, List.append_assoc]
  have size : b₂.blob.size = offset + 4 + 4 * words := by
    have length := Buffer.length_bits b₂
    rw [finished, flushed, List.length_append, List.length_append, count] at length
    omega
  obtain ⟨blob, overwritten, patched⟩ :=
    Buffer.overwrite_spec (words % 2 ^ 32) second.wellFormed flushed finished position wordLength
  obtain ⟨patchedWellFormed, patchedBits⟩ := patched saved
  refine ⟨{ buf := { b₂ with blob := blob, abbrevWidth := saved }, blocks := blocks }, ?_,
    patchedWellFormed, rfl, rfl, patchedBits⟩
  have countWord : (b₂.blob.size - offset - 1) / 4 % 2 ^ 32 = words % 2 ^ 32 := by
    rw [size]
    omega
  simp only [exitBlock, opened, List.length_cons, if_pos free, DXIL_END_BLOCK, ident, aligned,
    countWord, overwritten, Option.bind_eq_bind, Option.bind_some]

end Writer

/-! ## Runs of nested calls -/

/-- A word count exists for every body, since its end marker is padded. -/
theorem blockEnd_words (width start : Nat) (body : List Bool) (aligned : start % 32 = 0) :
    ∃ words, (body ++ blockEnd width (start + body.length)).length = 32 * words := by
  have padded := @padding_aligns 32 (start + body.length + width) (by decide)
  refine ⟨(body ++ blockEnd width (start + body.length)).length / 32, ?_⟩
  simp only [blockEnd, List.length_append, length_bitsOfNat]
  omega

theorem Writer.exists_run_cons {scope scope' : Scope} {m : Writer} {b : Buffer} {call : WriterCall}
    {calls : List WriterCall} {contents : Contents} {first : List Bool}
    (called : m.call call = some { m with buf := b }) (appends : m.buf.Appends b first)
    (rest : ∃ m' bits, Writer.run { m with buf := b } calls = some m' ∧ b.Appends m'.buf bits ∧
      m'.blocks = m.blocks ∧ Encodes scope b.abbrevWidth b.bits.length contents bits scope') :
    ∃ m' bits, m.run (call :: calls) = some m' ∧ m.buf.Appends m'.buf (first ++ bits) ∧
      m'.blocks = m.blocks ∧
      Encodes scope m.buf.abbrevWidth (m.buf.bits.length + first.length) contents bits scope' := by
  obtain ⟨m', bits, ran, more, blocks, encodes⟩ := rest
  refine ⟨m', bits, ?_, appends.trans more, blocks, ?_⟩
  · rw [Writer.run_cons, called, Option.bind_some, ran]
  · rwa [appends.abbrevWidth_eq, appends.bits_eq, List.length_append] at encodes

/-- A nested run appends an encoding of its contents and changes nothing else. -/
theorem Nested.run_spec {scope scope' : Scope} {calls : List WriterCall} {contents : Contents}
    (nested : Nested scope calls contents scope') :
    ∀ {m : Writer}, m.buf.WellFormed → 2 ≤ m.buf.abbrevWidth → m.buf.abbrevWidth ≤ 32 →
      IdsFit m.buf.abbrevWidth contents → m.blocks.length + contents.height < MAX_BLOCKS →
      ∃ m' bits, m.run calls = some m' ∧ m.buf.Appends m'.buf bits ∧ m'.blocks = m.blocks ∧
        Encodes scope m.buf.abbrevWidth m.buf.bits.length contents bits scope' := by
  induction nested with
  | nil =>
    intro m wellFormed _ _ _ _
    exact ⟨m, [], rfl, Buffer.Appends.refl wellFormed, rfl, .nil⟩
  | @defineAbbrev scope scope' scope'' a layout calls rest shape widthsOk defined _ ih =>
    intro m wellFormed wide narrow idsFit free
    obtain ⟨b, written, appends⟩ := Buffer.defineAbbrev_spec shape widthsOk wellFormed wide narrow
    rw [← appends.abbrevWidth_eq] at wide narrow idsFit
    have called : m.call (.defineAbbrev a) = some { m with buf := b } := by
      rw [Writer.call, written, Option.bind_eq_bind, Option.bind_some]
    obtain ⟨m', bits, ran, more, blocks, encodes⟩ := Writer.exists_run_cons called appends
      (@ih { m with buf := b } appends.wellFormed wide narrow idsFit free)
    refine ⟨m', _, ran, more, blocks, ?_⟩
    rw [List.length_append, length_bitsOfNat, ← Nat.add_assoc] at encodes
    rw [List.append_assoc]
    exact .define defined encodes
  | @emitRecordNoAbbrev scope scope' code data calls rest codeFits count small _ ih =>
    intro m wellFormed wide narrow idsFit free
    obtain ⟨b, written, appends⟩ := Buffer.emitRecordNoAbbrev_spec (codeFits.trans (by decide))
      count small wellFormed wide narrow
    rw [← appends.abbrevWidth_eq] at wide narrow idsFit
    have called : m.call (.emitRecordNoAbbrev code data) = some { m with buf := b } := by
      rw [Writer.call, written, Option.bind_eq_bind, Option.bind_some]
    obtain ⟨m', bits, ran, more, blocks, encodes⟩ := Writer.exists_run_cons called appends
      (@ih { m with buf := b } appends.wellFormed wide narrow idsFit free)
    refine ⟨m', _, ran, more, blocks, ?_⟩
    rw [List.length_append, length_bitsOfNat, ← Nat.add_assoc] at encodes
    rw [List.append_assoc]
    exact .unabbrev encodes
  | @emitRecordAbbrev scope scope' id a layout data calls rest application shape widthsOk found
      conforms count small _ ih =>
    intro m wellFormed wide narrow idsFit free
    obtain ⟨idFits, idsFit⟩ := idsFit
    obtain ⟨b, written, appends⟩ := Buffer.emitRecordAbbrev_spec shape widthsOk conforms count
      small wellFormed application idFits narrow
    rw [← appends.abbrevWidth_eq] at wide narrow idsFit
    have called : m.call (.emitRecordAbbrev id a data) = some { m with buf := b } := by
      rw [Writer.call, written, Option.bind_eq_bind, Option.bind_some]
    obtain ⟨m', bits, ran, more, blocks, encodes⟩ := Writer.exists_run_cons called appends
      (@ih { m with buf := b } appends.wellFormed wide narrow idsFit free)
    refine ⟨m', _, ran, more, blocks, ?_⟩
    rw [List.length_append, length_bitsOfNat, ← Nat.add_assoc] at encodes
    rw [List.append_assoc]
    exact .record application idFits found (AbbrevOperand.layout_valid shape widthsOk) conforms
      encodes
  | @block scope inner outer blockId newWidth body calls bodyContents rest _ _ ihBody ihRest =>
    intro m wellFormed wide narrow idsFit free
    obtain ⟨blockFits, ⟨newWide, newNarrow⟩, bodyFit, restFit⟩ := idsFit
    simp only [Contents.height, MAX_BLOCKS] at free
    obtain ⟨m₁, offset, entered, wellFormed₁, width₁, blocks₁, position, bits₁⟩ :=
      Writer.enterSubblock_spec wellFormed wide narrow blockFits newNarrow
        (show m.blocks.length < 16 by omega)
    obtain ⟨m₂, bodyBits, ran, appends₂, blocks₂, encodes₂⟩ :=
      ihBody wellFormed₁ (width₁ ▸ newWide) (width₁ ▸ newNarrow) (width₁ ▸ bodyFit)
        (by rw [blocks₁, List.length_cons, MAX_BLOCKS]; omega)
    -- the state in front of the end marker
    have aligned := @padding_aligns 32 (m.buf.bits.length +
      (blockHeader m.buf.abbrevWidth blockId newWidth).length) (by decide)
    have start : m₁.buf.bits.length % 32 = 0 := by
      rw [bits₁]
      simp only [List.length_append, length_bitsOfNat]
      omega
    have width₂ : m₂.buf.abbrevWidth = newWidth := appends₂.abbrevWidth_eq.trans width₁
    have length₂ : m₂.buf.bits.length = m₁.buf.bits.length + bodyBits.length := by
      rw [appends₂.bits_eq, List.length_append]
    obtain ⟨words, count⟩ := blockEnd_words newWidth m₁.buf.bits.length bodyBits start
    obtain ⟨m₃, exited, wellFormed₃, width₃, blocks₃, bits₃⟩ :=
      Writer.exitBlock_spec appends₂.wellFormed (width₂ ▸ newWide)
        (width₂ ▸ newNarrow) (blocks₂.trans blocks₁) (by simp only [MAX_BLOCKS]; omega)
        (by rw [appends₂.bits_eq, bits₁, List.append_assoc]) position (length_bitsOfNat 32 0)
        (show _ = 32 * words by rw [width₂, length₂]; exact count)
    obtain ⟨m₄, restBits, ranRest, appends₄, blocks₄, encodes₄⟩ :=
      ihRest wellFormed₃ (width₃ ▸ wide) (width₃ ▸ narrow) (width₃ ▸ restFit)
        (by rw [blocks₃, MAX_BLOCKS]; omega)
    have final : m₄.buf.bits = m.buf.bits ++ (blockHeader m.buf.abbrevWidth blockId newWidth ++
        (padding 32 (m.buf.bits.length + (blockHeader m.buf.abbrevWidth blockId newWidth).length) ++
          (bitsOfNat 32 (words % 2 ^ 32) ++
            (bodyBits ++ (blockEnd newWidth (m₁.buf.bits.length + bodyBits.length) ++
              restBits))))) := by
      rw [appends₄.bits_eq, bits₃, width₂, length₂]
      simp only [List.append_assoc]
    refine ⟨m₄, _, ?_, ⟨appends₄.wellFormed, final, appends₄.abbrevWidth_eq.trans width₃⟩,
      blocks₄.trans blocks₃, ?_⟩
    · rw [Writer.run_cons, Writer.call, entered, Option.bind_some, Writer.run_append, ran,
        Option.bind_some, Writer.run_cons, Writer.call, exited, Option.bind_some, ranRest]
    · have bodyEnd := count
      simp only [List.length_append] at bodyEnd
      rw [bitsOfNat_mod]
      have startEq : m₁.buf.bits.length = m.buf.bits.length +
          (blockHeader m.buf.abbrevWidth blockId newWidth).length +
          (padding 32 (m.buf.bits.length +
            (blockHeader m.buf.abbrevWidth blockId newWidth).length)).length + 32 := by
        rw [bits₁]
        simp only [List.length_append, length_bitsOfNat]
        omega
      have length₃ : m₃.buf.bits.length = m₁.buf.bits.length + 32 * words := by
        rw [bits₃, width₂, length₂]
        simp only [List.length_append, length_bitsOfNat]
        omega
      rw [width₁] at encodes₂
      rw [width₃] at encodes₄
      exact .block newWide startEq start encodes₂ (by omega) length₃ encodes₄

/-! ## The module -/

def blockCalls (id abbrevWidth : Nat) (body : List WriterCall) : List WriterCall :=
  .enterSubblock id abbrevWidth :: (body ++ [.exitBlock])

/-- What `dxil_emit_module` writes in each of its blocks, and between them. -/
structure ModuleCalls where
  blockinfo : List WriterCall
  attribGroupTable : List WriterCall
  attributeTable : List WriterCall
  typeTable : List WriterCall
  moduleInfo : List WriterCall
  moduleConsts : List WriterCall
  metadata : List WriterCall
  valueSymbolTable : List WriterCall
  functions : List (List WriterCall)

def DXIL_BLOCKINFO : Nat := 0
def DXIL_MODULE : Nat := 8
def DXIL_PARAMATTR : Nat := 9
def DXIL_PARAMATTR_GROUP : Nat := 10
def DXIL_CONST_BLOCK : Nat := 11
def DXIL_FUNCTION_BLOCK : Nat := 12
def DXIL_VALUE_SYMTAB_BLOCK : Nat := 14
def DXIL_METADATA_BLOCK : Nat := 15
def DXIL_TYPE_BLOCK : Nat := 17

def DXIL_MODULE_CODE_VERSION : Nat := 1

def ModuleCalls.body (c : ModuleCalls) : List WriterCall :=
  .emitRecordNoAbbrev DXIL_MODULE_CODE_VERSION [1] ::
    (blockCalls DXIL_BLOCKINFO 2 c.blockinfo ++
      (blockCalls DXIL_PARAMATTR_GROUP 3 c.attribGroupTable ++
        (blockCalls DXIL_PARAMATTR 3 c.attributeTable ++
          (blockCalls DXIL_TYPE_BLOCK 4 c.typeTable ++
            (c.moduleInfo ++
              (blockCalls DXIL_CONST_BLOCK 4 c.moduleConsts ++
                (blockCalls DXIL_METADATA_BLOCK 3 c.metadata ++
                  (blockCalls DXIL_VALUE_SYMTAB_BLOCK 4 c.valueSymbolTable ++
                    c.functions.flatMap (blockCalls DXIL_FUNCTION_BLOCK 4)))))))))

theorem Nested.blockCalls_append {scope inner outer : Scope} {blockId abbrevWidth : Nat}
    {body calls : List WriterCall} {bodyContents rest : Contents}
    (nested : Nested (scope.enter blockId) body bodyContents inner)
    (after : Nested (scope.leave inner) calls rest outer) :
    Nested scope (blockCalls blockId abbrevWidth body ++ calls)
      (.block blockId abbrevWidth bodyContents rest) outer := by
  rw [blockCalls, List.cons_append, List.append_assoc]
  exact .block nested after

namespace Writer

def init : Writer := { buf := Buffer.init 2, blocks := [] }

def emitModule (m : Writer) (c : ModuleCalls) : Option Writer := do
  let buf ← m.buf.emitBits 0x42 8
  let buf ← buf.emitBits 0x43 8
  let buf ← buf.emitBits 0xC0 8
  let buf ← buf.emitBits 0xDE 8
  run { m with buf := buf } (blockCalls DXIL_MODULE 3 c.body)

/-- Between `m` and `m'` the writer wrote one well-formed block, and left nothing else
behind: the abbreviation width and the open blocks are those before the block, which
ends on a word boundary, and every strategy reads the same tree from it. -/
structure WroteBlock (m m' : Writer) (scope outer : Scope) (block : Contents) : Prop where
  wellFormed : m'.buf.WellFormed
  abbrevWidth_eq : m'.buf.abbrevWidth = m.buf.abbrevWidth
  blocks_eq : m'.blocks = m.blocks
  aligned : m'.buf.bits.length % 32 = 0
  wrote : ∃ bits, m'.buf.bits = m.buf.bits ++ bits ∧
    Encodes scope m.buf.abbrevWidth m.buf.bits.length block bits outer ∧
    ∀ strategy : Strategy, strategy.Allows bits.length → ∀ fuel, block.size ≤ fuel →
      Reads m.buf.bits.length (readBlock strategy fuel m.buf.abbrevWidth scope) bits (block, outer)

theorem run_block {scope inner : Scope} {blockId newWidth : Nat} {body : List WriterCall}
    {contents : Contents} (nested : Nested (scope.enter blockId) body contents inner)
    {m : Writer} (wellFormed : m.buf.WellFormed) (wide : 2 ≤ m.buf.abbrevWidth)
    (narrow : m.buf.abbrevWidth ≤ 32)
    (idsFit : IdsFit m.buf.abbrevWidth (.block blockId newWidth contents .nil))
    (free : m.blocks.length + (contents.height + 1) < MAX_BLOCKS) :
    ∃ m', m.run (blockCalls blockId newWidth body) = some m' ∧
      m.WroteBlock m' scope (scope.leave inner) (.block blockId newWidth contents .nil) := by
  have whole : Nested scope (blockCalls blockId newWidth body)
      (.block blockId newWidth contents .nil) (scope.leave inner) := .block nested .nil
  obtain ⟨m', bits, ran, appends, blocks, encodes⟩ :=
    whole.run_spec wellFormed wide narrow idsFit (by simpa [Contents.height] using free)
  refine ⟨m', ran, appends.wellFormed, appends.abbrevWidth_eq, blocks, ?_, bits,
    appends.bits_eq, encodes, ?_⟩
  · rw [appends.bits_eq, List.length_append]
    exact encodes.block_aligned
  · intro strategy allows fuel enough
    refine reads_readBlock wide encodes allows ?_
    simp only [Contents.size] at enough
    omega

/-- The four bytes in front of the module. -/
def magic : List Bool := bitsOfNat 32 0xDEC04342

theorem emitMagic_spec :
    ∃ b₁ b₂ b₃ b₄, (Buffer.init 2).emitBits 0x42 8 = some b₁ ∧ b₁.emitBits 0x43 8 = some b₂ ∧
      b₂.emitBits 0xC0 8 = some b₃ ∧ b₃.emitBits 0xDE 8 = some b₄ ∧
      (Buffer.init 2).Appends b₄ magic := by
  have wide : 0 < 8 := by decide
  have narrow : 8 ≤ 32 := by decide
  obtain ⟨b₁, emitted₁, first⟩ :=
    Buffer.emitBits_spec (Buffer.wellFormed_init 2) wide narrow (by decide : 0x42 < 2 ^ 8)
  obtain ⟨b₂, emitted₂, second⟩ :=
    Buffer.emitBits_spec first.wellFormed wide narrow (by decide : 0x43 < 2 ^ 8)
  obtain ⟨b₃, emitted₃, third⟩ :=
    Buffer.emitBits_spec second.wellFormed wide narrow (by decide : 0xC0 < 2 ^ 8)
  obtain ⟨b₄, emitted₄, fourth⟩ :=
    Buffer.emitBits_spec third.wellFormed wide narrow (by decide : 0xDE < 2 ^ 8)
  exact ⟨b₁, b₂, b₃, b₄, emitted₁, emitted₂, emitted₃, emitted₄,
    ((first.trans second).trans third).trans fourth⟩

/-- Properly nested calls write a well-formed stream: the module is the magic number and
one block, and every block, at whatever place, is well formed. -/
theorem emitModule_well_formed {c : ModuleCalls} {contents : Contents} {inner : Scope}
    (nested : Nested (Scope.top.enter DXIL_MODULE) c.body contents inner)
    (idsFit : IdsFit 3 contents) (free : contents.height + 1 < MAX_BLOCKS) :
    (∃ b m', init.emitModule c = some m' ∧ b.bits = magic ∧ b.abbrevWidth = 2 ∧
      WroteBlock { init with buf := b } m' Scope.top (Scope.top.leave inner)
        (.block DXIL_MODULE 3 contents .nil) ∧
      bitsOfBytes m'.buf.blob.data = m'.buf.bits) ∧
    ∀ (scope inner : Scope) (blockId newWidth : Nat) (body : List WriterCall) (contents : Contents)
      (m : Writer), Nested (scope.enter blockId) body contents inner → m.buf.WellFormed →
      2 ≤ m.buf.abbrevWidth → m.buf.abbrevWidth ≤ 32 →
      IdsFit m.buf.abbrevWidth (.block blockId newWidth contents .nil) →
      m.blocks.length + (contents.height + 1) < MAX_BLOCKS →
      ∃ m', m.run (blockCalls blockId newWidth body) = some m' ∧
        m.WroteBlock m' scope (scope.leave inner) (.block blockId newWidth contents .nil) := by
  constructor
  · obtain ⟨b₁, b₂, b₃, b₄, first, second, third, fourth, appends⟩ := emitMagic_spec
    have width : b₄.abbrevWidth = 2 := appends.abbrevWidth_eq
    obtain ⟨m', ran, wrote⟩ := @run_block Scope.top inner DXIL_MODULE 3 c.body contents nested
      { init with buf := b₄ } appends.wellFormed width.ge (by rw [width]; decide)
      ⟨by decide, by decide, idsFit, trivial⟩ (by simpa [init] using free)
    refine ⟨b₄, m', ?_, appends.bits_eq, width, wrote, ?_⟩
    · simp only [emitModule, init, first, second, third, fourth, Option.bind_eq_bind,
        Option.bind_some]
      exact ran
    · have flushed : m'.buf.bufBits = 0 := by
        rw [← wrote.wellFormed.bufBits_eq, wrote.aligned]
      simp [Buffer.bits, flushed]
  · intro scope inner blockId newWidth body contents m nested wellFormed wide narrow idsFit free
    exact run_block nested wellFormed wide narrow idsFit free

/-- A module with one function that returns at once, by an abbreviation that the
information block defines for function blocks. -/
def returningModule : ModuleCalls where
  blockinfo := [.emitRecordNoAbbrev 1 [DXIL_FUNCTION_BLOCK],
    .defineAbbrev { operands := [.literal 10] }]
  attribGroupTable := []
  attributeTable := []
  typeTable := []
  moduleInfo := []
  moduleConsts := []
  metadata := []
  valueSymbolTable := []
  functions := [[.emitRecordNoAbbrev 1 [1], .emitRecordAbbrev 4 { operands := [.literal 10] } [10]]]

/-- The tree of blocks of `returningModule`. -/
def returningContents : Contents :=
  .unabbrev 1 [1] (.block 0 2 (.unabbrev 1 [12] (.define ⟨[.literal 10], none⟩ .nil))
    (.block 10 3 .nil (.block 9 3 .nil (.block 17 4 .nil (.block 11 4 .nil (.block 15 3 .nil
      (.block 14 4 .nil (.block 12 4 (.unabbrev 1 [1] (.record 4 [10] .nil)) .nil))))))))

theorem emitModule_well_formed_returning :
    ∃ (b : Buffer) (m' : Writer), init.emitModule returningModule = some m' ∧ b.bits = magic ∧
      WroteBlock { init with buf := b } m' Scope.top
        (Scope.top.leave ⟨some 8, [], [(12, ⟨[.literal 10], none⟩)], none⟩)
        (.block DXIL_MODULE 3 returningContents .nil) := by
  have nested : Nested (Scope.top.enter DXIL_MODULE) returningModule.body returningContents
      ⟨some 8, [], [(12, ⟨[.literal 10], none⟩)], none⟩ := by
    refine .emitRecordNoAbbrev (by decide) (by decide) (by decide) ?_
    refine .blockCalls_append (.emitRecordNoAbbrev (by decide) (by decide) (by decide)
      (.defineAbbrev rfl (by decide) rfl .nil)) ?_
    refine .blockCalls_append .nil (.blockCalls_append .nil (.blockCalls_append .nil ?_))
    refine .blockCalls_append .nil (.blockCalls_append .nil (.blockCalls_append .nil ?_))
    exact .blockCalls_append (.emitRecordNoAbbrev (by decide) (by decide) (by decide)
      (.emitRecordAbbrev (by decide) rfl (by decide) rfl (by decide) (by decide) (by decide)
        .nil)) .nil
  obtain ⟨⟨b, m', emitted, bits, -, wrote, -⟩, -⟩ :=
    emitModule_well_formed nested (by simp [IdsFit, returningContents]) (by decide)
  exact ⟨b, m', emitted, bits, wrote⟩

end Writer

end SpirvToDxil
