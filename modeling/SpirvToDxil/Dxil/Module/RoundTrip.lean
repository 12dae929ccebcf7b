import SpirvToDxil.Dxil.Module.Record

/-!
# Records round-trip

Each emitter appends the bits that the bitstream format prescribes, so the rules
of the format's readers apply to what was written.  `WroteFor` states this in
terms of the stream: a reader standing where the writer started returns the
value and stands where the writer stopped.
-/

namespace SpirvToDxil

open Bitstream

namespace Buffer

/-- Between `b` and `b'` the writer wrote what `reader` reads as `value`. -/
def WroteFor {α : Type} (b b' : Buffer) (reader : Reader α) (value : α) : Prop :=
  ∃ written, Appends b b' written ∧ Reads b.bits.length reader written value

/-- The stream position of the reader ends where the writer stopped. -/
theorem WroteFor.stops {α : Type} {b b' : Buffer} {reader : Reader α} {value : α}
    (wrote : WroteFor b b' reader value) (rest : List Bool) :
    reader ⟨b.bits.length, b'.bits.drop b.bits.length ++ rest⟩ =
      some (value, ⟨b'.bits.length, rest⟩) := by
  obtain ⟨written, appends, reads⟩ := wrote
  rw [appends.bits_eq, List.drop_left, List.length_append]
  exact reads rest

theorem foldlM_spec {α : Type} {emit : Buffer → α → Option Buffer} {encode : α → List Bool}
    {values : List α}
    (each : ∀ b : Buffer, b.WellFormed → ∀ value ∈ values,
      ∃ b', emit b value = some b' ∧ Appends b b' (encode value))
    {b : Buffer} (wellFormed : b.WellFormed) :
    ∃ b', values.foldlM emit b = some b' ∧ Appends b b' (values.flatMap encode) := by
  induction values generalizing b with
  | nil => exact ⟨b, rfl, Appends.refl wellFormed⟩
  | cons value values ih =>
    obtain ⟨b₁, emitted, first⟩ := each b wellFormed value (by simp)
    obtain ⟨b₂, rest, second⟩ :=
      ih (fun b wf v member => each b wf v (by simp [member])) first.wellFormed
    refine ⟨b₂, ?_, ?_⟩
    · rw [List.foldlM_cons, emitted]
      exact rest
    · rw [List.flatMap_cons]
      exact first.trans second

theorem emitFixed_spec {b : Buffer} {data width : Nat} (wellFormed : b.WellFormed)
    (positive : 0 < width) (narrow : width ≤ 32) (fits : data < 2 ^ width) :
    ∃ b', b.emitFixed data width = some b' ∧ Appends b b' (bitsOfNat width data) := by
  have oneWord : data < 2 ^ 32 := fits.trans_le (Nat.pow_le_pow_right (by decide) narrow)
  rw [emitFixed, if_neg (by omega), emitBits64, if_neg (by omega)]
  exact emitBits_spec wellFormed positive narrow fits

theorem emitVbr_spec {b : Buffer} {data width : Nat} (wellFormed : b.WellFormed)
    (wide : 1 < width) (narrow : width ≤ 32) (fits : data < 2 ^ 64) :
    ∃ b', b.emitVbr data width = some b' ∧ Appends b b' (vbrBits width data) := by
  rw [emitVbr, if_neg (by omega)]
  exact emitVbrBits_spec wellFormed wide narrow fits

theorem emitChar6_spec {b : Buffer} {data : Nat} (wellFormed : b.WellFormed)
    (fits : Scalar.char6.Fits data) :
    ∃ b', b.emitChar6 data = some b' ∧ Appends b b' (Scalar.char6.bits data) := by
  obtain ⟨code, coded⟩ := Option.isSome_iff_exists.mp fits
  have small := (char6Code_eq_some coded).1
  have byte : data % 256 = data := Nat.mod_eq_of_lt (char6Code_lt coded)
  simp only [emitChar6, encodeChar6_eq, byte, coded, Scalar.bits, Option.getD_some]
  exact emitBits_spec wellFormed (by decide) (by decide) small

theorem emitArrayElement_spec {operand : AbbrevOperand} {scalar : Scalar} {b : Buffer} {data : Nat}
    (isScalar : operand.scalar? = some scalar) (widthOk : operand.WidthOk)
    (wellFormed : b.WellFormed) (fits : scalar.Fits data) (small : data < 2 ^ 64) :
    ∃ b', b.emitArrayElement operand data = some b' ∧ Appends b b' (scalar.bits data) := by
  cases operand with
  | fixed width =>
    simp only [AbbrevOperand.scalar?, Option.some.injEq] at isScalar
    subst isScalar
    exact emitFixed_spec wellFormed widthOk.1 widthOk.2 fits
  | vbr width =>
    simp only [AbbrevOperand.scalar?, Option.some.injEq] at isScalar
    subst isScalar
    exact emitVbr_spec wellFormed widthOk.1 widthOk.2 small
  | char6 =>
    simp only [AbbrevOperand.scalar?, Option.some.injEq] at isScalar
    subst isScalar
    exact emitChar6_spec wellFormed fits
  | literal value => simp [AbbrevOperand.scalar?] at isScalar
  | array => simp [AbbrevOperand.scalar?] at isScalar
  | blob => simp [AbbrevOperand.scalar?] at isScalar

theorem emitOperands_scalar {operand : AbbrevOperand} {scalar : Scalar} (b : Buffer)
    (operands : List AbbrevOperand) (value : Nat) (data : List Nat)
    (isScalar : operand.scalar? = some scalar) :
    b.emitOperands (operand :: operands) (value :: data) =
      (b.emitArrayElement operand value).bind fun b => b.emitOperands operands data := by
  cases operand <;> simp_all [AbbrevOperand.scalar?, emitOperands, emitArrayElement]

theorem emitOperands_spec {operands : List AbbrevOperand} {fields : List Field}
    {tail : Option Scalar} (shape : AbbrevOperand.layout? operands = some ⟨fields, tail⟩)
    (widthsOk : ∀ operand ∈ operands, operand.WidthOk) {data : List Nat}
    (conforms : Abbrev.Conforms fields tail data) (count : data.length < 2 ^ 64)
    (small : ∀ value ∈ data, value < 2 ^ 64) {b : Buffer} (wellFormed : b.WellFormed) :
    ∃ b', b.emitOperands operands data = some b' ∧
      Appends b b' (Abbrev.recordBits fields tail data) := by
  revert widthsOk data b
  refine AbbrevOperand.layout_induction (motive := fun operands fields tail =>
    (∀ operand ∈ operands, operand.WidthOk) → ∀ {data : List Nat},
    Abbrev.Conforms fields tail data → data.length < 2 ^ 64 → (∀ value ∈ data, value < 2 ^ 64) →
    ∀ {b : Buffer}, b.WellFormed → ∃ b', b.emitOperands operands data = some b' ∧
      Appends b b' (Abbrev.recordBits fields tail data)) ?_ ?_ ?_ ?_ shape
  · intro _ data conforms _ _ b wellFormed
    simp only [Abbrev.Conforms] at conforms
    subst conforms
    exact ⟨b, by simp [emitOperands], Appends.refl wellFormed⟩
  · intro element scalar isScalar widthsOk data conforms count small b wellFormed
    obtain ⟨b₁, counted, first⟩ := emitVbrBits_spec wellFormed (by decide : 1 < 6) (by decide) count
    have each : ∀ b : Buffer, b.WellFormed → ∀ value ∈ data,
        ∃ b', b.emitArrayElement element value = some b' ∧ Appends b b' (scalar.bits value) := by
      intro b wf value member
      exact emitArrayElement_spec isScalar (widthsOk element (by simp)) wf
        (conforms value member) (small value member)
    obtain ⟨b₂, elements, second⟩ := foldlM_spec each first.wellFormed
    refine ⟨b₂, ?_, first.trans second⟩
    cases data <;> simp only [emitOperands, counted] <;> exact elements
  · intro value operands fields tail ih widthsOk data conforms count small b wellFormed
    cases data with
    | nil => simp [Abbrev.Conforms] at conforms
    | cons operand data =>
      obtain ⟨rfl, conforms⟩ := conforms
      obtain ⟨b', emitted, appends⟩ := ih (fun o member => widthsOk o (by simp [member])) conforms
        (by simp at count; omega) (fun v member => small v (by simp [member])) wellFormed
      exact ⟨b', by simpa [emitOperands] using emitted, appends⟩
  · intro operand encoding operands fields tail isScalar ih widthsOk data conforms count small b
      wellFormed
    cases data with
    | nil => simp [Abbrev.Conforms] at conforms
    | cons value data =>
      obtain ⟨fits, conforms⟩ := conforms
      obtain ⟨b₁, emitted, first⟩ := emitArrayElement_spec isScalar (widthsOk operand (by simp))
        wellFormed fits (small value (by simp))
      obtain ⟨b₂, rest, second⟩ := ih (fun o member => widthsOk o (by simp [member])) conforms
        (by simp at count; omega) (fun v member => small v (by simp [member])) first.wellFormed
      refine ⟨b₂, ?_, first.trans second⟩
      rw [emitOperands_scalar b operands value data isScalar, emitted]
      exact rest

/-! ## Definitions -/

theorem defineOperand_literal {b : Buffer} {value : Nat} (wellFormed : b.WellFormed)
    (fits : value < 2 ^ 64) :
    ∃ b', b.defineOperand (.literal value) = some b' ∧
      Appends b b' (Field.literal value).definitionBits := by
  obtain ⟨b₁, flag, first⟩ :=
    emitBits_spec wellFormed (by decide : 0 < 1) (by decide) (by decide : 1 < 2 ^ 1)
  obtain ⟨b₂, written, second⟩ :=
    emitVbrBits_spec first.wellFormed (by decide : 1 < 8) (by decide) fits
  refine ⟨b₂, ?_, first.trans second⟩
  simp only [defineOperand, flag]
  exact written

theorem defineCode_spec {b : Buffer} (operand : AbbrevOperand) (wellFormed : b.WellFormed)
    (small : operand.type < 2 ^ 3) :
    ∃ b₁ b₂, b.emitBits 0 1 = some b₁ ∧ b₁.emitBits operand.type 3 = some b₂ ∧
      Appends b b₂ (bitsOfNat 1 0 ++ bitsOfNat 3 operand.type) := by
  obtain ⟨b₁, flag, first⟩ :=
    emitBits_spec wellFormed (by decide : 0 < 1) (by decide) (by decide : 0 < 2 ^ 1)
  obtain ⟨b₂, code, second⟩ := emitBits_spec first.wellFormed (by decide : 0 < 3) (by decide) small
  exact ⟨b₁, b₂, flag, code, first.trans second⟩

theorem defineOperand_scalar {operand : AbbrevOperand} {scalar : Scalar} {b : Buffer}
    (isScalar : operand.scalar? = some scalar) (widthOk : operand.WidthOk)
    (wellFormed : b.WellFormed) :
    ∃ b', b.defineOperand operand = some b' ∧ Appends b b' scalar.definitionBits := by
  have coded : operand.type < 2 ^ 3 := by cases operand <;> simp [AbbrevOperand.type]
  obtain ⟨b₁, b₂, flag, code, first⟩ := defineCode_spec operand wellFormed coded
  rw [scalar.definitionBits_eq, ← List.append_assoc]
  cases operand with
  | fixed width =>
    simp only [AbbrevOperand.scalar?, Option.some.injEq] at isScalar
    subst isScalar
    have small : width < 2 ^ 64 := widthOk.2.trans_lt (by decide)
    obtain ⟨b₃, written, second⟩ :=
      emitVbrBits_spec first.wellFormed (by decide : 1 < 5) (by decide) small
    refine ⟨b₃, ?_, first.trans second⟩
    simp only [defineOperand, flag]
    exact (congrArg (Option.bind · _) code).trans written
  | vbr width =>
    simp only [AbbrevOperand.scalar?, Option.some.injEq] at isScalar
    subst isScalar
    have small : width < 2 ^ 64 := widthOk.2.trans_lt (by decide)
    obtain ⟨b₃, written, second⟩ :=
      emitVbrBits_spec first.wellFormed (by decide : 1 < 5) (by decide) small
    refine ⟨b₃, ?_, first.trans second⟩
    simp only [defineOperand, flag]
    exact (congrArg (Option.bind · _) code).trans written
  | char6 =>
    simp only [AbbrevOperand.scalar?, Option.some.injEq] at isScalar
    subst isScalar
    refine ⟨b₂, ?_, ?_⟩
    · simp only [defineOperand, flag]
      exact code
    · rw [Scalar.widthBits, List.append_nil]
      exact first
  | literal value => simp [AbbrevOperand.scalar?] at isScalar
  | array => simp [AbbrevOperand.scalar?] at isScalar
  | blob => simp [AbbrevOperand.scalar?] at isScalar

theorem defineOperands_spec {operands : List AbbrevOperand} {fields : List Field}
    {tail : Option Scalar} (shape : AbbrevOperand.layout? operands = some ⟨fields, tail⟩)
    (widthsOk : ∀ operand ∈ operands, operand.WidthOk) {b : Buffer} (wellFormed : b.WellFormed) :
    ∃ b', operands.foldlM defineOperand b = some b' ∧
      Appends b b' (Abbrev.operandBits fields tail) := by
  revert widthsOk b
  refine AbbrevOperand.layout_induction (motive := fun operands fields tail =>
    (∀ operand ∈ operands, operand.WidthOk) → ∀ {b : Buffer}, b.WellFormed →
    ∃ b', operands.foldlM defineOperand b = some b' ∧
      Appends b b' (Abbrev.operandBits fields tail)) ?_ ?_ ?_ ?_ shape
  · intro _ b wellFormed
    exact ⟨b, rfl, Appends.refl wellFormed⟩
  · intro element scalar isScalar widthsOk b wellFormed
    obtain ⟨b₁, b₂, flag, code, first⟩ := defineCode_spec .array wellFormed (by decide)
    obtain ⟨b₃, written, second⟩ :=
      defineOperand_scalar isScalar (widthsOk element (by simp)) first.wellFormed
    have array : b.defineOperand .array = some b₂ := by
      simp only [defineOperand, flag]
      exact code
    refine ⟨b₃, ?_, first.trans second⟩
    rw [List.foldlM_cons, array, Option.bind_eq_bind, Option.bind_some, List.foldlM_cons, written]
    rfl
  · intro value operands fields tail ih widthsOk b wellFormed
    obtain ⟨b₁, written, first⟩ :=
      defineOperand_literal wellFormed (widthsOk (.literal value) (by simp))
    obtain ⟨b₂, rest, second⟩ :=
      ih (fun o member => widthsOk o (by simp [member])) first.wellFormed
    refine ⟨b₂, ?_, first.trans second⟩
    rw [List.foldlM_cons, written]
    exact rest
  · intro operand encoding operands fields tail isScalar ih widthsOk b wellFormed
    obtain ⟨b₁, written, first⟩ :=
      defineOperand_scalar isScalar (widthsOk operand (by simp)) wellFormed
    obtain ⟨b₂, rest, second⟩ :=
      ih (fun o member => widthsOk o (by simp [member])) first.wellFormed
    refine ⟨b₂, ?_, first.trans second⟩
    rw [List.foldlM_cons, written]
    exact rest

end Buffer

/-- The array counts twice in the operand table, like in the definition. -/
theorem AbbrevOperand.operandCount_eq {operands : List AbbrevOperand} {fields : List Field}
    {tail : Option Scalar} (shape : layout? operands = some ⟨fields, tail⟩) :
    operands.length = Abbrev.operandCount ⟨fields, tail⟩ := by
  refine layout_induction (motive := fun operands fields tail =>
    operands.length = Abbrev.operandCount ⟨fields, tail⟩) rfl ?_ ?_ ?_ shape
  · intro element scalar isScalar
    rfl
  · intro value operands fields tail ih
    simp only [List.length_cons, ih, Abbrev.operandCount]
    omega
  · intro operand encoding operands fields tail isScalar ih
    simp only [List.length_cons, ih, Abbrev.operandCount]
    omega

theorem AbbrevOperand.layout_valid {operands : List AbbrevOperand} {fields : List Field}
    {tail : Option Scalar} (shape : layout? operands = some ⟨fields, tail⟩)
    (widthsOk : ∀ operand ∈ operands, operand.WidthOk) : Abbrev.Valid ⟨fields, tail⟩ := by
  have scalarValid : ∀ {operand : AbbrevOperand} {scalar : Scalar},
      operand.scalar? = some scalar → operand.WidthOk → scalar.Valid := by
    intro operand scalar isScalar widthOk
    cases operand <;> simp only [scalar?, Option.some.injEq, reduceCtorEq] at isScalar <;>
      subst isScalar
    · trivial
    · exact widthOk.1
    · trivial
  revert widthsOk
  refine layout_induction (motive := fun operands fields tail =>
    (∀ operand ∈ operands, operand.WidthOk) → Abbrev.Valid ⟨fields, tail⟩) ?_ ?_ ?_ ?_ shape
  · intro _
    exact ⟨by simp, by simp⟩
  · intro element scalar isScalar widthsOk
    exact ⟨by simp, by simpa using scalarValid isScalar (widthsOk element (by simp))⟩
  · intro value operands fields tail ih widthsOk
    have valid := ih fun o member => widthsOk o (by simp [member])
    exact ⟨by simpa [Field.Valid] using valid.1, valid.2⟩
  · intro operand encoding operands fields tail isScalar ih widthsOk
    have valid := ih fun o member => widthsOk o (by simp [member])
    have head := scalarValid isScalar (widthsOk operand (by simp))
    exact ⟨by simpa [Field.Valid, head] using valid.1, valid.2⟩

/-! ## What a reader makes of the records -/

def readDefineAbbrev (abbrevWidth : Nat) : Reader Abbrev := do
  let id ← fixed abbrevWidth
  guardRead (id = DXIL_DEFINE_ABBREV)
  Abbrev.readDefinition

def readAbbrevRecord (abbrevWidth id : Nat) (layout : Abbrev) : Reader (List Nat) := do
  let found ← fixed abbrevWidth
  guardRead (found = id)
  layout.readRecord

def readRecordNoAbbrev (abbrevWidth : Nat) : Reader (Nat × List Nat) := do
  let id ← fixed abbrevWidth
  guardRead (id = DXIL_UNABBREV_RECORD)
  readUnabbrev

namespace Buffer

theorem defineAbbrev_spec {a : DxilAbbrev} {layout : Abbrev} (shape : a.layout? = some layout)
    (widthsOk : a.WidthsOk) {b : Buffer} (wellFormed : b.WellFormed) (wide : 1 < b.abbrevWidth)
    (narrow : b.abbrevWidth ≤ 32) :
    ∃ b', b.defineAbbrev a = some b' ∧
      Appends b b' (bitsOfNat b.abbrevWidth DXIL_DEFINE_ABBREV ++ layout.definitionBits) := by
  have idFits : DXIL_DEFINE_ABBREV < 2 ^ b.abbrevWidth :=
    calc 2 < 2 ^ 2 := by decide
      _ ≤ 2 ^ b.abbrevWidth := Nat.pow_le_pow_right (by decide) wide
  have count : a.operands.length < 2 ^ 64 := a.atMostSeven.trans_lt (by decide)
  obtain ⟨b₁, ident, first⟩ := emitAbbrevId_spec wellFormed (by omega) narrow idFits
  obtain ⟨b₂, counted, second⟩ :=
    emitVbrBits_spec first.wellFormed (by decide : 1 < 5) (by decide) count
  obtain ⟨b₃, operands, third⟩ := defineOperands_spec shape widthsOk second.wellFormed
  refine ⟨b₃, ?_, ?_⟩
  · simp only [defineAbbrev, ident, counted, Option.bind_eq_bind, Option.bind_some]
    exact operands
  · rw [Abbrev.definitionBits, ← AbbrevOperand.operandCount_eq shape]
    exact first.trans (second.trans third)

theorem emitRecordAbbrev_spec {a : DxilAbbrev} {layout : Abbrev} (shape : a.layout? = some layout)
    (widthsOk : a.WidthsOk) {data : List Nat} {id : Nat}
    (conforms : Abbrev.Conforms layout.fields layout.array data)
    (count : data.length < 2 ^ 64) (small : ∀ value ∈ data, value < 2 ^ 64) {b : Buffer}
    (wellFormed : b.WellFormed) (application : DXIL_FIRST_APPLICATION_ABBREV ≤ id)
    (idFits : id < 2 ^ b.abbrevWidth) (narrow : b.abbrevWidth ≤ 32) :
    ∃ b', b.emitRecordAbbrev id a data = some b' ∧
      Appends b b' (bitsOfNat b.abbrevWidth id ++
        Abbrev.recordBits layout.fields layout.array data) := by
  have positive : 0 < b.abbrevWidth := by
    rcases Nat.eq_zero_or_pos b.abbrevWidth with zero | positive
    · simp only [zero, DXIL_FIRST_APPLICATION_ABBREV] at idFits application
      omega
    · exact positive
  obtain ⟨b₁, ident, first⟩ := emitAbbrevId_spec wellFormed positive narrow idFits
  obtain ⟨b₂, operands, second⟩ :=
    emitOperands_spec shape widthsOk conforms count small first.wellFormed
  refine ⟨b₂, ?_, first.trans second⟩
  simp only [emitRecordAbbrev, if_pos application, ident, Option.bind_eq_bind, Option.bind_some]
  exact operands

theorem emitRecordNoAbbrev_spec {code : Nat} {data : List Nat} (codeFits : code < 2 ^ 64)
    (count : data.length < 2 ^ 64) (small : ∀ value ∈ data, value < 2 ^ 64) {b : Buffer}
    (wellFormed : b.WellFormed) (wide : 1 < b.abbrevWidth) (narrow : b.abbrevWidth ≤ 32) :
    ∃ b', b.emitRecordNoAbbrev code data = some b' ∧
      Appends b b' (bitsOfNat b.abbrevWidth DXIL_UNABBREV_RECORD ++ unabbrevBits code data) := by
  have idFits : DXIL_UNABBREV_RECORD < 2 ^ b.abbrevWidth :=
    calc 3 < 2 ^ 2 := by decide
      _ ≤ 2 ^ b.abbrevWidth := Nat.pow_le_pow_right (by decide) wide
  have six : 1 < 6 := by decide
  obtain ⟨b₁, ident, first⟩ := emitAbbrevId_spec wellFormed (by omega) narrow idFits
  obtain ⟨b₂, coded, second⟩ := emitVbrBits_spec first.wellFormed six (by decide) codeFits
  obtain ⟨b₃, counted, third⟩ := emitVbrBits_spec second.wellFormed six (by decide) count
  have each : ∀ b : Buffer, b.WellFormed → ∀ value ∈ data,
      ∃ b', b.emitVbrBits value 6 = some b' ∧ Appends b b' ((Scalar.vbr 6).bits value) := by
    intro b wf value member
    exact emitVbrBits_spec wf six (by decide) (small value member)
  obtain ⟨b₄, operands, fourth⟩ := foldlM_spec each third.wellFormed
  refine ⟨b₄, ?_, first.trans (second.trans (third.trans fourth))⟩
  simp only [emitRecordNoAbbrev, ident, coded, counted, Option.bind_eq_bind, Option.bind_some]
  exact operands

end Buffer

/-- A reader that is handed the definition learns the abbreviation from it, and gets
back the record that follows. -/
def readDefinedRecord (abbrevWidth id : Nat) : Reader (List Nat) := do
  let layout ← readDefineAbbrev abbrevWidth
  readAbbrevRecord abbrevWidth id layout

/-- An abbreviation width that leaves room for an application id has room for the
ids of the bitstream itself. -/
theorem wide_of_application {id width : Nat} (application : DXIL_FIRST_APPLICATION_ABBREV ≤ id)
    (idFits : id < 2 ^ width) : 1 < width := by
  have room : 2 ^ 2 < 2 ^ (width + 1) := by
    rw [Nat.pow_succ]
    simp only [DXIL_FIRST_APPLICATION_ABBREV] at application
    omega
  have := (Nat.pow_lt_pow_iff_right (by decide : 1 < 2)).mp room
  omega

/-- A record is read back from the definition in front of it, and a record without
an abbreviation carries everything itself. -/
theorem records_round_trip {a : DxilAbbrev} {layout : Abbrev} (shape : a.layout? = some layout)
    (widthsOk : a.WidthsOk) {data : List Nat} {id code : Nat}
    (conforms : Abbrev.Conforms layout.fields layout.array data)
    (count : data.length < 2 ^ 64) (small : ∀ value ∈ data, value < 2 ^ 64)
    (codeFits : code < 2 ^ 64) (application : DXIL_FIRST_APPLICATION_ABBREV ≤ id)
    {b : Buffer} (wellFormed : b.WellFormed) (idFits : id < 2 ^ b.abbrevWidth)
    (narrow : b.abbrevWidth ≤ 32) :
    (∃ b₁ b₂, b.defineAbbrev a = some b₁ ∧ b₁.emitRecordAbbrev id a data = some b₂ ∧
      b.WroteFor b₂ (readDefinedRecord b.abbrevWidth id) data) ∧
    ∃ b', b.emitRecordNoAbbrev code data = some b' ∧
      b.WroteFor b' (readRecordNoAbbrev b.abbrevWidth) (code, data) := by
  have wide : 1 < b.abbrevWidth := wide_of_application application idFits
  have reserved : ∀ fixedId, fixedId < 4 → fixedId < 2 ^ b.abbrevWidth := fun fixedId below =>
    calc fixedId < 2 ^ 2 := below
      _ ≤ 2 ^ b.abbrevWidth := Nat.pow_le_pow_right (by decide) wide
  constructor
  · obtain ⟨b₁, defined, first⟩ := Buffer.defineAbbrev_spec shape widthsOk wellFormed wide narrow
    have sameWidth := first.abbrevWidth_eq
    obtain ⟨b₂, emitted, second⟩ := Buffer.emitRecordAbbrev_spec shape widthsOk conforms count small
      first.wellFormed application (sameWidth ▸ idFits) (sameWidth ▸ narrow)
    rw [sameWidth] at second
    refine ⟨b₁, b₂, defined, emitted, _, first.trans second, ?_⟩
    have definition : Reads b.bits.length (readDefineAbbrev b.abbrevWidth)
        (bitsOfNat b.abbrevWidth DXIL_DEFINE_ABBREV ++ layout.definitionBits) layout :=
      (reads_fixed (reserved 2 (by decide))).bind
        ((reads_guardRead rfl).nil_bind (layout.reads_readDefinition _))
    have valid : layout.Valid := AbbrevOperand.layout_valid shape widthsOk
    refine definition.bind ?_
    exact (reads_fixed idFits).bind
      ((reads_guardRead rfl).nil_bind (Abbrev.reads_readRecord valid conforms _))
  · obtain ⟨b', emitted, appends⟩ :=
      Buffer.emitRecordNoAbbrev_spec codeFits count small wellFormed wide narrow
    refine ⟨b', emitted, _, appends, ?_⟩
    exact (reads_fixed (reserved 3 (by decide))).bind
      ((reads_guardRead rfl).nil_bind (reads_readUnabbrev code data _))

/-- The record `[1, 300, "a."]` of an abbreviation with a literal, a variable-width
operand and an array of characters. -/
theorem records_round_trip_chars :
    let a : DxilAbbrev := { operands := [.literal 1, .vbr 8, .array, .char6] }
    (∃ b₁ b₂, (Buffer.init 4).defineAbbrev a = some b₁ ∧
      b₁.emitRecordAbbrev 4 a [1, 300, 97, 46] = some b₂ ∧
      (Buffer.init 4).WroteFor b₂ (readDefinedRecord 4 4) [1, 300, 97, 46]) ∧
    ∃ b', (Buffer.init 4).emitRecordNoAbbrev 7 [1, 300, 97, 46] = some b' ∧
      (Buffer.init 4).WroteFor b' (readRecordNoAbbrev 4) (7, [1, 300, 97, 46]) :=
  @records_round_trip { operands := [.literal 1, .vbr 8, .array, .char6] }
    ⟨[.literal 1, .scalar (.vbr 8)], some .char6⟩ rfl (by decide) [1, 300, 97, 46] 4 7
    (by decide) (by decide) (by decide) (by decide) (by decide) (Buffer.init 4)
    (Buffer.wellFormed_init 4) (by decide) (by decide)

end SpirvToDxil
