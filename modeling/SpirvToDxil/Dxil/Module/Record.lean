import SpirvToDxil.Dxil.Buffer
import SpirvToDxil.Bitstream.Abbrev

/-!
# Records of the bitcode writer

The operand table of an abbreviation is interpreted twice in `dxil_module.c`:
`define_abbrev` writes the table itself and `emit_record_abbrev` writes a record
laid out by it.  `DxilAbbrev.layout?` is the abbreviation a well-shaped table
describes, and both interpreters write what the bitstream format prescribes for
that layout.
-/

namespace SpirvToDxil

open Bitstream

/-! ## Abbreviation operands -/

inductive AbbrevOperand where
  | literal (value : Nat)
  | fixed (encodingData : Nat)
  | vbr (encodingData : Nat)
  | array
  | char6
  | blob
  deriving DecidableEq, Repr

/-- The value of the operand's `DXIL_OP_*` enumerator. -/
def AbbrevOperand.type : AbbrevOperand → Nat
  | literal _ => 0
  | fixed _ => 1
  | vbr _ => 2
  | array => 3
  | char6 => 4
  | blob => 5

/-- `struct dxil_abbrev`, whose operands are an array of seven. -/
structure DxilAbbrev where
  operands : List AbbrevOperand
  atMostSeven : operands.length ≤ 7 := by decide
  deriving DecidableEq

def DXIL_END_BLOCK : Nat := 0
def DXIL_ENTER_SUBBLOCK : Nat := 1
def DXIL_DEFINE_ABBREV : Nat := 2
def DXIL_UNABBREV_RECORD : Nat := 3
def DXIL_FIRST_APPLICATION_ABBREV : Nat := 4

/-! ## Operand emitters -/

def isChar6 (ch : Nat) : Bool :=
  if (97 ≤ ch ∧ ch ≤ 122) ∨ (65 ≤ ch ∧ ch ≤ 90) ∨ (48 ≤ ch ∧ ch ≤ 57) then true
  else ch = 46 ∨ ch = 95

def encodeChar6 (ch : Nat) : Option Nat :=
  let letters := 122 - 97 + 1
  if 97 ≤ ch ∧ ch ≤ 122 then some (ch - 97)
  else if 65 ≤ ch ∧ ch ≤ 90 then some (letters + ch - 65)
  else if 48 ≤ ch ∧ ch ≤ 57 then some (2 * letters + ch - 48)
  else if ch = 46 then some 62
  else if ch = 95 then some 63
  else none

namespace Buffer

def emitBits64 (b : Buffer) (data width : Nat) : Option Buffer :=
  if 2 ^ 32 - 1 < data then
    -- the first field takes the whole width, not 32 bits of it
    if 32 < width then do
      let b ← b.emitBits (data % 2 ^ 32) width
      b.emitBits (data / 2 ^ 32) (width - 32)
    else none
  else b.emitBits data width

def emitFixed (b : Buffer) (data width : Nat) : Option Buffer :=
  if width = 0 then some b else b.emitBits64 data width

def emitVbr (b : Buffer) (data width : Nat) : Option Buffer :=
  if width = 0 then some b else b.emitVbrBits data width

/-- The operand is cast to `char` before it is encoded. -/
def emitChar6 (b : Buffer) (data : Nat) : Option Buffer := do
  let code ← encodeChar6 (data % 256)
  b.emitBits code 6

/-! ## Record emitters -/

/-- The elements of an array operand, by the operand that follows it. -/
def emitArrayElement (b : Buffer) : AbbrevOperand → Nat → Option Buffer
  | .fixed width, data => b.emitFixed data width
  | .vbr width, data => b.emitVbr data width
  | .char6, data => b.emitChar6 data
  | _, _ => none

/-- The loop of `emit_record_abbrev` over the remaining operands and data. -/
def emitOperands : Buffer → List AbbrevOperand → List Nat → Option Buffer
  | b, [], data => if data = [] then some b else none
  | b, .literal value :: operands, operand :: data =>
    if operand = value then b.emitOperands operands data else none
  | b, .fixed width :: operands, operand :: data => do
    let b ← b.emitFixed operand width
    b.emitOperands operands data
  | b, .vbr width :: operands, operand :: data => do
    let b ← b.emitVbr operand width
    b.emitOperands operands data
  | b, .char6 :: operands, operand :: data => do
    let b ← b.emitChar6 operand
    b.emitOperands operands data
  | b, [.array, element], data => do
    -- arrays should always be second to last
    let b ← b.emitVbrBits data.length 6
    data.foldlM (fun b operand => b.emitArrayElement element operand) b
  | _, _, _ => none

def emitRecordAbbrev (b : Buffer) (id : Nat) (a : DxilAbbrev) (data : List Nat) : Option Buffer :=
  if DXIL_FIRST_APPLICATION_ABBREV ≤ id then do
    let b ← b.emitAbbrevId id
    b.emitOperands a.operands data
  else none

def emitRecordNoAbbrev (b : Buffer) (code : Nat) (data : List Nat) : Option Buffer := do
  let b ← b.emitAbbrevId DXIL_UNABBREV_RECORD
  let b ← b.emitVbrBits code 6
  let b ← b.emitVbrBits data.length 6
  data.foldlM (fun b operand => b.emitVbrBits operand 6) b

def defineOperand (b : Buffer) (operand : AbbrevOperand) : Option Buffer :=
  match operand with
  | .literal value => do
    let b ← b.emitBits 1 1
    b.emitVbrBits value 8
  | .fixed width | .vbr width => do
    let b ← b.emitBits 0 1
    let b ← b.emitBits operand.type 3
    b.emitVbrBits width 5
  | _ => do
    let b ← b.emitBits 0 1
    b.emitBits operand.type 3

def defineAbbrev (b : Buffer) (a : DxilAbbrev) : Option Buffer := do
  let b ← b.emitAbbrevId DXIL_DEFINE_ABBREV
  let b ← b.emitVbrBits a.operands.length 5
  a.operands.foldlM defineOperand b

end Buffer

/-! ## The layout of an operand table -/

namespace AbbrevOperand

def scalar? : AbbrevOperand → Option Scalar
  | fixed width => some (.fixed width)
  | vbr width => some (.vbr width)
  | char6 => some .char6
  | _ => none

/-- The layout of an operand table whose array, if any, is second to last. -/
def layout? : List AbbrevOperand → Option Abbrev
  | [] => some ⟨[], none⟩
  | [.array, element] => element.scalar?.map fun scalar => ⟨[], some scalar⟩
  | .literal value :: operands => (layout? operands).map (Abbrev.cons (.literal value))
  | operand :: operands => do
    let scalar ← operand.scalar?
    (layout? operands).map (Abbrev.cons (.scalar scalar))

/-- Fixed operands have 1 to 32 bits, and the chunks of a variable-width operand
are those `dxil_buffer_emit_vbr_bits` accepts. -/
def WidthOk : AbbrevOperand → Prop
  | literal value => value < 2 ^ 64
  | fixed width => 0 < width ∧ width ≤ 32
  | vbr width => 1 < width ∧ width ≤ 32
  | _ => True

instance (operand : AbbrevOperand) : Decidable operand.WidthOk := by
  cases operand <;> unfold WidthOk <;> infer_instance

end AbbrevOperand

def DxilAbbrev.layout? (a : DxilAbbrev) : Option Abbrev := AbbrevOperand.layout? a.operands

/-- The widths of an operand table are in the ranges the writer asserts. -/
def DxilAbbrev.WidthsOk (a : DxilAbbrev) : Prop := ∀ operand ∈ a.operands, operand.WidthOk

instance (a : DxilAbbrev) : Decidable a.WidthsOk := by
  unfold DxilAbbrev.WidthsOk
  infer_instance

theorem encodeChar6_eq (ch : Nat) : encodeChar6 ch = char6Code ch := by
  unfold encodeChar6 char6Code
  split_ifs <;> simp <;> omega

theorem char6Code_lt {ch code : Nat} (coded : char6Code ch = some code) : ch < 256 := by
  unfold char6Code at coded
  split_ifs at coded <;> omega

/-- Induction on operand tables along the cases of `layout?`. -/
theorem AbbrevOperand.layout_induction
    {motive : List AbbrevOperand → List Field → Option Scalar → Prop}
    (nil : motive [] [] none)
    (array : ∀ element scalar, element.scalar? = some scalar →
      motive [.array, element] [] (some scalar))
    (literal : ∀ value operands fields tail, motive operands fields tail →
      motive (.literal value :: operands) (.literal value :: fields) tail)
    (scalar : ∀ operand encoding operands fields tail, operand.scalar? = some encoding →
      motive operands fields tail →
      motive (operand :: operands) (.scalar encoding :: fields) tail)
    {operands : List AbbrevOperand} {fields : List Field} {tail : Option Scalar}
    (shape : layout? operands = some ⟨fields, tail⟩) : motive operands fields tail := by
  induction operands using layout?.induct generalizing fields tail with
  | case1 =>
    simp only [layout?, Option.some.injEq, Abbrev.mk.injEq] at shape
    obtain ⟨rfl, rfl⟩ := shape
    exact nil
  | case2 element =>
    simp only [layout?, Option.map_eq_some_iff, Abbrev.mk.injEq] at shape
    obtain ⟨found, isScalar, rfl, rfl⟩ := shape
    exact array element found isScalar
  | case3 value operands ih =>
    simp only [layout?, Option.map_eq_some_iff] at shape
    obtain ⟨⟨fields', tail'⟩, inner, same⟩ := shape
    simp only [Abbrev.cons, Abbrev.mk.injEq] at same
    obtain ⟨rfl, rfl⟩ := same
    exact literal value operands fields' tail' (ih inner)
  | case4 operand operands notArray notLiteral ih =>
    rw [layout?] at shape
    · simp only [Option.bind_eq_bind, Option.bind_eq_some_iff, Option.map_eq_some_iff] at shape
      obtain ⟨encoding, isScalar, ⟨fields', tail'⟩, inner, same⟩ := shape
      simp only [Abbrev.cons, Abbrev.mk.injEq] at same
      obtain ⟨rfl, rfl⟩ := same
      exact scalar operand encoding operands fields' tail' isScalar (ih inner)
    · exact notArray
    · exact notLiteral

end SpirvToDxil
