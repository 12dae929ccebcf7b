import SpirvToDxil.Bitstream.Reader

/-!
# Abbreviated records

An abbreviation describes how the operands of a record are laid out: a list of
literals and scalars, and possibly an array whose elements share one encoding.
The array closes the list by construction, so an abbreviation that continues
after its array cannot be written down.  A stream carries both the definition of
an abbreviation and the records that use it, and a reader gets back the
operands of a record from the two.
-/

namespace Bitstream

inductive Scalar where
  | fixed (width : Nat)
  | vbr (width : Nat)
  | char6
  deriving DecidableEq, Repr

inductive Field where
  | literal (value : Nat)
  | scalar (encoding : Scalar)
  deriving DecidableEq, Repr

/-- The operands of an abbreviation, then the element encoding of its array. -/
structure Abbrev where
  fields : List Field
  array : Option Scalar
  deriving DecidableEq, Repr

/-! ## The six-bit alphabet -/

def char6Code (char : Nat) : Option Nat :=
  if 97 ≤ char ∧ char ≤ 122 then some (char - 97)
  else if 65 ≤ char ∧ char ≤ 90 then some (char - 65 + 26)
  else if 48 ≤ char ∧ char ≤ 57 then some (char - 48 + 52)
  else if char = 46 then some 62
  else if char = 95 then some 63
  else none

def char6Char (code : Nat) : Nat :=
  if code < 26 then code + 97
  else if code < 52 then code - 26 + 65
  else if code < 62 then code - 52 + 48
  else if code = 62 then 46
  else 95

theorem char6Code_eq_some {char code : Nat} (coded : char6Code char = some code) :
    code < 64 ∧ char6Char code = char := by
  unfold char6Code at coded
  unfold char6Char
  split_ifs at coded <;> simp only [Option.some.injEq] at coded <;> split_ifs <;> omega

/-! ## Scalars -/

namespace Scalar

def Fits : Scalar → Nat → Prop
  | fixed width, value => value < 2 ^ width
  | vbr _, _ => True
  | char6, value => (char6Code value).isSome

instance (scalar : Scalar) (value : Nat) : Decidable (scalar.Fits value) := by
  cases scalar <;> unfold Fits <;> infer_instance

/-- A chunk must have room for its continuation bit and at least one more. -/
def Valid : Scalar → Prop
  | vbr width => 1 < width
  | _ => True

instance (scalar : Scalar) : Decidable scalar.Valid := by
  cases scalar <;> unfold Valid <;> infer_instance

def bits : Scalar → Nat → List Bool
  | fixed width, value => bitsOfNat width value
  | vbr width, value => vbrBits width value
  | char6, value => bitsOfNat 6 ((char6Code value).getD 0)

def read : Scalar → Reader Nat
  | fixed width => Bitstream.fixed width
  | vbr width => Bitstream.vbr width
  | char6 => char6Char <$> Bitstream.fixed 6

theorem reads {scalar : Scalar} {value : Nat} (pos : Nat) (valid : scalar.Valid)
    (fits : scalar.Fits value) : Reads pos scalar.read (scalar.bits value) value := by
  cases scalar with
  | fixed width => exact reads_fixed fits
  | vbr width => exact reads_vbr valid pos value
  | char6 =>
    obtain ⟨code, coded⟩ := Option.isSome_iff_exists.mp fits
    obtain ⟨small, decoded⟩ := char6Code_eq_some coded
    simp only [read, bits, coded, Option.getD_some]
    have mapped : Reads pos (char6Char <$> Bitstream.fixed 6) (bitsOfNat 6 code) (char6Char code) :=
      (reads_fixed small).map
    rwa [decoded] at mapped

/-- The numeric code of an encoding and the width that follows it. -/
def definitionBits : Scalar → List Bool
  | fixed width => false :: bitsOfNat 3 1 ++ vbrBits 5 width
  | vbr width => false :: bitsOfNat 3 2 ++ vbrBits 5 width
  | char6 => false :: bitsOfNat 3 4

def readWidth (code : Nat) : Reader Scalar :=
  if code = 1 then fixed <$> Bitstream.vbr 5
  else if code = 2 then vbr <$> Bitstream.vbr 5
  else if code = 4 then Pure.pure char6
  else failure

def readDefinition : Reader Scalar := do
  let literal ← Bitstream.fixed 1
  guardRead (literal = 0)
  let code ← Bitstream.fixed 3
  readWidth code

end Scalar

def Scalar.code : Scalar → Nat
  | fixed _ => 1
  | vbr _ => 2
  | char6 => 4

def Scalar.widthBits : Scalar → List Bool
  | fixed width => vbrBits 5 width
  | vbr width => vbrBits 5 width
  | char6 => []

theorem Scalar.definitionBits_eq (scalar : Scalar) :
    scalar.definitionBits = bitsOfNat 1 0 ++ (bitsOfNat 3 scalar.code ++ scalar.widthBits) := by
  cases scalar <;> simp [definitionBits, code, widthBits, bitsOfNat]

theorem Scalar.code_lt (scalar : Scalar) : scalar.code < 2 ^ 3 := by
  cases scalar <;> simp [code]

theorem Scalar.reads_readWidth (scalar : Scalar) (pos : Nat) :
    Reads pos (readWidth scalar.code) scalar.widthBits scalar := by
  cases scalar with
  | fixed width => exact (reads_vbr (by decide) pos width).map
  | vbr width => exact (reads_vbr (by decide) pos width).map
  | char6 => exact Reads.pure _

theorem Scalar.reads_readDefinition (scalar : Scalar) (pos : Nat) :
    Reads pos readDefinition scalar.definitionBits scalar := by
  rw [definitionBits_eq]
  refine (reads_fixed (by decide)).bind ?_
  refine (reads_guardRead rfl).nil_bind ?_
  exact (reads_fixed scalar.code_lt).bind (scalar.reads_readWidth _)

/-! ## Definitions -/

namespace Field

def definitionBits : Field → List Bool
  | literal value => true :: vbrBits 8 value
  | scalar encoding => encoding.definitionBits

def Valid : Field → Prop
  | literal _ => True
  | scalar encoding => encoding.Valid

instance (field : Field) : Decidable field.Valid := by
  cases field <;> unfold Valid <;> infer_instance

end Field

namespace Abbrev

def cons (field : Field) (layout : Abbrev) : Abbrev := ⟨field :: layout.fields, layout.array⟩

def operandCount (layout : Abbrev) : Nat :=
  layout.fields.length + if layout.array.isSome then 2 else 0

def operandBits : List Field → Option Scalar → List Bool
  | [], none => []
  | [], some element => false :: bitsOfNat 3 3 ++ element.definitionBits
  | field :: fields, array => field.definitionBits ++ operandBits fields array

def definitionBits (layout : Abbrev) : List Bool :=
  vbrBits 5 layout.operandCount ++ operandBits layout.fields layout.array

def readOperands : Nat → Reader Abbrev
  | 0 => pure ⟨[], none⟩
  | count + 1 => do
    let literal ← fixed 1
    if literal = 1 then do
      let value ← vbr 8
      cons (.literal value) <$> readOperands count
    else do
      let code ← fixed 3
      if code = 3 then do
        guardRead (count = 1)
        let element ← Scalar.readDefinition
        pure ⟨[], some element⟩
      else do
        let encoding ← Scalar.readWidth code
        cons (.scalar encoding) <$> readOperands count

def readDefinition : Reader Abbrev := do
  let count ← vbr 5
  readOperands count

def Valid (layout : Abbrev) : Prop :=
  (∀ field ∈ layout.fields, field.Valid) ∧ ∀ element ∈ layout.array, element.Valid

instance (layout : Abbrev) : Decidable layout.Valid := by
  unfold Valid
  infer_instance

theorem reads_readOperands (fields : List Field) (array : Option Scalar) (pos : Nat) :
    Reads pos (readOperands (operandCount ⟨fields, array⟩)) (operandBits fields array)
      ⟨fields, array⟩ := by
  induction fields generalizing pos with
  | nil =>
    cases array with
    | none => exact Reads.pure _
    | some element =>
      show Reads pos (readOperands 2) (bitsOfNat 1 0 ++ (bitsOfNat 3 3 ++ _)) _
      refine (reads_fixed (by decide)).bind ?_
      refine (reads_fixed (by decide)).bind ?_
      refine (reads_guardRead rfl).nil_bind ?_
      exact (element.reads_readDefinition _).bind_nil (Reads.pure _)
  | cons field fields ih =>
    have count : operandCount ⟨field :: fields, array⟩ = operandCount ⟨fields, array⟩ + 1 := by
      simp [operandCount]
      omega
    rw [count]
    cases field with
    | literal value =>
      show Reads pos (readOperands _) ((bitsOfNat 1 1 ++ vbrBits 8 value) ++ _) _
      rw [List.append_assoc]
      refine (reads_fixed (by decide)).bind ?_
      refine (reads_vbr (by decide) _ value).bind ?_
      exact (ih _).map
    | scalar encoding =>
      show Reads pos (readOperands _) (encoding.definitionBits ++ _) _
      rw [encoding.definitionBits_eq, List.append_assoc, List.append_assoc]
      refine (reads_fixed (by decide)).bind ?_
      refine (reads_fixed encoding.code_lt).bind ?_
      rw [if_neg (by cases encoding <;> simp [Scalar.code])]
      exact (encoding.reads_readWidth _).bind (ih _).map

theorem reads_readDefinition (layout : Abbrev) (pos : Nat) :
    Reads pos readDefinition layout.definitionBits layout :=
  (reads_vbr (by decide) pos _).bind (reads_readOperands layout.fields layout.array _)

/-! ## Records -/

def Conforms : List Field → Option Scalar → List Nat → Prop
  | [], none, data => data = []
  | [], some element, data => ∀ value ∈ data, element.Fits value
  | .literal value :: fields, array, operand :: data => operand = value ∧ Conforms fields array data
  | .scalar encoding :: fields, array, operand :: data =>
    encoding.Fits operand ∧ Conforms fields array data
  | _ :: _, _, [] => False

instance (fields : List Field) (array : Option Scalar) (data : List Nat) :
    Decidable (Conforms fields array data) := by
  induction fields generalizing data with
  | nil => cases array <;> unfold Conforms <;> infer_instance
  | cons field fields ih =>
    cases data with
    | nil => exact .isFalse (by cases field <;> exact id)
    | cons operand data =>
      have := ih data
      cases field <;> exact inferInstanceAs (Decidable (_ ∧ _))

/-- The fields of a record, then the length and elements of its array. -/
def recordBits : List Field → Option Scalar → List Nat → List Bool
  | [], none, _ => []
  | [], some element, data => vbrBits 6 data.length ++ data.flatMap element.bits
  | .literal _ :: fields, array, data => recordBits fields array data.tail
  | .scalar encoding :: fields, array, data =>
    encoding.bits (data.headD 0) ++ recordBits fields array data.tail

def readArray (element : Scalar) : Nat → Reader (List Nat)
  | 0 => pure []
  | count + 1 => do
    let value ← element.read
    List.cons value <$> readArray element count

/-- Read the operands of a record: a literal is known from the definition. -/
def readFields : List Field → Option Scalar → Reader (List Nat)
  | [], none => pure []
  | [], some element => do
    let count ← vbr 6
    readArray element count
  | .literal value :: fields, array => List.cons value <$> readFields fields array
  | .scalar encoding :: fields, array => do
    let value ← encoding.read
    List.cons value <$> readFields fields array

def readRecord (layout : Abbrev) : Reader (List Nat) := readFields layout.fields layout.array

theorem reads_readArray {element : Scalar} (valid : element.Valid) {data : List Nat}
    (fits : ∀ value ∈ data, element.Fits value) (pos : Nat) :
    Reads pos (readArray element data.length) (data.flatMap element.bits) data := by
  induction data generalizing pos with
  | nil => exact Reads.pure _
  | cons value data ih =>
    rw [List.flatMap_cons]
    refine (Scalar.reads pos valid (fits value (by simp))).bind ?_
    exact (ih (fun v member => fits v (by simp [member])) _).map

theorem reads_readFields {fields : List Field} {array : Option Scalar} {data : List Nat}
    (valid : Valid ⟨fields, array⟩) (conforms : Conforms fields array data) (pos : Nat) :
    Reads pos (readFields fields array) (recordBits fields array data) data := by
  induction fields generalizing data pos with
  | nil =>
    cases array with
    | none =>
      simp only [Conforms] at conforms
      subst conforms
      exact Reads.pure _
    | some element =>
      refine (reads_vbr (by decide) pos _).bind ?_
      exact reads_readArray (valid.2 element rfl) conforms _
  | cons field fields ih =>
    have validTail : Valid ⟨fields, array⟩ :=
      ⟨fun f member => valid.1 f (List.mem_cons_of_mem _ member), valid.2⟩
    cases data with
    | nil => cases field <;> simp [Conforms] at conforms
    | cons operand data =>
      cases field with
      | literal value =>
        obtain ⟨rfl, conforms⟩ := conforms
        exact (ih validTail conforms pos).map
      | scalar encoding =>
        obtain ⟨fits, conforms⟩ := conforms
        have encodingValid : encoding.Valid := valid.1 (.scalar encoding) (by simp)
        exact (Scalar.reads pos encodingValid fits).bind (ih validTail conforms _).map

/-- A conforming record is read back from its bits and its abbreviation. -/
theorem reads_readRecord {layout : Abbrev} {data : List Nat} (valid : layout.Valid)
    (conforms : Conforms layout.fields layout.array data) (pos : Nat) :
    Reads pos layout.readRecord (recordBits layout.fields layout.array data) data :=
  reads_readFields valid conforms pos

end Abbrev

/-! ## Records without an abbreviation -/

/-- The code, the operand count and the operands, all in chunks of six bits. -/
def unabbrevBits (code : Nat) (data : List Nat) : List Bool :=
  vbrBits 6 code ++ (vbrBits 6 data.length ++ data.flatMap (Scalar.vbr 6).bits)

def readUnabbrev : Reader (Nat × List Nat) := do
  let code ← vbr 6
  let count ← vbr 6
  Prod.mk code <$> Abbrev.readArray (.vbr 6) count

theorem reads_readUnabbrev (code : Nat) (data : List Nat) (pos : Nat) :
    Reads pos readUnabbrev (unabbrevBits code data) (code, data) := by
  refine (reads_vbr (by decide) pos code).bind ?_
  refine (reads_vbr (by decide) _ _).bind ?_
  have valid : (Scalar.vbr 6).Valid := by decide
  exact (Abbrev.reads_readArray valid (fun _ _ => trivial) _).map

end Bitstream
