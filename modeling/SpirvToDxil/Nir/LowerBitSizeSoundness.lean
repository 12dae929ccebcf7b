import SpirvToDxil.Nir.LowerBitSize
import SpirvToDxil.Util.TwosComplement
import Mathlib.Algebra.Order.Group.Int
import Mathlib.Algebra.Order.Ring.Abs

/-!
# Soundness of lowering small integers

The wide operation reads the same numbers, or numbers with the same low bits where only these
matter.
-/

namespace SpirvToDxil.Nir

namespace LowerBitSize

open TwosComplement

/-- The sizes that are lowered, with the sizes that they are lowered to. -/
inductive Widens : Nat → Nat → Prop where
  | byteToWord : Widens 8 16
  | byteToDword : Widens 8 32
  | wordToDword : Widens 16 32

theorem widens_lowerBitSizeCallback {lowerInt16 : Bool} {b : Nat} (size : b ∈ [8, 16, 32, 64])
    (selected : lowerBitSizeCallback lowerInt16 [b] ≠ 0) :
    Widens b (lowerBitSizeCallback lowerInt16 [b]) := by
  simp only [List.mem_cons, List.not_mem_nil, or_false] at size
  rcases size with rfl | rfl | rfl | rfl <;> cases lowerInt16
  · exact .byteToWord
  · exact .byteToDword
  · exact absurd rfl selected
  · exact .wordToDword
  all_goals exact absurd rfl selected

def Sized (op : IntegerOp) (bitSize : Nat) (src : Nat → Def) : Prop :=
  ∀ i, (src i).scalar.bitSize = (op.inputType i).bitSizeAt bitSize

def numbers (op : IntegerOp) (src : Nat → Scalar) (i : Nat) : Int :=
  (src i).number (op.inputType i).base

section Sources

variable {op : IntegerOp} {b w : Nat} {src : Nat → Def}

theorem Widens.lt (widens : Widens b w) : b < w := by
  cases widens <;> decide

theorem comparisonType_base (comparison : Comparison) :
    comparison.type = .int ∨ comparison.type = .uint := by
  cases comparison <;> decide

theorem inputType_base (i : Nat) (unsized : (op.inputType i).bitSize = 0) :
    (op.inputType i).base = .int ∨ (op.inputType i).base = .uint := by
  revert unsized
  unfold IntegerOp.inputType
  split
  all_goals simp [comparisonType_base]

theorem number_convertScalar {type : BaseType} (integer : type = .int ∨ type = .uint)
    {scalar : Scalar} (wide : scalar.bitSize ≤ w) :
    (convertScalar type w scalar).number type = scalar.number type := by
  rcases integer with rfl | rfl
  · exact BitVec.toInt_signExtend_of_le wide
  · show ((scalar.val.setWidth w).toNat : Int) = scalar.val.toNat
    rw [BitVec.toNat_setWidth_of_le wide]

theorem number_convertToBitSize {type : BaseType} (integer : type = .int ∨ type = .uint)
    {src : Def} (widens : Widens src.scalar.bitSize w) :
    (convertToBitSize src type w).number type = src.scalar.number type := by
  have wide := Nat.le_of_lt widens.lt
  cases src with
  | value src => exact number_convertScalar integer wide
  | convert type' bitSize src => exact number_convertScalar integer wide
  | b2i bitSize value =>
    change Widens bitSize w at widens
    rw [convertToBitSize]
    split
    · rcases integer with rfl | rfl <;> cases widens <;> cases value <;> rfl
    · exact number_convertScalar integer wide

theorem beforeConversion_eq_some {type : BaseType} {src : Def} {before : Scalar}
    (found : beforeConversion type w src op = some before) :
    lowBitsOp op ∧ before.bitSize = w ∧ ∃ bitSize, src = .convert type bitSize before := by
  cases src with
  | value src => cases found
  | b2i bitSize src => cases found
  | convert type' bitSize src =>
    rw [beforeConversion] at found
    split at found
    case isTrue converts =>
      obtain ⟨low, rfl, size⟩ := converts
      cases found
      exact ⟨low, size, bitSize, rfl⟩
    case isFalse => cases found

theorem number_lowerSrc (sized : Sized op b src) (widens : Widens b w)
    (exact_ : lowBitsOp op = false) {i : Nat} (notCount : ¬ (i = 1 ∧ masksCount op)) :
    (lowerSrc op w src i).number (op.inputType i).base =
      (src i).scalar.number (op.inputType i).base := by
  rw [lowerSrc, if_neg notCount]
  by_cases unsized : (op.inputType i).bitSize = 0
  · have none : beforeConversion (op.inputType i).base w (src i) op = none := by
      apply Option.eq_none_iff_forall_ne_some.mpr
      intro before found
      obtain ⟨low, -⟩ := beforeConversion_eq_some found
      rw [exact_] at low
      cases low
    have size := sized i
    rw [AluType.bitSizeAt, if_pos unsized] at size
    rw [if_pos unsized, none]
    apply number_convertToBitSize (inputType_base i unsized)
    rw [size]
    exact widens
  · rw [if_neg unsized]

/-- A conversion that is passed over has the low bits of its operand. -/
theorem ofInt_number_convertScalar {type : BaseType} (integer : type = .int ∨ type = .uint)
    {before : Scalar} (wide : b ≤ before.bitSize) :
    BitVec.ofInt b (before.number type) =
      BitVec.ofInt b ((convertScalar type b before).number type) := by
  rcases integer with rfl | rfl
  · show BitVec.ofInt b before.val.toInt = BitVec.ofInt b (before.val.signExtend b).toInt
    rw [ofInt_toInt_setWidth _ wide, BitVec.ofInt_toInt,
      BitVec.signExtend_eq_setWidth_of_le _ wide]
  · show BitVec.ofInt b before.val.toNat = BitVec.ofInt b (before.val.setWidth b).toNat
    rw [ofInt_toNat_setWidth _ wide, ofInt_toNat]

theorem ofInt_number_lowerSrc (sized : Sized op b src) (widens : Widens b w) {i : Nat}
    (unsized : (op.inputType i).bitSize = 0) (notCount : ¬ (i = 1 ∧ masksCount op)) :
    BitVec.ofInt b ((lowerSrc op w src i).number (op.inputType i).base) =
      BitVec.ofInt b ((src i).scalar.number (op.inputType i).base) := by
  have size := sized i
  have integer := inputType_base i unsized
  rw [AluType.bitSizeAt, if_pos unsized] at size
  rw [lowerSrc, if_neg notCount, if_pos unsized]
  cases before : beforeConversion (op.inputType i).base w (src i) op with
  | none =>
    rw [Option.getD_none, number_convertToBitSize integer]
    rw [size]
    exact widens
  | some scalar =>
    obtain ⟨-, wide, bitSize, converts⟩ := beforeConversion_eq_some before
    rw [converts] at size ⊢
    have narrow : bitSize = b := by
      rcases integer with int | uint
      · rw [int] at size
        exact size
      · rw [uint] at size
        exact size
    subst narrow
    rw [Option.getD_some]
    apply ofInt_number_convertScalar integer
    rw [wide]
    exact Nat.le_of_lt widens.lt

theorem maskCount_eq (widens : Widens b w) (count : Int) :
    maskCount b count = (BitVec.ofInt 32 count).toNat % b := by
  cases widens
  · exact Nat.and_two_pow_sub_one_eq_mod _ 3
  · exact Nat.and_two_pow_sub_one_eq_mod _ 3
  · exact Nat.and_two_pow_sub_one_eq_mod _ 4

theorem maskCount_wide_eq (widens : Widens b w) (count : Int) :
    maskCount w count = (BitVec.ofInt 32 count).toNat % w := by
  cases widens
  · exact Nat.and_two_pow_sub_one_eq_mod _ 4
  · exact Nat.and_two_pow_sub_one_eq_mod _ 5
  · exact Nat.and_two_pow_sub_one_eq_mod _ 5

theorem maskCount_lt (widens : Widens b w) (count : Int) : maskCount b count < b := by
  rw [maskCount_eq widens]
  apply Nat.mod_lt
  cases widens <;> decide

theorem maskCount_of_lt (widens : Widens b w) {count : Nat} (small : count < w) :
    maskCount w count = count := by
  have bound : w ≤ 32 := by cases widens <;> decide
  rw [maskCount_wide_eq widens, BitVec.ofInt_natCast, BitVec.toNat_ofNat,
    Nat.mod_eq_of_lt (show count < 2 ^ 32 by omega), Nat.mod_eq_of_lt small]

theorem count_sized (masks : masksCount op) : (op.inputType 1).bitSize ≠ 0 := by
  cases op <;> first | decide | cases masks

theorem number_lowerSrc_count (sized : Sized op b src) (masks : masksCount op) :
    (lowerSrc op w src 1).number .uint = maskCount b ((src 1).scalar.number .uint) := by
  have size : (src 1).scalar.bitSize = 32 := by
    rw [sized 1]
    cases op <;> first | rfl | cases masks
  have size0 : (src 0).scalar.bitSize = b := by
    rw [sized 0]
    cases op <;> first | rfl | cases masks
  rw [lowerSrc, if_pos ⟨rfl, masks⟩, if_neg (count_sized masks), size0]
  generalize (src 1).scalar = scalar at size ⊢
  obtain ⟨bitSize, val⟩ := scalar
  change bitSize = 32 at size
  subst size
  show ((val &&& BitVec.ofNat 32 (b - 1)).toNat : Int) =
    (BitVec.ofInt 32 val.toNat &&& BitVec.ofNat 32 (b - 1)).toNat
  rw [ofInt_toNat]

theorem maskCount_maskCount (widens : Widens b w) (count : Int) :
    maskCount w (maskCount b count) = maskCount b count :=
  maskCount_of_lt widens (Nat.lt_trans (maskCount_lt widens count) widens.lt)

end Sources

section Expressions

variable {op : IntegerOp} {b w : Nat}

/-- What an opcode gives at one size, it gives at the other, up to high bits that are cut. -/
def Agrees (op : IntegerOp) (b w : Nat) (narrow wide : Nat → Int) : Prop :=
  ∀ dst, op.constExpr b narrow = some dst → ∃ dst', op.constExpr w wide = some dst' ∧
    Scalar.ofNumber op.outputType.base (op.outputType.bitSizeAt b) dst' =
      Scalar.ofNumber op.outputType.base (op.outputType.bitSizeAt b) dst

/-- The expression of an opcode does not look at the size. -/
def sizeless : IntegerOp → Bool
  | .ineg | .bitfieldReverse | .bitCount | .findLsb | .iaddSat | .uaddSat | .isubSat
  | .imulHigh | .umulHigh | .idiv | .uaddCarry | .irem | .imod | .bitnz | .bitz
  | .ishl | .ishr | .ushr | .urol | .uror
  | .extractU8 | .extractI8 | .extractU16 | .extractI16 | .insertU8 | .insertU16
  | .ubitfieldExtract | .ibitfieldExtract
  | .shrmIr3 | .shlmIr3 | .shrgIr3 | .shlgIr3 | .arshiftPan _ | .lshiftPan _ | .rshiftPan _
  | .lrotPan _ | .rrotPan _ | .leaNv => false
  | _ => true

theorem constExpr_eq (free : sizeless op) (src : Nat → Int) :
    op.constExpr w src = op.constExpr b src := by
  cases op <;> first | rfl | cases free
  case compare comparison dest => cases dest <;> rfl

theorem agrees_of_eq {narrow wide : Nat → Int} (same : wide = narrow)
    (expr : op.constExpr w narrow = op.constExpr b narrow) : Agrees op b w narrow wide := by
  intro dst found
  rw [same, expr]
  exact ⟨dst, found, rfl⟩

theorem agrees_of_ofInt {narrow wide : Nat → Int} (unsized : op.outputType.bitSize = 0)
    (integer : op.outputType.base ≠ .bool) {dst dst' : Int}
    (found : op.constExpr b narrow = some dst) (found' : op.constExpr w wide = some dst')
    (same : BitVec.ofInt b dst' = BitVec.ofInt b dst) : Agrees op b w narrow wide := by
  intro dst'' found''
  rw [found] at found''
  cases found''
  refine ⟨dst', found', ?_⟩
  rw [AluType.bitSizeAt, if_pos unsized, Scalar.ofNumber, Scalar.ofNumber, if_neg integer,
    if_neg integer, same]

theorem agrees_lowBits (low : lowBitsOp op) (widens : Widens b w) {narrow wide : Nat → Int}
    (bits : ∀ i, (op.inputType i).bitSize = 0 → BitVec.ofInt b (wide i) = BitVec.ofInt b (narrow i))
    (sized : ∀ i, (op.inputType i).bitSize ≠ 0 → ¬ (i = 1 ∧ masksCount op) → wide i = narrow i)
    (count : masksCount op → wide 1 = maskCount b (narrow 1)) : Agrees op b w narrow wide := by
  cases op with
  | iadd =>
    apply agrees_of_ofInt rfl (by decide) rfl rfl
    rw [BitVec.ofInt_add, BitVec.ofInt_add, bits 0 rfl, bits 1 rfl]
  | isub =>
    apply agrees_of_ofInt rfl (by decide) rfl rfl
    rw [ofInt_sub, ofInt_sub, bits 0 rfl, bits 1 rfl]
  | imul =>
    apply agrees_of_ofInt rfl (by decide) rfl rfl
    rw [BitVec.ofInt_mul, BitVec.ofInt_mul, bits 0 rfl, bits 1 rfl]
  | iadd3 =>
    apply agrees_of_ofInt rfl (by decide) rfl rfl
    rw [BitVec.ofInt_add, BitVec.ofInt_add, BitVec.ofInt_add, BitVec.ofInt_add, bits 0 rfl,
      bits 1 rfl, bits 2 rfl]
  | imad =>
    apply agrees_of_ofInt rfl (by decide) rfl rfl
    rw [BitVec.ofInt_add, BitVec.ofInt_add, BitVec.ofInt_mul, BitVec.ofInt_mul, bits 0 rfl,
      bits 1 rfl, bits 2 rfl]
  | inot =>
    apply agrees_of_ofInt rfl (by decide) rfl rfl
    rw [ofInt_lnot, ofInt_lnot, bits 0 rfl]
  | iand =>
    apply agrees_of_ofInt rfl (by decide) rfl rfl
    rw [ofInt_land, ofInt_land, bits 0 rfl, bits 1 rfl]
  | ior =>
    apply agrees_of_ofInt rfl (by decide) rfl rfl
    rw [ofInt_lor, ofInt_lor, bits 0 rfl, bits 1 rfl]
  | ixor =>
    apply agrees_of_ofInt rfl (by decide) rfl rfl
    rw [ofInt_xor, ofInt_xor, bits 0 rfl, bits 1 rfl]
  | bitfieldSelect =>
    apply agrees_of_ofInt rfl (by decide) rfl rfl
    rw [ofInt_lor, ofInt_lor, ofInt_land, ofInt_land, ofInt_land, ofInt_land, ofInt_lnot,
      ofInt_lnot, bits 0 rfl, bits 1 rfl, bits 2 rfl]
  | bcsel =>
    have condition : wide 0 = narrow 0 := sized 0 (by decide) (by decide)
    apply agrees_of_ofInt rfl (by decide) rfl rfl
    rw [condition]
    split
    · exact bits 1 rfl
    · exact bits 2 rfl
  | ishl =>
    apply agrees_of_ofInt rfl (by decide) rfl rfl
    rw [count rfl, maskCount_maskCount widens, BitVec.ofInt_mul, BitVec.ofInt_mul, bits 0 rfl]
  | _ => cases low

variable {src : Nat → Int}

theorem Widens.pos (widens : Widens b w) : 0 < b := by
  cases widens <;> decide

theorem toInt_ofInt {number : Int} (positive : 0 < b) (least : intNMin b ≤ number)
    (greatest : number ≤ intNMax b) : (BitVec.ofInt b number).toInt = number :=
  BitVec.toInt_ofInt_eq_self positive least (Int.lt_of_le_sub_one greatest)

/-- A value of the size is not the least one of the wider size. -/
theorem Widens.ne_intNMin (widens : Widens b w) {value : Int} (range : intNMin b ≤ value) :
    value ≠ intNMin w := by
  have less : intNMin w < intNMin b := by cases widens <;> decide
  omega

theorem agrees_ineg (widens : Widens b w) (range : intNMin b ≤ src 0) :
    Agrees .ineg b w src src := by
  have above := widens.ne_intNMin range
  apply agrees_of_ofInt rfl (by decide) rfl rfl
  rw [if_neg above]
  split
  next least =>
    rw [least]
    cases widens <;> decide
  next => rfl

theorem testBit_of_lt {number : Int} (nonneg : 0 ≤ number) (small : number ≤ uintNMax b) {i : Nat}
    (high : b ≤ i) : number.testBit i = false := by
  obtain ⟨n, rfl⟩ := Int.eq_ofNat_of_zero_le nonneg
  apply Nat.testBit_lt_two_pow
  rw [uintNMax] at small
  have fits : n < 2 ^ b := by exact_mod_cast Int.lt_of_le_sub_one small
  exact Nat.lt_of_lt_of_le fits (Nat.pow_le_pow_right (by decide) high)

theorem agrees_bitCount (widens : Widens b w) (nonneg : 0 ≤ src 0) (small : src 0 ≤ uintNMax b) :
    Agrees .bitCount b w src src := by
  have counts : (List.range w).countP (src 0).testBit = (List.range b).countP (src 0).testBit := by
    obtain ⟨more, rfl⟩ := Nat.exists_eq_add_of_lt widens.lt
    rw [Nat.add_assoc, List.range_add, List.countP_append]
    have none : ((List.range (more + 1)).map (b + ·)).countP (src 0).testBit = 0 := by
      apply List.countP_eq_zero.mpr
      intro i inside
      obtain ⟨j, -, rfl⟩ := List.mem_map.mp inside
      rw [testBit_of_lt nonneg small (Nat.le_add_right b j)]
      decide
    rw [none, Nat.add_zero]
  apply agrees_of_eq rfl
  show some (((List.range w).countP (src 0).testBit : Nat) : Int) = _
  rw [counts]
  rfl

theorem agrees_findLsb (widens : Widens b w) (least : intNMin b ≤ src 0)
    (greatest : src 0 ≤ intNMax b) : Agrees .findLsb b w src src := by
  have finds : (List.range w).find? (src 0).testBit = (List.range b).find? (src 0).testBit := by
    obtain ⟨more, rfl⟩ := Nat.exists_eq_add_of_lt widens.lt
    rw [Nat.add_assoc, List.range_add, List.find?_append]
    cases found : (List.range b).find? (src 0).testBit with
    | some bit => rfl
    | none =>
      -- Without a low bit the number is zero.
      have zero : src 0 = 0 := by
        have bits : BitVec.ofInt b (src 0) = 0#b := by
          apply BitVec.eq_of_getLsbD_eq
          intro i inside
          rw [getLsbD_ofInt _ inside]
          have none := List.find?_eq_none.mp found i (List.mem_range.mpr inside)
          simpa using none
        rw [← toInt_ofInt widens.pos least greatest, bits, BitVec.toInt_zero]
      rw [Option.none_or]
      apply List.find?_eq_none.mpr
      intro i inside
      rw [zero]
      show ¬ (0 : Nat).testBit i = true
      rw [Nat.zero_testBit]
      decide
  apply agrees_of_eq rfl
  simp only [IntegerOp.constExpr, finds]

theorem agrees_idiv (widens : Widens b w) (range : intNMin b ≤ src 0)
    (inside : ¬ (src 0 = intNMin b ∧ src 1 = -1)) : Agrees .idiv b w src src := by
  have above := widens.ne_intNMin range
  apply agrees_of_eq rfl
  show some _ = some _
  rw [Option.some.injEq]
  simp only [above, inside, false_and, or_false]

theorem agrees_irem (widens : Widens b w) (range : intNMin b ≤ src 0) :
    Agrees .irem b w src src := by
  have above := widens.ne_intNMin range
  apply agrees_of_eq rfl
  show some _ = some _
  rw [Option.some.injEq]
  simp only [above, false_and, or_false]
  by_cases overflow : src 0 = intNMin b ∧ src 1 = -1
  · rw [if_pos (Or.inr overflow), overflow.2]
    simp
  · simp only [overflow, or_false]

theorem agrees_imod (widens : Widens b w) (range : intNMin b ≤ src 0) :
    Agrees .imod b w src src := by
  have above := widens.ne_intNMin range
  apply agrees_of_eq rfl
  show some _ = some _
  rw [Option.some.injEq]
  simp only [above, false_and, or_false]
  by_cases overflow : src 0 = intNMin b ∧ src 1 = -1
  · rw [if_pos (Or.inr overflow), overflow.2]
    simp
  · simp only [overflow, or_false]

theorem agrees_bitnz (widens : Widens b w) {wide : Nat → Int} (same : wide 0 = src 0)
    (count : wide 1 = maskCount b (src 1)) : Agrees .bitnz b w src wide := by
  intro dst found
  refine ⟨dst, ?_, rfl⟩
  rw [← found]
  show some (((wide 0).testBit (maskCount w (wide 1))).toNat : Int) = _
  rw [same, count, maskCount_maskCount widens]
  rfl

theorem agrees_bitz (widens : Widens b w) {wide : Nat → Int} (same : wide 0 = src 0)
    (count : wide 1 = maskCount b (src 1)) : Agrees .bitz b w src wide := by
  intro dst found
  refine ⟨dst, ?_, rfl⟩
  rw [← found]
  show some (((!(wide 0).testBit (maskCount w (wide 1))).toNat : Nat) : Int) = _
  rw [same, count, maskCount_maskCount widens]
  rfl

theorem agrees_ishr (widens : Widens b w) {wide : Nat → Int} (same : wide 0 = src 0)
    (count : wide 1 = maskCount b (src 1)) : Agrees .ishr b w src wide := by
  apply agrees_of_ofInt rfl (by decide) rfl rfl
  rw [same, count, maskCount_maskCount widens]

theorem agrees_ushr (widens : Widens b w) {wide : Nat → Int} (same : wide 0 = src 0)
    (count : wide 1 = maskCount b (src 1)) : Agrees .ushr b w src wide := by
  apply agrees_of_ofInt rfl (by decide) rfl rfl
  rw [same, count, maskCount_maskCount widens]

/-- Bytes and words that are there at the narrow size are there at the wide one. -/
theorem extractInsert_wide (widens : Widens b w) {width : Nat} {src1 : Int} {value : Nat → Int}
    {dst : Int} (found : extractInsert b width src1 value = some dst) :
    extractInsert w width src1 value = some dst := by
  have less := widens.lt
  rw [extractInsert] at found ⊢
  split at found
  next => cases found
  next inside =>
    rw [if_neg (by omega)]
    exact found

theorem agrees_of_imp (expr : ∀ dst, op.constExpr b src = some dst →
    op.constExpr w src = some dst) : Agrees op b w src src :=
  fun dst found => ⟨dst, expr dst found, rfl⟩

theorem agrees_ubitfieldExtract (widens : Widens b w) :
    Agrees .ubitfieldExtract b w src src := by
  have less := widens.lt
  intro dst found
  refine ⟨dst, ?_, rfl⟩
  rw [IntegerOp.constExpr] at found ⊢
  split at found
  next zero =>
    rw [if_pos zero]
    exact found
  next nonzero =>
    rw [if_neg nonzero]
    split at found
    next => cases found
    next inside =>
      rw [if_neg (by omega)]
      exact found

theorem agrees_ibitfieldExtract (widens : Widens b w) :
    Agrees .ibitfieldExtract b w src src := by
  have less := widens.lt
  intro dst found
  refine ⟨dst, ?_, rfl⟩
  rw [IntegerOp.constExpr] at found ⊢
  split at found
  next zero =>
    rw [if_pos zero]
    exact found
  next nonzero =>
    rw [if_neg nonzero]
    split at found
    next => cases found
    next inside =>
      rw [if_neg (by omega)]
      exact found

theorem maskCount_small (widens : Widens b w) {count : Int} (nonneg : 0 ≤ count)
    (small : count < b) : maskCount w count = maskCount b count := by
  obtain ⟨n, rfl⟩ := Int.eq_ofNat_of_zero_le nonneg
  have less := widens.lt
  have bound : w ≤ 32 := by cases widens <;> decide
  have fits : n < 2 ^ 32 := by omega
  rw [maskCount_eq widens, maskCount_wide_eq widens]
  change (BitVec.ofInt 32 (n : Int)).toNat % w = (BitVec.ofInt 32 (n : Int)).toNat % b
  rw [BitVec.ofInt_natCast, BitVec.toNat_ofNat, Nat.mod_eq_of_lt fits,
    Nat.mod_eq_of_lt (by omega), Nat.mod_eq_of_lt (by omega)]

theorem agrees_leaNv (widens : Widens b w) (nonneg : 0 ≤ src 2) (small : src 2 < b) :
    Agrees .leaNv b w src src := by
  have less := widens.lt
  have same : src 2 % w = src 2 % b := by
    rw [Int.emod_eq_of_lt nonneg (by omega), Int.emod_eq_of_lt nonneg small]
  apply agrees_of_eq rfl
  show some (src 0 + src 1 * 2 ^ (src 2 % w).toNat) = _
  rw [same]
  rfl

end Expressions

section Results

variable {op : IntegerOp} {b w : Nat} {src : Nat → Def}

theorem outputType_base (unsized : op.outputType.bitSize = 0) :
    op.outputType.base = .int ∨ op.outputType.base = .uint := by
  cases op with
  | compare comparison dest => cases dest <;> first | exact .inr rfl | cases unsized
  | _ => first | exact .inl rfl | exact .inr rfl | cases unsized

/-- Cutting the result leaves the low bits of the number. -/
theorem convertScalar_ofNumber {type : BaseType} (integer : type = .int ∨ type = .uint)
    (narrow : b ≤ w) (dst : Int) :
    convertScalar type b (Scalar.ofNumber type w dst) = Scalar.ofNumber type b dst := by
  rcases integer with rfl | rfl
  · show (⟨b, (BitVec.ofInt w dst).signExtend b⟩ : Scalar) = ⟨b, BitVec.ofInt b dst⟩
    rw [BitVec.signExtend_eq_setWidth_of_le _ narrow, Narrowing.setWidth_ofInt dst narrow]
  · show (⟨b, (BitVec.ofInt w dst).setWidth b⟩ : Scalar) = ⟨b, BitVec.ofInt b dst⟩
    rw [Narrowing.setWidth_ofInt dst narrow]

/-- The opcodes that have sequences of their own. -/
def sequenced : IntegerOp → Bool
  | .imulHigh | .umulHigh | .iaddSat | .isubSat | .uaddSat | .uaddCarry | .bitfieldReverse => true
  | _ => false

theorem emitLoweredDst_eq (generic : sequenced op = false) (dstBitSize : Nat)
    (srcs : Nat → Scalar) : emitLoweredDst op dstBitSize w srcs = op.evaluate w srcs := by
  cases op <;> first | rfl | cases generic

theorem lowerAluInstr_eq {dstBitSize : Nat} {loweredDst : Scalar}
    (emits : emitLoweredDst op dstBitSize w (lowerSrc op w src) = some loweredDst) :
    lowerAluInstr op dstBitSize w src =
      if op.outputType.bitSize = 0 ∧ dstBitSize ≠ w then
        some (convertScalar op.outputType.base dstBitSize loweredDst)
      else some loweredDst := by
  rw [lowerAluInstr, emits]
  rfl

theorem lowerAluInstr_of_agrees (generic : sequenced op = false) (widens : Widens b w)
    (agrees : Agrees op b w (numbers op fun i => (src i).scalar) (numbers op (lowerSrc op w src)))
    {result : Scalar} (evaluates : op.evaluate b (fun i => (src i).scalar) = some result) :
    lowerAluInstr op (op.outputType.bitSizeAt b) w src = some result := by
  obtain ⟨dst, found, rfl⟩ := Option.map_eq_some_iff.mp evaluates
  obtain ⟨dst', found', same⟩ := agrees dst found
  have wide : op.evaluate w (lowerSrc op w src) = some
      (Scalar.ofNumber op.outputType.base (op.outputType.bitSizeAt w) dst') :=
    Option.map_eq_some_iff.mpr ⟨dst', found', rfl⟩
  have less := widens.lt
  rw [← emitLoweredDst_eq generic (op.outputType.bitSizeAt b)] at wide
  rw [lowerAluInstr_eq wide, ← same]
  by_cases unsized : op.outputType.bitSize = 0
  · have narrow : op.outputType.bitSizeAt b = b := if_pos unsized
    have wide' : op.outputType.bitSizeAt w = w := if_pos unsized
    rw [narrow, wide', if_pos ⟨unsized, by omega⟩,
      convertScalar_ofNumber (outputType_base unsized) (by omega)]
  · have size : op.outputType.bitSizeAt w = op.outputType.bitSizeAt b := by
      rw [AluType.bitSizeAt, AluType.bitSizeAt, if_neg unsized, if_neg unsized]
    rw [if_neg (fun both => unsized both.1), size]

end Results

section Sequences

variable {op : IntegerOp} {b w : Nat} {src : Nat → Def}

def ofInt (w : Nat) (number : Int) : Scalar := ⟨w, BitVec.ofInt w number⟩

theorem buildAlu2_iadd (x y : Int) :
    buildAlu2 .iadd w (ofInt w x) (ofInt w y) = some (ofInt w (x + y)) := by
  show some (⟨w, BitVec.ofInt w ((BitVec.ofInt w x).toInt + (BitVec.ofInt w y).toInt)⟩ : Scalar) = _
  rw [BitVec.ofInt_add, BitVec.ofInt_toInt, BitVec.ofInt_toInt, ← BitVec.ofInt_add]
  rfl

theorem buildAlu2_isub (x y : Int) :
    buildAlu2 .isub w (ofInt w x) (ofInt w y) = some (ofInt w (x - y)) := by
  show some (⟨w, BitVec.ofInt w ((BitVec.ofInt w x).toInt - (BitVec.ofInt w y).toInt)⟩ : Scalar) = _
  rw [ofInt_sub, BitVec.ofInt_toInt, BitVec.ofInt_toInt, ← ofInt_sub]
  rfl

theorem buildAlu2_imul (x y : Int) :
    buildAlu2 .imul w (ofInt w x) (ofInt w y) = some (ofInt w (x * y)) := by
  show some (⟨w, BitVec.ofInt w ((BitVec.ofInt w x).toInt * (BitVec.ofInt w y).toInt)⟩ : Scalar) = _
  rw [BitVec.ofInt_mul, BitVec.ofInt_toInt, BitVec.ofInt_toInt, ← BitVec.ofInt_mul]
  rfl

def Signed (w : Nat) (number : Int) : Prop := intNMin w ≤ number ∧ number ≤ intNMax w

def Unsigned (w : Nat) (number : Int) : Prop := 0 ≤ number ∧ number ≤ uintNMax w

theorem toNat_ofInt {number : Int} (unsigned : Unsigned w number) :
    ((BitVec.ofInt w number).toNat : Int) = number := by
  obtain ⟨nonneg, small⟩ := unsigned
  obtain ⟨n, rfl⟩ := Int.eq_ofNat_of_zero_le nonneg
  have fits : n < 2 ^ w := by exact_mod_cast Int.lt_of_le_sub_one small
  rw [BitVec.ofInt_natCast, BitVec.toNat_ofNat, Nat.mod_eq_of_lt fits]

theorem buildAlu2_imax (positive : 0 < w) {x y : Int} (signed : Signed w x) (signed' : Signed w y) :
    buildAlu2 .imax w (ofInt w x) (ofInt w y) = some (ofInt w (if x > y then x else y)) := by
  show some (⟨w, BitVec.ofInt w (if (BitVec.ofInt w x).toInt > (BitVec.ofInt w y).toInt then
    (BitVec.ofInt w x).toInt else (BitVec.ofInt w y).toInt)⟩ : Scalar) = _
  rw [toInt_ofInt positive signed.1 signed.2, toInt_ofInt positive signed'.1 signed'.2]
  rfl

theorem buildAlu2_imin (positive : 0 < w) {x y : Int} (signed : Signed w x) (signed' : Signed w y) :
    buildAlu2 .imin w (ofInt w x) (ofInt w y) = some (ofInt w (if x < y then x else y)) := by
  show some (⟨w, BitVec.ofInt w (if (BitVec.ofInt w x).toInt < (BitVec.ofInt w y).toInt then
    (BitVec.ofInt w x).toInt else (BitVec.ofInt w y).toInt)⟩ : Scalar) = _
  rw [toInt_ofInt positive signed.1 signed.2, toInt_ofInt positive signed'.1 signed'.2]
  rfl

theorem iclamp_eq (positive : 0 < w) {x least greatest : Int} (signed : Signed w x)
    (signed' : Signed w least) (signed'' : Signed w greatest) (ordered : least ≤ greatest) :
    iclamp w (ofInt w x) (ofInt w least) (ofInt w greatest) =
      some (ofInt w (if x < least then least else if greatest < x then greatest else x)) := by
  have raised : Signed w (if x > least then x else least) := by
    split
    · exact signed
    · exact signed'
  rw [iclamp, buildAlu2_imax positive signed signed', Option.bind_eq_bind, Option.bind_some,
    buildAlu2_imin positive raised signed'']
  have same : (if (if x > least then x else least) < greatest then
      (if x > least then x else least) else greatest) =
      if x < least then least else if greatest < x then greatest else x := by
    split <;> split <;> split <;> omega
  rw [same]

theorem buildAlu2_umin {x y : Int} (unsigned : Unsigned w x) (unsigned' : Unsigned w y) :
    buildAlu2 .umin w (ofInt w x) (ofInt w y) = some (ofInt w (if x < y then x else y)) := by
  show some (⟨w, BitVec.ofInt w (if ((BitVec.ofInt w x).toNat : Int) < (BitVec.ofInt w y).toNat then
    ((BitVec.ofInt w x).toNat : Int) else (BitVec.ofInt w y).toNat)⟩ : Scalar) = _
  rw [toNat_ofInt unsigned, toNat_ofInt unsigned']
  rfl

theorem shiftImm_ushr (widens : Widens b w) {x : Int} (unsigned : Unsigned w x) {count : Nat}
    (small : count < w) :
    shiftImm .ushr w (ofInt w x) count = some (ofInt w (x / 2 ^ count)) := by
  have bound : w ≤ 32 := by cases widens <;> decide
  show some (⟨w, BitVec.ofInt w (((BitVec.ofInt w x).toNat : Int) /
    2 ^ maskCount w ((BitVec.ofInt 32 count).toNat : Int))⟩ : Scalar) = _
  rw [toNat_ofInt unsigned, BitVec.ofInt_natCast, BitVec.toNat_ofNat,
    Nat.mod_eq_of_lt (show count < 2 ^ 32 by omega), maskCount_of_lt widens small]
  rfl

theorem shiftImm_ishr (widens : Widens b w) {x : Int} (signed : Signed w x) {count : Nat}
    (small : count < w) :
    shiftImm .ishr w (ofInt w x) count = some (ofInt w (x / 2 ^ count)) := by
  have bound : w ≤ 32 := by cases widens <;> decide
  have positive : 0 < w := Nat.lt_trans widens.pos widens.lt
  show some (⟨w, BitVec.ofInt w ((BitVec.ofInt w x).toInt /
    2 ^ maskCount w ((BitVec.ofInt 32 count).toNat : Int))⟩ : Scalar) = _
  rw [toInt_ofInt positive signed.1 signed.2, BitVec.ofInt_natCast, BitVec.toNat_ofNat,
    Nat.mod_eq_of_lt (show count < 2 ^ 32 by omega), maskCount_of_lt widens small]
  rfl

theorem Signed.number {scalar : Scalar} (positive : 0 < b) (size : scalar.bitSize = b) :
    Signed b (scalar.number .int) := by
  subst size
  have least := BitVec.le_toInt scalar.val
  have greatest : scalar.val.toInt < 2 ^ (scalar.bitSize - 1) := BitVec.toInt_lt
  exact ⟨least, Int.le_sub_one_of_lt greatest⟩

theorem Unsigned.number {scalar : Scalar} (size : scalar.bitSize = b) :
    Unsigned b (scalar.number .uint) := by
  subst size
  have small := scalar.val.isLt
  constructor
  · exact Int.natCast_nonneg _
  · apply Int.le_sub_one_of_lt
    show (scalar.val.toNat : Int) < 2 ^ scalar.bitSize
    exact_mod_cast small

theorem bitSize_convertToBitSize {type : BaseType} {src : Def} :
    (convertToBitSize src type w).bitSize = w := by
  have converted (scalar : Scalar) : (convertScalar type w scalar).bitSize = w := by
    cases type <;> rfl
  cases src with
  | value src => exact converted _
  | convert type' bitSize src => exact converted _
  | b2i bitSize value =>
    rw [convertToBitSize]
    split
    next both => exact both.2.symm
    next => exact converted _

theorem lowerSrc_eq (sized : Sized op b src) (widens : Widens b w) (exact_ : lowBitsOp op = false)
    {i : Nat} (unsized : (op.inputType i).bitSize = 0) (notCount : ¬ (i = 1 ∧ masksCount op)) :
    lowerSrc op w src i = ofInt w ((src i).scalar.number (op.inputType i).base) := by
  have number := number_lowerSrc sized widens exact_ notCount
  have size : (lowerSrc op w src i).bitSize = w := by
    have none : beforeConversion (op.inputType i).base w (src i) op = none := by
      apply Option.eq_none_iff_forall_ne_some.mpr
      intro before found
      obtain ⟨low, -⟩ := beforeConversion_eq_some found
      rw [exact_] at low
      cases low
    rw [lowerSrc, if_neg notCount, if_pos unsized, none]
    exact bitSize_convertToBitSize
  rw [← number]
  generalize lowerSrc op w src i = scalar at size
  subst size
  rcases inputType_base i unsized with int | uint
  · rw [int]
    show scalar = ⟨scalar.bitSize, BitVec.ofInt scalar.bitSize scalar.val.toInt⟩
    rw [BitVec.ofInt_toInt]
  · rw [uint]
    show scalar = ⟨scalar.bitSize, BitVec.ofInt scalar.bitSize scalar.val.toNat⟩
    rw [ofInt_toNat]

/-- The value that the opcode has at the size of the sources is computed. -/
def Exact (op : IntegerOp) (b w : Nat) (src : Nat → Def) : Prop :=
  ∀ result, op.evaluate b (fun i => (src i).scalar) = some result →
    lowerAluInstr op (op.outputType.bitSizeAt b) w src = some result

theorem Signed.mul (widens : Widens b w) {x y : Int} (signed : Signed b x) (signed' : Signed b y) :
    Signed w (x * y) := by
  have small : |x| ≤ 2 ^ (b - 1) := by
    apply abs_le.mpr
    exact ⟨signed.1, Int.le_trans signed.2 (Int.sub_le_self _ (by decide))⟩
  have small' : |y| ≤ 2 ^ (b - 1) := by
    apply abs_le.mpr
    exact ⟨signed'.1, Int.le_trans signed'.2 (Int.sub_le_self _ (by decide))⟩
  have product : |x * y| ≤ intNMax w := by
    calc |x * y| = |x| * |y| := abs_mul x y
      _ ≤ 2 ^ (b - 1) * 2 ^ (b - 1) :=
        mul_le_mul small small' (abs_nonneg y) (pow_nonneg (by decide) _)
      _ ≤ intNMax w := by cases widens <;> decide
  obtain ⟨least, greatest⟩ := abs_le.mp product
  refine ⟨Int.le_trans ?_ least, greatest⟩
  cases widens <;> decide

theorem Unsigned.mul (widens : Widens b w) {x y : Int} (unsigned : Unsigned b x)
    (unsigned' : Unsigned b y) : Unsigned w (x * y) := by
  constructor
  · exact Int.mul_nonneg unsigned.1 unsigned'.1
  · calc x * y ≤ uintNMax b * uintNMax b :=
          mul_le_mul unsigned.2 unsigned'.2 unsigned'.1 (Int.le_trans unsigned.1 unsigned.2)
      _ ≤ uintNMax w := by cases widens <;> decide

/-- The result of a sequence is cut to the size of the sources. -/
theorem exact_of_emits (widens : Widens b w) (unsized : op.outputType.bitSize = 0) {dst dst' : Int}
    (found : op.constExpr b (numbers op fun i => (src i).scalar) = some dst)
    (emits : emitLoweredDst op b w (lowerSrc op w src) = some (ofInt w dst'))
    (same : BitVec.ofInt b dst' = BitVec.ofInt b dst) : Exact op b w src := by
  intro result evaluates
  have value := evaluates
  rw [IntegerOp.evaluate] at value
  change (op.constExpr b (numbers op fun i => (src i).scalar)).map _ = _ at value
  rw [found] at value
  cases value
  have narrow : op.outputType.bitSizeAt b = b := if_pos unsized
  have less := widens.lt
  have integer := outputType_base unsized
  have notBool : op.outputType.base ≠ .bool := by
    rcases integer with int | uint
    · rw [int]
      decide
    · rw [uint]
      decide
  rw [narrow, lowerAluInstr_eq emits, if_pos ⟨unsized, Nat.ne_of_lt less⟩]
  have cut := convertScalar_ofNumber integer (Nat.le_of_lt less) dst'
  rw [Scalar.ofNumber, Scalar.ofNumber, if_neg notBool] at cut
  change some (convertScalar _ b (ofInt w dst')) = _
  rw [ofInt, cut, same, Scalar.ofNumber, if_neg notBool]

theorem exact_imulHigh (sized : Sized .imulHigh b src) (widens : Widens b w) :
    Exact .imulHigh b w src := by
  have src0 := lowerSrc_eq sized widens rfl (i := 0) rfl (by decide)
  have src1 := lowerSrc_eq sized widens rfl (i := 1) rfl (by decide)
  have signed : Signed b ((src 0).scalar.number .int) := Signed.number widens.pos (sized 0)
  have signed' : Signed b ((src 1).scalar.number .int) := Signed.number widens.pos (sized 1)
  apply exact_of_emits widens rfl rfl _ rfl
  show (buildAlu2 .imul w (lowerSrc .imulHigh w src 0) (lowerSrc .imulHigh w src 1)).bind
    (fun product => shiftImm .ishr w product b) = _
  rw [src0, src1, buildAlu2_imul, Option.bind_some]
  exact shiftImm_ishr widens (signed.mul widens signed') widens.lt

theorem exact_umulHigh (sized : Sized .umulHigh b src) (widens : Widens b w) :
    Exact .umulHigh b w src := by
  have src0 := lowerSrc_eq sized widens rfl (i := 0) rfl (by decide)
  have src1 := lowerSrc_eq sized widens rfl (i := 1) rfl (by decide)
  have unsigned : Unsigned b ((src 0).scalar.number .uint) := Unsigned.number (sized 0)
  have unsigned' : Unsigned b ((src 1).scalar.number .uint) := Unsigned.number (sized 1)
  apply exact_of_emits widens rfl rfl _ rfl
  show (buildAlu2 .imul w (lowerSrc .umulHigh w src 0) (lowerSrc .umulHigh w src 1)).bind
    (fun product => shiftImm .ushr w product b) = _
  rw [src0, src1, buildAlu2_imul, Option.bind_some]
  exact shiftImm_ushr widens (unsigned.mul widens unsigned') widens.lt

theorem Signed.bounds (widens : Widens b w) :
    Signed w (intNMin b) ∧ Signed w (intNMax b) ∧ intNMin b ≤ intNMax b := by
  cases widens <;> unfold Signed <;> decide

theorem Signed.add (widens : Widens b w) {x y : Int} (signed : Signed b x) (signed' : Signed b y) :
    Signed w (x + y) ∧ Signed w (x - y) := by
  have least : intNMin w ≤ intNMin b + intNMin b ∧ intNMin w ≤ intNMin b - intNMax b := by
    cases widens <;> decide
  have greatest : intNMax b + intNMax b ≤ intNMax w ∧ intNMax b - intNMin b ≤ intNMax w := by
    cases widens <;> decide
  unfold Signed at signed signed' ⊢
  omega

theorem Unsigned.add (widens : Widens b w) {x y : Int} (unsigned : Unsigned b x)
    (unsigned' : Unsigned b y) : Unsigned w (x + y) := by
  have greatest : uintNMax b + uintNMax b ≤ uintNMax w := by cases widens <;> decide
  unfold Unsigned at unsigned unsigned' ⊢
  omega

/-- A sum that is too large or too small has summands of that sign. -/
theorem clamp_add {x y least greatest : Int} (x_le : x ≤ greatest) (le_x : least ≤ x) :
    (if x + y < least then least else if greatest < x + y then greatest else x + y) =
      if x + y < least ∨ greatest < x + y then if y < 0 then least else greatest else x + y := by
  by_cases below : x + y < least
  · rw [if_pos below, if_pos (Or.inl below), if_pos (by omega)]
  · rw [if_neg below]
    by_cases above : greatest < x + y
    · rw [if_pos above, if_pos (Or.inr above), if_neg (by omega)]
    · rw [if_neg above, if_neg (by omega)]

theorem clamp_sub {x y least greatest : Int} (x_le : x ≤ greatest) (le_x : least ≤ x) :
    (if x - y < least then least else if greatest < x - y then greatest else x - y) =
      if x - y < least ∨ greatest < x - y then if y < 0 then greatest else least else x - y := by
  by_cases below : x - y < least
  · rw [if_pos below, if_pos (Or.inl below), if_neg (by omega)]
  · rw [if_neg below]
    by_cases above : greatest < x - y
    · rw [if_pos above, if_pos (Or.inr above), if_pos (by omega)]
    · rw [if_neg above, if_neg (by omega)]

theorem clamp_uadd (sum greatest : Int) :
    (if sum < greatest then sum else greatest) = if greatest < sum then greatest else sum := by
  rcases Int.lt_trichotomy sum greatest with less | same | greater
  · rw [if_pos less, if_neg (Int.lt_asymm less)]
  · rw [if_neg (Int.not_lt.mpr same.ge), if_neg (Int.not_lt.mpr same.le), same]
  · rw [if_neg (Int.lt_asymm greater), if_pos greater]

theorem carry_eq {sum : Int} (nonneg : 0 ≤ sum) (small : sum < 2 ^ b + 2 ^ b) :
    sum / 2 ^ b = if uintNMax b < sum then 1 else 0 := by
  have positive : (0 : Int) < 2 ^ b := Int.pow_pos (by decide)
  by_cases carry : uintNMax b < sum
  · rw [if_pos carry, Int.ediv_eq_iff_of_pos positive]
    rw [uintNMax] at carry
    omega
  · rw [if_neg carry]
    rw [uintNMax] at carry
    apply Int.ediv_eq_zero_of_lt nonneg
    omega

theorem exact_iaddSat (sized : Sized .iaddSat b src) (widens : Widens b w) :
    Exact .iaddSat b w src := by
  have src0 := lowerSrc_eq sized widens rfl (i := 0) rfl (by decide)
  have src1 := lowerSrc_eq sized widens rfl (i := 1) rfl (by decide)
  have signed : Signed b ((src 0).scalar.number .int) := Signed.number widens.pos (sized 0)
  have signed' : Signed b ((src 1).scalar.number .int) := Signed.number widens.pos (sized 1)
  obtain ⟨least, greatest, ordered⟩ := Signed.bounds widens
  have sum := (signed.add widens signed').1
  apply exact_of_emits widens rfl rfl
  · show (buildAlu2 .iadd w (lowerSrc .iaddSat w src 0) (lowerSrc .iaddSat w src 1)).bind
      (fun sum => iclamp w sum (ofInt w (intNMin b)) (ofInt w (intNMax b))) = _
    rw [src0, src1, buildAlu2_iadd, Option.bind_some]
    exact iclamp_eq (Nat.lt_trans widens.pos widens.lt) sum least greatest ordered
  · exact congrArg (BitVec.ofInt b) (clamp_add signed.2 signed.1)

theorem exact_isubSat (sized : Sized .isubSat b src) (widens : Widens b w) :
    Exact .isubSat b w src := by
  have src0 := lowerSrc_eq sized widens rfl (i := 0) rfl (by decide)
  have src1 := lowerSrc_eq sized widens rfl (i := 1) rfl (by decide)
  have signed : Signed b ((src 0).scalar.number .int) := Signed.number widens.pos (sized 0)
  have signed' : Signed b ((src 1).scalar.number .int) := Signed.number widens.pos (sized 1)
  obtain ⟨least, greatest, ordered⟩ := Signed.bounds widens
  have difference := (signed.add widens signed').2
  apply exact_of_emits widens rfl rfl
  · show (buildAlu2 .isub w (lowerSrc .isubSat w src 0) (lowerSrc .isubSat w src 1)).bind
      (fun difference => iclamp w difference (ofInt w (intNMin b)) (ofInt w (intNMax b))) = _
    rw [src0, src1, buildAlu2_isub, Option.bind_some]
    exact iclamp_eq (Nat.lt_trans widens.pos widens.lt) difference least greatest ordered
  · exact congrArg (BitVec.ofInt b) (clamp_sub signed.2 signed.1)

theorem exact_uaddSat (sized : Sized .uaddSat b src) (widens : Widens b w) :
    Exact .uaddSat b w src := by
  have src0 := lowerSrc_eq sized widens rfl (i := 0) rfl (by decide)
  have src1 := lowerSrc_eq sized widens rfl (i := 1) rfl (by decide)
  have unsigned : Unsigned b ((src 0).scalar.number .uint) := Unsigned.number (sized 0)
  have unsigned' : Unsigned b ((src 1).scalar.number .uint) := Unsigned.number (sized 1)
  have greatest : Unsigned w (uintNMax b) := by cases widens <;> unfold Unsigned <;> decide
  apply exact_of_emits widens rfl rfl
  · show (buildAlu2 .iadd w (lowerSrc .uaddSat w src 0) (lowerSrc .uaddSat w src 1)).bind
      (fun sum => buildAlu2 .umin w sum (ofInt w (uintNMax b))) = _
    rw [src0, src1, buildAlu2_iadd, Option.bind_some]
    exact buildAlu2_umin (unsigned.add widens unsigned') greatest
  · exact congrArg (BitVec.ofInt b) (clamp_uadd _ _)

theorem exact_uaddCarry (sized : Sized .uaddCarry b src) (widens : Widens b w) :
    Exact .uaddCarry b w src := by
  have src0 := lowerSrc_eq sized widens rfl (i := 0) rfl (by decide)
  have src1 := lowerSrc_eq sized widens rfl (i := 1) rfl (by decide)
  have unsigned : Unsigned b ((src 0).scalar.number .uint) := Unsigned.number (sized 0)
  have unsigned' : Unsigned b ((src 1).scalar.number .uint) := Unsigned.number (sized 1)
  apply exact_of_emits widens rfl rfl
  · show (buildAlu2 .iadd w (lowerSrc .uaddCarry w src 0) (lowerSrc .uaddCarry w src 1)).bind
      (fun sum => shiftImm .ushr w sum b) = _
    rw [src0, src1, buildAlu2_iadd, Option.bind_some]
    exact shiftImm_ushr widens (unsigned.add widens unsigned') widens.lt
  · have total : (src 0).scalar.number .uint + (src 1).scalar.number .uint < 2 ^ b + 2 ^ b :=
      Int.add_lt_add (Int.lt_of_le_sub_one unsigned.2) (Int.lt_of_le_sub_one unsigned'.2)
    exact congrArg (BitVec.ofInt b) (carry_eq (unsigned.add widens unsigned').1 total)

/-- The reverse of the wide word has the reverse of the narrow one in its high bits. -/
theorem exact_bitfieldReverse (sized : Sized .bitfieldReverse b src) (widens : Widens b w) :
    Exact .bitfieldReverse b w src := by
  have src0 := lowerSrc_eq sized widens rfl (i := 0) rfl (by decide)
  have unsigned : Unsigned b ((src 0).scalar.number .uint) := Unsigned.number (sized 0)
  have less := widens.lt
  let wide := (BitVec.ofInt w ((src 0).scalar.number .uint)).reverse
  have reverses : IntegerOp.bitfieldReverse.evaluate w (lowerSrc .bitfieldReverse w src) =
      some (ofInt w wide.toNat) := by
    have number : (lowerSrc .bitfieldReverse w src 0).number .uint = (src 0).scalar.number .uint :=
      number_lowerSrc sized widens rfl (i := 0) (by decide)
    show some (⟨w, BitVec.ofInt w (((List.range w).foldl (fun dst bit => dst |||
      (BitVec.ofInt w ((lowerSrc .bitfieldReverse w src 0).number .uint) >>> bit &&& 1#w) <<<
        ((w - 1) - bit)) 0#w).toNat)⟩ : Scalar) = _
    rw [BitVector.foldl_mirror, number]
    rfl
  have range : Unsigned w wide.toNat :=
    ⟨Int.natCast_nonneg _, Int.le_sub_one_of_lt (by exact_mod_cast wide.isLt)⟩
  apply exact_of_emits widens rfl rfl
  · show (IntegerOp.bitfieldReverse.evaluate w (lowerSrc .bitfieldReverse w src)).bind
      (fun reversed => shiftImm .ushr w reversed (w - b)) = _
    rw [reverses, Option.bind_some]
    exact shiftImm_ushr widens range (Nat.sub_lt (Nat.zero_lt_of_lt less) widens.pos)
  · have shifted := ofInt_reverse ((src 0).scalar.number .uint) (Nat.le_of_lt less)
    rw [Int.natCast_ediv, Int.natCast_pow] at shifted
    have narrow := BitVector.foldl_mirror (BitVec.ofInt b ((src 0).scalar.number .uint))
    show BitVec.ofInt b ((wide.toNat : Int) / 2 ^ (w - b)) = BitVec.ofInt b
      (((List.range b).foldl (fun dst bit => dst |||
        (BitVec.ofInt b ((src 0).scalar.number .uint) >>> bit &&& 1#b) <<< ((b - 1) - bit))
        0#b).toNat)
    rw [narrow, ofInt_toNat]
    exact shifted

end Sequences

section Alu

variable {op : IntegerOp} {b w : Nat} {src : Nat → Def}

/-- The operands of which the value is kept. Rotations wrap at the wide size, some opcodes cut their
count there, and the quotient of the least number by -1 is zero at the narrow size only. -/
def Kept (op : IntegerOp) (b : Nat) (number : Nat → Int) : Prop :=
  match op with
  | .urol | .uror | .lrotPan _ | .rrotPan _ => False
  | .idiv => ¬ (number 0 = intNMin b ∧ number 1 = -1)
  | .shrmIr3 | .shlmIr3 | .shrgIr3 | .shlgIr3 | .arshiftPan _ | .lshiftPan _ | .rshiftPan _ =>
    number 1 < b
  | .leaNv => number 2 < b
  | _ => True

theorem agrees_sized (widens : Widens b w) {number : Nat → Int} (kept : Kept op b number)
    (generic : sequenced op = false) (exact_ : lowBitsOp op = false)
    (unmasked : masksCount op = false)
    (signed : ∀ i, op.inputType i = ⟨.int, 0⟩ → Signed b (number i))
    (unsigned : ∀ i, op.inputType i = ⟨.uint, 0⟩ → Unsigned b (number i))
    (nonneg : ∀ i, (op.inputType i).base = .uint → 0 ≤ number i) :
    Agrees op b w number number := by
  cases free : sizeless op with
  | true => exact agrees_of_eq rfl (constExpr_eq free number)
  | false =>
    cases op with
    | ineg => exact agrees_ineg widens (signed 0 rfl).1
    | bitCount => exact agrees_bitCount widens (unsigned 0 rfl).1 (unsigned 0 rfl).2
    | findLsb => exact agrees_findLsb widens (signed 0 rfl).1 (signed 0 rfl).2
    | idiv => exact agrees_idiv widens (signed 0 rfl).1 kept
    | irem => exact agrees_irem widens (signed 0 rfl).1
    | imod => exact agrees_imod widens (signed 0 rfl).1
    | extractU8 | extractI8 | extractU16 | extractI16 | insertU8 | insertU16 =>
      apply agrees_of_imp
      intro dst found
      rw [IntegerOp.constExpr] at found ⊢
      exact extractInsert_wide widens found
    | ubitfieldExtract => exact agrees_ubitfieldExtract widens
    | ibitfieldExtract => exact agrees_ibitfieldExtract widens
    | shrmIr3 | shlmIr3 | shrgIr3 | shlgIr3 | arshiftPan | lshiftPan | rshiftPan =>
      have count := maskCount_small widens (nonneg 1 rfl) kept
      apply agrees_of_eq rfl
      simp only [IntegerOp.constExpr, shiftPan, count]
    | leaNv => exact agrees_leaNv widens (nonneg 2 rfl) kept
    | urol | uror | lrotPan | rrotPan => exact kept.elim
    | _ =>
      first
      | exact Bool.noConfusion generic
      | exact Bool.noConfusion exact_
      | exact Bool.noConfusion unmasked
      | exact Bool.noConfusion free

theorem exact_alu (sized : Sized op b src) (widens : Widens b w)
    (kept : Kept op b (numbers op fun i => (src i).scalar)) : Exact op b w src := by
  cases generic : sequenced op with
  | true =>
    cases op with
    | imulHigh => exact exact_imulHigh sized widens
    | umulHigh => exact exact_umulHigh sized widens
    | iaddSat => exact exact_iaddSat sized widens
    | isubSat => exact exact_isubSat sized widens
    | uaddSat => exact exact_uaddSat sized widens
    | uaddCarry => exact exact_uaddCarry sized widens
    | bitfieldReverse => exact exact_bitfieldReverse sized widens
    | _ => cases generic
  | false =>
    intro result evaluates
    refine lowerAluInstr_of_agrees generic widens ?_ evaluates
    have count : masksCount op → numbers op (lowerSrc op w src) 1 =
        maskCount b (numbers op (fun i => (src i).scalar) 1) := by
      intro masks
      have uint : (op.inputType 1).base = .uint := by
        cases op <;> first | rfl | cases masks
      have number := number_lowerSrc_count sized (w := w) masks
      rw [← uint] at number
      exact number
    cases low : lowBitsOp op with
    | true =>
      apply agrees_lowBits low widens
      · intro i unsized
        apply ofInt_number_lowerSrc sized widens unsized
        rintro ⟨rfl, masks⟩
        exact count_sized masks unsized
      · intro i size notCount
        have same : lowerSrc op w src i = (src i).scalar := by
          rw [lowerSrc, if_neg notCount, if_neg size]
        rw [numbers, numbers, same]
      · exact count
    | false =>
      have same (i : Nat) (notCount : ¬ (i = 1 ∧ masksCount op)) :
          numbers op (lowerSrc op w src) i = numbers op (fun i => (src i).scalar) i :=
        number_lowerSrc sized widens low notCount
      cases masks : masksCount op with
      | true =>
        have first := same 0 fun both => Nat.zero_ne_one both.1
        have second := count masks
        cases op with
        | ishr => exact agrees_ishr widens first second
        | ushr => exact agrees_ushr widens first second
        | bitnz => exact agrees_bitnz widens first second
        | bitz => exact agrees_bitz widens first second
        | ishl => exact absurd low (by decide)
        | _ => cases masks
      | false =>
        have all : numbers op (lowerSrc op w src) = numbers op fun i => (src i).scalar := by
          funext i
          apply same
          rw [masks]
          simp
        rw [all]
        apply agrees_sized widens kept generic low masks
        · intro i int
          have size := sized i
          rw [int] at size
          rw [numbers, int]
          exact Signed.number widens.pos size
        · intro i uint
          have size := sized i
          rw [uint] at size
          rw [numbers, uint]
          exact Unsigned.number size
        · intro i uint
          rw [numbers, uint]
          exact Int.natCast_nonneg _

end Alu

end LowerBitSize

end SpirvToDxil.Nir
