import SpirvToDxil.Nir.Alu
import Mathlib.Data.Int.Bitwise

/-!
# Opcodes on integers of any size

The integer and boolean opcodes that are neither conversions nor vectors, and have a source of less
than 32 bits. (`ufind_msb` and `ufind_msb_rev` only take wider ones.) The constant expressions are
over the numbers that the operands stand for, and what they give is cut to the size of the result.
-/

namespace SpirvToDxil.Nir

inductive Comparison where
  | ilt | ige | ieq | ine | ult | uge
  deriving DecidableEq, Repr

def Comparison.type : Comparison → BaseType
  | .ilt | .ige | .ieq | .ine => .int
  | .ult | .uge => .uint

/-- `binop_compare_all_sizes` -/
inductive CompareDest where
  | bool1 | bool32 | pan
  deriving DecidableEq, Repr

inductive BitOp where
  | and | or | xor
  deriving DecidableEq, Repr

inductive IntegerOp where
  | ineg | inot | isign | iabs
  | bitfieldReverse | bitCount | findLsb | udivAligned4
  | iadd | iaddSat | uaddSat | isub | isubSat | usubSat | uabsIsub | uabsUsub
  | imul | amul | imulHigh | umulHigh
  | idiv | udiv | uaddCarry | usubBorrow
  | ihadd | uhadd | irhadd | urhadd
  | umod | irem | imod
  | compare (comparison : Comparison) (dest : CompareDest)
  | bitnz | bitz
  | ballIequal (components : Nat) | banyInequal (components : Nat)
  | b32allIequal (components : Nat) | b32anyInequal (components : Nat)
  | ishl | ishr | ushr | urol | uror
  | iand | ior | ixor
  | imin | umin | imax | umax
  | extractU8 | extractI8 | extractU16 | extractI16 | insertU8 | insertU16
  | iadd3 | imad
  | bcsel | b32csel | bcselPan | icselEqz | bitfieldSelect
  | ubitfieldExtract | ibitfieldExtract | bitfieldInsert | bitfieldInsertEtna
  | shrmIr3 | shlmIr3 | shrgIr3 | shlgIr3 | andgIr3
  | arshiftPan (bitOp : BitOp) | lshiftPan (bitOp : BitOp) | rshiftPan (bitOp : BitOp)
  | lrotPan (bitOp : BitOp) | rrotPan (bitOp : BitOp)
  | imadshlAgx | imsubshlAgx | boundsAgx | interleave | leaNv
  | pack32_4x8 | pack32_4x8Split | pack32_2x16 | pack32_2x16Split | pack64_4x16
  deriving DecidableEq, Repr

namespace IntegerOp

/-- The type of one source. Components of vectors are counted as sources. -/
def inputType (op : IntegerOp) (i : Nat) : AluType :=
  match op, i with
  | .ineg, _ | .inot, _ | .isign, _ | .iabs, _ | .findLsb, _ => ⟨.int, 0⟩
  | .iadd, _ | .iaddSat, _ | .isub, _ | .isubSat, _ | .uabsIsub, _ => ⟨.int, 0⟩
  | .imul, _ | .amul, _ | .imulHigh, _ | .idiv, _ | .ihadd, _ | .irhadd, _ => ⟨.int, 0⟩
  | .irem, _ | .imod, _ | .imin, _ | .imax, _ | .iadd3, _ | .imad, _ => ⟨.int, 0⟩
  | .ballIequal _, _ | .banyInequal _, _ | .b32allIequal _, _ | .b32anyInequal _, _ => ⟨.int, 0⟩
  | .extractI8, _ | .extractI16, _ | .icselEqz, _ => ⟨.int, 0⟩
  | .imadshlAgx, _ | .imsubshlAgx, _ | .boundsAgx, _ => ⟨.int, 0⟩
  | .compare comparison _, _ => ⟨comparison.type, 0⟩
  | .ishl, 0 | .ishr, 0 => ⟨.int, 0⟩
  | .bitnz, 1 | .bitz, 1 | .ishl, _ | .ishr, _ | .ushr, 1 | .urol, 1 | .uror, 1 => ⟨.uint, 32⟩
  | .bcsel, 0 => ⟨.bool, 1⟩
  | .b32csel, 0 => ⟨.bool, 32⟩
  | .ibitfieldExtract, 0 => ⟨.int, 0⟩
  | .ubitfieldExtract, 1 | .ubitfieldExtract, 2 | .ibitfieldExtract, _ => ⟨.int, 32⟩
  | .bitfieldInsert, 2 | .bitfieldInsert, 3 => ⟨.int, 32⟩
  | .bitfieldInsertEtna, 2 | .bitfieldInsertEtna, 3 => ⟨.int, 32⟩
  | .shrmIr3, 1 | .shlmIr3, 1 | .shrgIr3, 1 | .shlgIr3, 1 | .leaNv, 2 => ⟨.uint, 32⟩
  | .arshiftPan _, 0 => ⟨.int, 0⟩
  | .arshiftPan _, 1 | .lshiftPan _, 1 | .rshiftPan _, 1 | .lrotPan _, 1 | .rrotPan _, 1 =>
    ⟨.uint, 8⟩
  | .pack32_4x8, _ | .pack32_4x8Split, _ => ⟨.uint, 8⟩
  | .pack32_2x16, _ | .pack32_2x16Split, _ | .pack64_4x16, _ => ⟨.uint, 16⟩
  | _, _ => ⟨.uint, 0⟩

def outputType : IntegerOp → AluType
  | .bitCount | .interleave => ⟨.uint, 32⟩
  | .pack32_4x8 | .pack32_4x8Split | .pack32_2x16 | .pack32_2x16Split => ⟨.uint, 32⟩
  | .pack64_4x16 => ⟨.uint, 64⟩
  | .findLsb => ⟨.int, 32⟩
  | .compare _ .bool1 | .bitnz | .bitz | .ballIequal _ | .banyInequal _ => ⟨.bool, 1⟩
  | .compare _ .bool32 | .b32allIequal _ | .b32anyInequal _ => ⟨.bool, 32⟩
  | .ineg | .inot | .isign | .iabs | .iadd | .iaddSat | .isub | .isubSat | .imul | .amul
  | .imulHigh | .idiv | .ihadd | .irhadd | .irem | .imod | .ishl | .ishr | .imin | .imax
  | .extractI8 | .extractI16 | .iadd3 | .imad | .icselEqz | .ibitfieldExtract | .arshiftPan _
  | .imadshlAgx | .imsubshlAgx | .boundsAgx => ⟨.int, 0⟩
  | _ => ⟨.uint, 0⟩

end IntegerOp

section Expressions

def intNMin (bitSize : Nat) : Int := -2 ^ (bitSize - 1)

def intNMax (bitSize : Nat) : Int := 2 ^ (bitSize - 1) - 1

def uintNMax (bitSize : Nat) : Int := 2 ^ bitSize - 1

/-- The low bits of a shift count. From 8 bits on, `sizeof` is the size. -/
def maskCount (bitSize : Nat) (count : Int) : Nat :=
  (BitVec.ofInt 32 count &&& BitVec.ofNat 32 (bitSize - 1)).toNat

def Comparison.holds (comparison : Comparison) (src0 src1 : Int) : Prop :=
  match comparison with
  | .ilt | .ult => src0 < src1
  | .ige | .uge => src0 ≥ src1
  | .ieq => src0 = src1
  | .ine => src0 ≠ src1

instance (comparison : Comparison) (src0 src1 : Int) :
    Decidable (comparison.holds src0 src1) := by
  cases comparison <;> unfold Comparison.holds <;> infer_instance

def BitOp.apply : BitOp → Int → Int → Int
  | .and => Int.land
  | .or => Int.lor
  | .xor => Int.xor

def extractInsert (bitSize width : Nat) (src1 : Int) (value : Nat → Int) : Option Int :=
  if src1 < 0 ∨ bitSize ≤ src1 * width then none else some (value (src1 * width).toNat)

/-- `binop_reduce` over the components of two vectors -/
def allEqual (components : Nat) (src : Nat → Int) : Bool :=
  (List.range components).all fun i => src i = src (components + i)

def shiftPan (bitSize : Nat) (bitOp : BitOp) (src1 src2 : Int) (shifted : Nat → Int) : Int :=
  bitOp.apply (shifted (maskCount bitSize src1)) src2

/-- The mask of `bitfield_insert`, which is `unsigned`. -/
def insertMask (offset bits : Nat) : Int := ((2 ^ bits - 1) * 2 ^ offset) % 2 ^ 32

def insertBits (base insert : Int) (offset bits : Nat) : Int :=
  let mask := insertMask offset bits
  Int.lor (Int.land base (Int.lnot mask)) (Int.land (insert * 2 ^ offset) mask)

end Expressions

/-- One opcode's constant expression; no value where it is poison or undefined in C. -/
def IntegerOp.constExpr (op : IntegerOp) (bitSize : Nat) (src : Nat → Int) : Option Int :=
  let src0 := src 0
  let src1 := src 1
  let src2 := src 2
  let count := maskCount bitSize src1
  let opposite := maskCount bitSize (-src1)
  match op with
  | .ineg => some (if src0 = intNMin bitSize then src0 else -src0)
  | .inot => some (Int.lnot src0)
  | .isign => some (if src0 = 0 then 0 else if 0 < src0 then 1 else -1)
  | .iabs => some (if src0 < 0 then -src0 else src0)
  | .bitfieldReverse =>
    let word := BitVec.ofInt bitSize src0
    some ((List.range bitSize).foldl
      (fun dst bit => dst ||| (word >>> bit &&& 1#(bitSize)) <<< ((bitSize - 1) - bit))
      0#(bitSize)).toNat
  | .bitCount => some ((List.range bitSize).countP src0.testBit)
  | .findLsb => some (match (List.range bitSize).find? src0.testBit with
    | some bit => bit
    | none => -1)
  | .udivAligned4 => if src0 % 4 = 0 then some (src0 / 4) else none
  | .iadd => some (src0 + src1)
  | .iaddSat => some (if src0 + src1 < intNMin bitSize ∨ intNMax bitSize < src0 + src1 then
      if src1 < 0 then intNMin bitSize else intNMax bitSize
      else src0 + src1)
  | .uaddSat => some (if uintNMax bitSize < src0 + src1 then uintNMax bitSize else src0 + src1)
  | .isub => some (src0 - src1)
  | .isubSat => some (if src0 - src1 < intNMin bitSize ∨ intNMax bitSize < src0 - src1 then
      if src1 < 0 then intNMax bitSize else intNMin bitSize
      else src0 - src1)
  | .usubSat => some (if src0 < src1 then 0 else src0 - src1)
  | .uabsIsub | .uabsUsub => some (if src0 < src1 then src1 - src0 else src0 - src1)
  | .imul | .amul => some (src0 * src1)
  | .imulHigh | .umulHigh => some (src0 * src1 / 2 ^ bitSize)
  | .idiv => some (if src1 = 0 ∨ (src0 = intNMin bitSize ∧ src1 = -1) then 0 else src0.tdiv src1)
  | .udiv => some (if src1 = 0 then 0 else src0 / src1)
  | .uaddCarry => some (if uintNMax bitSize < src0 + src1 then 1 else 0)
  | .usubBorrow => some (if src0 < src1 then 1 else 0)
  | .ihadd | .uhadd => some (Int.land src0 src1 + Int.xor src0 src1 / 2)
  | .irhadd | .urhadd => some (Int.lor src0 src1 - Int.xor src0 src1 / 2)
  | .umod => some (if src1 = 0 then 0 else src0 % src1)
  | .irem => some (if src1 = 0 ∨ (src0 = intNMin bitSize ∧ src1 = -1) then 0 else src0.tmod src1)
  | .imod => some (if src1 = 0 ∨ (src0 = intNMin bitSize ∧ src1 = -1) then 0
      else if src0.tmod src1 = 0 ∨ (src0 ≥ 0 ↔ src1 ≥ 0) then src0.tmod src1
      else src0.tmod src1 + src1)
  | .compare comparison .pan => some (if comparison.holds src0 src1 then -1 else 0)
  | .compare comparison _ => some (if comparison.holds src0 src1 then 1 else 0)
  | .bitnz => some (src0.testBit count).toNat
  | .bitz => some (!src0.testBit count).toNat
  | .ballIequal components | .b32allIequal components => some (allEqual components src).toNat
  | .banyInequal components | .b32anyInequal components => some (!allEqual components src).toNat
  | .ishl => some (src0 * 2 ^ count)
  | .ishr | .ushr => some (src0 / 2 ^ count)
  | .urol => some (Int.lor (src0 * 2 ^ count) (src0 / 2 ^ opposite))
  | .uror => some (Int.lor (src0 / 2 ^ count) (src0 * 2 ^ opposite))
  | .iand => some (Int.land src0 src1)
  | .ior => some (Int.lor src0 src1)
  | .ixor => some (Int.xor src0 src1)
  | .imin | .umin => some (if src0 < src1 then src0 else src1)
  | .imax | .umax => some (if src0 > src1 then src0 else src1)
  | .extractU8 => extractInsert bitSize 8 src1 fun shift => src0 / 2 ^ shift % 2 ^ 8
  | .extractI8 => extractInsert bitSize 8 src1 fun shift => (src0 / 2 ^ shift).bmod (2 ^ 8)
  | .extractU16 => extractInsert bitSize 16 src1 fun shift => src0 / 2 ^ shift % 2 ^ 16
  | .extractI16 => extractInsert bitSize 16 src1 fun shift => (src0 / 2 ^ shift).bmod (2 ^ 16)
  | .insertU8 => extractInsert bitSize 8 src1 fun shift => src0 % 2 ^ 8 * 2 ^ shift
  | .insertU16 => extractInsert bitSize 16 src1 fun shift => src0 % 2 ^ 16 * 2 ^ shift
  | .iadd3 => some (src0 + src1 + src2)
  | .imad => some (src0 * src1 + src2)
  | .bcsel | .b32csel | .bcselPan => some (if src0 ≠ 0 then src1 else src2)
  | .icselEqz => some (if src0 = 0 then src1 else src2)
  | .bitfieldSelect => some (Int.lor (Int.land src0 src1) (Int.land (Int.lnot src0) src2))
  | .ubitfieldExtract =>
    if src2 = 0 then some 0
    else if src2 < 0 ∨ src1 < 0 ∨ src1 + src2 > bitSize then none
    else some (src0 / 2 ^ src1.toNat % 2 ^ src2.toNat)
  | .ibitfieldExtract =>
    if src2 = 0 then some 0
    else if src1 < 0 ∨ src2 < 0 ∨ src1 + src2 > bitSize then none
    else some ((src0 * 2 ^ (32 - src1 - src2).toNat).bmod (2 ^ 32) / 2 ^ (32 - src2).toNat)
  | .bitfieldInsert =>
    if src 3 = 0 then some src0
    else if src2 < 0 ∨ src 3 < 0 ∨ src 3 + src2 > 32 then none
    else some (insertBits src0 src1 src2.toNat (src 3).toNat)
  | .bitfieldInsertEtna =>
    if src2 < 0 ∨ src 3 < 0 ∨ src2 ≥ 32 ∨ src 3 ≥ 64 then none
    else some (insertBits src0 src1 src2.toNat (src 3).toNat)
  | .shrmIr3 => some (Int.land (src0 / 2 ^ count) src2)
  | .shlmIr3 => some (Int.land (src0 * 2 ^ count) src2)
  | .shrgIr3 => some (Int.lor (src0 / 2 ^ count) src2)
  | .shlgIr3 => some (Int.lor (src0 * 2 ^ count) src2)
  | .andgIr3 => some (Int.lor (Int.land src0 src1) src2)
  | .arshiftPan bitOp | .rshiftPan bitOp =>
    some (shiftPan bitSize bitOp src1 src2 fun shift => src0 / 2 ^ shift)
  | .lshiftPan bitOp => some (shiftPan bitSize bitOp src1 src2 fun shift => src0 * 2 ^ shift)
  | .lrotPan bitOp => some (shiftPan bitSize bitOp src1 src2 fun shift =>
      Int.lor (src0 * 2 ^ shift) (src0 / 2 ^ maskCount bitSize (-shift)))
  | .rrotPan bitOp => some (shiftPan bitSize bitOp src1 src2 fun shift =>
      Int.lor (src0 / 2 ^ shift) (src0 * 2 ^ maskCount bitSize (-shift)))
  | .imadshlAgx => if src 3 < 0 ∨ src 3 ≥ 32 then none
      else some (src0 * src1 + src2 * 2 ^ (src 3).toNat)
  | .imsubshlAgx => if src 3 < 0 ∨ src 3 ≥ 32 then none
      else some (src0 * src1 - src2 * 2 ^ (src 3).toNat)
  | .boundsAgx => some (if src1 ≤ src2 then src0 else 0)
  | .interleave => some ((List.range 16).foldl (fun (dst : Int) bit =>
      Int.lor (Int.lor dst (Int.land src0 (2 ^ bit) * 2 ^ bit))
        (Int.land src1 (2 ^ bit) * 2 ^ (bit + 1))) 0)
  | .leaNv => some (src0 + src1 * 2 ^ (src2 % bitSize).toNat)
  | .pack32_4x8 | .pack32_4x8Split =>
    some (src0 + src1 * 2 ^ 8 + src2 * 2 ^ 16 + src 3 * 2 ^ 24)
  | .pack32_2x16 | .pack32_2x16Split => some (src0 + src1 * 2 ^ 16)
  | .pack64_4x16 => some (src0 + src1 * 2 ^ 16 + src2 * 2 ^ 32 + src 3 * 2 ^ 48)

section Evaluation

/-- The number that an operand stands for. -/
def Scalar.number (scalar : Scalar) : BaseType → Int
  | .int => scalar.val.toInt
  | .bool => if scalar.val = 0 then 0 else 1
  | _ => scalar.val.toNat

def Scalar.ofNumber (type : BaseType) (bitSize : Nat) (dst : Int) : Scalar :=
  ⟨bitSize, BitVec.ofInt bitSize (if type = .bool then if dst ≠ 0 then -1 else 0 else dst)⟩

def IntegerOp.evaluate (op : IntegerOp) (bitSize : Nat) (src : Nat → Scalar) : Option Scalar :=
  (op.constExpr bitSize fun i => (src i).number (op.inputType i).base).map
    (Scalar.ofNumber op.outputType.base (op.outputType.bitSizeAt bitSize))

end Evaluation

end SpirvToDxil.Nir
