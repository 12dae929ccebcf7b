import SpirvToDxil.Nir.IntegerOps
import SpirvToDxil.Util.BitScan
import SpirvToDxil.Util.LongMultiplication

/-!
# 64-bit integer instructions

The integer instructions that have a 64-bit source or result, with the constant expressions of
the opcode table.
-/

namespace SpirvToDxil.Nir

namespace Word

variable {w : Nat}

def ishl (src0 : BitVec w) (src1 : BitVec 32) : BitVec w := src0 <<< shiftCount w src1

def ishr (src0 : BitVec w) (src1 : BitVec 32) : BitVec w := src0.sshiftRight (shiftCount w src1)

def ushr (src0 : BitVec w) (src1 : BitVec 32) : BitVec w := src0 >>> shiftCount w src1

def ineg (src0 : BitVec w) : BitVec w := -src0

def iabs (src0 : BitVec w) : BitVec w := if src0.slt 0#w then -src0 else src0

def isign (src0 : BitVec w) : BitVec w :=
  if src0 = 0#w then 0#w else if BitVec.slt 0#w src0 then 1#w else -1#w

def imin (src0 src1 : BitVec w) : BitVec w := if src0.slt src1 then src0 else src1

def imax (src0 src1 : BitVec w) : BitVec w := if src1.slt src0 then src0 else src1

def umin (src0 src1 : BitVec w) : BitVec w := if src0.ult src1 then src0 else src1

def umax (src0 src1 : BitVec w) : BitVec w := if src1.ult src0 then src0 else src1

def compare (comparison : Comparison) (src0 src1 : BitVec w) : Bool :=
  match comparison with
  | .ilt => src0.slt src1
  | .ige => src1.sle src0
  | .ieq => src0 == src1
  | .ine => src0 != src1
  | .ult => src0.ult src1
  | .uge => src1.ule src0

def udiv (src0 src1 : BitVec w) : BitVec w := if src1 = 0#w then 0#w else src0 / src1

def umod (src0 src1 : BitVec w) : BitVec w := if src1 = 0#w then 0#w else src0 % src1

def idiv (src0 src1 : BitVec w) : BitVec w :=
  if src1 = 0#w ∨ (src0 = BitVec.intMin w ∧ src1 = -1#w) then 0#w else src0.sdiv src1

def irem (src0 src1 : BitVec w) : BitVec w :=
  if src1 = 0#w ∨ (src0 = BitVec.intMin w ∧ src1 = -1#w) then 0#w else src0.srem src1

def imod (src0 src1 : BitVec w) : BitVec w :=
  if src1 = 0#w ∨ (src0 = BitVec.intMin w ∧ src1 = -1#w) then 0#w
  else if src0.srem src1 = 0#w ∨ (0 ≤ src0.toInt ↔ 0 ≤ src1.toInt) then src0.srem src1
  else src0.srem src1 + src1

def bitfieldSelect (src0 src1 src2 : BitVec w) : BitVec w := (src0 &&& src1) ||| (~~~src0 &&& src2)

def bitfieldReverse (src0 : BitVec w) : BitVec w :=
  (List.range w).foldl
    (fun dst bit => dst ||| (src0 >>> bit &&& 1#w) <<< ((w - 1) - bit)) (0#w)

def bitCount (src0 : BitVec w) : BitVec 32 :=
  (List.range w).foldl (fun dst bit => if src0.getLsbD bit then dst + 1 else dst) 0#32

def ufindMsb (src0 : BitVec w) : BitVec 32 := BitVector.lastBit w src0.getLsbD

def findLsb (src0 : BitVec w) : BitVec 32 := BitVector.firstBit w src0.getLsbD

/-- Whether `extract_insert_op` is poison. -/
def outside (width : Nat) (src1 : BitVec w) : Bool := w ≤ (src1 * BitVec.ofNat w width).toNat

/-- `extract_insert_op` for an unsigned piece -/
def extractUnsigned (width : Nat) (src0 src1 : BitVec w) : BitVec w :=
  if outside width src1 then 0#w
  else ((src0 >>> (src1 * BitVec.ofNat w width).toNat).setWidth width).setWidth w

/-- `extract_insert_op` for a signed piece -/
def extractSigned (width : Nat) (src0 src1 : BitVec w) : BitVec w :=
  if outside width src1 then 0#w
  else ((src0.sshiftRight (src1 * BitVec.ofNat w width).toNat).setWidth width).signExtend w

/-- `imul_high` for words of at most 32 bits -/
def imulHigh (src0 src1 : BitVec w) : BitVec w :=
  ((src0.signExtend 64 * src1.signExtend 64) >>> w).setWidth w

/-- `umul_high` for words of at most 32 bits -/
def umulHigh (src0 src1 : BitVec w) : BitVec w :=
  ((src0.setWidth 64 * src1.setWidth 64) >>> w).setWidth w

end Word

section HighProducts

/-- The body of the inner loop of `_ubm_mul_u32arr` -/
def ubmMulStep (a b dst carry : BitVec 32) : BitVec 32 × BitVec 32 :=
  let tmp := a.setWidth 64 * b.setWidth 64
  let tmp := tmp + carry.setWidth 64
  let tmp := tmp + dst.setWidth 64
  (tmp.setWidth 32, (tmp >>> 32).setWidth 32)

def ubmMulU32arr (dstLen : Nat) (a b : List (BitVec 32)) : List (BitVec 32) :=
  LongMultiplication.product ubmMulStep id 0#32 a b (List.replicate dstLen 0#32)

def prodHigh (prodU32 : List (BitVec 32)) : BitVec 64 :=
  (prodU32.getD 2 0#32).setWidth 64 ||| (prodU32.getD 3 0#32).setWidth 64 <<< 32

def imulHigh64 (src0 src1 : BitVec 64) : BitVec 64 :=
  let srcU32 := fun (src : BitVec 64) => [src.setWidth 32, (src.sshiftRight 32).setWidth 32,
    (src.sshiftRight 63).setWidth 32, (src.sshiftRight 63).setWidth 32]
  prodHigh (ubmMulU32arr 4 (srcU32 src0) (srcU32 src1))

def umulHigh64 (src0 src1 : BitVec 64) : BitVec 64 :=
  let srcU32 := fun (src : BitVec 64) => [src.setWidth 32, (src >>> 32).setWidth 32]
  prodHigh (ubmMulU32arr 4 (srcU32 src0) (srcU32 src1))

end HighProducts

section BitFields

/-- `ubitfield_extract` with a 64-bit source, of which the constant expression reads 32 bits. No
value where it is poison, and none where a shift count is too large for its operand. -/
def ubitfieldExtract64 (src0 : BitVec 64) (src1 src2 : BitVec 32) : Option (BitVec 64) :=
  let base := src0.setWidth 32
  let offset := src1.toInt
  let bits := src2.toInt
  if bits = 0 then some 0#64
  else if bits < 0 ∨ offset < 0 ∨ offset + bits > 64 then none
  else if offset ≥ 32 ∨ bits ≥ 64 then none
  else some ((base >>> offset.toNat).setWidth 64 &&& ((1#64 <<< bits.toNat) - 1#64))

/-- `ibitfield_extract` with a 64-bit source -/
def ibitfieldExtract64 (src0 : BitVec 64) (src1 src2 : BitVec 32) : Option (BitVec 64) :=
  let base := src0.setWidth 32
  let offset := src1.toInt
  let bits := src2.toInt
  if bits = 0 then some 0#64
  else if offset < 0 ∨ bits < 0 ∨ offset + bits > 64 then none
  else if 32 - offset - bits < 0 then none
  else some (((base <<< (32 - offset - bits).toNat).sshiftRight (32 - bits).toNat).signExtend 64)

/-- The field of a word, of which the constant expressions see the lower half only. -/
def bitField (isSigned : Bool) (src0 : BitVec 64) (offset bits : Nat) : BitVec 64 :=
  let field := src0.extractLsb' offset bits
  if isSigned then field.signExtend 64 else field.setWidth 64

end BitFields

/-- An instruction on vectors with its operands. The chunk of an extraction is a constant. -/
inductive Int64Alu (components : Nat) where
  | imul (src0 src1 : Fin components → BitVec 64)
  | amul (src0 src1 : Fin components → BitVec 64)
  | imul2x32_64 (src0 src1 : Fin components → BitVec 32)
  | umul2x32_64 (src0 src1 : Fin components → BitVec 32)
  | imulHigh (src0 src1 : Fin components → BitVec 64)
  | umulHigh (src0 src1 : Fin components → BitVec 64)
  | isign (src0 : Fin components → BitVec 64)
  | udiv (src0 src1 : Fin components → BitVec 64)
  | idiv (src0 src1 : Fin components → BitVec 64)
  | umod (src0 src1 : Fin components → BitVec 64)
  | imod (src0 src1 : Fin components → BitVec 64)
  | irem (src0 src1 : Fin components → BitVec 64)
  | b2i64 (src0 : Fin components → Bool)
  | i2i8 (src0 : Fin components → BitVec 64)
  | i2i16 (src0 : Fin components → BitVec 64)
  | i2i32 (src0 : Fin components → BitVec 64)
  | i2i64 {bitSize : Nat} (src0 : Fin components → BitVec bitSize)
  | u2u8 (src0 : Fin components → BitVec 64)
  | u2u16 (src0 : Fin components → BitVec 64)
  | u2u32 (src0 : Fin components → BitVec 64)
  | u2u64 {bitSize : Nat} (src0 : Fin components → BitVec bitSize)
  | bcsel (src0 : Fin components → Bool) (src1 src2 : Fin components → BitVec 64)
  | compare (comparison : Comparison) (src0 src1 : Fin components → BitVec 64)
  | iadd (src0 src1 : Fin components → BitVec 64)
  | isub (src0 src1 : Fin components → BitVec 64)
  | imin (src0 src1 : Fin components → BitVec 64)
  | imax (src0 src1 : Fin components → BitVec 64)
  | umin (src0 src1 : Fin components → BitVec 64)
  | umax (src0 src1 : Fin components → BitVec 64)
  | iabs (src0 : Fin components → BitVec 64)
  | ineg (src0 : Fin components → BitVec 64)
  | iand (src0 src1 : Fin components → BitVec 64)
  | ior (src0 src1 : Fin components → BitVec 64)
  | ixor (src0 src1 : Fin components → BitVec 64)
  | inot (src0 : Fin components → BitVec 64)
  | bitfieldSelect (src0 src1 src2 : Fin components → BitVec 64)
  | ishl (src0 : Fin components → BitVec 64) (src1 : Fin components → BitVec 32)
  | ishr (src0 : Fin components → BitVec 64) (src1 : Fin components → BitVec 32)
  | ushr (src0 : Fin components → BitVec 64) (src1 : Fin components → BitVec 32)
  | extractU8 (src0 : Fin components → BitVec 64) (chunk : BitVec 64)
  | extractI8 (src0 : Fin components → BitVec 64) (chunk : BitVec 64)
  | extractU16 (src0 : Fin components → BitVec 64) (chunk : BitVec 64)
  | extractI16 (src0 : Fin components → BitVec 64) (chunk : BitVec 64)
  | ufindMsb (src0 : Fin components → BitVec 64)
  | findLsb (src0 : Fin components → BitVec 64)
  | bitCount (src0 : Fin components → BitVec 64)
  | bitfieldReverse (src0 : Fin components → BitVec 64)
  | ubitfieldExtract (src0 : Fin components → BitVec 64) (src1 src2 : Fin components → BitVec 32)
  | ibitfieldExtract (src0 : Fin components → BitVec 64) (src1 src2 : Fin components → BitVec 32)

namespace Int64Alu

variable {components : Nat}

abbrev Result : Int64Alu components → Type
  | .compare _ _ _ => Bool
  | .i2i8 _ | .u2u8 _ => BitVec 8
  | .i2i16 _ | .u2u16 _ => BitVec 16
  | .i2i32 _ | .u2u32 _ | .ufindMsb _ | .findLsb _ | .bitCount _ => BitVec 32
  | _ => BitVec 64

/-- One component of the constant expression; no value where it is poison or undefined in C. -/
def constExpr (alu : Int64Alu components) (c : Fin components) : Option alu.Result :=
  match alu with
  | .imul src0 src1 | .amul src0 src1 => some (src0 c * src1 c)
  | .imul2x32_64 src0 src1 => some ((src0 c).signExtend 64 * (src1 c).signExtend 64)
  | .umul2x32_64 src0 src1 => some ((src0 c).setWidth 64 * (src1 c).setWidth 64)
  | .imulHigh src0 src1 => some (imulHigh64 (src0 c) (src1 c))
  | .umulHigh src0 src1 => some (umulHigh64 (src0 c) (src1 c))
  | .isign src0 => some (Word.isign (src0 c))
  | .udiv src0 src1 => some (Word.udiv (src0 c) (src1 c))
  | .idiv src0 src1 => some (Word.idiv (src0 c) (src1 c))
  | .umod src0 src1 => some (Word.umod (src0 c) (src1 c))
  | .imod src0 src1 => some (Word.imod (src0 c) (src1 c))
  | .irem src0 src1 => some (Word.irem (src0 c) (src1 c))
  | .b2i64 src0 => some (if src0 c then 1#64 else 0#64)
  | .i2i8 src0 => some ((src0 c).signExtend 8)
  | .i2i16 src0 => some ((src0 c).signExtend 16)
  | .i2i32 src0 => some ((src0 c).signExtend 32)
  | .i2i64 src0 => some ((src0 c).signExtend 64)
  | .u2u8 src0 => some ((src0 c).setWidth 8)
  | .u2u16 src0 => some ((src0 c).setWidth 16)
  | .u2u32 src0 => some ((src0 c).setWidth 32)
  | .u2u64 src0 => some ((src0 c).setWidth 64)
  | .bcsel src0 src1 src2 => some (if src0 c then src1 c else src2 c)
  | .compare comparison src0 src1 => some (Word.compare comparison (src0 c) (src1 c))
  | .iadd src0 src1 => some (src0 c + src1 c)
  | .isub src0 src1 => some (src0 c - src1 c)
  | .imin src0 src1 => some (Word.imin (src0 c) (src1 c))
  | .imax src0 src1 => some (Word.imax (src0 c) (src1 c))
  | .umin src0 src1 => some (Word.umin (src0 c) (src1 c))
  | .umax src0 src1 => some (Word.umax (src0 c) (src1 c))
  | .iabs src0 => some (Word.iabs (src0 c))
  | .ineg src0 => some (Word.ineg (src0 c))
  | .iand src0 src1 => some (src0 c &&& src1 c)
  | .ior src0 src1 => some (src0 c ||| src1 c)
  | .ixor src0 src1 => some (src0 c ^^^ src1 c)
  | .inot src0 => some (~~~src0 c)
  | .bitfieldSelect src0 src1 src2 => some (Word.bitfieldSelect (src0 c) (src1 c) (src2 c))
  | .ishl src0 src1 => some (Word.ishl (src0 c) (src1 c))
  | .ishr src0 src1 => some (Word.ishr (src0 c) (src1 c))
  | .ushr src0 src1 => some (Word.ushr (src0 c) (src1 c))
  | .extractU8 src0 chunk =>
    if Word.outside 8 chunk then none else some (Word.extractUnsigned 8 (src0 c) chunk)
  | .extractI8 src0 chunk =>
    if Word.outside 8 chunk then none else some (Word.extractSigned 8 (src0 c) chunk)
  | .extractU16 src0 chunk =>
    if Word.outside 16 chunk then none else some (Word.extractUnsigned 16 (src0 c) chunk)
  | .extractI16 src0 chunk =>
    if Word.outside 16 chunk then none else some (Word.extractSigned 16 (src0 c) chunk)
  | .ufindMsb src0 => some (Word.ufindMsb (src0 c))
  | .findLsb src0 => some (Word.findLsb (src0 c))
  | .bitCount src0 => some (Word.bitCount (src0 c))
  | .bitfieldReverse src0 => some (Word.bitfieldReverse (src0 c))
  | .ubitfieldExtract src0 src1 src2 => ubitfieldExtract64 (src0 c) (src1 c) (src2 c)
  | .ibitfieldExtract src0 src1 src2 => ibitfieldExtract64 (src0 c) (src1 c) (src2 c)

end Int64Alu

end SpirvToDxil.Nir
