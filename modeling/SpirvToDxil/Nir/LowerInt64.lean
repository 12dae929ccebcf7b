import SpirvToDxil.Nir.Int64Ops

/-!
# Lowering 64-bit integer instructions

`nir_lower_int64` with all options, as for a target without 64-bit integers. Where a lowered
sequence has a 64-bit instruction, the pass comes back to it, and the sequence of that instruction
stands in its place.
-/

namespace SpirvToDxil.Nir.LowerInt64

section Halves

/-- `unpack_64_2x32_split_x` -/
def unpackSplitX (src0 : BitVec 64) : BitVec 32 := src0.setWidth 32

/-- `unpack_64_2x32_split_y` -/
def unpackSplitY (src0 : BitVec 64) : BitVec 32 := (src0 >>> 32).setWidth 32

/-- `pack_64_2x32_split` -/
def packSplit (src0 src1 : BitVec 32) : BitVec 64 := src0.setWidth 64 ||| src1.setWidth 64 <<< 32

def b2i32 (src0 : Bool) : BitVec 32 := if src0 then 1#32 else 0#32

def ishlImm {w : Nat} (x : BitVec w) (y : Nat) : BitVec w :=
  if y = 0 then x else Word.ishl x (BitVec.ofNat 32 y)

def ishrImm {w : Nat} (x : BitVec w) (y : Nat) : BitVec w :=
  if y = 0 then x else Word.ishr x (BitVec.ofNat 32 y)

end Halves

section Conversions

def lowerB2i64 (x : Bool) : BitVec 64 := packSplit (b2i32 x) 0#32

def lowerI2i8 (x : BitVec 64) : BitVec 8 := (unpackSplitX x).signExtend 8

def lowerI2i16 (x : BitVec 64) : BitVec 16 := (unpackSplitX x).signExtend 16

def lowerI2i32 (x : BitVec 64) : BitVec 32 := unpackSplitX x

/-- The conversion of a source of 32 bits to 32 bits, which the source leaves out, changes
nothing. -/
def lowerI2i64 {bitSize : Nat} (x : BitVec bitSize) : BitVec 64 :=
  let x32 := x.signExtend 32
  packSplit x32 (ishrImm x32 31)

def lowerU2u8 (x : BitVec 64) : BitVec 8 := (unpackSplitX x).setWidth 8

def lowerU2u16 (x : BitVec 64) : BitVec 16 := (unpackSplitX x).setWidth 16

def lowerU2u32 (x : BitVec 64) : BitVec 32 := unpackSplitX x

def lowerU2u64 {bitSize : Nat} (x : BitVec bitSize) : BitVec 64 :=
  let x32 := x.setWidth 32
  packSplit x32 0#32

end Conversions

section Logic

def lowerBcsel64 (cond : Bool) (x y : BitVec 64) : BitVec 64 :=
  packSplit (if cond then unpackSplitX x else unpackSplitX y)
    (if cond then unpackSplitY x else unpackSplitY y)

def lowerBitfieldSelect64 (cond x y : BitVec 64) : BitVec 64 :=
  packSplit (Word.bitfieldSelect (unpackSplitX cond) (unpackSplitX x) (unpackSplitX y))
    (Word.bitfieldSelect (unpackSplitY cond) (unpackSplitY x) (unpackSplitY y))

def lowerInot64 (x : BitVec 64) : BitVec 64 :=
  packSplit (~~~unpackSplitX x) (~~~unpackSplitY x)

def lowerIand64 (x y : BitVec 64) : BitVec 64 :=
  packSplit (unpackSplitX x &&& unpackSplitX y) (unpackSplitY x &&& unpackSplitY y)

def lowerIor64 (x y : BitVec 64) : BitVec 64 :=
  packSplit (unpackSplitX x ||| unpackSplitX y) (unpackSplitY x ||| unpackSplitY y)

def lowerIxor64 (x y : BitVec 64) : BitVec 64 :=
  packSplit (unpackSplitX x ^^^ unpackSplitX y) (unpackSplitY x ^^^ unpackSplitY y)

end Logic

section Shifts

def lowerIshl64 (x : BitVec 64) (y : BitVec 32) : BitVec 64 :=
  let xLo := unpackSplitX x
  let xHi := unpackSplitY x
  let y := y &&& 0x3f#32
  let reverseCount := Word.iabs (y + -32#32)
  let loShifted := Word.ishl xLo y
  let hiShifted := Word.ishl xHi y
  let loShiftedHi := Word.ushr xLo reverseCount
  let resIfLt32 := packSplit loShifted (hiShifted ||| loShiftedHi)
  let resIfGe32 := packSplit 0#32 (Word.ishl xLo reverseCount)
  lowerBcsel64 (Word.compare .ieq y 0#32) x
    (lowerBcsel64 (Word.compare .uge y 32#32) resIfGe32 resIfLt32)

def lowerIshr64 (x : BitVec 64) (y : BitVec 32) : BitVec 64 :=
  let xLo := unpackSplitX x
  let xHi := unpackSplitY x
  let y := y &&& 0x3f#32
  let reverseCount := Word.iabs (y + -32#32)
  let loShifted := Word.ushr xLo y
  let hiShifted := Word.ishr xHi y
  let hiShiftedLo := Word.ishl xHi reverseCount
  let resIfLt32 := packSplit (loShifted ||| hiShiftedLo) hiShifted
  let resIfGe32 := packSplit (Word.ishr xHi reverseCount) (ishrImm xHi 31)
  lowerBcsel64 (Word.compare .ieq y 0#32) x
    (lowerBcsel64 (Word.compare .uge y 32#32) resIfGe32 resIfLt32)

def lowerUshr64 (x : BitVec 64) (y : BitVec 32) : BitVec 64 :=
  let xLo := unpackSplitX x
  let xHi := unpackSplitY x
  let y := y &&& 0x3f#32
  let reverseCount := Word.iabs (y + -32#32)
  let loShifted := Word.ushr xLo y
  let hiShifted := Word.ushr xHi y
  let hiShiftedLo := Word.ishl xHi reverseCount
  let resIfLt32 := packSplit (loShifted ||| hiShiftedLo) hiShifted
  let resIfGe32 := packSplit (Word.ushr xHi reverseCount) 0#32
  lowerBcsel64 (Word.compare .ieq y 0#32) x
    (lowerBcsel64 (Word.compare .uge y 32#32) resIfGe32 resIfLt32)

end Shifts

section Sums

def lowerIadd64 (x y : BitVec 64) : BitVec 64 :=
  let xLo := unpackSplitX x
  let resLo := xLo + unpackSplitX y
  let carry := b2i32 (Word.compare .ult resLo xLo)
  packSplit resLo (carry + (unpackSplitY x + unpackSplitY y))

def lowerIsub64 (x y : BitVec 64) : BitVec 64 :=
  let xLo := unpackSplitX x
  let yLo := unpackSplitX y
  let borrow := Word.ineg (b2i32 (Word.compare .ult xLo yLo))
  packSplit (xLo - yLo) ((unpackSplitY x - unpackSplitY y) + borrow)

def lowerIneg64 (x : BitVec 64) : BitVec 64 := lowerIsub64 0#64 x

def lowerIabs64 (x : BitVec 64) : BitVec 64 :=
  lowerBcsel64 (Word.compare .ilt (unpackSplitY x) 0#32) (lowerIneg64 x) x

def lowerIsign64 (x : BitVec 64) : BitVec 64 :=
  let xLo := unpackSplitX x
  let xHi := unpackSplitY x
  let isNonZero := Word.compare .ine (xLo ||| xHi) 0#32
  let resHi := ishrImm xHi 31
  packSplit (resHi ||| b2i32 isNonZero) resHi

end Sums

section Comparisons

/-- `lower_int64_compare` of one of the two orders -/
def lowerLess (comparison : Comparison) (x y : BitVec 64) : Bool :=
  Word.compare comparison (unpackSplitY x) (unpackSplitY y) ||
    (Word.compare .ieq (unpackSplitY x) (unpackSplitY y) &&
      Word.compare .ult (unpackSplitX x) (unpackSplitX y))

def lowerInt64Compare (comparison : Comparison) (x y : BitVec 64) : Bool :=
  match comparison with
  | .ieq => Word.compare .ieq (unpackSplitY x) (unpackSplitY y) &&
      Word.compare .ieq (unpackSplitX x) (unpackSplitX y)
  | .ine => Word.compare .ine (unpackSplitY x) (unpackSplitY y) ||
      Word.compare .ine (unpackSplitX x) (unpackSplitX y)
  | .ult => lowerLess .ult x y
  | .ilt => lowerLess .ilt x y
  | .uge => !lowerLess .ult x y
  | .ige => !lowerLess .ilt x y

def lowerUmax64 (x y : BitVec 64) : BitVec 64 := lowerBcsel64 (lowerInt64Compare .ult x y) y x

def lowerImax64 (x y : BitVec 64) : BitVec 64 := lowerBcsel64 (lowerInt64Compare .ilt x y) y x

def lowerUmin64 (x y : BitVec 64) : BitVec 64 := lowerBcsel64 (lowerInt64Compare .ult x y) x y

def lowerImin64 (x y : BitVec 64) : BitVec 64 := lowerBcsel64 (lowerInt64Compare .ilt x y) x y

end Comparisons

section Products

def lowerMul2x32_64 (x y : BitVec 32) (signExtend : Bool) : BitVec 64 :=
  let resHi := if signExtend then Word.imulHigh x y else Word.umulHigh x y
  packSplit (x * y) resHi

def lowerImul64 (x y : BitVec 64) : BitVec 64 :=
  let xLo := unpackSplitX x
  let xHi := unpackSplitY x
  let yLo := unpackSplitX y
  let yHi := unpackSplitY y
  let mulLo := lowerMul2x32_64 xLo yLo false
  packSplit (unpackSplitX mulLo) (unpackSplitY mulLo + (xLo * yHi + xHi * yLo))

/-- The four words of a factor of `lower_mul_high64` -/
def factor32 (x : BitVec 64) (signExtend : Bool) : List (BitVec 32) :=
  let xHi := unpackSplitY x
  let sign := if signExtend then ishrImm xHi 31 else 0#32
  [unpackSplitX x, xHi, sign, sign]

def addIfSet (tmp : BitVec 64) : Option (BitVec 64) → BitVec 64
  | some summand => lowerIadd64 tmp summand
  | none => tmp

/-- The body of the inner loop of `lower_mul_high64`. The entries of `res` and the carry are null
before they are first written. -/
def mulHighStep (x32 y32 : BitVec 32) (res : Option (BitVec 32)) (carry : Option (BitVec 64)) :
    Option (BitVec 32) × Option (BitVec 64) :=
  let tmp := lowerMul2x32_64 x32 y32 false
  let tmp := addIfSet tmp (res.map lowerU2u64)
  let tmp := addIfSet tmp carry
  (some (lowerU2u32 tmp), some (lowerUshr64 tmp 32#32))

def mulHighRes (x y : BitVec 64) (signExtend : Bool) : List (Option (BitVec 32)) :=
  LongMultiplication.product mulHighStep (fun carry => carry.map lowerU2u32) none
    (factor32 x signExtend) (factor32 y signExtend) (List.replicate 8 none)

def lowerMulHigh64 (x y : BitVec 64) (signExtend : Bool) : BitVec 64 :=
  let res := mulHighRes x y signExtend
  packSplit ((res.getD 2 none).getD 0#32) ((res.getD 3 none).getD 0#32)

end Products

section Divisions

/-- One pass through the first loop of `lower_udiv64_mod64`, on `n_hi` and `q_hi` -/
def highDivStep (needHighDiv : Bool) (dLo log2DLo : BitVec 32) (state : BitVec 32 × BitVec 32)
    (i : Nat) : BitVec 32 × BitVec 32 :=
  let (nHi, qHi) := state
  let dShift := ishlImm dLo i
  let newNHi := nHi - dShift
  let newQHi := qHi ||| BitVec.ofNat 32 (2 ^ i)
  let cond := needHighDiv && Word.compare .uge nHi dShift
  let cond := if i ≠ 0 then cond && Word.compare .ige (BitVec.ofNat 32 (31 - i)) log2DLo else cond
  (if cond then newNHi else nHi, if cond then newQHi else qHi)

/-- `nir_ishl_imm` of a 64-bit source -/
def lowerIshlImm64 (x : BitVec 64) (y : Nat) : BitVec 64 :=
  if y = 0 then x else lowerIshl64 x (BitVec.ofNat 32 y)

/-- One pass through the second loop of `lower_udiv64_mod64`, on `n` and `q_lo` -/
def lowDivStep (d : BitVec 64) (log2Denom : BitVec 32) (state : BitVec 64 × BitVec 32) (i : Nat) :
    BitVec 64 × BitVec 32 :=
  let (n, qLo) := state
  let dShift := lowerIshlImm64 d i
  let newN := lowerIsub64 n dShift
  let newQLo := qLo ||| BitVec.ofNat 32 (2 ^ i)
  let cond := lowerInt64Compare .uge n dShift
  let cond := if i ≠ 0 then cond && Word.compare .ige (BitVec.ofNat 32 (31 - i)) log2Denom else cond
  (lowerBcsel64 cond newN n, if cond then newQLo else qLo)

def needHighDiv (n d : BitVec 64) : Bool :=
  Word.compare .ieq (unpackSplitY d) 0#32 &&
    Word.compare .uge (unpackSplitY n) (unpackSplitX d)

variable {components : Nat}

/-- The conditional of `lower_udiv64_mod64`, which leaves `n_hi` and `q_hi` to one component.
Inside it every component takes part, unless there is only one. -/
def highDiv (n d : Fin components → BitVec 64) (c : Fin components) : BitVec 32 × BitVec 32 :=
  let nHi := unpackSplitY (n c)
  let dLo := unpackSplitX (d c)
  if (List.finRange components).any fun c => needHighDiv (n c) (d c) then
    let needHighDiv := if components = 1 then true else needHighDiv (n c) (d c)
    (List.range 32).reverse.foldl (highDivStep needHighDiv dLo (Word.ufindMsb dLo)) (nHi, 0#32)
  else (nHi, 0#32)

/-- The second loop of `lower_udiv64_mod64` -/
def lowDiv (n d : BitVec 64) : BitVec 64 × BitVec 32 :=
  (List.range 32).reverse.foldl (lowDivStep d (Word.ufindMsb (unpackSplitY d))) (n, 0#32)

/-- One component of the quotient and the remainder -/
def lowerUdiv64Mod64 (n d : Fin components → BitVec 64) (c : Fin components) :
    BitVec 64 × BitVec 64 :=
  let high := highDiv n d c
  let dLo := unpackSplitX (d c)
  let dHi := unpackSplitY (d c)
  let low := lowDiv (packSplit (unpackSplitX (n c)) high.1) (packSplit dLo dHi)
  (packSplit low.2 high.2, low.1)

def lowerUdiv64 (n d : Fin components → BitVec 64) (c : Fin components) : BitVec 64 :=
  (lowerUdiv64Mod64 n d c).1

def lowerUmod64 (n d : Fin components → BitVec 64) (c : Fin components) : BitVec 64 :=
  (lowerUdiv64Mod64 n d c).2

def isNeg (x : BitVec 64) : Bool := Word.compare .ilt (unpackSplitY x) 0#32

/-- The division of the absolute values that the signed divisions share -/
def absUdiv64Mod64 (n d : Fin components → BitVec 64) (c : Fin components) :
    BitVec 64 × BitVec 64 :=
  lowerUdiv64Mod64 (fun c => lowerIabs64 (n c)) (fun c => lowerIabs64 (d c)) c

def lowerIdiv64 (n d : Fin components → BitVec 64) (c : Fin components) : BitVec 64 :=
  let negate := isNeg (n c) != isNeg (d c)
  let q := (absUdiv64Mod64 n d c).1
  lowerBcsel64 negate (lowerIneg64 q) q

def lowerImod64 (n d : Fin components → BitVec 64) (c : Fin components) : BitVec 64 :=
  let nIsNeg := isNeg (n c)
  let dIsNeg := isNeg (d c)
  let r := (absUdiv64Mod64 n d c).2
  let rem := lowerBcsel64 nIsNeg (lowerIneg64 r) r
  lowerBcsel64 (lowerInt64Compare .ieq r 0#64) 0#64
    (lowerBcsel64 (nIsNeg == dIsNeg) rem (lowerIadd64 rem (d c)))

def lowerIrem64 (n d : Fin components → BitVec 64) (c : Fin components) : BitVec 64 :=
  let r := (absUdiv64Mod64 n d c).2
  lowerBcsel64 (isNeg (n c)) (lowerIneg64 r) r

end Divisions

section Bits

def extractHalf (chunkBits : Nat) (x c : BitVec 64) : BitVec 32 × BitVec 32 :=
  let chunk := (c.setWidth 32).toInt
  let numChunksIn32 : Nat := 32 / chunkBits
  if chunk < numChunksIn32 then (unpackSplitX x, BitVec.ofInt 32 chunk)
  else (unpackSplitY x, BitVec.ofInt 32 (chunk - numChunksIn32))

/-- `lower_extract` of an unsigned chunk -/
def lowerExtractUnsigned (chunkBits : Nat) (x c : BitVec 64) : BitVec 64 :=
  let (half, chunk) := extractHalf chunkBits x c
  lowerU2u64 (Word.extractUnsigned chunkBits half chunk)

/-- `lower_extract` of a signed chunk -/
def lowerExtractSigned (chunkBits : Nat) (x c : BitVec 64) : BitVec 64 :=
  let (half, chunk) := extractHalf chunkBits x c
  lowerI2i64 (Word.extractSigned chunkBits half chunk)

def lowerUfindMsb64 (x : BitVec 64) : BitVec 32 :=
  Word.imax (Word.ufindMsb (unpackSplitX x)) (Word.ufindMsb (unpackSplitY x) ||| 32#32)

def lowerFindLsb64 (x : BitVec 64) : BitVec 32 :=
  Word.umin (Word.findLsb (unpackSplitX x)) (Word.findLsb (unpackSplitY x) ||| 32#32)

def lowerBitCount64 (x : BitVec 64) : BitVec 32 :=
  Word.bitCount (unpackSplitX x) + Word.bitCount (unpackSplitY x)

def lowerBitfieldReverse64 (x : BitVec 64) : BitVec 64 :=
  packSplit (Word.bitfieldReverse (unpackSplitY x)) (Word.bitfieldReverse (unpackSplitX x))

def lowerBitfieldExtract64 (base : BitVec 64) (offset bits : BitVec 32) (isSigned : Bool) :
    BitVec 64 :=
  let tmp0 := 64#32 - bits
  let tmp1 := tmp0 - offset
  let tmp2 := lowerIshl64 base tmp1
  let res := if isSigned then lowerIshr64 tmp2 tmp0 else lowerUshr64 tmp2 tmp0
  lowerBcsel64 (Word.compare .ieq bits 0#32) 0#64 res

end Bits

/-- One component of `lower_int64_alu_instr` -/
def lowerInt64AluInstr {components : Nat} (alu : Int64Alu components) (c : Fin components) :
    alu.Result :=
  match alu with
  | .imul src0 src1 | .amul src0 src1 => lowerImul64 (src0 c) (src1 c)
  | .imul2x32_64 src0 src1 => lowerMul2x32_64 (src0 c) (src1 c) true
  | .umul2x32_64 src0 src1 => lowerMul2x32_64 (src0 c) (src1 c) false
  | .imulHigh src0 src1 => lowerMulHigh64 (src0 c) (src1 c) true
  | .umulHigh src0 src1 => lowerMulHigh64 (src0 c) (src1 c) false
  | .isign src0 => lowerIsign64 (src0 c)
  | .udiv src0 src1 => lowerUdiv64 src0 src1 c
  | .idiv src0 src1 => lowerIdiv64 src0 src1 c
  | .umod src0 src1 => lowerUmod64 src0 src1 c
  | .imod src0 src1 => lowerImod64 src0 src1 c
  | .irem src0 src1 => lowerIrem64 src0 src1 c
  | .b2i64 src0 => lowerB2i64 (src0 c)
  | .i2i8 src0 => lowerI2i8 (src0 c)
  | .i2i16 src0 => lowerI2i16 (src0 c)
  | .i2i32 src0 => lowerI2i32 (src0 c)
  | .i2i64 src0 => lowerI2i64 (src0 c)
  | .u2u8 src0 => lowerU2u8 (src0 c)
  | .u2u16 src0 => lowerU2u16 (src0 c)
  | .u2u32 src0 => lowerU2u32 (src0 c)
  | .u2u64 src0 => lowerU2u64 (src0 c)
  | .bcsel src0 src1 src2 => lowerBcsel64 (src0 c) (src1 c) (src2 c)
  | .compare comparison src0 src1 => lowerInt64Compare comparison (src0 c) (src1 c)
  | .iadd src0 src1 => lowerIadd64 (src0 c) (src1 c)
  | .isub src0 src1 => lowerIsub64 (src0 c) (src1 c)
  | .imin src0 src1 => lowerImin64 (src0 c) (src1 c)
  | .imax src0 src1 => lowerImax64 (src0 c) (src1 c)
  | .umin src0 src1 => lowerUmin64 (src0 c) (src1 c)
  | .umax src0 src1 => lowerUmax64 (src0 c) (src1 c)
  | .iabs src0 => lowerIabs64 (src0 c)
  | .ineg src0 => lowerIneg64 (src0 c)
  | .iand src0 src1 => lowerIand64 (src0 c) (src1 c)
  | .ior src0 src1 => lowerIor64 (src0 c) (src1 c)
  | .ixor src0 src1 => lowerIxor64 (src0 c) (src1 c)
  | .inot src0 => lowerInot64 (src0 c)
  | .bitfieldSelect src0 src1 src2 => lowerBitfieldSelect64 (src0 c) (src1 c) (src2 c)
  | .ishl src0 src1 => lowerIshl64 (src0 c) (src1 c)
  | .ishr src0 src1 => lowerIshr64 (src0 c) (src1 c)
  | .ushr src0 src1 => lowerUshr64 (src0 c) (src1 c)
  | .extractU8 src0 chunk => lowerExtractUnsigned 8 (src0 c) chunk
  | .extractI8 src0 chunk => lowerExtractSigned 8 (src0 c) chunk
  | .extractU16 src0 chunk => lowerExtractUnsigned 16 (src0 c) chunk
  | .extractI16 src0 chunk => lowerExtractSigned 16 (src0 c) chunk
  | .ufindMsb src0 => lowerUfindMsb64 (src0 c)
  | .findLsb src0 => lowerFindLsb64 (src0 c)
  | .bitCount src0 => lowerBitCount64 (src0 c)
  | .bitfieldReverse src0 => lowerBitfieldReverse64 (src0 c)
  | .ubitfieldExtract src0 src1 src2 => lowerBitfieldExtract64 (src0 c) (src1 c) (src2 c) false
  | .ibitfieldExtract src0 src1 src2 => lowerBitfieldExtract64 (src0 c) (src1 c) (src2 c) true

end SpirvToDxil.Nir.LowerInt64
