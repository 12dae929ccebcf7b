import SpirvToDxil.Nir.IntegerOps
import SpirvToDxil.Nir.SubgroupScan
import SpirvToDxil.Util.Narrowing

/-!
# Lowering small integers

Operations on integers of 8 and 16 bits are done at a wider size: the sources are extended as the
opcode reads them, and the result is cut. Opcodes that are not done so have sequences of their own.
-/

namespace SpirvToDxil.Nir

namespace LowerBitSize

/-- An operand, with the conversion that defines it. -/
inductive Def where
  | value (value : Scalar)
  /-- `i2i` and `u2u` -/
  | convert (type : BaseType) (bitSize : Nat) (src : Scalar)
  /-- `b2i8` and `b2i16` -/
  | b2i (bitSize : Nat) (src : Bool)

def convertBits {n : Nat} (type : BaseType) (bitSize : Nat) (src : BitVec n) : BitVec bitSize :=
  match type with
  | .int => src.signExtend bitSize
  | .bool => if src = 0 then 0 else -1
  | _ => src.setWidth bitSize

/-- `nir_convert_to_bit_size` -/
def convertScalar (type : BaseType) (bitSize : Nat) (src : Scalar) : Scalar :=
  ⟨bitSize, convertBits type bitSize src.val⟩

def Def.scalar : Def → Scalar
  | .value src => src
  | .convert type bitSize src => convertScalar type bitSize src
  | .b2i bitSize src => ⟨bitSize, BitVec.ofNat bitSize src.toNat⟩

/-- `lower_bit_size_callback`, for the sizes of the sources. -/
def lowerBitSizeCallback (lowerInt16 : Bool) (bitSizes : List Nat) : Nat :=
  let minBitSize := if lowerInt16 then 32 else 16
  if bitSizes.any fun bitSize => bitSize ≠ 1 ∧ bitSize < minBitSize then minBitSize else 0

def convertToBitSize (src : Def) (type : BaseType) (bitSize : Nat) : Scalar :=
  match src with
  | .b2i _ value =>
    if (type = .uint ∨ type = .int) ∧ bitSize = 32 then ⟨32, BitVec.ofNat 32 value.toNat⟩
    else convertScalar type bitSize src.scalar
  | _ => convertScalar type bitSize src.scalar

/-- The opcodes of which the low bits do not depend on high bits of the sources. -/
def lowBitsOp : IntegerOp → Bool
  | .iadd | .iadd3 | .iand | .imad | .imul | .ior | .ishl | .isub | .ixor | .inot | .bcsel
  | .bitfieldSelect => true
  | _ => false

def beforeConversion (type : BaseType) (bitSize : Nat) (src : Def) (op : IntegerOp) :
    Option Scalar :=
  match src with
  | .convert type' _ before =>
    if lowBitsOp op ∧ type' = type ∧ before.bitSize = bitSize then some before else none
  | _ => none

/-- The opcodes that take the size of their first source for the range of the count. -/
def masksCount : IntegerOp → Bool
  | .ishl | .ishr | .ushr | .bitz | .bitnz => true
  | _ => false

/-- The loop over the sources in `lower_alu_instr` -/
def lowerSrc (op : IntegerOp) (bitSize : Nat) (src : Nat → Def) (i : Nat) : Scalar :=
  let type := op.inputType i
  let converted :=
    if type.bitSize = 0 then
      (beforeConversion type.base bitSize (src i) op).getD
        (convertToBitSize (src i) type.base bitSize)
    else (src i).scalar
  if i = 1 ∧ masksCount op then
    ⟨converted.bitSize,
      converted.val &&& BitVec.ofNat converted.bitSize ((src 0).scalar.bitSize - 1)⟩
  else converted

section Builder

def buildAlu2 (op : IntegerOp) (bitSize : Nat) (src0 src1 : Scalar) : Option Scalar :=
  op.evaluate bitSize fun i => if i = 0 then src0 else src1

def immIntN (value : Int) (bitSize : Nat) : Scalar := ⟨bitSize, BitVec.ofInt bitSize value⟩

def iclamp (bitSize : Nat) (x minVal maxVal : Scalar) : Option Scalar := do
  let x ← buildAlu2 .imax bitSize x minVal
  buildAlu2 .imin bitSize x maxVal

/-- `nir_ushr_imm` and `nir_ishr_imm` -/
def shiftImm (op : IntegerOp) (bitSize : Nat) (x : Scalar) (count : Nat) : Option Scalar :=
  buildAlu2 op bitSize x (immIntN count 32)

end Builder

def emitLoweredDst (op : IntegerOp) (dstBitSize bitSize : Nat) (srcs : Nat → Scalar) :
    Option Scalar :=
  match op with
  | .imulHigh => do
    let product ← buildAlu2 .imul bitSize (srcs 0) (srcs 1)
    shiftImm .ishr bitSize product dstBitSize
  | .umulHigh => do
    let product ← buildAlu2 .imul bitSize (srcs 0) (srcs 1)
    shiftImm .ushr bitSize product dstBitSize
  | .iaddSat => do
    let sum ← buildAlu2 .iadd bitSize (srcs 0) (srcs 1)
    iclamp bitSize sum (immIntN (intNMin dstBitSize) bitSize)
      (immIntN (intNMax dstBitSize) bitSize)
  | .isubSat => do
    let difference ← buildAlu2 .isub bitSize (srcs 0) (srcs 1)
    iclamp bitSize difference (immIntN (intNMin dstBitSize) bitSize)
      (immIntN (intNMax dstBitSize) bitSize)
  | .uaddSat => do
    let sum ← buildAlu2 .iadd bitSize (srcs 0) (srcs 1)
    buildAlu2 .umin bitSize sum (immIntN (uintNMax dstBitSize) bitSize)
  | .uaddCarry => do
    let sum ← buildAlu2 .iadd bitSize (srcs 0) (srcs 1)
    shiftImm .ushr bitSize sum dstBitSize
  | .bitfieldReverse => do
    let reversed ← op.evaluate bitSize srcs
    shiftImm .ushr bitSize reversed (bitSize - dstBitSize)
  | _ => op.evaluate bitSize srcs

def lowerAluInstr (op : IntegerOp) (dstBitSize bitSize : Nat) (src : Nat → Def) :
    Option Scalar := do
  let loweredDst ← emitLoweredDst op dstBitSize bitSize (lowerSrc op bitSize src)
  if op.outputType.bitSize = 0 ∧ dstBitSize ≠ bitSize then
    some (convertScalar op.outputType.base dstBitSize loweredDst)
  else some loweredDst

section Intrinsics

open SubgroupScan

/-- The intrinsics that combine the values of lanes. -/
inductive Reduction where
  /-- Clusters of no lanes stand for the whole subgroup. -/
  | reduce (clusterSize : Nat)
  | inclusiveScan
  | exclusiveScan
  deriving DecidableEq, Repr

def Reduction.lanes (reduction : Reduction) (group : Subgroup) : List Nat :=
  (List.range group.size).filter fun lane => group.active lane &&
    match reduction with
    | .reduce clusterSize => lane / clusterSize == group.current / clusterSize
    | .inclusiveScan => decide (lane ≤ group.current)
    | .exclusiveScan => decide (lane < group.current)

/-- What the current lane gets. -/
def Reduction.value {n : Nat} (reduction : Reduction) (group : Subgroup) (op : ReductionOp)
    (src : Nat → BitVec n) : BitVec n :=
  ((reduction.lanes group).map src).foldl op.apply (op.identity n)

def reductionType : ReductionOp → BaseType
  | .iadd | .imul | .imin | .imax => .int
  | .iand | .ior | .ixor | .umin | .umax => .uint

/-- Reductions and scans in `lower_intrinsic_instr` -/
def lowerReduction {n : Nat} (reduction : Reduction) (group : Subgroup) (op : ReductionOp)
    (bitSize : Nat) (src : Nat → BitVec n) : BitVec n :=
  let type := if n = 1 then .bool else reductionType op
  let newSrc := fun lane => convertBits type bitSize (src lane)
  let res := reduction.value group op newSrc
  let res :=
    if reduction = .exclusiveScan then
      match op with
      | .imin => ReductionOp.imin.apply res (BitVec.ofInt bitSize (intNMax n))
      | .imax => ReductionOp.imax.apply res (BitVec.ofInt bitSize (intNMin n))
      | _ => res
    else res
  convertBits type n res

end Intrinsics

end LowerBitSize

end SpirvToDxil.Nir
