import SpirvToDxil.Util.BitVector

/-!
# Integer ALU instructions

The integer and boolean opcodes with the types and constant expressions of the
opcode table.
-/

namespace SpirvToDxil.Nir

inductive BaseType where
  | int
  | uint
  | bool
  | float
  deriving DecidableEq

/-- A size of zero leaves the size to the instruction. -/
structure AluType where
  base : BaseType
  bitSize : Nat := 0
  deriving DecidableEq

/-- The size of a type in an instruction that operates at `bitSize`. -/
def AluType.bitSizeAt (type : AluType) (bitSize : Nat) : Nat :=
  if type.bitSize = 0 then bitSize else type.bitSize

inductive AluOp where
  | mov | bcsel
  | iadd | isub | imul
  | idiv | udiv | irem | imod | umod
  | ishl | ishr | ushr
  | iand | ior | ixor | inot
  | ieq | ine | ige | uge | ilt | ult
  | imax | imin | umax | umin
  | bitCount | bitfieldReverse | ufindMsbRev | ifindMsbRev | findLsb
  | bitfieldInsert
  | i2i1 | i2i16 | i2imp | i2i32 | i2i64
  | u2u1 | u2u16 | u2u32 | u2u64
  | b2i16 | b2i32 | b2i64
  deriving DecidableEq

namespace AluOp

def inputTypes : AluOp → List AluType
  | .mov => [⟨.uint, 0⟩]
  | .bcsel => [⟨.bool, 1⟩, ⟨.uint, 0⟩, ⟨.uint, 0⟩]
  | .iadd | .isub | .imul | .idiv | .irem | .imod | .imax | .imin
  | .ieq | .ine | .ige | .ilt => [⟨.int, 0⟩, ⟨.int, 0⟩]
  | .udiv | .umod | .iand | .ior | .ixor | .umax | .umin
  | .uge | .ult => [⟨.uint, 0⟩, ⟨.uint, 0⟩]
  | .ishl | .ishr => [⟨.int, 0⟩, ⟨.uint, 32⟩]
  | .ushr => [⟨.uint, 0⟩, ⟨.uint, 32⟩]
  | .inot | .findLsb => [⟨.int, 0⟩]
  | .bitCount | .bitfieldReverse | .ufindMsbRev => [⟨.uint, 0⟩]
  | .ifindMsbRev => [⟨.int, 32⟩]
  | .bitfieldInsert => [⟨.uint, 0⟩, ⟨.uint, 0⟩, ⟨.int, 32⟩, ⟨.int, 32⟩]
  | .i2i1 | .i2i16 | .i2i32 | .i2i64 => [⟨.int, 0⟩]
  | .i2imp => [⟨.int, 32⟩]
  | .u2u1 | .u2u16 | .u2u32 | .u2u64 => [⟨.uint, 0⟩]
  | .b2i16 | .b2i32 | .b2i64 => [⟨.bool, 0⟩]

def outputType : AluOp → AluType
  | .mov | .bcsel | .udiv | .umod | .iand | .ior | .ixor | .umax | .umin | .ushr
  | .bitfieldReverse | .bitfieldInsert => ⟨.uint, 0⟩
  | .iadd | .isub | .imul | .idiv | .irem | .imod | .imax | .imin | .ishl | .ishr
  | .inot => ⟨.int, 0⟩
  | .ieq | .ine | .ige | .uge | .ilt | .ult => ⟨.bool, 1⟩
  | .bitCount => ⟨.uint, 32⟩
  | .ufindMsbRev | .ifindMsbRev | .findLsb => ⟨.int, 32⟩
  | .i2i1 => ⟨.int, 1⟩
  | .i2i16 | .i2imp | .b2i16 => ⟨.int, 16⟩
  | .i2i32 | .b2i32 => ⟨.int, 32⟩
  | .i2i64 | .b2i64 => ⟨.int, 64⟩
  | .u2u1 => ⟨.uint, 1⟩
  | .u2u16 => ⟨.uint, 16⟩
  | .u2u32 => ⟨.uint, 32⟩
  | .u2u64 => ⟨.uint, 64⟩

/-- The sizes of the unsized types. Booleans have one bit, and `ufind_msb_rev` can only have
a 32-bit source. -/
def bitSizes : AluOp → List Nat
  | .b2i16 | .b2i32 | .b2i64 => [1]
  | .ufindMsbRev => [32]
  | _ => [1, 8, 16, 32, 64]

end AluOp

structure Scalar where
  bitSize : Nat
  val : BitVec bitSize
  deriving DecidableEq

def Scalar.read (scalar : Scalar) (bitSize : Nat) : BitVec bitSize := scalar.val.setWidth bitSize

theorem Scalar.eq_mk_read {scalar : Scalar} {bitSize : Nat} (size : scalar.bitSize = bitSize) :
    scalar = ⟨bitSize, scalar.read bitSize⟩ := by
  subst size
  simp [Scalar.read]

/-- The bits of the C type that holds an integer: a boolean takes a byte. -/
def sizeofBits (bitSize : Nat) : Nat := if bitSize = 1 then 8 else bitSize

def shiftCount (bitSize : Nat) (count : BitVec 32) : Nat :=
  count.toNat &&& (sizeofBits bitSize - 1)

theorem shiftCount_eq {bitSize : Nat} (size : bitSize ∈ [1, 8, 16, 32, 64]) (count : BitVec 32) :
    shiftCount bitSize count = count.toNat % sizeofBits bitSize := by
  obtain ⟨k, power⟩ : ∃ k, sizeofBits bitSize = 2 ^ k := by
    simp only [List.mem_cons, List.not_mem_nil, or_false] at size
    rcases size with rfl | rfl | rfl | rfl | rfl
    exacts [⟨3, rfl⟩, ⟨3, rfl⟩, ⟨4, rfl⟩, ⟨5, rfl⟩, ⟨6, rfl⟩]
  rw [shiftCount, power, Nat.and_two_pow_sub_one_eq_mod]

/-- One opcode's constant expression; no value where the expression is poison. -/
def AluOp.evaluate (op : AluOp) (bitSize : Nat) (src : Nat → Scalar) : Option Scalar :=
  let src0 := (src 0).read bitSize
  let src1 := (src 1).read bitSize
  match op with
  | .mov => some ⟨bitSize, src0⟩
  | .bcsel => some ⟨bitSize, if (src 0).read 1 = 1#1 then src1 else (src 2).read bitSize⟩
  | .iadd => some ⟨bitSize, src0 + src1⟩
  | .isub => some ⟨bitSize, src0 - src1⟩
  | .imul => some ⟨bitSize, src0 * src1⟩
  | .idiv => some ⟨bitSize,
      if src1 = 0#(bitSize) ∨ (src0 = BitVec.intMin bitSize ∧ src1 = -1#(bitSize)) then 0#(bitSize)
        else src0.sdiv src1⟩
  | .udiv => some ⟨bitSize, if src1 = 0#(bitSize) then 0#(bitSize) else src0 / src1⟩
  | .irem => some ⟨bitSize,
      if src1 = 0#(bitSize) ∨ (src0 = BitVec.intMin bitSize ∧ src1 = -1#(bitSize)) then 0#(bitSize)
        else src0.srem src1⟩
  | .imod => some ⟨bitSize,
      if src1 = 0#(bitSize) ∨ (src0 = BitVec.intMin bitSize ∧ src1 = -1#(bitSize)) then 0#(bitSize)
      else if src0.srem src1 = 0#(bitSize) ∨ (0 ≤ src0.toInt ↔ 0 ≤ src1.toInt) then src0.srem src1
      else src0.srem src1 + src1⟩
  | .umod => some ⟨bitSize, if src1 = 0#(bitSize) then 0#(bitSize) else src0 % src1⟩
  | .ishl => some ⟨bitSize, src0 <<< shiftCount bitSize ((src 1).read 32)⟩
  | .ishr => some ⟨bitSize, src0.sshiftRight (shiftCount bitSize ((src 1).read 32))⟩
  | .ushr => some ⟨bitSize, src0 >>> shiftCount bitSize ((src 1).read 32)⟩
  | .iand => some ⟨bitSize, src0 &&& src1⟩
  | .ior => some ⟨bitSize, src0 ||| src1⟩
  | .ixor => some ⟨bitSize, src0 ^^^ src1⟩
  | .inot => some ⟨bitSize, ~~~src0⟩
  | .ieq => some ⟨1, BitVec.ofBool (src0 == src1)⟩
  | .ine => some ⟨1, BitVec.ofBool (src0 != src1)⟩
  | .ige => some ⟨1, BitVec.ofBool (src1.sle src0)⟩
  | .uge => some ⟨1, BitVec.ofBool (src1.ule src0)⟩
  | .ilt => some ⟨1, BitVec.ofBool (src0.slt src1)⟩
  | .ult => some ⟨1, BitVec.ofBool (src0.ult src1)⟩
  | .imax => some ⟨bitSize, if src1.slt src0 then src0 else src1⟩
  | .imin => some ⟨bitSize, if src0.slt src1 then src0 else src1⟩
  | .umax => some ⟨bitSize, if src1.ult src0 then src0 else src1⟩
  | .umin => some ⟨bitSize, if src0.ult src1 then src0 else src1⟩
  | .bitCount => some ⟨32, (List.range bitSize).foldl
      (fun dst bit => if src0.getLsbD bit then dst + 1 else dst) 0#32⟩
  | .bitfieldReverse => some ⟨bitSize, (List.range bitSize).foldl
      (fun dst bit => dst ||| (src0 >>> bit &&& 1#(bitSize)) <<< ((bitSize - 1) - bit))
      0#(bitSize)⟩
  | .ufindMsbRev => some ⟨32, BitVector.firstBit bitSize fun bit =>
      (src0.setWidth 64 <<< bit).getLsbD 31⟩
  | .ifindMsbRev =>
    let src0 := (src 0).read 32
    some ⟨32, BitVector.firstBit 32 fun bit => (src0 <<< bit).getLsbD 31 != src0.getLsbD 31⟩
  | .findLsb => some ⟨32, BitVector.firstBit bitSize src0.getLsbD⟩
  | .bitfieldInsert =>
    let base := src0.setWidth 32
    let insert := src1.setWidth 32
    let offset := ((src 2).read 32).toInt
    let bits := ((src 3).read 32).toInt
    if bits = 0 then some ⟨bitSize, base.setWidth bitSize⟩
    else if offset < 0 ∨ bits < 0 ∨ 32 < bits + offset then none
    else
      let mask := (((1#64 <<< bits.toNat) - 1#64) <<< offset.toNat).setWidth 32
      some ⟨bitSize, ((base &&& ~~~mask) ||| ((insert <<< offset.toNat) &&& mask)).setWidth bitSize⟩
  | .i2i1 => some ⟨1, src0.signExtend 1⟩
  | .i2i16 => some ⟨16, src0.signExtend 16⟩
  | .i2imp => some ⟨16, ((src 0).read 32).signExtend 16⟩
  | .i2i32 => some ⟨32, src0.signExtend 32⟩
  | .i2i64 => some ⟨64, src0.signExtend 64⟩
  | .u2u1 => some ⟨1, src0.setWidth 1⟩
  | .u2u16 => some ⟨16, src0.setWidth 16⟩
  | .u2u32 => some ⟨32, src0.setWidth 32⟩
  | .u2u64 => some ⟨64, src0.setWidth 64⟩
  | .b2i16 => some ⟨16, src0.setWidth 16⟩
  | .b2i32 => some ⟨32, src0.setWidth 32⟩
  | .b2i64 => some ⟨64, src0.setWidth 64⟩

/-- A source: its size, and its value where a `load_const` defines it. -/
structure AluSrc where
  bitSize : Nat
  const : Option Nat := none

structure AluInstr where
  op : AluOp
  bitSize : Nat
  src : Nat → AluSrc

namespace AluInstr

/-- The sizes that validation leaves to an instruction that operates at `bitSize`. -/
structure Sized (alu : AluInstr) (bitSize : Nat) : Prop where
  mem : bitSize ∈ alu.op.bitSizes
  output : alu.bitSize = alu.op.outputType.bitSizeAt bitSize
  input : ∀ i (h : i < alu.op.inputTypes.length),
    (alu.src i).bitSize = (alu.op.inputTypes.get ⟨i, h⟩).bitSizeAt bitSize

/-- The operands of one execution: of the sources' sizes, and constants where these are. -/
structure Operands (alu : AluInstr) (vals : Nat → Scalar) : Prop where
  bitSize : ∀ i, (vals i).bitSize = (alu.src i).bitSize
  const : ∀ i value, (alu.src i).const = some value → (vals i).val.toNat = value

/-- Divisors are not zero. -/
def Defined (op : AluOp) (bitSize : Nat) (vals : Nat → Scalar) : Prop :=
  op ∈ [.idiv, .udiv, .irem, .imod, .umod] → (vals 1).read bitSize ≠ 0#(bitSize)

end AluInstr

/-- The expression of `imod` is the remainder of the divisor's sign. -/
theorem imod_eq_smod {bitSize : Nat} {src0 src1 : BitVec bitSize} (nonzero : src1 ≠ 0#(bitSize)) :
    (if src1 = 0#(bitSize) ∨ (src0 = BitVec.intMin bitSize ∧ src1 = -1#(bitSize)) then 0#(bitSize)
      else if src0.srem src1 = 0#(bitSize) ∨ (0 ≤ src0.toInt ↔ 0 ≤ src1.toInt) then src0.srem src1
      else src0.srem src1 + src1) = src0.smod src1 := by
  have divisor : src1.toInt ≠ 0 := BitVector.toInt_ne_zero nonzero
  have floored := @Int.fmod_eq_tmod src0.toInt src1.toInt
  split
  next special =>
    rcases special with zero | ⟨_, rfl⟩
    · exact absurd zero nonzero
    · apply BitVec.eq_of_toInt_eq
      rw [BitVec.toInt_smod, Int.fmod_eq_zero_of_dvd]
      · simp
      · rw [BitVec.neg_one_eq_allOnes, BitVec.toInt_allOnes] at divisor ⊢
        by_cases positive : 0 < bitSize
        · rw [if_pos positive, Int.neg_dvd]
          exact Int.one_dvd _
        · exact absurd (if_neg positive) divisor
  next =>
    split
    next agree =>
      apply BitVec.eq_of_toInt_eq
      rw [BitVec.toInt_smod, BitVec.toInt_srem, floored]
      rcases agree with divides | signs
      · have zero : src0.toInt.tmod src1.toInt = 0 := by
          rw [← BitVec.toInt_srem, divides]
          simp
        simp [Int.dvd_of_tmod_eq_zero zero]
      · split
        · omega
        · split <;> split <;> omega
    next differ =>
      simp only [not_or] at differ
      obtain ⟨indivisible, signs⟩ := differ
      have remainder : ¬src1.toInt ∣ src0.toInt :=
        fun divides => indivisible (BitVec.srem_zero_of_dvd divides)
      have sum : src0.toInt.tmod src1.toInt + src1.toInt = (src0.smod src1).toInt := by
        rw [BitVec.toInt_smod, floored, if_neg remainder]
        split <;> split <;> omega
      apply BitVec.eq_of_toInt_eq
      rw [BitVec.toInt_add, BitVec.toInt_srem, sum, BitVec.toInt_bmod_cancel]

end SpirvToDxil.Nir
