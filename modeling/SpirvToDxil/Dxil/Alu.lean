import SpirvToDxil.Nir.Alu

/-!
# Emission of integer ALU instructions

What `emit_alu` emits for an integer instruction, as an expression over the emitted values of
its sources, and what LLVM and the D3D intrinsics make of such an expression.
-/

namespace SpirvToDxil.Dxil.Alu

open Nir (AluInstr AluOp AluType BaseType Scalar)

inductive FloatSize where
  | half
  | single
  | double
  deriving DecidableEq

def FloatSize.bits : FloatSize → Nat
  | .half => 16
  | .single => 32
  | .double => 64

inductive Ty where
  | int (bits : Nat)
  | float (size : FloatSize)
  deriving DecidableEq

def Ty.bits : Ty → Nat
  | .int bits => bits
  | .float size => size.bits

/-- A float is its bits: the integer operations only move it. -/
inductive Value where
  | int (bits : Nat) (val : BitVec bits)
  | float (size : FloatSize) (val : BitVec size.bits)

namespace Value

def ty : Value → Ty
  | .int bits _ => .int bits
  | .float size _ => .float size

def scalar : Value → Scalar
  | .int bits val => ⟨bits, val⟩
  | .float size val => ⟨size.bits, val⟩

def ofScalar (ty : Ty) (scalar : Scalar) : Value :=
  match ty with
  | .int bits => .int bits (scalar.read bits)
  | .float size => .float size (scalar.read size.bits)

def asInt (bits : Nat) : Value → Option (BitVec bits)
  | .int width val => if width = bits then some (val.setWidth bits) else none
  | .float _ _ => none

@[simp]
theorem asInt_int (bits : Nat) (val : BitVec bits) : (int bits val).asInt bits = some val := by
  simp [asInt]

theorem asInt_of_ne {bits width : Nat} (val : BitVec width) (differ : width ≠ bits) :
    (int width val).asInt bits = none := by
  simp [asInt, differ]

theorem scalar_ofScalar {ty : Ty} {scalar : Scalar} (size : ty.bits = scalar.bitSize) :
    (ofScalar ty scalar).scalar = scalar := by
  cases ty with
  | int bits => exact (Scalar.eq_mk_read size.symm).symm
  | float width => exact (Scalar.eq_mk_read size.symm).symm

theorem ofScalar_int (bits : Nat) (scalar : Scalar) :
    ofScalar (.int bits) scalar = .int bits (scalar.read bits) := rfl

theorem ty_ofScalar (ty : Ty) (scalar : Scalar) : (ofScalar ty scalar).ty = ty := by
  cases ty <;> rfl

end Value

inductive BinOpcode where
  | add | sub | mul | udiv | sdiv | urem | srem | shl | lshr | ashr | and | or | xor
  deriving DecidableEq

inductive CmpPred where
  | eq | ne | uge | ult | sge | slt
  deriving DecidableEq

inductive CastOpcode where
  | trunc | zext | sext | bitcast
  deriving DecidableEq

inductive Intr where
  | bfrev | countbits | firstbitLo | firstbitHi | firstbitShi
  | imax | imin | umax | umin
  | bfi
  deriving DecidableEq

/-- Division by zero, the quotient that overflows and a shift by the width or more have no
value. -/
def BinOpcode.eval {bits : Nat} (a b : BitVec bits) : BinOpcode → Option (BitVec bits)
  | .add => some (a + b)
  | .sub => some (a - b)
  | .mul => some (a * b)
  | .udiv => if b = 0#(bits) then none else some (a / b)
  | .sdiv =>
    if b = 0#(bits) ∨ (a = BitVec.intMin bits ∧ b = -1#(bits)) then none else some (a.sdiv b)
  | .urem => if b = 0#(bits) then none else some (a % b)
  | .srem =>
    if b = 0#(bits) ∨ (a = BitVec.intMin bits ∧ b = -1#(bits)) then none else some (a.srem b)
  | .shl => if b.toNat < bits then some (a <<< b.toNat) else none
  | .lshr => if b.toNat < bits then some (a >>> b.toNat) else none
  | .ashr => if b.toNat < bits then some (a.sshiftRight b.toNat) else none
  | .and => some (a &&& b)
  | .or => some (a ||| b)
  | .xor => some (a ^^^ b)

def CmpPred.eval {bits : Nat} (a b : BitVec bits) : CmpPred → Bool
  | .eq => a == b
  | .ne => a != b
  | .uge => b.ule a
  | .ult => a.ult b
  | .sge => b.sle a
  | .slt => a.slt b

def CastOpcode.eval (ty : Ty) (value : Value) : CastOpcode → Option Value
  | .trunc =>
    match ty, value with
    | .int bits, .int width val =>
      if bits < width then some (.int bits (val.setWidth bits)) else none
    | _, _ => none
  | .zext =>
    match ty, value with
    | .int bits, .int width val =>
      if width < bits then some (.int bits (val.setWidth bits)) else none
    | _, _ => none
  | .sext =>
    match ty, value with
    | .int bits, .int width val =>
      if width < bits then some (.int bits (val.signExtend bits)) else none
    | _, _ => none
  | .bitcast => if ty.bits = value.ty.bits then some (.ofScalar ty value.scalar) else none

def binop (opcode : BinOpcode) (a b : Value) : Option Value :=
  match a with
  | .int bits val => do
    let val' ← b.asInt bits
    let result ← opcode.eval val val'
    return .int bits result
  | .float _ _ => none

def cmp (pred : CmpPred) (a b : Value) : Option Value :=
  match a with
  | .int bits val => do
    let val' ← b.asInt bits
    return .int 1 (BitVec.ofBool (pred.eval val val'))
  | .float _ _ => none

def select (condition a b : Value) : Option Value := do
  let condition ← condition.asInt 1
  if a.ty = b.ty then some (if condition = 1#1 then a else b) else none

/-- The position of the first set bit from the top, all ones where none is set. -/
def firstbitHi {bits : Nat} (val : BitVec bits) : BitVec 32 :=
  if val = 0#(bits) then -1 else val.clz.setWidth 32

def firstbitLo {bits : Nat} (val : BitVec bits) : BitVec 32 :=
  if val = 0#(bits) then -1 else val.ctz.setWidth 32

/-- `dx.op.unaryBits` returns a 32-bit integer, `dx.op.unary` the overload type. -/
def unary (intr : Intr) (overload : Nat) (a : Value) : Option Value := do
  let val ← a.asInt overload
  match intr with
  | .bfrev => some (.int overload val.reverse)
  | .countbits => some (.int 32 (val.cpop.setWidth 32))
  | .firstbitLo => some (.int 32 (firstbitLo val))
  | .firstbitHi => some (.int 32 (firstbitHi val))
  | .firstbitShi => some (.int 32 (firstbitHi (if val.msb then ~~~val else val)))
  | _ => none

def binary (intr : Intr) (overload : Nat) (a b : Value) : Option Value := do
  let val ← a.asInt overload
  let val' ← b.asInt overload
  match intr with
  | .imax => some (.int overload (if val'.sle val then val else val'))
  | .imin => some (.int overload (if val.sle val' then val else val'))
  | .umax => some (.int overload (if val'.ule val then val else val'))
  | .umin => some (.int overload (if val.ule val' then val else val'))
  | _ => none

/-- The low five bits of the width and of the offset count. -/
def insertBits (width offset insert base : BitVec 32) : BitVec 32 :=
  let mask := ((1#32 <<< (width.toNat % 32)) - 1#32) <<< (offset.toNat % 32)
  ((insert <<< (offset.toNat % 32)) &&& mask) ||| (base &&& ~~~mask)

def quaternary (intr : Intr) (overload : Nat) (a b c d : Value) : Option Value := do
  let width ← a.asInt overload
  let offset ← b.asInt overload
  let insert ← c.asInt overload
  let base ← d.asInt overload
  match intr with
  | .bfi =>
    if overload = 32 then
      some (.int 32 (insertBits (width.setWidth 32) (offset.setWidth 32) (insert.setWidth 32)
        (base.setWidth 32)))
    else none
  | _ => none

/-- An emitted value; `src` is the value that an earlier instruction emitted for a source. -/
inductive Expr where
  | src (i : Nat)
  | intConst (value : Int) (bitSize : Nat)
  | binop (opcode : BinOpcode) (a b : Expr)
  | cmp (pred : CmpPred) (a b : Expr)
  | cast (opcode : CastOpcode) (ty : Ty) (a : Expr)
  | select (condition a b : Expr)
  | unaryCall (overload : Nat) (intr : Intr) (a : Expr)
  | binaryCall (overload : Nat) (intr : Intr) (a b : Expr)
  | quaternaryCall (overload : Nat) (intr : Intr) (a b c d : Expr)

def Expr.eval (env : Nat → Value) : Expr → Option Value
  | .src i => some (env i)
  | .intConst value bitSize =>
    some (.int bitSize
      (if bitSize = 1 ∧ value ≠ 0 then 1#(bitSize) else BitVec.ofInt bitSize value))
  | .binop opcode a b => do Alu.binop opcode (← a.eval env) (← b.eval env)
  | .cmp pred a b => do Alu.cmp pred (← a.eval env) (← b.eval env)
  | .cast opcode ty a => do opcode.eval ty (← a.eval env)
  | .select condition a b => do
    Alu.select (← condition.eval env) (← a.eval env) (← b.eval env)
  | .unaryCall overload intr a => do unary intr overload (← a.eval env)
  | .binaryCall overload intr a b => do binary intr overload (← a.eval env) (← b.eval env)
  | .quaternaryCall overload intr a b c d => do
    quaternary intr overload (← a.eval env) (← b.eval env) (← c.eval env) (← d.eval env)

section Emission

variable (ty : Nat → Ty) (alu : AluInstr)

def floatSize? (bitSize : Nat) : Option FloatSize :=
  [FloatSize.half, .single, .double].find? (·.bits == bitSize)

/-- `get_src`: the emitted value with the type that the use needs. -/
def getSrc (i : Nat) (base : BaseType) : Expr :=
  let bitSize := (alu.src i).bitSize
  match base with
  | .int | .uint => if ty i = .int bitSize then .src i else .cast .bitcast (.int bitSize) (.src i)
  | .float =>
    match floatSize? bitSize with
    | some size => if ty i = .float size then .src i else .cast .bitcast (.float size) (.src i)
    | none => .src i
  | .bool => if (ty i).bits ≠ 1 then .cast .trunc (.int 1) (.src i) else .src i

def getAluSrc (i : Nat) : Expr :=
  match alu.op.inputTypes[i]? with
  | some type => getSrc ty alu i type.base
  | none => .src i

def typeToNirType : Ty → BaseType
  | .int _ => .int
  | .float _ => .float

def emitShift (opcode : BinOpcode) (op0 op1 : Expr) : Expr :=
  let op0BitSize := (alu.src 0).bitSize
  let op1BitSize := (alu.src 1).bitSize
  let shiftMask := op0BitSize - 1
  match (alu.src 1).const with
  | none =>
    let op1 :=
      if op0BitSize ≠ op1BitSize then
        .cast (if op1BitSize < op0BitSize then .zext else .trunc) (.int op0BitSize) op1
      else op1
    .binop opcode op0 (.binop .and op1 (.intConst shiftMask op0BitSize))
  | some val => .binop opcode op0 (.intConst (val &&& shiftMask : Nat) op0BitSize)

/-- `get_cast_op`, for the casts between integers. -/
def getCastOp (dstBits srcBits : Nat) : AluOp → CastOpcode
  | .i2i1 | .i2i16 | .i2imp | .i2i32 | .i2i64 => if dstBits < srcBits then .trunc else .sext
  | .u2u1 | .u2u16 | .u2u32 | .u2u64 => if dstBits < srcBits then .trunc else .zext
  | _ => .zext

def emitCast (value : Expr) : Expr :=
  .cast (getCastOp alu.bitSize (alu.src 0).bitSize alu.op) (.int alu.bitSize) value

def getOverload (bitSize : Nat) : Option Nat :=
  if bitSize ∈ [1, 16, 32, 64] then some bitSize else none

def emitUnaryIntin (intr : Intr) (op : Expr) : Option Expr := do
  let overload ← getOverload (alu.src 0).bitSize
  return .unaryCall overload intr op

def emitBinaryIntin (intr : Intr) (op0 op1 : Expr) : Option Expr := do
  let overload ← getOverload alu.bitSize
  return .binaryCall overload intr op0 op1

def emitBitfieldInsert (base insert offset width : Expr) : Expr :=
  -- Five bits of a width do not tell 32 from zero.
  .select (.cmp .sge width (.intConst 32 32)) insert
    (.quaternaryCall 32 .bfi width offset insert base)

/-- `emit_alu`, for the integer opcodes. -/
def emitAlu : Option Expr :=
  let src := getAluSrc ty alu
  match alu.op with
  | .mov => some (.src 0)
  | .bcsel =>
    some (.select (getSrc ty alu 0 .bool) (.src 1) (getSrc ty alu 2 (typeToNirType (ty 1))))
  | .iadd => some (.binop .add (src 0) (src 1))
  | .isub => some (.binop .sub (src 0) (src 1))
  | .imul => some (.binop .mul (src 0) (src 1))
  | .idiv | .udiv =>
    -- A literal division by zero is illegal.
    if (alu.src 1).const = some 0 then some (.intConst 0 alu.bitSize)
    else some (.binop (if alu.op = .idiv then .sdiv else .udiv) (src 0) (src 1))
  | .irem => some (.binop .srem (src 0) (src 1))
  | .imod => some (.binop .urem (src 0) (src 1))
  | .umod => some (.binop .urem (src 0) (src 1))
  | .ishl => some (emitShift alu .shl (src 0) (src 1))
  | .ishr => some (emitShift alu .ashr (src 0) (src 1))
  | .ushr => some (emitShift alu .lshr (src 0) (src 1))
  | .iand => some (.binop .and (src 0) (src 1))
  | .ior => some (.binop .or (src 0) (src 1))
  | .ixor => some (.binop .xor (src 0) (src 1))
  | .inot => some (.binop .xor (src 0) (.intConst (if alu.bitSize = 1 then 1 else -1) alu.bitSize))
  | .ieq => some (.cmp .eq (src 0) (src 1))
  | .ine => some (.cmp .ne (src 0) (src 1))
  | .ige => some (.cmp .sge (src 0) (src 1))
  | .uge => some (.cmp .uge (src 0) (src 1))
  | .ilt => some (.cmp .slt (src 0) (src 1))
  | .ult => some (.cmp .ult (src 0) (src 1))
  | .bitCount => emitUnaryIntin alu .countbits (src 0)
  | .bitfieldReverse => emitUnaryIntin alu .bfrev (src 0)
  | .ufindMsbRev => emitUnaryIntin alu .firstbitHi (src 0)
  | .ifindMsbRev => emitUnaryIntin alu .firstbitShi (src 0)
  | .findLsb => emitUnaryIntin alu .firstbitLo (src 0)
  | .imax => emitBinaryIntin alu .imax (src 0) (src 1)
  | .imin => emitBinaryIntin alu .imin (src 0) (src 1)
  | .umax => emitBinaryIntin alu .umax (src 0) (src 1)
  | .umin => emitBinaryIntin alu .umin (src 0) (src 1)
  | .bitfieldInsert => some (emitBitfieldInsert (src 0) (src 1) (src 2) (src 3))
  | .i2i1 | .i2i16 | .i2imp | .i2i32 | .i2i64 | .u2u1 | .u2u16 | .u2u32 | .u2u64
  | .b2i16 | .b2i32 | .b2i64 => some (emitCast alu (src 0))

end Emission

end SpirvToDxil.Dxil.Alu
