import SpirvToDxil.Dxil.Alu

/-!
# Integer ALU instructions keep their meaning

The emitted expression evaluates to the opcode's constant expression, except on the operands
that the LLVM operation treats in another way.
-/

namespace SpirvToDxil.Dxil.Alu

open Nir (AluInstr AluOp AluType BaseType Scalar)

/-- The operands on which the emitted operation has the value of the opcode. -/
def Agrees (alu : AluInstr) (bitSize : Nat) (vals : Nat → Scalar) : Prop :=
  let src0 := (vals 0).read bitSize
  let src1 := (vals 1).read bitSize
  match alu.op with
  | .imod =>
    -- The unsigned remainder stands in for the one of the divisor's sign.
    src0 = 0#(bitSize) ∨ src0 = src1 ∨
      (0 < src1.toInt ∧ (0 ≤ src0.toInt ∨ src1.toInt ∣ 2 ^ bitSize))
  | .idiv | .irem => ¬(src0 = BitVec.intMin bitSize ∧ src1 = -1#(bitSize))
  | .ishl | .ushr => bitSize = 1 → src0 = 0#(bitSize) ∨ ((vals 1).read 32).toNat % 8 = 0
  | .bitfieldInsert => bitSize = 32
  | .i2i1 | .i2i16 | .i2imp | .i2i32 | .i2i64 | .u2u1 | .u2u16 | .u2u32 | .u2u64 =>
    (alu.src 0).bitSize ≠ alu.bitSize
  | _ => True

def Typed (ty : Nat → Ty) (alu : AluInstr) : Prop :=
  ∀ i, (ty i).bits = (alu.src i).bitSize

attribute [local simp] Expr.eval

def env (ty : Nat → Ty) (vals : Nat → Scalar) (i : Nat) : Value := .ofScalar (ty i) (vals i)

section Sources

variable {ty : Nat → Ty} {alu : AluInstr} {vals : Nat → Scalar}

/-- An integer use of a source reads its bits, whichever type the emitted value has. -/
theorem eval_getSrc_int (typed : Typed ty alu) (operands : alu.Operands vals) (i : Nat)
    {base : BaseType} (integer : base = .int ∨ base = .uint) :
    (getSrc ty alu i base).eval (env ty vals) =
      some (.int (alu.src i).bitSize ((vals i).read (alu.src i).bitSize)) := by
  have size : (ty i).bits = (vals i).bitSize := (typed i).trans (operands.bitSize i).symm
  have same : getSrc ty alu i base = getSrc ty alu i .int := by
    rcases integer with rfl | rfl <;> rfl
  rw [same, getSrc]
  split
  next equal => rw [Expr.eval, env, equal, Value.ofScalar_int]
  next =>
    have width : (Ty.int (alu.src i).bitSize).bits = (Value.ofScalar (ty i) (vals i)).ty.bits := by
      rw [Value.ty_ofScalar, typed i]
      rfl
    simp only [Expr.eval, env, Option.bind_eq_bind, Option.bind_some, CastOpcode.eval]
    rw [if_pos width, Value.scalar_ofScalar size, Value.ofScalar_int]

/-- There are no one-bit floats. -/
theorem eval_getSrc_bool {i : Nat} (vals : Nat → Scalar) (typed : Typed ty alu)
    (single : (alu.src i).bitSize = 1) :
    (getSrc ty alu i .bool).eval (env ty vals) = some (.int 1 ((vals i).read 1)) := by
  have width : (ty i).bits = 1 := (typed i).trans single
  have integer : ty i = .int 1 := by
    cases type : ty i with
    | int bits =>
        rw [type] at width
        exact congrArg Ty.int width
    | float size =>
        rw [type] at width
        cases size <;> cases width
  simp only [getSrc]
  rw [if_neg (not_not.mpr width), Expr.eval, env, integer, Value.ofScalar_int]

theorem eval_getSrc_like {i : Nat} {other : Ty} (typed : Typed ty alu)
    (operands : alu.Operands vals) (same : other.bits = (alu.src i).bitSize) :
    (getSrc ty alu i (typeToNirType other)).eval (env ty vals) =
      some (.ofScalar other (vals i)) := by
  have size : (ty i).bits = (vals i).bitSize := (typed i).trans (operands.bitSize i).symm
  cases other with
  | int bits =>
      obtain rfl : bits = (alu.src i).bitSize := same
      exact eval_getSrc_int typed operands i (.inl rfl)
  | float width =>
      have found : floatSize? (alu.src i).bitSize = some width := by
        rw [← same]
        cases width <;> rfl
      rw [typeToNirType, getSrc]
      simp only [found]
      split
      next equal => rw [Expr.eval, env, equal]
      next =>
        have bits : (Ty.float width).bits = (Value.ofScalar (ty i) (vals i)).ty.bits := by
          rw [Value.ty_ofScalar, typed i, same]
        simp only [Expr.eval, env, Option.bind_eq_bind, Option.bind_some, CastOpcode.eval]
        rw [if_pos bits, Value.scalar_ofScalar size]

theorem eval_getAluSrc {bitSize : Nat} (sized : alu.Sized bitSize) (typed : Typed ty alu)
    (operands : alu.Operands vals) (i : Nat) {type : AluType}
    (input : alu.op.inputTypes[i]? = some type) (integer : type.base = .int ∨ type.base = .uint) :
    (getAluSrc ty alu i).eval (env ty vals) =
      some (.int (type.bitSizeAt bitSize) ((vals i).read (type.bitSizeAt bitSize))) := by
  obtain ⟨bound, found⟩ := List.getElem?_eq_some_iff.mp input
  have size : (alu.src i).bitSize = type.bitSizeAt bitSize := by
    rw [sized.input i bound, List.get_eq_getElem, found]
  rw [getAluSrc, input]
  simp only
  rw [eval_getSrc_int typed operands i integer, size]

end Sources

def Evaluates (ty : Nat → Ty) (vals : Nat → Scalar) (expr : Expr) (result : Scalar) : Prop :=
  (expr.eval (env ty vals)).map Value.scalar = some result

theorem getOverload_eq {bitSize overload : Nat} (found : getOverload bitSize = some overload) :
    bitSize = overload := by
  simp only [getOverload] at found
  split at found
  · exact Option.some_inj.mp found
  · cases found

section Evaluation

variable {ty : Nat → Ty} {vals : Nat → Scalar} {bits : Nat} {a b : Expr} {x y : BitVec bits}

theorem eval_binop (opcode : BinOpcode)
    (left : a.eval (env ty vals) = some (.int bits x))
    (right : b.eval (env ty vals) = some (.int bits y)) :
    (Expr.binop opcode a b).eval (env ty vals) = (opcode.eval x y).map (.int bits) := by
  simp [Expr.eval, left, right, binop, Option.map_eq_bind]

theorem evaluates_binop_iff (opcode : BinOpcode)
    (left : a.eval (env ty vals) = some (.int bits x))
    (right : b.eval (env ty vals) = some (.int bits y)) (result : BitVec bits) :
    Evaluates ty vals (.binop opcode a b) ⟨bits, result⟩ ↔ opcode.eval x y = some result := by
  rw [Evaluates, eval_binop opcode left right]
  simp [Value.scalar]

theorem evaluates_cmp_iff (pred : CmpPred)
    (left : a.eval (env ty vals) = some (.int bits x))
    (right : b.eval (env ty vals) = some (.int bits y)) (result : Bool) :
    Evaluates ty vals (.cmp pred a b) ⟨1, BitVec.ofBool result⟩ ↔ pred.eval x y = result := by
  simp [Evaluates, Expr.eval, left, right, cmp, Value.scalar, BitVec.ofBool_eq_iff_eq]

theorem evaluates_unaryCall_iff (intr : Intr)
    (operand : a.eval (env ty vals) = some (.int bits x)) (result : Scalar) :
    Evaluates ty vals (.unaryCall bits intr a) result ↔
      (unary intr bits (.int bits x)).map Value.scalar = some result := by
  simp [Evaluates, Expr.eval, operand]

theorem evaluates_binaryCall_iff (intr : Intr)
    (left : a.eval (env ty vals) = some (.int bits x))
    (right : b.eval (env ty vals) = some (.int bits y)) (result : Scalar) :
    Evaluates ty vals (.binaryCall bits intr a b) result ↔
      (binary intr bits (.int bits x) (.int bits y)).map Value.scalar = some result := by
  simp [Evaluates, Expr.eval, left, right]

theorem eval_intConst {environment : Nat → Value} {value : Nat} (fits : value < 2 ^ bits) :
    (Expr.intConst value bits).eval environment = some (.int bits (BitVec.ofNat bits value)) := by
  by_cases single : bits = 1 ∧ (value : Int) ≠ 0
  · obtain ⟨rfl, nonzero⟩ := single
    obtain rfl : value = 1 := by omega
    simp [Expr.eval]
  · simp only [Expr.eval, if_neg single, BitVec.ofInt_natCast]

theorem evaluates_emitShift {alu : AluInstr} {op0 op1 : Expr} (opcode : BinOpcode)
    (size : bits ∈ [1, 8, 16, 32, 64]) (size0 : (alu.src 0).bitSize = bits)
    (size1 : (alu.src 1).bitSize = 32) (operands : alu.Operands vals)
    (left : op0.eval (env ty vals) = some (.int bits x))
    (right : op1.eval (env ty vals) = some (.int 32 ((vals 1).read 32))) :
    ∃ y : BitVec bits, y.toNat = ((vals 1).read 32).toNat % bits ∧
      ∀ result, Evaluates ty vals (emitShift alu opcode op0 op1) ⟨bits, result⟩ ↔
        opcode.eval x y = some result := by
  obtain ⟨k, rfl⟩ : ∃ k, bits = 2 ^ k := by
    simp only [List.mem_cons, List.not_mem_nil, or_false] at size
    rcases size with rfl | rfl | rfl | rfl | rfl
    exacts [⟨0, rfl⟩, ⟨3, rfl⟩, ⟨4, rfl⟩, ⟨5, rfl⟩, ⟨6, rfl⟩]
  have small : 2 ^ k - 1 < 2 ^ 2 ^ k := by
    have less : 2 ^ k < 2 ^ 2 ^ k := Nat.lt_two_pow_self
    omega
  simp only [emitShift, size0, size1]
  split
  next =>
    have count : (if 2 ^ k ≠ 32 then
        Expr.cast (if 32 < 2 ^ k then .zext else .trunc) (.int (2 ^ k)) op1 else op1).eval
          (env ty vals) = some (.int (2 ^ k) (((vals 1).read 32).setWidth (2 ^ k))) := by
      by_cases same : 2 ^ k = 32
      · obtain rfl : k = 5 := Nat.pow_right_injective (Nat.le_refl 2) same
        simpa using right
      · by_cases wider : 32 < 2 ^ k
        · simp [Expr.eval, right, CastOpcode.eval, wider, same]
        · have narrower : 2 ^ k < 32 := by omega
          simp [Expr.eval, right, CastOpcode.eval, narrower, wider, same]
    have masked := eval_binop .and count (eval_intConst small)
    refine ⟨_, ?_, evaluates_binop_iff opcode left masked⟩
    rw [BitVec.toNat_and, BitVec.toNat_setWidth, BitVec.toNat_ofNat, Nat.mod_eq_of_lt small,
      BitVector.toNat_and_mask]
  next value constant =>
    have fits : value &&& (2 ^ k - 1) < 2 ^ 2 ^ k := Nat.lt_of_le_of_lt Nat.and_le_right small
    refine ⟨_, ?_, evaluates_binop_iff opcode left (eval_intConst fits)⟩
    have read : ((vals 1).read 32).toNat = value := by
      have known := operands.const 1 value constant
      rw [Scalar.eq_mk_read ((operands.bitSize 1).trans size1)] at known
      exact known
    rw [BitVec.toNat_ofNat, Nat.mod_eq_of_lt fits, Nat.and_two_pow_sub_one_eq_mod, read]

/-- Casts between integers of one size do not exist. -/
theorem evaluates_emitCast_signed {alu : AluInstr}
    (signed : alu.op ∈ [.i2i1, .i2i16, .i2imp, .i2i32, .i2i64])
    (size0 : (alu.src 0).bitSize = bits) (operand : a.eval (env ty vals) = some (.int bits x)) :
    Evaluates ty vals (emitCast alu a) ⟨alu.bitSize, x.signExtend alu.bitSize⟩ ↔
      (alu.src 0).bitSize ≠ alu.bitSize := by
  have opcode : getCastOp alu.bitSize bits alu.op =
      if alu.bitSize < bits then .trunc else .sext := by
    simp only [List.mem_cons, List.not_mem_nil, or_false] at signed
    rcases signed with op | op | op | op | op <;> rw [op] <;> rfl
  simp only [Evaluates, emitCast, Expr.eval, operand, size0, opcode, Option.bind_eq_bind,
    Option.bind_some]
  by_cases narrower : alu.bitSize < bits
  · simp [CastOpcode.eval, narrower, Value.scalar, Nat.ne_of_gt narrower,
      BitVec.signExtend_eq_setWidth_of_le x (Nat.le_of_lt narrower)]
  · by_cases wider : bits < alu.bitSize
    · simp [CastOpcode.eval, narrower, wider, Value.scalar, Nat.ne_of_lt wider]
    · have same : bits = alu.bitSize := by omega
      simp [CastOpcode.eval, same]

theorem evaluates_emitCast_unsigned {alu : AluInstr}
    (unsigned : alu.op ∈ [.u2u1, .u2u16, .u2u32, .u2u64])
    (size0 : (alu.src 0).bitSize = bits) (operand : a.eval (env ty vals) = some (.int bits x)) :
    Evaluates ty vals (emitCast alu a) ⟨alu.bitSize, x.setWidth alu.bitSize⟩ ↔
      (alu.src 0).bitSize ≠ alu.bitSize := by
  have opcode : getCastOp alu.bitSize bits alu.op =
      if alu.bitSize < bits then .trunc else .zext := by
    simp only [List.mem_cons, List.not_mem_nil, or_false] at unsigned
    rcases unsigned with op | op | op | op <;> rw [op] <;> rfl
  simp only [Evaluates, emitCast, Expr.eval, operand, size0, opcode, Option.bind_eq_bind,
    Option.bind_some]
  by_cases narrower : alu.bitSize < bits
  · simp [CastOpcode.eval, narrower, Value.scalar, Nat.ne_of_gt narrower]
  · by_cases wider : bits < alu.bitSize
    · simp [CastOpcode.eval, narrower, wider, Value.scalar, Nat.ne_of_lt wider]
    · have same : bits = alu.bitSize := by omega
      simp [CastOpcode.eval, same]

end Evaluation

/-- One execution of an instruction that is accepted and that NIR gives a result. -/
structure Run (ty : Nat → Ty) (alu : AluInstr) (bitSize : Nat) (vals : Nat → Scalar)
    (expr : Expr) (result : Scalar) : Prop where
  sized : alu.Sized bitSize
  typed : Typed ty alu
  operands : alu.Operands vals
  defined : AluInstr.Defined alu.op bitSize vals
  emitted : emitAlu ty alu = some expr
  evaluated : alu.op.evaluate bitSize vals = some result

namespace Run

variable {ty : Nat → Ty} {op : AluOp} {dst : Nat} {src : Nat → Nir.AluSrc} {bitSize : Nat}
  {vals : Nat → Scalar} {expr : Expr} {result : Scalar}

theorem source (run : Run ty ⟨op, dst, src⟩ bitSize vals expr result) (i : Nat) (type : AluType)
    (input : op.inputTypes[i]? = some type) (integer : type.base = .int ∨ type.base = .uint) :
    (getAluSrc ty ⟨op, dst, src⟩ i).eval (env ty vals) =
      some (.int (type.bitSizeAt bitSize) ((vals i).read (type.bitSizeAt bitSize))) :=
  eval_getAluSrc run.sized run.typed run.operands i input integer

theorem input (run : Run ty ⟨op, dst, src⟩ bitSize vals expr result) (i : Nat) (type : AluType)
    (input : op.inputTypes[i]? = some type) : (src i).bitSize = type.bitSizeAt bitSize := by
  obtain ⟨bound, found⟩ := List.getElem?_eq_some_iff.mp input
  have size := run.sized.input i bound
  rw [List.get_eq_getElem, found] at size
  exact size

theorem unsized (run : Run ty ⟨op, dst, src⟩ bitSize vals expr result) (i : Nat) (base : BaseType)
    (input : op.inputTypes[i]? = some ⟨base, 0⟩) (integer : base = .int ∨ base = .uint) :
    (getAluSrc ty ⟨op, dst, src⟩ i).eval (env ty vals) =
      some (.int bitSize ((vals i).read bitSize)) :=
  run.source i ⟨base, 0⟩ input integer

theorem word (run : Run ty ⟨op, dst, src⟩ bitSize vals expr result) (i : Nat) (base : BaseType)
    (input : op.inputTypes[i]? = some ⟨base, 32⟩) (integer : base = .int ∨ base = .uint) :
    (getAluSrc ty ⟨op, dst, src⟩ i).eval (env ty vals) = some (.int 32 ((vals i).read 32)) :=
  run.source i ⟨base, 32⟩ input integer

/-- The two operands of an operation that works at one size. -/
theorem sources (run : Run ty ⟨op, dst, src⟩ bitSize vals expr result)
    (types : op.inputTypes = [⟨.int, 0⟩, ⟨.int, 0⟩] ∨
      op.inputTypes = [⟨.uint, 0⟩, ⟨.uint, 0⟩]) :
    (getAluSrc ty ⟨op, dst, src⟩ 0).eval (env ty vals) =
        some (.int bitSize ((vals 0).read bitSize)) ∧
      (getAluSrc ty ⟨op, dst, src⟩ 1).eval (env ty vals) =
        some (.int bitSize ((vals 1).read bitSize)) := by
  rcases types with types | types
  · exact ⟨run.unsized 0 .int (by simp [types]) (.inl rfl),
      run.unsized 1 .int (by simp [types]) (.inl rfl)⟩
  · exact ⟨run.unsized 0 .uint (by simp [types]) (.inr rfl),
      run.unsized 1 .uint (by simp [types]) (.inr rfl)⟩

theorem arithmetic (run : Run ty ⟨op, dst, src⟩ bitSize vals expr result)
    (family : op ∈ [.iadd, .isub, .imul, .iand, .ior, .ixor]) :
    Evaluates ty vals expr result ↔ Agrees ⟨op, dst, src⟩ bitSize vals := by
  obtain ⟨emitted, evaluated⟩ := And.intro run.emitted run.evaluated
  simp only [List.mem_cons, List.not_mem_nil, or_false] at family
  rcases family with rfl | rfl | rfl | rfl | rfl | rfl <;>
  · obtain ⟨left, right⟩ := run.sources (by simp [AluOp.inputTypes])
    cases emitted
    cases evaluated
    simp [evaluates_binop_iff _ left right, BinOpcode.eval, Agrees]

theorem complement (run : Run ty ⟨.inot, dst, src⟩ bitSize vals expr result) :
    Evaluates ty vals expr result ↔ Agrees ⟨.inot, dst, src⟩ bitSize vals := by
  obtain ⟨emitted, evaluated⟩ := And.intro run.emitted run.evaluated
  obtain rfl : dst = bitSize := run.sized.output
  have operand := run.unsized 0 .int rfl (.inl rfl)
  have ones : (Expr.intConst (if dst = 1 then 1 else -1) dst).eval (env ty vals) =
      some (.int dst (BitVec.allOnes dst)) := by
    by_cases single : dst = 1
    · subst single
      rfl
    · have minusOne : BitVec.ofInt dst (-1) = BitVec.allOnes dst := by
        rw [BitVec.ofInt_neg, ← BitVec.neg_one_eq_allOnes]
        rfl
      simp [Expr.eval, single, minusOne]
  cases emitted
  cases evaluated
  simp [evaluates_binop_iff _ operand ones, BinOpcode.eval, Agrees]

theorem comparison (run : Run ty ⟨op, dst, src⟩ bitSize vals expr result)
    (family : op ∈ [.ieq, .ine, .ige, .uge, .ilt, .ult]) :
    Evaluates ty vals expr result ↔ Agrees ⟨op, dst, src⟩ bitSize vals := by
  obtain ⟨emitted, evaluated⟩ := And.intro run.emitted run.evaluated
  simp only [List.mem_cons, List.not_mem_nil, or_false] at family
  rcases family with rfl | rfl | rfl | rfl | rfl | rfl <;>
  · obtain ⟨left, right⟩ := run.sources (by simp [AluOp.inputTypes])
    cases emitted
    cases evaluated
    simp [evaluates_cmp_iff _ left right, CmpPred.eval, Agrees]

theorem literal (run : Run ty ⟨op, dst, src⟩ bitSize vals expr result)
    (size : (src 1).bitSize = bitSize) (nonzero : (vals 1).read bitSize ≠ 0#(bitSize)) :
    (src 1).const ≠ some 0 := by
  intro zero
  apply nonzero
  have divisor := run.operands.const 1 0 zero
  rw [Scalar.eq_mk_read ((run.operands.bitSize 1).trans size)] at divisor
  exact BitVec.eq_of_toNat_eq (by simpa using divisor)

theorem unsignedDivision (run : Run ty ⟨op, dst, src⟩ bitSize vals expr result)
    (family : op ∈ [.udiv, .umod]) :
    Evaluates ty vals expr result ↔ Agrees ⟨op, dst, src⟩ bitSize vals := by
  obtain ⟨emitted, evaluated⟩ := And.intro run.emitted run.evaluated
  simp only [List.mem_cons, List.not_mem_nil, or_false] at family
  rcases family with rfl | rfl
  · obtain ⟨left, right⟩ := run.sources (by simp [AluOp.inputTypes])
    have nonzero := run.defined (by simp)
    have literal := run.literal (run.input 1 ⟨.uint, 0⟩ rfl) nonzero
    simp only [emitAlu, literal, if_false, Option.some_inj, reduceCtorEq] at emitted
    cases emitted
    cases evaluated
    simp [evaluates_binop_iff _ left right, BinOpcode.eval, Agrees, nonzero]
  · obtain ⟨left, right⟩ := run.sources (by simp [AluOp.inputTypes])
    have nonzero := run.defined (by simp)
    cases emitted
    cases evaluated
    simp [evaluates_binop_iff _ left right, BinOpcode.eval, Agrees, nonzero]

theorem signedDivision (run : Run ty ⟨op, dst, src⟩ bitSize vals expr result)
    (family : op ∈ [.idiv, .irem]) :
    Evaluates ty vals expr result ↔ Agrees ⟨op, dst, src⟩ bitSize vals := by
  obtain ⟨emitted, evaluated⟩ := And.intro run.emitted run.evaluated
  simp only [List.mem_cons, List.not_mem_nil, or_false] at family
  rcases family with rfl | rfl
  · obtain ⟨left, right⟩ := run.sources (by simp [AluOp.inputTypes])
    have nonzero := run.defined (by simp)
    have literal := run.literal (run.input 1 ⟨.int, 0⟩ rfl) nonzero
    simp only [emitAlu, literal, if_false, if_true, Option.some_inj] at emitted
    cases emitted
    cases evaluated
    rw [evaluates_binop_iff _ left right]
    by_cases overflow :
      (vals 0).read bitSize = BitVec.intMin bitSize ∧ (vals 1).read bitSize = -1#(bitSize)
    · simp [BinOpcode.eval, Agrees, overflow]
    · simp [BinOpcode.eval, Agrees, overflow, nonzero]
  · obtain ⟨left, right⟩ := run.sources (by simp [AluOp.inputTypes])
    have nonzero := run.defined (by simp)
    cases emitted
    cases evaluated
    rw [evaluates_binop_iff _ left right]
    by_cases overflow :
      (vals 0).read bitSize = BitVec.intMin bitSize ∧ (vals 1).read bitSize = -1#(bitSize)
    · simp [BinOpcode.eval, Agrees, overflow]
    · simp [BinOpcode.eval, Agrees, overflow, nonzero]

theorem modulo (run : Run ty ⟨.imod, dst, src⟩ bitSize vals expr result) :
    Evaluates ty vals expr result ↔ Agrees ⟨.imod, dst, src⟩ bitSize vals := by
  obtain ⟨emitted, evaluated⟩ := And.intro run.emitted run.evaluated
  obtain ⟨left, right⟩ := run.sources (by simp [AluOp.inputTypes])
  have nonzero := run.defined (by simp)
  cases emitted
  cases evaluated
  rw [evaluates_binop_iff _ left right, Nir.imod_eq_smod nonzero, BinOpcode.eval, if_neg nonzero,
    Option.some_inj, BitVector.umod_eq_smod_iff nonzero]
  rfl

theorem extremum (run : Run ty ⟨op, dst, src⟩ bitSize vals expr result)
    (family : op ∈ [.imax, .imin, .umax, .umin]) :
    Evaluates ty vals expr result ↔ Agrees ⟨op, dst, src⟩ bitSize vals := by
  obtain ⟨emitted, evaluated⟩ := And.intro run.emitted run.evaluated
  have output : dst = op.outputType.bitSizeAt bitSize := run.sized.output
  simp only [List.mem_cons, List.not_mem_nil, or_false] at family
  rcases family with rfl | rfl | rfl | rfl <;>
  · obtain ⟨left, right⟩ := run.sources (by simp [AluOp.inputTypes])
    obtain rfl : dst = bitSize := output
    obtain ⟨overload, found, emission⟩ := Option.bind_eq_some_iff.mp emitted
    obtain rfl : dst = overload := getOverload_eq found
    cases emission
    cases evaluated
    have signed := BitVector.ite_le_eq_ite_lt (fun _ _ => BitVec.eq_of_toInt_eq)
      ((vals 0).read dst) ((vals 1).read dst)
    have unsigned := BitVector.ite_le_eq_ite_lt (fun _ _ => BitVec.eq_of_toNat_eq)
      ((vals 0).read dst) ((vals 1).read dst)
    simp [evaluates_binaryCall_iff _ left right, binary, Agrees, Value.scalar, BitVec.sle,
      BitVec.slt, BitVec.ule, BitVec.ult, signed, unsigned]

theorem signedConversion (run : Run ty ⟨op, dst, src⟩ bitSize vals expr result)
    (family : op ∈ [.i2i1, .i2i16, .i2imp, .i2i32, .i2i64]) :
    Evaluates ty vals expr result ↔ Agrees ⟨op, dst, src⟩ bitSize vals := by
  obtain ⟨emitted, evaluated⟩ := And.intro run.emitted run.evaluated
  have output : dst = op.outputType.bitSizeAt bitSize := run.sized.output
  have cases' := family
  simp only [List.mem_cons, List.not_mem_nil, or_false] at family
  rcases family with rfl | rfl | rfl | rfl | rfl <;>
  · cases output
    cases emitted
    cases evaluated
    exact evaluates_emitCast_signed cases' (run.input 0 _ rfl) (run.source 0 _ rfl (.inl rfl))

theorem unsignedConversion (run : Run ty ⟨op, dst, src⟩ bitSize vals expr result)
    (family : op ∈ [.u2u1, .u2u16, .u2u32, .u2u64]) :
    Evaluates ty vals expr result ↔ Agrees ⟨op, dst, src⟩ bitSize vals := by
  obtain ⟨emitted, evaluated⟩ := And.intro run.emitted run.evaluated
  have output : dst = op.outputType.bitSizeAt bitSize := run.sized.output
  have cases' := family
  simp only [List.mem_cons, List.not_mem_nil, or_false] at family
  rcases family with rfl | rfl | rfl | rfl <;>
  · cases output
    cases emitted
    cases evaluated
    exact evaluates_emitCast_unsigned cases' (run.input 0 _ rfl) (run.source 0 _ rfl (.inr rfl))

theorem shift (run : Run ty ⟨op, dst, src⟩ bitSize vals expr result)
    (family : op ∈ [.ishl, .ishr, .ushr]) :
    Evaluates ty vals expr result ↔ Agrees ⟨op, dst, src⟩ bitSize vals := by
  obtain ⟨emitted, evaluated⟩ := And.intro run.emitted run.evaluated
  have size : bitSize ∈ op.bitSizes := run.sized.mem
  have sizes : bitSize ∈ [1, 8, 16, 32, 64] := by
    simp only [List.mem_cons, List.not_mem_nil, or_false] at family
    rcases family with rfl | rfl | rfl <;> exact size
  have positive : 0 < bitSize := by
    simp only [List.mem_cons, List.not_mem_nil, or_false] at sizes
    omega
  -- The count of NIR is taken modulo eight for a boolean, the emitted one modulo one.
  have counts : bitSize ≠ 1 → Nir.sizeofBits bitSize = bitSize := fun wide => if_neg wide
  simp only [List.mem_cons, List.not_mem_nil, or_false] at family
  rcases family with rfl | rfl | rfl <;>
  · obtain ⟨y, count, shifted⟩ := evaluates_emitShift _ sizes (run.input 0 _ rfl)
      (run.input 1 _ rfl) run.operands (run.unsized 0 _ rfl (by decide))
      (run.word 1 _ rfl (by decide))
    have inside : y.toNat < bitSize := count ▸ Nat.mod_lt _ positive
    cases emitted
    cases evaluated
    rw [shifted]
    simp only [BinOpcode.eval, if_pos inside, Option.some_inj]
    rw [count, Nir.shiftCount_eq sizes]
    by_cases single : bitSize = 1
    · subst single
      simp [Agrees, Nat.mod_one, Nir.sizeofBits, BitVector.shiftLeft_one_eq_iff,
        BitVector.ushiftRight_one_eq_iff, BitVector.sshiftRight_one]
    · simp [Agrees, single, counts single]

/-- The loops over the bits compute what the intrinsics return. -/
theorem bitScan (run : Run ty ⟨op, dst, src⟩ bitSize vals expr result)
    (family : op ∈ [.bitCount, .bitfieldReverse, .ufindMsbRev, .ifindMsbRev, .findLsb]) :
    Evaluates ty vals expr result ↔ Agrees ⟨op, dst, src⟩ bitSize vals := by
  obtain ⟨emitted, evaluated⟩ := And.intro run.emitted run.evaluated
  have size : bitSize ∈ op.bitSizes := run.sized.mem
  simp only [List.mem_cons, List.not_mem_nil, or_false] at family
  rcases family with rfl | rfl | rfl | rfl | rfl
  · obtain ⟨overload, found, emission⟩ := Option.bind_eq_some_iff.mp emitted
    obtain rfl : bitSize = overload := (run.input 0 _ rfl).symm.trans (getOverload_eq found)
    cases emission
    cases evaluated
    rw [evaluates_unaryCall_iff _ (run.unsized 0 _ rfl (by decide)), BitVector.foldl_count_width]
    simp [unary, Value.scalar, Agrees]
  · obtain ⟨overload, found, emission⟩ := Option.bind_eq_some_iff.mp emitted
    obtain rfl : bitSize = overload := (run.input 0 _ rfl).symm.trans (getOverload_eq found)
    cases emission
    cases evaluated
    rw [evaluates_unaryCall_iff _ (run.unsized 0 _ rfl (by decide)), BitVector.foldl_mirror]
    simp [unary, Value.scalar, Agrees]
  · obtain ⟨overload, found, emission⟩ := Option.bind_eq_some_iff.mp emitted
    obtain rfl : bitSize = overload := (run.input 0 _ rfl).symm.trans (getOverload_eq found)
    cases emission
    cases evaluated
    obtain rfl : bitSize = 32 := List.mem_singleton.mp size
    have scan : BitVector.firstBit 32 (fun bit =>
        (((vals 0).read 32).setWidth 64 <<< bit).getLsbD 31) = firstbitHi ((vals 0).read 32) := by
      rw [firstbitHi, ← BitVector.firstBit_getMsbD]
      apply BitVector.firstBit_congr
      intro bit inside
      exact BitVector.getLsbD_shiftLeft_top _ inside 64 (by decide)
    rw [evaluates_unaryCall_iff _ (run.unsized 0 _ rfl (by decide)), scan]
    simp [unary, Value.scalar, Agrees]
  · obtain ⟨overload, found, emission⟩ := Option.bind_eq_some_iff.mp emitted
    obtain rfl : 32 = overload := (run.input 0 _ rfl).symm.trans (getOverload_eq found)
    cases emission
    cases evaluated
    have scan := BitVector.firstBit_sign ((vals 0).read 32)
    rw [BitVector.firstBit_getMsbD] at scan
    rw [evaluates_unaryCall_iff _ (run.word 0 _ rfl (by decide)), scan]
    simp [unary, Value.scalar, Agrees, firstbitHi]
  · obtain ⟨overload, found, emission⟩ := Option.bind_eq_some_iff.mp emitted
    obtain rfl : bitSize = overload := (run.input 0 _ rfl).symm.trans (getOverload_eq found)
    cases emission
    cases evaluated
    rw [evaluates_unaryCall_iff _ (run.unsized 0 _ rfl (by decide)), BitVector.firstBit_getLsbD]
    simp [unary, Value.scalar, Agrees, firstbitLo]

theorem copy (run : Run ty ⟨.mov, dst, src⟩ bitSize vals expr result) :
    Evaluates ty vals expr result ↔ Agrees ⟨.mov, dst, src⟩ bitSize vals := by
  obtain ⟨emitted, evaluated⟩ := And.intro run.emitted run.evaluated
  have size : (vals 0).bitSize = bitSize :=
    (run.operands.bitSize 0).trans (run.input 0 ⟨.uint, 0⟩ rfl)
  have width : (ty 0).bits = (vals 0).bitSize :=
    (run.typed 0).trans (run.operands.bitSize 0).symm
  cases emitted
  cases evaluated
  simp [Evaluates, Expr.eval, env, Agrees, Value.scalar_ofScalar width,
    ← Scalar.eq_mk_read size]

theorem boolean (run : Run ty ⟨op, dst, src⟩ bitSize vals expr result)
    (family : op ∈ [.b2i16, .b2i32, .b2i64]) :
    Evaluates ty vals expr result ↔ Agrees ⟨op, dst, src⟩ bitSize vals := by
  obtain ⟨emitted, evaluated⟩ := And.intro run.emitted run.evaluated
  have output : dst = op.outputType.bitSizeAt bitSize := run.sized.output
  have size : bitSize ∈ op.bitSizes := run.sized.mem
  simp only [List.mem_cons, List.not_mem_nil, or_false] at family
  rcases family with rfl | rfl | rfl <;>
  · obtain rfl : bitSize = 1 := List.mem_singleton.mp size
    have operand := eval_getSrc_bool vals run.typed (run.input 0 ⟨.bool, 0⟩ rfl)
    cases output
    cases emitted
    cases evaluated
    simp only [Evaluates, Expr.eval, emitCast, getAluSrc, AluOp.inputTypes, List.getElem?_cons_zero,
      operand, getCastOp]
    simp [AluOp.outputType, AluType.bitSizeAt, CastOpcode.eval, Agrees, Value.scalar]

theorem selection (run : Run ty ⟨.bcsel, dst, src⟩ bitSize vals expr result) :
    Evaluates ty vals expr result ↔ Agrees ⟨.bcsel, dst, src⟩ bitSize vals := by
  obtain ⟨emitted, evaluated⟩ := And.intro run.emitted run.evaluated
  have size1 : (src 1).bitSize = bitSize := run.input 1 ⟨.uint, 0⟩ rfl
  have size2 : (src 2).bitSize = bitSize := run.input 2 ⟨.uint, 0⟩ rfl
  have width1 : (ty 1).bits = (vals 1).bitSize :=
    (run.typed 1).trans (run.operands.bitSize 1).symm
  have width2 : (ty 1).bits = (vals 2).bitSize := by
    rw [run.typed 1, run.operands.bitSize 2]
    exact size1.trans size2.symm
  have condition := eval_getSrc_bool vals run.typed (run.input 0 ⟨.bool, 1⟩ rfl)
  have second := eval_getSrc_like run.typed run.operands
    (width2.trans (run.operands.bitSize 2))
  have value1 := Scalar.eq_mk_read ((run.operands.bitSize 1).trans size1)
  have value2 := Scalar.eq_mk_read ((run.operands.bitSize 2).trans size2)
  cases emitted
  cases evaluated
  simp only [Evaluates, Expr.eval, condition, second, Option.bind_eq_bind, Option.bind_some, select,
    Value.asInt_int, env, Value.ty_ofScalar, if_true]
  by_cases taken : (vals 0).read 1 = 1#1
  · simp [taken, Agrees, Value.scalar_ofScalar width1, ← value1]
  · simp [taken, Agrees, Value.scalar_ofScalar width2, ← value2]

/-- The mask of the intrinsic is that of the opcode, while the width fits in five bits. -/
theorem insertBits_eq {base insert offset width : BitVec 32} (narrow : width.toNat < 32)
    (inside : offset.toNat < 32) :
    insertBits width offset insert base =
      (base &&& ~~~(((1#64 <<< width.toNat) - 1#64) <<< offset.toNat).setWidth 32) |||
        ((insert <<< offset.toNat) &&&
          (((1#64 <<< width.toNat) - 1#64) <<< offset.toNat).setWidth 32) := by
  have mask := @BitVector.setWidth_lowMask_shiftLeft 32 64 _ offset.toNat narrow (by decide)
  rw [mask, insertBits, Nat.mod_eq_of_lt narrow, Nat.mod_eq_of_lt inside, BitVec.or_comm]

theorem and_ones (word : BitVec 32) : word &&& 4294967295#32 = word := BitVec.and_allOnes

theorem evaluate_bitfieldInsert
    (evaluated : AluOp.evaluate .bitfieldInsert 32 vals = some result) :
    result = ⟨32, if 32 ≤ ((vals 3).read 32).toInt then (vals 1).read 32 else
      insertBits ((vals 3).read 32) ((vals 2).read 32) ((vals 1).read 32)
        ((vals 0).read 32)⟩ := by
  simp only [AluOp.evaluate, BitVec.setWidth_eq] at evaluated
  generalize (vals 0).read 32 = base at evaluated ⊢
  generalize (vals 1).read 32 = insert at evaluated ⊢
  generalize (vals 2).read 32 = offset at evaluated ⊢
  generalize (vals 3).read 32 = width at evaluated ⊢
  have offsetCond := BitVec.toInt_eq_toNat_cond offset
  have widthCond := BitVec.toInt_eq_toNat_cond width
  split at evaluated
  next none =>
    cases evaluated
    have zero : width.toNat = 0 := by
      split at widthCond <;> omega
    simp [none, insertBits, zero, and_ones]
  next some =>
    split at evaluated
    next => cases evaluated
    next inside =>
      cases evaluated
      simp only [not_or, Int.not_lt] at inside
      obtain ⟨offsetPos, widthPos, sum⟩ := inside
      have offsetNat : offset.toInt = offset.toNat := by
        split at offsetCond <;> omega
      have widthNat : width.toInt = width.toNat := by
        split at widthCond <;> omega
      rw [offsetNat, widthNat, Int.toNat_natCast, Int.toNat_natCast]
      by_cases whole : 32 ≤ width.toNat
      · have all : width.toNat = 32 := by omega
        have start : offset.toNat = 0 := by omega
        simp [all, start, and_ones]
      · rw [if_neg (by omega), insertBits_eq (by omega) (by omega)]

theorem bitfieldInsert (run : Run ty ⟨.bitfieldInsert, dst, src⟩ bitSize vals expr result) :
    Evaluates ty vals expr result ↔ Agrees ⟨.bitfieldInsert, dst, src⟩ bitSize vals := by
  obtain ⟨emitted, evaluated⟩ := And.intro run.emitted run.evaluated
  have base := run.unsized 0 .uint rfl (.inr rfl)
  have insert := run.unsized 1 .uint rfl (.inr rfl)
  have offset := run.word 2 .int rfl (.inl rfl)
  have width := run.word 3 .int rfl (.inl rfl)
  cases emitted
  by_cases word : bitSize = 32
  · subst word
    have value : (emitBitfieldInsert (getAluSrc ty ⟨.bitfieldInsert, dst, src⟩ 0)
        (getAluSrc ty ⟨.bitfieldInsert, dst, src⟩ 1) (getAluSrc ty ⟨.bitfieldInsert, dst, src⟩ 2)
        (getAluSrc ty ⟨.bitfieldInsert, dst, src⟩ 3)).eval (env ty vals) =
        some (.int 32 (if 32 ≤ ((vals 3).read 32).toInt then (vals 1).read 32 else
          insertBits ((vals 3).read 32) ((vals 2).read 32) ((vals 1).read 32)
            ((vals 0).read 32))) := by
      by_cases whole : 32 ≤ ((vals 3).read 32).toInt
      · simp [emitBitfieldInsert, Expr.eval, base, insert, offset, width, quaternary, cmp, select,
          CmpPred.eval, BitVec.sle, whole, Value.ty]
      · simp [emitBitfieldInsert, Expr.eval, base, insert, offset, width, quaternary, cmp, select,
          CmpPred.eval, BitVec.sle, whole, Value.ty]
    have same := evaluate_bitfieldInsert evaluated
    simp [Evaluates, value, same, Agrees, Value.scalar]
  · have untyped : (emitBitfieldInsert (getAluSrc ty ⟨.bitfieldInsert, dst, src⟩ 0)
        (getAluSrc ty ⟨.bitfieldInsert, dst, src⟩ 1) (getAluSrc ty ⟨.bitfieldInsert, dst, src⟩ 2)
        (getAluSrc ty ⟨.bitfieldInsert, dst, src⟩ 3)).eval (env ty vals) = none := by
      simp [emitBitfieldInsert, Expr.eval, base, insert, offset, width, quaternary,
        Value.asInt_of_ne _ word]
    simp [Evaluates, untyped, Agrees, word]

end Run

/-- The emitted expression has NIR's value exactly on the operands that agree. -/
theorem evaluates_emitAlu_iff {ty : Nat → Ty} {alu : AluInstr} {bitSize : Nat}
    {vals : Nat → Scalar} {expr : Expr} {result : Scalar} (sized : alu.Sized bitSize)
    (typed : Typed ty alu) (operands : alu.Operands vals)
    (defined : AluInstr.Defined alu.op bitSize vals) (emitted : emitAlu ty alu = some expr)
    (evaluated : alu.op.evaluate bitSize vals = some result) :
    Evaluates ty vals expr result ↔ Agrees alu bitSize vals := by
  have run : Run ty alu bitSize vals expr result :=
    ⟨sized, typed, operands, defined, emitted, evaluated⟩
  obtain ⟨op, dst, src⟩ := alu
  cases op with
  | iadd | isub | imul | iand | ior | ixor => exact run.arithmetic (by simp)
  | ieq | ine | ige | uge | ilt | ult => exact run.comparison (by simp)
  | udiv | umod => exact run.unsignedDivision (by simp)
  | idiv | irem => exact run.signedDivision (by simp)
  | imod => exact run.modulo
  | imax | imin | umax | umin => exact run.extremum (by simp)
  | ishl | ishr | ushr => exact run.shift (by simp)
  | i2i1 | i2i16 | i2imp | i2i32 | i2i64 => exact run.signedConversion (by simp)
  | u2u1 | u2u16 | u2u32 | u2u64 => exact run.unsignedConversion (by simp)
  | inot => exact run.complement
  | bitCount | bitfieldReverse | ufindMsbRev | ifindMsbRev | findLsb =>
      exact run.bitScan (by simp)
  | b2i16 | b2i32 | b2i64 => exact run.boolean (by simp)
  | bitfieldInsert => exact run.bitfieldInsert
  | bcsel => exact run.selection
  | mov => exact run.copy

/-- Both operands of a 32-bit operation, neither of them constant. -/
def wordInstr (op : AluOp) : AluInstr := ⟨op, 32, fun _ => ⟨32, none⟩⟩

def wordVals (src0 src1 : BitVec 32) (i : Nat) : Scalar := ⟨32, if i = 0 then src0 else src1⟩

theorem wordInstr_sized : (wordInstr .imod).Sized 32 where
  mem := by decide
  output := rfl
  input := by
    intro i bound
    have two : i = 0 ∨ i = 1 := by
      have length : i < 2 := bound
      omega
    rcases two with rfl | rfl <;> rfl

theorem wordVals_operands (src0 src1 : BitVec 32) :
    (wordInstr .imod).Operands (wordVals src0 src1) where
  bitSize _ := rfl
  const _ _ literal := nomatch literal

theorem evaluates_imod_seven_three :
    Evaluates (fun _ => .int 32) (wordVals 7#32 3#32) (.binop .urem (.src 0) (.src 1)) ⟨32, 1#32⟩ :=
  (evaluates_emitAlu_iff wordInstr_sized (fun _ => rfl) (wordVals_operands 7#32 3#32)
    (fun _ => by decide) rfl rfl).mpr (.inr (.inr ⟨by decide, .inl (by decide)⟩))

/-- Minus seven modulo three is two, and the unsigned remainder is zero. -/
theorem not_evaluates_imod :
    (wordInstr .imod).Sized 32 ∧ (wordInstr .imod).Operands (wordVals (-7#32) 3#32) ∧
      AluInstr.Defined .imod 32 (wordVals (-7#32) 3#32) ∧
      emitAlu (fun _ => .int 32) (wordInstr .imod) = some (.binop .urem (.src 0) (.src 1)) ∧
      AluOp.evaluate .imod 32 (wordVals (-7#32) 3#32) = some ⟨32, 2#32⟩ ∧
      ¬Evaluates (fun _ => .int 32) (wordVals (-7#32) 3#32)
        (.binop .urem (.src 0) (.src 1)) ⟨32, 2#32⟩ := by
  refine ⟨wordInstr_sized, wordVals_operands _ _, fun _ => by decide, rfl, by decide, ?_⟩
  unfold Evaluates
  decide

end SpirvToDxil.Dxil.Alu
