import SpirvToDxil.Util.Narrowing
import Mathlib.Data.Rat.Floor
import Mathlib.Tactic.Linarith
import Mathlib.Tactic.NormNum

/-!
# Casts through integers that are not supported

A script generates the rules that replace a conversion to a small integer and back by masks, shifts
and limits.
-/

namespace SpirvToDxil

namespace UnsupportedCasts

/-- The letters in the name of a conversion. -/
inductive Kind where
  | u
  | i
  | f
  deriving DecidableEq, Repr

/-- A conversion, such as `u2f32`. -/
structure Conv where
  src : Kind
  dst : Kind
  size : Nat
  deriving DecidableEq, Repr

inductive Expr where
  /-- `a` or, of one size, `a@32` -/
  | a (size : Option Nat)
  | conv (op : Conv) (e : Expr)
  | iand (e : Expr) (mask : Nat)
  | ishl (e : Expr) (shift : Nat)
  | ishr (e : Expr) (shift : Nat)
  | fmin (e : Expr) (limit : ℚ)
  | fmax (e : Expr) (limit : ℚ)
  deriving DecidableEq

structure Rule where
  pattern : Expr
  replacement : Expr
  deriving DecidableEq

section Generator

variable (bitSize mask : Nat) (maxUnsignedFloat minSignedFloat maxSignedFloat : ℚ)

/-- The sizes that are not the one to get rid of. -/
def otherSizes : List Nat := [16, 32, 64].filter fun size => size ≠ bitSize

/-- Mask or sign-extend, as the outer conversion is of unsigned or signed values. -/
def truncated (outerOp : Conv) (e : Expr) (size : Nat) : Expr :=
  if outerOp.src = .u then .iand e mask
  else .ishr (.ishl e (size - bitSize)) (size - bitSize)

/-- A rule for sources that are integers. -/
def integerRule (outerOp innerOp : Conv) (srcSz : Nat) : Rule where
  pattern := .conv outerOp (.conv innerOp (.a (some srcSz)))
  replacement :=
    let newSeq := truncated bitSize mask outerOp (.a none) srcSz
    -- make sure the destination is the right type and size
    if outerOp.size ≠ srcSz ∨ outerOp.dst ≠ innerOp.src then .conv outerOp newSeq else newSeq

/-- A rule from floats to floats. -/
def floatRule (outerOp innerOp : Conv) (srcSz : Nat) : Rule where
  pattern := .conv outerOp (.conv innerOp (.a (some srcSz)))
  replacement :=
    let newSeq :=
      if outerOp.src = .u then .fmin (.fmax (.a none) 0) maxUnsignedFloat
      else .fmin (.fmax (.a none) minSignedFloat) maxSignedFloat
    if outerOp.size ≠ srcSz then .conv ⟨.f, .f, outerOp.size⟩ newSeq else newSeq

/-- A rule from floats to integers: they are converted first, and then truncated. -/
def floatToIntegerRule (outerOp innerOp : Conv) : Rule where
  pattern := .conv outerOp (.conv innerOp (.a none))
  replacement :=
    truncated bitSize mask outerOp (.conv ⟨.f, innerOp.dst, outerOp.size⟩ (.a none)) outerOp.size

def removeUnsupportedCasts : List Rule :=
  [(Kind.u, Kind.u), (.i, .i), (.u, .f), (.i, .f)].flatMap fun (src, dst) =>
    (otherSizes bitSize).flatMap fun outerSz =>
      let outerOp : Conv := ⟨src, dst, outerSz⟩
      ([Kind.u, .i].flatMap fun inner =>
        (otherSizes bitSize).map (integerRule bitSize mask outerOp ⟨inner, inner, bitSize⟩)) ++
      [Kind.u, .i].flatMap fun inner =>
        let innerOp : Conv := ⟨.f, inner, bitSize⟩
        if dst = .f then
          (otherSizes bitSize).map
            (floatRule maxUnsignedFloat minSignedFloat maxSignedFloat outerOp innerOp)
        else [floatToIntegerRule bitSize mask outerOp innerOp]

end Generator

def no8bitConv : List Rule := removeUnsupportedCasts 8 0xff 255 (-128) 127

def no16bitConv : List Rule := removeUnsupportedCasts 16 0xffff 65535 (-32768) 32767

section Meaning

/-- Integers have their bits, floats are numbers. -/
inductive Value where
  | int (size : Nat) (bits : BitVec size)
  | float (size : Nat) (number : ℚ)
  deriving DecidableEq

/-- Towards zero. -/
def trunc (x : ℚ) : ℤ := if 0 ≤ x then ⌊x⌋ else ⌈x⌉

def InRange (kind : Kind) (size : Nat) (t : ℤ) : Prop :=
  match kind with
  | .u => 0 ≤ t ∧ t < 2 ^ size
  | .i => -2 ^ (size - 1) ≤ t ∧ t < 2 ^ (size - 1)
  | .f => False

instance (kind : Kind) (size : Nat) (t : ℤ) : Decidable (InRange kind size t) :=
  match kind with
  | .u | .i => inferInstanceAs (Decidable (_ ∧ _))
  | .f => inferInstanceAs (Decidable False)

/-- A float is converted to an integer only where the result is one. -/
def Conv.eval (op : Conv) : Value → Option Value
  | .int _ bits =>
    match op.src, op.dst with
    | .u, .u => some (.int op.size (bits.setWidth op.size))
    | .i, .i => some (.int op.size (bits.signExtend op.size))
    | .u, .f => some (.float op.size bits.toNat)
    | .i, .f => some (.float op.size bits.toInt)
    | _, _ => none
  | .float _ number =>
    match op.src, op.dst with
    | .f, .f => some (.float op.size number)
    | .f, kind =>
      if InRange kind op.size (trunc number) then
        some (.int op.size (BitVec.ofInt op.size (trunc number)))
      else none
    | _, _ => none

def Value.size : Value → Nat
  | int size _ | float size _ => size

def Expr.eval (source : Value) : Expr → Option Value
  | a size => if size.all (· = source.size) then some source else none
  | conv op e => e.eval source >>= op.eval
  | iand e mask =>
    match e.eval source with
    | some (.int size bits) => some (.int size (bits &&& BitVec.ofNat size mask))
    | _ => none
  | ishl e shift =>
    match e.eval source with
    | some (.int size bits) => some (.int size (bits <<< (shift % size)))
    | _ => none
  | ishr e shift =>
    match e.eval source with
    | some (.int size bits) => some (.int size (bits.sshiftRight (shift % size)))
    | _ => none
  | fmin e limit =>
    match e.eval source with
    | some (.float size number) => some (.float size (min number limit))
    | _ => none
  | fmax e limit =>
    match e.eval source with
    | some (.float size number) => some (.float size (max number limit))
    | _ => none

/-- The values of which the result of the inner conversion is defined. -/
def Rule.Defined (rule : Rule) (source : Value) : Prop :=
  match rule.pattern with
  | .conv _ inner => (inner.eval source).isSome
  | _ => False

/-- The limits of the small integers, by the sign of the outer conversion. -/
def lowest (kind : Kind) (bitSize : Nat) : ℤ := if kind = .u then 0 else -2 ^ (bitSize - 1)

def highest (kind : Kind) (bitSize : Nat) : ℤ :=
  if kind = .u then 2 ^ bitSize - 1 else 2 ^ (bitSize - 1) - 1

/-- From floats to floats, the number has to be whole, or outside of the limits, and its whole part
within the range of the outer conversion. -/
def Rule.Exact (rule : Rule) (source : Value) : Prop :=
  match rule.pattern, source with
  | .conv outer (.conv inner _), .float _ number =>
    outer.dst = .f →
      InRange outer.src inner.size (trunc number) ∧
        (number = trunc number ∨ number < lowest outer.src inner.size ∨
          highest outer.src inner.size < number)
  | _, _ => True

end Meaning

section Integers

variable {bitSize mask : Nat} {source : Value}

def extended (kind : Kind) (bits : BitVec bitSize) (size : Nat) : BitVec size :=
  if kind = .u then bits.setWidth size else bits.signExtend size

theorem Conv.eval_extended {op : Conv} {size : Nat} (bits : BitVec bitSize)
    (srcKind : op.src = .u ∨ op.src = .i) (wide : bitSize ≤ size) :
    op.eval (.int size (extended op.src bits size)) = op.eval (.int bitSize bits) := by
  obtain ⟨src, dst, opSize⟩ := op
  dsimp only at srcKind
  rcases srcKind with rfl | rfl
  · have toNat : (bits.setWidth size).toNat = bits.toNat :=
      BitVec.toNat_setWidth_of_le wide
    have again : (bits.setWidth size).setWidth opSize = bits.setWidth opSize :=
      BitVec.setWidth_setWidth (by omega)
    cases dst <;> simp [eval, extended, toNat, again]
  · have toInt := BitVec.toInt_signExtend_of_le (x := bits) wide
    have again := Narrowing.signExtend_signExtend bits wide opSize
    cases dst <;> simp [eval, extended, toInt, again]

theorem truncated_eval {outerOp : Conv} {e : Expr} {size : Nat} {bits : BitVec size}
    (positive : 0 < bitSize) (wide : bitSize ≤ size) (isMask : mask = 2 ^ bitSize - 1)
    (value : e.eval source = some (.int size bits)) :
    (truncated bitSize mask outerOp e size).eval source =
      some (.int size (extended outerOp.src (bits.setWidth bitSize) size)) := by
  have shift : (size - bitSize) % size = size - bitSize := Nat.mod_eq_of_lt (by omega)
  rw [truncated, extended]
  split
  next => rw [Expr.eval, value, isMask, ← Narrowing.and_mask]
  next =>
    simp only [Expr.eval, value, shift]
    rw [Narrowing.sshiftRight_shiftLeft bits positive wide]

/-- Conversions of integers are not defined on floats. -/
theorem not_integerRule_defined {outerOp innerOp : Conv} {srcSz size : Nat} {number : ℚ}
    (innerKind : innerOp = ⟨.u, .u, bitSize⟩ ∨ innerOp = ⟨.i, .i, bitSize⟩) :
    ¬ (integerRule bitSize mask outerOp innerOp srcSz).Defined (.float size number) := by
  have inner : innerOp.eval (.float size number) = none := by
    rcases innerKind with rfl | rfl <;> rfl
  have undefined : (Expr.conv innerOp (.a (some srcSz))).eval (.float size number) = none := by
    rw [Expr.eval, Expr.eval]
    split
    next => exact inner
    next => rfl
  simp [Rule.Defined, integerRule, undefined]

theorem integerRule_sound {outerOp innerOp : Conv} {srcSz : Nat} (positive : 0 < bitSize)
    (wide : bitSize ≤ srcSz) (isMask : mask = 2 ^ bitSize - 1)
    (srcKind : outerOp.src = .u ∨ outerOp.src = .i)
    (dstKind : outerOp.dst = outerOp.src ∨ outerOp.dst = .f)
    (innerKind : innerOp = ⟨.u, .u, bitSize⟩ ∨ innerOp = ⟨.i, .i, bitSize⟩)
    (defined : (integerRule bitSize mask outerOp innerOp srcSz).Defined source) :
    (integerRule bitSize mask outerOp innerOp srcSz).replacement.eval source =
      (integerRule bitSize mask outerOp innerOp srcSz).pattern.eval source := by
  cases source with
  | float size number =>
      exact absurd defined (not_integerRule_defined innerKind)
  | int size bits =>
      obtain rfl : size = srcSz := by
        by_contra differ
        simp [Rule.Defined, integerRule, Expr.eval, Value.size, Ne.symm differ] at defined
      have inner : innerOp.eval (.int size bits) = some (.int bitSize (bits.setWidth bitSize)) := by
        rcases innerKind with rfl | rfl
        · rfl
        · simp [Conv.eval, BitVec.signExtend_eq_setWidth_of_le bits wide]
      have pattern : (integerRule bitSize mask outerOp innerOp size).pattern.eval (.int size bits) =
          outerOp.eval (.int bitSize (bits.setWidth bitSize)) := by
        simp [integerRule, Expr.eval, Value.size, inner]
      have narrowed : (truncated bitSize mask outerOp (.a none) size).eval (.int size bits) =
          some (.int size (extended outerOp.src (bits.setWidth bitSize) size)) :=
        truncated_eval positive wide isMask rfl
      rw [pattern, integerRule]
      dsimp only
      split
      next =>
        rw [Expr.eval, narrowed]
        exact Conv.eval_extended _ srcKind wide
      next same =>
        push Not at same
        obtain ⟨rfl, sameKind⟩ := same
        have notFloat : outerOp.dst ≠ .f := by
          rcases innerKind with rfl | rfl <;> simp [sameKind]
        have sameDst := dstKind.resolve_right notFloat
        rw [narrowed]
        rcases srcKind with isU | isI
        · simp [Conv.eval, sameDst, isU, extended]
        · simp [Conv.eval, sameDst, isI, extended]

end Integers

section Floats

variable {bitSize mask : Nat} {source : Value}

theorem trunc_spec (x : ℚ) :
    0 ≤ x ∧ 0 ≤ trunc x ∧ (trunc x : ℚ) ≤ x ∧ x < trunc x + 1 ∨
      x < 0 ∧ trunc x ≤ 0 ∧ x ≤ trunc x ∧ (trunc x : ℚ) < x + 1 := by
  rw [trunc]
  split
  next nonneg => exact .inl ⟨nonneg, Int.floor_nonneg.mpr nonneg, Int.floor_le x,
    Int.lt_floor_add_one x⟩
  next negative =>
    have below := not_le.mp negative
    exact .inr ⟨below, Int.ceil_le.mpr (by simpa using below.le), Int.le_ceil x,
      Int.ceil_lt_add_one x⟩

/-- The limits give the whole part only for whole numbers, or beyond them. -/
theorem clamp_eq_trunc_iff {x : ℚ} {lo hi : ℤ} (above : lo ≤ trunc x) (below : trunc x ≤ hi) :
    min (max x lo) hi = trunc x ↔ x = trunc x ∨ x < lo ∨ (hi : ℚ) < x := by
  have above' : (lo : ℚ) ≤ trunc x := Int.cast_le.mpr above
  have below' : (trunc x : ℚ) ≤ hi := Int.cast_le.mpr below
  constructor
  · intro same
    by_contra neither
    push Not at neither
    obtain ⟨notWhole, notLess, notMore⟩ := neither
    rw [max_eq_left notLess, min_eq_left notMore] at same
    exact notWhole same
  · rintro (whole | less | more)
    · rw [max_eq_left (by linarith), min_eq_left (by linarith)]
      exact whole
    · rcases trunc_spec x with ⟨-, -, atMost, -⟩ | ⟨-, -, -, near⟩
      · linarith
      · have isLo : trunc x = lo := by
          have : (trunc x : ℚ) < lo + 1 := by linarith
          have : trunc x < lo + 1 := by exact_mod_cast this
          omega
        rw [max_eq_right less.le, isLo, min_eq_left (Int.cast_le.mpr (isLo ▸ below))]
    · rcases trunc_spec x with ⟨-, -, -, near⟩ | ⟨-, -, atLeast, -⟩
      · have isHi : trunc x = hi := by
          have : (hi : ℚ) < trunc x + 1 := by linarith
          have : hi < trunc x + 1 := by exact_mod_cast this
          omega
        rw [max_eq_left (by linarith), isHi, min_eq_right more.le]
      · linarith

theorem two_pow_pred {b : Nat} (positive : 0 < b) : (2 : ℤ) ^ b = 2 * 2 ^ (b - 1) := by
  rw [← pow_succ', Nat.sub_add_cancel positive]

/-- What a conversion to float sees in the bits of a whole number. -/
theorem bits_value {b : Nat} (positive : 0 < b) {t : ℤ} (low : -2 ^ (b - 1) ≤ t)
    (high : t < 2 ^ b) :
    ((BitVec.ofInt b t).toNat : ℤ) = (if 0 ≤ t then t else t + 2 ^ b) ∧
      (BitVec.ofInt b t).toInt = if t < 2 ^ (b - 1) then t else t - 2 ^ b := by
  have power := two_pow_pred positive
  have unitPos : (0 : ℤ) < 2 ^ (b - 1) := by positivity
  have toNat : ((BitVec.ofInt b t).toNat : ℤ) = t % 2 ^ b := by
    rw [BitVec.toNat_ofInt, Int.toNat_of_nonneg (Int.emod_nonneg _ (by positivity))]
    push_cast
    rfl
  have value : ((BitVec.ofInt b t).toNat : ℤ) = if 0 ≤ t then t else t + 2 ^ b := by
    rw [toNat]
    split
    next nonneg => exact Int.emod_eq_of_lt nonneg high
    next negative =>
      rw [← Int.add_emod_right, Int.emod_eq_of_lt (by omega) (by omega)]
  refine ⟨value, ?_⟩
  rw [BitVec.toInt_eq_toNat_cond]
  have cast : ((2 ^ b : Nat) : ℤ) = 2 ^ b := by push_cast; rfl
  split <;> split at value <;> split <;> omega

/-- The limits give what the outer conversion sees in just these cases. -/
theorem clamp_eq_iff {x : ℚ} {b : Nat} {kind : Kind} (positive : 0 < b)
    (isInteger : kind = .u ∨ kind = .i) (low : -2 ^ (b - 1) ≤ trunc x) (high : trunc x < 2 ^ b) :
    min (max x (lowest kind b)) (highest kind b) =
        (if kind = .u then ((BitVec.ofInt b (trunc x)).toNat : ℚ)
          else ((BitVec.ofInt b (trunc x)).toInt : ℚ)) ↔
      InRange kind b (trunc x) ∧
        (x = trunc x ∨ x < lowest kind b ∨ (highest kind b : ℚ) < x) := by
  have power := two_pow_pred positive
  have unitPos : (0 : ℤ) < 2 ^ (b - 1) := by positivity
  obtain ⟨unsigned, signed⟩ := bits_value positive low high
  by_cases inRange : InRange kind b (trunc x)
  · rw [and_iff_right inRange]
    rcases isInteger with rfl | rfl
    · obtain ⟨above, below⟩ := inRange
      rw [if_pos above] at unsigned
      have same : ((BitVec.ofInt b (trunc x)).toNat : ℚ) = trunc x := by exact_mod_cast unsigned
      rw [if_pos rfl, same]
      apply clamp_eq_trunc_iff
      · exact above
      · rw [highest, if_pos rfl]
        omega
    · obtain ⟨above, below⟩ := inRange
      rw [if_pos below] at signed
      rw [if_neg (by decide), signed]
      apply clamp_eq_trunc_iff
      · exact above
      · rw [highest, if_neg (by decide)]
        omega
  · refine iff_of_false ?_ fun both => inRange both.1
    rcases isInteger with rfl | rfl
    · -- a negative number has its limit at zero, and is great as an unsigned one
      have negative : trunc x < 0 := by
        by_contra nonneg
        exact inRange ⟨by omega, high⟩
      have below : x < 0 := by
        rcases trunc_spec x with ⟨-, nonneg, -⟩ | ⟨below, -⟩
        · omega
        · exact below
      rw [if_neg (by omega)] at unsigned
      have great : (0 : ℚ) < (BitVec.ofInt b (trunc x)).toNat := by
        have : 0 < ((BitVec.ofInt b (trunc x)).toNat : ℤ) := by omega
        exact_mod_cast this
      rw [if_pos rfl, lowest, if_pos rfl, max_eq_right (by exact_mod_cast below.le), Int.cast_zero]
      exact ((min_le_left _ _).trans_lt great).ne
    · -- a great number has its limit at the greatest signed one, and is negative as a signed one
      have great : 2 ^ (b - 1) ≤ trunc x := by
        by_contra less
        exact inRange ⟨low, by omega⟩
      have above : ((2 ^ (b - 1) : ℤ) : ℚ) ≤ x := by
        rcases trunc_spec x with ⟨-, -, atMost, -⟩ | ⟨-, atZero, -⟩
        · exact (Int.cast_le.mpr great).trans atMost
        · omega
      rw [if_neg (by omega)] at signed
      have negative : ((BitVec.ofInt b (trunc x)).toInt : ℚ) < 0 := by
        have : (BitVec.ofInt b (trunc x)).toInt < 0 := by omega
        exact_mod_cast this
      rw [if_neg (by decide), highest, if_neg (by decide)]
      refine (negative.trans_le (le_min ?_ ?_)).ne'
      · have unitNonneg : (0 : ℚ) ≤ ((2 ^ (b - 1) : ℤ) : ℚ) := by exact_mod_cast unitPos.le
        exact le_max_of_le_left (unitNonneg.trans above)
      · have limit : (0 : ℤ) ≤ 2 ^ (b - 1) - 1 := by omega
        exact_mod_cast limit

/-- A conversion of a float to an integer has a value where the integer is in range. -/
theorem eval_float_of_kind {innerOp : Conv}
    (innerKind : innerOp = ⟨.f, .u, bitSize⟩ ∨ innerOp = ⟨.f, .i, bitSize⟩) {size : Nat} {x : ℚ} :
    innerOp.eval (.float size x) =
      if InRange innerOp.dst bitSize (trunc x) then
        some (.int bitSize (BitVec.ofInt bitSize (trunc x)))
      else none := by
  rcases innerKind with rfl | rfl <;> rfl

/-- From floats to floats, the replacement is right in just these cases. -/
theorem floatRule_iff {outerOp innerOp : Conv} {srcSz : Nat} {maxUnsigned minSigned maxSigned : ℚ}
    (positive : 0 < bitSize) (isMaxUnsigned : maxUnsigned = highest .u bitSize)
    (isMinSigned : minSigned = lowest .i bitSize) (isMaxSigned : maxSigned = highest .i bitSize)
    (srcKind : outerOp.src = .u ∨ outerOp.src = .i) (dstKind : outerOp.dst = .f)
    (innerKind : innerOp = ⟨.f, .u, bitSize⟩ ∨ innerOp = ⟨.f, .i, bitSize⟩)
    (defined : (floatRule maxUnsigned minSigned maxSigned outerOp innerOp srcSz).Defined source) :
    (floatRule maxUnsigned minSigned maxSigned outerOp innerOp srcSz).replacement.eval source =
        (floatRule maxUnsigned minSigned maxSigned outerOp innerOp srcSz).pattern.eval source ↔
      (floatRule maxUnsigned minSigned maxSigned outerOp innerOp srcSz).Exact source := by
  cases source with
  | int size bits =>
      have undefined : (Expr.conv innerOp (.a (some srcSz))).eval (.int size bits) = none := by
        rw [Expr.eval, Expr.eval]
        split
        next => rcases innerKind with rfl | rfl <;> rfl
        next => rfl
      simp [Rule.Defined, floatRule, undefined] at defined
  | float size x =>
      obtain rfl : size = srcSz := by
        by_contra differ
        simp [Rule.Defined, floatRule, Expr.eval, Value.size, Ne.symm differ] at defined
      have isSize : innerOp.size = bitSize := by
        rcases innerKind with rfl | rfl <;> rfl
      have innerEval := @eval_float_of_kind bitSize innerOp innerKind size x
      have inRange : InRange innerOp.dst bitSize (trunc x) := by
        by_contra outside
        simp [Rule.Defined, floatRule, Expr.eval, Value.size, innerEval, outside] at defined
      rw [if_pos inRange] at innerEval
      have power := two_pow_pred positive
      have unitPos : (0 : ℤ) < 2 ^ (bitSize - 1) := by positivity
      obtain ⟨low, high⟩ : -2 ^ (bitSize - 1) ≤ trunc x ∧ trunc x < 2 ^ bitSize := by
        rcases innerKind with rfl | rfl
        · exact ⟨by have := inRange.1; omega, inRange.2⟩
        · exact ⟨inRange.1, by have := inRange.2; omega⟩
      have exact_ : (floatRule maxUnsigned minSigned maxSigned outerOp innerOp size).Exact
          (.float size x) ↔ InRange outerOp.src bitSize (trunc x) ∧
            (x = trunc x ∨ x < lowest outerOp.src bitSize ∨
              (highest outerOp.src bitSize : ℚ) < x) := by
        simp [Rule.Exact, floatRule, dstKind, isSize]
      rw [exact_, ← clamp_eq_iff positive srcKind low high]
      have pattern : (floatRule maxUnsigned minSigned maxSigned outerOp innerOp size).pattern.eval
          (.float size x) = some (.float outerOp.size
            (if outerOp.src = .u then ((BitVec.ofInt bitSize (trunc x)).toNat : ℚ)
              else ((BitVec.ofInt bitSize (trunc x)).toInt : ℚ))) := by
        have outerEval (bits : BitVec bitSize) : outerOp.eval (.int bitSize bits) =
            some (.float outerOp.size (if outerOp.src = .u then
              (bits.toNat : ℚ) else bits.toInt)) := by
          obtain ⟨src, dst, outerSize⟩ := outerOp
          rcases srcKind with rfl | rfl <;> cases dstKind <;> rfl
        simp [floatRule, Expr.eval, Value.size, innerEval, outerEval]
      have replacement : (floatRule maxUnsigned minSigned maxSigned outerOp innerOp
          size).replacement.eval (.float size x) = some (.float outerOp.size
            (min (max x (lowest outerOp.src bitSize)) (highest outerOp.src bitSize))) := by
        rw [floatRule]
        dsimp only
        rcases srcKind with isU | isI
        · by_cases same : outerOp.size = size
          · simp [same, isU, Expr.eval, isMaxUnsigned, lowest]
          · simp [same, isU, Expr.eval, Conv.eval, isMaxUnsigned, lowest]
        · by_cases same : outerOp.size = size
          · simp [same, isI, Expr.eval, isMinSigned, isMaxSigned]
          · simp [same, isI, Expr.eval, Conv.eval, isMinSigned, isMaxSigned]
      rw [pattern, replacement, Option.some_inj, Value.float.injEq, and_iff_right rfl]

theorem floatToIntegerRule_sound {outerOp innerOp : Conv} (positive : 0 < bitSize)
    (wide : bitSize ≤ outerOp.size) (isMask : mask = 2 ^ bitSize - 1)
    (srcKind : outerOp.src = .u ∨ outerOp.src = .i) (dstKind : outerOp.dst = outerOp.src)
    (innerKind : innerOp = ⟨.f, .u, bitSize⟩ ∨ innerOp = ⟨.f, .i, bitSize⟩)
    (defined : (floatToIntegerRule bitSize mask outerOp innerOp).Defined source) :
    (floatToIntegerRule bitSize mask outerOp innerOp).replacement.eval source =
      (floatToIntegerRule bitSize mask outerOp innerOp).pattern.eval source := by
  cases source with
  | int size bits =>
      have undefined : (Expr.conv innerOp (.a none)).eval (.int size bits) = none := by
        rcases innerKind with rfl | rfl <;> rfl
      simp [Rule.Defined, floatToIntegerRule, undefined] at defined
  | float size x =>
      have innerEval := @eval_float_of_kind bitSize innerOp innerKind size x
      have inRange : InRange innerOp.dst bitSize (trunc x) := by
        by_contra outside
        simp [Rule.Defined, floatToIntegerRule, Expr.eval, innerEval, outside] at defined
      rw [if_pos inRange] at innerEval
      have wideRange : InRange innerOp.dst outerOp.size (trunc x) := by
        have grows : (2 : ℤ) ^ bitSize ≤ 2 ^ outerOp.size := pow_le_pow_right₀ (by norm_num) wide
        have grows' : (2 : ℤ) ^ (bitSize - 1) ≤ 2 ^ (outerOp.size - 1) :=
          pow_le_pow_right₀ (by norm_num) (by omega)
        rcases innerKind with rfl | rfl
        · exact ⟨inRange.1, inRange.2.trans_le grows⟩
        · exact ⟨by have := inRange.1; omega, inRange.2.trans_le grows'⟩
      have floatConv : (Expr.conv ⟨.f, innerOp.dst, outerOp.size⟩ (.a none)).eval (.float size x) =
          some (.int outerOp.size (BitVec.ofInt outerOp.size (trunc x))) := by
        rcases innerKind with rfl | rfl <;> simp [Expr.eval, Conv.eval, wideRange]
      have pattern : (floatToIntegerRule bitSize mask outerOp innerOp).pattern.eval
          (.float size x) = some (.int outerOp.size
            (extended outerOp.src (BitVec.ofInt bitSize (trunc x)) outerOp.size)) := by
        have outerEval (bits : BitVec bitSize) : outerOp.eval (.int bitSize bits) =
            some (.int outerOp.size (extended outerOp.src bits outerOp.size)) := by
          obtain ⟨src, dst, outerSize⟩ := outerOp
          rcases srcKind with rfl | rfl <;> cases dstKind <;> rfl
        simp [floatToIntegerRule, Expr.eval, innerEval, outerEval]
      rw [pattern, floatToIntegerRule, truncated_eval positive wide isMask floatConv,
        Narrowing.setWidth_ofInt _ wide]

end Floats

section Rules

variable {source : Value}

/-- The rules for one size of integers. -/
theorem removeUnsupportedCasts_iff {bitSize mask : Nat} {maxUnsigned minSigned maxSigned : ℚ}
    (isSmall : bitSize = 8 ∨ bitSize = 16) (isMask : mask = 2 ^ bitSize - 1)
    (isMaxUnsigned : maxUnsigned = highest .u bitSize)
    (isMinSigned : minSigned = lowest .i bitSize) (isMaxSigned : maxSigned = highest .i bitSize)
    {rule : Rule}
    (member : rule ∈ removeUnsupportedCasts bitSize mask maxUnsigned minSigned maxSigned)
    (defined : rule.Defined source) :
    rule.replacement.eval source = rule.pattern.eval source ↔ rule.Exact source := by
  have positive : 0 < bitSize := by omega
  have wide (size : Nat) (other : size ∈ otherSizes bitSize) : bitSize ≤ size := by
    rw [otherSizes] at other
    obtain ⟨known, differ⟩ := List.mem_filter.mp other
    simp only [List.mem_cons, List.not_mem_nil, or_false, decide_eq_true_eq] at known differ
    omega
  rw [removeUnsupportedCasts] at member
  obtain ⟨⟨src, dst⟩, outerKind, member⟩ := List.mem_flatMap.mp member
  obtain ⟨outerSz, outerOther, member⟩ := List.mem_flatMap.mp member
  have srcKind : src = .u ∨ src = .i := by
    simp only [List.mem_cons, List.not_mem_nil, or_false, Prod.mk.injEq] at outerKind
    rcases outerKind with ⟨rfl, -⟩ | ⟨rfl, -⟩ | ⟨rfl, -⟩ | ⟨rfl, -⟩ <;> simp
  have dstKind : dst = src ∨ dst = .f := by
    simp only [List.mem_cons, List.not_mem_nil, or_false, Prod.mk.injEq] at outerKind
    rcases outerKind with ⟨rfl, rfl⟩ | ⟨rfl, rfl⟩ | ⟨rfl, rfl⟩ | ⟨rfl, rfl⟩ <;> simp
  rcases List.mem_append.mp member with fromInteger | fromFloat
  · obtain ⟨inner, innerKind, fromInteger⟩ := List.mem_flatMap.mp fromInteger
    obtain ⟨srcSz, srcOther, rfl⟩ := List.mem_map.mp fromInteger
    have innerOp : (⟨inner, inner, bitSize⟩ : Conv) = ⟨.u, .u, bitSize⟩ ∨
        (⟨inner, inner, bitSize⟩ : Conv) = ⟨.i, .i, bitSize⟩ := by
      simp only [List.mem_cons, List.not_mem_nil, or_false] at innerKind
      rcases innerKind with rfl | rfl <;> simp
    have sound := integerRule_sound positive (wide srcSz srcOther) isMask srcKind dstKind innerOp
      defined
    refine iff_of_true sound ?_
    cases source with
    | int => trivial
    | float size x =>
        exact absurd defined (not_integerRule_defined innerOp)
  · obtain ⟨inner, innerKind, fromFloat⟩ := List.mem_flatMap.mp fromFloat
    have innerOp : (⟨.f, inner, bitSize⟩ : Conv) = ⟨.f, .u, bitSize⟩ ∨
        (⟨.f, inner, bitSize⟩ : Conv) = ⟨.f, .i, bitSize⟩ := by
      simp only [List.mem_cons, List.not_mem_nil, or_false] at innerKind
      rcases innerKind with rfl | rfl <;> simp
    dsimp only at fromFloat
    split at fromFloat
    next isFloat =>
      obtain ⟨srcSz, -, rfl⟩ := List.mem_map.mp fromFloat
      exact floatRule_iff positive isMaxUnsigned isMinSigned isMaxSigned srcKind isFloat innerOp
        defined
    next notFloat =>
      obtain rfl := List.mem_singleton.mp fromFloat
      refine iff_of_true ?_ ?_
      · exact floatToIntegerRule_sound positive (wide outerSz outerOther) isMask srcKind
          (dstKind.resolve_right notFloat) innerOp defined
      · cases source with
        | int => trivial
        | float size x => exact fun isFloat => absurd isFloat notFloat

/-- The replacements are right in all cases but from floats to floats, and there just where the
number is whole or outside of the limits and its whole part is in the range of the outer
conversion. -/
theorem rule_sound_iff (rule : Rule) (member : rule ∈ no8bitConv ++ no16bitConv) (source : Value)
    (defined : rule.Defined source) :
    rule.replacement.eval source = rule.pattern.eval source ↔ rule.Exact source := by
  have signed : ¬ Kind.i = Kind.u := by decide
  rcases List.mem_append.mp member with small | large
  · exact removeUnsupportedCasts_iff (.inl rfl) rfl (by norm_num [highest])
      (by norm_num [lowest, signed]) (by norm_num [highest, signed]) small defined
  · exact removeUnsupportedCasts_iff (.inr rfl) rfl (by norm_num [highest])
      (by norm_num [lowest, signed]) (by norm_num [highest, signed]) large defined

/-- `u2f32(f2u8(a))` for 32-bit floats -/
def floatThroughByte : Rule :=
  floatRule 255 (-128) 127 ⟨.u, .f, 32⟩ ⟨.f, .u, 8⟩ 32

theorem rule_sound_iff_floatThroughByte :
    floatThroughByte.replacement.eval (.float 32 3) = floatThroughByte.pattern.eval (.float 32 3) ↔
      floatThroughByte.Exact (.float 32 3) :=
  rule_sound_iff floatThroughByte (by decide) (.float 32 3)
    (show ((Expr.conv ⟨.f, .u, 8⟩ (.a (some 32))).eval (.float 32 3)).isSome by decide +kernel)

/-- One and a half stays what it is, where the whole part is one. -/
theorem not_rule_sound :
    floatThroughByte ∈ no8bitConv ∧
      floatThroughByte.pattern.eval (.float 32 (3 / 2)) = some (.float 32 1) ∧
      floatThroughByte.replacement.eval (.float 32 (3 / 2)) = some (.float 32 (3 / 2)) := by
  exact ⟨by decide, by decide +kernel, by decide +kernel⟩

end Rules

end UnsupportedCasts

end SpirvToDxil
