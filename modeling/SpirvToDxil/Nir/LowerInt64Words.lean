import SpirvToDxil.Nir.LowerInt64

/-!
# Words in two halves

The lowered sequences without products and quotients compute what the 64-bit instructions do.
-/

namespace SpirvToDxil.Nir.LowerInt64

section Halves

theorem getLsbD_unpackSplitX (x : BitVec 64) (i : Nat) :
    (unpackSplitX x).getLsbD i = (decide (i < 32) && x.getLsbD i) := by
  rw [unpackSplitX, BitVec.getLsbD_setWidth]

theorem getLsbD_unpackSplitY (x : BitVec 64) (i : Nat) :
    (unpackSplitY x).getLsbD i = (decide (i < 32) && x.getLsbD (32 + i)) := by
  rw [unpackSplitY, BitVec.getLsbD_setWidth, BitVec.getLsbD_ushiftRight]

theorem getLsbD_packSplit (lo hi : BitVec 32) {i : Nat} (inside : i < 64) :
    (packSplit lo hi).getLsbD i = if i < 32 then lo.getLsbD i else hi.getLsbD (i - 32) := by
  rw [packSplit, BitVec.getLsbD_or, BitVec.getLsbD_shiftLeft, BitVec.getLsbD_setWidth,
    BitVec.getLsbD_setWidth]
  by_cases low : i < 32
  · simp [low, inside]
  · have above := BitVec.getLsbD_of_ge lo i (Nat.le_of_not_lt low)
    simp [low, inside, above]
    omega

theorem toNat_unpackSplitX (x : BitVec 64) : (unpackSplitX x).toNat = x.toNat % 2 ^ 32 := by
  rw [unpackSplitX, BitVec.toNat_setWidth]

theorem toNat_unpackSplitY (x : BitVec 64) : (unpackSplitY x).toNat = x.toNat / 2 ^ 32 := by
  have bound := x.isLt
  rw [unpackSplitY, BitVec.toNat_setWidth, BitVec.toNat_ushiftRight, Nat.shiftRight_eq_div_pow]
  omega

@[simp]
theorem packSplit_unpackSplit (x : BitVec 64) :
    packSplit (unpackSplitX x) (unpackSplitY x) = x := by
  apply BitVec.eq_of_getLsbD_eq
  intro i inside
  rw [getLsbD_packSplit _ _ inside, getLsbD_unpackSplitX, getLsbD_unpackSplitY]
  split
  next low => simp [low]
  next high =>
    have place : i - 32 < 32 := by omega
    have back : 32 + (i - 32) = i := by omega
    simp [place, back]

@[simp]
theorem unpackSplitX_packSplit (lo hi : BitVec 32) : unpackSplitX (packSplit lo hi) = lo := by
  apply BitVec.eq_of_getLsbD_eq
  intro i inside
  rw [getLsbD_unpackSplitX, getLsbD_packSplit lo hi (by omega)]
  simp [inside]

@[simp]
theorem unpackSplitY_packSplit (lo hi : BitVec 32) : unpackSplitY (packSplit lo hi) = hi := by
  apply BitVec.eq_of_getLsbD_eq
  intro i inside
  rw [getLsbD_unpackSplitY, getLsbD_packSplit lo hi (by omega)]
  simp [inside]

theorem toNat_eq_halves (x : BitVec 64) :
    x.toNat = (unpackSplitX x).toNat + 2 ^ 32 * (unpackSplitY x).toNat := by
  rw [toNat_unpackSplitX, toNat_unpackSplitY, Nat.mod_add_div]

theorem toNat_packSplit (lo hi : BitVec 32) :
    (packSplit lo hi).toNat = lo.toNat + 2 ^ 32 * hi.toNat := by
  rw [toNat_eq_halves, unpackSplitX_packSplit, unpackSplitY_packSplit]

theorem msb_unpackSplitY (x : BitVec 64) : (unpackSplitY x).msb = x.msb := by
  rw [BitVec.msb_eq_getLsbD_last, BitVec.msb_eq_getLsbD_last, getLsbD_unpackSplitY]
  rfl

theorem toInt_eq_halves (x : BitVec 64) :
    x.toInt = (unpackSplitX x).toNat + 2 ^ 32 * (unpackSplitY x).toInt := by
  have low := (unpackSplitX x).isLt
  have high := (unpackSplitY x).isLt
  rw [BitVec.toInt_eq_msb_cond, BitVec.toInt_eq_msb_cond, msb_unpackSplitY, toNat_eq_halves]
  split
  · push_cast
    omega
  · push_cast
    omega

theorem isNeg_eq_msb (x : BitVec 64) : isNeg x = x.msb := by
  rw [isNeg, Word.compare, BitVec.slt_zero_eq_msb, msb_unpackSplitY]

theorem ishrImm_sign (x : BitVec 32) :
    ishrImm x 31 = if x.msb then BitVec.allOnes 32 else 0#32 := by
  apply BitVec.eq_of_getLsbD_eq
  intro i inside
  rw [ishrImm, if_neg (by decide), Word.ishr,
    show shiftCount 32 (BitVec.ofNat 32 31) = 31 by decide,
    BitVec.getLsbD_sshiftRight]
  have reading : (if 31 + i < 32 then x.getLsbD (31 + i) else x.msb) = x.msb := by
    split
    next first =>
      obtain rfl : i = 0 := by omega
      exact (BitVec.msb_eq_getLsbD_last x).symm
    next => rfl
  rw [reading]
  cases x.msb with
  | true =>
      rw [if_pos rfl, BitVec.getLsbD_allOnes, decide_eq_true inside]
      simp
      exact inside
  | false => simp

end Halves

section Logic

/-- An operation on the bits of its operands can be done on the halves. -/
theorem packSplit_bitwise (op : (w : Nat) → BitVec w → BitVec w → BitVec w → BitVec w)
    (bit : Bool → Bool → Bool → Bool)
    (bitwise : ∀ w (x y z : BitVec w) i, i < w →
      (op w x y z).getLsbD i = bit (x.getLsbD i) (y.getLsbD i) (z.getLsbD i))
    (x y z : BitVec 64) :
    packSplit (op 32 (unpackSplitX x) (unpackSplitX y) (unpackSplitX z))
      (op 32 (unpackSplitY x) (unpackSplitY y) (unpackSplitY z)) = op 64 x y z := by
  apply BitVec.eq_of_getLsbD_eq
  intro i inside
  rw [getLsbD_packSplit _ _ inside, bitwise 64 x y z i inside]
  split
  next low =>
    rw [bitwise 32 _ _ _ i low]
    simp only [getLsbD_unpackSplitX, low, decide_true, Bool.true_and]
  next high =>
    have place : i - 32 < 32 := by omega
    have back : 32 + (i - 32) = i := by omega
    rw [bitwise 32 _ _ _ _ place]
    simp only [getLsbD_unpackSplitY, place, back, decide_true, Bool.true_and]

theorem lowerInot64_eq (x : BitVec 64) : lowerInot64 x = ~~~x := by
  apply packSplit_bitwise (fun _ x _ _ => ~~~x) (fun x _ _ => !x) _ x x x
  intro w x y z i inside
  simp [inside]

theorem lowerIand64_eq (x y : BitVec 64) : lowerIand64 x y = x &&& y := by
  apply packSplit_bitwise (fun _ x y _ => x &&& y) (fun x y _ => x && y) _ x y x
  intro w x y z i inside
  simp

theorem lowerIor64_eq (x y : BitVec 64) : lowerIor64 x y = x ||| y := by
  apply packSplit_bitwise (fun _ x y _ => x ||| y) (fun x y _ => x || y) _ x y x
  intro w x y z i inside
  simp

theorem lowerIxor64_eq (x y : BitVec 64) : lowerIxor64 x y = x ^^^ y := by
  apply packSplit_bitwise (fun _ x y _ => x ^^^ y) (fun x y _ => x ^^ y) _ x y x
  intro w x y z i inside
  simp

theorem lowerBitfieldSelect64_eq (cond x y : BitVec 64) :
    lowerBitfieldSelect64 cond x y = Word.bitfieldSelect cond x y := by
  apply packSplit_bitwise (fun _ cond x y => Word.bitfieldSelect cond x y)
    (fun cond x y => (cond && x) || (!cond && y))
  intro w cond x y i inside
  simp [Word.bitfieldSelect, inside]

@[simp]
theorem lowerBcsel64_eq (cond : Bool) (x y : BitVec 64) :
    lowerBcsel64 cond x y = if cond then x else y := by
  cases cond with
  | true => exact packSplit_unpackSplit x
  | false => exact packSplit_unpackSplit y

end Logic

section Shifts

variable (x : BitVec 64) {n : Nat}

theorem packSplit_shiftLeft_of_lt (positive : 0 < n) (less : n < 32) :
    packSplit (unpackSplitX x <<< n) (unpackSplitY x <<< n ||| unpackSplitX x >>> (32 - n)) =
      x <<< n := by
  apply BitVec.eq_of_getLsbD_eq
  intro i inside
  rw [getLsbD_packSplit _ _ inside]
  simp only [BitVec.getLsbD_shiftLeft, BitVec.getLsbD_ushiftRight, BitVec.getLsbD_or,
    getLsbD_unpackSplitX, getLsbD_unpackSplitY]
  by_cases low : i < 32
  · have place : i - n < 32 := by omega
    simp [low, inside, place]
  · by_cases carried : i - 32 < n
    · have back : 32 - n + (i - 32) = i - n := by omega
      have place : i - n < 32 := by omega
      have past : ¬ i < n := by omega
      simp [low, inside, carried, back, place, past]
    · have back : 32 + (i - 32 - n) = i - n := by omega
      have place : ¬ 32 - n + (i - 32) < 32 := by omega
      have past : ¬ i < n := by omega
      have upper : i - 32 < 32 := by omega
      have fits : i - 32 - n < 32 := by omega
      simp [low, inside, carried, back, place, past, upper, fits]

theorem packSplit_shiftLeft_of_ge (greater : 32 ≤ n) :
    packSplit 0#32 (unpackSplitX x <<< (n - 32)) = x <<< n := by
  apply BitVec.eq_of_getLsbD_eq
  intro i inside
  rw [getLsbD_packSplit _ _ inside]
  simp only [BitVec.getLsbD_shiftLeft, getLsbD_unpackSplitX]
  by_cases low : i < 32
  · have early : i < n := by omega
    simp [low, early]
  · have back : i - 32 - (n - 32) = i - n := by omega
    have upper : i - 32 < 32 := by omega
    by_cases early : i < n
    · have early' : i - 32 < n - 32 := by omega
      simp [low, early, early']
    · have early' : ¬ i - 32 < n - 32 := by omega
      have place : i - n < 32 := by omega
      simp [low, inside, early, early', back, upper, place]

/-- Where the bits of a word go when it is shifted to the right with some sign. -/
theorem packSplit_shiftRight_of_lt (sign : Bool) {hiShifted : BitVec 32} {shifted : BitVec 64}
    (positive : 0 < n) (less : n < 32)
    (high : ∀ i < 32, hiShifted.getLsbD i =
      if n + i < 32 then (unpackSplitY x).getLsbD (n + i) else sign)
    (whole : ∀ i < 64, shifted.getLsbD i = if n + i < 64 then x.getLsbD (n + i) else sign) :
    packSplit (unpackSplitX x >>> n ||| unpackSplitY x <<< (32 - n)) hiShifted = shifted := by
  apply BitVec.eq_of_getLsbD_eq
  intro i inside
  rw [getLsbD_packSplit _ _ inside, whole i inside]
  by_cases low : i < 32
  · simp only [low, ↓reduceIte, BitVec.getLsbD_shiftLeft, BitVec.getLsbD_ushiftRight,
      BitVec.getLsbD_or, getLsbD_unpackSplitX, getLsbD_unpackSplitY]
    rw [if_pos (by omega)]
    by_cases same : n + i < 32
    · have early : i < 32 - n := by omega
      simp [same, early]
    · have early : ¬ i < 32 - n := by omega
      have back : 32 + (i - (32 - n)) = n + i := by omega
      have place : i - (32 - n) < 32 := by omega
      simp [same, early, back, place]
  · rw [if_neg low, high (i - 32) (by omega), getLsbD_unpackSplitY]
    by_cases within : n + i < 64
    · have place : n + (i - 32) < 32 := by omega
      have back : 32 + (n + (i - 32)) = n + i := by omega
      simp [within, place, back]
    · have place : ¬ n + (i - 32) < 32 := by omega
      simp [within, place]

theorem packSplit_shiftRight_of_ge (sign : Bool) {hiShifted filled : BitVec 32}
    {shifted : BitVec 64} (greater : 32 ≤ n)
    (high : ∀ i < 32, hiShifted.getLsbD i =
      if n - 32 + i < 32 then (unpackSplitY x).getLsbD (n - 32 + i) else sign)
    (fill : ∀ i < 32, filled.getLsbD i = sign)
    (whole : ∀ i < 64, shifted.getLsbD i = if n + i < 64 then x.getLsbD (n + i) else sign) :
    packSplit hiShifted filled = shifted := by
  apply BitVec.eq_of_getLsbD_eq
  intro i inside
  rw [getLsbD_packSplit _ _ inside, whole i inside]
  by_cases low : i < 32
  · rw [if_pos low, high i low, getLsbD_unpackSplitY]
    by_cases within : n + i < 64
    · have place : n - 32 + i < 32 := by omega
      have back : 32 + (n - 32 + i) = n + i := by omega
      simp [within, place, back]
    · have place : ¬ n - 32 + i < 32 := by omega
      simp [within, place]
  · rw [if_neg low, fill (i - 32) (by omega), if_neg (by omega)]

theorem shiftCount_32 (count : BitVec 32) : shiftCount 32 count = count.toNat % 32 :=
  shiftCount_eq (by decide) count

theorem shiftCount_64 (count : BitVec 32) : shiftCount 64 count = count.toNat % 64 :=
  shiftCount_eq (by decide) count

theorem toNat_reverseCount {y : BitVec 32} (bound : y.toNat < 64) :
    (Word.iabs (y + -32#32)).toNat = if y.toNat < 32 then 32 - y.toNat else y.toNat - 32 := by
  have moved : (y + -32#32).toNat = (y.toNat + 4294967264) % 4294967296 := by
    rw [BitVec.toNat_add]
    rfl
  rw [Word.iabs, BitVec.slt_zero_eq_msb, BitVec.msb_eq_decide, moved]
  split
  next negative =>
    rw [BitVec.toNat_neg, moved]
    simp only [decide_eq_true_eq] at negative
    split
    · omega
    · omega
  next positive =>
    rw [moved]
    simp only [decide_eq_true_eq] at positive
    split
    · omega
    · omega

theorem toNat_mask (y : BitVec 32) : (y &&& 0x3f#32).toNat = y.toNat % 64 := by
  rw [BitVec.toNat_and]
  exact Nat.and_two_pow_sub_one_eq_mod y.toNat 6

/-- The three cases of a shift: the count, the one the other way and the tests on it. -/
theorem shift_cases (y : BitVec 32) {shifted resIfGe32 resIfLt32 : BitVec 64}
    (none : y.toNat % 64 = 0 → x = shifted)
    (less : 0 < y.toNat % 64 → y.toNat % 64 < 32 → resIfLt32 = shifted)
    (greater : 32 ≤ y.toNat % 64 → y.toNat % 64 < 64 → resIfGe32 = shifted) :
    lowerBcsel64 (Word.compare .ieq (y &&& 0x3f#32) 0#32) x
      (lowerBcsel64 (Word.compare .uge (y &&& 0x3f#32) 32#32) resIfGe32 resIfLt32) = shifted := by
  have bound : y.toNat % 64 < 64 := Nat.mod_lt _ (by decide)
  have masked := toNat_mask y
  rw [lowerBcsel64_eq, lowerBcsel64_eq]
  by_cases zero : y.toNat % 64 = 0
  · have test : Word.compare .ieq (y &&& 0x3f#32) 0#32 = true := by
      simp only [Word.compare, beq_iff_eq]
      apply BitVec.eq_of_toNat_eq
      rw [masked, zero]
      rfl
    rw [if_pos test]
    exact none zero
  · have test : ¬ Word.compare .ieq (y &&& 0x3f#32) 0#32 = true := by
      simp only [Word.compare, beq_iff_eq]
      intro equal
      rw [equal] at masked
      exact zero masked.symm
    have order : Word.compare .uge (y &&& 0x3f#32) 32#32 = decide (32 ≤ y.toNat % 64) := by
      simp only [Word.compare, BitVec.ule]
      rw [masked]
      rfl
    rw [if_neg test, order]
    by_cases half : 32 ≤ y.toNat % 64
    · rw [decide_eq_true half, if_pos rfl]
      exact greater half bound
    · rw [decide_eq_false half]
      exact less (Nat.pos_of_ne_zero zero) (Nat.lt_of_not_le half)

theorem shiftCount_mask {y : BitVec 32} (less : y.toNat % 64 < 32) :
    shiftCount 32 (y &&& 0x3f#32) = y.toNat % 64 := by
  rw [shiftCount_32, toNat_mask]
  exact Nat.mod_eq_of_lt less

theorem shiftCount_reverse_of_lt {y : BitVec 32} (positive : 0 < y.toNat % 64)
    (less : y.toNat % 64 < 32) :
    shiftCount 32 (Word.iabs ((y &&& 0x3f#32) + -32#32)) = 32 - y.toNat % 64 := by
  have masked := toNat_mask y
  rw [shiftCount_32, toNat_reverseCount (by omega), masked, if_pos less]
  omega

theorem shiftCount_reverse_of_ge {y : BitVec 32} (greater : 32 ≤ y.toNat % 64) :
    shiftCount 32 (Word.iabs ((y &&& 0x3f#32) + -32#32)) = y.toNat % 64 - 32 := by
  have masked := toNat_mask y
  rw [shiftCount_32, toNat_reverseCount (by omega), masked, if_neg (by omega)]
  omega

theorem lowerIshl64_eq (y : BitVec 32) : lowerIshl64 x y = Word.ishl x y := by
  rw [Word.ishl, shiftCount_64]
  apply shift_cases
  · intro zero
    simp [zero]
  · intro positive less
    rw [Word.ishl, Word.ishl, Word.ushr, shiftCount_mask less,
      shiftCount_reverse_of_lt positive less]
    exact packSplit_shiftLeft_of_lt x positive less
  · intro greater _
    rw [Word.ishl, shiftCount_reverse_of_ge greater]
    exact packSplit_shiftLeft_of_ge x greater

theorem getLsbD_ushiftRight_fill {w n i : Nat} (x : BitVec w) :
    (x >>> n).getLsbD i = if n + i < w then x.getLsbD (n + i) else false := by
  rw [BitVec.getLsbD_ushiftRight]
  split
  · rfl
  · exact BitVec.getLsbD_of_ge x _ (by omega)

theorem getLsbD_sshiftRight_fill {w n i : Nat} (x : BitVec w) (inside : i < w) :
    (x.sshiftRight n).getLsbD i = if n + i < w then x.getLsbD (n + i) else x.msb := by
  rw [BitVec.getLsbD_sshiftRight, decide_eq_false (Nat.not_le_of_lt inside)]
  rfl

theorem lowerUshr64_eq (y : BitVec 32) : lowerUshr64 x y = Word.ushr x y := by
  rw [Word.ushr, shiftCount_64]
  apply shift_cases
  · intro zero
    simp [zero]
  · intro positive less
    rw [Word.ushr, Word.ushr, Word.ishl, shiftCount_mask less,
      shiftCount_reverse_of_lt positive less]
    apply packSplit_shiftRight_of_lt x false positive less
    · intro i _
      exact getLsbD_ushiftRight_fill _
    · intro i _
      exact getLsbD_ushiftRight_fill x
  · intro greater _
    rw [Word.ushr, shiftCount_reverse_of_ge greater]
    apply packSplit_shiftRight_of_ge x false greater
    · intro i _
      exact getLsbD_ushiftRight_fill _
    · intro i inside
      simp
    · intro i _
      exact getLsbD_ushiftRight_fill x

theorem lowerIshr64_eq (y : BitVec 32) : lowerIshr64 x y = Word.ishr x y := by
  rw [Word.ishr, shiftCount_64]
  apply shift_cases
  · intro zero
    simp [zero]
  · intro positive less
    rw [Word.ushr, Word.ishr, Word.ishl, shiftCount_mask less,
      shiftCount_reverse_of_lt positive less]
    apply packSplit_shiftRight_of_lt x x.msb positive less
    · intro i inside
      rw [getLsbD_sshiftRight_fill _ inside, msb_unpackSplitY]
    · intro i inside
      exact getLsbD_sshiftRight_fill x inside
  · intro greater _
    rw [Word.ishr, shiftCount_reverse_of_ge greater]
    apply packSplit_shiftRight_of_ge x x.msb greater
    · intro i inside
      rw [getLsbD_sshiftRight_fill _ inside, msb_unpackSplitY]
    · intro i inside
      rw [ishrImm_sign, msb_unpackSplitY]
      cases x.msb with
      | true => rw [if_pos rfl, BitVec.getLsbD_allOnes, decide_eq_true inside]
      | false => exact BitVec.getLsbD_zero
    · intro i inside
      exact getLsbD_sshiftRight_fill x inside

end Shifts

section Sums

theorem toNat_b2i32 (x : Bool) : (b2i32 x).toNat = if x then 1 else 0 := by
  cases x with
  | true => rfl
  | false => rfl

theorem lowerIadd64_eq (x y : BitVec 64) : lowerIadd64 x y = x + y := by
  apply BitVec.eq_of_toNat_eq
  have xLo := (unpackSplitX x).isLt
  have yLo := (unpackSplitX y).isLt
  rw [lowerIadd64, toNat_packSplit, BitVec.toNat_add, BitVec.toNat_add, BitVec.toNat_add,
    BitVec.toNat_add, toNat_b2i32, toNat_eq_halves x, toNat_eq_halves y]
  simp only [Word.compare, BitVec.ult, BitVec.toNat_add, decide_eq_true_eq]
  split
  · omega
  · omega

theorem lowerIsub64_eq (x y : BitVec 64) : lowerIsub64 x y = x - y := by
  apply BitVec.eq_of_toNat_eq
  have xLo := (unpackSplitX x).isLt
  have yLo := (unpackSplitX y).isLt
  have xHi := (unpackSplitY x).isLt
  have yHi := (unpackSplitY y).isLt
  rw [lowerIsub64, toNat_packSplit, BitVec.toNat_add, Word.ineg, BitVec.toNat_neg,
    BitVec.toNat_sub, BitVec.toNat_sub, BitVec.toNat_sub, toNat_b2i32, toNat_eq_halves x,
    toNat_eq_halves y]
  simp only [Word.compare, BitVec.ult, decide_eq_true_eq]
  split
  · omega
  · omega

theorem lowerIneg64_eq (x : BitVec 64) : lowerIneg64 x = -x := by
  rw [lowerIneg64, lowerIsub64_eq, BitVec.zero_sub]

theorem lowerIabs64_eq (x : BitVec 64) : lowerIabs64 x = Word.iabs x := by
  rw [lowerIabs64, lowerBcsel64_eq, lowerIneg64_eq, Word.compare, Word.iabs,
    BitVec.slt_zero_eq_msb, BitVec.slt_zero_eq_msb, msb_unpackSplitY]

theorem eq_zero_iff_halves (x : BitVec 64) :
    x = 0#64 ↔ unpackSplitX x ||| unpackSplitY x = 0#32 := by
  rw [BitVec.or_eq_zero_iff]
  constructor
  · intro zero
    rw [zero]
    exact ⟨rfl, rfl⟩
  · intro ⟨low, high⟩
    rw [← packSplit_unpackSplit x, low, high]
    rfl

theorem lowerIsign64_eq (x : BitVec 64) : lowerIsign64 x = Word.isign x := by
  have halves := eq_zero_iff_halves x
  rw [lowerIsign64, ishrImm_sign, msb_unpackSplitY, Word.isign, Word.compare]
  by_cases zero : x = 0#64
  · subst zero
    rfl
  · have nonZero : (unpackSplitX x ||| unpackSplitY x != 0#32) = true := by
      simpa using mt halves.mpr zero
    have reading := BitVector.toInt_ne_zero zero
    have order : BitVec.slt 0#64 x = !x.msb := by
      rw [BitVec.slt, BitVec.msb_eq_toInt, BitVec.toInt_zero, ← decide_not]
      apply decide_eq_decide.mpr
      omega
    rw [nonZero, if_neg zero, order]
    cases x.msb with
    | true => rfl
    | false => rfl

end Sums

section Comparisons

theorem eq_iff_halves (x y : BitVec 64) :
    x = y ↔ unpackSplitY x = unpackSplitY y ∧ unpackSplitX x = unpackSplitX y := by
  constructor
  · intro equal
    rw [equal]
    exact ⟨rfl, rfl⟩
  · intro ⟨high, low⟩
    rw [← packSplit_unpackSplit x, high, low, packSplit_unpackSplit]

theorem lowerLess_ult (x y : BitVec 64) : lowerLess .ult x y = x.ult y := by
  have xLo := (unpackSplitX x).isLt
  have yLo := (unpackSplitX y).isLt
  apply Bool.eq_iff_iff.mpr
  simp only [lowerLess, Word.compare, Bool.or_eq_true, Bool.and_eq_true, beq_iff_eq,
    BitVec.ult_iff_lt, BitVec.lt_def, toNat_eq_halves x, toNat_eq_halves y, ← BitVec.toNat_inj]
  omega

theorem lowerLess_ilt (x y : BitVec 64) : lowerLess .ilt x y = x.slt y := by
  have xLo := (unpackSplitX x).isLt
  have yLo := (unpackSplitX y).isLt
  apply Bool.eq_iff_iff.mpr
  simp only [lowerLess, Word.compare, Bool.or_eq_true, Bool.and_eq_true, beq_iff_eq,
    BitVec.ult_iff_lt, BitVec.lt_def, BitVec.slt_iff_toInt_lt, toInt_eq_halves x,
    toInt_eq_halves y, ← BitVec.toInt_inj]
  omega

theorem lowerInt64Compare_eq (comparison : Comparison) (x y : BitVec 64) :
    lowerInt64Compare comparison x y = Word.compare comparison x y := by
  cases comparison with
  | ult => exact lowerLess_ult x y
  | ilt => exact lowerLess_ilt x y
  | uge =>
      rw [lowerInt64Compare, lowerLess_ult, Word.compare, BitVec.ule_eq_not_ult]
  | ige =>
      rw [lowerInt64Compare, lowerLess_ilt, Word.compare, BitVec.sle_eq_not_slt]
  | ieq =>
      apply Bool.eq_iff_iff.mpr
      simp only [lowerInt64Compare, Word.compare, Bool.and_eq_true, beq_iff_eq]
      exact (eq_iff_halves x y).symm
  | ine =>
      apply Bool.eq_iff_iff.mpr
      simp only [lowerInt64Compare, Word.compare, Bool.or_eq_true, bne_iff_ne, ne_eq,
        eq_iff_halves x y, not_and_or]

theorem lowerUmin64_eq (x y : BitVec 64) : lowerUmin64 x y = Word.umin x y := by
  rw [lowerUmin64, lowerBcsel64_eq, lowerInt64Compare_eq]
  rfl

theorem lowerImin64_eq (x y : BitVec 64) : lowerImin64 x y = Word.imin x y := by
  rw [lowerImin64, lowerBcsel64_eq, lowerInt64Compare_eq]
  rfl

theorem ite_lt_swap {Reading : Type} [LinearOrder Reading] {reading : BitVec 64 → Reading}
    (injective : reading.Injective) (x y : BitVec 64) :
    (if reading x < reading y then y else x) = if reading y < reading x then x else y := by
  rw [← (BitVector.ite_le_eq_ite_lt injective x y).1]
  split
  next less => rw [if_neg (not_le_of_gt less)]
  next greater => rw [if_pos (le_of_not_gt greater)]

theorem lowerUmax64_eq (x y : BitVec 64) : lowerUmax64 x y = Word.umax x y := by
  have swapped := ite_lt_swap (fun _ _ => BitVec.eq_of_toNat_eq) x y
  simpa only [lowerUmax64, lowerBcsel64_eq, lowerInt64Compare_eq, Word.compare, Word.umax,
    BitVec.ult_iff_lt, BitVec.lt_def] using swapped

theorem lowerImax64_eq (x y : BitVec 64) : lowerImax64 x y = Word.imax x y := by
  have swapped := ite_lt_swap (fun _ _ => BitVec.eq_of_toInt_eq) x y
  simpa only [lowerImax64, lowerBcsel64_eq, lowerInt64Compare_eq, Word.compare, Word.imax,
    BitVec.slt_iff_toInt_lt] using swapped

end Comparisons

section Conversions

theorem lowerB2i64_eq (x : Bool) : lowerB2i64 x = if x then 1#64 else 0#64 := by
  cases x with
  | true => rfl
  | false => rfl

theorem setWidth_unpackSplitX (x : BitVec 64) {n : Nat} (narrow : n ≤ 32) :
    (unpackSplitX x).setWidth n = x.setWidth n := by
  rw [unpackSplitX, BitVec.setWidth_setWidth_of_le x narrow]

theorem signExtend_unpackSplitX (x : BitVec 64) {n : Nat} (narrow : n ≤ 32) :
    (unpackSplitX x).signExtend n = x.signExtend n := by
  rw [BitVec.signExtend_eq_setWidth_of_le _ narrow, setWidth_unpackSplitX x narrow,
    BitVec.signExtend_eq_setWidth_of_le x (Nat.le_trans narrow (by decide))]

theorem lowerI2i64_eq {bitSize : Nat} (x : BitVec bitSize) (narrow : bitSize ≤ 32) :
    lowerI2i64 x = x.signExtend 64 := by
  apply BitVec.eq_of_toInt_eq
  have reading : (x.signExtend 32).toInt = x.toInt := BitVec.toInt_signExtend_of_le narrow
  rw [BitVec.toInt_signExtend_of_le (Nat.le_trans narrow (by decide)), ← reading, lowerI2i64,
    toInt_eq_halves, unpackSplitX_packSplit, unpackSplitY_packSplit, ishrImm_sign,
    BitVec.toInt_eq_msb_cond (x.signExtend 32)]
  cases (x.signExtend 32).msb with
  | true =>
      simp only [↓reduceIte, BitVec.toInt_allOnes]
      omega
  | false => simp

theorem lowerU2u64_eq {bitSize : Nat} (x : BitVec bitSize) (narrow : bitSize ≤ 32) :
    lowerU2u64 x = x.setWidth 64 := by
  apply BitVec.eq_of_toNat_eq
  have bound := x.isLt
  have power : 2 ^ bitSize ≤ 2 ^ 32 := Nat.pow_le_pow_right (by decide) narrow
  rw [lowerU2u64, toNat_packSplit, BitVec.toNat_setWidth, BitVec.toNat_setWidth, BitVec.toNat_zero]
  omega

end Conversions

end SpirvToDxil.Nir.LowerInt64
