import SpirvToDxil.Nir.LowerInt64Words
import SpirvToDxil.Util.Narrowing

/-!
# Products of words in two halves

The upper half of a product is cut from a schoolbook product of four words by four, both in the
lowered sequence and, with less room, in the opcode's constant expression.
-/

namespace SpirvToDxil.Nir.LowerInt64

open LongMultiplication

section Narrow

theorem lowerMul2x32_64_unsigned (x y : BitVec 32) :
    lowerMul2x32_64 x y false = x.setWidth 64 * y.setWidth 64 := by
  have low : unpackSplitX (x.setWidth 64 * y.setWidth 64) = x * y := by
    rw [unpackSplitX, BitVec.setWidth_mul _ _ (by decide)]
    simp
  rw [lowerMul2x32_64, ← low]
  exact packSplit_unpackSplit _

theorem setWidth_signExtend_half (x : BitVec 32) : (x.signExtend 64).setWidth 32 = x := by
  rw [← BitVec.signExtend_eq_setWidth_of_le _ (by decide),
    Narrowing.signExtend_signExtend x (by decide), BitVec.signExtend_eq]

theorem lowerMul2x32_64_signed (x y : BitVec 32) :
    lowerMul2x32_64 x y true = x.signExtend 64 * y.signExtend 64 := by
  have low : unpackSplitX (x.signExtend 64 * y.signExtend 64) = x * y := by
    rw [unpackSplitX, BitVec.setWidth_mul _ _ (by decide),
      setWidth_signExtend_half, setWidth_signExtend_half]
  rw [lowerMul2x32_64, ← low]
  exact packSplit_unpackSplit _

theorem half_mul_half_le (x y : BitVec 32) :
    x.toNat * y.toNat ≤ (2 ^ 32 - 1) * (2 ^ 32 - 1) := by
  apply Nat.mul_le_mul
  · exact Nat.le_sub_one_of_lt x.isLt
  · exact Nat.le_sub_one_of_lt y.isLt

theorem toNat_lowerMul2x32_64 (x y : BitVec 32) :
    (lowerMul2x32_64 x y false).toNat = x.toNat * y.toNat := by
  have bound := half_mul_half_le x y
  have xSmall := x.isLt
  have ySmall := y.isLt
  rw [lowerMul2x32_64_unsigned, BitVec.toNat_mul, BitVec.toNat_setWidth, BitVec.toNat_setWidth,
    Nat.mod_eq_of_lt (a := x.toNat) (by omega), Nat.mod_eq_of_lt (a := y.toNat) (by omega)]
  apply Nat.mod_eq_of_lt
  omega

theorem lowerImul64_eq (x y : BitVec 64) : lowerImul64 x y = x * y := by
  apply BitVec.eq_of_toNat_eq
  have crossed : x.toNat * y.toNat =
      (unpackSplitX x).toNat * (unpackSplitX y).toNat +
        2 ^ 32 * ((unpackSplitX x).toNat * (unpackSplitY y).toNat +
          (unpackSplitY x).toNat * (unpackSplitX y).toNat) +
        2 ^ 64 * ((unpackSplitY x).toNat * (unpackSplitY y).toNat) := by
    rw [toNat_eq_halves x, toNat_eq_halves y]
    ring
  rw [lowerImul64, toNat_packSplit, BitVec.toNat_add, BitVec.toNat_add, BitVec.toNat_mul,
    BitVec.toNat_mul, BitVec.toNat_mul, crossed, toNat_unpackSplitX, toNat_unpackSplitY,
    toNat_lowerMul2x32_64]
  omega

end Narrow

section High

/-- The number in an entry of `res`, zero where there is none yet. -/
def entry {w : Nat} (res : Option (BitVec w)) : Nat := (res.getD 0#w).toNat

theorem entry_map_lowerU2u64 (res : Option (BitVec 32)) :
    entry (res.map lowerU2u64) = entry res := by
  cases res with
  | none => rfl
  | some res =>
      have small := res.isLt
      change (lowerU2u64 res).toNat = res.toNat
      rw [lowerU2u64_eq res (by decide), BitVec.toNat_setWidth]
      omega

theorem toNat_addIfSet {tmp : BitVec 64} {summand : Option (BitVec 64)}
    (fits : tmp.toNat + entry summand < 2 ^ 64) :
    (addIfSet tmp summand).toNat = tmp.toNat + entry summand := by
  cases summand with
  | none => rfl
  | some summand =>
      rw [addIfSet, lowerIadd64_eq, BitVec.toNat_add]
      exact Nat.mod_eq_of_lt fits

theorem mulHighStep_exact :
    Exact mulHighStep (fun carry => carry.map lowerU2u32) none (2 ^ 32) BitVec.toNat entry
      entry where
  positive := by decide
  word_lt x := x.isLt
  digit_lt res := (res.getD 0#32).isLt
  start := rfl
  finish carry fits := by
    cases carry with
    | none => rfl
    | some carry =>
        change (unpackSplitX carry).toNat = carry.toNat
        rw [toNat_unpackSplitX]
        exact Nat.mod_eq_of_lt fits
  step x y res carry fits := by
    have bound := half_mul_half_le x y
    have product := toNat_lowerMul2x32_64 x y
    have small : entry res < 2 ^ 32 := (res.getD 0#32).isLt
    have sum : (addIfSet (addIfSet (lowerMul2x32_64 x y false) (res.map lowerU2u64)) carry).toNat =
        x.toNat * y.toNat + entry res + entry carry := by
      have widened := entry_map_lowerU2u64 res
      have first := @toNat_addIfSet (lowerMul2x32_64 x y false) (res.map lowerU2u64) (by omega)
      rw [toNat_addIfSet (by omega)]
      omega
    rw [← sum, mulHighStep]
    generalize addIfSet (addIfSet (lowerMul2x32_64 x y false) (res.map lowerU2u64)) carry = tmp
    change (unpackSplitX tmp).toNat + 2 ^ 32 * (lowerUshr64 tmp 32#32).toNat = tmp.toNat
    rw [lowerUshr64_eq, Word.ushr, show shiftCount 64 32#32 = 32 by decide,
      BitVec.toNat_ushiftRight, Nat.shiftRight_eq_div_pow, toNat_unpackSplitX, Nat.mod_add_div]

theorem ubmMulStep_exact :
    Exact ubmMulStep id 0#32 (2 ^ 32) BitVec.toNat BitVec.toNat BitVec.toNat where
  positive := by decide
  word_lt x := x.isLt
  digit_lt digit := digit.isLt
  start := rfl
  finish _ _ := rfl
  step x y digit carry _ := by
    have bound := half_mul_half_le x y
    have product := toNat_lowerMul2x32_64 x y
    have small := digit.isLt
    have fits := carry.isLt
    rw [lowerMul2x32_64_unsigned] at product
    have sum : (x.setWidth 64 * y.setWidth 64 + carry.setWidth 64 + digit.setWidth 64).toNat =
        x.toNat * y.toNat + digit.toNat + carry.toNat := by
      rw [BitVec.toNat_add, BitVec.toNat_add, product, BitVec.toNat_setWidth, BitVec.toNat_setWidth]
      omega
    rw [← sum]
    exact (toNat_eq_halves _).symm

/-- The words at places two and three of a long number are the upper half of its low part. -/
theorem toNat_window {Digit : Type} {reading : Digit → BitVec 32} {digits : List Digit}
    (enough : 4 ≤ digits.length) (empty : Digit) {whole : Nat}
    (equal : value (2 ^ 32) (fun digit => (reading digit).toNat) digits ≡ whole [MOD 2 ^ 128]) :
    (packSplit (reading (digits.getD 2 empty)) (reading (digits.getD 3 empty))).toNat =
      whole / 2 ^ 64 % 2 ^ 64 := by
  match digits with
  | d0 :: d1 :: d2 :: d3 :: rest =>
      have small0 := (reading d0).isLt
      have small1 := (reading d1).isLt
      have small2 := (reading d2).isLt
      have small3 := (reading d3).isLt
      rw [value_cons, value_cons, value_cons, value_cons, Nat.ModEq] at equal
      rw [toNat_packSplit]
      change (reading d2).toNat + 2 ^ 32 * (reading d3).toNat = _
      omega

theorem value_factor32_unsigned (x : BitVec 64) :
    value (2 ^ 32) BitVec.toNat (factor32 x false) = x.toNat := by
  rw [factor32, value_cons, value_cons, value_cons, value_cons, toNat_eq_halves x]
  rfl

theorem value_replicate {Digit : Type} {reading : Digit → Nat} {empty : Digit}
    (zero : reading empty = 0) (base length : Nat) :
    value base reading (List.replicate length empty) = 0 := by
  induction length with
  | zero => rfl
  | succ length inductionHypothesis =>
      rw [List.replicate_succ, value_cons, zero, inductionHypothesis, Nat.mul_zero]

theorem product_empty {Word Digit Carry : Type} {step : Step Word Digit Carry}
    {finish : Carry → Digit} {start : Carry} {base : Nat} {word : Word → Nat} {digit : Digit → Nat}
    {carry : Carry → Nat} (exact : Exact step finish start base word digit carry)
    (empty : Digit) (zero : digit empty = 0) (xs ys : List Word) (length : Nat) :
    value base digit (product step finish start xs ys (List.replicate length empty)) ≡
      value base word xs * value base word ys [MOD base ^ length] := by
  have digits := exact.product xs ys (List.replicate length empty) (by
    intro d member
    rw [List.eq_of_mem_replicate (List.mem_of_mem_drop member)]
    exact zero)
  rwa [value_replicate zero, Nat.zero_add, List.length_replicate] at digits

theorem toNat_lowerMulHigh64 (x y : BitVec 64) (signExtend : Bool) :
    (lowerMulHigh64 x y signExtend).toNat =
      value (2 ^ 32) BitVec.toNat (factor32 x signExtend) *
        value (2 ^ 32) BitVec.toNat (factor32 y signExtend) / 2 ^ 64 % 2 ^ 64 := by
  have digits := product_empty mulHighStep_exact none rfl (factor32 x signExtend)
    (factor32 y signExtend) 8
  have length := length_product mulHighStep (fun carry => carry.map lowerU2u32) none
    (factor32 x signExtend) (factor32 y signExtend) (List.replicate 8 none)
  apply @toNat_window _ (fun res => res.getD 0#32) (mulHighRes x y signExtend)
  · rw [mulHighRes, length]
    decide
  · apply digits.of_dvd
    decide

theorem toNat_prodHigh (a b : List (BitVec 32)) :
    (prodHigh (ubmMulU32arr 4 a b)).toNat =
      value (2 ^ 32) BitVec.toNat a * value (2 ^ 32) BitVec.toNat b / 2 ^ 64 % 2 ^ 64 := by
  have digits := product_empty ubmMulStep_exact 0#32 rfl a b 4
  have length := length_product ubmMulStep id 0#32 a b (List.replicate 4 0#32)
  apply @toNat_window _ id (ubmMulU32arr 4 a b)
  · rw [ubmMulU32arr, length]
    decide
  · apply digits.of_dvd
    decide

theorem lowerMulHigh64_unsigned (x y : BitVec 64) :
    lowerMulHigh64 x y false = umulHigh64 x y := by
  have halves (x : BitVec 64) :
      value (2 ^ 32) BitVec.toNat [x.setWidth 32, (x >>> 32).setWidth 32] = x.toNat := by
    rw [value_cons, value_cons, toNat_eq_halves x]
    rfl
  apply BitVec.eq_of_toNat_eq
  rw [toNat_lowerMulHigh64, umulHigh64, toNat_prodHigh, halves, halves, value_factor32_unsigned,
    value_factor32_unsigned]

theorem factor32_signed (x : BitVec 64) :
    factor32 x true = [x.setWidth 32, (x.sshiftRight 32).setWidth 32,
      (x.sshiftRight 63).setWidth 32, (x.sshiftRight 63).setWidth 32] := by
  have high : unpackSplitY x = (x.sshiftRight 32).setWidth 32 := by
    apply BitVec.eq_of_getLsbD_eq
    intro i inside
    rw [getLsbD_unpackSplitY, BitVec.getLsbD_setWidth, getLsbD_sshiftRight_fill x (by omega),
      if_pos (by omega)]
  have sign : ishrImm (unpackSplitY x) 31 = (x.sshiftRight 63).setWidth 32 := by
    rw [ishrImm_sign, msb_unpackSplitY]
    apply BitVec.eq_of_getLsbD_eq
    intro i inside
    have copied : (if 63 + i < 64 then x.getLsbD (63 + i) else x.msb) = x.msb := by
      split
      next first =>
        obtain rfl : i = 0 := by omega
        exact (BitVec.msb_eq_getLsbD_last x).symm
      next => rfl
    rw [BitVec.getLsbD_setWidth, getLsbD_sshiftRight_fill x (by omega), copied,
      decide_eq_true inside]
    cases x.msb with
    | true => rw [if_pos rfl, BitVec.getLsbD_allOnes, decide_eq_true inside, Bool.true_and]
    | false => exact BitVec.getLsbD_zero
  rw [factor32, if_pos rfl, sign, ← high]
  rfl

theorem lowerMulHigh64_signed (x y : BitVec 64) : lowerMulHigh64 x y true = imulHigh64 x y := by
  apply BitVec.eq_of_toNat_eq
  rw [toNat_lowerMulHigh64, imulHigh64, toNat_prodHigh, factor32_signed, factor32_signed]

end High

end SpirvToDxil.Nir.LowerInt64
