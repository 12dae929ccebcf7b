import SpirvToDxil.Util.Narrowing
import Mathlib.Data.BitVec
import Mathlib.Data.Int.Bitwise

/-!
# Integers in two's complement

A bit vector holds an integer modulo a power of two, of which its low bits are those in two's
complement.
-/

namespace TwosComplement

variable {w : Nat}

theorem testBit_negSucc (m i : Nat) : (Int.negSucc m).testBit i = !m.testBit i := rfl

theorem getLsbD_ofInt (x : Int) {i : Nat} (inside : i < w) :
    (BitVec.ofInt w x).getLsbD i = x.testBit i := by
  cases x with
  | ofNat m =>
    change (BitVec.ofInt w (m : Int)).getLsbD i = m.testBit i
    rw [BitVec.ofInt_natCast, BitVec.getLsbD_ofNat]
    simp [inside]
  | negSucc m =>
    rw [BitVec.ofInt_negSucc_eq_not_ofNat, BitVec.getLsbD_not, BitVec.getLsbD_ofNat,
      testBit_negSucc]
    simp [inside]

theorem ofInt_land (x y : Int) :
    BitVec.ofInt w (Int.land x y) = BitVec.ofInt w x &&& BitVec.ofInt w y := by
  apply BitVec.eq_of_getLsbD_eq
  intro i inside
  rw [BitVec.getLsbD_and, getLsbD_ofInt _ inside, getLsbD_ofInt _ inside, getLsbD_ofInt _ inside,
    Int.testBit_land]

theorem ofInt_lor (x y : Int) :
    BitVec.ofInt w (Int.lor x y) = BitVec.ofInt w x ||| BitVec.ofInt w y := by
  apply BitVec.eq_of_getLsbD_eq
  intro i inside
  rw [BitVec.getLsbD_or, getLsbD_ofInt _ inside, getLsbD_ofInt _ inside, getLsbD_ofInt _ inside,
    Int.testBit_lor]

theorem ofInt_xor (x y : Int) :
    BitVec.ofInt w (Int.xor x y) = BitVec.ofInt w x ^^^ BitVec.ofInt w y := by
  apply BitVec.eq_of_getLsbD_eq
  intro i inside
  rw [BitVec.getLsbD_xor, getLsbD_ofInt _ inside, getLsbD_ofInt _ inside, getLsbD_ofInt _ inside,
    Int.testBit_lxor]

theorem ofInt_lnot (x : Int) : BitVec.ofInt w (Int.lnot x) = ~~~BitVec.ofInt w x := by
  apply BitVec.eq_of_getLsbD_eq
  intro i inside
  rw [BitVec.getLsbD_not, getLsbD_ofInt _ inside, getLsbD_ofInt _ inside, Int.testBit_lnot]
  simp [inside]

theorem ofInt_sub (x y : Int) :
    BitVec.ofInt w (x - y) = BitVec.ofInt w x - BitVec.ofInt w y := by
  rw [Int.sub_eq_add_neg, BitVec.ofInt_add, BitVec.ofInt_neg, BitVec.sub_eq_add_neg]

theorem ofInt_toNat (x : BitVec w) : BitVec.ofInt w x.toNat = x := by
  rw [BitVec.ofInt_natCast, BitVec.ofNat_toNat, BitVec.setWidth_eq]

/-- What a bit vector stands for, signed or not, is what its low bits hold. -/
theorem ofInt_toInt_setWidth (x : BitVec w) {b : Nat} (narrow : b ≤ w) :
    BitVec.ofInt b x.toInt = x.setWidth b := by
  rw [← Narrowing.setWidth_ofInt x.toInt narrow, BitVec.ofInt_toInt]

theorem ofInt_toNat_setWidth (x : BitVec w) {b : Nat} (narrow : b ≤ w) :
    BitVec.ofInt b x.toNat = x.setWidth b := by
  rw [← Narrowing.setWidth_ofInt _ narrow, ofInt_toNat]

/-- The high bits of a reversed word are the reversed low bits. -/
theorem ofInt_reverse (x : Int) {b : Nat} (narrow : b ≤ w) :
    BitVec.ofInt b ((BitVec.ofInt w x).reverse.toNat / 2 ^ (w - b) : Nat) =
      (BitVec.ofInt b x).reverse := by
  apply BitVec.eq_of_getLsbD_eq
  intro i inside
  have mirror : w - 1 - (w - b + i) = b - 1 - i := by omega
  rw [BitVec.ofInt_natCast, BitVec.getLsbD_ofNat,
    ← Nat.shiftRight_eq_div_pow, Nat.testBit_shiftRight,
    ← BitVec.getLsbD, BitVec.getLsbD_reverse, BitVec.getLsbD_reverse, BitVec.getMsbD_eq_getLsbD,
    BitVec.getMsbD_eq_getLsbD, mirror, getLsbD_ofInt x (by omega), getLsbD_ofInt x (by omega)]
  simp [inside, show w - b + i < w by omega]

end TwosComplement
