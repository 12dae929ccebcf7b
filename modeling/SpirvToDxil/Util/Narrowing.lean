import Mathlib.Data.Nat.Bitwise

/-!
# Bit vectors that are narrowed and widened again

What is left of a value is its low bits, and the bits above them are zeros or copies of the sign.
-/

namespace Narrowing

variable {w : Nat}

theorem signExtend_signExtend (x : BitVec b) (wide : b ≤ w) (v : Nat) :
    (x.signExtend w).signExtend v = x.signExtend v := by
  have msb : (x.signExtend w).msb = x.msb := by
    rcases Nat.eq_zero_or_pos b with rfl | positive
    · have nil := BitVec.eq_nil x
      subst nil
      rw [BitVec.msb_eq_getLsbD_last, BitVec.getLsbD_signExtend]
      simp
    · rw [BitVec.msb_eq_getLsbD_last, BitVec.getLsbD_signExtend]
      by_cases same : b = w
      · subst same
        simp [BitVec.msb_eq_getLsbD_last, show b - 1 < b by omega]
      · simp [show w - 1 < w by omega, show ¬ w - 1 < b by omega]
  apply BitVec.eq_of_getLsbD_eq
  intro i inside
  rw [BitVec.getLsbD_signExtend, BitVec.getLsbD_signExtend, BitVec.getLsbD_signExtend, msb]
  by_cases low : i < b
  · simp [low, show i < w by omega]
  · by_cases middle : i < w <;> simp [low, middle]

theorem and_mask (x : BitVec w) (b : Nat) :
    x &&& BitVec.ofNat w (2 ^ b - 1) = (x.setWidth b).setWidth w := by
  apply BitVec.eq_of_getLsbD_eq
  intro i inside
  rw [BitVec.getLsbD_and, BitVec.getLsbD_ofNat, Nat.testBit_two_pow_sub_one,
    BitVec.getLsbD_setWidth, BitVec.getLsbD_setWidth]
  by_cases low : i < b <;> simp [low, inside]

theorem sshiftRight_shiftLeft (x : BitVec w) {b : Nat} (positive : 0 < b) (narrow : b ≤ w) :
    (x <<< (w - b)).sshiftRight (w - b) = (x.setWidth b).signExtend w := by
  apply BitVec.eq_of_getLsbD_eq
  intro i inside
  rw [BitVec.getLsbD_sshiftRight, BitVec.getLsbD_signExtend, BitVec.getLsbD_setWidth,
    BitVec.msb_eq_getLsbD_last, BitVec.msb_eq_getLsbD_last, BitVec.getLsbD_setWidth,
    BitVec.getLsbD_shiftLeft, BitVec.getLsbD_shiftLeft]
  by_cases low : i < b
  · simp [low, inside, show w - b + i < w by omega, show ¬ w ≤ i by omega]
  · simp [low, inside, show ¬ w - b + i < w by omega, show ¬ w ≤ i by omega,
      show w - 1 < w by omega, show ¬ w - 1 < w - b by omega, show b - 1 < b by omega,
      show w - 1 - (w - b) = b - 1 by omega]

theorem setWidth_ofInt (t : Int) {b : Nat} (narrow : b ≤ w) :
    (BitVec.ofInt w t).setWidth b = BitVec.ofInt b t := by
  have nonneg (k : Nat) : 0 ≤ t % ((2 ^ k : Nat) : Int) :=
    Int.emod_nonneg _ (Int.natCast_ne_zero.mpr (Nat.two_pow_pos k).ne')
  apply BitVec.eq_of_toNat_eq
  apply Int.ofNat_inj.mp
  rw [BitVec.toNat_setWidth, BitVec.toNat_ofInt, BitVec.toNat_ofInt, Int.natCast_emod,
    Int.toNat_of_nonneg (nonneg w), Int.toNat_of_nonneg (nonneg b)]
  exact Int.emod_emod_of_dvd t (Int.natCast_dvd_natCast.mpr (Nat.pow_dvd_pow 2 narrow))

end Narrowing
