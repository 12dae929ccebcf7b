import Mathlib.Algebra.Order.Ring.Nat
import Mathlib.Tactic.Ring

/-!
# Remainders by a constant

`util/fast_urem_by_const.h`.
-/

namespace SpirvToDxil

/-- `REMAINDER_MAGIC`, a 64-bit number. -/
def remainderMagic (divisor : Nat) : Nat := ((2 ^ 64 - 1) / divisor + 1) % 2 ^ 64

/-- `_mul32by64_hi` where there is no 128-bit type. -/
def mul32by64Hi (a b : Nat) : Nat :=
  let b0 := b % 2 ^ 32
  let b1 := b / 2 ^ 32
  (a * b0 / 2 ^ 32 + a * b1) / 2 ^ 32

def fastUrem32 (n d magic : Nat) : Nat := mul32by64Hi d (magic * n % 2 ^ 64)

/-- The sum of the partial products has the upper bits of the whole product. -/
theorem mul32by64Hi_eq (a b : Nat) : mul32by64Hi a b = a * b / 2 ^ 64 := by
  have split : a * b = a * (b % 2 ^ 32) + a * (b / 2 ^ 32) * 2 ^ 32 := by
    calc a * b = a * (b % 2 ^ 32 + 2 ^ 32 * (b / 2 ^ 32)) := by rw [Nat.mod_add_div]
      _ = a * (b % 2 ^ 32) + a * (b / 2 ^ 32) * 2 ^ 32 := by ring
  have width : (2 : Nat) ^ 64 = 2 ^ 32 * 2 ^ 32 := by norm_num
  rw [mul32by64Hi, width, ← Nat.div_div_eq_div_mul, split,
    Nat.add_mul_div_right _ _ (Nat.two_pow_pos 32)]

/-- The magic number is the smallest multiple of the inverse that is not below `2 ^ 64`. -/
theorem exists_remainderMagic {d : Nat} (positive : 1 < d) :
    ∃ excess < d, remainderMagic d * d = 2 ^ 64 + excess := by
  have small : (2 ^ 64 - 1) / d + 1 < 2 ^ 64 := by
    have half : (2 ^ 64 - 1) / d ≤ (2 ^ 64 - 1) / 2 := Nat.div_le_div_left positive (by norm_num)
    omega
  have division := Nat.div_add_mod (2 ^ 64 - 1) d
  have remainder := Nat.mod_lt (2 ^ 64 - 1) (Nat.zero_lt_of_lt positive)
  refine ⟨d - 1 - (2 ^ 64 - 1) % d, by omega, ?_⟩
  rw [remainderMagic, Nat.mod_eq_of_lt small, Nat.succ_mul, Nat.mul_comm _ d]
  omega

/-- The fast remainder is the remainder. -/
theorem fastUrem32_eq {n d : Nat} (nLess : n < 2 ^ 32) (positive : 0 < d) (dLess : d < 2 ^ 32) :
    fastUrem32 n d (remainderMagic d) = n % d := by
  rw [fastUrem32, mul32by64Hi_eq]
  rcases Nat.eq_or_lt_of_le positive with one | more
  · subst one
    have wrapped : remainderMagic 1 = 0 := by norm_num [remainderMagic]
    rw [Nat.mod_one, Nat.succ_eq_add_one, Nat.zero_add, wrapped, Nat.zero_mul]
    rfl
  · obtain ⟨excess, excessLess, magic⟩ := exists_remainderMagic more
    have remainder : n % d < d := Nat.mod_lt n positive
    -- the excess is too small to carry into the remainder
    have small : excess * n < 2 ^ 64 := by
      calc excess * n ≤ 2 ^ 32 * n := Nat.mul_le_mul_right n (by omega)
        _ < 2 ^ 32 * 2 ^ 32 := Nat.mul_lt_mul_of_pos_left nLess (Nat.two_pow_pos 32)
        _ = 2 ^ 64 := by norm_num
    have quotient : remainderMagic d * n =
        n / d * 2 ^ 64 + (n / d * excess + remainderMagic d * (n % d)) := by
      calc remainderMagic d * n
          = remainderMagic d * (d * (n / d) + n % d) := by rw [Nat.div_add_mod]
        _ = n / d * (remainderMagic d * d) + remainderMagic d * (n % d) := by ring
        _ = n / d * 2 ^ 64 + (n / d * excess + remainderMagic d * (n % d)) := by rw [magic]; ring
    have scaled : d * (n / d * excess + remainderMagic d * (n % d)) =
        n % d * 2 ^ 64 + excess * n := by
      calc d * (n / d * excess + remainderMagic d * (n % d))
          = d * (n / d) * excess + n % d * (remainderMagic d * d) := by ring
        _ = n % d * 2 ^ 64 + excess * (d * (n / d) + n % d) := by rw [magic]; ring
        _ = n % d * 2 ^ 64 + excess * n := by rw [Nat.div_add_mod]
    have fits : n / d * excess + remainderMagic d * (n % d) < 2 ^ 64 := by
      apply Nat.lt_of_mul_lt_mul_left (a := d)
      rw [scaled]
      calc n % d * 2 ^ 64 + excess * n < n % d * 2 ^ 64 + 2 ^ 64 := Nat.add_lt_add_left small _
        _ = (n % d + 1) * 2 ^ 64 := by ring
        _ ≤ d * 2 ^ 64 := Nat.mul_le_mul_right _ remainder
    rw [quotient, Nat.add_comm, Nat.add_mul_mod_self_right, Nat.mod_eq_of_lt fits, scaled,
      Nat.add_comm, Nat.add_mul_div_right _ _ (Nat.two_pow_pos 64), Nat.div_eq_of_lt small,
      Nat.zero_add]

end SpirvToDxil
