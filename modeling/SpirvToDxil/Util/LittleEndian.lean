import Mathlib.Algebra.Order.Ring.Nat
import Mathlib.Data.Nat.Bitwise
import Mathlib.Tactic.Ring

/-!
# Little-endian numbers in a memory of bytes
-/

/-- The number in the bytes from the address on, the first one the least significant. -/
def littleEndian (bytes : Nat → BitVec 8) (address : Nat) : Nat → Nat
  | 0 => 0
  | size + 1 => (bytes address).toNat + 256 * littleEndian bytes (address + 1) size

theorem testBit_littleEndian (bytes : Nat → BitVec 8) (address size i : Nat) :
    (littleEndian bytes address size).testBit i =
      (decide (i < 8 * size) && (bytes (address + i / 8)).getLsbD (i % 8)) := by
  induction size generalizing address i with
  | zero => simp [littleEndian]
  | succ size inductionHypothesis =>
      have first : (bytes address).toNat < 2 ^ 8 := (bytes address).isLt
      rw [littleEndian, Nat.add_comm, show (256 : Nat) = 2 ^ 8 by rfl,
        Nat.testBit_two_pow_mul_add _ first]
      split
      next inside =>
        have here : i / 8 = 0 := by omega
        rw [here, Nat.mod_eq_of_lt inside, Nat.add_zero, decide_eq_true (by omega), Bool.true_and]
        rfl
      next later =>
        have next : address + 1 + (i - 8) / 8 = address + i / 8 := by omega
        have same : (i - 8) % 8 = i % 8 := by omega
        rw [inductionHypothesis, next, same]
        congr 1
        rw [decide_eq_decide]
        omega

/-- The bits of the memory, byte after byte. -/
def memoryBit (bytes : Nat → BitVec 8) (i : Nat) : Bool := (bytes (i / 8)).getLsbD (i % 8)

theorem memoryBit_eq (bytes : Nat → BitVec 8) (address : Nat) {i : Nat} (less : i < 8) :
    memoryBit bytes (8 * address + i) = (bytes address).getLsbD i := by
  rw [memoryBit, Nat.mul_add_div (by decide), Nat.mul_add_mod, Nat.div_eq_of_lt less,
    Nat.mod_eq_of_lt less, Nat.add_zero]

theorem eq_of_memoryBit {bytes bytes' : Nat → BitVec 8}
    (same : ∀ i, memoryBit bytes i = memoryBit bytes' i) : bytes = bytes' := by
  funext address
  apply BitVec.eq_of_getLsbD_eq
  intro i less
  rw [← memoryBit_eq _ _ less, same, memoryBit_eq _ _ less]
