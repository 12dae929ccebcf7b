import Mathlib.Algebra.BigOperators.Group.List.Lemmas
import Mathlib.Algebra.BigOperators.Ring.List
import Mathlib.Algebra.Order.BigOperators.GroupWithZero.List
import Mathlib.Algebra.Order.Ring.Nat
import Mathlib.Data.Nat.Bitwise

/-!
# Row-major indices

The positions of the elements of nested arrays, and alignment of a size to itself.
-/

namespace RowMajor

def offset (stride : List Nat → Nat) : List Nat → List Nat → Nat
  | _ :: lengths, index :: indices => index * stride lengths + offset stride lengths indices
  | _, _ => 0

def flatIndex : List Nat → List Nat → Nat := offset List.prod

def InBounds (lengths indices : List Nat) : Prop := List.Forall₂ (· < ·) indices lengths

variable {lengths indices : List Nat}

theorem flatIndex_lt (inside : InBounds lengths indices) :
    flatIndex lengths indices < lengths.prod := by
  induction inside with
  | nil => simp [flatIndex, offset]
  | @cons index length indices lengths less _ inductionHypothesis =>
      calc index * lengths.prod + flatIndex lengths indices
          < index * lengths.prod + lengths.prod := Nat.add_lt_add_left inductionHypothesis _
        _ = (index + 1) * lengths.prod := by rw [Nat.succ_mul]
        _ ≤ length * lengths.prod := Nat.mul_le_mul_right _ less
        _ = (length :: lengths).prod := (List.prod_cons).symm

theorem flatIndex_injective {other : List Nat} (inside : InBounds lengths indices)
    (otherInside : InBounds lengths other)
    (equal : flatIndex lengths indices = flatIndex lengths other) : indices = other := by
  induction inside generalizing other with
  | nil => cases otherInside with | nil => rfl
  | @cons index length indices lengths less inner inductionHypothesis =>
      cases otherInside with
      | @cons index' _ indices' _ less' inner' =>
          have bound := flatIndex_lt inner
          have bound' := flatIndex_lt inner'
          have positive : 0 < lengths.prod := Nat.lt_of_le_of_lt (Nat.zero_le _) bound
          have split : index * lengths.prod + flatIndex lengths indices =
              index' * lengths.prod + flatIndex lengths indices' := equal
          have quotient := congrArg (· / lengths.prod) split
          simp only [Nat.mul_comm _ lengths.prod, Nat.mul_add_div positive,
            Nat.div_eq_of_lt bound, Nat.div_eq_of_lt bound', Nat.add_zero] at quotient
          subst quotient
          rw [inductionHypothesis inner' (Nat.add_left_cancel split)]

theorem exists_flatIndex {position : Nat} (bound : position < lengths.prod) :
    ∃ indices, InBounds lengths indices ∧ flatIndex lengths indices = position := by
  induction lengths generalizing position with
  | nil =>
      rw [List.prod_nil] at bound
      exact ⟨[], .nil, by simp [flatIndex, offset]; omega⟩
  | cons length lengths inductionHypothesis =>
      rw [List.prod_cons] at bound
      have positive : 0 < lengths.prod := Nat.pos_of_ne_zero (by rintro zero; simp [zero] at bound)
      obtain ⟨indices, inside, found⟩ := inductionHypothesis (Nat.mod_lt position positive)
      refine ⟨position / lengths.prod :: indices, .cons ?_ inside, ?_⟩
      · rw [Nat.div_lt_iff_lt_mul positive]
        exact bound
      · calc position / lengths.prod * lengths.prod + flatIndex lengths indices
            = position / lengths.prod * lengths.prod + position % lengths.prod := by rw [found]
          _ = position := Nat.div_add_mod' position lengths.prod

theorem prod_pos_of_inBounds (inside : InBounds lengths indices) : 0 < lengths.prod :=
  Nat.lt_of_le_of_lt (Nat.zero_le _) (flatIndex_lt inside)

theorem pos_of_prod_ne_zero (nonzero : lengths.prod ≠ 0) {length : Nat}
    (member : length ∈ lengths) : 0 < length := by
  apply Nat.pos_of_ne_zero
  rintro rfl
  exact nonzero (List.prod_eq_zero member)

theorem offset_zeros (stride : List Nat → Nat) (lengths : List Nat) :
    offset stride lengths (lengths.map fun _ => 0) = 0 := by
  induction lengths with
  | nil => rfl
  | cons length lengths inductionHypothesis =>
      simp only [List.map_cons, offset, inductionHypothesis, Nat.zero_mul]

theorem inBounds_zeros (nonzero : lengths.prod ≠ 0) :
    InBounds lengths (lengths.map fun _ => 0) := by
  rw [InBounds, List.forall₂_map_left_iff, List.forall₂_same]
  intro length member
  exact pos_of_prod_ne_zero nonzero member

theorem le_flatIndex (positive : ∀ length ∈ lengths, 0 < length)
    (inside : InBounds lengths indices) {index : Nat} (member : index ∈ indices) :
    index ≤ flatIndex lengths indices := by
  induction inside with
  | nil => cases member
  | @cons head length indices lengths less inner inductionHypothesis =>
      have rest : ∀ length ∈ lengths, 0 < length :=
        fun length member => positive length (List.mem_cons_of_mem _ member)
      have product : 0 < lengths.prod := List.prod_pos rest
      rcases List.mem_cons.mp member with rfl | later
      · calc index = index * 1 := (Nat.mul_one index).symm
          _ ≤ index * lengths.prod := Nat.mul_le_mul_left index product
          _ ≤ flatIndex (length :: lengths) (index :: indices) := Nat.le_add_right _ _
      · calc index ≤ flatIndex lengths indices := inductionHypothesis rest later
          _ ≤ flatIndex (length :: lengths) (head :: indices) := Nat.le_add_left _ _

theorem lt_of_inBounds (inside : InBounds lengths indices) {index : Nat}
    (member : index ∈ indices) : index < lengths.prod := by
  have nonzero : lengths.prod ≠ 0 := Nat.ne_of_gt (prod_pos_of_inBounds inside)
  apply Nat.lt_of_le_of_lt _ (flatIndex_lt inside)
  exact le_flatIndex (fun _ member => pos_of_prod_ne_zero nonzero member) inside member

/-- `ALIGN_POT(size, size)`, which is meant for powers of two. -/
def alignSelf (size : Nat) : Nat := Nat.ldiff (2 * size - 1) (size - 1)

theorem alignSelf_lt {size : Nat} (positive : 0 < size) : alignSelf size < 2 * size := by
  have le : alignSelf size ≤ 2 * size - 1 := by
    apply Nat.le_of_testBit
    intro i bit
    rw [alignSelf, Nat.testBit_ldiff, Bool.and_eq_true] at bit
    exact bit.1
  omega

theorem alignSelf_even {half : Nat} (positive : 0 < half) :
    alignSelf (2 * half) = 2 * alignSelf half := by
  have twice : 2 * (2 * half) - 1 = Nat.bit true (2 * half - 1) := by
    rw [Nat.bit_val]
    simp
    omega
  have once : 2 * half - 1 = Nat.bit true (half - 1) := by
    rw [Nat.bit_val]
    simp
    omega
  calc alignSelf (2 * half)
      = Nat.ldiff (Nat.bit true (2 * half - 1)) (Nat.bit true (half - 1)) := by
        rw [alignSelf, twice, ← once]
    _ = 2 * alignSelf half := by
        rw [Nat.ldiff_bit, Nat.bit_val, alignSelf]
        simp

/-- An odd size keeps its low bit, and loses the others that it shares with its double. -/
theorem alignSelf_odd {half : Nat} :
    alignSelf (2 * half + 1) = 2 * Nat.ldiff (2 * half) half + 1 := by
  have twice : 2 * (2 * half + 1) - 1 = Nat.bit true (2 * half) := by
    rw [Nat.bit_val]
    simp
    omega
  have once : 2 * half + 1 - 1 = Nat.bit false half := by
    rw [Nat.bit_val]
    simp
  rw [alignSelf, twice, once, Nat.ldiff_bit, Nat.bit_val]
  simp

theorem ldiff_eq_right_iff (a b : Nat) : Nat.ldiff a b = b ↔ a = 0 ∧ b = 0 := by
  constructor
  · intro equal
    have zero : b = 0 := by
      by_contra nonzero
      obtain ⟨i, bit⟩ := Nat.exists_testBit_of_ne_zero nonzero
      have lost := congrArg (Nat.testBit · i) equal
      simp [Nat.testBit_ldiff, bit] at lost
    subst zero
    refine ⟨Nat.eq_of_testBit_eq fun i => ?_, rfl⟩
    have kept := congrArg (Nat.testBit · i) equal
    simpa [Nat.testBit_ldiff] using kept
  · rintro ⟨rfl, rfl⟩
    exact Nat.eq_of_testBit_eq fun i => by simp [Nat.testBit_ldiff]

theorem alignSelf_eq_iff {size : Nat} (positive : 0 < size) :
    alignSelf size = size ↔ ∃ k, size = 2 ^ k := by
  induction size using Nat.strong_induction_on with
  | _ size inductionHypothesis =>
      rcases Nat.even_or_odd' size with ⟨half, rfl | rfl⟩
      · have smaller := inductionHypothesis half (by omega) (by omega)
        rw [alignSelf_even (by omega), Nat.mul_right_inj (by decide), smaller]
        constructor
        · rintro ⟨k, rfl⟩
          exact ⟨k + 1, by rw [Nat.pow_succ, Nat.mul_comm]⟩
        · rintro ⟨k, power⟩
          cases k with
          | zero => omega
          | succ k => exact ⟨k, by rw [Nat.pow_succ] at power; omega⟩
      · rw [alignSelf_odd, Nat.add_right_cancel_iff, Nat.mul_right_inj (by decide),
          ldiff_eq_right_iff]
        constructor
        · rintro ⟨_, rfl⟩
          exact ⟨0, rfl⟩
        · rintro ⟨k, power⟩
          cases k with
          | zero => omega
          | succ k =>
              rw [Nat.pow_succ] at power
              omega

/-- The element sizes are powers of two wherever an index can be other than zero. -/
def PackedStrides : List Nat → Prop
  | [] => True
  | length :: lengths => (length ≤ 1 ∨ ∃ k, lengths.prod = 2 ^ k) ∧ PackedStrides lengths

def alignedOffset : List Nat → List Nat → Nat := offset fun lengths => alignSelf lengths.prod

theorem alignedOffset_eq_flatIndex (packed : PackedStrides lengths)
    (inside : InBounds lengths indices) :
    alignedOffset lengths indices = flatIndex lengths indices := by
  induction inside with
  | nil => rfl
  | @cons index length indices lengths less inner inductionHypothesis =>
      obtain ⟨head, tail⟩ := packed
      have positive := prod_pos_of_inBounds inner
      have term : index * alignSelf lengths.prod = index * lengths.prod := by
        rcases head with single | power
        · obtain rfl : index = 0 := by omega
          simp
        · rw [(alignSelf_eq_iff positive).mpr power]
      exact congrArg₂ (· + ·) term (inductionHypothesis tail)

/-- Offsets that agree modulo a bound on the number of elements come from packed strides. -/
theorem packedStrides_of_offsets {modulus : Nat} (nonzero : lengths.prod ≠ 0)
    (bound : lengths.prod ≤ modulus)
    (agree : ∀ indices, InBounds lengths indices →
      alignedOffset lengths indices % modulus = flatIndex lengths indices % modulus) :
    PackedStrides lengths := by
  induction lengths with
  | nil => trivial
  | cons length lengths inductionHypothesis =>
      rw [List.prod_cons] at nonzero bound
      have inner : lengths.prod ≠ 0 := Nat.ne_zero_of_mul_ne_zero_right nonzero
      have outer : 0 < length := Nat.pos_of_ne_zero (Nat.ne_zero_of_mul_ne_zero_left nonzero)
      have smaller : lengths.prod ≤ length * lengths.prod := Nat.le_mul_of_pos_left _ outer
      refine ⟨?_, inductionHypothesis inner (Nat.le_trans smaller bound) ?_⟩
      · by_cases single : length ≤ 1
        · exact .inl single
        · have double : 2 * lengths.prod ≤ length * lengths.prod :=
            Nat.mul_le_mul_right _ (by omega)
          have aligned := alignSelf_lt (Nat.pos_of_ne_zero inner)
          have unit := agree (1 :: lengths.map fun _ => 0)
            (.cons (by omega) (inBounds_zeros inner))
          simp only [alignedOffset, flatIndex, offset, offset_zeros, Nat.one_mul,
            Nat.add_zero] at unit
          rw [Nat.mod_eq_of_lt (by omega), Nat.mod_eq_of_lt (by omega)] at unit
          exact .inr ((alignSelf_eq_iff (Nat.pos_of_ne_zero inner)).mp unit)
      · intro indices inside
        have shifted := agree (0 :: indices) (.cons outer inside)
        simpa [alignedOffset, flatIndex, offset] using shifted

end RowMajor
