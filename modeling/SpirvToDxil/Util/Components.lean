import Mathlib.Algebra.Order.Ring.Nat

/-!
# Vectors of components as one row of bits

The first component has the lowest bits.
-/

namespace Components

variable {w : Nat}

def bit (components : List (BitVec w)) (i : Nat) : Bool :=
  (components.getD (i / w) 0#w).getLsbD (i % w)

theorem bit_of_component (components : List (BitVec w)) {i j : Nat} (less : j < w) :
    bit components (i * w + j) = (components.getD i 0#w).getLsbD j := by
  have positive : 0 < w := by omega
  rw [bit, Nat.mul_comm, Nat.mul_add_div positive, Nat.mul_add_mod, Nat.div_eq_of_lt less,
    Nat.mod_eq_of_lt less, Nat.add_zero]

theorem bit_cons (component : BitVec w) (components : List (BitVec w)) (i : Nat) :
    bit (component :: components) i =
      if i < w then component.getLsbD i else bit components (i - w) := by
  split
  next inside =>
    rw [bit, Nat.div_eq_of_lt inside, Nat.mod_eq_of_lt inside]
    rfl
  next past =>
    rcases Nat.eq_zero_or_pos w with rfl | positive
    · rw [bit, bit, BitVec.getLsbD_of_ge _ _ (Nat.zero_le _),
        BitVec.getLsbD_of_ge _ _ (Nat.zero_le _)]
    · rw [bit, bit, Nat.div_eq_sub_div positive (by omega), Nat.mod_eq_sub_mod (by omega)]
      rfl

theorem bit_append (components components' : List (BitVec w)) (i : Nat) :
    bit (components ++ components') i =
      if i < components.length * w then bit components i
      else bit components' (i - components.length * w) := by
  induction components generalizing i with
  | nil => simp
  | cons component components inductionHypothesis =>
      rw [List.cons_append, bit_cons, bit_cons, List.length_cons, Nat.succ_mul,
        inductionHypothesis]
      split
      next inside => rw [if_pos (Nat.lt_add_left _ inside)]
      next past =>
        have rest : i - (components.length * w + w) = i - w - components.length * w := by omega
        rw [rest]
        split
        next => rw [if_pos (by omega)]
        next => rw [if_neg (by omega)]

theorem bit_map_range (f : Nat → BitVec w) {count i : Nat} (less : i < count * w) :
    bit ((List.range count).map f) i = (f (i / w)).getLsbD (i % w) := by
  have inside : i / w < count := Nat.div_lt_of_lt_mul (by rwa [Nat.mul_comm])
  simp [bit, List.getD_eq_getElem?_getD, inside]

theorem bit_take_drop (components : List (BitVec w)) {first count i : Nat}
    (less : i < count * w) :
    bit ((components.drop first).take count) i = bit components (first * w + i) := by
  have positive : 0 < w := Nat.pos_of_mul_pos_left (Nat.zero_lt_of_lt less)
  have inside : i / w < count := Nat.div_lt_of_lt_mul (by rwa [Nat.mul_comm])
  have place : (first * w + i) / w = first + i / w := by
    rw [Nat.mul_comm, Nat.mul_add_div positive]
  have same : (first * w + i) % w = i % w := by
    rw [Nat.mul_comm, Nat.mul_add_mod]
  rw [bit, bit, place, same, List.getD_eq_getElem?_getD, List.getElem?_take, if_pos inside,
    List.getElem?_drop, List.getD_eq_getElem?_getD]

theorem ext {components components' : List (BitVec w)}
    (length : components.length = components'.length)
    (bits : ∀ i < components.length * w, bit components i = bit components' i) :
    components = components' := by
  apply List.ext_getElem length
  intro i less less'
  apply BitVec.eq_of_getLsbD_eq
  intro j inside
  have inRow : i * w + j < components.length * w := by
    calc i * w + j < (i + 1) * w := by
          rw [Nat.add_mul]
          omega
      _ ≤ components.length * w := Nat.mul_le_mul_right w less
  have same := bits (i * w + j) inRow
  rw [bit_of_component _ inside, bit_of_component _ inside] at same
  simpa [List.getD_eq_getElem?_getD, less, less'] using same

end Components
