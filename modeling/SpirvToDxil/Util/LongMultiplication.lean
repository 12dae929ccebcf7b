import Mathlib.Data.Nat.Digits.Defs
import Mathlib.Data.Nat.ModEq
import Mathlib.Tactic.Ring

/-!
# Long multiplication

The schoolbook product of two lists of words, lowest first, into a list of digits. Each row
multiplies by one word and adds to the digits that the rows before it left. Digits that do not
fit are dropped.
-/

namespace LongMultiplication

variable {Word Digit Carry : Type}

/-- Digit and carry of one word times another, plus a digit and a carry. -/
abbrev Step (Word Digit Carry : Type) := Word → Word → Digit → Carry → Digit × Carry

section Loops

variable (step : Step Word Digit Carry) (finish : Carry → Digit)

def row (x : Word) : List Word → List Digit → Carry → List Digit
  | [], [], _ => []
  | [], _ :: digits, carry => finish carry :: digits
  | _ :: _, [], _ => []
  | y :: ys, digit :: digits, carry =>
      (step x y digit carry).1 :: row x ys digits (step x y digit carry).2

def product (start : Carry) : List Word → List Word → List Digit → List Digit
  | [], _, digits => digits
  | x :: xs, ys, digits =>
      match row step finish x ys digits start with
      | [] => []
      | digit :: digits => digit :: product start xs ys digits

theorem length_row (x : Word) (ys : List Word) (digits : List Digit) (carry : Carry) :
    (row step finish x ys digits carry).length = digits.length := by
  induction ys generalizing digits carry with
  | nil =>
      cases digits with
      | nil => rfl
      | cons digit digits => rfl
  | cons y ys inductionHypothesis =>
      cases digits with
      | nil => rfl
      | cons digit digits => exact congrArg (· + 1) (inductionHypothesis digits _)

theorem drop_row (x : Word) (ys : List Word) (digits : List Digit) (carry : Carry) :
    (row step finish x ys digits carry).drop (ys.length + 1) = digits.drop (ys.length + 1) := by
  induction ys generalizing digits carry with
  | nil =>
      cases digits with
      | nil => rfl
      | cons digit digits => rfl
  | cons y ys inductionHypothesis =>
      cases digits with
      | nil => rfl
      | cons digit digits => exact inductionHypothesis digits _

theorem length_product (start : Carry) (xs ys : List Word) (digits : List Digit) :
    (product step finish start xs ys digits).length = digits.length := by
  induction xs generalizing digits with
  | nil => rfl
  | cons x xs inductionHypothesis =>
      have length := length_row step finish x ys digits start
      unfold product
      generalize row step finish x ys digits start = done at length ⊢
      cases done with
      | nil => exact length
      | cons digit rest =>
          rw [← length]
          exact congrArg (· + 1) (inductionHypothesis rest)

end Loops

/-- A step that loses nothing, in words and digits below `base`. -/
structure Exact (step : Step Word Digit Carry) (finish : Carry → Digit) (start : Carry)
    (base : Nat) (word : Word → Nat) (digit : Digit → Nat) (carry : Carry → Nat) : Prop where
  positive : 0 < base
  word_lt : ∀ x, word x < base
  digit_lt : ∀ d, digit d < base
  start : carry start = 0
  finish : ∀ c, carry c < base → digit (finish c) = carry c
  step : ∀ x y d c, carry c < base →
    digit (step x y d c).1 + base * carry (step x y d c).2 =
      word x * word y + digit d + carry c

def value (base : Nat) (reading : Digit → Nat) (digits : List Digit) : Nat :=
  Nat.ofDigits base (digits.map reading)

theorem value_cons (base : Nat) (reading : Digit → Nat) (d : Digit) (digits : List Digit) :
    value base reading (d :: digits) = reading d + base * value base reading digits := by
  simp [value, Nat.ofDigits_cons]

namespace Exact

variable {step : Step Word Digit Carry} {finish : Carry → Digit} {start : Carry} {base : Nat}
  {word : Word → Nat} {digit : Digit → Nat} {carry : Carry → Nat}

theorem carry_lt (exact : Exact step finish start base word digit carry) (x y : Word) (d : Digit)
    {c : Carry} (fits : carry c < base) : carry (step x y d c).2 < base := by
  have sum := exact.step x y d c fits
  have left : word x ≤ base - 1 := Nat.le_sub_one_of_lt (exact.word_lt x)
  have right : word y ≤ base - 1 := Nat.le_sub_one_of_lt (exact.word_lt y)
  have bound := Nat.mul_le_mul left right
  have small := exact.digit_lt d
  obtain ⟨top, rfl⟩ : ∃ top, base = top + 1 := ⟨base - 1, by omega⟩
  apply Nat.lt_of_mul_lt_mul_left (a := top + 1)
  calc
    (top + 1) * carry (step x y d c).2 ≤ word x * word y + digit d + carry c := by omega
    _ ≤ top * top + top + top := by
      simp only [Nat.add_sub_cancel] at bound
      omega
    _ < (top + 1) * (top + 1) := by
      rw [show (top + 1) * (top + 1) = top * top + top + top + 1 by ring]
      exact Nat.lt_succ_self _

/-- One row adds a multiple of the other factor to the digits. -/
theorem row (exact : Exact step finish start base word digit carry) (x : Word) (ys : List Word)
    (digits : List Digit) {c : Carry} (fits : carry c < base)
    (empty : ∀ d ∈ digits.drop ys.length, digit d = 0) :
    value base digit (row step finish x ys digits c) ≡
      value base digit digits + word x * value base word ys + carry c
        [MOD base ^ digits.length] := by
  induction ys generalizing digits c with
  | nil =>
      cases digits with
      | nil => exact Nat.modEq_one
      | cons d digits =>
          have zero : digit d = 0 := empty d (by simp)
          have equal : value base digit (LongMultiplication.row step finish x [] (d :: digits) c) =
              value base digit (d :: digits) + word x * value base word [] + carry c := by
            rw [LongMultiplication.row, value_cons, value_cons, exact.finish c fits, zero]
            simp only [value, List.map_nil, Nat.ofDigits_nil]
            ring
          rw [equal]
  | cons y ys inductionHypothesis =>
      cases digits with
      | nil => exact Nat.modEq_one
      | cons d digits =>
          have sum := exact.step x y d c fits
          have rest := inductionHypothesis digits (exact.carry_lt x y d fits) empty
          have shifted := rest.mul_left' base
          rw [LongMultiplication.row, value_cons, value_cons, value_cons, List.length_cons,
            pow_succ, Nat.mul_comm (base ^ digits.length)]
          apply (shifted.add_left (digit (step x y d c).1)).trans
          have regrouped : digit (step x y d c).1 + base * (value base digit digits +
                word x * value base word ys + carry (step x y d c).2) =
              digit d + base * value base digit digits +
                word x * (word y + base * value base word ys) + carry c := by
            calc
              _ = digit (step x y d c).1 + base * carry (step x y d c).2 +
                  base * (value base digit digits + word x * value base word ys) := by ring
              _ = _ := by
                rw [sum]
                ring
          rw [regrouped]

/-- The digits that come out are those of the product, as far as there is room. -/
theorem product (exact : Exact step finish start base word digit carry) (xs ys : List Word)
    (digits : List Digit) (empty : ∀ d ∈ digits.drop ys.length, digit d = 0) :
    value base digit (product step finish start xs ys digits) ≡
      value base digit digits + value base word xs * value base word ys
        [MOD base ^ digits.length] := by
  induction xs generalizing digits with
  | nil => simp [LongMultiplication.product, value, Nat.ModEq.refl]
  | cons x xs inductionHypothesis =>
      have fits : carry start < base := exact.start ▸ exact.positive
      have first := exact.row x ys digits fits empty
      have length := length_row step finish x ys digits start
      have dropped := drop_row step finish x ys digits start
      rw [exact.start, Nat.add_zero] at first
      unfold LongMultiplication.product
      generalize LongMultiplication.row step finish x ys digits start = done
        at first length dropped ⊢
      cases done with
      | nil =>
          rw [← length]
          exact Nat.modEq_one
      | cons d rest =>
          have untouched : rest.drop ys.length = digits.drop (ys.length + 1) := dropped
          have later := inductionHypothesis rest (by
            intro d' member
            rw [untouched, ← List.drop_drop] at member
            exact empty d' (List.mem_of_mem_drop member))
          have shifted := (later.mul_left' base).add_left (digit d)
          rw [List.length_cons] at length
          rw [← length, pow_succ, Nat.mul_comm (base ^ rest.length)] at first ⊢
          rw [value_cons] at first
          dsimp only
          rw [value_cons, value_cons]
          apply shifted.trans
          calc
            digit d + base * (value base digit rest + value base word xs * value base word ys)
              = digit d + base * value base digit rest +
                  base * (value base word xs * value base word ys) := by ring
            _ ≡ value base digit digits + word x * value base word ys +
                  base * (value base word xs * value base word ys)
                [MOD base * base ^ rest.length] := first.add_right _
            _ = value base digit digits +
                  (word x + base * value base word xs) * value base word ys := by ring

end Exact

end LongMultiplication
