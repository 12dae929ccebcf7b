import Mathlib.Data.Nat.Bitwise
import Mathlib.Tactic.Ring

/-!
# Little-endian bit strings

A bit string lists its least significant bit first.  `bitsOfNat width n` is the
field of `width` bits that a serializer writes for `n`; `natOfBits` reads such a
field back.  Bytes and words are fields of eight and thirty-two bits, so a byte
string is a bit string whose length is a multiple of eight.
-/

namespace Bitstream

/-- The low `width` bits of `n`, least significant first. -/
def bitsOfNat : Nat → Nat → List Bool
  | 0, _ => []
  | width + 1, n => (n % 2 == 1) :: bitsOfNat width (n / 2)

def natOfBits : List Bool → Nat
  | [] => 0
  | bit :: bits => bit.toNat + 2 * natOfBits bits

@[simp] theorem bitsOfNat_zero_width (n : Nat) : bitsOfNat 0 n = [] := rfl

@[simp] theorem natOfBits_nil : natOfBits [] = 0 := rfl

@[simp] theorem length_bitsOfNat (width n : Nat) : (bitsOfNat width n).length = width := by
  induction width generalizing n with
  | zero => rfl
  | succ width ih => simp [bitsOfNat, ih]

theorem natOfBits_bitsOfNat (width n : Nat) : natOfBits (bitsOfNat width n) = n % 2 ^ width := by
  induction width generalizing n with
  | zero => simp [Nat.mod_one]
  | succ width ih =>
    have low : (n % 2 == 1).toNat = n % 2 := by
      rcases Nat.mod_two_eq_zero_or_one n with h | h <;> simp [h]
    rw [bitsOfNat, natOfBits, ih, low, Nat.pow_succ', Nat.mod_mul]

theorem natOfBits_bitsOfNat_of_lt {width n : Nat} (fits : n < 2 ^ width) :
    natOfBits (bitsOfNat width n) = n := by
  rw [natOfBits_bitsOfNat, Nat.mod_eq_of_lt fits]

/-- A field splits into its low and its high part. -/
theorem bitsOfNat_add (low high n : Nat) :
    bitsOfNat (low + high) n = bitsOfNat low n ++ bitsOfNat high (n / 2 ^ low) := by
  induction low generalizing n with
  | zero => simp
  | succ low ih =>
    rw [Nat.succ_add, bitsOfNat, ih, bitsOfNat, List.cons_append, Nat.div_div_eq_div_mul,
      Nat.pow_succ']

theorem bitsOfNat_mod (width n : Nat) : bitsOfNat width (n % 2 ^ width) = bitsOfNat width n := by
  induction width generalizing n with
  | zero => rfl
  | succ width ih =>
    have low : n % 2 ^ (width + 1) % 2 = n % 2 :=
      Nat.mod_mod_of_dvd n (Dvd.intro_left (2 ^ width) (by rw [Nat.pow_succ]))
    have high : n % 2 ^ (width + 1) / 2 = n / 2 % 2 ^ width := by
      rw [Nat.pow_succ', Nat.mod_mul_right_div_self]
    rw [bitsOfNat, bitsOfNat, low, high, ih]

theorem bitsOfNat_zero (width : Nat) : bitsOfNat width 0 = List.replicate width false := by
  induction width with
  | zero => rfl
  | succ width ih => simp [bitsOfNat, ih, List.replicate_succ]

theorem bitsOfNat_append {low : Nat} (high : Nat) {a : Nat} (b : Nat) (fits : a < 2 ^ low) :
    bitsOfNat low a ++ bitsOfNat high b = bitsOfNat (low + high) (a + 2 ^ low * b) := by
  have lowPart : (a + 2 ^ low * b) % 2 ^ low = a := by
    rw [Nat.add_mul_mod_self_left, Nat.mod_eq_of_lt fits]
  have highPart : (a + 2 ^ low * b) / 2 ^ low = b := by
    rw [Nat.add_mul_div_left _ _ (Nat.two_pow_pos low), Nat.div_eq_of_lt fits, Nat.zero_add]
  rw [bitsOfNat_add, highPart, ← bitsOfNat_mod low (a + 2 ^ low * b), lowPart]

/-! ## Bytes -/

/-- The bits of a byte string, each byte least significant bit first. -/
def bitsOfBytes (bytes : List UInt8) : List Bool :=
  bytes.flatMap fun byte => bitsOfNat 8 byte.toNat

@[simp] theorem bitsOfBytes_nil : bitsOfBytes [] = [] := rfl

@[simp] theorem bitsOfBytes_append (first second : List UInt8) :
    bitsOfBytes (first ++ second) = bitsOfBytes first ++ bitsOfBytes second := by
  simp [bitsOfBytes]

@[simp] theorem length_bitsOfBytes (bytes : List UInt8) :
    (bitsOfBytes bytes).length = 8 * bytes.length := by
  induction bytes with
  | nil => rfl
  | cons byte bytes ih =>
    rw [← List.singleton_append, bitsOfBytes_append, List.length_append, ih]
    simp [bitsOfBytes]
    omega

/-- The `count` bytes of a little-endian number. -/
def bytesOfNat : Nat → Nat → List UInt8
  | 0, _ => []
  | count + 1, n => UInt8.ofNat n :: bytesOfNat count (n / 256)

def natOfBytes : List UInt8 → Nat
  | [] => 0
  | byte :: bytes => byte.toNat + 256 * natOfBytes bytes

@[simp] theorem length_bytesOfNat (count n : Nat) : (bytesOfNat count n).length = count := by
  induction count generalizing n with
  | zero => rfl
  | succ count ih => simp [bytesOfNat, ih]

theorem natOfBytes_bytesOfNat {count n : Nat} (fits : n < 256 ^ count) :
    natOfBytes (bytesOfNat count n) = n := by
  induction count generalizing n with
  | zero => simp at fits; simp [bytesOfNat, natOfBytes, fits]
  | succ count ih =>
    have high : n / 256 < 256 ^ count := by
      rw [Nat.div_lt_iff_lt_mul (by norm_num), ← Nat.pow_succ]
      exact fits
    simp only [bytesOfNat, natOfBytes, ih high, UInt8.toNat_ofNat']
    omega

/-- The bytes of a little-endian number carry its bits in order. -/
theorem bitsOfBytes_bytesOfNat (count n : Nat) :
    bitsOfBytes (bytesOfNat count n) = bitsOfNat (8 * count) n := by
  induction count generalizing n with
  | zero => rfl
  | succ count ih =>
    rw [bytesOfNat, ← List.singleton_append, bitsOfBytes_append, ih, Nat.mul_succ, Nat.add_comm,
      bitsOfNat_add]
    simpa [bitsOfBytes] using bitsOfNat_mod 8 n

end Bitstream
