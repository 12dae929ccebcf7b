import Mathlib.Data.Int.ModEq
import Mathlib.Data.List.Find
import Mathlib.Tactic.Ring

/-!
# Bit vectors

Loops over the bits of a word, and remainders that differ in whose sign they take.
-/

namespace BitVector

variable {w : Nat}

/-- The first bit below `n` that passes `test`, all ones where none does. -/
def firstBit (n : Nat) (test : Nat → Bool) : BitVec 32 :=
  match (List.range n).find? test with
  | some bit => BitVec.ofNat 32 bit
  | none => -1

theorem firstBit_congr {n : Nat} {test test' : Nat → Bool}
    (same : ∀ bit < n, test bit = test' bit) : firstBit n test = firstBit n test' := by
  have found : (List.range n).find? test = (List.range n).find? test' := by
    apply List.find?_congr
    intro bit member
    exact same bit (List.mem_range.mp member)
  simp only [firstBit, found]

theorem firstBit_of_none {n : Nat} {test : Nat → Bool} (none : ∀ bit < n, test bit = false) :
    firstBit n test = -1 := by
  have found : (List.range n).find? test = Option.none := by
    rw [List.find?_eq_none]
    intro bit member
    simp [none bit (List.mem_range.mp member)]
  simp only [firstBit, found]

theorem firstBit_of_first {n bit : Nat} {test : Nat → Bool} (bound : bit < n)
    (hit : test bit = true) (first : ∀ earlier < bit, test earlier = false) :
    firstBit n test = BitVec.ofNat 32 bit := by
  have found : (List.range n).find? test = some bit := by
    rw [List.find?_range_eq_some]
    refine ⟨hit, List.mem_range.mpr bound, ?_⟩
    intro earlier less
    simp [first earlier less]
  simp only [firstBit, found]

theorem firstBit_getLsbD (x : BitVec w) :
    firstBit w x.getLsbD = if x = 0#w then -1 else x.ctz.setWidth 32 := by
  split
  next zero =>
    apply firstBit_of_none
    intro bit _
    simp [zero]
  next nonzero =>
    have bound : x.ctz.toNat < w := by
      have less := BitVec.ctz_lt_iff_ne_zero.mpr nonzero
      simpa [BitVec.lt_def] using less
    rw [firstBit_of_first bound (BitVec.getLsbD_true_ctz_of_ne_zero nonzero)
      (fun _ less => BitVec.getLsbD_false_of_lt_ctz less)]
    apply BitVec.eq_of_toNat_eq
    simp

theorem firstBit_getMsbD (x : BitVec w) :
    firstBit w x.getMsbD = if x = 0#w then -1 else x.clz.setWidth 32 := by
  have scan := firstBit_getLsbD x.reverse
  simp only [BitVec.reverse_eq_zero_iff, ← BitVec.clz_eq_reverse_ctz] at scan
  rw [← scan]
  apply firstBit_congr
  intro bit _
  rw [BitVec.getLsbD_reverse]

theorem getLsbD_shiftLeft_top {bit : Nat} (x : BitVec w) (inside : bit < w) (wide : Nat)
    (fits : w ≤ wide) : (x.setWidth wide <<< bit).getLsbD (w - 1) = x.getMsbD bit := by
  have top : w - 1 < wide := by omega
  have moved : ¬w - 1 < bit := by omega
  simp [BitVec.getMsbD_eq_getLsbD, inside, top, moved]

/-- Scanning for the first bit that differs from the sign. -/
theorem firstBit_sign (x : BitVec w) :
    firstBit w (fun bit => (x <<< bit).getLsbD (w - 1) != x.getLsbD (w - 1)) =
      firstBit w (if x.msb then ~~~x else x).getMsbD := by
  apply firstBit_congr
  intro bit inside
  have shifted := getLsbD_shiftLeft_top x inside w (Nat.le_refl w)
  rw [BitVec.setWidth_eq] at shifted
  have sign : x.getLsbD (w - 1) = x.msb := by
    rw [BitVec.msb_eq_getLsbD_last]
  rw [shifted, sign]
  cases x.msb with
  | true => simp [inside]
  | false => simp

theorem foldl_count (x : BitVec w) (n : Nat) :
    (List.range n).foldl (fun count bit => if x.getLsbD bit then count + 1 else count) (0#32) =
      BitVec.ofNat 32 (x.cpopNatRec n 0) := by
  induction n with
  | zero => simp
  | succ n inductionHypothesis =>
      rw [List.range_succ, List.foldl_append, inductionHypothesis, BitVec.cpopNatRec_succ,
        @BitVec.cpopNatRec_eq _ _ _ (0 + _)]
      simp only [List.foldl_cons, List.foldl_nil]
      cases x.getLsbD n with
      | true => simp [BitVec.ofNat_add]
      | false => simp

theorem foldl_count_width (x : BitVec w) :
    (List.range w).foldl (fun count bit => if x.getLsbD bit then count + 1 else count) (0#32) =
      x.cpop.setWidth 32 := by
  rw [foldl_count]
  apply BitVec.eq_of_toNat_eq
  rw [BitVec.toNat_ofNat, BitVec.toNat_setWidth, BitVec.toNat_cpop]

theorem getLsbD_foldl_mirror (x : BitVec w) (n i : Nat) (bound : n ≤ w) :
    ((List.range n).foldl
      (fun word bit => word ||| (x >>> bit &&& 1#w) <<< ((w - 1) - bit)) (0#w)).getLsbD i =
      (decide (w - n ≤ i) && x.reverse.getLsbD i) := by
  induction n with
  | zero =>
      by_cases inside : i < w
      · simp [inside]
      · simp [BitVec.getLsbD_of_ge, Nat.not_lt.mp inside]
  | succ n inductionHypothesis =>
      rw [List.range_succ, List.foldl_append]
      simp only [List.foldl_cons, List.foldl_nil, BitVec.getLsbD_or]
      rw [inductionHypothesis (Nat.le_of_succ_le bound)]
      simp only [BitVec.getLsbD_shiftLeft, BitVec.getLsbD_and, BitVec.getLsbD_ushiftRight,
        BitVec.getLsbD_one, BitVec.getLsbD_reverse, BitVec.getMsbD_eq_getLsbD]
      by_cases here : i = w - 1 - n
      · subst here
        have mirror : w - 1 - (w - 1 - n) = n := by omega
        have inside : w - 1 - n < w := by omega
        have outside : ¬ w - n ≤ w - 1 - n := by omega
        have reached : w - (n + 1) ≤ w - 1 - n := by omega
        simp [mirror, inside, outside, reached, show 0 < w by omega]
      · have sides : (w - (n + 1) ≤ i ↔ w - n ≤ i) := by omega
        by_cases below : i < w - 1 - n
        · simp [sides, below]
        · have apart : ¬ i - (w - 1 - n) = 0 := by omega
          simp [sides, apart]

theorem foldl_mirror (x : BitVec w) :
    (List.range w).foldl
      (fun word bit => word ||| (x >>> bit &&& 1#w) <<< ((w - 1) - bit)) (0#w) = x.reverse := by
  apply BitVec.eq_of_getLsbD_eq
  intro i _
  rw [getLsbD_foldl_mirror x w i (Nat.le_refl w)]
  simp

/-- Any shift drops the only bit. -/
theorem shiftLeft_one_eq_iff (x : BitVec 1) (n : Nat) : x = x <<< n ↔ x = 0#1 ∨ n = 0 := by
  rcases BitVec.eq_zero_or_eq_one x with rfl | rfl
  · simp
  · cases n with
    | zero => simp
    | succ n =>
        have dropped : 1#1 <<< (n + 1) = 0#1 := BitVec.shiftLeft_eq_zero (by omega)
        simp [dropped]

theorem ushiftRight_one_eq_iff (x : BitVec 1) (n : Nat) : x = x >>> n ↔ x = 0#1 ∨ n = 0 := by
  rcases BitVec.eq_zero_or_eq_one x with rfl | rfl
  · simp
  · cases n with
    | zero => simp
    | succ n =>
        have dropped : 1#1 >>> (n + 1) = 0#1 := BitVec.ushiftRight_eq_zero (by omega)
        simp [dropped]

/-- The only bit is the sign. -/
theorem sshiftRight_one (x : BitVec 1) (n : Nat) : x.sshiftRight n = x := by
  apply BitVec.eq_of_getLsbD_eq
  intro i bound
  obtain rfl : i = 0 := by omega
  cases n with
  | zero => simp
  | succ n =>
      rw [BitVec.getLsbD_sshiftRight, if_neg (by omega)]
      simp [BitVec.msb, BitVec.getMsbD]

theorem toNat_and_mask {k : Nat} (n : Nat) :
    n % 2 ^ 2 ^ k &&& (2 ^ k - 1) = n % 2 ^ k := by
  rw [Nat.and_two_pow_sub_one_eq_mod]
  exact Nat.mod_mod_of_dvd _ (Nat.pow_dvd_pow 2 (Nat.le_of_lt Nat.lt_two_pow_self))

/-- A maximum and a minimum do not depend on how ties are broken. -/
theorem ite_le_eq_ite_lt {Word Reading : Type} [LinearOrder Reading] {reading : Word → Reading}
    (injective : reading.Injective) (x y : Word) :
    (if reading y ≤ reading x then x else y) = (if reading y < reading x then x else y) ∧
      (if reading x ≤ reading y then x else y) = (if reading x < reading y then x else y) := by
  rcases lt_trichotomy (reading x) (reading y) with less | equal | greater
  · simp [less, le_of_lt less, not_le_of_gt less, lt_asymm less]
  · obtain rfl := injective equal
    simp
  · simp [greater, le_of_lt greater, not_le_of_gt greater, lt_asymm greater]

theorem toNat_lowMask {bits : Nat} (inside : bits < w) :
    ((1#w <<< bits) - 1#w).toNat = 2 ^ bits - 1 := by
  have positive : 0 < 2 ^ bits := Nat.two_pow_pos bits
  have power : 2 ^ bits < 2 ^ w := Nat.pow_lt_pow_right (by decide) inside
  have unit : 1 % 2 ^ w = 1 := Nat.mod_eq_of_lt (by omega)
  have shifted : (1#w <<< bits).toNat = 2 ^ bits := by
    rw [BitVec.toNat_shiftLeft, BitVec.toNat_ofNat, unit, Nat.one_shiftLeft, Nat.mod_eq_of_lt power]
  rw [BitVec.toNat_sub_of_le, shifted, BitVec.toNat_ofNat, unit]
  rw [BitVec.le_def, shifted, BitVec.toNat_ofNat, unit]
  exact positive

theorem setWidth_lowMask_shiftLeft {wide bits : Nat} (offset : Nat) (inside : bits < w)
    (fits : w ≤ wide) :
    (((1#(wide) <<< bits) - 1#(wide)) <<< offset).setWidth w =
    ((1#w <<< bits) - 1#w) <<< offset := by
  apply BitVec.eq_of_toNat_eq
  rw [BitVec.toNat_setWidth, BitVec.toNat_shiftLeft, BitVec.toNat_shiftLeft,
    toNat_lowMask (Nat.lt_of_lt_of_le inside fits), toNat_lowMask inside]
  exact Nat.mod_mod_of_dvd _ (Nat.pow_dvd_pow 2 fits)

theorem toInt_ne_zero {y : BitVec w} (nonzero : y ≠ 0#w) : y.toInt ≠ 0 := by
  intro zero
  apply nonzero
  apply BitVec.eq_of_toInt_eq
  simpa using zero

theorem umod_eq_smod_iff_of_pos {x y : BitVec w} (positive : 0 < y.toInt)
    (negative : x.toInt < 0) : x % y = x.smod y ↔ y.toInt ∣ 2 ^ w := by
  have divisor : (y.toInt : Int) = y.toNat := by
    apply BitVec.toInt_eq_toNat_of_msb
    rw [BitVec.msb_eq_toInt]
    simp [Int.not_lt.mpr (Int.le_of_lt positive)]
  have dividend : (x.toNat : Int) = x.toInt + 2 ^ w := by
    have cond := BitVec.toInt_eq_toNat_cond x
    have cast : ((2 ^ w : Nat) : Int) = 2 ^ w := by norm_cast
    split at cond <;> omega
  have unsigned : (x % y).toInt = (x.toInt + 2 ^ w) % y.toInt := by
    have less : x.toNat % y.toNat < y.toNat := Nat.mod_lt _ (by omega)
    have small := BitVec.toInt_pos_iff.mp (Int.le_of_lt positive)
    have nonneg : 2 * (x % y).toNat < 2 ^ w := by
      rw [BitVec.toNat_umod]
      omega
    rw [BitVec.toInt_eq_toNat_of_lt nonneg, BitVec.toNat_umod, ← dividend, divisor]
    norm_cast
  rw [← BitVec.toInt_inj, unsigned, BitVec.toInt_smod,
    Int.fmod_eq_emod_of_nonneg _ (Int.le_of_lt positive)]
  constructor
  · intro same
    have divides := Int.emod_eq_emod_iff_emod_sub_eq_zero.mp same
    rw [add_sub_cancel_left] at divides
    exact Int.dvd_of_emod_eq_zero divides
  · rintro ⟨factor, multiple⟩
    rw [multiple, Int.add_mul_emod_self_left]

theorem fmod_bounds {a b : Int} (negative : b < 0) : b < a.fmod b ∧ a.fmod b ≤ 0 := by
  rw [Int.fmod_eq_emod]
  split
  next divides =>
    rcases divides with nonneg | divides
    · omega
    · rw [Int.emod_eq_zero_of_dvd divides]
      omega
  next indivisible =>
    have less := Int.emod_lt a (Int.ne_of_lt negative)
    have nonneg := Int.emod_nonneg a (Int.ne_of_lt negative)
    have nonzero : a % b ≠ 0 := fun zero => indivisible (.inr (Int.dvd_of_emod_eq_zero zero))
    omega

/-- Between negative operands a proper unsigned remainder is the dividend or their
difference, on neither side of which the signed one lies. -/
theorem umod_eq_smod_iff_of_neg {x y : BitVec w} (negative : y.toInt < 0) :
    x % y = x.smod y ↔ x = 0#w ∨ x = y := by
  constructor
  · intro same
    have signed : y.toInt < (x % y).toInt ∧ (x % y).toInt ≤ 0 := by
      rw [same, BitVec.toInt_smod]
      exact fmod_bounds negative
    have xCond := BitVec.toInt_eq_toNat_cond x
    have yCond := BitVec.toInt_eq_toNat_cond y
    have xBound := x.isLt
    have yBound := y.isLt
    rcases Nat.lt_trichotomy x.toNat y.toNat with less | equal | greater
    · have unchanged : x % y = x := by
        apply BitVec.eq_of_toNat_eq
        rw [BitVec.toNat_umod, Nat.mod_eq_of_lt less]
      rw [unchanged] at signed
      have zero : x.toNat = 0 := by
        split at xCond <;> split at yCond <;> omega
      exact .inl (BitVec.eq_of_toNat_eq (by simpa using zero))
    · exact .inr (BitVec.eq_of_toNat_eq equal)
    · have difference : (x % y).toNat = x.toNat - y.toNat := by
        rw [BitVec.toNat_umod, Nat.mod_eq_sub_mod (Nat.le_of_lt greater), Nat.mod_eq_of_lt]
        split at yCond <;> omega
      have reading := BitVec.toInt_eq_toNat_cond (x % y)
      rw [difference] at reading
      exfalso
      split at reading <;> split at yCond <;> omega
  · rintro (rfl | rfl)
    · rw [BitVec.zero_smod, BitVec.zero_umod]
    · apply BitVec.eq_of_toInt_eq
      rw [BitVec.toInt_smod, Int.fmod_self, BitVec.umod_self, BitVec.toInt_zero]

/-- The unsigned remainder takes the divisor's sign only when the operands agree with it:
neither is negative, the wrapped multiple vanishes, or the remainder is trivial. -/
theorem umod_eq_smod_iff {x y : BitVec w} (nonzero : y ≠ 0#w) :
    x % y = x.smod y ↔
      x = 0#w ∨ x = y ∨ (0 < y.toInt ∧ (0 ≤ x.toInt ∨ y.toInt ∣ 2 ^ w)) := by
  have divisor : y.toInt ≠ 0 := toInt_ne_zero nonzero
  by_cases positive : 0 < y.toInt
  · by_cases nonneg : 0 ≤ x.toInt
    · have agree : x % y = x.smod y := by
        have xSign : x.msb = false := by simp [BitVec.msb_eq_toInt, nonneg]
        have ySign : y.msb = false := by simp [BitVec.msb_eq_toInt, Int.le_of_lt positive]
        simp only [BitVec.smod_eq, xSign, ySign, BitVec.umod_eq]
      simp [agree, positive, nonneg]
    · have zero : x ≠ 0#w := by
        rintro rfl
        simp at nonneg
      have differ : x ≠ y := by
        rintro rfl
        omega
      rw [umod_eq_smod_iff_of_pos positive (by omega)]
      simp only [zero, differ, positive, nonneg, false_or, true_and]
  · rw [umod_eq_smod_iff_of_neg (by omega)]
    simp only [positive, false_and, or_false]

end BitVector
