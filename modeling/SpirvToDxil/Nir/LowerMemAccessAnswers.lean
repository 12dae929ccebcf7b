import SpirvToDxil.Nir.LowerMemAccess

/-!
# What the callback answers
-/

namespace SpirvToDxil

namespace MemAccess

open ExtractBits

def IsBitSize (bitSize : Nat) : Prop :=
  bitSize = 8 ∨ bitSize = 16 ∨ bitSize = 32 ∨ bitSize = 64

theorem IsBitSize.isSize {bitSize : Nat} (is : IsBitSize bitSize) : IsSize bitSize := by
  rcases is with rfl | rfl | rfl | rfl
  · exact ⟨3, by decide, by decide⟩
  · exact ⟨4, by decide, by decide⟩
  · exact ⟨5, by decide, by decide⟩
  · exact ⟨6, by decide, by decide⟩

theorem isSize_eight_mul {align : Nat} (align_eq : align = 2 ∨ align = 4) : IsSize (8 * align) := by
  rcases align_eq with rfl | rfl
  · exact ⟨4, by decide, by decide⟩
  · exact ⟨5, by decide, by decide⟩

section BitSizes

theorem minBitSize_cases (lowerInt16 : Bool) :
    minBitSize lowerInt16 = 16 ∧ lowerInt16 = false ∨
      minBitSize lowerInt16 = 32 ∧ lowerInt16 = true := by
  cases lowerInt16 <;> decide

theorem closestBitSize_cases {bitSizeIn : Nat} (lowerInt16 : Bool) (is : IsBitSize bitSizeIn) :
    closestBitSize lowerInt16 bitSizeIn = 16 ∧ lowerInt16 = false ∨
      closestBitSize lowerInt16 bitSizeIn = 32 := by
  rcases is with rfl | rfl | rfl | rfl <;> cases lowerInt16 <;> decide

theorem decrease_of_le {target least bitSize : Nat} (le : bitSize ≤ least) (steps : Nat) :
    decrease target least bitSize steps = bitSize := by
  cases steps with
  | zero => rfl
  | succ steps => rw [decrease, if_neg (by omega)]

theorem increase_of_le {target bitSize : Nat} (le : maxBitSize ≤ bitSize) (steps : Nat) :
    increase target bitSize steps = bitSize := by
  cases steps with
  | zero => rfl
  | succ steps => rw [increase, if_neg (by omega)]

/-- The loops end at 16 bits, or at 32 where the target has as many. -/
theorem increase_decrease_cases {bitSizeIn : Nat} (lowerInt16 : Bool) (is : IsBitSize bitSizeIn)
    (target : Nat) :
    let bitSize := increase target
      (decrease target (minBitSize lowerInt16) (closestBitSize lowerInt16 bitSizeIn) maxBitSize)
      maxBitSize
    bitSize = 16 ∧ lowerInt16 = false ∨ bitSize = 32 ∧ (lowerInt16 = true ∨ 4 ≤ target) := by
  have increase16 : increase target 16 maxBitSize = if 8 < target then 32 else 16 := by
    rw [maxBitSize, increase, increase_of_le (by decide)]
    simp [maxBitSize]
  have decrease32 : decrease target 16 32 maxBitSize = if target < 4 then 16 else 32 := by
    rw [maxBitSize, decrease]
    simp [decrease_of_le]
  rcases closestBitSize_cases lowerInt16 is with ⟨closest, rfl⟩ | closest <;> rw [closest]
  · rw [show minBitSize false = 16 by rfl, decrease_of_le (Nat.le_refl 16), increase16]
    split <;> simp
    omega
  · cases lowerInt16 with
    | true =>
        right
        rw [show minBitSize true = 32 by rfl, decrease_of_le (Nat.le_refl 32),
          increase_of_le (by decide)]
        exact ⟨rfl, .inl rfl⟩
    | false =>
        rw [show minBitSize false = 16 by rfl, decrease32]
        split
        next small =>
          rw [increase16, if_neg (by omega)]
          exact .inl ⟨rfl, rfl⟩
        next large =>
          rw [increase_of_le (by decide)]
          exact .inr ⟨rfl, .inr (Nat.not_lt.mp large)⟩

end BitSizes

/-- The alignment that an answer has where nothing better is known. -/
def unit (lowerInt16 : Bool) (intrin : Intrinsic) (bitSizeIn : Nat) : Nat :=
  if intrin = .loadUbo then closestBitSize lowerInt16 bitSizeIn / 8 else minBitSize lowerInt16 / 8

/-- An answer is for aligned components of two or four bytes, and for 16 bytes at most. -/
structure Serves (unit : Nat) (requested : SizeAlign) (align : Nat) : Prop where
  bitSize_eq : requested.bitSize = 8 * requested.align
  align_eq : requested.align = 2 ∨ requested.align = 4
  unit_dvd : unit ∣ requested.align
  known : requested.align = unit ∨ requested.align ∣ align
  numComponents_pos : 0 < requested.numComponents
  few : requested.numComponents * requested.align ≤ 16

theorem serves_of_size {unit align bitSize numComponents : Nat}
    (size : bitSize = 16 ∨ bitSize = 32) (unit_dvd : unit ∣ bitSize / 8)
    (known : bitSize / 8 = unit ∨ bitSize / 8 ∣ align) (numComponents_pos : 0 < numComponents)
    (few : numComponents * (bitSize / 8) ≤ 16) :
    Serves unit { numComponents, bitSize, align := bitSize / 8 } align :=
  { bitSize_eq := by rcases size with rfl | rfl <;> rfl
    align_eq := by rcases size with rfl | rfl <;> simp
    unit_dvd, known, numComponents_pos, few }

theorem two_pow_dvd_of_le {j k : Nat} (le : 2 ^ j ≤ 2 ^ k) : 2 ^ j ∣ 2 ^ k :=
  Nat.pow_dvd_pow 2 ((Nat.pow_le_pow_iff_right (by decide)).mp le)

section Align

variable {align k : Nat}

theorem align_eq_two_pow (align_eq : align = 2 ∨ align = 4) : ∃ k, align = 2 ^ k := by
  rcases align_eq with rfl | rfl
  · exact ⟨1, rfl⟩
  · exact ⟨2, rfl⟩

theorem align_dvd_two_pow (align_eq : align = 2 ∨ align = 4) (le : align ≤ 2 ^ k) :
    align ∣ 2 ^ k := by
  obtain ⟨j, rfl⟩ := align_eq_two_pow align_eq
  exact two_pow_dvd_of_le le

theorem two_pow_dvd_align (align_eq : align = 2 ∨ align = 4) (le : 2 ^ k ≤ align) :
    2 ^ k ∣ align := by
  obtain ⟨j, rfl⟩ := align_eq_two_pow align_eq
  exact two_pow_dvd_of_le le

theorem and_align_sub_one (align_eq : align = 2 ∨ align = 4) (n : Nat) :
    n &&& (align - 1) = n % align := by
  obtain ⟨j, rfl⟩ := align_eq_two_pow align_eq
  exact Nat.and_two_pow_sub_one_eq_mod n j

end Align

theorem divRoundUp_pos {a b : Nat} (some : 0 < a) (positive : 0 < b) : 0 < divRoundUp a b :=
  Nat.div_pos (by omega) positive

theorem min_four_mul_le {bitSize : Nat} (size : bitSize = 16 ∨ bitSize = 32) (n : Nat) :
    min 4 n * (bitSize / 8) ≤ 16 := by
  have le := Nat.mul_le_mul_right (bitSize / 8) (Nat.min_le_left 4 n)
  omega

theorem div_eight_le {lowerInt16 : Bool} {bytes align bitSize : Nat}
    (chosen : bitSize = 16 ∧ lowerInt16 = false ∨
      bitSize = 32 ∧ (lowerInt16 = true ∨ 4 ≤ min bytes align))
    (aligned : ¬align < minBitSize lowerInt16 / 8) : bitSize / 8 ≤ align := by
  rcases chosen with ⟨rfl, rfl⟩ | ⟨rfl, rfl | four⟩
  · exact Nat.not_lt.mp aligned
  · exact Nat.not_lt.mp aligned
  · exact Nat.le_trans four (Nat.min_le_right _ _)

theorem lowerMemAccessBitSizesCb_serves (lowerInt16 : Bool) (intrin : Intrinsic)
    {bytes bitSizeIn alignMul alignOffset : Nat} (is : IsBitSize bitSizeIn) (some : 0 < bytes)
    (power : ∃ k, combinedAlign alignMul alignOffset = 2 ^ k) :
    Serves (unit lowerInt16 intrin bitSizeIn)
      (lowerMemAccessBitSizesCb lowerInt16 intrin bytes bitSizeIn alignMul alignOffset)
      (combinedAlign alignMul alignOffset) := by
  obtain ⟨k, power⟩ := power
  unfold lowerMemAccessBitSizesCb unit
  dsimp only
  split
  next =>
    have size : closestBitSize lowerInt16 bitSizeIn = 16 ∨
        closestBitSize lowerInt16 bitSizeIn = 32 :=
      (closestBitSize_cases lowerInt16 is).imp_left And.left
    apply serves_of_size size (Nat.dvd_refl _) (.inl rfl)
    · exact divRoundUp_pos (by omega) (by omega)
    · unfold divRoundUp
      rcases size with size | size <;> rw [size] <;> omega
  next =>
    have least : minBitSize lowerInt16 = 16 ∨ minBitSize lowerInt16 = 32 :=
      (minBitSize_cases lowerInt16).imp And.left And.left
    split
    next =>
      apply serves_of_size least (Nat.dvd_refl _) (.inl rfl) _ (min_four_mul_le least _)
      have ideal : 0 < 32 / minBitSize lowerInt16 := by
        rcases least with least | least <;> rw [least] <;> decide
      have rounded := @divRoundUp_pos (bytes * 8) (minBitSize lowerInt16) (by omega) (by omega)
      split <;> omega
    next aligned =>
      have chosen := increase_decrease_cases lowerInt16 is
        (min bytes (combinedAlign alignMul alignOffset))
      dsimp only at chosen
      generalize increase _ _ _ = bitSize at chosen ⊢
      have size : bitSize = 16 ∨ bitSize = 32 := chosen.imp And.left And.left
      have rounded := @divRoundUp_pos (bytes * 8) bitSize (by omega) (by omega)
      apply serves_of_size size _ (.inr _) _ (min_four_mul_le size _)
      · rcases least with least | least <;> rcases chosen with ⟨rfl, _⟩ | ⟨rfl, _⟩ <;>
          rw [least] <;> simp_all [minBitSize]
      · have le := div_eight_le chosen aligned
        rw [power] at le ⊢
        exact align_dvd_two_pow (by omega) le
      · split <;> omega

/-- Where a store does not fit, the answer is for four bytes at most. -/
theorem lowerMemAccessBitSizesCb_store (lowerInt16 : Bool)
    {bytes bitSizeIn alignMul alignOffset : Nat} (is : IsBitSize bitSizeIn) :
    let requested :=
      lowerMemAccessBitSizesCb lowerInt16 .storeSsbo bytes bitSizeIn alignMul alignOffset
    combinedAlign alignMul alignOffset < requested.align ∨
        bytes < requested.numComponents * (requested.bitSize / 8) →
      requested.numComponents * (requested.bitSize / 8) ≤ 4 := by
  unfold lowerMemAccessBitSizesCb
  dsimp only
  simp only [reduceCtorEq, if_false]
  split
  next =>
    intro _
    rcases minBitSize_cases lowerInt16 with ⟨least, _⟩ | ⟨least, _⟩ <;> rw [least] <;> decide
  next aligned =>
    have chosen := increase_decrease_cases lowerInt16 is
      (min bytes (combinedAlign alignMul alignOffset))
    dsimp only at chosen
    generalize increase _ _ _ = bitSize at chosen ⊢
    have le := div_eight_le chosen aligned
    rintro (misaligned | large)
    · exact absurd misaligned (Nat.not_lt.mpr le)
    · rcases chosen.imp And.left And.left with rfl | rfl <;> dsimp only at large ⊢ <;> omega

/-- The combined alignment divides what it is combined of. -/
theorem combinedAlign_spec {k alignMul alignOffset : Nat} (power : alignMul = 2 ^ k)
    (less : alignOffset < alignMul) :
    ∃ j ≤ k, combinedAlign alignMul alignOffset = 2 ^ j ∧ 2 ^ j ∣ alignOffset := by
  subst power
  unfold combinedAlign
  split
  next some =>
    obtain ⟨j, _, eq⟩ :=
      (Nat.dvd_prime_pow Nat.prime_two).mp (Nat.gcd_dvd_right alignOffset (2 ^ 32))
    have dvd : 2 ^ j ∣ alignOffset := eq ▸ Nat.gcd_dvd_left alignOffset (2 ^ 32)
    have le : 2 ^ j ≤ alignOffset := Nat.le_of_dvd (Nat.pos_of_ne_zero some) dvd
    exact ⟨j, (Nat.pow_le_pow_iff_right (a := 2) (by decide)).mp (by omega), eq, dvd⟩
  next zero =>
    rw [not_not.mp zero]
    exact ⟨k, Nat.le_refl k, rfl, Nat.dvd_zero _⟩

theorem add_le_of_mod {align part address : Nat} (alignDvd : part ∣ align)
    (addressDvd : part ∣ address) (some : 0 < align) : address % align + part ≤ align := by
  have less := Nat.mod_lt address some
  have padDvd : part ∣ address % align := (Nat.dvd_mod_iff alignDvd).mpr addressDvd
  have room := Nat.le_of_dvd (by omega) (Nat.dvd_sub alignDvd padDvd)
  omega

theorem le_combinedAlign {align alignMul alignOffset : Nat} (bytes : align = 2 ∨ align = 4)
    (le : align ≤ alignMul) (dvd : align ∣ alignOffset) :
    align ≤ combinedAlign alignMul alignOffset := by
  unfold combinedAlign
  split
  next some =>
    have power : align ∣ 2 ^ 32 := by rcases bytes with rfl | rfl <;> decide
    exact Nat.le_of_dvd (Nat.gcd_pos_of_pos_left _ (Nat.pos_of_ne_zero some))
      (Nat.dvd_gcd dvd power)
  next => exact le

theorem isPowerOfTwoNonzero_two_pow (k : Nat) : isPowerOfTwoNonzero (2 ^ k) := by
  refine ⟨Nat.ne_of_gt (Nat.two_pow_pos k), ?_⟩
  rw [Nat.and_two_pow_sub_one_eq_mod, Nat.mod_self]

theorem Serves.valid {unit align : Nat} {requested : SizeAlign}
    (serves : Serves unit requested align) : requested.Valid := by
  have size := serves.bitSize_eq
  refine ⟨serves.numComponents_pos, ?_, ?_⟩
  · rcases serves.align_eq with two | four <;> omega
  · rcases serves.align_eq with two | four
    · exact two ▸ isPowerOfTwoNonzero_two_pow 1
    · exact four ▸ isPowerOfTwoNonzero_two_pow 2

end MemAccess

end SpirvToDxil
