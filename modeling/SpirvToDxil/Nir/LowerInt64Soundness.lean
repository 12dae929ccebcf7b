import SpirvToDxil.Nir.LowerInt64Division
import SpirvToDxil.Nir.LowerInt64Products

/-!
# The lowering of 64-bit integer instructions is exact

Scans and extractions join the other sequences here. A lowered instruction computes what the
instruction computes, up to the quotient that overflows and two slips: the conversions to 64 bits
read 32 bits of their source, and the constant expressions of bit fields read 32 bits of theirs.
-/

namespace SpirvToDxil.Nir.LowerInt64

section Scans

/-- Setting the bit of weight 32 moves a place from the lower half to the upper one. -/
theorem ofNat_or_32 {bit : Nat} (inside : bit < 32) :
    BitVec.ofNat 32 bit ||| 32#32 = BitVec.ofNat 32 (32 + bit) := by
  apply BitVec.eq_of_toNat_eq
  have disjoint := Nat.two_pow_add_eq_or_of_lt (i := 5) inside 1
  rw [BitVec.toNat_or, BitVec.toNat_ofNat, BitVec.toNat_ofNat, BitVec.toNat_ofNat,
    Nat.mod_eq_of_lt (a := bit) (by omega), Nat.mod_eq_of_lt (a := 32 + bit) (by omega),
    Nat.or_comm]
  exact disjoint.symm

theorem toNat_place {bit : Nat} (inside : bit < 64) : (BitVec.ofNat 32 bit).toNat = bit := by
  rw [BitVec.toNat_ofNat]
  omega

theorem toInt_place {bit : Nat} (inside : bit < 64) : (BitVec.ofNat 32 bit).toInt = bit := by
  have reading := toNat_place inside
  rw [BitVec.toInt_eq_toNat_of_lt (by omega), reading]

theorem getLsbD_halves_congr (x : BitVec 64) {bit : Nat} (member : bit ∈ List.range 32) :
    (unpackSplitX x).getLsbD bit = x.getLsbD bit ∧
      (unpackSplitY x).getLsbD bit = x.getLsbD (32 + bit) := by
  have inside := List.mem_range.mp member
  rw [getLsbD_unpackSplitX, getLsbD_unpackSplitY, decide_eq_true inside]
  exact ⟨Bool.true_and _, Bool.true_and _⟩

/-- The highest bit is in the upper half unless that is empty. -/
theorem lowerUfindMsb64_eq (x : BitVec 64) : lowerUfindMsb64 x = Word.ufindMsb x := by
  have whole : (List.range 64).reverse.find? x.getLsbD = _ :=
    BitVector.find?_reverse_range_add 32 32 x.getLsbD
  have low : (List.range 32).reverse.find? (unpackSplitX x).getLsbD =
      (List.range 32).reverse.find? x.getLsbD := by
    apply List.find?_congr
    intro bit member
    exact (getLsbD_halves_congr x (List.mem_reverse.mp member)).1
  have high : (List.range 32).reverse.find? (unpackSplitY x).getLsbD =
      (List.range 32).reverse.find? fun bit => x.getLsbD (32 + bit) := by
    apply List.find?_congr
    intro bit member
    exact (getLsbD_halves_congr x (List.mem_reverse.mp member)).2
  rw [lowerUfindMsb64, Word.imax, Word.ufindMsb, Word.ufindMsb, Word.ufindMsb, BitVector.lastBit,
    BitVector.lastBit, BitVector.lastBit, low, high, whole]
  cases upper : (List.range 32).reverse.find? fun bit => x.getLsbD (32 + bit) with
  | some bit =>
      have inside := (BitVector.find?_reverse_range_eq_some upper).1
      have place := @toInt_place (32 + bit) (by omega)
      simp only [Option.map_some, Option.some_or, ofNat_or_32 inside]
      apply if_neg
      rw [BitVec.slt_iff_toInt_lt, place]
      cases lower : (List.range 32).reverse.find? x.getLsbD with
      | some bit' =>
          have inside' := (BitVector.find?_reverse_range_eq_some lower).1
          have place' := @toInt_place bit' (by omega)
          dsimp only
          omega
      | none =>
          change ¬ (32 + bit : Int) < -1
          omega
  | none =>
      simp only [Option.map_none, Option.none_or]
      cases lower : (List.range 32).reverse.find? x.getLsbD with
      | some bit' =>
          have inside' := (BitVector.find?_reverse_range_eq_some lower).1
          have place' := @toInt_place bit' (by omega)
          apply if_pos
          rw [BitVec.slt_iff_toInt_lt, place']
          change (-1 : Int) < bit'
          omega
      | none => rfl

/-- The lowest bit is in the lower half unless that is empty. -/
theorem lowerFindLsb64_eq (x : BitVec 64) : lowerFindLsb64 x = Word.findLsb x := by
  have whole : (List.range 64).find? x.getLsbD = _ := BitVector.find?_range_add 32 32 x.getLsbD
  have low : (List.range 32).find? (unpackSplitX x).getLsbD =
      (List.range 32).find? x.getLsbD := by
    apply List.find?_congr
    intro bit member
    exact (getLsbD_halves_congr x member).1
  have high : (List.range 32).find? (unpackSplitY x).getLsbD =
      (List.range 32).find? fun bit => x.getLsbD (32 + bit) := by
    apply List.find?_congr
    intro bit member
    exact (getLsbD_halves_congr x member).2
  rw [lowerFindLsb64, Word.umin, Word.findLsb, Word.findLsb, Word.findLsb, BitVector.firstBit,
    BitVector.firstBit, BitVector.firstBit, low, high, whole]
  cases lower : (List.range 32).find? x.getLsbD with
  | some bit =>
      have inside : bit < 32 := by simpa using List.mem_of_find?_eq_some lower
      have place := @toNat_place bit (by omega)
      simp only [Option.some_or]
      apply if_pos
      rw [BitVec.ult_iff_lt, BitVec.lt_def, place]
      cases upper : (List.range 32).find? fun bit => x.getLsbD (32 + bit) with
      | some bit' =>
          have inside' : bit' < 32 := by simpa using List.mem_of_find?_eq_some upper
          have place' := @toNat_place (32 + bit') (by omega)
          dsimp only
          rw [ofNat_or_32 inside']
          omega
      | none =>
          change bit < 4294967295
          omega
  | none =>
      cases upper : (List.range 32).find? fun bit => x.getLsbD (32 + bit) with
      | some bit' =>
          have inside' : bit' < 32 := by simpa using List.mem_of_find?_eq_some upper
          have place' := @toNat_place (32 + bit') (by omega)
          simp only [Option.none_or, Option.map_some, ofNat_or_32 inside']
          apply if_neg
          rw [BitVec.ult_iff_lt, BitVec.lt_def, place']
          change ¬ 4294967295 < 32 + bit'
          omega
      | none => rfl

theorem foldl_count_add (test : Nat → Bool) (bits : List Nat) (dst : BitVec 32) :
    bits.foldl (fun dst bit => if test bit then dst + 1 else dst) dst =
      dst + bits.foldl (fun dst bit => if test bit then dst + 1 else dst) 0#32 := by
  induction bits generalizing dst with
  | nil => simp
  | cons bit bits inductionHypothesis =>
      rw [List.foldl_cons, List.foldl_cons, inductionHypothesis,
        inductionHypothesis (if test bit then 0#32 + 1 else 0#32)]
      cases test bit with
      | true => simp [BitVec.add_assoc]
      | false => simp

theorem foldl_count_congr {test test' : Nat → Bool} {bits : List Nat}
    (same : ∀ bit ∈ bits, test bit = test' bit) (dst : BitVec 32) :
    bits.foldl (fun dst bit => if test bit then dst + 1 else dst) dst =
      bits.foldl (fun dst bit => if test' bit then dst + 1 else dst) dst := by
  induction bits generalizing dst with
  | nil => rfl
  | cons bit bits inductionHypothesis =>
      rw [List.foldl_cons, List.foldl_cons, same bit List.mem_cons_self]
      apply inductionHypothesis
      intro later member
      exact same later (List.mem_cons_of_mem bit member)

theorem lowerBitCount64_eq (x : BitVec 64) : lowerBitCount64 x = Word.bitCount x := by
  have places : List.range 64 = List.range 32 ++ (List.range 32).map (32 + ·) :=
    @List.range_add 32 32
  rw [lowerBitCount64, Word.bitCount, Word.bitCount, Word.bitCount, places, List.foldl_append,
    foldl_count_add _ _ (List.foldl _ _ _), List.foldl_map,
    foldl_count_congr fun bit member => (getLsbD_halves_congr x member).1,
    foldl_count_congr fun bit member => (getLsbD_halves_congr x member).2]

theorem lowerBitfieldReverse64_eq (x : BitVec 64) :
    lowerBitfieldReverse64 x = Word.bitfieldReverse x := by
  have reversed {w : Nat} (x : BitVec w) : Word.bitfieldReverse x = x.reverse :=
    BitVector.foldl_mirror x
  rw [lowerBitfieldReverse64, reversed, reversed, reversed]
  apply BitVec.eq_of_getLsbD_eq
  intro i inside
  rw [getLsbD_packSplit _ _ inside, BitVec.getLsbD_reverse, BitVec.getLsbD_reverse,
    BitVec.getLsbD_reverse, BitVec.getMsbD_eq_getLsbD, BitVec.getMsbD_eq_getLsbD,
    BitVec.getMsbD_eq_getLsbD, getLsbD_unpackSplitX, getLsbD_unpackSplitY, decide_eq_true inside]
  split
  next low =>
    have mirror : 32 + (32 - 1 - i) = 64 - 1 - i := by omega
    have place : 32 - 1 - i < 32 := by omega
    rw [mirror, decide_eq_true place, decide_eq_true low, Bool.true_and, Bool.true_and]
  next high =>
    have mirror : 32 - 1 - (i - 32) = 64 - 1 - i := by omega
    have place : 64 - 1 - i < 32 := by omega
    have within : i - 32 < 32 := by omega
    rw [mirror, decide_eq_true place, decide_eq_true within, Bool.true_and, Bool.true_and]

end Scans

section Extractions

variable {chunkBits : Nat} {chunk : BitVec 64}

/-- The constant of an extraction that is not poison names a chunk of the word. -/
theorem exists_place (width : chunkBits = 8 ∨ chunkBits = 16)
    (defined : Word.outside chunkBits chunk = false) :
    ∃ place < 64 / chunkBits, (chunk * BitVec.ofNat 64 chunkBits).toNat = place * chunkBits ∧
      (chunk.setWidth 32).toInt = place := by
  have bound := chunk.isLt
  have inside : (chunk * BitVec.ofNat 64 chunkBits).toNat < 64 := by
    simpa [Word.outside] using defined
  refine ⟨chunk.toNat % 2 ^ 32, ?_⟩
  rw [BitVec.toInt_eq_toNat_cond, BitVec.toNat_setWidth]
  rcases width with rfl | rfl
  · rw [BitVec.toNat_mul, BitVec.toNat_ofNat] at inside ⊢
    rw [if_pos (by omega)]
    omega
  · rw [BitVec.toNat_mul, BitVec.toNat_ofNat] at inside ⊢
    rw [if_pos (by omega)]
    omega

/-- The chunk is whole in its half. -/
theorem extractHalf_spec (width : chunkBits = 8 ∨ chunkBits = 16) (x : BitVec 64) {place : Nat}
    (inside : place < 64 / chunkBits) (constant : (chunk.setWidth 32).toInt = place) :
    ∃ start, ((extractHalf chunkBits x chunk).2 * BitVec.ofNat 32 chunkBits).toNat = start ∧
      start + chunkBits ≤ 32 ∧
      ((extractHalf chunkBits x chunk).1 >>> start).setWidth chunkBits =
        (x >>> (place * chunkBits)).setWidth chunkBits := by
  have product : ∀ n : Nat, n < 4 →
      (BitVec.ofInt 32 n * BitVec.ofNat 32 chunkBits).toNat = n * chunkBits := by
    intro n small
    rw [BitVec.ofInt_natCast, BitVec.toNat_mul, BitVec.toNat_ofNat, BitVec.toNat_ofNat]
    rcases width with rfl | rfl
    · omega
    · omega
  have chunks : 32 / chunkBits * chunkBits = 32 ∧ 64 / chunkBits = 2 * (32 / chunkBits) ∧
      32 / chunkBits ≤ 4 := by
    rcases width with rfl | rfl
    · decide
    · decide
  unfold extractHalf
  rw [constant]
  dsimp only
  by_cases low : place < 32 / chunkBits
  · have room := Nat.mul_le_mul_right chunkBits (Nat.succ_le_of_lt low)
    rw [if_pos (by omega)]
    refine ⟨place * chunkBits, product place (by omega), ?_, ?_⟩
    · rw [Nat.succ_mul] at room
      omega
    · rw [Nat.succ_mul] at room
      apply BitVec.eq_of_getLsbD_eq
      intro i within
      rw [BitVec.getLsbD_setWidth, BitVec.getLsbD_setWidth, BitVec.getLsbD_ushiftRight,
        BitVec.getLsbD_ushiftRight, getLsbD_unpackSplitX,
        decide_eq_true (show place * chunkBits + i < 32 by omega), Bool.true_and]
  · have high : (place : Int) - (32 / chunkBits : Nat) = (place - 32 / chunkBits : Nat) := by omega
    have moved : (place - 32 / chunkBits) * chunkBits + 32 = place * chunkBits := by
      rw [Nat.sub_mul, chunks.1]
      have least := Nat.mul_le_mul_right chunkBits (Nat.le_of_not_lt low)
      omega
    have room := Nat.mul_le_mul_right chunkBits
      (Nat.succ_le_of_lt (show place - 32 / chunkBits < 32 / chunkBits by omega))
    rw [Nat.succ_mul] at room
    rw [if_neg (by omega), high]
    refine ⟨(place - 32 / chunkBits) * chunkBits, product _ (by omega), ?_, ?_⟩
    · omega
    · apply BitVec.eq_of_getLsbD_eq
      intro i within
      rw [BitVec.getLsbD_setWidth, BitVec.getLsbD_setWidth, BitVec.getLsbD_ushiftRight,
        BitVec.getLsbD_ushiftRight, getLsbD_unpackSplitY, ← moved,
        decide_eq_true (show (place - 32 / chunkBits) * chunkBits + i < 32 by omega),
        Bool.true_and]
      congr 2
      omega

theorem setWidth_sshiftRight {w : Nat} (x : BitVec w) {start : Nat} (room : start + chunkBits ≤ w) :
    (x.sshiftRight start).setWidth chunkBits = (x >>> start).setWidth chunkBits := by
  apply BitVec.eq_of_getLsbD_eq
  intro i within
  rw [BitVec.getLsbD_setWidth, BitVec.getLsbD_setWidth, getLsbD_sshiftRight_fill x (by omega),
    getLsbD_ushiftRight_fill, if_pos (by omega), if_pos (by omega)]

theorem lowerExtractUnsigned_eq (width : chunkBits = 8 ∨ chunkBits = 16) (x : BitVec 64)
    (defined : Word.outside chunkBits chunk = false) :
    lowerExtractUnsigned chunkBits x chunk = Word.extractUnsigned chunkBits x chunk := by
  obtain ⟨place, inside, product, constant⟩ := exists_place width defined
  obtain ⟨start, product', room, same⟩ := extractHalf_spec width x inside constant
  have within : Word.outside chunkBits (extractHalf chunkBits x chunk).2 = false := by
    rw [Word.outside, product']
    apply decide_eq_false
    omega
  change lowerU2u64 (Word.extractUnsigned chunkBits (extractHalf chunkBits x chunk).1
    (extractHalf chunkBits x chunk).2) = _
  rw [Word.extractUnsigned, Word.extractUnsigned, within, defined, product,
    product', same, lowerU2u64_eq _ (by decide)]
  simp only [Bool.false_eq_true, ↓reduceIte]
  rw [BitVec.setWidth_setWidth (by omega)]

theorem lowerExtractSigned_eq (width : chunkBits = 8 ∨ chunkBits = 16) (x : BitVec 64)
    (defined : Word.outside chunkBits chunk = false) :
    lowerExtractSigned chunkBits x chunk = Word.extractSigned chunkBits x chunk := by
  obtain ⟨place, inside, product, constant⟩ := exists_place width defined
  obtain ⟨start, product', room, same⟩ := extractHalf_spec width x inside constant
  have within : Word.outside chunkBits (extractHalf chunkBits x chunk).2 = false := by
    rw [Word.outside, product']
    apply decide_eq_false
    omega
  have room' : place * chunkBits + chunkBits ≤ 64 := by
    rcases width with rfl | rfl
    · omega
    · omega
  change lowerI2i64 (Word.extractSigned chunkBits (extractHalf chunkBits x chunk).1
    (extractHalf chunkBits x chunk).2) = _
  rw [Word.extractSigned, Word.extractSigned, within, defined, product,
    product', setWidth_sshiftRight _ room, setWidth_sshiftRight _ room', same,
    lowerI2i64_eq _ (by decide)]
  simp only [Bool.false_eq_true, ↓reduceIte]
  rw [Narrowing.signExtend_signExtend _ (by omega)]

end Extractions

section BitFields

theorem exists_toNat {x : BitVec 32} (nonneg : 0 ≤ x.toInt) :
    ∃ n : Nat, x.toInt = n ∧ x.toNat = n := by
  refine ⟨x.toNat, ?_, rfl⟩
  rw [BitVec.toInt_eq_toNat_cond] at nonneg ⊢
  split at nonneg
  next less => rw [if_pos less]
  next => omega

variable {offset bits : BitVec 32} {o b : Nat}

theorem shiftCount_field (hoffset : offset.toNat = o) (hbits : bits.toNat = b) (positive : 0 < b)
    (inside : o + b ≤ 64) :
    shiftCount 64 (64#32 - bits) = 64 - b ∧
      shiftCount 64 (64#32 - bits - offset) = 64 - b - o := by
  rw [shiftCount_64, shiftCount_64, BitVec.toNat_sub, BitVec.toNat_sub, BitVec.toNat_sub, hoffset,
    hbits, BitVec.toNat_ofNat]
  omega

theorem getLsbD_field {w i : Nat} (base : BitVec w) (inside : o + b ≤ w) (within : i < b) :
    (base <<< (w - b - o)).getLsbD (w - b + i) = base.getLsbD (o + i) := by
  have place : w - b + i - (w - b - o) = o + i := by omega
  have bound : w - b + i < w := by omega
  have past : ¬ w - b + i < w - b - o := by omega
  rw [BitVec.getLsbD_shiftLeft, place, decide_eq_true bound, decide_eq_false past]
  rfl

theorem msb_field {w : Nat} (base : BitVec w) (positive : 0 < b) (inside : o + b ≤ w) :
    (base <<< (w - b - o)).msb = base.getLsbD (o + (b - 1)) := by
  rw [← getLsbD_field base inside (Nat.sub_lt positive Nat.one_pos), BitVec.msb_eq_getLsbD_last]
  congr 1
  omega

theorem lowerBitfieldExtract64_eq (base : BitVec 64) (hoffset : offset.toNat = o)
    (hbits : bits.toNat = b) (positive : 0 < b) (inside : o + b ≤ 64) (isSigned : Bool) :
    lowerBitfieldExtract64 base offset bits isSigned =
      if isSigned then (base <<< (64 - b - o)).sshiftRight (64 - b)
      else (base <<< (64 - b - o)) >>> (64 - b) := by
  obtain ⟨count0, count1⟩ := shiftCount_field hoffset hbits positive inside
  have nonzero : ¬ Word.compare .ieq bits 0#32 = true := by
    rw [Word.compare, beq_iff_eq, ← BitVec.toNat_inj, hbits]
    exact Nat.ne_of_gt positive
  rw [lowerBitfieldExtract64, lowerBcsel64_eq, if_neg nonzero, lowerIshl64_eq, lowerIshr64_eq,
    lowerUshr64_eq, Word.ishl, Word.ishr, Word.ushr, count0, count1]

theorem lowerBitfieldExtract64_zero (base : BitVec 64) (offset : BitVec 32) (isSigned : Bool) :
    lowerBitfieldExtract64 base offset 0#32 isSigned = 0#64 := by
  rw [lowerBitfieldExtract64, lowerBcsel64_eq]
  rfl

theorem getLsbD_lowMask (i : Nat) (inside : b < 64) :
    ((1#64 <<< b) - 1#64).getLsbD i = decide (i < b) := by
  rw [← BitVec.testBit_toNat, BitVector.toNat_lowMask inside, Nat.testBit_two_pow_sub_one]

/-- Every field inside of the word is extracted. -/
theorem lowerBitfieldExtract64_field (base : BitVec 64) (isSigned : Bool)
    (inside : offset.toNat + bits.toNat ≤ 64) :
    lowerBitfieldExtract64 base offset bits isSigned =
      bitField isSigned base offset.toNat bits.toNat := by
  rcases Nat.eq_zero_or_pos bits.toNat with none | positive
  · obtain rfl : bits = 0#32 := BitVec.eq_of_toNat_eq none
    rw [lowerBitfieldExtract64_zero]
    have empty (field : BitVec 0) : field = 0#0 := BitVec.eq_of_toNat_eq (by omega)
    cases isSigned <;> simp [bitField, empty]
  rw [lowerBitfieldExtract64_eq base rfl rfl positive inside]
  apply BitVec.eq_of_getLsbD_eq
  intro i small
  cases isSigned with
  | false =>
      simp only [bitField, Bool.false_eq_true, if_false, BitVec.getLsbD_ushiftRight,
        BitVec.getLsbD_setWidth, BitVec.getLsbD_extractLsb', small, decide_true, Bool.true_and]
      by_cases within : i < bits.toNat
      · rw [getLsbD_field base inside within, decide_eq_true within, Bool.true_and]
      · rw [BitVec.getLsbD_of_ge _ _ (by omega), decide_eq_false within, Bool.false_and]
  | true =>
      have top := msb_field base positive inside
      simp only [bitField, if_true, BitVec.getLsbD_signExtend, BitVec.getLsbD_extractLsb', small,
        decide_true, Bool.true_and]
      rw [getLsbD_sshiftRight_fill _ small, top]
      by_cases within : i < bits.toNat
      · rw [if_pos (by omega), if_pos within, getLsbD_field base inside within,
          decide_eq_true within, Bool.true_and]
      · rw [if_neg (by omega), if_neg within, BitVec.msb_eq_getLsbD_last,
          BitVec.getLsbD_extractLsb', decide_eq_true (Nat.sub_lt positive Nat.one_pos),
          Bool.true_and]

theorem extract_cases (offset : BitVec 32) {poison undefined : Prop} [Decidable poison]
    [Decidable undefined] {value result : BitVec 64}
    (negative : bits.toInt < 0 ∨ offset.toInt < 0 → poison)
    (defined : (if bits.toInt = 0 then some 0#64 else if poison then none
      else if undefined then none else some value) = some result) :
    bits = 0#32 ∧ 0#64 = result ∨
      ¬ poison ∧ ¬ undefined ∧ value = result ∧ ∃ o b : Nat, 0 < b ∧ offset.toInt = o ∧
        offset.toNat = o ∧ bits.toInt = b ∧ bits.toNat = b := by
  split at defined
  next zero => exact .inl ⟨BitVec.eq_of_toInt_eq zero, Option.some.inj defined⟩
  next nonzero =>
    split at defined
    next => exact absurd defined (by simp)
    next sound =>
      split at defined
      next => exact absurd defined (by simp)
      next inRange =>
        have nonneg := not_or.mp (mt negative sound)
        obtain ⟨o, offsetInt, offsetNat⟩ := @exists_toNat offset (by omega)
        obtain ⟨b, bitsInt, bitsNat⟩ := @exists_toNat bits (by omega)
        rw [bitsInt] at nonzero
        exact .inr ⟨sound, inRange, Option.some.inj defined, o, b, by omega, offsetInt, offsetNat,
          bitsInt, bitsNat⟩

/-- The lower half is all that the constant expression reads of the operand. -/
theorem lowerBitfieldExtract64_unsigned {base result : BitVec 64}
    (seen : ∀ i : Nat, 32 ≤ i → (i : Int) < offset.toInt + bits.toInt → base.getLsbD i = false)
    (defined : ubitfieldExtract64 base offset bits = some result) :
    lowerBitfieldExtract64 base offset bits false = result := by
  unfold ubitfieldExtract64 at defined
  rcases extract_cases offset (by omega) defined with
    ⟨rfl, empty⟩ | ⟨poison, undefined, rfl, o, b, positive, offsetInt, offsetNat, bitsInt, bitsNat⟩
  · rw [lowerBitfieldExtract64_zero]
    exact empty
  · rw [offsetInt, bitsInt] at seen poison undefined ⊢
    rw [lowerBitfieldExtract64_eq base offsetNat bitsNat positive (by omega),
      if_neg Bool.false_ne_true]
    apply BitVec.eq_of_getLsbD_eq
    intro i inside
    rw [Int.toNat_natCast, Int.toNat_natCast, BitVec.getLsbD_ushiftRight, BitVec.getLsbD_and,
      BitVec.getLsbD_setWidth, BitVec.getLsbD_ushiftRight, BitVec.getLsbD_setWidth,
      getLsbD_lowMask i (by omega), decide_eq_true inside, Bool.true_and]
    by_cases within : i < b
    · rw [getLsbD_field base (by omega) within, decide_eq_true within, Bool.and_true]
      by_cases low : o + i < 32
      · rw [decide_eq_true low, Bool.true_and]
      · rw [seen (o + i) (by omega) (by omega), Bool.and_false]
    · rw [BitVec.getLsbD_of_ge _ _ (by omega), decide_eq_false within, Bool.and_false]

theorem lowerBitfieldExtract64_signed {base result : BitVec 64}
    (defined : ibitfieldExtract64 base offset bits = some result) :
    lowerBitfieldExtract64 base offset bits true = result := by
  unfold ibitfieldExtract64 at defined
  rcases extract_cases offset (by omega) defined with
    ⟨rfl, empty⟩ | ⟨-, undefined, rfl, o, b, positive, offsetInt, offsetNat, bitsInt, bitsNat⟩
  · rw [lowerBitfieldExtract64_zero]
    exact empty
  · rw [offsetInt, bitsInt] at undefined ⊢
    rw [lowerBitfieldExtract64_eq base offsetNat bitsNat positive (by omega), if_pos rfl]
    have places : (32 - (o : Int) - b).toNat = 32 - b - o := by omega
    have rest : (32 - (b : Int)).toNat = 32 - b := by omega
    have read {i : Nat} (within : i < b) :
        (base.setWidth 32).getLsbD (o + i) = base.getLsbD (o + i) := by
      rw [BitVec.getLsbD_setWidth, decide_eq_true (by omega), Bool.true_and]
    have top := msb_field (o := o) base (by omega : 0 < b) (by omega)
    have top32 := msb_field (o := o) (base.setWidth 32) (by omega : 0 < b) (by omega)
    rw [read (by omega), ← top] at top32
    apply BitVec.eq_of_getLsbD_eq
    intro i inside
    rw [places, rest, getLsbD_sshiftRight_fill _ inside, BitVec.getLsbD_signExtend,
      BitVec.msb_sshiftRight, top32, decide_eq_true inside, Bool.true_and]
    by_cases within : i < b
    · rw [if_pos (by omega), if_pos (by omega), getLsbD_sshiftRight_fill _ (by omega),
        if_pos (by omega), getLsbD_field base (by omega) within,
        getLsbD_field _ (by omega) within, read within]
    · rw [if_neg (by omega)]
      split
      next => rw [getLsbD_sshiftRight_fill _ (by omega), if_neg (by omega), top32]
      next => rfl

end BitFields

section Exactness

variable {components : Nat}

def DivisorNonzero (alu : Int64Alu components) (c : Fin components) : Prop :=
  match alu with
  | .udiv _ d | .idiv _ d | .umod _ d | .imod _ d | .irem _ d => d c ≠ 0#64
  | _ => True

/-- The quotient that overflows, conversions to 64 bits from 64 bits, and fields that take set bits
from the upper half of their operand -/
def Excepted (alu : Int64Alu components) (c : Fin components) : Prop :=
  match alu with
  | .idiv n d => n c = BitVec.intMin 64 ∧ d c = -1#64
  | @Int64Alu.i2i64 _ bitSize _ | @Int64Alu.u2u64 _ bitSize _ => 32 < bitSize
  | .ubitfieldExtract base offset bits =>
    ∃ i : Nat, 32 ≤ i ∧ (i : Int) < (offset c).toInt + (bits c).toInt ∧ (base c).getLsbD i = true
  | _ => False

theorem extract_eq {chunkBits : Nat} {chunk lowered extracted result : BitVec 64}
    (equal : Word.outside chunkBits chunk = false → lowered = extracted)
    (defined : (if Word.outside chunkBits chunk then none else some extracted) = some result) :
    lowered = result := by
  split at defined
  next => exact absurd defined (by simp)
  next inside =>
    rw [equal (Bool.eq_false_iff.mpr inside)]
    exact Option.some.inj defined

theorem lowerInt64AluInstr_eq (alu : Int64Alu components) (c : Fin components)
    {result : alu.Result} (divisor : DivisorNonzero alu c) (regular : ¬ Excepted alu c)
    (defined : alu.constExpr c = some result) : lowerInt64AluInstr alu c = result := by
  cases alu with
  | extractU8 x chunk => exact extract_eq (lowerExtractUnsigned_eq (.inl rfl) (x c)) defined
  | extractI8 x chunk => exact extract_eq (lowerExtractSigned_eq (.inl rfl) (x c)) defined
  | extractU16 x chunk => exact extract_eq (lowerExtractUnsigned_eq (.inr rfl) (x c)) defined
  | extractI16 x chunk => exact extract_eq (lowerExtractSigned_eq (.inr rfl) (x c)) defined
  | ubitfieldExtract base offset bits =>
      apply lowerBitfieldExtract64_unsigned _ defined
      intro i high within
      rw [← Bool.not_eq_true]
      intro set
      exact regular ⟨i, high, within, set⟩
  | ibitfieldExtract base offset bits => exact lowerBitfieldExtract64_signed defined
  | imul x y => exact (lowerImul64_eq (x c) (y c)).trans (Option.some.inj defined)
  | amul x y => exact (lowerImul64_eq (x c) (y c)).trans (Option.some.inj defined)
  | imul2x32_64 x y => exact (lowerMul2x32_64_signed (x c) (y c)).trans (Option.some.inj defined)
  | umul2x32_64 x y => exact (lowerMul2x32_64_unsigned (x c) (y c)).trans (Option.some.inj defined)
  | imulHigh x y => exact (lowerMulHigh64_signed (x c) (y c)).trans (Option.some.inj defined)
  | umulHigh x y => exact (lowerMulHigh64_unsigned (x c) (y c)).trans (Option.some.inj defined)
  | isign x => exact (lowerIsign64_eq (x c)).trans (Option.some.inj defined)
  | udiv n d =>
      exact ((lowerUdiv64_eq n d c divisor).trans (if_neg divisor).symm).trans
        (Option.some.inj defined)
  | idiv n d =>
      exact ((lowerIdiv64_eq n d c divisor).trans (idiv_eq_sdiv divisor regular).symm).trans
        (Option.some.inj defined)
  | umod n d =>
      exact ((lowerUmod64_eq n d c divisor).trans (if_neg divisor).symm).trans
        (Option.some.inj defined)
  | imod n d =>
      exact ((lowerImod64_eq n d c divisor).trans (imod_eq_smod divisor).symm).trans
        (Option.some.inj defined)
  | irem n d =>
      exact ((lowerIrem64_eq n d c divisor).trans (irem_eq_srem divisor).symm).trans
        (Option.some.inj defined)
  | b2i64 x => exact (lowerB2i64_eq (x c)).trans (Option.some.inj defined)
  | i2i8 x => exact (signExtend_unpackSplitX (x c) (by decide)).trans (Option.some.inj defined)
  | i2i16 x => exact (signExtend_unpackSplitX (x c) (by decide)).trans (Option.some.inj defined)
  | i2i32 x =>
      exact ((BitVec.signExtend_eq_setWidth_of_le (x c) (by decide)).symm).trans
        (Option.some.inj defined)
  | i2i64 x =>
      exact (lowerI2i64_eq (x c) (Nat.le_of_not_lt regular)).trans (Option.some.inj defined)
  | u2u8 x => exact (setWidth_unpackSplitX (x c) (by decide)).trans (Option.some.inj defined)
  | u2u16 x => exact (setWidth_unpackSplitX (x c) (by decide)).trans (Option.some.inj defined)
  | u2u32 x => exact Option.some.inj defined
  | u2u64 x =>
      exact (lowerU2u64_eq (x c) (Nat.le_of_not_lt regular)).trans (Option.some.inj defined)
  | bcsel cond x y => exact (lowerBcsel64_eq (cond c) (x c) (y c)).trans (Option.some.inj defined)
  | compare comparison x y =>
      exact (lowerInt64Compare_eq comparison (x c) (y c)).trans (Option.some.inj defined)
  | iadd x y => exact (lowerIadd64_eq (x c) (y c)).trans (Option.some.inj defined)
  | isub x y => exact (lowerIsub64_eq (x c) (y c)).trans (Option.some.inj defined)
  | imin x y => exact (lowerImin64_eq (x c) (y c)).trans (Option.some.inj defined)
  | imax x y => exact (lowerImax64_eq (x c) (y c)).trans (Option.some.inj defined)
  | umin x y => exact (lowerUmin64_eq (x c) (y c)).trans (Option.some.inj defined)
  | umax x y => exact (lowerUmax64_eq (x c) (y c)).trans (Option.some.inj defined)
  | iabs x => exact (lowerIabs64_eq (x c)).trans (Option.some.inj defined)
  | ineg x => exact (lowerIneg64_eq (x c)).trans (Option.some.inj defined)
  | iand x y => exact (lowerIand64_eq (x c) (y c)).trans (Option.some.inj defined)
  | ior x y => exact (lowerIor64_eq (x c) (y c)).trans (Option.some.inj defined)
  | ixor x y => exact (lowerIxor64_eq (x c) (y c)).trans (Option.some.inj defined)
  | inot x => exact (lowerInot64_eq (x c)).trans (Option.some.inj defined)
  | bitfieldSelect cond x y =>
      exact (lowerBitfieldSelect64_eq (cond c) (x c) (y c)).trans (Option.some.inj defined)
  | ishl x y => exact (lowerIshl64_eq (x c) (y c)).trans (Option.some.inj defined)
  | ishr x y => exact (lowerIshr64_eq (x c) (y c)).trans (Option.some.inj defined)
  | ushr x y => exact (lowerUshr64_eq (x c) (y c)).trans (Option.some.inj defined)
  | ufindMsb x => exact (lowerUfindMsb64_eq (x c)).trans (Option.some.inj defined)
  | findLsb x => exact (lowerFindLsb64_eq (x c)).trans (Option.some.inj defined)
  | bitCount x => exact (lowerBitCount64_eq (x c)).trans (Option.some.inj defined)
  | bitfieldReverse x => exact (lowerBitfieldReverse64_eq (x c)).trans (Option.some.inj defined)

/-- Every instruction is lowered exactly, up to the exceptions, the extractions give every field
inside of the word, and the division of unsigned words leaves a quotient and a remainder below the
divisor. -/
theorem lowerInt64_exact :
    (∀ (alu : Int64Alu components) (c : Fin components) (result : alu.Result),
      DivisorNonzero alu c → ¬ Excepted alu c → alu.constExpr c = some result →
        lowerInt64AluInstr alu c = result) ∧
    (∀ (base : Fin components → BitVec 64) (offset bits : Fin components → BitVec 32)
      (c : Fin components), (offset c).toNat + (bits c).toNat ≤ 64 →
        lowerInt64AluInstr (.ubitfieldExtract base offset bits) c =
            bitField false (base c) (offset c).toNat (bits c).toNat ∧
          lowerInt64AluInstr (.ibitfieldExtract base offset bits) c =
            bitField true (base c) (offset c).toNat (bits c).toNat) ∧
    ∀ (n d : Fin components → BitVec 64) (c : Fin components), d c ≠ 0#64 →
      (n c).toNat = (lowerUdiv64Mod64 n d c).1.toNat * (d c).toNat +
          (lowerUdiv64Mod64 n d c).2.toNat ∧
        (lowerUdiv64Mod64 n d c).2.toNat < (d c).toNat := by
  refine ⟨?_, ?_, ?_⟩
  · intro alu c result divisor regular defined
    exact lowerInt64AluInstr_eq alu c divisor regular defined
  · intro base offset bits c inside
    exact ⟨lowerBitfieldExtract64_field (base c) false inside,
      lowerBitfieldExtract64_field (base c) true inside⟩
  · intro n d c nonzero
    exact lowerUdiv64Mod64_spec n d c nonzero

/-- Minus seven by two, next to a component that divides by zero -/
def minusSevenByTwo : Int64Alu 2 :=
  .idiv (fun _ => -7#64) (fun c => if c.val = 0 then 2#64 else 0#64)

theorem lowerInt64_exact_minusSevenByTwo :
    DivisorNonzero minusSevenByTwo 0 ∧ ¬ Excepted minusSevenByTwo 0 ∧
      minusSevenByTwo.constExpr 0 = some (-3#64) ∧
      lowerInt64AluInstr minusSevenByTwo 0 = -3#64 := by
  have divisor : DivisorNonzero minusSevenByTwo 0 := show 2#64 ≠ 0#64 by decide
  have regular : ¬ Excepted minusSevenByTwo 0 := by
    rintro ⟨least, _⟩
    exact absurd least (by decide)
  have defined : minusSevenByTwo.constExpr 0 = some (-3#64) := by
    change some (Word.idiv (-7#64) 2#64) = some (-3#64)
    decide
  exact ⟨divisor, regular, defined,
    lowerInt64_exact.1 minusSevenByTwo 0 (-3#64) divisor regular defined⟩

theorem not_exact_excepted :
    (Int64Alu.idiv (fun _ : Fin 1 => BitVec.intMin 64) (fun _ => -1#64)).constExpr 0 = some 0#64 ∧
      lowerInt64AluInstr (.idiv (fun _ : Fin 1 => BitVec.intMin 64) (fun _ => -1#64)) 0 ≠ 0#64 ∧
    (Int64Alu.u2u64 (fun _ : Fin 1 => 0x100000000#64)).constExpr 0 = some 0x100000000#64 ∧
      lowerInt64AluInstr (.u2u64 (fun _ : Fin 1 => 0x100000000#64)) 0 ≠ 0x100000000#64 ∧
    (Int64Alu.ubitfieldExtract (fun _ : Fin 1 => 0x100000000#64) (fun _ => 16#32)
        (fun _ => 32#32)).constExpr 0 = some 0#64 ∧
      lowerInt64AluInstr (.ubitfieldExtract (fun _ : Fin 1 => 0x100000000#64) (fun _ => 16#32)
        (fun _ => 32#32)) 0 ≠ 0#64 := by
  refine ⟨by decide, ?_, by decide, by decide, by decide, by decide⟩
  intro equal
  have divided := lowerIdiv64_eq (fun _ : Fin 1 => BitVec.intMin 64) (fun _ => -1#64) 0 (by decide)
  exact absurd (divided.symm.trans equal) (by decide)

end Exactness

end SpirvToDxil.Nir.LowerInt64
