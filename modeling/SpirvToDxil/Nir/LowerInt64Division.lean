import SpirvToDxil.Nir.LowerInt64Words
import SpirvToDxil.Util.LongDivision

/-!
# Division of words in two halves

Both loops of `lower_udiv64_mod64` are long divisions: the first one of the upper half of the
numerator by the lower half of the denominator, the second one of what is left by the whole
denominator. The guards on the highest set bit tell where the shifted denominator would overflow.
-/

namespace SpirvToDxil.Nir.LowerInt64

open LongDivision

section Guards

/-- The guard fails only where the shifted denominator is too large to fit. -/
theorem ige_ufindMsb_iff (d : BitVec 32) {i : Nat} (inside : i < 32) :
    Word.compare .ige (BitVec.ofNat 32 (31 - i)) (Word.ufindMsb d) = true ↔
      d.toNat < 2 ^ (32 - i) := by
  have highest := @BitVector.lastBit_slt_iff 32 d (32 - i) (by decide)
  have place : (BitVec.ofNat 32 (31 - i)).toInt = 31 - i := by
    have small : 2 * (BitVec.ofNat 32 (31 - i)).toNat < 2 ^ 32 := by
      rw [BitVec.toNat_ofNat]
      omega
    rw [BitVec.toInt_eq_toNat_of_lt small, BitVec.toNat_ofNat]
    omega
  rw [← highest, Word.compare, Word.ufindMsb, BitVec.sle_iff_toInt_le, place]
  omega

theorem mul_place_lt_iff {d w i : Nat} (inside : i ≤ w) :
    d * 2 ^ i < 2 ^ w ↔ d < 2 ^ (w - i) := by
  have split : 2 ^ w = 2 ^ (w - i) * 2 ^ i := by
    rw [← pow_add, Nat.sub_add_cancel inside]
  rw [split]
  exact Nat.mul_lt_mul_right (Nat.two_pow_pos i)

theorem cond_eq {w n d i : Nat} {compared guard : Bool} (small : d < 2 ^ w) (bound : n < 2 ^ w)
    (guarded : guard = true ↔ d * 2 ^ i < 2 ^ w)
    (compares : d * 2 ^ i < 2 ^ w → compared = decide (d * 2 ^ i ≤ n)) :
    (if i ≠ 0 then compared && guard else compared) = decide (d * 2 ^ i ≤ n) := by
  by_cases fits : d * 2 ^ i < 2 ^ w
  · rw [guarded.mpr fits, Bool.and_true, ite_self]
    exact compares fits
  · have shifted : i ≠ 0 := by
      intro zero
      rw [zero] at fits
      omega
    have stopped : guard = false := by
      rw [← Bool.not_eq_true, guarded]
      exact fits
    rw [if_pos shifted, stopped, Bool.and_false]
    apply Eq.symm
    apply decide_eq_false
    omega

theorem toNat_or_place {q : BitVec 32} {n d i r : Nat} (inside : i < 32)
    (divides : Divides n d (i + 1) (q.toNat, r)) :
    (q ||| BitVec.ofNat 32 (2 ^ i)).toNat = q.toNat + 2 ^ i := by
  have power : 2 ^ i < 2 ^ 32 := Nat.pow_lt_pow_right (by decide) inside
  rw [BitVec.toNat_or, BitVec.toNat_ofNat, Nat.mod_eq_of_lt power]
  exact divides.or_place

theorem toNat_ishlImm {w i : Nat} (d : BitVec w) (count : shiftCount w (BitVec.ofNat 32 i) = i)
    (fits : d.toNat * 2 ^ i < 2 ^ w) : (ishlImm d i).toNat = d.toNat * 2 ^ i := by
  unfold ishlImm
  split
  next zero =>
    rw [zero]
    simp
  next =>
    rw [Word.ishl, count, BitVec.toNat_shiftLeft, Nat.shiftLeft_eq, Nat.mod_eq_of_lt fits]

end Guards

section Passes

theorem pass_eq {w n i : Nat} {d numerator dShift : BitVec w} {q : BitVec 32} (inside : i < 32)
    (divides : Divides n d.toNat (i + 1) (q.toNat, numerator.toNat))
    (shifted : d.toNat * 2 ^ i < 2 ^ w → dShift.toNat = d.toNat * 2 ^ i) :
    ((if decide (d.toNat * 2 ^ i ≤ numerator.toNat) then
      q ||| BitVec.ofNat 32 (2 ^ i) else q).toNat,
      (if decide (d.toNat * 2 ^ i ≤ numerator.toNat) then numerator - dShift
        else numerator).toNat) =
      step d.toNat (q.toNat, numerator.toNat) i := by
  have bound := numerator.isLt
  unfold LongDivision.step
  by_cases fits : d.toNat * 2 ^ i ≤ numerator.toNat
  · have moved := shifted (Nat.lt_of_le_of_lt fits bound)
    have less : dShift ≤ numerator := by
      rw [BitVec.le_def, moved]
      exact fits
    rw [if_pos fits, if_pos (decide_eq_true fits), if_pos (decide_eq_true fits),
      toNat_or_place inside divides, BitVec.toNat_sub_of_le less, moved]
  · rw [if_neg fits, if_neg (by simpa using fits), if_neg (by simpa using fits)]

theorem highDivStep_eq {n : Nat} {dLo : BitVec 32} (state : BitVec 32 × BitVec 32) {i : Nat}
    (inside : i < 32)
    (divides : Divides n dLo.toNat (i + 1) (state.2.toNat, state.1.toNat)) :
    ((highDivStep true dLo (Word.ufindMsb dLo) state i).2.toNat,
      (highDivStep true dLo (Word.ufindMsb dLo) state i).1.toNat) =
      step dLo.toNat (state.2.toNat, state.1.toNat) i := by
  have count : shiftCount 32 (BitVec.ofNat 32 i) = i := by
    rw [shiftCount_32, BitVec.toNat_ofNat]
    omega
  have guarded := ige_ufindMsb_iff dLo inside
  rw [← mul_place_lt_iff (Nat.le_of_lt inside)] at guarded
  have compares : dLo.toNat * 2 ^ i < 2 ^ 32 →
      Word.compare .uge state.1 (ishlImm dLo i) =
        decide (dLo.toNat * 2 ^ i ≤ state.1.toNat) := by
    intro fits
    rw [Word.compare, BitVec.ule, toNat_ishlImm dLo count fits]
  have cond := cond_eq dLo.isLt state.1.isLt guarded compares
  rw [← pass_eq inside divides (toNat_ishlImm dLo count)]
  simp only [highDivStep, Bool.true_and, cond]

theorem lowerIshlImm64_eq (x : BitVec 64) (y : Nat) : lowerIshlImm64 x y = ishlImm x y := by
  rw [lowerIshlImm64, ishlImm, lowerIshl64_eq]

theorem lowDivStep_eq {n : Nat} {d : BitVec 64} (state : BitVec 64 × BitVec 32) {i : Nat}
    (inside : i < 32)
    (divides : Divides n d.toNat (i + 1) (state.2.toNat, state.1.toNat)) :
    ((lowDivStep d (Word.ufindMsb (unpackSplitY d)) state i).2.toNat,
      (lowDivStep d (Word.ufindMsb (unpackSplitY d)) state i).1.toNat) =
      step d.toNat (state.2.toNat, state.1.toNat) i := by
  have count : shiftCount 64 (BitVec.ofNat 32 i) = i := by
    rw [shiftCount_64, BitVec.toNat_ofNat]
    omega
  have guarded : Word.compare .ige (BitVec.ofNat 32 (31 - i)) (Word.ufindMsb (unpackSplitY d)) =
      true ↔ d.toNat * 2 ^ i < 2 ^ 64 := by
    have whole : 2 ^ (64 - i) = 2 ^ (32 - i) * 2 ^ 32 := by
      rw [← pow_add]
      congr 1
      omega
    rw [ige_ufindMsb_iff _ inside, mul_place_lt_iff (by omega), toNat_unpackSplitY, whole]
    exact Nat.div_lt_iff_lt_mul (by decide)
  have compares : d.toNat * 2 ^ i < 2 ^ 64 →
      lowerInt64Compare .uge state.1 (lowerIshlImm64 d i) =
        decide (d.toNat * 2 ^ i ≤ state.1.toNat) := by
    intro fits
    rw [lowerInt64Compare_eq, lowerIshlImm64_eq, Word.compare, BitVec.ule,
      toNat_ishlImm d count fits]
  have cond := cond_eq d.isLt state.1.isLt guarded compares
  rw [← pass_eq inside divides (toNat_ishlImm d count)]
  simp only [lowDivStep, lowerBcsel64_eq, lowerIsub64_eq, cond]
  rw [lowerIshlImm64_eq]

end Passes

section Loops

/-- The first loop divides the upper half of the numerator. -/
theorem divides_highLoop (dLo nHi : BitVec 32) (nonzero : 0 < dLo.toNat)
    {state : BitVec 32 × BitVec 32}
    (done : (List.range 32).reverse.foldl (highDivStep true dLo (Word.ufindMsb dLo)) (nHi, 0#32) =
      state) :
    Divides nHi.toNat dLo.toNat 0 (state.2.toNat, state.1.toNat) := by
  rw [← done]
  apply divides_foldl (r := fun state : BitVec 32 × BitVec 32 => (state.2.toNat, state.1.toNat))
  · intro state i inside divides
    exact highDivStep_eq state inside divides
  · apply divides_start
    have bound := nHi.isLt
    have least := Nat.mul_le_mul_right (2 ^ 32) nonzero
    omega

/-- A component that the first loop does not need keeps its values. -/
theorem highLoop_false (dLo log2DLo : BitVec 32) (places : List Nat)
    (state : BitVec 32 × BitVec 32) :
    places.foldl (highDivStep false dLo log2DLo) state = state := by
  induction places with
  | nil => rfl
  | cons place places inductionHypothesis =>
      have kept : highDivStep false dLo log2DLo state place = state := by
        simp [highDivStep]
      rw [List.foldl_cons, kept]
      exact inductionHypothesis

theorem divides_lowDiv {n d : BitVec 64} (below : n.toNat < d.toNat * 2 ^ 32) :
    Divides n.toNat d.toNat 0 ((lowDiv n d).2.toNat, (lowDiv n d).1.toNat) := by
  unfold lowDiv
  apply divides_foldl (r := fun state : BitVec 64 × BitVec 32 => (state.2.toNat, state.1.toNat))
  · intro state i inside divides
    exact lowDivStep_eq state inside divides
  · exact divides_start below

theorem needHighDiv_iff (n d : BitVec 64) :
    needHighDiv n d = true ↔
      (unpackSplitY d).toNat = 0 ∧ (unpackSplitX d).toNat ≤ (unpackSplitY n).toNat := by
  rw [needHighDiv, Bool.and_eq_true, Word.compare, Word.compare, beq_iff_eq,
    BitVec.ule_iff_toNat_le,
    ← BitVec.toNat_inj]
  rfl

end Loops

section Quotients

variable {components : Nat}

theorem highDiv_idle (n d : Fin components → BitVec 64) (c : Fin components)
    (idle : needHighDiv (n c) (d c) = false) : highDiv n d c = (unpackSplitY (n c), 0#32) := by
  unfold highDiv
  dsimp only
  split
  next some =>
    have several : components ≠ 1 := by
      intro single
      subst single
      obtain ⟨c', _, need⟩ := List.any_eq_true.mp some
      obtain rfl := Subsingleton.elim c' c
      rw [idle] at need
      exact Bool.noConfusion need
    rw [if_neg several, idle]
    exact highLoop_false _ _ _ _
  next => rfl

/-- What the conditional leaves: a multiple of the denominator is taken from the numerator's upper
half, and the rest fits in 32 places. -/
theorem highDiv_spec (n d : Fin components → BitVec 64) (c : Fin components)
    (nonzero : d c ≠ 0#64) :
    (n c).toNat = 2 ^ 32 * (highDiv n d c).2.toNat * (d c).toNat +
        (packSplit (unpackSplitX (n c)) (highDiv n d c).1).toNat ∧
      (packSplit (unpackSplitX (n c)) (highDiv n d c).1).toNat < (d c).toNat * 2 ^ 32 := by
  have needed := needHighDiv_iff (n c) (d c)
  have nHalves := toNat_eq_halves (n c)
  have dHalves := toNat_eq_halves (d c)
  have nLow := (unpackSplitX (n c)).isLt
  have nHigh := (unpackSplitY (n c)).isLt
  rw [toNat_packSplit]
  cases need : needHighDiv (n c) (d c) with
  | true =>
      obtain ⟨dHigh, _⟩ := needed.mp need
      have some : ((List.finRange components).any fun c => needHighDiv (n c) (d c)) = true :=
        List.any_eq_true.mpr ⟨c, List.mem_finRange c, need⟩
      have positive : 0 < (unpackSplitX (d c)).toNat := by
        apply Nat.pos_of_ne_zero
        intro zero
        apply nonzero
        apply BitVec.eq_of_toNat_eq
        rw [dHalves, dHigh, zero]
        rfl
      have divides := @divides_highLoop _ (unpackSplitY (n c)) positive (highDiv n d c) (by
        unfold highDiv
        dsimp only
        rw [if_pos some, need, ite_self])
      have product := divides.product
      have below := divides.remainder_lt
      dsimp only at product below
      rw [dHigh, Nat.mul_zero, Nat.add_zero] at dHalves
      rw [dHalves]
      constructor
      · rw [nHalves, product]
        ring
      · omega
  | false =>
      have short : ¬ ((unpackSplitY (d c)).toNat = 0 ∧
          (unpackSplitX (d c)).toNat ≤ (unpackSplitY (n c)).toNat) := by
        rw [← needed, need]
        exact Bool.false_ne_true
      rw [highDiv_idle n d c need]
      dsimp only
      constructor
      · rw [nHalves]
        simp
      · omega

theorem lowerUdiv64Mod64_spec (n d : Fin components → BitVec 64) (c : Fin components)
    (nonzero : d c ≠ 0#64) :
    (n c).toNat = (lowerUdiv64Mod64 n d c).1.toNat * (d c).toNat +
        (lowerUdiv64Mod64 n d c).2.toNat ∧
      (lowerUdiv64Mod64 n d c).2.toNat < (d c).toNat := by
  obtain ⟨taken, below⟩ := highDiv_spec n d c nonzero
  have divides := divides_lowDiv below
  have product := divides.product
  have remainder := divides.remainder_lt
  unfold lowerUdiv64Mod64
  dsimp only at product remainder ⊢
  rw [packSplit_unpackSplit, toNat_packSplit]
  constructor
  · rw [taken]
    calc
      _ = 2 ^ 32 * (highDiv n d c).2.toNat * (d c).toNat +
          ((lowDiv (packSplit (unpackSplitX (n c)) (highDiv n d c).1) (d c)).2.toNat *
            (d c).toNat +
          (lowDiv (packSplit (unpackSplitX (n c)) (highDiv n d c).1) (d c)).1.toNat) := by
        rw [← product]
      _ = _ := by ring
  · exact remainder

theorem lowerUdiv64_eq (n d : Fin components → BitVec 64) (c : Fin components)
    (nonzero : d c ≠ 0#64) : lowerUdiv64 n d c = n c / d c := by
  obtain ⟨product, below⟩ := lowerUdiv64Mod64_spec n d c nonzero
  apply BitVec.eq_of_toNat_eq
  rw [BitVec.toNat_udiv, product, Nat.mul_comm, Nat.mul_add_div (Nat.zero_lt_of_lt below),
    Nat.div_eq_of_lt below]
  rfl

theorem lowerUmod64_eq (n d : Fin components → BitVec 64) (c : Fin components)
    (nonzero : d c ≠ 0#64) : lowerUmod64 n d c = n c % d c := by
  obtain ⟨product, below⟩ := lowerUdiv64Mod64_spec n d c nonzero
  apply BitVec.eq_of_toNat_eq
  rw [BitVec.toNat_umod, product, Nat.mul_comm, Nat.mul_add_mod, Nat.mod_eq_of_lt below]
  rfl

theorem iabs_ne_zero {x : BitVec 64} (nonzero : x ≠ 0#64) : lowerIabs64 x ≠ 0#64 := by
  rw [lowerIabs64_eq, Word.iabs]
  split
  · simpa using nonzero
  · exact nonzero

theorem lowerIabs64_eq_msb (x : BitVec 64) : lowerIabs64 x = if x.msb then -x else x := by
  rw [lowerIabs64_eq, Word.iabs, BitVec.slt_zero_eq_msb]

theorem absUdiv64Mod64_quotient (n d : Fin components → BitVec 64) (c : Fin components)
    (nonzero : d c ≠ 0#64) :
    (absUdiv64Mod64 n d c).1 = lowerIabs64 (n c) / lowerIabs64 (d c) :=
  lowerUdiv64_eq (fun c => lowerIabs64 (n c)) (fun c => lowerIabs64 (d c)) c (iabs_ne_zero nonzero)

theorem absUdiv64Mod64_remainder (n d : Fin components → BitVec 64) (c : Fin components)
    (nonzero : d c ≠ 0#64) :
    (absUdiv64Mod64 n d c).2 = lowerIabs64 (n c) % lowerIabs64 (d c) :=
  lowerUmod64_eq (fun c => lowerIabs64 (n c)) (fun c => lowerIabs64 (d c)) c (iabs_ne_zero nonzero)

/-- The sequence divides like two's complement numbers, and so leaves the quotient that overflows
as it is. -/
theorem lowerIdiv64_eq (n d : Fin components → BitVec 64) (c : Fin components)
    (nonzero : d c ≠ 0#64) : lowerIdiv64 n d c = (n c).sdiv (d c) := by
  rw [lowerIdiv64, absUdiv64Mod64_quotient n d c nonzero, lowerBcsel64_eq, lowerIneg64_eq,
    isNeg_eq_msb, isNeg_eq_msb, lowerIabs64_eq_msb, lowerIabs64_eq_msb, BitVec.sdiv_eq]
  cases (n c).msb with
  | true =>
      cases (d c).msb with
      | true => rfl
      | false => rfl
  | false =>
      cases (d c).msb with
      | true => rfl
      | false => rfl

theorem lowerIrem64_eq (n d : Fin components → BitVec 64) (c : Fin components)
    (nonzero : d c ≠ 0#64) : lowerIrem64 n d c = (n c).srem (d c) := by
  rw [lowerIrem64, absUdiv64Mod64_remainder n d c nonzero, lowerBcsel64_eq, lowerIneg64_eq,
    isNeg_eq_msb, lowerIabs64_eq_msb, lowerIabs64_eq_msb, BitVec.srem_eq]
  cases (n c).msb with
  | true =>
      cases (d c).msb with
      | true => rfl
      | false => rfl
  | false =>
      cases (d c).msb with
      | true => rfl
      | false => rfl

theorem lowerImod64_eq (n d : Fin components → BitVec 64) (c : Fin components)
    (nonzero : d c ≠ 0#64) : lowerImod64 n d c = (n c).smod (d c) := by
  rw [lowerImod64, absUdiv64Mod64_remainder n d c nonzero, lowerBcsel64_eq, lowerBcsel64_eq,
    lowerBcsel64_eq, lowerIneg64_eq, lowerIadd64_eq, lowerInt64Compare_eq, Word.compare,
    isNeg_eq_msb, isNeg_eq_msb, lowerIabs64_eq_msb, lowerIabs64_eq_msb, BitVec.smod_eq]
  simp only [beq_iff_eq]
  cases (n c).msb with
  | true =>
      cases (d c).msb with
      | true =>
          simp only [↓reduceIte]
          split
          next zero => exact (congrArg (- ·) zero).symm
          next => rfl
      | false =>
          simp only [↓reduceIte, Bool.false_eq_true, reduceCtorEq, BitVec.umod_eq]
          split
          next zero => exact zero.symm
          next => exact (BitVec.add_comm _ _).trans (BitVec.sub_eq_add_neg _ _).symm
  | false =>
      cases (d c).msb with
      | true =>
          simp only [↓reduceIte, Bool.false_eq_true, BitVec.umod_eq]
          split
          next zero => exact zero.symm
          next => rfl
      | false =>
          simp only [↓reduceIte, Bool.false_eq_true]
          split
          next zero => exact zero.symm
          next => rfl

/-- A remainder of the quotient that overflows is zero. -/
theorem irem_eq_srem {x y : BitVec 64} (nonzero : y ≠ 0#64) : Word.irem x y = x.srem y := by
  unfold Word.irem
  split
  next special =>
    rcases special with zero | ⟨rfl, rfl⟩
    · exact absurd zero nonzero
    · rfl
  next => rfl

theorem idiv_eq_sdiv {x y : BitVec 64} (nonzero : y ≠ 0#64)
    (fits : ¬ (x = BitVec.intMin 64 ∧ y = -1#64)) : Word.idiv x y = x.sdiv y := by
  unfold Word.idiv
  rw [if_neg (not_or.mpr ⟨nonzero, fits⟩)]

end Quotients

end SpirvToDxil.Nir.LowerInt64
