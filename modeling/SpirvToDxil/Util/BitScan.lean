import SpirvToDxil.Util.BitVector

/-!
# Bit scans

Scans that start at the highest bit, and scans of a word in two parts.
-/

namespace BitVector

/-- The last bit below `n` that passes `test`, all ones where none does. -/
def lastBit (n : Nat) (test : Nat → Bool) : BitVec 32 :=
  match (List.range n).reverse.find? test with
  | some bit => BitVec.ofNat 32 bit
  | none => -1

theorem find?_range_add (n m : Nat) (test : Nat → Bool) :
    (List.range (n + m)).find? test =
      ((List.range n).find? test).or
        (((List.range m).find? fun bit => test (n + bit)).map (n + ·)) := by
  rw [List.range_add, List.find?_append, List.find?_map]
  rfl

theorem find?_reverse_range_add (n m : Nat) (test : Nat → Bool) :
    (List.range (n + m)).reverse.find? test =
      (((List.range m).reverse.find? fun bit => test (n + bit)).map (n + ·)).or
        ((List.range n).reverse.find? test) := by
  rw [List.range_add, List.reverse_append, ← List.map_reverse, List.find?_append, List.find?_map]
  rfl

theorem find?_reverse_range_eq_some {n bit : Nat} {test : Nat → Bool}
    (found : (List.range n).reverse.find? test = some bit) :
    bit < n ∧ test bit = true ∧ ∀ later, bit < later → later < n → test later = false := by
  induction n with
  | zero => simp at found
  | succ n inductionHypothesis =>
      rw [List.range_succ, List.reverse_append, List.reverse_singleton, List.singleton_append,
        List.find?_cons] at found
      cases hit : test n with
      | true =>
          rw [hit, Option.some.injEq] at found
          subst found
          refine ⟨Nat.lt_succ_self n, hit, ?_⟩
          intro later above below
          omega
      | false =>
          rw [hit] at found
          obtain ⟨inside, holds, last⟩ := inductionHypothesis found
          refine ⟨Nat.lt_succ_of_lt inside, holds, ?_⟩
          intro later above below
          by_cases top : later = n
          · rw [top, hit]
          · exact last later above (by omega)

theorem bounds_of_find?_eq_some {w bit : Nat} {x : BitVec w}
    (found : (List.range w).reverse.find? x.getLsbD = some bit) :
    bit < w ∧ 2 ^ bit ≤ x.toNat ∧ x.toNat < 2 ^ (bit + 1) := by
  obtain ⟨inside, holds, last⟩ := find?_reverse_range_eq_some found
  refine ⟨inside, Nat.ge_two_pow_of_testBit holds, ?_⟩
  apply Nat.lt_pow_two_of_testBit
  intro later above
  by_cases below : later < w
  · exact last later above below
  · exact BitVec.getLsbD_of_ge x later (Nat.le_of_not_lt below)

theorem eq_zero_of_find?_eq_none {w : Nat} {x : BitVec w}
    (none : (List.range w).reverse.find? x.getLsbD = none) : x = 0#w := by
  rw [List.find?_eq_none] at none
  apply BitVec.eq_of_getLsbD_eq
  intro bit inside
  have unset := none bit (by simpa using inside)
  simpa using unset

/-- Whether the highest set bit is below a place tells whether the number is. -/
theorem lastBit_slt_iff {w : Nat} (x : BitVec w) {place : Nat} (narrow : w ≤ 2 ^ 31) :
    (lastBit w x.getLsbD).toInt < place ↔ x.toNat < 2 ^ place := by
  unfold lastBit
  cases found : (List.range w).reverse.find? x.getLsbD with
  | none =>
      rw [eq_zero_of_find?_eq_none found]
      simp
      omega
  | some bit =>
      obtain ⟨below, low, high⟩ := bounds_of_find?_eq_some found
      have reading : (BitVec.ofNat 32 bit).toInt = bit := by
        rw [BitVec.toInt_eq_toNat_of_lt, BitVec.toNat_ofNat, Nat.mod_eq_of_lt (by omega)]
        rw [BitVec.toNat_ofNat, Nat.mod_eq_of_lt (by omega)]
        omega
      rw [reading]
      constructor
      · intro less
        apply Nat.lt_of_lt_of_le high
        apply Nat.pow_le_pow_right (by decide)
        omega
      · intro less
        have power := Nat.lt_of_le_of_lt low less
        have exponent := (Nat.pow_lt_pow_iff_right (by decide)).mp power
        omega

end BitVector
