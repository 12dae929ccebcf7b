import SpirvToDxil.Nir.LowerBitSizeSoundness

/-!
# Reductions and scans of small integers

Sums, products and bitwise operations are cut as a whole, and the others keep to extended values.
Lanes that are not active leave the identity of the wide size.
-/

namespace SpirvToDxil.Nir

namespace LowerBitSize

open SubgroupScan

section Folds

variable {b w : Nat}

/-- The operators that the low bits are enough for. -/
def lowBits : ReductionOp → Bool
  | .iadd | .imul | .iand | .ior | .ixor => true
  | _ => false

theorem setWidth_apply {op : ReductionOp} (low : lowBits op) (narrow : b ≤ w) (x y : BitVec w) :
    (op.apply x y).setWidth b = op.apply (x.setWidth b) (y.setWidth b) := by
  cases op with
  | iadd => exact BitVec.setWidth_add x y narrow
  | imul => exact BitVec.setWidth_mul x y narrow
  | iand => exact BitVec.setWidth_and
  | ior => exact BitVec.setWidth_or
  | ixor => exact BitVec.setWidth_xor
  | _ => cases low

theorem setWidth_foldl {op : ReductionOp} (low : lowBits op) (narrow : b ≤ w)
    {extend : BitVec b → BitVec w} (kept : ∀ x, (extend x).setWidth b = x) (acc : BitVec w)
    (values : List (BitVec b)) :
    ((values.map extend).foldl op.apply acc).setWidth b =
    values.foldl op.apply (acc.setWidth b) := by
  induction values generalizing acc with
  | nil => rfl
  | cons value values ih =>
    rw [List.map_cons, List.foldl_cons, List.foldl_cons, ih, setWidth_apply low narrow, kept]

/-- An extension that the operator goes through. -/
theorem foldl_extend {op : ReductionOp} {extend : BitVec b → BitVec w}
    (through : ∀ x y, extend (op.apply x y) = op.apply (extend x) (extend y)) (acc : BitVec b)
    (values : List (BitVec b)) :
    (values.map extend).foldl op.apply (extend acc) = extend (values.foldl op.apply acc) := by
  induction values generalizing acc with
  | nil => rfl
  | cons value values ih => rw [List.map_cons, List.foldl_cons, List.foldl_cons, ← through, ih]

/-- The first value takes the place of the identity. -/
theorem foldl_identity {op : ReductionOp} {extend : BitVec b → BitVec w}
    (through : ∀ x y, extend (op.apply x y) = op.apply (extend x) (extend y))
    {values : List (BitVec b)} (nonempty : values ≠ []) :
    (values.map extend).foldl op.apply (op.identity w) =
      extend (values.foldl op.apply (op.identity b)) := by
  cases values with
  | nil => exact absurd rfl nonempty
  | cons value values =>
    rw [List.map_cons, List.foldl_cons, List.foldl_cons, ReductionOp.apply_identity,
      ReductionOp.apply_identity]
    exact foldl_extend through value values

theorem setWidth_allOnes (narrow : b ≤ w) :
    (BitVec.allOnes w).setWidth b = BitVec.allOnes b := by
  apply BitVec.eq_of_getLsbD_eq
  intro i inside
  rw [BitVec.getLsbD_setWidth, BitVec.getLsbD_allOnes, BitVec.getLsbD_allOnes]
  simp [inside, show i < w by omega]

theorem setWidth_identity {op : ReductionOp} (low : lowBits op) (narrow : b ≤ w) :
    (op.identity w).setWidth b = op.identity b := by
  cases op with
  | iadd | ior | ixor => exact BitVec.setWidth_zero _ _
  | imul =>
    apply BitVec.eq_of_toNat_eq
    rw [BitVec.toNat_setWidth]
    show (BitVec.ofNat w 1).toNat % 2 ^ b = (BitVec.ofNat b 1).toNat
    rw [BitVec.toNat_ofNat, BitVec.toNat_ofNat, Nat.mod_mod_of_dvd _ (Nat.pow_dvd_pow 2 narrow)]
  | iand => exact setWidth_allOnes narrow
  | _ => cases low

end Folds

section Order

variable {b w : Nat}

theorem signExtend_slt (narrow : b ≤ w) (x y : BitVec b) :
    (x.signExtend w).slt (y.signExtend w) = x.slt y := by
  rw [BitVec.slt_eq_decide, BitVec.slt_eq_decide, BitVec.toInt_signExtend_of_le narrow,
    BitVec.toInt_signExtend_of_le narrow]

theorem setWidth_ult (narrow : b ≤ w) (x y : BitVec b) :
    (x.setWidth w).ult (y.setWidth w) = x.ult y := by
  rw [BitVec.ult_eq_decide, BitVec.ult_eq_decide, BitVec.toNat_setWidth_of_le narrow,
    BitVec.toNat_setWidth_of_le narrow]

theorem convertBits_apply {op : ReductionOp} (ordered : lowBits op = false) (narrow : b ≤ w)
    (x y : BitVec b) : convertBits (reductionType op) w (op.apply x y) =
      op.apply (convertBits (reductionType op) w x) (convertBits (reductionType op) w y) := by
  cases op with
  | imin =>
    show (if x.slt y then x else y).signExtend w =
      if (x.signExtend w).slt (y.signExtend w) then _ else _
    rw [signExtend_slt narrow]
    split <;> rfl
  | imax =>
    show (if x.slt y then y else x).signExtend w =
      if (x.signExtend w).slt (y.signExtend w) then _ else _
    rw [signExtend_slt narrow]
    split <;> rfl
  | umin =>
    show (if x.ult y then x else y).setWidth w = if (x.setWidth w).ult (y.setWidth w) then _ else _
    rw [setWidth_ult narrow]
    split <;> rfl
  | umax =>
    show (if x.ult y then y else x).setWidth w = if (x.setWidth w).ult (y.setWidth w) then _ else _
    rw [setWidth_ult narrow]
    split <;> rfl
  | _ => cases ordered

/-- So they are for booleans, which are all zeros or all ones. -/
theorem convertBits_apply_bool {op : ReductionOp} (logical : op ≠ .iadd ∧ op ≠ .imul)
    (positive : 0 < w) (x y : BitVec 1) : convertBits .bool w (op.apply x y) =
      op.apply (convertBits .bool w x) (convertBits .bool w y) := by
  have bits (x : BitVec 1) : x = 0 ∨ x = 1 := by
    revert x
    decide
  have zero : convertBits .bool w 0#1 = 0#w := rfl
  have one : convertBits .bool w 1#1 = BitVec.allOnes w := BitVec.neg_one_eq_allOnes
  have below : (BitVec.allOnes w).slt 0#w = true := by
    rw [BitVec.slt_eq_decide, BitVec.toInt_allOnes, if_pos positive, BitVec.toInt_zero]
    decide
  have notBelow : (0#w).slt (BitVec.allOnes w) = false := by
    rw [BitVec.slt_eq_decide, BitVec.toInt_allOnes, if_pos positive, BitVec.toInt_zero]
    decide
  have above : (0#w).ult (BitVec.allOnes w) = true := by
    rw [BitVec.ult_eq_decide, BitVec.toNat_allOnes, BitVec.toNat_ofNat, Nat.zero_mod]
    have large : 1 < 2 ^ w := Nat.one_lt_two_pow (by omega)
    simp
    omega
  have notAbove : (BitVec.allOnes w).ult 0#w = false := by
    rw [BitVec.ult_eq_decide]
    simp
  cases op with
  | iadd => exact absurd rfl logical.1
  | imul => exact absurd rfl logical.2
  | iand | ior | ixor =>
    rcases bits x with rfl | rfl <;> rcases bits y with rfl | rfl <;>
      simp [ReductionOp.apply, zero, one]
  | imin | imax =>
    rcases bits x with rfl | rfl <;> rcases bits y with rfl | rfl <;>
      simp [ReductionOp.apply, zero, one, below, notBelow]
  | umin | umax =>
    rcases bits x with rfl | rfl <;> rcases bits y with rfl | rfl <;>
      simp [ReductionOp.apply, zero, one, above, notAbove]

theorem convertBits_convertBits {type : BaseType} (integer : type = .int ∨ type = .uint)
    (narrow : b ≤ w) (x : BitVec b) : convertBits type b (convertBits type w x) = x := by
  rcases integer with rfl | rfl
  · show (x.signExtend w).signExtend b = x
    rw [Narrowing.signExtend_signExtend x narrow, BitVec.signExtend_eq]
  · show (x.setWidth w).setWidth b = x
    rw [BitVec.setWidth_setWidth_of_le _ narrow, BitVec.setWidth_eq]

end Order

section Lowering

variable {b w : Nat} {reduction : Reduction} {group : Subgroup} {op : ReductionOp}

/-- Only an exclusive scan can be over no lanes. -/
theorem current_mem_lanes (notExclusive : reduction ≠ .exclusiveScan) :
    group.current ∈ reduction.lanes group := by
  apply List.mem_filter.mpr
  refine ⟨List.mem_range.mpr group.current_lt, ?_⟩
  rw [group.current_active]
  cases reduction with
  | reduce clusterSize => simp
  | inclusiveScan => simp
  | exclusiveScan => exact absurd rfl notExclusive

theorem imin_identity (x : BitVec b) :
    ReductionOp.imin.apply x (ReductionOp.imin.identity b) = x := by
  show (if x.slt (BitVec.intMax b) then x else BitVec.intMax b) = x
  split
  next => rfl
  next notLess =>
    apply BitVec.eq_of_toInt_eq
    rw [BitVec.slt_iff_toInt_lt, BitVec.toInt_intMax] at notLess
    rw [BitVec.toInt_intMax]
    have bound := BitVec.toInt_lt (x := x)
    omega

theorem imax_identity (x : BitVec b) :
    ReductionOp.imax.apply x (ReductionOp.imax.identity b) = x := by
  show (if x.slt (BitVec.intMin b) then BitVec.intMin b else x) = x
  rw [if_neg]
  rw [BitVec.slt_iff_toInt_lt]
  have bound := BitVec.toInt_intMin_le x
  omega

theorem lowerReduction_unclamped {type : BaseType} (notMin : op ≠ .imin) (notMax : op ≠ .imax)
    (typed : (if b = 1 then .bool else reductionType op) = type) (src : Nat → BitVec b) :
    lowerReduction reduction group op w src =
      convertBits type b (reduction.value group op fun lane => convertBits type w (src lane)) := by
  unfold lowerReduction
  dsimp only
  rw [typed]
  cases op with
  | imin => exact absurd rfl notMin
  | imax => exact absurd rfl notMax
  | _ => rw [ite_self]

theorem lowerReduction_eq {type : BaseType}
    (typed : (if b = 1 then .bool else reductionType op) = type)
    (through : ∀ x y : BitVec b, convertBits type w (op.apply x y) =
      op.apply (convertBits type w x) (convertBits type w y))
    (back : ∀ x : BitVec b, convertBits type b (convertBits type w x) = x)
    (clampMin : op = .imin → BitVec.ofInt w (intNMax b) = convertBits type w (op.identity b))
    (clampMax : op = .imax → BitVec.ofInt w (intNMin b) = convertBits type w (op.identity b))
    (identity : op ≠ .imin → op ≠ .imax → convertBits type b (op.identity w) = op.identity b)
    (src : Nat → BitVec b) :
    lowerReduction reduction group op w src = reduction.value group op src := by
  have wide : reduction.lanes group ≠ [] →
      reduction.value group op (fun lane => convertBits type w (src lane)) =
        convertBits type w (reduction.value group op src) := by
    intro nonempty
    have values : (reduction.lanes group).map (fun lane => convertBits type w (src lane)) =
        ((reduction.lanes group).map src).map (convertBits type w) := by
      rw [List.map_map]
      rfl
    rw [Reduction.value, values]
    apply foldl_identity through
    simpa using nonempty
  have empty (n : Nat) (value : Nat → BitVec n) (none : reduction.lanes group = []) :
      reduction.value group op value = op.identity n := by
    rw [Reduction.value, none]
    rfl
  -- The clamped value is the extended one, also where it comes from no lane.
  have clamped (right : ∀ x : BitVec b, op.apply x (op.identity b) = x) :
      op.apply (reduction.value group op fun lane => convertBits type w (src lane))
        (convertBits type w (op.identity b)) =
            convertBits type w (reduction.value group op src) := by
    by_cases none : reduction.lanes group = []
    · rw [empty w _ none, empty b _ none, ReductionOp.apply_identity]
    · rw [wide none, ← through, right]
  unfold lowerReduction
  dsimp only
  rw [typed]
  by_cases exclusive : reduction = .exclusiveScan
  · rw [if_pos exclusive]
    cases op with
    | imin => rw [clampMin rfl, clamped imin_identity, back]
    | imax => rw [clampMax rfl, clamped imax_identity, back]
    | _ =>
      dsimp only
      by_cases none : reduction.lanes group = []
      · rw [empty w _ none, empty b _ none]
        exact identity (by decide) (by decide)
      · rw [wide none, back]
  · rw [if_neg exclusive, wide (List.ne_nil_of_mem (current_mem_lanes exclusive)), back]

/-- Numbers that have signed representations at a size have them at wider sizes. -/
theorem signExtend_ofInt (positive : 0 < b) (narrow : b ≤ w) {number : Int}
    (signed : Signed b number) :
    BitVec.ofInt w number = (BitVec.ofInt b number).signExtend w := by
  have power : (2 : Int) ^ (b - 1) ≤ 2 ^ (w - 1) := by
    exact_mod_cast Nat.pow_le_pow_right (show 0 < 2 by decide) (show b - 1 ≤ w - 1 by omega)
  have signed' : Signed w number := by
    unfold Signed intNMin intNMax at signed ⊢
    omega
  apply BitVec.eq_of_toInt_eq
  rw [BitVec.toInt_signExtend_of_le narrow, toInt_ofInt positive signed.1 signed.2,
    toInt_ofInt (by omega) signed'.1 signed'.2]

theorem signed_bounds (b : Nat) : Signed b (intNMin b) ∧ Signed b (intNMax b) := by
  have power : (0 : Int) < 2 ^ (b - 1) := Int.pow_pos (by decide)
  unfold Signed intNMin intNMax
  omega

theorem intMax_eq (positive : 0 < b) : BitVec.intMax b = BitVec.ofInt b (intNMax b) := by
  obtain ⟨least, greatest⟩ := (signed_bounds b).2
  apply BitVec.eq_of_toInt_eq
  rw [toInt_ofInt positive least greatest, BitVec.toInt_intMax]
  rfl

theorem intMin_eq (positive : 0 < b) : BitVec.intMin b = BitVec.ofInt b (intNMin b) := by
  obtain ⟨least, greatest⟩ := (signed_bounds b).1
  have power : 2 ^ (b - 1) < 2 ^ b := Nat.pow_lt_pow_right (by decide) (by omega)
  apply BitVec.eq_of_toInt_eq
  rw [toInt_ofInt positive least greatest, BitVec.toInt_intMin, Nat.mod_eq_of_lt power, intNMin]
  simp

theorem convertBits_ones (positive : 0 < w) : convertBits .bool 1 (-1#w) = 1#1 := by
  apply if_neg
  intro zero
  have bit := congrArg (BitVec.getLsbD · 0) zero
  rw [BitVec.neg_one_eq_allOnes] at bit
  simp [positive] at bit

/-- A product of true values is one or minus one. -/
def Unit (acc : BitVec w) (acc' : BitVec 1) : Prop :=
  acc' = 0#1 ∧ acc = 0#w ∨ acc' = 1#1 ∧ (acc = 1#w ∨ acc = -1#w)

theorem foldl_imul (values : List (BitVec 1)) {acc : BitVec w} {acc' : BitVec 1}
    (unit : Unit acc acc') :
    Unit ((values.map (convertBits .bool w)).foldl ReductionOp.imul.apply acc)
      (values.foldl ReductionOp.imul.apply acc') := by
  induction values generalizing acc acc' with
  | nil => exact unit
  | cons value values ih =>
    rw [List.map_cons, List.foldl_cons, List.foldl_cons]
    apply ih
    rcases BitVec.eq_zero_or_eq_one value with rfl | rfl
    · exact .inl ⟨BitVec.mul_zero, BitVec.mul_zero⟩
    · show Unit (acc * -1#w) (acc' * 1#1)
      rw [BitVec.mul_one, BitVec.mul_neg, BitVec.mul_one]
      rcases unit with ⟨zero, zero'⟩ | ⟨one, one' | minusOne⟩
      · rw [zero']
        exact .inl ⟨zero, BitVec.neg_zero _⟩
      · rw [one']
        exact .inr ⟨one, .inr rfl⟩
      · rw [minusOne, BitVec.neg_neg]
        exact .inr ⟨one, .inl rfl⟩

theorem convertBits_unit (positive : 0 < w) {acc : BitVec w} {acc' : BitVec 1}
    (unit : Unit acc acc') : convertBits .bool 1 acc = acc' := by
  rcases unit with ⟨rfl, rfl⟩ | ⟨rfl, rfl | rfl⟩
  · rfl
  · apply if_neg
    intro zero
    have large : 1 < 2 ^ w := Nat.one_lt_two_pow (by omega)
    have toNat := congrArg BitVec.toNat zero
    simp [Nat.mod_eq_of_lt large] at toNat
  · exact convertBits_ones positive

theorem reduction_exact_bool (positive : 0 < w) (notSum : op ≠ .iadd) (src : Nat → BitVec 1) :
    lowerReduction reduction group op w src = reduction.value group op src := by
  have back := convertBits_ones positive
  by_cases product : op = .imul
  · subst product
    have whole : lowerReduction reduction group .imul w src = convertBits .bool 1
        (reduction.value group .imul fun lane => convertBits .bool w (src lane)) :=
      lowerReduction_unclamped (by decide) (by decide) (if_pos rfl) src
    have values : (reduction.lanes group).map (fun lane => convertBits .bool w (src lane)) =
        ((reduction.lanes group).map src).map (convertBits .bool w) := by
      rw [List.map_map]
      rfl
    have start : Unit (ReductionOp.imul.identity w) (ReductionOp.imul.identity 1) :=
      .inr ⟨rfl, .inl rfl⟩
    rw [whole, Reduction.value, values]
    exact convertBits_unit positive (foldl_imul _ start)
  · have logical : op ≠ .iadd ∧ op ≠ .imul := ⟨notSum, product⟩
    apply lowerReduction_eq (if_pos rfl)
    · exact convertBits_apply_bool logical positive
    · intro x
      have bits : x = 0 ∨ x = 1 := by
        revert x
        decide
      rcases bits with rfl | rfl
      · rfl
      · exact back
    · rintro rfl
      rfl
    · rintro rfl
      show BitVec.ofInt w (-1) = -1#w
      rw [BitVec.ofInt_neg]
      rfl
    · intro notMin notMax
      cases op with
      | imin => exact absurd rfl notMin
      | imax => exact absurd rfl notMax
      | iadd => exact absurd rfl logical.1
      | imul => exact absurd rfl logical.2
      | iand | umin =>
        show convertBits .bool 1 (BitVec.allOnes w) = 1#1
        rw [← BitVec.neg_one_eq_allOnes, back]
      | ior | ixor | umax => rfl

theorem reduction_exact_integer (notBool : b ≠ 1) (positive : 0 < b) (narrow : b ≤ w)
    (src : Nat → BitVec b) :
    lowerReduction reduction group op w src = reduction.value group op src := by
  have integer : reductionType op = .int ∨ reductionType op = .uint := by
    cases op <;> decide
  have cut (x : BitVec w) : convertBits (reductionType op) b x = x.setWidth b := by
    rcases integer with int | uint
    · rw [int]
      exact BitVec.signExtend_eq_setWidth_of_le x narrow
    · rw [uint]
      rfl
  have back := convertBits_convertBits integer narrow
  cases low : lowBits op with
  | true =>
    have whole : lowerReduction reduction group op w src = convertBits (reductionType op) b
        (reduction.value group op fun lane => convertBits (reductionType op) w (src lane)) := by
      apply lowerReduction_unclamped _ _ (if_neg notBool)
      · rintro rfl
        cases low
      · rintro rfl
        cases low
    have values : (reduction.lanes group).map
        (fun lane => convertBits (reductionType op) w (src lane)) =
        ((reduction.lanes group).map src).map (convertBits (reductionType op) w) := by
      rw [List.map_map]
      rfl
    rw [whole, cut, Reduction.value, values, setWidth_foldl low narrow,
      setWidth_identity low narrow]
    · rfl
    · intro x
      rw [← cut, back]
  | false =>
    apply lowerReduction_eq (if_neg notBool)
    · exact convertBits_apply low narrow
    · exact back
    · rintro rfl
      show BitVec.ofInt w (intNMax b) = (BitVec.intMax b).signExtend w
      rw [intMax_eq positive]
      exact signExtend_ofInt positive narrow (signed_bounds b).2
    · rintro rfl
      show BitVec.ofInt w (intNMin b) = (BitVec.intMin b).signExtend w
      rw [intMin_eq positive]
      exact signExtend_ofInt positive narrow (signed_bounds b).1
    · intro notMin notMax
      rw [cut]
      cases op with
      | imin => exact absurd rfl notMin
      | imax => exact absurd rfl notMax
      | umin => exact setWidth_allOnes narrow
      | umax => exact BitVec.setWidth_zero _ _
      | _ => cases low

theorem reduction_exact (positive : 0 < b) (less : b < w)
    (notSum : b = 1 → op ≠ .iadd) (src : Nat → BitVec b) :
    lowerReduction reduction group op w src = reduction.value group op src := by
  by_cases bool : b = 1
  · subst bool
    exact reduction_exact_bool (Nat.lt_trans positive less) (notSum rfl) src
  · exact reduction_exact_integer bool positive (Nat.le_of_lt less) src

end Lowering

/-- Operations and reductions that are done at a wider size have their values. -/
theorem lowering_exact :
    (∀ (b w : Nat) (op : IntegerOp) (src : Nat → Def), Widens b w → Sized op b src →
      Kept op b (numbers op fun i => (src i).scalar) → Exact op b w src) ∧
    ∀ (b w : Nat) (reduction : Reduction) (group : Subgroup) (op : ReductionOp)
      (src : Nat → BitVec b), 0 < b → b < w → (b = 1 → op ≠ .iadd) →
      lowerReduction reduction group op w src = reduction.value group op src := by
  constructor
  · intro b w op src widens sized kept
    exact exact_alu sized widens kept
  · intro b w reduction group op src positive less notSum
    exact reduction_exact positive less notSum src

/-- -128 and -1 -/
def leastAndMinusOne (i : Nat) : Def := .value ⟨8, if i = 0 then 0x80#8 else 0xff#8⟩

/-- The sum of the two bytes is that of the two double-words. -/
theorem lowering_exact_leastAndMinusOne :
    lowerAluInstr .iadd 8 32 leastAndMinusOne = some ⟨8, 0x7f#8⟩ :=
  lowering_exact.1 8 32 .iadd leastAndMinusOne .byteToDword (fun _ => rfl) trivial _ rfl

/-- The quotient overflows at the size of a byte only. -/
theorem not_exact_leastAndMinusOne :
    Sized .idiv 8 leastAndMinusOne ∧ ¬ Exact .idiv 8 32 leastAndMinusOne := by
  constructor
  · exact fun _ => rfl
  · intro exact_
    have lowered : lowerAluInstr .idiv 8 32 leastAndMinusOne = some ⟨8, 0x80#8⟩ := rfl
    have same := exact_ ⟨8, 0#8⟩ rfl
    have differ : (some ⟨8, 0x80#8⟩ : Option Scalar) ≠ some ⟨8, 0#8⟩ := by decide
    exact differ (lowered.symm.trans same)

end LowerBitSize

end SpirvToDxil.Nir
