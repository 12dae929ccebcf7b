import SpirvToDxil.Nir.LowerVarBitSize

/-!
# Soundness of variables of other bit sizes

A load gives what was stored last, or the initial value.
-/

namespace SpirvToDxil

namespace LowerVarBitSize

section Correctness

variable {n m : Nat} {srcType destType : AluType}

/-- The last value stored to each element fits what is loaded. -/
def LoadsFit (fits : Option (BitVec n) → Nat → Prop) (stored : Nat → Option (BitVec n)) :
    List (Step n) → Prop
  | [] => True
  | step :: trace =>
    match step.stored with
    | none => fits (stored step.element) step.element ∧ LoadsFit fits stored trace
    | some value => LoadsFit fits (Function.update stored step.element (some value)) trace

theorem loadsFit_true {trace : List (Step n)} {stored : Nat → Option (BitVec n)}
    {fits : Option (BitVec n) → Nat → Prop} (all : ∀ value element, fits value element) :
    LoadsFit fits stored trace := by
  induction trace generalizing stored with
  | nil => trivial
  | cons step trace ih =>
    rw [LoadsFit]
    cases step.stored with
    | none => exact ⟨all _ _, ih⟩
    | some value => exact ih

/-- No deref is one of an access before it. -/
def Unshared (derefs : List Nat) (trace : List (Step n)) : Prop :=
  ∀ step ∈ trace, ∀ deref, derefs[step.access]? = some deref → deref ∉ derefs.take step.access

/-- What an element holds that was stored to or has its initial value. -/
def Holds (initial stored memory : Nat → Option (BitVec n)) : Prop :=
  ∀ element, memory element = (stored element).or (initial element)

theorem Holds.update {initial stored memory : Nat → Option (BitVec n)}
    (holds : Holds initial stored memory) (element : Nat) (value : BitVec n) :
    Holds initial (Function.update stored element (some value))
      (Function.update memory element (some value)) := by
  intro other
  by_cases same : other = element
  · subst same
    rw [Function.update_self, Function.update_self]
    rfl
  · rw [Function.update_of_ne same, Function.update_of_ne same]
    exact holds other

/-- An access to its own deref is no reason to fail. -/
theorem unshared_cons {n : Nat} {derefs : List Nat} {step : Step n} {trace : List (Step n)}
    {deref : Nat} (found : derefs[step.access]? = some deref)
    (own : deref ∉ derefs.take step.access) :
    Unshared derefs (step :: trace) ↔ Unshared derefs trace := by
  constructor
  · exact fun unshared step inside => unshared step (List.mem_cons_of_mem _ inside)
  · rintro unshared other inside' deref found'
    rcases List.mem_cons.mp inside' with rfl | later
    · rw [found] at found'
      cases found'
      exact own
    · exact unshared other later deref found'

theorem map_update {n m : Nat} (f : BitVec n → BitVec m) (stored : Nat → Option (BitVec n))
    (element : Nat) (value : BitVec n) :
    (fun other => (Function.update stored element (some value) other).map f) =
      Function.update (fun other => (stored other).map f) element (some (f value)) := by
  funext other
  by_cases same : other = element
  · subst same
    rw [Function.update_self, Function.update_self]
    rfl
  · rw [Function.update_of_ne same, Function.update_of_ne same]

theorem runWidened_exact_iff {type : BaseType} {derefs : List Nat}
    {initial : Nat → Option (BitVec type.bitSize)} {initial' : Nat → Option (BitVec m)}
    {fits : Option (BitVec type.bitSize) → Nat → Prop}
    (fit : ∀ value element, fits value element ↔
      Refines type (value.or (initial element))
        (((value.map (nirTypeConvert · srcType destType m)).or (initial' element)).map
          (nirTypeConvert · destType srcType type.bitSize)))
    {trace : List (Step type.bitSize)} (valid : ∀ step ∈ trace, step.access < derefs.length)
    {stored memory : Nat → Option (BitVec type.bitSize)} {memory' : Nat → Option (BitVec m)}
    (holds : Holds initial stored memory)
    (holds' : Holds initial' (fun element =>
      (stored element).map (nirTypeConvert · srcType destType m)) memory') :
    (∃ results, runWidened srcType destType derefs memory' trace = some results ∧
      List.Forall₂ (Refines type) (run memory trace) results) ↔
      Unshared derefs trace ∧ LoadsFit fits stored trace := by
  induction trace generalizing stored memory memory' with
  | nil =>
    constructor
    · intro _
      refine ⟨?_, trivial⟩
      intro step inside
      cases inside
    · intro _
      exact ⟨[], rfl, .nil⟩
  | cons step trace ih =>
    have inside := valid step List.mem_cons_self
    have rest : ∀ step ∈ trace, step.access < derefs.length :=
      fun step inside => valid step (List.mem_cons_of_mem _ inside)
    have found : derefs[step.access]? = some derefs[step.access] := List.getElem?_eq_getElem inside
    rw [runWidened, found]
    dsimp only
    by_cases shared : derefs[step.access] ∈ derefs.take step.access
    · rw [if_pos shared]
      constructor
      · rintro ⟨results, impossible, -⟩
        cases impossible
      · rintro ⟨unshared, -⟩
        exact absurd shared (unshared step List.mem_cons_self _ found)
    · rw [if_neg shared]
      rw [unshared_cons found shared, LoadsFit, run]
      cases stores : step.stored with
      | none =>
        dsimp only
        have loads := ih rest holds holds'
        have here := fit (stored step.element) step.element
        rw [← holds step.element, ← holds' step.element] at here
        rw [here]
        cases result : runWidened srcType destType derefs memory' trace with
        | none =>
          rw [result] at loads
          constructor
          · rintro ⟨results, impossible, -⟩
            cases impossible
          · rintro ⟨unshared, -, later⟩
            obtain ⟨results, impossible, -⟩ := loads.mpr ⟨unshared, later⟩
            cases impossible
        | some results =>
          rw [result] at loads
          constructor
          · rintro ⟨_, ⟨⟩, refines⟩
            obtain ⟨first, others⟩ := List.forall₂_cons.mp refines
            obtain ⟨unshared, later⟩ := loads.mp ⟨results, rfl, others⟩
            exact ⟨unshared, first, later⟩
          · rintro ⟨unshared, first, later⟩
            obtain ⟨_, ⟨⟩, others⟩ := loads.mpr ⟨unshared, later⟩
            exact ⟨_, rfl, .cons first others⟩
      | some value =>
        dsimp only
        apply ih rest (holds.update step.element value)
        rw [map_update]
        exact holds'.update step.element _

def high (value : BitVec n) : BitVec 32 := (value >>> 32).setWidth 32

/-- The slots of the elements after stores that reach the first of each pair only. -/
structure SplitHolds (length : Nat) (initial' : Nat → Option (BitVec 32))
    (stored : Nat → Option (BitVec n)) (memory' : Nat → Option (BitVec 32)) : Prop where
  first : ∀ element < length,
    memory' (element * 2) = ((stored element).map high).or (initial' (element * 2))
  second : ∀ element < length, memory' (element * 2 + 1) = initial' (element * 2 + 1)

theorem SplitHolds.update {length : Nat} {initial' : Nat → Option (BitVec 32)}
    {stored : Nat → Option (BitVec n)} {memory' : Nat → Option (BitVec 32)}
    (holds : SplitHolds length initial' stored memory') (element : Nat) (value : BitVec n)
    (low : BitVec 32) :
    SplitHolds length initial' (Function.update stored element (some value))
      (Function.update (Function.update memory' (element * 2) (some low)) (element * 2)
        (some (high value))) := by
  rw [Function.update_idem]
  constructor
  · intro other inside
    by_cases same : other = element
    · subst same
      rw [Function.update_self, Function.update_self]
      rfl
    · rw [Function.update_of_ne same, Function.update_of_ne (by omega)]
      exact holds.first other inside
  · intro other inside
    rw [Function.update_of_ne (by omega)]
    exact holds.second other inside

/-- Indices of elements are not so large that they wrap. -/
theorem slots_eq {length element : Nat} (sized : length * 8 < 2 ^ 32) (inside : element < length) :
    (UInt32.ofNat element * 2).toNat = element * 2 ∧
      (UInt32.ofNat element * 2 + 1).toNat = element * 2 + 1 := by
  have first : (UInt32.ofNat element * 2).toNat = element * 2 := by
    rw [UInt32.toNat_mul, UInt32.toNat_ofNat']
    change element % 2 ^ 32 * 2 % 2 ^ 32 = _
    omega
  constructor
  · exact first
  · rw [UInt32.toNat_add, first]
    change (element * 2 + 1) % 2 ^ 32 = _
    omega

theorem runSplit_exact_iff {type : BaseType} {length : Nat} (sized : length * 8 < 2 ^ 32)
    {initial : Nat → Option (BitVec type.bitSize)} {initial' : Nat → Option (BitVec 32)}
    {fits : Option (BitVec type.bitSize) → Nat → Prop}
    (fit : ∀ value element, fits value element ↔
      Refines type (value.or (initial element)) (do
        let src1 ← (value.map high).or (initial' (element * 2))
        let src2 ← initial' (element * 2 + 1)
        some (pack src1 src2)))
    {trace : List (Step type.bitSize)} (valid : ∀ step ∈ trace, step.element < length)
    {stored memory : Nat → Option (BitVec type.bitSize)} {memory' : Nat → Option (BitVec 32)}
    (holds : Holds initial stored memory) (holds' : SplitHolds length initial' stored memory') :
    List.Forall₂ (Refines type) (run memory trace) (runSplit memory' trace) ↔
      LoadsFit fits stored trace := by
  induction trace generalizing stored memory memory' with
  | nil =>
    constructor
    · intro _
      trivial
    · intro _
      exact .nil
  | cons step trace ih =>
    have inside := valid step List.mem_cons_self
    have rest : ∀ step ∈ trace, step.element < length :=
      fun step inside => valid step (List.mem_cons_of_mem _ inside)
    obtain ⟨slot, slot2⟩ := slots_eq sized inside
    rw [LoadsFit, run, runSplit]
    dsimp only
    rw [slot, slot2]
    cases stores : step.stored with
    | none =>
      dsimp only
      have here := fit (stored step.element) step.element
      rw [← holds step.element, ← holds'.first _ inside, ← holds'.second _ inside] at here
      rw [List.forall₂_cons, here, ih rest holds holds']
    | some value =>
      dsimp only
      apply ih rest (holds.update step.element value)
      exact holds'.update step.element value _

theorem getLsbD_pack (size : n = 64) (low high : BitVec 32) {i : Nat} (inside : i < 64) :
    (pack low high : BitVec n).getLsbD i =
      if i < 32 then low.getLsbD i else high.getLsbD (i - 32) := by
  subst size
  rw [pack, BitVec.getLsbD_or, BitVec.getLsbD_shiftLeft, BitVec.getLsbD_setWidth,
    BitVec.getLsbD_setWidth]
  by_cases below : i < 32
  · simp [below, inside]
  · simp [below, inside, show i - 32 < 64 by omega, BitVec.getLsbD_of_ge low i (by omega)]

theorem getLsbD_high (value : BitVec n) {i : Nat} (inside : i < 32) :
    (high value).getLsbD i = value.getLsbD (i + 32) := by
  rw [high, BitVec.getLsbD_setWidth, BitVec.getLsbD_ushiftRight, Nat.add_comm]
  simp [inside]

theorem pack_eq_iff (size : n = 64) (low' high' : BitVec 32) (value : BitVec n) :
    pack low' high' = value ↔ low' = value.setWidth 32 ∧ high' = high value := by
  constructor
  · rintro rfl
    constructor
    · apply BitVec.eq_of_getLsbD_eq
      intro i inside
      rw [BitVec.getLsbD_setWidth, getLsbD_pack size low' high' (by omega), if_pos inside]
      simp [inside]
    · apply BitVec.eq_of_getLsbD_eq
      intro i inside
      rw [getLsbD_high _ inside, getLsbD_pack size low' high' (by omega), if_neg (by omega),
        Nat.add_sub_cancel]
  · rintro ⟨rfl, rfl⟩
    apply BitVec.eq_of_getLsbD_eq
    intro i inside
    rw [getLsbD_pack size _ _ (by omega)]
    by_cases below : i < 32
    · rw [if_pos below, BitVec.getLsbD_setWidth]
      simp [below]
    · rw [if_neg below, getLsbD_high _ (by omega), Nat.sub_add_cancel (by omega)]

end Correctness

namespace Variable

variable (var : Variable) (minBitSize maxBitSize : Nat)

/-- What was stored last to an element, or its initial value, is kept by the pass. Both halves of a
split element come from the upper half, or from the initializer. -/
def Fits (stored : Option (BitVec var.type.bitSize)) (element : Nat) : Prop :=
  if var.type.bitSize < minBitSize then
    stored = none → var.arrayLength = none → var.type = .float16 →
      ∀ constants ∈ var.constantInitializer, constants element = 0
  else if maxBitSize < var.type.bitSize then
    match stored with
    | none => var.arrayLength = none → var.constantInitializer = none
    | some value => var.arrayLength ≠ none ∧ ∃ constants, var.constantInitializer = some constants ∧
        value.setWidth 32 = high value ∧ high (constants element) = high value
  else True

theorem exists_widenedType {type : BaseType} (hmin : minBitSize = 16 ∨ minBitSize = 32)
    (small : type.bitSize < minBitSize) :
    ∃ newType, widenedType minBitSize type = some newType := by
  apply Option.isSome_iff_exists.mp
  rcases hmin with rfl | rfl
  · revert small
    cases type <;> decide
  · revert small
    cases type <;> decide

theorem fits_widened {newType : BaseType} (small : var.type.bitSize < minBitSize)
    (widens : widenedType minBitSize var.type = some newType)
    (stored : Option (BitVec var.type.bitSize)) (element : Nat) :
    var.Fits minBitSize maxBitSize stored element ↔
      Refines var.type (stored.or (var.initial element))
        (((stored.map (widen var.type newType)).or (var.widenedInitial newType element)).map
          (narrow var.type newType)) := by
  unfold Fits
  rw [if_pos small]
  cases stored with
  | some value =>
    constructor
    · rintro - _ ⟨⟩
      exact ⟨_, rfl, narrow_widen widens value⟩
    · rintro - ⟨⟩
  | none =>
    cases init : var.constantInitializer with
    | none =>
      constructor
      · rintro - value undefined
        rw [initial, init] at undefined
        cases undefined
      · rintro - - - - constants ⟨⟩
    | some constants =>
      have initially : var.initial element = some (constants element) := by
        rw [initial, init]
        rfl
      rw [initially]
      by_cases scalar : var.arrayLength = none
      · rw [widenedInitial_scalar scalar init]
        by_cases float : var.type = .float16
        · have lost := narrow_setWidth_float widens float (constants element)
          constructor
          · rintro fits _ ⟨⟩
            refine ⟨_, rfl, ?_⟩
            rw [lost, sameValue_zero_iff]
            exact fits rfl scalar float constants rfl
          · rintro refines - - - _ ⟨⟩
            obtain ⟨_, ⟨⟩, same⟩ := refines _ rfl
            rw [lost, sameValue_zero_iff] at same
            exact same
        · constructor
          · rintro - _ ⟨⟩
            exact ⟨_, rfl, .inl (narrow_setWidth widens float _).symm⟩
          · rintro - - - float'
            exact absurd float' float
      · obtain ⟨constant, initially', same⟩ := widenedInitial_array scalar widens init element
        rw [initially']
        constructor
        · rintro - _ ⟨⟩
          exact ⟨_, rfl, same⟩
        · rintro - - scalar'
          exact absurd scalar' scalar

theorem splitConstValue_scalar {var : Variable} (scalar : var.arrayLength = none) (slot : Nat) :
    var.splitConstValue slot = none := by
  rw [splitConstValue, scalar]
  rfl

theorem splitConstValue_undefined {var : Variable} (undefined : var.constantInitializer = none)
    (slot : Nat) : var.splitConstValue slot = none := by
  rw [splitConstValue, constValue, undefined]
  cases var.arrayLength <;> rfl

theorem splitConstValue_array {var : Variable} (array : var.arrayLength ≠ none)
    {constants : Nat → BitVec var.type.bitSize} (init : var.constantInitializer = some constants)
    (element : Nat) :
    var.splitConstValue (element * 2) = some ((constants element).setWidth 32) ∧
      var.splitConstValue (element * 2 + 1) = some (high (constants element)) := by
  have notNone : var.arrayLength.isNone = false := by
    cases length : var.arrayLength with
    | none => exact absurd length array
    | some length => rfl
  have fits : var.type.bitSize ≤ 64 := by cases var.type <;> decide
  have even : element * 2 % 2 = 0 := by omega
  have odd : (element * 2 + 1) % 2 ≠ 0 := by omega
  have half : element * 2 / 2 = element := by omega
  have half' : (element * 2 + 1) / 2 = element := by omega
  have small : (constants element).toNat < 2 ^ 64 :=
    Nat.lt_of_lt_of_le (constants element).isLt (Nat.pow_le_pow_right (by decide) fits)
  constructor
  · rw [splitConstValue, constValue, notNone, init, half]
    apply congrArg some
    dsimp only
    rw [if_pos even]
    apply BitVec.setWidth_setWidth_of_le
    decide
  · rw [splitConstValue, constValue, notNone, init, half']
    apply congrArg some
    dsimp only
    rw [if_neg odd]
    apply BitVec.eq_of_toNat_eq
    rw [high, BitVec.toNat_setWidth, BitVec.toNat_setWidth, BitVec.toNat_ushiftRight,
      BitVec.toNat_ushiftRight, BitVec.toNat_setWidth, Nat.mod_eq_of_lt small]

theorem fits_split (large : ¬ var.type.bitSize < minBitSize) (wide : maxBitSize < var.type.bitSize)
    (size : var.type.bitSize = 64) (stored : Option (BitVec var.type.bitSize)) (element : Nat) :
    var.Fits minBitSize maxBitSize stored element ↔
      Refines var.type (stored.or (var.initial element)) (do
        let src1 ← (stored.map high).or (var.splitConstValue (element * 2))
        let src2 ← var.splitConstValue (element * 2 + 1)
        some (pack src1 src2)) := by
  unfold Fits
  rw [if_neg large, if_pos wide]
  have exact_ (value : BitVec var.type.bitSize) (low' high' : BitVec 32) :
      SameValue var.type value (pack low' high') ↔
        low' = value.setWidth 32 ∧ high' = high value := by
    rw [← pack_eq_iff size]
    constructor
    · rintro (same | ⟨float, -⟩)
      · exact same.symm
      · rw [float] at size
        cases size
    · exact fun same => .inl same.symm
  cases stored with
  | none =>
    dsimp only [Option.map_none, Option.none_or]
    cases init : var.constantInitializer with
    | none =>
      constructor
      · rintro - value undefined
        rw [initial, init] at undefined
        cases undefined
      · rintro - -
        rfl
    | some constants =>
      have initially : var.initial element = some (constants element) := by
        rw [initial, init]
        rfl
      rw [initially]
      by_cases scalar : var.arrayLength = none
      · rw [splitConstValue_scalar scalar]
        constructor
        · intro fits
          cases fits scalar
        · intro refines
          obtain ⟨_, ⟨⟩, -⟩ := refines _ rfl
      · obtain ⟨first, second⟩ := splitConstValue_array scalar init element
        rw [first, second]
        constructor
        · rintro - _ ⟨⟩
          exact ⟨_, rfl, (exact_ _ _ _).mpr ⟨rfl, rfl⟩⟩
        · rintro - scalar'
          exact absurd scalar' scalar
  | some value =>
    dsimp only [Option.map_some, Option.some_or]
    constructor
    · rintro ⟨array, constants, init, halves, kept⟩ _ ⟨⟩
      obtain ⟨first, second⟩ := splitConstValue_array array init element
      rw [second]
      exact ⟨_, rfl, (exact_ _ _ _).mpr ⟨halves.symm, kept⟩⟩
    · intro refines
      obtain ⟨loaded, loads, same⟩ := refines value rfl
      by_cases scalar : var.arrayLength = none
      · rw [splitConstValue_scalar scalar] at loads
        cases loads
      · cases init : var.constantInitializer with
        | none =>
          rw [splitConstValue_undefined init] at loads
          cases loads
        | some constants =>
          obtain ⟨first, second⟩ := splitConstValue_array scalar init element
          rw [second] at loads
          cases loads
          obtain ⟨halves, kept⟩ := (exact_ _ _ _).mp same
          exact ⟨scalar, constants, rfl, halves.symm, kept⟩

/-- The lowered program loads the same values exactly if widened accesses do not share derefs and
each value that is loaded is kept. -/
theorem lowering_exact_iff (hmin : minBitSize = 16 ∨ minBitSize = 32)
    (hmax : maxBitSize = 32 ∨ maxBitSize = 64) (derefs : List Nat)
    (trace : List (Step var.type.bitSize)) (valid : var.Valid derefs trace) :
    var.Exact minBitSize maxBitSize derefs trace ↔
      (var.type.bitSize < minBitSize → Unshared derefs trace) ∧
        LoadsFit (var.Fits minBitSize maxBitSize) (fun _ => none) trace := by
  have holds : Holds var.initial (fun _ => none) var.initial := fun _ => rfl
  by_cases small : var.type.bitSize < minBitSize
  · obtain ⟨newType, widens⟩ := exists_widenedType minBitSize hmin small
    have lowers : var.lowered minBitSize maxBitSize = some (.widened newType) := by
      rw [lowered, if_pos small, widens]
      rfl
    have accesses : ∀ step ∈ trace, step.access < derefs.length :=
      fun step inside => (valid step inside).1
    rw [Exact, lowers]
    simp only [small, forall_const]
    apply runWidened_exact_iff _ accesses holds
    · exact fun _ => rfl
    · exact var.fits_widened minBitSize maxBitSize small widens
  · by_cases wide : maxBitSize < var.type.bitSize
    · have lowers : var.lowered minBitSize maxBitSize = some .split := by
        rw [lowered, if_neg small, if_pos wide]
      have size : var.type.bitSize = 64 := by
        revert wide
        rcases hmax with rfl | rfl <;> cases var.type <;> decide
      have elements : ∀ step ∈ trace, step.element < var.length :=
        fun step inside => (valid step inside).2
      rw [Exact, lowers]
      simp only [small, false_implies, true_and]
      apply runSplit_exact_iff var.sized _ elements holds
      · exact ⟨fun _ _ => rfl, fun _ _ => rfl⟩
      · exact var.fits_split minBitSize maxBitSize small wide size
    · have lowers : var.lowered minBitSize maxBitSize = some .unchanged := by
        rw [lowered, if_neg small, if_neg wide]
      rw [Exact, lowers]
      simp only [small, false_implies, true_and, true_iff]
      apply loadsFit_true
      intro value element
      unfold Fits
      rw [if_neg small, if_neg wide]
      trivial

/-- A byte without initializer. -/
def uint8Scalar : Variable where
  type := .uint8
  arrayLength := none
  sized := by decide
  constantInitializer := none

/-- The byte is stored and loaded through a deref each. -/
theorem lowering_exact_iff_uint8Scalar :
    uint8Scalar.Exact 16 64 [0, 1] [⟨0, 0, some 0x80#8⟩, ⟨1, 0, none⟩] ↔
      (uint8Scalar.type.bitSize < 16 →
        Unshared [0, 1] [(⟨0, 0, some 0x80#8⟩ : Step 8), ⟨1, 0, none⟩]) ∧
      LoadsFit (uint8Scalar.Fits 16 64) (fun _ => none) [⟨0, 0, some 0x80#8⟩, ⟨1, 0, none⟩] :=
  lowering_exact_iff uint8Scalar 16 64 (.inl rfl) (.inr rfl) [0, 1]
    [⟨0, 0, some 0x80#8⟩, ⟨1, 0, none⟩] (by unfold Valid; decide)

/-- An array of a single zero of 64 bits. -/
def uint64Array : Variable where
  type := .uint64
  arrayLength := some 1
  sized := by decide
  constantInitializer := some fun _ => 0

/-- The lower half is overwritten by the upper one, which keeps its initial value. -/
theorem not_exact_uint64Array :
    uint64Array.Valid [0, 1] [⟨0, 0, some 0x100000002#64⟩, ⟨1, 0, none⟩] ∧
      ¬ uint64Array.Exact 16 32 [0, 1] [⟨0, 0, some 0x100000002#64⟩, ⟨1, 0, none⟩] := by
  constructor
  · unfold Valid
    decide
  · intro exact_
    change List.Forall₂ (Refines .uint64) [some 0x100000002#64] [some 1#64] at exact_
    obtain ⟨refines, -⟩ := List.forall₂_cons.mp exact_
    obtain ⟨_, ⟨⟩, same | ⟨⟨⟩, -⟩⟩ := refines _ rfl
    have differ : 0x100000002#64 ≠ 1#64 := by decide
    exact differ same

end Variable

end LowerVarBitSize

end SpirvToDxil
