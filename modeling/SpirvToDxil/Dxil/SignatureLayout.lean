import Mathlib.Data.List.Pairwise
import SpirvToDxil.Dxil.SignaturePacking

/-!
# The layout that the declarations of a signature ask for

Variables that are combined lie in the rows of the variable that opened them. Whether two
elements meet is then a matter of the components and the heights of the variables and of
the order in which rows are opened.
-/

namespace SpirvToDxil

namespace SignatureRoutine

variable (routine : SignatureRoutine)
variable (combinedWith : List IoVariable → IoVariable → Option IoVariable)

/-- The variable that opened the rows in which a variable lies. -/
def opener (earlier : List IoVariable) (var : IoVariable) : IoVariable :=
  match combinedWith earlier var with
  | none => var
  | some base => if base ∈ earlier then opener (before earlier base) base else var
termination_by earlier.length
decreasing_by exact length_before_lt ‹_›

def openersAfter (earlier : List IoVariable) : List IoVariable → List IoVariable
  | [] => []
  | var :: rest =>
    if combinedWith earlier var = none ∧ routine.placement var = .counted then
      var :: openersAfter (earlier ++ [var]) rest
    else openersAfter (earlier ++ [var]) rest

/-- The variables that open rows, in their order. -/
def openers (vars : List IoVariable) : List IoVariable :=
  routine.openersAfter combinedWith [] vars

def height (vars : List IoVariable) : Nat := (vars.map routine.declaredRows).sum

def ColumnsApart (var other : IoVariable) : Prop :=
  routine.declaredColumn var + routine.declaredColumns var ≤ routine.declaredColumn other ∨
    routine.declaredColumn other + routine.declaredColumns other ≤ routine.declaredColumn var

instance (var other : IoVariable) : Decidable (routine.ColumnsApart var other) :=
  inferInstanceAs (Decidable (_ ∨ _))

/-- Declarations that can be packed. -/
structure PacksApart (vars : List IoVariable) : Prop where
  driverLocations : (vars.map (·.driverLocation)).Nodup
  narrow : ∀ var ∈ vars, routine.declaredColumn var + routine.declaredColumns var ≤ 4
  targets : ∀ var ∈ vars, ∀ other ∈ vars, var ≠ other → var.stream = other.stream →
    ∀ index, routine.placement var = .fixed index → routine.placement other ≠ .fixed index
  /-- Variables in the same rows lie side by side. -/
  combined : ∀ var ∈ vars, ∀ other ∈ vars, var ≠ other → var.stream = other.stream →
    routine.placement var = .counted → routine.placement other = .counted →
    opener combinedWith (before vars var) var = opener combinedWith (before vars other) other →
    routine.ColumnsApart var other
  /-- A variable ends before the rows of a later one in its columns are opened. -/
  overrun : ∀ var ∈ vars, ∀ other ∈ vars, var.stream = other.stream →
    routine.placement var = .counted → routine.placement other = .counted →
    ¬ routine.ColumnsApart var other → ∀ left between right,
    routine.openers combinedWith vars =
      left ++ opener combinedWith (before vars var) var :: between ++
        opener combinedWith (before vars other) other :: right →
    routine.declaredRows var ≤
      routine.height (opener combinedWith (before vars var) var :: between)
  /-- The index of a colour output is none of the rows that are opened for an output that is
  no colour. -/
  indices : ∀ var ∈ vars, ∀ other ∈ vars, var.stream = other.stream →
    routine.placement var = .counted → ∀ index, routine.placement other = .fixed index →
    ∀ left right,
    routine.openers combinedWith vars =
      left ++ opener combinedWith (before vars var) var :: right →
    index < routine.height left ∨ routine.height left + routine.declaredRows var ≤ index

/-! ## The rows of an element -/

variable {routine} {combinedWith}

theorem openersAfter_append (earlier vars rest : List IoVariable) :
    routine.openersAfter combinedWith earlier (vars ++ rest) =
      routine.openersAfter combinedWith earlier vars ++
        routine.openersAfter combinedWith (earlier ++ vars) rest := by
  induction vars generalizing earlier with
  | nil => simp [openersAfter]
  | cons var vars inductionHypothesis =>
    simp only [List.cons_append, openersAfter, inductionHypothesis, List.append_assoc,
      List.nil_append]
    split_ifs
    · rw [List.cons_append]
    · rfl

theorem openersAfter_sublist (earlier vars : List IoVariable) :
    (routine.openersAfter combinedWith earlier vars).Sublist vars := by
  induction vars generalizing earlier with
  | nil => exact List.Sublist.refl []
  | cons var vars inductionHypothesis =>
    rw [openersAfter]
    split_ifs
    · exact (inductionHypothesis _).cons_cons var
    · exact (inductionHypothesis _).cons var

theorem height_openersAfter (earlier vars : List IoVariable) :
    routine.height (routine.openersAfter routine.baseVar earlier vars) =
      routine.openedAfter earlier vars := by
  induction vars generalizing earlier with
  | nil => rfl
  | cons var vars inductionHypothesis =>
    rw [openersAfter, openedAfter, ← inductionHypothesis, rowsOpened]
    split_ifs <;> simp_all [height]

theorem exists_eq_before_append {vars : List IoVariable} {var : IoVariable} (mem : var ∈ vars) :
    ∃ rest, vars = before vars var ++ var :: rest := by
  obtain ⟨earlier, rest, split, notMem⟩ := List.eq_append_cons_of_mem mem
  refine ⟨rest, ?_⟩
  conv_lhs => rw [split]
  rw [split, before_append_of_not_mem notMem]

/-- The rows of an element begin where those before its opener end. -/
theorem exists_openers_eq {all : List IoVariable} (lawful : routine.Lawful all)
    {earlier rest : List IoVariable} {var : IoVariable} (split : all = earlier ++ var :: rest)
    (counted : routine.placement var = .counted) :
    ∃ left right, routine.openers routine.baseVar all =
        left ++ opener routine.baseVar earlier var :: right ∧
      routine.height left = routine.firstRow earlier var := by
  fun_induction firstRow routine earlier var generalizing rest with
  | case1 earlier var opens =>
    refine ⟨routine.openersAfter routine.baseVar [] earlier,
      routine.openersAfter routine.baseVar (earlier ++ [var]) rest, ?_, ?_⟩
    · rw [openers, split, openersAfter_append, List.nil_append, openersAfter,
        if_pos ⟨opens, counted⟩, opener, opens]
    · exact height_openersAfter [] earlier
  | case2 earlier var base found mem inductionHypothesis =>
    obtain ⟨between, beforeBase⟩ := exists_eq_before_append mem
    have varMem : var ∈ all := by simp [split]
    have baseMem : base ∈ all := by simp [split, mem]
    have baseSplit : all = before earlier base ++ base :: (between ++ var :: rest) := by
      rw [split, ← List.cons_append, ← List.append_assoc, ← beforeBase]
    rw [opener, found]
    simp only [if_pos mem]
    exact inductionHypothesis baseSplit (lawful.base_counted varMem baseMem found counted)
  | case3 earlier var base found notMem => exact absurd (lawful.base_mem found) notMem

theorem exists_between {α : Type} {left right left' right' : List α} {a b : α}
    (distinct : a ≠ b) (same : left ++ a :: right = left' ++ b :: right') :
    (∃ between, left' = left ++ a :: between) ∨ ∃ between, left = left' ++ b :: between := by
  rcases List.append_eq_append_iff.mp same with ⟨middle, leftEq, tailEq⟩ | ⟨middle, leftEq, tailEq⟩
  · cases middle with
    | nil => exact absurd (List.cons.inj tailEq).1 distinct
    | cons head between =>
      obtain ⟨rfl, -⟩ := List.cons.inj tailEq
      exact Or.inl ⟨between, leftEq⟩
  · cases middle with
    | nil => exact absurd (List.cons.inj tailEq).1.symm distinct
    | cons head between =>
      obtain ⟨rfl, -⟩ := List.cons.inj tailEq
      exact Or.inr ⟨between, leftEq⟩

section Placed

variable {vars : List IoVariable}

theorem nodup_openers (distinct : vars.Nodup) :
    (routine.openers combinedWith vars).Nodup :=
  distinct.sublist (openersAfter_sublist [] vars)

theorem height_append (first second : List IoVariable) :
    routine.height (first ++ second) = routine.height first + routine.height second := by
  rw [height, List.map_append, List.sum_append, height, height]

theorem startRow_placed_of_split (lawful : routine.Lawful vars) (distinct : vars.Nodup)
    {var : IoVariable} (mem : var ∈ vars) (counted : routine.placement var = .counted)
    {left right : List IoVariable}
    (split : routine.openers routine.baseVar vars =
      left ++ opener routine.baseVar (before vars var) var :: right) :
    (routine.placed vars var).startRow = routine.height left := by
  obtain ⟨rest, varsEq⟩ := exists_eq_before_append mem
  obtain ⟨above, below, openersEq, heightEq⟩ := exists_openers_eq lawful varsEq counted
  have nodup : (above ++ opener routine.baseVar (before vars var) var :: below).Nodup :=
    openersEq ▸ nodup_openers distinct
  rw [List.nodup_middle, List.nodup_cons, List.mem_append, not_or] at nodup
  have leftEq : above = left :=
    ((List.append_cons_inj_of_notMem nodup.1.1 nodup.1.2).mp (openersEq.symm.trans split)).1
  simp only [placed, placedAt, counted, ← leftEq, heightEq]

theorem exists_split (lawful : routine.Lawful vars) {var : IoVariable} (mem : var ∈ vars)
    (counted : routine.placement var = .counted) :
    ∃ left right, routine.openers routine.baseVar vars =
      left ++ opener routine.baseVar (before vars var) var :: right := by
  obtain ⟨rest, varsEq⟩ := exists_eq_before_append mem
  obtain ⟨left, right, split, -⟩ := exists_openers_eq lawful varsEq counted
  exact ⟨left, right, split⟩

/-- Two elements meet neither on different streams nor without a register. -/
theorem apart_placed_iff (lawful : routine.Lawful vars) (var other : IoVariable) :
    (routine.placed vars var).Apart (routine.placed vars other) ↔
      var.stream ≠ other.stream ∨ (routine.placed vars var).startRow = -1 ∨
        (routine.placed vars other).startRow = -1 ∨
        (routine.placed vars var).startRow + routine.declaredRows var ≤
          (routine.placed vars other).startRow ∨
        (routine.placed vars other).startRow + routine.declaredRows other ≤
          (routine.placed vars var).startRow ∨
        routine.ColumnsApart var other := by
  have column := routine.startCol_shape var (lawful.startCol_unset var)
  have otherColumn := routine.startCol_shape other (lawful.startCol_unset other)
  simp only [Semantic.Apart, ColumnsApart, placed, placedAt, stream_shape, rows_shape, cols_shape,
    column, otherColumn]

theorem startRow_placed_of_fixed {var : IoVariable} {index : Nat}
    (fixed : routine.placement var = .fixed index) :
    (routine.placed vars var).startRow = index := by
  simp only [placed, placedAt, fixed]

theorem startRow_placed_of_unassigned {var : IoVariable}
    (unassigned : routine.placement var = .unassigned) :
    (routine.placed vars var).startRow = -1 := by
  simp only [placed, placedAt, unassigned]

theorem not_columnsApart_of_fixed {var other : IoVariable} {index : Nat}
    (otherNarrow : routine.declaredColumn other + routine.declaredColumns other ≤ 4)
    (otherPos : 0 < routine.declaredColumns other)
    (fixed : routine.placement var = .fixed index) : ¬ routine.ColumnsApart var other := by
  have column : routine.declaredColumn var = 0 := by simp [declaredColumn, fixed]
  have columns : routine.declaredColumns var = 4 := by simp [declaredColumns, fixed]
  rw [ColumnsApart]
  omega

theorem PlacedApart.packsApart (lawful : routine.Lawful vars) (slots : routine.HasSlots vars)
    (placed : routine.PlacedApart vars) : routine.PacksApart routine.baseVar vars := by
  have distinct : vars.Nodup := placed.driverLocations.of_map
  have narrow : ∀ var ∈ vars, routine.declaredColumn var + routine.declaredColumns var ≤ 4 := by
    intro var mem
    have fits := placed.fits var mem
    rwa [startCol_shape _ _ (lawful.startCol_unset var), cols_shape] at fits
  have apart : ∀ var ∈ vars, ∀ other ∈ vars, var ≠ other →
      (routine.placed vars var).Apart (routine.placed vars other) := by
    have symmetric : Std.Symm fun var other =>
        (routine.placed vars var).Apart (routine.placed vars other) :=
      ⟨fun var other separate => separate.symm⟩
    intro var mem other otherMem different
    exact placed.apart.forall mem otherMem different
  have rowsPos : ∀ var ∈ vars, 0 < routine.declaredRows var :=
    fun var mem => (slots.nonempty var mem).1
  refine ⟨placed.driverLocations, narrow, ?targets, ?combined, ?overrun, ?indices⟩
  case targets =>
    intro var mem other otherMem different sameStream index fixed otherFixed
    have separate := (apart_placed_iff lawful var other).mp (apart var mem other otherMem different)
    have meets := not_columnsApart_of_fixed (narrow other otherMem)
      (slots.nonempty other otherMem).2 fixed
    rw [startRow_placed_of_fixed fixed, startRow_placed_of_fixed otherFixed] at separate
    have := rowsPos var mem
    have := rowsPos other otherMem
    simp only [sameStream, meets, ne_eq, not_true, false_or, or_false] at separate
    omega
  case combined =>
    intro var mem other otherMem different sameStream counted otherCounted sameOpener
    have separate := (apart_placed_iff lawful var other).mp (apart var mem other otherMem different)
    obtain ⟨left, right, split⟩ := exists_split lawful mem counted
    have otherSplit := split
    rw [sameOpener] at otherSplit
    rw [startRow_placed_of_split lawful distinct mem counted split,
      startRow_placed_of_split lawful distinct otherMem otherCounted otherSplit] at separate
    have := rowsPos var mem
    have := rowsPos other otherMem
    by_contra meets
    simp only [sameStream, meets, ne_eq, not_true, false_or, or_false] at separate
    omega
  case overrun =>
    intro var mem other otherMem sameStream counted otherCounted meets left between right split
    have different : var ≠ other := by
      rintro rfl
      have nodup : (routine.openers routine.baseVar vars).Nodup := nodup_openers distinct
      rw [split, List.append_assoc, List.nodup_append] at nodup
      simp at nodup
    have separate := (apart_placed_iff lawful var other).mp (apart var mem other otherMem different)
    rw [startRow_placed_of_split lawful distinct otherMem otherCounted split] at separate
    rw [List.append_assoc, List.cons_append] at split
    rw [startRow_placed_of_split lawful distinct mem counted split, height_append] at separate
    have := rowsPos other otherMem
    simp only [sameStream, meets, ne_eq, not_true, false_or, or_false] at separate
    omega
  case indices =>
    intro var mem other otherMem sameStream counted index fixed left right split
    have different : var ≠ other := by
      rintro rfl
      rw [counted] at fixed
      cases fixed
    have separate := (apart_placed_iff lawful other var).mp
      (apart other otherMem var mem different.symm)
    have meets := not_columnsApart_of_fixed (narrow var mem) (slots.nonempty var mem).2 fixed
    have single : routine.declaredRows other = 1 := declaredRows_of_not_counted (by simp [fixed])
    rw [startRow_placed_of_split lawful distinct mem counted split,
      startRow_placed_of_fixed fixed, single] at separate
    simp only [sameStream, meets, ne_eq, not_true, false_or, or_false] at separate
    omega

/-- Elements in the rows of two openers do not meet. -/
theorem PacksApart.apart_of_counted (packs : routine.PacksApart routine.baseVar vars)
    (lawful : routine.Lawful vars) {var other : IoVariable} (mem : var ∈ vars)
    (otherMem : other ∈ vars) (different : var ≠ other)
    (counted : routine.placement var = .counted)
    (otherCounted : routine.placement other = .counted) :
    (routine.placed vars var).Apart (routine.placed vars other) := by
  have distinct : vars.Nodup := packs.driverLocations.of_map
  rw [apart_placed_iff lawful]
  by_cases sameStream : var.stream = other.stream
  swap
  · exact Or.inl sameStream
  by_cases meets : routine.ColumnsApart var other
  · simp [meets]
  obtain ⟨left, right, split⟩ := exists_split lawful mem counted
  obtain ⟨otherLeft, otherRight, otherSplit⟩ := exists_split lawful otherMem otherCounted
  rw [startRow_placed_of_split lawful distinct mem counted split,
    startRow_placed_of_split lawful distinct otherMem otherCounted otherSplit]
  by_cases sameOpener : opener routine.baseVar (before vars var) var =
      opener routine.baseVar (before vars other) other
  · exact absurd (packs.combined var mem other otherMem different sameStream counted
      otherCounted sameOpener) meets
  rcases exists_between sameOpener (split.symm.trans otherSplit) with
    ⟨between, rfl⟩ | ⟨between, rfl⟩
  · have shorter := packs.overrun var mem other otherMem sameStream counted otherCounted meets
      left between otherRight otherSplit
    rw [height_append]
    omega
  · have otherMeets : ¬ routine.ColumnsApart other var := by
      rw [ColumnsApart] at meets ⊢
      omega
    have shorter := packs.overrun other otherMem var mem sameStream.symm otherCounted counted
      otherMeets otherLeft between right split
    rw [height_append]
    omega

theorem PacksApart.apart_of_fixed (packs : routine.PacksApart routine.baseVar vars)
    (lawful : routine.Lawful vars) {var other : IoVariable} (mem : var ∈ vars)
    (otherMem : other ∈ vars) (counted : routine.placement var = .counted) {index : Nat}
    (fixed : routine.placement other = .fixed index) :
    (routine.placed vars var).Apart (routine.placed vars other) := by
  have distinct : vars.Nodup := packs.driverLocations.of_map
  obtain ⟨left, right, split⟩ := exists_split lawful mem counted
  have single : routine.declaredRows other = 1 := declaredRows_of_not_counted (by simp [fixed])
  rw [apart_placed_iff lawful, startRow_placed_of_split lawful distinct mem counted split,
    startRow_placed_of_fixed fixed]
  by_cases sameStream : var.stream = other.stream
  · have outside := packs.indices var mem other otherMem sameStream counted index fixed left right
      split
    omega
  · exact Or.inl sameStream

theorem PacksApart.placedApart (packs : routine.PacksApart routine.baseVar vars)
    (lawful : routine.Lawful vars) : routine.PlacedApart vars := by
  have distinct : vars.Nodup := packs.driverLocations.of_map
  refine ⟨packs.driverLocations, ?_, distinct.pairwise_of_forall_ne ?_⟩
  · intro var mem
    rw [startCol_shape _ _ (lawful.startCol_unset var), cols_shape]
    exact packs.narrow var mem
  · intro var mem other otherMem different
    cases place : routine.placement var with
    | unassigned =>
      rw [apart_placed_iff lawful]
      exact Or.inr (Or.inl (startRow_placed_of_unassigned place))
    | fixed index =>
      cases otherPlace : routine.placement other with
      | unassigned =>
        rw [apart_placed_iff lawful]
        exact Or.inr (Or.inr (Or.inl (startRow_placed_of_unassigned otherPlace)))
      | fixed otherIndex =>
        rw [apart_placed_iff lawful, startRow_placed_of_fixed place,
          startRow_placed_of_fixed otherPlace,
          declaredRows_of_not_counted (by simp [place] : routine.placement var ≠ .counted),
          declaredRows_of_not_counted (by simp [otherPlace] : routine.placement other ≠ .counted)]
        by_cases sameStream : var.stream = other.stream
        · have apart := packs.targets var mem other otherMem different sameStream index place
          have indices : index ≠ otherIndex := by
            rintro rfl
            exact apart otherPlace
          omega
        · exact Or.inl sameStream
      | counted => exact (packs.apart_of_fixed lawful otherMem mem otherPlace place).symm
    | counted =>
      cases otherPlace : routine.placement other with
      | unassigned =>
        rw [apart_placed_iff lawful]
        exact Or.inr (Or.inr (Or.inl (startRow_placed_of_unassigned otherPlace)))
      | fixed index => exact packs.apart_of_fixed lawful mem otherMem place otherPlace
      | counted => exact packs.apart_of_counted lawful mem otherMem different place otherPlace

/-- Elements lie apart just when their declarations can be packed. -/
theorem placedApart_iff (lawful : routine.Lawful vars) (slots : routine.HasSlots vars) :
    routine.PlacedApart vars ↔ routine.PacksApart routine.baseVar vars :=
  ⟨fun placed => placed.packsApart lawful slots, fun packs => packs.placedApart lawful⟩

end Placed

end SignatureRoutine

end SpirvToDxil
