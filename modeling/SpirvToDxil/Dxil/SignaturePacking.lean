import Mathlib.Algebra.BigOperators.Group.List.Basic
import Mathlib.Data.List.Induction
import Mathlib.Data.List.Nodup
import Mathlib.Data.List.ProdSigma
import SpirvToDxil.Dxil.Signature
import SpirvToDxil.Dxil.SignatureElements

/-!
# When the elements of a signature share no cell

The routines of `dxil_signature.c` look up the row of a base variable through its driver
location. Under distinct driver locations the rows of a variable are those opened before
the first variable of its chain of base variables.
-/

namespace SpirvToDxil

/-- The cell of a register row, column and stream lies in the element. -/
structure ElementSlot.Claims (element : ElementSlot) (stream reg column : Nat) : Prop where
  stream_eq : element.stream = stream
  reg_eq : element.reg = reg
  allocated : element.reg ≠ NO_REGISTER
  column_mem : element.mask.testBit column = true

structure SignatureState.CollisionFree (state : SignatureState) (counter : Nat → Nat)
    (vars : List IoVariable) : Prop where
  apart : (state.signatures.flatMap (·.elements)).Pairwise fun element other =>
    ∀ stream reg column,
      element.Claims stream reg column → ¬ other.Claims stream reg column
  columns : ∀ signature ∈ state.signatures,
    signature.semantic.startCol + signature.semantic.cols ≤ 4
  /-- The container holds the number of vectors in a byte. -/
  rows : ∀ signature ∈ state.signatures, ∀ element ∈ signature.elements,
    ∀ stream reg column, element.Claims stream reg column →
      reg < state.numPsv (counter stream) % 2 ^ 8
  length_eq : state.signatures.length = vars.length
  mapped : ∀ (record : Nat) (var : IoVariable), vars[record]? = some var →
    state.mappings var.driverLocation = record

namespace Semantic

def Apart (semantic other : Semantic) : Prop :=
  semantic.stream ≠ other.stream ∨ semantic.startRow = -1 ∨ other.startRow = -1 ∨
    semantic.startRow + semantic.rows ≤ other.startRow ∨
    other.startRow + other.rows ≤ semantic.startRow ∨
    semantic.startCol + semantic.cols ≤ other.startCol ∨
    other.startCol + other.cols ≤ semantic.startCol

instance (semantic other : Semantic) : Decidable (semantic.Apart other) :=
  inferInstanceAs (Decidable (_ ∨ _))

theorem Apart.symm {semantic other : Semantic} (apart : semantic.Apart other) :
    other.Apart semantic := by
  rw [Apart] at apart ⊢
  omega

/-- The bounds within which nothing is truncated. -/
structure InRange (semantic : Semantic) : Prop where
  startRow_ge : -1 ≤ semantic.startRow
  endRow_lt : semantic.startRow + semantic.rows < 2 ^ 8
  rows_pos : 0 < semantic.rows
  cols_pos : 0 < semantic.cols
  rows_eq : semantic.startRow = -1 → semantic.rows = 1

theorem testBit_mask (semantic : Semantic) (fits : semantic.startCol + semantic.cols ≤ 4)
    (row column : Nat) :
    (semantic.fillSignatureElement row).mask.testBit column = true ↔
      semantic.startCol ≤ column ∧ column < semantic.startCol + semantic.cols := by
  simp only [fillSignatureElement, Nat.testBit_mod_two_pow, Nat.testBit_shiftLeft,
    Nat.testBit_two_pow_sub_one, Bool.and_eq_true, decide_eq_true_eq]
  omega

theorem claims_fillSignatureElement (semantic : Semantic) (inRange : semantic.InRange)
    (fits : semantic.startCol + semantic.cols ≤ 4) {row : Nat} (rowLt : row < semantic.rows)
    (stream reg column : Nat) :
    (semantic.fillSignatureElement row).Claims stream reg column ↔
      semantic.stream = stream ∧ semantic.startRow + row = reg ∧
        semantic.startCol ≤ column ∧ column < semantic.startCol + semantic.cols := by
  have lower : -1 ≤ semantic.startRow := inRange.startRow_ge
  have upper : semantic.startRow + semantic.rows < 2 ^ 8 := inRange.endRow_lt
  have single : semantic.startRow = -1 → semantic.rows = 1 := inRange.rows_eq
  constructor
  · rintro ⟨streamEq, regEq, allocated, columnMem⟩
    refine ⟨streamEq, ?_, (testBit_mask semantic fits row column).mp columnMem⟩
    simp only [fillSignatureElement, NO_REGISTER] at regEq allocated
    omega
  · rintro ⟨streamEq, regEq, columnMem⟩
    refine ⟨streamEq, ?_, ?_, (testBit_mask semantic fits row column).mpr columnMem⟩
    · simp only [fillSignatureElement]
      omega
    · simp only [fillSignatureElement, NO_REGISTER]
      omega

theorem pairwise_fillIoSignature (semantic : Semantic) (inRange : semantic.InRange)
    (fits : semantic.startCol + semantic.cols ≤ 4) :
    semantic.fillIoSignature.elements.Pairwise fun element other =>
      ∀ stream reg column,
        element.Claims stream reg column → ¬ other.Claims stream reg column := by
  rw [fillIoSignature, List.pairwise_map]
  refine List.Pairwise.imp_of_mem ?_ List.nodup_range
  intro row other rowMem otherMem distinct stream reg column claimed again
  rw [claims_fillSignatureElement semantic inRange fits (List.mem_range.mp rowMem)] at claimed
  rw [claims_fillSignatureElement semantic inRange fits (List.mem_range.mp otherMem)] at again
  omega

theorem apart_iff_fillIoSignature (semantic other : Semantic) (inRange : semantic.InRange)
    (otherInRange : other.InRange) (fits : semantic.startCol + semantic.cols ≤ 4)
    (otherFits : other.startCol + other.cols ≤ 4) :
    (∀ element ∈ semantic.fillIoSignature.elements,
      ∀ second ∈ other.fillIoSignature.elements, ∀ stream reg column,
        element.Claims stream reg column → ¬ second.Claims stream reg column) ↔
      semantic.Apart other := by
  simp only [fillIoSignature, List.forall_mem_map, List.mem_range]
  constructor
  · intro disjoint
    by_contra overlap
    simp only [Apart, not_or, not_not, not_le] at overlap
    obtain ⟨streamEq, allocated, otherAllocated, before, after, left, right⟩ := overlap
    have lower : -1 ≤ semantic.startRow := inRange.startRow_ge
    have otherLower : -1 ≤ other.startRow := otherInRange.startRow_ge
    -- the cell where both elements begin
    let reg := (max semantic.startRow other.startRow).toNat
    let column := max semantic.startCol other.startCol
    have rowLt : (reg - semantic.startRow).toNat < semantic.rows := by
      have := inRange.rows_pos
      omega
    have otherRowLt : (reg - other.startRow).toNat < other.rows := by
      have := otherInRange.rows_pos
      omega
    apply disjoint _ rowLt _ otherRowLt semantic.stream reg column
    · rw [claims_fillSignatureElement semantic inRange fits rowLt]
      have := inRange.cols_pos
      refine ⟨rfl, ?_, ?_, ?_⟩ <;> omega
    · rw [claims_fillSignatureElement other otherInRange otherFits otherRowLt]
      have := otherInRange.cols_pos
      refine ⟨streamEq.symm, ?_, ?_, ?_⟩ <;> omega
  · intro apart row rowLt otherRow otherRowLt stream reg column claimed again
    rw [claims_fillSignatureElement semantic inRange fits rowLt] at claimed
    rw [claims_fillSignatureElement other otherInRange otherFits otherRowLt] at again
    obtain ⟨streamEq, regEq, columnMem⟩ := claimed
    obtain ⟨otherStreamEq, otherRegEq, otherColumnMem⟩ := again
    have single : semantic.startRow = -1 → semantic.rows = 1 := inRange.rows_eq
    have otherSingle : other.startRow = -1 → other.rows = 1 := otherInRange.rows_eq
    have streams : semantic.stream = other.stream := streamEq.trans otherStreamEq.symm
    rw [Apart] at apart
    omega

end Semantic

namespace SignatureRoutine

inductive Placement where
  | unassigned
  | fixed (row : Nat)
  | counted
  deriving DecidableEq, Repr

variable (routine : SignatureRoutine)

def placement (var : IoVariable) : Placement :=
  let info := routine.semantics var
  let isGsInput :=
    routine.stage = .geometry ∧ (var.mode = .shaderIn ∨ var.mode = .systemValue)
  if info.kind = .target then .fixed info.index
  else if isDepthOutput info.kind ∨ (info.kind = .primitiveId ∧ isGsInput) ∨
      info.kind = .coverage ∨ info.kind = .sampleIndex then .unassigned
  else .counted

/-- The semantic of a variable, but for its first row. -/
def shape (var : IoVariable) : Semantic :=
  (getAdditionalSemanticInfo routine.stage var (routine.semantics var) 0 routine.clipSize).1

def isTessLevel (var : IoVariable) : Bool :=
  (routine.semantics var).kind = .tessFactor || (routine.semantics var).kind = .insideTessFactor

def declaredRows (var : IoVariable) : Nat :=
  if routine.placement var = .counted then
    if routine.isTessLevel var then (var.vertexType routine.stage).getAoaSize
    else if var.compact then 1
    else (var.vertexType routine.stage).countVec4Slots
  else 1

/-- The column of the first component of a variable. -/
def declaredColumn (var : IoVariable) : Nat :=
  if routine.placement var = .counted ∧ !routine.isTessLevel var then var.locationFrac else 0

/-- The columns that the type of a variable asks for: all four of a colour output, and one
for each element of a compact array, counted in a byte. -/
def declaredColumns (var : IoVariable) : Nat :=
  match routine.placement var with
  | .fixed _ => 4
  | .unassigned => 1
  | .counted =>
    let type := var.vertexType routine.stage
    if routine.isTessLevel var then 1
    else if var.compact then type.getAoaSize % 2 ^ 8
    else min (if type.isArray then type.getArrayElement else type).getComponentSlots 4

theorem rows_shape (var : IoVariable) :
    (routine.shape var).rows = routine.declaredRows var := by
  simp only [shape, declaredRows, placement, isTessLevel, getAdditionalSemanticInfo]
  split_ifs <;> simp_all

theorem cols_shape (var : IoVariable) :
    (routine.shape var).cols = routine.declaredColumns var := by
  simp only [shape, declaredColumns, placement, isTessLevel, getAdditionalSemanticInfo]
  split_ifs <;> simp_all

theorem startCol_shape (var : IoVariable) (unset : (routine.semantics var).startCol = 0) :
    (routine.shape var).startCol = routine.declaredColumn var := by
  simp only [shape, declaredColumn, placement, isTessLevel, getAdditionalSemanticInfo]
  split_ifs <;> simp_all

theorem stream_shape (var : IoVariable) : (routine.shape var).stream = var.stream := by
  simp only [shape, getAdditionalSemanticInfo]
  split_ifs <;> rfl

def rowsOpened (var : IoVariable) : Nat :=
  if routine.placement var = .counted then routine.declaredRows var else 0

/-- The semantic of a variable that is given its rows from `row` on. -/
def placedAt (var : IoVariable) (row : Nat) : Semantic :=
  { routine.shape var with
    startRow := match routine.placement var with
      | .unassigned => -1
      | .fixed index => index
      | .counted => row }

theorem getAdditionalSemanticInfo_eq (var : IoVariable) (nextRow : Nat) :
    getAdditionalSemanticInfo routine.stage var (routine.semantics var) nextRow
        routine.clipSize =
      (routine.placedAt var nextRow, nextRow + routine.rowsOpened var) := by
  simp only [placedAt, rowsOpened, ← rows_shape, placement, shape, getAdditionalSemanticInfo]
  split_ifs <;> first | contradiction | simp

def before (vars : List IoVariable) (var : IoVariable) : List IoVariable :=
  vars.takeWhile (· ≠ var)

theorem length_before_lt {vars : List IoVariable} {var : IoVariable} (mem : var ∈ vars) :
    (before vars var).length < vars.length := by
  rw [before]
  induction vars with
  | nil => cases mem
  | cons head rest inductionHypothesis =>
    rw [List.takeWhile_cons]
    split
    · rename_i different
      rw [List.length_cons, List.length_cons]
      have restMem : var ∈ rest := by
        rcases List.mem_cons.mp mem with rfl | restMem
        · simp at different
        · exact restMem
      exact Nat.succ_lt_succ (inductionHypothesis restMem)
    · exact Nat.succ_pos _

theorem before_append_of_mem {vars : List IoVariable} {var : IoVariable} (mem : var ∈ vars)
    (rest : List IoVariable) : before (vars ++ rest) var = before vars var := by
  rw [before, before]
  induction vars with
  | nil => cases mem
  | cons head vars inductionHypothesis =>
    rw [List.cons_append, List.takeWhile_cons, List.takeWhile_cons]
    by_cases same : head = var
    · simp [same]
    · have tailMem : var ∈ vars := (List.mem_cons.mp mem).resolve_left fun eq => same eq.symm
      simpa [same] using inductionHypothesis tailMem

theorem before_append_of_not_mem {vars : List IoVariable} {var : IoVariable}
    (notMem : var ∉ vars) (rest : List IoVariable) :
    before (vars ++ var :: rest) var = vars := by
  rw [before, List.takeWhile_append_of_pos]
  · simp
  · intro other otherMem
    simp only [ne_eq, decide_not, Bool.not_eq_eq_eq_not, Bool.not_true, decide_eq_false_iff_not]
    rintro rfl
    exact notMem otherMem

/-- The rows that the variables of a list open after those of `earlier`: a variable with a
base variable opens none. -/
def openedAfter (earlier : List IoVariable) : List IoVariable → Nat
  | [] => 0
  | var :: rest =>
    (if routine.baseVar earlier var = none then routine.rowsOpened var else 0) +
      openedAfter (earlier ++ [var]) rest

def openedRows (vars : List IoVariable) : Nat := routine.openedAfter [] vars

theorem openedAfter_append (earlier vars rest : List IoVariable) :
    routine.openedAfter earlier (vars ++ rest) =
      routine.openedAfter earlier vars + routine.openedAfter (earlier ++ vars) rest := by
  induction vars generalizing earlier with
  | nil => simp [openedAfter]
  | cons var vars inductionHypothesis =>
    simp only [List.cons_append, openedAfter, inductionHypothesis, List.append_assoc,
      List.nil_append]
    omega

theorem openedRows_append_singleton (vars : List IoVariable) (var : IoVariable) :
    routine.openedRows (vars ++ [var]) = routine.openedRows vars +
      if routine.baseVar vars var = none then routine.rowsOpened var else 0 := by
  simp [openedRows, openedAfter_append, openedAfter]

theorem openedRows_le_append (vars rest : List IoVariable) :
    routine.openedRows vars ≤ routine.openedRows (vars ++ rest) := by
  rw [openedRows, openedRows, openedAfter_append]
  exact Nat.le_add_right _ _

theorem openedRows_before_le (vars : List IoVariable) (var : IoVariable) :
    routine.openedRows (before vars var) ≤ routine.openedRows vars := by
  have prefixed : before vars var ++ vars.dropWhile (· ≠ var) = vars :=
    List.takeWhile_append_dropWhile
  calc routine.openedRows (before vars var)
      ≤ routine.openedRows (before vars var ++ vars.dropWhile (· ≠ var)) :=
        routine.openedRows_le_append _ _
    _ = routine.openedRows vars := by rw [prefixed]

/-- The rows of a variable begin where those of the first of its base variables were
opened. -/
def firstRow (earlier : List IoVariable) (var : IoVariable) : Nat :=
  match routine.baseVar earlier var with
  | none => routine.openedRows earlier
  | some base => if base ∈ earlier then firstRow (before earlier base) base else 0
termination_by earlier.length
decreasing_by exact length_before_lt ‹_›

theorem firstRow_of_opens {earlier : List IoVariable} {var : IoVariable}
    (opens : routine.baseVar earlier var = none) :
    routine.firstRow earlier var = routine.openedRows earlier := by
  rw [firstRow, opens]

theorem firstRow_of_joins {earlier : List IoVariable} {var base : IoVariable}
    (joins : routine.baseVar earlier var = some base) (mem : base ∈ earlier) :
    routine.firstRow earlier var = routine.firstRow (before earlier base) base := by
  rw [firstRow, joins]
  exact if_pos mem

theorem firstRow_le (earlier : List IoVariable) (var : IoVariable) :
    routine.firstRow earlier var ≤ routine.openedRows earlier := by
  fun_induction firstRow routine earlier var with
  | case1 earlier var opens => exact le_rfl
  | case2 earlier var base found mem inductionHypothesis =>
    exact inductionHypothesis.trans (routine.openedRows_before_le earlier base)
  | case3 earlier var base found notMem => exact Nat.zero_le _

def placed (vars : List IoVariable) (var : IoVariable) : Semantic :=
  routine.placedAt var (routine.firstRow (before vars var) var)

/-! ## The loop -/

/-- The loop over variables of which none is skipped. -/
def addAll (earlier : List IoVariable) : List IoVariable → SignatureState → SignatureState
  | [], state => state
  | var :: rest, state =>
    addAll (earlier ++ [var]) rest (routine.addVariable earlier state var)

theorem addAll_append (earlier vars rest : List IoVariable) (state : SignatureState) :
    routine.addAll earlier (vars ++ rest) state =
      routine.addAll (earlier ++ vars) rest (routine.addAll earlier vars state) := by
  induction vars generalizing earlier state with
  | nil => simp [addAll]
  | cons var vars inductionHypothesis => simp [addAll, inductionHypothesis]

structure Lawful (all : List IoVariable) : Prop where
  base_mem : ∀ {earlier var base}, routine.baseVar earlier var = some base → base ∈ earlier
  base_counted : ∀ {earlier var base}, var ∈ all → base ∈ all →
    routine.baseVar earlier var = some base →
    routine.placement var = .counted → routine.placement base = .counted
  fixed_lt : ∀ {var index}, routine.placement var = .fixed index → index < 8
  startCol_unset : ∀ var, (routine.semantics var).startCol = 0

structure Counts (state : SignatureState) : Prop where
  le : ∀ signature ∈ state.signatures,
    (signature.semantic.startRow + signature.semantic.rows).toNat ≤
      state.numPsv (routine.counter signature.semantic.stream)
  attained : ∀ stream, state.numPsv stream = 0 ∨ ∃ signature ∈ state.signatures,
    state.numPsv stream = (signature.semantic.startRow + signature.semantic.rows).toNat

structure Tracks (vars : List IoVariable) (state : SignatureState) : Prop where
  signatures_eq :
    state.signatures = vars.map fun var => (routine.placed vars var).fillIoSignature
  nextRow_eq : state.nextRow = routine.openedRows vars
  mapped : ∀ (record : Nat) (var : IoVariable), vars[record]? = some var →
    state.mappings var.driverLocation = record
  counts : routine.Counts state

variable {routine}

theorem placedAt_eq_of_not_counted {var : IoVariable}
    (notCounted : routine.placement var ≠ .counted) (row other : Nat) :
    routine.placedAt var row = routine.placedAt var other := by
  rw [placedAt, placedAt]
  cases place : routine.placement var with
  | unassigned => rfl
  | fixed index => rfl
  | counted => exact absurd place notCounted

theorem placed_append_of_mem {vars : List IoVariable} {var : IoVariable} (mem : var ∈ vars)
    (rest : List IoVariable) : routine.placed (vars ++ rest) var = routine.placed vars var := by
  rw [placed, placed, before_append_of_mem mem]

theorem placed_append_singleton {vars : List IoVariable} {var : IoVariable}
    (notMem : var ∉ vars) : routine.placed (vars ++ [var]) var =
      routine.placedAt var (routine.firstRow vars var) := by
  rw [placed, before_append_of_not_mem notMem]

/-- The row found through the driver location of a base variable is the base variable's. -/
theorem Tracks.baseRow {vars : List IoVariable} {state : SignatureState}
    (tracks : routine.Tracks vars state) (small : routine.openedRows vars < 2 ^ 8)
    {base : IoVariable} (mem : base ∈ vars) (counted : routine.placement base = .counted) :
    state.psvStartRow (state.mappings base.driverLocation) =
      routine.firstRow (before vars base) base := by
  obtain ⟨record, recordLt, found⟩ := List.mem_iff_getElem.mp mem
  have atRecord : vars[record]? = some base := by rw [List.getElem?_eq_getElem recordLt, found]
  have rowLe : routine.firstRow (before vars base) base ≤ routine.openedRows vars :=
    (routine.firstRow_le _ base).trans (routine.openedRows_before_le vars base)
  rw [tracks.mapped record base atRecord, SignatureState.psvStartRow, tracks.signatures_eq,
    List.getElem?_map, atRecord]
  simp only [Option.map_some, Semantic.fillIoSignature, Semantic.fillPsvSignatureElement, placed,
    placedAt, counted]
  rw [if_pos (Int.natCast_nonneg _), Int.toNat_natCast]
  exact Nat.mod_eq_of_lt (rowLe.trans_lt small)

theorem Tracks.placeVariable_eq {all vars : List IoVariable} {state : SignatureState}
    (tracks : routine.Tracks vars state) (lawful : routine.Lawful all)
    (small : routine.openedRows vars < 2 ^ 8) (included : vars ⊆ all) {var : IoVariable}
    (varMem : var ∈ all) :
    routine.placeVariable vars state var =
      (routine.placedAt var (routine.firstRow vars var),
        routine.openedRows (vars ++ [var])) := by
  rw [openedRows_append_singleton, placeVariable]
  cases found : routine.baseVar vars var with
  | none =>
    rw [routine.firstRow_of_opens found]
    simp only [getAdditionalSemanticInfo_eq, tracks.nextRow_eq, if_true]
  | some base =>
    have mem : base ∈ vars := lawful.base_mem found
    rw [routine.firstRow_of_joins found mem]
    simp only [getAdditionalSemanticInfo_eq, tracks.nextRow_eq, reduceCtorEq, if_false,
      Nat.add_zero]
    by_cases counted : routine.placement var = .counted
    · rw [tracks.baseRow small mem (lawful.base_counted varMem (included mem) found counted)]
    · rw [placedAt_eq_of_not_counted counted]

theorem Counts.addVariable {state next : SignatureState} (counts : routine.Counts state)
    (semantic : Semantic)
    (signaturesEq : next.signatures = state.signatures ++ [semantic.fillIoSignature])
    (numPsvEq : next.numPsv = Function.update state.numPsv (routine.counter semantic.stream)
      (max (state.numPsv (routine.counter semantic.stream))
        (semantic.startRow + semantic.rows).toNat)) : routine.Counts next where
  le := by
    intro signature mem
    rw [signaturesEq, List.mem_append, List.mem_singleton] at mem
    rw [numPsvEq]
    rcases mem with old | rfl
    · by_cases same :
          routine.counter signature.semantic.stream = routine.counter semantic.stream
      · rw [same, Function.update_self]
        exact le_max_of_le_left (same ▸ counts.le signature old)
      · rw [Function.update_of_ne same]
        exact counts.le signature old
    · simp only [Semantic.fillIoSignature, Function.update_self]
      exact le_max_right _ _
  attained := by
    intro stream
    rw [numPsvEq, signaturesEq]
    have kept : state.numPsv stream = 0 ∨
        ∃ signature ∈ state.signatures ++ [semantic.fillIoSignature],
          state.numPsv stream =
            (signature.semantic.startRow + signature.semantic.rows).toNat := by
      rcases counts.attained stream with zero | ⟨signature, mem, eq⟩
      · exact Or.inl zero
      · exact Or.inr ⟨signature, List.mem_append_left _ mem, eq⟩
    by_cases same : stream = routine.counter semantic.stream
    · subst same
      rw [Function.update_self]
      rcases max_choice (state.numPsv (routine.counter semantic.stream))
        (semantic.startRow + semantic.rows).toNat with left | right
      · rw [left]
        exact kept
      · refine Or.inr ⟨semantic.fillIoSignature, by simp, ?_⟩
        rw [right]
        rfl
    · rw [Function.update_of_ne same]
      exact kept

theorem Tracks.addVariable {all vars : List IoVariable} {state : SignatureState}
    (tracks : routine.Tracks vars state) (lawful : routine.Lawful all)
    (small : routine.openedRows vars < 2 ^ 8) (few : vars.length < 2 ^ 8)
    (included : vars ⊆ all) {var : IoVariable} (varMem : var ∈ all)
    (fresh : ∀ other ∈ vars, other.driverLocation ≠ var.driverLocation) :
    routine.Tracks (vars ++ [var]) (routine.addVariable vars state var) := by
  have notMem : var ∉ vars := fun mem => fresh var mem rfl
  have computed := tracks.placeVariable_eq lawful small included varMem
  have lengthEq : state.signatures.length = vars.length := by
    rw [tracks.signatures_eq, List.length_map]
  refine ⟨?_, ?_, ?_, ?_⟩
  · rw [SignatureRoutine.addVariable, computed, List.map_append, List.map_singleton,
      placed_append_singleton notMem]
    simp only [tracks.signatures_eq]
    congr 1
    apply List.map_congr_left
    intro other mem
    rw [placed_append_of_mem mem]
  · rw [SignatureRoutine.addVariable, computed]
  · intro record other atRecord
    rw [SignatureRoutine.addVariable, computed]
    simp only [lengthEq, Nat.mod_eq_of_lt few]
    rw [List.getElem?_append] at atRecord
    split at atRecord
    · rw [Function.update_of_ne (fresh other (List.mem_of_getElem? atRecord))]
      exact tracks.mapped record other atRecord
    · rename_i notLt
      have last : record - vars.length = 0 := by
        by_contra positive
        rw [List.getElem?_eq_none (by simp; omega)] at atRecord
        cases atRecord
      rw [last] at atRecord
      cases atRecord
      rw [Function.update_self]
      omega
  · apply tracks.counts.addVariable (routine.placedAt var (routine.firstRow vars var))
    · rw [SignatureRoutine.addVariable, computed]
    · rw [SignatureRoutine.addVariable, computed]

theorem tracks_addAll {all vars : List IoVariable} (lawful : routine.Lawful all)
    (included : vars ⊆ all) (distinct : (vars.map (·.driverLocation)).Nodup)
    (small : routine.openedRows vars < 2 ^ 8) (few : vars.length < 2 ^ 8) :
    routine.Tracks vars (routine.addAll [] vars {}) := by
  induction vars using List.reverseRecOn with
  | nil =>
    refine ⟨rfl, rfl, ?_, ?_, ?_⟩
    · intro record var atRecord
      cases atRecord
    · intro signature mem
      cases mem
    · intro stream
      exact Or.inl rfl
  | append_singleton vars var inductionHypothesis =>
    rw [List.map_append, List.nodup_append] at distinct
    obtain ⟨distinctInit, -, apart⟩ := distinct
    have smallInit : routine.openedRows vars < 2 ^ 8 :=
      (routine.openedRows_le_append vars [var]).trans_lt small
    have fewInit : vars.length < 2 ^ 8 := by
      rw [List.length_append] at few
      omega
    rw [addAll_append]
    rw [List.append_subset, List.cons_subset] at included
    obtain ⟨includedInit, varMem, -⟩ := included
    apply (inductionHypothesis includedInit distinctInit smallInit fewInit).addVariable lawful
      smallInit fewInit includedInit varMem
    intro other mem
    exact apart _ (List.mem_map_of_mem mem) _ (by simp)

/-! ## Slots -/

variable (routine)

/-- The driver locations and the components that a variable takes up do not meet those of
another. -/
def SlotsApart (var other : IoVariable) : Prop :=
  var.driverLocation + routine.declaredRows var ≤ other.driverLocation ∨
    other.driverLocation + routine.declaredRows other ≤ var.driverLocation ∨
    var.locationFrac + routine.declaredColumns var ≤ other.locationFrac ∨
    other.locationFrac + routine.declaredColumns other ≤ var.locationFrac

instance (var other : IoVariable) : Decidable (routine.SlotsApart var other) :=
  inferInstanceAs (Decidable (_ ∨ _))

/-- Every variable has a slot of its own in 32 rows. -/
structure HasSlots (vars : List IoVariable) : Prop where
  nonempty : ∀ var ∈ vars, 0 < routine.declaredRows var ∧ 0 < routine.declaredColumns var
  within : ∀ var ∈ vars, var.driverLocation + routine.declaredRows var ≤ 32
  apart : vars.Pairwise routine.SlotsApart

/-- The semantics of the variables lie apart, each found through its driver location. -/
structure PlacedApart (vars : List IoVariable) : Prop where
  driverLocations : (vars.map (·.driverLocation)).Nodup
  fits : ∀ var ∈ vars, (routine.shape var).startCol + (routine.shape var).cols ≤ 4
  apart : vars.Pairwise fun var other =>
    (routine.placed vars var).Apart (routine.placed vars other)

/-- The first component of the slot of a variable, in each of its rows. -/
def slotCells (var : IoVariable) : List (Nat × Nat) :=
  (List.range (routine.declaredRows var)).map fun row =>
    (var.driverLocation + row, var.locationFrac)

variable {routine}

theorem HasSlots.nodup_slotCells {vars : List IoVariable} (slots : routine.HasSlots vars) :
    (vars.flatMap routine.slotCells).Nodup := by
  rw [List.nodup_flatMap]
  constructor
  · intro var mem
    apply List.Nodup.map_on _ List.nodup_range
    intro row rowMem other otherMem same
    rw [Prod.mk.injEq] at same
    omega
  · refine slots.apart.imp_of_mem ?_
    intro var other varMem otherMem apart cell cellMem otherCellMem
    simp only [slotCells, List.mem_map, List.mem_range] at cellMem otherCellMem
    obtain ⟨row, rowLt, rfl⟩ := cellMem
    obtain ⟨otherRow, otherRowLt, same⟩ := otherCellMem
    rw [Prod.mk.injEq] at same
    have wide := (slots.nonempty var varMem).2
    have otherWide := (slots.nonempty other otherMem).2
    rw [SlotsApart] at apart
    omega

/-- There are four components in each of 32 rows. -/
theorem HasSlots.sum_rows_le {vars : List IoVariable} (slots : routine.HasSlots vars) :
    (vars.map routine.declaredRows).sum ≤ 128 := by
  have covered : vars.flatMap routine.slotCells ⊆ List.range 32 ×ˢ List.range 4 := by
    intro cell cellMem
    obtain ⟨var, varMem, cellMem⟩ := List.mem_flatMap.mp cellMem
    obtain ⟨row, rowMem, rfl⟩ := List.mem_map.mp cellMem
    have within := slots.within var varMem
    rw [List.mem_range] at rowMem
    apply List.pair_mem_product.mpr
    exact ⟨List.mem_range.mpr (by omega), List.mem_range.mpr var.locationFrac_lt⟩
  have counted := slots.nodup_slotCells.length_le_of_subset covered
  rw [List.length_flatMap, List.length_product] at counted
  simpa [slotCells] using counted

theorem openedAfter_le_sum (routine : SignatureRoutine) (earlier vars : List IoVariable) :
    routine.openedAfter earlier vars ≤ (vars.map routine.declaredRows).sum := by
  induction vars generalizing earlier with
  | nil => exact le_rfl
  | cons var vars inductionHypothesis =>
    rw [openedAfter, List.map_cons, List.sum_cons]
    apply Nat.add_le_add _ (inductionHypothesis _)
    rw [rowsOpened]
    split_ifs
    · exact le_rfl
    · exact Nat.zero_le _
    · exact Nat.zero_le _

theorem HasSlots.openedRows_le {vars : List IoVariable} (slots : routine.HasSlots vars) :
    routine.openedRows vars ≤ 128 :=
  (openedAfter_le_sum routine [] vars).trans slots.sum_rows_le

theorem HasSlots.length_le {vars : List IoVariable} (slots : routine.HasSlots vars) :
    vars.length ≤ 128 := by
  have counted := List.length_le_sum_of_one_le (vars.map routine.declaredRows)
  rw [List.length_map, List.forall_mem_map] at counted
  exact (counted fun var mem => (slots.nonempty var mem).1).trans slots.sum_rows_le

theorem declaredRows_of_not_counted {var : IoVariable}
    (notCounted : routine.placement var ≠ .counted) : routine.declaredRows var = 1 :=
  if_neg notCounted

theorem HasSlots.inRange_placed {vars : List IoVariable} (slots : routine.HasSlots vars)
    (lawful : routine.Lawful vars) {var : IoVariable} (mem : var ∈ vars) :
    (routine.placed vars var).InRange := by
  have within := slots.within var mem
  obtain ⟨rowsPos, colsPos⟩ := slots.nonempty var mem
  have rowLe : routine.firstRow (before vars var) var ≤ 128 :=
    calc routine.firstRow (before vars var) var
        ≤ routine.openedRows (before vars var) := routine.firstRow_le _ var
      _ ≤ routine.openedRows vars := routine.openedRows_before_le vars var
      _ ≤ 128 := slots.openedRows_le
  cases place : routine.placement var with
  | unassigned =>
    have single : routine.declaredRows var = 1 := declaredRows_of_not_counted (by simp [place])
    constructor <;> simp only [placed, placedAt, place, rows_shape, cols_shape] <;> omega
  | fixed index =>
    have single : routine.declaredRows var = 1 := declaredRows_of_not_counted (by simp [place])
    have small := lawful.fixed_lt place
    constructor <;> simp only [placed, placedAt, place, rows_shape, cols_shape] <;> omega
  | counted =>
    constructor <;> simp only [placed, placedAt, place, rows_shape, cols_shape] <;> omega

theorem driverLocations_nodup {state : SignatureState} {counter : Nat → Nat}
    {vars : List IoVariable} (collisionFree : state.CollisionFree counter vars) :
    (vars.map (·.driverLocation)).Nodup := by
  rw [List.nodup_iff_getElem?_ne_getElem?]
  intro first second firstLt secondLt same
  rw [List.length_map] at secondLt
  rw [List.getElem?_map, List.getElem?_map, List.getElem?_eq_getElem secondLt,
    List.getElem?_eq_getElem (firstLt.trans secondLt), Option.map_some, Option.map_some,
    Option.some.injEq] at same
  have firstMapped := collisionFree.mapped first _
    (List.getElem?_eq_getElem (firstLt.trans secondLt))
  have secondMapped := collisionFree.mapped second _ (List.getElem?_eq_getElem secondLt)
  rw [same, secondMapped] at firstMapped
  omega

theorem Tracks.pairwise_claims_iff {vars : List IoVariable} {state : SignatureState}
    (tracks : routine.Tracks vars state) (lawful : routine.Lawful vars)
    (slots : routine.HasSlots vars)
    (fits : ∀ var ∈ vars, (routine.shape var).startCol + (routine.shape var).cols ≤ 4) :
    ((state.signatures.flatMap (·.elements)).Pairwise fun element other =>
      ∀ stream reg column,
        element.Claims stream reg column → ¬ other.Claims stream reg column) ↔
      vars.Pairwise fun var other =>
        (routine.placed vars var).Apart (routine.placed vars other) := by
  rw [tracks.signatures_eq, List.flatMap_map, List.pairwise_flatMap]
  constructor
  · rintro ⟨-, disjoint⟩
    refine disjoint.imp_of_mem ?_
    intro var other varMem otherMem separate
    exact (Semantic.apart_iff_fillIoSignature _ _ (slots.inRange_placed lawful varMem)
      (slots.inRange_placed lawful otherMem) (fits var varMem) (fits other otherMem)).mp separate
  · intro apart
    constructor
    · intro var varMem
      exact Semantic.pairwise_fillIoSignature _ (slots.inRange_placed lawful varMem)
        (fits var varMem)
    · refine apart.imp_of_mem ?_
      intro var other varMem otherMem separate
      exact (Semantic.apart_iff_fillIoSignature _ _ (slots.inRange_placed lawful varMem)
        (slots.inRange_placed lawful otherMem) (fits var varMem)
        (fits other otherMem)).mpr separate

/-- No number of vectors is truncated in the container. -/
theorem Tracks.numPsv_lt {vars : List IoVariable} {state : SignatureState}
    (tracks : routine.Tracks vars state) (lawful : routine.Lawful vars)
    (slots : routine.HasSlots vars) (stream : Nat) : state.numPsv stream < 2 ^ 8 := by
  rcases tracks.counts.attained stream with zero | ⟨signature, mem, attained⟩
  · rw [zero]
    exact Nat.two_pow_pos 8
  · rw [tracks.signatures_eq] at mem
    obtain ⟨var, varMem, rfl⟩ := List.mem_map.mp mem
    have endLt := (slots.inRange_placed lawful varMem).endRow_lt
    rw [attained]
    simp only [Semantic.fillIoSignature]
    omega

theorem Tracks.rows_lt {vars : List IoVariable} {state : SignatureState}
    (tracks : routine.Tracks vars state) (lawful : routine.Lawful vars)
    (slots : routine.HasSlots vars)
    (fits : ∀ var ∈ vars, (routine.shape var).startCol + (routine.shape var).cols ≤ 4) :
    ∀ signature ∈ state.signatures, ∀ element ∈ signature.elements,
      ∀ stream reg column, element.Claims stream reg column →
        reg < state.numPsv (routine.counter stream) % 2 ^ 8 := by
  intro signature mem element elementMem stream reg column claimed
  rw [Nat.mod_eq_of_lt (tracks.numPsv_lt lawful slots _)]
  have counted := tracks.counts.le signature mem
  rw [tracks.signatures_eq] at mem
  obtain ⟨var, varMem, rfl⟩ := List.mem_map.mp mem
  obtain ⟨row, rowMem, rfl⟩ := List.mem_map.mp elementMem
  rw [List.mem_range] at rowMem
  rw [Semantic.claims_fillSignatureElement _ (slots.inRange_placed lawful varMem)
    (fits var varMem) rowMem] at claimed
  obtain ⟨rfl, regEq, -⟩ := claimed
  simp only [Semantic.fillIoSignature] at counted
  omega

theorem collisionFree_addAll_iff {vars : List IoVariable} (lawful : routine.Lawful vars)
    (slots : routine.HasSlots vars) :
    (routine.addAll [] vars {}).CollisionFree routine.counter vars ↔
      routine.PlacedApart vars := by
  have opened : routine.openedRows vars < 2 ^ 8 := slots.openedRows_le.trans_lt (by decide)
  have few : vars.length < 2 ^ 8 := slots.length_le.trans_lt (by decide)
  constructor
  · intro collisionFree
    have distinct := driverLocations_nodup collisionFree
    have tracks := tracks_addAll lawful (List.Subset.refl vars) distinct opened few
    have fits : ∀ var ∈ vars,
        (routine.shape var).startCol + (routine.shape var).cols ≤ 4 := by
      intro var mem
      apply collisionFree.columns (routine.placed vars var).fillIoSignature
      rw [tracks.signatures_eq]
      exact List.mem_map_of_mem mem
    exact ⟨distinct, fits,
      (tracks.pairwise_claims_iff lawful slots fits).mp collisionFree.apart⟩
  · intro packs
    have tracks := tracks_addAll lawful (List.Subset.refl vars) packs.driverLocations opened few
    refine ⟨(tracks.pairwise_claims_iff lawful slots packs.fits).mpr packs.apart, ?_,
      tracks.rows_lt lawful slots packs.fits, ?_, tracks.mapped⟩
    · intro signature mem
      rw [tracks.signatures_eq] at mem
      obtain ⟨var, varMem, rfl⟩ := List.mem_map.mp mem
      exact packs.fits var varMem
    · rw [tracks.signatures_eq, List.length_map]

end SignatureRoutine

end SpirvToDxil
