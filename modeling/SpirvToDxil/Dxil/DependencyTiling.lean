import SpirvToDxil.Dxil.Container
import SpirvToDxil.Dxil.DependencyLayout
import SpirvToDxil.Util.Tiling

/-!
# The storage of the dependency tables

`prepare_dependency_tables` cuts one allocation into count words and tables, and
`dxil_container_add_state_validation` copies the tables out of it by the pointers and sizes
that the module keeps. The two decide for themselves whether view ids are used: the one from
the info of the shader, the other from the features that the emitted instructions set.
-/

namespace SpirvToDxil

open Tiling

namespace IoModule

variable (mod : IoModule) (usesViewId : Bool)

/-- The tables with a pointer to them, for one index of the pointer arrays. -/
def tableRanges (t : Nat) : List Range :=
  let tables := mod.prepareDependencyTables usesViewId
  (if t < mod.numOutputStreams ∨ mod.shaderKind = .hull then
    [⟨tables.viewid t, mod.viewIdTableSize usesViewId t⟩] else []) ++
    [⟨tables.io t, tables.ioSize t⟩]

def tables : List Range := (List.range mod.numTables).flatMap (mod.tableRanges usesViewId)

/-- The allocation as it is filled: the number of input components, and for each index the
number of output components with the tables behind it. -/
def storage : List Range :=
  ⟨0, 1⟩ :: (List.range mod.numTables).flatMap fun t =>
    ⟨mod.tableStart usesViewId t, 1⟩ :: mod.tableRanges usesViewId t

theorem viewIdTableSize_eq_zero {t : Nat}
    (other : ¬(t < mod.numOutputStreams ∨ mod.shaderKind = .hull)) :
    mod.viewIdTableSize usesViewId t = 0 := by
  obtain ⟨past, notHull⟩ := not_or.mp other
  have none : mod.dwordsPerInput t = 0 := by
    rw [dwordsPerInput, if_neg fun hull => notHull hull.1, if_neg past]
  rw [viewIdTableSize, none, ite_self]

theorem tiles_tables {t : Nat} (inside : t < mod.numTables) :
    Tiles (mod.tableStart usesViewId t)
      (⟨mod.tableStart usesViewId t, 1⟩ :: mod.tableRanges usesViewId t)
      (mod.tableStart usesViewId (t + 1)) := by
  obtain ⟨next, placed⟩ := exists_placed mod usesViewId
  have io := placed.io t inside
  have size : (mod.prepareDependencyTables usesViewId).ioSize t = mod.ioTableSize t :=
    congrFun placed.ioSize t
  simp only at io
  rw [tableRanges, tableStart]
  by_cases viewed : t < mod.numOutputStreams ∨ mod.shaderKind = .hull
  · have viewid := placed.viewid t inside viewed
    simp only at viewid
    rw [if_pos viewed, io, viewid, size]
    exact ⟨rfl, rfl, rfl, rfl⟩
  · have none := viewIdTableSize_eq_zero mod usesViewId viewed
    rw [if_neg viewed, io, size, none]
    exact ⟨rfl, rfl, rfl⟩

theorem tiles_storage : Tiles 0 (mod.storage usesViewId)
    (mod.prepareDependencyTables usesViewId).serializedSize := by
  obtain ⟨next, placed⟩ := exists_placed mod usesViewId
  have upTo : ∀ n ≤ mod.numTables, Tiles 1 ((List.range n).flatMap fun t =>
      ⟨mod.tableStart usesViewId t, 1⟩ :: mod.tableRanges usesViewId t)
      (mod.tableStart usesViewId n) := by
    intro n bound
    induction n with
    | zero => exact rfl
    | succ n inductionHypothesis =>
        rw [List.range_succ, List.flatMap_append, List.flatMap_singleton]
        exact (inductionHypothesis (Nat.le_of_succ_le bound)).append
          (mod.tiles_tables usesViewId bound)
  have size := placed.serializedSize
  simp only at size
  rw [size]
  exact ⟨rfl, upTo _ (Nat.le_refl _)⟩

theorem tables_sublist : (mod.tables usesViewId).Sublist (mod.storage usesViewId) := by
  apply List.Sublist.cons
  rw [tables]
  induction List.range mod.numTables with
  | nil => exact List.Sublist.slnil
  | cons t rest inductionHypothesis =>
      rw [List.flatMap_cons, List.flatMap_cons]
      exact (List.sublist_cons_self _ _).append inductionHypothesis

theorem lt_numTables_of_io {t : Nat} (words : mod.ioTableSize t ≠ 0) : t < mod.numTables := by
  rw [numTables]
  by_cases patch : mod.hasPatchTables
  · rw [if_pos patch]
    have one : mod.numOutputStreams = 1 := by
      rw [numOutputStreams, if_neg]
      intro geometry
      simp [hasPatchTables, geometry] at patch
    rw [ioTableSize, one] at words
    split_ifs at words <;> omega
  · rw [if_neg patch]
    have kinds : mod.shaderKind ≠ .hull ∧ mod.shaderKind ≠ .domain := by
      simpa [hasPatchTables, not_or] using patch
    rw [ioTableSize, if_neg fun hull => kinds.1 hull.1, if_neg fun domain => kinds.2 domain.1]
      at words
    by_contra past
    exact words (if_neg past)

theorem lt_numTables_of_viewId {t : Nat} (words : mod.dwordsPerInput t ≠ 0) :
    t < mod.numTables ∧ (t < mod.numOutputStreams ∨ mod.shaderKind = .hull) := by
  rw [dwordsPerInput] at words
  by_cases hull : mod.shaderKind = .hull ∧ t = 1
  · refine ⟨?_, .inr hull.1⟩
    have patch : mod.hasPatchTables := by simp [hasPatchTables, hull.1]
    rw [numTables, if_pos patch, hull.2]
    decide
  · rw [if_neg hull] at words
    have inside : t < mod.numOutputStreams := by
      by_contra past
      exact words (if_neg past)
    refine ⟨?_, .inl inside⟩
    rw [numTables]
    split
    · next patch =>
        have one : mod.numOutputStreams ≤ 1 := by
          rw [numOutputStreams, if_neg]
          intro geometry
          simp [hasPatchTables, geometry] at patch
        omega
    · exact inside

end IoModule

/-! ## The state validation part -/

def DependencyTables.words (tables : DependencyTables) (start length : Nat) : List UInt32 :=
  (List.range length).map fun k => UInt32.ofBitVec (tables.memory (start + k))

namespace PsvModule

def withTables (m : PsvModule) (mod : IoModule) (tables : DependencyTables) : PsvModule :=
  { m with
    isGeometryShader := mod.shaderKind = .geometry
    numPsvInputs := mod.numPsvInputs
    numPsvOutputs := (List.range 4).map mod.numPsvOutputs
    dependencyTableDwordsPerInput := (List.range 4).map tables.dwordsPerInput
    ioDependencyTableSize := (List.range 4).map tables.ioSize
    viewidDependencyTable := (List.range 4).map fun i =>
      tables.words (tables.viewid i) (tables.dwordsPerInput i)
    ioDependencyTable := (List.range 4).map fun i => tables.words (tables.io i) (tables.ioSize i)
    outputStreams := by simp
    viewidSizes := by simp [DependencyTables.words]
    ioSizes := by simp [DependencyTables.words] }

/-- What is written for the tables of view ids, one entry for each stream. -/
def viewidWrites (m : PsvModule) (state : ValidationState) : List (List UInt8) :=
  if state.state.usesViewId ≠ 0 then
    tableWrites (m.tablesWritten m.viewidDependencyTable) m.dependencyTableDwordsPerInput
  else []

def ioWrites (m : PsvModule) : List (List UInt8) :=
  tableWrites (m.tablesWritten m.ioDependencyTable) m.ioDependencyTableSize

theorem suffix_validationWrites (m : PsvModule) (state : ValidationState) :
    m.viewidWrites state ++ m.ioWrites <:+ m.validationWrites state := by
  rw [validationWrites, List.append_assoc]
  exact List.suffix_append ..

theorem map_length_tableWrites {tables : List (List UInt32)} {sizes : List Nat}
    (lengths : tables.map List.length = sizes) :
    (tableWrites tables sizes).map List.length = sizes.map (4 * ·) := by
  subst lengths
  induction tables with
  | nil => rfl
  | cons table tables inductionHypothesis =>
      simp only [tableWrites] at inductionHypothesis
      simp [tableWrites, inductionHypothesis, Nat.mul_comm]

theorem length_getD (writes : List (List UInt8)) (i : Nat) :
    (writes.getD i []).length = (writes.map List.length).getD i 0 := by
  rw [List.getD_eq_getElem?_getD, List.getD_eq_getElem?_getD, List.getElem?_map]
  cases writes[i]? <;> rfl

end PsvModule

section Writes

variable (mod : IoModule) (usesViewId : Bool) (m : PsvModule) (state : ValidationState)

/-- The words that the part reads of the allocation. Clearing the tables of earlier streams
stays within them. -/
def validationReads (tables : DependencyTables) (psvUsesViewId : Prop) [Decidable psvUsesViewId] :
    List Range :=
  (if psvUsesViewId then (List.range 4).map fun i => ⟨tables.viewid i, tables.dwordsPerInput i⟩
    else []) ++
    (List.range 4).map fun i => ⟨tables.io i, tables.ioSize i⟩

theorem prepareDependencyTables_dwordsPerInput :
    (mod.prepareDependencyTables usesViewId).dwordsPerInput = mod.dwordsPerInput := by
  obtain ⟨_, placed⟩ := IoModule.exists_placed mod usesViewId
  exact placed.dwordsPerInput

theorem prepareDependencyTables_ioSize :
    (mod.prepareDependencyTables usesViewId).ioSize = mod.ioTableSize := by
  obtain ⟨_, placed⟩ := IoModule.exists_placed mod usesViewId
  exact placed.ioSize

theorem length_viewidWrites {i : Nat} (stream : i < 4) :
    (((m.withTables mod (mod.prepareDependencyTables usesViewId)).viewidWrites state).getD i
      []).length = if state.state.usesViewId ≠ 0 then 4 * mod.dwordsPerInput i else 0 := by
  rw [PsvModule.length_getD, PsvModule.viewidWrites]
  split
  · rw [PsvModule.map_length_tableWrites
      ((PsvModule.tablesWritten_lengths _ _).trans (PsvModule.viewidSizes _))]
    simp [PsvModule.withTables, prepareDependencyTables_dwordsPerInput, stream]
  · rfl

theorem length_ioWrites {i : Nat} (stream : i < 4) :
    ((m.withTables mod (mod.prepareDependencyTables usesViewId)).ioWrites.getD i []).length =
      4 * mod.ioTableSize i := by
  rw [PsvModule.length_getD, PsvModule.ioWrites, PsvModule.map_length_tableWrites
    ((PsvModule.tablesWritten_lengths _ _).trans (PsvModule.ioSizes _))]
  simp [PsvModule.withTables, prepareDependencyTables_ioSize, stream]

/-- A table of view ids is written as it was laid out when the two decisions agree. -/
theorem viewidWrites_iff : (∀ i < 4,
    (((m.withTables mod (mod.prepareDependencyTables usesViewId)).viewidWrites state).getD i
      []).length = 4 * mod.viewIdTableSize usesViewId i) ↔
      (usesViewId = true ↔ state.state.usesViewId ≠ 0) ∨ ∀ i < 4, mod.dwordsPerInput i = 0 := by
  constructor
  · intro written
    by_contra disagree
    obtain ⟨different, words⟩ := not_or.mp disagree
    apply words
    intro i stream
    have size := written i stream
    rw [length_viewidWrites mod usesViewId m state stream, IoModule.viewIdTableSize] at size
    by_cases uses : usesViewId = true
    · have unused : ¬state.state.usesViewId ≠ 0 := fun used => different (iff_of_true uses used)
      rw [if_neg unused, if_pos ⟨uses, stream⟩] at size
      omega
    · have used : state.state.usesViewId ≠ 0 := by
        intro unused
        exact different (iff_of_false uses (not_not.mpr unused))
      rw [if_pos used, if_neg fun both => uses both.1] at size
      omega
  · intro agree i stream
    rw [length_viewidWrites mod usesViewId m state stream, IoModule.viewIdTableSize]
    rcases agree with same | none
    · by_cases uses : usesViewId = true
      · rw [if_pos (same.mp uses), if_pos ⟨uses, stream⟩]
      · rw [if_neg fun used => uses (same.mpr used), if_neg fun both => uses both.1]
    · rw [none i stream, ite_self, ite_self]

theorem mem_tables_of_read {psvUsesViewId : Prop} [Decidable psvUsesViewId]
    (placed : psvUsesViewId → usesViewId = true) {range : Range}
    (read : range ∈ validationReads (mod.prepareDependencyTables usesViewId) psvUsesViewId)
    {address : Nat} (inside : address ∈ range) : range ∈ mod.tables usesViewId := by
  have nonempty : range.length ≠ 0 := by
    rw [mem_iff] at inside
    omega
  rw [validationReads, List.mem_append] at read
  rw [IoModule.tables, List.mem_flatMap]
  cases read with
  | inl viewid =>
      split at viewid
      · next used =>
          obtain ⟨i, stream, rfl⟩ := List.mem_map.mp viewid
          rw [prepareDependencyTables_dwordsPerInput] at nonempty ⊢
          obtain ⟨index, viewed⟩ := mod.lt_numTables_of_viewId nonempty
          refine ⟨i, List.mem_range.mpr index, ?_⟩
          rw [IoModule.tableRanges, if_pos viewed, IoModule.viewIdTableSize,
            if_pos ⟨placed used, List.mem_range.mp stream⟩]
          exact List.mem_append_left _ List.mem_cons_self
      · exact absurd viewid List.not_mem_nil
  | inr io =>
      obtain ⟨i, _, rfl⟩ := List.mem_map.mp io
      rw [prepareDependencyTables_ioSize] at nonempty
      refine ⟨i, List.mem_range.mpr (mod.lt_numTables_of_io nonempty), ?_⟩
      exact List.mem_append_right _ List.mem_cons_self

end Writes

/-- The tables of a shader are disjoint and inside the allocation, and with the count words
they tile it. The state validation part ends with the tables: each table of inputs by its size,
and each table of view ids by its size exactly when the feature agrees with the info of the
shader or there is nothing to write. It reads only tables unless the feature is set without the
info. -/
theorem dependencyTables_tile (mod : IoModule) (usesViewId : Bool) (m : PsvModule)
    (state : ValidationState) :
    (mod.tables usesViewId).Pairwise Disjoint ∧
    (∀ table ∈ mod.tables usesViewId, ∀ address ∈ table,
      address < (mod.prepareDependencyTables usesViewId).serializedSize) ∧
    (∀ address, (∃ range ∈ mod.storage usesViewId, address ∈ range) ↔
      address < (mod.prepareDependencyTables usesViewId).serializedSize) ∧
    (mod.storage usesViewId).Pairwise Disjoint ∧
    (m.withTables mod (mod.prepareDependencyTables usesViewId)).viewidWrites state ++
      (m.withTables mod (mod.prepareDependencyTables usesViewId)).ioWrites <:+
      (m.withTables mod (mod.prepareDependencyTables usesViewId)).validationWrites state ∧
    (∀ i < 4,
      ((m.withTables mod (mod.prepareDependencyTables usesViewId)).ioWrites.getD i []).length =
        4 * (mod.prepareDependencyTables usesViewId).ioSize i) ∧
    ((∀ i < 4,
      (((m.withTables mod (mod.prepareDependencyTables usesViewId)).viewidWrites state).getD i
        []).length = 4 * mod.viewIdTableSize usesViewId i) ↔
        (usesViewId = true ↔ state.state.usesViewId ≠ 0) ∨ ∀ i < 4, mod.dwordsPerInput i = 0) ∧
    ((state.state.usesViewId ≠ 0 → usesViewId = true) →
      ∀ range ∈ validationReads (mod.prepareDependencyTables usesViewId)
        (state.state.usesViewId ≠ 0), ∀ address ∈ range,
        address < (mod.prepareDependencyTables usesViewId).serializedSize) := by
  have tiles := mod.tiles_storage usesViewId
  have sublist := mod.tables_sublist usesViewId
  have bounded : ∀ table ∈ mod.tables usesViewId, ∀ address ∈ table,
      address < (mod.prepareDependencyTables usesViewId).serializedSize :=
    fun table member address inside =>
      ((tiles.exists_mem_iff address).mp ⟨table, sublist.subset member, inside⟩).2
  refine ⟨tiles.pairwise_disjoint.sublist sublist, bounded, ?_, tiles.pairwise_disjoint,
    PsvModule.suffix_validationWrites _ state, ?_, viewidWrites_iff mod usesViewId m state, ?_⟩
  · intro address
    rw [tiles.exists_mem_iff address]
    exact and_iff_right (Nat.zero_le address)
  · intro i stream
    rw [length_ioWrites mod usesViewId m stream, prepareDependencyTables_ioSize]
  · intro placed range read address inside
    exact bounded range (mem_tables_of_read mod usesViewId placed read inside) address inside

/-- The allocation of a vertex shader with one vector in and one out that reads a view id. -/
def viewedVertex : IoModule where
  shaderKind := .vertex
  numPsvInputs := 1
  numPsvOutputs := fun i => if i = 0 then 1 else 0

/-- The state validation part of a shader without resources whose feature for view ids is not
set, and what else goes into it. -/
def unviewedState : ValidationState where
  state := {
    stageData := List.replicate 16 0
    minExpectedWaveLaneCount := 0
    maxExpectedWaveLaneCount := 0xffffffff
    shaderStage := 1
    usesViewId := 0
    maxVertexCount := 0
    sigInputElements := 0
    sigOutputElements := 0
    sigPatchConstOrPrimElements := 0
    sigInputVectors := 0
    sigOutputVectors := [0, 0, 0, 0]
    numThreadsX := 0
    numThreadsY := 0
    numThreadsZ := 0
    entryFunctionName := 0
    stageDataSize := List.length_replicate
    outputStreams := by decide }
  resources := []

def unviewedPart : PsvModule where
  isGeometryShader := false
  minorValidator := 7
  semStringTable := [0]
  semIndexTable := [0]
  psvInputs := []
  psvOutputs := []
  psvPatchConsts := []
  numPsvInputs := 0
  numPsvOutputs := [0, 0, 0, 0]
  dependencyTableDwordsPerInput := [0, 0, 0, 0]
  ioDependencyTableSize := [0, 0, 0, 0]
  viewidDependencyTable := [[], [], [], []]
  ioDependencyTable := [[], [], [], []]
  outputStreams := rfl
  viewidSizes := rfl
  ioSizes := rfl

/-- The number of input components is in front of the tables, and a view id that is read in no
emitted instruction leaves a table that is not written. -/
theorem tables_not_cover :
    (¬∀ (mod : IoModule) (usesViewId : Bool) (address : Nat),
      address < (mod.prepareDependencyTables usesViewId).serializedSize →
      ∃ table ∈ mod.tables usesViewId, address ∈ table) ∧
    ¬∀ (mod : IoModule) (usesViewId : Bool) (m : PsvModule) (state : ValidationState), ∀ i < 4,
      (((m.withTables mod (mod.prepareDependencyTables usesViewId)).viewidWrites state).getD i
        []).length = 4 * mod.viewIdTableSize usesViewId i := by
  constructor
  · intro cover
    have first := cover viewedVertex true 0 (by decide)
    revert first
    decide
  · intro written
    have agree := (viewidWrites_iff viewedVertex true unviewedPart unviewedState).mp
      (written viewedVertex true unviewedPart unviewedState)
    revert agree
    decide

end SpirvToDxil
