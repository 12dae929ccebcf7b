import SpirvToDxil.Dxil.SignatureElements
import SpirvToDxil.Util.RunSearch

/-!
# The table of semantic indices

Part of `dxil_signature.c`. The elements of all signatures share one table of semantic indices:
an element that takes several rows points at consecutive entries, which may be those of another
element.
-/

namespace SpirvToDxil

open RunSearch

/-- `dxil_psv_sem_index_table`: the entries in use out of the 128 that there are. -/
structure SemIndexTable where
  data : List (BitVec 32)
  size_le : data.length ≤ 128
  deriving DecidableEq, Repr

namespace SemIndexTable

def size (table : SemIndexTable) : Nat := table.data.length

/-- The inner loop from `j` on: the number of rows that agree with the entries from `i` on. The
loop has at most as many turns as there are rows left. -/
def matchRows (table : SemIndexTable) (index : BitVec 32) (numRows i : Nat) : Nat → Nat → Nat
  | 0, j => j
  | turns + 1, j =>
    if j < numRows ∧ i + j < table.size then
      if table.data[i + j]? ≠ some (index + BitVec.ofNat 32 j) then j
      else matchRows table index numRows i turns (j + 1)
    else j

/-- The outer loop from `i` on, which skips the entries that a partial match went over. -/
def findRows (table : SemIndexTable) (index : BitVec 32) (numRows : Nat) : Nat → Nat → Option Nat
  | 0, _ => none
  | turns + 1, i =>
    if i < table.size then
      let j := table.matchRows index numRows i numRows 0
      if j = numRows then some i
      else if 0 < j then findRows table index numRows turns (i + (j - 1) + 1)
      else findRows table index numRows turns (i + 1)
    else none

def rows (index : BitVec 32) (numRows : Nat) : List (BitVec 32) :=
  (List.range numRows).map (fun i => index + BitVec.ofNat 32 i)

/-- `append_semantic_index_to_table`; `none` is the failed assertion. -/
def appendSemanticIndexToTable (table : SemIndexTable) (index : BitVec 32) (numRows : Nat) :
    Option (SemIndexTable × Nat) :=
  match table.findRows index numRows table.size 0 with
  | some i => some (table, i)
  | none =>
    if fits : table.size + numRows ≤ 128 then
      some (⟨table.data ++ rows index numRows, by simpa [rows, size] using fits⟩, table.size)
    else none

@[simp] theorem length_rows (index : BitVec 32) (numRows : Nat) :
    (rows index numRows).length = numRows := by
  simp [rows]

theorem getElem?_rows {index : BitVec 32} {numRows k : Nat} (inside : k < numRows) :
    (rows index numRows)[k]? = some (index + BitVec.ofNat 32 k) := by
  simp [rows, inside]

theorem headUnique_rows (index : BitVec 32) {numRows : Nat} (few : numRows ≤ 2 ^ 32) :
    HeadUnique (rows index numRows) := by
  intro k positive inside same
  rw [length_rows] at inside
  rw [getElem?_rows inside, getElem?_rows (Nat.lt_of_le_of_lt (Nat.zero_le k) inside)] at same
  have equal : BitVec.ofNat 32 k = BitVec.ofNat 32 0 := by
    apply BitVec.add_right_inj index |>.mp
    exact Option.some.inj same
  have values := congrArg BitVec.toNat equal
  simp only [BitVec.toNat_ofNat] at values
  omega

/-- Where the inner loop ends: behind the rows that agree, and before one that does not. -/
structure Matched (table : SemIndexTable) (index : BitVec 32) (numRows i j : Nat) : Prop where
  short : j ≤ numRows
  agrees : ∀ k < j, table.data[i + k]? = (rows index numRows)[k]?
  stops : j < numRows → table.data[i + j]? ≠ (rows index numRows)[j]?

theorem matchRows_spec {table : SemIndexTable} {index : BitVec 32} {numRows i turns j : Nat}
    (enough : numRows = j + turns)
    (agrees : ∀ k < j, table.data[i + k]? = (rows index numRows)[k]?) :
    Matched table index numRows i (table.matchRows index numRows i turns j) := by
  induction turns generalizing j with
  | zero =>
      unfold matchRows
      refine ⟨by omega, agrees, ?_⟩
      intro more
      exact absurd more (by omega)
  | succ turns inductionHypothesis =>
      have more : j < numRows := by omega
      unfold matchRows
      split
      · split
        · next differs =>
          refine ⟨by omega, agrees, fun _ => ?_⟩
          rw [getElem?_rows more]
          exact differs
        · next same =>
          apply inductionHypothesis (by omega)
          intro k below
          rcases Nat.lt_succ_iff_lt_or_eq.mp below with earlier | last
          · exact agrees k earlier
          · rw [last, getElem?_rows more]
            exact not_not.mp same
      · next stopped =>
        refine ⟨by omega, agrees, fun _ => ?_⟩
        have outside : table.data.length ≤ i + j := by
          unfold size at stopped
          omega
        rw [getElem?_rows more, List.getElem?_eq_none outside]
        exact nofun

theorem Matched.skip {table : SemIndexTable} {index : BitVec 32} {numRows i j : Nat}
    (few : numRows ≤ 2 ^ 32) (matched : Matched table index numRows i j) (partly : j < numRows)
    {start : Nat} (from_i : i ≤ start) (skipped : start < i + max 1 j) :
    ¬ OccursAt (rows index numRows) table.data start := by
  rcases Nat.eq_or_lt_of_le from_i with here | behind
  · subst here
    intro occurs
    apply matched.stops partly
    apply occurs
    rwa [length_rows]
  · have inside : start = i + (start - i) := by omega
    have short : j ≤ (rows index numRows).length := by
      rw [length_rows]
      exact matched.short
    rw [inside]
    exact (headUnique_rows index few).not_occursAt_inside short matched.agrees (by omega) (by omega)

theorem findRows_spec {table : SemIndexTable} (index : BitVec 32) {numRows : Nat}
    (few : numRows ≤ 2 ^ 32) {turns i : Nat} (enough : table.size ≤ i + turns)
    (before : ∀ start < i, ¬ OccursAt (rows index numRows) table.data start) :
    match table.findRows index numRows turns i with
    | some r => OccursAt (rows index numRows) table.data r
    | none => ∀ start < table.size, ¬ OccursAt (rows index numRows) table.data start := by
  induction turns generalizing i with
  | zero =>
      intro start inside
      exact before start (by omega)
  | succ turns inductionHypothesis =>
      unfold findRows
      by_cases inside : i < table.size
      · have matched : Matched table index numRows i (table.matchRows index numRows i numRows 0) :=
          matchRows_spec (Nat.zero_add numRows).symm (fun k below =>
            absurd below (Nat.not_lt_zero k))
        rw [if_pos inside]
        generalize table.matchRows index numRows i numRows 0 = j at matched
        by_cases whole : j = numRows
        · rw [if_pos whole]
          intro k below
          rw [length_rows, ← whole] at below
          exact matched.agrees k below
        · have partly : j < numRows := Nat.lt_of_le_of_ne matched.short whole
          rw [if_neg whole]
          have next (i' : Nat) (same : i' = i + max 1 j) :
              ∀ start < i', ¬ OccursAt (rows index numRows) table.data start := by
            intro start below
            rcases Nat.lt_or_ge start i with earlier | later
            · exact before start earlier
            · exact matched.skip few partly later (by omega)
          by_cases some : 0 < j
          · rw [if_pos some]
            apply inductionHypothesis (by omega)
            exact next _ (by omega)
          · rw [if_neg some]
            apply inductionHypothesis (by omega)
            exact next _ (by omega)
      · rw [if_neg inside]
        intro start below
        exact before start (by omega)

/-- A request that fits in the table is served, and its rows are shared. -/
theorem appendSemanticIndexToTable_spec {table : SemIndexTable} (index : BitVec 32) {numRows : Nat}
    (fits : table.size + numRows ≤ 128) :
    ∃ table' r, table.appendSemanticIndexToTable index numRows = some (table', r) ∧
      Shared (rows index numRows) table.data table'.data r ∧
      table'.size ≤ table.size + numRows := by
  have search := findRows_spec index (by omega : numRows ≤ 2 ^ 32)
    (by omega : table.size ≤ 0 + table.size)
      (fun start below => absurd below (Nat.not_lt_zero start))
  unfold appendSemanticIndexToTable
  split
  · next r found =>
    rw [found] at search
    exact ⟨table, r, rfl, Shared.found search, Nat.le_add_right _ _⟩
  · next missing =>
    rw [missing] at search
    rw [dif_pos fits]
    refine ⟨_, _, rfl, Shared.appended search, ?_⟩
    simp [size]

/-- The offset leads to the rows of the request, the entries that were there stay, and there are
new ones only if the rows were nowhere in the table. -/
theorem appendSemanticIndexToTable_correct (table : SemIndexTable) (index : BitVec 32)
    (numRows : Nat) (fits : table.size + numRows ≤ 128) :
    ∃ table' r, table.appendSemanticIndexToTable index numRows = some (table', r) ∧
      (∀ k < numRows, table'.data[r + k]? = some (index + BitVec.ofNat 32 k)) ∧
      (∀ k < table.size, table'.data[k]? = table.data[k]?) ∧
      (table'.size ≠ table.size →
        ¬ ∃ start, ∀ k < numRows, table.data[start + k]? = some (index + BitVec.ofNat 32 k)) := by
  obtain ⟨table', r, appended, shared, _⟩ := appendSemanticIndexToTable_spec index fits
  refine ⟨table', r, appended, ?_, ?_, ?_⟩
  · intro k inside
    rw [← getElem?_rows inside]
    apply shared.occurs
    rwa [length_rows]
  · intro k inside
    have bounded : k < table.data.length := inside
    rw [List.getElem?_eq_getElem bounded]
    exact List.prefix_iff_getElem?.mp shared.grows k bounded
  · rintro grown ⟨start, occurs⟩
    apply shared.thrifty (fun same => grown (congrArg List.length same)) start
    intro k inside
    rw [length_rows] at inside
    rw [occurs k inside, getElem?_rows inside]

/-- A partial match is skipped, and the rows that begin right behind it are found. -/
theorem appendSemanticIndexToTable_skips :
    ∃ table' r, appendSemanticIndexToTable ⟨[4, 5, 4, 5, 6], by decide⟩ 4 3 = some (table', r) ∧
      (∀ k < 3, table'.data[r + k]? = some (4 + BitVec.ofNat 32 k)) ∧
      (∀ k < 5, table'.data[k]? = [4, 5, 4, 5, 6][k]?) ∧
      (table'.size ≠ 5 → ¬ ∃ start, ∀ k < 3, ([4, 5, 4, 5, 6] : List (BitVec 32))[start + k]? =
        some (4 + BitVec.ofNat 32 k)) :=
  appendSemanticIndexToTable_correct ⟨[4, 5, 4, 5, 6], by decide⟩ 4 3 (by decide)

end SemIndexTable

/-! ## The elements of all signatures -/

/-- The semantic index that `fill_signature_element` gives to a row of an element. -/
def Semantic.rowIndex (info : Semantic) (row : Nat) : BitVec 32 :=
  BitVec.ofNat 32 (info.index + row)

namespace SemIndexTable

/-- The offsets that `fill_psv_signature_element` gives to the elements, one after the other. -/
def placeAll (table : SemIndexTable) : List Semantic → Option (SemIndexTable × List Nat)
  | [] => some (table, [])
  | info :: infos => do
    let (table, r) ← table.appendSemanticIndexToTable (BitVec.ofNat 32 info.index) info.rows
    let (table, rs) ← table.placeAll infos
    pure (table, r :: rs)

theorem placeAll_session {infos : List Semantic} {table : SemIndexTable}
    (fits : table.size + (infos.map Semantic.rows).sum ≤ 128) :
    ∃ table' rs, table.placeAll infos = some (table', rs) ∧ rs.length = infos.length ∧
      Session table.data
        ((infos.map (fun info => rows (BitVec.ofNat 32 info.index) info.rows)).zip rs)
        table'.data := by
  induction infos generalizing table with
  | nil => exact ⟨table, [], rfl, rfl, Session.nil table.data⟩
  | cons info infos inductionHypothesis =>
      rw [List.map_cons, List.sum_cons] at fits
      obtain ⟨between, r, appended, shared, bounded⟩ :=
        table.appendSemanticIndexToTable_spec (BitVec.ofNat 32 info.index)
          (by omega : table.size + info.rows ≤ 128)
      obtain ⟨table', rs, placed, length, session⟩ :=
        inductionHypothesis (by omega : between.size + (infos.map Semantic.rows).sum ≤ 128)
      refine ⟨table', r :: rs, ?_, ?_, Session.cons shared session⟩
      · simp [placeAll, appended, placed]
      · rw [List.length_cons, List.length_cons, length]

/-- Once all elements are placed, every one of them finds at its offset the semantic indices of its
rows, whatever was placed after it. -/
theorem placeAll_rows {infos : List Semantic} {table : SemIndexTable}
    (fits : table.size + (infos.map Semantic.rows).sum ≤ 128) :
    ∃ table' rs, table.placeAll infos = some (table', rs) ∧ rs.length = infos.length ∧
      ∀ entry ∈ infos.zip rs, ∀ row < entry.1.rows,
        table'.data[entry.2 + row]? = some (entry.1.rowIndex row) := by
  obtain ⟨table', rs, placed, length, session⟩ := placeAll_session fits
  refine ⟨table', rs, placed, length, ?_⟩
  rintro ⟨info, r⟩ member row inside
  have served : (rows (BitVec.ofNat 32 info.index) info.rows, r) ∈
      (infos.map (fun info => rows (BitVec.ofNat 32 info.index) info.rows)).zip rs := by
    rw [List.zip_map_left]
    exact List.mem_map.mpr ⟨(info, r), member, rfl⟩
  rw [session.occurs served row (by rwa [length_rows]), getElem?_rows inside, Semantic.rowIndex,
    BitVec.ofNat_add]

end SemIndexTable

end SpirvToDxil
