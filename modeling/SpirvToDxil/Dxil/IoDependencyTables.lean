import Mathlib.Data.List.GetD
import Mathlib.Data.Set.Basic
import SpirvToDxil.Dxil.DependencyLayout
import SpirvToDxil.Dxil.IoDependencies

/-!
# The bits of the dependency tables
-/

namespace SpirvToDxil

open Nir

/-! ## Setting bits in memory -/

abbrev Place := Nat × Nat

def Memory.Has (memory : Memory) (place : Place) : Prop :=
  (memory place.1).getLsbD place.2 = true

theorem has_bitsetSet (memory : Memory) (set bit : Nat) (place : Place) :
    (bitsetSet memory set bit).Has place ↔
      memory.Has place ∨ place = (set + bit / 32, bit % 32) := by
  rw [Memory.Has, Memory.Has, bitsetSet, Prod.ext_iff]
  by_cases own : place.1 = set + bit / 32
  · have single : (1#32 <<< (bit % 32)).getLsbD place.2 = true ↔ place.2 = bit % 32 := by
      have inside : bit % 32 < 32 := Nat.mod_lt _ (by decide)
      rw [BitVec.getLsbD_shiftLeft, BitVec.getLsbD_one]
      simp only [Bool.and_eq_true, decide_eq_true_eq, Bool.not_eq_true', decide_eq_false_iff_not]
      omega
    rw [own, Function.update_self, BitVec.getLsbD_or, Bool.or_eq_true, single]
    simp
  · rw [Function.update_of_ne own]
    simp [own]

/-- `memory'` has the bits of `memory` and those at `places`. -/
def Adds (memory memory' : Memory) (places : Set Place) : Prop :=
  ∀ place, memory'.Has place ↔ memory.Has place ∨ place ∈ places

theorem Adds.foldl {α : Type} {step : Memory × Bool → α → Memory × Bool} {places : α → Set Place}
    {items : List α}
    (adds : ∀ item ∈ items, ∀ state, Adds state.1 (step state item).1 (places item))
    (state : Memory × Bool) :
    Adds state.1 (items.foldl step state).1 {place | ∃ item ∈ items, place ∈ places item} := by
  intro place
  induction items generalizing state with
  | nil => simp
  | cons item items inductionHypothesis =>
    have later := inductionHypothesis
      (fun other member => adds other (List.mem_cons_of_mem _ member)) (step state item)
    rw [List.foldl_cons, later, adds item List.mem_cons_self state place, or_assoc]
    simp

/-! ## The bits that the analysis sets -/

section Analysis

variable (mod : IoModule) (body : CfList)

/-- An instruction that stores to an output component, with the index of its table. -/
def Stores (instr : Nir.Instr) (output : Nat × Nat) : Prop :=
  ∃ intr, instr.kind = .intrinsic intr ∧ intr.op.isLoad = false ∧
    output ∈ mod.outputBits body intr

/-- A load of input component `i` from which the worklist reaches a store of an output. -/
structure Depends (load : Nir.Instr × Intrinsic) (i : Nat) (output : Nat × Nat) : Prop where
  load_mem : load ∈ inputLoads body
  input : i ∈ mod.inputBits body load.2
  store : ∃ store, Worklist.Reaches (pushes body) load.1 store ∧ Stores mod body store output

variable {mod body}

theorem Depends.eq_zero_of_view {load : Nir.Instr × Intrinsic} {i : Nat} {output : Nat × Nat}
    (depends : Depends mod body load i output) (view : load.2.op = .loadViewIndex) : i = 0 := by
  have input := depends.input
  rw [IoModule.inputBits, if_pos view] at input
  exact List.mem_singleton.mp input

theorem mem_foreachSet {bits : List Nat} {i : Nat} : i ∈ foreachSet bits ↔ i < 128 ∧ i ∈ bits := by
  rw [foreachSet, List.mem_filter, List.mem_range, decide_eq_true_eq]

theorem adds_setOutputBits (intr : Intrinsic) (inputBits : List Nat) (tables tableSizes : Nat → Nat)
    (state : Memory × Bool) :
    Adds state.1 (setOutputBits mod body intr inputBits tables tableSizes state).1
      {place | ∃ output ∈ mod.outputBits body intr, ∃ i ∈ foreachSet inputBits,
        place = (tables output.2 + tableSizes output.2 * i + output.1 / 32, output.1 % 32)} := by
  apply Adds.foldl
  intro output _ state
  apply Adds.foldl
  intro i _ state place
  exact has_bitsetSet ..

theorem adds_visitInstr (instr : Nir.Instr) (inputBits : List Nat) (tables tableSizes : Nat → Nat)
    (state : Memory × Bool) :
    Adds state.1 (visitInstr mod body inputBits tables tableSizes state instr).1
      {place | ∃ output, Stores mod body instr output ∧ ∃ i ∈ foreachSet inputBits,
        place = (tables output.2 + tableSizes output.2 * i + output.1 / 32, output.1 % 32)} := by
  intro place
  rw [visitInstr]
  split
  · next intr isIntrinsic =>
    split
    · next isLoad =>
      simp [Stores, isIntrinsic, isLoad]
    · next isStore =>
      rw [adds_setOutputBits]
      simp [Stores, isIntrinsic, isStore]
  · next other =>
    have noStore : ∀ output, ¬ Stores mod body instr output := by
      rintro output ⟨intr, isIntrinsic, -⟩
      exact other intr isIntrinsic
    simp [noStore]

theorem load_mem_instrs {load : Nir.Instr × Intrinsic} (member : load ∈ inputLoads body) :
    load.1 ∈ body.instrs ∧ load.1.kind = .intrinsic load.2 ∧ load.2.op.isLoad = true := by
  rcases List.mem_filterMap.mp member with ⟨instr, listed, found⟩
  split at found
  · next intr isIntrinsic =>
    rw [Option.ite_none_right_eq_some, Option.some.injEq] at found
    rcases found with ⟨isLoad, rfl⟩
    exact ⟨listed, isIntrinsic, isLoad⟩
  · cases found

theorem adds_propagate {load : Nir.Instr × Intrinsic} (member : load ∈ inputLoads body)
    (tables tableSizes : Nat → Nat) (state : Memory × Bool) :
    Adds state.1
      (propagateInputToOutputDependencies mod body load.1 load.2 tables tableSizes state).1
      {place | ∃ i output, Depends mod body load i output ∧ i < 128 ∧
        place = (mod.inputTables load.2 tables output.2 +
          mod.inputTables load.2 tableSizes output.2 * i + output.1 / 32, output.1 % 32)} := by
  intro place
  rw [propagateInputToOutputDependencies]
  split
  · next noBits =>
    have nothing : ∀ i output, ¬ Depends mod body load i output := by
      intro i output depends
      have input := depends.input
      rw [noBits] at input
      cases input
    simp [nothing]
  · have inside : ∀ node ∈ body.instrs.toFinset, ∀ other ∈ pushes body node,
        other ∈ body.instrs.toFinset := by
      intro node _ other pushed
      exact List.mem_toFinset.mpr (mem_instrs_of_pushes pushed)
    rcases Worklist.run_singleton inside (visitInstr mod body (mod.inputBits body load.2)
      (mod.inputTables load.2 tables) (mod.inputTables load.2 tableSizes)) state
      (List.mem_toFinset.mpr (load_mem_instrs member).1) with ⟨order, final, reached⟩
    dsimp only
    rw [final, Adds.foldl (fun instr _ state => adds_visitInstr instr _ _ _ state) state place]
    apply or_congr_right
    constructor
    · rintro ⟨store, visited, output, stores, i, bit, rfl⟩
      rcases mem_foreachSet.mp bit with ⟨small, input⟩
      exact ⟨i, output, ⟨member, input, store, (reached store).mp visited, stores⟩, small, rfl⟩
    · rintro ⟨i, output, ⟨-, input, store, reaches, stores⟩, small, rfl⟩
      exact ⟨store, (reached store).mpr reaches, output, stores, i,
        mem_foreachSet.mpr ⟨small, input⟩, rfl⟩

end Analysis

/-! ## The bits that the tables are made for -/

namespace IoModule

variable (mod : IoModule)

/-- The table that a load and a store share; the second one for patch constants that are read. -/
def tableOf (load : Intrinsic) (t : Nat) : Nat := if mod.readsPatchConst load then t + 1 else t

/-- The width that `prepare_dependency_tables` sizes table `t` by. -/
def rowWidth (t : Nat) : Nat :=
  if mod.shaderKind = .domain ∧ t = 1 then mod.dwordsPerInput 0 else mod.dwordsPerInput t

/-- The rows of table `t`, one for each input component. -/
def rowCount (t : Nat) : Nat :=
  if mod.shaderKind = .domain ∧ t = 1 then mod.numPsvPatchConsts * 4 else mod.numPsvInputs * 4

/-- The place of an output component in the row of an input component. The tables of view ids
have a single row. -/
def expectedPlace (tables : DependencyTables) (load : Intrinsic) (i : Nat) (output : Nat × Nat) :
    Place :=
  let t := mod.tableOf load output.2
  let row :=
    if load.op = .loadViewIndex then tables.viewid output.2 else tables.io t + mod.rowWidth t * i
  (row + output.1 / 32, output.1 % 32)

end IoModule

/-- The analysis sets exactly the bits that the dependencies have in the tables. -/
structure AddressedCorrectly (mod : IoModule) (tables : DependencyTables)
    (functions : List CfList) : Prop where
  bits : ∀ place, (analyzeIoDependencies mod tables functions).1.Has place ↔
    tables.memory.Has place ∨ ∃ body ∈ functions, ∃ load i output,
      Depends mod body load i output ∧ place = mod.expectedPlace tables load.2 i output
  rows : ∀ body ∈ functions, ∀ load i output, Depends mod body load i output →
    load.2.op ≠ .loadViewIndex →
      let t := mod.tableOf load.2 output.2
      i < mod.rowCount t ∧ output.1 < 32 * mod.rowWidth t ∧
        tables.io t + mod.rowWidth t * mod.rowCount t ≤ tables.serializedSize

/-- What the passes before the analysis leave: constant rows and components inside their
variables, and the flag for view ids set where they are loaded. -/
structure ValidShader (mod : IoModule) (usesViewId : Bool) (functions : List CfList) : Prop where
  rows : ∀ body ∈ functions, ∀ instr ∈ body.instrs, ∀ intr, instr.kind = .intrinsic intr →
    ∀ row, constRow body intr = some row → intr.op ≠ .loadViewIndex →
      row < (if intr.op.isLoad then mod.inputRecord intr else mod.outputRecord intr).numElements
  components : ∀ body ∈ functions, ∀ instr ∈ body.instrs, ∀ intr,
    instr.kind = .intrinsic intr → intr.component + intr.numComponents ≤ 4
  viewIds : ∀ body ∈ functions, ∀ instr ∈ body.instrs, ∀ intr,
    instr.kind = .intrinsic intr → intr.op = .loadViewIndex → usesViewId = true

structure Fitting (mod : IoModule) (usesViewId : Bool) (functions : List CfList) : Prop extends
    ValidShader mod usesViewId functions where
  registers : IoModule.RegistersInBounds (· < mod.numOutputStreams) mod

theorem touchedComponents_bounded {record : RecordRegisters} (bound : Nat → Nat)
    {row : Option Nat} {intr : Intrinsic} {component stream : Nat}
    (bounded : ∀ element ∈ record.elements,
      element.reg = NO_REGISTER ∨ element.reg < bound element.stream)
    (rows : ∀ base, row = some base → base < record.numElements)
    (components : intr.component + intr.numComponents ≤ 4)
    (touched : (component, stream) ∈ touchedComponents record row intr) :
    component < bound stream * 4 ∧ ∃ element ∈ record.elements, element.stream = stream := by
  rcases List.mem_flatMap.mp touched with ⟨offset, inside, found⟩
  rcases List.mem_filterMap.mp found with ⟨element, visited, isTouched⟩
  rw [List.mem_range] at inside
  have listed : element ∈ record.elements := by
    have inArray : ∀ n < record.numElements, record.element n ∈ record.elements := by
      intro n small
      rw [RecordRegisters.element, List.getD_eq_getElem _ _ small]
      exact List.getElem_mem small
    cases row with
    | some base =>
      rw [visitedElements, List.mem_singleton] at visited
      exact visited ▸ inArray base (rows base rfl)
    | none =>
      rcases List.mem_map.mp visited with ⟨n, small, rfl⟩
      exact inArray n (List.mem_range.mp small)
  split at isTouched
  · cases isTouched
  · next register =>
    rw [Option.some.injEq, Prod.mk.injEq] at isTouched
    rcases isTouched with ⟨rfl, rfl⟩
    have below := (bounded element listed).resolve_left register
    exact ⟨by omega, element, listed, rfl⟩

section Bounds

variable {mod : IoModule} {usesViewId : Bool} {functions : List CfList} {body : CfList}
  {load : Nir.Instr × Intrinsic} {i : Nat} {output : Nat × Nat}

theorem mem_elements_getD {records : List RecordRegisters} {n : Nat} {element : ElementRegister}
    (member : element ∈ (records.getD n IoModule.noRecord).elements) :
    ∃ record ∈ records, element ∈ record.elements := by
  by_cases inside : n < records.length
  · rw [List.getD_eq_getElem _ _ inside] at member
    exact ⟨records[n], List.getElem_mem inside, member⟩
  · rw [List.getD_eq_default _ _ (Nat.le_of_not_lt inside)] at member
    cases member

theorem input_lt (valid : Fitting mod usesViewId functions) (listed : body ∈ functions)
    (depends : Depends mod body load i output)
    (notView : load.2.op ≠ .loadViewIndex) :
    i < (if mod.readsPatchConst load.2 then
      mod.numPsvPatchConsts
      else mod.numPsvInputs) * 4 := by
  have inBounds := valid.registers
  rcases load_mem_instrs depends.load_mem with ⟨member, isIntrinsic, isLoad⟩
  have input := depends.input
  rw [IoModule.inputBits, if_neg notView] at input
  rcases List.mem_map.mp input with ⟨⟨component, stream⟩, touched, rfl⟩
  have rows := fun row isConst =>
    valid.rows body listed load.1 member load.2 isIntrinsic row isConst
    notView
  rw [if_pos isLoad] at rows
  have components := valid.components body listed load.1 member load.2 isIntrinsic
  refine (touchedComponents_bounded (fun _ => _) ?_ rows components touched).1
  intro element inRecord
  rw [IoModule.inputRecord] at inRecord
  split at inRecord
  · next patch =>
    rcases mem_elements_getD inRecord with ⟨record, inRecords, inElements⟩
    rw [if_pos patch]
    exact inBounds.patchConsts record inRecords element inElements
  · next notPatch =>
    rcases mem_elements_getD inRecord with ⟨record, inRecords, inElements⟩
    rw [if_neg notPatch]
    exact inBounds.inputs record inRecords element inElements

theorem lt_of_divRoundUp {component vectors : Nat} (below : component < vectors * 4) :
    component < 32 * divRoundUp vectors outputVecsPerDword := by
  rw [divRoundUp, outputVecsPerDword]
  omega

/-- Where a stored component belongs. -/
structure StoredInside (mod : IoModule) (output : Nat × Nat) : Prop where
  isTable : output.2 < mod.numTables
  hasView : output.2 < mod.numOutputStreams ∨ mod.shaderKind = .hull
  inRow : output.1 < 32 * mod.dwordsPerInput output.2
  domain : mod.shaderKind = .domain → output.2 = 0

theorem numOutputStreams_le_numTables (mod : IoModule) : mod.numOutputStreams ≤ mod.numTables := by
  rw [IoModule.numTables, IoModule.numOutputStreams, IoModule.hasPatchTables]
  cases mod.shaderKind <;> decide

theorem storedInside (valid : Fitting mod usesViewId functions) (listed : body ∈ functions)
    {store : Nir.Instr} (member : store ∈ body.instrs)
    (stores : Stores mod body store output) :
    StoredInside mod output := by
  have inBounds := valid.registers
  rcases stores with ⟨intr, isIntrinsic, isStore, stored⟩
  rcases List.mem_map.mp stored with ⟨⟨component, stream⟩, touched, rfl⟩
  have notView : intr.op ≠ .loadViewIndex := by
    intro view
    rw [view] at isStore
    cases isStore
  have rows := fun row isConst => valid.rows body listed store member intr isIntrinsic row isConst
    notView
  simp only [isStore, Bool.false_eq_true, if_false] at rows
  have components := valid.components body listed store member intr isIntrinsic
  by_cases patch : mod.writesPatchConst intr
  · have hull : mod.shaderKind = .hull := by
      simp only [IoModule.writesPatchConst, decide_eq_true_eq] at patch
      exact patch.1
    have below := (touchedComponents_bounded
      (fun _ => mod.numPsvPatchConsts) (by
        intro element inRecord
        rw [IoModule.outputRecord, if_pos patch] at inRecord
        rcases mem_elements_getD inRecord with ⟨record, inRecords, inElements⟩
        exact inBounds.patchConsts record inRecords element inElements) rows components touched).1
    simp only [if_pos patch]
    refine ⟨?_, Or.inr hull, ?_, ?_⟩
    · simp [IoModule.numTables, IoModule.hasPatchTables, hull]
    · rw [IoModule.dwordsPerInput, if_pos ⟨hull, rfl⟩]
      exact lt_of_divRoundUp below
    · intro domain
      cases hull.symm.trans domain
  · have inRecords : ∀ element ∈ (mod.outputRecord intr).elements,
        ∃ record ∈ mod.outputs, element ∈ record.elements := by
      intro element inRecord
      rw [IoModule.outputRecord, if_neg patch] at inRecord
      exact mem_elements_getD inRecord
    rcases touchedComponents_bounded mod.numPsvOutputs (by
        intro element inRecord
        rcases inRecords element inRecord with ⟨record, inRecords, inElements⟩
        exact inBounds.outputs record inRecords element inElements) rows components touched with
      ⟨below, element, inRecord, rfl⟩
    rcases inRecords element inRecord with ⟨record, inRecords, inElements⟩
    have isStream := inBounds.outputStreams record inRecords element inElements
    have one : mod.shaderKind ≠ .geometry → element.stream = 0 := by
      intro notGeometry
      rw [IoModule.numOutputStreams, if_neg notGeometry] at isStream
      exact Nat.lt_one_iff.mp isStream
    simp only [patch, Bool.false_eq_true, if_false]
    refine ⟨Nat.lt_of_lt_of_le isStream (numOutputStreams_le_numTables _), Or.inl isStream, ?_, ?_⟩
    · rw [IoModule.dwordsPerInput, if_neg, if_pos isStream]
      · exact lt_of_divRoundUp below
      · rintro ⟨hull, second⟩
        rw [one (by rw [hull]; decide)] at second
        cases second
    · intro domain
      exact one (by rw [domain]; decide)

theorem depends_storedInside (valid : Fitting mod usesViewId functions)
    (listed : body ∈ functions)
    (depends : Depends mod body load i output) :
    StoredInside mod output := by
  rcases depends.store with ⟨store, reaches, stores⟩
  apply storedInside valid listed _ stores
  cases reaches with
  | refl => exact (load_mem_instrs depends.load_mem).1
  | tail _ pushed => exact mem_instrs_of_pushes pushed

theorem ioTableSize_eq {mod : IoModule} {t : Nat} (isTable : t < mod.numTables) :
    mod.ioTableSize t = mod.rowWidth t * mod.rowCount t := by
  rw [IoModule.ioTableSize, IoModule.rowWidth, IoModule.rowCount, masksPerInputVec]
  by_cases hull : mod.shaderKind = .hull ∧ t = 1
  · rcases hull with ⟨isHull, rfl⟩
    simp [isHull, Nat.mul_assoc]
  · by_cases domain : mod.shaderKind = .domain ∧ t = 1
    · rw [if_neg hull, if_pos domain, if_pos domain, if_pos domain, Nat.mul_assoc]
    · have isStream : t < mod.numOutputStreams := by
        rw [IoModule.numTables] at isTable
        by_cases patch : mod.hasPatchTables
        · have notOne : t ≠ 1 := by
            intro one
            have either : mod.shaderKind = .hull ∨ mod.shaderKind = .domain := by
              simpa [IoModule.hasPatchTables] using patch
            exact either.elim (fun isHull => hull ⟨isHull, one⟩)
              (fun isDomain => domain ⟨isDomain, one⟩)
          rw [if_pos patch] at isTable
          rw [IoModule.numOutputStreams]
          split <;> omega
        · rwa [if_neg patch] at isTable
      rw [if_neg hull, if_neg domain, if_pos isStream, if_neg domain, if_neg domain, Nat.mul_assoc]

end Bounds

/-! ## Where the places lie -/

section Places

variable {mod : IoModule} {usesViewId : Bool} {functions : List CfList}

theorem tableOf_facts (valid : Fitting mod usesViewId functions) {body : CfList}
    (listed : body ∈ functions) {load : Nir.Instr × Intrinsic} {i : Nat} {output : Nat × Nat}
    (depends : Depends mod body load i output) :
    mod.tableOf load.2 output.2 < mod.numTables ∧
      output.1 < 32 * mod.rowWidth
        (mod.tableOf load.2 output.2) ∧
      (load.2.op ≠ .loadViewIndex → i < mod.rowCount
        (mod.tableOf load.2 output.2)) := by
  have stored := depends_storedInside valid listed depends
  have inRow := stored.inRow
  by_cases patch : mod.readsPatchConst load.2
  · have domain : mod.shaderKind = .domain := by
      simp only [IoModule.readsPatchConst, decide_eq_true_eq] at patch
      exact patch.1
    rw [stored.domain domain] at inRow ⊢
    rw [IoModule.tableOf, if_pos patch, IoModule.rowWidth, if_pos ⟨domain, rfl⟩, IoModule.rowCount,
      if_pos ⟨domain, rfl⟩]
    refine ⟨?_, inRow, ?_⟩
    · simp [IoModule.numTables, IoModule.hasPatchTables, domain]
    · intro notView
      have below := input_lt valid listed depends notView
      rwa [if_pos patch] at below
  · have notSecond : ¬ (mod.shaderKind = .domain ∧ output.2 = 1) := by
      rintro ⟨domain, second⟩
      rw [stored.domain domain] at second
      cases second
    rw [IoModule.tableOf, if_neg patch, IoModule.rowWidth, if_neg notSecond, IoModule.rowCount,
      if_neg notSecond]
    refine ⟨stored.isTable, inRow, ?_⟩
    intro notView
    have below := input_lt valid listed depends notView
    rwa [if_neg patch] at below

variable (valid : Fitting mod usesViewId functions)

include valid

theorem expectedPlace_view {body : CfList} (listed : body ∈ functions)
    {load : Nir.Instr × Intrinsic}
    {loaded : Nat} {output : Nat × Nat}
    (depends : Depends mod body load loaded output)
    (view : load.2.op = .loadViewIndex) (i : Nat) :
    let place := mod.expectedPlace (mod.prepareDependencyTables usesViewId) load.2 i output
    mod.tableStart usesViewId output.2 + 1 ≤ place.1 ∧
      place.1 < mod.tableStart usesViewId output.2 + 1 +
      mod.viewIdTableSize usesViewId output.2 := by
  intro place
  rcases IoModule.exists_placed mod usesViewId with ⟨_, placed⟩
  have stored := depends_storedInside valid listed depends
  rcases load_mem_instrs depends.load_mem with ⟨member, isIntrinsic, -⟩
  have flag := valid.viewIds body listed load.1 member load.2 isIntrinsic view
  have few : mod.numTables ≤ 4 := by
    rw [IoModule.numTables, IoModule.numOutputStreams]
    split <;> [decide; split <;> decide]
  have size : mod.viewIdTableSize usesViewId output.2 = mod.dwordsPerInput output.2 :=
    if_pos ⟨flag, Nat.lt_of_lt_of_le stored.isTable few⟩
  have row := placed.viewid output.2 stored.isTable stored.hasView
  have inRow : output.1 < 32 * mod.dwordsPerInput output.2 := stored.inRow
  have start : place.1 = mod.tableStart usesViewId output.2 + 1 + output.1 / 32 := by
    simp only [place, IoModule.expectedPlace, if_pos view]
    exact congrArg (· + output.1 / 32) row
  rw [start, size]
  omega

theorem expectedPlace_io {body : CfList} (listed : body ∈ functions) {load : Nir.Instr × Intrinsic}
    {i loaded : Nat} {output : Nat × Nat}
    (depends : Depends mod body load loaded output)
    (notView : load.2.op ≠ .loadViewIndex)
    (inRows : i < mod.rowCount
      (mod.tableOf load.2 output.2)) :
    let t := mod.tableOf load.2 output.2
    (mod.expectedPlace (mod.prepareDependencyTables usesViewId) load.2 i output).1 =
        mod.tableStart usesViewId t + 1 + mod.viewIdTableSize usesViewId t +
          (mod.rowWidth t * i + output.1 / 32) ∧
      mod.rowWidth t * i + output.1 / 32 < mod.ioTableSize t := by
  intro t
  rcases IoModule.exists_placed mod usesViewId with ⟨_, placed⟩
  rcases tableOf_facts valid listed depends with ⟨isTable, inRow, -⟩
  have io := placed.io t isTable
  constructor
  · simp only [IoModule.expectedPlace, if_neg notView]
    rw [← Nat.add_assoc]
    exact congrArg (fun start => start + mod.rowWidth t * i + output.1 / 32) io
  · rw [ioTableSize_eq isTable]
    have small : output.1 / 32 < mod.rowWidth t :=
      Nat.div_lt_of_lt_mul inRow
    calc mod.rowWidth t * i + output.1 / 32
        < mod.rowWidth t * i + mod.rowWidth t := Nat.add_lt_add_left small _
      _ = mod.rowWidth t * (i + 1) := (Nat.mul_succ ..).symm
      _ ≤ mod.rowWidth t * mod.rowCount t := Nat.mul_le_mul_left _ inRows

/-- Two places of inputs that coincide belong to one component and one table, and a place of
an input is none of a view id. -/
theorem expectedPlace_inj {body body' : CfList} (listed : body ∈ functions)
    (listed' : body' ∈ functions) {load load' : Nir.Instr × Intrinsic} {i i' loaded loaded' : Nat}
    {output output' : Nat × Nat}
    (depends : Depends mod body load loaded output)
    (depends' : Depends mod body' load' loaded' output')
    (notView : load.2.op ≠ .loadViewIndex)
    (inRows : i < mod.rowCount
      (mod.tableOf load.2 output.2))
    (inRows' : load'.2.op ≠ .loadViewIndex → i' < mod.rowCount
      (mod.tableOf load'.2 output'.2))
    (same : mod.expectedPlace
        (mod.prepareDependencyTables usesViewId) load.2 i output =
      mod.expectedPlace
        (mod.prepareDependencyTables usesViewId) load'.2 i' output') :
    load'.2.op ≠ .loadViewIndex ∧
      mod.tableOf load.2 output.2 =
        mod.tableOf load'.2 output'.2 ∧ i = i' := by
  have word := congrArg Prod.fst same
  rcases expectedPlace_io valid listed depends notView inRows with ⟨place, inTable⟩
  have apart := fun {t t' : Nat} (before : t < t') =>
    mod.tableStart_lt usesViewId before
  by_cases view : load'.2.op = .loadViewIndex
  · exfalso
    rcases expectedPlace_view valid listed' depends' view i' with ⟨above, below⟩
    rw [← word, place] at above below
    rcases Nat.lt_trichotomy (mod.tableOf load.2 output.2) output'.2 with
      before | equal | after
    · have gap := apart before
      omega
    · rw [equal] at above below
      omega
    · have gap := apart after
      omega
  · rcases expectedPlace_io valid listed' depends' view (inRows' view) with ⟨place', inTable'⟩
    rw [place, place'] at word
    rcases Nat.lt_trichotomy (mod.tableOf load.2 output.2)
      (mod.tableOf load'.2 output'.2) with before | equal | after
    · have gap := apart before
      omega
    · refine ⟨view, equal, ?_⟩
      rw [equal] at word inTable
      have inRow := (tableOf_facts valid listed depends).2.1
      have inRow' := (tableOf_facts valid listed' depends').2.1
      rw [equal] at inRow
      have rows := Nat.add_left_cancel word
      generalize mod.rowWidth
        (mod.tableOf load'.2 output'.2) = width at rows inRow inRow'
      have first : output.1 / 32 < width := Nat.div_lt_of_lt_mul inRow
      have second : output'.1 / 32 < width := Nat.div_lt_of_lt_mul inRow'
      rcases Nat.lt_trichotomy i i' with less | equalRow | more
      · have gap : width * (i + 1) ≤ width * i' := Nat.mul_le_mul_left _ less
        rw [Nat.mul_succ] at gap
        omega
      · exact equalRow
      · have gap : width * (i' + 1) ≤ width * i := Nat.mul_le_mul_left _ more
        rw [Nat.mul_succ] at gap
        omega
    · have gap := apart after
      omega

/-- The place that the pass writes: the second width is never set for domain shaders, so that
all their patch constants share the first row. -/
theorem writtenPlace_eq {body : CfList} (listed : body ∈ functions) {load : Nir.Instr × Intrinsic}
    {i : Nat} {output : Nat × Nat}
    (depends : Depends mod body load i output) :
    let tables := mod.prepareDependencyTables usesViewId
    ((mod.inputTables load.2 (if load.2.op = .loadViewIndex then tables.viewid else tables.io)
        output.2 + mod.inputTables load.2 tables.dwordsPerInput output.2 * i + output.1 / 32,
      output.1 % 32) : Place) =
      mod.expectedPlace tables load.2 (if mod.readsPatchConst load.2 then 0 else i) output := by
  intro tables
  rcases IoModule.exists_placed mod usesViewId with ⟨_, placed⟩
  have widths : tables.dwordsPerInput = mod.dwordsPerInput := placed.dwordsPerInput
  have stored := depends_storedInside valid listed depends
  have table : ∀ pointers : Nat → Nat, load.2.op ≠ .loadViewIndex →
      mod.inputTables load.2 pointers output.2 = pointers (mod.tableOf load.2 output.2) := by
    intro pointers notView
    rw [IoModule.inputTables, IoModule.tableOf]
    by_cases patch : mod.readsPatchConst load.2
    · rw [if_pos ⟨notView, patch⟩, if_pos patch]
    · rw [if_neg (fun both => patch both.2), if_neg patch]
  by_cases view : load.2.op = .loadViewIndex
  · have only : i = 0 := by
      have input := depends.input
      rw [IoModule.inputBits, if_pos view] at input
      exact List.mem_singleton.mp input
    have noPatch : mod.readsPatchConst load.2 = false := by simp [IoModule.readsPatchConst, view]
    simp only [IoModule.expectedPlace, IoModule.inputTables, view, only, noPatch]
    rfl
  · rw [table _ view, table _ view, if_neg view, widths]
    simp only [IoModule.expectedPlace, if_neg view]
    by_cases patch : mod.readsPatchConst load.2
    · have domain : mod.shaderKind = .domain := by
        simp only [IoModule.readsPatchConst, decide_eq_true_eq] at patch
        exact patch.1
      have second : mod.tableOf load.2 output.2 = 1 := by
        rw [IoModule.tableOf, if_pos patch, stored.domain domain]
      have unset : mod.dwordsPerInput 1 = 0 := by
        rw [IoModule.dwordsPerInput, IoModule.numOutputStreams, domain]
        rfl
      rw [if_pos patch, second, unset, Nat.zero_mul, Nat.mul_zero]
    · have notSecond : ¬ (mod.shaderKind = .domain ∧ mod.tableOf load.2 output.2 = 1) := by
        rintro ⟨domain, second⟩
        rw [IoModule.tableOf, if_neg patch, stored.domain domain] at second
        cases second
      rw [if_neg patch, IoModule.rowWidth, if_neg notSecond]

/-- The bits after the analysis, by the dependencies. -/
theorem has_analyzeIoDependencies (place : Place) :
    let tables := mod.prepareDependencyTables usesViewId
    (analyzeIoDependencies mod tables functions).1.Has place ↔
      tables.memory.Has place ∨ ∃ body ∈ functions, ∃ load i output,
        Depends mod body load i output ∧ i < 128 ∧ place =
          mod.expectedPlace tables load.2 (if mod.readsPatchConst load.2 then 0 else i) output := by
  intro tables
  have written : ∀ body ∈ functions, ∀ state : Memory × Bool,
      Adds state.1 (analyzeFunction mod tables state body).1
        {place | ∃ load i output, Depends mod body load i output ∧ i < 128 ∧ place =
          mod.expectedPlace tables load.2
            (if mod.readsPatchConst load.2 then 0 else i) output} := by
    intro body listed state place
    refine (Adds.foldl (fun load member state => adds_propagate member
      (if load.2.op = .loadViewIndex then tables.viewid else tables.io) tables.dwordsPerInput state)
      state place).trans ?_
    apply or_congr_right
    constructor
    · rintro ⟨load, -, i, output, depends, small, rfl⟩
      exact ⟨load, i, output, depends, small, writtenPlace_eq valid listed depends⟩
    · rintro ⟨load, i, output, depends, small, rfl⟩
      exact ⟨load, depends.load_mem, i, output, depends, small,
        (writtenPlace_eq valid listed depends).symm⟩
  rw [analyzeIoDependencies]
  split
  · exact Adds.foldl written (tables.memory, false) place
  · next noOutputs =>
    have nothing : ∀ body ∈ functions, ∀ load i output, ¬ Depends mod body load i output := by
      intro body listed load i output depends
      have stored := depends_storedInside valid listed depends
      have inRow := stored.inRow
      simp only [Bool.or_eq_true, List.any_eq_true, List.mem_range, decide_eq_true_eq,
        Bool.and_eq_true, not_or, not_exists, not_and, Nat.not_lt, Nat.le_zero] at noOutputs
      rcases noOutputs with ⟨noStreams, noPatch⟩
      have few : mod.numOutputStreams ≤ 4 := by
        rw [IoModule.numOutputStreams]
        split <;> decide
      rw [IoModule.dwordsPerInput] at inRow
      split at inRow
      · next hull =>
        rw [noPatch hull.1] at inRow
        cases inRow
      · split at inRow
        · next isStream =>
          rw [noStreams output.2 (Nat.lt_of_lt_of_le isStream few)] at inRow
          cases inRow
        · cases inRow
    constructor
    · exact Or.inl
    · rintro (had | ⟨body, listed, load, i, output, depends, -⟩)
      · exact had
      · exact absurd depends (nothing body listed load i output)

/-- A dependency outside the first row of patch constants, or outside the 128 bits of
`input_bits`, leaves its place empty. -/
theorem not_has_expectedPlace {body : CfList} (listed : body ∈ functions)
    {load : Nir.Instr × Intrinsic} {i : Nat} {output : Nat × Nat}
    (depends : Depends mod body load i output)
    (notView : load.2.op ≠ .loadViewIndex)
    (missed : ¬ (i < 128 ∧ (mod.readsPatchConst load.2 → i = 0))) :
    let tables := mod.prepareDependencyTables usesViewId
    ¬ (analyzeIoDependencies mod tables functions).1.Has
      (mod.expectedPlace tables load.2 i output) := by
  intro tables has
  have inRows := (tableOf_facts valid listed depends).2.2 notView
  rcases (has_analyzeIoDependencies valid _).mp has with initial |
    ⟨body', listed', load', i', output', depends', small, same⟩
  · rcases IoModule.exists_placed mod usesViewId with ⟨_, placed⟩
    rcases expectedPlace_io valid listed depends notView inRows with ⟨place, inTable⟩
    have empty := placed.memory (mod.expectedPlace tables load.2 i output).1
      (by rw [place]; omega) (by
        intro t isTable equal
        rw [place] at equal
        rcases Nat.lt_trichotomy (mod.tableOf load.2 output.2) t with before | rfl | after
        · have gap := mod.tableStart_lt usesViewId before
          omega
        · omega
        · have gap := mod.tableStart_lt usesViewId after
          omega)
    have zero : tables.memory (mod.expectedPlace tables load.2 i output).1 = 0 := empty
    rw [Memory.Has, zero] at initial
    simp at initial
  · have inRows' : load'.2.op ≠ .loadViewIndex →
        (if mod.readsPatchConst load'.2 then 0 else i') <
          mod.rowCount (mod.tableOf load'.2 output'.2) := by
      intro notView'
      have below : i' < mod.rowCount (mod.tableOf load'.2 output'.2) :=
        (tableOf_facts valid listed' depends').2.2 notView'
      split
      · exact Nat.zero_lt_of_lt below
      · exact below
    rcases expectedPlace_inj valid listed listed' depends depends' notView inRows inRows' same with
      ⟨-, sameTable, row⟩
    apply missed
    by_cases patch' : mod.readsPatchConst load'.2
    · rw [if_pos patch'] at row
      exact ⟨by omega, fun _ => row⟩
    · rw [if_neg patch'] at row
      refine ⟨by omega, ?_⟩
      intro patch
      -- In a domain shader the tables of patch constants and of inputs are different ones.
      have domain : mod.shaderKind = .domain := by
        simp only [IoModule.readsPatchConst, decide_eq_true_eq] at patch
        exact patch.1
      rw [IoModule.tableOf, IoModule.tableOf, if_pos patch, if_neg patch',
        (depends_storedInside valid listed depends).domain domain,
        (depends_storedInside valid listed' depends').domain domain] at sameTable
      cases sameTable

end Places

section Copy

def copySignatures (shaderKind : ShaderKind) : Signatures :=
  let vector : Nat × SemanticInfo := (0, ⟨0, 1, 0, by decide, by decide⟩)
  { shaderKind := shaderKind, inputs := [vector], outputs := [vector], patchConsts := [vector] }

def copyLoad : Nir.Instr × Intrinsic :=
  let intr : Intrinsic := ⟨.loadInput, [0], 0, 1, 1⟩
  (⟨1, .intrinsic intr⟩, intr)

def copyStore : Nir.Instr := ⟨2, .intrinsic ⟨.storeOutput, [1, 0], 0, 0, 1⟩⟩

/-- Stores the second component of the input to the first of the output. -/
def copyBody : CfList := .last ⟨0, [⟨0, .loadConst 0⟩, copyLoad.1, copyStore]⟩

theorem copy_intrinsics {instr : Nir.Instr} (member : instr ∈ copyBody.instrs) {intr : Intrinsic}
    (isIntrinsic : instr.kind = .intrinsic intr) :
    intr = copyLoad.2 ∨ intr = ⟨.storeOutput, [1, 0], 0, 0, 1⟩ := by
  simp only [copyBody, CfList.instrs, List.mem_cons, List.not_mem_nil, or_false] at member
  rcases member with rfl | rfl | rfl
  · cases isIntrinsic
  · exact Or.inl (InstrKind.intrinsic.inj isIntrinsic).symm
  · exact Or.inr (InstrKind.intrinsic.inj isIntrinsic).symm

theorem validShader_copy (shaderKind : ShaderKind) :
    ValidShader (processSignatures (copySignatures shaderKind)) false [copyBody] where
  rows body listed instr member intr isIntrinsic row isConst notView := by
    rw [List.mem_singleton] at listed
    subst listed
    rcases copy_intrinsics member isIntrinsic with rfl | rfl
    · cases Option.some.inj (isConst.symm.trans (by decide : _ = some 0))
      cases shaderKind <;> decide
    · cases Option.some.inj (isConst.symm.trans (by decide : _ = some 0))
      cases shaderKind <;> decide
  components body listed instr member intr isIntrinsic := by
    rw [List.mem_singleton] at listed
    subst listed
    rcases copy_intrinsics member isIntrinsic with rfl | rfl <;> decide
  viewIds body listed instr member intr isIntrinsic view := by
    rw [List.mem_singleton] at listed
    subst listed
    rcases copy_intrinsics member isIntrinsic with rfl | rfl <;> cases view

end Copy

end SpirvToDxil
