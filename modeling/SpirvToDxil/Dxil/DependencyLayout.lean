import SpirvToDxil.Dxil.Signature

/-!
# Where the dependency tables lie, and the registers they cover
-/

namespace SpirvToDxil

namespace IoModule

section Layout

variable (mod : IoModule) (usesViewId : Bool)

/-- The word with the number of output components of table `t`, ahead of the table. -/
def tableStart : Nat → Nat
  | 0 => 1
  | t + 1 => tableStart t + 1 + mod.viewIdTableSize usesViewId t + mod.ioTableSize t

theorem tableStart_lt {t t' : Nat} (before : t < t') :
    mod.tableStart usesViewId t + 1 + mod.viewIdTableSize usesViewId t + mod.ioTableSize t ≤
      mod.tableStart usesViewId t' := by
  induction before with
  | refl => exact Nat.le_refl _
  | step _ inductionHypothesis =>
    apply Nat.le_trans inductionHypothesis
    rw [tableStart]
    omega

theorem tableStart_eq_sum (n : Nat) : mod.tableStart usesViewId n = n + 1 +
    ((List.range n).map (fun i => mod.viewIdTableSize usesViewId i + mod.ioTableSize i)).sum := by
  induction n with
  | zero => rfl
  | succ n inductionHypothesis =>
    rw [tableStart, inductionHypothesis, List.range_succ, List.map_append, List.sum_append,
      List.map_singleton, List.sum_singleton]
    omega

/-- The first `n` tables are in place, and `state` points behind them. -/
structure Placed (n : Nat) (state : DependencyTables × Nat) : Prop where
  next : state.2 = mod.tableStart usesViewId n
  io : ∀ t < n, state.1.io t =
    mod.tableStart usesViewId t + 1 + mod.viewIdTableSize usesViewId t
  viewid : ∀ t < n, t < mod.numOutputStreams ∨ mod.shaderKind = .hull →
    state.1.viewid t = mod.tableStart usesViewId t + 1
  ioSize : state.1.ioSize = mod.ioTableSize
  dwordsPerInput : state.1.dwordsPerInput = mod.dwordsPerInput
  serializedSize : state.1.serializedSize = mod.tableStart usesViewId mod.numTables
  memory : ∀ address, address ≠ 0 → (∀ t < n, address ≠ mod.tableStart usesViewId t) →
    state.1.memory address = 0

variable {mod usesViewId}

theorem Placed.streamTables {n : Nat} {state : DependencyTables × Nat}
    (placed : Placed mod usesViewId n state) :
    Placed mod usesViewId (n + 1) (mod.placeStreamTables usesViewId state n) where
  next := by
    simp only [placeStreamTables, putWord, placed.next, placed.ioSize, tableStart]
  io t inside := by
    rcases Nat.lt_succ_iff_lt_or_eq.mp inside with earlier | rfl
    · simp only [placeStreamTables, putWord, Function.update_of_ne (Nat.ne_of_lt earlier)]
      exact placed.io t earlier
    · simp only [placeStreamTables, putWord, Function.update_self, placed.next]
  viewid t inside viewed := by
    rcases Nat.lt_succ_iff_lt_or_eq.mp inside with earlier | rfl
    · simp only [placeStreamTables, putWord, Function.update_of_ne (Nat.ne_of_lt earlier)]
      exact placed.viewid t earlier viewed
    · simp only [placeStreamTables, putWord, Function.update_self, placed.next]
  ioSize := placed.ioSize
  dwordsPerInput := placed.dwordsPerInput
  serializedSize := placed.serializedSize
  memory address nonzero elsewhere := by
    have own : address ≠ state.2 := by
      rw [placed.next]
      exact elsewhere n (Nat.lt_succ_self n)
    simp only [placeStreamTables, putWord, Function.update_of_ne own]
    exact placed.memory address nonzero (fun t earlier => elsewhere t (Nat.lt_succ_of_lt earlier))

theorem Placed.patchTables {state : DependencyTables × Nat}
    (placed : Placed mod usesViewId 1 state) (patch : mod.hasPatchTables) :
    Placed mod usesViewId 2 (mod.placePatchTables usesViewId state) := by
  have own : ∀ address, (∀ t < 2, address ≠ mod.tableStart usesViewId t) → address ≠ state.2 := by
    intro address elsewhere
    rw [placed.next]
    exact elsewhere 1 (Nat.lt_succ_self 1)
  have below : ∀ t, t < 2 → t ≠ 1 → t < 1 := by omega
  by_cases hull : mod.shaderKind = .hull
  · constructor
    case next =>
      simp only [placePatchTables, putWord, placed.next, placed.ioSize, hull, if_true]
      rfl
    case io =>
      intro t inside
      by_cases last : t = 1
      · subst last
        simp only [placePatchTables, putWord, hull, if_true, Function.update_self, placed.next]
      · simp only [placePatchTables, putWord, hull, if_true, Function.update_of_ne last]
        exact placed.io t (below t inside last)
    case viewid =>
      intro t inside viewed
      by_cases last : t = 1
      · subst last
        simp only [placePatchTables, putWord, hull, if_true, Function.update_self, placed.next]
      · simp only [placePatchTables, putWord, hull, if_true, Function.update_of_ne last]
        exact placed.viewid t (below t inside last) viewed
    case ioSize =>
      simp only [placePatchTables, putWord, hull, if_true, placed.ioSize]
    case dwordsPerInput =>
      simp only [placePatchTables, putWord, hull, if_true, placed.dwordsPerInput]
    case serializedSize =>
      simp only [placePatchTables, putWord, hull, if_true, placed.serializedSize]
    case memory =>
      intro address nonzero elsewhere
      simp only [placePatchTables, putWord, hull, if_true,
        Function.update_of_ne (own address elsewhere)]
      exact placed.memory address nonzero (fun t earlier => elsewhere t (Nat.lt_succ_of_lt earlier))
  · have domain : mod.shaderKind = .domain := by
      simpa [hasPatchTables, hull] using patch
    have streams : mod.numOutputStreams = 1 := by rw [numOutputStreams, domain]; rfl
    have noWidth : mod.dwordsPerInput 1 = 0 := by
      rw [IoModule.dwordsPerInput, streams, domain]
      rfl
    have noView : mod.viewIdTableSize usesViewId 1 = 0 := by
      rw [viewIdTableSize, noWidth, ite_self]
    constructor
    case next =>
      simp only [placePatchTables, putWord, placed.next, placed.ioSize, hull, if_false]
      change _ = mod.tableStart usesViewId 1 + 1 + mod.viewIdTableSize usesViewId 1 +
        mod.ioTableSize 1
      rw [noView]
    case io =>
      intro t inside
      by_cases last : t = 1
      · subst last
        simp only [placePatchTables, putWord, hull, if_false, Function.update_self, placed.next,
          noView, Nat.add_zero]
      · simp only [placePatchTables, putWord, hull, if_false, Function.update_of_ne last]
        exact placed.io t (below t inside last)
    case viewid =>
      intro t inside viewed
      have first : t < 1 := by
        rcases viewed with stream | isHull
        · exact streams ▸ stream
        · exact absurd isHull hull
      simp only [placePatchTables, putWord, hull, if_false]
      exact placed.viewid t first viewed
    case ioSize =>
      simp only [placePatchTables, putWord, hull, if_false, placed.ioSize]
    case dwordsPerInput =>
      simp only [placePatchTables, putWord, hull, if_false, placed.dwordsPerInput]
    case serializedSize =>
      simp only [placePatchTables, putWord, hull, if_false, placed.serializedSize]
    case memory =>
      intro address nonzero elsewhere
      simp only [placePatchTables, putWord, hull, if_false,
        Function.update_of_ne (own address elsewhere)]
      exact placed.memory address nonzero (fun t earlier => elsewhere t (Nat.lt_succ_of_lt earlier))

theorem Placed.foldl {state : DependencyTables × Nat} (placed : Placed mod usesViewId 0 state)
    (n : Nat) :
    Placed mod usesViewId n ((List.range n).foldl (mod.placeStreamTables usesViewId) state) := by
  induction n with
  | zero => exact placed
  | succ n inductionHypothesis =>
    rw [List.range_succ, List.foldl_append]
    exact inductionHypothesis.streamTables

theorem exists_placed (mod : IoModule) (usesViewId : Bool) :
    ∃ next, Placed mod usesViewId mod.numTables (mod.prepareDependencyTables usesViewId, next) := by
  have first : Placed mod usesViewId 0 (putWord
      ({ dwordsPerInput := mod.dwordsPerInput
         ioSize := mod.ioTableSize
         serializedSize := mod.numTables + 1 +
           ((List.range mod.numTables).map (fun i =>
             mod.viewIdTableSize usesViewId i + mod.ioTableSize i)).sum }, 0)
      (mod.numPsvInputs * 4)) := by
    refine ⟨rfl, nofun, nofun, rfl, rfl, (tableStart_eq_sum mod usesViewId mod.numTables).symm, ?_⟩
    intro address nonzero _
    exact Function.update_of_ne nonzero ..
  have streams := first.foldl mod.numOutputStreams
  have all : ∀ n, mod.numTables = n →
      ∃ next, Placed mod usesViewId n (mod.prepareDependencyTables usesViewId, next) := by
    intro n tables
    rw [numTables] at tables
    rw [prepareDependencyTables]
    by_cases patch : mod.hasPatchTables
    · have one : mod.numOutputStreams = 1 := by
        rw [numOutputStreams, if_neg]
        intro geometry
        simp [hasPatchTables, geometry] at patch
      rw [one] at streams
      rw [if_pos patch] at tables
      subst tables
      simp only [if_pos patch, one]
      exact ⟨_, streams.patchTables patch⟩
    · rw [if_neg patch] at tables
      subst tables
      simp only [if_neg patch]
      exact ⟨_, streams⟩
  exact all mod.numTables rfl

end Layout

/-! ## Registers -/

/-- Every register of the records lies below the bound of its stream. -/
def Bounded (records : List RecordRegisters) (bound : Nat → Nat) : Prop :=
  ∀ record ∈ records, ∀ element ∈ record.elements,
    element.reg = NO_REGISTER ∨ element.reg < bound element.stream

theorem fillIoSignature_bounded {semantic : SemanticInfo} {element : ElementRegister}
    (member : element ∈ (fillIoSignature semantic).elements) :
    element.stream = semantic.stream ∧ (element.reg = NO_REGISTER ∨
      element.reg < (semantic.startRow + semantic.rows).toNat) := by
  rcases List.mem_map.mp member with ⟨row, inside, rfl⟩
  rw [List.mem_range] at inside
  refine ⟨rfl, ?_⟩
  have start := semantic.startRow_ge
  rw [fillSignatureElement, NO_REGISTER]
  dsimp only
  by_cases none : semantic.startRow + row = -1
  · rw [none]
    exact Or.inl rfl
  · right
    omega

theorem Bounded.append {records : List RecordRegisters} {bound bound' : Nat → Nat}
    (bounded : Bounded records bound) (grows : ∀ stream, bound stream ≤ bound' stream)
    (semantic : SemanticInfo)
    (covers : (semantic.startRow + semantic.rows).toNat ≤ bound' semantic.stream) :
    Bounded (records ++ [fillIoSignature semantic]) bound' := by
  intro record member element listed
  rcases List.mem_append.mp member with old | new
  · apply (bounded record old element listed).imp_right
    intro below
    exact Nat.lt_of_lt_of_le below (grows element.stream)
  · rw [List.mem_singleton] at new
    subst new
    rcases fillIoSignature_bounded listed with ⟨stream, none | below⟩
    · exact Or.inl none
    · rw [stream]
      exact Or.inr (Nat.lt_of_lt_of_le below covers)

/-- The vector counts cover every register, and the streams are those of the semantics. -/
structure RegistersInBounds (streams : Nat → Prop) (mod : IoModule) : Prop where
  inputs : Bounded mod.inputs (fun _ => mod.numPsvInputs)
  outputs : Bounded mod.outputs mod.numPsvOutputs
  patchConsts : Bounded mod.patchConsts (fun _ => mod.numPsvPatchConsts)
  outputStreams : ∀ record ∈ mod.outputs, ∀ element ∈ record.elements, streams element.stream

section Registers

variable {streams : Nat → Prop} {mod : IoModule}

theorem RegistersInBounds.addInput (registers : RegistersInBounds streams mod)
    (input : Nat × SemanticInfo) : RegistersInBounds streams (mod.addInput input) where
  inputs := registers.inputs.append (fun _ => Nat.le_max_left ..) input.2 (Nat.le_max_right ..)
  outputs := registers.outputs
  patchConsts := registers.patchConsts
  outputStreams := registers.outputStreams

theorem RegistersInBounds.addOutput (registers : RegistersInBounds streams mod)
    {output : Nat × SemanticInfo} (stream : streams output.2.stream) :
    RegistersInBounds streams (mod.addOutput output) where
  inputs := registers.inputs
  outputs := by
    apply registers.outputs.append
    · intro other
      simp only [IoModule.addOutput, Function.update_apply]
      split
      · next same => exact same ▸ Nat.le_max_left ..
      · exact Nat.le_refl _
    · simp only [IoModule.addOutput, Function.update_self]
      exact Nat.le_max_right ..
  patchConsts := registers.patchConsts
  outputStreams := by
    intro record member element listed
    rcases List.mem_append.mp member with old | new
    · exact registers.outputStreams record old element listed
    · rw [List.mem_singleton] at new
      subst new
      rwa [(fillIoSignature_bounded listed).1]

theorem RegistersInBounds.addPatchConst (registers : RegistersInBounds streams mod)
    (patchConst : Nat × SemanticInfo) :
    RegistersInBounds streams (mod.addPatchConst patchConst) where
  inputs := registers.inputs
  outputs := registers.outputs
  patchConsts :=
    registers.patchConsts.append (fun _ => Nat.le_max_left ..) patchConst.2 (Nat.le_max_right ..)
  outputStreams := registers.outputStreams

theorem RegistersInBounds.foldl {add : IoModule → Nat × SemanticInfo → IoModule}
    {items : List (Nat × SemanticInfo)}
    (step : ∀ mod, RegistersInBounds streams mod → ∀ item ∈ items,
      RegistersInBounds streams (add mod item))
    (registers : RegistersInBounds streams mod) :
    RegistersInBounds streams (items.foldl add mod) := by
  induction items generalizing mod with
  | nil => exact registers
  | cons item items inductionHypothesis =>
    apply inductionHypothesis
    · intro other inBounds later member
      exact step other inBounds later (List.mem_cons_of_mem _ member)
    · exact step mod registers item List.mem_cons_self

end Registers

theorem registersInBounds_processSignatures {streams : Nat → Prop} (signatures : Signatures)
    (outputStreams : ∀ output ∈ signatures.outputs, streams output.2.stream) :
    RegistersInBounds streams (processSignatures signatures) := by
  have empty : RegistersInBounds streams { shaderKind := signatures.shaderKind } :=
    ⟨nofun, nofun, nofun, nofun⟩
  rw [processSignatures]
  apply RegistersInBounds.foldl
  · exact fun _ registers patchConst _ => registers.addPatchConst patchConst
  apply RegistersInBounds.foldl
  · exact fun _ registers output member => registers.addOutput (outputStreams output member)
  apply RegistersInBounds.foldl
  · exact fun _ registers input _ => registers.addInput input
  exact empty

end IoModule

end SpirvToDxil
