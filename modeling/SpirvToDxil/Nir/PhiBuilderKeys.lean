import SpirvToDxil.Nir.PhiBuilder

/-!
# The hash table of a value

The functions of `nir_phi_builder.c` as they are, on a hash table of which the keys are made from
the indices of the blocks. Where the keys of the blocks of a function differ, they do what the
functions on a table by block do.
-/

namespace SpirvToDxil.Nir.PhiBuilder

open FlowGraph Dominance

variable {Val : Type}

/-- `INDEX_TO_KEY` of an `unsigned` index. -/
def indexToKey (index : Nat) : Nat := ((index <<< 2) % 2 ^ 32 + 1) % 2 ^ 32

abbrev HashTable (Val : Type) := Nat → Option (BlockDef Val)

structure PhiBuilderValue (Val : Type) where
  ht : HashTable Val
  /-- The blocks of the phis that were created, in this order. -/
  phis : List Nat

def nirPhiBuilderValueSetBlockDef (ht : HashTable Val) (block : Nat) (blockDef : BlockDef Val) :
    HashTable Val :=
  Function.update ht (indexToKey block) (some blockDef)

namespace HashTable

def visit (endBlock : Nat) (state : Worklist Val) (next : Nat) : Worklist Val :=
  if next = endBlock then state
  else if (state.ht (indexToKey next)).isSome then state
  else
    { ht := nirPhiBuilderValueSetBlockDef state.ht next .needsPhi
      work := Function.update state.work next true
      queue := if state.work next then state.queue else state.queue ++ [next] }

/-- `while (w_start != w_end)`; the array has room for every block once. -/
def run (endBlock : Nat) (domFrontier : Nat → List Nat) :
    Nat → Worklist Val → Option (HashTable Val)
  | room, state =>
    match state.queue, room with
    | [], _ => some state.ht
    | _ :: _, 0 => none
    | cur :: queue, room + 1 =>
      run endBlock domFrontier room
        ((domFrontier cur).foldl (visit endBlock) { state with queue := queue })

/-- `while (dom != NULL)`, which is to be over after the steps that it is given. -/
def crawl (immDom : ImmDom) (ht : HashTable Val) : Nat → Nat → Option (Option Nat)
  | fuel, dom =>
    if (ht (indexToKey dom)).isSome then some (some dom)
    else
      match immDom dom, fuel with
      | none, _ => some none
      | some _, 0 => none
      | some up, fuel + 1 => crawl immDom ht fuel up

/-- The definition at the end of a crawl. A phi is created when it is needed for the first time. -/
def take (value : PhiBuilderValue Val) (dom : Option Nat) :
    Option (NirDef Val × PhiBuilderValue Val) :=
  dom.elim (some (.undef, value)) fun dom =>
    match value.ht (indexToKey dom) with
    -- the assertion that the crawl ended at an entry
    | none => none
    | some .needsPhi =>
      some (.phi dom,
        { ht := nirPhiBuilderValueSetBlockDef value.ht dom (.ssaDef (.phi dom))
          phis := value.phis ++ [dom] })
    | some (.ssaDef result) => some (result, value)

def stash (immDom : ImmDom) (result : NirDef Val) :
    Nat → Nat → HashTable Val → Option (HashTable Val)
  | fuel, dom, ht =>
    if (ht (indexToKey dom)).isSome then some ht
    else
      match immDom dom, fuel with
      | none, _ => some (nirPhiBuilderValueSetBlockDef ht dom (.ssaDef result))
      | some _, 0 => none
      | some up, fuel + 1 =>
        stash immDom result fuel up (nirPhiBuilderValueSetBlockDef ht dom (.ssaDef result))

end HashTable

/-- The table of a value that is stored in the blocks `defs`. The end block has the index
`numBlocks`, and `domFrontier` gives the frontiers in the order of `set_foreach`. -/
def nirPhiBuilderAddValue (numBlocks : Nat) (domFrontier : Nat → List Nat) (defs : Nat → Bool) :
    Option (HashTable Val) :=
  HashTable.run numBlocks domFrontier numBlocks
    { ht := fun _ => none
      work := fun block => block < numBlocks && defs block
      queue := (List.range numBlocks).filter defs }

def nirPhiBuilderValueGetBlockDef (immDom : ImmDom) (value : PhiBuilderValue Val) (block : Nat) :
    Option (NirDef Val × PhiBuilderValue Val) := do
  let dom ← HashTable.crawl immDom value.ht block block
  let (result, value) ← HashTable.take value dom
  let ht ← HashTable.stash immDom result block block value.ht
  some (result, { value with ht := ht })

def HashTable.lookUp (immDom : ImmDom) :
    PhiBuilderValue Val → List Nat → Option (List (NirDef Val) × PhiBuilderValue Val)
  | value, [] => some ([], value)
  | value, block :: blocks => do
    let (result, value) ← nirPhiBuilderValueGetBlockDef immDom value block
    let (results, value) ← lookUp immDom value blocks
    some (result :: results, value)

/-- The table after the values of the stores in the blocks `defs` were set. -/
def HashTable.setStored (numBlocks : Nat) (ht : HashTable Val) (defs : Nat → Bool)
    (value : Nat → Val) : HashTable Val :=
  ((List.range numBlocks).filter defs).foldl
    (fun ht block => nirPhiBuilderValueSetBlockDef ht block (.ssaDef (.stored (value block)))) ht

def HashTable.blocks (numBlocks : Nat) (ht : HashTable Val) : BlockTable Val :=
  fun block => if block < numBlocks then ht (indexToKey block) else none

/-! ## Keys -/

/-- Below 2^30 no bit of an index is shifted out. -/
theorem indexToKey_inj {index other : Nat} (small : index < 2 ^ 30) (otherSmall : other < 2 ^ 30)
    (same : indexToKey index = indexToKey other) : index = other := by
  simp only [indexToKey, Nat.shiftLeft_eq] at same
  omega

/-- The table has the entries of the blocks of a function. -/
def Represents (numBlocks : Nat) (ht : HashTable Val) (blocks : BlockTable Val) : Prop :=
  ∀ block < numBlocks, ht (indexToKey block) = blocks block

section Simulation

variable {numBlocks : Nat} {ht : HashTable Val} {blocks : BlockTable Val} {immDom : ImmDom}

theorem Represents.set (represents : Represents numBlocks ht blocks) (few : numBlocks ≤ 2 ^ 30)
    {block : Nat} (inside : block < numBlocks) (blockDef : BlockDef Val) :
    Represents numBlocks (nirPhiBuilderValueSetBlockDef ht block blockDef)
      (Function.update blocks block (some blockDef)) := by
  intro other otherInside
  rw [nirPhiBuilderValueSetBlockDef]
  by_cases same : other = block
  · rw [same, Function.update_self, Function.update_self]
  · have apart : indexToKey other ≠ indexToKey block := fun keys =>
      same (indexToKey_inj (by omega) (by omega) keys)
    rw [Function.update_of_ne apart, Function.update_of_ne same]
    exact represents other otherInside

/-- The two worklists differ in the tables only. -/
structure SameWork (numBlocks : Nat) (state other : Worklist Val) : Prop where
  represents : Represents numBlocks state.ht other.ht
  work : state.work = other.work
  queue : state.queue = other.queue

theorem SameWork.visit {state other : Worklist Val} (same : SameWork numBlocks state other)
    (few : numBlocks ≤ 2 ^ 30) {next : Nat} (inside : next < numBlocks) :
    SameWork numBlocks (HashTable.visit numBlocks state next) (other.visit numBlocks next) := by
  have known := same.represents next inside
  rw [HashTable.visit, Worklist.visit, if_neg inside.ne, if_neg inside.ne, known]
  split
  · exact same
  · constructor
    · exact same.represents.set few inside .needsPhi
    · show Function.update state.work next true = _
      rw [same.work]
    · show (if state.work next then state.queue else state.queue ++ [next]) = _
      rw [same.work, same.queue]

theorem SameWork.foldl_visit {state other : Worklist Val} (same : SameWork numBlocks state other)
    (few : numBlocks ≤ 2 ^ 30) {pending : List Nat} (inside : ∀ next ∈ pending, next < numBlocks) :
    SameWork numBlocks (pending.foldl (HashTable.visit numBlocks) state)
      (pending.foldl (Worklist.visit numBlocks) other) := by
  induction pending generalizing state other with
  | nil => exact same
  | cons next pending inductionHypothesis =>
    apply inductionHypothesis (same.visit few (inside next List.mem_cons_self))
    intro later member
    exact inside later (List.mem_cons_of_mem _ member)

theorem SameWork.run {domFrontier : Nat → List Nat} {room : Nat} {state other : Worklist Val}
    (same : SameWork numBlocks state other) (few : numBlocks ≤ 2 ^ 30)
    (inside : ∀ block, ∀ next ∈ domFrontier block, next < numBlocks)
    (runs : other.run numBlocks domFrontier room = some blocks) :
    ∃ ht, HashTable.run numBlocks domFrontier room state = some ht ∧
      Represents numBlocks ht blocks := by
  induction room generalizing state other with
  | zero =>
    rw [HashTable.run.eq_def]
    rw [Worklist.run.eq_def] at runs
    dsimp only at runs ⊢
    rw [same.queue]
    cases queue : other.queue with
    | nil =>
      rw [queue] at runs
      exact ⟨state.ht, rfl, Option.some.inj runs ▸ same.represents⟩
    | cons cur rest =>
      rw [queue] at runs
      cases runs
  | succ room inductionHypothesis =>
    rw [HashTable.run.eq_def]
    rw [Worklist.run.eq_def] at runs
    dsimp only at runs ⊢
    rw [same.queue]
    cases queue : other.queue with
    | nil =>
      rw [queue] at runs
      exact ⟨state.ht, rfl, Option.some.inj runs ▸ same.represents⟩
    | cons cur rest =>
      rw [queue] at runs
      have popped : SameWork numBlocks { state with queue := rest } { other with queue := rest } :=
        ⟨same.represents, same.work, rfl⟩
      exact inductionHypothesis (popped.foldl_visit few (inside cur)) runs

theorem exists_nirPhiBuilderAddValue {domFrontier : Nat → List Nat} {defs : Nat → Bool}
    (few : numBlocks ≤ 2 ^ 30)
    (inside : ∀ block, ∀ next ∈ domFrontier block, next < numBlocks)
    (added : addValue numBlocks domFrontier defs = some blocks) :
    ∃ ht, nirPhiBuilderAddValue numBlocks domFrontier defs = some ht ∧
      Represents numBlocks ht blocks :=
  SameWork.run ⟨fun _ _ => rfl, rfl, rfl⟩ few inside added

theorem Represents.setStored (represents : Represents numBlocks ht blocks)
    (few : numBlocks ≤ 2 ^ 30) (defs : Nat → Bool) (value : Nat → Val) :
    Represents numBlocks (ht.setStored numBlocks defs value)
      (setBlockDefs blocks value ((List.range numBlocks).filter defs)) := by
  have inside : ∀ block ∈ (List.range numBlocks).filter defs, block < numBlocks :=
    fun block member => List.mem_range.mp (List.mem_filter.mp member).1
  rw [HashTable.setStored, setBlockDefs]
  generalize (List.range numBlocks).filter defs = stores at inside
  induction stores generalizing ht blocks with
  | nil => exact represents
  | cons block stores inductionHypothesis =>
    exact inductionHypothesis (represents.set few (inside block List.mem_cons_self) _)
      fun later member => inside later (List.mem_cons_of_mem _ member)

/-! ## Lookups -/

/-- Crawls from blocks of the function go over blocks of the function. -/
theorem Represents.crawl_eq (represents : Represents numBlocks ht blocks)
    (descends : Descends immDom) {fuel block : Nat} (inside : block < numBlocks) :
    HashTable.crawl immDom ht fuel block = crawl immDom blocks fuel block := by
  induction fuel generalizing block with
  | zero =>
    rw [HashTable.crawl.eq_def, crawl.eq_def]
    dsimp only
    rw [represents block inside]
    cases parent : immDom block <;> rfl
  | succ fuel inductionHypothesis =>
    rw [HashTable.crawl.eq_def, crawl.eq_def]
    dsimp only
    rw [represents block inside]
    cases parent : immDom block with
    | none => rfl
    | some up =>
      have lower := descends parent
      simp only [inductionHypothesis (lower.trans inside)]

theorem lt_of_crawl (descends : Descends immDom) {fuel block dom : Nat}
    (crawls : crawl immDom blocks fuel block = some (some dom)) : dom ≤ block := by
  induction fuel generalizing block with
  | zero =>
    rw [crawl.eq_def] at crawls
    dsimp only at crawls
    split_ifs at crawls
    · exact (Option.some.inj (Option.some.inj crawls)).ge
    · cases parent : immDom block <;> simp [parent] at crawls
  | succ fuel inductionHypothesis =>
    rw [crawl.eq_def] at crawls
    dsimp only at crawls
    split_ifs at crawls
    · exact (Option.some.inj (Option.some.inj crawls)).ge
    · cases parent : immDom block with
      | none => simp [parent] at crawls
      | some up =>
        rw [parent] at crawls
        exact (inductionHypothesis crawls).trans (descends parent).le

/-- The values differ in the tables only. -/
structure SameValue (numBlocks : Nat) (value : PhiBuilderValue Val) (other : BuilderValue Val) :
    Prop where
  represents : Represents numBlocks value.ht other.ht
  phis : value.phis = other.phis

variable {value : PhiBuilderValue Val} {other : BuilderValue Val}

theorem SameValue.take (same : SameValue numBlocks value other) (few : numBlocks ≤ 2 ^ 30)
    {dom : Option Nat} (inside : ∀ block ∈ dom, block < numBlocks) {result : NirDef Val}
    {other' : BuilderValue Val} (takes : other.take dom = some (result, other')) :
    ∃ value', HashTable.take value dom = some (result, value') ∧
      SameValue numBlocks value' other' := by
  cases dom with
  | none =>
    cases takes
    exact ⟨value, rfl, same⟩
  | some dom =>
    have known := same.represents dom (inside dom rfl)
    rw [BuilderValue.take, Option.elim_some] at takes
    rw [HashTable.take, Option.elim_some, known]
    cases found : other.ht dom with
    | none =>
      rw [found] at takes
      cases takes
    | some blockDef =>
      rw [found] at takes
      cases blockDef with
      | needsPhi =>
        cases takes
        refine ⟨_, rfl, same.represents.set few (inside dom rfl) _, ?_⟩
        show value.phis ++ [dom] = other.phis ++ [dom]
        rw [same.phis]
      | ssaDef found =>
        cases takes
        exact ⟨value, rfl, same⟩

theorem Represents.stash (represents : Represents numBlocks ht blocks) (few : numBlocks ≤ 2 ^ 30)
    (descends : Descends immDom) {fuel block : Nat} (inside : block < numBlocks)
    {result : NirDef Val} {blocks' : BlockTable Val}
    (stashes : PhiBuilder.stash immDom result fuel block blocks = some blocks') :
    ∃ ht', HashTable.stash immDom result fuel block ht = some ht' ∧
      Represents numBlocks ht' blocks' := by
  induction fuel generalizing block ht blocks with
  | zero =>
    rw [PhiBuilder.stash.eq_def] at stashes
    rw [HashTable.stash.eq_def]
    dsimp only at stashes ⊢
    rw [represents block inside]
    split_ifs at stashes ⊢
    · exact ⟨ht, rfl, Option.some.inj stashes ▸ represents⟩
    · cases parent : immDom block with
      | none =>
        rw [parent] at stashes
        exact ⟨_, rfl, Option.some.inj stashes ▸ represents.set few inside _⟩
      | some up =>
        rw [parent] at stashes
        cases stashes
  | succ fuel inductionHypothesis =>
    rw [PhiBuilder.stash.eq_def] at stashes
    rw [HashTable.stash.eq_def]
    dsimp only at stashes ⊢
    rw [represents block inside]
    split_ifs at stashes ⊢
    · exact ⟨ht, rfl, Option.some.inj stashes ▸ represents⟩
    · cases parent : immDom block with
      | none =>
        rw [parent] at stashes
        exact ⟨_, rfl, Option.some.inj stashes ▸ represents.set few inside _⟩
      | some up =>
        rw [parent] at stashes
        exact inductionHypothesis (represents.set few inside _) ((descends parent).trans inside)
          stashes

theorem SameValue.get (same : SameValue numBlocks value other) (few : numBlocks ≤ 2 ^ 30)
    (descends : Descends immDom) {block : Nat} (inside : block < numBlocks) {result : NirDef Val}
    {other' : BuilderValue Val}
    (gets : getBlockDef immDom other block = some (result, other')) :
    ∃ value', nirPhiBuilderValueGetBlockDef immDom value block = some (result, value') ∧
      SameValue numBlocks value' other' := by
  simp only [getBlockDef, Option.bind_eq_bind, Option.bind_eq_some_iff, Option.some.injEq,
    Prod.mk.injEq, Prod.exists] at gets
  obtain ⟨dom, crawls, found, taken, takes, blocks', stashes, rfl, rfl⟩ := gets
  have domInside : ∀ closest ∈ dom, closest < numBlocks := by
    rintro closest rfl
    exact (lt_of_crawl descends crawls).trans_lt inside
  obtain ⟨value', takes', sameTaken⟩ := same.take few domInside takes
  obtain ⟨ht', stashes', represents⟩ := sameTaken.represents.stash few descends inside stashes
  refine ⟨{ value' with ht := ht' }, ?_, represents, sameTaken.phis⟩
  simp [nirPhiBuilderValueGetBlockDef, same.represents.crawl_eq descends inside, crawls, takes',
    stashes']

theorem SameValue.lookUp (same : SameValue numBlocks value other) (few : numBlocks ≤ 2 ^ 30)
    (descends : Descends immDom) {lookups : List Nat}
    (inside : ∀ block ∈ lookups, block < numBlocks) {results : List (NirDef Val)}
    {other' : BuilderValue Val}
    (gets : getBlockDefs immDom other lookups = some (results, other')) :
    ∃ value', HashTable.lookUp immDom value lookups = some (results, value') ∧
      SameValue numBlocks value' other' := by
  induction lookups generalizing value other results with
  | nil =>
    cases gets
    exact ⟨value, rfl, same⟩
  | cons block lookups inductionHypothesis =>
    simp only [getBlockDefs, Option.bind_eq_bind, Option.bind_eq_some_iff, Option.some.injEq,
      Prod.mk.injEq, Prod.exists] at gets
    obtain ⟨result, next, first, rest, last, later, rfl, rfl⟩ := gets
    obtain ⟨value', first', same'⟩ := same.get few descends (inside block List.mem_cons_self) first
    obtain ⟨value'', later', same''⟩ := inductionHypothesis same'
      (fun later member => inside later (List.mem_cons_of_mem _ member)) later
    refine ⟨value'', ?_, same''⟩
    simp [HashTable.lookUp, first', later']

theorem Represents.blocks_eq (represents : Represents numBlocks ht blocks)
    (none_ : ∀ block, numBlocks ≤ block → blocks block = none) : ht.blocks numBlocks = blocks := by
  funext block
  rw [HashTable.blocks]
  split_ifs with inside
  · exact represents block inside
  · exact (none_ block (Nat.not_lt.mp inside)).symm

end Simulation

section Placement

variable {cfg : Cfg} {body : CfList} {successors : Successors}

theorem PlacesPhis.eq_none {defs : Nat → Bool} {blocks : BlockTable Val}
    (places : PlacesPhis cfg defs blocks) {block : Nat} (outside : cfg.numBlocks ≤ block) :
    blocks block = none := by
  apply (places block).2
  rintro (⟨small, isDef, frontier⟩ | ⟨merges, frontier⟩)
  · exact absurd (lt_of_inFrontier frontier) (Nat.not_lt.mpr outside)
  · exact absurd (lt_of_inFrontier frontier) (Nat.not_lt.mpr outside)

theorem storedDefs_eq_none {defs : Nat → Bool} {blocks : BlockTable Val}
    (places : PlacesPhis cfg defs blocks) (value : Nat → Val) {block : Nat}
    (outside : cfg.numBlocks ≤ block) : storedDefs cfg blocks defs value block = none := by
  have notStored : block ∉ (List.range cfg.numBlocks).filter defs := fun member =>
    absurd (List.mem_range.mp (List.mem_filter.mp member).1) (Nat.not_lt.mpr outside)
  rw [storedDefs, setBlockDefs_apply, if_neg notStored, places.eq_none outside]

/-- The phi builder on a structured function of which the blocks have keys of their own: the
worklist does not overflow, the phis are placed where the value merges, and after the values of the
stores are set, every lookup in a block finds, on whatever walk control came there, the value of the
last block that stored or the phi of the last block in which the value merged. At most one phi is
created for a block. -/
theorem nirPhiBuilder_correct (hasCfg : body.HasCfg successors cfg)
    (few : cfg.numBlocks ≤ 2 ^ 30) (defs : Nat → Bool) (value : Nat → Val) :
    ∃ metadata, nirCalcDominanceImpl cfg = some metadata ∧
      ∀ domFrontier : Nat → List Nat,
        (∀ block, (domFrontier block).toFinset = metadata.domFrontier block) →
        ∃ ht stored : HashTable Val,
          nirPhiBuilderAddValue cfg.numBlocks domFrontier defs = some ht ∧
          PlacesPhis cfg defs (ht.blocks cfg.numBlocks) ∧
          stored = ht.setStored cfg.numBlocks defs value ∧
          ∀ lookups, (∀ block ∈ lookups, block < cfg.numBlocks) → ∃ results value',
            HashTable.lookUp metadata.immDom ⟨stored, []⟩ lookups = some (results, value') ∧
              (value'.phis.Nodup ∧ ∀ block ∈ value'.phis, Merges cfg defs block) ∧
              List.Forall₂ (fun block result => ∀ visited, Walk cfg.Edge 0 block visited →
                result = defOf (stored.blocks cfg.numBlocks)
                  (lastEntry (stored.blocks cfg.numBlocks) visited)) lookups results := by
  have fits : 2 * cfg.numBlocks + 1 ≤ uint32Max - 2 := by
    have bound : 2 * 2 ^ 30 + 1 ≤ uint32Max - 2 := by decide
    omega
  obtain ⟨metadata, calculated, placed⟩ := placement_correct hasCfg fits defs value
  obtain ⟨same, calculated', correct⟩ := nirCalcDominanceImpl_ordered hasCfg.ordered fits
  obtain rfl : metadata = same := Option.some.inj (calculated.symm.trans calculated')
  refine ⟨metadata, calculated, fun domFrontier order => ?_⟩
  obtain ⟨blocks, added, places, finds⟩ := placed domFrontier order
  obtain ⟨immDom, tree, isTree⟩ := exists_tree hasCfg.ordered calculated
  have descends : Descends metadata.immDom := isTree ▸ descends_of_tree tree
  have inside : ∀ block, ∀ next ∈ domFrontier block, next < cfg.numBlocks := by
    intro block next member
    rw [← List.mem_toFinset, order, correct.mem_domFrontier_iff] at member
    exact lt_of_inFrontier member
  obtain ⟨ht, isTable, represents⟩ := exists_nirPhiBuilderAddValue few inside added
  have storedRepresents := represents.setStored few defs value
  refine ⟨ht, ht.setStored cfg.numBlocks defs value, isTable, ?_, rfl, ?_⟩
  · rw [represents.blocks_eq fun block outside => places.eq_none outside]
    exact places
  · intro lookups lookupsInside
    rw [storedRepresents.blocks_eq fun block outside => storedDefs_eq_none places value outside]
    obtain ⟨results, other, gets, ⟨nodup, merges⟩, found⟩ := finds lookups
    have start : SameValue cfg.numBlocks ⟨ht.setStored cfg.numBlocks defs value, []⟩
        ⟨storedDefs cfg blocks defs value, []⟩ := ⟨storedRepresents, rfl⟩
    obtain ⟨value', looks, same⟩ := start.lookUp few descends lookupsInside gets
    refine ⟨results, value', looks, ?_, found⟩
    rw [same.phis]
    exact ⟨nodup, merges⟩

end Placement

/-- A value that is stored in the loop merges at its first block. -/
example : (nirPhiBuilderAddValue 6 (fun block => if block ∈ [1, 3, 4] then [1] else [])
    (· == 3) : Option (HashTable Nat)).map (fun ht => (List.range 6).map (ht.blocks 6)) =
      some [none, some .needsPhi, none, none, none, none] := by decide

theorem nirPhiBuilder_correct_leavingLoop :
    ∃ metadata, nirCalcDominanceImpl leavingLoopCfg = some metadata ∧
      ∀ domFrontier : Nat → List Nat,
        (∀ block, (domFrontier block).toFinset = metadata.domFrontier block) →
        ∃ ht stored : HashTable Nat,
          nirPhiBuilderAddValue 6 domFrontier (· == 3) = some ht ∧
          PlacesPhis leavingLoopCfg (· == 3) (ht.blocks 6) ∧
          stored = ht.setStored 6 (· == 3) id ∧
          ∀ lookups, (∀ block ∈ lookups, block < 6) → ∃ results value',
            HashTable.lookUp metadata.immDom ⟨stored, []⟩ lookups = some (results, value') ∧
              (value'.phis.Nodup ∧ ∀ block ∈ value'.phis, Merges leavingLoopCfg (· == 3) block) ∧
              List.Forall₂ (fun block result => ∀ visited,
                Walk leavingLoopCfg.Edge 0 block visited →
                  result = defOf (stored.blocks 6) (lastEntry (stored.blocks 6) visited))
                lookups results :=
  nirPhiBuilder_correct leavingLoop_hasCfg (by decide) (· == 3) id

end SpirvToDxil.Nir.PhiBuilder
