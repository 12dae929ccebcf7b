import SpirvToDxil.Nir.BlockOrder

/-!
# The placement of phis

`nir_phi_builder_add_value`, `nir_phi_builder_value_set_block_def` and
`nir_phi_builder_value_get_block_def` on a table that has an entry for each block. A value is
something that is stored in several blocks; phis for it are placed at the iterated dominance
frontier of these blocks, and what it is at the end of a block is found at the closest dominator
that has an entry. The instructions themselves are left out: a phi is the block that it is for.
-/

namespace SpirvToDxil.Nir.PhiBuilder

open FlowGraph Dominance

inductive NirDef (Val : Type) where
  | stored (value : Val)
  | phi (block : Nat)
  | undef
  deriving DecidableEq, Repr

inductive BlockDef (Val : Type) where
  | needsPhi
  | ssaDef (result : NirDef Val)
  deriving DecidableEq, Repr

variable {Val : Type}

abbrev BlockTable (Val : Type) := Nat → Option (BlockDef Val)

/-- The worklist: `work` tells which blocks were put on it, `queue` is what is left of it. -/
structure Worklist (Val : Type) where
  ht : BlockTable Val
  work : Nat → Bool
  queue : List Nat

def Worklist.visit (endBlock : Nat) (state : Worklist Val) (next : Nat) : Worklist Val :=
  if next = endBlock then state
  else if (state.ht next).isSome then state
  else
    { ht := Function.update state.ht next (some .needsPhi)
      work := Function.update state.work next true
      queue := if state.work next then state.queue else state.queue ++ [next] }

/-- `while (w_start != w_end)`; the array has room for every block once. -/
def Worklist.run (endBlock : Nat) (domFrontier : Nat → List Nat) :
    Nat → Worklist Val → Option (BlockTable Val)
  | room, state =>
    match state.queue, room with
    | [], _ => some state.ht
    | _ :: _, 0 => none
    | cur :: queue, room + 1 =>
      run endBlock domFrontier room
        ((domFrontier cur).foldl (visit endBlock) { state with queue := queue })

def Worklist.init (numBlocks : Nat) (defs : Nat → Bool) : Worklist Val where
  ht _ := none
  work block := block < numBlocks && defs block
  queue := (List.range numBlocks).filter defs

/-- The table of a value that is stored in the blocks `defs`. The end block has the index
`numBlocks`, and `domFrontier` gives the frontiers in the order of `set_foreach`. -/
def addValue (numBlocks : Nat) (domFrontier : Nat → List Nat) (defs : Nat → Bool) :
    Option (BlockTable Val) :=
  Worklist.run numBlocks domFrontier numBlocks (.init numBlocks defs)

def setBlockDef (ht : BlockTable Val) (block : Nat) (result : NirDef Val) :
    BlockTable Val :=
  Function.update ht block (some (.ssaDef result))

structure BuilderValue (Val : Type) where
  ht : BlockTable Val
  /-- The blocks of the phis that were created, in this order. -/
  phis : List Nat

/-- `while (dom != NULL)`: the closest dominator with an entry. It is `none` where the crawl is not
over after the steps that it is given. -/
def crawl (immDom : ImmDom) (ht : BlockTable Val) : Nat → Nat → Option (Option Nat)
  | fuel, dom =>
    if (ht dom).isSome then some (some dom)
    else
      match immDom dom, fuel with
      | none, _ => some none
      | some _, 0 => none
      | some up, fuel + 1 => crawl immDom ht fuel up

def BuilderValue.take (value : BuilderValue Val) (dom : Option Nat) :
    Option (NirDef Val × BuilderValue Val) :=
  dom.elim (some (.undef, value)) fun dom =>
    match value.ht dom with
    -- the assertion that the crawl ended at an entry
    | none => none
    | some .needsPhi =>
      some (.phi dom,
        { ht := setBlockDef value.ht dom (.phi dom)
          phis := value.phis ++ [dom] })
    | some (.ssaDef result) => some (result, value)

def stash (immDom : ImmDom) (result : NirDef Val) :
    Nat → Nat → BlockTable Val → Option (BlockTable Val)
  | fuel, dom, ht =>
    if (ht dom).isSome then some ht
    else
      match immDom dom, fuel with
      | none, _ => some (setBlockDef ht dom result)
      | some _, 0 => none
      | some up, fuel + 1 =>
        stash immDom result fuel up (setBlockDef ht dom result)

def getBlockDef (immDom : ImmDom) (value : BuilderValue Val) (block : Nat) :
    Option (NirDef Val × BuilderValue Val) := do
  let dom ← crawl immDom value.ht block block
  let (result, value) ← value.take dom
  let ht ← stash immDom result block block value.ht
  some (result, { value with ht := ht })

def getBlockDefs (immDom : ImmDom) :
    BuilderValue Val → List Nat → Option (List (NirDef Val) × BuilderValue Val)
  | value, [] => some ([], value)
  | value, block :: blocks => do
    let (result, value) ← getBlockDef immDom value block
    let (results, value) ← getBlockDefs immDom value blocks
    some (result :: results, value)

/-! ## The iterated frontier -/

/-- Blocks in which a value that is stored in the blocks `defs` can come from several sides. -/
inductive Merges (cfg : Cfg) (defs : Nat → Bool) : Nat → Prop
  | stored {block next : Nat} (small : block < cfg.numBlocks) (isDef : defs block = true)
      (frontier : cfg.InFrontier block next) : Merges cfg defs next
  | merged {block next : Nat} (merges : Merges cfg defs block)
      (frontier : cfg.InFrontier block next) : Merges cfg defs next

/-- The table has phis for the blocks in which the value merges, and nothing else. -/
def PlacesPhis (cfg : Cfg) (defs : Nat → Bool) (ht : BlockTable Val) : Prop :=
  ∀ block, (Merges cfg defs block → ht block = some .needsPhi) ∧
    (¬ Merges cfg defs block → ht block = none)

section Worklist

variable {cfg : Cfg} {defs : Nat → Bool} {domFrontier : Nat → List Nat}

theorem lt_of_inFrontier {block next : Nat} (frontier : cfg.InFrontier block next) :
    next < cfg.numBlocks := by
  obtain ⟨⟨pred, steps, -⟩, -⟩ := frontier
  exact steps.1

def Worklist.idle (cfg : Cfg) (state : Worklist Val) : Finset Nat :=
  (Finset.range cfg.numBlocks).filter fun block => state.work block = false

/-- What is true of the worklist while the frontier of `cur` is visited, of which `pending` is
left. -/
structure Worklist.Valid (cfg : Cfg) (defs : Nat → Bool) (domFrontier : Nat → List Nat)
    (cur : Nat) (pending : List Nat) (state : Worklist Val) : Prop where
  entries {block : Nat} : (state.ht block).isSome → state.ht block = some .needsPhi
  merges {block : Nat} : (state.ht block).isSome → Merges cfg defs block
  stored {block : Nat} : block < cfg.numBlocks → defs block = true → state.work block = true
  worked {block : Nat} : (state.ht block).isSome → state.work block = true
  origin {block : Nat} : state.work block = true →
    block < cfg.numBlocks ∧ (defs block = true ∨ Merges cfg defs block)
  queued {block : Nat} : block ∈ state.queue → state.work block = true
  complete {block next : Nat} : state.work block = true → block ∉ state.queue →
    next ∈ domFrontier block →
    (state.ht next).isSome ∨ block = cur ∧ next ∈ pending

theorem Worklist.Valid.init :
    (Worklist.init cfg.numBlocks defs : Worklist Val).Valid cfg defs domFrontier 0 [] where
  entries entry := absurd entry Bool.false_ne_true
  merges entry := absurd entry Bool.false_ne_true
  stored small isDef := by
    simp [Worklist.init, small, isDef]
  worked entry := absurd entry Bool.false_ne_true
  origin isWork := by
    simp only [Worklist.init, Bool.and_eq_true, decide_eq_true_eq] at isWork
    exact ⟨isWork.1, Or.inl isWork.2⟩
  queued member := by
    simp only [Worklist.init, List.mem_filter, List.mem_range] at member
    simp [Worklist.init, member]
  complete {block next} isWork outside _ := by
    simp only [Worklist.init, Bool.and_eq_true, decide_eq_true_eq] at isWork
    simp only [Worklist.init, List.mem_filter, List.mem_range] at outside
    exact absurd isWork outside

theorem Worklist.size_push (state : Worklist Val) (ht : BlockTable Val) {next : Nat}
    (small : next < cfg.numBlocks) :
    (if state.work next then state.queue else state.queue ++ [next]).length +
        (Worklist.idle cfg
          { ht := ht
            work := Function.update state.work next true
            queue := if state.work next then state.queue else state.queue ++ [next] }).card =
      state.queue.length + (state.idle cfg).card := by
  by_cases old : state.work next = true
  · have same : Function.update state.work next true = state.work := by
      rw [← old, Function.update_eq_self]
    simp only [Worklist.idle, same, old, if_true]
  · have erased : (Finset.range cfg.numBlocks).filter
        (fun block => Function.update state.work next true block = false) =
          (state.idle cfg).erase next := by
      ext block
      by_cases same : block = next
      · simp [same]
      · simp [Worklist.idle, same]
    have member : next ∈ state.idle cfg := by
      simpa [Worklist.idle, small] using old
    have positive := Finset.card_pos.mpr ⟨next, member⟩
    simp only [Worklist.idle] at erased member positive ⊢
    rw [erased, if_neg old, List.length_append, List.length_singleton,
      Finset.card_erase_of_mem member]
    omega

theorem Worklist.Valid.visit {cur next : Nat} {pending : List Nat} {state : Worklist Val}
    (valid : state.Valid cfg defs domFrontier cur (next :: pending))
    (isWork : state.work cur = true) (frontier : cfg.InFrontier cur next) :
    (state.visit cfg.numBlocks next).Valid cfg defs domFrontier cur pending ∧
      (state.visit cfg.numBlocks next).work cur = true ∧
      (state.visit cfg.numBlocks next).queue.length +
          ((state.visit cfg.numBlocks next).idle cfg).card =
        state.queue.length + (state.idle cfg).card := by
  have small := lt_of_inFrontier frontier
  rw [Worklist.visit, if_neg small.ne]
  by_cases known : (state.ht next).isSome
  · rw [if_pos known]
    refine ⟨{ valid with complete := ?_ }, isWork, rfl⟩
    intro block other isWork outside member
    obtain entry | ⟨rfl, within⟩ := valid.complete isWork outside member
    · exact Or.inl entry
    · obtain rfl | later := List.mem_cons.mp within
      · exact Or.inl known
      · exact Or.inr ⟨rfl, later⟩
  rw [if_neg known]
  have merges : Merges cfg defs next := by
    obtain ⟨inside, isDef | merges⟩ := valid.origin isWork
    · exact .stored inside isDef frontier
    · exact .merged merges frontier
  refine ⟨?_, ?_, ?_⟩
  · constructor
    case entries =>
      intro block entry
      by_cases same : block = next
      · simp [same]
      · simpa [same] using valid.entries (by simpa [same] using entry)
    case merges =>
      intro block entry
      by_cases same : block = next
      · exact same ▸ merges
      · exact valid.merges (by simpa [same] using entry)
    case stored =>
      intro block inside isDef
      by_cases same : block = next
      · simp [same]
      · simpa [same] using valid.stored inside isDef
    case worked =>
      intro block entry
      by_cases same : block = next
      · simp [same]
      · simpa [same] using valid.worked (by simpa [same] using entry)
    case origin =>
      intro block isWork
      by_cases same : block = next
      · exact same ▸ ⟨small, Or.inr merges⟩
      · exact valid.origin (by simpa [same] using isWork)
    case queued =>
      intro block member
      by_cases same : block = next
      · simp [same]
      · have before : block ∈ state.queue := by
          dsimp only at member
          split at member
          · exact member
          · simpa [same] using member
        simpa [same] using valid.queued before
    case complete =>
      intro block other isWork' outside member
      by_cases found : other = next
      · exact Or.inl (by simp [found])
      -- a block that is new on the worklist is in the queue
      have before : state.work block = true ∧ block ∉ state.queue := by
        dsimp only at outside isWork'
        by_cases same : block = next
        · subst same
          split at outside
          next old => exact ⟨old, outside⟩
          next => exact absurd (List.mem_append_right _ (List.mem_singleton_self _)) outside
        · refine ⟨by simpa [same] using isWork', fun queued => outside ?_⟩
          split
          · exact queued
          · exact List.mem_append_left _ queued
      obtain entry | ⟨rfl, within⟩ := valid.complete before.1 before.2 member
      · exact Or.inl (by simpa [found] using entry)
      · exact Or.inr ⟨rfl, (List.mem_cons.mp within).resolve_left found⟩
  · by_cases same : cur = next
    · simp [same]
    · simpa [same] using isWork
  · exact Worklist.size_push state _ small

theorem Worklist.Valid.foldl_visit {cur : Nat} {pending : List Nat} {state : Worklist Val}
    (valid : state.Valid cfg defs domFrontier cur pending) (isWork : state.work cur = true)
    (frontier : ∀ next ∈ pending, cfg.InFrontier cur next) :
    (pending.foldl (Worklist.visit cfg.numBlocks) state).Valid cfg defs domFrontier cur [] ∧
      (pending.foldl (Worklist.visit cfg.numBlocks) state).queue.length +
          ((pending.foldl (Worklist.visit cfg.numBlocks) state).idle cfg).card =
        state.queue.length + (state.idle cfg).card := by
  induction pending generalizing state with
  | nil => exact ⟨valid, rfl⟩
  | cons next pending inductionHypothesis =>
    obtain ⟨here, isWork', size⟩ := valid.visit isWork (frontier next List.mem_cons_self)
    obtain ⟨valid', size'⟩ := inductionHypothesis here isWork' fun other member =>
      frontier other (List.mem_cons_of_mem _ member)
    exact ⟨valid', size'.trans size⟩

/-- The next block of the worklist is `cur` now, and all of its frontier is left. -/
theorem Worklist.Valid.pop {last cur : Nat} {queue : List Nat} {state : Worklist Val}
    (valid : state.Valid cfg defs domFrontier last []) (next : state.queue = cur :: queue) :
    ({ state with queue := queue } : Worklist Val).Valid cfg defs domFrontier cur
      (domFrontier cur) where
  entries := valid.entries
  merges := valid.merges
  stored := valid.stored
  worked := valid.worked
  origin := valid.origin
  queued member := valid.queued (next ▸ List.mem_cons_of_mem _ member)
  complete {block other} isWork outside member := by
    by_cases same : block = cur
    · exact Or.inr ⟨same, same ▸ member⟩
    · have before : block ∉ state.queue := by
        rw [next]
        exact List.not_mem_cons_of_ne_of_not_mem same outside
      obtain entry | ⟨-, none⟩ := valid.complete isWork before member
      · exact Or.inl entry
      · exact absurd none List.not_mem_nil

theorem Worklist.Valid.placesPhis {last : Nat} {state : Worklist Val}
    (valid : state.Valid cfg defs domFrontier last []) (done : state.queue = [])
    (enumerates : ∀ block next, next ∈ domFrontier block ↔ cfg.InFrontier block next) :
    PlacesPhis cfg defs state.ht := by
  have closed {cur next : Nat} (isWork : state.work cur = true)
      (frontier : cfg.InFrontier cur next) : (state.ht next).isSome := by
    have outside : cur ∉ state.queue := by simp [done]
    obtain entry | ⟨-, none⟩ :=
      valid.complete isWork outside ((enumerates cur next).mpr frontier)
    · exact entry
    · exact absurd none List.not_mem_nil
  refine fun block => ⟨fun merges => valid.entries ?_, fun single => ?_⟩
  case refine_2 => exact Option.not_isSome_iff_eq_none.mp fun entry => single (valid.merges entry)
  induction merges with
  | stored small isDef frontier => exact closed (valid.stored small isDef) frontier
  | merged _ frontier inductionHypothesis =>
    exact closed (valid.worked inductionHypothesis) frontier

theorem Worklist.run_done {endBlock room : Nat} {state : Worklist Val} (done : state.queue = []) :
    state.run endBlock domFrontier room = some state.ht := by
  unfold Worklist.run
  rw [done]

theorem Worklist.run_cons {endBlock room cur : Nat} {queue : List Nat} {state : Worklist Val}
    (next : state.queue = cur :: queue) :
    state.run endBlock domFrontier (room + 1) =
      ((domFrontier cur).foldl (Worklist.visit endBlock) { state with queue := queue }).run
        endBlock domFrontier room := by
  rw [Worklist.run.eq_def]
  simp only [next]

theorem Worklist.Valid.run {last room : Nat} {state : Worklist Val}
    (valid : state.Valid cfg defs domFrontier last [])
    (enumerates : ∀ block next, next ∈ domFrontier block ↔ cfg.InFrontier block next)
    (fits : state.queue.length + (state.idle cfg).card ≤ room) :
    ∃ ht, state.run cfg.numBlocks domFrontier room = some ht ∧
      PlacesPhis cfg defs ht := by
  induction room generalizing state last with
  | zero =>
    have done : state.queue = [] := List.eq_nil_of_length_eq_zero (by omega)
    exact ⟨state.ht, Worklist.run_done done, valid.placesPhis done enumerates⟩
  | succ room inductionHypothesis =>
    cases next : state.queue with
    | nil =>
      exact ⟨state.ht, Worklist.run_done next, valid.placesPhis next enumerates⟩
    | cons cur queue =>
      have isWork : state.work cur = true := valid.queued (next ▸ List.mem_cons_self)
      obtain ⟨valid', size⟩ := (valid.pop next).foldl_visit isWork fun other member =>
        (enumerates cur other).mp member
      rw [next, List.length_cons] at fits
      have popped : ({ state with queue := queue } : Worklist Val).idle cfg = state.idle cfg := rfl
      rw [popped] at size
      dsimp only at size
      obtain ⟨ht, runs, spec⟩ := inductionHypothesis valid' (by omega)
      exact ⟨ht, (Worklist.run_cons next).trans runs, spec⟩

/-- There is room for every block that is put on the worklist, and the phis are needed at the
iterated frontier of the blocks that store. -/
theorem addValue_spec (defs : Nat → Bool)
    (enumerates : ∀ block next, next ∈ domFrontier block ↔ cfg.InFrontier block next) :
    ∃ ht : BlockTable Val, addValue cfg.numBlocks domFrontier defs = some ht ∧
      PlacesPhis cfg defs ht := by
  refine Worklist.Valid.run .init enumerates ?_
  have queued : (Worklist.init cfg.numBlocks defs : Worklist Val).queue.length =
      ((Finset.range cfg.numBlocks).filter fun block => defs block = true).card := by
    rw [Worklist.init, ← List.toFinset_card_of_nodup (List.nodup_range.filter _)]
    congr 1
    ext block
    simp
  have idle : (Worklist.init cfg.numBlocks defs : Worklist Val).idle cfg =
      (Finset.range cfg.numBlocks).filter fun block => ¬ defs block = true := by
    ext block
    by_cases small : block < cfg.numBlocks <;> simp [Worklist.idle, Worklist.init, small]
  rw [queued, idle, Finset.card_filter_add_card_filter_not, Finset.card_range]

end Worklist

/-! ## The crawl -/

section Steps

variable {immDom : ImmDom} {ht : BlockTable Val} {block : Nat}

theorem crawl_of_entry {fuel : Nat} (entry : (ht block).isSome) :
    crawl immDom ht fuel block = some (some block) := by
  unfold crawl
  rw [if_pos entry]

theorem crawl_top {fuel : Nat} (entry : ¬ (ht block).isSome) (top : immDom block = none) :
    crawl immDom ht fuel block = some none := by
  unfold crawl
  rw [if_neg entry, top]

theorem crawl_up {fuel up : Nat} (entry : ¬ (ht block).isSome)
    (parent : immDom block = some up) :
    crawl immDom ht (fuel + 1) block = crawl immDom ht fuel up := by
  rw [crawl.eq_def]
  simp only [if_neg entry, parent]

def Descends (immDom : ImmDom) : Prop :=
  ∀ ⦃block up⦄, immDom block = some up → up < block

theorem crawl_fuel (descends : Descends immDom) {fuel : Nat} (enough : block ≤ fuel) :
    crawl immDom ht fuel block = crawl immDom ht block block := by
  induction block using Nat.strong_induction_on generalizing fuel with
  | _ block inductionHypothesis =>
    by_cases entry : (ht block).isSome
    · rw [crawl_of_entry entry, crawl_of_entry entry]
    cases parent : immDom block with
    | none => rw [crawl_top entry parent, crawl_top entry parent]
    | some up =>
      have lower := descends parent
      obtain ⟨fuel, rfl⟩ := Nat.exists_eq_succ_of_ne_zero (lower.trans_le enough).ne_bot
      obtain ⟨before, rfl⟩ := Nat.exists_eq_succ_of_ne_zero lower.ne_bot
      calc crawl immDom ht (fuel + 1) (before + 1)
        _ = crawl immDom ht fuel up := crawl_up entry parent
        _ = crawl immDom ht up up := inductionHypothesis up lower (by omega)
        _ = crawl immDom ht before up := (inductionHypothesis up lower (by omega)).symm
        _ = crawl immDom ht (before + 1) (before + 1) := (crawl_up entry parent).symm

theorem crawl_parent (descends : Descends immDom) {up : Nat} (entry : ¬ (ht block).isSome)
    (parent : immDom block = some up) :
    crawl immDom ht block block = crawl immDom ht up up := by
  have lower := descends parent
  obtain ⟨before, rfl⟩ := Nat.exists_eq_succ_of_ne_zero lower.ne_bot
  exact (crawl_up entry parent).trans (crawl_fuel descends (Nat.le_of_lt_succ lower))

theorem exists_crawl (descends : Descends immDom) (ht : BlockTable Val) (block : Nat) :
    ∃ dom, crawl immDom ht block block = some dom := by
  induction block using Nat.strong_induction_on with
  | _ block inductionHypothesis =>
    by_cases entry : (ht block).isSome
    · exact ⟨_, crawl_of_entry entry⟩
    cases parent : immDom block with
    | none => exact ⟨_, crawl_top entry parent⟩
    | some up =>
      rw [crawl_parent descends entry parent]
      exact inductionHypothesis up (descends parent)

end Steps

section Crawl

variable {cfg : Cfg} {ht : BlockTable Val}

/-- What a crawl from a block is to find: among the dominators with an entry, the one that all of
them dominate. -/
def IsClosest (cfg : Cfg) (ht : BlockTable Val) (block : Nat) : Option Nat → Prop
  | none => ∀ dominator, Dominates cfg.Edge 0 dominator block → ¬ (ht dominator).isSome
  | some closest => Dominates cfg.Edge 0 closest block ∧ (ht closest).isSome ∧
      ∀ dominator, Dominates cfg.Edge 0 dominator block → (ht dominator).isSome →
        Dominates cfg.Edge 0 dominator closest

/-- With the entries, their frontiers have entries. -/
def Closed (cfg : Cfg) (ht : BlockTable Val) : Prop :=
  ∀ ⦃block next⦄, (ht block).isSome → block < cfg.numBlocks → cfg.InFrontier block next →
    (ht next).isSome

/-- The last block of a walk that has an entry. -/
def lastEntry (ht : BlockTable Val) (visited : List Nat) : Option Nat :=
  visited.find? fun block => (ht block).isSome

theorem lastEntry_of_entry {block : Nat} {visited : List Nat} (entry : (ht block).isSome) :
    lastEntry ht (block :: visited) = some block :=
  List.find?_cons_of_pos entry

theorem lastEntry_of_none {block : Nat} {visited : List Nat} (entry : ¬ (ht block).isSome) :
    lastEntry ht (block :: visited) = lastEntry ht visited :=
  List.find?_cons_of_neg entry

theorem IsClosest.congr {block other : Nat} {closest : Option Nat}
    (isClosest : IsClosest cfg ht block closest)
    (same : ∀ dominator, (ht dominator).isSome →
      (Dominates cfg.Edge 0 dominator block ↔ Dominates cfg.Edge 0 dominator other)) :
    IsClosest cfg ht other closest := by
  cases closest with
  | none => exact fun dominator dominates entry =>
      isClosest dominator ((same dominator entry).mpr dominates) entry
  | some closest =>
    obtain ⟨dominates, entry, least⟩ := isClosest
    exact ⟨(same closest entry).mp dominates, entry, fun dominator dominates' entry' =>
      least dominator ((same dominator entry').mpr dominates') entry'⟩

theorem isClosest_self {block : Nat} (entry : (ht block).isSome) :
    IsClosest cfg ht block (some block) :=
  ⟨.refl block, entry, fun _ dominates _ => dominates⟩

theorem IsClosest.unique {block : Nat} {one two : Option Nat}
    (reachable : Reachable cfg.Edge 0 block) (first : IsClosest cfg ht block one)
    (second : IsClosest cfg ht block two) : one = two := by
  cases one with
  | none =>
    cases two with
    | none => rfl
    | some two => exact absurd second.2.1 (first two second.1)
  | some one =>
    cases two with
    | none => exact absurd first.2.1 (second one first.1)
    | some two =>
      obtain ⟨visited, walk⟩ := reachable
      obtain ⟨_, _, -, part⟩ := walk.upTo (first.1 visited walk)
      rw [Dominates.antisymm part.reachable (second.2.2 one first.1 first.2.1)
        (first.2.2 two second.1 second.2.1)]

/-- The last block with an entry on any walk is the closest dominator with an entry. -/
theorem isClosest_of_walk (ordered : cfg.Ordered) (closed : Closed cfg ht) {block : Nat}
    {visited : List Nat} (walk : Walk cfg.Edge 0 block visited) :
    IsClosest cfg ht block (lastEntry ht visited) := by
  induction walk with
  | nil =>
    by_cases entry : (ht 0).isSome
    · rw [lastEntry_of_entry entry]
      exact isClosest_self entry
    · rw [lastEntry_of_none entry]
      intro dominator dominates
      rwa [List.mem_singleton.mp (dominates _ .nil)]
  | @snoc pred next visited walk steps inductionHypothesis =>
    by_cases entry : (ht next).isSome
    · rw [lastEntry_of_entry entry]
      exact isClosest_self entry
    · rw [lastEntry_of_none entry]
      refine inductionHypothesis.congr fun dominator entry' => ⟨fun dominates => ?_, ?_⟩
      · -- where dominance ends there would be a phi
        by_contra ends
        obtain ⟨_, _, -, part⟩ := walk.upTo (dominates visited walk)
        exact entry (closed entry' (reachable_lt ordered part.reachable)
          ⟨⟨pred, steps, walk.reachable, dominates⟩, fun both => ends both.1⟩)
      · intro dominates
        refine dominates.of_edge ?_ steps
        rintro rfl
        exact entry entry'

theorem descends_of_tree {immDom : ImmDom} (tree : Exact cfg.Edge 0 immDom) :
    Descends (Function.update immDom 0 none) := by
  intro block up parent
  by_cases root : block = 0
  · rw [root, Function.update_self] at parent
    cases parent
  · rw [Function.update_of_ne root] at parent
    exact tree.decreases parent root

/-- A crawl goes over the dominators of a block and ends. -/
theorem crawl_isClosest {immDom : ImmDom} (tree : Exact cfg.Edge 0 immDom) {block : Nat}
    (reachable : Reachable cfg.Edge 0 block) :
    ∃ closest, crawl (Function.update immDom 0 none) ht block block = some closest ∧
      IsClosest cfg ht block closest := by
  have descends := descends_of_tree tree
  induction block using Nat.strong_induction_on with
  | _ block inductionHypothesis =>
    by_cases entry : (ht block).isSome
    · exact ⟨some block, crawl_of_entry entry, isClosest_self entry⟩
    cases parent : Function.update immDom 0 none block with
    | none =>
      refine ⟨none, crawl_top entry parent, ?_⟩
      have root : block = 0 := by
        by_contra other
        rw [Function.update_of_ne other] at parent
        have inTree := tree.isSome_of_reachable reachable
        rw [parent] at inTree
        exact absurd inTree Bool.false_ne_true
      subst root
      intro dominator dominates
      rwa [List.mem_singleton.mp (dominates _ .nil)]
    | some up =>
      obtain ⟨-, ⟨dominates, -⟩, least⟩ := (update_start_eq_some_iff tree).mp parent
      obtain ⟨visited, walk⟩ := reachable
      obtain ⟨_, _, -, part⟩ := walk.upTo (dominates visited walk)
      obtain ⟨closest, crawls, isClosest⟩ :=
        inductionHypothesis up (descends parent) part.reachable
      refine ⟨closest, (crawl_parent descends entry parent).trans crawls, isClosest.congr ?_⟩
      intro dominator entry'
      refine ⟨fun above => above.trans dominates, fun above => least dominator above ?_⟩
      rintro rfl
      exact entry entry'

end Crawl

/-! ## Lookups -/

section Lookup

variable {immDom : ImmDom} {ht : BlockTable Val} {value : BuilderValue Val} {block : Nat}

/-- The definition that a crawl leads to in a table, a phi being the one of its block. -/
def defOf (ht : BlockTable Val) (dom : Option Nat) : NirDef Val :=
  dom.elim .undef fun dom =>
    match ht dom with
    | none => .undef
    | some .needsPhi => .phi dom
    | some (.ssaDef result) => result

def Finds (immDom : ImmDom) (ht : BlockTable Val) (block : Nat) (result : NirDef Val) : Prop :=
  ∃ dom, crawl immDom ht block block = some dom ∧ result = defOf ht dom

/-- What lookups do to a table: they add what the table leads to anyway. -/
structure Extends (immDom : ImmDom) (ht : BlockTable Val) (value : BuilderValue Val) : Prop where
  keeps {block : Nat} : (ht block).isSome → (value.ht block).isSome
  needsPhi {block : Nat} : value.ht block = some .needsPhi →
    ht block = some .needsPhi ∧ block ∉ value.phis
  ssaDef {block : Nat} {result : NirDef Val} : value.ht block = some (.ssaDef result) →
    Finds immDom ht block result
  nodup : value.phis.Nodup
  origin {block : Nat} : block ∈ value.phis → ht block = some .needsPhi

theorem Extends.start (immDom : ImmDom) (ht : BlockTable Val) :
    Extends immDom ht { ht := ht, phis := [] } where
  keeps := id
  needsPhi needed := ⟨needed, List.not_mem_nil⟩
  ssaDef {block result} entry := by
    have known : (ht block).isSome := by
      rw [show ht block = some (.ssaDef result) from entry]
      rfl
    refine ⟨some block, crawl_of_entry known, ?_⟩
    simp [defOf, show ht block = some (.ssaDef result) from entry]
  nodup := List.nodup_nil
  origin member := absurd member List.not_mem_nil

theorem Extends.set (extended : Extends immDom ht value) {result : NirDef Val}
    (finds : Finds immDom ht block result) :
    Extends immDom ht
      { value with ht := setBlockDef value.ht block result } where
  keeps {other} entry := by
    by_cases same : other = block
    · simp [setBlockDef, same]
    · simpa [setBlockDef, same] using extended.keeps entry
  needsPhi {other} needed := by
    by_cases same : other = block
    · simp [setBlockDef, same] at needed
    · exact extended.needsPhi (by simpa [setBlockDef, same] using needed)
  ssaDef {other result'} entry := by
    by_cases same : other = block
    · subst same
      simp only [setBlockDef, Function.update_self, Option.some.injEq,
        BlockDef.ssaDef.injEq] at entry
      exact entry ▸ finds
    · exact extended.ssaDef (by simpa [setBlockDef, same] using entry)
  nodup := extended.nodup
  origin := extended.origin

theorem finds_phi (immDom : ImmDom) (needed : ht block = some .needsPhi) :
    Finds immDom ht block (.phi block) := by
  have known : (ht block).isSome := by
    rw [needed]
    rfl
  exact ⟨some block, crawl_of_entry known, by simp [defOf, needed]⟩

/-- The phi of a block that needs one is created. -/
theorem Extends.create (extended : Extends immDom ht value) (needed : ht block = some .needsPhi)
    (fresh : block ∉ value.phis) :
    Extends immDom ht
      { ht := setBlockDef value.ht block (.phi block)
        phis := value.phis ++ [block] } := by
  have set := extended.set (finds_phi immDom needed)
  constructor
  case keeps => exact set.keeps
  case ssaDef => exact set.ssaDef
  case needsPhi =>
    intro other isNeeded
    obtain ⟨needed', outside⟩ := set.needsPhi isNeeded
    refine ⟨needed', fun member => ?_⟩
    obtain old | new := List.mem_append.mp member
    · exact outside old
    · obtain rfl := List.mem_singleton.mp new
      simp [setBlockDef] at isNeeded
  case nodup =>
    exact List.nodup_append_comm.mp (List.nodup_cons.mpr ⟨fresh, extended.nodup⟩)
  case origin =>
    intro other member
    obtain old | new := List.mem_append.mp member
    · exact extended.origin old
    · exact List.mem_singleton.mp new ▸ needed

/-- A crawl over more entries ends where the same definition is found. -/
theorem Extends.crawl_cases (extended : Extends immDom ht value) (descends : Descends immDom)
    {dom : Option Nat} (crawls : crawl immDom value.ht block block = some dom) :
    dom = none ∧ crawl immDom ht block block = some none ∨
      ∃ closest, dom = some closest ∧ (value.ht closest).isSome ∧
        crawl immDom ht block block = crawl immDom ht closest closest := by
  induction block using Nat.strong_induction_on with
  | _ block inductionHypothesis =>
    by_cases entry : (value.ht block).isSome
    · rw [crawl_of_entry entry, Option.some.injEq] at crawls
      exact Or.inr ⟨block, crawls.symm, entry, rfl⟩
    have unknown : ¬ (ht block).isSome := mt extended.keeps entry
    cases parent : immDom block with
    | none =>
      rw [crawl_top entry parent, Option.some.injEq] at crawls
      exact Or.inl ⟨crawls.symm, crawl_top unknown parent⟩
    | some up =>
      rw [crawl_parent descends entry parent] at crawls
      rw [crawl_parent descends unknown parent]
      exact inductionHypothesis up (descends parent) crawls

theorem Extends.take (extended : Extends immDom ht value) (descends : Descends immDom)
    {dom : Option Nat} (crawls : crawl immDom value.ht block block = some dom) :
    ∃ result value', value.take dom = some (result, value') ∧ Extends immDom ht value' ∧
      Finds immDom ht block result := by
  obtain ⟨rfl, top⟩ | ⟨closest, rfl, entry, same⟩ := extended.crawl_cases descends crawls
  · exact ⟨.undef, value, rfl, extended, none, top, rfl⟩
  cases found : value.ht closest with
  | none =>
    rw [found] at entry
    exact absurd entry Bool.false_ne_true
  | some blockDef =>
    cases blockDef with
    | ssaDef result =>
      obtain ⟨dom, crawls', rfl⟩ := extended.ssaDef found
      exact ⟨_, value, by simp [BuilderValue.take, found], extended, dom, same.trans crawls', rfl⟩
    | needsPhi =>
      obtain ⟨needed, fresh⟩ := extended.needsPhi found
      refine ⟨.phi closest, _, ?_, extended.create needed fresh, ?_⟩
      · simp [BuilderValue.take, found]
      · obtain ⟨dom, crawls', isPhi⟩ := finds_phi immDom needed
        exact ⟨dom, same.trans crawls', isPhi⟩

theorem Extends.stash (extended : Extends immDom ht value) (descends : Descends immDom)
    {result : NirDef Val} (finds : Finds immDom ht block result) {fuel : Nat}
    (enough : block ≤ fuel) :
    ∃ ht', PhiBuilder.stash immDom result fuel block value.ht = some ht' ∧
      Extends immDom ht { value with ht := ht' } := by
  induction block using Nat.strong_induction_on generalizing fuel value with
  | _ block inductionHypothesis =>
    rw [PhiBuilder.stash.eq_def]
    by_cases entry : (value.ht block).isSome
    · exact ⟨value.ht, if_pos entry, extended⟩
    have set := extended.set finds
    simp only [if_neg entry]
    cases parent : immDom block with
    | none => exact ⟨_, rfl, set⟩
    | some up =>
      have lower := descends parent
      obtain ⟨fuel, rfl⟩ := Nat.exists_eq_succ_of_ne_zero (lower.trans_le enough).ne_bot
      obtain ⟨dom, crawls, rfl⟩ := finds
      rw [crawl_parent descends (mt extended.keeps entry) parent] at crawls
      exact inductionHypothesis up lower set ⟨dom, crawls, rfl⟩ (by omega)

theorem Extends.get (extended : Extends immDom ht value) (descends : Descends immDom)
    (block : Nat) :
    ∃ result value', getBlockDef immDom value block = some (result, value') ∧
      Extends immDom ht value' ∧ Finds immDom ht block result := by
  obtain ⟨dom, crawls⟩ := exists_crawl descends value.ht block
  obtain ⟨result, taken, takes, extended', finds⟩ := extended.take descends crawls
  obtain ⟨ht', stashes, extended''⟩ := extended'.stash descends finds le_rfl
  refine ⟨result, _, ?_, extended'', finds⟩
  simp [getBlockDef, crawls, takes, stashes]

/-- Lookups do not change what later ones find. -/
theorem Extends.getBlockDefs (extended : Extends immDom ht value) (descends : Descends immDom)
    (blocks : List Nat) :
    ∃ results value', PhiBuilder.getBlockDefs immDom value blocks = some (results, value') ∧
      Extends immDom ht value' ∧ List.Forall₂ (Finds immDom ht) blocks results := by
  induction blocks generalizing value with
  | nil => exact ⟨[], value, rfl, extended, .nil⟩
  | cons block blocks inductionHypothesis =>
    obtain ⟨result, value', gets, extended', finds⟩ := extended.get descends block
    obtain ⟨results, value'', rest, extended'', all⟩ := inductionHypothesis extended'
    refine ⟨result :: results, value'', ?_, extended'', .cons finds all⟩
    simp [PhiBuilder.getBlockDefs, gets, rest]

end Lookup

/-! ## Values -/

/-- The entries after the values of the blocks that store were set. -/
def setBlockDefs (ht : BlockTable Val) (value : Nat → Val) (blocks : List Nat) : BlockTable Val :=
  blocks.foldl (fun ht block => setBlockDef ht block (.stored (value block))) ht

theorem setBlockDefs_apply (ht : BlockTable Val) (value : Nat → Val) (blocks : List Nat)
    (block : Nat) : setBlockDefs ht value blocks block =
      if block ∈ blocks then some (.ssaDef (.stored (value block))) else ht block := by
  induction blocks generalizing ht with
  | nil => simp [setBlockDefs]
  | cons first blocks inductionHypothesis =>
    rw [setBlockDefs, List.foldl_cons]
    refine (inductionHypothesis _).trans ?_
    by_cases later : block ∈ blocks
    · simp [later]
    · by_cases same : block = first
      · simp [same, setBlockDef]
      · simp [later, same, setBlockDef]

/-- The table after the values of all the stores were set. -/
def storedDefs (cfg : Cfg) (ht : BlockTable Val) (defs : Nat → Bool) (value : Nat → Val) :
    BlockTable Val :=
  setBlockDefs ht value ((List.range cfg.numBlocks).filter defs)

section Placement

variable {cfg : Cfg} {metadata : DominanceMetadata}

theorem exists_tree (ordered : cfg.Ordered)
    (calculated : nirCalcDominanceImpl cfg = some metadata) :
    ∃ immDom, Exact cfg.Edge 0 immDom ∧ metadata.immDom = Function.update immDom 0 none := by
  obtain ⟨immDom, loop, tree⟩ := calcLoop_exact ordered
  refine ⟨immDom, tree, ?_⟩
  simp only [nirCalcDominanceImpl, loop, Option.bind_eq_bind, Option.bind_some,
    Option.bind_eq_some_iff, Option.some.injEq] at calculated
  obtain ⟨frontier, -, indices, -, rfl⟩ := calculated
  rfl

/-- The frontiers of what has an entry once the values are set have entries too. -/
theorem PlacesPhis.closed {defs : Nat → Bool} {ht : BlockTable Val}
    (places : PlacesPhis cfg defs ht)
    (value : Nat → Val) :
    Closed cfg (storedDefs cfg ht defs value) := by
  intro block next entry small frontier
  have merges : Merges cfg defs next := by
    by_cases isDef : defs block = true
    · exact .stored small isDef frontier
    · have before : (ht block).isSome := by
        simpa [storedDefs, setBlockDefs_apply, isDef] using entry
      by_cases merges : Merges cfg defs block
      · exact .merged merges frontier
      · rw [(places block).2 merges] at before
        exact absurd before Bool.false_ne_true
  rw [storedDefs, setBlockDefs_apply, (places next).1 merges]
  split <;> rfl

theorem PlacesPhis.merges_of_needsPhi {defs : Nat → Bool} {ht : BlockTable Val}
    (places : PlacesPhis cfg defs ht) (value : Nat → Val) {block : Nat}
    (needed : storedDefs cfg ht defs value block = some .needsPhi) : Merges cfg defs block := by
  by_contra single
  rw [storedDefs, setBlockDefs_apply, (places block).2 single] at needed
  split at needed <;> cases needed

variable {body : CfList} {successors : Successors}

/-- The phi builder on a structured function: the worklist does not overflow, the phis are placed
where the value merges, and after the values of the stores are set, every lookup in a block finds,
on whatever walk control came there, the value of the last block that stored or the phi of the last
block in which the value merged. At most one phi is created for a block. -/
theorem placement_correct (hasCfg : body.HasCfg successors cfg)
    (fits : 2 * cfg.numBlocks + 1 ≤ uint32Max - 2) (defs : Nat → Bool) (value : Nat → Val) :
    ∃ metadata, nirCalcDominanceImpl cfg = some metadata ∧
      ∀ domFrontier : Nat → List Nat,
        (∀ block, (domFrontier block).toFinset = metadata.domFrontier block) →
        ∃ ht, addValue cfg.numBlocks domFrontier defs = some ht ∧
          PlacesPhis cfg defs ht ∧ ∀ blocks, ∃ results value',
            getBlockDefs metadata.immDom ⟨storedDefs cfg ht defs value, []⟩ blocks =
                some (results, value') ∧
              (value'.phis.Nodup ∧ ∀ block ∈ value'.phis, Merges cfg defs block) ∧
              List.Forall₂ (fun block result => ∀ visited, Walk cfg.Edge 0 block visited →
                result = defOf (storedDefs cfg ht defs value)
                  (lastEntry (storedDefs cfg ht defs value) visited)) blocks results := by
  have ordered := hasCfg.ordered
  obtain ⟨metadata, calculated, correct⟩ := nirCalcDominanceImpl_ordered ordered fits
  refine ⟨metadata, calculated, fun domFrontier order => ?_⟩
  have enumerates (block next : Nat) :
      next ∈ domFrontier block ↔ cfg.InFrontier block next := by
    rw [← correct.mem_domFrontier_iff, ← order, List.mem_toFinset]
  obtain ⟨ht, added, places⟩ : ∃ ht : BlockTable Val,
      addValue cfg.numBlocks domFrontier defs = some ht ∧ PlacesPhis cfg defs ht :=
    addValue_spec defs enumerates
  refine ⟨ht, added, places, fun blocks => ?_⟩
  obtain ⟨immDom, tree, isTree⟩ := exists_tree ordered calculated
  rw [isTree]
  obtain ⟨results, value', gets, extended, finds⟩ :=
    (Extends.start _ (storedDefs cfg ht defs value)).getBlockDefs (descends_of_tree tree) blocks
  refine ⟨results, value', gets, ⟨extended.nodup, fun block member => ?_⟩, ?_⟩
  · exact places.merges_of_needsPhi value (extended.origin member)
  · refine finds.imp fun block result found visited walk => ?_
    obtain ⟨dom, crawls, rfl⟩ := found
    obtain ⟨closest, crawls', isClosest⟩ := crawl_isClosest tree walk.reachable
    rw [Option.some.inj (crawls.symm.trans crawls'),
      isClosest.unique walk.reachable (isClosest_of_walk ordered (places.closed value) walk)]

end Placement

end SpirvToDxil.Nir.PhiBuilder
