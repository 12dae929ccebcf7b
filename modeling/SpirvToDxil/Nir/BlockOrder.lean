import SpirvToDxil.Nir.ControlFlow
import SpirvToDxil.Nir.DominanceSoundness

/-!
# The order of the blocks of a structured function

In the order of `nir_index_blocks` an edge goes back only to the first block of a loop that it comes
from inside of, and into a loop leads no other edge than one to its first block. So control comes to
each block from an earlier one first, which `nir_calc_dominance_impl` rests on.
-/

namespace SpirvToDxil.Nir

open FlowGraph

/-- The blocks have the indices from `start` on. -/
def IndexedFrom (start : Nat) (blocks : List Block) : Prop :=
  blocks.map (fun block => block.index) = List.range' start blocks.length

theorem indexedFrom_append {start : Nat} {blocks others : List Block} :
    IndexedFrom start (blocks ++ others) ↔
      IndexedFrom start blocks ∧ IndexedFrom (start + blocks.length) others := by
  unfold IndexedFrom
  rw [List.map_append, List.length_append, ← List.range'_append_1]
  exact ⟨fun same => List.append_inj same (by simp), fun both => by rw [both.1, both.2]⟩

theorem indexedFrom_cons {start : Nat} {block : Block} {blocks : List Block} :
    IndexedFrom start (block :: blocks) ↔
      block.index = start ∧ IndexedFrom (start + 1) blocks := by
  unfold IndexedFrom
  rw [List.map_cons, List.length_cons, List.range'_succ, List.cons.injEq]

theorem IndexedFrom.firstBlock {start : Nat} {list : CfList}
    (indexed : IndexedFrom start list.blocks) : list.firstBlock.index = start := by
  obtain ⟨others, split⟩ := list.blocks_eq_cons
  rw [split] at indexed
  exact (indexedFrom_cons.mp indexed).1

theorem length_blocks_pos (list : CfList) : 0 < list.blocks.length := by
  obtain ⟨others, split⟩ := list.blocks_eq_cons
  rw [split]
  exact Nat.succ_pos _

theorem IndexedFrom.entry {start entry : Nat} {node : CfNode}
    (indexed : IndexedFrom start node.blocks) (isEntry : entry ∈ node.entries) :
    start ≤ entry ∧ entry < start + node.blocks.length := by
  cases node with
  | ifNode condition thenList elseList =>
    rw [CfNode.blocks] at indexed ⊢
    obtain ⟨indexedThen, indexedElse⟩ := indexedFrom_append.mp indexed
    have thenFirst := indexedThen.firstBlock
    have elseFirst := indexedElse.firstBlock
    have posElse := length_blocks_pos elseList
    rw [List.length_append]
    obtain rfl | isEntry := List.mem_cons.mp isEntry
    · omega
    · rw [List.mem_singleton.mp isEntry]
      omega
  | loopNode body =>
    have bodyFirst : body.firstBlock.index = start := indexed.firstBlock
    have pos := length_blocks_pos body
    rw [List.mem_singleton.mp isEntry, CfNode.blocks]
    omega

/-- Where control can go that leaves the blocks from `first` on before `last`. -/
def Leads (loop : Option LoopTargets) (exit first last target : Nat) : Prop :=
  (first ≤ target ∧ target < last) ∨ target = exit ∨
    ∃ targets ∈ loop, target = targets.header ∨ target = targets.after

section Leads

variable {successors : Successors}

theorem Block.Linked.leads {block : Block} {loop : Option LoopTargets} {normal : List Nat}
    (linked : block.Linked successors loop normal) {target : Nat}
    (goes : target ∈ successors block.index) :
    target ∈ normal ∨ ∃ targets ∈ loop, target = targets.header ∨ target = targets.after := by
  have same := linked.2
  cases jumps : block.jump? with
  | none =>
    rw [linked.successors_of_none jumps] at goes
    exact Or.inl goes
  | some type =>
    rw [jumps] at same
    cases loop with
    | none => cases type <;> exact same.elim
    | some targets =>
      refine Or.inr ⟨targets, rfl, ?_⟩
      cases type with
      | breakLoop =>
        rw [show successors block.index = [targets.after] from same] at goes
        exact Or.inr (List.mem_singleton.mp goes)
      | continueLoop =>
        rw [show successors block.index = [targets.header] from same] at goes
        exact Or.inl (List.mem_singleton.mp goes)

mutual

theorem CfNode.Linked.leads {node : CfNode} {loop : Option LoopTargets} {after start : Nat}
    (linked : node.Linked successors loop after) (indexed : IndexedFrom start node.blocks)
    {block target : Nat} (here : start ≤ block ∧ block < start + node.blocks.length)
    (goes : target ∈ successors block) :
    Leads loop after start (start + node.blocks.length) target := by
  cases node with
  | ifNode condition thenList elseList =>
    obtain ⟨linkedThen, linkedElse⟩ := linked
    rw [CfNode.blocks] at indexed here ⊢
    obtain ⟨indexedThen, indexedElse⟩ := indexedFrom_append.mp indexed
    rw [List.length_append] at here ⊢
    by_cases inThen : block < start + thenList.blocks.length
    · exact (CfList.Linked.leads linkedThen indexedThen ⟨here.1, inThen⟩ goes).imp_left (by omega)
    · exact (CfList.Linked.leads linkedElse indexedElse (by omega) goes).imp_left (by omega)
  | loopNode body =>
    rw [CfNode.Linked] at linked
    rw [CfNode.blocks] at indexed here ⊢
    have header := indexed.firstBlock
    have pos := length_blocks_pos body
    obtain inside | exit | ⟨targets, isTarget, isHeader | isAfter⟩ :=
      CfList.Linked.leads linked indexed here goes
    · exact Or.inl inside
    · exact Or.inl (by omega)
    · obtain rfl := Option.some.inj isTarget
      exact Or.inl (by rw [isHeader]; dsimp only; omega)
    · obtain rfl := Option.some.inj isTarget
      exact Or.inr (Or.inl isAfter)

theorem CfList.Linked.leads {list : CfList} {loop : Option LoopTargets} {exit start : Nat}
    (linked : list.Linked successors loop exit) (indexed : IndexedFrom start list.blocks)
    {block target : Nat} (here : start ≤ block ∧ block < start + list.blocks.length)
    (goes : target ∈ successors block) :
    Leads loop exit start (start + list.blocks.length) target := by
  cases list with
  | last only =>
    rw [CfList.blocks] at indexed here ⊢
    obtain ⟨index, -⟩ := indexedFrom_cons.mp indexed
    obtain rfl : block = only.index := by
      rw [List.length_singleton] at here
      omega
    refine Or.inr ((Block.Linked.leads linked goes).imp_left fun normal => ?_)
    exact List.mem_singleton.mp normal
  | cons first node rest =>
    obtain ⟨linkedFirst, linkedNode, linkedRest⟩ := linked
    rw [CfList.blocks] at indexed here ⊢
    obtain ⟨index, indexed⟩ := indexedFrom_cons.mp indexed
    obtain ⟨indexedNode, indexedRest⟩ := indexedFrom_append.mp indexed
    have restFirst := indexedRest.firstBlock
    have pos := length_blocks_pos rest
    rw [List.length_cons, List.length_append] at here ⊢
    by_cases isFirst : block = start
    · rw [isFirst, ← index] at goes
      obtain entry | jump := linkedFirst.leads goes
      · have := indexedNode.entry entry
        exact Or.inl (by omega)
      · exact Or.inr (Or.inr jump)
    by_cases inNode : block < start + 1 + node.blocks.length
    · obtain inside | exit | jump :=
        CfNode.Linked.leads linkedNode indexedNode ⟨by omega, inNode⟩ goes
      · exact Or.inl (by omega)
      · exact Or.inl (by omega)
      · exact Or.inr (Or.inr jump)
    · exact (CfList.Linked.leads linkedRest indexedRest (by omega) goes).imp_left (by omega)

end

end Leads

/-! ## Edges that go back -/

section Back

variable (successors : Successors) (numBlocks : Nat)

/-- From outside, control comes to the blocks from `first` on before `last` only at `entries`. -/
def Entered (first last : Nat) (entries : List Nat) : Prop :=
  ∀ block < numBlocks, block < first ∨ last ≤ block → ∀ target ∈ successors block,
    first ≤ target → target < last → target ∈ entries

/-- `header` is the first block of a loop around `block`, and the only one that control enters. -/
def LoopHeader (header block : Nat) : Prop :=
  0 < header ∧ ∃ last, header ≤ block ∧ block < last ∧
    Entered successors numBlocks header last [header]

/-- The targets of the innermost loop are not behind the first and before the last block. -/
def Around (loop : Option LoopTargets) (first last : Nat) : Prop :=
  ∀ targets ∈ loop, targets.header ≤ first ∧ last ≤ targets.after

variable {successors numBlocks}

theorem Around.mono {loop : Option LoopTargets} {first last first' last' : Nat}
    (around : Around loop first last) (later : first ≤ first') (earlier : last' ≤ last) :
    Around loop first' last' :=
  fun targets isTarget =>
    ⟨(around targets isTarget).1.trans later, earlier.trans (around targets isTarget).2⟩

/-- What leaves some blocks does not enter others before the end. -/
theorem Leads.not_entered {loop : Option LoopTargets} {exit first last first' last' outer outerLast
    target : Nat} (leads : Leads loop exit first' last' target)
    (around : Around loop outer outerLast) (below : outer < first) (inside : last ≤ outerLast)
    (apart : last' ≤ first ∨ last ≤ first') (behind : exit ≤ outer ∨ last ≤ exit)
    (enters : first ≤ target) (before : target < last) : False := by
  obtain there | rfl | ⟨targets, isTarget, rfl | rfl⟩ := leads
  · omega
  · omega
  · have := (around targets isTarget).1
    omega
  · have := (around targets isTarget).2
    omega

mutual

theorem CfNode.Linked.back {node : CfNode} {loop : Option LoopTargets} {after first : Nat}
    (linked : node.Linked successors loop after) (indexed : IndexedFrom first node.blocks)
    (inside : first + node.blocks.length ≤ numBlocks) (positive : 0 < first)
    (around : Around loop (first - 1) (first + node.blocks.length))
    (behind : first + node.blocks.length ≤ after)
    (entered : Entered successors numBlocks first (first + node.blocks.length) node.entries)
    {block target : Nat} (here : first ≤ block ∧ block < first + node.blocks.length)
    (goes : target ∈ successors block) (back : target ≤ block) :
    (∃ targets ∈ loop, target = targets.header) ∨ LoopHeader successors numBlocks target block := by
  cases node with
  | ifNode condition thenList elseList =>
    obtain ⟨linkedThen, linkedElse⟩ := linked
    rw [CfNode.blocks] at indexed inside around behind entered here
    obtain ⟨indexedThen, indexedElse⟩ := indexedFrom_append.mp indexed
    have thenFirst := indexedThen.firstBlock
    have elseFirst := indexedElse.firstBlock
    rw [List.length_append] at inside around behind entered here
    have posThen := length_blocks_pos thenList
    have posElse := length_blocks_pos elseList
    by_cases inThen : block < first + thenList.blocks.length
    · refine (CfList.Linked.back linkedThen indexedThen (by omega)
        (around.mono (by omega) (by omega)) (Or.inr (by omega)) ?_ ⟨here.1, inThen⟩ goes
        back).resolve_left (by omega)
      intro other small outside target goes enters before
      by_cases inElse : first ≤ other ∧ other < first + (thenList.blocks.length +
          elseList.blocks.length)
      · have leads := CfList.Linked.leads linkedElse indexedElse (by omega) goes
        exact (leads.not_entered around (by omega) (by omega) (by omega) (by omega) enters
          before).elim
      · have entry := entered other small (by omega) target goes (by omega) (by omega)
        rw [CfNode.entries, thenFirst, elseFirst, List.mem_cons, List.mem_singleton] at entry
        rw [List.mem_singleton]
        omega
    · refine (CfList.Linked.back linkedElse indexedElse (by omega)
        (around.mono (by omega) (by omega)) (Or.inr (by omega)) ?_ (by omega) goes
        back).resolve_left (by omega)
      intro other small outside target goes enters before
      by_cases inThen : first ≤ other ∧ other < first + (thenList.blocks.length +
          elseList.blocks.length)
      · have leads := CfList.Linked.leads linkedThen indexedThen (by omega) goes
        exact (leads.not_entered around (by omega) (by omega) (by omega) (by omega) enters
          before).elim
      · have entry := entered other small (by omega) target goes (by omega) (by omega)
        rw [CfNode.entries, thenFirst, elseFirst, List.mem_cons, List.mem_singleton] at entry
        rw [List.mem_singleton]
        omega
  | loopNode body =>
    rw [CfNode.Linked] at linked
    rw [CfNode.blocks] at indexed inside around behind entered here
    have header := indexed.firstBlock
    have entries : Entered successors numBlocks first (first + body.blocks.length) [first] := by
      have same : (CfNode.loopNode body).entries = [first] := by rw [CfNode.entries, header]
      rwa [same] at entered
    have ownHeader : LoopHeader successors numBlocks first block :=
      ⟨positive, _, here.1, here.2, entries⟩
    rw [header] at linked
    have aroundBody : Around (some { header := first, after := after }) first
        (first + body.blocks.length) := by
      rintro targets ⟨rfl⟩
      exact ⟨le_rfl, behind⟩
    obtain rfl | ⟨targets, ⟨rfl⟩, rfl⟩ | found :=
      CfList.Linked.back linked indexed inside aroundBody
      (Or.inl le_rfl) entries here goes back
    · exact Or.inr ownHeader
    · exact Or.inr ownHeader
    · exact Or.inr found

theorem CfList.Linked.back {list : CfList} {loop : Option LoopTargets} {exit first : Nat}
    (linked : list.Linked successors loop exit) (indexed : IndexedFrom first list.blocks)
    (inside : first + list.blocks.length ≤ numBlocks)
    (around : Around loop first (first + list.blocks.length))
    (behind : exit ≤ first ∨ first + list.blocks.length ≤ exit)
    (entered : Entered successors numBlocks first (first + list.blocks.length) [first])
    {block target : Nat} (here : first ≤ block ∧ block < first + list.blocks.length)
    (goes : target ∈ successors block) (back : target ≤ block) :
    target = exit ∨ (∃ targets ∈ loop, target = targets.header) ∨
      LoopHeader successors numBlocks target block := by
  have jumpsBack {length : Nat} (long : 0 < length) (around : Around loop first (first + length))
      (jump : ∃ targets ∈ loop, target = targets.header ∨ target = targets.after)
      (isFirst : block = first) : ∃ targets ∈ loop, target = targets.header := by
    obtain ⟨targets, isTarget, isHeader | isAfter⟩ := jump
    · exact ⟨targets, isTarget, isHeader⟩
    · have := (around targets isTarget).2
      omega
  cases list with
  | last only =>
    rw [CfList.blocks] at indexed around here
    obtain ⟨index, -⟩ := indexedFrom_cons.mp indexed
    rw [List.length_singleton] at here around
    have isFirst : block = first := by omega
    rw [isFirst, ← index] at goes
    obtain normal | jump := Block.Linked.leads linked goes
    · exact Or.inl (List.mem_singleton.mp normal)
    · exact Or.inr (Or.inl (jumpsBack Nat.one_pos around jump isFirst))
  | cons one node rest =>
    obtain ⟨linkedOne, linkedNode, linkedRest⟩ := linked
    rw [CfList.blocks] at indexed inside around behind entered here
    obtain ⟨index, indexed⟩ := indexedFrom_cons.mp indexed
    obtain ⟨indexedNode, indexedRest⟩ := indexedFrom_append.mp indexed
    have restFirst := indexedRest.firstBlock
    have pos := length_blocks_pos rest
    rw [List.length_cons, List.length_append] at inside around behind entered here
    have fromFirst {target : Nat} (goes : target ∈ successors first) (later : first < target)
        (before : target < first + (node.blocks.length + rest.blocks.length + 1)) :
        target ∈ node.entries := by
      rw [← index] at goes
      obtain entry | ⟨targets, isTarget, rfl | rfl⟩ := linkedOne.leads goes
      · exact entry
      · have := (around targets isTarget).1
        omega
      · have := (around targets isTarget).2
        omega
    have fromOutside {other target : Nat} (small : other < numBlocks)
        (outside : other < first ∨ first + (node.blocks.length + rest.blocks.length + 1) ≤ other)
        (goes : target ∈ successors other) (later : first < target)
        (before : target < first + (node.blocks.length + rest.blocks.length + 1)) : False := by
      have := List.mem_singleton.mp (entered other small outside target goes later.le before)
      omega
    by_cases isFirst : block = first
    · have goes' := goes
      rw [isFirst, ← index] at goes'
      obtain entry | jump := linkedOne.leads goes'
      · have := indexedNode.entry entry
        omega
      · exact Or.inr (Or.inl (jumpsBack (by omega) around jump isFirst))
    by_cases inNode : block < first + 1 + node.blocks.length
    · refine Or.inr (CfNode.Linked.back linkedNode indexedNode (by omega) (by omega)
        (around.mono (by omega) (by omega)) (by omega) ?_ ⟨by omega, inNode⟩ goes back)
      intro other small outside target goes enters before
      obtain rfl | notFirst := eq_or_ne other first
      · exact fromFirst goes (by omega) (by omega)
      by_cases inRest : first ≤ other ∧
        other < first + (node.blocks.length + rest.blocks.length + 1)
      · have leads := CfList.Linked.leads linkedRest indexedRest (by omega) goes
        exact (leads.not_entered around (by omega) (by omega) (by omega) (by omega) enters
          before).elim
      · exact (fromOutside small (by omega) goes (by omega) (by omega)).elim
    · refine CfList.Linked.back linkedRest indexedRest (by omega)
        (around.mono (by omega) (by omega)) (by omega) ?_ (by omega) goes back
      intro other small outside target goes enters before
      rw [List.mem_singleton]
      obtain rfl | notFirst := eq_or_ne other first
      · have := indexedNode.entry (fromFirst goes (by omega) (by omega))
        omega
      by_cases inNode : first ≤ other ∧
        other < first + (node.blocks.length + rest.blocks.length + 1)
      · obtain there | rfl | ⟨targets, isTarget, rfl | rfl⟩ :=
          CfNode.Linked.leads linkedNode indexedNode (by omega) goes
        · omega
        · exact restFirst
        · have := (around targets isTarget).1
          omega
        · have := (around targets isTarget).2
          omega
      · exact (fromOutside small (by omega) goes (by omega) (by omega)).elim

end

end Back

/-- The graph of a function body, as `nir_validate` requires it. -/
structure CfList.HasCfg (body : CfList) (successors : Successors) (cfg : Cfg) : Prop where
  indexed : body.Indexed
  linked : body.Linked successors none cfg.numBlocks
  numBlocks_eq : cfg.numBlocks = body.blocks.length
  mem_predecessors {pred block : Nat} : block < cfg.numBlocks →
    (pred ∈ cfg.predecessors block ↔ pred < cfg.numBlocks ∧ block ∈ successors pred)

section Ordered

variable {body : CfList} {successors : Successors} {cfg : Cfg}

/-- Every edge back is one to the first block of a loop. -/
theorem CfList.HasCfg.loopHeader (hasCfg : body.HasCfg successors cfg) {pred block : Nat}
    (steps : cfg.Edge pred block) (back : block ≤ pred) :
    LoopHeader successors cfg.numBlocks block pred := by
  obtain ⟨small, goes⟩ := (hasCfg.mem_predecessors steps.1).mp steps.2
  have all := hasCfg.numBlocks_eq
  have indexed : IndexedFrom 0 body.blocks := by
    rw [IndexedFrom, ← List.range_eq_range']
    exact hasCfg.indexed
  have around : Around none 0 (0 + body.blocks.length) := nofun
  have entered : Entered successors cfg.numBlocks 0 (0 + body.blocks.length) [0] := by
    intro other small outside
    omega
  obtain atEnd | ⟨targets, ⟨⟩, -⟩ | found := CfList.Linked.back hasCfg.linked indexed (by omega)
    around (Or.inr (by omega)) entered (by omega) goes back
  · exact absurd steps.1 (by omega)
  · exact found

/-- A walk to a block of a loop passes the first block of the loop. -/
theorem LoopHeader.mem_of_walk (hasCfg : body.HasCfg successors cfg) {header last block : Nat}
    (entered : Entered successors cfg.numBlocks header last [header]) (positive : 0 < header)
    {visited : List Nat} (walk : Walk cfg.Edge 0 block visited) (later : header ≤ block)
    (before : block < last) : header ∈ visited := by
  induction walk with
  | nil => omega
  | @snoc pred next visited walk steps ih =>
    by_cases inside : header ≤ pred ∧ pred < last
    · exact List.mem_cons_of_mem _ (ih inside.1 inside.2)
    · obtain ⟨small, goes⟩ := (hasCfg.mem_predecessors steps.1).mp steps.2
      have isHeader := entered pred small (by omega) next goes later before
      rw [List.mem_singleton.mp isHeader]
      exact List.mem_cons_self

theorem CfList.HasCfg.ordered (hasCfg : body.HasCfg successors cfg) : cfg.Ordered where
  nonempty := by
    rw [hasCfg.numBlocks_eq]
    exact length_blocks_pos body
  start_predecessors := by
    refine List.eq_nil_iff_forall_not_mem.mpr fun pred member => ?_
    have positive : 0 < cfg.numBlocks := hasCfg.numBlocks_eq ▸ length_blocks_pos body
    exact absurd (hasCfg.loopHeader ⟨positive, member⟩ (Nat.zero_le pred)).1 (Nat.lt_irrefl 0)
  inside steps := ((hasCfg.mem_predecessors steps.1).mp steps.2).1
  earlier {block} other reachable := by
    obtain ⟨visited, walk⟩ := reachable
    obtain ⟨short, walk', simple, -⟩ := walk.exists_nodup
    cases walk' with
    | nil => exact absurd rfl other
    | @snoc pred _ before walk' steps =>
      by_cases earlier : pred < block
      · exact ⟨pred, steps, earlier, walk'.reachable⟩
      -- the walk was in the loop of the block already, and so it was at the block
      obtain ⟨positive, last, later, inside, entered⟩ :=
        hasCfg.loopHeader steps (Nat.not_lt.mp earlier)
      exact absurd (LoopHeader.mem_of_walk hasCfg entered positive walk' later inside)
        (List.nodup_cons.mp simple).1

/-- `nir_calc_dominance_impl` on a structured function: it succeeds, the immediate dominators and
the dominance frontiers are those of the graph, `nir_block_dominates` decides whether every path
from the start passes a block, and `nir_block_is_unreachable` whether there is a path. -/
theorem nirCalcDominanceImpl_correct (hasCfg : body.HasCfg successors cfg)
    (fits : 2 * cfg.numBlocks + 1 ≤ Dominance.uint32Max - 2) :
    ∃ metadata, nirCalcDominanceImpl cfg = some metadata ∧ metadata.Correct cfg :=
  nirCalcDominanceImpl_ordered hasCfg.ordered fits

end Ordered

/-- A loop that is left from inside of an if. -/
def leavingLoop : CfList :=
  .cons ⟨0, []⟩
    (.loopNode
      (.cons ⟨1, []⟩
        (.ifNode 7 (.last ⟨2, [⟨8, .jump .breakLoop⟩]⟩) (.last ⟨3, []⟩))
        (.last ⟨4, []⟩)))
    (.last ⟨5, []⟩)

def leavingLoopSuccessors : Successors
  | 0 => [1]
  | 1 => [2, 3]
  | 2 => [5]
  | 3 => [4]
  | 4 => [1]
  | 5 => [6]
  | _ => []

def leavingLoopCfg : Cfg where
  numBlocks := 6
  predecessors
    | 1 => [0, 4]
    | 2 => [1]
    | 3 => [1]
    | 4 => [3]
    | 5 => [2]
    | _ => []

theorem leavingLoop_hasCfg : leavingLoop.HasCfg leavingLoopSuccessors leavingLoopCfg where
  indexed := rfl
  linked := by
    simp [leavingLoop, CfList.Linked, CfNode.Linked, Block.Linked, Block.jump?, CfNode.entries,
      CfList.firstBlock, leavingLoopSuccessors, leavingLoopCfg]
  numBlocks_eq := rfl
  mem_predecessors {pred block} small := by
    have all : ∀ block < 6, ∀ pred < 6, (pred ∈ leavingLoopCfg.predecessors block ↔
        block ∈ leavingLoopSuccessors pred) := by decide
    have within : ∀ block < 6, ∀ pred ∈ leavingLoopCfg.predecessors block, pred < 6 := by decide
    refine ⟨fun member => ?_, fun both => (all block small pred both.1).mpr both.2⟩
    have inside := within block small pred member
    exact ⟨inside, (all block small pred inside).mp member⟩

theorem nirCalcDominanceImpl_correct_leavingLoop :
    ∃ metadata, nirCalcDominanceImpl leavingLoopCfg = some metadata ∧
      metadata.Correct leavingLoopCfg :=
  nirCalcDominanceImpl_correct leavingLoop_hasCfg (by decide)

end SpirvToDxil.Nir
