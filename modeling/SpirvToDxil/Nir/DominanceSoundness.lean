import Mathlib.Data.Finset.Card
import SpirvToDxil.Nir.DominanceIteration

/-!
# The dominance metadata are right

The frontiers are read off the dominator tree, and the indices of its depth-first walk decide
dominance.
-/

namespace SpirvToDxil.Nir

open FlowGraph

/-- `block` is where the dominance of `dominator` ends. -/
def Cfg.InFrontier (cfg : Cfg) (dominator block : Nat) : Prop :=
  (∃ pred, cfg.Edge pred block ∧ Reachable cfg.Edge 0 pred ∧
    Dominates cfg.Edge 0 dominator pred) ∧
  ¬ (Dominates cfg.Edge 0 dominator block ∧ dominator ≠ block)

namespace Dominance

variable {cfg : Cfg} {immDom : ImmDom}

/-! ## Frontiers -/

section Frontier

/-- A block that only one other leads to is in no frontier. -/
theorem not_inFrontier_of_single {dominator block pred : Nat} (other : block ≠ 0)
    (single : cfg.predecessors block = [pred]) : ¬ cfg.InFrontier dominator block := by
  rintro ⟨⟨first, steps, ⟨visited, walk⟩, dominates⟩, outside⟩
  have only {before : Nat} (steps : cfg.Edge before block) : before = pred :=
    List.mem_singleton.mp (single ▸ steps.2)
  obtain rfl := only steps
  have dominates' : Dominates cfg.Edge 0 dominator block := by
    intro visited walk
    cases walk with
    | nil => exact absurd rfl other
    | snoc part steps =>
      obtain rfl := only steps
      exact List.mem_cons_of_mem _ (dominates _ part)
  obtain rfl : dominator = block := by
    by_contra strict
    exact outside ⟨dominates', strict⟩
  -- the block would be on every walk to its only predecessor, also on one that repeats nothing
  obtain ⟨short, walk', simple, -⟩ := (walk.snoc steps).exists_nodup
  cases walk' with
  | nil => exact absurd rfl other
  | snoc walk' steps' =>
    obtain rfl := only steps'
    exact (List.nodup_cons.mp simple).1 (dominates _ walk')

theorem runUp_spec (tree : Growing 0 immDom) {block idom fuel runner : Nat}
    (isIdom : immDom block = some idom) (above : Above immDom runner idom)
    (enough : runner < fuel) (frontier : DomFrontier) :
    ∃ frontier', runUp immDom block fuel runner frontier = some frontier' ∧
      ∀ dominator other, other ∈ frontier' dominator ↔ other ∈ frontier dominator ∨
        other = block ∧ Above immDom runner dominator ∧ ¬ Above immDom idom dominator := by
  induction fuel generalizing runner frontier with
  | zero => exact absurd enough (Nat.not_lt_zero _)
  | succ fuel ih =>
    rw [runUp]
    by_cases arrived : immDom block = some runner
    · rw [if_pos arrived]
      obtain rfl := Option.some.inj (arrived.symm.trans isIdom)
      refine ⟨frontier, rfl, fun dominator other => ?_⟩
      rw [or_iff_left]
      exact fun both => both.2.2 both.2.1
    rw [if_neg arrived]
    obtain rfl | ⟨up, isParent, upper⟩ := above_cases above
    · exact absurd isIdom arrived
    have root : runner ≠ 0 := by
      rintro rfl
      rw [tree.start_parent] at isParent
      obtain rfl := Option.some.inj isParent
      exact arrived (isIdom.trans (congrArg some (tree.above_start upper)))
    have lower := tree.decreases isParent root
    obtain ⟨frontier', result, spec⟩ := ih upper (by omega)
      (Function.update frontier runner (insert block (frontier runner)))
    refine ⟨frontier', by rw [isParent]; exact result, fun dominator other => ?_⟩
    rw [spec]
    by_cases here : dominator = runner
    · subst here
      have own : ¬ Above immDom idom dominator := fun back =>
        absurd (tree.le_of_above back) ((tree.le_of_above upper).trans_lt lower).not_ge
      have far : ¬ Above immDom up dominator := fun back =>
        absurd (tree.le_of_above back) lower.not_ge
      rw [Function.update_self, Finset.mem_insert]
      simp only [own, far, Relation.ReflTransGen.refl, not_false_eq_true, and_true,
        and_false, or_false]
      exact or_comm
    · rw [Function.update_of_ne here]
      have same : Above immDom runner dominator ↔ Above immDom up dominator := by
        refine ⟨fun above' => ?_, .head isParent⟩
        obtain equal | ⟨_, isParent', above'⟩ := above_cases above'
        · exact absurd equal here
        · rwa [Option.some.inj (isParent.symm.trans isParent')]
      rw [same]

theorem foldlM_runUp_spec (tree : Exact cfg.Edge 0 immDom) {block idom : Nat} (other : block ≠ 0)
    (isIdom : immDom block = some idom) (preds : List Nat)
    (within : ∀ pred ∈ preds, cfg.Edge pred block) (frontier : DomFrontier) :
    ∃ frontier', preds.foldlM (fun frontier runner =>
        if immDom runner = none then some frontier
        else runUp immDom block (runner + 1) runner frontier) frontier = some frontier' ∧
      ∀ dominator later, later ∈ frontier' dominator ↔ later ∈ frontier dominator ∨
        later = block ∧ (∃ pred ∈ preds, Reachable cfg.Edge 0 pred ∧
          Dominates cfg.Edge 0 dominator pred) ∧
          ¬ (Dominates cfg.Edge 0 dominator block ∧ dominator ≠ block) := by
  induction preds generalizing frontier with
  | nil => exact ⟨frontier, rfl, by simp⟩
  | cons pred preds ih =>
    obtain ⟨steps, within⟩ := List.forall_mem_cons.mp within
    by_cases reachable : Reachable cfg.Edge 0 pred
    · have inTree := tree.isSome_of_reachable reachable
      obtain ⟨dominates, strict⟩ := (tree.above_parent_iff isIdom other).mp .refl
      obtain ⟨next, result, spec⟩ := runUp_spec tree.toGrowing isIdom
        (tree.above_of_dominates inTree (dominates.of_edge strict steps))
        (Nat.lt_succ_self pred) frontier
      obtain ⟨last, rest, spec'⟩ := ih within next
      refine ⟨last, ?_, fun dominator later => ?_⟩
      · rw [List.foldlM_cons, if_neg (Option.isSome_iff_ne_none.mp inTree), result]
        exact rest
      · rw [spec', spec, tree.above_iff reachable, tree.above_parent_iff isIdom other,
          List.exists_mem_cons_iff]
        tauto
    · obtain ⟨last, rest, spec'⟩ := ih within frontier
      have outside : immDom pred = none := by
        by_contra inTree
        exact reachable (tree.reachable (Option.isSome_iff_ne_none.mpr inTree))
      refine ⟨last, ?_, fun dominator later => ?_⟩
      · rw [List.foldlM_cons, if_pos outside]
        exact rest
      · rw [spec', List.exists_mem_cons_iff]
        tauto

theorem calcDomFrontier_spec (ordered : cfg.Ordered) (tree : Exact cfg.Edge 0 immDom) {block : Nat}
    (inside : block < cfg.numBlocks) (frontier : DomFrontier) :
    ∃ frontier', calcDomFrontier cfg immDom frontier block = some frontier' ∧
      ∀ dominator later, later ∈ frontier' dominator ↔ later ∈ frontier dominator ∨
        later = block ∧ cfg.InFrontier dominator block := by
  unfold calcDomFrontier
  by_cases many : (cfg.predecessors block).length > 1
  · rw [if_pos many]
    have other : block ≠ 0 := by
      rintro rfl
      rw [ordered.start_predecessors] at many
      exact absurd many (by decide)
    have edges (pred : Nat) : cfg.Edge pred block ↔ pred ∈ cfg.predecessors block :=
      and_iff_right inside
    by_cases reachable : Reachable cfg.Edge 0 block
    · obtain ⟨idom, isIdom⟩ := Option.isSome_iff_exists.mp (tree.isSome_of_reachable reachable)
      obtain ⟨frontier', result, spec⟩ := foldlM_runUp_spec tree other isIdom _
        (fun pred member => (edges pred).mpr member) frontier
      refine ⟨frontier', result, fun dominator later => ?_⟩
      rw [spec, Cfg.InFrontier]
      simp only [edges]
    · -- nothing leads here from the start
      have skips : (cfg.predecessors block).foldlM (fun frontier runner =>
          if immDom runner = none then some frontier
          else runUp immDom block (runner + 1) runner frontier) frontier = some frontier := by
        have outside : ∀ pred ∈ cfg.predecessors block, immDom pred = none := by
          intro pred member
          by_contra inTree
          exact reachable ((tree.reachable (Option.isSome_iff_ne_none.mpr inTree)).snoc
            ((edges pred).mpr member))
        clear many edges
        generalize cfg.predecessors block = preds at outside ⊢
        induction preds with
        | nil => rfl
        | cons pred preds ih =>
          obtain ⟨none, outside⟩ := List.forall_mem_cons.mp outside
          rw [List.foldlM_cons, if_pos none]
          exact ih outside
      refine ⟨frontier, skips, fun dominator later => ?_⟩
      rw [or_iff_left]
      rintro ⟨-, ⟨pred, steps, predReachable, -⟩, -⟩
      exact reachable (predReachable.snoc steps)
  · rw [if_neg many]
    refine ⟨frontier, rfl, fun dominator later => ?_⟩
    rw [or_iff_left]
    rintro ⟨-, inFrontier⟩
    have ⟨⟨pred, steps, _⟩, _⟩ := inFrontier
    have other : block ≠ 0 := by
      rintro rfl
      rw [Cfg.Edge, ordered.start_predecessors] at steps
      exact absurd steps.2 List.not_mem_nil
    obtain ⟨only, single⟩ : ∃ only, cfg.predecessors block = [only] := by
      refine List.length_eq_one_iff.mp ?_
      have := List.length_pos_of_mem steps.2
      omega
    exact not_inFrontier_of_single other single inFrontier

theorem foldlM_calcDomFrontier_spec (ordered : cfg.Ordered) (tree : Exact cfg.Edge 0 immDom)
    (count : Nat) (inside : count ≤ cfg.numBlocks) :
    ∃ frontier, (List.range count).foldlM (calcDomFrontier cfg immDom) (fun _ => ∅)
        = some frontier ∧
      ∀ dominator block, block ∈ frontier dominator ↔
        block < count ∧ cfg.InFrontier dominator block := by
  induction count with
  | zero => exact ⟨fun _ => ∅, rfl, by simp⟩
  | succ count ih =>
    obtain ⟨before, result, spec⟩ := ih (by omega)
    obtain ⟨frontier, result', spec'⟩ := calcDomFrontier_spec ordered tree inside before
    refine ⟨frontier, ?_, fun dominator block => ?_⟩
    · rw [List.range_succ, List.foldlM_append, result]
      simp [result']
    · rw [spec', spec, Nat.lt_succ_iff_lt_or_eq, or_and_right]
      exact or_congr_right ⟨fun ⟨same, inFrontier⟩ => ⟨same, same ▸ inFrontier⟩,
        fun ⟨same, inFrontier⟩ => ⟨same, same ▸ inFrontier⟩⟩

end Frontier

/-! ## The depth-first walk -/

section Dfs

/-- The children are the blocks below a block, but for the start block below itself. -/
def ChildrenOf (immDom : ImmDom) (children : Nat → List Nat) : Prop :=
  ∀ block, (children block).Nodup ∧
    ∀ child, child ∈ children block ↔ child ≠ 0 ∧ immDom child = some block

theorem above_iff_exists_child {children : Nat → List Nat} (tree : Growing 0 immDom)
    (childrenOf : ChildrenOf immDom children) {block below : Nat} :
    Above immDom below block ↔
      below = block ∨ ∃ child ∈ children block, Above immDom below child := by
  constructor
  · intro above
    induction above with
    | refl => exact Or.inl rfl
    | @tail mid up above isParent ih =>
      by_cases root : mid = 0
      · subst root
        rw [tree.start_parent] at isParent
        obtain rfl := Option.some.inj isParent
        exact ih
      · exact Or.inr ⟨mid, ((childrenOf up).2 mid).mpr ⟨root, isParent⟩, above⟩
  · rintro (rfl | ⟨child, member, above⟩)
    · exact .refl
    · exact above.tail (((childrenOf block).2 child).mp member).2

theorem child_eq {children : Nat → List Nat} (tree : Growing 0 immDom)
    (childrenOf : ChildrenOf immDom children) {block one other below : Nat}
    (isChild : one ∈ children block) (isChild' : other ∈ children block)
    (above : Above immDom below one) (above' : Above immDom below other) : one = other := by
  have upper {one other : Nat} (isChild : one ∈ children block) (isChild' : other ∈ children block)
      (above : Above immDom one other) : one = other := by
    obtain ⟨root, isParent⟩ := ((childrenOf block).2 other).mp isChild'
    obtain rfl | ⟨up, isParent', above⟩ := above_cases above
    · rfl
    · obtain rfl := Option.some.inj ((((childrenOf block).2 one).mp isChild).2.symm.trans isParent')
      exact absurd (tree.le_of_above above) (tree.decreases isParent root).not_ge
  obtain direct | direct := above_total above above'
  · exact upper isChild isChild' direct
  · exact (upper isChild' isChild direct).symm

/-- The walk over some trees, which takes two indices for each block and puts those of a block
around those of the blocks below it. -/
structure Numbered (immDom : ImmDom) (roots : List Nat) (before after : DfsIndices)
    (visited : Finset Nat) : Prop where
  index_eq : after.index = before.index + 2 * visited.card
  mem_iff (block : Nat) : block ∈ visited ↔ ∃ root ∈ roots, Above immDom block root
  outside (block : Nat) : block ∉ visited → after.domPreIndex block = before.domPreIndex block ∧
    after.domPostIndex block = before.domPostIndex block
  inside (block : Nat) : block ∈ visited → before.index ≤ after.domPreIndex block ∧
    after.domPreIndex block < after.domPostIndex block ∧ after.domPostIndex block < after.index
  nested (block other : Nat) : block ∈ visited → other ∈ visited →
    (after.domPreIndex other ≤ after.domPreIndex block ∧
      after.domPostIndex block ≤ after.domPostIndex other ↔ Above immDom block other)

theorem Numbered.nil (state : DfsIndices) : Numbered immDom [] state state ∅ where
  index_eq := rfl
  mem_iff := by simp
  outside _ _ := ⟨rfl, rfl⟩
  inside _ member := absurd member (Finset.notMem_empty _)
  nested _ _ member := absurd member (Finset.notMem_empty _)

/-- A tree and then trees that have nothing to do with it. -/
theorem Numbered.cons {root : Nat} {roots : List Nat} {before between after : DfsIndices}
    {first others : Finset Nat} (one : Numbered immDom [root] before between first)
    (rest : Numbered immDom roots between after others) (disjoint : Disjoint first others)
    (apart : ∀ block ∈ first, ∀ other ∈ others, ¬ Above immDom block other ∧
      ¬ Above immDom other block) :
    Numbered immDom (root :: roots) before after (first ∪ others) := by
  have kept {block : Nat} (member : block ∈ first) :
      after.domPreIndex block = between.domPreIndex block ∧
        after.domPostIndex block = between.domPostIndex block :=
    rest.outside block (Finset.disjoint_left.mp disjoint member)
  have grows : between.index ≤ after.index := by rw [rest.index_eq]; exact Nat.le_add_right ..
  have later : before.index ≤ between.index := by rw [one.index_eq]; exact Nat.le_add_right ..
  constructor
  case index_eq =>
    rw [rest.index_eq, one.index_eq, Finset.card_union_of_disjoint disjoint]
    omega
  case mem_iff =>
    intro block
    rw [Finset.mem_union, one.mem_iff, rest.mem_iff, List.exists_mem_cons_iff]
    simp
  case outside =>
    intro block out
    rw [Finset.mem_union, not_or] at out
    obtain ⟨pre, post⟩ := rest.outside block out.2
    obtain ⟨pre', post'⟩ := one.outside block out.1
    exact ⟨pre.trans pre', post.trans post'⟩
  case inside =>
    intro block member
    obtain member | member := Finset.mem_union.mp member
    · obtain ⟨pre, post⟩ := kept member
      have bounds := one.inside block member
      omega
    · have bounds := rest.inside block member
      omega
  case nested =>
    intro block other member member'
    obtain member | member := Finset.mem_union.mp member <;>
      obtain member' | member' := Finset.mem_union.mp member'
    · obtain ⟨pre, post⟩ := kept member
      obtain ⟨pre', post'⟩ := kept member'
      rw [pre, post, pre', post']
      exact one.nested block other member member'
    · obtain ⟨pre, post⟩ := kept member
      have bounds := one.inside block member
      have bounds' := rest.inside other member'
      exact iff_of_false (by omega) (apart block member other member').1
    · obtain ⟨pre', post'⟩ := kept member'
      have bounds := rest.inside block member
      have bounds' := one.inside other member'
      exact iff_of_false (by omega) (apart other member' block member).2
    · exact rest.nested block other member member'

/-- The walk over the children, between entering and leaving a block. -/
theorem Numbered.node {children : Nat → List Nat} (tree : Growing 0 immDom)
    (childrenOf : ChildrenOf immDom children) {block : Nat} {before after : DfsIndices}
    {visited : Finset Nat}
    (below : Numbered immDom (children block) (before.enter block) after visited) :
    Numbered immDom [block] before (after.leave block) (insert block visited) := by
  have own : block ∉ visited := by
    intro member
    obtain ⟨child, isChild, above⟩ := (below.mem_iff block).mp member
    obtain ⟨root, isParent⟩ := ((childrenOf block).2 child).mp isChild
    exact absurd (tree.le_of_above above) (tree.decreases isParent root).not_ge
  have up {other : Nat} (member : other ∈ visited) : Above immDom other block := by
    rw [above_iff_exists_child tree childrenOf]
    exact Or.inr ((below.mem_iff other).mp member)
  have down {other : Nat} (member : other ∈ visited) : ¬ Above immDom block other := fun back =>
    own (tree.above_antisymm (up member) back ▸ member)
  have pre_block : after.domPreIndex block = before.index := by
    rw [(below.outside block own).1]
    exact Function.update_self ..
  have post_block : (after.leave block).domPostIndex block = after.index :=
    Function.update_self ..
  have post_of_ne {other : Nat} (strict : other ≠ block) :
      (after.leave block).domPostIndex other = after.domPostIndex other :=
    Function.update_of_ne strict ..
  have strict {other : Nat} (member : other ∈ visited) : other ≠ block := fun same =>
    own (same ▸ member)
  have index_eq : after.index = before.index + 1 + 2 * visited.card := below.index_eq
  have pre_eq (other : Nat) : (after.leave block).domPreIndex other = after.domPreIndex other := rfl
  have bounds {other : Nat} (member : other ∈ visited) :
      before.index + 1 ≤ after.domPreIndex other ∧
      after.domPreIndex other < after.domPostIndex other ∧
        after.domPostIndex other < after.index := below.inside other member
  constructor
  case index_eq =>
    rw [Finset.card_insert_of_notMem own]
    change after.index + 1 = _
    omega
  case mem_iff =>
    intro other
    rw [Finset.mem_insert, below.mem_iff, ← above_iff_exists_child tree childrenOf]
    simp
  case outside =>
    intro other out
    obtain ⟨strict, out⟩ := not_or.mp (mt Finset.mem_insert.mpr out)
    obtain ⟨pre, post⟩ := below.outside other out
    exact ⟨pre.trans (Function.update_of_ne strict ..), (post_of_ne strict).trans post⟩
  case inside =>
    intro other member
    change _ ∧ _ ∧ _ < after.index + 1
    rw [pre_eq]
    obtain rfl | member := Finset.mem_insert.mp member
    · omega
    · rw [post_of_ne (strict member)]
      have := bounds member
      omega
  case nested =>
    intro one other member member'
    rw [pre_eq, pre_eq]
    obtain rfl | under := Finset.mem_insert.mp member <;>
      obtain rfl | under' := Finset.mem_insert.mp member'
    · exact iff_of_true ⟨le_rfl, le_rfl⟩ .refl
    · refine iff_of_false ?_ (down under')
      have := bounds under'
      omega
    · refine iff_of_true ?_ (up under)
      rw [post_of_ne (strict under)]
      have := bounds under
      omega
    · rw [post_of_ne (strict under), post_of_ne (strict under')]
      exact below.nested one other under under'

/-- Blocks that are below no two of the roots. -/
def Apart (immDom : ImmDom) (roots : List Nat) : Prop :=
  roots.Pairwise fun one other => ∀ block, Above immDom block one → ¬ Above immDom block other

theorem foldlM_numbered (visit : DfsIndices → Nat → Option DfsIndices) {roots : List Nat}
    (apart : Apart immDom roots)
    (visits : ∀ root ∈ roots, ∀ (state : DfsIndices) (unvisited : Finset Nat),
      (∀ block, Above immDom block root → block ∈ unvisited) →
      state.index + 2 * unvisited.card ≤ uint32Max - 2 →
      ∃ after visited, visit state root = some after ∧ Numbered immDom [root] state after visited)
    (state : DfsIndices) (unvisited : Finset Nat)
    (here : ∀ root ∈ roots, ∀ block, Above immDom block root → block ∈ unvisited)
    (room : state.index + 2 * unvisited.card ≤ uint32Max - 2) :
    ∃ after visited, roots.foldlM visit state = some after ∧
      Numbered immDom roots state after visited := by
  induction roots generalizing state unvisited with
  | nil => exact ⟨state, ∅, rfl, .nil state⟩
  | cons root roots ih =>
    obtain ⟨apartFirst, apart⟩ := List.pairwise_cons.mp apart
    obtain ⟨hereFirst, here⟩ := List.forall_mem_cons.mp here
    obtain ⟨visitFirst, visits⟩ := List.forall_mem_cons.mp visits
    obtain ⟨between, first, result, numbered⟩ := visitFirst state unvisited hereFirst room
    have mem_first (block : Nat) : block ∈ first ↔ Above immDom block root := by
      rw [numbered.mem_iff]
      simp
    have within : first ⊆ unvisited := fun block member =>
      hereFirst block ((mem_first block).mp member)
    obtain ⟨after, others, result', numbered'⟩ := ih apart visits between (unvisited \ first)
      (fun other member block above => Finset.mem_sdiff.mpr ⟨here other member block above,
        fun visited => apartFirst other member block ((mem_first block).mp visited) above⟩)
      (by
        rw [numbered.index_eq, Finset.card_sdiff_of_subset within]
        have := Finset.card_le_card within
        omega)
    have disjoint : Disjoint first others := by
      refine Finset.disjoint_left.mpr fun block member member' => ?_
      obtain ⟨other, isRoot, above⟩ := (numbered'.mem_iff block).mp member'
      exact apartFirst other isRoot block ((mem_first block).mp member) above
    refine ⟨after, first ∪ others, by rw [List.foldlM_cons, result]; exact result',
      numbered.cons numbered' disjoint fun block member other member' => ⟨fun above => ?_,
        fun above => ?_⟩⟩
    · obtain ⟨root', isRoot, above'⟩ := (numbered'.mem_iff other).mp member'
      exact apartFirst root' isRoot block ((mem_first block).mp member) (above.trans above')
    · obtain ⟨root', isRoot, above'⟩ := (numbered'.mem_iff other).mp member'
      exact apartFirst root' isRoot other (above.trans ((mem_first block).mp member)) above'

theorem calcDfsIndices_spec {children : Nat → List Nat} (tree : Growing 0 immDom)
    (childrenOf : ChildrenOf immDom children)
    (inside : ∀ block, (immDom block).isSome → block < cfg.numBlocks) {height : Nat}
    {state : DfsIndices} {block : Nat} (blockInside : block < cfg.numBlocks)
    (tall : cfg.numBlocks ≤ block + height) (unvisited : Finset Nat)
    (here : ∀ other, Above immDom other block → other ∈ unvisited)
    (room : state.index + 2 * unvisited.card ≤ uint32Max - 2) :
    ∃ after visited, calcDfsIndices children height state block = some after ∧
      Numbered immDom [block] state after visited := by
  induction height generalizing state block unvisited with
  | zero => exact absurd tall blockInside.not_ge
  | succ height ih =>
    have own : block ∈ unvisited := here block .refl
    have card := Finset.card_erase_add_one own
    have apart : Apart immDom (children block) := by
      refine (childrenOf block).1.imp_of_mem
          fun {one other} isChild isChild' distinct below above =>
        ?_
      exact fun above' => distinct (child_eq tree childrenOf isChild isChild' above above')
    obtain ⟨after, visited, result, numbered⟩ := foldlM_numbered
      (calcDfsIndices children height) apart
      (fun child isChild state unvisited here room => by
        obtain ⟨root, isParent⟩ := ((childrenOf block).2 child).mp isChild
        have lower := tree.decreases isParent root
        exact ih (inside child (by rw [isParent]; rfl)) (by omega) unvisited here room)
      (state.enter block) (unvisited.erase block)
      (fun child isChild other above => by
        obtain ⟨root, isParent⟩ := ((childrenOf block).2 child).mp isChild
        have lower := tree.decreases isParent root
        refine Finset.mem_erase.mpr ⟨?_, here other (above.tail isParent)⟩
        rintro rfl
        exact absurd (tree.le_of_above above) lower.not_ge)
      (by
        change state.index + 1 + _ ≤ _
        omega)
    refine ⟨after.leave block, insert block visited, ?_, numbered.node tree childrenOf⟩
    rw [calcDfsIndices, if_pos (by omega), result]
    rfl

theorem calcDomChildren_range (parents : ImmDom) (count block : Nat) :
    calcDomChildren parents (List.range count) block
      = (List.range count).filter fun child => parents child = some block := by
  induction count with
  | zero => rfl
  | succ count ih =>
    rw [calcDomChildren] at ih ⊢
    rw [List.range_succ, List.foldl_append, List.filter_append, List.foldl_cons, List.foldl_nil]
    cases isParent : parents count with
    | none => simp [isParent, ih]
    | some parent =>
      by_cases here : block = parent
      · subst here
        simp [isParent, ih]
      · simp [isParent, Function.update_of_ne here, Ne.symm here, ih]

theorem childrenOf_calcDomChildren
    (inside : ∀ block, (immDom block).isSome → block < cfg.numBlocks) :
    ChildrenOf immDom
      (calcDomChildren (Function.update immDom 0 none) (List.range cfg.numBlocks)) := by
  intro block
  rw [calcDomChildren_range]
  refine ⟨List.nodup_range.filter _, fun child => ?_⟩
  rw [List.mem_filter, List.mem_range, decide_eq_true_eq]
  by_cases root : child = 0
  · simp [root]
  · rw [Function.update_of_ne root]
    exact ⟨fun both => ⟨root, both.2⟩, fun both => ⟨inside child (by rw [both.2]; rfl), both.2⟩⟩

end Dfs

end Dominance

open Dominance

/-- The metadata say what they are meant to. -/
structure DominanceMetadata.Correct (cfg : Cfg) (metadata : DominanceMetadata) : Prop where
  /-- The dominator that all other dominators of the block dominate. -/
  immDom_iff {block idom : Nat} : metadata.immDom block = some idom ↔
    Reachable cfg.Edge 0 block ∧ (Dominates cfg.Edge 0 idom block ∧ idom ≠ block) ∧
      ∀ dominator, Dominates cfg.Edge 0 dominator block → dominator ≠ block →
        Dominates cfg.Edge 0 dominator idom
  mem_domFrontier_iff {dominator block : Nat} :
    block ∈ metadata.domFrontier dominator ↔ cfg.InFrontier dominator block
  dominates_iff {parent child : Nat} :
    nirBlockDominates metadata parent child = true ↔ Dominates cfg.Edge 0 parent child
  unreachable_iff {block : Nat} :
    nirBlockIsUnreachable metadata block = true ↔ ¬ Reachable cfg.Edge 0 block

section Correct

variable {cfg : Cfg} {immDom : ImmDom}

theorem update_start_eq_some_iff (tree : Exact cfg.Edge 0 immDom) {block idom : Nat} :
    Function.update immDom 0 none block = some idom ↔
      Reachable cfg.Edge 0 block ∧ (Dominates cfg.Edge 0 idom block ∧ idom ≠ block) ∧
        ∀ dominator, Dominates cfg.Edge 0 dominator block → dominator ≠ block →
          Dominates cfg.Edge 0 dominator idom := by
  by_cases root : block = 0
  · subst root
    rw [Function.update_self]
    refine iff_of_false nofun fun both => both.2.1.2 ?_
    exact List.mem_singleton.mp (both.2.1.1 _ .nil)
  rw [Function.update_of_ne root]
  constructor
  · intro isIdom
    have inTree : (immDom block).isSome := by rw [isIdom]; rfl
    refine ⟨tree.reachable inTree, (tree.above_parent_iff isIdom root).mp .refl, ?_⟩
    intro dominator dominates strict
    exact tree.dominates (tree.closed isIdom)
      ((tree.above_parent_iff isIdom root).mpr ⟨dominates, strict⟩)
  · rintro ⟨reachable, strict, lowest⟩
    obtain ⟨up, isParent⟩ := Option.isSome_iff_exists.mp (tree.isSome_of_reachable reachable)
    obtain ⟨dominates, strict'⟩ := (tree.above_parent_iff isParent root).mp .refl
    rw [isParent, Dominates.antisymm (tree.reachable (tree.closed isParent))
      (lowest up dominates strict')
      (tree.dominates (tree.closed isParent) ((tree.above_parent_iff isParent root).mpr strict))]

theorem above_start_iff (tree : Exact cfg.Edge 0 immDom) {block : Nat} :
    Above immDom block 0 ↔ Reachable cfg.Edge 0 block := by
  refine ⟨fun above => tree.reachable ?_, fun reachable =>
    (tree.above_iff reachable).mpr (start_dominates block)⟩
  obtain rfl | ⟨up, isParent, -⟩ := above_cases above
  · rw [tree.start_parent]
    rfl
  · rw [isParent]
    rfl

/-- The state of the indices before the walk. -/
def DfsIndices.init : DfsIndices :=
  { index := 1, domPreIndex := fun _ => uint32Max, domPostIndex := fun _ => 0 }

theorem indices_le_iff (tree : Exact cfg.Edge 0 immDom) {indices : DfsIndices}
    {visited : Finset Nat} (numbered : Numbered immDom [0] DfsIndices.init indices visited)
    (fits : indices.index ≤ uint32Max) {parent child : Nat} :
    indices.domPreIndex parent ≤ indices.domPreIndex child ∧
      indices.domPostIndex child ≤ indices.domPostIndex parent ↔
        Dominates cfg.Edge 0 parent child := by
  have mem_visited (block : Nat) : block ∈ visited ↔ Reachable cfg.Edge 0 block := by
    rw [numbered.mem_iff, ← above_start_iff tree]
    simp
  by_cases reachable : Reachable cfg.Edge 0 child
  · have member := (mem_visited child).mpr reachable
    by_cases reachable' : Reachable cfg.Edge 0 parent
    · rw [numbered.nested child parent member ((mem_visited parent).mpr reachable'),
        tree.above_iff reachable]
    · have outside : indices.domPreIndex parent = uint32Max :=
        (numbered.outside parent (mt (mem_visited parent).mp reachable')).1
      have bounds := numbered.inside child member
      refine iff_of_false (by omega) fun dominates => ?_
      obtain ⟨visited, walk⟩ := reachable
      obtain ⟨_, _, -, part⟩ := walk.upTo (dominates visited walk)
      exact reachable' part.reachable
  · obtain ⟨pre, post⟩ := numbered.outside child (mt (mem_visited child).mp reachable)
    refine iff_of_true ⟨?_, ?_⟩ (dominates_of_not_reachable reachable)
    · rw [pre]
      change _ ≤ uint32Max
      by_cases member : parent ∈ visited
      · have bounds := numbered.inside parent member
        omega
      · rw [(numbered.outside parent member).1]
        rfl
    · rw [post]
      exact Nat.zero_le _

/-- On the blocks of an ordered graph the metadata are right. -/
theorem nirCalcDominanceImpl_ordered (ordered : cfg.Ordered)
    (fits : 2 * cfg.numBlocks + 1 ≤ uint32Max - 2) :
    ∃ metadata, nirCalcDominanceImpl cfg = some metadata ∧ metadata.Correct cfg := by
  obtain ⟨immDom, loop, tree⟩ := calcLoop_exact ordered
  obtain ⟨frontier, frontiers, frontier_spec⟩ :=
    foldlM_calcDomFrontier_spec ordered tree cfg.numBlocks le_rfl
  have inside (block : Nat) (inTree : (immDom block).isSome) : block < cfg.numBlocks :=
    reachable_lt ordered (tree.reachable inTree)
  have below (block : Nat) (above : Above immDom block 0) : block ∈ Finset.range cfg.numBlocks :=
    Finset.mem_range.mpr (reachable_lt ordered ((above_start_iff tree).mp above))
  have room : DfsIndices.init.index + 2 * (Finset.range cfg.numBlocks).card ≤ uint32Max - 2 := by
    rw [Finset.card_range]
    change 1 + _ ≤ _
    omega
  have tall : cfg.numBlocks ≤ 0 + cfg.numBlocks := Nat.le_add_left ..
  obtain ⟨indices, visited, dfs, numbered⟩ := calcDfsIndices_spec tree.toGrowing
    (childrenOf_calcDomChildren inside) inside ordered.nonempty tall _ below room
  have small : indices.index ≤ uint32Max := by
    have within : visited ⊆ Finset.range cfg.numBlocks := fun block member => by
      obtain ⟨root, isRoot, above⟩ := (numbered.mem_iff block).mp member
      obtain rfl := List.mem_singleton.mp isRoot
      exact below block above
    have count := Finset.card_le_card within
    rw [Finset.card_range] at count
    have index_eq : indices.index = 1 + 2 * visited.card := numbered.index_eq
    omega
  refine ⟨{ immDom := Function.update immDom 0 none
            domFrontier := frontier
            domChildren :=
              calcDomChildren (Function.update immDom 0 none) (List.range cfg.numBlocks)
            domPreIndex := indices.domPreIndex
            domPostIndex := indices.domPostIndex }, ?_, ?_⟩
  · rw [DfsIndices.init] at dfs
    simp [nirCalcDominanceImpl, loop, frontiers, dfs]
  constructor
  case immDom_iff => exact update_start_eq_some_iff tree
  case mem_domFrontier_iff =>
    intro dominator block
    refine (frontier_spec dominator block).trans (and_iff_right_of_imp fun inFrontier => ?_)
    obtain ⟨⟨pred, steps, -⟩, -⟩ := inFrontier
    exact steps.1
  case dominates_iff =>
    intro parent child
    rw [← indices_le_iff tree numbered small, nirBlockDominates, Bool.and_eq_true,
      decide_eq_true_eq, decide_eq_true_eq]
  case unreachable_iff =>
    intro block
    rw [nirBlockIsUnreachable, Bool.and_eq_true, decide_eq_true_eq, ← tree.isSome_iff]
    by_cases root : block = 0
    · subst root
      rw [tree.start_parent]
      simp
    · dsimp only
      rw [Function.update_of_ne root, Option.isNone_iff_eq_none, Option.not_isSome_iff_eq_none]
      exact and_iff_right (Nat.pos_of_ne_zero root)

end Correct

end SpirvToDxil.Nir
