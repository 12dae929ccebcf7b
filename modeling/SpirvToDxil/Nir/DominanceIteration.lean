import Mathlib.Data.List.Perm.Subperm
import SpirvToDxil.Nir.Dominance
import SpirvToDxil.Util.DominatorTree

/-!
# The immediate dominators

Every pass of `nir_calc_dominance_impl` keeps the dominators of a block above it and rules out what
a walk of one more step avoids. After as many passes as there are blocks the tree is the dominator
tree and a further pass changes nothing, so that the loop ends with it.
-/

namespace SpirvToDxil.Nir

open FlowGraph

/-- A block of the function and one that leads to it. -/
def Cfg.Edge (cfg : Cfg) (pred block : Nat) : Prop :=
  block < cfg.numBlocks ∧ pred ∈ cfg.predecessors block

/-- Blocks are numbered so that control comes to each from an earlier one first. -/
structure Cfg.Ordered (cfg : Cfg) : Prop where
  nonempty : 0 < cfg.numBlocks
  start_predecessors : cfg.predecessors 0 = []
  inside {pred block : Nat} : cfg.Edge pred block → pred < cfg.numBlocks
  earlier {block : Nat} : block ≠ 0 → Reachable cfg.Edge 0 block →
    ∃ pred, cfg.Edge pred block ∧ pred < block ∧ Reachable cfg.Edge 0 pred

namespace Dominance

section Intersect

variable {immDom : ImmDom}

theorem intersectLoop_spec (tree : Growing 0 immDom) {fuel b1 b2 : Nat} (enough : b1 + b2 ≤ fuel)
    (inTree₁ : (immDom b1).isSome) (inTree₂ : (immDom b2).isSome) :
    ∃ meet, intersectLoop immDom fuel b1 b2 = some meet ∧
      ∀ ancestor, Above immDom meet ancestor ↔
        Above immDom b1 ancestor ∧ Above immDom b2 ancestor := by
  -- the later block is not above the earlier one, so that its parent has the same common ancestors
  have above_up {high low up : Nat} (later : low < high) (isParent : immDom high = some up)
      (ancestor : Nat) (above : Above immDom low ancestor) :
      Above immDom high ancestor ↔ Above immDom up ancestor := by
    refine ⟨fun above' => ?_, .head isParent⟩
    obtain rfl | ⟨_, isParent', above'⟩ := above_cases above'
    · exact absurd (tree.le_of_above above) later.not_ge
    · rwa [Option.some.inj (isParent.symm.trans isParent')]
  induction fuel generalizing b1 b2 with
  | zero =>
    obtain ⟨rfl, rfl⟩ := Nat.add_eq_zero_iff.mp (Nat.le_zero.mp enough)
    exact ⟨0, rfl, fun ancestor => (and_self_iff).symm⟩
  | succ fuel ih =>
    rw [intersectLoop]
    by_cases same : b1 = b2
    · rw [if_pos same]
      exact ⟨b1, rfl, fun ancestor => by rw [same, and_self_iff]⟩
    rw [if_neg same]
    by_cases later : b1 > b2
    · rw [if_pos later]
      obtain ⟨up, isParent⟩ := Option.isSome_iff_exists.mp inTree₁
      have lower := tree.decreases isParent (Nat.ne_zero_of_lt later)
      have shorter : up + b2 ≤ fuel := by omega
      obtain ⟨meet, result, spec⟩ := ih shorter (tree.closed isParent) inTree₂
      refine ⟨meet, by rw [isParent]; exact result, fun ancestor => ?_⟩
      rw [spec]
      exact and_congr_left fun above => (above_up later isParent ancestor above).symm
    · rw [if_neg later]
      replace later : b1 < b2 := by omega
      obtain ⟨up, isParent⟩ := Option.isSome_iff_exists.mp inTree₂
      have lower := tree.decreases isParent (Nat.ne_zero_of_lt later)
      have shorter : b1 + up ≤ fuel := by omega
      obtain ⟨meet, result, spec⟩ := ih shorter inTree₁ (tree.closed isParent)
      refine ⟨meet, by rw [isParent]; exact result, fun ancestor => ?_⟩
      rw [spec]
      exact and_congr_right fun above => (above_up later isParent ancestor above).symm

/-- `newIdom` is the meet of those of the predecessors that are in the tree. -/
def Met (immDom : ImmDom) (preds : List Nat) : Option Nat → Prop
  | none => ∀ pred ∈ preds, immDom pred = none
  | some meet => (∃ pred ∈ preds, (immDom pred).isSome) ∧ (immDom meet).isSome ∧
      ∀ ancestor, Above immDom meet ancestor ↔
        ∀ pred ∈ preds, (immDom pred).isSome → Above immDom pred ancestor

theorem Met.nil : Met immDom [] none :=
  fun _ member => absurd member List.not_mem_nil

theorem meetPredecessor_spec (tree : Growing 0 immDom) {preds : List Nat} {newIdom : Option Nat}
    (met : Met immDom preds newIdom) (pred : Nat) :
    ∃ newIdom', meetPredecessor immDom newIdom pred = some newIdom' ∧
      Met immDom (preds ++ [pred]) newIdom' := by
  unfold meetPredecessor
  by_cases inTree : (immDom pred).isSome
  · rw [if_pos inTree]
    cases newIdom with
    | none =>
      refine ⟨some pred, rfl, ⟨pred, by simp, inTree⟩, inTree, fun ancestor => ?_⟩
      constructor
      · intro above other member otherInTree
        obtain old | rfl := List.mem_append.mp member |>.imp_right List.mem_singleton.mp
        · rw [met other old] at otherInTree
          cases otherInTree
        · exact above
      · exact fun all => all pred (by simp) inTree
    | some idom =>
      obtain ⟨⟨first, member, firstInTree⟩, idomInTree, spec⟩ := met
      obtain ⟨meet, result, meets⟩ := intersectLoop_spec tree le_rfl inTree idomInTree
      refine ⟨some meet, ?_, ⟨first, List.mem_append_left _ member, firstInTree⟩, ?_, ?_⟩
      · change some <$> intersectLoop immDom (pred + idom) pred idom = _
        rw [result]
        rfl
      · exact tree.isSome_of_above ((meets meet).mp .refl).1 inTree
      · intro ancestor
        rw [meets, spec, List.forall_mem_append, List.forall_mem_singleton, and_comm]
        exact and_congr_right fun _ => ⟨fun above _ => above, fun above => above inTree⟩
  · rw [if_neg inTree]
    refine ⟨newIdom, rfl, ?_⟩
    cases newIdom with
    | none =>
      exact List.forall_mem_append.mpr ⟨met,
        List.forall_mem_singleton.mpr (Option.not_isSome_iff_eq_none.mp inTree)⟩
    | some idom =>
      obtain ⟨⟨first, member, firstInTree⟩, idomInTree, spec⟩ := met
      refine ⟨⟨first, List.mem_append_left _ member, firstInTree⟩, idomInTree, fun ancestor => ?_⟩
      rw [spec, List.forall_mem_append, List.forall_mem_singleton]
      exact (and_iff_left fun inTree' => absurd inTree' inTree).symm

theorem foldlM_meetPredecessor_spec (tree : Growing 0 immDom) (preds : List Nat)
    {before : List Nat} {newIdom : Option Nat} (met : Met immDom before newIdom) :
    ∃ newIdom', preds.foldlM (meetPredecessor immDom) newIdom = some newIdom' ∧
      Met immDom (before ++ preds) newIdom' := by
  induction preds generalizing before newIdom with
  | nil => exact ⟨newIdom, rfl, by rwa [List.append_nil]⟩
  | cons pred preds ih =>
    obtain ⟨next, result, met'⟩ := meetPredecessor_spec tree met pred
    obtain ⟨last, rest, met''⟩ := ih met'
    refine ⟨last, ?_, by rwa [List.append_assoc] at met''⟩
    rw [List.foldlM_cons, result]
    exact rest

end Intersect

section Pass

variable {cfg : Cfg} {immDom : ImmDom}

/-- What a visit of a block that is reached does. -/
theorem calcDominance_of_reachable (tree : Growing 0 immDom) {block pred : Nat}
    (steps : cfg.Edge pred block) (inTree : (immDom pred).isSome) (lower : pred < block) :
    ∃ meet, IsMeet cfg.Edge immDom block meet ∧ meet < block ∧
      calcDominance cfg immDom block =
        some (Function.update immDom block (some meet), decide (immDom block ≠ some meet)) := by
  obtain ⟨newIdom, result, met⟩ := foldlM_meetPredecessor_spec tree (cfg.predecessors block) .nil
  rw [List.nil_append] at met
  cases newIdom with
  | none =>
    rw [met pred steps.2] at inTree
    cases inTree
  | some meet =>
    obtain ⟨⟨first, member, firstInTree⟩, meetInTree, spec⟩ := met
    have isMeet : IsMeet cfg.Edge immDom block meet :=
      { exists_edge := ⟨pred, steps, inTree⟩
        above_iff := fun {ancestor} => (spec ancestor).trans
          ⟨fun all other steps => all other steps.2,
            fun all other member => all other ⟨steps.1, member⟩⟩ }
    refine ⟨meet, isMeet, ?_, ?_⟩
    · exact (tree.le_of_above (isMeet.above_iff.mp .refl pred steps inTree)).trans_lt lower
    · rw [calcDominance, result]
      by_cases same : immDom block = some meet
      · rw [← same, Function.update_eq_self]
        simp
      · simp [same]

theorem calcDominance_of_no_predecessor (tree : Growing 0 immDom) {block : Nat}
    (outside : immDom block = none)
    (none : ∀ pred ∈ cfg.predecessors block, immDom pred = none) :
    calcDominance cfg immDom block = some (immDom, false) := by
  obtain ⟨newIdom, result, met⟩ := foldlM_meetPredecessor_spec tree (cfg.predecessors block) .nil
  rw [List.nil_append] at met
  cases newIdom with
  | none =>
    rw [calcDominance, result]
    simp [outside]
  | some meet =>
    obtain ⟨⟨first, member, firstInTree⟩, -⟩ := met
    rw [none first member] at firstInTree
    cases firstInTree

/-- The state of a pass before the visit of a block: the earlier blocks have been through one round
more than the others. -/
structure Round (cfg : Cfg) (round block : Nat) (immDom : ImmDom) : Prop where
  tree : Approximates cfg.Edge 0 immDom
  seen {other : Nat} : other < block → Reachable cfg.Edge 0 other → (immDom other).isSome
  separates : Separates cfg.Edge 0 (fun other => if other < block then round + 1 else round) immDom

theorem reachable_lt (ordered : cfg.Ordered) {block : Nat}
    (reachable : Reachable cfg.Edge 0 block) :
    block < cfg.numBlocks := by
  obtain ⟨visited, walk⟩ := reachable
  cases walk with
  | nil => exact ordered.nonempty
  | snoc walk steps => exact steps.1

theorem rounds_succ (round block : Nat) :
    Function.update (fun other => if other < block then round + 1 else round) block (round + 1)
      = fun other => if other < block + 1 then round + 1 else round := by
  funext other
  by_cases here : other = block
  · rw [here, Function.update_self, if_pos (Nat.lt_succ_self block)]
  · rw [Function.update_of_ne here]
    have before : other < block ↔ other < block + 1 := by omega
    simp only [before]

theorem Round.start {round : Nat} (state : Round cfg round 0 immDom) :
    Round cfg round 1 immDom where
  tree := state.tree
  seen {other} before _ := by
    obtain rfl : other = 0 := by omega
    rw [state.tree.start_parent]
    rfl
  separates := by
    intro block visited walk short
    by_cases root : block = 0
    · subst root
      refine ⟨by rw [state.tree.start_parent]; rfl, fun ancestor above => ?_⟩
      rw [state.tree.above_start above]
      exact walk.mem
    · refine state.separates block visited walk ?_
      dsimp only at short ⊢
      rwa [if_neg (by omega)] at short ⊢

theorem Round.update {round block meet : Nat} (state : Round cfg round block immDom)
    (other : block ≠ 0) (isMeet : IsMeet cfg.Edge immDom block meet) (lower : meet < block) :
    Round cfg round (block + 1) (Function.update immDom block (some meet)) where
  tree := state.tree.update other isMeet lower
  seen {earlier} before reachable := by
    by_cases here : earlier = block
    · rw [here, Function.update_self]
      rfl
    · rw [Function.update_of_ne here]
      exact state.seen (by omega) reachable
  separates := by
    rw [← rounds_succ]
    refine state.separates.update other isMeet (fun _ => ?_) (fun _ => ?_) <;> split <;> omega

theorem Round.skip {round block : Nat} (state : Round cfg round block immDom)
    (unreachable : ¬ Reachable cfg.Edge 0 block) : Round cfg round (block + 1) immDom where
  tree := state.tree
  seen {earlier} before reachable := by
    refine state.seen ?_ reachable
    have here : earlier ≠ block := fun same => unreachable (same ▸ reachable)
    omega
  separates := by
    rw [← rounds_succ]
    intro other visited walk short
    have here : other ≠ block := fun same => unreachable (same ▸ walk.reachable)
    rw [Function.update_of_ne here] at short
    exact state.separates other visited walk short

theorem calcPass_spec (ordered : cfg.Ordered) {round : Nat} (state : Round cfg round 0 immDom)
    (count : Nat) (inside : count ≤ cfg.numBlocks) :
    ∃ immDom' progress, calcPass cfg immDom (List.range count) = some (immDom', progress) ∧
      Round cfg round count immDom' ∧ (progress = false → immDom' = immDom) ∧
      (Exact cfg.Edge 0 immDom → immDom' = immDom ∧ progress = false) := by
  induction count with
  | zero => exact ⟨immDom, false, rfl, state, fun _ => rfl, fun _ => ⟨rfl, rfl⟩⟩
  | succ block ih =>
    obtain ⟨before, progress, result, round', unchanged, stable⟩ := ih (by omega)
    -- the pass is a pass over the earlier blocks and the visit of this one
    have split (after : ImmDom) (more : Bool)
        (visit : (if block ≠ 0 then calcDominance cfg before block else some (before, false))
          = some (after, more)) :
        calcPass cfg immDom (List.range (block + 1)) = some (after, progress || more) := by
      rw [calcPass] at result ⊢
      rw [List.range_succ, List.foldlM_append, result]
      by_cases root : block = 0
      · rw [if_neg (not_not_intro root)] at visit
        obtain ⟨rfl, rfl⟩ := Prod.mk.inj (Option.some.inj visit)
        simp [root]
      · rw [if_pos root] at visit
        simp [root, visit]
    by_cases root : block = 0
    · subst root
      refine ⟨before, progress || false, split before false rfl, round'.start, ?_, ?_⟩
      · rwa [Bool.or_false]
      · rwa [Bool.or_false]
    by_cases reachable : Reachable cfg.Edge 0 block
    · obtain ⟨pred, steps, earlier, predReachable⟩ := ordered.earlier root reachable
      obtain ⟨meet, isMeet, lower, visit⟩ := calcDominance_of_reachable round'.tree.toGrowing steps
        (round'.seen earlier predReachable) earlier
      refine ⟨_, _, split _ _ ((if_pos root).trans visit), round'.update root isMeet lower, ?_, ?_⟩
      · intro none
        obtain ⟨none₁, none₂⟩ := Bool.or_eq_false_iff.mp none
        have same : before block = some meet := by
          simpa only [ne_eq, decide_not, Bool.not_eq_false', decide_eq_true_eq] using none₂
        rw [← same, Function.update_eq_self, unchanged none₁]
      · intro exact
        obtain ⟨rfl, rfl⟩ := stable exact
        have same := exact.parent_eq_of_isMeet root isMeet lower
        rw [← same, Function.update_eq_self]
        simp
    · have outside : before block = none := by
        by_contra inTree
        exact reachable (round'.tree.reachable (Option.isSome_iff_ne_none.mpr inTree))
      have visit : calcDominance cfg before block = some (before, false) :=
        calcDominance_of_no_predecessor round'.tree.toGrowing outside fun pred member => by
          by_contra inTree
          exact reachable ((round'.tree.reachable (Option.isSome_iff_ne_none.mpr inTree)).snoc
            ⟨inside, member⟩)
      refine ⟨before, progress || false, split _ _ ((if_pos root).trans visit),
        round'.skip reachable, ?_, ?_⟩
      · rwa [Bool.or_false]
      · rwa [Bool.or_false]

theorem Round.next (ordered : cfg.Ordered) {round : Nat}
    (state : Round cfg round cfg.numBlocks immDom) : Round cfg (round + 1) 0 immDom where
  tree := state.tree
  seen before := absurd before (Nat.not_lt_zero _)
  separates := by
    intro block visited walk short
    dsimp only at short
    rw [if_neg (Nat.not_lt_zero block)] at short
    refine state.separates block visited walk ?_
    dsimp only
    rwa [if_pos (reachable_lt ordered walk.reachable)]

theorem Walk.length_le (ordered : cfg.Ordered) {block : Nat} {visited : List Nat}
    (walk : Walk cfg.Edge 0 block visited) (simple : visited.Nodup) :
    visited.length ≤ cfg.numBlocks := by
  have within : visited ⊆ List.range cfg.numBlocks := by
    clear simple
    induction walk with
    | nil => exact fun other member =>
        List.mem_singleton.mp member ▸ List.mem_range.mpr ordered.nonempty
    | snoc walk steps ih => exact List.cons_subset.mpr ⟨List.mem_range.mpr steps.1, ih⟩
  exact (List.subperm_of_subset simple within).length_le.trans_eq List.length_range

theorem Round.exact (ordered : cfg.Ordered) {round : Nat} (state : Round cfg round 0 immDom)
    (enough : cfg.numBlocks ≤ round) : Exact cfg.Edge 0 immDom :=
  state.tree.exact state.separates fun block visited walk simple => by
    rw [if_neg (Nat.not_lt_zero block)]
    exact (Walk.length_le ordered walk simple).trans enough

/-- A pass that changes nothing could as well be followed by any number of passes. -/
theorem Round.add (ordered : cfg.Ordered) {round : Nat} (state : Round cfg round 0 immDom)
    (stable : calcPass cfg immDom (List.range cfg.numBlocks) = some (immDom, false)) (more : Nat) :
    Round cfg (round + more) 0 immDom := by
  induction more with
  | zero => exact state
  | succ more ih =>
    obtain ⟨immDom', progress, result, round', -, -⟩ := calcPass_spec ordered ih _ le_rfl
    obtain ⟨rfl, -⟩ := Prod.mk.inj (Option.some.inj (stable.symm.trans result))
    exact round'.next ordered

/-- As many passes as there are blocks are enough, and one more in which nothing changes. -/
theorem calcLoop_spec (ordered : cfg.Ordered) {fuel round : Nat}
    (state : Round cfg round 0 immDom) (left : round ≤ cfg.numBlocks)
    (enough : cfg.numBlocks < round + fuel) :
    ∃ immDom', calcLoop cfg fuel immDom = some immDom' ∧ Exact cfg.Edge 0 immDom' := by
  induction fuel generalizing round immDom with
  | zero => exact absurd left enough.not_ge
  | succ fuel ih =>
    obtain ⟨immDom', progress, result, round', unchanged, stable⟩ :=
      calcPass_spec ordered state _ le_rfl
    rw [calcLoop, result]
    cases progress with
    | false =>
      obtain rfl := unchanged rfl
      exact ⟨immDom', rfl, (state.add ordered result cfg.numBlocks).exact ordered (by omega)⟩
    | true =>
      have left' : round < cfg.numBlocks := by
        by_contra all
        cases (stable (state.exact ordered (Nat.not_lt.mp all))).2
      exact ih (round'.next ordered) left' (by omega)

theorem eq_zero_of_initBlock {block : Nat} (inTree : (initBlock block).isSome) : block = 0 := by
  by_contra root
  rw [initBlock, if_neg root] at inTree
  cases inTree

theorem initBlock_growing : Growing 0 initBlock where
  start_parent := rfl
  decreases isParent other :=
    absurd (eq_zero_of_initBlock (Option.isSome_iff_exists.mpr ⟨_, isParent⟩)) other
  closed {block up} isParent := by
    obtain rfl := eq_zero_of_initBlock (Option.isSome_iff_exists.mpr ⟨_, isParent⟩)
    rw [← Option.some.inj isParent]
    rfl

theorem Round.init : Round cfg 0 0 initBlock where
  tree :=
    { toGrowing := initBlock_growing
      above_of_dominates := by
        intro block dominator inTree dominates
        obtain rfl := eq_zero_of_initBlock inTree
        rw [List.mem_singleton.mp (dominates _ .nil)]
      onward := by
        intro block ancestor inTree above
        obtain rfl := eq_zero_of_initBlock inTree
        rw [initBlock_growing.above_start above] }
  seen before := absurd before (Nat.not_lt_zero _)
  separates := by
    intro block visited walk short
    obtain ⟨before, rfl⟩ := walk.exists_cons
    exact absurd short (Nat.not_succ_le_zero _)

/-- The loop of `nir_calc_dominance_impl` ends, with the dominator tree. -/
theorem calcLoop_exact (ordered : cfg.Ordered) :
    ∃ immDom, calcLoop cfg (cfg.numBlocks + 1) initBlock = some immDom ∧
      Exact cfg.Edge 0 immDom :=
  calcLoop_spec ordered Round.init (Nat.zero_le _) (by omega)

end Pass

end Dominance

end SpirvToDxil.Nir
