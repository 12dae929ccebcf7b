import Mathlib.Logic.Function.Basic
import SpirvToDxil.Util.Dominance

/-!
# Iterating towards the dominator tree

The parent of a block is set again and again to the meet of the blocks that lead to it. The tree
keeps every dominator of a block above it, and each round rules out the ancestors that a longer
walk avoids, so that after as many rounds as there are blocks only the dominators are left. This
holds in whatever order the blocks are visited, although a new parent of one block changes the
ancestors of all blocks below it.
-/

namespace FlowGraph

universe u
variable {Block : Type u}

section Update

variable [DecidableEq Block] {parent : Block → Option Block} {changed up block ancestor : Block}

/-- Where an ancestor in the changed tree comes from. -/
theorem above_of_above_update
    (above : Above (Function.update parent changed (some up)) block ancestor) :
    Above parent block ancestor ∨ Above parent block changed ∧ Above parent up ancestor := by
  induction above using Relation.ReflTransGen.head_induction_on with
  | refl => exact Or.inl .refl
  | @head child next isParent _ ih =>
    by_cases here : child = changed
    · rw [here, Function.update_self] at isParent
      obtain rfl := Option.some.inj isParent
      rw [here]
      exact Or.inr ⟨.refl, ih.elim id And.right⟩
    · rw [Function.update_of_ne here] at isParent
      exact ih.imp (.head isParent) (And.imp_left (.head isParent))

variable (changed up) in
/-- What becomes of an ancestor. -/
theorem above_update_of_above (above : Above parent block ancestor) :
    Above (Function.update parent changed (some up)) block ancestor ∨
      Above (Function.update parent changed (some up)) block changed ∧
        Above parent changed ancestor := by
  induction above using Relation.ReflTransGen.head_induction_on with
  | refl => exact Or.inl .refl
  | @head child next isParent rest ih =>
    by_cases here : child = changed
    · rw [here] at isParent ⊢
      exact Or.inr ⟨.refl, .head isParent rest⟩
    · have isParent' : Function.update parent changed (some up) child = some next := by
        rwa [Function.update_of_ne here]
      exact ih.imp (.head isParent') (And.imp_left (.head isParent'))

theorem above_update_of_not_above (above : Above parent block ancestor)
    (apart : ¬ Above parent block changed) :
    Above (Function.update parent changed (some up)) block ancestor := by
  induction above using Relation.ReflTransGen.head_induction_on with
  | refl => exact .refl
  | @head child next isParent _ ih =>
    have here : child ≠ changed := by
      rintro rfl
      exact apart .refl
    refine .head ?_ (ih fun above => apart (.head isParent above))
    rwa [Function.update_of_ne here]

end Update

variable [LinearOrder Block] {edge : Block → Block → Prop} {start : Block}
  {parent : Block → Option Block}

/-- The lowest block above all blocks of the tree that lead to the given one. -/
structure IsMeet (edge : Block → Block → Prop) (parent : Block → Option Block)
    (block meet : Block) : Prop where
  exists_edge : ∃ pred, edge pred block ∧ (parent pred).isSome
  above_iff {ancestor : Block} : Above parent meet ancestor ↔
    ∀ pred, edge pred block → (parent pred).isSome → Above parent pred ancestor

/-- The tree holds only blocks that are reached, and has all their dominators above them. -/
structure Approximates (edge : Block → Block → Prop) (start : Block)
    (parent : Block → Option Block) : Prop extends Growing start parent where
  above_of_dominates {block dominator : Block} : (parent block).isSome →
    Dominates edge start dominator block → Above parent block dominator
  /-- A block is reached from its ancestors without a block below them in the order. -/
  onward {block ancestor : Block} : (parent block).isSome → Above parent block ancestor →
    Relation.ReflTransGen (fun one two => edge one two ∧ ancestor ≤ two) ancestor block

theorem Approximates.reachable (tree : Approximates edge start parent) {block : Block}
    (inTree : (parent block).isSome) : Reachable edge start block := by
  have onward := tree.onward inTree (tree.above_of_dominates inTree (start_dominates block))
  clear inTree
  induction onward with
  | refl => exact ⟨_, .nil⟩
  | tail _ steps ih => exact ih.snoc steps.1

/-- A dominator of a block is a dominator of the ancestors of the block that come after it. -/
theorem Approximates.dominates_of_above (tree : Approximates edge start parent)
    {block between dominator : Block} (inTree : (parent block).isSome)
    (dominates : Dominates edge start dominator block) (above : Above parent block between)
    (below : dominator < between) : Dominates edge start dominator between := by
  intro visited walk
  have avoiding : Relation.ReflTransGen (fun one two => edge one two ∧ two ≠ dominator)
      between block :=
    (tree.onward inTree above).lift id fun one two steps =>
      ⟨steps.1, (below.trans_le steps.2).ne'⟩
  obtain ⟨later, walk', avoids⟩ := walk.extend avoiding
  exact avoids (dominates later walk')

section Step

variable {changed up : Block}

theorem IsMeet.isSome (meet : IsMeet edge parent changed up) (tree : Growing start parent) :
    (parent up).isSome := by
  obtain ⟨pred, steps, inTree⟩ := meet.exists_edge
  exact tree.isSome_of_above (meet.above_iff.mp .refl pred steps inTree) inTree

variable [DecidableEq Block]

theorem Growing.update (tree : Growing start parent) (other : changed ≠ start)
    (lower : up < changed) (inTree : (parent up).isSome) :
    Growing start (Function.update parent changed (some up)) where
  start_parent := by rw [Function.update_of_ne other.symm, tree.start_parent]
  decreases {block up'} isParent notStart := by
    by_cases here : block = changed
    · rw [here, Function.update_self] at isParent
      rw [here, ← Option.some.inj isParent]
      exact lower
    · rw [Function.update_of_ne here] at isParent
      exact tree.decreases isParent notStart
  closed {block up'} isParent := by
    by_cases there : up' = changed
    · rw [there, Function.update_self]
      rfl
    · rw [Function.update_of_ne there]
      by_cases here : block = changed
      · rw [here, Function.update_self] at isParent
        rwa [← Option.some.inj isParent]
      · rw [Function.update_of_ne here] at isParent
        exact tree.closed isParent

/-- Setting the parent of a block to the meet keeps the dominators. -/
theorem Approximates.update (tree : Approximates edge start parent) (other : changed ≠ start)
    (meet : IsMeet edge parent changed up) (lower : up < changed) :
    Approximates edge start (Function.update parent changed (some up)) where
  toGrowing := tree.toGrowing.update other lower (meet.isSome tree.toGrowing)
  above_of_dominates := by
    intro block dominator inTree dominates
    -- what dominates the changed block is above its new parent
    have upper (dominates : Dominates edge start dominator changed) :
        Above (Function.update parent changed (some up)) changed dominator := by
      by_cases same : dominator = changed
      · rw [same]
      refine .head (Function.update_self ..) (above_update_of_not_above ?_ ?_)
      · exact meet.above_iff.mpr fun pred steps inTree =>
          tree.above_of_dominates inTree (dominates.of_edge same steps)
      · exact fun above => absurd (tree.le_of_above above) lower.not_ge
    by_cases here : block = changed
    · rw [here] at dominates ⊢
      exact upper dominates
    rw [Function.update_of_ne here] at inTree
    have above := tree.above_of_dominates inTree dominates
    obtain kept | ⟨passes, above'⟩ := above_update_of_above changed up above
    · exact kept
    obtain same | below := (tree.le_of_above above').eq_or_lt
    · rw [same]
      exact passes
    refine .trans passes (upper (tree.dominates_of_above inTree dominates ?_ below))
    exact (above_of_above_update passes).elim id And.left
  onward := by
    intro block ancestor inTree above
    have old (above : Above parent block ancestor) : Relation.ReflTransGen
        (fun one two => edge one two ∧ ancestor ≤ two) ancestor block := by
      by_cases inTree' : (parent block).isSome
      · exact tree.onward inTree' above
      · obtain rfl | ⟨next, isParent, -⟩ := above_cases above
        · exact .refl
        · rw [isParent] at inTree'
          exact absurd rfl inTree'
    obtain above | ⟨below, above⟩ := above_of_above_update above
    · exact old above
    obtain ⟨pred, steps, predInTree⟩ := meet.exists_edge
    have before : ancestor ≤ changed := (tree.le_of_above above).trans lower.le
    have first := (tree.onward predInTree (meet.above_iff.mp above pred steps predInTree)).tail
      ⟨steps, before⟩
    by_cases here : block = changed
    · rwa [here]
    rw [Function.update_of_ne here] at inTree
    exact first.trans ((tree.onward inTree below).lift id fun one two steps =>
      ⟨steps.1, before.trans steps.2⟩)

end Step

/-! ## Counting rounds -/

/-- A block to which a short walk leads is in the tree, and no ancestor of it is off the walk. -/
def Separates (edge : Block → Block → Prop) (start : Block) (rounds : Block → Nat)
    (parent : Block → Option Block) : Prop :=
  ∀ block visited, Walk edge start block visited → visited.length ≤ rounds block →
    (parent block).isSome ∧ ∀ ancestor, Above parent block ancestor → ancestor ∈ visited

omit [LinearOrder Block] in
theorem Separates.update [DecidableEq Block] {rounds : Block → Nat} {round : Nat}
    {changed up : Block}
    (separates : Separates edge start rounds parent)
    (other : changed ≠ start) (meet : IsMeet edge parent changed up)
    (atLeast : ∀ block, round ≤ rounds block) (atMost : ∀ block, rounds block ≤ round + 1) :
    Separates edge start (Function.update rounds changed (round + 1))
      (Function.update parent changed (some up)) := by
  -- what is above the new parent is on every walk to the changed block that is short enough
  have upper (visited : List Block) (walk : Walk edge start changed visited)
      (short : visited.length ≤ round + 1) (ancestor : Block) (above : Above parent up ancestor) :
      ancestor ∈ visited := by
    cases walk with
    | nil => exact absurd rfl other
    | @snoc pred _ visited walk steps =>
      obtain ⟨inTree, on⟩ := separates pred visited walk
        (Nat.le_trans (Nat.le_of_succ_le_succ short) (atLeast pred))
      exact List.mem_cons_of_mem _ (on ancestor (meet.above_iff.mp above pred steps inTree))
  intro block visited walk short
  by_cases here : block = changed
  · subst here
    rw [Function.update_self] at short
    refine ⟨by rw [Function.update_self]; rfl, fun ancestor above => ?_⟩
    obtain rfl | ⟨next, isParent, above⟩ := above_cases above
    · exact walk.mem
    rw [Function.update_self] at isParent
    obtain rfl := Option.some.inj isParent
    exact upper visited walk short ancestor ((above_of_above_update above).elim id And.right)
  rw [Function.update_of_ne here] at short
  obtain ⟨inTree, on⟩ := separates block visited walk short
  refine ⟨by rwa [Function.update_of_ne here], fun ancestor above => ?_⟩
  obtain above | ⟨below, above⟩ := above_of_above_update above
  · exact on ancestor above
  -- the walk passes the changed block, or that would not be above
  obtain ⟨after, before, rfl, part⟩ := walk.upTo (on changed below)
  refine List.mem_append_right _ (upper _ part ?_ ancestor above)
  refine Nat.le_trans ?_ (Nat.le_trans short (atMost block))
  rw [List.length_append]
  exact Nat.le_add_left ..

/-- The ancestors of a block are its dominators. -/
structure Exact (edge : Block → Block → Prop) (start : Block)
    (parent : Block → Option Block) : Prop extends Approximates edge start parent where
  isSome_of_reachable {block : Block} : Reachable edge start block → (parent block).isSome
  dominates {block ancestor : Block} : (parent block).isSome → Above parent block ancestor →
    Dominates edge start ancestor block

theorem Approximates.exact {rounds : Block → Nat} (tree : Approximates edge start parent)
    (separates : Separates edge start rounds parent)
    (enough : ∀ block visited, Walk edge start block visited → visited.Nodup →
      visited.length ≤ rounds block) : Exact edge start parent where
  toApproximates := tree
  isSome_of_reachable := by
    rintro block ⟨visited, walk⟩
    obtain ⟨short, walk', simple, -⟩ := walk.exists_nodup
    exact (separates block short walk' (enough block short walk' simple)).1
  dominates := by
    intro block ancestor _ above visited walk
    obtain ⟨short, walk', simple, within⟩ := walk.exists_nodup
    exact within ((separates block short walk' (enough block short walk' simple)).2 ancestor above)

section Exact

variable {block dominator : Block}

theorem Exact.isSome_iff (tree : Exact edge start parent) :
    (parent block).isSome ↔ Reachable edge start block :=
  ⟨tree.reachable, tree.isSome_of_reachable⟩

theorem Exact.above_iff (tree : Exact edge start parent) (reachable : Reachable edge start block) :
    Above parent block dominator ↔ Dominates edge start dominator block :=
  ⟨tree.dominates (tree.isSome_of_reachable reachable),
    tree.above_of_dominates (tree.isSome_of_reachable reachable)⟩

/-- What is above the parent of a block are the dominators of the block but itself. -/
theorem Exact.above_parent_iff (tree : Exact edge start parent) {up : Block}
    (isParent : parent block = some up) (other : block ≠ start) :
    Above parent up dominator ↔ Dominates edge start dominator block ∧ dominator ≠ block := by
  have inTree : (parent block).isSome := by rw [isParent]; rfl
  constructor
  · intro above
    exact ⟨tree.dominates inTree (.head isParent above),
      ((tree.le_of_above above).trans_lt (tree.decreases isParent other)).ne⟩
  · rintro ⟨dominates, strict⟩
    obtain same | ⟨up', isParent', above⟩ :=
      above_cases (tree.above_of_dominates inTree dominates)
    · exact absurd same strict
    · rwa [Option.some.inj (isParent.symm.trans isParent')]

/-- In the dominator tree no parent changes any more. -/
theorem Exact.parent_eq_of_isMeet (tree : Exact edge start parent) {meet : Block}
    (other : block ≠ start) (isMeet : IsMeet edge parent block meet) (lower : meet < block) :
    parent block = some meet := by
  obtain ⟨pred, steps, predInTree⟩ := isMeet.exists_edge
  have reachable := (tree.reachable predInTree).snoc steps
  obtain ⟨up, isParent⟩ := Option.isSome_iff_exists.mp (tree.isSome_of_reachable reachable)
  have same : ∀ ancestor, Above parent meet ancestor ↔ Above parent up ancestor := by
    intro ancestor
    rw [tree.above_parent_iff isParent other, isMeet.above_iff]
    constructor
    · intro above
      refine ⟨fun visited walk => ?_, ?_⟩
      · cases walk with
        | nil => exact absurd rfl other
        | snoc walk steps =>
          have inTree := tree.isSome_of_reachable walk.reachable
          exact List.mem_cons_of_mem _ (tree.dominates inTree (above _ steps inTree) _ walk)
      · exact ((tree.le_of_above (isMeet.above_iff.mpr above)).trans_lt lower).ne
    · rintro ⟨dominates, strict⟩ pred steps inTree
      exact tree.above_of_dominates inTree (dominates.of_edge strict steps)
  rw [isParent, tree.above_antisymm ((same up).mpr .refl) ((same meet).mp .refl)]

end Exact

end FlowGraph
