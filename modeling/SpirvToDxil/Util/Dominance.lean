import Mathlib.Data.List.Nodup
import Mathlib.Logic.Relation
import Mathlib.Order.Lattice

/-!
# Dominance in a flow graph

A block dominates another when every walk from the start to the other passes through it. A parent
function on the blocks stands for a tree; its ancestors are the dominators when the ancestors of a
block are kept above all that dominate it and every walk that avoids an ancestor is ruled out.
-/

namespace FlowGraph

universe u
variable {Block : Type u}

/-- A walk from the start, with the blocks it visits, the last one first. -/
inductive Walk (edge : Block → Block → Prop) (start : Block) : Block → List Block → Prop
  | nil : Walk edge start start [start]
  | snoc {block next : Block} {visited : List Block} (walk : Walk edge start block visited)
      (steps : edge block next) : Walk edge start next (next :: visited)

section Walks

variable {edge : Block → Block → Prop} {start block next : Block} {visited : List Block}

def Reachable (edge : Block → Block → Prop) (start block : Block) : Prop :=
  ∃ visited, Walk edge start block visited

def Dominates (edge : Block → Block → Prop) (start dominator block : Block) : Prop :=
  ∀ visited, Walk edge start block visited → dominator ∈ visited

theorem Walk.exists_cons (walk : Walk edge start block visited) :
    ∃ before, visited = block :: before := by
  cases walk <;> exact ⟨_, rfl⟩

theorem Walk.mem (walk : Walk edge start block visited) : block ∈ visited := by
  cases walk <;> exact List.mem_cons_self

theorem Walk.start_mem (walk : Walk edge start block visited) : start ∈ visited := by
  induction walk with
  | nil => exact List.mem_cons_self
  | snoc walk steps ih => exact List.mem_cons_of_mem _ ih

theorem Walk.reachable (walk : Walk edge start block visited) : Reachable edge start block :=
  ⟨visited, walk⟩

theorem Reachable.snoc (reachable : Reachable edge start block) (steps : edge block next) :
    Reachable edge start next := by
  obtain ⟨visited, walk⟩ := reachable
  exact ⟨next :: visited, walk.snoc steps⟩

theorem Walk.upTo (walk : Walk edge start block visited) {between : Block}
    (passes : between ∈ visited) :
    ∃ after before, visited = after ++ between :: before ∧
      Walk edge start between (between :: before) := by
  induction walk with
  | nil =>
    obtain rfl := List.mem_singleton.mp passes
    exact ⟨[], [], rfl, .nil⟩
  | @snoc last next visited walk steps ih =>
    obtain rfl | earlier := List.mem_cons.mp passes
    · exact ⟨[], visited, rfl, walk.snoc steps⟩
    · obtain ⟨after, before, split, part⟩ := ih earlier
      exact ⟨next :: after, before, by rw [split, List.cons_append], part⟩

theorem Walk.extend (walk : Walk edge start block visited) {target avoided : Block}
    (onward : Relation.ReflTransGen (fun one two => edge one two ∧ two ≠ avoided) block target) :
    ∃ later, Walk edge start target later ∧ (avoided ∈ later → avoided ∈ visited) := by
  induction onward with
  | refl => exact ⟨visited, walk, id⟩
  | tail before steps ih =>
    obtain ⟨later, walk', avoids⟩ := ih
    refine ⟨_ :: later, walk'.snoc steps.1, fun passes => ?_⟩
    obtain rfl | passes := List.mem_cons.mp passes
    · exact absurd rfl steps.2
    · exact avoids passes

/-- A walk without repetitions to the same block, over some of the same blocks. -/
theorem Walk.exists_nodup (walk : Walk edge start block visited) :
    ∃ short, Walk edge start block short ∧ short.Nodup ∧ short ⊆ visited := by
  induction walk with
  | nil => exact ⟨[start], .nil, List.nodup_singleton start, fun _ => id⟩
  | @snoc last next visited walk steps ih =>
    obtain ⟨short, walk', simple, within⟩ := ih
    by_cases passes : next ∈ short
    · obtain ⟨after, before, rfl, part⟩ := walk'.upTo passes
      exact ⟨next :: before, part, (List.nodup_append.mp simple).2.1, fun other member =>
        List.mem_cons_of_mem _ (within (List.mem_append_right _ member))⟩
    · refine ⟨next :: short, walk'.snoc steps, simple.cons passes, fun other member => ?_⟩
      obtain rfl | member := List.mem_cons.mp member
      · exact List.mem_cons_self
      · exact List.mem_cons_of_mem _ (within member)

theorem Dominates.refl (block : Block) : Dominates edge start block block :=
  fun _ walk => walk.mem

theorem start_dominates (block : Block) : Dominates edge start start block :=
  fun _ walk => walk.start_mem

theorem dominates_of_not_reachable {dominator : Block}
    (unreachable : ¬ Reachable edge start block) : Dominates edge start dominator block :=
  fun visited walk => absurd ⟨visited, walk⟩ unreachable

/-- A dominator of a block that is another block dominates all that lead there. -/
theorem Dominates.of_edge {dominator : Block} (dominates : Dominates edge start dominator next)
    (other : dominator ≠ next) (steps : edge block next) : Dominates edge start dominator block :=
  fun _ walk => (List.mem_cons.mp (dominates _ (walk.snoc steps))).resolve_left other

theorem Dominates.trans {one two three : Block} (first : Dominates edge start one two)
    (second : Dominates edge start two three) : Dominates edge start one three := by
  intro visited walk
  obtain ⟨after, before, rfl, part⟩ := walk.upTo (second visited walk)
  exact List.mem_append_right _ (first _ part)

/-- Two blocks that dominate each other are the same, if there is a walk to them. -/
theorem Dominates.antisymm {one two : Block} (reachable : Reachable edge start one)
    (first : Dominates edge start one two) (second : Dominates edge start two one) :
    one = two := by
  obtain ⟨visited, walk⟩ := reachable
  obtain ⟨short, walk', simple, -⟩ := walk.exists_nodup
  obtain ⟨after, before, rfl, part⟩ := walk'.upTo (second short walk')
  obtain ⟨rest, shape⟩ := walk'.exists_cons
  cases after with
  | nil => exact (List.cons.inj shape).1.symm
  | cons head after =>
    obtain ⟨rfl, -⟩ := List.cons.inj shape
    exact absurd (List.mem_append_right after (first _ part)) (List.nodup_cons.mp simple).1

end Walks

/-! ## Trees of blocks -/

/-- `ancestor` is the block itself or above it. -/
abbrev Above (parent : Block → Option Block) : Block → Block → Prop :=
  Relation.ReflTransGen fun child up => parent child = some up

section Parents

variable {parent : Block → Option Block} {block ancestor other : Block}

theorem above_total (one : Above parent block ancestor) (two : Above parent block other) :
    Above parent ancestor other ∨ Above parent other ancestor :=
  Relation.ReflTransGen.total_of_right_unique
    (fun _ _ _ left right => Option.some.inj (left.symm.trans right)) one two

theorem above_cases (above : Above parent block ancestor) :
    ancestor = block ∨ ∃ up, parent block = some up ∧ Above parent up ancestor := by
  obtain rfl | ⟨up, isParent, above⟩ := Relation.ReflTransGen.cases_head above
  · exact Or.inl rfl
  · exact Or.inr ⟨up, isParent, above⟩

end Parents

/-- The tree of an ordered flow graph under construction: a block that has a parent is in it. -/
structure Growing [LinearOrder Block] (start : Block) (parent : Block → Option Block) : Prop where
  start_parent : parent start = some start
  decreases {block up : Block} : parent block = some up → block ≠ start → up < block
  closed {block up : Block} : parent block = some up → (parent up).isSome

section Growing

variable [LinearOrder Block] {start : Block} {parent : Block → Option Block}
  {block ancestor other : Block}

theorem Growing.above_start (tree : Growing start parent) (above : Above parent start ancestor) :
    ancestor = start := by
  induction above with
  | refl => rfl
  | tail _ isParent ih =>
    rw [ih, tree.start_parent] at isParent
    exact (Option.some.inj isParent).symm

theorem Growing.le_of_above (tree : Growing start parent) (above : Above parent block ancestor) :
    ancestor ≤ block := by
  induction above with
  | refl => exact le_rfl
  | @tail mid up _ isParent ih =>
    by_cases root : mid = start
    · rw [root, tree.start_parent] at isParent
      rw [← Option.some.inj isParent, ← root]
      exact ih
    · exact (tree.decreases isParent root).le.trans ih

theorem Growing.isSome_of_above (tree : Growing start parent) (above : Above parent block ancestor)
    (inTree : (parent block).isSome) : (parent ancestor).isSome := by
  induction above with
  | refl => exact inTree
  | tail _ isParent ih => exact tree.closed isParent

theorem Growing.above_antisymm (tree : Growing start parent) (one : Above parent block ancestor)
    (two : Above parent ancestor block) : block = ancestor :=
  (tree.le_of_above two).antisymm (tree.le_of_above one)

end Growing

end FlowGraph
