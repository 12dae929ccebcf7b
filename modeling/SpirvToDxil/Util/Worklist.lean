import Mathlib.Data.Finset.Card
import Mathlib.Logic.Relation

/-!
# Worklists

A worklist visits every node once and pushes the successors of each node that
it visits, until nothing is left. It visits exactly the nodes that are
reachable from the ones it starts with.
-/

namespace Worklist

universe u v
variable {Node : Type u} {State : Type v} [DecidableEq Node]

/-- `nodes` are the nodes there are; nothing else may be pushed. -/
def run (next : Node → List Node) (visit : State → Node → State) (nodes : Finset Node)
    (state : State) (flagged : List Node) : List Node → State × List Node
  | [] => (state, flagged)
  | node :: queue =>
    if node ∈ flagged ∨ node ∉ nodes then run next visit nodes state flagged queue
    else run next visit nodes (visit state node) (flagged ++ [node]) (queue ++ next node)
termination_by queue => ((nodes.filter (· ∉ flagged)).card, queue.length)
decreasing_by
  · exact Prod.Lex.right _ (Nat.lt_succ_self _)
  · next fresh =>
    apply Prod.Lex.left
    apply Finset.card_lt_card
    rw [Finset.ssubset_iff_of_subset]
    · refine ⟨node, ?_, ?_⟩
      · simp only [Finset.mem_filter]
        tauto
      · simp
    · intro other
      simp only [Finset.mem_filter, List.mem_append, not_or]
      exact fun unflagged => ⟨unflagged.1, unflagged.2.1⟩

abbrev Reaches (next : Node → List Node) : Node → Node → Prop :=
  Relation.ReflTransGen (fun node other => other ∈ next node)

/-- The nodes visited after the flagged ones, in order, and what they make of the state. -/
structure Visits (next : Node → List Node) (visit : State → Node → State) (state : State)
    (flagged queue order : List Node) (result : State × List Node) : Prop where
  state_eq : result.1 = order.foldl visit state
  flagged_eq : result.2 = flagged ++ order
  reached : ∀ node ∈ order, ∃ start ∈ queue, Reaches next start node
  pushed : ∀ node ∈ queue, node ∈ result.2
  closed : (∀ node ∈ flagged, ∀ other ∈ next node, other ∈ flagged ∨ other ∈ queue) →
    ∀ node ∈ result.2, ∀ other ∈ next node, other ∈ result.2

theorem run_visits {next : Node → List Node} {nodes : Finset Node}
    (inside : ∀ node ∈ nodes, ∀ other ∈ next node, other ∈ nodes) (visit : State → Node → State)
    (state : State) (flagged queue : List Node) (starts : ∀ node ∈ queue, node ∈ nodes) :
    ∃ order, Visits next visit state flagged queue order
      (run next visit nodes state flagged queue) := by
  fun_induction run next visit nodes state flagged queue with
  | case1 state flagged =>
    refine ⟨[], rfl, (List.append_nil _).symm, nofun, nofun, ?_⟩
    intro known node member other successor
    exact (known node member other successor).resolve_right List.not_mem_nil
  | case2 state flagged node queue skipped inductionHypothesis =>
    have old : node ∈ flagged :=
      skipped.resolve_right (fun outside => outside (starts node List.mem_cons_self))
    rcases inductionHypothesis (fun other member => starts other (List.mem_cons_of_mem _ member))
      with ⟨order, visits⟩
    have kept : node ∈ (run next visit nodes state flagged queue).2 := by
      rw [visits.flagged_eq]
      exact List.mem_append_left _ old
    refine ⟨order, visits.state_eq, visits.flagged_eq, ?_, ?_, ?_⟩
    · intro other member
      rcases visits.reached other member with ⟨start, queued, reaches⟩
      exact ⟨start, List.mem_cons_of_mem _ queued, reaches⟩
    · exact List.forall_mem_cons.mpr ⟨kept, visits.pushed⟩
    · intro known
      apply visits.closed
      intro other member successor follows
      rcases known other member successor follows with flag | queued
      · exact Or.inl flag
      · rcases List.mem_cons.mp queued with rfl | queued
        · exact Or.inl old
        · exact Or.inr queued
  | case3 state flagged node queue fresh inductionHypothesis =>
    have isNode : node ∈ nodes := by
      by_contra outside
      exact fresh (Or.inr outside)
    have queued : ∀ other ∈ queue ++ next node, other ∈ nodes := by
      intro other member
      rcases List.mem_append.mp member with old | new
      · exact starts other (List.mem_cons_of_mem _ old)
      · exact inside node isNode other new
    rcases inductionHypothesis queued with ⟨order, visits⟩
    refine ⟨node :: order, visits.state_eq, ?_, ?_, ?_, ?_⟩
    · rw [visits.flagged_eq, List.append_assoc, List.singleton_append]
    · intro other member
      rcases List.mem_cons.mp member with rfl | member
      · exact ⟨other, List.mem_cons_self, .refl⟩
      · rcases visits.reached other member with ⟨start, startQueued, reaches⟩
        rcases List.mem_append.mp startQueued with old | new
        · exact ⟨start, List.mem_cons_of_mem _ old, reaches⟩
        · exact ⟨node, List.mem_cons_self, .head new reaches⟩
    · have own : node ∈ flagged ++ [node] ++ order := by simp
      refine List.forall_mem_cons.mpr ⟨visits.flagged_eq ▸ own, ?_⟩
      intro other member
      exact visits.pushed other (List.mem_append_left _ member)
    · intro known
      apply visits.closed
      intro other member successor follows
      rcases List.mem_append.mp member with old | new
      · rcases known other old successor follows with flag | queued
        · exact Or.inl (List.mem_append_left _ flag)
        · rcases List.mem_cons.mp queued with rfl | queued
          · exact Or.inl (List.mem_append_right _ List.mem_cons_self)
          · exact Or.inr (List.mem_append_left _ queued)
      · rw [List.mem_singleton] at new
        subst new
        exact Or.inr (List.mem_append_right _ follows)

/-- From one start, the worklist visits what the start reaches. -/
theorem run_singleton {next : Node → List Node} {nodes : Finset Node}
    (inside : ∀ node ∈ nodes, ∀ other ∈ next node, other ∈ nodes) (visit : State → Node → State)
    (state : State) {start : Node} (isNode : start ∈ nodes) :
    ∃ order : List Node, (run next visit nodes state [] [start]).1 = order.foldl visit state ∧
      ∀ node, node ∈ order ↔ Reaches next start node := by
  rcases run_visits inside visit state [] [start]
    (fun node member => List.mem_singleton.mp member ▸ isNode) with ⟨order, visits⟩
  have all : (run next visit nodes state [] [start]).2 = order := visits.flagged_eq
  refine ⟨order, visits.state_eq, fun node => ⟨?_, ?_⟩⟩
  · intro member
    rcases visits.reached node member with ⟨first, queued, reaches⟩
    rwa [List.mem_singleton.mp queued] at reaches
  · intro reaches
    rw [← all]
    induction reaches with
    | refl => exact visits.pushed start List.mem_cons_self
    | tail _ follows inductionHypothesis =>
      exact visits.closed nofun _ inductionHypothesis _ follows

end Worklist
