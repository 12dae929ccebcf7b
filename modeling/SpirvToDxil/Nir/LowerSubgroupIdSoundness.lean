import Mathlib.Data.Fintype.EquivFin
import SpirvToDxil.Nir.LowerSubgroupId

/-!
# Every subgroup has a number of its own

Whatever the order in which the invocations go on, the counter counts the subgroups that have
taken a number, and no two of them have the same.
-/

namespace SpirvToDxil.Nir.SubgroupId

variable {Invocation Subgroup : Type} [DecidableEq Invocation]
  {group : Workgroup Invocation Subgroup} {state state' : State Invocation}
  {invocation : Invocation}

/-! ## Who has gone on -/

theorem Stepped.rank_le (stepped : Stepped group state invocation state')
    (other : Invocation) : (state.pc other).rank ≤ (state'.pc other).rank := by
  obtain ⟨pc, moved, next⟩ := stepped.advances
  rw [moved]
  by_cases same : other = invocation
  · rw [same, Function.update_self]
    omega
  · rw [Function.update_of_ne same]

/-- Who is behind the barrier has waited for all. -/
def Together (state : State Invocation) : Prop :=
  ∀ invocation other, 3 ≤ (state.pc invocation).rank → 2 ≤ (state.pc other).rank

theorem Stepped.together (stepped : Stepped group state invocation state')
    (together : Together state) : Together state' := by
  intro behind other passed
  refine Nat.le_trans ?_ (stepped.rank_le other)
  by_cases before : 3 ≤ (state.pc behind).rank
  · exact together behind other before
  obtain ⟨pc, moved, next⟩ := stepped.advances
  have moves : behind = invocation := by
    by_contra stays
    rw [moved, Function.update_of_ne stays] at passed
    exact before passed
  rw [moves, moved, Function.update_self] at passed
  rw [moves] at before
  cases stepped with
  | barrier here waited => exact waited other
  | storeLocal here =>
    rw [here] at next
    exact absurd (passed.trans_eq next) (by decide)
  | clearCounter here =>
    rw [here] at next
    exact absurd (passed.trans_eq next) (by decide)
  | elected here => rw [here] at before; exact absurd (by decide) before
  | notElected here => rw [here] at before; exact absurd (by decide) before
  | readFirst here => rw [here] at before; exact absurd (by decide) before

/-! ## The numbers that are taken -/

section Tickets

variable [Fintype Subgroup]

variable (group) in
/-- The subgroups whose first invocation has taken a number. -/
def tickets (pc : Invocation → Pc) : Finset Subgroup :=
  Finset.univ.filter fun which => 4 ≤ (pc (group.first which)).rank

omit [DecidableEq Invocation] in
theorem mem_tickets {pc : Invocation → Pc} {which : Subgroup} :
    which ∈ tickets group pc ↔ 4 ≤ (pc (group.first which)).rank := by
  simp [tickets]

theorem tickets_update {pc : Pc} (quiet : 4 ≤ pc.rank ↔ 4 ≤ (state.pc invocation).rank) :
    tickets group (Function.update state.pc invocation pc) = tickets group state.pc := by
  ext which
  rw [mem_tickets, mem_tickets]
  by_cases same : group.first which = invocation
  · rw [same, Function.update_self, quiet]
  · rw [Function.update_of_ne same]

theorem tickets_update_of_not_first {pc : Pc}
    (notFirst : invocation ≠ group.first (group.subgroup invocation)) :
    tickets group (Function.update state.pc invocation pc) = tickets group state.pc := by
  ext which
  rw [mem_tickets, mem_tickets, Function.update_of_ne]
  intro same
  rw [← same, group.subgroup_first] at notFirst
  exact notFirst rfl

theorem tickets_update_readFirst [DecidableEq Subgroup] {which : Subgroup} :
    tickets group (Function.update state.pc (group.first which) .readFirst)
      = insert which (tickets group state.pc) := by
  ext other
  rw [Finset.mem_insert, mem_tickets, mem_tickets]
  by_cases same : other = which
  · simp [same, Pc.rank]
  · have apart : group.first other ≠ group.first which := fun equal =>
      same (by rw [← group.subgroup_first other, equal, group.subgroup_first])
    rw [Function.update_of_ne apart, or_iff_right same]

structure Numbering (group : Workgroup Invocation Subgroup) (state : State Invocation) :
    Prop where
  together : Together state
  counted : 2 ≤ (state.pc group.zero).rank →
    state.subgroupIdCounter = (tickets group state.pc).card % 2 ^ 32
  numbered {which : Subgroup} : which ∈ tickets group state.pc →
    state.subgroupIdLocal (group.first which) < (tickets group state.pc).card
  apart {which other : Subgroup} :
    which ∈ tickets group state.pc → other ∈ tickets group state.pc →
    state.subgroupIdLocal (group.first which) = state.subgroupIdLocal (group.first other) →
    which = other
  finished {invocation : Invocation} : state.pc invocation = .done →
    group.subgroup invocation ∈ tickets group state.pc ∧ state.subgroupId invocation
      = state.subgroupIdLocal (group.first (group.subgroup invocation))

omit [DecidableEq Invocation] in
theorem Numbering.start (begins : ∀ invocation, state.pc invocation = .storeLocal) :
    Numbering group state where
  together invocation other passed := by
    rw [begins invocation] at passed
    exact absurd passed (by decide)
  counted passed := by
    rw [begins group.zero] at passed
    exact absurd passed (by decide)
  numbered taken := by
    rw [mem_tickets, begins] at taken
    exact absurd taken (by decide)
  apart taken := by
    rw [mem_tickets, begins] at taken
    exact absurd taken (by decide)
  finished {invocation} isDone := by
    rw [begins invocation] at isDone
    cases isDone

/-- A step that takes no number, and after which nobody is done who was not before. -/
theorem Numbering.quiet (holds : Numbering group state)
    (stepped : Stepped group state invocation state')
    (same : tickets group state'.pc = tickets group state.pc)
    (counter : 2 ≤ (state'.pc group.zero).rank →
      state'.subgroupIdCounter = (tickets group state.pc).card % 2 ^ 32)
    (locals : ∀ which ∈ tickets group state.pc,
      state'.subgroupIdLocal (group.first which) = state.subgroupIdLocal (group.first which))
    (finished : ∀ other, state'.pc other = .done →
      group.subgroup other ∈ tickets group state.pc ∧ state'.subgroupId other
        = state.subgroupIdLocal (group.first (group.subgroup other))) :
    Numbering group state' where
  together := stepped.together holds.together
  counted passed := by rw [same, counter passed]
  numbered {which} taken := by
    rw [same] at taken ⊢
    rw [locals which taken]
    exact holds.numbered taken
  apart {which other} taken taken' equal := by
    rw [same] at taken taken'
    rw [locals which taken, locals other taken'] at equal
    exact holds.apart taken taken' equal
  finished {other} isDone := by
    obtain ⟨taken, read⟩ := finished other isDone
    exact ⟨same ▸ taken, by rw [read, locals _ taken]⟩

/-! ## One step -/

omit [DecidableEq Invocation] in
theorem not_mem_tickets_of_rank {which : Subgroup}
    (before : (state.pc (group.first which)).rank ≤ 3) : which ∉ tickets group state.pc := by
  rw [mem_tickets]
  omega

/-- Who is done after another has moved to a place that is not the end was done before. -/
theorem done_of_update {pc : Pc} (goesOn : pc ≠ .done) {other : Invocation}
    (isDone : Function.update state.pc invocation pc other = .done) :
    state.pc other = .done := by
  by_cases same : other = invocation
  · rw [same, Function.update_self] at isDone
    exact absurd isDone goesOn
  · rwa [Function.update_of_ne same] at isDone

/-- The value that the first invocation of a subgroup takes is new. -/
theorem Numbering.elected [DecidableEq Subgroup] (holds : Numbering group state)
    (fits : Fintype.card Subgroup ≤ 2 ^ 32) {which : Subgroup}
    (here : state.pc (group.first which) = .elect)
    (together : Together { state with
      pc := Function.update state.pc (group.first which) .readFirst }) :
    Numbering group { state with
      pc := Function.update state.pc (group.first which) .readFirst
      subgroupIdCounter := (state.subgroupIdCounter + 1) % 2 ^ 32
      subgroupIdLocal := Function.update state.subgroupIdLocal (group.first which)
        state.subgroupIdCounter } := by
  have new : which ∉ tickets group state.pc :=
    not_mem_tickets_of_rank (by rw [here]; decide)
  have room : (tickets group state.pc).card < 2 ^ 32 := by
    refine Nat.lt_of_lt_of_le (Finset.card_lt_card ?_) fits
    exact Finset.ssubset_univ_iff.mpr fun all => new (all ▸ Finset.mem_univ which)
  have counter : state.subgroupIdCounter = (tickets group state.pc).card := by
    rw [holds.counted (holds.together (group.first which) group.zero (by rw [here]; decide)),
      Nat.mod_eq_of_lt room]
  have old : ∀ other ∈ tickets group state.pc,
      Function.update state.subgroupIdLocal (group.first which) state.subgroupIdCounter
        (group.first other) = state.subgroupIdLocal (group.first other) := by
    intro other taken
    refine Function.update_of_ne (fun equal => ?_) _ _
    rw [← group.subgroup_first other, equal, group.subgroup_first] at taken
    exact new taken
  constructor
  case together => exact together
  case counted =>
    intro _
    rw [tickets_update_readFirst, Finset.card_insert_of_notMem new, counter]
  case numbered =>
    intro other taken
    rw [tickets_update_readFirst] at taken ⊢
    rw [Finset.card_insert_of_notMem new]
    dsimp only
    obtain rfl | taken := Finset.mem_insert.mp taken
    · rw [Function.update_self, counter]
      exact Nat.lt_succ_self _
    · rw [old other taken]
      exact Nat.lt_succ_of_lt (holds.numbered taken)
  case apart =>
    intro one other taken taken' equal
    rw [tickets_update_readFirst] at taken taken'
    dsimp only at equal
    obtain rfl | old₁ := Finset.mem_insert.mp taken <;>
      obtain rfl | old₂ := Finset.mem_insert.mp taken'
    · rfl
    · rw [Function.update_self, old other old₂, counter] at equal
      exact absurd equal (Nat.ne_of_gt (holds.numbered old₂))
    · rw [Function.update_self, old one old₁, counter] at equal
      exact absurd equal (Nat.ne_of_lt (holds.numbered old₁))
    · rw [old one old₁, old other old₂] at equal
      exact holds.apart old₁ old₂ equal
  case finished =>
    intro other isDone
    obtain ⟨taken, read⟩ := holds.finished (done_of_update (by decide) isDone)
    rw [tickets_update_readFirst]
    exact ⟨Finset.mem_insert_of_mem taken, read.trans (old _ taken).symm⟩

theorem Numbering.step [DecidableEq Subgroup] (holds : Numbering group state)
    (fits : Fintype.card Subgroup ≤ 2 ^ 32)
    (stepped : Stepped group state invocation state') : Numbering group state' := by
  have together := stepped.together holds.together
  cases stepped with
  | storeLocal here =>
    refine holds.quiet (.storeLocal here) (tickets_update (by rw [here]; decide)) ?_ ?_ ?_
    · intro passed
      dsimp only at passed
      refine holds.counted ?_
      by_cases same : group.zero = invocation
      · rw [same, Function.update_self] at passed
        exact absurd passed (by decide)
      · rwa [Function.update_of_ne same] at passed
    · intro which taken
      refine Function.update_of_ne (fun same => ?_) _ _
      rw [mem_tickets, same, here] at taken
      exact absurd taken (by decide)
    · exact fun other isDone => holds.finished (done_of_update (by decide) isDone)
  | clearCounter here =>
    refine holds.quiet (.clearCounter here) (tickets_update (by rw [here]; decide)) ?_
      (fun _ _ => rfl) fun other isDone => holds.finished (done_of_update (by decide) isDone)
    intro passed
    dsimp only at passed
    by_cases same : invocation = group.zero
    · -- nobody has a number yet: the invocation that clears the counter is before the barrier
      have none : tickets group state.pc = ∅ := by
        refine Finset.eq_empty_of_forall_notMem fun which taken => ?_
        have waited := holds.together _ invocation (Nat.le_of_succ_le (mem_tickets.mp taken))
        rw [here] at waited
        exact absurd waited (by decide)
      rw [none]
      exact if_pos same
    · refine (if_neg same).trans (holds.counted ?_)
      rwa [Function.update_of_ne (Ne.symm same)] at passed
  | barrier here waited =>
    exact holds.quiet (.barrier here waited) (tickets_update (by rw [here]; decide))
      (fun _ => holds.counted (waited group.zero)) (fun _ _ => rfl)
      fun other isDone => holds.finished (done_of_update (by decide) isDone)
  | elected here isFirst =>
    generalize group.subgroup invocation = which at isFirst
    subst isFirst
    exact holds.elected fits here together
  | notElected here notFirst =>
    exact holds.quiet (.notElected here notFirst) (tickets_update_of_not_first notFirst)
      (fun _ => holds.counted (holds.together invocation group.zero (by rw [here]; decide)))
      (fun _ _ => rfl) fun other isDone => holds.finished (done_of_update (by decide) isDone)
  | readFirst here waited =>
    refine holds.quiet (.readFirst here waited) (tickets_update (by rw [here]; decide))
      (fun _ => holds.counted (holds.together invocation group.zero (by rw [here]; decide)))
      (fun _ _ => rfl) fun other isDone => ?_
    dsimp only at isDone ⊢
    by_cases same : other = invocation
    · rw [same]
      exact ⟨mem_tickets.mpr (waited _ (group.subgroup_first _)), Function.update_self ..⟩
    · rw [Function.update_of_ne same] at isDone
      exact ⟨(holds.finished isDone).1,
        (Function.update_of_ne same ..).trans (holds.finished isDone).2⟩

end Tickets

/-! ## Every run -/

section Run

variable [Fintype Invocation] [Fintype Subgroup] [DecidableEq Subgroup] {steps : Nat}

theorem Reached.numbering (fits : Fintype.card Subgroup ≤ 2 ^ 32)
    (reached : Reached group steps state) : Numbering group state := by
  induction reached with
  | start state begins => exact .start begins
  | step reached invocation goes ih => exact ih.step fits (stepped_of_step goes)

variable (group) in
omit [DecidableEq Invocation] [Fintype Invocation] [DecidableEq Subgroup] in
theorem tickets_of_all_done (allDone : ∀ invocation, state.pc invocation = .done) :
    tickets group state.pc = Finset.univ := by
  refine Finset.eq_univ_iff_forall.mpr fun which => mem_tickets.mpr ?_
  rw [allDone]
  decide

omit [DecidableEq Invocation] [Fintype Invocation] [DecidableEq Subgroup] in
/-- When all are done, no number is left out. -/
theorem Numbering.exists_subgroupId (holds : Numbering group state)
    (allDone : ∀ invocation, state.pc invocation = .done) {number : Nat}
    (below : number < Fintype.card Subgroup) :
    ∃ invocation, state.subgroupId invocation = number := by
  have all := tickets_of_all_done group allDone
  have lower : ∀ which : Subgroup,
      state.subgroupIdLocal (group.first which) < Fintype.card Subgroup := by
    intro which
    have small :=
      holds.numbered (show which ∈ tickets group state.pc from all ▸ Finset.mem_univ which)
    rwa [all] at small
  let numberOf (which : Subgroup) : Fin (Fintype.card Subgroup) :=
    ⟨state.subgroupIdLocal (group.first which), lower which⟩
  have injective : Function.Injective numberOf := fun one other equal =>
    holds.apart (all ▸ Finset.mem_univ one) (all ▸ Finset.mem_univ other)
      (congrArg Fin.val equal)
  have surjective : Function.Surjective numberOf :=
    ((Fintype.bijective_iff_injective_and_card numberOf).mpr
      ⟨injective, (Fintype.card_fin _).symm⟩).2
  obtain ⟨which, equal⟩ := surjective ⟨number, below⟩
  refine ⟨group.first which, ?_⟩
  rw [(holds.finished (allDone (group.first which))).2, group.subgroup_first]
  exact congrArg Fin.val equal

/-- Whatever the order of the steps: the run ends after five steps of every invocation and is never
stuck before, two invocations that are done have the same number exactly when they are in one
subgroup, and the numbers are those below the count of the subgroups. -/
theorem numbering_correct (fits : Fintype.card Subgroup ≤ 2 ^ 32)
    (reached : Reached group steps state) :
    steps ≤ 5 * Fintype.card Invocation ∧
    ((∀ invocation, step group state invocation = none) ↔
      ∀ invocation, state.pc invocation = .done) ∧
    (∀ one other, state.pc one = .done → state.pc other = .done →
      (state.subgroupId one = state.subgroupId other ↔
        group.subgroup one = group.subgroup other)) ∧
    (∀ invocation, state.pc invocation = .done →
      state.subgroupId invocation < Fintype.card Subgroup) ∧
    ((∀ invocation, state.pc invocation = .done) → ∀ number < Fintype.card Subgroup,
      ∃ invocation, state.subgroupId invocation = number) := by
  have holds := reached.numbering fits
  refine ⟨?_, ⟨?_, ?_⟩, ?_, ?_, fun allDone number below => holds.exists_subgroupId allDone below⟩
  · rw [reached.steps_eq]
    refine (Finset.sum_le_sum fun other _ => Pc.rank_le (state.pc other)).trans_eq ?_
    rw [Finset.sum_const_nat fun _ _ => rfl, Finset.card_univ, Nat.mul_comm]
  · intro stuck behind
    by_contra waits
    obtain ⟨next, goes⟩ := exists_step_of_not_done group waits
    rw [stuck next] at goes
    cases goes
  · intro allDone invocation
    rw [step, allDone invocation]
  · intro one other oneDone otherDone
    obtain ⟨oneTaken, oneRead⟩ := holds.finished oneDone
    obtain ⟨otherTaken, otherRead⟩ := holds.finished otherDone
    rw [oneRead, otherRead]
    exact ⟨holds.apart oneTaken otherTaken, fun same => by rw [same]⟩
  · intro invocation isDone
    obtain ⟨taken, read⟩ := holds.finished isDone
    rw [read]
    exact Nat.lt_of_lt_of_le (holds.numbered taken) (Finset.card_le_univ _)

/-- Two subgroups of one invocation each. -/
def twoSubgroups : Workgroup (Fin 2) (Fin 2) where
  subgroup := id
  first := id
  subgroup_first _ := rfl
  zero := ⟨0, Nat.two_pos⟩

/-- Before a run, with anything in the memory. -/
def launched : State (Fin 2) where
  pc _ := .storeLocal
  subgroupIdCounter := 7
  subgroupIdLocal _ := 7
  subgroupId _ := 7

theorem numbering_correct_twoSubgroups :
    ∃ state, runInOrder twoSubgroups launched [1, 1, 0, 0, 1, 1, 0, 0, 1, 0] = some state ∧
      state.subgroupId 1 = 0 ∧ state.subgroupId 0 < 2 ∧
      (state.subgroupId 0 = state.subgroupId 1 ↔ (0 : Fin 2) = 1) := by
  have ends : (runInOrder twoSubgroups launched [1, 1, 0, 0, 1, 1, 0, 0, 1, 0]).isSome := by decide
  have runs := (Option.some_get ends).symm
  have zeroDone : ((runInOrder twoSubgroups launched _).get ends).pc 0 = .done := rfl
  have oneDone : ((runInOrder twoSubgroups launched _).get ends).pc 1 = .done := rfl
  obtain ⟨-, -, apart, below, -⟩ := numbering_correct (by decide)
    ((Reached.start launched fun _ => rfl).runInOrder twoSubgroups runs)
  exact ⟨_, runs, rfl, below 0 zeroDone, apart 0 1 zeroDone oneDone⟩

end Run

end SpirvToDxil.Nir.SubgroupId
