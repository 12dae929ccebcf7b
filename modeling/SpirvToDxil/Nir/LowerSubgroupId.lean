import Mathlib.Algebra.Order.BigOperators.Group.Finset
import Mathlib.Data.Finset.Max
import Mathlib.Data.Fintype.Card

/-!
# Numbering subgroups

`lower_subgroup_id` for work groups that are not one-dimensional: every subgroup takes a number from
a counter in shared memory. The invocations of a work group run the code in any order; a barrier
waits for all of them, and the operations of a subgroup for the invocations of the subgroup.
-/

namespace SpirvToDxil.Nir.SubgroupId

structure Workgroup (Invocation Subgroup : Type) where
  subgroup : Invocation → Subgroup
  /-- The invocation that `nir_elect` and `nir_read_first_invocation` choose. -/
  first : Subgroup → Invocation
  subgroup_first (which : Subgroup) : subgroup (first which) = which
  /-- The invocation of the local index 0. -/
  zero : Invocation

inductive Pc where
  | storeLocal
  | clearCounter
  | barrier
  | elect
  | readFirst
  | done
  deriving DecidableEq, Repr

def Pc.rank : Pc → Nat
  | .storeLocal => 0
  | .clearCounter => 1
  | .barrier => 2
  | .elect => 3
  | .readFirst => 4
  | .done => 5

structure State (Invocation : Type) where
  pc : Invocation → Pc
  /-- `dxil_SubgroupID_counter`. -/
  subgroupIdCounter : Nat
  /-- `dxil_SubgroupID_local`. -/
  subgroupIdLocal : Invocation → Nat
  subgroupId : Invocation → Nat

section Step

variable {Invocation Subgroup : Type} [Fintype Invocation] [DecidableEq Invocation]
  [DecidableEq Subgroup] (group : Workgroup Invocation Subgroup)

/-- The next state when an invocation goes on, if it can. -/
def step (state : State Invocation) (invocation : Invocation) : Option (State Invocation) :=
  let goTo (pc : Pc) : Invocation → Pc := Function.update state.pc invocation pc
  match state.pc invocation with
  | .storeLocal =>
    some { state with
      pc := goTo .clearCounter
      subgroupIdLocal := Function.update state.subgroupIdLocal invocation 0 }
  | .clearCounter =>
    some { state with
      pc := goTo .barrier
      subgroupIdCounter := if invocation = group.zero then 0 else state.subgroupIdCounter }
  | .barrier =>
    if ∀ other, Pc.barrier.rank ≤ (state.pc other).rank then some { state with pc := goTo .elect }
    else none
  | .elect =>
    if invocation = group.first (group.subgroup invocation) then
      some { state with
        pc := goTo .readFirst
        subgroupIdCounter := (state.subgroupIdCounter + 1) % 2 ^ 32
        subgroupIdLocal :=
          Function.update state.subgroupIdLocal invocation state.subgroupIdCounter }
    else some { state with pc := goTo .readFirst }
  | .readFirst =>
    if ∀ other, group.subgroup other = group.subgroup invocation →
        Pc.readFirst.rank ≤ (state.pc other).rank then
      some { state with
        pc := goTo .done
        subgroupId := Function.update state.subgroupId invocation
          (state.subgroupIdLocal (group.first (group.subgroup invocation))) }
    else none
  | .done => none

inductive Reached : Nat → State Invocation → Prop
  | start (state : State Invocation) (begins : ∀ invocation, state.pc invocation = .storeLocal) :
      Reached 0 state
  | step {steps : Nat} {state state' : State Invocation} (reached : Reached steps state)
      (invocation : Invocation) (goes : step group state invocation = some state') :
      Reached (steps + 1) state'

def runInOrder (state : State Invocation) (order : List Invocation) : Option (State Invocation) :=
  order.foldlM (step group) state

theorem Reached.runInOrder {order : List Invocation} {steps : Nat}
    {state state' : State Invocation} (reached : Reached group steps state)
    (runs : runInOrder group state order = some state') :
    Reached group (steps + order.length) state' := by
  induction order generalizing steps state with
  | nil =>
    cases runs
    exact reached
  | cons invocation order ih =>
    obtain ⟨next, goes, rest⟩ := Option.bind_eq_some_iff.mp runs
    rw [List.length_cons, Nat.add_comm order.length, ← Nat.add_assoc]
    exact ih (reached.step invocation goes) rest

inductive Stepped (state : State Invocation) (invocation : Invocation) :
    State Invocation → Prop
  | storeLocal (here : state.pc invocation = .storeLocal) :
      Stepped state invocation { state with
        pc := Function.update state.pc invocation .clearCounter
        subgroupIdLocal := Function.update state.subgroupIdLocal invocation 0 }
  | clearCounter (here : state.pc invocation = .clearCounter) :
      Stepped state invocation { state with
        pc := Function.update state.pc invocation .barrier
        subgroupIdCounter := if invocation = group.zero then 0 else state.subgroupIdCounter }
  | barrier (here : state.pc invocation = .barrier)
      (waited : ∀ other, 2 ≤ (state.pc other).rank) :
      Stepped state invocation
        { state with pc := Function.update state.pc invocation .elect }
  | elected (here : state.pc invocation = .elect)
      (isFirst : invocation = group.first (group.subgroup invocation)) :
      Stepped state invocation { state with
        pc := Function.update state.pc invocation .readFirst
        subgroupIdCounter := (state.subgroupIdCounter + 1) % 2 ^ 32
        subgroupIdLocal :=
          Function.update state.subgroupIdLocal invocation state.subgroupIdCounter }
  | notElected (here : state.pc invocation = .elect)
      (notFirst : invocation ≠ group.first (group.subgroup invocation)) :
      Stepped state invocation
        { state with pc := Function.update state.pc invocation .readFirst }
  | readFirst (here : state.pc invocation = .readFirst)
      (waited : ∀ other, group.subgroup other = group.subgroup invocation →
        4 ≤ (state.pc other).rank) :
      Stepped state invocation { state with
        pc := Function.update state.pc invocation .done
        subgroupId := Function.update state.subgroupId invocation
          (state.subgroupIdLocal (group.first (group.subgroup invocation))) }

variable {group} {state state' : State Invocation} {invocation : Invocation}

theorem stepped_of_step (goes : step group state invocation = some state') :
    Stepped group state invocation state' := by
  unfold step at goes
  split at goes
  case h_1 here => exact Option.some.inj goes ▸ .storeLocal here
  case h_2 here => exact Option.some.inj goes ▸ .clearCounter here
  case h_3 here =>
    split at goes
    case isTrue waited => exact Option.some.inj goes ▸ .barrier here waited
    case isFalse => cases goes
  case h_4 here =>
    split at goes
    case isTrue isFirst => exact Option.some.inj goes ▸ .elected here isFirst
    case isFalse notFirst => exact Option.some.inj goes ▸ .notElected here notFirst
  case h_5 here =>
    split at goes
    case isTrue waited => exact Option.some.inj goes ▸ .readFirst here waited
    case isFalse => cases goes
  case h_6 => cases goes

omit [Fintype Invocation] [DecidableEq Subgroup] in
theorem Stepped.advances (stepped : Stepped group state invocation state') :
    ∃ pc, state'.pc = Function.update state.pc invocation pc ∧
      pc.rank = (state.pc invocation).rank + 1 := by
  cases stepped with
  | storeLocal here => exact ⟨_, rfl, by rw [here]; rfl⟩
  | clearCounter here => exact ⟨_, rfl, by rw [here]; rfl⟩
  | barrier here => exact ⟨_, rfl, by rw [here]; rfl⟩
  | elected here => exact ⟨_, rfl, by rw [here]; rfl⟩
  | notElected here => exact ⟨_, rfl, by rw [here]; rfl⟩
  | readFirst here => exact ⟨_, rfl, by rw [here]; rfl⟩

omit [DecidableEq Subgroup] in
theorem Stepped.sum_rank (stepped : Stepped group state invocation state') :
    ∑ other, (state'.pc other).rank = (∑ other, (state.pc other).rank) + 1 := by
  obtain ⟨pc, moved, next⟩ := stepped.advances
  rw [← Finset.add_sum_erase _ _ (Finset.mem_univ invocation),
    ← Finset.add_sum_erase Finset.univ (fun other => (state.pc other).rank)
      (Finset.mem_univ invocation)]
  have others : ∑ other ∈ Finset.univ.erase invocation, (state'.pc other).rank
      = ∑ other ∈ Finset.univ.erase invocation, (state.pc other).rank := by
    refine Finset.sum_congr rfl fun other there => ?_
    rw [moved, Function.update_of_ne (Finset.ne_of_mem_erase there)]
  rw [others, moved, Function.update_self, next]
  omega

theorem Pc.rank_le (pc : Pc) : pc.rank ≤ 5 := by
  cases pc <;> decide

theorem Pc.eq_done_of_rank {pc : Pc} (last : pc.rank = 5) : pc = .done := by
  cases pc <;> first | rfl | exact absurd last (by decide)

/-- A run takes as many steps as the invocations have gone through places. -/
theorem Reached.steps_eq {steps : Nat} (reached : Reached group steps state) :
    steps = ∑ other, (state.pc other).rank := by
  induction reached with
  | start state begins => simp [begins, Pc.rank]
  | step reached invocation goes ih => rw [(stepped_of_step goes).sum_rank, ih]

variable (group) in
/-- Some invocation that is the least far can always go on. -/
theorem exists_step_of_not_done {behind : Invocation} (waits : state.pc behind ≠ .done) :
    ∃ invocation, (step group state invocation).isSome := by
  obtain ⟨least, -, isLeast⟩ := Finset.exists_min_image Finset.univ
    (fun other => (state.pc other).rank) ⟨behind, Finset.mem_univ behind⟩
  replace isLeast : ∀ other, (state.pc least).rank ≤ (state.pc other).rank :=
    fun other => isLeast other (Finset.mem_univ other)
  refine ⟨least, ?_⟩
  unfold step
  split
  case h_1 => rfl
  case h_2 => rfl
  case h_3 here =>
    rw [here] at isLeast
    rw [if_pos isLeast]
    rfl
  case h_4 => split <;> rfl
  case h_5 here =>
    rw [here] at isLeast
    rw [if_pos fun other _ => isLeast other]
    rfl
  case h_6 here =>
    rw [here] at isLeast
    exact absurd (Pc.eq_done_of_rank (Nat.le_antisymm (Pc.rank_le _) (isLeast behind))) waits

end Step

end SpirvToDxil.Nir.SubgroupId
