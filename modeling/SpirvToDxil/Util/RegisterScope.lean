import SpirvToDxil.Util.Structured

/-!
# Registers in scope

A transformation of structured programs may use new registers, whose values are of no interest to
the rest of the program. Two meanings are similar if they do the same to the memory and to the
registers below a limit, whatever the other registers hold.
-/

namespace Structured

universe u v w

variable {Action : Type u} {Test : Type v} {Memory : Type w} {limit : Nat}

namespace State

/-- The same memory and the same registers below the limit. -/
def Agrees (limit : Nat) (first second : State Memory) : Prop :=
  first.memory = second.memory ∧
    ∀ register < limit, first.registers register = second.registers register

theorem Agrees.refl (state : State Memory) : state.Agrees limit state :=
  ⟨rfl, fun _ _ => rfl⟩

theorem Agrees.symm {first second : State Memory} (agrees : first.Agrees limit second) :
    second.Agrees limit first :=
  ⟨agrees.1.symm, fun register below => (agrees.2 register below).symm⟩

theorem Agrees.trans {first second third : State Memory} (agrees : first.Agrees limit second)
    (others : second.Agrees limit third) : first.Agrees limit third :=
  ⟨agrees.1.trans others.1,
    fun register below => (agrees.2 register below).trans (others.2 register below)⟩

/-- Registers out of scope may be set. -/
theorem Agrees.store {first second : State Memory} (agrees : first.Agrees limit second)
    {flag : Nat} (above : limit ≤ flag) (value : Bool) :
    first.Agrees limit (second.store flag value) := by
  refine ⟨agrees.1, fun register below => ?_⟩
  rw [registers_store_of_ne second value (Nat.ne_of_lt (Nat.lt_of_lt_of_le below above))]
  exact agrees.2 register below

end State

namespace Meaning

/-- Whatever the first does the second does too, out of scope registers apart. -/
def Simulates (limit : Nat) (first second : Meaning Memory) : Prop :=
  ∀ ⦃start start' outcome finish⦄, start.Agrees limit start' → first start outcome finish →
    ∃ finish', second start' outcome finish' ∧ finish.Agrees limit finish'

structure Similar (limit : Nat) (first second : Meaning Memory) : Prop where
  forward : first.Simulates limit second
  backward : second.Simulates limit first

variable {first second third first' second' : Meaning Memory}

theorem Simulates.trans (simulates : first.Simulates limit second)
    (others : second.Simulates limit third) : first.Simulates limit third := by
  intro start start' outcome finish agrees runs
  obtain ⟨middle, runs, near⟩ := simulates agrees runs
  obtain ⟨last, runs, far⟩ := others (State.Agrees.refl start') runs
  exact ⟨last, runs, near.trans far⟩

theorem Simulates.seq (simulates : first.Simulates limit first')
    (others : second.Simulates limit second') :
    (first.seq second).Simulates limit (first'.seq second') := by
  rintro start start' outcome finish agrees (⟨middle, one, two⟩ | ⟨jumps, one⟩)
  · obtain ⟨middle', one', near⟩ := simulates agrees one
    obtain ⟨finish', two', far⟩ := others near two
    exact ⟨finish', Or.inl ⟨middle', one', two'⟩, far⟩
  · obtain ⟨finish', one', near⟩ := simulates agrees one
    exact ⟨finish', Or.inr ⟨jumps, one'⟩, near⟩

theorem Simulates.choose (simulates : first.Simulates limit first')
    (others : second.Simulates limit second') {test : State Memory → Bool}
    (tests : ∀ ⦃start start'⦄, start.Agrees limit start' → test start' = test start) :
    (choose test first second).Simulates limit (choose test first' second') := by
  intro start start' outcome finish agrees runs
  unfold Meaning.choose at runs ⊢
  rw [tests agrees]
  by_cases holds : test start = true
  · simp only [if_pos holds] at runs ⊢
    exact simulates agrees runs
  · simp only [if_neg holds] at runs ⊢
    exact others agrees runs

theorem Simulates.catchContinue (simulates : first.Simulates limit first') :
    first.catchContinue.Simulates limit first'.catchContinue := by
  rintro start start' outcome finish agrees (⟨falls, continues⟩ | ⟨other, ends⟩)
  · obtain ⟨finish', continues', near⟩ := simulates agrees continues
    exact ⟨finish', Or.inl ⟨falls, continues'⟩, near⟩
  · obtain ⟨finish', ends', near⟩ := simulates agrees ends
    exact ⟨finish', Or.inr ⟨other, ends'⟩, near⟩

theorem Simulates.rounds (simulates : first.Simulates limit first') :
    (Rounds first).Simulates limit (Rounds first') := by
  intro start start' outcome finish agrees rounds
  induction rounds generalizing start' with
  | leave ends =>
      obtain ⟨finish', ends', near⟩ := simulates agrees ends
      exact ⟨finish', .leave ends', near⟩
  | escape away ends =>
      obtain ⟨finish', ends', near⟩ := simulates agrees ends
      exact ⟨finish', .escape away ends', near⟩
  | again goesOn round _ inductionHypothesis =>
      obtain ⟨middle, round', near⟩ := simulates agrees round
      obtain ⟨finish', rounds', far⟩ := inductionHypothesis near
      exact ⟨finish', .again goesOn round' rounds', far⟩

theorem Similar.symm (similar : first.Similar limit second) : second.Similar limit first :=
  ⟨similar.backward, similar.forward⟩

theorem Similar.trans (similar : first.Similar limit second)
    (others : second.Similar limit third) : first.Similar limit third :=
  ⟨similar.forward.trans others.forward, others.backward.trans similar.backward⟩

theorem Similar.right (similar : first.Similar limit second) : second.Similar limit second :=
  similar.symm.trans similar

theorem Similar.seq (similar : first.Similar limit first')
    (others : second.Similar limit second') :
    (first.seq second).Similar limit (first'.seq second') :=
  ⟨similar.forward.seq others.forward, similar.backward.seq others.backward⟩

theorem Similar.choose (similar : first.Similar limit first')
    (others : second.Similar limit second') {test : State Memory → Bool}
    (tests : ∀ ⦃start start'⦄, start.Agrees limit start' → test start' = test start) :
    (choose test first second).Similar limit (choose test first' second') :=
  ⟨similar.forward.choose others.forward tests, similar.backward.choose others.backward tests⟩

theorem Similar.catchContinue (similar : first.Similar limit first') :
    first.catchContinue.Similar limit first'.catchContinue :=
  ⟨similar.forward.catchContinue, similar.backward.catchContinue⟩

theorem Similar.rounds (similar : first.Similar limit first') :
    (Rounds first).Similar limit (Rounds first') :=
  ⟨similar.forward.rounds, similar.backward.rounds⟩

theorem Similar.congr (similar : first.Similar limit second)
    (same : ∀ {start outcome finish}, first' start outcome finish ↔ first start outcome finish)
    (same' : ∀ {start outcome finish}, second' start outcome finish ↔ second start outcome finish) :
    first'.Similar limit second' := by
  constructor
  · intro start start' outcome finish agrees runs
    obtain ⟨finish', runs', near⟩ := similar.forward agrees (same.mp runs)
    exact ⟨finish', same'.mpr runs', near⟩
  · intro start start' outcome finish agrees runs
    obtain ⟨finish', runs', near⟩ := similar.backward agrees (same'.mp runs)
    exact ⟨finish', same.mpr runs', near⟩

end Meaning

namespace Machine

variable {machine : Machine Action Test Memory}

theorem run_agrees {ops : List (Op Action)} (below : ∀ op ∈ ops, op.bound ≤ limit)
    {start start' : State Memory} (agrees : start.Agrees limit start') :
    (machine.run start ops).Agrees limit (machine.run start' ops) := by
  induction ops generalizing start start' with
  | nil => exact agrees
  | cons op ops inductionHypothesis =>
      have later : ∀ op ∈ ops, op.bound ≤ limit := fun other member =>
        below other (List.mem_cons_of_mem op member)
      rw [run_cons, run_cons]
      apply inductionHypothesis later
      cases op with
      | action action =>
          refine ⟨?_, agrees.2⟩
          rw [step, step, agrees.1]
      | store register value =>
          refine ⟨agrees.1, fun other inScope => ?_⟩
          by_cases same : other = register
          · simp [step, same]
          · simp only [step, State.registers_store_of_ne _ _ same]
            exact agrees.2 other inScope

theorem holds_agrees {condition : Cond Test} (below : condition.bound ≤ limit)
    ⦃start start' : State Memory⦄ (agrees : start.Agrees limit start') :
    machine.holds start' condition = machine.holds start condition := by
  cases condition with
  | test test => rw [holds, holds, agrees.1]
  | load register => exact (agrees.2 register below).symm

theorem similar_last {ops : List (Op Action)} (below : ∀ op ∈ ops, op.bound ≤ limit)
    (jump : Option Jump) :
    (machine.evalCode (.last ops jump)).Similar limit (machine.evalCode (.last ops jump)) := by
  have simulates : (machine.evalCode (.last ops jump)).Simulates limit
      (machine.evalCode (.last ops jump)) := by
    intro start start' outcome finish agrees runs
    obtain ⟨rfl, rfl⟩ := evalCode_last.mp runs
    exact ⟨_, evalCode_last.mpr ⟨rfl, rfl⟩, run_agrees below agrees⟩
  exact ⟨simulates, simulates⟩

theorem similar_cons {ops : List (Op Action)} (below : ∀ op ∈ ops, op.bound ≤ limit)
    {node node' : Node Action Test} {rest rest' : Code Action Test}
    (nodes : (machine.evalNode node).Similar limit (machine.evalNode node'))
    (rests : (machine.evalCode rest).Similar limit (machine.evalCode rest')) :
    (machine.evalCode (.cons ops node rest)).Similar limit
      (machine.evalCode (.cons ops node' rest')) := by
  constructor
  · intro start start' outcome finish agrees runs
    simp only [evalCode_cons] at runs ⊢
    exact (nodes.seq rests).forward (run_agrees below agrees) runs
  · intro start start' outcome finish agrees runs
    simp only [evalCode_cons] at runs ⊢
    exact (nodes.seq rests).backward (run_agrees below agrees) runs

end Machine

end Structured
