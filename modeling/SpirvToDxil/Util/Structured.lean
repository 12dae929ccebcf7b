import Mathlib.Logic.Function.Basic

/-!
# Structured programs

Code is a list of straight-line blocks with conditionals and loops between them. Only the last
block of a list can jump. The state of a machine is extended with boolean registers, which
transformations use as flags.

The meaning of code is the relation between a state and what the code comes to from there: the
jump with which it ends, if it ends with one, and the state at that point. Code that runs forever
comes to nothing.
-/

namespace Structured

universe u v w

inductive Jump where
  | breakLoop
  | continueLoop
  | returnFunction
  | halt
  | abort
  deriving DecidableEq, Repr

/-- Whether a jump goes on in the innermost loop or behind it. -/
def Jump.IsLocal : Jump → Prop
  | .breakLoop | .continueLoop => True
  | .returnFunction | .halt | .abort => False

instance (jump : Jump) : Decidable jump.IsLocal := by
  cases jump <;> unfold Jump.IsLocal <;> infer_instance

inductive Op (Action : Type u) where
  | action (action : Action)
  | store (register : Nat) (value : Bool)
  deriving DecidableEq, Repr

inductive Cond (Test : Type u) where
  | test (test : Test)
  | load (register : Nat)
  deriving DecidableEq, Repr

mutual

inductive Node (Action : Type u) (Test : Type v) where
  | ifNode (condition : Cond Test) (thenList elseList : Code Action Test)
  | loopNode (body : Code Action Test)
  /-- A loop that runs its continue construct at the end of a round. -/
  | continueNode (body continueList : Code Action Test)

inductive Code (Action : Type u) (Test : Type v) where
  | last (ops : List (Op Action)) (jump : Option Jump)
  | cons (ops : List (Op Action)) (node : Node Action Test) (rest : Code Action Test)

end

deriving instance Repr for Node, Code

variable {Action : Type u} {Test : Type v} {Memory : Type w}

namespace Code

def empty : Code Action Test := .last [] none

def lastJump : Code Action Test → Option Jump
  | .last _ jump => jump
  | .cons _ _ rest => rest.lastJump

def isEmpty : Code Action Test → Bool
  | .last [] none => true
  | _ => false

/-- Whether a block of the list, or of its conditionals, ends in the jump. -/
def jumps (jump : Jump) : Code Action Test → Bool
  | .last _ ends => ends == some jump
  | .cons _ (.ifNode _ thenList elseList) rest =>
    jumps jump thenList || jumps jump elseList || jumps jump rest
  | .cons _ _ rest => jumps jump rest

def prepend (front : List (Op Action)) : Code Action Test → Code Action Test
  | .last ops jump => .last (front ++ ops) jump
  | .cons ops node rest => .cons (front ++ ops) node rest

/-- One list behind the other, whose blocks become one where they meet. What is behind a jump is
left out. -/
def append : Code Action Test → Code Action Test → Code Action Test
  | .last ops none, behind => behind.prepend ops
  | .last ops (some jump), _ => .last ops (some jump)
  | .cons ops node rest, behind => .cons ops node (rest.append behind)

/-- The list falls through where it jumped. -/
def dropJump : Code Action Test → Code Action Test
  | .last ops _ => .last ops none
  | .cons ops node rest => .cons ops node rest.dropJump

@[simp] theorem lastJump_empty : (empty : Code Action Test).lastJump = none := rfl

theorem eq_empty_of_isEmpty {code : Code Action Test} (isEmpty : code.isEmpty = true) :
    code = .empty := by
  match code with
  | .last [] none => rfl

@[simp] theorem lastJump_prepend (front : List (Op Action)) (code : Code Action Test) :
    (code.prepend front).lastJump = code.lastJump := by
  cases code <;> rfl

@[simp] theorem prepend_nil (code : Code Action Test) : code.prepend [] = code := by
  cases code <;> rfl

theorem append_of_lastJump {code : Code Action Test} {jump : Jump}
    (jumps : code.lastJump = some jump) (behind : Code Action Test) :
    code.append behind = code := by
  match code with
  | .last ops none => cases jumps
  | .last ops (some jump) => rfl
  | .cons ops node rest =>
      have restJumps : rest.lastJump = some jump := jumps
      rw [append, append_of_lastJump restJumps]

@[simp] theorem append_empty (code : Code Action Test) : code.append .empty = code := by
  match code with
  | .last ops none => simp [append, empty, prepend]
  | .last ops (some jump) => rfl
  | .cons ops node rest => rw [append, append_empty]

@[simp] theorem lastJump_dropJump (code : Code Action Test) : code.dropJump.lastJump = none := by
  match code with
  | .last ops jump => rfl
  | .cons ops node rest => exact lastJump_dropJump rest

theorem dropJump_append_last (code : Code Action Test) :
    code.dropJump.append (.last [] code.lastJump) = code := by
  match code with
  | .last ops jump => simp [dropJump, append, prepend, lastJump]
  | .cons ops node rest => rw [dropJump, append, lastJump, dropJump_append_last]

@[simp] theorem jumps_prepend (jump : Jump) (front : List (Op Action)) (code : Code Action Test) :
    jumps jump (code.prepend front) = jumps jump code := by
  cases code with
  | last ops ends => rfl
  | cons ops node rest => cases node <;> rfl

theorem jumps_append (jump : Jump) (code behind : Code Action Test) :
    jumps jump (code.append behind) =
      (jumps jump code || (code.lastJump.isNone && jumps jump behind)) := by
  match code with
  | .last ops none => simp [append, jumps, lastJump]
  | .last ops (some ends) => simp [append, jumps, lastJump]
  | .cons ops (.ifNode condition thenList elseList) rest =>
      simp only [append, jumps, lastJump, jumps_append jump rest, Bool.or_assoc]
  | .cons ops (.loopNode body) rest => exact jumps_append jump rest behind
  | .cons ops (.continueNode body continueList) rest => exact jumps_append jump rest behind

end Code

/-! ## Conditions on the parts of code -/

/-- Which operations, conditions, ends of blocks and loops code may have. -/
structure Shape (Action : Type u) (Test : Type v) where
  op : Op Action → Prop := fun _ => True
  cond : Cond Test → Prop := fun _ => True
  ends : Option Jump → Prop := fun _ => True
  loop : Code Action Test → Prop := fun _ => True
  continues : Code Action Test → Code Action Test → Prop := fun _ _ => True

mutual

def Node.All (shape : Shape Action Test) : Node Action Test → Prop
  | .ifNode condition thenList elseList =>
    shape.cond condition ∧ thenList.All shape ∧ elseList.All shape
  | .loopNode body => shape.loop body ∧ body.All shape
  | .continueNode body continueList =>
    shape.continues body continueList ∧ body.All shape ∧ continueList.All shape

def Code.All (shape : Shape Action Test) : Code Action Test → Prop
  | .last ops jump => (∀ op ∈ ops, shape.op op) ∧ shape.ends jump
  | .cons ops node rest => (∀ op ∈ ops, shape.op op) ∧ node.All shape ∧ rest.All shape

end

def Op.Avoids (register : Nat) : Op Action → Prop
  | .action _ => True
  | .store other _ => other ≠ register

def Cond.Avoids (register : Nat) : Cond Test → Prop
  | .test _ => True
  | .load other => other ≠ register

namespace Shape

/-- The register is neither read nor written. -/
def avoiding (register : Nat) : Shape Action Test where
  op := Op.Avoids register
  cond := Cond.Avoids register

def plainLoops : Shape Action Test where
  continues := fun _ _ => False

end Shape

namespace Code

variable {shape : Shape Action Test} {behind : Code Action Test}

theorem All.empty (falls : shape.ends none) : (empty : Code Action Test).All shape :=
  ⟨nofun, falls⟩

theorem All.prepend {code : Code Action Test} (all : code.All shape) {front : List (Op Action)}
    (allFront : ∀ op ∈ front, shape.op op) : (code.prepend front).All shape := by
  cases code with
  | last ops jump => exact ⟨List.forall_mem_append.mpr ⟨allFront, all.1⟩, all.2⟩
  | cons ops node rest => exact ⟨List.forall_mem_append.mpr ⟨allFront, all.1⟩, all.2⟩

theorem All.dropJump {code : Code Action Test} (all : code.All shape) (falls : shape.ends none) :
    code.dropJump.All shape := by
  match code with
  | .last ops jump => exact ⟨all.1, falls⟩
  | .cons ops node rest => exact ⟨all.1, all.2.1, all.2.2.dropJump falls⟩

theorem All.append {code : Code Action Test} (all : code.All shape)
    (allBehind : behind.All shape) : (code.append behind).All shape := by
  match code with
  | .last ops none => exact allBehind.prepend all.1
  | .last ops (some jump) => exact all
  | .cons ops node rest => exact ⟨all.1, all.2.1, all.2.2.append allBehind⟩

end Code

structure Shape.Implies (shape weaker : Shape Action Test) : Prop where
  op : ∀ op, shape.op op → weaker.op op
  cond : ∀ cond, shape.cond cond → weaker.cond cond
  ends : ∀ jump, shape.ends jump → weaker.ends jump
  loop : ∀ body, shape.loop body → weaker.loop body
  continues : ∀ body continueList,
    shape.continues body continueList → weaker.continues body continueList

mutual

theorem Node.All.mono {shape weaker : Shape Action Test} {node : Node Action Test}
    (all : node.All shape) (implies : shape.Implies weaker) : node.All weaker := by
  cases node with
  | ifNode condition thenList elseList =>
      exact ⟨implies.cond condition all.1, all.2.1.mono implies, all.2.2.mono implies⟩
  | loopNode body => exact ⟨implies.loop body all.1, all.2.mono implies⟩
  | continueNode body continueList =>
      exact ⟨implies.continues body continueList all.1, all.2.1.mono implies,
        all.2.2.mono implies⟩

theorem Code.All.mono {shape weaker : Shape Action Test} {code : Code Action Test}
    (all : code.All shape) (implies : shape.Implies weaker) : code.All weaker := by
  cases code with
  | last ops jump =>
      exact ⟨fun op member => implies.op op (all.1 op member), implies.ends jump all.2⟩
  | cons ops node rest =>
      exact ⟨fun op member => implies.op op (all.1 op member), all.2.1.mono implies,
        all.2.2.mono implies⟩

end

def Shape.and (first second : Shape Action Test) : Shape Action Test where
  op := fun op => first.op op ∧ second.op op
  cond := fun cond => first.cond cond ∧ second.cond cond
  ends := fun jump => first.ends jump ∧ second.ends jump
  loop := fun body => first.loop body ∧ second.loop body
  continues := fun body continueList =>
    first.continues body continueList ∧ second.continues body continueList

mutual

theorem Node.All.and {first second : Shape Action Test} {node : Node Action Test}
    (one : node.All first) (two : node.All second) : node.All (first.and second) := by
  cases node with
  | ifNode condition thenList elseList =>
      exact ⟨⟨one.1, two.1⟩, one.2.1.and two.2.1, one.2.2.and two.2.2⟩
  | loopNode body => exact ⟨⟨one.1, two.1⟩, one.2.and two.2⟩
  | continueNode body continueList =>
      exact ⟨⟨one.1, two.1⟩, one.2.1.and two.2.1, one.2.2.and two.2.2⟩

theorem Code.All.and {first second : Shape Action Test} {code : Code Action Test}
    (one : code.All first) (two : code.All second) : code.All (first.and second) := by
  cases code with
  | last ops jump =>
      exact ⟨fun op member => ⟨one.1 op member, two.1 op member⟩, one.2, two.2⟩
  | cons ops node rest =>
      exact ⟨fun op member => ⟨one.1 op member, two.1 op member⟩, one.2.1.and two.2.1,
        one.2.2.and two.2.2⟩

end

/-! ## Meaning -/

structure Machine (Action : Type u) (Test : Type v) (Memory : Type w) where
  exec : Action → Memory → Memory
  truth : Test → Memory → Bool

structure State (Memory : Type w) where
  memory : Memory
  registers : Nat → Bool

/-- What may be come to from a state. -/
abbrev Meaning (Memory : Type w) := State Memory → Option Jump → State Memory → Prop

namespace State

def store (state : State Memory) (register : Nat) (value : Bool) : State Memory :=
  { state with registers := Function.update state.registers register value }

@[simp] theorem memory_store (state : State Memory) (register : Nat) (value : Bool) :
    (state.store register value).memory = state.memory := rfl

@[simp] theorem registers_store (state : State Memory) (register : Nat) (value : Bool) :
    (state.store register value).registers register = value := by
  simp [store]

theorem registers_store_of_ne (state : State Memory) {register other : Nat} (value : Bool)
    (differs : other ≠ register) :
    (state.store register value).registers other = state.registers other := by
  simp [store, differs]

@[simp] theorem store_store (state : State Memory) (register : Nat) (first second : Bool) :
    (state.store register first).store register second = state.store register second := by
  simp [store]

@[simp] theorem store_self (state : State Memory) (register : Nat) :
    state.store register (state.registers register) = state := by
  simp [store]

theorem store_comm (state : State Memory) {register other : Nat} (differs : register ≠ other)
    (first second : Bool) :
    (state.store register first).store other second =
      (state.store other second).store register first := by
  simp [store, Function.update_comm differs]

end State

namespace Meaning

/-- The second goes on where the first falls through. -/
def seq (first second : Meaning Memory) : Meaning Memory := fun start outcome finish =>
  (∃ middle, first start none middle ∧ second middle outcome finish) ∨
    (outcome ≠ none ∧ first start outcome finish)

def choose (test : State Memory → Bool) (first second : Meaning Memory) : Meaning Memory :=
  fun start outcome finish =>
    if test start then first start outcome finish else second start outcome finish

/-- A continue jump falls through. -/
def catchContinue (body : Meaning Memory) : Meaning Memory := fun start outcome finish =>
  (outcome = none ∧ body start (some .continueLoop) finish) ∨
    (outcome ≠ some .continueLoop ∧ body start outcome finish)

inductive Rounds (round : Meaning Memory) : Meaning Memory
  | leave {start finish : State Memory} (ends : round start (some .breakLoop) finish) :
      Rounds round start none finish
  | escape {start finish : State Memory} {jump : Jump} (away : ¬ jump.IsLocal)
      (ends : round start (some jump) finish) : Rounds round start (some jump) finish
  | again {start middle finish : State Memory} {outcome ends : Option Jump}
      (goesOn : outcome = none ∨ outcome = some .continueLoop) (first : round start outcome middle)
      (others : Rounds round middle ends finish) : Rounds round start ends finish

end Meaning

namespace Machine

variable (machine : Machine Action Test Memory)

def step (state : State Memory) : Op Action → State Memory
  | .action action => { state with memory := machine.exec action state.memory }
  | .store register value => state.store register value

def run (state : State Memory) (ops : List (Op Action)) : State Memory :=
  ops.foldl machine.step state

def holds (state : State Memory) : Cond Test → Bool
  | .test test => machine.truth test state.memory
  | .load register => state.registers register

mutual

def evalNode : Node Action Test → Meaning Memory
  | .ifNode condition thenList elseList =>
    .choose (machine.holds · condition) (evalCode thenList) (evalCode elseList)
  | .loopNode body => .Rounds (evalCode body)
  | .continueNode body continueList =>
    .Rounds ((evalCode body).catchContinue.seq (evalCode continueList))

def evalCode : Code Action Test → Meaning Memory
  | .last ops jump => fun start outcome finish => outcome = jump ∧ finish = machine.run start ops
  | .cons ops node rest => fun start outcome finish =>
    (evalNode node).seq (evalCode rest) (machine.run start ops) outcome finish

end

@[simp] theorem run_nil (state : State Memory) : machine.run state [] = state := rfl

@[simp] theorem run_cons (state : State Memory) (op : Op Action) (ops : List (Op Action)) :
    machine.run state (op :: ops) = machine.run (machine.step state op) ops := rfl

theorem run_append (state : State Memory) (front back : List (Op Action)) :
    machine.run state (front ++ back) = machine.run (machine.run state front) back :=
  List.foldl_append

variable {machine}

theorem evalCode_last {ops : List (Op Action)} {jump outcome : Option Jump}
    {start finish : State Memory} :
    machine.evalCode (.last ops jump) start outcome finish ↔
      outcome = jump ∧ finish = machine.run start ops := by
  rw [evalCode]

theorem evalCode_cons {ops : List (Op Action)} {node : Node Action Test} {rest : Code Action Test}
    {outcome : Option Jump} {start finish : State Memory} :
    machine.evalCode (.cons ops node rest) start outcome finish ↔
      (machine.evalNode node).seq (machine.evalCode rest)
        (machine.run start ops) outcome finish := by
  rw [evalCode]

theorem evalCode_empty {outcome : Option Jump} {start finish : State Memory} :
    machine.evalCode Code.empty start outcome finish ↔ outcome = none ∧ finish = start := by
  rw [Code.empty, evalCode_last, run_nil]

theorem evalNode_if {condition : Cond Test} {thenList elseList : Code Action Test}
    {outcome : Option Jump} {start finish : State Memory} :
    machine.evalNode (.ifNode condition thenList elseList) start outcome finish ↔
      if machine.holds start condition then machine.evalCode thenList start outcome finish
      else machine.evalCode elseList start outcome finish := by
  rw [evalNode, Meaning.choose]

theorem evalCode_prepend {ops : List (Op Action)} {code : Code Action Test}
    {outcome : Option Jump} {start finish : State Memory} :
    machine.evalCode (code.prepend ops) start outcome finish ↔
      machine.evalCode code (machine.run start ops) outcome finish := by
  cases code with
  | last inner jump => rw [Code.prepend, evalCode_last, evalCode_last, run_append]
  | cons inner node rest => rw [Code.prepend, evalCode_cons, evalCode_cons, run_append]

theorem not_evalCode_of_lastJump {code : Code Action Test} {jump : Jump}
    (jumps : code.lastJump = some jump) {start finish : State Memory} :
    ¬ machine.evalCode code start none finish := by
  intro falls
  match code with
  | .last ops end? =>
      rw [Code.lastJump] at jumps
      rw [evalCode_last, jumps] at falls
      cases falls.1
  | .cons ops node rest =>
      have restJumps : rest.lastJump = some jump := jumps
      rw [evalCode_cons] at falls
      rcases falls with ⟨middle, -, rests⟩ | ⟨absurd, -⟩
      · exact not_evalCode_of_lastJump restJumps rests
      · exact absurd rfl

end Machine

namespace Meaning

variable {first second third : Meaning Memory} {start finish : State Memory}
  {outcome : Option Jump}

theorem seq_assoc :
    (first.seq second).seq third start outcome finish ↔
      first.seq (second.seq third) start outcome finish := by
  constructor
  · rintro
      (⟨middle, ⟨inner, one, two⟩ | ⟨absurd, -⟩, three⟩ | ⟨jumps, ⟨inner, one, two⟩ | ⟨-, one⟩⟩)
    · exact Or.inl ⟨inner, one, Or.inl ⟨middle, two, three⟩⟩
    · exact absurd.elim rfl
    · exact Or.inl ⟨inner, one, Or.inr ⟨jumps, two⟩⟩
    · exact Or.inr ⟨jumps, one⟩
  · rintro (⟨inner, one, ⟨middle, two, three⟩ | ⟨jumps, two⟩⟩ | ⟨jumps, one⟩)
    · exact Or.inl ⟨middle, Or.inl ⟨inner, one, two⟩, three⟩
    · exact Or.inr ⟨jumps, Or.inl ⟨inner, one, two⟩⟩
    · exact Or.inr ⟨jumps, Or.inr ⟨jumps, one⟩⟩

theorem choose_seq {test : State Memory → Bool} :
    (choose test first second).seq third start outcome finish ↔
      choose test (first.seq third) (second.seq third) start outcome finish := by
  unfold choose seq
  by_cases holds : test start = true
  · simp only [if_pos holds]
  · simp only [if_neg holds]

theorem Rounds.not_isLocal {round : Meaning Memory} {start finish : State Memory}
    {outcome : Option Jump} (rounds : Meaning.Rounds round start outcome finish) {jump : Jump}
    (ends : outcome = some jump) : ¬ jump.IsLocal := by
  induction rounds with
  | leave => cases ends
  | escape away =>
      cases ends
      exact away
  | again _ _ _ inductionHypothesis => exact inductionHypothesis ends

theorem Rounds.exists_break {round : Meaning Memory} {start finish : State Memory}
    {outcome : Option Jump} (rounds : Meaning.Rounds round start outcome finish)
    (falls : outcome = none) :
    ∃ start finish, round start (some .breakLoop) finish := by
  induction rounds with
  | leave ends => exact ⟨_, _, ends⟩
  | escape => cases falls
  | again _ _ _ inductionHypothesis => exact inductionHypothesis falls

theorem Rounds.exists_escape {round : Meaning Memory} {start finish : State Memory}
    {outcome : Option Jump} (rounds : Meaning.Rounds round start outcome finish) {jump : Jump}
    (jumps : outcome = some jump) : ∃ start finish, round start (some jump) finish := by
  induction rounds with
  | leave => cases jumps
  | escape _ ends =>
      cases jumps
      exact ⟨_, _, ends⟩
  | again _ _ _ inductionHypothesis => exact inductionHypothesis jumps

end Meaning

namespace Machine

variable {machine : Machine Action Test Memory}

theorem lastJump_of_falls {code : Code Action Test} {start middle : State Memory}
    (falls : machine.evalCode code start none middle) : code.lastJump.isNone = true := by
  cases ends : code.lastJump with
  | none => rfl
  | some jump => exact absurd falls (not_evalCode_of_lastJump ends)

/-- Only a block of the list, or of a conditional in it, jumps within or out of the loop. -/
theorem not_evalCode_of_jumps {jump : Jump} (within : jump.IsLocal) {code : Code Action Test}
    (never : Code.jumps jump code = false) {start finish : State Memory} :
    ¬ machine.evalCode code start (some jump) finish := by
  intro ends
  match code with
  | .last ops ends' =>
      rw [evalCode_last] at ends
      simp [Code.jumps, ← ends.1] at never
  | .cons ops (.ifNode condition thenList elseList) rest =>
      simp only [Code.jumps, Bool.or_eq_false_iff] at never
      rw [evalCode_cons] at ends
      rcases ends with ⟨middle, -, behind⟩ | ⟨-, inside⟩
      · exact not_evalCode_of_jumps within never.2 behind
      · rw [evalNode_if] at inside
        split at inside
        · exact not_evalCode_of_jumps within never.1.1 inside
        · exact not_evalCode_of_jumps within never.1.2 inside
  | .cons ops (.loopNode body) rest =>
      have neverBehind : Code.jumps jump rest = false := never
      rw [evalCode_cons] at ends
      rcases ends with ⟨middle, -, behind⟩ | ⟨-, inside⟩
      · exact not_evalCode_of_jumps within neverBehind behind
      · rw [evalNode] at inside
        exact inside.not_isLocal rfl within
  | .cons ops (.continueNode body continueList) rest =>
      have neverBehind : Code.jumps jump rest = false := never
      rw [evalCode_cons] at ends
      rcases ends with ⟨middle, -, behind⟩ | ⟨-, inside⟩
      · exact not_evalCode_of_jumps within neverBehind behind
      · rw [evalNode] at inside
        exact inside.not_isLocal rfl within

theorem seq_empty {meaning : Meaning Memory} {outcome : Option Jump} {start finish : State Memory} :
    meaning.seq (machine.evalCode Code.empty) start outcome finish ↔
      meaning start outcome finish := by
  constructor
  · rintro (⟨middle, falls, empties⟩ | ⟨-, runs⟩)
    · obtain ⟨rfl, rfl⟩ := evalCode_empty.mp empties
      exact falls
    · exact runs
  · intro runs
    by_cases falls : outcome = none
    · subst falls
      exact Or.inl ⟨finish, runs, evalCode_empty.mpr ⟨rfl, rfl⟩⟩
    · exact Or.inr ⟨falls, runs⟩

theorem evalCode_cons_seq {ops : List (Op Action)} {node : Node Action Test}
    {rest : Code Action Test} {behind : Meaning Memory} {outcome : Option Jump}
    {start finish : State Memory} :
    (machine.evalCode (.cons ops node rest)).seq behind start outcome finish ↔
      (machine.evalNode node).seq ((machine.evalCode rest).seq behind) (machine.run start ops)
        outcome finish := by
  rw [← Meaning.seq_assoc]
  simp only [Meaning.seq, evalCode_cons]

/-- Nothing runs behind a jump. -/
theorem evalCode_seq_of_lastJump {code : Code Action Test} {jump : Jump}
    (jumps : code.lastJump = some jump) {behind : Meaning Memory} {outcome : Option Jump}
    {start finish : State Memory} :
    (machine.evalCode code).seq behind start outcome finish ↔
      machine.evalCode code start outcome finish := by
  constructor
  · rintro (⟨middle, falls, -⟩ | ⟨-, runs⟩)
    · exact absurd falls (not_evalCode_of_lastJump jumps)
    · exact runs
  · intro runs
    refine Or.inr ⟨?_, runs⟩
    rintro rfl
    exact not_evalCode_of_lastJump jumps runs

theorem evalCode_append {code behind : Code Action Test} {outcome : Option Jump}
    {start finish : State Memory} :
    machine.evalCode (code.append behind) start outcome finish ↔
      (machine.evalCode code).seq (machine.evalCode behind) start outcome finish := by
  match code with
  | .last ops none =>
      rw [Code.append, evalCode_prepend]
      constructor
      · exact fun behinds => Or.inl ⟨_, evalCode_last.mpr ⟨rfl, rfl⟩, behinds⟩
      · rintro (⟨middle, falls, behinds⟩ | ⟨jumps, falls⟩)
        · obtain ⟨-, rfl⟩ := evalCode_last.mp falls
          exact behinds
        · exact absurd (evalCode_last.mp falls).1 jumps
  | .last ops (some jump) =>
      rw [Code.append]
      constructor
      · intro ends
        obtain ⟨rfl, -⟩ := evalCode_last.mp ends
        exact Or.inr ⟨nofun, ends⟩
      · rintro (⟨middle, falls, -⟩ | ⟨-, ends⟩)
        · cases (evalCode_last.mp falls).1
        · exact ends
  | .cons ops node rest =>
      rw [Code.append, evalCode_cons]
      have step : (machine.evalNode node).seq (machine.evalCode (rest.append behind))
            (machine.run start ops) outcome finish ↔
          ((machine.evalNode node).seq ((machine.evalCode rest).seq (machine.evalCode behind)))
            (machine.run start ops) outcome finish := by
        simp only [Meaning.seq, evalCode_append]
      rw [step, ← Meaning.seq_assoc]
      simp only [Meaning.seq, evalCode_cons]

end Machine

/-! ## Registers that code leaves alone -/

/-- The register keeps its value, and whatever it holds makes no difference. -/
def Meaning.Keeps (register : Nat) (meaning : Meaning Memory) : Prop :=
  ∀ ⦃start outcome finish⦄, meaning start outcome finish →
    finish.registers register = start.registers register ∧
      ∀ value, meaning (start.store register value) outcome (finish.store register value)

namespace Meaning

variable {register : Nat} {first second : Meaning Memory}

/-- Whatever the register holds, the rest of the state changes in the same way. -/
theorem Keeps.exists_store_iff (keeps : first.Keeps register) {start finish : State Memory}
    {outcome : Option Jump} (value : Bool) :
    (∃ after, first (start.store register value) outcome (finish.store register after)) ↔
      ∃ after, first start outcome (finish.store register after) := by
  constructor
  · rintro ⟨after, runs⟩
    have restored := (keeps runs).2 (start.registers register)
    rw [State.store_store, State.store_store, State.store_self] at restored
    exact ⟨_, restored⟩
  · rintro ⟨after, runs⟩
    have stored := (keeps runs).2 value
    rw [State.store_store] at stored
    exact ⟨_, stored⟩

theorem Keeps.seq (keepsFirst : first.Keeps register) (keepsSecond : second.Keeps register) :
    (first.seq second).Keeps register := by
  rintro start outcome finish (⟨middle, one, two⟩ | ⟨jumps, one⟩)
  · refine ⟨(keepsSecond two).1.trans (keepsFirst one).1, fun value => Or.inl ?_⟩
    exact ⟨_, (keepsFirst one).2 value, (keepsSecond two).2 value⟩
  · exact ⟨(keepsFirst one).1, fun value => Or.inr ⟨jumps, (keepsFirst one).2 value⟩⟩

theorem Keeps.catchContinue (keeps : first.Keeps register) :
    first.catchContinue.Keeps register := by
  rintro start outcome finish (⟨falls, continues⟩ | ⟨other, ends⟩)
  · exact ⟨(keeps continues).1, fun value => Or.inl ⟨falls, (keeps continues).2 value⟩⟩
  · exact ⟨(keeps ends).1, fun value => Or.inr ⟨other, (keeps ends).2 value⟩⟩

theorem Keeps.rounds (keeps : first.Keeps register) : (Rounds first).Keeps register := by
  intro start outcome finish rounds
  induction rounds with
  | leave ends => exact ⟨(keeps ends).1, fun value => .leave ((keeps ends).2 value)⟩
  | escape away ends => exact ⟨(keeps ends).1, fun value => .escape away ((keeps ends).2 value)⟩
  | again goesOn round _ inductionHypothesis =>
      refine ⟨inductionHypothesis.1.trans (keeps round).1, fun value => ?_⟩
      exact .again goesOn ((keeps round).2 value) (inductionHypothesis.2 value)

end Meaning

namespace Machine

variable {machine : Machine Action Test Memory} {register : Nat}

theorem run_store {ops : List (Op Action)} (avoids : ∀ op ∈ ops, op.Avoids register)
    (state : State Memory) (value : Bool) :
    machine.run (state.store register value) ops =
    (machine.run state ops).store register value := by
  induction ops generalizing state with
  | nil => rfl
  | cons op ops inductionHypothesis =>
      have later : ∀ op ∈ ops, op.Avoids register := fun other member =>
        avoids other (List.mem_cons_of_mem op member)
      rw [run_cons, run_cons, ← inductionHypothesis later]
      cases op with
      | action action => rfl
      | store other stored =>
          have differs : register ≠ other := (avoids _ List.mem_cons_self).symm
          rw [step, step, State.store_comm state differs]

theorem registers_run {ops : List (Op Action)} (avoids : ∀ op ∈ ops, op.Avoids register)
    (state : State Memory) :
    (machine.run state ops).registers register = state.registers register := by
  have same : machine.run (state.store register (state.registers register)) ops = _ :=
    run_store avoids state (state.registers register)
  rw [State.store_self] at same
  rw [same, State.registers_store]

theorem holds_store {condition : Cond Test} (avoids : condition.Avoids register)
    (state : State Memory) (value : Bool) :
    machine.holds (state.store register value) condition = machine.holds state condition := by
  cases condition with
  | test test => rfl
  | load other => exact State.registers_store_of_ne state value avoids

mutual

theorem evalNode_keeps {node : Node Action Test} (avoids : node.All (.avoiding register)) :
    (machine.evalNode node).Keeps register := by
  cases node with
  | ifNode condition thenList elseList =>
      obtain ⟨tests, thens, elses⟩ := avoids
      intro start outcome finish runs
      rw [evalNode_if] at runs
      simp only [evalNode_if, holds_store tests]
      by_cases holds : machine.holds start condition = true
      · simp only [if_pos holds] at runs ⊢
        exact evalCode_keeps thens runs
      · simp only [if_neg holds] at runs ⊢
        exact evalCode_keeps elses runs
  | loopNode body =>
      rw [evalNode]
      exact (evalCode_keeps avoids.2).rounds
  | continueNode body continueList =>
      rw [evalNode]
      exact ((evalCode_keeps avoids.2.1).catchContinue.seq (evalCode_keeps avoids.2.2)).rounds

theorem evalCode_keeps {code : Code Action Test} (avoids : code.All (.avoiding register)) :
    (machine.evalCode code).Keeps register := by
  cases code with
  | last ops jump =>
      intro start outcome finish runs
      obtain ⟨rfl, rfl⟩ := evalCode_last.mp runs
      refine ⟨registers_run avoids.1 start, fun value => ?_⟩
      exact evalCode_last.mpr ⟨rfl, (run_store avoids.1 start value).symm⟩
  | cons ops node rest =>
      obtain ⟨front, nodes, rests⟩ := avoids
      intro start outcome finish runs
      have both := (evalNode_keeps nodes).seq (evalCode_keeps rests) (evalCode_cons.mp runs)
      refine ⟨both.1.trans (registers_run front start), fun value => ?_⟩
      rw [evalCode_cons, run_store front]
      exact both.2 value

end

end Machine

/-! ## Fresh registers -/

def Op.bound : Op Action → Nat
  | .action _ => 0
  | .store register _ => register + 1

def Cond.bound : Cond Test → Nat
  | .test _ => 0
  | .load register => register + 1

/-- Only registers below the limit occur. -/
def Shape.below (limit : Nat) : Shape Action Test where
  op := (Op.bound · ≤ limit)
  cond := (Cond.bound · ≤ limit)

section Bound

variable {register limit : Nat}

theorem Op.avoids_of_bound {op : Op Action} (above : op.bound ≤ register) :
    op.Avoids register := by
  cases op with
  | action action => trivial
  | store other value => exact Nat.ne_of_lt above

theorem Cond.avoids_of_bound {condition : Cond Test} (above : condition.bound ≤ register) :
    condition.Avoids register := by
  cases condition with
  | test test => trivial
  | load other => exact Nat.ne_of_lt above

theorem Code.All.below_mono {code : Code Action Test} {higher : Nat}
    (below : code.All (.below limit)) (most : limit ≤ higher) : code.All (.below higher) :=
  below.mono ⟨fun _ bounded => Nat.le_trans bounded most,
    fun _ bounded => Nat.le_trans bounded most, fun _ => id, fun _ => id, fun _ _ => id⟩

theorem Code.avoids_of_below {code : Code Action Test} (below : code.All (.below limit))
    (above : limit ≤ register) : code.All (.avoiding register) :=
  below.mono ⟨fun _ bounded => Op.avoids_of_bound (Nat.le_trans bounded above),
    fun _ bounded => Cond.avoids_of_bound (Nat.le_trans bounded above), fun _ => id, fun _ => id,
    fun _ _ => id⟩

end Bound

end Structured
