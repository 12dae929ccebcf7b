import Mathlib.Data.Set.Function

/-!
# Memories of cells

Accesses load, store and change the cells with some keys, one after the other. A cell that was never
written may have no value. Renaming the keys, which must stay apart, does not change what is loaded.
-/

namespace Cells

variable {Key Key' Value : Type*}

inductive Op (Value : Type*) where
  | load
  | store (enabled : Nat → Bool) (value : Nat → Value)
  /-- An atomic, by what it makes of the value. -/
  | atomic (change : Value → Value)

structure Access (Key Value : Type*) where
  keys : List Key
  op : Op Value

def Access.map (rename : Key → Key') (access : Access Key Value) : Access Key' Value :=
  ⟨access.keys.map rename, access.op⟩

section Exec

variable [DecidableEq Key] [DecidableEq Key'] {memory : Key → Option Value}
  {memory' : Key' → Option Value}

/-- The memory after values are stored, from the one with this number on. -/
def storeFrom (memory : Key → Option Value) (enabled : Nat → Bool) (value : Nat → Value) (i : Nat) :
    List Key → Key → Option Value
  | [] => memory
  | key :: keys =>
    let memory := if enabled i then Function.update memory key (some (value i)) else memory
    storeFrom memory enabled value (i + 1) keys

def Access.exec (memory : Key → Option Value) (access : Access Key Value) :
    (Key → Option Value) × List (Option Value) :=
  match access.op with
  | .load => (memory, access.keys.map memory)
  | .store enabled value => (storeFrom memory enabled value 0 access.keys, [])
  | .atomic change =>
    (access.keys.foldl (fun memory key =>
      Function.update memory key ((memory key).map change)) memory, access.keys.map memory)

def run (memory : Key → Option Value) : List (Access Key Value) → List (List (Option Value))
  | [] => []
  | access :: program => (access.exec memory).2 :: run (access.exec memory).1 program

/-- The renamed cells have the same values. -/
def Agree (rename : Key → Key') (keys : Set Key) (memory : Key → Option Value)
    (memory' : Key' → Option Value) : Prop :=
  ∀ key ∈ keys, memory' (rename key) = memory key

variable {rename : Key → Key'} {keys : Set Key}

theorem Agree.update (agree : Agree rename keys memory memory') (apart : keys.InjOn rename)
    {key : Key} (member : key ∈ keys) (value : Option Value) :
    Agree rename keys (Function.update memory key value)
      (Function.update memory' (rename key) value) := by
  intro other otherMember
  by_cases same : other = key
  · rw [same, Function.update_self, Function.update_self]
  · have distinct : rename other ≠ rename key :=
      fun equal => same (apart otherMember member equal)
    rw [Function.update_of_ne same, Function.update_of_ne distinct]
    exact agree other otherMember

theorem Agree.storeFrom (agree : Agree rename keys memory memory') (apart : keys.InjOn rename)
    {enabled : Nat → Bool} {value : Nat → Value} {i : Nat} {stored : List Key}
    (members : ∀ key ∈ stored, key ∈ keys) :
    Agree rename keys (storeFrom memory enabled value i stored)
      (storeFrom memory' enabled value i (stored.map rename)) := by
  induction stored generalizing memory memory' i with
  | nil => exact agree
  | cons key stored inductionHypothesis =>
      apply inductionHypothesis
      · split
        · exact agree.update apart (members key List.mem_cons_self) _
        · exact agree
      · exact fun key member => members key (List.mem_cons_of_mem _ member)

theorem Agree.foldl (agree : Agree rename keys memory memory') (apart : keys.InjOn rename)
    {change : Value → Value} {changed : List Key} (members : ∀ key ∈ changed, key ∈ keys) :
    Agree rename keys
      (changed.foldl (fun memory key => Function.update memory key ((memory key).map change))
        memory)
      ((changed.map rename).foldl (fun memory key =>
        Function.update memory key ((memory key).map change)) memory') := by
  induction changed generalizing memory memory' with
  | nil => exact agree
  | cons key changed inductionHypothesis =>
      apply inductionHypothesis
      · dsimp only
        rw [agree key (members key List.mem_cons_self)]
        exact agree.update apart (members key List.mem_cons_self) _
      · exact fun key member => members key (List.mem_cons_of_mem _ member)

omit [DecidableEq Key] [DecidableEq Key'] in
theorem Agree.map (agree : Agree rename keys memory memory') {loaded : List Key}
    (members : ∀ key ∈ loaded, key ∈ keys) :
    (loaded.map rename).map memory' = loaded.map memory := by
  rw [List.map_map]
  exact List.map_congr_left fun key member => agree key (members key member)

/-- One access keeps the memories in agreement and loads the same. -/
theorem Agree.exec (agree : Agree rename keys memory memory') (apart : keys.InjOn rename)
    {access : Access Key Value} (members : ∀ key ∈ access.keys, key ∈ keys) :
    Agree rename keys (access.exec memory).1 ((access.map rename).exec memory').1 ∧
      ((access.map rename).exec memory').2 = (access.exec memory).2 := by
  obtain ⟨accessed, op⟩ := access
  cases op with
  | load => exact ⟨agree, agree.map members⟩
  | store enabled value => exact ⟨agree.storeFrom apart members, rfl⟩
  | atomic change => exact ⟨agree.foldl apart members, agree.map members⟩

theorem Agree.run_eq (agree : Agree rename keys memory memory') (apart : keys.InjOn rename)
    {program : List (Access Key Value)}
    (members : ∀ access ∈ program, ∀ key ∈ access.keys, key ∈ keys) :
    run memory' (program.map (Access.map rename)) = run memory program := by
  induction program generalizing memory memory' with
  | nil => rfl
  | cons access program inductionHypothesis =>
      obtain ⟨next, loaded⟩ := agree.exec apart (members access List.mem_cons_self)
      rw [List.map_cons, run, run, loaded]
      congr 1
      exact inductionHypothesis next
        fun access member => members access (List.mem_cons_of_mem _ member)

end Exec

end Cells
