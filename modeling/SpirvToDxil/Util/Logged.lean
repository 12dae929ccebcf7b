import Mathlib.Logic.Basic

/-!
# Computations that log their accesses

The log is kept when the computation stops early.
-/

structure Logged (ω ε α : Type) where
  log : List ω
  result : Except ε α

namespace Logged

variable {ω ε α β : Type}

def stop (error : ε) : Logged ω ε α := ⟨[], .error error⟩

def record (entry : ω) (value : α) : Logged ω ε α := ⟨[entry], .ok value⟩

instance : Monad (Logged ω ε) where
  pure value := ⟨[], .ok value⟩
  bind computation continuation :=
    match computation.result with
    | .error error => ⟨computation.log, .error error⟩
    | .ok value =>
      ⟨computation.log ++ (continuation value).log, (continuation value).result⟩

/-- Every entry of the log meets the predicate, up to where the computation stops. -/
def All (predicate : ω → Prop) (computation : Logged ω ε α) : Prop :=
  ∀ entry ∈ computation.log, predicate entry

variable {predicate : ω → Prop}

@[simp]
theorem all_pure (value : α) : (pure value : Logged ω ε α).All predicate :=
  fun _ member => absurd member List.not_mem_nil

@[simp]
theorem all_stop (error : ε) : (stop error : Logged ω ε α).All predicate :=
  fun _ member => absurd member List.not_mem_nil

@[simp]
theorem all_record (entry : ω) (value : α) :
    (record entry value : Logged ω ε α).All predicate ↔ predicate entry := by
  simp [All, record]

@[simp]
theorem result_pure (value : α) : (pure value : Logged ω ε α).result = .ok value := rfl

@[simp]
theorem result_stop (error : ε) : (stop error : Logged ω ε α).result = .error error := rfl

@[simp]
theorem result_record (entry : ω) (value : α) :
    (record entry value : Logged ω ε α).result = .ok value := rfl

@[simp]
theorem all_bind (computation : Logged ω ε α) (continuation : α → Logged ω ε β) :
    (computation >>= continuation).All predicate ↔
      computation.All predicate ∧
        ∀ value, computation.result = .ok value → (continuation value).All predicate := by
  cases computation with
  | mk log result =>
      cases result with
      | error error => simp [All, bind]
      | ok value => simp [All, bind, or_imp, forall_and]

theorem result_bind (computation : Logged ω ε α) (continuation : α → Logged ω ε β) :
    (computation >>= continuation).result =
      computation.result.bind fun value => (continuation value).result := by
  cases computation with
  | mk log result => cases result <;> rfl

@[simp]
theorem result_bind_eq_ok (computation : Logged ω ε α) (continuation : α → Logged ω ε β)
    (output : β) :
    (computation >>= continuation).result = .ok output ↔
      ∃ value, computation.result = .ok value ∧ (continuation value).result = .ok output := by
  rw [result_bind]
  cases computation.result <;> simp [Except.bind]

end Logged
