import SpirvToDxil.Nir.LowerContinueConstructsSoundness

/-!
# Functions without jumps out of order

`spirv_to_nir` lowers the continue constructs of a function, and `dxil_spirv_nir_prep` the returns
of the result. What is left are breaks and jumps that end the shader.
-/

namespace SpirvToDxil.Nir

open Structured

variable {Action Test : Type}

/-- The body of a valid `nir_function_impl` and the number of its registers. -/
structure FunctionImpl (Action Test : Type) where
  body : Code Action Test
  registers : Nat
  below : body.All (.below registers)
  valid : body.All validContinues
  outside : body.jumps .continueLoop = false

/-- A function after `nir_lower_continue_constructs`. -/
structure PlainImpl (Action Test : Type) where
  body : Code Action Test
  registers : Nat
  below : body.All (.below registers)
  plain : body.All { ends := (· ≠ some .continueLoop), continues := fun _ _ => False }

namespace PlainImpl

variable (impl : PlainImpl Action Test)

theorem plainLoops : impl.body.All .plainLoops :=
  impl.plain.mono ⟨fun _ => id, fun _ => id, fun _ _ => trivial, fun _ => id, fun _ _ => id⟩

/-- The jumps of the function once more, returns apart. -/
theorem lowerReturns_shape :
    (lowerReturnsImpl impl.registers impl.body).1.All
      { ends := fun jump => jump ≠ some .returnFunction ∧ jump ≠ some .continueLoop,
        continues := fun _ _ => False } := by
  apply lowerReturnsImpl_shape ⟨nofun, nofun⟩ ⟨nofun, nofun⟩
  refine impl.plain.mono ⟨fun _ => id, fun _ => id, fun jump other => ?_, fun _ => id,
    fun _ _ => id⟩
  by_cases returns : jump = some .returnFunction
  · exact Or.inl returns
  · exact Or.inr ⟨returns, other⟩

def lowerReturns : PlainImpl Action Test where
  body := (lowerReturnsImpl impl.registers impl.body).1
  registers := (lowerReturnsImpl impl.registers impl.body).2.2
  below := lowerReturnsImpl_below impl.below impl.plainLoops
  plain := impl.lowerReturns_shape.mono
    ⟨fun _ => id, fun _ => id, fun _ => And.right, fun _ => id, fun _ _ => id⟩

end PlainImpl

namespace FunctionImpl

variable (impl : FunctionImpl Action Test)

def lowerContinueConstructs : PlainImpl Action Test where
  body := (lowerContinueConstructsImpl impl.registers impl.body).1
  registers := (lowerContinueConstructsImpl impl.registers impl.body).2.2
  below := (lowerContinueConstructsImpl_below impl.below impl.valid).2
  plain := (lowerContinueConstructsImpl_correct _ _ impl.below impl.valid impl.outside).1

/-- Both passes leave breaks and the jumps that end the shader, and the function ends as it ended or
returned before, with the same memory and the same values of its own registers. -/
theorem lowerReturns_lowerContinueConstructs_correct (impl : FunctionImpl Action Test) :
    impl.lowerContinueConstructs.lowerReturns.body.All
        { ends := fun jump => jump ≠ some .returnFunction ∧ jump ≠ some .continueLoop,
          continues := fun _ _ => False } ∧
      ∀ {Memory : Type} (machine : Structured.Machine Action Test Memory)
        (start finish : Structured.State Memory) (outcome : Option Jump),
        (∃ final, finish.Agrees impl.registers final ∧
          machine.evalCode impl.lowerContinueConstructs.lowerReturns.body start outcome final) ↔
        ∃ ends final, finish.Agrees impl.registers final ∧
          machine.evalCode impl.body start ends final ∧ outcome = endOfFunction ends := by
  refine ⟨impl.lowerContinueConstructs.lowerReturns_shape, ?_⟩
  intro Memory machine start finish outcome
  let middle := impl.lowerContinueConstructs
  have inScope : impl.registers ≤ middle.registers :=
    (lowerContinueConstructsImpl_below impl.below impl.valid).1
  have similar : (machine.evalCode impl.body).Similar impl.registers
      (machine.evalCode middle.body) :=
    (lowerContinueConstructsImpl_correct _ _ impl.below impl.valid impl.outside).2 machine
  have returns (final : Structured.State Memory) :=
    (lowerReturnsImpl_correct middle.registers middle.body middle.below
      middle.plainLoops).2 machine start final outcome
  constructor
  · rintro ⟨final, agrees, runs⟩
    have stored : ∃ value, machine.evalCode (lowerReturnsImpl middle.registers middle.body).1 start
        outcome (final.store middle.registers value) :=
      ⟨_, (State.store_self final middle.registers).symm ▸ runs⟩
    obtain ⟨ends, value, before, rfl⟩ := (returns final).mp stored
    obtain ⟨finish', runs', near⟩ := similar.backward (State.Agrees.refl start) before
    exact ⟨ends, finish', (agrees.store inScope value).trans near, runs', rfl⟩
  · rintro ⟨ends, final, agrees, runs, rfl⟩
    obtain ⟨finish', before, near⟩ := similar.forward (State.Agrees.refl start) runs
    have stored : ∃ ends' value, machine.evalCode middle.body start ends'
        (finish'.store middle.registers value) ∧ endOfFunction ends = endOfFunction ends' :=
      ⟨ends, _, (State.store_self finish' middle.registers).symm ▸ before, rfl⟩
    obtain ⟨value, after⟩ := (returns finish').mpr stored
    exact ⟨_, (agrees.trans near).store inScope value, after⟩

/-- Counts up, goes on with the construct from one and returns from the loop, before the last
action. -/
def returningLoop : FunctionImpl Nat Nat where
  body := .cons []
    (.continueNode
      (.cons [.action 1] (.ifNode (.test 1) (.last [] (some .continueLoop)) .empty)
        (.last [] (some .returnFunction)))
      (.last [.action 1] none))
    (.last [.action 1] none)
  registers := 0
  below := by
    have adds (op : Op Nat) (member : op ∈ [Op.action 1]) : op.bound ≤ 0 := by
      rw [List.mem_singleton.mp member]
      exact Nat.le_refl 0
    exact ⟨nofun, ⟨trivial, ⟨adds, ⟨Nat.le_refl 0, ⟨nofun, trivial⟩, ⟨nofun, trivial⟩⟩, nofun,
      trivial⟩, adds, trivial⟩, adds, trivial⟩
  valid := ⟨nofun, ⟨rfl, ⟨fun _ _ => trivial, ⟨trivial, ⟨nofun, trivial⟩, ⟨nofun, trivial⟩⟩,
    nofun, trivial⟩, fun _ _ => trivial, trivial⟩, fun _ _ => trivial, trivial⟩
  outside := rfl

theorem lowerReturns_lowerContinueConstructs_correct_returningLoop :
    ∃ final, State.Agrees 0 ⟨3, fun _ => false⟩ final ∧
      counter.evalCode returningLoop.lowerContinueConstructs.lowerReturns.body
        ⟨0, fun _ => false⟩ none final := by
  have runs : counter.evalCode returningLoop.body ⟨0, fun _ => false⟩ (some .returnFunction)
      ⟨3, fun _ => false⟩ := by
    refine Machine.evalCode_cons.mpr (Or.inr ⟨nofun, ?_⟩)
    rw [Machine.evalNode]
    refine .again (Or.inl rfl) (show Meaning.seq _ _ _ _ ⟨2, fun _ => false⟩ from ?_)
      (.escape (by decide) ?_)
    · refine Or.inl ⟨⟨1, fun _ => false⟩, Or.inl ⟨rfl, ?_⟩, Machine.evalCode_last.mpr ⟨rfl, rfl⟩⟩
      refine Machine.evalCode_cons.mpr (Or.inr ⟨nofun, Machine.evalNode_if.mpr ?_⟩)
      exact Machine.evalCode_last.mpr ⟨rfl, rfl⟩
    · refine Or.inr ⟨nofun, Or.inr ⟨nofun, Machine.evalCode_cons.mpr ?_⟩⟩
      refine Or.inl ⟨⟨3, fun _ => false⟩, ?_, Machine.evalCode_last.mpr ⟨rfl, rfl⟩⟩
      exact Machine.evalNode_if.mpr (Machine.evalCode_empty.mpr ⟨rfl, rfl⟩)
  exact ((lowerReturns_lowerContinueConstructs_correct returningLoop).2 counter _ _ none).mpr
    ⟨_, _, State.Agrees.refl _, runs, rfl⟩

end FunctionImpl

end SpirvToDxil.Nir
