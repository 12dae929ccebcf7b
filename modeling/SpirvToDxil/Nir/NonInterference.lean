import SpirvToDxil.Nir.Taint

/-!
# Two runs that differ in one input

The runs of a closed list stay in step: regions that only one of the runs goes
through are affected as a whole, and leave what is not tainted as it was.
-/

namespace SpirvToDxil.Nir

variable {Val Input Output InputKey OutputKey : Type}
  {machine : Machine Val Input Output InputKey OutputKey} {output : OutputKey}
  {taint : Taint machine output} {input : InputKey} {inputs inputs' : InputKey → Input}

/-! ## Rounds -/

theorem runRounds_outcome
    {round : State Val Output OutputKey → Option (Result Val Output OutputKey)}
    {fuel : Nat} {state : State Val Output OutputKey} {result : Result Val Output OutputKey}
    (ends : Machine.runRounds round fuel state = some result) : result.1 = .next := by
  induction fuel generalizing state with
  | zero => cases ends
  | succ fuel hypothesis =>
    rw [Machine.runRounds] at ends
    split at ends
    · cases ends
    · cases ends
      rfl
    · exact hypothesis ends

theorem agree_runRounds_self
    {round : State Val Output OutputKey → Option (Result Val Output OutputKey)}
    (frame : ∀ state result, round state = some result → Agree taint state result.2)
    {fuel : Nat} {state : State Val Output OutputKey} {result : Result Val Output OutputKey}
    (ends : Machine.runRounds round fuel state = some result) : Agree taint state result.2 := by
  induction fuel generalizing state with
  | zero => cases ends
  | succ fuel hypothesis =>
    rw [Machine.runRounds] at ends
    split at ends
    · cases ends
    · rename_i state' ran
      cases ends
      exact frame state (.jump .breakLoop, state') ran
    · rename_i ran
      exact (frame _ _ ran).trans (hypothesis ends)

theorem inStep_runRounds
    {round round' : State Val Output OutputKey → Option (Result Val Output OutputKey)}
    (step : ∀ {state state' result result'}, Agree taint state state' → state.pred = state'.pred →
      round state = some result → round' state' = some result' →
      InStep taint result result' ∧ result.2.pred = result'.2.pred)
    {fuel fuel' : Nat} {state state' : State Val Output OutputKey}
    {result result' : Result Val Output OutputKey} (agree : Agree taint state state')
    (samePred : state.pred = state'.pred)
    (ends : Machine.runRounds round fuel state = some result)
    (ends' : Machine.runRounds round' fuel' state' = some result') :
    InStep taint result result' ∧ result.2.pred = result'.2.pred := by
  induction fuel generalizing fuel' state state' with
  | zero => cases ends
  | succ fuel hypothesis =>
    cases fuel' with
    | zero => cases ends'
    | succ fuel' =>
      rw [Machine.runRounds] at ends ends'
      cases ran : round state with
      | none =>
        rw [ran] at ends
        cases ends
      | some after =>
        cases ran' : round' state' with
        | none =>
          rw [ran'] at ends'
          cases ends'
        | some after' =>
          rcases step agree samePred ran ran' with ⟨inStep, samePred'⟩
          rcases after with ⟨outcome, next⟩
          rcases after' with ⟨outcome', next'⟩
          have outcomes : outcome = outcome' := inStep.outcome
          subst outcomes
          rw [ran] at ends
          rw [ran'] at ends'
          -- Both rounds break, or both go on.
          rcases outcome with _ | (_ | _)
          · exact hypothesis inStep.agree samePred' ends ends'
          · cases ends
            cases ends'
            exact ⟨⟨rfl, inStep.agree⟩, samePred'⟩
          · exact hypothesis inStep.agree samePred' ends ends'

/-! ## Where jumps come from -/

variable [DecidableEq OutputKey]

mutual

theorem hasOwn_of_runNode_jump {fuel : Nat} {node : CfNode}
    {state state' : State Val Output OutputKey} {type : JumpType}
    (jumps : machine.runNode inputs fuel node state = some (.jump type, state')) :
    ∃ instr, node.hasOwn instr = true ∧ instr.isJump := by
  cases node with
  | ifNode condition thenList elseList =>
    rw [Machine.runNode] at jumps
    split at jumps
    · rcases hasOwn_of_runList_jump jumps with ⟨instr, own, jump⟩
      exact ⟨instr, by rw [CfNode.hasOwn, own, Bool.true_or], jump⟩
    · rcases hasOwn_of_runList_jump jumps with ⟨instr, own, jump⟩
      exact ⟨instr, by rw [CfNode.hasOwn, own, Bool.or_true], jump⟩
  | loopNode body =>
    rw [Machine.runNode] at jumps
    cases runRounds_outcome jumps

theorem hasOwn_of_runList_jump {fuel : Nat} {list : CfList}
    {state state' : State Val Output OutputKey} {type : JumpType}
    (jumps : machine.runList inputs fuel list state = some (.jump type, state')) :
    ∃ instr, list.hasOwn instr = true ∧ instr.isJump := by
  cases list with
  | last block =>
    rw [Machine.runList, Option.some.injEq] at jumps
    have outcome : (machine.runBlock inputs block state).1 = .jump type := by rw [jumps]
    rcases mem_of_runInstrs_jump outcome with ⟨instr, member, jump⟩
    exact ⟨instr, by rw [CfList.hasOwn]; exact decide_eq_true member, jump⟩
  | cons block node rest =>
    rw [Machine.runList] at jumps
    split at jumps
    · rename_i type' state'' ran
      have outcome : (machine.runBlock inputs block state).1 = .jump type' := by rw [ran]
      rcases mem_of_runInstrs_jump outcome with ⟨instr, member, jump⟩
      exact ⟨instr, by rw [CfList.hasOwn, decide_eq_true member, Bool.true_or], jump⟩
    · split at jumps
      · cases jumps
      · rename_i ranNode
        rcases hasOwn_of_runNode_jump ranNode with ⟨instr, own, jump⟩
        exact ⟨instr, by rw [CfList.hasOwn, own, Bool.true_or, Bool.or_true], jump⟩
      · rcases hasOwn_of_runList_jump jumps with ⟨instr, own, jump⟩
        exact ⟨instr, by rw [CfList.hasOwn, own, Bool.or_true, Bool.or_true], jump⟩

end

theorem runList_next {fuel : Nat} {list : CfList} {state : State Val Output OutputKey}
    {result : Result Val Output OutputKey}
    (stays : ∀ instr, list.hasOwn instr = true → ¬ instr.isJump)
    (ran : machine.runList inputs fuel list state = some result) : result.1 = .next := by
  rcases result with ⟨outcome, state'⟩
  cases outcome with
  | next => rfl
  | jump type =>
    rcases hasOwn_of_runList_jump ran with ⟨instr, own, jump⟩
    exact absurd jump (stays instr own)

/-! ## Affected regions -/

mutual

theorem agree_runNode_self {fuel : Nat} {node : CfNode} {state : State Val Output OutputKey}
    {result : Result Val Output OutputKey}
    (affected : ∀ instr ∈ node.instrs, taint.affected instr)
    (ran : machine.runNode inputs fuel node state = some result) : Agree taint state result.2 := by
  cases node with
  | ifNode condition thenList elseList =>
    rw [CfNode.instrs, List.forall_mem_append] at affected
    rw [Machine.runNode] at ran
    split at ran
    · exact agree_runList_self affected.1 ran
    · exact agree_runList_self affected.2 ran
  | loopNode body =>
    rw [CfNode.instrs] at affected
    rw [Machine.runNode] at ran
    exact agree_runRounds_self (fun _ _ round => agree_runList_self affected round) ran

theorem agree_runList_self {fuel : Nat} {list : CfList} {state : State Val Output OutputKey}
    {result : Result Val Output OutputKey}
    (affected : ∀ instr ∈ list.instrs, taint.affected instr)
    (ran : machine.runList inputs fuel list state = some result) : Agree taint state result.2 := by
  cases list with
  | last block =>
    rw [Machine.runList, Option.some.injEq] at ran
    subst ran
    exact agree_runBlock_self affected state
  | cons block node rest =>
    rw [CfList.instrs, List.forall_mem_append, List.forall_mem_append] at affected
    rcases affected with ⟨inBlock, inNode, inRest⟩
    have ownBlock : Agree taint state (machine.runBlock inputs block state).2 :=
      agree_runBlock_self inBlock state
    rw [Machine.runList] at ran
    split at ran
    · rename_i type state' ranBlock
      rw [ranBlock] at ownBlock
      cases ran
      exact ownBlock
    · rename_i state' ranBlock
      rw [ranBlock] at ownBlock
      split at ran
      · cases ran
      · rename_i ranNode
        cases ran
        exact ownBlock.trans (agree_runNode_self inNode ranNode)
      · rename_i ranNode
        exact ownBlock.trans
          ((agree_runNode_self inNode ranNode).trans (agree_runList_self inRest ran))

end

/-! ## Both runs -/

mutual

theorem inStep_runNode {fuel fuel' : Nat} {node : CfNode}
    {state state' : State Val Output OutputKey} {result result' : Result Val Output OutputKey}
    (same : ∀ key, key ≠ input → inputs key = inputs' key) (closed : NodeClosed taint input node)
    (stays : ∀ instr, node.hasOwn instr = true → instr.isJump → ¬ taint.affected instr)
    (agree : Agree taint state state') (samePred : state.pred = state'.pred)
    (ran : machine.runNode inputs fuel node state = some result)
    (ran' : machine.runNode inputs' fuel' node state' = some result') :
    InStep taint result result' ∧
      (result.2.pred = result'.2.pred ∨ Splits taint node ∧ result.1 = .next) := by
  cases node with
  | ifNode condition thenList elseList =>
    rw [NodeClosed] at closed
    rcases closed with ⟨controls, thenClosed, elseClosed⟩
    have thenStays : ∀ instr, thenList.hasOwn instr = true → instr.isJump →
        ¬ taint.affected instr := by
      intro instr own
      apply stays
      rw [CfNode.hasOwn, own, Bool.true_or]
    have elseStays : ∀ instr, elseList.hasOwn instr = true → instr.isJump →
        ¬ taint.affected instr := by
      intro instr own
      apply stays
      rw [CfNode.hasOwn, own, Bool.or_true]
    rw [Machine.runNode] at ran ran'
    by_cases tainted : taint.tainted condition
    · rcases controls tainted with ⟨thenAffected, elseAffected⟩
      have region : ∀ {inputs fuel state} {result : Result Val Output OutputKey},
          (if machine.truth (state.env condition) then machine.runList inputs fuel thenList state
            else machine.runList inputs fuel elseList state) = some result →
          result.1 = .next ∧ Agree taint state result.2 := by
        intro inputs fuel state result ran
        split at ran
        · constructor
          · apply runList_next (fun instr own jump => ?_) ran
            exact thenStays instr own jump (thenAffected instr (CfList.mem_instrs_of_hasOwn own))
          · exact agree_runList_self thenAffected ran
        · constructor
          · apply runList_next (fun instr own jump => ?_) ran
            exact elseStays instr own jump (elseAffected instr (CfList.mem_instrs_of_hasOwn own))
          · exact agree_runList_self elseAffected ran
      rcases region ran with ⟨next, self⟩
      rcases region ran' with ⟨next', self'⟩
      exact ⟨⟨next.trans next'.symm, self.symm.trans (agree.trans self')⟩, Or.inr ⟨tainted, next⟩⟩
    · rw [← agree.env condition tainted] at ran'
      split at ran
      · rename_i taken
        rw [if_pos taken] at ran'
        exact (inStep_runList same thenClosed thenStays agree  (Or.inl samePred) ran
          ran').imp_right Or.inl
      · rename_i taken
        rw [if_neg taken] at ran'
        exact (inStep_runList same elseClosed elseStays agree  (Or.inl samePred) ran
          ran').imp_right Or.inl
  | loopNode body =>
    rw [NodeClosed] at closed
    rcases closed with ⟨controls, bodyClosed⟩
    rw [Machine.runNode] at ran ran'
    by_cases jumpsOut : JumpsOut taint body
    · have bodyAffected := controls jumpsOut
      have self := agree_runRounds_self
        (fun _ _ round => agree_runList_self bodyAffected round) ran
      have self' := agree_runRounds_self
        (fun _ _ round => agree_runList_self bodyAffected round) ran'
      have next := runRounds_outcome ran
      exact ⟨⟨next.trans (runRounds_outcome ran').symm, self.symm.trans (agree.trans self')⟩,
        Or.inr ⟨jumpsOut, next⟩⟩
    · have bodyStays : ∀ instr, body.hasOwn instr = true → instr.isJump →
          ¬ taint.affected instr :=
        fun instr own jump affected => jumpsOut ⟨instr, own, jump, affected⟩
      exact (inStep_runRounds
        (fun agree samePred round round' =>
          inStep_runList same bodyClosed bodyStays agree (Or.inl samePred) round round')
        agree samePred ran ran').imp_right Or.inl

theorem inStep_runList {fuel fuel' : Nat} {list : CfList}
    {state state' : State Val Output OutputKey} {result result' : Result Val Output OutputKey}
    (same : ∀ key, key ≠ input → inputs key = inputs' key) (closed : ListClosed taint input list)
    (stays : ∀ instr, list.hasOwn instr = true → instr.isJump → ¬ taint.affected instr)
    (agree : Agree taint state state')
    (joined : state.pred = state'.pred ∨
      ∀ instr ∈ list.firstBlock.instrs, instr.isPhi → taint.affected instr)
    (ran : machine.runList inputs fuel list state = some result)
    (ran' : machine.runList inputs' fuel' list state' = some result') :
    InStep taint result result' ∧ result.2.pred = result'.2.pred := by
  cases list with
  | last block =>
    rw [ListClosed] at closed
    rw [Machine.runList, Option.some.injEq] at ran ran'
    subst ran
    subst ran'
    exact ⟨inStep_runBlock same closed agree joined, by rw [pred_runBlock, pred_runBlock]⟩
  | cons block node rest =>
    rw [ListClosed] at closed
    rcases closed with ⟨blockClosed, nodeClosed, restClosed, splits⟩
    have nodeStays : ∀ instr, node.hasOwn instr = true → instr.isJump →
        ¬ taint.affected instr := by
      intro instr own
      apply stays
      rw [CfList.hasOwn, own, Bool.true_or, Bool.or_true]
    have restStays : ∀ instr, rest.hasOwn instr = true → instr.isJump →
        ¬ taint.affected instr := by
      intro instr own
      apply stays
      rw [CfList.hasOwn, own, Bool.or_true, Bool.or_true]
    have inBlock := inStep_runBlock same blockClosed agree joined
    have blockPred : (machine.runBlock inputs block state).2.pred =
        (machine.runBlock inputs' block state').2.pred := by
      rw [pred_runBlock, pred_runBlock]
    rw [Machine.runList] at ran ran'
    generalize machine.runBlock inputs block state = after at *
    generalize machine.runBlock inputs' block state' = after' at *
    rcases after with ⟨outcome, next⟩
    rcases after' with ⟨outcome', next'⟩
    have outcomes : outcome = outcome' := inBlock.outcome
    subst outcomes
    cases outcome with
    | jump type =>
      cases ran
      cases ran'
      exact ⟨inBlock, blockPred⟩
    | next =>
      dsimp only at ran ran'
      cases ranNode : machine.runNode inputs fuel node next with
      | none =>
        rw [ranNode] at ran
        cases ran
      | some behind =>
        cases ranNode' : machine.runNode inputs' fuel' node next' with
        | none =>
          rw [ranNode'] at ran'
          cases ran'
        | some behind' =>
          rcases inStep_runNode same nodeClosed nodeStays  inBlock.agree blockPred ranNode
            ranNode' with
            ⟨inNode, nodePred⟩
          rw [ranNode] at ran
          rw [ranNode'] at ran'
          rcases behind with ⟨outcome, last⟩
          rcases behind' with ⟨outcome', last'⟩
          have outcomes : outcome = outcome' := inNode.outcome
          subst outcomes
          cases outcome with
          | jump type =>
            cases ran
            cases ran'
            rcases nodePred with nodePred | ⟨-, isNext⟩
            · exact ⟨inNode, nodePred⟩
            · cases isNext
          | next =>
            apply inStep_runList same restClosed restStays inNode.agree _ ran ran'
            exact nodePred.imp_right (fun split => splits split.1)

end

end SpirvToDxil.Nir
