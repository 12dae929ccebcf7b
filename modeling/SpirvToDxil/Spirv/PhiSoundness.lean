import SpirvToDxil.Spirv.Phi
import SpirvToDxil.Util.Assign

/-!
# The variables have the values of the phis
-/

namespace SpirvToDxil

namespace Spirv.Phi

open Assign Run

variable {Op Value World : Type}

namespace Block

variable (block : Block Op)

def loads : List (NirInstr Op) := block.phis.map fun phi => .load phi.result phi.w

def body : List (NirInstr Op) := block.ops.map .op

end Block

theorem handleBody_eq {instrs : List (Instr Op)} {body : List (NirInstr Op)}
    (handled : handleBody instrs = some body) :
    instrs.filterMap Instr.phi? = [] ∧ body = (instrs.filterMap Instr.op?).map .op := by
  fun_induction handleBody instrs generalizing body with
  | case1 =>
      cases handled
      exact ⟨rfl, rfl⟩
  | case2 op instrs inductionHypothesis =>
      obtain ⟨rest, restHandled, rfl⟩ := Option.map_eq_some_iff.mp handled
      obtain ⟨noPhi, rfl⟩ := inductionHypothesis restHandled
      exact ⟨noPhi, rfl⟩
  | case3 instrs inductionHypothesis => exact inductionHypothesis handled
  | case4 instrs inductionHypothesis => exact inductionHypothesis handled
  | case5 => cases handled

/-- A block whose instructions the two passes over it accept has its phis first. -/
theorem vtnHandlePhisFirstPass_eq {instrs : List (Instr Op)} {body : List (NirInstr Op)}
    (handled : handleBody (vtnHandlePhisFirstPass instrs).2 = some body) :
    (vtnHandlePhisFirstPass instrs).1 = instrs.filterMap Instr.phi? ∧
      body = (instrs.filterMap Instr.op?).map .op := by
  fun_induction vtnHandlePhisFirstPass instrs with
  | case1 instrs inductionHypothesis => exact inductionHypothesis handled
  | case2 instrs inductionHypothesis => exact inductionHypothesis handled
  | case3 phi instrs phis rest first inductionHypothesis =>
      rw [first] at inductionHypothesis
      obtain ⟨same, rfl⟩ := inductionHypothesis handled
      exact ⟨congrArg (phi :: ·) same, rfl⟩
  | case4 instrs _ _ _ =>
      obtain ⟨noPhi, rfl⟩ := handleBody_eq handled
      exact ⟨noPhi.symm, rfl⟩

/-- No phi comes after an instruction for the handler. -/
def Block.PhisFirst (block : Block Op) : Prop :=
  block.instrs.Pairwise fun instr later => instr.op?.isSome → later.phi? = none

theorem handleBody_isSome_iff (instrs : List (Instr Op)) :
    (handleBody instrs).isSome ↔ ∀ instr ∈ instrs, instr.phi? = none := by
  fun_induction handleBody instrs with
  | case1 => simp
  | case2 op instrs inductionHypothesis => simp [inductionHypothesis, Instr.phi?]
  | case3 instrs inductionHypothesis => simp [inductionHypothesis, Instr.phi?]
  | case4 instrs inductionHypothesis => simp [inductionHypothesis, Instr.phi?]
  | case5 phi instrs => simp [Instr.phi?]

theorem pairwise_of_forall_phi?_eq_none {instrs : List (Instr Op)}
    (none_ : ∀ instr ∈ instrs, instr.phi? = none) :
    instrs.Pairwise fun instr later => instr.op?.isSome → later.phi? = none :=
  List.pairwise_of_forall_mem_list fun _ _ later member _ => none_ later member

/-- The two passes over a block accept it just when its phis come first. -/
theorem handleBody_vtnHandlePhisFirstPass_isSome_iff (instrs : List (Instr Op)) :
    (handleBody (vtnHandlePhisFirstPass instrs).2).isSome ↔
      instrs.Pairwise fun instr later => instr.op?.isSome → later.phi? = none := by
  fun_induction vtnHandlePhisFirstPass instrs with
  | case1 instrs inductionHypothesis => simp [inductionHypothesis, Instr.op?]
  | case2 instrs inductionHypothesis => simp [inductionHypothesis, Instr.op?]
  | case3 phi instrs phis rest first inductionHypothesis =>
      rw [first] at inductionHypothesis
      simp [inductionHypothesis, Instr.op?]
  | case4 instrs noLabel noLine noPhi =>
      rw [handleBody_isSome_iff]
      refine ⟨pairwise_of_forall_phi?_eq_none, fun pairwise => ?_⟩
      cases instrs with
      | nil => simp
      | cons instr instrs =>
          cases instr with
          | label => exact absurd rfl (noLabel instrs)
          | line => exact absurd rfl (noLine instrs)
          | phi phi => exact absurd rfl (noPhi phi instrs)
          | op op =>
              have behind := (List.pairwise_cons.mp pairwise).1
              intro other member
              rcases List.mem_cons.mp member with rfl | member
              · rfl
              · exact behind other member rfl

theorem vtnEmitBlock_isSome_iff (emitted : Emitted Op) (block : Block Op) :
    (vtnEmitBlock emitted block).isSome ↔ block.PhisFirst := by
  rw [Block.PhisFirst, ← handleBody_vtnHandlePhisFirstPass_isSome_iff]
  simp [vtnEmitBlock, Option.isSome_bind]

theorem vtnEmitBlock_eq {emitted next : Emitted Op} {block : Block Op}
    (done : vtnEmitBlock emitted block = some next) :
    next = ⟨Function.update emitted.blocks block.label
        (some ⟨block.loads ++ block.body ++ [.nop], block.terminator⟩),
      emitted.phiTable ++ block.phis.map OpPhi.w⟩ := by
  obtain ⟨body, handled, result⟩ := Option.bind_eq_some_iff.mp done
  cases result
  obtain ⟨phis, rfl⟩ := vtnHandlePhisFirstPass_eq handled
  rw [phis]
  rfl

namespace Function

variable (f : Function Op)

theorem block?_eq_some {label : Label} {block : Block Op} (found : f.block? label = some block) :
    block ∈ f.blocks ∧ block.label = label :=
  ⟨List.mem_of_find?_eq_some found, by simpa using List.find?_some found⟩

theorem block?_isSome {label : Label} (member : label ∈ f.blocks.map Block.label) :
    ∃ block, f.block? label = some block := by
  obtain ⟨block, inside, rfl⟩ := List.mem_map.mp member
  apply Option.isSome_iff_exists.mp
  rw [block?, List.find?_isSome]
  exact ⟨block, inside, by simp⟩

/-- The blocks that are emitted, in any order: the first one, and all that those lead to. -/
structure EmissionOrder where
  labels : List Label
  start_mem : f.start ∈ labels
  closed : ∀ label ∈ labels, ∀ next ∈ f.successors label, next ∈ labels

structure Emits (order : List Label) (emitted : Emitted Op) : Prop where
  blocks : ∀ label ∈ order, ∃ block, f.block? label = some block ∧
    emitted.blocks label = some ⟨block.loads ++ block.body ++ [.nop], block.terminator⟩
  phis : ∀ label ∈ order, ∀ block, f.block? label = some block → ∀ phi ∈ block.phis,
    phi.w ∈ emitted.phiTable

variable {f}

theorem foldl_emitLabel_none (order : List Label) : order.foldl f.emitLabel none = none := by
  induction order with
  | nil => rfl
  | cons label order inductionHypothesis => exact inductionHypothesis

theorem emits_foldl {done order : List Label} {emitted last : Emitted Op}
    (emits : f.Emits done emitted) (fold : order.foldl f.emitLabel (some emitted) = some last) :
    f.Emits (done ++ order) last := by
  induction order generalizing done emitted with
  | nil =>
      cases fold
      rwa [List.append_nil]
  | cons label order inductionHypothesis =>
      rw [List.foldl_cons] at fold
      cases first : f.emitLabel (some emitted) label with
      | none =>
          rw [first, foldl_emitLabel_none] at fold
          cases fold
      | some next =>
          rw [first] at fold
          obtain ⟨block, found, blockEmitted⟩ := Option.bind_eq_some_iff.mp first
          obtain rfl := vtnEmitBlock_eq blockEmitted
          obtain ⟨_, rfl⟩ := f.block?_eq_some found
          rw [← List.singleton_append, ← List.append_assoc]
          apply inductionHypothesis _ fold
          constructor
          · intro other member
            by_cases same : other = block.label
            · subst same
              exact ⟨block, found, Function.update_self ..⟩
            · have earlier : other ∈ done := by simpa [same] using member
              obtain ⟨otherBlock, otherFound, code⟩ := emits.blocks other earlier
              exact ⟨otherBlock, otherFound, (Function.update_of_ne same ..).trans code⟩
          · intro other member otherBlock otherFound phi phiMember
            rw [List.mem_append]
            by_cases same : other = block.label
            · subst same
              obtain rfl := Option.some.inj (found.symm.trans otherFound)
              exact .inr (List.mem_map_of_mem phiMember)
            · have earlier : other ∈ done := by simpa [same] using member
              exact .inl (emits.phis other earlier otherBlock otherFound phi phiMember)

theorem foldl_emitLabel_isSome_iff (order : List Label) (emitted : Emitted Op) :
    (order.foldl f.emitLabel (some emitted)).isSome ↔
      ∀ label ∈ order, ∃ block, f.block? label = some block ∧ block.PhisFirst := by
  induction order generalizing emitted with
  | nil => simp
  | cons label order inductionHypothesis =>
      rw [List.foldl_cons, List.forall_mem_cons]
      cases found : f.block? label with
      | none => simp [emitLabel, found, foldl_emitLabel_none]
      | some block =>
          have emits := vtnEmitBlock_isSome_iff emitted block
          cases first : vtnEmitBlock emitted block with
          | none =>
              rw [first] at emits
              have notFirst : ¬ block.PhisFirst := fun phisFirst => by cases emits.mpr phisFirst
              simp [emitLabel, found, first, foldl_emitLabel_none, notFirst]
          | some next =>
              rw [first] at emits
              have phisFirst : block.PhisFirst := emits.mp rfl
              simp [emitLabel, found, first, inductionHypothesis, phisFirst]

/-- A function is emitted just when its phis come first in the blocks that are emitted. -/
theorem vtnFunctionEmit_isSome_iff (order : List Label) (visits : List (OpPhi × Operand)) :
    (f.vtnFunctionEmit order visits).isSome ↔
      ∀ label ∈ order, ∃ block, f.block? label = some block ∧ block.PhisFirst := by
  rw [← foldl_emitLabel_isSome_iff order ⟨fun _ => none, []⟩, vtnFunctionEmit]
  cases order.foldl f.emitLabel (some ⟨fun _ => none, []⟩) <;> simp

end Function

/-- The stores that the second pass puts after the nop of a block, the last one first. -/
def storesFor (phiTable : List Nat) (visits : List (OpPhi × Operand)) (label : Label) :
    List (OpPhi × Operand) :=
  (visits.filter fun visit => visit.1.w ∈ phiTable ∧ visit.2.parent = label).reverse

def storeInstr (visit : OpPhi × Operand) : NirInstr Op := .store visit.1.w visit.2.value

theorem insertAfterNop_eq {before after : List (NirInstr Op)} {instr : NirInstr Op}
    (noNop : .nop ∉ before) :
    insertAfterNop instr (before ++ .nop :: after) = before ++ .nop :: instr :: after := by
  induction before with
  | nil => rfl
  | cons other before inductionHypothesis =>
      rw [List.mem_cons, not_or] at noNop
      cases other with
      | nop => exact absurd rfl noNop.1
      | _ => exact congrArg _ (inductionHypothesis noNop.2)

theorem foldl_storeOperand {phiTable : List Nat} {visits : List (OpPhi × Operand)}
    {blocks : Label → Option (NirBlock Op)} {label : Label} {terminator : Terminator}
    {before after : List (NirInstr Op)} (noNop : .nop ∉ before)
    (block : blocks label = some ⟨before ++ .nop :: after, terminator⟩) :
    visits.foldl (storeOperand phiTable) blocks label =
      some ⟨before ++ .nop :: ((storesFor phiTable visits label).map storeInstr ++ after),
        terminator⟩ := by
  induction visits generalizing blocks after with
  | nil => exact block
  | cons visit visits inductionHypothesis =>
      rw [List.foldl_cons]
      by_cases here : visit.1.w ∈ phiTable ∧ visit.2.parent = label
      · obtain ⟨emitted, rfl⟩ := here
        have stored : storeOperand phiTable blocks visit visit.2.parent =
            some ⟨before ++ .nop :: storeInstr visit :: after, terminator⟩ := by
          rw [storeOperand, if_pos emitted, Function.update_self, block, Option.map_some,
            insertAfterNop_eq noNop]
          rfl
        rw [inductionHypothesis stored]
        simp [storesFor, emitted]
      · have kept : storeOperand phiTable blocks visit label = blocks label := by
          unfold storeOperand
          split
          next emitted => rw [Function.update_of_ne fun same => here ⟨emitted, same.symm⟩]
          next => rfl
        rw [inductionHypothesis (kept.trans block)]
        simp [storesFor, here]

section Execution

variable (semantics : Semantics Op Value World)

theorem execCode_append (code code' : List (NirInstr Op)) (state : NirState Value World) :
    execCode semantics (code ++ code') state =
      execCode semantics code' (execCode semantics code state) := List.foldl_append

theorem execCode_loads (phis : List OpPhi) (state : NirState Value World) :
    execCode semantics (phis.map fun phi => NirInstr.load phi.result phi.w) state =
      { state with
        env := assign state.env (phis.map fun phi => (phi.result, state.vars phi.w)) } := by
  induction phis generalizing state with
  | nil => rfl
  | cons phi phis inductionHypothesis => exact inductionHypothesis _

theorem execCode_body (ops : List Op) (state : NirState Value World) :
    execCode semantics (ops.map NirInstr.op) state =
      { state with
        env := (execOps semantics ops (state.env, state.world)).1
        world := (execOps semantics ops (state.env, state.world)).2 } := by
  induction ops generalizing state with
  | nil => rfl
  | cons op ops inductionHypothesis => exact inductionHypothesis _

theorem execCode_stores (visits : List (OpPhi × Operand)) (state : NirState Value World) :
    execCode semantics (visits.map storeInstr) state =
      { state with
        vars := assign state.vars
          (visits.map fun visit => (visit.1.w, state.env visit.2.value)) } := by
  induction visits generalizing state with
  | nil => rfl
  | cons visit visits inductionHypothesis => exact inductionHypothesis _

theorem next_mem_successors {terminator : Terminator} {env : Id → Value} {next : Label}
    (taken : terminator.next semantics env = some next) : next ∈ terminator.successors := by
  cases terminator with
  | branch target =>
      cases taken
      exact List.mem_singleton_self _
  | branchConditional condition ifTrue ifFalse =>
      cases taken
      split <;> simp [Terminator.successors]
  | switch selector default cases =>
      cases taken
      rw [Terminator.successors, List.mem_append, List.mem_singleton]
      cases found : cases.find? (·.1 = semantics.literal (env selector)) with
      | none => exact .inr rfl
      | some selected =>
          by_cases same : selected.2 = default
          · exact .inr same
          · left
            rw [Option.map_some, Option.getD_some, List.mem_filter]
            exact ⟨List.mem_map_of_mem (List.mem_of_find?_eq_some found), by simpa using same⟩
  | exit => cases taken

end Execution

namespace Function

variable (f : Function Op)

theorem mem_phiOperands {visit : OpPhi × Operand} :
    visit ∈ f.phiOperands ↔
      visit.1 ∈ f.blocks.flatMap Block.phis ∧ visit.2 ∈ visit.1.operands := by
  simp only [phiOperands, List.mem_flatMap (f := fun phi : OpPhi => phi.operands.map (phi, ·)),
    List.mem_map]
  constructor
  · rintro ⟨phi, member, operand, inside, rfl⟩
    exact ⟨member, inside⟩
  · rintro ⟨member, inside⟩
    exact ⟨visit.1, member, visit.2, inside, rfl⟩

theorem visit_unique {visit other : OpPhi × Operand} (member : visit ∈ f.phiOperands)
    (otherMember : other ∈ f.phiOperands) (sameWord : visit.1.w = other.1.w)
    (sameParent : visit.2.parent = other.2.parent) : visit = other := by
  rw [mem_phiOperands] at member otherMember
  have samePhi : visit.1 = other.1 :=
    List.inj_on_of_nodup_map f.words_nodup member.1 otherMember.1 sameWord
  have inside := otherMember.2
  rw [← samePhi] at inside
  exact Prod.ext samePhi
    (List.inj_on_of_nodup_map (f.parents_nodup _ member.1) member.2 inside sameParent)

end Function

/-- The same block with the same values, where the loads of the block are still to be done on
the right. -/
structure Related (semantics : Semantics Op Value World) (f : Function Op)
    (config : Config Value World) (nir : NirConfig Value World) : Prop where
  label : config.label = nir.label
  world : config.world = nir.state.world
  env : ∃ block, f.block? nir.label = some block ∧
    (execCode semantics block.loads nir.state).env = config.env

/-- The blocks run as the function does. What the loads of a block read is what the operands had
at the end of the predecessor. -/
structure TakesOutOfSsa (semantics : Semantics Op Value World) (f : Function Op)
    (blocks : Label → Option (NirBlock Op)) (start : NirState Value World) : Prop where
  simulates : ∀ count, Option.Rel (Related semantics f)
    (run (f.step semantics) ⟨f.start, start.env, start.world⟩ count)
    (run (nirStep semantics blocks) ⟨f.start, start⟩ count)
  reads : ∀ count config next,
    run (nirStep semantics blocks) ⟨f.start, start⟩ count = some config →
    nirStep semantics blocks config = some next →
    ∃ block, f.block? next.label = some block ∧
      ∀ phi ∈ block.phis, ∀ operand ∈ phi.operands, operand.parent = config.label →
        (execCode semantics block.loads next.state).env phi.result = next.state.env operand.value

section Simulation

variable {f : Function Op} {order : f.EmissionOrder} {visits : List (OpPhi × Operand)}
  {emitted : Emitted Op} (semantics : Semantics Op Value World)

/-- The code of an emitted block after the second pass. -/
theorem code_of_emits (emits : f.Emits order.labels emitted) {label : Label}
    (member : label ∈ order.labels) : ∃ block, f.block? label = some block ∧
      visits.foldl (storeOperand emitted.phiTable) emitted.blocks label =
        some ⟨block.loads ++ block.body ++
          .nop :: (storesFor emitted.phiTable visits label).map storeInstr,
          block.terminator⟩ := by
  obtain ⟨block, found, code⟩ := emits.blocks label member
  have noNop : (.nop : NirInstr Op) ∉ block.loads ++ block.body := by
    simp [Block.loads, Block.body]
  refine ⟨block, found, ?_⟩
  rw [foldl_storeOperand noNop code, List.append_nil]

/-- What a block computes, and what it leaves in the variables of the phis. -/
theorem execCode_block (block : Block Op) (stores : List (OpPhi × Operand))
    (state : NirState Value World) :
    let loaded := execCode semantics block.loads state
    let result := execOps semantics block.ops (loaded.env, loaded.world)
    execCode semantics (block.loads ++ block.body ++ .nop :: stores.map storeInstr) state =
      ⟨result.1, assign state.vars (stores.map fun visit => (visit.1.w, result.1 visit.2.value)),
        result.2⟩ := by
  rw [execCode_append, execCode_append, Block.body, execCode_body, Block.loads, execCode_loads]
  exact execCode_stores semantics stores _

/-- The variable of a phi has the operand that the phi has for the predecessor. -/
theorem stored (emits : f.Emits order.labels emitted) (perm : visits.Perm f.phiOperands)
    {label next : Label} {block : Block Op} (found : f.block? next = some block)
    (emittedNext : next ∈ order.labels) {phi : OpPhi} (member : phi ∈ block.phis)
    {operand : Operand} (inside : operand ∈ phi.operands) (parent : operand.parent = label)
    (env : Id → Value) (vars : Nat → Value) :
    assign vars ((storesFor emitted.phiTable visits label).map
      fun visit => (visit.1.w, env visit.2.value)) phi.w = env operand.value := by
  have isPhi : phi ∈ f.blocks.flatMap Block.phis :=
    List.mem_flatMap.mpr ⟨block, (f.block?_eq_some found).1, member⟩
  have own : (phi, operand) ∈ f.phiOperands := f.mem_phiOperands.mpr ⟨isPhi, inside⟩
  have inTable := emits.phis next emittedNext block found phi member
  have mem_storesFor (visit : OpPhi × Operand) :
      visit ∈ storesFor emitted.phiTable visits label ↔
        visit ∈ f.phiOperands ∧ visit.1.w ∈ emitted.phiTable ∧ visit.2.parent = label := by
    rw [storesFor, List.mem_reverse, List.mem_filter, perm.mem_iff, decide_eq_true_iff]
  apply assign_of_mem
  · exact List.mem_map.mpr ⟨(phi, operand), (mem_storesFor _).mpr ⟨own, inTable, parent⟩, rfl⟩
  · intro pair pairMember sameWord
    obtain ⟨visit, visitMember, rfl⟩ := List.mem_map.mp pairMember
    obtain ⟨isOperand, _, visitParent⟩ := (mem_storesFor visit).mp visitMember
    rw [f.visit_unique isOperand own sameWord (visitParent.trans parent.symm)]

/-- Loading the variables gives the phis their operands, all at once. -/
theorem loaded_eq (emits : f.Emits order.labels emitted) (perm : visits.Perm f.phiOperands)
    {label next : Label} {block : Block Op} (found : f.block? next = some block)
    (emittedNext : next ∈ order.labels) {phi : OpPhi} (member : phi ∈ block.phis)
    {operand : Operand} (inside : operand ∈ phi.operands) (parent : operand.parent = label)
    {state : NirState Value World} {vars : Nat → Value}
    (written : state.vars = assign vars ((storesFor emitted.phiTable visits label).map
      fun visit => (visit.1.w, state.env visit.2.value))) :
    (execCode semantics block.loads state).env phi.result = state.env operand.value := by
  rw [Block.loads, execCode_loads]
  apply assign_of_mem
  · refine List.mem_map.mpr ⟨phi, member, ?_⟩
    rw [written, stored emits perm found emittedNext member inside parent]
  · intro pair pairMember sameResult
    obtain ⟨other, otherMember, rfl⟩ := List.mem_map.mp pairMember
    obtain rfl := List.inj_on_of_nodup_map (f.results_nodup _ (f.block?_eq_some found).1)
      otherMember member sameResult
    rw [written, stored emits perm found emittedNext member inside parent]

theorem loaded_of_not_mem {block : Block Op} {id : Id} (fresh : id ∉ block.phis.map OpPhi.result)
    (state : NirState Value World) :
    (execCode semantics block.loads state).env id = state.env id := by
  rw [Block.loads, execCode_loads]
  apply assign_of_not_mem
  rwa [List.map_map]

theorem evalPhis_of_not_mem {phis : List OpPhi} {id : Id} (fresh : id ∉ phis.map OpPhi.result)
    (parent : Label) (env : Id → Value) : evalPhis phis parent env id = env id := by
  have none : phis.find? (·.result = id) = none := by
    rw [List.find?_eq_none]
    intro phi member same
    exact fresh (List.mem_map.mpr ⟨phi, member, by simpa using same⟩)
  rw [evalPhis, none]
  rfl

theorem evalPhis_of_mem {phis : List OpPhi} (nodup : (phis.map OpPhi.result).Nodup) {phi : OpPhi}
    (member : phi ∈ phis) (parents : (phi.operands.map Operand.parent).Nodup) {operand : Operand}
    (inside : operand ∈ phi.operands) (env : Id → Value) :
    evalPhis phis operand.parent env phi.result = env operand.value := by
  have found : phis.find? (·.result = phi.result) = some phi :=
    List.find?_key_eq_some nodup member
  have operandFound : phi.operands.find? (·.parent = operand.parent) = some operand :=
    List.find?_key_eq_some parents inside
  rw [evalPhis, found, Option.bind_some, OpPhi.operandFor, operandFound]
  rfl

/-- The values that the function gives the phis of a block are those that its loads read. -/
theorem loaded_eq_evalPhis (emits : f.Emits order.labels emitted)
    (perm : visits.Perm f.phiOperands) {label next : Label} {previous block : Block Op}
    (left : f.block? label = some previous) (found : f.block? next = some block)
    (follows : next ∈ previous.terminator.successors) (emittedNext : next ∈ order.labels)
    {state : NirState Value World} {vars : Nat → Value}
    (written : state.vars = assign vars ((storesFor emitted.phiTable visits label).map
      fun visit => (visit.1.w, state.env visit.2.value))) :
    (execCode semantics block.loads state).env = evalPhis block.phis label state.env := by
  obtain ⟨previousMember, rfl⟩ := f.block?_eq_some left
  obtain ⟨blockMember, rfl⟩ := f.block?_eq_some found
  funext id
  by_cases isResult : id ∈ block.phis.map OpPhi.result
  · obtain ⟨phi, member, rfl⟩ := List.mem_map.mp isResult
    have isParent := f.parents previous previousMember block blockMember follows phi member
    obtain ⟨operand, inside, parent⟩ := List.mem_map.mp isParent
    have isPhi : phi ∈ f.blocks.flatMap Block.phis :=
      List.mem_flatMap.mpr ⟨block, blockMember, member⟩
    rw [loaded_eq semantics emits perm found emittedNext member inside parent written, ← parent]
    exact (evalPhis_of_mem (f.results_nodup block blockMember) member
      (f.parents_nodup phi isPhi) inside state.env).symm
  · rw [loaded_of_not_mem semantics isResult, evalPhis_of_not_mem isResult]

/-- One step of the function and one of the blocks come to the same block with the same values. -/
theorem step_related (emits : f.Emits order.labels emitted) (perm : visits.Perm f.phiOperands)
    {config : Config Value World} {nir : NirConfig Value World}
    (related : Related semantics f config nir) (reached : nir.label ∈ order.labels) :
    Option.Rel (fun config nir => Related semantics f config nir ∧ nir.label ∈ order.labels)
      (f.step semantics config) (nirStep semantics
        (visits.foldl (storeOperand emitted.phiTable) emitted.blocks) nir) := by
  obtain ⟨block, found, code⟩ := @code_of_emits _ _ _ visits _ emits _ reached
  obtain ⟨own, ownFound, env⟩ := related.env
  obtain rfl := Option.some.inj (found.symm.trans ownFound)
  have world : (execCode semantics block.loads nir.state).world = config.world := by
    rw [Block.loads, execCode_loads, related.world]
  have executed := execCode_block semantics block (storesFor emitted.phiTable visits nir.label)
    nir.state
  simp only [env, world] at executed
  simp only [Function.step, nirStep, related.label, found, code, Option.bind_eq_bind,
    Option.bind_some, executed]
  cases taken : block.terminator.next semantics
      (execOps semantics block.ops (config.env, config.world)).1 with
  | none => exact .none
  | some next =>
      have follows := next_mem_successors semantics taken
      obtain ⟨blockMember, sameLabel⟩ := f.block?_eq_some found
      obtain ⟨target, targetFound⟩ := f.block?_isSome (f.targets block blockMember next follows)
      have emittedNext : next ∈ order.labels := by
        apply order.closed nir.label reached
        rw [Function.successors, found]
        exact follows
      simp only [Option.bind_some, targetFound]
      refine .some ⟨⟨rfl, rfl, target, targetFound, ?_⟩, emittedNext⟩
      exact loaded_eq_evalPhis semantics emits perm found targetFound follows emittedNext rfl

/-- The loads of the block that a step comes to read the operands of its predecessor. -/
theorem reads_of_step (emits : f.Emits order.labels emitted) (perm : visits.Perm f.phiOperands)
    {config next : NirConfig Value World} (reached : config.label ∈ order.labels)
    (stepped : nirStep semantics (visits.foldl (storeOperand emitted.phiTable) emitted.blocks)
      config = some next) :
    ∃ block, f.block? next.label = some block ∧
      ∀ phi ∈ block.phis, ∀ operand ∈ phi.operands, operand.parent = config.label →
        (execCode semantics block.loads next.state).env phi.result =
          next.state.env operand.value := by
  obtain ⟨block, found, code⟩ := @code_of_emits _ _ _ visits _ emits _ reached
  simp only [nirStep, code, Option.bind_eq_bind, Option.bind_some, execCode_block,
    Option.bind_eq_some_iff, Option.pure_def, Option.some_inj] at stepped
  obtain ⟨label, taken, rfl⟩ := stepped
  have follows := next_mem_successors semantics taken
  obtain ⟨target, targetFound⟩ := f.block?_isSome
    (f.targets block (f.block?_eq_some found).1 label follows)
  have emittedNext : label ∈ order.labels := by
    apply order.closed config.label reached
    rw [Function.successors, found]
    exact follows
  refine ⟨target, targetFound, ?_⟩
  intro phi member operand inside parent
  exact loaded_eq semantics emits perm targetFound emittedNext member inside parent rfl

theorem related_start (semantics : Semantics Op Value World) (f : Function Op)
    (start : NirState Value World) :
    Related semantics f ⟨f.start, start.env, start.world⟩ ⟨f.start, start⟩ := by
  obtain ⟨block, found⟩ := f.block?_isSome f.start_mem
  refine ⟨rfl, rfl, block, found, ?_⟩
  obtain ⟨member, label⟩ := f.block?_eq_some found
  rw [Block.loads, f.start_phis block member label]
  rfl

end Simulation

namespace Function

/-- Whatever the order of the blocks and of the stores, the variables take the function out of
SSA. -/
theorem takesOutOfSsa (f : Function Op) (order : f.EmissionOrder)
    (visits : List (OpPhi × Operand)) (perm : visits.Perm f.phiOperands)
    (blocks : Label → Option (NirBlock Op))
    (emission : f.vtnFunctionEmit order.labels visits = some blocks)
    (semantics : Semantics Op Value World) (start : NirState Value World) :
    TakesOutOfSsa semantics f blocks start := by
  obtain ⟨emitted, fold, result⟩ := Option.bind_eq_some_iff.mp emission
  cases result
  have emits : f.Emits order.labels emitted := by
    apply @emits_foldl _ f [] _ _ _ _ fold
    exact ⟨nofun, nofun⟩
  have related (count : Nat) : Option.Rel
      (fun config nir => Related semantics f config nir ∧ nir.label ∈ order.labels)
      (run (f.step semantics) ⟨f.start, start.env, start.world⟩ count)
      (run (nirStep semantics (visits.foldl (storeOperand emitted.phiTable) emitted.blocks))
        ⟨f.start, start⟩ count) := by
    apply run_related
    · rintro config nir ⟨related, reached⟩
      exact step_related semantics emits perm related reached
    · exact ⟨related_start semantics f start, order.start_mem⟩
  constructor
  · intro count
    exact rel_imp (fun _ _ both => both.1) (related count)
  · intro count config next reached stepped
    have both := related count
    rw [reached] at both
    obtain ⟨_, _, _, member⟩ := exists_of_rel_some both
    exact reads_of_step semantics emits perm member stepped

/-- A loop that swaps two phis in each iteration. -/
def swapLoop : Function Unit where
  blocks :=
    [⟨10, [.label, .op ()], .branch 11⟩,
      ⟨11, [.label, .phi ⟨0, 3, [⟨1, 10⟩, ⟨4, 11⟩]⟩, .line, .phi ⟨7, 4, [⟨2, 10⟩, ⟨3, 11⟩]⟩],
        .branchConditional 3 11 12⟩,
      ⟨12, [.label], .exit⟩]
  start := 10
  labels_nodup := by decide
  start_mem := by decide
  targets := by decide
  start_phis := by decide
  words_nodup := by decide
  results_nodup := by decide
  parents_nodup := by decide
  parents := by decide

theorem takesOutOfSsa_swapLoop : ∃ blocks,
    swapLoop.vtnFunctionEmit [10, 11, 12] swapLoop.phiOperands = some blocks ∧
      @TakesOutOfSsa _ _ _ ⟨fun _ state => (fun id => id, state.2), (· = 1), fun _ => 0⟩ swapLoop
        blocks ⟨fun _ => 0, fun _ => 0, ()⟩ :=
  ⟨_, rfl, takesOutOfSsa swapLoop ⟨[10, 11, 12], by decide, by decide⟩ _ (.refl _) _ rfl _ _⟩

/-- The worklist emits the blocks in such an order. -/
theorem vtnEmitCfFuncUnstructured_eq (f : Function Op) : ∃ order : f.EmissionOrder,
    f.vtnEmitCfFuncUnstructured.1 = order.labels.foldl f.emitLabel (some ⟨fun _ => none, []⟩) := by
  have inside : ∀ label ∈ (f.blocks.map Block.label).toFinset, ∀ next ∈ f.successors label,
      next ∈ (f.blocks.map Block.label).toFinset := by
    intro label member next follows
    obtain ⟨block, found⟩ := f.block?_isSome (List.mem_toFinset.mp member)
    rw [successors, found] at follows
    exact List.mem_toFinset.mpr (f.targets block (f.block?_eq_some found).1 next follows)
  obtain ⟨order, visited, reaches⟩ := Worklist.run_singleton inside f.emitLabel
    (some ⟨fun _ => none, []⟩) (List.mem_toFinset.mpr f.start_mem)
  refine ⟨⟨order, (reaches f.start).mpr .refl, ?_⟩, visited⟩
  intro label member next follows
  exact (reaches next).mpr (((reaches label).mp member).tail follows)

end Function

end Spirv.Phi

end SpirvToDxil
