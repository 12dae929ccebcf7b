import Mathlib.Data.List.Infix
import SpirvToDxil.Dxil.ControlFlow

/-!
# The lowered function follows the graph

Emitting a list appends whole LLVM blocks to the function, once the last block of the list has been
closed by the branch or the return that follows. The blocks of the list are placed in them in
order; only a node behind a jump starts a block that no NIR block is placed in.
-/

namespace SpirvToDxil

open Nir (CfList CfNode Successors LoopTargets JumpType InsideLoop cfgStep
  firstBlock_inside entries_inside jump_inside)

variable {Ctx : Type}

def Emitter.code (emitter : Emitter Ctx) (ctx : Ctx) : List Nir.Instr → List PlainInstr
  | [] => []
  | instr :: instrs =>
    (emitter.emitInstr ctx instr).2 ++ emitter.code (emitter.emitInstr ctx instr).1 instrs

/-- A function that consists of closed blocks and the code of an open one. -/
structure Laid (func : FuncDef) (blocks : List LlvmBlock) (rest : List PlainInstr) : Prop where
  instrs : func.instrs = blocks.flatMap LlvmBlock.instrs ++ rest.map Subtype.val
  currBlock : func.currBlock = blocks.length

namespace Laid

variable {func : FuncDef} {blocks : List LlvmBlock} {rest : List PlainInstr}

theorem add (laid : Laid func blocks rest) (added : List PlainInstr) :
    Laid (func.add added) blocks (rest ++ added) where
  instrs := by
    change func.instrs ++ added.map Subtype.val = _
    rw [laid.instrs, List.append_assoc, List.map_append]
  currBlock := laid.currBlock

theorem close (laid : Laid func blocks rest) (terminator : Instr)
    (terminates : terminator.isTerminator = true) :
    Laid { func with instrs := func.instrs ++ [terminator], currBlock := func.currBlock + 1 }
      (blocks ++ [⟨rest, terminator, terminates⟩]) [] where
  instrs := by
    change func.instrs ++ [terminator] = _
    rw [laid.instrs, List.flatMap_append, List.flatMap_singleton, List.append_assoc]
    exact (List.append_nil _).symm
  currBlock := by
    change func.currBlock + 1 = _
    rw [laid.currBlock, List.length_append]
    rfl

theorem setIds (laid : Laid func blocks rest) (basicBlockIds : List Int) :
    Laid { func with basicBlockIds := basicBlockIds } blocks rest where
  instrs := laid.instrs
  currBlock := laid.currBlock

end Laid

namespace NtdContext

variable {emitter : Emitter Ctx} {successors : Successors}

/-! ## One block -/

theorem foldlM_emitInstr (emitter : Emitter Ctx) (successors : Successors) (block : Nir.Block)
    {instrs : List Nir.Instr} (plain : ∀ instr ∈ instrs, ¬ instr.isJump) (ctx : NtdContext Ctx)
    {blocks : List LlvmBlock} {rest : List PlainInstr} (laid : Laid ctx.func blocks rest) :
    ∃ ctx', instrs.foldlM (emitInstr emitter successors block) ctx = some ctx' ∧
      Laid ctx'.func blocks (rest ++ emitter.code ctx.ctx instrs) ∧
      ctx'.func.basicBlockIds = ctx.func.basicBlockIds := by
  induction instrs generalizing ctx rest with
  | nil => exact ⟨ctx, rfl, by rwa [Emitter.code, List.append_nil], rfl⟩
  | cons instr instrs inductionHypothesis =>
    have emitted : emitInstr emitter successors block ctx instr =
        some ⟨(emitter.emitInstr ctx.ctx instr).1,
          ctx.func.add (emitter.emitInstr ctx.ctx instr).2⟩ := by
      rw [emitInstr]
      split
      · rename_i type kind
        exact absurd ⟨type, kind⟩ (plain instr List.mem_cons_self)
      · rfl
    have step := laid.add (emitter.emitInstr ctx.ctx instr).2
    rcases inductionHypothesis (fun other member => plain other (List.mem_cons_of_mem _ member))
      ⟨(emitter.emitInstr ctx.ctx instr).1, ctx.func.add _⟩ step with
      ⟨ctx', run, laid', sameIds⟩
    refine ⟨ctx', ?_, ?_, sameIds⟩
    · rw [List.foldlM_cons, emitted]
      exact run
    · rwa [Emitter.code, ← List.append_assoc]

def plainInstrs (block : Nir.Block) : List Nir.Instr :=
  block.instrs.filter (fun instr => ¬ instr.isJump)

theorem emitBlock_spec (emitter : Emitter Ctx) {block : Nir.Block} {loop : Option LoopTargets}
    {normal : List Nat}
    (linked : block.Linked successors loop normal) {ctx : NtdContext Ctx}
    {blocks : List LlvmBlock} {rest : List PlainInstr} (laid : Laid ctx.func blocks rest)
    (inside : block.index < ctx.func.basicBlockIds.length) :
    ∃ ctx' state, emitBlock emitter successors block ctx = some ctx' ∧
      ctx'.func.basicBlockIds = ctx.func.basicBlockIds.set block.index blocks.length ∧
      ((block.jump? = none ∧
          Laid ctx'.func blocks (rest ++ emitter.code state (plainInstrs block))) ∨
        ∃ type target, block.jump? = some type ∧ successors block.index = [target] ∧
          Laid ctx'.func (blocks ++ [⟨rest ++ emitter.code state (plainInstrs block),
            .br none target NO_BLOCK, rfl⟩]) []) := by
  have started := laid.setIds (ctx.func.basicBlockIds.set block.index ctx.func.currBlock)
  rw [emitBlock, if_pos inside]
  rcases Nir.Block.jump?_cases linked.1 with ⟨falls, plain⟩ | ⟨type, front, jump, jumps, split,
    kind, plain⟩
  · rcases foldlM_emitInstr emitter successors block plain ⟨ctx.ctx, _⟩ started with
      ⟨ctx', run, laid', sameIds⟩
    refine ⟨ctx', ctx.ctx, run, ?_, Or.inl ⟨falls, ?_⟩⟩
    · rw [sameIds, ← laid.currBlock]
    · have all : plainInstrs block = block.instrs := by
        rw [plainInstrs, List.filter_eq_self]
        intro instr member
        exact decide_eq_true (plain instr member)
      rw [all]
      exact laid'
  · rcases foldlM_emitInstr emitter successors block plain ⟨ctx.ctx, _⟩ started with
      ⟨ctx', run, laid', sameIds⟩
    rcases linked.successors_of_jump jumps with ⟨target, only⟩
    refine ⟨ctx'.emitBranch target, ctx.ctx, ?_, ?_, Or.inr ⟨type, target, jumps, only, ?_⟩⟩
    · rw [split, List.foldlM_append, run]
      have last : emitInstr emitter successors block ctx' jump = some (ctx'.emitBranch target) := by
        rw [emitInstr]
        simp only [kind, only]
        rfl
      rw [Option.bind_eq_bind, Option.bind_some, List.foldlM_cons, last]
      rfl
    · change ctx'.func.basicBlockIds = _
      rw [sameIds, ← laid.currBlock]
    · have all : plainInstrs block = front := by
        rw [plainInstrs, split, List.filter_append, List.filter_eq_self.mpr]
        · rw [List.filter_singleton]
          have jumpsNow : jump.isJump := ⟨type, kind⟩
          simp [jumpsNow]
        · intro instr member
          exact decide_eq_true (plain instr member)
      rw [all]
      exact laid'.close _ rfl

/-! ## Where blocks are placed -/

section Placed

variable (emitter : Emitter Ctx) (successors : Successors) (endBlock : Nat)

/-- An LLVM block with the code of a NIR block and its successors. -/
def Realizes (block : Nir.Block) (llvm : LlvmBlock) : Prop :=
  (∃ state, emitter.code state (plainInstrs block) <:+: llvm.code) ∧
    llvm.terminator.successors = (successors block.index).filter (· < endBlock)

/-- `placed` gives blocks their ids, from `start` on; `whole` says that no id is left out. -/
structure Placed (start : Nat) (blocks : List LlvmBlock) (whole : Prop)
    (placed : List (Nir.Block × Nat)) : Prop where
  realized : ∀ place ∈ placed, ∃ llvm, blocks[place.2]? = some llvm ∧
    Realizes emitter successors endBlock place.1 llvm
  increasing : (placed.map Prod.snd).Pairwise (· < ·)
  first : (placed.map Prod.snd).head? = some start
  range : ∀ place ∈ placed, start ≤ place.2 ∧ place.2 < blocks.length
  dense : whole → placed.map Prod.snd = List.range' start placed.length ∧
    blocks.length = start + placed.length

end Placed

section Compose

variable {endBlock start : Nat} {blocks : List LlvmBlock} {whole : Prop}

theorem Placed.single (blocks : List LlvmBlock) (whole : Prop) {block : Nir.Block}
    {llvm : LlvmBlock}
    (realizes : Realizes emitter successors endBlock block llvm) :
    Placed emitter successors endBlock blocks.length (blocks ++ [llvm]) whole
      [(block, blocks.length)] where
  realized place member := by
    rw [List.mem_singleton] at member
    subst member
    exact ⟨llvm, List.getElem?_concat_length, realizes⟩
  increasing := List.pairwise_singleton _ _
  first := rfl
  range place member := by
    rw [List.mem_singleton] at member
    subst member
    rw [List.length_append, List.length_singleton]
    exact ⟨Nat.le_refl _, Nat.lt_succ_self _⟩
  dense _ := ⟨rfl, by rw [List.length_append]; rfl⟩

theorem Placed.append {start' : Nat} (added : List LlvmBlock) {whole' : Prop}
    {front back : List (Nir.Block × Nat)}
    (first : Placed emitter successors endBlock start blocks whole front)
    (second : Placed emitter successors endBlock start' (blocks ++ added) whole' back)
    (behind : blocks.length ≤ start') (adjacent : whole ∧ whole' → blocks.length = start')
    (startLe : start ≤ start') :
    Placed emitter successors endBlock start (blocks ++ added) (whole ∧ whole')
      (front ++ back) where
  realized place member := by
    rw [List.mem_append] at member
    rcases member with inFront | inBack
    · rcases first.realized place inFront with ⟨llvm, found, realizes⟩
      refine ⟨llvm, ?_, realizes⟩
      rw [List.getElem?_append_left (first.range place inFront).2]
      exact found
    · exact second.realized place inBack
  increasing := by
    rw [List.map_append, List.pairwise_append]
    refine ⟨first.increasing, second.increasing, ?_⟩
    intro earlier inFront later inBack
    rw [List.mem_map] at inFront inBack
    rcases inFront with ⟨place, member, rfl⟩
    rcases inBack with ⟨other, otherMember, rfl⟩
    calc
      place.2 < blocks.length := (first.range place member).2
      _ ≤ start' := behind
      _ ≤ other.2 := (second.range other otherMember).1
  first := by rw [List.map_append, List.head?_append, first.first, Option.some_or]
  range place member := by
    rw [List.mem_append] at member
    rcases member with inFront | inBack
    · have bounds := first.range place inFront
      rw [List.length_append]
      omega
    · have bounds := second.range place inBack
      omega
  dense both := by
    have firstDense := first.dense both.1
    have secondDense := second.dense both.2
    have meets := adjacent both
    have startIs : start' = start + front.length := by omega
    rw [List.map_append, firstDense.1, secondDense.1, startIs, List.range'_append_1,
      List.length_append]
    refine ⟨rfl, ?_⟩
    omega

end Compose

def storeIds (basicBlockIds : List Int) (placed : List (Nir.Block × Nat)) : List Int :=
  placed.foldl (fun ids place => ids.set place.1.index place.2) basicBlockIds

theorem storeIds_append (basicBlockIds : List Int) (front back : List (Nir.Block × Nat)) :
    storeIds basicBlockIds (front ++ back) = storeIds (storeIds basicBlockIds front) back :=
  List.foldl_append

theorem length_storeIds (basicBlockIds : List Int) (placed : List (Nir.Block × Nat)) :
    (storeIds basicBlockIds placed).length = basicBlockIds.length := by
  induction placed generalizing basicBlockIds with
  | nil => rfl
  | cons place placed inductionHypothesis =>
    rw [storeIds, List.foldl_cons]
    exact (inductionHypothesis _).trans List.length_set

/-! ## Lists and nodes -/

/-- Closes the last block of a list, unless it jumps. -/
def closeWith (list : CfList) (terminator : Instr) (func : FuncDef) : FuncDef :=
  if list.lastBlock.jump?.isSome then func
  else { func with instrs := func.instrs ++ [terminator], currBlock := func.currBlock + 1 }

@[simp] theorem basicBlockIds_closeWith (list : CfList) (terminator : Instr) (func : FuncDef) :
    (closeWith list terminator func).basicBlockIds = func.basicBlockIds := by
  rw [closeWith]
  split <;> rfl

theorem func_emitImplicitBranch (list : CfList) (successor : Nat) (ctx : NtdContext Ctx) :
    (ctx.emitImplicitBranch list successor).func =
      closeWith list (.br none successor NO_BLOCK) ctx.func := by
  rw [emitImplicitBranch, closeWith]
  split <;> rfl

section Emit

variable (emitter : Emitter Ctx) (successors : Successors) (endBlock : Nat)

structure EmitsList (list : CfList) (terminator : Instr) (blocks : List LlvmBlock)
    (ctx ctx' : NtdContext Ctx) : Prop where
  exists_added : ∃ added placed,
    Laid (closeWith list terminator ctx'.func) (blocks ++ added) [] ∧
      placed.map Prod.fst = list.blocks ∧
      ctx'.func.basicBlockIds = storeIds ctx.func.basicBlockIds placed ∧
      Placed emitter successors endBlock blocks.length (blocks ++ added) list.NoDeadNodes placed

/-- What emitting a node does: its first terminator closes the open block. -/
structure EmitsNode (node : CfNode) (blocks : List LlvmBlock) (rest : List PlainInstr)
    (ctx ctx' : NtdContext Ctx) : Prop where
  exists_added : ∃ entry added placed,
    rest <:+: entry.code ∧ entry.terminator.successors = node.entries ∧
      Laid ctx'.func (blocks ++ entry :: added) [] ∧
      placed.map Prod.fst = node.blocks ∧
      ctx'.func.basicBlockIds = storeIds ctx.func.basicBlockIds placed ∧
      Placed emitter successors endBlock (blocks.length + 1) (blocks ++ entry :: added)
        node.NoDeadNodes placed

end Emit

/-- The successor that closes a list; behind a jump any value would do. -/
theorem lastBlock_successor (list : CfList) {loop : Option LoopTargets} {exit : Nat}
    (linked : list.Linked successors loop exit) :
    ∃ successor, (successors list.lastBlock.index).head? = some successor ∧
      ∀ ctx : NtdContext Ctx, (ctx.emitImplicitBranch list successor).func =
        closeWith list (.br none exit NO_BLOCK) ctx.func := by
  cases list with
  | last block =>
    rw [CfList.Linked] at linked
    cases jumps : block.jump? with
    | none =>
      refine ⟨exit, ?_, func_emitImplicitBranch _ exit⟩
      rw [CfList.lastBlock, linked.successors_of_none jumps]
      rfl
    | some type =>
      rcases linked.successors_of_jump jumps with ⟨target, only⟩
      refine ⟨target, ?_, ?_⟩
      · rw [CfList.lastBlock, only]
        rfl
      · intro ctx
        have jumpsLast : (CfList.last block).lastBlock.jump?.isSome := by
          rw [CfList.lastBlock, jumps]
          rfl
        rw [emitImplicitBranch, closeWith, if_pos jumpsLast, if_pos jumpsLast]
  | cons block node rest =>
    rcases linked with ⟨-, -, linkedRest⟩
    exact lastBlock_successor rest linkedRest

theorem emitNode_ifNode (condition : Nir.Def) (thenList elseList : CfList) (ctx : NtdContext Ctx) :
    emitNode emitter successors (.ifNode condition thenList elseList) ctx =
      (successors thenList.lastBlock.index).head?.bind fun thenSucc =>
        (successors elseList.lastBlock.index).head?.bind fun elseSucc =>
          (emitCfList emitter successors thenList
            { ctx := (emitter.getSrc ctx.ctx condition).1
              func := (ctx.func.add (emitter.getSrc ctx.ctx condition).2.1).dxilEmitBranch
                (some (emitter.getSrc ctx.ctx condition).2.2) thenList.firstBlock.index
                elseList.firstBlock.index }).bind fun ctx =>
            (emitCfList emitter successors elseList
              (ctx.emitImplicitBranch thenList thenSucc)).bind fun ctx =>
                some (ctx.emitImplicitBranch elseList elseSucc) := by
  rw [emitNode]
  rfl

/-- A block that falls through is realized by the LLVM block that its code was left open in. -/
theorem realizes_of_falls {block : Nir.Block} {endBlock : Nat} {state : Ctx} {llvm : LlvmBlock}
    {rest : List PlainInstr}
    (code : rest ++ emitter.code state (plainInstrs block) <:+: llvm.code)
    (follows : llvm.terminator.successors = (successors block.index).filter (· < endBlock)) :
    Realizes emitter successors endBlock block llvm :=
  ⟨⟨state, (List.suffix_append _ _).isInfix.trans code⟩, follows⟩

theorem filter_of_lt {endBlock : Nat} {blocks : List Nat}
    (inside : ∀ block ∈ blocks, block < endBlock) :
    blocks.filter (· < endBlock) = blocks :=
  List.filter_eq_self.mpr (fun block member => decide_eq_true (inside block member))

theorem realizes_of_jumps (emitter : Emitter Ctx) (state : Ctx) (rest : List PlainInstr)
    {block : Nir.Block} {endBlock : Nat} {loop : Option LoopTargets} {normal : List Nat}
    (linked : block.Linked successors loop normal) (loopInside : InsideLoop endBlock loop)
    {type : JumpType} (jumps : block.jump? = some type) {target : Nat}
    (only : successors block.index = [target]) :
    Realizes emitter successors endBlock block
      ⟨rest ++ emitter.code state (plainInstrs block), .br none target NO_BLOCK, rfl⟩ := by
  apply realizes_of_falls List.infix_rfl
  rcases jump_inside linked loopInside jumps with ⟨other, same, inside⟩
  rw [same, filter_of_lt (by simpa using inside), ← same, only]
  rfl

mutual

theorem emitNode_spec {endBlock : Nat} (node : CfNode) {loop : Option LoopTargets} {after : Nat}
    (linked : node.Linked successors loop after) (loopInside : InsideLoop endBlock loop)
    (afterInside : after < endBlock) (inside : ∀ block ∈ node.blocks, block.index < endBlock)
    {ctx : NtdContext Ctx} {blocks : List LlvmBlock} {rest : List PlainInstr}
    (laid : Laid ctx.func blocks rest) (counted : ctx.func.basicBlockIds.length = endBlock) :
    ∃ ctx', emitNode emitter successors node ctx = some ctx' ∧
      EmitsNode emitter successors endBlock node blocks rest ctx ctx' := by
  cases node with
  | ifNode condition thenList elseList =>
    rw [CfNode.Linked] at linked
    rw [CfNode.blocks] at inside
    rcases @lastBlock_successor Ctx _ thenList _ _ linked.1 with ⟨thenSucc, thenHead, closeThen⟩
    rcases @lastBlock_successor Ctx _ elseList _ _ linked.2 with ⟨elseSucc, elseHead, closeElse⟩
    have laid' := (laid.add (emitter.getSrc ctx.ctx condition).2.1).close
      (.br (some (emitter.getSrc ctx.ctx condition).2.2) thenList.firstBlock.index
        elseList.firstBlock.index) rfl
    have leaves : (Instr.br none after NO_BLOCK).successors = [after].filter (· < endBlock) :=
      (filter_of_lt (by simpa [Instr.successors] using afterInside)).symm
    rcases emitCfList_spec thenList linked.1 _ rfl leaves loopInside
      (fun block member => inside block (List.mem_append_left _ member))
      ⟨(emitter.getSrc ctx.ctx condition).1, _⟩ laid' counted with
      ⟨ctxThen, runThen, thenAdded, thenPlaced, thenLaid, thenBlocks, thenIds, thenPlaces⟩
    rw [← closeThen] at thenLaid
    have sameIds : (ctxThen.emitImplicitBranch thenList thenSucc).func.basicBlockIds =
        storeIds ctx.func.basicBlockIds thenPlaced := by
      rw [closeThen, basicBlockIds_closeWith, thenIds]
      rfl
    rcases emitCfList_spec elseList linked.2 _ rfl leaves loopInside
      (fun block member => inside block (List.mem_append_right _ member))
      _ thenLaid (by rw [sameIds, length_storeIds, counted]) with
      ⟨ctxElse, runElse, elseAdded, elsePlaced, elseLaid, elseBlocks, elseIds, elsePlaces⟩
    rw [← closeElse] at elseLaid
    refine ⟨ctxElse.emitImplicitBranch elseList elseSucc, ?_, ?_⟩
    · rw [emitNode_ifNode, thenHead, elseHead, Option.bind_some, Option.bind_some]
      exact (congrArg (Option.bind · _) runThen).trans (congrArg (Option.bind · _) runElse)
    · refine ⟨⟨rest ++ (emitter.getSrc ctx.ctx condition).2.1,
          .br (some (emitter.getSrc ctx.ctx condition).2.2) _ _, rfl⟩, thenAdded ++ elseAdded,
        thenPlaced ++ elsePlaced, (List.prefix_append _ _).isInfix, rfl, ?_, ?_, ?_, ?_⟩
      · simpa only [List.append_assoc, List.cons_append, List.nil_append] using elseLaid
      · rw [List.map_append, thenBlocks, elseBlocks, CfNode.blocks]
      · rw [closeElse, basicBlockIds_closeWith, elseIds, sameIds, storeIds_append]
      · have both := thenPlaces.append _ elsePlaces (Nat.le_refl _) (fun _ => rfl)
          (by simp only [List.length_append]; omega)
        simpa only [List.append_assoc, List.cons_append, List.nil_append, List.length_append,
          List.length_singleton, CfNode.NoDeadNodes] using both
  | loopNode body =>
    rw [CfNode.Linked] at linked
    rw [CfNode.blocks] at inside
    have laid' := laid.close (.br none body.firstBlock.index NO_BLOCK) rfl
    have firstInside := firstBlock_inside inside
    have bodyInside : InsideLoop endBlock (some ⟨body.firstBlock.index, after⟩) := by
      rintro targets ⟨rfl⟩
      exact ⟨firstInside, afterInside⟩
    rcases emitCfList_spec body linked (.br none body.firstBlock.index NO_BLOCK) rfl
      (filter_of_lt (by simpa [Instr.successors] using firstInside)).symm bodyInside inside
      (ctx.emitBranch body.firstBlock.index) laid' counted with
      ⟨ctxBody, runBody, added, placed, laidBody, sameBlocks, sameIds, places⟩
    rw [← func_emitImplicitBranch] at laidBody
    refine ⟨ctxBody.emitImplicitBranch body body.firstBlock.index, ?_, ?_⟩
    · rw [emitNode, runBody]
      rfl
    · refine ⟨⟨rest, .br none _ NO_BLOCK, rfl⟩, added, placed, List.infix_rfl, rfl, ?_, ?_, ?_, ?_⟩
      · simpa only [List.append_assoc, List.singleton_append] using laidBody
      · rw [sameBlocks, CfNode.blocks]
      · rw [func_emitImplicitBranch, basicBlockIds_closeWith, sameIds]
        rfl
      · simpa only [List.append_assoc, List.singleton_append, List.length_append,
          List.length_singleton, CfNode.NoDeadNodes] using places

theorem emitCfList_spec {endBlock : Nat} (list : CfList) {loop : Option LoopTargets} {exit : Nat}
    (linked : list.Linked successors loop exit) (terminator : Instr)
    (terminates : terminator.isTerminator = true)
    (leaves : terminator.successors = [exit].filter (· < endBlock))
    (loopInside : InsideLoop endBlock loop) (inside : ∀ block ∈ list.blocks, block.index < endBlock)
    (ctx : NtdContext Ctx) {blocks : List LlvmBlock} {rest : List PlainInstr}
    (laid : Laid ctx.func blocks rest) (counted : ctx.func.basicBlockIds.length = endBlock) :
    ∃ ctx', emitCfList emitter successors list ctx = some ctx' ∧
      EmitsList emitter successors endBlock list terminator blocks ctx ctx' := by
  cases list with
  | last block =>
    rw [CfList.Linked] at linked
    rcases emitBlock_spec emitter linked laid
      (counted ▸ inside block List.mem_cons_self) with
        ⟨ctx', state, run, sameIds, ⟨falls, laid'⟩ | ⟨type, target, jumps, only, laid'⟩⟩
    · refine ⟨ctx', by rw [emitCfList, run],
        [⟨rest ++ emitter.code state (plainInstrs block), terminator, terminates⟩],
        [(block, blocks.length)], ?_, rfl, sameIds, ?_⟩
      · rw [closeWith, CfList.lastBlock, falls]
        exact laid'.close terminator terminates
      · apply Placed.single
        apply realizes_of_falls List.infix_rfl
        rw [linked.successors_of_none falls]
        exact leaves
    · refine ⟨ctx', by rw [emitCfList, run],
        [⟨rest ++ emitter.code state (plainInstrs block), .br none target NO_BLOCK, rfl⟩],
        [(block, blocks.length)], ?_, rfl, sameIds, ?_⟩
      · rw [closeWith, CfList.lastBlock, jumps]
        exact laid'
      · apply Placed.single
        exact realizes_of_jumps emitter state rest linked loopInside jumps only
  | cons block node rest' =>
    rcases linked with ⟨linkedBlock, linkedNode, linkedRest⟩
    have insideNode : ∀ other ∈ node.blocks, other.index < endBlock :=
      fun other member => inside other (List.mem_cons_of_mem _ (List.mem_append_left _ member))
    have insideRest : ∀ other ∈ rest'.blocks, other.index < endBlock :=
      fun other member => inside other (List.mem_cons_of_mem _ (List.mem_append_right _ member))
    rcases emitBlock_spec emitter linkedBlock laid
      (counted ▸ inside block List.mem_cons_self) with
        ⟨ctx', state, run, sameIds, ⟨falls, laid'⟩ | ⟨type, target, jumps, only, laid'⟩⟩
    all_goals
      have counted' : ctx'.func.basicBlockIds.length = endBlock := by
        rw [sameIds, List.length_set, counted]
      rcases emitNode_spec node linkedNode loopInside (firstBlock_inside insideRest) insideNode
        laid' counted' with
        ⟨ctxNode, runNode, entry, nodeAdded, nodePlaced, code, follows, nodeLaid, nodeBlocks,
          nodeIds, nodePlaces⟩
      rcases emitCfList_spec rest' linkedRest terminator terminates leaves loopInside insideRest
        _ nodeLaid (by rw [nodeIds, length_storeIds, counted']) with
        ⟨ctxRest, runRest, restAdded, restPlaced, restLaid, restBlocks, restIds, restPlaces⟩
      have later := nodePlaces.append _ restPlaces (Nat.le_refl _) (fun _ => rfl)
        (by simp only [List.length_append, List.length_cons]; omega)
      have blocksEq : (block :: (nodePlaced ++ restPlaced).map Prod.fst) =
          (CfList.cons block node rest').blocks := by
        rw [List.map_append, nodeBlocks, restBlocks, CfList.blocks]
      have idsEq : ctxRest.func.basicBlockIds =
          storeIds ctx.func.basicBlockIds
              ((block, blocks.length) :: (nodePlaced ++ restPlaced)) := by
        rw [restIds, nodeIds, sameIds, ← storeIds_append]
        rfl
      refine ⟨ctxRest, by rw [emitCfList, run]; simp [runNode, runRest], ?_⟩
    · refine ⟨entry :: (nodeAdded ++ restAdded),
        (block, blocks.length) :: (nodePlaced ++ restPlaced),
        ?_, blocksEq, idsEq, ?_⟩
      · rw [List.append_assoc, List.cons_append] at restLaid
        exact restLaid
      · have own : Realizes emitter successors endBlock block entry :=
          realizes_of_falls code (by
            rw [linkedBlock.successors_of_none falls, filter_of_lt (entries_inside insideNode),
              follows])
        have first := Placed.single blocks (block.jump? = none) own
        have all := first.append (nodeAdded ++ restAdded)
          (by simpa only [List.append_assoc, List.cons_append, List.nil_append] using later)
          (by rw [List.length_append, List.length_singleton])
          (fun _ => by rw [List.length_append, List.length_singleton]) (Nat.le_succ _)
        simpa only [List.append_assoc, List.singleton_append, CfList.NoDeadNodes] using all
    · refine ⟨⟨rest ++ emitter.code state (plainInstrs block), .br none target NO_BLOCK, rfl⟩ ::
          entry :: (nodeAdded ++ restAdded),
        (block, blocks.length) :: (nodePlaced ++ restPlaced), ?_, blocksEq, idsEq, ?_⟩
      · simp only [List.append_assoc, List.cons_append, List.nil_append] at restLaid
        exact restLaid
      · have own := realizes_of_jumps emitter state rest linkedBlock loopInside jumps only
        have first := Placed.single blocks (block.jump? = none) own
        have all := first.append (entry :: (nodeAdded ++ restAdded))
          (by simpa only [List.append_assoc, List.cons_append, List.nil_append] using later)
          (by simp only [List.length_append, List.length_singleton]; omega)
          (fun both => by rw [jumps] at both; cases both.1)
          (by simp only [List.length_append, List.length_singleton]; omega)
        simpa only [List.append_assoc, List.singleton_append, CfList.NoDeadNodes] using all

end

/-! ## Functions -/

theorem storeIds_range' {basicBlockIds : List Int} {placed : List (Nir.Block × Nat)} {start : Nat}
    (indexed : placed.map (fun place => place.1.index) = List.range' start placed.length)
    (length : basicBlockIds.length = start + placed.length) :
    storeIds basicBlockIds placed =
      basicBlockIds.take start ++ placed.map (fun place => (place.2 : Int)) := by
  induction placed generalizing basicBlockIds start with
  | nil =>
    rw [List.map_nil, List.append_nil, List.take_of_length_le]
    · rfl
    · exact length.le
  | cons place placed inductionHypothesis =>
    rw [List.map_cons, List.length_cons, List.range'_succ, List.cons.injEq] at indexed
    rw [List.length_cons] at length
    have step := @inductionHypothesis (basicBlockIds.set place.1.index place.2) _
      indexed.2 (by rw [List.length_set]; omega)
    have stored : (basicBlockIds.set start (place.2 : Int)).take (start + 1) =
        basicBlockIds.take start ++ [(place.2 : Int)] := by
      rw [List.take_add_one, List.take_set_of_le (Nat.le_refl _),
        List.getElem?_set_self (by omega)]
      rfl
    rw [storeIds, List.foldl_cons, List.map_cons]
    refine step.trans ?_
    rw [indexed.1, stored, List.append_assoc]
    rfl

/-- A function whose LLVM blocks `blocks` realize the blocks of a body, with these ids. -/
structure FollowsGraph (emitter : Emitter Ctx) (successors : Successors) (body : CfList)
    (func : FuncDef) (blocks : List LlvmBlock) (ids : List Nat) : Prop where
  instrs : func.instrs = blocks.flatMap LlvmBlock.instrs
  declared : func.currBlock = blocks.length
  blockIds : func.basicBlockIds = ids.map Int.ofNat
  total : ids.length = body.blocks.length
  first : ids.head? = some 0
  increasing : ids.Pairwise (· < ·)
  dense : body.NoDeadNodes →
    ids = List.range body.blocks.length ∧ blocks.length = body.blocks.length
  realized : ∀ block ∈ body.blocks, ∃ id llvm, ids[block.index]? = some id ∧
    blocks[id]? = some llvm ∧
    (∃ state, emitter.code state (plainInstrs block) <:+: llvm.code) ∧
    llvm.terminator.targets func.basicBlockIds =
      some (((successors block.index).filter (· < body.blocks.length)).map
        (fun successor => (ids.getD successor 0 : Int)))
  sameWalk : ∀ outcomes, walk (llvmStep func.basicBlockIds blocks) 0 outcomes =
    (walk (cfgStep successors body.blocks.length) 0 outcomes).map (fun block => ids.getD block 0)

theorem targets_of_successors {terminator : Instr} (terminates : terminator.isTerminator = true)
    {blockIds : List Int} {idOf : Nat → Int}
    (stored : ∀ successor ∈ terminator.successors, blockIds[successor]? = some (idOf successor)) :
    terminator.targets blockIds = some (terminator.successors.map idOf) := by
  cases terminator with
  | br cond trueBlock falseBlock =>
    cases cond with
    | none =>
      rw [Instr.targets, stored trueBlock List.mem_cons_self]
      rfl
    | some cond =>
      rw [Instr.targets, stored trueBlock List.mem_cons_self,
        stored falseBlock (List.mem_cons_of_mem _ List.mem_cons_self)]
      rfl
  | ret value => rfl
  | _ => cases terminates

section Walk

variable {successors : Successors} {endBlock block : Nat}

/-- A step of the written function is a step of the graph. -/
theorem llvmStep_eq_cfgStep {blockIds : List Int} {blocks : List LlvmBlock} {ids : List Nat}
    {llvm : LlvmBlock} (found : blocks[ids.getD block 0]? = some llvm)
    (targets : llvm.terminator.targets blockIds =
      some (((successors block).filter (· < endBlock)).map
        (fun successor => (ids.getD successor 0 : Int))))
    (inside : (∀ successor ∈ successors block, successor < endBlock) ∨
      successors block = [endBlock]) (outcome : Bool) :
    llvmStep blockIds blocks (ids.getD block 0) outcome =
      (cfgStep successors endBlock block outcome).map (fun block => ids.getD block 0) := by
  rw [llvmStep, cfgStep, found]
  simp only [Option.bind_eq_bind, Option.bind_some]
  rw [targets]
  rcases inside with all | only
  · rw [filter_of_lt all]
    generalize successors block = next at all
    rcases next with _ | ⟨first, _ | ⟨second, _ | ⟨third, rest⟩⟩⟩
    · rfl
    · have bound := all first List.mem_cons_self
      simp [bound]
    · have bound := all first List.mem_cons_self
      have bound' := all second (List.mem_cons_of_mem _ List.mem_cons_self)
      cases outcome <;> simp [bound, bound']
    · rfl
  · rw [only]
    simp

theorem cfgStep_inside {outcome : Bool} {next : Nat}
    (moved : cfgStep successors endBlock block outcome = some next) : next < endBlock := by
  rw [cfgStep, Option.filter_eq_some_iff] at moved
  exact of_decide_eq_true moved.2

end Walk

theorem lastBlock_falls {successors : Successors} {list : CfList} {exit : Nat}
    (linked : list.Linked successors none exit) : list.lastBlock.jump? = none := by
  cases list with
  | last block =>
    rw [CfList.Linked] at linked
    have same := linked.2
    rw [CfList.lastBlock]
    cases jumps : block.jump? with
    | none => rfl
    | some type =>
      rw [jumps] at same
      cases type <;> exact same.elim
  | cons block node rest =>
    have falls : rest.lastBlock.jump? = none := lastBlock_falls linked.2.2
    exact falls

theorem index_lt_of_indexed {body : CfList} (indexed : body.Indexed) :
    ∀ block ∈ body.blocks, block.index < body.blocks.length := by
  intro block member
  have listed := List.mem_map_of_mem (f := fun block : Nir.Block => block.index) member
  rw [indexed] at listed
  exact List.mem_range.mp listed

section Follows

variable {emitter : Emitter Ctx} {successors : Successors} {body : CfList} {blocks : List LlvmBlock}

/-- The terminator of a placed block goes to the ids of the successors. -/
theorem Placed.follows {whole : Prop} {placed : List (Nir.Block × Nat)}
    (places : Placed emitter successors body.blocks.length 0 blocks whole placed)
    (sameBlocks : placed.map Prod.fst = body.blocks) (indexed : body.Indexed) :
    ∀ block ∈ body.blocks, ∃ id llvm, (placed.map Prod.snd)[block.index]? = some id ∧
      blocks[id]? = some llvm ∧
      (∃ state, emitter.code state (plainInstrs block) <:+: llvm.code) ∧
      llvm.terminator.targets ((placed.map Prod.snd).map Int.ofNat) =
        some (((successors block.index).filter (· < body.blocks.length)).map
          (fun successor => ((placed.map Prod.snd).getD successor 0 : Int))) := by
  have count : placed.length = body.blocks.length := by rw [← sameBlocks, List.length_map]
  have positions : placed.map (fun place => place.1.index) = List.range placed.length := by
    rw [count, ← indexed, ← sameBlocks, List.map_map]
    rfl
  intro block member
  rw [← sameBlocks, List.mem_map] at member
  rcases member with ⟨place, member, rfl⟩
  rcases places.realized place member with ⟨llvm, found, code, follows⟩
  refine ⟨place.2, llvm, ?_, found, code, ?_⟩
  · rcases List.getElem_of_mem member with ⟨position, bound, rfl⟩
    have indexAt := congrArg (fun indices : List Nat => indices[position]?) positions
    rw [List.getElem?_map, List.getElem?_eq_getElem bound, List.getElem?_range bound] at indexAt
    have same : placed[position].1.index = position := by
      simpa using indexAt
    rw [same, List.getElem?_map, List.getElem?_eq_getElem bound, Option.map_some]
  · rw [← follows]
    apply targets_of_successors llvm.terminates
    intro successor listed
    rw [follows, List.mem_filter, decide_eq_true_eq] at listed
    have bound : successor < (placed.map Prod.snd).length := by
      rw [List.length_map, count]
      exact listed.2
    rw [List.getElem?_map, List.getElem?_eq_getElem bound, Option.map_some,
      List.getD_eq_getElem _ _ bound]
    rfl

/-- Where every terminator goes to the ids of the successors, the walks are the same. -/
theorem walk_llvmStep_eq {ids : List Nat} {blockIds : List Int} (indexed : body.Indexed)
    (linked : body.Linked successors none body.blocks.length) (first : ids.head? = some 0)
    (follows : ∀ block ∈ body.blocks, ∃ id llvm, ids[block.index]? = some id ∧
      blocks[id]? = some llvm ∧
      (∃ state, emitter.code state (plainInstrs block) <:+: llvm.code) ∧
      llvm.terminator.targets blockIds =
        some (((successors block.index).filter (· < body.blocks.length)).map
          (fun successor => (ids.getD successor 0 : Int)))) (outcomes : List Bool) :
    walk (llvmStep blockIds blocks) 0 outcomes =
      (walk (cfgStep successors body.blocks.length) 0 outcomes).map
        (fun block => ids.getD block 0) := by
  have startAt : ids.getD 0 0 = 0 := by
    rw [List.getD_eq_getElem?_getD, ← List.head?_eq_getElem?, first]
    rfl
  have nonempty : 0 < body.blocks.length := by
    rcases body.blocks_eq_cons with ⟨others, split⟩
    rw [split]
    exact Nat.succ_pos _
  have noLoop : InsideLoop body.blocks.length none := by
    rintro targets ⟨⟩
  have same : walk (llvmStep blockIds blocks) (ids.getD 0 0) outcomes =
      (walk (cfgStep successors body.blocks.length) 0 outcomes).map
        (fun block => ids.getD block 0) := by
    apply walk_map (fun block => ids.getD block 0) (· < body.blocks.length)
      (fun _ _ _ _ moved => cfgStep_inside moved) ?_ nonempty
    intro index outcome bound
    have listed : index ∈ body.blocks.map (fun block => block.index) := by
      rw [indexed]
      exact List.mem_range.mpr bound
    rw [List.mem_map] at listed
    rcases listed with ⟨block, member, rfl⟩
    rcases follows block member with ⟨id, llvm, idAt, found, -, targets⟩
    have sameId : ids.getD block.index 0 = id := by
      rw [List.getD_eq_getElem?_getD, idAt]
      rfl
    exact llvmStep_eq_cfgStep (sameId ▸ found) targets
      (CfList.Linked.inside linked noLoop (index_lt_of_indexed indexed) block member) outcome
  rw [startAt] at same
  exact same

end Follows

/-- Every function is lowered to one that follows its graph. -/
theorem emitFunction_followsGraph (emitter : Emitter Ctx) (successors : Successors) (ctx : Ctx)
    (body : CfList) (indexed : body.Indexed)
    (linked : body.Linked successors none body.blocks.length) :
    ∃ func blocks ids, emitFunction emitter successors ctx body = some func ∧
      FollowsGraph emitter successors body func blocks ids := by
  have noLoop : InsideLoop body.blocks.length none := by
    rintro targets ⟨⟩
  have start : Laid (addFunctionDef body.blocks.length) [] [] := ⟨rfl, rfl⟩
  have leaves : (Instr.ret none).successors =
      [body.blocks.length].filter (· < body.blocks.length) := by simp [Instr.successors]
  have emitted := @emitCfList_spec _ emitter _ _ body _ _ linked (.ret none) rfl leaves noLoop
    (index_lt_of_indexed indexed) ⟨(emitter.emitPrologue ctx).1, _⟩ _ _
    (start.add (emitter.emitPrologue ctx).2) List.length_replicate
  rcases emitted with ⟨ctx', run, blocks, placed, laid, sameBlocks, sameIds, places⟩
  rw [List.nil_append] at laid places
  have count : placed.length = body.blocks.length := by rw [← sameBlocks, List.length_map]
  have positions : placed.map (fun place => place.1.index) = List.range' 0 placed.length := by
    rw [← List.range_eq_range', count, ← indexed, ← sameBlocks, List.map_map]
    rfl
  have stored : ctx'.func.basicBlockIds = (placed.map Prod.snd).map Int.ofNat := by
    rw [sameIds, storeIds_range' positions, List.take_zero, List.nil_append, List.map_map]
    · rfl
    · exact List.length_replicate.trans (by rw [count, Nat.zero_add])
  have sameFunc : closeWith body (.ret none) ctx'.func = ctx'.func.dxilEmitRetVoid := by
    rw [closeWith, lastBlock_falls linked]
    rfl
  rw [sameFunc] at laid
  have follows := places.follows sameBlocks indexed
  rw [← stored] at follows
  refine ⟨ctx'.func.dxilEmitRetVoid, blocks, placed.map Prod.snd, ?_, ?_⟩
  · rw [emitFunction]
    exact congrArg (Option.bind · _) run
  · refine
      { instrs := laid.instrs.trans (List.append_nil _)
        declared := laid.currBlock
        blockIds := stored
        total := by rw [List.length_map, count]
        first := places.first
        increasing := places.increasing
        dense := ?_
        realized := follows
        sameWalk := walk_llvmStep_eq indexed linked places.first follows }
    intro whole
    have dense := places.dense whole
    rw [List.range_eq_range', ← count]
    exact ⟨dense.1, dense.2.trans (Nat.zero_add _)⟩

/-- A loop that breaks out of a branch: block 2 jumps behind the loop. -/
def breakingLoop : CfList :=
  let breaks : Nir.Instr := { index := 0, kind := .jump .breakLoop }
  .cons ⟨0, []⟩
    (.loopNode (.cons ⟨1, []⟩ (.ifNode 0 (.last ⟨2, [breaks]⟩) (.last ⟨3, []⟩)) (.last ⟨4, []⟩)))
    (.last ⟨5, []⟩)

def breakingLoopSuccessors : Successors := fun index =>
  [[1], [2, 3], [5], [4], [1], [6]].getD index []

/-- Emits no code but branches on a constant. -/
def bareEmitter : Emitter Unit where
  emitPrologue ctx := (ctx, [])
  emitInstr ctx _ := (ctx, [])
  getSrc ctx _ := (ctx, [], .const 0)

theorem emitFunction_followsGraph_breakingLoop :
    ∃ func blocks ids, emitFunction bareEmitter breakingLoopSuccessors () breakingLoop = some func ∧
      FollowsGraph bareEmitter breakingLoopSuccessors breakingLoop func blocks ids := by
  apply emitFunction_followsGraph bareEmitter breakingLoopSuccessors () breakingLoop
  · rfl
  · have plain : ∀ index, ∀ instr ∈ (⟨index, []⟩ : Nir.Block).instrs.dropLast, ¬ instr.isJump :=
      fun _ _ member => by cases member
    refine ⟨⟨plain 0, rfl⟩, ⟨⟨plain 1, rfl⟩, ⟨⟨?_, rfl⟩, ⟨plain 3, rfl⟩⟩, ⟨plain 4, rfl⟩⟩,
      ⟨plain 5, rfl⟩⟩
    intro instr member
    cases member

end NtdContext

end SpirvToDxil
