import SpirvToDxil.Nir.Shader

/-!
# The control-flow graph of a structured function

The blocks of a function in the order of `nir_foreach_block`, and the successors that
`nir_validate` requires of them. A function without continue constructs continues at the first
block of a loop.
-/

namespace SpirvToDxil.Nir

def CfList.lastBlock : CfList → Block
  | .last block => block
  | .cons _ _ rest => rest.lastBlock

mutual

/-- The blocks in the order of `nir_block_cf_tree_next`. -/
def CfNode.blocks : CfNode → List Block
  | .ifNode _ thenList elseList => thenList.blocks ++ elseList.blocks
  | .loopNode body => body.blocks

def CfList.blocks : CfList → List Block
  | .last block => [block]
  | .cons block node rest => block :: (node.blocks ++ rest.blocks)

end

/-- What `nir_index_blocks` establishes. -/
def CfList.Indexed (body : CfList) : Prop :=
  body.blocks.map (fun block => block.index) = List.range body.blocks.length

/-- The jump of `nir_block_ends_in_jump`. -/
def Block.jump? (block : Block) : Option JumpType :=
  match block.instrs.getLast? with
  | some { kind := .jump type, .. } => some type
  | _ => none

/-- The `successors` of each block, by its index and without `NULL`. -/
abbrev Successors := Nat → List Nat

/-- The first block of a loop, and the block after it. -/
structure LoopTargets where
  header : Nat
  after : Nat

section Validate

variable (successors : Successors)

/-- `validate_block` and `validate_jump_instr`; `normal` are the successors without a jump. -/
def Block.Linked (loop : Option LoopTargets) (normal : List Nat) (block : Block) : Prop :=
  (∀ instr ∈ block.instrs.dropLast, ¬ instr.isJump) ∧
    match block.jump?, loop with
    | none, _ => successors block.index = normal
    | some .breakLoop, some targets => successors block.index = [targets.after]
    | some .continueLoop, some targets => successors block.index = [targets.header]
    | some _, none => False

/-- The successors of the block before a node. -/
def CfNode.entries : CfNode → List Nat
  | .ifNode _ thenList elseList => [thenList.firstBlock.index, elseList.firstBlock.index]
  | .loopNode body => [body.firstBlock.index]

mutual

/-- `validate_cf_node`; `after` is the block behind the node. -/
def CfNode.Linked (loop : Option LoopTargets) (after : Nat) : CfNode → Prop
  | .ifNode _ thenList elseList => thenList.Linked loop after ∧ elseList.Linked loop after
  | .loopNode body =>
    body.Linked (some { header := body.firstBlock.index, after := after }) body.firstBlock.index

/-- `exit` follows the last block. -/
def CfList.Linked (loop : Option LoopTargets) (exit : Nat) : CfList → Prop
  | .last block => block.Linked successors loop [exit]
  | .cons block node rest =>
    block.Linked successors loop node.entries ∧
      node.Linked loop rest.firstBlock.index ∧ rest.Linked loop exit

end

end Validate

mutual

/-- No node follows a block that ends in a jump, as `nir_opt_dead_cf` leaves it. -/
def CfNode.NoDeadNodes : CfNode → Prop
  | .ifNode _ thenList elseList => thenList.NoDeadNodes ∧ elseList.NoDeadNodes
  | .loopNode body => body.NoDeadNodes

def CfList.NoDeadNodes : CfList → Prop
  | .last _ => True
  | .cons block node rest => block.jump? = none ∧ node.NoDeadNodes ∧ rest.NoDeadNodes

end

/-- A step of the graph; an outcome picks one of two successors, and the end block stops it. -/
def cfgStep (successors : Successors) (endBlock : Nat) (block : Nat) (outcome : Bool) :
    Option Nat :=
  let next :=
    match successors block with
    | [successor] => some successor
    | [trueBlock, falseBlock] => some (if outcome then trueBlock else falseBlock)
    | _ => none
  next.filter (· < endBlock)

theorem Block.Linked.successors_of_none {successors : Successors} {loop : Option LoopTargets}
    {normal : List Nat} {block : Block} (linked : block.Linked successors loop normal)
    (falls : block.jump? = none) : successors block.index = normal := by
  have same := linked.2
  rw [falls] at same
  exact same

theorem Block.Linked.successors_of_jump {successors : Successors} {loop : Option LoopTargets}
    {normal : List Nat} {block : Block} (linked : block.Linked successors loop normal)
    {type : JumpType} (jumps : block.jump? = some type) :
    ∃ target, successors block.index = [target] := by
  have same := linked.2
  rw [jumps] at same
  cases type with
  | breakLoop =>
    cases loop with
    | none => exact same.elim
    | some targets => exact ⟨targets.after, same⟩
  | continueLoop =>
    cases loop with
    | none => exact same.elim
    | some targets => exact ⟨targets.header, same⟩

theorem Block.jump?_cases {block : Block}
    (jumpsLast : ∀ instr ∈ block.instrs.dropLast, ¬ instr.isJump) :
    (block.jump? = none ∧ ∀ instr ∈ block.instrs, ¬ instr.isJump) ∨
      ∃ type front jump, block.jump? = some type ∧ block.instrs = front ++ [jump] ∧
        jump.kind = .jump type ∧ ∀ instr ∈ front, ¬ instr.isJump := by
  rcases List.eq_nil_or_concat block.instrs with empty | ⟨front, last, split⟩
  · left
    rw [Block.jump?, empty]
    exact ⟨rfl, fun instr member => by cases member⟩
  · rw [List.concat_eq_append] at split
    have lastIs : block.instrs.getLast? = some last := by rw [split, List.getLast?_concat]
    rw [split, List.dropLast_concat] at jumpsLast
    by_cases jumps : last.isJump
    · rcases jumps with ⟨type, kind⟩
      refine Or.inr ⟨type, front, last, ?_, split, kind, jumpsLast⟩
      rw [Block.jump?, lastIs]
      cases last
      cases kind
      rfl
    · refine Or.inl ⟨?_, ?_⟩
      · rw [Block.jump?, lastIs]
        rcases last with ⟨index, kind⟩
        cases kind with
        | jump type => exact absurd ⟨type, rfl⟩ jumps
        | alu op srcs => rfl
        | loadConst value => rfl
        | phi srcs => rfl
        | intrinsic intr => rfl
      · intro instr member
        rw [split, List.mem_append, List.mem_singleton] at member
        rcases member with inFront | rfl
        · exact jumpsLast instr inFront
        · exact jumps

theorem CfList.blocks_eq_cons (list : CfList) :
    ∃ others, list.blocks = list.firstBlock :: others := by
  cases list with
  | last block => exact ⟨[], rfl⟩
  | cons block node rest => exact ⟨node.blocks ++ rest.blocks, rfl⟩

def InsideLoop (endBlock : Nat) (loop : Option LoopTargets) : Prop :=
  ∀ targets ∈ loop, targets.header < endBlock ∧ targets.after < endBlock

theorem firstBlock_inside {endBlock : Nat} {list : CfList}
    (inside : ∀ block ∈ list.blocks, block.index < endBlock) :
    list.firstBlock.index < endBlock := by
  rcases list.blocks_eq_cons with ⟨others, split⟩
  exact inside _ (split ▸ List.mem_cons_self)

section Inside

variable {successors : Successors} {endBlock : Nat}

theorem jump_inside {block : Block} {loop : Option LoopTargets} {normal : List Nat}
    (linked : block.Linked successors loop normal) (loopInside : InsideLoop endBlock loop)
    {type : JumpType} (jumps : block.jump? = some type) :
    ∃ target, successors block.index = [target] ∧ target < endBlock := by
  have same := linked.2
  rw [jumps] at same
  cases loop with
  | none => cases type <;> exact same.elim
  | some targets =>
    have bounds := loopInside targets rfl
    cases type with
    | breakLoop => exact ⟨targets.after, same, bounds.2⟩
    | continueLoop => exact ⟨targets.header, same, bounds.1⟩

theorem entries_inside {node : CfNode} (inside : ∀ block ∈ node.blocks, block.index < endBlock) :
    ∀ entry ∈ node.entries, entry < endBlock := by
  intro entry member
  cases node with
  | ifNode condition thenList elseList =>
    rw [CfNode.blocks] at inside
    rw [CfNode.entries, List.mem_cons, List.mem_singleton] at member
    rcases member with rfl | rfl
    · exact firstBlock_inside (fun block own => inside block (List.mem_append_left _ own))
    · exact firstBlock_inside (fun block own => inside block (List.mem_append_right _ own))
  | loopNode body =>
    rw [CfNode.entries, List.mem_singleton] at member
    subst member
    exact firstBlock_inside inside

theorem Block.Linked.inside {block : Block} {loop : Option LoopTargets} {normal : List Nat}
    (linked : block.Linked successors loop normal) (loopInside : InsideLoop endBlock loop) :
    (∀ successor ∈ successors block.index, successor < endBlock) ∨
      successors block.index = normal := by
  cases jumps : block.jump? with
  | none => exact Or.inr (linked.successors_of_none jumps)
  | some type =>
    rcases jump_inside linked loopInside jumps with ⟨target, only, bound⟩
    left
    rw [only]
    intro successor member
    rw [List.mem_singleton] at member
    exact member ▸ bound

mutual

theorem CfNode.Linked.inside {node : CfNode} {loop : Option LoopTargets} {after : Nat}
    (linked : node.Linked successors loop after) (loopInside : InsideLoop endBlock loop)
    (afterInside : after < endBlock) (inside : ∀ block ∈ node.blocks, block.index < endBlock) :
    ∀ block ∈ node.blocks, ∀ successor ∈ successors block.index, successor < endBlock := by
  have leaves : ∀ {index : Nat} {exit : Nat}, exit < endBlock →
      ((∀ successor ∈ successors index, successor < endBlock) ∨ successors index = [exit]) →
      ∀ successor ∈ successors index, successor < endBlock := by
    rintro index exit bound (all | only) successor member
    · exact all successor member
    · rw [only, List.mem_singleton] at member
      exact member ▸ bound
  cases node with
  | ifNode condition thenList elseList =>
    rw [CfNode.Linked] at linked
    rw [CfNode.blocks] at inside ⊢
    intro block member
    rcases List.mem_append.mp member with inThen | inElse
    · exact leaves afterInside (linked.1.inside loopInside
        (fun other own => inside other (List.mem_append_left _ own)) block inThen)
    · exact leaves afterInside (linked.2.inside loopInside
        (fun other own => inside other (List.mem_append_right _ own)) block inElse)
  | loopNode body =>
    rw [CfNode.Linked] at linked
    rw [CfNode.blocks] at inside ⊢
    have firstInside := firstBlock_inside inside
    intro block member
    apply leaves firstInside (linked.inside _ inside block member)
    rintro targets ⟨rfl⟩
    exact ⟨firstInside, afterInside⟩

theorem CfList.Linked.inside {list : CfList} {loop : Option LoopTargets} {exit : Nat}
    (linked : list.Linked successors loop exit) (loopInside : InsideLoop endBlock loop)
    (inside : ∀ block ∈ list.blocks, block.index < endBlock) :
    ∀ block ∈ list.blocks, (∀ successor ∈ successors block.index, successor < endBlock) ∨
      successors block.index = [exit] := by
  cases list with
  | last block =>
    intro other member
    rw [CfList.blocks, List.mem_singleton] at member
    subst member
    rw [CfList.Linked] at linked
    exact Block.Linked.inside linked loopInside
  | cons block node rest =>
    rcases linked with ⟨linkedBlock, linkedNode, linkedRest⟩
    rw [CfList.blocks] at inside ⊢
    have insideNode : ∀ other ∈ node.blocks, other.index < endBlock :=
      fun other own => inside other (List.mem_cons_of_mem _ (List.mem_append_left _ own))
    have insideRest : ∀ other ∈ rest.blocks, other.index < endBlock :=
      fun other own => inside other (List.mem_cons_of_mem _ (List.mem_append_right _ own))
    intro other member
    rw [List.mem_cons, List.mem_append] at member
    rcases member with rfl | inNode | inRest
    · left
      rcases Block.Linked.inside linkedBlock loopInside with all | same
      · exact all
      · rw [same]
        exact entries_inside insideNode
    · exact Or.inl (CfNode.Linked.inside linkedNode loopInside (firstBlock_inside insideRest)
        insideNode other inNode)
    · exact CfList.Linked.inside linkedRest loopInside insideRest other inRest

end

end Inside

end SpirvToDxil.Nir
