import Mathlib.Data.List.Basic
import Mathlib.Data.Finset.Dedup

/-!
# Structured NIR functions

A control-flow list alternates blocks with ifs and loops, and begins and ends
with a block. An instruction defines the value of its own index.
-/

namespace SpirvToDxil.Nir

abbrev Def := Nat

inductive JumpType where
  | breakLoop
  | continueLoop
  deriving DecidableEq, Repr

inductive IntrinsicOp where
  | loadViewIndex
  | loadInput
  | loadPerVertexInput
  | loadInterpolatedInput
  | storeOutput
  | storePerVertexOutput
  deriving DecidableEq, Repr

structure Intrinsic where
  op : IntrinsicOp
  srcs : List Def
  base : Nat
  component : Nat
  numComponents : Nat
  deriving DecidableEq, Repr

inductive InstrKind where
  /-- Any instruction that computes a value from its sources alone; `op` tells which. -/
  | alu (op : Nat) (srcs : List Def)
  | loadConst (value : Nat)
  /-- One source for each predecessor block. -/
  | phi (srcs : List (Nat × Def))
  | intrinsic (intr : Intrinsic)
  | jump (type : JumpType)
  deriving DecidableEq, Repr

structure Instr where
  index : Def
  kind : InstrKind
  deriving DecidableEq, Repr

structure Block where
  index : Nat
  instrs : List Instr
  deriving DecidableEq, Repr

mutual

inductive CfNode where
  | ifNode (condition : Def) (thenList elseList : CfList)
  | loopNode (body : CfList)

inductive CfList where
  | last (block : Block)
  | cons (block : Block) (node : CfNode) (rest : CfList)

end

def IntrinsicOp.isLoad : IntrinsicOp → Bool
  | loadViewIndex | loadInput | loadPerVertexInput | loadInterpolatedInput => true
  | storeOutput | storePerVertexOutput => false

namespace Instr

def srcs (instr : Instr) : List Def :=
  match instr.kind with
  | .alu _ srcs => srcs
  | .loadConst _ => []
  | .phi srcs => srcs.map Prod.snd
  | .intrinsic intr => intr.srcs
  | .jump _ => []

/-- The values that `nir_foreach_def` visits. -/
def defs (instr : Instr) : List Def :=
  match instr.kind with
  | .alu .. | .loadConst _ | .phi _ => [instr.index]
  | .intrinsic intr => if intr.op.isLoad then [instr.index] else []
  | .jump _ => []

end Instr

mutual

/-- The instructions of `nir_foreach_block_in_cf_node`. -/
def CfNode.instrs : CfNode → List Instr
  | .ifNode _ thenList elseList => thenList.instrs ++ elseList.instrs
  | .loopNode body => body.instrs

def CfList.instrs : CfList → List Instr
  | .last block => block.instrs
  | .cons block node rest => block.instrs ++ (node.instrs ++ rest.instrs)

end

mutual

def CfNode.ifUses (value : Def) : CfNode → List CfNode
  | .ifNode condition thenList elseList =>
    (if condition = value then [.ifNode condition thenList elseList] else []) ++
      (thenList.ifUses value ++ elseList.ifUses value)
  | .loopNode body => body.ifUses value

def CfList.ifUses (value : Def) : CfList → List CfNode
  | .last _ => []
  | .cons _ node rest => node.ifUses value ++ rest.ifUses value

end

mutual

/-- The bodies of the loops that an instruction jumps out of or around: the innermost one. -/
def CfNode.jumpLoops (instr : Instr) : CfNode → List CfList
  | .ifNode _ thenList elseList => thenList.jumpLoops instr ++ elseList.jumpLoops instr
  | .loopNode body => (if body.hasOwn instr then [body] else []) ++ body.jumpLoops instr

def CfList.jumpLoops (instr : Instr) : CfList → List CfList
  | .last _ => []
  | .cons _ node rest => node.jumpLoops instr ++ rest.jumpLoops instr

/-- Whether an instruction lies in a node, but in no loop of it. -/
def CfNode.hasOwn (instr : Instr) : CfNode → Bool
  | .ifNode _ thenList elseList => thenList.hasOwn instr || elseList.hasOwn instr
  | .loopNode _ => false

def CfList.hasOwn (instr : Instr) : CfList → Bool
  | .last block => instr ∈ block.instrs
  | .cons block node rest =>
    decide (instr ∈ block.instrs) || (node.hasOwn instr || rest.hasOwn instr)

end

def Instr.isJump (instr : Instr) : Prop := ∃ type, instr.kind = .jump type

def Instr.isPhi (instr : Instr) : Prop := ∃ srcs, instr.kind = .phi srcs

instance (instr : Instr) : Decidable instr.isJump :=
  match kind : instr.kind with
  | .jump type => isTrue ⟨type, kind⟩
  | .alu .. | .loadConst _ | .phi _ | .intrinsic _ =>
    isFalse (fun ⟨_, jump⟩ => by rw [kind] at jump; cases jump)

instance (instr : Instr) : Decidable instr.isPhi :=
  match kind : instr.kind with
  | .phi srcs => isTrue ⟨srcs, kind⟩
  | .alu .. | .loadConst _ | .jump _ | .intrinsic _ =>
    isFalse (fun ⟨_, phi⟩ => by rw [kind] at phi; cases phi)

def CfList.firstBlock : CfList → Block
  | .last block => block
  | .cons block _ _ => block

mutual

/-- The phis behind the nodes that `splits` picks. -/
def CfNode.mergePhis (splits : CfNode → Bool) : CfNode → List Instr
  | .ifNode _ thenList elseList => thenList.mergePhis splits ++ elseList.mergePhis splits
  | .loopNode body => body.mergePhis splits

def CfList.mergePhis (splits : CfNode → Bool) : CfList → List Instr
  | .last _ => []
  | .cons _ node rest =>
    (if splits node then rest.firstBlock.instrs.filter Instr.isPhi else []) ++
      (node.mergePhis splits ++ rest.mergePhis splits)

end

def CfList.constValue (body : CfList) (src : Def) : Option Nat :=
  body.instrs.findSome? (fun instr =>
    match instr.kind with
    | .loadConst value => if instr.index = src then some value else none
    | _ => none)

/-! ## The instructions of parts -/

mutual

theorem CfNode.instrs_of_mem_ifUses {value : Def} {node use : CfNode} {instr : Instr}
    (isUse : use ∈ node.ifUses value) (member : instr ∈ use.instrs) : instr ∈ node.instrs := by
  cases node with
  | ifNode condition thenList elseList =>
    rw [CfNode.ifUses, List.mem_append, List.mem_append] at isUse
    rw [CfNode.instrs, List.mem_append]
    rcases isUse with own | inThen | inElse
    · split at own
      · rw [List.mem_singleton] at own
        subst own
        rwa [CfNode.instrs, List.mem_append] at member
      · cases own
    · exact Or.inl (CfList.instrs_of_mem_ifUses inThen member)
    · exact Or.inr (CfList.instrs_of_mem_ifUses inElse member)
  | loopNode body =>
    rw [CfNode.ifUses] at isUse
    exact CfList.instrs_of_mem_ifUses isUse member

theorem CfList.instrs_of_mem_ifUses {value : Def} {list : CfList} {use : CfNode} {instr : Instr}
    (isUse : use ∈ list.ifUses value) (member : instr ∈ use.instrs) : instr ∈ list.instrs := by
  cases list with
  | last block => cases isUse
  | cons block node rest =>
    rw [CfList.ifUses, List.mem_append] at isUse
    rw [CfList.instrs, List.mem_append, List.mem_append]
    rcases isUse with inNode | inRest
    · exact Or.inr (Or.inl (CfNode.instrs_of_mem_ifUses inNode member))
    · exact Or.inr (Or.inr (CfList.instrs_of_mem_ifUses inRest member))

end

mutual

theorem CfNode.instrs_of_mem_jumpLoops {jump : Instr} {node : CfNode} {body : CfList}
    {instr : Instr} (isLoop : body ∈ node.jumpLoops jump) (member : instr ∈ body.instrs) :
    instr ∈ node.instrs := by
  cases node with
  | ifNode condition thenList elseList =>
    rw [CfNode.jumpLoops, List.mem_append] at isLoop
    rw [CfNode.instrs, List.mem_append]
    rcases isLoop with inThen | inElse
    · exact Or.inl (CfList.instrs_of_mem_jumpLoops inThen member)
    · exact Or.inr (CfList.instrs_of_mem_jumpLoops inElse member)
  | loopNode inner =>
    rw [CfNode.jumpLoops, List.mem_append] at isLoop
    rw [CfNode.instrs]
    rcases isLoop with own | nested
    · split at own
      · rw [List.mem_singleton] at own
        exact own ▸ member
      · cases own
    · exact CfList.instrs_of_mem_jumpLoops nested member

theorem CfList.instrs_of_mem_jumpLoops {jump : Instr} {list body : CfList} {instr : Instr}
    (isLoop : body ∈ list.jumpLoops jump) (member : instr ∈ body.instrs) :
    instr ∈ list.instrs := by
  cases list with
  | last block => cases isLoop
  | cons block node rest =>
    rw [CfList.jumpLoops, List.mem_append] at isLoop
    rw [CfList.instrs, List.mem_append, List.mem_append]
    rcases isLoop with inNode | inRest
    · exact Or.inr (Or.inl (CfNode.instrs_of_mem_jumpLoops inNode member))
    · exact Or.inr (Or.inr (CfList.instrs_of_mem_jumpLoops inRest member))

end

mutual

theorem CfNode.mem_instrs_of_hasOwn {instr : Instr} {node : CfNode}
    (own : node.hasOwn instr = true) : instr ∈ node.instrs := by
  cases node with
  | ifNode condition thenList elseList =>
    rw [CfNode.hasOwn, Bool.or_eq_true] at own
    rw [CfNode.instrs, List.mem_append]
    exact own.imp CfList.mem_instrs_of_hasOwn CfList.mem_instrs_of_hasOwn
  | loopNode body => cases own

theorem CfList.mem_instrs_of_hasOwn {instr : Instr} {list : CfList}
    (own : list.hasOwn instr = true) : instr ∈ list.instrs := by
  cases list with
  | last block =>
    rw [CfList.hasOwn, decide_eq_true_eq] at own
    exact own
  | cons block node rest =>
    rw [CfList.hasOwn, Bool.or_eq_true, decide_eq_true_eq, Bool.or_eq_true] at own
    rw [CfList.instrs, List.mem_append, List.mem_append]
    exact own.imp_right (Or.imp CfNode.mem_instrs_of_hasOwn CfList.mem_instrs_of_hasOwn)

end

end SpirvToDxil.Nir
