import SpirvToDxil.Dxil.Module.Instr
import SpirvToDxil.Nir.ControlFlow
import SpirvToDxil.Util.Walk

/-!
# Lowering structured control flow

The branches that `emit_cf_list` emits for a function. A branch names NIR blocks, which are
translated when the function is written; the id of an LLVM block is the number of the terminators
in front of it. All other instructions come from a parameter.
-/

namespace SpirvToDxil

open Nir (CfList CfNode Successors)

def Instr.isTerminator : Instr → Bool
  | .br .. => true
  | .ret _ => true
  | _ => false

abbrev PlainInstr := { instr : Instr // instr.isTerminator = false }

/-- The state of an `ntd_context` apart from the function being emitted, and how it changes. -/
structure Emitter (Ctx : Type) where
  /-- `emit_scratch` and `emit_static_indexing_handles`. -/
  emitPrologue : Ctx → Ctx × List PlainInstr
  /-- `emit_instr`, for all instructions but jumps. -/
  emitInstr : Ctx → Nir.Instr → Ctx × List PlainInstr
  getSrc : Ctx → Nir.Def → Ctx × List PlainInstr × Value

structure NtdContext (Ctx : Type) where
  ctx : Ctx
  func : FuncDef

namespace FuncDef

def add (func : FuncDef) (instrs : List PlainInstr) : FuncDef :=
  { func with instrs := func.instrs ++ instrs.map Subtype.val }

def dxilEmitBranch (func : FuncDef) (cond : Option Value) (trueBlock falseBlock : Nat) : FuncDef :=
  { func with
    instrs := func.instrs ++ [.br cond trueBlock falseBlock]
    currBlock := func.currBlock + 1 }

def dxilEmitRetVoid (func : FuncDef) : FuncDef :=
  { func with
    instrs := func.instrs ++ [.ret none]
    currBlock := func.currBlock + 1 }

end FuncDef

namespace NtdContext

variable {Ctx : Type} (emitter : Emitter Ctx) (successors : Successors)

/-- The false block `-1`, as an `unsigned`. -/
def NO_BLOCK : Nat := 2 ^ 32 - 1

def emitBranch (ctx : NtdContext Ctx) (block : Nat) : NtdContext Ctx :=
  { ctx with func := ctx.func.dxilEmitBranch none block NO_BLOCK }

def emitInstr (block : Nir.Block) (ctx : NtdContext Ctx) (instr : Nir.Instr) :
    Option (NtdContext Ctx) :=
  match instr.kind with
  | .jump _ => do
    let successor ← (successors block.index).head?
    some (ctx.emitBranch successor)
  | _ =>
    let (state, instrs) := emitter.emitInstr ctx.ctx instr
    some { ctx := state, func := ctx.func.add instrs }

def emitBlock (block : Nir.Block) (ctx : NtdContext Ctx) : Option (NtdContext Ctx) :=
  if block.index < ctx.func.basicBlockIds.length then
    block.instrs.foldlM (emitInstr emitter successors block)
      { ctx with func := { ctx.func with
          basicBlockIds := ctx.func.basicBlockIds.set block.index ctx.func.currBlock } }
  else none

/-- The branch at the end of a list whose last block does not jump. -/
def emitImplicitBranch (list : CfList) (successor : Nat) (ctx : NtdContext Ctx) : NtdContext Ctx :=
  if list.lastBlock.jump?.isSome then ctx else ctx.emitBranch successor

mutual

/-- `emit_if` and `emit_loop`; the else-list of an if is never empty. -/
def emitNode : CfNode → NtdContext Ctx → Option (NtdContext Ctx)
  | .ifNode condition thenList elseList, ctx => do
    let (state, instrs, cond) := emitter.getSrc ctx.ctx condition
    let thenSucc ← (successors thenList.lastBlock.index).head?
    let elseSucc ← (successors elseList.lastBlock.index).head?
    let func := (ctx.func.add instrs).dxilEmitBranch (some cond) thenList.firstBlock.index
      elseList.firstBlock.index
    let ctx ← emitCfList thenList { ctx := state, func := func }
    let ctx ← emitCfList elseList (ctx.emitImplicitBranch thenList thenSucc)
    some (ctx.emitImplicitBranch elseList elseSucc)
  | .loopNode body, ctx => do
    let ctx ← emitCfList body (ctx.emitBranch body.firstBlock.index)
    some (ctx.emitImplicitBranch body body.firstBlock.index)

def emitCfList : CfList → NtdContext Ctx → Option (NtdContext Ctx)
  | .last block, ctx => ctx.emitBlock emitter successors block
  | .cons block node rest, ctx => do
    let ctx ← ctx.emitBlock emitter successors block
    let ctx ← emitNode node ctx
    emitCfList rest ctx

end

/-- The definition that `dxil_add_function_def` makes. -/
def addFunctionDef (numBlocks : Nat) : FuncDef where
  instrs := []
  basicBlockIds := List.replicate numBlocks (-1)
  currBlock := 0

def emitFunction (ctx : Ctx) (body : CfList) : Option FuncDef := do
  let (state, instrs) := emitter.emitPrologue ctx
  let func := (addFunctionDef body.blocks.length).add instrs
  let ctx ← emitCfList emitter successors body { ctx := state, func := func }
  some ctx.func.dxilEmitRetVoid

end NtdContext

/-! ## LLVM blocks -/

structure LlvmBlock where
  code : List PlainInstr
  terminator : Instr
  terminates : terminator.isTerminator = true

def LlvmBlock.instrs (block : LlvmBlock) : List Instr :=
  block.code.map Subtype.val ++ [block.terminator]

def Instr.successors : Instr → List Nat
  | .br none successor _ => [successor]
  | .br (some _) trueBlock falseBlock => [trueBlock, falseBlock]
  | _ => []

/-- The blocks in the record that is written for a terminator. -/
def Instr.targets (blockIds : List Int) : Instr → Option (List Int)
  | .br none successor _ => do
    let target ← blockIds[successor]?
    some [target]
  | .br (some _) trueBlock falseBlock => do
    let trueTarget ← blockIds[trueBlock]?
    let falseTarget ← blockIds[falseBlock]?
    some [trueTarget, falseTarget]
  | .ret _ => some []
  | _ => none

def llvmStep (blockIds : List Int) (blocks : List LlvmBlock) (block : Nat) (outcome : Bool) :
    Option Nat := do
  let current ← blocks[block]?
  match ← current.terminator.targets blockIds with
  | [target] => some target.toNat
  | [trueTarget, falseTarget] => some (if outcome then trueTarget else falseTarget).toNat
  | _ => none

end SpirvToDxil
