import Mathlib.Algebra.Order.Ring.Nat
import Mathlib.Data.Finset.Insert
import Mathlib.Logic.Function.Basic

/-!
# The dominance metadata

`nir_calc_dominance_impl`. Blocks are their indices, 0 is the start block, and the end block is not
among the blocks. A result is `none` where an assertion of the source fails or it follows `NULL`,
and where a loop is not over after the steps that it is given.
-/

namespace SpirvToDxil.Nir

structure Cfg where
  numBlocks : Nat
  /-- The predecessors of a block, in the order of `nir_foreach_pred`. -/
  predecessors : Nat → List Nat

namespace Dominance

abbrev ImmDom := Nat → Option Nat

def initBlock (block : Nat) : Option Nat :=
  if block = 0 then some block else none

/-- The two inner loops and the one around them: the block that comes later goes up. -/
def intersectLoop (immDom : ImmDom) : Nat → Nat → Nat → Option Nat
  | fuel, b1, b2 =>
    if b1 = b2 then some b1
    else
      match fuel with
      | 0 => none
      | fuel + 1 =>
        if b1 > b2 then do intersectLoop immDom fuel (← immDom b1) b2
        else do intersectLoop immDom fuel b1 (← immDom b2)

def intersect (immDom : ImmDom) (b1 b2 : Nat) : Option Nat :=
  intersectLoop immDom (b1 + b2) b1 b2

/-- `new_idom` after one more predecessor. -/
def meetPredecessor (immDom : ImmDom) (newIdom : Option Nat) (pred : Nat) : Option (Option Nat) :=
  if (immDom pred).isSome then
    match newIdom with
    | some idom => some <$> intersect immDom pred idom
    | none => some (some pred)
  else some newIdom

section Calc

variable (cfg : Cfg)

def calcDominance (immDom : ImmDom) (block : Nat) : Option (ImmDom × Bool) := do
  let newIdom ← (cfg.predecessors block).foldlM (meetPredecessor immDom) none
  if immDom block ≠ newIdom then some (Function.update immDom block newIdom, true)
  else some (immDom, false)

/-- The body of `while (progress)`, for the blocks that are given. -/
def calcPass (immDom : ImmDom) (blocks : List Nat) : Option (ImmDom × Bool) :=
  blocks.foldlM (fun state block =>
    if block ≠ 0 then do
      let (immDom, progress) ← calcDominance cfg state.1 block
      some (immDom, state.2 || progress)
    else some state) (immDom, false)

def calcLoop : Nat → ImmDom → Option ImmDom
  | 0, _ => none
  | fuel + 1, immDom => do
    let (immDom, progress) ← calcPass cfg immDom (List.range cfg.numBlocks)
    if progress then calcLoop fuel immDom else some immDom

abbrev DomFrontier := Nat → Finset Nat

/-- `while (runner != block->imm_dom)`. -/
def runUp (immDom : ImmDom) (block : Nat) : Nat → Nat → DomFrontier → Option DomFrontier
  | fuel, runner, frontier =>
    if immDom block = some runner then some frontier
    else
      match fuel with
      | 0 => none
      | fuel + 1 => do
        runUp immDom block fuel (← immDom runner)
          (Function.update frontier runner (insert block (frontier runner)))

def calcDomFrontier (immDom : ImmDom) (frontier : DomFrontier) (block : Nat) :
    Option DomFrontier :=
  if (cfg.predecessors block).length > 1 then
    (cfg.predecessors block).foldlM (fun frontier runner =>
      if immDom runner = none then some frontier
      else runUp immDom block (runner + 1) runner frontier) frontier
  else some frontier

end Calc

/-- The arrays `dom_children`, in which each block is put behind the earlier ones. -/
def calcDomChildren (immDom : ImmDom) (blocks : List Nat) : Nat → List Nat :=
  blocks.foldl (fun children block =>
    match immDom block with
    | some parent => Function.update children parent (children parent ++ [block])
    | none => children) fun _ => []

def uint32Max : Nat := 2 ^ 32 - 1

structure DfsIndices where
  index : Nat
  domPreIndex : Nat → Nat
  domPostIndex : Nat → Nat

def DfsIndices.enter (state : DfsIndices) (block : Nat) : DfsIndices :=
  { state with
    index := state.index + 1
    domPreIndex := Function.update state.domPreIndex block state.index }

def DfsIndices.leave (state : DfsIndices) (block : Nat) : DfsIndices :=
  { state with
    index := state.index + 1
    domPostIndex := Function.update state.domPostIndex block state.index }

/-- The first argument bounds the height of the tree. -/
def calcDfsIndices (children : Nat → List Nat) : Nat → DfsIndices → Nat → Option DfsIndices
  | 0, _, _ => none
  | height + 1, state, block =>
    if state.index < uint32Max - 2 then do
      let state ← (children block).foldlM (calcDfsIndices children height) (state.enter block)
      some (state.leave block)
    else none

end Dominance

open Dominance

structure DominanceMetadata where
  immDom : ImmDom
  domFrontier : DomFrontier
  domChildren : Nat → List Nat
  domPreIndex : Nat → Nat
  domPostIndex : Nat → Nat

/-- The loop for the immediate dominators is given one round more than there are blocks. -/
def nirCalcDominanceImpl (cfg : Cfg) : Option DominanceMetadata := do
  let immDom ← calcLoop cfg (cfg.numBlocks + 1) initBlock
  let domFrontier ←
    (List.range cfg.numBlocks).foldlM (calcDomFrontier cfg immDom) fun _ => ∅
  let immDom := Function.update immDom 0 none
  let domChildren := calcDomChildren immDom (List.range cfg.numBlocks)
  let indices ← calcDfsIndices domChildren cfg.numBlocks
    { index := 1, domPreIndex := fun _ => uint32Max, domPostIndex := fun _ => 0 } 0
  some
    { immDom := immDom
      domFrontier := domFrontier
      domChildren := domChildren
      domPreIndex := indices.domPreIndex
      domPostIndex := indices.domPostIndex }

def nirBlockDominates (metadata : DominanceMetadata) (parent child : Nat) : Bool :=
  metadata.domPreIndex child ≥ metadata.domPreIndex parent &&
    metadata.domPostIndex child ≤ metadata.domPostIndex parent

def nirBlockIsUnreachable (metadata : DominanceMetadata) (block : Nat) : Bool :=
  block > 0 && (metadata.immDom block).isNone

end SpirvToDxil.Nir
