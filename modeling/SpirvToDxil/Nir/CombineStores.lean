import Mathlib.Data.Nat.Bitwise

/-!
# Combining stores

The stores of a block to the components of one vector become one store, in place of the latest of
them. Stores wait until something may look at the vector. A failed assertion is `none`.
-/

namespace SpirvToDxil

namespace CombineStores

inductive Index where
  | const (value : Nat)
  | ssa (value : Nat)
  deriving DecidableEq, Repr

/-- A variable: arrays of arrays of vectors, or of scalars where `elements` is one. -/
structure Variable where
  depth : Nat
  elements : Nat
  isOut : Bool
  deriving DecidableEq, Repr

/-- `nir_deref_instr`: a path into a variable. -/
structure Deref where
  var : Nat
  path : List Index
  deriving DecidableEq, Repr

section Compare

structure CompareResult where
  mayAlias : Bool
  aContainsB : Bool
  bContainsA : Bool
  deriving DecidableEq, Repr

def CompareResult.equal (result : CompareResult) : Bool := result.aContainsB && result.bContainsA

def doNotAlias : CompareResult := ⟨false, false, false⟩

/-- `compare_deref_paths`, with what is left of the containment so far. -/
def compareDerefPaths (aContainsB bContainsA : Bool) : List Index → List Index → CompareResult
  | .const m :: a, .const n :: b =>
    if m = n then compareDerefPaths aContainsB bContainsA a b else doNotAlias
  | .ssa m :: a, .ssa n :: b =>
    if m = n then compareDerefPaths aContainsB bContainsA a b
    else compareDerefPaths false false a b
  | .const _ :: a, .ssa _ :: b | .ssa _ :: a, .const _ :: b => compareDerefPaths false false a b
  | a, b => ⟨true, aContainsB && a.isEmpty, bContainsA && b.isEmpty⟩

def compareDerefs (a b : Deref) : CompareResult :=
  if a.var = b.var then compareDerefPaths true true a.path b.path else doNotAlias

end Compare

structure Scalar where
  value : Nat
  comp : Nat
  deriving DecidableEq, Repr

inductive Instr where
  | store (dst : Deref) (writeMask : Nat) (src : Nat → Scalar)
  | load (src : Deref)
  | copy (dst src : Deref)
  | emitVertex
  | barrier (release : Bool) (coversOut : Bool)
  | other

section Types

variable (decls : Nat → Variable)

/-- `glsl_type_is_vector` of the type of a deref. -/
def isVector (deref : Deref) : Bool :=
  deref.path.length = (decls deref.var).depth ∧ 1 < (decls deref.var).elements

def parent (deref : Deref) : Deref := { deref with path := deref.path.dropLast }

def numComponents (deref : Deref) : Nat :=
  if isVector decls deref then (decls deref.var).elements else 1

end Types

structure CombinedStore where
  dst : Deref
  writeMask : Nat
  latest : Nat
  stores : Nat → Option Nat

/-- The block as it is rewritten, with the reference counts in the `pass_flags`, and what is
pending. -/
structure State where
  pending : List CombinedStore
  instrs : Nat → Option Instr
  passFlags : Nat → Nat

def maxVecComponents : Nat := 16

def bits (mask : Nat) : List Nat := (List.range maxVecComponents).filter mask.testBit

/-- What a store is to. -/
inductive Target where
  | vector (vecDst : Deref) (vecMask : Nat)
  | invalid
  | other
  deriving DecidableEq, Repr

/-- Besides vectors, only direct array derefs of vectors are handled. -/
def target (decls : Nat → Variable) (dst : Deref) (writeMask : Nat) : Target :=
  if isVector decls dst then .vector dst writeMask
  else
    match dst.path.getLast? with
    | some (.const index) =>
      if isVector decls (parent dst) then
        if (decls dst.var).elements ≤ index then .invalid else .vector (parent dst) (2 ^ index)
      else .other
    | _ => .other

namespace State

variable (decls : Nat → Variable)

def setInstr (state : State) (position : Nat) (instr : Option Instr) : State :=
  { state with instrs := Function.update state.instrs position instr }

def setPassFlags (state : State) (position count : Nat) : State :=
  { state with passFlags := Function.update state.passFlags position count }

/-- `--passFlags`, which has to be positive. -/
def decrement (state : State) (position : Nat) : Option State :=
  if state.passFlags position = 0 then none
  else some (state.setPassFlags position (state.passFlags position - 1))

/-- The components of the new vector. Stores that are not needed any more are removed. -/
def takeComponents (combo : CombinedStore) (state : State) (comps : Nat → Scalar) :
    List Nat → Option (State × (Nat → Scalar))
  | [] => some (state, comps)
  | i :: rest =>
    if combo.writeMask.testBit i then do
      let position ← combo.stores i
      match state.instrs position with
      | some (.store dst _ src) => do
        let comp := src (if numComponents decls dst = 1 then 0 else i)
        let state ← state.decrement position
        let state :=
          if state.passFlags position = 0 ∧ position ≠ combo.latest then
            state.setInstr position none
          else state
        takeComponents combo state (Function.update comps i comp) rest
      | _ => none
    else takeComponents combo state comps rest

/-- The components that are not stored are `undef`. -/
def combineStores (undef : Scalar) (state : State) (combo : CombinedStore) : Option State :=
  match state.instrs combo.latest with
  | some (.store dst writeMask _) =>
    if combo.writeMask &&& writeMask = combo.writeMask then some state
    else do
      let numElements := (decls combo.dst.var).elements
      let (state, comps) ← takeComponents decls combo state (fun _ => undef)
        (List.range numElements)
      let dst := if numComponents decls dst = 1 then combo.dst else dst
      if state.passFlags combo.latest = 0 ∧ numComponents decls dst = numElements then
        some (state.setInstr combo.latest (some (.store dst combo.writeMask comps)))
      else none
  | _ => none

/-- The pending stores of which something holds are combined, in their order. -/
def combineWhere (undef : Scalar) (state : State) (matching : CombinedStore → Bool) :
    Option State := do
  let combined ← (state.pending.filter matching).foldlM (combineStores decls undef) state
  some { combined with pending := state.pending.filter fun combo => !matching combo }

def combineStoresWithDeref (undef : Scalar) (state : State) (deref : Deref) : Option State :=
  if (decls deref.var).isOut then
    combineWhere decls undef state fun combo => (compareDerefs combo.dst deref).mayAlias
  else some state

def combineStoresWithModes (undef : Scalar) (state : State) (coversOut : Bool) : Option State :=
  if coversOut then combineWhere decls undef state fun combo => (decls combo.dst.var).isOut
  else some state

def findMatchingCombinedStore (state : State) (deref : Deref) : Option CombinedStore :=
  state.pending.find? fun combo => (compareDerefs combo.dst deref).equal

/-- An older reference to a component that is stored again is cleared up. -/
def replaceStore (state : State) (i : Nat) : Option Nat → Option State
  | none => some state
  | some previous => do
    let state ← state.decrement previous
    if state.passFlags previous = 0 then some (state.setInstr previous none)
    else
      match state.instrs previous with
      | some (.store dst writeMask src) =>
        if isVector decls dst then
          some (state.setInstr previous (some (.store dst (Nat.ldiff writeMask (2 ^ i)) src)))
        else none
      | _ => none

def replaceStores (state : State) (combo : CombinedStore) :
    List Nat → Option (State × CombinedStore)
  | [] => some (state, combo)
  | i :: rest => do
    let state ← state.replaceStore decls i (combo.stores i)
    replaceStores state
      { combo with stores := Function.update combo.stores i (some combo.latest) } rest

/-- The pending store of a vector is put in its place, or in front if it is a new one. -/
def setPending (state : State) (combo : CombinedStore) : State :=
  { state with
    pending :=
      if state.pending.any (·.dst = combo.dst) then
        state.pending.map fun other => if other.dst = combo.dst then combo else other
      else combo :: state.pending }

def updateCombinedStore (undef : Scalar) (state : State) (position : Nat) (dst : Deref)
    (writeMask : Nat) : Option State :=
  if (decls dst.var).isOut then
    match target decls dst writeMask with
    | .other => combineStoresWithDeref decls undef state dst
    | .invalid => some (state.setInstr position none)
    | .vector vecDst vecMask => do
      let combo := (state.findMatchingCombinedStore vecDst).getD
        { dst := vecDst, writeMask := 0, latest := position, stores := fun _ => none }
      let state := state.setPassFlags position (bits vecMask).length
      let combo :=
        { combo with latest := position, writeMask := combo.writeMask ||| vecMask }
      let (state, combo) ← replaceStores decls state combo (bits vecMask)
      some (state.setPending combo)
  else some state

/-- One instruction of `combine_stores_block`. -/
def combineInstr (undef : Scalar) (state : State) (position : Nat) : Instr → Option State
  | .store dst writeMask _ => updateCombinedStore decls undef state position dst writeMask
  | .load src => combineStoresWithDeref decls undef state src
  | .copy dst src => do
    let state ← combineStoresWithDeref decls undef state dst
    combineStoresWithDeref decls undef state src
  | .emitVertex => combineStoresWithModes decls undef state true
  | .barrier release coversOut =>
    if release then combineStoresWithModes decls undef state coversOut else some state
  | .other => some state

def combineInstrs (undef : Scalar) (state : State) (position : Nat) : List Instr → Option State
  | [] => combineStoresWithModes decls undef state true
  | instr :: rest => do
    let state ← combineInstr decls undef state position instr
    combineInstrs undef state (position + 1) rest

end State

/-- `combine_stores_block`: what becomes of each instruction. -/
def combineStoresBlock (decls : Nat → Variable) (undef : Scalar) (block : List Instr) :
    Option (List (Option Instr)) := do
  let state : State :=
    { pending := []
      instrs := fun position => block[position]?
      passFlags := fun _ => 0 }
  let state ← State.combineInstrs decls undef state 0 block
  some ((List.range block.length).map state.instrs)

section Execution

variable {V : Type}

/-- A place in memory: a component of a variable, with all indices. -/
structure Cell where
  var : Nat
  path : List Nat
  deriving DecidableEq, Repr

/-- What is known when the block runs: the indices and the data. -/
structure Env (V : Type) where
  index : Nat → Nat
  data : Scalar → V

variable (decls : Nat → Variable)

def Index.eval (index : Nat → Nat) : Index → Nat
  | const value => value
  | ssa value => index value

def Deref.eval (deref : Deref) (index : Nat → Nat) : List Nat := deref.path.map (Index.eval index)

def Deref.Covers (deref : Deref) (index : Nat → Nat) (cell : Cell) : Prop :=
  cell.var = deref.var ∧ deref.eval index <+: cell.path

instance (deref : Deref) (index : Nat → Nat) (cell : Cell) : Decidable (deref.Covers index cell) :=
  inferInstanceAs (Decidable (_ ∧ _))

/-- What a store puts in a place. A store past the end of a vector puts nothing there. -/
def stored (index : Nat → Nat) (dst : Deref) (writeMask : Nat) (src : Nat → Scalar) (cell : Cell) :
    Option Scalar :=
  if cell.var = dst.var then
    let comp := cell.path.getLastD 0
    if dst.path.length = (decls dst.var).depth then
      if cell.path = dst.eval index ++ [comp] ∧ comp < (decls dst.var).elements ∧
          writeMask.testBit comp then some (src comp)
      else none
    else if cell.path = dst.eval index ∧ comp < (decls dst.var).elements ∧
        writeMask.testBit 0 then some (src 0)
    else none
  else none

def Instr.exec (env : Env V) (memory : Cell → V) : Instr → Cell → V
  | .store dst writeMask src => fun cell =>
    match stored decls env.index dst writeMask src cell with
    | some scalar => env.data scalar
    | none => memory cell
  | .copy dst src => fun cell =>
    if dst.Covers env.index cell then
      memory ⟨src.var, src.eval env.index ++ cell.path.drop dst.path.length⟩
    else memory cell
  | .load _ | .emitVertex | .barrier .. | .other => memory

def memoryAt (env : Env V) (memory : Cell → V) (instrs : Nat → Option Instr) : Nat → Cell → V
  | 0 => memory
  | position + 1 =>
    match instrs position with
    | some instr => instr.exec decls env (memoryAt env memory instrs position)
    | none => memoryAt env memory instrs position

/-- An instruction looks at a place, and so does the end of the block. -/
def LooksAt (index : Nat → Nat) (cell : Cell) : Option Instr → Prop
  | none => True
  | some (.load src) => src.Covers index cell
  | some (.copy dst src) => dst.Covers index cell ∨ src.Covers index cell
  | some .emitVertex => True
  | some (.barrier release coversOut) =>
    (decls cell.var).isOut → release = true ∧ coversOut = true
  | some (.store ..) | some .other => False

end Execution

end CombineStores

end SpirvToDxil
