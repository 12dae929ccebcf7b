import SpirvToDxil.Util.Saturation

/-!
# Gathering the types of SSA values

`nir_gather_types` guesses for every SSA value whether it holds an integer, a float, or both, from
the instructions that make and read it. Copies and phis pass on what is known of one side to the
other; constants and undefined values only receive.
-/

namespace SpirvToDxil.PhiTypes

open Saturation

/-- The base types that are recorded, one bitset for each. -/
inductive Base where
  | int
  | float
  deriving DecidableEq, Repr

/-- `nir_alu_type_get_base_type`. -/
inductive AluBase where
  | invalid
  | bool
  | int
  | uint
  | float
  deriving DecidableEq, Repr

/-- An integer or a float type of a module. -/
structure DxilType where
  base : Base
  bits : Nat
  deriving DecidableEq, Repr

/-- A component of an SSA value. -/
structure AluSrc where
  ssa : Nat
  swizzle : Nat
  deriving DecidableEq, Repr

structure PhiSrc where
  pred : Nat
  ssa : Nat
  deriving DecidableEq, Repr

/-- The instructions as far as the types of their operands and results go. Whatever states its
types in a table is `typed`, with the types that its results get in the module; `mov` is a vector
of one component. -/
inductive Instr where
  | typed (dest : Option Nat) (destType : AluBase) (srcs : List (Nat × AluBase))
      (produced : List DxilType)
  | vec (dest : Nat) (srcs : List AluSrc)
  | bcsel (dest : Nat) (condition onTrue onFalse : AluSrc)
  | loadConst (dest : Nat)
  | undef (dest : Nat)
  | phi (dest : Nat) (srcs : List PhiSrc)
  deriving DecidableEq, Repr

/-- A function with its blocks in program order, and the sizes of its SSA values. -/
structure Function where
  blocks : List (List Instr)
  bitSize : Nat → Nat
  numComponents : Nat → Nat

def Instr.dest? : Instr → Option Nat
  | typed dest _ _ _ => dest
  | vec dest _ | bcsel dest _ _ _ | loadConst dest | undef dest | phi dest _ => some dest

def Instr.uses : Instr → List Nat
  | typed _ _ srcs _ => srcs.map Prod.fst
  | vec _ srcs => srcs.map AluSrc.ssa
  | bcsel _ condition onTrue onFalse => [condition.ssa, onTrue.ssa, onFalse.ssa]
  | loadConst _ | undef _ => []
  | phi _ srcs => srcs.map PhiSrc.ssa

/-- Whether the instruction makes the value out of nothing. -/
def Instr.isSource (ssa : Nat) : Instr → Bool
  | loadConst dest | undef dest => dest = ssa
  | _ => false

namespace Function

def instrs (f : Function) : List Instr := f.blocks.flatten

/-- `nir_src_is_const(src) || nir_src_is_undef(src)`. -/
def isSink (f : Function) (ssa : Nat) : Bool := f.instrs.any (Instr.isSource ssa)

end Function

/-! ## The pass -/

abbrev TypeBits := Finset (Nat × Base)

/-- `set_type`, with the progress flag. -/
def setType (idx : Nat) (type : AluBase) (state : TypeBits × Bool) : TypeBits × Bool :=
  match type with
  | .bool | .int | .uint =>
    if (idx, Base.int) ∉ state.1 then (insert (idx, .int) state.1, true) else state
  | .float =>
    if (idx, Base.float) ∉ state.1 then (insert (idx, .float) state.1, true) else state
  | .invalid => state

def copyType (src dst : Nat) (srcIsSink : Bool) (base : Base) (state : TypeBits × Bool) :
    TypeBits × Bool :=
  if (dst, base) ∈ state.1 then
    if (src, base) ∈ state.1 then state else (insert (src, base) state.1, true)
  else if (src, base) ∈ state.1 ∧ !srcIsSink then (insert (dst, base) state.1, true)
  else state

def copyTypes (f : Function) (src dst : Nat) (state : TypeBits × Bool) : TypeBits × Bool :=
  let srcIsSink := f.isSink src
  copyType src dst srcIsSink .int (copyType src dst srcIsSink .float state)

def gatherInstr (f : Function) (state : TypeBits × Bool) : Instr → TypeBits × Bool
  | .typed dest destType srcs _ =>
    let state := srcs.foldl (fun state src => setType src.1 src.2 state) state
    match dest with
    | some dest => setType dest destType state
    | none => state
  | .vec dest srcs => srcs.foldl (fun state src => copyTypes f src.ssa dest state) state
  | .bcsel dest condition onTrue onFalse =>
    let state := setType condition.ssa .bool state
    copyTypes f onFalse.ssa dest (copyTypes f onTrue.ssa dest state)
  | .loadConst _ | .undef _ => state
  | .phi dest srcs => srcs.foldl (fun state src => copyTypes f src.ssa dest state) state

/-- The `do … while (progress)` loop. -/
def gatherLoop (f : Function) : Nat → TypeBits → Option TypeBits
  | 0, _ => none
  | turns + 1, types =>
    let result := f.instrs.foldl (gatherInstr f) (types, false)
    if result.2 then gatherLoop f turns result.1 else some result.1

/-! ## What the instructions say as rules -/

def setRules (idx : Nat) : AluBase → List (Rule (Nat × Base))
  | .bool | .int | .uint => [⟨none, (idx, .int)⟩]
  | .float => [⟨none, (idx, .float)⟩]
  | .invalid => []

def copyRules (src dst : Nat) (srcIsSink : Bool) (base : Base) : List (Rule (Nat × Base)) :=
  ⟨some (dst, base), (src, base)⟩ ::
    if srcIsSink then [] else [⟨some (src, base), (dst, base)⟩]

def copiesRules (f : Function) (src dst : Nat) : List (Rule (Nat × Base)) :=
  copyRules src dst (f.isSink src) .float ++ copyRules src dst (f.isSink src) .int

def Instr.rules (f : Function) : Instr → List (Rule (Nat × Base))
  | typed dest destType srcs _ =>
    srcs.flatMap (fun src => setRules src.1 src.2) ++
      match dest with
      | some dest => setRules dest destType
      | none => []
  | vec dest srcs => srcs.flatMap (fun src => copiesRules f src.ssa dest)
  | bcsel dest condition onTrue onFalse =>
    setRules condition.ssa .bool ++
      (copiesRules f onTrue.ssa dest ++ copiesRules f onFalse.ssa dest)
  | loadConst _ | undef _ => []
  | phi dest srcs => srcs.flatMap (fun src => copiesRules f src.ssa dest)

def Function.rules (f : Function) : List (Rule (Nat × Base)) := f.instrs.flatMap (Instr.rules f)

/-- `nir_gather_types`. Every turn but the last sets a bit that one of the rules is about. -/
def gatherTypes (f : Function) : Option TypeBits := gatherLoop f (f.rules.length + 1) ∅

theorem scan_append (first second : List (Rule (Nat × Base))) (state : TypeBits × Bool) :
    scan (first ++ second) state = scan second (scan first state) :=
  List.foldl_append

theorem foldl_eq_scan {α : Type} {step : TypeBits × Bool → α → TypeBits × Bool}
    {rules : α → List (Rule (Nat × Base))} (each : ∀ state a, step state a = scan (rules a) state)
    (list : List α) (state : TypeBits × Bool) :
    list.foldl step state = scan (list.flatMap rules) state := by
  induction list generalizing state with
  | nil => rfl
  | cons a list inductionHypothesis =>
      rw [List.foldl_cons, List.flatMap_cons, scan_append, inductionHypothesis, each]

theorem setType_eq_scan (idx : Nat) (type : AluBase) (state : TypeBits × Bool) :
    setType idx type state = scan (setRules idx type) state := by
  cases type <;> simp [setType, setRules, scan, apply, Rule.Enabled]

theorem copyType_eq_scan (src dst : Nat) (srcIsSink : Bool) (base : Base)
    (state : TypeBits × Bool) :
    copyType src dst srcIsSink base state = scan (copyRules src dst srcIsSink base) state := by
  by_cases dstKnown : (dst, base) ∈ state.1
  · by_cases srcKnown : (src, base) ∈ state.1
    · cases srcIsSink <;> simp [copyType, copyRules, scan, apply, Rule.Enabled, dstKnown, srcKnown]
    · cases srcIsSink <;> simp [copyType, copyRules, scan, apply, Rule.Enabled, dstKnown, srcKnown]
  · by_cases srcKnown : (src, base) ∈ state.1
    · cases srcIsSink <;> simp [copyType, copyRules, scan, apply, Rule.Enabled, dstKnown, srcKnown]
    · cases srcIsSink <;> simp [copyType, copyRules, scan, apply, Rule.Enabled, dstKnown, srcKnown]

theorem copyTypes_eq_scan (f : Function) (src dst : Nat) (state : TypeBits × Bool) :
    copyTypes f src dst state = scan (copiesRules f src dst) state := by
  rw [copiesRules, scan_append, ← copyType_eq_scan, ← copyType_eq_scan]
  rfl

theorem gatherInstr_eq_scan (f : Function) (state : TypeBits × Bool) (instr : Instr) :
    gatherInstr f state instr = scan (instr.rules f) state := by
  cases instr with
  | typed dest destType srcs produced =>
      have read := foldl_eq_scan (fun state (src : Nat × AluBase) =>
        setType_eq_scan src.1 src.2 state) srcs state
      cases dest with
      | none =>
          rw [Instr.rules, scan_append, ← read]
          rfl
      | some dest =>
          rw [Instr.rules, scan_append, ← read]
          exact setType_eq_scan dest destType _
  | vec dest srcs =>
      exact foldl_eq_scan (fun state (src : AluSrc) => copyTypes_eq_scan f src.ssa dest state) _ _
  | bcsel dest condition onTrue onFalse =>
      rw [Instr.rules, scan_append, scan_append, ← setType_eq_scan, ← copyTypes_eq_scan,
        ← copyTypes_eq_scan]
      rfl
  | loadConst dest => rfl
  | undef dest => rfl
  | phi dest srcs =>
      exact foldl_eq_scan (fun state (src : PhiSrc) => copyTypes_eq_scan f src.ssa dest state) _ _

theorem gatherLoop_eq_saturate (f : Function) (turns : Nat) (types : TypeBits) :
    gatherLoop f turns types = saturate f.rules turns types := by
  induction turns generalizing types with
  | zero => rfl
  | succ turns inductionHypothesis =>
      unfold gatherLoop saturate
      rw [foldl_eq_scan (gatherInstr_eq_scan f) f.instrs (types, false)]
      simp only [inductionHypothesis]
      rfl

/-- The loop ends, and what it leaves is what the rules derive. -/
theorem exists_gatherTypes (f : Function) :
    ∃ types, gatherTypes f = some types ∧ ∀ fact, fact ∈ types ↔ Derivable f.rules fact := by
  obtain ⟨types, saturated⟩ : ∃ types, saturate f.rules (f.rules.length + 1) ∅ = some types :=
    exists_saturate (Finset.empty_subset _) (by simp)
  refine ⟨types, ?_, ?_⟩
  · rw [gatherTypes, gatherLoop_eq_saturate, saturated]
  · exact mem_saturate_iff (fun fact member => absurd member (Finset.notMem_empty fact)) saturated

end SpirvToDxil.PhiTypes
