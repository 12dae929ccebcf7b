import SpirvToDxil.Nir.GatherTypes

/-!
# The types of phis in the module

Part of `nir_to_dxil.c`. A value that feeds a phi is cast where it is defined to the type that was
gathered for it. A phi takes its type from the first of its sources that has been emitted, and gets
its incoming values once the whole function has been emitted.
-/

namespace SpirvToDxil.PhiTypes

/-- A `dxil_value`, told apart from others by a number. -/
structure Value where
  type : DxilType
  id : Nat
  deriving DecidableEq, Repr

/-- A `phi_block`, together with its instruction and the type that its components have. -/
structure PhiBlock where
  dest : Nat
  srcs : List PhiSrc
  type : DxilType
  comp : List Value
  deriving DecidableEq, Repr

/-- The members of `ntd_context` that emission of values changes: the channels of the SSA values,
the number of values so far, and the phis to fix up. -/
structure Context where
  defs : Nat → Nat → Option Value
  count : Nat
  phis : List PhiBlock

def Context.empty : Context := ⟨fun _ _ => none, 0, []⟩

def DxilType.nirType (type : DxilType) : AluBase :=
  match type.base with
  | .int => if type.bits = 1 then .bool else .int
  | .float => .float

def Base.aluBase : Base → AluBase
  | .int => .int
  | .float => .float

def Instr.phi? : Instr → Option (Nat × List PhiSrc)
  | phi dest srcs => some (dest, srcs)
  | _ => none

def Instr.takes (ssa : Nat) : Instr → Bool
  | phi _ srcs => srcs.any (fun src => src.ssa = ssa)
  | _ => false

def Function.isPhiSrc (f : Function) (ssa : Nat) : Bool := f.instrs.any (Instr.takes ssa)

/-- An integer is preferred if it could be both or if nothing is known. -/
def expectType (types : TypeBits) (ssa : Nat) : Base :=
  if (ssa, .int) ∈ types then .int
  else if (ssa, .float) ∈ types then .float
  else .int

section Emission

variable (f : Function) (types : TypeBits)

def Context.setChan (ctx : Context) (ssa chan : Nat) (value : Value) : Context :=
  { ctx with defs := fun ssa' chan' =>
      if ssa' = ssa ∧ chan' = chan then some value else ctx.defs ssa' chan' }

def storeSsaDef (ssa chan : Nat) (value : Value) (ctx : Context) : Option Context :=
  if f.isPhiSrc ssa then
    let expect := expectType types ssa
    if f.bitSize ssa = 1 ∧ expect ≠ .int then none
    else if f.bitSize ssa ≠ 1 ∧ expect.aluBase ≠ value.type.nirType then
      some ({ ctx with count := ctx.count + 1 }.setChan ssa chan
        ⟨⟨expect, f.bitSize ssa⟩, ctx.count⟩)
    else some (ctx.setChan ssa chan value)
  else some (ctx.setChan ssa chan value)

/-- New values of the given types for the channels from `chan` on. -/
def storeNew (ssa : Nat) : Nat → List DxilType → Context → Option (List Value × Context)
  | _, [], ctx => some ([], ctx)
  | chan, type :: rest, ctx => do
    let value : Value := ⟨type, ctx.count⟩
    let ctx ← storeSsaDef f types ssa chan value { ctx with count := ctx.count + 1 }
    let (values, ctx) ← storeNew ssa (chan + 1) rest ctx
    pure (value :: values, ctx)

/-- `emit_vec`, and `mov`, which has one component. -/
def emitVec (ssa : Nat) : Nat → List AluSrc → Context → Option Context
  | _, [], ctx => some ctx
  | chan, src :: srcs, ctx => do
    let value ← ctx.defs src.ssa src.swizzle
    let ctx ← storeSsaDef f types ssa chan value ctx
    emitVec ssa (chan + 1) srcs ctx

/-- The operands of `bcsel` are not cast to a type of the table: the second one follows the
first one. -/
def emitBcsel (ssa : Nat) (condition onTrue onFalse : AluSrc) (ctx : Context) :
    Option Context := do
  let src1 ← ctx.defs onTrue.ssa onTrue.swizzle
  let _ ← ctx.defs condition.ssa condition.swizzle
  let _ ← ctx.defs onFalse.ssa onFalse.swizzle
  let (_, ctx) ← storeNew f types ssa 0 [src1.type] ctx
  pure ctx

def typeForConst (ssa : Nat) : DxilType :=
  if (ssa, .int) ∈ types ∨ (ssa, .float) ∉ types then ⟨.int, f.bitSize ssa⟩
  else ⟨.float, f.bitSize ssa⟩

/-- The type that `emit_phi` picks. -/
def firstType (srcs : List PhiSrc) (ctx : Context) : Option DxilType :=
  srcs.findSome? (fun src => (ctx.defs src.ssa 0).map Value.type)

def emitPhi (dest : Nat) (srcs : List PhiSrc) (ctx : Context) : Option Context := do
  let type ← firstType srcs ctx
  let (values, ctx) ← storeNew f types dest 0 (List.replicate (f.numComponents dest) type) ctx
  pure { ctx with phis := ctx.phis ++ [⟨dest, srcs, type, values⟩] }

/-- `emit_instr`. An undefined value is a 32-bit zero, whatever its size. -/
def emitInstr (ctx : Context) : Instr → Option Context
  | .typed (some dest) _ _ produced => (storeNew f types dest 0 produced ctx).map Prod.snd
  | .typed none _ _ _ => some ctx
  | .vec dest srcs => emitVec f types dest 0 srcs ctx
  | .bcsel dest condition onTrue onFalse => emitBcsel f types dest condition onTrue onFalse ctx
  | .loadConst dest =>
    (storeNew f types dest 0 (List.replicate (f.numComponents dest) (typeForConst f types dest))
      ctx).map Prod.snd
  | .undef dest =>
    (storeNew f types dest 0 (List.replicate (f.numComponents dest) ⟨.int, 32⟩) ctx).map Prod.snd
  | .phi dest srcs => emitPhi f types dest srcs ctx

/-- `emit_cf_list` over the whole function, block after block. -/
def emitInstrs : Option Context := f.instrs.foldlM (emitInstr f types) Context.empty

end Emission

/-- `dxil_phi_add_incoming`, which asserts that the types are the one of the phi. -/
def phiAddIncoming (type : DxilType) (incoming added : List (Value × Nat)) :
    Option (List (Value × Nat)) :=
  if added ≠ [] ∧ ∀ entry ∈ added, entry.1.type = type then some (incoming ++ added) else none

/-- The loop of `fixup_phi` over the sources, which hands the incoming values on by sixteens. -/
def fixupLoop (ctx : Context) (type : DxilType) (chan : Nat) :
    List PhiSrc → List (Value × Nat) → List (Value × Nat) → Option (List (Value × Nat))
  | [], pending, incoming =>
    if 0 < pending.length then phiAddIncoming type incoming pending else some incoming
  | src :: srcs, pending, incoming => do
    let value ← ctx.defs src.ssa chan
    let pending := pending ++ [(value, src.pred)]
    if pending.length = 16 then
      let incoming ← phiAddIncoming type incoming pending
      fixupLoop ctx type chan srcs [] incoming
    else fixupLoop ctx type chan srcs pending incoming

/-- `fixup_phi`, component by component. -/
def fixupPhi (ctx : Context) (block : PhiBlock) : Option (List (List (Value × Nat))) :=
  (List.range block.comp.length).mapM
    (fun chan => fixupLoop ctx block.type chan block.srcs [] [])

def sourceEntries (ctx : Context) (chan : Nat) (srcs : List PhiSrc) :
    Option (List (Value × Nat)) :=
  srcs.mapM (fun src => (ctx.defs src.ssa chan).map (fun value => (value, src.pred)))

theorem fixupLoop_eq {ctx : Context} {type : DxilType} {chan : Nat} {srcs : List PhiSrc}
    {entries pending : List (Value × Nat)} (incoming : List (Value × Nat))
    (sources : sourceEntries ctx chan srcs = some entries)
    (typed : ∀ entry ∈ entries, entry.1.type = type)
    (pendingTyped : ∀ entry ∈ pending, entry.1.type = type) :
    fixupLoop ctx type chan srcs pending incoming = some (incoming ++ pending ++ entries) := by
  induction srcs generalizing entries pending incoming with
  | nil =>
      obtain rfl : [] = entries := Option.some.inj sources
      unfold fixupLoop
      rw [List.append_nil]
      cases pending with
      | nil => simp
      | cons entry pending =>
          rw [if_pos (List.length_pos_of_ne_nil (List.cons_ne_nil _ _)), phiAddIncoming, if_pos]
          exact ⟨List.cons_ne_nil _ _, pendingTyped⟩
  | cons src srcs inductionHypothesis =>
      obtain ⟨value, here, rest, later, rfl⟩ : ∃ value, ctx.defs src.ssa chan = some value ∧
          ∃ rest, sourceEntries ctx chan srcs = some rest ∧
              entries = (value, src.pred) :: rest := by
        simp only [sourceEntries, List.mapM_cons, Option.bind_eq_bind, Option.pure_def,
          Option.bind_eq_some_iff, Option.map_eq_some_iff, Option.some.injEq] at sources
        obtain ⟨_, ⟨value, here, rfl⟩, rest, later, rfl⟩ := sources
        exact ⟨value, here, rest, later, rfl⟩
      have restTyped : ∀ entry ∈ rest, entry.1.type = type :=
        fun entry member => typed entry (List.mem_cons_of_mem _ member)
      have pendingTyped' : ∀ entry ∈ pending ++ [(value, src.pred)], entry.1.type = type := by
        intro entry member
        rcases List.mem_append.mp member with old | new
        · exact pendingTyped entry old
        · rw [List.mem_singleton.mp new]
          exact typed _ List.mem_cons_self
      simp only [fixupLoop, here, Option.bind_eq_bind, Option.bind_some]
      split
      · have added : phiAddIncoming type incoming (pending ++ [(value, src.pred)]) =
            some (incoming ++ (pending ++ [(value, src.pred)])) :=
          if_pos ⟨List.append_ne_nil_of_right_ne_nil _ (List.cons_ne_nil _ _), pendingTyped'⟩
        rw [added, Option.bind_some, inductionHypothesis _ later restTyped
          (fun entry member => absurd member List.not_mem_nil)]
        simp
      · rw [inductionHypothesis _ later restTyped pendingTyped']
        simp

end SpirvToDxil.PhiTypes
