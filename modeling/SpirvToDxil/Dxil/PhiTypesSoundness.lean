import SpirvToDxil.Dxil.PhiTypes
import SpirvToDxil.Util.MapM

/-!
# Phis and their sources have one type

A value that feeds a phi knows exactly what the phi knows, so both are settled on one type. The
casts at the definitions make the values have it, and a phi takes it from whichever source has been
emitted first.
-/

namespace SpirvToDxil.PhiTypes

open Saturation

/-! ## Functions that are well formed -/

def dests (instrs : List Instr) : List Nat := instrs.filterMap Instr.dest?

/-- The values that an instruction needs when it is emitted. A phi needs one of its sources. -/
def Instr.Available (emitted : List Nat) : Instr → Prop
  | typed _ _ _ _ | loadConst _ | undef _ => True
  | vec _ srcs => ∀ src ∈ srcs, src.ssa ∈ emitted
  | bcsel _ condition onTrue onFalse =>
    condition.ssa ∈ emitted ∧ onTrue.ssa ∈ emitted ∧ onFalse.ssa ∈ emitted
  | phi _ srcs => ∃ src ∈ srcs, src.ssa ∈ emitted

/-- Every instruction has what it needs when its turn comes. -/
def AllAvailable : List Nat → List Instr → Prop
  | _, [] => True
  | emitted, instr :: rest =>
    instr.Available emitted ∧ AllAvailable (emitted ++ instr.dest?.toList) rest

/-- The sizes of operands and results, as the opcodes prescribe them: one bit is never a float, a
copy keeps its size, and a table gives every result a type of its size. -/
def Instr.Sized (f : Function) : Instr → Prop
  | typed dest destType srcs produced =>
    (∀ src ∈ srcs, src.2 = .float → f.bitSize src.1 ≠ 1) ∧
    ∀ ssa, dest = some ssa → (destType = .float → f.bitSize ssa ≠ 1) ∧
      produced.length = f.numComponents ssa ∧
      ∀ type ∈ produced, type.bits = f.bitSize ssa ∧ (f.bitSize ssa = 1 → type.base = .int)
  | vec dest srcs =>
    srcs.length = f.numComponents dest ∧
    ∀ src ∈ srcs, f.bitSize src.ssa = f.bitSize dest ∧ src.swizzle < f.numComponents src.ssa
  | bcsel dest condition onTrue onFalse =>
    f.numComponents dest = 1 ∧ condition.swizzle < f.numComponents condition.ssa ∧
    ∀ src ∈ [onTrue, onFalse],
      f.bitSize src.ssa = f.bitSize dest ∧ src.swizzle < f.numComponents src.ssa
  | loadConst _ | undef _ => True
  | phi dest srcs =>
    0 < f.numComponents dest ∧
    ∀ src ∈ srcs, f.bitSize src.ssa = f.bitSize dest ∧
    f.numComponents src.ssa = f.numComponents dest

/-- SSA form: a value has one definition, which comes before the uses in program order except for
back edges into phis. -/
structure WellFormed (f : Function) : Prop where
  unique : (dests f.instrs).Nodup
  available : AllAvailable [] f.instrs
  defined : ∀ dest srcs, .phi dest srcs ∈ f.instrs → ∀ src ∈ srcs, src.ssa ∈ dests f.instrs
  sized : ∀ instr ∈ f.instrs, instr.Sized f

/-- What `dxil_nir_move_consts` establishes. -/
def SingleUse (f : Function) : Prop :=
  ∀ dest, .loadConst dest ∈ f.instrs → (f.instrs.flatMap Instr.uses).count dest ≤ 1

/-! ## What is known of a value and of the phi that it feeds -/

section Gathered

variable {f : Function}

theorem mem_rules_of_mem {instr : Instr} {rule : Rule (Nat × Base)} (listed : instr ∈ f.instrs)
    (member : rule ∈ instr.rules f) : rule ∈ f.rules :=
  List.mem_flatMap.mpr ⟨instr, listed, member⟩

theorem mem_copyRules {src dst : Nat} {srcIsSink : Bool} {base : Base} {rule : Rule (Nat × Base)} :
    rule ∈ copyRules src dst srcIsSink base ↔
      rule = ⟨some (dst, base), (src, base)⟩ ∨
        srcIsSink = false ∧ rule = ⟨some (src, base), (dst, base)⟩ := by
  cases srcIsSink <;> simp [copyRules]

theorem mem_copiesRules {src dst : Nat} {rule : Rule (Nat × Base)} :
    rule ∈ copiesRules f src dst ↔ ∃ base, rule ∈ copyRules src dst (f.isSink src) base := by
  rw [copiesRules, List.mem_append]
  constructor
  · rintro (float | int)
    · exact ⟨.float, float⟩
    · exact ⟨.int, int⟩
  · rintro ⟨base, member⟩
    cases base with
    | int => exact Or.inr member
    | float => exact Or.inl member

theorem mem_setRules {idx : Nat} {type : AluBase} {rule : Rule (Nat × Base)} :
    rule ∈ setRules idx type ↔ ∃ base, rule = ⟨none, (idx, base)⟩ ∧
      (base = .float ↔ type = .float) ∧ type ≠ .invalid := by
  constructor
  · intro member
    cases type <;> simp only [setRules, List.mem_singleton, List.not_mem_nil] at member
    · exact ⟨.int, member, by decide, by decide⟩
    · exact ⟨.int, member, by decide, by decide⟩
    · exact ⟨.int, member, by decide, by decide⟩
    · exact ⟨.float, member, by decide, by decide⟩
  · rintro ⟨base, rfl, same, valid⟩
    cases type <;> cases base <;> simp_all [setRules]

/-- A phi learns what its source knows, unless the source only receives. -/
theorem derivable_phi_iff {dest : Nat} {srcs : List PhiSrc} (listed : .phi dest srcs ∈ f.instrs)
    {src : PhiSrc} (member : src ∈ srcs) (gives : f.isSink src.ssa = false) (base : Base) :
    Derivable f.rules (src.ssa, base) ↔ Derivable f.rules (dest, base) := by
  have copies (rule : Rule (Nat × Base))
      (copy : rule ∈ copyRules src.ssa dest (f.isSink src.ssa) base) : rule ∈ f.rules := by
    apply mem_rules_of_mem listed
    exact List.mem_flatMap.mpr ⟨src, member, mem_copiesRules.mpr ⟨base, copy⟩⟩
  constructor
  · intro known
    apply Derivable.rule (copies ⟨some (src.ssa, base), (dest, base)⟩ _)
    · intro fact premise
      cases premise
      exact known
    · exact mem_copyRules.mpr (Or.inr ⟨gives, rfl⟩)
  · intro known
    apply Derivable.rule (copies ⟨some (dest, base), (src.ssa, base)⟩ _)
    · intro fact premise
      cases premise
      exact known
    · exact mem_copyRules.mpr (Or.inl rfl)

theorem conclusion_mem {instr : Instr} {rule : Rule (Nat × Base)} (member : rule ∈ instr.rules f) :
    rule.conclusion.1 ∈ instr.uses ∨ instr.dest? = some rule.conclusion.1 := by
  have copy (src dst : Nat) (copied : rule ∈ copiesRules f src dst) :
      rule.conclusion.1 = src ∨ rule.conclusion.1 = dst := by
    obtain ⟨base, copied⟩ := mem_copiesRules.mp copied
    rcases mem_copyRules.mp copied with rfl | ⟨_, rfl⟩
    · exact Or.inl rfl
    · exact Or.inr rfl
  cases instr with
  | typed dest destType srcs produced =>
      rcases List.mem_append.mp member with read | made
      · obtain ⟨src, listed, set⟩ := List.mem_flatMap.mp read
        obtain ⟨base, rfl, _⟩ := mem_setRules.mp set
        exact Or.inl (List.mem_map_of_mem listed)
      · cases dest with
        | none => cases made
        | some dest =>
            obtain ⟨base, rfl, _⟩ := mem_setRules.mp made
            exact Or.inr rfl
  | vec dest srcs =>
      obtain ⟨src, listed, copied⟩ := List.mem_flatMap.mp member
      rcases copy src.ssa dest copied with same | same
      · exact Or.inl (List.mem_map.mpr ⟨src, listed, same.symm⟩)
      · exact Or.inr (congrArg some same.symm)
  | bcsel dest condition onTrue onFalse =>
      rcases List.mem_append.mp member with set | copied
      · obtain ⟨base, rfl, _⟩ := mem_setRules.mp set
        exact Or.inl List.mem_cons_self
      · rcases List.mem_append.mp copied with copied | copied
        · rcases copy onTrue.ssa dest copied with same | same
          · left
            rw [same]
            exact List.mem_cons_of_mem _ List.mem_cons_self
          · exact Or.inr (congrArg some same.symm)
        · rcases copy onFalse.ssa dest copied with same | same
          · left
            rw [same]
            exact List.mem_cons_of_mem _ (List.mem_cons_of_mem _ List.mem_cons_self)
          · exact Or.inr (congrArg some same.symm)
  | loadConst dest => cases member
  | undef dest => cases member
  | phi dest srcs =>
      obtain ⟨src, listed, copied⟩ := List.mem_flatMap.mp member
      rcases copy src.ssa dest copied with same | same
      · exact Or.inl (List.mem_map.mpr ⟨src, listed, same.symm⟩)
      · exact Or.inr (congrArg some same.symm)

theorem eq_of_dest {instrs : List Instr} (unique : (dests instrs).Nodup) {instr other : Instr}
    (listed : instr ∈ instrs) (otherListed : other ∈ instrs) {ssa : Nat}
    (makes : instr.dest? = some ssa) (otherMakes : other.dest? = some ssa) : instr = other := by
  induction instrs with
  | nil => cases listed
  | cons first instrs inductionHypothesis =>
      have later (instr : Instr) (listed : instr ∈ instrs) (makes : instr.dest? = some ssa) :
          ssa ∈ dests instrs := List.mem_filterMap.mpr ⟨instr, listed, makes⟩
      have split (here : first.dest? = some ssa) : ssa ∉ dests instrs := by
        rw [dests, List.filterMap_cons, here] at unique
        exact (List.nodup_cons.mp unique).1
      rcases List.mem_cons.mp listed with rfl | inside
      · rcases List.mem_cons.mp otherListed with rfl | otherInside
        · rfl
        · exact absurd (later other otherInside otherMakes) (split makes)
      · rcases List.mem_cons.mp otherListed with rfl | otherInside
        · exact absurd (later instr inside makes) (split otherMakes)
        · apply inductionHypothesis _ inside otherInside
          rw [dests, List.filterMap_cons] at unique
          split at unique
          · exact unique
          · exact (List.nodup_cons.mp unique).2

theorem eq_of_use {instrs : List Instr} {ssa : Nat}
    (single : (instrs.flatMap Instr.uses).count ssa ≤ 1) {instr other : Instr}
    (listed : instr ∈ instrs) (otherListed : other ∈ instrs) (uses : ssa ∈ instr.uses)
    (otherUses : ssa ∈ other.uses) : instr = other := by
  induction instrs with
  | nil => cases listed
  | cons first instrs inductionHypothesis =>
      rw [List.flatMap_cons, List.count_append] at single
      have later (instr : Instr) (listed : instr ∈ instrs) (uses : ssa ∈ instr.uses) :
          0 < (instrs.flatMap Instr.uses).count ssa :=
        List.count_pos_iff.mpr (List.mem_flatMap.mpr ⟨instr, listed, uses⟩)
      rcases List.mem_cons.mp listed with rfl | inside
      · rcases List.mem_cons.mp otherListed with rfl | otherInside
        · rfl
        · have here := List.count_pos_iff.mpr uses
          have there := later other otherInside otherUses
          omega
      · rcases List.mem_cons.mp otherListed with rfl | otherInside
        · have here := List.count_pos_iff.mpr otherUses
          have there := later instr inside uses
          omega
        · exact inductionHypothesis (by omega) inside otherInside

/-- A constant with one use learns nothing but what the phi knows that uses it. -/
theorem derivable_const (unique : (dests f.instrs).Nodup) (single : SingleUse f) {dest : Nat}
    {srcs : List PhiSrc} (listed : .phi dest srcs ∈ f.instrs) {src : PhiSrc} (member : src ∈ srcs)
    (isConst : .loadConst src.ssa ∈ f.instrs) {base : Base}
    (known : Derivable f.rules (src.ssa, base)) : Derivable f.rules (dest, base) := by
  generalize equal : (src.ssa, base) = fact at known
  cases known with
  | @rule rule ruleListed premise =>
      obtain ⟨instr, instrListed, fromInstr⟩ := List.mem_flatMap.mp ruleListed
      have same : rule.conclusion.1 = src.ssa := by rw [← equal]
      have notMade : instr.dest? ≠ some src.ssa := by
        intro makes
        rw [eq_of_dest unique instrListed isConst makes rfl] at fromInstr
        cases fromInstr
      rcases conclusion_mem fromInstr with uses | makes
      · rw [same] at uses
        have isPhi : instr = .phi dest srcs := by
          apply eq_of_use (single src.ssa isConst) instrListed listed uses
          exact List.mem_map_of_mem member
        subst isPhi
        obtain ⟨other, _, copied⟩ := List.mem_flatMap.mp fromInstr
        obtain ⟨base', copied⟩ := mem_copiesRules.mp copied
        rcases mem_copyRules.mp copied with rfl | ⟨_, rfl⟩
        · have sameBase : base = base' := congrArg Prod.snd equal
          rw [sameBase]
          exact premise (dest, base') rfl
        · exact absurd (congrArg some same) notMade
      · rw [same] at makes
        exact absurd makes notMade

/-- What is recorded as a float has more than one bit, also after copies. -/
theorem bitSize_of_float (sized : ∀ instr ∈ f.instrs, instr.Sized f) {fact : Nat × Base}
    (known : Derivable f.rules fact) (isFloat : fact.2 = .float) : f.bitSize fact.1 ≠ 1 := by
  induction known with
  | @rule rule ruleListed premise inductionHypothesis =>
      obtain ⟨instr, listed, fromInstr⟩ := List.mem_flatMap.mp ruleListed
      have copy (src dst : Nat) (same : f.bitSize src = f.bitSize dst)
          (copied : rule ∈ copiesRules f src dst) : f.bitSize rule.conclusion.1 ≠ 1 := by
        obtain ⟨base, copied⟩ := mem_copiesRules.mp copied
        rcases mem_copyRules.mp copied with rfl | ⟨_, rfl⟩
        · have fits := inductionHypothesis (dst, base) rfl isFloat
          rwa [← same] at fits
        · have fits := inductionHypothesis (src, base) rfl isFloat
          rwa [same] at fits
      have set (idx : Nat) (type : AluBase) (fits : type = .float → f.bitSize idx ≠ 1)
          (isSet : rule ∈ setRules idx type) : f.bitSize rule.conclusion.1 ≠ 1 := by
        obtain ⟨base, rfl, same, _⟩ := mem_setRules.mp isSet
        exact fits (same.mp isFloat)
      have fits := sized instr listed
      cases instr with
      | typed dest destType srcs produced =>
          rcases List.mem_append.mp fromInstr with read | made
          · obtain ⟨src, member, isSet⟩ := List.mem_flatMap.mp read
            exact set src.1 src.2 (fits.1 src member) isSet
          · cases dest with
            | none => cases made
            | some dest => exact set dest destType (fits.2 dest rfl).1 made
      | vec dest srcs =>
          obtain ⟨src, member, copied⟩ := List.mem_flatMap.mp fromInstr
          exact copy src.ssa dest (fits.2 src member).1 copied
      | bcsel dest condition onTrue onFalse =>
          rcases List.mem_append.mp fromInstr with isSet | copied
          · exact set condition.ssa .bool nofun isSet
          · rcases List.mem_append.mp copied with copied | copied
            · exact copy onTrue.ssa dest (fits.2.2 onTrue (by simp)).1 copied
            · exact copy onFalse.ssa dest (fits.2.2 onFalse (by simp)).1 copied
      | loadConst dest => cases fromInstr
      | undef dest => cases fromInstr
      | phi dest srcs =>
          obtain ⟨src, member, copied⟩ := List.mem_flatMap.mp fromInstr
          exact copy src.ssa dest (fits.2 src member).1 copied

end Gathered

/-! ## Where the definitions settle -/

/-- The type that a value has wherever it feeds a phi. -/
def settled (f : Function) (types : TypeBits) (ssa : Nat) : DxilType :=
  ⟨expectType types ssa, f.bitSize ssa⟩

/-- Undefined values are 32-bit zeros when they are emitted, and a phi that takes one is to be
expected of the same type. -/
structure UndefsFit (f : Function) : Prop where
  bitSize_eq : ∀ ssa, .undef ssa ∈ f.instrs → f.bitSize ssa = 32
  expected : ∀ ssa, .undef ssa ∈ f.instrs → ∀ types, gatherTypes f = some types →
    ∀ dest srcs, .phi dest srcs ∈ f.instrs → ssa ∈ srcs.map PhiSrc.ssa →
      expectType types ssa = expectType types dest

/-- `nir_lower_undef_to_zero` leaves no undefined value. -/
theorem undefsFit_of_none {f : Function} (none : ∀ ssa, .undef ssa ∉ f.instrs) : UndefsFit f :=
  ⟨fun ssa listed => absurd listed (none ssa), fun ssa listed => absurd listed (none ssa)⟩

theorem expectType_congr {types : TypeBits} {ssa other : Nat}
    (same : ∀ base, (ssa, base) ∈ types ↔ (other, base) ∈ types) :
    expectType types ssa = expectType types other := by
  simp only [expectType, same]

theorem settled_src {f : Function} (wellFormed : WellFormed f) (single : SingleUse f)
    (undefs : UndefsFit f) {types : TypeBits} (gathered : gatherTypes f = some types)
    (known : ∀ fact, fact ∈ types ↔ Derivable f.rules fact) {dest : Nat} {srcs : List PhiSrc}
    (listed : .phi dest srcs ∈ f.instrs) {src : PhiSrc} (member : src ∈ srcs) :
    settled f types src.ssa = settled f types dest := by
  have size := ((wellFormed.sized _ listed).2 src member).1
  have expect : expectType types src.ssa = expectType types dest := by
    cases sink : f.isSink src.ssa with
    | false =>
        apply expectType_congr
        intro base
        rw [known, known]
        exact derivable_phi_iff listed member sink base
    | true =>
        obtain ⟨instr, instrListed, source⟩ := List.any_eq_true.mp sink
        cases instr with
        | loadConst ssa =>
            obtain rfl : ssa = src.ssa := of_decide_eq_true source
            apply expectType_congr
            intro base
            rw [known, known]
            constructor
            · exact derivable_const wellFormed.unique single listed member instrListed
            · intro phiKnown
              have copied : (⟨some (dest, base), (src.ssa, base)⟩ : Rule (Nat × Base)) ∈
                  f.rules := by
                apply mem_rules_of_mem listed
                apply List.mem_flatMap.mpr
                exact ⟨src, member, mem_copiesRules.mpr ⟨base, mem_copyRules.mpr (Or.inl rfl)⟩⟩
              apply Derivable.rule copied
              intro fact premise
              cases premise
              exact phiKnown
        | undef ssa =>
            obtain rfl : ssa = src.ssa := of_decide_eq_true source
            apply undefs.expected _ instrListed types gathered dest srcs listed
            exact List.mem_map_of_mem member
        | typed _ _ _ _ => cases source
        | vec _ _ => cases source
        | bcsel _ _ _ _ => cases source
        | phi _ _ => cases source
  unfold settled
  rw [expect, size]

/-- The type has the size of the value, and one bit is an integer. -/
structure Fits (f : Function) (ssa : Nat) (type : DxilType) : Prop where
  bits : type.bits = f.bitSize ssa
  oneBit : f.bitSize ssa = 1 → type.base = .int

theorem Fits.congr {f : Function} {ssa other : Nat} {type : DxilType} (fits : Fits f ssa type)
    (size : f.bitSize ssa = f.bitSize other) : Fits f other type := by
  constructor
  · rw [← size]
    exact fits.bits
  · rw [← size]
    exact fits.oneBit

section Emission

variable {f : Function} {types : TypeBits}

structure Holds (f : Function) (types : TypeBits) (ssa : Nat) (value : Value) : Prop where
  fits : Fits f ssa value.type
  settles : f.isPhiSrc ssa = true → value.type = settled f types ssa

def AllHold (f : Function) (types : TypeBits) (ctx : Context) : Prop :=
  ∀ ssa chan value, ctx.defs ssa chan = some value → Holds f types ssa value

/-- The channels of a value from `low` to `high` get set; the others stay set. -/
structure Stored (f : Function) (types : TypeBits) (ssa low high : Nat) (ctx ctx' : Context) :
    Prop where
  holds : AllHold f types ctx → AllHold f types ctx'
  keeps : ∀ other chan, (ctx.defs other chan).isSome → (ctx'.defs other chan).isSome
  fills : ∀ chan, low ≤ chan → chan < high → (ctx'.defs ssa chan).isSome
  phis : ctx'.phis = ctx.phis

theorem Stored.refl (ssa low : Nat) (ctx : Context) : Stored f types ssa low low ctx ctx :=
  ⟨id, fun _ _ => id, fun _ above below => absurd below (Nat.not_lt.mpr above), rfl⟩

theorem Stored.trans {ssa low middle high : Nat} {ctx between ctx' : Context}
    (first : Stored f types ssa low middle ctx between)
    (second : Stored f types ssa middle high between ctx') :
    Stored f types ssa low high ctx ctx' := by
  refine ⟨second.holds ∘ first.holds, ?_, ?_, second.phis.trans first.phis⟩
  · intro other chan set
    exact second.keeps other chan (first.keeps other chan set)
  · intro chan above below
    rcases Nat.lt_or_ge chan middle with before | behind
    · exact second.keeps ssa chan (first.fills chan above before)
    · exact second.fills chan behind below

theorem stored_setChan (ctx : Context) {ssa chan count : Nat} {value : Value}
    (holds : Holds f types ssa value) :
    Stored f types ssa chan (chan + 1) ctx ({ ctx with count }.setChan ssa chan value) := by
  refine ⟨?_, ?_, ?_, rfl⟩
  · intro before other chan' value' found
    simp only [Context.setChan] at found
    split at found
    · next here =>
      cases found
      rw [here.1]
      exact holds
    · exact before other chan' value' found
  · intro other chan' set
    simp only [Context.setChan]
    split
    · rfl
    · exact set
  · intro chan' above below
    obtain rfl : chan' = chan := by omega
    simp [Context.setChan]

theorem nirType_ne_iff {type : DxilType} (wide : type.bits ≠ 1) (base : Base) :
    base.aluBase ≠ type.nirType ↔ base ≠ type.base := by
  obtain ⟨typeBase, bits⟩ := type
  cases base <;> cases typeBase <;> simp [Base.aluBase, DxilType.nirType, wide]

theorem storeSsaDef_spec {ssa : Nat} (oneBit : f.bitSize ssa = 1 → expectType types ssa = .int)
    (value : Value) (fits : Fits f ssa value.type) (chan : Nat) (ctx : Context) :
    ∃ ctx', storeSsaDef f types ssa chan value ctx = some ctx' ∧
      Stored f types ssa chan (chan + 1) ctx ctx' := by
  unfold storeSsaDef
  by_cases feeds : f.isPhiSrc ssa = true
  · have noFailure : ¬ (f.bitSize ssa = 1 ∧ expectType types ssa ≠ .int) :=
      fun failure => failure.2 (oneBit failure.1)
    rw [if_pos feeds]
    simp only [if_neg noFailure]
    split
    · next cast =>
      refine ⟨_, rfl, stored_setChan ctx ⟨⟨rfl, fun narrow => absurd narrow cast.1⟩, fun _ => rfl⟩⟩
    · next same =>
      refine ⟨_, rfl, stored_setChan ctx ⟨fits, ?_⟩⟩
      intro _
      have base : value.type.base = expectType types ssa := by
        by_cases narrow : f.bitSize ssa = 1
        · rw [oneBit narrow, fits.oneBit narrow]
        · by_contra different
          apply same
          refine ⟨narrow, (nirType_ne_iff ?_ _).mpr (Ne.symm different)⟩
          rwa [fits.bits]
      unfold settled
      rw [← base, ← fits.bits]
  · rw [if_neg feeds]
    exact ⟨_, rfl, stored_setChan ctx ⟨fits, fun does => absurd does feeds⟩⟩

theorem storeNew_spec {ssa : Nat} (oneBit : f.bitSize ssa = 1 → expectType types ssa = .int)
    {list : List DxilType} (fits : ∀ type ∈ list, Fits f ssa type) (chan : Nat) (ctx : Context) :
    ∃ values ctx', storeNew f types ssa chan list ctx = some (values, ctx') ∧
      values.length = list.length ∧ Stored f types ssa chan (chan + list.length) ctx ctx' := by
  induction list generalizing chan ctx with
  | nil => exact ⟨[], ctx, rfl, rfl, Stored.refl ssa chan ctx⟩
  | cons type list inductionHypothesis =>
      obtain ⟨between, stored, first⟩ := storeSsaDef_spec oneBit
        ⟨type, ctx.count⟩ (fits type List.mem_cons_self) chan
        { ctx with count := ctx.count + 1 }
      obtain ⟨values, ctx', rest, length, second⟩ := inductionHypothesis
        (fun type member => fits type (List.mem_cons_of_mem _ member)) (chan + 1) between
      refine ⟨⟨type, ctx.count⟩ :: values, ctx', ?_, ?_, ?_⟩
      · simp [storeNew, stored, rest]
      · rw [List.length_cons, List.length_cons, length]
      · have all := first.trans second
        have ends : chan + 1 + list.length = chan + (list.length + 1) := by omega
        rw [List.length_cons, ← ends]
        exact ⟨all.holds, all.keeps, all.fills, all.phis⟩

theorem emitVec_spec {ssa : Nat} (oneBit : f.bitSize ssa = 1 → expectType types ssa = .int)
    {srcs : List AluSrc} (sizes : ∀ src ∈ srcs, f.bitSize src.ssa = f.bitSize ssa) (chan : Nat)
    {ctx : Context} (available : ∀ src ∈ srcs, (ctx.defs src.ssa src.swizzle).isSome)
    (holds : AllHold f types ctx) :
    ∃ ctx', emitVec f types ssa chan srcs ctx = some ctx' ∧
      Stored f types ssa chan (chan + srcs.length) ctx ctx' := by
  induction srcs generalizing chan ctx with
  | nil => exact ⟨ctx, rfl, Stored.refl ssa chan ctx⟩
  | cons src srcs inductionHypothesis =>
      obtain ⟨value, found⟩ := Option.isSome_iff_exists.mp (available src List.mem_cons_self)
      have fits : Fits f ssa value.type :=
        (holds src.ssa src.swizzle value found).fits.congr (sizes src List.mem_cons_self)
      obtain ⟨between, stored, first⟩ := storeSsaDef_spec oneBit value fits chan ctx
      obtain ⟨ctx', rest, second⟩ := inductionHypothesis
        (fun src member => sizes src (List.mem_cons_of_mem _ member)) (chan + 1)
        (fun src member => first.keeps _ _ (available src (List.mem_cons_of_mem _ member)))
        (first.holds holds)
      refine ⟨ctx', ?_, ?_⟩
      · simp [emitVec, found, stored, rest]
      · have ends : chan + 1 + srcs.length = chan + (srcs.length + 1) := by omega
        rw [List.length_cons, ← ends]
        exact first.trans second

theorem emitBcsel_spec {ssa : Nat} (oneBit : f.bitSize ssa = 1 → expectType types ssa = .int)
    {condition onTrue onFalse : AluSrc} (size : f.bitSize onTrue.ssa = f.bitSize ssa)
    {ctx : Context}
    (available : ∀ src ∈ [condition, onTrue, onFalse], (ctx.defs src.ssa src.swizzle).isSome)
    (holds : AllHold f types ctx) :
    ∃ ctx', emitBcsel f types ssa condition onTrue onFalse ctx = some ctx' ∧
      Stored f types ssa 0 1 ctx ctx' := by
  obtain ⟨test, testFound⟩ := Option.isSome_iff_exists.mp (available condition (by simp))
  obtain ⟨src1, found⟩ := Option.isSome_iff_exists.mp (available onTrue (by simp))
  obtain ⟨src2, otherFound⟩ := Option.isSome_iff_exists.mp (available onFalse (by simp))
  have fits : ∀ type ∈ [src1.type], Fits f ssa type := by
    intro type member
    rw [List.mem_singleton.mp member]
    exact (holds onTrue.ssa onTrue.swizzle src1 found).fits.congr size
  obtain ⟨values, ctx', stored, _, all⟩ := storeNew_spec oneBit fits 0 ctx
  refine ⟨ctx', ?_, all⟩
  simp [emitBcsel, testFound, found, otherFound, stored]

theorem firstType_spec {dest : Nat} {srcs : List PhiSrc}
    (agree : ∀ src ∈ srcs, settled f types src.ssa = settled f types dest)
    (feeds : ∀ src ∈ srcs, f.isPhiSrc src.ssa = true) {ctx : Context}
    (available : ∃ src ∈ srcs, (ctx.defs src.ssa 0).isSome) (holds : AllHold f types ctx) :
    firstType srcs ctx = some (settled f types dest) := by
  unfold firstType
  induction srcs with
  | nil =>
      obtain ⟨src, member, _⟩ := available
      cases member
  | cons src srcs inductionHypothesis =>
      cases found : ctx.defs src.ssa 0 with
      | none =>
          rw [List.findSome?_cons_of_isNone (by simp [found])]
          apply inductionHypothesis
          · exact fun src member => agree src (List.mem_cons_of_mem _ member)
          · exact fun src member => feeds src (List.mem_cons_of_mem _ member)
          · obtain ⟨other, member, set⟩ := available
            rcases List.mem_cons.mp member with rfl | member
            · rw [found] at set
              cases set
            · exact ⟨other, member, set⟩
      | some value =>
          have type := (holds src.ssa 0 value found).settles (feeds src List.mem_cons_self)
          rw [List.findSome?_cons_of_isSome (by simp [found]), found, Option.map_some, type,
            agree src List.mem_cons_self]

/-- After the instructions of `front`: every channel holds what it should, the values that they
make are there, and their phis are recorded with the types that they settle on. -/
structure Emitted (f : Function) (types : TypeBits) (front : List Instr) (ctx : Context) :
    Prop where
  holds : AllHold f types ctx
  available : ∀ ssa ∈ dests front, ∀ chan < f.numComponents ssa, (ctx.defs ssa chan).isSome
  recorded : ctx.phis.map (fun block => (block.dest, block.srcs)) = front.filterMap Instr.phi?
  typed : ∀ block ∈ ctx.phis, block.type = settled f types block.dest ∧
    block.comp.length = f.numComponents block.dest

theorem emitted_nil : Emitted f types [] Context.empty :=
  ⟨nofun, nofun, rfl, nofun⟩

theorem dests_append (front : List Instr) (instr : Instr) :
    dests (front ++ [instr]) = dests front ++ instr.dest?.toList := by
  unfold dests
  rw [List.filterMap_append, List.filterMap_cons, List.filterMap_nil]
  cases instr.dest? <;> rfl

theorem Emitted.available_append {front : List Instr} {ctx ctx' : Context}
    (emitted : Emitted f types front ctx) {instr : Instr} {ssa : Nat}
    (makes : instr.dest? = some ssa)
    (stored : Stored f types ssa 0 (f.numComponents ssa) ctx ctx') :
    ∀ ssa ∈ dests (front ++ [instr]), ∀ chan < f.numComponents ssa,
      (ctx'.defs ssa chan).isSome := by
  intro other member chan inside
  rw [dests_append, makes] at member
  rcases List.mem_append.mp member with old | new
  · exact stored.keeps other chan (emitted.available other old chan inside)
  · obtain rfl : other = ssa := by simpa using new
    exact stored.fills chan (Nat.zero_le chan) inside

theorem Emitted.store {front : List Instr} {ctx ctx' : Context}
    (emitted : Emitted f types front ctx) {instr : Instr} {ssa : Nat}
    (makes : instr.dest? = some ssa) (noPhi : instr.phi? = none)
    (stored : Stored f types ssa 0 (f.numComponents ssa) ctx ctx') :
    Emitted f types (front ++ [instr]) ctx' := by
  refine ⟨stored.holds emitted.holds, emitted.available_append makes stored, ?_, ?_⟩
  · rw [stored.phis, emitted.recorded, List.filterMap_append, List.filterMap_cons, noPhi]
    simp
  · rw [stored.phis]
    exact emitted.typed

theorem isPhiSrc_of_mem {dest : Nat} {srcs : List PhiSrc} (listed : .phi dest srcs ∈ f.instrs)
    {src : PhiSrc} (member : src ∈ srcs) : f.isPhiSrc src.ssa = true := by
  apply List.any_eq_true.mpr
  refine ⟨.phi dest srcs, listed, ?_⟩
  exact List.any_eq_true.mpr ⟨src, member, decide_eq_true rfl⟩

/-- What the gathered types have to be like for the emission to go through. -/
structure Settles (f : Function) (types : TypeBits) : Prop where
  oneBit : ∀ ssa, f.bitSize ssa = 1 → expectType types ssa = .int
  agree : ∀ dest srcs, .phi dest srcs ∈ f.instrs → ∀ src ∈ srcs,
    settled f types src.ssa = settled f types dest

theorem settles_of_gathered (wellFormed : WellFormed f) (single : SingleUse f)
    (undefs : UndefsFit f) (gathered : gatherTypes f = some types)
    (known : ∀ fact, fact ∈ types ↔ Derivable f.rules fact) : Settles f types := by
  constructor
  · intro ssa narrow
    have notFloat : (ssa, Base.float) ∉ types := by
      intro isFloat
      exact bitSize_of_float wellFormed.sized ((known _).mp isFloat) rfl narrow
    simp [expectType, notFloat]
  · intro dest srcs listed src member
    exact settled_src wellFormed single undefs gathered known listed member

theorem fits_typeForConst (settles : Settles f types) (ssa : Nat) :
    Fits f ssa (typeForConst f types ssa) := by
  unfold typeForConst
  split
  · exact ⟨rfl, fun _ => rfl⟩
  · next isFloat =>
    refine ⟨rfl, fun narrow => ?_⟩
    have int := settles.oneBit ssa narrow
    simp only [not_or, not_not] at isFloat
    simp [expectType, isFloat] at int

theorem emitPhi_spec (settles : Settles f types) {dest : Nat} {srcs : List PhiSrc}
    (listed : .phi dest srcs ∈ f.instrs) (sized : (Instr.phi dest srcs).Sized f)
    {front : List Instr} (available : (Instr.phi dest srcs).Available (dests front))
    {ctx : Context} (emitted : Emitted f types front ctx) :
    ∃ ctx', emitPhi f types dest srcs ctx = some ctx' ∧
      Emitted f types (front ++ [.phi dest srcs]) ctx' := by
  have first : firstType srcs ctx = some (settled f types dest) := by
    apply firstType_spec (settles.agree dest srcs listed)
    · exact fun src member => isPhiSrc_of_mem listed member
    · obtain ⟨src, member, before⟩ := available
      refine ⟨src, member, emitted.available src.ssa before 0 ?_⟩
      rw [(sized.2 src member).2]
      exact sized.1
    · exact emitted.holds
  have fits : ∀ type ∈ List.replicate (f.numComponents dest) (settled f types dest),
      Fits f dest type := by
    intro type member
    rw [List.eq_of_mem_replicate member]
    exact ⟨rfl, settles.oneBit dest⟩
  obtain ⟨values, ctx', stored, length, all⟩ :=
    storeNew_spec (settles.oneBit dest) fits 0 ctx
  rw [List.length_replicate] at length all
  rw [Nat.zero_add] at all
  refine ⟨{ ctx' with phis := ctx'.phis ++ [⟨dest, srcs, settled f types dest, values⟩] }, ?_, ?_⟩
  · simp [emitPhi, first, stored]
  · have present := emitted.available_append (rfl : (Instr.phi dest srcs).dest? = some dest) all
    refine ⟨all.holds emitted.holds, present, ?_, ?_⟩
    · rw [List.map_append, all.phis, emitted.recorded, List.filterMap_append]
      rfl
    · intro block member
      rcases List.mem_append.mp member with old | new
      · rw [all.phis] at old
        exact emitted.typed block old
      · rw [List.mem_singleton.mp new]
        exact ⟨rfl, length⟩

theorem emitInstr_spec (settles : Settles f types)
    (undefs : ∀ ssa, .undef ssa ∈ f.instrs → f.bitSize ssa = 32) {instr : Instr}
    (listed : instr ∈ f.instrs) (sized : instr.Sized f) {front : List Instr}
    (available : instr.Available (dests front)) {ctx : Context}
    (emitted : Emitted f types front ctx) :
    ∃ ctx', emitInstr f types ctx instr = some ctx' ∧ Emitted f types (front ++ [instr]) ctx' := by
  cases instr with
  | typed dest destType srcs produced =>
      cases dest with
      | none =>
          refine ⟨ctx, rfl, emitted.holds, ?_, ?_, emitted.typed⟩
          · rw [dests_append]
            simpa [Instr.dest?] using emitted.available
          · rw [emitted.recorded, List.filterMap_append]
            simp [Instr.phi?]
      | some dest =>
          obtain ⟨_, length, types'⟩ := sized.2 dest rfl
          obtain ⟨values, ctx', stored, _, all⟩ := storeNew_spec (settles.oneBit dest)
            (fun type member => ⟨(types' type member).1, (types' type member).2⟩) 0 ctx
          rw [length, Nat.zero_add] at all
          refine ⟨ctx', ?_, emitted.store rfl rfl all⟩
          simp [emitInstr, stored]
  | vec dest srcs =>
      obtain ⟨ctx', stored, all⟩ := emitVec_spec (settles.oneBit dest)
        (fun src member => (sized.2 src member).1) 0
        (fun src member => emitted.available src.ssa (available src member) src.swizzle
          (sized.2 src member).2) emitted.holds
      rw [sized.1, Nat.zero_add] at all
      exact ⟨ctx', stored, emitted.store rfl rfl all⟩
  | bcsel dest condition onTrue onFalse =>
      obtain ⟨one, conditionInside, srcs⟩ := sized
      obtain ⟨testBefore, trueBefore, falseBefore⟩ := available
      have set : ∀ src ∈ [condition, onTrue, onFalse],
          (ctx.defs src.ssa src.swizzle).isSome := by
        simp only [List.forall_mem_cons, List.not_mem_nil, false_implies, implies_true, and_true]
          at srcs ⊢
        exact ⟨emitted.available _ testBefore _ conditionInside,
          emitted.available _ trueBefore _ srcs.1.2, emitted.available _ falseBefore _ srcs.2.2⟩
      obtain ⟨ctx', stored, all⟩ := emitBcsel_spec (settles.oneBit dest)
        (srcs onTrue List.mem_cons_self).1 set emitted.holds
      rw [← one] at all
      exact ⟨ctx', stored, emitted.store rfl rfl all⟩
  | loadConst dest =>
      have fits : ∀ type ∈ List.replicate (f.numComponents dest) (typeForConst f types dest),
          Fits f dest type := by
        intro type member
        rw [List.eq_of_mem_replicate member]
        exact fits_typeForConst settles dest
      obtain ⟨values, ctx', stored, _, all⟩ := storeNew_spec (settles.oneBit dest) fits 0 ctx
      rw [List.length_replicate, Nat.zero_add] at all
      refine ⟨ctx', ?_, emitted.store rfl rfl all⟩
      simp [emitInstr, stored]
  | undef dest =>
      have fits : ∀ type ∈ List.replicate (f.numComponents dest) ⟨.int, 32⟩, Fits f dest type := by
        intro type member
        rw [List.eq_of_mem_replicate member]
        exact ⟨(undefs dest listed).symm, fun _ => rfl⟩
      obtain ⟨values, ctx', stored, _, all⟩ := storeNew_spec (settles.oneBit dest) fits 0 ctx
      rw [List.length_replicate, Nat.zero_add] at all
      refine ⟨ctx', ?_, emitted.store rfl rfl all⟩
      simp [emitInstr, stored]
  | phi dest srcs => exact emitPhi_spec settles listed sized available emitted

theorem emitInstrs_spec (wellFormed : WellFormed f) (settles : Settles f types)
    (undefs : ∀ ssa, .undef ssa ∈ f.instrs → f.bitSize ssa = 32) :
    ∃ ctx, emitInstrs f types = some ctx ∧ Emitted f types f.instrs ctx := by
  have run (back front : List Instr) (listed : ∀ instr ∈ back, instr ∈ f.instrs)
      (available : AllAvailable (dests front) back) (ctx : Context)
      (emitted : Emitted f types front ctx) :
      ∃ ctx', back.foldlM (emitInstr f types) ctx = some ctx' ∧
        Emitted f types (front ++ back) ctx' := by
    induction back generalizing front ctx with
    | nil => exact ⟨ctx, rfl, by rwa [List.append_nil]⟩
    | cons instr back inductionHypothesis =>
        have here : instr ∈ f.instrs := listed instr List.mem_cons_self
        obtain ⟨between, stepped, emitted⟩ := emitInstr_spec settles undefs here
          (wellFormed.sized instr here) available.1 emitted
        have rest := available.2
        rw [← dests_append] at rest
        obtain ⟨ctx', ran, emitted⟩ := inductionHypothesis (front ++ [instr])
          (fun other member => listed other (List.mem_cons_of_mem _ member)) rest between emitted
        rw [List.append_assoc, List.singleton_append] at emitted
        refine ⟨ctx', ?_, emitted⟩
        rw [List.foldlM_cons, stepped]
        exact ran
  exact run f.instrs [] (fun _ member => member) wellFormed.available Context.empty emitted_nil

end Emission

/-! ## Phis and their sources -/

/-- The function is emitted with all its phis, every source of a phi has the type of the phi in
every component, and each component gets the value and the predecessor of each source once. -/
def PhisAgree (f : Function) : Prop :=
  ∃ types ctx, gatherTypes f = some types ∧ emitInstrs f types = some ctx ∧
    ctx.phis.map (fun block => (block.dest, block.srcs)) = f.instrs.filterMap Instr.phi? ∧
    ∀ block ∈ ctx.phis,
      (∀ src ∈ block.srcs, ∀ chan < f.numComponents block.dest,
        ∃ value, ctx.defs src.ssa chan = some value ∧ value.type = block.type) ∧
      ∃ incoming, fixupPhi ctx block = some incoming ∧
        incoming.length = f.numComponents block.dest ∧
        ∀ chan < f.numComponents block.dest,
          incoming[chan]? = sourceEntries ctx chan block.srcs

theorem exists_sourceEntries {ctx : Context} {chan : Nat} {srcs : List PhiSrc} {type : DxilType}
    (typed : ∀ src ∈ srcs, ∃ value, ctx.defs src.ssa chan = some value ∧ value.type = type) :
    ∃ entries, sourceEntries ctx chan srcs = some entries ∧
      ∀ entry ∈ entries, entry.1.type = type := by
  induction srcs with
  | nil => exact ⟨[], rfl, nofun⟩
  | cons src srcs inductionHypothesis =>
      obtain ⟨value, found, fits⟩ := typed src List.mem_cons_self
      obtain ⟨rest, sources, restTyped⟩ :=
        inductionHypothesis (fun src member => typed src (List.mem_cons_of_mem _ member))
      refine ⟨(value, src.pred) :: rest, ?_, ?_⟩
      · unfold sourceEntries at sources ⊢
        simp [found, sources]
      · intro entry member
        rcases List.mem_cons.mp member with rfl | member
        · exact fits
        · exact restTyped entry member

theorem fixupPhi_spec {ctx : Context} {block : PhiBlock}
    (typed : ∀ src ∈ block.srcs, ∀ chan < block.comp.length,
      ∃ value, ctx.defs src.ssa chan = some value ∧ value.type = block.type) :
    ∃ incoming, fixupPhi ctx block = some incoming ∧ incoming.length = block.comp.length ∧
      ∀ chan < block.comp.length, incoming[chan]? = sourceEntries ctx chan block.srcs := by
  have each : ∀ chan ∈ List.range block.comp.length,
      fixupLoop ctx block.type chan block.srcs [] [] =
        some ((sourceEntries ctx chan block.srcs).getD []) := by
    intro chan member
    obtain ⟨entries, sources, entriesTyped⟩ := exists_sourceEntries
      (fun src listed => typed src listed chan (List.mem_range.mp member))
    rw [fixupLoop_eq [] sources entriesTyped (fun entry none => absurd none List.not_mem_nil),
      sources]
    rfl
  refine ⟨_, mapM_eq_some_map each, by simp, ?_⟩
  intro chan inside
  obtain ⟨entries, sources, _⟩ :=
    exists_sourceEntries (fun src listed => typed src listed chan inside)
  simp [inside, sources]

/-- With constants used once and undefined values that fit, all phis agree with their sources. -/
theorem phisAgree_of_undefsFit {f : Function} (wellFormed : WellFormed f) (single : SingleUse f)
    (undefs : UndefsFit f) : PhisAgree f := by
  obtain ⟨types, gathered, known⟩ := exists_gatherTypes f
  have settles := settles_of_gathered wellFormed single undefs gathered known
  obtain ⟨ctx, ran, emitted⟩ := emitInstrs_spec wellFormed settles undefs.bitSize_eq
  refine ⟨types, ctx, gathered, ran, emitted.recorded, ?_⟩
  intro block member
  obtain ⟨type, length⟩ := emitted.typed block member
  have listed : .phi block.dest block.srcs ∈ f.instrs := by
    have recorded : (block.dest, block.srcs) ∈ f.instrs.filterMap Instr.phi? := by
      rw [← emitted.recorded]
      exact List.mem_map_of_mem member
    obtain ⟨instr, instrListed, isPhi⟩ := List.mem_filterMap.mp recorded
    cases instr <;> cases isPhi
    exact instrListed
  have agree : ∀ src ∈ block.srcs, ∀ chan < f.numComponents block.dest,
      ∃ value, ctx.defs src.ssa chan = some value ∧ value.type = block.type := by
    intro src source chan inside
    have sameSize := ((wellFormed.sized _ listed).2 src source).2
    have present := emitted.available src.ssa (wellFormed.defined _ _ listed src source) chan
      (by rwa [sameSize])
    obtain ⟨value, found⟩ := Option.isSome_iff_exists.mp present
    refine ⟨value, found, ?_⟩
    rw [(emitted.holds src.ssa chan value found).settles (isPhiSrc_of_mem listed source),
      settles.agree _ _ listed src source, type]
  rw [← length] at agree ⊢
  exact ⟨agree, fixupPhi_spec agree⟩

/-- A loop header whose back edge brings a float that is not emitted yet, and a constant. -/
def loopHeader : Function where
  blocks := [[.loadConst 0], [.phi 1 [⟨2, 2⟩, ⟨0, 0⟩]],
    [.typed (some 2) .float [(1, .float)] [⟨.float, 32⟩]]]
  bitSize := fun _ => 32
  numComponents := fun _ => 1

theorem phisAgree_loopHeader : PhisAgree loopHeader := by
  apply phisAgree_of_undefsFit
  · refine ⟨by decide, ?_, ?_, ?_⟩
    · exact ⟨trivial, ⟨⟨0, 0⟩, by decide, by decide⟩, trivial, trivial⟩
    · intro dest srcs listed src member
      simp [loopHeader, Function.instrs] at listed
      rcases listed with ⟨rfl, rfl⟩
      revert src
      decide
    · simp [loopHeader, Function.instrs, Instr.Sized]
  · intro dest listed
    simp [loopHeader, Function.instrs] at listed
    subst listed
    decide
  · apply undefsFit_of_none
    simp [loopHeader, Function.instrs]

/-- A phi of an integer of 64 bits and an undefined value of the same size. -/
def undefined64 : Function where
  blocks := [[.typed (some 0) .int [] [⟨.int, 64⟩], .undef 1], [], [], [.phi 2 [⟨1, 0⟩, ⟨2, 1⟩]]]
  bitSize := fun _ => 64
  numComponents := fun _ => 1

/-- The undefined value goes out as a zero of 32 bits. -/
theorem not_phisAgree_undefined64 :
    WellFormed undefined64 ∧ SingleUse undefined64 ∧ ¬ PhisAgree undefined64 := by
  refine ⟨⟨by decide, ?_, ?_, ?_⟩, ?_, ?_⟩
  · exact ⟨trivial, trivial, ⟨⟨1, 0⟩, by decide, by decide⟩, trivial⟩
  · intro dest srcs listed src member
    simp [undefined64, Function.instrs] at listed
    rcases listed with ⟨rfl, rfl⟩
    revert src
    decide
  · simp [undefined64, Function.instrs, Instr.Sized]
  · intro dest listed
    simp [undefined64, Function.instrs] at listed
  · rintro ⟨types, ctx, gathered, ran, -, agree⟩
    have typesAre : gatherTypes undefined64 = some {(0, .int), (1, .int), (2, .int)} := by decide
    cases gathered.symm.trans typesAre
    have phis : (emitInstrs undefined64 {(0, .int), (1, .int), (2, .int)}).map Context.phis =
        some [⟨2, [⟨1, 0⟩, ⟨2, 1⟩], ⟨.int, 64⟩, [⟨⟨.int, 64⟩, 2⟩]⟩] := by decide
    have undef : (emitInstrs undefined64 {(0, .int), (1, .int), (2, .int)}).map
        (fun ctx => ctx.defs 1 0) = some (some ⟨⟨.int, 32⟩, 1⟩) := by decide
    rw [ran] at phis undef
    have recorded : ctx.phis = _ := Option.some.inj phis
    have stored : ctx.defs 1 0 = _ := Option.some.inj undef
    obtain ⟨value, found, type⟩ :=
      (agree _ (by rw [recorded]; exact List.mem_cons_self)).1 ⟨2, 1⟩ (by simp) 0 (by decide)
    rw [stored] at found
    cases found
    cases type

end SpirvToDxil.PhiTypes
