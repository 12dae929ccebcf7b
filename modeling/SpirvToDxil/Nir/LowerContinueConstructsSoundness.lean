import SpirvToDxil.Nir.LowerContinueConstructs
import SpirvToDxil.Nir.LowerReturnsSoundness
import SpirvToDxil.Util.RegisterScope

/-!
# Soundness of the lowering of continue constructs

Within a loop, the invariant is about a list and the code that is moved behind it: where the list
jumps, the lowered list sets the flag and falls through, and the moved code has been lowered before.
Loops then do the same round by round, new registers apart.
-/

namespace SpirvToDxil.Nir

open Structured

variable {Action Test : Type} {Memory : Type} {machine : Structured.Machine Action Test Memory}
  {flag : Nat}
  {type : Jump}

/-! ## Lists of a conditional -/

/-- The lowered form of a list of a conditional behind which `rest` is moved. -/
def lowerSide (lower : Code Action Test → Code Action Test × Bool) (type : Jump) (flag : Nat)
    (side rest : Code Action Test) : Code Action Test × Bool :=
  if side.lastJump.isSome then lowerBefore lower type flag side else lower (side.append rest)

section Sides

variable {lower : Code Action Test → Code Action Test × Bool} {condition : Cond Test}
  {side thenList elseList rest : Code Action Test}

theorem lowerBefore_of_falls (falls : side.lastJump.isSome = false) :
    lowerBefore lower type flag side = (side, false) := by
  have none : side.lastJump = none := by simpa using falls
  simp [lowerBefore, lowerJump, none]

theorem lowerSide_of_jumps (jumps : side.lastJump.isSome = true) :
    lowerSide lower type flag side rest = lowerBefore lower type flag side :=
  if_pos jumps

theorem lowerSide_of_falls (falls : side.lastJump.isSome = false) :
    lowerSide lower type flag side rest = lower (side.append rest) := by
  rw [lowerSide, if_neg (by simp [falls])]

theorem lowerSide_empty_of_falls (falls : side.lastJump.isSome = false) :
    lowerSide lower type flag side .empty = lower side := by
  rw [lowerSide_of_falls falls, Code.append_empty]

/-- Both lists take the code behind the conditional, of which nothing is left. -/
theorem lowerJumpsInIf_of_moves
    (moves : (!rest.isEmpty && ((lowerBefore lower type flag thenList).2 ||
      (lowerBefore lower type flag elseList).2)) = true) :
    lowerJumpsInIf lower type flag condition thenList elseList rest =
      (.ifNode condition (lowerSide lower type flag thenList rest).1
        (lowerSide lower type flag elseList rest).1, .empty, true) := by
  rw [Bool.and_eq_true, Bool.not_eq_true'] at moves
  obtain ⟨nonempty, progress⟩ := moves
  have empty : (Code.empty : Code Action Test).isEmpty = true := rfl
  cases thenJumps : thenList.lastJump.isSome with
  | true =>
      cases elseJumps : elseList.lastJump.isSome with
      | true =>
          simp only [lowerSide_of_jumps thenJumps, lowerSide_of_jumps elseJumps]
          simp [lowerJumpsInIf, nonempty, progress, thenJumps, elseJumps, moveFollowing,
            lowerAfter, empty]
      | false =>
          simp only [lowerBefore_of_falls elseJumps, Bool.or_false] at progress
          simp only [lowerSide_of_jumps thenJumps, lowerSide_of_falls elseJumps]
          simp [lowerJumpsInIf, nonempty, progress, thenJumps, elseJumps, moveFollowing,
            lowerAfter, empty, lowerBefore_of_falls elseJumps]
  | false =>
      simp only [lowerBefore_of_falls thenJumps, Bool.false_or] at progress
      cases elseJumps : elseList.lastJump.isSome with
      | true =>
          simp only [lowerSide_of_falls thenJumps, lowerSide_of_jumps elseJumps]
          simp [lowerJumpsInIf, nonempty, progress, thenJumps, elseJumps, moveFollowing,
            lowerAfter, empty, lowerBefore_of_falls thenJumps]
      | false => simp [lowerBefore_of_falls elseJumps] at progress

/-- What is behind the conditional stays there, predicated on the flag after progress. -/
theorem lowerJumpsInIf_of_stays
    (stays : (!rest.isEmpty && ((lowerBefore lower type flag thenList).2 ||
      (lowerBefore lower type flag elseList).2)) = false) :
    lowerJumpsInIf lower type flag condition thenList elseList rest =
      (.ifNode condition (lowerSide lower type flag thenList .empty).1
        (lowerSide lower type flag elseList .empty).1,
        if (lowerSide lower type flag thenList .empty).2 ||
          (lowerSide lower type flag elseList .empty).2 then predicateFollowing flag false rest
        else rest,
        (lowerSide lower type flag thenList .empty).2 ||
          (lowerSide lower type flag elseList .empty).2) := by
  have following (progress : Bool) :
      (if (!rest.isEmpty && progress) = true then
        .cons [] (.ifNode (.load flag) .empty rest) .empty else rest : Code Action Test) =
        if progress = true then predicateFollowing flag false rest else rest := by
    cases empty : rest.isEmpty <;> cases progress <;> simp [predicateFollowing, empty]
  simp only [lowerJumpsInIf, stays, Bool.false_eq_true, if_false, following]
  cases thenJumps : thenList.lastJump.isSome <;> cases elseJumps : elseList.lastJump.isSome <;>
    simp [thenJumps, elseJumps, lowerAfter, lowerSide_of_jumps, lowerSide_empty_of_falls,
      lowerBefore_of_falls, Bool.or_comm]

end Sides

/-! ## Jumps within a loop -/

theorem conditionalDepth_dropJump (code : Code Action Test) :
    conditionalDepth code.dropJump = conditionalDepth code := by
  match code with
  | .last ops jump => rfl
  | .cons ops (.ifNode condition thenList elseList) rest =>
      simp only [Code.dropJump, conditionalDepth, conditionalDepth_dropJump rest]
  | .cons ops (.loopNode body) rest => exact conditionalDepth_dropJump rest
  | .cons ops (.continueNode body continueList) rest => exact conditionalDepth_dropJump rest

/-- Lowered code `rest` for what is behind a list. -/
structure LoweredBehind (machine : Structured.Machine Action Test Memory) (type : Jump) (flag : Nat)
    (behind : Meaning Memory) (rest : Code Action Test) : Prop where
  lowers : FlagsJump flag type none false behind (machine.evalCode rest)
  never : rest.jumps type = false

structure JumpsSpec (machine : Structured.Machine Action Test Memory) (type : Jump) (flag : Nat)
    (code : Code Action Test) (behind : Meaning Memory) (rest : Code Action Test)
    (result : Code Action Test × Bool) : Prop where
  lowered : LoweredBehind machine type flag ((machine.evalCode code).seq behind) result.1
  unchanged : result.2 = false → result.1 = code.append rest ∧ code.jumps type = false

def LowersLists (machine : Structured.Machine Action Test Memory) (type : Jump) (flag depth : Nat)
    (lower : Code Action Test → Code Action Test × Bool) : Prop :=
  ∀ ⦃code : Code Action Test⦄ ⦃behind : Meaning Memory⦄ ⦃rest : Code Action Test⦄,
    code.All (.avoiding flag) → conditionalDepth code ≤ depth → code.lastJump ≠ some type →
      LoweredBehind machine type flag behind rest →
        JumpsSpec machine type flag code behind rest (lower (code.append rest))

section Loop

variable {lower : Code Action Test → Code Action Test × Bool} {condition : Cond Test}
  {code side thenList elseList rest : Code Action Test} {behind : Meaning Memory} {depth : Nat}

theorem neverJumps_of_jumps (within : type.IsLocal) (never : code.jumps type = false) :
    NeverJumps type (machine.evalCode code) :=
  fun _ _ => Machine.not_evalCode_of_jumps within never

theorem loweredBehind_empty (machine : Structured.Machine Action Test Memory) :
    LoweredBehind machine type flag (machine.evalCode .empty) .empty := by
  refine ⟨.of_neverJumps ?_, rfl⟩
  intro start finish jumps
  cases (Machine.evalCode_empty.mp jumps).1

theorem loweredBehind_jump :
    LoweredBehind machine type flag (machine.evalCode (.last [] (some type)))
      (.last [.store flag true] none) := by
  refine ⟨⟨?_, ?_⟩, rfl⟩
  · intro start outcome finish _ ends
    obtain ⟨rfl, rfl⟩ := Machine.evalCode_last.mp ends
    exact ⟨_, _, Machine.evalCode_last.mpr ⟨rfl, rfl⟩, .flagged⟩
  · intro start outcome finish _ ends
    obtain ⟨rfl, rfl⟩ := Machine.evalCode_last.mp ends
    exact ⟨_, _, Machine.evalCode_last.mpr ⟨rfl, rfl⟩, .flagged⟩

theorem lowerSide_spec (lowers : LowersLists machine type flag depth lower)
    (avoids : side.All (.avoiding flag)) (shallow : conditionalDepth side ≤ depth)
    (behinds : LoweredBehind machine type flag behind rest) :
    JumpsSpec machine type flag side behind rest (lowerSide lower type flag side rest) := by
  cases ends : side.lastJump with
  | none =>
      rw [lowerSide_of_falls (by rw [ends]; rfl)]
      exact lowers avoids shallow (by rw [ends]; exact (Option.some_ne_none type).symm) behinds
  | some jump =>
      have alone {start finish : Structured.State Memory} {outcome : Option Jump} :
          (machine.evalCode side).seq behind start outcome finish ↔
            machine.evalCode side start outcome finish :=
        Machine.evalCode_seq_of_lastJump ends
      rw [lowerSide_of_jumps (by rw [ends]; rfl), lowerBefore, lowerJump, ends]
      by_cases same : jump = type
      · subst same
        -- the jump itself is the code behind the rest of the list
        have dropped := lowers (avoids.dropJump trivial) (conditionalDepth_dropJump side ▸ shallow)
          (by rw [Code.lastJump_dropJump]; exact (Option.some_ne_none jump).symm)
          loweredBehind_jump
        have whole := Code.dropJump_append_last side
        rw [ends] at whole
        simp only [if_true, Option.isSome_some, Bool.true_or]
        refine ⟨⟨?_, dropped.lowered.never⟩, nofun⟩
        refine dropped.lowered.lowers.congr (fun {_ _ _} => ?_) Iff.rfl
        rw [alone, ← Machine.evalCode_append, whole]
      · have differs : side.lastJump ≠ some type := by
          rw [ends]
          exact fun absurd => same (Option.some.inj absurd)
        have kept := lowers avoids shallow differs (loweredBehind_empty machine)
        rw [Code.append_empty] at kept
        simp only [if_neg (fun absurd => same (Option.some.inj absurd)), Option.isSome_some,
          if_true, Bool.false_or]
        refine ⟨⟨?_, kept.lowered.never⟩, fun unmade => ?_⟩
        · exact kept.lowered.lowers.congr (alone.trans Machine.seq_empty.symm) Iff.rfl
        · have unchanged := kept.unchanged unmade
          rw [Code.append_empty] at unchanged
          rw [Code.append_of_lastJump ends]
          exact unchanged

structure IfJumpsSpec (machine : Structured.Machine Action Test Memory) (type : Jump) (flag : Nat)
    (condition : Cond Test) (thenList elseList : Code Action Test) (behind : Meaning Memory)
    (rest : Code Action Test) (result : Node Action Test × Code Action Test × Bool) : Prop where
  lowers : FlagsJump flag type none false
    ((machine.evalNode (.ifNode condition thenList elseList)).seq behind)
    ((machine.evalNode result.1).seq (machine.evalCode result.2.1))
  never (ops : List (Op Action)) : (Code.cons ops result.1 result.2.1).jumps type = false
  unchanged : result.2.2 = false →
    result.1 = .ifNode condition thenList elseList ∧ result.2.1 = rest ∧
      thenList.jumps type = false ∧ elseList.jumps type = false

theorem jumps_predicateFollowing (never : rest.jumps type = false) :
    (predicateFollowing flag false rest).jumps type = false := by
  unfold predicateFollowing
  split
  next absurd => cases absurd
  next =>
    split
    next => exact never
    next => simp [Code.jumps, Code.empty, never]

theorem lowerJumpsInIf_spec (within : type.IsLocal)
    (lowers : LowersLists machine type flag depth lower)
    (conditions : condition.Avoids flag) (thenAvoids : thenList.All (.avoiding flag))
    (elseAvoids : elseList.All (.avoiding flag)) (thenShallow : conditionalDepth thenList ≤ depth)
    (elseShallow : conditionalDepth elseList ≤ depth)
    (behinds : LoweredBehind machine type flag behind rest) :
    IfJumpsSpec machine type flag condition thenList elseList behind rest
      (lowerJumpsInIf lower type flag condition thenList elseList rest) := by
  cases moves : (!rest.isEmpty && ((lowerBefore lower type flag thenList).2 ||
      (lowerBefore lower type flag elseList).2)) with
  | true =>
      have thens := lowerSide_spec lowers thenAvoids thenShallow behinds
      have elses := lowerSide_spec lowers elseAvoids elseShallow behinds
      rw [lowerJumpsInIf_of_moves moves]
      refine ⟨?_, fun ops => ?_, fun unmade => ?_⟩
      · exact .ifNode_seq thens.lowered.lowers elses.lowered.lowers
      · simp [Code.jumps, thens.lowered.never, elses.lowered.never, Code.empty]
      · cases unmade
  | false =>
      have thens := lowerSide_spec lowers thenAvoids thenShallow
        (loweredBehind_empty machine)
      have elses := lowerSide_spec lowers elseAvoids elseShallow
        (loweredBehind_empty machine)
      rw [lowerJumpsInIf_of_stays moves]
      have keeps : (machine.evalNode (.ifNode condition thenList elseList)).Keeps flag :=
        Machine.evalNode_keeps ⟨conditions, thenAvoids, elseAvoids⟩
      have both : FlagsJump flag type none false
          (machine.evalNode (.ifNode condition thenList elseList))
          (machine.evalNode (.ifNode condition (lowerSide lower type flag thenList .empty).1
            (lowerSide lower type flag elseList .empty).1)) := by
        rw [Machine.evalNode, Machine.evalNode]
        apply FlagsJump.choose
        · exact thens.lowered.lowers.congr Machine.seq_empty.symm Iff.rfl
        · exact elses.lowered.lowers.congr Machine.seq_empty.symm Iff.rfl
      cases progress : ((lowerSide lower type flag thenList .empty).2 ||
          (lowerSide lower type flag elseList .empty).2) with
      | true =>
          simp only [if_true]
          refine ⟨?_, fun ops => ?_, fun unmade => ?_⟩
          · dsimp only
            exact both.seq_of_predicated keeps (fun _ => behinds.lowers)
              (fun _ _ _ set => evalCode_predicateFollowing_of_set set)
              (fun _ _ _ unset => evalCode_predicateFollowing_of_unset unset)
          · simp [Code.jumps, thens.lowered.never, elses.lowered.never,
              jumps_predicateFollowing behinds.never]
          · cases unmade
      | false =>
          rw [Bool.or_eq_false_iff] at progress
          obtain ⟨thenSame, thenNever⟩ := thens.unchanged progress.1
          obtain ⟨elseSame, elseNever⟩ := elses.unchanged progress.2
          rw [Code.append_empty] at thenSame elseSame
          rw [thenSame, elseSame] at both ⊢
          refine ⟨?_, fun ops => ?_, fun _ => ⟨rfl, rfl, thenNever, elseNever⟩⟩
          · refine both.seq keeps (Or.inl ?_) fun _ => behinds.lowers
            intro start finish jumps
            rw [Machine.evalNode_if] at jumps
            split at jumps
            · exact neverJumps_of_jumps within thenNever _ _ jumps
            · exact neverJumps_of_jumps within elseNever _ _ jumps
          · simp [Code.jumps, thenNever, elseNever, behinds.never]

/-! ### Lists without jumps -/

def KeepsLists (type : Jump) (lower : Code Action Test → Code Action Test × Bool) : Prop :=
  ∀ ⦃code : Code Action Test⦄, code.jumps type = false → lower code = (code, false)

theorem lastJump_ne_of_jumps {code : Code Action Test} (never : code.jumps type = false) :
    code.lastJump ≠ some type := by
  match code with
  | .last ops jump => simpa [Code.jumps, Code.lastJump] using never
  | .cons ops (.ifNode condition thenList elseList) rest =>
      simp only [Code.jumps, Bool.or_eq_false_iff] at never
      have staysBehind : rest.lastJump ≠ some type := lastJump_ne_of_jumps never.2
      exact staysBehind
  | .cons ops (.loopNode body) rest =>
      have staysBehind : rest.lastJump ≠ some type := lastJump_ne_of_jumps never
      exact staysBehind
  | .cons ops (.continueNode body continueList) rest =>
      have staysBehind : rest.lastJump ≠ some type := lastJump_ne_of_jumps never
      exact staysBehind

theorem lowerBefore_of_never (keeps : KeepsLists type lower) (never : side.jumps type = false) :
    lowerBefore lower type flag side = (side, false) := by
  rw [lowerBefore, lowerJump, if_neg (lastJump_ne_of_jumps never)]
  simp [keeps never]

theorem lowerSide_of_never (keeps : KeepsLists type lower) (never : side.jumps type = false) :
    lowerSide lower type flag side .empty = (side, false) := by
  unfold lowerSide
  split
  · exact lowerBefore_of_never keeps never
  · rw [Code.append_empty, keeps never]

theorem keepsLists_nodes (keeps : KeepsLists type lower) :
    KeepsLists type (lowerJumpsInNodes (lowerJumpsInIf lower type flag)) := by
  intro code never
  match code with
  | .last ops jump => rfl
  | .cons ops (.ifNode condition thenList elseList) rest =>
      simp only [Code.jumps, Bool.or_eq_false_iff] at never
      obtain ⟨⟨thenNever, elseNever⟩, restNever⟩ := never
      have rests : lowerJumpsInNodes (lowerJumpsInIf lower type flag) rest = (rest, false) :=
        keepsLists_nodes keeps restNever
      have stays : (!rest.isEmpty && ((lowerBefore lower type flag thenList).2 ||
          (lowerBefore lower type flag elseList).2)) = false := by
        simp [lowerBefore_of_never keeps thenNever, lowerBefore_of_never keeps elseNever]
      rw [lowerJumpsInNodes, rests]
      simp [lowerJumpsInIf_of_stays stays, lowerSide_of_never keeps thenNever,
        lowerSide_of_never keeps elseNever]
  | .cons ops (.loopNode body) rest =>
      have rests : lowerJumpsInNodes (lowerJumpsInIf lower type flag) rest = (rest, false) :=
        keepsLists_nodes keeps never
      simp only [lowerJumpsInNodes, rests]
  | .cons ops (.continueNode body continueList) rest =>
      have rests : lowerJumpsInNodes (lowerJumpsInIf lower type flag) rest = (rest, false) :=
        keepsLists_nodes keeps never
      simp only [lowerJumpsInNodes, rests]

theorem lowerJumpsInCfList_of_never (depth : Nat) (never : code.jumps type = false) :
    lowerJumpsInCfList type flag depth code = (code, false) := by
  induction depth generalizing code with
  | zero => rfl
  | succ depth inductionHypothesis =>
      exact keepsLists_nodes (fun _ noJump => inductionHypothesis noJump) never

/-! ### All lists -/

theorem loweredBehind_seq_of_never (within : type.IsLocal) (avoids : code.All (.avoiding flag))
    (never : code.jumps type = false) (behinds : LoweredBehind machine type flag behind rest) :
    LoweredBehind machine type flag ((machine.evalCode code).seq behind) (code.append rest) := by
  have unchanged : FlagsJump flag type none false (machine.evalCode code) (machine.evalCode code) :=
    .of_neverJumps (neverJumps_of_jumps within never)
  have both : FlagsJump flag type none false ((machine.evalCode code).seq behind)
      ((machine.evalCode code).seq (machine.evalCode rest)) :=
    unchanged.seq (Machine.evalCode_keeps avoids) (Or.inl (neverJumps_of_jumps within never))
      fun _ => behinds.lowers
  refine ⟨both.congr Iff.rfl Machine.evalCode_append, ?_⟩
  rw [Code.jumps_append, never, behinds.never, Bool.and_false, Bool.or_false]

theorem jumpsSpec_of_never (within : type.IsLocal) (keeps : KeepsLists type lower)
    (avoids : code.All (.avoiding flag)) (never : code.jumps type = false)
    (behinds : LoweredBehind machine type flag behind rest) :
    JumpsSpec machine type flag code behind rest (lower (code.append rest)) := by
  have lowered := loweredBehind_seq_of_never within avoids never behinds
  rw [keeps lowered.never]
  exact ⟨lowered, fun _ => ⟨rfl, never⟩⟩

theorem jumpsSpec_cons_of_loop {ops : List (Op Action)} {node : Node Action Test}
    {result : Code Action Test × Bool} (front : ∀ op ∈ ops, op.Avoids flag)
    (avoids : node.All (.avoiding flag)) (never : NeverJumps type (machine.evalNode node))
    (nodeOnly : ∀ code : Code Action Test, (Code.cons ops node code).jumps type = code.jumps type)
    (rests : JumpsSpec machine type flag code behind rest result) :
    JumpsSpec machine type flag (.cons ops node code) behind rest
      (.cons ops node result.1, result.2) := by
  have unchanged : FlagsJump flag type none false (machine.evalNode node) (machine.evalNode node) :=
    .of_neverJumps never
  have both := unchanged.seq (Machine.evalNode_keeps avoids) (Or.inl never)
    fun _ => rests.lowered.lowers
  refine ⟨⟨(both.after_run front).congr Machine.evalCode_cons_seq Machine.evalCode_cons, ?_⟩, ?_⟩
  · rw [nodeOnly]
    exact rests.lowered.never
  · intro unmade
    obtain ⟨same, noJump⟩ := rests.unchanged unmade
    exact ⟨by rw [same, Code.append], (nodeOnly code).trans noJump⟩

theorem lowersLists_nodes (within : type.IsLocal) (keeps : KeepsLists type lower)
    (lowers : LowersLists machine type flag depth lower) :
    LowersLists machine type flag (depth + 1)
      (lowerJumpsInNodes (lowerJumpsInIf lower type flag)) := by
  intro code behind rest avoids shallow stays behinds
  match code with
  | .last ops jump =>
      have never : (Code.last ops jump : Code Action Test).jumps type = false := by
        simpa [Code.jumps, Code.lastJump] using stays
      exact jumpsSpec_of_never within (keepsLists_nodes keeps) avoids never behinds
  | .cons ops (.ifNode condition thenList elseList) code =>
      rw [conditionalDepth, Nat.max_le, Nat.succ_le_succ_iff, Nat.max_le] at shallow
      obtain ⟨front, ⟨conditions, thenAvoids, elseAvoids⟩, restAvoids⟩ := avoids
      have rests : JumpsSpec machine type flag code behind rest
          (lowerJumpsInNodes (lowerJumpsInIf lower type flag) (code.append rest)) :=
        lowersLists_nodes within keeps lowers restAvoids shallow.2 stays behinds
      have nodes := lowerJumpsInIf_spec within lowers conditions thenAvoids elseAvoids
        shallow.1.1 shallow.1.2 rests.lowered
      rw [Code.append, lowerJumpsInNodes]
      refine ⟨⟨?_, nodes.never ops⟩, fun unmade => ?_⟩
      · exact (nodes.lowers.after_run front).congr Machine.evalCode_cons_seq Machine.evalCode_cons
      · rw [Bool.or_eq_false_iff] at unmade
        obtain ⟨restSame, restNever⟩ := rests.unchanged unmade.1
        obtain ⟨nodeSame, following, thenNever, elseNever⟩ := nodes.unchanged unmade.2
        dsimp only
        rw [nodeSame, following, restSame]
        exact ⟨rfl, by rw [Code.jumps, thenNever, elseNever, restNever]; rfl⟩
  | .cons ops (.loopNode body) code =>
      obtain ⟨front, nodeAvoids, restAvoids⟩ := avoids
      have rests : JumpsSpec machine type flag code behind rest
          (lowerJumpsInNodes (lowerJumpsInIf lower type flag) (code.append rest)) :=
        lowersLists_nodes within keeps lowers restAvoids shallow stays behinds
      apply jumpsSpec_cons_of_loop front nodeAvoids ?_ (fun _ => rfl) rests
      intro start finish jumps
      rw [Machine.evalNode] at jumps
      exact jumps.not_isLocal rfl within
  | .cons ops (.continueNode body continueList) code =>
      obtain ⟨front, nodeAvoids, restAvoids⟩ := avoids
      have rests : JumpsSpec machine type flag code behind rest
          (lowerJumpsInNodes (lowerJumpsInIf lower type flag) (code.append rest)) :=
        lowersLists_nodes within keeps lowers restAvoids shallow stays behinds
      apply jumpsSpec_cons_of_loop front nodeAvoids ?_ (fun _ => rfl) rests
      intro start finish jumps
      rw [Machine.evalNode] at jumps
      exact jumps.not_isLocal rfl within

theorem jumps_of_conditionalDepth {code : Code Action Test} (flat : conditionalDepth code ≤ 0)
    (stays : code.lastJump ≠ some type) : code.jumps type = false := by
  match code with
  | .last ops jump => simpa [Code.jumps, Code.lastJump] using stays
  | .cons ops (.ifNode condition thenList elseList) rest =>
      rw [conditionalDepth, Nat.max_le] at flat
      exact absurd flat.1 (Nat.not_succ_le_zero _)
  | .cons ops (.loopNode body) rest =>
      have neverBehind : rest.jumps type = false := jumps_of_conditionalDepth flat stays
      exact neverBehind
  | .cons ops (.continueNode body continueList) rest =>
      have neverBehind : rest.jumps type = false := jumps_of_conditionalDepth flat stays
      exact neverBehind

theorem lowerJumpsInCfList_spec (within : type.IsLocal) (depth : Nat) :
    LowersLists machine type flag depth (lowerJumpsInCfList type flag depth) := by
  induction depth with
  | zero =>
      intro code behind rest avoids flat stays behinds
      exact jumpsSpec_of_never within (fun _ => lowerJumpsInCfList_of_never 0) avoids
        (jumps_of_conditionalDepth flat stays) behinds
  | succ depth inductionHypothesis =>
      exact lowersLists_nodes within
        (fun _ => lowerJumpsInCfList_of_never depth) inductionHypothesis

/-! ### The depth -/

/-- Two functions agree on lists of at most the depth behind which lowered code was moved. -/
def AgreeOnLists (type : Jump) (flag depth : Nat)
    (lower other : Code Action Test → Code Action Test × Bool) : Prop :=
  ∀ ⦃code rest : Code Action Test⦄, code.All (.avoiding flag) → conditionalDepth code ≤ depth →
    code.lastJump ≠ some type → rest.jumps type = false →
      lower (code.append rest) = other (code.append rest)

section Agree

variable {other : Code Action Test → Code Action Test × Bool}

theorem lowerBefore_congr (agree : AgreeOnLists type flag depth lower other)
    (avoids : side.All (.avoiding flag)) (shallow : conditionalDepth side ≤ depth) :
    lowerBefore lower type flag side = lowerBefore other type flag side := by
  unfold lowerBefore lowerJump
  by_cases ends : side.lastJump = some type
  · have falls : side.dropJump.lastJump ≠ some type := by
      rw [Code.lastJump_dropJump]
      exact (Option.some_ne_none type).symm
    have dropped := agree (avoids.dropJump trivial) (conditionalDepth_dropJump side ▸ shallow) falls
      (show (Code.last [.store flag true] none).jumps type = false from rfl)
    simp only [if_pos ends, dropped]
  · have kept := agree avoids shallow ends (show Code.empty.jumps type = false from rfl)
    rw [Code.append_empty] at kept
    simp only [if_neg ends, kept]

theorem lowerSide_congr (agree : AgreeOnLists type flag depth lower other)
    (avoids : side.All (.avoiding flag)) (shallow : conditionalDepth side ≤ depth)
    (never : rest.jumps type = false) :
    lowerSide lower type flag side rest = lowerSide other type flag side rest := by
  cases ends : side.lastJump.isSome with
  | true =>
    rw [lowerSide_of_jumps ends, lowerSide_of_jumps ends, lowerBefore_congr agree avoids shallow]
  | false =>
      rw [lowerSide_of_falls ends, lowerSide_of_falls ends]
      have falls : side.lastJump = none := by simpa using ends
      exact agree avoids shallow (by rw [falls]; exact (Option.some_ne_none type).symm) never

theorem lowerJumpsInIf_congr (agree : AgreeOnLists type flag depth lower other)
    (thenAvoids : thenList.All (.avoiding flag)) (elseAvoids : elseList.All (.avoiding flag))
    (thenShallow : conditionalDepth thenList ≤ depth)
    (elseShallow : conditionalDepth elseList ≤ depth) (never : rest.jumps type = false) :
    lowerJumpsInIf lower type flag condition thenList elseList rest =
      lowerJumpsInIf other type flag condition thenList elseList rest := by
  have thens := lowerBefore_congr agree thenAvoids thenShallow
  have elses := lowerBefore_congr agree elseAvoids elseShallow
  cases moves : (!rest.isEmpty && ((lowerBefore lower type flag thenList).2 ||
      (lowerBefore lower type flag elseList).2)) with
  | true =>
      rw [lowerJumpsInIf_of_moves moves, lowerJumpsInIf_of_moves (by rw [← thens, ← elses, moves]),
        lowerSide_congr agree thenAvoids thenShallow never,
        lowerSide_congr agree elseAvoids elseShallow never]
  | false =>
      rw [lowerJumpsInIf_of_stays moves, lowerJumpsInIf_of_stays (by rw [← thens, ← elses, moves]),
        lowerSide_congr agree thenAvoids thenShallow rfl,
        lowerSide_congr agree elseAvoids elseShallow rfl]

end Agree

theorem jumps_lowerJumpsInCfList (within : type.IsLocal) (avoids : code.All (.avoiding flag))
    (shallow : conditionalDepth code ≤ depth) (stays : code.lastJump ≠ some type)
    (never : rest.jumps type = false) :
    (lowerJumpsInCfList type flag depth (code.append rest)).1.jumps type = false := by
  let machine : Structured.Machine Action Test Unit := ⟨fun _ => id, fun _ _ => true⟩
  have behinds : LoweredBehind machine type flag (machine.evalCode rest) rest :=
    ⟨.of_neverJumps (neverJumps_of_jumps within never), never⟩
  exact (lowerJumpsInCfList_spec within depth avoids shallow stays behinds).lowered.never

theorem agree_of_never {more : Nat} (never : code.jumps type = false)
    (restNever : rest.jumps type = false) :
    lowerJumpsInCfList type flag depth (code.append rest) =
      lowerJumpsInCfList type flag more (code.append rest) := by
  have both : (code.append rest).jumps type = false := by
    rw [Code.jumps_append, never, restNever, Bool.and_false, Bool.or_false]
  rw [lowerJumpsInCfList_of_never depth both, lowerJumpsInCfList_of_never more both]

theorem agreeOnLists_succ (within : type.IsLocal) {more : Nat}
    (agree : AgreeOnLists type flag depth
      (lowerJumpsInCfList type flag depth : Code Action Test → Code Action Test × Bool)
      (lowerJumpsInCfList type flag more)) :
    AgreeOnLists type flag (depth + 1)
      (lowerJumpsInCfList type flag (depth + 1) : Code Action Test → Code Action Test × Bool)
      (lowerJumpsInCfList type flag (more + 1)) := by
  intro code rest avoids shallow stays never
  match code with
  | .last ops jump =>
      apply agree_of_never _ never
      simpa [Code.jumps, Code.lastJump] using stays
  | .cons ops (.ifNode condition thenList elseList) code =>
      obtain ⟨front, ⟨conditions, thenAvoids, elseAvoids⟩, restAvoids⟩ := avoids
      rw [conditionalDepth, Nat.max_le] at shallow
      have restNever := jumps_lowerJumpsInCfList within restAvoids shallow.2 stays never
      have rests : lowerJumpsInCfList type flag (depth + 1) (code.append rest) =
          lowerJumpsInCfList type flag (more + 1) (code.append rest) :=
        agreeOnLists_succ within agree restAvoids shallow.2 stays never
      rw [Nat.succ_le_succ_iff, Nat.max_le] at shallow
      rw [lowerJumpsInCfList] at rests restNever
      rw [lowerJumpsInCfList] at rests
      rw [Code.append, lowerJumpsInCfList, lowerJumpsInCfList, lowerJumpsInNodes,
        lowerJumpsInNodes, ← rests]
      simp only [lowerJumpsInIf_congr agree thenAvoids elseAvoids shallow.1.1 shallow.1.2 restNever]
  | .cons ops (.loopNode body) code =>
      have rests : lowerJumpsInCfList type flag (depth + 1) (code.append rest) =
          lowerJumpsInCfList type flag (more + 1) (code.append rest) :=
        agreeOnLists_succ within agree avoids.2.2 shallow stays never
      simp only [lowerJumpsInCfList] at rests
      simp only [Code.append, lowerJumpsInCfList, lowerJumpsInNodes, rests]
  | .cons ops (.continueNode body continueList) code =>
      have rests : lowerJumpsInCfList type flag (depth + 1) (code.append rest) =
          lowerJumpsInCfList type flag (more + 1) (code.append rest) :=
        agreeOnLists_succ within agree avoids.2.2 shallow stays never
      simp only [lowerJumpsInCfList] at rests
      simp only [Code.append, lowerJumpsInCfList, lowerJumpsInNodes, rests]

theorem agreeOnLists (within : type.IsLocal) {more : Nat} (deep : depth ≤ more) :
    AgreeOnLists type flag depth
      (lowerJumpsInCfList type flag depth : Code Action Test → Code Action Test × Bool)
      (lowerJumpsInCfList type flag more) := by
  induction depth generalizing more with
  | zero =>
      intro code rest _ flat stays never
      exact agree_of_never (jumps_of_conditionalDepth flat stays) never
  | succ depth inductionHypothesis =>
      obtain ⟨more, rfl⟩ := Nat.exists_eq_succ_of_ne_zero (Nat.ne_of_gt (Nat.zero_lt_of_lt deep))
      exact agreeOnLists_succ within (inductionHypothesis (Nat.le_of_succ_le_succ deep))

/-- Beyond the depth of the conditionals of a list, going deeper makes no difference. -/
theorem lowerJumpsInCfList_of_depth_le (within : type.IsLocal) (avoids : code.All (.avoiding flag))
    (deep : conditionalDepth code ≤ depth) (stays : code.lastJump ≠ some type) :
    lowerJumpsInCfList type flag depth code =
      lowerJumpsInCfList type flag (conditionalDepth code) code := by
  have agree := agreeOnLists within deep avoids (Nat.le_refl _) stays
    (show Code.empty.jumps type = false from rfl)
  rw [Code.append_empty] at agree
  exact agree.symm

end Loop

/-! ## The shape of the result -/

section Shape

variable {shape : Shape Action Test}

/-- The shape admits all ends and the code that deals with the flag. -/
structure AdmitsJumpFlag (shape : Shape Action Test) (flag : Nat) : Prop where
  ends : ∀ jump, shape.ends jump
  stores : ∀ value, shape.op (.store flag value)
  loads : shape.cond (.load flag)

variable {lower : Code Action Test → Code Action Test × Bool} {condition : Cond Test}
  {code side thenList elseList rest : Code Action Test}

theorem lowerSide_all (admits : AdmitsJumpFlag shape flag)
    (lowers : ∀ ⦃code : Code Action Test⦄, code.All shape → (lower code).1.All shape)
    (all : side.All shape) (restAll : rest.All shape) :
    (lowerSide lower type flag side rest).1.All shape := by
  cases ends : side.lastJump.isSome with
  | false =>
      rw [lowerSide_of_falls ends]
      exact lowers (all.append restAll)
  | true =>
      have stored : (Code.last [.store flag true] none : Code Action Test).All shape := by
        refine ⟨fun op member => ?_, admits.ends none⟩
        rw [List.mem_singleton.mp member]
        exact admits.stores true
      rw [lowerSide_of_jumps ends, lowerBefore, lowerJump]
      simp only [ends, if_true]
      split
      · exact lowers ((all.dropJump (admits.ends none)).append stored)
      · exact lowers all

theorem all_predicateFollowing_of_jumpFlag (admits : AdmitsJumpFlag shape flag)
    (restAll : rest.All shape) : (predicateFollowing flag false rest).All shape := by
  have empty : (Code.empty : Code Action Test).All shape := .empty (admits.ends none)
  unfold predicateFollowing
  split
  next absurd => cases absurd
  next =>
    split
    next => exact restAll
    next => exact ⟨nofun, ⟨admits.loads, empty, restAll⟩, empty⟩

theorem lowerJumpsInIf_all (admits : AdmitsJumpFlag shape flag)
    (lowers : ∀ ⦃code : Code Action Test⦄, code.All shape → (lower code).1.All shape)
    (conditionAll : shape.cond condition) (thenAll : thenList.All shape)
    (elseAll : elseList.All shape) (restAll : rest.All shape) :
    (lowerJumpsInIf lower type flag condition thenList elseList rest).1.All shape ∧
      (lowerJumpsInIf lower type flag condition thenList elseList rest).2.1.All shape := by
  have empty : (Code.empty : Code Action Test).All shape := .empty (admits.ends none)
  cases moves : (!rest.isEmpty && ((lowerBefore lower type flag thenList).2 ||
      (lowerBefore lower type flag elseList).2)) with
  | true =>
      rw [lowerJumpsInIf_of_moves moves]
      exact ⟨⟨conditionAll, lowerSide_all admits lowers thenAll restAll,
        lowerSide_all admits lowers elseAll restAll⟩, empty⟩
  | false =>
      rw [lowerJumpsInIf_of_stays moves]
      refine ⟨⟨conditionAll, lowerSide_all admits lowers thenAll empty,
        lowerSide_all admits lowers elseAll empty⟩, ?_⟩
      dsimp only
      split
      · exact all_predicateFollowing_of_jumpFlag admits restAll
      · exact restAll

theorem lowerJumpsInNodes_all (admits : AdmitsJumpFlag shape flag)
    (lowers : ∀ ⦃code : Code Action Test⦄, code.All shape → (lower code).1.All shape)
    {code : Code Action Test} (all : code.All shape) :
    (lowerJumpsInNodes (lowerJumpsInIf lower type flag) code).1.All shape := by
  match code with
  | .last ops jump => exact all
  | .cons ops (.ifNode condition thenList elseList) rest =>
      obtain ⟨front, ⟨conditionAll, thenAll, elseAll⟩, restAll⟩ := all
      have rests := lowerJumpsInNodes_all admits lowers restAll
      exact ⟨front, lowerJumpsInIf_all admits lowers conditionAll thenAll elseAll rests⟩
  | .cons ops (.loopNode body) rest =>
      exact ⟨all.1, all.2.1, lowerJumpsInNodes_all admits lowers all.2.2⟩
  | .cons ops (.continueNode body continueList) rest =>
      exact ⟨all.1, all.2.1, lowerJumpsInNodes_all admits lowers all.2.2⟩

theorem lowerJumpsInCfList_all (admits : AdmitsJumpFlag shape flag) (depth : Nat)
    (all : code.All shape) : (lowerJumpsInCfList type flag depth code).1.All shape := by
  induction depth generalizing code with
  | zero => exact all
  | succ depth inductionHypothesis =>
      exact lowerJumpsInNodes_all admits (fun _ => inductionHypothesis) all

end Shape

/-! ## Loops -/

/-- What `nir_validate_shader` asserts of continue jumps: they are in the body of a loop with a
continue construct. -/
def validContinues : Shape Action Test where
  loop := fun body => body.jumps .continueLoop = false
  continues := fun _ continueList => continueList.jumps .continueLoop = false

/-- There are no continue constructs, and no continue jumps in loops. -/
def withoutContinues : Shape Action Test where
  loop := fun body => body.jumps .continueLoop = false
  continues := fun _ _ => False

structure Visited (machine : Structured.Machine Action Test Memory) (limit : Nat)
    (meaning : Meaning Memory) (registers : Nat) (visited : Code Action Test)
    (registers' : Nat) : Prop where
  similar : meaning.Similar limit (machine.evalCode visited)
  more : registers ≤ registers'
  below : visited.All (.below registers')
  shape : visited.All withoutContinues

section Loops

variable {limit registers registers' : Nat} {meaning lowered : Meaning Memory}
  {body continueList : Code Action Test}

/-- A round that first clears the flag falls through where the body continues. -/
theorem similar_of_flagsJump (lowers : FlagsJump flag .continueLoop none false meaning lowered)
    (similar : meaning.catchContinue.Similar limit meaning.catchContinue) (above : limit ≤ flag) :
    meaning.catchContinue.Similar limit fun start => lowered (start.store flag false) := by
  constructor
  · intro start start' outcome finish agrees runs
    obtain ⟨finish', runs', near⟩ := similar.forward (agrees.store above false) runs
    rcases runs' with ⟨rfl, continues⟩ | ⟨other, ends⟩
    · obtain ⟨_, _, ends', flagged⟩ := lowers.forward (State.registers_store _ _ _) continues
      cases flagged with
      | other stays => exact absurd rfl stays
      | flagged => exact ⟨_, ends', near.store above true⟩
    · obtain ⟨_, _, ends', flagged⟩ := lowers.forward (State.registers_store _ _ _) ends
      cases flagged with
      | other => exact ⟨_, ends', near⟩
      | flagged => exact absurd rfl other
  · intro start' start outcome finish' agrees ends'
    obtain ⟨_, _, ends, flagged⟩ := lowers.backward (State.registers_store _ _ _) ends'
    have agreesStored := (agrees.symm.store above false).symm
    cases flagged with
    | other stays =>
        obtain ⟨final, runs, near⟩ := similar.forward agreesStored (Or.inr ⟨stays, ends⟩)
        exact ⟨final, runs, near⟩
    | flagged =>
        obtain ⟨final, runs, near⟩ := similar.forward agreesStored (Or.inl ⟨rfl, ends⟩)
        exact ⟨final, runs, (near.symm.store above true).symm⟩

theorem catchContinue_of_never (never : NeverJumps .continueLoop meaning)
    {start finish : Structured.State Memory} {outcome : Option Jump} :
    meaning.catchContinue start outcome finish ↔ meaning start outcome finish := by
  constructor
  · rintro (⟨-, continues⟩ | ⟨-, runs⟩)
    · exact absurd continues (never _ _)
    · exact runs
  · intro runs
    refine Or.inr ⟨?_, runs⟩
    rintro rfl
    exact never _ _ runs

theorem catchContinue_dropJump (trivially : body.lastJump = some .continueLoop)
    {start finish : Structured.State Memory} {outcome : Option Jump} :
    (machine.evalCode body.dropJump).catchContinue start outcome finish ↔
      (machine.evalCode body).catchContinue start outcome finish := by
  have whole : (machine.evalCode body).catchContinue start outcome finish ↔
      (machine.evalCode (body.dropJump.append (.last [] (some .continueLoop)))).catchContinue start
        outcome finish := by
    rw [← trivially, Code.dropJump_append_last]
  rw [whole]
  simp only [Meaning.catchContinue, Machine.evalCode_append, Meaning.seq, Machine.evalCode_last,
    Machine.run_nil]
  constructor
  · rintro (⟨falls, continues⟩ | ⟨other, runs⟩)
    · exact Or.inl ⟨falls, Or.inr ⟨Option.some_ne_none _, continues⟩⟩
    · cases outcome with
      | none => exact Or.inl ⟨rfl, Or.inl ⟨finish, runs, trivial, rfl⟩⟩
      | some jump => exact Or.inr ⟨other, Or.inr ⟨Option.some_ne_none _, runs⟩⟩
  · rintro
      (⟨rfl, ⟨middle, runs, -, rfl⟩ | ⟨-, continues⟩⟩ | ⟨other, ⟨middle, -, same, -⟩ | ⟨-, runs⟩⟩)
    · exact Or.inr ⟨(Option.some_ne_none _).symm, runs⟩
    · exact Or.inl ⟨rfl, continues⟩
    · exact absurd same other
    · exact Or.inr ⟨other, runs⟩

theorem simplifyLoop_spec
    (similar : (machine.evalCode body).catchContinue.Similar limit
      (machine.evalCode body).catchContinue) (above : limit ≤ flag) (below : body.All (.below flag))
      (shape : body.All withoutContinues)
    (falls : body.lastJump ≠ some .continueLoop) :
    Visited machine limit (machine.evalCode body).catchContinue flag (simplifyLoop flag body)
        (flag + 1) ∧
      (simplifyLoop flag body).jumps .continueLoop = false := by
  have avoids : body.All (.avoiding flag) := Code.avoids_of_below below (Nat.le_refl flag)
  have spec := lowerJumpsInCfList_spec (show Jump.continueLoop.IsLocal from trivial)
    (conditionalDepth body) avoids (Nat.le_refl _) falls (loweredBehind_empty machine)
  rw [Code.append_empty] at spec
  have lowers := spec.lowered.lowers.congr Machine.seq_empty.symm Iff.rfl
  refine ⟨⟨?_, Nat.le_succ flag, ?_, ?_⟩, ?_⟩
  · refine (similar_of_flagsJump lowers similar above).congr Iff.rfl ?_
    intro start outcome finish
    rw [simplifyLoop, Machine.evalCode_prepend]
    rfl
  · have admits : AdmitsJumpFlag (.below (flag + 1) : Shape Action Test) flag :=
      ⟨fun _ => trivial, fun _ => Nat.le_refl _, Nat.le_refl _⟩
    apply (lowerJumpsInCfList_all admits _ (below.below_mono (Nat.le_succ flag))).prepend
    intro op member
    rw [List.mem_singleton.mp member]
    exact Nat.le_refl _
  · have admits : AdmitsJumpFlag (withoutContinues : Shape Action Test) flag :=
      ⟨fun _ => trivial, fun _ => trivial, trivial⟩
    exact (lowerJumpsInCfList_all admits _ shape).prepend fun _ _ => trivial
  · rw [simplifyLoop, Code.jumps_prepend]
    exact spec.lowered.never

/-- The trivial continue is removed first, and nothing is left to do if there is no other. -/
theorem simplifyLoopContinues_spec (above : limit ≤ registers)
    (visited : Visited machine limit meaning registers body registers') :
    Visited machine limit meaning.catchContinue registers
        (simplifyLoopContinues body registers').1 (simplifyLoopContinues body registers').2 ∧
      (simplifyLoopContinues body registers').1.jumps .continueLoop = false := by
  obtain ⟨similar, more, below, shape⟩ := visited
  have caught := similar.catchContinue
  unfold simplifyLoopContinues
  generalize dropped : (if body.lastJump = some .continueLoop then body.dropJump else body) = body'
  have bodies : meaning.catchContinue.Similar limit (machine.evalCode body').catchContinue ∧
      body'.All (.below registers') ∧ body'.All withoutContinues ∧
      body'.lastJump ≠ some .continueLoop := by
    split at dropped
    next trivially =>
      subst dropped
      refine ⟨caught.congr Iff.rfl (catchContinue_dropJump trivially), below.dropJump trivial,
        shape.dropJump trivial, ?_⟩
      rw [Code.lastJump_dropJump]
      exact (Option.some_ne_none _).symm
    next stays =>
      subst dropped
      exact ⟨caught, below, shape, stays⟩
  obtain ⟨caught, below, shape, stays⟩ := bodies
  dsimp only
  split
  next plain =>
    rw [Bool.and_eq_true, Bool.not_eq_true'] at plain
    refine ⟨⟨caught.congr Iff.rfl ?_, more, below, shape⟩, plain.2⟩
    intro start outcome finish
    exact (catchContinue_of_never (neverJumps_of_jumps trivial plain.2)).symm
  next =>
    obtain ⟨simplified, never⟩ := simplifyLoop_spec caught.right (Nat.le_trans above more)
      below shape stays
    refine ⟨⟨caught.trans simplified.similar, ?_, simplified.below, simplified.shape⟩, never⟩
    exact Nat.le_trans more simplified.more

/-- The continue construct runs at the end of each round that does not leave the loop. -/
theorem lowerLoopContinueBlock_spec (above : limit ≤ registers) {behind : Meaning Memory}
    {registers'' : Nat} (bodies : Visited machine limit meaning registers body registers')
    (continues : Visited machine limit behind registers' continueList registers'')
    (never : continueList.jumps .continueLoop = false) :
    ∃ body', lowerLoopContinueBlock body continueList registers'' = (.loopNode body',
        (simplifyLoopContinues body registers'').2) ∧
      Visited machine limit (meaning.catchContinue.seq behind) registers body'
        (simplifyLoopContinues body registers'').2 ∧
      body'.jumps .continueLoop = false := by
  have earlier : registers ≤ registers'' := Nat.le_trans bodies.more continues.more
  have later : Visited machine limit meaning registers'' body registers'' :=
    ⟨bodies.similar, Nat.le_refl _, bodies.below.below_mono continues.more, bodies.shape⟩
  obtain ⟨simplified, bodyNever⟩ := simplifyLoopContinues_spec (Nat.le_trans above earlier) later
  rcases result : simplifyLoopContinues body registers'' with ⟨body', total⟩
  rw [result] at simplified bodyNever
  have appended : (if (body'.lastJump.isNone || body'.jumps .continueLoop) = true then
      body'.append continueList else body') = body'.append continueList := by
    cases ends : body'.lastJump with
    | none => rfl
    | some jump => rw [Code.append_of_lastJump ends, ite_self]
  refine ⟨body'.append continueList, ?_, ⟨?_, Nat.le_trans earlier simplified.more, ?_, ?_⟩, ?_⟩
  · rw [lowerLoopContinueBlock, result]
    simp only [appended]
  · exact (simplified.similar.seq continues.similar).congr Iff.rfl Machine.evalCode_append
  · exact simplified.below.append (continues.below.below_mono simplified.more)
  · exact simplified.shape.append continues.shape
  · rw [Code.jumps_append, bodyNever, never, Bool.and_false, Bool.or_false]

end Loops

/-! ## Functions -/

section Functions

variable {limit : Nat}

structure NodeVisited (machine : Structured.Machine Action Test Memory) (limit : Nat)
    (node : Node Action Test) (registers : Nat) (visited : Node Action Test) (registers' : Nat) :
    Prop where
  similar : (machine.evalNode node).Similar limit (machine.evalNode visited)
  more : registers ≤ registers'
  below : visited.All (.below registers')
  shape : visited.All withoutContinues
  jumps (ops : List (Op Action)) (rest : Code Action Test) :
    (Code.cons ops visited rest).jumps .continueLoop = (Code.cons ops node rest).jumps .continueLoop

/-- Conditions in scope do not depend on other registers. -/
theorem similar_ifNode {condition : Cond Test} (below : condition.bound ≤ limit)
    {thenList thenList' elseList elseList' : Code Action Test}
    (thens : (machine.evalCode thenList).Similar limit (machine.evalCode thenList'))
    (elses : (machine.evalCode elseList).Similar limit (machine.evalCode elseList')) :
    (machine.evalNode (.ifNode condition thenList elseList)).Similar limit
      (machine.evalNode (.ifNode condition thenList' elseList')) := by
  rw [Machine.evalNode, Machine.evalNode]
  exact thens.choose elses (Machine.holds_agrees below)

mutual

theorem visitNode_spec {node : Node Action Test} {registers : Nat}
    (below : node.All (.below limit)) (valid : node.All validContinues)
    (above : limit ≤ registers) :
    NodeVisited machine limit node registers (visitNode node registers).1
      (visitNode node registers).2.2 := by
  cases node with
  | ifNode condition thenList elseList =>
      rcases thenResult : visitCfList thenList registers with ⟨thenList', thenProgress, registers'⟩
      rcases elseResult : visitCfList elseList registers' with ⟨elseList', elseProgress, total⟩
      have thens := visitCfList_spec below.2.1 valid.2.1 above
      rw [thenResult] at thens
      have elses := visitCfList_spec below.2.2 valid.2.2
        (Nat.le_trans above thens.1.more)
      rw [elseResult] at elses
      have more := Nat.le_trans thens.1.more elses.1.more
      rw [visitNode, thenResult]
      simp only [elseResult]
      refine ⟨similar_ifNode below.1 thens.1.similar elses.1.similar, more, ?_,
        ⟨trivial, thens.1.shape, elses.1.shape⟩, ?_⟩
      · exact ⟨Nat.le_trans below.1 (Nat.le_trans above more),
          thens.1.below.below_mono elses.1.more, elses.1.below⟩
      · intro ops rest
        rw [Code.jumps, Code.jumps, thens.2, elses.2]
  | loopNode body =>
      rcases bodyResult : visitCfList body registers with ⟨body', progress, registers'⟩
      have bodies := visitCfList_spec below.2 valid.2 above
      rw [bodyResult] at bodies
      rw [visitNode, bodyResult]
      refine ⟨?_, bodies.1.more, ⟨trivial, bodies.1.below⟩, ⟨?_, bodies.1.shape⟩, fun _ _ => rfl⟩
      · rw [Machine.evalNode, Machine.evalNode]
        exact bodies.1.similar.rounds
      · exact bodies.2.trans valid.1
  | continueNode body continueList =>
      rcases bodyResult : visitCfList body registers with ⟨body', bodyProgress, registers'⟩
      rcases continueResult : visitCfList continueList registers' with
        ⟨continueList', continueProgress, registers''⟩
      have bodies := visitCfList_spec below.2.1 valid.2.1 above
      rw [bodyResult] at bodies
      have continues := visitCfList_spec below.2.2 valid.2.2
        (Nat.le_trans above bodies.1.more)
      rw [continueResult] at continues
      obtain ⟨lowered, result, loops, never⟩ := lowerLoopContinueBlock_spec above bodies.1
        continues.1 (continues.2.trans valid.1)
      rw [visitNode, bodyResult]
      simp only [continueResult, result]
      refine ⟨?_, loops.more, ⟨trivial, loops.below⟩, ⟨never, loops.shape⟩, fun _ _ => rfl⟩
      rw [Machine.evalNode, Machine.evalNode]
      exact loops.similar.rounds

/-- Visited code does the same as before, new registers apart. -/
theorem visitCfList_spec {code : Code Action Test} {registers : Nat}
    (below : code.All (.below limit)) (valid : code.All validContinues)
    (above : limit ≤ registers) :
    Visited machine limit (machine.evalCode code) registers (visitCfList code registers).1
        (visitCfList code registers).2.2 ∧
      (visitCfList code registers).1.jumps .continueLoop = code.jumps .continueLoop := by
  cases code with
  | last ops jump =>
      refine ⟨⟨Machine.similar_last below.1 jump, Nat.le_refl _, ?_, ⟨fun _ _ => trivial, trivial⟩⟩,
        rfl⟩
      exact below.below_mono above
  | cons ops node rest =>
      rcases nodeResult : visitNode node registers with ⟨node', nodeProgress, registers'⟩
      rcases restResult : visitCfList rest registers' with ⟨rest', restProgress, total⟩
      have nodes := visitNode_spec below.2.1 valid.2.1 above
      rw [nodeResult] at nodes
      have rests := visitCfList_spec below.2.2 valid.2.2
        (Nat.le_trans above nodes.more)
      rw [restResult] at rests
      have more := Nat.le_trans nodes.more rests.1.more
      rw [visitCfList, nodeResult]
      simp only [restResult]
      refine ⟨⟨Machine.similar_cons below.1 nodes.similar rests.1.similar, more, ?_,
        ⟨fun _ _ => trivial, nodes.shape, rests.1.shape⟩⟩, ?_⟩
      · refine ⟨fun op member => Nat.le_trans (below.1 op member) (Nat.le_trans above more), ?_,
          rests.1.below⟩
        exact nodes.below.mono ⟨fun _ bounded => Nat.le_trans bounded rests.1.more,
          fun _ bounded => Nat.le_trans bounded rests.1.more, fun _ => id, fun _ => id,
            fun _ _ => id⟩
      · rw [nodes.jumps]
        cases node with
        | ifNode condition thenList elseList => rw [Code.jumps, Code.jumps, rests.2]
        | loopNode body => exact rests.2
        | continueNode body continueList => exact rests.2

end

theorem all_of_withoutContinues {code : Code Action Test} (shape : code.All withoutContinues)
    (never : code.jumps .continueLoop = false) :
    code.All { ends := (· ≠ some .continueLoop), continues := fun _ _ => False } := by
  match code with
  | .last ops jump =>
      refine ⟨fun _ _ => trivial, ?_⟩
      simpa [Code.jumps] using never
  | .cons ops (.ifNode condition thenList elseList) rest =>
      simp only [Code.jumps, Bool.or_eq_false_iff] at never
      exact ⟨fun _ _ => trivial, ⟨trivial, all_of_withoutContinues shape.2.1.2.1 never.1.1,
        all_of_withoutContinues shape.2.1.2.2 never.1.2⟩, all_of_withoutContinues shape.2.2 never.2⟩
  | .cons ops (.loopNode body) rest =>
      exact ⟨fun _ _ => trivial,
        ⟨trivial, all_of_withoutContinues shape.2.1.2 shape.2.1.1⟩,
        all_of_withoutContinues shape.2.2 never⟩
  | .cons ops (.continueNode body continueList) rest => exact shape.2.1.1.elim

section Impl

variable {registers : Nat} {body : Code Action Test}

theorem visitCfList_body (machine : Structured.Machine Action Test Memory)
    (below : body.All (.below registers))
    (valid : body.All validContinues) :
    Visited machine registers (machine.evalCode body) registers
        (lowerContinueConstructsImpl registers body).1
        (lowerContinueConstructsImpl registers body).2.2 ∧
      (lowerContinueConstructsImpl registers body).1.jumps .continueLoop =
        body.jumps .continueLoop :=
  visitCfList_spec below valid (Nat.le_refl registers)

theorem lowerContinueConstructsImpl_below (below : body.All (.below registers))
    (valid : body.All validContinues) :
    registers ≤ (lowerContinueConstructsImpl registers body).2.2 ∧
      (lowerContinueConstructsImpl registers body).1.All
        (.below (lowerContinueConstructsImpl registers body).2.2) := by
  have spec :=
    (visitCfList_body (⟨fun _ => id, fun _ _ => true⟩ : Structured.Machine Action Test Unit)
    below valid).1
  exact ⟨spec.more, spec.below⟩

end Impl

/-- The lowered function has neither continue constructs nor continue jumps, and it does what the
function does, new registers apart. -/
theorem lowerContinueConstructsImpl_correct (registers : Nat) (body : Code Action Test)
    (below : body.All (.below registers)) (valid : body.All validContinues)
    (outside : body.jumps .continueLoop = false) :
    (lowerContinueConstructsImpl registers body).1.All
        { ends := (· ≠ some .continueLoop), continues := fun _ _ => False } ∧
      ∀ {Memory : Type} (machine : Structured.Machine Action Test Memory),
        (machine.evalCode body).Similar registers
          (machine.evalCode (lowerContinueConstructsImpl registers body).1) := by
  refine ⟨?_, fun machine => (visitCfList_body machine below valid).1.similar⟩
  obtain ⟨spec, jumps⟩ := visitCfList_body
    (⟨fun _ => id, fun _ _ => true⟩ : Structured.Machine Action Test Unit) below valid
  exact all_of_withoutContinues spec.shape (jumps.trans outside)

/-- A loop whose first round continues and whose second round breaks. -/
def continuingLoop : Code Nat Nat :=
  .cons []
    (.continueNode
      (.cons [.action 1] (.ifNode (.test 1) (.last [] (some .continueLoop)) .empty)
        (.last [] (some .breakLoop)))
      (.last [.action 1] none))
    .empty

theorem lowerContinueConstructsImpl_correct_continuingLoop :
    ∃ finish, counter.evalCode (lowerContinueConstructsImpl 0 continuingLoop).1
      ⟨0, fun _ => false⟩ none finish ∧ finish.memory = 3 := by
  have adds (op : Op Nat) (member : op ∈ [Op.action 1]) : op.bound ≤ 0 := by
    rw [List.mem_singleton.mp member]
    exact Nat.le_refl 0
  have below : continuingLoop.All (.below 0) :=
    ⟨nofun, ⟨trivial, ⟨adds, ⟨Nat.le_refl 0, ⟨nofun, trivial⟩, ⟨nofun, trivial⟩⟩, nofun, trivial⟩,
      adds, trivial⟩, nofun, trivial⟩
  have valid : continuingLoop.All validContinues :=
    ⟨nofun,
      ⟨rfl, ⟨fun _ _ => trivial, ⟨trivial, ⟨nofun, trivial⟩, ⟨nofun, trivial⟩⟩, nofun, trivial⟩,
      fun _ _ => trivial, trivial⟩, nofun, trivial⟩
  have runs : counter.evalCode continuingLoop ⟨0, fun _ => false⟩ none ⟨3, fun _ => false⟩ := by
    rw [continuingLoop, Machine.evalCode_cons]
    refine Or.inl ⟨⟨3, fun _ => false⟩, ?_, Machine.evalCode_empty.mpr ⟨rfl, rfl⟩⟩
    rw [Machine.evalNode]
    refine .again (Or.inl rfl) (show Meaning.seq _ _ _ _ ⟨2, fun _ => false⟩ from ?_) (.leave ?_)
    · refine Or.inl ⟨⟨1, fun _ => false⟩, Or.inl ⟨rfl, ?_⟩, Machine.evalCode_last.mpr ⟨rfl, rfl⟩⟩
      refine Machine.evalCode_cons.mpr (Or.inr ⟨nofun, Machine.evalNode_if.mpr ?_⟩)
      exact Machine.evalCode_last.mpr ⟨rfl, rfl⟩
    · refine Or.inr ⟨nofun, Or.inr ⟨nofun, Machine.evalCode_cons.mpr ?_⟩⟩
      refine Or.inl ⟨⟨3, fun _ => false⟩, ?_, Machine.evalCode_last.mpr ⟨rfl, rfl⟩⟩
      exact Machine.evalNode_if.mpr (Machine.evalCode_empty.mpr ⟨rfl, rfl⟩)
  obtain ⟨finish, lowered, agrees⟩ :=
    ((lowerContinueConstructsImpl_correct 0 continuingLoop below valid rfl).2 counter).forward
      (State.Agrees.refl _) runs
  exact ⟨finish, lowered, agrees.1.symm⟩

end Functions

end SpirvToDxil.Nir
