import SpirvToDxil.Nir.LowerReturns
import SpirvToDxil.Util.JumpFlag

/-!
# Soundness of the lowering of returns

The invariant of the pass relates a list to its lowered list: where the list returns, the lowered
list sets the flag and breaks out of the loop or, outside of loops, falls through. A list that made
progress without a predicated return never falls through itself.
-/

namespace SpirvToDxil.Nir

open Structured

variable {Action Test : Type} {Memory : Type} {machine : Structured.Machine Action Test Memory}
  {flag : Nat}

/-! ## Loops -/

/-- A loop ends with a break where a round has returned. -/
theorem flagsJump_rounds {node node' : Meaning Memory}
    (lowers : FlagsJump flag .returnFunction (some .breakLoop) false node node')
    (keeps : node.Keeps flag) :
    FlagsJump flag .returnFunction none false (.Rounds node) (.Rounds node') := by
  constructor
  · intro start outcome finish unset rounds
    induction rounds with
    | leave ends =>
        obtain ⟨_, _, ends', lowered⟩ := lowers.forward unset ends
        cases lowered with
        | other => exact ⟨_, _, .leave ends', .other nofun⟩
    | escape away ends =>
        obtain ⟨_, _, ends', lowered⟩ := lowers.forward unset ends
        cases lowered with
        | other stays => exact ⟨_, _, .escape away ends', .other stays⟩
        | flagged => exact ⟨_, _, .leave ends', .flagged⟩
    | again goesOn round _ inductionHypothesis =>
        obtain ⟨_, _, round', lowered⟩ := lowers.forward unset round
        cases lowered with
        | other =>
            obtain ⟨_, _, rounds', lowered⟩ := inductionHypothesis (flag_after keeps unset round)
            exact ⟨_, _, .again goesOn round' rounds', lowered⟩
        | flagged => rcases goesOn with absurd | absurd <;> cases absurd
  · intro start outcome' finish' unset rounds
    induction rounds with
    | leave ends' =>
        obtain ⟨_, _, ends, lowered⟩ := lowers.backward unset ends'
        cases lowered with
        | other => exact ⟨_, _, .leave ends, .other nofun⟩
        | flagged => exact ⟨_, _, .escape id ends, .flagged⟩
    | escape away ends' =>
        obtain ⟨_, _, ends, lowered⟩ := lowers.backward unset ends'
        cases lowered with
        | other stays => exact ⟨_, _, .escape away ends, .other stays⟩
        | flagged => exact absurd trivial away
    | again goesOn round' _ inductionHypothesis =>
        obtain ⟨_, _, round, lowered⟩ := lowers.backward unset round'
        cases lowered with
        | other =>
            obtain ⟨_, _, rounds, lowered⟩ := inductionHypothesis (flag_after keeps unset round)
            exact ⟨_, _, .again goesOn round rounds, lowered⟩
        | flagged => rcases goesOn with absurd | absurd <;> cases absurd

/-! ## What is behind a node -/

def returnTarget (inLoop : Bool) : Option Jump := if inLoop then some .breakLoop else none

section Following

variable {inLoop : Bool} {rest : Code Action Test} {start finish : Structured.State Memory}
  {outcome : Option Jump}

theorem evalCode_predicateFollowing_of_set (set : start.registers flag = true) :
    machine.evalCode (predicateFollowing flag inLoop rest) start outcome finish ↔
      outcome = returnTarget inLoop ∧ finish = start := by
  have holds : machine.holds start (.load flag : Cond Test) = true := set
  unfold predicateFollowing returnTarget
  split
  next =>
    rw [Machine.evalCode_cons, Machine.run_nil]
    simp only [Meaning.seq, Machine.evalNode_if, holds, if_true, Machine.evalCode_last,
      Machine.run_nil]
    constructor
    · rintro (⟨_, ⟨absurd, _⟩, _⟩ | ⟨_, ends⟩)
      · cases absurd
      · exact ends
    · rintro ⟨rfl, rfl⟩
      exact Or.inr ⟨Option.some_ne_none _, rfl, rfl⟩
  next =>
    split
    next empty =>
      rw [Code.eq_empty_of_isEmpty empty, Machine.evalCode_empty]
    next =>
      rw [Machine.evalCode_cons, Machine.run_nil]
      simp only [Meaning.seq, Machine.evalNode_if, holds, if_true, Machine.evalCode_empty]
      constructor
      · rintro (⟨_, ⟨_, rfl⟩, ends⟩ | ⟨jumps, falls, _⟩)
        · exact ends
        · exact absurd falls jumps
      · rintro ⟨rfl, rfl⟩
        exact Or.inl ⟨_, ⟨trivial, rfl⟩, rfl, rfl⟩

theorem evalCode_predicateFollowing_of_unset (unset : start.registers flag = false) :
    machine.evalCode (predicateFollowing flag inLoop rest) start outcome finish ↔
      machine.evalCode rest start outcome finish := by
  have fails : machine.holds start (.load flag : Cond Test) = false := unset
  unfold predicateFollowing
  split
  next =>
    rw [Machine.evalCode_cons, Machine.run_nil]
    simp only [Meaning.seq, Machine.evalNode_if, fails, Bool.false_eq_true, if_false,
      Machine.evalCode_empty]
    constructor
    · rintro (⟨_, ⟨_, rfl⟩, runs⟩ | ⟨jumps, falls, _⟩)
      · exact runs
      · exact absurd falls jumps
    · exact fun runs => Or.inl ⟨_, ⟨trivial, rfl⟩, runs⟩
  next =>
    split
    next => rfl
    next =>
      rw [Machine.evalCode_cons, Machine.run_nil]
      simp only [Meaning.seq, Machine.evalNode_if, fails, Bool.false_eq_true, if_false,
        Machine.evalCode_empty]
      constructor
      · rintro (⟨_, runs, rfl, rfl⟩ | ⟨_, runs⟩) <;> exact runs
      · intro runs
        by_cases falls : outcome = none
        · subst falls
          exact Or.inl ⟨finish, runs, rfl, rfl⟩
        · exact Or.inr ⟨falls, runs⟩

end Following

/-! ## Predecessors -/

/-- A block without predecessors is never reached from the node in front of it. -/
theorem neverFallsThrough_of_hasPreds {node : Node Action Test} (none : hasPreds node = false) :
    NeverFallsThrough (machine.evalNode node) := by
  cases node with
  | ifNode condition thenList elseList =>
      simp only [hasPreds, Bool.or_eq_false_iff, Option.isNone_eq_false_iff,
        Option.isSome_iff_exists] at none
      obtain ⟨⟨_, thens⟩, _, elses⟩ := none
      intro start finish falls
      rw [Machine.evalNode_if] at falls
      split at falls
      · exact Machine.not_evalCode_of_lastJump thens falls
      · exact Machine.not_evalCode_of_lastJump elses falls
  | loopNode body =>
      intro start finish falls
      rw [Machine.evalNode] at falls
      obtain ⟨_, _, ends⟩ := falls.exists_break rfl
      exact Machine.not_evalCode_of_jumps (show Jump.breakLoop.IsLocal from trivial) none ends
  | continueNode body continueList =>
      simp only [hasPreds, Bool.or_eq_false_iff] at none
      intro start finish falls
      rw [Machine.evalNode] at falls
      obtain ⟨_, _, ⟨middle, -, ends⟩ | ⟨-, ⟨absurd, -⟩ | ⟨-, ends⟩⟩⟩ :=
        falls.exists_break rfl
      · exact Machine.not_evalCode_of_jumps (show Jump.breakLoop.IsLocal from trivial) none.2 ends
      · cases absurd
      · exact Machine.not_evalCode_of_jumps (show Jump.breakLoop.IsLocal from trivial) none.1 ends

/-! ## The pass -/

structure ReturnsSpec (machine : Structured.Machine Action Test Memory) (flag : Nat)
    (inLoop isBody : Bool) (code lowered : Code Action Test) (progress : Bool)
    (state : ReturnsState) : Prop where
  lowers : FlagsJump flag .returnFunction (returnTarget inLoop) isBody (machine.evalCode code)
    (machine.evalCode lowered)
  unchanged : progress = false → NeverJumps .returnFunction (machine.evalCode code)
  always : progress = true → state.hasPredicatedReturn = false →
    NeverFallsThrough (machine.evalCode code)

structure NodeReturnsSpec (machine : Structured.Machine Action Test Memory) (flag : Nat)
    (inLoop isBody : Bool) (node : Node Action Test) (rest : Code Action Test)
    (node' : Node Action Test) (following : Code Action Test) (progress : Bool)
    (state : ReturnsState) : Prop where
  lowers : FlagsJump flag .returnFunction (returnTarget inLoop) isBody
    ((machine.evalNode node).seq (machine.evalCode rest))
    ((machine.evalNode node').seq (machine.evalCode following))
  unchanged : progress = false → NeverJumps .returnFunction (machine.evalNode node)
  predicated : progress = true → state.hasPredicatedReturn = true

mutual

theorem hasPredicatedReturn_of_node {inLoop : Bool} {node node' : Node Action Test}
    {rest following : Code Action Test} {state state' : ReturnsState} {progress : Bool}
    (result : lowerReturnsInNode flag inLoop node rest state = (node', following, progress, state'))
    (already : state.hasPredicatedReturn = true) : state'.hasPredicatedReturn = true := by
  cases node with
  | ifNode condition thenList elseList =>
      rw [lowerReturnsInNode] at result
      simp only [already, Bool.or_true] at result
      split at result <;> (try split at result) <;> (try split at result) <;>
        (try split at result) <;> cases result <;> rfl
  | loopNode body =>
      rcases bodyResult : lowerReturnsInCfList flag true false true body state with
        ⟨body', bodyProgress, bodyState⟩
      have := hasPredicatedReturn_of_list bodyResult already
      rw [lowerReturnsInNode, bodyResult] at result
      dsimp only at result
      split at result <;> cases result
      · rfl
      · exact this
  | continueNode body continueList =>
      cases result
      exact already

/-- The pass never forgets a predicated return. -/
theorem hasPredicatedReturn_of_list {inLoop isBody reachable : Bool} {code code' : Code Action Test}
    {state state' : ReturnsState} {progress : Bool}
    (result : lowerReturnsInCfList flag inLoop isBody reachable code state =
      (code', progress, state'))
    (already : state.hasPredicatedReturn = true) : state'.hasPredicatedReturn = true := by
  cases code with
  | last ops jump =>
      rw [lowerReturnsInCfList] at result
      split at result <;> (try split at result) <;> (try split at result) <;>
        cases result <;> exact already
  | cons ops node rest =>
      rcases restResult : lowerReturnsInCfList flag inLoop isBody (hasPreds node) rest state with
        ⟨rest', restProgress, restState⟩
      rcases nodeResult : lowerReturnsInNode flag inLoop node rest' restState with
        ⟨node', following, nodeProgress, nodeState⟩
      have behind := hasPredicatedReturn_of_list restResult already
      have := hasPredicatedReturn_of_node nodeResult behind
      rw [lowerReturnsInCfList, restResult] at result
      simp only [nodeResult] at result
      split at result <;> cases result <;> exact this

end

theorem exists_falls_of_hasPreds {node : Node Action Test} {start middle : Structured.State Memory}
    (falls : machine.evalNode node start none middle) : hasPreds node = true := by
  cases preds : hasPreds node with
  | true => rfl
  | false => exact absurd falls (neverFallsThrough_of_hasPreds preds _ _)

/-- The list that does not return takes what is behind the conditional. -/
theorem ReturnsSpec.lowers_append {inLoop isBody : Bool} {code code' : Code Action Test}
    {progress : Bool} {state : ReturnsState} {rest rest' : Code Action Test}
    (spec : ReturnsSpec machine flag inLoop false code code' progress state)
    (avoids : code.All (.avoiding flag)) (unmade : progress = false)
    (rests : code.lastJump.isNone = true →
      FlagsJump flag .returnFunction (returnTarget inLoop) isBody
      (machine.evalCode rest) (machine.evalCode rest')) :
    FlagsJump flag .returnFunction (returnTarget inLoop) isBody
      ((machine.evalCode code).seq (machine.evalCode rest))
      (machine.evalCode (code'.append rest')) := by
  have both := spec.lowers.seq (Machine.evalCode_keeps avoids) (Or.inl (spec.unchanged unmade))
    (fun ⟨_, _, falls⟩ => rests (Machine.lastJump_of_falls falls))
  exact both.congr Iff.rfl Machine.evalCode_append

mutual

theorem lowerReturnsInNode_spec {node node' : Node Action Test} (avoids : node.All (.avoiding flag))
    (plain : node.All .plainLoops) {inLoop isBody : Bool} {rest rest' following : Code Action Test}
    {state state' : ReturnsState} {progress : Bool}
    (rests : hasPreds node = true → FlagsJump flag .returnFunction (returnTarget inLoop) isBody
      (machine.evalCode rest) (machine.evalCode rest'))
    (result : lowerReturnsInNode flag inLoop node rest' state =
      (node', following, progress, state')) :
    NodeReturnsSpec machine flag inLoop isBody node rest node' following progress state' := by
  have keeps : (machine.evalNode node).Keeps flag := Machine.evalNode_keeps avoids
  have behind : (∃ start middle, machine.evalNode node start none middle) →
      FlagsJump flag .returnFunction (returnTarget inLoop) isBody (machine.evalCode rest)
        (machine.evalCode rest') :=
    fun ⟨_, _, falls⟩ => rests (exists_falls_of_hasPreds falls)
  cases node with
  | ifNode condition thenList elseList =>
      rcases thenResult : lowerReturnsInCfList flag inLoop false true thenList
        { state with hasPredicatedReturn := false } with ⟨thenList', thenProgress, thenState⟩
      rcases elseResult : lowerReturnsInCfList flag inLoop false true elseList thenState with
        ⟨elseList', elseProgress, elseState⟩
      have thens := lowerReturnsInCfList_spec avoids.2.1 plain.2.1 thenResult
      have elses := lowerReturnsInCfList_spec avoids.2.2 plain.2.2 elseResult
      have both : FlagsJump flag .returnFunction (returnTarget inLoop) false
          (machine.evalNode (.ifNode condition thenList elseList))
          (machine.evalNode (.ifNode condition thenList' elseList')) := by
        rw [Machine.evalNode, Machine.evalNode]
        exact thens.lowers.choose elses.lowers
      have unchanged : (thenProgress || elseProgress) = false →
          NeverJumps .returnFunction (machine.evalNode (.ifNode condition thenList elseList)) := by
        intro neither start finish returns
        rw [Bool.or_eq_false_iff] at neither
        rw [Machine.evalNode_if] at returns
        split at returns
        · exact thens.unchanged neither.1 _ _ returns
        · exact elses.unchanged neither.2 _ _ returns
      rw [lowerReturnsInNode, thenResult] at result
      simp only [elseResult] at result
      by_cases outside : ((thenProgress || elseProgress) && !inLoop) = true
      · rw [if_pos outside] at result
        rw [Bool.and_eq_true, Bool.not_eq_true'] at outside
        obtain ⟨made, rfl⟩ := outside
        have predicated : (thenProgress || elseProgress || state.hasPredicatedReturn) = true := by
          rw [made, Bool.true_or]
        split at result
        next =>
          cases result
          refine ⟨?_, unchanged, fun _ => predicated⟩
          exact both.seq_of_predicated keeps behind
            (fun _ _ _ set => evalCode_predicateFollowing_of_set set)
            (fun _ _ _ unset => evalCode_predicateFollowing_of_unset unset)
        next unpredicated =>
          have elseUnpredicated := Bool.eq_false_iff.mpr unpredicated
          have thenUnpredicated : thenState.hasPredicatedReturn = false := by
            apply Bool.eq_false_iff.mpr
            exact fun already => unpredicated (hasPredicatedReturn_of_list elseResult already)
          split at result
          next returning =>
            cases result
            rw [Bool.and_eq_true] at returning
            refine ⟨?_, unchanged, fun _ => predicated⟩
            have never : NeverFallsThrough
                (machine.evalNode (.ifNode condition thenList elseList)) := by
              intro start finish falls
              rw [Machine.evalNode_if] at falls
              split at falls
              · exact thens.always returning.1 thenUnpredicated _ _ falls
              · exact elses.always returning.2 elseUnpredicated _ _ falls
            exact (both.seq_of_neverFallsThrough never).congr Iff.rfl Machine.seq_empty
          next notBoth =>
            split at result
            next thenMade =>
              cases result
              refine ⟨?_, unchanged, fun _ => predicated⟩
              have elseUnmade : elseProgress = false := by simpa [thenMade] using notBoth
              apply FlagsJump.ifNode_seq
              · exact thens.lowers.seq_of_neverFallsThrough (thens.always thenMade thenUnpredicated)
              · apply elses.lowers_append avoids.2.2 elseUnmade
                exact fun falls => rests (by rw [hasPreds, falls, Bool.or_true])
            next thenUnmade =>
              cases result
              refine ⟨?_, unchanged, fun _ => predicated⟩
              have thenUnmade := Bool.eq_false_iff.mpr thenUnmade
              have elseMade : elseProgress = true := by simpa [thenUnmade] using made
              apply FlagsJump.ifNode_seq
              · apply thens.lowers_append avoids.2.1 thenUnmade
                exact fun falls => rests (by rw [hasPreds, falls, Bool.true_or])
              · exact elses.lowers.seq_of_neverFallsThrough (elses.always elseMade elseUnpredicated)
      · rw [if_neg outside] at result
        cases result
        refine ⟨?_, unchanged, fun progress => by rw [progress]; rfl⟩
        apply both.seq keeps ?_ behind
        cases inLoop with
        | true => exact Or.inr ⟨rfl, Option.some_ne_none _⟩
        | false =>
            rw [Bool.not_false, Bool.and_true, Bool.not_eq_true] at outside
            exact Or.inl (unchanged outside)
  | loopNode body =>
      rcases bodyResult : lowerReturnsInCfList flag true false true body state with
        ⟨body', bodyProgress, bodyState⟩
      have bodies := lowerReturnsInCfList_spec avoids.2 plain.2 bodyResult
      have loops : FlagsJump flag .returnFunction none false (machine.evalNode (.loopNode body))
          (machine.evalNode (.loopNode body')) := by
        rw [Machine.evalNode, Machine.evalNode]
        exact flagsJump_rounds bodies.lowers (Machine.evalCode_keeps avoids.2)
      rw [lowerReturnsInNode, bodyResult] at result
      dsimp only at result
      split at result
      next made =>
        cases result
        refine ⟨?_, fun unmade => absurd (made.symm.trans unmade) nofun, fun _ => rfl⟩
        exact loops.seq_of_predicated keeps behind
          (fun _ _ _ set => evalCode_predicateFollowing_of_set set)
          (fun _ _ _ unset => evalCode_predicateFollowing_of_unset unset)
      next unmade =>
        cases result
        have never : NeverJumps .returnFunction (machine.evalNode (.loopNode body)) := by
          intro start finish returns
          rw [Machine.evalNode] at returns
          obtain ⟨_, _, ends⟩ := returns.exists_escape rfl
          exact bodies.unchanged (Bool.eq_false_iff.mpr unmade) _ _ ends
        refine ⟨?_, fun _ => never, fun made => absurd made unmade⟩
        exact loops.seq keeps (Or.inl never) behind
  | continueNode body continueList => exact plain.1.elim

theorem lowerReturnsInCfList_spec {code code' : Code Action Test}
    (avoids : code.All (.avoiding flag))
    (plain : code.All .plainLoops) {inLoop isBody : Bool}
    {state state' : ReturnsState} {progress : Bool}
    (result : lowerReturnsInCfList flag inLoop isBody true code state =
      (code', progress, state')) :
    ReturnsSpec machine flag inLoop isBody code code' progress state' := by
  cases code with
  | last ops jump =>
      rw [lowerReturnsInCfList] at result
      simp only [Bool.not_true, Bool.false_eq_true, if_false] at result
      split at result
      next other =>
        cases result
        refine ⟨⟨?_, ?_⟩, fun _ start finish returns => ?_, nofun⟩
        · intro start outcome finish _ ends
          refine ⟨_, _, ends, .other ?_⟩
          rw [(Machine.evalCode_last.mp ends).1]
          exact other
        · intro start outcome finish _ ends
          refine ⟨_, _, ends, .other ?_⟩
          rw [(Machine.evalCode_last.mp ends).1]
          exact other
        · exact other (Machine.evalCode_last.mp returns).1.symm
      next returns =>
        obtain rfl : jump = some .returnFunction := not_not.mp returns
        have always : NeverFallsThrough
            (machine.evalCode (.last ops (some .returnFunction))) := by
          intro start finish falls
          cases (Machine.evalCode_last.mp falls).1
        split at result
        next last =>
          subst last
          cases result
          refine ⟨⟨?_, ?_⟩, nofun, fun _ _ => always⟩
          · intro start outcome finish _ ends
            obtain ⟨rfl, rfl⟩ := Machine.evalCode_last.mp ends
            exact ⟨_, _, Machine.evalCode_last.mpr ⟨rfl, rfl⟩, .dropped⟩
          · intro start outcome finish _ ends
            obtain ⟨rfl, rfl⟩ := Machine.evalCode_last.mp ends
            exact ⟨_, _, Machine.evalCode_last.mpr ⟨rfl, rfl⟩, .dropped⟩
        next =>
          cases result
          have flagged (start : Structured.State Memory) :
              machine.run start (ops ++ [.store flag true]) =
              (machine.run start ops).store flag true := machine.run_append start ops _
          refine ⟨⟨?_, ?_⟩, nofun, fun _ _ => always⟩
          · intro start outcome finish _ ends
            obtain ⟨rfl, rfl⟩ := Machine.evalCode_last.mp ends
            exact ⟨_, _, Machine.evalCode_last.mpr ⟨rfl, (flagged start).symm⟩, .flagged⟩
          · intro start outcome finish _ ends
            obtain ⟨rfl, rfl⟩ := Machine.evalCode_last.mp ends
            rw [flagged]
            exact ⟨_, _, Machine.evalCode_last.mpr ⟨rfl, rfl⟩, .flagged⟩
  | cons ops node rest =>
      obtain ⟨front, nodeAvoids, restAvoids⟩ := avoids
      rcases restResult : lowerReturnsInCfList flag inLoop isBody (hasPreds node) rest state with
        ⟨rest', restProgress, restState⟩
      rcases nodeResult : lowerReturnsInNode flag inLoop node rest' restState with
        ⟨node', following, nodeProgress, nodeState⟩
      have rests : hasPreds node = true →
          ReturnsSpec machine flag inLoop isBody rest rest' restProgress restState := by
        intro preds
        rw [preds] at restResult
        exact lowerReturnsInCfList_spec restAvoids plain.2.2 restResult
      have nodes := lowerReturnsInNode_spec nodeAvoids plain.2.1 (fun preds => (rests preds).lowers)
        nodeResult
      rw [lowerReturnsInCfList, restResult] at result
      simp only [nodeResult, Bool.not_true, Bool.false_eq_true, if_false] at result
      cases result
      refine ⟨?_, ?_, ?_⟩
      · exact (nodes.lowers.after_run front).congr Machine.evalCode_cons Machine.evalCode_cons
      · intro unmade start finish returns
        rw [Bool.or_eq_false_iff] at unmade
        rcases Machine.evalCode_cons.mp returns with ⟨middle, falls, behind⟩ | ⟨-, inside⟩
        · exact (rests (exists_falls_of_hasPreds falls)).unchanged unmade.1 _ _ behind
        · exact nodes.unchanged unmade.2 _ _ inside
      · intro made unpredicated start finish falls
        rcases Machine.evalCode_cons.mp falls with ⟨middle, falls, behind⟩ | ⟨absurd, -⟩
        · have nodeUnmade : nodeProgress = false := by
            apply Bool.eq_false_iff.mpr
            intro nodeMade
            rw [nodes.predicated nodeMade] at unpredicated
            cases unpredicated
          rw [nodeUnmade, Bool.or_false] at made
          apply (rests (exists_falls_of_hasPreds falls)).always made _ _ _ behind
          apply Bool.eq_false_iff.mpr
          intro already
          rw [hasPredicatedReturn_of_node nodeResult already] at unpredicated
          cases unpredicated
        · exact absurd rfl

end

/-! ## The shape of the result -/

section Shape

variable {shape : Shape Action Test}

/-- What a body may consist of so that the lowered body has the shape. -/
def beforeReturns (shape : Shape Action Test) : Shape Action Test :=
  { shape with
    ends := fun jump => jump = some .returnFunction ∨ shape.ends jump
    continues := fun _ _ => False }

structure AdmitsReturns (shape : Shape Action Test) (flag : Nat) (hasFlag : Bool) : Prop where
  falls : shape.ends none
  breaks : shape.ends (some .breakLoop)
  loops : ∀ body, shape.loop body
  stores : hasFlag = true → shape.op (.store flag true)
  loads : hasFlag = true → shape.cond (.load flag)

theorem all_predicateFollowing {inLoop : Bool} {rest : Code Action Test}
    (admits : AdmitsReturns shape flag true) (rests : rest.All shape) :
    (predicateFollowing flag inLoop rest).All shape := by
  have empty := Code.All.empty admits.falls
  unfold predicateFollowing
  split
  next => exact ⟨nofun, ⟨admits.loads rfl, ⟨nofun, admits.breaks⟩, empty⟩, rests⟩
  next =>
    split
    next => exact rests
    next => exact ⟨nofun, ⟨admits.loads rfl, empty, rests⟩, empty⟩

/-- What is known of the flag and the shape after a list or a node: the flag is there whenever the
code behind a node is predicated on it. -/
structure ReturnsShape (shape : Shape Action Test) (flag : Nat) (flagged : Bool)
    (before after : ReturnsState) (lowered : Prop) : Prop where
  flagKept : before.hasFlag = true → after.hasFlag = true
  flagMade : flagged = true → after.hasFlag = true
  all : AdmitsReturns shape flag after.hasFlag → lowered

theorem AdmitsReturns.earlier {before after : Bool} (admits : AdmitsReturns shape flag after)
    (kept : before = true → after = true) : AdmitsReturns shape flag before :=
  ⟨admits.falls, admits.breaks, admits.loops, fun has => admits.stores (kept has),
    fun has => admits.loads (kept has)⟩

mutual

theorem lowerReturnsInNode_shape {node node' : Node Action Test}
    (all : node.All (beforeReturns shape)) {inLoop : Bool} {rest following : Code Action Test}
    {state state' : ReturnsState} {progress : Bool}
    (rests : AdmitsReturns shape flag state.hasFlag → rest.All shape)
    (result : lowerReturnsInNode flag inLoop node rest state =
      (node', following, progress, state')) :
    ReturnsShape shape flag progress state state' (node'.All shape ∧ following.All shape) := by
  cases node with
  | ifNode condition thenList elseList =>
      rcases thenResult : lowerReturnsInCfList flag inLoop false true thenList
        { state with hasPredicatedReturn := false } with ⟨thenList', thenProgress, thenState⟩
      rcases elseResult : lowerReturnsInCfList flag inLoop false true elseList thenState with
        ⟨elseList', elseProgress, elseState⟩
      have thens := lowerReturnsInCfList_shape all.2.1 thenResult
      have elses := lowerReturnsInCfList_shape all.2.2 elseResult
      have flagKept : state.hasFlag = true → elseState.hasFlag = true :=
        fun has => elses.flagKept (thens.flagKept has)
      have flagMade : (thenProgress || elseProgress) = true → elseState.hasFlag = true := by
        intro made
        rcases Bool.or_eq_true_iff.mp made with made | made
        · exact elses.flagKept (thens.flagMade made)
        · exact elses.flagMade made
      have inside (admits : AdmitsReturns shape flag elseState.hasFlag) :
          thenList'.All shape ∧ elseList'.All shape ∧ rest.All shape :=
        ⟨thens.all (admits.earlier elses.flagKept), elses.all admits,
          rests (admits.earlier flagKept)⟩
      rw [lowerReturnsInNode, thenResult] at result
      simp only [elseResult] at result
      split at result
      next outside =>
        rw [Bool.and_eq_true] at outside
        have has := flagMade outside.1
        split at result
        next =>
          cases result
          refine ⟨flagKept, flagMade, fun admits => ?_⟩
          obtain ⟨thenAll, elseAll, restAll⟩ := inside admits
          have admitsFlag : AdmitsReturns shape flag true := admits.earlier fun _ => has
          exact ⟨⟨all.1, thenAll, elseAll⟩, all_predicateFollowing admitsFlag restAll⟩
        next =>
          split at result
          next =>
            cases result
            refine ⟨flagKept, flagMade, fun admits => ?_⟩
            obtain ⟨thenAll, elseAll, -⟩ := inside admits
            exact ⟨⟨all.1, thenAll, elseAll⟩, Code.All.empty admits.falls⟩
          next =>
            split at result
            next =>
              cases result
              refine ⟨flagKept, flagMade, fun admits => ?_⟩
              obtain ⟨thenAll, elseAll, restAll⟩ := inside admits
              exact ⟨⟨all.1, thenAll, elseAll.append restAll⟩, Code.All.empty admits.falls⟩
            next =>
              cases result
              refine ⟨flagKept, flagMade, fun admits => ?_⟩
              obtain ⟨thenAll, elseAll, restAll⟩ := inside admits
              exact ⟨⟨all.1, thenAll.append restAll, elseAll⟩, Code.All.empty admits.falls⟩
      next =>
        cases result
        refine ⟨flagKept, flagMade, fun admits => ?_⟩
        obtain ⟨thenAll, elseAll, restAll⟩ := inside admits
        exact ⟨⟨all.1, thenAll, elseAll⟩, restAll⟩
  | loopNode body =>
      rcases bodyResult : lowerReturnsInCfList flag true false true body state with
        ⟨body', bodyProgress, bodyState⟩
      have bodies := lowerReturnsInCfList_shape all.2 bodyResult
      rw [lowerReturnsInNode, bodyResult] at result
      dsimp only at result
      split at result
      next made =>
        cases result
        refine ⟨bodies.flagKept, bodies.flagMade, fun admits => ?_⟩
        have admitsFlag : AdmitsReturns shape flag true :=
          admits.earlier fun _ => bodies.flagMade made
        exact ⟨⟨admits.loops body', bodies.all admits⟩,
          all_predicateFollowing admitsFlag (rests (admits.earlier bodies.flagKept))⟩
      next =>
        cases result
        refine ⟨bodies.flagKept, bodies.flagMade, fun admits => ?_⟩
        exact ⟨⟨admits.loops body', bodies.all admits⟩, rests (admits.earlier bodies.flagKept)⟩
  | continueNode body continueList => exact all.1.elim

/-- The pass leaves no return behind, and it adds only breaks and what deals with the flag. -/
theorem lowerReturnsInCfList_shape {code code' : Code Action Test}
    (all : code.All (beforeReturns shape)) {inLoop isBody reachable : Bool}
    {state state' : ReturnsState} {progress : Bool}
    (result : lowerReturnsInCfList flag inLoop isBody reachable code state =
      (code', progress, state')) :
    ReturnsShape shape flag (!isBody && progress) state state' (code'.All shape) := by
  cases code with
  | last ops ends =>
      rw [lowerReturnsInCfList] at result
      split at result
      next =>
        split at result <;> cases result <;>
          exact ⟨id, by simp, fun admits => Code.All.empty admits.falls⟩
      next =>
        split at result
        next other =>
          cases result
          refine ⟨id, by simp, fun _ => ⟨all.1, ?_⟩⟩
          rcases all.2 with returns | admitted
          · exact absurd returns other
          · exact admitted
        next =>
          split at result
          next last =>
            cases result
            exact ⟨id, by simp [last], fun admits => ⟨all.1, admits.falls⟩⟩
          next =>
            cases result
            refine ⟨fun _ => rfl, fun _ => rfl, fun admits => ⟨?_, ?_⟩⟩
            · apply List.forall_mem_append.mpr ⟨all.1, ?_⟩
              intro op member
              rw [List.mem_singleton.mp member]
              exact admits.stores rfl
            · cases inLoop with
              | true => exact admits.breaks
              | false => exact admits.falls
  | cons ops node rest =>
      rcases restResult : lowerReturnsInCfList flag inLoop isBody (hasPreds node) rest state with
        ⟨rest', restProgress, restState⟩
      rcases nodeResult : lowerReturnsInNode flag inLoop node rest' restState with
        ⟨node', following, nodeProgress, nodeState⟩
      have rests := lowerReturnsInCfList_shape all.2.2 restResult
      have nodes := lowerReturnsInNode_shape all.2.1 rests.all nodeResult
      have flagKept : state.hasFlag = true → nodeState.hasFlag = true :=
        fun has => nodes.flagKept (rests.flagKept has)
      have flagMade : (!isBody && (restProgress || nodeProgress)) = true →
          nodeState.hasFlag = true := by
        intro made
        rw [Bool.and_eq_true] at made
        rcases Bool.or_eq_true_iff.mp made.2 with restMade | nodeMade
        · exact nodes.flagKept (rests.flagMade (by rw [made.1, restMade]; rfl))
        · exact nodes.flagMade nodeMade
      rw [lowerReturnsInCfList, restResult] at result
      simp only [nodeResult] at result
      split at result <;> cases result
      · exact ⟨flagKept, flagMade, fun admits => Code.All.empty admits.falls⟩
      · refine ⟨flagKept, flagMade, fun admits => ⟨all.1, ?_⟩⟩
        exact nodes.all admits

end

end Shape

/-! ## Functions -/

/-- A return ends the function like its last block. -/
def endOfFunction (ends : Option Jump) : Option Jump :=
  if ends = some .returnFunction then none else ends

/-- From the same state, the two meanings end alike but for the flag. -/
theorem exists_store_iff_of_flagsJump {meaning lowered : Meaning Memory}
    (lowers : FlagsJump flag .returnFunction none true meaning lowered)
    {start finish : Structured.State Memory}
    {outcome : Option Jump} (unset : start.registers flag = false) :
    (∃ value, lowered start outcome (finish.store flag value)) ↔
      ∃ ends value, meaning start ends (finish.store flag value) ∧
        outcome = endOfFunction ends := by
  have same (value : Bool) {final : Structured.State Memory}
      (stored : final.store flag true = finish.store flag value) :
      final = finish.store flag (final.registers flag) := by
    have stored' := congrArg (·.store flag (final.registers flag)) stored
    simpa using stored'
  constructor
  · rintro ⟨value, runs⟩
    obtain ⟨ends, final, runs', related⟩ := lowers.backward unset runs
    generalize target : finish.store flag value = reached at related
    cases related with
    | other stays =>
        subst target
        exact ⟨_, _, runs', by rw [endOfFunction, if_neg stays]⟩
    | flagged =>
        rw [same value target.symm] at runs'
        exact ⟨_, _, runs', rfl⟩
    | dropped =>
        subst target
        exact ⟨_, _, runs', rfl⟩
  · rintro ⟨ends, value, runs, rfl⟩
    obtain ⟨_, _, runs', related⟩ := lowers.forward unset runs
    cases related with
    | other stays =>
        rw [endOfFunction, if_neg stays]
        exact ⟨_, runs'⟩
    | flagged =>
        rw [State.store_store] at runs'
        exact ⟨_, runs'⟩
    | dropped => exact ⟨_, runs'⟩

theorem lowerReturnsImpl_below {registers : Nat} {body : Code Action Test}
    (below : body.All (.below registers)) (plain : body.All .plainLoops) :
    (lowerReturnsImpl registers body).1.All (.below (lowerReturnsImpl registers body).2.2) := by
  rcases result : lowerReturnsInCfList registers false true true body {} with
    ⟨lowered, progress, state⟩
  have all (limit : Nat) (most : registers ≤ limit) : body.All (beforeReturns (.below limit)) :=
    Code.All.mono ((below.below_mono most).and plain) ⟨fun _ => And.left, fun _ => And.left,
      fun _ _ => Or.inr trivial, fun _ => And.left, fun _ _ => And.right⟩
  rw [lowerReturnsImpl, result]
  dsimp only
  cases has : state.hasFlag with
  | true =>
      simp only [if_true]
      have shaped := (lowerReturnsInCfList_shape (all _ (Nat.le_succ registers)) result).all
        ⟨trivial, trivial, fun _ => trivial, fun _ => Nat.le_refl _, fun _ => Nat.le_refl _⟩
      apply shaped.prepend
      intro op member
      rw [List.mem_singleton.mp member]
      exact Nat.le_refl _
  | false =>
      simp only [Bool.false_eq_true, if_false]
      exact (lowerReturnsInCfList_shape (all _ (Nat.le_refl registers)) result).all
        ⟨trivial, trivial, fun _ => trivial, by simp [has], by simp [has]⟩

theorem lowerReturnsImpl_shape {registers : Nat} {body : Code Action Test}
    {ends : Option Jump → Prop} (falls : ends none) (breaks : ends (some .breakLoop))
    (all : body.All
      { ends := fun jump => jump = some .returnFunction ∨ ends jump,
        continues := fun _ _ => False }) :
    (lowerReturnsImpl registers body).1.All { ends := ends, continues := fun _ _ => False } := by
  rcases result : lowerReturnsInCfList registers false true true body {} with
    ⟨lowered, progress, state⟩
  have before : body.All (beforeReturns { ends := ends, continues := fun _ _ => False }) := all
  have shaped := (lowerReturnsInCfList_shape before result).all
    ⟨falls, breaks, fun _ => trivial, fun _ => trivial, fun _ => trivial⟩
  rw [lowerReturnsImpl, result]
  dsimp only
  split
  · exact shaped.prepend fun _ _ => trivial
  · exact shaped

/-- The lowered function has no returns, and from every state it ends exactly where the function
ends or returns; the flag apart, in the same states. -/
theorem lowerReturnsImpl_correct (registers : Nat) (body : Code Action Test)
    (below : body.All (.below registers)) (plain : body.All .plainLoops) :
    (lowerReturnsImpl registers body).1.All
        { ends := (· ≠ some .returnFunction), continues := fun _ _ => False } ∧
      ∀ {Memory : Type} (machine : Structured.Machine Action Test Memory)
        (start finish : Structured.State Memory) (outcome : Option Jump),
        (∃ value, machine.evalCode (lowerReturnsImpl registers body).1 start outcome
          (finish.store registers value)) ↔
        ∃ ends value, machine.evalCode body start ends (finish.store registers value) ∧
          outcome = endOfFunction ends := by
  have avoids : body.All (.avoiding registers) := Code.avoids_of_below below (Nat.le_refl _)
  refine ⟨lowerReturnsImpl_shape nofun nofun ?_, fun machine start finish outcome => ?_⟩
  · exact plain.mono ⟨fun _ => id, fun _ => id, fun jump _ => em (jump = _), fun _ => id,
      fun _ _ => id⟩
  · rcases result : lowerReturnsInCfList registers false true true body {} with
      ⟨lowered, progress, state⟩
    have spec : ReturnsSpec machine registers false true body lowered progress state :=
      lowerReturnsInCfList_spec avoids plain result
    have unset : (start.store registers false).registers registers = false := by simp
    have initialised : (∃ value, machine.evalCode (lowerReturnsImpl registers body).1 start outcome
          (finish.store registers value)) ↔
        ∃ value, machine.evalCode lowered (start.store registers false) outcome
          (finish.store registers value) := by
      rw [lowerReturnsImpl, result]
      dsimp only
      cases has : state.hasFlag with
      | true => simp only [if_true, Machine.evalCode_prepend]; rfl
      | false =>
          have all : body.All (beforeReturns (.avoiding registers)) :=
            Code.All.mono (avoids.and plain) ⟨fun _ => And.left, fun _ => And.left,
              fun _ _ => Or.inr trivial, fun _ => And.left, fun _ _ => And.right⟩
          have untouched := (lowerReturnsInCfList_shape all result).all
            ⟨trivial, trivial, fun _ => trivial, by simp [has], by simp [has]⟩
          exact ((Machine.evalCode_keeps untouched).exists_store_iff false).symm
    rw [initialised, exists_store_iff_of_flagsJump spec.lowers unset]
    constructor
    · rintro ⟨ends, value, runs, rfl⟩
      obtain ⟨after, runs⟩ := ((Machine.evalCode_keeps avoids).exists_store_iff false).mp ⟨_, runs⟩
      exact ⟨ends, after, runs, rfl⟩
    · rintro ⟨ends, value, runs, rfl⟩
      obtain ⟨after, runs⟩ := ((Machine.evalCode_keeps avoids).exists_store_iff false).mpr ⟨_, runs⟩
      exact ⟨ends, after, runs, rfl⟩

/-- Numbers that actions add to, tested for being equal to a number. -/
def counter : Structured.Machine Nat Nat Nat where
  exec := fun step count => count + step
  truth := fun value count => count == value

/-- An early return skips the end of the function. -/
def earlyReturn : Code Nat Nat :=
  .cons [] (.ifNode (.test 0) (.last [] (some .returnFunction)) .empty) (.last [.action 1] none)

theorem lowerReturnsImpl_correct_earlyReturn :
    ∃ value, counter.evalCode (lowerReturnsImpl 0 earlyReturn).1 ⟨0, fun _ => false⟩ none
      (State.store ⟨0, fun _ => false⟩ 0 value) := by
  have below : earlyReturn.All (.below 0) :=
    ⟨nofun, ⟨Nat.le_refl 0, ⟨nofun, trivial⟩, ⟨nofun, trivial⟩⟩,
      fun op member => by rw [List.mem_singleton.mp member]; exact Nat.le_refl 0, trivial⟩
  have plain : earlyReturn.All .plainLoops :=
    ⟨nofun, ⟨trivial, ⟨nofun, trivial⟩, ⟨nofun, trivial⟩⟩, fun _ _ => trivial, trivial⟩
  have returns : counter.evalCode earlyReturn ⟨0, fun _ => false⟩ (some .returnFunction)
      (State.store ⟨0, fun _ => false⟩ 0 false) := by
    refine Machine.evalCode_cons.mpr (Or.inr ⟨nofun, Machine.evalNode_if.mpr ?_⟩)
    exact Machine.evalCode_last.mpr ⟨rfl, State.store_self ⟨0, fun _ => false⟩ 0⟩
  exact ((lowerReturnsImpl_correct 0 earlyReturn below plain).2 counter _ _ none).mpr
    ⟨_, _, returns, rfl⟩

end SpirvToDxil.Nir
