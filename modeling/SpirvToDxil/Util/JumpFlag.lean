import SpirvToDxil.Util.Structured

/-!
# Jumps that set a flag

A transformation of structured programs may replace a jump by a store to a flag, followed by another
jump or by nothing. The meaning of the new code is that of the old one with the jump replaced, as
long as the flag is not set at the start.
-/

namespace Structured

universe u v w

variable {Action : Type u} {Test : Type v} {Memory : Type w} {machine : Machine Action Test Memory}

/-- How the new code ends where the old code ends with `outcome`. A jump that is dropped does not
set the flag. -/
inductive JumpFlagged (flag : Nat) (jump : Jump) (target : Option Jump) :
    Bool → Option Jump → State Memory → Option Jump → State Memory → Prop
  | other {dropped : Bool} {outcome : Option Jump} {finish : State Memory}
      (stays : outcome ≠ some jump) :
      JumpFlagged flag jump target dropped outcome finish outcome finish
  | flagged {dropped : Bool} {finish : State Memory} :
      JumpFlagged flag jump target dropped (some jump) finish target (finish.store flag true)
  | dropped {finish : State Memory} :
      JumpFlagged flag jump target true (some jump) finish none finish

structure FlagsJump (flag : Nat) (jump : Jump) (target : Option Jump) (dropped : Bool)
    (meaning lowered : Meaning Memory) : Prop where
  forward : ∀ ⦃start outcome finish⦄, start.registers flag = false →
    meaning start outcome finish → ∃ outcome' finish', lowered start outcome' finish' ∧
      JumpFlagged flag jump target dropped outcome finish outcome' finish'
  backward : ∀ ⦃start outcome' finish'⦄, start.registers flag = false →
    lowered start outcome' finish' → ∃ outcome finish, meaning start outcome finish ∧
      JumpFlagged flag jump target dropped outcome finish outcome' finish'

def NeverJumps (jump : Jump) (meaning : Meaning Memory) : Prop :=
  ∀ start finish, ¬ meaning start (some jump) finish

def NeverFallsThrough (meaning : Meaning Memory) : Prop :=
  ∀ start finish, ¬ meaning start none finish

section Sequence

variable {flag : Nat} {jump : Jump} {target nodeTarget : Option Jump} {dropped : Bool}
  {node node' rest rest' : Meaning Memory}

/-- Code that keeps the flag has not set it. -/
theorem flag_after (keeps : node.Keeps flag) {start middle : State Memory}
    (unset : start.registers flag = false) {outcome : Option Jump}
    (ran : node start outcome middle) : middle.registers flag = false :=
  (keeps ran).1.trans unset

theorem JumpFlagged.dropped_of_false {outcome outcome' : Option Jump}
    {finish finish' : State Memory}
    (ends : JumpFlagged flag jump target false outcome finish outcome' finish') :
    JumpFlagged flag jump target dropped outcome finish outcome' finish' := by
  cases ends with
  | other stays => exact .other stays
  | flagged => exact .flagged

/-- Nothing is to be done behind code that never jumps, or whose jumps lead away. -/
theorem FlagsJump.seq (lowers : FlagsJump flag jump nodeTarget false node node')
    (keeps : node.Keeps flag)
    (away : NeverJumps jump node ∨ nodeTarget = target ∧ target ≠ none)
    (rests : (∃ start middle, node start none middle) →
      FlagsJump flag jump target dropped rest rest') :
    FlagsJump flag jump target dropped (node.seq rest) (node'.seq rest') := by
  constructor
  · rintro start outcome finish unset (⟨middle, falls, ran⟩ | ⟨jumps, ends⟩)
    · obtain ⟨_, _, falls', ends⟩ := lowers.forward unset falls
      cases ends with
      | other =>
          obtain ⟨outcome', finish', ran', ends⟩ :=
            (rests ⟨_, _, falls⟩).forward (flag_after keeps unset falls) ran
          exact ⟨outcome', finish', Or.inl ⟨_, falls', ran'⟩, ends⟩
    · obtain ⟨_, _, ends', lowered⟩ := lowers.forward unset ends
      cases lowered with
      | other stays => exact ⟨_, _, Or.inr ⟨jumps, ends'⟩, .other stays⟩
      | flagged =>
          rcases away with never | ⟨rfl, jumps'⟩
          · exact absurd ends (never _ _)
          · exact ⟨_, _, Or.inr ⟨jumps', ends'⟩, .flagged⟩
  · rintro start outcome' finish' unset (⟨middle, falls', ran'⟩ | ⟨jumps, ends'⟩)
    · obtain ⟨_, _, falls, lowered⟩ := lowers.backward unset falls'
      cases lowered with
      | other =>
          obtain ⟨outcome, finish, ran, ends⟩ :=
            (rests ⟨_, _, falls⟩).backward (flag_after keeps unset falls) ran'
          exact ⟨outcome, finish, Or.inl ⟨_, falls, ran⟩, ends⟩
      | flagged =>
          rcases away with never | ⟨rfl, jumps'⟩
          · exact absurd falls (never _ _)
          · exact absurd rfl jumps'
    · obtain ⟨_, _, ends, lowered⟩ := lowers.backward unset ends'
      cases lowered with
      | other stays => exact ⟨_, _, Or.inr ⟨jumps, ends⟩, .other stays⟩
      | flagged =>
          rcases away with never | ⟨rfl, -⟩
          · exact absurd ends (never _ _)
          · exact ⟨_, _, Or.inr ⟨Option.some_ne_none _, ends⟩, .flagged⟩

/-- Nothing runs behind code that never falls through. -/
theorem FlagsJump.seq_of_neverFallsThrough (lowers : FlagsJump flag jump target false node node')
    (never : NeverFallsThrough node) :
    FlagsJump flag jump target dropped (node.seq rest) node' := by
  constructor
  · rintro start outcome finish unset (⟨middle, falls, -⟩ | ⟨-, ends⟩)
    · exact absurd falls (never _ _)
    · obtain ⟨_, _, ends', lowered⟩ := lowers.forward unset ends
      exact ⟨_, _, ends', lowered.dropped_of_false⟩
  · intro start outcome' finish' unset ends'
    obtain ⟨outcome, finish, ends, lowered⟩ := lowers.backward unset ends'
    refine ⟨outcome, finish, Or.inr ⟨?_, ends⟩, lowered.dropped_of_false⟩
    rintro rfl
    exact never _ _ ends

/-- What is behind code whose jumps fall through is predicated on the flag. -/
theorem FlagsJump.seq_of_predicated {following : Meaning Memory}
    (lowers : FlagsJump flag jump none false node node') (keeps : node.Keeps flag)
    (rests : (∃ start middle, node start none middle) →
      FlagsJump flag jump target dropped rest rest')
    (whenSet : ∀ start outcome finish, start.registers flag = true →
      (following start outcome finish ↔ outcome = target ∧ finish = start))
    (whenUnset : ∀ start outcome finish, start.registers flag = false →
      (following start outcome finish ↔ rest' start outcome finish)) :
    FlagsJump flag jump target dropped (node.seq rest) (node'.seq following) := by
  constructor
  · rintro start outcome finish unset (⟨middle, falls, ran⟩ | ⟨jumps, ends⟩)
    · have still := flag_after keeps unset falls
      obtain ⟨_, _, falls', ends⟩ := lowers.forward unset falls
      cases ends with
      | other =>
          obtain ⟨outcome', finish', ran', ends⟩ := (rests ⟨_, _, falls⟩).forward still ran
          exact ⟨outcome', finish', Or.inl ⟨_, falls', (whenUnset _ _ _ still).mpr ran'⟩, ends⟩
    · obtain ⟨_, _, ends', lowered⟩ := lowers.forward unset ends
      cases lowered with
      | other stays => exact ⟨_, _, Or.inr ⟨jumps, ends'⟩, .other stays⟩
      | flagged =>
          have skipped := (whenSet (finish.store flag true) target _ (by simp)).mpr ⟨rfl, rfl⟩
          exact ⟨_, _, Or.inl ⟨_, ends', skipped⟩, .flagged⟩
  · rintro start outcome' finish' unset (⟨middle, falls', ran'⟩ | ⟨jumps, ends'⟩)
    · obtain ⟨_, _, falls, lowered⟩ := lowers.backward unset falls'
      cases lowered with
      | other =>
          have still := flag_after keeps unset falls
          obtain ⟨outcome, finish, ran, ends⟩ :=
            (rests ⟨_, _, falls⟩).backward still ((whenUnset _ _ _ still).mp ran')
          exact ⟨outcome, finish, Or.inl ⟨_, falls, ran⟩, ends⟩
      | flagged =>
          obtain ⟨rfl, rfl⟩ := (whenSet _ _ _ (by simp)).mp ran'
          exact ⟨_, _, Or.inr ⟨Option.some_ne_none _, falls⟩, .flagged⟩
    · obtain ⟨_, _, ends, lowered⟩ := lowers.backward unset ends'
      cases lowered with
      | other stays => exact ⟨_, _, Or.inr ⟨jumps, ends⟩, .other stays⟩
      | flagged => exact absurd rfl jumps

theorem FlagsJump.congr (lowers : FlagsJump flag jump target dropped node node')
    (same : ∀ {start outcome finish}, rest start outcome finish ↔ node start outcome finish)
    (same' : ∀ {start outcome finish}, rest' start outcome finish ↔ node' start outcome finish) :
    FlagsJump flag jump target dropped rest rest' := by
  constructor
  · intro start outcome finish unset runs
    simp only [same']
    exact lowers.forward unset (same.mp runs)
  · intro start outcome finish unset runs
    simp only [same]
    exact lowers.backward unset (same'.mp runs)

theorem FlagsJump.of_neverJumps (never : NeverJumps jump node) :
    FlagsJump flag jump target dropped node node := by
  constructor
  · rintro start outcome finish - runs
    refine ⟨_, _, runs, .other ?_⟩
    rintro rfl
    exact never _ _ runs
  · rintro start outcome finish - runs
    refine ⟨_, _, runs, .other ?_⟩
    rintro rfl
    exact never _ _ runs

theorem FlagsJump.after_run {ops : List (Op Action)} (avoids : ∀ op ∈ ops, op.Avoids flag)
    (lowers : FlagsJump flag jump target dropped node node') :
    FlagsJump flag jump target dropped (fun start => node (machine.run start ops))
      (fun start => node' (machine.run start ops)) := by
  constructor
  · intro start outcome finish unset runs
    exact lowers.forward ((Machine.registers_run avoids start).trans unset) runs
  · intro start outcome finish unset runs
    exact lowers.backward ((Machine.registers_run avoids start).trans unset) runs

theorem FlagsJump.choose {other other' : Meaning Memory} {test : State Memory → Bool}
    (lowers : FlagsJump flag jump target dropped node node')
    (lowersOther : FlagsJump flag jump target dropped other other') :
    FlagsJump flag jump target dropped (.choose test node other) (.choose test node' other') := by
  constructor <;> intro start _ _ unset runs <;> unfold Meaning.choose at runs ⊢ <;>
    by_cases holds : test start = true
  · simp only [if_pos holds] at runs ⊢
    exact lowers.forward unset runs
  · simp only [if_neg holds] at runs ⊢
    exact lowersOther.forward unset runs
  · simp only [if_pos holds] at runs ⊢
    exact lowers.backward unset runs
  · simp only [if_neg holds] at runs ⊢
    exact lowersOther.backward unset runs

/-- What is behind a conditional moves into both of its lists. -/
theorem FlagsJump.ifNode_seq {condition : Cond Test}
    {thenList elseList thenList' elseList' : Code Action Test}
    (thens : FlagsJump flag jump target dropped ((machine.evalCode thenList).seq rest)
      (machine.evalCode thenList'))
    (elses : FlagsJump flag jump target dropped ((machine.evalCode elseList).seq rest)
      (machine.evalCode elseList')) :
    FlagsJump flag jump target dropped
      ((machine.evalNode (.ifNode condition thenList elseList)).seq rest)
      ((machine.evalNode (.ifNode condition thenList' elseList')).seq
        (machine.evalCode .empty)) := by
  rw [Machine.evalNode, Machine.evalNode]
  exact (thens.choose elses).congr Meaning.choose_seq Machine.seq_empty

end Sequence

end Structured
