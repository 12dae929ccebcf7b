import Mathlib.Data.Finset.Card
import Mathlib.Data.Finset.Dedup

/-!
# Saturating a set of facts

Rules with at most one premise are applied one after the other, each seeing what the rules before
it have added, until a whole scan adds nothing. What is left then is exactly what can be derived.
-/

namespace Saturation

universe u
variable {Fact : Type u}

/-- The conclusion holds, at once or because the premise does. -/
structure Rule (Fact : Type u) where
  premise : Option Fact
  conclusion : Fact

inductive Derivable (rules : List (Rule Fact)) : Fact → Prop
  | rule {rule : Rule Fact} (listed : rule ∈ rules)
      (premise : ∀ fact, rule.premise = some fact → Derivable rules fact) :
      Derivable rules rule.conclusion

def Rule.Enabled (rule : Rule Fact) (known : Finset Fact) : Prop :=
  match rule.premise with
  | none => True
  | some fact => fact ∈ known

theorem Rule.Enabled.derivable {rules : List (Rule Fact)} {rule : Rule Fact} {known : Finset Fact}
    (enabled : rule.Enabled known) (listed : rule ∈ rules)
    (sound : ∀ fact ∈ known, Derivable rules fact) : Derivable rules rule.conclusion := by
  apply Derivable.rule listed
  intro fact premise
  apply sound
  unfold Rule.Enabled at enabled
  rw [premise] at enabled
  exact enabled

variable [DecidableEq Fact]

instance (rule : Rule Fact) (known : Finset Fact) : Decidable (rule.Enabled known) := by
  unfold Rule.Enabled
  split <;> infer_instance

def apply (state : Finset Fact × Bool) (rule : Rule Fact) : Finset Fact × Bool :=
  if rule.Enabled state.1 ∧ rule.conclusion ∉ state.1 then
    (insert rule.conclusion state.1, true)
  else state

def scan (rules : List (Rule Fact)) (state : Finset Fact × Bool) : Finset Fact × Bool :=
  rules.foldl apply state

/-- Scans until nothing is added; `none` if the turns do not suffice for that. -/
def saturate (rules : List (Rule Fact)) : Nat → Finset Fact → Option (Finset Fact)
  | 0, _ => none
  | turns + 1, known =>
    let result := scan rules (known, false)
    if result.2 then saturate rules turns result.1 else some result.1

/-- What a scan makes of the facts: it keeps them, and it reports exactly whether it added one. -/
structure Scanned (rules : List (Rule Fact)) (known : Finset Fact) (flag : Bool)
    (result : Finset Fact × Bool) : Prop where
  keeps : known ⊆ result.1
  adds : ∀ fact ∈ result.1, fact ∈ known ∨ ∃ rule ∈ rules, rule.conclusion = fact
  grows : result.2 = true → flag = true ∨ known.card < result.1.card
  still : result.2 = false → flag = false ∧ result.1 = known ∧
    ∀ rule ∈ rules, rule.Enabled known → rule.conclusion ∈ known

theorem scan_spec (rules : List (Rule Fact)) (known : Finset Fact) (flag : Bool) :
    Scanned rules known flag (scan rules (known, flag)) := by
  induction rules generalizing known flag with
  | nil =>
      refine ⟨Finset.Subset.refl known, fun fact member => Or.inl member, Or.inl, ?_⟩
      intro still
      exact ⟨still, rfl, nofun⟩
  | cons rule rules inductionHypothesis =>
      unfold scan
      rw [List.foldl_cons, apply]
      by_cases fires : rule.Enabled known ∧ rule.conclusion ∉ known
      · rw [if_pos fires]
        have rest := inductionHypothesis (insert rule.conclusion known) true
        have more : known.card < (insert rule.conclusion known).card := by
          rw [Finset.card_insert_of_notMem fires.2]
          exact Nat.lt_succ_self _
        refine ⟨?_, ?_, ?_, ?_⟩
        · exact (Finset.subset_insert _ _).trans rest.keeps
        · intro fact member
          rcases rest.adds fact member with old | ⟨other, listed, same⟩
          · rcases Finset.mem_insert.mp old with here | old
            · exact Or.inr ⟨rule, List.mem_cons_self, here.symm⟩
            · exact Or.inl old
          · exact Or.inr ⟨other, List.mem_cons_of_mem _ listed, same⟩
        · intro _
          exact Or.inr (Nat.lt_of_lt_of_le more (Finset.card_le_card rest.keeps))
        · intro still
          cases (rest.still still).1
      · rw [if_neg fires]
        have rest := inductionHypothesis known flag
        refine ⟨rest.keeps, ?_, rest.grows, ?_⟩
        · intro fact member
          rcases rest.adds fact member with old | ⟨other, listed, same⟩
          · exact Or.inl old
          · exact Or.inr ⟨other, List.mem_cons_of_mem _ listed, same⟩
        · intro still
          obtain ⟨unset, same, closed⟩ := rest.still still
          refine ⟨unset, same, ?_⟩
          intro other listed enabled
          rcases List.mem_cons.mp listed with here | listed
          · subst here
            by_contra missing
            exact fires ⟨enabled, missing⟩
          · exact closed other listed enabled

theorem scan_sound {rules scanned : List (Rule Fact)} (listed : ∀ rule ∈ scanned, rule ∈ rules)
    {state : Finset Fact × Bool} (sound : ∀ fact ∈ state.1, Derivable rules fact) :
    ∀ fact ∈ (scan scanned state).1, Derivable rules fact := by
  induction scanned generalizing state with
  | nil => exact sound
  | cons rule scanned inductionHypothesis =>
      apply inductionHypothesis (fun other member => listed other (List.mem_cons_of_mem _ member))
      unfold apply
      split
      · next fires =>
        intro fact member
        rcases Finset.mem_insert.mp member with here | old
        · rw [here]
          exact fires.1.derivable (listed rule List.mem_cons_self) sound
        · exact sound fact old
      · exact sound

/-- As many turns as there are conclusions to add, and one to see that nothing is left. -/
theorem exists_saturate {rules : List (Rule Fact)} {turns : Nat} {known : Finset Fact}
    (inside : known ⊆ (rules.map Rule.conclusion).toFinset)
    (enough : rules.length < known.card + turns) :
    ∃ final, saturate rules turns known = some final := by
  have conclusions : (rules.map Rule.conclusion).toFinset.card ≤ rules.length := by
    apply (List.toFinset_card_le _).trans
    rw [List.length_map]
  induction turns generalizing known with
  | zero =>
      have few := Finset.card_le_card inside
      omega
  | succ turns inductionHypothesis =>
      have scanned := scan_spec rules known false
      unfold saturate
      by_cases progress : (scan rules (known, false)).2 = true
      · rw [if_pos progress]
        have more : known.card < (scan rules (known, false)).1.card := by
          rcases scanned.grows progress with set | more
          · cases set
          · exact more
        apply inductionHypothesis
        · intro fact member
          rcases scanned.adds fact member with old | ⟨rule, listed, same⟩
          · exact inside old
          · rw [List.mem_toFinset, ← same]
            exact List.mem_map_of_mem listed
        · omega
      · rw [if_neg progress]
        exact ⟨_, rfl⟩

theorem mem_saturate_iff {rules : List (Rule Fact)} {turns : Nat} {known final : Finset Fact}
    (sound : ∀ fact ∈ known, Derivable rules fact)
    (saturated : saturate rules turns known = some final) (fact : Fact) :
    fact ∈ final ↔ Derivable rules fact := by
  induction turns generalizing known with
  | zero => cases saturated
  | succ turns inductionHypothesis =>
      have scanned := scan_spec rules known false
      unfold saturate at saturated
      by_cases progress : (scan rules (known, false)).2 = true
      · rw [if_pos progress] at saturated
        exact inductionHypothesis (scan_sound (fun _ member => member) sound) saturated
      · rw [if_neg progress] at saturated
        cases saturated
        obtain ⟨_, same, closed⟩ := scanned.still (Bool.eq_false_iff.mpr progress)
        rw [same]
        constructor
        · exact sound fact
        · clear inductionHypothesis
          intro derivable
          induction derivable with
          | @rule rule listed premise premiseKnown =>
              apply closed rule listed
              unfold Rule.Enabled
              split
              · trivial
              · next required => exact premiseKnown _ required

end Saturation
