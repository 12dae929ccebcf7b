import SpirvToDxil.Dxil.Module.Numbering

/-!
# Flat blocks

Blocks without blocks inside: abbreviations, then records that are laid out by them
or by none. What a reader of such a block has is the list of its records.
-/

namespace SpirvToDxil

open Bitstream

/-- The records of contents, without the blocks among them. -/
def recordsOf : Contents → List CodedRecord
  | .nil => []
  | .define _ rest => recordsOf rest
  | .unabbrev code data rest => (code, data) :: recordsOf rest
  | .record _ (code :: data) rest => (code, data) :: recordsOf rest
  | .record _ [] rest => recordsOf rest
  | .block _ _ _ rest => recordsOf rest

/-- Every operand is a `uint64_t`. -/
def Words (data : List Nat) : Prop := data.length < 2 ^ 64 ∧ ∀ value ∈ data, value < 2 ^ 64

/-- A record that can be written where the given abbreviations are in scope. -/
inductive WriterCall.Fits (abbrevs : List Abbrev) : WriterCall → Prop where
  | noAbbrev {code : Nat} {data : List Nat} : code < 2 ^ 32 → Words data →
      Fits abbrevs (.emitRecordNoAbbrev code data)
  | withAbbrev {id : Nat} {a : DxilAbbrev} {layout : Abbrev} {code : Nat} {data : List Nat} :
      DXIL_FIRST_APPLICATION_ABBREV ≤ id → a.layout? = some layout → a.WidthsOk →
      abbrevs[id - 4]? = some layout →
      Abbrev.Conforms layout.fields layout.array (code :: data) → Words (code :: data) →
      Fits abbrevs (.emitRecordAbbrev id a (code :: data))

theorem nested_records {scope : Scope} (outside : scope.blockId ≠ some 0) {calls : List WriterCall}
    (fits : ∀ c ∈ calls, c.Fits scope.abbrevs) :
    ∃ contents, Nested scope calls contents scope ∧
      recordsOf contents = calls.filterMap WriterCall.record? := by
  induction calls with
  | nil => exact ⟨.nil, .nil, rfl⟩
  | cons c calls inductionHypothesis =>
    rw [List.forall_mem_cons] at fits
    rcases inductionHypothesis fits.2 with ⟨contents, nested, records⟩
    cases fits.1 with
    | @noAbbrev code data small words =>
      have same : scope.unabbrev code data = scope := by
        rw [Scope.unabbrev, if_neg]
        exact fun info => outside info.1
      refine ⟨.unabbrev code data contents, ?_, ?_⟩
      · apply Nested.emitRecordNoAbbrev small words.1 words.2
        rw [same]
        exact nested
      · rw [recordsOf, records]
        rfl
    | @withAbbrev id a layout code data application shape widths found conforms words =>
      refine ⟨.record id (code :: data) contents, ?_, ?_⟩
      · exact Nested.emitRecordAbbrev application shape widths found conforms words.1 words.2 nested
      · rw [recordsOf, records]
        rfl

theorem nested_abbrevs {scope scope' : Scope} (outside : scope.blockId ≠ some 0)
    {abbrevs : List DxilAbbrev} {layouts : List Abbrev}
    (shapes : List.Forall₂ (fun a layout => a.layout? = some layout) abbrevs layouts)
    (widths : ∀ a ∈ abbrevs, a.WidthsOk) {calls : List WriterCall} {contents : Contents}
    (nested : Nested { scope with abbrevs := scope.abbrevs ++ layouts } calls contents scope') :
    ∃ contents', Nested scope (abbrevs.map .defineAbbrev ++ calls) contents' scope' ∧
      recordsOf contents' = recordsOf contents := by
  induction shapes generalizing scope with
  | nil =>
    rw [List.append_nil] at nested
    exact ⟨contents, nested, rfl⟩
  | @cons a layout abbrevs layouts shape shapes inductionHypothesis =>
    rw [List.forall_mem_cons] at widths
    rw [← List.singleton_append, ← List.append_assoc] at nested
    rcases @inductionHypothesis { scope with abbrevs := scope.abbrevs ++ [layout] } outside widths.2
      nested with ⟨contents', nested', records⟩
    refine ⟨.define layout contents', ?_, records⟩
    apply Nested.defineAbbrev shape widths.1 _ nested'
    rw [Scope.define?, if_neg outside]

/-- What cannot be laid out by its abbreviation cannot be written in any place. -/
theorem Nested.conforms {scope scope' : Scope} {calls : List WriterCall} {contents : Contents}
    (nested : Nested scope calls contents scope') {id : Nat} {a : DxilAbbrev} {data : List Nat}
    (member : .emitRecordAbbrev id a data ∈ calls) :
    ∃ layout, a.layout? = some layout ∧ Abbrev.Conforms layout.fields layout.array data := by
  induction nested with
  | nil => cases member
  | defineAbbrev _ _ _ _ inductionHypothesis =>
    rcases List.mem_cons.mp member with same | member
    · cases same
    · exact inductionHypothesis member
  | emitRecordNoAbbrev _ _ _ _ inductionHypothesis =>
    rcases List.mem_cons.mp member with same | member
    · cases same
    · exact inductionHypothesis member
  | emitRecordAbbrev _ shape _ _ conforms _ _ _ inductionHypothesis =>
    rcases List.mem_cons.mp member with same | member
    · cases same
      exact ⟨_, shape, conforms⟩
    · exact inductionHypothesis member
  | block _ _ inBody inRest =>
    rcases List.mem_cons.mp member with same | member
    · cases same
    · rcases List.mem_append.mp member with inside | behind
      · exact inBody inside
      · rcases List.mem_cons.mp behind with same | member
        · cases same
        · exact inRest member

end SpirvToDxil
