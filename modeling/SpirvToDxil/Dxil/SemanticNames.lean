import Mathlib.Data.List.Forall2
import SpirvToDxil.Dxil.Container
import SpirvToDxil.Util.StringTable

/-!
# Semantic names of a signature part

The offsets that `get_semantic_name_offset` hands out count from the start of the payload, where
the header and the elements are in front of the names. `Collected` relates the cache and the
buffer to the table of the names seen so far.
-/

namespace SpirvToDxil

open Bitstream StringTable

def SharesName (validator7 : Bool) (name : List UInt8) : Prop :=
  validator7 ∨ name.take 3 = [83, 86, 95]

instance (validator7 : Bool) : DecidablePred (SharesName validator7) :=
  fun _ => inferInstanceAs (Decidable (_ ∨ _))

def writtenNames (validator7 : Bool) (ioData : List SignatureRecord) : List (List UInt8) :=
  (ioData.map SignatureRecord.name).foldl (StringTable.insert (SharesName validator7)) []

/-- The table of names, up to four bytes for newer validators. -/
def nameTable (validator7 : Bool) (ioData : List SignatureRecord) : List UInt8 :=
  let names := table 0 (writtenNames validator7 ioData)
  if validator7 ∧ names.length % 4 ≠ 0 then names ++ List.replicate (4 - names.length % 4) 0
  else names

/-- The cache and the buffer after `written`, whose table starts `base` bytes into the payload. -/
structure Collected (validator7 : Bool) (base : Nat) (written : List (List UInt8))
    (names : SemanticNames) : Prop where
  buf : names.buf = table 0 written
  cached : ∀ name, SharesName validator7 name → name ∈ written →
    ∃ offset, (name, offset) ∈ names.entries
  resolved : ∀ name offset, (name, offset) ∈ names.entries →
    name ∈ written ∧ ∃ place, offset = base + place ∧ ReadsAt 0 name names.buf place

theorem collected_init (validator7 : Bool) (base : Nat) :
    Collected validator7 base [] ⟨[], []⟩ where
  buf := rfl
  cached _ _ member := absurd member List.not_mem_nil
  resolved _ _ member := absurd member List.not_mem_nil

section

variable {validator7 : Bool} {base : Nat} {written : List (List UInt8)} {names : SemanticNames}

theorem appendLen_eq {buf bytes : List UInt8} (small : (buf ++ bytes).length < 2 ^ 31) :
    appendLen buf bytes = buf ++ bytes := by
  rw [List.length_append] at small
  rw [appendLen, if_pos (by omega)]

theorem Collected.append (collected : Collected validator7 base written names)
    (name : List UInt8) {entries : List (List UInt8 × Nat)}
    (kept : ∀ entry ∈ names.entries, entry ∈ entries)
    (added : ∀ entry ∈ entries, entry ∈ names.entries ∨
      entry = (name, base + names.buf.length))
    (remembered : SharesName validator7 name → (name, base + names.buf.length) ∈ entries) :
    Collected validator7 base (written ++ [name]) ⟨entries, names.buf ++ (name ++ [0])⟩ where
  buf := by rw [collected.buf, table_append_singleton]
  cached other shared member := by
    cases List.mem_append.mp member with
    | inl before =>
        obtain ⟨offset, entry⟩ := collected.cached other shared before
        exact ⟨offset, kept _ entry⟩
    | inr last =>
        rw [List.mem_singleton] at last
        subst last
        exact ⟨_, remembered shared⟩
  resolved other offset entry := by
    cases added _ entry with
    | inl before =>
        obtain ⟨member, place, here, reads⟩ := collected.resolved other offset before
        exact ⟨List.mem_append_left _ member, place, here, reads.append _⟩
    | inr last =>
        obtain ⟨rfl, rfl⟩ := Prod.mk.inj last
        exact ⟨List.mem_append_right _ List.mem_cons_self, _, rfl, ReadsAt.atEnd _ _⟩

theorem Collected.getSemanticNameOffset (collected : Collected validator7 base written names)
    {name : List UInt8} {offset : Nat} {names' : SemanticNames} (small : base < 2 ^ 31)
    (fits : (table 0 (StringTable.insert (SharesName validator7) written name)).length < 2 ^ 31)
    (found : getSemanticNameOffset names name base validator7 = some (offset, names')) :
    Collected validator7 base (StringTable.insert (SharesName validator7) written name) names' ∧
      names.buf <+: names'.buf ∧
      ∃ place, offset = base + place ∧ ReadsAt 0 name names'.buf place := by
  have buf := collected.buf
  have bounded := Nat.lt_of_le_of_lt
    (@length_table_le_insert UInt8 0 _ (SharesName validator7) _ written name) fits
  have offsetHere : (names.buf.length + base) % 2 ^ 32 = base + names.buf.length := by
    rw [buf]
    omega
  rw [StringTable.insert] at fits ⊢
  unfold SpirvToDxil.getSemanticNameOffset at found
  simp only [offsetHere] at found
  have appended : name ∉ written ∨ ¬SharesName validator7 name →
      appendLen names.buf (name ++ [0]) = names.buf ++ (name ++ [0]) := by
    intro new
    apply appendLen_eq
    rw [if_neg (by tauto), table_append_singleton, ← buf] at fits
    exact fits
  split at found
  · next shared =>
      split at found
      · next entry first =>
          obtain ⟨rfl, rfl⟩ := Prod.mk.inj (Option.some.inj found)
          have same : entry.1 = name := by simpa using List.find?_some first
          obtain ⟨member, place, here, reads⟩ :=
            collected.resolved entry.1 entry.2 (List.mem_of_find?_eq_some first)
          rw [same] at member reads
          rw [if_pos ⟨shared, member⟩]
          exact ⟨collected, List.prefix_rfl, place, here, reads⟩
      · next first =>
          have new : name ∉ written := by
            intro member
            obtain ⟨offset, entry⟩ := collected.cached name shared member
            exact (List.find?_eq_none.mp first _ entry) (by simp)
          split at found
          · obtain ⟨rfl, rfl⟩ := Prod.mk.inj (Option.some.inj found)
            rw [if_neg fun both => new both.2, appended (.inl new)]
            refine ⟨?_, List.prefix_append _ _, _, rfl, ReadsAt.atEnd _ _⟩
            apply collected.append name
            · exact fun entry member => List.mem_append_left _ member
            · intro entry member
              simpa using member
            · exact fun _ => List.mem_append_right _ List.mem_cons_self
          · cases found
  · next alone =>
      obtain ⟨rfl, rfl⟩ := Prod.mk.inj (Option.some.inj found)
      rw [if_neg fun both => alone both.1, appended (.inr alone)]
      refine ⟨?_, List.prefix_append _ _, _, rfl, ReadsAt.atEnd _ _⟩
      apply collected.append name
      · exact fun entry member => member
      · exact fun entry member => .inl member
      · exact fun shared => absurd shared alone

/-- A record of the part whose elements point at its name in `payload`. -/
def Named (payload : List UInt8) (io named : SignatureRecord) : Prop :=
  ∃ offset, offset < 2 ^ 32 ∧ named = io.setSemanticNameOffset offset ∧
    offset + io.name.length < payload.length ∧ ReadsAt 0 io.name payload offset

theorem Collected.collectNames (collected : Collected validator7 base written names)
    {ioData ioData' : List SignatureRecord} {names' : SemanticNames} (small : base < 2 ^ 31)
    (fits : (table 0 ((ioData.map SignatureRecord.name).foldl
      (StringTable.insert (SharesName validator7)) written)).length < 2 ^ 31)
    (found : collectNames base validator7 names ioData = some (ioData', names')) :
    names'.buf = table 0 ((ioData.map SignatureRecord.name).foldl
      (StringTable.insert (SharesName validator7)) written) ∧
    names.buf <+: names'.buf ∧
    ∀ front : List UInt8, front.length = base →
      List.Forall₂ (Named (front ++ names'.buf)) ioData ioData' := by
  induction ioData generalizing written names ioData' with
  | nil =>
      obtain ⟨rfl, rfl⟩ := Prod.mk.inj (Option.some.inj found)
      exact ⟨collected.buf, List.prefix_rfl, fun _ _ => .nil⟩
  | cons io ioData inductionHypothesis =>
      simp only [SpirvToDxil.collectNames, Option.bind_eq_bind, Option.bind_eq_some_iff] at found
      obtain ⟨⟨offset, names₁⟩, here, ⟨rest, names₂⟩, behind, result⟩ := found
      obtain ⟨rfl, rfl⟩ := Prod.mk.inj (Option.some.inj result)
      rw [List.map_cons, List.foldl_cons] at fits ⊢
      have fitsHere := Nat.lt_of_le_of_lt (length_table_le_foldl _ _ _) fits
      obtain ⟨collected₁, grown, place, rfl, reads⟩ :=
        collected.getSemanticNameOffset small fitsHere here
      obtain ⟨buf, grownRest, named⟩ := inductionHypothesis collected₁ fits behind
      refine ⟨buf, grown.trans grownRest, fun front size => .cons ?_ (named front size)⟩
      have final := reads.grow grownRest
      have inside := final.inside
      refine ⟨base + place, ?_, rfl, ?_, ?_⟩
      · rw [buf] at inside
        omega
      · rw [List.length_append]
        omega
      · rw [← size]
        exact final.behind front

end

theorem Named.append {payload : List UInt8} {io named : SignatureRecord}
    (here : Named payload io named) (rest : List UInt8) : Named (payload ++ rest) io named := by
  obtain ⟨offset, small, same, inside, reads⟩ := here
  refine ⟨offset, small, same, ?_, reads.append rest⟩
  rw [List.length_append]
  exact Nat.lt_of_lt_of_le inside (Nat.le_add_right _ _)

theorem paramCount_le (io : IoData) : paramCount io.records ≤ 32 * DXIL_SHADER_MAX_IO_ROWS := by
  have each : ∀ ioData : List SignatureRecord, paramCount ioData ≤ 32 * ioData.length := by
    intro ioData
    induction ioData with
    | nil => exact Nat.le_refl _
    | cons io ioData inductionHypothesis =>
        have own := io.inArray
        rw [paramCount] at inductionHypothesis ⊢
        rw [List.map_cons, List.sum_cons, List.length_cons]
        omega
  exact Nat.le_trans (each io.records) (Nat.mul_le_mul_left 32 io.inArray)

/-- The loop and the padding write the table of names. -/
theorem collectSemanticNames_eq (io : IoData) (validator7 : Bool)
    (fits : (nameTable validator7 io.records).length < 2 ^ 31) :
    ∃ ioData, collectSemanticNames io.records (8 + 32 * paramCount io.records) validator7 =
        some (ioData, nameTable validator7 io.records) ∧
      paramCount ioData = paramCount io.records ∧
      ∀ front : List UInt8, front.length = 8 + 32 * paramCount io.records →
        List.Forall₂ (Named (front ++ nameTable validator7 io.records)) io.records ioData := by
  have count := paramCount_le io
  rw [DXIL_SHADER_MAX_IO_ROWS] at count
  obtain ⟨ioData, names, collected, counts⟩ := @collectNames_isSome ⟨[], []⟩ io.records
    (8 + 32 * paramCount io.records) validator7 (by simpa using io.inArray)
  have unpadded : (table 0 (writtenNames validator7 io.records)).length < 2 ^ 31 := by
    apply Nat.lt_of_le_of_lt _ fits
    rw [nameTable]
    split
    · rw [List.length_append]
      exact Nat.le_add_right _ _
    · exact Nat.le_refl _
  obtain ⟨buf, -, named⟩ := (collected_init validator7 _).collectNames (by omega) unpadded collected
  refine ⟨ioData, ?_, counts, ?_⟩
  · simp only [collectSemanticNames, collected, Option.bind_eq_bind, Option.bind_some]
    rw [buf, ← writtenNames, nameTable]
    rw [nameTable] at fits
    split
    · next odd =>
        rw [if_pos odd] at fits
        rw [appendLen_eq fits]
    · rfl
  · intro front size
    have here := named front size
    rw [buf, ← writtenNames] at here
    rw [nameTable]
    split
    · apply here.imp
      intro record record' resolved
      rw [← List.append_assoc]
      exact resolved.append _
    · exact here

theorem nameTable_padded (ioData : List SignatureRecord) :
    (nameTable true ioData).length % 4 = 0 := by
  rw [nameTable]
  split
  · rw [List.length_append, List.length_replicate]
    omega
  · next whole =>
      by_contra odd
      exact whole ⟨rfl, odd⟩

/-- The part of a signature: its header says how long the payload is, in which the offset of
every element leads to its name and a zero byte. Newer validators have the names padded to four
bytes, for older ones the payload ends with the last name. -/
theorem semanticNames_resolve {c : Container} {parts : List PartFile.Part} (holds : c.Holds parts)
    (room : parts.length < DXIL_MAX_PARTS) (before : (PartFile.body parts).length < 2 ^ 32 - 1)
    (part : UInt32) (io : IoData) (validator7 : Bool)
    (fits : (nameTable validator7 io.records).length < 2 ^ 31) :
    ∃ c' ioData payload, c.addIoSignature part.toNat io validator7 = some c' ∧
      c'.Holds (parts ++ [⟨part.toNat, payload⟩]) ∧
      payload = (ioSignatureWrites ioData (nameTable validator7 io.records)
        (paramCount io.records)).flatten ∧
      List.Forall₂ (Named payload) io.records ioData ∧
      payload.length = 8 + 32 * paramCount io.records +
        (nameTable validator7 io.records).length ∧
      payload.length < 2 ^ 32 ∧
      (validator7 = true → payload.length % 4 = 0) := by
  have count := paramCount_le io
  rw [DXIL_SHADER_MAX_IO_ROWS] at count
  obtain ⟨ioData, collected, counts, named⟩ := collectSemanticNames_eq io validator7 fits
  have size := ioSignatureSize_eq ioData (nameTable validator7 io.records) (paramCount io.records)
  rw [counts] at size
  have small : 8 + 32 * paramCount io.records +
      (nameTable validator7 io.records).length < 2 ^ 32 := by omega
  obtain ⟨c₁, c₂, header, payload, holds₂⟩ :=
    @Container.Holds.addPart c parts holds part.toNat _ _ room
    before size
  refine ⟨c₂, ioData, _, ?_, holds₂, rfl, ?_, size.symm, size ▸ small, ?_⟩
  · simp only [Container.addIoSignature, collected, Option.bind_eq_bind, Option.bind_some]
    rw [Nat.mod_eq_of_lt small, header, Option.bind_some]
    exact payload
  · have front : (ioSignatureWrites ioData (nameTable validator7 io.records)
        (paramCount io.records)).flatten = (ioSignatureWrites ioData []
        (paramCount io.records)).flatten ++ nameTable validator7 io.records := by
      simp [ioSignatureWrites]
    rw [front]
    apply named
    have length := ioSignatureSize_eq ioData [] (paramCount io.records)
    rw [counts] at length
    exact length.symm
  · rintro rfl
    have padded := nameTable_padded io.records
    rw [← size]
    omega

/-- An input that is called `A`. -/
def attributeA : IoData where
  records :=
    [{ elements := [⟨0, 0, 0, 0, 3, 0, 15, 15, 0, 0⟩], name := [65], inArray := by decide }]
  inArray := by decide

theorem semanticNames_resolve_attributeA :
    ∃ c' ioData payload, Container.init.addIoSignature 0x31475349 attributeA true = some c' ∧
      c'.Holds ([] ++ [⟨0x31475349, payload⟩]) ∧
      payload = (ioSignatureWrites ioData (nameTable true attributeA.records)
        (paramCount attributeA.records)).flatten ∧
      List.Forall₂ (Named payload) attributeA.records ioData ∧
      payload.length = 8 + 32 * paramCount attributeA.records +
        (nameTable true attributeA.records).length ∧
      payload.length < 2 ^ 32 ∧
      (true = true → payload.length % 4 = 0) :=
  semanticNames_resolve Container.holds_init (by decide) (by decide) 0x31475349 attributeA true
    (by decide)

/-- For an older validator the declared size is not a multiple of four bytes. -/
theorem semanticNames_not_padded :
    ¬∀ (io : IoData) (validator7 : Bool) (c : Container),
      Container.init.addIoSignature DXIL_ISG1 io validator7 = some c →
      natOfBytes ((c.parts.data.drop 4).take 4) % 4 = 0 := by
  intro padded
  have size := padded attributeA false _ rfl
  revert size
  decide

end SpirvToDxil
