import SpirvToDxil.Dxil.Module.AggregateConstSoundness

/-!
# Constants from initializers in the constant block

The records of the block mean what the list means, as long as no constant of the
list is a vector, for which `emit_consts` has no case. What is left to compare is
an initializer with its floats as they are written and the initializer itself.
-/

namespace SpirvToDxil

open Ieee

/-! ## Records -/

def recordOf (types : List DxilType) (ids : Ids) (c : Const) : CodedRecord :=
  ((emitConst types ids c).bind WriterCall.record?).getD (0, [])

theorem readConsts_emitConstsFrom {types : List DxilType} {ids : Ids} {consts : List Const}
    (each : ∀ c ∈ consts, ∃ call, emitConst types ids c = some call ∧
      call.record? = some (recordOf types ids c) ∧ (recordOf types ids c).1 ≠ CST_CODE_SETTYPE)
    (currType : Option Nat) :
    ∃ calls, emitConstsFrom types ids currType consts = some calls ∧
      readConsts currType (calls.filterMap WriterCall.record?) =
        consts.map fun c => (some c.type, recordOf types ids c) := by
  induction consts generalizing currType with
  | nil => exact ⟨[], rfl, rfl⟩
  | cons c consts inductionHypothesis =>
    rw [List.forall_mem_cons] at each
    obtain ⟨call, emitted, isRecord, notType⟩ := each.1
    obtain ⟨rest, emittedRest, read⟩ := inductionHypothesis each.2 (some c.type)
    refine ⟨_, by simp only [emitConstsFrom, emitted, emittedRest, Option.bind_eq_bind,
      Option.bind_some]; rfl, ?_⟩
    by_cases current : currType = some c.type
    · rw [if_pos current, List.nil_append, List.filterMap_cons_some isRecord, readConsts,
        if_neg notType, current, read]
      rfl
    · have setType : (emitSetType c.type).record? = some (CST_CODE_SETTYPE, [c.type]) := rfl
      rw [if_neg current, List.singleton_append, List.filterMap_cons_some setType,
        List.filterMap_cons_some isRecord, readConsts, if_pos rfl, readConsts, if_neg notType,
        List.head?_cons, read]
      rfl

/-- The call of a constant, and that its record is none of another kind. -/
structure Emits (types : List DxilType) (ids : Ids) (c : Const) (record : CodedRecord) : Prop where
  call : ∃ call, emitConst types ids c = some call ∧ call.record? = some record
  notType : record.1 ≠ CST_CODE_SETTYPE

theorem Emits.recordOf_eq {types : List DxilType} {ids : Ids} {c : Const} {record : CodedRecord}
    (emits : Emits types ids c record) : recordOf types ids c = record := by
  obtain ⟨call, emitted, isRecord⟩ := emits.call
  rw [recordOf, emitted, Option.bind_some, isRecord, Option.getD_some]

theorem decodeInteger_code {bits : Nat} {record : CodedRecord} {integer : BitVec bits}
    (decoded : decodeInteger bits record = some integer) :
    record.1 ≠ CST_CODE_SETTYPE ∧ record.1 ≠ CST_CODE_UNDEF := by
  rw [decodeInteger] at decoded
  split at decoded
  · next isNull => rw [isNull]; decide
  · split at decoded
    · next isInteger => rw [isInteger]; decide
    · cases decoded

theorem floatPayload_code {record : CodedRecord} {payload : Nat}
    (read : floatPayload record = some payload) : record.1 ≠ CST_CODE_UNDEF := by
  rw [floatPayload] at read
  split at read
  · next isNull => rw [isNull]; decide
  · split at read
    · next isFloat => rw [isFloat]; decide
    · cases read

theorem intType_ofBits?_intBits (size : IntType) : IntType.ofBits? size.intBits = some size := by
  cases size <;> rfl

theorem floatType_ofBits?_floatBits (size : FloatType) :
    FloatType.ofBits? size.floatBits = some size := by
  cases size <;> rfl

/-! ## The block of a module -/

/-- The module whose lists the constants and their types were made in. -/
structure ConstModule.MadeIn (m : ConstModule) (d : DxilModule) : Prop where
  types : d.types = m.types.typeList.map TypeEntry.toDxilType
  consts : d.consts = m.constList.map m.toConst

section Block

variable {m : ConstModule} {d : DxilModule}

theorem ConstModule.MadeIn.getElem? (made : m.MadeIn d) {type : Nat} {entry : TypeEntry}
    (isType : m.types.typeList[type]? = some entry) : d.types[type]? = some entry.toDxilType := by
  rw [made.types, List.getElem?_map, isType]
  rfl

theorem mapM_globalIds (made : m.MadeIn d) {i : Nat} {c : DxilConst}
    (isConst : m.constList[i]? = some c) {values : List Nat}
    (earlier : ∀ value ∈ values, value < i) :
    (values.map Value.const).mapM d.globalIds.of? =
      some (values.map (d.gvars.length + d.funcs.length + ·)) := by
  have inside := (List.getElem?_eq_some_iff.mp isConst).1
  rw [List.mapM_map]
  apply mapM_eq_some_map
  intro value member
  have small : value < d.consts.length := by
    rw [made.consts, List.length_map]
    exact (earlier value member).trans inside
  simp [Ids.of?, DxilModule.globalIds, small]

theorem decodeElements_ids {start : Nat} (earlier : List (Option ConstTree)) (values : List Nat) :
    decodeElements start earlier (CST_CODE_AGGREGATE, values.map (start + ·)) =
      (values.mapM (earlierTree earlier)).map .aggregate := by
  rw [decodeElements, if_pos rfl, List.mapM_map]
  congr 2
  funext value
  rw [Function.comp_apply, if_pos (Nat.le_add_right ..), Nat.add_sub_cancel_left]

structure Writes (m : ConstModule) (d : DxilModule) (i : Nat) (c : DxilConst)
    (record : CodedRecord) : Prop where
  emits : Emits d.types d.globalIds (m.toConst c) record
  decodes : ∀ earlier, decodeConst d.types (d.gvars.length + d.funcs.length) earlier
    (some c.type, record) = m.readConst earlier c
  elements : ∀ values, (m.toConst c).value = .aggregate values → ∃ elementIds,
    values.mapM d.globalIds.of? = some elementIds ∧ record = (CST_CODE_AGGREGATE, elementIds) ∧
      ∀ id ∈ elementIds, d.gvars.length + d.funcs.length ≤ id ∧
        id < d.gvars.length + d.funcs.length + i

theorem writes_aggregate (made : m.MadeIn d) {i : Nat} {c : DxilConst}
    (isConst : m.constList[i]? = some c) {values : List Nat}
    (earlier : ∀ value ∈ values, value < i)
    (isAggregate : (m.toConst c).value = .aggregate (values.map .const))
    (emitted : emitConst d.types d.globalIds (m.toConst c) =
      emitAggregateValues d.globalIds (values.map .const) values.length)
    (reads : ∀ earlier, m.readConst earlier c = (values.mapM (earlierTree earlier)).map .aggregate)
    (decodes : ∀ earlier record, record.1 ≠ CST_CODE_UNDEF →
      decodeConst d.types (d.gvars.length + d.funcs.length) earlier (some c.type, record) =
        decodeElements (d.gvars.length + d.funcs.length) earlier record) :
    ∃ record, Writes m d i c record := by
  have ids := mapM_globalIds made isConst earlier
  refine ⟨(CST_CODE_AGGREGATE, values.map (d.gvars.length + d.funcs.length + ·)),
    ⟨⟨.emitRecordNoAbbrev CST_CODE_AGGREGATE _, ?_, rfl⟩,
      (by decide : CST_CODE_AGGREGATE ≠ CST_CODE_SETTYPE)⟩, ?_, ?_⟩
  · have length : (values.map Value.const).length = values.length := List.length_map ..
    rw [emitted, emitAggregateValues, if_pos length.ge, ← length, List.take_length, ids]
    rfl
  · intro trees
    rw [decodes trees _ (by decide : CST_CODE_AGGREGATE ≠ CST_CODE_UNDEF), decodeElements_ids,
      reads]
  · intro values' same
    rw [isAggregate, ConstValue.aggregate.injEq] at same
    refine ⟨_, same ▸ ids, rfl, ?_⟩
    intro id member
    obtain ⟨value, inValues, rfl⟩ := List.mem_map.mp member
    have := earlier value inValues
    omega

theorem emitConst_float (made : m.MadeIn d) {c : DxilConst} {r : FloatRequest}
    (isType : m.types.typeList[c.type]? = some (.float r.type))
    (isValue : c.value = .float r.value) :
    emitConst d.types d.globalIds (m.toConst c) = some (emitFloatValue r.writtenBits) := by
  rw [emitConst, ConstModule.toConst, made.getElem? isType, isValue, isType]
  cases r with
  | float16 bits =>
    have small : toU64 bits.toNat % 2 ^ 16 = bits.toNat := by
      have bound := bits.isLt
      rw [toU64]
      omega
    simp only [FloatRequest.value, FloatRequest.type, FloatType.floatBits, TypeEntry.toDxilType,
      small]
    rfl
  | float x => rfl
  | double x => rfl

theorem exists_writes (made : m.MadeIn d) (built : m.Built) {i : Nat} {c : DxilConst}
    (isConst : m.constList[i]? = some c) (notVector : ∀ values, c.value ≠ .vector values) :
    ∃ record, Writes m d i c record := by
  have builtConst := built.consts i c isConst
  have type : (m.toConst c).type = c.type := rfl
  unfold ConstModule.BuiltConst at builtConst
  cases value : c.value with
  | undef =>
    have isUndef : (m.toConst c).value = .undef := by simp only [ConstModule.toConst, value]
    refine ⟨(CST_CODE_UNDEF, []), ⟨⟨emitUndefValue, ?_, rfl⟩,
      (by decide : CST_CODE_UNDEF ≠ CST_CODE_SETTYPE)⟩, ?_, ?_⟩
    · simp only [emitConst, isUndef]
    · intro earlier
      rw [decodeConst, if_pos rfl, ConstModule.readConst, value]
    · intro values same
      rw [isUndef] at same
      cases same
  | int intValue =>
    rw [value] at builtConst
    obtain ⟨⟨size, isType⟩, above, below⟩ := builtConst
    have isInt : (m.toConst c).value = .int intValue := by simp only [ConstModule.toConst, value]
    have isType' := made.getElem? isType
    obtain ⟨record, isRecord, decoded⟩ := @decodeInteger_emitIntValue size.intBits _ above below
    obtain ⟨notType, notUndef⟩ := decodeInteger_code decoded
    refine ⟨record, ⟨⟨_, ?_, isRecord⟩, notType⟩, ?_, ?_⟩
    · simp only [emitConst, isInt, type, isType', TypeEntry.toDxilType]
    · intro earlier
      simp only [decodeConst, if_neg notUndef, Option.bind_some, isType', TypeEntry.toDxilType,
        intType_ofBits?_intBits, decoded, Option.map_some, ConstModule.readConst, value, isType]
    · intro values same
      rw [isInt] at same
      cases same
  | float stored =>
    rw [value] at builtConst
    obtain ⟨r, stores⟩ := builtConst
    have isType := built.caches.getElem?_float stores.type
    have isType' := made.getElem? isType
    have isValue := stores.value
    obtain ⟨record, isRecord, notType, payload⟩ :=
      ConstPool.floatPayload_emitFloatValue r.writtenBits
    have notUndef := floatPayload_code payload
    have emitted := emitConst_float made isType isValue
    refine ⟨record, ⟨⟨_, emitted, isRecord⟩, notType⟩, ?_, ?_⟩
    · intro earlier
      simp only [decodeConst, if_neg notUndef, Option.bind_some, isType', TypeEntry.toDxilType,
        floatType_ofBits?_floatBits, payload, Option.map_some, ConstModule.readConst, isType,
          isValue,
        bitsAs_value]
    · intro values same
      rw [ConstModule.toConst, isValue, isType] at same
      cases r <;> cases same
  | array values =>
    rw [value] at builtConst
    obtain ⟨⟨element, isType⟩, earlier⟩ := builtConst
    have isType' := made.getElem? isType
    have isAggregate : (m.toConst c).value = .aggregate (values.map .const) := by
      simp only [ConstModule.toConst, value]
    apply writes_aggregate made isConst earlier isAggregate
    · simp only [emitConst, isAggregate, type, isType', TypeEntry.toDxilType]
    · intro earlier
      rw [ConstModule.readConst, value]
    · intro earlier record notUndef
      simp only [decodeConst, if_neg notUndef, Option.bind_some, isType', TypeEntry.toDxilType]
  | vector values => exact absurd value (notVector values)
  | struct values =>
    rw [value] at builtConst
    obtain ⟨⟨name, elements, isType, length⟩, earlier⟩ := builtConst
    have isType' := made.getElem? isType
    have isAggregate : (m.toConst c).value = .aggregate (values.map .const) := by
      simp only [ConstModule.toConst, value]
    apply writes_aggregate made isConst earlier isAggregate
    · simp only [emitConst, isAggregate, type, isType', TypeEntry.toDxilType, length]
    · intro earlier
      rw [ConstModule.readConst, value]
    · intro earlier record notUndef
      simp only [decodeConst, if_neg notUndef, Option.bind_some, isType', TypeEntry.toDxilType]

variable {ids : Ids} {instrIds : List (List Nat)} {index : Nat} {tree : ConstTree}

/-- Without vectors, the block means what the list means. -/
theorem readsBack_iff_trees (made : m.MadeIn d) (built : m.Built)
    (assigned : d.assignValues = some (ids, instrIds))
    (noVector : ∀ c ∈ m.constList, ∀ values, c.value ≠ .vector values) :
    ReadsBack d ids index tree ↔ earlierTree m.trees index = some tree := by
  have isIds : ids = d.globalIds := (globalIds_of_assignValues assigned).2
  subst isIds
  have writes : ∀ i c, m.constList[i]? = some c →
      Writes m d i c (recordOf d.types d.globalIds (m.toConst c)) := by
    intro i c isConst
    obtain ⟨record, written⟩ :=
      exists_writes made built isConst (noVector c (List.mem_of_getElem? isConst))
    rwa [written.emits.recordOf_eq]
  have each : ∀ c ∈ d.consts, ∃ call, emitConst d.types d.globalIds c = some call ∧
      call.record? = some (recordOf d.types d.globalIds c) ∧
      (recordOf d.types d.globalIds c).1 ≠ CST_CODE_SETTYPE := by
    rw [made.consts]
    intro c' member
    obtain ⟨c, inList, rfl⟩ := List.mem_map.mp member
    obtain ⟨i, isConst⟩ := List.getElem?_of_mem inList
    obtain ⟨call, emitted, isRecord⟩ := (writes i c isConst).emits.call
    exact ⟨call, emitted, isRecord, (writes i c isConst).emits.notType⟩
  obtain ⟨calls, emitted, read⟩ := readConsts_emitConstsFrom each none
  have decoded : decodeConsts d.types (d.gvars.length + d.funcs.length)
      (readConsts none (calls.filterMap WriterCall.record?)) = m.trees := by
    rw [read, made.consts, List.map_map]
    apply BackwardTable.meanings_congr
    rw [List.forall₂_map_left_iff, List.forall₂_same]
    intro c member earlier
    obtain ⟨i, isConst⟩ := List.getElem?_of_mem member
    exact (writes i c isConst).decodes earlier
  have readTree : (decodeConsts d.types (d.gvars.length + d.funcs.length)
      (readConsts none (calls.filterMap WriterCall.record?)))[index]? = some (some tree) ↔
        earlierTree m.trees index = some tree := by
    rw [decoded, earlierTree, Option.join_eq_some_iff]
  constructor
  · rintro ⟨calls', emitted', -, isTree⟩
    cases emitted.symm.trans emitted'
    exact readTree.mp isTree
  · intro isTree
    refine ⟨calls, emitted, ?_, readTree.mpr isTree⟩
    intro i c' values isConst' isAggregate
    rw [read, List.getElem?_map, isConst']
    rw [made.consts, List.getElem?_map, Option.map_eq_some_iff] at isConst'
    obtain ⟨c, isConst, rfl⟩ := isConst'
    obtain ⟨elementIds, mapped, isRecord, inFront⟩ :=
      (writes i c isConst).elements values isAggregate
    refine ⟨elementIds, mapped, ?_, inFront⟩
    rw [Option.map_some, isRecord]

theorem not_readsBack_of_vector (made : m.MadeIn d) (built : m.Built) {c : DxilConst}
    (member : c ∈ m.constList) {values : List Nat} (isVector : c.value = .vector values) :
    ¬ReadsBack d ids index tree := by
  rintro ⟨calls, emitted, -⟩
  obtain ⟨i, isConst⟩ := List.getElem?_of_mem member
  have builtConst := built.consts i c isConst
  rw [ConstModule.BuiltConst, isVector] at builtConst
  obtain ⟨⟨element, isType⟩, -⟩ := builtConst
  have inModule : m.toConst c ∈ d.consts := by
    rw [made.consts]
    exact List.mem_map_of_mem member
  have fits := DxilModule.fitsConst_of_emitConstsFrom emitted (m.toConst c) inModule
  have isAggregate : (m.toConst c).value = .aggregate (values.map .const) := by
    simp only [ConstModule.toConst, isVector]
  have isType' : d.types[(m.toConst c).type]? = some (.vector values.length element) :=
    made.getElem? isType
  rw [DxilModule.FitsConst, isAggregate, isType'] at fits
  exact fits

end Block

/-! ## Floats that are kept -/

def FloatRequest.stored : FloatRequest → FloatRequest
  | .float x => .float ((x.convert binary64).convert binary32)
  | r => r

namespace FloatRequest

theorem request_bits (r : FloatRequest) : r.type.request r.bits = r := by
  cases r with
  | float16 bits => exact congrArg FloatRequest.float16 (BitVec.ofNat_toNat 16 bits)
  | float x => exact congrArg FloatRequest.float x.ofBits_bits
  | double x => exact congrArg FloatRequest.double x.ofBits_bits

theorem stored_type (r : FloatRequest) : r.stored.type = r.type := by cases r <;> rfl

theorem stored_bits (r : FloatRequest) : r.stored.bits = r.writtenBits := by cases r <;> rfl

theorem request_writtenBits (r : FloatRequest) : r.type.request r.writtenBits = r.stored := by
  rw [← stored_bits, ← stored_type, request_bits]

theorem stored_eq_iff (r : FloatRequest) : r.stored = r ↔ ¬ r.Signaling := by
  rw [← writtenBits_eq_iff]
  constructor
  · intro same
    rw [← stored_bits, same]
  · intro same
    rw [← request_writtenBits, same, request_bits]

end FloatRequest

/-- The floats get constants with their bits: none is a NaN that the conversion changes, the list
has no equal constant with other bits before, and no two are zeros of both signs. -/
structure ConstModule.KeepsFloats (m : ConstModule) (floats : List FloatRequest) : Prop where
  quiet : ∀ r ∈ floats, ¬ r.Signaling
  first : ∀ r ∈ floats, ∀ c, m.findFloat r = some c → c.value.bitsAs r.type = r.bits
  apart : ∀ r ∈ floats, ∀ s ∈ floats, r.Clash s → r = s

namespace ConstModule

theorem findFloat_spec {m : ConstModule} (built : m.Built) {r : FloatRequest} {c : DxilConst}
    (found : m.findFloat r = some c) :
    c ∈ m.constList ∧ ∃ s, m.Stores c s ∧ s.type = r.type ∧ s.value.same r.value = true := by
  simp only [findFloat, Option.bind_eq_bind, Option.bind_eq_some_iff] at found
  obtain ⟨type, cached, index, isFirst, isConst⟩ := found
  obtain ⟨inside, accepted, -⟩ := List.findIdx?_eq_some_iff_getElem.mp isFirst
  rw [List.getElem?_eq_getElem inside, Option.some.injEq] at isConst
  rw [isConst, Bool.and_eq_true, decide_eq_true_eq] at accepted
  obtain ⟨ofType, same⟩ := accepted
  have member : c ∈ m.constList := isConst ▸ List.getElem_mem inside
  obtain ⟨i, atPosition⟩ := List.getElem?_of_mem member
  have builtConst := built.consts i c atPosition
  unfold BuiltConst at builtConst
  cases value : c.value with
  | float stored =>
    rw [value] at builtConst same
    obtain ⟨s, stores⟩ := builtConst
    refine ⟨member, s, stores, ?_, ?_⟩
    · apply built.caches.float_injective stores.type
      rw [ofType]
      exact cached
    · have isValue := stores.value
      rw [value, DxilConstValue.float.injEq] at isValue
      rw [← isValue]
      exact same
  | undef | int | array | vector | struct =>
    rw [value] at same
    cases same

theorem bitsAs_of_stores {m : ConstModule} {c : DxilConst} {s : FloatRequest}
    (stores : m.Stores c s) : c.value.bitsAs s.type = s.writtenBits := by
  rw [stores.value, bitsAs_value]

/-- A float is written as the one that the first equal constant was made for. -/
theorem written_of_found {m : ConstModule} (built : m.Built) {r : FloatRequest} {c : DxilConst}
    (found : m.findFloat r = some c) : m.written r = r ↔ c.value.bitsAs r.type = r.bits := by
  obtain ⟨-, s, stores, type, -⟩ := findFloat_spec built found
  rw [written, found]
  dsimp only
  constructor
  · intro same
    rw [← type, bitsAs_of_stores stores, s.request_writtenBits] at same
    rw [← type, bitsAs_of_stores stores, ← s.stored_bits, same]
  · intro same
    rw [same, r.request_bits]

theorem written_of_missing {m : ConstModule} {r : FloatRequest} (missing : m.findFloat r = none) :
    m.written r = r ↔ ¬ r.Signaling := by
  rw [written, missing, r.request_writtenBits, r.stored_eq_iff]

theorem findFloat_of_rejects (m : ConstModule) {r : FloatRequest}
    (rejects : ∀ value : FloatConstValue, value.same r.value = false) : m.findFloat r = none := by
  cases found : m.findFloat r with
  | none => rfl
  | some c =>
    simp only [findFloat, Option.bind_eq_bind, Option.bind_eq_some_iff] at found
    obtain ⟨type, -, index, isFirst, -⟩ := found
    obtain ⟨inside, accepted, -⟩ := List.findIdx?_eq_some_iff_getElem.mp isFirst
    rw [Bool.and_eq_true] at accepted
    cases value : m.constList[index].value with
    | float stored =>
      have never := rejects stored
      rw [value] at accepted
      exact absurd (accepted.2.symm.trans never) nofun
    | undef | int | array | vector | struct =>
      rw [value] at accepted
      cases accepted.2

theorem findFloat_isSome {m : ConstModule} {c : DxilConst} (member : c ∈ m.constList)
    {r s : FloatRequest} (stores : m.Stores c s) (type : s.type = r.type)
    (same : s.value.same r.value = true) : ∃ c', m.findFloat r = some c' := by
  have cached : m.types.floatType r.type = some c.type := type ▸ stores.type
  have accepted : (decide (c.type = c.type) && c.value.sameFloat r.value) = true := by
    rw [decide_eq_true rfl, stores.value]
    exact same
  cases isFirst : m.constList.findIdx? fun c' => c'.type = c.type && c'.value.sameFloat r.value with
  | none =>
    have rejects := List.findIdx?_eq_none_iff.mp isFirst c member
    exact absurd (accepted.symm.trans rejects) nofun
  | some index =>
    obtain ⟨inside, -⟩ := List.findIdx?_eq_some_iff_getElem.mp isFirst
    refine ⟨m.constList[index], ?_⟩
    simp only [findFloat, cached, Option.bind_eq_bind, Option.bind_some, isFirst,
      List.getElem?_eq_getElem inside]

/-- The requests that a constant was made for look the same to the search. -/
theorem Stores.congr {m : ConstModule} {c : DxilConst} {q s r : FloatRequest}
    (caches : m.types.CachesFit) (stores : m.Stores c q) (stores' : m.Stores c s)
    (type : s.type = r.type) (same : s.value.same r.value = true) :
    q.type = r.type ∧ q.value.same r.value = true := by
  have values := stores.value.symm.trans stores'.value
  rw [DxilConstValue.float.injEq] at values
  exact ⟨(caches.float_injective stores.type stores'.type).trans type, values ▸ same⟩

theorem written_of_keepsFloats {m m' final : ConstModule} {floats : List FloatRequest}
    {vectors : Prop} (step : m.Step floats vectors m') (built : m.Built) (grows : m'.Grows final)
    (builtFinal : final.Built) (keeps : m.KeepsFloats floats) :
    ∀ r ∈ floats, final.written r = r := by
  intro r requested
  have quiet := keeps.quiet r requested
  rcases r.same_self with self | ⟨-, rejects⟩
  · obtain ⟨c, found⟩ := Option.isSome_iff_exists.mp (step.found r requested self)
    have foundFinal := findFloat_of_grows step.built grows found
    rw [written_of_found builtFinal foundFinal]
    obtain ⟨member, s, stores, type, same⟩ := findFloat_spec step.built found
    rcases step.created c member with old | ⟨isFloat, -⟩
    · -- The constant was there before, so that the search found one then.
      obtain ⟨i, isConst⟩ := List.getElem?_of_mem old
      have builtConst := built.consts i c isConst
      rw [BuiltConst, stores.value] at builtConst
      obtain ⟨q, before⟩ := builtConst
      obtain ⟨type', same'⟩ :=
        (before.mono built step.grows).congr step.built.caches stores type same
      obtain ⟨c', foundBefore⟩ := findFloat_isSome old before type' same'
      have equal := findFloat_of_grows built step.grows foundBefore
      rw [found, Option.some.injEq] at equal
      rw [equal]
      exact keeps.first r requested c' foundBefore
    · obtain ⟨q, requestedQ, storesQ⟩ := isFloat s.value stores.value
      obtain ⟨type', same'⟩ := storesQ.congr step.built.caches stores type same
      have equal : q = r := by
        apply FloatRequest.eq_of_same type' _ (keeps.quiet q requestedQ) quiet (Or.inl same')
        exact fun different clash => different (keeps.apart q requestedQ r requested clash)
      subst equal
      rw [bitsAs_of_stores storesQ]
      exact q.writtenBits_eq_iff.mpr quiet
  · rw [written_of_missing (findFloat_of_rejects final rejects)]
    exact quiet

theorem keepsFloats_of_written {m m' final : ConstModule} {floats : List FloatRequest}
    {vectors : Prop} (step : m.Step floats vectors m') (built : m.Built) (grows : m'.Grows final)
    (builtFinal : final.Built) (kept : ∀ r ∈ floats, final.written r = r) :
    m.KeepsFloats floats := by
  constructor
  · intro r requested signaling
    have missing := findFloat_of_rejects final (FloatRequest.same_of_signaling signaling)
    exact (written_of_missing missing).mp (kept r requested) signaling
  · intro r requested c found
    have foundFinal := findFloat_of_grows built (step.grows.trans grows) found
    exact (written_of_found builtFinal foundFinal).mp (kept r requested)
  · intro r requested s requested' clash
    rcases FloatRequest.same_of_clash clash with ⟨same, -⟩ | ⟨-, type, self, agree⟩
    · exact same
    · -- The search treats the two alike, so that both are written as one float.
      have tests : final.findFloat r = final.findFloat s := by
        have accepts : (fun c : DxilConst => c.value.sameFloat r.value) =
            fun c => c.value.sameFloat s.value := by
          funext c
          cases c.value with
          | float stored => exact agree stored
          | undef | int | array | vector | struct => rfl
        simp only [findFloat, type, fun c : DxilConst => congrFun accepts c]
      obtain ⟨c, found⟩ := Option.isSome_iff_exists.mp (step.found r requested self)
      have foundFinal := findFloat_of_grows step.built grows found
      rw [← kept r requested, ← kept s requested', written, written, ← tests, foundFinal, type]

theorem written_iff_keepsFloats {m m' final : ConstModule} {floats : List FloatRequest}
    {vectors : Prop} (step : m.Step floats vectors m') (built : m.Built) (grows : m'.Grows final)
    (builtFinal : final.Built) :
    (∀ r ∈ floats, final.written r = r) ↔ m.KeepsFloats floats :=
  ⟨keepsFloats_of_written step built grows builtFinal,
    written_of_keepsFloats step built grows builtFinal⟩

end ConstModule

/-! ## Trees with their floats kept -/

theorem mapM_agree_iff {α β : Type} {f g : α → Option β} {agree : α → Prop} {list : List α}
    {images : List β} (mapped : list.mapM f = some images)
    (each : ∀ a ∈ list, ∀ b, f a = some b → (g a = some b ↔ agree a)) :
    list.mapM g = some images ↔ ∀ a ∈ list, agree a := by
  induction list generalizing images with
  | nil =>
    cases mapped
    simp
  | cons a list inductionHypothesis =>
    simp only [List.mapM_cons, Option.bind_eq_bind, Option.bind_eq_some_iff, Option.pure_def,
      Option.some.injEq] at mapped
    obtain ⟨b, image, rest, others, rfl⟩ := mapped
    rw [List.forall_mem_cons] at each
    have own := each.1 b image
    have tail := inductionHypothesis others each.2
    rw [List.forall_mem_cons, ← own, ← tail]
    simp only [List.mapM_cons, Option.bind_eq_bind, Option.bind_eq_some_iff, Option.pure_def,
      Option.some.injEq, List.cons.injEq]
    constructor
    · rintro ⟨_, first, _, second, rfl, rfl⟩
      exact ⟨first, second⟩
    · rintro ⟨first, second⟩
      exact ⟨b, first, rest, second, rfl, rfl⟩

theorem GlslBaseType.tree_iff {keep : FloatRequest → FloatRequest} {baseType : GlslBaseType}
    {c : BitVec 64} {tree : ConstTree} (isTree : baseType.tree keep c = some tree) :
    baseType.tree id c = some tree ↔ ∀ r ∈ baseType.floats c, keep r = r := by
  rw [GlslBaseType.tree] at isTree ⊢
  rw [GlslBaseType.floats]
  split at isTree
  · next isFloat =>
    obtain ⟨size, isSize, rfl⟩ := Option.map_eq_some_iff.mp isTree
    simp [isFloat, isSize, eq_comm]
  · next notFloat =>
    simp [notFloat, isTree]

theorem scalars_tree_iff {keep : FloatRequest → FloatRequest} {baseType : GlslBaseType}
    {values : List (BitVec 64)} {trees : List ConstTree}
    (mapped : values.mapM (baseType.tree keep) = some trees) :
    values.mapM (baseType.tree id) = some trees ↔
      ∀ r ∈ values.flatMap baseType.floats, keep r = r := by
  rw [mapM_agree_iff mapped fun value _ tree isTree => GlslBaseType.tree_iff isTree]
  simp only [List.mem_flatMap]
  constructor
  · rintro kept r ⟨value, member, requested⟩
    exact kept value member r requested
  · exact fun kept value member r requested => kept r ⟨value, member, requested⟩

mutual

theorem ConstantType.tree_iff {keep : FloatRequest → FloatRequest} : ∀ (type : ConstantType)
    {c : NirConstant} {tree : ConstTree}, type.tree keep c = some tree →
      (type.tree id c = some tree ↔ ∀ r ∈ type.floats c, keep r = r)
  | .scalar baseType, c, tree, isTree => by
    rw [ConstantType.tree] at isTree ⊢
    rw [ConstantType.floats]
    cases values : c.values with
    | nil =>
      rw [values] at isTree
      cases isTree
    | cons value others =>
      rw [values, List.head?_cons, Option.bind_some] at isTree
      rw [List.head?_cons, Option.bind_some, GlslBaseType.tree_iff isTree]
      simp
  | .vector baseType vectorElements, c, tree, isTree => by
    rw [ConstantType.tree] at isTree ⊢
    rw [Option.ite_none_right_eq_some] at isTree
    obtain ⟨enough, isTree⟩ := isTree
    obtain ⟨trees, mapped, rfl⟩ := Option.map_eq_some_iff.mp isTree
    rw [if_pos enough, ConstantType.floats, ← scalars_tree_iff mapped, Option.map_eq_some_iff]
    simp
  | .matrix .., c, tree, isTree => nomatch isTree
  | .array element length, c, tree, isTree => by
    rw [ConstantType.tree] at isTree ⊢
    rw [Option.ite_none_right_eq_some] at isTree
    obtain ⟨enough, isTree⟩ := isTree
    obtain ⟨trees, mapped, rfl⟩ := Option.map_eq_some_iff.mp isTree
    have all := mapM_agree_iff mapped fun value _ tree isTree => element.tree_iff isTree
    rw [if_pos enough, ConstantType.floats, Option.map_eq_some_iff]
    simp only [ConstTree.aggregate.injEq, exists_eq_right, all, List.mem_flatMap]
    constructor
    · rintro kept r ⟨value, member, requested⟩
      exact kept value member r requested
    · exact fun kept value member r requested => kept r ⟨value, member, requested⟩
  | .struct _ fields, c, tree, isTree => by
    rw [ConstantType.tree] at isTree ⊢
    obtain ⟨trees, areTrees, rfl⟩ := Option.map_eq_some_iff.mp isTree
    rw [ConstantType.floats, ← fields.trees_iff areTrees, Option.map_eq_some_iff]
    simp

theorem ConstantFields.trees_iff {keep : FloatRequest → FloatRequest} : ∀ (fields : ConstantFields)
    {elements : List NirConstant} {trees : List ConstTree},
      fields.trees keep elements = some trees →
      (fields.trees id elements = some trees ↔ ∀ r ∈ fields.floats elements, keep r = r)
  | .nil, elements, trees, areTrees => by
    cases areTrees
    simp [ConstantFields.trees, ConstantFields.floats]
  | .cons _ _, [], trees, areTrees => nomatch areTrees
  | .cons type rest, element :: elements, trees, areTrees => by
    simp only [ConstantFields.trees, Option.bind_eq_bind, Option.bind_eq_some_iff,
      Option.some.injEq] at areTrees
    obtain ⟨tree, isTree, others, areOthers, rfl⟩ := areTrees
    have own := type.tree_iff isTree
    have tail := rest.trees_iff areOthers
    rw [ConstantFields.floats, List.forall_mem_append, ← own, ← tail]
    simp only [ConstantFields.trees, Option.bind_eq_bind, Option.bind_eq_some_iff,
      Option.some.injEq, List.cons.injEq]
    constructor
    · rintro ⟨_, first, _, second, rfl, rfl⟩
      exact ⟨first, second⟩
    · rintro ⟨first, second⟩
      exact ⟨tree, first, others, second, rfl, rfl⟩

end

/-! ## Initializers in the block -/

/-- The constants of an initializer, between those that the list had before and those that follow,
are written and read back if and only if nothing in the list is a vector and the floats are kept. -/
theorem readsBack_aggregate_iff {m m' final : ConstModule} {d : DxilModule} {ids : Ids}
    {instrIds : List (List Nat)} {type : ConstantType} {c : NirConstant} {index : Nat}
    {rest : List DxilConst} (built : m.Built)
    (got : getValueForConstAggregate type c m = some (index, m'))
    (types : m'.types.Grows final.types) (isList : final.constList = m'.constList ++ rest)
    (builtFinal : final.Built) (made : final.MadeIn d)
    (assigned : d.assignValues = some (ids, instrIds)) :
    (∃ tree, type.tree id c = some tree ∧ ReadsBack d ids index tree) ↔
      (∀ c ∈ m.constList ++ rest, ∀ values, c.value ≠ .vector values) ∧ ¬type.HasVector ∧
        m.KeepsFloats (type.floats c) := by
  have grows : m'.Grows final := ⟨types, isList ▸ List.prefix_append ..⟩
  obtain ⟨step, gives⟩ := getValueForConstAggregate_spec type built got
  obtain ⟨written, isWritten, atIndex⟩ := gives final grows builtFinal
  have keeps : type.tree id c = some written ↔ m.KeepsFloats (type.floats c) :=
    (type.tree_iff isWritten).trans
      (ConstModule.written_iff_keepsFloats step built grows builtFinal)
  constructor
  · rintro ⟨tree, isTree, reads⟩
    have noVector : ∀ c ∈ final.constList, ∀ values, c.value ≠ .vector values := by
      intro c member values isVector
      exact not_readsBack_of_vector made builtFinal member isVector reads
    have decoded := (readsBack_iff_trees made builtFinal assigned noVector).mp reads
    rw [atIndex, Option.some.injEq] at decoded
    refine ⟨?_, ?_, keeps.mp (decoded ▸ isTree)⟩
    · intro c member
      apply noVector
      rw [isList]
      rcases List.mem_append.mp member with before | after
      · exact List.mem_append_left _ (step.grows.consts.subset before)
      · exact List.mem_append_right _ after
    · intro hasVector
      obtain ⟨vector, member, values, isVector⟩ := step.vector hasVector
      exact noVector vector (grows.consts.subset member) values isVector
  · rintro ⟨others, without, kept⟩
    have noVector : ∀ c ∈ final.constList, ∀ values, c.value ≠ .vector values := by
      intro c member values isVector
      rw [isList] at member
      rcases List.mem_append.mp member with member | after
      · rcases step.created c member with before | ⟨-, isCreated⟩
        · exact others c (List.mem_append_left _ before) values isVector
        · exact without (isCreated values isVector)
      · exact others c (List.mem_append_right _ after) values isVector
    refine ⟨written, keeps.mpr kept, ?_⟩
    exact (readsBack_iff_trees made builtFinal assigned noVector).mpr atIndex

theorem built_empty : ConstModule.Built {} := ⟨TypeTable.cachesFit_empty, nofun⟩

def ConstModule.module (m : ConstModule) : DxilModule where
  types := m.types.typeList.map TypeEntry.toDxilType
  gvars := []
  funcs := []
  consts := m.constList.map m.toConst
  funcDefs := []

/-- An array of one float, twice. -/
theorem readsBack_aggregate_ones : ∃ index m' ids instrIds,
    getValueForConstAggregate (.array (.scalar .float) 2)
      (.mk [] [.mk [0x3f800000] [], .mk [0x3f800000] []]) {} = some (index, m') ∧
    m'.module.assignValues = some (ids, instrIds) ∧
    ((∃ tree, ConstantType.tree id (.array (.scalar .float) 2)
        (.mk [] [.mk [0x3f800000] [], .mk [0x3f800000] []]) = some tree ∧
        ReadsBack m'.module ids index tree) ↔
      (∀ c ∈ ([] : List DxilConst), ∀ values, c.value ≠ .vector values) ∧
        ¬(ConstantType.array (.scalar .float) 2).HasVector ∧
        ConstModule.KeepsFloats {} ((ConstantType.array (.scalar .float) 2).floats
          (.mk [] [.mk [0x3f800000] [], .mk [0x3f800000] []]))) := by
  have got : getValueForConstAggregate (.array (.scalar .float) 2)
    (.mk [] [.mk [0x3f800000] [], .mk [0x3f800000] []]) {} = some (_, _) := rfl
  have built := (getValueForConstAggregate_spec _ built_empty got).1.built
  refine ⟨_, _, _, _, got, rfl, ?_⟩
  exact readsBack_aggregate_iff built_empty got (.refl built.caches) (List.append_nil _).symm built
    ⟨rfl, rfl⟩ rfl

/-- A vector of two integers is accepted, and not written. -/
theorem not_readsBack_vector :
    ¬∀ (type : ConstantType) (c : NirConstant) (m : ConstModule) (index : Nat) (ids : Ids)
      (instrIds : List (List Nat)),
      getValueForConstAggregate type c {} = some (index, m) →
      m.module.assignValues = some (ids, instrIds) →
      ∃ tree, type.tree id c = some tree ∧ ReadsBack m.module ids index tree := by
  intro all
  have got : getValueForConstAggregate (.vector .int 2) (.mk [1, 2] []) {} = some (_, _) := rfl
  obtain ⟨tree, -, reads⟩ := all (.vector .int 2) (.mk [1, 2] []) _ _ _ _ got rfl
  obtain ⟨step, -⟩ := getValueForConstAggregate_spec _ built_empty got
  obtain ⟨vector, member, values, isVector⟩ := step.vector trivial
  exact not_readsBack_of_vector ⟨rfl, rfl⟩ step.built member isVector reads

end SpirvToDxil
