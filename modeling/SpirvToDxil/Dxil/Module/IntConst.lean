import SpirvToDxil.Dxil.Module.Lockstep
import SpirvToDxil.Dxil.Module.TypeTable

/-!
# Integer constants and signed operands

The constants of integer types are interned by the 64-bit value that was asked for, however a
caller extended it. A record stores the value with its sign in bit 0, and a reader cuts what it
decodes to the bits of the type.
-/

namespace SpirvToDxil

/-- The list `const_list` is searched for the value as it was requested. -/
def getIntConst (consts : List Const) (type : Nat) (value : Int) : Nat × List Const :=
  Intern.intern (fun c => c.type = type ∧ c.value = .int value) ⟨type, .int value⟩ consts

/-- The parameter of `dxil_module_get_int1_const` and of the getters after it, converted back
to `intmax_t`. The one-bit getter takes a `bool`. -/
def IntType.parameter : IntType → BitVec 64 → Int
  | int1, value => if value = 0 then 0 else 1
  | int8, value => (value.setWidth 8).toInt
  | int16, value => (value.setWidth 16).toInt
  | int32, value => (value.setWidth 32).toInt
  | int64, value => value.toInt

/-- The five getters, where `type` is the type that the module has for the size. -/
def dxilModuleGetIntConst (consts : List Const) (type : Nat) (size : IntType)
    (value : BitVec 64) : Nat × List Const :=
  getIntConst consts type (size.parameter value)

/-! ## Reading the records -/

/-- An integer of the type, from a record of the constant block. -/
def decodeInteger (bits : Nat) (record : CodedRecord) : Option (BitVec bits) :=
  if record.1 = CST_CODE_NULL then some 0
  else if record.1 = CST_CODE_INTEGER then
    record.2.head?.map fun field => BitVec.ofInt bits (decodeSigned field)
  else none

/-- The distances in the incoming values of a phi. -/
def phiDeltas : List Nat → List Int
  | delta :: _ :: rest => decodeSigned delta :: phiDeltas rest
  | _ => []

/-- The constant is written in a record that a reader decodes to the integer. -/
def Decodes (types : List DxilType) (ids : Ids) (consts : List Const) (index : Nat) {bits : Nat}
    (integer : BitVec bits) : Prop :=
  ∃ c call record, consts[index]? = some c ∧ emitConst types ids c = some call ∧
    call.record? = some record ∧ decodeInteger bits record = some integer

theorem decodeInteger_emitIntValue {bits : Nat} {value : Int} (above : -2 ^ 63 ≤ value)
    (below : value < 2 ^ 63) :
    ∃ record, (emitIntValue value).record? = some record ∧
      decodeInteger bits record = some (BitVec.ofInt bits value) := by
  by_cases zero : value = 0
  · refine ⟨(CST_CODE_NULL, []), by rw [emitIntValue, if_pos zero]; rfl, ?_⟩
    rw [zero]
    rfl
  · refine ⟨(CST_CODE_INTEGER, [encodeSigned value]), by rw [emitIntValue, if_neg zero]; rfl, ?_⟩
    have other : CST_CODE_INTEGER ≠ CST_CODE_NULL := by decide
    simp [decodeInteger, other, decodeSigned_encodeSigned above below]

theorem getElem?_getIntConst (consts : List Const) (type : Nat) (value : Int) :
    (getIntConst consts type value).2[(getIntConst consts type value).1]? =
      some ⟨type, .int value⟩ := by
  obtain ⟨found, isFound, accepted⟩ :=
    @Intern.getElem?_intern _ (fun c => c.type = type ∧ c.value = .int value)
      ⟨type, .int value⟩ consts
  rw [getIntConst, isFound]
  rcases accepted with ⟨_, same⟩ | same
  · have same := of_decide_eq_true same
    rw [← same.1, ← same.2]
  · rw [same]

section Requests

variable {types : List DxilType} {ids : Ids} {type : Nat} {size : IntType}
variable {consts final : List Const}

/-- Whatever is requested, the record decodes to the stored value cut to the type, also when
more constants follow. -/
theorem decodes_getIntConst (isType : types[type]? = some (.integer size.intBits)) {value : Int}
    (above : -2 ^ 63 ≤ value) (below : value < 2 ^ 63)
    (grows : (getIntConst consts type value).2 <+: final)
    (integer : BitVec size.intBits) :
    Decodes types ids final (getIntConst consts type value).1 integer ↔
      integer = BitVec.ofInt size.intBits value := by
  have stored : final[(getIntConst consts type value).1]? = some ⟨type, .int value⟩ := by
    have found := getElem?_getIntConst consts type value
    obtain ⟨rest, rfl⟩ := grows
    rw [List.getElem?_append_left (List.getElem?_eq_some_iff.mp found).1]
    exact found
  have emitted : emitConst types ids ⟨type, .int value⟩ = some (emitIntValue value) := by
    simp only [emitConst, isType]
  obtain ⟨record, isRecord, decoded⟩ := @decodeInteger_emitIntValue size.intBits value above below
  constructor
  · rintro ⟨c, call, record', isConst, isCall, isRecord', decoded'⟩
    cases stored.symm.trans isConst
    cases emitted.symm.trans isCall
    cases isRecord.symm.trans isRecord'
    exact Option.some_inj.mp (decoded'.symm.trans decoded)
  · rintro rfl
    exact ⟨_, _, record, stored, emitted, isRecord, decoded⟩

theorem ofInt_toInt (size : IntType) (value : BitVec 64) :
    BitVec.ofInt size.intBits value.toInt = value.setWidth size.intBits := by
  have narrow : size.intBits ≤ 64 := by cases size <;> decide
  exact BitVec.signExtend_eq_setWidth_of_le value narrow

/-- A getter cuts its argument to the type, but for the one-bit getter, whose `bool` is one for
every argument that is not zero. -/
theorem ofInt_parameter_iff (size : IntType) (value : BitVec 64) :
    value.setWidth size.intBits = BitVec.ofInt size.intBits (size.parameter value) ↔
      ¬(size = .int1 ∧ value.getLsbD 0 = false ∧ value ≠ 0) := by
  cases size with
  | int1 =>
      have low : value.setWidth 1 = BitVec.ofBool (value.getLsbD 0) := by
        apply BitVec.eq_of_getLsbD_eq
        intro i small
        have first : i = 0 := by omega
        subst first
        rw [BitVec.getLsbD_setWidth, BitVec.getLsbD_ofBool]
        rfl
      simp only [IntType.intBits, IntType.parameter, low]
      by_cases zero : value = 0
      · subst zero
        decide
      · rw [if_neg zero]
        cases value.getLsbD 0 with
        | false => exact iff_of_false (by decide) (not_not.mpr ⟨trivial, rfl, zero⟩)
        | true => exact iff_of_true (by decide) fun even => nomatch even.2.1
  | int8 => exact iff_of_true BitVec.ofInt_toInt.symm fun other => nomatch other.1
  | int16 => exact iff_of_true BitVec.ofInt_toInt.symm fun other => nomatch other.1
  | int32 => exact iff_of_true BitVec.ofInt_toInt.symm fun other => nomatch other.1
  | int64 =>
      have same : value.setWidth 64 = value := BitVec.setWidth_eq value
      exact iff_of_true (same.trans BitVec.ofInt_toInt.symm) fun other => nomatch other.1

theorem parameter_bounds (size : IntType) (value : BitVec 64) :
    -2 ^ 63 ≤ size.parameter value ∧ size.parameter value < 2 ^ 63 := by
  cases size with
  | int1 =>
      rw [IntType.parameter]
      split <;> decide
  | int8 =>
      have := BitVec.le_toInt (value.setWidth 8)
      have := @BitVec.toInt_lt 8 (value.setWidth 8)
      simp only [IntType.parameter]
      omega
  | int16 =>
      have := BitVec.le_toInt (value.setWidth 16)
      have := @BitVec.toInt_lt 16 (value.setWidth 16)
      simp only [IntType.parameter]
      omega
  | int32 =>
      have := BitVec.le_toInt (value.setWidth 32)
      have := @BitVec.toInt_lt 32 (value.setWidth 32)
      simp only [IntType.parameter]
      omega
  | int64 => exact ⟨BitVec.le_toInt value, BitVec.toInt_lt⟩

end Requests

theorem phiDeltas_emitIncoming {ids : Ids} {blockIds : List Int} {valueId : Nat}
    (small : valueId < 2 ^ 31) {incoming : List (Value × Nat)}
    (sourcesSmall : ∀ source ∈ incoming, ∀ id, ids.of? source.1 = some id → id < 2 ^ 31)
    {pairs : List (List Nat)}
    (emitted : incoming.mapM (emitIncoming ids blockIds valueId) = some pairs) :
    ∃ sourceIds, incoming.mapM (fun source => ids.of? source.1) = some sourceIds ∧
      phiDeltas pairs.flatten = sourceIds.map fun id : Nat => (valueId : Int) - id := by
  induction incoming generalizing pairs with
  | nil =>
      cases emitted
      exact ⟨[], rfl, rfl⟩
  | cons source incoming inductionHypothesis =>
      simp only [List.mapM_cons, Option.bind_eq_bind, Option.bind_eq_some_iff, Option.pure_def,
        Option.some.injEq] at emitted
      obtain ⟨pair, isPair, pairs, rest, rfl⟩ := emitted
      simp only [emitIncoming, Option.bind_eq_bind, Option.bind_eq_some_iff,
        Option.some.injEq] at isPair
      obtain ⟨id, isId, block, _, rfl⟩ := isPair
      obtain ⟨sourceIds, mapped, deltas⟩ :=
        inductionHypothesis (fun source member => sourcesSmall source (by simp [member])) rest
      have idSmall := sourcesSmall source (by simp) id isId
      refine ⟨id :: sourceIds, by simp [isId, mapped], ?_⟩
      rw [List.flatten_cons, List.map_cons, ← deltas]
      simp only [List.cons_append, List.nil_append, phiDeltas]
      rw [decodeSigned_encodeSigned (by omega) (by omega)]

/-- Whatever 64-bit value is interned for an integer type, its record decodes to the value
modulo the type; the getters store such a value, but the one-bit one an even value other than
zero as one; and the record of a phi holds the signed distances of its operands. -/
theorem integers_decode {types : List DxilType} {type : Nat} {size : IntType}
    (isType : types[type]? = some (.integer size.intBits)) (ids : Ids) (consts : List Const)
    (value : BitVec 64) :
    (∀ final, (getIntConst consts type value.toInt).2 <+: final →
      Decodes types ids final (getIntConst consts type value.toInt).1
        (value.setWidth size.intBits)) ∧
    (∀ final, (dxilModuleGetIntConst consts type size value).2 <+: final →
      (Decodes types ids final (dxilModuleGetIntConst consts type size value).1
          (value.setWidth size.intBits) ↔
        ¬(size = .int1 ∧ value.getLsbD 0 = false ∧ value ≠ 0))) ∧
    ∀ (blockIds : List Int) (valueId phiType : Nat) (incoming : List (Value × Nat))
      (call : WriterCall), valueId < 2 ^ 31 →
      (∀ source ∈ incoming, ∀ id, ids.of? source.1 = some id → id < 2 ^ 31) →
      emitPhi ids blockIds valueId phiType incoming = some call →
      ∃ data sourceIds, call.record? = some (FUNC_CODE_INST_PHI, phiType :: data) ∧
        incoming.mapM (fun source => ids.of? source.1) = some sourceIds ∧
        phiDeltas data = sourceIds.map fun id : Nat => (valueId : Int) - id := by
  refine ⟨?_, ?_, ?_⟩
  · intro final grows
    apply (decodes_getIntConst isType (BitVec.le_toInt value) BitVec.toInt_lt grows _).mpr
    exact (ofInt_toInt size value).symm
  · intro final grows
    obtain ⟨above, below⟩ := parameter_bounds size value
    rw [dxilModuleGetIntConst, decodes_getIntConst isType above below grows]
    exact ofInt_parameter_iff size value
  · intro blockIds valueId phiType incoming call small sourcesSmall emitted
    simp only [emitPhi, Option.bind_eq_bind, Option.bind_eq_some_iff, Option.some.injEq] at emitted
    obtain ⟨pairs, mapped, data, fits, rfl⟩ := emitted
    obtain ⟨sourceIds, isIds, deltas⟩ := phiDeltas_emitIncoming small sourcesSmall mapped
    rw [localArray, Option.ite_none_right_eq_some] at fits
    cases fits.2
    exact ⟨pairs.flatten, sourceIds, rfl, isIds, deltas⟩

/-- The most negative value in a 64-bit type. -/
theorem integers_decode_intMin :
    (∀ final, (getIntConst [] 0 (BitVec.intMin 64).toInt).2 <+: final →
      Decodes [.integer 64] ⟨[], [], [], []⟩ final
        (getIntConst [] 0 (BitVec.intMin 64).toInt).1 ((BitVec.intMin 64).setWidth 64)) ∧
    (∀ final, (dxilModuleGetIntConst [] 0 .int64 (BitVec.intMin 64)).2 <+: final →
      (Decodes [.integer 64] ⟨[], [], [], []⟩ final
          (dxilModuleGetIntConst [] 0 .int64 (BitVec.intMin 64)).1
          ((BitVec.intMin 64).setWidth 64) ↔
        ¬(IntType.int64 = .int1 ∧ (BitVec.intMin 64).getLsbD 0 = false ∧
          BitVec.intMin 64 ≠ 0))) ∧
    ∀ (blockIds : List Int) (valueId phiType : Nat) (incoming : List (Value × Nat))
      (call : WriterCall), valueId < 2 ^ 31 →
      (∀ source ∈ incoming, ∀ id,
        (⟨[], [], [], []⟩ : Ids).of? source.1 = some id → id < 2 ^ 31) →
      emitPhi ⟨[], [], [], []⟩ blockIds valueId phiType incoming = some call →
      ∃ data sourceIds, call.record? = some (FUNC_CODE_INST_PHI, phiType :: data) ∧
        incoming.mapM (fun source => (⟨[], [], [], []⟩ : Ids).of? source.1) = some sourceIds ∧
        phiDeltas data = sourceIds.map fun id : Nat => (valueId : Int) - id :=
  @integers_decode [.integer 64] 0 .int64 rfl ⟨[], [], [], []⟩ [] (BitVec.intMin 64)

/-- Two, asked for as a one-bit integer, is stored as one. -/
theorem not_decode_two :
    ¬∀ (types : List DxilType) (ids : Ids) (consts : List Const) (type : Nat) (size : IntType)
      (value : BitVec 64), types[type]? = some (.integer size.intBits) →
      Decodes types ids (dxilModuleGetIntConst consts type size value).2
        (dxilModuleGetIntConst consts type size value).1 (value.setWidth size.intBits) := by
  intro all
  have decodes := all [.integer 1] ⟨[], [], [], []⟩ [] 0 .int1 2 rfl
  have isType : [DxilType.integer 1][0]? = some (.integer IntType.int1.intBits) := rfl
  rw [dxilModuleGetIntConst, decodes_getIntConst isType (by decide) (by decide)
    (List.prefix_refl _)] at decodes
  revert decodes
  decide

end SpirvToDxil
