import SpirvToDxil.Dxil.Module.Numbering
import SpirvToDxil.Util.Ieee
import SpirvToDxil.Util.Intern

/-!
# Interned floating-point constants

`const_list` is searched for a constant of the type that compares equal: float16
constants are compared as integers, the others as doubles, which is also how a
float is stored.
-/

namespace SpirvToDxil

open Ieee

inductive FloatType where
  | float16
  | float32
  | float64
  deriving DecidableEq, Repr

def FloatType.floatBits : FloatType → Nat
  | float16 => 16
  | float32 => 32
  | float64 => 64

/-- The members of the union in `struct dxil_const` that floating-point constants use. -/
inductive FloatConstValue where
  | int (intValue : BitVec 16)
  | float (floatValue : Datum binary64)
  deriving DecidableEq

structure FloatConst where
  type : Nat
  value : FloatConstValue
  deriving DecidableEq

/-- The part of a `dxil_module` that the requests change; `floatType` stands for the three
cached types. -/
structure ConstPool where
  types : List DxilType
  floatType : FloatType → Option Nat := fun _ => none
  consts : List FloatConst := []

def FloatConstValue.same : FloatConstValue → FloatConstValue → Bool
  | int intValue, int value => intValue = value
  | float floatValue, float value => floatValue.eqv value
  | _, _ => false

namespace ConstPool

def init (types : List DxilType) : ConstPool where
  types := types

/-- `get_float16_type`, `get_float32_type` and `get_float64_type`. -/
def getFloatType (m : ConstPool) (type : FloatType) : Nat × ConstPool :=
  match m.floatType type with
  | some id => (id, m)
  | none =>
    (m.types.length, { m with
      types := m.types ++ [.float type.floatBits]
      floatType := Function.update m.floatType type (some m.types.length) })

/-- The search of the list, and `create_const` where it finds nothing. -/
def getConst (m : ConstPool) (type : FloatType) (value : FloatConstValue) : Value × ConstPool :=
  let (type, m) := m.getFloatType type
  let (index, consts) :=
    Intern.intern (fun c => c.type = type && c.value.same value) ⟨type, value⟩ m.consts
  (.const index, { m with consts := consts })

def getFloat16Const (m : ConstPool) (value : BitVec 16) : Value × ConstPool :=
  m.getConst .float16 (.int value)

def getFloatConst (m : ConstPool) (value : Datum binary32) : Value × ConstPool :=
  m.getConst .float32 (.float (value.convert binary64))

def getDoubleConst (m : ConstPool) (value : Datum binary64) : Value × ConstPool :=
  m.getConst .float64 (.float value)

end ConstPool

inductive FloatRequest where
  | float16 (value : BitVec 16)
  | float (value : Datum binary32)
  | double (value : Datum binary64)
  deriving DecidableEq

namespace FloatRequest

def type : FloatRequest → FloatType
  | float16 _ => .float16
  | float _ => .float32
  | double _ => .float64

def bits : FloatRequest → Nat
  | float16 value => value.toNat
  | float value => value.bits
  | double value => value.bits

/-- The bits after the conversions to a double and back. -/
def writtenBits : FloatRequest → Nat
  | float16 value => value.toNat
  | float value => ((value.convert binary64).convert binary32).bits
  | double value => value.bits

/-- What the request looks for, and stores. -/
def value : FloatRequest → FloatConstValue
  | float16 value => .int value
  | float value => .float (value.convert binary64)
  | double value => .float value

end FloatRequest

namespace ConstPool

def request (m : ConstPool) : FloatRequest → Value × ConstPool
  | .float16 value => m.getFloat16Const value
  | .float value => m.getFloatConst value
  | .double value => m.getDoubleConst value

def requests (m : ConstPool) : List FloatRequest → List Value × ConstPool
  | [] => ([], m)
  | r :: rs =>
    let (value, m) := m.request r
    let (values, m) := m.requests rs
    (value :: values, m)

/-- A constant as `emit_consts` takes it, with the conversions of the calls there. -/
def toConst (m : ConstPool) (c : FloatConst) : Const where
  type := c.type
  value :=
    match c.value, m.types[c.type]? with
    | .int intValue, _ => .int intValue.toNat
    | .float floatValue, some (.float 32) => .float (floatValue.convert binary32).bits
    | .float floatValue, _ => .float floatValue.bits

def emitConsts (m : ConstPool) : Option (List WriterCall) :=
  emitConstsFrom m.types ⟨[], [], [], []⟩ none (m.consts.map m.toConst)

end ConstPool

/-! ## Reading the constants back -/

/-- The payload of a floating-point record; null stands for no bits. -/
def floatPayload (record : CodedRecord) : Option Nat :=
  if record.1 = CST_CODE_NULL then some 0
  else if record.1 = CST_CODE_FLOAT then record.2.head?
  else none

def readFloats : Option Nat → List CodedRecord → List (Option Nat × Option Nat)
  | _, [] => []
  | currType, record :: records =>
    if record.1 = CST_CODE_SETTYPE then readFloats record.2.head? records
    else (currType, floatPayload record) :: readFloats currType records

/-- Every returned value is written with the type and the bits of its request, and only
equal requests share a value. -/
structure Interned (types : List DxilType) (rs : List FloatRequest) : Prop where
  written : ∃ calls, ((ConstPool.init types).requests rs).2.emitConsts = some calls ∧
    ∀ (i : Nat) (r : FloatRequest), rs[i]? = some r →
      ∃ index type, ((ConstPool.init types).requests rs).1[i]? = some (.const index) ∧
        (readFloats none (calls.filterMap WriterCall.record?))[index]? =
          some (some type, some r.bits) ∧
        ((ConstPool.init types).requests rs).2.types[type]? = some (.float r.type.floatBits)
  shared : ∀ (i j : Nat) (r s : FloatRequest), rs[i]? = some r → rs[j]? = some s →
    (((ConstPool.init types).requests rs).1[i]? = ((ConstPool.init types).requests rs).1[j]? ↔
      r = s)

/-- Two requests that the comparison of doubles gets wrong: a NaN made twice, or zeros of
both signs. -/
def FloatRequest.Clash : FloatRequest → FloatRequest → Prop
  | .float x, .float y => x.isNaN ∧ x = y ∨ x.isZero ∧ y.isZero ∧ x ≠ y
  | .double x, .double y => x.isNaN ∧ x = y ∨ x.isZero ∧ y.isZero ∧ x ≠ y
  | _, _ => False

/-- A NaN that the conversion to a double changes. -/
def FloatRequest.Signaling : FloatRequest → Prop
  | .float x => x.isSignaling
  | _ => False

instance (r s : FloatRequest) : Decidable (r.Clash s) := by
  cases r <;> cases s <;> unfold FloatRequest.Clash <;> infer_instance

instance (r : FloatRequest) : Decidable r.Signaling := by
  cases r <;> unfold FloatRequest.Signaling <;> infer_instance

structure NoClash (rs : List FloatRequest) : Prop where
  quiet : ∀ r ∈ rs, ¬ r.Signaling
  apart : rs.Pairwise fun r s => ¬ r.Clash s

/-! ## Growing pools -/

namespace ConstPool

def accepts (type : Nat) (value : FloatConstValue) (c : FloatConst) : Bool :=
  c.type = type && c.value.same value

structure Grows (m m' : ConstPool) : Prop where
  types : m.types <+: m'.types
  floatType : ∀ type id, m.floatType type = some id → m'.floatType type = some id
  consts : m.consts <+: m'.consts

theorem Grows.refl (m : ConstPool) : Grows m m :=
  ⟨List.prefix_rfl, fun _ _ known => known, List.prefix_rfl⟩

theorem Grows.trans {m m' m'' : ConstPool} (first : Grows m m') (second : Grows m' m'') :
    Grows m m'' :=
  ⟨first.types.trans second.types,
    fun type id known => second.floatType type id (first.floatType type id known),
    first.consts.trans second.consts⟩

structure Stores (m : ConstPool) (c : FloatConst) (r : FloatRequest) : Prop where
  type : m.floatType r.type = some c.type
  value : c.value = r.value

theorem Stores.mono {m m' : ConstPool} {c : FloatConst} {r : FloatRequest} (grows : Grows m m')
    (stores : m.Stores c r) : m'.Stores c r :=
  ⟨grows.floatType _ _ stores.type, stores.value⟩

structure Pooled (m : ConstPool) (rs : List FloatRequest) : Prop where
  types : ∀ type id, m.floatType type = some id → m.types[id]? = some (.float type.floatBits)
  consts : ∀ c ∈ m.consts, ∃ r ∈ rs, m.Stores c r

theorem pooled_init (types : List DxilType) : (init types).Pooled [] := ⟨nofun, nofun⟩

theorem Pooled.type_injective {m : ConstPool} {rs : List FloatRequest} (pooled : m.Pooled rs)
    {type type' : FloatType} {id : Nat} (known : m.floatType type = some id)
    (known' : m.floatType type' = some id) : type = type' := by
  have same := (pooled.types _ _ known).symm.trans (pooled.types _ _ known')
  cases type <;> cases type' <;> first | rfl | cases same

theorem getFloatType_spec {m : ConstPool} {rs : List FloatRequest} (pooled : m.Pooled rs)
    (type : FloatType) :
    Grows m (m.getFloatType type).2 ∧ (m.getFloatType type).2.Pooled rs ∧
      (m.getFloatType type).2.floatType type = some (m.getFloatType type).1 ∧
      (m.getFloatType type).2.consts = m.consts := by
  rw [getFloatType]
  split
  · next id known =>
    exact ⟨Grows.refl m, pooled, known, rfl⟩
  · next unknown =>
    have others : ∀ type' id, m.floatType type' = some id →
        Function.update m.floatType type (some m.types.length) type' = some id := by
      intro type' id known
      rw [Function.update_of_ne _]
      · exact known
      · rintro rfl
        rw [unknown] at known
        cases known
    have grows : Grows m { m with
        types := m.types ++ [.float type.floatBits]
        floatType := Function.update m.floatType type (some m.types.length) } :=
      ⟨List.prefix_append .., others, List.prefix_rfl⟩
    refine ⟨grows, ⟨?_, ?_⟩, Function.update_self .., rfl⟩
    · intro type' id known
      dsimp only at known
      by_cases own : type' = type
      · subst own
        rw [Function.update_self, Option.some.injEq] at known
        subst known
        exact List.getElem?_concat_length
      · rw [Function.update_of_ne own] at known
        have old := pooled.types type' id known
        rw [List.getElem?_append_left (List.getElem?_eq_some_iff.mp old).1]
        exact old
    · intro c member
      rcases pooled.consts c member with ⟨r, requested, stores⟩
      exact ⟨r, requested, stores.mono grows⟩

theorem request_eq (m : ConstPool) (r : FloatRequest) :
    m.request r = m.getConst r.type r.value := by
  cases r <;> rfl

structure Answered (m : ConstPool) (r : FloatRequest) (rs : List FloatRequest) (index : Nat)
    (m' : ConstPool) : Prop where
  grows : Grows m m'
  pooled : m'.Pooled (rs ++ [r])
  holds : ∃ c, m'.consts[index]? = some c ∧ m'.floatType r.type = some c.type ∧
    (c.value.same r.value = true ∨ c.value = r.value)
  found : r.value.same r.value = true → ∃ type, m'.floatType r.type = some type ∧
    m'.consts.findIdx? (accepts type r.value) = some index
  fresh : (∀ c ∈ m.consts, c.value.same r.value = false) → index = m.consts.length

theorem request_answered {m : ConstPool} {rs : List FloatRequest} (pooled : m.Pooled rs)
    (r : FloatRequest) :
    ∃ index, (m.request r).1 = .const index ∧ Answered m r rs index (m.request r).2 := by
  rw [request_eq, getConst]
  rcases getFloatType_spec pooled r.type with ⟨grows, pooled', known, consts⟩
  generalize m.getFloatType r.type = typed at *
  rcases typed with ⟨type, m'⟩
  dsimp only at grows pooled' known consts ⊢
  refine ⟨_, rfl, ?_⟩
  change Answered m r rs (Intern.intern (accepts type r.value) ⟨type, r.value⟩ m'.consts).1 _
  constructor
  · refine ⟨grows.types, grows.floatType, ?_⟩
    rw [← consts]
    exact Intern.prefix_intern
  · refine ⟨pooled'.types, ?_⟩
    intro c member
    rcases Intern.mem_intern member with old | rfl
    · rcases pooled'.consts c old with ⟨q, requested, stores⟩
      exact ⟨q, List.mem_append_left _ requested, stores.type, stores.value⟩
    · exact ⟨r, List.mem_append_right _ List.mem_cons_self, known, rfl⟩
  · rcases @Intern.getElem?_intern _ (accepts type r.value) ⟨type, r.value⟩ m'.consts with
      ⟨c, isFound, ⟨-, accepted⟩ | rfl⟩
    · rw [accepts, Bool.and_eq_true, decide_eq_true_eq] at accepted
      exact ⟨c, isFound, accepted.1 ▸ known, Or.inl accepted.2⟩
    · exact ⟨_, isFound, known, Or.inr rfl⟩
  · intro selfSame
    refine ⟨type, known, Intern.findIdx?_intern ?_⟩
    rw [accepts, Bool.and_eq_true, decide_eq_true_eq]
    exact ⟨rfl, selfSame⟩
  · intro rejects
    rw [Intern.intern_of_rejects, consts]
    intro c member
    rw [accepts, rejects c (consts ▸ member), Bool.and_false]

/-! ## Runs of requests -/

def before (m : ConstPool) (rs : List FloatRequest) (i : Nat) : ConstPool :=
  (m.requests (rs.take i)).2

theorem requests_pooled {m : ConstPool} {done : List FloatRequest} (pooled : m.Pooled done)
    (rs : List FloatRequest) :
    Grows m (m.requests rs).2 ∧ (m.requests rs).2.Pooled (done ++ rs) := by
  induction rs generalizing m done with
  | nil => exact ⟨Grows.refl m, (List.append_nil done).symm ▸ pooled⟩
  | cons r rs inductionHypothesis =>
    rcases request_answered pooled r with ⟨index, -, answered⟩
    rcases inductionHypothesis answered.pooled with ⟨grows, pooled'⟩
    rw [List.append_assoc] at pooled'
    exact ⟨answered.grows.trans grows, pooled'⟩

theorem requests_getElem? {m : ConstPool} {done : List FloatRequest} (pooled : m.Pooled done)
    {rs : List FloatRequest} {i : Nat} {r : FloatRequest} (isRequest : rs[i]? = some r) :
    (m.requests rs).1[i]? = some ((m.before rs i).request r).1 ∧
      Grows ((m.before rs i).request r).2 (m.requests rs).2 := by
  induction rs generalizing m done i with
  | nil => cases isRequest
  | cons first rs inductionHypothesis =>
    rcases request_answered pooled first with ⟨index, -, answered⟩
    cases i with
    | zero =>
      rw [List.getElem?_cons_zero, Option.some.injEq] at isRequest
      subst isRequest
      exact ⟨rfl, (requests_pooled answered.pooled rs).1⟩
    | succ i =>
      rw [List.getElem?_cons_succ] at isRequest
      exact inductionHypothesis answered.pooled isRequest

theorem before_pooled (types : List DxilType) (rs : List FloatRequest) (i : Nat) :
    ((init types).before rs i).Pooled (rs.take i) :=
  (requests_pooled (pooled_init types) (rs.take i)).2

theorem before_grows {types : List DxilType} {rs : List FloatRequest} {i j : Nat}
    (earlier : i < j) {r : FloatRequest} (isRequest : rs[i]? = some r) :
    Grows (((init types).before rs i).request r).2 ((init types).before rs j) := by
  have inside : (rs.take j)[i]? = some r := by rw [List.getElem?_take_of_lt earlier, isRequest]
  have grows := (requests_getElem? (pooled_init types) inside).2
  rwa [before, List.take_take, Nat.min_eq_left (Nat.le_of_lt earlier)] at grows

/-! ## The records -/

def payload (m : ConstPool) (c : FloatConst) : Nat :=
  match c.value, m.types[c.type]? with
  | .int intValue, _ => intValue.toNat
  | .float floatValue, some (.float 32) => (floatValue.convert binary32).bits
  | .float floatValue, _ => floatValue.bits

theorem payload_eq {m : ConstPool} {rs : List FloatRequest} (pooled : m.Pooled rs) {c : FloatConst}
    {r : FloatRequest} (stores : m.Stores c r) : m.payload c = r.writtenBits := by
  have type := pooled.types _ _ stores.type
  rw [payload, stores.value, type]
  cases r <;> rfl

theorem emitConst_float {m : ConstPool} {rs : List FloatRequest} (pooled : m.Pooled rs)
    {c : FloatConst} {r : FloatRequest} (stores : m.Stores c r) (ids : Ids) :
    emitConst m.types ids (m.toConst c) = some (emitFloatValue (m.payload c)) := by
  have type := pooled.types _ _ stores.type
  rw [emitConst, toConst, payload, stores.value, type]
  cases r with
  | float16 value =>
    have small : toU64 value.toNat % 2 ^ 16 = value.toNat := by
      have bound := value.isLt
      rw [toU64]
      omega
    simp only [FloatRequest.value, FloatRequest.type, FloatType.floatBits, small]
  | float value => rfl
  | double value => rfl

theorem floatPayload_emitFloatValue (bits : Nat) :
    ∃ record, (emitFloatValue bits).record? = some record ∧ record.1 ≠ CST_CODE_SETTYPE ∧
      floatPayload record = some bits := by
  rw [emitFloatValue]
  split
  · next zero =>
    exact ⟨(CST_CODE_NULL, []), rfl, by decide, by rw [zero]; rfl⟩
  · exact ⟨(CST_CODE_FLOAT, [bits]), rfl, (by decide : CST_CODE_FLOAT ≠ CST_CODE_SETTYPE), rfl⟩

theorem readFloats_emitConstsFrom {m : ConstPool} {rs : List FloatRequest} (pooled : m.Pooled rs)
    {consts : List FloatConst} (stored : ∀ c ∈ consts, ∃ r, m.Stores c r) (ids : Ids)
    (currType : Option Nat) :
    ∃ calls, emitConstsFrom m.types ids currType (consts.map m.toConst) = some calls ∧
      readFloats currType (calls.filterMap WriterCall.record?) =
        consts.map fun c => (some c.type, some (m.payload c)) := by
  induction consts generalizing currType with
  | nil => exact ⟨[], rfl, rfl⟩
  | cons c consts inductionHypothesis =>
    rw [List.forall_mem_cons] at stored
    rcases stored.1 with ⟨r, stores⟩
    rcases inductionHypothesis stored.2 (some c.type) with ⟨rest, emitted, read⟩
    rcases floatPayload_emitFloatValue (m.payload c) with ⟨record, isRecord, notType, payload⟩
    have type : (m.toConst c).type = c.type := rfl
    refine ⟨_, by simp only [List.map_cons, emitConstsFrom, emitConst_float pooled stores, type,
      emitted, Option.bind_eq_bind, Option.bind_some]; rfl, ?_⟩
    by_cases current : currType = some c.type
    · rw [if_pos current, List.nil_append, List.filterMap_cons_some isRecord, readFloats,
        if_neg notType, current, read, payload]
      rfl
    · have setType : (emitSetType c.type).record? = some (CST_CODE_SETTYPE, [c.type]) := rfl
      rw [if_neg current, List.singleton_append, List.filterMap_cons_some setType,
        List.filterMap_cons_some isRecord, readFloats, if_pos rfl, readFloats, if_neg notType,
        List.head?_cons, read, payload]
      rfl

theorem emitConsts_reads {m : ConstPool} {rs : List FloatRequest} (pooled : m.Pooled rs) :
    ∃ calls, m.emitConsts = some calls ∧
      readFloats none (calls.filterMap WriterCall.record?) =
        m.consts.map fun c => (some c.type, some (m.payload c)) := by
  apply readFloats_emitConstsFrom pooled
  intro c member
  rcases pooled.consts c member with ⟨r, -, stores⟩
  exact ⟨r, stores⟩

end ConstPool

/-! ## Requests that clash -/

namespace FloatRequest

theorem clash_symm {r s : FloatRequest} (clash : r.Clash s) : s.Clash r := by
  cases r <;> cases s <;> first
    | exact clash.elim
    | rcases clash with ⟨nan, rfl⟩ | ⟨zero, zero', apart⟩
      · exact Or.inl ⟨nan, rfl⟩
      · exact Or.inr ⟨zero', zero, apart.symm⟩

/-- What the search accepts for a request is what it was made for, unless the two clash. -/
theorem eq_of_same {q r : FloatRequest} (type : q.type = r.type) (apart : q ≠ r → ¬ q.Clash r)
    (quiet : ¬ q.Signaling) (quiet' : ¬ r.Signaling)
    (same : q.value.same r.value = true ∨ q.value = r.value) : q = r := by
  by_contra different
  apply apart different
  cases q with
  | float16 x =>
    cases r with
    | float16 y =>
      rcases same with same | same
      · exact absurd (congrArg float16 (of_decide_eq_true same)) different
      · exact absurd (congrArg float16 (FloatConstValue.int.inj same)) different
    | float y => cases type
    | double y => cases type
  | float x =>
    cases r with
    | float16 y => cases type
    | double y => cases type
    | float y =>
      rcases same with same | same
      · rcases (Datum.eqv_convert wider_binary32 x y).mp (of_decide_eq_true same) with
          ⟨-, -, rfl | ⟨zero, zero'⟩⟩
        · exact absurd rfl different
        · exact Or.inr ⟨zero, zero', fun equal => different (congrArg float equal)⟩
      · have converted := FloatConstValue.float.inj same
        apply absurd _ different
        rw [← Datum.convert_convert wider_binary32 quiet, converted,
          Datum.convert_convert wider_binary32 quiet']
  | double x =>
    cases r with
    | float16 y => cases type
    | float y => cases type
    | double y =>
      rcases same with same | same
      · have equal : x.eqv y := of_decide_eq_true same
        rcases equal with ⟨-, -, rfl | ⟨zero, zero'⟩⟩
        · exact absurd rfl different
        · exact Or.inr ⟨zero, zero', fun equal => different (congrArg double equal)⟩
      · exact absurd (congrArg double (FloatConstValue.float.inj same)) different

theorem writtenBits_eq_iff (r : FloatRequest) : r.writtenBits = r.bits ↔ ¬ r.Signaling := by
  cases r with
  | float16 x => exact iff_of_true rfl not_false
  | double x => exact iff_of_true rfl not_false
  | float x =>
    constructor
    · intro same signaling
      apply Datum.not_isSignaling_convert binary32 (x.convert binary64)
      rw [Datum.bits_injective same]
      exact signaling
    · intro quiet
      exact congrArg Datum.bits (Datum.convert_convert wider_binary32 quiet)

theorem not_same_of_isNaN {x : Datum binary64} (nan : x.isNaN) (value : FloatConstValue) :
    value.same (.float x) = false := by
  cases value with
  | int intValue => rfl
  | float floatValue => exact decide_eq_false (fun equal => equal.2.1 nan)

theorem same_self (r : FloatRequest) : r.value.same r.value = true ∨ r.Clash r ∧
    ∀ value : FloatConstValue, value.same r.value = false := by
  cases r with
  | float16 x => exact Or.inl (decide_eq_true rfl)
  | float x =>
    by_cases nan : x.isNaN
    · exact Or.inr ⟨Or.inl ⟨nan, rfl⟩,
        not_same_of_isNaN ((Datum.isNaN_convert binary64 x).mpr nan)⟩
    · have nan' : ¬ (x.convert binary64).isNaN := fun nan' =>
        nan ((Datum.isNaN_convert _ x).mp nan')
      exact Or.inl (decide_eq_true ⟨nan', nan', Or.inl rfl⟩)
  | double x =>
    by_cases nan : x.isNaN
    · exact Or.inr ⟨Or.inl ⟨nan, rfl⟩, not_same_of_isNaN nan⟩
    · exact Or.inl (decide_eq_true ⟨nan, nan, Or.inl rfl⟩)

theorem same_of_signaling {r : FloatRequest} (signaling : r.Signaling) (value : FloatConstValue) :
    value.same r.value = false := by
  cases r with
  | float16 x => exact signaling.elim
  | double x => exact signaling.elim
  | float x => exact not_same_of_isNaN ((Datum.isNaN_convert binary64 x).mpr signaling.1) value

theorem same_comm (value value' : FloatConstValue) : value.same value' = value'.same value := by
  cases value <;> cases value'
  case int.int x y => exact decide_eq_decide.mpr eq_comm
  case float.float x y => exact decide_eq_decide.mpr ⟨Datum.eqv_symm, Datum.eqv_symm⟩
  all_goals rfl

/-- How the search treats two requests that clash: neither is found, or each finds the other. -/
theorem same_of_clash {r s : FloatRequest} (clash : r.Clash s) :
    (r = s ∧ ∀ value : FloatConstValue, value.same r.value = false) ∨
      (r ≠ s ∧ r.type = s.type ∧ r.value.same r.value = true ∧
        ∀ value : FloatConstValue, value.same r.value = value.same s.value) := by
  have agree : ∀ {x y : Datum binary64}, x.eqv y → ∀ value : FloatConstValue,
      value.same (.float x) = value.same (.float y) := by
    intro x y equal value
    cases value with
    | int intValue => rfl
    | float floatValue => exact decide_eq_decide.mpr (Datum.eqv_congr_right equal floatValue)
  cases r with
  | float16 x => exact clash.elim
  | float x =>
    cases s with
    | float16 y => exact clash.elim
    | double y => exact clash.elim
    | float y =>
      rcases clash with ⟨nan, rfl⟩ | ⟨zero, zero', different⟩
      · refine Or.inl ⟨rfl, not_same_of_isNaN ?_⟩
        exact (Datum.isNaN_convert binary64 x).mpr nan
      · have equal := (Datum.eqv_convert wider_binary32 x y).mpr (Datum.eqv_of_isZero zero zero')
        refine Or.inr ⟨fun same => different (float.inj same), rfl, ?_, agree equal⟩
        exact decide_eq_true (Datum.eqv_trans equal (Datum.eqv_symm equal))
  | double x =>
    cases s with
    | float16 y => exact clash.elim
    | float y => exact clash.elim
    | double y =>
      rcases clash with ⟨nan, rfl⟩ | ⟨zero, zero', different⟩
      · exact Or.inl ⟨rfl, not_same_of_isNaN nan⟩
      · have equal := Datum.eqv_of_isZero zero zero'
        refine Or.inr ⟨fun same => different (double.inj same), rfl, ?_, agree equal⟩
        exact decide_eq_true (Datum.eqv_trans equal (Datum.eqv_symm equal))

end FloatRequest

/-! ## Whole runs -/

section Runs

variable {types : List DxilType} {rs : List FloatRequest}

theorem value_of_request {i : Nat} {r : FloatRequest} (isRequest : rs[i]? = some r) :
    ∃ index, ((ConstPool.init types).requests rs).1[i]? = some (.const index) ∧
      ConstPool.Answered ((ConstPool.init types).before rs i) r (rs.take i) index
        (((ConstPool.init types).before rs i).request r).2 ∧
      ConstPool.Grows (((ConstPool.init types).before rs i).request r).2
        ((ConstPool.init types).requests rs).2 := by
  rcases ConstPool.requests_getElem? (ConstPool.pooled_init types) isRequest with ⟨value, grows⟩
  rcases ConstPool.request_answered (ConstPool.before_pooled types rs i) r with
    ⟨index, isConst, answered⟩
  exact ⟨index, by rw [value, isConst], answered, grows⟩

theorem pooled_requests (types : List DxilType) (rs : List FloatRequest) :
    ((ConstPool.init types).requests rs).2.Pooled rs :=
  (ConstPool.requests_pooled (ConstPool.pooled_init types) rs).2

theorem const_of_request {i : Nat} {r : FloatRequest} (isRequest : rs[i]? = some r) {index : Nat}
    (value : ((ConstPool.init types).requests rs).1[i]? = some (.const index)) :
    ∃ c, ((ConstPool.init types).requests rs).2.consts[index]? = some c ∧
      ∃ q ∈ rs, ((ConstPool.init types).requests rs).2.Stores c q ∧ q.type = r.type ∧
        (q.value.same r.value = true ∨ q.value = r.value) := by
  rcases @value_of_request types _ _ _ isRequest with ⟨index', value', answered, grows⟩
  rw [value, Option.some.injEq, Value.const.injEq] at value'
  subst value'
  rcases answered.holds with ⟨c, isConst, known, same⟩
  have isConst' : ((ConstPool.init types).requests rs).2.consts[index]? = some c := by
    rcases grows.consts with ⟨rest, appended⟩
    rw [← appended, List.getElem?_append_left (List.getElem?_eq_some_iff.mp isConst).1]
    exact isConst
  have pooled := pooled_requests types rs
  rcases pooled.consts c (List.mem_of_getElem? isConst') with ⟨q, requested, stores⟩
  refine ⟨c, isConst', q, requested, stores, ?_, stores.value ▸ same⟩
  exact pooled.type_injective stores.type (grows.floatType _ _ known)

theorem findIdx?_of_request {i : Nat} {r : FloatRequest} (isRequest : rs[i]? = some r) {index : Nat}
    (value : ((ConstPool.init types).requests rs).1[i]? = some (.const index))
    (self : r.value.same r.value = true) :
    ∃ type, ((ConstPool.init types).requests rs).2.floatType r.type = some type ∧
      ((ConstPool.init types).requests rs).2.consts.findIdx? (ConstPool.accepts type r.value) =
        some index := by
  rcases @value_of_request types _ _ _ isRequest with ⟨index', value', answered, grows⟩
  rw [value, Option.some.injEq, Value.const.injEq] at value'
  subst value'
  rcases answered.found self with ⟨type, known, found⟩
  exact ⟨type, grows.floatType _ _ known, Intern.findIdx?_of_prefix grows.consts found⟩

theorem exists_value (types : List DxilType) {i : Nat} {r : FloatRequest}
    (isRequest : rs[i]? = some r) :
    ∃ index, ((ConstPool.init types).requests rs).1[i]? = some (.const index) := by
  rcases @value_of_request types _ _ _ isRequest with ⟨index, value, -, -⟩
  exact ⟨index, value⟩

theorem NoClash.not_clash (clean : NoClash rs) {q r : FloatRequest} (requested : q ∈ rs)
    (requested' : r ∈ rs) (different : q ≠ r) : ¬ q.Clash r := by
  rcases List.getElem_of_mem requested with ⟨i, inside, rfl⟩
  rcases List.getElem_of_mem requested' with ⟨j, inside', rfl⟩
  have apart := List.pairwise_iff_getElem.mp clean.apart
  rcases Nat.lt_trichotomy i j with before | rfl | after
  · exact apart i j inside inside' before
  · exact absurd rfl different
  · intro clash
    exact apart j i inside' inside after (FloatRequest.clash_symm clash)

theorem const_of_noClash (clean : NoClash rs) {i : Nat} {r : FloatRequest}
    (isRequest : rs[i]? = some r) {index : Nat}
    (value : ((ConstPool.init types).requests rs).1[i]? = some (.const index)) :
    ∃ c, ((ConstPool.init types).requests rs).2.consts[index]? = some c ∧
      ((ConstPool.init types).requests rs).2.Stores c r := by
  rcases const_of_request isRequest value with ⟨c, isConst, q, requested, stores, type, same⟩
  have requested' : r ∈ rs := List.mem_of_getElem? isRequest
  have equal : q = r :=
    FloatRequest.eq_of_same type (clean.not_clash requested requested') (clean.quiet q requested)
      (clean.quiet r requested') same
  exact ⟨c, isConst, equal ▸ stores⟩

theorem interned_of_noClash (clean : NoClash rs) : Interned types rs := by
  have pooled := pooled_requests types rs
  constructor
  · rcases ConstPool.emitConsts_reads pooled with ⟨calls, emitted, read⟩
    refine ⟨calls, emitted, ?_⟩
    intro i r isRequest
    rcases exists_value types isRequest with ⟨index, value⟩
    rcases const_of_noClash clean isRequest value with ⟨c, isConst, stores⟩
    have quiet := clean.quiet r (List.mem_of_getElem? isRequest)
    refine ⟨index, c.type, value, ?_, pooled.types _ _ stores.type⟩
    rw [read, List.getElem?_map, isConst, Option.map_some, ConstPool.payload_eq pooled stores,
      (FloatRequest.writtenBits_eq_iff r).mpr quiet]
  · intro i j r s isRequest isRequest'
    rcases exists_value types isRequest with ⟨index, value⟩
    rcases exists_value types isRequest' with ⟨index', value'⟩
    rcases const_of_noClash clean isRequest value with ⟨c, isConst, stores⟩
    constructor
    · intro same
      rcases const_of_noClash clean isRequest' (same ▸ value) with ⟨c', isConst', stores'⟩
      rw [isConst, Option.some.injEq] at isConst'
      subst isConst'
      have type : r.type = s.type := pooled.type_injective stores.type stores'.type
      exact FloatRequest.eq_of_same type
        (clean.not_clash (List.mem_of_getElem? isRequest) (List.mem_of_getElem? isRequest'))
        (clean.quiet r (List.mem_of_getElem? isRequest))
        (clean.quiet s (List.mem_of_getElem? isRequest'))
        (Or.inr (stores.value.symm.trans stores'.value))
    · rintro rfl
      by_cases own : i = j
      · rw [own]
      · -- Two requests of one pattern: it is no NaN, so that both find the first constant.
        have self : r.value.same r.value = true := by
          rcases r.same_self with self | ⟨clash, -⟩
          · exact self
          · rcases List.getElem?_eq_some_iff.mp isRequest with ⟨inside, rfl⟩
            rcases List.getElem?_eq_some_iff.mp isRequest' with ⟨inside', equal⟩
            have apart := List.pairwise_iff_getElem.mp clean.apart
            rcases Nat.lt_or_gt_of_ne own with before | after
            · exact absurd (equal ▸ clash) (apart i j inside inside' before)
            · exact absurd (equal ▸ clash) (apart j i inside' inside after)
        rcases findIdx?_of_request isRequest value self with ⟨type, known, found⟩
        rcases findIdx?_of_request isRequest' value' self with ⟨type', known', found'⟩
        rw [known, Option.some.injEq] at known'
        rw [known', found', Option.some.injEq] at found
        rw [value, value', found]

theorem ne_of_rejects {i j : Nat} {r s : FloatRequest} (earlier : i < j)
    (isRequest : rs[i]? = some r) (isRequest' : rs[j]? = some s)
    (rejects : ∀ value : FloatConstValue, value.same s.value = false) :
    ((ConstPool.init types).requests rs).1[i]? ≠ ((ConstPool.init types).requests rs).1[j]? := by
  rcases @value_of_request types _ _ _ isRequest with ⟨index, value, answered, -⟩
  rcases @value_of_request types _ _ _ isRequest' with ⟨index', value', answered', -⟩
  have grows := @ConstPool.before_grows types _ _ _ earlier _ isRequest
  have last := answered'.fresh (fun c _ => rejects c.value)
  rcases answered.holds with ⟨c, isConst, -, -⟩
  have inside := (List.getElem?_eq_some_iff.mp isConst).1
  have longer := grows.consts.length_le
  rw [value, value']
  intro same
  rw [Option.some.injEq, Value.const.injEq] at same
  omega

theorem noClash_of_interned (interned : Interned types rs) : NoClash rs := by
  have pooled := pooled_requests types rs
  constructor
  · intro r requested signaling
    rcases List.getElem?_of_mem requested with ⟨i, isRequest⟩
    rcases interned.written with ⟨calls, emitted, written⟩
    rcases ConstPool.emitConsts_reads pooled with ⟨calls', emitted', read⟩
    rw [emitted, Option.some.injEq] at emitted'
    subst emitted'
    rcases written i r isRequest with ⟨index, type, value, readBack, -⟩
    rcases const_of_request isRequest value with ⟨c, isConst, q, -, stores, sameType, same⟩
    rw [read, List.getElem?_map, isConst, Option.map_some, Option.some.injEq, Prod.mk.injEq,
      Option.some.injEq, Option.some.injEq] at readBack
    have rejects := FloatRequest.same_of_signaling signaling
    have stores' : ((ConstPool.init types).requests rs).2.Stores c r := by
      constructor
      · rw [← sameType]
        exact stores.type
      · rcases same with same | same
        · rw [rejects q.value] at same
          cases same
        · exact stores.value.trans same
    rw [ConstPool.payload_eq pooled stores', FloatRequest.writtenBits_eq_iff] at readBack
    exact readBack.2 signaling
  · rw [List.pairwise_iff_getElem]
    intro i j inside inside' earlier clash
    have isRequest := List.getElem?_eq_getElem inside
    have isRequest' := List.getElem?_eq_getElem inside'
    generalize rs[i] = r at *
    generalize rs[j] = s at *
    rcases FloatRequest.same_of_clash clash with
      ⟨rfl, rejects⟩ | ⟨different, sameType, self, agree⟩
    · exact ne_of_rejects earlier isRequest isRequest' rejects
        ((interned.shared i j r r isRequest isRequest').mpr rfl)
    · apply different
      rw [← interned.shared i j r s isRequest isRequest']
      rcases exists_value types isRequest with ⟨index, value⟩
      rcases exists_value types isRequest' with ⟨index', value'⟩
      rcases findIdx?_of_request isRequest value self with ⟨type, known, found⟩
      have self' : s.value.same s.value = true := by
        have symmetric := FloatRequest.same_comm r.value s.value
        rw [← agree, ← symmetric, ← agree, self]
      rcases findIdx?_of_request isRequest' value' self' with ⟨type', known', found'⟩
      rw [← sameType, known, Option.some.injEq] at known'
      subst known'
      have tests : ConstPool.accepts type r.value = ConstPool.accepts type s.value := by
        funext c
        rw [ConstPool.accepts, ConstPool.accepts, agree]
      rw [tests, found', Option.some.injEq] at found
      rw [value, value', found]

end Runs

theorem interned_iff (types : List DxilType) (rs : List FloatRequest) :
    Interned types rs ↔ NoClash rs :=
  ⟨noClash_of_interned, interned_of_noClash⟩

/-- Zero, then negative zero, which gets the constant of zero. -/
theorem not_interned_zeros :
    ¬ ∀ (types : List DxilType) (rs : List FloatRequest), Interned types rs := by
  intro all
  have clean :=
    noClash_of_interned (all [] [.float ⟨false, 0, by decide⟩, .float ⟨true, 0, by decide⟩])
  have apart := List.rel_of_pairwise_cons clean.apart List.mem_cons_self
  apply apart
  exact Or.inr ⟨rfl, rfl, by decide⟩

end SpirvToDxil
