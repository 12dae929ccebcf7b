import Mathlib.Data.Set.Basic
import SpirvToDxil.Dxil.ResourceHandles

/-!
# The registers of a resource

A resource is described by its metadata node, by its record in the container, by the bounds of its
handles and by its type. Registers are numbers below `2 ^ 32`, and a size of zero stands for a
range without end.
-/

namespace SpirvToDxil

open ResourceContext

/-- A call of an emitter. Where the source passes a binding and a space in place of a variable,
they are those of `var`. -/
structure ResourceCall extends Declaration where
  raw : Bool := false
  count_lt : count < 2 ^ 32

/-- The calls of `emit_module` in any environment: CBVs, samplers, SRVs and UAVs, in this order. -/
def emitResources (minorValidator : Nat) (calls : ResourceClass → List ResourceCall) :
    ResourceContext :=
  let ctx : ResourceContext := { minorValidator := minorValidator }
  let ctx := (calls .cbv).foldl (fun ctx call =>
    ctx.emitCbv call.var.binding.toNat call.var.descriptorSet.toNat call.count) ctx
  let ctx := (calls .sampler).foldl (fun ctx call => ctx.emitSampler call.var call.count) ctx
  let ctx := (calls .srv).foldl (fun ctx call => ctx.emitSrv call.var call.count) ctx
  (calls .uav).foldl (fun ctx call =>
    ctx.emitUav call.var.binding.toNat call.var.descriptorSet.toNat call.count call.raw) ctx

/-- The type that `fill_resource_metadata` is given: an element, or an array of elements. -/
inductive ResourceShape where
  | element
  | array (numElems : Nat)
  deriving DecidableEq, Repr

def emitSrvShape (var : Variable) (count : Nat) : ResourceShape :=
  if var.type.isArray ∧ count > 0 then .array count else .element

def emitUavShape (count : Nat) : ResourceShape := .array count

/-- Without its assertion that `count` is not zero. -/
def emitCbvShape (count : Nat) : ResourceShape := if count ≠ 1 then .array count else .element

def emitSamplerShape (var : Variable) (count : Nat) : ResourceShape :=
  if var.type.isArray ∧ count > 0 then .array count else .element

/-- The computation of `add_resource` with the widths of the source. -/
def unsignedUpperBound (binding size : UInt32) : UInt32 :=
  if size = 0 ∨ size.toUInt64 + binding.toUInt64 ≥ 0xFFFFFFFF then 0xFFFFFFFF
  else binding + size - 1

/-- The sum and the difference that `add_resource` computes stay within 32 bits. -/
theorem unsignedUpperBound_toNat (binding size : UInt32) :
    (unsignedUpperBound binding size).toNat = upperBound binding.toNat size.toNat := by
  have bindingBound := binding.toNat_lt
  have sizeBound := size.toNat_lt
  have zero : size = 0 ↔ size.toNat = 0 := by
    rw [← UInt32.toNat_inj]
    rfl
  have large : size.toUInt64 + binding.toUInt64 ≥ 0xFFFFFFFF ↔
      size.toNat + binding.toNat ≥ UINT_MAX := by
    rw [ge_iff_le, UInt64.le_iff_toNat_le, UInt64.toNat_add, UInt32.toNat_toUInt64,
      UInt32.toNat_toUInt64, Nat.mod_eq_of_lt (by omega)]
    rfl
  rw [unsignedUpperBound, upperBound]
  by_cases capped : size.toNat = 0 ∨ size.toNat + binding.toNat ≥ UINT_MAX
  · rw [if_pos capped, if_pos (by rwa [zero, large])]
    rfl
  · rw [if_neg capped, if_neg (by rwa [zero, large])]
    rw [UINT_MAX] at capped
    have one : (1 : UInt32).toNat = 1 := rfl
    have sum : (binding + size).toNat = binding.toNat + size.toNat := by
      rw [UInt32.toNat_add, Nat.mod_eq_of_lt (by omega)]
    rw [UInt32.toNat_sub_of_le _ _ (UInt32.le_iff_toNat_le.mpr (by omega)), sum, one]

/-! ## Sets of registers -/

/-- `count` registers from `lowerBound` on, or all of them for a count of zero. -/
def sizedRange (lowerBound count : Nat) : Set Nat :=
  {register | lowerBound ≤ register ∧ register ≤ UINT_MAX ∧
    (count ≠ 0 → register < lowerBound + count)}

def boundedRange (lowerBound upperBound : Nat) : Set Nat :=
  {register | lowerBound ≤ register ∧ register ≤ upperBound}

theorem boundedRange_upperBound_iff {binding : Nat} (bounded : binding < 2 ^ 32) (count : Nat) :
    boundedRange binding (upperBound binding count) = sizedRange binding count ↔
      (count ≠ 0 → binding + count ≠ UINT_MAX) := by
  constructor
  · intro same positive reaches
    -- The bound is one past the last register of the range.
    have capped : upperBound binding count = UINT_MAX := if_pos (Or.inr (by omega))
    have last : UINT_MAX ∈ sizedRange binding count := by
      rw [← same, capped]
      exact ⟨by omega, Nat.le_refl _⟩
    have below := last.2.2 positive
    omega
  · intro within
    ext register
    change binding ≤ register ∧ register ≤ upperBound binding count ↔
      binding ≤ register ∧ register ≤ UINT_MAX ∧ (count ≠ 0 → register < binding + count)
    rw [UINT_MAX] at within ⊢
    rw [upperBound, UINT_MAX]
    split <;> omega

theorem le_upperBound {binding : Nat} (bounded : binding < 2 ^ 32) (count : Nat) :
    binding ≤ upperBound binding count := by
  rw [upperBound, UINT_MAX]
  split <;> omega

theorem upperBound_le (binding count : Nat) : upperBound binding count ≤ UINT_MAX := by
  rw [upperBound]
  split <;> omega

namespace ResourceCall

def shape (call : ResourceCall) : ResourceClass → ResourceShape
  | .srv => emitSrvShape call.var call.count
  | .uav => emitUavShape call.count
  | .cbv => emitCbvShape call.count
  | .sampler => emitSamplerShape call.var call.count

def registers (call : ResourceCall) : Set Nat := sizedRange call.var.binding.toNat call.count

theorem binding_lt (call : ResourceCall) : call.var.binding.toNat < 2 ^ 32 :=
  call.var.binding.toNat_lt

end ResourceCall

/-- A range without end has the type of one element, in these two classes only. -/
theorem ResourceCall.shape_ne_array_zero_iff (call : ResourceCall) (resourceClass : ResourceClass) :
    call.shape resourceClass ≠ .array 0 ↔
      (call.count = 0 → resourceClass = .srv ∨ resourceClass = .sampler) := by
  have sized : (if call.var.type.isArray ∧ call.count > 0 then ResourceShape.array call.count
      else .element) ≠ .array 0 := by
    split
    · rename_i positive
      intro same
      have zero := ResourceShape.array.inj same
      omega
    · exact ResourceShape.noConfusion
  cases resourceClass with
  | srv => exact iff_of_true sized (fun _ => .inl rfl)
  | sampler => exact iff_of_true sized (fun _ => .inr rfl)
  | uav => simp [shape, emitUavShape]
  | cbv =>
    by_cases empty : call.count = 0
    · simp [shape, emitCbvShape, empty]
    · refine iff_of_true ?_ (absurd · empty)
      rw [shape, emitCbvShape]
      split
      · intro same
        exact empty (ResourceShape.array.inj same)
      · exact ResourceShape.noConfusion

/-! ## Every description -/

/-- The records between the offset and the count of `emit_createhandle_call_dynamic`. -/
def ResourceContext.recordsOf (ctx : ResourceContext) (resourceClass : ResourceClass) :
    List ResourceV0 :=
  let numSrvs := ctx.srvMetadataNodes.length
  let numUavs := ctx.uavMetadataNodes.length
  let numCbvs := ctx.cbvMetadataNodes.length
  let numSamplers := ctx.samplerMetadataNodes.length
  match resourceClass with
  | .uav => (ctx.resources.drop (numSrvs + numSamplers + numCbvs)).take numUavs
  | .srv => (ctx.resources.drop (numSamplers + numCbvs)).take numSrvs
  | .sampler => (ctx.resources.drop numCbvs).take numSamplers
  | .cbv => ctx.resources.take numCbvs

/-- The descriptions that a module has of the resource with this id in its class. -/
structure DescribesSameRegisters (ctx : ResourceContext) (resourceClass : ResourceClass) (id : Nat)
    (call : ResourceCall) : Prop where
  node : ∃ node, (ctx.nodes resourceClass)[id]? = some node ∧ node.id = id ∧
    node.space = call.space ∧ sizedRange node.lowerBound node.rangeSize = call.registers
  record : ∃ record, (ctx.recordsOf resourceClass)[id]? = some record ∧
    record.space = call.space ∧ record.lowerBound ≤ record.upperBound ∧
    record.upperBound ≤ UINT_MAX ∧
    boundedRange record.lowerBound record.upperBound = call.registers
  handle : ∀ (Value : Type) (space binding : Nat) (resourceRangeIndex : Value)
    (nonUniformResourceIndex : Bool) (handle : CreateHandle Value),
    ctx.emitCreatehandleCallDynamic resourceClass space binding resourceRangeIndex
      nonUniformResourceIndex = some handle → handle.resourceRangeId = id →
    handle.space = call.space ∧
      boundedRange handle.lowerBound handle.upperBound = call.registers
  shape : call.shape resourceClass ≠ .array 0

theorem declares_emitCbv (ctx : ResourceContext) (var : Variable) (count : Nat) :
    Declares .cbv [⟨var, count⟩] ctx
      (ctx.emitCbv var.binding.toNat var.descriptorSet.toNat count) := by
  rw [emitCbv]
  apply declares_addResource
  · rfl
  · intro other different
    cases other <;> first | rfl | exact absurd rfl different
  · rfl
  · rfl

def declarations (calls : ResourceClass → List ResourceCall) (resourceClass : ResourceClass) :
    List Declaration :=
  (calls resourceClass).map ResourceCall.toDeclaration

theorem Declares.foldl_calls {resourceClass : ResourceClass}
    {declare : ResourceContext → ResourceCall → ResourceContext}
    (step : ∀ ctx call, Declares resourceClass [call.toDeclaration] ctx (declare ctx call))
    (calls : List ResourceCall) (ctx : ResourceContext) :
    Declares resourceClass (calls.map ResourceCall.toDeclaration) ctx
    (calls.foldl declare ctx) := by
  induction calls generalizing ctx with
  | nil => exact Declares.nil ctx
  | cons call calls inductionHypothesis =>
    exact (step ctx call).append (inductionHypothesis (declare ctx call))

theorem declaresAll_emitResources (minorValidator : Nat)
    (calls : ResourceClass → List ResourceCall) :
    DeclaresAll (declarations calls) (emitResources minorValidator calls) := by
  apply DeclaresAll.of_phases
  · exact Declares.foldl_calls (fun ctx call => declares_emitCbv ctx call.var call.count) _ _
  · exact Declares.foldl_calls (fun ctx call => declares_emitSampler ctx call.var call.count) _ _
  · exact Declares.foldl_calls (fun ctx call => declares_emitSrv ctx call.var call.count) _ _
  · exact Declares.foldl_calls
      (fun ctx call => declares_emitUav ctx call.var call.count call.raw) _ _

theorem DeclaresAll.recordsOf {declarations : ResourceClass → List Declaration}
    {ctx : ResourceContext} (declares : DeclaresAll declarations ctx)
    (resourceClass : ResourceClass) :
    List.Forall₂ Declaration.describedBy (declarations resourceClass)
      (ctx.recordsOf resourceClass) := by
  rcases declares.exists_records with ⟨records, resources, described, cbvs, samplers, srvs, uavs⟩
  suffices same : ctx.recordsOf resourceClass = records resourceClass by
    rw [same]
    exact described resourceClass
  unfold ResourceContext.recordsOf
  rw [cbvs, samplers, srvs, uavs, resources]
  cases resourceClass with
  | cbv => exact List.take_left
  | sampler =>
    dsimp only
    rw [List.drop_left, List.take_left]
  | srv =>
    dsimp only
    rw [Nat.add_comm, ← List.drop_drop, List.drop_left, List.drop_left, List.take_left]
  | uav =>
    dsimp only
    rw [Nat.add_comm, Nat.add_comm (records .srv).length, ← List.drop_drop, ← List.drop_drop,
      List.drop_left, List.drop_left, List.drop_left, List.take_length]

section Resource

variable {minorValidator : Nat} {calls : ResourceClass → List ResourceCall}
  {resourceClass : ResourceClass} {id : Nat} {call : ResourceCall}

theorem declarations_getElem? (listed : (calls resourceClass)[id]? = some call) :
    (declarations calls resourceClass)[id]? = some call.toDeclaration := by
  rw [declarations, List.getElem?_map, listed, Option.map_some]

theorem nodes_emitResources (listed : (calls resourceClass)[id]? = some call) :
    ((emitResources minorValidator calls).nodes resourceClass)[id]? =
      some (call.toDeclaration.node id) := by
  rw [(declaresAll_emitResources minorValidator calls).nodes, List.getElem?_map,
    List.getElem?_zipIdx, declarations_getElem? listed]
  simp

theorem recordsOf_emitResources (minorValidator : Nat)
    (listed : (calls resourceClass)[id]? = some call) :
    ∃ record, ((emitResources minorValidator calls).recordsOf resourceClass)[id]? = some record ∧
      call.toDeclaration.describedBy record := by
  have described := (declaresAll_emitResources minorValidator calls).recordsOf resourceClass
  rcases List.getElem?_eq_some_iff.mp (declarations_getElem? listed) with ⟨inside, same⟩
  have bound := described.length_eq ▸ inside
  refine ⟨_, List.getElem?_eq_getElem bound, ?_⟩
  rw [← same]
  exact (List.forall₂_iff_get.mp described).2 id inside bound

theorem handle_emitResources (listed : (calls resourceClass)[id]? = some call) {Value : Type}
    {space binding : Nat} {resourceRangeIndex : Value} {nonUniformResourceIndex : Bool}
    {handle : CreateHandle Value}
    (created : (emitResources minorValidator calls).emitCreatehandleCallDynamic resourceClass space
      binding resourceRangeIndex nonUniformResourceIndex = some handle)
    (own : handle.resourceRangeId = id) :
    handle.space = call.space ∧ handle.lowerBound = call.lowerBound ∧
      handle.upperBound = call.upperBound := by
  rw [emitCreatehandleCallDynamic_eq (declaresAll_emitResources minorValidator calls),
    Option.map_map, Option.map_eq_some_iff] at created
  rcases created with ⟨⟨declaration, position⟩, found, rfl⟩
  have samePosition : position = id := own
  subst samePosition
  have covered := List.find?_some found
  have member := List.mem_of_find?_eq_some found
  rw [List.mem_zipIdx_iff_getElem?, declarations_getElem? listed, Option.some.injEq] at member
  cases member
  exact ⟨(of_decide_eq_true covered).1.symm, rfl, rfl⟩

end Resource

/-! ## The number of UAVs -/

/-- The total of the counts, which stays at `UINT_MAX` once it is out of range. -/
def uavTotal (counts : List Nat) : Nat :=
  if 0 ∈ counts then UINT_MAX else min UINT_MAX counts.sum

theorem numUavs_emitUav {ctx : ResourceContext} (bounded : ctx.numUavs ≤ UINT_MAX)
    (binding space : Nat) {count : Nat} (fits : count < 2 ^ 32) (raw : Bool) :
    (ctx.emitUav binding space count raw).numUavs =
      if count = 0 then UINT_MAX else min UINT_MAX (ctx.numUavs + count) := by
  have uav : (if raw then ResourceType.uavRaw else .uavTyped) = .uavTyped ∨
      (if raw then ResourceType.uavRaw else .uavTyped) = .uavRaw ∨
      (if raw then ResourceType.uavRaw else .uavTyped) = .uavStructured := by
    cases raw <;> decide
  rw [emitUav, addResource]
  dsimp only
  rw [if_pos uav]
  dsimp only
  by_cases empty : count = 0
  · rw [if_pos empty, if_pos (Or.inl empty)]
  · rw [if_neg empty, GlslType.unsigned]
    rw [UINT_MAX] at bounded ⊢
    by_cases wraps : 2 ^ 32 ≤ ctx.numUavs + count
    · have wrapped : (ctx.numUavs + count) % 2 ^ 32 = ctx.numUavs + count - 2 ^ 32 := by omega
      rw [if_pos (by omega), Nat.min_eq_left (by omega)]
    · have kept : (ctx.numUavs + count) % 2 ^ 32 = ctx.numUavs + count :=
        Nat.mod_eq_of_lt (by omega)
      rw [if_neg (by omega), kept, Nat.min_eq_right (by omega)]

theorem numUavs_foldl_emitUav (calls : List ResourceCall) {ctx : ResourceContext}
    (bounded : ctx.numUavs ≤ UINT_MAX) :
    (calls.foldl (fun ctx call => ctx.emitUav call.var.binding.toNat call.var.descriptorSet.toNat
        call.count call.raw) ctx).numUavs =
      if 0 ∈ calls.map (fun call => call.count) then UINT_MAX
      else min UINT_MAX (ctx.numUavs + (calls.map (fun call => call.count)).sum) := by
  induction calls generalizing ctx with
  | nil => simpa using bounded
  | cons call calls inductionHypothesis =>
    have step := numUavs_emitUav bounded call.var.binding.toNat call.var.descriptorSet.toNat
      call.count_lt call.raw
    rw [List.foldl_cons, inductionHypothesis (by rw [step]; split <;> omega), step, List.map_cons,
      List.sum_cons]
    simp only [List.mem_cons]
    by_cases later : 0 ∈ calls.map (fun call => call.count)
    · rw [if_pos later, if_pos (Or.inr later)]
    · rw [if_neg later]
      by_cases empty : call.count = 0
      · rw [if_pos empty, if_pos (Or.inl empty.symm)]
        omega
      · rw [if_neg empty, if_neg (by rintro (zero | mem); exacts [empty zero.symm, later mem])]
        omega

theorem numUavs_foldl_of_step {α : Type} {declare : ResourceContext → α → ResourceContext}
    (step : ∀ ctx call, (declare ctx call).numUavs = ctx.numUavs) (calls : List α)
    (ctx : ResourceContext) : (calls.foldl declare ctx).numUavs = ctx.numUavs := by
  induction calls generalizing ctx with
  | nil => rfl
  | cons call calls inductionHypothesis =>
    rw [List.foldl_cons, inductionHypothesis, step]

theorem numUavs_emitSrv (ctx : ResourceContext) (var : Variable) (count : Nat) :
    (ctx.emitSrv var count).numUavs = ctx.numUavs := by
  rw [emitSrv, addResource, if_neg (by split <;> decide)]

theorem numUavs_emitResources (minorValidator : Nat) (calls : ResourceClass → List ResourceCall) :
    (emitResources minorValidator calls).numUavs =
      uavTotal ((calls .uav).map (fun call => call.count)) := by
  have srv (ctx : ResourceContext) (call : ResourceCall) :=
    numUavs_emitSrv ctx call.var call.count
  have sampler (ctx : ResourceContext) (call : ResourceCall) :
      (ctx.emitSampler call.var call.count).numUavs = ctx.numUavs := rfl
  have cbv (ctx : ResourceContext) (call : ResourceCall) :
      (ctx.emitCbv call.var.binding.toNat call.var.descriptorSet.toNat call.count).numUavs =
        ctx.numUavs := rfl
  rw [emitResources, numUavs_foldl_emitUav]
  all_goals
    rw [numUavs_foldl_of_step srv, numUavs_foldl_of_step sampler, numUavs_foldl_of_step cbv]
  · rw [uavTotal, Nat.zero_add]
  · exact Nat.zero_le _

/-- The descriptions of a resource agree exactly when its range does not end one register before
the last one, and, if it has no end, its class is one of the two whose type allows for this. -/
theorem describesSameRegisters_iff (minorValidator : Nat)
    (calls : ResourceClass → List ResourceCall) :
    (emitResources minorValidator calls).numUavs =
        uavTotal ((calls .uav).map (fun call => call.count)) ∧
      ∀ (resourceClass : ResourceClass) (id : Nat) (call : ResourceCall),
        (calls resourceClass)[id]? = some call →
        (DescribesSameRegisters (emitResources minorValidator calls) resourceClass id call ↔
          (call.count ≠ 0 → call.lowerBound + call.count ≠ UINT_MAX) ∧
            (call.count = 0 → resourceClass = .srv ∨ resourceClass = .sampler)) := by
  refine ⟨numUavs_emitResources minorValidator calls, ?_⟩
  intro resourceClass id call listed
  rcases recordsOf_emitResources minorValidator listed with
    ⟨record, ownRecord, sameSpace, sameLower, sameUpper⟩
  have inRange : boundedRange call.lowerBound call.upperBound = call.registers ↔
      (call.count ≠ 0 → call.lowerBound + call.count ≠ UINT_MAX) :=
    boundedRange_upperBound_iff call.binding_lt call.count
  rw [← inRange, ← call.shape_ne_array_zero_iff]
  constructor
  · rintro ⟨-, ⟨other, found, -, -, -, same⟩, -, shape⟩
    rw [ownRecord, Option.some.injEq] at found
    subst found
    rw [sameLower, sameUpper] at same
    exact ⟨same, shape⟩
  · rintro ⟨same, shape⟩
    refine ⟨⟨_, nodes_emitResources listed, rfl, rfl, rfl⟩,
      ⟨record, ownRecord, sameSpace, ?_, ?_, ?_⟩, ?_, shape⟩
    · rw [sameLower, sameUpper]
      exact le_upperBound call.binding_lt call.count
    · rw [sameUpper]
      exact upperBound_le _ _
    · rw [sameLower, sameUpper]
      exact same
    · intro Value space binding resourceRangeIndex nonUniformResourceIndex handle created own
      rcases handle_emitResources listed created own with ⟨ownSpace, ownLower, ownUpper⟩
      rw [ownLower, ownUpper]
      exact ⟨ownSpace, same⟩

/-- An array of storage buffers in the first space, with bindings from 2 on. -/
def storageBuffers (count : Nat) (fits : count < 2 ^ 32) (raw : Bool) : ResourceCall where
  var :=
    { type := .array (.struct true "Buffer" .nil) count 0
      mode := .memSsbo
      access := 0
      descriptorSet := 0
      binding := 2 }
  count := count
  raw := raw
  count_lt := fits

theorem describesSameRegisters_iff_four :
    DescribesSameRegisters
      (emitResources 4 (fun _ => [storageBuffers 4 (by decide) true])) .uav 0
      (storageBuffers 4 (by decide) true) :=
  ((describesSameRegisters_iff 4 (fun _ => [storageBuffers 4 (by decide) true])).2 .uav 0 _ rfl).mpr
    ⟨fun _ => by decide, fun empty => absurd empty (by decide)⟩

/-- The buffers of a runtime-sized array have an array type without elements. -/
theorem not_describesSameRegisters_unsized :
    ¬ ∀ (minorValidator : Nat) (calls : ResourceClass → List ResourceCall)
      (resourceClass : ResourceClass) (id : Nat) (call : ResourceCall),
      (calls resourceClass)[id]? = some call →
        DescribesSameRegisters (emitResources minorValidator calls) resourceClass id call := by
  intro same
  have unsized := same 4 (fun _ => [storageBuffers 0 (by decide) true]) .uav 0 _ rfl
  exact unsized.shape rfl

end SpirvToDxil
