import Mathlib.Data.List.Forall2
import SpirvToDxil.Nir.Variable

/-!
# Declaring resources and creating their handles

The part of `emit_module` that declares the resource variables of a Vulkan
shader, and the handles that its instructions create. Names, types, and the
resource kinds of version 1 records take no part in finding a resource.
-/

namespace SpirvToDxil

inductive ResourceClass where
  | srv
  | uav
  | cbv
  | sampler
  deriving DecidableEq, Repr

inductive ResourceType where
  | sampler
  | cbv
  | srvTyped
  | srvRaw
  | uavTyped
  | uavRaw
  | uavStructured
  deriving DecidableEq, Repr

def UINT_MAX : Nat := 2 ^ 32 - 1

structure ResourceArrayLayout where
  id : Nat
  binding : Nat
  size : Nat
  space : Nat
  deriving DecidableEq, Repr

/-- The fields that `fill_resource_metadata` takes from the layout. -/
structure ResourceMetadata where
  id : Nat
  space : Nat
  lowerBound : Nat
  rangeSize : Nat
  deriving DecidableEq, Repr

def fillResourceMetadata (layout : ResourceArrayLayout) : ResourceMetadata where
  id := layout.id
  space := layout.space
  lowerBound := layout.binding
  rangeSize := layout.size

structure ResourceV0 where
  resourceType : ResourceType
  space : Nat
  lowerBound : Nat
  upperBound : Nat
  deriving DecidableEq, Repr

structure ResourceContext where
  minorValidator : Nat
  srvMetadataNodes : List ResourceMetadata := []
  uavMetadataNodes : List ResourceMetadata := []
  cbvMetadataNodes : List ResourceMetadata := []
  samplerMetadataNodes : List ResourceMetadata := []
  resources : List ResourceV0 := []
  numUavs : Nat := 0
  use64Uavs : Bool := false
  rawAndStructuredBuffers : Bool := false

/-- The upper bound that `add_resource` computes. -/
def upperBound (binding size : Nat) : Nat :=
  if size = 0 ∨ size + binding ≥ UINT_MAX then UINT_MAX else binding + size - 1

namespace ResourceContext

def addResource (ctx : ResourceContext) (type : ResourceType) (layout : ResourceArrayLayout) :
    ResourceContext :=
  let ctx := { ctx with
    resources := ctx.resources ++
      [{ resourceType := type
         space := layout.space
         lowerBound := layout.binding
         upperBound := upperBound layout.binding layout.size }] }
  if type = .uavTyped ∨ type = .uavRaw ∨ type = .uavStructured then
    let newUavCount := GlslType.unsigned (ctx.numUavs + layout.size)
    let numUavs := if layout.size = 0 ∨ newUavCount < ctx.numUavs then UINT_MAX else newUavCount
    { ctx with
      numUavs := numUavs
      use64Uavs := ctx.use64Uavs || (ctx.minorValidator ≥ 6 && numUavs > 8) }
  else ctx

def emitSrv (ctx : ResourceContext) (var : Variable) (count : Nat) : ResourceContext :=
  let layout : ResourceArrayLayout :=
    { id := ctx.srvMetadataNodes.length
      binding := var.binding.toNat
      size := count
      space := var.descriptorSet.toNat }
  let resType : ResourceType := if var.mode = .memSsbo then .srvRaw else .srvTyped
  let ctx := { ctx with srvMetadataNodes := ctx.srvMetadataNodes ++ [fillResourceMetadata layout] }
  let ctx := ctx.addResource resType layout
  { ctx with rawAndStructuredBuffers := ctx.rawAndStructuredBuffers || resType = .srvRaw }

/-- `raw` stands for `DXIL_RESOURCE_KIND_RAW_BUFFER`. -/
def emitUav (ctx : ResourceContext) (binding space count : Nat) (raw : Bool) : ResourceContext :=
  let layout : ResourceArrayLayout :=
    { id := ctx.uavMetadataNodes.length, binding := binding, size := count, space := space }
  let ctx := { ctx with uavMetadataNodes := ctx.uavMetadataNodes ++ [fillResourceMetadata layout] }
  let ctx := { ctx with
    use64Uavs := ctx.use64Uavs || (ctx.minorValidator < 6 && ctx.uavMetadataNodes.length > 8) }
  let ctx := ctx.addResource (if raw then .uavRaw else .uavTyped) layout
  { ctx with rawAndStructuredBuffers := ctx.rawAndStructuredBuffers || raw }

def emitUavVar (ctx : ResourceContext) (var : Variable) (count : Nat) : ResourceContext :=
  ctx.emitUav var.binding.toNat var.descriptorSet.toNat count false

def emitCbv (ctx : ResourceContext) (binding space count : Nat) : ResourceContext :=
  let layout : ResourceArrayLayout :=
    { id := ctx.cbvMetadataNodes.length, binding := binding, size := count, space := space }
  let ctx := { ctx with cbvMetadataNodes := ctx.cbvMetadataNodes ++ [fillResourceMetadata layout] }
  ctx.addResource .cbv layout

/-- The `count` of buffer variables. -/
def bufferCount (var : Variable) : Nat := if var.type.isArray then var.type.getLength else 1

def emitUboVar (ctx : ResourceContext) (var : Variable) : ResourceContext :=
  ctx.emitCbv var.binding.toNat var.descriptorSet.toNat (bufferCount var)

def emitSampler (ctx : ResourceContext) (var : Variable) (count : Nat) : ResourceContext :=
  let layout : ResourceArrayLayout :=
    { id := ctx.samplerMetadataNodes.length
      binding := var.binding.toNat
      size := count
      space := var.descriptorSet.toNat }
  let ctx := { ctx with
    samplerMetadataNodes := ctx.samplerMetadataNodes ++ [fillResourceMetadata layout] }
  ctx.addResource .sampler layout

end ResourceContext

open ResourceContext

def variablesWithMode (mode : VariableMode) (vars : List Variable) : List Variable :=
  vars.filter (fun var => var.mode = mode)

def insertSortedByBinding (newVar : Variable) : List Variable → List Variable
  | [] => [newVar]
  | var :: varList =>
    if var.binding > newVar.binding then newVar :: var :: varList
    else var :: insertSortedByBinding newVar varList

def sortUniformsByBindingAndRemoveStructs (vars : List Variable) : List Variable :=
  let newList := (variablesWithMode .uniform vars).foldl (fun newList var =>
    if var.type.withoutArray.isStruct then newList else insertSortedByBinding var newList) []
  vars.filter (fun var => var.mode ≠ .uniform) ++ newList

def isSampler (var : Variable) : Bool :=
  var.type.count .sampler > 0 || (var.type.isUnsizedArray && var.type.withoutArray.isBareSampler)

def isTexture (var : Variable) : Bool :=
  var.type.count .texture > 0 || (var.type.isUnsizedArray && var.type.withoutArray.isTexture)

/-- The declarations of `emit_module`: CBVs, samplers, SRVs and UAVs, in this order. -/
def emitModuleResources (minorValidator : Nat) (vars : List Variable) : ResourceContext :=
  let vars := sortUniformsByBindingAndRemoveStructs vars
  let ctx : ResourceContext := { minorValidator := minorValidator }
  let ctx := (variablesWithMode .memUbo vars).foldl emitUboVar ctx
  let ctx := (variablesWithMode .uniform vars).foldl (fun ctx var =>
    if isSampler var then ctx.emitSampler var (var.type.count .sampler) else ctx) ctx
  let ctx := (variablesWithMode .uniform vars).foldl (fun ctx var =>
    if isTexture var then ctx.emitSrv var (var.type.count .texture) else ctx) ctx
  -- Read-only SSBOs are SRVs.
  let ctx := (variablesWithMode .memSsbo vars).foldl (fun ctx var =>
    if var.nonWriteable then ctx.emitSrv var (bufferCount var) else ctx) ctx
  let ctx := (variablesWithMode .memSsbo vars).foldl (fun ctx var =>
    if ¬ var.nonWriteable then
      ctx.emitUav var.binding.toNat var.descriptorSet.toNat (bufferCount var) true
    else ctx) ctx
  (variablesWithMode .image vars).foldl (fun ctx var =>
    ctx.emitUavVar var (var.type.count .image)) ctx

structure CreateHandle (Value : Type) where
  resourceClass : ResourceClass
  lowerBound : Nat
  upperBound : Nat
  space : Nat
  resourceRangeId : Nat
  resourceRangeIndex : Value
  nonUniformResourceIndex : Bool
  deriving DecidableEq, Repr

/-- The search loop of `emit_createhandle_call_dynamic`, with `i - offset` as `id`. -/
def searchResource (space binding : Nat) (id : Nat) : List ResourceV0 → Option (Nat × ResourceV0)
  | [] => none
  | resource :: resources =>
    if resource.space = space ∧ resource.lowerBound ≤ binding ∧ resource.upperBound ≥ binding then
      some (id, resource)
    else searchResource space binding (id + 1) resources

/-- `none` where the source is at `UNREACHABLE("Resource access for undeclared range")`. -/
def ResourceContext.emitCreatehandleCallDynamic {Value : Type} (ctx : ResourceContext)
    (resourceClass : ResourceClass) (space binding : Nat) (resourceRangeIndex : Value)
    (nonUniformResourceIndex : Bool) : Option (CreateHandle Value) :=
  let numSrvs := ctx.srvMetadataNodes.length
  let numUavs := ctx.uavMetadataNodes.length
  let numCbvs := ctx.cbvMetadataNodes.length
  let numSamplers := ctx.samplerMetadataNodes.length
  let (offset, count) :=
    match resourceClass with
    | .uav => (numSrvs + numSamplers + numCbvs, numUavs)
    | .srv => (numSamplers + numCbvs, numSrvs)
    | .sampler => (numCbvs, numSamplers)
    | .cbv => (0, numCbvs)
  match searchResource space binding 0 ((ctx.resources.drop offset).take count) with
  | none => none
  | some (id, resource) => some
    { resourceClass := resourceClass
      lowerBound := resource.lowerBound
      upperBound := resource.upperBound
      space := space
      resourceRangeId := id
      resourceRangeIndex := resourceRangeIndex
      nonUniformResourceIndex := nonUniformResourceIndex }

/-! ## What each declaration adds -/

namespace ResourceContext

def nodes (ctx : ResourceContext) : ResourceClass → List ResourceMetadata
  | .srv => ctx.srvMetadataNodes
  | .uav => ctx.uavMetadataNodes
  | .cbv => ctx.cbvMetadataNodes
  | .sampler => ctx.samplerMetadataNodes

@[simp] theorem nodes_addResource (ctx : ResourceContext) (type : ResourceType)
    (layout : ResourceArrayLayout) (resourceClass : ResourceClass) :
    (ctx.addResource type layout).nodes resourceClass = ctx.nodes resourceClass := by
  rw [addResource]
  dsimp only
  split <;> rfl

@[simp] theorem resources_addResource (ctx : ResourceContext) (type : ResourceType)
    (layout : ResourceArrayLayout) :
    (ctx.addResource type layout).resources = ctx.resources ++
      [⟨type, layout.space, layout.binding, upperBound layout.binding layout.size⟩] := by
  rw [addResource]
  dsimp only
  split <;> rfl

end ResourceContext

structure Declaration where
  var : Variable
  count : Nat
  deriving DecidableEq

namespace Declaration

def space (declaration : Declaration) : Nat := declaration.var.descriptorSet.toNat

def lowerBound (declaration : Declaration) : Nat := declaration.var.binding.toNat

def upperBound (declaration : Declaration) : Nat :=
  SpirvToDxil.upperBound declaration.lowerBound declaration.count

def node (declaration : Declaration) (id : Nat) : ResourceMetadata :=
  ⟨id, declaration.space, declaration.lowerBound, declaration.count⟩

def covers (declaration : Declaration) (space binding : Nat) : Prop :=
  declaration.space = space ∧ declaration.lowerBound ≤ binding ∧ binding ≤ declaration.upperBound

instance (declaration : Declaration) (space binding : Nat) :
    Decidable (declaration.covers space binding) :=
  inferInstanceAs (Decidable (_ ∧ _ ∧ _))

/-- A record of the flat array that describes the registers of the declaration. -/
def describedBy (declaration : Declaration) (resource : ResourceV0) : Prop :=
  resource.space = declaration.space ∧ resource.lowerBound = declaration.lowerBound ∧
    resource.upperBound = declaration.upperBound

end Declaration

open Declaration

/-- Declaring `declarations` adds their nodes to one class, numbered on, and their records. -/
structure Declares (resourceClass : ResourceClass) (declarations : List Declaration)
    (ctx ctx' : ResourceContext) : Prop where
  nodes : ctx'.nodes resourceClass = ctx.nodes resourceClass ++
    (declarations.zipIdx (ctx.nodes resourceClass).length).map (fun item => item.1.node item.2)
  otherNodes : ∀ other, other ≠ resourceClass → ctx'.nodes other = ctx.nodes other
  resources : ∃ records, ctx'.resources = ctx.resources ++ records ∧
    List.Forall₂ describedBy declarations records

namespace Declares

variable {resourceClass : ResourceClass}

theorem nil (ctx : ResourceContext) : Declares resourceClass [] ctx ctx where
  nodes := (List.append_nil _).symm
  otherNodes _ _ := rfl
  resources := ⟨[], (List.append_nil _).symm, .nil⟩

theorem append {front back : List Declaration} {ctx ctx' ctx'' : ResourceContext}
    (first : Declares resourceClass front ctx ctx')
    (second : Declares resourceClass back ctx' ctx'') :
    Declares resourceClass (front ++ back) ctx ctx'' where
  nodes := by
    have counted : (ctx'.nodes resourceClass).length =
        (ctx.nodes resourceClass).length + front.length := by
      rw [first.nodes, List.length_append, List.length_map, List.length_zipIdx]
    rw [second.nodes, counted, first.nodes, List.zipIdx_append, List.map_append, List.append_assoc]
  otherNodes other different := by
    rw [second.otherNodes other different, first.otherNodes other different]
  resources := by
    rcases first.resources with ⟨frontRecords, frontEq, frontDescribed⟩
    rcases second.resources with ⟨backRecords, backEq, backDescribed⟩
    refine ⟨frontRecords ++ backRecords, ?_, List.rel_append frontDescribed backDescribed⟩
    rw [backEq, frontEq, List.append_assoc]

theorem foldl {declare : ResourceContext → Variable → ResourceContext}
    {declaration : Variable → Declaration}
    (step : ∀ ctx var, Declares resourceClass [declaration var] ctx (declare ctx var))
    (vars : List Variable) (ctx : ResourceContext) :
    Declares resourceClass (vars.map declaration) ctx (vars.foldl declare ctx) := by
  induction vars generalizing ctx with
  | nil => exact nil ctx
  | cons var vars inductionHypothesis =>
    exact (step ctx var).append (inductionHypothesis (declare ctx var))

theorem foldl_if {declare : ResourceContext → Variable → ResourceContext}
    {declaration : Variable → Declaration}
    (step : ∀ ctx var, Declares resourceClass [declaration var] ctx (declare ctx var))
    (selected : Variable → Bool) (vars : List Variable) (ctx : ResourceContext) :
    Declares resourceClass ((vars.filter selected).map declaration) ctx
      (vars.foldl (fun ctx var => if selected var then declare ctx var else ctx) ctx) := by
  rw [← List.foldl_filter]
  exact foldl step (vars.filter selected) ctx

end Declares

section Emit

variable {resourceClass : ResourceClass} {declaration : Declaration}
  {ctx withNode : ResourceContext}

theorem declares_addResource {layout : ResourceArrayLayout} {type : ResourceType}
    (added : withNode.nodes resourceClass =
      ctx.nodes resourceClass ++ [fillResourceMetadata layout])
    (otherNodes : ∀ other, other ≠ resourceClass → withNode.nodes other = ctx.nodes other)
    (resources : withNode.resources = ctx.resources)
    (layoutNode : fillResourceMetadata layout =
      declaration.node (ctx.nodes resourceClass).length) :
    Declares resourceClass [declaration] ctx (withNode.addResource type layout) where
  nodes := by rw [nodes_addResource, added, layoutNode, List.zipIdx_singleton, List.map_singleton]
  otherNodes other different := by rw [nodes_addResource, otherNodes other different]
  resources := by
    obtain ⟨-, space, binding, size⟩ := ResourceMetadata.mk.inj layoutNode
    refine ⟨_, by rw [resources_addResource, resources], .cons ⟨space, binding, ?_⟩ .nil⟩
    rw [binding, size]
    rfl

theorem Declares.of_flag {declarations : List Declaration} {ctx' : ResourceContext}
    (declares : Declares resourceClass declarations ctx ctx') (flag : Bool) :
    Declares resourceClass declarations ctx { ctx' with rawAndStructuredBuffers := flag } where
  nodes := by
    cases resourceClass <;> exact declares.nodes
  otherNodes other different := by
    have same := declares.otherNodes other different
    cases other <;> exact same
  resources := declares.resources

end Emit

theorem declares_emitSrv (ctx : ResourceContext) (var : Variable) (count : Nat) :
    Declares .srv [⟨var, count⟩] ctx (ctx.emitSrv var count) := by
  apply Declares.of_flag
  apply declares_addResource
  · rfl
  · intro other different
    cases other <;> first | rfl | exact absurd rfl different
  · rfl
  · rfl

theorem declares_emitUav (ctx : ResourceContext) (var : Variable) (count : Nat) (raw : Bool) :
    Declares .uav [⟨var, count⟩] ctx
      (ctx.emitUav var.binding.toNat var.descriptorSet.toNat count raw) := by
  apply Declares.of_flag
  apply declares_addResource
  · rfl
  · intro other different
    cases other <;> first | rfl | exact absurd rfl different
  · rfl
  · rfl

theorem declares_emitUboVar (ctx : ResourceContext) (var : Variable) :
    Declares .cbv [⟨var, bufferCount var⟩] ctx (ctx.emitUboVar var) := by
  rw [emitUboVar, emitCbv]
  apply declares_addResource
  · rfl
  · intro other different
    cases other <;> first | rfl | exact absurd rfl different
  · rfl
  · rfl

theorem declares_emitSampler (ctx : ResourceContext) (var : Variable) (count : Nat) :
    Declares .sampler [⟨var, count⟩] ctx (ctx.emitSampler var count) := by
  rw [emitSampler]
  apply declares_addResource
  · rfl
  · intro other different
    cases other <;> first | rfl | exact absurd rfl different
  · rfl
  · rfl

end SpirvToDxil
