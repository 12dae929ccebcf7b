import SpirvToDxil.Dxil.Resources

/-!
# Which declaration a handle refers to
-/

namespace SpirvToDxil

open ResourceContext Declaration

/-- The variables of each class, in the order in which `emit_module` declares them. -/
def declared (vars : List Variable) (resourceClass : ResourceClass) : List Declaration :=
  let vars := sortUniformsByBindingAndRemoveStructs vars
  let uniforms := variablesWithMode .uniform vars
  let ssbos := variablesWithMode .memSsbo vars
  match resourceClass with
  | .cbv => (variablesWithMode .memUbo vars).map (fun var => ⟨var, bufferCount var⟩)
  | .sampler => (uniforms.filter isSampler).map (fun var => ⟨var, var.type.count .sampler⟩)
  | .srv => (uniforms.filter isTexture).map (fun var => ⟨var, var.type.count .texture⟩) ++
      (ssbos.filter (fun var => var.nonWriteable)).map (fun var => ⟨var, bufferCount var⟩)
  | .uav =>
    (ssbos.filter (fun var => ¬ var.nonWriteable)).map (fun var => ⟨var, bufferCount var⟩) ++
      (variablesWithMode .image vars).map (fun var => ⟨var, var.type.count .image⟩)

/-- A context that declares each class in turn, and nothing else. -/
structure DeclaresAll (declarations : ResourceClass → List Declaration) (ctx : ResourceContext) :
    Prop where
  nodes : ∀ resourceClass, ctx.nodes resourceClass =
    (declarations resourceClass).zipIdx.map (fun item => item.1.node item.2)
  resources : ∃ records : ResourceClass → List ResourceV0,
    ctx.resources = records .cbv ++ (records .sampler ++ (records .srv ++ records .uav)) ∧
      ∀ resourceClass, List.Forall₂ describedBy (declarations resourceClass) (records resourceClass)

theorem DeclaresAll.of_phases {declarations : ResourceClass → List Declaration}
    {minorValidator : Nat} {cbvs samplers srvs uavs : ResourceContext}
    (first : Declares .cbv (declarations .cbv) { minorValidator := minorValidator } cbvs)
    (second : Declares .sampler (declarations .sampler) cbvs samplers)
    (third : Declares .srv (declarations .srv) samplers srvs)
    (last : Declares .uav (declarations .uav) srvs uavs) : DeclaresAll declarations uavs where
  nodes resourceClass := by
    cases resourceClass with
    | cbv =>
      rw [last.otherNodes .cbv (by decide), third.otherNodes .cbv (by decide),
        second.otherNodes .cbv (by decide), first.nodes]
      rfl
    | sampler =>
      have empty : cbvs.nodes .sampler = [] := first.otherNodes .sampler (by decide)
      rw [last.otherNodes .sampler (by decide), third.otherNodes .sampler (by decide), second.nodes,
        empty]
      rfl
    | srv =>
      have empty : samplers.nodes .srv = [] :=
        (second.otherNodes .srv (by decide)).trans (first.otherNodes .srv (by decide))
      rw [last.otherNodes .srv (by decide), third.nodes, empty]
      rfl
    | uav =>
      have empty : srvs.nodes .uav = [] :=
        (third.otherNodes .uav (by decide)).trans
          ((second.otherNodes .uav (by decide)).trans (first.otherNodes .uav (by decide)))
      rw [last.nodes, empty]
      rfl
  resources := by
    rcases first.resources with ⟨cbvRecords, cbvsEq, cbvDescribed⟩
    rcases second.resources with ⟨samplerRecords, samplersEq, samplerDescribed⟩
    rcases third.resources with ⟨srvRecords, srvsEq, srvDescribed⟩
    rcases last.resources with ⟨uavRecords, uavsEq, uavDescribed⟩
    let records : ResourceClass → List ResourceV0
      | .cbv => cbvRecords
      | .sampler => samplerRecords
      | .srv => srvRecords
      | .uav => uavRecords
    refine ⟨records, ?_, ?_⟩
    · rw [uavsEq, srvsEq, samplersEq, cbvsEq, List.append_assoc, List.append_assoc,
        List.append_assoc]
      rfl
    · intro resourceClass
      cases resourceClass with
      | cbv => exact cbvDescribed
      | sampler => exact samplerDescribed
      | srv => exact srvDescribed
      | uav => exact uavDescribed

theorem declaresAll_emitModuleResources (minorValidator : Nat) (vars : List Variable) :
    DeclaresAll (declared vars) (emitModuleResources minorValidator vars) := by
  apply DeclaresAll.of_phases
  · exact Declares.foldl declares_emitUboVar _ _
  · exact Declares.foldl_if (fun ctx var => declares_emitSampler ctx var _) isSampler _ _
  · exact (Declares.foldl_if (fun ctx var => declares_emitSrv ctx var _) isTexture _ _).append
      (Declares.foldl_if (fun ctx var => declares_emitSrv ctx var _)
        (fun var => var.nonWriteable) _ _)
  · refine Declares.append ?_ (Declares.foldl (fun ctx var => declares_emitUav ctx var _ false) _ _)
    have step := fun ctx (var : Variable) => declares_emitUav ctx var (bufferCount var) true
    simpa only [decide_eq_true_eq] using
      Declares.foldl_if step (fun var => decide (¬ var.nonWriteable)) _ _

/-! ## The search -/

/-- The position of a declaration with the bounds of its range. -/
abbrev Found := Nat × Nat × Nat

theorem searchResource_eq_find? (space binding id : Nat) {declarations : List Declaration}
    {records : List ResourceV0} (described : List.Forall₂ describedBy declarations records) :
    (searchResource space binding id records).map
        (fun found => ((found.1, found.2.lowerBound, found.2.upperBound) : Found)) =
      ((declarations.zipIdx id).find? (fun item => item.1.covers space binding)).map
        (fun item => (item.2, item.1.lowerBound, item.1.upperBound)) := by
  induction described generalizing id with
  | nil => rfl
  | @cons declaration record declarations records same _ inductionHypothesis =>
    rcases same with ⟨sameSpace, sameLower, sameUpper⟩
    have test : (record.space = space ∧ record.lowerBound ≤ binding ∧
        record.upperBound ≥ binding) ↔ declaration.covers space binding := by
      rw [sameSpace, sameLower, sameUpper]
      rfl
    rw [searchResource, List.zipIdx_cons]
    by_cases covered : declaration.covers space binding
    · rw [if_pos (test.mpr covered), List.find?_cons_of_pos (by simpa using covered),
        Option.map_some, Option.map_some, sameLower, sameUpper]
    · rw [if_neg (fun matched => covered (test.mp matched)),
        List.find?_cons_of_neg (by simpa using covered), inductionHypothesis]

def handleOf {Value : Type} (resourceClass : ResourceClass) (space : Nat)
    (resourceRangeIndex : Value) (nonUniformResourceIndex : Bool) (found : Found) :
    CreateHandle Value where
  resourceClass := resourceClass
  lowerBound := found.2.1
  upperBound := found.2.2
  space := space
  resourceRangeId := found.1
  resourceRangeIndex := resourceRangeIndex
  nonUniformResourceIndex := nonUniformResourceIndex

section Handle

variable {declarations : ResourceClass → List Declaration} {ctx : ResourceContext} {Value : Type}

theorem DeclaresAll.exists_records (declares : DeclaresAll declarations ctx) :
    ∃ records : ResourceClass → List ResourceV0,
      ctx.resources = records .cbv ++ (records .sampler ++ (records .srv ++ records .uav)) ∧
      (∀ resourceClass,
        List.Forall₂ describedBy (declarations resourceClass) (records resourceClass)) ∧
      ctx.cbvMetadataNodes.length = (records .cbv).length ∧
      ctx.samplerMetadataNodes.length = (records .sampler).length ∧
      ctx.srvMetadataNodes.length = (records .srv).length ∧
      ctx.uavMetadataNodes.length = (records .uav).length := by
  rcases declares.resources with ⟨records, resources, described⟩
  have counted : ∀ other, (ctx.nodes other).length = (records other).length := by
    intro other
    rw [declares.nodes, List.length_map, List.length_zipIdx, (described other).length_eq]
  exact ⟨records, resources, described, counted .cbv, counted .sampler, counted .srv, counted .uav⟩

theorem emitCreatehandleCallDynamic_eq (declares : DeclaresAll declarations ctx)
    (resourceClass : ResourceClass) (space binding : Nat) (resourceRangeIndex : Value)
    (nonUniformResourceIndex : Bool) :
    ctx.emitCreatehandleCallDynamic resourceClass space binding resourceRangeIndex
        nonUniformResourceIndex =
      (((declarations resourceClass).zipIdx.find? (fun item => item.1.covers space binding)).map
        (fun item => (item.2, item.1.lowerBound, item.1.upperBound))).map
          (handleOf resourceClass space resourceRangeIndex nonUniformResourceIndex) := by
  rcases declares.exists_records with ⟨records, resources, described, cbvs, samplers, srvs, uavs⟩
  rw [← searchResource_eq_find? space binding 0 (described resourceClass)]
  -- The records between the offset and the count of the class are those of the class.
  have slice : ctx.emitCreatehandleCallDynamic resourceClass space binding resourceRangeIndex
      nonUniformResourceIndex = (searchResource space binding 0 (records resourceClass)).map
        (fun found => handleOf resourceClass space resourceRangeIndex nonUniformResourceIndex
          (found.1, found.2.lowerBound, found.2.upperBound)) := by
    unfold emitCreatehandleCallDynamic
    rw [cbvs, samplers, srvs, uavs, resources]
    cases resourceClass with
    | cbv =>
      dsimp only
      rw [List.drop_zero, List.take_left]
      cases searchResource space binding 0 (records .cbv) <;> rfl
    | sampler =>
      dsimp only
      rw [List.drop_left, List.take_left]
      cases searchResource space binding 0 (records .sampler) <;> rfl
    | srv =>
      dsimp only
      rw [Nat.add_comm, ← List.drop_drop, List.drop_left, List.drop_left, List.take_left]
      cases searchResource space binding 0 (records .srv) <;> rfl
    | uav =>
      dsimp only
      rw [Nat.add_comm, Nat.add_comm (records .srv).length, ← List.drop_drop, ← List.drop_drop,
        List.drop_left, List.drop_left, List.drop_left, List.take_length]
      cases searchResource space binding 0 (records .uav) <;> rfl
  rw [slice, Option.map_map]
  rfl

theorem Declaration.covers_self (declaration : Declaration) :
    declaration.covers declaration.space declaration.lowerBound := by
  have bounded : declaration.lowerBound < 2 ^ 32 := declaration.var.binding.toNat_lt
  refine ⟨rfl, Nat.le_refl _, ?_⟩
  rw [Declaration.upperBound, SpirvToDxil.upperBound, UINT_MAX]
  split <;> omega

/-- The search ends at a declaration's own position unless an earlier one covers its register. -/
theorem find?_covers_iff {declarations : List Declaration} {i : Nat}
    (inside : i < declarations.length) :
    declarations.zipIdx.find? (fun item =>
        item.1.covers declarations[i].space declarations[i].lowerBound) =
          some (declarations[i], i) ↔
      ∀ (j : Nat) (earlier : j < i),
        ¬ declarations[j].covers declarations[i].space declarations[i].lowerBound := by
  rw [List.find?_eq_some_iff_getElem]
  constructor
  · rintro ⟨-, k, bound, found, first⟩ j earlier
    rw [List.getElem_zipIdx, Prod.mk.injEq, Nat.zero_add] at found
    have missed := first j (found.2.symm ▸ earlier)
    simpa [List.getElem_zipIdx] using missed
  · intro first
    refine ⟨decide_eq_true (covers_self _), i, by simpa using inside, by simp, ?_⟩
    intro j earlier
    simpa [List.getElem_zipIdx] using first j earlier

end Handle

/-- Every access with the class, the space and the binding of a declared variable creates a
handle with the id in the variable's own node and the bounds of its own range. -/
def HandlesOwnDeclarations (minorValidator : Nat) (vars : List Variable) : Prop :=
  let ctx := emitModuleResources minorValidator vars
  ∀ (resourceClass : ResourceClass) (i : Nat) (declaration : Declaration),
    (declared vars resourceClass)[i]? = some declaration →
    ∀ (Value : Type) (resourceRangeIndex : Value) (nonUniformResourceIndex : Bool),
      ∃ node : ResourceMetadata, (ctx.nodes resourceClass)[i]? = some node ∧
        ctx.emitCreatehandleCallDynamic resourceClass declaration.space declaration.lowerBound
            resourceRangeIndex nonUniformResourceIndex =
          some { resourceClass := resourceClass
                 lowerBound := node.lowerBound
                 upperBound := upperBound node.lowerBound node.rangeSize
                 space := node.space
                 resourceRangeId := node.id
                 resourceRangeIndex := resourceRangeIndex
                 nonUniformResourceIndex := nonUniformResourceIndex }

/-- A handle refers to the declaration of its variable exactly when no range declared before it,
in its class and space, contains its binding. -/
theorem handlesOwnDeclarations_iff (minorValidator : Nat) (vars : List Variable) :
    HandlesOwnDeclarations minorValidator vars ↔
      ∀ resourceClass, (declared vars resourceClass).Pairwise
        (fun earlier later => ¬ earlier.covers later.space later.lowerBound) := by
  have declares := declaresAll_emitModuleResources minorValidator vars
  have ownNode : ∀ resourceClass i (inside : i < (declared vars resourceClass).length),
      ((emitModuleResources minorValidator vars).nodes resourceClass)[i]? =
        some ((declared vars resourceClass)[i].node i) := by
    intro resourceClass i inside
    rw [declares.nodes, List.getElem?_map, List.getElem?_zipIdx, List.getElem?_eq_getElem inside]
    simp
  simp only [HandlesOwnDeclarations, List.pairwise_iff_getElem]
  constructor
  · intro own resourceClass j i _ inside earlier
    rcases own resourceClass i _ (List.getElem?_eq_getElem inside) Unit () false with
      ⟨node, listed, handle⟩
    rw [ownNode resourceClass i inside, Option.some.injEq] at listed
    subst listed
    rw [emitCreatehandleCallDynamic_eq declares, Option.map_map, Option.map_eq_some_iff] at handle
    rcases handle with ⟨⟨declaration, k⟩, found, same⟩
    have position : k = i := congrArg CreateHandle.resourceRangeId same
    subst position
    have member := List.mem_of_find?_eq_some found
    rw [List.mem_zipIdx_iff_getElem?, List.getElem?_eq_getElem inside, Option.some.injEq] at member
    dsimp only at member
    subst member
    exact (find?_covers_iff inside).mp found j earlier
  · intro apart resourceClass i declaration listed Value resourceRangeIndex nonUniformResourceIndex
    rcases List.getElem?_eq_some_iff.mp listed with ⟨inside, rfl⟩
    refine ⟨_, ownNode resourceClass i inside, ?_⟩
    have found := (find?_covers_iff inside).mpr (fun j earlier =>
      apart resourceClass j i (Nat.lt_trans earlier inside) inside earlier)
    rw [emitCreatehandleCallDynamic_eq declares, found]
    rfl

/-- An unsized array of textures at binding 0 takes the handles of the texture at binding 1. -/
theorem not_handlesOwnDeclarations_unsized :
    ¬ ∀ minorValidator vars, HandlesOwnDeclarations minorValidator vars := by
  intro own
  let texture : GlslType := .handle .texture true
  let uniform (type : GlslType) (binding : UInt32) : Variable :=
    { type := type, mode := .uniform, access := 0, descriptorSet := 0, binding := binding }
  let vars := [uniform (.array texture 0 0) 0, uniform texture 1]
  rcases own 4 vars .srv 1 ⟨uniform texture 1, 1⟩ (by decide) Unit () false with
    ⟨node, listed, handle⟩
  have ownNode : ((emitModuleResources 4 vars).nodes .srv)[1]? = some ⟨1, 0, 1, 1⟩ := by decide
  cases Option.some.inj (ownNode.symm.trans listed)
  revert handle
  decide

end SpirvToDxil
