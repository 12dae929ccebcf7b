import SpirvToDxil.Dxil.Module.AggregateConst
import SpirvToDxil.Dxil.Module.Safety

/-!
# Constants from initializers are read back

The table of a module only grows, so that the position of a constant keeps its
meaning. Getting the constants of an initializer is a sequence of steps, each of
which leaves a built module; the tree at the position that a step returns is that
of the initializer, with every float as the first equal constant of the list has it.
-/

namespace SpirvToDxil

open Ieee

/-! ## Types -/

namespace TypeTable

structure Grows (m m' : TypeTable) : Prop where
  caches : m'.CachesFit
  types : m.typeList <+: m'.typeList

theorem Grows.refl {m : TypeTable} (fit : m.CachesFit) : m.Grows m := ⟨fit, List.prefix_rfl⟩

theorem Grows.trans {m m' m'' : TypeTable} (first : m.Grows m') (second : m'.Grows m'') :
    m.Grows m'' :=
  ⟨second.caches, first.types.trans second.types⟩

theorem getElem?_of_findIdx? {types : List TypeEntry} {type : TypeEntry} {id : Nat}
    (isFirst : types.findIdx? (· = type) = some id) : types[id]? = some type := by
  obtain ⟨inside, same, -⟩ := List.findIdx?_eq_some_iff_getElem.mp isFirst
  rw [List.getElem?_eq_getElem inside, of_decide_eq_true same]

theorem Grows.getElem? {m m' : TypeTable} (grows : m.Grows m') {id : Nat} {type : TypeEntry}
    (isType : m.typeList[id]? = some type) : m'.typeList[id]? = some type := by
  obtain ⟨rest, appended⟩ := grows.types
  rw [← appended, List.getElem?_append_left (List.getElem?_eq_some_iff.mp isType).1]
  exact isType

theorem CachesFit.getElem?_float {m : TypeTable} (fit : m.CachesFit) {type : FloatType} {id : Nat}
    (cached : m.floatType type = some id) : m.typeList[id]? = some (.float type) := by
  rw [fit.float] at cached
  exact getElem?_of_findIdx? cached

theorem CachesFit.float_injective {m : TypeTable} (fit : m.CachesFit) {type type' : FloatType}
    {id : Nat} (cached : m.floatType type = some id) (cached' : m.floatType type' = some id) :
    type = type' := by
  have same := (fit.getElem?_float cached).symm.trans (fit.getElem?_float cached')
  exact TypeEntry.float.inj (Option.some_inj.mp same)

theorem Grows.floatType {m m' : TypeTable} (fit : m.CachesFit) (grows : m.Grows m')
    {type : FloatType} {id : Nat} (cached : m.floatType type = some id) :
    m'.floatType type = some id := by
  rw [fit.float] at cached
  rw [grows.caches.float]
  exact Intern.findIdx?_of_prefix grows.types cached

/-- A type other than a function is the first of its kind from then on. -/
theorem request_spec {m m' : TypeTable} (fit : m.CachesFit) {type : TypeEntry}
    (shared : type.isFunction = false) {id : Nat} (answer : m.request type = some (id, m')) :
    m.Grows m' ∧ m'.typeList.findIdx? (· = type) = some id := by
  obtain ⟨caches, answered⟩ := (request_answers fit type).1 id m' answer
  generalize isList : m'.typeList = types at answered
  cases answered with
  | found _ isFirst => exact ⟨⟨caches, isList ▸ List.prefix_rfl⟩, isFirst⟩
  | created _ isNew =>
    refine ⟨⟨caches, isList ▸ List.prefix_append ..⟩, findIdx?_snoc_self ?_⟩
    rcases isNew with isFunction | missing
    · rw [shared] at isFunction
      cases isFunction
    · exact missing

end TypeTable

def GlslBaseType.typeEntry (type : GlslBaseType) : Option TypeEntry :=
  if type.isNirFloat then (FloatType.ofBits? type.bitSize).map .float
  else (IntType.ofBits? type.bitSize).map .integer

theorem getTypeForGlslBaseType_eq (m : TypeTable) (type : GlslBaseType) :
    getTypeForGlslBaseType m type = type.typeEntry.bind m.request := by
  rw [getTypeForGlslBaseType, GlslBaseType.typeEntry]
  split
  · cases FloatType.ofBits? type.bitSize <;> rfl
  · cases IntType.ofBits? type.bitSize <;> rfl

theorem isFunction_of_typeEntry {type : GlslBaseType} {entry : TypeEntry}
    (isEntry : type.typeEntry = some entry) : entry.isFunction = false := by
  rw [GlslBaseType.typeEntry] at isEntry
  split at isEntry
  · obtain ⟨size, -, rfl⟩ := Option.map_eq_some_iff.mp isEntry
    rfl
  · obtain ⟨size, -, rfl⟩ := Option.map_eq_some_iff.mp isEntry
    rfl

theorem getTypeForGlslBaseType_spec {m m' : TypeTable} (fit : m.CachesFit) {type : GlslBaseType}
    {id : Nat} (got : getTypeForGlslBaseType m type = some (id, m')) :
    m.Grows m' ∧ ∃ entry, type.typeEntry = some entry ∧
      m'.typeList.findIdx? (· = entry) = some id := by
  rw [getTypeForGlslBaseType_eq, Option.bind_eq_some_iff] at got
  obtain ⟨entry, isEntry, answer⟩ := got
  obtain ⟨grows, isFirst⟩ := TypeTable.request_spec fit (isFunction_of_typeEntry isEntry) answer
  exact ⟨grows, entry, isEntry, isFirst⟩

def ConstantFields.length : ConstantFields → Nat
  | .nil => 0
  | .cons _ rest => rest.length + 1

mutual

theorem getTypeForGlslType_grows : ∀ (type : ConstantType) {m m' : TypeTable} {id : Nat},
    m.CachesFit → getTypeForGlslType type m = some (id, m') → m.Grows m'
  | .scalar baseType, m, m', id, fit, got => (getTypeForGlslBaseType_spec fit got).1
  | .vector baseType vectorElements, m, m', id, fit, got => by
    rw [getTypeForGlslType, Option.bind_eq_bind, Option.bind_eq_some_iff] at got
    obtain ⟨⟨element, typed⟩, isElement, answer⟩ := got
    have grows := (getTypeForGlslBaseType_spec fit isElement).1
    exact grows.trans (TypeTable.request_spec grows.caches rfl
      (show typed.request (.vector element vectorElements) = _ from answer)).1
  | .matrix .., m, m', id, fit, got => nomatch got
  | .array element length, m, m', id, fit, got => by
    rw [getTypeForGlslType, Option.bind_eq_bind, Option.bind_eq_some_iff] at got
    obtain ⟨⟨elementType, typed⟩, isElement, answer⟩ := got
    have grows := getTypeForGlslType_grows element fit isElement
    exact grows.trans (TypeTable.request_spec grows.caches rfl
      (show typed.request (.array elementType length) = _ from answer)).1
  | .struct name fields, m, m', id, fit, got => by
    rw [getTypeForGlslType, Option.bind_eq_bind, Option.bind_eq_some_iff] at got
    obtain ⟨⟨elements, typed⟩, areElements, answer⟩ := got
    have grows := (getTypesForFields_spec fields fit areElements).1
    exact grows.trans (TypeTable.request_spec grows.caches rfl
      (show typed.request (.struct (some name) elements) = _ from answer)).1

theorem getTypesForFields_spec : ∀ (fields : ConstantFields) {m m' : TypeTable} {ids : List Nat},
    m.CachesFit → getTypesForFields fields m = some (ids, m') →
      m.Grows m' ∧ ids.length = fields.length
  | .nil, m, m', ids, fit, got => by
    cases got
    exact ⟨TypeTable.Grows.refl fit, rfl⟩
  | .cons type rest, m, m', ids, fit, got => by
    simp only [getTypesForFields, Option.bind_eq_bind, Option.bind_eq_some_iff] at got
    obtain ⟨⟨id, typed⟩, isType, ⟨ids, typed'⟩, areTypes, same⟩ := got
    cases same
    have first := getTypeForGlslType_grows type fit isType
    obtain ⟨others, length⟩ := getTypesForFields_spec rest first.caches areTypes
    exact ⟨first.trans others, congrArg (· + 1) length⟩

end

theorem getTypeForGlslType_entry {m m' : TypeTable} {id : Nat} (fit : m.CachesFit)
    {type : ConstantType} (got : getTypeForGlslType type m = some (id, m')) :
    match type with
    | .scalar _ | .matrix .. => True
    | .vector _ vectorElements =>
      ∃ element, m'.typeList[id]? = some (.vector element vectorElements)
    | .array _ length => ∃ element, m'.typeList[id]? = some (.array element length)
    | .struct _ fields => ∃ name elements, m'.typeList[id]? = some (.struct name elements) ∧
      elements.length = fields.length := by
  cases type with
  | scalar => trivial
  | matrix => trivial
  | vector baseType vectorElements =>
    rw [getTypeForGlslType, Option.bind_eq_bind, Option.bind_eq_some_iff] at got
    obtain ⟨⟨element, typed⟩, isElement, answer⟩ := got
    have grows := (getTypeForGlslBaseType_spec fit isElement).1
    exact ⟨element, TypeTable.getElem?_of_findIdx? (TypeTable.request_spec grows.caches rfl
      (show typed.request (.vector element vectorElements) = _ from answer)).2⟩
  | array element length =>
    rw [getTypeForGlslType, Option.bind_eq_bind, Option.bind_eq_some_iff] at got
    obtain ⟨⟨elementType, typed⟩, isElement, answer⟩ := got
    have grows := getTypeForGlslType_grows element fit isElement
    exact ⟨elementType, TypeTable.getElem?_of_findIdx? (TypeTable.request_spec grows.caches rfl
      (show typed.request (.array elementType length) = _ from answer)).2⟩
  | struct name fields =>
    rw [getTypeForGlslType, Option.bind_eq_bind, Option.bind_eq_some_iff] at got
    obtain ⟨⟨elements, typed⟩, areElements, answer⟩ := got
    obtain ⟨grows, length⟩ := getTypesForFields_spec fields fit areElements
    exact ⟨some name, elements,
      TypeTable.getElem?_of_findIdx? (TypeTable.request_spec grows.caches rfl
      (show typed.request (.struct (some name) elements) = _ from answer)).2, length⟩

/-! ## Built modules -/

namespace ConstModule

structure Grows (m m' : ConstModule) : Prop where
  types : m.types.Grows m'.types
  consts : m.constList <+: m'.constList

theorem Grows.trans {m m' m'' : ConstModule} (first : m.Grows m') (second : m'.Grows m'') :
    m.Grows m'' :=
  ⟨first.types.trans second.types, first.consts.trans second.consts⟩

theorem Grows.getElem? {m m' : ConstModule} (grows : m.Grows m') {i : Nat} {c : DxilConst}
    (isConst : m.constList[i]? = some c) : m'.constList[i]? = some c := by
  obtain ⟨rest, appended⟩ := grows.consts
  rw [← appended, List.getElem?_append_left (List.getElem?_eq_some_iff.mp isConst).1]
  exact isConst

structure Stores (m : ConstModule) (c : DxilConst) (r : FloatRequest) : Prop where
  type : m.types.floatType r.type = some c.type
  value : c.value = .float r.value

def BuiltConst (m : ConstModule) (position : Nat) (c : DxilConst) : Prop :=
  match c.value with
  | .undef => True
  | .int intValue => (∃ size, m.types.typeList[c.type]? = some (.integer size)) ∧
    -2 ^ 63 ≤ intValue ∧ intValue < 2 ^ 63
  | .float _ => ∃ r, m.Stores c r
  | .array values => (∃ element, m.types.typeList[c.type]? = some (.array element values.length)) ∧
    ∀ value ∈ values, value < position
  | .vector values =>
    (∃ element, m.types.typeList[c.type]? = some (.vector element values.length)) ∧
    ∀ value ∈ values, value < position
  | .struct values => (∃ name elements, m.types.typeList[c.type]? = some (.struct name elements) ∧
    elements.length = values.length) ∧ ∀ value ∈ values, value < position

structure Built (m : ConstModule) : Prop where
  caches : m.types.CachesFit
  consts : ∀ i c, m.constList[i]? = some c → m.BuiltConst i c

theorem Grows.refl {m : ConstModule} (built : m.Built) : m.Grows m :=
  ⟨.refl built.caches, List.prefix_rfl⟩

theorem Stores.mono {m m' : ConstModule} (built : m.Built) (grows : m.Grows m') {c : DxilConst}
    {r : FloatRequest} (stores : m.Stores c r) : m'.Stores c r :=
  ⟨grows.types.floatType built.caches stores.type, stores.value⟩

theorem BuiltConst.mono {m m' : ConstModule} (built : m.Built) (grows : m.Grows m') {i : Nat}
    {c : DxilConst} (builtConst : m.BuiltConst i c) : m'.BuiltConst i c := by
  unfold BuiltConst at builtConst ⊢
  cases value : c.value with
  | undef => trivial
  | int intValue =>
    rw [value] at builtConst
    obtain ⟨⟨size, isType⟩, bounds⟩ := builtConst
    exact ⟨⟨size, grows.types.getElem? isType⟩, bounds⟩
  | float stored =>
    rw [value] at builtConst
    obtain ⟨r, stores⟩ := builtConst
    exact ⟨r, stores.mono built grows⟩
  | array values =>
    rw [value] at builtConst
    obtain ⟨⟨element, isType⟩, earlier⟩ := builtConst
    exact ⟨⟨element, grows.types.getElem? isType⟩, earlier⟩
  | vector values =>
    rw [value] at builtConst
    obtain ⟨⟨element, isType⟩, earlier⟩ := builtConst
    exact ⟨⟨element, grows.types.getElem? isType⟩, earlier⟩
  | struct values =>
    rw [value] at builtConst
    obtain ⟨⟨name, elements, isType, length⟩, earlier⟩ := builtConst
    exact ⟨⟨name, elements, grows.types.getElem? isType, length⟩, earlier⟩

/-- New types leave a built module built. -/
theorem Built.withTypes {m : ConstModule} (built : m.Built) {types : TypeTable}
    (grows : m.types.Grows types) :
    m.Grows { m with types := types } ∧ Built { m with types := types } := by
  have grows' : m.Grows { m with types := types } := ⟨grows, List.prefix_rfl⟩
  exact ⟨grows', grows.caches, fun i c isConst => (built.consts i c isConst).mono built grows'⟩

/-! ## The first float that is equal -/

def findFloat (m : ConstModule) (r : FloatRequest) : Option DxilConst := do
  let type ← m.types.floatType r.type
  let index ← m.constList.findIdx? fun c => c.type = type && c.value.sameFloat r.value
  m.constList[index]?

end ConstModule

def DxilConstValue.bitsAs (size : FloatType) : DxilConstValue → Nat
  | float (.int intValue) => intValue.toNat
  | float (.float floatValue) =>
    if size = .float32 then (floatValue.convert binary32).bits else floatValue.bits
  | _ => 0

theorem bitsAs_value (r : FloatRequest) :
    (DxilConstValue.float r.value).bitsAs r.type = r.writtenBits := by
  cases r <;> rfl

namespace ConstModule

def written (m : ConstModule) (r : FloatRequest) : FloatRequest :=
  r.type.request (match m.findFloat r with
    | some c => c.value.bitsAs r.type
    | none => r.writtenBits)

/-! ## What the list stands for -/

def readConst (m : ConstModule) (earlier : List (Option ConstTree)) (c : DxilConst) :
    Option ConstTree :=
  match c.value with
  | .undef => some .undef
  | .int intValue =>
    match m.types.typeList[c.type]? with
    | some (.integer size) => some (.integer size (BitVec.ofInt _ intValue))
    | _ => none
  | .float _ =>
    match m.types.typeList[c.type]? with
    | some (.float size) => some (.float (size.request (c.value.bitsAs size)))
    | _ => none
  | .array values | .vector values | .struct values =>
    (values.mapM (earlierTree earlier)).map .aggregate

def trees (m : ConstModule) : List (Option ConstTree) :=
  BackwardTable.meanings m.readConst m.constList

theorem lt_of_earlierTree {m : ConstModule} {index : Nat} {tree : ConstTree}
    (isTree : earlierTree m.trees index = some tree) : index < m.constList.length := by
  rw [earlierTree, Option.join_eq_some_iff] at isTree
  have inside := (List.getElem?_eq_some_iff.mp isTree).1
  rwa [trees, BackwardTable.length_meanings] at inside

theorem earlierTree_trees {m : ConstModule} (built : m.Built) {index : Nat} {c : DxilConst}
    (isConst : m.constList[index]? = some c) :
    earlierTree m.trees index = m.readConst m.trees c := by
  have inFront : ∀ values : List Nat, (∀ value ∈ values, value < index) →
      values.mapM (earlierTree (m.trees.take index)) = values.mapM (earlierTree m.trees) := by
    intro values earlier
    induction values with
    | nil => rfl
    | cons value values inductionHypothesis =>
      rw [List.forall_mem_cons] at earlier
      rw [List.mapM_cons, List.mapM_cons, inductionHypothesis earlier.2, earlierTree, earlierTree,
        List.getElem?_take_of_lt earlier.1]
  have builtConst := built.consts index c isConst
  rw [earlierTree, trees, BackwardTable.getElem?_meanings isConst, Option.join_some]
  change m.readConst (m.trees.take index) c = _
  unfold BuiltConst at builtConst
  rw [readConst, readConst]
  cases value : c.value with
  | undef => rfl
  | int intValue => rfl
  | float stored => rfl
  | array values | vector values | struct values =>
    rw [value] at builtConst
    exact congrArg (Option.map ConstTree.aggregate) (inFront values builtConst.2)

/-! ## Steps -/

theorem findFloat_of_grows {m m' : ConstModule} (built : m.Built) (grows : m.Grows m')
    {r : FloatRequest} {c : DxilConst} (found : m.findFloat r = some c) :
    m'.findFloat r = some c := by
  simp only [findFloat, Option.bind_eq_bind, Option.bind_eq_some_iff] at found ⊢
  obtain ⟨type, cached, index, isFirst, isConst⟩ := found
  refine ⟨type, grows.types.floatType built.caches cached, index, ?_, grows.getElem? isConst⟩
  exact Intern.findIdx?_of_prefix grows.consts isFirst

/-- What getting the constants of some floats leaves, and of vectors if there are any. -/
structure Step (m : ConstModule) (floats : List FloatRequest) (vectors : Prop)
    (m' : ConstModule) : Prop where
  built : m'.Built
  grows : m.Grows m'
  created : ∀ c ∈ m'.constList, c ∈ m.constList ∨
    (∀ value, c.value = .float value → ∃ r ∈ floats, m'.Stores c r) ∧
      ∀ values, c.value = .vector values → vectors
  found : ∀ r ∈ floats, r.value.same r.value = true → (m'.findFloat r).isSome
  vector : vectors → ∃ c ∈ m'.constList, ∃ values, c.value = .vector values

theorem Step.trans {m m' m'' : ConstModule} {floats floats' : List FloatRequest}
    {vectors vectors' : Prop} (first : m.Step floats vectors m')
    (second : m'.Step floats' vectors' m'') :
    m.Step (floats ++ floats') (vectors ∨ vectors') m'' := by
  constructor
  · exact second.built
  · exact first.grows.trans second.grows
  · intro c member
    rcases second.created c member with old | ⟨isFloat, isVector⟩
    · rcases first.created c old with older | ⟨isFloat, isVector⟩
      · exact Or.inl older
      · refine Or.inr ⟨?_, fun values same => Or.inl (isVector values same)⟩
        intro value same
        obtain ⟨r, requested, stores⟩ := isFloat value same
        exact ⟨r, List.mem_append_left _ requested, stores.mono first.built second.grows⟩
    · refine Or.inr ⟨?_, fun values same => Or.inr (isVector values same)⟩
      intro value same
      obtain ⟨r, requested, stores⟩ := isFloat value same
      exact ⟨r, List.mem_append_right _ requested, stores⟩
  · intro r requested self
    rcases List.mem_append.mp requested with requested | requested
    · obtain ⟨c, isFound⟩ := Option.isSome_iff_exists.mp (first.found r requested self)
      rw [findFloat_of_grows first.built second.grows isFound]
      rfl
    · exact second.found r requested self
  · rintro (isVector | isVector)
    · obtain ⟨c, member, values, same⟩ := first.vector isVector
      exact ⟨c, second.grows.consts.subset member, values, same⟩
    · exact second.vector isVector

theorem Step.congr {m m' : ConstModule} {floats floats' : List FloatRequest}
    {vectors vectors' : Prop} (step : m.Step floats vectors m') (same : floats = floats')
    (iff : vectors ↔ vectors') : m.Step floats' vectors' m' :=
  same ▸ propext iff ▸ step

theorem Built.step_withTypes {m : ConstModule} (built : m.Built) {types : TypeTable}
    (grows : m.types.Grows types) : m.Step [] False { m with types := types } := by
  obtain ⟨grows', built'⟩ := built.withTypes grows
  exact ⟨built', grows', fun c member => Or.inl member, nofun, False.elim⟩

/-- In every later module, the constant at the position stands for the tree with the floats that
are written there. -/
def Gives (m : ConstModule) (index : Nat)
    (tree : (FloatRequest → FloatRequest) → Option ConstTree) : Prop :=
  ∀ final, m.Grows final → final.Built → ∃ t, tree final.written = some t ∧
    earlierTree final.trees index = some t

def GivesAll (m : ConstModule) (indices : List Nat)
    (trees : (FloatRequest → FloatRequest) → Option (List ConstTree)) : Prop :=
  ∀ final, m.Grows final → final.Built → ∃ ts, trees final.written = some ts ∧
    indices.mapM (earlierTree final.trees) = some ts

theorem GivesAll.lt {m : ConstModule} (built : m.Built) {indices : List Nat}
    {trees : (FloatRequest → FloatRequest) → Option (List ConstTree)}
    (gives : m.GivesAll indices trees) : ∀ index ∈ indices, index < m.constList.length := by
  obtain ⟨ts, -, mapped⟩ := gives m (Grows.refl built) built
  intro index member
  obtain ⟨t, -, isTree⟩ := exists_of_mapM mapped member
  exact lt_of_earlierTree isTree

theorem getConst_spec {m : ConstModule} (built : m.Built) (same : DxilConst → Bool) {c : DxilConst}
    (builtConst : m.BuiltConst m.constList.length c) :
    (m.getConst same c).2.Built ∧ m.Grows (m.getConst same c).2 ∧
      (∀ c' ∈ (m.getConst same c).2.constList, c' ∈ m.constList ∨ c' = c) ∧
      ∃ found, (m.getConst same c).2.constList[(m.getConst same c).1]? = some found ∧
        (same found = true ∨ found = c) := by
  have grows : m.Grows (m.getConst same c).2 := ⟨.refl built.caches, Intern.prefix_intern⟩
  refine ⟨⟨built.caches, ?_⟩, grows, fun c' => Intern.mem_intern, ?_⟩
  · intro i c' isConst
    rcases Intern.getElem?_of_intern isConst with old | ⟨rfl, rfl⟩
    · exact (built.consts i c' old).mono built grows
    · exact builtConst.mono built grows
  · obtain ⟨found, isFound, accepted⟩ := @Intern.getElem?_intern _ same c m.constList
    exact ⟨found, isFound, accepted.imp And.right id⟩

theorem getIntConst_spec {m m' : ConstModule} (built : m.Built) {size : IntType}
    {value : BitVec 64} {index : Nat} (got : m.getIntConst size value = some (index, m')) :
    m.Step [] False m' ∧ m'.Gives index fun _ =>
      some (.integer size (BitVec.ofInt size.intBits (size.parameter value))) := by
  simp only [getIntConst, Option.bind_eq_bind, Option.bind_eq_some_iff] at got
  obtain ⟨⟨type, types⟩, isType, same⟩ := got
  obtain ⟨grows, isFirst⟩ := TypeTable.request_spec built.caches rfl
    (show m.types.request (.integer size) = _ from isType)
  have entry := TypeTable.getElem?_of_findIdx? isFirst
  have typed := built.step_withTypes grows
  have builtConst : BuiltConst { m with types := types } m.constList.length
    ⟨type, .int (size.parameter value)⟩ := ⟨⟨size, entry⟩, parameter_bounds size value⟩
  obtain ⟨built', grows', created, found, isFound, accepted⟩ := getConst_spec typed.built
    (fun c => c.type = type ∧ c.value = .int (size.parameter value)) builtConst
  have isInt : found.type = type ∧ found.value = .int (size.parameter value) := by
    rcases accepted with accepted | rfl
    · exact of_decide_eq_true accepted
    · exact ⟨rfl, rfl⟩
  rw [Option.some.injEq] at same
  rw [same] at built' grows' created isFound
  have step : { m with types := types }.Step [] False m' := by
    refine ⟨built', grows', ?_, nofun, False.elim⟩
    intro c member
    rcases created c member with old | rfl
    · exact Or.inl old
    · exact Or.inr ⟨nofun, nofun⟩
  refine ⟨(typed.trans step).congr rfl (or_self_iff), ?_⟩
  intro final later builtFinal
  refine ⟨_, rfl, ?_⟩
  have isType' := (grows'.trans later).types.getElem? entry
  rw [earlierTree_trees builtFinal (later.getElem? isFound), readConst]
  simp only [isInt.1, isInt.2, isType']

/-- No constant is found for a NaN. -/
theorem findFloat_eq_none {m : ConstModule} {r : FloatRequest}
    (nowhere : ∀ c : DxilConst, c.value.sameFloat r.value = false) : m.findFloat r = none := by
  have unfound : ∀ type, m.constList.findIdx?
      (fun c => c.type = type && c.value.sameFloat r.value) = none := by
    intro type
    rw [List.findIdx?_eq_none_iff]
    intro c _
    rw [nowhere c, Bool.and_false]
  simp only [findFloat, unfound, Option.bind_eq_bind, Option.bind_none, Option.bind_fun_none]

/-- The bits of the constant that a float gets are those of the first one that the list is searched
for with it, and its own ones where it is never found. -/
theorem bitsAs_eq_of_accepted {m final : ConstModule} (built : m.Built) (later : m.Grows final)
    {r : FloatRequest} {type : Nat} {found : DxilConst}
    (isFound : r.value.same r.value = true → m.findFloat r = some found)
    (accepted : (found.type = type && found.value.sameFloat r.value) = true ∨
      found = ⟨type, .float r.value⟩) :
    (found.value.bitsAs r.type = match final.findFloat r with
      | some c => c.value.bitsAs r.type
      | none => r.writtenBits) ∧ ∃ stored, found.value = .float stored := by
  rcases r.same_self with self | ⟨-, rejects⟩
  · rw [findFloat_of_grows built later (isFound self)]
    refine ⟨rfl, ?_⟩
    rcases accepted with accepted | rfl
    · rw [Bool.and_eq_true] at accepted
      have isFloat := accepted.2
      cases value : found.value with
      | float stored => exact ⟨stored, rfl⟩
      | undef | int | array | vector | struct =>
        rw [value] at isFloat
        cases isFloat
    · exact ⟨r.value, rfl⟩
  · have nowhere : ∀ c : DxilConst, c.value.sameFloat r.value = false := by
      intro c
      cases c.value with
      | float stored => exact rejects stored
      | undef | int | array | vector | struct => rfl
    rcases accepted with accepted | rfl
    · rw [nowhere found, Bool.and_false] at accepted
      cases accepted
    · rw [findFloat_eq_none nowhere]
      exact ⟨bitsAs_value r, r.value, rfl⟩

theorem getFloatConst_spec {m m' : ConstModule} (built : m.Built) {r : FloatRequest} {index : Nat}
    (got : m.getFloatConst r = some (index, m')) :
    m.Step [r] False m' ∧ m'.Gives index fun keep => some (.float (keep r)) := by
  simp only [getFloatConst, Option.bind_eq_bind, Option.bind_eq_some_iff] at got
  obtain ⟨⟨type, types⟩, isType, same⟩ := got
  obtain ⟨grows, isFirst⟩ := TypeTable.request_spec built.caches rfl
    (show m.types.request (.float r.type) = _ from isType)
  have cached : types.floatType r.type = some type := (grows.caches.float r.type).trans isFirst
  have typed := built.step_withTypes grows
  have builtConst : BuiltConst { m with types := types } m.constList.length
    ⟨type, .float r.value⟩ := ⟨r, cached, rfl⟩
  obtain ⟨built', grows', created, found, isFound, accepted⟩ := getConst_spec typed.built
    (fun c => c.type = type && c.value.sameFloat r.value) builtConst
  have searched : r.value.same r.value = true →
      (getConst { m with types := types } (fun c => c.type = type && c.value.sameFloat r.value)
        ⟨type, .float r.value⟩).2.constList.findIdx?
          (fun c => c.type = type && c.value.sameFloat r.value) =
        some (getConst { m with types := types }
          (fun c => c.type = type && c.value.sameFloat r.value) ⟨type, .float r.value⟩).1 := by
    intro self
    apply Intern.findIdx?_intern
    rw [decide_eq_true rfl]
    exact self
  rw [Option.some.injEq] at same
  rw [same] at built' grows' created isFound searched
  dsimp only at built' grows' created isFound searched
  have cached' := grows'.types.floatType typed.built.caches cached
  have findFloat_self : r.value.same r.value = true → m'.findFloat r = some found := by
    intro self
    simp only [findFloat, cached', Option.bind_eq_bind, Option.bind_some, searched self, isFound]
  have ofType : found.type = type := by
    rcases accepted with accepted | rfl
    · rw [Bool.and_eq_true] at accepted
      exact of_decide_eq_true accepted.1
    · rfl
  have step : { m with types := types }.Step [r] False m' := by
    refine ⟨built', grows', ?_, ?_, False.elim⟩
    · intro c member
      rcases created c member with old | rfl
      · exact Or.inl old
      · refine Or.inr ⟨?_, nofun⟩
        rintro value ⟨⟩
        exact ⟨r, List.mem_singleton_self r, cached', rfl⟩
    · intro r' requested self
      rw [List.mem_singleton] at requested
      subst requested
      rw [findFloat_self self]
      rfl
  refine ⟨(typed.trans step).congr rfl (or_self_iff), ?_⟩
  intro final later builtFinal
  refine ⟨_, rfl, ?_⟩
  obtain ⟨bits, stored, isFloat⟩ :=
    bitsAs_eq_of_accepted built' later findFloat_self (by simpa using accepted)
  have entry := (later.types).getElem? (grows'.types.getElem? (grows.caches.getElem?_float cached))
  rw [earlierTree_trees builtFinal (later.getElem? isFound), readConst, written, ← bits]
  simp only [isFloat, ofType, entry]

theorem getAggregateConst_spec {m : ConstModule} (built : m.Built) {type : Nat}
    (value : DxilConstValue) {indices : List Nat}
    (reads : ∀ (final : ConstModule) earlier, final.readConst earlier ⟨type, value⟩ =
      (indices.mapM (earlierTree earlier)).map .aggregate)
    (builtConst : m.BuiltConst m.constList.length ⟨type, value⟩)
    (notFloat : ∀ stored, value ≠ .float stored)
    {trees : (FloatRequest → FloatRequest) → Option (List ConstTree)}
    (gives : m.GivesAll indices trees) :
    m.Step [] (∃ values, value = .vector values) (m.getAggregateConst type value).2 ∧
      (m.getAggregateConst type value).2.Gives (m.getAggregateConst type value).1
        fun keep => (trees keep).map .aggregate := by
  rw [getAggregateConst]
  obtain ⟨built', grows, created, found, isFound, accepted⟩ :=
    getConst_spec built (fun c => c.type = type ∧ c.value = value) builtConst
  have isValue : found = ⟨type, value⟩ := by
    rcases accepted with accepted | rfl
    · obtain ⟨sameType, sameValue⟩ := of_decide_eq_true accepted
      rw [← sameType, ← sameValue]
    · rfl
  subst isValue
  constructor
  · refine ⟨built', grows, ?_, nofun, ?_⟩
    · intro c member
      rcases created c member with old | rfl
      · exact Or.inl old
      · exact Or.inr ⟨fun stored same => absurd same (notFloat stored),
          fun values same => ⟨values, same⟩⟩
    · rintro ⟨values, same⟩
      exact ⟨_, List.mem_of_getElem? isFound, values, same⟩
  · intro final later builtFinal
    obtain ⟨ts, areTrees, mapped⟩ := gives final (grows.trans later) builtFinal
    refine ⟨.aggregate ts, congrArg (Option.map ConstTree.aggregate) areTrees, ?_⟩
    rw [earlierTree_trees builtFinal (later.getElem? isFound), reads, mapped]
    rfl

/-! ## Loops -/

theorem getEach_spec {Element : Type} {get : Element → ConstModule → Option (Nat × ConstModule)}
    (floats : Element → List FloatRequest) (vectors : Prop)
    (tree : (FloatRequest → FloatRequest) → Element → Option ConstTree) (Good : ConstModule → Prop)
    (stays : ∀ {m m' : ConstModule}, m.Grows m' → Good m → Good m')
    (each : ∀ {element : Element} {m m' : ConstModule} {index : Nat}, m.Built → Good m →
      get element m = some (index, m') →
      m.Step (floats element) vectors m' ∧ m'.Gives index fun keep => tree keep element)
    {elements : List Element} {m m' : ConstModule} {indices : List Nat} (built : m.Built)
    (good : Good m) (got : getEach get elements m = some (indices, m')) :
    m.Step (elements.flatMap floats) (elements ≠ [] ∧ vectors) m' ∧
      indices.length = elements.length ∧
      m'.GivesAll indices fun keep => elements.mapM (tree keep) := by
  induction elements generalizing m indices with
  | nil =>
    cases got
    refine ⟨⟨built, .refl built, fun c => Or.inl, nofun, fun none => absurd rfl none.1⟩, rfl, ?_⟩
    exact fun final _ _ => ⟨[], rfl, rfl⟩
  | cons element elements inductionHypothesis =>
    simp only [getEach, Option.bind_eq_bind, Option.bind_eq_some_iff] at got
    obtain ⟨⟨index, middle⟩, isIndex, ⟨rest, last⟩, areIndices, same⟩ := got
    cases same
    obtain ⟨first, gives⟩ := each built good isIndex
    obtain ⟨others, length, givesAll⟩ :=
      inductionHypothesis first.built (stays first.grows good) areIndices
    refine ⟨(first.trans others).congr rfl ?_, congrArg (· + 1) length, ?_⟩
    · constructor
      · rintro (isVector | ⟨-, isVector⟩)
        · exact ⟨List.cons_ne_nil element elements, isVector⟩
        · exact ⟨List.cons_ne_nil element elements, isVector⟩
      · exact fun isVector => Or.inl isVector.2
    · intro final later builtFinal
      obtain ⟨t, isTree, decoded⟩ := gives final (others.grows.trans later) builtFinal
      obtain ⟨ts, areTrees, decodedAll⟩ := givesAll final later builtFinal
      refine ⟨t :: ts, ?_, ?_⟩
      · simp only [List.mapM_cons, isTree, areTrees]
        rfl
      · rw [List.mapM_cons, decoded, decodedAll]
        rfl

def ElementType (baseType : GlslBaseType) (type : Nat) (m : ConstModule) : Prop :=
  ∃ entry, baseType.typeEntry = some entry ∧ m.types.typeList.findIdx? (· = entry) = some type

theorem ElementType.mono {baseType : GlslBaseType} {type : Nat} {m m' : ConstModule}
    (grows : m.Grows m') (isType : ElementType baseType type m) : ElementType baseType type m' := by
  obtain ⟨entry, isEntry, isFirst⟩ := isType
  exact ⟨entry, isEntry, Intern.findIdx?_of_prefix grows.types.types isFirst⟩

/-- The comparisons with the cached types find the type. -/
theorem getValueForConst_eq {m : ConstModule} (built : m.Built) {entry : TypeEntry} {type : Nat}
    (isFirst : m.types.typeList.findIdx? (· = entry) = some type) (c : BitVec 64) :
    (∀ size, entry = .float size →
      getValueForConst type c m = m.getFloatConst (size.request c.toNat)) ∧
      ∀ size, entry = .integer size → size ≠ .int1 →
        getValueForConst type c m = if size = .int8 then none else m.getIntConst size c := by
  have cached : ∀ other, m.types.typeList.findIdx? (· = other) = some type ↔ entry = other := by
    intro other
    constructor
    · intro isOther
      have same := (TypeTable.getElem?_of_findIdx? isFirst).symm.trans
        (TypeTable.getElem?_of_findIdx? isOther)
      exact Option.some_inj.mp same
    · rintro rfl
      exact isFirst
  constructor
  · rintro size rfl
    cases size <;>
      simp [getValueForConst, built.caches.integer, built.caches.float, cached, FloatType.request,
        BitVec.ofNat_toNat]
  · rintro size rfl other
    cases size <;>
      simp_all [getValueForConst, built.caches.integer, built.caches.float]

theorem getValueForConst_spec {baseType : GlslBaseType} {type : Nat} {c : BitVec 64}
    {m m' : ConstModule} {index : Nat} (built : m.Built) (isType : ElementType baseType type m)
    (got : getValueForConst type c m = some (index, m')) :
    m.Step (baseType.floats c) False m' ∧ m'.Gives index fun keep => baseType.tree keep c := by
  obtain ⟨entry, isEntry, isFirst⟩ := isType
  obtain ⟨isFloat, isInteger⟩ := getValueForConst_eq built isFirst c
  rw [GlslBaseType.typeEntry] at isEntry
  simp only [GlslBaseType.floats, GlslBaseType.tree]
  split at isEntry
  · next nirFloat =>
    obtain ⟨size, isSize, rfl⟩ := Option.map_eq_some_iff.mp isEntry
    rw [isFloat size rfl] at got
    simp only [if_pos nirFloat, isSize, Option.map_some, Option.toList_some]
    exact getFloatConst_spec built got
  · next notFloat =>
    obtain ⟨size, isSize, rfl⟩ := Option.map_eq_some_iff.mp isEntry
    have wide : size ≠ .int1 := by
      rintro rfl
      cases baseType <;> cases isSize
    rw [isInteger size rfl wide, Option.ite_none_left_eq_some] at got
    simp only [if_neg notFloat, isSize, Option.map_some]
    obtain ⟨step, gives⟩ := getIntConst_spec built got.2
    refine ⟨step, ?_⟩
    rwa [← (ofInt_parameter_iff size c).mpr fun narrow => wide narrow.1] at gives

/-! ## Initializers -/

theorem getFirst_spec {Element : Type} {get : Element → ConstModule → Option (Nat × ConstModule)}
    {count : Nat} {elements : List Element} {m m' : ConstModule} {indices : List Nat}
    (got : getFirst get count elements m = some (indices, m')) :
    count ≤ elements.length ∧ getEach get (elements.take count) m = some (indices, m') := by
  rwa [getFirst, Option.ite_none_right_eq_some] at got

theorem getScalars_spec {baseType : GlslBaseType} {type count : Nat} {values : List (BitVec 64)}
    {m m' : ConstModule} {indices : List Nat} (built : m.Built)
    (isType : ElementType baseType type m)
    (got : getFirst (getValueForConst type) count values m = some (indices, m')) :
    m.Step ((values.take count).flatMap baseType.floats) False m' ∧ indices.length = count ∧
      m'.GivesAll indices fun keep => (values.take count).mapM (baseType.tree keep) := by
  obtain ⟨enough, got⟩ := getFirst_spec got
  obtain ⟨step, length, gives⟩ := getEach_spec baseType.floats False
    (fun keep => baseType.tree keep) (ElementType baseType type) ElementType.mono
    (fun built isType got => getValueForConst_spec built isType got) built isType got
  refine ⟨step.congr rfl ⟨And.right, False.elim⟩, ?_, gives⟩
  rw [length, List.length_take, Nat.min_eq_left enough]

/-- The types of an initializer are got before its constants. -/
theorem withTypes_spec {m : ConstModule} (built : m.Built) {type : ConstantType} {id : Nat}
    {types : TypeTable} (got : getTypeForGlslType type m.types = some (id, types))
    {baseType : GlslBaseType} {elementType : Nat} {types' : TypeTable}
    (gotElement : getTypeForGlslBaseType types baseType = some (elementType, types')) :
    types.Grows types' ∧ m.Step [] False { m with types := types' } ∧
      ElementType baseType elementType { m with types := types' } := by
  have grows := getTypeForGlslType_grows type built.caches got
  obtain ⟨grows', entry, isEntry, isFirst⟩ := getTypeForGlslBaseType_spec grows.caches gotElement
  exact ⟨grows', built.step_withTypes (grows.trans grows'), entry, isEntry, isFirst⟩

end ConstModule

open ConstModule

mutual

theorem getValueForConstAggregate_spec : ∀ (type : ConstantType) {c : NirConstant}
    {m m' : ConstModule} {index : Nat}, m.Built →
      getValueForConstAggregate type c m = some (index, m') →
      m.Step (type.floats c) type.HasVector m' ∧ m'.Gives index fun keep => type.tree keep c
  | .scalar baseType, c, m, m', index, built, got => by
    simp only [getValueForConstAggregate, Option.bind_eq_bind, Option.bind_eq_some_iff,
      Option.map_eq_some_iff] at got
    obtain ⟨⟨id, types⟩, isType, ⟨elementType, types'⟩, isElement, ⟨indices, last⟩, areIndices,
      first, isFirst, same⟩ := got
    cases same
    obtain ⟨-, typed, isElementType⟩ := withTypes_spec built isType isElement
    obtain ⟨step, -, gives⟩ := getScalars_spec typed.built isElementType areIndices
    refine ⟨(typed.trans step).congr rfl (or_self_iff), ?_⟩
    intro final later builtFinal
    obtain ⟨ts, areTrees, mapped⟩ := gives final later builtFinal
    dsimp only at isFirst
    cases indices with
    | nil => cases isFirst
    | cons index rest =>
      cases isFirst
      cases values : c.values with
      | nil =>
        rw [values] at areTrees
        cases areTrees
        simp [List.mapM_cons, Option.bind_eq_some_iff] at mapped
      | cons value others =>
        rw [values] at areTrees
        simp only [List.take_succ_cons, List.take_zero, List.mapM_cons, List.mapM_nil,
          Option.bind_eq_bind, Option.bind_eq_some_iff, Option.pure_def, Option.some.injEq]
          at areTrees mapped
        obtain ⟨t, isTree, _, rfl, rfl⟩ := areTrees
        obtain ⟨t', decoded, rest, -, same⟩ := mapped
        cases same
        exact ⟨t,
          by simp only [ConstantType.tree, values, List.head?_cons, Option.bind_some, isTree],
          decoded⟩
  | .vector baseType vectorElements, c, m, m', index, built, got => by
    simp only [getValueForConstAggregate, Option.bind_eq_bind, Option.bind_eq_some_iff] at got
    obtain ⟨⟨id, types⟩, isType, ⟨elementType, types'⟩, isElement, ⟨indices, last⟩, areIndices,
      same⟩ := got
    cases same
    obtain ⟨grows, typed, isElementType⟩ := withTypes_spec built isType isElement
    obtain ⟨element, entry⟩ := getTypeForGlslType_entry built.caches isType
    have enough := (getFirst_spec areIndices).1
    obtain ⟨step, length, gives⟩ := getScalars_spec typed.built isElementType areIndices
    have entry' := step.grows.types.getElem? (grows.getElem? entry)
    rw [← length] at entry'
    obtain ⟨last, givesTree⟩ := getAggregateConst_spec step.built (.vector indices)
      (fun _ _ => rfl) ⟨⟨element, entry'⟩, gives.lt step.built⟩ nofun gives
    refine ⟨((typed.trans step).trans last).congr (List.append_nil _) ?_, ?_⟩
    · exact ⟨fun _ => trivial, fun _ => Or.inr ⟨indices, rfl⟩⟩
    · simp only [ConstantType.tree, if_pos enough]
      exact givesTree
  | .matrix .., c, m, m', index, built, got => nomatch got
  | .array element length, c, m, m', index, built, got => by
    simp only [getValueForConstAggregate, Option.bind_eq_bind, Option.bind_eq_some_iff] at got
    obtain ⟨⟨id, types⟩, isType, ⟨indices, last⟩, areIndices, same⟩ := got
    cases same
    obtain ⟨elementType, entry⟩ := getTypeForGlslType_entry built.caches isType
    have typed := built.step_withTypes (getTypeForGlslType_grows _ built.caches isType)
    obtain ⟨enough, areIndices⟩ := getFirst_spec areIndices
    obtain ⟨step, count, gives⟩ := getEach_spec element.floats element.HasVector
      (fun keep => element.tree keep) (fun _ => True) (fun _ always => always)
      (fun built _ got => getValueForConstAggregate_spec element built got) typed.built trivial
      areIndices
    rw [List.length_take, Nat.min_eq_left enough] at count
    have entry' := step.grows.types.getElem? entry
    rw [← count] at entry'
    obtain ⟨last, givesTree⟩ := getAggregateConst_spec step.built (.array indices)
      (fun _ _ => rfl) ⟨⟨elementType, entry'⟩, gives.lt step.built⟩ nofun gives
    refine ⟨((typed.trans step).trans last).congr (List.append_nil _) ?_, ?_⟩
    · have nonempty : c.elements.take length ≠ [] ↔ length ≠ 0 := by
        rw [ne_eq, ← List.length_eq_zero_iff, List.length_take, Nat.min_eq_left enough]
      rw [nonempty]
      constructor
      · rintro ((none | isVector) | ⟨values, same⟩)
        · exact none.elim
        · exact isVector
        · cases same
      · exact fun isVector => Or.inl (Or.inr isVector)
    · simp only [ConstantType.tree, if_pos enough]
      exact givesTree
  | .struct name fields, c, m, m', index, built, got => by
    simp only [getValueForConstAggregate, Option.bind_eq_bind, Option.bind_eq_some_iff] at got
    obtain ⟨⟨id, types⟩, isType, ⟨indices, last⟩, areIndices, same⟩ := got
    cases same
    obtain ⟨structName, elements, entry, length⟩ := getTypeForGlslType_entry built.caches isType
    have typed := built.step_withTypes (getTypeForGlslType_grows _ built.caches isType)
    obtain ⟨step, count, gives⟩ := getValuesForFields_spec fields typed.built areIndices
    have entry' := step.grows.types.getElem? entry
    obtain ⟨last, givesTree⟩ := getAggregateConst_spec step.built (.struct indices)
      (fun _ _ => rfl) ⟨⟨structName, elements, entry', length.trans count.symm⟩,
        gives.lt step.built⟩ nofun gives
    refine ⟨((typed.trans step).trans last).congr (List.append_nil _) ?_, givesTree⟩
    constructor
    · rintro ((none | isVector) | ⟨values, same⟩)
      · exact none.elim
      · exact isVector
      · cases same
    · exact fun isVector => Or.inl (Or.inr isVector)

theorem getValuesForFields_spec : ∀ (fields : ConstantFields) {elements : List NirConstant}
    {m m' : ConstModule} {indices : List Nat}, m.Built →
      getValuesForFields fields elements m = some (indices, m') →
      m.Step (fields.floats elements) fields.HasVector m' ∧ indices.length = fields.length ∧
        m'.GivesAll indices fun keep => fields.trees keep elements
  | .nil, elements, m, m', indices, built, got => by
    cases got
    exact ⟨⟨built, .refl built, fun c => Or.inl, nofun, False.elim⟩, rfl,
      fun final _ _ => ⟨[], rfl, rfl⟩⟩
  | .cons _ _, [], m, m', indices, built, got => nomatch got
  | .cons type rest, element :: elements, m, m', indices, built, got => by
    simp only [getValuesForFields, Option.bind_eq_bind, Option.bind_eq_some_iff] at got
    obtain ⟨⟨index, middle⟩, isIndex, ⟨others, last⟩, areIndices, same⟩ := got
    cases same
    obtain ⟨first, gives⟩ := getValueForConstAggregate_spec type built isIndex
    obtain ⟨step, length, givesAll⟩ := getValuesForFields_spec rest first.built areIndices
    refine ⟨first.trans step, congrArg (· + 1) length, ?_⟩
    intro final later builtFinal
    obtain ⟨t, isTree, decoded⟩ := gives final (step.grows.trans later) builtFinal
    obtain ⟨ts, areTrees, decodedAll⟩ := givesAll final later builtFinal
    refine ⟨t :: ts, ?_, ?_⟩
    · simp only [ConstantFields.trees, isTree, areTrees]
      rfl
    · rw [List.mapM_cons, decoded, decodedAll]
      rfl

end

end SpirvToDxil
