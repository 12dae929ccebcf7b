import SpirvToDxil.Dxil.Module.Metadata
import Mathlib.Tactic.IntervalCases

/-!
# Requests for types and metadata

Any sequence of requests for types and metadata nodes, and what a reader makes of the
two tables that it leaves.
-/

namespace SpirvToDxil

/-- The parts of a `dxil_module` that the requests change. -/
structure Tables where
  types : TypeTable := {}
  metadata : MetadataTable := {}

inductive TableRequest where
  | type (type : TypeEntry)
  | node (node : MdNode)
  | namedNode (n : NamedNode)
  deriving DecidableEq, Repr

namespace TableRequest

def type? : TableRequest → Option TypeEntry
  | type entry => some entry
  | _ => none

def node? : TableRequest → Option MdNode
  | node mdnode => some mdnode
  | _ => none

def namedNode? : TableRequest → Option NamedNode
  | namedNode n => some n
  | _ => none

/-- The request is made with types and nodes that were returned before. -/
def Below (values : DxilModule) (m : Tables) : TableRequest → Prop
  | type entry => entry.Below m.types.typeList.length
  | node mdnode => mdnode.Below values m.types.typeList.length m.metadata.mdnodeList.length
  | namedNode n => n.Below m.metadata.mdnodeList.length

end TableRequest

namespace Tables

/-- A named node has no id. -/
def request (m : Tables) : TableRequest → Option (Option Nat × Tables)
  | .type type => do
    let (id, types) ← m.types.request type
    some (some id, { m with types := types })
  | .node node => do
    let (id, metadata) ← m.metadata.request node
    some (some id, { m with metadata := metadata })
  | .namedNode n =>
    some (none, { m with metadata := m.metadata.addMetadataNamedNode n.name n.subnodes })

def requests (m : Tables) : List TableRequest → Option (List (Option Nat) × Tables)
  | [] => some ([], m)
  | r :: rs => do
    let (answer, m) ← m.request r
    let (answers, m) ← m.requests rs
    some (answer :: answers, m)

/-- Every request is made with what was returned before it. -/
def Legal (values : DxilModule) : Tables → List TableRequest → Prop
  | _, [] => True
  | m, r :: rs => r.Below values m ∧ ∀ answer m', m.request r = some (answer, m') →
    Legal values m' rs

def Holds (m : Tables) (answer : Option Nat) : TableRequest → Prop
  | .type type => ∃ id, answer = some id ∧ m.types.typeList[id]? = some type
  | .node node => ∃ index, answer = some (index + 1) ∧ m.metadata.mdnodeList[index]? = some node
  | .namedNode n => answer = none ∧ n ∈ m.metadata.mdNamedNodeList

/-- A request returns the next free id with a new entry, or an id that is in use. -/
def Numbers (m : Tables) (answer : Option Nat) (m' : Tables) : TableRequest → Prop
  | .type type => m'.metadata = m.metadata ∧ ∃ id, answer = some id ∧
      (id < m.types.typeList.length ∧ m'.types.typeList = m.types.typeList ∨
        id = m.types.typeList.length ∧ m'.types.typeList = m.types.typeList ++ [type])
  | .node node => m'.types = m.types ∧
      m'.metadata.mdNamedNodeList = m.metadata.mdNamedNodeList ∧
      ∃ index, answer = some (index + 1) ∧
      (index < m.metadata.mdnodeList.length ∧ m'.metadata.mdnodeList = m.metadata.mdnodeList ∨
        index = m.metadata.mdnodeList.length ∧
          m'.metadata.mdnodeList = m.metadata.mdnodeList ++ [node])
  | .namedNode n => m'.types = m.types ∧ answer = none ∧
      m'.metadata.mdNamedNodeList = m.metadata.mdNamedNodeList ++ [n] ∧
      m'.metadata.mdnodeList = m.metadata.mdnodeList

/-- Entries refer to entries in front of them, named nodes to any node. -/
structure Backward (values : DxilModule) (m : Tables) : Prop where
  types : ∀ (id : Nat) (type : TypeEntry), m.types.typeList[id]? = some type → type.Below id
  nodes : ∀ (index : Nat) (node : MdNode), m.metadata.mdnodeList[index]? = some node →
    node.Below values m.types.typeList.length index
  named : ∀ n ∈ m.metadata.mdNamedNodeList, n.Below m.metadata.mdnodeList.length

/-- The tables after all requests, whose answers are given, can be read back. -/
structure Rebuilt (values : DxilModule) (ids : Ids) (rs : List TableRequest)
    (answers : List (Option Nat)) (m : Tables) : Prop where
  numbered : ∀ done r rest, rs = done ++ r :: rest →
    ∃ (before after : Tables) (answer : Option Nat),
    requests {} done = some (answers.take done.length, before) ∧
      before.request r = some (answer, after) ∧ answers[done.length]? = some answer ∧
      before.Numbers answer after r
  holds : ∀ (i : Nat) (r : TableRequest), rs[i]? = some r →
    ∃ answer, answers[i]? = some answer ∧ m.Holds answer r
  backward : m.Backward values
  types : ReadsTypeTable m.types.typeList
  metadata : ReadsMetadata ids values.globalTable m.metadata
  shared : ∀ (i j : Nat) (type : TypeEntry), rs[i]? = some (.type type) →
    rs[j]? = some (.type type) → answers[i]? = answers[j]?

end Tables

/-- No function type is added twice, and no table and no record outgrows its bounds. -/
structure TablesFit (rs : List TableRequest) : Prop where
  functions : ∀ (i j : Nat) (type : TypeEntry), type.isFunction = true →
    rs[i]? = some (.type type) → rs[j]? = some (.type type) → i = j
  typeCount : (rs.filterMap TableRequest.type?).dedup.length + 1 < 2 ^ 31
  nodeCount : (rs.filterMap TableRequest.node?).dedup.length < 2 ^ 31
  types : ∀ type, .type type ∈ rs → type.Fits
  nodes : ∀ node, .node node ∈ rs → node.Fits
  named : ∀ n, .namedNode n ∈ rs → n.Fits

def StructsApart (rs : List TableRequest) : Prop :=
  ∀ name name' elem, .type (.struct name elem) ∈ rs → .type (.struct name' elem) ∈ rs → name = name'

def RebuildsTables (values : DxilModule) (ids : Ids) (rs : List TableRequest) : Prop :=
  ∃ answers m, Tables.requests {} rs = some (answers, m) ∧ m.Rebuilt values ids rs answers

/-- Types that `types_equal` takes to be equal are one. -/
def EqualTypesShared (rs : List TableRequest) : Prop :=
  ∀ answers m, Tables.requests {} rs = some (answers, m) → ∀ depth lhs rhs,
    typesEqual m.types.typeList depth lhs rhs = true → lhs = rhs

/-! ## Runs -/

namespace Tables

structure Reached (values : DxilModule) (done : List TableRequest) (m : Tables) : Prop where
  caches : m.types.CachesFit
  types : Intern.Pool TypeEntry.isFunction (done.filterMap TableRequest.type?) m.types.typeList
  nodes : Intern.Pool (fun _ => false) (done.filterMap TableRequest.node?) m.metadata.mdnodeList
  named : m.metadata.mdNamedNodeList = done.filterMap TableRequest.namedNode?
  backward : m.Backward values
  typeCount : m.types.typeList.length ≤ 2 ^ 31
  nodeCount : m.metadata.mdnodeList.length < 2 ^ 31

theorem reached_empty (values : DxilModule) : Reached values [] {} where
  caches := TypeTable.cachesFit_empty
  types := .nil
  nodes := .nil
  named := rfl
  backward := ⟨nofun, nofun, nofun⟩
  typeCount := Nat.zero_le _
  nodeCount := Nat.two_pow_pos 31

structure Grows (m m' : Tables) : Prop where
  types : m.types.typeList <+: m'.types.typeList
  nodes : m.metadata.mdnodeList <+: m'.metadata.mdnodeList
  named : m.metadata.mdNamedNodeList <+: m'.metadata.mdNamedNodeList

theorem Grows.refl (m : Tables) : Grows m m := ⟨List.prefix_rfl, List.prefix_rfl, List.prefix_rfl⟩

theorem Grows.trans {m m' m'' : Tables} (first : Grows m m') (second : Grows m' m'') :
    Grows m m'' :=
  ⟨first.types.trans second.types, first.nodes.trans second.nodes, first.named.trans second.named⟩

theorem getElem?_of_prefix {α : Type} {list list' : List α} (isPrefix : list <+: list')
    {index : Nat}
    {entry : α} (isEntry : list[index]? = some entry) : list'[index]? = some entry := by
  rcases isPrefix with ⟨rest, rfl⟩
  rw [List.getElem?_append_left (List.getElem?_eq_some_iff.mp isEntry).1]
  exact isEntry

theorem Holds.mono {m m' : Tables} (grows : Grows m m') {answer : Option Nat} {r : TableRequest}
    (holds : m.Holds answer r) : m'.Holds answer r := by
  cases r with
  | type type =>
    rcases holds with ⟨id, isId, isType⟩
    exact ⟨id, isId, getElem?_of_prefix grows.types isType⟩
  | node node =>
    rcases holds with ⟨index, isId, isNode⟩
    exact ⟨index, isId, getElem?_of_prefix grows.nodes isNode⟩
  | namedNode n => exact ⟨holds.1, grows.named.subset holds.2⟩

structure Stepped (values : DxilModule) (done : List TableRequest) (r : TableRequest) (m : Tables)
    (answer : Option Nat) (m' : Tables) : Prop where
  reached : Reached values (done ++ [r]) m'
  grows : Grows m m'
  numbers : m.Numbers answer m' r
  holds : m'.Holds answer r
  unshared : ∀ type, r = .type type → type.isFunction = true →
    answer = some m.types.typeList.length

theorem getElem?_of_findIdx? {α : Type} [DecidableEq α] {list : List α} {entry : α} {index : Nat}
    (isFirst : list.findIdx? (· = entry) = some index) : list[index]? = some entry := by
  rcases List.findIdx?_eq_some_iff_getElem.mp isFirst with ⟨inside, same, -⟩
  rw [List.getElem?_eq_getElem inside, of_decide_eq_true same]

theorem forall_getElem?_snoc {α : Type} {P : Nat → α → Prop} {list : List α} {entry : α}
    (all : ∀ index other, list[index]? = some other → P index other) (last : P list.length entry) :
    ∀ index other, (list ++ [entry])[index]? = some other → P index other := by
  intro index other isOther
  rcases Nat.lt_trichotomy index list.length with inside | rfl | outside
  · rw [List.getElem?_append_left inside] at isOther
    exact all index other isOther
  · rw [List.getElem?_concat_length, Option.some.injEq] at isOther
    exact isOther ▸ last
  · rw [List.getElem?_eq_none (by rw [List.length_append]; exact outside)] at isOther
    cases isOther

theorem below_mono {values : DxilModule} {types types' nodes nodes' : Nat} {node : MdNode}
    (below : node.Below values types nodes) (more : types ≤ types') (more' : nodes ≤ nodes') :
    node.Below values types' nodes' := by
  constructor
  · intro type value isValue
    rcases below.value type value isValue with ⟨inTypes, defined⟩
    exact ⟨Nat.lt_of_lt_of_le inTypes more, defined⟩
  · intro subnodes isNode id inside
    rcases below.node subnodes isNode id inside with ⟨positive, inNodes⟩
    exact ⟨positive, inNodes.trans more'⟩

section Step

variable {values : DxilModule} {done : List TableRequest} {m : Tables}

theorem typeRequest_stepped (reached : Reached values done m) {type : TypeEntry}
    (below : type.Below m.types.typeList.length) {answer : Option Nat} {m' : Tables}
    (answered : m.request (.type type) = some (answer, m')) :
    Stepped values done (.type type) m answer m' := by
  rcases Option.bind_eq_some_iff.mp answered with ⟨⟨id, types⟩, isAnswer, same⟩
  cases same
  rcases (TypeTable.request_answers reached.caches type).1 id types isAnswer with ⟨caches, kind⟩
  have requested : (done ++ [TableRequest.type type]).filterMap TableRequest.type? =
      done.filterMap TableRequest.type? ++ [type] := List.filterMap_append
  have others : (done ++ [TableRequest.type type]).filterMap TableRequest.node? =
      done.filterMap TableRequest.node? := by
    rw [List.filterMap_append]
    exact List.append_nil _
  have others' : (done ++ [TableRequest.type type]).filterMap TableRequest.namedNode? =
      done.filterMap TableRequest.namedNode? := by
    rw [List.filterMap_append]
    exact List.append_nil _
  generalize listEq : types.typeList = list at kind
  cases kind with
  | found shared isFirst =>
    have isType := getElem?_of_findIdx? isFirst
    refine ⟨⟨caches, ?_, ?_, ?_, ?_, ?_, reached.nodeCount⟩, ⟨?_, ?_, ?_⟩, ?_, ?_, ?_⟩
    · rw [requested, listEq]
      exact reached.types.found (List.mem_of_getElem? isType) shared
    · rw [others]
      exact reached.nodes
    · rw [others']
      exact reached.named
    · refine ⟨?_, ?_, reached.backward.named⟩
      · rw [listEq]
        exact reached.backward.types
      · rw [listEq]
        exact reached.backward.nodes
    · rw [listEq]
      exact reached.typeCount
    · exact listEq ▸ List.prefix_rfl
    · exact List.prefix_rfl
    · exact List.prefix_rfl
    · exact ⟨rfl, id, rfl, Or.inl ⟨(List.getElem?_eq_some_iff.mp isType).1, listEq⟩⟩
    · exact ⟨id, rfl, by rw [listEq]; exact isType⟩
    · intro type' same isFunction
      cases same
      rw [shared] at isFunction
      cases isFunction
  | created room isNew =>
    have longer : m.types.typeList.length ≤ types.typeList.length := by
      rw [listEq, List.length_append]
      exact Nat.le_add_right _ _
    refine ⟨⟨caches, ?_, ?_, ?_, ?_, ?_, reached.nodeCount⟩, ⟨?_, ?_, ?_⟩, ?_, ?_, ?_⟩
    · rw [requested, listEq]
      exact reached.types.created isNew
    · rw [others]
      exact reached.nodes
    · rw [others']
      exact reached.named
    · refine ⟨?_, ?_, reached.backward.named⟩
      · rw [listEq]
        exact forall_getElem?_snoc reached.backward.types below
      · intro index node isNode
        exact below_mono (reached.backward.nodes index node isNode) longer (Nat.le_refl _)
    · rw [listEq, List.length_append]
      exact room
    · rw [listEq]
      exact List.prefix_append ..
    · exact List.prefix_rfl
    · exact List.prefix_rfl
    · exact ⟨rfl, _, rfl, Or.inr ⟨rfl, listEq⟩⟩
    · exact ⟨_, rfl, by rw [listEq]; exact List.getElem?_concat_length⟩
    · exact fun _ _ _ => rfl

theorem nodeRequest_stepped (reached : Reached values done m) {node : MdNode}
    (below : node.Below values m.types.typeList.length m.metadata.mdnodeList.length)
    {answer : Option Nat} {m' : Tables} (answered : m.request (.node node) = some (answer, m')) :
    Stepped values done (.node node) m answer m' := by
  rcases Option.bind_eq_some_iff.mp answered with ⟨⟨id, metadata⟩, isAnswer, same⟩
  cases same
  rcases MetadataTable.request_answered isAnswer with ⟨kind, sameNamed⟩
  have requested : (done ++ [TableRequest.node node]).filterMap TableRequest.node? =
      done.filterMap TableRequest.node? ++ [node] := List.filterMap_append
  have others : (done ++ [TableRequest.node node]).filterMap TableRequest.type? =
      done.filterMap TableRequest.type? := by
    rw [List.filterMap_append]
    exact List.append_nil _
  have others' : (done ++ [TableRequest.node node]).filterMap TableRequest.namedNode? =
      done.filterMap TableRequest.namedNode? := by
    rw [List.filterMap_append]
    exact List.append_nil _
  generalize listEq : metadata.mdnodeList = list at kind
  cases kind with
  | found isFirst =>
    have isNode := getElem?_of_findIdx? isFirst
    refine ⟨⟨reached.caches, ?_, ?_, ?_, ?_, reached.typeCount, ?_⟩,
      ⟨List.prefix_rfl, ?_, ?_⟩, ?_, ?_,
      nofun⟩
    · rw [others]
      exact reached.types
    · rw [requested, listEq]
      exact reached.nodes.found (List.mem_of_getElem? isNode) rfl
    · rw [others', sameNamed]
      exact reached.named
    · refine ⟨reached.backward.types, ?_, ?_⟩
      · rw [listEq]
        exact reached.backward.nodes
      · rw [listEq, sameNamed]
        exact reached.backward.named
    · rw [listEq]
      exact reached.nodeCount
    · exact listEq ▸ List.prefix_rfl
    · exact sameNamed ▸ List.prefix_rfl
    · exact ⟨rfl, sameNamed, _, rfl, Or.inl ⟨(List.getElem?_eq_some_iff.mp isNode).1, listEq⟩⟩
    · exact ⟨_, rfl, by rw [listEq]; exact isNode⟩
  | created room isNew =>
    have longer : m.metadata.mdnodeList.length ≤ metadata.mdnodeList.length := by
      rw [listEq, List.length_append]
      exact Nat.le_add_right _ _
    refine ⟨⟨reached.caches, ?_, ?_, ?_, ?_, reached.typeCount, ?_⟩,
      ⟨List.prefix_rfl, ?_, ?_⟩, ?_, ?_,
      nofun⟩
    · rw [others]
      exact reached.types
    · rw [requested, listEq]
      exact reached.nodes.created (Or.inr isNew)
    · rw [others', sameNamed]
      exact reached.named
    · refine ⟨reached.backward.types, ?_, ?_⟩
      · rw [listEq]
        exact forall_getElem?_snoc reached.backward.nodes below
      · rw [sameNamed]
        intro n member
        constructor
        intro id inside
        rcases (reached.backward.named n member).subnodes id inside with ⟨positive, inNodes⟩
        exact ⟨positive, inNodes.trans longer⟩
    · rw [listEq, List.length_append]
      exact room
    · rw [listEq]
      exact List.prefix_append ..
    · exact sameNamed ▸ List.prefix_rfl
    · exact ⟨rfl, sameNamed, _, rfl, Or.inr ⟨rfl, listEq⟩⟩
    · exact ⟨_, rfl, by rw [listEq]; exact List.getElem?_concat_length⟩

theorem request_stepped (reached : Reached values done m) {r : TableRequest}
    (below : r.Below values m)
    {answer : Option Nat} {m' : Tables} (answered : m.request r = some (answer, m')) :
    Stepped values done r m answer m' := by
  cases r with
  | type type => exact typeRequest_stepped reached below answered
  | node node => exact nodeRequest_stepped reached below answered
  | namedNode n =>
    cases answered
    have others : (done ++ [TableRequest.namedNode n]).filterMap TableRequest.type? =
        done.filterMap TableRequest.type? := by
      rw [List.filterMap_append]
      exact List.append_nil _
    have others' : (done ++ [TableRequest.namedNode n]).filterMap TableRequest.node? =
        done.filterMap TableRequest.node? := by
      rw [List.filterMap_append]
      exact List.append_nil _
    refine ⟨⟨reached.caches, ?_, ?_, ?_, ⟨reached.backward.types, reached.backward.nodes, ?_⟩,
      reached.typeCount, reached.nodeCount⟩,
        ⟨List.prefix_rfl, List.prefix_rfl, List.prefix_append ..⟩,
      ⟨rfl, rfl, rfl, rfl⟩, ⟨rfl, List.mem_append_right _ List.mem_cons_self⟩, nofun⟩
    · rw [others]
      exact reached.types
    · rw [others']
      exact reached.nodes
    · rw [List.filterMap_append, ← reached.named]
      rfl
    · intro other member
      rcases List.mem_append.mp member with old | last
      · exact reached.backward.named other old
      · rw [List.mem_singleton.mp last]
        exact below

theorem request_fails (reached : Reached values done m) {r : TableRequest}
    (fails : m.request r = none) :
    (∃ type, r = .type type ∧ 2 ^ 31 ≤ m.types.typeList.length ∧
        (type.isFunction = true ∨ type ∉ m.types.typeList)) ∨
      ∃ node, r = .node node ∧ 2 ^ 31 ≤ m.metadata.mdnodeList.length + 1 ∧
        node ∉ m.metadata.mdnodeList := by
  cases r with
  | type type =>
    have none : m.types.request type = none := by
      cases answer : m.types.request type with
      | none => rfl
      | some answer' => rw [request, answer] at fails; cases fails
    exact Or.inl ⟨type, rfl, (TypeTable.request_answers reached.caches type).2 none⟩
  | node node =>
    have none : m.metadata.request node = none := by
      cases answer : m.metadata.request node with
      | none => rfl
      | some answer' => rw [request, answer] at fails; cases fails
    exact Or.inr ⟨node, rfl, MetadataTable.request_fails none⟩
  | namedNode n => cases fails

end Step

/-! ## Whole runs -/

section Runs

variable {values : DxilModule} {m m' : Tables}

theorem requests_append {done rs : List TableRequest} {answers : List (Option Nat)}
    (ran : m.requests (done ++ rs) = some (answers, m')) :
    ∃ before first rest, m.requests done = some (first, before) ∧
      before.requests rs = some (rest, m') ∧ answers = first ++ rest ∧
      first.length = done.length := by
  induction done generalizing m answers with
  | nil => exact ⟨m, [], answers, rfl, ran, rfl, rfl⟩
  | cons r done inductionHypothesis =>
    rcases Option.bind_eq_some_iff.mp ran with ⟨⟨answer, next⟩, isAnswer, ran⟩
    rcases Option.bind_eq_some_iff.mp ran with ⟨⟨answers', last⟩, ran, same⟩
    cases same
    rcases inductionHypothesis ran with ⟨before, first, rest, ranFirst, ranRest, rfl, length⟩
    refine ⟨before, answer :: first, rest, ?_, ranRest, rfl, congrArg (· + 1) length⟩
    simp only [requests, isAnswer, ranFirst, Option.bind_eq_bind, Option.bind_some]

theorem Legal.left {done rs : List TableRequest} (legal : Legal values m (done ++ rs)) :
    Legal values m done := by
  induction done generalizing m with
  | nil => exact trivial
  | cons r done inductionHypothesis =>
    refine ⟨legal.1, ?_⟩
    intro answer next isAnswer
    exact inductionHypothesis (legal.2 answer next isAnswer)

theorem Legal.append {done rs : List TableRequest} (legal : Legal values m (done ++ rs))
    {answers : List (Option Nat)} (ran : m.requests done = some (answers, m')) :
    Legal values m' rs := by
  induction done generalizing m answers with
  | nil =>
    cases ran
    exact legal
  | cons r done inductionHypothesis =>
    rcases Option.bind_eq_some_iff.mp ran with ⟨⟨answer, next⟩, isAnswer, ran⟩
    rcases Option.bind_eq_some_iff.mp ran with ⟨⟨answers', last⟩, ran, same⟩
    cases same
    exact inductionHypothesis (legal.2 answer next isAnswer) ran

theorem requests_reached {done rs : List TableRequest} (reached : Reached values done m)
    (legal : Legal values m rs) {answers : List (Option Nat)}
    (ran : m.requests rs = some (answers, m')) :
    Reached values (done ++ rs) m' ∧ Grows m m' ∧
      ∀ (i : Nat) (r : TableRequest), rs[i]? = some r →
        ∃ answer, answers[i]? = some answer ∧ m'.Holds answer r := by
  induction rs generalizing m done answers with
  | nil =>
    cases ran
    rw [List.append_nil]
    exact ⟨reached, Grows.refl _, nofun⟩
  | cons r rs inductionHypothesis =>
    rcases Option.bind_eq_some_iff.mp ran with ⟨⟨answer, next⟩, isAnswer, ran⟩
    rcases Option.bind_eq_some_iff.mp ran with ⟨⟨answers', last⟩, ran, same⟩
    cases same
    have stepped := request_stepped reached legal.1 isAnswer
    rcases inductionHypothesis stepped.reached (legal.2 answer next isAnswer) ran with
      ⟨reached', grows, holds⟩
    rw [List.append_assoc, List.singleton_append] at reached'
    refine ⟨reached', stepped.grows.trans grows, ?_⟩
    intro i other isOther
    cases i with
    | zero =>
      cases isOther
      exact ⟨answer, rfl, stepped.holds.mono grows⟩
    | succ i => exact holds i other isOther

theorem request_at {rs done rest : List TableRequest} {r : TableRequest}
    (legal : Legal values ({} : Tables) rs) {answers : List (Option Nat)}
    (ran : requests {} rs = some (answers, m)) (split : rs = done ++ r :: rest) :
    ∃ (before after : Tables) (answer : Option Nat),
      requests {} done = some (answers.take done.length, before) ∧
      before.request r = some (answer, after) ∧ answers[done.length]? = some answer ∧
      Reached values done before ∧ Stepped values done r before answer after := by
  subst split
  rcases requests_append ran with ⟨before, first, later, ranFirst, ranRest, rfl, length⟩
  rcases Option.bind_eq_some_iff.mp ranRest with ⟨⟨answer, after⟩, isAnswer, ranRest⟩
  rcases Option.bind_eq_some_iff.mp ranRest with ⟨⟨answers', last⟩, -, same⟩
  cases same
  have legal' := legal.append ranFirst
  have reached := (requests_reached (reached_empty values) legal.left ranFirst).1
  rw [List.nil_append] at reached
  refine ⟨before, after, answer, ?_, isAnswer, ?_, reached,
    request_stepped reached legal'.1 isAnswer⟩
  · rw [← length, List.take_left]
    exact ranFirst
  · rw [← length, List.getElem?_append_right (Nat.le_refl _), Nat.sub_self]
    rfl

theorem function_ne {rs : List TableRequest} (legal : Legal values ({} : Tables) rs)
    {answers : List (Option Nat)} (ran : requests {} rs = some (answers, m)) {i j : Nat}
    (earlier : i < j) {type : TypeEntry} (isFunction : type.isFunction = true)
    (isRequest : rs[i]? = some (.type type)) (isRequest' : rs[j]? = some (.type type)) :
    answers[i]? ≠ answers[j]? := by
  have inside := (List.getElem?_eq_some_iff.mp isRequest').1
  have split : rs = rs.take j ++ .type type :: rs.drop (j + 1) := by
    rw [← (List.getElem?_eq_some_iff.mp isRequest').2, List.getElem_cons_drop,
      List.take_append_drop]
  have length : (rs.take j).length = j := List.length_take_of_le inside.le
  rcases request_at legal ran split with ⟨before, after, answer, ranBefore, -, isAnswer, -, stepped⟩
  rw [length] at ranBefore isAnswer
  have legalBefore : Legal values ({} : Tables) (rs.take j) := (split ▸ legal).left
  have isRequest'' : (rs.take j)[i]? = some (.type type) := by
    rw [List.getElem?_take_of_lt earlier, isRequest]
  rcases (requests_reached (reached_empty values) legalBefore ranBefore).2.2 i _ isRequest'' with
    ⟨answer', isAnswer', id, rfl, isType⟩
  rw [List.getElem?_take_of_lt earlier] at isAnswer'
  rw [isAnswer, isAnswer', stepped.unshared type rfl isFunction]
  intro same
  rw [Option.some.injEq, Option.some.injEq] at same
  have below := (List.getElem?_eq_some_iff.mp isType).1
  omega

end Runs

end Tables

/-! ## Types that are equal -/

namespace TablesFit

variable {rs : List TableRequest}

theorem type?_eq_some {r : TableRequest} {type : TypeEntry} :
    r.type? = some type ↔ r = .type type := by
  cases r <;> simp [TableRequest.type?]

theorem mem_types {type : TypeEntry} :
    type ∈ rs.filterMap TableRequest.type? ↔ .type type ∈ rs := by
  rw [List.mem_filterMap]
  constructor
  · rintro ⟨r, member, isType⟩
    exact type?_eq_some.mp isType ▸ member
  · intro member
    exact ⟨_, member, rfl⟩

theorem mem_nodes {node : MdNode} : node ∈ rs.filterMap TableRequest.node? ↔ .node node ∈ rs := by
  rw [List.mem_filterMap]
  constructor
  · rintro ⟨r, member, isNode⟩
    cases r <;> cases isNode
    exact member
  · intro member
    exact ⟨_, member, rfl⟩

theorem mem_named {n : NamedNode} :
    n ∈ rs.filterMap TableRequest.namedNode? ↔ .namedNode n ∈ rs := by
  rw [List.mem_filterMap]
  constructor
  · rintro ⟨r, member, isNode⟩
    cases r <;> cases isNode
    exact member
  · intro member
    exact ⟨_, member, rfl⟩

theorem nodup_functions (functions : ∀ (i j : Nat) (type : TypeEntry), type.isFunction = true →
    rs[i]? = some (.type type) → rs[j]? = some (.type type) → i = j) :
    ((rs.filterMap TableRequest.type?).filter TypeEntry.isFunction).Nodup := by
  rw [List.nodup_iff_pairwise_ne, List.pairwise_filter, List.pairwise_filterMap,
    List.pairwise_iff_getElem]
  intro i j inside inside' earlier type isType type' isType' isFunction _ same
  subst same
  rw [type?_eq_some] at isType isType'
  have equal := functions i j type isFunction (List.getElem?_eq_some_iff.mpr ⟨inside, isType⟩)
    (List.getElem?_eq_some_iff.mpr ⟨inside', isType'⟩)
  omega

theorem prefix_length_le {α : Type} [DecidableEq α] {list list' : List α} (sub : list ⊆ list') :
    list.dedup.length ≤ list'.dedup.length := by
  apply List.Subperm.length_le
  apply List.Nodup.subperm (List.nodup_dedup _)
  intro a member
  rw [List.mem_dedup] at member ⊢
  exact sub member

end TablesFit

namespace Tables

variable {values : DxilModule} {m : Tables}

theorem exists_requests {done rs : List TableRequest} (reached : Reached values done m)
    (legal : Legal values m rs) (fits : TablesFit (done ++ rs)) :
    ∃ answers m', m.requests rs = some (answers, m') := by
  induction rs generalizing m done with
  | nil => exact ⟨[], m, rfl⟩
  | cons r rs inductionHypothesis =>
    have inAll : ∀ other ∈ done ++ [r], other ∈ done ++ r :: rs := by
      intro other member
      rw [List.mem_append, List.mem_singleton] at member
      rw [List.mem_append, List.mem_cons]
      rcases member with old | rfl
      · exact Or.inl old
      · exact Or.inr (Or.inl rfl)
    cases answered : m.request r with
    | none =>
      rcases request_fails reached answered with ⟨type, rfl, full, isNew⟩ | ⟨node, rfl, full, isNew⟩
      · -- the new type would be one more than there are different requests
        have more := reached.types.created isNew
        have sub : List.Sublist (done ++ [TableRequest.type type]) (done ++ .type type :: rs) := by
          apply List.Sublist.append_left
          exact List.singleton_sublist.mpr List.mem_cons_self
        have once := (TablesFit.nodup_functions fits.functions).sublist
          ((sub.filterMap TableRequest.type?).filter TypeEntry.isFunction)
        rw [List.filterMap_append] at once
        have length := more.length_eq once
        have bound : (done.filterMap TableRequest.type? ++ [type]).dedup.length ≤
            ((done ++ .type type :: rs).filterMap TableRequest.type?).dedup.length := by
          apply TablesFit.prefix_length_le
          intro other member
          rw [TablesFit.mem_types]
          apply inAll
          rw [← TablesFit.mem_types, List.filterMap_append]
          exact member
        have count := fits.typeCount
        rw [List.length_append, List.length_singleton] at length
        omega
      · have more := reached.nodes.created (Or.inr isNew)
        have length := more.length_eq (by simp)
        have bound : (done.filterMap TableRequest.node? ++ [node]).dedup.length ≤
            ((done ++ .node node :: rs).filterMap TableRequest.node?).dedup.length := by
          apply TablesFit.prefix_length_le
          intro other member
          rw [TablesFit.mem_nodes]
          apply inAll
          rw [← TablesFit.mem_nodes, List.filterMap_append]
          exact member
        have count := fits.nodeCount
        rw [List.length_append, List.length_singleton] at length
        omega
    | some result =>
      rcases result with ⟨answer, next⟩
      have stepped := request_stepped reached legal.1 answered
      rw [← List.singleton_append, ← List.append_assoc] at fits
      rcases inductionHypothesis stepped.reached (legal.2 answer next answered) fits with
        ⟨answers, m', ran⟩
      refine ⟨answer :: answers, m', ?_⟩
      simp only [requests, answered, ran, Option.bind_eq_bind, Option.bind_some]

theorem id_unique {rs : List TableRequest} (reached : Reached values rs m)
    (functions : ∀ (i j : Nat) (type : TypeEntry), type.isFunction = true →
      rs[i]? = some (.type type) → rs[j]? = some (.type type) → i = j) {id id' : Nat}
    {type : TypeEntry} (isType : m.types.typeList[id]? = some type)
    (isType' : m.types.typeList[id']? = some type) : id = id' := by
  have nodup := reached.types.nodup (TablesFit.nodup_functions functions)
  have inside := (List.getElem?_eq_some_iff.mp isType).1
  exact (List.getElem?_inj inside nodup).mp (isType.trans isType'.symm)

theorem eq_of_zip_all {same : Nat → Nat → Bool}
    (unique : ∀ lhs rhs, same lhs rhs = true → lhs = rhs)
    {list list' : List Nat} (length : list.length = list'.length)
    (all : ((list.zip list').all fun (l, r) => same l r) = true) : list = list' := by
  induction list generalizing list' with
  | nil =>
    cases list' with
    | nil => rfl
    | cons r list' => cases length
  | cons l list inductionHypothesis =>
    cases list' with
    | nil => cases length
    | cons r list' =>
      rw [List.zip_cons_cons, List.all_cons, Bool.and_eq_true] at all
      rw [unique l r all.1, inductionHypothesis (Nat.succ.inj length) all.2]

theorem typesEqual_self (types : List TypeEntry) (depth id : Nat) :
    typesEqual types depth id id = true := by
  cases depth <;> simp [typesEqual]

theorem zip_all_self (types : List TypeEntry) (depth : Nat) (list : List Nat) :
    ((list.zip list).all fun (l, r) => typesEqual types depth l r) = true := by
  induction list with
  | nil => rfl
  | cons id list inductionHypothesis =>
    rw [List.zip_cons_cons, List.all_cons, inductionHypothesis, Bool.and_true]
    exact typesEqual_self types depth id

theorem eq_of_typesEqual {rs : List TableRequest} (reached : Reached values rs m)
    (functions : ∀ (i j : Nat) (type : TypeEntry), type.isFunction = true →
      rs[i]? = some (.type type) → rs[j]? = some (.type type) → i = j) (apart : StructsApart rs)
    {depth lhs rhs : Nat} (equal : typesEqual m.types.typeList depth lhs rhs = true) :
    lhs = rhs := by
  have requested : ∀ {id : Nat} {type : TypeEntry}, m.types.typeList[id]? = some type →
      .type type ∈ rs := by
    intro id type isType
    rw [← TablesFit.mem_types, ← reached.types.mem]
    exact List.mem_of_getElem? isType
  induction depth generalizing lhs rhs with
  | zero => exact of_decide_eq_true equal
  | succ depth inductionHypothesis =>
    rw [typesEqual, Bool.or_eq_true] at equal
    rcases equal with equal | equal
    · exact of_decide_eq_true equal
    · have unique : ∀ l r, typesEqual m.types.typeList depth l r = true → l = r :=
        fun l r same => inductionHypothesis same
      split at equal
      case h_1 isType isType' => exact id_unique reached functions isType isType'
      case h_2 type type' isType isType' =>
        have same : type = type' := by
          cases type <;> cases type' <;> first | rfl | cases of_decide_eq_true equal
        subst same
        exact id_unique reached functions isType isType'
      case h_3 type type' isType isType' =>
        have same : type = type' := by
          cases type <;> cases type' <;> first | rfl | cases of_decide_eq_true equal
        subst same
        exact id_unique reached functions isType isType'
      case h_4 target target' isType isType' =>
        rw [unique _ _ equal] at isType
        exact id_unique reached functions isType isType'
      case h_5 elem num elem' num' isType isType' =>
        rw [Bool.and_eq_true] at equal
        rw [of_decide_eq_true equal.1, unique _ _ equal.2] at isType
        exact id_unique reached functions isType isType'
      case h_6 elem num elem' num' isType isType' =>
        rw [Bool.and_eq_true] at equal
        rw [of_decide_eq_true equal.1, unique _ _ equal.2] at isType
        exact id_unique reached functions isType isType'
      case h_7 ret args ret' args' isType isType' =>
        rw [Bool.and_eq_true, Bool.and_eq_true] at equal
        rw [unique _ _ equal.1,
          eq_of_zip_all unique (of_decide_eq_true equal.2.1) equal.2.2] at isType
        exact id_unique reached functions isType isType'
      case h_8 name elem name' elem' isType isType' =>
        rw [Bool.and_eq_true] at equal
        rw [eq_of_zip_all unique (of_decide_eq_true equal.1) equal.2] at isType
        rw [apart _ _ _ (requested isType) (requested isType')] at isType
        exact id_unique reached functions isType isType'
      case h_9 => cases equal

section Rebuilt

variable {ids : Ids} {rs : List TableRequest} {answers : List (Option Nat)}

theorem rebuilt_of_fits (room : values.valueIdAtFunctionsStart < 2 ^ 31)
    (legal : Legal values ({} : Tables) rs) (ran : requests {} rs = some (answers, m))
    (fits : TablesFit rs) : m.Rebuilt values values.globalIds rs answers := by
  rcases requests_reached (reached_empty values) legal ran with ⟨reached, -, holds⟩
  rw [List.nil_append] at reached
  have count := fits.typeCount
  rw [← reached.types.length_eq (TablesFit.nodup_functions fits.functions)] at count
  refine ⟨?_, holds, reached.backward, ?_, ?_, ?_⟩
  · intro done r rest split
    rcases request_at legal ran split with
      ⟨before, after, answer, ranBefore, isRequest, isAnswer, -, stepped⟩
    exact ⟨before, after, answer, ranBefore, isRequest, isAnswer, stepped.numbers⟩
  · apply readsTypeTable_of_fits count
    · intro type member
      rcases List.getElem?_of_mem member with ⟨id, isType⟩
      have below := reached.backward.types id type isType
      have inside := (List.getElem?_eq_some_iff.mp isType).1
      exact ⟨fun other isRef => Nat.lt_trans (below.refs other isRef) inside, below.count⟩
    · intro type member
      exact fits.types type (TablesFit.mem_types.mp ((reached.types.mem type).mp member))
  · apply readsMetadata_of_fits room reached.typeCount reached.nodeCount
    · intro node member
      rcases List.getElem?_of_mem member with ⟨index, isNode⟩
      have below := reached.backward.nodes index node isNode
      exact below_mono below (Nat.le_refl _) (List.getElem?_eq_some_iff.mp isNode).1.le
    · exact reached.backward.named
    · intro node member
      exact fits.nodes node (TablesFit.mem_nodes.mp ((reached.nodes.mem node).mp member))
    · intro n member
      rw [reached.named] at member
      exact fits.named n (TablesFit.mem_named.mp member)
  · intro i j type isRequest isRequest'
    rcases holds i _ isRequest with ⟨answer, isAnswer, id, rfl, isType⟩
    rcases holds j _ isRequest' with ⟨answer', isAnswer', id', rfl, isType'⟩
    rw [isAnswer, isAnswer', id_unique reached fits.functions isType isType']

theorem fits_of_rebuilt (legal : Legal values ({} : Tables) rs)
    (ran : requests {} rs = some (answers, m)) (rebuilt : m.Rebuilt values ids rs answers) :
    TablesFit rs := by
  have reached := (requests_reached (reached_empty values) legal ran).1
  rw [List.nil_append] at reached
  have functions : ∀ (i j : Nat) (type : TypeEntry), type.isFunction = true →
      rs[i]? = some (.type type) → rs[j]? = some (.type type) → i = j := by
    intro i j type isFunction isRequest isRequest'
    have same := rebuilt.shared i j type isRequest isRequest'
    rcases Nat.lt_trichotomy i j with earlier | equal | later
    · exact absurd same (function_ne legal ran earlier isFunction isRequest isRequest')
    · exact equal
    · exact absurd same.symm (function_ne legal ran later isFunction isRequest' isRequest)
  rcases fits_of_readsMetadata rebuilt.metadata with ⟨nodes, named⟩
  refine ⟨functions, ?_, ?_, ?_, ?_, ?_⟩
  · rw [← reached.types.length_eq (TablesFit.nodup_functions functions)]
    exact count_of_readsTypeTable rebuilt.types reached.typeCount
  · rw [← reached.nodes.length_eq (by simp)]
    exact reached.nodeCount
  · intro type member
    apply fits_of_readsTypeTable rebuilt.types
    rw [reached.types.mem, TablesFit.mem_types]
    exact member
  · intro node member
    apply nodes
    rw [reached.nodes.mem, TablesFit.mem_nodes]
    exact member
  · intro n member
    apply named
    rw [reached.named, TablesFit.mem_named]
    exact member

/-- Structs of different names and the same elements are two types that are taken for one. -/
theorem structsApart_of_shared (legal : Legal values ({} : Tables) rs)
    (ran : requests {} rs = some (answers, m)) (shared : EqualTypesShared rs) :
    StructsApart rs := by
  have reached := (requests_reached (reached_empty values) legal ran).1
  rw [List.nil_append] at reached
  intro name name' elem member member'
  rw [← TablesFit.mem_types, ← reached.types.mem] at member member'
  rcases List.getElem?_of_mem member with ⟨id, isType⟩
  rcases List.getElem?_of_mem member' with ⟨id', isType'⟩
  have equal : typesEqual m.types.typeList 1 id id' = true := by
    rw [typesEqual, isType, isType', Bool.or_eq_true, Bool.and_eq_true]
    exact Or.inr ⟨decide_eq_true rfl, zip_all_self m.types.typeList 0 elem⟩
  rw [shared answers m ran 1 id id' equal, isType', Option.some.injEq,
    TypeEntry.struct.injEq] at isType
  exact isType.1.symm

end Rebuilt

end Tables

theorem globalIds_of_assignValues {values : DxilModule} {assigned : Ids × List (List Nat)}
    (numbered : values.assignValues = some assigned) :
    values.valueIdAtFunctionsStart < 2 ^ 31 ∧ assigned.1 = values.globalIds := by
  rcases values.assignValues_fits numbered with ⟨room, rooms⟩
  refine ⟨room, ?_⟩
  rw [values.assignValues_eq room rooms, Option.some.injEq] at numbered
  rw [← numbered]

theorem rebuildsTables_iff {values : DxilModule} {assigned : Ids × List (List Nat)}
    (numbered : values.assignValues = some assigned) {rs : List TableRequest}
    (legal : Tables.Legal values {} rs) :
    (RebuildsTables values assigned.1 rs ↔ TablesFit rs) ∧
      (RebuildsTables values assigned.1 rs ∧ EqualTypesShared rs ↔
        TablesFit rs ∧ StructsApart rs) := by
  rcases globalIds_of_assignValues numbered with ⟨room, isIds⟩
  have rebuilds : RebuildsTables values assigned.1 rs ↔ TablesFit rs := by
    constructor
    · rintro ⟨answers, m, ran, rebuilt⟩
      exact Tables.fits_of_rebuilt legal ran rebuilt
    · intro fits
      rcases Tables.exists_requests (Tables.reached_empty values) legal fits with ⟨answers, m, ran⟩
      rw [isIds]
      exact ⟨answers, m, ran, Tables.rebuilt_of_fits room legal ran fits⟩
  refine ⟨rebuilds, ?_⟩
  constructor
  · rintro ⟨rebuilt, shared⟩
    rcases rebuilt with ⟨answers, m, ran, rebuilt⟩
    refine ⟨Tables.fits_of_rebuilt legal ran rebuilt, ?_⟩
    exact Tables.structsApart_of_shared legal ran shared
  · rintro ⟨fits, apart⟩
    refine ⟨rebuilds.mpr fits, ?_⟩
    intro answers m ran depth lhs rhs equal
    have reached := (Tables.requests_reached (Tables.reached_empty values) legal ran).1
    exact Tables.eq_of_typesEqual reached fits.functions apart equal

/-- A module with one constant, and requests of every kind that end in a named node. -/
def namedRequests : List TableRequest :=
  [.type .void, .type (.function 0 []), .type (.integer .int32), .type (.struct (some [0x73]) [2]),
    .node (.string [0x61]), .node (.value 2 (.const 0)), .node (.node [none, some 2]),
    .namedNode ⟨[0x62], [3]⟩]

theorem legal_namedRequests {values : DxilModule} (one : values.consts.length = 1) :
    Tables.Legal values {} namedRequests := by
  refine ⟨⟨nofun, by simp⟩, ?_⟩
  rintro _ _ ⟨⟩
  refine ⟨⟨by decide, by simp⟩, ?_⟩
  rintro _ _ ⟨⟩
  refine ⟨⟨nofun, by simp⟩, ?_⟩
  rintro _ _ ⟨⟩
  refine ⟨⟨by decide, by simp⟩, ?_⟩
  rintro _ _ ⟨⟩
  refine ⟨⟨nofun, nofun⟩, ?_⟩
  rintro _ _ ⟨⟩
  refine ⟨⟨?_, nofun⟩, ?_⟩
  · rintro _ _ ⟨⟩
    refine ⟨by decide, ?_⟩
    rw [DxilModule.Defines, one]
    exact Nat.one_pos
  rintro _ _ ⟨⟩
  refine ⟨⟨nofun, ?_⟩, ?_⟩
  · rintro _ ⟨⟩ id inside
    simp only [List.mem_cons, Option.some.injEq, List.not_mem_nil, or_false] at inside
    rcases inside with inside | rfl
    · cases inside
    · decide
  rintro _ _ ⟨⟩
  refine ⟨⟨by decide⟩, ?_⟩
  rintro _ _ ⟨⟩
  exact trivial

theorem rebuildsTables_iff_named :
    RebuildsTables ⟨[], [], [], [⟨0, .int 5⟩], []⟩ ⟨[], [], [0], []⟩ namedRequests := by
  have fits : TablesFit namedRequests := by
    refine ⟨?_, by decide, by decide, ?_, ?_, ?_⟩
    · intro i j type isFunction isRequest isRequest'
      have inside := (List.getElem?_eq_some_iff.mp isRequest).1
      have inside' := (List.getElem?_eq_some_iff.mp isRequest').1
      simp only [namedRequests, List.length_cons, List.length_nil] at inside inside'
      interval_cases i <;> cases isRequest <;> first
        | (cases isFunction; done)
        | (interval_cases j <;> first | rfl | cases isRequest')
    · intro type member
      simp only [namedRequests, List.mem_cons, TableRequest.type.injEq, reduceCtorEq,
        List.not_mem_nil, or_false] at member
      rcases member with rfl | rfl | rfl | rfl
      · exact trivial
      · exact Nat.zero_le _
      · exact trivial
      · refine ⟨by decide, ?_⟩
        rintro _ ⟨⟩
        decide
    · intro node member
      simp only [namedRequests, List.mem_cons, TableRequest.node.injEq, reduceCtorEq, false_or,
        List.not_mem_nil, or_false] at member
      rcases member with rfl | rfl | rfl
      · exact Nat.le_of_ble_eq_true rfl
      · exact trivial
      · exact Nat.le_of_ble_eq_true rfl
    · intro n member
      simp only [namedRequests, List.mem_cons, TableRequest.namedNode.injEq, reduceCtorEq, false_or,
        List.not_mem_nil, or_false] at member
      subst member
      refine ⟨by decide, ?_, by decide⟩
      intro ch isName
      rw [List.mem_singleton.mp isName]
      exact Nat.le_of_ble_eq_true rfl
  have legal : Tables.Legal ⟨[], [], [], [⟨0, .int 5⟩], []⟩ {} namedRequests :=
    legal_namedRequests rfl
  exact (@rebuildsTables_iff _ (⟨[], [], [0], []⟩, []) rfl _ legal).1.mpr fits

/-- The type of a function without arguments, added twice. -/
theorem not_rebuildsTables_functions :
    ¬ ∀ (values : DxilModule) (assigned : Ids × List (List Nat)),
      values.assignValues = some assigned → ∀ rs : List TableRequest, Tables.Legal values {} rs →
      RebuildsTables values assigned.1 rs := by
  intro all
  have legal : Tables.Legal ⟨[], [], [], [], []⟩ {}
      [.type .void, .type (.function 0 []), .type (.function 0 [])] := by
    refine ⟨⟨nofun, by simp⟩, ?_⟩
    rintro _ _ ⟨⟩
    refine ⟨⟨by decide, by simp⟩, ?_⟩
    rintro _ _ ⟨⟩
    refine ⟨⟨by decide, by simp⟩, ?_⟩
    rintro _ _ ⟨⟩
    exact trivial
  rcases all ⟨[], [], [], [], []⟩ (⟨[], [], [], []⟩, []) rfl _ legal with ⟨answers, m, ran, rebuilt⟩
  have fits := Tables.fits_of_rebuilt legal ran rebuilt
  cases fits.functions 1 2 (.function 0 []) rfl rfl rfl

end SpirvToDxil
