import SpirvToDxil.Dxil.Module.Lockstep
import SpirvToDxil.Dxil.Module.TypeTable

/-!
# The metadata block

Metadata nodes are interned like types, with ids that start at 1: id 0 is the null
node. Named nodes follow behind all others and refer to them from 0 on.
-/

namespace SpirvToDxil

open Bitstream

/-- `struct dxil_mdnode`: another node is its `id`, and null is `none`. -/
inductive MdNode where
  | string (string : List UInt8)
  | value (type : Nat) (value : Value)
  | node (subnodes : List (Option Nat))
  deriving DecidableEq, Repr

structure NamedNode where
  name : List UInt8
  subnodes : List Nat
  deriving DecidableEq, Repr

structure MetadataTable where
  mdnodeList : List MdNode := []
  mdNamedNodeList : List NamedNode := []

namespace MetadataTable

/-- The `id` is an `int`, and zero is reserved for null nodes. -/
def createMdnode (m : MetadataTable) (node : MdNode) : Option (Nat × MetadataTable) :=
  if m.mdnodeList.length + 1 < 2 ^ 31 then
    some (m.mdnodeList.length + 1, { m with mdnodeList := m.mdnodeList ++ [node] })
  else none

def findOrCreate (m : MetadataTable) (node : MdNode) : Option (Nat × MetadataTable) :=
  match m.mdnodeList.findIdx? (· = node) with
  | some index => some (index + 1, m)
  | none => m.createMdnode node

def getMetadataString (m : MetadataTable) (str : List UInt8) : Option (Nat × MetadataTable) :=
  m.findOrCreate (.string str)

def getMetadataValue (m : MetadataTable) (type : Nat) (value : Value) :
    Option (Nat × MetadataTable) :=
  m.findOrCreate (.value type value)

def getMetadataNode (m : MetadataTable) (subnodes : List (Option Nat)) :
    Option (Nat × MetadataTable) :=
  m.findOrCreate (.node subnodes)

def addMetadataNamedNode (m : MetadataTable) (name : List UInt8) (subnodes : List Nat) :
    MetadataTable :=
  { m with mdNamedNodeList := m.mdNamedNodeList ++ [⟨name, subnodes⟩] }

def request (m : MetadataTable) : MdNode → Option (Nat × MetadataTable)
  | .string str => m.getMetadataString str
  | .value type value => m.getMetadataValue type value
  | .node subnodes => m.getMetadataNode subnodes

end MetadataTable

/-! ## Emission -/

def METADATA_STRING : Nat := 1
def METADATA_VALUE : Nat := 2
def METADATA_NODE : Nat := 3
def METADATA_NAME : Nat := 4
def METADATA_NAMED_NODE : Nat := 10

inductive MetadataAbbrevId where
  | string
  | name
  deriving DecidableEq, Repr

def MetadataAbbrevId.index : MetadataAbbrevId → Nat
  | string => 0
  | name => 1

def metadataAbbrevs : MetadataAbbrevId → DxilAbbrev
  | .string => { operands := [.literal METADATA_STRING, .array, .fixed 8] }
  | .name => { operands := [.literal METADATA_NAME, .array, .fixed 8] }

def emitMetadataAbbrevs : List WriterCall :=
  [.defineAbbrev (metadataAbbrevs .string), .defineAbbrev (metadataAbbrevs .name)]

def emitMetadataAbbrevRecord (abbrevId : MetadataAbbrevId) (data : List Nat) : WriterCall :=
  .emitRecordAbbrev (abbrevId.index + DXIL_FIRST_APPLICATION_ABBREV) (metadataAbbrevs abbrevId) data

def emitMetadataValue (ids : Ids) (type : Nat) (value : Value) : Option WriterCall := do
  let id ← ids.of? value
  some (.emitRecordNoAbbrev METADATA_VALUE [type, id])

def emitMetadataString (str : List UInt8) : Option WriterCall := do
  let data ← localArray 256 (METADATA_STRING :: str.map UInt8.toNat)
  some (emitMetadataAbbrevRecord .string data)

def emitMetadataNode (subnodes : List (Option Nat)) : Option WriterCall := do
  let data ← localArray 256 (subnodes.map fun subnode => subnode.getD 0)
  some (.emitRecordNoAbbrev METADATA_NODE data)

def emitMdnode (ids : Ids) : MdNode → Option WriterCall
  | .string string => emitMetadataString string
  | .value type value => emitMetadataValue ids type value
  | .node subnodes => emitMetadataNode subnodes

/-- The characters are not cast to `uint8_t` first, as those of a string are. -/
def emitMetadataName (name : List UInt8) : Option WriterCall := do
  let data ← localArray 256 (METADATA_NAME :: name.map charToU64)
  some (emitMetadataAbbrevRecord .name data)

def emitMetadataNamedNode (n : NamedNode) : Option (List WriterCall) := do
  let data ← localArray 256 (n.subnodes.map (· - 1))
  let name ← emitMetadataName n.name
  some [name, .emitRecordNoAbbrev METADATA_NAMED_NODE data]

/-- What `emit_metadata` writes inside its block. -/
def emitMetadata (ids : Ids) (m : MetadataTable) : Option (List WriterCall) := do
  let nodes ← m.mdnodeList.mapM (emitMdnode ids)
  let named ← m.mdNamedNodeList.mapM emitMetadataNamedNode
  some (emitMetadataAbbrevs ++ (nodes ++ named.flatten))

/-! ## Reading the block -/

/-- The node that a record stands for; a value is looked up by its number. -/
def readMdNode (table : List Value) (record : CodedRecord) : Option MdNode :=
  match record.1, record.2 with
  | 1, data => some (.string (readString data))
  | 2, [type, id] => (lookup table id).map (.value type)
  | 3, ids => some (.node (ids.map fun id => if id = 0 then none else some id))
  | _, _ => none

def readMetadata (table : List Value) :
    Option (List UInt8) → List CodedRecord → Option MetadataTable
  | _, [] => some {}
  | name, record :: records =>
    if record.1 = METADATA_NAME then readMetadata table (some (readString record.2)) records
    else if record.1 = METADATA_NAMED_NODE then do
      let name ← name
      let m ← readMetadata table none records
      some { m with mdNamedNodeList := ⟨name, record.2.map (· + 1)⟩ :: m.mdNamedNodeList }
    else do
      let node ← readMdNode table record
      let m ← readMetadata table none records
      some { m with mdnodeList := node :: m.mdnodeList }

/-- What `emit_metadata` writes can be written in the metadata block, and is read as the
nodes it was written for. -/
def ReadsMetadata (ids : Ids) (table : List Value) (m : MetadataTable) : Prop :=
  ∃ calls, emitMetadata ids m = some calls ∧
    ∀ scope : Scope, scope.blockId = some DXIL_METADATA_BLOCK → scope.abbrevs = [] →
      ∃ contents inner, Nested scope calls contents inner ∧
        readMetadata table none (recordsOf contents) = some m

/-! ## Answers -/

/-- A node is answered like a type that is shared, one id higher. -/
inductive MdAnswered (nodes : List MdNode) (node : MdNode) : Nat → List MdNode → Prop where
  | found {index : Nat} : nodes.findIdx? (· = node) = some index →
      MdAnswered nodes node (index + 1) nodes
  | created : nodes.length + 1 < 2 ^ 31 → node ∉ nodes →
      MdAnswered nodes node (nodes.length + 1) (nodes ++ [node])

namespace MetadataTable

theorem request_eq (m : MetadataTable) (node : MdNode) : m.request node = m.findOrCreate node := by
  cases node <;> rfl

theorem request_answered {m m' : MetadataTable} {node : MdNode} {id : Nat}
    (answer : m.request node = some (id, m')) :
    MdAnswered m.mdnodeList node id m'.mdnodeList ∧ m'.mdNamedNodeList = m.mdNamedNodeList := by
  rw [request_eq, findOrCreate] at answer
  split at answer
  · next index isFirst =>
    cases answer
    exact ⟨.found isFirst, rfl⟩
  · next missing =>
    rw [createMdnode] at answer
    split at answer
    · next room =>
      cases answer
      refine ⟨.created room ?_, rfl⟩
      intro member
      rw [List.findIdx?_eq_none_iff] at missing
      exact of_decide_eq_false (missing node member) rfl
    · cases answer

theorem request_fails {m : MetadataTable} {node : MdNode} (fails : m.request node = none) :
    2 ^ 31 ≤ m.mdnodeList.length + 1 ∧ node ∉ m.mdnodeList := by
  rw [request_eq, findOrCreate] at fails
  split at fails
  · cases fails
  · next missing =>
    rw [createMdnode] at fails
    split at fails
    · cases fails
    · next full =>
      refine ⟨Nat.le_of_not_lt full, ?_⟩
      intro member
      rw [List.findIdx?_eq_none_iff] at missing
      exact of_decide_eq_false (missing node member) rfl

end MetadataTable

/-! ## Reading what was emitted -/

def MdNode.Fits : MdNode → Prop
  | string str => str.length ≤ 255
  | value _ _ => True
  | node subnodes => subnodes.length ≤ 256

structure NamedNode.Fits (n : NamedNode) : Prop where
  name : n.name.length ≤ 255
  ascii : ∀ ch ∈ n.name, ch.toNat < 128
  subnodes : n.subnodes.length ≤ 256

def metadataLayouts : List Abbrev :=
  [⟨[.literal METADATA_STRING], some (.fixed 8)⟩, ⟨[.literal METADATA_NAME], some (.fixed 8)⟩]

/-- A node whose members exist: types below the first bound, nodes up to the second. -/
structure MdNode.Below (values : DxilModule) (types nodes : Nat) (node : MdNode) : Prop where
  value : ∀ type value, node = .value type value → type < types ∧ values.Defines [] 0 value
  node : ∀ subnodes, node = .node subnodes → ∀ id, some id ∈ subnodes → 0 < id ∧ id ≤ nodes

structure NamedNode.Below (nodes : Nat) (n : NamedNode) : Prop where
  subnodes : ∀ id ∈ n.subnodes, 0 < id ∧ id ≤ nodes

theorem readString_toNat (str : List UInt8) : readString (str.map UInt8.toNat) = str := by
  rw [readString, List.map_map]
  conv_rhs => rw [← List.map_id str]
  apply List.map_congr_left
  intro ch _
  exact UInt8.ofNat_toNat

section Emitted

variable {values : DxilModule} (room : values.valueIdAtFunctionsStart < 2 ^ 31) {types nodes : Nat}

theorem fits_bytes {code : Nat} (small : code < 2 ^ 64) {data : List Nat}
    (short : (code :: data).length ≤ 256) (bytes : ∀ value ∈ data, value < 2 ^ 8) :
    Abbrev.Conforms [.literal code] (some (.fixed 8)) (code :: data) ∧ Words (code :: data) := by
  refine ⟨⟨rfl, bytes⟩, words_of_le short ?_⟩
  intro value member
  rcases List.mem_cons.mp member with rfl | member
  · exact small
  · exact Nat.lt_trans (bytes value member) (by decide)

include room

theorem emitMdnode_reads (bounded : types ≤ 2 ^ 31) (bounded' : nodes < 2 ^ 31) {node : MdNode}
    (below : node.Below values types nodes) (fits : node.Fits) :
    ∃ call record, emitMdnode values.globalIds node = some call ∧ call.Fits metadataLayouts ∧
      call.record? = some record ∧ record.1 ≠ METADATA_NAME ∧ record.1 ≠ METADATA_NAMED_NODE ∧
      readMdNode values.globalTable record = some node := by
  cases node with
  | string string =>
    have short : (METADATA_STRING :: string.map UInt8.toNat).length ≤ 256 := by
      simp only [MdNode.Fits] at fits
      rw [List.length_cons, List.length_map]
      omega
    have bytes : ∀ value ∈ string.map UInt8.toNat, value < 2 ^ 8 := by
      intro value member
      rcases List.mem_map.mp member with ⟨ch, -, rfl⟩
      exact ch.toNat_lt
    rcases fits_bytes (by decide) short bytes with ⟨conforms, words⟩
    refine ⟨_, _, by rw [emitMdnode, emitMetadataString, localArray_of_le short]; rfl,
      .withAbbrev (by decide) rfl (by decide) rfl conforms words, rfl,
      (by decide : METADATA_STRING ≠ METADATA_NAME),
      (by decide : METADATA_STRING ≠ METADATA_NAMED_NODE), ?_⟩
    exact congrArg (fun str => some (MdNode.string str)) (readString_toNat string)
  | value type value =>
    rcases below.value type value rfl with ⟨inTypes, defined⟩
    rcases @DxilModule.Defines.resolves values ⟨[], [], 0⟩ 0 value defined
        (by simpa using room) with
      ⟨id, resolves, -⟩
    have isEntry : values.globalTable[id]? = some value := by
      have read := resolves.read
      rwa [DxilModule.tableIn, definedInstrs, List.append_nil] at read
    have written : values.globalIds.of? value = some id := resolves.written
    have small := resolves.small
    refine ⟨.emitRecordNoAbbrev METADATA_VALUE [type, id], _,
      by rw [emitMdnode, emitMetadataValue, written]; rfl,
      .noAbbrev (by decide) (words_of_le (by decide : 2 ≤ 256) ?_), rfl,
      (by decide : METADATA_VALUE ≠ METADATA_NAME),
      (by decide : METADATA_VALUE ≠ METADATA_NAMED_NODE), ?_⟩
    · intro value member
      simp only [List.mem_cons, List.not_mem_nil, or_false] at member
      omega
    · exact congrArg (Option.map (MdNode.value type)) (lookup_ofNat isEntry)
  | node subnodes =>
    have short : (subnodes.map fun subnode => subnode.getD 0).length ≤ 256 := by
      rw [List.length_map]
      exact fits
    have exists_ := below.node subnodes rfl
    refine ⟨_, _, by rw [emitMdnode, emitMetadataNode, localArray_of_le short]; rfl,
      .noAbbrev (by decide) (words_of_le short ?_), rfl,
      (by decide : METADATA_NODE ≠ METADATA_NAME),
      (by decide : METADATA_NODE ≠ METADATA_NAMED_NODE), ?_⟩
    · intro value member
      rcases List.mem_map.mp member with ⟨subnode, inside, rfl⟩
      cases subnode with
      | none => exact Nat.two_pow_pos 64
      | some id =>
        have bound := (exists_ id inside).2
        simp only [Option.getD_some]
        omega
    · refine congrArg (fun subnodes => some (MdNode.node subnodes)) ?_
      rw [List.map_map]
      conv_rhs => rw [← List.map_id subnodes]
      apply List.map_congr_left
      intro subnode inside
      cases subnode with
      | none => rfl
      | some id => exact if_neg (exists_ id inside).1.ne'

theorem emitMdnodes_read (bounded : types ≤ 2 ^ 31) (bounded' : nodes < 2 ^ 31)
    {list : List MdNode} (below : ∀ node ∈ list, node.Below values types nodes)
    (fits : ∀ node ∈ list, node.Fits) :
    ∃ calls, list.mapM (emitMdnode values.globalIds) = some calls ∧
      (∀ c ∈ calls, c.Fits metadataLayouts) ∧
      ∀ records m, readMetadata values.globalTable none records = some m →
        readMetadata values.globalTable none (calls.filterMap WriterCall.record? ++ records) =
          some { m with mdnodeList := list ++ m.mdnodeList } := by
  induction list with
  | nil =>
    refine ⟨[], rfl, nofun, ?_⟩
    intro records m read
    exact read
  | cons node list inductionHypothesis =>
    rw [List.forall_mem_cons] at below fits
    rcases emitMdnode_reads room bounded bounded' below.1 fits.1 with
      ⟨call, record, emitted, callFits, isRecord, notName, notNamed, isNode⟩
    rcases inductionHypothesis below.2 fits.2 with ⟨calls, emitted', callsFit, reads⟩
    refine ⟨call :: calls, ?_, ?_, ?_⟩
    · rw [List.mapM_cons, emitted, emitted']
      rfl
    · rw [List.forall_mem_cons]
      exact ⟨callFits, callsFit⟩
    · intro records m read
      rw [List.filterMap_cons_some isRecord, List.cons_append, readMetadata, if_neg notName,
        if_neg notNamed, isNode, reads records m read]
      rfl

end Emitted

theorem emitNamedNode_reads {nodes : Nat} (bounded : nodes < 2 ^ 31) {n : NamedNode}
    (below : n.Below nodes) (fits : n.Fits) {table : List Value} :
    ∃ calls, emitMetadataNamedNode n = some calls ∧ (∀ c ∈ calls, c.Fits metadataLayouts) ∧
      ∀ records m, readMetadata table none records = some m →
        readMetadata table none (calls.filterMap WriterCall.record? ++ records) =
          some { m with mdNamedNodeList := n :: m.mdNamedNodeList } := by
  have bytes : ∀ value ∈ n.name.map charToU64, value < 2 ^ 8 := by
    intro value member
    rcases List.mem_map.mp member with ⟨ch, inside, rfl⟩
    rw [charToU64_of_lt (fits.ascii ch inside)]
    exact ch.toNat_lt
  have short : (METADATA_NAME :: n.name.map charToU64).length ≤ 256 := by
    have few := fits.name
    rw [List.length_cons, List.length_map]
    omega
  have short' : (n.subnodes.map (· - 1)).length ≤ 256 := by
    rw [List.length_map]
    exact fits.subnodes
  rcases fits_bytes (by decide : METADATA_NAME < 2 ^ 64) short bytes with ⟨conforms, words⟩
  refine ⟨[emitMetadataAbbrevRecord .name (METADATA_NAME :: n.name.map charToU64),
    .emitRecordNoAbbrev METADATA_NAMED_NODE (n.subnodes.map (· - 1))], ?_, ?_, ?_⟩
  · rw [emitMetadataNamedNode, emitMetadataName, localArray_of_le short, localArray_of_le short']
    rfl
  · intro c member
    rcases List.mem_pair.mp member with rfl | rfl
    · exact .withAbbrev (by decide) rfl (by decide) rfl conforms words
    · refine .noAbbrev (by decide) (words_of_le short' ?_)
      intro value member
      rcases List.mem_map.mp member with ⟨id, inside, rfl⟩
      have bound := (below.subnodes id inside).2
      omega
  · intro records m read
    have name : (emitMetadataAbbrevRecord .name (METADATA_NAME :: n.name.map charToU64)).record? =
        some (METADATA_NAME, n.name.map charToU64) := rfl
    have node : (WriterCall.emitRecordNoAbbrev METADATA_NAMED_NODE
        (n.subnodes.map (· - 1))).record? =
          some (METADATA_NAMED_NODE, n.subnodes.map (· - 1)) := rfl
    have ids : (n.subnodes.map (· - 1)).map (· + 1) = n.subnodes := by
      rw [List.map_map]
      conv_rhs => rw [← List.map_id n.subnodes]
      apply List.map_congr_left
      intro id inside
      exact Nat.sub_add_cancel (below.subnodes id inside).1
    rw [List.filterMap_cons_some name, List.filterMap_cons_some node, List.cons_append,
      readMetadata,
      if_pos rfl, List.cons_append, readMetadata,
      if_neg (by decide : METADATA_NAMED_NODE ≠ METADATA_NAME), if_pos rfl, readString_charToU64]
    rw [List.filterMap_nil, List.nil_append, read, ids]
    rfl

theorem emitNamedNodes_read {nodes : Nat} (bounded : nodes < 2 ^ 31) {list : List NamedNode}
    (below : ∀ n ∈ list, n.Below nodes) (fits : ∀ n ∈ list, n.Fits) (table : List Value) :
    ∃ calls, list.mapM emitMetadataNamedNode = some calls ∧
      (∀ c ∈ calls.flatten, c.Fits metadataLayouts) ∧
      readMetadata table none (calls.flatten.filterMap WriterCall.record?) =
        some { mdNamedNodeList := list } := by
  induction list with
  | nil => exact ⟨[], rfl, nofun, rfl⟩
  | cons n list inductionHypothesis =>
    rw [List.forall_mem_cons] at below fits
    rcases @emitNamedNode_reads _ bounded n below.1 fits.1 table with ⟨first, emitted, fit, reads⟩
    rcases inductionHypothesis below.2 fits.2 with ⟨calls, emitted', fit', reads'⟩
    refine ⟨first :: calls, ?_, ?_, ?_⟩
    · rw [List.mapM_cons, emitted, emitted']
      rfl
    · intro c member
      rw [List.flatten_cons, List.mem_append] at member
      rcases member with inside | behind
      · exact fit c inside
      · exact fit' c behind
    · rw [List.flatten_cons, List.filterMap_append, reads _ _ reads']

theorem readsMetadata_of_fits {values : DxilModule} (room : values.valueIdAtFunctionsStart < 2 ^ 31)
    {types : Nat} (bounded : types ≤ 2 ^ 31) {m : MetadataTable}
    (bounded' : m.mdnodeList.length < 2 ^ 31)
    (below : ∀ node ∈ m.mdnodeList, node.Below values types m.mdnodeList.length)
    (below' : ∀ n ∈ m.mdNamedNodeList, n.Below m.mdnodeList.length)
    (fits : ∀ node ∈ m.mdnodeList, node.Fits) (fits' : ∀ n ∈ m.mdNamedNodeList, n.Fits) :
    ReadsMetadata values.globalIds values.globalTable m := by
  rcases emitMdnodes_read room bounded bounded' below fits with ⟨nodes, emitted, nodesFit, reads⟩
  rcases emitNamedNodes_read bounded' below' fits' values.globalTable with
    ⟨named, emitted', namedFit, reads'⟩
  refine ⟨_, by rw [emitMetadata, emitted, emitted']; rfl, ?_⟩
  intro scope inBlock empty
  have outside : scope.blockId ≠ some 0 := by
    rw [inBlock]
    decide
  have records : ∀ c ∈ nodes ++ named.flatten, c.Fits (scope.abbrevs ++ metadataLayouts) := by
    rw [empty, List.nil_append]
    intro c member
    rcases List.mem_append.mp member with inside | behind
    · exact nodesFit c inside
    · exact namedFit c behind
  rcases @nested_records { scope with abbrevs := scope.abbrevs ++ metadataLayouts } outside _
    records with ⟨contents, nested, isRecords⟩
  have shapes : List.Forall₂ (fun (a : DxilAbbrev) layout => a.layout? = some layout)
      [metadataAbbrevs .string, metadataAbbrevs .name] metadataLayouts :=
    .cons rfl (.cons rfl .nil)
  rcases nested_abbrevs outside shapes (by decide) nested with ⟨contents', nested', isRecords'⟩
  refine ⟨contents', _, nested', ?_⟩
  rw [isRecords', isRecords, List.filterMap_append, reads _ _ reads']
  simp

/-! ## What stops the emission -/

theorem fits_of_emitMdnode {ids : Ids} {node : MdNode} {call : WriterCall}
    (emitted : emitMdnode ids node = some call) : node.Fits := by
  cases node with
  | string str =>
    rcases Option.bind_eq_some_iff.mp emitted with ⟨data, inside, -⟩
    have short := length_of_localArray inside
    rw [List.length_cons, List.length_map] at short
    exact Nat.le_of_succ_le_succ short
  | value type value => exact trivial
  | node subnodes =>
    rcases Option.bind_eq_some_iff.mp emitted with ⟨data, inside, -⟩
    have short := length_of_localArray inside
    rwa [List.length_map] at short

/-- A character from 128 on is widened with its sign, and does not fit eight bits. -/
theorem fits_of_emitNamedNode {n : NamedNode} {calls : List WriterCall}
    (emitted : emitMetadataNamedNode n = some calls)
    (conforms : ∀ id a data, .emitRecordAbbrev id a data ∈ calls →
      ∃ layout, a.layout? = some layout ∧ Abbrev.Conforms layout.fields layout.array data) :
    n.Fits := by
  rcases Option.bind_eq_some_iff.mp emitted with ⟨data, inside, rest⟩
  rcases Option.bind_eq_some_iff.mp rest with ⟨name, isName, isCalls⟩
  rcases Option.bind_eq_some_iff.mp isName with ⟨chars, inside', isCall⟩
  have short := length_of_localArray inside
  have short' := length_of_localArray inside'
  rw [List.length_map] at short
  rw [List.length_cons, List.length_map] at short'
  refine ⟨Nat.le_of_succ_le_succ short', ?_, short⟩
  rw [localArray, if_pos (length_of_localArray inside')] at inside'
  cases inside'
  cases isCall
  cases isCalls
  rcases conforms _ _ _ List.mem_cons_self with ⟨layout, shape, fits⟩
  have same : layout = ⟨[.literal METADATA_NAME], some (.fixed 8)⟩ := (Option.some.inj shape).symm
  subst same
  intro ch inName
  have small : charToU64 ch < 2 ^ 8 := fits.2 _ (List.mem_map_of_mem inName)
  rw [charToU64, toU64] at small
  have bound := ch.toNat_lt
  have wrapped := Int.bmod_def (ch.toNat : Int) 256
  split at wrapped <;> omega

theorem fits_of_readsMetadata {ids : Ids} {table : List Value} {m : MetadataTable}
    (reads : ReadsMetadata ids table m) :
    (∀ node ∈ m.mdnodeList, node.Fits) ∧ ∀ n ∈ m.mdNamedNodeList, n.Fits := by
  rcases reads with ⟨calls, emitted, writes⟩
  rcases writes ⟨some DXIL_METADATA_BLOCK, [], [], none⟩ rfl rfl with ⟨contents, inner, nested, -⟩
  rcases Option.bind_eq_some_iff.mp emitted with ⟨nodes, isNodes, rest⟩
  rcases Option.bind_eq_some_iff.mp rest with ⟨named, isNamed, isCalls⟩
  cases isCalls
  constructor
  · intro node member
    rcases exists_of_mapM isNodes member with ⟨call, -, isCall⟩
    exact fits_of_emitMdnode isCall
  · intro n member
    rcases exists_of_mapM isNamed member with ⟨calls, inside, isCalls⟩
    apply fits_of_emitNamedNode isCalls
    intro id a data isCall
    apply @Nested.conforms _ _ _ _ nested id
    apply List.mem_append_right
    apply List.mem_append_right
    exact List.mem_flatten.mpr ⟨calls, inside, isCall⟩

end SpirvToDxil
