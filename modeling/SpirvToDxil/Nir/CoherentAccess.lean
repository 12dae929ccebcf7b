import SpirvToDxil.Nir.Variable
import Mathlib.Data.List.Forall2

/-!
# Coherent loads and stores

An access of one wide component turns into an atomic. Of the others, the variables that they may
refer to are marked as coherent.
-/

namespace SpirvToDxil

/-- `ACCESS_COHERENT` of `gl_access_qualifier`. -/
def ACCESS_COHERENT : BitVec 9 := 1 <<< 0

namespace Variable

def coherent (var : Variable) : Bool := var.access.getLsbD 0

def makeCoherent (var : Variable) : Variable :=
    { var with access := var.access ||| ACCESS_COHERENT }

@[simp] theorem mode_makeCoherent (var : Variable) : var.makeCoherent.mode = var.mode := rfl

@[simp] theorem binding_makeCoherent (var : Variable) :
    var.makeCoherent.binding = var.binding := rfl

@[simp] theorem descriptorSet_makeCoherent (var : Variable) :
    var.makeCoherent.descriptorSet = var.descriptorSet := rfl

@[simp] theorem coherent_makeCoherent (var : Variable) : var.makeCoherent.coherent = true := by
  rw [coherent, makeCoherent, BitVec.getLsbD_or]
  exact Bool.or_true _

theorem makeCoherent_of_coherent {var : Variable} (coherent : var.coherent) :
    var.makeCoherent = var := by
  have same : var.access ||| ACCESS_COHERENT = var.access := by
    apply BitVec.eq_of_getLsbD_eq
    intro i small
    rw [BitVec.getLsbD_or]
    by_cases first : i = 0
    · subst first
      rw [show var.access.getLsbD 0 = true from coherent, Bool.true_or]
    · have clear : ACCESS_COHERENT.getLsbD i = false := by
        revert first
        revert i
        decide
      rw [clear, Bool.or_false]
  rw [makeCoherent, same]

end Variable

namespace CoherentAccess

/-- The SSA values by which resources are found. -/
inductive Index where
  | const (value : Nat)
  /-- A `mov` or `vec`, and whether its swizzles are those of a copy. -/
  | copy (trims : Bool) (source : Index)
  | readFirstInvocation (source : Index)
  | resourceIntel (descSet binding : UInt32)
  | loadVulkanDescriptor (source : Index)
  | vulkanResourceIndex (descSet binding : UInt32)
  | value (id : Nat)
  deriving DecidableEq, Repr

inductive Deref where
  | var (id : Nat)
  /-- The derefs of arrays and structures. -/
  | child (parent : Deref)
  | cast (parent : Index)
  | castDeref (parent : Deref)
  deriving DecidableEq, Repr

inductive Source where
  | deref (deref : Deref)
  | index (index : Index)
  deriving DecidableEq, Repr

/-- A `nir_binding`, which is zero when the chase fails. -/
structure Binding where
  success : Bool := false
  descSet : UInt32 := 0
  binding : UInt32 := 0
  deriving DecidableEq, Repr

/-- `nir_chase_binding` of a source that is not a deref. -/
def nirChaseBinding : Index → Binding
  | .copy trims source => if trims then nirChaseBinding source else {}
  | .readFirstInvocation source => nirChaseBinding source
  | .const value => { success := true, binding := UInt32.ofNat value }
  | .resourceIntel descSet binding => { success := true, descSet, binding }
  | .loadVulkanDescriptor (.vulkanResourceIndex descSet binding)
  | .vulkanResourceIndex descSet binding => { success := true, descSet, binding }
  | .loadVulkanDescriptor _ | .value _ => {}

inductive Opcode where
  | loadDeref
  | loadSsbo
  | imageDerefLoad
  | imageLoad
  | storeDeref
  | storeSsbo
  | imageDerefStore
  | imageStore
  deriving DecidableEq, Repr

namespace Opcode

def isStore : Opcode → Bool
  | storeDeref | storeSsbo | imageDerefStore | imageStore => true
  | _ => false

def isDeref : Opcode → Bool
  | loadDeref | storeDeref => true
  | _ => false

def isSsbo : Opcode → Bool
  | loadSsbo | storeSsbo => true
  | _ => false

def isImage : Opcode → Bool
  | imageDerefLoad | imageLoad | imageDerefStore | imageStore => true
  | _ => false

def hasWriteMask : Opcode → Bool
  | storeDeref | storeSsbo => true
  | _ => false

def hasRangeBase : Opcode → Bool
  | imageLoad | imageStore => true
  | _ => false

end Opcode

/-- A load or a store. The size is that of the definition, or of the value that is stored. -/
structure Intrinsic where
  opcode : Opcode
  src : Nat → Source
  bitSize : Nat
  numComponents : Nat
  numComponents_pos : 0 < numComponents
  writeMask : BitVec 32
  access : BitVec 9
  imageDim : Nat
  imageArray : Bool
  format : Nat
  rangeBase : Nat

inductive AtomicOpcode where
  | derefAtomic
  | ssboAtomic
  | imageDerefAtomic
  | imageAtomic
  deriving DecidableEq, Repr

inductive AtomicOp where
  | iadd
  | xchg
  deriving DecidableEq, Repr

/-- An atomic works on each of the components of its data source. -/
structure Atomic where
  opcode : AtomicOpcode
  atomicOp : AtomicOp
  bitSize : Nat
  numComponents : Nat
  src : List Source
  access : BitVec 9 := 0
  imageDim : Nat := 0
  imageArray : Bool := false
  format : Nat := 0
  rangeBase : Nat := 0

inductive Instr where
  | intrinsic (intr : Intrinsic)
  | atomic (atomic : Atomic)
  | other (id : Nat)

structure Shader where
  vars : List Variable
  instrs : List Instr

def setBindingVariablesCoherent (vars : List Variable) (binding : Binding) (mode : VariableMode) :
    List Variable :=
  vars.map fun var =>
    if var.mode = mode ∧ var.binding = binding.binding ∧ var.descriptorSet = binding.descSet then
      var.makeCoherent
    else var

/-- `set_deref_variables_coherent`: the first cast has to be one of a Vulkan descriptor. -/
def setDerefVariablesCoherent (vars : List Variable) : Deref → Option (List Variable)
  | .var id => some (vars.modify id Variable.makeCoherent)
  | .child parent => setDerefVariablesCoherent vars parent
  | .cast (.loadVulkanDescriptor source) =>
    some (setBindingVariablesCoherent vars (nirChaseBinding source) .memSsbo)
  | .cast _ | .castDeref _ => none

namespace Intrinsic

variable (intr : Intrinsic)

def getAtomicForLoadStore (bitSize : Nat) : Atomic :=
  let zero := Source.index (.const 0)
  let src := intr.src
  let size := intr.numComponents
  match intr.opcode with
  | .loadDeref => ⟨.derefAtomic, .iadd, bitSize, 1, [src 0, zero], 0, 0, false, 0, 0⟩
  | .loadSsbo => ⟨.ssboAtomic, .iadd, bitSize, 1, [src 0, src 1, zero], 0, 0, false, 0, 0⟩
  | .imageDerefLoad =>
    ⟨.imageDerefAtomic, .iadd, bitSize, 1, [src 0, src 1, src 2, zero], 0, 0, false, 0, 0⟩
  | .imageLoad => ⟨.imageAtomic, .iadd, bitSize, 1, [src 0, src 1, src 2, zero], 0, 0, false, 0, 0⟩
  | .storeDeref => ⟨.derefAtomic, .xchg, bitSize, size, [src 0, src 1], 0, 0, false, 0, 0⟩
  | .storeSsbo => ⟨.ssboAtomic, .xchg, bitSize, size, [src 1, src 2, src 0], 0, 0, false, 0, 0⟩
  | .imageDerefStore =>
    ⟨.imageDerefAtomic, .xchg, bitSize, size, [src 0, src 1, src 2, src 3], 0, 0, false, 0, 0⟩
  | .imageStore =>
    ⟨.imageAtomic, .xchg, bitSize, size, [src 0, src 1, src 2, src 3], 0, 0, false, 0, 0⟩

def resourceIdx : Nat := if intr.opcode = .storeSsbo then 1 else 0

def valueIdx : Nat :=
  match intr.opcode with
  | .storeSsbo => 0
  | .storeDeref => 1
  | _ => 3

def bitcount (mask : BitVec 32) : Nat := (List.range 32).countP mask.getLsbD

/-- The components that decide whether there is an atomic. -/
def countedComponents : Nat :=
  if intr.opcode.isStore ∧ intr.opcode.hasWriteMask then bitcount intr.writeMask
  else intr.numComponents

def setVariablesCoherent (vars : List Variable) : Option (List Variable) :=
  match intr.src intr.resourceIdx with
  | .deref deref =>
    if intr.opcode.isDeref then setDerefVariablesCoherent vars deref
    else some (setBindingVariablesCoherent vars {}
      (if intr.opcode.isSsbo then .memSsbo else .image))
  | .index index =>
    if intr.opcode.isDeref then none
    else
      let binding : Binding :=
        match index with
        | .const value => { binding := UInt32.ofNat value }
        | _ => {}
      some (setBindingVariablesCoherent vars binding
        (if intr.opcode.isSsbo then .memSsbo else .image))

/-- The atomic with the indices of the access that it replaces. -/
def replacement : Atomic :=
  let atomic := intr.getAtomicForLoadStore intr.bitSize
  { atomic with
    access := intr.access
    imageDim := if intr.opcode.isImage then intr.imageDim else atomic.imageDim
    imageArray := if intr.opcode.isImage then intr.imageArray else atomic.imageArray
    format := if intr.opcode.isImage then intr.format else atomic.format
    rangeBase := if intr.opcode.hasRangeBase then intr.rangeBase else atomic.rangeBase }

def coherent : Bool := intr.access &&& ACCESS_COHERENT != 0

def kept : Bool := intr.bitSize < 32 ∨ 1 < intr.countedComponents

/-- `lower_coherent_load_store`, with the atomic if there is one. -/
def lowerCoherentLoadStore (vars : List Variable) : Option (List Variable × Option Atomic) :=
  if intr.coherent = false then some (vars, none)
  else if intr.kept then (intr.setVariablesCoherent vars).map (·, none)
  else some (vars, some intr.replacement)

end Intrinsic

def lowerCoherentLoadsAndStores (vars : List Variable) :
    List Instr → Option (List Variable × List Instr)
  | [] => some (vars, [])
  | .intrinsic intr :: rest => do
    let (vars, atomic) ← intr.lowerCoherentLoadStore vars
    let (vars, rest) ← lowerCoherentLoadsAndStores vars rest
    match atomic with
    | some atomic => some (vars, .atomic atomic :: rest)
    | none => some (vars, .intrinsic intr :: rest)
  | instr :: rest => do
    let (vars, rest) ← lowerCoherentLoadsAndStores vars rest
    some (vars, instr :: rest)

section Semantics

/-- What is read or written: a resource, the coordinates in it and the level of detail. -/
structure Location where
  resource : Source
  coordinates : List (List Nat)
  level : Nat
  deriving DecidableEq, Repr

abbrev Memory (bits : Nat) := Location → Nat → BitVec bits

/-- The components of a source in a run, where `env` has those that are not constant. -/
def Source.eval (env : Source → List Nat) : Source → List Nat
  | .index (.const value) => [value]
  | source => env source

variable {bits : Nat} (env : Source → List Nat)

def Source.component (source : Source) (k : Nat) : Nat := (source.eval env).getD k 0

namespace Intrinsic

variable (intr : Intrinsic)

/-- The level of detail, of images only. -/
def level : Nat :=
  match intr.opcode with
  | .imageLoad | .imageDerefLoad => (intr.src 3).component env 0
  | .imageStore | .imageDerefStore => (intr.src 4).component env 0
  | _ => 0

def location : Location :=
  match intr.opcode with
  | .loadDeref | .storeDeref => ⟨intr.src 0, [], 0⟩
  | .loadSsbo => ⟨intr.src 0, [(intr.src 1).eval env], 0⟩
  | .storeSsbo => ⟨intr.src 1, [(intr.src 2).eval env], 0⟩
  | .imageLoad | .imageDerefLoad | .imageStore | .imageDerefStore =>
    ⟨intr.src 0, [(intr.src 1).eval env, (intr.src 2).eval env], intr.level env⟩

def writes (k : Nat) : Bool :=
  k < intr.numComponents ∧ (intr.opcode.hasWriteMask → intr.writeMask.getLsbD k)

def exec (memory : Memory bits) : Memory bits × List (BitVec bits) :=
  if intr.opcode.isStore then
    (fun location k =>
      if location = intr.location env ∧ intr.writes k then
        BitVec.ofNat bits ((intr.src intr.valueIdx).component env k)
      else memory location k, [])
  else (memory, (List.range intr.numComponents).map (memory (intr.location env)))

end Intrinsic

namespace Atomic

variable (atomic : Atomic)

def location : Location :=
  match atomic.opcode with
  | .derefAtomic => ⟨atomic.src.getD 0 (.index (.const 0)), [], 0⟩
  | .ssboAtomic =>
    ⟨atomic.src.getD 0 (.index (.const 0)), [(atomic.src.getD 1 (.index (.const 0))).eval env], 0⟩
  | .imageDerefAtomic | .imageAtomic =>
    ⟨atomic.src.getD 0 (.index (.const 0)), [(atomic.src.getD 1 (.index (.const 0))).eval env,
      (atomic.src.getD 2 (.index (.const 0))).eval env], 0⟩

def data : Source :=
  atomic.src.getD
    (match atomic.opcode with
    | .derefAtomic => 1
    | .ssboAtomic => 2
    | .imageDerefAtomic | .imageAtomic => 3) (.index (.const 0))

def next (memory : Memory bits) (k : Nat) : BitVec bits :=
  let operand := BitVec.ofNat bits (atomic.data.component env k)
  match atomic.atomicOp with
  | .iadd => memory (atomic.location env) k + operand
  | .xchg => operand

/-- The memory after the atomic, and the components that it returns. -/
def exec (memory : Memory bits) : Memory bits × List (BitVec bits) :=
  (fun location k =>
    if location = atomic.location env ∧ k < atomic.numComponents then atomic.next env memory k
    else memory location k,
    (List.range atomic.numComponents).map (memory (atomic.location env)))

end Atomic

def SameIndices (intr : Intrinsic) (atomic : Atomic) : Prop :=
  atomic.access = intr.access ∧
    (intr.opcode.isImage → atomic.imageDim = intr.imageDim ∧
      atomic.imageArray = intr.imageArray ∧ atomic.format = intr.format) ∧
    (intr.opcode.hasRangeBase → atomic.rangeBase = intr.rangeBase)

/-- The atomic leaves the same memory and, for loads, returns what the access loads. -/
def SameEffect (intr : Intrinsic) (atomic : Atomic) : Prop :=
  atomic.bitSize = intr.bitSize ∧ SameIndices intr atomic ∧
    ∀ memory : Memory intr.bitSize, (atomic.exec env memory).1 = (intr.exec env memory).1 ∧
      (intr.opcode.isStore = false → (atomic.exec env memory).2 = (intr.exec env memory).2)

/-- What an access refers to, as far as the shader tells. -/
inductive Referent where
  | var (id : Nat)
  | binding (descSet binding : UInt32) (mode : VariableMode)
  | any (mode : VariableMode)

def Binding.referent (binding : Binding) (mode : VariableMode) : Referent :=
  if binding.success then .binding binding.descSet binding.binding mode else .any mode

def Deref.referent (mode : VariableMode) : Deref → Referent
  | .var id => .var id
  | .child parent | .castDeref parent => parent.referent mode
  | .cast (.loadVulkanDescriptor source) => (nirChaseBinding source).referent mode
  | .cast _ => .any mode

def Intrinsic.mode (intr : Intrinsic) : VariableMode :=
  if intr.opcode.isImage then .image else .memSsbo

def Intrinsic.referent (intr : Intrinsic) : Referent :=
  match intr.src intr.resourceIdx with
  | .deref deref => deref.referent intr.mode
  | .index index => (nirChaseBinding index).referent intr.mode

def Referent.covers (id : Nat) (var : Variable) : Referent → Bool
  | .var id' => id = id'
  | .binding descSet slot mode =>
    var.mode = mode ∧ var.descriptorSet = descSet ∧ var.binding = slot
  | .any mode => var.mode = mode

/-- The instruction is replaced by an atomic of the same effect, or kept with all the variables that
it may refer to coherent. -/
def Exact (vars : List Variable) : Instr → Instr → Prop
  | .intrinsic intr, .atomic atomic => intr.coherent ∧ SameEffect env intr atomic
  | .intrinsic intr, .intrinsic same =>
    same = intr ∧ (intr.coherent → ∀ id var, vars[id]? = some var →
      intr.referent.covers id var → var.coherent)
  | instr, same => same = instr

def Instr.coherentAccess : Instr → Option Intrinsic
  | .intrinsic intr => if intr.coherent then some intr else none
  | _ => none

def Shader.coherentAccesses (shader : Shader) : List Intrinsic :=
  shader.instrs.filterMap Instr.coherentAccess

/-- Every access is treated exactly, and only variables that a coherent access may refer to are
marked. -/
def StaysCoherent (shader : Shader) : Prop :=
  ∃ vars instrs, lowerCoherentLoadsAndStores shader.vars shader.instrs = some (vars, instrs) ∧
    List.Forall₂ (Exact env vars) shader.instrs instrs ∧
    vars.length = shader.vars.length ∧
    ∀ id before after, shader.vars[id]? = some before → vars[id]? = some after →
      after = before ∨ after = before.makeCoherent ∧
        ∃ intr ∈ shader.coherentAccesses, intr.referent.covers id before

end Semantics

section Marking

theorem covers_makeCoherent (referent : Referent) (id : Nat) (var : Variable) :
    referent.covers id var.makeCoherent = referent.covers id var := by
  cases referent <;> rfl

def markWhere (marked : Nat → Variable → Bool) (vars : List Variable) : List Variable :=
  vars.mapIdx fun id var => bif marked id var then var.makeCoherent else var

theorem getElem?_markWhere (marked : Nat → Variable → Bool) (vars : List Variable) (id : Nat) :
    (markWhere marked vars)[id]? =
      vars[id]?.map fun var => bif marked id var then var.makeCoherent else var :=
  List.getElem?_mapIdx

theorem markWhere_congr {first second : Nat → Variable → Bool} {vars : List Variable}
    (same : ∀ id var, vars[id]? = some var → first id var = second id var) :
    markWhere first vars = markWhere second vars := by
  apply List.ext_getElem?
  intro id
  rw [markWhere, markWhere, List.getElem?_mapIdx, List.getElem?_mapIdx]
  cases present : vars[id]? with
  | none => rfl
  | some var => rw [Option.map_some, Option.map_some, same id var present]

theorem markWhere_false (vars : List Variable) : markWhere (fun _ _ => false) vars = vars := by
  apply List.ext_getElem?
  intro id
  rw [markWhere, List.getElem?_mapIdx]
  cases vars[id]? <;> rfl

theorem markWhere_markWhere {first second : Nat → Variable → Bool} (vars : List Variable)
    (blind : ∀ id var, second id var.makeCoherent = second id var) :
    markWhere second (markWhere first vars) =
      markWhere (fun id var => first id var || second id var) vars := by
  apply List.ext_getElem?
  intro id
  simp only [markWhere, List.getElem?_mapIdx, Option.map_map]
  congr 1
  funext var
  rw [Function.comp_apply]
  cases first id var with
  | false => rfl
  | true =>
      rw [cond_true, blind]
      cases second id var with
      | false => rfl
      | true => exact Variable.makeCoherent_of_coherent (Variable.coherent_makeCoherent var)

theorem setBindingVariablesCoherent_eq (vars : List Variable) (binding : Binding)
    (mode : VariableMode) :
    setBindingVariablesCoherent vars binding mode =
      markWhere (fun id var =>
        (Referent.binding binding.descSet binding.binding mode).covers id var) vars := by
  apply List.ext_getElem?
  intro id
  rw [setBindingVariablesCoherent, markWhere, List.getElem?_map, List.getElem?_mapIdx]
  congr 1
  funext var
  rw [Bool.cond_eq_ite]
  simp only [Referent.covers, decide_eq_true_eq]
  congr 1
  exact propext (and_congr_right fun _ => and_comm)

theorem modify_makeCoherent_eq (vars : List Variable) (id : Nat) :
    vars.modify id Variable.makeCoherent =
      markWhere (fun id' var => (Referent.var id).covers id' var) vars := by
  apply List.ext_getElem?
  intro id'
  rw [markWhere, List.getElem?_modify, List.getElem?_mapIdx]
  congr 1
  funext var
  rw [Bool.cond_eq_ite]
  simp only [Referent.covers, decide_eq_true_eq, @eq_comm _ id' id]

/-- Whether there is a way to the variable, or to the descriptor of the first cast. -/
def Deref.supported : Deref → Bool
  | .var _ | .cast (.loadVulkanDescriptor _) => true
  | .child parent => parent.supported
  | .cast _ | .castDeref _ => false

/-- Whether the descriptor's binding is not found. -/
def Deref.guesses : Deref → Bool
  | .cast (.loadVulkanDescriptor source) => !(nirChaseBinding source).success
  | .child parent => parent.guesses
  | .var _ | .cast _ | .castDeref _ => false

namespace Intrinsic

variable (intr : Intrinsic)

def supported : Bool :=
  match intr.src intr.resourceIdx with
  | .deref deref => intr.opcode.isDeref → deref.supported
  | .index _ => !intr.opcode.isDeref

/-- Whether set 0 and binding 0 are taken for want of anything better. Image derefs are not followed
to their variables, and an index that is not constant is not chased. -/
def guesses : Bool :=
  match intr.src intr.resourceIdx with
  | .deref deref => intr.opcode.isDeref → deref.guesses
  | .index (.const _) => false
  | .index _ => true

/-- The variables that are marked if the access is kept. -/
def marks (id : Nat) (var : Variable) : Bool :=
  if intr.guesses then (Referent.binding 0 0 intr.mode).covers id var
  else intr.referent.covers id var

theorem marks_makeCoherent (id : Nat) (var : Variable) :
    intr.marks id var.makeCoherent = intr.marks id var := by
  rw [marks, marks, covers_makeCoherent, covers_makeCoherent]

end Intrinsic

theorem nirChaseBinding_of_not_success {index : Index}
    (fails : (nirChaseBinding index).success = false) : nirChaseBinding index = {} := by
  induction index with
  | copy trims source inductionHypothesis =>
      cases trims with
      | false => rfl
      | true => exact inductionHypothesis fails
  | readFirstInvocation source inductionHypothesis => exact inductionHypothesis fails
  | loadVulkanDescriptor source => cases source <;> first | rfl | cases fails
  | const | resourceIntel | vulkanResourceIndex => cases fails
  | value => rfl

theorem setDerefVariablesCoherent_eq (vars : List Variable) (deref : Deref) :
    setDerefVariablesCoherent vars deref =
      if deref.supported then
        some (markWhere (fun id var =>
          if deref.guesses then (Referent.binding 0 0 .memSsbo).covers id var
          else (deref.referent .memSsbo).covers id var) vars)
      else none := by
  induction deref with
  | var id => exact congrArg some (modify_makeCoherent_eq vars id)
  | child parent inductionHypothesis => exact inductionHypothesis
  | castDeref parent => rfl
  | cast parent =>
      cases parent with
      | loadVulkanDescriptor source =>
          rw [setDerefVariablesCoherent, setBindingVariablesCoherent_eq]
          apply congrArg some
          apply markWhere_congr
          intro id var _
          cases found : (nirChaseBinding source).success with
          | true =>
              simp only [Deref.guesses, Deref.referent, Binding.referent, found, Bool.not_true,
                Bool.false_eq_true, if_false, if_true]
          | false =>
              rw [nirChaseBinding_of_not_success found, if_pos (by simp [Deref.guesses, found])]
      | _ => rfl

theorem Intrinsic.setVariablesCoherent_eq (intr : Intrinsic) (vars : List Variable) :
    intr.setVariablesCoherent vars =
      if intr.supported then some (markWhere intr.marks vars) else none := by
  have modeOf (plain : intr.opcode.isDeref = false) :
      (if intr.opcode.isSsbo then VariableMode.memSsbo else .image) = intr.mode := by
    rw [mode]
    cases opcode : intr.opcode <;> simp_all [Opcode.isDeref, Opcode.isSsbo, Opcode.isImage]
  have modeOfDeref (isDeref : intr.opcode.isDeref = true) : intr.mode = .memSsbo := by
    rw [mode]
    cases opcode : intr.opcode <;> simp_all [Opcode.isDeref, Opcode.isImage]
  rw [setVariablesCoherent, supported]
  cases source : intr.src intr.resourceIdx with
  | deref deref =>
      cases isDeref : intr.opcode.isDeref with
      | true =>
          have marks : intr.marks = fun id var =>
              if deref.guesses then (Referent.binding 0 0 .memSsbo).covers id var
              else (deref.referent .memSsbo).covers id var := by
            funext id var
            simp [marks, guesses, referent, source, isDeref, modeOfDeref isDeref]
          simp [setDerefVariablesCoherent_eq, marks]
      | false =>
          have marks : intr.marks = (Referent.binding 0 0 intr.mode).covers := by
            funext id var
            simp [marks, guesses, source, isDeref]
          simp [setBindingVariablesCoherent_eq, modeOf isDeref, marks]
  | index index =>
      cases isDeref : intr.opcode.isDeref with
      | true => rfl
      | false =>
          have marks : intr.marks = fun id var =>
              (Referent.binding 0 (match index with
                | .const value => UInt32.ofNat value
                | _ => 0) intr.mode).covers id var := by
            funext id var
            cases index <;>
              simp [marks, guesses, referent, source, nirChaseBinding, Binding.referent]
          cases index <;> simp [setBindingVariablesCoherent_eq, modeOf isDeref, marks]

def marked (accesses : List Intrinsic) (id : Nat) (var : Variable) : Bool :=
  accesses.any fun intr => intr.kept && intr.marks id var

def lowered : Instr → Instr
  | .intrinsic intr =>
    if intr.coherent ∧ intr.kept = false then .atomic intr.replacement else .intrinsic intr
  | instr => instr

theorem marked_makeCoherent (accesses : List Intrinsic) (id : Nat) (var : Variable) :
    marked accesses id var.makeCoherent = marked accesses id var := by
  simp only [marked, Intrinsic.marks_makeCoherent]

theorem marked_cons (intr : Intrinsic) (rest : List Intrinsic) :
    marked (intr :: rest) = fun id var =>
    intr.kept && intr.marks id var || marked rest id var := rfl

theorem lowerCoherentLoadStore_eq (intr : Intrinsic) (vars : List Variable) :
    intr.lowerCoherentLoadStore vars =
      if intr.coherent ∧ intr.kept then
        if intr.supported then some (markWhere intr.marks vars, none) else none
      else if intr.coherent then some (vars, some intr.replacement)
      else some (vars, none) := by
  rw [Intrinsic.lowerCoherentLoadStore, intr.setVariablesCoherent_eq]
  cases intr.coherent <;> cases intr.kept <;> cases intr.supported <;> rfl

def allSupported (accesses : List Intrinsic) : Bool :=
  accesses.all fun intr => !intr.kept || intr.supported

/-- The pass fails on an access that is kept and not supported, and otherwise marks what the
accesses that are kept mark. -/
theorem lowerCoherentLoadsAndStores_eq (vars : List Variable) (instrs : List Instr) :
    lowerCoherentLoadsAndStores vars instrs =
      if allSupported (instrs.filterMap Instr.coherentAccess) then
        some (markWhere (marked (instrs.filterMap Instr.coherentAccess)) vars, instrs.map lowered)
      else none := by
  induction instrs generalizing vars with
  | nil => exact congrArg (fun vars => some (vars, [])) (markWhere_false vars).symm
  | cons instr rest inductionHypothesis =>
      cases instr with
      | intrinsic intr =>
          rw [lowerCoherentLoadsAndStores, lowerCoherentLoadStore_eq]
          cases coherent : intr.coherent with
          | false =>
              rw [List.filterMap_cons_none (by simp [Instr.coherentAccess, coherent]),
                List.map_cons,
                lowered, coherent]
              cases works : allSupported (rest.filterMap Instr.coherentAccess) <;>
                simp [inductionHypothesis, works]
          | true =>
              rw [List.filterMap_cons_some (b := intr) (by simp [Instr.coherentAccess, coherent]),
                List.map_cons, lowered, coherent, allSupported, List.all_cons, ← allSupported,
                marked_cons]
              cases kept : intr.kept with
              | false =>
                  cases works : allSupported (rest.filterMap Instr.coherentAccess) <;>
                    simp [inductionHypothesis, works]
              | true =>
                  cases supported : intr.supported with
                  | false => rfl
                  | true =>
                      cases works : allSupported (rest.filterMap Instr.coherentAccess) <;>
                        simp [inductionHypothesis, works, markWhere_markWhere, marked_makeCoherent]
      | atomic | other =>
          rw [lowerCoherentLoadsAndStores, inductionHypothesis,
            List.filterMap_cons_none rfl, List.map_cons, lowered]
          · cases allSupported (rest.filterMap Instr.coherentAccess) <;> rfl
          · nofun
          · nofun

end Marking

section Effect

variable {intr : Intrinsic} (env : Source → List Nat)

theorem eq_zero_of_bitcount {mask : BitVec 32} (single : Intrinsic.bitcount mask ≤ 1)
    (first : mask.getLsbD 0) {k : Nat} (isSet : mask.getLsbD k) : k = 0 := by
  rcases k with _ | k
  · rfl
  have small : k + 1 < 32 := BitVec.lt_of_getLsbD isSet
  have more : 0 < ((List.range 31).map Nat.succ).countP mask.getLsbD := by
    apply List.countP_pos_iff.mpr
    exact ⟨k + 1, List.mem_map.mpr ⟨k, List.mem_range.mpr (by omega), rfl⟩, isSet⟩
  rw [Intrinsic.bitcount, List.range_succ_eq_map, List.countP_cons_of_pos first] at single
  omega

theorem location_replacement :
    intr.replacement.location env = { intr.location env with level := 0 } := by
  cases opcode : intr.opcode <;>
    simp [Intrinsic.replacement, Intrinsic.getAtomicForLoadStore, Atomic.location,
      Intrinsic.location, opcode]

theorem data_replacement :
    intr.replacement.data =
      if intr.opcode.isStore then intr.src intr.valueIdx else .index (.const 0) := by
  cases opcode : intr.opcode <;>
    simp [Intrinsic.replacement, Intrinsic.getAtomicForLoadStore, Atomic.data, Intrinsic.valueIdx,
      Opcode.isStore, opcode]

theorem atomicOp_replacement :
    intr.replacement.atomicOp = if intr.opcode.isStore then .xchg else .iadd := by
  cases opcode : intr.opcode <;>
    simp [Intrinsic.replacement, Intrinsic.getAtomicForLoadStore, Opcode.isStore, opcode]

theorem level_location : (intr.location env).level = intr.level env := by
  cases opcode : intr.opcode <;> simp [Intrinsic.location, Intrinsic.level, opcode]

theorem location_replacement_eq_iff :
    intr.replacement.location env = intr.location env ↔ intr.level env = 0 := by
  rw [location_replacement, ← level_location]
  constructor
  · intro same
    rw [← same]
  · intro level
    rw [← level]

theorem bitSize_replacement : intr.replacement.bitSize = intr.bitSize := by
  cases opcode : intr.opcode <;>
    simp [Intrinsic.replacement, Intrinsic.getAtomicForLoadStore, opcode]

theorem sameIndices_replacement : SameIndices intr intr.replacement := by
  refine ⟨rfl, fun image => ?_, fun hasRangeBase => if_pos hasRangeBase⟩
  exact ⟨if_pos image, if_pos image, if_pos image⟩

theorem replaced_iff :
    intr.kept = false ↔ 32 ≤ intr.bitSize ∧ intr.countedComponents ≤ 1 := by
  rw [Intrinsic.kept, decide_eq_false_iff_not, not_or, Nat.not_lt, Nat.not_lt]

theorem numComponents_replacement :
    intr.replacement.numComponents = if intr.opcode.isStore then intr.numComponents else 1 := by
  cases opcode : intr.opcode <;>
    simp [Intrinsic.replacement, Intrinsic.getAtomicForLoadStore, Opcode.isStore, opcode]

theorem sameEffect_load (load : intr.opcode.isStore = false) (replaced : intr.kept = false) :
    SameEffect env intr intr.replacement ↔ intr.level env = 0 := by
  obtain ⟨wide, single⟩ := replaced_iff.mp replaced
  have one : intr.numComponents = 1 := by
    have positive := intr.numComponents_pos
    rw [Intrinsic.countedComponents, load, if_neg (by simp)] at single
    omega
  rw [← location_replacement_eq_iff env]
  constructor
  · rintro ⟨-, -, same⟩
    by_contra differ
    let memory : Memory intr.bitSize := fun location _ =>
      if location = intr.location env then 1 else 0
    have loaded := (same memory).2 load
    simp [Atomic.exec, Intrinsic.exec, load, numComponents_replacement, one, memory,
      differ] at loaded
    omega
  · intro same
    refine ⟨bitSize_replacement, sameIndices_replacement, fun memory => ⟨?_, fun _ => ?_⟩⟩
    · funext location k
      simp only [Atomic.exec, Atomic.next, Intrinsic.exec, load, atomicOp_replacement,
        data_replacement, numComponents_replacement, same, Bool.false_eq_true, if_false,
        Nat.lt_one_iff]
      split
      · rename_i hit
        rw [hit.1, hit.2]
        simp [Source.component, Source.eval]
      · rfl
    · simp [Atomic.exec, Intrinsic.exec, load, numComponents_replacement, one, same]

/-- A store becomes an exchange, which writes all components of the value. -/
theorem sameEffect_store (store : intr.opcode.isStore = true) (replaced : intr.kept = false) :
    SameEffect env intr intr.replacement ↔
      intr.level env = 0 ∧ ∀ k < intr.numComponents, intr.writes k := by
  obtain ⟨wide, -⟩ := replaced_iff.mp replaced
  rw [← location_replacement_eq_iff env]
  constructor
  · rintro ⟨-, -, same⟩
    have writes (k : Nat) (inside : k < intr.numComponents) :
        intr.replacement.location env = intr.location env ∧ intr.writes k := by
      let operand : BitVec intr.bitSize :=
        BitVec.ofNat intr.bitSize ((intr.src intr.valueIdx).component env k)
      let memory : Memory intr.bitSize := fun _ _ => ~~~ operand
      have stored := congrFun (congrFun (same memory).1 (intr.replacement.location env)) k
      simp only [Atomic.exec, Atomic.next, Intrinsic.exec, store, atomicOp_replacement,
        data_replacement, numComponents_replacement, inside, if_true, and_self] at stored
      split at stored
      · assumption
      · have bit := congrArg (BitVec.getLsbD · 0) stored
        simp [memory, operand] at bit
        omega
    exact ⟨(writes 0 intr.numComponents_pos).1, fun k inside => (writes k inside).2⟩
  · rintro ⟨same, all⟩
    have written (k : Nat) : intr.writes k = true ↔ k < intr.numComponents := by
      refine ⟨fun written => ?_, all k⟩
      simp only [Intrinsic.writes, decide_eq_true_eq] at written
      exact written.1
    refine ⟨bitSize_replacement, sameIndices_replacement, fun memory => ⟨?_, fun load => ?_⟩⟩
    · funext location k
      simp only [Atomic.exec, Atomic.next, Intrinsic.exec, store, atomicOp_replacement,
        data_replacement, numComponents_replacement, same, written, if_true]
    · rw [store] at load
      cases load

/-- A store of at most one component by its mask writes all components of the value when there is
only one. -/
theorem writes_iff (store : intr.opcode.isStore = true) (replaced : intr.kept = false) :
    (∀ k < intr.numComponents, intr.writes k) ↔
      (intr.opcode.hasWriteMask → intr.numComponents = 1 ∧ intr.writeMask.getLsbD 0) := by
  obtain ⟨-, single⟩ := replaced_iff.mp replaced
  simp only [Intrinsic.writes, decide_eq_true_eq]
  constructor
  · intro all masked
    rw [Intrinsic.countedComponents, if_pos ⟨store, masked⟩] at single
    have first := (all 0 intr.numComponents_pos).2 masked
    refine ⟨?_, first⟩
    by_contra several
    have second : 1 < intr.numComponents := by
      have positive := intr.numComponents_pos
      omega
    exact absurd (eq_zero_of_bitcount single first ((all 1 second).2 masked)) Nat.one_ne_zero
  · intro one k inside
    refine ⟨inside, fun masked => ?_⟩
    obtain ⟨only, first⟩ := one masked
    obtain rfl : k = 0 := by omega
    exact first

theorem sameEffect_iff (replaced : intr.kept = false) :
    SameEffect env intr intr.replacement ↔ intr.level env = 0 ∧
      (intr.opcode.hasWriteMask → intr.numComponents = 1 ∧ intr.writeMask.getLsbD 0) := by
  cases store : intr.opcode.isStore with
  | true => rw [sameEffect_store env store replaced, writes_iff store replaced]
  | false =>
      have unmasked : intr.opcode.hasWriteMask = false := by
        cases opcode : intr.opcode <;> rw [opcode] at store <;> first | rfl | cases store
      rw [sameEffect_load env store replaced, unmasked]
      simp

end Effect

section StaysCoherent

variable (env : Source → List Nat) (shader : Shader)

/-- Set 0 and binding 0 of the access's mode. -/
def Intrinsic.atOrigin (intr : Intrinsic) (id : Nat) (var : Variable) : Bool :=
  (Referent.binding 0 0 intr.mode).covers id var

/-- The accesses that become atomics are at level zero, and a store with a write mask has one
component, which is enabled. The others find a variable or a descriptor. Where they have to guess,
the guess does no harm: the variables that they may refer to are coherent already, or at the guessed
place of such an access, or found by an access that does not guess; and the variables at the guessed
place are coherent already, or some coherent access may refer to them. -/
structure Harmless : Prop where
  atomics : ∀ intr ∈ shader.coherentAccesses, intr.kept = false →
    intr.level env = 0 ∧
      (intr.opcode.hasWriteMask → intr.numComponents = 1 ∧ intr.writeMask.getLsbD 0)
  supported : ∀ intr ∈ shader.coherentAccesses, intr.kept → intr.supported
  found : ∀ intr ∈ shader.coherentAccesses, intr.kept → intr.guesses →
    ∀ id var, shader.vars[id]? = some var → intr.referent.covers id var →
      var.coherent ∨ ∃ other ∈ shader.coherentAccesses, other.kept ∧
        (other.guesses ∧ other.atOrigin id var ∨
          other.guesses = false ∧ other.referent.covers id var)
  justified : ∀ intr ∈ shader.coherentAccesses, intr.kept → intr.guesses →
    ∀ id var, shader.vars[id]? = some var → intr.atOrigin id var →
      var.coherent ∨ ∃ other ∈ shader.coherentAccesses, other.referent.covers id var

variable {shader}

theorem mem_coherentAccesses {intr : Intrinsic} :
    intr ∈ shader.coherentAccesses ↔ .intrinsic intr ∈ shader.instrs ∧ intr.coherent := by
  rw [Shader.coherentAccesses, List.mem_filterMap]
  constructor
  · rintro ⟨instr, present, isAccess⟩
    cases instr with
    | intrinsic other =>
        rw [Instr.coherentAccess, Option.ite_none_right_eq_some] at isAccess
        obtain ⟨coherent, ⟨⟩⟩ := isAccess
        exact ⟨present, coherent⟩
    | atomic | other => cases isAccess
  · rintro ⟨present, coherent⟩
    exact ⟨.intrinsic intr, present, if_pos coherent⟩

/-- Only the coherent accesses matter for whether each instruction is treated exactly. -/
theorem exact_lowered_iff (vars : List Variable) :
    List.Forall₂ (Exact env vars) shader.instrs (shader.instrs.map lowered) ↔
      ∀ intr ∈ shader.coherentAccesses,
        (intr.kept = false → SameEffect env intr intr.replacement) ∧
          (intr.kept → ∀ id var, vars[id]? = some var → intr.referent.covers id var →
            var.coherent) := by
  rw [List.forall₂_map_right_iff, List.forall₂_same]
  constructor
  · intro exact intr access
    obtain ⟨present, coherent⟩ := mem_coherentAccesses.mp access
    have treated := exact _ present
    rw [lowered] at treated
    cases kept : intr.kept with
    | false =>
        rw [if_pos ⟨coherent, kept⟩] at treated
        exact ⟨fun _ => treated.2, nofun⟩
    | true =>
        rw [if_neg (by simp [kept])] at treated
        exact ⟨nofun, fun _ => treated.2 coherent⟩
  · intro exact instr present
    cases instr with
    | intrinsic intr =>
        rw [lowered]
        split
        · rename_i replaced
          exact ⟨replaced.1,
            (exact intr (mem_coherentAccesses.mpr ⟨present, replaced.1⟩)).1 replaced.2⟩
        · rename_i unreplaced
          refine ⟨rfl, fun coherent => ?_⟩
          apply (exact intr (mem_coherentAccesses.mpr ⟨present, coherent⟩)).2
          simpa [coherent] using unreplaced
    | atomic | other => rfl

theorem marked_iff {accesses : List Intrinsic} {id : Nat} {var : Variable} :
    marked accesses id var ↔
      ∃ other ∈ accesses, other.kept ∧
        (other.guesses ∧ other.atOrigin id var ∨
          other.guesses = false ∧ other.referent.covers id var) := by
  rw [marked, List.any_eq_true]
  apply exists_congr
  intro other
  apply and_congr_right
  intro _
  rw [Bool.and_eq_true, Intrinsic.marks, ← Intrinsic.atOrigin]
  apply and_congr_right
  intro _
  cases other.guesses <;> simp

theorem coherent_mark (marked : Bool) (var : Variable) :
    (bif marked then var.makeCoherent else var).coherent = (var.coherent || marked) := by
  cases marked with
  | false => exact (Bool.or_false _).symm
  | true => rw [cond_true, Variable.coherent_makeCoherent, Bool.or_true]

theorem allSupported_iff {accesses : List Intrinsic} :
    allSupported accesses ↔ ∀ intr ∈ accesses, intr.kept → intr.supported := by
  rw [allSupported, List.all_eq_true]
  apply forall₂_congr
  intro intr _
  cases intr.kept <;> simp

/-- The pass on a shader that it supports. -/
theorem staysCoherent_iff_marked :
    StaysCoherent env shader ↔
      allSupported shader.coherentAccesses ∧
        List.Forall₂ (Exact env (markWhere (marked shader.coherentAccesses) shader.vars))
          shader.instrs (shader.instrs.map lowered) ∧
        ∀ id var, shader.vars[id]? = some var → marked shader.coherentAccesses id var →
          var.coherent ∨ ∃ other ∈ shader.coherentAccesses, other.referent.covers id var := by
  rw [StaysCoherent, lowerCoherentLoadsAndStores_eq, ← Shader.coherentAccesses]
  constructor
  · rintro ⟨vars, instrs, passed, exact, -, only⟩
    obtain ⟨supported, ⟨⟩⟩ := Option.ite_none_right_eq_some.mp passed
    refine ⟨supported, exact, fun id var present isMarked => ?_⟩
    have after := getElem?_markWhere (marked shader.coherentAccesses) shader.vars id
    rw [present, Option.map_some, isMarked, cond_true] at after
    rcases only id var _ present after with same | ⟨-, other⟩
    · left
      rw [← same]
      exact Variable.coherent_makeCoherent var
    · exact Or.inr other
  · rintro ⟨supported, exact, only⟩
    refine ⟨_, _, if_pos supported, exact, List.length_mapIdx,
      fun id var after present isAfter => ?_⟩
    rw [getElem?_markWhere, present, Option.map_some, Option.some.injEq] at isAfter
    subst isAfter
    cases isMarked : marked shader.coherentAccesses id var with
    | false => exact Or.inl rfl
    | true =>
        rcases only id var present isMarked with coherent | other
        · exact Or.inl (Variable.makeCoherent_of_coherent coherent)
        · exact Or.inr ⟨rfl, other⟩

theorem staysCoherent_iff : StaysCoherent env shader ↔ Harmless env shader := by
  rw [staysCoherent_iff_marked, exact_lowered_iff, allSupported_iff]
  constructor
  · rintro ⟨supported, exact, only⟩
    refine ⟨fun intr access replaced => ?_, supported, ?_, ?_⟩
    · exact (sameEffect_iff env replaced).mp ((exact intr access).1 replaced)
    · intro intr access kept _ id var present covers
      have after := getElem?_markWhere (marked shader.coherentAccesses) shader.vars id
      rw [present, Option.map_some] at after
      have coherent := (exact intr access).2 kept id _ after ?_
      · rw [coherent_mark, Bool.or_eq_true, marked_iff] at coherent
        exact coherent
      · cases marked shader.coherentAccesses id var with
        | false => exact covers
        | true => exact (covers_makeCoherent intr.referent id var).trans covers
    · intro intr access kept guesses id var present atOrigin
      exact only id var present (marked_iff.mpr ⟨intr, access, kept, Or.inl ⟨guesses, atOrigin⟩⟩)
  · intro harmless
    refine ⟨harmless.supported, fun intr access => ⟨fun replaced => ?_, ?_⟩, ?_⟩
    · exact (sameEffect_iff env replaced).mpr (harmless.atomics intr access replaced)
    · intro kept id after isAfter covers
      rw [getElem?_markWhere, Option.map_eq_some_iff] at isAfter
      obtain ⟨var, present, rfl⟩ := isAfter
      have covered : intr.referent.covers id var := by
        cases isMarked : marked shader.coherentAccesses id var with
        | false => simpa [isMarked] using covers
        | true => simpa [isMarked, covers_makeCoherent] using covers
      rw [coherent_mark, Bool.or_eq_true, marked_iff]
      cases guesses : intr.guesses with
      | false => exact Or.inr ⟨intr, access, kept, Or.inr ⟨guesses, covered⟩⟩
      | true => exact harmless.found intr access kept guesses id var present covered
    · intro id var present isMarked
      obtain ⟨intr, access, kept, ⟨guesses, atOrigin⟩ | ⟨-, covers⟩⟩ := marked_iff.mp isMarked
      · exact harmless.justified intr access kept guesses id var present atOrigin
      · exact Or.inr ⟨intr, access, covers⟩

/-- A coherent access to the variable with number 0. -/
def singleAccess (opcode : Opcode) (numComponents : Nat) (positive : 0 < numComponents)
    (writeMask : BitVec 32) : Intrinsic where
  opcode
  src := fun _ => .deref (.var 0)
  bitSize := 32
  numComponents
  numComponents_pos := positive
  writeMask
  access := ACCESS_COHERENT
  imageDim := 0
  imageArray := false
  format := 0
  rangeBase := 0

/-- An image at binding 1, of which four components are loaded. -/
def texelShader : Shader where
  vars := [⟨.handle .image true, .image, 0, 0, 1⟩]
  instrs := [.intrinsic (singleAccess .imageDerefLoad 4 GlslType.vec4_pos 0)]

/-- A buffer of which one component of four is stored. -/
def oneComponentShader (writeMask : BitVec 32) : Shader where
  vars := [⟨.vector 32 4, .memSsbo, 0, 0, 0⟩]
  instrs := [.intrinsic (singleAccess .storeDeref 4 GlslType.vec4_pos writeMask)]

/-- The image is not marked, and all components of the buffer are written. -/
theorem not_staysCoherent :
    ¬ StaysCoherent (fun _ => []) texelShader ∧
      ¬ StaysCoherent (fun _ => []) (oneComponentShader 2) := by
  constructor
  · intro stays
    have exact := (exact_lowered_iff _ _).mp (staysCoherent_iff_marked _ |>.mp stays).2.1
    have coherent := (exact (singleAccess .imageDerefLoad 4 (by decide) 0) (by simp [
      Shader.coherentAccesses, texelShader, Instr.coherentAccess, singleAccess, Intrinsic.coherent,
      ACCESS_COHERENT])).2 rfl 0 _ rfl rfl
    cases coherent
  · intro stays
    have exact := (exact_lowered_iff _ _).mp (staysCoherent_iff_marked _ |>.mp stays).2.1
    have same := (exact (singleAccess .storeDeref 4 (by decide) 2) (by simp [
      Shader.coherentAccesses, oneComponentShader, Instr.coherentAccess, singleAccess,
      Intrinsic.coherent, ACCESS_COHERENT])).1 rfl
    cases (((sameEffect_iff _ rfl).mp same).2 rfl).1

end StaysCoherent

end CoherentAccess

end SpirvToDxil
