import SpirvToDxil.Dxil.IoDependencyTables
import SpirvToDxil.Nir.NonInterference

/-!
# What the analysis of dependencies misses

The worklist goes through everything inside an if or a loop that it reaches, but
not to the phis behind it, which also choose by the way control took. With these
phis pushed too, what the worklist does not reach stores the same in both runs.
-/

namespace SpirvToDxil

open Nir

/-! ## Closed lists from worklists -/

/-- The nodes behind which control comes from blocks that an instruction decides about. -/
def splitBy (instr : Nir.Instr) : CfNode → Bool
  | .ifNode condition _ _ => condition ∈ instr.defs
  | .loopNode loop => instr.isJump ∧ loop.hasOwn instr = true

/-- What an instruction pushes, with the phis behind the nodes it decides about. -/
def completePushes (body : CfList) (instr : Nir.Instr) : List Nir.Instr :=
  pushes body instr ++ body.mergePhis (splitBy instr)

section Covered

variable {Val Input Output InputKey OutputKey : Type}
  {machine : Machine Val Input Output InputKey OutputKey} {output : OutputKey}

/-- Part of a function, by what it consists of, from which an analysis pushes enough. -/
structure Covered (taint : Taint machine output) (input : InputKey) (instrs : List Nir.Instr)
    (ifUses : Nir.Def → List CfNode) (jumpLoops : Nir.Instr → List CfList)
    (mergePhis : (CfNode → Bool) → List Nir.Instr) : Prop where
  instrs : ∀ instr ∈ instrs, InstrClosed taint input instr
  ifs : ∀ value, taint.tainted value → ∀ use ∈ ifUses value, ∀ instr ∈ use.instrs,
    taint.affected instr
  loops : ∀ jump, taint.affected jump → jump.isJump → ∀ loop ∈ jumpLoops jump,
    ∀ instr ∈ loop.instrs, taint.affected instr
  merges : ∀ instr, taint.affected instr → ∀ phi ∈ mergePhis (splitBy instr), taint.affected phi

variable {taint : Taint machine output} {input : InputKey}

theorem Covered.part {instrs instrs' : List Nir.Instr} {ifUses ifUses' : Nir.Def → List CfNode}
    {jumpLoops jumpLoops' : Nir.Instr → List CfList}
    {mergePhis mergePhis' : (CfNode → Bool) → List Nir.Instr}
    (covered : Covered taint input instrs ifUses jumpLoops mergePhis)
    (subInstrs : instrs' ⊆ instrs) (subIfs : ∀ value, ifUses' value ⊆ ifUses value)
    (subLoops : ∀ jump, jumpLoops' jump ⊆ jumpLoops jump)
    (subMerges : ∀ splits, mergePhis' splits ⊆ mergePhis splits) :
    Covered taint input instrs' ifUses' jumpLoops' mergePhis' where
  instrs instr member := covered.instrs instr (subInstrs member)
  ifs value tainted use isUse := covered.ifs value tainted use (subIfs value isUse)
  loops jump affected isJump loop isLoop :=
    covered.loops jump affected isJump loop (subLoops jump isLoop)
  merges instr affected phi merged := covered.merges instr affected phi (subMerges _ merged)

abbrev NodeCovered (taint : Taint machine output) (input : InputKey) (node : CfNode) : Prop :=
  Covered taint input node.instrs (fun value => node.ifUses value) (fun jump => node.jumpLoops jump)
    (fun splits => node.mergePhis splits)

abbrev ListCovered (taint : Taint machine output) (input : InputKey) (list : CfList) : Prop :=
  Covered taint input list.instrs (fun value => list.ifUses value) (fun jump => list.jumpLoops jump)
    (fun splits => list.mergePhis splits)

/-- What decides which way control takes through a node. -/
theorem exists_splitBy {node : CfNode} (split : Splits taint node)
    (defined : ∀ value, taint.tainted value → ∃ instr, taint.affected instr ∧ value ∈ instr.defs) :
    ∃ instr, taint.affected instr ∧ splitBy instr node = true := by
  cases node with
  | ifNode condition thenList elseList =>
    rcases defined condition split with ⟨instr, affected, defines⟩
    exact ⟨instr, affected, decide_eq_true defines⟩
  | loopNode loop =>
    rcases split with ⟨instr, own, jump, affected⟩
    exact ⟨instr, affected, decide_eq_true ⟨jump, own⟩⟩

mutual

theorem nodeClosed_of_covered
    (defined : ∀ value, taint.tainted value → ∃ instr, taint.affected instr ∧ value ∈ instr.defs)
    (node : CfNode) (covered : NodeCovered taint input node) : NodeClosed taint input node := by
  cases node with
  | ifNode condition thenList elseList =>
    have thenCovered : ListCovered taint input thenList := by
      apply covered.part
      · exact List.subset_append_left ..
      · intro value use isUse
        exact List.mem_append_right _ (List.mem_append_left _ isUse)
      · exact fun _ => List.subset_append_left ..
      · exact fun _ => List.subset_append_left ..
    have elseCovered : ListCovered taint input elseList := by
      apply covered.part
      · exact List.subset_append_right ..
      · intro value use isUse
        exact List.mem_append_right _ (List.mem_append_right _ isUse)
      · exact fun _ => List.subset_append_right ..
      · exact fun _ => List.subset_append_right ..
    rw [NodeClosed]
    refine ⟨?_, listClosed_of_covered defined thenList thenCovered,
      listClosed_of_covered defined elseList elseCovered⟩
    intro tainted
    have own : CfNode.ifNode condition thenList elseList ∈
        (CfNode.ifNode condition thenList elseList).ifUses condition := by
      rw [CfNode.ifUses, if_pos rfl]
      exact List.mem_append_left _ (List.mem_singleton.mpr rfl)
    have inside := covered.ifs condition tainted _ own
    rw [CfNode.instrs, List.forall_mem_append] at inside
    exact inside
  | loopNode body =>
    have bodyCovered : ListCovered taint input body := by
      apply covered.part
      · exact List.Subset.refl _
      · exact fun _ => List.Subset.refl _
      · exact fun _ => List.subset_append_right ..
      · exact fun _ => List.Subset.refl _
    rw [NodeClosed]
    refine ⟨?_, listClosed_of_covered defined body bodyCovered⟩
    rintro ⟨jump, own, isJump, affected⟩
    apply covered.loops jump affected isJump body
    show body ∈ (CfNode.loopNode body).jumpLoops jump
    rw [CfNode.jumpLoops, if_pos own]
    exact List.mem_append_left _ (List.mem_singleton.mpr rfl)

theorem listClosed_of_covered
    (defined : ∀ value, taint.tainted value → ∃ instr, taint.affected instr ∧ value ∈ instr.defs)
    (list : CfList) (covered : ListCovered taint input list) : ListClosed taint input list := by
  cases list with
  | last block =>
    rw [ListClosed]
    exact covered.instrs
  | cons block node rest =>
    have nodeCovered : NodeCovered taint input node := by
      apply covered.part
      · intro instr member
        exact List.mem_append_right _ (List.mem_append_left _ member)
      · exact fun _ => List.subset_append_left ..
      · exact fun _ => List.subset_append_left ..
      · intro splits phi merged
        exact List.mem_append_right _ (List.mem_append_left _ merged)
    have restCovered : ListCovered taint input rest := by
      apply covered.part
      · intro instr member
        exact List.mem_append_right _ (List.mem_append_right _ member)
      · exact fun _ => List.subset_append_right ..
      · exact fun _ => List.subset_append_right ..
      · intro splits phi merged
        exact List.mem_append_right _ (List.mem_append_right _ merged)
    rw [ListClosed]
    refine ⟨?_, nodeClosed_of_covered defined node nodeCovered,
      listClosed_of_covered defined rest restCovered, ?_⟩
    · intro instr member
      exact covered.instrs instr (List.mem_append_left _ member)
    · intro split phi member isPhi
      rcases exists_splitBy split defined with ⟨instr, affected, splits⟩
      apply covered.merges instr affected
      show phi ∈ (CfList.cons block node rest).mergePhis (splitBy instr)
      rw [CfList.mergePhis, if_pos splits]
      exact List.mem_append_left _ (List.mem_filter.mpr ⟨member, decide_eq_true isPhi⟩)

end

end Covered

/-! ## Input components -/

inductive InputKey where
  | viewIndex
  | input (component : Nat)
  | patchConst (component : Nat)
  deriving DecidableEq, Repr

namespace IoModule

variable (mod : IoModule)

def inputKey (load : Intrinsic) (i : Nat) : InputKey :=
  if load.op = .loadViewIndex then .viewIndex
  else if mod.readsPatchConst load then .patchConst i
  else .input i

def inputKeys (body : CfList) (load : Intrinsic) : List InputKey :=
  (mod.inputBits body load).map (mod.inputKey load)

def markPlace (tables : DependencyTables) (key : InputKey) (output : Nat × Nat) : Place :=
  let row :=
    match key with
    | .viewIndex => tables.viewid output.2
    | .input i => tables.io output.2 + mod.rowWidth output.2 * i
    | .patchConst i => tables.io (output.2 + 1) + mod.rowWidth (output.2 + 1) * i
  (row + output.1 / 32, output.1 % 32)

theorem expectedPlace_eq_markPlace (tables : DependencyTables) (load : Intrinsic) (i : Nat)
    (output : Nat × Nat) :
    mod.expectedPlace tables load i output = mod.markPlace tables (mod.inputKey load i) output := by
  by_cases view : load.op = .loadViewIndex
  · simp only [expectedPlace, markPlace, inputKey, if_pos view]
  · by_cases patch : mod.readsPatchConst load
    · simp only [expectedPlace, markPlace, inputKey, if_neg view, if_pos patch, tableOf]
    · simp only [expectedPlace, markPlace, inputKey, if_neg view, if_neg patch, tableOf]

end IoModule

def InputKey.Addressable : InputKey → Prop
  | .viewIndex => True
  | .input i => i < 128
  | .patchConst i => i = 0

/-- The worklist goes from a load of the input to a store of the output. -/
def DependsOn (mod : IoModule) (body : CfList) (key : InputKey) (output : Nat × Nat) : Prop :=
  ∃ load i, Depends mod body load i output ∧ mod.inputKey load.2 i = key

/-- An instruction that a load of an input reaches, also through phis behind ifs and loops. -/
def Influenced (mod : IoModule) (body : CfList) (key : InputKey) (instr : Nir.Instr) : Prop :=
  ∃ load ∈ inputLoads body, key ∈ mod.inputKeys body load.2 ∧
    Worklist.Reaches (completePushes body) load.1 instr

def FlowsTo (mod : IoModule) (body : CfList) (key : InputKey) (output : Nat × Nat) : Prop :=
  ∃ store, Influenced mod body key store ∧ Stores mod body store output

/-- Whenever two runs that differ in one input leave different outputs, the bit is set. -/
def MarksDependence (mod : IoModule) (tables : DependencyTables) (functions : List CfList)
    (body : CfList) (key : InputKey) (output : Nat × Nat) : Prop :=
  ∀ (Val Input Output : Type) (machine : Machine Val Input Output InputKey (Nat × Nat)),
    machine.reads = mod.inputKeys body → machine.writes = mod.outputBits body →
    ∀ inputs inputs' : InputKey → Input, (∀ other, other ≠ key → inputs other = inputs' other) →
    ∀ fuel fuel' state result result',
      machine.runList inputs fuel body state = some result →
      machine.runList inputs' fuel' body state = some result' →
      result.2.outputs output ≠ result'.2.outputs output →
      (analyzeIoDependencies mod tables functions).1.Has (mod.markPlace tables key output)

/-! ## Two runs of a shader -/

section Sound

variable {mod : IoModule} {body : CfList} {key : InputKey} {output : Nat × Nat}

theorem Influenced.push {instr other : Nir.Instr} (influenced : Influenced mod body key instr)
    (pushed : other ∈ completePushes body instr) : Influenced mod body key other := by
  rcases influenced with ⟨load, isLoad, reads, reaches⟩
  exact ⟨load, isLoad, reads, reaches.tail pushed⟩

theorem mem_completePushes_of_use {instr user : Nir.Instr} {value : Nir.Def}
    (defines : value ∈ instr.defs) (member : user ∈ body.instrs) (uses : value ∈ user.srcs) :
    user ∈ completePushes body instr := by
  apply List.mem_append_left
  apply List.mem_append_left
  apply List.mem_flatMap.mpr ⟨value, defines, _⟩
  apply List.mem_append_right
  apply List.mem_flatMap.mpr ⟨user, member, _⟩
  exact List.mem_filterMap.mpr ⟨value, uses, if_pos rfl⟩

theorem mem_completePushes_of_if {instr inside : Nir.Instr} {value : Nir.Def} {use : CfNode}
    (defines : value ∈ instr.defs) (isUse : use ∈ body.ifUses value)
    (member : inside ∈ use.instrs) :
    inside ∈ completePushes body instr := by
  apply List.mem_append_left
  apply List.mem_append_left
  apply List.mem_flatMap.mpr ⟨value, defines, _⟩
  apply List.mem_append_left
  exact List.mem_flatMap.mpr ⟨use, isUse, member⟩

theorem mem_completePushes_of_loop {instr inside : Nir.Instr} {loop : CfList} (jump : instr.isJump)
    (isLoop : loop ∈ body.jumpLoops instr) (member : inside ∈ loop.instrs) :
    inside ∈ completePushes body instr := by
  rcases jump with ⟨type, kind⟩
  apply List.mem_append_left
  apply List.mem_append_right
  rw [kind]
  exact List.mem_flatMap.mpr ⟨loop, isLoop, member⟩

theorem mem_inputLoads {instr : Nir.Instr} {intr : Intrinsic} (member : instr ∈ body.instrs)
    (kind : instr.kind = .intrinsic intr) (isLoad : intr.op.isLoad = true) :
    (instr, intr) ∈ inputLoads body := by
  apply List.mem_filterMap.mpr ⟨instr, member, _⟩
  rw [kind]
  exact if_pos isLoad

variable {Val Input Output : Type} {machine : Machine Val Input Output InputKey (Nat × Nat)}

/-- What an input influences, where that is no store of the output. -/
def influence (writes : machine.writes = mod.outputBits body)
    (free : ¬ FlowsTo mod body key output) : Taint machine output where
  affected := Influenced mod body key
  tainted value := ∃ instr, Influenced mod body key instr ∧ value ∈ instr.defs
  tainted_defs affected _ defines := ⟨_, affected, defines⟩
  not_writes affected kind isStore written :=
    free ⟨_, affected, _, kind, isStore, writes ▸ written⟩

theorem listCovered_influence (reads : machine.reads = mod.inputKeys body)
    (writes : machine.writes = mod.outputBits body) (free : ¬ FlowsTo mod body key output) :
    ListCovered (influence writes free) key body where
  instrs instr member := by
    constructor
    · rintro src uses ⟨definer, influenced, defines⟩
      exact influenced.push (mem_completePushes_of_use defines member uses)
    · intro intr kind isLoad read
      rw [reads] at read
      exact ⟨(instr, intr), mem_inputLoads member kind isLoad, read, .refl⟩
  ifs value tainted use isUse instr member := by
    rcases tainted with ⟨definer, influenced, defines⟩
    exact influenced.push (mem_completePushes_of_if defines isUse member)
  loops jump affected isJump loop isLoop instr member :=
    affected.push (mem_completePushes_of_loop isJump isLoop member)
  merges instr affected phi merged := affected.push (List.mem_append_right _ merged)

/-- Outputs that an input does not flow to are the same in both runs. -/
theorem outputs_eq_of_not_flowsTo (reads : machine.reads = mod.inputKeys body)
    (writes : machine.writes = mod.outputBits body)
    (structured : ∀ instr, body.hasOwn instr = true → ¬ instr.isJump)
    (free : ¬ FlowsTo mod body key output) {inputs inputs' : InputKey → Input}
    (same : ∀ other, other ≠ key → inputs other = inputs' other) {fuel fuel' : Nat}
    {state : State Val Output (Nat × Nat)} {result result' : Result Val Output (Nat × Nat)}
    (ran : machine.runList inputs fuel body state = some result)
    (ran' : machine.runList inputs' fuel' body state = some result') :
    result.2.outputs output = result'.2.outputs output := by
  have closed : ListClosed (influence writes free) key body :=
    listClosed_of_covered (fun _ tainted => tainted) body (listCovered_influence reads writes free)
  have stays : ∀ instr, body.hasOwn instr = true → instr.isJump →
      ¬ (influence writes free).affected instr :=
    fun instr own jump => absurd jump (structured instr own)
  exact (inStep_runList same closed stays (Agree.refl state) (Or.inl rfl) ran ran').1.agree.outputs

end Sound

section Merge

def mergeLoad : Nir.Instr × Intrinsic :=
  let intr : Intrinsic := ⟨.loadInput, [0], 0, 1, 1⟩
  (⟨1, .intrinsic intr⟩, intr)

def mergeStore : Nir.Instr := ⟨5, .intrinsic ⟨.storeOutput, [4, 0], 0, 0, 1⟩⟩

/-- An if without instructions, and a phi behind it that chooses between two constants. -/
def mergeBody : CfList :=
  .cons ⟨0, [⟨0, .loadConst 0⟩, mergeLoad.1, ⟨2, .loadConst 2⟩, ⟨3, .loadConst 3⟩]⟩
    (.ifNode 1 (.last ⟨1, []⟩) (.last ⟨2, []⟩))
    (.last ⟨3, [⟨4, .phi [(1, 2), (2, 3)]⟩, mergeStore]⟩)

theorem merge_intrinsics {instr : Nir.Instr} (member : instr ∈ mergeBody.instrs) {intr : Intrinsic}
    (isIntrinsic : instr.kind = .intrinsic intr) :
    intr = mergeLoad.2 ∨ intr = ⟨.storeOutput, [4, 0], 0, 0, 1⟩ := by
  simp only [mergeBody, CfList.instrs, CfNode.instrs, List.mem_cons, List.mem_append,
    List.not_mem_nil, or_false, false_or] at member
  rcases member with (rfl | rfl | rfl | rfl) | rfl | rfl
  · cases isIntrinsic
  · exact Or.inl (InstrKind.intrinsic.inj isIntrinsic).symm
  · cases isIntrinsic
  · cases isIntrinsic
  · cases isIntrinsic
  · exact Or.inr (InstrKind.intrinsic.inj isIntrinsic).symm

theorem validShader_merge :
    ValidShader (processSignatures (copySignatures .vertex)) false [mergeBody] where
  rows body listed instr member intr isIntrinsic row isConst notView := by
    rw [List.mem_singleton] at listed
    subst listed
    rcases merge_intrinsics member isIntrinsic with rfl | rfl
    · cases Option.some.inj (isConst.symm.trans (by decide : _ = some 0))
      decide
    · cases Option.some.inj (isConst.symm.trans (by decide : _ = some 0))
      decide
  components body listed instr member intr isIntrinsic := by
    rw [List.mem_singleton] at listed
    subst listed
    rcases merge_intrinsics member isIntrinsic with rfl | rfl <;> decide
  viewIds body listed instr member intr isIntrinsic view := by
    rw [List.mem_singleton] at listed
    subst listed
    rcases merge_intrinsics member isIntrinsic with rfl | rfl <;> cases view

/-- Values are numbers, and stores write their first source. -/
def numberMachine (mod : IoModule) (body : CfList) :
    Machine Nat Nat Nat InputKey (Nat × Nat) where
  reads := mod.inputKeys body
  writes := mod.outputBits body
  alu _ srcs := srcs.sum
  const value := value
  truth value := value ≠ 0
  load _ inputs _ := inputs.sum
  store _ _ srcs _ := srcs.headD 0

/-- The load in `mergeBody` reaches no store. -/
theorem not_depends_merge {load : Nir.Instr × Intrinsic} {i : Nat} {output : Nat × Nat} :
    ¬ Depends (processSignatures (copySignatures .vertex)) mergeBody load i output := by
  intro depends
  have member : load ∈ [mergeLoad] := depends.load_mem
  rw [List.mem_singleton] at member
  subst member
  rcases depends.store with ⟨store, reaches, intr, kind, isStore, -⟩
  have own : store = mergeLoad.1 := by
    cases Relation.ReflTransGen.cases_head reaches with
    | inl same => exact same.symm
    | inr later =>
      rcases later with ⟨next, pushed, -⟩
      have nothing : pushes mergeBody mergeLoad.1 = [] := by decide
      rw [nothing] at pushed
      cases pushed
  subst own
  cases InstrKind.intrinsic.inj kind
  cases isStore

end Merge

end SpirvToDxil
