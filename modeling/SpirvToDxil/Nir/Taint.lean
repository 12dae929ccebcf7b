import SpirvToDxil.Nir.Exec

/-!
# What one input can influence

A set of affected instructions that is closed under uses, under the regions
that affected conditions and jumps control, and under the phis behind those
regions: two runs that differ in one input agree on everything else.
-/

namespace SpirvToDxil.Nir

variable {Val Input Output InputKey OutputKey : Type}

/-- The instructions that one input may affect, and the values they define; none of them
writes the output in question. -/
structure Taint (machine : Machine Val Input Output InputKey OutputKey) (output : OutputKey) where
  affected : Instr → Prop
  tainted : Def → Prop
  tainted_defs : ∀ {instr}, affected instr → ∀ value ∈ instr.defs, tainted value
  not_writes : ∀ {instr intr}, affected instr → instr.kind = .intrinsic intr →
    intr.op.isLoad = false → output ∉ machine.writes intr

section Closed

variable {machine : Machine Val Input Output InputKey OutputKey} {output : OutputKey}
  (taint : Taint machine output) (input : InputKey)

/-- Uses of tainted values and loads of the input are affected. -/
structure InstrClosed (instr : Instr) : Prop where
  uses : ∀ src ∈ instr.srcs, taint.tainted src → taint.affected instr
  loads : ∀ intr, instr.kind = .intrinsic intr → intr.op.isLoad = true →
    input ∈ machine.reads intr → taint.affected instr

def JumpsOut (list : CfList) : Prop :=
  ∃ instr, list.hasOwn instr = true ∧ instr.isJump ∧ taint.affected instr

/-- A node after which control may come from different blocks. -/
def Splits : CfNode → Prop
  | .ifNode condition _ _ => taint.tainted condition
  | .loopNode body => JumpsOut taint body

mutual

def NodeClosed : CfNode → Prop
  | .ifNode condition thenList elseList =>
    (taint.tainted condition →
      (∀ instr ∈ thenList.instrs, taint.affected instr) ∧
        ∀ instr ∈ elseList.instrs, taint.affected instr) ∧
      ListClosed thenList ∧ ListClosed elseList
  | .loopNode body =>
    (JumpsOut taint body → ∀ instr ∈ body.instrs, taint.affected instr) ∧ ListClosed body

def ListClosed : CfList → Prop
  | .last block => ∀ instr ∈ block.instrs, InstrClosed taint input instr
  | .cons block node rest =>
    (∀ instr ∈ block.instrs, InstrClosed taint input instr) ∧ NodeClosed node ∧
      ListClosed rest ∧
      (Splits taint node → ∀ instr ∈ rest.firstBlock.instrs, instr.isPhi → taint.affected instr)

end

/-- Two states that differ only in tainted values and other outputs. -/
structure Agree (state state' : State Val Output OutputKey) : Prop where
  env : ∀ value, ¬ taint.tainted value → state.env value = state'.env value
  outputs : state.outputs output = state'.outputs output

variable {taint}

theorem Agree.refl (state : State Val Output OutputKey) : Agree taint state state :=
  ⟨fun _ _ => rfl, rfl⟩

theorem Agree.symm {state state' : State Val Output OutputKey} (agree : Agree taint state state') :
    Agree taint state' state :=
  ⟨fun value untainted => (agree.env value untainted).symm, agree.outputs.symm⟩

theorem Agree.trans {state state' state'' : State Val Output OutputKey}
    (first : Agree taint state state') (second : Agree taint state' state'') :
    Agree taint state state'' :=
  ⟨fun value untainted => (first.env value untainted).trans (second.env value untainted),
    first.outputs.trans second.outputs⟩

theorem Agree.set {state state' : State Val Output OutputKey} (agree : Agree taint state state')
    (value : Def) {val val' : Val} (same : ¬ taint.tainted value → val = val') :
    Agree taint (state.set value val) (state'.set value val') where
  env other untainted := by
    rw [State.set, State.set]
    by_cases own : other = value
    · subst own
      simp only [Function.update_self]
      exact same untainted
    · simp only [Function.update_of_ne own]
      exact agree.env other untainted
  outputs := agree.outputs

end Closed

section Run

variable {machine : Machine Val Input Output InputKey OutputKey} {output : OutputKey}
  {taint : Taint machine output} {input : InputKey} {inputs inputs' : InputKey → Input}

theorem map_env_eq {state state' : State Val Output OutputKey} (agree : Agree taint state state')
    {srcs : List Def} (untainted : ∀ src ∈ srcs, ¬ taint.tainted src) :
    srcs.map state.env = srcs.map state'.env :=
  List.map_congr_left (fun src member => agree.env src (untainted src member))

theorem tainted_of_isPhi {instr : Instr} (phi : instr.isPhi) (affected : taint.affected instr) :
    taint.tainted instr.index := by
  rcases phi with ⟨srcs, kind⟩
  apply taint.tainted_defs affected
  rw [Instr.defs, kind]
  exact List.mem_singleton.mpr rfl

/-! ## Phis -/

theorem phiStep_phi {state : State Val Output OutputKey} {env : Def → Val} {instr : Instr}
    {srcs : List (Nat × Def)} (kind : instr.kind = .phi srcs) :
    phiStep state env instr =
      match srcs.lookup state.pred with
      | some src => Function.update env instr.index (state.env src)
      | none => env := by
  cases found : srcs.lookup state.pred with
  | none => simp only [phiStep, kind, found]
  | some src => simp only [phiStep, kind, found]

theorem phiStep_of_not_isPhi {state : State Val Output OutputKey} {env : Def → Val} {instr : Instr}
    (other : ¬ instr.isPhi) : phiStep state env instr = env := by
  rw [phiStep]
  cases kind : instr.kind with
  | phi srcs => exact absurd ⟨srcs, kind⟩ other
  | alu op srcs => rfl
  | loadConst value => rfl
  | intrinsic intr => rfl
  | jump type => rfl

/-- An affected phi changes only its own, tainted value. -/
theorem phiStep_of_affected {state : State Val Output OutputKey} {env : Def → Val} {instr : Instr}
    (affected : taint.affected instr) {value : Def} (untainted : ¬ taint.tainted value) :
    phiStep state env instr value = env value := by
  by_cases phi : instr.isPhi
  · have other : value ≠ instr.index := by
      rintro rfl
      exact untainted (tainted_of_isPhi phi affected)
    rcases phi with ⟨srcs, kind⟩
    rw [phiStep_phi kind]
    split
    · exact Function.update_of_ne other ..
    · rfl
  · rw [phiStep_of_not_isPhi phi]

theorem mem_map_snd_of_lookup {srcs : List (Nat × Def)} {pred : Nat} {src : Def}
    (found : srcs.lookup pred = some src) : src ∈ srcs.map Prod.snd := by
  rcases List.lookup_eq_some_iff.mp found with ⟨before, after, rfl, -⟩
  rw [List.map_append, List.map_cons]
  exact List.mem_append_right _ List.mem_cons_self

theorem Agree.phiStep {state state' : State Val Output OutputKey} (agree : Agree taint state state')
    {instr : Instr} (closed : InstrClosed taint input instr)
    (joined : state.pred = state'.pred ∨ (instr.isPhi → taint.affected instr))
    {env env' : Def → Val} (same : ∀ value, ¬ taint.tainted value → env value = env' value)
    {value : Def} (untainted : ¬ taint.tainted value) :
    Nir.phiStep state env instr value = Nir.phiStep state' env' instr value := by
  by_cases phi : instr.isPhi
  · by_cases affected : taint.affected instr
    · rw [phiStep_of_affected affected untainted, phiStep_of_affected affected untainted]
      exact same value untainted
    · have samePred : state.pred = state'.pred := by
        rcases joined with samePred | joined
        · exact samePred
        · exact absurd (joined phi) affected
      rcases phi with ⟨srcs, kind⟩
      rw [phiStep_phi kind, phiStep_phi kind, samePred]
      split
      · rename_i src found
        have source : src ∈ instr.srcs := by
          rw [Instr.srcs, kind]
          exact mem_map_snd_of_lookup found
        have sameSource : state.env src = state'.env src := by
          apply agree.env
          intro tainted
          exact affected (closed.uses src source tainted)
        rw [sameSource]
        by_cases own : value = instr.index
        · subst own
          rw [Function.update_self, Function.update_self]
        · rw [Function.update_of_ne own, Function.update_of_ne own]
          exact same value untainted
      · exact same value untainted
  · rw [phiStep_of_not_isPhi phi, phiStep_of_not_isPhi phi]
    exact same value untainted

theorem Agree.phiValues {state state' : State Val Output OutputKey}
    (agree : Agree taint state state') {instrs : List Instr}
    (closed : ∀ instr ∈ instrs, InstrClosed taint input instr)
    (joined : state.pred = state'.pred ∨ ∀ instr ∈ instrs, instr.isPhi → taint.affected instr) :
    ∀ value, ¬ taint.tainted value →
      Nir.phiValues state instrs value = Nir.phiValues state' instrs value := by
  rw [Nir.phiValues, Nir.phiValues]
  have envs : ∀ value, ¬ taint.tainted value → state.env value = state'.env value := agree.env
  revert envs
  generalize state.env = env
  generalize state'.env = env'
  intro envs
  induction instrs generalizing env env' with
  | nil => exact envs
  | cons instr instrs hypothesis =>
    rw [List.forall_mem_cons] at closed
    have joinedHere : state.pred = state'.pred ∨ (instr.isPhi → taint.affected instr) :=
      joined.imp_right (fun all => all instr List.mem_cons_self)
    have joinedRest := joined.imp_right
      (fun all instr member => all instr (List.mem_cons_of_mem _ member))
    rw [List.foldl_cons, List.foldl_cons]
    apply hypothesis closed.2 joinedRest
    intro value untainted
    exact agree.phiStep closed.1 joinedHere envs untainted

theorem agree_phiValues_self {instrs : List Instr}
    (affected : ∀ instr ∈ instrs, taint.affected instr) (state : State Val Output OutputKey)
    {value : Def} (untainted : ¬ taint.tainted value) :
    phiValues state instrs value = state.env value := by
  rw [phiValues]
  generalize state.env = env
  induction instrs generalizing env with
  | nil => rfl
  | cons instr instrs hypothesis =>
    rw [List.forall_mem_cons] at affected
    rw [List.foldl_cons, hypothesis affected.2]
    exact phiStep_of_affected affected.1 untainted

/-! ## Blocks -/

variable [DecidableEq OutputKey]

theorem Agree.stepInstr {state state' : State Val Output OutputKey}
    (agree : Agree taint state state') (same : ∀ key, key ≠ input → inputs key = inputs' key)
    {instr : Instr} (closed : InstrClosed taint input instr) :
    Agree taint (machine.stepInstr inputs state instr)
    (machine.stepInstr inputs' state' instr) := by
  have untaintedSrcs : ¬ taint.affected instr → ∀ src ∈ instr.srcs, ¬ taint.tainted src :=
    fun unaffected src member tainted => unaffected (closed.uses src member tainted)
  have ownUntainted : instr.defs = [instr.index] → ¬ taint.tainted instr.index →
      ¬ taint.affected instr := by
    intro defines untainted affected
    apply untainted
    apply taint.tainted_defs affected
    rw [defines]
    exact List.mem_singleton.mpr rfl
  rw [Machine.stepInstr, Machine.stepInstr]
  cases kind : instr.kind with
  | alu op srcs =>
    apply agree.set
    intro untainted
    have unaffected := ownUntainted (by rw [Instr.defs, kind]) untainted
    have srcsEq := untaintedSrcs unaffected
    rw [Instr.srcs, kind] at srcsEq
    rw [map_env_eq agree srcsEq]
  | loadConst value => exact agree.set _ (fun _ => rfl)
  | phi srcs => exact agree
  | jump type => exact agree
  | intrinsic intr =>
    have srcsOf : instr.srcs = intr.srcs := by rw [Instr.srcs, kind]
    by_cases isLoad : intr.op.isLoad = true
    · simp only [isLoad, if_true]
      apply agree.set
      intro untainted
      have unaffected := ownUntainted (by rw [Instr.defs, kind]; exact if_pos isLoad) untainted
      have srcsEq := untaintedSrcs unaffected
      rw [srcsOf] at srcsEq
      have readsEq : (machine.reads intr).map inputs = (machine.reads intr).map inputs' := by
        apply List.map_congr_left
        intro key member
        apply same
        intro own
        exact unaffected (closed.loads intr kind isLoad (own ▸ member))
      rw [map_env_eq agree srcsEq, readsEq]
    · simp only [isLoad, Bool.false_eq_true, if_false]
      refine ⟨agree.env, ?_⟩
      dsimp only
      by_cases written : output ∈ machine.writes intr
      · have unaffected : ¬ taint.affected instr := fun affected =>
          taint.not_writes affected kind (Bool.eq_false_iff.mpr isLoad) written
        have srcsEq := untaintedSrcs unaffected
        rw [srcsOf] at srcsEq
        rw [if_pos written, if_pos written, map_env_eq agree srcsEq, agree.outputs]
      · rw [if_neg written, if_neg written, agree.outputs]

/-- An affected instruction changes nothing that is not tainted. -/
theorem agree_stepInstr_self {instr : Instr} (affected : taint.affected instr)
    (state : State Val Output OutputKey) :
    Agree taint state (machine.stepInstr inputs state instr) := by
  have set : ∀ val, instr.defs = [instr.index] → Agree taint state (state.set instr.index val) := by
    intro val defines
    refine ⟨?_, rfl⟩
    intro value untainted
    have other : value ≠ instr.index := by
      rintro rfl
      apply untainted
      apply taint.tainted_defs affected
      rw [defines]
      exact List.mem_singleton.mpr rfl
    exact (Function.update_of_ne other ..).symm
  rw [Machine.stepInstr]
  cases kind : instr.kind with
  | alu op srcs => exact set _ (by rw [Instr.defs, kind])
  | loadConst value => exact set _ (by rw [Instr.defs, kind])
  | phi srcs => exact Agree.refl state
  | jump type => exact Agree.refl state
  | intrinsic intr =>
    by_cases isLoad : intr.op.isLoad = true
    · simp only [isLoad, if_true]
      exact set _ (by rw [Instr.defs, kind]; exact if_pos isLoad)
    · simp only [isLoad, Bool.false_eq_true, if_false]
      refine ⟨fun _ _ => rfl, ?_⟩
      exact (if_neg (taint.not_writes affected kind (Bool.eq_false_iff.mpr isLoad))).symm

theorem pred_stepInstr (state : State Val Output OutputKey) (instr : Instr) :
    (machine.stepInstr inputs state instr).pred = state.pred := by
  rw [Machine.stepInstr]
  split
  · rfl
  · rfl
  · dsimp only
    split
    · rfl
    · rfl
  · rfl
  · rfl

theorem runInstrs_jump {state : State Val Output OutputKey} {instr : Instr} {instrs : List Instr}
    {type : JumpType} (kind : instr.kind = .jump type) :
    machine.runInstrs inputs state (instr :: instrs) = (.jump type, state) := by
  rw [Machine.runInstrs, kind]

theorem runInstrs_step {state : State Val Output OutputKey} {instr : Instr} {instrs : List Instr}
    (other : ¬ instr.isJump) :
    machine.runInstrs inputs state (instr :: instrs) =
      machine.runInstrs inputs (machine.stepInstr inputs state instr) instrs := by
  rw [Machine.runInstrs]
  split
  · rename_i type kind
    exact absurd ⟨type, kind⟩ other
  · rfl

theorem pred_runInstrs (state : State Val Output OutputKey) (instrs : List Instr) :
    (machine.runInstrs inputs state instrs).2.pred = state.pred := by
  induction instrs generalizing state with
  | nil => rfl
  | cons instr instrs hypothesis =>
    by_cases jump : instr.isJump
    · rcases jump with ⟨type, kind⟩
      rw [runInstrs_jump kind]
    · rw [runInstrs_step jump, hypothesis, pred_stepInstr]

theorem pred_runBlock (block : Block) (state : State Val Output OutputKey) :
    (machine.runBlock inputs block state).2.pred = block.index :=
  pred_runInstrs _ _

/-- Two results with one outcome, in agreeing states. -/
structure InStep (taint : Taint machine output) (result result' : Result Val Output OutputKey) :
    Prop where
  outcome : result.1 = result'.1
  agree : Agree taint result.2 result'.2

theorem inStep_runInstrs (same : ∀ key, key ≠ input → inputs key = inputs' key)
    {instrs : List Instr} (closed : ∀ instr ∈ instrs, InstrClosed taint input instr)
    {state state' : State Val Output OutputKey} (agree : Agree taint state state') :
    InStep taint (machine.runInstrs inputs state instrs)
      (machine.runInstrs inputs' state' instrs) := by
  induction instrs generalizing state state' with
  | nil => exact ⟨rfl, agree⟩
  | cons instr instrs hypothesis =>
    rw [List.forall_mem_cons] at closed
    by_cases jump : instr.isJump
    · rcases jump with ⟨type, kind⟩
      rw [runInstrs_jump kind, runInstrs_jump kind]
      exact ⟨rfl, agree⟩
    · rw [runInstrs_step jump, runInstrs_step jump]
      exact hypothesis closed.2 (agree.stepInstr same closed.1)

theorem inStep_runBlock (same : ∀ key, key ≠ input → inputs key = inputs' key) {block : Block}
    (closed : ∀ instr ∈ block.instrs, InstrClosed taint input instr)
    {state state' : State Val Output OutputKey} (agree : Agree taint state state')
    (joined : state.pred = state'.pred ∨
      ∀ instr ∈ block.instrs, instr.isPhi → taint.affected instr) :
    InStep taint (machine.runBlock inputs block state) (machine.runBlock inputs' block state') :=
  inStep_runInstrs same closed ⟨agree.phiValues closed joined, agree.outputs⟩

theorem agree_runInstrs_self {instrs : List Instr}
    (affected : ∀ instr ∈ instrs, taint.affected instr) (state : State Val Output OutputKey) :
    Agree taint state (machine.runInstrs inputs state instrs).2 := by
  induction instrs generalizing state with
  | nil => exact Agree.refl state
  | cons instr instrs hypothesis =>
    rw [List.forall_mem_cons] at affected
    by_cases jump : instr.isJump
    · rcases jump with ⟨type, kind⟩
      rw [runInstrs_jump kind]
      exact Agree.refl state
    · rw [runInstrs_step jump]
      exact (agree_stepInstr_self affected.1 state).trans (hypothesis affected.2 _)

theorem agree_runBlock_self {block : Block}
    (affected : ∀ instr ∈ block.instrs, taint.affected instr) (state : State Val Output OutputKey) :
    Agree taint state (machine.runBlock inputs block state).2 := by
  have phis : Agree taint state
      { state with env := phiValues state block.instrs, pred := block.index } :=
    ⟨fun value untainted => (agree_phiValues_self affected state untainted).symm, rfl⟩
  exact phis.trans (agree_runInstrs_self affected _)

theorem mem_of_runInstrs_jump {instrs : List Instr} {state : State Val Output OutputKey}
    {type : JumpType} (jumps : (machine.runInstrs inputs state instrs).1 = .jump type) :
    ∃ instr ∈ instrs, instr.isJump := by
  induction instrs generalizing state with
  | nil => cases jumps
  | cons instr instrs hypothesis =>
    by_cases jump : instr.isJump
    · exact ⟨instr, List.mem_cons_self, jump⟩
    · rw [runInstrs_step jump] at jumps
      rcases hypothesis jumps with ⟨other, member, isJump⟩
      exact ⟨other, List.mem_cons_of_mem _ member, isJump⟩

end Run

end SpirvToDxil.Nir
