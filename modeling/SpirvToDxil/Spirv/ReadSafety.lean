import SpirvToDxil.Spirv.Prepass

/-!
# Reads of the prepass stay in their instructions
-/

namespace SpirvToDxil

namespace Spirv

/-- The word read lies in the section, and an operand in its instruction. -/
def Access.Inside (words : Words) : Access → Prop
  | header position => position < words.finish
  | operand w index => index < w.count ∧ w.position + w.count ≤ words.finish

def Succeeds {α : Type} (parse : Parse α) : Prop := ∃ value, parse.result = .ok value

section Handlers

variable (callees : Callees) (words : Words) (b : Builder) (w : Instruction)

def Words.operand (w : Instruction) (index : Nat) : UInt32 := words.memory (w.position + index)

/-- The type and the id that start an `OpFunction` are taken. -/
structure FunctionResolves : Prop where
  type : Succeeds (b.vtnGetType (words.operand w 1))
  id : Succeeds (b.vtnPushValue (words.operand w 2) fun val => { val with valueType := .function })
  decorations : (callees.functionLinkage (words.operand w 2)).isSome

/-- The parameter's type is found and has a value. -/
def ParameterResolves : Prop :=
  ∃ type, (b.vtnGetType (words.operand w 1)).result = .ok type ∧ callees.createSsaValue type

/-- The instruction has the operands that are read before the prepass fails on it. -/
def LongEnough : SpvOp → Prop
  | .opLine =>
    4 ≤ w.count ∨ 2 ≤ w.count ∧ ¬Succeeds (b.vtnValue (words.operand w 1) .string)
  | .opFunction =>
    b.func.isNone → 5 ≤ w.count ∨ w.count = 4 ∧ ¬FunctionResolves callees words b w
  | .opFunctionParameter =>
    ∀ func, b.func = some func → b.funcParamIdx < func.numParams →
      3 ≤ w.count ∨ w.count = 2 ∧ ¬ParameterResolves callees words b w
  | .opLabel => b.block.isNone → 2 ≤ w.count
  | _ => True

variable {callees words b w}

@[simp]
theorem all_vtnAssert (predicate : Access → Prop) (condition : Bool) :
    (vtnAssert condition).All predicate := by
  cases condition <;> simp [vtnAssert]

@[simp]
theorem all_vtnFailIf (predicate : Access → Prop) (condition : Bool) :
    (vtnFailIf condition).All predicate := all_vtnAssert predicate !condition

@[simp]
theorem all_follow {α : Type} (predicate : Access → Prop) (pointer : Option α) :
    (follow pointer).All predicate := by
  cases pointer <;> simp [follow]

@[simp]
theorem all_orFail {α : Type} (predicate : Access → Prop) (found : Option α) :
    (orFail found).All predicate := by
  cases found <;> simp [orFail]

@[simp]
theorem vtnAssert_eq_ok (condition : Bool) (value : Unit) :
    (vtnAssert condition).result = .ok value ↔ condition = true := by
  cases condition <;> simp [vtnAssert]

@[simp]
theorem follow_eq_ok {α : Type} (pointer : Option α) (value : α) :
    (follow pointer).result = .ok value ↔ pointer = some value := by
  cases pointer <;> simp [follow]

@[simp]
theorem orFail_eq_ok {α : Type} (found : Option α) (value : α) :
    (orFail found).result = .ok value ↔ found = some value := by
  cases found <;> simp [orFail]

@[simp]
theorem all_vtnUntypedValue (predicate : Access → Prop) (id : UInt32) :
    (b.vtnUntypedValue id).All predicate := all_orFail predicate _

@[simp]
theorem all_vtnValue (predicate : Access → Prop) (id : UInt32) (valueType : ValueType) :
    (b.vtnValue id valueType).All predicate := by
  simp [Builder.vtnValue]

@[simp]
theorem all_vtnGetType (predicate : Access → Prop) (id : UInt32) :
    (b.vtnGetType id).All predicate := by
  simp [Builder.vtnGetType]

@[simp]
theorem all_vtnBlock (predicate : Access → Prop) (id : UInt32) :
    (b.vtnBlock id).All predicate := by
  simp [Builder.vtnBlock]

@[simp]
theorem all_vtnPushValue (predicate : Access → Prop) (id : UInt32) (fill : Value → Value) :
    (b.vtnPushValue id fill).All predicate := by
  simp [Builder.vtnPushValue]

@[simp]
theorem all_vtnPushSsaValue (predicate : Access → Prop) (id : UInt32) (ssaType : Nat) :
    (b.vtnPushSsaValue id ssaType).All predicate := by
  simp [Builder.vtnPushSsaValue, Builder.vtnGetValueType]

@[simp]
theorem all_word (index : Nat) :
    (words.word w index).All (Access.Inside words) ↔
      index < w.count ∧ w.position + w.count ≤ words.finish :=
  Logged.all_record _ _

@[simp]
theorem word_eq_ok (index : Nat) (value : UInt32) :
    (words.word w index).result = .ok value ↔ words.operand w index = value := by
  simp [Words.word, Words.operand]

variable (inside : w.position + w.count ≤ words.finish)
include inside

theorem handleLine_all_iff :
    (handleLine words b w).All (Access.Inside words) ↔ LongEnough callees words b w .opLine := by
  simp only [handleLine, LongEnough, Logged.all_bind, all_word, word_eq_ok, all_vtnValue, inside,
    and_true, true_and, forall_eq', Logged.all_pure, implies_true]
  constructor
  · rintro ⟨first, rest⟩
    by_cases string : Succeeds (b.vtnValue (words.operand w 1) .string)
    · obtain ⟨val, found⟩ := string
      exact .inl (rest val found).2
    · exact .inr ⟨first, string⟩
  · rintro (long | ⟨first, missing⟩)
    · exact ⟨by omega, fun val found => ⟨by omega, long⟩⟩
    · exact ⟨first, fun val found => absurd ⟨val, found⟩ missing⟩

theorem handleLabel_all_iff :
    (handleLabel words b w).All (Access.Inside words) ↔
      LongEnough callees words b w .opLabel := by
  simp [handleLabel, LongEnough, inside]
  rfl

theorem handleFunctionParameter_all_iff :
    (handleFunctionParameter callees words b w).All (Access.Inside words) ↔
      LongEnough callees words b w .opFunctionParameter := by
  simp only [handleFunctionParameter, LongEnough, Logged.all_bind, all_follow, all_vtnAssert,
    all_word, all_vtnGetType, all_vtnUntypedValue, all_orFail, all_vtnPushSsaValue, follow_eq_ok,
    vtnAssert_eq_ok, word_eq_ok, orFail_eq_ok, inside, and_true, true_and, forall_eq',
    forall_const, decide_eq_true_eq, implies_true]
  apply forall₃_congr
  intro func _ _
  constructor
  · rintro ⟨first, rest⟩
    by_cases resolves : ParameterResolves callees words b w
    · obtain ⟨type, found, created⟩ := resolves
      exact .inl (rest type found created).1
    · rcases Nat.lt_or_ge 2 w.count with long | short
      · exact .inl long
      · exact .inr ⟨by omega, resolves⟩
  · rintro (long | ⟨two, missing⟩)
    · exact ⟨by omega, fun type found created => ⟨long, fun _ _ _ _ => long⟩⟩
    · exact ⟨by omega, fun type found created => absurd ⟨type, found, created⟩ missing⟩

theorem handleFunction_all_iff :
    (handleFunction callees words b w).All (Access.Inside words) ↔
      LongEnough callees words b w .opFunction := by
  simp only [handleFunction, LongEnough, Logged.all_bind, all_follow, all_vtnAssert, all_word,
    all_vtnGetType, all_vtnPushValue, all_orFail, vtnAssert_eq_ok, word_eq_ok, orFail_eq_ok,
    inside, and_true, true_and, forall_eq', forall_const, Logged.all_pure, implies_true]
  apply forall_congr'
  intro _
  constructor
  · rintro ⟨third, first, rest⟩
    by_cases resolves : FunctionResolves callees words b w
    · obtain ⟨⟨type, found⟩, ⟨pushed, free⟩, decorated⟩ := resolves
      obtain ⟨linkage, decorations⟩ := Option.isSome_iff_exists.mp decorated
      exact .inl ((rest type found).2 pushed free linkage decorations)
    · rcases Nat.lt_or_ge 4 w.count with long | short
      · exact .inl long
      · exact .inr ⟨by omega, resolves⟩
  · rintro (long | ⟨four, missing⟩)
    · exact ⟨by omega, by omega, fun _ _ => ⟨by omega, fun _ _ _ _ => long⟩⟩
    · refine ⟨by omega, by omega, fun type found => ⟨by omega, ?_⟩⟩
      intro pushed free linkage decorations
      exact absurd ⟨⟨type, found⟩, ⟨pushed, free⟩, Option.isSome_of_mem decorations⟩ missing

omit inside in
theorem all_handleFunctionEnd (predicate : Access → Prop) :
    (handleFunctionEnd b).All predicate := by
  simp only [handleFunctionEnd, Logged.all_bind, all_follow, true_and]
  intro func _
  split <;> simp

omit inside in
theorem all_handleMerge (predicate : Access → Prop) : (handleMerge b w).All predicate := by
  simp [handleMerge]

omit inside in
theorem all_handleBranch (predicate : Access → Prop) (opcode : SpvOp) :
    (handleBranch b opcode w).All predicate := by
  unfold handleBranch
  split <;> simp

/-- One instruction is read in bounds just when it is long enough. -/
theorem visitInstruction_all_iff (opcode : SpvOp) :
    (visitInstruction words (vtnCfgHandlePrepassInstruction callees words) b opcode w).All
        (Access.Inside words) ↔ LongEnough callees words b w opcode := by
  cases opcode with
  | opLine =>
      rw [← handleLine_all_iff inside]
      simp [visitInstruction]
  | opFunction =>
      rw [← handleFunction_all_iff inside]
      simp [visitInstruction, vtnCfgHandlePrepassInstruction]
  | opFunctionParameter =>
      rw [← handleFunctionParameter_all_iff inside]
      simp [visitInstruction, vtnCfgHandlePrepassInstruction]
  | opLabel =>
      rw [← @handleLabel_all_iff callees _ _ _ inside]
      simp [visitInstruction, vtnCfgHandlePrepassInstruction]
  | _ =>
      simp [visitInstruction, vtnCfgHandlePrepassInstruction, LongEnough, all_handleFunctionEnd,
        all_handleMerge, all_handleBranch]

end Handlers

section Walk

variable (callees : Callees) (words : Words)

abbrev visit (b : Builder) (opcode : SpvOp) (w : Instruction) : Parse (Bool × Builder) :=
  visitInstruction words (vtnCfgHandlePrepassInstruction callees words) b opcode w

def Words.Bounded (position : Nat) : Prop :=
  position < words.finish ∧ 1 ≤ (words.instruction position).count ∧
    position + (words.instruction position).count ≤ words.finish

inductive Reached (start : Builder) : Nat → Builder → Prop
  | start : Reached start words.start start
  | next {position : Nat} {b b' : Builder} : Reached start position b → words.Bounded position →
      (visit callees words b (words.opcode position) (words.instruction position)).result =
        .ok (true, b') →
      Reached start (position + (words.instruction position).count) b'

def walk (b : Builder) : Parse (Nat × Builder) :=
  vtnForeachInstruction words (vtnCfgHandlePrepassInstruction callees words) words.start b

variable {callees words}

theorem vtnForeachInstruction_all_of_bounded {predicate : Access → Prop} {position : Nat}
    {b : Builder} (bounded : words.Bounded position) :
    (vtnForeachInstruction words (vtnCfgHandlePrepassInstruction callees words) position b).All
        predicate ↔
      predicate (.header position) ∧
        (visit callees words b (words.opcode position) (words.instruction position)).All
          predicate ∧
        ∀ b', (visit callees words b (words.opcode position) (words.instruction position)).result =
            .ok (true, b') →
          (vtnForeachInstruction words (vtnCfgHandlePrepassInstruction callees words)
            (position + (words.instruction position).count) b').All predicate := by
  rw [vtnForeachInstruction, dif_pos bounded.1]
  simp only [Logged.all_bind, Logged.all_record, Logged.result_record]
  apply and_congr_right
  intro _
  simp only [dif_pos bounded.2, Logged.all_bind, forall_const, Prod.forall]
  apply and_congr_right
  intro _
  constructor
  · intro rest b' visited
    exact rest true b' visited
  · rintro rest (_ | _) b' visited
    · apply Logged.all_pure
    · exact rest b' visited

theorem vtnForeachInstruction_all_of_not_bounded {position : Nat} {b : Builder}
    (bounded : ¬words.Bounded position) :
    (vtnForeachInstruction words (vtnCfgHandlePrepassInstruction callees words) position b).All
      (Access.Inside words) := by
  unfold vtnForeachInstruction
  split
  next less =>
    simp only [Logged.all_bind, Logged.all_record, Access.Inside, less, true_and]
    intro _ _
    rw [dif_neg fun fits => bounded ⟨less, fits⟩]
    apply Logged.all_stop
  next => apply Logged.all_pure

theorem vtnForeachInstruction_all (start : Builder)
    (long : ∀ position b, Reached callees words start position b → words.Bounded position →
      LongEnough callees words b (words.instruction position) (words.opcode position))
    (position : Nat) (b : Builder) (reached : Reached callees words start position b) :
    (vtnForeachInstruction words (vtnCfgHandlePrepassInstruction callees words) position b).All
      (Access.Inside words) := by
  by_cases bounded : words.Bounded position
  · rw [vtnForeachInstruction_all_of_bounded bounded]
    refine ⟨bounded.1, ?_, ?_⟩
    · exact (visitInstruction_all_iff bounded.2.2 _).mpr (long position b reached bounded)
    · intro b' visited
      exact vtnForeachInstruction_all start long _ _ (reached.next bounded visited)
  · exact vtnForeachInstruction_all_of_not_bounded bounded
termination_by words.finish - position
decreasing_by
  have less := bounded.1
  have positive := bounded.2.1
  omega

theorem Reached.all_from {predicate : Access → Prop} {start b : Builder} {position : Nat}
    (reached : Reached callees words start position b)
    (all : (walk callees words start).All predicate) :
    (vtnForeachInstruction words (vtnCfgHandlePrepassInstruction callees words) position b).All
      predicate := by
  induction reached with
  | start => exact all
  | next _ bounded visited inductionHypothesis =>
      exact ((vtnForeachInstruction_all_of_bounded bounded).mp inductionHypothesis).2.2 _ visited

theorem walk_all_iff (start : Builder) :
    (walk callees words start).All (Access.Inside words) ↔
      ∀ position b, Reached callees words start position b → words.Bounded position →
        LongEnough callees words b (words.instruction position) (words.opcode position) := by
  constructor
  · intro all position b reached bounded
    have step := (vtnForeachInstruction_all_of_bounded bounded).mp (reached.all_from all)
    exact (visitInstruction_all_iff bounded.2.2 _).mp step.2.1
  · intro long
    exact vtnForeachInstruction_all start long _ _ .start

def Builder.Records (b : Builder) (branch : Nat) : Prop :=
  ∃ block ∈ b.blocks, block.branch = some branch

theorem vtnPushValue_blocks {b b' : Builder} {id : UInt32} {fill : Value → Value}
    (pushed : (b.vtnPushValue id fill).result = .ok b') : b'.blocks = b.blocks := by
  simp only [Builder.vtnPushValue, Logged.result_bind_eq_ok, Logged.result_pure,
    Except.ok.injEq] at pushed
  obtain ⟨_, _, _, _, rfl⟩ := pushed
  rfl

theorem handleFunction_blocks {b b' : Builder} {w : Instruction}
    (handled : (handleFunction callees words b w).result = .ok b') : b'.blocks = b.blocks := by
  simp only [handleFunction, Logged.result_bind_eq_ok, Logged.result_pure,
    Except.ok.injEq] at handled
  obtain ⟨_, _, _, _, _, _, _, _, _, _, pushedBuilder, pushed, _, _, _, _, _, _, _, _, _, _, _, _,
    rfl⟩ := handled
  have kept := vtnPushValue_blocks pushed
  exact kept

theorem handleFunctionEnd_blocks {b b' : Builder}
    (handled : (handleFunctionEnd b).result = .ok b') : b'.blocks = b.blocks := by
  simp only [handleFunctionEnd, Logged.result_bind_eq_ok] at handled
  obtain ⟨func, _, handled⟩ := handled
  split at handled
  all_goals
    simp only [Logged.result_bind_eq_ok, Logged.result_pure, Except.ok.injEq] at handled
    obtain ⟨_, _, rfl⟩ := handled
    rfl

theorem handleFunctionParameter_blocks {b b' : Builder} {w : Instruction}
    (handled : (handleFunctionParameter callees words b w).result = .ok b') :
    b'.blocks = b.blocks := by
  simp only [handleFunctionParameter, Builder.vtnPushSsaValue,
    Logged.result_bind_eq_ok] at handled
  obtain ⟨_, _, _, _, _, _, _, _, _, _, _, _, _, _, _, _, _, _, _, _, _, _, pushed⟩ := handled
  have kept := vtnPushValue_blocks pushed
  exact kept

theorem handleLine_blocks {b b' : Builder} {w : Instruction}
    (handled : (handleLine words b w).result = .ok b') : b'.blocks = b.blocks := by
  simp only [handleLine, Logged.result_bind_eq_ok, Logged.result_pure,
    Except.ok.injEq] at handled
  obtain ⟨_, _, _, _, _, _, _, _, rfl⟩ := handled
  rfl

theorem handleLabel_blocks {b b' : Builder} {w : Instruction}
    (handled : (handleLabel words b w).result = .ok b') :
    b'.blocks = b.blocks ++ [⟨w.position, none, none⟩] := by
  simp only [handleLabel, Logged.result_bind_eq_ok, Logged.result_pure,
    Except.ok.injEq] at handled
  obtain ⟨_, _, _, _, pushedBuilder, pushed, _, _, rfl⟩ := handled
  exact vtnPushValue_blocks pushed

/-- A merge or a branch changes one block. -/
theorem records_modify {b : Builder} {index branch position : Nat} {update : Block → Block}
    (records : ∃ block ∈ b.blocks.modify index update, block.branch = some branch)
    (updates : ∀ block, (update block).branch = block.branch ∨
      (update block).branch = some position) :
    b.Records branch ∨ branch = position := by
  obtain ⟨block, member, recorded⟩ := records
  obtain ⟨i, less, found⟩ := List.mem_iff_getElem.mp member
  rw [List.getElem_modify] at found
  rw [List.length_modify] at less
  split at found
  · subst found
    rcases updates b.blocks[i] with same | new
    · exact .inl ⟨_, List.getElem_mem less, same ▸ recorded⟩
    · rw [new, Option.some_inj] at recorded
      exact .inr recorded.symm
  · exact .inl ⟨block, found ▸ List.getElem_mem less, recorded⟩

theorem handleMerge_records {b b' : Builder} {w : Instruction} {branch : Nat}
    (handled : (handleMerge b w).result = .ok b') (records : b'.Records branch) :
    b.Records branch ∨ branch = w.position := by
  simp only [handleMerge, Logged.result_bind_eq_ok, Logged.result_pure,
    Except.ok.injEq] at handled
  obtain ⟨block, _, _, _, rfl⟩ := handled
  exact records_modify records fun _ => .inl rfl

theorem handleBranch_records {b b' : Builder} {opcode : SpvOp} {w : Instruction} {branch : Nat}
    (handled : (handleBranch b opcode w).result = .ok b') (records : b'.Records branch) :
    b.Records branch ∨ branch = w.position := by
  unfold handleBranch at handled
  split at handled
  · cases handled
    exact .inl records
  · simp only [Logged.result_bind_eq_ok, Logged.result_pure, Except.ok.injEq] at handled
    obtain ⟨block, _, _, _, rfl⟩ := handled
    exact records_modify records fun _ => .inr rfl

theorem records_of_blocks_eq {b b' : Builder} {branch : Nat} (blocks : b'.blocks = b.blocks)
    (records : b'.Records branch) : b.Records branch := by
  unfold Builder.Records at records
  rwa [blocks] at records

theorem handled_of_visit {handled : Parse Builder} {more : Bool} {b' : Builder}
    (visited : (handled >>= fun b => pure (true, b)).result = .ok (more, b')) :
    ∃ b, handled.result = .ok b ∧ b = b' := by
  simp only [Logged.result_bind_eq_ok, Logged.result_pure, Except.ok.injEq,
    Prod.mk.injEq] at visited
  obtain ⟨b, found, _, same⟩ := visited
  exact ⟨b, found, same⟩

theorem visit_records {b b' : Builder} {opcode : SpvOp} {w : Instruction} {more : Bool}
    {branch : Nat} (visited : (visit callees words b opcode w).result = .ok (more, b'))
    (records : b'.Records branch) : b.Records branch ∨ branch = w.position := by
  cases opcode with
  | opNop | other =>
      cases visited
      exact .inl records
  | opNoLine =>
      cases visited
      exact .inl (records_of_blocks_eq rfl records)
  | opLine =>
      obtain ⟨_, handled, rfl⟩ := handled_of_visit visited
      exact .inl (records_of_blocks_eq (handleLine_blocks handled) records)
  | opFunction =>
      obtain ⟨_, handled, rfl⟩ := handled_of_visit visited
      exact .inl (records_of_blocks_eq (handleFunction_blocks handled) records)
  | opFunctionEnd =>
      obtain ⟨_, handled, rfl⟩ := handled_of_visit visited
      exact .inl (records_of_blocks_eq (handleFunctionEnd_blocks handled) records)
  | opFunctionParameter =>
      obtain ⟨_, handled, rfl⟩ := handled_of_visit visited
      exact .inl (records_of_blocks_eq (handleFunctionParameter_blocks handled) records)
  | opLabel =>
      obtain ⟨_, handled, rfl⟩ := handled_of_visit visited
      obtain ⟨block, member, recorded⟩ := records
      rw [handleLabel_blocks handled, List.mem_append, List.mem_singleton] at member
      rcases member with old | rfl
      · exact .inl ⟨block, old, recorded⟩
      · cases recorded
  | opSelectionMerge | opLoopMerge =>
      obtain ⟨_, handled, rfl⟩ := handled_of_visit visited
      exact handleMerge_records handled records
  | opBranch | opBranchConditional | opSwitch | opKill | opTerminateInvocation
  | opIgnoreIntersectionKHR | opTerminateRayKHR | opEmitMeshTasksEXT | opReturn
  | opReturnValue | opUnreachable | opAbortKHR =>
      obtain ⟨_, handled, rfl⟩ := handled_of_visit visited
      exact handleBranch_records handled records

theorem Reached.records_bounded {start b : Builder} {position branch : Nat}
    (empty : start.blocks = []) (reached : Reached callees words start position b)
    (records : b.Records branch) : words.Bounded branch := by
  induction reached with
  | start =>
      obtain ⟨block, member, _⟩ := records
      rw [empty] at member
      cases member
  | next _ bounded visited inductionHypothesis =>
      rcases visit_records visited records with old | rfl
      · exact inductionHypothesis old
      · exact bounded

end Walk

section Switch

variable (words : Words) (b : Builder)

def caseWords (bitSize : Nat) : Nat := if bitSize ≤ 32 then 2 else 3

/-- A label from the index on is no block. -/
def MissesBlock (branch : Instruction) (bitSize index : Nat) : Prop :=
  ∃ k, index + caseWords bitSize * k < branch.count ∧
    ¬Succeeds (b.vtnBlock (words.operand branch (index + caseWords bitSize * k)))

/-- The pairs of literal and label come out even, or a label is no block before they do not. -/
def SwitchComplete (branch : Instruction) : Prop :=
  2 ≤ branch.count ∧ ∀ bitSize, (selectorBitSize b (words.operand branch 1)).result = .ok bitSize →
    (branch.count - 3) % caseWords bitSize = 0 ∨ MissesBlock words b branch bitSize 2

def Words.literal (branch : Instruction) (bitSize index : Nat) : UInt64 :=
  if bitSize ≤ 32 then (words.operand branch index).toUInt64
  else
    (words.operand branch (index + 1)).toUInt64 <<< 32 ||| (words.operand branch index).toUInt64

variable {words b} {branch : Instruction} {bitSize : Nat}

theorem missesBlock_iff (index : Nat) (less : index < branch.count) :
    MissesBlock words b branch bitSize index ↔
      ¬Succeeds (b.vtnBlock (words.operand branch index)) ∨
        MissesBlock words b branch bitSize (index + caseWords bitSize) := by
  have later (k : Nat) : index + caseWords bitSize + caseWords bitSize * k =
      index + caseWords bitSize * (k + 1) := by
    rw [Nat.mul_succ]
    omega
  constructor
  · rintro ⟨_ | k, inside, missing⟩
    · exact .inl missing
    · rw [← later] at inside missing
      exact .inr ⟨k, inside, missing⟩
  · rintro (missing | ⟨k, inside, missing⟩)
    · exact ⟨0, less, missing⟩
    · rw [later] at inside missing
      exact ⟨k + 1, inside, missing⟩

variable (inside : branch.position + branch.count ≤ words.finish)
include inside

theorem parseSwitchCases_all_step {index : Nat} {cases : List Case}
    (less : index < branch.count) :
    (parseSwitchCases words b branch bitSize index cases).All (Access.Inside words) ↔
      index + caseWords bitSize - 1 < branch.count ∧
        ∀ block, (b.vtnBlock (words.operand branch (index + caseWords bitSize - 1))).result =
            .ok block →
          (parseSwitchCases words b branch bitSize (index + caseWords bitSize)
            (addCase cases block (some (words.literal branch bitSize index)))).All
              (Access.Inside words) := by
  rw [parseSwitchCases, if_pos less]
  split
  next narrow => simp [caseWords, Words.literal, narrow, inside, less]
  next wide =>
    simp only [caseWords, Words.literal, wide, vtnU64Literal, Logged.all_bind, all_word, inside,
      and_true, less, word_eq_ok, Logged.result_bind_eq_ok, Logged.result_pure, if_false,
      Logged.all_pure, all_vtnBlock, true_and, forall_eq', Except.ok.injEq,
      implies_true, exists_eq_left']
    constructor
    · rintro ⟨_, long, rest⟩
      exact ⟨long, rest⟩
    · rintro ⟨long, rest⟩
      exact ⟨by omega, long, rest⟩

theorem parseSwitchCases_all_iff (index : Nat) (cases : List Case) :
    (parseSwitchCases words b branch bitSize index cases).All (Access.Inside words) ↔
      (branch.count - index) % caseWords bitSize = 0 ∨
        MissesBlock words b branch bitSize (index + caseWords bitSize - 1) := by
  have words2 : 2 ≤ caseWords bitSize := by
    unfold caseWords
    split <;> omega
  by_cases less : index < branch.count
  · rw [parseSwitchCases_all_step inside less]
    constructor
    · rintro ⟨long, rest⟩
      rw [missesBlock_iff _ long]
      by_cases found : Succeeds (b.vtnBlock (words.operand branch (index + caseWords bitSize - 1)))
      · obtain ⟨block, found⟩ := found
        rcases (parseSwitchCases_all_iff _ _).mp (rest block found) with even | missing
        · left
          rw [← even, Nat.mod_eq_sub_mod (by omega)]
          congr 1
          omega
        · right
          right
          rw [← Nat.sub_add_comm (by omega)]
          exact missing
      · exact .inr (.inl found)
    · intro complete
      have long : index + caseWords bitSize - 1 < branch.count := by
        rcases complete with even | ⟨k, label, _⟩
        · have le := Nat.le_of_dvd (by omega) (Nat.dvd_of_mod_eq_zero even)
          omega
        · omega
      rw [missesBlock_iff _ long] at complete
      refine ⟨long, fun block found => (parseSwitchCases_all_iff _ _).mpr ?_⟩
      rcases complete with even | missing | missing
      · left
        rw [← even, Nat.mod_eq_sub_mod (a := branch.count - index) (by omega)]
        congr 1
        omega
      · exact absurd ⟨block, found⟩ missing
      · right
        rw [Nat.sub_add_comm (by omega)]
        exact missing
  · rw [parseSwitchCases, if_neg less, Nat.sub_eq_zero_of_le (by omega)]
    simp
termination_by branch.count - index

omit inside in
theorem all_selectorBitSize (predicate : Access → Prop) (id : UInt32) :
    (selectorBitSize b id).All predicate := by
  simp [selectorBitSize]

theorem vtnParseSwitch_all_iff (positive : 1 ≤ branch.count) :
    (vtnParseSwitch words b branch).All (Access.Inside words) ↔
      SwitchComplete words b branch := by
  have header : branch.position < words.finish := by omega
  simp only [vtnParseSwitch, SwitchComplete, Logged.all_bind, Logged.all_record, Access.Inside,
    header, true_and, all_word, inside, and_true, word_eq_ok, all_selectorBitSize, forall_eq',
    Logged.result_record, forall_const]
  apply and_congr_right
  intro two
  apply forall₂_congr
  intro bitSize _
  by_cases labelled : 2 < branch.count
  · rw [if_pos labelled, missesBlock_iff _ labelled]
    simp only [Logged.all_bind, all_word, labelled, inside, word_eq_ok, all_vtnBlock,
      parseSwitchCases_all_iff inside, and_true, true_and, forall_eq']
    rw [show 3 + caseWords bitSize - 1 = 2 + caseWords bitSize by omega]
    by_cases found : Succeeds (b.vtnBlock (words.operand branch 2))
    · obtain ⟨block, found⟩ := found
      constructor
      · intro rest
        exact (rest block found).imp_right .inr
      · rintro (even | missing | missing) _ _
        · exact .inl even
        · exact absurd ⟨block, found⟩ missing
        · exact .inr missing
    · constructor
      · intro _
        exact .inr (.inl found)
      · intro _ block success
        exact absurd ⟨block, success⟩ found
  · rw [if_neg labelled, Nat.sub_eq_zero_of_le (by omega)]
    simp

end Switch

section Run

variable (callees : Callees) (words : Words) (b : Builder)

/-- The walk over the section, and the parse of each `OpSwitch` it records, read only words of
the section and of the instruction they are at. -/
structure ReadsInside : Prop where
  walk : (walk callees words b).All (Access.Inside words)
  switches : ∀ position b', (Spirv.walk callees words b).result = .ok (position, b') →
    ∀ branch, b'.Records branch → words.opcode branch = .opSwitch →
      (vtnParseSwitch words b' (words.instruction branch)).All (Access.Inside words)

/-- Every instruction that the walk comes to has the operands that are read. -/
structure OperandsPresent : Prop where
  instructions : ∀ position b', Reached callees words b position b' → words.Bounded position →
    LongEnough callees words b' (words.instruction position) (words.opcode position)
  switches : ∀ position b', (walk callees words b).result = .ok (position, b') →
    ∀ branch, b'.Records branch → words.opcode branch = .opSwitch →
      SwitchComplete words b' (words.instruction branch)

end Run

theorem more_of_visit {callees : Callees} {words : Words} {b b' : Builder} {opcode : SpvOp}
    {w : Instruction} {more : Bool}
    (visited : (visit callees words b opcode w).result = .ok (more, b')) : more = true := by
  cases opcode with
  | opNop | opNoLine | other =>
      cases visited
      rfl
  | _ =>
      simp only [visit, visitInstruction, vtnCfgHandlePrepassInstruction,
        Logged.result_bind_eq_ok, Logged.result_pure, Except.ok.injEq, Prod.mk.injEq] at visited
      obtain ⟨_, _, rfl, _⟩ := visited
      rfl

theorem Reached.of_walk {callees : Callees} {words : Words} {start b b' : Builder}
    {position position' : Nat} (reached : Reached callees words start position b)
    (ended : (vtnForeachInstruction words (vtnCfgHandlePrepassInstruction callees words) position
      b).result = .ok (position', b')) : Reached callees words start position' b' := by
  by_cases bounded : words.Bounded position
  · rw [vtnForeachInstruction, dif_pos bounded.1] at ended
    simp only [Logged.result_bind_eq_ok, Logged.result_record, dif_pos bounded.2, exists_const,
      Prod.exists] at ended
    obtain ⟨_, more, next, visited, ended⟩ := ended
    obtain rfl := more_of_visit visited
    exact Reached.of_walk (reached.next bounded visited) ended
  · rw [vtnForeachInstruction] at ended
    split at ended
    next less =>
      simp only [dif_neg fun fits => bounded ⟨less, fits⟩, Logged.result_bind_eq_ok,
        Logged.result_stop, reduceCtorEq, and_false, exists_false] at ended
    next =>
      cases ended
      exact reached
termination_by words.finish - position
decreasing_by
  have less := bounded.1
  have positive := bounded.2.1
  omega

theorem readsInside_iff (callees : Callees) (words : Words) (values : List Value)
    (ignoreReturnAfterEmitMeshTasks createLibrary : Bool) :
    ReadsInside callees words
        (.initial values ignoreReturnAfterEmitMeshTasks createLibrary) ↔
      OperandsPresent callees words
        (.initial values ignoreReturnAfterEmitMeshTasks createLibrary) := by
  have switch_iff {position branch : Nat} {b' : Builder}
      (ended : (walk callees words
        (.initial values ignoreReturnAfterEmitMeshTasks createLibrary)).result =
          .ok (position, b')) (records : b'.Records branch) :
      (vtnParseSwitch words b' (words.instruction branch)).All (Access.Inside words) ↔
        SwitchComplete words b' (words.instruction branch) := by
    have bounded := (Reached.start.of_walk ended).records_bounded rfl records
    exact vtnParseSwitch_all_iff bounded.2.2 bounded.2.1
  constructor
  · intro reads
    refine ⟨(walk_all_iff _).mp reads.walk, ?_⟩
    intro position b' ended branch records switch
    exact (switch_iff ended records).mp (reads.switches position b' ended branch records switch)
  · intro present
    refine ⟨(walk_all_iff _).mpr present.instructions, ?_⟩
    intro position b' ended branch records switch
    exact (switch_iff ended records).mpr
      (present.switches position b' ended branch records switch)

/-- A section of one `OpLine` without its operands. -/
def shortLine : Words := ⟨fun _ => 0x00010008, 0, 1⟩

def noCallees : Callees := ⟨fun _ => none, fun _ => false, fun _ => false, fun _ _ _ => none⟩

/-- The file of the line is read past the end of the section. -/
theorem not_readsInside_shortLine :
    ¬ReadsInside noCallees shortLine (.initial [] false false) := by
  intro reads
  have instruction : shortLine.instruction 0 = ⟨0, 1⟩ := by decide
  have bounded : shortLine.Bounded 0 := by
    rw [Words.Bounded, instruction]
    decide
  have steps := (vtnForeachInstruction_all_of_bounded bounded).mp reads.walk
  have read := steps.2.1 (.operand ⟨0, 1⟩ 1) (by decide)
  exact absurd read.1 (by decide)

end Spirv

end SpirvToDxil
