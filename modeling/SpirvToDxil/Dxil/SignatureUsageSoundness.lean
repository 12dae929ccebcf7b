import SpirvToDxil.Dxil.SignatureUsage

/-!
# What the usage masks of a signature say

Every intrinsic changes the masks of one record, by a mask that is moved to the first
component of its variable, and appends the calls of its own components.
-/

namespace SpirvToDxil

namespace IoAccess

def isStore (intr : IoAccess) : Bool :=
  intr.intrinsic = .storeOutput || intr.intrinsic = .storePerVertexOutput

/-- Loads of outputs leave the masks alone. -/
def updatesMasks (intr : IoAccess) : Bool :=
  intr.intrinsic ≠ .loadOutput && intr.intrinsic ≠ .loadPerVertexOutput

end IoAccess

/-- The call reads or writes a column of a record whose first column is given. -/
def SignatureCall.At (call : SignatureCall) (signature : SignatureKind)
    (record startCol column : Nat) : Prop :=
  call.signature = signature ∧ call.record = record ∧ startCol + call.column = column

namespace UsageModule

/-- The masks of an element say what the calls do to it. The mask of an element that is
written has a bit for each column that is never written, that of any other element one for
each column that is read. -/
structure DescribesAccesses (mod : UsageModule) (writes : Bool) (signature : SignatureKind)
    (record startCol : Nat) (usage dynamicMask : BitVec 8) : Prop where
  neverWrites : writes = true → ∀ column < 4, usage.getLsbD column = false ↔
    ∃ call ∈ mod.calls, call.isStore = true ∧ call.At signature record startCol column
  alwaysReads : writes = false → ∀ column, usage.getLsbD column = true ↔
    ∃ call ∈ mod.calls, call.isStore = false ∧ call.At signature record startCol column
  dynamicIndex : ∀ column < 4, dynamicMask.getLsbD column = true ↔
    ∃ call ∈ mod.calls, call.row = none ∧ call.At signature record startCol column

theorem modifyRecord_modifyRecord (mod : UsageModule) (signature : SignatureKind)
    (record : Nat) (first second : RecordUsage → RecordUsage) :
    (mod.modifyRecord signature record first).modifyRecord signature record second =
      mod.modifyRecord signature record (second ∘ first) := by
  simp only [modifyRecord, Function.update_self, Function.update_idem, List.modify_modify_eq]

theorem records_modifyRecord (mod : UsageModule) (signature other : SignatureKind)
    (record index : Nat) (update : RecordUsage → RecordUsage) :
    ((mod.modifyRecord signature record update).records other)[index]? =
      ((mod.records other)[index]?).map
        (if signature = other ∧ record = index then update else id) := by
  simp only [modifyRecord]
  by_cases same : signature = other
  · subst same
    rw [Function.update_self, List.getElem?_modify]
    by_cases located : record = index
    · simp [located]
    · simp [located]
  · rw [Function.update_of_ne (Ne.symm same), if_neg fun both => same both.1, Option.map_id]
    rfl

end UsageModule

namespace IoShader

variable (shader : IoShader)

def accessSignature (intr : IoAccess) : SignatureKind :=
  match intr.intrinsic with
  | .storeOutput => if shader.stage = .tessCtrl then .patchConst else .output
  | .storePerVertexOutput | .loadPerVertexOutput => .output
  | .loadInput => if shader.stage = .tessEval then .patchConst else .input
  | .loadPerVertexInput | .loadInterpolatedInput => .input
  | .loadOutput => if shader.stage = .tessCtrl then .patchConst else .input

/-- The first component of the variable that is found for an intrinsic. -/
def accessBase (intr : IoAccess) : Nat :=
  shader.varBaseComponent (if intr.isStore then .shaderOut else .shaderIn) intr.base
    (shader.accessSignature intr = .patchConst)

def isTessLevel (intr : IoAccess) : Bool :=
  shader.accessSignature intr = .patchConst && intr.isTessLevelLocation

def compMask (intr : IoAccess) : Nat :=
  if intr.isStore then
    intr.storeCompMask (shader.isTessLevel intr) (shader.accessBase intr)
  else intr.loadCompMask (shader.isTessLevel intr) (shader.accessBase intr)

def mark (intr : IoAccess) : RecordUsage → RecordUsage :=
  (if intr.row = none then RecordUsage.indexesDynamically (shader.compMask intr) else id) ∘
    if intr.isStore then RecordUsage.neverWrites (shader.compMask intr)
    else RecordUsage.alwaysReads (shader.compMask intr)

def emittedCall (mappings : SignatureKind → Nat → Nat) (intr : IoAccess) (i : Nat) :
    SignatureCall where
  isStore := intr.isStore
  signature := shader.accessSignature intr
  record := mappings (shader.accessSignature intr) intr.base
  row :=
    if shader.isTessLevel intr then some (intr.levelRow (shader.accessBase intr) i)
    else intr.row
  column := if shader.isTessLevel intr then 0 else intr.column (shader.accessBase intr) i

def emittedCalls (mappings : SignatureKind → Nat → Nat) (intr : IoAccess) :
    List SignatureCall :=
  ((List.range intr.numComponents).filter fun i =>
    !intr.isStore || intr.writeMask.testBit i).map (shader.emittedCall mappings intr)

/-- The update and the calls of an intrinsic, once its signature is known. -/
def effect (mod : UsageModule) (intr : IoAccess) : UsageModule :=
  (if intr.updatesMasks then
    mod.modifyRecord (shader.accessSignature intr)
      (mod.mappings (shader.accessSignature intr) intr.base) (shader.mark intr)
  else mod).addCalls (shader.emittedCalls mod.mappings intr)

theorem emittedCalls_of_signature (mappings : SignatureKind → Nat → Nat) (intr : IoAccess)
    {signature : SignatureKind} (same : shader.accessSignature intr = signature) :
    shader.emittedCalls mappings intr =
      ((List.range intr.numComponents).filter fun i =>
        !intr.isStore || intr.writeMask.testBit i).map fun i =>
        { isStore := intr.isStore, signature := signature, record := mappings signature intr.base
          row := if shader.isTessLevel intr then some (intr.levelRow (shader.accessBase intr) i)
            else intr.row
          column := if shader.isTessLevel intr then 0
            else intr.column (shader.accessBase intr) i } := by
  subst same
  rfl

theorem emitStoreOutputViaIntrinsic_eq (mod : UsageModule)
    (validator : 5 ≤ mod.minorValidator) {intr : IoAccess} (isStore : intr.isStore = true) :
    shader.emitStoreOutputViaIntrinsic mod intr = shader.effect mod intr := by
  have updates : intr.updatesMasks = true := by
    cases kind : intr.intrinsic <;> simp [IoAccess.isStore, kind] at isStore <;>
      simp [IoAccess.updatesMasks, kind]
  have signature : shader.accessSignature intr =
      if shader.storesPatchConstant intr then .patchConst else .output := by
    cases kind : intr.intrinsic <;> simp [IoAccess.isStore, kind] at isStore <;>
      simp [accessSignature, storesPatchConstant, kind]
  rw [effect, shader.emittedCalls_of_signature mod.mappings intr signature]
  cases patch : shader.storesPatchConstant intr <;>
  by_cases dynamic : intr.row = none <;>
  simp [emitStoreOutputViaIntrinsic, patch, signature, mark, compMask, isTessLevel, accessBase,
    isStore, validator, dynamic, updates, UsageModule.modifyRecord_modifyRecord]

theorem emitLoadInputViaIntrinsic_eq (mod : UsageModule)
    (validator : 5 ≤ mod.minorValidator) {intr : IoAccess} (isLoad : intr.isStore = false)
    (plain : intr.intrinsic ≠ .loadInterpolatedInput) :
    shader.emitLoadInputViaIntrinsic mod intr = shader.effect mod intr := by
  have updates : intr.updatesMasks =
      (¬ intr.intrinsic = .loadPerVertexOutput ∧ intr.intrinsic ≠ .loadOutput : Bool) := by
    simp [IoAccess.updatesMasks, Bool.and_comm]
  have signature : shader.accessSignature intr =
      if shader.loadsPatchConstant intr then .patchConst
      else if intr.intrinsic = .loadPerVertexOutput then .output else .input := by
    cases kind : intr.intrinsic <;> simp [IoAccess.isStore, kind] at isLoad plain <;>
      simp [accessSignature, loadsPatchConstant, kind]
  rw [effect, shader.emittedCalls_of_signature mod.mappings intr signature]
  by_cases output : intr.intrinsic = .loadPerVertexOutput
  · have patch : shader.loadsPatchConstant intr = false := by simp [loadsPatchConstant, output]
    simp [emitLoadInputViaIntrinsic, patch, output, signature, isTessLevel, accessBase, isLoad,
      updates]
  · cases patch : shader.loadsPatchConstant intr <;>
    by_cases dynamic : intr.row = none <;>
    by_cases loadsOutput : intr.intrinsic = .loadOutput <;>
    simp [emitLoadInputViaIntrinsic, patch, output, signature, mark, compMask, isTessLevel,
      accessBase, isLoad, validator, dynamic, updates, loadsOutput,
      UsageModule.modifyRecord_modifyRecord]

theorem emitLoadInterpolatedInput_eq (mod : UsageModule)
    (validator : 5 ≤ mod.minorValidator) {intr : IoAccess}
    (interpolated : intr.intrinsic = .loadInterpolatedInput) :
    shader.emitLoadInterpolatedInput mod intr = shader.effect mod intr := by
  have signature : shader.accessSignature intr = .input := by
    simp [accessSignature, interpolated]
  have isLoad : intr.isStore = false := by simp [IoAccess.isStore, interpolated]
  have updates : intr.updatesMasks = true := by simp [IoAccess.updatesMasks, interpolated]
  rw [effect, shader.emittedCalls_of_signature mod.mappings intr signature]
  by_cases dynamic : intr.row = none <;>
  simp [emitLoadInterpolatedInput, signature, mark, compMask, isTessLevel, accessBase,
    isLoad, validator, dynamic, updates, UsageModule.modifyRecord_modifyRecord]

theorem emitIntrinsic_eq (mod : UsageModule) (validator : 5 ≤ mod.minorValidator)
    (intr : IoAccess) :
    shader.emitIntrinsic mod intr = shader.effect mod intr := by
  rw [emitIntrinsic]
  split
  case h_1 kind =>
    exact shader.emitStoreOutputViaIntrinsic_eq mod validator (by simp [IoAccess.isStore, kind])
  case h_2 kind =>
    exact shader.emitStoreOutputViaIntrinsic_eq mod validator (by simp [IoAccess.isStore, kind])
  case h_3 kind => exact shader.emitLoadInterpolatedInput_eq mod validator kind
  all_goals
    rename_i kind
    exact shader.emitLoadInputViaIntrinsic_eq mod validator (by simp [IoAccess.isStore, kind])
      (by simp [kind])

/-! ## Whole runs -/

def Accesses (mappings : SignatureKind → Nat → Nat) (signature : SignatureKind)
    (record : Nat) (intr : IoAccess) : Prop :=
  shader.accessSignature intr = signature ∧ mappings signature intr.base = record

instance (mappings : SignatureKind → Nat → Nat) (signature : SignatureKind) (record : Nat)
    (intr : IoAccess) : Decidable (shader.Accesses mappings signature record intr) :=
  inferInstanceAs (Decidable (_ ∧ _))

def updating (mappings : SignatureKind → Nat → Nat) (signature : SignatureKind)
    (record : Nat) (intrs : List IoAccess) : List IoAccess :=
  intrs.filter fun intr =>
    intr.updatesMasks && shader.Accesses mappings signature record intr

theorem mem_updating {mappings : SignatureKind → Nat → Nat} {signature : SignatureKind}
    {record : Nat} {intrs : List IoAccess} {intr : IoAccess} :
    intr ∈ shader.updating mappings signature record intrs ↔
      intr ∈ intrs ∧ intr.updatesMasks = true ∧
        shader.Accesses mappings signature record intr := by
  simp [updating]

theorem records_effect (mod : UsageModule) (intr : IoAccess) (signature : SignatureKind)
    (record : Nat) :
    ((shader.effect mod intr).records signature)[record]? =
      ((mod.records signature)[record]?).map
        (if intr.updatesMasks ∧ shader.Accesses mod.mappings signature record intr then
          shader.mark intr
        else id) := by
  rw [effect, UsageModule.addCalls]
  by_cases updates : intr.updatesMasks = true
  · simp only [updates, if_true, UsageModule.records_modifyRecord, true_and, Accesses]
    by_cases same : shader.accessSignature intr = signature
    · subst same
      simp
    · simp [same]
  · simp [updates]

theorem emitIntrinsics_spec (mod : UsageModule) (validator : 5 ≤ mod.minorValidator)
    (intrs : List IoAccess) :
    (∀ signature record,
      ((shader.emitIntrinsics mod intrs).records signature)[record]? =
        ((mod.records signature)[record]?).map fun usage =>
          (shader.updating mod.mappings signature record intrs).foldl
            (fun usage intr => shader.mark intr usage) usage) ∧
      (shader.emitIntrinsics mod intrs).calls =
        mod.calls ++ intrs.flatMap (shader.emittedCalls mod.mappings) := by
  induction intrs generalizing mod with
  | nil => simp [emitIntrinsics, updating]
  | cons intr intrs inductionHypothesis =>
    have mappings : (shader.effect mod intr).mappings = mod.mappings := by
      rw [effect]
      split <;> rfl
    have minorValidator : (shader.effect mod intr).minorValidator = mod.minorValidator := by
      rw [effect]
      split <;> rfl
    have calls : (shader.effect mod intr).calls =
        mod.calls ++ shader.emittedCalls mod.mappings intr := by
      rw [effect]
      split <;> rfl
    obtain ⟨records, allCalls⟩ :=
      inductionHypothesis (shader.effect mod intr) (minorValidator ▸ validator)
    rw [emitIntrinsics, List.foldl_cons, shader.emitIntrinsic_eq mod validator, ← emitIntrinsics]
    constructor
    · intro signature record
      rw [records, mappings, records_effect, Option.map_map]
      congr 1
      funext usage
      simp only [Function.comp_apply, updating, List.filter_cons, Bool.and_eq_true,
        decide_eq_true_eq]
      split <;> rfl
    · rw [allCalls, mappings, calls, List.flatMap_cons, List.append_assoc]

/-! ## Bits -/

/-- The mask of an intrinsic has the bit of a column: its components, counted from the first
component of the variable. -/
def Names (intr : IoAccess) (column : Nat) : Prop :=
  if shader.isTessLevel intr then column = 0
  else shader.accessBase intr ≤ column ∧
    if intr.isStore then intr.writeMask.testBit (column - shader.accessBase intr) = true
    else column < shader.accessBase intr + intr.numComponents

theorem testBit_compMask {intr : IoAccess} (narrow : intr.bitSize ≠ 64) (column : Nat) :
    (shader.compMask intr).testBit column = true ↔ shader.Names intr column := by
  have compSize : intr.compSize = 1 := if_neg narrow
  rw [compMask, Names, IoAccess.storeCompMask, IoAccess.loadCompMask, compSize]
  by_cases level : shader.isTessLevel intr = true
  · simp [level, Nat.testBit_one_eq_true_iff_self_eq_zero]
  · by_cases isStore : intr.isStore = true
    · simp [level, isStore]
    · simp [level, isStore, Nat.testBit_two_pow_sub_one]
      omega

def markBits (element : ElementSlot) (bits : BitVec 8) (intr : IoAccess) : BitVec 8 :=
  if intr.isStore then bits &&& ~~~BitVec.ofNat 8 (shader.compMask intr)
  else bits ||| (BitVec.ofNat 8 (shader.compMask intr) &&& BitVec.ofNat 8 element.mask)

theorem signature_mark (intr : IoAccess) (usage : RecordUsage) :
    (shader.mark intr usage).signature = usage.signature := by
  rw [mark]
  split_ifs <;> rfl

theorem usageMasks_mark (intr : IoAccess) {usage : RecordUsage} {index : Nat}
    {element : ElementSlot} {bits : BitVec 8}
    (hasElement : usage.signature.elements[index]? = some element)
    (hasBits : usage.usageMasks[index]? = some bits) :
    (shader.mark intr usage).usageMasks[index]? =
      some (shader.markBits element bits intr) := by
  have masks : (shader.mark intr usage).usageMasks =
      (if intr.isStore then usage.neverWrites (shader.compMask intr)
        else usage.alwaysReads (shader.compMask intr)).usageMasks := by
    rw [mark]
    split_ifs <;> rfl
  rw [masks, markBits]
  split
  · simp [RecordUsage.neverWrites, hasBits]
  · simp [RecordUsage.alwaysReads, List.getElem?_zipWith, hasBits, hasElement]

theorem signature_foldl (intrs : List IoAccess) (usage : RecordUsage) :
    (intrs.foldl (fun usage intr => shader.mark intr usage) usage).signature =
      usage.signature := by
  induction intrs generalizing usage with
  | nil => rfl
  | cons intr intrs inductionHypothesis =>
    exact (inductionHypothesis _).trans (shader.signature_mark intr usage)

theorem usageMasks_foldl (intrs : List IoAccess) {usage : RecordUsage} {index : Nat}
    {element : ElementSlot} {bits : BitVec 8}
    (hasElement : usage.signature.elements[index]? = some element)
    (hasBits : usage.usageMasks[index]? = some bits) :
    (intrs.foldl (fun usage intr => shader.mark intr usage) usage).usageMasks[index]? =
      some (intrs.foldl (shader.markBits element) bits) := by
  induction intrs generalizing usage bits with
  | nil => exact hasBits
  | cons intr intrs inductionHypothesis =>
    have marked := shader.usageMasks_mark intr hasElement hasBits
    rw [← shader.signature_mark intr usage] at hasElement
    exact inductionHypothesis hasElement marked

theorem getLsbD_foldl_stores (intrs : List IoAccess) (element : ElementSlot) (bits : BitVec 8)
    (stores : ∀ intr ∈ intrs, intr.isStore = true)
    (narrow : ∀ intr ∈ intrs, intr.bitSize ≠ 64) {column : Nat} (small : column < 8) :
    (intrs.foldl (shader.markBits element) bits).getLsbD column = false ↔
      bits.getLsbD column = false ∨ ∃ intr ∈ intrs, shader.Names intr column := by
  induction intrs generalizing bits with
  | nil => simp
  | cons intr intrs inductionHypothesis =>
    rw [List.forall_mem_cons] at stores narrow
    rw [List.foldl_cons, inductionHypothesis _ stores.2 narrow.2, markBits, if_pos stores.1,
      List.exists_mem_cons_iff, ← shader.testBit_compMask narrow.1, ← or_assoc]
    simp only [BitVec.getLsbD_and, BitVec.getLsbD_not, BitVec.getLsbD_ofNat, small, decide_true,
      Bool.true_and, Bool.and_eq_false_iff, Bool.not_eq_eq_eq_not, Bool.not_false]

theorem getLsbD_foldl_loads (intrs : List IoAccess) (element : ElementSlot) (bits : BitVec 8)
    (loads : ∀ intr ∈ intrs, intr.isStore = false)
    (narrow : ∀ intr ∈ intrs, intr.bitSize ≠ 64) (column : Nat) :
    (intrs.foldl (shader.markBits element) bits).getLsbD column = true ↔
      bits.getLsbD column = true ∨
        column < 8 ∧ element.mask.testBit column = true ∧
          ∃ intr ∈ intrs, shader.Names intr column := by
  induction intrs generalizing bits with
  | nil => simp
  | cons intr intrs inductionHypothesis =>
    rw [List.forall_mem_cons] at loads narrow
    rw [List.foldl_cons, inductionHypothesis _ loads.2 narrow.2, markBits, loads.1,
      List.exists_mem_cons_iff, ← shader.testBit_compMask narrow.1]
    simp only [Bool.false_eq_true, if_false, BitVec.getLsbD_or, BitVec.getLsbD_and,
      BitVec.getLsbD_ofNat, Bool.or_eq_true, Bool.and_eq_true, decide_eq_true_eq]
    tauto

theorem getLsbD_dynamic_foldl (intrs : List IoAccess) (usage : RecordUsage)
    (narrow : ∀ intr ∈ intrs, intr.bitSize ≠ 64) {column : Nat} (small : column < 8) :
    (intrs.foldl (fun usage intr => shader.mark intr usage) usage).dynamicMaskAndStream.getLsbD
        column = true ↔
      usage.dynamicMaskAndStream.getLsbD column = true ∨
        ∃ intr ∈ intrs, intr.row = none ∧ shader.Names intr column := by
  induction intrs generalizing usage with
  | nil => simp
  | cons intr intrs inductionHypothesis =>
    rw [List.forall_mem_cons] at narrow
    have marked : (shader.mark intr usage).dynamicMaskAndStream =
        if intr.row = none then
          usage.dynamicMaskAndStream ||| BitVec.ofNat 8 (shader.compMask intr)
        else usage.dynamicMaskAndStream := by
      rw [mark]
      split_ifs <;> rfl
    rw [List.foldl_cons, inductionHypothesis _ narrow.2, marked, List.exists_mem_cons_iff,
      ← shader.testBit_compMask narrow.1, ← or_assoc]
    by_cases dynamic : intr.row = none
    · simp only [dynamic, if_true, BitVec.getLsbD_or, BitVec.getLsbD_ofNat, small, decide_true,
        Bool.true_and, Bool.or_eq_true, true_and]
    · simp only [dynamic, if_false, false_and, or_false]

/-! ## Agreement -/

/-- A component of the intrinsic goes to a column of an element that starts at `startCol`. -/
def Reaches (startCol : Nat) (intr : IoAccess) (column : Nat) : Prop :=
  ∃ i < intr.numComponents, (intr.isStore = true → intr.writeMask.testBit i = true) ∧
    startCol +
      (if shader.isTessLevel intr then 0 else intr.column (shader.accessBase intr) i) = column

/-- The intrinsics of a record agree with its masks: every column of a written element is
stored to, and each mask, counted from the first component of its variable, names just
columns that intrinsics reach. -/
structure MasksAgree (mappings : SignatureKind → Nat → Nat) (intrs : List IoAccess)
    (signature : SignatureKind) (record startCol : Nat) (element : ElementSlot) : Prop where
  elementStored : shader.writes signature = true → ∀ column < 4,
    element.mask.testBit column = true → ∃ intr ∈ intrs, intr.isStore = true ∧
      shader.Accesses mappings signature record intr ∧ shader.Reaches startCol intr column
  namedStored : shader.writes signature = true → ∀ column < 4,
    ∀ intr ∈ shader.updating mappings signature record intrs, shader.Names intr column →
      ∃ other ∈ intrs, other.isStore = true ∧
        shader.Accesses mappings signature record other ∧
          shader.Reaches startCol other column
  storedNamed : shader.writes signature = true → ∀ column < 4, ∀ intr ∈ intrs,
    intr.isStore = true → shader.Accesses mappings signature record intr →
      shader.Reaches startCol intr column → element.mask.testBit column = true ∨
        ∃ other ∈ shader.updating mappings signature record intrs, shader.Names other column
  namedLoaded : shader.writes signature = false → ∀ column,
    element.mask.testBit column = true →
      ∀ intr ∈ shader.updating mappings signature record intrs, shader.Names intr column →
        ∃ other ∈ intrs, other.isStore = false ∧
          shader.Accesses mappings signature record other ∧
            shader.Reaches startCol other column
  loadedNamed : shader.writes signature = false → ∀ column, ∀ intr ∈ intrs,
    intr.isStore = false → shader.Accesses mappings signature record intr →
      shader.Reaches startCol intr column → element.mask.testBit column = true ∧
        ∃ other ∈ shader.updating mappings signature record intrs, shader.Names other column
  namedDynamic : ∀ column < 4,
    ∀ intr ∈ shader.updating mappings signature record intrs, intr.row = none →
      shader.Names intr column → ∃ other ∈ intrs, other.row = none ∧
        shader.isTessLevel other = false ∧ shader.Accesses mappings signature record other ∧
          shader.Reaches startCol other column
  dynamicNamed : ∀ column < 4, ∀ intr ∈ intrs, intr.row = none →
    shader.isTessLevel intr = false → shader.Accesses mappings signature record intr →
      shader.Reaches startCol intr column →
        ∃ other ∈ shader.updating mappings signature record intrs,
          other.row = none ∧ shader.Names other column

variable {shader}

theorem mem_emittedCalls {mappings : SignatureKind → Nat → Nat} {intr : IoAccess}
    {call : SignatureCall} :
    call ∈ shader.emittedCalls mappings intr ↔
      ∃ i < intr.numComponents, (intr.isStore = true → intr.writeMask.testBit i = true) ∧
        shader.emittedCall mappings intr i = call := by
  simp only [emittedCalls, List.mem_map, List.mem_filter, List.mem_range, Bool.or_eq_true,
    Bool.not_eq_eq_eq_not, Bool.not_true, and_assoc, ← Bool.not_eq_true, imp_iff_not_or]

theorem exists_call_at_iff {mappings : SignatureKind → Nat → Nat} {intrs : List IoAccess}
    {signature : SignatureKind} {record startCol column : Nat} (isStore : Bool) :
    (∃ call ∈ intrs.flatMap (shader.emittedCalls mappings), call.isStore = isStore ∧
        call.At signature record startCol column) ↔
      ∃ intr ∈ intrs, intr.isStore = isStore ∧
        shader.Accesses mappings signature record intr ∧
          shader.Reaches startCol intr column := by
  constructor
  · rintro ⟨call, listed, sameStore, sameSignature, sameRecord, sameColumn⟩
    obtain ⟨intr, intrMem, emitted⟩ := List.mem_flatMap.mp listed
    obtain ⟨i, small, stores, rfl⟩ := mem_emittedCalls.mp emitted
    subst sameSignature
    exact ⟨intr, intrMem, sameStore, ⟨rfl, sameRecord⟩, i, small, stores, sameColumn⟩
  · rintro ⟨intr, intrMem, sameStore, ⟨rfl, sameRecord⟩, i, small, stores, sameColumn⟩
    refine ⟨shader.emittedCall mappings intr i, ?_, sameStore, rfl, sameRecord, sameColumn⟩
    exact List.mem_flatMap.mpr ⟨intr, intrMem, mem_emittedCalls.mpr ⟨i, small, stores, rfl⟩⟩

theorem exists_dynamic_call_at_iff {mappings : SignatureKind → Nat → Nat}
    {intrs : List IoAccess} {signature : SignatureKind} {record startCol column : Nat} :
    (∃ call ∈ intrs.flatMap (shader.emittedCalls mappings), call.row = none ∧
        call.At signature record startCol column) ↔
      ∃ intr ∈ intrs, intr.row = none ∧ shader.isTessLevel intr = false ∧
        shader.Accesses mappings signature record intr ∧
          shader.Reaches startCol intr column := by
  constructor
  · rintro ⟨call, listed, dynamic, sameSignature, sameRecord, sameColumn⟩
    obtain ⟨intr, intrMem, emitted⟩ := List.mem_flatMap.mp listed
    obtain ⟨i, small, stores, rfl⟩ := mem_emittedCalls.mp emitted
    subst sameSignature
    simp only [emittedCall] at dynamic
    split at dynamic
    · cases dynamic
    · rename_i notLevel
      exact ⟨intr, intrMem, dynamic, Bool.eq_false_iff.mpr notLevel, ⟨rfl, sameRecord⟩, i,
        small, stores, sameColumn⟩
  · rintro ⟨intr, intrMem, dynamic, notLevel, ⟨rfl, sameRecord⟩, i, small, stores, sameColumn⟩
    refine ⟨shader.emittedCall mappings intr i, ?_, ?_, rfl, sameRecord, sameColumn⟩
    · exact List.mem_flatMap.mpr ⟨intr, intrMem, mem_emittedCalls.mpr ⟨i, small, stores, rfl⟩⟩
    · simp [emittedCall, notLevel, dynamic]

/-- Only stores update the masks of an element that is written, and only loads those of
any other. -/
theorem isStore_of_mem_updating {mappings : SignatureKind → Nat → Nat}
    {signature : SignatureKind} {record : Nat} {intrs : List IoAccess} {intr : IoAccess}
    (mem : intr ∈ shader.updating mappings signature record intrs) :
    intr.isStore = shader.writes signature := by
  obtain ⟨-, updates, rfl, -⟩ := shader.mem_updating.mp mem
  cases kind : intr.intrinsic <;> simp [IoAccess.updatesMasks, kind] at updates <;>
    by_cases hull : shader.stage = .tessCtrl <;>
    by_cases domain : shader.stage = .tessEval <;>
    simp_all [IoAccess.isStore, accessSignature, writes, patchConstMode]

theorem mask_lt_of_mem {inputClipSize : Nat} {signature : SignatureKind}
    {record : IoSignature}
    (mem : record ∈ (shader.processSignature inputClipSize signature).signatures)
    {element : ElementSlot} (elementMem : element ∈ record.elements) :
    element.mask < 2 ^ 8 := by
  obtain ⟨semantic, rfl⟩ := exists_fillIoSignature mem
  obtain ⟨row, -, rfl⟩ := List.mem_map.mp elementMem
  exact Nat.mod_lt _ (Nat.two_pow_pos 8)

structure Emitted (shader : IoShader) (mappings : SignatureKind → Nat → Nat)
    (intrs : List IoAccess) (signature : SignatureKind) (record : Nat) (element : ElementSlot)
    (bits dynamicMask : BitVec 8) : Prop where
  written : shader.writes signature = true → ∀ column < 4, bits.getLsbD column = false ↔
    element.mask.testBit column = true ∨
      ∃ intr ∈ shader.updating mappings signature record intrs, shader.Names intr column
  read : shader.writes signature = false → ∀ column, bits.getLsbD column = true ↔
    element.mask.testBit column = true ∧
      ∃ intr ∈ shader.updating mappings signature record intrs, shader.Names intr column
  indexed : ∀ column < 4, dynamicMask.getLsbD column = true ↔
    ∃ intr ∈ shader.updating mappings signature record intrs,
      intr.row = none ∧ shader.Names intr column

theorem emitted_of_getElem? {inputClipSize minorValidator : Nat}
    (validator : 5 ≤ minorValidator) {intrs : List IoAccess} {signature : SignatureKind}
    {record index : Nat} {usage : RecordUsage} {element : ElementSlot}
    (hasRecord : ((shader.emitIntrinsics
      (shader.preprocessSignatures inputClipSize minorValidator) intrs).records
        signature)[record]? = some usage)
    (hasElement : usage.signature.elements[index]? = some element)
    (narrow : ∀ intr ∈ intrs, shader.Accesses
      (shader.preprocessSignatures inputClipSize minorValidator).mappings signature record
        intr → intr.bitSize ≠ 64) :
    ∃ bits, usage.usageMasks[index]? = some bits ∧
      shader.Emitted (shader.preprocessSignatures inputClipSize minorValidator).mappings intrs
        signature record element bits usage.dynamicMaskAndStream := by
  have records := (shader.emitIntrinsics_spec
    (shader.preprocessSignatures inputClipSize minorValidator) validator intrs).1
  rw [records, Option.map_eq_some_iff] at hasRecord
  obtain ⟨initial, hasInitial, rfl⟩ := hasRecord
  obtain ⟨filled, hasFilled, rfl⟩ := Option.map_eq_some_iff.mp
    ((List.getElem?_map ..).symm.trans hasInitial)
  rw [signature_foldl] at hasElement
  have elementMem := List.mem_of_getElem? hasElement
  have small : element.mask < 2 ^ 8 :=
    mask_lt_of_mem (List.mem_of_getElem? hasFilled) elementMem
  have hasBits : (shader.recordUsage minorValidator signature filled).usageMasks[index]? =
      some (shader.initialUsage minorValidator signature element) := by
    simp only [recordUsage] at hasElement ⊢
    rw [List.getElem?_map, hasElement, Option.map_some]
  have narrowUpdates : ∀ intr ∈ shader.updating
      (shader.preprocessSignatures inputClipSize minorValidator).mappings signature record
        intrs, intr.bitSize ≠ 64 := by
    intro intr mem
    obtain ⟨listed, -, accesses⟩ := shader.mem_updating.mp mem
    exact narrow intr listed accesses
  refine ⟨_, shader.usageMasks_foldl _ hasElement hasBits, ?_, ?_, ?_⟩
  · intro writes column inside
    rw [shader.getLsbD_foldl_stores _ element _
      (fun intr mem => (isStore_of_mem_updating mem).trans writes) narrowUpdates (by omega)]
    apply or_congr_left
    have low : ∀ column < 4, (0xf : BitVec 8).getLsbD column = true := by decide
    rw [initialUsage, if_pos writes, if_neg (by omega)]
    simp only [BitVec.getLsbD_and, BitVec.getLsbD_not, BitVec.getLsbD_ofNat, low column inside,
      show column < 8 by omega, decide_true, Bool.true_and, Bool.not_eq_eq_eq_not, Bool.not_false]
  · intro reads column
    rw [shader.getLsbD_foldl_loads _ element _
      (fun intr mem => (isStore_of_mem_updating mem).trans reads) narrowUpdates]
    have columnLt : element.mask.testBit column = true → column < 8 := by
      intro bit
      by_contra large
      have clear := Nat.testBit_lt_two_pow
        (small.trans_le (Nat.pow_le_pow_right Nat.two_pos (Nat.le_of_not_lt large)))
      rw [bit] at clear
      cases clear
    have initial : shader.initialUsage minorValidator signature element = 0 := by
      rw [initialUsage, if_neg (by simp [reads])]
    have clear : (0 : BitVec 8).getLsbD column = false := BitVec.getLsbD_zero
    rw [initial, clear]
    tauto
  · intro column inside
    rw [shader.getLsbD_dynamic_foldl _ _ narrowUpdates (by omega)]
    simp only [recordUsage, BitVec.getLsbD_shiftLeft, inside, decide_true, Bool.not_true,
      Bool.and_false, Bool.false_and, Bool.false_eq_true, false_or]

/-- The masks of an element describe what the code does to it just when the intrinsics of
its record agree with them. -/
theorem describesAccesses_iff (shader : IoShader) {inputClipSize minorValidator : Nat}
    (validator : 5 ≤ minorValidator) {intrs : List IoAccess} {signature : SignatureKind}
    {record index : Nat} {usage : RecordUsage} {element : ElementSlot}
    (hasRecord : ((shader.emitIntrinsics
      (shader.preprocessSignatures inputClipSize minorValidator) intrs).records
        signature)[record]? = some usage)
    (hasElement : usage.signature.elements[index]? = some element)
    (narrow : ∀ intr ∈ intrs, shader.Accesses
      (shader.preprocessSignatures inputClipSize minorValidator).mappings signature record
        intr → intr.bitSize ≠ 64) :
    ∃ bits, usage.usageMasks[index]? = some bits ∧
      ((shader.emitIntrinsics (shader.preprocessSignatures inputClipSize minorValidator)
          intrs).DescribesAccesses (shader.writes signature) signature record
            usage.signature.semantic.startCol bits usage.dynamicMaskAndStream ↔
        shader.MasksAgree (shader.preprocessSignatures inputClipSize minorValidator).mappings
          intrs signature record usage.signature.semantic.startCol element) := by
  obtain ⟨bits, hasBits, emitted⟩ := emitted_of_getElem? validator hasRecord hasElement narrow
  have calls : (shader.emitIntrinsics
      (shader.preprocessSignatures inputClipSize minorValidator) intrs).calls =
        intrs.flatMap (shader.emittedCalls
          (shader.preprocessSignatures inputClipSize minorValidator).mappings) :=
    (shader.emitIntrinsics_spec
      (shader.preprocessSignatures inputClipSize minorValidator) validator intrs).2
  refine ⟨bits, hasBits, ?_⟩
  constructor
  · rintro ⟨neverWrites, alwaysReads, dynamicIndex⟩
    simp only [calls, exists_call_at_iff] at neverWrites alwaysReads
    simp only [calls, exists_dynamic_call_at_iff] at dynamicIndex
    refine ⟨?_, ?_, ?_, ?_, ?_, ?_, ?_⟩
    · intro writes column inside covered
      exact (neverWrites writes column inside).mp
        ((emitted.written writes column inside).mpr (Or.inl covered))
    · intro writes column inside intr mem names
      exact (neverWrites writes column inside).mp
        ((emitted.written writes column inside).mpr (Or.inr ⟨intr, mem, names⟩))
    · intro writes column inside intr mem isStore accesses reaches
      exact (emitted.written writes column inside).mp
        ((neverWrites writes column inside).mpr ⟨intr, mem, isStore, accesses, reaches⟩)
    · intro reads column covered intr mem names
      exact (alwaysReads reads column).mp
        ((emitted.read reads column).mpr ⟨covered, intr, mem, names⟩)
    · intro reads column intr mem isLoad accesses reaches
      exact (emitted.read reads column).mp
        ((alwaysReads reads column).mpr ⟨intr, mem, isLoad, accesses, reaches⟩)
    · intro column inside intr mem dynamic names
      exact (dynamicIndex column inside).mp
        ((emitted.indexed column inside).mpr ⟨intr, mem, dynamic, names⟩)
    · intro column inside intr mem dynamic plain accesses reaches
      exact (emitted.indexed column inside).mp
        ((dynamicIndex column inside).mpr ⟨intr, mem, dynamic, plain, accesses, reaches⟩)
  · intro agree
    refine ⟨?_, ?_, ?_⟩
    · intro writes column inside
      rw [calls, exists_call_at_iff, emitted.written writes column inside]
      constructor
      · rintro (covered | ⟨intr, mem, names⟩)
        · exact agree.elementStored writes column inside covered
        · exact agree.namedStored writes column inside intr mem names
      · rintro ⟨intr, mem, isStore, accesses, reaches⟩
        exact agree.storedNamed writes column inside intr mem isStore accesses reaches
    · intro reads column
      rw [calls, exists_call_at_iff, emitted.read reads column]
      constructor
      · rintro ⟨covered, intr, mem, names⟩
        exact agree.namedLoaded reads column covered intr mem names
      · rintro ⟨intr, mem, isLoad, accesses, reaches⟩
        exact agree.loadedNamed reads column intr mem isLoad accesses reaches
    · intro column inside
      rw [calls, exists_dynamic_call_at_iff, emitted.indexed column inside]
      constructor
      · rintro ⟨intr, mem, dynamic, names⟩
        exact agree.namedDynamic column inside intr mem dynamic names
      · rintro ⟨intr, mem, dynamic, plain, accesses, reaches⟩
        exact agree.dynamicNamed column inside intr mem dynamic plain accesses reaches

/-- For stores that stay inside the element nothing more is needed than that all of it is
stored to. -/
theorem stores_agree_of_inside {mappings : SignatureKind → Nat → Nat} {intrs : List IoAccess}
    {signature : SignatureKind} {record startCol : Nat} {element : ElementSlot}
    (inside : ∀ intr ∈ intrs, shader.Accesses mappings signature record intr →
      ∀ column, shader.Reaches startCol intr column ∨ shader.Names intr column →
        element.mask.testBit column = true)
    (elementStored : ∀ column < 4, element.mask.testBit column = true →
      ∃ intr ∈ intrs, intr.isStore = true ∧
        shader.Accesses mappings signature record intr ∧ shader.Reaches startCol intr column) :
    (∀ column < 4, ∀ intr ∈ shader.updating mappings signature record intrs,
      shader.Names intr column → ∃ other ∈ intrs, other.isStore = true ∧
        shader.Accesses mappings signature record other ∧
          shader.Reaches startCol other column) ∧
      ∀ column < 4, ∀ intr ∈ intrs, intr.isStore = true →
        shader.Accesses mappings signature record intr → shader.Reaches startCol intr column →
          element.mask.testBit column = true ∨
            ∃ other ∈ shader.updating mappings signature record intrs,
              shader.Names other column := by
  constructor
  · intro column small intr mem names
    obtain ⟨listed, -, accesses⟩ := shader.mem_updating.mp mem
    exact elementStored column small (inside intr listed accesses column (Or.inr names))
  · intro column small intr listed isStore accesses reaches
    exact Or.inl (inside intr listed accesses column (Or.inl reaches))

/-- The load of `packedScalar`. -/
def scalarLoad : IoAccess where
  intrinsic := .loadInput
  base := 1
  component := 3
  numComponents := 1
  location := 32
  row := some 0

theorem describesAccesses_scalarLoad :
    (packedPair.emitIntrinsics (packedPair.preprocessSignatures 0 5)
      [scalarLoad]).DescribesAccesses false .input 1 3 8 0 := by
  obtain ⟨bits, hasBits, describes⟩ :=
    @describesAccesses_iff packedPair 0 5 (by decide) [scalarLoad] .input 1 0 _ _ rfl rfl
      (by decide)
  have sameBits : (8 : BitVec 8) = bits := Option.some.inj hasBits
  rw [sameBits]
  have names : ∀ column, packedPair.Names scalarLoad column → column = 3 := by
    intro column names
    have bounds : 3 ≤ column ∧ column < 3 + 1 := names
    omega
  have reaches : ∀ column, packedPair.Reaches 3 scalarLoad column → 3 = column := by
    rintro column ⟨i, small, -, same⟩
    have first : i = 0 := Nat.lt_one_iff.mp small
    subst first
    exact same
  have loads : ∀ intr ∈ [scalarLoad], intr = scalarLoad := fun intr => List.mem_singleton.mp
  apply describes.mpr
  refine ⟨?_, ?_, ?_, ?_, ?_, ?_, ?_⟩
  · intro writes
    cases writes
  · intro writes
    cases writes
  · intro writes
    cases writes
  · intro reads column covered intr mem named
    have located := names column (loads intr (List.mem_of_mem_filter mem) ▸ named)
    subst located
    exact ⟨scalarLoad, by decide, rfl, by decide, 0, by decide, by decide, rfl⟩
  · intro reads column intr mem isLoad accesses reached
    have located := reaches column (loads intr mem ▸ reached)
    subst located
    exact ⟨rfl, scalarLoad, by decide, by decide, by decide⟩
  · intro column small intr mem dynamic
    rw [loads intr (List.mem_of_mem_filter mem)] at dynamic
    cases dynamic
  · intro column small intr mem dynamic
    rw [loads intr mem] at dynamic
    cases dynamic

/-- A vertex shader that writes only the first component of a vector. -/
def partialOutput : IoShader where
  stage := .vertex
  vars := [{ packedVector with type := .vector 32 4, mode := .shaderOut }]
  clipDistanceArraySize := 0
  patch_eq := by decide

def partialStore : IoAccess where
  intrinsic := .storeOutput
  base := 0
  component := 0
  numComponents := 1
  writeMask := 1
  location := 32
  row := some 0

/-- The second component is never written, and its bit is clear. -/
theorem not_describesAccesses_partialStore :
    ∃ usage bits, ((partialOutput.emitIntrinsics (partialOutput.preprocessSignatures 0 5)
        [partialStore]).records .output)[0]? = some usage ∧
      usage.usageMasks[0]? = some bits ∧
        ¬ (partialOutput.emitIntrinsics (partialOutput.preprocessSignatures 0 5)
          [partialStore]).DescribesAccesses true .output 0 usage.signature.semantic.startCol
            bits usage.dynamicMaskAndStream := by
  refine ⟨_, _, rfl, rfl, ?_⟩
  intro describes
  obtain ⟨call, mem, -, -, -, column⟩ :=
    (describes.neverWrites rfl 1 (by decide)).mp (by decide)
  have only : call = partialOutput.emittedCall
      (partialOutput.preprocessSignatures 0 5).mappings partialStore 0 :=
    List.mem_singleton.mp mem
  subst only
  revert column
  decide

end IoShader

end SpirvToDxil
