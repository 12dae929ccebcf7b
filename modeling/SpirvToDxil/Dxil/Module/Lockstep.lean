import SpirvToDxil.Dxil.Module.Numbering
import SpirvToDxil.Util.MapM

/-!
# Writer and reader count in lockstep

`assign_values` and the reader's table are two counts over the same lists.  A value
resolves when the id that the writer gave it leads the reader back to it; every value
that is defined resolves, so every operand of every record is read as the value that
the instruction was built with.
-/

namespace SpirvToDxil

/-! ## The writer's ids -/

/-- The ids of a function's instructions when no count overflows. -/
def instrIds : List Instr → Nat → List Nat
  | [], _ => []
  | instr :: instrs, next => next :: instrIds instrs (if instr.hasValue then next + 1 else next)

def valueCount (instrs : List Instr) : Nat := (instrs.filter Instr.hasValue).length

@[simp] theorem valueCount_nil : valueCount [] = 0 := rfl

theorem valueCount_cons (instr : Instr) (instrs : List Instr) :
    valueCount (instr :: instrs) = (if instr.hasValue then 1 else 0) + valueCount instrs := by
  by_cases has : instr.hasValue <;> simp [valueCount, has, Nat.add_comm]

theorem assignIds_eq {count next : Nat} (fits : next + count < 2 ^ 31) :
    assignIds count next = some (List.range' next count, next + count) := by
  induction count generalizing next with
  | zero => rfl
  | succ count inductionHypothesis =>
    have step : nextValueId next = some (next + 1) := by
      rw [nextValueId, if_pos (by omega)]
    have rest := @inductionHypothesis (next + 1) (by omega)
    simp only [assignIds, step, rest, Option.bind_eq_bind, Option.bind_some, List.range'_succ,
      Option.some.injEq, Prod.mk.injEq, true_and]
    omega

theorem assignIds_fits {count next last : Nat} {ids : List Nat} (small : next < 2 ^ 31)
    (assigned : assignIds count next = some (ids, last)) : next + count < 2 ^ 31 := by
  induction count generalizing next ids last with
  | zero => exact small
  | succ count inductionHypothesis =>
    simp only [assignIds, Option.bind_eq_bind, Option.bind_eq_some_iff, nextValueId,
      Option.ite_none_right_eq_some] at assigned
    obtain ⟨after, ⟨room, stepped⟩, ⟨rest, last'⟩, assigned, -⟩ := assigned
    cases stepped
    have := inductionHypothesis room assigned
    omega

theorem assignInstrIds_eq {instrs : List Instr} {next : Nat}
    (fits : next + valueCount instrs < 2 ^ 31) :
    assignInstrIds instrs next = some (instrIds instrs next) := by
  induction instrs generalizing next with
  | nil => rfl
  | cons instr instrs inductionHypothesis =>
    rw [valueCount_cons] at fits
    by_cases has : instr.hasValue
    · simp only [has, if_true] at fits
      have step : nextValueId next = some (next + 1) := by
        rw [nextValueId, if_pos (by omega)]
      have rest := @inductionHypothesis (next + 1) (by omega)
      simp [assignInstrIds, instrIds, has, step, rest]
    · simp only [has] at fits
      have rest := @inductionHypothesis next (by simpa using fits)
      simp [assignInstrIds, instrIds, has, rest]

theorem assignInstrIds_fits {instrs : List Instr} {next : Nat} {ids : List Nat}
    (small : next < 2 ^ 31) (assigned : assignInstrIds instrs next = some ids) :
    next + valueCount instrs < 2 ^ 31 := by
  induction instrs generalizing next ids with
  | nil => exact small
  | cons instr instrs inductionHypothesis =>
    rw [valueCount_cons]
    by_cases has : instr.hasValue
    · simp only [assignInstrIds, has, if_true, Option.bind_eq_bind, Option.bind_eq_some_iff,
        nextValueId, Option.ite_none_right_eq_some] at assigned
      obtain ⟨after, ⟨room, stepped⟩, rest, assigned, -⟩ := assigned
      cases stepped
      have := inductionHypothesis room assigned
      simp only [has, if_true]
      omega
    · simp only [assignInstrIds, has, if_false, Option.bind_eq_bind, Option.bind_some,
        Option.bind_eq_some_iff, Bool.false_eq_true] at assigned
      obtain ⟨rest, assigned, -⟩ := assigned
      have := inductionHypothesis small assigned
      simp only [has, Bool.false_eq_true, if_false]
      omega

namespace DxilModule

variable (m : DxilModule)

/-- The ids outside the functions when no count overflows. -/
def globalIds : Ids where
  gvars := List.range' 0 m.gvars.length
  funcs := List.range' m.gvars.length m.funcs.length
  consts := List.range' (m.gvars.length + m.funcs.length) m.consts.length
  instrs := []

theorem assignValues_eq (globals : m.valueIdAtFunctionsStart < 2 ^ 31)
    (values : ∀ f ∈ m.funcDefs, m.valueIdAtFunctionsStart + valueCount f.instrs < 2 ^ 31) :
    m.assignValues = some (m.globalIds,
      m.funcDefs.map fun f => instrIds f.instrs m.valueIdAtFunctionsStart) := by
  unfold valueIdAtFunctionsStart at globals values ⊢
  have instrs := mapM_eq_some_map (f := fun f : FuncDef => assignInstrIds f.instrs
    (m.gvars.length + m.funcs.length + m.consts.length))
    (fun f member => assignInstrIds_eq (values f member))
  simp only [assignValues, assignIds_eq (show 0 + m.gvars.length < 2 ^ 31 by omega),
    Nat.zero_add, assignIds_eq (show m.gvars.length + m.funcs.length < 2 ^ 31 by omega),
    assignIds_eq globals, Option.bind_eq_bind, Option.bind_some, instrs, globalIds]

theorem assignValues_fits {assigned : Ids × List (List Nat)}
    (done : m.assignValues = some assigned) :
    m.valueIdAtFunctionsStart < 2 ^ 31 ∧
      ∀ f ∈ m.funcDefs, m.valueIdAtFunctionsStart + valueCount f.instrs < 2 ^ 31 := by
  simp only [assignValues, Option.bind_eq_bind, Option.bind_eq_some_iff] at done
  obtain ⟨⟨gvars, next⟩, first, ⟨funcs, next'⟩, second, ⟨consts, start⟩, third, instrs, fourth,
    -⟩ := done
  have firstFits := assignIds_fits (by decide) first
  rw [assignIds_eq firstFits] at first
  cases first
  have secondFits := assignIds_fits (by omega) second
  rw [assignIds_eq secondFits] at second
  cases second
  have thirdFits := assignIds_fits secondFits third
  rw [assignIds_eq thirdFits] at third
  cases third
  simp only [Nat.zero_add] at thirdFits fourth
  refine ⟨thirdFits, fun f member => ?_⟩
  obtain ⟨ids, -, assigned⟩ := exists_of_mapM fourth member
  exact assignInstrIds_fits thirdFits assigned

end DxilModule

/-! ## Reading an operand back -/

/-- The id that the writer gave to the value is where the reader's table has it. -/
structure Resolves (ids : Ids) (table : List Value) (value : Value) (id : Nat) : Prop where
  written : ids.of? value = some id
  read : table[id]? = some value
  small : id < 2 ^ 31

theorem lookup_ofNat {table : List Value} {value : Value} {id : Nat}
    (read : table[id]? = some value) : lookup table (id : Int) = some value := by
  simp [lookup, read]

theorem decodeSigned_encodeSigned {value : Int} (above : -2 ^ 63 ≤ value) (below : value < 2 ^ 63) :
    decodeSigned (encodeSigned value) = value := by
  unfold encodeSigned decodeSigned toU64
  by_cases nonneg : 0 ≤ value
  · rw [if_pos nonneg]
    split_ifs <;> omega
  · rw [if_neg nonneg]
    split_ifs <;> omega

section Operands

variable {ids : Ids} {table : List Value} {valueId : Nat}

theorem relative_reads {value : Value} {id : Nat} (resolves : Resolves ids table value id)
    (before : id < valueId) (small : valueId < 2 ^ 31) :
    ∃ n, ids.relative valueId value = some n ∧
      lookup table ((valueId : Int) - n) = some value := by
  refine ⟨valueId - id, ?_, ?_⟩
  · simp only [Ids.relative, resolves.written, Option.bind_eq_bind, Option.bind_some,
      Option.some.injEq, toU64]
    omega
  · have distance : (valueId : Int) - (valueId - id : Nat) = id := by omega
    rw [distance]
    exact lookup_ofNat resolves.read

theorem relatives_read {values : List Value} (small : valueId < 2 ^ 31)
    (resolved : ∀ value ∈ values, ∃ id, Resolves ids table value id ∧ id < valueId) :
    ∃ distances, values.mapM (ids.relative valueId) = some distances ∧
      distances.length = values.length ∧
      distances.map (fun n : Nat => lookup table ((valueId : Int) - n)) = values.map some := by
  induction values with
  | nil => exact ⟨[], rfl, rfl, rfl⟩
  | cons value values inductionHypothesis =>
    obtain ⟨id, resolves, before⟩ := resolved value (by simp)
    obtain ⟨n, written, read⟩ := relative_reads resolves before small
    obtain ⟨distances, mapped, length, reads⟩ :=
      inductionHypothesis fun value member => resolved value (by simp [member])
    refine ⟨n :: distances, ?_, ?_, ?_⟩
    · simp [written, mapped]
    · simp [length]
    · simp [read, reads]

/-- The incoming values of a phi are read back, wherever they are defined. -/
theorem incoming_reads {blockIds : List Int} {incoming : List (Value × Nat)}
    (small : valueId < 2 ^ 31)
    (resolved : ∀ source ∈ incoming, ∃ id, Resolves ids table source.1 id)
    (blocks : ∀ source ∈ incoming, source.2 < blockIds.length) :
    ∃ pairs, incoming.mapM (emitIncoming ids blockIds valueId) = some pairs ∧
      pairs.flatten.length = 2 * incoming.length ∧
      (incomingIds valueId pairs.flatten).map (lookup table) = incoming.map (some ·.1) := by
  induction incoming with
  | nil => exact ⟨[], rfl, rfl, rfl⟩
  | cons source incoming inductionHypothesis =>
    obtain ⟨id, resolves⟩ := resolved source (by simp)
    have inRange := blocks source (by simp)
    obtain ⟨pairs, mapped, length, reads⟩ :=
      inductionHypothesis (fun source member => resolved source (by simp [member]))
        (fun source member => blocks source (by simp [member]))
    have emitted : emitIncoming ids blockIds valueId source =
        some [encodeSigned (valueId - id), toU64 blockIds[source.2]] := by
      simp [emitIncoming, resolves.written, List.getElem?_eq_getElem inRange]
    have idSmall := resolves.small
    have decoded : (valueId : Int) - decodeSigned (encodeSigned (valueId - id)) = id := by
      rw [decodeSigned_encodeSigned (by omega) (by omega)]
      omega
    refine ⟨[encodeSigned (valueId - id), toU64 blockIds[source.2]] :: pairs, ?_, ?_, ?_⟩
    · simp [emitted, mapped]
    · simp only [List.flatten_cons, List.length_append, List.length_cons, List.length_nil, length]
      omega
    · simp only [List.flatten_cons, List.cons_append, List.nil_append, incomingIds, List.map_cons,
        decoded, lookup_ofNat resolves.read, reads]

structure ReadsInstr (types : List DxilType) (table : List Value) (valueId : Nat) (instr : Instr)
    (record : CodedRecord) : Prop where
  isInstr : record.1 ≠ FUNC_CODE_DECLAREBLOCKS
  produces : producesValue types record = instr.hasValue
  operands : (operandIds valueId record).map (lookup table) = instr.operands.map some

theorem emitInstr_reads {m : DxilModule} {f : FuncDef} {instr : Instr} (fits : instr.Fits)
    (asserted : instr.Asserted m f) (small : valueId < 2 ^ 31)
    (resolved : ∀ value ∈ instr.operands,
      ∃ id, Resolves ids table value id ∧ (instr.isPhi = false → id < valueId)) :
    ∃ call record, emitInstr ids f.basicBlockIds m.funcs valueId instr = some call ∧
      call.record? = some record ∧ ReadsInstr m.types table valueId instr record := by
  have relative : ∀ value ∈ instr.operands, instr.isPhi = false → ∃ n,
      ids.relative valueId value = some n ∧ lookup table ((valueId : Int) - n) = some value := by
    intro value member notPhi
    obtain ⟨id, resolves, before⟩ := resolved value member
    exact relative_reads resolves (before notPhi) small
  cases instr with
  | binop opcode op0 op1 flags =>
    obtain ⟨n0, written0, read0⟩ := relative op0 (by simp [Instr.operands]) rfl
    obtain ⟨n1, written1, read1⟩ := relative op1 (by simp [Instr.operands]) rfl
    have operands : ∀ rest, (operandIds valueId (FUNC_CODE_INST_BINOP, n0 :: n1 :: rest)).map
        (lookup table) = [some op0, some op1] := by
      intro rest
      simp [operandIds, FUNC_CODE_INST_BINOP, read0, read1]
    by_cases flagged : flags = 0
    · exact ⟨emitFuncAbbrevRecord .binop [FUNC_CODE_INST_BINOP, n0, n1, opcode], _,
        by simp [emitInstr, emitBinop, written0, written1, flagged], rfl,
        (by decide : FUNC_CODE_INST_BINOP ≠ FUNC_CODE_DECLAREBLOCKS), rfl, operands _⟩
    · exact ⟨emitFuncAbbrevRecord .binopFlags [FUNC_CODE_INST_BINOP, n0, n1, opcode, flags], _,
        by simp [emitInstr, emitBinop, written0, written1, flagged], rfl,
        (by decide : FUNC_CODE_INST_BINOP ≠ FUNC_CODE_DECLAREBLOCKS), rfl, operands _⟩
  | cmp pred op0 op1 =>
    obtain ⟨n0, written0, read0⟩ := relative op0 (by simp [Instr.operands]) rfl
    obtain ⟨n1, written1, read1⟩ := relative op1 (by simp [Instr.operands]) rfl
    refine ⟨_, _, by simp [emitInstr, emitCmp, written0, written1]; rfl, rfl,
      (by decide : FUNC_CODE_INST_CMP2 ≠ FUNC_CODE_DECLAREBLOCKS), rfl, ?_⟩
    simp [operandIds, FUNC_CODE_INST_CMP2, Instr.operands, read0, read1]
  | select op0 op1 op2 =>
    obtain ⟨n0, written0, read0⟩ := relative op0 (by simp [Instr.operands]) rfl
    obtain ⟨n1, written1, read1⟩ := relative op1 (by simp [Instr.operands]) rfl
    obtain ⟨n2, written2, read2⟩ := relative op2 (by simp [Instr.operands]) rfl
    refine ⟨_, _, by simp [emitInstr, emitSelect, written0, written1, written2]; rfl, rfl,
      (by decide : FUNC_CODE_INST_VSELECT ≠ FUNC_CODE_DECLAREBLOCKS), rfl, ?_⟩
    simp [operandIds, FUNC_CODE_INST_VSELECT, Instr.operands, read0, read1, read2]
  | cast opcode type value =>
    obtain ⟨n, written, read⟩ := relative value (by simp [Instr.operands]) rfl
    refine ⟨emitFuncAbbrevRecord .cast [FUNC_CODE_INST_CAST, n, type, opcode], _,
      by simp [emitInstr, emitCast, written], rfl,
      (by decide : FUNC_CODE_INST_CAST ≠ FUNC_CODE_DECLAREBLOCKS), rfl, ?_⟩
    simp [operandIds, FUNC_CODE_INST_CAST, Instr.operands, read]
  | br cond succ0 succ1 =>
    obtain ⟨inRange0, inRange1⟩ := asserted
    cases cond with
    | none =>
      refine ⟨_, _, by simp [emitInstr, emitBranch, List.getElem?_eq_getElem inRange0]; rfl, rfl,
        (by decide : FUNC_CODE_INST_BR ≠ FUNC_CODE_DECLAREBLOCKS), rfl, ?_⟩
      simp [operandIds, FUNC_CODE_INST_BR, Instr.operands]
    | some cond =>
      obtain ⟨n, written, read⟩ := relative cond (by simp [Instr.operands]) rfl
      refine ⟨_, _, by
          simp [emitInstr, emitBranch, List.getElem?_eq_getElem inRange0,
            List.getElem?_eq_getElem (inRange1 rfl), written]; rfl, rfl,
        (by decide : FUNC_CODE_INST_BR ≠ FUNC_CODE_DECLAREBLOCKS), rfl, ?_⟩
      simp [operandIds, FUNC_CODE_INST_BR, Instr.operands, read]
  | phi type incoming =>
    obtain ⟨pairs, mapped, length, reads⟩ := @incoming_reads ids table valueId f.basicBlockIds
      incoming small (fun source member =>
        (resolved source.1 (by simpa [Instr.operands] using ⟨_, member⟩)).imp fun _ h => h.1)
      asserted
    have room : (type :: pairs.flatten).length ≤ 128 := by
      simp only [Instr.Fits] at fits
      rw [List.length_cons, length]
      omega
    refine ⟨_, _, by simp only [emitInstr, emitPhi, mapped, localArray, if_pos room,
        Option.bind_eq_bind, Option.bind_some]; rfl, rfl,
      (by decide : FUNC_CODE_INST_PHI ≠ FUNC_CODE_DECLAREBLOCKS), rfl, ?_⟩
    simpa [operandIds, FUNC_CODE_INST_PHI, Instr.operands, Function.comp_def] using reads
  | call func args hasValue =>
    obtain ⟨n, written, read⟩ := relative (.func func) (by simp [Instr.operands]) rfl
    obtain ⟨distances, mapped, length, reads⟩ := @relatives_read ids table valueId args small
      fun value member =>
        (resolved value (by simp [Instr.operands, member])).imp fun _ h => ⟨h.1, h.2 rfl⟩
    simp only [Instr.Asserted, Option.bind_eq_some_iff] at asserted
    obtain ⟨callee, found, returns⟩ := asserted
    have room : (0 :: 2 ^ 15 :: callee.type :: n :: distances).length ≤ 256 := by
      simp only [Instr.Fits] at fits
      simp only [List.length_cons, length]
      omega
    refine ⟨_, _, by simp only [emitInstr, emitCall, found, written, mapped, localArray,
        if_pos room, Option.bind_eq_bind, Option.bind_some]; rfl, rfl,
      (by decide : FUNC_CODE_INST_CALL ≠ FUNC_CODE_DECLAREBLOCKS), ?_, ?_⟩
    · cases hasValue <;> simp [producesValue, returns, Instr.hasValue]
    · simp only [operandIds, FUNC_CODE_INST_CALL, Instr.operands, List.map_cons, List.map_map, read]
      exact congrArg _ reads
  | ret value =>
    simp only [Instr.Asserted] at asserted
    subst asserted
    exact ⟨emitFuncAbbrevRecord .retVoid [FUNC_CODE_INST_RET], _, rfl, rfl,
      (by decide : FUNC_CODE_INST_RET ≠ FUNC_CODE_DECLAREBLOCKS), rfl, rfl⟩
  | extractval src type idx =>
    obtain ⟨n, written, read⟩ := relative src (by simp [Instr.operands]) rfl
    refine ⟨_, _, by simp [emitInstr, emitExtractval, written]; rfl, rfl,
      (by decide : FUNC_CODE_INST_EXTRACTVAL ≠ FUNC_CODE_DECLAREBLOCKS), rfl, ?_⟩
    simp [operandIds, FUNC_CODE_INST_EXTRACTVAL, Instr.operands, read]
  | alloca allocType sizeType size align =>
    obtain ⟨id, resolves, -⟩ := resolved size (by simp [Instr.operands])
    refine ⟨_, _, by simp [emitInstr, emitAlloca, resolves.written]; rfl, rfl,
      (by decide : FUNC_CODE_INST_ALLOCA ≠ FUNC_CODE_DECLAREBLOCKS), rfl, ?_⟩
    simp [operandIds, FUNC_CODE_INST_ALLOCA, Instr.operands, lookup_ofNat resolves.read]
  | gep inbounds sourceElemType operands =>
    obtain ⟨distances, mapped, length, reads⟩ := @relatives_read ids table valueId operands small
      fun value member =>
        (resolved value (by simp [Instr.operands, member])).imp fun _ h => ⟨h.1, h.2 rfl⟩
    have room : (FUNC_CODE_INST_GEP :: inbounds.toNat :: sourceElemType :: distances).length ≤
        256 := by
      simp only [Instr.Fits] at fits
      simp only [List.length_cons, length]
      omega
    refine ⟨emitFuncAbbrevRecord .gep
        (FUNC_CODE_INST_GEP :: inbounds.toNat :: sourceElemType :: distances), _,
      by simp only [emitInstr, emitGep, mapped, localArray, if_pos room, Option.bind_eq_bind,
        Option.bind_some], rfl, (by decide : FUNC_CODE_INST_GEP ≠ FUNC_CODE_DECLAREBLOCKS), rfl, ?_⟩
    simp only [operandIds, FUNC_CODE_INST_GEP, Instr.operands, List.map_map]
    exact reads
  | load ptr type align isVolatile =>
    obtain ⟨n, written, read⟩ := relative ptr (by simp [Instr.operands]) rfl
    refine ⟨_, _, by simp [emitInstr, emitLoad, written]; rfl, rfl,
      (by decide : FUNC_CODE_INST_LOAD ≠ FUNC_CODE_DECLAREBLOCKS), rfl, ?_⟩
    simp [operandIds, FUNC_CODE_INST_LOAD, Instr.operands, read]
  | store value ptr align isVolatile =>
    obtain ⟨n0, written0, read0⟩ := relative ptr (by simp [Instr.operands]) rfl
    obtain ⟨n1, written1, read1⟩ := relative value (by simp [Instr.operands]) rfl
    refine ⟨_, _, by simp [emitInstr, emitStore, written0, written1]; rfl, rfl,
      (by decide : FUNC_CODE_INST_STORE ≠ FUNC_CODE_DECLAREBLOCKS), rfl, ?_⟩
    simp [operandIds, FUNC_CODE_INST_STORE, Instr.operands, read0, read1]
  | cmpxchg cmpval newval ptr isVolatile ordering syncscope =>
    obtain ⟨n0, written0, read0⟩ := relative ptr (by simp [Instr.operands]) rfl
    obtain ⟨n1, written1, read1⟩ := relative cmpval (by simp [Instr.operands]) rfl
    obtain ⟨n2, written2, read2⟩ := relative newval (by simp [Instr.operands]) rfl
    refine ⟨_, _, by simp [emitInstr, emitCmpxchg, written0, written1, written2]; rfl, rfl,
      (by decide : FUNC_CODE_INST_CMPXCHG_OLD ≠ FUNC_CODE_DECLAREBLOCKS), rfl, ?_⟩
    simp [operandIds, FUNC_CODE_INST_CMPXCHG_OLD, Instr.operands, read0, read1, read2]
  | atomicrmw value ptr op isVolatile ordering syncscope =>
    obtain ⟨n0, written0, read0⟩ := relative ptr (by simp [Instr.operands]) rfl
    obtain ⟨n1, written1, read1⟩ := relative value (by simp [Instr.operands]) rfl
    refine ⟨_, _, by simp [emitInstr, emitAtomicrmw, written0, written1]; rfl, rfl,
      (by decide : FUNC_CODE_INST_ATOMICRMW ≠ FUNC_CODE_DECLAREBLOCKS), rfl, ?_⟩
    simp [operandIds, FUNC_CODE_INST_ATOMICRMW, Instr.operands, read0, read1]

end Operands

/-! ## The reader's table -/

def definedInstrs : Nat → List Instr → List Value
  | _, [] => []
  | index, instr :: instrs =>
    if instr.hasValue then .instr index :: definedInstrs (index + 1) instrs
    else definedInstrs (index + 1) instrs

def DxilModule.globalTable (m : DxilModule) : List Value :=
  (List.range m.gvars.length).map .gvar ++ (List.range m.funcs.length).map .func ++
    (List.range m.consts.length).map .const

@[simp] theorem DxilModule.length_globalTable (m : DxilModule) :
    m.globalTable.length = m.valueIdAtFunctionsStart := by
  simp [globalTable, valueIdAtFunctionsStart, Nat.add_assoc]

theorem instrIds_getElem? {instrs : List Instr} {next index : Nat}
    (inside : index < instrs.length) :
    (instrIds instrs next)[index]? = some (next + valueCount (instrs.take index)) := by
  induction instrs generalizing next index with
  | nil => simp at inside
  | cons instr instrs inductionHypothesis =>
    cases index with
    | zero => simp [instrIds]
    | succ index =>
      rw [instrIds, List.getElem?_cons_succ, inductionHypothesis (by simpa using inside),
        List.take_succ_cons, valueCount_cons]
      by_cases has : instr.hasValue <;> simp [has, Nat.add_assoc]

theorem definedInstrs_getElem? {instrs : List Instr} {first index : Nat}
    (has : instrs[index]?.map Instr.hasValue = some true) :
    (definedInstrs first instrs)[valueCount (instrs.take index)]? =
      some (.instr (first + index)) := by
  induction instrs generalizing first index with
  | nil => simp at has
  | cons instr instrs inductionHypothesis =>
    cases index with
    | zero =>
      have produces : instr.hasValue = true := by simpa using has
      simp [definedInstrs, produces]
    | succ index =>
      have rest := @inductionHypothesis (first + 1) index (by simpa using has)
      rw [List.take_succ_cons, valueCount_cons, definedInstrs]
      by_cases produces : instr.hasValue
      · rw [if_pos produces, if_pos produces, Nat.add_comm 1, List.getElem?_cons_succ, rest]
        simp [Nat.add_assoc, Nat.add_comm 1]
      · rw [if_neg produces, if_neg produces, Nat.zero_add, rest]
        simp [Nat.add_assoc, Nat.add_comm 1]

/-- Between a value and a later instruction the count has gone on. -/
theorem valueCount_take_lt {instrs : List Instr} {index later : Nat}
    (has : instrs[index]?.map Instr.hasValue = some true) (before : index < later) :
    valueCount (instrs.take index) < valueCount (instrs.take later) := by
  induction instrs generalizing index later with
  | nil => simp at has
  | cons instr instrs inductionHypothesis =>
    cases later with
    | zero => simp at before
    | succ later =>
      rw [List.take_succ_cons, valueCount_cons]
      cases index with
      | zero =>
        have produces : instr.hasValue = true := by simpa using has
        simp [produces]
      | succ index =>
        have rest := @inductionHypothesis index later (by simpa using has) (by omega)
        rw [List.take_succ_cons, valueCount_cons]
        omega

theorem valueCount_take_le (instrs : List Instr) (index : Nat) :
    valueCount (instrs.take index) ≤ valueCount instrs := by
  have sublist : (instrs.take index).Sublist instrs := List.take_sublist index instrs
  exact (sublist.filter _).length_le

namespace DxilModule

variable {m : DxilModule}

def idsIn (m : DxilModule) (f : FuncDef) : Ids :=
  { m.globalIds with instrs := instrIds f.instrs m.valueIdAtFunctionsStart }

def tableIn (m : DxilModule) (f : FuncDef) : List Value :=
  m.globalTable ++ definedInstrs 0 f.instrs

/-- Every value that is defined resolves; one that is defined before an instruction has
an id below that instruction's. -/
theorem Defines.resolves {f : FuncDef} {bound : Nat} {value : Value}
    (defined : m.Defines f.instrs bound value)
    (fits : m.valueIdAtFunctionsStart + valueCount f.instrs < 2 ^ 31) :
    ∃ id, Resolves (m.idsIn f) (m.tableIn f) value id ∧
      ∀ use, bound ≤ use → id < m.valueIdAtFunctionsStart + valueCount (f.instrs.take use) := by
  have start : m.valueIdAtFunctionsStart =
      m.gvars.length + m.funcs.length + m.consts.length := rfl
  cases value with
  | gvar index =>
    have inside : index < m.gvars.length := defined
    refine ⟨index, ⟨?_, ?_, by omega⟩, fun use _ => by omega⟩
    · simp [Ids.of?, idsIn, globalIds, inside]
    · rw [tableIn, List.getElem?_append_left (by simp; omega), globalTable,
        List.getElem?_append_left (by simp; omega),
          List.getElem?_append_left (by simpa using inside)]
      simp [inside]
  | func index =>
    have inside : index < m.funcs.length := defined
    refine ⟨m.gvars.length + index, ⟨?_, ?_, by omega⟩, fun use _ => by omega⟩
    · simp [Ids.of?, idsIn, globalIds, inside]
    · rw [tableIn, List.getElem?_append_left (by simp; omega), globalTable,
        List.getElem?_append_left (by simp; omega), List.getElem?_append_right (by simp)]
      simp [inside]
  | const index =>
    have inside : index < m.consts.length := defined
    refine ⟨m.gvars.length + m.funcs.length + index, ⟨?_, ?_, by omega⟩,
      fun use _ => by omega⟩
    · simp [Ids.of?, idsIn, globalIds, inside]
    · rw [tableIn, List.getElem?_append_left (by simp; omega), globalTable,
        List.getElem?_append_right (by simp)]
      simp [inside]
  | instr index =>
    obtain ⟨before, has⟩ := defined
    have inside : index < f.instrs.length := by
      by_contra outside
      simp [List.getElem?_eq_none (Nat.le_of_not_lt outside)] at has
    have below := valueCount_take_le f.instrs index
    refine ⟨m.valueIdAtFunctionsStart + valueCount (f.instrs.take index), ⟨?_, ?_, by omega⟩,
      fun use later => ?_⟩
    · exact instrIds_getElem? inside
    · rw [tableIn, List.getElem?_append_right (by simp), length_globalTable,
        Nat.add_sub_cancel_left, definedInstrs_getElem? has, Nat.zero_add]
    · have := valueCount_take_lt has (Nat.lt_of_lt_of_le before later)
      omega

end DxilModule

/-! ## Function blocks -/

/-- A run over the instructions of a function: if each is read back where it stands,
the records define and use what the instructions do. -/
theorem emitInstrs_reads {types : List DxilType} {ids : Ids} {table : List Value}
    {blockIds : List Int} {funcs : List Func} {instrs : List Instr} {next : Nat}
    (each : ∀ (index : Nat) (instr : Instr), instrs[index]? = some instr →
      ∃ call record, emitInstr ids blockIds funcs (next + valueCount (instrs.take index)) instr =
          some call ∧ call.record? = some record ∧
        ReadsInstr types table (next + valueCount (instrs.take index)) instr record) :
    ∃ calls, emitInstrs ids blockIds funcs instrs (instrIds instrs next) = some calls ∧
      (calls.filterMap WriterCall.record?).filter (·.1 ≠ FUNC_CODE_DECLAREBLOCKS) =
        calls.filterMap WriterCall.record? ∧
      (∀ first, instrValues types first (calls.filterMap WriterCall.record?) =
        definedInstrs first instrs) ∧
      readInstrs types table next (calls.filterMap WriterCall.record?) =
        instrs.map fun instr => instr.operands.map some := by
  induction instrs generalizing next with
  | nil => exact ⟨[], rfl, rfl, fun _ => rfl, rfl⟩
  | cons instr instrs inductionHypothesis =>
    obtain ⟨call, record, emitted, recorded, reads⟩ := each 0 instr rfl
    have rest := @inductionHypothesis (if instr.hasValue then next + 1 else next) (by
      intro index later found
      have here := each (index + 1) later (by simpa using found)
      rw [List.take_succ_cons, valueCount_cons] at here
      by_cases has : instr.hasValue <;> simpa [has, Nat.add_assoc] using here)
    obtain ⟨calls, emittedRest, onlyInstrs, values, readsRest⟩ := rest
    refine ⟨call :: calls, ?_, ?_, ?_, ?_⟩
    · rw [instrIds, emitInstrs]
      simp only [List.take_zero, valueCount_nil, Nat.add_zero] at emitted
      simp [emitted, emittedRest]
    · have isInstr := reads.isInstr
      simp only [List.filterMap_cons, recorded, List.filter_cons, onlyInstrs]
      simp [isInstr]
    · intro first
      simp only [List.filterMap_cons, recorded, instrValues, definedInstrs, reads.produces, values]
    · have operands := reads.operands
      simp only [List.take_zero, valueCount_nil, Nat.add_zero] at operands
      simp only [List.filterMap_cons, recorded, readInstrs, reads.produces, operands, readsRest,
        List.map_cons]

namespace DxilModule

variable {m : DxilModule}

theorem emitFunction_reads {f : FuncDef}
    (built : ∀ entry ∈ f.instrs.zipIdx, m.BuiltInstr f entry.2 entry.1)
    (fits : ∀ instr ∈ f.instrs, instr.Fits)
    (room : m.valueIdAtFunctionsStart + valueCount f.instrs < 2 ^ 31) :
    ∃ calls, emitFunction (m.idsIn f) m.funcs f = some calls ∧
      readFunction m.types m.globalTable (calls.filterMap WriterCall.record?) =
        f.instrs.map fun instr => instr.operands.map some := by
  have each : ∀ (index : Nat) (instr : Instr), f.instrs[index]? = some instr →
      ∃ call record, emitInstr (m.idsIn f) f.basicBlockIds m.funcs
          (m.valueIdAtFunctionsStart + valueCount (f.instrs.take index)) instr = some call ∧
        call.record? = some record ∧ ReadsInstr m.types (m.tableIn f)
          (m.valueIdAtFunctionsStart + valueCount (f.instrs.take index)) instr record := by
    intro index instr found
    have member : instr ∈ f.instrs := List.mem_of_getElem? found
    have here := built (instr, index) (List.mem_zipIdx_iff_getElem?.mpr found)
    have below := valueCount_take_le f.instrs index
    refine emitInstr_reads (fits instr member) here.asserted (by omega) ?_
    intro value operand
    obtain ⟨id, resolves, before⟩ := (here.operands value operand).resolves room
    refine ⟨id, resolves, fun notPhi => before index ?_⟩
    simp [notPhi]
  obtain ⟨calls, emitted, onlyInstrs, values, reads⟩ := emitInstrs_reads each
  refine ⟨.emitRecordNoAbbrev FUNC_CODE_DECLAREBLOCKS [f.currBlock] :: calls, ?_, ?_⟩
  · have ids : (m.idsIn f).instrs = instrIds f.instrs m.valueIdAtFunctionsStart := rfl
    simp [emitFunction, ids, emitted]
  · simp only [readFunction, List.filterMap_cons, WriterCall.record?, List.filter_cons,
      ne_eq, not_true, decide_false, Bool.false_eq_true, if_false]
    simp only [ne_eq] at onlyInstrs
    rw [onlyInstrs, values, length_globalTable]
    exact reads

end DxilModule

theorem length_of_incoming {ids : Ids} {blockIds : List Int} {valueId : Nat}
    {incoming : List (Value × Nat)} {pairs : List (List Nat)}
    (mapped : incoming.mapM (emitIncoming ids blockIds valueId) = some pairs) :
    pairs.flatten.length = 2 * incoming.length := by
  rw [mapM_eq_some_iff] at mapped
  induction mapped with
  | nil => rfl
  | cons emitted _ inductionHypothesis =>
    simp only [emitIncoming, Option.bind_eq_bind, Option.bind_eq_some_iff, Option.some.injEq]
      at emitted
    obtain ⟨id, -, block, -, rfl⟩ := emitted
    simp only [List.flatten_cons, List.length_append, List.length_cons, List.length_nil,
      inductionHypothesis]
    omega

theorem fits_of_emitInstr {ids : Ids} {blockIds : List Int} {funcs : List Func} {valueId : Nat}
    {instr : Instr} {call : WriterCall}
    (emitted : emitInstr ids blockIds funcs valueId instr = some call) : instr.Fits := by
  cases instr with
  | phi type incoming =>
    simp only [emitInstr, emitPhi, localArray, Option.bind_eq_bind, Option.bind_eq_some_iff,
      Option.ite_none_right_eq_some] at emitted
    obtain ⟨pairs, mapped, -, ⟨room, -⟩, -⟩ := emitted
    rw [List.length_cons, length_of_incoming mapped] at room
    simp only [Instr.Fits]
    omega
  | call func args hasValue =>
    simp only [emitInstr, emitCall, localArray, Option.bind_eq_bind, Option.bind_eq_some_iff,
      Option.ite_none_right_eq_some] at emitted
    obtain ⟨callee, -, delta, -, distances, mapped, -, ⟨room, -⟩, -⟩ := emitted
    simp only [List.length_cons, length_of_mapM mapped] at room
    simp only [Instr.Fits]
    omega
  | gep inbounds sourceElemType operands =>
    simp only [emitInstr, emitGep, localArray, Option.bind_eq_bind, Option.bind_eq_some_iff,
      Option.ite_none_right_eq_some] at emitted
    obtain ⟨distances, mapped, -, ⟨room, -⟩, -⟩ := emitted
    simp only [List.length_cons, length_of_mapM mapped] at room
    simp only [Instr.Fits]
    omega
  | _ => trivial

theorem fits_of_emitInstrs {ids : Ids} {blockIds : List Int} {funcs : List Func}
    {instrs : List Instr} {next : Nat} {calls : List WriterCall}
    (emitted : emitInstrs ids blockIds funcs instrs (instrIds instrs next) = some calls) :
    ∀ instr ∈ instrs, instr.Fits := by
  induction instrs generalizing next calls with
  | nil => simp
  | cons instr instrs inductionHypothesis =>
    simp only [instrIds, emitInstrs, Option.bind_eq_bind, Option.bind_eq_some_iff] at emitted
    obtain ⟨call, first, rest, others, -⟩ := emitted
    intro other member
    rcases List.mem_cons.mp member with rfl | member
    · exact fits_of_emitInstr first
    · exact inductionHypothesis others other member

/-! ## Constants -/

namespace DxilModule

variable {m : DxilModule}

theorem Defines.written {value : Value} (defined : m.Defines [] 0 value)
    (room : m.valueIdAtFunctionsStart < 2 ^ 31) : ∃ id, m.globalIds.of? value = some id := by
  obtain ⟨id, resolves, -⟩ := @Defines.resolves m ⟨[], [], 0⟩ 0 value defined (by simpa using room)
  exact ⟨id, resolves.written⟩

theorem emitAggregateValues_emits {values : List Value} {numValues : Nat}
    (room : m.valueIdAtFunctionsStart < 2 ^ 31) (length : values.length = numValues)
    (defined : ∀ value ∈ values, m.Defines [] 0 value) :
    ∃ data, emitAggregateValues m.globalIds values numValues =
      some (.emitRecordNoAbbrev CST_CODE_AGGREGATE data) := by
  obtain ⟨data, mapped⟩ := exists_mapM fun value member => (defined value member).written room
  refine ⟨data, ?_⟩
  rw [emitAggregateValues, if_pos length.ge, ← length, List.take_length, mapped]
  rfl

theorem emitConst_emits {c : Const} (built : m.BuiltConst c) (fits : m.FitsConst c)
    (room : m.valueIdAtFunctionsStart < 2 ^ 31) :
    ∃ call record, emitConst m.types m.globalIds c = some call ∧ call.record? = some record ∧
      record.1 ≠ CST_CODE_SETTYPE := by
  have floats : ∀ bits, ∃ record, (emitFloatValue bits).record? = some record ∧
      record.1 ≠ CST_CODE_SETTYPE := by
    intro bits
    unfold emitFloatValue
    split
    · exact ⟨_, rfl, by decide⟩
    · exact ⟨_, rfl, (by decide : CST_CODE_FLOAT ≠ CST_CODE_SETTYPE)⟩
  have aggregates : ∀ values numValues,
      values.length = numValues → (∀ value ∈ values, m.Defines [] 0 value) →
      ∃ call record, emitAggregateValues m.globalIds values numValues = some call ∧
        call.record? = some record ∧ record.1 ≠ CST_CODE_SETTYPE := by
    intro values numValues length defined
    obtain ⟨data, emitted⟩ := emitAggregateValues_emits room length defined
    exact ⟨_, _, emitted, rfl, (by decide : CST_CODE_AGGREGATE ≠ CST_CODE_SETTYPE)⟩
  unfold BuiltConst at built
  unfold FitsConst at fits
  split at built
  · rename_i isValue
    exact ⟨emitUndefValue, _, by simp only [emitConst, isValue], rfl,
      (by decide : CST_CODE_UNDEF ≠ CST_CODE_SETTYPE)⟩
  · rename_i value bits isValue isType
    by_cases null : value = 0
    · exact ⟨emitNullValue, _, by simp only [emitConst, isValue, isType, emitIntValue, if_pos null],
        rfl, (by decide : CST_CODE_NULL ≠ CST_CODE_SETTYPE)⟩
    · exact ⟨emitConstAbbrevRecord .integer [CST_CODE_INTEGER, encodeSigned value], _,
        by simp only [emitConst, isValue, isType, emitIntValue, if_neg null], rfl,
        (by decide : CST_CODE_INTEGER ≠ CST_CODE_SETTYPE)⟩
  · rename_i value isValue isType
    obtain ⟨record, recorded, code⟩ := floats (toU64 value % 2 ^ 16)
    exact ⟨_, record, by simp only [emitConst, isValue, isType], recorded, code⟩
  · rename_i value isValue isType
    obtain ⟨record, recorded, code⟩ := floats value
    exact ⟨_, record, by simp only [emitConst, isValue, isType], recorded, code⟩
  · rename_i value isValue isType
    obtain ⟨record, recorded, code⟩ := floats value
    exact ⟨_, record, by simp only [emitConst, isValue, isType], recorded, code⟩
  · rename_i values numElems elemType isValue isType
    simpa only [emitConst, isValue, isType] using aggregates values numElems built.1 built.2
  · rename_i values numElems elemType isValue isType
    simp only [isValue, isType] at fits
  · rename_i values elem isValue isType
    simpa only [emitConst, isValue, isType] using aggregates values elem.length built.1 built.2
  · exact built.elim

theorem fitsConst_of_emitConst {ids : Ids} {c : Const} {call : WriterCall}
    (emitted : emitConst m.types ids c = some call) : m.FitsConst c := by
  unfold FitsConst
  split
  · rename_i values numElems elemType isAggregate isVector
    simp [emitConst, isAggregate, isVector] at emitted
  · trivial

/-- The constant block defines the constants in order, whatever types are set between. -/
theorem emitConstsFrom_reads {consts : List Const} {currType : Option Nat} {first : Nat}
    (each : ∀ c ∈ consts, ∃ call record, emitConst m.types m.globalIds c = some call ∧
      call.record? = some record ∧ record.1 ≠ CST_CODE_SETTYPE) :
    ∃ calls, emitConstsFrom m.types m.globalIds currType consts = some calls ∧
      constValues first (calls.filterMap WriterCall.record?) =
        (List.range' first consts.length).map .const := by
  induction consts generalizing currType first with
  | nil => exact ⟨[], rfl, rfl⟩
  | cons c consts inductionHypothesis =>
    obtain ⟨call, record, emitted, recorded, code⟩ := each c (by simp)
    obtain ⟨calls, emittedRest, values⟩ := @inductionHypothesis (some c.type) (first + 1)
      fun c member => each c (by simp [member])
    refine ⟨_, by simp only [emitConstsFrom, emitted, emittedRest, Option.bind_eq_bind,
      Option.bind_some]; rfl, ?_⟩
    have own : constValues first ((call :: calls).filterMap WriterCall.record?) =
        (List.range' first (consts.length + 1)).map .const := by
      simp only [List.filterMap_cons, recorded, constValues, if_neg code, values, List.range'_succ,
        List.map_cons]
    split
    · simpa using own
    · have setType : (emitSetType c.type).record? = some (CST_CODE_SETTYPE, [c.type]) := rfl
      simpa [setType, constValues] using own

theorem fitsConst_of_emitConstsFrom {ids : Ids} {consts : List Const} {currType : Option Nat}
    {calls : List WriterCall} (emitted : emitConstsFrom m.types ids currType consts = some calls) :
    ∀ c ∈ consts, m.FitsConst c := by
  induction consts generalizing currType calls with
  | nil => simp
  | cons c consts inductionHypothesis =>
    simp only [emitConstsFrom, Option.bind_eq_bind, Option.bind_eq_some_iff] at emitted
    obtain ⟨call, first, rest, others, -⟩ := emitted
    intro other member
    rcases List.mem_cons.mp member with rfl | member
    · exact fitsConst_of_emitConst first
    · exact inductionHypothesis others other member

/-! ## Module info -/

theorem globalValues_gvars {records rest : List CodedRecord} {gvars funcs : Nat}
    (codes : ∀ record ∈ records, record.1 = DXIL_MODULE_CODE_GLOBALVAR) :
    globalValues gvars funcs (records ++ rest) = (List.range' gvars records.length).map .gvar ++
      globalValues (gvars + records.length) funcs rest := by
  induction records generalizing gvars with
  | nil => rfl
  | cons record records inductionHypothesis =>
    have others := @inductionHypothesis (gvars + 1) fun record member =>
      codes record (by simp [member])
    simp [globalValues, codes record, others, List.range'_succ, Nat.add_assoc, Nat.add_comm 1]

theorem globalValues_funcs {records : List CodedRecord} {gvars funcs : Nat}
    (codes : ∀ record ∈ records, record.1 = DXIL_MODULE_CODE_FUNCTION) :
    globalValues gvars funcs records = (List.range' funcs records.length).map .func := by
  induction records generalizing funcs with
  | nil => rfl
  | cons record records inductionHypothesis =>
    have others := @inductionHypothesis (funcs + 1) fun record member =>
      codes record (by simp [member])
    have notGvar : DXIL_MODULE_CODE_FUNCTION ≠ DXIL_MODULE_CODE_GLOBALVAR := by decide
    simp [globalValues, codes record, others, List.range'_succ, notGvar]

theorem exists_records {code : Nat} {calls : List WriterCall}
    (each : ∀ call ∈ calls, ∃ data, call.record? = some (code, data)) :
    (calls.filterMap WriterCall.record?).length = calls.length ∧
      ∀ record ∈ calls.filterMap WriterCall.record?, record.1 = code := by
  induction calls with
  | nil => simp
  | cons call calls inductionHypothesis =>
    obtain ⟨data, recorded⟩ := each call (by simp)
    obtain ⟨length, codes⟩ := inductionHypothesis fun call member => each call (by simp [member])
    constructor
    · simp [recorded, length]
    · intro record member
      simp only [List.filterMap_cons, recorded, List.mem_cons] at member
      rcases member with rfl | member
      · rfl
      · exact codes record member

theorem emitModuleInfo_reads (built : m.Built) (room : m.valueIdAtFunctionsStart < 2 ^ 31) :
    ∃ calls, m.emitModuleInfo m.globalIds = some calls ∧
      globalValues 0 0 (calls.filterMap WriterCall.record?) =
        (List.range m.gvars.length).map .gvar ++ (List.range m.funcs.length).map .func := by
  have each : ∀ gvar ∈ m.gvars, ∃ call,
      emitModuleInfoGlobal m.globalIds (simpleGvarAbbr m.gvars) gvar = some call := by
    intro gvar member
    cases initial : gvar.initializer with
    | none => simp [emitModuleInfoGlobal, initializerOperand, initial]
    | some value =>
      obtain ⟨id, written⟩ := (built.gvars gvar member value (by simp [initial])).written room
      simp [emitModuleInfoGlobal, initializerOperand, initial, written]
  obtain ⟨gvars, mapped⟩ := exists_mapM each
  have gvarRecords : ∀ call ∈ gvars, ∃ data,
      call.record? = some (DXIL_MODULE_CODE_GLOBALVAR, data) := by
    intro call member
    obtain ⟨gvar, -, emitted⟩ := exists_preimage_of_mapM mapped member
    simp only [emitModuleInfoGlobal, Option.bind_eq_bind, Option.bind_eq_some_iff,
      Option.some.injEq] at emitted
    obtain ⟨initializer, -, rfl⟩ := emitted
    exact ⟨_, rfl⟩
  have funcRecords : ∀ call ∈ m.funcs.map emitModuleInfoFunction, ∃ data,
      call.record? = some (DXIL_MODULE_CODE_FUNCTION, data) := by
    intro call member
    obtain ⟨func, -, rfl⟩ := List.mem_map.mp member
    exact ⟨_, rfl⟩
  obtain ⟨gvarLength, gvarCodes⟩ := exists_records gvarRecords
  obtain ⟨funcLength, funcCodes⟩ := exists_records funcRecords
  refine ⟨_, by simp only [emitModuleInfo, mapped, Option.bind_eq_bind, Option.bind_some]; rfl, ?_⟩
  have gvarCount : gvars.length = m.gvars.length := length_of_mapM mapped
  have triple : ∀ records text, globalValues 0 0 ((DXIL_MODULE_CODE_TRIPLE, text) :: records) =
      globalValues 0 0 records := fun _ _ => rfl
  have datalayout : ∀ records text, globalValues 0 0 ((DXIL_MODULE_CODE_DATALAYOUT, text) ::
      records) = globalValues 0 0 records := fun _ _ => rfl
  simp only [List.filterMap_cons, List.filterMap_append, emitTargetTriple, emitDatalayout,
    WriterCall.record?, triple, datalayout]
  rw [globalValues_gvars gvarCodes, globalValues_funcs funcCodes, gvarLength, gvarCount,
    funcLength, List.length_map, List.range_eq_range', List.range_eq_range']

/-! ## The module -/

/-- The values that the instructions of every function were built with. -/
def operandTable (m : DxilModule) : List (List (List (Option Value))) :=
  m.funcDefs.map fun f => f.instrs.map fun instr => instr.operands.map some

/-- A reader of what the writer emits finds, in every operand of every instruction, the
value that the instruction was built with. -/
def ReadBack (m : DxilModule) : Prop :=
  ∃ calls, m.emitValues = some calls ∧ calls.read m.types = m.operandTable

theorem emitFunctions_eq (m : DxilModule) :
    ((m.funcDefs.zip (m.funcDefs.map fun f => instrIds f.instrs m.valueIdAtFunctionsStart)).mapM
      fun entry => emitFunction { m.globalIds with instrs := entry.2 } m.funcs entry.1) =
    m.funcDefs.mapM fun f => emitFunction (m.idsIn f) m.funcs f := by
  rw [← List.map_prod_left_eq_zip, List.mapM_map]
  rfl

theorem emitFunctions_read {funcDefs : List FuncDef}
    (each : ∀ f ∈ funcDefs, ∃ calls, emitFunction (m.idsIn f) m.funcs f = some calls ∧
      readFunction m.types m.globalTable (calls.filterMap WriterCall.record?) =
        f.instrs.map fun instr => instr.operands.map some) :
    ∃ bodies, (funcDefs.mapM fun f => emitFunction (m.idsIn f) m.funcs f) = some bodies ∧
      (bodies.map fun body =>
        readFunction m.types m.globalTable (body.filterMap WriterCall.record?)) =
        funcDefs.map fun f => f.instrs.map fun instr => instr.operands.map some := by
  induction funcDefs with
  | nil => exact ⟨[], rfl, rfl⟩
  | cons f funcDefs inductionHypothesis =>
    obtain ⟨calls, emitted, reads⟩ := each f (by simp)
    obtain ⟨bodies, mapped, readsRest⟩ := inductionHypothesis fun f member =>
      each f (by simp [member])
    exact ⟨calls :: bodies, by simp [emitted, mapped], by simp [reads, readsRest]⟩

theorem readBack_of_fits (built : m.Built) (fits : m.Fits) : m.ReadBack := by
  have room := fits.globals
  have rooms : ∀ f ∈ m.funcDefs,
      m.valueIdAtFunctionsStart + valueCount f.instrs < 2 ^ 31 := fits.values
  obtain ⟨info, emittedInfo, infoValues⟩ := emitModuleInfo_reads built room
  obtain ⟨consts, emittedConsts, constsValues⟩ := @emitConstsFrom_reads m m.consts none 0
    fun c member => emitConst_emits (built.consts c member) (fits.consts c member) room
  obtain ⟨bodies, mapped, reads⟩ := emitFunctions_read fun f member =>
    emitFunction_reads (built.instrs f member) (fits.instrs f member) (rooms f member)
  have globals : globalValues 0 0 (info.filterMap WriterCall.record?) ++ constValues 0
      ((emitModuleConstAbbrevs ++ consts).filterMap WriterCall.record?) = m.globalTable := by
    have abbrevs : emitModuleConstAbbrevs.filterMap WriterCall.record? = [] := rfl
    rw [List.filterMap_append, abbrevs, List.nil_append, infoValues, constsValues,
      ← List.range_eq_range', globalTable]
  refine ⟨⟨info, emitModuleConstAbbrevs ++ consts, bodies⟩, ?_, ?_⟩
  · simp only [emitValues, assignValues_eq m room rooms, emittedInfo, emitConsts, emittedConsts,
      emitFunctions_eq, mapped, Option.bind_eq_bind, Option.bind_some]
  · simp only [ValueCalls.read, globals]
    exact reads

theorem fits_of_emitValues {calls : ValueCalls} (emitted : m.emitValues = some calls) :
    m.Fits := by
  simp only [emitValues, Option.bind_eq_bind, Option.bind_eq_some_iff] at emitted
  obtain ⟨assigned, done, info, -, consts, emittedConsts, bodies, mapped, -⟩ := emitted
  obtain ⟨room, rooms⟩ := assignValues_fits m done
  rw [assignValues_eq m room rooms] at done
  cases done
  rw [emitFunctions_eq] at mapped
  refine ⟨room, rooms, fitsConst_of_emitConstsFrom emittedConsts, fun f member => ?_⟩
  obtain ⟨body, -, emittedBody⟩ := exists_of_mapM mapped member
  simp only [emitFunction, Option.bind_eq_bind, Option.bind_eq_some_iff] at emittedBody
  obtain ⟨records, emittedInstrs, -⟩ := emittedBody
  exact fits_of_emitInstrs emittedInstrs

/-- The numbering of the writer is the one that a reader reconstructs, as long as every
record fits the array it is built in, every constant has a record and the ids fit an
`int`; otherwise nothing is read back. -/
theorem readBack_iff_fits (built : m.Built) : m.ReadBack ↔ m.Fits := by
  constructor
  · rintro ⟨calls, emitted, -⟩
    exact fits_of_emitValues emitted
  · exact readBack_of_fits built

/-- A loop that counts to ten, with a phi that refers forward, and a function that calls
it through both kinds of call. -/
def loopModule : DxilModule where
  types := [.void, .integer 32, .integer 1, .function 0 [], .function 1 [1]]
  gvars := []
  funcs := [⟨3, false, 0⟩, ⟨4, true, 1⟩, ⟨3, false, 0⟩]
  consts := [⟨1, .int 0⟩, ⟨1, .int 1⟩, ⟨1, .int 10⟩]
  funcDefs := [
    { instrs := [.br none 1 0, .phi 1 [(.const 0, 0), (.instr 2, 1)],
        .binop 0 (.instr 1) (.const 1) 0, .cmp 40 (.instr 2) (.const 2),
        .br (some (.instr 3)) 1 2, .ret none]
      basicBlockIds := [0, 1, 2], currBlock := 3 },
    { instrs := [.call 0 [] false, .call 1 [.const 0] true, .call 1 [.instr 1] true, .ret none]
      basicBlockIds := [0], currBlock := 1 }]

theorem readBack_iff_fits_loop : loopModule.ReadBack :=
  (readBack_iff_fits (by decide)).mpr ⟨by decide, by decide, by decide, by decide⟩

/-- A chain of `edges` blocks, each of which may leave for the block behind it all, where
a phi merges one value from each. -/
def mergeModule (edges : Nat) : DxilModule where
  types := [.void, .integer 32, .integer 1, .function 0 []]
  gvars := []
  funcs := [⟨3, false, 0⟩]
  consts := [⟨1, .int 0⟩, ⟨2, .int 1⟩]
  funcDefs := [
    { instrs := (List.range edges).map (fun block => .br (some (.const 1)) edges (block + 1)) ++
        [.phi 1 ((List.range edges).map fun block => (.const 0, block)), .ret none]
      basicBlockIds := (List.range (edges + 1)).map Int.ofNat, currBlock := edges + 1 }]

/-- With 64 incoming values the record of the phi does not fit `uint64_t data[128]`. -/
theorem mergeModule_not_readBack : (mergeModule 64).Built ∧ ¬ (mergeModule 64).ReadBack := by
  constructor
  · decide +kernel
  · rintro ⟨calls, emitted, -⟩
    have fits := (fits_of_emitValues emitted).instrs
    revert fits
    decide +kernel

end DxilModule

end SpirvToDxil
