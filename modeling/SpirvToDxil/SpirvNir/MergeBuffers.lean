import Mathlib.Algebra.Order.Monoid.Unbundled.WithTop
import Mathlib.Data.List.MinMax
import Mathlib.Algebra.Ring.Parity
import SpirvToDxil.Nir.Variable
import SpirvToDxil.Util.FirstMatch

/-!
# Merging aliased buffer variables
-/

namespace SpirvToDxil

open FirstMatch

namespace Variable

/-- `nir_foreach_variable_with_modes` with `nir_var_mem_ubo | nir_var_mem_ssbo`. -/
def isBuffer (var : Variable) : Bool := var.mode = .memUbo ∨ var.mode = .memSsbo

/-- The test of the inner loop, over the variables of the mode of `var`. -/
def aliases (var var2 : Variable) : Bool :=
  var2.mode = var.mode ∧ var.descriptorSet = var2.descriptorSet ∧ var.binding = var2.binding

/-- The larger array size, `desc_array_size`. -/
def descArraySize (var otherVar : Variable) : Nat :=
  let size := if var.type.isArray then var.type.getAoaSize else 1
  if otherVar.type.isArray then max size otherVar.type.getAoaSize else size

/-- The larger struct type of two UBOs; the one of `var` for SSBOs. -/
def structType (var otherVar : Variable) : GlslType :=
  let structType := var.type.withoutArray
  if var.mode = .memUbo then
    let size := structType.getExplicitSize
    let otherType := otherVar.type.withoutArray
    if otherType.getExplicitSize > size then otherType else structType
  else structType

/-- The body of `if (var->type != other_var->type)`. -/
def mergeTypes (var otherVar : Variable) : Variable :=
  { var with
    type := .arrayType (structType var otherVar) (descArraySize var otherVar) 0
    access := if var.mode = .memSsbo then
        var.access &&& ~~~(otherVar.access &&& ACCESS_NON_WRITEABLE)
      else var.access }

end Variable

/-- The walk of `merge_ubos_and_ssbos`: `done` and `rest` are the variables of
the shader before and from the current one on. -/
def mergeVariables (progress : Bool) (done : List Variable) : List Variable → List Variable × Bool
  | [] => (done, progress)
  | var :: rest =>
    if var.isBuffer then
      match (done ++ var :: rest).find? var.aliases with
      | none => mergeVariables progress (done ++ [var]) rest
      | some otherVar =>
        if var.type ≠ otherVar.type then
          -- `exec_node_remove`: the first match precedes `var`, whose type differs.
          mergeVariables true (done.eraseP var.aliases ++ [var.mergeTypes otherVar]) rest
        else mergeVariables true (done ++ [var]) rest
    else mergeVariables progress (done ++ [var]) rest

def mergeUbosAndSsbos (vars : List Variable) : List Variable × Bool :=
  mergeVariables false [] vars

namespace Variable

abbrev BufferKey := VariableMode × UInt32 × UInt32

def key (var : Variable) : Option BufferKey :=
  if var.isBuffer then some (var.mode, var.descriptorSet, var.binding) else none

def combine (var otherVar : Variable) : Option Variable :=
  if var.type ≠ otherVar.type then some (var.mergeTypes otherVar) else none

theorem key_eq_some {var : Variable} {k : BufferKey} :
    var.key = some k ↔ var.isBuffer ∧ k = (var.mode, var.descriptorSet, var.binding) := by
  rw [key]
  split
  · next buffer => simp [buffer, eq_comm]
  · next notBuffer => simp [notBuffer]

theorem aliases_eq {var var2 : Variable} {k : BufferKey} (varKey : var.key = some k) :
    var.aliases var2 = decide (var2.key = some k) := by
  rcases key_eq_some.mp varKey with ⟨buffer, rfl⟩
  rw [aliases, decide_eq_decide, key_eq_some, Prod.mk.injEq, Prod.mk.injEq]
  constructor
  · rintro ⟨mode, set, binding⟩
    refine ⟨?_, mode.symm, set, binding⟩
    simpa only [isBuffer, mode] using buffer
  · rintro ⟨-, mode, set, binding⟩
    exact ⟨mode.symm, set, binding⟩

@[simp] theorem key_mergeTypes (var otherVar : Variable) :
    (var.mergeTypes otherVar).key = var.key := rfl

theorem combine_eq_some {var otherVar merged : Variable} :
    var.combine otherVar = some merged ↔
      var.type ≠ otherVar.type ∧ merged = var.mergeTypes otherVar := by
  rw [combine]
  split
  · next different => simp [different, eq_comm]
  · next same => simp [same]

theorem lawful : Lawful key combine where
  self var := if_neg (fun different => different rfl)
  key_eq := by
    intro var otherVar merged combination
    rw [(combine_eq_some.mp combination).2, key_mergeTypes]

end Variable

open Variable

theorem mergeVariables_eq_walk (progress : Bool) (done rest : List Variable) :
    (mergeVariables progress done rest).1 = walk key combine done rest := by
  induction rest generalizing progress done with
  | nil => rfl
  | cons var rest inductionHypothesis =>
    by_cases buffer : var.isBuffer
    · have varKey : var.key = some (var.mode, var.descriptorSet, var.binding) := if_pos buffer
      have sameTest : var.aliases = fun other => decide (other.key = some _) :=
        funext fun other => aliases_eq varKey
      rw [mergeVariables, if_pos buffer, walk]
      simp only [varKey, sameTest]
      cases (done ++ var :: rest).find? _ with
      | none => exact inductionHypothesis ..
      | some otherVar =>
        by_cases different : var.type ≠ otherVar.type
        · simp only [combine, if_pos different, inductionHypothesis]
        · simp only [combine, if_neg different, inductionHypothesis]
    · have noKey : var.key = none := if_neg buffer
      rw [mergeVariables, if_neg buffer, walk]
      simp only [noKey, inductionHypothesis]

theorem mergeUbosAndSsbos_eq_walk (vars : List Variable) :
    (mergeUbosAndSsbos vars).1 = walk key combine [] vars :=
  mergeVariables_eq_walk false [] vars

/-- Variables of other modes are neither merged nor moved among themselves. -/
theorem filter_mergeUbosAndSsbos (vars : List Variable) :
    (mergeUbosAndSsbos vars).1.filter (fun var => var.key.isNone) =
      vars.filter (fun var => var.key.isNone) := by
  rw [mergeUbosAndSsbos_eq_walk, filter_walk lawful, List.nil_append]

/-! ## What a group of aliases merges to -/

namespace Variable

/-- What a variable later than the first of its group contributes to the array size. -/
def declaredSize (var : Variable) : Nat := if var.type.isArray then var.type.getAoaSize else 1

/-- The number of descriptors; a runtime-sized array counts as the largest. -/
def arraySize (var : Variable) : WithTop Nat :=
  if var.declaredSize = 0 then ⊤ else var.declaredSize

def structSize (var : Variable) : Nat := var.type.withoutArray.getExplicitSize

/-- Only UBOs compete for the struct type. -/
def structRank (var : Variable) : Nat := if var.mode = .memUbo then var.structSize else 0

end Variable

/-- The last variable of the largest rank, whose struct type a group keeps. -/
def chosen (first : Variable) (rest : List Variable) : Variable :=
  ((first :: rest).reverse.argmax structRank).getD first

def largestSize (first : Variable) (rest : List Variable) : Nat :=
  rest.foldl (fun size var => max size var.declaredSize) first.type.getAoaSize

/-- The type a group is merged to, when no refusal splits it. -/
def groupType (first : Variable) (rest : List Variable) : GlslType :=
  if rest = [] then first.type
  else .arrayType (chosen first rest).type.withoutArray (largestSize first rest) 0

/-- The number of non-writeable variables at the end of a group. -/
def trailingNonWriteable (vars : List Variable) : Nat :=
  (vars.reverse.takeWhile nonWriteable).length

theorem largestSize_append (first : Variable) (rest : List Variable) (var : Variable) :
    largestSize first (rest ++ [var]) = max (largestSize first rest) var.declaredSize :=
  List.foldl_concat ..

@[simp] theorem getAoaSize_groupType (first : Variable) (rest : List Variable) :
    (groupType first rest).getAoaSize = largestSize first rest := by
  by_cases alone : rest = []
  · rw [groupType, if_pos alone, alone]
    rfl
  · rw [groupType, if_neg alone, GlslType.getAoaSize_arrayType_withoutArray]

@[simp] theorem withoutArray_groupType (first : Variable) (rest : List Variable) :
    (groupType first rest).withoutArray = (chosen first rest).type.withoutArray := by
  by_cases alone : rest = []
  · rw [groupType, if_pos alone, alone]
    rfl
  · rw [groupType, if_neg alone, GlslType.withoutArray_arrayType,
      GlslType.withoutArray_withoutArray]

theorem argmax_eq_chosen (first : Variable) (rest : List Variable) :
    (first :: rest).reverse.argmax structRank = some (chosen first rest) := by
  cases largest : (first :: rest).reverse.argmax structRank with
  | none => simp at largest
  | some var => rw [chosen, largest, Option.getD_some]

theorem chosen_append (first : Variable) (rest : List Variable) (var : Variable) :
    chosen first (rest ++ [var]) =
      if var.structRank < (chosen first rest).structRank then chosen first rest else var := by
  rw [chosen, ← List.cons_append, List.reverse_append, List.reverse_singleton,
    List.singleton_append, List.argmax_cons, argmax_eq_chosen]
  dsimp only
  split <;> rfl

theorem chosen_mem (first : Variable) (rest : List Variable) : chosen first rest ∈ first :: rest :=
  List.mem_reverse.mp (List.argmax_mem (argmax_eq_chosen first rest))

theorem structRank_le_chosen {first var : Variable} {rest : List Variable}
    (member : var ∈ first :: rest) : var.structRank ≤ (chosen first rest).structRank :=
  List.le_of_mem_argmax (List.mem_reverse.mpr member) (argmax_eq_chosen first rest)

section Step

variable {first var survivor : Variable} {rest : List Variable}

/-- Merging the survivor of a group into the next variable of the group. -/
theorem type_mergeTypes (sameMode : ∀ other ∈ first :: rest, other.mode = var.mode)
    (survivorType : survivor.type = groupType first rest) :
    (var.mergeTypes survivor).type = groupType first (rest ++ [var]) := by
  have size : descArraySize var survivor = largestSize first (rest ++ [var]) := by
    rw [largestSize_append, descArraySize, survivorType, getAoaSize_groupType, Nat.max_comm]
    split
    · rfl
    · next notArray =>
      have nothing : largestSize first rest = 0 := by
        rw [← getAoaSize_groupType]
        exact GlslType.getAoaSize_of_not_isArray (Bool.eq_false_iff.mpr notArray)
      rw [nothing, Nat.zero_max]
      rfl
  have struct : structType var survivor = (chosen first (rest ++ [var])).type.withoutArray := by
    have chosenMode : (chosen first rest).mode = var.mode := sameMode _ (chosen_mem first rest)
    rw [chosen_append, structType, survivorType, withoutArray_groupType, structRank, structRank,
      chosenMode]
    by_cases ubo : var.mode = .memUbo
    · simp only [if_pos ubo, structSize]
      split <;> rfl
    · simp only [if_neg ubo, Nat.lt_irrefl, if_false]
  have notAlone : rest ++ [var] ≠ [] := by simp
  rw [groupType, if_neg notAlone, ← size, ← struct]
  rfl

theorem nonWriteable_mergeTypes (ssbo : var.mode = .memSsbo) :
    (var.mergeTypes survivor).nonWriteable = (var.nonWriteable && !survivor.nonWriteable) := by
  have bit : ACCESS_NON_WRITEABLE.getLsbD 4 = true := by decide
  simp only [nonWriteable_eq_getLsbD, mergeTypes, if_pos ssbo, BitVec.getLsbD_and,
    BitVec.getLsbD_not, bit, Bool.and_true]
  simp

end Step

theorem trailingNonWriteable_append (vars : List Variable) (var : Variable) :
    trailingNonWriteable (vars ++ [var]) =
      if var.nonWriteable then trailingNonWriteable vars + 1 else 0 := by
  rw [trailingNonWriteable, trailingNonWriteable, List.reverse_append, List.reverse_singleton,
    List.singleton_append, List.takeWhile_cons]
  split <;> rfl

/-- What the walk keeps of a group, if it merges the group into one variable. -/
theorem fold_spec {first survivor : Variable} {rest : List Variable}
    (sameMode : ∀ var ∈ rest, var.mode = first.mode)
    (folded : fold combine first rest = some survivor) :
    survivor.mode = first.mode ∧ survivor.type = groupType first rest ∧
      (first.mode = .memSsbo →
        (survivor.nonWriteable ↔ Odd (trailingNonWriteable (first :: rest)))) := by
  induction rest using List.reverseRecOn generalizing survivor with
  | nil =>
    cases folded
    refine ⟨rfl, rfl, fun _ => ?_⟩
    rw [← List.nil_append [first], trailingNonWriteable_append]
    cases first.nonWriteable <;> simp [trailingNonWriteable]
  | append_singleton rest var inductionHypothesis =>
    rw [fold_concat] at folded
    obtain ⟨older, foldedRest, combination⟩ := Option.bind_eq_some_iff.mp folded
    rw [combine_eq_some] at combination
    have varMode : var.mode = first.mode := sameMode var (by simp)
    have restMode : ∀ other ∈ rest, other.mode = first.mode :=
      fun other member => sameMode other (List.mem_append_left _ member)
    rcases inductionHypothesis restMode foldedRest with ⟨-, olderType, olderAccess⟩
    rcases combination with ⟨-, rfl⟩
    refine ⟨varMode, ?_, ?_⟩
    · apply type_mergeTypes _ olderType
      intro other member
      rcases List.mem_cons.mp member with rfl | member
      · exact varMode.symm
      · exact (restMode other member).trans varMode.symm
    · intro ssbo
      rw [nonWriteable_mergeTypes (varMode.trans ssbo), ← List.cons_append,
        trailingNonWriteable_append, Bool.and_eq_true, Bool.not_eq_true', ← Bool.not_eq_true,
        olderAccess ssbo]
      cases var.nonWriteable <;> simp [Nat.odd_add_one]

/-- The walk merges a group exactly when no variable has the type that those before it merge to. -/
theorem isSome_fold_iff {first : Variable} {rest : List Variable}
    (sameMode : ∀ var ∈ rest, var.mode = first.mode) :
    (fold combine first rest).isSome ↔
      ∀ front var, front ++ [var] <+: rest → var.type ≠ groupType first front := by
  induction rest using List.reverseRecOn with
  | nil => simp [fold]
  | append_singleton rest var inductionHypothesis =>
    have restMode : ∀ other ∈ rest, other.mode = first.mode :=
      fun other member => sameMode other (List.mem_append_left _ member)
    rw [fold_concat]
    constructor
    · intro merged front other isPrefix
      obtain ⟨survivor, folded⟩ := Option.isSome_iff_exists.mp merged
      obtain ⟨older, foldedRest, combination⟩ := Option.bind_eq_some_iff.mp folded
      rcases List.prefix_concat_iff.mp isPrefix with whole | isPrefix
      · rcases List.append_inj' whole rfl with ⟨rfl, sameVar⟩
        rw [combine_eq_some] at combination
        rw [← (fold_spec restMode foldedRest).2.1, List.singleton_inj.mp sameVar]
        exact combination.1
      · exact (inductionHypothesis restMode).mp (by rw [foldedRest]; rfl) front other isPrefix
    · intro differ
      have mergedRest := (inductionHypothesis restMode).mpr
        (fun front other isPrefix => differ front other (isPrefix.trans (List.prefix_append ..)))
      obtain ⟨older, foldedRest⟩ := Option.isSome_iff_exists.mp mergedRest
      have different : var.type ≠ older.type := by
        rw [(fold_spec restMode foldedRest).2.1]
        exact differ rest var (List.prefix_refl _)
      rw [foldedRest, Option.bind_some, combine, if_pos different]
      rfl

/-! ## When the merge is conservative -/

/-- What the pass promises of the variables that are left. -/
structure MergedConservatively (vars merged : List Variable) : Prop where
  distinct : merged.Pairwise (fun var other => var.isBuffer → ¬ var.aliases other)
  access : ∀ survivor ∈ merged, survivor.mode = .memSsbo →
    (survivor.nonWriteable ↔ ∀ var ∈ vars, survivor.aliases var → var.nonWriteable)
  arraySize : ∀ survivor ∈ merged, survivor.isBuffer →
    ∀ var ∈ vars, survivor.aliases var → var.arraySize ≤ survivor.arraySize
  structSize : ∀ survivor ∈ merged, survivor.mode = .memUbo →
    ∀ var ∈ vars, survivor.aliases var → var.structSize ≤ survivor.structSize

/-- The aliases that the pass merges as promised, in the order of the list: no type equals the
one that the variables before it merge to; the non-writeable variables at the end are odd in
number exactly when they are all; and a runtime-sized array meets nothing but such arrays,
a first variable that is no array apart. -/
structure Mergeable (vars : List Variable) : Prop where
  types : ∀ first rest var, first :: (rest ++ [var]) <+: vars → var.type ≠ groupType first rest
  access : (∃ var ∈ vars, var.mode = .memSsbo) →
    (Odd (trailingNonWriteable vars) ↔ ∀ var ∈ vars, var.nonWriteable)
  arraySize : 2 ≤ vars.length → (∀ var ∈ vars, var.arraySize ≠ ⊤) ∨
    (∀ var ∈ vars.tail, var.arraySize = ⊤) ∧
      ∀ first ∈ vars.head?, first.type.isArray → first.arraySize = ⊤

structure GroupMerged (vars queue : List Variable) : Prop where
  distinct : queue.length ≤ 1
  access : ∀ survivor ∈ queue, survivor.mode = .memSsbo →
    (survivor.nonWriteable ↔ ∀ var ∈ vars, var.nonWriteable)
  arraySize : ∀ survivor ∈ queue, ∀ var ∈ vars, var.arraySize ≤ survivor.arraySize
  structSize : ∀ survivor ∈ queue, survivor.mode = .memUbo →
    ∀ var ∈ vars, var.structSize ≤ survivor.structSize

theorem mem_group_of_aliases {survivor var : Variable} {vars : List Variable} {k : BufferKey}
    (survivorKey : survivor.key = some k) :
    var ∈ group key k vars ↔ var ∈ vars ∧ survivor.aliases var := by
  rw [mem_group, aliases_eq survivorKey, decide_eq_true_iff]

/-- The promise splits into groups. -/
theorem mergedConservatively_iff (vars merged : List Variable) :
    MergedConservatively vars merged ↔
      ∀ k, GroupMerged (group key k vars) (group key k merged) := by
  have bufferKey : ∀ {var : Variable}, var.isBuffer →
      var.key = some (var.mode, var.descriptorSet, var.binding) := fun buffer => if_pos buffer
  have distinct : merged.Pairwise (fun var other => var.isBuffer → ¬ var.aliases other) ↔
      ∀ k, (group key k merged).length ≤ 1 := by
    rw [← pairwise_iff_length_group]
    apply List.Pairwise.iff
    intro var other
    constructor
    · intro apart k varKey otherKey
      apply apart (key_eq_some.mp varKey).1
      rw [aliases_eq varKey, decide_eq_true otherKey]
    · intro apart buffer aliased
      rw [aliases_eq (bufferKey buffer)] at aliased
      exact apart _ (bufferKey buffer) (of_decide_eq_true aliased)
  constructor
  · intro promise k
    refine ⟨distinct.mp promise.distinct k, ?_, ?_, ?_⟩
    · intro survivor member ssbo
      rcases mem_group.mp member with ⟨listed, survivorKey⟩
      simpa only [mem_group_of_aliases survivorKey, and_imp] using
        promise.access survivor listed ssbo
    · intro survivor member
      rcases mem_group.mp member with ⟨listed, survivorKey⟩
      simpa only [mem_group_of_aliases survivorKey, and_imp] using
        promise.arraySize survivor listed (key_eq_some.mp survivorKey).1
    · intro survivor member ubo
      rcases mem_group.mp member with ⟨listed, survivorKey⟩
      simpa only [mem_group_of_aliases survivorKey, and_imp] using
        promise.structSize survivor listed ubo
  · intro promise
    refine ⟨distinct.mpr (fun k => (promise k).distinct), ?_, ?_, ?_⟩
    · intro survivor listed ssbo
      have survivorKey := @bufferKey survivor (by simp [isBuffer, ssbo])
      simpa only [mem_group_of_aliases survivorKey, and_imp] using
        (promise _).access survivor (mem_group.mpr ⟨listed, survivorKey⟩) ssbo
    · intro survivor listed buffer
      have survivorKey := bufferKey buffer
      simpa only [mem_group_of_aliases survivorKey, and_imp] using
        (promise _).arraySize survivor (mem_group.mpr ⟨listed, survivorKey⟩)
    · intro survivor listed ubo
      have survivorKey := @bufferKey survivor (by simp [isBuffer, ubo])
      simpa only [mem_group_of_aliases survivorKey, and_imp] using
        (promise _).structSize survivor (mem_group.mpr ⟨listed, survivorKey⟩) ubo

theorem arraySize_eq_top {var : Variable} : var.arraySize = ⊤ ↔ var.declaredSize = 0 := by
  rw [arraySize]
  split
  · next runtime => simp [runtime]
  · next sized => simp [sized]

theorem le_largestSize {first var : Variable} {rest : List Variable} (member : var ∈ rest) :
    var.declaredSize ≤ largestSize first rest := by
  induction rest using List.reverseRecOn with
  | nil => cases member
  | append_singleton rest last inductionHypothesis =>
    rw [largestSize_append]
    rcases List.mem_append.mp member with earlier | latest
    · exact Nat.le_trans (inductionHypothesis earlier) (Nat.le_max_left ..)
    · rw [List.mem_singleton.mp latest]
      exact Nat.le_max_right ..

theorem getAoaSize_le_largestSize (first : Variable) (rest : List Variable) :
    first.type.getAoaSize ≤ largestSize first rest := by
  induction rest using List.reverseRecOn with
  | nil => exact Nat.le_refl _
  | append_singleton rest last inductionHypothesis =>
    rw [largestSize_append]
    exact Nat.le_trans inductionHypothesis (Nat.le_max_left ..)

theorem largestSize_eq_zero {first : Variable} {rest : List Variable} :
    largestSize first rest = 0 ↔
      first.type.getAoaSize = 0 ∧ ∀ var ∈ rest, var.declaredSize = 0 := by
  induction rest using List.reverseRecOn with
  | nil => simp [largestSize]
  | append_singleton rest last inductionHypothesis =>
    rw [largestSize_append, Nat.max_eq_zero_iff, inductionHypothesis, List.forall_mem_append,
      List.forall_mem_singleton, and_assoc]

theorem getAoaSize_eq_zero_iff {var : Variable} :
    var.type.getAoaSize = 0 ↔ (var.type.isArray → var.arraySize = ⊤) := by
  rw [arraySize_eq_top, declaredSize]
  cases array : var.type.isArray with
  | true => simp
  | false => simp [GlslType.getAoaSize_of_not_isArray array]

/-- The array sizes of a group of at least two, by the size the survivor gets. -/
theorem arraySize_le_iff {first second survivor : Variable} {rest : List Variable}
    (survivorType : survivor.type = groupType first (second :: rest)) :
    (∀ var ∈ first :: second :: rest, var.arraySize ≤ survivor.arraySize) ↔
      (∀ var ∈ first :: second :: rest, var.arraySize ≠ ⊤) ∨
        (∀ var ∈ second :: rest, var.arraySize = ⊤) ∧
        (first.type.isArray → first.arraySize = ⊤) := by
  have survivorSize : survivor.declaredSize = largestSize first (second :: rest) := by
    rw [declaredSize, survivorType, getAoaSize_groupType, groupType,
      if_neg (List.cons_ne_nil _ _), GlslType.isArray_arrayType, if_pos rfl]
  have runtime : survivor.arraySize = ⊤ ↔
      (∀ var ∈ second :: rest, var.arraySize = ⊤) ∧ (first.type.isArray → first.arraySize = ⊤) := by
    rw [arraySize_eq_top, survivorSize, largestSize_eq_zero, getAoaSize_eq_zero_iff, and_comm]
    simp only [arraySize_eq_top]
  rw [← runtime]
  by_cases unbounded : survivor.arraySize = ⊤
  · simp [unbounded]
  · have sized : survivor.declaredSize ≠ 0 := fun zero => unbounded (arraySize_eq_top.mpr zero)
    have survivorArray : survivor.arraySize = (survivor.declaredSize : WithTop Nat) := if_neg sized
    simp only [unbounded, or_false]
    constructor
    · intro bounded var member top
      apply unbounded
      rw [← top_le_iff, ← top]
      exact bounded var member
    · intro finite var member
      have varSized : var.declaredSize ≠ 0 :=
        fun zero => finite var member (arraySize_eq_top.mpr zero)
      have varArray : var.arraySize = (var.declaredSize : WithTop Nat) := if_neg varSized
      rw [varArray, survivorArray]
      apply WithTop.coe_le_coe.mpr
      rcases List.mem_cons.mp member with rfl | member
      · rw [declaredSize]
        split
        · rw [survivorSize]
          exact getAoaSize_le_largestSize ..
        · exact Nat.pos_of_ne_zero sized
      · rw [survivorSize]
        exact le_largestSize member

theorem structSize_le {first survivor : Variable} {rest : List Variable}
    (sameMode : ∀ var ∈ rest, var.mode = first.mode) (ubo : first.mode = .memUbo)
    (survivorType : survivor.type = groupType first rest) :
    ∀ var ∈ first :: rest, var.structSize ≤ survivor.structSize := by
  have mode : ∀ var ∈ first :: rest, var.mode = .memUbo :=
    List.forall_mem_cons.mpr ⟨ubo, fun var member => (sameMode var member).trans ubo⟩
  have rank : ∀ var ∈ first :: rest, var.structRank = var.structSize :=
    fun var member => if_pos (mode var member)
  intro var member
  have survivorSize : survivor.structSize = (chosen first rest).structSize := by
    rw [structSize, structSize, survivorType, withoutArray_groupType]
  rw [survivorSize, ← rank _ (chosen_mem first rest), ← rank var member]
  exact structRank_le_chosen member

/-- One group, from the queue that the walk leaves of it. -/
theorem groupMerged_iff {vars : List Variable}
    (sameMode : ∀ var ∈ vars, ∀ other ∈ vars, var.mode = other.mode) :
    GroupMerged vars (vars.foldl (push combine) []) ↔ Mergeable vars := by
  cases vars with
  | nil =>
    constructor
    · intro _
      exact ⟨by simp, by simp, by simp⟩
    · intro _
      exact ⟨Nat.zero_le 1, by simp, by simp, by simp⟩
  | cons first rest =>
    have restMode : ∀ var ∈ rest, var.mode = first.mode :=
      fun var member => sameMode var (List.mem_cons_of_mem _ member) first List.mem_cons_self
    have types : (fold combine first rest).isSome ↔ ∀ oldest front var,
        oldest :: (front ++ [var]) <+: first :: rest → var.type ≠ groupType oldest front := by
      rw [isSome_fold_iff restMode]
      simp only [List.cons_prefix_cons, and_imp]
      constructor
      · rintro differ _ front var rfl isPrefix
        exact differ front var isPrefix
      · intro differ front var isPrefix
        exact differ first front var rfl isPrefix
    rw [List.foldl_cons, push]
    cases folded : fold combine first rest with
    | none =>
      have two := two_le_length_of_fold_none combine folded
      constructor
      · intro merged
        exact absurd merged.distinct (by omega)
      · intro mergeable
        have merged := types.mpr mergeable.types
        rw [folded] at merged
        cases merged
    | some survivor =>
      rcases fold_spec restMode folded with ⟨mode, survivorType, survivorAccess⟩
      rw [foldl_push_of_fold combine folded]
      have access : (∀ only ∈ [survivor], only.mode = .memSsbo →
            (only.nonWriteable ↔ ∀ var ∈ first :: rest, var.nonWriteable)) ↔
          ((∃ var ∈ first :: rest, var.mode = .memSsbo) →
            (Odd (trailingNonWriteable (first :: rest)) ↔
              ∀ var ∈ first :: rest, var.nonWriteable)) := by
        have ssbo : (∃ var ∈ first :: rest, var.mode = .memSsbo) ↔ first.mode = .memSsbo := by
          constructor
          · rintro ⟨var, member, varMode⟩
            exact (sameMode first List.mem_cons_self var member).trans varMode
          · intro firstMode
            exact ⟨first, List.mem_cons_self, firstMode⟩
        rw [List.forall_mem_singleton, mode, ssbo]
        exact forall_congr' fun firstMode => iff_congr (survivorAccess firstMode) Iff.rfl
      have arraySize : (∀ only ∈ [survivor], ∀ var ∈ first :: rest,
            var.arraySize ≤ only.arraySize) ↔
          (2 ≤ (first :: rest).length → (∀ var ∈ first :: rest, var.arraySize ≠ ⊤) ∨
            (∀ var ∈ (first :: rest).tail, var.arraySize = ⊤) ∧
              ∀ oldest ∈ (first :: rest).head?, oldest.type.isArray → oldest.arraySize = ⊤) := by
        rw [List.forall_mem_singleton]
        cases rest with
        | nil =>
          have alone : survivor.arraySize = first.arraySize := by
            rw [Variable.arraySize, Variable.arraySize, declaredSize, declaredSize, survivorType]
            rfl
          simp [alone]
        | cons second rest =>
          rw [arraySize_le_iff survivorType]
          simp
      constructor
      · intro merged
        exact ⟨types.mp (by rw [folded]; rfl), access.mp merged.access,
          arraySize.mp merged.arraySize⟩
      · intro mergeable
        refine ⟨Nat.le_refl 1, access.mpr mergeable.access, arraySize.mpr mergeable.arraySize, ?_⟩
        rw [List.forall_mem_singleton, mode]
        intro ubo
        exact structSize_le restMode ubo survivorType

/-- The pass is conservative exactly on the lists whose groups of aliases are all mergeable. -/
theorem mergedConservatively_mergeUbosAndSsbos_iff (vars : List Variable) :
    MergedConservatively vars (mergeUbosAndSsbos vars).1 ↔
      ∀ k, Mergeable (group key k vars) := by
  rw [mergedConservatively_iff, mergeUbosAndSsbos_eq_walk]
  apply forall_congr'
  intro k
  rw [group_walk lawful]
  apply groupMerged_iff
  intro var member other otherMember
  have varKey := (key_eq_some.mp (mem_group.mp member).2).2
  have otherKey := (key_eq_some.mp (mem_group.mp otherMember).2).2
  exact congrArg Prod.fst (varKey.symm.trans otherKey)

/-- Two read-only SSBOs of different struct types at one binding merge to a writeable one. -/
theorem mergeUbosAndSsbos_not_conservative :
    ¬ ∀ vars, MergedConservatively vars (mergeUbosAndSsbos vars).1 := by
  intro conservative
  let uint : GlslType := .vector 32 1
  let ssbo (name : String) : Variable :=
    { type := .struct true name (.cons 0 (.array uint 0 4) .nil)
      mode := .memSsbo
      access := ACCESS_NON_WRITEABLE
      descriptorSet := 0
      binding := 0 }
  have access := (conservative [ssbo "a", ssbo "b"]).access
  revert access
  decide

end SpirvToDxil
