import SpirvToDxil.Nir.CombineStoresInvariant
import Mathlib.Data.Nat.Find

/-!
# Which blocks stay the same when their stores are combined

A combination is stored in place of its latest store. The stores of a place are then in the order
of the ends of their combinations.
-/

namespace SpirvToDxil

namespace CombineStores

section Writes

variable {V : Type} (decls : Nat → Variable)

def Instr.put (index : Nat → Nat) (cell : Cell) : Instr → Option Scalar
  | .store dst writeMask src => stored decls index dst writeMask src cell
  | _ => none

def Instr.copied (index : Nat → Nat) (cell : Cell) : Instr → Option Cell
  | .copy dst src =>
    if dst.Covers index cell then
      some ⟨src.var, src.eval index ++ cell.path.drop dst.path.length⟩
    else none
  | _ => none

def InVector (index : Nat → Nat) (vec : Deref) (cell : Cell) : Prop :=
  cell.var = vec.var ∧ cell.path = vec.eval index ++ [cell.path.getLastD 0]

instance (index : Nat → Nat) (vec : Deref) (cell : Cell) : Decidable (InVector index vec cell) :=
  inferInstanceAs (Decidable (_ ∧ _))

/-- What a store is taken to put in a place. The mask of a store to a component is not looked
at. -/
def Instr.taken (index : Nat → Nat) (cell : Cell) (instr : Instr) : Option Scalar :=
  match instr.vector decls with
  | some (vec, _) =>
    if InVector index vec cell then instr.slot decls (cell.path.getLastD 0) else none
  | none => instr.put decls index cell

variable {decls}

theorem Instr.exec_eq (env : Env V) (memory : Cell → V) (instr : Instr) (cell : Cell) :
    instr.exec decls env memory cell =
      match instr.put decls env.index cell with
      | some scalar => env.data scalar
      | none => memory ((instr.copied env.index cell).getD cell) := by
  cases instr with
  | store dst writeMask src =>
      cases found : stored decls env.index dst writeMask src cell <;>
        simp [exec, put, copied, found]
  | copy dst src =>
      by_cases covers : dst.Covers env.index cell <;> simp [exec, put, copied, covers]
  | _ => rfl

theorem InVector.covers {index : Nat → Nat} {vec : Deref} {cell : Cell}
    (inVector : InVector index vec cell) : vec.Covers index cell :=
  ⟨inVector.1, inVector.2 ▸ List.prefix_append _ _⟩

theorem stored_eq_some_iff {index : Nat → Nat} {dst vec : Deref} {writeMask mask : Nat}
    {src : Nat → Scalar} {cell : Cell} {scalar : Scalar}
    (vectorTarget : target decls dst writeMask = .vector vec mask) :
    stored decls index dst writeMask src cell = some scalar ↔
      InVector index vec cell ∧ cell.path.getLastD 0 < (decls vec.var).elements ∧
        (isVector decls dst = false → writeMask.testBit 0) ∧
        (Instr.store dst writeMask src).slot decls (cell.path.getLastD 0) = some scalar := by
  rw [Instr.slot_of_target vectorTarget, stored, InVector, var_of_target vectorTarget]
  rcases target_eq_vector.mp vectorTarget with
    ⟨isVec, rfl, rfl⟩ | ⟨notVec, isVec, rfl, i, last, inside, rfl⟩
  · have depth : dst.path.length = (decls dst.var).depth := by
      rw [isVector, decide_eq_true_iff] at isVec
      exact isVec.1
    have components := numComponents_of_isVector isVec
    simp only [depth, if_true, if_neg (components.1.trans_ne components.2), isVec]
    grind
  · have path : dst.path = (parent dst).path ++ [.const i] := by
      obtain ⟨front, path⟩ := List.getLast?_eq_some_iff.mp last
      rw [parent, path, List.dropLast_concat]
    have depth : dst.path.length ≠ (decls dst.var).depth := by
      rw [isVector, decide_eq_true_iff] at isVec
      rw [path, List.length_append, isVec.1]
      exact Nat.succ_ne_self _
    have eval : dst.eval index = (parent dst).eval index ++ [i] := by
      rw [Deref.eval, path, List.map_append]
      rfl
    have lastOf (isPath : cell.path = (parent dst).eval index ++ [i]) :
        cell.path.getLastD 0 = i := by
      rw [isPath, List.getLastD_concat]
    simp only [if_neg depth, numComponents_eq_one_iff.mpr notVec, if_true, eval, notVec,
      Nat.testBit_two_pow]
    by_cases var : cell.var = dst.var
    · rw [if_pos var]
      simp only [var, true_and]
      constructor
      · intro found
        obtain ⟨⟨isPath, below, bit⟩, value⟩ := Option.ite_none_right_eq_some.mp found
        have isLast := lastOf isPath
        refine ⟨isLast.symm ▸ isPath, below, fun _ => bit, ?_⟩
        rw [if_pos (decide_eq_true isLast.symm)]
        exact value
      · rintro ⟨isPath, below, bit, value⟩
        obtain ⟨same, value⟩ := Option.ite_none_right_eq_some.mp value
        rw [← of_decide_eq_true same] at isPath
        rw [if_pos ⟨isPath, below, bit trivial⟩]
        exact value
    · simp [var]

theorem Instr.slot_isSome_lt {dst vec : Deref} {writeMask mask c : Nat} {src : Nat → Scalar}
    {scalar : Scalar} (vectorTarget : target decls dst writeMask = .vector vec mask)
    (valid : (Instr.store dst writeMask src).Valid decls)
    (slot : (Instr.store dst writeMask src).slot decls c = some scalar) :
    c < (decls vec.var).elements ∧ mask.testBit c := by
  rw [slot_of_target vectorTarget] at slot
  have bit := (Option.ite_none_right_eq_some.mp slot).1
  exact ⟨lt_elements_of_target vectorTarget valid bit, bit⟩

theorem Instr.taken_of_put {index : Nat → Nat} {cell : Cell} {instr : Instr} {scalar : Scalar}
    (put : instr.put decls index cell = some scalar) :
    instr.taken decls index cell = some scalar := by
  rw [taken]
  split
  next vec mask vector =>
    obtain ⟨dst, writeMask, src, rfl, -, vectorTarget⟩ := eq_store_of_vector vector
    obtain ⟨inVector, -, -, slot⟩ := (stored_eq_some_iff vectorTarget).mp put
    rw [if_pos inVector, slot]
  next => exact put

/-- An instruction that looks at a component has its vector flushed. -/
theorem LooksAt.flushes {index : Nat → Nat} {vec : Deref} {cell : Cell} {instr : Instr}
    (looks : LooksAt decls index cell (some instr)) (inVector : InVector index vec cell)
    (isOut : (decls vec.var).isOut) : instr.flushes decls vec := by
  have covers := inVector.covers
  have outAt {deref : Deref} (covered : deref.Covers index cell) : (decls deref.var).isOut := by
    rwa [← covered.1, covers.1]
  cases instr with
  | store | other => exact looks.elim
  | load src => simp [Instr.flushes, outAt looks, compareDerefs_mayAlias covers looks]
  | copy dst src =>
      rcases looks with covered | covered
      · simp [Instr.flushes, outAt covered, compareDerefs_mayAlias covers covered]
      · simp [Instr.flushes, outAt covered, compareDerefs_mayAlias covers covered]
  | emitVertex => exact isOut
  | barrier release coversOut =>
      obtain ⟨rfl, rfl⟩ := looks (inVector.1 ▸ isOut)
      simp [Instr.flushes, isOut]

theorem Instr.flushes_of_copied {index : Nat → Nat} {vec : Deref} {cell source : Cell}
    {instr : Instr} (copied : instr.copied index cell = some source)
    (inVector : InVector index vec cell) (isOut : (decls vec.var).isOut) :
    instr.flushes decls vec := by
  cases instr with
  | copy dst src =>
      have covered := (Option.ite_none_right_eq_some.mp copied).1
      exact LooksAt.flushes (.inl covered) inVector isOut
  | _ => cases copied

/-- A store past the end of a vector puts nothing. -/
theorem Instr.put_of_isInvalid {index : Nat → Nat} {cell : Cell} {instr : Instr}
    (invalid : instr.isInvalid decls) : instr.put decls index cell = none := by
  cases instr with
  | store dst writeMask src =>
      rw [isInvalid, decide_eq_true_iff] at invalid
      obtain ⟨-, invalid⟩ := invalid
      rw [target] at invalid
      split at invalid
      next => cases invalid
      next notVec =>
        split at invalid
        next i last =>
          split at invalid
          next isVec =>
            have past : (decls dst.var).elements ≤ i := by
              by_contra inside
              simp [inside] at invalid
            obtain ⟨front, path⟩ := List.getLast?_eq_some_iff.mp last
            have depth : dst.path.length ≠ (decls dst.var).depth := by
              rw [isVector, decide_eq_true_iff, parent, path, List.dropLast_concat] at isVec
              rw [path, List.length_append]
              have : front.length = (decls dst.var).depth := isVec.1
              simp [this]
            rw [put, stored]
            simp only [if_neg depth, ite_eq_right_iff, reduceCtorEq, imp_false]
            rintro var ⟨isPath, below, -⟩
            rw [isPath, Deref.eval, path, List.map_append, List.map_singleton,
              List.getLastD_concat] at below
            exact absurd past (Nat.not_le.mpr below)
          next => cases invalid
        next => cases invalid
  | _ => cases invalid

end Writes

/-- Nothing is put in a place or copied to it. -/
def Idle (decls : Nat → Variable) (index : Nat → Nat) (cell : Cell) (instrs : Nat → Option Instr)
    (first last : Nat) : Prop :=
  ∀ position, first ≤ position → position < last → ∀ instr, instrs position = some instr →
    instr.put decls index cell = none ∧ instr.copied index cell = none

section Order

variable (decls : Nat → Variable) (block : List Instr)

/-- Two stores of one combination, or an instruction on its own. -/
def Combined (first last : Nat) : Prop :=
  first = last ∨ ∃ vec, Joins decls block vec first ∧ Joins decls block vec last ∧
    first < last ∧ Waits decls block vec first last

/-- The last store of the combination is the one in a position. -/
def Finishes (position finish : Nat) : Prop :=
  Combined decls block position finish ∧
    ∀ later, Combined decls block position later → later ≤ finish

/-- A store is taken to put a scalar in a place. -/
def Puts (index : Nat → Nat) (cell : Cell) (position : Nat) (scalar : Scalar) : Prop :=
  ∃ instr, block[position]? = some instr ∧ instr.taken decls index cell = some scalar

/-- A store to a place before a position, with nothing copied to the place after it. -/
structure Reaches (index : Nat → Nat) (cell : Cell) (length position : Nat) (scalar : Scalar) :
    Prop where
  before : position < length
  puts : Puts decls block index cell position scalar
  kept : ∀ later, position < later → later < length → ∀ instr, block[later]? = some instr →
    instr.copied index cell = none

/-- The one of these stores whose combination comes last. -/
structure Prevails (index : Nat → Nat) (cell : Cell) (length position : Nat) (scalar : Scalar) :
    Prop extends Reaches decls block index cell length position scalar where
  last : ∀ finish, Finishes decls block position finish → ∀ other otherFinish otherScalar,
    other < length → Puts decls block index cell other otherScalar →
    Finishes decls block other otherFinish →
    otherFinish < finish ∨ otherFinish = finish ∧ other ≤ position

structure LastStore (index : Nat → Nat) (cell : Cell) (length position : Nat) (scalar : Scalar) :
    Prop extends Reaches decls block index cell length position scalar where
  writes : (block[position]?).bind (Instr.put decls index cell) = some scalar
  last : ∀ later, position < later → later < length → ∀ instr, block[later]? = some instr →
    instr.put decls index cell = none

/-- A store of the first combination comes after all stores of the second one, or with the last
of them where the first store is the later one. -/
def EndsAfter (first second : Nat) : Prop :=
  ∃ finish, Combined decls block first finish ∧ ∀ later, Combined decls block second later →
    later < finish ∨ later = finish ∧ second < first

/-- The scalar in a place was stored there, or copied from a place that held it, with nothing put or
copied there after it. -/
inductive Holds (index : Nat → Nat) : Cell → Nat → Scalar → Prop
  | stored {cell : Cell} {length position : Nat} {scalar : Scalar} :
    LastStore decls block index cell length position scalar → Holds index cell length scalar
  | copied {cell source : Cell} {length position : Nat} {scalar : Scalar} :
    position < length → (block[position]?).bind (Instr.copied index cell) = some source →
    Idle decls index cell (fun at_ => block[at_]?) (position + 1) length →
    Holds index source position scalar → Holds index cell length scalar

/-- What comes to stand after the last store to a place that something looks at is a store of the
same scalar, or one of the same scalar comes to stand after it in turn. -/
structure InOrder : Prop where
  overtaken : ∀ index length cell, length ≤ block.length →
    LooksAt decls index cell block[length]? →
    ∀ second scalar, LastStore decls block index cell length second scalar →
    ∀ first taken, Reaches decls block index cell length first taken →
    EndsAfter decls block first second →
    ∃ other, Reaches decls block index cell length other scalar ∧
      (other = first ∨ EndsAfter decls block other first)
  /-- A store to a component with an empty mask, where no other store is, is one of the scalar
  that the place holds anyway. -/
  masked : ∀ index length cell, length ≤ block.length →
    LooksAt decls index cell block[length]? →
    (∀ second scalar, ¬ LastStore decls block index cell length second scalar) →
    ∀ first taken, Reaches decls block index cell length first taken →
    ∃ other scalar, Reaches decls block index cell length other scalar ∧
      (other = first ∨ EndsAfter decls block other first) ∧
      Holds decls block index cell length scalar

variable {decls block}

theorem Joins.lt_length {vec : Deref} {position : Nat} (joins : Joins decls block vec position) :
    position < block.length := by
  obtain ⟨instr, _, present, _⟩ := joins.exists_instr
  exact (List.getElem?_eq_some_iff.mp present).1

theorem Combined.le {first last : Nat} (combined : Combined decls block first last) :
    first ≤ last := by
  rcases combined with same | ⟨_, _, _, before, _⟩
  · exact same.le
  · exact before.le

theorem exists_greatest {holds : Nat → Prop} {bound : Nat} (some_ : ∃ n, holds n)
    (below : ∀ n, holds n → n ≤ bound) : ∃ n, holds n ∧ ∀ m, holds m → m ≤ n := by
  classical
  obtain ⟨n, isHolding⟩ := some_
  exact ⟨Nat.findGreatest holds bound, Nat.findGreatest_spec (below n isHolding) isHolding,
    fun m holdsToo => Nat.le_findGreatest (below m holdsToo) holdsToo⟩

theorem exists_finishes (decls : Nat → Variable) (block : List Instr) (position : Nat) :
    ∃ finish, Finishes decls block position finish := by
  refine @exists_greatest _ (max position block.length) ⟨position, .inl rfl⟩ ?_
  intro later combined
  rcases combined with rfl | ⟨_, _, joins, _, _⟩
  · exact le_max_left _ _
  · have := joins.lt_length
    omega

theorem Waits.trans {vec : Deref} {first middle last : Nat}
    (waits : Waits decls block vec first middle)
    (waits' : Waits decls block vec middle last) (joins : Joins decls block vec middle) :
    Waits decls block vec first last := by
  intro between after before
  rcases Nat.lt_trichotomy between middle with early | rfl | late
  · exact waits between after early
  · exact joins.not_flushed
  · exact waits' between late before

theorem finishes_of_vector {instr : Instr} {position : Nat}
    (present : block[position]? = some instr)
    (other : instr.vector decls = none) : Finishes decls block position position := by
  refine ⟨.inl rfl, fun later combined => ?_⟩
  rcases combined with rfl | ⟨vec, joins, -⟩
  · exact le_rfl
  · obtain ⟨instr', mask, present', vector⟩ := joins.exists_instr
    cases present.symm.trans present'
    rw [other] at vector
    cases vector

theorem Supplies.finishes {vec : Deref} {c position supplier : Nat}
    (supplies : Supplies decls block vec c (position + 1) supplier)
    (joins : Joins decls block vec position) (ends : Ends decls block vec position) :
    Finishes decls block supplier position := by
  have waits : Waits decls block vec supplier position := supplies.waits.of_succ
  constructor
  · rcases (Nat.lt_succ_iff.mp supplies.before).eq_or_lt with same | before
    · exact .inl same
    · exact .inr ⟨vec, supplies.stores.joins, joins, before, waits⟩
  · intro later combined
    by_contra past
    rcases combined with rfl | ⟨other, joinsSupplier, joinsLater, _, waitsLater⟩
    · exact past (Nat.lt_succ_iff.mp supplies.before)
    · have same := joinsSupplier.unique supplies.stores.joins
      subst same
      refine ends later (Nat.not_le.mp past) joinsLater fun between after before => ?_
      exact waitsLater between (lt_of_le_of_lt (Nat.lt_succ_iff.mp supplies.before) after) before

theorem Finishes.ends {vec : Deref} {position finish : Nat}
    (finishes : Finishes decls block position finish) (joins : Joins decls block vec position) :
    Joins decls block vec finish ∧ Ends decls block vec finish ∧
      Waits decls block vec position finish := by
  obtain ⟨combined, greatest⟩ := finishes
  have facts : Joins decls block vec finish ∧ Waits decls block vec position finish := by
    rcases combined with rfl | ⟨other, joinsFirst, joinsLast, _, waits⟩
    · exact ⟨joins, fun between after before => by omega⟩
    · have same := joinsFirst.unique joins
      subst same
      exact ⟨joinsLast, waits⟩
  refine ⟨facts.1, ?_, facts.2⟩
  intro later after joinsLater waits
  have combinedLater : Combined decls block position later :=
    .inr ⟨vec, joins, joinsLater, lt_of_le_of_lt combined.le after, facts.2.trans waits facts.1⟩
  exact absurd (greatest later combinedLater) (Nat.not_le.mpr after)

theorem Finishes.lt_of_flushed {vec : Deref} {position finish length : Nat}
    (finishes : Finishes decls block position finish) (joins : Joins decls block vec position)
    (before : position < length) (flushed : Flushed decls block vec length) : finish < length := by
  obtain ⟨joinsFinish, -, waits⟩ := finishes.ends joins
  by_contra past
  rcases (Nat.not_lt.mp past).eq_or_lt with rfl | after
  · exact joinsFinish.not_flushed flushed
  · exact waits length before after flushed

end Order

section Memory

variable {V : Type} {decls : Nat → Variable} {instrs : Nat → Option Instr}

theorem memoryAt_succ (env : Env V) (memory : Cell → V) (position : Nat) (cell : Cell) :
    memoryAt decls env memory instrs (position + 1) cell =
      match (instrs position).bind (Instr.put decls env.index cell) with
      | some scalar => env.data scalar
      | none => memoryAt decls env memory instrs position
          (((instrs position).bind (Instr.copied env.index cell)).getD cell) := by
  rw [memoryAt]
  cases present : instrs position with
  | none => rfl
  | some instr => exact Instr.exec_eq env _ instr cell

/-- A place keeps its value as long as nothing is put there. -/
theorem Idle.memoryAt_eq {env : Env V} {memory : Cell → V} {cell : Cell} {first last : Nat}
    (idle : Idle decls env.index cell instrs first last) (before : first ≤ last) :
    memoryAt decls env memory instrs last cell = memoryAt decls env memory instrs first cell := by
  induction last, before using Nat.le_induction with
  | base => rfl
  | succ last before inductionHypothesis =>
      rw [memoryAt_succ]
      cases present : instrs last with
      | none =>
          exact inductionHypothesis fun position after inside =>
            idle position after (inside.trans (Nat.lt_succ_self last))
      | some instr =>
          obtain ⟨put, copied⟩ := idle last before (Nat.lt_succ_self last) instr present
          rw [Option.bind_some, put, Option.bind_some, copied]
          exact inductionHypothesis fun position after inside =>
            idle position after (inside.trans (Nat.lt_succ_self last))

/-- The memory is what the scalars and the memory at the start make of where its values are from. -/
theorem memoryAt_eq_elim (env : Env V) (memory : Cell → V) (position : Nat) (cell : Cell) :
    memoryAt decls env memory instrs position cell =
      (memoryAt decls ⟨env.index, Sum.inl⟩ Sum.inr instrs position cell).elim env.data memory := by
  induction position generalizing cell with
  | zero => rfl
  | succ position inductionHypothesis =>
      rw [memoryAt_succ, memoryAt_succ]
      cases (instrs position).bind (Instr.put decls env.index cell) with
      | some scalar => rfl
      | none => exact inductionHypothesis _

end Memory

section Rewritten

variable {decls : Nat → Variable} {block : List Instr} {index : Nat → Nat} {cell : Cell}

/-- What a rewritten store puts: what the last store of its combination to the place has. -/
theorem Rewritten.put_iff {original : Instr} {instr : Option Instr} {position mask : Nat}
    {vec : Deref} {scalar : Scalar} (valid : ∀ instr ∈ block, instr.Valid decls)
    (rewritten : Rewritten decls block position original instr)
    (vector : original.vector decls = some (vec, mask)) :
    instr.bind (Instr.put decls index cell) = some scalar ↔
      InVector index vec cell ∧ Ends decls block vec position ∧
        ∃ supplier, Supplies decls block vec (cell.path.getLastD 0) (position + 1) supplier ∧
          Puts decls block index cell supplier scalar := by
  obtain ⟨values, becomes, valuesAt⟩ := rewritten.settled vec mask vector
  have puts_iff (inVector : InVector index vec cell) (supplier : Nat)
      (joins : Joins decls block vec supplier) : Puts decls block index cell supplier scalar ↔
        (block[supplier]?).bind (Instr.slot decls (cell.path.getLastD 0)) = some scalar := by
    obtain ⟨store, storeMask, present, storeVector⟩ := joins.exists_instr
    rw [present, Option.bind_some]
    constructor
    · rintro ⟨same, present', taken⟩
      cases present.symm.trans present'
      rw [Instr.taken, storeVector] at taken
      exact (if_pos inVector).symm.trans taken
    · intro slot
      refine ⟨store, present, ?_⟩
      rw [Instr.taken, storeVector]
      exact (if_pos inVector).trans slot
  have slot_iff : instr.bind (Instr.slot decls (cell.path.getLastD 0)) = some scalar ↔
      Ends decls block vec position ∧
        ∃ supplier, Supplies decls block vec (cell.path.getLastD 0) (position + 1) supplier ∧
          (block[supplier]?).bind (Instr.slot decls (cell.path.getLastD 0)) = some scalar := by
    rw [becomes.slot, valuesAt]
  have put_iff : instr.bind (Instr.put decls index cell) = some scalar ↔
      InVector index vec cell ∧ cell.path.getLastD 0 < (decls vec.var).elements ∧
        instr.bind (Instr.slot decls (cell.path.getLastD 0)) = some scalar := by
    cases instr with
    | none => simp
    | some store =>
        obtain ⟨dst, writeMask, src, storeMask, rfl, -, vectorTarget, bitZero⟩ :=
          becomes.vector store rfl
        rw [Option.bind_some, Option.bind_some, Instr.put, stored_eq_some_iff vectorTarget]
        constructor
        · rintro ⟨inVector, below, -, slot⟩
          exact ⟨inVector, below, slot⟩
        · rintro ⟨inVector, below, slot⟩
          refine ⟨inVector, below, fun notVec => bitZero notVec (cell.path.getLastD 0) ?_, slot⟩
          rw [Instr.slot_of_target vectorTarget] at slot
          exact (Option.ite_none_right_eq_some.mp slot).1
  rw [put_iff]
  constructor
  · rintro ⟨inVector, below, slot⟩
    obtain ⟨ends, supplier, supplies, slot⟩ := slot_iff.mp slot
    exact ⟨inVector, ends, supplier, supplies,
      (puts_iff inVector supplier supplies.stores.joins).mpr slot⟩
  · rintro ⟨inVector, ends, supplier, supplies, puts⟩
    have slot := (puts_iff inVector supplier supplies.stores.joins).mp puts
    refine ⟨inVector, ?_, slot_iff.mpr ⟨ends, supplier, supplies, slot⟩⟩
    obtain ⟨store, storeMask, present, storeVector⟩ := supplies.stores.joins.exists_instr
    obtain ⟨dst, writeMask, src, rfl, -, vectorTarget⟩ := Instr.eq_store_of_vector storeVector
    rw [present, Option.bind_some] at slot
    exact (Instr.slot_isSome_lt vectorTarget (valid _ (List.mem_of_getElem? present)) slot).1

theorem Rewritten.copied_eq {original : Instr} {instr : Option Instr} {position : Nat}
    (rewritten : Rewritten decls block position original instr) (index : Nat → Nat) (cell : Cell) :
    instr.bind (Instr.copied index cell) = original.copied index cell := by
  cases vector : original.vector decls with
  | some joined =>
      obtain ⟨vec, mask⟩ := joined
      obtain ⟨values, becomes, -⟩ := rewritten.settled vec mask vector
      obtain ⟨dst, writeMask, src, rfl, -⟩ := Instr.eq_store_of_vector vector
      cases instr with
      | none => rfl
      | some store =>
          obtain ⟨dst', writeMask', src', mask', rfl, -⟩ := becomes.vector store rfl
          rfl
  | none =>
      rw [rewritten.same vector]
      split
      next invalid =>
        cases original with
        | store => rfl
        | _ => cases invalid
      next => rfl

theorem Rewritten.put_eq {original : Instr} {instr : Option Instr} {position : Nat}
    (rewritten : Rewritten decls block position original instr)
    (other : original.vector decls = none) :
    instr.bind (Instr.put decls index cell) = original.put decls index cell := by
  rw [rewritten.same other]
  split
  next invalid => exact (Instr.put_of_isInvalid invalid).symm
  next => rfl

end Rewritten

section Preserves

variable {V : Type} {decls : Nat → Variable} {block : List Instr} {out : Nat → Option Instr}
variable {index : Nat → Nat} {cell : Cell} {length position : Nat} {scalar : Scalar}

/-- What is put in a place is a component of a vector, or is put by a store on its own. -/
theorem Puts.cases (puts : Puts decls block index cell position scalar) :
    (∃ vec, InVector index vec cell ∧ Joins decls block vec position ∧
        StoresTo decls block vec (cell.path.getLastD 0) position) ∨
      ∃ instr, block[position]? = some instr ∧ instr.vector decls = none ∧
        instr.put decls index cell = some scalar := by
  obtain ⟨instr, present, taken⟩ := puts
  rw [Instr.taken] at taken
  split at taken
  next vec mask vector =>
    obtain ⟨inVector, slot⟩ := Option.ite_none_right_eq_some.mp taken
    refine .inl ⟨vec, inVector, .of_some present vector, mask, by rw [present]; exact vector, ?_⟩
    obtain ⟨dst, writeMask, src, rfl, -, vectorTarget⟩ := Instr.eq_store_of_vector vector
    rw [Instr.slot_of_target vectorTarget] at slot
    exact (Option.ite_none_right_eq_some.mp slot).1
  next other => exact .inr ⟨instr, present, other, taken⟩

theorem StoresTo.exists_puts {vec : Deref} (inVector : InVector index vec cell)
    (stores : StoresTo decls block vec (cell.path.getLastD 0) position) :
    ∃ scalar, Puts decls block index cell position scalar := by
  obtain ⟨store, storeMask, present, vector⟩ := stores.joins.exists_instr
  obtain ⟨dst, writeMask, src, rfl, -, vectorTarget⟩ := Instr.eq_store_of_vector vector
  obtain ⟨mask, same, bit⟩ := stores
  rw [present, Option.bind_some, vector] at same
  cases same
  refine ⟨src (if numComponents decls dst = 1 then 0 else cell.path.getLastD 0), _, present, ?_⟩
  rw [Instr.taken, vector]
  exact (if_pos inVector).trans ((Instr.slot_of_target vectorTarget _).trans (if_pos bit))

/-- Combinations to a place have finished where something looks at it. -/
theorem Finishes.lt_of_looksAt {finish : Nat} (finishes : Finishes decls block position finish)
    (puts : Puts decls block index cell position scalar) (before : position < length)
    (looks : LooksAt decls index cell block[length]?) : finish < length := by
  rcases puts.cases with ⟨vec, inVector, joins, -⟩ | ⟨instr, present, other, -⟩
  · cases present : block[length]? with
    | none =>
        have past := List.getElem?_eq_none_iff.mp present
        exact (finishes.ends joins).1.lt_length.trans_le past
    | some instr =>
        rw [present] at looks
        exact finishes.lt_of_flushed joins before
          ⟨instr, present, looks.flushes inVector joins.isOut⟩
  · have same := Nat.le_antisymm ((finishes_of_vector present other).2 finish finishes.1)
      finishes.1.le
    omega

/-- The last store of a combination has, for a place that one of its stores is to, a supplier. -/
theorem exists_supplies {vec : Deref} {c finish position : Nat}
    (stores : StoresTo decls block vec c position)
    (upTo : position ≤ finish) (waits : Waits decls block vec position (finish + 1)) :
    ∃ supplier, position ≤ supplier ∧ Supplies decls block vec c (finish + 1) supplier := by
  by_cases last : ∀ later, position < later → later < finish + 1 →
      ¬ StoresTo decls block vec c later
  · exact ⟨position, le_rfl, ⟨Nat.lt_succ_iff.mpr upTo, stores, waits, last⟩⟩
  · push Not at last
    obtain ⟨later, after, before, stores'⟩ := last
    obtain ⟨supplier, from_, supplies⟩ := exists_supplies stores' (Nat.lt_succ_iff.mp before)
      (fun between past inside => waits between (after.trans past) inside)
    exact ⟨supplier, after.le.trans from_, supplies⟩
termination_by finish - position

/-- A copy to a place comes after all combinations of stores to it before. -/
theorem Finishes.lt_of_copied {finish : Nat} {instr : Instr} {source : Cell}
    (finishes : Finishes decls block position finish)
    (puts : Puts decls block index cell position scalar) (before : position < length)
    (present : block[length]? = some instr) (copied : instr.copied index cell = some source) :
    finish < length := by
  rcases puts.cases with ⟨vec, inVector, joins, -⟩ | ⟨store, storePresent, other, -⟩
  · exact finishes.lt_of_flushed joins before
      ⟨instr, present, Instr.flushes_of_copied copied inVector joins.isOut⟩
  · have := (finishes_of_vector storePresent other).2 finish finishes.1
    omega

/-- Where no store prevails, none is after the last copy. -/
theorem not_puts_of_not_prevails
    (none_ : ¬ ∃ position scalar, Prevails decls block index cell length position scalar)
    {first : Nat} (noCopy : ∀ later, first ≤ later → later < length → ∀ instr,
      block[later]? = some instr → instr.copied index cell = none)
    (after : first ≤ position) (before : position < length) :
    ¬ Puts decls block index cell position scalar := by
  intro puts
  have bounded {v f : Nat} (inside : v < length) (finishes : Finishes decls block v f) :
      f ≤ max length block.length := by
    rcases finishes.1 with rfl | ⟨_, _, joins, _, _⟩
    · omega
    · have := joins.lt_length
      omega
  obtain ⟨finish₀, finishes₀⟩ := exists_finishes decls block position
  obtain ⟨finish, ⟨v, inside, s, vPuts, vFinishes⟩, greatest⟩ :=
    @exists_greatest (fun f => ∃ v, v < length ∧ ∃ s, Puts decls block index cell v s ∧
      Finishes decls block v f) _ ⟨finish₀, position, before, scalar, puts, finishes₀⟩
      (fun f ⟨v, inside, _, _, finishes⟩ => bounded inside finishes)
  obtain ⟨last, ⟨lastBefore, lastScalar, lastPuts, lastFinishes⟩, latest⟩ :=
    @exists_greatest (fun v => v < length ∧ ∃ s, Puts decls block index cell v s ∧
      Finishes decls block v finish) _ ⟨v, inside, s, vPuts, vFinishes⟩
      (fun v facts => facts.1.le)
  have beyond : position ≤ finish :=
    finishes₀.1.le.trans (greatest finish₀ ⟨position, before, scalar, puts, finishes₀⟩)
  refine none_ ⟨last, lastScalar, ⟨lastBefore, lastPuts, ?_⟩, ?_⟩
  · intro later afterLast inLength instr present
    by_contra copied
    obtain ⟨source, copied⟩ := Option.ne_none_iff_exists'.mp copied
    have early : later < first := by
      by_contra late
      rw [noCopy later (by omega) inLength instr present] at copied
      cases copied
    have := lastFinishes.lt_of_copied lastPuts afterLast present copied
    omega
  · intro finish' finishes' other otherFinish otherScalar otherBefore otherPuts otherFinishes
    obtain rfl : finish' = finish :=
      Nat.le_antisymm (lastFinishes.2 finish' finishes'.1) (finishes'.2 finish lastFinishes.1)
    have upTo := greatest otherFinish ⟨other, otherBefore, otherScalar, otherPuts, otherFinishes⟩
    rcases upTo.eq_or_lt with rfl | less
    · exact .inr ⟨rfl, latest other ⟨otherBefore, otherScalar, otherPuts, otherFinishes⟩⟩
    · exact .inl less

theorem idle_of_not_puts {first : Nat}
    (noCopy : ∀ later, first ≤ later → later < length → ∀ instr,
      block[later]? = some instr → instr.copied index cell = none)
    (noPut : ∀ later, first ≤ later → later < length → ∀ scalar,
      ¬ Puts decls block index cell later scalar) :
    Idle decls index cell (fun at_ => block[at_]?) first length := by
  intro later after before instr present
  refine ⟨?_, noCopy later after before instr present⟩
  by_contra put
  obtain ⟨scalar, put⟩ := Option.ne_none_iff_exists'.mp put
  exact noPut later after before scalar ⟨instr, present, Instr.taken_of_put put⟩

theorem Puts.unique {taken : Scalar} (puts : Puts decls block index cell position scalar)
    (other : Puts decls block index cell position taken) : scalar = taken := by
  obtain ⟨instr, present, same⟩ := puts
  obtain ⟨instr', present', same'⟩ := other
  cases present.symm.trans present'
  exact Option.some.inj (same.symm.trans same')

theorem Puts.copied_eq (puts : Puts decls block index cell position scalar) {instr : Instr}
    (present : block[position]? = some instr) : instr.copied index cell = none := by
  obtain ⟨instr', present', taken⟩ := puts
  cases present.symm.trans present'
  cases instr with
  | copy dst src => cases taken
  | _ => rfl

theorem Finishes.endsAfter_iff {first second finish otherFinish : Nat}
    (finishes : Finishes decls block first finish)
    (otherFinishes : Finishes decls block second otherFinish) :
    EndsAfter decls block first second ↔
      otherFinish < finish ∨ otherFinish = finish ∧ second < first := by
  constructor
  · rintro ⟨late, combined, after⟩
    have upTo := finishes.2 late combined
    have passed := after otherFinish otherFinishes.1
    omega
  · intro after
    refine ⟨finish, finishes.1, ?_⟩
    intro later combined
    have upTo := otherFinishes.2 later combined
    omega

theorem Prevails.eq_of_endsAfter (prevails : Prevails decls block index cell length position scalar)
    {other : Nat} {taken : Scalar} (reaches : Reaches decls block index cell length other taken)
    (after : other = position ∨ EndsAfter decls block other position) :
    other = position ∧ taken = scalar := by
  obtain ⟨finish, finishes⟩ := exists_finishes decls block position
  obtain ⟨otherFinish, otherFinishes⟩ := exists_finishes decls block other
  have same : other = position := by
    have least := prevails.last finish finishes other otherFinish taken reaches.before reaches.puts
      otherFinishes
    rcases after with same | after
    · exact same
    · rw [otherFinishes.endsAfter_iff finishes] at after
      omega
  subst same
  exact ⟨rfl, reaches.puts.unique prevails.puts⟩

/-- What prevails ends after every other store that reaches as far. -/
theorem Prevails.eq_or_endsAfter (prevails : Prevails decls block index cell length position scalar)
    {other : Nat} {taken : Scalar} (reaches : Reaches decls block index cell length other taken) :
    position = other ∨ EndsAfter decls block position other := by
  obtain ⟨finish, finishes⟩ := exists_finishes decls block position
  obtain ⟨otherFinish, otherFinishes⟩ := exists_finishes decls block other
  have least := prevails.last finish finishes other otherFinish taken reaches.before reaches.puts
    otherFinishes
  rw [finishes.endsAfter_iff otherFinishes]
  omega

theorem Reaches.exists_prevails (reaches : Reaches decls block index cell length position scalar) :
    ∃ last taken, Prevails decls block index cell length last taken := by
  by_contra none_
  refine not_puts_of_not_prevails none_ ?_ le_rfl reaches.before reaches.puts
  intro later after before instr present
  rcases after.eq_or_lt with rfl | past
  · exact reaches.puts.copied_eq present
  · exact reaches.kept later past before instr present

/-- The place holds the scalar of the last store. -/
theorem LastStore.memoryAt_eq (store : LastStore decls block index cell length position scalar)
    (env : Env V) (memory : Cell → V) (sameIndex : env.index = index) :
    memoryAt decls env memory (fun at_ => block[at_]?) length cell = env.data scalar := by
  subst sameIndex
  have idle : Idle decls env.index cell (fun at_ => block[at_]?) (position + 1) length := by
    intro later after before instr present
    exact ⟨store.last later after before instr present, store.kept later after before instr present⟩
  rw [idle.memoryAt_eq store.before, memoryAt_succ, store.writes]

theorem Holds.memoryAt_eq {scalar : Scalar} (holds : Holds decls block index cell length scalar) :
    memoryAt decls (⟨index, Sum.inl⟩ : Env (Scalar ⊕ Cell)) Sum.inr (fun at_ => block[at_]?)
      length cell = Sum.inl scalar := by
  induction holds with
  | stored store => exact store.memoryAt_eq _ _ rfl
  | @copied cell source length position scalar before copies idle _ inductionHypothesis =>
      obtain ⟨instr, present, isCopied⟩ := Option.bind_eq_some_iff.mp copies
      have put : instr.put decls index cell = none := by
        cases instr with
        | copy dst src => rfl
        | _ => cases isCopied
      have quiet : Idle decls (⟨index, Sum.inl⟩ : Env (Scalar ⊕ Cell)).index cell
          (fun at_ => block[at_]?) (position + 1) length := idle
      rw [quiet.memoryAt_eq before, memoryAt_succ, present, Option.bind_some, put,
        Option.bind_some, isCopied]
      exact inductionHypothesis

theorem Holds.succ {scalar : Scalar} (holds : Holds decls block index cell length scalar)
    (quiet : ∀ instr, block[length]? = some instr →
      instr.put decls index cell = none ∧ instr.copied index cell = none) :
    Holds decls block index cell (length + 1) scalar := by
  cases holds with
  | stored store =>
      refine .stored ⟨⟨store.before.trans (Nat.lt_succ_self length),
        store.puts, ?_⟩, store.writes, ?_⟩
      · intro later after before instr present
        rcases (Nat.lt_succ_iff.mp before).eq_or_lt with rfl | inside
        · exact (quiet instr present).2
        · exact store.kept later after inside instr present
      · intro later after before instr present
        rcases (Nat.lt_succ_iff.mp before).eq_or_lt with rfl | inside
        · exact (quiet instr present).1
        · exact store.last later after inside instr present
  | copied before copies idle holds =>
      refine .copied (before.trans (Nat.lt_succ_self length)) copies ?_ holds
      intro later after inside instr present
      rcases (Nat.lt_succ_iff.mp inside).eq_or_lt with rfl | inside
      · exact quiet instr present
      · exact idle later after inside instr present

/-- A place holds a scalar of the block just when the memory has it there. -/
theorem holds_iff {scalar : Scalar} : Holds decls block index cell length scalar ↔
    memoryAt decls (⟨index, Sum.inl⟩ : Env (Scalar ⊕ Cell)) Sum.inr (fun at_ => block[at_]?)
      length cell = Sum.inl scalar := by
  refine ⟨Holds.memoryAt_eq, fun holds => ?_⟩
  induction length generalizing cell with
  | zero => cases holds
  | succ length inductionHypothesis =>
      have nothing (cell : Cell) : Idle decls index cell (fun at_ => block[at_]?) (length + 1)
          (length + 1) := fun later after before => absurd after (Nat.not_le.mpr before)
      rw [memoryAt_succ] at holds
      cases put : (block[length]?).bind (Instr.put decls index cell) with
      | some stored =>
          rw [put] at holds
          obtain rfl : stored = scalar := Sum.inl.inj holds
          obtain ⟨instr, present, puts⟩ := Option.bind_eq_some_iff.mp put
          have none_ {later : Nat} (after : length < later) (before : later < length + 1) : False :=
            absurd after (Nat.not_lt.mpr (Nat.lt_succ_iff.mp before))
          exact .stored ⟨⟨Nat.lt_succ_self length, ⟨instr, present, Instr.taken_of_put puts⟩,
            fun _ after before => (none_ after before).elim⟩, put,
            fun _ after before => (none_ after before).elim⟩
      | none =>
          rw [put] at holds
          cases copied : (block[length]?).bind (Instr.copied index cell) with
          | some source =>
              rw [copied] at holds
              exact .copied (Nat.lt_succ_self length) copied (nothing cell)
                (inductionHypothesis holds)
          | none =>
              rw [copied] at holds
              refine (inductionHypothesis holds).succ fun instr present => ?_
              rw [present] at put copied
              exact ⟨put, copied⟩

/-- The stores are in order just when each place that is looked at holds the scalar that
prevails. -/
theorem inOrder_iff : InOrder decls block ↔
    ∀ index length cell position scalar, length ≤ block.length →
      LooksAt decls index cell block[length]? →
      Prevails decls block index cell length position scalar →
      memoryAt decls (⟨index, Sum.inl⟩ : Env (Scalar ⊕ Cell)) Sum.inr (fun at_ => block[at_]?)
        length cell = Sum.inl scalar := by
  constructor
  · intro inOrder index length cell position scalar inside looks prevails
    by_cases stores : ∃ second kept, LastStore decls block index cell length second kept
    · obtain ⟨second, kept, store⟩ := stores
      rw [store.memoryAt_eq _ _ rfl]
      rcases prevails.eq_or_endsAfter store.toReaches with same | after
      · subst same
        rw [store.puts.unique prevails.puts]
      · obtain ⟨other, reaches, notBefore⟩ := inOrder.overtaken index length cell inside looks
          second kept store position scalar prevails.toReaches after
        rw [(prevails.eq_of_endsAfter reaches notBefore).2]
    · have none_ : ∀ second kept, ¬ LastStore decls block index cell length second kept :=
        fun second kept store => stores ⟨second, kept, store⟩
      obtain ⟨other, taken, reaches, notBefore, holds⟩ := inOrder.masked index length cell inside
        looks none_ position scalar prevails.toReaches
      rw [holds.memoryAt_eq, (prevails.eq_of_endsAfter reaches notBefore).2]
  · intro holds
    constructor
    · intro index length cell inside looks second scalar store first taken reaches after
      obtain ⟨last, kept, prevails⟩ := reaches.exists_prevails
      have same := holds index length cell last kept inside looks prevails
      rw [store.memoryAt_eq _ _ rfl, Sum.inl.injEq] at same
      subst same
      exact ⟨last, prevails.toReaches, prevails.eq_or_endsAfter reaches⟩
    · intro index length cell inside looks none_ first taken reaches
      obtain ⟨last, kept, prevails⟩ := reaches.exists_prevails
      exact ⟨last, kept, prevails.toReaches, prevails.eq_or_endsAfter reaches,
        holds_iff.mpr (holds index length cell last kept inside looks prevails)⟩

section

variable (valid : ∀ instr ∈ block, instr.Valid decls)
variable (rewritten : ∀ position original, block[position]? = some original →
  Rewritten decls block position original (out position))

include valid rewritten

theorem exists_puts_of_put (inside : position < block.length)
    (put : (out position).bind (Instr.put decls index cell) = some scalar) :
    ∃ supplier, Puts decls block index cell supplier scalar ∧ supplier ≤ position ∧
      Finishes decls block supplier position ∧
      ((supplier = position ∧ ∃ instr, block[position]? = some instr ∧
        instr.vector decls = none) ∨
      ∃ vec, InVector index vec cell ∧ Joins decls block vec supplier ∧
        Waits decls block vec supplier (position + 1)) := by
  have present := List.getElem?_eq_getElem inside
  have isRewritten := rewritten position _ present
  cases vector : (block[position]).vector decls with
  | some joined =>
      obtain ⟨vec, mask⟩ := joined
      obtain ⟨inVector, ends, supplier, supplies, puts⟩ :=
        (isRewritten.put_iff valid vector).mp put
      exact ⟨supplier, puts, Nat.lt_succ_iff.mp supplies.before,
        supplies.finishes (.of_some present vector) ends,
        .inr ⟨vec, inVector, supplies.stores.joins, supplies.waits⟩⟩
  | none =>
      rw [isRewritten.put_eq vector] at put
      exact ⟨position, ⟨_, present, Instr.taken_of_put put⟩, le_rfl,
        finishes_of_vector present vector, .inl ⟨rfl, _, present, vector⟩⟩

/-- Where something looks at a place, the rewritten block has put there what prevails. -/
theorem Prevails.memoryAt_eq {env : Env V} {memory : Cell → V}
    (prevails : Prevails decls block env.index cell length position scalar)
    (inside : length ≤ block.length) (looks : LooksAt decls env.index cell block[length]?) :
    memoryAt decls env memory out length cell = env.data scalar := by
  obtain ⟨finish, finishes⟩ := exists_finishes decls block position
  have before : finish < length :=
    finishes.lt_of_looksAt prevails.puts prevails.before looks
  have put : (out finish).bind (Instr.put decls env.index cell) = some scalar := by
    rcases prevails.puts.cases with ⟨vec, inVector, joins, stores⟩ | ⟨instr, present, other, put⟩
    · obtain ⟨joinsFinish, ends, waits⟩ := finishes.ends joins
      have waits' : Waits decls block vec position (finish + 1) :=
        waits.succ joinsFinish.not_flushed
      obtain ⟨supplier, after, supplies⟩ := exists_supplies stores finishes.1.le waits'
      obtain ⟨original, mask, present, vector⟩ := joinsFinish.exists_instr
      -- a later supplier of the same combination would prevail
      obtain ⟨other, otherPuts⟩ := supplies.stores.exists_puts inVector
      have upTo : supplier ≤ position := by
        have least := prevails.last finish finishes supplier finish other
          (lt_of_le_of_lt (Nat.lt_succ_iff.mp supplies.before) before) otherPuts
          (supplies.finishes joinsFinish ends)
        omega
      obtain rfl : supplier = position := Nat.le_antisymm upTo after
      exact ((rewritten finish original present).put_iff valid vector).mpr
        ⟨inVector, ends, supplier, supplies, prevails.puts⟩
    · obtain rfl : finish = position :=
        Nat.le_antisymm ((finishes_of_vector present other).2 finish finishes.1) finishes.1.le
      rw [(rewritten finish instr present).put_eq other]
      exact put
  have idle : Idle decls env.index cell out (finish + 1) length := by
    intro later after inLength instr isInstr
    have laterInside : later < block.length := inLength.trans_le inside
    constructor
    · cases found : instr.put decls env.index cell with
      | none => rfl
      | some other =>
          obtain ⟨supplier, puts, upTo, finishesLater, -⟩ :=
            exists_puts_of_put valid rewritten laterInside
              (by rw [isInstr, Option.bind_some, found])
          have least := prevails.last finish finishes supplier later other
            (lt_of_le_of_lt upTo inLength) puts finishesLater
          omega
    · have present := List.getElem?_eq_getElem laterInside
      have same := (rewritten later _ present).copied_eq env.index cell
      rw [isInstr, Option.bind_some] at same
      rw [same]
      exact prevails.kept later (lt_of_le_of_lt finishes.1.le after) inLength _ present
  rw [idle.memoryAt_eq before, memoryAt_succ, put]

/-- Then the rewritten block puts nothing there either. -/
theorem idle_of_not_puts_rewritten {first : Nat} (inside : length ≤ block.length)
    (noCopy : ∀ later, first ≤ later → later < length → ∀ instr,
      block[later]? = some instr → instr.copied index cell = none)
    (noPut : ∀ later, first ≤ later → later < length → ∀ scalar,
      ¬ Puts decls block index cell later scalar)
    (apart : ∀ vec early late, InVector index vec cell → Joins decls block vec early →
      early < first → first ≤ late → ¬ Waits decls block vec early (late + 1)) :
    Idle decls index cell out first length := by
  intro later after before instr isInstr
  have laterInside : later < block.length := before.trans_le inside
  constructor
  · by_contra put
    obtain ⟨scalar, put⟩ := Option.ne_none_iff_exists'.mp put
    obtain ⟨supplier, puts, upTo, -, reason⟩ :=
      exists_puts_of_put valid rewritten laterInside (by rw [isInstr, Option.bind_some, put])
    have early : supplier < first := by
      by_contra late
      exact noPut supplier (by omega) (by omega) scalar puts
    rcases reason with ⟨rfl, -⟩ | ⟨vec, inVector, joins, waits⟩
    · omega
    · exact apart vec supplier later inVector joins early after waits
  · have present := List.getElem?_eq_getElem laterInside
    have same := (rewritten later _ present).copied_eq index cell
    rw [isInstr, Option.bind_some] at same
    rw [same]
    exact noCopy later after before _ present

/-- Where the stores are in order, the rewritten block has the same memory where it is looked at. -/
theorem memoryAt_rewritten (inOrder : InOrder decls block) (env : Env V) (memory : Cell → V)
    (length : Nat) : ∀ cell, length ≤ block.length → LooksAt decls env.index cell block[length]? →
      memoryAt decls env memory out length cell =
        memoryAt decls env memory (fun at_ => block[at_]?) length cell := by
  induction length using Nat.strong_induction_on with
  | _ length inductionHypothesis =>
      intro cell inside looks
      by_cases prevailing : ∃ position scalar,
          Prevails decls block env.index cell length position scalar
      · obtain ⟨position, scalar, prevails⟩ := prevailing
        rw [prevails.memoryAt_eq valid rewritten inside looks, memoryAt_eq_elim,
          inOrder_iff.mp inOrder env.index length cell position scalar inside looks prevails]
        rfl
      by_cases copies : ∃ q, q < length ∧ ∃ instr, block[q]? = some instr ∧
          instr.copied env.index cell ≠ none
      · obtain ⟨q, ⟨before, instr, present, copied⟩, latest⟩ :=
          exists_greatest copies fun q facts => facts.1.le
        obtain ⟨source, copied⟩ := Option.ne_none_iff_exists'.mp copied
        have noCopy (later : Nat) (after : q + 1 ≤ later) (inLength : later < length)
            (instr : Instr)
            (present : block[later]? = some instr) : instr.copied env.index cell = none := by
          by_contra copiedToo
          have := latest later ⟨inLength, instr, present, copiedToo⟩
          omega
        have noPut (later : Nat) (after : q + 1 ≤ later) (inLength : later < length)
            (scalar : Scalar) : ¬ Puts decls block env.index cell later scalar :=
          not_puts_of_not_prevails prevailing noCopy after inLength
        have idle := idle_of_not_puts noCopy noPut
        have idleOut := idle_of_not_puts_rewritten valid rewritten inside noCopy noPut (by
          intro vec early late inVector joins isEarly isLate waits
          have flushed : Flushed decls block vec q :=
            ⟨instr, present, Instr.flushes_of_copied copied inVector joins.isOut⟩
          rcases (Nat.lt_succ_iff.mp isEarly).eq_or_lt with rfl | isBefore
          · exact joins.not_flushed flushed
          · exact waits q isBefore (by omega) flushed)
        obtain ⟨dst, src, rfl⟩ : ∃ dst src, instr = .copy dst src := by
          cases instr with
          | copy dst src => exact ⟨dst, src, rfl⟩
          | _ => cases copied
        have isRewritten := rewritten q _ present
        rw [idleOut.memoryAt_eq before, idle.memoryAt_eq before, memoryAt_succ, memoryAt_succ,
          isRewritten.put_eq rfl, isRewritten.copied_eq]
        simp only [present, Option.bind_some, copied]
        apply inductionHypothesis q before source (before.le.trans inside)
        rw [present]
        obtain ⟨-, same⟩ := Option.ite_none_right_eq_some.mp copied
        cases same
        exact .inr ⟨rfl, List.prefix_append _ _⟩
      · have noCopy (later : Nat) (_ : 0 ≤ later) (inLength : later < length) (instr : Instr)
            (present : block[later]? = some instr) : instr.copied env.index cell = none := by
          by_contra copied
          exact copies ⟨later, inLength, instr, present, copied⟩
        have noPut (later : Nat) (after : 0 ≤ later) (inLength : later < length)
            (scalar : Scalar) : ¬ Puts decls block env.index cell later scalar :=
          not_puts_of_not_prevails prevailing noCopy after inLength
        have idle := idle_of_not_puts noCopy noPut
        have idleOut := idle_of_not_puts_rewritten valid rewritten inside noCopy noPut
          fun _ early _ _ _ isEarly => absurd isEarly (Nat.not_lt_zero early)
        rw [idleOut.memoryAt_eq (Nat.zero_le length), idle.memoryAt_eq (Nat.zero_le length)]
        rfl

end

/-- Every block is rewritten without an assertion that fails. It has the same memory, wherever an
instruction or the end of the block looks at it, just when the stores are in order. -/
theorem combineStoresBlock_preserves_iff (decls : Nat → Variable) (undef : Scalar)
    (block : List Instr) (valid : ∀ instr ∈ block, instr.Valid decls) :
    ∃ rewritten, combineStoresBlock decls undef block = some rewritten ∧
      rewritten.length = block.length ∧
      ((∀ (V : Type) (env : Env V) (memory : Cell → V) (length : Nat) (cell : Cell),
          length ≤ block.length → LooksAt decls env.index cell block[length]? →
          memoryAt decls env memory (fun at_ => rewritten[at_]?.join) length cell =
            memoryAt decls env memory (fun at_ => block[at_]?) length cell) ↔
        InOrder decls block) := by
  obtain ⟨rewritten, equation, sameLength, each⟩ :=
    combineStoresBlock_rewritten decls undef block valid
  refine ⟨rewritten, equation, sameLength, ?_⟩
  have isRewritten (position : Nat) (original : Instr)
      (present : block[position]? = some original) :
      Rewritten decls block position original rewritten[position]?.join := by
    obtain ⟨instr, isInstr, facts⟩ := each position original present
    rw [isInstr]
    exact facts
  constructor
  · intro same
    apply inOrder_iff.mpr
    intro index length cell position scalar inside looks prevails
    rw [← same (Scalar ⊕ Cell) ⟨index, Sum.inl⟩ Sum.inr length cell inside looks]
    exact @Prevails.memoryAt_eq _ _ _ _ _ _ _ _ valid isRewritten ⟨index, Sum.inl⟩ _ prevails
      inside looks
  · intro inOrder V env memory length cell inside looks
    exact memoryAt_rewritten valid isRewritten inOrder env memory length cell inside looks

/-- `out vec4 o[2]` -/
def twoVectors : Nat → Variable := fun _ => ⟨1, 4, true⟩

/-- `o[i].x = a; o[j].x = b; o[i].y = c` -/
def aliasedStores : List Instr :=
  [.store ⟨0, [.ssa 0]⟩ 1 (Scalar.mk 0), .store ⟨0, [.ssa 1]⟩ 1 (Scalar.mk 1),
    .store ⟨0, [.ssa 0]⟩ 2 (Scalar.mk 2)]

theorem combineStoresBlock_preserves_iff_aliasedStores :
    ∃ rewritten, combineStoresBlock twoVectors ⟨3, 0⟩ aliasedStores = some rewritten ∧
      rewritten.length = aliasedStores.length ∧
      ((∀ (V : Type) (env : Env V) (memory : Cell → V) (length : Nat) (cell : Cell),
          length ≤ aliasedStores.length →
          LooksAt twoVectors env.index cell aliasedStores[length]? →
          memoryAt twoVectors env memory (fun at_ => rewritten[at_]?.join) length cell =
            memoryAt twoVectors env memory (fun at_ => aliasedStores[at_]?) length cell) ↔
        InOrder twoVectors aliasedStores) :=
  combineStoresBlock_preserves_iff twoVectors ⟨3, 0⟩ aliasedStores (by
    intro instr present
    simp only [aliasedStores, List.mem_cons, List.not_mem_nil, or_false] at present
    rcases present with rfl | rfl | rfl <;> exact ⟨by decide, by decide⟩)

/-- With `i = j`, `o[i].x` is `b`, and `a` after the stores of `o[i]` are combined. -/
theorem combineStoresBlock_not_preserves :
    ∃ rewritten, combineStoresBlock twoVectors ⟨3, 0⟩ aliasedStores = some rewritten ∧
      ∃ (env : Env Scalar) (memory : Cell → Scalar) (cell : Cell),
        memoryAt twoVectors env memory (fun at_ => rewritten[at_]?.join) aliasedStores.length cell ≠
          memoryAt twoVectors env memory (fun at_ => aliasedStores[at_]?) aliasedStores.length
            cell := by
  refine ⟨_, rfl, ⟨fun _ => 0, id⟩, fun _ => ⟨3, 0⟩, ⟨0, [0, 0]⟩, ?_⟩
  decide

end Preserves

end CombineStores

end SpirvToDxil
