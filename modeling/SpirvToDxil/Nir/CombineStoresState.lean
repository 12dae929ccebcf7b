import SpirvToDxil.Nir.CombineStores

/-!
# What the steps of combining stores do

A pending store knows which store each component comes from. The reference counts say of how many
components it is.
-/

namespace SpirvToDxil

namespace CombineStores

section Compare

theorem compareDerefPaths_equal (aContainsB bContainsA : Bool) (a b : List Index) :
    (compareDerefPaths aContainsB bContainsA a b).equal ↔
      aContainsB ∧ bContainsA ∧ a = b := by
  fun_induction compareDerefPaths aContainsB bContainsA a b with
  | case7 _ _ a b constants values constant value =>
      rcases a with _ | ⟨m | m, a⟩ <;> rcases b with _ | ⟨n | n, b⟩
      case cons.const.cons.const => exact (constants _ _ _ _ rfl rfl).elim
      case cons.ssa.cons.ssa => exact (values _ _ _ _ rfl rfl).elim
      all_goals simp [CompareResult.equal]
  | _ => simp_all [doNotAlias, CompareResult.equal]

theorem compareDerefs_equal (a b : Deref) : (compareDerefs a b).equal ↔ a = b := by
  obtain ⟨var, path⟩ := a
  obtain ⟨var', path'⟩ := b
  rw [compareDerefs]
  split
  next same => simp_all [compareDerefPaths_equal]
  next differ => simp_all [doNotAlias, CompareResult.equal]

theorem compareDerefPaths_mayAlias {aContainsB bContainsA : Bool} {a b : List Index}
    {index : Nat → Nat} {path : List Nat} (first : a.map (Index.eval index) <+: path)
    (second : b.map (Index.eval index) <+: path) :
    (compareDerefPaths aContainsB bContainsA a b).mayAlias := by
  fun_induction compareDerefPaths aContainsB bContainsA a b generalizing path
  case case7 => rfl
  case case2 differ =>
    cases path with
    | nil => simp at first
    | cons head tail =>
        simp only [List.map_cons, Index.eval, List.cons_prefix_cons] at first second
        exact absurd (first.1.trans second.1.symm) differ
  all_goals
    rename_i inductionHypothesis
    cases path with
    | nil => simp at first
    | cons head tail =>
        rw [List.map_cons, List.cons_prefix_cons] at first second
        exact inductionHypothesis first.2 second.2

theorem compareDerefs_mayAlias {a b : Deref} {index : Nat → Nat} {cell : Cell}
    (first : a.Covers index cell) (second : b.Covers index cell) :
    (compareDerefs a b).mayAlias := by
  rw [compareDerefs, if_pos (first.1.symm.trans second.1)]
  exact compareDerefPaths_mayAlias first.2 second.2

end Compare

section Vectors

variable (decls : Nat → Variable)

/-- The vector of which a store may be combined, with the components. -/
def Instr.vector : Instr → Option (Deref × Nat)
  | .store dst writeMask _ =>
    if (decls dst.var).isOut then
      match target decls dst writeMask with
      | .vector vecDst vecMask => some (vecDst, vecMask)
      | _ => none
    else none
  | _ => none

def Instr.slot (c : Nat) : Instr → Option Scalar
  | .store dst writeMask src =>
    match target decls dst writeMask with
    | .vector _ vecMask =>
      if vecMask.testBit c then some (src (if numComponents decls dst = 1 then 0 else c)) else none
    | _ => none
  | _ => none

/-- What waits for the vector is combined. -/
def Instr.flushes (vec : Deref) : Instr → Bool
  | .store dst writeMask _ =>
    (decls dst.var).isOut ∧ target decls dst writeMask = .other ∧ (compareDerefs vec dst).mayAlias
  | .load src => (decls src.var).isOut ∧ (compareDerefs vec src).mayAlias
  | .copy dst src =>
    (decls dst.var).isOut ∧ (compareDerefs vec dst).mayAlias ∨
      (decls src.var).isOut ∧ (compareDerefs vec src).mayAlias
  | .emitVertex => (decls vec.var).isOut
  | .barrier release coversOut => release ∧ coversOut ∧ (decls vec.var).isOut
  | .other => false

/-- A store past the end of a vector, which is removed. -/
def Instr.isInvalid : Instr → Bool
  | .store dst writeMask _ => (decls dst.var).isOut ∧ target decls dst writeMask = .invalid
  | _ => false

/-- The mask is of the components that there are. -/
def Instr.Valid : Instr → Prop
  | .store dst writeMask _ =>
    writeMask < 2 ^ numComponents decls dst ∧ (decls dst.var).elements ≤ maxVecComponents
  | _ => True

variable {decls}

theorem Instr.eq_store_of_vector {instr : Instr} {vec : Deref} {mask : Nat}
    (vector : instr.vector decls = some (vec, mask)) :
    ∃ dst writeMask src, instr = .store dst writeMask src ∧ (decls dst.var).isOut ∧
      target decls dst writeMask = .vector vec mask := by
  cases instr with
  | store dst writeMask src =>
      rw [Instr.vector] at vector
      split at vector
      next isOut =>
        cases vectorTarget : target decls dst writeMask with
        | vector vecDst vecMask =>
            rw [vectorTarget] at vector
            cases vector
            exact ⟨dst, writeMask, src, rfl, isOut, vectorTarget⟩
        | invalid | other => simp [vectorTarget] at vector
      next => cases vector
  | _ => cases vector

theorem target_eq_vector {dst vec : Deref} {writeMask mask : Nat} :
    target decls dst writeMask = .vector vec mask ↔
      isVector decls dst ∧ dst = vec ∧ writeMask = mask ∨
        isVector decls dst = false ∧ isVector decls vec ∧ parent dst = vec ∧
          ∃ index, dst.path.getLast? = some (.const index) ∧
            index < (decls dst.var).elements ∧ mask = 2 ^ index := by
  rw [target]
  split
  next isVec => simp [isVec]
  next notVec =>
    split
    next index last =>
      split
      next parentVec =>
        split
        next past => grind
        next inside => grind
      next parentOther => grind
    next other => grind

theorem var_of_target {dst vec : Deref} {writeMask mask : Nat}
    (vector : target decls dst writeMask = .vector vec mask) : vec.var = dst.var := by
  rcases target_eq_vector.mp vector with ⟨-, rfl, -⟩ | ⟨-, -, rfl, -⟩ <;> rfl

theorem isVector_of_target {dst vec : Deref} {writeMask mask : Nat}
    (vector : target decls dst writeMask = .vector vec mask) : isVector decls vec := by
  rcases target_eq_vector.mp vector with ⟨isVec, rfl, -⟩ | ⟨-, isVec, -⟩
  · exact isVec
  · exact isVec

theorem numComponents_of_isVector {vec : Deref} (isVec : isVector decls vec) :
    numComponents decls vec = (decls vec.var).elements ∧ (decls vec.var).elements ≠ 1 := by
  have several : 1 < (decls vec.var).elements := by
    rw [isVector, decide_eq_true_iff] at isVec
    exact isVec.2
  exact ⟨if_pos isVec, by omega⟩

theorem lt_elements_of_target {dst vec : Deref} {writeMask mask : Nat} {src : Nat → Scalar}
    (vector : target decls dst writeMask = .vector vec mask)
    (valid : (Instr.store dst writeMask src).Valid decls) {c : Nat} (bit : mask.testBit c) :
    c < (decls vec.var).elements := by
  rw [var_of_target vector]
  rcases target_eq_vector.mp vector with ⟨isVec, rfl, rfl⟩ | ⟨-, -, -, index, -, inside, rfl⟩
  · have below := valid.1
    rw [(numComponents_of_isVector isVec).1] at below
    by_contra past
    rw [Nat.testBit_lt_two_pow (below.trans_le (Nat.pow_le_pow_right (by decide) (by omega)))]
      at bit
    exact Bool.false_ne_true bit
  · rw [Nat.testBit_two_pow, decide_eq_true_iff] at bit
    omega

theorem numComponents_eq_one_iff {dst : Deref} :
    numComponents decls dst = 1 ↔ isVector decls dst = false := by
  constructor
  · intro one
    by_contra isVec
    rw [Bool.not_eq_false] at isVec
    obtain ⟨same, several⟩ := numComponents_of_isVector isVec
    exact several (same.symm.trans one)
  · intro notVec
    rw [numComponents, notVec, if_neg Bool.false_ne_true]

theorem Instr.slot_of_target {dst vec : Deref} {writeMask mask : Nat} {src : Nat → Scalar}
    (vector : target decls dst writeMask = .vector vec mask) (c : Nat) :
    (Instr.store dst writeMask src).slot decls c =
      if mask.testBit c then some (src (if numComponents decls dst = 1 then 0 else c))
      else none := by
  rw [Instr.slot, vector]

theorem Instr.vector_of_target {dst vec : Deref} {writeMask mask : Nat} {src : Nat → Scalar}
    (isOut : (decls dst.var).isOut) (vector : target decls dst writeMask = .vector vec mask) :
    (Instr.store dst writeMask src).vector decls = some (vec, mask) := by
  rw [Instr.vector, if_pos isOut, vector]

end Vectors

section Counts

/-- Of how many components a store is what is taken. -/
def count (stores : Nat → Option Nat) (position : Nat) : Nat :=
  (List.range maxVecComponents).countP fun c => stores c = some position

theorem count_pos {stores : Nat → Option Nat} {position c : Nat} (inside : c < maxVecComponents)
    (taken : stores c = some position) : 0 < count stores position :=
  List.countP_pos_iff.mpr ⟨c, List.mem_range.mpr inside, decide_eq_true taken⟩

theorem count_eq_zero {stores : Nat → Option Nat} {position : Nat}
    (notTaken : ∀ c, stores c ≠ some position) : count stores position = 0 :=
  List.countP_eq_zero.mpr fun c _ => by simp [notTaken c]

theorem countP_range_elements {elements : Nat} (fits : elements ≤ maxVecComponents)
    {holds : Nat → Bool} (inside : ∀ c, holds c → c < elements) :
    (List.range elements).countP holds = (List.range maxVecComponents).countP holds := by
  obtain ⟨more, all⟩ := Nat.exists_eq_add_of_le fits
  rw [all, List.range_add, List.countP_append, Nat.left_eq_add, List.countP_eq_zero]
  intro c present holdsAt
  obtain ⟨extra, -, rfl⟩ := List.mem_map.mp present
  have := inside _ holdsAt
  omega

theorem count_update (stores : Nat → Option Nat) {c : Nat} (position : Nat)
    (inside : c < maxVecComponents) (other : Nat) :
    count (Function.update stores c (some position)) other +
    (if stores c = some other then 1 else 0)
      = count stores other + (if position = other then 1 else 0) := by
  have split : ∀ (values : Nat → Option Nat),
      count values other =
        ((List.range maxVecComponents).erase c).countP (fun c => values c = some other) +
          if values c = some other then 1 else 0 := by
    intro values
    rw [count, (List.perm_cons_erase (List.mem_range.mpr inside)).countP_eq, List.countP_cons]
    simp
  have rest : ((List.range maxVecComponents).erase c).countP
        (fun d => Function.update stores c (some position) d = some other) =
      ((List.range maxVecComponents).erase c).countP (fun d => stores d = some other) := by
    apply List.countP_congr
    intro d present
    have differ : d ≠ c := by
      rintro rfl
      exact List.nodup_range.not_mem_erase present
    rw [Function.update_of_ne differ]
  rw [split (Function.update stores c (some position)), split stores, rest]
  simp only [Function.update_self, Option.some.injEq]
  omega

end Counts

section Combinations

variable (decls : Nat → Variable) (block : List Instr)

def Joins (vec : Deref) (position : Nat) : Prop :=
  ∃ mask, (block[position]?).bind (Instr.vector decls) = some (vec, mask)

def StoresTo (vec : Deref) (c position : Nat) : Prop :=
  ∃ mask, (block[position]?).bind (Instr.vector decls) = some (vec, mask) ∧ mask.testBit c

def Flushed (vec : Deref) (position : Nat) : Prop :=
  ∃ instr, block[position]? = some instr ∧ instr.flushes decls vec

def Waits (vec : Deref) (first last : Nat) : Prop :=
  ∀ position, first < position → position < last → ¬ Flushed decls block vec position

structure Pending (vec : Deref) (length position : Nat) : Prop where
  before : position < length
  joins : Joins decls block vec position
  waits : Waits decls block vec position length

structure Latest (vec : Deref) (length position : Nat) : Prop extends
    Pending decls block vec length position where
  last : ∀ later, position < later → later < length → ¬ Joins decls block vec later

structure Supplies (vec : Deref) (c length position : Nat) : Prop where
  before : position < length
  stores : StoresTo decls block vec c position
  waits : Waits decls block vec position length
  last : ∀ later, position < later → later < length → ¬ StoresTo decls block vec c later

def Ends (vec : Deref) (position : Nat) : Prop :=
  ∀ later, position < later → Joins decls block vec later → ¬ Waits decls block vec position later

variable {decls block}

theorem StoresTo.joins {vec : Deref} {c position : Nat}
    (stores : StoresTo decls block vec c position) :
    Joins decls block vec position :=
  let ⟨mask, vector, _⟩ := stores
  ⟨mask, vector⟩

theorem Joins.of_some {vec : Deref} {position mask : Nat} {instr : Instr}
    (present : block[position]? = some instr) (vector : instr.vector decls = some (vec, mask)) :
    Joins decls block vec position :=
  ⟨mask, by rw [present, Option.bind_some, vector]⟩

theorem Joins.exists_instr {vec : Deref} {position : Nat} (joins : Joins decls block vec position) :
    ∃ instr mask, block[position]? = some instr ∧ instr.vector decls = some (vec, mask) := by
  obtain ⟨mask, vector⟩ := joins
  obtain ⟨instr, present, vector⟩ := Option.bind_eq_some_iff.mp vector
  exact ⟨instr, mask, present, vector⟩

theorem Joins.unique {vec other : Deref} {position : Nat} (joins : Joins decls block vec position)
    (joinsOther : Joins decls block other position) : vec = other := by
  obtain ⟨mask, vector⟩ := joins
  obtain ⟨otherMask, otherVector⟩ := joinsOther
  rw [vector] at otherVector
  cases otherVector
  rfl

theorem Joins.not_flushed {vec other : Deref} {position : Nat}
    (joins : Joins decls block vec position) : ¬ Flushed decls block other position := by
  rintro ⟨instr, present, flushes⟩
  obtain ⟨instr', mask, present', vector⟩ := joins.exists_instr
  cases present.symm.trans present'
  obtain ⟨dst, writeMask, src, rfl, -, vectorTarget⟩ := Instr.eq_store_of_vector vector
  rw [Instr.flushes, vectorTarget] at flushes
  simp at flushes

theorem Pending.eq_latest {vec : Deref} {length position latest : Nat}
    (last : Latest decls block vec length latest)
    (waits : Pending decls block vec length position) :
    position ≤ latest := by
  by_contra after
  exact last.last position (by omega) waits.before waits.joins

theorem Supplies.pending {vec : Deref} {c length position : Nat}
    (supplies : Supplies decls block vec c length position) :
    Pending decls block vec length position :=
  ⟨supplies.before, supplies.stores.joins, supplies.waits⟩

end Combinations

section Combine

variable {decls : Nat → Variable}

@[simp]
theorem State.setInstr_passFlags (state : State) (position : Nat) (instr : Option Instr) :
    (state.setInstr position instr).passFlags = state.passFlags := rfl

@[simp]
theorem State.setInstr_pending (state : State) (position : Nat) (instr : Option Instr) :
    (state.setInstr position instr).pending = state.pending := rfl

@[simp]
theorem State.setInstr_instrs (state : State) (position : Nat) (instr : Option Instr) :
    (state.setInstr position instr).instrs = Function.update state.instrs position instr := rfl

@[simp]
theorem State.setPassFlags_passFlags (state : State) (position value : Nat) :
    (state.setPassFlags position value).passFlags =
      Function.update state.passFlags position value := rfl

@[simp]
theorem State.setPassFlags_pending (state : State) (position value : Nat) :
    (state.setPassFlags position value).pending = state.pending := rfl

@[simp]
theorem State.setPassFlags_instrs (state : State) (position value : Nat) :
    (state.setPassFlags position value).instrs = state.instrs := rfl

def State.taken (combo : CombinedStore) (state : State) (position : Nat) : State :=
  let state := state.setPassFlags position (state.passFlags position - 1)
  if state.passFlags position = 0 ∧ position ≠ combo.latest then state.setInstr position none
  else state

section Taken

variable {combo : CombinedStore} {value comps taken : Nat → Scalar} {state after : State}
variable {i position : Nat} {rest : List Nat}

@[simp]
theorem State.taken_passFlags : (state.taken combo position).passFlags =
    Function.update state.passFlags position (state.passFlags position - 1) := by
  unfold State.taken
  dsimp only
  split <;> rfl

@[simp]
theorem State.taken_pending : (state.taken combo position).pending = state.pending := by
  unfold State.taken
  dsimp only
  split <;> rfl

/-- A store goes with the last component that is taken from it, unless it is the latest one. -/
theorem State.taken_instrs (p : Nat) : (state.taken combo position).instrs p =
    if p = position ∧ state.passFlags position - 1 = 0 ∧ position ≠ combo.latest then none
    else state.instrs p := by
  unfold State.taken
  dsimp only
  rw [setPassFlags_passFlags, Function.update_self]
  by_cases gone : state.passFlags position - 1 = 0 ∧ position ≠ combo.latest
  · rw [if_pos gone, setInstr_instrs, setPassFlags_instrs, Function.update_apply]
    simp only [gone, not_false_eq_true, ne_eq, and_self, and_true]
  · rw [if_neg gone, setPassFlags_instrs, if_neg fun all => gone all.2]

/-- The counts and the stores that the walk over some of the components relies on. -/
structure Takeable (decls : Nat → Variable) (combo : CombinedStore) (value : Nat → Scalar)
    (rest : List Nat) (state : State) : Prop where
  flags : ∀ c ∈ rest, ∀ p, combo.stores c = some p →
    state.passFlags p = rest.countP fun d => combo.stores d = some p
  instrs : ∀ c ∈ rest, ∀ p, combo.stores c = some p →
    ∃ dst writeMask src, state.instrs p = some (.store dst writeMask src) ∧
      src (if numComponents decls dst = 1 then 0 else c) = value c

theorem Takeable.of_none (takeable : Takeable decls combo value (i :: rest) state)
    (absent : combo.stores i = none) : Takeable decls combo value rest state where
  flags c later p taken := by
    rw [takeable.flags c (List.mem_cons_of_mem _ later) p taken, List.countP_cons,
      if_neg (by simp [absent]), Nat.add_zero]
  instrs c later := takeable.instrs c (List.mem_cons_of_mem _ later)

/-- The count of a store is one more than the components that the rest takes from it. -/
theorem Takeable.passFlags_eq (takeable : Takeable decls combo value (i :: rest) state)
    (found : combo.stores i = some position) :
    state.passFlags position = (rest.countP fun d => combo.stores d = some position) + 1 := by
  rw [takeable.flags i List.mem_cons_self position found, List.countP_cons,
    if_pos (decide_eq_true found)]

theorem Takeable.of_some (takeable : Takeable decls combo value (i :: rest) state)
    (found : combo.stores i = some position) :
    Takeable decls combo value rest (state.taken combo position) where
  flags c later p taken := by
    rw [State.taken_passFlags]
    by_cases same : p = position
    · rw [same, Function.update_self, takeable.passFlags_eq found, Nat.add_sub_cancel]
    · rw [Function.update_of_ne same, takeable.flags c (List.mem_cons_of_mem _ later) p taken,
        List.countP_cons, if_neg (by simpa [found] using Ne.symm same), Nat.add_zero]
  instrs c later p taken := by
    obtain ⟨dst, writeMask, src, instr, isValue⟩ :=
      takeable.instrs c (List.mem_cons_of_mem _ later) p taken
    refine ⟨dst, writeMask, src, ?_, isValue⟩
    rw [State.taken_instrs, if_neg, instr]
    rintro ⟨rfl, last, -⟩
    have kept : 0 < rest.countP fun d => combo.stores d = some p :=
      List.countP_pos_iff.mpr ⟨c, later, decide_eq_true taken⟩
    rw [takeable.passFlags_eq found] at last
    omega

/-- What the walk over some of the components leaves, and the components that it takes. -/
structure TakesAll (combo : CombinedStore) (value : Nat → Scalar) (rest : List Nat)
    (state : State) (comps : Nat → Scalar) (after : State) (taken : Nat → Scalar) : Prop where
  comps : ∀ c, taken c = if c ∈ rest ∧ (combo.stores c).isSome then value c else comps c
  pending : after.pending = state.pending
  flags : ∀ p, after.passFlags p =
    if ∃ c ∈ rest, combo.stores c = some p then 0 else state.passFlags p
  instrs : ∀ p, after.instrs p =
    if (∃ c ∈ rest, combo.stores c = some p) ∧ p ≠ combo.latest then none else state.instrs p

theorem TakesAll.cons_of_none (takes : TakesAll combo value rest state comps after taken)
    (absent : combo.stores i = none) :
    TakesAll combo value (i :: rest) state comps after taken where
  comps c := by
    rw [takes.comps]
    by_cases first : c = i
    · simp [first, absent]
    · simp [first]
  pending := takes.pending
  flags p := by simp [takes.flags, absent]
  instrs p := by simp [takes.instrs, absent]

theorem TakesAll.cons_of_some (takeable : Takeable decls combo value (i :: rest) state)
    (found : combo.stores i = some position) (fresh : i ∉ rest)
    (takes : TakesAll combo value rest (state.taken combo position)
      (Function.update comps i (value i)) after taken) :
    TakesAll combo value (i :: rest) state comps after taken where
  comps c := by
    rw [takes.comps]
    by_cases first : c = i
    · subst first
      simp [fresh, found]
    · simp [first]
  pending := takes.pending.trans State.taken_pending
  flags p := by
    rw [takes.flags, State.taken_passFlags]
    by_cases same : p = position
    · subst same
      have taken : ∃ c ∈ i :: rest, combo.stores c = some p := ⟨i, List.mem_cons_self, found⟩
      rw [if_pos taken]
      split
      next => rfl
      next none =>
        rw [Function.update_self, takeable.passFlags_eq found, Nat.add_sub_cancel]
        apply List.countP_eq_zero.mpr
        intro c later taken
        exact none ⟨c, later, of_decide_eq_true taken⟩
    · simp [Function.update_of_ne same, found, Ne.symm same]
  instrs p := by
    rw [takes.instrs, State.taken_instrs, takeable.passFlags_eq found, Nat.add_sub_cancel]
    by_cases same : p = position
    · subst same
      by_cases latest : p = combo.latest
      · simp [latest]
      · by_cases none : ∃ c ∈ rest, combo.stores c = some p
        · simp [none, latest, found]
        · have zero : rest.countP (fun d => combo.stores d = some p) = 0 :=
            List.countP_eq_zero.mpr fun c later taken => none ⟨c, later, of_decide_eq_true taken⟩
          simp [zero, latest, found]
    · have other : combo.stores i ≠ some p := by
        simpa [found] using Ne.symm same
      simp [other, same]

end Taken

/-- With the right counts, every component that is left is found, and then its store may go. -/
theorem State.takeComponents_eq {combo : CombinedStore} {value : Nat → Scalar}
    (mask : ∀ c, combo.writeMask.testBit c ↔ (combo.stores c).isSome) :
    ∀ {rest : List Nat} {state : State} (comps : Nat → Scalar), rest.Nodup →
      Takeable decls combo value rest state →
      ∃ after taken, takeComponents decls combo state comps rest = some (after, taken) ∧
        TakesAll combo value rest state comps after taken
  | [], state, comps, _, _ =>
      ⟨state, comps, rfl, ⟨by simp, rfl, by simp, by simp⟩⟩
  | i :: rest, state, comps, nodup, takeable => by
      rw [takeComponents]
      obtain ⟨fresh, nodup⟩ := List.nodup_cons.mp nodup
      by_cases bit : combo.writeMask.testBit i
      · obtain ⟨position, found⟩ := Option.isSome_iff_exists.mp ((mask i).mp bit)
        obtain ⟨dst, writeMask, src, instr, isValue⟩ :=
          takeable.instrs i List.mem_cons_self position found
        have counted := takeable.passFlags_eq found
        obtain ⟨after, taken, equation, takes⟩ :=
          takeComponents_eq mask (Function.update comps i (value i)) nodup (takeable.of_some found)
        refine ⟨after, taken, ?_, takes.cons_of_some takeable found fresh⟩
        rw [if_pos bit, found]
        simp only [bind, Option.bind, instr, decrement]
        rw [if_neg (by omega), isValue]
        exact equation
      · have absent : combo.stores i = none := by
          simpa [mask] using bit
        obtain ⟨after, taken, equation, takes⟩ :=
          takeComponents_eq mask comps nodup (takeable.of_none absent)
        exact ⟨after, taken, by rw [if_neg bit, equation], takes.cons_of_none absent⟩

/-- What is left of a store: the components that are still taken from it. -/
structure Kept (decls : Nat → Variable) (vec : Deref) (stores : Nat → Option Nat) (position : Nat)
    (original instr : Instr) : Prop where
  valid : instr.Valid decls
  vector : ∃ mask, instr.vector decls = some (vec, mask) ∧
    ∀ c, mask.testBit c ↔ stores c = some position
  slot : ∀ c, stores c = some position → instr.slot decls c = original.slot decls c

structure Held (decls : Nat → Variable) (block : List Instr) (vec : Deref)
    (stores : Nat → Option Nat) (state : State) (position : Nat) : Prop where
  flags : state.passFlags position = count stores position
  instr : state.instrs position = none ∧ (∀ c, stores c ≠ some position) ∨
    ∃ original instr, block[position]? = some original ∧ state.instrs position = some instr ∧
      Kept decls vec stores position original instr

/-- The components of a pending store are of the stores before a position. -/
structure Takes (decls : Nat → Variable) (block : List Instr) (length : Nat) (state : State)
    (combo : CombinedStore) : Prop where
  stores : ∀ c position, combo.stores c = some position ↔
    Supplies decls block combo.dst c length position
  mask : ∀ c, combo.writeMask.testBit c ↔ (combo.stores c).isSome
  held : ∀ position, Pending decls block combo.dst length position →
    Held decls block combo.dst combo.stores state position

structure Pends (decls : Nat → Variable) (block : List Instr) (length : Nat) (state : State)
    (combo : CombinedStore) : Prop extends Takes decls block length state combo where
  latest : Latest decls block combo.dst length combo.latest
  present : state.instrs combo.latest ≠ none

structure Becomes (decls : Nat → Variable) (vec : Deref) (values : Nat → Option Scalar)
    (instr : Option Instr) : Prop where
  vector : ∀ store, instr = some store → ∃ dst writeMask src mask,
    store = .store dst writeMask src ∧ (decls dst.var).isOut ∧
      target decls dst writeMask = .vector vec mask ∧
      (isVector decls dst = false → ∀ c, mask.testBit c → writeMask.testBit 0)
  slot : ∀ c, instr.bind (Instr.slot decls c) = values c

def supplied (decls : Nat → Variable) (block : List Instr) (stores : Nat → Option Nat) (c : Nat) :
    Option Scalar :=
  (stores c).bind fun position => (block[position]?).bind (Instr.slot decls c)

variable {block : List Instr} {length : Nat} {state : State} {combo : CombinedStore} {vec : Deref}
variable {stores : Nat → Option Nat} {position : Nat}

theorem Held.becomes_none (held : Held decls block vec stores state position)
    (notTaken : ∀ c, stores c ≠ some position) :
    Becomes decls vec (fun _ => none) (state.instrs position) := by
  rcases held.instr with ⟨gone, -⟩ | ⟨original, instr, -, present, kept⟩
  · rw [gone]
    exact ⟨by simp, fun _ => rfl⟩
  · obtain ⟨mask, vector, bits⟩ := kept.vector
    obtain ⟨dst, writeMask, src, rfl, isOut, vectorTarget⟩ := Instr.eq_store_of_vector vector
    have empty (c : Nat) : mask.testBit c = false := by
      rw [← Bool.not_eq_true, bits]
      exact notTaken c
    rw [present]
    constructor
    · rintro store ⟨⟩
      exact ⟨dst, writeMask, src, mask, rfl, isOut, vectorTarget, fun _ c bit => by simp_all⟩
    · intro c
      rw [Option.bind_some, Instr.slot_of_target vectorTarget, empty, if_neg Bool.false_ne_true]

theorem Pends.latest_kept (pends : Pends decls block length state combo) :
    ∃ original dst writeMask src mask, block[combo.latest]? = some original ∧
      state.instrs combo.latest = some (.store dst writeMask src) ∧ (decls dst.var).isOut ∧
      target decls dst writeMask = .vector combo.dst mask ∧
      Kept decls combo.dst combo.stores combo.latest original (.store dst writeMask src) ∧
      ∀ c, mask.testBit c ↔ combo.stores c = some combo.latest := by
  have held := pends.held combo.latest pends.latest.toPending
  rcases held.instr with ⟨gone, -⟩ | ⟨original, instr, inBlock, present, kept⟩
  · exact absurd gone pends.present
  · obtain ⟨mask, vector, bits⟩ := kept.vector
    obtain ⟨dst, writeMask, src, rfl, isOut, vectorTarget⟩ := Instr.eq_store_of_vector vector
    exact ⟨original, dst, writeMask, src, mask, inBlock, present, isOut, vectorTarget, kept, bits⟩

theorem Pends.taken_kept (pends : Pends decls block length state combo) {c : Nat}
    (taken : combo.stores c = some position) :
    ∃ original dst writeMask src, block[position]? = some original ∧
      state.instrs position = some (.store dst writeMask src) ∧
      c < (decls combo.dst.var).elements ∧
      original.slot decls c = some (src (if numComponents decls dst = 1 then 0 else c)) := by
  have held := pends.held position ((pends.stores c position).mp taken).pending
  rcases held.instr with ⟨-, notTaken⟩ | ⟨original, instr, inBlock, present, kept⟩
  · exact absurd taken (notTaken c)
  · obtain ⟨mask, vector, bits⟩ := kept.vector
    obtain ⟨dst, writeMask, src, rfl, -, vectorTarget⟩ := Instr.eq_store_of_vector vector
    have bit := (bits c).mpr taken
    refine ⟨original, dst, writeMask, src, inBlock, present,
      lt_elements_of_target vectorTarget kept.valid bit, ?_⟩
    rw [← kept.slot c taken, Instr.slot_of_target vectorTarget, if_pos bit]

theorem Pends.lt_elements (pends : Pends decls block length state combo) {c : Nat}
    (taken : combo.stores c = some position) : c < (decls combo.dst.var).elements := by
  obtain ⟨_, _, _, _, _, _, inside, _⟩ := pends.taken_kept taken
  exact inside

theorem Pends.passFlags_eq (pends : Pends decls block length state combo)
    (fits : (decls combo.dst.var).elements ≤ maxVecComponents)
    (waits : Pending decls block combo.dst length position) :
    state.passFlags position = (List.range (decls combo.dst.var).elements).countP
      fun c => combo.stores c = some position := by
  rw [(pends.held position waits).flags, count]
  exact (countP_range_elements fits
    fun c taken => pends.lt_elements (of_decide_eq_true taken)).symm

theorem Pends.takeable (undef : Scalar) (pends : Pends decls block length state combo)
    (fits : (decls combo.dst.var).elements ≤ maxVecComponents) :
    Takeable decls combo (fun c => (supplied decls block combo.stores c).getD undef)
      (List.range (decls combo.dst.var).elements) state where
  flags c _ p taken := pends.passFlags_eq fits ((pends.stores c p).mp taken).pending
  instrs c _ p taken := by
    obtain ⟨original, dst, writeMask, src, inBlock, present, -, slot⟩ := pends.taken_kept taken
    refine ⟨dst, writeMask, src, present, ?_⟩
    rw [supplied, taken, Option.bind_some, inBlock, Option.bind_some, slot, Option.getD_some]

theorem Pends.all_latest (pends : Pends decls block length state combo) {original : Instr}
    {dst : Deref} {writeMask mask : Nat} {src : Nat → Scalar}
    (vectorTarget : target decls dst writeMask = .vector combo.dst mask)
    (kept : Kept decls combo.dst combo.stores combo.latest original (.store dst writeMask src))
    (bits : ∀ c, mask.testBit c ↔ combo.stores c = some combo.latest)
    (all : combo.writeMask &&& writeMask = combo.writeMask) :
    (∀ c, combo.stores c ≠ none → combo.stores c = some combo.latest) ∧
      (isVector decls dst = false → writeMask.testBit 0) := by
  have inMask (c : Nat) (present : combo.stores c ≠ none) : writeMask.testBit c := by
    have bit := (pends.mask c).mpr (Option.isSome_iff_ne_none.mpr present)
    rw [← all, Nat.testBit_and, Bool.and_eq_true] at bit
    exact bit.2
  rcases target_eq_vector.mp vectorTarget with ⟨isVec, -, rfl⟩ | ⟨notVec, -, -, index, -, -, rfl⟩
  · exact ⟨fun c present => (bits c).mp (inMask c present), by simp [isVec]⟩
  · have small := kept.valid.1
    rw [numComponents_eq_one_iff.mpr notVec] at small
    have zero (c : Nat) (bit : writeMask.testBit c) : c = 0 := by
      by_contra nonzero
      rw [Nat.testBit_lt_two_pow (small.trans_le (Nat.pow_le_pow_right (by decide) (by omega)))]
        at bit
      exact Bool.false_ne_true bit
    have atIndex := (bits index).mp (by simp)
    have bit := inMask index (by simp [atIndex])
    have first := zero index bit
    subst first
    exact ⟨fun c present => zero c (inMask c present) ▸ atIndex, fun _ => bit⟩

/-- The component of the latest store is the one that is taken, where all come from it. -/
theorem Pends.latest_becomes (pends : Pends decls block length state combo)
    (all : ∀ dst writeMask src, state.instrs combo.latest = some (.store dst writeMask src) →
      combo.writeMask &&& writeMask = combo.writeMask) :
    ∀ p, Pending decls block combo.dst length p →
      Becomes decls combo.dst
        (fun c => if p = combo.latest then supplied decls block combo.stores c else none)
        (state.instrs p) := by
  obtain ⟨original, dst, writeMask, src, mask, inBlock, present, isOut, vectorTarget, kept, bits⟩ :=
    pends.latest_kept
  obtain ⟨allLatest, bitZero⟩ :=
    pends.all_latest vectorTarget kept bits (all dst writeMask src present)
  intro p waits
  by_cases isLatest : p = combo.latest
  · subst isLatest
    rw [present]
    constructor
    · rintro store ⟨⟩
      exact ⟨dst, writeMask, src, mask, rfl, isOut, vectorTarget, fun notVec _ _ => bitZero notVec⟩
    · intro c
      rw [if_pos rfl, supplied, Option.bind_some]
      cases taken : combo.stores c with
      | none =>
          have empty : mask.testBit c = false := by
            rw [← Bool.not_eq_true, bits, taken]
            exact Option.some_ne_none _ ∘ Eq.symm
          rw [Instr.slot_of_target vectorTarget, empty, if_neg Bool.false_ne_true]
          rfl
      | some q =>
          have same := allLatest c (by simp [taken])
          rw [kept.slot c same, ← taken, same, Option.bind_some, inBlock, Option.bind_some]
  · simp only [if_neg isLatest]
    apply (pends.held p waits).becomes_none
    intro c taken
    have same := allLatest c (by simp [taken])
    rw [taken] at same
    exact isLatest (Option.some_inj.mp same)

theorem State.combineStores_eq (undef : Scalar) (pends : Pends decls block length state combo) :
    ∃ after, combineStores decls undef state combo = some after ∧
      after.pending = state.pending ∧
      (∀ p, ¬ Pending decls block combo.dst length p →
        after.instrs p = state.instrs p ∧ after.passFlags p = state.passFlags p) ∧
      ∀ p, Pending decls block combo.dst length p →
        Becomes decls combo.dst
          (fun c => if p = combo.latest then supplied decls block combo.stores c else none)
          (after.instrs p) := by
  obtain ⟨original, dst, writeMask, src, mask, inBlock, present, isOut, vectorTarget, kept, bits⟩ :=
    pends.latest_kept
  rw [combineStores, present]
  by_cases all : combo.writeMask &&& writeMask = combo.writeMask
  · refine ⟨state, if_pos all, rfl, fun _ _ => ⟨rfl, rfl⟩, pends.latest_becomes ?_⟩
    intro dst' writeMask' src' present'
    rw [present] at present'
    cases present'
    exact all
  · have fits : (decls combo.dst.var).elements ≤ maxVecComponents := by
      rw [var_of_target vectorTarget]
      exact kept.valid.2
    have components := numComponents_of_isVector (isVector_of_target vectorTarget)
    obtain ⟨after, taken, equation, takes⟩ := takeComponents_eq pends.mask (fun _ => undef)
      List.nodup_range (pends.takeable undef fits)
    have vecDst : (if numComponents decls dst = 1 then combo.dst else dst) = combo.dst := by
      rcases target_eq_vector.mp vectorTarget with ⟨-, same, -⟩ | ⟨notVec, -⟩
      · rw [same, ite_self]
      · rw [if_pos (numComponents_eq_one_iff.mpr notVec)]
    have noneLeft : after.passFlags combo.latest = 0 := by
      rw [takes.flags]
      split
      next => rfl
      next notTaken =>
        rw [pends.passFlags_eq fits pends.latest.toPending, List.countP_eq_zero]
        intro c inRange found
        exact notTaken ⟨c, inRange, of_decide_eq_true found⟩
    have isOutVec : (decls combo.dst.var).isOut := by rwa [var_of_target vectorTarget]
    have newTarget : target decls combo.dst combo.writeMask = .vector combo.dst combo.writeMask :=
      target_eq_vector.mpr (.inl ⟨isVector_of_target vectorTarget, rfl, rfl⟩)
    refine ⟨after.setInstr combo.latest (some (.store combo.dst combo.writeMask taken)), ?_,
      takes.pending, ?_, ?_⟩
    · simp only [if_neg all, equation, bind, Option.bind, vecDst, noneLeft, components.1, and_self,
        if_true]
    · intro p idle
      have differ : p ≠ combo.latest := fun same => idle (same ▸ pends.latest.toPending)
      have notTaken (c : Nat) : combo.stores c ≠ some p :=
        fun found => idle ((pends.stores c p).mp found).pending
      rw [setInstr_instrs, Function.update_of_ne differ, setInstr_passFlags, takes.instrs,
        takes.flags]
      simp [notTaken]
    · intro p waits
      rw [setInstr_instrs]
      by_cases isLatest : p = combo.latest
      · subst isLatest
        rw [Function.update_self]
        constructor
        · rintro store ⟨⟩
          refine ⟨_, _, _, _, rfl, isOutVec, newTarget, fun notVec => ?_⟩
          rw [isVector_of_target vectorTarget] at notVec
          cases notVec
        · intro c
          rw [if_pos rfl, Option.bind_some, Instr.slot_of_target newTarget,
            if_neg (components.1.trans_ne components.2)]
          cases found : combo.stores c with
          | none =>
              have empty : combo.writeMask.testBit c = false := by
                rw [← Bool.not_eq_true, pends.mask, found]
                exact Bool.false_ne_true
              rw [empty, if_neg Bool.false_ne_true, supplied, found, Option.bind_none]
          | some q =>
              obtain ⟨original, dst, writeMask, src, inBlock, -, inVec, slot⟩ :=
                pends.taken_kept found
              rw [if_pos ((pends.mask c).mpr (by simp [found])), takes.comps,
                if_pos ⟨List.mem_range.mpr inVec, by simp [found]⟩, supplied, found,
                Option.bind_some, inBlock, Option.bind_some, slot, Option.getD_some]
      · simp only [Function.update_of_ne isLatest, if_neg isLatest]
        rw [takes.instrs]
        by_cases found : ∃ c ∈ List.range (decls combo.dst.var).elements, combo.stores c = some p
        · rw [if_pos ⟨found, isLatest⟩]
          exact ⟨by simp, fun _ => rfl⟩
        · rw [if_neg fun both => found both.1]
          apply (pends.held p waits).becomes_none
          intro c isTaken
          exact found ⟨c, List.mem_range.mpr (pends.lt_elements isTaken), isTaken⟩

end Combine

section Replace

variable {decls : Nat → Variable} {block : List Instr} {length : Nat} {state : State} {vec : Deref}
variable {stores : Nat → Option Nat} {position : Nat}

theorem Held.congr {after : State} {newStores : Nat → Option Nat}
    (held : Held decls block vec stores state position)
    (sameInstr : after.instrs position = state.instrs position)
    (sameFlags : after.passFlags position = state.passFlags position)
    (sameStores : ∀ c, newStores c = some position ↔ stores c = some position) :
    Held decls block vec newStores after position where
  flags := by
    rw [sameFlags, held.flags, count, count]
    simp only [sameStores]
  instr := by
    rcases held.instr with ⟨gone, notTaken⟩ | ⟨original, instr, inBlock, present, kept⟩
    · exact .inl ⟨sameInstr.trans gone, fun c taken => notTaken c ((sameStores c).mp taken)⟩
    · obtain ⟨mask, vector, bits⟩ := kept.vector
      exact .inr ⟨original, instr, inBlock, sameInstr.trans present,
        { valid := kept.valid
          vector := ⟨mask, vector, fun c => (bits c).trans (sameStores c).symm⟩
          slot := fun c taken => kept.slot c ((sameStores c).mp taken) }⟩

/-- Of the components of a store, one is now taken from a later one. -/
theorem Kept.replace {original : Instr} {dst : Deref} {writeMask i : Nat} {src : Nat → Scalar}
    (kept : Kept decls vec stores position original (.store dst writeMask src))
    (isVec : isVector decls dst) (differ : length ≠ position) :
    Kept decls vec (Function.update stores i (some length)) position original
      (.store dst (Nat.ldiff writeMask (2 ^ i)) src) := by
  obtain ⟨mask, vector, bits⟩ := kept.vector
  obtain ⟨_, _, _, ⟨⟩, isOut, vectorTarget⟩ := Instr.eq_store_of_vector vector
  obtain ⟨-, rfl, rfl⟩ : isVector decls dst ∧ dst = vec ∧ writeMask = mask := by
    rcases target_eq_vector.mp vectorTarget with same | ⟨notVec, -⟩
    · exact same
    · rw [isVec] at notVec
      cases notVec
  have newTarget (mask : Nat) : target decls dst mask = .vector dst mask :=
    target_eq_vector.mpr (.inl ⟨isVec, rfl, rfl⟩)
  have bits' (c : Nat) : (Nat.ldiff writeMask (2 ^ i)).testBit c ↔
      Function.update stores i (some length) c = some position := by
    rw [Nat.testBit_ldiff, Bool.and_eq_true, bits, Nat.testBit_two_pow]
    by_cases same : c = i
    · subst same
      simp [differ]
    · simp [same, Ne.symm same]
  constructor
  case valid =>
    refine ⟨lt_of_le_of_lt ?_ kept.valid.1, kept.valid.2⟩
    apply Nat.le_of_testBit
    intro c bit
    rw [Nat.testBit_ldiff, Bool.and_eq_true] at bit
    exact bit.1
  case vector => exact ⟨_, Instr.vector_of_target isOut (newTarget _), bits'⟩
  case slot =>
    intro c taken
    have differ : c ≠ i := by
      rintro rfl
      rw [Function.update_self] at taken
      exact differ (Option.some_inj.mp taken)
    have before : stores c = some position := by rwa [Function.update_of_ne differ] at taken
    rw [← kept.slot c before, Instr.slot_of_target (newTarget _), Instr.slot_of_target vectorTarget,
      if_pos ((bits c).mpr before), if_pos ((bits' c).mpr taken)]

/-- A store that gives up one of several components is one to a vector. -/
theorem Kept.isVector {i previous writeMask : Nat} {original : Instr} {dst : Deref}
    {src : Nat → Scalar} (found : stores i = some previous) (notNewest : previous ≠ length)
    (left : count (Function.update stores i (some length)) previous ≠ 0)
    (kept : Kept decls vec stores previous original (.store dst writeMask src)) :
    isVector decls dst := by
  obtain ⟨mask, vector, bits⟩ := kept.vector
  obtain ⟨_, _, _, ⟨⟩, -, vectorTarget⟩ := Instr.eq_store_of_vector vector
  by_contra notVec
  rw [Bool.not_eq_true] at notVec
  rcases target_eq_vector.mp vectorTarget with ⟨isVec, -⟩ | ⟨-, -, -, index, -, -, rfl⟩
  · rw [notVec] at isVec
    cases isVec
  · have only (c : Nat) (taken : stores c = some previous) : c = index := by
      have bit := (bits c).mpr taken
      rw [Nat.testBit_two_pow, decide_eq_true_iff] at bit
      exact bit.symm
    apply left (count_eq_zero fun c taken => ?_)
    by_cases isNew : c = i
    · subst isNew
      rw [Function.update_self] at taken
      exact notNewest (Option.some_inj.mp taken).symm
    · rw [Function.update_of_ne isNew] at taken
      exact isNew ((only c taken).trans (only i found).symm)

/-- The store that has a component gives it up, and goes with the last one. -/
theorem Held.exists_replaced {i previous : Nat} (inside : i < maxVecComponents)
    (found : stores i = some previous) (notNewest : previous ≠ length)
    (held : Held decls block vec stores state previous) :
    ∃ instr, state.replaceStore decls i (some previous) =
        some ((state.setPassFlags previous
          (count (Function.update stores i (some length)) previous)).setInstr previous instr) ∧
      (instr = none ∧ (∀ c, Function.update stores i (some length) c ≠ some previous) ∨
        ∃ original kept, block[previous]? = some original ∧ instr = some kept ∧
          Kept decls vec (Function.update stores i (some length)) previous original kept) := by
  have counted := count_update stores length inside previous
  rw [if_pos found, if_neg (Ne.symm notNewest), Nat.add_zero] at counted
  have positive : state.passFlags previous ≠ 0 := by
    rw [held.flags]
    omega
  have flags : state.passFlags previous - 1 =
      count (Function.update stores i (some length)) previous := by
    rw [held.flags]
    omega
  rcases held.instr with ⟨-, notTaken⟩ | ⟨original, instr, inBlock, present, kept⟩
  · exact absurd found (notTaken i)
  · obtain ⟨mask, vector, bits⟩ := kept.vector
    obtain ⟨dst, writeMask, src, rfl, isOut, vectorTarget⟩ := Instr.eq_store_of_vector vector
    have fits (c : Nat) (taken : stores c = some previous) : c < maxVecComponents := by
      have inVec := lt_elements_of_target vectorTarget kept.valid ((bits c).mpr taken)
      rw [var_of_target vectorTarget] at inVec
      exact inVec.trans_le kept.valid.2
    rw [State.replaceStore, State.decrement, if_neg positive]
    simp only [bind, Option.bind, State.setPassFlags_passFlags, Function.update_self, flags]
    by_cases done : count (Function.update stores i (some length)) previous = 0
    · refine ⟨none, if_pos done, .inl ⟨rfl, fun c taken => ?_⟩⟩
      have inVec : c < maxVecComponents := by
        by_cases isNew : c = i
        · exact isNew ▸ inside
        · exact fits c (by rwa [Function.update_of_ne isNew] at taken)
      exact (count_pos inVec taken).ne' done
    · have isVec := kept.isVector found notNewest done
      rw [if_neg done]
      simp only [State.setPassFlags_instrs, present, isVec, if_true]
      exact ⟨_, rfl, .inr ⟨original, _, inBlock, rfl, kept.replace isVec (Ne.symm notNewest)⟩⟩

/-- Taking a component from the newest store leaves the other stores with the rest. -/
theorem State.replaceStore_eq {i : Nat} (inside : i < maxVecComponents)
    (earlier : ∀ previous, stores i = some previous → previous ≠ length ∧
      Held decls block vec stores state previous) :
    ∃ after, state.replaceStore decls i (stores i) = some after ∧
      after.pending = state.pending ∧
      (∀ p, stores i ≠ some p →
        after.instrs p = state.instrs p ∧ after.passFlags p = state.passFlags p) ∧
      ∀ p, p ≠ length → Held decls block vec stores state p →
        Held decls block vec (Function.update stores i (some length)) after p := by
  have sameStores (p : Nat) (differ : p ≠ length) (other : stores i ≠ some p) (c : Nat) :
      Function.update stores i (some length) c = some p ↔ stores c = some p := by
    by_cases same : c = i
    · subst same
      simp [other, differ.symm]
    · rw [Function.update_of_ne same]
  cases found : stores i with
  | none =>
      refine ⟨state, rfl, rfl, fun _ _ => ⟨rfl, rfl⟩, ?_⟩
      intro p differ held
      exact held.congr rfl rfl (sameStores p differ (by simp [found]))
  | some previous =>
      obtain ⟨notNewest, held⟩ := earlier previous found
      obtain ⟨instr, replaced, left⟩ := held.exists_replaced inside found notNewest
      refine ⟨_, replaced, rfl, ?_, ?_⟩
      · intro p other
        have differ : p ≠ previous := fun same => other (congrArg some same.symm)
        simp [Function.update_of_ne differ]
      · intro p differ heldAt
        by_cases same : p = previous
        · subst same
          exact ⟨by simp, by simpa using left⟩
        · exact heldAt.congr (by simp [Function.update_of_ne same])
            (by simp [Function.update_of_ne same])
            (sameStores p differ (by simpa [found] using Ne.symm same))

theorem State.replaceStores_eq {length : Nat} :
    ∀ (rest : List Nat) (state : State) (combo : CombinedStore), rest.Nodup →
      (∀ c ∈ rest, c < maxVecComponents) → combo.latest = length →
      (∀ c ∈ rest, ∀ previous, combo.stores c = some previous → previous ≠ length ∧
        Held decls block vec combo.stores state previous) →
      ∃ after newStores, replaceStores decls state combo rest =
          some (after, { combo with stores := newStores }) ∧
        (∀ c, newStores c = if c ∈ rest then some length else combo.stores c) ∧
        after.pending = state.pending ∧
        (∀ p, (∀ c ∈ rest, combo.stores c ≠ some p) →
          after.instrs p = state.instrs p ∧ after.passFlags p = state.passFlags p) ∧
        ∀ p, p ≠ length → Held decls block vec combo.stores state p →
          Held decls block vec newStores after p
  | [], state, combo, _, _, _, _ =>
      ⟨state, combo.stores, rfl, by simp, rfl, fun _ _ => ⟨rfl, rfl⟩, fun _ _ held => held⟩
  | i :: rest, state, combo, nodup, inside, isLatest, earlier => by
      obtain ⟨fresh, nodup⟩ := List.nodup_cons.mp nodup
      obtain ⟨next, replaced, pending, frame, held⟩ :=
        replaceStore_eq (inside i List.mem_cons_self) (earlier i List.mem_cons_self)
      obtain ⟨after, newStores, equation, storesAt, pending', frame', held'⟩ :=
        replaceStores_eq rest next
          { combo with stores := Function.update combo.stores i (some length) } nodup
          (fun c later => inside c (List.mem_cons_of_mem _ later)) isLatest
          (by
            intro c later previous found
            have differ : c ≠ i := fun same => fresh (same ▸ later)
            have before : combo.stores c = some previous :=
              (Function.update_of_ne differ _ _).symm.trans found
            obtain ⟨notNewest, heldAt⟩ := earlier c (List.mem_cons_of_mem _ later) previous before
            exact ⟨notNewest, held previous notNewest heldAt⟩)
      refine ⟨after, newStores, ?_, ?_, pending'.trans pending, ?_, ?_⟩
      · subst isLatest
        rw [replaceStores, replaced]
        exact equation
      · intro c
        rw [storesAt]
        by_cases same : c = i
        · subst same
          simp [fresh]
        · simp [same]
      · intro p idle
        have differ := idle i List.mem_cons_self
        obtain ⟨sameInstr, sameFlags⟩ := frame p differ
        obtain ⟨sameInstr', sameFlags'⟩ := frame' p fun c later taken => by
          have differ : c ≠ i := fun same => fresh (same ▸ later)
          exact idle c (List.mem_cons_of_mem _ later)
            ((Function.update_of_ne differ _ _).symm.trans taken)
        exact ⟨sameInstr'.trans sameInstr, sameFlags'.trans sameFlags⟩
      · intro p differ heldAt
        exact held' p differ (held p differ heldAt)

end Replace

end CombineStores

end SpirvToDxil
