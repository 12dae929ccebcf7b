import SpirvToDxil.Nir.CombineStoresState

/-!
# The block while its stores are combined

Before every instruction the pending stores are the latest ones of their combinations, and what
does not wait any longer is settled.
-/

namespace SpirvToDxil

namespace CombineStores

section Settled

variable {decls : Nat → Variable} {block : List Instr} {length : Nat} {vec : Deref} {position : Nat}

/-- What a store is in the end: the last of a combination has the components, the others none. -/
def Settled (decls : Nat → Variable) (block : List Instr) (vec : Deref) (position : Nat)
    (instr : Option Instr) : Prop :=
  ∃ values : Nat → Option Scalar, Becomes decls vec values instr ∧
    ∀ c scalar, values c = some scalar ↔
      Ends decls block vec position ∧
        ∃ supplier, Supplies decls block vec c (position + 1) supplier ∧
          (block[supplier]?).bind (Instr.slot decls c) = some scalar

/-- No combination goes on at a position. -/
def Closed (decls : Nat → Variable) (block : List Instr) (vec : Deref) (length : Nat) : Prop :=
  ∀ first later, first < length → length ≤ later → Joins decls block vec later →
    ¬ Waits decls block vec first later

theorem Closed.of_flushed (flushed : Flushed decls block vec length) :
    Closed decls block vec length := by
  intro first later before after joins waits
  rcases after.eq_or_lt with same | after
  · exact joins.not_flushed (same ▸ flushed)
  · exact waits length before after flushed

theorem Closed.of_length (past : block.length ≤ length) : Closed decls block vec length := by
  intro first later _ after joins
  obtain ⟨instr, _, present, _⟩ := joins.exists_instr
  have := (List.getElem?_eq_some_iff.mp present).1
  omega

theorem Pending.exists_latest {position : Nat} (waits : Pending decls block vec length position) :
    ∃ latest, Latest decls block vec length latest := by
  by_cases last : ∀ later, position < later → later < length → ¬ Joins decls block vec later
  · exact ⟨position, waits, last⟩
  · push Not at last
    obtain ⟨later, after, before, joins⟩ := last
    exact exists_latest ⟨before, joins, fun between past => waits.waits between (after.trans past)⟩
termination_by length - position

theorem Pending.ends_iff {latest : Nat} (waits : Pending decls block vec length position)
    (isLatest : Latest decls block vec length latest) (closed : Closed decls block vec length) :
    Ends decls block vec position ↔ position = latest := by
  constructor
  · intro ends
    by_contra differ
    have below : position < latest := lt_of_le_of_ne (Pending.eq_latest isLatest waits) differ
    exact ends latest below isLatest.joins fun between after before =>
      waits.waits between after (before.trans isLatest.before)
  · rintro rfl later after joins
    rcases Nat.lt_or_ge later length with before | past
    · exact absurd joins (isLatest.last later after before)
    · exact closed position later waits.before past joins

theorem Latest.supplies_iff (latest : Latest decls block vec length position) {c supplier : Nat} :
    Supplies decls block vec c (position + 1) supplier ↔
      Supplies decls block vec c length supplier := by
  have before := latest.before
  constructor
  · intro supplies
    have below := supplies.before
    constructor
    · omega
    · exact supplies.stores
    · intro between after inside
      rcases Nat.lt_or_ge between (position + 1) with early | late
      · exact supplies.waits between after early
      · exact latest.waits between late inside
    · intro later after inside stores
      rcases Nat.lt_or_ge later (position + 1) with early | late
      · exact supplies.last later after early stores
      · exact latest.last later late inside stores.joins
  · intro supplies
    have below := Pending.eq_latest latest supplies.pending
    exact ⟨by omega, supplies.stores, fun between after inside =>
      supplies.waits between after (by omega), fun later after inside =>
      supplies.last later after (by omega)⟩

theorem Becomes.settled {combo : CombinedStore} {state : State} {instr : Option Instr}
    (pends : Pends decls block length state combo)
    (closed : Closed decls block combo.dst length)
    (waits : Pending decls block combo.dst length position)
    (becomes : Becomes decls combo.dst
      (fun c => if position = combo.latest then supplied decls block combo.stores c else none)
      instr) :
    Settled decls block combo.dst position instr := by
  refine ⟨_, becomes, ?_⟩
  intro c scalar
  rw [waits.ends_iff pends.latest closed]
  by_cases isLatest : position = combo.latest
  · subst isLatest
    rw [if_pos rfl, supplied, Option.bind_eq_some_iff]
    simp only [true_and, pends.latest.supplies_iff, pends.stores]
  · simp [isLatest]

theorem Waits.succ (waits : Waits decls block vec position length)
    (still : ¬ Flushed decls block vec length) : Waits decls block vec position (length + 1) := by
  intro between after inside
  rcases (Nat.lt_succ_iff.mp inside).eq_or_lt with rfl | before
  · exact still
  · exact waits between after before

theorem Waits.of_succ (waits : Waits decls block vec position (length + 1)) :
    Waits decls block vec position length :=
  fun between after inside => waits between after (inside.trans (Nat.lt_succ_self length))

theorem Pending.succ_iff (still : ¬ Flushed decls block vec length) :
    Pending decls block vec (length + 1) position ↔
      Pending decls block vec length position ∨
        position = length ∧ Joins decls block vec length := by
  constructor
  · rintro ⟨before, joins, waits⟩
    rcases (Nat.lt_succ_iff.mp before).eq_or_lt with rfl | before
    · exact .inr ⟨rfl, joins⟩
    · exact .inl ⟨before, joins, waits.of_succ⟩
  · rintro (⟨before, joins, waits⟩ | ⟨rfl, joins⟩)
    · exact ⟨before.trans (Nat.lt_succ_self length), joins, waits.succ still⟩
    · exact ⟨Nat.lt_succ_self _, joins, fun between after inside => by omega⟩

theorem Supplies.succ_iff {c : Nat} (still : ¬ Flushed decls block vec length) :
    Supplies decls block vec c (length + 1) position ↔
      StoresTo decls block vec c length ∧ position = length ∨
        ¬ StoresTo decls block vec c length ∧ Supplies decls block vec c length position := by
  constructor
  · rintro ⟨before, stores, waits, last⟩
    rcases (Nat.lt_succ_iff.mp before).eq_or_lt with rfl | before
    · exact .inl ⟨stores, rfl⟩
    · exact .inr ⟨last length before (Nat.lt_succ_self length), before, stores, waits.of_succ,
        fun later after inside => last later after (inside.trans (Nat.lt_succ_self length))⟩
  · rintro (⟨stores, rfl⟩ | ⟨none, before, stores, waits, last⟩)
    · exact ⟨Nat.lt_succ_self _, stores, fun between after inside => by omega,
        fun later after inside => by omega⟩
    · refine ⟨before.trans (Nat.lt_succ_self length), stores, waits.succ still, ?_⟩
      intro later after inside
      rcases (Nat.lt_succ_iff.mp inside).eq_or_lt with rfl | earlier
      · exact none
      · exact last later after earlier

theorem Latest.succ (latest : Latest decls block vec length position)
    (still : ¬ Flushed decls block vec length) (other : ¬ Joins decls block vec length) :
    Latest decls block vec (length + 1) position where
  toPending := (Pending.succ_iff still).mpr (.inl latest.toPending)
  last := by
    intro later after inside
    rcases (Nat.lt_succ_iff.mp inside).eq_or_lt with rfl | before
    · exact other
    · exact latest.last later after before

theorem Latest.of_succ (latest : Latest decls block vec (length + 1) position)
    (differ : position ≠ length) :
    Latest decls block vec length position ∧ ¬ Flushed decls block vec length := by
  have before := latest.before
  have earlier : position < length := by omega
  exact ⟨⟨⟨earlier, latest.joins, latest.waits.of_succ⟩, fun later after inside =>
      latest.last later after (inside.trans (Nat.lt_succ_self length))⟩,
    latest.waits length earlier (Nat.lt_succ_self length)⟩

theorem Joins.isOut (joins : Joins decls block vec position) : (decls vec.var).isOut := by
  obtain ⟨instr, mask, -, vector⟩ := joins.exists_instr
  obtain ⟨dst, writeMask, src, -, isOut, vectorTarget⟩ := Instr.eq_store_of_vector vector
  rwa [var_of_target vectorTarget]

end Settled

section Invariant

variable {decls : Nat → Variable} {block : List Instr} {length : Nat} {state : State}
variable {flushed : Deref → Prop}

/-- What holds before an instruction, when some of the vectors have already been flushed for it. -/
structure Invariant (decls : Nat → Variable) (block : List Instr) (length : Nat)
    (flushed : Deref → Prop) (state : State) : Prop where
  distinct : (state.pending.map CombinedStore.dst).Nodup
  pends : ∀ combo ∈ state.pending, Pends decls block length state combo
  complete : ∀ vec position, Latest decls block vec length position →
    flushed vec ∨ ∃ combo ∈ state.pending, combo.dst = vec
  settled : ∀ vec position, Joins decls block vec position → position < length →
    flushed vec ∨ ¬ Waits decls block vec position length →
    Settled decls block vec position (state.instrs position)
  later : ∀ position, length ≤ position → state.instrs position = block[position]?
  others : ∀ position instr, position < length → block[position]? = some instr →
    instr.vector decls = none →
    state.instrs position = if instr.isInvalid decls then none else some instr
  waiting : ∀ combo ∈ state.pending, ¬ flushed combo.dst

/-- The stores of other vectors are not touched. -/
def SameAt (decls : Nat → Variable) (block : List Instr) (length : Nat) (vec : Deref)
    (state after : State) : Prop :=
  ∀ position, Pending decls block vec length position →
    after.instrs position = state.instrs position ∧
      after.passFlags position = state.passFlags position

theorem Takes.congr {combo : CombinedStore} {after : State}
    (takes : Takes decls block length state combo)
    (same : SameAt decls block length combo.dst state after) :
    Takes decls block length after combo where
  stores := takes.stores
  mask := takes.mask
  held := by
    intro position waits
    obtain ⟨sameInstr, sameFlags⟩ := same position waits
    have held := takes.held position waits
    exact ⟨sameFlags.trans held.flags, sameInstr ▸ held.instr⟩

theorem Pends.congr {combo : CombinedStore} {after : State}
    (pends : Pends decls block length state combo)
    (same : SameAt decls block length combo.dst state after) :
    Pends decls block length after combo where
  toTakes := pends.toTakes.congr same
  latest := pends.latest
  present := by
    rw [(same combo.latest pends.latest.toPending).1]
    exact pends.present

theorem Pending.unique {vec other : Deref} {position : Nat}
    (waits : Pending decls block vec length position)
    (waitsOther : Pending decls block other length position) : vec = other :=
  waits.joins.unique waitsOther.joins

theorem State.foldlM_combineStores (undef : Scalar) :
    ∀ (combos : List CombinedStore) (state : State),
      (combos.map CombinedStore.dst).Nodup →
      (∀ combo ∈ combos, Pends decls block length state combo) →
      ∃ after, combos.foldlM (combineStores decls undef) state = some after ∧
        (∀ position, (∀ combo ∈ combos, ¬ Pending decls block combo.dst length position) →
          after.instrs position = state.instrs position ∧
            after.passFlags position = state.passFlags position) ∧
        ∀ combo ∈ combos, ∀ position, Pending decls block combo.dst length position →
          Becomes decls combo.dst
            (fun c => if position = combo.latest then supplied decls block combo.stores c else none)
            (after.instrs position)
  | [], state, _, _ => ⟨state, rfl, fun _ _ => ⟨rfl, rfl⟩, by simp⟩
  | combo :: combos, state, distinct, pends => by
      obtain ⟨fresh, distinct⟩ := List.nodup_cons.mp distinct
      obtain ⟨next, combined, -, frame, becomes⟩ :=
        combineStores_eq undef (pends combo List.mem_cons_self)
      have differ (other : CombinedStore) (isOther : other ∈ combos) : combo.dst ≠ other.dst := by
        intro same
        exact fresh (same ▸ List.mem_map_of_mem isOther)
      obtain ⟨after, equation, frame', becomes'⟩ :=
        foldlM_combineStores undef combos next distinct
          (by
            intro other isOther
            apply (pends other (List.mem_cons_of_mem _ isOther)).congr
            intro position waits
            exact frame position fun waitsToo => differ other isOther (waitsToo.unique waits))
      refine ⟨after, ?_, ?_, ?_⟩
      · rw [List.foldlM_cons, combined]
        exact equation
      · intro position idle
        obtain ⟨sameInstr, sameFlags⟩ :=
          frame' position fun other isOther => idle other (List.mem_cons_of_mem _ isOther)
        obtain ⟨sameInstr', sameFlags'⟩ := frame position (idle combo List.mem_cons_self)
        exact ⟨sameInstr.trans sameInstr', sameFlags.trans sameFlags'⟩
      · intro other present position waits
        rcases List.mem_cons.mp present with rfl | isOther
        · have idle (later : CombinedStore) (isLater : later ∈ combos) :
              ¬ Pending decls block later.dst length position :=
            fun waitsToo => differ later isLater (waits.unique waitsToo)
          rw [(frame' position idle).1]
          exact becomes position waits
        · exact becomes' other isOther position waits

theorem not_pending_of_vector {instr : Instr} {position : Nat}
    (present : block[position]? = some instr) (other : instr.vector decls = none) (vec : Deref) :
    ¬ Pending decls block vec length position := by
  intro waits
  obtain ⟨instr', mask, present', vector⟩ := waits.joins.exists_instr
  cases present.symm.trans present'
  rw [other] at vector
  cases vector

/-- What is flushed is settled, and the rest still waits. -/
theorem Invariant.combineWhere (undef : Scalar) (inv : Invariant decls block length flushed state)
    (flush : Deref → Bool) (closed : ∀ vec, flush vec → Closed decls block vec length) :
    ∃ after, state.combineWhere decls undef (fun combo => flush combo.dst) = some after ∧
      Invariant decls block length (fun vec => flushed vec ∨ flush vec) after := by
  obtain ⟨combined, equation, frame, becomes⟩ :=
    @State.foldlM_combineStores decls block length undef
      (state.pending.filter fun combo => flush combo.dst) state
      (inv.distinct.sublist (List.filter_sublist.map _))
      (fun combo present => inv.pends combo (List.mem_filter.mp present).1)
  have untouched (position : Nat)
      (idle : ∀ vec, flush vec → ¬ flushed vec → ¬ Pending decls block vec length position) :
      combined.instrs position = state.instrs position := by
    refine (frame position fun combo present => ?_).1
    obtain ⟨present, flushes⟩ := List.mem_filter.mp present
    exact idle combo.dst flushes (inv.waiting combo present)
  refine ⟨{ combined with pending := state.pending.filter fun combo => !flush combo.dst },
    ?_, ?distinct, ?pends, ?complete, ?settled, ?later, ?others, ?waiting⟩
  · rw [State.combineWhere, equation]
    rfl
  case distinct => exact inv.distinct.sublist (List.filter_sublist.map _)
  case pends =>
    intro combo present
    obtain ⟨present, stays⟩ := List.mem_filter.mp present
    apply (inv.pends combo present).congr
    intro position waits
    refine frame position fun other isOther waitsToo => ?_
    have flushes := (List.mem_filter.mp isOther).2
    rw [waitsToo.unique waits] at flushes
    simp [flushes] at stays
  case complete =>
    intro vec position latest
    rcases inv.complete vec position latest with already | ⟨combo, present, rfl⟩
    · exact .inl (.inl already)
    · by_cases flushes : flush combo.dst
      · exact .inl (.inr flushes)
      · exact .inr ⟨combo, List.mem_filter.mpr ⟨present, by simp [flushes]⟩, rfl⟩
  case settled =>
    intro vec position joins before reason
    show Settled decls block vec position (combined.instrs position)
    by_cases old : flushed vec ∨ ¬ Waits decls block vec position length
    · rw [untouched position]
      · exact inv.settled vec position joins before old
      · intro other flushes fresh waits
        have same := joins.unique waits.joins
        subst same
        rcases old with already | moved
        · exact fresh already
        · exact moved waits.waits
    · push Not at old
      obtain ⟨fresh, waits⟩ := old
      have flushes : flush vec := (reason.resolve_right (not_not.mpr waits)).resolve_left fresh
      have pending : Pending decls block vec length position := ⟨before, joins, waits⟩
      obtain ⟨latest, isLatest⟩ := pending.exists_latest
      obtain ⟨combo, present, rfl⟩ := (inv.complete vec latest isLatest).resolve_left fresh
      exact Becomes.settled (inv.pends combo present) (closed combo.dst flushes) pending
        (becomes combo (List.mem_filter.mpr ⟨present, flushes⟩) position pending)
  case later =>
    intro position past
    show combined.instrs position = block[position]?
    rw [untouched position]
    · exact inv.later position past
    · intro vec _ _ waits
      exact absurd waits.before (by omega)
  case others =>
    intro position instr before present other
    show combined.instrs position = _
    rw [untouched position]
    · exact inv.others position instr before present other
    · intro vec _ _
      exact not_pending_of_vector present other vec
  case waiting =>
    intro combo present
    obtain ⟨present, stays⟩ := List.mem_filter.mp present
    simp only [Bool.not_eq_true', not_or] at stays ⊢
    exact ⟨inv.waiting combo present, by simp [stays]⟩

theorem Invariant.combineStoresWithDeref (undef : Scalar)
    (inv : Invariant decls block length flushed state) (deref : Deref)
    (closed : ∀ vec, (decls deref.var).isOut → (compareDerefs vec deref).mayAlias →
      Closed decls block vec length) :
    ∃ after, state.combineStoresWithDeref decls undef deref = some after ∧
      Invariant decls block length
        (fun vec => flushed vec ∨ (decls deref.var).isOut ∧ (compareDerefs vec deref).mayAlias)
        after := by
  rw [State.combineStoresWithDeref]
  split
  next isOut =>
    simp only [isOut, true_and]
    exact inv.combineWhere undef (fun vec => (compareDerefs vec deref).mayAlias)
      fun vec => closed vec isOut
  next notOut =>
    refine ⟨state, rfl, ?_⟩
    simp only [notOut, Bool.false_eq_true, false_and, or_false]
    exact inv

theorem Invariant.combineStoresWithModes (undef : Scalar)
    (inv : Invariant decls block length flushed state) (coversOut : Bool)
    (closed : ∀ vec, coversOut → (decls vec.var).isOut → Closed decls block vec length) :
    ∃ after, state.combineStoresWithModes decls undef coversOut = some after ∧
      Invariant decls block length
        (fun vec => flushed vec ∨ coversOut ∧ (decls vec.var).isOut) after := by
  rw [State.combineStoresWithModes]
  split
  next covers =>
    simp only [covers, true_and]
    exact inv.combineWhere undef (fun vec => (decls vec.var).isOut) fun vec => closed vec covers
  next notCovers =>
    refine ⟨state, rfl, ?_⟩
    simp only [notCovers, Bool.false_eq_true, false_and, or_false]
    exact inv

theorem Pends.succ {combo : CombinedStore} (pends : Pends decls block length state combo)
    (still : ¬ Flushed decls block combo.dst length)
    (other : ¬ Joins decls block combo.dst length) :
    Pends decls block (length + 1) state combo where
  stores := by
    intro c position
    have notStored : ¬ StoresTo decls block combo.dst c length := fun stores => other stores.joins
    rw [pends.stores, Supplies.succ_iff still]
    simp only [notStored, false_and, not_false_eq_true, true_and, false_or]
  mask := pends.mask
  held := by
    intro position waits
    rcases (Pending.succ_iff still).mp waits with before | ⟨-, joins⟩
    · exact pends.held position before
    · exact absurd joins other
  latest := pends.latest.succ still other
  present := pends.present

/-- After an instruction that stores to no vector, once what it flushes is settled. -/
theorem Invariant.succ {instr : Instr} (inv : Invariant decls block length flushed state)
    (present : block[length]? = some instr) (other : instr.vector decls = none)
    (flushes : ∀ vec, (decls vec.var).isOut → (flushed vec ↔ instr.flushes decls vec)) :
    Invariant decls block (length + 1) (fun _ => False)
      (if instr.isInvalid decls then state.setInstr length none else state) := by
  have notJoined (vec : Deref) : ¬ Joins decls block vec length := by
    intro joins
    obtain ⟨instr', mask, present', vector⟩ := joins.exists_instr
    cases present.symm.trans present'
    rw [other] at vector
    cases vector
  have flushed_iff (vec : Deref) (isOut : (decls vec.var).isOut) :
      flushed vec ↔ Flushed decls block vec length := by
    rw [flushes vec isOut]
    constructor
    · exact fun does => ⟨instr, present, does⟩
    · rintro ⟨instr', present', does⟩
      cases present.symm.trans present'
      exact does
  have samePending : (if instr.isInvalid decls then state.setInstr length none else state).pending =
      state.pending := by
    split <;> rfl
  have same (position : Nat) (differ : position ≠ length) :
      (if instr.isInvalid decls then state.setInstr length none else state).instrs position =
        state.instrs position := by
    split
    next => exact Function.update_of_ne differ _ _
    next => rfl
  have sameFlags : (if instr.isInvalid decls then state.setInstr length none else state).passFlags =
      state.passFlags := by
    split <;> rfl
  constructor
  case distinct =>
    rw [samePending]
    exact inv.distinct
  case pends =>
    intro combo isPending
    rw [samePending] at isPending
    have pends := inv.pends combo isPending
    have still : ¬ Flushed decls block combo.dst length := by
      rw [← flushed_iff combo.dst pends.latest.joins.isOut]
      exact inv.waiting combo isPending
    have sameAt : SameAt decls block length combo.dst state
        (if instr.isInvalid decls then state.setInstr length none else state) :=
      fun position waits => ⟨same position waits.before.ne, by rw [sameFlags]⟩
    exact (pends.congr sameAt).succ still (notJoined combo.dst)
  case complete =>
    intro vec position latest
    have differ : position ≠ length := fun isLength => notJoined vec (isLength ▸ latest.joins)
    obtain ⟨before, still⟩ := latest.of_succ differ
    rw [samePending]
    rcases inv.complete vec position before with isFlushed | waits
    · exact absurd ((flushed_iff vec latest.joins.isOut).mp isFlushed) still
    · exact .inr waits
  case settled =>
    intro vec position joins before reason
    have differ : position ≠ length := fun isLength => notJoined vec (isLength ▸ joins)
    rw [same position differ]
    apply inv.settled vec position joins (by omega)
    rw [flushed_iff vec joins.isOut]
    by_contra neither
    push Not at neither
    obtain ⟨still, waits⟩ := neither
    exact (reason.resolve_left not_false) (waits.succ still)
  case later =>
    intro position past
    rw [same position (by omega)]
    exact inv.later position (by omega)
  case others =>
    intro position instr' before present' other'
    by_cases isLength : position = length
    · subst isLength
      cases present.symm.trans present'
      split
      next => exact Function.update_self ..
      next => rw [inv.later position le_rfl, present]
    · rw [same position isLength]
      exact inv.others position instr' (by omega) present' other'
  case waiting => exact fun _ _ => not_false

theorem State.mem_setPending {combo other : CombinedStore} :
    other ∈ (state.setPending combo).pending ↔
      other = combo ∨ other ∈ state.pending ∧ other.dst ≠ combo.dst := by
  rw [setPending]
  by_cases known : state.pending.any (·.dst = combo.dst)
  · simp only [known, if_true, List.mem_map]
    constructor
    · rintro ⟨old, present, rfl⟩
      split
      next => exact .inl rfl
      next differ => exact .inr ⟨present, differ⟩
    · rintro (rfl | ⟨present, differ⟩)
      · obtain ⟨old, present, same⟩ := List.any_eq_true.mp known
        exact ⟨old, present, if_pos (of_decide_eq_true same)⟩
      · exact ⟨other, present, if_neg differ⟩
  · simp only [known, Bool.false_eq_true, if_false, List.mem_cons]
    have fresh (old : CombinedStore) (present : old ∈ state.pending) : old.dst ≠ combo.dst :=
      fun same => known (List.any_eq_true.mpr ⟨old, present, decide_eq_true same⟩)
    constructor
    · rintro (rfl | present)
      · exact .inl rfl
      · exact .inr ⟨present, fresh other present⟩
    · rintro (rfl | ⟨present, -⟩)
      · exact .inl rfl
      · exact .inr present

theorem State.nodup_setPending {combo : CombinedStore}
    (distinct : (state.pending.map CombinedStore.dst).Nodup) :
    ((state.setPending combo).pending.map CombinedStore.dst).Nodup := by
  rw [setPending]
  by_cases known : state.pending.any (·.dst = combo.dst)
  · simp only [known, if_true, List.map_map]
    have same : CombinedStore.dst ∘ (fun other => if other.dst = combo.dst then combo else other) =
        CombinedStore.dst := by
      funext other
      rw [Function.comp_apply]
      split
      next same => exact same.symm
      next => rfl
    rwa [same]
  · simp only [known, Bool.false_eq_true, if_false, List.map_cons, List.nodup_cons]
    refine ⟨fun present => known ?_, distinct⟩
    obtain ⟨old, present, same⟩ := List.mem_map.mp present
    exact List.any_eq_true.mpr ⟨old, present, decide_eq_true same⟩

/-- The pending store of a vector, or a new one without components. -/
theorem Invariant.matching (inv : Invariant decls block length (fun _ => False) state)
    (vec : Deref) :
    ∃ combo, (state.findMatchingCombinedStore vec).getD
        { dst := vec, writeMask := 0, latest := length, stores := fun _ => none } = combo ∧
      combo.dst = vec ∧ Takes decls block length state combo := by
  cases found : state.findMatchingCombinedStore vec with
  | some combo =>
      have equal : (compareDerefs combo.dst vec).equal := by
        rw [State.findMatchingCombinedStore] at found
        simpa using List.find?_some found
      exact ⟨combo, rfl, (compareDerefs_equal _ _).mp equal,
        (inv.pends combo (List.mem_of_find?_eq_some found)).toTakes⟩
  | none =>
      have idle (position : Nat) : ¬ Pending decls block vec length position := by
        intro waits
        obtain ⟨latest, isLatest⟩ := waits.exists_latest
        obtain ⟨combo, present, same⟩ := (inv.complete vec latest isLatest).resolve_left not_false
        have differ := List.find?_eq_none.mp found combo present
        exact differ ((compareDerefs_equal _ _).mpr same)
      exact ⟨_, rfl, rfl,
        { stores := fun c position => by
            simp only [Option.getD_none, reduceCtorEq, false_iff]
            exact fun supplies => idle position supplies.pending
          mask := fun c => by simp
          held := fun position waits => absurd waits (idle position) }⟩

/-- A vector that a store joins is pending next, when the stores of the other vectors are not
touched. -/
theorem Invariant.setPending (inv : Invariant decls block length (fun _ => False) state)
    {combo : CombinedStore} {instr : Instr} {mask : Nat} {after : State}
    (present : block[length]? = some instr) (vector : instr.vector decls = some (combo.dst, mask))
    (untouched : ∀ position ≠ length, ¬ Pending decls block combo.dst length position →
      after.instrs position = state.instrs position ∧
        after.passFlags position = state.passFlags position)
    (pending : after.pending = state.pending)
    (pends : Pends decls block (length + 1) after combo) :
    Invariant decls block (length + 1) (fun _ => False) (after.setPending combo) := by
  have joins : Joins decls block combo.dst length := .of_some present vector
  have still (other : Deref) : ¬ Flushed decls block other length := joins.not_flushed
  have others (other : CombinedStore) (isPending : other ∈ state.pending)
      (differ : other.dst ≠ combo.dst) : Pends decls block (length + 1) after other := by
    have sameAt : SameAt decls block length other.dst state after := fun position waits =>
      untouched position waits.before.ne fun waitsToo => differ (waits.unique waitsToo)
    exact ((inv.pends other isPending).congr sameAt).succ (still other.dst)
      fun joinsToo => differ (joinsToo.unique joins)
  refine ⟨?distinct, ?pends, ?complete, ?settled, ?later, ?others, fun _ _ => not_false⟩
  case distinct =>
    apply State.nodup_setPending
    rw [pending]
    exact inv.distinct
  case pends =>
    intro other isPending
    rcases State.mem_setPending.mp isPending with rfl | ⟨isPending, differ⟩
    · exact pends.congr fun _ _ => ⟨rfl, rfl⟩
    · rw [pending] at isPending
      exact (others other isPending differ).congr fun _ _ => ⟨rfl, rfl⟩
  case complete =>
    intro other position isLatest
    refine .inr ?_
    by_cases same : other = combo.dst
    · exact ⟨_, State.mem_setPending.mpr (.inl rfl), same.symm⟩
    · have differ : position ≠ length := by
        rintro rfl
        exact same (isLatest.joins.unique joins)
      obtain ⟨known, isPending, rfl⟩ :=
        (inv.complete other position (isLatest.of_succ differ).1).resolve_left not_false
      exact ⟨known, State.mem_setPending.mpr (.inr ⟨pending ▸ isPending, same⟩), rfl⟩
  case settled =>
    intro other position joinsToo before reason
    have moved := reason.resolve_left not_false
    have differ : position ≠ length := by
      rintro rfl
      exact moved fun between after inside => by omega
    have moved' : ¬ Waits decls block other position length :=
      fun waits => moved (waits.succ (still other))
    show Settled decls block other position (after.instrs position)
    rw [(untouched position differ ?_).1]
    · exact inv.settled other position joinsToo (by omega) (.inr moved')
    · intro waits
      rw [waits.joins.unique joinsToo] at waits
      exact moved' waits.waits
  case later =>
    intro position past
    show after.instrs position = block[position]?
    rw [(untouched position (by omega) fun waits => ?_).1, inv.later position (by omega)]
    have := waits.before
    omega
  case others =>
    intro position instr' before present' other
    have differ : position ≠ length := by
      rintro rfl
      cases present.symm.trans present'
      rw [vector] at other
      cases other
    show after.instrs position = _
    rw [(untouched position differ (not_pending_of_vector present' other combo.dst)).1]
    exact inv.others position instr' (by omega) present' other

/-- A store to a vector joins its combination, and becomes the latest store of it. -/
theorem Invariant.join (undef : Scalar)
    (inv : Invariant decls block length (fun _ => False) state)
    {dst vec : Deref} {writeMask mask : Nat} {src : Nat → Scalar}
    (present : block[length]? = some (.store dst writeMask src)) (isOut : (decls dst.var).isOut)
    (vectorTarget : target decls dst writeMask = .vector vec mask)
    (valid : (Instr.store dst writeMask src).Valid decls) :
    ∃ after, state.updateCombinedStore decls undef length dst writeMask = some after ∧
      Invariant decls block (length + 1) (fun _ => False) after := by
  have vector : (Instr.store dst writeMask src).vector decls = some (vec, mask) :=
    Instr.vector_of_target isOut vectorTarget
  have joins : Joins decls block vec length := .of_some present vector
  have still (other : Deref) : ¬ Flushed decls block other length := joins.not_flushed
  have stores_iff (c : Nat) : StoresTo decls block vec c length ↔ mask.testBit c := by
    simp [StoresTo, present, vector]
  have fits (c : Nat) (bit : mask.testBit c) : c < maxVecComponents := by
    have inVec := lt_elements_of_target vectorTarget valid bit
    rw [var_of_target vectorTarget] at inVec
    exact inVec.trans_le valid.2
  have mem_bits (c : Nat) : c ∈ bits mask ↔ mask.testBit c := by
    rw [bits, List.mem_filter, List.mem_range]
    exact ⟨And.right, fun bit => ⟨fits c bit, bit⟩⟩
  obtain ⟨combo, matching, rfl, takes⟩ := inv.matching vec
  have earlier (c previous : Nat) (found : combo.stores c = some previous) :
      Pending decls block combo.dst length previous := ((takes.stores c previous).mp found).pending
  obtain ⟨after, newStores, replaced, storesAt, pending, frame, held⟩ :=
    @State.replaceStores_eq decls block combo.dst length
      (bits mask) (state.setPassFlags length (bits mask).length)
      { combo with latest := length, writeMask := combo.writeMask ||| mask }
      (List.nodup_range.filter _) (fun c isBit => fits c ((mem_bits c).mp isBit)) rfl
      (by
        intro c _ previous found
        have waits := earlier c previous found
        refine ⟨waits.before.ne, (takes.held previous waits).congr rfl ?_ fun _ => Iff.rfl⟩
        rw [State.setPassFlags_passFlags, Function.update_of_ne waits.before.ne])
  have newest (c : Nat) : newStores c = some length ↔ mask.testBit c := by
    rw [storesAt]
    split
    next isBit => simp [(mem_bits c).mp isBit]
    next notBit =>
      rw [← mem_bits]
      exact ⟨fun found => absurd (earlier c length found).before (lt_irrefl length),
        fun isBit => absurd isBit notBit⟩
  have untouched (position : Nat) (differ : position ≠ length)
      (idle : ¬ Pending decls block combo.dst length position) :
      after.instrs position = state.instrs position ∧
        after.passFlags position = state.passFlags position := by
    obtain ⟨sameInstr, sameFlags⟩ :=
      frame position fun c _ found => idle (earlier c position found)
    exact ⟨sameInstr, sameFlags.trans (Function.update_of_ne differ _ _)⟩
  have notWaiting : ¬ Pending decls block combo.dst length length :=
    fun waits => lt_irrefl length waits.before
  obtain ⟨newInstr, newFlags⟩ :=
    frame length fun c _ found => notWaiting (earlier c length found)
  have inPlace : after.instrs length = some (.store dst writeMask src) :=
    newInstr.trans ((inv.later length le_rfl).trans present)
  have latest : Latest decls block combo.dst (length + 1) length :=
    ⟨(Pending.succ_iff (still combo.dst)).mpr (.inr ⟨rfl, joins⟩),
      fun later after inside => by omega⟩
  have pends : Pends decls block (length + 1) after
      ⟨combo.dst, combo.writeMask ||| mask, length, newStores⟩ := by
    refine ⟨⟨?stores, ?mask, ?held⟩, latest, by simp [inPlace]⟩
    case stores =>
      intro c position
      show newStores c = some position ↔ Supplies decls block combo.dst c (length + 1) position
      rw [Supplies.succ_iff (still combo.dst), stores_iff, storesAt]
      by_cases bit : mask.testBit c
      · simp [(mem_bits c).mpr bit, bit, eq_comm]
      · simp [mem_bits, bit, takes.stores]
    case mask =>
      intro c
      show (combo.writeMask ||| mask).testBit c ↔ (newStores c).isSome
      rw [Nat.testBit_or, Bool.or_eq_true, takes.mask, storesAt, ← mem_bits]
      by_cases isBit : c ∈ bits mask
      · simp [isBit]
      · simp [isBit]
    case held =>
      intro position waits
      rcases (Pending.succ_iff (still combo.dst)).mp waits with before | ⟨rfl, -⟩
      · refine held position before.before.ne ((takes.held position before).congr rfl ?_
          fun _ => Iff.rfl)
        rw [State.setPassFlags_passFlags, Function.update_of_ne before.before.ne]
      · refine ⟨?_, .inr ⟨_, _, present, inPlace, valid, ⟨mask, vector, fun c => (newest c).symm⟩,
          fun _ _ => rfl⟩⟩
        rw [newFlags, State.setPassFlags_passFlags, Function.update_self, bits, count,
          ← List.countP_eq_length_filter]
        apply List.countP_congr
        intro c _
        rw [decide_eq_true_iff, newest]
  refine ⟨after.setPending ⟨combo.dst, combo.writeMask ||| mask, length, newStores⟩, ?_,
    inv.setPending present vector untouched pending pends⟩
  rw [State.updateCombinedStore, if_pos isOut, vectorTarget]
  simp only [matching, replaced, bind, Option.bind]

theorem Invariant.combineInstr (undef : Scalar)
    (inv : Invariant decls block length (fun _ => False) state) {instr : Instr}
    (present : block[length]? = some instr) (valid : instr.Valid decls) :
    ∃ after, state.combineInstr decls undef length instr = some after ∧
      Invariant decls block (length + 1) (fun _ => False) after := by
  have closed (vec : Deref) (flushes : instr.flushes decls vec) : Closed decls block vec length :=
    Closed.of_flushed ⟨instr, present, flushes⟩
  cases instr with
  | store dst writeMask src =>
      rw [State.combineInstr]
      by_cases isOut : (decls dst.var).isOut
      · cases vectorTarget : target decls dst writeMask with
        | vector vec mask => exact inv.join undef present isOut vectorTarget valid
        | invalid =>
            refine ⟨_, by rw [State.updateCombinedStore, if_pos isOut, vectorTarget], ?_⟩
            have next := inv.succ present (by simp [Instr.vector, vectorTarget])
              (by simp [Instr.flushes, vectorTarget])
            rwa [if_pos (by simp [Instr.isInvalid, isOut, vectorTarget])] at next
        | other =>
            obtain ⟨after, combined, next⟩ := inv.combineStoresWithDeref undef dst
              (fun vec _ alias_ =>
                closed vec (by simp [Instr.flushes, isOut, vectorTarget, alias_]))
            refine ⟨after, ?_, ?_⟩
            · rw [State.updateCombinedStore, if_pos isOut, vectorTarget]
              exact combined
            · have next := next.succ present (by simp [Instr.vector, vectorTarget])
                (by simp [Instr.flushes, isOut, vectorTarget])
              rwa [if_neg (by simp [Instr.isInvalid, vectorTarget])] at next
      · refine ⟨state, by rw [State.updateCombinedStore, if_neg isOut], ?_⟩
        have next := inv.succ present (by simp [Instr.vector, isOut])
          (by simp [Instr.flushes, isOut])
        rwa [if_neg (by simp [Instr.isInvalid, isOut])] at next
  | load src =>
      obtain ⟨after, combined, next⟩ := inv.combineStoresWithDeref undef src
        (fun vec isOut alias_ => closed vec (by simp [Instr.flushes, isOut, alias_]))
      exact ⟨after, combined, next.succ present rfl (by simp [Instr.flushes])⟩
  | copy dst src =>
      obtain ⟨between, combined, next⟩ := inv.combineStoresWithDeref undef dst
        (fun vec isOut alias_ => closed vec (by simp [Instr.flushes, isOut, alias_]))
      obtain ⟨after, combined', next⟩ := next.combineStoresWithDeref undef src
        (fun vec isOut alias_ => closed vec (by simp [Instr.flushes, isOut, alias_]))
      refine ⟨after, ?_, next.succ present rfl (by simp [Instr.flushes])⟩
      rw [State.combineInstr, combined]
      exact combined'
  | emitVertex =>
      obtain ⟨after, combined, next⟩ := inv.combineStoresWithModes undef true
        (fun vec _ isOut => closed vec isOut)
      exact ⟨after, combined, next.succ present rfl (by simp [Instr.flushes])⟩
  | barrier release coversOut =>
      rw [State.combineInstr]
      cases release with
      | true =>
          obtain ⟨after, combined, next⟩ := inv.combineStoresWithModes undef coversOut
            (fun vec covers isOut => closed vec (by simp [Instr.flushes, covers, isOut]))
          exact ⟨after, combined, next.succ present rfl (by simp [Instr.flushes])⟩
      | false => exact ⟨state, rfl, inv.succ present rfl (by simp [Instr.flushes])⟩
  | other => exact ⟨state, rfl, inv.succ present rfl (by simp [Instr.flushes])⟩

theorem Invariant.combineInstrs (undef : Scalar) (valid : ∀ instr ∈ block, instr.Valid decls) :
    ∀ (rest : List Instr) (length : Nat) (state : State), block.drop length = rest →
      Invariant decls block length (fun _ => False) state →
      ∃ after, state.combineInstrs decls undef length rest = some after ∧
        ∃ last flushed, block.length ≤ last ∧ Invariant decls block last flushed after ∧
          ∀ vec, (decls vec.var).isOut → flushed vec
  | [], length, state, atEnd, inv => by
      have past : block.length ≤ length := List.drop_eq_nil_iff.mp atEnd
      obtain ⟨after, combined, last⟩ := inv.combineStoresWithModes undef true
        (fun vec _ _ => Closed.of_length past)
      exact ⟨after, combined, length, _, past, last, fun vec isOut => .inr ⟨rfl, isOut⟩⟩
  | instr :: rest, length, state, here, inv => by
      have present : block[length]? = some instr := by
        rw [← List.head?_drop, here, List.head?_cons]
      obtain ⟨next, combined, inv⟩ :=
        inv.combineInstr undef present (valid instr (List.mem_of_getElem? present))
      obtain ⟨after, equation, last⟩ := combineInstrs undef valid rest (length + 1) next
        (by rw [← List.tail_drop, here, List.tail_cons]) inv
      refine ⟨after, ?_, last⟩
      rw [State.combineInstrs, combined]
      exact equation

/-- What becomes of an instruction: a store to a vector is settled, one past the end of a vector is
removed, and all others stay. -/
structure Rewritten (decls : Nat → Variable) (block : List Instr) (position : Nat)
    (original : Instr) (instr : Option Instr) : Prop where
  settled : ∀ vec mask, original.vector decls = some (vec, mask) →
    Settled decls block vec position instr
  same : original.vector decls = none →
    instr = if original.isInvalid decls then none else some original

/-- The block is rewritten without an assertion that fails. -/
theorem combineStoresBlock_rewritten (decls : Nat → Variable) (undef : Scalar)
    (block : List Instr) (valid : ∀ instr ∈ block, instr.Valid decls) :
    ∃ rewritten, combineStoresBlock decls undef block = some rewritten ∧
      rewritten.length = block.length ∧
      ∀ position original, block[position]? = some original →
        ∃ instr, rewritten[position]? = some instr ∧
          Rewritten decls block position original instr := by
  have start : Invariant decls block 0 (fun _ => False)
      { pending := [], instrs := fun position => block[position]?, passFlags := fun _ => 0 } :=
    { distinct := List.nodup_nil
      pends := fun combo present => absurd present List.not_mem_nil
      complete := fun vec position latest => absurd latest.before (Nat.not_lt_zero position)
      settled := fun vec position _ before => absurd before (Nat.not_lt_zero position)
      later := fun position _ => rfl
      others := fun position instr before => absurd before (Nat.not_lt_zero position)
      waiting := fun _ _ => not_false }
  obtain ⟨after, combined, last, flushed, past, inv, all⟩ :=
    Invariant.combineInstrs undef valid block 0 _ rfl start
  refine ⟨(List.range block.length).map after.instrs, ?_, by simp, ?_⟩
  · rw [combineStoresBlock, combined]
    rfl
  · intro position original present
    have inside := (List.getElem?_eq_some_iff.mp present).1
    refine ⟨after.instrs position, ?_, ?_, ?_⟩
    · rw [List.getElem?_map, List.getElem?_range inside, Option.map_some]
    · intro vec mask vector
      have joins := Joins.of_some present vector
      exact inv.settled vec position joins (inside.trans_le past) (.inl (all vec joins.isOut))
    · exact inv.others position original (inside.trans_le past) present

end Invariant

end CombineStores

end SpirvToDxil
