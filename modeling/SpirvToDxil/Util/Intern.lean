import Mathlib.Data.List.Dedup
import Mathlib.Data.List.Nodup
import Mathlib.Data.List.Perm.Subperm

/-!
# Interning by linear search

A pool is searched from the front for an entry that a test accepts; if there is
none, a new entry goes to the end. The position is the identity of the entry.
-/

namespace Intern

universe u
variable {Entry : Type u}

def intern (same : Entry → Bool) (entry : Entry) (pool : List Entry) : Nat × List Entry :=
  match pool.findIdx? same with
  | some index => (index, pool)
  | none => (pool.length, pool ++ [entry])

variable {same : Entry → Bool} {entry : Entry} {pool : List Entry}

theorem prefix_intern : pool <+: (intern same entry pool).2 := by
  rw [intern]
  split
  · exact List.prefix_rfl
  · exact List.prefix_append ..

/-- What the returned position holds: an accepted entry, or the new one. -/
theorem getElem?_intern : ∃ found, (intern same entry pool).2[(intern same entry pool).1]? =
    some found ∧ (found ∈ pool ∧ same found = true ∨ found = entry) := by
  rw [intern]
  split
  · next index isIndex =>
    rcases List.findIdx?_eq_some_iff_getElem.mp isIndex with ⟨inside, accepted, -⟩
    refine ⟨pool[index], List.getElem?_eq_getElem inside, Or.inl ⟨?_, accepted⟩⟩
    exact List.getElem_mem inside
  · exact ⟨entry, List.getElem?_concat_length, Or.inr rfl⟩

theorem mem_intern {other : Entry} (member : other ∈ (intern same entry pool).2) :
    other ∈ pool ∨ other = entry := by
  rw [intern] at member
  split at member
  · exact Or.inl member
  · rw [List.mem_append, List.mem_singleton] at member
    exact member

theorem getElem?_of_intern {i : Nat} {other : Entry}
    (isOther : (intern same entry pool).2[i]? = some other) :
    pool[i]? = some other ∨ i = pool.length ∧ other = entry := by
  rw [intern] at isOther
  split at isOther
  · exact Or.inl isOther
  · rcases Nat.lt_or_ge i pool.length with old | new
    · rw [List.getElem?_append_left old] at isOther
      exact Or.inl isOther
    · rw [List.getElem?_append_right new, List.getElem?_singleton] at isOther
      split at isOther
      · cases isOther
        exact Or.inr ⟨by omega, rfl⟩
      · cases isOther

/-- A test that accepts the new entry finds the returned position from then on. -/
theorem findIdx?_intern (accepts : same entry = true) :
    (intern same entry pool).2.findIdx? same = some (intern same entry pool).1 := by
  rw [intern]
  split
  · assumption
  · next missing =>
    rw [List.findIdx?_append, missing]
    simp [accepts]

theorem findIdx?_of_prefix {pool' : List Entry} (isPrefix : pool <+: pool') {index : Nat}
    (found : pool.findIdx? same = some index) : pool'.findIdx? same = some index := by
  rcases isPrefix with ⟨rest, rfl⟩
  rw [List.findIdx?_append, found]
  rfl

/-- A test that accepts nothing adds the entry every time. -/
theorem intern_of_rejects (rejects : ∀ other ∈ pool, same other = false) :
    intern same entry pool = (pool.length, pool ++ [entry]) := by
  have missing : pool.findIdx? same = none := List.findIdx?_eq_none_iff.mpr rejects
  rw [intern, missing]

/-! ## Pools after many requests -/

/-- The pool after a list of requests: an entry is there once, unless it is made anew for
each of its requests. -/
structure Pool (isFresh : Entry → Bool) (requests pool : List Entry) : Prop where
  mem : ∀ entry, entry ∈ pool ↔ entry ∈ requests
  fresh : pool.filter isFresh = requests.filter isFresh
  distinct : pool.Pairwise fun entry other => entry = other → isFresh entry = true

namespace Pool

variable {isFresh : Entry → Bool} {requests : List Entry}

theorem nil : Pool isFresh [] [] := ⟨fun _ => Iff.rfl, rfl, .nil⟩

theorem found (reached : Pool isFresh requests pool) (member : entry ∈ pool)
    (shared : isFresh entry = false) : Pool isFresh (requests ++ [entry]) pool := by
  constructor
  · intro other
    rw [List.mem_append, List.mem_singleton, ← reached.mem]
    constructor
    · exact Or.inl
    · rintro (inside | rfl)
      · exact inside
      · exact member
  · rw [List.filter_append, List.filter_singleton, shared, reached.fresh]
    exact (List.append_nil _).symm
  · exact reached.distinct

theorem created (reached : Pool isFresh requests pool)
    (isNew : isFresh entry = true ∨ entry ∉ pool) :
    Pool isFresh (requests ++ [entry]) (pool ++ [entry]) := by
  constructor
  · intro other
    rw [List.mem_append, List.mem_append, reached.mem]
  · rw [List.filter_append, List.filter_append, reached.fresh]
  · rw [List.pairwise_append]
    refine ⟨reached.distinct, List.pairwise_singleton .., ?_⟩
    intro other inside last member same
    rw [List.mem_singleton.mp member] at same
    subst same
    rcases isNew with isFresh | missing
    · exact isFresh
    · exact absurd inside missing

theorem nodup (reached : Pool isFresh requests pool) (once : (requests.filter isFresh).Nodup) :
    pool.Nodup := by
  rw [← reached.fresh] at once
  rw [List.nodup_iff_pairwise_ne]
  rw [List.nodup_iff_pairwise_ne, List.pairwise_filter] at once
  apply (reached.distinct.and once).imp
  rintro entry other ⟨distinct, once⟩ rfl
  have isFresh := distinct rfl
  exact once isFresh isFresh rfl

theorem length_eq [DecidableEq Entry] (reached : Pool isFresh requests pool)
    (once : (requests.filter isFresh).Nodup) : pool.length = requests.dedup.length := by
  apply List.Perm.length_eq
  rw [List.perm_ext_iff_of_nodup (reached.nodup once) (List.nodup_dedup _)]
  intro entry
  rw [List.mem_dedup, reached.mem]

end Pool

end Intern
