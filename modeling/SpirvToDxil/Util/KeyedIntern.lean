import Mathlib.Data.List.Basic

/-!
# Interning under a key

A request looks for its key in a table of positions; the first request under a key adds its
value to the pool. `Served` is what requests leave behind.
-/

namespace KeyedIntern

variable {Key Value : Type} [DecidableEq Key]

structure Pool (Key Value : Type) where
  entries : List Value
  table : List (Key × Nat)

namespace Pool

def search (pool : Pool Key Value) (key : Key) : Option Nat :=
  (pool.table.find? (·.1 = key)).map Prod.snd

def insert (pool : Pool Key Value) (key : Key) (index : Nat) : Pool Key Value :=
  { pool with table := (key, index) :: pool.table }

def add (pool : Pool Key Value) (value : Value) : Nat × Pool Key Value :=
  (pool.entries.length, { pool with entries := pool.entries ++ [value] })

def request (pool : Pool Key Value) (key : Key) (value : Value) : Nat × Pool Key Value :=
  match pool.search key with
  | some index => (index, pool)
  | none => ((pool.add value).1, (pool.add value).2.insert key (pool.add value).1)

end Pool

/-- The pool after requests on one with the entries `base` and an empty table. -/
structure Served (base : List Value) (requests : List (Key × Value)) (pool : Pool Key Value) :
    Prop where
  grown : base <+: pool.entries
  found : ∀ key index, pool.search key = some index → base.length ≤ index ∧
    ∃ value, (requests.find? (·.1 = key)).map Prod.snd = some value ∧
      pool.entries[index]? = some value
  missing : ∀ key, pool.search key = none → ∀ request ∈ requests, request.1 ≠ key
  apart : ∀ key key' index, pool.search key = some index → pool.search key' = some index →
    key = key'

theorem served_init (base : List Value) : Served base [] (⟨base, []⟩ : Pool Key Value) where
  grown := List.prefix_rfl
  found _ _ none := by simp [Pool.search] at none
  missing _ _ _ member := absurd member List.not_mem_nil
  apart _ _ _ none := by simp [Pool.search] at none

theorem search_insert (pool : Pool Key Value) (key other : Key) (index : Nat) :
    (pool.insert key index).search other =
      if key = other then some index else pool.search other := by
  rw [Pool.insert, Pool.search, List.find?_cons]
  by_cases same : key = other
  · simp [same]
  · simp [same, Pool.search]

variable {base : List Value} {requests : List (Key × Value)} {pool : Pool Key Value}

/-- What is found under a key is the value of a request under it. -/
theorem Served.exists_request (served : Served base requests pool) {key : Key} {index : Nat}
    (here : pool.search key = some index) :
    ∃ value, (key, value) ∈ requests ∧ pool.entries[index]? = some value := by
  obtain ⟨-, value, isFirst, entry⟩ := served.found key index here
  obtain ⟨request, isRequest, rfl⟩ := Option.map_eq_some_iff.mp isFirst
  have same : request.1 = key := by simpa using List.find?_some isRequest
  exact ⟨request.2, same ▸ List.mem_of_find?_eq_some isRequest, entry⟩

/-- A request under a key that is there changes nothing. -/
theorem Served.again (served : Served base requests pool) {key : Key} (value : Value) {index : Nat}
    (here : pool.search key = some index) : Served base (requests ++ [(key, value)]) pool where
  grown := served.grown
  found other index there := by
    obtain ⟨above, first, isFirst, entry⟩ := served.found other index there
    refine ⟨above, first, ?_, entry⟩
    obtain ⟨request, isRequest, rfl⟩ := Option.map_eq_some_iff.mp isFirst
    rw [List.find?_append, isRequest]
    rfl
  missing other none request member := by
    cases List.mem_append.mp member with
    | inl before => exact served.missing other none request before
    | inr last =>
        rw [List.mem_singleton.mp last]
        rintro rfl
        rw [here] at none
        cases none
  apart := served.apart

theorem Served.request (served : Served base requests pool) (key : Key) (value : Value) :
    Served base (requests ++ [(key, value)]) (pool.request key value).2 ∧
      (pool.request key value).2.search key = some (pool.request key value).1 ∧
      ∀ other index, pool.search other = some index →
        (pool.request key value).2.search other = some index := by
  rw [Pool.request]
  cases here : pool.search key with
  | some index => exact ⟨served.again value here, here, fun _ _ there => there⟩
  | none =>
      have new := served.missing key here
      have kept : ∀ other index, pool.search other = some index →
          ((pool.add value).2.insert key (pool.add value).1).search other = some index := by
        intro other index there
        rw [search_insert, if_neg]
        · exact there
        · rintro rfl
          rw [here] at there
          cases there
      have below : ∀ other index, pool.search other = some index → index < pool.entries.length := by
        intro other index there
        obtain ⟨_, _, _, entry⟩ := served.found other index there
        exact (List.getElem?_eq_some_iff.mp entry).1
      refine ⟨?_, ?_, kept⟩
      · constructor
        · exact served.grown.trans (List.prefix_append _ _)
        · intro other index there
          rw [search_insert] at there
          split at there
          · next same =>
              subst same
              cases there
              refine ⟨served.grown.length_le, value, ?_, List.getElem?_concat_length⟩
              have none : requests.find? (·.1 = key) = none := by
                rw [List.find?_eq_none]
                exact fun request member same => new request member (of_decide_eq_true same)
              rw [List.find?_append, none]
              simp
          · obtain ⟨above, first, isFirst, entry⟩ := served.found other index there
            refine ⟨above, first, ?_, ?_⟩
            · obtain ⟨request, isRequest, rfl⟩ := Option.map_eq_some_iff.mp isFirst
              rw [List.find?_append, isRequest]
              rfl
            · exact (List.getElem?_append_left (below other index there)).trans entry
        · intro other none request member
          rw [search_insert] at none
          split at none
          · cases none
          · next different =>
              cases List.mem_append.mp member with
              | inl before => exact served.missing other none request before
              | inr last =>
                  rw [List.mem_singleton.mp last]
                  exact different
        · intro other other' index there there'
          rw [search_insert] at there there'
          split at there
          · split at there'
            · next same same' => exact same.symm.trans same'
            · cases there
              exact absurd (below other' _ there') (Nat.lt_irrefl _)
          · split at there'
            · cases there'
              exact absurd (below other _ there) (Nat.lt_irrefl _)
            · exact served.apart other other' index there there'
      · rw [search_insert, if_pos rfl]

/-! ## A run of requests -/

section Serve

variable {Instr : Type} (requestOf : Instr → Option (Key × Value)) (put : Instr → Nat → Instr)

def serve (pool : Pool Key Value) (instr : Instr) : Pool Key Value × Instr :=
  match requestOf instr with
  | none => (pool, instr)
  | some request =>
    ((pool.request request.1 request.2).2, put instr (pool.request request.1 request.2).1)

def serveAll (pool : Pool Key Value) : List Instr → Pool Key Value × List Instr
  | [] => (pool, [])
  | instr :: instrs =>
    let served := serve requestOf put pool instr
    let rest := serveAll served.1 instrs
    (rest.1, served.2 :: rest.2)

variable {requestOf put}

theorem Served.serve (served : Served base requests pool) (instr : Instr) :
    Served base (requests ++ (requestOf instr).toList) (serve requestOf put pool instr).1 ∧
      (∀ other index, pool.search other = some index →
        (KeyedIntern.serve requestOf put pool instr).1.search other = some index) ∧
      ∀ request, requestOf instr = some request →
        ∃ index, (KeyedIntern.serve requestOf put pool instr).1.search request.1 = some index ∧
          (KeyedIntern.serve requestOf put pool instr).2 = put instr index := by
  rw [KeyedIntern.serve]
  cases requestOf instr with
  | none =>
      refine ⟨?_, fun _ _ there => there, fun _ none => by cases none⟩
      rw [Option.toList_none, List.append_nil]
      exact served
  | some request =>
      obtain ⟨after, here, kept⟩ := served.request request.1 request.2
      refine ⟨after, kept, ?_⟩
      rintro _ ⟨⟩
      exact ⟨_, here, rfl⟩

/-- Every request is answered by the final table. -/
theorem Served.serveAll (served : Served base requests pool) (instrs : List Instr) :
    Served base (requests ++ instrs.filterMap requestOf) (serveAll requestOf put pool instrs).1 ∧
      (∀ other index, pool.search other = some index →
        (KeyedIntern.serveAll requestOf put pool instrs).1.search other = some index) ∧
      ∀ (k : Nat) instr, instrs[k]? = some instr →
        (requestOf instr = none →
          (KeyedIntern.serveAll requestOf put pool instrs).2[k]? = some instr) ∧
        ∀ request, requestOf instr = some request →
          ∃ index, (KeyedIntern.serveAll requestOf put pool instrs).1.search request.1 =
          some index ∧
            (KeyedIntern.serveAll requestOf put pool instrs).2[k]? = some (put instr index) := by
  induction instrs generalizing requests pool with
  | nil =>
      refine ⟨?_, fun _ _ there => there, fun _ _ none => by simp at none⟩
      rw [List.filterMap_nil, List.append_nil]
      exact served
  | cons instr instrs inductionHypothesis =>
      obtain ⟨after, kept, answered⟩ := @Served.serve _ _ _ _ _ _ _ requestOf put served instr
      obtain ⟨final, keptRest, rest⟩ := inductionHypothesis after
      refine ⟨?_, fun other index there => keptRest other index (kept other index there), ?_⟩
      · have all : requests ++ (instr :: instrs).filterMap requestOf =
            requests ++ (requestOf instr).toList ++ instrs.filterMap requestOf := by
          rw [List.filterMap_cons]
          cases requestOf instr <;> simp
        rw [all]
        exact final
      · intro k other here
        cases k with
        | succ k => exact rest k other here
        | zero =>
            cases here
            constructor
            · intro none
              rw [KeyedIntern.serveAll, KeyedIntern.serve, none]
              rfl
            · intro request isRequest
              obtain ⟨index, there, taken⟩ := answered request isRequest
              exact ⟨index, keptRest _ index there, congrArg some taken⟩

theorem mem_serveAll {instrs : List Instr} {instr : Instr}
    (member : instr ∈ (serveAll requestOf put pool instrs).2) :
    ∃ old ∈ instrs, instr = old ∨ ∃ index, instr = put old index := by
  induction instrs generalizing pool with
  | nil => exact absurd member List.not_mem_nil
  | cons old instrs inductionHypothesis =>
      rw [KeyedIntern.serveAll, List.mem_cons] at member
      cases member with
      | inl here =>
          refine ⟨old, List.mem_cons_self, ?_⟩
          rw [here, KeyedIntern.serve]
          split
          · exact .inl rfl
          · exact .inr ⟨_, rfl⟩
      | inr later =>
          obtain ⟨old, inside, same⟩ := inductionHypothesis later
          exact ⟨old, List.mem_cons_of_mem _ inside, same⟩

end Serve

end KeyedIntern
