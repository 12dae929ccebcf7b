import SpirvToDxil.Util.HashTable
import Mathlib.Tactic.IntervalCases
import Mathlib.Tactic.NormNum.Prime

/-!
# Hash tables are maps

An entry is found because no entry on the way from the start address of its hash to its own address
is free. Insertions, removals and rehashing keep this, and the sizes are primes, so that every
address is on the way.
-/

namespace SpirvToDxil

/-! ## Sizes -/

namespace HashSize

/-- The sizes from which the next hash address is computed without overflow. -/
structure Usable (row : HashSize) : Prop where
  prime : row.size.Prime
  rehash : row.rehash + 2 = row.size
  positive : 0 < row.rehash
  max : row.maxEntries < row.size
  fits : row.size + row.size ≤ 2 ^ 32

end HashSize

set_option maxRecDepth 100000 in
theorem usable_hashSizes {i : Nat} (less : i < 27) : (hashSizes.getD i ⟨0, 0, 0⟩).Usable := by
  interval_cases i <;> exact ⟨by norm_num [hashSizes], rfl, by norm_num [hashSizes],
    by norm_num [hashSizes], by norm_num [hashSizes]⟩

theorem maxEntries_lt_succ :
    ∀ i < 26, (hashSizes.getD i ⟨0, 0, 0⟩).maxEntries <
    (hashSizes.getD (i + 1) ⟨0, 0, 0⟩).maxEntries := by
  decide

namespace HashTable

variable {Key Data : Type} {functions : KeyFunctions Key} {ht : HashTable Key Data}

/-! ## Hash addresses -/

/-- The hash address after some steps. -/
def hashAddress (ht : HashTable Key Data) (hash n : Nat) : Nat :=
  Probing.probe ht.size (ht.doubleHash hash) (ht.startHashAddress hash) n

section Addresses

variable {hash : Nat}

theorem startHashAddress_lt (less : ht.sizeIndex < 27) (bits : hash < 2 ^ 32) :
    ht.startHashAddress hash < ht.size := by
  obtain ⟨prime, -, -, -, fits⟩ : ht.row.Usable := usable_hashSizes less
  have small : ht.row.size < 2 ^ 32 := by
    have := prime.pos
    omega
  have remainder : ht.startHashAddress hash = hash % ht.size :=
    fastUrem32_eq bits prime.pos small
  rw [remainder]
  exact Nat.mod_lt _ prime.pos

theorem doubleHash_lt (less : ht.sizeIndex < 27) (bits : hash < 2 ^ 32) :
    0 < ht.doubleHash hash ∧ ht.doubleHash hash < ht.size := by
  obtain ⟨-, rehash, positive, -, fits⟩ : ht.row.Usable := usable_hashSizes less
  have remainder : fastUrem32 hash ht.row.rehash ht.row.rehashMagic = hash % ht.row.rehash :=
    fastUrem32_eq bits positive (by omega)
  have below := Nat.mod_lt hash positive
  unfold doubleHash size
  omega

theorem coprime_doubleHash (less : ht.sizeIndex < 27) (bits : hash < 2 ^ 32) :
    ht.size.Coprime (ht.doubleHash hash) := by
  obtain ⟨positive, small⟩ := doubleHash_lt less bits
  have prime : ht.size.Prime := (usable_hashSizes less).prime
  exact Nat.coprime_of_lt_prime (Nat.ne_of_gt positive) small prime

theorem nextHashAddress_eq (less : ht.sizeIndex < 27) (bits : hash < 2 ^ 32) (n : Nat) :
    ht.nextHashAddress hash (ht.hashAddress hash n) = ht.hashAddress hash (n + 1) := by
  have inside : ht.hashAddress hash n < ht.size :=
    Probing.probe_lt (startHashAddress_lt less bits) n
  have short := (doubleHash_lt less bits).2
  have fits : ht.size + ht.size ≤ 2 ^ 32 := (usable_hashSizes less).fits
  rw [nextHashAddress, Nat.mod_eq_of_lt (by omega)]
  exact (Probing.probe_succ (startHashAddress_lt less bits) short n).symm

theorem exists_hashAddress (less : ht.sizeIndex < 27) (bits : hash < 2 ^ 32) {address : Nat}
    (inside : address < ht.size) : ∃ n < ht.size, ht.hashAddress hash n = address :=
  Probing.exists_probe (coprime_doubleHash less bits) inside

theorem hashAddress_lt (less : ht.sizeIndex < 27) (bits : hash < 2 ^ 32) (n : Nat) :
    ht.hashAddress hash n < ht.size :=
  Probing.probe_lt (startHashAddress_lt less bits) n

theorem probeLoop_spec (less : ht.sizeIndex < 27) (bits : hash < 2 ^ 32) {Result State : Type}
    (visit : Nat → State → Except Result State) (Invariant : Nat → State → Prop)
    (Found : Result → Prop) {initial : State} (begins : Invariant 0 initial)
    (visits : ∀ n < ht.size, ∀ state, Invariant n state →
      Probing.Outcome Found (Invariant (n + 1)) (visit (ht.hashAddress hash n) state)) :
    Probing.Outcome Found (Invariant ht.size) (ht.probeLoop hash visit initial) :=
  Probing.search_spec (coprime_doubleHash less bits) (startHashAddress_lt less bits)
    (nextHashAddress_eq less bits) visit Invariant Found begins visits

end Addresses

/-! ## The invariant -/

def Matches (functions : KeyFunctions Key) (ht : HashTable Key Data) (key : Key) (address : Nat) :
    Prop :=
  address < ht.size ∧ ∃ hash entryKey data,
    ht.table address = .present hash entryKey data ∧ functions.equals key entryKey = true

/-- Present entries have the hashes of their keys, no key has two of them, and none is behind a free
entry on the way of its hash. -/
structure Searchable (functions : KeyFunctions Key) (ht : HashTable Key Data) : Prop where
  sizeIndex : ht.sizeIndex < 27
  hashed {address hash : Nat} {key : Key} {data : Data} : address < ht.size →
    ht.table address = .present hash key data → hash = functions.hash key
  unique {key : Key} {address other : Nat} :
    Matches functions ht key address → Matches functions ht key other → address = other
  reached {key : Key} {address : Nat} : Matches functions ht key address →
    ∃ n < ht.size, ht.hashAddress (functions.hash key) n = address ∧
      ∀ m < n, ht.table (ht.hashAddress (functions.hash key) m) ≠ .free

/-- The counters are right, and there is room for all entries. -/
structure Counted (ht : HashTable Key Data) : Prop where
  entries : ht.entries = Probing.count HashEntry.isPresent ht.table ht.size
  deletedEntries : ht.deletedEntries = Probing.count HashEntry.isDeleted ht.table ht.size
  room : ht.entries + ht.deletedEntries ≤ ht.row.maxEntries

/-- The table has the entries of the map. -/
def Represents (functions : KeyFunctions Key) (ht : HashTable Key Data) (map : Key → Option Data) :
    Prop :=
  ∀ key data, map key = some data ↔ ∃ address < ht.size, ∃ hash entryKey,
    ht.table address = .present hash entryKey data ∧ functions.equals key entryKey = true

section Search

variable {key : Key}

theorem Searchable.hash_eq (searchable : Searchable functions ht) {address hash : Nat}
    {entryKey : Key} {data : Data} (inside : address < ht.size)
    (present : ht.table address = .present hash entryKey data)
    (same : functions.equals key entryKey = true) : hash = functions.hash key :=
  (searchable.hashed inside present).trans (functions.hash_eq same).symm

theorem Searchable.matches_iff (searchable : Searchable functions ht) (key : Key)
    {address hash : Nat} {entryKey : Key} {data : Data} (inside : address < ht.size)
    (present : ht.table address = .present hash entryKey data) :
    Matches functions ht key address ↔
      (hash = functions.hash key && functions.equals key entryKey) = true := by
  rw [Bool.and_eq_true, decide_eq_true_iff]
  constructor
  · rintro ⟨-, _, _, _, present', same⟩
    rw [present] at present'
    cases present'
    exact ⟨searchable.hash_eq inside present same, same⟩
  · rintro ⟨-, same⟩
    exact ⟨inside, _, _, _, present, same⟩

theorem not_matches_of_not_present {address : Nat}
    (absent : (ht.table address).isPresent = false) : ¬ Matches functions ht key address := by
  rintro ⟨-, _, _, _, present, -⟩
  rw [present] at absent
  cases absent

/-- A free entry on the way ends the search. -/
theorem Searchable.not_matches_of_free (searchable : Searchable functions ht) {n : Nat}
    (earlier : ∀ m < n, ¬ Matches functions ht key (ht.hashAddress (functions.hash key) m))
    (free : ht.table (ht.hashAddress (functions.hash key) n) = .free) (address : Nat) :
    ¬ Matches functions ht key address := by
  intro found
  obtain ⟨first, -, here, before⟩ := searchable.reached found
  rcases Nat.lt_trichotomy first n with less | same | more
  · exact earlier first less (here ▸ found)
  · obtain ⟨-, _, _, _, present, -⟩ := found
    rw [← here, same, free] at present
    cases present
  · exact before n more free

theorem not_matches_of_all (less : ht.sizeIndex < 27)
    (all : ∀ n < ht.size, ¬ Matches functions ht key (ht.hashAddress (functions.hash key) n))
    (address : Nat) : ¬ Matches functions ht key address := by
  intro found
  obtain ⟨n, inside, here⟩ := exists_hashAddress less (functions.hash_lt key) found.1
  exact all n inside (here ▸ found)

def Sought (functions : KeyFunctions Key) (ht : HashTable Key Data) (key : Key) :
    Option Nat → Prop
  | some address => Matches functions ht key address
  | none => ∀ address, ¬ Matches functions ht key address

theorem search_spec (searchable : Searchable functions ht) (key : Key) :
    Sought functions ht key (ht.search functions key) := by
  have less := searchable.sizeIndex
  have bits := functions.hash_lt key
  let before (n : Nat) (_ : Unit) : Prop :=
    ∀ m < n, ¬ Matches functions ht key (ht.hashAddress (functions.hash key) m)
  have loop : Probing.Outcome (Sought functions ht key) (before ht.size)
      (ht.probeLoop (functions.hash key)
        (ht.visitSearch functions (functions.hash key) key) ()) := by
    apply probeLoop_spec less bits _ before
    · exact fun _ absurd => nomatch absurd
    · intro n inside _ earlier
      have here := hashAddress_lt less bits n
      have later (stays : ¬ Matches functions ht key (ht.hashAddress (functions.hash key) n)) :
          before (n + 1) () := by
        intro m le
        rcases Nat.lt_succ_iff_lt_or_eq.mp le with less | rfl
        · exact earlier m less
        · exact stays
      rw [visitSearch]
      cases entry : ht.table (ht.hashAddress (functions.hash key) n) with
      | free => exact searchable.not_matches_of_free earlier entry
      | deleted => exact later (not_matches_of_not_present (by rw [entry]; rfl))
      | present hash entryKey data =>
          have decides := searchable.matches_iff key here entry
          dsimp only
          split
          next same => exact decides.mpr same
          next differs => exact later (mt decides.mp differs)
  unfold search hashTableSearch
  cases result : ht.probeLoop (functions.hash key)
      (ht.visitSearch functions (functions.hash key) key) () with
  | error found =>
      rw [result] at loop
      exact loop
  | ok =>
      rw [result] at loop
      exact not_matches_of_all less loop

end Search

/-! ## Storing entries -/

/-- No entry of the way of the hash up to the address is available, but the one at the address. -/
def Available (ht : HashTable Key Data) (hash address : Nat) : Prop :=
  ∃ n < ht.size, ht.hashAddress hash n = address ∧ (ht.table address).isPresent = false ∧
    ∀ m < n, (ht.table (ht.hashAddress hash m)).isPresent = true

def withEntry (ht : HashTable Key Data) (address : Nat) (entry : HashEntry Key Data)
    (entries deletedEntries : Nat) : HashTable Key Data :=
  ⟨ht.sizeIndex, Function.update ht.table address entry, entries, deletedEntries⟩

section Store

variable {key : Key} {data : Data} {entries deletedEntries : Nat}

theorem Available.lt {hash address : Nat} (less : ht.sizeIndex < 27) (bits : hash < 2 ^ 32)
    (available : Available ht hash address) : address < ht.size := by
  obtain ⟨n, -, rfl, -⟩ := available
  exact hashAddress_lt less bits n

theorem matches_withEntry_of_ne {address other : Nat} {entry : HashEntry Key Data}
    (differs : other ≠ address) :
    Matches functions (ht.withEntry address entry entries deletedEntries) key other ↔
      Matches functions ht key other := by
  have same : (ht.withEntry address entry entries deletedEntries).table other = ht.table other :=
    Function.update_of_ne differs _ _
  unfold Matches
  rw [same]
  rfl

theorem matches_withEntry_self {address : Nat} (inside : address < ht.size) {hash : Nat}
    {stored : Key} :
    Matches functions (ht.withEntry address (.present hash stored data) entries deletedEntries) key
        address ↔ functions.equals key stored = true := by
  have here : (ht.withEntry address (.present hash stored data) entries deletedEntries).table
      address = .present hash stored data := Function.update_self _ _ _
  unfold Matches
  rw [here]
  constructor
  · rintro ⟨-, _, _, _, present, same⟩
    cases present
    exact same
  · intro same
    exact ⟨inside, hash, stored, data, rfl, same⟩

/-- An entry for the key may be stored at the address that the key has, or at an available address
if it has none. -/
theorem Searchable.store (searchable : Searchable functions ht) {address : Nat}
    (inside : address < ht.size)
    (alone : ∀ other, Matches functions ht key other → other = address)
    (onTheWay : ∃ n < ht.size, ht.hashAddress (functions.hash key) n = address ∧
      ∀ m < n, ht.table (ht.hashAddress (functions.hash key) m) ≠ .free) :
    Searchable functions
      (ht.withEntry address (.present (functions.hash key) key data) entries deletedEntries) := by
  let stored := ht.withEntry address (.present (functions.hash key) key data) entries deletedEntries
  have here : stored.table address = .present (functions.hash key) key data :=
    Function.update_self _ _ _
  -- nothing becomes free
  have kept {other : Nat} (taken : ht.table other ≠ .free) : stored.table other ≠ .free := by
    by_cases same : other = address
    · rw [same, here]
      intro absurd
      cases absurd
    · rw [show stored.table other = ht.table other from Function.update_of_ne same _ _]
      exact taken
  have onlyHere {sought : Key} (same : functions.equals sought key = true) {other : Nat}
      (found : Matches functions stored sought other) : other = address := by
    by_contra differs
    obtain ⟨less, _, _, _, present, equal⟩ := (matches_withEntry_of_ne differs).mp found
    have again : Matches functions ht key other :=
      ⟨less, _, _, _, present, functions.equals_trans (functions.equals_symm same) equal⟩
    exact differs (alone other again)
  refine ⟨searchable.sizeIndex, ?_, ?_, ?_⟩
  · intro other hash entryKey entryData less present
    by_cases same : other = address
    · rw [same, here] at present
      cases present
      rfl
    · have before : ht.table other = .present hash entryKey entryData :=
        (Function.update_of_ne same _ _).symm.trans present
      exact searchable.hashed less before
  · intro sought first second found foundAgain
    by_cases same : functions.equals sought key = true
    · rw [onlyHere same found, onlyHere same foundAgain]
    · have elsewhere {other : Nat} (found : Matches functions stored sought other) :
          other ≠ address := by
        rintro rfl
        exact same ((matches_withEntry_self inside).mp found)
      exact searchable.unique ((matches_withEntry_of_ne (elsewhere found)).mp found)
        ((matches_withEntry_of_ne (elsewhere foundAgain)).mp foundAgain)
  · intro sought other found
    by_cases same : other = address
    · subst same
      have equal := (matches_withEntry_self inside).mp found
      obtain ⟨n, most, reached, before⟩ := onTheWay
      rw [functions.hash_eq equal]
      exact ⟨n, most, reached, fun m less => kept (before m less)⟩
    · obtain ⟨n, most, reached, before⟩ :=
        searchable.reached ((matches_withEntry_of_ne same).mp found)
      exact ⟨n, most, reached, fun m less => kept (before m less)⟩

def updated (functions : KeyFunctions Key) (map : Key → Option Data) (key : Key)
    (value : Option Data) : Key → Option Data :=
  fun other => if functions.equals other key then value else map other

theorem Represents.store {map : Key → Option Data} (represents : Represents functions ht map)
    {address hash : Nat} (inside : address < ht.size)
    (alone : ∀ other, Matches functions ht key other → other = address)
    (replaced : (ht.table address).isPresent = true → Matches functions ht key address) :
    Represents functions (ht.withEntry address (.present hash key data) entries deletedEntries)
      (updated functions map key (some data)) := by
  have here : (ht.withEntry address (.present hash key data) entries deletedEntries).table address =
      .present hash key data := Function.update_self _ _ _
  have elsewhere {other : Nat} (differs : other ≠ address) :
      (ht.withEntry address (.present hash key data) entries deletedEntries).table other =
        ht.table other := Function.update_of_ne differs _ _
  intro sought value
  unfold updated
  by_cases same : functions.equals sought key = true
  · rw [if_pos same]
    constructor
    · intro stored
      exact ⟨address, inside, hash, key, (Option.some.inj stored) ▸ here, same⟩
    · rintro ⟨other, less, otherHash, entryKey, present, equal⟩
      have onlyHere : other = address := by
        by_contra differs
        rw [elsewhere differs] at present
        exact differs (alone other ⟨less, _, _, _, present,
          functions.equals_trans (functions.equals_symm same) equal⟩)
      rw [onlyHere, here] at present
      cases present
      rfl
  · rw [if_neg same, represents sought value]
    constructor
    · rintro ⟨other, less, otherHash, entryKey, present, equal⟩
      have differs : other ≠ address := by
        rintro rfl
        obtain ⟨-, _, _, _, present', own⟩ := replaced (by rw [present]; rfl)
        rw [present] at present'
        cases present'
        exact same (functions.equals_trans equal (functions.equals_symm own))
      exact ⟨other, less, otherHash, entryKey, (elsewhere differs).trans present, equal⟩
    · rintro ⟨other, less, otherHash, entryKey, present, equal⟩
      have differs : other ≠ address := by
        rintro rfl
        rw [here] at present
        cases present
        exact same equal
      exact ⟨other, less, otherHash, entryKey, (elsewhere differs).symm.trans present, equal⟩

end Store

/-! ## Finding an entry to store to -/

section GetEntry

variable {key : Key}

/-- What `hash_table_get_entry` finds: the entry of the key, or an available one. -/
def Got (functions : KeyFunctions Key) (ht : HashTable Key Data) (key : Key) :
    Nat ⊕ Option Nat → Prop
  | .inl address => Matches functions ht key address
  | .inr available => (∀ address, ¬ Matches functions ht key address) ∧
      ∃ address, available = some address ∧ Available ht (functions.hash key) address

structure Getting (functions : KeyFunctions Key) (ht : HashTable Key Data) (key : Key) (n : Nat)
    (available : Option Nat) : Prop where
  before : ∀ m < n, ¬ Matches functions ht key (ht.hashAddress (functions.hash key) m)
  found : ∀ address, available = some address → Available ht (functions.hash key) address
  full : available = none →
    ∀ m < n, (ht.table (ht.hashAddress (functions.hash key) m)).isPresent = true

theorem Getting.available {n : Nat} {available : Option Nat}
    (getting : Getting functions ht key n available) (inside : n < ht.size)
    (absent : (ht.table (ht.hashAddress (functions.hash key) n)).isPresent = false) :
    ∃ address, available.or (some (ht.hashAddress (functions.hash key) n)) = some address ∧
      Available ht (functions.hash key) address := by
  cases available with
  | none => exact ⟨_, rfl, n, inside, rfl, absent, getting.full rfl⟩
  | some address => exact ⟨address, rfl, getting.found address rfl⟩

theorem Getting.succ {n : Nat} {available later : Option Nat}
    (getting : Getting functions ht key n available)
    (stays : ¬ Matches functions ht key (ht.hashAddress (functions.hash key) n))
    (found : ∀ address, later = some address → Available ht (functions.hash key) address)
    (full : later = none → available = none ∧
      (ht.table (ht.hashAddress (functions.hash key) n)).isPresent = true) :
    Getting functions ht key (n + 1) later := by
  refine ⟨?_, found, ?_⟩
  · intro m le
    rcases Nat.lt_succ_iff_lt_or_eq.mp le with less | rfl
    · exact getting.before m less
    · exact stays
  · intro none m le
    rcases Nat.lt_succ_iff_lt_or_eq.mp le with less | rfl
    · exact getting.full (full none).1 m less
    · exact (full none).2

/-- As long as not all entries are present, an entry is found. -/
theorem getEntry_spec (searchable : Searchable functions ht) (key : Key)
    (room : Probing.count HashEntry.isPresent ht.table ht.size < ht.size) :
    Probing.Outcome (Got functions ht key) (fun available => Got functions ht key (.inr available))
      (ht.probeLoop (functions.hash key) (ht.visitGetEntry functions (functions.hash key) key)
        none) := by
  have less := searchable.sizeIndex
  have bits := functions.hash_lt key
  have loop : Probing.Outcome (Got functions ht key) (Getting functions ht key ht.size)
      (ht.probeLoop (functions.hash key) (ht.visitGetEntry functions (functions.hash key) key)
        none) := by
    apply probeLoop_spec less bits _ (Getting functions ht key)
    · exact ⟨fun _ absurd => (nomatch absurd), fun _ absurd => (nomatch absurd),
        fun _ _ absurd => (nomatch absurd)⟩
    · intro n inside available getting
      have here := hashAddress_lt less bits n
      rw [visitGetEntry]
      cases entry : ht.table (ht.hashAddress (functions.hash key) n) with
      | free =>
          refine ⟨searchable.not_matches_of_free getting.before entry, ?_⟩
          exact getting.available inside (by rw [entry]; rfl)
      | deleted =>
          have absent : (ht.table (ht.hashAddress (functions.hash key) n)).isPresent = false := by
            rw [entry]
            rfl
          obtain ⟨address, some, found⟩ := getting.available inside absent
          dsimp only
          rw [some]
          apply getting.succ (not_matches_of_not_present absent)
          · intro other same
            cases same
            exact found
          · exact fun absurd => nomatch absurd
      | present hash entryKey data =>
          have decides := searchable.matches_iff key here entry
          dsimp only
          split
          next same => exact decides.mpr same
          next differs =>
            exact getting.succ (mt decides.mp differs) getting.found
              fun none => ⟨none, by rw [entry]; rfl⟩
  cases result : ht.probeLoop (functions.hash key)
      (ht.visitGetEntry functions (functions.hash key) key) none with
  | error found =>
      rw [result] at loop
      exact loop
  | ok available =>
      rw [result] at loop
      obtain ⟨before, found, full⟩ := loop
      refine ⟨not_matches_of_all less before, ?_⟩
      cases available with
      | some address => exact ⟨address, rfl, found address rfl⟩
      | none =>
          obtain ⟨address, inside, absent⟩ := Probing.exists_of_count_lt _ room
          obtain ⟨n, most, rfl⟩ := exists_hashAddress less bits inside
          rw [full rfl n most] at absent
          cases absent

end GetEntry

/-! ## Iteration -/

section Foreach

variable {key : Key} {data : Data} {hash : Nat}

theorem mem_foreach : (hash, key, data) ∈ ht.foreach ↔
    ∃ address < ht.size, ht.table address = .present hash key data := by
  unfold foreach
  rw [List.mem_filterMap]
  constructor
  · rintro ⟨address, inside, listed⟩
    refine ⟨address, List.mem_range.mp inside, ?_⟩
    split at listed
    next present =>
      cases listed
      exact present
    next => cases listed
  · rintro ⟨address, inside, present⟩
    exact ⟨address, List.mem_range.mpr inside, by rw [present]⟩

theorem length_foreach :
    ht.foreach.length = Probing.count HashEntry.isPresent ht.table ht.size := by
  rw [foreach, List.length_filterMap_eq_countP, Probing.count]
  apply List.countP_congr
  intro address _
  cases ht.table address <;> simp [HashEntry.isPresent]

/-- No key is met twice. -/
theorem Searchable.pairwise_foreach (searchable : Searchable functions ht) :
    ht.foreach.Pairwise fun entry later => functions.equals later.2.1 entry.2.1 = false := by
  unfold foreach
  rw [List.pairwise_filterMap]
  apply (List.pairwise_lt_range (n := ht.size)).imp_of_mem
  intro address other inside inside' less entry listed later listed'
  split at listed
  next hash key data present =>
    cases listed
    split at listed'
    next hash' key' data' present' =>
      cases listed'
      apply Bool.eq_false_iff.mpr
      intro same
      have found : Matches functions ht key' address :=
        ⟨List.mem_range.mp inside, hash, key, data, present, same⟩
      have foundAgain : Matches functions ht key' other :=
        ⟨List.mem_range.mp inside', hash', key', data', present', functions.equals_refl key'⟩
      exact Nat.ne_of_lt less (searchable.unique found foundAgain)
    next => cases listed'
  next => cases listed

end Foreach

/-! ## Rehashing -/

section Rehash

theorem insertRehash_eq {hash : Nat} (key : Key) (data : Data) (less : ht.sizeIndex < 27)
    (bits : hash < 2 ^ 32) (room : Probing.count HashEntry.isPresent ht.table ht.size < ht.size) :
    ∃ address, Available ht hash address ∧ ht.insertRehash hash key data =
      ht.withEntry address (.present hash key data) ht.entries ht.deletedEntries := by
  let full (n : Nat) (_ : Unit) : Prop :=
    ∀ m < n, (ht.table (ht.hashAddress hash m)).isPresent = true
  have loop : Probing.Outcome (Available ht hash) (full ht.size)
      (ht.probeLoop hash ht.visitInsertRehash ()) := by
    apply probeLoop_spec less bits _ full
    · exact fun _ absurd => nomatch absurd
    · intro n inside _ earlier
      rw [visitInsertRehash]
      split
      next present =>
        intro m le
        rcases Nat.lt_succ_iff_lt_or_eq.mp le with less | rfl
        · exact earlier m less
        · exact present
      next absent => exact ⟨n, inside, rfl, Bool.eq_false_iff.mpr absent, earlier⟩
  unfold insertRehash
  cases result : ht.probeLoop hash ht.visitInsertRehash () with
  | error address =>
      rw [result] at loop
      exact ⟨address, loop, rfl⟩
  | ok =>
      rw [result] at loop
      obtain ⟨address, inside, absent⟩ := Probing.exists_of_count_lt _ room
      obtain ⟨n, most, rfl⟩ := exists_hashAddress less bits inside
      rw [loop n most] at absent
      cases absent

def mapOf (functions : KeyFunctions Key) (entries : List (Nat × Key × Data)) : Key → Option Data :=
  entries.foldl (fun map entry => updated functions map entry.2.1 (some entry.2.2)) fun _ => none

theorem mapOf_append (entries : List (Nat × Key × Data)) (entry : Nat × Key × Data) :
    mapOf functions (entries ++ [entry]) =
      updated functions (mapOf functions entries) entry.2.1 (some entry.2.2) := by
  rw [mapOf, List.foldl_append]
  rfl

theorem mapOf_eq_some_iff {entries : List (Nat × Key × Data)}
    (apart : entries.Pairwise fun entry later => functions.equals later.2.1 entry.2.1 = false)
    {key : Key} {data : Data} : mapOf functions entries key = some data ↔
      ∃ entry ∈ entries, entry.2.2 = data ∧ functions.equals key entry.2.1 = true := by
  induction entries using List.reverseRecOn with
  | nil => simp [mapOf]
  | append_singleton entries entry inductionHypothesis =>
      obtain ⟨earlier, -, others⟩ := List.pairwise_append.mp apart
      rw [mapOf_append, updated]
      by_cases same : functions.equals key entry.2.1 = true
      · rw [if_pos same]
        constructor
        · intro stored
          exact ⟨entry, List.mem_append_right _ List.mem_cons_self, Option.some.inj stored, same⟩
        · rintro ⟨other, member, rfl, equal⟩
          rcases List.mem_append.mp member with before | last
          · have differs := others other before entry List.mem_cons_self
            rw [functions.equals_trans (functions.equals_symm same) equal] at differs
            cases differs
          · rw [List.mem_singleton.mp last]
      · rw [if_neg same, inductionHypothesis earlier]
        constructor
        · rintro ⟨other, before, stored, equal⟩
          exact ⟨other, List.mem_append_left _ before, stored, equal⟩
        · rintro ⟨other, member, stored, equal⟩
          rcases List.mem_append.mp member with before | last
          · exact ⟨other, before, stored, equal⟩
          · rw [List.mem_singleton.mp last] at equal
            exact absurd equal same

structure Filled (functions : KeyFunctions Key) (sizeIndex : Nat)
    (entries : List (Nat × Key × Data)) (filled : HashTable Key Data) : Prop where
  sizeIndex : filled.sizeIndex = sizeIndex
  searchable : Searchable functions filled
  present : Probing.count HashEntry.isPresent filled.table filled.size = entries.length
  deleted : Probing.count HashEntry.isDeleted filled.table filled.size = 0
  deletedEntries : filled.deletedEntries = 0
  represents : Represents functions filled (mapOf functions entries)

theorem filled_nil {sizeIndex : Nat} (less : sizeIndex < 27) :
    Filled functions sizeIndex [] (⟨sizeIndex, fun _ => .free, 0, 0⟩ : HashTable Key Data) := by
  have never {holds : HashEntry Key Data → Bool} (fails : holds .free = false) (size : Nat) :
      Probing.count holds (fun _ => .free) size = 0 := by
    rw [Probing.count, List.countP_eq_zero]
    intro _ _
    rw [fails]
    exact Bool.false_ne_true
  refine ⟨rfl, ⟨less, ?_, ?_, ?_⟩, never rfl _, never rfl _, rfl, ?_⟩
  · intro _ _ _ _ _ present
    cases present
  · rintro _ _ _ ⟨-, _, _, _, present, -⟩
    cases present
  · rintro _ _ ⟨-, _, _, _, present, -⟩
    cases present
  · intro key data
    constructor
    · intro stored
      cases stored
    · rintro ⟨_, _, _, _, present, -⟩
      cases present

theorem Filled.insertRehash {sizeIndex : Nat} {entries : List (Nat × Key × Data)}
    {filled : HashTable Key Data} (before : Filled functions sizeIndex entries filled) {key : Key}
    {data : Data} (room : entries.length < filled.size)
    (apart : (entries ++ [(functions.hash key, key, data)]).Pairwise
      fun entry later => functions.equals later.2.1 entry.2.1 = false) :
    Filled functions sizeIndex (entries ++ [(functions.hash key, key, data)])
      (filled.insertRehash (functions.hash key) key data) := by
  obtain ⟨sameIndex, searchable, present, deleted, none, represents⟩ := before
  have less := searchable.sizeIndex
  have bits := functions.hash_lt key
  obtain ⟨address, available, result⟩ := insertRehash_eq key data less bits (present ▸ room)
  have inside := available.lt less bits
  obtain ⟨n, most, reached, absent, earlier⟩ := available
  obtain ⟨apartBefore, -, others⟩ := List.pairwise_append.mp apart
  have missing (other : Nat) : ¬ Matches functions filled key other := by
    rintro ⟨otherInside, hash, entryKey, entryData, stored, same⟩
    have known := (represents key entryData).mpr ⟨other, otherInside, hash, entryKey, stored, same⟩
    obtain ⟨entry, member, -, equal⟩ := (mapOf_eq_some_iff apartBefore).mp known
    have differs := others entry member _ List.mem_cons_self
    rw [equal] at differs
    cases differs
  have alone (other : Nat) (found : Matches functions filled key other) : other = address :=
    absurd found (missing other)
  have counted := Probing.count_update HashEntry.isPresent filled.table
    (.present (functions.hash key) key data) inside
  have countedDeleted := Probing.count_update HashEntry.isDeleted filled.table
    (.present (functions.hash key) key data) inside
  rw [result]
  refine ⟨sameIndex, searchable.store inside alone ⟨n, most, reached, ?_⟩, ?_, ?_, none, ?_⟩
  · intro m less free
    have taken := earlier m less
    rw [free] at taken
    cases taken
  · rw [List.length_append, List.length_singleton, ← present]
    rw [absent] at counted
    exact counted
  · rw [deleted] at countedDeleted
    exact Nat.eq_zero_of_add_eq_zero_right countedDeleted
  · rw [mapOf_append]
    exact represents.store inside alone fun taken => absurd (absent.symm.trans taken) nofun

theorem Filled.foldl {sizeIndex : Nat} {rest entries : List (Nat × Key × Data)}
    {filled : HashTable Key Data} (before : Filled functions sizeIndex entries filled)
    (hashed : ∀ entry ∈ rest, entry.1 = functions.hash entry.2.1)
    (room : (entries ++ rest).length ≤ (hashSizes.getD sizeIndex ⟨0, 0, 0⟩).size)
    (apart : (entries ++ rest).Pairwise
      fun entry later => functions.equals later.2.1 entry.2.1 = false) :
    Filled functions sizeIndex (entries ++ rest)
      (rest.foldl
        (fun filled entry => filled.insertRehash entry.1 entry.2.1 entry.2.2) filled) := by
  induction rest generalizing entries filled with
  | nil =>
      rw [List.append_nil]
      exact before
  | cons entry rest inductionHypothesis =>
      obtain ⟨hash, key, data⟩ := entry
      obtain rfl : hash = functions.hash key := hashed _ List.mem_cons_self
      have step : entries ++ (functions.hash key, key, data) :: rest =
          entries ++ [(functions.hash key, key, data)] ++ rest := by simp
      rw [step] at room apart ⊢
      have inside : entries.length < filled.size := by
        rw [size, row, before.sizeIndex]
        simp only [List.length_append, List.length_singleton] at room
        omega
      have next := before.insertRehash inside (List.pairwise_append.mp apart).1
      exact inductionHypothesis next
        (fun entry member => hashed entry (List.mem_cons_of_mem _ member))
        room apart

structure Stands (functions : KeyFunctions Key) (ht : HashTable Key Data)
    (map : Key → Option Data) : Prop where
  searchable : Searchable functions ht
  counted : Counted ht
  represents : Represents functions ht map

theorem Stands.rehash {map : Key → Option Data} (stands : Stands functions ht map)
    {newSizeIndex : Nat} (less : newSizeIndex < 27)
    (room : ht.entries ≤ (hashSizes.getD newSizeIndex ⟨0, 0, 0⟩).maxEntries) :
    Stands functions (ht.rehash newSizeIndex) map ∧
      (ht.rehash newSizeIndex).entries = ht.entries ∧
      (ht.rehash newSizeIndex).deletedEntries = 0 ∧
      (ht.rehash newSizeIndex).sizeIndex = newSizeIndex := by
  obtain ⟨searchable, counted, represents⟩ := stands
  unfold HashTable.rehash
  split
  next cleared =>
    -- as many entries are deleted as there may be entries at all
    rw [Bool.and_eq_true, decide_eq_true_iff, decide_eq_true_iff] at cleared
    obtain ⟨rfl, deleted⟩ := cleared
    have none : ht.entries = 0 := by
      have := counted.room
      omega
    have absent : ht.foreach = [] := by
      rw [← List.length_eq_zero_iff, length_foreach, ← counted.entries, none]
    have empty : Filled functions ht.sizeIndex [] ht.clearFast := filled_nil less
    refine ⟨⟨empty.searchable, ⟨empty.present.symm, empty.deleted.symm, Nat.zero_le _⟩, ?_⟩,
      none.symm,
      rfl, rfl⟩
    have same : map = mapOf functions [] := by
      funext key
      cases value : map key with
      | none => rfl
      | some data =>
          obtain ⟨address, inside, hash, entryKey, present, -⟩ := (represents key data).mp value
          have listed := mem_foreach.mpr ⟨address, inside, present⟩
          rw [absent] at listed
          cases listed
    rw [same]
    exact empty.represents
  next =>
    have known : ¬ newSizeIndex ≥ hashSizes.length :=
      Nat.not_le_of_lt (Nat.lt_of_lt_of_le less (by decide))
    rw [if_neg known]
    have usable := usable_hashSizes less
    have entries : ht.foreach.length = ht.entries := length_foreach.trans counted.entries.symm
    have hashed : ∀ entry ∈ ht.foreach, entry.1 = functions.hash entry.2.1 := by
      rintro ⟨hash, key, data⟩ member
      obtain ⟨address, inside, present⟩ := mem_foreach.mp member
      exact searchable.hashed inside present
    have most : ([] ++ ht.foreach).length ≤ (hashSizes.getD newSizeIndex ⟨0, 0, 0⟩).size := by
      rw [List.nil_append, entries]
      exact Nat.le_of_lt (Nat.lt_of_le_of_lt room usable.max)
    obtain ⟨sameIndex, refilled, present, deleted, none, stands⟩ :=
      (filled_nil less).foldl hashed most searchable.pairwise_foreach
    rw [List.nil_append] at present stands
    have same : map = mapOf functions ht.foreach := by
      funext key
      apply Option.ext
      intro data
      rw [represents key data, mapOf_eq_some_iff searchable.pairwise_foreach]
      constructor
      · rintro ⟨address, inside, hash, entryKey, stored, equal⟩
        exact ⟨_, mem_foreach.mpr ⟨address, inside, stored⟩, rfl, equal⟩
      · rintro ⟨⟨hash, entryKey, _⟩, member, rfl, equal⟩
        obtain ⟨address, inside, stored⟩ := mem_foreach.mp member
        exact ⟨address, inside, hash, entryKey, stored, equal⟩
    refine ⟨⟨⟨refilled.sizeIndex, refilled.hashed, refilled.unique, refilled.reached⟩,
      ⟨?_, none.trans deleted.symm, ?_⟩, ?_⟩, rfl, none, sameIndex⟩
    · exact entries.symm.trans present.symm
    · rw [row, sameIndex, none, Nat.add_zero]
      exact room
    · rw [same]
      exact stands

end Rehash

/-! ## Operations -/

section Operations

variable {map : Key → Option Data}

/-- Before an entry is claimed, there is room for one. -/
theorem Stands.makeRoom (stands : Stands functions ht map) (few : ht.entries < 2 ^ 30) :
    Stands functions ht.makeRoom map ∧ ht.makeRoom.entries = ht.entries ∧
      ht.makeRoom.entries + ht.makeRoom.deletedEntries < ht.makeRoom.row.maxEntries := by
  have less := stands.searchable.sizeIndex
  have room := stands.counted.room
  unfold HashTable.makeRoom
  split
  next full =>
    have notLast : ht.sizeIndex ≠ 26 := by
      intro last
      have largest : ht.row.maxEntries = 2 ^ 30 := by
        rw [row, last]
        rfl
      omega
    have grows : ht.row.maxEntries < (hashSizes.getD (ht.sizeIndex + 1) ⟨0, 0, 0⟩).maxEntries :=
      maxEntries_lt_succ ht.sizeIndex (by omega)
    obtain ⟨after, entries, deleted, index⟩ := stands.rehash
      (show ht.sizeIndex + 1 < 27 by omega) (by omega)
    refine ⟨after, entries, ?_⟩
    rw [entries, deleted, row, index]
    omega
  next notFull =>
    split
    next =>
      obtain ⟨after, entries, deleted, index⟩ := stands.rehash less (by unfold row at room; omega)
      refine ⟨after, entries, ?_⟩
      rw [entries, deleted, row, index]
      exact Nat.lt_of_not_le notFull
    next fits => exact ⟨stands, rfl, by omega⟩

/-- Storing a new entry at an available address. -/
theorem Stands.claim (stands : Stands functions ht map) {key : Key} {address : Nat} (data : Data)
    (missing : ∀ other, ¬ Matches functions ht key other)
    (available : Available ht (functions.hash key) address)
    (room : ht.entries + ht.deletedEntries < ht.row.maxEntries) :
    Stands functions
      (ht.withEntry address (.present (functions.hash key) key data) (ht.entries + 1)
        (if (ht.table address).isDeleted then ht.deletedEntries - 1 else ht.deletedEntries))
      (updated functions map key (some data)) := by
  obtain ⟨searchable, counted, represents⟩ := stands
  have inside := available.lt searchable.sizeIndex (functions.hash_lt key)
  obtain ⟨n, most, reached, absent, earlier⟩ := available
  have alone (other : Nat) (found : Matches functions ht key other) : other = address :=
    absurd found (missing other)
  have present := Probing.count_update HashEntry.isPresent ht.table
    (.present (functions.hash key) key data) inside
  have deleted := Probing.count_update HashEntry.isDeleted ht.table
    (.present (functions.hash key) key data) inside
  rw [absent, ← counted.entries] at present
  rw [← counted.deletedEntries] at deleted
  refine ⟨searchable.store inside alone ⟨n, most, reached, ?_⟩, ⟨present.symm, ?_, ?_⟩,
    represents.store inside alone fun taken => absurd (absent.symm.trans taken) Bool.false_ne_true⟩
  · intro m less free
    have taken := earlier m less
    rw [free] at taken
    cases taken
  · have exactly : (if (ht.table address).isDeleted then ht.deletedEntries - 1
        else ht.deletedEntries) = Probing.count HashEntry.isDeleted
          (Function.update ht.table address (.present (functions.hash key) key data)) ht.size := by
      simp only [HashEntry.isDeleted_present, Bool.false_eq_true, if_false, Nat.add_zero] at deleted
      split at deleted
      next was =>
        rw [if_pos was]
        omega
      next was =>
        rw [if_neg was]
        omega
    exact exactly
  · change ht.entries + 1 + (if (ht.table address).isDeleted then ht.deletedEntries - 1
      else ht.deletedEntries) ≤ ht.row.maxEntries
    split <;> omega

/-- Storing another entry for a key that has one. -/
theorem Stands.replace (stands : Stands functions ht map) {key : Key} {address : Nat} (data : Data)
    (found : Matches functions ht key address) :
    Stands functions
      (ht.withEntry address (.present (functions.hash key) key data) ht.entries ht.deletedEntries)
      (updated functions map key (some data)) := by
  obtain ⟨searchable, counted, represents⟩ := stands
  have alone (other : Nat) (again : Matches functions ht key other) : other = address :=
    searchable.unique again found
  obtain ⟨inside, hash, entryKey, entryData, stored, -⟩ := id found
  have present := Probing.count_update HashEntry.isPresent ht.table
    (.present (functions.hash key) key data) inside
  have deleted := Probing.count_update HashEntry.isDeleted ht.table
    (.present (functions.hash key) key data) inside
  rw [stored, ← counted.entries] at present
  rw [stored, ← counted.deletedEntries] at deleted
  refine ⟨searchable.store inside alone (searchable.reached found),
    ⟨(Nat.add_right_cancel present).symm, deleted.symm, counted.room⟩,
    represents.store inside alone fun _ => found⟩

theorem Stands.remove (stands : Stands functions ht map) {key : Key} {address : Nat}
    (found : Matches functions ht key address) :
    Stands functions (ht.remove address) (updated functions map key none) := by
  obtain ⟨searchable, counted, represents⟩ := stands
  obtain ⟨inside, hash, entryKey, entryData, stored, same⟩ := id found
  have here : (ht.remove address).table address = .deleted := Function.update_self _ _ _
  have elsewhere {other : Nat} (differs : other ≠ address) :
      (ht.remove address).table other = ht.table other := Function.update_of_ne differs _ _
  have before {sought : Key} {other : Nat}
      (again : Matches functions (ht.remove address) sought other) :
      other ≠ address ∧ Matches functions ht sought other := by
    obtain ⟨less, _, _, _, present, equal⟩ := again
    have differs : other ≠ address := by
      rintro rfl
      rw [here] at present
      cases present
    rw [elsewhere differs] at present
    exact ⟨differs, less, _, _, _, present, equal⟩
  have fewer := Probing.count_update HashEntry.isPresent ht.table .deleted inside
  have more := Probing.count_update HashEntry.isDeleted ht.table .deleted inside
  rw [stored, ← counted.entries] at fewer
  rw [stored, ← counted.deletedEntries] at more
  refine ⟨⟨searchable.sizeIndex, ?_, ?_, ?_⟩, ⟨?_, more.symm, ?_⟩, ?_⟩
  · intro other otherHash otherKey otherData less again
    have differs : other ≠ address := by
      rintro rfl
      rw [here] at again
      cases again
    exact searchable.hashed less ((elsewhere differs).symm.trans again)
  · intro sought first second one two
    exact searchable.unique (before one).2 (before two).2
  · intro sought other again
    obtain ⟨n, most, reached, taken⟩ := searchable.reached (before again).2
    refine ⟨n, most, reached, fun m less free => ?_⟩
    by_cases last : ht.hashAddress (functions.hash sought) m = address
    · have free' : (ht.remove address).table (ht.hashAddress (functions.hash sought) m) = .free :=
        free
      rw [last, here] at free'
      cases free'
    · exact taken m less ((elsewhere last).symm.trans free)
  · exact Nat.sub_eq_of_eq_add fewer.symm
  · have room := counted.room
    have some : 0 < ht.entries := Nat.lt_of_lt_of_eq (Nat.succ_pos _) fewer
    change ht.entries - 1 + (ht.deletedEntries + 1) ≤ ht.row.maxEntries
    omega
  · intro sought value
    unfold updated
    by_cases equal : functions.equals sought key = true
    · rw [if_pos equal]
      constructor
      · exact fun absurd => nomatch absurd
      · rintro ⟨other, less, _, _, again, equal'⟩
        obtain ⟨differs, again⟩ := before ⟨less, _, _, _, again, equal'⟩
        have moved : Matches functions ht sought address :=
          ⟨inside, _, _, _, stored, functions.equals_trans equal same⟩
        exact absurd (searchable.unique again moved) differs
    · rw [if_neg equal, represents sought value]
      constructor
      · rintro ⟨other, less, otherHash, otherKey, present, equal'⟩
        have differs : other ≠ address := by
          rintro rfl
          rw [stored] at present
          cases present
          exact equal (functions.equals_trans equal' (functions.equals_symm same))
        exact ⟨other, less, _, _, (elsewhere differs).trans present, equal'⟩
      · rintro ⟨other, less, otherHash, otherKey, present, equal'⟩
        obtain ⟨differs, -⟩ := before ⟨less, _, _, _, present, equal'⟩
        exact ⟨other, less, _, _, (elsewhere differs).symm.trans present, equal'⟩

/-- An insertion always finds an entry, which then holds the data. -/
theorem Stands.insert (stands : Stands functions ht map) (few : ht.entries < 2 ^ 30) (key : Key)
    (data : Data) :
    Stands functions (ht.insert functions key data).1 (updated functions map key (some data)) ∧
      ∃ address, (ht.insert functions key data).2 = some address ∧
        (ht.insert functions key data).1.table address =
          .present (functions.hash key) key data := by
  obtain ⟨stands, -, room⟩ := stands.makeRoom few
  have usable : ht.makeRoom.row.Usable := usable_hashSizes stands.searchable.sizeIndex
  have less : Probing.count HashEntry.isPresent ht.makeRoom.table ht.makeRoom.size <
      ht.makeRoom.size := by
    rw [← stands.counted.entries]
    exact Nat.lt_of_le_of_lt (by omega) usable.max
  have got := getEntry_spec stands.searchable key less
  have claimed {address : Nat} (missing : ∀ other, ¬ Matches functions ht.makeRoom key other)
      (available : Available ht.makeRoom (functions.hash key) address) :=
    stands.claim data missing available room
  unfold HashTable.insert hashTableInsert
  dsimp only
  cases result : ht.makeRoom.probeLoop (functions.hash key)
      (ht.makeRoom.visitGetEntry functions (functions.hash key) key) none with
  | error found =>
      rw [result] at got
      cases found with
      | inl address =>
          exact ⟨stands.replace data got, address, rfl, Function.update_self _ _ _⟩
      | inr available =>
          obtain ⟨missing, address, rfl, available⟩ := got
          exact ⟨claimed missing available, address, rfl, Function.update_self _ _ _⟩
  | ok available =>
      rw [result] at got
      obtain ⟨missing, address, rfl, available⟩ := got
      exact ⟨claimed missing available, address, rfl, Function.update_self _ _ _⟩

theorem Stands.removeKey (stands : Stands functions ht map) (key : Key) :
    Stands functions (ht.removeKey functions key) (updated functions map key none) := by
  have sought := search_spec stands.searchable key
  unfold HashTable.removeKey
  cases found : ht.search functions key with
  | some address =>
      rw [found] at sought
      exact stands.remove sought
  | none =>
      rw [found] at sought
      have same : updated functions map key none = map := by
        funext other
        unfold updated
        split
        next equal =>
          cases value : map other with
          | none => rfl
          | some data =>
              obtain ⟨address, inside, hash, entryKey, stored, equal'⟩ :=
                (stands.represents other data).mp value
              have here : Matches functions ht key address := ⟨inside, hash, entryKey, data, stored,
                functions.equals_trans (functions.equals_symm equal) equal'⟩
              exact absurd here (sought address)
        next => rfl
      rw [same]
      exact stands

theorem stands_empty {sizeIndex : Nat} (less : sizeIndex < 27) :
    Stands functions (⟨sizeIndex, fun _ => .free, 0, 0⟩ : HashTable Key Data) fun _ => none := by
  have empty :
      Filled functions sizeIndex [] (⟨sizeIndex, fun _ => .free, 0, 0⟩ : HashTable Key Data) :=
    filled_nil less
  exact ⟨empty.searchable, ⟨empty.present.symm, empty.deleted.symm, Nat.zero_le _⟩,
    empty.represents⟩

theorem Stands.lookup (stands : Stands functions ht map) (key : Key) :
    ht.lookup functions key = map key := by
  have sought := search_spec stands.searchable key
  unfold HashTable.lookup
  cases found : ht.search functions key with
  | some address =>
      rw [found] at sought
      obtain ⟨inside, hash, entryKey, data, stored, same⟩ := sought
      have known := (stands.represents key data).mpr ⟨address, inside, hash, entryKey, stored, same⟩
      simp only [stored, known]
  | none =>
      rw [found] at sought
      cases value : map key with
      | none => rfl
      | some data =>
          obtain ⟨address, inside, hash, entryKey, stored, same⟩ :=
            (stands.represents key data).mp value
          exact absurd ⟨inside, hash, entryKey, data, stored, same⟩ (sought address)

end Operations

/-! ## Runs -/

/-- A table and the map it stands for after some operations. From `2 ^ 30` entries on the table
would grow to the last of its sizes, for which hash addresses are computed with overflow. -/
inductive Run (functions : KeyFunctions Key) : HashTable Key Data → (Key → Option Data) → Prop
  | init : Run functions HashTable.init fun _ => none
  | insert {ht : HashTable Key Data} {map : Key → Option Data} (run : Run functions ht map)
      (few : ht.entries < 2 ^ 30) (key : Key) (data : Data) :
      Run functions (ht.insert functions key data).1 (updated functions map key (some data))
  | removeKey {ht : HashTable Key Data} {map : Key → Option Data} (run : Run functions ht map)
      (key : Key) : Run functions (ht.removeKey functions key) (updated functions map key none)
  | clear {ht : HashTable Key Data} {map : Key → Option Data} (run : Run functions ht map) :
      Run functions ht.clear fun _ => none

theorem Run.stands {map : Key → Option Data} (run : Run functions ht map) :
    Stands functions ht map := by
  induction run with
  | init => exact stands_empty (by decide)
  | insert _ few key data inductionHypothesis =>
      exact (inductionHypothesis.insert few key data).1
  | removeKey _ key inductionHypothesis => exact inductionHypothesis.removeKey key
  | clear _ inductionHypothesis => exact stands_empty inductionHypothesis.searchable.sizeIndex

/-- After any run, searches answer as the map does, the next insertion finds an entry and does not
touch other keys, and the iteration meets every key of the map once. -/
theorem run_correct {map : Key → Option Data} (run : Run functions ht map) :
    (∀ key, ht.lookup functions key = map key) ∧
      (ht.entries < 2 ^ 30 → ∀ key data,
        ∃ address, (ht.insert functions key data).2 = some address ∧
          (ht.insert functions key data).1.table address =
            .present (functions.hash key) key data) ∧
      ht.foreach.length = ht.entries ∧
      (ht.foreach.Pairwise fun entry later => functions.equals later.2.1 entry.2.1 = false) ∧
      ∀ key data, map key = some data ↔
        ∃ entry ∈ ht.foreach, entry.2.2 = data ∧ functions.equals key entry.2.1 = true := by
  have stands := run.stands
  refine ⟨stands.lookup, fun few key data => (stands.insert few key data).2,
    length_foreach.trans stands.counted.entries.symm, stands.searchable.pairwise_foreach, ?_⟩
  intro key data
  rw [stands.represents key data]
  constructor
  · rintro ⟨address, inside, hash, entryKey, stored, equal⟩
    exact ⟨_, mem_foreach.mpr ⟨address, inside, stored⟩, rfl, equal⟩
  · rintro ⟨⟨hash, entryKey, _⟩, member, rfl, equal⟩
    obtain ⟨address, inside, stored⟩ := mem_foreach.mp member
    exact ⟨address, inside, hash, entryKey, stored, equal⟩

/-- Numbers of 32 bits as keys, hashed to themselves. -/
def wordKeys : KeyFunctions (Fin (2 ^ 32)) where
  hash := Fin.val
  equals := fun key other => key == other
  hash_lt := Fin.isLt
  equals_refl := fun _ => beq_self_eq_true _
  equals_symm := fun same => beq_iff_eq.mpr (beq_iff_eq.mp same).symm
  equals_trans := fun same equal =>
    beq_iff_eq.mpr ((beq_iff_eq.mp same).trans (beq_iff_eq.mp equal))
  hash_eq := fun same => congrArg Fin.val (beq_iff_eq.mp same)

/-- Two keys with the same start address, the first of which is removed. -/
def collided : HashTable (Fin (2 ^ 32)) Nat :=
  (((HashTable.init.insert wordKeys 1 10).1.insert wordKeys 20 30).1).removeKey wordKeys 1

theorem run_correct_collided :
    collided.lookup wordKeys 20 = some 30 ∧ collided.lookup wordKeys 1 = none ∧
      collided.foreach.length = collided.entries := by
  have begins : Run wordKeys (HashTable.init : HashTable (Fin (2 ^ 32)) Nat) fun _ => none := .init
  have run : Run wordKeys collided _ :=
    ((begins.insert (by decide) 1 10).insert (by decide +kernel) 20 30).removeKey 1
  obtain ⟨lookups, -, length, -⟩ := run_correct run
  exact ⟨lookups 20, lookups 1, length⟩

end HashTable

end SpirvToDxil
