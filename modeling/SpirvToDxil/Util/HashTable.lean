import SpirvToDxil.Util.FastUrem
import SpirvToDxil.Util.Probing

/-!
# Hash tables

`util/hash_table.c`: open addressing with double hashing. Removed entries keep their place until the
table is rehashed. Allocations are taken to succeed.
-/

namespace SpirvToDxil

/-- A row of `hash_sizes`. -/
structure HashSize where
  maxEntries : Nat
  size : Nat
  rehash : Nat
  deriving DecidableEq, Repr

namespace HashSize

def sizeMagic (row : HashSize) : Nat := remainderMagic row.size

def rehashMagic (row : HashSize) : Nat := remainderMagic row.rehash

end HashSize

def hashSizes : List HashSize :=
  [⟨16, 19, 17⟩, ⟨32, 43, 41⟩, ⟨64, 73, 71⟩, ⟨128, 151, 149⟩, ⟨256, 283, 281⟩, ⟨512, 571, 569⟩,
    ⟨1024, 1153, 1151⟩, ⟨2048, 2269, 2267⟩, ⟨4096, 4519, 4517⟩, ⟨8192, 9013, 9011⟩,
    ⟨16384, 18043, 18041⟩, ⟨32768, 36109, 36107⟩, ⟨65536, 72091, 72089⟩, ⟨131072, 144409, 144407⟩,
    ⟨262144, 288361, 288359⟩, ⟨524288, 576883, 576881⟩, ⟨1048576, 1153459, 1153457⟩,
    ⟨2097152, 2307163, 2307161⟩, ⟨4194304, 4613893, 4613891⟩, ⟨8388608, 9227641, 9227639⟩,
    ⟨16777216, 18455029, 18455027⟩, ⟨33554432, 36911011, 36911009⟩, ⟨67108864, 73819861, 73819859⟩,
    ⟨134217728, 147639589, 147639587⟩, ⟨268435456, 295279081, 295279079⟩,
    ⟨536870912, 590559793, 590559791⟩, ⟨1073741824, 1181116273, 1181116271⟩,
    ⟨2147483648, 2362232233, 2362232231⟩]

/-- `key_hash_function` and `key_equals_function`, as they are meant to be. -/
structure KeyFunctions (Key : Type) where
  hash : Key → Nat
  equals : Key → Key → Bool
  hash_lt (key : Key) : hash key < 2 ^ 32
  equals_refl (key : Key) : equals key key = true
  equals_symm {key other : Key} : equals key other = true → equals other key = true
  equals_trans {key other third : Key} :
    equals key other = true → equals other third = true → equals key third = true
  hash_eq {key other : Key} : equals key other = true → hash key = hash other

/-- `struct hash_entry` by its bits `present` and `deleted`. -/
inductive HashEntry (Key Data : Type) where
  | free
  | deleted
  | present (hash : Nat) (key : Key) (data : Data)
  deriving DecidableEq, Repr

namespace HashEntry

variable {Key Data : Type}

def isPresent : HashEntry Key Data → Bool
  | .present .. => true
  | _ => false

def isDeleted : HashEntry Key Data → Bool
  | .deleted => true
  | _ => false

@[simp] theorem isPresent_present (hash : Nat) (key : Key) (data : Data) :
    (HashEntry.present hash key data).isPresent = true := rfl

@[simp] theorem isDeleted_present (hash : Nat) (key : Key) (data : Data) :
    (HashEntry.present hash key data).isDeleted = false := rfl

end HashEntry

/-- `struct hash_table`, whose sizes and magic numbers are those of the row `sizeIndex`. -/
structure HashTable (Key Data : Type) where
  sizeIndex : Nat
  table : Nat → HashEntry Key Data
  entries : Nat
  deletedEntries : Nat

namespace HashTable

variable {Key Data : Type} (functions : KeyFunctions Key) (ht : HashTable Key Data)

def row : HashSize := hashSizes.getD ht.sizeIndex ⟨0, 0, 0⟩

def size : Nat := ht.row.size

def init : HashTable Key Data := ⟨0, fun _ => .free, 0, 0⟩

def startHashAddress (hash : Nat) : Nat := fastUrem32 hash ht.size ht.row.sizeMagic

def doubleHash (hash : Nat) : Nat := 1 + fastUrem32 hash ht.row.rehash ht.row.rehashMagic

/-- The step of the loops from one hash address to the next, on 32-bit numbers. -/
def nextHashAddress (hash address : Nat) : Nat :=
  let next := (address + ht.doubleHash hash) % 2 ^ 32
  if next ≥ ht.size then next - ht.size else next

/-- The loop over the hash addresses of a hash. -/
def probeLoop {Result State : Type} (hash : Nat) (visit : Nat → State → Except Result State)
    (state : State) : Except Result State :=
  Probing.search (ht.nextHashAddress hash) (ht.startHashAddress hash) visit ht.size
    (ht.startHashAddress hash) state

/-- The loop body of `hash_table_search`: an address, or nothing. -/
def visitSearch (hash : Nat) (key : Key) (address : Nat) (_ : Unit) :
    Except (Option Nat) Unit :=
  match ht.table address with
  | .free => .error none
  | .deleted => .ok ()
  | .present entryHash entryKey _ =>
    if entryHash = hash && functions.equals key entryKey then .error (some address) else .ok ()

/-- `hash_table_search`: the address of the entry. -/
def hashTableSearch (hash : Nat) (key : Key) : Option Nat :=
  match ht.probeLoop hash (ht.visitSearch functions hash key) () with
  | .error found => found
  | .ok _ => none

/-- `_mesa_hash_table_search`. -/
def search (key : Key) : Option Nat := ht.hashTableSearch functions (functions.hash key) key

def lookup (key : Key) : Option Data :=
  match ht.search functions key with
  | none => none
  | some address =>
    match ht.table address with
    | .present _ _ data => some data
    | _ => none

/-- `hash_table_foreach`: the present entries in the order of the table. -/
def foreach : List (Nat × Key × Data) :=
  (List.range ht.size).filterMap fun address =>
    match ht.table address with
    | .present hash key data => some (hash, key, data)
    | _ => none

def clearFast : HashTable Key Data := ⟨ht.sizeIndex, fun _ => .free, 0, 0⟩

/-- The loop body of `hash_table_insert_rehash`. -/
def visitInsertRehash (address : Nat) (_ : Unit) : Except Nat Unit :=
  if (ht.table address).isPresent then .ok () else .error address

/-- `hash_table_insert_rehash`, whose loop has no end but an entry that is not present. -/
def insertRehash (hash : Nat) (key : Key) (data : Data) : HashTable Key Data :=
  match ht.probeLoop hash ht.visitInsertRehash () with
  | .error address =>
    { ht with table := Function.update ht.table address (.present hash key data) }
  | .ok _ => ht

def rehash (newSizeIndex : Nat) : HashTable Key Data :=
  if ht.sizeIndex = newSizeIndex && ht.deletedEntries = ht.row.maxEntries then ht.clearFast
  else if newSizeIndex ≥ hashSizes.length then ht
  else
    let fresh : HashTable Key Data := ⟨newSizeIndex, fun _ => .free, 0, 0⟩
    let filled := ht.foreach.foldl
      (fun filled entry => filled.insertRehash entry.1 entry.2.1 entry.2.2) fresh
    { filled with entries := ht.entries }

/-- The loop body of `hash_table_get_entry`: the entry of the key, or the first available entry. -/
def visitGetEntry (hash : Nat) (key : Key) (address : Nat) (available : Option Nat) :
    Except (Nat ⊕ Option Nat) (Option Nat) :=
  match ht.table address with
  | .free => .error (.inr (available.or (some address)))
  | .deleted => .ok (available.or (some address))
  | .present entryHash entryKey _ =>
    if entryHash = hash && functions.equals key entryKey then .error (.inl address)
    else .ok available

/-- The growing and rehashing with which `hash_table_get_entry` begins. -/
def makeRoom : HashTable Key Data :=
  if ht.entries ≥ ht.row.maxEntries then ht.rehash (ht.sizeIndex + 1)
  else if ht.deletedEntries + ht.entries ≥ ht.row.maxEntries then ht.rehash ht.sizeIndex
  else ht

/-- `hash_table_insert` with `hash_table_get_entry` in it: the table and the address of the
entry. -/
def hashTableInsert (hash : Nat) (key : Key) (data : Data) : HashTable Key Data × Option Nat :=
  let ht := ht.makeRoom
  let store (address : Nat) : Nat → HashEntry Key Data :=
    Function.update ht.table address (.present hash key data)
  let claim : Option Nat → HashTable Key Data × Option Nat
    | none => (ht, none)
    | some address =>
      let deletedEntries :=
        if (ht.table address).isDeleted then ht.deletedEntries - 1 else ht.deletedEntries
      (⟨ht.sizeIndex, store address, ht.entries + 1, deletedEntries⟩, some address)
  match ht.probeLoop hash (ht.visitGetEntry functions hash key) none with
  | .error (.inl address) => ({ ht with table := store address }, some address)
  | .error (.inr available) => claim available
  | .ok available => claim available

/-- `_mesa_hash_table_insert`. -/
def insert (key : Key) (data : Data) : HashTable Key Data × Option Nat :=
  ht.hashTableInsert functions (functions.hash key) key data

def remove (address : Nat) : HashTable Key Data :=
  ⟨ht.sizeIndex, Function.update ht.table address .deleted, ht.entries - 1, ht.deletedEntries + 1⟩

def removeKey (key : Key) : HashTable Key Data :=
  match ht.search functions key with
  | none => ht
  | some address => ht.remove address

def clear : HashTable Key Data := ht.clearFast

end HashTable

end SpirvToDxil
