import Mathlib.Algebra.Group.Nat.Defs
import LockFreeStructures.Lib.MaskedProbing

/-!
# `HashTable.Defs` — the table of implicit producers, one call at a time

The tables form a chain, the newest first; only the newest is written. `K` are the valid keys: a slot whose
first component is `none` holds `INVALID_KEY`. The second component is `none` until a value is stored. Counts
and capacities are natural numbers; only the doubling of `NewCount`, which ends by overflow, is done in
words of `w` bits. A result `none` is a loop that does not end, or a value read that was never stored.
-/

namespace LockFreeStructures

inductive HashTableStatus where
  | getSuccess
  | addSuccess
  | failed
  deriving DecidableEq, Repr

structure HashTable.HashNode (K V : Type) where
  capacity : ℕ
  first : ℕ → Option K
  second : ℕ → Option V

/-- `EntriesCount`, and `MainHash` with its chain of `Prev` pointers. -/
structure HashTable (K V : Type) where
  entriesCount : ℕ
  mainHash : HashTable.HashNode K V
  prev : List (HashTable.HashNode K V)

namespace HashTable

variable {K V : Type}

/-- `CreateNewHashNode` -/
def createNewHashNode (capacity : ℕ) : HashNode K V := ⟨capacity, fun _ => none, fun _ => none⟩

/-- `HashTable` with `INITIAL_HASH_SIZE` slots. -/
def fresh (initialHashSize : ℕ) : HashTable K V := ⟨0, createNewHashNode initialHashSize, []⟩

namespace HashNode

/-- A key and its value go into a slot. -/
def put (i : ℕ) (k : K) (v : V) (n : HashNode K V) : HashNode K V :=
  { n with first := Function.update n.first i (some k), second := Function.update n.second i (some v) }

def storeSecond (i : ℕ) (v : V) (n : HashNode K V) : HashNode K V :=
  { n with second := Function.update n.second i (some v) }

/-- `Index &= Capacity - 1`, the test, `++Index`. A probe that has made as many steps as there are slots has been to
    all it gets to. -/
def probeSlots (stop : ℕ → Bool) (hashId : ℕ) (n : HashNode K V) : Option ℕ :=
  probeMask stop (n.capacity - 1) n.capacity hashId

/-- The loops that fill the first free slot of a probe path. -/
def addEntry (hashId : ℕ) (k : K) (v : V) (n : HashNode K V) : Option (ℕ × HashNode K V) :=
  (n.probeSlots (fun i => (n.first i).isNone) hashId).map fun i => (i, n.put i k v)

variable [DecidableEq K]

/-- The loop that looks for a key: its slot, or none if a free slot comes first. -/
def findEntry (hashId : ℕ) (k : K) (n : HashNode K V) : Option (Option ℕ) :=
  (n.probeSlots (fun i => n.first i = none ∨ n.first i = some k) hashId).map fun i =>
    if n.first i = some k then some i else none

end HashNode

section Operations

variable [DecidableEq K] (hash : K → ℕ) (w : ℕ)

/-- The search of `InnerGetEntry` through the older tables. Gives the value found. -/
def findPrev (k : K) : List (HashNode K V) → Option (Option V)
  | [] => some none
  | n :: prev => do
      match ← n.findEntry (hash k) k with
      | some i => (n.second i).map some
      | none => findPrev k prev

/-- `InnerGetEntry`: the slot of the key in the newest table, where an entry of an older one is copied to. -/
def innerGetEntry (k : K) (t : HashTable K V) : Option (Option ℕ × HashTable K V) := do
  match ← t.mainHash.findEntry (hash k) k with
  | some i => some (some i, t)
  | none =>
      match ← findPrev hash k t.prev with
      | none => some (none, t)
      | some v => do
          let (i, n) ← t.mainHash.addEntry (hash k) k v
          some (some i, { t with mainHash := n })

/-- `while ( NewCount >= NewCapacity >> 1 ) NewCount <<= 1;` -/
def shiftCount (newCapacity : ℕ) : ℕ → ℕ → Option ℕ
  | 0, _ => none
  | fuel + 1, newCount =>
      if newCapacity / 2 ≤ newCount then shiftCount newCapacity fuel (newCount * 2 % 2 ^ w) else some newCount

/-- The part of `InnerAdd`'s loop that makes a new table if half of the newest is used. Gives the count it goes
    on with. -/
def resize (newCount : ℕ) (t : HashTable K V) : Option (ℕ × HashTable K V) :=
  if t.mainHash.capacity / 2 ≤ newCount then do
    let newCapacity := t.mainHash.capacity * 2
    let newCount ← shiftCount w newCapacity (w + 1) newCount
    some (newCount, { t with mainHash := createNewHashNode newCapacity, prev := t.mainHash :: t.prev })
  else some (newCount, t)

/-- The loop of `InnerAdd`. -/
def addLoop (k : K) (v : V) : ℕ → ℕ → HashTable K V → Option (HashTable K V)
  | 0, _, _ => none
  | fuel + 1, newCount, t => do
      let (newCount, t) ← t.resize w newCount
      if newCount < t.mainHash.capacity / 2 + t.mainHash.capacity / 4 then
        let (_, n) ← t.mainHash.addEntry (hash k) k v
        some { t with mainHash := n }
      else addLoop k v fuel newCount t

/-- `InnerAdd`. Run by itself it goes through its loop once. -/
def innerAdd (k : K) (v : V) (t : HashTable K V) : Option (HashTable K V) :=
  addLoop hash w k v 1 t.entriesCount { t with entriesCount := t.entriesCount + 1 }

/-- `Get`: the value, if there is one. -/
def get (k : K) (t : HashTable K V) : Option (Option V × HashTable K V) := do
  let (i, t) ← t.innerGetEntry hash k
  match i with
  | none => some (none, t)
  | some i => (t.mainHash.second i).map fun v => (some v, t)

/-- `Set` -/
def set (k : K) (v : V) (t : HashTable K V) : Option (Bool × HashTable K V) := do
  let (i, t) ← t.innerGetEntry hash k
  match i with
  | some i => some (true, { t with mainHash := t.mainHash.storeSecond i v })
  | none => do
      let t ← t.innerAdd hash w k v
      some (true, t)

/-- `GetOrAdd`: the status and the value. -/
def getOrAdd (k : K) (v : V) (t : HashTable K V) : Option ((HashTableStatus × V) × HashTable K V) := do
  let (i, t) ← t.innerGetEntry hash k
  match i with
  | some i => (t.mainHash.second i).map fun v => ((.getSuccess, v), t)
  | none => do
      let t ← t.innerAdd hash w k v
      some ((.addSuccess, v), t)

/-- `GetSize` -/
def getSize (t : HashTable K V) : ℕ := t.entriesCount

/-! ## Runs -/

inductive Call (K V : Type) where
  | get (k : K)
  | set (k : K) (v : V)
  | getOrAdd (k : K) (v : V)

inductive Result (V : Type) where
  | got (v : Option V)
  | set (ok : Bool)
  | gotOrAdded (status : HashTableStatus) (v : V)
  deriving DecidableEq, Repr

def exec (c : Call K V) (t : HashTable K V) : Option (Result V × HashTable K V) :=
  match c with
  | .get k => (t.get hash k).map fun (v, t) => (.got v, t)
  | .set k v => (t.set hash w k v).map fun (ok, t) => (.set ok, t)
  | .getOrAdd k v => (t.getOrAdd hash w k v).map fun (r, t) => (.gotOrAdded r.1 r.2, t)

/-- The calls one after another, each with what it gave and `GetSize()` after it. -/
def run : List (Call K V) → HashTable K V → Option (List (Result V × ℕ) × HashTable K V)
  | [], t => some ([], t)
  | c :: cs, t => do
      let (r, t) ← t.exec hash w c
      let n := t.getSize
      let (rs, t) ← run cs t
      some ((r, n) :: rs, t)

end Operations

end HashTable

end LockFreeStructures
