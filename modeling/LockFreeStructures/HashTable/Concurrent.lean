import LockFreeStructures.HashTable.Defs
import LockFreeStructures.Lib.Interleaving

/-!
# `HashTable.Concurrent` — the table of implicit producers, many threads at a time

Every access to `EntriesCount`, the resize flag, `MainHash` or a slot is a step; what a thread computes in
between belongs to the step before. A thread is named by its key, the only one it calls with. The tables are
numbered as they are published, and a new one is made by the step that publishes it: until then only its
maker can see it. A slot's second component is `none` as long as the value is the null of a new entry.
All capacities are powers of two, so the mask of an index is written as the remainder.
-/

namespace LockFreeStructures

namespace HashTable

namespace Concurrent

structure Node (K V : Type) extends HashNode K V where
  prev : Option ℕ

/-- `AllocateValueFunc` gives `none` for a null. -/
inductive Call (V : Type) where
  | get
  | set (v : V)
  | getOrAdd (v : V)
  | getOrAddByFunc (v : Option V)
  deriving DecidableEq

inductive Result (V : Type) where
  | got (v : Option V)
  | notGot
  | set
  | gotOrAdded (status : HashTableStatus) (v : Option V)
  deriving DecidableEq

structure Memory (K V : Type) where
  entriesCount : ℕ
  /-- `HashResizeInProgressFlag`, with the thread that set it -/
  resizing : Option K
  mainHash : ℕ
  nodes : ℕ → Node K V
  /-- the count each thread last obtained from `EntriesCount` -/
  tickets : K → Option ℕ
  /-- the calls of each thread that have returned, and what -/
  returns : K → List (Call V × Result V)

/-- Where a thread is. `main` and `cur` are its `CurrentMainHash` and `CurrentHash`, `d` the slots it has
    probed before. -/
inductive Pc (V : Type) where
  | idle
  /-- at the load of `MainHash` that starts a call -/
  | load (c : Call V)
  /-- in `InnerGetEntry`: at the load of a slot's key, at the load of its value, at the exchange of a slot of
      the newer table, at the store of the value there -/
  | find (c : Call V) (main cur d : ℕ)
  | readValue (c : Call V) (main cur i : ℕ)
  | promote (c : Call V) (main d : ℕ) (v : Option V)
  | promoteStore (c : Call V) (main i : ℕ) (v : Option V)
  /-- `InnerGetEntry` has returned a slot: at the access to its value -/
  | found (c : Call V) (main i : ℕ)
  /-- in `InnerAdd`: at the `fetch_add`, at the `test_and_set`, and with the flag set at the load, the store
      of `MainHash` and the `clear` -/
  | add (c : Call V) (v : V) (main : ℕ)
  | testAndSet (c : Call V) (v : V) (main newCount : ℕ)
  | resize (c : Call V) (v : V) (newCount : ℕ)
  | publish (c : Call V) (v : V) (main newCapacity newCount : ℕ)
  | clear (c : Call V) (v : V) (main newCount : ℕ)
  /-- at the load of a slot's key, at its exchange, at the store of the value -/
  | insert (c : Call V) (v : V) (main d : ℕ)
  | exchange (c : Call V) (v : V) (main d : ℕ)
  | store (c : Call V) (v : V) (main i : ℕ)
  /-- at the last load of `MainHash` -/
  | reload (c : Call V) (v : V) (newCount : ℕ)
  deriving DecidableEq

abbrev State (K V : Type) := Interleaving.State K (Memory K V) (Pc V)

variable {K V : Type}

def Pc.call : Pc V → Option (Call V)
  | .idle => none
  | .load c | .find c _ _ _ | .readValue c _ _ _ | .promote c _ _ _ | .promoteStore c _ _ _ | .found c _ _
  | .add c _ _ | .testAndSet c _ _ _ | .resize c _ _ | .publish c _ _ _ _ | .clear c _ _ _ | .insert c _ _ _
  | .exchange c _ _ _ | .store c _ _ _ | .reload c _ _ => some c

/-- The value that `InnerAdd` is to insert. -/
def Pc.adding : Pc V → Option V
  | .add _ v _ | .testAndSet _ v _ _ | .resize _ v _ | .publish _ v _ _ _ | .clear _ v _ _ | .insert _ v _ _
  | .exchange _ v _ _ | .store _ v _ _ | .reload _ v _ => some v
  | _ => none

/-- A slot that has the key, but not its value yet. -/
def Pc.pending : Pc V → Option (ℕ × ℕ)
  | .promoteStore _ main i _ => some (main, i)
  | .store _ _ main i => some (main, i)
  | _ => none

def Node.fill (i : ℕ) (k : K) (n : Node K V) : Node K V :=
  { n with first := Function.update n.first i (some k) }

def Node.store (i : ℕ) (v : Option V) (n : Node K V) : Node K V :=
  { n with second := Function.update n.second i v }

/-- A new `HashTable`, no thread in a call. -/
def fresh (initialHashSize : ℕ) : State K V where
  memory :=
    { entriesCount := 0, resizing := none, mainHash := 0
      nodes := fun _ => ⟨createNewHashNode initialHashSize, none⟩
      tickets := fun _ => none, returns := fun _ => [] }
  threads := fun _ => .idle

namespace Memory

/-- A successful exchange of a slot's key. -/
def fill (n i : ℕ) (k : K) (m : Memory K V) : Memory K V :=
  { m with nodes := Function.update m.nodes n ((m.nodes n).fill i k) }

def storeSecond (n i : ℕ) (v : Option V) (m : Memory K V) : Memory K V :=
  { m with nodes := Function.update m.nodes n ((m.nodes n).store i v) }

/-- `CreateNewHashNode`, `NewHash->Prev = CurrentMainHash` and the store of `MainHash`. -/
def publish (newCapacity main : ℕ) (m : Memory K V) : Memory K V :=
  { m with
    mainHash := m.mainHash + 1
    nodes := Function.update m.nodes (m.mainHash + 1) ⟨createNewHashNode newCapacity, some main⟩ }

variable [DecidableEq K]

def takeTicket (k : K) (m : Memory K V) : Memory K V :=
  { m with entriesCount := m.entriesCount + 1, tickets := Function.update m.tickets k (some m.entriesCount) }

/-- The call returns. -/
def finish (k : K) (c : Call V) (r : Result V) (m : Memory K V) : Memory K V × Pc V :=
  ({ m with returns := Function.update m.returns k (m.returns k ++ [(c, r)]) }, .idle)

end Memory

section Step

variable [DecidableEq K] (hash : K → ℕ) (w : ℕ) (k : K) (m : Memory K V)

/-- `InnerGetEntry` has returned null. -/
def notFound (c : Call V) (main : ℕ) : Memory K V × Pc V :=
  match c with
  | .get => m.finish k c .notGot
  | .set v => (m, .add c v main)
  | .getOrAdd v => (m, .add c v main)
  | .getOrAddByFunc (some v) => (m, .add c v main)
  | .getOrAddByFunc none => m.finish k c (.gotOrAdded .failed none)

/-- `InnerGetEntry` has returned a slot. -/
def useEntry (c : Call V) (main i : ℕ) : Memory K V × Pc V :=
  let v := (m.nodes main).second i
  match c with
  | .get => m.finish k c (.got v)
  | .set v => (m.storeSecond main i (some v)).finish k c .set
  | .getOrAdd _ => m.finish k c (.gotOrAdded .getSuccess v)
  | .getOrAddByFunc _ => m.finish k c (.gotOrAdded .getSuccess v)

/-- `InnerAdd` has returned true. -/
def added (c : Call V) (v : V) : Memory K V × Pc V :=
  match c with
  | .set _ => m.finish k c .set
  | _ => m.finish k c (.gotOrAdded .addSuccess (some v))

/-- The second half of the loop of `InnerAdd`: is there enough space? -/
def checkSpace (c : Call V) (v : V) (main newCount : ℕ) : Pc V :=
  if newCount < (m.nodes main).capacity / 2 + (m.nodes main).capacity / 4 then .insert c v main 0
  else .reload c v newCount

/-- The start of the loop of `InnerAdd`. -/
def addLoop (c : Call V) (v : V) (main newCount : ℕ) : Pc V :=
  if (m.nodes main).capacity / 2 ≤ newCount then .testAndSet c v main newCount else checkSpace m c v main newCount

/-- The next access of thread `k`. -/
def access : Pc V → Option (Memory K V × Pc V)
  | .idle => none
  | .load c => some (m, .find c m.mainHash m.mainHash 0)
  | .find c main cur d =>
      let i := (hash k + d) % (m.nodes cur).capacity
      if (m.nodes cur).first i = some k then some (m, .readValue c main cur i)
      else if (m.nodes cur).first i = none then
        match (m.nodes cur).prev with
        | some prev => some (m, .find c main prev 0)
        | none => some (notFound k m c main)
      else some (m, .find c main cur (d + 1))
  | .readValue c main cur i =>
      if cur = main then some (m, .found c main i) else some (m, .promote c main 0 ((m.nodes cur).second i))
  | .promote c main d v =>
      let i := (hash k + d) % (m.nodes main).capacity
      if (m.nodes main).first i = none then some (m.fill main i k, .promoteStore c main i v)
      else some (m, .promote c main (d + 1) v)
  | .promoteStore c main i v => some (m.storeSecond main i v, .found c main i)
  | .found c main i => some (useEntry k m c main i)
  | .add c v main => some (m.takeTicket k, addLoop m c v main m.entriesCount)
  | .testAndSet c v main newCount =>
      if m.resizing = none then some ({ m with resizing := some k }, .resize c v newCount)
      else some (m, checkSpace m c v main newCount)
  | .resize c v newCount =>
      let main := m.mainHash
      if newCount < (m.nodes main).capacity / 2 then some (m, .clear c v main newCount)
      else
        let newCapacity := (m.nodes main).capacity * 2
        (shiftCount w newCapacity (w + 1) newCount).map fun newCount => (m, .publish c v main newCapacity newCount)
  | .publish c v main newCapacity newCount =>
      some (m.publish newCapacity main, .clear c v (m.mainHash + 1) newCount)
  | .clear c v main newCount => some ({ m with resizing := none }, checkSpace m c v main newCount)
  | .insert c v main d =>
      if (m.nodes main).first ((hash k + d) % (m.nodes main).capacity) = none then some (m, .exchange c v main d)
      else some (m, .insert c v main (d + 1))
  | .exchange c v main d =>
      let i := (hash k + d) % (m.nodes main).capacity
      if (m.nodes main).first i = none then some (m.fill main i k, .store c v main i)
      else some (m, .insert c v main (d + 1))
  | .store c v main i => some (added k (m.storeSecond main i (some v)) c v)
  | .reload c v newCount => some (m, addLoop m c v m.mainHash newCount)

end Step

inductive Act (V : Type) where
  | call (c : Call V)
  | access
  /-- an allocation of `CreateNewHashNode` throws -/
  | throws
  deriving DecidableEq

variable [DecidableEq K]

/-- What thread `k` may do. -/
inductive ThreadStep (hash : K → ℕ) (w : ℕ) (k : K) : Memory K V × Pc V → Act V → Memory K V × Pc V → Prop
  | call {m : Memory K V} (c : Call V) : ThreadStep hash w k (m, .idle) (.call c) (m, .load c)
  | access {m : Memory K V} {pc : Pc V} {r : Memory K V × Pc V} (h : Concurrent.access hash w k m pc = some r) :
      ThreadStep hash w k (m, pc) .access r
  | throws {m : Memory K V} {c : Call V} {v : V} {main newCapacity newCount : ℕ} :
      ThreadStep hash w k (m, .publish c v main newCapacity newCount) .throws (m, .idle)

/-- What it does then. -/
def threadStep (hash : K → ℕ) (w : ℕ) (k : K) : Act V → Memory K V × Pc V → Option (Memory K V × Pc V)
  | .call c, (m, .idle) => some (m, .load c)
  | .access, (m, pc) => Concurrent.access hash w k m pc
  | .throws, (m, .publish _ _ _ _ _) => some (m, .idle)
  | _, _ => none

theorem ThreadStep.of_threadStep {hash : K → ℕ} {w : ℕ} {k : K} {a : Act V} {r r' : Memory K V × Pc V}
    (h : threadStep hash w k a r = some r') : ThreadStep hash w k r a r' := by
  unfold threadStep at h
  split at h
  · cases h
    exact .call _
  · exact .access h
  · cases h
    exact .throws
  · cases h

/-- Any thread may go on. -/
abbrev Step (hash : K → ℕ) (w : ℕ) : State K V → K × Act V → State K V → Prop :=
  Interleaving.Step (ThreadStep hash w)

end Concurrent

end HashTable

end LockFreeStructures
