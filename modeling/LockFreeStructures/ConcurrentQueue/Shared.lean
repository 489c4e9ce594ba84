import LockFreeStructures.ConcurrentQueue.Defs
import LockFreeStructures.Lib.Interleaving

/-!
# `ConcurrentQueue.Shared` — the producer list between threads

Threads make and destroy producer tokens, get their implicit producers, go over the list and dequeue with a consumer
token. Every access to `ProducerListsHead`, `ProducerCount`, the two consumer counters, a node's `Inactive` or its `Next`
is a step; a dequeue from one producer is a step too, of which only the outcome matters here. A thread has one token of
each kind: one that has several is several threads.

`none` is undefined behaviour: a null pointer followed, or a division by zero.
-/

namespace LockFreeStructures

namespace SharedProducers

open ConcurrentQueue

/-! ## The memory -/

structure Memory (T : Type) where
  producerListsHead : Option ℕ
  producerCount : ℕ
  globalExplicitConsumerOffset : ℕ
  nextExplicitConsumerId : ℕ
  next : ℕ → Option ℕ
  inactive : ℕ → Bool
  type : ℕ → ProducerType
  /-- how many nodes were made -/
  nodeCount : ℕ
  /-- the nodes that were pushed, the latest first -/
  added : List ℕ
  /-- the nodes that are counted, but not pushed yet -/
  pushing : List ℕ
  /-- the thread that a node was given to -/
  user : ℕ → Option T

/-- Where a thread is. -/
inductive Pc where
  | idle
  /-- in `GetProducerListNode`: at the load of the head, at the load of a node's `Inactive`, at its exchange, at the load
      of `Next` -/
  | loadHead (type : ProducerType)
  | loadInactive (type : ProducerType) (node : ℕ)
  | exchangeInactive (type : ProducerType) (node : ℕ)
  | loadNext (type : ProducerType) (node : ℕ)
  /-- in `AddProducer` -/
  | countProducer (node : ℕ)
  | loadListsHead (node : ℕ)
  | storeNext (node : ℕ) (head : Option ℕ)
  | exchangeHead (node : ℕ) (head : Option ℕ)
  /-- in `~ProducerToken` -/
  | storeInactive (node : ℕ)
  /-- in the constructor of a consumer token -/
  | fetchConsumerId
  /-- in `TryDequeue( ConsumerToken& )`: at the load of the global offset, in `UpdateProducerForConsumer`, at the dequeue
      from `CurrentProducer`, at the rotation -/
  | checkOffset
  | updateHead
  | updateCount (head : Option ℕ)
  | updateOffset (head : Option ℕ) (producerCount : ℕ)
  | firstWalk (head : Option ℕ) (producerCount globalOffset left : ℕ) (desired : Option ℕ)
  | secondWalk (head : Option ℕ) (globalOffset left : ℕ) (desired : Option ℕ)
  | dequeueCurrent
  | rotate
  /-- at the load of the head, at the load of `Next` and at the dequeue from the next producer; `seen` are the ones tried
      and `list` the producers from the head on, as it was loaded -/
  | roundHead
  | roundNext (head : Option ℕ) (node : ℕ) (seen list : List ℕ)
  | roundVisit (head : Option ℕ) (node : ℕ) (seen list : List ℕ)
  /-- in `ForEachProducer`, with the same -/
  | scanHead
  | scanVisit (node : ℕ) (seen list : List ℕ)
  | scanNext (node : ℕ) (seen list : List ℕ)

structure Local where
  /-- the node of the producer token -/
  producerNode : Option ℕ
  /-- the node of the thread's implicit producer -/
  implicitProducer : Option ℕ
  token : ConsumerToken
  pc : Pc

inductive Act where
  | getProducerToken
  | destroyProducerToken
  | getOrAddImplicitProducer
  | getConsumerToken
  | tryDequeueToken
  | forEachProducer
  /-- `stop` is what a call on a producer says: an element was dequeued, or the scan has seen enough; at a weak exchange
      it says that it fails for no reason -/
  | access (stop : Bool)

variable {T : Type}

namespace Local

def goto (pc : Pc) (l : Local) : Local := { l with pc := pc }

/-- `GetProducerListNode` returns. -/
def give (type : ProducerType) (node : ℕ) (l : Local) : Local :=
  match type with
  | .explicit => { l with producerNode := some node, pc := .idle }
  | .implicit => { l with implicitProducer := some node, pc := .idle }

end Local

namespace Memory

/-- `CreateProducerListNode` -/
def create (t : T) (type : ProducerType) (m : Memory T) : Memory T :=
  { m with
    next := Function.update m.next m.nodeCount none
    inactive := Function.update m.inactive m.nodeCount false
    type := Function.update m.type m.nodeCount type
    nodeCount := m.nodeCount + 1
    user := Function.update m.user m.nodeCount (some t) }

def setInactive (node : ℕ) (inactive : Bool) (user : Option T) (m : Memory T) : Memory T :=
  { m with inactive := Function.update m.inactive node inactive, user := Function.update m.user node user }

def setNext (node : ℕ) (next : Option ℕ) (m : Memory T) : Memory T := { m with next := Function.update m.next node next }

/-- The exchange of the head has succeeded. -/
def push (node : ℕ) (m : Memory T) : Memory T :=
  { m with producerListsHead := some node, added := node :: m.added, pushing := m.pushing.erase node }

/-- No producers. -/
def fresh : Memory T := ⟨none, 0, 0, 0, fun _ => none, fun _ => false, fun _ => .explicit, 0, [], [], fun _ => none⟩

end Memory

/-! ## The accesses -/

section Accesses

variable (t : T) (stop : Bool) (m : Memory T) (l : Local)

/-- `GetProducerListNode` looks at the next node; after the last one it makes a new one. -/
def findFrom (type : ProducerType) : Option ℕ → Memory T × Local
  | some node => (m, l.goto (.loadInactive type node))
  | none => (m.create t type, l.goto (.countProducer m.nodeCount))

/-- The second loop of `UpdateProducerForConsumer`, at its start. -/
def startSecondWalk (head : Option ℕ) (producerCount globalOffset : ℕ) (desired : Option ℕ) : Pc :=
  let delta := Word.sub 32 globalOffset l.token.lastKnownGlobalOffset
  .secondWalk head globalOffset (if producerCount ≤ delta then delta % producerCount else delta) desired

/-- The next access of thread `t`; `std::size_t` has `w` bits. -/
def access (w : ℕ) : Option (Memory T × Local) :=
  match l.pc with
  | .idle => none
  | .loadHead type => some (findFrom t m l type m.producerListsHead)
  | .loadInactive type node =>
      if m.inactive node = true ∧ m.type node = type then some (m, l.goto (.exchangeInactive type node))
      else some (m, l.goto (.loadNext type node))
  | .exchangeInactive type node =>
      if m.inactive node = true then some (m.setInactive node false (some t), l.give type node)
      else some (m, l.goto (.loadNext type node))
  | .loadNext type node => some (findFrom t m l type (m.next node))
  | .countProducer node =>
      some ({ m with producerCount := Word.add 32 m.producerCount 1, pushing := node :: m.pushing },
        l.goto (.loadListsHead node))
  | .loadListsHead node => some (m, l.goto (.storeNext node m.producerListsHead))
  | .storeNext node head => some (m.setNext node head, l.goto (.exchangeHead node head))
  | .exchangeHead node head =>
      if m.producerListsHead = head ∧ stop = false then some (m.push node, l.give (m.type node) node)
      else some (m, l.goto (.storeNext node m.producerListsHead))
  | .storeInactive node => some (m.setInactive node true none, { l with producerNode := none, pc := .idle })
  | .fetchConsumerId =>
      some ({ m with nextExplicitConsumerId := Word.add 32 m.nextExplicitConsumerId 1 },
        { l with token := .new m.nextExplicitConsumerId, pc := .idle })
  | .checkOffset =>
      if l.token.desiredProducer = none ∨ l.token.lastKnownGlobalOffset ≠ m.globalExplicitConsumerOffset then
        some (m, l.goto .updateHead)
      else some (m, l.goto .dequeueCurrent)
  | .updateHead =>
      if l.token.desiredProducer = none ∧ m.producerListsHead = none then some (m, l.goto .idle)
      else some (m, l.goto (.updateCount m.producerListsHead))
  | .updateCount head => some (m, l.goto (.updateOffset head m.producerCount))
  | .updateOffset head producerCount =>
      if producerCount = 0 then none
      else
        match l.token.desiredProducer with
        | none =>
            some (m, l.goto (.firstWalk head producerCount m.globalExplicitConsumerOffset
              (l.token.initialOffset % producerCount) head))
        | some p => some (m, l.goto (startSecondWalk l head producerCount m.globalExplicitConsumerOffset (some p)))
  | .firstWalk head producerCount globalOffset left desired =>
      if left = 0 then some (m, l.goto (startSecondWalk l head producerCount globalOffset desired))
      else desired.map fun p => (m, l.goto (.firstWalk head producerCount globalOffset (left - 1) ((m.next p).or head)))
  | .secondWalk head globalOffset left desired =>
      if left = 0 then
        some (m, { l with
          token := { l.token with
            desiredProducer := desired, lastKnownGlobalOffset := globalOffset, currentProducer := desired
            itemsConsumed := 0 }
          pc := .dequeueCurrent })
      else desired.map fun p => (m, l.goto (.secondWalk head globalOffset (left - 1) ((m.next p).or head)))
  | .dequeueCurrent =>
      l.token.currentProducer.map fun _ =>
        if stop then
          let itemsConsumed := Word.add w l.token.itemsConsumed 1
          (m, { l with
            token := { l.token with itemsConsumed := itemsConsumed }
            pc := if itemsConsumed = consumptionQuota then .rotate else .idle })
        else (m, l.goto .roundHead)
  | .rotate =>
      some ({ m with globalExplicitConsumerOffset := Word.add 32 m.globalExplicitConsumerOffset 1 }, l.goto .idle)
  | .roundHead => l.token.currentProducer.map fun p => (m, l.goto (.roundNext m.producerListsHead p [] m.added))
  | .roundNext head node seen list =>
      ((m.next node).or head).map fun p =>
        if some p = l.token.currentProducer then (m, l.goto .idle) else (m, l.goto (.roundVisit head p seen list))
  | .roundVisit head node seen list =>
      if stop then
        some (m, { l with token := { l.token with currentProducer := some node, itemsConsumed := 1 }, pc := .idle })
      else some (m, l.goto (.roundNext head node (seen ++ [node]) list))
  | .scanHead =>
      match m.producerListsHead with
      | none => some (m, l.goto .idle)
      | some p => some (m, l.goto (.scanVisit p [] m.added))
  | .scanVisit node seen list =>
      if stop then some (m, l.goto .idle) else some (m, l.goto (.scanNext node (seen ++ [node]) list))
  | .scanNext node seen list =>
      match m.next node with
      | none => some (m, l.goto .idle)
      | some p => some (m, l.goto (.scanVisit p seen list))

/-- A thread makes a producer token when it has none. -/
inductive ThreadStep (w : ℕ) (t : T) : Memory T × Local → Act → Memory T × Local → Prop
  | getProducerToken {m : Memory T} {l : Local} (hpc : l.pc = .idle) (h : l.producerNode = none) :
      ThreadStep w t (m, l) .getProducerToken (m, l.goto (.loadHead .explicit))
  | destroyProducerToken {m : Memory T} {l : Local} {node : ℕ} (hpc : l.pc = .idle) (h : l.producerNode = some node) :
      ThreadStep w t (m, l) .destroyProducerToken (m, l.goto (.storeInactive node))
  | getOrAddImplicitProducer {m : Memory T} {l : Local} (hpc : l.pc = .idle) :
      ThreadStep w t (m, l) .getOrAddImplicitProducer (m, l.goto (.loadHead .implicit))
  | getConsumerToken {m : Memory T} {l : Local} (hpc : l.pc = .idle) :
      ThreadStep w t (m, l) .getConsumerToken (m, l.goto .fetchConsumerId)
  | tryDequeueToken {m : Memory T} {l : Local} (hpc : l.pc = .idle) :
      ThreadStep w t (m, l) .tryDequeueToken (m, l.goto .checkOffset)
  | forEachProducer {m : Memory T} {l : Local} (hpc : l.pc = .idle) :
      ThreadStep w t (m, l) .forEachProducer (m, l.goto .scanHead)
  | access {m : Memory T} {l : Local} {stop : Bool} {r : Memory T × Local}
      (h : SharedProducers.access t stop m l w = some r) : ThreadStep w t (m, l) (.access stop) r

end Accesses

abbrev State (T : Type) := Interleaving.State T (Memory T) Local

abbrev Step [DecidableEq T] (w : ℕ) : State T → T × Act → State T → Prop := Interleaving.Step (ThreadStep w)

/-- A new queue, every thread with a consumer token that has not been used yet. -/
def start (initialOffset : T → ℕ) : State T := ⟨.fresh, fun t => ⟨none, none, .new (initialOffset t), .idle⟩⟩

/-- In `AddProducer`. -/
def Pc.adding : Pc → Option ℕ
  | .countProducer node | .loadListsHead node | .storeNext node _ | .exchangeHead node _ => some node
  | _ => none

/-- All nodes can be counted. -/
def Countable (s : State T) (_ : T × Act) : Prop := s.memory.nodeCount + 1 < 2 ^ 32

structure Safe (w : ℕ) (s : State T) : Prop where
  /-- a call that has not returned can go on: it follows no null pointer and does not divide by zero -/
  defined : ∀ t, (s.threads t).pc ≠ .idle → ∀ stop, (access t stop s.memory (s.threads t) w).isSome
  /-- every node that was added is in the list once -/
  list : Linked s.memory.next s.memory.producerListsHead s.memory.added
  /-- a producer token has an explicit node of the list, that is no other thread's -/
  producerNode : ∀ t p, (s.threads t).producerNode = some p → p ∈ s.memory.added ∧ s.memory.type p = .explicit ∧
    s.memory.inactive p = false ∧
      ∀ t', (s.threads t').implicitProducer ≠ some p ∧ ((s.threads t').producerNode = some p → t' = t)
  implicitProducer : ∀ t p, (s.threads t).implicitProducer = some p → p ∈ s.memory.added ∧ s.memory.type p = .implicit ∧
    s.memory.inactive p = false ∧ ∀ t', (s.threads t').implicitProducer = some p → t' = t
  count : s.memory.added.length ≤ s.memory.producerCount
  /-- with no producer being added the count is exact -/
  quiet : (∀ t, (s.threads t).pc.adding = none) → s.memory.producerCount = s.memory.added.length
  token : ∀ t p, (s.threads t).token.desiredProducer = some p ∨ (s.threads t).token.currentProducer = some p →
    p ∈ s.memory.added
  /-- a scan that comes to the end of the list has visited every producer that was in it at its start -/
  scan : ∀ t node seen list, (s.threads t).pc = .scanNext node seen list → s.memory.next node = none → seen = list
  /-- so has one that goes round from a token's producer -/
  round : ∀ t head node seen list p, (s.threads t).pc = .roundNext head node seen list →
    (s.threads t).token.currentProducer = some p → (s.memory.next node).or head = some p → (p :: seen).Perm list

end SharedProducers

end LockFreeStructures
