import LockFreeStructures.HashTable.Defs
import LockFreeStructures.Lib.LinkedList
import LockFreeStructures.SlowQueue.Defs

/-!
# `ConcurrentQueue.Defs` — queues of many producers, one call at a time

A `World` holds several queues, the producer nodes their pointers lead to and the tokens that are alive; nodes,
queues and tokens are named by numbers. A producer uses the block manager of the queue it was created for,
which it shares with the other producers of its kind: it is loaded into the producer before a call and stored
back after it. Pointers that are only written are left out: a node's `Token` and `Parent`. So is
`ImplicitProducer*` in `ImplicitMap`, for which the node stands. `none` is undefined behaviour or a loop that
does not end, as in the queues.
-/

namespace LockFreeStructures

/-- The template parameters of `ConcurrentQueue` that its traits give, and `details::thread_hash`. -/
structure Traits (K : Type) extends Cfg where
  initialHashSize : ℕ
  initialExplicitQueueSize : ℕ
  initialImplicitQueueSize : ℕ
  hash : K → ℕ

/-- Words of 16 bits, two slots a block, small tables: for runs on fixed inputs. -/
def Traits.small : Traits ℕ :=
  { sizeofSize := 2, blockSizeLog2 := 1, one_le_blockSizeLog2 := by decide, blockSizeLog2_lt := by decide
    initialHashSize := 4, initialExplicitQueueSize := 4, initialImplicitQueueSize := 4, hash := id }

inductive ProducerType where
  | explicit
  | implicit
  deriving DecidableEq, Repr

namespace ConcurrentQueue

/-- What the `BaseProducer` pointer of a node leads to, with its `Type`. -/
inductive Producer (α : Type) where
  | explicit (q : FastQueue α)
  | implicit (q : SlowQueue α)

structure ProducerListNode (α : Type) where
  next : Option ℕ
  inactive : Bool
  producer : Producer α
  /-- the queue whose block manager the producer uses -/
  manager : ℕ

structure ProducerToken where
  producerNode : Option ℕ

structure ConsumerToken where
  initialOffset : ℕ
  lastKnownGlobalOffset : ℕ
  itemsConsumed : ℕ
  currentProducer : Option ℕ
  desiredProducer : Option ℕ
  deriving DecidableEq

end ConcurrentQueue

/-- A queue, its two block managers each with the blocks it handed out. -/
structure ConcurrentQueue (K α : Type) where
  producerListsHead : Option ℕ
  producerCount : ℕ
  implicitMap : HashTable K ℕ
  explicitManager : BlockManager
  explicitBlocks : ℕ → HakleBlock FlagsCheckPolicy α
  implicitManager : BlockManager
  implicitBlocks : ℕ → HakleBlock CounterCheckPolicy α
  globalExplicitConsumerOffset : ℕ
  nextExplicitConsumerId : ℕ

namespace ConcurrentQueue

structure World (K α : Type) where
  queues : ℕ → ConcurrentQueue K α
  nodes : ℕ → ProducerListNode α
  /-- how many nodes were created -/
  nodeCount : ℕ
  producerTokens : ℕ → Option ProducerToken
  consumerTokens : ℕ → Option ConsumerToken

variable {K α ρ : Type}

/-- `EXPLICIT_CONSUMER_CONSUMPTION_QUOTA_BEFORE_ROTATE` -/
def consumptionQuota : ℕ := 256

namespace Producer

/-- `Type` -/
def type : Producer α → ProducerType
  | .explicit _ => .explicit
  | .implicit _ => .implicit

/-- `GetProducerSize` -/
def size (cfg : Cfg) : Producer α → ℕ
  | .explicit q => q.size cfg
  | .implicit q => q.size cfg

end Producer

/-! ## Tokens -/

namespace ProducerToken

/-- `swap`: the first of its swaps exchanges `this` token's node with itself. -/
def swap (a b : ProducerToken) : ProducerToken × ProducerToken := ({ a with producerNode := a.producerNode }, b)

end ProducerToken

namespace ConsumerToken

/-- A token made by `GetConsumerToken`. -/
def new (initialOffset : ℕ) : ConsumerToken := ⟨initialOffset, 2 ^ 32 - 1, 0, none, none⟩

/-- `swap`, member by member. -/
def swap (a b : ConsumerToken) : ConsumerToken × ConsumerToken :=
  let (a, b) := ({ a with initialOffset := b.initialOffset }, { b with initialOffset := a.initialOffset })
  let (a, b) := ({ a with desiredProducer := b.desiredProducer }, { b with desiredProducer := a.desiredProducer })
  let (a, b) := ({ a with lastKnownGlobalOffset := b.lastKnownGlobalOffset },
    { b with lastKnownGlobalOffset := a.lastKnownGlobalOffset })
  let (a, b) := ({ a with currentProducer := b.currentProducer }, { b with currentProducer := a.currentProducer })
  ({ a with desiredProducer := b.desiredProducer }, { b with desiredProducer := a.desiredProducer })

end ConsumerToken

namespace World

/-! ## Queues, nodes and producers -/

/-- Queues as they are constructed, `pools` being the sizes of the two block pools of each. -/
def fresh (tr : Traits K) (pools : ℕ → ℕ × ℕ) : World K α where
  queues := fun q =>
    { producerListsHead := none
      producerCount := 0
      implicitMap := HashTable.fresh tr.initialHashSize
      explicitManager := .fresh (pools q).1
      explicitBlocks := fun _ => ⟨⟨fun _ => false⟩, fun _ => none, none⟩
      implicitManager := .fresh (pools q).2
      implicitBlocks := fun _ => ⟨⟨0⟩, fun _ => none, none⟩
      globalExplicitConsumerOffset := 0
      nextExplicitConsumerId := 0 }
  nodes := fun _ => ⟨none, false, .explicit (.unindexed tr.toCfg 0 0 []), 0⟩
  nodeCount := 0
  producerTokens := fun _ => none
  consumerTokens := fun _ => none

def modifyQueue (q : ℕ) (f : ConcurrentQueue K α → ConcurrentQueue K α) (w : World K α) : World K α :=
  { w with queues := Function.update w.queues q (f (w.queues q)) }

def modifyNode (p : ℕ) (f : ProducerListNode α → ProducerListNode α) (w : World K α) : World K α :=
  { w with nodes := Function.update w.nodes p (f (w.nodes p)) }

def setProducerToken (t : ℕ) (tok : Option ProducerToken) (w : World K α) : World K α :=
  { w with producerTokens := Function.update w.producerTokens t tok }

def setConsumerToken (t : ℕ) (tok : ConsumerToken) (w : World K α) : World K α :=
  { w with consumerTokens := Function.update w.consumerTokens t (some tok) }

/-- An explicit producer with the blocks of its manager; which of them it has out is its own. -/
def loadExplicit (q : FastQueue α) (c : ConcurrentQueue K α) : FastQueue α :=
  { q with
    blockManager := { c.explicitManager with outstanding := q.blockManager.outstanding }
    blocks := c.explicitBlocks }

def loadImplicit (q : SlowQueue α) (c : ConcurrentQueue K α) : SlowQueue α :=
  { q with
    blockManager := { c.implicitManager with outstanding := q.blockManager.outstanding }
    blocks := c.implicitBlocks }

def storeExplicit (p : ℕ) (q : FastQueue α) (w : World K α) : World K α :=
  (w.modifyNode p fun n => { n with producer := .explicit q }).modifyQueue (w.nodes p).manager fun c =>
    { c with explicitManager := q.blockManager, explicitBlocks := q.blocks }

def storeImplicit (p : ℕ) (q : SlowQueue α) (w : World K α) : World K α :=
  (w.modifyNode p fun n => { n with producer := .implicit q }).modifyQueue (w.nodes p).manager fun c =>
    { c with implicitManager := q.blockManager, implicitBlocks := q.blocks }

/-- A call of the producer of a node, whichever its type is. -/
def onProducer (p : ℕ) (f : FastQueue α → Option (ρ × FastQueue α)) (g : SlowQueue α → Option (ρ × SlowQueue α))
    (w : World K α) : Option (ρ × World K α) :=
  let c := w.queues (w.nodes p).manager
  match (w.nodes p).producer with
  | .explicit q => (f (loadExplicit q c)).map fun (r, q) => (r, w.storeExplicit p q)
  | .implicit q => (g (loadImplicit q c)).map fun (r, q) => (r, w.storeImplicit p q)

section Producers

variable (tr : Traits K)

/-- `ProducerEnqueue` -/
def producerEnqueue (p : ℕ) (mode : AllocMode) (item : Option α) (allocs : List Bool) (w : World K α) :
    Option (Outcome Bool × World K α) :=
  w.onProducer p (fun q => (q.begin allocs).enqueue tr.toCfg mode item) fun q =>
    (q.begin allocs).enqueue tr.toCfg mode item

/-- `ProducerEnqueueBulk` -/
def producerEnqueueBulk (p : ℕ) (mode : AllocMode) (items : List (Option α)) (allocs : List Bool) (w : World K α) :
    Option (Outcome Bool × World K α) :=
  w.onProducer p (fun q => (q.begin allocs).enqueueBulk tr.toCfg mode items) fun q =>
    (q.begin allocs).enqueueBulk tr.toCfg mode items

/-- `ProducerDequeue` -/
def producerDequeue (p : ℕ) (w : World K α) : Option (Option α × World K α) :=
  w.onProducer p (fun q => (q.begin []).dequeue tr.toCfg) fun q => (q.begin []).dequeue tr.toCfg

/-- `ProducerDequeueBulk` -/
def producerDequeueBulk (p : ℕ) (maxCount : ℕ) (w : World K α) : Option (List α × World K α) :=
  w.onProducer p (fun q => (q.begin []).dequeueBulk tr.toCfg maxCount) fun q =>
    (q.begin []).dequeueBulk tr.toCfg maxCount

/-- `GetProducerSize` -/
def producerSize (p : ℕ) (w : World K α) : ℕ := (w.nodes p).producer.size tr.toCfg

end Producers

/-- The `Next` pointers. -/
def next (w : World K α) (p : ℕ) : Option ℕ := (w.nodes p).next

/-- The nodes the `ForEachProducer` loops go through. -/
def producerList (q : ℕ) (w : World K α) : Option (List ℕ) :=
  nodesFrom w.next w.nodeCount (w.queues q).producerListsHead

/-! ## Creating producers -/

section Create

variable (tr : Traits K) (q : ℕ)

/-- A new producer of a type. The manager is not its own. -/
def newProducer (type : ProducerType) : Option (Producer α) :=
  match type with
  | .explicit => (FastQueue.fresh tr.toCfg tr.initialExplicitQueueSize 0 []).map Producer.explicit
  | .implicit => (SlowQueue.fresh tr.toCfg tr.initialImplicitQueueSize 0 []).map Producer.implicit

/-- `CreateProducerListNode` -/
def createProducerListNode (type : ProducerType) (w : World K α) : Option (ℕ × World K α) := do
  let producer ← newProducer tr type
  let w := w.modifyNode w.nodeCount fun _ => ⟨none, false, producer, q⟩
  some (w.nodeCount, { w with nodeCount := w.nodeCount + 1 })

/-- `AddProducer` -/
def addProducer (p : ℕ) (w : World K α) : World K α :=
  let head := (w.queues q).producerListsHead
  (w.modifyNode p fun n => { n with next := head }).modifyQueue q fun c =>
    { c with producerCount := Word.add 32 c.producerCount 1, producerListsHead := some p }

/-- The loop of `GetProducerListNode`: an inactive node of the type, if there is one. -/
def findInactive (type : ProducerType) (w : World K α) : List ℕ → Option ℕ
  | [] => none
  | p :: ps =>
      if (w.nodes p).inactive ∧ (w.nodes p).producer.type = type then some p else findInactive type w ps

/-- `GetProducerListNode` -/
def getProducerListNode (type : ProducerType) (w : World K α) : Option (ℕ × World K α) := do
  let ps ← w.producerList q
  match w.findInactive type ps with
  | some p => some (p, w.modifyNode p fun n => { n with inactive := false })
  | none => do
      let (p, w) ← w.createProducerListNode tr q type
      some (p, w.addProducer q p)

/-- `GetOrAddImplicitProducer`, in the words of `GetOrAddByFunc`. -/
def getOrAddImplicitProducer [DecidableEq K] (thread : K) (w : World K α) : Option (ℕ × World K α) := do
  let (i, t) ← (w.queues q).implicitMap.innerGetEntry tr.hash thread
  let w := w.modifyQueue q fun c => { c with implicitMap := t }
  match i with
  | some i => (t.mainHash.second i).map fun p => (p, w)
  | none => do
      let (p, w) ← w.getProducerListNode tr q .implicit
      let t ← (w.queues q).implicitMap.innerAdd tr.hash tr.w thread p
      some (p, w.modifyQueue q fun c => { c with implicitMap := t })

end Create

/-! ## Dequeues without a token -/

section Dequeue

variable (tr : Traits K) (q : ℕ)

/-- The search of `TryDequeue` for the largest of the first three producers that are not empty. Gives how many
    of these it met. -/
def findBest (w : World K α) : List ℕ → ℕ → Option ℕ → ℕ → ℕ × Option ℕ
  | [], nonEmptyCount, best, _ => (nonEmptyCount, best)
  | p :: ps, nonEmptyCount, best, bestSize =>
      let size := w.producerSize tr p
      let nonEmptyCount := if 0 < size then nonEmptyCount + 1 else nonEmptyCount
      let (best, bestSize) := if bestSize < size then (some p, size) else (best, bestSize)
      if nonEmptyCount < 3 then findBest w ps nonEmptyCount best bestSize else (nonEmptyCount, best)

/-- `ForEachProducerWithReturn`, with a dequeue from every producer the loop does not skip. -/
def dequeueFirst (skip : Option ℕ) : List ℕ → World K α → Option (Option α × World K α)
  | [], w => some (none, w)
  | p :: ps, w =>
      if some p = skip then dequeueFirst skip ps w
      else do
        let (r, w) ← w.producerDequeue tr p
        match r with
        | some a => some (some a, w)
        | none => dequeueFirst skip ps w

/-- `TryDequeue` -/
def tryDequeue (w : World K α) : Option (Option α × World K α) := do
  let ps ← w.producerList q
  let (nonEmptyCount, best) := w.findBest tr ps 0 none 0
  if 0 < nonEmptyCount then do
    let p ← best
    let (r, w) ← w.producerDequeue tr p
    match r with
    | some a => some (some a, w)
    | none => dequeueFirst tr best ps w
  else some (none, w)

/-- `TryDequeueNonInterleaved` -/
def tryDequeueNonInterleaved (w : World K α) : Option (Option α × World K α) := do
  let ps ← w.producerList q
  dequeueFirst tr none ps w

/-- The loop of `TryDequeueBulk`, `need` being what is left of `MaxCount`. -/
def dequeueBulkFirst : List ℕ → ℕ → World K α → Option (List α × World K α)
  | [], _, w => some ([], w)
  | p :: ps, need, w => do
      let (as, w) ← w.producerDequeueBulk tr p need
      if as.length = need then some (as, w)
      else do
        let (as', w) ← dequeueBulkFirst ps (need - as.length) w
        some (as ++ as', w)

/-- `TryDequeueBulk` -/
def tryDequeueBulk (maxCount : ℕ) (w : World K α) : Option (List α × World K α) := do
  let ps ← w.producerList q
  dequeueBulkFirst tr ps maxCount w

/-- `Size` -/
def size (w : World K α) : Option ℕ :=
  (w.producerList q).map fun ps => ps.foldl (fun n p => Word.add tr.w n (w.producerSize tr p)) 0

end Dequeue

/-! ## Dequeues with a consumer token -/

section Consume

variable (tr : Traits K) (q : ℕ)

/-- The `DesiredProducer` an update starts from: for a token that has none, the node its initial offset leads to.
    A division by a `ProducerCount` of zero is undefined. -/
def startProducer (tok : ConsumerToken) (w : World K α) : Option ℕ :=
  let head := (w.queues q).producerListsHead
  let producerCount := (w.queues q).producerCount
  match tok.desiredProducer with
  | some p => some p
  | none =>
      if producerCount = 0 then none else head.bind (advance w.next head (tok.initialOffset % producerCount))

/-- `Delta` -/
def delta (tok : ConsumerToken) (w : World K α) : Option ℕ :=
  let producerCount := (w.queues q).producerCount
  let delta := Word.sub 32 (w.queues q).globalExplicitConsumerOffset tok.lastKnownGlobalOffset
  if producerCount ≤ delta then if producerCount = 0 then none else some (delta % producerCount) else some delta

/-- `UpdateProducerForConsumer` -/
def updateProducerForConsumer (tok : ConsumerToken) (w : World K α) : Option (Bool × ConsumerToken) :=
  let head := (w.queues q).producerListsHead
  if tok.desiredProducer = none ∧ head = none then some (false, tok)
  else do
    let desired ← w.startProducer q tok
    let delta ← w.delta q tok
    let desired ← advance w.next head delta desired
    some (true, { tok with
      desiredProducer := some desired
      lastKnownGlobalOffset := (w.queues q).globalExplicitConsumerOffset
      currentProducer := some desired
      itemsConsumed := 0 })

/-- The token is updated where it has no producer yet or a rotation is pending. The result tells whether there
    is a producer. -/
def refresh (tok : ConsumerToken) (w : World K α) : Option (Bool × ConsumerToken) :=
  if tok.desiredProducer = none ∨ tok.lastKnownGlobalOffset ≠ (w.queues q).globalExplicitConsumerOffset then
    w.updateProducerForConsumer q tok
  else some (true, tok)

/-- `GlobalExplicitConsumerOffset().fetch_add( 1 )` -/
def rotate (w : World K α) : World K α :=
  w.modifyQueue q fun c => { c with globalExplicitConsumerOffset := Word.add 32 c.globalExplicitConsumerOffset 1 }

/-- The loop of `TryDequeue` that goes round the other producers. -/
def dequeueOthers (head : Option ℕ) : ℕ → Option ℕ → ConsumerToken → World K α →
    Option (Option α × ConsumerToken × World K α)
  | 0, _, _, _ => none
  | fuel + 1, node, tok, w =>
      if node = tok.currentProducer then some (none, tok, w)
      else do
        let p ← node
        let (r, w) ← w.producerDequeue tr p
        match r with
        | some a => some (some a, { tok with currentProducer := some p, itemsConsumed := 1 }, w)
        | none => dequeueOthers head fuel ((w.next p).or head) tok w

/-- `TryDequeue( ConsumerToken& )` -/
def tryDequeueToken (tok : ConsumerToken) (w : World K α) : Option (Option α × ConsumerToken × World K α) := do
  let (ok, tok) ← w.refresh q tok
  if !ok then some (none, tok, w)
  else do
    let current ← tok.currentProducer
    let (r, w) ← w.producerDequeue tr current
    match r with
    | some a =>
        let tok := { tok with itemsConsumed := Word.add tr.w tok.itemsConsumed 1 }
        some (some a, tok, if tok.itemsConsumed = consumptionQuota then w.rotate q else w)
    | none =>
        let head := (w.queues q).producerListsHead
        dequeueOthers tr head (w.nodeCount + 1) ((w.next current).or head) tok w

/-- The loop of `TryDequeueBulk` that goes round the other producers, `need` being what is left of `MaxCount`.
    The node it stops at moves with the token's producer. -/
def dequeueBulkOthers (head : Option ℕ) : ℕ → Option ℕ → ℕ → ConsumerToken → World K α →
    Option (List α × ConsumerToken × World K α)
  | 0, _, _, _, _ => none
  | fuel + 1, node, need, tok, w =>
      if node = tok.currentProducer then some ([], tok, w)
      else do
        let p ← node
        let (as, w) ← w.producerDequeueBulk tr p need
        let tok := if as.length ≠ 0 then { tok with currentProducer := some p, itemsConsumed := as.length } else tok
        if as.length = need then some (as, tok, w)
        else do
          let (as', tok, w) ← dequeueBulkOthers head fuel ((w.next p).or head) (need - as.length) tok w
          some (as ++ as', tok, w)

/-- `TryDequeueBulk( ConsumerToken& )` -/
def tryDequeueBulkToken (maxCount : ℕ) (tok : ConsumerToken) (w : World K α) :
    Option (List α × ConsumerToken × World K α) := do
  let (ok, tok) ← w.refresh q tok
  if !ok then some ([], tok, w)
  else do
    let current ← tok.currentProducer
    let (as, w) ← w.producerDequeueBulk tr current maxCount
    let tok := { tok with itemsConsumed := Word.add tr.w tok.itemsConsumed as.length }
    if as.length = maxCount then
      some (as, tok, if consumptionQuota ≤ tok.itemsConsumed ∨ consumptionQuota ≤ as.length then w.rotate q else w)
    else do
      let head := (w.queues q).producerListsHead
      let (as', tok, w) ←
        dequeueBulkOthers tr head (2 * w.nodeCount + 1) ((w.next current).or head) (maxCount - as.length) tok w
      some (as ++ as', tok, w)

end Consume

/-! ## Runs -/

/-- The calls of a program. Queues and tokens are named by numbers, threads by keys. -/
inductive Op (K α : Type) where
  | getProducerToken (q t : ℕ)
  | moveProducerToken (t t' : ℕ)
  | assignProducerToken (t t' : ℕ)
  | swapProducerTokens (t t' : ℕ)
  | destroyProducerToken (t : ℕ)
  | getConsumerToken (q t : ℕ)
  | moveConsumerToken (t t' : ℕ)
  | assignConsumerToken (t t' : ℕ)
  | swapConsumerTokens (t t' : ℕ)
  | enqueue (q : ℕ) (thread : K) (mode : AllocMode) (item : Option α) (allocs : List Bool)
  | enqueueBulk (q : ℕ) (thread : K) (mode : AllocMode) (items : List (Option α)) (allocs : List Bool)
  | enqueueWithToken (t : ℕ) (item : Option α) (allocs : List Bool)
  | enqueueBulkWithToken (t : ℕ) (mode : AllocMode) (items : List (Option α)) (allocs : List Bool)
  | tryDequeue (q : ℕ)
  | tryDequeueNonInterleaved (q : ℕ)
  | tryDequeueBulk (q maxCount : ℕ)
  | tryDequeueToken (q t : ℕ)
  | tryDequeueBulkToken (q t maxCount : ℕ)
  | tryDequeueFromProducer (t : ℕ)
  | tryDequeueBulkFromProducer (t maxCount : ℕ)
  | size (q : ℕ)

/-- What a call gives its caller. -/
inductive Reply (α : Type) where
  | done
  | enqueued (o : Outcome Bool)
  | dequeued (a : Option α)
  | dequeuedBulk (as : List α)
  | size (n : ℕ)
  deriving DecidableEq, Repr

/-- A new token, where there is none yet. -/
def constructProducerToken (t : ℕ) (tok : ProducerToken) (w : World K α) : Option (Reply α × World K α) :=
  if w.producerTokens t = none then some (.done, w.setProducerToken t (some tok)) else none

def constructConsumerToken (t : ℕ) (tok : ConsumerToken) (w : World K α) : Option (Reply α × World K α) :=
  if w.consumerTokens t = none then some (.done, w.setConsumerToken t tok) else none

/-- `a.swap( b )` on producer tokens; a token may be swapped with itself. -/
def swapProducerTokens (t t' : ℕ) (w : World K α) : Option (Reply α × World K α) := do
  let a ← w.producerTokens t
  let b ← w.producerTokens t'
  let (a, b) := a.swap b
  some (.done, (w.setProducerToken t' (some b)).setProducerToken t (some a))

def swapConsumerTokens (t t' : ℕ) (w : World K α) : Option (Reply α × World K α) := do
  let a ← w.consumerTokens t
  let b ← w.consumerTokens t'
  if t = t' then some (.done, w)
  else
    let (a, b) := a.swap b
    some (.done, (w.setConsumerToken t' b).setConsumerToken t a)

/-- The node of a producer token; an invalid token has none. -/
def tokenNode (t : ℕ) (w : World K α) : Option ℕ := (w.producerTokens t).bind (·.producerNode)

def exec [DecidableEq K] (tr : Traits K) (op : Op K α) (w : World K α) : Option (Reply α × World K α) :=
  match op with
  | .getProducerToken q t => do
      let (p, w) ← w.getProducerListNode tr q .explicit
      w.constructProducerToken t ⟨some p⟩
  | .moveProducerToken t t' => do
      let b ← w.producerTokens t'
      if t = t' then none else (w.setProducerToken t' (some ⟨none⟩)).constructProducerToken t b
  -- the move assignments are swaps
  | .assignProducerToken t t' => w.swapProducerTokens t t'
  | .swapProducerTokens t t' => w.swapProducerTokens t t'
  | .destroyProducerToken t => do
      let a ← w.producerTokens t
      let w := match a.producerNode with
        | some p => w.modifyNode p fun n => { n with inactive := true }
        | none => w
      some (.done, w.setProducerToken t none)
  | .getConsumerToken q t => do
      let c := w.queues q
      let w := w.modifyQueue q fun c => { c with nextExplicitConsumerId := Word.add 32 c.nextExplicitConsumerId 1 }
      w.constructConsumerToken t (.new c.nextExplicitConsumerId)
  | .moveConsumerToken t t' => do
      let b ← w.consumerTokens t'
      w.constructConsumerToken t b
  | .assignConsumerToken t t' => w.swapConsumerTokens t t'
  | .swapConsumerTokens t t' => w.swapConsumerTokens t t'
  | .enqueue q thread mode item allocs => do
      let (p, w) ← w.getOrAddImplicitProducer tr q thread
      let (r, w) ← w.producerEnqueue tr p mode item allocs
      some (.enqueued r, w)
  | .enqueueBulk q thread mode items allocs => do
      let (p, w) ← w.getOrAddImplicitProducer tr q thread
      let (r, w) ← w.producerEnqueueBulk tr p mode items allocs
      some (.enqueued r, w)
  | .enqueueWithToken t item allocs => do
      let p ← w.tokenNode t
      let (r, w) ← w.producerEnqueue tr p .canAlloc item allocs
      some (.enqueued r, w)
  | .enqueueBulkWithToken t mode items allocs => do
      let p ← w.tokenNode t
      let (r, w) ← w.producerEnqueueBulk tr p mode items allocs
      some (.enqueued r, w)
  | .tryDequeue q => do
      let (r, w) ← w.tryDequeue tr q
      some (.dequeued r, w)
  | .tryDequeueNonInterleaved q => do
      let (r, w) ← w.tryDequeueNonInterleaved tr q
      some (.dequeued r, w)
  | .tryDequeueBulk q maxCount => do
      let (as, w) ← w.tryDequeueBulk tr q maxCount
      some (.dequeuedBulk as, w)
  | .tryDequeueToken q t => do
      let tok ← w.consumerTokens t
      let (r, tok, w) ← w.tryDequeueToken tr q tok
      some (.dequeued r, w.setConsumerToken t tok)
  | .tryDequeueBulkToken q t maxCount => do
      let tok ← w.consumerTokens t
      let (as, tok, w) ← w.tryDequeueBulkToken tr q maxCount tok
      some (.dequeuedBulk as, w.setConsumerToken t tok)
  | .tryDequeueFromProducer t => do
      let p ← w.tokenNode t
      let (r, w) ← w.producerDequeue tr p
      some (.dequeued r, w)
  | .tryDequeueBulkFromProducer t maxCount => do
      let p ← w.tokenNode t
      let (as, w) ← w.producerDequeueBulk tr p maxCount
      some (.dequeuedBulk as, w)
  | .size q => (w.size tr q).map fun n => (.size n, w)

/-- The calls one after another. -/
def run [DecidableEq K] (tr : Traits K) : List (Op K α) → World K α → Option (List (Reply α) × World K α)
  | [], w => some ([], w)
  | op :: ops, w => do
      let (r, w) ← w.exec tr op
      let (rs, w) ← run tr ops w
      some (r :: rs, w)

end World

end ConcurrentQueue

end LockFreeStructures
