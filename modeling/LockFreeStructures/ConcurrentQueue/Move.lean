import LockFreeStructures.ConcurrentQueue.Defs

/-!
# `ConcurrentQueue.Move` — queues that are moved

A move takes the producer list, the counters, the table and what the two block managers hold. The producers keep
their pointers to the managers they were created with: these are the managers of the queue moved from, so the
blocks the producers have stay there under their names. The blocks of the pools and the free lists that change
hands are named behind those of the manager they come to. A deleted node keeps its name; using it is not marked as
undefined.
-/

namespace LockFreeStructures

namespace BlockManager

/-- What the manager gives to one with `n` blocks when it is moved. -/
def moved (n : ℕ) (m : BlockManager) : BlockManager :=
  ⟨n + m.poolSize, n + m.poolIndex, m.freeList.map (n + ·), m.allocated, []⟩

/-- A manager that was moved from: its pool and its free list are empty. -/
def emptied (m : BlockManager) : BlockManager := ⟨0, 0, [], m.blockCount, []⟩

end BlockManager

namespace ConcurrentQueue

/-- Queues some of which were moved from: for those in `tableless` the `MainHash` of `ImplicitMap` is null. -/
structure MovableWorld (K α : Type) where
  world : World K α
  tableless : ℕ → Bool

variable {K α P : Type}

/-- Other blocks come behind the `n` there are. -/
def appendBlocks (n : ℕ) (blocks others : ℕ → HakleBlock P α) : ℕ → HakleBlock P α :=
  fun p => if p < n then blocks p else others (p - n)

/-- `ConcurrentQueue( ConcurrentQueue&& Other )`, or the assignment once the list is cleared. -/
def moved (other : ConcurrentQueue K α) (c : ConcurrentQueue K α) : ConcurrentQueue K α where
  producerListsHead := other.producerListsHead
  producerCount := other.producerCount
  implicitMap := other.implicitMap
  explicitManager := other.explicitManager.moved c.explicitManager.blockCount
  explicitBlocks := appendBlocks c.explicitManager.blockCount c.explicitBlocks other.explicitBlocks
  implicitManager := other.implicitManager.moved c.implicitManager.blockCount
  implicitBlocks := appendBlocks c.implicitManager.blockCount c.implicitBlocks other.implicitBlocks
  globalExplicitConsumerOffset := other.globalExplicitConsumerOffset
  nextExplicitConsumerId := other.nextExplicitConsumerId

/-- `Reset`, after the members were moved. What the managers allocate from now on are new blocks. -/
def reset (c : ConcurrentQueue K α) : ConcurrentQueue K α :=
  { c with
    producerListsHead := none
    producerCount := 0
    implicitMap := { c.implicitMap with entriesCount := 0 }
    explicitManager := c.explicitManager.emptied
    explicitBlocks := appendBlocks c.explicitManager.blockCount c.explicitBlocks fun _ =>
      ⟨⟨fun _ => false⟩, fun _ => none, none⟩
    implicitManager := c.implicitManager.emptied
    implicitBlocks := appendBlocks c.implicitManager.blockCount c.implicitBlocks fun _ => ⟨⟨0⟩, fun _ => none, none⟩
    globalExplicitConsumerOffset := 0
    nextExplicitConsumerId := 0 }

namespace World

/-! ## Deleting the producers -/

section Delete

variable (tr : Traits K) (q : ℕ)

/-- `DeleteProducerListNode`: the destructor of the producer clears it. -/
def deleteProducerListNode (p : ℕ) (w : World K α) : Option (World K α) := do
  let w := w.modifyQueue q fun c => { c with producerCount := Word.sub 32 c.producerCount 1 }
  let (_, w) ← w.onProducer p (fun s => (s.clear tr.toCfg).map fun s => ((), s)) fun s =>
    (s.clear tr.toCfg).map fun s => ((), s)
  some w

/-- `ForEachProducerSafe` in `ClearList`. -/
def deleteProducers : List ℕ → World K α → Option (World K α)
  | [], w => some w
  | p :: ps, w => do
      let w ← w.deleteProducerListNode tr q p
      deleteProducers ps w

/-- `ClearList` -/
def clearList (w : World K α) : Option (World K α) := do
  let ps ← w.producerList q
  let w ← w.deleteProducers tr q ps
  some (w.modifyQueue q fun c => { c with producerListsHead := none, producerCount := 0 })

end Delete

/-- No producer is in the queue's list and none uses its managers. -/
def Unused (q : ℕ) (w : World K α) : Prop :=
  (w.queues q).producerListsHead = none ∧ ∀ p < w.nodeCount, (w.nodes p).manager ≠ q

instance (q : ℕ) (w : World K α) : Decidable (w.Unused q) :=
  inferInstanceAs (Decidable (_ ∧ ∀ p < w.nodeCount, (w.nodes p).manager ≠ q))

/-- The members of queue `q` are moved from queue `q'`, which is reset. -/
def moveQueue (q q' : ℕ) (w : World K α) : World K α :=
  (w.modifyQueue q (moved (w.queues q'))).modifyQueue q' reset

end World

namespace MovableWorld

/-- Queues as they are constructed. -/
def fresh (tr : Traits K) (pools : ℕ → ℕ × ℕ) : MovableWorld K α := ⟨.fresh tr pools, fun _ => false⟩

def moveQueue (q q' : ℕ) (w : MovableWorld K α) : MovableWorld K α :=
  ⟨w.world.moveQueue q q', Function.update (Function.update w.tableless q (w.tableless q')) q' true⟩

/-- Queue `q` is constructed by a move from queue `q'`; the name `q` must not be that of a queue in use. -/
def moveConstruct (q q' : ℕ) (w : MovableWorld K α) : Option (MovableWorld K α) :=
  if q ≠ q' ∧ w.world.Unused q then some (w.moveQueue q q') else none

/-- `operator=( ConcurrentQueue&& Other )` of queue `q`, `Other` being queue `q'`. -/
def moveAssign (tr : Traits K) (q q' : ℕ) (w : MovableWorld K α) : Option (MovableWorld K α) :=
  if q = q' then some w
  else (w.world.clearList tr q).map fun world => moveQueue q q' { w with world := world }

/-- The queue whose `ImplicitMap` a call looks into. -/
def tableQueue : World.Op K α → Option ℕ
  | .enqueue q _ _ _ _ => some q
  | .enqueueBulk q _ _ _ _ => some q
  | _ => none

variable [DecidableEq K] (tr : Traits K)

/-- Where there is no table `InnerGetEntry` finds nothing and `InnerAdd` follows the null pointer. -/
def exec (op : World.Op K α) (w : MovableWorld K α) : Option (World.Reply α × MovableWorld K α) :=
  if (tableQueue op).any w.tableless then none
  else (w.world.exec tr op).map fun (r, world) => (r, { w with world := world })

/-- The calls one after another. -/
def run : List (World.Op K α) → MovableWorld K α → Option (List (World.Reply α) × MovableWorld K α)
  | [], w => some ([], w)
  | op :: ops, w => do
      let (r, w) ← w.exec tr op
      let (rs, w) ← run ops w
      some (r :: rs, w)

end MovableWorld

end ConcurrentQueue

end LockFreeStructures
