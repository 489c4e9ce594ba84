import LockFreeStructures.FastQueue.Run
import LockFreeStructures.Queue.Slots

/-!
# `SlowQueue.Defs` — the implicit producer's queue, one call at a time

`SlowQueue` finds its blocks through a circular array of pointers to index entries; an entry whose `Value`
is null, or that never had a key, may be used again. A block goes back to the manager with its last
element. The conventions are those of `FastQueue.Defs`. The arrays behind the current one are followed only
to free their memory and are left out; `entries` are the index entries the pointers lead to.
-/

namespace LockFreeStructures

/-! ## State -/

/-- `IndexEntry` -/
structure SlowQueue.IndexEntry where
  key : ℕ
  value : Option ℕ

/-- `IndexEntryArray`: its `Index` pointers. -/
structure SlowQueue.IndexEntryArray where
  size : ℕ
  tail : ℕ
  index : ℕ → ℕ

structure SlowQueue (α : Type) extends Slots CounterCheckPolicy α where
  headIndex : ℕ
  tailIndex : ℕ
  dequeueAttemptsCount : ℕ
  dequeueFailedCount : ℕ
  tailBlock : Option ℕ
  currentIndexEntryArray : Option SlowQueue.IndexEntryArray
  /-- the size of the next array -/
  indexEntriesSize : ℕ
  entries : ℕ → SlowQueue.IndexEntry
  /-- how many index entries were allocated -/
  entryCount : ℕ
  blockManager : BlockManager
  allocs : List Bool

namespace SlowQueue

variable {α : Type} (cfg : Cfg)

/-- `INVALID_BLOCK_BASE` -/
def invalidBlockBase : ℕ := 1

/-! ## The index array -/

/-- A pointer in the bounds of the array. -/
def IndexEntryArray.get (a : IndexEntryArray) (i : ℕ) : Option ℕ := if i < a.size then some (a.index i) else none

/-- `Key.store` -/
def storeKey (e key : ℕ) (s : SlowQueue α) : SlowQueue α :=
  { s with entries := Function.update s.entries e { s.entries e with key := key } }

/-- `Value.store` -/
def storeValue (e : ℕ) (value : Option ℕ) (s : SlowQueue α) : SlowQueue α :=
  { s with entries := Function.update s.entries e { s.entries e with value := value } }

/-- `Tail.store` on the current array. -/
def storeTail (tail : ℕ) (s : SlowQueue α) : SlowQueue α :=
  { s with currentIndexEntryArray := s.currentIndexEntryArray.map fun a => { a with tail := tail } }

/-- Make one allocation. -/
def allocate (s : SlowQueue α) : Bool × SlowQueue α :=
  ((LockFreeStructures.allocate s.allocs).1, { s with allocs := (LockFreeStructures.allocate s.allocs).2 })

/-- The copying loop of `CreateNewBlockIndexArray`: the pointers behind slot `i`, up to the one at the tail, go
    to the new array from slot `j` on. -/
def copyIndex (a : IndexEntryArray) : ℕ → ℕ → ℕ → (ℕ → ℕ) → Option (ℕ → ℕ)
  | 0, _, _, _ => none
  | fuel + 1, i, j, new =>
      let i := (i + 1) % a.size
      let new := Function.update new j (a.index i)
      if i = a.tail then some new else copyIndex a fuel i (j + 1) new

/-- The pointers of the current array in the new one. -/
def copiedIndex (s : SlowQueue α) : Option (ℕ → ℕ) :=
  match s.currentIndexEntryArray with
  | none => some fun _ => 0
  | some prev => copyIndex prev prev.size prev.tail 0 fun _ => 0

/-- The three allocations of `CreateNewBlockIndexArray`; one that fails is the last. -/
def allocateIndexArray (s : SlowQueue α) : Bool × SlowQueue α :=
  let (ok, s) := s.allocate
  if !ok then (false, s)
  else
    let (ok, s) := s.allocate
    if !ok then (false, s) else s.allocate

/-- `CreateNewBlockIndexArray` -/
def createNewBlockIndexArray (s : SlowQueue α) : Option (Bool × SlowQueue α) :=
  let prevSize := (s.currentIndexEntryArray.map (·.size)).getD 0
  let entryCount := (s.currentIndexEntryArray.map (·.size)).getD s.indexEntriesSize
  let (ok, s) := s.allocateIndexArray
  if !ok then some (false, s)
  else do
    let copied ← s.copiedIndex
    let a : IndexEntryArray := {
      size := s.indexEntriesSize
      tail := Word.sub cfg.w prevSize 1 % s.indexEntriesSize
      index := fun j => if prevSize ≤ j ∧ j < prevSize + entryCount then s.entryCount + (j - prevSize) else copied j }
    some (true, { s with
      currentIndexEntryArray := some a
      indexEntriesSize := 2 * s.indexEntriesSize
      entries := fun e => if s.entryCount ≤ e ∧ e < s.entryCount + entryCount then ⟨invalidBlockBase, none⟩
        else s.entries e
      entryCount := s.entryCount + entryCount })

/-- An entry that stands for no block. -/
def IndexEntry.isFree (e : IndexEntry) : Bool := e.key == invalidBlockBase || e.value.isNone

/-- The entry in the slot behind the tail gets a new key and becomes the tail. -/
def takeIndexEntry (blockStartIndex : ℕ) (s : SlowQueue α) : Option (ℕ × SlowQueue α) := do
  let a ← s.currentIndexEntryArray
  let newTail := (a.tail + 1) % a.size
  let e ← a.get newTail
  some (e, (s.storeKey e blockStartIndex).storeTail newTail)

/-- `InsertBlockIndexEntry`: the entry, if there is one to be had. -/
def insertBlockIndexEntry (mode : AllocMode) (blockStartIndex : ℕ) (s : SlowQueue α) :
    Option (Option ℕ × SlowQueue α) :=
  match s.currentIndexEntryArray with
  | none => some (none, s)
  | some a => do
      let e ← a.get ((a.tail + 1) % a.size)
      if (s.entries e).isFree then
        let (e, s) ← s.takeIndexEntry blockStartIndex
        some (some e, s)
      else
        match mode with
        | .cannotAlloc => some (none, s)
        | .canAlloc => do
            let (ok, s) ← s.createNewBlockIndexArray cfg
            if !ok then some (none, s)
            else
              let (e, s) ← s.takeIndexEntry blockStartIndex
              some (some e, s)

/-- `RewindBlockIndexTail` -/
def rewindBlockIndexTail (s : SlowQueue α) : Option (SlowQueue α) := do
  let a ← s.currentIndexEntryArray
  some (s.storeTail (Word.sub cfg.w a.tail 1 % a.size))

/-- `GetBlockIndexIndexForIndex` -/
def getBlockIndexIndexForIndex (index : ℕ) (s : SlowQueue α) : Option ℕ := do
  let a ← s.currentIndexEntryArray
  let e ← a.get a.tail
  let offset := Word.sub cfg.w (Word.alignDown cfg.blockSizeLog2 index) (s.entries e).key / cfg.blockSize
  some (Word.add cfg.w a.tail offset % a.size)

/-- `GetBlockIndexEntryForIndex` -/
def getBlockIndexEntryForIndex (index : ℕ) (s : SlowQueue α) : Option ℕ := do
  let i ← s.getBlockIndexIndexForIndex cfg index
  let a ← s.currentIndexEntryArray
  a.get i

/-! ## A new queue -/

/-- A queue before its constructor creates the first index array. The `InitialSize` is that of
    `FastQueue`. -/
def unindexed (inSize poolSize : ℕ) (allocs : List Bool) : SlowQueue α where
  blocks := fun _ => ⟨⟨0⟩, fun _ => none, none⟩
  events := []
  headIndex := 0
  tailIndex := 0
  dequeueAttemptsCount := 0
  dequeueFailedCount := 0
  tailBlock := none
  currentIndexEntryArray := none
  indexEntriesSize := FastQueue.initialIndexSize cfg inSize
  entries := fun _ => ⟨invalidBlockBase, none⟩
  entryCount := 0
  blockManager := .fresh poolSize
  allocs := allocs

/-- `SlowQueue( InSize, InBlockManager )` on a new block manager with `poolSize` blocks in its pool. -/
def fresh (inSize poolSize : ℕ) (allocs : List Bool) : Option (SlowQueue α) :=
  ((unindexed cfg inSize poolSize allocs).createNewBlockIndexArray cfg).map Prod.snd

/-- `Size` -/
def size (s : SlowQueue α) : ℕ :=
  if circularLessThan cfg.w s.headIndex s.tailIndex then Word.sub cfg.w s.tailIndex s.headIndex else 0

/-! ## Blocks -/

def modifyPolicy (p : ℕ) (f : CounterCheckPolicy → CounterCheckPolicy) (s : SlowQueue α) : SlowQueue α :=
  { s with toSlots := s.modifyBlock p fun b => { b with policy := f b.policy } }

def setNext (p : ℕ) (n : Option ℕ) (s : SlowQueue α) : SlowQueue α :=
  { s with toSlots := s.modifyBlock p fun b => { b with next := n } }

/-- `BlockManager()->ReturnBlock` -/
def returnBlock (p : ℕ) (s : SlowQueue α) : SlowQueue α :=
  { s with blockManager := s.blockManager.returnBlock p, events := s.events ++ [.returned p] }

/-- `BlockManager()->ReturnBlocks`: the blocks from `p` on along their links. -/
def returnBlocks : ℕ → Option ℕ → SlowQueue α → Option (SlowQueue α)
  | _, none, s => some s
  | 0, some _, _ => none
  | fuel + 1, some p, s => returnBlocks fuel (s.blocks p).next (s.returnBlock p)

/-- The check that keeps the indices less than half their range apart. -/
def isFull (currentTailIndex : ℕ) (s : SlowQueue α) : Bool :=
  !circularLessThan cfg.w s.headIndex (Word.add cfg.w currentTailIndex cfg.blockSize)

/-! ## `Enqueue` -/

/-- The requisition of a block. -/
def requisitionBlock (mode : AllocMode) (s : SlowQueue α) : Requisition × SlowQueue α :=
  let (r, allocs, m) := s.blockManager.requisitionBlock mode s.allocs
  (r, { s with blockManager := m, allocs := allocs })

def enqueue (mode : AllocMode) (item : Option α) (s : SlowQueue α) :
    Option (Outcome Bool × SlowQueue α) := do
  let currentTailIndex := s.tailIndex
  let newTailIndex := Word.add cfg.w currentTailIndex 1
  let innerIndex := currentTailIndex % cfg.blockSize
  if innerIndex = 0 then
    if s.isFull cfg currentTailIndex then some (.returned false, s)
    else
      let (e, s) ← s.insertBlockIndexEntry cfg mode currentTailIndex
      match e with
      | none => some (.returned false, s)
      | some e =>
          match s.requisitionBlock mode with
          | (.threw, s) => some (.threw, s)
          | (.null, s) =>
              let s ← s.rewindBlockIndexTail cfg
              some (.returned false, s.storeValue e none)
          | (.block p, s) =>
              let s := s.modifyPolicy p .reset
              match item with
              | none =>
                  let s ← s.rewindBlockIndexTail cfg
                  some (.threw, (s.storeValue e none).returnBlock p)
              | some a =>
                  let s := { s with toSlots := s.construct p innerIndex a }
                  some (.returned true, { s.storeValue e (some p) with tailBlock := some p, tailIndex := newTailIndex })
  else
    let t ← s.tailBlock
    match item with
    | none => some (.threw, s)
    | some a => some (.returned true, { s with toSlots := s.construct t innerIndex a, tailIndex := newTailIndex })

/-! ## `EnqueueBulk` -/

/-- `NeedCount`: the shift of `OriginTailIndex - 1` is a signed one. -/
def needCount (originTailIndex count : ℕ) : ℕ :=
  Word.sub cfg.w (Word.sub cfg.w (Word.add cfg.w originTailIndex count) 1 / cfg.blockSize)
    (Word.sar cfg.w (Word.sub cfg.w originTailIndex 1) cfg.blockSizeLog2)

/-- The local variables of `EnqueueBulk` that its loops change, with the queue. -/
structure Bulk (α : Type) where
  queue : SlowQueue α
  currentTailIndex : ℕ
  firstAllocatedBlock : Option ℕ

namespace Bulk

/-- The local variables at the start of a call. -/
def start (s : SlowQueue α) : Bulk α :=
  ⟨s, Word.alignDown cfg.blockSizeLog2 (Word.sub cfg.w s.tailIndex 1), none⟩

/-- Link a block in behind the tail block, unless it is the first of the call and the call starts with it,
    and make it the tail block. -/
def linkBlock (originTailIndex p : ℕ) (b : Bulk α) : Option (Bulk α) := do
  let s ← if originTailIndex % cfg.blockSize ≠ 0 ∨ b.firstAllocatedBlock ≠ none then
      b.queue.tailBlock.map fun t => b.queue.setNext t (some p)
    else some b.queue
  some { b with queue := { s with tailBlock := some p }, firstAllocatedBlock := b.firstAllocatedBlock.or (some p) }

/-- The loop that gets the blocks. -/
def newBlocks (mode : AllocMode) (originTailIndex : ℕ) : ℕ → Bulk α → Option (Acquisition × Bulk α)
  | 0, b => some (.acquired, b)
  | need + 1, b => do
      let cti := Word.add cfg.w b.currentTailIndex cfg.blockSize
      let b := { b with currentTailIndex := cti }
      if b.queue.isFull cfg cti then some (.refused, b)
      else
        let (e, s) ← b.queue.insertBlockIndexEntry cfg mode cti
        match e with
        | none => some (.refused, { b with queue := s })
        | some e =>
            match s.requisitionBlock mode with
            | (.threw, s) => some (.threw, { b with queue := s })
            | (.null, s) =>
                let s ← s.rewindBlockIndexTail cfg
                some (.refused, { b with queue := s.storeValue e none })
            | (.block p, s) =>
                let s := ((s.modifyPolicy p .reset).setNext p none).storeValue e (some p)
                let b ← linkBlock cfg originTailIndex p { b with queue := s }
                newBlocks mode originTailIndex need b

end Bulk

/-- The loop of `RollBack`: the entries of the blocks from `block` on, the first one's base coming after
    `currentTailIndex`, are emptied. -/
def rollBackEntries : ℕ → Option ℕ → ℕ → SlowQueue α → Option (SlowQueue α)
  | _, none, _, s => some s
  | 0, some _, _, _ => none
  | fuel + 1, some p, currentTailIndex, s => do
      let cti := Word.add cfg.w currentTailIndex cfg.blockSize
      let e ← s.getBlockIndexEntryForIndex cfg cti
      let s ← (s.storeValue e none).rewindBlockIndexTail cfg
      rollBackEntries fuel (s.blocks p).next cti s

/-- The `RollBack` closure. -/
def rollBack (originTailIndex : ℕ) (originTailBlock firstAllocatedBlock : Option ℕ) (s : SlowQueue α) :
    Option (SlowQueue α) := do
  let fuel := s.blockManager.blockCount
  let s ← s.rollBackEntries cfg fuel firstAllocatedBlock
    (Word.alignDown cfg.blockSizeLog2 (Word.sub cfg.w originTailIndex 1))
  let s ← s.returnBlocks fuel firstAllocatedBlock
  some { s with tailBlock := originTailBlock }

def enqueueBulk (mode : AllocMode) (items : List (Option α)) (s : SlowQueue α) :
    Option (Outcome Bool × SlowQueue α) := do
  let originTailIndex := s.tailIndex
  let originTailBlock := s.tailBlock
  let count := items.length
  let (r, b) ← Bulk.newBlocks cfg mode originTailIndex (needCount cfg originTailIndex count) (.start cfg s)
  match r with
  | .threw => some (.threw, b.queue)
  | .refused => do
      let s ← b.queue.rollBack cfg originTailIndex originTailBlock b.firstAllocatedBlock
      some (.returned false, s)
  | .acquired =>
      let startInner := originTailIndex % cfg.blockSize
      let first ← if startInner = 0 then b.firstAllocatedBlock.or originTailBlock else originTailBlock
      let lastInner := Word.sub cfg.w (Word.add cfg.w originTailIndex count) 1 % cfg.blockSize
      let (r, cur, i, m) ← b.queue.fillBlocks cfg.blockSize b.queue.tailBlock lastInner (count + 1) first startInner
        items
      let s := { b.queue with toSlots := m }
      match r with
      | .threw =>
          let m ← s.destroyBlocks cfg.blockSize cur i s.blockManager.blockCount first startInner
          let s ← { s with toSlots := m }.rollBack cfg originTailIndex originTailBlock b.firstAllocatedBlock
          some (.threw, s)
      | .returned () => some (.returned true, { s with tailIndex := Word.add cfg.w originTailIndex count })

/-! ## `Dequeue` and `DequeueBulk` -/

/-- Mark `n` slots of a block as used up; a block that is empty with them goes back to the manager, and its
    index entry becomes free. -/
def setSomeEmpty (e p n : ℕ) (s : SlowQueue α) : SlowQueue α :=
  let (empty, _) := (s.blocks p).policy.setSomeEmpty cfg.blockSize n
  let s := s.modifyPolicy p fun policy => (policy.setSomeEmpty cfg.blockSize n).2
  if empty then (s.storeValue e none).returnBlock p else s

def dequeue (s : SlowQueue α) : Option (Option α × SlowQueue α) :=
  let failedCount := s.dequeueFailedCount
  if circularLessThan cfg.w (Word.sub cfg.w s.dequeueAttemptsCount failedCount) s.tailIndex then
    let attemptsCount := s.dequeueAttemptsCount
    let s := { s with dequeueAttemptsCount := Word.add cfg.w attemptsCount 1 }
    if circularLessThan cfg.w (Word.sub cfg.w attemptsCount failedCount) s.tailIndex then do
      let index := s.headIndex
      let s := { s with headIndex := Word.add cfg.w index 1 }
      let e ← s.getBlockIndexEntryForIndex cfg index
      let p ← (s.entries e).value
      let (a, m) ← s.takeElement p (index % cfg.blockSize)
      -- `SetEmpty` is `SetSomeEmpty` of one slot
      some (some a, { s with toSlots := m }.setSomeEmpty cfg e p 1)
    else some (none, { s with dequeueFailedCount := Word.add cfg.w s.dequeueFailedCount 1 })
  else some (none, s)

/-- The loop of `DequeueBulk`: `need` elements from slot `start` of the block of index slot `i` on. -/
def takeBlocks : ℕ → ℕ → ℕ → ℕ → SlowQueue α → Option (List α × SlowQueue α)
  | _, _, _, 0, s => some ([], s)
  | 0, _, _, _ + 1, _ => none
  | fuel + 1, i, start, need + 1, s => do
      let a ← s.currentIndexEntryArray
      let e ← a.get i
      let p ← (s.entries e).value
      let endIndex := if need + 1 > cfg.blockSize - start then cfg.blockSize else need + 1 + start
      let (as, m) ← s.takeRange p start (endIndex - start)
      let s := { s with toSlots := m }.setSomeEmpty cfg e p (endIndex - start)
      let (as', s) ← takeBlocks fuel ((i + 1) % a.size) 0 (need + 1 - (endIndex - start)) s
      some (as ++ as', s)

def dequeueBulk (maxCount : ℕ) (s : SlowQueue α) : Option (List α × SlowQueue α) :=
  let failedCount := s.dequeueFailedCount
  let desired := Word.sub cfg.w s.tailIndex (Word.sub cfg.w s.dequeueAttemptsCount failedCount)
  if circularLessThan cfg.w 0 desired then
    let desired := min desired maxCount
    let attemptsCount := s.dequeueAttemptsCount
    let s := { s with dequeueAttemptsCount := Word.add cfg.w attemptsCount desired }
    let actual := Word.sub cfg.w s.tailIndex (Word.sub cfg.w attemptsCount failedCount)
    if circularLessThan cfg.w 0 actual then do
      let actual := min actual desired
      let s := if actual < desired then
          { s with dequeueFailedCount := Word.add cfg.w s.dequeueFailedCount (desired - actual) }
        else s
      let index := s.headIndex
      let s := { s with headIndex := Word.add cfg.w index actual }
      let i ← s.getBlockIndexIndexForIndex cfg index
      s.takeBlocks cfg actual i (index % cfg.blockSize) actual
    else some ([], { s with dequeueFailedCount := Word.add cfg.w s.dequeueFailedCount desired })
  else some ([], s)

/-! ## `Clear` -/

/-- The loop of `Clear`, from `index` on. -/
def clearElements (tail : ℕ) : ℕ → ℕ → Option ℕ → SlowQueue α → Option (SlowQueue α)
  | fuel, index, block, s =>
      if index = tail then some s
      else
        match fuel with
        | 0 => none
        | fuel + 1 => do
            let inner := index % cfg.blockSize
            let p ← if inner = 0 ∨ block = none then do
                let e ← s.getBlockIndexEntryForIndex cfg index
                (s.entries e).value
              else block
            let m ← s.destroy p inner
            let s := { s with toSlots := m }
            let s := if inner = cfg.blockSize - 1 ∨ index = Word.sub cfg.w tail 1 then s.returnBlock p else s
            clearElements tail fuel (Word.add cfg.w index 1) (some p) s

/-- `Clear`, up to giving back the memory of the index arrays. -/
def clear (s : SlowQueue α) : Option (SlowQueue α) :=
  s.clearElements cfg s.tailIndex (Word.sub cfg.w s.tailIndex s.headIndex) s.headIndex none

/-! ## Runs -/

/-- A call begins with its own allocations ahead and nothing done. -/
def begin (allocs : List Bool) (s : SlowQueue α) : SlowQueue α := { s with allocs := allocs, events := [] }

def exec (c : Call α) (s : SlowQueue α) : Option (Result α × SlowQueue α) :=
  match c with
  | .enqueue mode item allocs =>
      ((s.begin allocs).enqueue cfg mode item).map fun (r, s) => (.enqueued r, s)
  | .enqueueBulk mode items allocs =>
      ((s.begin allocs).enqueueBulk cfg mode items).map fun (r, s) => (.enqueued r, s)
  | .dequeue => ((s.begin []).dequeue cfg).map fun (r, s) => (.dequeued r, s)
  | .dequeueBulk maxCount => ((s.begin []).dequeueBulk cfg maxCount).map fun (r, s) => (.dequeuedBulk r, s)

/-- A run: the calls one after another, each with what it gave and `Size()` after it. -/
def run : List (Call α) → SlowQueue α → Option (List (Result α × ℕ) × SlowQueue α)
  | [], s => some ([], s)
  | c :: cs, s => do
      let (r, s) ← s.exec cfg c
      let n := s.size cfg
      let (rs, s) ← run cs s
      some ((r, n) :: rs, s)

end SlowQueue

end LockFreeStructures
