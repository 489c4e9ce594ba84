import LockFreeStructures.Queue.BlockManager

/-!
# `FastQueue.Defs` — the explicit producer's queue, one call at a time

`FastQueue` keeps its blocks in a ring and finds them through a circular array of index entries. Every
operation of the source is a function on the queue's whole state: `none` is undefined behaviour (a null
pointer followed, an uninitialised slot or entry used, an index out of its array) or a loop that does not
end, `some` gives what the call returned or that it threw, and the state it left.

Of the pointers only `PO_PrevEntries` is left out: it always is the `Entries` pointer of the current
index array. `allocs` holds the outcomes of the allocations a call is going to make, `events` what the
call did to slots and blocks so far; a constructor argument `none` is one whose constructor throws.
-/

namespace LockFreeStructures

/-! ## State -/

structure FastQueue.IndexEntry where
  base : ℕ
  innerBlock : ℕ

/-- `IndexEntryArray`. Its `Entries` come from the allocator unconstructed: `none` until written. -/
structure FastQueue.IndexEntryArray where
  size : ℕ
  tail : ℕ
  entries : ℕ → Option FastQueue.IndexEntry

structure FastQueue (α : Type) where
  headIndex : ℕ
  tailIndex : ℕ
  dequeueAttemptsCount : ℕ
  dequeueFailedCount : ℕ
  tailBlock : Option ℕ
  /-- `CurrentIndexEntryArray` and, behind it, its chain of `Prev` pointers -/
  currentIndexEntryArray : List FastQueue.IndexEntryArray
  blockManager : BlockManager
  /-- `PO_NextIndexEntry` -/
  nextIndexEntry : ℕ
  /-- `PO_IndexEntriesUsed` -/
  indexEntriesUsed : ℕ
  /-- `PO_IndexEntriesSize` -/
  indexEntriesSize : ℕ
  /-- the blocks the pointers lead to -/
  blocks : ℕ → HakleBlock FlagsCheckPolicy α
  allocs : List Bool
  events : List Event

namespace FastQueue

variable {α : Type} (cfg : Cfg)

/-! ## Slots and blocks -/

def modifyBlock (p : ℕ) (f : HakleBlock FlagsCheckPolicy α → HakleBlock FlagsCheckPolicy α)
    (s : FastQueue α) : FastQueue α :=
  { s with blocks := Function.update s.blocks p (f (s.blocks p)) }

/-- Apply an operation of the policy to a block. -/
def modifyPolicy (p : ℕ) (f : FlagsCheckPolicy → FlagsCheckPolicy) (s : FastQueue α) : FastQueue α :=
  s.modifyBlock p fun b => { b with policy := f b.policy }

def setNext (p : ℕ) (n : Option ℕ) (s : FastQueue α) : FastQueue α :=
  s.modifyBlock p fun b => { b with next := n }

def blockIsEmpty (p : ℕ) (s : FastQueue α) : Bool := (s.blocks p).policy.isEmpty cfg.blockSize

/-- `ValueAllocatorTraits::Construct` on a slot of a block. -/
def construct (p i : ℕ) (a : α) (s : FastQueue α) : FastQueue α :=
  { s.modifyBlock p fun b => { b with elements := Function.update b.elements i (some a) } with
    events := s.events ++ [.constructed p i] }

/-- The element of a slot, moved out of it and destroyed. -/
def takeElement (p i : ℕ) (s : FastQueue α) : Option (α × FastQueue α) :=
  ((s.blocks p).elements i).map fun a =>
    (a, { s.modifyBlock p fun b => { b with elements := Function.update b.elements i none } with
      events := s.events ++ [.destroyed p i] })

/-- `ValueAllocatorTraits::Destroy` on a slot of a block. -/
def destroy (p i : ℕ) (s : FastQueue α) : Option (FastQueue α) := (s.takeElement p i).map Prod.snd

/-- `Destroy` on `n` slots of a block from `i` on. -/
def destroyRange (p : ℕ) : ℕ → ℕ → FastQueue α → Option (FastQueue α)
  | _, 0, s => some s
  | i, n + 1, s => do
      let s ← s.destroy p i
      destroyRange p (i + 1) n s

/-! ## The index array -/

/-- An entry that has been written, in the bounds of the array. -/
def IndexEntryArray.get (a : IndexEntryArray) (i : ℕ) : Option IndexEntry :=
  if i < a.size then a.entries i else none

def IndexEntryArray.set (a : IndexEntryArray) (i : ℕ) (e : IndexEntry) : Option IndexEntryArray :=
  if i < a.size then some { a with entries := Function.update a.entries i (some e) } else none

/-- Write the entry at `PO_NextIndexEntry` for the tail block. -/
def writeEntry (base : ℕ) (s : FastQueue α) : Option (FastQueue α) :=
  match s.currentIndexEntryArray, s.tailBlock with
  | a :: prev, some t =>
      (a.set s.nextIndexEntry ⟨base, t⟩).map fun a => { s with currentIndexEntryArray := a :: prev }
  | _, _ => none

def advanceNextIndexEntry (s : FastQueue α) : FastQueue α :=
  { s with nextIndexEntry := (s.nextIndexEntry + 1) % s.indexEntriesSize }

/-- `CurrentIndexEntryArray->Tail.store( tail )` -/
def storeTail (tail : ℕ) (s : FastQueue α) : Option (FastQueue α) :=
  match s.currentIndexEntryArray with
  | a :: prev => some { s with currentIndexEntryArray := { a with tail := tail } :: prev }
  | [] => none

/-- Make one allocation. -/
def allocate (s : FastQueue α) : Bool × FastQueue α :=
  ((LockFreeStructures.allocate s.allocs).1, { s with allocs := (LockFreeStructures.allocate s.allocs).2 })

/-- The copying loop of `CreateNewBlockIndexArray`: entries from slot `i` on, up to slot `next`, go to the
    new array from slot `j` on. Gives the number of entries in the new array. Copying an entry that was
    never written leaves its copy unwritten. -/
def copyEntries (a : IndexEntryArray) (size next : ℕ) :
    ℕ → ℕ → ℕ → (ℕ → Option IndexEntry) → Option (ℕ × (ℕ → Option IndexEntry))
  | 0, _, _, _ => none
  | fuel + 1, i, j, new =>
      let new := Function.update new j (a.get i)
      let i := (i + 1) % size
      if i = next then some (j + 1, new) else copyEntries a size next fuel i (j + 1) new

/-- The entries of the new array and how many there are. -/
def copiedEntries (s : FastQueue α) : Option (ℕ × (ℕ → Option IndexEntry)) :=
  if s.indexEntriesUsed = 0 then some (0, fun _ => none)
  else
    match s.currentIndexEntryArray with
    | [] => none
    | a :: _ =>
        let i := Word.sub cfg.w s.nextIndexEntry s.indexEntriesUsed % s.indexEntriesSize
        copyEntries a s.indexEntriesSize s.nextIndexEntry s.indexEntriesSize i 0 fun _ => none

/-- `CreateNewBlockIndexArray` -/
def createNewBlockIndexArray (filledSlot : ℕ) (s : FastQueue α) : Option (Bool × FastQueue α) :=
  let (ok, s) := s.allocate
  if !ok then some (false, s)
  else
    let (ok, s) := s.allocate
    if !ok then some (false, s)
    else do
      let (j, new) ← s.copiedEntries cfg
      let a : IndexEntryArray := ⟨2 * s.indexEntriesSize, Word.sub cfg.w filledSlot 1, new⟩
      some (true, { s with
        currentIndexEntryArray := a :: s.currentIndexEntryArray
        nextIndexEntry := j
        indexEntriesSize := 2 * s.indexEntriesSize })

/-- The constructor's `InitialSize`. -/
def initialIndexSize (inSize : ℕ) : ℕ := max 2 (ceilToPow2 cfg.sizeofSize inSize / 2)

/-- A queue before its constructor creates the first index array. -/
def unindexed (inSize poolSize : ℕ) (allocs : List Bool) : FastQueue α where
  headIndex := 0
  tailIndex := 0
  dequeueAttemptsCount := 0
  dequeueFailedCount := 0
  tailBlock := none
  currentIndexEntryArray := []
  blockManager := .fresh poolSize
  nextIndexEntry := 0
  indexEntriesUsed := 0
  indexEntriesSize := initialIndexSize cfg inSize
  blocks := fun _ => ⟨⟨fun _ => false⟩, fun _ => none, none⟩
  allocs := allocs
  events := []

/-- `FastQueue( InSize, InBlockManager )` on a new block manager with `poolSize` blocks in its pool. -/
def fresh (inSize poolSize : ℕ) (allocs : List Bool) : Option (FastQueue α) :=
  ((unindexed cfg inSize poolSize allocs).createNewBlockIndexArray cfg 0).map Prod.snd

/-- `Size` -/
def size (s : FastQueue α) : ℕ :=
  if circularLessThan cfg.w s.headIndex s.tailIndex then Word.sub cfg.w s.tailIndex s.headIndex else 0

/-! ## Getting the next block -/

/-- `TailBlock() != nullptr && TailBlock()->Next->IsEmpty()` -/
def nextIsEmpty (s : FastQueue α) : Option Bool :=
  match s.tailBlock with
  | none => some false
  | some t => (s.blocks t).next.map fun n => s.blockIsEmpty cfg n

/-- `TailBlock() = TailBlock()->Next; TailBlock()->Reset()` -/
def reuseNext (s : FastQueue α) : Option (FastQueue α) := do
  let t ← s.tailBlock
  let n ← (s.blocks t).next
  some ({ s with tailBlock := some n }.modifyPolicy n .reset)

/-- Link a new block in behind the tail block and make it the tail block. -/
def spliceBlock (p : ℕ) (s : FastQueue α) : FastQueue α :=
  { (match s.tailBlock with
      | none => s.setNext p (some p)
      | some t => (s.setNext p (s.blocks t).next).setNext t (some p)) with
    tailBlock := some p
    indexEntriesUsed := s.indexEntriesUsed + 1 }

/-- The check that keeps the indices less than half their range apart. -/
def isFull (currentTailIndex : ℕ) (s : FastQueue α) : Bool :=
  !circularLessThan cfg.w s.headIndex (Word.add cfg.w currentTailIndex cfg.blockSize)

/-- `CurrentIndexEntryArray == nullptr || PO_IndexEntriesUsed() == PO_IndexEntriesSize()` -/
def indexExhausted (s : FastQueue α) : Bool :=
  s.currentIndexEntryArray.isEmpty || s.indexEntriesUsed == s.indexEntriesSize

/-- Room for one more index entry: whether there is, and whether the array was replaced for it. -/
def ensureIndexEntry (mode : AllocMode) (filledSlot : ℕ) (s : FastQueue α) :
    Option (Bool × Bool × FastQueue α) :=
  if s.indexExhausted then
    match mode with
    | .cannotAlloc => some (false, false, s)
    | .canAlloc => do
        let (ok, s) ← s.createNewBlockIndexArray cfg filledSlot
        some (ok, ok, s)
  else some (true, false, s)

/-- The checks and the requisition of a new block that `Enqueue` and `EnqueueBulk` share. The second
    result tells whether the index array was replaced. -/
def acquireNewBlock (mode : AllocMode) (currentTailIndex filledSlot : ℕ) (s : FastQueue α) :
    Option (Acquisition × Bool × FastQueue α) :=
  if s.isFull cfg currentTailIndex then some (.refused, false, s)
  else do
    let (ready, grew, s) ← s.ensureIndexEntry cfg mode filledSlot
    if !ready then some (.refused, grew, s)
    else
      match s.blockManager.requisitionBlock mode s.allocs with
      | (.null, allocs, m) => some (.refused, grew, { s with blockManager := m, allocs := allocs })
      | (.threw, allocs, m) => some (.threw, grew, { s with blockManager := m, allocs := allocs })
      | (.block p, allocs, m) =>
          some (.acquired, grew,
            ({ s with blockManager := m, allocs := allocs }.modifyPolicy p .reset).spliceBlock p)

/-! ## `Enqueue` -/

/-- The block for the next element: the one behind the tail block if it is empty, else a new one. -/
def acquireBlock (mode : AllocMode) (s : FastQueue α) : Option (Acquisition × FastQueue α) := do
  if ← s.nextIsEmpty cfg then
    let s ← s.reuseNext
    some (.acquired, s)
  else
    let (r, _, s) ← s.acquireNewBlock cfg mode s.tailIndex s.indexEntriesUsed
    some (r, s)

def enqueue (mode : AllocMode) (item : Option α) (s : FastQueue α) :
    Option (Outcome Bool × FastQueue α) := do
  let currentTailIndex := s.tailIndex
  let newTailIndex := Word.add cfg.w currentTailIndex 1
  let innerIndex := currentTailIndex % cfg.blockSize
  if innerIndex = 0 then
    let oldTailBlock := s.tailBlock
    let (r, s) ← s.acquireBlock cfg mode
    match r with
    | .refused => some (.returned false, s)
    | .threw => some (.threw, s)
    | .acquired =>
        let s ← s.writeEntry currentTailIndex
        let t ← s.tailBlock
        match item with
        | none =>
            -- a block that was the first of the ring stays its tail block
            some (.threw, { s.modifyPolicy t .setAllEmpty with tailBlock := oldTailBlock.or (some t) })
        | some a =>
            let s ← (s.construct t innerIndex a).storeTail s.nextIndexEntry
            some (.returned true, { s.advanceNextIndexEntry with tailIndex := newTailIndex })
  else
    let t ← s.tailBlock
    match item with
    | none => some (.threw, s)
    | some a => some (.returned true, { s.construct t innerIndex a with tailIndex := newTailIndex })

/-! ## `EnqueueBulk` -/

/-- The local variables of `EnqueueBulk` that its loops change, with the queue. -/
structure Bulk (α : Type) where
  queue : FastQueue α
  currentTailIndex : ℕ
  firstAllocatedBlock : Option ℕ
  originNextIndexEntry : ℕ

/-- `BlockCountNeed`: the shift of `StartTailIndex - 1` is a signed one. -/
def blockCountNeed (startTailIndex count : ℕ) : ℕ :=
  Word.sub cfg.w (Word.sub cfg.w (Word.add cfg.w count startTailIndex) 1 / cfg.blockSize)
    (Word.sar cfg.w (Word.sub cfg.w startTailIndex 1) cfg.blockSizeLog2)

namespace Bulk

/-- The local variables at the start of a call. -/
def start (s : FastQueue α) : Bulk α :=
  ⟨s, Word.alignDown cfg.blockSizeLog2 (Word.sub cfg.w s.tailIndex 1), none, s.nextIndexEntry⟩

/-- The first block the call gets is remembered. -/
def noteAllocated (b : Bulk α) : Bulk α :=
  { b with firstAllocatedBlock := b.firstAllocatedBlock.or b.queue.tailBlock }

/-- Write the index entry of the tail block and go to the next entry. -/
def enterBlock (b : Bulk α) : Option (Bulk α) :=
  (b.queue.writeEntry b.currentTailIndex).map fun s => { b with queue := s.advanceNextIndexEntry }

/-- The loop that reuses empty blocks behind the tail block. Gives how many blocks are still needed. -/
def reuseBlocks : ℕ → Bulk α → Option (ℕ × Bulk α)
  | 0, b => some (0, b)
  | need + 1, b => do
      if ← b.queue.nextIsEmpty cfg then
        let cti := Word.add cfg.w b.currentTailIndex cfg.blockSize
        let s ← b.queue.reuseNext
        let b ← ({ b with queue := s, currentTailIndex := cti }.noteAllocated).enterBlock
        reuseBlocks need b
      else some (need + 1, b)

/-- The loop that gets new blocks. -/
def newBlocks (mode : AllocMode) (originIndexEntriesUsed : ℕ) :
    ℕ → Bulk α → Option (Acquisition × Bulk α)
  | 0, b => some (.acquired, b)
  | need + 1, b => do
      let cti := Word.add cfg.w b.currentTailIndex cfg.blockSize
      let (r, grew, s) ← b.queue.acquireNewBlock cfg mode cti originIndexEntriesUsed
      let origin := if grew then originIndexEntriesUsed else b.originNextIndexEntry
      let b := { b with queue := s, currentTailIndex := cti, originNextIndexEntry := origin }
      match r with
      | .acquired =>
          let b ← b.noteAllocated.enterBlock
          newBlocks mode originIndexEntriesUsed need b
      | r => some (r, b)

/-- The block that holds the call's first element. -/
def firstBlock (startBlock : Option ℕ) (startInner : ℕ) (b : Bulk α) : Option ℕ :=
  if startInner = 0 then b.firstAllocatedBlock.or startBlock else startBlock

/-- The `RollBack` closure. -/
def rollBack (startBlock : Option ℕ) (b : Bulk α) : FastQueue α :=
  { b.queue with nextIndexEntry := b.originNextIndexEntry, tailBlock := startBlock }

end Bulk

/-- Construct the items from slot `i` of block `p` on, `n` of them. Gives the slot after the last
    constructed one, whether a constructor threw, and the items left. -/
def fillBlock (p : ℕ) : ℕ → ℕ → List (Option α) → FastQueue α →
    Option (ℕ × Outcome (List (Option α)) × FastQueue α)
  | i, 0, items, s => some (i, .returned items, s)
  | _, _ + 1, [], _ => none
  | i, _ + 1, none :: _, s => some (i, .threw, s)
  | i, n + 1, some a :: items, s => fillBlock p (i + 1) n items (s.construct p i a)

/-- The filling loop. Where it threw it gives the current block and slot. -/
def fillBlocks (lastInner : ℕ) : ℕ → ℕ → ℕ → List (Option α) → FastQueue α →
    Option (Outcome Unit × ℕ × ℕ × FastQueue α)
  | 0, _, _, _, _ => none
  | fuel + 1, cur, start, items, s => do
      let endInner := if s.tailBlock = some cur then lastInner else cfg.blockSize - 1
      let (i, r, s) ← s.fillBlock cur start (endInner + 1 - start) items
      match r with
      | .threw => some (.threw, cur, i, s)
      | .returned items =>
          if s.tailBlock = some cur then some (.returned (), cur, i, s)
          else
            let n ← (s.blocks cur).next
            fillBlocks lastInner fuel n 0 items s

/-- The blocks from `cur` to the tail block are marked as empty. -/
def setBlocksEmpty : ℕ → ℕ → FastQueue α → Option (FastQueue α)
  | 0, _, _ => none
  | fuel + 1, cur, s => do
      let s := s.modifyPolicy cur .setAllEmpty
      if s.tailBlock = some cur then some s
      else
        let n ← (s.blocks cur).next
        setBlocksEmpty fuel n s

/-- The elements from slot `start` of block `cur` to the slot before `lastInner` of block `last` are
    destroyed. -/
def destroyBlocks (last lastInner : ℕ) : ℕ → ℕ → ℕ → FastQueue α → Option (FastQueue α)
  | 0, _, _, _ => none
  | fuel + 1, cur, start, s => do
      let endInner := if cur = last then lastInner else cfg.blockSize
      let s ← s.destroyRange cur start (endInner - start)
      if cur = last then some s
      else
        let n ← (s.blocks cur).next
        destroyBlocks last lastInner fuel n 0 s

/-- All the blocks the call got are marked as empty. -/
def Bulk.setAllocatedEmpty (b : Bulk α) : Option (FastQueue α) :=
  match b.firstAllocatedBlock with
  | none => some b.queue
  | some f => b.queue.setBlocksEmpty b.queue.blockManager.blockCount f

/-- The handler of an exception thrown while filling block `cur` at slot `i`. -/
def handleFillException (startBlock : Option ℕ) (startTailIndex cur i : ℕ) (b : Bulk α) :
    Option (FastQueue α) := do
  let s ← b.setAllocatedEmpty
  let s := Bulk.rollBack startBlock { b with queue := s }
  let startInner := startTailIndex % cfg.blockSize
  let first ← b.firstBlock startBlock startInner
  s.destroyBlocks cfg cur i s.blockManager.blockCount first startInner

/-- `Tail` of the index array goes to the newest entry if the call got blocks. -/
def Bulk.storeNewestTail (b : Bulk α) : Option (FastQueue α) :=
  if b.firstAllocatedBlock.isSome then
    b.queue.storeTail (Word.sub cfg.w b.queue.nextIndexEntry 1 % b.queue.indexEntriesSize)
  else some b.queue

def enqueueBulk (mode : AllocMode) (items : List (Option α)) (s : FastQueue α) :
    Option (Outcome Bool × FastQueue α) := do
  let originIndexEntriesUsed := s.indexEntriesUsed
  let startBlock := s.tailBlock
  let startTailIndex := s.tailIndex
  let count := items.length
  let (need, b) ← Bulk.reuseBlocks cfg (blockCountNeed cfg startTailIndex count) (.start cfg s)
  let (r, b) ← Bulk.newBlocks cfg mode originIndexEntriesUsed need b
  match r with
  | .refused => some (.returned false, b.rollBack startBlock)
  | .threw => some (.threw, b.queue)
  | .acquired =>
      let startInner := startTailIndex % cfg.blockSize
      let first ← b.firstBlock startBlock startInner
      let lastInner := Word.sub cfg.w (Word.add cfg.w startTailIndex count) 1 % cfg.blockSize
      let (r, cur, i, s) ← b.queue.fillBlocks cfg lastInner (count + 1) first startInner items
      match r with
      | .threw =>
          let s ← handleFillException cfg startBlock startTailIndex cur i { b with queue := s }
          some (.threw, s)
      | .returned () =>
          let s ← Bulk.storeNewestTail cfg { b with queue := s }
          some (.returned true, { s with tailIndex := Word.add cfg.w startTailIndex count })

/-! ## `Dequeue` and `DequeueBulk` -/

/-- The block an index is looked up to, relative to the entry at the array's `Tail`. -/
def lookup (index : ℕ) (s : FastQueue α) : Option ℕ := do
  let a ← s.currentIndexEntryArray.head?
  let t ← a.get a.tail
  let offset := Word.sub cfg.w (Word.alignDown cfg.blockSizeLog2 index) t.base / cfg.blockSize
  let e ← a.get (Word.add cfg.w a.tail offset % a.size)
  some e.innerBlock

def dequeue (s : FastQueue α) : Option (Option α × FastQueue α) :=
  let failedCount := s.dequeueFailedCount
  let attemptsCount := s.dequeueAttemptsCount
  if circularLessThan cfg.w (Word.sub cfg.w attemptsCount failedCount) s.tailIndex then
    let s := { s with dequeueAttemptsCount := Word.add cfg.w attemptsCount 1 }
    if circularLessThan cfg.w (Word.sub cfg.w attemptsCount failedCount) s.tailIndex then do
      let index := s.headIndex
      let s := { s with headIndex := Word.add cfg.w index 1 }
      let p ← s.lookup cfg index
      let (a, s) ← s.takeElement p (index % cfg.blockSize)
      some (some a, s.modifyPolicy p (.setEmpty (index % cfg.blockSize)))
    else some (none, { s with dequeueFailedCount := Word.add cfg.w s.dequeueFailedCount 1 })
  else some (none, s)

/-- Move `n` elements out of a block, from slot `i` on. -/
def takeRange (p : ℕ) : ℕ → ℕ → FastQueue α → Option (List α × FastQueue α)
  | _, 0, s => some ([], s)
  | i, n + 1, s => do
      let (a, s) ← s.takeElement p i
      let (as, s) ← takeRange p (i + 1) n s
      some (a :: as, s)

/-- The loop of `DequeueBulk`: `need` elements from slot `start` of block `p` on. -/
def takeBlocks : ℕ → Option ℕ → ℕ → ℕ → FastQueue α → Option (List α × FastQueue α)
  | _, _, _, 0, s => some ([], s)
  | 0, _, _, _ + 1, _ => none
  | fuel + 1, p, start, need + 1, s => do
      let p ← p
      let endIndex := if need + 1 > cfg.blockSize - start then cfg.blockSize else need + 1 + start
      let (as, s) ← s.takeRange p start (endIndex - start)
      let next := (s.blocks p).next
      let s := s.modifyPolicy p (.setSomeEmpty start (endIndex - start))
      let (as', s) ← takeBlocks fuel next 0 (need + 1 - (endIndex - start)) s
      some (as ++ as', s)

def dequeueBulk (maxCount : ℕ) (s : FastQueue α) : Option (List α × FastQueue α) :=
  let failedCount := s.dequeueFailedCount
  let attemptsCount := s.dequeueAttemptsCount
  let desired := Word.sub cfg.w s.tailIndex (Word.sub cfg.w attemptsCount failedCount)
  if circularLessThan cfg.w 0 desired then
    let desired := min desired maxCount
    let s := { s with dequeueAttemptsCount := Word.add cfg.w attemptsCount desired }
    let actual := Word.sub cfg.w s.tailIndex (Word.sub cfg.w attemptsCount failedCount)
    if circularLessThan cfg.w 0 actual then do
      let actual := min actual desired
      let s := if actual < desired then
          { s with dequeueFailedCount := Word.add cfg.w s.dequeueFailedCount (desired - actual) }
        else s
      let index := s.headIndex
      let s := { s with headIndex := Word.add cfg.w index actual }
      let p ← s.lookup cfg index
      s.takeBlocks cfg actual (some p) (index % cfg.blockSize) actual
    else some ([], { s with dequeueFailedCount := Word.add cfg.w s.dequeueFailedCount desired })
  else some ([], s)

/-! ## `Clear` -/

/-- The search for the half dequeued block: from entry `i` on, the first whose block does not end before
    the head. After `size` entries the search has come round and never ends. -/
def findHalfDequeued (a : IndexEntryArray) (size head : ℕ) : ℕ → ℕ → Option ℕ
  | 0, _ => none
  | fuel + 1, i => do
      let e ← a.get i
      if circularLessThan cfg.w (Word.add cfg.w e.base cfg.blockSize) head then
        findHalfDequeued a size head fuel ((i + 1) % size)
      else some e.innerBlock

/-- `HalfDequeuedBlock` -/
def halfDequeuedBlock (s : FastQueue α) : Option (Option ℕ) :=
  if s.headIndex % cfg.blockSize ≠ 0 then do
    let a ← s.currentIndexEntryArray.head?
    let i := Word.sub cfg.w s.nextIndexEntry s.indexEntriesUsed % s.indexEntriesSize
    let p ← findHalfDequeued cfg a s.indexEntriesSize s.headIndex s.indexEntriesSize i
    some (some p)
  else some none

/-- The loop that destroys what is left in the blocks, from the block behind `block` to block `t`. -/
def clearBlocks (half : Option ℕ) (t : ℕ) : ℕ → ℕ → FastQueue α → Option (FastQueue α)
  | 0, _, _ => none
  | fuel + 1, block, s => do
      let p ← (s.blocks block).next
      let s ← if s.blockIsEmpty cfg p then some s
        else
          let i := if half = some p then s.headIndex % cfg.blockSize else 0
          let temp := s.tailIndex % cfg.blockSize
          let lastIndex := if temp = 0 then cfg.blockSize else temp
          let stop := if p = t ∧ i ≤ lastIndex then lastIndex else cfg.blockSize
          s.destroyRange p i (stop - i)
      if p = t then some s else clearBlocks half t fuel p s

/-- The loop that returns the blocks to the manager, from `block` to the one before block `t`. -/
def returnBlocks (t : ℕ) : ℕ → ℕ → FastQueue α → Option (FastQueue α)
  | 0, _, _ => none
  | fuel + 1, block, s => do
      let n ← (s.blocks block).next
      let s := { s with blockManager := s.blockManager.returnBlock block,
                        events := s.events ++ [.returned block] }
      if n = t then some s else returnBlocks t fuel n s

/-- `Clear`, up to giving back the memory of the index arrays. -/
def clear (s : FastQueue α) : Option (FastQueue α) :=
  match s.tailBlock with
  | none => some s
  | some t => do
      let half ← s.halfDequeuedBlock cfg
      let s ← s.clearBlocks cfg half t s.blockManager.blockCount t
      s.returnBlocks t s.blockManager.blockCount t

end FastQueue

end LockFreeStructures
