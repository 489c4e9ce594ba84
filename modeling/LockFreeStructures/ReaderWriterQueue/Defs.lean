import LockFreeStructures.Common.Utility
import LockFreeStructures.Lib.Transition
import LockFreeStructures.Queue.BlockManager

/-!
# `ReaderWriterQueue.Defs` — one producer and one consumer, one access at a time

Every access to `FrontBlock`, `TailBlock` or a block's `Front`, `Tail` or `Next` is a step; so is the making and
the taking of an element. `LocalTail`, `LocalFront` and `BlockSize` belong to one side each, and their accesses
to the step before. `BlockSize` is what `EXPECTED_BLOCK_SIZE` is called in `Cfg`. Blocks are numbered as they
are made.
-/

namespace LockFreeStructures

namespace ReaderWriterQueue

structure Block (V : Type) where
  front : ℕ
  localTail : ℕ
  tail : ℕ
  localFront : ℕ
  next : Option ℕ
  /-- how many slots `Data` has -/
  size : ℕ
  /-- an element, or none where there is none -/
  data : ℕ → Option V
  sizeMask : ℕ

inductive Op where
  | tryDequeue
  | peek
  | pop
  deriving DecidableEq, Repr

/-- What a call of the consumer gave: the slot of the element, if any. -/
structure Outcome where
  op : Op
  slot : Option (ℕ × ℕ)
  /-- the queue has been empty since the call began -/
  wasEmpty : Bool
  deriving DecidableEq, Repr

structure Memory (V : Type) where
  frontBlock : ℕ
  tailBlock : ℕ
  blockSize : ℕ
  blocks : ℕ → Block V
  blockCount : ℕ
  /-- the values successfully enqueued -/
  enqueued : List V
  /-- the values taken, none where there was no element -/
  consumed : List (Option V)
  /-- what the consumer's calls gave, the last first -/
  outcomes : List Outcome
  /-- the queue has been empty since the consumer's call began -/
  wasEmpty : Bool

variable {V : Type}

/-- `MakeBlock` -/
def makeBlock (cfg : Cfg) (size : ℕ) : Block V :=
  { front := 0, localTail := 0, tail := 0, localFront := 0, next := none, size := size, data := fun _ => none
    sizeMask := Word.sub cfg.w size 1 }

namespace Block

/-- An element is constructed in a slot. There is none past the end. -/
def construct (i : ℕ) (v : V) (b : Block V) : Block V :=
  if i < b.size then { b with data := Function.update b.data i (some v) } else b

def destroy (i : ℕ) (b : Block V) : Block V := { b with data := Function.update b.data i none }

/-- The index after `i`. -/
def succ (i : ℕ) (b : Block V) : ℕ := (i + 1) &&& b.sizeMask

end Block

/-- The blocks the constructor makes: how many, and their size. -/
def initialBlocks (cfg : Cfg) (reservedSize : ℕ) : ℕ × ℕ :=
  let size := ceilToPow2 cfg.sizeofSize (reservedSize + 1)
  if cfg.blockSize < size then ((reservedSize + cfg.blockSize * 2 - 3) / (cfg.blockSize - 1), cfg.blockSize)
  else (1, size)

/-- `ReaderWriterQueue( ReservedSize )` -/
def Memory.fresh (cfg : Cfg) (reservedSize : ℕ) : Memory V :=
  let (count, size) := initialBlocks cfg reservedSize
  { frontBlock := 0, tailBlock := 0, blockSize := size
    blocks := fun b => { makeBlock cfg size with next := some ((b + 1) % count) }
    blockCount := count, enqueued := [], consumed := [], outcomes := [], wasEmpty := true }

namespace Memory

def updateBlock (b : ℕ) (f : Block V → Block V) (m : Memory V) : Memory V :=
  { m with blocks := Function.update m.blocks b (f (m.blocks b)) }

/-- `BlockSize` before a block is made. -/
def grow (cfg : Cfg) (m : Memory V) : Memory V :=
  { m with
    blockSize :=
      if m.blockSize < cfg.blockSize then
        if cfg.blockSize < m.blockSize * 2 then cfg.blockSize else m.blockSize * 2
      else m.blockSize }

/-- The new block, with its first element. -/
def addBlock (cfg : Cfg) (v : V) (m : Memory V) : Memory V :=
  { m with
    blocks := Function.update m.blocks m.blockCount
      { (makeBlock cfg m.blockSize).construct 0 v with tail := 1, localTail := 1 }
    blockCount := m.blockCount + 1 }

/-- Notes whether the queue is empty. -/
def note (m : Memory V) : Memory V :=
  { m with wasEmpty := m.wasEmpty || decide (m.enqueued.length = m.consumed.length) }

end Memory

/-! ## The consumer -/

/-- Where the consumer is in `TryDequeue`, `Peek` or `Pop`. -/
inductive ConsumerPc (V : Type) where
  | idle
  | loadFrontBlock (op : Op)
  | loadFront (op : Op) (block : ℕ)
  | loadTailBlock (op : Op) (block front localTail : ℕ)
  /-- at the load of `Tail` in the first condition, and in the second -/
  | loadTail (op : Op) (block front localTail : ℕ)
  | reloadTail (op : Op) (block front : ℕ)
  /-- the front block is empty and not the last -/
  | loadNext (op : Op) (block : ℕ)
  | loadNextFront (op : Op) (block : ℕ)
  | loadNextTail (op : Op) (block front : ℕ)
  | storeFrontBlock (op : Op) (block front : ℕ)
  /-- at the element, and then at the store of `Front` -/
  | take (op : Op) (block front : ℕ)
  | storeFront (op : Op) (block front : ℕ) (v : Option V)
  /-- `assert( BlockFront != BlockTail )` has failed -/
  | assertFailed

section Consumer

variable (m : Memory V)

/-- The call returns. -/
def Memory.finish (op : Op) (slot : Option (ℕ × ℕ)) : Memory V × ConsumerPc V :=
  ({ m with outcomes := ⟨op, slot, m.wasEmpty⟩ :: m.outcomes }, .idle)

/-- The element at the front of a block: `Peek` only gives its place. -/
def useFront (op : Op) (block front : ℕ) : Memory V × ConsumerPc V :=
  match op with
  | .peek => m.finish .peek (some (block, front))
  | .tryDequeue | .pop => (m, .take op block front)

/-- The second condition. -/
def orElse (op : Op) (block front tail : ℕ) : Memory V × ConsumerPc V :=
  if front ≠ tail then useFront m op block front else (m, .reloadTail op block front)

/-- The next access of the consumer. -/
def consume : ConsumerPc V → Option (Memory V × ConsumerPc V)
  | .idle => none
  | .loadFrontBlock op => some (m, .loadFront op m.frontBlock)
  | .loadFront op b => some (m, .loadTailBlock op b (m.blocks b).front (m.blocks b).localTail)
  | .loadTailBlock op b front localTail =>
      -- `TryDequeue` does not compare with `LocalTail` first
      if b ≠ m.tailBlock ∧ (op = .tryDequeue ∨ front = localTail) then some (m, .loadTail op b front localTail)
      else some (orElse m op b front localTail)
  | .loadTail op b front localTail =>
      let tail := (m.blocks b).tail
      let m := m.updateBlock b fun block => { block with localTail := tail }
      if front = tail then some (m, .loadNext op b)
      else some (orElse m op b front (if op = .tryDequeue then tail else localTail))
  | .reloadTail op b front =>
      let tail := (m.blocks b).tail
      let m := m.updateBlock b fun block => { block with localTail := tail }
      if front ≠ tail then some (useFront m op b front) else some (m.finish op none)
  | .loadNext op b => (m.blocks b).next.map fun next => (m, .loadNextFront op next)
  | .loadNextFront op b => some (m, .loadNextTail op b (m.blocks b).front)
  | .loadNextTail op b front =>
      let tail := (m.blocks b).tail
      let m := m.updateBlock b fun block => { block with localTail := tail }
      if front = tail then some (m, .assertFailed)
      else
        match op with
        | .peek => some (m.finish .peek (some (b, front)))
        | .tryDequeue | .pop => some (m, .storeFrontBlock op b front)
  | .storeFrontBlock op b front => some ({ m with frontBlock := b }, .take op b front)
  | .take op b front =>
      some (m.updateBlock b (Block.destroy front), .storeFront op b front ((m.blocks b).data front))
  | .storeFront op b front v =>
      let m := m.updateBlock b fun block => { block with front := block.succ front }
      some ({ m with consumed := m.consumed ++ [v] }.finish op (some (b, front)))
  | .assertFailed => none

end Consumer

/-! ## The producer -/

/-- Where the producer is in `InnerEnqueue`. -/
inductive ProducerPc (V : Type) where
  | idle
  | loadTailBlock (mode : AllocMode) (v : V)
  | loadTail (mode : AllocMode) (v : V) (block : ℕ)
  | loadFront (mode : AllocMode) (v : V) (block tail : ℕ)
  | construct (v : V) (block tail : ℕ)
  | storeTail (v : V) (block tail : ℕ)
  /-- the tail block is full -/
  | loadNext (mode : AllocMode) (v : V) (block : ℕ)
  | loadFrontBlock (mode : AllocMode) (v : V) (block : ℕ) (next : Option ℕ)
  /-- the next block is free -/
  | loadNextBlock (v : V) (block : ℕ)
  | loadNextTail (v : V) (block : ℕ)
  | loadNextFront (v : V) (block tail : ℕ)
  | constructNext (v : V) (block tail : ℕ)
  | storeNextTail (v : V) (block tail : ℕ)
  /-- a new block is made and linked in -/
  | makeBlock (v : V) (block : ℕ)
  | loadNewNext (v : V) (block newBlock : ℕ)
  | storeNext (v : V) (block newBlock : ℕ)
  | storeTailBlock (v : V) (block : ℕ)
  /-- `assert( BlockFront == NextBlockTail )` has failed -/
  | assertFailed

/-- The enqueue succeeds. -/
def Memory.enqueue (v : V) (m : Memory V) : Memory V × ProducerPc V :=
  ({ m with enqueued := m.enqueued ++ [v] }, .idle)

/-- The next access of the producer. -/
def produce (cfg : Cfg) (m : Memory V) : ProducerPc V → Option (Memory V × ProducerPc V)
  | .idle => none
  | .loadTailBlock mode v => some (m, .loadTail mode v m.tailBlock)
  | .loadTail mode v b =>
      let tail := (m.blocks b).tail
      if (m.blocks b).succ tail ≠ (m.blocks b).localFront then some (m, .construct v b tail)
      else some (m, .loadFront mode v b tail)
  | .loadFront mode v b tail =>
      let front := (m.blocks b).front
      let m := m.updateBlock b fun block => { block with localFront := front }
      if (m.blocks b).succ tail ≠ front then some (m, .construct v b tail) else some (m, .loadNext mode v b)
  | .construct v b tail => some (m.updateBlock b (Block.construct tail v), .storeTail v b tail)
  | .storeTail v b tail =>
      some ((m.updateBlock b fun block => { block with tail := block.succ tail }).enqueue v)
  | .loadNext mode v b => some (m, .loadFrontBlock mode v b (m.blocks b).next)
  | .loadFrontBlock mode v b next =>
      if next ≠ some m.frontBlock then some (m, .loadNextBlock v b)
      else
        match mode with
        | .canAlloc => some (m, .makeBlock v b)
        | .cannotAlloc => some (m, .idle)
  | .loadNextBlock v b => (m.blocks b).next.map fun next => (m, .loadNextTail v next)
  | .loadNextTail v b => some (m, .loadNextFront v b (m.blocks b).tail)
  | .loadNextFront v b tail =>
      let front := (m.blocks b).front
      let m := m.updateBlock b fun block => { block with localFront := front }
      if front = tail then some (m, .constructNext v b tail) else some (m, .assertFailed)
  | .constructNext v b tail => some (m.updateBlock b (Block.construct tail v), .storeNextTail v b tail)
  | .storeNextTail v b tail =>
      some (m.updateBlock b fun block => { block with tail := block.succ tail }, .storeTailBlock v b)
  | .makeBlock v b => some ((m.grow cfg).addBlock cfg v, .loadNewNext v b m.blockCount)
  | .loadNewNext v b newBlock =>
      let next := (m.blocks b).next
      some (m.updateBlock newBlock fun block => { block with next := next }, .storeNext v b newBlock)
  | .storeNext v b newBlock =>
      some (m.updateBlock b fun block => { block with next := some newBlock }, .storeTailBlock v newBlock)
  | .storeTailBlock v b => some ({ m with tailBlock := b }.enqueue v)
  | .assertFailed => none

/-! ## Runs -/

structure State (V : Type) where
  memory : Memory V
  producer : ProducerPc V
  consumer : ConsumerPc V

/-- No call in progress. -/
def State.fresh (cfg : Cfg) (reservedSize : ℕ) : State V := ⟨.fresh cfg reservedSize, .idle, .idle⟩

inductive Act (V : Type) where
  /-- `Enqueue` and `Emplace` can allocate, `TryEnqueue` and `TryEmplace` cannot -/
  | enqueue (mode : AllocMode) (v : V)
  | produce
  /-- `MakeBlock` gives no block -/
  | noBlock
  | dequeue (op : Op)
  | consume

inductive Step (cfg : Cfg) : State V → Act V → State V → Prop
  | enqueue {s : State V} (mode : AllocMode) (v : V) (h : s.producer = .idle) :
      Step cfg s (.enqueue mode v) { s with producer := .loadTailBlock mode v }
  | produce {s : State V} {m : Memory V} {pc : ProducerPc V} (h : produce cfg s.memory s.producer = some (m, pc)) :
      Step cfg s .produce { s with memory := m.note, producer := pc }
  | noBlock {s : State V} {v : V} {b : ℕ} (h : s.producer = .makeBlock v b) :
      Step cfg s .noBlock { s with memory := s.memory.grow cfg, producer := .idle }
  | dequeue {s : State V} (op : Op) (h : s.consumer = .idle) :
      Step cfg s (.dequeue op)
        { s with memory := { s.memory with wasEmpty := false }.note, consumer := .loadFrontBlock op }
  | consume {s : State V} {m : Memory V} {pc : ConsumerPc V} (h : consume s.memory s.consumer = some (m, pc)) :
      Step cfg s .consume { s with memory := m.note, consumer := pc }

end ReaderWriterQueue

end LockFreeStructures
