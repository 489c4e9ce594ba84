import LockFreeStructures.FastQueue.Defs
import LockFreeStructures.Queue.DequeueCounters

/-!
# `FastQueue.Shared` — the explicit producer's queue between threads

One producer runs `EnqueueBulk`, the others `Dequeue` and `DequeueBulk`; an `Enqueue` makes the accesses of an
`EnqueueBulk` of one item. Every access to `TailIndex`, `HeadIndex`, the two counts, `CurrentIndexEntryArray`, the
`Tail` and the entries of an index array, a block's `Next`, a flag or a slot is a step of its own. Indices and counts
are words.

`none` is undefined behaviour (an unwritten entry used, a null pointer followed, a slot read that holds no element).
Nothing throws. An enqueue fails, and rolls back, where the queue is full, where it needs a larger index array that it
may not or cannot make, and where the block manager has no block for it.
-/

namespace LockFreeStructures

namespace SharedFastQueue

/-! ## The memory -/

structure Block (α : Type) where
  elements : ℕ → Option α
  flags : ℕ → Bool
  next : ℕ

/-- The entries are `none` until they are written. -/
structure IndexEntryArray where
  size : ℕ
  tail : ℕ
  base : ℕ → Option ℕ
  innerBlock : ℕ → Option ℕ
  /-- the `k`-th block's entry is the one at `( k + shift ) % size` -/
  shift : ℕ

/-- Where an element is on its way out. -/
inductive Phase (T : Type) where
  | waiting
  | claimed (t : T)
  | moved (t : T)
  | destroyed (t : T)
  | done

structure Delivery (T α : Type) where
  thread : T
  index : ℕ
  value : α

structure Memory (T α : Type) where
  counters : DequeueCounters.Memory T
  blocks : ℕ → Block α
  /-- the index arrays so far -/
  arrays : ℕ → IndexEntryArray
  /-- the number of the array `CurrentIndexEntryArray` points to -/
  currentIndexEntryArray : ℕ
  tailBlock : Option ℕ
  /-- `PO_NextIndexEntry` -/
  nextIndexEntry : ℕ
  /-- `PO_IndexEntriesUsed` -/
  indexEntriesUsed : ℕ
  /-- the block that the indices from `k * BlockSize` on were given -/
  blockOf : ℕ → ℕ
  /-- how many times a block became the tail block -/
  started : ℕ
  /-- how many entries were written -/
  indexed : ℕ
  /-- the elements constructed so far -/
  written : List α
  /-- the items of the calls that have returned -/
  enqueued : List α
  phase : ℕ → Phase T
  /-- what consumers moved out, the latest first -/
  delivered : List (Delivery T α)

/-- The variables of `EnqueueBulk`. -/
structure ProducerLocals (α : Type) where
  mode : AllocMode
  items : List α
  startTailIndex : ℕ
  startBlock : Option ℕ
  originIndexEntriesUsed : ℕ
  originNextIndexEntry : ℕ
  blockCountNeed : ℕ
  currentTailIndex : ℕ
  firstAllocatedBlock : Option ℕ
  /-- still in the first loop -/
  reusing : Bool

inductive ProducerPc (α : Type) where
  | idle (returned : Option Bool)
  | acquire (l : ProducerLocals α)
  | isEmpty (l : ProducerLocals α) (p i : ℕ)
  | loadHeadIndex (l : ProducerLocals α)
  | indexArray (l : ProducerLocals α)
  | requisitionBlock (l : ProducerLocals α)
  | reset (l : ProducerLocals α) (p : ℕ) (fresh : Bool) (i : ℕ)
  | linkBlock (l : ProducerLocals α) (p : ℕ)
  | linkTail (l : ProducerLocals α) (p : ℕ)
  | entryBase (l : ProducerLocals α)
  | entryBlock (l : ProducerLocals α)
  | fill (l : ProducerLocals α) (p i : ℕ) (rest : List α)
  | storeTail (l : ProducerLocals α)
  | storeTailIndex (l : ProducerLocals α)
  /-- about to roll back and return false -/
  | giveUp (l : ProducerLocals α)

/-- The variables of `Dequeue` and `DequeueBulk`. -/
structure ConsumerLocals where
  call : DequeueCounters.Call
  actualCount : ℕ
  /-- the index of the next element to move out -/
  index : ℕ
  needCount : ℕ
  startIndex : ℕ
  currentIndex : ℕ
  endIndex : ℕ

inductive ConsumerPc where
  | counting (c : DequeueCounters.Call) (pc : DequeueCounters.Pc)
  | loadArray (l : ConsumerLocals)
  | loadTail (l : ConsumerLocals) (a : ℕ)
  | readBase (l : ConsumerLocals) (a tail : ℕ)
  | readBlock (l : ConsumerLocals) (a tail base : ℕ)
  | block (l : ConsumerLocals) (p : Option ℕ)
  | move (l : ConsumerLocals) (p : ℕ)
  | destroy (l : ConsumerLocals) (p : ℕ)
  | readNext (l : ConsumerLocals) (p : ℕ)
  | setEmpty (l : ConsumerLocals) (p next i : ℕ)

inductive Pc (α : Type) where
  | producer (pc : ProducerPc α)
  | consumer (pc : ConsumerPc)

inductive Act (α : Type) where
  | enqueueBulk (mode : AllocMode) (items : List α)
  /-- the allocation of an index array fails -/
  | noArray
  /-- the block manager gives block `p` with whatever is in it -/
  | requisition (p : ℕ) (content : Block α)
  /-- the block manager gives no block -/
  | noBlock
  | call (c : DequeueCounters.Call)
  | access (tailFirst : Bool)

variable {T α : Type}

namespace Memory

def modifyBlock (p : ℕ) (f : Block α → Block α) (m : Memory T α) : Memory T α :=
  { m with blocks := Function.update m.blocks p (f (m.blocks p)) }

def setElement (p i : ℕ) (x : Option α) (m : Memory T α) : Memory T α :=
  m.modifyBlock p fun b => { b with elements := Function.update b.elements i x }

def setFlag (p i : ℕ) (empty : Bool) (m : Memory T α) : Memory T α :=
  m.modifyBlock p fun b => { b with flags := Function.update b.flags i empty }

def setNext (p n : ℕ) (m : Memory T α) : Memory T α := m.modifyBlock p fun b => { b with next := n }

def current (m : Memory T α) : IndexEntryArray := m.arrays m.currentIndexEntryArray

def modifyCurrent (f : IndexEntryArray → IndexEntryArray) (m : Memory T α) : Memory T α :=
  { m with arrays := Function.update m.arrays m.currentIndexEntryArray (f m.current) }

def setPhase (i : ℕ) (x : Phase T) (m : Memory T α) : Memory T α := { m with phase := Function.update m.phase i x }

/-- Block `p` is the tail block from now on. -/
def start (p : ℕ) (m : Memory T α) : Memory T α :=
  { m with tailBlock := some p, blockOf := Function.update m.blockOf m.started p, started := m.started + 1 }

/-- The first block in the ring. -/
def oldest (m : Memory T α) : ℕ := m.started - m.indexEntriesUsed

def InRing (m : Memory T α) (p : ℕ) : Prop := ∃ k, m.oldest ≤ k ∧ k < m.started ∧ m.blockOf k = p

instance (m : Memory T α) (p : ℕ) : Decidable (m.InRing p) :=
  decidable_of_iff (∃ k < m.started, m.oldest ≤ k ∧ m.blockOf k = p)
    ⟨fun ⟨k, hlt, hle, hp⟩ => ⟨k, hle, hlt, hp⟩, fun ⟨k, hle, hlt, hp⟩ => ⟨k, hlt, hle, hp⟩⟩

/-- `CreateNewBlockIndexArray( filledSlot )`: the old array is full, and the copying starts at the oldest entry. -/
def createNewBlockIndexArray (cfg : Cfg) (filledSlot : ℕ) (m : Memory T α) : Memory T α :=
  let a := m.current
  let i := Word.sub cfg.w m.nextIndexEntry m.indexEntriesUsed % a.size
  { m with
    arrays := Function.update m.arrays (m.currentIndexEntryArray + 1)
      { size := 2 * a.size
        tail := Word.sub cfg.w filledSlot 1
        base := fun j => if j < m.indexEntriesUsed then a.base ((i + j) % a.size) else none
        innerBlock := fun j => if j < m.indexEntriesUsed then a.innerBlock ((i + j) % a.size) else none
        shift := m.indexEntriesUsed + (2 * a.size - m.started % (2 * a.size)) }
    currentIndexEntryArray := m.currentIndexEntryArray + 1
    nextIndexEntry := m.indexEntriesUsed }

/-- The `RollBack` closure. -/
def rollBack (l : ProducerLocals α) (m : Memory T α) : Memory T α :=
  { m with nextIndexEntry := l.originNextIndexEntry, tailBlock := l.startBlock }

end Memory

/-! ## The accesses -/

section Accesses

variable (cfg : Cfg)

namespace ProducerLocals

def startIndex (l : ProducerLocals α) : ℕ := l.startTailIndex % cfg.blockSize

/-- One block less is needed. -/
def nextBlock (l : ProducerLocals α) : ProducerLocals α :=
  { l with
    blockCountNeed := l.blockCountNeed - 1, currentTailIndex := Word.add cfg.w l.currentTailIndex cfg.blockSize }

def allocated (p : ℕ) (l : ProducerLocals α) : ProducerLocals α :=
  { l with firstAllocatedBlock := some (l.firstAllocatedBlock.getD p) }

/-- `CurrentBlock` before the filling. -/
def firstBlock (l : ProducerLocals α) : Option ℕ :=
  if l.startIndex cfg = 0 ∧ l.firstAllocatedBlock ≠ none then l.firstAllocatedBlock else l.startBlock

end ProducerLocals

/-- The head of `EnqueueBulk`. -/
def enqueueBulk (mode : AllocMode) (items : List α) (m : Memory T α) : ProducerLocals α :=
  let tail := m.counters.tailIndex
  { mode := mode
    items := items
    startTailIndex := tail
    startBlock := m.tailBlock
    originIndexEntriesUsed := m.indexEntriesUsed
    originNextIndexEntry := m.nextIndexEntry
    blockCountNeed := FastQueue.blockCountNeed cfg tail items.length
    currentTailIndex := Word.alignDown cfg.blockSizeLog2 (Word.sub cfg.w tail 1)
    firstAllocatedBlock := none
    reusing := true }

/-- The next access of the producer. -/
def produce (m : Memory T α) : ProducerPc α → Option (Memory T α × ProducerPc α)
  | .idle _ => none
  | .acquire l =>
      if l.blockCountNeed = 0 then (l.firstBlock cfg).map fun p => (m, .fill l p (l.startIndex cfg) l.items)
      else
        match l.reusing, m.tailBlock with
        | true, some p => some (m, .isEmpty l (m.blocks p).next 0)
        | _, _ => some (m, .loadHeadIndex { l.nextBlock cfg with reusing := false })
  | .isEmpty l p i =>
      if (m.blocks p).flags i = false then some (m, .acquire { l with reusing := false })
      else if i + 1 = cfg.blockSize then some (m.start p, .reset ((l.nextBlock cfg).allocated p) p false 0)
      else some (m, .isEmpty l p (i + 1))
  | .loadHeadIndex l =>
      if circularLessThan cfg.w m.counters.headIndex (Word.add cfg.w l.currentTailIndex cfg.blockSize) then
        some (m, .indexArray l)
      else some (m, .giveUp l)
  | .indexArray l =>
      if m.indexEntriesUsed = m.current.size then
        match l.mode with
        | .cannotAlloc => some (m, .giveUp l)
        | .canAlloc =>
            some (m.createNewBlockIndexArray cfg l.originIndexEntriesUsed,
              .requisitionBlock { l with originNextIndexEntry := l.originIndexEntriesUsed })
      else some (m, .requisitionBlock l)
  | .requisitionBlock _ => none
  | .reset l p fresh i =>
      some (m.setFlag p i false,
        if i + 1 = cfg.blockSize then (if fresh then .linkBlock l p else .entryBase l) else .reset l p fresh (i + 1))
  | .linkBlock l p =>
      match m.tailBlock with
      | none =>
          some ({ m.setNext p p with indexEntriesUsed := m.indexEntriesUsed + 1 }.start p, .entryBase (l.allocated p))
      | some tail => some (m.setNext p (m.blocks tail).next, .linkTail l p)
  | .linkTail l p =>
      m.tailBlock.map fun tail =>
        ({ m.setNext tail p with indexEntriesUsed := m.indexEntriesUsed + 1 }.start p, .entryBase (l.allocated p))
  | .entryBase l =>
      some (m.modifyCurrent fun a => { a with
          base := Function.update a.base m.nextIndexEntry (some l.currentTailIndex) }, .entryBlock l)
  | .entryBlock l =>
      let m' := m.modifyCurrent fun a => { a with
        innerBlock := Function.update a.innerBlock m.nextIndexEntry m.tailBlock }
      some ({ m' with nextIndexEntry := (m.nextIndexEntry + 1) % m.current.size, indexed := m.indexed + 1 }, .acquire l)
  | .fill l p i rest =>
      let last :=
        if m.tailBlock = some p then Word.sub cfg.w (Word.add cfg.w l.startTailIndex l.items.length) 1 % cfg.blockSize
        else cfg.blockSize - 1
      if i ≤ last then
        match rest with
        | [] => none
        | x :: rest => some ({ m.setElement p i (some x) with written := m.written ++ [x] }, .fill l p (i + 1) rest)
      else if m.tailBlock = some p then
        some (m, if l.firstAllocatedBlock = none then .storeTailIndex l else .storeTail l)
      else some (m, .fill l (m.blocks p).next 0 rest)
  | .storeTail l =>
      some (m.modifyCurrent fun a => { a with tail := Word.sub cfg.w m.nextIndexEntry 1 % a.size }, .storeTailIndex l)
  | .storeTailIndex l =>
      some ({ m with
        counters := { m.counters with tailIndex := Word.add cfg.w l.startTailIndex l.items.length }
        enqueued := m.enqueued ++ l.items }, .idle (some true))
  | .giveUp l => some (m.rollBack l, .idle (some false))

/-- What comes after an access to the counters. -/
def afterCounting (c : DequeueCounters.Call) (headIndex : ℕ) (pc pc' : DequeueCounters.Pc) : ConsumerPc :=
  match pc with
  | .addHeadIndex _ actual =>
      .loadArray { call := c, actualCount := actual, index := headIndex, needCount := actual,
                   startIndex := headIndex % cfg.blockSize, currentIndex := 0, endIndex := 0 }
  | _ => .counting c pc'

/-- The indices from `i` on, `n` of them, are thread `t`'s. -/
def claim (t : T) (i n : ℕ) (phase : ℕ → Phase T) : ℕ → Phase T := fill phase i n (.claimed t)

/-- How many indices the access claims. -/
def claimed : DequeueCounters.Pc → ℕ
  | .addHeadIndex _ actual => actual
  | _ => 0

/-- The next access of consumer `t`. -/
def consume (t : T) (tailFirst : Bool) (m : Memory T α) : ConsumerPc → Option (Memory T α × ConsumerPc)
  | .counting c pc =>
      (DequeueCounters.access cfg.w t tailFirst m.counters pc).map fun r =>
        ({ m with counters := r.1, phase := claim t m.counters.headIndex (claimed pc) m.phase },
          afterCounting cfg c m.counters.headIndex pc r.2)
  | .loadArray l => some (m, .loadTail l m.currentIndexEntryArray)
  | .loadTail l a => some (m, .readBase l a (m.arrays a).tail)
  | .readBase l a tail =>
      if tail < (m.arrays a).size then ((m.arrays a).base tail).map fun base => (m, .readBlock l a tail base)
      else none
  | .readBlock l a tail base =>
      let offset := Word.sub cfg.w (Word.alignDown cfg.blockSizeLog2 l.index) base / cfg.blockSize
      some (m, .block l ((m.arrays a).innerBlock (Word.add cfg.w tail offset % (m.arrays a).size)))
  | .block l p =>
      if l.needCount = 0 then some (m, .counting l.call (.idle (some l.actualCount)))
      else
        p.map fun p => (m, .move { l with
          currentIndex := l.startIndex
          endIndex :=
            if cfg.blockSize - l.startIndex < l.needCount then cfg.blockSize else l.needCount + l.startIndex } p)
  | .move l p =>
      ((m.blocks p).elements l.currentIndex).map fun x =>
        ({ m.setPhase l.index (.moved t) with delivered := ⟨t, l.index, x⟩ :: m.delivered }, .destroy l p)
  | .destroy l p =>
      ((m.blocks p).elements l.currentIndex).map fun _ =>
        let l' := { l with
          index := l.index + 1, needCount := l.needCount - 1, currentIndex := l.currentIndex + 1 }
        ((m.setElement p l.currentIndex none).setPhase l.index (.destroyed t),
          if l'.currentIndex = l.endIndex then
            match l.call with
            | .dequeue => .setEmpty l' p p l.startIndex
            | .dequeueBulk _ => .readNext l' p
          else .move l' p)
  | .readNext l p => some (m, .setEmpty l p (m.blocks p).next l.startIndex)
  | .setEmpty l p next i =>
      some ((m.setFlag p i true).setPhase (l.index + i - l.endIndex) .done,
        if i + 1 = l.endIndex then .block { l with startIndex := 0 } (some next) else .setEmpty l p next (i + 1))

/-- The producer is thread `none`. A block the manager gives is not one of the ring. -/
inductive ThreadStep : Option T → Memory T α × Pc α → Act α → Memory T α × Pc α → Prop
  | enqueueBulk {m : Memory T α} {returned : Option Bool} {mode : AllocMode} {items : List α} (h : items ≠ []) :
      ThreadStep none (m, .producer (.idle returned)) (.enqueueBulk mode items)
        (m, .producer (.acquire (SharedFastQueue.enqueueBulk cfg mode items m)))
  | noArray {m : Memory T α} {l : ProducerLocals α} (hfull : m.indexEntriesUsed = m.current.size)
      (hmode : l.mode = .canAlloc) :
      ThreadStep none (m, .producer (.indexArray l)) .noArray (m, .producer (.giveUp l))
  | requisition {m : Memory T α} {l : ProducerLocals α} {p : ℕ} {content : Block α} (h : ¬ m.InRing p) :
      ThreadStep none (m, .producer (.requisitionBlock l)) (.requisition p content)
        (m.modifyBlock p fun _ => content, .producer (.reset l p true 0))
  | noBlock {m : Memory T α} {l : ProducerLocals α} :
      ThreadStep none (m, .producer (.requisitionBlock l)) .noBlock (m, .producer (.giveUp l))
  | produce {m : Memory T α} {pc : ProducerPc α} {tailFirst : Bool} {r : Memory T α × ProducerPc α}
      (h : SharedFastQueue.produce cfg m pc = some r) :
      ThreadStep none (m, .producer pc) (.access tailFirst) (r.1, .producer r.2)
  | call {t : T} {m : Memory T α} {c c' : DequeueCounters.Call} {returned : Option ℕ} :
      ThreadStep (some t) (m, .consumer (.counting c (.idle returned))) (.call c')
        (m, .consumer (.counting c' (.loadFailedCount c')))
  | consume {t : T} {m : Memory T α} {pc : ConsumerPc} {tailFirst : Bool} {r : Memory T α × ConsumerPc}
      (h : SharedFastQueue.consume cfg t tailFirst m pc = some r) :
      ThreadStep (some t) (m, .consumer pc) (.access tailFirst) (r.1, .consumer r.2)

/-- The step of a thread, computed. -/
def threadStep : Option T → Act α → Memory T α × Pc α → Option (Memory T α × Pc α)
  | none, .enqueueBulk mode (x :: items), (m, .producer (.idle _)) =>
      some (m, .producer (.acquire (enqueueBulk cfg mode (x :: items) m)))
  | none, .noArray, (m, .producer (.indexArray l)) =>
      if m.indexEntriesUsed = m.current.size ∧ l.mode = .canAlloc then some (m, .producer (.giveUp l)) else none
  | none, .requisition p content, (m, .producer (.requisitionBlock l)) =>
      if m.InRing p then none else some (m.modifyBlock p fun _ => content, .producer (.reset l p true 0))
  | none, .noBlock, (m, .producer (.requisitionBlock l)) => some (m, .producer (.giveUp l))
  | none, .access _, (m, .producer pc) => (produce cfg m pc).map fun r => (r.1, .producer r.2)
  | some _, .call c, (m, .consumer (.counting _ (.idle _))) => some (m, .consumer (.counting c (.loadFailedCount c)))
  | some t, .access tailFirst, (m, .consumer pc) => (consume cfg t tailFirst m pc).map fun r => (r.1, .consumer r.2)
  | _, _, _ => none

theorem ThreadStep.of_threadStep {t : Option T} {a : Act α} {r r' : Memory T α × Pc α}
    (h : threadStep cfg t a r = some r') : ThreadStep cfg t r a r' := by
  unfold threadStep at h
  split at h
  · cases h
    exact .enqueueBulk (by rintro ⟨⟩)
  · split at h
    · next hcond =>
      cases h
      exact .noArray hcond.1 hcond.2
    · cases h
  · split at h
    · cases h
    · next hp =>
      cases h
      exact .requisition hp
  · cases h
    exact .noBlock
  · obtain ⟨r, hr, rfl⟩ := Option.map_eq_some_iff.mp h
    exact .produce hr
  · cases h
    exact .call
  · obtain ⟨r, hr, rfl⟩ := Option.map_eq_some_iff.mp h
    exact .consume hr
  · cases h

abbrev State (T α : Type) := Interleaving.State (Option T) (Memory T α) (Pc α)

abbrev Step [DecidableEq T] : State T α → Option T × Act α → State T α → Prop :=
  Interleaving.Step (ThreadStep cfg)

/-- An enqueue that gives up has not taken a block yet (a roll back does not take blocks out of the ring again), and the
    attempts to dequeue stay below half the range. -/
def Pc.InRange (m : Memory T α) : Pc α → Prop
  | .producer (.giveUp l) => l.firstAllocatedBlock = none
  | .consumer (.counting _ pc) => pc.InRange cfg.w m.counters
  | _ => True

def Act.InRange (m : Memory T α) (pc : Pc α) : Act α → Prop
  | .enqueueBulk _ items => m.counters.tailIndex + items.length < 2 ^ (cfg.w - 1)
  | .access _ => pc.InRange cfg m
  | _ => True

/-- Fewer than `2 ^ ( w - 1 )` items are enqueued and fewer attempts to dequeue than that made, and no enqueue fails
    that has taken a block. -/
def InRange (s : State T α) (a : Option T × Act α) : Prop := a.2.InRange cfg s.memory (s.threads a.1)

instance (m : Memory T α) : (pc : Pc α) → Decidable (pc.InRange cfg m)
  | .producer (.giveUp l) => inferInstanceAs (Decidable (l.firstAllocatedBlock = none))
  | .consumer (.counting _ pc) => inferInstanceAs (Decidable (pc.InRange cfg.w m.counters))
  | .producer (.idle _) | .producer (.acquire _) | .producer (.isEmpty ..) | .producer (.loadHeadIndex _)
  | .producer (.indexArray _) | .producer (.requisitionBlock _) | .producer (.reset ..) | .producer (.linkBlock ..)
  | .producer (.linkTail ..) | .producer (.entryBase _) | .producer (.entryBlock _) | .producer (.fill ..)
  | .producer (.storeTail _) | .producer (.storeTailIndex _) => isTrue trivial
  | .consumer (.loadArray _) | .consumer (.loadTail ..) | .consumer (.readBase ..) | .consumer (.readBlock ..)
  | .consumer (.block ..) | .consumer (.move ..) | .consumer (.destroy ..) | .consumer (.readNext ..)
  | .consumer (.setEmpty ..) => isTrue trivial

instance (m : Memory T α) (pc : Pc α) : (a : Act α) → Decidable (a.InRange cfg m pc)
  | .enqueueBulk _ items => inferInstanceAs (Decidable (m.counters.tailIndex + items.length < 2 ^ (cfg.w - 1)))
  | .access _ => inferInstanceAs (Decidable (pc.InRange cfg m))
  | .noArray | .requisition .. | .noBlock | .call _ => isTrue trivial

instance (s : State T α) (a : Option T × Act α) : Decidable (InRange cfg s a) :=
  inferInstanceAs (Decidable (a.2.InRange cfg s.memory (s.threads a.1)))

/-- `FastQueue( InSize, InBlockManager )`, its index array made. What is in the blocks does not matter. -/
def Memory.fresh (inSize : ℕ) (blocks : ℕ → Block α) : Memory T α where
  counters := .fresh
  blocks := blocks
  arrays := fun _ =>
    ⟨2 * FastQueue.initialIndexSize cfg inSize, Word.sub cfg.w 0 1, fun _ => none, fun _ => none, 0⟩
  currentIndexEntryArray := 0
  tailBlock := none
  nextIndexEntry := 0
  indexEntriesUsed := 0
  blockOf := fun _ => 0
  started := 0
  indexed := 0
  written := []
  enqueued := []
  phase := fun _ => .waiting
  delivered := []

def start (inSize : ℕ) (blocks : ℕ → Block α) : State T α :=
  ⟨.fresh cfg inSize blocks,
    fun t => t.elim (.producer (.idle none)) fun _ => .consumer (.counting .dequeue (.idle none))⟩

end Accesses

/-- The thread is in no call. -/
def Pc.Idle : Pc α → Prop
  | .producer (.idle _) | .consumer (.counting _ (.idle _)) => True
  | _ => False

structure Safe [DecidableEq T] (cfg : Cfg) (s : State T α) : Prop where
  /-- a call that has not returned can go on: it does nothing undefined -/
  defined : ∀ t, ¬ (s.threads t).Idle → ∃ a s', Step cfg s (t, a) s'
  tail : s.memory.enqueued.length = s.memory.counters.tailIndex
  /-- what a consumer gets at an index is what was enqueued there -/
  delivered : ∀ d ∈ s.memory.delivered, s.memory.enqueued[d.index]? = some d.value
  once : (s.memory.delivered.map Delivery.index).Nodup
  /-- every consumer gets its elements in the order they were enqueued in -/
  ordered : s.memory.delivered.Pairwise fun d d' => d.thread = d'.thread → d'.index < d.index
  /-- with no consumer in a call all that was claimed has been delivered -/
  quiet : (∀ t : T, (s.threads (some t)).Idle) →
    ∀ i, i < s.memory.counters.headIndex ↔ ∃ d ∈ s.memory.delivered, d.index = i

end SharedFastQueue

end LockFreeStructures
