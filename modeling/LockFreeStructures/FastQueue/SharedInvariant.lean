import LockFreeStructures.FastQueue.Shared

/-!
# `FastQueue.SharedInvariant` — what holds between the steps, and what each thread knows

An element that is not done keeps its block in the ring, and with it the block's entry in the index array: the producer
takes a block again only when all its flags are set. So what a consumer has read of the index stays right for the
indices it has claimed.
-/

namespace LockFreeStructures

namespace SharedFastQueue

variable {T α : Type} {cfg : Cfg}

/-! ## The invariant -/

namespace Phase

def owner : Phase T → Option T
  | .waiting | .done => none
  | .claimed t | .moved t | .destroyed t => some t

/-- The element has not been destroyed. -/
def Live : Phase T → Prop
  | .waiting | .claimed _ | .moved _ => True
  | .destroyed _ | .done => False

def Out : Phase T → Prop
  | .moved _ | .destroyed _ | .done => True
  | .waiting | .claimed _ => False

end Phase

theorem Phase.Live.ne_done {x : Phase T} (h : x.Live) : x ≠ .done := by
  rintro rfl
  exact h

/-! ## Blocks -/

section Blocks

variable {m : Memory T α} {p q i j : ℕ}

theorem blocks_modifyBlock (f : Block α → Block α) :
    (m.modifyBlock p f).blocks q = if q = p then f (m.blocks p) else m.blocks q := by
  by_cases hq : q = p
  · subst hq
    rw [if_pos rfl]
    exact Function.update_self ..
  · rw [if_neg hq]
    exact Function.update_of_ne hq _ _

theorem next_setElement (x : Option α) : ((m.setElement p i x).blocks q).next = (m.blocks q).next := by
  unfold Memory.setElement
  rw [blocks_modifyBlock]
  split
  · next hq => rw [hq]
  · rfl

theorem flags_setElement (x : Option α) : ((m.setElement p i x).blocks q).flags = (m.blocks q).flags := by
  unfold Memory.setElement
  rw [blocks_modifyBlock]
  split
  · next hq => rw [hq]
  · rfl

theorem elements_setElement_self (x : Option α) : ((m.setElement p i x).blocks p).elements i = x := by
  unfold Memory.setElement
  rw [blocks_modifyBlock, if_pos rfl]
  exact Function.update_self ..

theorem elements_setElement_of_ne (x : Option α) (hne : q ≠ p ∨ j ≠ i) :
    ((m.setElement p i x).blocks q).elements j = (m.blocks q).elements j := by
  unfold Memory.setElement
  rw [blocks_modifyBlock]
  split
  · next hq =>
    rw [hq]
    exact Function.update_of_ne (hne.resolve_left fun hne => hne hq) _ _
  · rfl

theorem next_setFlag (empty : Bool) : ((m.setFlag p i empty).blocks q).next = (m.blocks q).next := by
  unfold Memory.setFlag
  rw [blocks_modifyBlock]
  split
  · next hq => rw [hq]
  · rfl

theorem elements_setFlag (empty : Bool) : ((m.setFlag p i empty).blocks q).elements = (m.blocks q).elements := by
  unfold Memory.setFlag
  rw [blocks_modifyBlock]
  split
  · next hq => rw [hq]
  · rfl

theorem flags_setFlag_self (empty : Bool) : ((m.setFlag p i empty).blocks p).flags i = empty := by
  unfold Memory.setFlag
  rw [blocks_modifyBlock, if_pos rfl]
  exact Function.update_self ..

theorem flags_setFlag_of_ne (empty : Bool) (hne : q ≠ p ∨ j ≠ i) :
    ((m.setFlag p i empty).blocks q).flags j = (m.blocks q).flags j := by
  unfold Memory.setFlag
  rw [blocks_modifyBlock]
  split
  · next hq =>
    rw [hq]
    exact Function.update_of_ne (hne.resolve_left fun hne => hne hq) _ _
  · rfl

theorem next_setNext_self (n : ℕ) : ((m.setNext p n).blocks p).next = n := by
  unfold Memory.setNext
  rw [blocks_modifyBlock, if_pos rfl]

theorem next_setNext_of_ne (n : ℕ) (hq : q ≠ p) : ((m.setNext p n).blocks q).next = (m.blocks q).next := by
  unfold Memory.setNext
  rw [blocks_modifyBlock, if_neg hq]

theorem elements_setNext (n : ℕ) : ((m.setNext p n).blocks q).elements = (m.blocks q).elements := by
  unfold Memory.setNext
  rw [blocks_modifyBlock]
  split
  · next hq => rw [hq]
  · rfl

theorem flags_setNext (n : ℕ) : ((m.setNext p n).blocks q).flags = (m.blocks q).flags := by
  unfold Memory.setNext
  rw [blocks_modifyBlock]
  split
  · next hq => rw [hq]
  · rfl

end Blocks

namespace IndexEntryArray

/-- Where the `k`-th block's entry is. -/
def slot (a : IndexEntryArray) (k : ℕ) : ℕ := (k + a.shift) % a.size

/-- The entry at `tail` has the base of a block whose place this is. -/
def Based (cfg : Cfg) (a : IndexEntryArray) (tail : ℕ) : Prop :=
  ∃ k, tail = a.slot k ∧ a.base (a.slot k) = some (k * cfg.blockSize)

/-- The size is a power of two, and no two indices of the blocks it has entries for are the same word. -/
def Sized (cfg : Cfg) (a : IndexEntryArray) : Prop := ∃ e, a.size = 2 ^ e ∧ a.size * cfg.blockSize ≤ 2 ^ cfg.w

theorem Sized.pos {a : IndexEntryArray} (h : a.Sized cfg) : 0 < a.size := by
  obtain ⟨e, he, -⟩ := h
  rw [he]
  exact Nat.two_pow_pos e

theorem Sized.dvd {a : IndexEntryArray} (h : a.Sized cfg) : a.size * cfg.blockSize ∣ 2 ^ cfg.w := by
  obtain ⟨e, he, hle⟩ := h
  unfold Cfg.blockSize at hle ⊢
  rw [he, ← Nat.pow_add] at hle ⊢
  exact Nat.pow_dvd_pow 2 ((Nat.pow_le_pow_iff_right Nat.one_lt_two).mp hle)

end IndexEntryArray

/-- The last `PO_IndexEntriesUsed` blocks are linked in a ring. -/
structure Ring (m : Memory T α) : Prop where
  used_le : m.indexEntriesUsed ≤ m.started
  used_pos : 0 < m.started → 0 < m.indexEntriesUsed
  injective : ∀ j k, m.oldest ≤ j → j < k → k < m.started → m.blockOf j ≠ m.blockOf k
  tailBlock : m.tailBlock = if m.started = 0 then none else some (m.blockOf (m.started - 1))
  next : ∀ k, m.oldest ≤ k → k + 1 < m.started → (m.blocks (m.blockOf k)).next = m.blockOf (k + 1)
  last : 0 < m.started → (m.blocks (m.blockOf (m.started - 1))).next = m.blockOf m.oldest

structure Index (cfg : Cfg) (m : Memory T α) : Prop where
  used_le : m.indexEntriesUsed ≤ m.current.size
  sized : m.current.Sized cfg
  indexed_le : m.indexed ≤ m.started
  le_indexed : m.started ≤ m.indexed + 1
  next : m.nextIndexEntry = m.current.slot m.indexed
  entry : ∀ k, m.oldest ≤ k → k < m.indexed →
    m.current.base (m.current.slot k) = some (k * cfg.blockSize) ∧
      m.current.innerBlock (m.current.slot k) = some (m.blockOf k)
  tail : 0 < m.counters.tailIndex → m.current.Based cfg m.current.tail

structure Elements (cfg : Cfg) (m : Memory T α) : Prop where
  enqueued : m.enqueued.length = m.counters.tailIndex
  written : m.enqueued <+: m.written
  written_le : m.written.length ≤ m.indexed * cfg.blockSize
  waiting : ∀ i, m.phase i = .waiting ↔ m.counters.headIndex ≤ i
  /-- a block that left the ring is done with -/
  early : ∀ i, i < m.oldest * cfg.blockSize → m.phase i = .done
  element : ∀ i x, m.written[i]? = some x → (m.phase i).Live →
    (m.blocks (m.blockOf (i / cfg.blockSize))).elements (i % cfg.blockSize) = some x
  flag : ∀ k, m.oldest ≤ k → k < m.indexed → ∀ j < cfg.blockSize,
    (m.blocks (m.blockOf k)).flags j = true → m.phase (k * cfg.blockSize + j) = .done

structure Deliveries (m : Memory T α) : Prop where
  value : ∀ d ∈ m.delivered, m.enqueued[d.index]? = some d.value
  out : ∀ i, (m.phase i).Out ↔ ∃ d ∈ m.delivered, d.index = i
  once : (m.delivered.map Delivery.index).Nodup
  ordered : m.delivered.Pairwise fun d d' => d.thread = d'.thread → d'.index < d.index
  later : ∀ d ∈ m.delivered, ∀ i, m.phase i = .claimed d.thread → d.index < i

structure Inv [DecidableEq T] (cfg : Cfg) (m : Memory T α) : Prop where
  counters : DequeueCounters.Inv cfg.w m.counters
  ring : Ring m
  index : Index cfg m
  elements : Elements cfg m
  deliveries : Deliveries m

/-! ## What the producer knows -/

/-- The producer has `blockCountNeed + n` blocks to get; before the call there were `first`. -/
structure Acquiring (cfg : Cfg) (l : ProducerLocals α) (m : Memory T α) (first n : ℕ) : Prop where
  items : l.items ≠ []
  startTailIndex : l.startTailIndex = m.counters.tailIndex
  fits : l.startTailIndex + l.items.length < 2 ^ (cfg.w - 1)
  written : m.written = m.enqueued
  enough : l.startTailIndex + l.items.length ≤ (m.started + l.blockCountNeed + n) * cfg.blockSize
  tight : (m.started + l.blockCountNeed + n) * cfg.blockSize < l.startTailIndex + l.items.length + cfg.blockSize
  currentTailIndex_lt : l.currentTailIndex < 2 ^ cfg.w
  /-- before the first block of all it wraps -/
  currentTailIndex : Word.add cfg.w l.currentTailIndex cfg.blockSize = (m.started + n) * cfg.blockSize % 2 ^ cfg.w
  first_le : first ≤ m.started
  first_le_indexed : first ≤ m.indexed
  le_first : l.startTailIndex ≤ first * cfg.blockSize
  first_lt : first * cfg.blockSize < l.startTailIndex + cfg.blockSize
  allocated : l.firstAllocatedBlock = if first < m.started then some (m.blockOf first) else none
  startBlock : l.startBlock = if first = 0 then none else some (m.blockOf (first - 1))
  origin : 0 < m.counters.tailIndex → 0 < l.originIndexEntriesUsed ∧ l.originIndexEntriesUsed ≤ m.indexEntriesUsed
  /-- a roll back now changes nothing -/
  untouched : l.firstAllocatedBlock = none →
    l.originIndexEntriesUsed = m.indexEntriesUsed ∧ l.originNextIndexEntry = m.nextIndexEntry

/-- There are blocks for all items, and `rest` is to be constructed. -/
structure Filling (cfg : Cfg) (l : ProducerLocals α) (m : Memory T α) (rest : List α) : Prop where
  items : l.items ≠ []
  startTailIndex : l.startTailIndex = m.counters.tailIndex
  fits : l.startTailIndex + l.items.length < 2 ^ (cfg.w - 1)
  indexed : m.indexed = m.started
  written : m.written ++ rest = m.enqueued ++ l.items
  enough : l.startTailIndex + l.items.length ≤ m.started * cfg.blockSize
  tight : m.started * cfg.blockSize < l.startTailIndex + l.items.length + cfg.blockSize
  tail : l.firstAllocatedBlock = none → m.current.Based cfg m.current.tail

namespace ProducerPc

/-- What the producer knows where it is. -/
def At (cfg : Cfg) (m : Memory T α) : ProducerPc α → Prop
  | .idle _ =>
      m.indexed = m.started ∧ m.written = m.enqueued ∧ m.counters.tailIndex ≤ m.started * cfg.blockSize ∧
        m.started * cfg.blockSize < m.counters.tailIndex + cfg.blockSize
  | .acquire l => m.indexed = m.started ∧ ∃ first, Acquiring cfg l m first 0
  | .isEmpty l p i =>
      m.indexed = m.started ∧ (∃ first, Acquiring cfg l m first 0) ∧ 0 < l.blockCountNeed ∧ 0 < m.started ∧
        p = m.blockOf m.oldest ∧ i < cfg.blockSize ∧ ∀ j < i, (m.blocks p).flags j = true
  | .loadHeadIndex l | .indexArray l | .giveUp l => m.indexed = m.started ∧ ∃ first, Acquiring cfg l m first 1
  | .requisitionBlock l =>
      m.indexed = m.started ∧ (∃ first, Acquiring cfg l m first 1) ∧ m.indexEntriesUsed < m.current.size
  | .reset l p true i =>
      m.indexed = m.started ∧ (∃ first, Acquiring cfg l m first 1) ∧ m.indexEntriesUsed < m.current.size ∧
        ¬ m.InRing p ∧ i < cfg.blockSize ∧ ∀ j < i, (m.blocks p).flags j = false
  | .reset l p false i =>
      m.indexed + 1 = m.started ∧ (∃ first, Acquiring cfg l m first 0) ∧
        p = m.blockOf m.indexed ∧ i < cfg.blockSize ∧ ∀ j < i, (m.blocks p).flags j = false
  | .linkBlock l p =>
      m.indexed = m.started ∧ (∃ first, Acquiring cfg l m first 1) ∧ m.indexEntriesUsed < m.current.size ∧
        ¬ m.InRing p ∧ ∀ j < cfg.blockSize, (m.blocks p).flags j = false
  | .linkTail l p =>
      m.indexed = m.started ∧ (∃ first, Acquiring cfg l m first 1) ∧ m.indexEntriesUsed < m.current.size ∧
        ¬ m.InRing p ∧ (∀ j < cfg.blockSize, (m.blocks p).flags j = false) ∧ 0 < m.started ∧
        (m.blocks p).next = m.blockOf m.oldest
  | .entryBase l =>
      m.indexed + 1 = m.started ∧ (∃ first, Acquiring cfg l m first 0) ∧
        ∀ j < cfg.blockSize, (m.blocks (m.blockOf m.indexed)).flags j = false
  | .entryBlock l =>
      m.indexed + 1 = m.started ∧ (∃ first, Acquiring cfg l m first 0) ∧
        (∀ j < cfg.blockSize, (m.blocks (m.blockOf m.indexed)).flags j = false) ∧
        m.current.base m.nextIndexEntry = some (m.indexed * cfg.blockSize)
  | .fill l p i rest =>
      Filling cfg l m rest ∧ ∃ k, m.oldest ≤ k ∧ k < m.started ∧ p = m.blockOf k ∧
        k * cfg.blockSize + i = m.written.length ∧ i ≤ cfg.blockSize
  | .storeTail l => Filling cfg l m []
  | .storeTailIndex l => Filling cfg l m [] ∧ m.current.Based cfg m.current.tail

end ProducerPc

/-! ## What a consumer knows -/

/-- The indices from `a` to `b` are destroyed, those to `c` moved out and those to `d` claimed by thread `t`. -/
structure Has (t : T) (m : Memory T α) (a b c d : ℕ) : Prop where
  destroyed : ∀ i, m.phase i = .destroyed t ↔ a ≤ i ∧ i < b
  moved : ∀ i, m.phase i = .moved t ↔ b ≤ i ∧ i < c
  claimed : ∀ i, m.phase i = .claimed t ↔ c ≤ i ∧ i < d

/-- Array `a` has the entries of all blocks the thread's elements are in. -/
structure Found (cfg : Cfg) (t : T) (m : Memory T α) (a : ℕ) : Prop where
  le : a ≤ m.currentIndexEntryArray
  sized : (m.arrays a).Sized cfg
  entry : ∀ i, m.phase i = .claimed t →
    (m.arrays a).innerBlock ((m.arrays a).slot (i / cfg.blockSize)) = some (m.blockOf (i / cfg.blockSize))

/-- The consumer is in the `k`-th block. -/
structure InBlock (cfg : Cfg) (l : ConsumerLocals) (p : ℕ) (m : Memory T α) (k : ℕ) : Prop where
  started : k < m.started
  block : p = m.blockOf k
  index : k * cfg.blockSize + l.currentIndex = l.index
  start_lt : l.startIndex < l.endIndex
  start_le : l.startIndex ≤ l.currentIndex
  le_end : l.currentIndex ≤ l.endIndex
  end_le : l.endIndex ≤ cfg.blockSize
  need : l.needCount = l.endIndex - l.currentIndex ∨
    l.endIndex = cfg.blockSize ∧ l.endIndex - l.currentIndex < l.needCount

/-- Where a consumer is in the counting of call `c`. One that has passed the first test knows that something has been
    enqueued, and a `Dequeue` wants one element. -/
def Counting (w : ℕ) (c : DequeueCounters.Call) (m : DequeueCounters.Memory T) : DequeueCounters.Pc → Prop
  | .idle _ => True
  | .loadFailedCount c' | .loadCounts c' _ => c' = c
  | .loadTailIndex c' failed attempts => c' = c ∧ failed ≤ attempts ∧ attempts < 2 ^ (w - 1)
  | .loadAttemptsCount c' _ tail => c' = c ∧ tail ≤ m.tailIndex
  | .addAttempts c' .. | .reloadTailIndex c' .. => c' = c ∧ 0 < m.tailIndex
  | .addFailed _ _ actual | .addHeadIndex _ actual => (c = .dequeue → actual ≤ 1) ∧ 0 < m.tailIndex
  | .giveUp .. => 0 < m.tailIndex

/-- The counters are done with, and something has been enqueued. -/
structure Reading (t : T) (m : Memory T α) (l : ConsumerLocals) : Prop where
  holds : DequeueCounters.Holds t m.counters 0 0
  pos : 0 < m.counters.tailIndex
  single : l.call = .dequeue → l.needCount ≤ 1

namespace ConsumerPc

/-- What consumer `t` knows where it is. -/
def At [DecidableEq T] (cfg : Cfg) (t : T) (m : Memory T α) : ConsumerPc → Prop
  | .counting c pc => pc.At t m.counters ∧ Counting cfg.w c m.counters pc ∧ Has t m 0 0 0 0
  | .loadArray l =>
      Reading t m l ∧ Has t m l.index l.index l.index (l.index + l.needCount) ∧ l.startIndex = l.index % cfg.blockSize
  | .loadTail l a =>
      Reading t m l ∧ Has t m l.index l.index l.index (l.index + l.needCount) ∧ l.startIndex = l.index % cfg.blockSize ∧
        Found cfg t m a ∧ (m.arrays a).Based cfg (m.arrays a).tail
  | .readBase l a tail =>
      Reading t m l ∧ Has t m l.index l.index l.index (l.index + l.needCount) ∧ l.startIndex = l.index % cfg.blockSize ∧
        Found cfg t m a ∧ (m.arrays a).Based cfg tail
  | .readBlock l a tail base =>
      Reading t m l ∧ Has t m l.index l.index l.index (l.index + l.needCount) ∧ l.startIndex = l.index % cfg.blockSize ∧
        Found cfg t m a ∧ ∃ k, tail = (m.arrays a).slot k ∧ base = k * cfg.blockSize
  | .block l p =>
      Reading t m l ∧ Has t m l.index l.index l.index (l.index + l.needCount) ∧ (0 < l.needCount →
        ∃ k < m.started, p = some (m.blockOf k) ∧ k * cfg.blockSize + l.startIndex = l.index ∧
          l.startIndex < cfg.blockSize)
  | .move l p =>
      Reading t m l ∧ ∃ k, InBlock cfg l p m k ∧ l.currentIndex < l.endIndex ∧
        Has t m (k * cfg.blockSize + l.startIndex) l.index l.index (l.index + l.needCount)
  | .destroy l p =>
      Reading t m l ∧ ∃ k, InBlock cfg l p m k ∧ l.currentIndex < l.endIndex ∧
        Has t m (k * cfg.blockSize + l.startIndex) l.index (l.index + 1) (l.index + l.needCount)
  | .readNext l p =>
      Reading t m l ∧ ∃ k, InBlock cfg l p m k ∧ l.currentIndex = l.endIndex ∧
        Has t m (k * cfg.blockSize + l.startIndex) l.index l.index (l.index + l.needCount)
  | .setEmpty l p next i =>
      Reading t m l ∧ ∃ k, InBlock cfg l p m k ∧ l.currentIndex = l.endIndex ∧ l.startIndex ≤ i ∧ i < l.endIndex ∧
        Has t m (k * cfg.blockSize + i) l.index l.index (l.index + l.needCount) ∧
        (0 < l.needCount → k + 1 < m.started ∧ next = m.blockOf (k + 1))

end ConsumerPc

def Pc.At [DecidableEq T] (cfg : Cfg) (m : Memory T α) : Option T → Pc α → Prop
  | none, .producer pc => pc.At cfg m
  | some t, .consumer pc => pc.At cfg t m
  | _, _ => False

/-! ## What the others do -/

/-- What a consumer relies on. -/
structure Rely (cfg : Cfg) (t : T) (m m' : Memory T α) : Prop where
  counters : DequeueCounters.Rely t m.counters m'.counters
  owned : ∀ i, (m.phase i).owner = some t ∨ (m'.phase i).owner = some t → m'.phase i = m.phase i
  started : m.started ≤ m'.started
  blockOf : ∀ k < m.started, m'.blockOf k = m.blockOf k
  current : m.currentIndexEntryArray ≤ m'.currentIndexEntryArray
  arrays : ∀ a ≤ m.currentIndexEntryArray, (m'.arrays a).size = (m.arrays a).size ∧
    (m'.arrays a).shift = (m.arrays a).shift
  based : ∀ a ≤ m.currentIndexEntryArray, ∀ tail, (m.arrays a).Based cfg tail → (m'.arrays a).Based cfg tail
  tail : ∀ a ≤ m.currentIndexEntryArray, (m.arrays a).Based cfg (m.arrays a).tail →
    (m'.arrays a).Based cfg (m'.arrays a).tail
  entry : ∀ a ≤ m.currentIndexEntryArray, ∀ i, m.phase i = .claimed t →
    (m'.arrays a).innerBlock ((m.arrays a).slot (i / cfg.blockSize)) =
      (m.arrays a).innerBlock ((m.arrays a).slot (i / cfg.blockSize))

/-- What the producer relies on: the consumers take elements out and set flags of blocks in the index. -/
structure ProducerRely (m m' : Memory T α) : Prop where
  frame : ∃ counters blocks phase delivered,
    m' = { m with counters := counters, blocks := blocks, phase := phase, delivered := delivered }
  tailIndex : m'.counters.tailIndex = m.counters.tailIndex
  next : ∀ p, (m'.blocks p).next = (m.blocks p).next
  emptied : ∀ p j, (m.blocks p).flags j = true → (m'.blocks p).flags j = true
  flags : ∀ p j, (m'.blocks p).flags j = true → (m.blocks p).flags j = true ∨
    ∃ k, m.oldest ≤ k ∧ k < m.indexed ∧ m.blockOf k = p

/-! ## What follows from the invariant -/

section Consequences

variable [DecidableEq T] {m m' : Memory T α} {t : T} {i j k p : ℕ}

omit [DecidableEq T] in
theorem Ring.eq_of_blockOf (h : Ring m) (hj : m.oldest ≤ j) (hj' : j < m.started) (hk : m.oldest ≤ k)
    (hk' : k < m.started) (heq : m.blockOf j = m.blockOf k) : j = k := by
  rcases Nat.lt_trichotomy j k with hlt | rfl | hlt
  · exact absurd heq (h.injective j k hj hlt hk')
  · rfl
  · exact absurd heq.symm (h.injective k j hk hlt hj')

omit [DecidableEq T] in
theorem Ring.oldest_lt (h : Ring m) (hpos : 0 < m.started) : m.oldest < m.started := by
  have hused := h.used_pos hpos
  unfold Memory.oldest
  omega

omit [DecidableEq T] in
/-- Which block the tail block is. -/
theorem Ring.tailBlock_eq_iff (h : Ring m) (hk : m.oldest ≤ k) (hk' : k < m.started) :
    m.tailBlock = some (m.blockOf k) ↔ k + 1 = m.started := by
  rw [h.tailBlock, if_neg (by omega)]
  constructor
  · intro heq
    have hlast := h.eq_of_blockOf (j := m.started - 1) (by omega) (by omega) hk hk' (Option.some.inj heq)
    omega
  · intro heq
    rw [← heq, Nat.add_sub_cancel]

omit [DecidableEq T] in
/-- What is not done keeps its block in the ring. -/
theorem Elements.oldest_le (h : Elements cfg m) (hi : m.phase i ≠ .done) : m.oldest ≤ i / cfg.blockSize := by
  rw [Nat.le_div_iff_mul_le cfg.blockSize_pos]
  by_contra hlt
  exact hi (h.early i (Nat.not_le.mp hlt))

/-- What was claimed was enqueued. -/
theorem Inv.lt_tailIndex (h : Inv cfg m) (hi : m.phase i ≠ .waiting) : i < m.counters.tailIndex := by
  rw [Ne, h.elements.waiting, Nat.not_le] at hi
  exact hi.trans_le h.counters.head_le

omit [DecidableEq T] in
theorem Elements.tailIndex_le (h : Elements cfg m) : m.counters.tailIndex ≤ m.written.length := by
  rw [← h.enqueued]
  exact h.written.length_le

theorem Inv.div_lt (h : Inv cfg m) (hi : m.phase i ≠ .waiting) : i / cfg.blockSize < m.indexed := by
  have hlt := h.lt_tailIndex hi
  have hle := h.elements.tailIndex_le
  have hmul := h.elements.written_le
  apply Nat.div_lt_of_lt_mul
  rw [Nat.mul_comm]
  omega

/-- An element that is not done is in a block of the index. -/
theorem Inv.indexed (h : Inv cfg m) (hwaiting : m.phase i ≠ .waiting) (hdone : m.phase i ≠ .done) :
    m.oldest ≤ i / cfg.blockSize ∧ i / cfg.blockSize < m.indexed :=
  ⟨h.elements.oldest_le hdone, h.div_lt hwaiting⟩

end Consequences

/-! ## Stability -/

section Stability

variable [DecidableEq T] {m m' : Memory T α} {t : T} {a b c d k p first n : ℕ}

omit [DecidableEq T] in
theorem Rely.phase_iff (h : Rely cfg t m m') {x : Phase T} (hx : x.owner = some t) (i : ℕ) :
    m'.phase i = x ↔ m.phase i = x := by
  constructor
  · intro hi
    rw [← h.owned i (Or.inr (hi ▸ hx)), hi]
  · intro hi
    rw [h.owned i (Or.inl (hi ▸ hx)), hi]

omit [DecidableEq T] in
theorem Has.stable (h : Has t m a b c d) (hrely : Rely cfg t m m') : Has t m' a b c d where
  destroyed := fun i => (hrely.phase_iff rfl i).trans (h.destroyed i)
  moved := fun i => (hrely.phase_iff rfl i).trans (h.moved i)
  claimed := fun i => (hrely.phase_iff rfl i).trans (h.claimed i)

omit [DecidableEq T] in
theorem Reading.stable {l : ConsumerLocals} (h : Reading t m l) (hrely : Rely cfg t m m') : Reading t m' l where
  holds := h.holds.stable hrely.counters
  pos := h.pos.trans_le hrely.counters.tail
  single := h.single

theorem Found.stable (h : Found cfg t m a) (hm : Inv cfg m) (hrely : Rely cfg t m m') : Found cfg t m' a := by
  obtain ⟨hsize, hshift⟩ := hrely.arrays a h.le
  have hsized : (m'.arrays a).Sized cfg := by
    have hold := h.sized
    unfold IndexEntryArray.Sized at hold ⊢
    rwa [hsize]
  refine ⟨h.le.trans hrely.current, hsized, fun i hi => ?_⟩
  rw [hrely.phase_iff rfl] at hi
  have hlt : i / cfg.blockSize < m.indexed := hm.div_lt (by rw [hi]; rintro ⟨⟩)
  have hslot : (m'.arrays a).slot (i / cfg.blockSize) = (m.arrays a).slot (i / cfg.blockSize) := by
    unfold IndexEntryArray.slot
    rw [hsize, hshift]
  rw [hslot, hrely.entry a h.le i hi, h.entry i hi, hrely.blockOf _ (hlt.trans_le hm.index.indexed_le)]

omit [DecidableEq T] in
theorem InBlock.stable {l : ConsumerLocals} (h : InBlock cfg l p m k) (hrely : Rely cfg t m m') :
    InBlock cfg l p m' k where
  started := h.started.trans_le hrely.started
  block := h.block.trans (hrely.blockOf k h.started).symm
  index := h.index
  start_lt := h.start_lt
  start_le := h.start_le
  le_end := h.le_end
  end_le := h.end_le
  need := h.need

omit [DecidableEq T] in
theorem Counting.stable {w : ℕ} {c : DequeueCounters.Call} {m m' : DequeueCounters.Memory T}
    {pc : DequeueCounters.Pc} (h : Counting w c m pc) (hrely : DequeueCounters.Rely t m m') : Counting w c m' pc := by
  have htail := hrely.tail
  cases pc with
  | idle => trivial
  | loadFailedCount | loadCounts | loadTailIndex => exact h
  | loadAttemptsCount => exact ⟨h.1, h.2.trans htail⟩
  | addAttempts | reloadTailIndex | addFailed | addHeadIndex => exact ⟨h.1, h.2.trans_le htail⟩
  | giveUp => exact Nat.lt_of_lt_of_le h htail

theorem ConsumerPc.At.stable {pc : ConsumerPc} (h : pc.At cfg t m) (hm : Inv cfg m)
    (hrely : Rely cfg t m m') : pc.At cfg t m' := by
  cases pc with
  | counting c pc =>
      obtain ⟨hat, hcounting, hhas⟩ := h
      exact ⟨hat.stable hrely.counters, hcounting.stable hrely.counters, hhas.stable hrely⟩
  | loadArray l =>
      obtain ⟨hreading, hhas, hstart⟩ := h
      exact ⟨hreading.stable hrely, hhas.stable hrely, hstart⟩
  | loadTail l a =>
      obtain ⟨hreading, hhas, hstart, hfound, hbased⟩ := h
      exact ⟨hreading.stable hrely, hhas.stable hrely, hstart, hfound.stable hm hrely, hrely.tail a hfound.le hbased⟩
  | readBase l a tail =>
      obtain ⟨hreading, hhas, hstart, hfound, hbased⟩ := h
      exact ⟨hreading.stable hrely, hhas.stable hrely, hstart, hfound.stable hm hrely,
        hrely.based a hfound.le tail hbased⟩
  | readBlock l a tail base =>
      obtain ⟨hreading, hhas, hstart, hfound, k, hk, hbase⟩ := h
      obtain ⟨hsize, hshift⟩ := hrely.arrays a hfound.le
      refine ⟨hreading.stable hrely, hhas.stable hrely, hstart, hfound.stable hm hrely, k, ?_, hbase⟩
      unfold IndexEntryArray.slot at hk ⊢
      rwa [hsize, hshift]
  | block l p =>
      obtain ⟨hreading, hhas, hblock⟩ := h
      refine ⟨hreading.stable hrely, hhas.stable hrely, fun hneed => ?_⟩
      obtain ⟨k, hk, hp, hindex, hstart⟩ := hblock hneed
      exact ⟨k, hk.trans_le hrely.started, hp.trans (congrArg _ (hrely.blockOf k hk).symm), hindex, hstart⟩
  | move l p =>
      obtain ⟨hreading, k, hblock, hlt, hhas⟩ := h
      exact ⟨hreading.stable hrely, k, hblock.stable hrely, hlt, hhas.stable hrely⟩
  | destroy l p =>
      obtain ⟨hreading, k, hblock, hlt, hhas⟩ := h
      exact ⟨hreading.stable hrely, k, hblock.stable hrely, hlt, hhas.stable hrely⟩
  | readNext l p =>
      obtain ⟨hreading, k, hblock, hend, hhas⟩ := h
      exact ⟨hreading.stable hrely, k, hblock.stable hrely, hend, hhas.stable hrely⟩
  | setEmpty l p next i =>
      obtain ⟨hreading, k, hblock, hend, hle, hlt, hhas, hnext⟩ := h
      refine ⟨hreading.stable hrely, k, hblock.stable hrely, hend, hle, hlt, hhas.stable hrely, fun hneed => ?_⟩
      obtain ⟨hk, hp⟩ := hnext hneed
      exact ⟨hk.trans_le hrely.started, hp.trans (hrely.blockOf (k + 1) hk).symm⟩

omit [DecidableEq T] in
theorem Acquiring.stable {l : ProducerLocals α} (h : Acquiring cfg l m first n) (hrely : ProducerRely m m') :
    Acquiring cfg l m' first n := by
  have htail := hrely.tailIndex
  obtain ⟨counters, blocks, phase, delivered, rfl⟩ := hrely.frame
  refine { h with startTailIndex := h.startTailIndex.trans htail.symm, origin := fun hpos => h.origin ?_ }
  rwa [← htail]

omit [DecidableEq T] in
theorem Filling.stable {l : ProducerLocals α} {rest : List α} (h : Filling cfg l m rest)
    (hrely : ProducerRely m m') : Filling cfg l m' rest := by
  have htail := hrely.tailIndex
  obtain ⟨counters, blocks, phase, delivered, rfl⟩ := hrely.frame
  exact { h with startTailIndex := h.startTailIndex.trans htail.symm }

omit [DecidableEq T] in
/-- The flags of a block outside the ring or not yet in the index stay. -/
theorem ProducerRely.flags_false (h : ProducerRely m m') (hp : ∀ k, m.oldest ≤ k → k < m.indexed → m.blockOf k ≠ p)
    {j : ℕ} (hflag : (m.blocks p).flags j = false) : (m'.blocks p).flags j = false := by
  rw [← Bool.not_eq_true] at hflag ⊢
  intro hset
  rcases h.flags p j hset with hold | ⟨k, hle, hlt, hk⟩
  · exact hflag hold
  · exact hp k hle hlt hk

omit [DecidableEq T] in
theorem Memory.not_inRing (hp : ¬ m.InRing p) (hle : m.indexed ≤ m.started) (k : ℕ) (hk : m.oldest ≤ k)
    (hk' : k < m.indexed) : m.blockOf k ≠ p :=
  fun heq => hp ⟨k, hk, hk'.trans_le hle, heq⟩

theorem ProducerPc.At.stable {pc : ProducerPc α} (h : pc.At cfg m) (hm : Inv cfg m)
    (hrely : ProducerRely m m') : pc.At cfg m' := by
  have hframe := hrely.frame
  -- the block that is about to get its entry is no other block of the index
  have hnew : m.indexed + 1 = m.started → ∀ k, m.oldest ≤ k → k < m.indexed → m.blockOf k ≠ m.blockOf m.indexed :=
    fun hstarted k hk hk' => hm.ring.injective k m.indexed hk hk' (by omega)
  cases pc with
  | idle returned =>
      have htail := hrely.tailIndex
      obtain ⟨counters, blocks, phase, delivered, rfl⟩ := hframe
      obtain ⟨hindexed, hwritten, hle, hlt⟩ := h
      exact ⟨hindexed, hwritten, htail ▸ hle, htail ▸ hlt⟩
  | acquire l | loadHeadIndex l | indexArray l | giveUp l =>
      obtain ⟨hindexed, first, hacq⟩ := h
      have hacq' := hacq.stable hrely
      obtain ⟨counters, blocks, phase, delivered, rfl⟩ := hframe
      exact ⟨hindexed, first, hacq'⟩
  | isEmpty l p i =>
      obtain ⟨hindexed, ⟨first, hacq⟩, hneed, hpos, hp, hi, hflags⟩ := h
      have hacq' := hacq.stable hrely
      have hemptied := hrely.emptied
      obtain ⟨counters, blocks, phase, delivered, rfl⟩ := hframe
      exact ⟨hindexed, ⟨first, hacq'⟩, hneed, hpos, hp, hi, fun j hj => hemptied p j (hflags j hj)⟩
  | requisitionBlock l =>
      obtain ⟨hindexed, ⟨first, hacq⟩, hused⟩ := h
      have hacq' := hacq.stable hrely
      obtain ⟨counters, blocks, phase, delivered, rfl⟩ := hframe
      exact ⟨hindexed, ⟨first, hacq'⟩, hused⟩
  | reset l p fresh i =>
      cases fresh with
      | true =>
          obtain ⟨hindexed, ⟨first, hacq⟩, hused, hp, hi, hflags⟩ := h
          have hacq' := hacq.stable hrely
          have hflags' := fun j hj => hrely.flags_false (m.not_inRing hp hindexed.le) (hflags j hj)
          obtain ⟨counters, blocks, phase, delivered, rfl⟩ := hframe
          exact ⟨hindexed, ⟨first, hacq'⟩, hused, hp, hi, hflags'⟩
      | false =>
          obtain ⟨hindexed, ⟨first, hacq⟩, rfl, hi, hflags⟩ := h
          have hacq' := hacq.stable hrely
          have hflags' := fun j hj => hrely.flags_false (hnew hindexed) (hflags j hj)
          obtain ⟨counters, blocks, phase, delivered, rfl⟩ := hframe
          exact ⟨hindexed, ⟨first, hacq'⟩, rfl, hi, hflags'⟩
  | linkBlock l p =>
      obtain ⟨hindexed, ⟨first, hacq⟩, hused, hp, hflags⟩ := h
      have hacq' := hacq.stable hrely
      have hflags' := fun j hj => hrely.flags_false (m.not_inRing hp hindexed.le) (hflags j hj)
      obtain ⟨counters, blocks, phase, delivered, rfl⟩ := hframe
      exact ⟨hindexed, ⟨first, hacq'⟩, hused, hp, hflags'⟩
  | linkTail l p =>
      obtain ⟨hindexed, ⟨first, hacq⟩, hused, hp, hflags, hpos, hnext⟩ := h
      have hacq' := hacq.stable hrely
      have hflags' := fun j hj => hrely.flags_false (m.not_inRing hp hindexed.le) (hflags j hj)
      have hnext' := (hrely.next p).trans hnext
      obtain ⟨counters, blocks, phase, delivered, rfl⟩ := hframe
      exact ⟨hindexed, ⟨first, hacq'⟩, hused, hp, hflags', hpos, hnext'⟩
  | entryBase l =>
      obtain ⟨hindexed, ⟨first, hacq⟩, hflags⟩ := h
      have hacq' := hacq.stable hrely
      have hflags' := fun j hj => hrely.flags_false (hnew hindexed) (hflags j hj)
      obtain ⟨counters, blocks, phase, delivered, rfl⟩ := hframe
      exact ⟨hindexed, ⟨first, hacq'⟩, hflags'⟩
  | entryBlock l =>
      obtain ⟨hindexed, ⟨first, hacq⟩, hflags, hbase⟩ := h
      have hacq' := hacq.stable hrely
      have hflags' := fun j hj => hrely.flags_false (hnew hindexed) (hflags j hj)
      obtain ⟨counters, blocks, phase, delivered, rfl⟩ := hframe
      exact ⟨hindexed, ⟨first, hacq'⟩, hflags', hbase⟩
  | fill l p i rest =>
      obtain ⟨hfilling, k, hk, hk', hp, hindex, hi⟩ := h
      have hfilling' := hfilling.stable hrely
      obtain ⟨counters, blocks, phase, delivered, rfl⟩ := hframe
      exact ⟨hfilling', k, hk, hk', hp, hindex, hi⟩
  | storeTail l => exact Filling.stable h hrely
  | storeTailIndex l =>
      obtain ⟨hfilling, hbased⟩ := h
      have hfilling' := hfilling.stable hrely
      obtain ⟨counters, blocks, phase, delivered, rfl⟩ := hframe
      exact ⟨hfilling', hbased⟩

end Stability

end SharedFastQueue

end LockFreeStructures
