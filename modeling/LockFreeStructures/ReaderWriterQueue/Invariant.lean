import LockFreeStructures.Lib.CircularBuffer
import LockFreeStructures.Lib.Ring
import LockFreeStructures.ReaderWriterQueue.Defs

/-!
# `ReaderWriterQueue.Invariant` — what holds between any two accesses

The blocks form a ring: the front block, the rest of the blocks in use up to the tail block, the free ones. Only
the front block may be in use and empty. The consumer knows its own indices of the front block and that what
it has seen in use stays in use; the producer knows its own index of the tail block and that what it has seen
free stays free.
-/

namespace LockFreeStructures

namespace ReaderWriterQueue

variable {V : Type}

/-! ## Outcomes -/

/-- The slot the last call gave, if that was a `Peek`. -/
def lastPeek : List Outcome → Option (ℕ × ℕ)
  | ⟨.peek, slot, _⟩ :: _ => slot
  | _ => none

/-- What follows a `Peek` that gave a slot gives that slot too. -/
def PeeksTaken : List Outcome → Prop
  | [] => True
  | o :: os => (∀ slot, lastPeek os = some slot → o.slot = some slot) ∧ PeeksTaken os

theorem lastPeek_cons {op : Op} (h : op ≠ .peek) (slot : Option (ℕ × ℕ)) (e : Bool) (os : List Outcome) :
    lastPeek (⟨op, slot, e⟩ :: os) = none := by
  cases op with
  | peek => exact absurd rfl h
  | tryDequeue => rfl
  | pop => rfl

/-! ## Blocks -/

/-- The size of a block is a power of two above one, and the mask goes with it. -/
def Block.Sized (b : Block V) : Prop := ∃ k, 1 ≤ k ∧ b.size = 2 ^ k ∧ b.sizeMask = 2 ^ k - 1

theorem Block.Sized.succ_eq {b : Block V} (h : b.Sized) (i : ℕ) : b.succ i = (i + 1) % b.size := by
  obtain ⟨k, -, hs, hm⟩ := h
  rw [Block.succ, hm, hs, Nat.and_two_pow_sub_one_eq_mod]

theorem Block.Sized.two_le {b : Block V} (h : b.Sized) : 2 ≤ b.size := by
  obtain ⟨k, hk, hs, -⟩ := h
  rw [hs]
  exact Nat.pow_le_pow_right (n := 2) (by decide) hk

@[simp] theorem updateBlock_frontBlock (m : Memory V) (b : ℕ) (f : Block V → Block V) :
    (m.updateBlock b f).frontBlock = m.frontBlock := rfl

@[simp] theorem updateBlock_tailBlock (m : Memory V) (b : ℕ) (f : Block V → Block V) :
    (m.updateBlock b f).tailBlock = m.tailBlock := rfl

theorem updateBlock_self (m : Memory V) (b : ℕ) (f : Block V → Block V) :
    (m.updateBlock b f).blocks b = f (m.blocks b) := Function.update_self ..

theorem updateBlock_of_ne {m : Memory V} {b b' : ℕ} (h : b' ≠ b) (f : Block V → Block V) :
    (m.updateBlock b f).blocks b' = m.blocks b' := Function.update_of_ne h ..

/-- What an update leaves as it is in its block it leaves so in all. -/
theorem updateBlock_field {β : Type} (g : Block V → β) {m : Memory V} {b : ℕ} {f : Block V → Block V}
    (h : g (f (m.blocks b)) = g (m.blocks b)) (b' : ℕ) : g ((m.updateBlock b f).blocks b') = g (m.blocks b') := by
  by_cases hb : b' = b
  · subst hb
    rw [updateBlock_self, h]
  · rw [updateBlock_of_ne hb]

/-! ## What the consumer leaves alone -/

structure ConsumerFrame (m m' : Memory V) : Prop where
  tailBlock : m'.tailBlock = m.tailBlock
  blockSize : m'.blockSize = m.blockSize
  blockCount : m'.blockCount = m.blockCount
  next : ∀ b, (m'.blocks b).next = (m.blocks b).next

namespace ConsumerFrame

variable {m m' m'' : Memory V}

theorem refl (m : Memory V) : ConsumerFrame m m := ⟨rfl, rfl, rfl, fun _ => rfl⟩

theorem trans (h : ConsumerFrame m m') (h' : ConsumerFrame m' m'') : ConsumerFrame m m'' :=
  ⟨h'.tailBlock.trans h.tailBlock, h'.blockSize.trans h.blockSize, h'.blockCount.trans h.blockCount,
    fun b => (h'.next b).trans (h.next b)⟩

theorem updateBlock (m : Memory V) {f : Block V → Block V} (hf : ∀ x : Block V, (f x).next = x.next) (b : ℕ) :
    ConsumerFrame m (m.updateBlock b f) := ⟨rfl, rfl, rfl, updateBlock_field Block.next (hf _)⟩

theorem useFront (m : Memory V) (op : Op) (b front : ℕ) :
    ConsumerFrame m (ReaderWriterQueue.useFront m op b front).1 := by
  cases op <;> exact ⟨rfl, rfl, rfl, fun _ => rfl⟩

theorem orElse (m : Memory V) (op : Op) (b front tail : ℕ) :
    ConsumerFrame m (ReaderWriterQueue.orElse m op b front tail).1 := by
  unfold ReaderWriterQueue.orElse
  split
  · exact useFront m op b front
  · exact refl m

theorem consume {cpc pc : ConsumerPc V} (hs : consume m cpc = some (m', pc)) : ConsumerFrame m m' := by
  have hlocalTail : ∀ b t, ConsumerFrame m (m.updateBlock b fun block => { block with localTail := t }) := by
    intro b t
    refine updateBlock m ?_ b
    exact fun _ => rfl
  cases cpc with
  | idle | assertFailed => exact absurd hs nofun
  | loadTailBlock op b front localTail =>
      simp only [ReaderWriterQueue.consume] at hs
      split at hs
      · cases hs
        exact refl m
      · obtain rfl : _ = m' := congrArg Prod.fst (Option.some.inj hs)
        exact orElse ..
  | loadTail op b front localTail =>
      simp only [ReaderWriterQueue.consume] at hs
      split at hs
      · cases hs
        exact hlocalTail ..
      · obtain rfl : _ = m' := congrArg Prod.fst (Option.some.inj hs)
        exact (hlocalTail ..).trans (orElse ..)
  | reloadTail op b front =>
      simp only [ReaderWriterQueue.consume] at hs
      split at hs
      · obtain rfl : _ = m' := congrArg Prod.fst (Option.some.inj hs)
        exact (hlocalTail ..).trans (useFront ..)
      · cases hs
        exact (hlocalTail ..).trans ⟨rfl, rfl, rfl, fun _ => rfl⟩
  | loadNext op b =>
      obtain ⟨next, -, hs⟩ := Option.map_eq_some_iff.mp hs
      cases hs
      exact refl m
  | loadNextTail op b front =>
      simp only [ReaderWriterQueue.consume] at hs
      split at hs
      · cases hs
        exact hlocalTail ..
      · cases op <;> cases hs <;> exact (hlocalTail ..).trans ⟨rfl, rfl, rfl, fun _ => rfl⟩
  | take op b front =>
      cases hs
      refine updateBlock m ?_ b
      exact fun _ => rfl
  | storeFront op b front v =>
      cases hs
      have hstore : ConsumerFrame m (m.updateBlock b fun block => { block with front := block.succ front }) := by
        refine updateBlock m ?_ b
        exact fun _ => rfl
      exact ⟨hstore.tailBlock, hstore.blockSize, hstore.blockCount, hstore.next⟩
  | loadFrontBlock | loadFront | loadNextFront | storeFrontBlock =>
      cases hs
      exact ⟨rfl, rfl, rfl, fun _ => rfl⟩

end ConsumerFrame

/-! ## The ring -/

/-- The blocks in use after the front block, the free blocks, and what each block holds. -/
structure View (V : Type) where
  rest : List ℕ
  free : List ℕ
  contents : ℕ → List V

variable {m m' : Memory V} {A A' : View V} {b : ℕ} {v : V}

/-- The blocks in ring order. -/
def View.blocks (A : View V) (m : Memory V) : List ℕ := m.frontBlock :: (A.rest ++ A.free)

/-- `pending` is a free block that already holds an element. -/
structure Layout (cfg : Cfg) (m : Memory V) (A : View V) (pending : Option ℕ) : Prop where
  ring : IsRing (fun b => (m.blocks b).next) (A.blocks m)
  tailBlock : m.tailBlock = A.rest.getLastD m.frontBlock
  sized : ∀ b ∈ A.blocks m, (m.blocks b).Sized
  spans : ∀ b ∈ A.blocks m, Spans (m.blocks b).size (m.blocks b).front (m.blocks b).tail (A.contents b).length
  nonempty : ∀ b ∈ A.rest, A.contents b ≠ []
  empty : ∀ b ∈ A.free, pending = some b ∨ A.contents b = []
  count : ∀ b ∈ A.blocks m, b < m.blockCount
  blockSize : ∃ k, 1 ≤ k ∧ k ≤ cfg.blockSizeLog2 ∧ m.blockSize = 2 ^ k

/-- The elements are in their slots. With `taken` the one at the front is gone already. -/
structure Stored (m : Memory V) (A : View V) (taken : Bool) : Prop where
  other : ∀ b ∈ A.rest ++ A.free, Filled (m.blocks b).size (m.blocks b).data (m.blocks b).front (A.contents b)
  front : if taken then
      Filled (m.blocks m.frontBlock).size (m.blocks m.frontBlock).data
        (((m.blocks m.frontBlock).front + 1) % (m.blocks m.frontBlock).size) (A.contents m.frontBlock).tail
    else
      Filled (m.blocks m.frontBlock).size (m.blocks m.frontBlock).data (m.blocks m.frontBlock).front
        (A.contents m.frontBlock)

/-- The copies each side keeps of the other's index. -/
structure Cached (m : Memory V) (A : View V) : Prop where
  localTail : ∃ n ≤ (A.contents m.frontBlock).length,
    Spans (m.blocks m.frontBlock).size (m.blocks m.frontBlock).front (m.blocks m.frontBlock).localTail n
  localFront : ∃ n, (A.contents m.tailBlock).length ≤ n ∧
    Spans (m.blocks m.tailBlock).size (m.blocks m.tailBlock).localFront (m.blocks m.tailBlock).tail n

/-- The slot of the next element to be taken. -/
def View.headSlot (A : View V) (m : Memory V) : Option (ℕ × ℕ) :=
  if A.contents m.frontBlock = [] then A.rest.head?.map fun b => (b, (m.blocks b).front)
  else some (m.frontBlock, (m.blocks m.frontBlock).front)

structure History (m : Memory V) (A : View V) : Prop where
  fifo : ∃ gone, m.consumed = gone.map some ∧
    m.enqueued = gone ++ (m.frontBlock :: A.rest).flatMap A.contents
  noted : (m.frontBlock :: A.rest).flatMap A.contents = [] → m.wasEmpty = true
  empties : ∀ o ∈ m.outcomes, o.slot = none → o.wasEmpty = true
  peeks : PeeksTaken m.outcomes
  peeked : ∀ slot, lastPeek m.outcomes = some slot → A.headSlot m = some slot

/-- What the consumer knows where it is. -/
def ConsumerPc.At (m : Memory V) (A : View V) : ConsumerPc V → Prop
  | .idle => True
  | .loadFrontBlock _ => True
  | .loadFront _ b => b = m.frontBlock
  | .loadTailBlock _ b front localTail =>
      b = m.frontBlock ∧ front = (m.blocks b).front ∧ localTail = (m.blocks b).localTail
  | .loadTail op b front localTail =>
      b = m.frontBlock ∧ front = (m.blocks b).front ∧ localTail = (m.blocks b).localTail ∧
        (op = .tryDequeue ∨ front = localTail) ∧ A.rest ≠ []
  | .reloadTail _ b front =>
      b = m.frontBlock ∧ front = (m.blocks b).front ∧
        (A.contents b = [] → m.wasEmpty = true ∧ lastPeek m.outcomes = none)
  | .loadNext _ b => b = m.frontBlock ∧ A.contents b = [] ∧ A.rest ≠ []
  | .loadNextFront _ b => A.contents m.frontBlock = [] ∧ A.rest.head? = some b
  | .loadNextTail _ b front =>
      A.contents m.frontBlock = [] ∧ A.rest.head? = some b ∧ front = (m.blocks b).front
  | .storeFrontBlock op b front =>
      A.contents m.frontBlock = [] ∧ A.rest.head? = some b ∧ front = (m.blocks b).front ∧ op ≠ .peek ∧
        ∃ n, 1 ≤ n ∧ n ≤ (A.contents b).length ∧
          Spans (m.blocks b).size (m.blocks b).front (m.blocks b).localTail n
  | .take op b front =>
      b = m.frontBlock ∧ front = (m.blocks b).front ∧ op ≠ .peek ∧ (m.blocks b).front ≠ (m.blocks b).localTail
  | .storeFront op b front v =>
      b = m.frontBlock ∧ front = (m.blocks b).front ∧ op ≠ .peek ∧
        (m.blocks b).front ≠ (m.blocks b).localTail ∧ ∃ x, v = some x ∧ (A.contents b).head? = some x
  | .assertFailed => False

/-- The element at the front has been taken, but `Front` not moved yet. -/
def ConsumerPc.taken : ConsumerPc V → Bool
  | .storeFront _ _ _ _ => true
  | _ => false

/-- There is a slot for one more element. -/
def Room (m : Memory V) (A : View V) (b : ℕ) : Prop :=
  ∃ n, (A.contents b).length ≤ n ∧ n + 1 < (m.blocks b).size ∧
    Spans (m.blocks b).size (m.blocks b).localFront (m.blocks b).tail n

/-- A block that is not linked in yet, with its first element. -/
structure NewBlock (m : Memory V) (A : View V) (b : ℕ) (v : V) : Prop where
  notMem : b ∉ A.blocks m
  lt : b < m.blockCount
  sized : (m.blocks b).Sized
  spans : Spans (m.blocks b).size (m.blocks b).front (m.blocks b).tail 1
  filled : Filled (m.blocks b).size (m.blocks b).data (m.blocks b).front [v]
  localFront : (m.blocks b).localFront = (m.blocks b).front

/-- What the producer knows where it is. -/
def ProducerPc.At (m : Memory V) (A : View V) : ProducerPc V → Prop
  | .idle => True
  | .loadTailBlock _ _ => True
  | .loadTail _ _ b => b = m.tailBlock
  | .loadFront _ _ b tail => b = m.tailBlock ∧ tail = (m.blocks b).tail
  | .construct _ b tail => b = m.tailBlock ∧ tail = (m.blocks b).tail ∧ Room m A b
  | .storeTail v b tail =>
      b = m.tailBlock ∧ tail = (m.blocks b).tail ∧ Room m A b ∧ (m.blocks b).data tail = some v
  | .loadNext _ _ b => b = m.tailBlock
  | .loadFrontBlock _ _ b next => b = m.tailBlock ∧ next = (m.blocks b).next
  | .loadNextBlock _ b => b = m.tailBlock ∧ A.free ≠ []
  | .loadNextTail _ b => A.free.head? = some b
  | .loadNextFront _ b tail => A.free.head? = some b ∧ tail = (m.blocks b).tail
  | .constructNext _ b tail =>
      A.free.head? = some b ∧ tail = (m.blocks b).tail ∧ (m.blocks b).localFront = (m.blocks b).front
  | .storeNextTail v b tail =>
      A.free.head? = some b ∧ tail = (m.blocks b).tail ∧ (m.blocks b).localFront = (m.blocks b).front ∧
        (m.blocks b).data tail = some v
  | .makeBlock _ b => b = m.tailBlock
  | .loadNewNext v b newBlock => b = m.tailBlock ∧ NewBlock m A newBlock v
  | .storeNext v b newBlock =>
      b = m.tailBlock ∧ NewBlock m A newBlock v ∧ (m.blocks newBlock).next = (m.blocks b).next
  | .storeTailBlock v b =>
      A.free.head? = some b ∧ A.contents b = [v] ∧ (m.blocks b).localFront = (m.blocks b).front
  | .assertFailed => False

/-- The free block that already holds an element. -/
def ProducerPc.pending : ProducerPc V → Option ℕ
  | .storeTailBlock _ b => some b
  | _ => none

/-- All of the invariant that does not depend on where the two sides are. -/
structure Shared (cfg : Cfg) (m : Memory V) (A : View V) (taken : Bool) (pending : Option ℕ) : Prop where
  layout : Layout cfg m A pending
  stored : Stored m A taken
  cached : Cached m A
  history : History m A

structure Inv (cfg : Cfg) (s : State V) (A : View V) : Prop where
  shared : Shared cfg s.memory A s.consumer.taken s.producer.pending
  consumer : s.consumer.At s.memory A
  producer : s.producer.At s.memory A

/-! ## Consequences -/

namespace Layout

variable {cfg : Cfg} {pending : Option ℕ}

theorem front_mem (A : View V) (m : Memory V) : m.frontBlock ∈ A.blocks m := List.mem_cons_self

theorem rest_mem (m : Memory V) (hb : b ∈ A.rest) : b ∈ A.blocks m :=
  List.mem_cons_of_mem _ (List.mem_append_left _ hb)

theorem free_mem (m : Memory V) (hb : b ∈ A.free) : b ∈ A.blocks m :=
  List.mem_cons_of_mem _ (List.mem_append_right _ hb)

theorem tail_mem (h : Layout cfg m A pending) : m.tailBlock ∈ m.frontBlock :: A.rest := by
  rw [h.tailBlock]
  exact List.getLastD_mem_cons

theorem tail_mem_blocks (h : Layout cfg m A pending) : m.tailBlock ∈ A.blocks m := by
  rcases List.mem_cons.mp h.tail_mem with heq | hmem
  · rw [heq]
    exact front_mem A m
  · exact rest_mem m hmem

theorem front_notMem (h : Layout cfg m A pending) : m.frontBlock ∉ A.rest ++ A.free :=
  (List.nodup_cons.mp h.ring.nodup).1

theorem tail_notMem_free (h : Layout cfg m A pending) : m.tailBlock ∉ A.free := by
  intro hmem
  have hnodup := h.ring.nodup
  rw [View.blocks, ← List.cons_append, List.nodup_append] at hnodup
  exact hnodup.2.2 _ h.tail_mem _ hmem rfl

/-- The tail block is the front block exactly when no other block is in use. -/
theorem tail_eq_front_iff (h : Layout cfg m A pending) : m.tailBlock = m.frontBlock ↔ A.rest = [] := by
  constructor
  · intro heq
    by_contra hne
    obtain ⟨x, l, hr⟩ := List.exists_cons_of_ne_nil hne
    have hmem : m.frontBlock ∈ A.rest := by
      rw [← heq, h.tailBlock, hr, List.getLastD_cons]
      exact List.getLastD_mem_cons
    exact h.front_notMem (List.mem_append_left _ hmem)
  · intro hr
    rw [h.tailBlock, hr, List.getLastD_nil]

theorem next_front {x : ℕ} {l : List ℕ} (h : Layout cfg m A pending) (hr : A.rest = x :: l) :
    (m.blocks m.frontBlock).next = some x := by
  have hring := h.ring
  rw [View.blocks, hr, List.cons_append] at hring
  exact IsRing.next_mid (show IsRing _ ([] ++ _ :: x :: (l ++ A.free)) from hring)

/-- The blocks in use end with the tail block. -/
theorem used_eq (h : Layout cfg m A pending) : ∃ l, m.frontBlock :: A.rest = l ++ [m.tailBlock] := by
  have hne : m.frontBlock :: A.rest ≠ [] := List.cons_ne_nil _ _
  refine ⟨(m.frontBlock :: A.rest).dropLast, ?_⟩
  rw [h.tailBlock, ← List.getLast_eq_getLastD hne]
  exact (List.dropLast_append_getLast hne).symm

/-- The block after the tail block is the first free one, or else the front block. -/
theorem next_tail (h : Layout cfg m A pending) :
    (m.blocks m.tailBlock).next = (A.free ++ [m.frontBlock]).head? := by
  obtain ⟨l, hl⟩ := h.used_eq
  have hring := h.ring
  rw [View.blocks, ← List.cons_append, hl] at hring
  cases hf : A.free with
  | nil =>
      rw [hf, List.append_nil] at hring
      rw [hring.next_last, ← hl]
      rfl
  | cons x l' =>
      rw [hf, List.append_assoc, List.singleton_append] at hring
      exact hring.next_mid

end Layout

/-! ## What leaves the invariant as it is -/

section Congr

variable {cfg : Cfg} {pending : Option ℕ} {taken : Bool}

/-- What the layout depends on in a block. -/
def Block.shape (b : Block V) : Option ℕ × ℕ × ℕ × ℕ × ℕ := (b.next, b.size, b.sizeMask, b.front, b.tail)

theorem Layout.congr (h : Layout cfg m A pending) (hfront : m'.frontBlock = m.frontBlock)
    (htail : m'.tailBlock = m.tailBlock) (hshape : ∀ b ∈ A.blocks m, (m'.blocks b).shape = (m.blocks b).shape)
    (hcount : m.blockCount ≤ m'.blockCount)
    (hsize : ∃ k, 1 ≤ k ∧ k ≤ cfg.blockSizeLog2 ∧ m'.blockSize = 2 ^ k) : Layout cfg m' A pending := by
  have hblocks : A.blocks m' = A.blocks m := by rw [View.blocks, View.blocks, hfront]
  have hfields : ∀ b ∈ A.blocks m, (m'.blocks b).next = (m.blocks b).next ∧ (m'.blocks b).size = (m.blocks b).size ∧
      (m'.blocks b).sizeMask = (m.blocks b).sizeMask ∧ (m'.blocks b).front = (m.blocks b).front ∧
      (m'.blocks b).tail = (m.blocks b).tail := fun b hb => by simpa [Block.shape] using hshape b hb
  refine ⟨?_, by rw [htail, hfront]; exact h.tailBlock, ?_, ?_, h.nonempty, h.empty, ?_, hsize⟩
  · rw [hblocks]
    exact h.ring.congr fun b hb => (hfields b hb).1
  · rw [hblocks]
    intro b hb
    obtain ⟨-, hs, hmask, -, -⟩ := hfields b hb
    rw [Block.Sized, hs, hmask]
    exact h.sized b hb
  · rw [hblocks]
    intro b hb
    obtain ⟨-, hs, -, hf, ht⟩ := hfields b hb
    rw [hs, hf, ht]
    exact h.spans b hb
  · rw [hblocks]
    exact fun b hb => Nat.lt_of_lt_of_le (h.count b hb) hcount

theorem Stored.congr (h : Stored m A taken) (hfront : m'.frontBlock = m.frontBlock)
    (hsize : ∀ b ∈ A.blocks m, (m'.blocks b).size = (m.blocks b).size)
    (hf : ∀ b ∈ A.blocks m, (m'.blocks b).front = (m.blocks b).front)
    (hdata : ∀ b ∈ A.blocks m, (m'.blocks b).data = (m.blocks b).data) : Stored m' A taken := by
  refine ⟨fun b hb => ?_, ?_⟩
  · have hb' : b ∈ A.blocks m := List.mem_cons_of_mem _ hb
    rw [hsize b hb', hf b hb', hdata b hb']
    exact h.other b hb
  · have hb : m.frontBlock ∈ A.blocks m := List.mem_cons_self
    rw [hfront, hsize _ hb, hf _ hb, hdata _ hb]
    exact h.front

theorem Cached.congr (h : Cached m A) (hfront : m'.frontBlock = m.frontBlock) (htail : m'.tailBlock = m.tailBlock)
    (hF : (m'.blocks m.frontBlock).size = (m.blocks m.frontBlock).size ∧
      (m'.blocks m.frontBlock).front = (m.blocks m.frontBlock).front ∧
      (m'.blocks m.frontBlock).localTail = (m.blocks m.frontBlock).localTail)
    (hL : (m'.blocks m.tailBlock).size = (m.blocks m.tailBlock).size ∧
      (m'.blocks m.tailBlock).localFront = (m.blocks m.tailBlock).localFront ∧
      (m'.blocks m.tailBlock).tail = (m.blocks m.tailBlock).tail) : Cached m' A := by
  obtain ⟨hs, hf, hlt⟩ := hF
  obtain ⟨hs', hlf, ht⟩ := hL
  refine ⟨?_, ?_⟩
  · rw [hfront, hs, hf, hlt]
    exact h.localTail
  · rw [htail, hs', hlf, ht]
    exact h.localFront

theorem headSlot_congr (hfront : m'.frontBlock = m.frontBlock)
    (hf : ∀ b ∈ A.blocks m, (m'.blocks b).front = (m.blocks b).front) : A.headSlot m' = A.headSlot m := by
  unfold View.headSlot
  rw [hfront, hf _ List.mem_cons_self]
  by_cases hc : A.contents m.frontBlock = []
  · rw [if_pos hc, if_pos hc]
    cases hr : A.rest with
    | nil => rfl
    | cons b l =>
        have hb : b ∈ A.blocks m := by
          rw [View.blocks, hr]
          exact List.mem_cons_of_mem _ List.mem_cons_self
        simp only [List.head?_cons, Option.map_some, hf b hb]
  · rw [if_neg hc, if_neg hc]

theorem History.congr (h : History m A) (hfront : m'.frontBlock = m.frontBlock) (henq : m'.enqueued = m.enqueued)
    (hcons : m'.consumed = m.consumed) (hout : m'.outcomes = m.outcomes)
    (hempty : m.wasEmpty = true → m'.wasEmpty = true)
    (hf : ∀ b ∈ A.blocks m, (m'.blocks b).front = (m.blocks b).front) : History m' A := by
  refine ⟨?_, ?_, ?_, ?_, ?_⟩
  · rw [hfront, henq, hcons]
    exact h.fifo
  · rw [hfront]
    exact fun hc => hempty (h.noted hc)
  · rw [hout]
    exact h.empties
  · rw [hout]
    exact h.peeks
  · rw [hout, headSlot_congr hfront hf]
    exact h.peeked

/-- Noting an empty queue changes nothing else. -/
theorem Shared.note (hl : Layout cfg m A pending) (hs : Stored m A taken) (hc : Cached m A)
    (hfifo : ∃ gone, m.consumed = gone.map some ∧
      m.enqueued = gone ++ (m.frontBlock :: A.rest).flatMap A.contents)
    (hempties : ∀ o ∈ m.outcomes, o.slot = none → o.wasEmpty = true) (hpeeks : PeeksTaken m.outcomes)
    (hpeeked : ∀ slot, lastPeek m.outcomes = some slot → A.headSlot m = some slot) :
    Shared cfg m.note A taken pending := by
  refine ⟨hl.congr rfl rfl (fun _ _ => rfl) le_rfl hl.blockSize, ⟨hs.other, hs.front⟩, ⟨hc.localTail, hc.localFront⟩,
    ⟨hfifo, fun hempty => ?_, hempties, hpeeks, hpeeked⟩⟩
  obtain ⟨gone, hcons, henq⟩ := hfifo
  have hlen : m.enqueued.length = m.consumed.length := by
    rw [hcons, henq, show (m.frontBlock :: A.rest).flatMap A.contents = [] from hempty, List.append_nil,
      List.length_map]
  show (m.wasEmpty || decide (m.enqueued.length = m.consumed.length)) = true
  rw [hlen, decide_eq_true rfl, Bool.or_true]

theorem Shared.noted (h : Shared cfg m A taken pending) : Shared cfg m.note A taken pending :=
  .note h.layout h.stored h.cached h.history.fifo h.history.empties h.history.peeks h.history.peeked

theorem ConsumerPc.At.note {pc : ConsumerPc V} (h : pc.At m A) : pc.At m.note A := by
  cases pc with
  | reloadTail op b front =>
      refine ⟨h.1, h.2.1, fun hc => ⟨?_, (h.2.2 hc).2⟩⟩
      show (m.wasEmpty || _) = true
      rw [(h.2.2 hc).1, Bool.true_or]
  | idle | loadFrontBlock | loadFront | loadTailBlock | loadTail | loadNext | loadNextFront | loadNextTail
  | storeFrontBlock | take | storeFront | assertFailed => exact h

end Congr

end ReaderWriterQueue

end LockFreeStructures
