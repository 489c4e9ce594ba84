import LockFreeStructures.ReaderWriterQueue.Invariant

/-!
# `ReaderWriterQueue.Consumer` — what `TryDequeue`, `Peek` and `Pop` keep

The consumer writes `LocalTail`, `Front` and `FrontBlock`, and takes the element at the front of the front
block. `ByConsumer` says what of this the producer can see, and that the producer's knowledge survives it.
-/

namespace LockFreeStructures

namespace ReaderWriterQueue

variable {V : Type} {cfg : Cfg} {m m' : Memory V} {A A' : View V} {b : ℕ} {pending : Option ℕ}

/-! ## What the producer sees of it -/

structure ByConsumer (m m' : Memory V) (A A' : View V) : Prop where
  tailBlock : m'.tailBlock = m.tailBlock
  blockCount : m'.blockCount = m.blockCount
  next : ∀ b, (m'.blocks b).next = (m.blocks b).next
  size : ∀ b, (m'.blocks b).size = (m.blocks b).size
  sizeMask : ∀ b, (m'.blocks b).sizeMask = (m.blocks b).sizeMask
  tail : ∀ b, (m'.blocks b).tail = (m.blocks b).tail
  localFront : ∀ b, (m'.blocks b).localFront = (m.blocks b).localFront
  front : ∀ b, b ≠ m.frontBlock → (m'.blocks b).front = (m.blocks b).front
  data : ∀ b, b ≠ m.frontBlock → (m'.blocks b).data = (m.blocks b).data
  dataTail : ∀ b, (m'.blocks b).data (m.blocks b).tail = (m.blocks b).data (m.blocks b).tail
  contents : ∀ b, b ≠ m.frontBlock → A'.contents b = A.contents b
  contents_le : ∀ b, (A'.contents b).length ≤ (A.contents b).length
  free : ∃ l, A'.free = A.free ++ l
  blocks : ∀ b, b ∈ A'.blocks m' → b ∈ A.blocks m

namespace ByConsumer

/-- Nothing the producer looks at has changed. -/
theorem of_localTail (hfront : m'.frontBlock = m.frontBlock) (htail : m'.tailBlock = m.tailBlock)
    (hcount : m'.blockCount = m.blockCount)
    (hblock : ∀ b, ∃ t, m'.blocks b = { m.blocks b with localTail := t }) : ByConsumer m m' A A := by
  have hfield : ∀ {β : Type} (g : Block V → β), (∀ b : Block V, ∀ t, g { b with localTail := t } = g b) →
      ∀ b, g (m'.blocks b) = g (m.blocks b) := by
    intro β g hg b
    obtain ⟨t, ht⟩ := hblock b
    rw [ht, hg]
  refine ⟨htail, hcount, hfield Block.next fun _ _ => rfl, hfield Block.size fun _ _ => rfl,
    hfield Block.sizeMask fun _ _ => rfl, hfield Block.tail fun _ _ => rfl, hfield Block.localFront fun _ _ => rfl,
    fun b _ => hfield Block.front (fun _ _ => rfl) b, fun b _ => hfield Block.data (fun _ _ => rfl) b,
    fun b => ?_, fun _ _ => rfl, fun _ => le_rfl, ⟨[], (List.append_nil _).symm⟩, fun b hb => ?_⟩
  · rw [hfield Block.data (fun _ _ => rfl) b]
  · rwa [View.blocks, hfront] at hb

theorem head?_free (h : ByConsumer m m' A A') (hb : A.free.head? = some b) : A'.free.head? = some b := by
  obtain ⟨l, hl⟩ := h.free
  rw [hl, List.head?_append, hb, Option.some_or]

/-- The producer knows what it knew before. -/
theorem at_ (h : ByConsumer m m' A A') (hl : Layout cfg m A pending) {pc : ProducerPc V} (hpc : pc.At m A) :
    pc.At m' A' := by
  have hfree : ∀ {x}, A.free.head? = some x → x ≠ m.frontBlock := by
    rintro x hx rfl
    exact hl.front_notMem (List.mem_append_right _ (List.mem_of_mem_head? hx))
  have hroom : ∀ {x}, Room m A x → Room m' A' x := by
    rintro x ⟨n, hn, hlt, hspans⟩
    refine ⟨n, (h.contents_le x).trans hn, ?_, ?_⟩
    · rwa [h.size]
    · rwa [h.size, h.localFront, h.tail]
  have hnew : ∀ {x v}, NewBlock m A x v → NewBlock m' A' x v := by
    rintro x v ⟨hmem, hlt, hsized, hspans, hfilled, hlf⟩
    have hx : x ≠ m.frontBlock := by
      rintro rfl
      exact hmem (Layout.front_mem A m)
    refine ⟨fun hx' => hmem (h.blocks x hx'), by rwa [h.blockCount], ?_, ?_, ?_, ?_⟩
    · rwa [Block.Sized, h.size, h.sizeMask]
    · rwa [h.size, h.front x hx, h.tail]
    · rwa [h.size, h.front x hx, h.data x hx]
    · rwa [h.localFront, h.front x hx]
  cases pc with
  | idle => trivial
  | loadTailBlock mode v => trivial
  | loadTail mode v b => exact hpc.trans h.tailBlock.symm
  | loadFront mode v b tail => exact ⟨hpc.1.trans h.tailBlock.symm, hpc.2.trans (h.tail b).symm⟩
  | construct v b tail => exact ⟨hpc.1.trans h.tailBlock.symm, hpc.2.1.trans (h.tail b).symm, hroom hpc.2.2⟩
  | storeTail v b tail =>
      obtain ⟨hb, ht, hr, hd⟩ := hpc
      refine ⟨hb.trans h.tailBlock.symm, ht.trans (h.tail b).symm, hroom hr, ?_⟩
      rw [ht] at hd ⊢
      exact (h.dataTail b).trans hd
  | loadNext mode v b => exact hpc.trans h.tailBlock.symm
  | loadFrontBlock mode v b next => exact ⟨hpc.1.trans h.tailBlock.symm, hpc.2.trans (h.next b).symm⟩
  | loadNextBlock v b =>
      obtain ⟨l, hfree'⟩ := h.free
      refine ⟨hpc.1.trans h.tailBlock.symm, ?_⟩
      rw [hfree']
      exact List.append_ne_nil_of_left_ne_nil hpc.2 l
  | loadNextTail v b => exact h.head?_free hpc
  | loadNextFront v b tail => exact ⟨h.head?_free hpc.1, hpc.2.trans (h.tail b).symm⟩
  | constructNext v b tail =>
      obtain ⟨hb, ht, hlf⟩ := hpc
      refine ⟨h.head?_free hb, ht.trans (h.tail b).symm, ?_⟩
      rwa [h.localFront, h.front b (hfree hb)]
  | storeNextTail v b tail =>
      obtain ⟨hb, ht, hlf, hd⟩ := hpc
      refine ⟨h.head?_free hb, ht.trans (h.tail b).symm, ?_, ?_⟩
      · rwa [h.localFront, h.front b (hfree hb)]
      · rwa [h.data b (hfree hb)]
  | makeBlock v b => exact hpc.trans h.tailBlock.symm
  | loadNewNext v b newBlock => exact ⟨hpc.1.trans h.tailBlock.symm, hnew hpc.2⟩
  | storeNext v b newBlock =>
      exact ⟨hpc.1.trans h.tailBlock.symm, hnew hpc.2.1, by rw [h.next, h.next]; exact hpc.2.2⟩
  | storeTailBlock v b =>
      obtain ⟨hb, hc, hlf⟩ := hpc
      refine ⟨h.head?_free hb, (h.contents b (hfree hb)).trans hc, ?_⟩
      rwa [h.localFront, h.front b (hfree hb)]
  | assertFailed => exact hpc

end ByConsumer

/-! ## What the consumer writes -/

namespace Shared

/-- `LocalTail` is brought up to date. -/
theorem localTail (h : Shared cfg m A false pending) (b : ℕ) :
    Shared cfg (m.updateBlock b fun block => { block with localTail := (m.blocks b).tail }) A false pending := by
  have hfield : ∀ {β : Type} (g : Block V → β), (∀ b : Block V, ∀ t, g { b with localTail := t } = g b) →
      ∀ b', g ((m.updateBlock b fun block => { block with localTail := (m.blocks b).tail }).blocks b') =
        g (m.blocks b') := fun g hg b' => updateBlock_field g (hg _ _) b'
  refine ⟨h.layout.congr rfl rfl (fun b' _ => hfield Block.shape (fun _ _ => rfl) b') le_rfl h.layout.blockSize,
    h.stored.congr rfl (fun b' _ => hfield Block.size (fun _ _ => rfl) b')
      (fun b' _ => hfield Block.front (fun _ _ => rfl) b') (fun b' _ => hfield Block.data (fun _ _ => rfl) b'),
    ⟨?_, ?_⟩,
    h.history.congr rfl rfl rfl rfl id fun b' _ => hfield Block.front (fun _ _ => rfl) b'⟩
  · rw [updateBlock_frontBlock]
    by_cases hb : m.frontBlock = b
    · subst hb
      refine ⟨_, le_rfl, ?_⟩
      rw [updateBlock_self]
      exact h.layout.spans _ (Layout.front_mem A m)
    · rw [updateBlock_of_ne hb]
      exact h.cached.localTail
  · rw [updateBlock_tailBlock, hfield Block.size (fun _ _ => rfl), hfield Block.localFront (fun _ _ => rfl),
      hfield Block.tail (fun _ _ => rfl)]
    exact h.cached.localFront

/-- A call returns without taking an element, or after it has taken one. -/
theorem finish (h : Shared cfg m A false pending) (op : Op) (slot : Option (ℕ × ℕ))
    (hnone : slot = none → m.wasEmpty = true) (hlast : ∀ l, lastPeek m.outcomes = some l → slot = some l)
    (hpeek : op = .peek → ∀ l, slot = some l → A.headSlot m = some l) :
    Shared cfg (m.finish op slot).1 A false pending := by
  refine ⟨h.layout.congr rfl rfl (fun _ _ => rfl) le_rfl h.layout.blockSize, ⟨h.stored.other, h.stored.front⟩,
    ⟨h.cached.localTail, h.cached.localFront⟩, h.history.fifo, h.history.noted, ?_, ⟨hlast, h.history.peeks⟩, ?_⟩
  · intro o ho hslot
    rcases List.mem_cons.mp ho with rfl | ho
    · exact hnone hslot
    · exact h.history.empties o ho hslot
  · intro l hl
    by_cases hop : op = .peek
    · subst hop
      exact hpeek rfl l hl
    · rw [show (m.finish op slot).1.outcomes = ⟨op, slot, m.wasEmpty⟩ :: m.outcomes from rfl, lastPeek_cons hop] at hl
      exact absurd hl nofun

/-- The empty front block becomes the last of the free ones. -/
theorem moveFront {l : List ℕ} (h : Shared cfg m A false pending) (hr : A.rest = b :: l)
    (hempty : A.contents m.frontBlock = [])
    (hlt : ∃ n ≤ (A.contents b).length, Spans (m.blocks b).size (m.blocks b).front (m.blocks b).localTail n) :
    Shared cfg { m with frontBlock := b } { A with rest := l, free := A.free ++ [m.frontBlock] } false pending := by
  have hb : b ∈ A.rest := by
    rw [hr]
    exact List.mem_cons_self
  have hne : A.contents b ≠ [] := h.layout.nonempty b hb
  have hmem : ∀ x, x ∈ b :: (l ++ (A.free ++ [m.frontBlock])) ↔ x ∈ A.blocks m := by
    intro x
    simp only [View.blocks, hr, List.mem_cons, List.mem_append, List.not_mem_nil, or_false, List.cons_append]
    tauto
  have hall : ∀ {P : ℕ → Prop}, (∀ x ∈ A.blocks m, P x) → ∀ x ∈ b :: (l ++ (A.free ++ [m.frontBlock])), P x :=
    fun hP x hx => hP x ((hmem x).mp hx)
  have htail : m.tailBlock = l.getLastD b := by rw [h.layout.tailBlock, hr, List.getLastD_cons]
  refine ⟨⟨?_, htail, hall h.layout.sized, hall h.layout.spans, fun x hx => h.layout.nonempty x ?_, fun x hx => ?_,
    hall h.layout.count, h.layout.blockSize⟩, ⟨fun x hx => ?_, ?_⟩, ⟨hlt, h.cached.localFront⟩, ?_, fun hc => ?_,
    h.history.empties, h.history.peeks, fun slot hslot => ?_⟩
  · have hring := h.layout.ring
    rw [View.blocks, hr] at hring
    have hrot := IsRing.rotate (show IsRing _ ([m.frontBlock] ++ (b :: l ++ A.free)) from hring)
    simpa [View.blocks, List.append_assoc] using hrot
  · rw [hr]
    exact List.mem_cons_of_mem _ hx
  · rcases List.mem_append.mp hx with hx | hx
    · exact h.layout.empty x hx
    · obtain rfl := List.mem_singleton.mp hx
      exact Or.inr hempty
  · have hother := h.stored.other
    rcases List.mem_append.mp hx with hx | hx
    · exact hother x (List.mem_append_left _ (by rw [hr]; exact List.mem_cons_of_mem _ hx))
    · rcases List.mem_append.mp hx with hx | hx
      · exact hother x (List.mem_append_right _ hx)
      · obtain rfl := List.mem_singleton.mp hx
        rw [hempty]
        exact .nil
  · exact h.stored.other b (List.mem_append_left _ hb)
  · obtain ⟨gone, hcons, henq⟩ := h.history.fifo
    refine ⟨gone, hcons, henq.trans ?_⟩
    rw [hr, List.flatMap_cons, hempty, List.nil_append]
  · refine h.history.noted ?_
    rw [hr, List.flatMap_cons, hempty, List.nil_append]
    exact hc
  · have hhead := h.history.peeked slot hslot
    rw [View.headSlot, if_pos hempty, hr] at hhead
    rw [View.headSlot, if_neg hne]
    exact hhead

/-- The element at the front is taken. -/
theorem take {v : V} {c : List V} (h : Shared cfg m A false pending) (hc : A.contents m.frontBlock = v :: c) :
    Shared cfg (m.updateBlock m.frontBlock (Block.destroy (m.blocks m.frontBlock).front)) A true pending := by
  have hfield : ∀ {β : Type} (g : Block V → β), (∀ b : Block V, ∀ i, g (b.destroy i) = g b) →
      ∀ b', g ((m.updateBlock m.frontBlock (Block.destroy (m.blocks m.frontBlock).front)).blocks b') =
        g (m.blocks b') := fun g hg b' => updateBlock_field g (hg _ _) b'
  have hspans := h.layout.spans _ (Layout.front_mem A m)
  refine ⟨h.layout.congr rfl rfl (fun b' _ => hfield Block.shape (fun _ _ => rfl) b') le_rfl h.layout.blockSize,
    ⟨fun b' hb' => ?_, ?_⟩, h.cached.congr rfl rfl ?_ ?_,
    h.history.congr rfl rfl rfl rfl id fun b' _ => hfield Block.front (fun _ _ => rfl) b'⟩
  · have hb : b' ≠ m.frontBlock := by
      rintro rfl
      exact h.layout.front_notMem hb'
    rw [updateBlock_of_ne hb]
    exact h.stored.other b' hb'
  · have hfilled := h.stored.front
    rw [if_neg Bool.false_ne_true, hc] at hfilled
    rw [hc] at hspans
    rw [if_pos rfl, updateBlock_frontBlock, updateBlock_self, hc]
    exact hfilled.update_front hspans none
  · exact ⟨hfield Block.size (fun _ _ => rfl) _, hfield Block.front (fun _ _ => rfl) _,
      hfield Block.localTail (fun _ _ => rfl) _⟩
  · exact ⟨hfield Block.size (fun _ _ => rfl) _, hfield Block.localFront (fun _ _ => rfl) _,
      hfield Block.tail (fun _ _ => rfl) _⟩

/-- `Front` moves past the element taken, and the call returns. -/
theorem storeFront {v : V} {c : List V} {op : Op} (h : Shared cfg m A true pending)
    (hc : A.contents m.frontBlock = v :: c) (hop : op ≠ .peek)
    (hlt : (m.blocks m.frontBlock).front ≠ (m.blocks m.frontBlock).localTail) :
    let front := (m.blocks m.frontBlock).front
    let m' := m.updateBlock m.frontBlock fun block => { block with front := block.succ front }
    Shared cfg
      (({ m' with consumed := m'.consumed ++ [some v] } : Memory V).finish op (some (m.frontBlock, front))).1.note
      { A with contents := Function.update A.contents m.frontBlock c } false pending := by
  intro front m'
  have hmem := Layout.front_mem A m
  have hspans := h.layout.spans _ hmem
  have hne : ∀ {x}, x ∈ A.rest ++ A.free → x ≠ m.frontBlock := by
    rintro x hx rfl
    exact h.layout.front_notMem hx
  have hself : m'.blocks m.frontBlock = { m.blocks m.frontBlock with front := (front + 1) % (m.blocks m.frontBlock).size } := by
    rw [← (h.layout.sized _ hmem).succ_eq front]
    exact updateBlock_self ..
  have hother : ∀ {x}, x ≠ m.frontBlock → m'.blocks x = m.blocks x := fun hx => updateBlock_of_ne hx _
  have hfield : ∀ {β : Type} (g : Block V → β), (∀ b : Block V, ∀ i, g { b with front := i } = g b) →
      ∀ b', g (m'.blocks b') = g (m.blocks b') := fun g hg b' => updateBlock_field g (hg _ _) b'
  have hcontents : ∀ {x}, x ≠ m.frontBlock → Function.update A.contents m.frontBlock c x = A.contents x :=
    fun hx => Function.update_of_ne hx _ _
  have hcself : Function.update A.contents m.frontBlock c m.frontBlock = c := Function.update_self ..
  have hrest : A.rest.flatMap (Function.update A.contents m.frontBlock c) = A.rest.flatMap A.contents := by
    refine List.flatMap_congr fun x hx => ?_
    exact hcontents (hne (List.mem_append_left _ hx))
  refine .note ⟨?_, h.layout.tailBlock, ?_, ?_, ?_, ?_, h.layout.count, h.layout.blockSize⟩ ⟨?_, ?_⟩ ⟨?_, ?_⟩ ?_ ?_
    ⟨?_, h.history.peeks⟩ ?_
  · exact h.layout.ring.congr fun x _ => hfield Block.next (fun _ _ => rfl) x
  · intro x hx
    show (m'.blocks x).Sized
    rw [Block.Sized, hfield Block.size (fun _ _ => rfl), hfield Block.sizeMask (fun _ _ => rfl)]
    exact h.layout.sized x hx
  · intro x hx
    show Spans (m'.blocks x).size (m'.blocks x).front (m'.blocks x).tail
      (Function.update A.contents m.frontBlock c x).length
    by_cases hxF : x = m.frontBlock
    · subst hxF
      rw [hc, List.length_cons] at hspans
      rw [hself, hcself]
      exact hspans.pop
    · rw [hother hxF, hcontents hxF]
      exact h.layout.spans x hx
  · intro x hx
    show Function.update A.contents m.frontBlock c x ≠ []
    rw [hcontents (hne (List.mem_append_left _ hx))]
    exact h.layout.nonempty x hx
  · intro x hx
    show _ ∨ Function.update A.contents m.frontBlock c x = []
    rw [hcontents (hne (List.mem_append_right _ hx))]
    exact h.layout.empty x hx
  · intro x hx
    show Filled (m'.blocks x).size (m'.blocks x).data (m'.blocks x).front (Function.update A.contents m.frontBlock c x)
    rw [hother (hne hx), hcontents (hne hx)]
    exact h.stored.other x hx
  · have hfilled := h.stored.front
    rw [if_pos rfl, hc, List.tail_cons] at hfilled
    show Filled (m'.blocks m.frontBlock).size (m'.blocks m.frontBlock).data (m'.blocks m.frontBlock).front
      (Function.update A.contents m.frontBlock c m.frontBlock)
    rw [hself, hcself]
    exact hfilled
  · show ∃ n ≤ (Function.update A.contents m.frontBlock c m.frontBlock).length,
      Spans (m'.blocks m.frontBlock).size (m'.blocks m.frontBlock).front (m'.blocks m.frontBlock).localTail n
    obtain ⟨n, hn, hlocal⟩ := h.cached.localTail
    rw [hself, hcself]
    cases n with
    | zero => exact absurd (hlocal.eq_iff.mpr rfl) hlt
    | succ n =>
        rw [hc, List.length_cons] at hn
        exact ⟨n, Nat.le_of_succ_le_succ hn, hlocal.pop⟩
  · show ∃ n, (Function.update A.contents m.frontBlock c m.tailBlock).length ≤ n ∧
      Spans (m'.blocks m.tailBlock).size (m'.blocks m.tailBlock).localFront (m'.blocks m.tailBlock).tail n
    obtain ⟨n, hn, hlocal⟩ := h.cached.localFront
    rw [hfield Block.size (fun _ _ => rfl), hfield Block.localFront (fun _ _ => rfl),
      hfield Block.tail (fun _ _ => rfl)]
    refine ⟨n, ?_, hlocal⟩
    by_cases hT : m.tailBlock = m.frontBlock
    · rw [hT, hc, List.length_cons] at hn
      rw [hT, hcself]
      exact Nat.le_of_succ_le hn
    · rw [hcontents hT]
      exact hn
  · obtain ⟨gone, hcons, henq⟩ := h.history.fifo
    refine ⟨gone ++ [v], ?_, henq.trans ?_⟩
    · rw [List.map_append, ← hcons]
      rfl
    · show gone ++ (m.frontBlock :: A.rest).flatMap A.contents
        = gone ++ [v] ++ (m.frontBlock :: A.rest).flatMap (Function.update A.contents m.frontBlock c)
      rw [List.flatMap_cons, List.flatMap_cons, hc, hcself, hrest, List.append_assoc, List.singleton_append,
        List.cons_append]
  · intro o ho hslot
    rcases List.mem_cons.mp ho with rfl | ho
    · exact absurd hslot (by rintro ⟨⟩)
    · exact h.history.empties o ho hslot
  · intro l hl
    have hhead := h.history.peeked l hl
    rw [View.headSlot, if_neg (by rw [hc]; exact List.cons_ne_nil _ _)] at hhead
    exact hhead
  · intro l hl
    rw [show (({ m' with consumed := m'.consumed ++ [some v] } : Memory V).finish op
      (some (m.frontBlock, front))).1.outcomes = ⟨op, some (m.frontBlock, front), m.wasEmpty⟩ :: m.outcomes from rfl,
      lastPeek_cons hop] at hl
    exact absurd hl (by rintro ⟨⟩)

end Shared

/-! ## The steps -/

theorem ByConsumer.note (h : ByConsumer m m' A A') : ByConsumer m m'.note A A' :=
  ⟨h.tailBlock, h.blockCount, h.next, h.size, h.sizeMask, h.tail, h.localFront, h.front, h.data, h.dataTail,
    h.contents, h.contents_le, h.free, h.blocks⟩

namespace Inv

variable {s : State V} {pc : ConsumerPc V}

theorem of_consumer (h : Inv cfg s A) (hshared : Shared cfg m'.note A' pc.taken s.producer.pending)
    (hat : pc.At m' A') (hby : ByConsumer s.memory m' A A') :
    Inv cfg ⟨m'.note, s.producer, pc⟩ A' ∧ ByConsumer s.memory m' A A' :=
  ⟨⟨hshared, hat.note, hby.note.at_ h.shared.layout h.producer⟩, hby⟩

/-- The consumer has read something, or noted it in a `LocalTail`. -/
theorem of_localTail (h : Inv cfg s A) (hshared : Shared cfg m' A false s.producer.pending) (hpc : pc.taken = false)
    (hat : pc.At m' A) (hfront : m'.frontBlock = s.memory.frontBlock) (htail : m'.tailBlock = s.memory.tailBlock)
    (hcount : m'.blockCount = s.memory.blockCount)
    (hblock : ∀ b, ∃ t, m'.blocks b = { s.memory.blocks b with localTail := t }) :
    Inv cfg ⟨m'.note, s.producer, pc⟩ A ∧ ByConsumer s.memory m' A A :=
  h.of_consumer (by rw [hpc]; exact hshared.noted) hat (.of_localTail hfront htail hcount hblock)

theorem of_read (h : Inv cfg s A) (ht : s.consumer.taken = false) (hpc : pc.taken = false)
    (hat : pc.At s.memory A) :
    Inv cfg ⟨s.memory.note, s.producer, pc⟩ A ∧ ByConsumer s.memory s.memory A A :=
  h.of_localTail (ht ▸ h.shared) hpc hat rfl rfl rfl fun _ => ⟨_, rfl⟩

theorem updateBlock_localTail (m : Memory V) (b t b' : ℕ) :
    ∃ t', (m.updateBlock b fun block => { block with localTail := t }).blocks b' =
      { m.blocks b' with localTail := t' } := by
  by_cases hb : b' = b
  · subst hb
    exact ⟨t, updateBlock_self ..⟩
  · exact ⟨_, updateBlock_of_ne hb _⟩

theorem contents_ne_nil (h : Cached m A)
    (hne : (m.blocks m.frontBlock).front ≠ (m.blocks m.frontBlock).localTail) : A.contents m.frontBlock ≠ [] := by
  obtain ⟨n, hn, hlocal⟩ := h.localTail
  intro hc
  rw [hc] at hn
  exact hne (hlocal.eq_iff.mpr (Nat.le_zero.mp hn))

/-- The element at the front of the front block is used. -/
theorem useFront (op : Op) {m'' : Memory V} (h : Inv cfg s A) (hshared : Shared cfg m' A false s.producer.pending)
    (hfront : m'.frontBlock = s.memory.frontBlock) (htail : m'.tailBlock = s.memory.tailBlock)
    (hcount : m'.blockCount = s.memory.blockCount)
    (hblock : ∀ b, ∃ t, m'.blocks b = { s.memory.blocks b with localTail := t })
    (hne : (m'.blocks m'.frontBlock).front ≠ (m'.blocks m'.frontBlock).localTail)
    (hr : ReaderWriterQueue.useFront m' op m'.frontBlock (m'.blocks m'.frontBlock).front = (m'', pc)) :
    (Inv cfg ⟨m''.note, s.producer, pc⟩ A ∧ ByConsumer s.memory m'' A A) ∧ m''.frontBlock = s.memory.frontBlock := by
  have hc := contents_ne_nil hshared.cached hne
  have hslot : A.headSlot m' = some (m'.frontBlock, (m'.blocks m'.frontBlock).front) := by
    rw [View.headSlot, if_neg hc]
  cases op with
  | peek =>
      obtain ⟨rfl, rfl⟩ := Prod.mk.inj hr
      have hfin := hshared.finish .peek (some (m'.frontBlock, (m'.blocks m'.frontBlock).front)) nofun
        (fun l hl => hslot.symm.trans (hshared.history.peeked l hl)) (fun _ l hl => hslot.trans hl)
      refine ⟨?_, hfront⟩
      exact h.of_localTail hfin rfl trivial hfront htail hcount hblock
  | tryDequeue =>
      obtain ⟨rfl, rfl⟩ := Prod.mk.inj hr
      refine ⟨?_, hfront⟩
      exact h.of_localTail hshared rfl ⟨rfl, rfl, nofun, hne⟩ hfront htail hcount hblock
  | pop =>
      obtain ⟨rfl, rfl⟩ := Prod.mk.inj hr
      refine ⟨?_, hfront⟩
      exact h.of_localTail hshared rfl ⟨rfl, rfl, nofun, hne⟩ hfront htail hcount hblock

/-- **Consumer.** The ring keeps its blocks, and the front block is left for the next one in use only. -/
theorem consume (h : Inv cfg s A) (hs : consume s.memory s.consumer = some (m', pc)) :
    ∃ A', (Inv cfg ⟨m'.note, s.producer, pc⟩ A' ∧ ByConsumer s.memory m' A A') ∧
      (A'.rest = A.rest ∧ m'.frontBlock = s.memory.frontBlock ∨ ∃ b, A.rest = b :: A'.rest) ∧
      (A'.rest ++ A'.free).length = (A.rest ++ A.free).length := by
  obtain ⟨m, ppc, cpc⟩ := s
  have hat : cpc.At m A := h.consumer
  have hshared : Shared cfg m A cpc.taken ppc.pending := h.shared
  replace hs : ReaderWriterQueue.consume m cpc = some (m', pc) := hs
  have hspans := hshared.layout.spans _ (Layout.front_mem A m)
  cases cpc with
  | idle => exact absurd hs (by rintro ⟨⟩)
  | loadFrontBlock op =>
      cases hs
      exact ⟨A, h.of_read rfl rfl rfl, Or.inl ⟨rfl, rfl⟩, rfl⟩
  | loadFront op b =>
      cases hs
      exact ⟨A, h.of_read rfl rfl ⟨hat, rfl, rfl⟩, Or.inl ⟨rfl, rfl⟩, rfl⟩
  | loadTailBlock op b front localTail =>
      obtain ⟨rfl, rfl, rfl⟩ := hat
      simp only [ReaderWriterQueue.consume] at hs
      by_cases hcond : m.frontBlock ≠ m.tailBlock ∧
          (op = .tryDequeue ∨ (m.blocks m.frontBlock).front = (m.blocks m.frontBlock).localTail)
      · rw [if_pos hcond] at hs
        cases hs
        have hrest : A.rest ≠ [] := fun hr => hcond.1 ((hshared.layout.tail_eq_front_iff.mpr hr).symm)
        exact ⟨A, h.of_read rfl rfl ⟨rfl, rfl, rfl, hcond.2, hrest⟩, Or.inl ⟨rfl, rfl⟩, rfl⟩
      · rw [if_neg hcond, orElse] at hs
        by_cases hne : (m.blocks m.frontBlock).front ≠ (m.blocks m.frontBlock).localTail
        · rw [if_pos hne] at hs
          have hused := h.useFront op hshared rfl rfl rfl (fun _ => ⟨_, rfl⟩) hne (Option.some.inj hs)
          exact ⟨A, hused.1, Or.inl ⟨rfl, hused.2⟩, rfl⟩
        · rw [if_neg hne] at hs
          obtain ⟨rfl, rfl⟩ := Prod.mk.inj (Option.some.inj hs)
          -- the front block is the last in use: if it is empty, so is the queue
          have hlast : m.frontBlock = m.tailBlock := by
            by_contra hb
            exact hcond ⟨hb, Or.inr (not_not.mp hne)⟩
          have hrest := hshared.layout.tail_eq_front_iff.mp hlast.symm
          refine ⟨A, h.of_read rfl rfl ⟨rfl, rfl, fun hc => ⟨hshared.history.noted ?_, ?_⟩⟩, Or.inl ⟨rfl, rfl⟩, rfl⟩
          · rw [hrest, List.flatMap_cons, hc, List.flatMap_nil, List.append_nil]
          · rw [Option.eq_none_iff_forall_ne_some]
            intro slot hslot
            have hhead := hshared.history.peeked slot hslot
            rw [View.headSlot, if_pos hc, hrest] at hhead
            exact absurd hhead (by rintro ⟨⟩)
  | loadTail op b front localTail =>
      obtain ⟨rfl, rfl, rfl, hop, hrest⟩ := hat
      have hshared' := hshared.localTail m.frontBlock
      simp only [ReaderWriterQueue.consume] at hs
      by_cases heq : (m.blocks m.frontBlock).front = (m.blocks m.frontBlock).tail
      · rw [if_pos heq] at hs
        cases hs
        have hc : A.contents m.frontBlock = [] := List.length_eq_zero_iff.mp (hspans.eq_iff.mp heq)
        refine ⟨A, ?_, Or.inl ⟨rfl, rfl⟩, rfl⟩
        exact h.of_localTail hshared' rfl ⟨rfl, hc, hrest⟩ rfl rfl rfl (updateBlock_localTail _ _ _)
      · rw [if_neg heq, orElse] at hs
        by_cases hdeq : op = .tryDequeue
        · rw [if_pos hdeq, if_pos heq] at hs
          suffices hused : _ ∧ _ from ⟨A, hused.1, Or.inl ⟨rfl, hused.2⟩, rfl⟩
          refine h.useFront op hshared' rfl rfl rfl (updateBlock_localTail _ _ _) ?_ ?_
          · rw [updateBlock_frontBlock, updateBlock_self]
            exact heq
          · rw [updateBlock_frontBlock, updateBlock_self]
            exact Option.some.inj hs
        · rw [if_neg hdeq, if_neg (not_not.mpr (hop.resolve_left hdeq))] at hs
          cases hs
          refine ⟨A, h.of_localTail hshared' rfl ⟨rfl, ?_, fun hc => ?_⟩ rfl rfl rfl (updateBlock_localTail _ _ _),
            Or.inl ⟨rfl, rfl⟩, rfl⟩
          · rw [updateBlock_self]
          · rw [hc] at hspans
            exact absurd (hspans.eq_iff.mpr rfl) heq
  | reloadTail op b front =>
      obtain ⟨rfl, rfl, hempty⟩ := hat
      have hshared' := hshared.localTail m.frontBlock
      simp only [ReaderWriterQueue.consume] at hs
      by_cases heq : (m.blocks m.frontBlock).front = (m.blocks m.frontBlock).tail
      · rw [if_neg (not_not.mpr heq)] at hs
        cases hs
        obtain ⟨hwas, hlast⟩ := hempty (List.length_eq_zero_iff.mp (hspans.eq_iff.mp heq))
        have hfin := hshared'.finish op none (fun _ => hwas) (fun l hl => ?_) (fun _ _ => by rintro ⟨⟩)
        · refine ⟨A, ?_, Or.inl ⟨rfl, rfl⟩, rfl⟩
          exact h.of_localTail hfin rfl trivial rfl rfl rfl (updateBlock_localTail _ _ _)
        · rw [show (m.updateBlock m.frontBlock _).outcomes = m.outcomes from rfl, hlast] at hl
          exact absurd hl (by rintro ⟨⟩)
      · rw [if_pos heq] at hs
        suffices hused : _ ∧ _ from ⟨A, hused.1, Or.inl ⟨rfl, hused.2⟩, rfl⟩
        refine h.useFront op hshared' rfl rfl rfl (updateBlock_localTail _ _ _) ?_ ?_
        · rw [updateBlock_frontBlock, updateBlock_self]
          exact heq
        · rw [updateBlock_frontBlock, updateBlock_self]
          exact Option.some.inj hs
  | loadNext op b =>
      obtain ⟨rfl, hc, hrest⟩ := hat
      obtain ⟨x, l, hr⟩ := List.exists_cons_of_ne_nil hrest
      simp only [ReaderWriterQueue.consume, hshared.layout.next_front hr] at hs
      cases hs
      exact ⟨A, h.of_read rfl rfl ⟨hc, by rw [hr]; rfl⟩, Or.inl ⟨rfl, rfl⟩, rfl⟩
  | loadNextFront op b =>
      cases hs
      exact ⟨A, h.of_read rfl rfl ⟨hat.1, hat.2, rfl⟩, Or.inl ⟨rfl, rfl⟩, rfl⟩
  | loadNextTail op b front =>
      obtain ⟨hc, hb, rfl⟩ := hat
      have hbmem : b ∈ A.rest := List.mem_of_mem_head? hb
      have hspansb := hshared.layout.spans b (Layout.rest_mem m hbmem)
      have hne : (m.blocks b).front ≠ (m.blocks b).tail := by
        intro heq
        exact hshared.layout.nonempty b hbmem (List.length_eq_zero_iff.mp (hspansb.eq_iff.mp heq))
      have hshared' := hshared.localTail b
      have hslot : A.headSlot m = some (b, (m.blocks b).front) := by
        rw [View.headSlot, if_pos hc, hb, Option.map_some]
      have hslot' : A.headSlot (m.updateBlock b fun block => { block with localTail := (m.blocks b).tail })
          = some (b, (m.blocks b).front) := by
        rw [View.headSlot, updateBlock_frontBlock, if_pos hc, hb, Option.map_some, updateBlock_self]
      have hnext : Shared cfg (m.updateBlock b fun block => { block with localTail := (m.blocks b).tail }) A false
          ppc.pending ∧ ∀ op', op' ≠ Op.peek → (ConsumerPc.storeFrontBlock op' b (m.blocks b).front : ConsumerPc V).At
            (m.updateBlock b fun block => { block with localTail := (m.blocks b).tail }) A := by
        refine ⟨hshared', fun op' hop' => ⟨hc, hb, by rw [updateBlock_self], hop', (A.contents b).length, ?_, le_rfl, ?_⟩⟩
        · exact List.length_pos_iff.mpr (hshared.layout.nonempty b hbmem)
        · rw [updateBlock_self]
          exact hspansb
      simp only [ReaderWriterQueue.consume, if_neg hne] at hs
      cases op with
      | peek =>
          cases hs
          have hfin := hshared'.finish .peek (some (b, (m.blocks b).front)) (by rintro ⟨⟩)
            (fun l hl => hslot.symm.trans (hshared.history.peeked l hl)) (fun _ l hl => hslot'.trans hl)
          refine ⟨A, ?_, Or.inl ⟨rfl, rfl⟩, rfl⟩
          exact h.of_localTail hfin rfl trivial rfl rfl rfl (updateBlock_localTail _ _ _)
      | tryDequeue =>
          cases hs
          refine ⟨A, ?_, Or.inl ⟨rfl, rfl⟩, rfl⟩
          exact h.of_localTail hshared' rfl (hnext.2 _ (by rintro ⟨⟩)) rfl rfl rfl (updateBlock_localTail _ _ _)
      | pop =>
          cases hs
          refine ⟨A, ?_, Or.inl ⟨rfl, rfl⟩, rfl⟩
          exact h.of_localTail hshared' rfl (hnext.2 _ (by rintro ⟨⟩)) rfl rfl rfl (updateBlock_localTail _ _ _)
  | storeFrontBlock op b front =>
      obtain ⟨hc, hb, rfl, hop, n, hn, hle, hlocal⟩ := hat
      obtain ⟨l, hr⟩ : ∃ l, A.rest = b :: l := by
        cases hr : A.rest with
        | nil =>
            rw [hr] at hb
            exact absurd hb (by rintro ⟨⟩)
        | cons x l =>
            rw [hr] at hb
            cases hb
            exact ⟨l, rfl⟩
      cases hs
      refine ⟨{ A with rest := l, free := A.free ++ [m.frontBlock] }, h.of_consumer
        (hshared.moveFront hr hc ⟨n, hle, hlocal⟩).noted ⟨rfl, rfl, hop, fun heq => ?_⟩ ?_, Or.inr ⟨b, hr⟩, ?_⟩
      · have := hlocal.eq_iff.mp heq
        omega
      · refine ⟨rfl, rfl, fun _ => rfl, fun _ => rfl, fun _ => rfl, fun _ => rfl, fun _ => rfl, fun _ _ => rfl,
          fun _ _ => rfl, fun _ => rfl, fun _ _ => rfl, fun _ => le_rfl, ⟨_, rfl⟩, fun x hx => ?_⟩
        simp only [View.blocks, hr, List.mem_cons, List.mem_append, List.not_mem_nil, or_false, List.cons_append]
          at hx ⊢
        tauto
      · show (l ++ (A.free ++ [m.frontBlock])).length = _
        rw [hr, ← List.append_assoc, List.length_append, List.length_singleton]
        rfl
  | take op b front =>
      obtain ⟨rfl, rfl, hop, hne⟩ := hat
      obtain ⟨v, c, hc⟩ := List.exists_cons_of_ne_nil (contents_ne_nil hshared.cached hne)
      replace hshared : Shared cfg m A false ppc.pending := hshared
      have hfilled := hshared.stored.front
      rw [if_neg Bool.false_ne_true, hc] at hfilled
      have hfield : ∀ {β : Type} (g : Block V → β), (∀ b : Block V, ∀ i, g (b.destroy i) = g b) →
          ∀ b', g ((m.updateBlock m.frontBlock (Block.destroy (m.blocks m.frontBlock).front)).blocks b') =
            g (m.blocks b') := fun g hg b' => updateBlock_field g (hg _ _) b'
      cases hs
      refine ⟨A, h.of_consumer (hshared.take hc).noted ⟨rfl, ?_, hop, ?_, v, hfilled.head hspans.front_lt, ?_⟩ ?_,
        Or.inl ⟨rfl, rfl⟩, rfl⟩
      · exact (hfield Block.front (fun _ _ => rfl) _).symm
      · rw [hfield Block.front (fun _ _ => rfl), hfield Block.localTail (fun _ _ => rfl)]
        exact hne
      · rw [hc]
        rfl
      · refine ⟨rfl, rfl, hfield Block.next fun _ _ => rfl, hfield Block.size fun _ _ => rfl,
          hfield Block.sizeMask fun _ _ => rfl, hfield Block.tail fun _ _ => rfl,
          hfield Block.localFront fun _ _ => rfl, fun x _ => hfield Block.front (fun _ _ => rfl) x, fun x hx => ?_,
          fun x => ?_, fun _ _ => rfl, fun _ => le_rfl, ⟨[], (List.append_nil _).symm⟩, fun _ hx => hx⟩
        · rw [updateBlock_of_ne hx]
        · by_cases hx : x = m.frontBlock
          · subst hx
            have htail : (m.blocks m.frontBlock).tail ≠ (m.blocks m.frontBlock).front := by
              intro heq
              have hzero := hspans.eq_iff.mp heq.symm
              rw [hc] at hzero
              exact absurd hzero (by rintro ⟨⟩)
            rw [updateBlock_self]
            exact Function.update_of_ne htail _ _
          · rw [updateBlock_of_ne hx]
  | storeFront op b front v =>
      obtain ⟨rfl, rfl, hop, hne, x, rfl, hx⟩ := hat
      obtain ⟨c, hc⟩ : ∃ c, A.contents m.frontBlock = x :: c := by
        cases hc : A.contents m.frontBlock with
        | nil =>
            rw [hc] at hx
            exact absurd hx (by rintro ⟨⟩)
        | cons y c =>
            rw [hc] at hx
            cases hx
            exact ⟨c, rfl⟩
      have hfield : ∀ {β : Type} (g : Block V → β), (∀ b : Block V, ∀ i, g { b with front := i } = g b) →
          ∀ b', g ((m.updateBlock m.frontBlock fun block =>
            { block with front := block.succ (m.blocks m.frontBlock).front }).blocks b') = g (m.blocks b') :=
        fun g hg b' => updateBlock_field g (hg _ _) b'
      cases hs
      refine ⟨{ A with contents := Function.update A.contents m.frontBlock c },
        h.of_consumer (hshared.storeFront hc hop hne) trivial ?_, Or.inl ⟨rfl, rfl⟩, rfl⟩
      refine ⟨rfl, rfl, hfield Block.next fun _ _ => rfl, hfield Block.size fun _ _ => rfl,
        hfield Block.sizeMask fun _ _ => rfl, hfield Block.tail fun _ _ => rfl,
        hfield Block.localFront fun _ _ => rfl, fun y hy => ?_, fun y _ => hfield Block.data (fun _ _ => rfl) y,
        fun y => by rw [hfield Block.data (fun _ _ => rfl) y], fun y hy => Function.update_of_ne hy _ _, fun y => ?_,
        ⟨[], (List.append_nil _).symm⟩, fun _ hy => hy⟩
      · have hsame := updateBlock_of_ne (m := m) hy fun block =>
          { block with front := block.succ (m.blocks m.frontBlock).front }
        exact congrArg Block.front hsame
      · by_cases hy : y = m.frontBlock
        · subst hy
          simp only [Function.update_self, hc, List.length_cons]
          exact Nat.le_succ _
        · simp only [Function.update_of_ne hy]
          exact le_rfl
  | assertFailed => exact hat.elim

end Inv

end ReaderWriterQueue

end LockFreeStructures
