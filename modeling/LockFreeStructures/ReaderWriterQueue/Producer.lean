import LockFreeStructures.ReaderWriterQueue.Invariant

/-!
# `ReaderWriterQueue.Producer` — what `InnerEnqueue` keeps

The producer writes `LocalFront`, `Tail`, `Next` and `TailBlock`, and puts its element into a slot that holds
none. `ByProducer` says what of this the consumer can see, and that the consumer's knowledge survives it.
-/

namespace LockFreeStructures

namespace ReaderWriterQueue

variable {V : Type} {cfg : Cfg} {m m' : Memory V} {A A' : View V} {b : ℕ} {v : V} {taken : Bool}
  {pending : Option ℕ}

/-! ## What the consumer sees of it -/

structure ByProducer (m m' : Memory V) (A A' : View V) : Prop where
  frontBlock : m'.frontBlock = m.frontBlock
  outcomes : m'.outcomes = m.outcomes
  wasEmpty : m.wasEmpty = true → m'.wasEmpty = true
  size : ∀ b ∈ m.frontBlock :: A.rest, (m'.blocks b).size = (m.blocks b).size
  front : ∀ b ∈ m.frontBlock :: A.rest, (m'.blocks b).front = (m.blocks b).front
  localTail : ∀ b ∈ m.frontBlock :: A.rest, (m'.blocks b).localTail = (m.blocks b).localTail
  rest : ∃ l, A'.rest = A.rest ++ l
  contents : ∀ b ∈ m.frontBlock :: A.rest, ∃ l, A'.contents b = A.contents b ++ l
  contents_front : A.rest ≠ [] → A'.contents m.frontBlock = A.contents m.frontBlock

namespace ByProducer

theorem note (h : ByProducer m m' A A') : ByProducer m m'.note A A' := by
  refine ⟨h.frontBlock, h.outcomes, fun hw => ?_, h.size, h.front, h.localTail, h.rest, h.contents,
    h.contents_front⟩
  show (m'.wasEmpty || _) = true
  rw [h.wasEmpty hw, Bool.true_or]

theorem rest_ne_nil (h : ByProducer m m' A A') (hr : A.rest ≠ []) : A'.rest ≠ [] := by
  obtain ⟨l, hl⟩ := h.rest
  rw [hl]
  exact List.append_ne_nil_of_left_ne_nil hr l

theorem head?_rest (h : ByProducer m m' A A') (hb : A.rest.head? = some b) : A'.rest.head? = some b := by
  obtain ⟨l, hl⟩ := h.rest
  rw [hl, List.head?_append, hb, Option.some_or]

/-- The consumer knows what it knew before. -/
theorem at_ (h : ByProducer m m' A A') {pc : ConsumerPc V} (hpc : pc.At m A) : pc.At m' A' := by
  have hF : m.frontBlock ∈ m.frontBlock :: A.rest := List.mem_cons_self
  have hmem : ∀ {x}, A.rest.head? = some x → x ∈ m.frontBlock :: A.rest := fun hx =>
    List.mem_cons_of_mem _ (List.mem_of_mem_head? hx)
  have hne : ∀ {x}, A.rest.head? = some x → A.rest ≠ [] := by
    rintro x hx hr
    rw [hr] at hx
    exact absurd hx nofun
  cases pc with
  | idle => trivial
  | loadFrontBlock op => trivial
  | loadFront op b => exact hpc.trans h.frontBlock.symm
  | loadTailBlock op b front localTail =>
      obtain ⟨rfl, rfl, rfl⟩ := hpc
      exact ⟨h.frontBlock.symm, (h.front _ hF).symm, (h.localTail _ hF).symm⟩
  | loadTail op b front localTail =>
      obtain ⟨rfl, rfl, rfl, hop, hr⟩ := hpc
      exact ⟨h.frontBlock.symm, (h.front _ hF).symm, (h.localTail _ hF).symm, hop, h.rest_ne_nil hr⟩
  | reloadTail op b front =>
      obtain ⟨rfl, rfl, hempty⟩ := hpc
      refine ⟨h.frontBlock.symm, (h.front _ hF).symm, fun hc => ?_⟩
      obtain ⟨l, hl⟩ := h.contents _ hF
      rw [hl, List.append_eq_nil_iff] at hc
      exact ⟨h.wasEmpty (hempty hc.1).1, by rw [h.outcomes]; exact (hempty hc.1).2⟩
  | loadNext op b =>
      obtain ⟨rfl, hc, hr⟩ := hpc
      exact ⟨h.frontBlock.symm, (h.contents_front hr).trans hc, h.rest_ne_nil hr⟩
  | loadNextFront op b =>
      obtain ⟨hc, hb⟩ := hpc
      exact ⟨by rw [h.frontBlock, h.contents_front (hne hb)]; exact hc, h.head?_rest hb⟩
  | loadNextTail op b front =>
      obtain ⟨hc, hb, rfl⟩ := hpc
      exact ⟨by rw [h.frontBlock, h.contents_front (hne hb)]; exact hc, h.head?_rest hb,
        (h.front b (hmem hb)).symm⟩
  | storeFrontBlock op b front =>
      obtain ⟨hc, hb, rfl, hop, n, hn, hle, hspans⟩ := hpc
      refine ⟨by rw [h.frontBlock, h.contents_front (hne hb)]; exact hc, h.head?_rest hb,
        (h.front b (hmem hb)).symm, hop, n, hn, ?_, ?_⟩
      · obtain ⟨l, hl⟩ := h.contents b (hmem hb)
        rw [hl, List.length_append]
        exact Nat.le_add_right_of_le hle
      · rwa [h.size b (hmem hb), h.front b (hmem hb), h.localTail b (hmem hb)]
  | take op b front =>
      obtain ⟨rfl, rfl, hop, hlt⟩ := hpc
      refine ⟨h.frontBlock.symm, (h.front _ hF).symm, hop, ?_⟩
      rwa [h.front _ hF, h.localTail _ hF]
  | storeFront op b front v =>
      obtain ⟨rfl, rfl, hop, hlt, x, rfl, hx⟩ := hpc
      refine ⟨h.frontBlock.symm, (h.front _ hF).symm, hop, ?_, x, rfl, ?_⟩
      · rwa [h.front _ hF, h.localTail _ hF]
      · obtain ⟨l, hl⟩ := h.contents _ hF
        rw [hl, List.head?_append, hx, Option.some_or]
  | assertFailed => exact hpc

/-- Nothing the consumer looks at has changed. -/
theorem of_fields (hfront : m'.frontBlock = m.frontBlock) (hout : m'.outcomes = m.outcomes)
    (hempty : m.wasEmpty = true → m'.wasEmpty = true)
    (hblock : ∀ b ∈ m.frontBlock :: A.rest, (m'.blocks b).size = (m.blocks b).size ∧
      (m'.blocks b).front = (m.blocks b).front ∧ (m'.blocks b).localTail = (m.blocks b).localTail)
    (hrest : ∃ l, A'.rest = A.rest ++ l) (hcontents : ∀ b ∈ m.frontBlock :: A.rest, A'.contents b = A.contents b) :
    ByProducer m m' A A' :=
  ⟨hfront, hout, hempty, fun b hb => (hblock b hb).1, fun b hb => (hblock b hb).2.1, fun b hb => (hblock b hb).2.2,
    hrest, fun b hb => ⟨[], (hcontents b hb).trans (List.append_nil _).symm⟩,
    fun _ => hcontents _ List.mem_cons_self⟩

end ByProducer

/-! ## What the producer writes -/

namespace Shared

/-- `LocalFront` is brought up to date. -/
theorem localFront (h : Shared cfg m A taken pending) (b : ℕ) :
    Shared cfg (m.updateBlock b fun block => { block with localFront := (m.blocks b).front }) A taken pending := by
  have hfield : ∀ {β : Type} (g : Block V → β), (∀ b : Block V, ∀ i, g { b with localFront := i } = g b) →
      ∀ b', g ((m.updateBlock b fun block => { block with localFront := (m.blocks b).front }).blocks b') =
        g (m.blocks b') := fun g hg b' => updateBlock_field g (hg _ _) b'
  refine ⟨h.layout.congr rfl rfl (fun b' _ => hfield Block.shape (fun _ _ => rfl) b') le_rfl h.layout.blockSize,
    h.stored.congr rfl (fun b' _ => hfield Block.size (fun _ _ => rfl) b')
      (fun b' _ => hfield Block.front (fun _ _ => rfl) b') (fun b' _ => hfield Block.data (fun _ _ => rfl) b'),
    ⟨?_, ?_⟩,
    h.history.congr rfl rfl rfl rfl id fun b' _ => hfield Block.front (fun _ _ => rfl) b'⟩
  · rw [updateBlock_frontBlock, hfield Block.size (fun _ _ => rfl), hfield Block.front (fun _ _ => rfl),
      hfield Block.localTail (fun _ _ => rfl)]
    exact h.cached.localTail
  · rw [updateBlock_tailBlock]
    by_cases hb : m.tailBlock = b
    · subst hb
      refine ⟨_, le_rfl, ?_⟩
      rw [updateBlock_self]
      exact h.layout.spans _ h.layout.tail_mem_blocks
    · rw [updateBlock_of_ne hb]
      exact h.cached.localFront

theorem construct_eq (h : Shared cfg m A taken pending) (hb : b ∈ A.blocks m) (v : V) :
    (m.blocks b).construct (m.blocks b).tail v =
      { m.blocks b with data := Function.update (m.blocks b).data (m.blocks b).tail (some v) } := by
  rw [Block.construct, if_pos (h.layout.spans b hb).tail_lt]

/-- An element goes into the slot at the tail of a block. -/
theorem construct (h : Shared cfg m A taken pending) (hb : b ∈ A.blocks m) (v : V) :
    Shared cfg (m.updateBlock b (Block.construct (m.blocks b).tail v)) A taken pending := by
  have hfield : ∀ {β : Type} (g : Block V → β), (∀ b : Block V, ∀ d, g { b with data := d } = g b) →
      ∀ b', g ((m.updateBlock b (Block.construct (m.blocks b).tail v)).blocks b') = g (m.blocks b') :=
    fun g hg b' => updateBlock_field g (by rw [h.construct_eq hb]; exact hg _ _) b'
  have hdata : ((m.updateBlock b (Block.construct (m.blocks b).tail v)).blocks b).data =
      Function.update (m.blocks b).data (m.blocks b).tail (some v) := by
    rw [updateBlock_self, h.construct_eq hb]
  refine ⟨h.layout.congr rfl rfl (fun b' _ => hfield Block.shape (fun _ _ => rfl) b') le_rfl h.layout.blockSize,
    ⟨fun b' hb' => ?_, ?_⟩, h.cached.congr rfl rfl ?_ ?_,
    h.history.congr rfl rfl rfl rfl id fun b' _ => hfield Block.front (fun _ _ => rfl) b'⟩
  · rw [hfield Block.size (fun _ _ => rfl), hfield Block.front (fun _ _ => rfl)]
    by_cases heq : b' = b
    · subst heq
      rw [hdata]
      exact (h.stored.other b' hb').update_tail (h.layout.spans b' hb) _
    · rw [updateBlock_of_ne heq]
      exact h.stored.other b' hb'
  · rw [updateBlock_frontBlock, hfield Block.size (fun _ _ => rfl), hfield Block.front (fun _ _ => rfl)]
    by_cases heq : m.frontBlock = b
    · subst heq
      have hspans := h.layout.spans _ hb
      rw [hdata]
      cases taken with
      | false => exact h.stored.front.update_tail hspans _
      | true =>
          have hfront := h.stored.front
          rw [if_pos rfl] at hfront ⊢
          cases hc : A.contents m.frontBlock with
          | nil => exact .nil
          | cons x c =>
              rw [hc, List.tail_cons] at hfront
              rw [hc, List.length_cons] at hspans
              exact hfront.update_tail hspans.pop _
    · rw [updateBlock_of_ne heq]
      exact h.stored.front
  · exact ⟨hfield Block.size (fun _ _ => rfl) _, hfield Block.front (fun _ _ => rfl) _,
      hfield Block.localTail (fun _ _ => rfl) _⟩
  · exact ⟨hfield Block.size (fun _ _ => rfl) _, hfield Block.localFront (fun _ _ => rfl) _,
      hfield Block.tail (fun _ _ => rfl) _⟩

/-! ### One more element -/

/-- What a block holds after one more element has gone in. -/
def pushed (A : View V) (b : ℕ) (v : V) : View V :=
  { A with contents := Function.update A.contents b (A.contents b ++ [v]) }

theorem pushed_self (A : View V) (b : ℕ) (v : V) : (pushed A b v).contents b = A.contents b ++ [v] :=
  Function.update_self ..

theorem pushed_of_ne {b' : ℕ} (hb : b' ≠ b) : (pushed A b v).contents b' = A.contents b' :=
  Function.update_of_ne hb ..

variable {t : ℕ}

theorem layout_push (h : Shared cfg m A taken pending) (hb : b ∈ A.blocks m)
    (hroom : (A.contents b).length + 1 < (m.blocks b).size) (v : V) {pending' : Option ℕ}
    (hpend : ∀ b' ∈ A.free, pending' = some b' ∨ b' ≠ b ∧ A.contents b' = []) :
    Layout cfg (m.updateBlock b fun block => { block with tail := block.succ (m.blocks b).tail }) (pushed A b v)
      pending' := by
  have hfield : ∀ {β : Type} (g : Block V → β), (∀ b : Block V, ∀ i, g { b with tail := i } = g b) →
      ∀ b', g ((m.updateBlock b fun block => { block with tail := block.succ (m.blocks b).tail }).blocks b') =
        g (m.blocks b') := fun g hg b' => updateBlock_field g (hg _ _) b'
  refine ⟨h.layout.ring.congr fun x _ => hfield Block.next (fun _ _ => rfl) x, h.layout.tailBlock, fun x hx => ?_,
    fun x hx => ?_, fun x hx => ?_, fun x hx => ?_, h.layout.count, h.layout.blockSize⟩
  · rw [Block.Sized, hfield Block.size (fun _ _ => rfl), hfield Block.sizeMask (fun _ _ => rfl)]
    exact h.layout.sized x hx
  · rw [hfield Block.size (fun _ _ => rfl), hfield Block.front (fun _ _ => rfl)]
    by_cases heq : x = b
    · subst heq
      rw [updateBlock_self, pushed_self, List.length_append, List.length_singleton, (h.layout.sized x hb).succ_eq]
      exact (h.layout.spans x hb).push hroom
    · rw [updateBlock_of_ne heq, pushed_of_ne heq]
      exact h.layout.spans x hx
  · by_cases heq : x = b
    · subst heq
      rw [pushed_self]
      exact List.append_ne_nil_of_right_ne_nil _ (List.cons_ne_nil _ _)
    · rw [pushed_of_ne heq]
      exact h.layout.nonempty x hx
  · rcases hpend x hx with hp | ⟨hne, hc⟩
    · exact Or.inl hp
    · rw [pushed_of_ne hne]
      exact Or.inr hc

theorem stored_push (h : Shared cfg m A taken pending) (hb : b ∈ A.blocks m)
    (hd : (m.blocks b).data (m.blocks b).tail = some v) (htaken : taken = true → A.contents m.frontBlock ≠ []) :
    Stored (m.updateBlock b fun block => { block with tail := block.succ (m.blocks b).tail }) (pushed A b v) taken := by
  have hfield : ∀ {β : Type} (g : Block V → β), (∀ b : Block V, ∀ i, g { b with tail := i } = g b) →
      ∀ b', g ((m.updateBlock b fun block => { block with tail := block.succ (m.blocks b).tail }).blocks b') =
        g (m.blocks b') := fun g hg b' => updateBlock_field g (hg _ _) b'
  have hspans := h.layout.spans b hb
  refine ⟨fun x hx => ?_, ?_⟩
  · rw [hfield Block.size (fun _ _ => rfl), hfield Block.data (fun _ _ => rfl), hfield Block.front (fun _ _ => rfl)]
    by_cases heq : x = b
    · subst heq
      rw [pushed_self]
      exact (h.stored.other x hx).push hspans hd
    · rw [pushed_of_ne heq]
      exact h.stored.other x hx
  · rw [updateBlock_frontBlock, hfield Block.size (fun _ _ => rfl), hfield Block.data (fun _ _ => rfl),
      hfield Block.front (fun _ _ => rfl)]
    by_cases heq : m.frontBlock = b
    · subst heq
      have hfront := h.stored.front
      rw [pushed_self]
      cases taken with
      | false => exact Filled.push hfront hspans hd
      | true =>
          rw [if_pos rfl] at hfront ⊢
          obtain ⟨x, c, hc⟩ := List.exists_cons_of_ne_nil (htaken rfl)
          rw [hc, List.tail_cons] at hfront
          rw [hc, List.length_cons] at hspans
          rw [hc, List.cons_append, List.tail_cons]
          exact hfront.push hspans.pop hd
    · rw [pushed_of_ne heq]
      exact h.stored.front

theorem cached_push (h : Shared cfg m A taken pending)
    (hroom : m.tailBlock = b → ∃ n, (A.contents b).length ≤ n ∧ n + 1 < (m.blocks b).size ∧
      Spans (m.blocks b).size (m.blocks b).localFront (m.blocks b).tail n) :
    Cached (m.updateBlock b fun block => { block with tail := block.succ (m.blocks b).tail }) (pushed A b v) := by
  have hfield : ∀ {β : Type} (g : Block V → β), (∀ b : Block V, ∀ i, g { b with tail := i } = g b) →
      ∀ b', g ((m.updateBlock b fun block => { block with tail := block.succ (m.blocks b).tail }).blocks b') =
        g (m.blocks b') := fun g hg b' => updateBlock_field g (hg _ _) b'
  refine ⟨?_, ?_⟩
  · obtain ⟨n, hn, hlocal⟩ := h.cached.localTail
    rw [updateBlock_frontBlock, hfield Block.size (fun _ _ => rfl), hfield Block.front (fun _ _ => rfl),
      hfield Block.localTail (fun _ _ => rfl)]
    refine ⟨n, ?_, hlocal⟩
    by_cases heq : m.frontBlock = b
    · subst heq
      rw [pushed_self, List.length_append]
      exact Nat.le_add_right_of_le hn
    · rw [pushed_of_ne heq]
      exact hn
  · rw [updateBlock_tailBlock, hfield Block.size (fun _ _ => rfl), hfield Block.localFront (fun _ _ => rfl)]
    by_cases heq : m.tailBlock = b
    · obtain ⟨n, hn, hlt, hlocal⟩ := hroom heq
      subst heq
      refine ⟨n + 1, ?_, ?_⟩
      · rw [pushed_self, List.length_append, List.length_singleton]
        exact Nat.succ_le_succ hn
      · rw [updateBlock_self, (h.layout.sized _ h.layout.tail_mem_blocks).succ_eq]
        exact hlocal.push hlt
    · rw [updateBlock_of_ne heq, pushed_of_ne heq]
      exact h.cached.localFront

/-- The tail block gets one more element. -/
theorem storeTail (h : Shared cfg m A taken none) (hroom : Room m A m.tailBlock)
    (hd : (m.blocks m.tailBlock).data (m.blocks m.tailBlock).tail = some v)
    (htaken : taken = true → A.contents m.frontBlock ≠ []) :
    let m' := m.updateBlock m.tailBlock fun block => { block with tail := block.succ (m.blocks m.tailBlock).tail }
    Shared cfg { m' with enqueued := m'.enqueued ++ [v] }.note (pushed A m.tailBlock v) taken none := by
  intro m'
  have hb := h.layout.tail_mem_blocks
  have hlayout : Layout cfg _ (pushed A m.tailBlock v) none := h.layout_push hb ?_ v fun x hx => ?_
  · have hstored := h.stored_push hb hd htaken
    have hcached := h.cached_push (v := v) (b := m.tailBlock) fun _ => hroom
    refine .note (hlayout.congr rfl rfl (fun _ _ => rfl) le_rfl hlayout.blockSize) ⟨hstored.other, hstored.front⟩
      ⟨hcached.localTail, hcached.localFront⟩ ?_ h.history.empties h.history.peeks fun slot hslot => ?_
    · obtain ⟨gone, hcons, henq⟩ := h.history.fifo
      obtain ⟨l, hl⟩ := h.layout.used_eq
      have hmem : m.tailBlock ∉ l := by
        have hnodup := h.layout.ring.nodup
        rw [View.blocks, ← List.cons_append, hl] at hnodup
        intro hmem
        exact (List.nodup_append.mp (List.nodup_append.mp hnodup).1).2.2 _ hmem _ (List.mem_singleton.mpr rfl) rfl
      refine ⟨gone, hcons, ?_⟩
      show m.enqueued ++ [v] = gone ++ (m.frontBlock :: A.rest).flatMap (pushed A m.tailBlock v).contents
      rw [henq, hl, List.flatMap_append, List.flatMap_append, List.flatMap_singleton, List.flatMap_singleton,
        pushed_self, List.append_assoc, List.append_assoc]
      have hsame : l.flatMap (pushed A m.tailBlock v).contents = l.flatMap A.contents :=
        List.flatMap_congr fun x hx => pushed_of_ne fun heq => hmem (heq ▸ hx)
      rw [hsame]
    · have hfront : ∀ x, (m'.blocks x).front = (m.blocks x).front := fun x =>
        updateBlock_field Block.front (f := fun block => { block with tail := block.succ (m.blocks m.tailBlock).tail })
          rfl x
      have hhead := h.history.peeked slot hslot
      by_cases hc : A.contents m.frontBlock = []
      · rw [View.headSlot, if_pos hc] at hhead
        -- another block is in use, so the front block is not the one that has grown
        have hne : m.frontBlock ≠ m.tailBlock := by
          intro heq
          rw [h.layout.tail_eq_front_iff.mp heq.symm] at hhead
          exact absurd hhead (by rintro ⟨⟩)
        rw [← hhead]
        show (pushed A m.tailBlock v).headSlot m' = _
        rw [View.headSlot, updateBlock_frontBlock, pushed_of_ne hne, if_pos hc]
        exact congrArg (fun f => A.rest.head?.map f) (funext fun x => by rw [hfront])
      · rw [View.headSlot, if_neg hc] at hhead
        have hc' : (pushed A m.tailBlock v).contents m.frontBlock ≠ [] := by
          by_cases heq : m.frontBlock = m.tailBlock
          · rw [heq, pushed_self]
            exact List.append_ne_nil_of_right_ne_nil _ (List.cons_ne_nil _ _)
          · rwa [pushed_of_ne heq]
        rw [← hhead]
        show (pushed A m.tailBlock v).headSlot m' = _
        rw [View.headSlot, updateBlock_frontBlock, if_neg hc', hfront]
  · obtain ⟨n, hn, hlt, -⟩ := hroom
    omega
  · refine Or.inr ⟨?_, (h.layout.empty x hx).resolve_left (by rintro ⟨⟩)⟩
    rintro rfl
    exact h.layout.tail_notMem_free hx

/-- What is in use is as it was: the history is kept. -/
theorem history_of_used (h : History m A) (hfront : m'.frontBlock = m.frontBlock) (henq : m'.enqueued = m.enqueued)
    (hcons : m'.consumed = m.consumed) (hout : m'.outcomes = m.outcomes) (hempty : m'.wasEmpty = m.wasEmpty)
    (hrest : A'.rest = A.rest) (hcontents : ∀ x ∈ m.frontBlock :: A.rest, A'.contents x = A.contents x)
    (hf : ∀ x ∈ m.frontBlock :: A.rest, (m'.blocks x).front = (m.blocks x).front) : History m' A' := by
  have hflat : (m'.frontBlock :: A'.rest).flatMap A'.contents = (m.frontBlock :: A.rest).flatMap A.contents := by
    rw [hfront, hrest]
    exact List.flatMap_congr hcontents
  have hslot : A'.headSlot m' = A.headSlot m := by
    have hF : m.frontBlock ∈ m.frontBlock :: A.rest := List.mem_cons_self
    rw [View.headSlot, View.headSlot, hfront, hcontents _ hF, hf _ hF, hrest]
    by_cases hc : A.contents m.frontBlock = []
    · rw [if_pos hc, if_pos hc]
      refine Option.map_congr fun x hx => ?_
      rw [hf x (List.mem_cons_of_mem _ (List.mem_of_mem_head? hx))]
    · rw [if_neg hc, if_neg hc]
  refine ⟨?_, ?_, ?_, ?_, ?_⟩
  · rw [hflat, hcons, henq]
    exact h.fifo
  · rw [hflat, hempty]
    exact h.noted
  · rw [hout]
    exact h.empties
  · rw [hout]
    exact h.peeks
  · rw [hout, hslot]
    exact h.peeked

/-- The first free block gets its first element; it is not in use yet. -/
theorem storeNextTail (h : Shared cfg m A taken none) (hb : A.free.head? = some b)
    (hd : (m.blocks b).data (m.blocks b).tail = some v) (htaken : taken = true → A.contents m.frontBlock ≠ []) :
    Shared cfg (m.updateBlock b fun block => { block with tail := block.succ (m.blocks b).tail }) (pushed A b v) taken
      (some b) := by
  have hfree : b ∈ A.free := List.mem_of_mem_head? hb
  have hmem := Layout.free_mem m hfree
  have hne : ∀ x ∈ m.frontBlock :: A.rest, x ≠ b := by
    rintro x hx rfl
    have hnodup := h.layout.ring.nodup
    rw [View.blocks, ← List.cons_append, List.nodup_append] at hnodup
    exact hnodup.2.2 x hx x hfree rfl
  have hcb : A.contents b = [] := (h.layout.empty b hfree).resolve_left (by rintro ⟨⟩)
  have htwo := (h.layout.sized b hmem).two_le
  refine ⟨h.layout_push hmem ?_ v fun x hx => ?_, h.stored_push hmem hd htaken, h.cached_push fun heq => ?_, ?_⟩
  · rw [hcb, List.length_nil]
    exact htwo
  · by_cases heq : x = b
    · exact Or.inl (by rw [heq])
    · exact Or.inr ⟨heq, (h.layout.empty x hx).resolve_left (by rintro ⟨⟩)⟩
  · exact absurd heq (hne _ h.layout.tail_mem)
  · exact history_of_used h.history rfl rfl rfl rfl rfl rfl (fun x hx => pushed_of_ne (hne x hx)) fun x hx => by
      rw [updateBlock_of_ne (hne x hx)]

/-- The first free block, which holds one element, becomes the tail block. -/
theorem storeTailBlock {l : List ℕ} (h : Shared cfg m A taken (some b)) (hfree : A.free = b :: l)
    (hc : A.contents b = [v]) (hlf : (m.blocks b).localFront = (m.blocks b).front) :
    Shared cfg { m with tailBlock := b, enqueued := m.enqueued ++ [v] }.note
      { A with rest := A.rest ++ [b], free := l } taken none := by
  have hmem : b ∈ A.blocks m := Layout.free_mem m (by rw [hfree]; exact List.mem_cons_self)
  have hblocks : ∀ x, x ∈ m.frontBlock :: (A.rest ++ [b] ++ l) ↔ x ∈ A.blocks m := by
    intro x
    rw [View.blocks, hfree, List.append_assoc, List.singleton_append]
  have hnodup := h.layout.ring.nodup
  rw [View.blocks, hfree, ← List.cons_append, List.nodup_append] at hnodup
  refine .note ⟨?_, ?_, fun x hx => h.layout.sized x ((hblocks x).mp hx), fun x hx => h.layout.spans x ((hblocks x).mp hx),
    fun x hx => ?_, fun x hx => ?_, fun x hx => h.layout.count x ((hblocks x).mp hx), h.layout.blockSize⟩
    ⟨fun x hx => h.stored.other x ?_, h.stored.front⟩ ⟨h.cached.localTail, ?_⟩ ?_ h.history.empties h.history.peeks
    fun slot hslot => ?_
  · have hring := h.layout.ring
    rw [View.blocks, hfree] at hring
    rw [View.blocks, List.append_assoc, List.singleton_append]
    exact hring
  · exact List.getLastD_concat.symm
  · rcases List.mem_append.mp hx with hx | hx
    · exact h.layout.nonempty x hx
    · obtain rfl := List.mem_singleton.mp hx
      rw [hc]
      exact List.cons_ne_nil _ _
  · refine Or.inr ((h.layout.empty x ?_).resolve_left ?_)
    · rw [hfree]
      exact List.mem_cons_of_mem _ hx
    · rintro ⟨⟩
      exact (List.nodup_cons.mp hnodup.2.1).1 hx
  · rw [hfree, ← List.singleton_append, ← List.append_assoc]
    exact hx
  · have hspans := h.layout.spans b hmem
    rw [hc] at hspans
    refine ⟨1, by rw [hc]; exact le_rfl, ?_⟩
    show Spans (m.blocks b).size (m.blocks b).localFront (m.blocks b).tail 1
    rw [hlf]
    exact hspans
  · obtain ⟨gone, hcons, henq⟩ := h.history.fifo
    refine ⟨gone, hcons, ?_⟩
    show m.enqueued ++ [v] = gone ++ (m.frontBlock :: (A.rest ++ [b])).flatMap A.contents
    rw [henq, ← List.cons_append, List.flatMap_append, List.flatMap_singleton, hc, List.append_assoc]
  · have hhead := h.history.peeked slot hslot
    by_cases hF : A.contents m.frontBlock = []
    · rw [View.headSlot, if_pos hF] at hhead
      show View.headSlot { A with rest := A.rest ++ [b], free := l } m = some slot
      rw [View.headSlot, if_pos hF, List.head?_append]
      cases hr : A.rest with
      | nil =>
          rw [hr] at hhead
          exact absurd hhead (by rintro ⟨⟩)
      | cons x l' =>
          rw [hr] at hhead
          exact hhead
    · rw [View.headSlot, if_neg hF] at hhead
      show View.headSlot { A with rest := A.rest ++ [b], free := l } m = some slot
      rw [View.headSlot, if_neg hF]
      exact hhead

/-! ### A new block -/

/-- Blocks outside the ring do not matter. -/
theorem outside (h : Shared cfg m A taken none) (hfront : m'.frontBlock = m.frontBlock)
    (htail : m'.tailBlock = m.tailBlock) (hblocks : ∀ x ∈ A.blocks m, m'.blocks x = m.blocks x)
    (hcount : m.blockCount ≤ m'.blockCount)
    (hsize : ∃ k, 1 ≤ k ∧ k ≤ cfg.blockSizeLog2 ∧ m'.blockSize = 2 ^ k) (henq : m'.enqueued = m.enqueued)
    (hcons : m'.consumed = m.consumed) (hout : m'.outcomes = m.outcomes) (hempty : m'.wasEmpty = m.wasEmpty) :
    Shared cfg m' A taken none := by
  have hF := hblocks _ (Layout.front_mem A m)
  have hT := hblocks _ h.layout.tail_mem_blocks
  refine ⟨h.layout.congr hfront htail (fun x hx => by rw [hblocks x hx]) hcount hsize,
    h.stored.congr hfront (fun x hx => by rw [hblocks x hx]) (fun x hx => by rw [hblocks x hx])
      (fun x hx => by rw [hblocks x hx]),
    h.cached.congr hfront htail ⟨by rw [hF], by rw [hF], by rw [hF]⟩ ⟨by rw [hT], by rw [hT], by rw [hT]⟩,
    h.history.congr hfront henq hcons hout (fun hw => hempty.trans hw) (fun x hx => by rw [hblocks x hx])⟩

theorem grow_blockSize (h : ∃ k, 1 ≤ k ∧ k ≤ cfg.blockSizeLog2 ∧ m.blockSize = 2 ^ k) :
    ∃ k, 1 ≤ k ∧ k ≤ cfg.blockSizeLog2 ∧ (m.grow cfg).blockSize = 2 ^ k := by
  obtain ⟨k, hk, hle, hsize⟩ := h
  simp only [Memory.grow, hsize, Cfg.blockSize]
  by_cases hlt : (2 : ℕ) ^ k < 2 ^ cfg.blockSizeLog2
  · have hk' : k < cfg.blockSizeLog2 := (Nat.pow_lt_pow_iff_right (by decide)).mp hlt
    have hdouble : (2 : ℕ) ^ k * 2 ≤ 2 ^ cfg.blockSizeLog2 := by
      rw [← Nat.pow_succ]
      exact Nat.pow_le_pow_right (by decide) hk'
    rw [if_pos hlt, if_neg (Nat.not_lt_of_le hdouble)]
    exact ⟨k + 1, Nat.le_succ_of_le hk, hk', (Nat.pow_succ ..).symm⟩
  · rw [if_neg hlt]
    exact ⟨k, hk, hle, rfl⟩

theorem grow (h : Shared cfg m A taken none) : Shared cfg (m.grow cfg) A taken none :=
  h.outside rfl rfl (fun _ _ => rfl) le_rfl (grow_blockSize h.layout.blockSize) rfl rfl rfl rfl

/-- A block whose size is a power of two that fits the word. -/
theorem makeBlock_sized {k size : ℕ} (hk : 1 ≤ k) (hle : k ≤ cfg.blockSizeLog2) (hsize : size = 2 ^ k) :
    (makeBlock cfg size : Block V).Sized := by
  have hlt : 2 ^ k < 2 ^ cfg.w :=
    Nat.pow_lt_pow_right (by decide) (Nat.lt_of_le_of_lt hle cfg.blockSizeLog2_lt)
  refine ⟨k, hk, hsize, ?_⟩
  show Word.sub cfg.w size 1 = 2 ^ k - 1
  rw [hsize, Word.sub_of_le Nat.one_le_two_pow hlt]

theorem addBlock (h : Shared cfg m A taken none) (v : V) :
    Shared cfg (m.addBlock cfg v) A taken none ∧ NewBlock (m.addBlock cfg v) A m.blockCount v := by
  have hout : m.blockCount ∉ A.blocks m := fun hmem => Nat.lt_irrefl _ (h.layout.count _ hmem)
  have hblocks : ∀ x ∈ A.blocks m, (m.addBlock cfg v).blocks x = m.blocks x := by
    intro x hx
    refine Function.update_of_ne ?_ _ _
    rintro rfl
    exact hout hx
  obtain ⟨k, hk, hle, hsize⟩ := h.layout.blockSize
  have hsized : (makeBlock cfg m.blockSize : Block V).Sized := makeBlock_sized hk hle hsize
  have hpos : 0 < m.blockSize := by
    rw [hsize]
    exact Nat.two_pow_pos k
  have htwo : 2 ≤ m.blockSize := hsized.two_le
  have hnew : (m.addBlock cfg v).blocks m.blockCount =
      { (makeBlock cfg m.blockSize : Block V) with
        data := Function.update (fun _ => none) 0 (some v), tail := 1, localTail := 1 } := by
    refine (Function.update_self ..).trans ?_
    rw [Block.construct, if_pos (show 0 < (makeBlock cfg m.blockSize : Block V).size from hpos)]
    rfl
  refine ⟨h.outside rfl rfl hblocks (Nat.le_succ _) h.layout.blockSize rfl rfl rfl rfl, hout, Nat.lt_succ_self _, ?_,
    ?_, ?_, ?_⟩
  · rw [hnew]
    exact hsized
  · rw [hnew]
    exact ⟨hpos, htwo, (Nat.mod_eq_of_lt htwo).symm⟩
  · rw [hnew]
    intro i x hx
    obtain ⟨hi, rfl⟩ := List.getElem?_eq_some_iff.mp hx
    obtain rfl : i = 0 := Nat.lt_one_iff.mp hi
    show Function.update (fun _ => none) 0 (some v) ((0 + 0) % m.blockSize) = some v
    rw [Nat.add_zero, Nat.zero_mod, Function.update_self]
  · rw [hnew]
    rfl

/-- What the blocks hold with a new one linked in. -/
def linked (A : View V) (b : ℕ) (v : V) : View V :=
  { A with free := b :: A.free, contents := Function.update A.contents b [v] }

theorem linked_self (A : View V) (b : ℕ) (v : V) : (linked A b v).contents b = [v] := Function.update_self ..

theorem linked_of_ne {b' : ℕ} (hb : b' ≠ b) : (linked A b v).contents b' = A.contents b' :=
  Function.update_of_ne hb ..

/-- The new block is linked in after the tail block. -/
theorem storeNext (h : Shared cfg m A taken none) (hnew : NewBlock m A b v)
    (hnext : (m.blocks b).next = (m.blocks m.tailBlock).next) :
    Shared cfg (m.updateBlock m.tailBlock fun block => { block with next := some b }) (linked A b v) taken
      (some b) := by
  have hfield : ∀ {β : Type} (g : Block V → β), (∀ b : Block V, ∀ i, g { b with next := i } = g b) →
      ∀ b', g ((m.updateBlock m.tailBlock fun block => { block with next := some b }).blocks b') = g (m.blocks b') :=
    fun g hg b' => updateBlock_field g (hg _ _) b'
  have hne : ∀ {x}, x ∈ A.blocks m → x ≠ b := by
    rintro x hx rfl
    exact hnew.notMem hx
  have hcontents : ∀ {x}, x ∈ A.blocks m → (linked A b v).contents x = A.contents x :=
    fun hx => linked_of_ne (hne hx)
  have hblocks : ∀ x, x ∈ m.frontBlock :: (A.rest ++ b :: A.free) ↔ x = b ∨ x ∈ A.blocks m := by
    intro x
    simp only [View.blocks, List.mem_cons, List.mem_append]
    tauto
  have hbT : b ≠ m.tailBlock := (hne h.layout.tail_mem_blocks).symm
  refine ⟨⟨?_, h.layout.tailBlock, fun x hx => ?_, fun x hx => ?_, fun x hx => ?_, fun x hx => ?_, fun x hx => ?_,
    h.layout.blockSize⟩, ⟨fun x hx => ?_, ?_⟩, ?_, ?_⟩
  · -- round the ring so that the tail block is the last, splice, and round it back
    obtain ⟨l, hl⟩ := h.layout.used_eq
    have hring := h.layout.ring
    rw [View.blocks, ← List.cons_append, hl] at hring
    have hrot := IsRing.rotate (show IsRing _ (l ++ [m.tailBlock] ++ A.free) from hring)
    rw [← List.append_assoc] at hrot
    have hnot : b ∉ A.free ++ l ++ [m.tailBlock] := by
      intro hmem
      refine hnew.notMem ?_
      rw [View.blocks, ← List.cons_append, hl]
      simp only [List.mem_append] at hmem ⊢
      tauto
    have hnodup := hrot.nodup
    have hsplice : IsRing
        (fun x => ((m.updateBlock m.tailBlock fun block => { block with next := some b }).blocks x).next)
        (A.free ++ l ++ [m.tailBlock] ++ [b]) := hrot.splice hnot ?_ ?_ ?_
    · rw [List.append_assoc, List.append_assoc] at hsplice
      have hback := IsRing.rotate (show IsRing _ (A.free ++ (l ++ ([m.tailBlock] ++ [b]))) from hsplice)
      rw [View.blocks]
      rw [← List.append_assoc, ← hl] at hback
      simpa [linked, List.append_assoc] using hback
    · rw [updateBlock_self]
    · rw [updateBlock_of_ne hbT]
      exact hnext
    · intro z hz
      rw [updateBlock_of_ne]
      rintro rfl
      exact (List.nodup_append.mp hnodup).2.2 _ hz _ (List.mem_singleton.mpr rfl) rfl
  · rw [Block.Sized, hfield Block.size (fun _ _ => rfl), hfield Block.sizeMask (fun _ _ => rfl)]
    rcases (hblocks x).mp hx with rfl | hx
    · exact hnew.sized
    · exact h.layout.sized x hx
  · rw [hfield Block.size (fun _ _ => rfl), hfield Block.front (fun _ _ => rfl), hfield Block.tail (fun _ _ => rfl)]
    rcases (hblocks x).mp hx with rfl | hx
    · rw [linked_self]
      exact hnew.spans
    · rw [hcontents hx]
      exact h.layout.spans x hx
  · rw [hcontents (Layout.rest_mem m hx)]
    exact h.layout.nonempty x hx
  · rcases List.mem_cons.mp hx with rfl | hx
    · exact Or.inl rfl
    · rw [hcontents (Layout.free_mem m hx)]
      exact Or.inr ((h.layout.empty x hx).resolve_left (by rintro ⟨⟩))
  · rcases (hblocks x).mp hx with rfl | hx
    · exact hnew.lt
    · exact h.layout.count x hx
  · rw [hfield Block.size (fun _ _ => rfl), hfield Block.data (fun _ _ => rfl), hfield Block.front (fun _ _ => rfl)]
    rcases (hblocks x).mp (List.mem_cons_of_mem _ hx) with rfl | hmem
    · rw [linked_self]
      exact hnew.filled
    · rw [hcontents hmem]
      refine h.stored.other x ?_
      rcases List.mem_append.mp hx with hx | hx
      · exact List.mem_append_left _ hx
      · exact List.mem_append_right _ ((List.mem_cons.mp hx).resolve_left (hne hmem))
  · rw [updateBlock_frontBlock, hfield Block.size (fun _ _ => rfl), hfield Block.data (fun _ _ => rfl),
      hfield Block.front (fun _ _ => rfl), hcontents (Layout.front_mem A m)]
    exact h.stored.front
  · refine ⟨?_, ?_⟩
    · rw [updateBlock_frontBlock, hfield Block.size (fun _ _ => rfl), hfield Block.front (fun _ _ => rfl),
        hfield Block.localTail (fun _ _ => rfl), hcontents (Layout.front_mem A m)]
      exact h.cached.localTail
    · rw [updateBlock_tailBlock, hfield Block.size (fun _ _ => rfl), hfield Block.localFront (fun _ _ => rfl),
        hfield Block.tail (fun _ _ => rfl), hcontents h.layout.tail_mem_blocks]
      exact h.cached.localFront
  · refine history_of_used h.history rfl rfl rfl rfl rfl rfl (fun x hx => hcontents ?_) fun x _ =>
      hfield Block.front (fun _ _ => rfl) x
    rw [View.blocks, ← List.cons_append]
    exact List.mem_append_left _ hx

end Shared

/-! ## The steps -/

theorem NewBlock.congr (h : NewBlock m A b v) (hblock : ∃ n, m'.blocks b = { m.blocks b with next := n })
    (hblocks : A.blocks m' = A.blocks m) (hcount : m'.blockCount = m.blockCount) : NewBlock m' A b v := by
  obtain ⟨n, hn⟩ := hblock
  obtain ⟨hmem, hlt, hsized, hspans, hfilled, hlf⟩ := h
  refine ⟨by rwa [hblocks], by rwa [hcount], ?_, ?_, ?_, ?_⟩
  · rw [hn]
    exact hsized
  · rw [hn]
    exact hspans
  · rw [hn]
    exact hfilled
  · rw [hn]
    exact hlf

theorem ProducerPc.At.note {pc : ProducerPc V} (h : pc.At m A) : pc.At m.note A := by
  cases pc with
  | loadNewNext v b newBlock => exact ⟨h.1, h.2.congr ⟨_, rfl⟩ rfl rfl⟩
  | storeNext v b newBlock => exact ⟨h.1, h.2.1.congr ⟨_, rfl⟩ rfl rfl, h.2.2⟩
  | idle | loadTailBlock | loadTail | loadFront | construct | storeTail | loadNext | loadFrontBlock | loadNextBlock
  | loadNextTail | loadNextFront | constructNext | storeNextTail | makeBlock | storeTailBlock | assertFailed => exact h

namespace Inv

variable {s : State V} {pc : ProducerPc V}

theorem of_producer (h : Inv cfg s A) (hshared : Shared cfg m'.note A' s.consumer.taken pc.pending)
    (hat : pc.At m' A') (hby : ByProducer s.memory m' A A') :
    Inv cfg ⟨m'.note, pc, s.consumer⟩ A' ∧ ByProducer s.memory m' A A' :=
  ⟨⟨hshared, hby.note.at_ h.consumer, hat.note⟩, hby⟩

/-- The producer has read something. -/
theorem of_producer_read (h : Inv cfg s A) (hp : s.producer.pending = none) (hpc : pc.pending = none)
    (hat : pc.At s.memory A) :
    Inv cfg ⟨s.memory.note, pc, s.consumer⟩ A ∧ ByProducer s.memory s.memory A A := by
  have hshared := h.shared
  rw [hp] at hshared
  refine h.of_producer (by rw [hpc]; exact hshared.noted) hat ?_
  exact .of_fields rfl rfl id (fun _ _ => ⟨rfl, rfl, rfl⟩) ⟨[], (List.append_nil _).symm⟩ fun _ _ => rfl

theorem contents_of_taken {cpc : ConsumerPc V} (h : cpc.At m A) (ht : cpc.taken = true) :
    A.contents m.frontBlock ≠ [] := by
  cases cpc with
  | storeFront op b front v =>
      obtain ⟨rfl, -, -, -, x, -, hx⟩ := h
      intro hc
      rw [hc] at hx
      exact absurd hx nofun
  | idle | loadFrontBlock | loadFront | loadTailBlock | loadTail | reloadTail | loadNext | loadNextFront | loadNextTail
  | storeFrontBlock | take | assertFailed => exact absurd ht nofun

/-- An update of one block that the consumer sees nothing of. -/
theorem byProducer_update {f : Block V → Block V} (m : Memory V) (A : View V) (b : ℕ)
    (hf : ∀ x : Block V, (f x).size = x.size ∧ (f x).front = x.front ∧ (f x).localTail = x.localTail) :
    ByProducer m (m.updateBlock b f) A A :=
  .of_fields rfl rfl id (fun x _ => ⟨updateBlock_field Block.size (hf _).1 x, updateBlock_field Block.front (hf _).2.1 x,
    updateBlock_field Block.localTail (hf _).2.2 x⟩) ⟨[], (List.append_nil _).symm⟩ fun _ _ => rfl

theorem construct_fields (i : ℕ) (v : V) (x : Block V) : (x.construct i v).size = x.size ∧
    (x.construct i v).front = x.front ∧ (x.construct i v).localTail = x.localTail ∧
    (x.construct i v).tail = x.tail ∧ (x.construct i v).localFront = x.localFront := by
  unfold Block.construct
  split
  · exact ⟨rfl, rfl, rfl, rfl, rfl⟩
  · exact ⟨rfl, rfl, rfl, rfl, rfl⟩

/-- **Producer.** The ring keeps its blocks, and the blocks in use get one more at most. -/
theorem produce (h : Inv cfg s A) (hs : produce cfg s.memory s.producer = some (m', pc)) :
    ∃ A', (Inv cfg ⟨m'.note, pc, s.consumer⟩ A' ∧ ByProducer s.memory m' A A') ∧
      (A'.rest = A.rest ∨ ∃ v b, s.producer = .storeTailBlock v b ∧ A'.rest = A.rest ++ [b]) ∧
      (A.rest ++ A.free).length ≤ (A'.rest ++ A'.free).length := by
  obtain ⟨m, ppc, cpc⟩ := s
  have hat : ppc.At m A := h.producer
  have hshared : Shared cfg m A cpc.taken ppc.pending := h.shared
  have htaken : cpc.taken = true → A.contents m.frontBlock ≠ [] := contents_of_taken h.consumer
  replace hs : ReaderWriterQueue.produce cfg m ppc = some (m', pc) := hs
  have hT := hshared.layout.tail_mem_blocks
  have hspans := hshared.layout.spans _ hT
  have hsized := hshared.layout.sized _ hT
  cases ppc with
  | idle => exact absurd hs (by rintro ⟨⟩)
  | loadTailBlock mode v =>
      cases hs
      exact ⟨A, h.of_producer_read rfl rfl rfl, Or.inl rfl, le_rfl⟩
  | loadTail mode v b =>
      obtain rfl := hat
      simp only [ReaderWriterQueue.produce, hsized.succ_eq] at hs
      by_cases hroom : ((m.blocks m.tailBlock).tail + 1) % (m.blocks m.tailBlock).size ≠ (m.blocks m.tailBlock).localFront
      · rw [if_pos hroom] at hs
        obtain ⟨n, hn, hlocal⟩ := hshared.cached.localFront
        have hlt := hlocal.lt
        have hne := mt hlocal.succ_tail_eq_iff.mpr hroom
        have hone : n + 1 < (m.blocks m.tailBlock).size := by omega
        cases hs
        exact ⟨A, h.of_producer_read rfl rfl ⟨rfl, rfl, n, hn, hone, hlocal⟩, Or.inl rfl, le_rfl⟩
      · rw [if_neg hroom] at hs
        cases hs
        exact ⟨A, h.of_producer_read rfl rfl ⟨rfl, rfl⟩, Or.inl rfl, le_rfl⟩
  | loadFront mode v b tail =>
      obtain ⟨rfl, rfl⟩ := hat
      have hshared' := hshared.localFront m.tailBlock
      have hby := byProducer_update (f := fun block => { block with localFront := (m.blocks m.tailBlock).front }) m A
        m.tailBlock fun _ => ⟨rfl, rfl, rfl⟩
      simp only [ReaderWriterQueue.produce, updateBlock_self] at hs
      rw [show ({ m.blocks m.tailBlock with localFront := (m.blocks m.tailBlock).front } : Block V).succ
        (m.blocks m.tailBlock).tail = _ from hsized.succ_eq _] at hs
      by_cases hroom : ((m.blocks m.tailBlock).tail + 1) % (m.blocks m.tailBlock).size ≠ (m.blocks m.tailBlock).front
      · rw [if_pos hroom] at hs
        have hlt := hspans.lt
        have hne := mt hspans.succ_tail_eq_iff.mpr hroom
        have hone : (A.contents m.tailBlock).length + 1 < (m.blocks m.tailBlock).size := by omega
        cases hs
        refine ⟨A, h.of_producer hshared'.noted ⟨rfl, ?_, _, le_rfl, ?_, ?_⟩ hby, Or.inl rfl, le_rfl⟩
        · rw [updateBlock_self]
        · rw [updateBlock_self]
          exact hone
        · rw [updateBlock_self]
          exact hspans
      · rw [if_neg hroom] at hs
        cases hs
        exact ⟨A, h.of_producer hshared'.noted rfl hby, Or.inl rfl, le_rfl⟩
  | construct v b tail =>
      obtain ⟨rfl, rfl, n, hn, hlt, hlocal⟩ := hat
      have hfields := construct_fields (m.blocks m.tailBlock).tail v (m.blocks m.tailBlock)
      cases hs
      refine ⟨A, h.of_producer (hshared.construct hT v).noted ⟨rfl, ?_, ⟨n, hn, ?_, ?_⟩, ?_⟩
        (byProducer_update m A _ fun x => ?_), Or.inl rfl, le_rfl⟩
      · rw [updateBlock_self, hfields.2.2.2.1]
      · rw [updateBlock_self, hfields.1]
        exact hlt
      · rw [updateBlock_self, hfields.1, hfields.2.2.2.1, hfields.2.2.2.2]
        exact hlocal
      · rw [updateBlock_self, hshared.construct_eq hT]
        exact Function.update_self ..
      · obtain ⟨h₁, h₂, h₃, -⟩ := construct_fields (m.blocks m.tailBlock).tail v x
        exact ⟨h₁, h₂, h₃⟩
  | storeTail v b tail =>
      obtain ⟨rfl, rfl, hroom, hd⟩ := hat
      have hfield : ∀ {β : Type} (g : Block V → β), (∀ b : Block V, ∀ i, g { b with tail := i } = g b) →
          ∀ b', g ((m.updateBlock m.tailBlock fun block =>
            { block with tail := block.succ (m.blocks m.tailBlock).tail }).blocks b') = g (m.blocks b') :=
        fun g hg b' => updateBlock_field g (hg _ _) b'
      cases hs
      refine ⟨Shared.pushed A m.tailBlock v, h.of_producer (hshared.storeTail hroom hd htaken) trivial ?_, Or.inl rfl, le_rfl⟩
      refine ⟨rfl, rfl, id, fun x _ => hfield Block.size (fun _ _ => rfl) x,
        fun x _ => hfield Block.front (fun _ _ => rfl) x, fun x _ => hfield Block.localTail (fun _ _ => rfl) x,
        ⟨[], (List.append_nil _).symm⟩, fun x _ => ?_, fun hr => ?_⟩
      · by_cases hx : x = m.tailBlock
        · subst hx
          exact ⟨[v], Shared.pushed_self ..⟩
        · exact ⟨[], (Shared.pushed_of_ne hx).trans (List.append_nil _).symm⟩
      · exact Shared.pushed_of_ne fun heq => hr (hshared.layout.tail_eq_front_iff.mp heq.symm)
  | loadNext mode v b =>
      cases hs
      exact ⟨A, h.of_producer_read rfl rfl ⟨hat, rfl⟩, Or.inl rfl, le_rfl⟩
  | loadFrontBlock mode v b next =>
      obtain ⟨rfl, rfl⟩ := hat
      have hnext := hshared.layout.next_tail
      simp only [ReaderWriterQueue.produce] at hs
      by_cases hfree : (m.blocks m.tailBlock).next ≠ some m.frontBlock
      · rw [if_pos hfree] at hs
        cases hs
        refine ⟨A, h.of_producer_read rfl rfl ⟨rfl, fun hf => hfree ?_⟩, Or.inl rfl, le_rfl⟩
        rw [hnext, hf]
        rfl
      · rw [if_neg hfree] at hs
        cases mode with
        | canAlloc =>
            cases hs
            exact ⟨A, h.of_producer_read rfl rfl rfl, Or.inl rfl, le_rfl⟩
        | cannotAlloc =>
            cases hs
            exact ⟨A, h.of_producer_read rfl rfl trivial, Or.inl rfl, le_rfl⟩
  | loadNextBlock v b =>
      obtain ⟨rfl, hfree⟩ := hat
      obtain ⟨x, l, hf⟩ := List.exists_cons_of_ne_nil hfree
      have hnext := hshared.layout.next_tail
      rw [hf, List.cons_append, List.head?_cons] at hnext
      simp only [ReaderWriterQueue.produce, hnext] at hs
      cases hs
      exact ⟨A, h.of_producer_read rfl rfl (by rw [ProducerPc.At, hf]; rfl), Or.inl rfl, le_rfl⟩
  | loadNextTail v b =>
      cases hs
      exact ⟨A, h.of_producer_read rfl rfl ⟨hat, rfl⟩, Or.inl rfl, le_rfl⟩
  | loadNextFront v b tail =>
      obtain ⟨hb, rfl⟩ := hat
      have hfree := List.mem_of_mem_head? hb
      have hempty : (m.blocks b).front = (m.blocks b).tail := by
        rw [(hshared.layout.spans b (Layout.free_mem m hfree)).eq_iff, List.length_eq_zero_iff]
        exact (hshared.layout.empty b hfree).resolve_left (by rintro ⟨⟩)
      simp only [ReaderWriterQueue.produce, if_pos hempty] at hs
      cases hs
      refine ⟨A, h.of_producer (hshared.localFront b).noted ⟨hb, ?_, ?_⟩
        (byProducer_update m A b fun _ => ⟨rfl, rfl, rfl⟩), Or.inl rfl, le_rfl⟩
      · rw [updateBlock_self]
      · rw [updateBlock_self]
  | constructNext v b tail =>
      obtain ⟨hb, rfl, hlf⟩ := hat
      have hmem := Layout.free_mem m (List.mem_of_mem_head? hb)
      have hfields := construct_fields (m.blocks b).tail v (m.blocks b)
      cases hs
      refine ⟨A, h.of_producer (hshared.construct hmem v).noted ⟨hb, ?_, ?_, ?_⟩ (byProducer_update m A b fun x => ?_),
        Or.inl rfl, le_rfl⟩
      · rw [updateBlock_self, hfields.2.2.2.1]
      · rw [updateBlock_self, hfields.2.1, hfields.2.2.2.2]
        exact hlf
      · rw [updateBlock_self, hshared.construct_eq hmem]
        exact Function.update_self ..
      · obtain ⟨h₁, h₂, h₃, -⟩ := construct_fields (m.blocks b).tail v x
        exact ⟨h₁, h₂, h₃⟩
  | storeNextTail v b tail =>
      obtain ⟨hb, rfl, hlf, hd⟩ := hat
      have hfree := List.mem_of_mem_head? hb
      have hne : ∀ x ∈ m.frontBlock :: A.rest, x ≠ b := by
        rintro x hx rfl
        have hnodup := hshared.layout.ring.nodup
        rw [View.blocks, ← List.cons_append, List.nodup_append] at hnodup
        exact hnodup.2.2 x hx x hfree rfl
      cases hs
      refine ⟨Shared.pushed A b v, h.of_producer (hshared.storeNextTail hb hd htaken).noted ⟨hb, ?_, ?_⟩ ?_, Or.inl rfl,
        le_rfl⟩
      · rw [Shared.pushed_self, (hshared.layout.empty b hfree).resolve_left (by rintro ⟨⟩), List.nil_append]
      · rw [updateBlock_self]
        exact hlf
      · refine .of_fields rfl rfl id (fun x hx => ?_) ⟨[], (List.append_nil _).symm⟩ fun x hx =>
          Shared.pushed_of_ne (hne x hx)
        rw [updateBlock_of_ne (hne x hx)]
        exact ⟨rfl, rfl, rfl⟩
  | makeBlock v b =>
      obtain ⟨hshared', hnew⟩ := hshared.grow.addBlock v
      cases hs
      refine ⟨A, h.of_producer hshared'.noted ⟨hat, hnew⟩ ?_, Or.inl rfl, le_rfl⟩
      refine .of_fields rfl rfl id (fun x hx => ?_) ⟨[], (List.append_nil _).symm⟩ fun _ _ => rfl
      have hx' : x ∈ A.blocks m := by
        rw [View.blocks, ← List.cons_append]
        exact List.mem_append_left _ hx
      have hne : x ≠ m.blockCount := Nat.ne_of_lt (hshared.layout.count x hx')
      have hsame : ((m.grow cfg).addBlock cfg v).blocks x = m.blocks x := Function.update_of_ne hne ..
      rw [hsame]
      exact ⟨rfl, rfl, rfl⟩
  | loadNewNext v b newBlock =>
      obtain ⟨rfl, hnew⟩ := hat
      have hne : ∀ x ∈ A.blocks m, x ≠ newBlock := by
        rintro x hx rfl
        exact hnew.notMem hx
      have hshared' : Shared cfg (m.updateBlock newBlock fun block =>
          { block with next := (m.blocks m.tailBlock).next }) A cpc.taken none :=
        hshared.outside rfl rfl (fun x hx => updateBlock_of_ne (hne x hx) _) le_rfl hshared.layout.blockSize rfl rfl rfl
          rfl
      cases hs
      refine ⟨A, h.of_producer hshared'.noted ⟨rfl, hnew.congr ⟨_, updateBlock_self ..⟩ rfl rfl, ?_⟩
        (byProducer_update m A newBlock fun _ => ⟨rfl, rfl, rfl⟩), Or.inl rfl, le_rfl⟩
      rw [updateBlock_self, updateBlock_of_ne (hne _ hT)]
  | storeNext v b newBlock =>
      obtain ⟨rfl, hnew, hnext⟩ := hat
      have hne : ∀ x ∈ m.frontBlock :: A.rest, x ≠ newBlock := by
        rintro x hx rfl
        refine hnew.notMem ?_
        rw [View.blocks, ← List.cons_append]
        exact List.mem_append_left _ hx
      have hfield : ∀ {β : Type} (g : Block V → β), (∀ b : Block V, ∀ i, g { b with next := i } = g b) →
          ∀ b', g ((m.updateBlock m.tailBlock fun block => { block with next := some newBlock }).blocks b') =
            g (m.blocks b') := fun g hg b' => updateBlock_field g (hg _ _) b'
      cases hs
      refine ⟨Shared.linked A newBlock v, h.of_producer (hshared.storeNext hnew hnext).noted
        ⟨rfl, Shared.linked_self .., ?_⟩ ?_, Or.inl rfl, ?_⟩
      · rw [hfield Block.localFront (fun _ _ => rfl), hfield Block.front (fun _ _ => rfl)]
        exact hnew.localFront
      · exact .of_fields rfl rfl id (fun x _ => ⟨hfield Block.size (fun _ _ => rfl) x,
          hfield Block.front (fun _ _ => rfl) x, hfield Block.localTail (fun _ _ => rfl) x⟩)
          ⟨[], (List.append_nil _).symm⟩ fun x hx => Shared.linked_of_ne (hne x hx)
      · show (A.rest ++ A.free).length ≤ (A.rest ++ newBlock :: A.free).length
        simp
  | storeTailBlock v b =>
      obtain ⟨hb, hc, hlf⟩ := hat
      obtain ⟨l, hfree⟩ : ∃ l, A.free = b :: l := by
        cases hf : A.free with
        | nil =>
            rw [hf] at hb
            exact absurd hb (by rintro ⟨⟩)
        | cons x l =>
            rw [hf] at hb
            cases hb
            exact ⟨l, rfl⟩
      cases hs
      refine ⟨{ A with rest := A.rest ++ [b], free := l }, h.of_producer (hshared.storeTailBlock hfree hc hlf) trivial ?_,
        Or.inr ⟨v, b, rfl, rfl⟩, ?_⟩
      · exact .of_fields rfl rfl id (fun _ _ => ⟨rfl, rfl, rfl⟩) ⟨[b], rfl⟩ fun _ _ => rfl
      · rw [hfree]
        simp
  | assertFailed => exact hat.elim

end Inv

end ReaderWriterQueue

end LockFreeStructures
