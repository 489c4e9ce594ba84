import LockFreeStructures.ReaderWriterQueue.Lossless

/-!
# `ReaderWriterQueue.Reserved` — a queue with room for `ReservedSize` elements does not run out of it early

Whatever lies between the front block and the tail block is full: the producer leaves a block only when it is, and
the consumer takes from the front block only. So a queue without a free block or slot holds all that the blocks
behind the front block can take, and the constructor makes one block more than these need to be.
-/

namespace LockFreeStructures

namespace ReaderWriterQueue

variable {V : Type} {cfg : Cfg} {m m' : Memory V} {s s' : State V} {A A' : View V} {b n size reservedSize : ℕ} {v : V}

/-! ## What a step leaves of full blocks -/

/-- The producer has found the tail block full and has not got another one yet. -/
def ProducerPc.leaving : ProducerPc V → Bool
  | .loadNext .. | .loadFrontBlock .. | .loadNextBlock .. | .loadNextTail .. | .loadNextFront .. | .constructNext ..
  | .storeNextTail .. | .makeBlock .. | .loadNewNext .. | .storeNext .. | .storeTailBlock .. => true
  | .idle | .loadTailBlock .. | .loadTail .. | .loadFront .. | .construct .. | .storeTail .. | .assertFailed => false

/-- All slots but the spare one are in use. -/
def Full (m : Memory V) (A : View V) (b : ℕ) : Prop := (A.contents b).length + 1 = (m.blocks b).size

/-- The blocks between the front and the tail block are full, and so is one that is being left. -/
structure Packed (s : State V) (A : View V) : Prop where
  full : ∀ b ∈ A.rest.dropLast, Full s.memory A b
  leaving : s.producer.leaving = true →
    s.memory.tailBlock = s.memory.frontBlock ∨ Full s.memory A s.memory.tailBlock

/-- No block has fewer than `size` slots, nor will one have that is made later. -/
structure Roomy (size : ℕ) (m : Memory V) : Prop where
  blockSize : size ≤ m.blockSize
  blocks : ∀ b < m.blockCount, size ≤ (m.blocks b).size

/-- A full block stays full when more is put into it. -/
theorem Full.extend (h : Full m A b) (hsize : (m'.blocks b).size = (m.blocks b).size)
    (hc : ∃ l, A'.contents b = A.contents b ++ l)
    (hspans : Spans (m'.blocks b).size (m'.blocks b).front (m'.blocks b).tail (A'.contents b).length) :
    Full m' A' b := by
  obtain ⟨l, hl⟩ := hc
  have hlt := hspans.lt
  rw [Full] at h ⊢
  rw [hl, List.length_append] at hlt ⊢
  omega

/-- The last block in use is the tail block. -/
theorem mem_dropLast_or_eq {pending : Option ℕ} (h : Layout cfg m A pending) (hb : b ∈ A.rest) :
    b ∈ A.rest.dropLast ∨ b = m.tailBlock := by
  have hne : A.rest ≠ [] := List.ne_nil_of_mem hb
  have hlast : A.rest.getLast hne = m.tailBlock := by
    rw [h.tailBlock]
    conv_rhs => rw [← List.dropLast_append_getLast hne, List.getLastD_concat]
  rw [← List.dropLast_append_getLast hne, hlast] at hb
  simpa using hb

/-- How the producer comes to leave the tail block. -/
theorem leaving_of_produce {ppc pc : ProducerPc V} (hs : produce cfg m ppc = some (m', pc))
    (hl : pc.leaving = true) : m'.tailBlock = m.tailBlock ∧
      (ppc.leaving = true ∨ ∃ mode v b tail, ppc = .loadFront mode v b tail ∧
        (m.blocks b).succ tail = (m.blocks b).front) := by
  cases ppc with
  | loadFront mode v b tail =>
      simp only [produce, updateBlock_self] at hs
      split at hs
      · cases hs
        exact absurd hl (by rintro ⟨⟩)
      · next hfull =>
        cases hs
        exact ⟨rfl, Or.inr ⟨mode, v, b, tail, rfl, not_not.mp hfull⟩⟩
  | loadTail mode v b =>
      simp only [produce] at hs
      split at hs
      · cases hs
        exact absurd hl (by rintro ⟨⟩)
      · cases hs
        exact absurd hl (by rintro ⟨⟩)
  | loadFrontBlock mode v b next =>
      simp only [produce] at hs
      split at hs
      · cases hs
        exact ⟨rfl, Or.inl rfl⟩
      · cases mode with
        | canAlloc =>
            cases hs
            exact ⟨rfl, Or.inl rfl⟩
        | cannotAlloc =>
            cases hs
            exact absurd hl (by rintro ⟨⟩)
  | loadNextBlock v b =>
      obtain ⟨next, -, hs⟩ := Option.map_eq_some_iff.mp hs
      cases hs
      exact ⟨rfl, Or.inl rfl⟩
  | loadNextFront v b tail =>
      simp only [produce] at hs
      split at hs
      · cases hs
        exact ⟨rfl, Or.inl rfl⟩
      · cases hs
        exact absurd hl (by rintro ⟨⟩)
  | idle | assertFailed => exact absurd hs (by rintro ⟨⟩)
  | loadTailBlock | construct | storeTail | storeTailBlock =>
      cases hs
      exact absurd hl (by rintro ⟨⟩)
  | loadNext | loadNextTail | constructNext | storeNextTail | makeBlock | loadNewNext | storeNext =>
      cases hs
      exact ⟨rfl, Or.inl rfl⟩

namespace Roomy

theorem updateBlock (h : Roomy size m) {f : Block V → Block V} (hf : ∀ x : Block V, (f x).size = x.size) (b : ℕ) :
    Roomy size (m.updateBlock b f) := by
  refine ⟨h.blockSize, fun x hx => ?_⟩
  rw [updateBlock_field Block.size (hf _)]
  exact h.blocks x hx

theorem grow (h : Roomy size m) (cfg : Cfg) : Roomy size (m.grow cfg) := by
  refine ⟨?_, h.blocks⟩
  have hle := h.blockSize
  simp only [Memory.grow]
  split_ifs <;> omega

theorem addBlock (h : Roomy size m) (cfg : Cfg) (v : V) : Roomy size (m.addBlock cfg v) := by
  refine ⟨h.blockSize, fun b hb => ?_⟩
  by_cases hnew : b = m.blockCount
  · rw [hnew, show (m.addBlock cfg v).blocks m.blockCount = _ from Function.update_self ..]
    show size ≤ ((makeBlock cfg m.blockSize : Block V).construct 0 v).size
    rw [(Inv.construct_fields 0 v _).1]
    exact h.blockSize
  · rw [show (m.addBlock cfg v).blocks b = m.blocks b from Function.update_of_ne hnew ..]
    exact h.blocks b (Nat.lt_of_le_of_ne (Nat.le_of_lt_succ hb) hnew)

theorem produce (h : Roomy size m) {ppc pc : ProducerPc V}
    (hs : ReaderWriterQueue.produce cfg m ppc = some (m', pc)) : Roomy size m' := by
  have hconstruct : ∀ i v (x : Block V), (x.construct i v).size = x.size := fun i v x => (Inv.construct_fields i v x).1
  cases ppc with
  | idle | assertFailed => exact absurd hs nofun
  | loadTail mode v b =>
      simp only [ReaderWriterQueue.produce] at hs
      split at hs <;> cases hs <;> exact h
  | loadFront mode v b tail =>
      simp only [ReaderWriterQueue.produce] at hs
      split at hs <;> cases hs <;> refine h.updateBlock ?_ b <;> exact fun _ => rfl
  | loadFrontBlock mode v b next =>
      simp only [ReaderWriterQueue.produce] at hs
      split at hs
      · cases hs
        exact h
      · cases mode <;> cases hs <;> exact h
  | loadNextBlock v b =>
      obtain ⟨next, -, hs⟩ := Option.map_eq_some_iff.mp hs
      cases hs
      exact h
  | loadNextFront v b tail =>
      simp only [ReaderWriterQueue.produce] at hs
      split at hs <;> cases hs <;> refine h.updateBlock ?_ b <;> exact fun _ => rfl
  | construct v b tail | constructNext v b tail =>
      cases hs
      exact h.updateBlock (hconstruct tail v) b
  | storeTail v b tail =>
      cases hs
      have h' : Roomy size (m.updateBlock b fun block => { block with tail := block.succ tail }) := by
        refine h.updateBlock ?_ b
        exact fun _ => rfl
      exact ⟨h'.blockSize, h'.blocks⟩
  | storeNextTail | loadNewNext | storeNext =>
      cases hs
      refine h.updateBlock ?_ _
      exact fun _ => rfl
  | makeBlock v b =>
      cases hs
      exact (h.grow cfg).addBlock cfg v
  | storeTailBlock v b =>
      cases hs
      exact ⟨h.blockSize, h.blocks⟩
  | loadTailBlock | loadNext | loadNextTail =>
      cases hs
      exact h

end Roomy

/-! ## The steps -/

theorem Packed.produce {pc : ProducerPc V} (h : Packed s A) (hinv : Inv cfg s A)
    (hs : ReaderWriterQueue.produce cfg s.memory s.producer = some (m', pc))
    (hinv' : Inv cfg ⟨m'.note, pc, s.consumer⟩ A') (hby : ByProducer s.memory m' A A')
    (hrest : A'.rest = A.rest ∨ ∃ v b, s.producer = .storeTailBlock v b ∧ A'.rest = A.rest ++ [b]) :
    Packed ⟨m'.note, pc, s.consumer⟩ A' := by
  have hkept : ∀ b ∈ s.memory.frontBlock :: A.rest, Full s.memory A b → Full m' A' b := by
    intro b hb hfull
    have hb' : b ∈ A'.blocks m' := by
      rw [View.blocks, hby.frontBlock]
      rcases List.mem_cons.mp hb with rfl | hb
      · exact List.mem_cons_self
      · obtain ⟨l, hl⟩ := hby.rest
        rw [hl]
        exact List.mem_cons_of_mem _ (List.mem_append_left _ (List.mem_append_left _ hb))
    exact hfull.extend (hby.size b hb) (hby.contents b hb) (hinv'.shared.layout.spans b hb')
  refine ⟨fun b hb => ?_, fun hl => ?_⟩
  · show Full m' A' b
    rcases hrest with hr | ⟨v, x, hpc, hr⟩
    · rw [hr] at hb
      have hmem := List.mem_of_mem_dropLast hb
      exact hkept b (List.mem_cons_of_mem _ hmem) (h.full b hb)
    · -- the tail block was full, or it is the front block and no other was in use
      rw [hr, List.dropLast_concat] at hb
      refine hkept b (List.mem_cons_of_mem _ hb) ?_
      rcases mem_dropLast_or_eq hinv.shared.layout hb with hmem | rfl
      · exact h.full b hmem
      · refine (h.leaving (by rw [hpc]; rfl)).resolve_left fun heq => ?_
        rw [hinv.shared.layout.tail_eq_front_iff.mp heq] at hb
        exact absurd hb (by rintro ⟨⟩)
  · obtain ⟨htail, hleft⟩ := leaving_of_produce hs hl
    have hmem := hinv.shared.layout.tail_mem
    show m'.tailBlock = m'.frontBlock ∨ Full m' A' m'.tailBlock
    rw [htail, hby.frontBlock]
    rcases hleft with hl | ⟨mode, v, b, tail, hpc, hfull⟩
    · exact (h.leaving hl).imp id (hkept _ hmem)
    · right
      obtain ⟨rfl, rfl⟩ : b = s.memory.tailBlock ∧ tail = (s.memory.blocks b).tail := by
        have hat := hinv.producer
        rw [hpc] at hat
        exact hat
      refine hkept _ hmem ?_
      have hblock := hinv.shared.layout.tail_mem_blocks
      rw [(hinv.shared.layout.sized _ hblock).succ_eq] at hfull
      exact (hinv.shared.layout.spans _ hblock).succ_tail_eq_iff.mp hfull

theorem Packed.consume {pc : ConsumerPc V} (h : Packed s A) (hinv : Inv cfg s A)
    (hby : ByConsumer s.memory m' A A')
    (hrest : A'.rest = A.rest ∧ m'.frontBlock = s.memory.frontBlock ∨ ∃ b, A.rest = b :: A'.rest) :
    Packed ⟨m'.note, s.producer, pc⟩ A' := by
  have hkept : ∀ b, b ≠ s.memory.frontBlock → Full s.memory A b → Full m' A' b := by
    intro b hb hfull
    rw [Full, hby.contents b hb, hby.size]
    exact hfull
  refine ⟨fun b hb => ?_, fun hl => ?_⟩
  · have hmem : b ∈ A.rest.dropLast := by
      rcases hrest with ⟨hr, -⟩ | ⟨x, hr⟩
      · rwa [hr] at hb
      · rw [hr, List.dropLast_cons_of_ne_nil (List.ne_nil_of_mem (List.mem_of_mem_dropLast hb))]
        exact List.mem_cons_of_mem x hb
    refine hkept b ?_ (h.full b hmem)
    rintro rfl
    exact hinv.shared.layout.front_notMem (List.mem_append_left _ (List.mem_of_mem_dropLast hmem))
  · show m'.tailBlock = m'.frontBlock ∨ Full m' A' m'.tailBlock
    rw [hby.tailBlock]
    by_cases hlast : s.memory.tailBlock = s.memory.frontBlock
    · left
      rcases hrest with ⟨-, hfront⟩ | ⟨x, hr⟩
      · rw [hfront, hlast]
      · rw [hinv.shared.layout.tail_eq_front_iff.mp hlast] at hr
        exact absurd hr nofun
    · exact Or.inr (hkept _ hlast ((h.leaving hl).resolve_left hlast))

/-- At least `n` blocks, none of fewer than `size` slots, and full ones between the front and the tail block. -/
structure Reserved (cfg : Cfg) (n size : ℕ) (s : State V) (A : View V) : Prop where
  inv : Inv cfg s A
  packed : Packed s A
  count : n ≤ (A.rest ++ A.free).length + 1
  roomy : Roomy size s.memory

/-- **Step.** -/
theorem Reserved.step {a : Act V} (h : Reserved cfg n size s A) (hs : Step cfg s a s') :
    ∃ A, Reserved cfg n size s' A := by
  have hcount := h.count
  cases hs with
  | enqueue mode v hpc =>
      exact ⟨A, h.inv.enqueue mode v hpc, ⟨h.packed.full, nofun⟩, hcount, h.roomy⟩
  | produce hprod =>
      obtain ⟨A', ⟨hinv', hby⟩, hrest, hlen⟩ := h.inv.produce hprod
      have hroomy := h.roomy.produce hprod
      exact ⟨A', hinv', h.packed.produce h.inv hprod hinv' hby hrest, by omega, hroomy.blockSize, hroomy.blocks⟩
  | noBlock hpc => exact ⟨A, h.inv.noBlock hpc, ⟨h.packed.full, nofun⟩, hcount, h.roomy.grow cfg⟩
  | dequeue op hpc => exact ⟨A, h.inv.dequeue op hpc, ⟨h.packed.full, h.packed.leaving⟩, hcount,
      h.roomy.blockSize, h.roomy.blocks⟩
  | consume hcons =>
      obtain ⟨A', ⟨hinv', hby⟩, hrest, hlen⟩ := h.inv.consume hcons
      refine ⟨A', hinv', h.packed.consume h.inv hby hrest, by omega, ?_, fun b hb => ?_⟩
      · exact (ConsumerFrame.consume hcons).blockSize.symm ▸ h.roomy.blockSize
      · exact (hby.size b).symm ▸ h.roomy.blocks b (hby.blockCount ▸ hb)

/-! ## How much a queue without room holds -/

/-- How many elements the queue holds. -/
def Memory.held (m : Memory V) : ℕ := m.enqueued.length - m.consumed.length

theorem History.held_eq (h : History m A) : m.held = ((m.frontBlock :: A.rest).flatMap A.contents).length := by
  obtain ⟨gone, hcons, henq⟩ := h.fifo
  rw [Memory.held, hcons, henq, List.length_append, List.length_map, Nat.add_sub_cancel_left]

theorem length_flatMap_ge {l : List ℕ} {f : ℕ → List V} {c : ℕ} (h : ∀ b ∈ l, c ≤ (f b).length) :
    l.length * c ≤ (l.flatMap f).length := by
  induction l with
  | nil => simp
  | cons x l ih =>
      have hx := h x List.mem_cons_self
      have hl := ih fun b hb => h b (List.mem_cons_of_mem x hb)
      rw [List.length_cons, List.flatMap_cons, List.length_append, Nat.succ_mul]
      omega

/-- The blocks of the constructor make up for a slot in each and for the front block. -/
theorem reserved_le (hpos : 1 ≤ reservedSize) (hlt : reservedSize < 2 ^ (cfg.w - 1)) : reservedSize ≤
    max 1 ((initialBlocks cfg reservedSize).1 - 1) * ((initialBlocks cfg reservedSize).2 - 1) := by
  have hsizeof : 0 < cfg.sizeofSize := by
    have := cfg.w_pos
    unfold Cfg.w at this
    omega
  obtain ⟨m, hceil, hm, hle⟩ := ceilToPow2_of_le hsizeof (Nat.succ_pos reservedSize) hlt
  have htwo := cfg.two_le_blockSize
  unfold initialBlocks
  by_cases hbig : cfg.blockSize < ceilToPow2 cfg.sizeofSize (reservedSize + 1)
  · simp only [if_pos hbig]
    obtain ⟨c, hc⟩ := Nat.exists_eq_add_of_le' (show 1 ≤ cfg.blockSize by omega)
    have hcpos : 0 < c := by omega
    have hcount : (reservedSize + cfg.blockSize * 2 - 3) / (cfg.blockSize - 1) = (reservedSize - 1) / c + 2 := by
      rw [hc, Nat.add_sub_cancel, ← Nat.add_mul_div_right _ _ hcpos]
      congr 1
      omega
    have hdiv := Nat.div_add_mod (reservedSize - 1) c
    have hmod := Nat.mod_lt (reservedSize - 1) hcpos
    have hmul : ((reservedSize - 1) / c + 1) * c ≤ max 1 ((reservedSize - 1) / c + 2 - 1) * c :=
      Nat.mul_le_mul_right c (by omega)
    rw [Nat.succ_mul, Nat.mul_comm] at hmul
    rw [hcount, hc, Nat.add_sub_cancel]
    omega
  · simp only [if_neg hbig, Nat.sub_self, Nat.max_eq_left (Nat.zero_le 1), Nat.one_mul]
    rw [hm]
    omega

/-- **Without room it is full.** -/
theorem Reserved.le_held (h : Reserved cfg n size s A) (hfree : A.free = [])
    (hfull : Full s.memory A s.memory.tailBlock) : max 1 (n - 1) * (size - 1) ≤ s.memory.held := by
  have hlayout := h.inv.shared.layout
  have hcount := h.count
  rw [hfree, List.append_nil] at hcount
  have hsize : ∀ b ∈ s.memory.frontBlock :: A.rest, Full s.memory A b → size - 1 ≤ (A.contents b).length := by
    intro b hb hb'
    have hle := h.roomy.blocks b (hlayout.count b (by rwa [View.blocks, hfree, List.append_nil]))
    rw [Full] at hb'
    omega
  rw [h.inv.shared.history.held_eq]
  by_cases hr : A.rest = []
  · have hn : n ≤ 1 := by
      rw [hr] at hcount
      exact hcount
    rw [hlayout.tail_eq_front_iff.mpr hr] at hfull
    have := hsize _ List.mem_cons_self hfull
    rw [hr, List.flatMap_singleton, show max 1 (n - 1) = 1 by omega, Nat.one_mul]
    exact this
  · have hrest : A.rest.length * (size - 1) ≤ (A.rest.flatMap A.contents).length := by
      refine length_flatMap_ge fun b hb => hsize b (List.mem_cons_of_mem _ hb) ?_
      rcases mem_dropLast_or_eq hlayout hb with hmem | rfl
      · exact h.packed.full b hmem
      · exact hfull
    have hpos := List.length_pos_iff.mpr hr
    have hmul : max 1 (n - 1) * (size - 1) ≤ A.rest.length * (size - 1) := Nat.mul_le_mul_right _ (by omega)
    rw [List.flatMap_cons, List.length_append]
    omega

/-! ## `TryEnqueue` -/

/-- The producer goes on by itself until its call returns. -/
def finishCall (cfg : Cfg) : ℕ → Memory V → ProducerPc V → Option (Memory V)
  | _, m, .idle => some m
  | 0, _, _ => none
  | fuel + 1, m, pc => do
      let (m, pc) ← produce cfg m pc
      finishCall cfg fuel m.note pc

/-- The value has been enqueued and is in a slot, and no block has been made. -/
structure Placed (v : V) (m m' : Memory V) : Prop where
  enqueued : m'.enqueued = m.enqueued ++ [v]
  blockCount : m'.blockCount = m.blockCount
  stored : ∃ b i, i < (m'.blocks b).size ∧ (m'.blocks b).data i = some v

/-- The producer's call comes to an end with the value in its place. -/
def Places (cfg : Cfg) (v : V) (m : Memory V) (pc : ProducerPc V) : Prop :=
  ∃ fuel m', finishCall cfg fuel m pc = some m' ∧ Placed v m m'

/-- `TryEnqueue` succeeds without allocating. -/
def TryEnqueueSucceeds (cfg : Cfg) (v : V) (m : Memory V) : Prop := Places cfg v m (.loadTailBlock .cannotAlloc v)

theorem finishCall_succ {pc pc' : ProducerPc V} (hs : produce cfg m pc = some (m', pc')) (fuel : ℕ) :
    finishCall cfg (fuel + 1) m pc = finishCall cfg fuel m'.note pc' := by
  cases pc with
  | idle => exact absurd hs nofun
  | loadTailBlock | loadTail | loadFront | construct | storeTail | loadNext | loadFrontBlock | loadNextBlock
  | loadNextTail | loadNextFront | constructNext | storeNextTail | makeBlock | loadNewNext | storeNext | storeTailBlock
  | assertFailed => simp only [finishCall, hs, Option.bind_eq_bind, Option.bind_some]

section Places

variable {ppc pc : ProducerPc V} {cpc : ConsumerPc V}

/-- One access on the way. -/
theorem Inv.places_of_step (h : Inv cfg ⟨m, ppc, cpc⟩ A) (hs : ReaderWriterQueue.produce cfg m ppc = some (m', pc))
    (henq : m'.enqueued = m.enqueued) (hcount : m'.blockCount = m.blockCount)
    (hnext : ∀ {A'}, Inv cfg ⟨m'.note, pc, cpc⟩ A' → Places cfg v m'.note pc) : Places cfg v m ppc := by
  obtain ⟨A', ⟨h', -⟩, -⟩ := h.produce hs
  obtain ⟨fuel, m'', hrun, henq', hcount', hstored⟩ := hnext h'
  exact ⟨fuel + 1, m'', (finishCall_succ hs fuel).trans hrun, henq'.trans (congrArg (· ++ [v]) henq),
    hcount'.trans hcount, hstored⟩

/-- The last access. -/
theorem places_of_last (hs : produce cfg m ppc = some (m', .idle)) (hplaced : Placed v m m'.note) :
    Places cfg v m ppc := ⟨1, m'.note, finishCall_succ hs 0, hplaced⟩

variable {tail : ℕ}

theorem Inv.places_storeTail (h : Inv cfg ⟨m, .storeTail v b tail, cpc⟩ A) : Places cfg v m (.storeTail v b tail) := by
  have hat : (ProducerPc.storeTail v b tail).At m A := h.producer
  obtain ⟨rfl, rfl, -, hd⟩ := hat
  have hspans := h.shared.layout.spans _ h.shared.layout.tail_mem_blocks
  have hself : (m.updateBlock m.tailBlock fun block =>
      { block with tail := block.succ (m.blocks m.tailBlock).tail }).blocks m.tailBlock = _ := updateBlock_self ..
  refine places_of_last rfl ⟨rfl, rfl, m.tailBlock, (m.blocks m.tailBlock).tail, ?_, ?_⟩
  · exact Nat.lt_of_lt_of_eq hspans.tail_lt (congrArg Block.size hself).symm
  · exact (congrArg (fun x : Block V => x.data (m.blocks m.tailBlock).tail) hself).trans hd

theorem Inv.places_construct (h : Inv cfg ⟨m, .construct v b tail, cpc⟩ A) : Places cfg v m (.construct v b tail) :=
  h.places_of_step rfl rfl rfl fun h' => h'.places_storeTail

theorem Inv.places_storeTailBlock (h : Inv cfg ⟨m, .storeTailBlock v b, cpc⟩ A) :
    Places cfg v m (.storeTailBlock v b) := by
  have hat : (ProducerPc.storeTailBlock v b).At m A := h.producer
  obtain ⟨hb, hc, -⟩ := hat
  have hmem : b ∈ A.rest ++ A.free := List.mem_append_right _ (List.mem_of_mem_head? hb)
  have hspans := h.shared.layout.spans b (List.mem_cons_of_mem _ hmem)
  have hfilled := h.shared.stored.other b hmem
  rw [hc] at hfilled
  exact places_of_last rfl ⟨rfl, rfl, b, (m.blocks b).front, hspans.front_lt, hfilled.head hspans.front_lt⟩

theorem Inv.places_storeNextTail (h : Inv cfg ⟨m, .storeNextTail v b tail, cpc⟩ A) :
    Places cfg v m (.storeNextTail v b tail) := h.places_of_step rfl rfl rfl fun h' => h'.places_storeTailBlock

theorem Inv.places_constructNext (h : Inv cfg ⟨m, .constructNext v b tail, cpc⟩ A) :
    Places cfg v m (.constructNext v b tail) := h.places_of_step rfl rfl rfl fun h' => h'.places_storeNextTail

theorem Inv.places_loadNextFront (h : Inv cfg ⟨m, .loadNextFront v b tail, cpc⟩ A) :
    Places cfg v m (.loadNextFront v b tail) := by
  by_cases heq : (m.blocks b).front = tail
  · have hs : ReaderWriterQueue.produce cfg m (.loadNextFront v b tail) =
        some (m.updateBlock b fun block => { block with localFront := (m.blocks b).front }, .constructNext v b tail) := by
      simp only [ReaderWriterQueue.produce, if_pos heq]
    exact h.places_of_step hs rfl rfl fun h' => h'.places_constructNext
  · -- the assertion cannot fail
    have hs : ReaderWriterQueue.produce cfg m (.loadNextFront v b tail) =
        some (m.updateBlock b fun block => { block with localFront := (m.blocks b).front }, .assertFailed) := by
      simp only [ReaderWriterQueue.produce, if_neg heq]
    obtain ⟨A', ⟨h', -⟩, -⟩ := h.produce hs
    exact h'.producer.elim

theorem Inv.places_loadNextTail (h : Inv cfg ⟨m, .loadNextTail v b, cpc⟩ A) : Places cfg v m (.loadNextTail v b) :=
  h.places_of_step rfl rfl rfl fun h' => h'.places_loadNextFront

theorem Inv.places_loadNextBlock (h : Inv cfg ⟨m, .loadNextBlock v b, cpc⟩ A) : Places cfg v m (.loadNextBlock v b) := by
  have hat : (ProducerPc.loadNextBlock v b).At m A := h.producer
  obtain ⟨rfl, hfree⟩ := hat
  obtain ⟨x, l, hf⟩ := List.exists_cons_of_ne_nil hfree
  have hnext : (m.blocks m.tailBlock).next = some x := by
    rw [h.shared.layout.next_tail, hf]
    rfl
  have hs : ReaderWriterQueue.produce cfg m (.loadNextBlock v m.tailBlock) = some (m, .loadNextTail v x) := by
    simp only [ReaderWriterQueue.produce, hnext, Option.map_some]
  exact h.places_of_step hs rfl rfl fun h' => h'.places_loadNextTail

theorem Inv.places_loadFrontBlock {next : Option ℕ} (h : Inv cfg ⟨m, .loadFrontBlock .cannotAlloc v b next, cpc⟩ A)
    (hnext : next ≠ some m.frontBlock) : Places cfg v m (.loadFrontBlock .cannotAlloc v b next) := by
  have hs : ReaderWriterQueue.produce cfg m (.loadFrontBlock .cannotAlloc v b next) = some (m, .loadNextBlock v b) := by
    simp only [ReaderWriterQueue.produce, if_pos hnext]
  exact h.places_of_step hs rfl rfl fun h' => h'.places_loadNextBlock

theorem Inv.places_loadNext (h : Inv cfg ⟨m, .loadNext .cannotAlloc v b, cpc⟩ A)
    (hnext : (m.blocks b).next ≠ some m.frontBlock) : Places cfg v m (.loadNext .cannotAlloc v b) :=
  h.places_of_step rfl rfl rfl fun h' => h'.places_loadFrontBlock hnext

theorem Inv.places_loadFront (h : Inv cfg ⟨m, .loadFront .cannotAlloc v b tail, cpc⟩ A)
    (hroom : (m.blocks b).succ tail = (m.blocks b).front → (m.blocks b).next ≠ some m.frontBlock) :
    Places cfg v m (.loadFront .cannotAlloc v b tail) := by
  by_cases heq : (m.blocks b).succ tail = (m.blocks b).front
  · have hs : ReaderWriterQueue.produce cfg m (.loadFront .cannotAlloc v b tail) =
        some (m.updateBlock b fun block => { block with localFront := (m.blocks b).front },
          .loadNext .cannotAlloc v b) := by
      simp only [ReaderWriterQueue.produce, updateBlock_self]
      exact if_neg (not_not.mpr heq)
    have hself : (m.updateBlock b fun block => { block with localFront := (m.blocks b).front }).blocks b = _ :=
      updateBlock_self ..
    refine h.places_of_step hs rfl rfl fun h' => h'.places_loadNext ?_
    exact mt (fun hn => (congrArg Block.next hself).symm.trans hn) (hroom heq)
  · have hs : ReaderWriterQueue.produce cfg m (.loadFront .cannotAlloc v b tail) =
        some (m.updateBlock b fun block => { block with localFront := (m.blocks b).front }, .construct v b tail) := by
      simp only [ReaderWriterQueue.produce, updateBlock_self]
      exact if_pos heq
    exact h.places_of_step hs rfl rfl fun h' => h'.places_construct

theorem Inv.places_loadTail (h : Inv cfg ⟨m, .loadTail .cannotAlloc v b, cpc⟩ A)
    (hroom : (m.blocks b).succ (m.blocks b).tail = (m.blocks b).front → (m.blocks b).next ≠ some m.frontBlock) :
    Places cfg v m (.loadTail .cannotAlloc v b) := by
  by_cases heq : (m.blocks b).succ (m.blocks b).tail ≠ (m.blocks b).localFront
  · have hs : ReaderWriterQueue.produce cfg m (.loadTail .cannotAlloc v b) =
        some (m, .construct v b (m.blocks b).tail) := by simp only [ReaderWriterQueue.produce, if_pos heq]
    exact h.places_of_step hs rfl rfl fun h' => h'.places_construct
  · have hs : ReaderWriterQueue.produce cfg m (.loadTail .cannotAlloc v b) =
        some (m, .loadFront .cannotAlloc v b (m.blocks b).tail) := by
      simp only [ReaderWriterQueue.produce, if_neg heq]
    exact h.places_of_step hs rfl rfl fun h' => h'.places_loadFront hroom

end Places

/-- **`TryEnqueue` succeeds** if the tail block has room or the next block is free. -/
theorem Inv.tryEnqueueSucceeds {cpc : ConsumerPc V} (h : Inv cfg ⟨m, .idle, cpc⟩ A) (v : V)
    (hroom : (m.blocks m.tailBlock).succ (m.blocks m.tailBlock).tail = (m.blocks m.tailBlock).front →
      (m.blocks m.tailBlock).next ≠ some m.frontBlock) : TryEnqueueSucceeds cfg v m :=
  (h.enqueue .cannotAlloc v rfl).places_of_step rfl rfl rfl fun h' => h'.places_loadTail hroom

/-! ## From the constructor on -/

theorem Reserved.fresh (hpos : 1 ≤ reservedSize) (hlt : reservedSize < 2 ^ (cfg.w - 1)) :
    Reserved cfg (initialBlocks cfg reservedSize).1 (initialBlocks cfg reservedSize).2
      (State.fresh cfg reservedSize : State V) (View.fresh cfg reservedSize) := by
  refine ⟨.fresh hpos hlt, ⟨fun _ => nofun, nofun⟩, ?_, le_rfl, fun _ _ => le_rfl⟩
  rw [View.fresh, List.nil_append, List.length_range']
  omega

/-- A queue that holds less than it has room for. -/
theorem Reserved.tryEnqueueSucceeds {cpc : ConsumerPc V} (h : Reserved cfg n size ⟨m, .idle, cpc⟩ A) (v : V)
    (hheld : m.held < max 1 (n - 1) * (size - 1)) : TryEnqueueSucceeds cfg v m := by
  have hlayout := h.inv.shared.layout
  have hT := hlayout.tail_mem_blocks
  refine h.inv.tryEnqueueSucceeds v fun hfull hnext => Nat.not_le_of_lt hheld (h.le_held ?_ ?_)
  · -- the block after the tail block is the front block
    by_contra hne
    obtain ⟨x, l, hf⟩ := List.exists_cons_of_ne_nil hne
    have hx := hlayout.next_tail
    rw [hf, List.cons_append, List.head?_cons] at hx
    obtain rfl : x = m.frontBlock := Option.some.inj (hx.symm.trans hnext)
    exact hlayout.front_notMem (List.mem_append_right _ (hf ▸ List.mem_cons_self))
  · have hsucc := (hlayout.sized _ hT).succ_eq (m.blocks m.tailBlock).tail
    exact (hlayout.spans _ hT).succ_tail_eq_iff.mp (hsucc.symm.trans hfull)

/-- As long as the queue holds fewer than `ReservedSize` elements, `TryEnqueue` succeeds without allocating. -/
def NeverOutEarly (cfg : Cfg) (reservedSize : ℕ) (s : State V) : Prop :=
  s.producer = .idle → s.memory.held < reservedSize → ∀ v, TryEnqueueSucceeds cfg v s.memory

/-- **Run.** -/
theorem neverOutEarly_of_reaches (hlt : reservedSize < 2 ^ (cfg.w - 1))
    (h : Reaches (Step cfg) (fun _ _ => True) (State.fresh cfg reservedSize) s) : NeverOutEarly cfg reservedSize s := by
  intro hpc hheld v
  have hpos : 1 ≤ reservedSize := Nat.lt_of_le_of_lt (Nat.zero_le _) hheld
  have hreserved := h.invariant
    (I := fun s => ∃ A, Reserved cfg (initialBlocks cfg reservedSize).1 (initialBlocks cfg reservedSize).2 s A)
    ⟨_, .fresh hpos hlt⟩ fun _ _ _ hreserved _ hs => by
      obtain ⟨A, hreserved⟩ := hreserved
      exact hreserved.step hs
  obtain ⟨A, hreserved⟩ := hreserved
  obtain ⟨m, ppc, cpc⟩ := s
  obtain rfl : ppc = .idle := hpc
  exact hreserved.tryEnqueueSucceeds v (Nat.lt_of_lt_of_le hheld (reserved_le hpos hlt))

/-- A queue whose block has no slot does not place anything. -/
theorem not_tryEnqueueSucceeds_of_large (hge : 2 ^ (cfg.w - 1) ≤ reservedSize) (hlt : reservedSize + 1 < 2 ^ cfg.w) :
    ¬ TryEnqueueSucceeds cfg v (Memory.fresh cfg reservedSize) := by
  have hone : 1 % 2 ^ cfg.w = 1 := Nat.mod_eq_of_lt (Nat.one_lt_two_pow (Nat.ne_of_gt cfg.w_pos))
  rw [fresh_large cfg hge hlt]
  rintro ⟨fuel, m', hrun, -, -, b, i, hi, -⟩
  -- the call ends after four accesses
  rcases fuel with - | - | - | - | fuel <;>
    simp [finishCall, produce, Memory.note, Memory.updateBlock, Memory.enqueue, Block.construct, Block.succ,
      Nat.and_two_pow_sub_one_eq_mod, hone] at hrun
  subst hrun
  dsimp only at hi
  by_cases hb : b = 0
  · rw [hb, Function.update_self] at hi
    exact absurd hi (Nat.not_lt_zero i)
  · rw [Function.update_of_ne hb] at hi
    exact absurd hi (Nat.not_lt_zero i)

/-- The queue does not run out early exactly when the reserved size can be rounded up to a power of two. -/
theorem neverOutEarly_iff [Nonempty V] (hsize : reservedSize + 2 * cfg.blockSize < 2 ^ cfg.w) :
    (∀ s, Reaches (Step cfg) (fun _ _ => True) (State.fresh cfg reservedSize : State V) s →
      NeverOutEarly cfg reservedSize s) ↔ reservedSize < 2 ^ (cfg.w - 1) := by
  obtain ⟨x⟩ := ‹Nonempty V›
  refine ⟨fun h => ?_, fun hlt s hreach => neverOutEarly_of_reaches hlt hreach⟩
  by_contra hge
  have htwo := cfg.two_le_blockSize
  have hpos : 0 < reservedSize := Nat.lt_of_lt_of_le (Nat.two_pow_pos _) (Nat.le_of_not_lt hge)
  exact not_tryEnqueueSucceeds_of_large (Nat.le_of_not_lt hge) (by omega) (h _ (.refl _) rfl hpos x)

theorem neverOutEarly_iff_fifteen :
    (∀ s, Reaches (Step ⟨8, 9, by decide, by decide⟩) (fun _ _ => True)
        (State.fresh ⟨8, 9, by decide, by decide⟩ 15 : State ℕ) s →
      NeverOutEarly ⟨8, 9, by decide, by decide⟩ 15 s) ↔ 15 < 2 ^ 63 :=
  @neverOutEarly_iff ℕ ⟨8, 9, by decide, by decide⟩ 15 _ (by decide)

/-- With `2 ^ 63` reserved slots there is none. -/
theorem not_neverOutEarly :
    ¬ ∀ s, Reaches (Step ⟨8, 1, by decide, by decide⟩) (fun _ _ => True)
        (State.fresh ⟨8, 1, by decide, by decide⟩ (2 ^ 63) : State ℕ) s →
      NeverOutEarly ⟨8, 1, by decide, by decide⟩ (2 ^ 63) s := by
  intro h
  have hge : 2 ^ (Cfg.w ⟨8, 1, by decide, by decide⟩ - 1) ≤ 2 ^ 63 := le_rfl
  have hlt : 2 ^ 63 + 1 < 2 ^ Cfg.w ⟨8, 1, by decide, by decide⟩ := by
    rw [show Cfg.w ⟨8, 1, by decide, by decide⟩ = 64 from rfl]
    norm_num
  exact not_tryEnqueueSucceeds_of_large hge hlt (h _ (.refl _) rfl (Nat.two_pow_pos 63) 0)

end ReaderWriterQueue

end LockFreeStructures
