import LockFreeStructures.ReaderWriterQueue.Consumer
import LockFreeStructures.ReaderWriterQueue.Producer

/-!
# `ReaderWriterQueue.Lossless` — the queue loses nothing if its first block has a slot to spare

With `ReservedSize` zero the first block has one slot, which a circular buffer must leave free: an element put
there is lost. From the power of two above half of the range on, rounding up overflows and the block has no
slot at all. For all other sizes the invariant holds from the start.
-/

namespace LockFreeStructures

namespace ReaderWriterQueue

variable {V : Type} {cfg : Cfg} {s s' : State V} {A : View V} {reservedSize : ℕ}

/-- What is consumed is what was enqueued, in order; a call that gives no element has found the queue empty;
    what `Peek` gives is taken next; the assertions hold. -/
structure Lossless (s : State V) : Prop where
  fifo : s.memory.consumed <+: s.memory.enqueued.map some
  empties : ∀ o ∈ s.memory.outcomes, o.slot = none → o.wasEmpty = true
  peeks : PeeksTaken s.memory.outcomes
  consumer : s.consumer ≠ .assertFailed
  producer : s.producer ≠ .assertFailed

theorem Inv.lossless (h : Inv cfg s A) : Lossless s := by
  refine ⟨?_, h.shared.history.empties, h.shared.history.peeks, fun hpc => ?_, fun hpc => ?_⟩
  · obtain ⟨gone, hcons, henq⟩ := h.shared.history.fifo
    rw [hcons, henq, List.map_append]
    exact List.prefix_append ..
  · have hat := h.consumer
    rw [hpc] at hat
    exact hat
  · have hat := h.producer
    rw [hpc] at hat
    exact hat

/-! ## The start -/

theorem initialBlocks_of_pos (hpos : 1 ≤ reservedSize) (hlt : reservedSize < 2 ^ (cfg.w - 1)) :
    0 < (initialBlocks cfg reservedSize).1 ∧
      ∃ k, 1 ≤ k ∧ k ≤ cfg.blockSizeLog2 ∧ (initialBlocks cfg reservedSize).2 = 2 ^ k := by
  have hsizeof : 0 < cfg.sizeofSize := by
    have := cfg.w_pos
    unfold Cfg.w at this
    omega
  obtain ⟨m, -, hm, hle⟩ := ceilToPow2_of_le hsizeof (Nat.succ_pos reservedSize) hlt
  have htwo := cfg.two_le_blockSize
  unfold initialBlocks
  rw [hm]
  by_cases hbig : cfg.blockSize < 2 ^ m
  · simp only [if_pos hbig]
    exact ⟨Nat.div_pos (by omega) (by omega), _, cfg.one_le_blockSizeLog2, le_rfl, rfl⟩
  · simp only [if_neg hbig]
    refine ⟨Nat.one_pos, m, ?_, ?_, rfl⟩
    · rcases Nat.eq_zero_or_pos m with rfl | hm
      · omega
      · exact hm
    · exact (Nat.pow_le_pow_iff_right (by decide)).mp (Nat.le_of_not_lt hbig)

/-- The view of a new queue: all blocks but the front block are free. -/
def View.fresh (cfg : Cfg) (reservedSize : ℕ) : View V :=
  ⟨[], List.range' 1 ((initialBlocks cfg reservedSize).1 - 1), fun _ => []⟩

theorem Inv.fresh (hpos : 1 ≤ reservedSize) (hlt : reservedSize < 2 ^ (cfg.w - 1)) :
    Inv cfg (State.fresh cfg reservedSize : State V) (View.fresh cfg reservedSize) := by
  obtain ⟨hcount, k, hk, hle, hsize⟩ := initialBlocks_of_pos hpos hlt
  have hrange : List.range (initialBlocks cfg reservedSize).1 =
      0 :: List.range' 1 ((initialBlocks cfg reservedSize).1 - 1) := by
    obtain ⟨n, hn⟩ := Nat.exists_eq_succ_of_ne_zero (Nat.ne_of_gt hcount)
    rw [hn, List.range_eq_range', List.range'_succ]
    rfl
  have hsized : (makeBlock cfg (initialBlocks cfg reservedSize).2 : Block V).Sized :=
    Shared.makeBlock_sized hk hle hsize
  have hpos : 0 < (makeBlock cfg (initialBlocks cfg reservedSize).2 : Block V).size := by
    have := hsized.two_le
    omega
  refine ⟨⟨⟨?_, rfl, fun _ _ => hsized, fun _ _ => .zero hpos, fun _ => nofun, fun _ _ => Or.inr rfl, ?_, k, hk, hle,
    hsize⟩, ⟨fun _ _ => .nil, .nil⟩, ⟨⟨0, le_rfl, .zero hpos⟩, ⟨0, le_rfl, .zero hpos⟩⟩, ⟨[], rfl, rfl⟩, fun _ => rfl,
    fun _ => nofun, trivial, fun _ => nofun⟩, trivial, trivial⟩
  · have hring := IsRing.range hcount
    rw [hrange] at hring
    exact hring
  · intro b hb
    have hmem : b ∈ List.range (initialBlocks cfg reservedSize).1 := hrange ▸ hb
    exact List.mem_range.mp hmem

/-- A call of the producer begins. -/
theorem Inv.enqueue (h : Inv cfg s A) (mode : AllocMode) (v : V) (hpc : s.producer = .idle) :
    Inv cfg { s with producer := .loadTailBlock mode v } A := by
  have hshared := h.shared
  rw [hpc] at hshared
  exact ⟨hshared, h.consumer, trivial⟩

theorem Inv.noBlock {v : V} {b : ℕ} (h : Inv cfg s A) (hpc : s.producer = .makeBlock v b) :
    Inv cfg { s with memory := s.memory.grow cfg, producer := .idle } A := by
  have hshared := h.shared
  rw [hpc] at hshared
  have hby : ByProducer s.memory (s.memory.grow cfg) A A :=
    .of_fields rfl rfl id (fun _ _ => ⟨rfl, rfl, rfl⟩) ⟨[], (List.append_nil _).symm⟩ fun _ _ => rfl
  exact ⟨Shared.grow hshared, hby.at_ h.consumer, trivial⟩

/-- A call of the consumer begins. -/
theorem Inv.dequeue (h : Inv cfg s A) (op : Op) (hpc : s.consumer = .idle) :
    Inv cfg { s with memory := { s.memory with wasEmpty := false }.note, consumer := .loadFrontBlock op } A := by
  have hshared := h.shared
  rw [hpc] at hshared
  have hby : ByConsumer s.memory { s.memory with wasEmpty := false } A A :=
    .of_localTail rfl rfl rfl fun _ => ⟨_, rfl⟩
  refine ⟨.note (hshared.layout.congr rfl rfl (fun _ _ => rfl) le_rfl hshared.layout.blockSize)
    ⟨hshared.stored.other, hshared.stored.front⟩ ⟨hshared.cached.localTail, hshared.cached.localFront⟩
    hshared.history.fifo hshared.history.empties hshared.history.peeks hshared.history.peeked, trivial, ?_⟩
  exact hby.note.at_ hshared.layout h.producer

/-- **Step.** -/
theorem Inv.step {a : Act V} (h : Inv cfg s A) (hs : Step cfg s a s') : ∃ A, Inv cfg s' A := by
  cases hs with
  | enqueue mode v hpc => exact ⟨A, h.enqueue mode v hpc⟩
  | produce hprod =>
      obtain ⟨A', ⟨h', -⟩, -⟩ := h.produce hprod
      exact ⟨A', h'⟩
  | noBlock hpc => exact ⟨A, h.noBlock hpc⟩
  | dequeue op hpc => exact ⟨A, h.dequeue op hpc⟩
  | consume hcons =>
      obtain ⟨A', ⟨h', -⟩, -⟩ := h.consume hcons
      exact ⟨A', h'⟩

/-- **Run.** -/
theorem lossless_of_reaches (hpos : 1 ≤ reservedSize) (hlt : reservedSize < 2 ^ (cfg.w - 1))
    (h : Reaches (Step cfg) (fun _ _ => True) (State.fresh cfg reservedSize : State V) s) : Lossless s := by
  obtain ⟨A, hinv⟩ := h.invariant (I := fun s => ∃ A, Inv cfg s A) ⟨_, Inv.fresh hpos hlt⟩ fun _ _ _ hinv _ hs => by
    obtain ⟨A, hinv⟩ := hinv
    exact hinv.step hs
  exact hinv.lossless

/-! ## First blocks without a slot to spare -/

/-- Some run leads to such a state. -/
def CanReach (cfg : Cfg) (P : State V → Prop) (s : State V) : Prop :=
  ∃ s', Reaches (Step cfg) (fun _ _ => True) s s' ∧ P s'

namespace CanReach

variable {P : State V → Prop} {m : Memory V} {ppc : ProducerPc V} {cpc : ConsumerPc V}

theorem now (h : P s) : CanReach cfg P s := ⟨s, .refl s, h⟩

theorem head {a : Act V} (hs : Step cfg s a s') (h : CanReach cfg P s') : CanReach cfg P s := by
  obtain ⟨s'', hreach, hP⟩ := h
  exact ⟨s'', .head hs trivial hreach, hP⟩

theorem produce (h : ∃ m' ppc', ReaderWriterQueue.produce cfg m ppc = some (m', ppc') ∧
    CanReach cfg P ⟨m'.note, ppc', cpc⟩) : CanReach cfg P ⟨m, ppc, cpc⟩ := by
  obtain ⟨m', ppc', hs, h⟩ := h
  exact .head (.produce hs) h

theorem consume (h : ∃ m' cpc', ReaderWriterQueue.consume m cpc = some (m', cpc') ∧
    CanReach cfg P ⟨m'.note, ppc, cpc'⟩) : CanReach cfg P ⟨m, ppc, cpc⟩ := by
  obtain ⟨m', cpc', hs, h⟩ := h
  exact .head (.consume hs) h

end CanReach

attribute [local simp] ReaderWriterQueue.produce ReaderWriterQueue.consume orElse useFront Memory.note
  Memory.updateBlock Memory.enqueue Memory.finish Block.construct Block.destroy Block.succ

section Lost

variable (x : V)

theorem fresh_zero (cfg : Cfg) : (Memory.fresh cfg 0 : Memory V) =
    { frontBlock := 0, tailBlock := 0, blockSize := 1
      blocks := fun b =>
        { front := 0, localTail := 0, tail := 0, localFront := 0, next := some ((b + 1) % 1), size := 1
          data := fun _ => none, sizeMask := 0 }
      blockCount := 1, enqueued := [], consumed := [], outcomes := [], wasEmpty := true } := by
  have hw := cfg.w_pos
  have hsizeof : 0 < cfg.sizeofSize := by
    unfold Cfg.w at hw
    omega
  have hblocks : initialBlocks cfg 0 = (1, 1) := by
    rw [initialBlocks, ceilToPow2_one hsizeof, if_neg]
    have := cfg.two_le_blockSize
    omega
  have hmask : Word.sub cfg.w 1 1 = 0 := by
    rw [Word.sub_of_le le_rfl (Nat.one_lt_two_pow (Nat.ne_of_gt hw))]
  rw [Memory.fresh, hblocks]
  simp only [makeBlock, hmask]

/-- The first block that is made later has two slots. -/
theorem grow_addBlock (cfg : Cfg) {m : Memory V} (hsize : m.blockSize = 1) (hcount : m.blockCount = 1) :
    (m.grow cfg).addBlock cfg x =
      { m with
        blockSize := 2, blockCount := 2
        blocks := Function.update m.blocks 1
          { front := 0, localTail := 1, tail := 1, localFront := 0, next := none, size := 2
            data := Function.update (fun _ => none) 0 (some x), sizeMask := 1 } } := by
  have htwo := cfg.two_le_blockSize
  have hgrow : (m.grow cfg).blockSize = 2 := by
    rw [Memory.grow, hsize, if_pos (by omega), if_neg (by omega)]
  have hmask : Word.sub cfg.w 2 1 = 1 := by
    rw [Word.sub_of_le (by decide)]
    exact Nat.lt_of_le_of_lt htwo (Nat.pow_lt_pow_right (by decide) cfg.blockSizeLog2_lt)
  rw [Memory.addBlock, hgrow]
  simp only [makeBlock, Block.construct, Memory.grow, hmask, hcount, if_pos Nat.two_pos, hsize,
    if_pos (show 1 < cfg.blockSize by omega), if_neg (show ¬ cfg.blockSize < 1 * 2 by omega)]

include x in
/-- A block with one slot: the third of four elements is lost there, and the assertion fails. -/
theorem lost_of_zero (cfg : Cfg) : CanReach cfg (fun s : State V => s.consumer = .assertFailed)
    (State.fresh cfg 0) := by
  rw [State.fresh, fresh_zero]
  -- the first block has no slot to spare, so a second one is made
  refine .head (.enqueue .canAlloc x rfl) ?_
  iterate 5 (apply CanReach.produce; simp)
  refine CanReach.produce ⟨_, _,
    congrArg (fun m => some (m, ProducerPc.loadNewNext x 0 1)) (grow_addBlock x cfg rfl rfl), ?_⟩
  iterate 3 (apply CanReach.produce; simp)
  refine .head (.dequeue .tryDequeue rfl) ?_
  iterate 10 (apply CanReach.consume; simp)
  -- the one free slot of the second block
  refine .head (.enqueue .canAlloc x rfl) ?_
  iterate 5 (apply CanReach.produce; simp)
  -- the first block again, whose tail stays where it is
  refine .head (.enqueue .canAlloc x rfl) ?_
  iterate 11 (apply CanReach.produce; simp)
  refine .head (.dequeue .tryDequeue rfl) ?_
  iterate 6 (apply CanReach.consume; simp)
  refine .head (.dequeue .tryDequeue rfl) ?_
  iterate 7 (apply CanReach.consume; simp)
  exact .now rfl

theorem fresh_large (cfg : Cfg) (hge : 2 ^ (cfg.w - 1) ≤ reservedSize) (hlt : reservedSize + 1 < 2 ^ cfg.w) :
    (Memory.fresh cfg reservedSize : Memory V) =
      { frontBlock := 0, tailBlock := 0, blockSize := 0
        blocks := fun b =>
          { front := 0, localTail := 0, tail := 0, localFront := 0, next := some ((b + 1) % 1), size := 0
            data := fun _ => none, sizeMask := 2 ^ cfg.w - 1 }
        blockCount := 1, enqueued := [], consumed := [], outcomes := [], wasEmpty := true } := by
  have hblocks : initialBlocks cfg reservedSize = (1, 0) := by
    rw [initialBlocks, ceilToPow2_of_gt (Nat.lt_succ_of_le hge) hlt, if_neg (Nat.not_lt_zero _)]
  have hmask : Word.sub cfg.w 0 1 = 2 ^ cfg.w - 1 := by
    have := Nat.one_lt_two_pow (Nat.ne_of_gt cfg.w_pos)
    rw [Word.sub, Nat.zero_add, Nat.mod_eq_of_lt this, Nat.mod_eq_of_lt (Nat.sub_lt (Nat.two_pow_pos _) Nat.one_pos)]
  rw [Memory.fresh, hblocks]
  simp only [makeBlock, hmask]

/-- A block without slots: there is nothing to take. -/
theorem lost_of_large (cfg : Cfg) (hge : 2 ^ (cfg.w - 1) ≤ reservedSize) (hlt : reservedSize + 1 < 2 ^ cfg.w) :
    CanReach cfg (fun s : State V => s.memory.enqueued = [x] ∧ s.memory.consumed = [none])
      (State.fresh cfg reservedSize) := by
  have hone : 1 % 2 ^ cfg.w = 1 := Nat.mod_eq_of_lt (Nat.one_lt_two_pow (Nat.ne_of_gt cfg.w_pos))
  rw [State.fresh, fresh_large cfg hge hlt]
  refine .head (.enqueue .canAlloc x rfl) ?_
  iterate 4 (apply CanReach.produce; simp [Nat.and_two_pow_sub_one_eq_mod, hone])
  refine .head (.dequeue .tryDequeue rfl) ?_
  iterate 6 (apply CanReach.consume; simp [Nat.and_two_pow_sub_one_eq_mod, hone])
  exact .now ⟨rfl, rfl⟩

end Lost

/-- The queue loses nothing exactly when rounding the reserved size up gives a block with a slot to spare. -/
theorem lossless_iff [Nonempty V] (hsize : reservedSize + 2 * cfg.blockSize < 2 ^ cfg.w) :
    (∀ s, Reaches (Step cfg) (fun _ _ => True) (State.fresh cfg reservedSize : State V) s → Lossless s) ↔
      1 ≤ reservedSize ∧ reservedSize < 2 ^ (cfg.w - 1) := by
  obtain ⟨x⟩ := ‹Nonempty V›
  constructor
  · intro h
    by_contra hcond
    rcases Nat.eq_zero_or_pos reservedSize with rfl | hpos
    · obtain ⟨s, hreach, hpc⟩ := lost_of_zero x cfg
      exact (h s hreach).consumer hpc
    · have htwo := cfg.two_le_blockSize
      have hge : 2 ^ (cfg.w - 1) ≤ reservedSize := by
        by_contra hlt
        exact hcond ⟨hpos, Nat.lt_of_not_le hlt⟩
      obtain ⟨s, hreach, henq, hcons⟩ := lost_of_large x cfg hge (by omega)
      have hfifo := (h s hreach).fifo
      rw [henq, hcons, List.map_singleton, List.cons_prefix_cons] at hfifo
      exact absurd hfifo.1 nofun
  · rintro ⟨hpos, hlt⟩ s hreach
    exact lossless_of_reaches hpos hlt hreach

theorem lossless_iff_fifteen :
    (∀ s, Reaches (Step ⟨8, 9, by decide, by decide⟩) (fun _ _ => True)
        (State.fresh ⟨8, 9, by decide, by decide⟩ 15 : State ℕ) s → Lossless s) ↔
      1 ≤ 15 ∧ 15 < 2 ^ 63 :=
  @lossless_iff ℕ ⟨8, 9, by decide, by decide⟩ 15 _ (by decide)

/-- With no reserved slot the assertion can fail. -/
theorem not_lossless :
    ¬ ∀ s, Reaches (Step ⟨8, 1, by decide, by decide⟩) (fun _ _ => True)
      (State.fresh ⟨8, 1, by decide, by decide⟩ 0 : State ℕ) s → Lossless s := by
  intro h
  obtain ⟨s, hreach, hpc⟩ := lost_of_zero 0 ⟨8, 1, by decide, by decide⟩
  exact (h s hreach).consumer hpc

end ReaderWriterQueue

end LockFreeStructures
