import LockFreeStructures.FastQueue.SharedConsumer
import LockFreeStructures.FastQueue.SharedProducer

/-!
# `FastQueue.SharedRuns` — runs of one producer and any number of consumers
-/

namespace LockFreeStructures

namespace SharedFastQueue

variable {T α : Type} [DecidableEq T] {cfg : Cfg} {inSize : ℕ} {m m' : Memory T α} {s : State T α}

/-! ## What the threads rely on -/

section Runs

/-- What the others do, for the producer and for a consumer. -/
def RelyOf (cfg : Cfg) (m m' : Memory T α) : Option T → Prop
  | none => ProducerRely m m'
  | some t => Rely cfg t m m'

/-- **Step.** -/
theorem relyGuarantee : Interleaving.RelyGuarantee (ThreadStep (T := T) (α := α) cfg) (InRange cfg) (Inv cfg)
    (fun t m pc => pc.At cfg m t) (fun t m m' => RelyOf cfg m m' t) where
  own := by
    intro s t a m' pc' hrange hm hat hs
    replace hrange : a.InRange cfg s.memory (s.threads t) := hrange
    generalize s.threads t = pc at hrange hat hs
    cases hs with
    | @enqueueBulk m returned mode items hitems =>
        have hidle : (ProducerPc.idle returned : ProducerPc α).At cfg s.memory := hat
        exact ⟨hm, hidle.enqueueBulk hm mode hitems hrange⟩
    | noArray => exact ⟨hm, hat⟩
    | noBlock =>
        obtain ⟨hindexed, hacq, -⟩ := hat
        exact ⟨hm, hindexed, hacq⟩
    | @requisition m l p content hp =>
        have hkept := ProducerPc.At.requisition hat hm hp content
        exact ⟨hkept.inv, hkept.at_⟩
    | produce hacc =>
        have hkept := ProducerPc.At.produce hat hm hrange hacc
        exact ⟨hkept.inv, hkept.at_⟩
    | call =>
        obtain ⟨hholds, -, hhas⟩ : ConsumerPc.At cfg _ s.memory (.counting _ (.idle _)) := hat
        exact ⟨hm, hholds, rfl, hhas⟩
    | consume hacc =>
        have hconsumed := ConsumerPc.At.consume hat hm hrange hacc
        exact ⟨hconsumed.inv, hconsumed.at_⟩
  guarantee := by
    intro s t t' a m' pc' hrange hm hat hs ht
    replace hrange : a.InRange cfg s.memory (s.threads t) := hrange
    generalize s.threads t = pc at hrange hat hs
    cases hs with
    | enqueueBulk | noArray | noBlock =>
        cases t' with
        | none => exact absurd rfl ht
        | some t' => exact .of_frame rfl rfl rfl rfl le_rfl fun _ _ => rfl
    | @requisition m l p content hp =>
        cases t' with
        | none => exact absurd rfl ht
        | some t' => exact (ProducerPc.At.requisition hat hm hp content).rely t'
    | produce hacc =>
        cases t' with
        | none => exact absurd rfl ht
        | some t' => exact (ProducerPc.At.produce hat hm hrange hacc).rely t'
    | call =>
        cases t' with
        | none => exact .refl _
        | some t' => exact .of_frame rfl rfl rfl rfl le_rfl fun _ _ => rfl
    | consume hacc =>
        have hconsumed := ConsumerPc.At.consume hat hm hrange hacc
        cases t' with
        | none => exact hconsumed.producer
        | some t' => exact hconsumed.rely t' fun heq => ht (congrArg some heq)
  stable := by
    intro t m m' pc hm hat hrely
    cases t with
    | none =>
        cases pc with
        | producer pc => exact ProducerPc.At.stable hat hm hrely
        | consumer pc => exact hat
    | some t =>
        cases pc with
        | producer pc => exact hat
        | consumer pc => exact ConsumerPc.At.stable hat hm hrely

theorem Inv.fresh (hsize : 2 * FastQueue.initialIndexSize cfg inSize * cfg.blockSize ≤ 2 ^ cfg.w)
    (blocks : ℕ → Block α) : Inv cfg (Memory.fresh cfg inSize blocks : Memory T α) where
  counters := .fresh cfg.w
  ring := by
    refine ⟨le_rfl, id, fun j k _ _ hk => absurd hk (Nat.not_lt_zero k), rfl,
      fun k _ hk => absurd hk (Nat.not_lt_zero _), fun hpos => absurd hpos (Nat.not_lt_zero 0)⟩
  index := by
    obtain ⟨e, -, he⟩ := FastQueue.initialIndexSize_eq cfg inSize
    refine ⟨Nat.zero_le _, ⟨e + 1, ?_, hsize⟩, le_rfl, Nat.zero_le _, (Nat.zero_mod _).symm,
      fun k _ hk => absurd hk (Nat.not_lt_zero k), fun hpos => absurd hpos (Nat.not_lt_zero 0)⟩
    show 2 * FastQueue.initialIndexSize cfg inSize = 2 ^ (e + 1)
    rw [he, Nat.pow_succ, Nat.mul_comm]
  elements := by
    refine ⟨rfl, List.prefix_rfl, Nat.zero_le _, fun i => iff_of_true rfl (Nat.zero_le i), fun i hi => ?_,
      fun i x hx => ?_, fun k _ hk => absurd hk (Nat.not_lt_zero k)⟩
    · rw [show (Memory.fresh cfg inSize blocks : Memory T α).oldest = 0 from rfl, Nat.zero_mul] at hi
      exact absurd hi (Nat.not_lt_zero i)
    · cases hx
  deliveries := by
    refine ⟨fun d hd => absurd hd List.not_mem_nil, fun i => iff_of_false id ?_, List.nodup_nil, List.Pairwise.nil,
      fun d hd => absurd hd List.not_mem_nil⟩
    rintro ⟨d, hd, -⟩
    exact absurd hd List.not_mem_nil

theorem Pc.At.start (blocks : ℕ → Block α) (t : Option T) :
    ((start cfg inSize blocks : State T α).threads t).At cfg (.fresh cfg inSize blocks) t := by
  cases t with
  | none =>
      refine ⟨rfl, rfl, Nat.zero_le _, ?_⟩
      show 0 * cfg.blockSize < 0 + cfg.blockSize
      rw [Nat.zero_mul, Nat.zero_add]
      exact cfg.blockSize_pos
  | some t =>
      refine ⟨⟨le_rfl, fun u hu => absurd hu (Nat.not_lt_zero u)⟩, trivial, ?_⟩
      exact ⟨fun i => iff_of_false (by rintro ⟨⟩) (by omega), fun i => iff_of_false (by rintro ⟨⟩) (by omega),
        fun i => iff_of_false (by rintro ⟨⟩) (by omega)⟩

end Runs

/-! ## Every call goes on -/

section Defined

variable {t : T}

theorem ProducerPc.At.exists_produce {pc : ProducerPc α} (h : pc.At cfg m) (hm : Inv cfg m)
    (hidle : ∀ returned, pc ≠ .idle returned) (hrequisition : ∀ l, pc ≠ .requisitionBlock l) :
    ∃ r, SharedFastQueue.produce cfg m pc = some r := by
  cases pc with
  | idle returned => exact absurd rfl (hidle returned)
  | acquire l =>
      obtain ⟨hindexed, first, hacq⟩ := h
      unfold SharedFastQueue.produce
      dsimp only
      split
      · next hneed =>
        rw [(hacq.firstBlock hm hneed).1]
        exact ⟨_, rfl⟩
      · split
        · exact ⟨_, rfl⟩
        · exact ⟨_, rfl⟩
  | isEmpty l p i =>
      unfold SharedFastQueue.produce
      dsimp only
      split
      · exact ⟨_, rfl⟩
      · split
        · exact ⟨_, rfl⟩
        · exact ⟨_, rfl⟩
  | loadHeadIndex l =>
      unfold SharedFastQueue.produce
      dsimp only
      split
      · exact ⟨_, rfl⟩
      · exact ⟨_, rfl⟩
  | indexArray l =>
      unfold SharedFastQueue.produce
      dsimp only
      split
      · split
        · exact ⟨_, rfl⟩
        · exact ⟨_, rfl⟩
      · exact ⟨_, rfl⟩
  | requisitionBlock l => exact absurd rfl (hrequisition l)
  | linkBlock l p =>
      unfold SharedFastQueue.produce
      dsimp only
      split
      · exact ⟨_, rfl⟩
      · exact ⟨_, rfl⟩
  | linkTail l p =>
      obtain ⟨-, -, -, -, -, hstarted, -⟩ := h
      unfold SharedFastQueue.produce
      dsimp only
      rw [hm.ring.tailBlock, if_neg (Nat.ne_of_gt hstarted)]
      exact ⟨_, rfl⟩
  | reset | entryBase | entryBlock | storeTail | storeTailIndex | giveUp => exact ⟨_, rfl⟩
  | fill l p i rest =>
      obtain ⟨hfilling, k, hk, hk', rfl, hindex, hi⟩ := h
      have hcount := hfilling.count hm.elements
      -- as long as the block is not filled there is an item left
      have hrest : ∀ last, last + 1 + k * cfg.blockSize ≤ l.startTailIndex + l.items.length → i ≤ last → rest ≠ [] := by
        rintro last hlast hle rfl
        rw [List.length_nil] at hcount
        omega
      unfold SharedFastQueue.produce
      dsimp only
      rw [hfilling.last_eq]
      rcases hfilling.last_block hm hk hk' with ⟨htail, -, hend⟩ | ⟨htail, -, hend⟩
      · rw [if_pos htail]
        split
        · next hle =>
          cases rest with
          | nil => exact absurd rfl (hrest _ (by omega) hle)
          | cons x rest => exact ⟨_, rfl⟩
        · exact ⟨_, rfl⟩
      · rw [if_neg htail]
        split
        · next hle =>
          cases rest with
          | nil => exact absurd rfl (hrest _ (by omega) hle)
          | cons x rest => exact ⟨_, rfl⟩
        · exact ⟨_, rfl⟩

/-- The element of an index the thread has in hand is still in its slot. -/
theorem Inv.exists_element {l : ConsumerLocals} {p k : ℕ} (hm : Inv cfg m) (hblock : InBlock cfg l p m k)
    (hlt : l.currentIndex < l.endIndex) (hwaiting : m.phase l.index ≠ .waiting) (hlive : (m.phase l.index).Live) :
    ∃ x, (m.blocks p).elements l.currentIndex = some x := by
  have hlength : l.index < m.written.length := (hm.lt_tailIndex hwaiting).trans_le hm.elements.tailIndex_le
  have hdiv := Cfg.pos_div (k := k) (hlt.trans_le hblock.end_le)
  have hmod := Cfg.pos_mod (k := k) (hlt.trans_le hblock.end_le)
  have hvalue := hm.elements.element l.index _ (List.getElem?_eq_getElem hlength) hlive
  rw [hblock.index] at hdiv hmod
  rw [hdiv, hmod, ← hblock.block] at hvalue
  exact ⟨_, hvalue⟩

theorem ConsumerPc.At.exists_consume {pc : ConsumerPc} (h : pc.At cfg t m) (hm : Inv cfg m)
    (hidle : ∀ c returned, pc ≠ .counting c (.idle returned)) :
    ∃ r, SharedFastQueue.consume cfg t false m pc = some r := by
  cases pc with
  | counting c pc =>
      have hrank : 0 < pc.rank := by
        cases pc with
        | idle returned => exact absurd rfl (hidle c returned)
        | _ => exact Nat.succ_pos _
      obtain ⟨counters, pc', hacc, -⟩ := DequeueCounters.exists_access cfg.w t m.counters hrank
      unfold SharedFastQueue.consume
      dsimp only
      rw [hacc]
      exact ⟨_, rfl⟩
  | loadArray | loadTail | readBlock | readNext | setEmpty => exact ⟨_, rfl⟩
  | readBase l a tail =>
      obtain ⟨-, -, -, hfound, k, rfl, hbase⟩ := h
      have hlt := IndexEntryArray.slot_lt hfound.sized.pos k
      unfold SharedFastQueue.consume
      dsimp only
      rw [if_pos hlt, hbase]
      exact ⟨_, rfl⟩
  | block l p =>
      obtain ⟨-, -, hblock⟩ := h
      unfold SharedFastQueue.consume
      dsimp only
      split
      · exact ⟨_, rfl⟩
      · next hneed =>
        obtain ⟨k, -, rfl, -⟩ := hblock (Nat.pos_of_ne_zero hneed)
        exact ⟨_, rfl⟩
  | move l p =>
      obtain ⟨-, k, hblock, hlt, hhas⟩ := h
      have hclaimed : m.phase l.index = .claimed t :=
        (hhas.claimed l.index).mpr ⟨le_rfl, Nat.lt_add_of_pos_right (hblock.need_pos hlt)⟩
      obtain ⟨x, hx⟩ := hm.exists_element hblock hlt (by rw [hclaimed]; rintro ⟨⟩) (by rw [hclaimed]; trivial)
      unfold SharedFastQueue.consume
      dsimp only
      rw [hx]
      exact ⟨_, rfl⟩
  | destroy l p =>
      obtain ⟨-, k, hblock, hlt, hhas⟩ := h
      have hmoved : m.phase l.index = .moved t := (hhas.moved l.index).mpr ⟨le_rfl, Nat.lt_succ_self _⟩
      obtain ⟨x, hx⟩ := hm.exists_element hblock hlt (by rw [hmoved]; rintro ⟨⟩) (by rw [hmoved]; trivial)
      unfold SharedFastQueue.consume
      dsimp only
      rw [hx]
      exact ⟨_, rfl⟩

theorem Pc.At.defined {t : Option T} (h : (s.threads t).At cfg s.memory t) (hm : Inv cfg s.memory)
    (hbusy : ¬ (s.threads t).Idle) : ∃ a s', Step cfg s (t, a) s' := by
  cases t with
  | none =>
      cases hpc : s.threads none with
      | consumer pc =>
          rw [hpc] at h
          exact h.elim
      | producer pc =>
          rw [hpc] at h hbusy
          by_cases hrequisition : ∃ l, pc = .requisitionBlock l
          · obtain ⟨l, rfl⟩ := hrequisition
            exact ⟨.noBlock, _, .of_eq hpc .noBlock⟩
          · obtain ⟨r, hr⟩ := ProducerPc.At.exists_produce h hm (by rintro returned rfl; exact hbusy trivial)
              fun l hl => hrequisition ⟨l, hl⟩
            exact ⟨.access false, _, .of_eq hpc (.produce hr)⟩
  | some t =>
      cases hpc : s.threads (some t) with
      | producer pc =>
          rw [hpc] at h
          exact h.elim
      | consumer pc =>
          rw [hpc] at h hbusy
          obtain ⟨r, hr⟩ := ConsumerPc.At.exists_consume h hm (by rintro c returned rfl; exact hbusy trivial)
          exact ⟨.access false, _, .of_eq hpc (.consume hr)⟩

end Defined

/-! ## The result -/

/-- With every consumer out of its call no element is on its way. -/
theorem Inv.out_iff (h : Inv cfg m) (hquiet : ∀ t : T, Has t m 0 0 0 0) (i : ℕ) :
    i < m.counters.headIndex ↔ (m.phase i).Out := by
  rw [← Nat.not_le, ← h.elements.waiting]
  cases hphase : m.phase i with
  | waiting => exact iff_of_false (fun hnot => hnot rfl) id
  | claimed t => exact absurd ((hquiet t).claimed i |>.mp hphase).2 (Nat.not_lt_zero i)
  | moved t | destroyed t | done => exact iff_of_true (by rintro ⟨⟩) trivial

/-- **Run.** However the producer's and the consumers' accesses take turns, every element is delivered once, to the
    consumer that claimed its index, and nothing undefined is done on the way. Calls may fail as long as they do so
    before they take a block. -/
theorem delivers (hsize : 2 * FastQueue.initialIndexSize cfg inSize * cfg.blockSize ≤ 2 ^ cfg.w)
    {blocks : ℕ → Block α} (h : Reaches (Step cfg) (InRange cfg) (start cfg inSize blocks : State T α) s) :
    Safe cfg s := by
  obtain ⟨hm, hat⟩ := (relyGuarantee).invariant h (Inv.fresh hsize blocks) (Pc.At.start blocks)
  refine ⟨fun t hbusy => (hat t).defined hm hbusy, hm.elements.enqueued, hm.deliveries.value, hm.deliveries.once,
    hm.deliveries.ordered, fun hquiet i => ?_⟩
  rw [hm.out_iff (fun t => ?_) i]
  · exact hm.deliveries.out i
  · have hown := hat (some t)
    have hidle := hquiet t
    cases hpc : s.threads (some t) with
    | producer pc =>
        rw [hpc] at hown
        exact hown.elim
    | consumer pc =>
        rw [hpc] at hown hidle
        cases pc with
        | counting c pc =>
            exact hown.2.2
        | _ => exact hidle.elim

section Schedules

/-- Thread `t` makes its next `n` accesses. -/
def accesses (n : ℕ) (t : Option Bool) : List (Option Bool × Act ℕ) := List.replicate n (t, .access true)

def requisition (p : ℕ) : List (Option Bool × Act ℕ) := [(none, .requisition p ⟨fun _ => none, fun _ => true, 0⟩)]

/-- The first call takes four blocks, and the index array has entries for no more. -/
def fillArray (items : List ℕ) : List (Option Bool × Act ℕ) :=
  [(none, .enqueueBulk .canAlloc items)] ++ accesses 3 none ++ requisition 0 ++ accesses 8 none ++ requisition 1 ++
    accesses 9 none ++ requisition 2 ++ accesses 9 none ++ requisition 3 ++ accesses (13 + items.length) none

/-- The second call may not allocate and fails, and the third makes a larger array while two consumers dequeue. -/
def race : List (Option Bool × Act ℕ) :=
  let inTurn (n : ℕ) : List (Option Bool × Act ℕ) :=
    (List.replicate n [(none, .access true), (some true, .access true), (some false, .access true)]).flatten
  fillArray [1, 2, 3, 4, 5, 6, 7] ++ [(none, .enqueueBulk .cannotAlloc [8, 9])] ++ accesses 6 none ++
    [(none, .enqueueBulk .canAlloc [8, 9]), (some true, .call .dequeue), (some false, .call (.dequeueBulk 4))] ++
    inTurn 5 ++ requisition 4 ++ inTurn 10 ++ accesses 3 none ++ accesses 14 (some false)

/-- The second call takes the block that is empty again, makes a larger array and fails at the next block. -/
def lateFailure : List (Option Bool × Act ℕ) :=
  fillArray [1, 2, 3, 4, 5, 6, 7, 8] ++ [(some true, .call (.dequeueBulk 2))] ++ accesses 19 (some true) ++
    [(none, .enqueueBulk .canAlloc [9, 10, 11])] ++ accesses 12 none ++ [(none, .noBlock)] ++ accesses 1 none ++
    [(none, .enqueueBulk .canAlloc [9])] ++ accesses 5 none ++ requisition 4 ++ accesses 11 none ++
    [(some true, .call .dequeue)] ++ accesses 15 (some true)

theorem delivers_race : ∃ s : State Bool ℕ, s.memory.currentIndexEntryArray = 1 ∧
    s.memory.enqueued = [1, 2, 3, 4, 5, 6, 7, 8, 9] ∧
    s.memory.delivered.map (fun d => (d.thread, d.value)) = [(false, 5), (false, 4), (false, 3), (false, 2), (true, 1)] ∧
    Safe ⟨1, 1, by decide, by decide⟩ s := by
  have hrun : (Interleaving.runSchedule (threadStep ⟨1, 1, by decide, by decide⟩)
      (InRange ⟨1, 1, by decide, by decide⟩) race
      (start ⟨1, 1, by decide, by decide⟩ 0 (fun _ => ⟨fun _ => none, fun _ => true, 0⟩) : State Bool ℕ)).map
        (fun s => (s.memory.currentIndexEntryArray, s.memory.enqueued,
          s.memory.delivered.map fun d => (d.thread, d.value))) =
      some (1, [1, 2, 3, 4, 5, 6, 7, 8, 9], [(false, 5), (false, 4), (false, 3), (false, 2), (true, 1)]) := by
    decide +kernel
  obtain ⟨s, hs, hends⟩ := Option.map_eq_some_iff.mp hrun
  obtain ⟨harray, henqueued, hdelivered⟩ : s.memory.currentIndexEntryArray = 1 ∧
      s.memory.enqueued = [1, 2, 3, 4, 5, 6, 7, 8, 9] ∧ s.memory.delivered.map (fun d => (d.thread, d.value)) =
        [(false, 5), (false, 4), (false, 3), (false, 2), (true, 1)] := by
    simpa only [Prod.mk.injEq] using hends
  exact ⟨s, harray, henqueued, hdelivered, delivers (by decide)
    (Interleaving.reaches_of_schedule (fun _ _ _ _ => ThreadStep.of_threadStep _) hs)⟩

/-- After a call that fails with a block taken the entries of the new array are not where the next enqueue counts on
    them: the consumer of the third index gets the fifth element. -/
theorem not_delivers_lateFailure : ∃ s : State Bool ℕ,
    Reaches (Step ⟨1, 1, by decide, by decide⟩) (fun _ _ => True)
      (start ⟨1, 1, by decide, by decide⟩ 0 fun _ => ⟨fun _ => none, fun _ => true, 0⟩) s ∧
    s.memory.enqueued = [1, 2, 3, 4, 5, 6, 7, 8, 9] ∧
    s.memory.delivered.map (fun d => (d.index, d.value)) = [(2, 5), (1, 2), (0, 1)] := by
  have hrun : (Interleaving.runSchedule (threadStep ⟨1, 1, by decide, by decide⟩) (fun _ _ => True) lateFailure
      (start ⟨1, 1, by decide, by decide⟩ 0 (fun _ => ⟨fun _ => none, fun _ => true, 0⟩) : State Bool ℕ)).map
        (fun s => (s.memory.enqueued, s.memory.delivered.map fun d => (d.index, d.value))) =
      some ([1, 2, 3, 4, 5, 6, 7, 8, 9], [(2, 5), (1, 2), (0, 1)]) := by
    decide +kernel
  obtain ⟨s, hs, hends⟩ := Option.map_eq_some_iff.mp hrun
  obtain ⟨henqueued, hdelivered⟩ : s.memory.enqueued = [1, 2, 3, 4, 5, 6, 7, 8, 9] ∧
      s.memory.delivered.map (fun d => (d.index, d.value)) = [(2, 5), (1, 2), (0, 1)] := by
    simpa only [Prod.mk.injEq] using hends
  exact ⟨s, Interleaving.reaches_of_schedule (fun _ _ _ _ => ThreadStep.of_threadStep _) hs, henqueued, hdelivered⟩

end Schedules

end SharedFastQueue

end LockFreeStructures
