import LockFreeStructures.FastQueue.SharedInvariant
import LockFreeStructures.Queue.Numbering

/-!
# `FastQueue.SharedConsumer` — the consumers' steps
-/

namespace LockFreeStructures

namespace SharedFastQueue

variable {T α : Type} {cfg : Cfg} {m m' : Memory T α} {t t' : T} {l : ConsumerLocals} {a b d i k n p : ℕ}

/-! ## The elements a consumer has -/

section Has

theorem Has.nothing (h : Has t m a a a a) : Has t m 0 0 0 0 := by
  have hempty : ∀ {i}, a ≤ i ∧ i < a ↔ 0 ≤ i ∧ i < 0 := by
    intro i
    omega
  exact ⟨fun i => (h.destroyed i).trans hempty, fun i => (h.moved i).trans hempty, fun i => (h.claimed i).trans hempty⟩

theorem Has.claim (h : Has t m 0 0 0 0) (hphase : m'.phase = claim t i n m.phase) : Has t m' i i i (i + n) := by
  unfold SharedFastQueue.claim at hphase
  refine ⟨fun j => ?_, fun j => ?_, fun j => ?_⟩ <;> rw [hphase]
  · by_cases hj : i ≤ j ∧ j < i + n
    · rw [fill_of_mem hj]
      exact iff_of_false (by rintro ⟨⟩) (by omega)
    · rw [fill_of_notMem hj, h.destroyed]
      omega
  · by_cases hj : i ≤ j ∧ j < i + n
    · rw [fill_of_mem hj]
      exact iff_of_false (by rintro ⟨⟩) (by omega)
    · rw [fill_of_notMem hj, h.moved]
      omega
  · by_cases hj : i ≤ j ∧ j < i + n
    · rw [fill_of_mem hj]
      exact iff_of_true rfl hj
    · rw [fill_of_notMem hj, h.claimed]
      omega

theorem Has.move (h : Has t m a b b d) (hlt : b < d) (hphase : m'.phase = Function.update m.phase b (.moved t)) :
    Has t m' a b (b + 1) d := by
  refine ⟨fun j => ?_, fun j => ?_, fun j => ?_⟩ <;> rw [hphase] <;> by_cases hj : j = b
  · subst hj
    rw [Function.update_self]
    exact iff_of_false (by rintro ⟨⟩) (by omega)
  · rw [Function.update_of_ne hj, h.destroyed]
  · subst hj
    rw [Function.update_self]
    exact iff_of_true rfl (by omega)
  · rw [Function.update_of_ne hj, h.moved]
    omega
  · subst hj
    rw [Function.update_self]
    exact iff_of_false (by rintro ⟨⟩) (by omega)
  · rw [Function.update_of_ne hj, h.claimed]
    omega

theorem Has.destroy (h : Has t m a b (b + 1) d) (hle : a ≤ b)
    (hphase : m'.phase = Function.update m.phase b (.destroyed t)) : Has t m' a (b + 1) (b + 1) d := by
  refine ⟨fun j => ?_, fun j => ?_, fun j => ?_⟩ <;> rw [hphase] <;> by_cases hj : j = b
  · subst hj
    rw [Function.update_self]
    exact iff_of_true rfl (by omega)
  · rw [Function.update_of_ne hj, h.destroyed]
    omega
  · subst hj
    rw [Function.update_self]
    exact iff_of_false (by rintro ⟨⟩) (by omega)
  · rw [Function.update_of_ne hj, h.moved]
    omega
  · subst hj
    rw [Function.update_self]
    exact iff_of_false (by rintro ⟨⟩) (by omega)
  · rw [Function.update_of_ne hj, h.claimed]

theorem Has.setEmpty (h : Has t m a b b d) (hlt : a < b) (hphase : m'.phase = Function.update m.phase a .done) :
    Has t m' (a + 1) b b d := by
  refine ⟨fun j => ?_, fun j => ?_, fun j => ?_⟩ <;> rw [hphase] <;> by_cases hj : j = a
  · subst hj
    rw [Function.update_self]
    exact iff_of_false (by rintro ⟨⟩) (by omega)
  · rw [Function.update_of_ne hj, h.destroyed]
    omega
  · subst hj
    rw [Function.update_self]
    exact iff_of_false (by rintro ⟨⟩) (by omega)
  · rw [Function.update_of_ne hj, h.moved]
  · subst hj
    rw [Function.update_self]
    exact iff_of_false (by rintro ⟨⟩) (by omega)
  · rw [Function.update_of_ne hj, h.claimed]

end Has

/-! ## One element goes on -/

section Phases

variable [DecidableEq T]

omit [DecidableEq T] in
/-- A thread changes the phase of an element it has. -/
theorem Rely.setPhase {x : Phase T} (hold : (m.phase i).owner = some t) (hnew : ∀ t', x.owner = some t' → t' = t)
    (ht : t' ≠ t) (hcounters : m'.counters = m.counters) (hphase : m'.phase = Function.update m.phase i x)
    (harrays : m'.arrays = m.arrays) (hcurrent : m'.currentIndexEntryArray = m.currentIndexEntryArray)
    (hstarted : m'.started = m.started) (hblockOf : m'.blockOf = m.blockOf) : Rely cfg t' m m' where
  counters := by rw [hcounters]; exact .refl t' m.counters
  owned := by
    intro j hj
    rw [hphase] at hj ⊢
    by_cases hji : j = i
    · subst hji
      rw [Function.update_self] at hj
      rcases hj with hj | hj
      · rw [hold] at hj
        exact absurd (Option.some.inj hj).symm ht
      · exact absurd (hnew t' hj) ht
    · exact Function.update_of_ne hji _ _
  started := hstarted.ge
  blockOf := fun k _ => congrFun hblockOf k
  current := hcurrent.ge
  arrays := fun a _ => by rw [harrays]; exact ⟨rfl, rfl⟩
  based := fun a _ tail h => by rwa [harrays]
  tail := fun a _ h => by rwa [harrays]
  entry := fun a _ i _ => by rw [harrays]

/-- What holds after a step of consumer `t`. -/
structure Consumed (cfg : Cfg) (t : T) (m m' : Memory T α) (pc' : ConsumerPc) : Prop where
  inv : Inv cfg m'
  at_ : pc'.At cfg t m'
  rely : ∀ t' ≠ t, Rely cfg t' m m'
  producer : ProducerRely m m'

omit [DecidableEq T] in
theorem ProducerRely.refl (m : Memory T α) : ProducerRely m m :=
  ⟨⟨_, _, _, _, rfl⟩, rfl, fun _ => rfl, fun _ _ h => h, fun _ _ h => Or.inl h⟩

theorem Consumed.same (hm : Inv cfg m) {pc' : ConsumerPc} (hat : pc'.At cfg t m) : Consumed cfg t m m pc' := by
  refine ⟨hm, hat, fun t' _ => ?_, .refl m⟩
  exact ⟨.refl t' m.counters, fun _ _ => rfl, le_rfl, fun _ _ => rfl, le_rfl, fun _ _ => ⟨rfl, rfl⟩, fun _ _ _ h => h,
    fun _ _ h => h, fun _ _ _ _ => rfl⟩

/-! What changes with the phase of one element. -/

section Update

variable {x : Phase T}

omit [DecidableEq T] in
theorem update_waiting (hn : m.phase n ≠ .waiting) (hx : x ≠ .waiting) (i : ℕ) :
    Function.update m.phase n x i = .waiting ↔ m.phase i = .waiting := by
  by_cases hi : i = n
  · subst hi
    rw [Function.update_self]
    exact iff_of_false hx hn
  · rw [Function.update_of_ne hi]

omit [DecidableEq T] in
theorem update_done (hn : m.phase n ≠ .done ∨ x = .done) (hi : m.phase i = .done) :
    Function.update m.phase n x i = .done := by
  by_cases hin : i = n
  · subst hin
    rw [Function.update_self]
    exact hn.resolve_left fun hne => hne hi
  · rwa [Function.update_of_ne hin]

omit [DecidableEq T] in
theorem update_claimed (hx : x ≠ .claimed t) (hi : Function.update m.phase n x i = .claimed t) :
    i ≠ n ∧ m.phase i = .claimed t := by
  have hin : i ≠ n := by
    rintro rfl
    rw [Function.update_self] at hi
    exact hx hi
  rw [Function.update_of_ne hin] at hi
  exact ⟨hin, hi⟩

omit [DecidableEq T] in
theorem update_out (hx : x.Out ↔ (m.phase n).Out) (i : ℕ) : (Function.update m.phase n x i).Out ↔ (m.phase i).Out := by
  by_cases hi : i = n
  · subst hi
    rwa [Function.update_self]
  · rw [Function.update_of_ne hi]

omit [DecidableEq T] in
theorem update_live (hx : x.Live → (m.phase n).Live) (hi : (Function.update m.phase n x i).Live) :
    (m.phase i).Live := by
  by_cases hin : i = n
  · subst hin
    rw [Function.update_self] at hi
    exact hx hi
  · rwa [Function.update_of_ne hin] at hi

end Update

/-- **An element is moved out.** -/
theorem Inv.move {x : α} (h : Inv cfg m) (hclaimed : ∀ i, m.phase i = .claimed t → n ≤ i)
    (hn : m.phase n = .claimed t) (hx : m.written[n]? = some x) :
    Inv cfg { m.setPhase n (.moved t) with delivered := ⟨t, n, x⟩ :: m.delivered } := by
  have hlt : n < m.enqueued.length := by
    rw [h.elements.enqueued]
    exact h.lt_tailIndex (by rw [hn]; rintro ⟨⟩)
  have hvalue : m.enqueued[n]? = some x := by
    obtain ⟨rest, hrest⟩ := h.elements.written
    rw [← hrest, List.getElem?_append_left hlt] at hx
    exact hx
  -- a claimed element was not delivered yet
  have hfresh : ∀ d ∈ m.delivered, d.index ≠ n := by
    intro d hd hindex
    have hout := (h.deliveries.out n).mpr ⟨d, hd, hindex⟩
    rw [hn] at hout
    exact hout
  refine ⟨h.counters, { h.ring with }, { h.index with }, ?_, ?_⟩
  · have hdone : ∀ {i}, m.phase i = .done → Function.update m.phase n (.moved t) i = .done :=
      update_done (Or.inl (by rw [hn]; rintro ⟨⟩))
    refine { h.elements with
      waiting := fun i => ?_, early := fun i hi => hdone (h.elements.early i hi)
      element := fun i y hy hlive => h.elements.element i y hy (update_live ?_ hlive)
      flag := fun j hj hj' c hc hflag => hdone (h.elements.flag j hj hj' c hc hflag) }
    · exact (update_waiting (by rw [hn]; rintro ⟨⟩) (by rintro ⟨⟩) i).trans (h.elements.waiting i)
    · rw [hn]
      exact id
  · refine ⟨fun d hd => ?_, fun i => ?_, ?_, ?_, fun d hd i hi => ?_⟩
    · rcases List.mem_cons.mp hd with rfl | hd
      · exact hvalue
      · exact h.deliveries.value d hd
    · show (Function.update m.phase n (.moved t) i).Out ↔ ∃ d ∈ ⟨t, n, x⟩ :: m.delivered, d.index = i
      by_cases hi : i = n
      · subst hi
        rw [Function.update_self]
        exact iff_of_true trivial ⟨_, List.mem_cons_self, rfl⟩
      · rw [Function.update_of_ne hi, h.deliveries.out]
        constructor
        · rintro ⟨d, hd, hindex⟩
          exact ⟨d, List.mem_cons_of_mem _ hd, hindex⟩
        · rintro ⟨d, hd, hindex⟩
          rcases List.mem_cons.mp hd with rfl | hd
          · exact absurd hindex.symm hi
          · exact ⟨d, hd, hindex⟩
    · refine List.nodup_cons.mpr ⟨fun hmem => ?_, h.deliveries.once⟩
      obtain ⟨d, hd, hindex⟩ := List.mem_map.mp hmem
      exact hfresh d hd hindex
    · refine List.pairwise_cons.mpr ⟨fun d hd hthread => ?_, h.deliveries.ordered⟩
      exact h.deliveries.later d hd n (by rw [hn, ← hthread])
    · obtain ⟨hne, hold⟩ := update_claimed (by rintro ⟨⟩) hi
      rcases List.mem_cons.mp hd with rfl | hd
      · exact Nat.lt_of_le_of_ne (hclaimed i hold) (Ne.symm hne)
      · exact h.deliveries.later d hd i hold

/-- **A moved element is destroyed.** -/
theorem Inv.destroy (h : Inv cfg m) (hi : i < cfg.blockSize) (hphase : m.phase (k * cfg.blockSize + i) = .moved t) :
    Inv cfg ((m.setElement (m.blockOf k) i none).setPhase (k * cfg.blockSize + i) (.destroyed t)) := by
  have hdiv := Cfg.pos_div (k := k) hi
  have hmod := Cfg.pos_mod (k := k) hi
  obtain ⟨hk, hk'⟩ := h.indexed (i := k * cfg.blockSize + i) (by rw [hphase]; rintro ⟨⟩) (by rw [hphase]; rintro ⟨⟩)
  rw [hdiv] at hk hk'
  have hle := h.index.indexed_le
  have hdone : ∀ {j}, m.phase j = .done → Function.update m.phase (k * cfg.blockSize + i) (.destroyed t) j = .done :=
    update_done (Or.inl (by rw [hphase]; rintro ⟨⟩))
  refine ⟨h.counters, { h.ring with next := fun j hj hj' => ?_, last := fun hstarted => ?_ }, { h.index with }, ?_, ?_⟩
  · exact (next_setElement _).trans (h.ring.next j hj hj')
  · exact (next_setElement _).trans (h.ring.last hstarted)
  · refine { h.elements with
      waiting := fun j => ?_, early := fun j hj => hdone (h.elements.early j hj), element := fun j y hy hlive => ?_
      flag := fun j hj hj' c hc hflag => hdone (h.elements.flag j hj hj' c hc ?_) }
    · exact (update_waiting (m := m) (by rw [hphase]; rintro ⟨⟩) (by rintro ⟨⟩) j).trans (h.elements.waiting j)
    · have hold : (m.phase j).Live := update_live (x := .destroyed t) False.elim hlive
      refine Eq.trans (elements_setElement_of_ne none ?_) (h.elements.element j y hy hold)
      -- another element is in another block or in another slot
      by_contra hsame
      rw [not_or, not_not, not_not] at hsame
      obtain ⟨hblock, hslot⟩ := hsame
      have hlt : j / cfg.blockSize < m.indexed := by
        obtain ⟨hj, -⟩ := List.getElem?_eq_some_iff.mp hy
        apply Nat.div_lt_of_lt_mul
        rw [Nat.mul_comm]
        exact Nat.lt_of_lt_of_le hj h.elements.written_le
      have hblocks := h.ring.eq_of_blockOf (h.elements.oldest_le hold.ne_done) (hlt.trans_le hle) hk
        (hk'.trans_le hle) hblock
      have hdivmod := Nat.div_add_mod j cfg.blockSize
      rw [hblocks, hslot, Nat.mul_comm] at hdivmod
      subst hdivmod
      replace hlive :
          (Function.update m.phase (k * cfg.blockSize + i) (.destroyed t) (k * cfg.blockSize + i)).Live := hlive
      rw [Function.update_self] at hlive
      exact hlive
    · replace hflag : ((m.setElement (m.blockOf k) i none).blocks (m.blockOf j)).flags c = true := hflag
      rwa [flags_setElement] at hflag
  · refine { h.deliveries with
      out := fun j => Iff.trans (update_out (m := m) ?_ j) (h.deliveries.out j)
      later := fun d hd j hj => h.deliveries.later d hd j (update_claimed ?_ hj).2 }
    · rw [hphase]
      exact Iff.rfl
    · rintro ⟨⟩

/-- **The flag of a destroyed element is set.** -/
theorem Inv.setEmpty (h : Inv cfg m) (hi : i < cfg.blockSize)
    (hphase : m.phase (k * cfg.blockSize + i) = .destroyed t) :
    Inv cfg ((m.setFlag (m.blockOf k) i true).setPhase (k * cfg.blockSize + i) .done) := by
  have hdiv := Cfg.pos_div (k := k) hi
  have hmod := Cfg.pos_mod (k := k) hi
  obtain ⟨hk, hk'⟩ := h.indexed (i := k * cfg.blockSize + i) (by rw [hphase]; rintro ⟨⟩) (by rw [hphase]; rintro ⟨⟩)
  rw [hdiv] at hk hk'
  have hle := h.index.indexed_le
  have hdone : ∀ {j}, m.phase j = .done → Function.update m.phase (k * cfg.blockSize + i) .done j = .done :=
    update_done (Or.inr rfl)
  refine ⟨h.counters, { h.ring with next := fun j hj hj' => ?_, last := fun hstarted => ?_ }, { h.index with }, ?_, ?_⟩
  · exact (next_setFlag _).trans (h.ring.next j hj hj')
  · exact (next_setFlag _).trans (h.ring.last hstarted)
  · refine { h.elements with
      waiting := fun j => ?_, early := fun j hj => hdone (h.elements.early j hj), element := fun j y hy hlive => ?_
      flag := fun j hj hj' c hc hflag => ?_ }
    · exact (update_waiting (m := m) (by rw [hphase]; rintro ⟨⟩) (by rintro ⟨⟩) j).trans (h.elements.waiting j)
    · have hold : (m.phase j).Live := update_live (x := .done) False.elim hlive
      refine Eq.trans (congrFun ?_ _) (h.elements.element j y hy hold)
      exact elements_setFlag true
    · replace hflag : ((m.setFlag (m.blockOf k) i true).blocks (m.blockOf j)).flags c = true := hflag
      by_cases hsame : m.blockOf j = m.blockOf k ∧ c = i
      · obtain ⟨hblock, rfl⟩ := hsame
        obtain rfl := h.ring.eq_of_blockOf hj (hj'.trans_le hle) hk (hk'.trans_le hle) hblock
        exact Function.update_self ..
      · rw [flags_setFlag_of_ne true (not_and_or.mp hsame)] at hflag
        exact hdone (h.elements.flag j hj hj' c hc hflag)
  · refine { h.deliveries with
      out := fun j => Iff.trans (update_out (m := m) ?_ j) (h.deliveries.out j)
      later := fun d hd j hj => h.deliveries.later d hd j (update_claimed ?_ hj).2 }
    · rw [hphase]
      exact Iff.rfl
    · rintro ⟨⟩

/-- **Indices are claimed.** -/
theorem Inv.claim (h : Inv cfg m) {counters : DequeueCounters.Memory T}
    (hcounters : DequeueCounters.Inv cfg.w counters)
    (htail : counters.tailIndex = m.counters.tailIndex) (hhead : counters.headIndex = m.counters.headIndex + n)
    (t : T) : Inv cfg { m with counters := counters, phase := claim t m.counters.headIndex n m.phase } := by
  -- no one has had an element from `HeadIndex` on
  have hwaiting : ∀ {i}, m.counters.headIndex ≤ i ∧ i < m.counters.headIndex + n → m.phase i = .waiting :=
    fun hi => (h.elements.waiting _).mpr hi.1
  have hdone : ∀ {i}, m.phase i = .done → SharedFastQueue.claim t m.counters.headIndex n m.phase i = .done := by
    intro i hi
    refine (fill_of_notMem fun hmem => ?_).trans hi
    rw [hwaiting hmem] at hi
    cases hi
  refine ⟨hcounters, { h.ring with }, { h.index with tail := fun hpos => h.index.tail (htail ▸ hpos) }, ?_, ?_⟩
  · refine { h.elements with
      enqueued := h.elements.enqueued.trans htail.symm, waiting := fun i => ?_
      early := fun i hi => hdone (h.elements.early i hi), element := fun i y hy hlive => h.elements.element i y hy ?_
      flag := fun j hj hj' c hc hflag => hdone (h.elements.flag j hj hj' c hc hflag) }
    · show SharedFastQueue.claim t m.counters.headIndex n m.phase i = .waiting ↔ counters.headIndex ≤ i
      rw [hhead]
      unfold SharedFastQueue.claim
      by_cases hi : m.counters.headIndex ≤ i ∧ i < m.counters.headIndex + n
      · rw [fill_of_mem hi]
        exact iff_of_false (by rintro ⟨⟩) (by omega)
      · rw [fill_of_notMem hi, h.elements.waiting]
        omega
    · replace hlive : (SharedFastQueue.claim t m.counters.headIndex n m.phase i).Live := hlive
      unfold SharedFastQueue.claim at hlive
      by_cases hi : m.counters.headIndex ≤ i ∧ i < m.counters.headIndex + n
      · rw [hwaiting hi]
        trivial
      · rwa [fill_of_notMem hi] at hlive
  · refine { h.deliveries with out := fun i => Iff.trans ?_ (h.deliveries.out i), later := fun d hd i hi => ?_ }
    · show (SharedFastQueue.claim t m.counters.headIndex n m.phase i).Out ↔ _
      unfold SharedFastQueue.claim
      by_cases hi : m.counters.headIndex ≤ i ∧ i < m.counters.headIndex + n
      · rw [fill_of_mem hi, hwaiting hi]
        exact Iff.rfl
      · rw [fill_of_notMem hi]
    · replace hi : SharedFastQueue.claim t m.counters.headIndex n m.phase i = .claimed d.thread := hi
      unfold SharedFastQueue.claim at hi
      by_cases hmem : m.counters.headIndex ≤ i ∧ i < m.counters.headIndex + n
      · -- what was delivered was claimed before
        have hout := (h.deliveries.out d.index).mpr ⟨d, hd, rfl⟩
        refine Nat.lt_of_lt_of_le ?_ hmem.1
        by_contra hle
        rw [(h.elements.waiting d.index).mpr (Nat.not_lt.mp hle)] at hout
        exact hout
      · rw [fill_of_notMem hmem] at hi
        exact h.deliveries.later d hd i hi

end Phases

/-! ## The steps -/

section Steps

variable [DecidableEq T] {c c' : DequeueCounters.Call} {pc' : ConsumerPc} {tailFirst : Bool}

/-- The indices an access claims are there, and `HeadIndex` does not wrap. -/
theorem indices_of_access {w : ℕ} {counters counters' : DequeueCounters.Memory T} {pc pc' : DequeueCounters.Pc}
    (hat : pc.At t counters) (hm : DequeueCounters.Inv w counters)
    (hs : DequeueCounters.access w t tailFirst counters pc = some (counters', pc')) :
    counters'.tailIndex = counters.tailIndex ∧ counters'.headIndex = counters.headIndex + claimed pc := by
  cases pc with
  | idle => cases hs
  | addHeadIndex attempts actual =>
      cases hs
      have hle : counters.headIndex + actual ≤ counters.tailIndex := (hm.take hat.2 hat.1).head_le
      have hlt := hle.trans_lt (hm.tailIndex_lt.trans_le (DequeueCounters.two_pow_pred_le w))
      exact ⟨rfl, Word.add_of_lt hlt⟩
  | _ =>
      cases hs
      exact ⟨rfl, rfl⟩

/-- The first test is passed only if something has been enqueued. -/
theorem pos_of_desiredCount {w failed attempts tail desired : ℕ} (hw : 0 < w) (hle : failed ≤ attempts)
    (hattempts : attempts < 2 ^ (w - 1)) (htail : tail < 2 ^ (w - 1))
    (h : c.desiredCount w failed attempts tail = some desired) : 0 < tail := by
  have hpassed := DequeueCounters.circularLessThan_sub_iff hw hle hattempts htail
  cases c with
  | dequeue =>
      simp only [DequeueCounters.Call.desiredCount] at h
      split at h
      · next hlt =>
        have hbelow := hpassed.mp hlt
        omega
      · cases h
  | dequeueBulk maxCount =>
      simp only [DequeueCounters.Call.desiredCount, circularLessThan_zero_sub hw] at h
      split at h
      · next hlt =>
        have hbelow := hpassed.mp hlt
        omega
      · cases h

omit [DecidableEq T] in
theorem Counting.tested {w : ℕ} {m : DequeueCounters.Memory T} {failed attempts tail : ℕ} (hw : 0 < w)
    (hle : failed ≤ attempts) (hattempts : attempts < 2 ^ (w - 1)) (hlt : m.tailIndex < 2 ^ (w - 1))
    (htail : tail ≤ m.tailIndex) : Counting w c m (c.tested w failed attempts tail) := by
  unfold DequeueCounters.Call.tested
  split
  · trivial
  · next hdesired =>
    exact ⟨rfl, (pos_of_desiredCount hw hle hattempts (htail.trans_lt hlt) hdesired).trans_le htail⟩

theorem Counting.retested {w : ℕ} {m : DequeueCounters.Memory T} {failed desired attempts : ℕ} (hw : 0 < w)
    (hm : DequeueCounters.Inv w m) (hfits : c.Fits desired) (hfailed : failed ≤ m.failedBelow attempts)
    (hholds : DequeueCounters.Holds t m attempts desired) (hpos : 0 < m.tailIndex) :
    Counting w c m (c.retested w failed desired attempts m.tailIndex) := by
  have hbelow := m.failedBelow_le attempts
  have hall := hholds.le
  have hattempts := hm.attemptsCount_lt
  unfold DequeueCounters.Call.retested
  split
  · exact hpos
  · next actual hactual =>
    obtain ⟨hle, -⟩ := DequeueCounters.Call.actualCount_le hw (hfailed.trans hbelow) (by omega) hm.tailIndex_lt hfits
      hactual
    have hsingle : c = .dequeue → actual ≤ 1 := by
      rintro rfl
      exact hle.trans (le_of_eq hfits)
    split
    · exact ⟨hsingle, hpos⟩
    · exact ⟨hsingle, hpos⟩

theorem Counting.access {w : ℕ} {counters counters' : DequeueCounters.Memory T} {pc pc' : DequeueCounters.Pc}
    (h : Counting w c counters pc) (hw : 0 < w) (hat : pc.At t counters) (hm : DequeueCounters.Inv w counters)
    (hs : DequeueCounters.access w t tailFirst counters pc = some (counters', pc')) : Counting w c counters' pc' := by
  have hfailed : counters.dequeueFailedCount ≤ counters.dequeueAttemptsCount :=
    hm.failed.le.trans (counters.failedBelow_le _)
  cases pc with
  | idle => cases hs
  | loadFailedCount =>
      cases hs
      exact h
  | loadCounts =>
      cases hs
      split
      · exact ⟨h, le_rfl⟩
      · exact ⟨h, hat.1.trans hfailed, hm.attemptsCount_lt⟩
  | loadTailIndex =>
      cases hs
      obtain ⟨rfl, hle, hattempts⟩ := h
      exact .tested hw hle hattempts hm.tailIndex_lt le_rfl
  | loadAttemptsCount =>
      cases hs
      obtain ⟨rfl, hle⟩ := h
      exact .tested hw (hat.1.trans hfailed) hm.attemptsCount_lt hm.tailIndex_lt hle
  | addAttempts =>
      cases hs
      exact h
  | reloadTailIndex =>
      cases hs
      obtain ⟨rfl, hpos⟩ := h
      exact .retested hw hm hat.1 hat.2.1 hat.2.2 hpos
  | addFailed =>
      cases hs
      exact h
  | addHeadIndex | giveUp =>
      cases hs
      trivial

theorem ConsumerPc.At.counting {pc : DequeueCounters.Pc} (h : (ConsumerPc.counting c pc).At cfg t m)
    (hm : Inv cfg m) (hrange : pc.InRange cfg.w m.counters)
    (hs : consume cfg t tailFirst m (.counting c pc) = some (m', pc')) : Consumed cfg t m m' pc' := by
  obtain ⟨hat, hcounting, hhas⟩ := h
  obtain ⟨⟨counters, dpc⟩, hacc, heq⟩ := Option.map_eq_some_iff.mp hs
  cases heq
  obtain ⟨hcounters, hat', hrely⟩ := hat.access cfg.w_pos hm.counters hrange hacc
  obtain ⟨htail, hhead⟩ := indices_of_access hat hm.counters hacc
  have hcounting' := hcounting.access cfg.w_pos hat hm.counters hacc
  refine ⟨hm.claim hcounters htail hhead t, ?_, fun t' ht => ?_, ⟨⟨counters, m.blocks, _, m.delivered, rfl⟩, htail,
    fun _ => rfl, fun _ _ h => h, fun _ _ h => Or.inl h⟩⟩
  · cases pc with
    -- the only access that claims elements
    | addHeadIndex attempts actual =>
        have hclaimed : Has t { m with
            counters := counters, phase := claim t m.counters.headIndex actual m.phase } _ _ _ _ :=
          hhas.claim rfl
        cases hacc
        exact ⟨⟨hat', hcounting.2, hcounting.1⟩, hclaimed, rfl⟩
    | _ =>
        refine ⟨hat', hcounting', ?_⟩
        have hsame : claim t m.counters.headIndex 0 m.phase = m.phase := by
          funext i
          exact fill_of_notMem (by omega)
        exact ⟨fun i => by rw [← hhas.destroyed i]; exact iff_of_eq (congrArg (· = _) (congrFun hsame i)),
          fun i => by rw [← hhas.moved i]; exact iff_of_eq (congrArg (· = _) (congrFun hsame i)),
          fun i => by rw [← hhas.claimed i]; exact iff_of_eq (congrArg (· = _) (congrFun hsame i))⟩
  · refine ⟨hrely t' ht, fun i hi => ?_, le_rfl, fun _ _ => rfl, le_rfl, fun _ _ => ⟨rfl, rfl⟩, fun _ _ _ h => h,
      fun _ _ h => h, fun _ _ _ _ => rfl⟩
    -- an element of another thread is not among those claimed
    refine fill_of_notMem fun hmem => ?_
    have hwaiting := (hm.elements.waiting i).mpr hmem.1
    have hclaimed : claim t m.counters.headIndex (claimed pc) m.phase i = .claimed t := fill_of_mem hmem
    dsimp only at hi
    rw [hwaiting, hclaimed] at hi
    rcases hi with hi | hi
    · cases hi
    · exact ht (Option.some.inj hi).symm

omit [DecidableEq T] in
/-- **Lookup.** From the entry of any block the offset leads to the entry of the block index `i` is in. -/
theorem IndexEntryArray.Sized.slot_offset {a : IndexEntryArray} (h : a.Sized cfg) (k i : ℕ) :
    Word.add cfg.w (a.slot k)
        (Word.sub cfg.w (Word.alignDown cfg.blockSizeLog2 i) (k * cfg.blockSize) / cfg.blockSize) % a.size =
      a.slot (i / cfg.blockSize) := by
  have hdvd := h.dvd
  have hmod : a.size ∣ 2 ^ cfg.w := (Nat.dvd_mul_right ..).trans hdvd
  have hslot : a.slot k ≡ a.shift + k [MOD a.size] := by
    unfold IndexEntryArray.slot
    rw [Nat.add_comm]
    exact Nat.mod_modEq _ _
  have hlookup := add_sub_div_modEq (k := i / cfg.blockSize) (m := k) hdvd cfg.blockSizeLog2_le hslot
  have hwords : Word.sub cfg.w (i / cfg.blockSize * cfg.blockSize) (k * cfg.blockSize) =
      Word.sub cfg.w (i / cfg.blockSize * cfg.blockSize % 2 ^ cfg.w) (k * cfg.blockSize % 2 ^ cfg.w) := by
    rw [Word.sub, Word.sub, Nat.mod_add_mod, Nat.mod_mod]
  rw [Word.add, Nat.mod_mod_of_dvd _ hmod, Word.alignDown_eq]
  change (_ + Word.sub cfg.w (i / cfg.blockSize * cfg.blockSize) _ / _) % _ = _
  rw [hwords]
  refine Eq.trans hlookup ?_
  rw [Nat.add_comm]
  rfl

theorem ConsumerPc.At.readBlock {array tail base : ℕ} (h : (ConsumerPc.readBlock l array tail base).At cfg t m)
    (hm : Inv cfg m) (hs : consume cfg t tailFirst m (.readBlock l array tail base) = some (m', pc')) :
    Consumed cfg t m m' pc' := by
  obtain ⟨hreading, hhas, hstart, hfound, k, rfl, rfl⟩ := h
  cases hs
  refine .same hm ⟨hreading, hhas, fun hneed => ?_⟩
  have hclaimed : m.phase l.index = .claimed t := (hhas.claimed l.index).mpr ⟨le_rfl, Nat.lt_add_of_pos_right hneed⟩
  -- the array may have been replaced since, but it has the entries of what the thread has claimed
  have hindexed := hm.div_lt (i := l.index) (by rw [hclaimed]; rintro ⟨⟩)
  refine ⟨l.index / cfg.blockSize, hindexed.trans_le hm.index.indexed_le, ?_, ?_, ?_⟩
  · rw [hfound.sized.slot_offset]
    exact hfound.entry l.index hclaimed
  · rw [hstart, Nat.mul_comm]
    exact Nat.div_add_mod ..
  · rw [hstart]
    exact Nat.mod_lt _ cfg.blockSize_pos

theorem ConsumerPc.At.block {q : Option ℕ} (h : (ConsumerPc.block l q).At cfg t m) (hm : Inv cfg m)
    (hs : consume cfg t tailFirst m (.block l q) = some (m', pc')) : Consumed cfg t m m' pc' := by
  obtain ⟨hreading, hhas, hblock⟩ := h
  unfold consume at hs
  dsimp only at hs
  split at hs
  · next hneed =>
    cases hs
    rw [hneed] at hhas
    exact .same hm ⟨hreading.holds, trivial, hhas.nothing⟩
  · next hneed =>
    obtain ⟨k, hk, rfl, hindex, hstart⟩ := hblock (Nat.pos_of_ne_zero hneed)
    cases hs
    refine .same hm ⟨{ hreading with }, k, ⟨hk, rfl, hindex, ?_, le_rfl, ?_, ?_, ?_⟩, ?_, ?_⟩
    · dsimp only
      split <;> omega
    · dsimp only
      split <;> omega
    · dsimp only
      split <;> omega
    · dsimp only
      split
      · next hlt => exact Or.inr ⟨rfl, hlt⟩
      · next hge => exact Or.inl (by omega)
    · dsimp only
      split <;> omega
    · show Has t m (k * cfg.blockSize + l.startIndex) l.index l.index (l.index + l.needCount)
      rw [hindex]
      exact hhas

omit [DecidableEq T] in
theorem InBlock.need_pos {k : ℕ} (h : InBlock cfg l p m k) (hlt : l.currentIndex < l.endIndex) : 0 < l.needCount := by
  rcases h.need with hneed | ⟨-, hneed⟩ <;> omega

theorem ConsumerPc.At.move (h : (ConsumerPc.move l p).At cfg t m) (hm : Inv cfg m)
    (hs : consume cfg t tailFirst m (.move l p) = some (m', pc')) : Consumed cfg t m m' pc' := by
  obtain ⟨hreading, k, hblock, hlt, hhas⟩ := h
  have hneed := hblock.need_pos hlt
  have hclaimed : m.phase l.index = .claimed t := (hhas.claimed l.index).mpr ⟨le_rfl, Nat.lt_add_of_pos_right hneed⟩
  have hdiv := Cfg.pos_div (k := k) (hlt.trans_le hblock.end_le)
  have hmod := Cfg.pos_mod (k := k) (hlt.trans_le hblock.end_le)
  rw [hblock.index] at hdiv hmod
  obtain ⟨x, hx, heq⟩ := Option.map_eq_some_iff.mp hs
  cases heq
  -- what is in the slot is what was written there
  have hwritten : m.written[l.index]? = some x := by
    have hlength : l.index < m.written.length :=
      (hm.lt_tailIndex (by rw [hclaimed]; rintro ⟨⟩)).trans_le hm.elements.tailIndex_le
    obtain ⟨y, hy⟩ : ∃ y, m.written[l.index]? = some y := ⟨_, List.getElem?_eq_getElem hlength⟩
    have hvalue := hm.elements.element l.index y hy (by rw [hclaimed]; trivial)
    rw [hdiv, hmod, ← hblock.block, hx] at hvalue
    exact hy.trans hvalue.symm
  refine ⟨hm.move (fun i hi => ((hhas.claimed i).mp hi).1) hclaimed hwritten, ?_, fun t' ht => ?_, ?_⟩
  · refine ⟨⟨hreading.holds, hreading.pos, hreading.single⟩, k, { hblock with }, hlt, ?_⟩
    exact hhas.move (Nat.lt_add_of_pos_right hneed) rfl
  · exact .setPhase (x := .moved t) (by rw [hclaimed]; rfl) (fun t'' ht'' => (Option.some.inj ht'').symm) ht rfl rfl
      rfl rfl rfl rfl
  · exact ⟨⟨m.counters, m.blocks, _, _, rfl⟩, rfl, fun _ => rfl, fun _ _ h => h, fun _ _ h => Or.inl h⟩

theorem ConsumerPc.At.destroy (h : (ConsumerPc.destroy l p).At cfg t m) (hm : Inv cfg m)
    (hs : consume cfg t tailFirst m (.destroy l p) = some (m', pc')) : Consumed cfg t m m' pc' := by
  obtain ⟨hreading, k, hblock, hlt, hhas⟩ := h
  have hneed := hblock.need_pos hlt
  have hstart := hblock.start_le
  have hindex := hblock.index
  have hmoved : m.phase l.index = .moved t := (hhas.moved l.index).mpr ⟨le_rfl, Nat.lt_succ_self _⟩
  -- the thread goes on to the next slot of the block
  have hinv := hm.destroy (hlt.trans_le hblock.end_le) (hindex.symm ▸ hmoved)
  rw [hindex] at hinv
  have hhas' : Has t ((m.setElement p l.currentIndex none).setPhase l.index (.destroyed t)) _ _ _ _ :=
    hhas.destroy (by omega) rfl
  rw [show l.index + l.needCount = l.index + 1 + (l.needCount - 1) by omega] at hhas'
  have hneed' : l.needCount - 1 = l.endIndex - (l.currentIndex + 1) ∨
      l.endIndex = cfg.blockSize ∧ l.endIndex - (l.currentIndex + 1) < l.needCount - 1 := by
    rcases hblock.need with hneed' | ⟨hend, hneed'⟩
    · exact Or.inl (by omega)
    · exact Or.inr ⟨hend, by omega⟩
  let l' : ConsumerLocals :=
    { l with index := l.index + 1, needCount := l.needCount - 1, currentIndex := l.currentIndex + 1 }
  have hreading' : Reading t ((m.setElement p l.currentIndex none).setPhase l.index (.destroyed t)) l' :=
    ⟨hreading.holds, hreading.pos, fun hcall => (Nat.sub_le ..).trans (hreading.single hcall)⟩
  have hblock' : InBlock cfg l' p ((m.setElement p l.currentIndex none).setPhase l.index (.destroyed t)) k :=
    ⟨hblock.started, hblock.block, congrArg (· + 1) hindex, hblock.start_lt, hstart.trans (Nat.le_succ _), hlt,
      hblock.end_le, hneed'⟩
  obtain ⟨x, -, heq⟩ := Option.map_eq_some_iff.mp hs
  cases heq
  refine ⟨hblock.block ▸ hinv, ?_, fun t' ht => ?_, ?_⟩
  · split
    · next hend =>
      split
      · next hcall =>
        -- no element is left
        have hsingle : l'.needCount = 0 := by
          have hle := hreading.single hcall
          show l.needCount - 1 = 0
          omega
        refine ⟨hreading', k, hblock', hend, le_rfl, hblock.start_lt, hhas', fun hleft => ?_⟩
        exact absurd hsingle (Nat.ne_of_gt hleft)
      · exact ⟨hreading', k, hblock', hend, hhas'⟩
    · next hend => exact ⟨hreading', k, hblock', Nat.lt_of_le_of_ne hlt hend, hhas'⟩
  · exact .setPhase (x := .destroyed t) (by rw [hmoved]; rfl) (fun t'' ht'' => (Option.some.inj ht'').symm) ht rfl rfl
      rfl rfl rfl rfl
  · refine ⟨⟨m.counters, _, _, m.delivered, rfl⟩, rfl, fun q => next_setElement none, fun q j hq => ?_, fun q j hq => ?_⟩
    · exact (congrFun (flags_setElement none) j).trans hq
    · exact Or.inl ((congrFun (flags_setElement none) j).symm.trans hq)

theorem ConsumerPc.At.readNext (h : (ConsumerPc.readNext l p).At cfg t m) (hm : Inv cfg m)
    (hs : consume cfg t tailFirst m (.readNext l p) = some (m', pc')) : Consumed cfg t m m' pc' := by
  obtain ⟨hreading, k, hblock, hend, hhas⟩ := h
  cases hs
  refine .same hm ⟨hreading, k, hblock, hend, le_rfl, hblock.start_lt, hhas, fun hneed => ?_⟩
  have hindex := hblock.index
  have hend_le := hblock.end_le
  have hstart := hblock.start_lt
  have hfull : l.endIndex = cfg.blockSize := by
    rcases hblock.need with hnone | ⟨hfull, -⟩
    · omega
    · exact hfull
  -- the element just destroyed keeps this block in the ring, and the next one claimed is in the next block
  have hdestroyed : m.phase (k * cfg.blockSize + l.startIndex) = .destroyed t :=
    (hhas.destroyed _).mpr ⟨le_rfl, by omega⟩
  obtain ⟨hk, -⟩ := hm.indexed (by rw [hdestroyed]; rintro ⟨⟩) (by rw [hdestroyed]; rintro ⟨⟩)
  rw [Cfg.pos_div (hstart.trans_le hend_le)] at hk
  have hclaimed : m.phase l.index = .claimed t := (hhas.claimed l.index).mpr ⟨le_rfl, Nat.lt_add_of_pos_right hneed⟩
  have hnext := hm.div_lt (i := l.index) (by rw [hclaimed]; rintro ⟨⟩)
  have hdiv : l.index / cfg.blockSize = k + 1 := by
    rw [← hindex, hend, hfull, ← Nat.succ_mul, Nat.mul_div_cancel _ cfg.blockSize_pos]
  rw [hdiv] at hnext
  have hstarted := hnext.trans_le hm.index.indexed_le
  refine ⟨hstarted, ?_⟩
  rw [hblock.block]
  exact hm.ring.next k hk hstarted

theorem ConsumerPc.At.setEmpty {next : ℕ} (h : (ConsumerPc.setEmpty l p next i).At cfg t m) (hm : Inv cfg m)
    (hs : consume cfg t tailFirst m (.setEmpty l p next i) = some (m', pc')) : Consumed cfg t m m' pc' := by
  obtain ⟨hreading, k, hblock, hend, hle, hlt, hhas, hnext⟩ := h
  have hindex := hblock.index
  have hend_le := hblock.end_le
  have hi : i < cfg.blockSize := hlt.trans_le hend_le
  have hghost : l.index + i - l.endIndex = k * cfg.blockSize + i := by omega
  have hdestroyed : m.phase (k * cfg.blockSize + i) = .destroyed t := (hhas.destroyed _).mpr ⟨le_rfl, by omega⟩
  have hinv := hm.setEmpty hi hdestroyed
  obtain ⟨hk, hk'⟩ := hm.indexed (by rw [hdestroyed]; rintro ⟨⟩) (by rw [hdestroyed]; rintro ⟨⟩)
  rw [Cfg.pos_div hi] at hk hk'
  have hhas' : Has t ((m.setFlag p i true).setPhase (k * cfg.blockSize + i) .done) _ _ _ _ :=
    hhas.setEmpty (by omega) rfl
  unfold consume at hs
  dsimp only at hs
  rw [hghost] at hs
  cases hs
  refine ⟨hblock.block ▸ hinv, ?_, fun t' ht => ?_, ?_⟩
  · split
    · next hlast =>
      rw [show k * cfg.blockSize + i + 1 = l.index by omega] at hhas'
      refine ⟨⟨hreading.holds, hreading.pos, hreading.single⟩, hhas', fun hneed => ?_⟩
      -- what is left of the claim begins with the next block
      obtain ⟨hstarted, hp⟩ := hnext hneed
      have hfull : l.endIndex = cfg.blockSize := by
        rcases hblock.need with hnone | ⟨hfull, -⟩
        · have hneed' : 0 < l.needCount := hneed
          omega
        · exact hfull
      refine ⟨k + 1, hstarted, congrArg some hp, ?_, cfg.blockSize_pos⟩
      show (k + 1) * cfg.blockSize + 0 = l.index
      rw [Nat.succ_mul]
      omega
    · next hlast =>
      exact ⟨⟨hreading.holds, hreading.pos, hreading.single⟩, k, { hblock with }, hend, hle.trans (Nat.le_succ i),
        by omega, hhas', hnext⟩
  · exact .setPhase (x := .done) (by rw [hdestroyed]; rfl) (by rintro t'' ⟨⟩) ht rfl rfl rfl rfl rfl rfl
  · refine ⟨⟨m.counters, _, _, m.delivered, rfl⟩, rfl, fun q => next_setFlag true, fun q j hq => ?_, fun q j hq => ?_⟩
    · show ((m.setFlag p i true).blocks q).flags j = true
      by_cases hself : q = p ∧ j = i
      · obtain ⟨rfl, rfl⟩ := hself
        exact flags_setFlag_self true
      · rw [flags_setFlag_of_ne true (not_and_or.mp hself)]
        exact hq
    · replace hq : ((m.setFlag p i true).blocks q).flags j = true := hq
      by_cases hself : q = p ∧ j = i
      · exact Or.inr ⟨k, hk, hk', hblock.block.symm.trans hself.1.symm⟩
      · rw [flags_setFlag_of_ne true (not_and_or.mp hself)] at hq
        exact Or.inl hq

/-- **One access of a consumer.** -/
theorem ConsumerPc.At.consume {pc : ConsumerPc} (h : pc.At cfg t m) (hm : Inv cfg m)
    (hrange : (Pc.consumer pc : Pc α).InRange cfg m)
    (hs : SharedFastQueue.consume cfg t tailFirst m pc = some (m', pc')) : Consumed cfg t m m' pc' := by
  cases pc with
  | counting c pc => exact h.counting hm hrange hs
  | loadArray l =>
      obtain ⟨hreading, hhas, hstart⟩ := h
      cases hs
      refine .same hm ⟨hreading, hhas, hstart, ⟨le_rfl, hm.index.sized, fun i hi => ?_⟩, hm.index.tail hreading.pos⟩
      -- a claimed element keeps its block in the ring, and with it the entry in the array
      obtain ⟨hk, hk'⟩ := hm.indexed (i := i) (by rw [hi]; rintro ⟨⟩) (by rw [hi]; rintro ⟨⟩)
      exact (hm.index.entry _ hk hk').2
  | loadTail l a =>
      obtain ⟨hreading, hhas, hstart, hfound, hbased⟩ := h
      cases hs
      exact .same hm ⟨hreading, hhas, hstart, hfound, hbased⟩
  | readBase l a tail =>
      obtain ⟨hreading, hhas, hstart, hfound, k, rfl, hbase⟩ := h
      unfold SharedFastQueue.consume at hs
      dsimp only at hs
      split at hs
      · rw [hbase] at hs
        cases hs
        exact .same hm ⟨hreading, hhas, hstart, hfound, k, rfl, rfl⟩
      · cases hs
  | readBlock l a tail base => exact h.readBlock hm hs
  | block l p => exact h.block hm hs
  | move l p => exact h.move hm hs
  | destroy l p => exact h.destroy hm hs
  | readNext l p => exact h.readNext hm hs
  | setEmpty l p next i => exact h.setEmpty hm hs

end Steps

end SharedFastQueue

end LockFreeStructures
