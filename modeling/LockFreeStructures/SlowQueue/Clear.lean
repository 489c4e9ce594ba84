import LockFreeStructures.SlowQueue.Fifo

/-!
# `SlowQueue.Clear` — what `Clear` destroys and gives back

`Clear` walks from the head to the tail. It destroys what it meets and gives a block back with its last live element,
so a block without a live element is never given back: the tail block of an empty queue, when it is used in part.
-/

namespace LockFreeStructures

namespace SlowQueue

variable {α : Type} {cfg : Cfg} {s s' : SlowQueue α} {a : IndexEntryArray} {c H K T k₀ n p : ℕ} {blk : ℕ → ℕ} {l : List α}

/-! ## One element -/

/-- An element that is there is destroyed. -/
theorem destroy_eq {m : Slots CounterCheckPolicy α} {i : ℕ} {x : α}
    (hinj : ∀ k k', k₀ ≤ k → k < K → k₀ ≤ k' → k' < K → blk k = blk k' → k = k')
    (h : m.Holds cfg blk k₀ K (contents n (x :: l))) (hk : k₀ ≤ n / cfg.blockSize) (hK : n / cfg.blockSize < K)
    (hp : p = blk (n / cfg.blockSize)) (hi : i = n % cfg.blockSize) :
    ∃ m', m.destroy p i = some m' ∧ m'.Holds cfg blk k₀ K (contents (n + 1) l) ∧
      m'.events = m.events ++ [.destroyed (blk (n / cfg.blockSize)) (n % cfg.blockSize)] := by
  subst hp hi
  have hx : (m.blocks (blk (n / cfg.blockSize))).elements (n % cfg.blockSize) = some x := by
    rw [h.live _ hk hK _ (cfg.slot_lt n), cfg.pos_eq, contents_head]
  obtain ⟨m', htake, -, hel, hev⟩ := Slots.takeElement_eq hx
  refine ⟨m', by rw [Slots.destroy, htake]; rfl, ?_, hev⟩
  rw [contents_cons x]
  exact h.update hinj hk hK none hel

/-- Where the walk stands: the elements from number `n` on are left, and the blocks before theirs are given back. -/
structure Clearing (cfg : Cfg) (s : SlowQueue α) (a : IndexEntryArray) (c k₀ K n : ℕ) (blk : ℕ → ℕ) (l : List α) : Prop where
  index : IndexLayout cfg s a c k₀ K K (values blk K)
  elements : s.toSlots.Holds cfg blk k₀ K (contents n l)
  manager : s.blockManager.WF
  outstanding : s.blockManager.outstanding.Perm (liveBlocks blk (n / cfg.blockSize) K)

/-- The block of an element is looked up at its first slot and at the start; in between it is known. -/
theorem Clearing.lookup (h : Clearing cfg s a c k₀ K n blk l) (hk : k₀ ≤ n / cfg.blockSize) (hK : n / cfg.blockSize < K) :
    s.getBlockIndexEntryForIndex cfg (n % 2 ^ cfg.w) = some (a.entryAt (c + n / cfg.blockSize)) ∧
      (s.entries (a.entryAt (c + n / cfg.blockSize))).value = some (blk (n / cfg.blockSize)) := by
  obtain ⟨M, rfl⟩ := Nat.exists_eq_succ_of_ne_zero (Nat.ne_zero_of_lt hK)
  refine ⟨h.index.getBlockIndexEntryForIndex (hk.trans (Nat.lt_succ_iff.mp hK)) (Nat.lt_succ_self M) n, ?_⟩
  rw [h.index.values _ hk (Nat.lt_of_lt_of_le hK h.index.window), values_of_lt hK]

/-- One round of the loop. -/
theorem clearElements_succ (fuel : ℕ) (block : Option ℕ) {tail index p : ℕ} {m : Slots CounterCheckPolicy α}
    (hne : index ≠ tail)
    (hblock : (index % cfg.blockSize = 0 ∨ block = none) ∧
        (∃ e, s.getBlockIndexEntryForIndex cfg index = some e ∧ (s.entries e).value = some p) ∨
      ¬ (index % cfg.blockSize = 0 ∨ block = none) ∧ block = some p)
    (hdestroy : s.toSlots.destroy p (index % cfg.blockSize) = some m) :
    s.clearElements cfg tail (fuel + 1) index block = clearElements cfg tail fuel (Word.add cfg.w index 1) (some p)
      (if index % cfg.blockSize = cfg.blockSize - 1 ∨ index = Word.sub cfg.w tail 1 then
        { s with toSlots := m }.returnBlock p else { s with toSlots := m }) := by
  rw [SlowQueue.clearElements, if_neg hne]
  rcases hblock with ⟨hcond, e, hlookup, hvalue⟩ | ⟨hcond, hblock⟩
  · simp only [if_pos hcond, Option.bind_eq_bind, hlookup, Option.bind_some, hvalue, hdestroy]
  · subst hblock
    simp only [if_neg hcond, Option.bind_eq_bind, Option.bind_some, hdestroy]

/-- The walk ends at the tail. -/
theorem clearElements_tail (tail fuel : ℕ) (block : Option ℕ) (s : SlowQueue α) :
    s.clearElements cfg tail fuel tail block = some s := by
  cases fuel <;> rw [SlowQueue.clearElements, if_pos rfl]

/-! ## The walk -/

/-- **The loop of `Clear`** destroys the elements that are left in order, and gives back their blocks. -/
theorem Clearing.clearElements (hinj : ∀ k k', k₀ ≤ k → k < K → k₀ ≤ k' → k' < K → blk k = blk k' → k = k')
    (hK : numBlocks cfg T = K) : ∀ (fuel : ℕ) (block : Option ℕ) {n : ℕ} {l : List α} {s : SlowQueue α},
    Clearing cfg s a c k₀ K n blk l → k₀ ≤ n / cfg.blockSize → n + l.length = T → 0 < l.length → l.length ≤ fuel →
    l.length < 2 ^ cfg.w → (n % cfg.blockSize ≠ 0 → block = none ∨ block = some (blk (n / cfg.blockSize))) →
    ∃ t evs, s.clearElements cfg (T % 2 ^ cfg.w) fuel (n % 2 ^ cfg.w) block = some t ∧
      t.blockManager.outstanding = [] ∧ t.events = s.events ++ evs ∧
      evs.filter Event.isDestroyed = eventsFrom cfg blk .destroyed n l.length ∧
      (evs.filter fun e => !e.isDestroyed) = (liveBlocks blk (n / cfg.blockSize) K).map .returned := by
  intro fuel
  induction fuel with
  | zero =>
      intro block n l s _ _ _ hpos hfuel
      omega
  | succ fuel ih =>
      intro block n l s h hk hT hpos hfuel hlen hblock
      obtain ⟨x, l, rfl⟩ := List.exists_cons_of_length_pos hpos
      rw [List.length_cons] at hT hfuel hlen
      have hfits := hK ▸ le_numBlocks cfg T
      have hnK : n / cfg.blockSize < K := cfg.block_lt (by omega)
      have hmod : n % 2 ^ cfg.w % cfg.blockSize = n % cfg.blockSize := Word.mod_mod_two_pow cfg.blockSizeLog2_le
      have hmem : blk (n / cfg.blockSize) ∈ s.blockManager.outstanding :=
        h.outstanding.mem_iff.mpr (blk_mem_liveBlocks le_rfl hnK)
      obtain ⟨m, hdestroy, hel, hev⟩ := destroy_eq hinj h.elements hk hnK rfl hmod
      have hne : n % 2 ^ cfg.w ≠ T % 2 ^ cfg.w := by
        intro heq
        have hmodeq : n + 0 ≡ n + (T - n) [MOD 2 ^ cfg.w] := by
          rw [Nat.add_zero, Nat.add_sub_cancel' (by omega)]
          exact heq
        have := (hmodeq.add_left_cancel' n).eq_of_lt_of_lt (Nat.two_pow_pos _) (by omega)
        omega
      have hpred : n % 2 ^ cfg.w = Word.sub cfg.w (T % 2 ^ cfg.w) 1 ↔ n + 1 = T := by
        have hsub : Word.sub cfg.w (T % 2 ^ cfg.w) 1 = (T - 1) % 2 ^ cfg.w := by
          refine Word.sub_eq_of_modEq ?_ (Nat.mod_lt _ Word.two_pow_pos)
          rw [Nat.mod_mod, Nat.add_mod_mod, Nat.add_sub_cancel' (by omega)]
        rw [hsub]
        refine ⟨fun heq => ?_, fun heq => by rw [← heq, Nat.add_sub_cancel]⟩
        have hmodeq : n + 0 ≡ n + (T - 1 - n) [MOD 2 ^ cfg.w] := by
          rw [Nat.add_zero, Nat.add_sub_cancel' (by omega)]
          exact heq
        have := (hmodeq.add_left_cancel' n).eq_of_lt_of_lt (Nat.two_pow_pos _) (by omega)
        omega
      have hround := clearElements_succ fuel block hne (p := blk (n / cfg.blockSize)) (by
        rw [hmod]
        by_cases hcond : n % cfg.blockSize = 0 ∨ block = none
        · exact Or.inl ⟨hcond, _, h.lookup hk hnK⟩
        · rw [not_or] at hcond
          exact Or.inr ⟨not_or.mpr hcond, (hblock hcond.1).resolve_left hcond.2⟩) hdestroy
      rw [hround, hmod, Word.add_mod_left]
      simp only [hpred]
      have hwf' := h.manager.returnBlock hmem
      have herase : (s.blockManager.outstanding.erase (blk (n / cfg.blockSize))).Perm
          (liveBlocks blk (n / cfg.blockSize + 1) K) := by
        have := h.outstanding.erase (blk (n / cfg.blockSize))
        rwa [liveBlocks_cons hnK, List.erase_cons_head] at this
      by_cases hlast : n + 1 = T
      · -- the last element
        obtain rfl : l = [] := List.eq_nil_of_length_eq_zero (by omega)
        have hend : n / cfg.blockSize + 1 = K := by rw [← hK, ← hlast, numBlocks_succ]
        have hone : liveBlocks blk (n / cfg.blockSize + 1) K = [] := by rw [hend, liveBlocks_self]
        rw [hone] at herase
        rw [if_pos (Or.inr hlast), hlast]
        refine ⟨{ s with toSlots := m }.returnBlock (blk (n / cfg.blockSize)),
          [.destroyed (blk (n / cfg.blockSize)) (n % cfg.blockSize), .returned (blk (n / cfg.blockSize))],
          clearElements_tail _ _ _ _, List.perm_nil.mp herase, ?_, rfl, ?_⟩
        · show m.events ++ _ = _
          rw [hev, List.append_assoc]
          rfl
        · rw [liveBlocks_cons hnK, hone]
          rfl
      · have hl : 0 < l.length := by omega
        have hpos := cfg.pos_eq n
        have hslot := cfg.slot_lt n
        by_cases hblockEnd : n % cfg.blockSize = cfg.blockSize - 1
        · -- the last element of a block that is full
          have hnum : n + 1 = (n / cfg.blockSize + 1) * cfg.blockSize + 0 := by
            rw [Nat.succ_mul]
            omega
          have hdiv : (n + 1) / cfg.blockSize = n / cfg.blockSize + 1 := by
            rw [hnum]
            exact Cfg.pos_div cfg.blockSize_pos
          rw [if_pos (Or.inl hblockEnd)]
          obtain ⟨t, evs, hrun, hout, hevs, hdes, hret⟩ := ih (some (blk (n / cfg.blockSize))) (n := n + 1) (l := l)
            (s := { s with toSlots := m }.returnBlock (blk (n / cfg.blockSize)))
            ⟨h.index.congr rfl rfl rfl rfl, hel.congr fun _ => rfl, hwf', by rw [hdiv]; exact herase⟩ (by omega) (by omega) hl (by omega)
            (by omega) (fun hne => absurd (by rw [hnum]; exact Cfg.pos_mod cfg.blockSize_pos) hne)
          refine ⟨t, .destroyed (blk (n / cfg.blockSize)) (n % cfg.blockSize) :: .returned (blk (n / cfg.blockSize)) :: evs,
            hrun, hout, ?_, ?_, ?_⟩
          · rw [hevs]
            show m.events ++ _ ++ _ = _
            rw [hev, List.append_assoc, List.append_assoc]
            rfl
          · rw [List.length_cons, eventsFrom_succ, ← hdes]
            rfl
          · rw [liveBlocks_cons hnK, List.map_cons, ← hdiv, ← hret]
            rfl
        · -- the next element is in the same block
          have hdiv : (n + 1) / cfg.blockSize = n / cfg.blockSize := by
            rw [← hpos, Nat.add_assoc, Cfg.pos_div (by omega), Cfg.pos_div hslot]
          rw [if_neg (not_or.mpr ⟨hblockEnd, hlast⟩)]
          obtain ⟨t, evs, hrun, hout, hevs, hdes, hret⟩ := ih (some (blk (n / cfg.blockSize))) (n := n + 1) (l := l)
            (s := { s with toSlots := m }) ⟨h.index.congr rfl rfl rfl rfl, hel, h.manager,
              by rw [hdiv]; exact h.outstanding⟩ (by rwa [hdiv]) (by omega) hl (by omega) (by omega)
            fun _ => Or.inr (by rw [hdiv])
          refine ⟨t, .destroyed (blk (n / cfg.blockSize)) (n % cfg.blockSize) :: evs, hrun, hout, ?_, ?_, ?_⟩
          · rw [hevs]
            show m.events ++ _ = _
            rw [hev, List.append_assoc]
            rfl
          · rw [List.length_cons, eventsFrom_succ, ← hdes]
            rfl
          · rw [← hdiv, ← hret]
            rfl

/-! ## `Clear` -/

/-- **`Clear` leaves nothing behind.** It destroys the elements of the list, the first of which is number `H`, in
    order, each once and nothing else, and the blocks that are out are given back, each once. -/
def ClearsAll (cfg : Cfg) (s : SlowQueue α) (H : ℕ) (l : List α) : Prop :=
  ∃ (blk : ℕ → ℕ) (t : SlowQueue α), (s.begin []).clear cfg = some t ∧
    (∀ i, (hi : i < l.length) → (s.blocks (blk ((H + i) / cfg.blockSize))).elements ((H + i) % cfg.blockSize) = some l[i]) ∧
    t.events.filter Event.isDestroyed = eventsFrom cfg blk .destroyed H l.length ∧
    (t.events.filter fun e => !e.isDestroyed).Perm (s.blockManager.outstanding.map .returned) ∧
    t.blockManager.outstanding = []

/-- `Clear` leaves nothing behind just when there is an element or no block is in use. -/
theorem Inv.clearsAll_iff (h : Inv cfg s H blk l) :
    ClearsAll cfg s H l ↔ s.headIndex ≠ s.tailIndex ∨ s.tailIndex % cfg.blockSize = 0 := by
  have hlen := h.length_lt
  have hhalf := cfg.half_add_half
  have hmod := h.tailIndex_mod
  obtain ⟨a, c, hlay⟩ := (h.begin []).layout
  have hfuel : Word.sub cfg.w s.tailIndex s.headIndex = l.length := by
    rw [h.headIndex, h.tailIndex, Word.sub_mod_mod (Nat.le_add_right _ _) (by omega), Nat.add_sub_cancel_left]
  by_cases hl : l.length = 0
  · -- nothing is met
    obtain rfl := List.eq_nil_of_length_eq_zero hl
    have heq : s.headIndex = s.tailIndex := by
      rw [h.headIndex, h.tailIndex, List.length_nil, Nat.add_zero]
    have hclear : (s.begin []).clear cfg = some (s.begin []) := by
      show clearElements cfg s.tailIndex (Word.sub cfg.w s.tailIndex s.headIndex) s.headIndex none _ = _
      rw [heq]
      exact clearElements_tail _ _ _ _
    have hout : s.blockManager.outstanding = [] ↔ (H + ([] : List α).length) % cfg.blockSize = 0 := by
      have hlive := hlay.outstanding
      change s.blockManager.outstanding.Perm _ at hlive
      rw [← List.length_eq_zero_iff, hlive.length_eq, length_liveBlocks]
      by_cases hT : (H + ([] : List α).length) % cfg.blockSize = 0
      · have hfirst := (numBlocks_of_first hT).1
        have hdiv : (H + ([] : List α).length) / cfg.blockSize = numBlocks cfg (H + ([] : List α).length) := by
          conv_lhs => rw [← hfirst]
          exact Nat.mul_div_cancel _ cfg.blockSize_pos
        rw [List.length_nil, Nat.add_zero] at hdiv hT ⊢
        omega
      · have hlast := (numBlocks_of_slot hT).1
        rw [List.length_nil, Nat.add_zero] at hlast hT ⊢
        omega
    rw [or_iff_right (not_not.mpr heq), hmod, ← hout]
    refine ⟨?_, fun hnone => ⟨blk, _, hclear, fun i hi => absurd hi (Nat.not_lt_zero i), rfl, ?_, hnone⟩⟩
    · rintro ⟨blk', t, hrun, -, -, -, hnone⟩
      rw [hclear] at hrun
      obtain rfl := Option.some.inj hrun
      exact hnone
    · rw [hnone]
      exact List.Perm.refl _
  · have hne : s.headIndex ≠ s.tailIndex := by
      rw [h.headIndex, h.tailIndex]
      intro heq
      have hmodeq : H + 0 ≡ H + l.length [MOD 2 ^ cfg.w] := heq
      have := (hmodeq.add_left_cancel' H).eq_of_lt_of_lt (Nat.two_pow_pos _) (by omega)
      omega
    refine iff_of_true ?_ (Or.inl hne)
    obtain ⟨t, evs, hrun, hout, hevs, hdes, hret⟩ := Clearing.clearElements hlay.blk_inj rfl l.length none
      ⟨hlay.index, hlay.elements, hlay.manager, hlay.outstanding⟩ le_rfl rfl (Nat.pos_of_ne_zero hl) le_rfl
      (by omega) fun _ => Or.inl rfl
    have hevs : t.events = evs := hevs
    refine ⟨blk, t, ?_, fun i hi => ?_, by rw [hevs]; exact hdes, ?_, hout⟩
    · show clearElements cfg s.tailIndex (Word.sub cfg.w s.tailIndex s.headIndex) s.headIndex none _ = _
      rw [hfuel, h.tailIndex, h.headIndex]
      exact hrun
    · obtain ⟨a', c', hlay'⟩ := h.layout
      have hlt : (H + i) / cfg.blockSize < numBlocks cfg (H + l.length) := cfg.block_lt (by have := hlay'.fits; omega)
      rw [hlay'.elements.live _ (Nat.div_le_div_right (Nat.le_add_right _ _)) hlt _ (cfg.slot_lt _), cfg.pos_eq, contents,
        if_pos (Nat.le_add_right _ _), Nat.add_sub_cancel_left, List.getElem?_eq_getElem hi]
    · rw [hevs, hret]
      exact hlay.outstanding.symm.map _

/-- **After a run in which nothing throws** `Clear` leaves nothing behind just when the queue has an element or its
    tail is at a block boundary, provided the slots of the initial index array cover no more elements than there are
    indices. -/
theorem clear_after_run_iff (cfg : Cfg) (inSize poolSize : ℕ)
    (hindex : FastQueue.initialIndexSize cfg inSize * cfg.blockSize ≤ 2 ^ cfg.w ∨ cfg.blockSize = 2 ^ (cfg.w - 1))
    (calls : List (Call α)) (hcount : ∀ call ∈ calls, call.Countable) (hthrow : ∀ call ∈ calls, call.NoThrow)
    (hsmall : ∀ call ∈ calls, call.items.length + cfg.blockSize ≤ 2 ^ cfg.w) :
    ∃ s rs s' l, fresh cfg inSize poolSize [] = some s ∧ s.run cfg calls = some (rs, s') ∧ FifoRun [] calls rs l ∧
      (ClearsAll cfg s' (rs.map fun r => r.1.taken).sum l ↔
        s'.headIndex ≠ s'.tailIndex ∨ s'.tailIndex % cfg.blockSize = 0) := by
  obtain ⟨s, hs, h, -⟩ := fresh_eq (α := α) cfg inSize poolSize hindex
  obtain ⟨rs, s', l, blk, hrun, hfifo, h'⟩ := h.run hcount hthrow hsmall
  rw [Nat.zero_add] at h'
  exact ⟨s, rs, s', l, hs, hrun, hfifo, h'.clearsAll_iff⟩

/-- A bulk enqueue over two blocks and two elements taken, in words of 16 bits. -/
theorem clear_after_run_iff_bulk : ∃ s rs s' l, fresh ⟨2, 1, by decide, by decide⟩ 4 2 [] = some s ∧
    s.run ⟨2, 1, by decide, by decide⟩ [.enqueueBulk .canAlloc [some 1, some 2, some 3] [], .dequeueBulk 2]
      = some (rs, s') ∧
    FifoRun ([] : List ℕ) [.enqueueBulk .canAlloc [some 1, some 2, some 3] [], .dequeueBulk 2] rs l ∧
    (ClearsAll ⟨2, 1, by decide, by decide⟩ s' (rs.map fun r => r.1.taken).sum l ↔
      s'.headIndex ≠ s'.tailIndex ∨ s'.tailIndex % Cfg.blockSize ⟨2, 1, by decide, by decide⟩ = 0) :=
  clear_after_run_iff ⟨2, 1, by decide, by decide⟩ 4 2 (Or.inl (by decide)) _ (by simp [Call.Countable])
    (by simp [Call.NoThrow, Call.items, Call.allocs]) (by simp [Call.items]; decide)

/-- One element enqueued and dequeued, in words of 32 bits with 32 slots a block: `Clear` meets no element, and the
    block, which the heap gave as there is no pool, is not given back. -/
theorem not_clearsAll : ¬ ∀ (cfg : Cfg) (inSize poolSize : ℕ) (calls : List (Call Unit)),
    (∀ call ∈ calls, call.Countable) → (∀ call ∈ calls, call.NoThrow) →
    ∃ s rs s' l, fresh cfg inSize poolSize [] = some s ∧ s.run cfg calls = some (rs, s') ∧ FifoRun [] calls rs l ∧
      ClearsAll cfg s' (rs.map fun r => r.1.taken).sum l := by
  intro h
  have hkept : ∀ s rs s' t, fresh ⟨4, 5, by decide, by decide⟩ 4 0 [] = some s →
      s.run ⟨4, 5, by decide, by decide⟩ [.enqueue .canAlloc (some ()) [], .dequeue] = some (rs, s') →
      (s'.begin []).clear ⟨4, 5, by decide, by decide⟩ = some t → t.blockManager.outstanding = [0] := by
    intro s rs s' t hs hrun hclear
    have hall : (((fresh ⟨4, 5, by decide, by decide⟩ 4 0 []).bind fun s =>
        s.run ⟨4, 5, by decide, by decide⟩ [.enqueue .canAlloc (some ()) [], .dequeue]).bind fun r =>
          (r.2.begin []).clear ⟨4, 5, by decide, by decide⟩).map (fun t => t.blockManager.outstanding) = some [0] := by
      decide +kernel
    rw [hs, Option.bind_some, hrun, Option.bind_some, hclear, Option.map_some] at hall
    exact Option.some.inj hall
  obtain ⟨s, rs, s', l, hs, hrun, -, blk, t, hclear, -, -, -, hnone⟩ := h ⟨4, 5, by decide, by decide⟩ 4 0
    [.enqueue .canAlloc (some ()) [], .dequeue] (by simp [Call.Countable]) (by simp [Call.NoThrow, Call.items, Call.allocs])
  rw [hkept s rs s' t hs hrun hclear] at hnone
  exact absurd hnone (by rintro ⟨⟩)

end SlowQueue

end LockFreeStructures
