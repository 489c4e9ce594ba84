import LockFreeStructures.FastQueue.Dequeue

/-!
# `FastQueue.Enqueue` — what `Enqueue` does under the invariant

An element goes into the slot of its number. Where that is the first slot of a block, a block is got for it
before; if the constructor then throws, that block goes to the blocks without elements
(`Layout.giveBack`).
-/

namespace LockFreeStructures

namespace FastQueue

variable {α : Type} {cfg : Cfg} {s s' : FastQueue α} {p q : ℕ} {blk : ℕ → ℕ} {k₀ K H : ℕ}
  {front : List ℕ} {l : List α}

/-! ## One more element -/

namespace Layout

/-- The tail block is the one of the newest number. -/
theorem tailBlock_eq (h : Layout cfg s H (K + 1) blk front l) (hk : H / cfg.blockSize ≤ K) :
    s.tailBlock = some (blk K) := by
  have htail := h.ring.tail
  rwa [liveBlocks_append hk (Nat.le_succ K), liveBlocks_cons (Nat.lt_succ_self K), liveBlocks_self,
    ← List.append_assoc, List.getLast?_concat] at htail

/-- An element is constructed in the slot of its number. -/
theorem construct (h : Layout cfg s H K blk front l) (hT : H + l.length < K * cfg.blockSize) (a : α) :
    Layout cfg (s.construct (blk ((H + l.length) / cfg.blockSize)) ((H + l.length) % cfg.blockSize) a) H K blk
      front (l ++ [a]) := by
  refine ⟨?_, ?_, ?_, ?_, ?_⟩
  · exact h.ring.congr (fun _ => next_construct a) rfl rfl rfl
  · exact h.index.congr rfl rfl rfl rfl
  · exact h.flags.congr fun _ _ _ => policy_construct a
  · rw [contents_append]
    refine h.elements.update h.blk_inj ?_ (cfg.block_lt hT) (some a) fun q j => elements_construct a j
    exact Nat.div_le_div_right (Nat.le_add_right _ _)
  · rw [List.length_append, List.length_singleton]
    omega

theorem putTail (h : Layout cfg s H K blk front l) (tail : ℕ) :
    Layout cfg (s.putTail tail) H K blk front l :=
  ⟨h.ring.congr (fun _ => rfl) rfl rfl rfl, h.index.putTail tail, h.flags.congr fun _ _ _ => rfl,
    h.elements.congr fun _ => rfl, h.fits⟩

/-- **Giving back one block.** The newest number, which no element has been put under, is taken back and
    its block goes to the front of the ring. -/
theorem giveBack (h : Layout cfg s H (K + 1) blk front l) (s' : FastQueue α)
    (hfits : H + l.length ≤ K * cfg.blockSize)
    (hnext : ∀ q, (s'.blocks q).next = (s.blocks q).next)
    (hel : ∀ q, (s'.blocks q).elements = (s.blocks q).elements)
    (hpolicy : ∀ q, q ≠ blk K → (s'.blocks q).policy = (s.blocks q).policy)
    (ht : s'.tailBlock = (blk K :: (front ++ liveBlocks blk (H / cfg.blockSize) K)).getLast?)
    (hm : s'.blockManager = s.blockManager)
    (ha : s'.currentIndexEntryArray = s.currentIndexEntryArray)
    (hn : s'.nextIndexEntry = slotBack s.indexEntriesSize s.nextIndexEntry 1)
    (hu : s'.indexEntriesUsed = s.indexEntriesUsed) (hs : s'.indexEntriesSize = s.indexEntriesSize) :
    Layout cfg s' H K blk (blk K :: front) l := by
  have hk : H / cfg.blockSize ≤ K :=
    Nat.div_le_of_le_mul (by rw [Nat.mul_comm]; exact le_trans (Nat.le_add_right _ _) hfits)
  have hsplit : front ++ liveBlocks blk (H / cfg.blockSize) (K + 1)
      = (front ++ liveBlocks blk (H / cfg.blockSize) K) ++ [blk K] := by
    rw [liveBlocks_append hk (Nat.le_succ K), liveBlocks_cons (Nat.lt_succ_self K), liveBlocks_self,
      List.append_assoc]
  have hring := h.ring.ring
  rw [hsplit] at hring
  refine ⟨⟨hm ▸ h.ring.manager, by rw [hu, hm, h.ring.used], ?_, ?_, fun q hq => ?_⟩, ?_, ?_, ?_, hfits⟩
  · exact hring.rotate.congr fun q _ => hnext q
  · exact ht
  · rw [hm]
    refine h.ring.owned q ?_
    rw [hsplit]
    rw [List.cons_append, List.mem_cons] at hq
    rcases hq with rfl | hq
    · exact List.mem_append_right _ List.mem_cons_self
    · exact List.mem_append_left _ hq
  · refine h.index.rewind hk (Nat.le_succ K) ?_ ha hu hs
    rw [hn, Nat.add_sub_cancel_left]
  · refine (h.flags.shrink (Nat.le_succ K)).congr fun k hk' hkK => hpolicy _ ?_
    intro heq
    exact hkK.ne (h.ring.blk_inj hk' (by omega) hk (Nat.lt_succ_self K) heq)
  · exact (h.elements.shrink (Nat.le_succ K) fun n hn => contents_of_ge (le_trans hfits hn)).congr hel

end Layout

/-! ## `Enqueue` -/

/-- Getting a block, or failing to, left the contents alone and the index sound: `Tail` of the index array
    still is at the newest entry. -/
structure IndexKept (cfg : Cfg) (s s₁ : FastQueue α) : Prop where
  same : SameContents s s₁
  span : s.indexEntriesSize * cfg.blockSize ∣ 2 ^ cfg.w → s₁.indexEntriesSize * cfg.blockSize ∣ 2 ^ cfg.w
  tailSlot : 0 < s.indexEntriesUsed → s.tailSlot = some (slotBack s.indexEntriesSize s.nextIndexEntry 1) →
    s₁.tailSlot = some (slotBack s₁.indexEntriesSize s₁.nextIndexEntry 1)

namespace IndexKept

variable {s₁ : FastQueue α}

theorem reused (s : FastQueue α) (p : ℕ) : IndexKept cfg s (s.reused p) := ⟨.reused s p, id, fun _ h => h⟩

theorem spliced (h : IndexKept cfg s s₁) (p : ℕ) (m : BlockManager) (allocs : List Bool) :
    IndexKept cfg s (s₁.spliced p m allocs) := by
  refine ⟨h.same.trans (.spliced s₁ p m allocs), ?_, ?_⟩
  all_goals
    rw [FastQueue.spliced, spliceBlock]
    split
    · first | exact h.span | exact h.tailSlot
    · first | exact h.span | exact h.tailSlot

end IndexKept

theorem Regrown.indexKept {s₁ : FastQueue α} {grew : Bool} (h : Layout cfg s H K blk front l)
    (hre : Regrown cfg s.indexEntriesUsed grew s s₁)
    (hroom : grew = true → s.indexEntriesUsed * cfg.blockSize < 2 ^ cfg.w) : IndexKept cfg s s₁ := by
  cases grew with
  | false =>
      rw [hre.stays rfl]
      exact ⟨⟨rfl, rfl, rfl, rfl, rfl, fun _ => rfl⟩, id, fun _ ht => ht⟩
  | true =>
      obtain ⟨hex, -, hnext, hsize, htail⟩ := hre.grows rfl
      replace hroom := hroom rfl
      refine ⟨hre.sameContents, fun _ => ?_, fun hu _ => ?_⟩
      · rw [hsize]
        exact h.index.grow_dvd hroom hex
      · -- the new array starts with the used entries, the newest of them last
        have hmul := Nat.le_mul_of_pos_right s.indexEntriesUsed cfg.blockSize_pos
        have hhalf := cfg.half_add_half
        have hu₁ : 1 ≤ s.indexEntriesUsed := hu
        rw [htail, hnext, hsize, Word.sub_of_le hu₁ (by omega), slotBack, if_pos hu₁]

/-- What the search for the block of the next element comes to: either there is none and only the index
    array may have grown, or the block `p` is the tail block, and writing its entry gives it the next
    number. -/
theorem Layout.acquireBlock_cases (h : Layout cfg s H K blk front l) (mode : AllocMode)
    (hroom : mode = .canAlloc → s.indexEntriesUsed * cfg.blockSize < 2 ^ cfg.w)
    (hspan : s.indexEntriesSize * cfg.blockSize ∣ 2 ^ cfg.w ∨ K = 0) :
    (∃ r s₁, s.acquireBlock cfg mode = some (r, s₁) ∧ Layout cfg s₁ H K blk front l ∧ IndexKept cfg s s₁ ∧
      (r = .refused ∨ r = .threw ∧ s.allocs ≠ []) ∧ s₁.indexEntriesUsed = s.indexEntriesUsed ∧
      ∀ q, (s₁.blocks q).policy = (s.blocks q).policy) ∨
    ∃ s₁ p front', s.acquireBlock cfg mode = some (.acquired, s₁) ∧ IndexKept cfg s s₁ ∧
      s₁.writeEntry (K * cfg.blockSize % 2 ^ cfg.w) = some (s₁.putEntry (K * cfg.blockSize % 2 ^ cfg.w) p) ∧
      Layout cfg (s₁.entered cfg K p) H (K + 1) (Function.update blk K p) front' l ∧
      s.tailBlock.or (some p) = (p :: (front' ++ liveBlocks blk (H / cfg.blockSize) K)).getLast? ∧
      s₁.indexEntriesUsed ≤ s.indexEntriesUsed + 1 ∧ p ∉ front' ∧ s₁.tailBlock = some p ∧
      s₁.nextIndexEntry < s₁.indexEntriesSize ∧ s₁.currentIndexEntryArray ≠ [] ∧
      ∀ q ∈ front', q ∈ front ∧ (s₁.blocks q).policy = (s.blocks q).policy := by
  have htail := h.ring.tail
  rcases h.nextIsEmpty_cases with hno | ⟨p, front', rfl, -, hyes⟩
  · -- a new block
    obtain ⟨grew, s₁, hlay, hre, hmode, hcases⟩ :=
      h.acquireNewBlock_cases mode hroom s.tailIndex s.indexEntriesUsed
    have hkept := hre.indexKept h fun hgrew => hroom (canAlloc_of_grew hmode hgrew)
    have hb : s₁.blocks = s.blocks := by rw [hre.rest]
    have hu : s₁.indexEntriesUsed = s.indexEntriesUsed := by rw [hre.rest]
    have hacquire : ∀ {r s₂}, s.acquireNewBlock cfg mode s.tailIndex s.indexEntriesUsed = some (r, grew, s₂) →
        s.acquireBlock cfg mode = some (r, s₂) := by
      intro r s₂ hacq
      simp only [acquireBlock, hno, Option.bind_eq_bind, Option.bind_some, Bool.false_eq_true, if_false, hacq]
    rcases hcases with ⟨hacq, -⟩ | ⟨hacq, hne⟩ | ⟨p, m, allocs, hacq, hm, hout, hp, harr, hfree, -, -, -⟩
    · exact Or.inl ⟨_, s₁, hacquire hacq, hlay, hkept, Or.inl rfl, hu, fun q => by rw [hb]⟩
    · exact Or.inl ⟨_, s₁, hacquire hacq, hlay, hkept, Or.inr ⟨rfl, hne⟩, hu, fun q => by rw [hb]⟩
    · have hspan₁ : s₁.indexEntriesSize * cfg.blockSize ∣ 2 ^ cfg.w ∨ K = 0 := hspan.imp hkept.span id
      obtain ⟨hwrite, hlay'⟩ := hlay.splice allocs hm hout hp harr hfree hspan₁
      have hnew : p ∉ front ++ liveBlocks blk (H / cfg.blockSize) K := fun hmem => hp (hlay.ring.owned p hmem)
      have hfields : (s₁.spliced p m allocs).indexEntriesUsed = s₁.indexEntriesUsed + 1 ∧
          (s₁.spliced p m allocs).nextIndexEntry = s₁.nextIndexEntry ∧
          (s₁.spliced p m allocs).indexEntriesSize = s₁.indexEntriesSize ∧
          (s₁.spliced p m allocs).currentIndexEntryArray = s₁.currentIndexEntryArray := by
        rw [FastQueue.spliced, spliceBlock]
        split <;> exact ⟨rfl, rfl, rfl, rfl⟩
      obtain ⟨hfu, hfn, hfs, hfa⟩ := hfields
      refine Or.inr ⟨_, p, front, hacquire hacq, hkept.spliced p m allocs, hwrite, hlay', ?_, ?_,
        fun hmem => hnew (List.mem_append_left _ hmem), rfl, ?_, ?_, fun q hq => ⟨hq, ?_⟩⟩
      · rw [htail, List.getLast?_cons]
        cases (front ++ liveBlocks blk (H / cfg.blockSize) K).getLast? <;> rfl
      · rw [hfu, hu]
      · rw [hfn, hfs]
        exact hlay.index.next_lt
      · rw [hfa]
        exact harr
      · have hqp : q ≠ p := by
          rintro rfl
          exact hnew (List.mem_append_left _ hq)
        exact (policy_spliceBlock.trans (policy_modifyPolicy_of_ne _ hqp)).trans (by rw [hb])
  · -- the block behind the tail block
    obtain ⟨hwrite, hlay'⟩ := h.reuse hspan
    have hnd := h.ring.ring.nodup
    rw [List.cons_append, List.nodup_cons, List.mem_append, not_or] at hnd
    refine Or.inr ⟨_, p, front', ?_, .reused s p, hwrite, hlay', ?_, Nat.le_succ _, hnd.1.1, rfl,
      h.index.next_lt, h.index.array_ne_nil (Nat.lt_of_le_of_lt (Nat.zero_le _) h.used_pos), fun q hq => ?_⟩
    · simp only [acquireBlock, hyes, Option.bind_eq_bind, Option.bind_some, if_true, h.reuseNext_eq]
    · rw [List.cons_append, List.getLast?_cons] at htail
      rw [htail, Option.some_or, List.getLast?_cons]
    · refine ⟨List.mem_cons_of_mem _ hq, policy_modifyPolicy_of_ne _ ?_⟩
      rintro rfl
      exact hnd.1.1 hq

/-- What an enqueue call did to the blocks that carry no element, when the queue then had `T'` elements
    enqueued and `T` before: it took new blocks only as it used them, and left no empty block behind. -/
structure Extends (cfg : Cfg) (s s' : FastQueue α) (T T' : ℕ) (front front' : List ℕ) : Prop where
  used : s'.indexEntriesUsed + numBlocks cfg T ≤ s.indexEntriesUsed + numBlocks cfg T'
  empties : ∀ p ∈ front', s'.blockIsEmpty cfg p = true → p ∈ front ∧ s.blockIsEmpty cfg p = true
  span : s.indexEntriesSize * cfg.blockSize ∣ 2 ^ cfg.w → s'.indexEntriesSize * cfg.blockSize ∣ 2 ^ cfg.w

/-- In the middle of a block the element goes into the tail block. -/
theorem Inv.enqueue_of_slot (h : Inv cfg s H blk front l) (hslot : (H + l.length) % cfg.blockSize ≠ 0)
    (mode : AllocMode) (item : Option α) :
    (item = none ∧ s.enqueue cfg mode item = some (.threw, s)) ∨
    ∃ a s', item = some a ∧ s.enqueue cfg mode item = some (.returned true, s') ∧
      Inv cfg s' H blk front (l ++ [a]) ∧ Extends cfg s s' (H + l.length) (H + l.length + 1) front front := by
  obtain ⟨hK, hK'⟩ := numBlocks_of_slot hslot
  have hlay := h.layout
  rw [hK] at hlay
  have hpos := cfg.pos_eq (H + l.length)
  have hlt := cfg.slot_lt (H + l.length)
  have htail : s.tailBlock = some (blk ((H + l.length) / cfg.blockSize)) :=
    hlay.tailBlock_eq (Nat.div_le_div_right (Nat.le_add_right _ _))
  have hmod : s.tailIndex % cfg.blockSize = (H + l.length) % cfg.blockSize := by
    rw [h.tailIndex]
    exact Word.mod_mod_two_pow cfg.blockSizeLog2_le
  cases item with
  | none => exact Or.inl ⟨rfl, by
      simp only [enqueue, hmod, if_neg hslot, htail, Option.bind_eq_bind, Option.bind_some]⟩
  | some a =>
      refine Or.inr ⟨a, { s.construct (blk ((H + l.length) / cfg.blockSize))
          ((H + l.length) % cfg.blockSize) a with tailIndex := Word.add cfg.w s.tailIndex 1 }, rfl, by
        simp only [enqueue, hmod, if_neg hslot, htail, Option.bind_eq_bind, Option.bind_some], ?_, ?_⟩
      · have hcons := hlay.construct (by rw [Nat.succ_mul]; omega) a
        have hlen : H + (l ++ [a]).length = H + l.length + 1 := by
          rw [List.length_append, List.length_singleton, Nat.add_assoc]
        refine ⟨?_, h.headIndex, ?_, h.attempts, h.failed, fun _ => h.tailSlot ?_⟩
        · rw [hlen, hK']
          exact hcons.congr rfl rfl rfl rfl rfl rfl rfl
        · show Word.add cfg.w s.tailIndex 1 = _
          rw [h.tailIndex, Word.add_mod_left, hlen]
        · rcases Nat.eq_zero_or_pos (H + l.length) with h0 | hpos
          · rw [h0] at hslot
            exact absurd (Nat.zero_mod _) hslot
          · exact hpos
      · refine ⟨Nat.add_le_add_left (numBlocks_mono (Nat.le_succ _)) _, fun p hp he => ⟨hp, ?_⟩, id⟩
        have hpol : ∀ q, ((s.construct (blk ((H + l.length) / cfg.blockSize)) ((H + l.length) % cfg.blockSize)
            a).blocks q).policy = (s.blocks q).policy := fun _ => policy_construct a
        change FlagsCheckPolicy.isEmpty _ (FastQueue.blocks (s.construct _ _ a) p).policy = true at he
        rwa [hpol] at he

/-- A call that has not moved the counters nor the contents keeps the invariant. -/
theorem Inv.of_indexKept {s₁ : FastQueue α} {blk' : ℕ → ℕ} {front' : List ℕ} (h : Inv cfg s H blk front l)
    (hk : IndexKept cfg s s₁) (hlay : Layout cfg s₁ H (numBlocks cfg (H + l.length)) blk' front' l) :
    Inv cfg s₁ H blk' front' l := by
  refine ⟨hlay, hk.same.headIndex.trans h.headIndex, hk.same.tailIndex.trans h.tailIndex,
    hk.same.attempts.trans h.attempts, hk.same.failed.trans h.failed, fun hpos => ?_⟩
  have hK : 0 < numBlocks cfg (H + l.length) := by
    rw [Nat.pos_iff_ne_zero]
    intro h0
    have := le_numBlocks cfg (H + l.length)
    rw [h0, Nat.zero_mul] at this
    omega
  exact hk.tailSlot (h.layout.index.numbered hK) (h.tailSlot hpos)

/-- **At the start of a block** the call is refused, is left by an exception, or appends the element. -/
theorem Inv.enqueue_of_first (h : Inv cfg s H blk front l) (hfirst : (H + l.length) % cfg.blockSize = 0) (mode : AllocMode)
    (hroom : mode = .canAlloc → s.indexEntriesUsed * cfg.blockSize < 2 ^ cfg.w)
    (hspan : s.indexEntriesSize * cfg.blockSize ∣ 2 ^ cfg.w ∨ H + l.length = 0) (item : Option α) :
    ∃ r s' blk' front', s.enqueue cfg mode item = some (r, s') ∧
      ((r = .returned false ∧ Inv cfg s' H blk' front' l ∧
          Extends cfg s s' (H + l.length) (H + l.length) front front') ∨
        (r = .threw ∧ (item = none ∨ s.allocs ≠ []) ∧ Inv cfg s' H blk' front' l ∧
          (s.indexEntriesSize * cfg.blockSize ∣ 2 ^ cfg.w → s'.indexEntriesSize * cfg.blockSize ∣ 2 ^ cfg.w)) ∨
        ∃ a, item = some a ∧ r = .returned true ∧ Inv cfg s' H blk' front' (l ++ [a]) ∧
          Extends cfg s s' (H + l.length) (H + l.length + 1) front front') := by
  obtain ⟨hKT, hK'⟩ := numBlocks_of_first hfirst
  have hbase : s.tailIndex = numBlocks cfg (H + l.length) * cfg.blockSize % 2 ^ cfg.w := by
    rw [hKT, h.tailIndex]
  have hmod : s.tailIndex % cfg.blockSize = 0 := by
    rw [h.tailIndex]
    exact (Word.mod_mod_two_pow cfg.blockSizeLog2_le).trans hfirst
  have hspan' : s.indexEntriesSize * cfg.blockSize ∣ 2 ^ cfg.w ∨ numBlocks cfg (H + l.length) = 0 := by
    refine hspan.imp id fun h0 => ?_
    rw [h0]
    exact numBlocks_eq (Nat.zero_le _) (by rw [Nat.zero_mul]; exact Nat.add_pos_right 0 cfg.blockSize_pos)
  have hnext : numBlocks cfg (H + l.length) = (H + l.length) / cfg.blockSize := by
    conv_rhs => rw [← hKT]
    exact (Nat.mul_div_cancel _ cfg.blockSize_pos).symm
  rcases h.layout.acquireBlock_cases mode hroom hspan' with
    ⟨r, s₁, hacq, hlay, hkept, hr, hu, hpol⟩ |
    ⟨s₁, p, front', hacq, hkept, hwrite, hlay, htail, hu, hp, ht, hlt, harr, hpol⟩
  · have hinv := h.of_indexKept hkept hlay
    rcases hr with rfl | ⟨rfl, hne⟩
    · refine ⟨.returned false, s₁, blk, front, ?_, Or.inl ⟨rfl, hinv, ⟨by rw [hu], fun q hq he => ⟨hq, ?_⟩,
        hkept.span⟩⟩⟩
      · simp only [enqueue, hmod, if_true, hacq, Option.bind_eq_bind, Option.bind_some]
      · rwa [blockIsEmpty, hpol q] at he
    · refine ⟨.threw, s₁, blk, front, ?_, Or.inr (Or.inl ⟨rfl, Or.inr hne, hinv, hkept.span⟩)⟩
      simp only [enqueue, hmod, if_true, hacq, Option.bind_eq_bind, Option.bind_some]
  · rw [← hbase] at hwrite
    cases item with
    | none =>
        -- the block goes back to the front of the ring
        have hgive := hlay.giveBack { (s₁.putEntry s.tailIndex p).modifyPolicy p .setAllEmpty with
            tailBlock := s.tailBlock.or (some p) } h.layout.fits (fun _ => next_modifyPolicy _)
          (fun _ => elements_modifyPolicy _) (fun q hq => policy_modifyPolicy_of_ne _ (by
            rwa [Function.update_self] at hq)) (by
            rw [liveBlocks_congr fun k _ hk => Function.update_of_ne hk.ne p blk, Function.update_self]
            exact htail) rfl (by rw [hbase]; rfl) (slotBack_one_succ hlt).symm rfl rfl
        rw [Function.update_self] at hgive
        refine ⟨.threw, _, _, _, ?_, Or.inr (Or.inl ⟨rfl, Or.inl rfl, h.of_indexKept ?_ hgive, hkept.span⟩)⟩
        · simp only [enqueue, hmod, if_true, hacq, hwrite, Option.bind_eq_bind, Option.bind_some,
            show (s₁.putEntry s.tailIndex p).tailBlock = some p from ht]
        · refine ⟨⟨hkept.same.headIndex, hkept.same.tailIndex, hkept.same.attempts, hkept.same.failed,
            hkept.same.events, fun q => ?_⟩, hkept.span, fun hu' ht' => ?_⟩
          · exact (elements_modifyPolicy _).trans (hkept.same.elements q)
          · exact (tailSlot_putEntry _).trans (hkept.tailSlot hu' ht')
    | some a =>
        have hfits := h.layout.fits
        have hcons := (hlay.construct (by rw [Nat.succ_mul]; have := cfg.blockSize_pos; omega) a).putTail
          s₁.nextIndexEntry
        rw [← hnext, hfirst, Function.update_self] at hcons
        have hlen : H + (l ++ [a]).length = H + l.length + 1 := by
          rw [List.length_append, List.length_singleton, Nat.add_assoc]
        have harr' : ((s₁.putEntry s.tailIndex p).construct p 0 a).currentIndexEntryArray ≠ [] := by
          simpa [FastQueue.putEntry, FastQueue.construct, modifyBlock] using harr
        refine ⟨.returned true, { (((s₁.putEntry s.tailIndex p).construct p 0 a).putTail
            s₁.nextIndexEntry).advanceNextIndexEntry with tailIndex := Word.add cfg.w s.tailIndex 1 },
          Function.update blk (numBlocks cfg (H + l.length)) p, front', ?_,
          Or.inr (Or.inr ⟨a, rfl, rfl, ⟨?_, ?_, ?_, ?_, ?_, fun _ => ?_⟩, ⟨?_, fun q hq he => ?_, hkept.span⟩⟩)⟩
        · simp only [enqueue, hmod, if_true, hacq, hwrite, Option.bind_eq_bind, Option.bind_some,
            show (s₁.putEntry s.tailIndex p).tailBlock = some p from ht, storeTail_eq _ harr']
          rfl
        · rw [hlen, hK', hbase]
          exact hcons.congr rfl rfl rfl rfl rfl rfl rfl
        · exact hkept.same.headIndex.trans h.headIndex
        · show Word.add cfg.w s.tailIndex 1 = _
          rw [h.tailIndex, Word.add_mod_left, hlen]
        · exact hkept.same.attempts.trans h.attempts
        · exact hkept.same.failed.trans h.failed
        · exact (tailSlot_putTail _ harr').trans (congrArg some (slotBack_one_succ hlt).symm)
        · show s₁.indexEntriesUsed + _ ≤ _
          omega
        · have hpq : ((s₁.construct p 0 a).blocks q).policy = (s₁.blocks q).policy := policy_construct a
          change (FlagsCheckPolicy.isEmpty _ ((s₁.construct p 0 a).blocks q).policy) = true at he
          rw [hpq, (hpol q hq).2] at he
          exact ⟨(hpol q hq).1, he⟩

/-- **`Enqueue`** appends its element and returns true, or it appends nothing. -/
theorem Inv.enqueue (h : Inv cfg s H blk front l) (mode : AllocMode)
    (hroom : (H + l.length) % cfg.blockSize = 0 → mode = .canAlloc → s.indexEntriesUsed * cfg.blockSize < 2 ^ cfg.w)
    (hspan : s.indexEntriesSize * cfg.blockSize ∣ 2 ^ cfg.w ∨ numBlocks cfg (H + l.length + 1) ≤ 1)
    (item : Option α) :
    ∃ r s' blk' front', s.enqueue cfg mode item = some (r, s') ∧
      ((r = .returned false ∧ Inv cfg s' H blk' front' l ∧
          Extends cfg s s' (H + l.length) (H + l.length) front front') ∨
        (r = .threw ∧ (item = none ∨ s.allocs ≠ []) ∧ Inv cfg s' H blk' front' l ∧
          (s.indexEntriesSize * cfg.blockSize ∣ 2 ^ cfg.w → s'.indexEntriesSize * cfg.blockSize ∣ 2 ^ cfg.w)) ∨
        ∃ a, item = some a ∧ r = .returned true ∧ Inv cfg s' H blk' front' (l ++ [a]) ∧
          Extends cfg s s' (H + l.length) (H + l.length + 1) front front') := by
  by_cases hslot : (H + l.length) % cfg.blockSize = 0
  · refine h.enqueue_of_first hslot mode (hroom hslot) (hspan.imp id fun h1 => ?_) item
    have hle := le_numBlocks cfg (H + l.length)
    rw [(numBlocks_of_first hslot).2] at h1
    rw [show numBlocks cfg (H + l.length) = 0 by omega, Nat.zero_mul] at hle
    exact Nat.le_zero.mp hle
  · rcases h.enqueue_of_slot hslot mode item with ⟨hitem, heq⟩ | ⟨a, s', hitem, heq, hinv, hext⟩
    · exact ⟨.threw, s, blk, front, heq, Or.inr (Or.inl ⟨rfl, Or.inl hitem, h, id⟩)⟩
    · exact ⟨.returned true, s', blk, front, heq, Or.inr (Or.inr ⟨a, hitem, rfl, hinv, hext⟩)⟩

end FastQueue

end LockFreeStructures
