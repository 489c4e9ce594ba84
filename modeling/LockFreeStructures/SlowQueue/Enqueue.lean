import LockFreeStructures.SlowQueue.Dequeue

/-!
# `SlowQueue.Enqueue` — what `Enqueue` does under the invariant

An element goes into the slot of its number. For the first slot of a block a key is inserted into the index and a
block requisitioned before. Both are taken back when there is no block, and when the constructor throws; when
the requisition throws, the key stays.
-/

namespace LockFreeStructures

namespace SlowQueue

variable {α : Type} {cfg : Cfg} {s s' s₁ : SlowQueue α} {a a' : IndexEntryArray} {c c' H K p : ℕ} {blk : ℕ → ℕ}
  {l : List α}

/-! ## Blocks requisitioned -/

/-- What a requisition can do to the queue. -/
theorem requisitionBlock_cases (hm : s.blockManager.WF) (mode : AllocMode) :
    (∃ p s', s.requisitionBlock mode = (.block p, s') ∧ p ∉ s.blockManager.outstanding ∧ s'.blockManager.WF ∧
      s'.blockManager.outstanding = p :: s.blockManager.outstanding ∧ (s.allocs = [] → s'.allocs = []) ∧
      s' = { s with blockManager := s'.blockManager, allocs := s'.allocs }) ∨
    (s.requisitionBlock mode = (.null, s) ∧ mode = .cannotAlloc) ∨
    ∃ s', s.requisitionBlock mode = (.threw, s') ∧ s.allocs ≠ [] ∧ s' = { s with allocs := s'.allocs } := by
  rcases hm.requisitionBlock_cases mode s.allocs with ⟨p, allocs, m, hreq, hp, hwf, hout, -, -, hal⟩ |
    ⟨hreq, hmode⟩ | ⟨allocs, hreq, hal⟩
  · exact Or.inl ⟨p, { s with blockManager := m, allocs := allocs }, by simp only [requisitionBlock, hreq], hp, hwf,
      hout, hal, rfl⟩
  · exact Or.inr (Or.inl ⟨by simp only [requisitionBlock, hreq], hmode⟩)
  · exact Or.inr (Or.inr ⟨{ s with allocs := allocs }, by simp only [requisitionBlock, hreq], hal, rfl⟩)

/-! ## Keys inserted and taken back -/

namespace Layout

/-- Another index for the same blocks. -/
theorem reindex (h : Layout cfg s a c H K blk l) (hm : s'.blockManager.WF)
    (hout : s'.blockManager.outstanding = s.blockManager.outstanding)
    (hel : ∀ q, (s'.blocks q).elements = (s.blocks q).elements)
    (hpol : ∀ q ∈ s.blockManager.outstanding, (s'.blocks q).policy = (s.blocks q).policy)
    (ht : s'.tailBlock = s.tailBlock)
    (hindex : IndexLayout cfg s' a' c' (H / cfg.blockSize) K K (values blk K)) : Layout cfg s' a' c' H K blk l := by
  refine ⟨hm, hout ▸ h.outstanding, hindex, h.elements.congr hel, fun k hk hkK => ?_, fun hlt => ht.trans (h.tailBlock hlt),
    h.fits, h.room⟩
  rw [hpol _ (h.outstanding.mem_iff.mpr (blk_mem_liveBlocks hk hkK))]
  exact h.counters k hk hkK

theorem blockSize_ne (h : Layout cfg s a c H K blk l) (hroom : (K + 1) * cfg.blockSize < H + 2 ^ (cfg.w - 1)) :
    cfg.blockSize ≠ 2 ^ (cfg.w - 1) := by
  have := h.head_le
  rw [Nat.succ_mul] at hroom
  omega

/-- The next number's key is inserted, if the index has a place for it. -/
theorem insertBlockIndexEntry (h : Layout cfg s a c H K blk l)
    (hroom : (K + 1) * cfg.blockSize < H + 2 ^ (cfg.w - 1)) (mode : AllocMode) :
    (∃ s', s.insertBlockIndexEntry cfg mode (K * cfg.blockSize % 2 ^ cfg.w) = some (none, s') ∧ IndexOnly s s' ∧
      Layout cfg s' a c H K blk l ∧ (s.allocs = [] → s'.allocs = [])) ∨
    ∃ s' a' c', s.insertBlockIndexEntry cfg mode (K * cfg.blockSize % 2 ^ cfg.w)
        = some (some (a'.entryAt (c' + K)), s') ∧
      IndexOnly s s' ∧ (s.allocs = [] → s'.allocs = []) ∧ K < H / cfg.blockSize + a'.size ∧
      (K ≤ H / cfg.blockSize → s'.allocs = s.allocs) ∧ SameEntries a c a' c' (H / cfg.blockSize) K ∧
      IndexLayout cfg s' a' c' (H / cfg.blockSize) (K + 1) (K + 1) (values blk K) := by
  have hpos := cfg.pos_eq H
  have hslot := cfg.slot_lt H
  have hroom' := hroom
  rw [Nat.succ_mul] at hroom'
  rcases h.index.insertBlockIndexEntry h.head_div_le (fun k _ hkK => by rw [values_of_lt hkK]; exact nofun)
    (fun k hkK => values_of_ge hkK) (by omega) (h.blockSize_ne hroom) mode with ⟨s', hrun, honly, hi, -, hal⟩ |
    ⟨s', a', c', hrun, honly, hal, hlt, hstill, hsame, hi⟩
  · refine Or.inl ⟨s', hrun, honly, ?_, fun hnil => ?_⟩
    swap
    · rcases hal with ⟨-, rfl⟩ | hne
      · exact hnil
      · exact absurd hnil hne
    have hm : s'.blockManager = s.blockManager := by rw [honly.rest]
    have hb : s'.blocks = s.blocks := by rw [honly.rest]
    exact h.reindex (hm ▸ h.manager) (by rw [hm]) (fun q => by rw [hb]) (fun q _ => by rw [hb]) (by rw [honly.rest]) hi
  · have hsize := h.index.size_pos
    exact Or.inr ⟨s', a', c', hrun, honly, hal, hlt, fun hdead => hstill (by omega), hsame, hi⟩

/-- A key without a block is taken back. -/
theorem rewind {v : ℕ → Option ℕ} (hi : IndexLayout cfg s₁ a c (H / cfg.blockSize) (K + 1) (K + 1) v)
    (hk : H / cfg.blockSize ≤ K) (hlt : K < H / cfg.blockSize + a.size)
    (hv : ∀ k, k ≠ K → v k = values blk K k) :
    ∃ s₂ a', s₁.rewindBlockIndexTail cfg = some s₂ ∧ IndexOnly s₁ s₂ ∧ s₂.allocs = s₁.allocs ∧
      SameEntries a c a' c (H / cfg.blockSize) K ∧ IndexLayout cfg (s₂.storeValue (a.entryAt (c + K)) none) a' c (H / cfg.blockSize) K K (values blk K) := by
  obtain ⟨s₂, a', hrun, honly, hal, hsize, hindex, h₂⟩ := hi.rewindBlockIndexTail
  have hentry : a'.entryAt (c + K) = a.entryAt (c + K) := by
    rw [IndexEntryArray.entryAt, IndexEntryArray.entryAt, hsize, hindex]
  have h₃ := (h₂.shrink (Nat.le_succ K)).storeValue hk (by rw [hsize]; exact hlt) none
  rw [hentry] at h₃
  refine ⟨s₂, a', hrun, honly, hal, .of_index hsize hindex, h₃.congr_values fun k _ => ?_⟩
  by_cases heq : k = K
  · rw [heq, Function.update_self, values_of_ge le_rfl]
  · rw [Function.update_of_ne heq, hv k heq]

end Layout

/-! ## `Enqueue` -/

/-- What a requisition that threw leaves: a key at the tail that stands for no block. -/
structure Keyed (cfg : Cfg) (s s' : SlowQueue α) (H K : ℕ) (blk : ℕ → ℕ) : Prop where
  only : IndexOnly s s'
  index : ∃ a c, IndexLayout cfg s' a c (H / cfg.blockSize) (K + 1) (K + 1) (values blk K)

/-- Where no block is in use, such a key does no harm. -/
theorem Layout.of_keyed (h : Layout cfg s a c H K blk l) (hkeyed : Keyed cfg s s' H K blk)
    (hdead : K ≤ H / cfg.blockSize) : ∃ a c, Layout cfg s' a c H K blk l := by
  obtain ⟨a', c', hi⟩ := hkeyed.index
  have honly := hkeyed.only
  have hm : s'.blockManager = s.blockManager := by rw [honly.rest]
  have hb : s'.blocks = s.blocks := by rw [honly.rest]
  refine ⟨a', c' + 1, h.reindex (hm ▸ h.manager) (by rw [hm]) (fun q => by rw [hb]) (fun q _ => by rw [hb])
    (by rw [honly.rest]) ⟨hi.arr, hi.size, hi.nextSize, Or.inl (hi.span_of_pos (Nat.succ_pos K)), hi.tail_lt, ?_, hi.inj,
      hi.issued, by omega, fun k hk hkK => by omega, fun k hk hlt => ?_⟩⟩
  · rw [show c' + 1 + K = c' + (K + 1) by omega]
    exact hi.tail
  · -- every value of the turn is null
    have hnone : ∀ j, H / cfg.blockSize ≤ j → values blk K j = none := fun j hj => values_of_ge (hdead.trans hj)
    rw [hnone k hk, show c' + 1 + k = c' + (k + 1) by omega]
    by_cases hturn : k + 1 < H / cfg.blockSize + a'.size
    · rw [hi.values (k + 1) (by omega) hturn, hnone _ (by omega)]
    · rw [show c' + (k + 1) = c' + (H / cfg.blockSize) + a'.size by omega, IndexLayout.entryAt_add_size,
        hi.values _ le_rfl (by have := hi.size_pos; omega), hnone _ le_rfl]

namespace Inv

/-- The counters stay. -/
theorem of_layout (h : Inv cfg s H blk l) (hlay : ∃ a c, Layout cfg s' a c H (numBlocks cfg (H + l.length)) blk l)
    (hh : s'.headIndex = s.headIndex) (ht : s'.tailIndex = s.tailIndex)
    (ha : s'.dequeueAttemptsCount = s.dequeueAttemptsCount) (hf : s'.dequeueFailedCount = s.dequeueFailedCount) :
    Inv cfg s' H blk l :=
  ⟨hlay, hh.trans h.headIndex, ht.trans h.tailIndex, ha.trans h.attempts, hf.trans h.failed⟩

/-- The check for room, in element numbers. -/
theorem isFull_eq (hlay : Layout cfg s a c H K blk l) (hh : s.headIndex = H % 2 ^ cfg.w) :
    s.isFull cfg (K * cfg.blockSize % 2 ^ cfg.w) = !decide ((K + 1) * cfg.blockSize < H + 2 ^ (cfg.w - 1)) := by
  have hhalf := cfg.half_add_half
  have hroom := hlay.room
  have hle := hlay.head_le
  have hB := Nat.le_of_dvd (Nat.two_pow_pos _) cfg.blockSize_dvd_half
  have hBpos := cfg.blockSize_pos
  have hmul : (K + 1) * cfg.blockSize = K * cfg.blockSize + cfg.blockSize := Nat.succ_mul _ _
  have hlt := circularLessThan_mod (w := cfg.w) (a := H) (b := K * cfg.blockSize + cfg.blockSize) (by omega) (by omega)
  rw [isFull, hh, Word.add_mod_left, hmul, Bool.eq_iff_iff, Bool.not_eq_true', Bool.not_eq_true',
    decide_eq_false_iff_not, ← Bool.not_eq_true, hlt]
  omega

/-- The block numbers and the tail index at a block boundary. -/
theorem tailIndex_of_first (h : Inv cfg s H blk l) (hT : (H + l.length) % cfg.blockSize = 0) :
    s.tailIndex = numBlocks cfg (H + l.length) * cfg.blockSize % 2 ^ cfg.w := by
  rw [h.tailIndex, (numBlocks_of_first hT).1]

theorem tailIndex_mod (h : Inv cfg s H blk l) : s.tailIndex % cfg.blockSize = (H + l.length) % cfg.blockSize := by
  rw [h.tailIndex]
  exact Word.mod_mod_two_pow cfg.blockSizeLog2_le

/-- **`Enqueue`** in the middle of a block. -/
theorem enqueue_slot (h : Inv cfg s H blk l) (hT : (H + l.length) % cfg.blockSize ≠ 0) (mode : AllocMode)
    (item : Option α) :
    (item = none → s.enqueue cfg mode item = some (.threw, s)) ∧
      ∀ x, item = some x → ∃ s', s.enqueue cfg mode item = some (.returned true, s') ∧ Inv cfg s' H blk (l ++ [x]) := by
  obtain ⟨a, c, hlay⟩ := h.layout
  obtain ⟨hK, hK'⟩ := numBlocks_of_slot hT
  have hle : H / cfg.blockSize ≤ (H + l.length) / cfg.blockSize := Nat.div_le_div_right (Nat.le_add_right _ _)
  have htail : s.tailBlock = some (blk ((H + l.length) / cfg.blockSize)) := by
    rw [hK] at hlay
    exact hlay.tailBlock (Nat.lt_succ_of_le hle)
  refine ⟨?_, ?_⟩
  · rintro rfl
    simp only [SlowQueue.enqueue, h.tailIndex_mod, if_neg hT]
    exact Option.bind_eq_some_iff.mpr ⟨_, htail, rfl⟩
  · rintro x rfl
    have hroom : H + l.length < numBlocks cfg (H + l.length) * cfg.blockSize := by
      rw [hK, Nat.succ_mul]
      have := cfg.pos_eq (H + l.length)
      have := cfg.slot_lt (H + l.length)
      omega
    have hlay' := hlay.construct hroom x
    have hlen : H + (l ++ [x]).length = H + l.length + 1 := by
      rw [List.length_append, List.length_singleton, Nat.add_assoc]
    refine ⟨{ s with
        toSlots := s.construct (blk ((H + l.length) / cfg.blockSize)) ((H + l.length) % cfg.blockSize) x
        tailIndex := Word.add cfg.w s.tailIndex 1 }, ?_, ⟨a, c, ?_⟩, h.headIndex, ?_, h.attempts, h.failed⟩
    · simp only [SlowQueue.enqueue, h.tailIndex_mod, if_neg hT]
      exact Option.bind_eq_some_iff.mpr ⟨_, htail, rfl⟩
    · rw [hlen, hK', ← hK]
      exact hlay'.congr rfl rfl rfl rfl rfl rfl rfl
    · show Word.add cfg.w s.tailIndex 1 = _
      rw [h.tailIndex, Word.add_mod_left, hlen]

/-- **`Enqueue`** at a block boundary. -/
theorem enqueue_first (h : Inv cfg s H blk l) (hT : (H + l.length) % cfg.blockSize = 0) (mode : AllocMode)
    (item : Option α) :
    ∃ r s', s.enqueue cfg mode item = some (r, s') ∧
      ((∃ x blk', r = .returned true ∧ item = some x ∧ Inv cfg s' H blk' (l ++ [x])) ∨
        (r ≠ .returned true ∧ Inv cfg s' H blk l ∧ (r = .threw → item = none)) ∨
        (r = .threw ∧ s.allocs ≠ [] ∧ Keyed cfg s s' H (numBlocks cfg (H + l.length)) blk ∧
          ∃ e s₁, s.isFull cfg s.tailIndex = false ∧
            s.insertBlockIndexEntry cfg mode s.tailIndex = some (some e, s₁) ∧
            s₁.requisitionBlock mode = (.threw, s'))) := by
  obtain ⟨a, c, hlay⟩ := h.layout
  obtain ⟨hK, hK'⟩ := numBlocks_of_first hT
  have hfull := isFull_eq hlay h.headIndex
  have htail := h.tailIndex_of_first hT
  have hmod := h.tailIndex_mod
  rw [hT] at hmod
  generalize hKdef : numBlocks cfg (H + l.length) = K at hlay hK hK' hfull htail ⊢
  by_cases hroom : (K + 1) * cfg.blockSize < H + 2 ^ (cfg.w - 1)
  · rw [decide_eq_true hroom, Bool.not_true, ← htail] at hfull
    rcases hlay.insertBlockIndexEntry hroom mode with ⟨s₁, hins, honly, hlay₁, -⟩ |
      ⟨s₁, a₁, c₁, hins, honly, hal₁, hlt, -, -, hi₁⟩
    · -- no place in the index
      rw [← htail] at hins
      refine ⟨.returned false, s₁, ?_, Or.inr (Or.inl ⟨nofun, h.of_layout ?_ ?_ ?_ ?_ ?_, nofun⟩)⟩
      · simp only [SlowQueue.enqueue, hmod, if_true, hfull, Bool.false_eq_true, if_false]
        exact Option.bind_eq_some_iff.mpr ⟨_, hins, rfl⟩
      · exact ⟨a, c, hKdef ▸ hlay₁⟩
      all_goals rw [honly.rest]
    · rw [← htail] at hins
      have hm₁ : s₁.blockManager = s.blockManager := by rw [honly.rest]
      have hb₁ : s₁.blocks = s.blocks := by rw [honly.rest]
      rcases requisitionBlock_cases (hm₁ ▸ hlay.manager) mode with ⟨p, s₂, hreq, hp, hwf, hout, hal₂, hs₂⟩ |
        ⟨hreq, -⟩ | ⟨s₂, hreq, hal₂, hs₂⟩
      · have hi₂ : IndexLayout cfg (s₂.modifyPolicy p .reset) a₁ c₁ (H / cfg.blockSize) (K + 1) (K + 1) (values blk K) :=
          hi₁.congr (by rw [hs₂]; rfl) (by rw [hs₂]; rfl) (by rw [hs₂]; rfl) (by rw [hs₂]; rfl)
        rw [hm₁] at hp hout
        have hother : ∀ q ∈ s.blockManager.outstanding, q ≠ p := by
          rintro q hq rfl
          exact hp hq
        cases item with
        | none =>
            -- the constructor throws: key and block are taken back
            obtain ⟨s₃, a₃, hrew, honly₃, -, -, hi₃⟩ := Layout.rewind hi₂ hlay.head_div_le hlt fun _ _ => rfl
            have hm₃ : s₃.blockManager = s₂.blockManager := by rw [honly₃.rest]; rfl
            have hb₃ : s₃.toSlots = (s₂.modifyPolicy p .reset).toSlots := by rw [honly₃.rest]
            refine ⟨.threw, (s₃.storeValue (a₁.entryAt (c₁ + K)) none).returnBlock p, ?_,
              Or.inr (Or.inl ⟨nofun, h.of_layout ⟨a₃, c₁, ?_⟩ ?_ ?_ ?_ ?_, fun _ => rfl⟩)⟩
            · simp only [SlowQueue.enqueue, hmod, if_true, hfull, Bool.false_eq_true, if_false]
              refine Option.bind_eq_some_iff.mpr ⟨_, hins, ?_⟩
              simp only [hreq]
              exact Option.bind_eq_some_iff.mpr ⟨_, hrew, rfl⟩
            · rw [hKdef]
              refine hlay.reindex ?_ ?_ (fun q => ?_) (fun q hq => ?_) ?_ (hi₃.congr rfl rfl rfl rfl)
              · exact (hm₃ ▸ hwf).returnBlock (by
                  show p ∈ s₃.blockManager.outstanding
                  rw [hm₃, hout]
                  exact List.mem_cons_self)
              · show s₃.blockManager.outstanding.erase p = _
                rw [hm₃, hout, List.erase_cons_head]
              · show (s₃.toSlots.blocks q).elements = _
                rw [hb₃, elements_modifyPolicy, hs₂, honly.rest]
              · show (s₃.toSlots.blocks q).policy = _
                rw [hb₃, policy_modifyPolicy_of_ne _ (hother q hq), hs₂, honly.rest]
              · show s₃.tailBlock = _
                rw [honly₃.rest]
                show s₂.tailBlock = _
                rw [hs₂, honly.rest]
            all_goals
              show _ = _
              rw [SlowQueue.returnBlock, SlowQueue.storeValue, honly₃.rest]
              show _ = _
              rw [SlowQueue.modifyPolicy, hs₂, honly.rest]
        | some x =>
            have hi₃ := hi₂.storeValue hlay.head_div_le hlt (some p)
            rw [values_update] at hi₃
            have hpush : Layout cfg
                { (s₂.modifyPolicy p .reset).storeValue (a₁.entryAt (c₁ + K)) (some p) with tailBlock := some p }
                a₁ c₁ H (K + 1) (Function.update blk K p) l := by
              refine hlay.push hwf hp hout (hi₃.congr rfl rfl rfl rfl) (fun q => ?_) (fun q hq => ?_) ?_ rfl hroom
              · refine (elements_modifyPolicy _).trans ?_
                rw [hs₂, honly.rest]
              · refine (policy_modifyPolicy_of_ne _ hq).trans ?_
                rw [hs₂, honly.rest]
              · exact congrArg CounterCheckPolicy.counter (policy_modifyPolicy_self _)
            have hslot : (H + l.length) / cfg.blockSize = K := by
              rw [← hK]
              exact Nat.mul_div_cancel _ cfg.blockSize_pos
            have hcons := hpush.construct (by rw [Nat.succ_mul]; have := cfg.blockSize_pos; omega) x
            rw [hslot, hT, Function.update_self] at hcons
            have hlen : H + (l ++ [x]).length = H + l.length + 1 := by
              rw [List.length_append, List.length_singleton, Nat.add_assoc]
            refine ⟨.returned true, { { s₂.modifyPolicy p .reset with
              toSlots := (s₂.modifyPolicy p .reset).construct p 0 x }.storeValue (a₁.entryAt (c₁ + K)) (some p) with
                tailBlock := some p, tailIndex := Word.add cfg.w s.tailIndex 1 }, ?_,
              Or.inl ⟨x, Function.update blk K p, rfl, rfl, ⟨a₁, c₁, ?_⟩, ?_, ?_, ?_, ?_⟩⟩
            · simp only [SlowQueue.enqueue, hmod, if_true, hfull, Bool.false_eq_true, if_false]
              refine Option.bind_eq_some_iff.mpr ⟨_, hins, ?_⟩
              simp only [hreq]
            · rw [hlen, hK']
              exact hcons.congr rfl rfl rfl rfl rfl rfl rfl
            · show s₂.headIndex = _
              rw [hs₂, honly.rest]
              exact h.headIndex
            · show Word.add cfg.w s.tailIndex 1 = _
              rw [h.tailIndex, Word.add_mod_left, hlen]
            · show s₂.dequeueAttemptsCount = _
              rw [hs₂, honly.rest]
              exact h.attempts
            · show s₂.dequeueFailedCount = _
              rw [hs₂, honly.rest]
              exact h.failed
      · -- no block: the key is taken back
        obtain ⟨s₂, a₂, hrew, honly₂, -, -, hi₂⟩ := Layout.rewind hi₁ hlay.head_div_le hlt fun _ _ => rfl
        have hrest : IndexOnly s (s₂.storeValue (a₁.entryAt (c₁ + K)) none) :=
          (honly.trans honly₂).trans (.storeValue s₂ _ _)
        refine ⟨.returned false, s₂.storeValue (a₁.entryAt (c₁ + K)) none, ?_,
          Or.inr (Or.inl ⟨nofun, h.of_layout ⟨a₂, c₁, ?_⟩ ?_ ?_ ?_ ?_, nofun⟩)⟩
        · simp only [SlowQueue.enqueue, hmod, if_true, hfull, Bool.false_eq_true, if_false]
          refine Option.bind_eq_some_iff.mpr ⟨_, hins, ?_⟩
          simp only [hreq]
          exact Option.bind_eq_some_iff.mpr ⟨_, hrew, rfl⟩
        · have hm₂ : (s₂.storeValue (a₁.entryAt (c₁ + K)) none).blockManager = s.blockManager := by rw [hrest.rest]
          have hb₂ : (s₂.storeValue (a₁.entryAt (c₁ + K)) none).blocks = s.blocks := by rw [hrest.rest]
          rw [hKdef]
          exact hlay.reindex (hm₂ ▸ hlay.manager) (by rw [hm₂]) (fun q => by rw [hb₂]) (fun q _ => by rw [hb₂])
            (by rw [hrest.rest]) hi₂
        all_goals rw [hrest.rest]
      · -- the requisition throws
        refine ⟨.threw, s₂, ?_, Or.inr (Or.inr ⟨rfl, fun hnil => hal₂ (hal₁ hnil), ⟨honly.trans ⟨by rw [hs₂]⟩, a₁, c₁,
          hi₁.congr (by rw [hs₂]) (by rw [hs₂]) (by rw [hs₂]) (by rw [hs₂])⟩, _, s₁, hfull, hins, hreq⟩)⟩
        simp only [SlowQueue.enqueue, hmod, if_true, hfull, Bool.false_eq_true, if_false]
        refine Option.bind_eq_some_iff.mpr ⟨_, hins, ?_⟩
        simp only [hreq]
  · rw [decide_eq_false hroom, Bool.not_false, ← htail] at hfull
    refine ⟨.returned false, s, ?_, Or.inr (Or.inl ⟨nofun, h, nofun⟩)⟩
    simp only [SlowQueue.enqueue, hmod, if_true, hfull]

end Inv

end SlowQueue

end LockFreeStructures
