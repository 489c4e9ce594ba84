import LockFreeStructures.FastQueue.Acquire

/-!
# `FastQueue.Dequeue` — the invariant between calls, and what `Dequeue` and `DequeueBulk` do under it

Between calls the block numbers given out are just those that the elements enqueued so far need, `Tail`
of the index array is at the newest of them, and the counters are the element numbers, wrapped. Run
alone, no dequeue ever fails once it has counted itself.
-/

namespace LockFreeStructures

namespace FastQueue

variable {α : Type} {cfg : Cfg} {s s' : FastQueue α} {p q : ℕ} {blk : ℕ → ℕ} {k₀ K H : ℕ}
  {front : List ℕ} {l : List α}

/-! ## The invariant -/

/-- **The invariant between calls.** The queue holds the list `l`; its first element is number `H`. -/
structure Inv (cfg : Cfg) (s : FastQueue α) (H : ℕ) (blk : ℕ → ℕ) (front : List ℕ) (l : List α) :
    Prop where
  layout : Layout cfg s H (numBlocks cfg (H + l.length)) blk front l
  headIndex : s.headIndex = H % 2 ^ cfg.w
  tailIndex : s.tailIndex = (H + l.length) % 2 ^ cfg.w
  attempts : s.dequeueAttemptsCount = H % 2 ^ cfg.w
  failed : s.dequeueFailedCount = 0
  tailSlot : 0 < H + l.length →
    s.tailSlot = some (slotBack s.indexEntriesSize s.nextIndexEntry 1)

/-- `Size()` is the length of the list. -/
theorem Inv.size_eq (h : Inv cfg s H blk front l) (hlen : l.length < 2 ^ (cfg.w - 1)) :
    s.size cfg = l.length := by
  have hhalf := cfg.half_add_half
  have hlt := circularLessThan_mod_of_lt (a := H) (b := H + l.length) cfg.w_pos (Nat.le_add_right _ _)
    (by omega)
  rw [size, h.headIndex, h.tailIndex, Word.sub_mod_mod (Nat.le_add_right _ _) (by omega),
    Nat.add_sub_cancel_left]
  by_cases hl : l.length = 0
  · rw [hl, ite_self]
  · rw [if_pos (hlt.mpr (by omega))]

/-- A call begins with the invariant. -/
theorem Inv.begin (h : Inv cfg s H blk front l) (allocs : List Bool) :
    Inv cfg (s.begin allocs) H blk front l :=
  ⟨h.layout.congr rfl rfl rfl rfl rfl rfl rfl, h.headIndex, h.tailIndex, h.attempts, h.failed, h.tailSlot⟩

/-! ## Taking elements -/

/-- The queue has changed in the slots and policies of its blocks and the events only. -/
structure SlotsOnly (s s' : FastQueue α) : Prop where
  rest : s' = { s with blocks := s'.blocks, events := s'.events }
  next : ∀ q, (s'.blocks q).next = (s.blocks q).next

namespace SlotsOnly

theorem refl (s : FastQueue α) : SlotsOnly s s := ⟨rfl, fun _ => rfl⟩

theorem trans {s'' : FastQueue α} (h : SlotsOnly s s') (h' : SlotsOnly s' s'') : SlotsOnly s s'' := by
  refine ⟨?_, fun q => (h'.next q).trans (h.next q)⟩
  rw [h'.rest, h.rest]

theorem ring (h : SlotsOnly s s') (hr : RingLayout s blk k₀ K front) : RingLayout s' blk k₀ K front :=
  hr.congr h.next (by rw [h.rest]) (by rw [h.rest]) (by rw [h.rest])

theorem index (h : SlotsOnly s s') (hi : IndexLayout cfg s blk k₀ K) : IndexLayout cfg s' blk k₀ K :=
  hi.congr (by rw [h.rest]) (by rw [h.rest]) (by rw [h.rest]) (by rw [h.rest])

end SlotsOnly

/-- The oldest live blocks, without elements by now, go to the front. -/
theorem RingLayout.drop (h : RingLayout s blk k₀ K front) {k₁ : ℕ} (h₁ : k₀ ≤ k₁) (h₂ : k₁ ≤ K) :
    RingLayout s blk k₁ K (front ++ liveBlocks blk k₀ k₁) := by
  have hsplit : front ++ liveBlocks blk k₀ k₁ ++ liveBlocks blk k₁ K = front ++ liveBlocks blk k₀ K := by
    rw [List.append_assoc, ← liveBlocks_append h₁ h₂]
  exact ⟨h.manager, h.used, hsplit ▸ h.ring, hsplit ▸ h.tail, hsplit ▸ h.owned⟩

/-- **One block's worth.** Elements of the oldest live block are moved out and their slots marked empty. -/
theorem Layout.takeRange (h : Layout cfg s H K blk front l) {m : ℕ} (hm : m ≤ l.length)
    (hlt : H < K * cfg.blockSize) (him : H % cfg.blockSize + m ≤ cfg.blockSize) :
    ∃ s₁, s.takeRange (blk (H / cfg.blockSize)) (H % cfg.blockSize) m = some (l.take m, s₁) ∧
      ElementsOnly s s₁ ∧
      ∀ f : FlagsCheckPolicy → FlagsCheckPolicy, f = .setSomeEmpty (H % cfg.blockSize) m →
        SlotsOnly s (s₁.modifyPolicy (blk (H / cfg.blockSize)) f) ∧
        Layout cfg (s₁.modifyPolicy (blk (H / cfg.blockSize)) f) (H + m) K blk
          (front ++ liveBlocks blk (H / cfg.blockSize) ((H + m) / cfg.blockSize)) (l.drop m) := by
  have hk : H / cfg.blockSize < K := cfg.block_lt hlt
  have hpos := cfg.pos_eq H
  have hlen : (l.take m).length = m := List.length_take_of_le hm
  obtain ⟨s₁, htake, hel, honly, -⟩ := takeRange_eq h.blk_inj (Nat.le_refl _) hk (l.take m)
    (i := H % cfg.blockSize) h.elements (by rw [hlen]; exact him) (by
      intro j hj
      rw [hlen] at hj
      rw [hpos, contents, if_pos (Nat.le_add_right _ _), Nat.add_sub_cancel_left, List.getElem?_take,
        if_pos hj])
  rw [hlen] at htake hel
  rw [hpos, clearFrom_contents_drop] at hel
  refine ⟨s₁, htake, honly, ?_⟩
  rintro f rfl
  have hslots : SlotsOnly s (s₁.modifyPolicy (blk (H / cfg.blockSize))
      (.setSomeEmpty (H % cfg.blockSize) m)) :=
    ⟨by rw [modifyPolicy, modifyBlock, honly.rest], fun q => (next_modifyPolicy _).trans (honly.next q)⟩
  have hle : H / cfg.blockSize ≤ (H + m) / cfg.blockSize := Nat.div_le_div_right (Nat.le_add_right _ _)
  have hfits := h.fits
  have hle' : (H + m) / cfg.blockSize ≤ K :=
    Nat.div_le_of_le_mul (by rw [Nat.mul_comm]; omega)
  have hflags : FlagsLayout cfg (s₁.modifyPolicy (blk (H / cfg.blockSize))
      (.setSomeEmpty (H % cfg.blockSize) m)) (H + m) blk (H / cfg.blockSize) K := by
    refine h.flags.consume hpos him ?_ fun k hk' hkK => ?_
    · rw [policy_modifyPolicy_self, honly.policy]
    · refine (policy_modifyPolicy_of_ne _ ?_).trans (honly.policy _)
      intro heq
      exact hk'.ne (h.blk_inj _ _ hk'.le hkK (Nat.le_refl _) hk heq).symm
  refine ⟨hslots, (hslots.ring h.ring).drop hle hle', (hslots.index h.index).drop hle, hflags.drop hle, ?_, ?_⟩
  · refine ElementsLayout.drop (hel.congr fun _ => elements_modifyPolicy _) hle fun n hn => contents_of_lt ?_
    have := cfg.pos_eq (H + m)
    omega
  · rw [List.length_drop]
    omega

/-- **The loop of `DequeueBulk`** moves out the front of the list, block by block. -/
theorem Layout.takeBlocks :
    ∀ {fuel need H : ℕ} {front : List ℕ} {l : List α} {s : FastQueue α} {p : Option ℕ},
      Layout cfg s H K blk front l → need ≤ l.length → need ≤ fuel →
      (0 < need → p = some (blk (H / cfg.blockSize))) →
      ∃ s', s.takeBlocks cfg fuel p (H % cfg.blockSize) need = some (l.take need, s') ∧ SlotsOnly s s' ∧
        Layout cfg s' (H + need) K blk
          (front ++ liveBlocks blk (H / cfg.blockSize) ((H + need) / cfg.blockSize)) (l.drop need) := by
  intro fuel
  induction fuel with
  | zero =>
      intro need H front l s p h _ hfuel _
      obtain rfl : need = 0 := Nat.le_zero.mp hfuel
      exact ⟨s, rfl, .refl s, by simpa using h⟩
  | succ fuel ih =>
      intro need H front l s p h hneed hfuel hp
      cases need with
      | zero => exact ⟨s, rfl, .refl s, by simpa using h⟩
      | succ need =>
          obtain rfl := hp (Nat.succ_pos _)
          have hfits := h.fits
          have hlt : H < K * cfg.blockSize := by omega
          have hk : H / cfg.blockSize < K := cfg.block_lt hlt
          have hpos := cfg.pos_eq H
          have hslot := cfg.slot_lt H
          -- the elements of this block
          obtain ⟨m, hm, hmB, hmend, hmne⟩ : ∃ m, m ≤ need + 1 ∧ H % cfg.blockSize + m ≤ cfg.blockSize ∧
              (if need + 1 > cfg.blockSize - H % cfg.blockSize then cfg.blockSize
                else need + 1 + H % cfg.blockSize) - H % cfg.blockSize = m ∧
              (0 < need + 1 - m → H % cfg.blockSize + m = cfg.blockSize) := by
            by_cases hmore : need + 1 > cfg.blockSize - H % cfg.blockSize
            · exact ⟨cfg.blockSize - H % cfg.blockSize, by omega, by omega, by rw [if_pos hmore], by omega⟩
            · exact ⟨need + 1, Nat.le_refl _, by omega, by rw [if_neg hmore]; omega, by omega⟩
          obtain ⟨s₁, htake, honly, hflags⟩ := h.takeRange (by omega) hlt hmB
          obtain ⟨hslots, hlay⟩ := hflags _ rfl
          have hdiv : 0 < need + 1 - m → (H + m) / cfg.blockSize = H / cfg.blockSize + 1 := by
            intro hrest
            have hnum : H + m = (H / cfg.blockSize + 1) * cfg.blockSize + 0 := by
              rw [Nat.succ_mul]
              have := hmne hrest
              omega
            rw [hnum]
            exact Cfg.pos_div cfg.blockSize_pos
          have hmod : 0 < need + 1 - m → (H + m) % cfg.blockSize = 0 := by
            intro hrest
            have hnum : H + m = (H / cfg.blockSize + 1) * cfg.blockSize + 0 := by
              rw [Nat.succ_mul]
              have := hmne hrest
              omega
            rw [hnum]
            exact Cfg.pos_mod cfg.blockSize_pos
          have hmpos : 0 < m := by
            by_contra h0
            have := hmne (by omega)
            omega
          have hnextp : 0 < need + 1 - m →
              (s₁.blocks (blk (H / cfg.blockSize))).next = some (blk ((H + m) / cfg.blockSize)) := by
            intro hrest
            rw [honly.next, hdiv hrest]
            refine h.ring.next_blk (Nat.le_refl _) ?_
            have hmul : (H / cfg.blockSize + 1) * cfg.blockSize = _ := Nat.succ_mul _ _
            have := hmne hrest
            refine Nat.lt_of_mul_lt_mul_right (a := cfg.blockSize) ?_
            omega
          obtain ⟨s', hloop, hslots', hlay'⟩ := @ih (need + 1 - m) _ _ _ _
            (s₁.blocks (blk (H / cfg.blockSize))).next hlay (by rw [List.length_drop]; omega)
            (by omega) hnextp
          have hstart : (s₁.modifyPolicy (blk (H / cfg.blockSize))
                (.setSomeEmpty (H % cfg.blockSize) m)).takeBlocks cfg fuel
                (s₁.blocks (blk (H / cfg.blockSize))).next 0 (need + 1 - m)
              = some ((l.drop m).take (need + 1 - m), s') := by
            rcases Nat.eq_zero_or_pos (need + 1 - m) with h0 | hrest
            · rw [h0] at hloop ⊢
              rw [← hloop]
              cases fuel <;> rfl
            · rw [hmod hrest] at hloop
              exact hloop
          refine ⟨s', ?_, hslots.trans hslots', ?_⟩
          · simp only [FastQueue.takeBlocks, Option.bind_eq_bind, Option.bind_some, hmend, htake, hstart]
            rw [show need + 1 = m + (need + 1 - m) by omega, List.take_add, Nat.add_sub_cancel_left]
          · have hle₁ : H / cfg.blockSize ≤ (H + m) / cfg.blockSize :=
              Nat.div_le_div_right (Nat.le_add_right _ _)
            have hle₂ : (H + m) / cfg.blockSize ≤ (H + (need + 1)) / cfg.blockSize :=
              Nat.div_le_div_right (by omega)
            rw [show H + m + (need + 1 - m) = H + (need + 1) by omega, List.append_assoc,
              ← liveBlocks_append hle₁ hle₂, List.drop_drop, show m + (need + 1 - m) = need + 1 by omega] at hlay'
            exact hlay'

/-! ## `Dequeue` and `DequeueBulk` -/

/-- A dequeue that took `m` elements and moved the two head counters keeps the invariant. -/
theorem Inv.advance (h : Inv cfg s H blk front l) {front' : List ℕ} {m : ℕ} (hm : m ≤ l.length)
    (hlay : Layout cfg s' (H + m) (numBlocks cfg (H + l.length)) blk front' (l.drop m))
    (hrest : s' = { s with
      headIndex := Word.add cfg.w s.headIndex m
      dequeueAttemptsCount := Word.add cfg.w s.dequeueAttemptsCount m
      blocks := s'.blocks, events := s'.events }) : Inv cfg s' (H + m) blk front' (l.drop m) := by
  have hT : H + m + (l.drop m).length = H + l.length := by
    rw [List.length_drop]
    omega
  refine ⟨by rw [hT]; exact hlay, ?_, ?_, ?_, ?_, fun hpos => ?_⟩
  · rw [hrest]
    show Word.add cfg.w s.headIndex m = _
    rw [h.headIndex, Word.add_mod_left]
  · rw [hrest, hT]
    exact h.tailIndex
  · rw [hrest]
    show Word.add cfg.w s.dequeueAttemptsCount m = _
    rw [h.attempts, Word.add_mod_left]
  · rw [hrest]
    exact h.failed
  · rw [hrest]
    exact h.tailSlot (by omega)

/-- The head's element is looked up to its block. -/
theorem Inv.lookup_head (h : Inv cfg s H blk front l) (hl : 0 < l.length) :
    s.lookup cfg s.headIndex = some (blk (H / cfg.blockSize)) := by
  have hfits := h.layout.fits
  rw [h.headIndex]
  exact h.layout.index.lookup_eq (by omega) (h.tailSlot (by omega))

/-- **`Dequeue`** fails on an empty queue and leaves it alone. -/
theorem Inv.dequeue_nil (h : Inv cfg s H blk front ([] : List α)) : s.dequeue cfg = some (none, s) := by
  have hlt := circularLessThan_mod_of_lt (a := H) (b := H) cfg.w_pos (Nat.le_refl _) (by simp)
  have htail := h.tailIndex
  simp only [List.length_nil, Nat.add_zero] at htail
  have hfalse : circularLessThan cfg.w (H % 2 ^ cfg.w) (H % 2 ^ cfg.w) = false := by
    rw [← Bool.not_eq_true, hlt]
    exact Nat.lt_irrefl _
  simp only [dequeue, h.failed, h.attempts, htail, Word.sub_zero, hfalse, Bool.false_eq_true, if_false]

/-- **`Dequeue`** takes the first element of a queue that has one. -/
theorem Inv.dequeue_cons {a : α} (h : Inv cfg s H blk front (a :: l))
    (hlen : (a :: l).length < 2 ^ (cfg.w - 1)) :
    ∃ s', s.dequeue cfg = some (some a, s') ∧
      Inv cfg s' (H + 1) blk (front ++ liveBlocks blk (H / cfg.blockSize) ((H + 1) / cfg.blockSize)) l ∧
      SlotsOnly { s with headIndex := s'.headIndex, dequeueAttemptsCount := s'.dequeueAttemptsCount } s' := by
  have hfits := h.layout.fits
  rw [List.length_cons] at hlen
  have hlt : circularLessThan cfg.w (H % 2 ^ cfg.w) s.tailIndex = true := by
    rw [h.tailIndex, circularLessThan_mod_of_lt cfg.w_pos (Nat.le_add_right _ _)] <;>
      rw [List.length_cons] <;> omega
  have hlookup := h.lookup_head (by simp)
  have hseen : Word.sub cfg.w s.dequeueAttemptsCount s.dequeueFailedCount = H % 2 ^ cfg.w := by
    rw [h.attempts, h.failed, Word.sub_zero]
  have hslot := cfg.slot_lt H
  have hne : 0 < (a :: l).length := by simp
  have hcounted : Layout cfg { s with
      headIndex := Word.add cfg.w s.headIndex 1
      dequeueAttemptsCount := Word.add cfg.w s.dequeueAttemptsCount 1 } H _ blk front (a :: l) :=
    h.layout.congr rfl rfl rfl rfl rfl rfl rfl
  obtain ⟨s₁, htake, honly, hflags⟩ := hcounted.takeRange (m := 1) (by simp) (by omega) (by omega)
  obtain ⟨hslots, hlay⟩ := hflags (.setEmpty (H % cfg.blockSize)) (by
    funext f
    exact FlagsCheckPolicy.setEmpty_eq_setSomeEmpty _)
  -- the single element is what a range of one takes
  have htake₁ : ({ s with
      headIndex := Word.add cfg.w s.headIndex 1
      dequeueAttemptsCount := Word.add cfg.w s.dequeueAttemptsCount 1 } : FastQueue α).takeElement
        (blk (H / cfg.blockSize)) (H % cfg.blockSize) = some (a, s₁) := by
    simp only [FastQueue.takeRange, Option.bind_eq_bind, Option.bind_eq_some_iff, Option.some.injEq,
      List.take_succ_cons, List.take_zero, Prod.mk.injEq] at htake
    obtain ⟨⟨a', s₂⟩, htake, ⟨as, s₃⟩, ⟨rfl, rfl⟩, hcons, rfl⟩ := htake
    obtain rfl : a' = a := (List.cons.inj hcons).1
    exact htake
  have hmod : s.headIndex % cfg.blockSize = H % cfg.blockSize := by
    rw [h.headIndex]
    exact Word.mod_mod_two_pow cfg.blockSizeLog2_le
  refine ⟨_, ?_, h.advance (m := 1) (by simp) hlay ?_, ?_⟩
  · have hlookup' : FastQueue.lookup cfg s.headIndex { s with
        headIndex := Word.add cfg.w s.headIndex 1
        dequeueAttemptsCount := Word.add cfg.w s.dequeueAttemptsCount 1 } = _ := hlookup
    simp only [dequeue, hseen, hlt, if_true, hlookup', htake₁, hmod, Option.bind_eq_bind, Option.bind_some]
  · exact hslots.rest
  · rw [hslots.rest]
    exact ⟨rfl, hslots.next⟩

/-- **`DequeueBulk`** takes as many elements as it may and as there are. -/
theorem Inv.dequeueBulk (h : Inv cfg s H blk front l) (hlen : l.length < 2 ^ (cfg.w - 1)) (maxCount : ℕ) :
    ∃ s', s.dequeueBulk cfg maxCount = some (l.take maxCount, s') ∧
      Inv cfg s' (H + min l.length maxCount) blk
        (front ++ liveBlocks blk (H / cfg.blockSize) ((H + min l.length maxCount) / cfg.blockSize))
        (l.drop maxCount) ∧
      SlotsOnly { s with headIndex := s'.headIndex, dequeueAttemptsCount := s'.dequeueAttemptsCount } s' ∧
      (min l.length maxCount = 0 → s'.blocks = s.blocks) := by
  have hhalf := cfg.half_add_half
  have hdesired : Word.sub cfg.w s.tailIndex (H % 2 ^ cfg.w) = l.length := by
    rw [h.tailIndex, Word.sub_mod_mod (Nat.le_add_right _ _) (by omega), Nat.add_sub_cancel_left]
  have hlt : circularLessThan cfg.w 0 l.length = true ↔ 0 < l.length := by
    have := circularLessThan_mod_of_lt (a := 0) (b := l.length) cfg.w_pos (Nat.zero_le _) (by omega)
    rwa [Nat.zero_mod, Nat.mod_eq_of_lt (by omega : l.length < 2 ^ cfg.w)] at this
  rcases Nat.eq_zero_or_pos l.length with h0 | hpos
  · obtain rfl := List.length_eq_zero_iff.mp h0
    refine ⟨s, ?_, by simpa using h, .refl s, fun _ => rfl⟩
    have hfalse : circularLessThan cfg.w 0 ([] : List α).length = false := by
      rw [← Bool.not_eq_true, hlt]
      exact Nat.lt_irrefl _
    simp only [FastQueue.dequeueBulk, h.failed, h.attempts, Word.sub_zero, hdesired, hfalse, Bool.false_eq_true,
      if_false, List.take_nil]
  · have hmod : s.headIndex % cfg.blockSize = H % cfg.blockSize := by
      rw [h.headIndex]
      exact Word.mod_mod_two_pow cfg.blockSizeLog2_le
    have hcounted : Layout cfg { s with
        headIndex := Word.add cfg.w s.headIndex (min l.length maxCount)
        dequeueAttemptsCount := Word.add cfg.w s.dequeueAttemptsCount (min l.length maxCount) } H _ blk front l :=
      h.layout.congr rfl rfl rfl rfl rfl rfl rfl
    obtain ⟨s', htake, hslots, hlay⟩ := hcounted.takeBlocks
      (Nat.min_le_left _ maxCount) (Nat.le_refl _) (fun _ => rfl)
    have hmin : l.take (min l.length maxCount) = l.take maxCount ∧
        l.drop (min l.length maxCount) = l.drop maxCount := by
      rcases Nat.le_total l.length maxCount with hle | hle
      · rw [Nat.min_eq_left hle, List.take_of_length_le hle, List.take_length, List.drop_of_length_le hle,
          List.drop_length]
        exact ⟨rfl, rfl⟩
      · rw [Nat.min_eq_right hle]
        exact ⟨rfl, rfl⟩
    have hinv := h.advance (Nat.min_le_left _ _) hlay hslots.rest
    rw [hmin.2] at hinv
    rw [hmin.1] at htake
    refine ⟨s', ?_, hinv, ?_, fun h0 => ?_⟩
    · have hlookup' : FastQueue.lookup cfg s.headIndex { s with
          headIndex := Word.add cfg.w s.headIndex (min l.length maxCount)
          dequeueAttemptsCount := Word.add cfg.w s.dequeueAttemptsCount (min l.length maxCount) } = _ :=
        h.lookup_head hpos
      have hle : min l.length (min l.length maxCount) = min l.length maxCount :=
        Nat.min_eq_right (Nat.min_le_left _ _)
      have hseen : Word.sub cfg.w s.dequeueAttemptsCount s.dequeueFailedCount = H % 2 ^ cfg.w := by
        rw [h.attempts, h.failed, Word.sub_zero]
      simp only [FastQueue.dequeueBulk, hseen, hdesired, hlt.mpr hpos, if_true, hle, Nat.lt_irrefl, if_false,
        hlookup', hmod, Option.bind_eq_bind, Option.bind_some]
      exact htake
    · rw [hslots.rest]
      exact ⟨rfl, hslots.next⟩
    · simp only [h0, FastQueue.takeBlocks, Option.some.injEq, Prod.mk.injEq] at htake
      rw [← htake.2]

end FastQueue

end LockFreeStructures
