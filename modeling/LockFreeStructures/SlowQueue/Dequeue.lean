import LockFreeStructures.SlowQueue.Layout

/-!
# `SlowQueue.Dequeue` — the invariant between calls, and what `Dequeue` and `DequeueBulk` do under it

Between calls the block numbers given out are those the elements enqueued so far need, and the counters are the
element numbers, wrapped. Run alone, no dequeue fails once it has counted itself.
-/

namespace LockFreeStructures

namespace SlowQueue

variable {α : Type} {cfg : Cfg} {s s' : SlowQueue α} {a : IndexEntryArray} {c H K : ℕ} {blk : ℕ → ℕ} {l : List α}

/-! ## The invariant -/

/-- **The invariant between calls.** The queue holds the list `l`; its first element is number `H`. -/
structure Inv (cfg : Cfg) (s : SlowQueue α) (H : ℕ) (blk : ℕ → ℕ) (l : List α) : Prop where
  layout : ∃ a c, Layout cfg s a c H (numBlocks cfg (H + l.length)) blk l
  headIndex : s.headIndex = H % 2 ^ cfg.w
  tailIndex : s.tailIndex = (H + l.length) % 2 ^ cfg.w
  attempts : s.dequeueAttemptsCount = H % 2 ^ cfg.w
  failed : s.dequeueFailedCount = 0

namespace Inv

theorem length_lt (h : Inv cfg s H blk l) : l.length < 2 ^ (cfg.w - 1) := by
  obtain ⟨a, c, hlay⟩ := h.layout
  exact hlay.length_lt

/-- `Size()` is the length of the list. -/
theorem size_eq (h : Inv cfg s H blk l) : s.size cfg = l.length := by
  have hhalf := cfg.half_add_half
  have hlen := h.length_lt
  have hlt := circularLessThan_mod_of_lt (a := H) (b := H + l.length) cfg.w_pos (Nat.le_add_right _ _)
    (by omega)
  rw [size, h.headIndex, h.tailIndex, Word.sub_mod_mod (Nat.le_add_right _ _) (by omega),
    Nat.add_sub_cancel_left]
  by_cases hl : l.length = 0
  · rw [hl, ite_self]
  · rw [if_pos (hlt.mpr (by omega))]

/-- The indices are equal when the list is empty. -/
theorem headIndex_eq_iff (h : Inv cfg s H blk l) : s.headIndex = s.tailIndex ↔ l = [] := by
  have hlen := h.length_lt
  have hhalf := cfg.half_add_half
  rw [h.headIndex, h.tailIndex]
  refine ⟨fun heq => ?_, fun hl => by rw [hl, List.length_nil, Nat.add_zero]⟩
  have hmodeq : H + 0 ≡ H + l.length [MOD 2 ^ cfg.w] := heq
  have hzero := (hmodeq.add_left_cancel' H).eq_of_lt_of_lt (Nat.two_pow_pos _) (by omega)
  exact List.eq_nil_of_length_eq_zero hzero.symm

/-- A call begins with the invariant. -/
theorem begin (h : Inv cfg s H blk l) (allocs : List Bool) : Inv cfg (s.begin allocs) H blk l := by
  obtain ⟨a, c, hlay⟩ := h.layout
  exact ⟨⟨a, c, hlay.congr rfl rfl rfl rfl rfl rfl rfl⟩, h.headIndex, h.tailIndex, h.attempts, h.failed⟩

/-- The blocks outside the manager are those with a slot that is not dequeued yet. -/
theorem mem_outstanding_iff (h : Inv cfg s H blk l) {p : ℕ} : p ∈ s.blockManager.outstanding ↔
    ∃ k, H / cfg.blockSize ≤ k ∧ k < numBlocks cfg (H + l.length) ∧ blk k = p := by
  obtain ⟨a, c, hlay⟩ := h.layout
  rw [hlay.outstanding.mem_iff, mem_liveBlocks]

end Inv

/-! ## Taking elements -/

/-- One round of the loop. -/
theorem takeBlocks_succ {fuel i start need e p m : ℕ} {as : List α} {m₁ : Slots CounterCheckPolicy α}
    (ha : s.currentIndexEntryArray = some a) (he : a.get i = some e) (hv : (s.entries e).value = some p)
    (hend : (if need + 1 > cfg.blockSize - start then cfg.blockSize else need + 1 + start) - start = m)
    (htake : s.toSlots.takeRange p start m = some (as, m₁)) :
    s.takeBlocks cfg (fuel + 1) i start (need + 1) =
      (({ s with toSlots := m₁ }.setSomeEmpty cfg e p m).takeBlocks cfg fuel ((i + 1) % a.size) 0 (need + 1 - m)).map
        fun r : List α × SlowQueue α => (as ++ r.1, r.2) := by
  cases s
  cases ha
  dsimp only at hv htake
  simp only [SlowQueue.takeBlocks, Option.bind_eq_bind, Option.bind_some, he, hv, hend, htake]
  generalize SlowQueue.takeBlocks cfg fuel _ _ _ _ = o
  cases o <;> rfl

/-- **The loop of `DequeueBulk`** moves out the front of the list, block by block. -/
theorem Layout.takeBlocks : ∀ {fuel need H : ℕ} {l : List α} {s : SlowQueue α},
    Layout cfg s a c H K blk l → need ≤ l.length → need ≤ fuel →
    ∃ s', s.takeBlocks cfg fuel ((c + H / cfg.blockSize) % a.size) (H % cfg.blockSize) need
        = some (l.take need, s') ∧ TakenFrom s s' ∧ Layout cfg s' a c (H + need) K blk (l.drop need) := by
  intro fuel
  induction fuel with
  | zero =>
      intro need H l s h _ hfuel
      obtain rfl : need = 0 := Nat.le_zero.mp hfuel
      exact ⟨s, rfl, .refl s, by simpa using h⟩
  | succ fuel ih =>
      intro need H l s h hneed hfuel
      cases need with
      | zero => exact ⟨s, rfl, .refl s, by simpa using h⟩
      | succ need =>
          have hfits := h.fits
          have hk : H / cfg.blockSize < K := cfg.block_lt (by omega)
          have hslot := cfg.slot_lt H
          -- the elements of this block
          obtain ⟨m, hm, hm₀, hmB, hmend, hmne⟩ : ∃ m, m ≤ need + 1 ∧ 0 < m ∧ H % cfg.blockSize + m ≤ cfg.blockSize ∧
              (if need + 1 > cfg.blockSize - H % cfg.blockSize then cfg.blockSize
                else need + 1 + H % cfg.blockSize) - H % cfg.blockSize = m ∧
              (0 < need + 1 - m → H % cfg.blockSize + m = cfg.blockSize) := by
            by_cases hmore : need + 1 > cfg.blockSize - H % cfg.blockSize
            · exact ⟨cfg.blockSize - H % cfg.blockSize, by omega, by omega, by omega, by rw [if_pos hmore], by omega⟩
            · exact ⟨need + 1, Nat.le_refl _, by omega, by omega, by rw [if_neg hmore]; omega, by omega⟩
          obtain ⟨m₁, htake, hlay⟩ := h.takeRange (by omega) hm₀ hmB
          obtain ⟨s', hloop, htaken, hlay'⟩ := @ih (need + 1 - m) _ _ _ hlay (by rw [List.length_drop]; omega) (by omega)
          have hget : a.get ((c + H / cfg.blockSize) % a.size) = some (a.entryAt (c + H / cfg.blockSize)) :=
            h.index.get_mod _
          -- what is left begins with the next block
          have hstart : ({ s with toSlots := m₁ }.setSomeEmpty cfg (a.entryAt (c + H / cfg.blockSize))
              (blk (H / cfg.blockSize)) m).takeBlocks cfg fuel (((c + H / cfg.blockSize) % a.size + 1) % a.size) 0
              (need + 1 - m) = some ((l.drop m).take (need + 1 - m), s') := by
            rcases Nat.eq_zero_or_pos (need + 1 - m) with h0 | hrest
            · rw [h0] at hloop ⊢
              rw [← hloop]
              cases fuel <;> rfl
            · have hnum : H + m = (H / cfg.blockSize + 1) * cfg.blockSize + 0 := by
                have := cfg.pos_eq H
                have := hmne hrest
                rw [Nat.succ_mul]
                omega
              have hdiv : (H + m) / cfg.blockSize = H / cfg.blockSize + 1 := by
                rw [hnum]
                exact Cfg.pos_div cfg.blockSize_pos
              have hmod : (H + m) % cfg.blockSize = 0 := by
                rw [hnum]
                exact Cfg.pos_mod cfg.blockSize_pos
              rw [hdiv, hmod, ← Nat.add_assoc] at hloop
              rw [Nat.mod_add_mod]
              exact hloop
          refine ⟨s', ?_, (TakenFrom.setSomeEmpty s m₁ _ _ _).trans htaken, ?_⟩
          · rw [takeBlocks_succ h.index.arr hget (h.value_eq le_rfl hk) hmend htake, hstart, Option.map_some]
            rw [show need + 1 = m + (need + 1 - m) by omega, List.take_add, Nat.add_sub_cancel_left]
          · rw [show H + m + (need + 1 - m) = H + (need + 1) by omega, List.drop_drop,
              show m + (need + 1 - m) = need + 1 by omega] at hlay'
            exact hlay'

/-! ## `Dequeue` and `DequeueBulk` -/

/-- A dequeue that took `m` elements and moved the two head counters keeps the invariant. -/
theorem Inv.advance (h : Inv cfg s H blk l) {m : ℕ} (hm : m ≤ l.length)
    (hlay : Layout cfg s' a c (H + m) (numBlocks cfg (H + l.length)) blk (l.drop m))
    (htaken : TakenFrom { s with
      headIndex := Word.add cfg.w s.headIndex m
      dequeueAttemptsCount := Word.add cfg.w s.dequeueAttemptsCount m } s') : Inv cfg s' (H + m) blk (l.drop m) := by
  have hT : H + m + (l.drop m).length = H + l.length := by
    rw [List.length_drop]
    omega
  refine ⟨⟨a, c, by rw [hT]; exact hlay⟩, ?_, ?_, ?_, ?_⟩
  · rw [htaken.rest]
    show Word.add cfg.w s.headIndex m = _
    rw [h.headIndex, Word.add_mod_left]
  · rw [htaken.rest, hT]
    exact h.tailIndex
  · rw [htaken.rest]
    show Word.add cfg.w s.dequeueAttemptsCount m = _
    rw [h.attempts, Word.add_mod_left]
  · rw [htaken.rest]
    exact h.failed

/-- **`Dequeue`** fails on an empty queue and leaves it alone. -/
theorem Inv.dequeue_nil (h : Inv cfg s H blk ([] : List α)) : s.dequeue cfg = some (none, s) := by
  have hlt := circularLessThan_mod_of_lt (a := H) (b := H) cfg.w_pos (Nat.le_refl _) (by simp)
  have htail := h.tailIndex
  simp only [List.length_nil, Nat.add_zero] at htail
  have hfalse : circularLessThan cfg.w (H % 2 ^ cfg.w) (H % 2 ^ cfg.w) = false := by
    rw [← Bool.not_eq_true, hlt]
    exact Nat.lt_irrefl _
  simp only [SlowQueue.dequeue, h.failed, h.attempts, htail, Word.sub_zero, hfalse, Bool.false_eq_true, if_false]

/-- **`Dequeue`** takes the first element of a queue that has one. -/
theorem Inv.dequeue_cons {x : α} (h : Inv cfg s H blk (x :: l)) :
    ∃ s', s.dequeue cfg = some (some x, s') ∧ Inv cfg s' (H + 1) blk l := by
  have hlen := h.length_lt
  obtain ⟨a, c, hlay⟩ := h.layout
  have hfits := hlay.fits
  rw [List.length_cons] at hlen hfits
  have hlt : circularLessThan cfg.w (H % 2 ^ cfg.w) s.tailIndex = true := by
    rw [h.tailIndex, circularLessThan_mod_of_lt cfg.w_pos (Nat.le_add_right _ _)] <;>
      rw [List.length_cons] <;> omega
  have hseen : Word.sub cfg.w s.dequeueAttemptsCount s.dequeueFailedCount = H % 2 ^ cfg.w := by
    rw [h.attempts, h.failed, Word.sub_zero]
  have hslot := cfg.slot_lt H
  let s₁ : SlowQueue α := { s with
    headIndex := Word.add cfg.w s.headIndex 1
    dequeueAttemptsCount := Word.add cfg.w s.dequeueAttemptsCount 1 }
  have hlay₁ : Layout cfg s₁ a c H _ blk (x :: l) := hlay.congr rfl rfl rfl rfl rfl rfl rfl
  obtain ⟨m₁, htake, hlay'⟩ := hlay₁.takeRange (m := 1) (by simp) Nat.one_pos (by omega)
  -- the single element is what a range of one takes
  have htake₁ : s.toSlots.takeElement (blk (H / cfg.blockSize)) (H % cfg.blockSize) = some (x, m₁) := by
    simp only [Slots.takeRange, Option.bind_eq_bind, Option.bind_eq_some_iff, Option.some.injEq,
      List.take_succ_cons, List.take_zero, Prod.mk.injEq] at htake
    obtain ⟨⟨x', m₂⟩, htake, ⟨as, m₃⟩, ⟨rfl, rfl⟩, hcons, rfl⟩ := htake
    obtain rfl : x' = x := (List.cons.inj hcons).1
    exact htake
  have hlookup : SlowQueue.getBlockIndexEntryForIndex cfg s.headIndex { s with
      headIndex := Word.add cfg.w s.headIndex 1
      dequeueAttemptsCount := Word.add cfg.w s.dequeueAttemptsCount 1 } = some (a.entryAt (c + H / cfg.blockSize)) := by
    have := (hlay₁.getBlockIndexEntryForIndex (by simp)).1
    rwa [← h.headIndex] at this
  have hvalue := hlay.value_eq (k := H / cfg.blockSize) le_rfl (cfg.block_lt (by rw [List.length_cons]; omega))
  have hmod : s.headIndex % cfg.blockSize = H % cfg.blockSize := by
    rw [h.headIndex]
    exact Word.mod_mod_two_pow cfg.blockSizeLog2_le
  refine ⟨_, ?_, h.advance (m := 1) (by simp) hlay' (TakenFrom.setSomeEmpty s₁ m₁ _ _ _)⟩
  simp only [SlowQueue.dequeue, hseen, hlt, if_true, hlookup, hvalue, hmod, htake₁, Option.bind_eq_bind,
    Option.bind_some, s₁]

/-- **`DequeueBulk`** takes as many elements as it may and as there are. -/
theorem Inv.dequeueBulk (h : Inv cfg s H blk l) (maxCount : ℕ) :
    ∃ s', s.dequeueBulk cfg maxCount = some (l.take maxCount, s') ∧
      Inv cfg s' (H + min l.length maxCount) blk (l.drop maxCount) := by
  have hhalf := cfg.half_add_half
  have hlen := h.length_lt
  obtain ⟨a, c, hlay⟩ := h.layout
  have hdesired : Word.sub cfg.w s.tailIndex (H % 2 ^ cfg.w) = l.length := by
    rw [h.tailIndex, Word.sub_mod_mod (Nat.le_add_right _ _) (by omega), Nat.add_sub_cancel_left]
  have hlt : circularLessThan cfg.w 0 l.length = true ↔ 0 < l.length := by
    have := circularLessThan_mod_of_lt (a := 0) (b := l.length) cfg.w_pos (Nat.zero_le _) (by omega)
    rwa [Nat.zero_mod, Nat.mod_eq_of_lt (by omega : l.length < 2 ^ cfg.w)] at this
  rcases Nat.eq_zero_or_pos l.length with h0 | hpos
  · obtain rfl := List.length_eq_zero_iff.mp h0
    refine ⟨s, ?_, by simpa using h⟩
    have hfalse : circularLessThan cfg.w 0 ([] : List α).length = false := by
      rw [← Bool.not_eq_true, hlt]
      exact Nat.lt_irrefl _
    simp only [SlowQueue.dequeueBulk, h.failed, h.attempts, Word.sub_zero, hdesired, hfalse, Bool.false_eq_true,
      if_false, List.take_nil]
  · have hmod : s.headIndex % cfg.blockSize = H % cfg.blockSize := by
      rw [h.headIndex]
      exact Word.mod_mod_two_pow cfg.blockSizeLog2_le
    let s₁ : SlowQueue α := { s with
      headIndex := Word.add cfg.w s.headIndex (min l.length maxCount)
      dequeueAttemptsCount := Word.add cfg.w s.dequeueAttemptsCount (min l.length maxCount) }
    have hlay₁ : Layout cfg s₁ a c H _ blk l := hlay.congr rfl rfl rfl rfl rfl rfl rfl
    obtain ⟨s', htake, htaken, hlay'⟩ := hlay₁.takeBlocks (Nat.min_le_left _ maxCount) (Nat.le_refl _)
    have hmin : l.take (min l.length maxCount) = l.take maxCount ∧
        l.drop (min l.length maxCount) = l.drop maxCount := by
      rcases Nat.le_total l.length maxCount with hle | hle
      · rw [Nat.min_eq_left hle, List.take_of_length_le hle, List.take_length, List.drop_of_length_le hle,
          List.drop_length]
        exact ⟨rfl, rfl⟩
      · rw [Nat.min_eq_right hle]
        exact ⟨rfl, rfl⟩
    have hinv := h.advance (Nat.min_le_left _ _) hlay' htaken
    rw [hmin.2] at hinv
    rw [hmin.1] at htake
    refine ⟨s', ?_, hinv⟩
    have hlookup : SlowQueue.getBlockIndexIndexForIndex cfg s.headIndex { s with
        headIndex := Word.add cfg.w s.headIndex (min l.length maxCount)
        dequeueAttemptsCount := Word.add cfg.w s.dequeueAttemptsCount (min l.length maxCount) }
        = some ((c + H / cfg.blockSize) % a.size) := by
      have := (hlay₁.getBlockIndexEntryForIndex hpos).2
      rwa [← h.headIndex] at this
    have hle : min l.length (min l.length maxCount) = min l.length maxCount :=
      Nat.min_eq_right (Nat.min_le_left _ _)
    have hseen : Word.sub cfg.w s.dequeueAttemptsCount s.dequeueFailedCount = H % 2 ^ cfg.w := by
      rw [h.attempts, h.failed, Word.sub_zero]
    simp only [SlowQueue.dequeueBulk, hseen, hdesired, hlt.mpr hpos, if_true, hle, Nat.lt_irrefl, if_false,
      hlookup, hmod, Option.bind_eq_bind, Option.bind_some]
    exact htake

/-- **`Dequeue`** gives the first element, if there is one. -/
theorem Inv.dequeue (h : Inv cfg s H blk l) :
    ∃ s', s.dequeue cfg = some (l.head?, s') ∧ Inv cfg s' (H + min l.length 1) blk l.tail := by
  cases l with
  | nil => exact ⟨s, h.dequeue_nil, h⟩
  | cons x l =>
      obtain ⟨s', hrun, h'⟩ := h.dequeue_cons
      rw [List.length_cons, Nat.min_eq_right (Nat.succ_pos _)]
      exact ⟨s', hrun, h'⟩

end SlowQueue

end LockFreeStructures
