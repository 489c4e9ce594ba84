import LockFreeStructures.FastQueue.Bulk
import LockFreeStructures.FastQueue.Enqueue

/-!
# `FastQueue.EnqueueBulk` — what `EnqueueBulk` does under the invariant

The call is followed stage by stage: how many blocks it asks for (`blockCountNeed_eq`), what getting them
comes to (`Inv.getBlocks`), and then refusal, success or the exception of a constructor, each from the `Mid`
state in which the acquisition ended.
-/

namespace LockFreeStructures

namespace FastQueue

variable {α : Type} {cfg : Cfg} {s s' : FastQueue α} {p q : ℕ} {blk : ℕ → ℕ} {k₀ K H r n : ℕ}
  {front : List ℕ} {l : List α}

/-! ## How many blocks are asked for -/

/-- The block count of a call on a queue that nothing was enqueued to: the tail index less one is minus one. -/
theorem blockCountNeed_zero {m : ℕ} (hm : 0 < m) (hmw : m < 2 ^ cfg.w) : blockCountNeed cfg 0 m = numBlocks cfg m := by
  obtain ⟨m, rfl⟩ : ∃ m', m = m' + 1 := ⟨m - 1, by omega⟩
  have hhalf := cfg.half_add_half
  have hW := two_pow_sub_mul cfg
  have hlow : 0 < 2 ^ (cfg.w - 1) := Nat.two_pow_pos _
  have hBpos := cfg.blockSize_pos
  have hones : Word.sub cfg.w 0 1 = 2 ^ cfg.w - 1 := by
    rw [Word.sub_of_lt Nat.one_pos (by omega), Nat.zero_add]
  have hsar : Word.sar cfg.w (2 ^ cfg.w - 1) cfg.blockSizeLog2 = 2 ^ cfg.w - 1 := by
    have hM := Nat.two_pow_pos (cfg.w - cfg.blockSizeLog2)
    have hmul : 2 ^ (cfg.w - cfg.blockSizeLog2) * 2 ≤ 2 ^ cfg.w := hW ▸ Nat.mul_le_mul_left _ cfg.two_le_blockSize
    have hquot : (2 ^ cfg.w - 1) / cfg.blockSize = 2 ^ (cfg.w - cfg.blockSizeLog2) - 1 := by
      rw [show 2 ^ cfg.w - 1 = (2 ^ (cfg.w - cfg.blockSizeLog2) - 1) * cfg.blockSize + (cfg.blockSize - 1) by
        rw [Nat.sub_mul, hW]; have := Nat.le_of_dvd (by omega) cfg.blockSize_dvd; omega,
        Cfg.pos_div (by omega)]
    rw [Word.sar_of_ge cfg.blockSizeLog2_le (by omega) (by omega)]
    change (2 ^ cfg.w - 1) / cfg.blockSize + _ - _ = _
    omega
  have hlast : Word.sub cfg.w (Word.add cfg.w (m + 1) 0) 1 = m := by
    rw [Word.add, Nat.add_zero, Nat.mod_eq_of_lt hmw, Word.sub_of_le (by omega) hmw, Nat.add_sub_cancel]
  have hle := Nat.div_le_self m cfg.blockSize
  rw [blockCountNeed, hlast, hones, hsar, numBlocks_succ]
  generalize m / cfg.blockSize = q at hle ⊢
  rw [Word.sub_of_lt (by omega) (by omega)]
  omega

/-- The block count for a tail index `t` and `m` items, both in words. Where the last item's index does not
    wrap but the tail index reads as negative, the signed shift asks for `2 ^ (w - b)` blocks too many. -/
theorem blockCountNeed_word {t m : ℕ} (hm : 0 < m) (hmw : m ≤ 2 ^ (cfg.w - 1)) (ht : t < 2 ^ cfg.w) :
    blockCountNeed cfg t m + numBlocks cfg t = numBlocks cfg (t + m)
      + if 2 ^ (cfg.w - 1) < t ∧ t + m ≤ 2 ^ cfg.w then 2 ^ (cfg.w - cfg.blockSizeLog2) else 0 := by
  have hhalf := cfg.half_add_half
  have hW := two_pow_sub_mul cfg
  have hB := cfg.two_le_blockSize
  have hBpos := cfg.blockSize_pos
  have hmul : 2 ^ (cfg.w - cfg.blockSizeLog2) * 2 ≤ 2 ^ cfg.w := hW ▸ Nat.mul_le_mul_left _ hB
  have hlow : 0 < 2 ^ (cfg.w - 1) := Nat.two_pow_pos _
  have hdiv : ∀ x, x < 2 ^ cfg.w → x / cfg.blockSize < 2 ^ (cfg.w - cfg.blockSizeLog2) := fun x hx =>
    cfg.block_lt (hW ▸ hx)
  rcases Nat.eq_zero_or_pos t with rfl | htpos
  · rw [blockCountNeed_zero hm (by omega), if_neg (by omega), numBlocks_zero, Nat.zero_add]
  obtain ⟨m, rfl⟩ : ∃ m', m = m' + 1 := ⟨m - 1, by omega⟩
  have hlast : Word.sub cfg.w (Word.add cfg.w (m + 1) t) 1
      = if t + m < 2 ^ cfg.w then t + m else t + m - 2 ^ cfg.w := by
    refine Word.sub_eq_of_modEq ?_ (by split <;> omega)
    rw [Word.add, Nat.mod_mod]
    split
    · rw [show 1 + (t + m) = m + 1 + t by omega]
    · rw [show m + 1 + t = 1 + (t + m - 2 ^ cfg.w) + 2 ^ cfg.w by omega, Nat.add_mod_right]
  unfold blockCountNeed
  rw [hlast, show t + (m + 1) = t + m + 1 from rfl, numBlocks_succ]
  obtain ⟨t, rfl⟩ : ∃ t', t = t' + 1 := ⟨t - 1, by omega⟩
  have hpred : Word.sub cfg.w (t + 1) 1 = t := by rw [Word.sub_of_le (by omega) ht, Nat.add_sub_cancel]
  have hle : t / cfg.blockSize ≤ (t + 1 + m) / cfg.blockSize := Nat.div_le_div_right (by omega)
  have htq := hdiv t (by omega)
  have hlq := hdiv (t + 1 + m)
  have hwrap : 2 ^ cfg.w ≤ t + 1 + m → (t + 1 + m) / cfg.blockSize
      = (t + 1 + m - 2 ^ cfg.w) / cfg.blockSize + 2 ^ (cfg.w - cfg.blockSizeLog2) := by
    intro hge
    rw [← Nat.add_mul_div_right _ _ hBpos, hW, Nat.sub_add_cancel hge]
  have hwq := hdiv (t + 1 + m - 2 ^ cfg.w) (by omega)
  have hsar₁ : t < 2 ^ (cfg.w - 1) → Word.sar cfg.w t cfg.blockSizeLog2 = t / cfg.blockSize := Word.sar_of_lt
  have hsar₂ : 2 ^ (cfg.w - 1) ≤ t → Word.sar cfg.w t cfg.blockSizeLog2
      = t / cfg.blockSize + 2 ^ cfg.w - 2 ^ (cfg.w - cfg.blockSizeLog2) := fun hge =>
    Word.sar_of_ge cfg.blockSizeLog2_le hge (by omega)
  rw [hpred, numBlocks_succ]
  rw [apply_ite (· / cfg.blockSize)]
  generalize (t + 1 + m) / cfg.blockSize = last at *
  generalize (t + 1 + m - 2 ^ cfg.w) / cfg.blockSize = lastWrapped at *
  generalize t / cfg.blockSize = first at *
  rcases Nat.lt_or_ge t (2 ^ (cfg.w - 1)) with hsmall | hbig
  · rw [if_pos (by omega), if_neg (by omega), hsar₁ hsmall, Word.sub_of_le hle (by omega)]
    omega
  · rw [hsar₂ hbig]
    by_cases hlt : t + 1 + m < 2 ^ cfg.w
    · rw [if_pos hlt, if_pos (by omega), Word.sub_eq_of_modEq (c := last - first + 2 ^ (cfg.w - cfg.blockSizeLog2)) ?_ (by omega)]
      · omega
      · rw [← Nat.add_mod_right last]
        congr 1
        omega
    · -- the last item's index wraps, which makes up for the sign
      have hsplit := hwrap (by omega)
      rw [if_neg hlt, if_neg (by omega), Word.sub_eq_of_modEq (c := last - first) ?_ (by omega)]
      · omega
      · rw [← Nat.add_mod_right lastWrapped]
        congr 1
        omega

/-- The block count for the element numbers. It is right as long as no more than half the index range was
    ever enqueued. -/
theorem blockCountNeed_eq (cfg : Cfg) {m : ℕ} (T : ℕ) (hm : 0 < m) (hmw : m ≤ 2 ^ (cfg.w - 1)) :
    ∃ e, (e = 0 ∨ e = 2 ^ (cfg.w - cfg.blockSizeLog2) ∧ 2 ^ (cfg.w - 1) < T) ∧
      blockCountNeed cfg (T % 2 ^ cfg.w) m + numBlocks cfg T = numBlocks cfg (T + m) + e := by
  have heq := blockCountNeed_word (t := T % 2 ^ cfg.w) hm hmw (Nat.mod_lt _ Word.two_pow_pos)
  generalize he : (if 2 ^ (cfg.w - 1) < T % 2 ^ cfg.w ∧ T % 2 ^ cfg.w + m ≤ 2 ^ cfg.w then
    2 ^ (cfg.w - cfg.blockSizeLog2) else 0) = e at heq
  refine ⟨e, ?_, ?_⟩
  · rw [← he]
    split
    · next h => exact Or.inr ⟨rfl, lt_of_lt_of_le h.1 (Nat.mod_le _ _)⟩
    · exact Or.inl rfl
  -- whole turns of the index add the same number of blocks on both sides
  have hturns : ∀ x, T / 2 ^ cfg.w * 2 ^ cfg.w + x
      = T / 2 ^ cfg.w * 2 ^ (cfg.w - cfg.blockSizeLog2) * cfg.blockSize + x := fun x => by
    rw [Nat.mul_assoc, two_pow_sub_mul]
  have hT : T = T / 2 ^ cfg.w * 2 ^ cfg.w + T % 2 ^ cfg.w := by
    rw [Nat.mul_comm]
    exact (Nat.div_add_mod _ _).symm
  generalize hq : T / 2 ^ cfg.w = Q at hT hturns
  have h₁ : numBlocks cfg T = Q * 2 ^ (cfg.w - cfg.blockSizeLog2) + numBlocks cfg (T % 2 ^ cfg.w) := by
    conv_lhs => rw [hT, hturns, numBlocks_add]
  have h₂ : numBlocks cfg (T + m)
      = Q * 2 ^ (cfg.w - cfg.blockSizeLog2) + numBlocks cfg (T % 2 ^ cfg.w + m) := by
    conv_lhs => rw [hT, Nat.add_assoc, hturns, numBlocks_add]
  omega

/-- The block number of the last index before `T`, taken in words. -/
theorem div_pred_modEq (cfg : Cfg) (T : ℕ) : Word.sub cfg.w (T % 2 ^ cfg.w) 1 / cfg.blockSize + 1
    ≡ numBlocks cfg T [MOD 2 ^ (cfg.w - cfg.blockSizeLog2)] := by
  have hbase := base_of_next cfg T
  rw [Word.alignDown_eq, Word.add] at hbase
  change (_ / cfg.blockSize * cfg.blockSize + _) % _ = _ at hbase
  rw [← Nat.succ_mul] at hbase
  refine Nat.ModEq.mul_right_cancel' cfg.blockSize_pos.ne' ?_
  rw [Nat.ModEq, two_pow_sub_mul]
  exact hbase

/-- Up to the blocks of whole turns of the index, the count is the number of blocks the items add. -/
theorem blockCountNeed_modEq (cfg : Cfg) (T m : ℕ) : blockCountNeed cfg (T % 2 ^ cfg.w) m + numBlocks cfg T
    ≡ numBlocks cfg (T + m) [MOD 2 ^ (cfg.w - cfg.blockSizeLog2)] := by
  have hpred : Word.sub cfg.w (T % 2 ^ cfg.w) 1 < 2 ^ cfg.w := Nat.mod_lt _ Word.two_pow_pos
  have hfirst := div_pred_modEq cfg T
  have hlast := div_pred_modEq cfg (T + m)
  rw [← Word.add_mod_left, Word.add, Nat.add_comm (T % 2 ^ cfg.w), ← Word.add] at hlast
  have hsar := Word.sar_modEq cfg.blockSizeLog2_le hpred
  have hsub := (Word.sub_add_modEq cfg.w (Word.sub cfg.w (Word.add cfg.w m (T % 2 ^ cfg.w)) 1 / cfg.blockSize)
    (Word.sar cfg.w (Word.sub cfg.w (T % 2 ^ cfg.w) 1) cfg.blockSizeLog2)).of_dvd
      (Nat.pow_dvd_pow 2 (Nat.sub_le cfg.w cfg.blockSizeLog2))
  calc blockCountNeed cfg (T % 2 ^ cfg.w) m + numBlocks cfg T
      ≡ blockCountNeed cfg (T % 2 ^ cfg.w) m + (Word.sub cfg.w (T % 2 ^ cfg.w) 1 / cfg.blockSize + 1)
        [MOD 2 ^ (cfg.w - cfg.blockSizeLog2)] := hfirst.symm.add_left _
    _ ≡ blockCountNeed cfg (T % 2 ^ cfg.w) m + (Word.sar cfg.w (Word.sub cfg.w (T % 2 ^ cfg.w) 1) cfg.blockSizeLog2 + 1)
        [MOD 2 ^ (cfg.w - cfg.blockSizeLog2)] := (hsar.symm.add_right 1).add_left _
    _ ≡ Word.sub cfg.w (Word.add cfg.w m (T % 2 ^ cfg.w)) 1 / cfg.blockSize + 1
        [MOD 2 ^ (cfg.w - cfg.blockSizeLog2)] := hsub.add_right 1
    _ ≡ numBlocks cfg (T + m) [MOD 2 ^ (cfg.w - cfg.blockSizeLog2)] := hlast

/-- The count of a call whose items leave a block of the index range free: it is right, or it is more than all the
    blocks of the range. -/
theorem blockCountNeed_cases (cfg : Cfg) (T : ℕ) {m : ℕ} (hm : 0 < m) (hmw : m + cfg.blockSize ≤ 2 ^ cfg.w) :
    ∃ e, (e = 0 ∨ 2 ^ (cfg.w - cfg.blockSizeLog2) ≤ e ∧ (2 ^ (cfg.w - 1) < T ∨ 2 ^ (cfg.w - 1) < m)) ∧
      blockCountNeed cfg (T % 2 ^ cfg.w) m + numBlocks cfg T = numBlocks cfg (T + m) + e := by
  rcases Nat.lt_or_ge (2 ^ (cfg.w - 1)) m with hbig | hsmall
  · have hmod := blockCountNeed_modEq cfg T m
    have hlt := numBlocks_mul_lt cfg (T + m)
    have hle := le_numBlocks cfg T
    have hW := two_pow_sub_mul cfg
    obtain ⟨N, hN⟩ := Nat.exists_eq_add_of_le (@numBlocks_mono cfg _ _ (Nat.le_add_right T m))
    rw [hN, Nat.add_comm] at hmod
    rw [hN, Nat.add_mul] at hlt
    have hNlt : N < 2 ^ (cfg.w - cfg.blockSizeLog2) :=
      Nat.lt_of_mul_lt_mul_right (a := cfg.blockSize) (by rw [hW]; omega)
    have hneed : blockCountNeed cfg (T % 2 ^ cfg.w) m % 2 ^ (cfg.w - cfg.blockSizeLog2) = N :=
      Eq.trans (hmod.add_left_cancel' _) (Nat.mod_eq_of_lt hNlt)
    have hdiv := Nat.div_add_mod (blockCountNeed cfg (T % 2 ^ cfg.w) m) (2 ^ (cfg.w - cfg.blockSizeLog2))
    rw [hneed] at hdiv
    rw [hN, ← hdiv]
    generalize blockCountNeed cfg (T % 2 ^ cfg.w) m / 2 ^ (cfg.w - cfg.blockSizeLog2) = j
    refine ⟨2 ^ (cfg.w - cfg.blockSizeLog2) * j, ?_, by omega⟩
    rcases Nat.eq_zero_or_pos j with rfl | hj
    · exact Or.inl (Nat.mul_zero _)
    · exact Or.inr ⟨Nat.le_mul_of_pos_right _ hj, Or.inr hbig⟩
  · obtain ⟨e, he, hneed⟩ := blockCountNeed_eq cfg T hm hsmall
    exact ⟨e, he.imp id fun h => ⟨h.1.ge, Or.inl h.2⟩, hneed⟩

/-! ## Getting the blocks -/

/-- The state at the start of a call. -/
theorem Inv.mid_start (h : Inv cfg s H blk front l) :
    Mid cfg s (.start cfg s) H (numBlocks cfg (H + l.length)) 0 0 false blk front l := by
  have hpos : 0 < H + l.length → 0 < numBlocks cfg (H + l.length) := by
    intro hT
    rw [show H + l.length = H + l.length - 1 + 1 by omega, numBlocks_succ]
    exact Nat.succ_pos _
  refine ⟨h.layout, .refl s, h.layout.fits, rfl, rfl, fun hT => h.layout.index.numbered (hpos hT), ?_, rfl,
    h.tailSlot, fun _ _ => rfl, rfl, Nat.le_refl _, id, Nat.le_refl _, id, fun _ => Or.inl⟩
  rw [Nat.add_zero, liveBlocks_self, List.nil_append]
  exact h.layout.ring.tail

/-- `CurrentTailIndex` starts at the base of the newest block. -/
theorem Inv.atBlock_start (h : Inv cfg s H blk front l) :
    AtBlock cfg (.start cfg s) (numBlocks cfg (H + l.length)) := by
  show Word.add cfg.w (Word.alignDown _ (Word.sub cfg.w s.tailIndex 1)) cfg.blockSize = _
  rw [h.tailIndex]
  exact base_of_next cfg _

/-- **Getting the blocks.** Either the call may allocate and the queue comes to have blocks for all the indices
    there are, or the two loops end, and `Mid` tells what they got: the leading empty blocks of the ring first,
    and then new ones. -/
theorem Inv.getBlocks (h : Inv cfg s H blk front l) (mode : AllocMode) {need : ℕ}
    (hspan : s.indexEntriesSize * cfg.blockSize ∣ 2 ^ cfg.w ∨ numBlocks cfg (H + l.length) + need ≤ 1) :
    ∃ rest b, Bulk.reuseBlocks cfg need (.start cfg s) = some (rest, b) ∧
      ((mode = .canAlloc ∧ ∃ u, u < s.indexEntriesUsed + need ∧ 2 ^ cfg.w ≤ u * cfg.blockSize ∧
          ∀ res b', Bulk.newBlocks cfg mode s.indexEntriesUsed rest b = some (res, b') →
            u ≤ b'.queue.blockManager.blockCount) ∨
        ∃ got res b' n grew blk' front',
          Bulk.newBlocks cfg mode s.indexEntriesUsed rest b = some (res, b') ∧
          Mid cfg s b' H (numBlocks cfg (H + l.length)) got.length n grew blk' front' l ∧
          got.length + rest = need ∧ front = got ++ front' ∧
          (∀ k < numBlocks cfg (H + l.length), blk' k = blk k) ∧
          (∀ q ∈ got, s.blockIsEmpty cfg q = true) ∧
          (0 < rest → ∀ q ∈ front'.head?, s.blockIsEmpty cfg q = false) ∧
          (mode = .cannotAlloc → grew = false) ∧
          (res = .acquired → n = rest ∧
            (grew = true → got.length = 0 ∨ s.indexEntriesSize < s.indexEntriesUsed + n)) ∧
          (res ≠ .acquired → n < rest) ∧
          (res = .refused →
            b'.queue.isFull cfg ((numBlocks cfg (H + l.length) + got.length + n) * cfg.blockSize % 2 ^ cfg.w)
              = true ∨ mode = .cannotAlloc ∨ s.allocs ≠ []) ∧
          (res = .threw → s.allocs ≠ [])) := by
  obtain ⟨rest, b, blk₁, got, front', hreuse, hmid, hat, hlen, hfront, hblk₁, hsize, hgot, hstop⟩ :=
    reuseBlocks_eq h.mid_start h.atBlock_start hspan
  rw [Nat.zero_add] at hmid hat
  have hused : b.queue.indexEntriesUsed = s.indexEntriesUsed := hmid.used
  refine ⟨rest, b, hreuse, ?_⟩
  have hspan' : b.queue.indexEntriesSize * cfg.blockSize ∣ 2 ^ cfg.w ∨
      numBlocks cfg (H + l.length) + got.length + 0 + rest ≤ 1 := by
    rw [hsize]
    exact hspan.imp id fun h1 => by omega
  rcases newBlocks_eq mode hmid hat hspan' nofun with
    ⟨hmay, b₁, hlt, hbig, hle, hmono⟩ | ⟨res, b', n, grew, blk', hnew, hmid', -, hblk', hcan, hacq, hbreak, href, hthrew⟩
  · exact Or.inl ⟨hmay, b₁.queue.indexEntriesUsed, by omega, hbig, fun res b' hrun => le_trans hle (hmono res b' hrun)⟩
  · refine Or.inr ⟨got, res, b', n, grew, blk', front', hnew, hmid', hlen, hfront, fun k hk => ?_, hgot, hstop, hcan,
      fun hr => ?_, fun hr => ?_, href, hthrew⟩
    · rw [hblk' k (by omega), hblk₁ k hk]
    · obtain ⟨hn, hg⟩ := hacq hr
      exact ⟨by omega, hg⟩
    · have := hbreak hr
      omega

/-! ## Refused -/

/-- Rolled back where the saved position is still right, the invariant holds again. -/
theorem Inv.rollBack {b : Bulk α} {grew : Bool} {blk' : ℕ → ℕ} {front' : List ℕ} (h : Inv cfg s H blk front l)
    (hmid : Mid cfg s b H (numBlocks cfg (H + l.length)) r n grew blk' front' l)
    (hsafe : grew = false ∨ r = 0 ∨ H / cfg.blockSize = numBlocks cfg (H + l.length)) :
    ∃ front'', Inv cfg (b.rollBack s.tailBlock) H blk' front'' l ∧
      (∀ q ∈ front'', q ∈ liveBlocks blk' (numBlocks cfg (H + l.length))
        (numBlocks cfg (H + l.length) + r + n) ++ front') ∧
      (s.tailBlock ≠ none → front''.Perm (liveBlocks blk' (numBlocks cfg (H + l.length))
        (numBlocks cfg (H + l.length) + r + n) ++ front')) := by
  obtain ⟨front'', hlay, htail, hsub, hperm⟩ := hmid.rollBack hsafe
  exact ⟨front'', ⟨hlay, hmid.same.headIndex.trans h.headIndex, hmid.same.tailIndex.trans h.tailIndex,
    hmid.same.attempts.trans h.attempts, hmid.same.failed.trans h.failed, htail⟩, hsub, hperm⟩

/-! ## Filling the blocks -/

/-- A list of constructor arguments up to the first one that throws. -/
theorem exists_items (items : List (Option α)) :
    ∃ (as : List α) (rest : List (Option α)), items = as.map some ++ rest ∧ ∀ i ∈ rest.head?, i = none := by
  induction items with
  | nil => exact ⟨[], [], rfl, by simp⟩
  | cons i items ih =>
      cases i with
      | none => exact ⟨[], none :: items, rfl, by simp⟩
      | some a =>
          obtain ⟨as, rest, rfl, hrest⟩ := ih
          exact ⟨a :: as, rest, rfl, hrest⟩

section Fill

variable {b : Bulk α} {grew : Bool} {blk' : ℕ → ℕ} {front' : List ℕ} {m : ℕ}

/-- The block in which filling starts. -/
theorem Inv.first_eq (h : Inv cfg s H blk front l)
    (hmid : Mid cfg s b H (numBlocks cfg (H + l.length)) r n grew blk' front' l)
    (hblk : ∀ k < numBlocks cfg (H + l.length), blk' k = blk k) (hm : 0 < m)
    (hgot : numBlocks cfg (H + l.length) + r + n = numBlocks cfg (H + l.length + m)) :
    b.firstBlock s.tailBlock ((H + l.length) % cfg.blockSize)
      = some (blk' ((H + l.length) / cfg.blockSize)) := by
  have hlt := (numBlocks_bounds cfg (H + l.length) hm).1
  unfold Bulk.firstBlock
  split
  · next hfirst =>
    have hKT := (numBlocks_of_first hfirst).1
    have hK : (H + l.length) / cfg.blockSize = numBlocks cfg (H + l.length) := by
      conv_lhs => rw [← hKT]
      exact Nat.mul_div_cancel _ cfg.blockSize_pos
    rw [hmid.first, if_neg (by omega), Option.some_or, hK]
  · next hslot =>
    have hK := (numBlocks_of_slot hslot).1
    have hlay := h.layout
    rw [hK] at hlay
    rw [hlay.tailBlock_eq (Nat.div_le_div_right (Nat.le_add_right _ _)), hblk _ (by omega)]

/-- The filling loop on the blocks a call has got. -/
theorem Inv.fillBlocks (hmid : Mid cfg s b H (numBlocks cfg (H + l.length)) r n grew blk' front' l)
    {as : List α} {rest : List (Option α)} (hrest : ∀ i ∈ rest.head?, i = none)
    (hm : as.length + rest.length = m) (hpos : 0 < m)
    (hgot : numBlocks cfg (H + l.length) + r + n = numBlocks cfg (H + l.length + m)) :
    ∃ s', ElementsLayout cfg s' blk' (H / cfg.blockSize) (numBlocks cfg (H + l.length + m))
        (contents H (l ++ as)) ∧ ElementsOnly b.queue s' ∧
      s'.events = b.queue.events ++ eventsFrom cfg blk' .constructed (H + l.length) as.length ∧
      ∃ cur i, b.queue.fillBlocks cfg ((H + l.length + m - 1) % cfg.blockSize) (m + 1)
          (blk' ((H + l.length) / cfg.blockSize)) ((H + l.length) % cfg.blockSize) (as.map some ++ rest)
        = some (if rest = [] then .returned () else .threw, cur, i, s') ∧
        (rest ≠ [] → cur = blk' ((H + l.length + as.length) / cfg.blockSize) ∧
          i = (H + l.length + as.length) % cfg.blockSize) := by
  obtain ⟨hlt, hlast, hfit, hfuel⟩ := numBlocks_bounds cfg (H + l.length) hpos
  have hK' := Nat.lt_of_le_of_lt (Nat.zero_le _) hlt
  have hlen : H + l.length + (as.length + rest.length) = H + l.length + m := by rw [hm]
  have hlay := hmid.layout
  rw [hgot] at hlay
  have hk : H / cfg.blockSize ≤ (H + l.length) / cfg.blockSize := Nat.div_le_div_right (Nat.le_add_right _ _)
  have htail : b.queue.tailBlock = some (blk' (numBlocks cfg (H + l.length + m) - 1)) := by
    obtain ⟨K, hK⟩ : ∃ K, numBlocks cfg (H + l.length + m) = K + 1 := ⟨_, (Nat.succ_pred hK'.ne').symm⟩
    rw [hK] at hlay hlt ⊢
    exact hlay.tailBlock_eq (by omega)
  obtain ⟨s', hel, honly, hev, cur, i, hloop, hcur⟩ := fillBlocks_eq hlay.blk_inj hlast hfit hK' hlay.elements htail
    (fun k hk hkK => hlay.ring.next_blk hk hkK) hk hlen (Nat.lt_add_of_pos_right hpos) hfuel hrest
  rw [store_contents] at hel
  exact ⟨s', hel, honly, hev, cur, i, hloop, hcur⟩

end Fill

/-- The layout after the elements have changed. -/
theorem ElementsOnly.layout (honly : ElementsOnly s s') (h : Layout cfg s H K blk front l) {l' : List α}
    (hel : ElementsLayout cfg s' blk (H / cfg.blockSize) K (contents H l'))
    (hfits : H + l'.length ≤ K * cfg.blockSize) : Layout cfg s' H K blk front l' := by
  refine ⟨?_, ?_, h.flags.congr fun k _ _ => honly.policy _, hel, hfits⟩
  · exact h.ring.congr honly.next (by rw [honly.rest]) (by rw [honly.rest]) (by rw [honly.rest])
  · exact h.index.congr (by rw [honly.rest]) (by rw [honly.rest]) (by rw [honly.rest]) (by rw [honly.rest])

section Fill

variable {b : Bulk α} {grew : Bool} {blk' : ℕ → ℕ} {front' : List ℕ} {as : List α}

/-- **Success.** With all items in place, `Tail` goes to the newest entry and the tail index behind the last
    item. -/
theorem Inv.bulk_returned (h : Inv cfg s H blk front l)
    (hmid : Mid cfg s b H (numBlocks cfg (H + l.length)) r n grew blk' front' l) (hpos : 0 < as.length)
    (hgot : numBlocks cfg (H + l.length) + r + n = numBlocks cfg (H + l.length + as.length))
    (hel : ElementsLayout cfg s' blk' (H / cfg.blockSize) (numBlocks cfg (H + l.length + as.length))
      (contents H (l ++ as))) (honly : ElementsOnly b.queue s') :
    ∃ s₂, Bulk.storeNewestTail cfg { b with queue := s' } = some s₂ ∧
      Inv cfg { s₂ with tailIndex := Word.add cfg.w s.tailIndex as.length } H blk' front' (l ++ as) ∧
      s₂.indexEntriesUsed = s.indexEntriesUsed + n ∧ (∀ q, (s₂.blocks q).policy = (b.queue.blocks q).policy) ∧
      s₂.indexEntriesSize = b.queue.indexEntriesSize ∧ s₂.events = s'.events := by
  have hlay := hmid.layout
  rw [hgot] at hlay
  have hlen : H + (l ++ as).length = H + l.length + as.length := by rw [List.length_append, Nat.add_assoc]
  have hlay' : Layout cfg s' H (numBlocks cfg (H + l.length + as.length)) blk' front' (l ++ as) := by
    refine honly.layout hlay hel ?_
    rw [hlen]
    exact le_numBlocks cfg _
  have hu : s'.indexEntriesUsed = s.indexEntriesUsed + n := by rw [honly.rest, ← hmid.used]
  have hs : s'.indexEntriesSize = b.queue.indexEntriesSize := by rw [honly.rest]
  have hn : s'.nextIndexEntry = b.queue.nextIndexEntry := by rw [honly.rest]
  have hsize := Nat.lt_of_le_of_lt (Nat.zero_le _) hlay'.index.next_lt
  -- what the invariant needs once `Tail` is at the newest entry
  have hinv : ∀ s₂ : FastQueue α, Layout cfg s₂ H (numBlocks cfg (H + l.length + as.length)) blk' front' (l ++ as) →
      SameContents s' s₂ → s₂.tailSlot = some (slotBack s₂.indexEntriesSize s₂.nextIndexEntry 1) →
      Inv cfg { s₂ with tailIndex := Word.add cfg.w s.tailIndex as.length } H blk' front' (l ++ as) := by
    intro s₂ hlay₂ hsame htail
    have hhead : s'.headIndex = H % 2 ^ cfg.w := by rw [honly.rest]; exact hmid.same.headIndex.trans h.headIndex
    have hatt : s'.dequeueAttemptsCount = H % 2 ^ cfg.w := by
      rw [honly.rest]; exact hmid.same.attempts.trans h.attempts
    have hfail : s'.dequeueFailedCount = 0 := by rw [honly.rest]; exact hmid.same.failed.trans h.failed
    refine ⟨?_, hsame.headIndex.trans hhead, ?_, hsame.attempts.trans hatt, hsame.failed.trans hfail,
      fun _ => htail⟩
    · rw [hlen]
      exact hlay₂.congr rfl rfl rfl rfl rfl rfl rfl
    · show Word.add cfg.w s.tailIndex as.length = _
      rw [h.tailIndex, Word.add_mod_left, hlen]
  by_cases hgot₀ : r + n = 0
  · -- no block was needed: `Tail` still is right
    refine ⟨s', ?_, hinv s' hlay' ⟨rfl, rfl, rfl, rfl, rfl, fun _ => rfl⟩ ?_, hu, fun q => honly.policy q, hs, rfl⟩
    · simp only [Bulk.storeNewestTail, hmid.first, if_pos hgot₀, Option.isSome_none, Bool.false_eq_true, if_false]
    · have hT : 0 < H + l.length := by
        rw [Nat.pos_iff_ne_zero]
        intro h0
        have := (numBlocks_bounds cfg (H + l.length) hpos).1
        rw [h0, numBlocks_zero] at hgot
        rw [h0, Nat.zero_div, ← hgot] at this
        omega
      have htail := hmid.tailSlot hT
      rw [hmid.origin, show n + (if grew = true then 0 else r) = 0 by split <;> omega, slotBack_zero] at htail
      rw [FastQueue.tailSlot, honly.rest]
      exact htail
  · have hne : s'.currentIndexEntryArray ≠ [] := by
      refine hlay'.index.array_ne_nil ?_
      have := hmid.got_le
      rw [hu, ← hmid.used]
      omega
    refine ⟨s'.putTail (slotBack s'.indexEntriesSize s'.nextIndexEntry 1), ?_,
      hinv _ (hlay'.putTail _) ⟨rfl, rfl, rfl, rfl, rfl, fun _ => rfl⟩ (tailSlot_putTail _ hne), hu,
      fun q => honly.policy q, hs, rfl⟩
    simp only [Bulk.storeNewestTail, hmid.first, if_neg hgot₀, Option.isSome_some, if_true,
      sub_mod_eq_slotBack hlay'.index.size_dvd hlay'.index.next_lt hsize]
    exact storeTail_eq _ hne

end Fill

/-! ## A constructor throws -/

/-- The blocks from number `k` on are marked as empty. -/
theorem setBlocksEmpty_eq (cfg : Cfg)
    (hinj : ∀ k k', k₀ ≤ k → k < K → k₀ ≤ k' → k' < K → blk k = blk k' → k = k') :
    ∀ (fuel : ℕ) {k : ℕ} {s : FastQueue α}, k₀ ≤ k → k < K → K ≤ k + fuel → s.tailBlock = some (blk (K - 1)) →
      (∀ k, k₀ ≤ k → k + 1 < K → (s.blocks (blk k)).next = some (blk (k + 1))) →
      ∃ s', s.setBlocksEmpty fuel (blk k) = some s' ∧ s' = { s with blocks := s'.blocks } ∧
        (∀ q, (s'.blocks q).next = (s.blocks q).next) ∧
        (∀ q, (s'.blocks q).elements = (s.blocks q).elements) ∧
        (∀ q, q ∉ liveBlocks blk k K → (s'.blocks q).policy = (s.blocks q).policy) ∧
        ∀ q ∈ liveBlocks blk k K, s'.blockIsEmpty cfg q = true := by
  intro fuel
  induction fuel with
  | zero =>
      intro k s _ hkK hfuel
      omega
  | succ fuel ih =>
      intro k s hk hkK hfuel htail hlink
      have hempty : (s.modifyPolicy (blk k) .setAllEmpty).blockIsEmpty cfg (blk k) = true := by
        rw [blockIsEmpty, policy_modifyPolicy_self]
        exact FlagsCheckPolicy.isEmpty_setAllEmpty
      by_cases hlast : k = K - 1
      · have hone : liveBlocks blk k K = [blk k] := by
          rw [show K = k + 1 by omega, liveBlocks_cons (Nat.lt_succ_self k), liveBlocks_self]
        refine ⟨s.modifyPolicy (blk k) .setAllEmpty, ?_, rfl, fun _ => next_modifyPolicy _,
          fun _ => elements_modifyPolicy _, fun q hq => ?_, fun q hq => ?_⟩
        · rw [setBlocksEmpty]
          exact if_pos (hlast ▸ htail)
        · rw [hone, List.mem_singleton] at hq
          exact policy_modifyPolicy_of_ne _ hq
        · rw [hone, List.mem_singleton] at hq
          rwa [hq]
      · have hnext := hlink k hk (by omega)
        obtain ⟨s', hrun, hrest, hn, he, hp, hall⟩ := @ih (k + 1) (s.modifyPolicy (blk k) .setAllEmpty)
          (by omega) (by omega) (by omega) htail (fun k' hk' hkK' => (next_modifyPolicy _).trans (hlink k' hk' hkK'))
        have hsplit : liveBlocks blk k K = blk k :: liveBlocks blk (k + 1) K := liveBlocks_cons hkK
        have hnot : blk k ∉ liveBlocks blk (k + 1) K := by
          intro hmem
          obtain ⟨k', hk', hkK', heq⟩ := mem_liveBlocks.mp hmem
          have := hinj k' k (by omega) hkK' hk hkK heq
          omega
        refine ⟨s', ?_, hrest, fun q => (hn q).trans (next_modifyPolicy _),
          fun q => (he q).trans (elements_modifyPolicy _), fun q hq => ?_, fun q hq => ?_⟩
        · have hne : ¬ (s.modifyPolicy (blk k) .setAllEmpty).tailBlock = some (blk k) := by
            intro heq
            have := hinj _ _ (by omega) (by omega) hk hkK (Option.some.inj (htail.symm.trans heq))
            omega
          simp only [setBlocksEmpty, if_neg hne, next_modifyPolicy, hnext, Option.bind_eq_bind, Option.bind_some,
            hrun]
        · rw [hsplit, List.mem_cons, not_or] at hq
          exact (hp q hq.2).trans (policy_modifyPolicy_of_ne _ hq.1)
        · rw [hsplit, List.mem_cons] at hq
          rcases hq with rfl | hq
          · rw [blockIsEmpty, hp _ hnot, ← blockIsEmpty]
            exact hempty
          · exact hall q hq

section Fill

variable {b : Bulk α} {grew : Bool} {blk' : ℕ → ℕ} {front' : List ℕ} {as : List α} {m : ℕ}

/-- The queue after the exception handler of a call that had got the blocks of the numbers from `K` up to
    `K'` and constructed `j` elements from number `T` on. -/
structure Undone (cfg : Cfg) (s s' : FastQueue α) (b : Bulk α) (blk : ℕ → ℕ) (H K K' T j : ℕ) (l : List α) :
    Prop where
  rest : s' = { b.rollBack s.tailBlock with blocks := s'.blocks, events := s'.events }
  events : s'.events
    = s.events ++ eventsFrom cfg blk .constructed T j ++ eventsFrom cfg blk .destroyed T j
  next : ∀ q, (s'.blocks q).next = (b.queue.blocks q).next
  policy : ∀ q, q ∉ liveBlocks blk K K' → (s'.blocks q).policy = (b.queue.blocks q).policy
  emptied : ∀ q ∈ liveBlocks blk K K', s'.blockIsEmpty cfg q = true
  elements : ElementsLayout cfg s' blk (H / cfg.blockSize) K (contents H l)

/-- **The exception handler.** The elements constructed by the call are destroyed, the blocks got by it are
    marked as empty, and the rest is as `RollBack` leaves it. -/
theorem Inv.handleFillException (h : Inv cfg s H blk front l)
    (hmid : Mid cfg s b H (numBlocks cfg (H + l.length)) r n grew blk' front' l)
    (hblk : ∀ k < numBlocks cfg (H + l.length), blk' k = blk k) (hm : as.length < m)
    (hgot : numBlocks cfg (H + l.length) + r + n = numBlocks cfg (H + l.length + m))
    (hel : ElementsLayout cfg s' blk' (H / cfg.blockSize) (numBlocks cfg (H + l.length + m))
      (contents H (l ++ as))) (honly : ElementsOnly b.queue s')
    (hev : s'.events = b.queue.events ++ eventsFrom cfg blk' .constructed (H + l.length) as.length) :
    ∃ s₂, FastQueue.handleFillException cfg s.tailBlock s.tailIndex
        (blk' ((H + l.length + as.length) / cfg.blockSize)) ((H + l.length + as.length) % cfg.blockSize)
        { b with queue := s' } = some s₂ ∧
      Undone cfg s s₂ b blk' H (numBlocks cfg (H + l.length)) (numBlocks cfg (H + l.length + m)) (H + l.length)
        as.length l := by
  have hpos : 0 < m := Nat.lt_of_le_of_lt (Nat.zero_le _) hm
  obtain ⟨hlt, hlast, hfit, -⟩ := numBlocks_bounds cfg (H + l.length) hpos
  have hlay := hmid.layout
  have hK₀ := hmid.head_block_le
  rw [hgot] at hlay
  have hk : H / cfg.blockSize ≤ (H + l.length) / cfg.blockSize := Nat.div_le_div_right (Nat.le_add_right _ _)
  have hfirst := h.first_eq hmid hblk hpos hgot
  have hslot : s.tailIndex % cfg.blockSize = (H + l.length) % cfg.blockSize := by
    rw [h.tailIndex]
    exact Word.mod_mod_two_pow cfg.blockSizeLog2_le
  have hcount : b.queue.indexEntriesUsed ≤ b.queue.blockManager.blockCount := by
    rw [hlay.ring.used]
    exact hlay.ring.manager.length_outstanding_le
  have hmanager : s'.blockManager = b.queue.blockManager := by rw [honly.rest]
  have htail : s'.tailBlock = b.queue.tailBlock := by rw [honly.rest]
  have hwindow := hlay.index.window
  generalize hK' : numBlocks cfg (H + l.length + m) = K' at *
  generalize hK : numBlocks cfg (H + l.length) = K at *
  have hlink : ∀ k, H / cfg.blockSize ≤ k → k + 1 < K' → (b.queue.blocks (blk' k)).next = some (blk' (k + 1)) :=
    fun k hk hkK => hlay.ring.next_blk hk hkK
  -- marking the blocks
  obtain ⟨s₁, hset, hrest, hnext, helem, hpol, hall⟩ : ∃ s₁,
      Bulk.setAllocatedEmpty { b with queue := s' } = some s₁ ∧ s₁ = { s' with blocks := s₁.blocks } ∧
      (∀ q, (s₁.blocks q).next = (b.queue.blocks q).next) ∧
      (∀ q, (s₁.blocks q).elements = (s'.blocks q).elements) ∧
      (∀ q, q ∉ liveBlocks blk' K K' → (s₁.blocks q).policy = (b.queue.blocks q).policy) ∧
      ∀ q ∈ liveBlocks blk' K K', s₁.blockIsEmpty cfg q = true := by
    by_cases hgot₀ : r + n = 0
    · have hf : b.firstAllocatedBlock = none := by rw [hmid.first, if_pos hgot₀]
      refine ⟨s', by simp only [Bulk.setAllocatedEmpty, hf], rfl, honly.next, fun _ => rfl,
        fun q _ => honly.policy q, ?_⟩
      intro q hq
      rw [show K' = K by omega, liveBlocks_self] at hq
      exact absurd hq (by simp)
    · obtain ⟨j, rfl⟩ : ∃ j, K' = j + 1 := ⟨K' - 1, by omega⟩
      obtain ⟨s₁, hset, hrest, hn, he, hp, hall⟩ := setBlocksEmpty_eq cfg hlay.blk_inj
        s'.blockManager.blockCount (k := K) (s := s') hK₀ (by omega) (by rw [hmanager]; omega)
        (htail.trans (hlay.tailBlock_eq (by omega))) (fun k hk hkK => (honly.next _).trans (hlink k hk hkK))
      have hf : b.firstAllocatedBlock = some (blk' K) := by rw [hmid.first, if_neg hgot₀]
      refine ⟨s₁, by simp only [Bulk.setAllocatedEmpty, hf, hset], hrest, fun q => (hn q).trans (honly.next q), he,
        fun q hq => (hp q hq).trans (honly.policy q), hall⟩
  -- destroying the elements
  have hend : (H + l.length + as.length) / cfg.blockSize < K' := cfg.block_lt (by omega)
  have hel₁ : ElementsLayout cfg (Bulk.rollBack s.tailBlock { b with queue := s₁ }) blk' (H / cfg.blockSize) K'
      (contents H (l ++ as)) := hel.congr fun q => helem q
  obtain ⟨s₂, hdestroy, hel₂, honly₂, hev₂⟩ := destroyBlocks_eq hlay.blk_inj hend
    s₁.blockManager.blockCount (n := H + l.length) hel₁
    (fun k hk hkK => (hnext _).trans (hlink k hk hkK)) hk (Nat.le_add_right _ _) (by
      rw [hrest, hmanager]
      generalize (H + l.length) / cfg.blockSize = x at *
      generalize (H + l.length + as.length) / cfg.blockSize = y at *
      omega) (fun j hj hjlt => by
      rw [contents, if_pos (by omega), List.getElem?_eq_getElem (by rw [List.length_append]; omega)]
      exact Option.some_ne_none _)
  rw [Nat.add_sub_cancel_left] at hel₂ hev₂
  rw [clearFrom_contents] at hel₂
  refine ⟨s₂, ?_, ?_, ?_, fun q => (honly₂.next q).trans (hnext q), fun q hq => (honly₂.policy q).trans (hpol q hq),
    fun q hq => ?_, ?_⟩
  · have hfirst' : Bulk.firstBlock s.tailBlock ((H + l.length) % cfg.blockSize) { b with queue := s' } = _ := hfirst
    simp only [FastQueue.handleFillException, hset, hfirst', hslot, Option.bind_eq_bind, Option.bind_some]
    exact hdestroy
  · rw [honly₂.rest]
    simp only [Bulk.rollBack]
    rw [hrest, honly.rest]
  · rw [hev₂]
    show s₁.events ++ _ = _
    rw [hrest, ← hmid.same.events, ← hev]
  · rw [blockIsEmpty, honly₂.policy]
    exact hall q hq
  · refine hel₂.shrink (by omega) fun j hj => contents_of_ge ?_
    rw [← hK] at hj
    exact le_trans (le_numBlocks cfg _) hj

end Fill

/-! ## `EnqueueBulk` -/

/-- What a call has got when its acquisition loops end: the blocks `got` of the ring and `n` new ones. -/
structure Got (cfg : Cfg) (s : FastQueue α) (b : Bulk α) (H n : ℕ) (grew : Bool) (blk blk' : ℕ → ℕ)
    (got front front' : List ℕ) (l : List α) : Prop where
  mid : Mid cfg s b H (numBlocks cfg (H + l.length)) got.length n grew blk' front' l
  front : front = got ++ front'
  old : ∀ k < numBlocks cfg (H + l.length), blk' k = blk k
  empty : ∀ q ∈ got, s.blockIsEmpty cfg q = true

/-- **`EnqueueBulk`.** Unless the call may allocate and the queue comes to have blocks for all the indices there
    are, it is refused, is left by an exception, or appends its items. -/
theorem Inv.enqueueBulk (h : Inv cfg s H blk front l) (mode : AllocMode) (items : List (Option α))
    (hm : 0 < items.length) (hmw : items.length + cfg.blockSize ≤ 2 ^ cfg.w)
    (hspan : s.indexEntriesSize * cfg.blockSize ∣ 2 ^ cfg.w) :
    (mode = .canAlloc ∧ ∃ u, (u + numBlocks cfg (H + l.length)
            < s.indexEntriesUsed + numBlocks cfg (H + l.length + items.length) ∨
              2 ^ (cfg.w - 1) < H + l.length ∨ 2 ^ (cfg.w - 1) < items.length) ∧
        2 ^ cfg.w ≤ u * cfg.blockSize ∧
        ∀ res s', s.enqueueBulk cfg mode items = some (res, s') → u ≤ s'.blockManager.blockCount) ∨
      ∃ b n grew blk' got front', Got cfg s b H n grew blk blk' got front front' l ∧
        (mode = .cannotAlloc → grew = false) ∧
        ((s.enqueueBulk cfg mode items = some (.returned false, b.rollBack s.tailBlock) ∧
            (numBlocks cfg (H + l.length) + got.length + n < numBlocks cfg (H + l.length + items.length) ∨
              2 ^ (cfg.w - 1) < H + l.length ∨ 2 ^ (cfg.w - 1) < items.length) ∧
            (b.queue.isFull cfg ((numBlocks cfg (H + l.length) + got.length + n) * cfg.blockSize % 2 ^ cfg.w)
              = true ∨ mode = .cannotAlloc ∨ s.allocs ≠ [])) ∨
          (s.enqueueBulk cfg mode items = some (.threw, b.queue) ∧ s.allocs ≠ []) ∨
          numBlocks cfg (H + l.length) + got.length + n = numBlocks cfg (H + l.length + items.length) ∧
            (grew = true → got.length = 0 ∨ s.indexEntriesSize < s.indexEntriesUsed + n) ∧
            ((∃ (as : List α) (s' : FastQueue α), items = as.map some ∧ s.enqueueBulk cfg mode items = some (.returned true, s') ∧
                Inv cfg s' H blk' front' (l ++ as) ∧ s'.indexEntriesUsed = s.indexEntriesUsed + n ∧
                (∀ q, (s'.blocks q).policy = (b.queue.blocks q).policy) ∧
                s'.indexEntriesSize = b.queue.indexEntriesSize) ∨
              ∃ (as : List α) (rest : List (Option α)) (s' : FastQueue α), items = as.map some ++ none :: rest ∧
                s.enqueueBulk cfg mode items = some (.threw, s') ∧
                Undone cfg s s' b blk' H (numBlocks cfg (H + l.length))
                  (numBlocks cfg (H + l.length + items.length)) (H + l.length) as.length l)) := by
  obtain ⟨e, he, hneed⟩ := blockCountNeed_cases cfg (H + l.length) hm hmw
  rw [← h.tailIndex] at hneed
  have hspan' : s.indexEntriesSize * cfg.blockSize ∣ 2 ^ cfg.w ∨
      numBlocks cfg (H + l.length) + blockCountNeed cfg s.tailIndex items.length ≤ 1 := Or.inl hspan
  obtain ⟨rest, b, hreuse, hcases⟩ := h.getBlocks mode hspan'
  rcases hcases with ⟨hmay, u, hu, hbig, hcount⟩ | ⟨got, res, b', n, grew, blk', front', hnew, hmid, hlen, hfront, hold,
    hempty, -, hcan, hacq, hbreak, href, hthrew⟩
  · -- too many blocks
    refine Or.inl ⟨hmay, u, ?_, hbig, fun res s' hcall => ?_⟩
    · rcases he with rfl | ⟨-, hlt⟩
      · exact Or.inl (by omega)
      · exact Or.inr hlt
    · have hall := hcall
      simp only [FastQueue.enqueueBulk, hreuse, Option.bind_eq_bind, Option.bind_some,
        Option.bind_eq_some_iff] at hcall
      obtain ⟨⟨r, b'⟩, hnew, -⟩ := hcall
      rw [(fixed_enqueueBulk hreuse hnew hall).blockManager]
      exact hcount r b' hnew
  · have hgot : Got cfg s b' H n grew blk blk' got front front' l := ⟨hmid, hfront, hold, hempty⟩
    cases res with
    | refused =>
        refine Or.inr ⟨b', n, grew, blk', got, front', hgot, hcan, Or.inl ⟨?_, ?_, href rfl⟩⟩
        · simp only [FastQueue.enqueueBulk, hreuse, hnew, Option.bind_eq_bind, Option.bind_some]
        · have := hbreak (by rintro ⟨⟩)
          rcases he with rfl | ⟨-, hlt⟩
          · exact Or.inl (by omega)
          · exact Or.inr hlt
    | threw =>
        refine Or.inr ⟨b', n, grew, blk', got, front', hgot, hcan, Or.inr (Or.inl ⟨?_, hthrew rfl⟩)⟩
        simp only [FastQueue.enqueueBulk, hreuse, hnew, Option.bind_eq_bind, Option.bind_some]
    | acquired =>
        obtain ⟨rfl, hgrew⟩ := hacq rfl
        rcases he with rfl | ⟨hlarge, -⟩
        swap
        · -- there is no room for more blocks than the whole index range has
          have hnew₁ : H / cfg.blockSize < numBlocks cfg (H + l.length + items.length) :=
            lt_of_le_of_lt (Nat.div_le_div_right (by omega)) (numBlocks_bounds cfg (H + l.length) hm).1
          have hwindow := hmid.layout.index.window
          have hused := hmid.layout.index.used_le
          have hmul := Nat.mul_le_mul_right cfg.blockSize
            (show 2 ^ (cfg.w - cfg.blockSizeLog2) + 1 ≤ b'.queue.indexEntriesSize by omega)
          rw [Nat.succ_mul, two_pow_sub_mul] at hmul
          have hle := Nat.le_of_dvd Word.two_pow_pos (hmid.span hspan)
          have hB := cfg.blockSize_pos
          omega
        · have htot : numBlocks cfg (H + l.length) + got.length + n
              = numBlocks cfg (H + l.length + items.length) := by omega
          refine Or.inr ⟨b', n, grew, blk', got, front', hgot, hcan, Or.inr (Or.inr ⟨htot, hgrew, ?_⟩)⟩
          obtain ⟨as, rest, hitems, hrest⟩ := exists_items items
          have hlen' : as.length + rest.length = items.length := by
            rw [hitems, List.length_append, List.length_map]
          obtain ⟨s₁, hel, honly, hev, cur, i, hloop, hcur⟩ := Inv.fillBlocks hmid hrest hlen' hm htot
          have hfirst := h.first_eq hmid hold hm htot
          have hslot : s.tailIndex % cfg.blockSize = (H + l.length) % cfg.blockSize := by
            rw [h.tailIndex]
            exact Word.mod_mod_two_pow cfg.blockSizeLog2_le
          have hlast : Word.sub cfg.w (Word.add cfg.w s.tailIndex items.length) 1 % cfg.blockSize
              = (H + l.length + items.length - 1) % cfg.blockSize := by
            have hpred : Word.sub cfg.w (Word.add cfg.w s.tailIndex items.length) 1
                = (H + l.length + items.length - 1) % 2 ^ cfg.w := by
              refine Word.sub_eq_of_modEq ?_ (Nat.mod_lt _ Word.two_pow_pos)
              rw [h.tailIndex, Word.add_mod_left, Nat.mod_mod, Nat.add_mod_mod, Nat.add_sub_cancel' (by omega)]
            rw [hpred]
            exact Word.mod_mod_two_pow cfg.blockSizeLog2_le
          rw [← hitems] at hloop
          cases rest with
          | nil =>
              left
              rw [List.append_nil] at hitems
              have has : as.length = items.length := by simpa using hlen'
              obtain ⟨s₂, hstore, hinv, hused, hpol, hsize, -⟩ := h.bulk_returned hmid
                (show 0 < as.length by omega) (by rw [has]; exact htot) (by rw [has]; exact hel) honly
              refine ⟨as, _, hitems, ?_, hinv, hused, hpol, hsize⟩
              rw [if_pos rfl] at hloop
              simp only [FastQueue.enqueueBulk, hreuse, hnew, Option.bind_eq_bind, Option.bind_some, hslot, hfirst,
                hlast, hloop, hstore, has]
          | cons o rest =>
              right
              obtain rfl : o = none := hrest o rfl
              rw [List.length_cons] at hlen'
              obtain ⟨hcur, hi⟩ := hcur (List.cons_ne_nil _ _)
              rw [if_neg (List.cons_ne_nil _ _), hcur, hi] at hloop
              obtain ⟨s₂, hhandle, hundone⟩ := h.handleFillException hmid hold
                (show as.length < items.length by omega) htot hel honly hev
              refine ⟨as, rest, s₂, hitems, ?_, hundone⟩
              simp only [FastQueue.enqueueBulk, hreuse, hnew, Option.bind_eq_bind, Option.bind_some, hslot, hfirst,
                hlast, hloop, hhandle]

end FastQueue

end LockFreeStructures
