import LockFreeStructures.FastQueue.EnqueueBulk
import LockFreeStructures.SlowQueue.Defs

/-!
# `SlowQueue.BlockCount` — how many blocks a bulk enqueue asks for, and how many it needs

Both queues compute the count by the same formula. It is right up to half the index range, and again where
the last item's index wraps; in between the signed shift makes it `2 ^ ( w - BlockSizeLog2 )` too large.
-/

namespace LockFreeStructures

/-- The block boundaries that `n` single enqueues cross from the tail index `start` on: the indices, taken
    in words, that begin a block. -/
def boundaries (cfg : Cfg) (start n : ℕ) : ℕ :=
  ((List.range n).filter fun i => (start + i) % 2 ^ cfg.w % cfg.blockSize = 0).length

variable {cfg : Cfg}

/-- Crossing a boundary is what makes a queue's elements take one block more. -/
theorem numBlocks_add_boundaries (start n : ℕ) :
    numBlocks cfg start + boundaries cfg start n = numBlocks cfg (start + n) := by
  induction n with
  | zero => rfl
  | succ n ih =>
      have hmod : (start + n) % 2 ^ cfg.w % cfg.blockSize = (start + n) % cfg.blockSize :=
        Word.mod_mod_two_pow cfg.blockSizeLog2_le
      have hstep : boundaries cfg start (n + 1)
          = boundaries cfg start n + if (start + n) % cfg.blockSize = 0 then 1 else 0 := by
        rw [boundaries, boundaries, List.range_succ, List.filter_append, List.length_append,
          List.filter_singleton, hmod]
        by_cases h : (start + n) % cfg.blockSize = 0
        · simp [h]
        · simp [h]
      rw [hstep, ← Nat.add_assoc, ih, ← Nat.add_assoc start, numBlocks_add_one]

namespace SlowQueue

/-- The two queues' formulas are one. -/
theorem needCount_eq (cfg : Cfg) (start n : ℕ) : needCount cfg start n = FastQueue.blockCountNeed cfg start n := by
  rw [needCount, FastQueue.blockCountNeed, Word.add, Word.add, Nat.add_comm start n]

/-! ## The count of a call -/

/-- Up to the blocks of whole turns of the index, the count is the number of blocks the items add. -/
theorem needCount_modEq (cfg : Cfg) (T m : ℕ) : needCount cfg (T % 2 ^ cfg.w) m + numBlocks cfg T
    ≡ numBlocks cfg (T + m) [MOD 2 ^ (cfg.w - cfg.blockSizeLog2)] := by
  rw [needCount_eq]
  exact FastQueue.blockCountNeed_modEq cfg T m

/-- The count of a call whose items leave a block of the index range free: it is right, or it is more than all
    the blocks of the range. -/
theorem needCount_cases (cfg : Cfg) (T : ℕ) {m : ℕ} (hm : m + cfg.blockSize ≤ 2 ^ cfg.w) :
    numBlocks cfg T + needCount cfg (T % 2 ^ cfg.w) m = numBlocks cfg (T + m) ∨
      2 ^ cfg.w ≤ needCount cfg (T % 2 ^ cfg.w) m * cfg.blockSize := by
  have hmod := needCount_modEq cfg T m
  have hlt := numBlocks_mul_lt cfg (T + m)
  have hle := le_numBlocks cfg T
  have hW := two_pow_sub_mul cfg
  obtain ⟨N, hN⟩ := Nat.exists_eq_add_of_le (@numBlocks_mono cfg _ _ (Nat.le_add_right T m))
  rw [hN, Nat.add_comm] at hmod
  rw [hN, Nat.add_mul] at hlt
  have hNlt : N < 2 ^ (cfg.w - cfg.blockSizeLog2) :=
    Nat.lt_of_mul_lt_mul_right (a := cfg.blockSize) (by rw [hW]; omega)
  have hneed : needCount cfg (T % 2 ^ cfg.w) m % 2 ^ (cfg.w - cfg.blockSizeLog2) = N :=
    Eq.trans (hmod.add_left_cancel' _) (Nat.mod_eq_of_lt hNlt)
  by_cases hsmall : needCount cfg (T % 2 ^ cfg.w) m < 2 ^ (cfg.w - cfg.blockSizeLog2)
  · left
    rw [Nat.mod_eq_of_lt hsmall] at hneed
    rw [hneed, hN]
  · right
    exact hW.symm.le.trans (Nat.mul_le_mul_right _ (Nat.le_of_not_lt hsmall))

/-- **The block count** of either queue is the number of boundaries just when the tail index, read as a signed
    number less one, is not negative or the last item's index wraps. -/
theorem needCount_eq_boundaries_iff (cfg : Cfg) {start n : ℕ} (hstart : start < 2 ^ cfg.w) (hn : 1 ≤ n)
    (hn' : n ≤ 2 ^ (cfg.w - 1)) :
    (FastQueue.blockCountNeed cfg start n = boundaries cfg start n ↔
        start ≤ 2 ^ (cfg.w - 1) ∨ 2 ^ cfg.w < start + n) ∧
      (needCount cfg start n = boundaries cfg start n ↔
        start ≤ 2 ^ (cfg.w - 1) ∨ 2 ^ cfg.w < start + n) := by
  have hneed := FastQueue.blockCountNeed_word hn hn' hstart
  have hcross := @numBlocks_add_boundaries cfg start n
  have hM := Nat.two_pow_pos (cfg.w - cfg.blockSizeLog2)
  rw [needCount_eq]
  refine and_self_iff.mpr ⟨fun h => ?_, fun h => ?_⟩
  · by_contra hcond
    rw [if_pos (by omega), h] at hneed
    omega
  · rw [if_neg (by omega)] at hneed
    omega

/-- In the upper half of a range of 16 bits, with blocks of 4 slots. -/
theorem needCount_eq_boundaries_iff_upper :
    (FastQueue.blockCountNeed ⟨2, 2, by decide, by decide⟩ 40000 3
          = boundaries ⟨2, 2, by decide, by decide⟩ 40000 3 ↔
        40000 ≤ 2 ^ (Cfg.w ⟨2, 2, by decide, by decide⟩ - 1) ∨
          2 ^ Cfg.w ⟨2, 2, by decide, by decide⟩ < 40000 + 3) ∧
      (needCount ⟨2, 2, by decide, by decide⟩ 40000 3 = boundaries ⟨2, 2, by decide, by decide⟩ 40000 3 ↔
        40000 ≤ 2 ^ (Cfg.w ⟨2, 2, by decide, by decide⟩ - 1) ∨
          2 ^ Cfg.w ⟨2, 2, by decide, by decide⟩ < 40000 + 3) :=
  needCount_eq_boundaries_iff ⟨2, 2, by decide, by decide⟩ (by decide) (by decide) (by decide)

/-- With 32 bits and 32 slots a block, one item in the middle of a block in the upper half of the range needs
    no block, and the formulas ask for `2 ^ 27`. -/
theorem not_needCount_eq_boundaries : ¬ ∀ (cfg : Cfg) (start n : ℕ), start < 2 ^ cfg.w → 1 ≤ n →
    n ≤ 2 ^ (cfg.w - 1) →
    FastQueue.blockCountNeed cfg start n = boundaries cfg start n ∧ needCount cfg start n = boundaries cfg start n := by
  intro h
  have := (h ⟨4, 5, by decide, by decide⟩ (2 ^ 31 + 1) 1 (by decide) (by decide) (by decide)).1
  exact absurd this (by decide +kernel)

end SlowQueue

end LockFreeStructures
