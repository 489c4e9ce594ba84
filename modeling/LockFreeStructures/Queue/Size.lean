import LockFreeStructures.Common.Utility

/-!
# `Queue.Size` — the counters behind `Size`

Both queues compute their size, and decide whether there is something to dequeue, from the tail index and the
head index or the two dequeue counters. Called one after another the dequeues keep the head index at the difference
of these, and then all the tests agree.
-/

namespace LockFreeStructures

variable {w a b h t n : ℕ}

namespace Word

theorem sub_lt (w a b : ℕ) : sub w a b < 2 ^ w := Nat.mod_lt _ two_pow_pos

/-- The way back is the rest of the range. -/
theorem sub_swap (w a b : ℕ) : sub w a b = (2 ^ w - sub w b a) % 2 ^ w := by
  have hlt := sub_lt w b a
  have hmod : b + (2 ^ w - sub w b a) ≡ a [MOD 2 ^ w] := by
    refine Nat.ModEq.add_right_cancel' (sub w b a) ?_
    calc b + (2 ^ w - sub w b a) + sub w b a = b + 2 ^ w := by omega
      _ ≡ b [MOD 2 ^ w] := Nat.add_mod_right _ _
      _ ≡ a + sub w b a [MOD 2 ^ w] := by rw [Nat.add_comm]; exact (sub_add_modEq w b a).symm
  refine sub_eq_of_modEq ?_ (Nat.mod_lt _ two_pow_pos)
  rw [Nat.add_mod_mod]
  exact hmod

/-- Moving the subtrahend on shortens the way. -/
theorem sub_add_right (hn : n ≤ sub w a b) : sub w a (add w b n) = sub w a b - n := by
  refine sub_eq_of_modEq ?_ (Nat.lt_of_le_of_lt (Nat.sub_le _ _) (sub_lt w a b))
  rw [add, Nat.mod_add_mod, show b + n + (sub w a b - n) = sub w a b + b by omega]
  exact sub_add_modEq w a b

/-- Moving the minuend on. -/
theorem sub_add_left (w a b n : ℕ) : sub w (add w a n) b = add w (sub w a b) n := by
  rw [sub, add, Nat.mod_add_mod, add, sub, Nat.mod_add_mod]
  congr 1
  omega

end Word

/-- The comparison is true just when the second word is ahead by less than half the range. -/
theorem circularLessThan_iff (hw : 0 < w) :
    circularLessThan w a b = true ↔ 0 < Word.sub w b a ∧ Word.sub w b a < 2 ^ (w - 1) := by
  have hlt := Word.sub_lt w b a
  have hhalf := Word.two_pow_pred_add hw
  rw [circularLessThan, decide_eq_true_iff, Word.sub_swap]
  by_cases hzero : Word.sub w b a = 0
  · rw [hzero, Nat.sub_zero, Nat.mod_self]
    omega
  · rw [Nat.mod_eq_of_lt (by omega)]
    omega

/-- The test of `DequeueBulk` is that of `Dequeue` and `Size`. -/
theorem circularLessThan_zero_sub (hw : 0 < w) :
    circularLessThan w 0 (Word.sub w t h) = circularLessThan w h t := by
  have hzero : Word.sub w (Word.sub w t h) 0 = Word.sub w t h := Word.sub_zero
  rw [Bool.eq_iff_iff, circularLessThan_iff hw, circularLessThan_iff hw, hzero]

/-- What `Size` computes. -/
def available (w head tail : ℕ) : ℕ := if circularLessThan w head tail then Word.sub w tail head else 0

theorem available_of_lt (h' : circularLessThan w h t = true) : available w h t = Word.sub w t h := if_pos h'

theorem available_pos_iff (hw : 0 < w) : 0 < available w h t ↔ circularLessThan w h t = true := by
  unfold available
  split
  · next hlt => exact iff_of_true ((circularLessThan_iff hw).mp hlt).1 hlt
  · next hlt => exact iff_of_false (Nat.lt_irrefl 0) hlt

/-- Taking what is there makes the size smaller by that. -/
theorem available_add (hw : 0 < w) (hn : n ≤ available w h t) :
    available w (Word.add w h n) t = available w h t - n := by
  by_cases hlt : circularLessThan w h t = true
  · rw [available_of_lt hlt] at hn ⊢
    rw [available, Word.sub_add_right hn]
    split
    · rfl
    · next hge =>
      -- then nothing is left
      rw [circularLessThan_iff hw, Word.sub_add_right hn] at hge
      have := ((circularLessThan_iff hw).mp hlt).2
      omega
  · have hzero : available w h t = 0 := if_neg hlt
    rw [hzero] at hn ⊢
    obtain rfl : n = 0 := Nat.le_zero.mp hn
    have hsame : Word.sub w t (Word.add w h 0) = Word.sub w t h := Word.sub_add_right (Nat.zero_le _)
    have hle : ¬ 0 < available w (Word.add w h 0) t := by
      rw [available_pos_iff hw, circularLessThan_iff hw, hsame, ← circularLessThan_iff hw]
      exact hlt
    omega

end LockFreeStructures
