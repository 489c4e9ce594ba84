import Mathlib.Data.Nat.ModEq
import LockFreeStructures.Lib.Probing

/-!
# `Lib.MaskedProbing` — linear probing with a mask

A probe that masks its index before each look and then counts it up stays in a run of slots whose length is the
power of two at the low end of the mask. Within that run it is a probe round a table of that many slots.
-/

namespace LockFreeStructures

variable {stop : ℕ → Bool} {mask a h x y fuel C : ℕ}

/-- The first slot from `index` on that the test stops at, the index being masked first; `none` after `fuel` slots. -/
def probeMask (stop : ℕ → Bool) (mask : ℕ) : ℕ → ℕ → Option ℕ
  | 0, _ => none
  | fuel + 1, index =>
      if stop (index &&& mask) then some (index &&& mask) else probeMask stop mask fuel ((index &&& mask) + 1)

/-- A probe does not get past the mask. -/
theorem probeMask_le {i : ℕ} (h : probeMask stop mask fuel x = some i) : i ≤ mask := by
  induction fuel generalizing x with
  | zero => cases h
  | succ fuel ih =>
      rw [probeMask] at h
      split at h
      · exact Option.some.inj h ▸ Nat.and_le_right
      · exact ih h

/-- The lowest `a` bits of the mask are set, and the next one is not. -/
structure LowOnes (a mask : ℕ) : Prop where
  low : mask % 2 ^ a = 2 ^ a - 1
  clear : mask / 2 ^ a % 2 = 0

/-- The mask of a capacity has as many low bits set as the capacity has trailing zeros. -/
theorem LowOnes.of_odd (a q : ℕ) : LowOnes a (2 ^ a * (2 * q + 1) - 1) := by
  have hpos : 0 < 2 ^ a := Nat.two_pow_pos a
  have hmask : 2 ^ a * (2 * q + 1) - 1 = 2 ^ a - 1 + 2 ^ a * (2 * q) := by
    rw [Nat.mul_add, Nat.mul_one]
    omega
  refine ⟨?_, ?_⟩
  · rw [hmask, Nat.add_mul_mod_self_left, Nat.mod_eq_of_lt (by omega)]
  · rw [hmask, Nat.add_mul_div_left _ _ hpos, Nat.div_eq_of_lt (by omega), Nat.zero_add, Nat.mul_mod_right]

/-- The run of slots a masked index lies in. -/
def page (a mask h : ℕ) : ℕ := h / 2 ^ a &&& mask / 2 ^ a

@[simp] theorem page_zero (a mask : ℕ) : page a mask 0 = 0 := by rw [page, Nat.zero_div, Nat.zero_and]

/-- Counting up by one within a run does not leave it. -/
theorem add_and_eq_self {p m c : ℕ} (hp : p &&& m = p) (hm : m % 2 = 0) (hc : c ≤ 1) : p + c &&& m = p := by
  have heven : p % 2 = 0 := by
    have hmod := @Nat.and_mod_two_pow p m 1
    rw [hp, Nat.pow_one, hm, Nat.and_zero] at hmod
    exact hmod
  have hhalf : (p + c) / 2 = p / 2 := by omega
  have hdiv : (p + c &&& m) / 2 = p / 2 := by
    have hdiv := @Nat.and_div_two_pow (p + c) m 1
    have hself := @Nat.and_div_two_pow p m 1
    rw [Nat.pow_one] at hdiv hself
    rw [hdiv, hhalf, ← hself, hp]
  have hmod : (p + c &&& m) % 2 = p % 2 := by
    have hmod := @Nat.and_mod_two_pow (p + c) m 1
    rw [Nat.pow_one, hm, Nat.and_zero] at hmod
    rw [hmod, heven]
  rw [← Nat.div_add_mod (p + c &&& m) 2, hdiv, hmod, Nat.div_add_mod]

namespace LowOnes

theorem and_mask (hm : LowOnes a mask) (h : ℕ) : h &&& mask = 2 ^ a * page a mask h + h % 2 ^ a := by
  have hlow : (h &&& mask) % 2 ^ a = h % 2 ^ a := by
    rw [Nat.and_mod_two_pow, hm.low, Nat.and_two_pow_sub_one_of_lt_two_pow (Nat.mod_lt _ (Nat.two_pow_pos a))]
  rw [← Nat.div_add_mod (h &&& mask) (2 ^ a), hlow, Nat.and_div_two_pow]
  rfl

theorem page_succ (hm : LowOnes a mask) (h : ℕ) : page a mask ((h &&& mask) + 1) = page a mask h := by
  have hpos : 0 < 2 ^ a := Nat.two_pow_pos a
  have hdiv : ((h &&& mask) + 1) / 2 ^ a = page a mask h + (h % 2 ^ a + 1) / 2 ^ a := by
    rw [hm.and_mask, Nat.add_assoc, Nat.add_comm, Nat.add_mul_div_left _ _ hpos, Nat.add_comm]
  have hcarry : (h % 2 ^ a + 1) / 2 ^ a ≤ 1 := by
    have hlt := Nat.mod_lt h hpos
    rw [Nat.div_le_iff_le_mul_add_pred hpos]
    omega
  have hself : page a mask h &&& mask / 2 ^ a = page a mask h := by
    rw [page, Nat.and_assoc, Nat.and_self]
  rw [page, hdiv]
  exact add_and_eq_self hself hm.clear hcarry

end LowOnes

/-- A probe depends on the first slot only. -/
theorem probe_congr (hxy : x ≡ y [MOD C]) (fuel : ℕ) : probe stop C fuel x = probe stop C fuel y := by
  cases fuel with
  | zero => rfl
  | succ fuel => rw [probe, probe, show x % C = y % C from hxy]

/-- **A masked probe** is one round the run of slots it starts in. -/
theorem LowOnes.probeMask_eq (hm : LowOnes a mask) (h fuel : ℕ) : probeMask stop mask fuel h =
    (probe (fun i => stop (2 ^ a * page a mask h + i)) (2 ^ a) fuel h).map (2 ^ a * page a mask h + ·) := by
  induction fuel generalizing h with
  | zero => rfl
  | succ fuel ih =>
      rw [probeMask, probe, ← hm.and_mask h]
      by_cases hstop : stop (h &&& mask)
      · rw [if_pos hstop, if_pos hstop, Option.map_some, hm.and_mask h]
      · have hnext : (h &&& mask) + 1 ≡ h % 2 ^ a + 1 [MOD 2 ^ a] := by
          rw [hm.and_mask h]
          exact Nat.ModEq.add_right 1 (Nat.mul_add_mod ..)
        rw [if_neg hstop, if_neg hstop, ih, hm.page_succ, probe_congr hnext]

/-- With a table of a power of two slots the mask takes the remainder. -/
theorem probeMask_two_pow (stop : ℕ → Bool) (e fuel h : ℕ) :
    probeMask stop (2 ^ e - 1) fuel h = probe stop (2 ^ e) fuel h := by
  have hm : LowOnes e (2 ^ e - 1) := by simpa using LowOnes.of_odd e 0
  have hpage : page e (2 ^ e - 1) h = 0 := by
    rw [page, Nat.div_eq_of_lt (Nat.sub_lt (Nat.two_pow_pos e) Nat.one_pos), Nat.and_zero]
  rw [hm.probeMask_eq, hpage]
  simp

/-- A run of slots without one to stop at is gone round for ever. -/
theorem LowOnes.probeMask_eq_none (hm : LowOnes a mask)
    (hpass : ∀ i < 2 ^ a, stop (2 ^ a * page a mask h + i) = false) (fuel : ℕ) : probeMask stop mask fuel h = none := by
  have hprobe : ∀ fuel h', probe (fun i => stop (2 ^ a * page a mask h + i)) (2 ^ a) fuel h' = none := by
    intro fuel
    induction fuel with
    | zero => exact fun _ => rfl
    | succ fuel ih =>
        intro h'
        rw [probe, if_neg, ih]
        rw [hpass _ (Nat.mod_lt _ (Nat.two_pow_pos a))]
        exact Bool.false_ne_true
  rw [hm.probeMask_eq, hprobe, Option.map_none]

end LockFreeStructures
