import Mathlib.Data.Nat.Log
import LockFreeStructures.FastQueue.Index
import LockFreeStructures.SlowQueue.Defs

/-!
# `Queue.Sizing` — the sizes behind masks and shifts

All masks and shifts of the queues rest on `CeilToPow2` and `BitWidth`: the first gives the sizes of the index
arrays, the second the shift that divides by `BlockSize`.
-/

namespace LockFreeStructures

/-! ## `BitWidth` -/

/-- One of the tests of `BitWidth`: the word is halved if its upper half is not empty. The first component is
    `Count`, a `std::uint8_t`. -/
def halve (s : ℕ) (r : ℕ × ℕ) : ℕ × ℕ := if r.2 >>> s ≠ 0 then ((r.1 + s) % 2 ^ 8, r.2 >>> s) else r

/-- `BitWidth` -/
def bitWidth (sizeofSize x : ℕ) : ℕ :=
  let r := (0, x)
  let r := if 4 < sizeofSize then halve 32 r else r
  let r := halve 16 r
  let r := halve 8 r
  let r := halve 4 r
  let r := halve 2 r
  let r := halve 1 r
  (r.1 + r.2 % 2 ^ 8) % 2 ^ 8

/-- How many bits a number has. -/
def width (x : ℕ) : ℕ := if x = 0 then 0 else Nat.log 2 x + 1

theorem width_lt {x n : ℕ} (hx : x < 2 ^ n) : width x < n + 1 := by
  unfold width
  split
  · exact Nat.succ_pos n
  · next hne => exact Nat.succ_lt_succ (Nat.log_lt_of_lt_pow hne hx)

/-- A test keeps the sum of what is counted and what is left, and leaves half the bits. -/
theorem halve_spec {s : ℕ} {r : ℕ × ℕ} (hx : r.2 < 2 ^ (s + s)) (hlt : r.1 + width r.2 < 2 ^ 8) :
    (halve s r).2 < 2 ^ s ∧ (halve s r).1 + width (halve s r).2 = r.1 + width r.2 := by
  unfold halve
  by_cases hzero : r.2 >>> s = 0
  · rw [if_neg (not_not.mpr hzero)]
    rw [Nat.shiftRight_eq_div_pow, Nat.div_eq_zero_iff_lt (Nat.two_pow_pos s)] at hzero
    exact ⟨hzero, rfl⟩
  · rw [if_pos hzero]
    rw [Nat.shiftRight_eq_div_pow] at hzero ⊢
    have hle : 2 ^ s ≤ r.2 := by
      by_contra hgt
      exact hzero (Nat.div_eq_of_lt (Nat.lt_of_not_le hgt))
    have hne : r.2 ≠ 0 := Nat.ne_of_gt (Nat.lt_of_lt_of_le (Nat.two_pow_pos s) hle)
    have hlog : s ≤ Nat.log 2 r.2 := Nat.le_log_of_pow_le (by decide) hle
    have hwidth : width r.2 = width (r.2 / 2 ^ s) + s := by
      rw [width, width, if_neg hne, if_neg hzero, Nat.log_div_base_pow]
      omega
    have hcount : r.1 + s < 2 ^ 8 := by omega
    refine ⟨?_, ?_⟩
    · rw [Nat.div_lt_iff_lt_mul (Nat.two_pow_pos s), ← Nat.pow_add]
      exact hx
    · rw [Nat.mod_eq_of_lt hcount, hwidth]
      exact (Nat.add_assoc r.1 s _).trans (congrArg (r.1 + ·) (Nat.add_comm s _))

/-- **`BitWidth` is the number of bits.** -/
theorem bitWidth_eq {x : ℕ} (hx : x < 2 ^ 64) : bitWidth 8 x = width x := by
  have hw := width_lt hx
  have hstart : ((0, x) : ℕ × ℕ).1 + width ((0, x) : ℕ × ℕ).2 = width x := Nat.zero_add _
  obtain ⟨h₁, e₁⟩ := halve_spec (s := 32) (r := (0, x)) hx (by omega)
  obtain ⟨h₂, e₂⟩ := halve_spec (s := 16) h₁ (by omega)
  obtain ⟨h₃, e₃⟩ := halve_spec (s := 8) h₂ (by omega)
  obtain ⟨h₄, e₄⟩ := halve_spec (s := 4) h₃ (by omega)
  obtain ⟨h₅, e₅⟩ := halve_spec (s := 2) h₄ (by omega)
  obtain ⟨h₆, e₆⟩ := halve_spec (s := 1) h₅ (by omega)
  rw [bitWidth, if_pos (by decide)]
  generalize halve 1 (halve 2 (halve 4 (halve 8 (halve 16 (halve 32 (0, x)))))) = r at *
  -- at most one bit is left, which is its own width
  have hbit : width r.2 = r.2 := by
    interval_cases r.2
    · rfl
    · simp [width]
  omega

theorem width_two_pow (b : ℕ) : width (2 ^ b) = b + 1 := by
  rw [width, if_neg (Nat.two_pow_pos b).ne', Nat.log_pow (by decide)]

/-- `BlockSizeLog2` -/
theorem shiftRight_bitWidth {b : ℕ} (hb : b < 64) (x : ℕ) : x >>> (bitWidth 8 (2 ^ b) - 1) = x / 2 ^ b := by
  rw [bitWidth_eq (Nat.pow_lt_pow_right (by decide) hb), width_two_pow, Nat.add_sub_cancel, Nat.shiftRight_eq_div_pow]

/-! ## `CeilToPow2` -/

/-- No smaller power of two will do. -/
theorem ceilToPow2_least {n x m k : ℕ} (hx : 0 < x) (hlt : x < 2 ^ (8 * n)) (h : ceilToPow2 n x = 2 ^ m) (hk : x ≤ 2 ^ k) :
    m ≤ k := by
  obtain ⟨d, y, hd, hsm, hres⟩ := exists_smeared n x
  rw [Word.sub_of_le hx hlt] at hsm
  obtain ⟨m', hm', rfl⟩ := hsm.eq_two_pow_sub_one (w := 8 * n) (by omega) hd
  rw [hres, Word.add, Nat.sub_add_cancel (Nat.two_pow_pos m')] at h
  have hmlt : m' < 8 * n := by
    refine Nat.lt_of_le_of_ne hm' ?_
    rintro rfl
    rw [Nat.mod_self] at h
    exact (Nat.two_pow_pos m).ne h
  rw [Nat.mod_eq_of_lt (Nat.pow_lt_pow_right (by decide) hmlt)] at h
  obtain rfl : m' = m := Nat.pow_right_injective le_rfl h
  by_contra hgt
  -- the highest bit of the smeared word comes from a bit of `x - 1` no lower
  have hbit : (2 ^ m' - 1).testBit (m' - 1) = true := by
    rw [Nat.testBit_two_pow_sub_one, decide_eq_true_iff]
    omega
  obtain ⟨e, -, he⟩ := (hsm (m' - 1)).mp hbit
  have hge := Nat.ge_two_pow_of_testBit he
  have hpow : 2 ^ k ≤ 2 ^ (m' - 1 + e) := Nat.pow_le_pow_right (by decide) (by omega)
  omega

/-- **The sizing helpers are exact.** -/
theorem sizing_exact :
    (∀ x, 1 ≤ x → x ≤ 2 ^ 63 → ∃ m, ceilToPow2 8 x = 2 ^ m ∧ x ≤ 2 ^ m ∧ ∀ k, x ≤ 2 ^ k → 2 ^ m ≤ 2 ^ k) ∧
    (∀ x < 2 ^ 64, bitWidth 8 x = if x = 0 then 0 else Nat.log 2 x + 1) ∧
    (∀ b < 64, ∀ x, x >>> (bitWidth 8 (2 ^ b) - 1) = x / 2 ^ b) ∧
    ∀ (α : Type) (cfg : Cfg) (inSize poolSize : ℕ) (allocs : List Bool), ∃ k, 1 ≤ k ∧
      (FastQueue.unindexed cfg inSize poolSize allocs : FastQueue α).indexEntriesSize = 2 ^ k ∧
      (SlowQueue.unindexed cfg inSize poolSize allocs : SlowQueue α).indexEntriesSize = 2 ^ k := by
  refine ⟨fun x hx hle => ?_, fun x hx => bitWidth_eq hx, fun b hb x => shiftRight_bitWidth hb x,
    fun α cfg inSize poolSize allocs => ?_⟩
  · obtain ⟨m, -, heq, hge⟩ := ceilToPow2_of_le (n := 8) (by decide) hx hle
    refine ⟨m, heq, hge, fun k hk => Nat.pow_le_pow_right (by decide) ?_⟩
    exact ceilToPow2_least hx (Nat.lt_of_le_of_lt hle (by norm_num)) heq hk
  · obtain ⟨k, -, heq⟩ := FastQueue.initialIndexSize_eq cfg inSize
    refine ⟨k, ?_, heq, heq⟩
    have htwo : 2 ^ 1 ≤ 2 ^ k := heq ▸ Nat.le_max_left ..
    exact (Nat.pow_le_pow_iff_right (by decide)).mp htwo

end LockFreeStructures
