import Mathlib.Tactic

/-!
# `Lib.Word` — unsigned machine words and circular slots

Words of `w` bits are natural numbers below `2 ^ w`; the operations wrap. An unbounded counter `n` is
held in a word as `n % 2 ^ w`, and `Word.sub_eq_of_modEq` reads differences of such words back as
differences of the counters. `slotBack` names the slot `d` places behind a position of a circular
array without any division, so that facts about circular windows are linear arithmetic;
`sub_mod_eq_slotBack` and `add_mod_eq_slotBack` connect it to the masked word arithmetic that
programs use.
-/

namespace LockFreeStructures

namespace Word

/-- Addition of `w`-bit words. -/
def add (w a b : ℕ) : ℕ := (a + b) % 2 ^ w

/-- Subtraction of `w`-bit words. -/
def sub (w a b : ℕ) : ℕ := (a + (2 ^ w - b % 2 ^ w)) % 2 ^ w

/-- The two's complement reading of a `w`-bit word. -/
def toInt (w a : ℕ) : ℤ := if a < 2 ^ (w - 1) then a else (a : ℤ) - 2 ^ w

/-- The `w`-bit word of an integer. -/
def ofInt (w : ℕ) (z : ℤ) : ℕ := (z % 2 ^ w).toNat

/-- The arithmetic right shift of a word read as a signed number: division rounding down. -/
def sar (w a k : ℕ) : ℕ := ofInt w (toInt w a / 2 ^ k)

/-- The low `b` bits of a word cleared. -/
def alignDown (b a : ℕ) : ℕ := a - a % 2 ^ b

variable {w a b c : ℕ}

theorem two_pow_pos : 0 < 2 ^ w := Nat.two_pow_pos w

theorem two_pow_pred_add (hw : 0 < w) : 2 ^ (w - 1) + 2 ^ (w - 1) = 2 ^ w := by
  obtain ⟨v, rfl⟩ := Nat.exists_eq_succ_of_ne_zero hw.ne'
  rw [Nat.succ_sub_one, Nat.pow_succ]
  omega

theorem add_of_lt (h : a + b < 2 ^ w) : add w a b = a + b := Nat.mod_eq_of_lt h

@[simp] theorem add_mod_left : add w (a % 2 ^ w) b = (a + b) % 2 ^ w := by
  rw [add, Nat.mod_add_mod]

/-- The difference of two words is the one word that leads from the second to the first. -/
theorem sub_eq_of_modEq (h : (b + c) % 2 ^ w = a % 2 ^ w) (hc : c < 2 ^ w) : sub w a b = c := by
  have hlt : b % 2 ^ w < 2 ^ w := Nat.mod_lt _ two_pow_pos
  have hdm : 2 ^ w * (b / 2 ^ w) + b % 2 ^ w = b := Nat.div_add_mod b (2 ^ w)
  rw [sub, Nat.add_mod, ← h, ← Nat.add_mod,
    show b + c + (2 ^ w - b % 2 ^ w) = c + 2 ^ w * (b / 2 ^ w + 1) by rw [Nat.mul_add]; omega,
    Nat.add_mul_mod_self_left, Nat.mod_eq_of_lt hc]

/-- Words of unbounded counters: the later minus the earlier. -/
theorem sub_mod_mod (hba : b ≤ a) (h : a - b < 2 ^ w) :
    sub w (a % 2 ^ w) (b % 2 ^ w) = a - b := by
  refine sub_eq_of_modEq ?_ h
  rw [Nat.mod_add_mod, Nat.mod_mod, Nat.add_sub_cancel' hba]

/-- Words of unbounded counters: the earlier minus the later. -/
theorem sub_mod_mod_of_lt (hab : a < b) (h : b - a ≤ 2 ^ w) :
    sub w (a % 2 ^ w) (b % 2 ^ w) = 2 ^ w - (b - a) := by
  refine sub_eq_of_modEq ?_ (by omega)
  rw [Nat.mod_add_mod, Nat.mod_mod, show b + (2 ^ w - (b - a)) = a + 2 ^ w by omega,
    Nat.add_mod_right]

theorem sub_of_le (hba : b ≤ a) (ha : a < 2 ^ w) : sub w a b = a - b :=
  sub_eq_of_modEq (by rw [Nat.add_sub_cancel' hba]) (by omega)

theorem sub_of_lt (hab : a < b) (hb : b < 2 ^ w) : sub w a b = a + 2 ^ w - b :=
  sub_eq_of_modEq (by rw [show b + (a + 2 ^ w - b) = a + 2 ^ w by omega, Nat.add_mod_right]) (by omega)

@[simp] theorem sub_zero : sub w (a % 2 ^ w) 0 = a % 2 ^ w :=
  sub_eq_of_modEq (by rw [Nat.zero_add]) (Nat.mod_lt _ two_pow_pos)

/-- A non-negative signed word shifts like an unsigned one. -/
theorem sar_of_lt {k : ℕ} (ha : a < 2 ^ (w - 1)) : sar w a k = a / 2 ^ k := by
  have hle : (2 : ℕ) ^ (w - 1) ≤ 2 ^ w := Nat.pow_le_pow_right (by decide) (Nat.sub_le _ _)
  have hlt : a / 2 ^ k < 2 ^ w := lt_of_le_of_lt (Nat.div_le_self _ _) (by omega)
  rw [sar, toInt, if_pos ha, ofInt]
  have : ((a : ℤ) / 2 ^ k) % 2 ^ w = ((a / 2 ^ k : ℕ) : ℤ) := by
    rw [Int.emod_eq_of_lt (by positivity) (by exact_mod_cast hlt)]
    push_cast
    rfl
  rw [this, Int.toNat_natCast]

/-- A negative signed word shifts to the unsigned quotient, `2 ^ (w - k)` too low. -/
theorem sar_of_ge {k : ℕ} (hk : k ≤ w) (ha : 2 ^ (w - 1) ≤ a) (haw : a < 2 ^ w) :
    sar w a k = a / 2 ^ k + 2 ^ w - 2 ^ (w - k) := by
  have hsplit : 2 ^ w = 2 ^ (w - k) * 2 ^ k := by rw [← Nat.pow_add, Nat.sub_add_cancel hk]
  have hq : a / 2 ^ k < 2 ^ (w - k) := by
    rw [Nat.div_lt_iff_lt_mul (by positivity), ← hsplit]
    exact haw
  have hle : 2 ^ (w - k) ≤ 2 ^ w := Nat.pow_le_pow_right (by decide) (Nat.sub_le _ _)
  have hge : 2 ^ (w - k) ≤ a / 2 ^ k + 2 ^ w := le_trans hle (Nat.le_add_left _ _)
  have hdiv : ((a : ℤ) - 2 ^ w) / 2 ^ k = (a / 2 ^ k : ℕ) - 2 ^ (w - k) := by
    have hz : ((2 : ℤ) ^ w) = 2 ^ (w - k) * 2 ^ k := by exact_mod_cast hsplit
    rw [hz, sub_eq_add_neg, ← neg_mul, Int.add_mul_ediv_right _ _ (by positivity)]
    push_cast
    ring
  rw [sar, toInt, if_neg (by omega), hdiv, ofInt, ← Int.add_emod_right]
  have hcast : ((a / 2 ^ k : ℕ) : ℤ) - 2 ^ (w - k) + 2 ^ w
      = ((a / 2 ^ k + 2 ^ w - 2 ^ (w - k) : ℕ) : ℤ) := by
    rw [Nat.cast_sub hge]
    push_cast
    ring
  have hbound : a / 2 ^ k + 2 ^ w - 2 ^ (w - k) < 2 ^ w := by omega
  rw [hcast, Int.emod_eq_of_lt (by positivity) (by exact_mod_cast hbound), Int.toNat_natCast]

/-- What is subtracted can be added again. -/
theorem sub_add_modEq (w a b : ℕ) : sub w a b + b ≡ a [MOD 2 ^ w] := by
  have hlt : b % 2 ^ w < 2 ^ w := Nat.mod_lt _ two_pow_pos
  calc sub w a b + b ≡ a + (2 ^ w - b % 2 ^ w) + b % 2 ^ w [MOD 2 ^ w] :=
        (Nat.mod_modEq _ _).add (Nat.mod_modEq _ _).symm
    _ = a + 2 ^ w := by omega
    _ ≡ a [MOD 2 ^ w] := Nat.add_mod_right _ _

/-- The signed shift is the unsigned one up to the bits shifted in. -/
theorem sar_modEq {k : ℕ} (hk : k ≤ w) (haw : a < 2 ^ w) : sar w a k ≡ a / 2 ^ k [MOD 2 ^ (w - k)] := by
  rcases Nat.lt_or_ge a (2 ^ (w - 1)) with hlt | hge
  · rw [sar_of_lt hlt]
  · have hdvd : 2 ^ (w - k) ∣ 2 ^ w := Nat.pow_dvd_pow 2 (Nat.sub_le _ _)
    rw [sar_of_ge hk hge haw, Nat.add_sub_assoc (Nat.le_of_dvd two_pow_pos hdvd)]
    obtain ⟨j, hj⟩ := Nat.dvd_sub hdvd (Nat.dvd_refl _)
    rw [hj]
    exact Nat.add_mul_mod_self_left _ _ _

theorem alignDown_eq : alignDown b a = a / 2 ^ b * 2 ^ b := by
  have := Nat.div_add_mod a (2 ^ b)
  rw [Nat.mul_comm] at this
  rw [alignDown]
  omega

/-- Alignment commutes with wrapping. -/
theorem alignDown_mod (hb : b ≤ w) : alignDown b (a % 2 ^ w) = (a / 2 ^ b * 2 ^ b) % 2 ^ w := by
  have hdvd : 2 ^ b ∣ 2 ^ w := Nat.pow_dvd_pow 2 hb
  have hmod : a % 2 ^ w % 2 ^ b = a % 2 ^ b := Nat.mod_mod_of_dvd _ hdvd
  have hlt : a % 2 ^ w < 2 ^ w := Nat.mod_lt _ two_pow_pos
  have hle : a % 2 ^ b ≤ a % 2 ^ w := hmod ▸ Nat.mod_le _ _
  have h1 : a / 2 ^ b * 2 ^ b + a % 2 ^ b = a := by rw [Nat.mul_comm]; exact Nat.div_add_mod _ _
  have h2 : 2 ^ w * (a / 2 ^ w) + a % 2 ^ w = a := Nat.div_add_mod _ _
  have hlow : a / 2 ^ b * 2 ^ b = (a % 2 ^ w - a % 2 ^ b) + 2 ^ w * (a / 2 ^ w) := by omega
  have hword : a % 2 ^ w - a % 2 ^ b < 2 ^ w := by omega
  rw [alignDown, hmod, hlow, Nat.add_mul_mod_self_left, Nat.mod_eq_of_lt hword]

/-- The low bits survive wrapping. -/
theorem mod_mod_two_pow (hb : b ≤ w) : a % 2 ^ w % 2 ^ b = a % 2 ^ b :=
  Nat.mod_mod_of_dvd _ (Nat.pow_dvd_pow 2 hb)

end Word

/-! ## Slots of a circular array -/

/-- The slot `d` places behind position `n` of a circular array of `S` slots (`n < S`, `d ≤ S`). -/
def slotBack (S n d : ℕ) : ℕ := if d ≤ n then n - d else n + S - d

section Slots

variable {S n d e : ℕ}

theorem slotBack_lt (hn : n < S) (hd : d ≤ S) : slotBack S n d < S := by
  unfold slotBack
  split <;> omega

@[simp] theorem slotBack_zero : slotBack S n 0 = n := by simp [slotBack]

theorem succ_mod (hn : n < S) : (n + 1) % S = if n + 1 = S then 0 else n + 1 := by
  split
  · next h => rw [h, Nat.mod_self]
  · exact Nat.mod_eq_of_lt (by omega)

theorem slotBack_succ (hn : n < S) (hd : d < S) :
    slotBack S ((n + 1) % S) (d + 1) = slotBack S n d := by
  rw [succ_mod hn]
  unfold slotBack
  split <;> split <;> split <;> omega

theorem slotBack_one_succ (hn : n < S) : slotBack S ((n + 1) % S) 1 = n := by
  simpa using slotBack_succ (d := 0) hn (by omega)

theorem slotBack_slotBack (hde : d + e ≤ S) :
    slotBack S (slotBack S n d) e = slotBack S n (d + e) := by
  unfold slotBack
  split <;> split <;> split <;> omega

/-- Only a whole turn leads back to the position itself. -/
theorem slotBack_ne (hd : 0 < d) (hdS : d < S) : slotBack S n d ≠ n := by
  unfold slotBack
  split <;> omega

/-- A whole number of turns and `S - d` more steps lead `d` slots back. -/
theorem add_turns_mod {m : ℕ} (hn : n < S) (hd : d ≤ S) :
    (n + (S * m + S - d)) % S = slotBack S n d := by
  rw [show n + (S * m + S - d) = n + S - d + S * m by omega, Nat.add_mul_mod_self_left]
  unfold slotBack
  split
  · next h =>
    rw [show n + S - d = n - d + S by omega, Nat.add_mod_right, Nat.mod_eq_of_lt (by omega)]
  · exact Nat.mod_eq_of_lt (by omega)

/-- Masked word subtraction steps backwards through the slots. -/
theorem sub_mod_eq_slotBack {w : ℕ} (hS : S ∣ 2 ^ w) (hn : n < S) (hd : d ≤ S) :
    Word.sub w n d % S = slotBack S n d := by
  obtain ⟨m, hm⟩ := hS
  have hm0 : 0 < m := Nat.pos_of_ne_zero (by rintro rfl; simp at hm)
  obtain ⟨m', rfl⟩ := Nat.exists_eq_succ_of_ne_zero hm0.ne'
  rw [Nat.mul_succ] at hm
  rw [Word.sub, Nat.mod_mod_of_dvd _ ⟨m' + 1, by rw [Nat.mul_succ]; exact hm⟩]
  rcases Nat.lt_or_ge d (2 ^ w) with hdw | hdw
  · rw [Nat.mod_eq_of_lt hdw, show n + (2 ^ w - d) = n + (S * m' + S - d) by omega,
      add_turns_mod hn hd]
  · have hd' : d = 2 ^ w := by omega
    have hdS : d = S := by omega
    rw [hd', Nat.mod_self, ← hd', hdS, Nat.sub_zero, Nat.add_mod_right, Nat.mod_eq_of_lt hn]
    unfold slotBack
    split <;> omega

/-- **Lookup.** The slot reached from `n` by a block distance computed in words: the base of block `k`
    minus the base of a later block `k + d`, shifted, lands `d` slots behind `n`. -/
theorem add_mod_eq_slotBack {w b k : ℕ} (hS : S * 2 ^ b ∣ 2 ^ w) (hn : n < S) (hd : d < S) :
    (n + Word.sub w (k * 2 ^ b % 2 ^ w) ((k + d) * 2 ^ b % 2 ^ w) / 2 ^ b) % S = slotBack S n d := by
  have hbpos : 0 < 2 ^ b := by positivity
  obtain ⟨m, hm⟩ := hS
  have hadd : (k + d) * 2 ^ b = k * 2 ^ b + d * 2 ^ b := Nat.add_mul _ _ _
  rcases Nat.eq_zero_or_pos d with rfl | hd0
  · rw [Nat.add_zero, Word.sub_mod_mod (Nat.le_refl _) (by simp), Nat.sub_self, Nat.zero_div,
      Nat.add_zero, Nat.mod_eq_of_lt hn, slotBack_zero]
  · have hm0 : 0 < m := Nat.pos_of_ne_zero (by rintro rfl; simp at hm)
    obtain ⟨m', rfl⟩ := Nat.exists_eq_succ_of_ne_zero hm0.ne'
    have hw : 2 ^ w = S * m' * 2 ^ b + S * 2 ^ b := by rw [hm, Nat.succ_eq_add_one]; ring
    have hdS : d * 2 ^ b < S * 2 ^ b := Nat.mul_lt_mul_of_pos_right hd hbpos
    have hdpos : 0 < d * 2 ^ b := Nat.mul_pos hd0 hbpos
    have hdist : 2 ^ w - (d * 2 ^ b) = (S * m' + S - d) * 2 ^ b := by
      rw [Nat.sub_mul, Nat.add_mul]
      omega
    rw [Word.sub_mod_mod_of_lt (by omega) (by omega), hadd, Nat.add_sub_cancel_left, hdist,
      Nat.mul_div_cancel _ hbpos, add_turns_mod hn hd.le]

/-- **Lookup, either way.** From the slot of block number `m` the block distance computed in words leads to the
    slot of block number `k`, be that the earlier or the later one. -/
theorem add_sub_div_modEq {w b k m c : ℕ} (hS : S * 2 ^ b ∣ 2 ^ w) (hb : b ≤ w) (hn : n ≡ c + m [MOD S]) :
    n + Word.sub w (k * 2 ^ b % 2 ^ w) (m * 2 ^ b % 2 ^ w) / 2 ^ b ≡ c + k [MOD S] := by
  have hbpos : 0 < 2 ^ b := Nat.two_pow_pos b
  have hsplit : 2 ^ w = 2 ^ (w - b) * 2 ^ b := by rw [← Nat.pow_add, Nat.sub_add_cancel hb]
  have hdvd : S ∣ 2 ^ (w - b) := by
    rw [hsplit] at hS
    exact Nat.dvd_of_mul_dvd_mul_right hbpos hS
  have hm := Nat.mod_lt m (Nat.two_pow_pos (w - b))
  have hsub : Word.sub w (k * 2 ^ b % 2 ^ w) (m * 2 ^ b % 2 ^ w) / 2 ^ b =
      (k % 2 ^ (w - b) + (2 ^ (w - b) - m % 2 ^ (w - b))) % 2 ^ (w - b) := by
    rw [Word.sub, Nat.mod_mod, hsplit, Nat.mul_mod_mul_right, Nat.mul_mod_mul_right, ← Nat.sub_mul, ← Nat.add_mul,
      Nat.mul_mod_mul_right, Nat.mul_div_cancel _ hbpos]
  have hback : m + (k % 2 ^ (w - b) + (2 ^ (w - b) - m % 2 ^ (w - b))) % 2 ^ (w - b) ≡ k [MOD 2 ^ (w - b)] := by
    calc m + (k % 2 ^ (w - b) + (2 ^ (w - b) - m % 2 ^ (w - b))) % 2 ^ (w - b)
        ≡ m % 2 ^ (w - b) + (k % 2 ^ (w - b) + (2 ^ (w - b) - m % 2 ^ (w - b))) [MOD 2 ^ (w - b)] :=
          (Nat.mod_modEq m _).symm.add (Nat.mod_modEq _ _)
      _ = k % 2 ^ (w - b) + 2 ^ (w - b) := by omega
      _ ≡ k [MOD 2 ^ (w - b)] := (Nat.add_mod_right _ _).trans (Nat.mod_mod _ _)
  rw [hsub]
  exact (hn.add_right _).trans (by rw [Nat.add_assoc]; exact (hback.of_dvd hdvd).add_left c)

end Slots

end LockFreeStructures
