import LockFreeStructures.Lib.Word

/-!
# `Common.Utility` — compile-time parameters, circular comparison, rounding to powers of two

`std::size_t` has `8 * sizeofSize` bits and every block `2 ^ blockSizeLog2` slots. Masks with a power of
two less one are written as remainders, shifts as divisions; `& ~( BlockSize - 1 )` is
`Word.alignDown`.
-/

namespace LockFreeStructures

/-- The parameters a queue is compiled with. `IsBlock` asks for a power of two above one. -/
structure Cfg where
  /-- `sizeof( std::size_t )` -/
  sizeofSize : ℕ
  /-- `BlockSizeLog2` -/
  blockSizeLog2 : ℕ
  one_le_blockSizeLog2 : 1 ≤ blockSizeLog2
  blockSizeLog2_lt : blockSizeLog2 < 8 * sizeofSize

namespace Cfg

variable (cfg : Cfg)

/-- The bits of `std::size_t`. -/
def w : ℕ := 8 * cfg.sizeofSize

/-- `BlockSize` -/
def blockSize : ℕ := 2 ^ cfg.blockSizeLog2

theorem blockSize_pos : 0 < cfg.blockSize := Nat.two_pow_pos _

theorem two_le_blockSize : 2 ≤ cfg.blockSize :=
  Nat.pow_le_pow_right (n := 2) (by decide) cfg.one_le_blockSizeLog2

theorem w_pos : 0 < cfg.w := Nat.lt_of_le_of_lt (Nat.zero_le _) cfg.blockSizeLog2_lt

theorem blockSizeLog2_le : cfg.blockSizeLog2 ≤ cfg.w := cfg.blockSizeLog2_lt.le

theorem blockSize_dvd_half : cfg.blockSize ∣ 2 ^ (cfg.w - 1) :=
  Nat.pow_dvd_pow 2 (Nat.le_sub_one_of_lt cfg.blockSizeLog2_lt)

theorem blockSize_dvd : cfg.blockSize ∣ 2 ^ cfg.w := Nat.pow_dvd_pow 2 cfg.blockSizeLog2_le

theorem half_add_half : 2 ^ (cfg.w - 1) + 2 ^ (cfg.w - 1) = 2 ^ cfg.w :=
  Word.two_pow_pred_add cfg.w_pos

end Cfg

/-! ## `CircularLessThan` -/

/-- `CircularLessThan( a, b )`: the word `a - b` lies in the upper half. -/
def circularLessThan (w a b : ℕ) : Bool := decide (2 ^ (w - 1) < Word.sub w a b)

/-- Words of unbounded counters no more than `2 ^ w` apart compare like the counters, as long as they are
    less than half the range apart. -/
theorem circularLessThan_mod {w a b : ℕ} (hab : a ≤ b) (h : b - a ≤ 2 ^ w) :
    circularLessThan w (a % 2 ^ w) (b % 2 ^ w) = true ↔ a < b ∧ 2 ^ (w - 1) < 2 ^ w - (b - a) := by
  rw [circularLessThan, decide_eq_true_iff]
  rcases Nat.lt_or_ge a b with hlt | hge
  · rw [Word.sub_mod_mod_of_lt hlt h]
    exact (and_iff_right hlt).symm
  · obtain rfl : a = b := Nat.le_antisymm hab hge
    rw [Word.sub_mod_mod (Nat.le_refl _) (by simp), Nat.sub_self]
    simp

/-- In particular the comparison is the counters' own when they are less than half the range apart. -/
theorem circularLessThan_mod_of_lt {w a b : ℕ} (hw : 0 < w) (hab : a ≤ b) (h : b - a < 2 ^ (w - 1)) :
    circularLessThan w (a % 2 ^ w) (b % 2 ^ w) = true ↔ a < b := by
  have hhalf := Word.two_pow_pred_add hw
  rw [circularLessThan_mod hab (by omega), and_iff_left_of_imp]
  intro _
  omega

/-- A later counter is never below an earlier one less than half the range behind. -/
theorem circularLessThan_mod_of_ge {w a b : ℕ} (hba : b ≤ a) (h : a - b ≤ 2 ^ (w - 1)) (hw : 0 < w) :
    circularLessThan w (a % 2 ^ w) (b % 2 ^ w) = false := by
  have hhalf := Word.two_pow_pred_add hw
  rw [circularLessThan, decide_eq_false_iff_not, Word.sub_mod_mod hba (by have := Word.two_pow_pos (w := w); omega)]
  omega

/-! ## `CeilToPow2` -/

/-- `CeilToPow2( X )`: `X - 1` with every bit below its highest one set, plus one. -/
def ceilToPow2 (sizeofSize x : ℕ) : ℕ :=
  let x := Word.sub (8 * sizeofSize) x 1
  let x := x ||| x >>> 1
  let x := x ||| x >>> 2
  let x := x ||| x >>> 4
  let x := (List.range' 1 (sizeofSize - 1)).foldl (fun x i => x ||| x >>> (i <<< 3)) x
  Word.add (8 * sizeofSize) x 1

/-- `y` is `x` with every bit copied down to the `d` places below it. -/
def Smeared (d x y : ℕ) : Prop := ∀ j, y.testBit j = true ↔ ∃ e ≤ d, x.testBit (j + e) = true

namespace Smeared

variable {d x y : ℕ}

theorem refl (x : ℕ) : Smeared 0 x x := fun j => by simp

/-- Shifting by at most one more than what is covered leaves no gap. -/
theorem step {s : ℕ} (h : Smeared d x y) (hs : s ≤ d + 1) : Smeared (d + s) x (y ||| y >>> s) := by
  intro j
  rw [Nat.testBit_or, Nat.testBit_shiftRight, Bool.or_eq_true, h, h]
  constructor
  · rintro (⟨e, he, hx⟩ | ⟨e, he, hx⟩)
    · exact ⟨e, by omega, hx⟩
    · exact ⟨s + e, by omega, by rwa [show j + (s + e) = s + j + e by omega]⟩
  · rintro ⟨e, he, hx⟩
    rcases Nat.lt_or_ge d e with hde | hde
    · exact Or.inr ⟨e - s, by omega, by rwa [show s + j + (e - s) = j + e by omega]⟩
    · exact Or.inl ⟨e, hde, hx⟩

/-- The byte-sized shifts of the loop: after the one by `8 * n` bytes, `8 * n + 7` places are covered. -/
theorem foldl (h : Smeared 7 x y) (n : ℕ) :
    ∃ d, 8 * n + 7 ≤ d ∧
      Smeared d x ((List.range' 1 n).foldl (fun x i => x ||| x >>> (i <<< 3)) y) := by
  induction n with
  | zero => exact ⟨7, by omega, h⟩
  | succ n ih =>
      obtain ⟨d, hd, ih⟩ := ih
      rw [List.range'_1_concat, List.foldl_append]
      refine ⟨d + (1 + n) <<< 3, ?_, ih.step ?_⟩ <;> rw [Nat.shiftLeft_eq] <;> omega

/-- A word smeared over its whole width is one less than a power of two. -/
theorem eq_two_pow_sub_one {w : ℕ} (h : Smeared d x y) (hx : x < 2 ^ w) (hd : w ≤ d + 1) :
    ∃ m ≤ w, y = 2 ^ m - 1 := by
  rcases Nat.eq_zero_or_pos x with rfl | hx0
  · refine ⟨0, Nat.zero_le _, Nat.eq_of_testBit_eq fun j => ?_⟩
    have hj := h j
    simp at hj
    simp [hj]
  · have hlog : x.log2 < w := (Nat.log2_lt hx0.ne').mpr hx
    refine ⟨x.log2 + 1, hlog, Nat.eq_of_testBit_eq fun j => ?_⟩
    rw [Nat.testBit_two_pow_sub_one, Bool.eq_iff_iff, h j, decide_eq_true_iff]
    constructor
    · rintro ⟨e, -, hbit⟩
      have hge := Nat.ge_two_pow_of_testBit hbit
      have := (Nat.le_log2 hx0.ne').mpr hge
      omega
    · intro hj
      exact ⟨x.log2 - j, by omega, by
        rw [Nat.add_sub_cancel' (by omega)]
        exact Nat.testBit_log2 hx0.ne'⟩

/-- Every bit of `x` is one of the smeared word's. -/
theorem lt_two_pow {m : ℕ} (h : Smeared d x (2 ^ m - 1)) : x < 2 ^ m := by
  refine Nat.lt_pow_two_of_testBit _ fun i hi => ?_
  rw [Bool.eq_false_iff]
  intro hbit
  have := (h i).mpr ⟨0, Nat.zero_le _, hbit⟩
  rw [Nat.testBit_two_pow_sub_one, decide_eq_true_iff] at this
  omega

end Smeared

/-- What `CeilToPow2` adds one to. -/
theorem exists_smeared (n x : ℕ) :
    ∃ d y, 8 * n ≤ d + 1 ∧ Smeared d (Word.sub (8 * n) x 1) y ∧ ceilToPow2 n x = Word.add (8 * n) y 1 := by
  have h7 := (((Smeared.refl (Word.sub (8 * n) x 1)).step (s := 1) (by omega)).step
    (s := 2) (by omega)).step (s := 4) (by omega)
  obtain ⟨d, hd, hsm⟩ := h7.foldl (n - 1)
  exact ⟨d, _, by omega, hsm, rfl⟩

/-- `CeilToPow2` yields a power of two, or zero where the power does not fit the word. -/
theorem ceilToPow2_eq (n x : ℕ) :
    ceilToPow2 n x = 0 ∨ ∃ m < 8 * n, ceilToPow2 n x = 2 ^ m := by
  obtain ⟨d, y, hd, hsm, hres⟩ := exists_smeared n x
  obtain ⟨m, hm, rfl⟩ := hsm.eq_two_pow_sub_one (w := 8 * n) (Nat.mod_lt _ Word.two_pow_pos) hd
  rw [Word.add, Nat.sub_add_cancel (Nat.two_pow_pos m)] at hres
  rcases Nat.lt_or_ge m (8 * n) with hlt | hge
  · exact Or.inr ⟨m, hlt, by rw [hres, Nat.mod_eq_of_lt (Nat.pow_lt_pow_right (by decide) hlt)]⟩
  · left
    rw [hres, Nat.le_antisymm hm hge, Nat.mod_self]

/-- The power is the next one up, as long as that fits the word. -/
theorem ceilToPow2_of_le {n x : ℕ} (hn : 0 < n) (hx : 0 < x) (hle : x ≤ 2 ^ (8 * n - 1)) :
    ∃ m < 8 * n, ceilToPow2 n x = 2 ^ m ∧ x ≤ 2 ^ m := by
  have hhalf := Word.two_pow_pred_add (w := 8 * n) (by omega)
  obtain ⟨d, y, hd, hsm, hres⟩ := exists_smeared n x
  rw [Word.sub_of_le hx (by omega)] at hsm
  obtain ⟨m, hm, rfl⟩ := hsm.eq_two_pow_sub_one (w := 8 * n) (by omega) hd
  have hge : x - 1 < 2 ^ m := hsm.lt_two_pow
  have hlt : 2 ^ m - 1 < 2 ^ (8 * n - 1) := by
    refine Nat.lt_pow_two_of_testBit _ fun i hi => ?_
    rw [Bool.eq_false_iff]
    intro hbit
    obtain ⟨e, -, he⟩ := (hsm i).mp hbit
    have := Nat.ge_two_pow_of_testBit he
    have := Nat.pow_le_pow_right (n := 2) (by decide) (show 8 * n - 1 ≤ i + e by omega)
    omega
  have hm' : m < 8 * n := by
    by_contra hge'
    have := Nat.pow_le_pow_right (n := 2) (by decide) (Nat.le_of_not_lt hge')
    omega
  refine ⟨m, hm', ?_, by omega⟩
  rw [hres, Word.add, Nat.sub_add_cancel (Nat.two_pow_pos m), Nat.mod_eq_of_lt (Nat.pow_lt_pow_right (by decide) hm')]

/-- Above the highest power that fits there is only the overflow. -/
theorem ceilToPow2_of_gt {n x : ℕ} (hlt : 2 ^ (8 * n - 1) < x) (hle : x < 2 ^ (8 * n)) : ceilToPow2 n x = 0 := by
  obtain ⟨d, y, hd, hsm, hres⟩ := exists_smeared n x
  rw [Word.sub_of_le (Nat.one_le_of_lt hlt) hle] at hsm
  obtain ⟨m, hm, rfl⟩ := hsm.eq_two_pow_sub_one (w := 8 * n) (by omega) hd
  have hge : x - 1 < 2 ^ m := hsm.lt_two_pow
  have hm' : m = 8 * n := by
    refine Nat.le_antisymm hm ?_
    by_contra hlt'
    have := Nat.pow_le_pow_right (n := 2) (by decide) (show m ≤ 8 * n - 1 by omega)
    omega
  rw [hres, Word.add, Nat.sub_add_cancel (Nat.two_pow_pos m), hm', Nat.mod_self]

theorem ceilToPow2_one {n : ℕ} (hn : 0 < n) : ceilToPow2 n 1 = 1 := by
  have hone : (1 : ℕ) < 2 ^ (8 * n) := Nat.one_lt_two_pow (by omega)
  obtain ⟨d, y, -, hsm, hres⟩ := exists_smeared n 1
  rw [Word.sub_of_le le_rfl hone] at hsm
  have hy : y = 0 := Nat.eq_of_testBit_eq fun i => by
    rw [Nat.zero_testBit, Bool.eq_false_iff]
    intro hbit
    obtain ⟨e, -, he⟩ := (hsm i).mp hbit
    rw [Nat.sub_self, Nat.zero_testBit] at he
    exact Bool.false_ne_true he
  rw [hres, hy, Word.add_of_lt (by omega)]

end LockFreeStructures
