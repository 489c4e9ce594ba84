import Mathlib.Data.Finset.Max
import Mathlib.Order.Interval.Finset.Nat

/-!
# `Lib.Tally` — how often a sequence has a value below a bound

A sequence `f : ℕ → β` that is written in runs of consecutive places, and the number of places below `n` at which
it has the value `x`.
-/

namespace LockFreeStructures

variable {β : Type*}

/-- `n` places from `a` on are given the value `x`. -/
def fill (f : ℕ → β) (a n : ℕ) (x : β) : ℕ → β := fun i => if a ≤ i ∧ i < a + n then x else f i

variable {f g : ℕ → β} {a n k : ℕ} {x y : β}

theorem fill_of_mem {i : ℕ} (h : a ≤ i ∧ i < a + n) : fill f a n x i = x := if_pos h

theorem fill_of_notMem {i : ℕ} (h : ¬ (a ≤ i ∧ i < a + n)) : fill f a n x i = f i := if_neg h

variable [DecidableEq β]

def tally (f : ℕ → β) (x : β) (n : ℕ) : ℕ := ((Finset.range n).filter fun i => f i = x).card

@[simp] theorem tally_zero (f : ℕ → β) (x : β) : tally f x 0 = 0 := rfl

theorem tally_mono (h : ∀ i < n, f i = x → g i = x) : tally f x n ≤ tally g x n := by
  unfold tally
  apply Finset.card_le_card
  intro i hi
  rw [Finset.mem_filter, Finset.mem_range] at hi ⊢
  exact ⟨hi.1, h i hi.1 hi.2⟩

theorem tally_le_of_le (f : ℕ → β) (x : β) (h : n ≤ k) : tally f x n ≤ tally f x k := by
  unfold tally
  apply Finset.card_le_card
  apply Finset.filter_subset_filter
  exact Finset.range_mono h

theorem tally_congr (h : ∀ i < n, f i = x ↔ g i = x) : tally f x n = tally g x n :=
  Nat.le_antisymm (tally_mono fun i hi => (h i hi).mp) (tally_mono fun i hi => (h i hi).mpr)

/-- Places that did not have the value get it. -/
theorem tally_fill_self (hk : a + n ≤ k) (hne : ∀ i, a ≤ i → i < a + n → f i ≠ x) :
    tally (fill f a n x) x k = tally f x k + n := by
  unfold tally
  have hunion : (Finset.range k).filter (fun i => fill f a n x i = x) =
      (Finset.range k).filter (fun i => f i = x) ∪ Finset.Ico a (a + n) := by
    ext i
    simp only [Finset.mem_filter, Finset.mem_range, Finset.mem_union, Finset.mem_Ico]
    by_cases hi : a ≤ i ∧ i < a + n
    · rw [fill_of_mem hi]
      exact iff_of_true ⟨by omega, rfl⟩ (Or.inr hi)
    · rw [fill_of_notMem hi, or_iff_left hi]
  have hdisjoint : Disjoint ((Finset.range k).filter fun i => f i = x) (Finset.Ico a (a + n)) := by
    rw [Finset.disjoint_left]
    intro i hi hmem
    rw [Finset.mem_Ico] at hmem
    exact hne i hmem.1 hmem.2 (Finset.mem_filter.mp hi).2
  rw [hunion, Finset.card_union_of_disjoint hdisjoint, Nat.card_Ico, Nat.add_sub_cancel_left]

/-- Places that did not have the value `y` get another one. -/
theorem tally_fill_of_ne (hxy : x ≠ y) (hne : ∀ i, a ≤ i → i < a + n → f i ≠ y) :
    tally (fill f a n x) y k = tally f y k := by
  apply tally_congr
  intro i _
  by_cases hi : a ≤ i ∧ i < a + n
  · rw [fill_of_mem hi]
    exact iff_of_false hxy (hne i hi.1 hi.2)
  · rw [fill_of_notMem hi]

/-- The places behind the first `a` get another value. -/
theorem tally_fill_append (f : ℕ → β) (a n : ℕ) (hxy : x ≠ y) : tally (fill f a n x) y (a + n) = tally f y a := by
  unfold tally
  congr 1
  ext i
  simp only [Finset.mem_filter, Finset.mem_range]
  by_cases hi : a ≤ i ∧ i < a + n
  · rw [fill_of_mem hi]
    exact iff_of_false (fun h => hxy h.2) fun h => by omega
  · rw [fill_of_notMem hi]
    constructor
    · intro h
      exact ⟨by omega, h.2⟩
    · intro h
      exact ⟨by omega, h.2⟩

theorem tally_fill_below (h : k ≤ a) : tally (fill f a n x) y k = tally f y k := by
  apply tally_congr
  intro i hi
  rw [fill_of_notMem fun hmem => by omega]

/-- Two values are not at one place. -/
theorem tally_add_tally_le (f : ℕ → β) (hxy : x ≠ y) (n : ℕ) : tally f x n + tally f y n ≤ n := by
  unfold tally
  have hdisjoint : Disjoint ((Finset.range n).filter fun i => f i = x) ((Finset.range n).filter fun i => f i = y) := by
    rw [Finset.disjoint_left]
    intro i hi hi'
    exact hxy ((Finset.mem_filter.mp hi).2.symm.trans (Finset.mem_filter.mp hi').2)
  rw [← Finset.card_union_of_disjoint hdisjoint]
  refine (Finset.card_le_card ?_).trans_eq (Finset.card_range n)
  exact Finset.union_subset (Finset.filter_subset _ _) (Finset.filter_subset _ _)

/-- Where only two values occur they make up for all places. -/
theorem tally_add_tally (h : ∀ i < n, f i = x ∨ f i = y) (hxy : x ≠ y) : tally f x n + tally f y n = n := by
  refine Nat.le_antisymm (tally_add_tally_le f hxy n) ?_
  unfold tally
  rw [← Finset.card_union_add_card_inter]
  refine (Nat.le_of_eq (Finset.card_range n).symm).trans ((Finset.card_le_card ?_).trans (Nat.le_add_right _ _))
  intro i hi
  rw [Finset.mem_range] at hi
  simp only [Finset.mem_union, Finset.mem_filter, Finset.mem_range]
  exact (h i hi).imp (fun hx => ⟨hi, hx⟩) fun hy => ⟨hi, hy⟩

/-- The last place with the value has all of them up to it. -/
theorem exists_last (h : 0 < tally f x n) : ∃ i < n, f i = x ∧ tally f x n = tally f x (i + 1) := by
  unfold tally at h
  obtain ⟨i, hi, hlast⟩ := Finset.exists_max_image _ id (Finset.card_pos.mp h)
  rw [Finset.mem_filter, Finset.mem_range] at hi
  refine ⟨i, hi.1, hi.2, Nat.le_antisymm ?_ (tally_le_of_le f x hi.1)⟩
  unfold tally
  apply Finset.card_le_card
  intro j hj
  have hle : j ≤ i := hlast j hj
  rw [Finset.mem_filter, Finset.mem_range] at hj ⊢
  exact ⟨Nat.lt_succ_of_le hle, hj.2⟩

end LockFreeStructures
