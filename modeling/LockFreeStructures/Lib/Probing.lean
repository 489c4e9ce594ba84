import Mathlib.Data.Finset.Card
import Mathlib.Data.Nat.Find
import Mathlib.Tactic.Common

/-!
# `Lib.Probing` — linear probing without deletion

A table of `C` slots is probed from the slot a key hashes to on, round the end to the start. As slots are only
ever filled, a key that was put into the first free slot of its probe path stays reachable: `Placed` is kept by
whatever fills more slots.
-/

namespace LockFreeStructures

variable {K : Type*} {C h i : ℕ} {slots slots' : ℕ → Option K}

/-- The first slot from `index` on that the test stops at; `none` after `fuel` slots. -/
def probe (stop : ℕ → Bool) (C : ℕ) : ℕ → ℕ → Option ℕ
  | 0, _ => none
  | fuel + 1, index => if stop (index % C) then some (index % C) else probe stop C fuel (index % C + 1)

/-- The probe stops at the first slot of its path that it may stop at. -/
theorem probe_eq_some {stop : ℕ → Bool} {d fuel : ℕ} (hd : d < fuel) (hstop : stop ((h + d) % C) = true)
    (hpass : ∀ d' < d, stop ((h + d') % C) = false) : probe stop C fuel h = some ((h + d) % C) := by
  induction d generalizing h fuel with
  | zero =>
      obtain ⟨fuel, rfl⟩ := Nat.exists_eq_succ_of_ne_zero (Nat.ne_of_gt hd)
      rw [Nat.add_zero] at hstop ⊢
      rw [probe, if_pos hstop]
  | succ d ih =>
      obtain ⟨fuel, rfl⟩ := Nat.exists_eq_succ_of_ne_zero (Nat.ne_of_gt (Nat.zero_lt_of_lt hd))
      have hfirst : stop (h % C) = false := hpass 0 (Nat.succ_pos d)
      have hshift : ∀ d, (h % C + 1 + d) % C = (h + (d + 1)) % C := fun d => by
        rw [Nat.add_assoc, Nat.mod_add_mod, Nat.add_comm 1 d]
      rw [probe, if_neg (by rw [hfirst]; exact Bool.false_ne_true), ← hshift]
      refine ih (Nat.lt_of_succ_lt_succ hd) ?_ fun d' hd' => ?_
      · rw [hshift]
        exact hstop
      · rw [hshift]
        exact hpass (d' + 1) (Nat.succ_lt_succ hd')

/-- Every slot lies on every probe path. -/
theorem exists_probe_eq (hi : i < C) (h : ℕ) : ∃ d < C, (h + d) % C = i := by
  have hC : 0 < C := Nat.zero_lt_of_lt hi
  have hlt := Nat.mod_lt h hC
  refine ⟨(i + (C - h % C)) % C, Nat.mod_lt _ hC, ?_⟩
  rw [Nat.add_mod_mod, ← Nat.mod_add_mod, show h % C + (i + (C - h % C)) = i + C by omega, Nat.add_mod_right,
    Nat.mod_eq_of_lt hi]

/-- A table with a free slot has a first one on every probe path. -/
theorem exists_first_free (hfree : ∃ i < C, slots i = none) (h : ℕ) :
    ∃ d < C, slots ((h + d) % C) = none ∧ ∀ d' < d, slots ((h + d') % C) ≠ none := by
  classical
  have hex : ∃ d, d < C ∧ slots ((h + d) % C) = none := by
    obtain ⟨i, hi, hnone⟩ := hfree
    obtain ⟨d, hd, rfl⟩ := exists_probe_eq hi h
    exact ⟨d, hd, hnone⟩
  refine ⟨Nat.find hex, (Nat.find_spec hex).1, (Nat.find_spec hex).2, fun d' hd' hnone => ?_⟩
  exact Nat.find_min hex hd' ⟨Nat.lt_trans hd' (Nat.find_spec hex).1, hnone⟩

/-- A probe that has passed as many filled slots as there are has been everywhere. -/
theorem no_free_of_passed {d : ℕ} (hd : C ≤ d) (hpass : ∀ d' < d, slots ((h + d') % C) ≠ none) (hi : i < C) :
    slots i ≠ none := by
  obtain ⟨d', hd', rfl⟩ := exists_probe_eq hi h
  exact hpass d' (Nat.lt_of_lt_of_le hd' hd)

/-- Slot `i` is reached from `h` past filled slots only. -/
def Placed (C : ℕ) (slots : ℕ → Option K) (h i : ℕ) : Prop :=
  ∃ d < C, (h + d) % C = i ∧ ∀ d' < d, slots ((h + d') % C) ≠ none

/-- Filling slots keeps what is reachable. -/
theorem Placed.mono (hp : Placed C slots h i) (hfill : ∀ j < C, slots j ≠ none → slots' j ≠ none) :
    Placed C slots' h i := by
  obtain ⟨d, hd, hslot, hpass⟩ := hp
  exact ⟨d, hd, hslot, fun d' hd' => hfill _ (Nat.mod_lt _ (Nat.zero_lt_of_lt hd)) (hpass d' hd')⟩

/-- A key that is in the table is met before any free slot. -/
theorem Placed.not_free {k : K} {d : ℕ} (hp : Placed C slots h i) (hk : slots i = some k)
    (hfree : slots ((h + d) % C) = none) : ∃ d' < d, slots ((h + d') % C) = some k := by
  obtain ⟨e, -, rfl, hpass⟩ := hp
  rcases Nat.lt_trichotomy d e with hlt | rfl | hgt
  · exact absurd hfree (hpass d hlt)
  · rw [hfree] at hk
    exact absurd hk nofun
  · exact ⟨e, hgt, hk⟩

/-- Distinct keys in the slots, taken from fewer than `C`, leave a slot free. -/
theorem exists_free {A : Type*} (f : K → A) (s : Finset A)
    (hinj : ∀ i < C, ∀ j < C, ∀ k k', slots i = some k → slots j = some k' → f k = f k' → i = j)
    (hmem : ∀ i < C, ∀ k, slots i = some k → f k ∈ s) (hcard : s.card < C) : ∃ i < C, slots i = none := by
  classical
  by_contra hfull
  simp only [not_exists, not_and] at hfull
  have hget : ∀ i, i < C → ∃ k, slots i = some k := fun i hi => Option.ne_none_iff_exists'.mp (hfull i hi)
  have : Nonempty K := ⟨(hget 0 (Nat.zero_lt_of_lt hcard)).choose⟩
  choose! key hkey using hget
  have hle := Finset.card_le_card_of_injOn (s := Finset.range C) (t := s) (fun i => f (key i))
    (fun i hi => hmem i (Finset.mem_range.mp hi) _ (hkey i (Finset.mem_range.mp hi)))
    (fun i hi j hj heq => hinj i (Finset.mem_range.mp hi) j (Finset.mem_range.mp hj) _ _
      (hkey i (Finset.mem_range.mp hi)) (hkey j (Finset.mem_range.mp hj)) heq)
  rw [Finset.card_range] at hle
  omega

end LockFreeStructures
