import Mathlib.Data.List.Basic
import Mathlib.Tactic.Common

/-!
# `Lib.CircularBuffer` — circular buffers that leave one slot free

`Spans size front tail n`: from `front` up to `tail`, round the end of `size` slots, there are `n` of them. One
slot is always left free, so the two indices tell `n`: they are equal exactly when it is zero. An old copy of
one index spans more slots, or fewer, and stays usable.
-/

namespace LockFreeStructures

structure Spans (size front tail n : ℕ) : Prop where
  front_lt : front < size
  lt : n < size
  tail_eq : tail = (front + n) % size

namespace Spans

variable {size front tail n i j : ℕ}

theorem zero (h : front < size) : Spans size front front 0 :=
  ⟨h, Nat.zero_lt_of_lt h, by rw [Nat.add_zero, Nat.mod_eq_of_lt h]⟩

theorem size_pos (h : Spans size front tail n) : 0 < size := Nat.zero_lt_of_lt h.lt

theorem tail_lt (h : Spans size front tail n) : tail < size := h.tail_eq ▸ Nat.mod_lt _ h.size_pos

/-- Slots fewer than `size` apart are different. -/
theorem add_mod_inj (hf : front < size) (hi : i < size) (hj : j < size)
    (h : (front + i) % size = (front + j) % size) : i = j := by
  rcases Nat.lt_or_ge (front + i) size with h₁ | h₁
  · rw [Nat.mod_eq_of_lt h₁] at h
    rcases Nat.lt_or_ge (front + j) size with h₂ | h₂
    · rw [Nat.mod_eq_of_lt h₂] at h
      omega
    · rw [Nat.mod_eq_sub_mod h₂, Nat.mod_eq_of_lt (by omega)] at h
      omega
  · rw [Nat.mod_eq_sub_mod h₁, Nat.mod_eq_of_lt (by omega)] at h
    rcases Nat.lt_or_ge (front + j) size with h₂ | h₂
    · rw [Nat.mod_eq_of_lt h₂] at h
      omega
    · rw [Nat.mod_eq_sub_mod h₂, Nat.mod_eq_of_lt (by omega)] at h
      omega

theorem eq_iff (h : Spans size front tail n) : front = tail ↔ n = 0 := by
  constructor
  · intro heq
    have hmod : (front + 0) % size = (front + n) % size := by
      rw [Nat.add_zero, Nat.mod_eq_of_lt h.front_lt, ← h.tail_eq, heq]
    exact (add_mod_inj h.front_lt h.size_pos h.lt hmod).symm
  · rintro rfl
    rw [h.tail_eq, Nat.add_zero, Nat.mod_eq_of_lt h.front_lt]

theorem succ_tail (h : Spans size front tail n) : (tail + 1) % size = (front + (n + 1)) % size := by
  rw [h.tail_eq, Nat.mod_add_mod, Nat.add_assoc]

/-- The buffer is full when one more would bring the tail round to the front. -/
theorem succ_tail_eq_iff (h : Spans size front tail n) : (tail + 1) % size = front ↔ n + 1 = size := by
  rw [h.succ_tail]
  constructor
  · intro heq
    by_contra hne
    have hlt : n + 1 < size := by have := h.lt; omega
    have := add_mod_inj h.front_lt hlt h.size_pos (heq.trans (Nat.mod_eq_of_lt h.front_lt).symm)
    omega
  · intro heq
    rw [heq, Nat.add_mod_right, Nat.mod_eq_of_lt h.front_lt]

theorem push (h : Spans size front tail n) (hroom : n + 1 < size) : Spans size front ((tail + 1) % size) (n + 1) :=
  ⟨h.front_lt, hroom, h.succ_tail⟩

theorem pop (h : Spans size front tail (n + 1)) : Spans size ((front + 1) % size) tail n := by
  refine ⟨Nat.mod_lt _ h.size_pos, Nat.lt_of_succ_lt h.lt, ?_⟩
  rw [h.tail_eq, Nat.mod_add_mod, Nat.add_assoc, Nat.add_comm 1 n]

/-- The slot at the tail holds none of the items. -/
theorem slot_ne_tail (h : Spans size front tail n) (hi : i < n) : (front + i) % size ≠ tail := by
  rw [h.tail_eq]
  intro heq
  have := add_mod_inj h.front_lt (Nat.lt_trans hi h.lt) h.lt heq
  omega

end Spans

/-- The slots from `front` on hold the items, in order. -/
def Filled {V : Type*} (size : ℕ) (data : ℕ → Option V) (front : ℕ) (items : List V) : Prop :=
  ∀ i v, items[i]? = some v → data ((front + i) % size) = some v

namespace Filled

variable {V : Type*} {size front tail i : ℕ} {data data' : ℕ → Option V} {items : List V} {v : V}

theorem nil : Filled size data front [] := fun _ _ => nofun

theorem congr (h : Filled size data front items)
    (hd : ∀ i < items.length, data' ((front + i) % size) = data ((front + i) % size)) :
    Filled size data' front items := by
  intro i v hv
  rw [hd i (List.getElem?_eq_some_iff.mp hv).1]
  exact h i v hv

/-- A write to the slot at the tail touches no item. -/
theorem update_tail (h : Filled size data front items) (hs : Spans size front tail items.length) (v : Option V) :
    Filled size (Function.update data tail v) front items :=
  h.congr fun _ hi => Function.update_of_ne (hs.slot_ne_tail hi) _ _

theorem push (h : Filled size data front items) (hs : Spans size front tail items.length)
    (hv : data tail = some v) : Filled size data front (items ++ [v]) := by
  intro i x hx
  rcases Nat.lt_or_ge i items.length with hlt | hge
  · rw [List.getElem?_append_left hlt] at hx
    exact h i x hx
  · rw [List.getElem?_append_right hge] at hx
    have hi : i = items.length := by
      have := (List.getElem?_eq_some_iff.mp hx).1
      rw [List.length_singleton] at this
      omega
    subst hi
    rw [Nat.sub_self, List.getElem?_cons_zero] at hx
    cases hx
    rw [← hs.tail_eq]
    exact hv

theorem head (h : Filled size data front (v :: items)) (hf : front < size) : data front = some v := by
  have := h 0 v rfl
  rwa [Nat.add_zero, Nat.mod_eq_of_lt hf] at this

theorem rest (h : Filled size data front (v :: items)) : Filled size data ((front + 1) % size) items := by
  intro i x hx
  rw [Nat.mod_add_mod, Nat.add_assoc, Nat.add_comm 1 i]
  exact h (i + 1) x hx

/-- A write to the slot at the front touches the first item only. -/
theorem update_front (h : Filled size data front (v :: items)) (hs : Spans size front tail (items.length + 1))
    (x : Option V) : Filled size (Function.update data front x) ((front + 1) % size) items := by
  refine h.rest.congr fun i hi => Function.update_of_ne ?_ _ _
  rw [Nat.mod_add_mod, Nat.add_assoc]
  intro heq
  have hlt := hs.lt
  have := Spans.add_mod_inj hs.front_lt (by omega) hs.size_pos
    (heq.trans (by rw [Nat.add_zero, Nat.mod_eq_of_lt hs.front_lt]))
  omega

end Filled

end LockFreeStructures
