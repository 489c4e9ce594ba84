import Mathlib.Data.List.Chain
import Mathlib.Data.List.Nodup
import Mathlib.Logic.Function.Basic

/-!
# `Lib.Ring` — circular singly linked lists

A ring of nodes threaded through a `next` map, read as the list of its nodes in link order. The list
is a choice of starting point only: `IsRing.rotate` moves it. The three edits a queue makes on such a
ring are covered: moving the starting point, splicing a fresh node after the last one, and closing a
single node on itself. `walkRound` goes round once.
-/

namespace LockFreeStructures

variable {P : Type*}

/-- `l` lists, without repetition, the nodes of a ring: each node's `next` is the node after it, and
    the last node's `next` is the first. -/
structure IsRing (next : P → Option P) (l : List P) : Prop where
  nodup : l.Nodup
  linked : (l ++ l.take 1).IsChain (fun x y => next x = some y)

namespace IsRing

variable {next next' : P → Option P}

theorem nil : IsRing next [] := ⟨List.nodup_nil, by simp⟩

/-- A node whose `next` is itself is a ring. -/
theorem singleton {x : P} (h : next x = some x) : IsRing next [x] := ⟨by simp, by simp [h]⟩

/-- The numbers below `n`, each followed by the next and the last by zero. -/
theorem range {n : ℕ} (hn : 0 < n) : IsRing (fun x => some ((x + 1) % n)) (List.range n) := by
  obtain ⟨n, rfl⟩ := Nat.exists_eq_succ_of_ne_zero (Nat.ne_of_gt hn)
  refine ⟨List.nodup_range, ?_⟩
  have htake : (List.range (n + 1)).take 1 = [0] := by
    rw [List.range_succ_eq_map]
    rfl
  rw [Nat.succ_eq_add_one, htake, List.isChain_iff_getElem]
  intro i hi
  rw [List.length_append, List.length_range, List.length_singleton] at hi
  rw [List.getElem_append_left (by rw [List.length_range]; omega), List.getElem_range]
  rcases Nat.lt_or_ge (i + 1) (n + 1) with hlt | hge
  · rw [List.getElem_append_left (by rwa [List.length_range]), List.getElem_range, Nat.mod_eq_of_lt hlt]
  · obtain rfl : i = n := by omega
    rw [List.getElem_append_right (by rw [List.length_range]), Nat.mod_self]
    simp

/-- The starting point of a ring is a choice. -/
theorem rotate {l₁ l₂ : List P} (h : IsRing next (l₁ ++ l₂)) : IsRing next (l₂ ++ l₁) := by
  refine ⟨List.nodup_append_comm.mp h.nodup, ?_⟩
  have hl := h.linked
  cases l₁ with
  | nil => simpa using hl
  | cons a l₁ =>
      cases l₂ with
      | nil => simpa using hl
      | cons b l₂ =>
          simp only [List.cons_append, List.take_succ_cons, List.take_zero, List.append_assoc] at hl ⊢
          rw [← List.cons_append, List.isChain_split] at hl
          rw [← List.cons_append, List.isChain_split]
          exact ⟨hl.2, hl.1⟩

/-- The node after the last one is the first. -/
theorem next_last {x : P} {l : List P} (h : IsRing next (l ++ [x])) :
    next x = (l ++ [x]).head? := by
  have hl := h.linked
  cases l with
  | nil => simpa using hl
  | cons a l =>
      simp only [List.cons_append, List.take_succ_cons, List.take_zero, List.append_assoc,
        List.nil_append] at hl
      rw [← List.cons_append, List.isChain_append] at hl
      simpa using hl.2.1

/-- The node after `x` is the one listed after it. -/
theorem next_mid {x y : P} {l₁ l₂ : List P} (h : IsRing next (l₁ ++ x :: y :: l₂)) :
    next x = some y := by
  have hl := h.linked
  rw [List.append_assoc, List.isChain_append] at hl
  exact (List.isChain_cons_cons.mp hl.2.1).1

/-- The links of a ring stay in it. -/
theorem next_mem {x y : P} {l : List P} (h : IsRing next l) (hx : x ∈ l) (hy : next x = some y) : y ∈ l := by
  obtain ⟨l₁, l₂, rfl⟩ := List.append_of_mem hx
  have hsplit : IsRing next ((l₁ ++ [x]) ++ l₂) := by rwa [List.append_assoc]
  have hrot : IsRing next (l₂ ++ l₁ ++ [x]) := by
    rw [List.append_assoc]
    exact hsplit.rotate
  have hlast := hrot.next_last
  rw [hy, eq_comm] at hlast
  have hmem := List.mem_of_head? hlast
  simp only [List.mem_append, List.mem_singleton] at hmem
  simp only [List.mem_append, List.mem_cons]
  tauto

/-- A ring only depends on the links of its own nodes. -/
theorem congr {l : List P} (h : IsRing next l) (hn : ∀ x ∈ l, next' x = next x) :
    IsRing next' l := by
  refine ⟨h.nodup, h.linked.imp_of_mem_imp fun x y hx _ hxy => ?_⟩
  have hx' : x ∈ l := by
    rcases List.mem_append.mp hx with hx | hx
    · exact hx
    · exact List.mem_of_mem_take hx
  rw [hn x hx', hxy]

/-- **Splice.** A node `y` outside the ring, linked in after the last node `x`, becomes the last. -/
theorem splice {x y : P} {l : List P} (h : IsRing next (l ++ [x])) (hy : y ∉ l ++ [x])
    (hnx : next' x = some y) (hny : next' y = next x) (hn : ∀ z ∈ l, next' z = next z) :
    IsRing next' (l ++ [x] ++ [y]) := by
  have hlast := h.next_last
  refine ⟨List.nodup_append.mpr ⟨h.nodup, by simp, ?_⟩, ?_⟩
  · rintro a ha b hb rfl
    exact hy (by rwa [List.mem_singleton.mp hb] at ha)
  · have hl := h.linked
    have hpre : ((l ++ [x])).IsChain (fun a b => next' a = some b) := by
      rw [List.isChain_append] at hl
      refine List.isChain_append.mpr ⟨?_, by simp, ?_⟩
      · have hc := (List.isChain_append.mp hl.1).1
        exact hc.imp_of_mem_imp fun a b ha _ hab => by rw [hn a ha, hab]
      · intro a ha b hb
        rw [hn a (List.mem_of_getLast? ha)]
        exact (List.isChain_append.mp hl.1).2.2 a ha b hb
    cases l with
    | nil =>
        simp only [List.nil_append, List.head?_cons] at hlast
        simp [hnx, hny, hlast]
    | cons a l =>
        simp only [List.cons_append, List.head?_cons] at hlast
        simp only [List.cons_append, List.take_succ_cons, List.take_zero, List.append_assoc,
          List.nil_append] at hpre ⊢
        rw [← List.cons_append, List.isChain_split]
        exact ⟨hpre, by simp [hnx, hny, hlast]⟩

end IsRing

/-! ## Going round -/

variable [DecidableEq P] {next : P → Option P} {first x : P}

/-- The nodes from `x` on until coming back to `first`. -/
def walkRound (next : P → Option P) (first : P) : ℕ → P → Option (List P)
  | 0, _ => none
  | fuel + 1, x => do
      let y ← next x
      if y = first then some [x] else (walkRound next first fuel y).map (x :: ·)

namespace IsRing

theorem walkRound {l₁ l₂ : List P} (h : IsRing next (l₁ ++ x :: l₂)) (hfirst : (l₁ ++ [x]).head? = some first) :
    walkRound next first (l₂.length + 1) x = some (x :: l₂) := by
  induction l₂ generalizing l₁ x with
  | nil =>
      have hnext : next x = some first := h.next_last.trans hfirst
      rw [LockFreeStructures.walkRound, hnext, Option.bind_eq_bind, Option.bind_some, if_pos rfl]
  | cons y l₂ ih =>
      have hne : y ≠ first := by
        rintro rfl
        have hnodup := h.nodup
        rw [← List.singleton_append, ← List.append_assoc] at hnodup
        exact List.disjoint_of_nodup_append hnodup (List.mem_of_head? hfirst) List.mem_cons_self
      have hsplit : IsRing next ((l₁ ++ [x]) ++ y :: l₂) := by rwa [List.append_assoc, List.singleton_append]
      have hrest := ih hsplit (by rw [List.head?_append, hfirst, Option.some_or])
      rw [List.length_cons, LockFreeStructures.walkRound, h.next_mid, Option.bind_eq_bind, Option.bind_some, if_neg hne,
        hrest, Option.map_some]

/-- Nothing but the ring is met. -/
theorem walkRound_subset {l l' : List P} {fuel : ℕ} (h : IsRing next l) (hx : x ∈ l)
    (hwalk : LockFreeStructures.walkRound next first fuel x = some l') : l' ⊆ l := by
  induction fuel generalizing x l' with
  | zero => exact absurd hwalk nofun
  | succ fuel ih =>
      rw [LockFreeStructures.walkRound, Option.bind_eq_bind, Option.bind_eq_some_iff] at hwalk
      obtain ⟨y, hy, hwalk⟩ := hwalk
      split at hwalk
      · cases hwalk
        simpa using hx
      · obtain ⟨l'', hrest, rfl⟩ := Option.map_eq_some_iff.mp hwalk
        exact List.cons_subset.mpr ⟨hx, ih (h.next_mem hx hy) hrest⟩

/-- **Once round** meets every node of the ring once. -/
theorem walkRound_perm {l : List P} (h : IsRing next l) (hfirst : first ∈ l) :
    ∃ fuel l', LockFreeStructures.walkRound next first fuel first = some l' ∧ l'.Perm l := by
  obtain ⟨l₁, l₂, rfl⟩ := List.append_of_mem hfirst
  have hrot : IsRing next ([] ++ first :: (l₂ ++ l₁)) := h.rotate
  have hcomm : (first :: l₂ ++ l₁).Perm (l₁ ++ first :: l₂) := List.perm_append_comm
  exact ⟨_, _, hrot.walkRound rfl, hcomm⟩

end IsRing

end LockFreeStructures
