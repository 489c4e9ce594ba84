import Mathlib.Data.List.Nodup
import Mathlib.Tactic.Common

/-!
# `Lib.LinkedList` — singly linked lists and walks round them

`next` gives the node behind a node. `Linked next head l` says that the list from `head` on is `l`; that it ends
makes its nodes distinct. A walk round the list goes from its last node back to its head.
-/

namespace LockFreeStructures

variable {P : Type*} {next next' : P → Option P} {head : Option P} {l l' : List P} {p : P} {i : ℕ}

/-- The nodes from `head` to the end of the list are `l`. -/
def Linked (next : P → Option P) : Option P → List P → Prop
  | head, [] => head = none
  | head, p :: l => head = some p ∧ Linked next (next p) l

/-- The nodes from a pointer on. -/
def nodesFrom (next : P → Option P) : ℕ → Option P → Option (List P)
  | _, none => some []
  | 0, some _ => none
  | fuel + 1, some p => (nodesFrom next fuel (next p)).map (p :: ·)

/-- `k` steps round the list. -/
def advance (next : P → Option P) (head : Option P) : ℕ → P → Option P
  | 0, p => some p
  | k + 1, p => do
      let p ← (next p).or head
      advance next head k p

/-- Following `step` from `o` leads through the nodes `ns` to `e`. -/
def Path (step : P → Option P) : Option P → List P → P → Prop
  | o, [], e => o = some e
  | o, n :: ns, e => o = some n ∧ Path step (step n) ns e

theorem Path.append_cons {step : P → Option P} {o : Option P} {ms ns : List P} {n e : P} :
    Path step o (ms ++ n :: ns) e ↔ Path step o ms n ∧ Path step (step n) ns e := by
  induction ms generalizing o with
  | nil => exact Iff.rfl
  | cons m ms ih => exact (and_congr_right fun _ => ih).trans and_assoc.symm

/-- The nodes of a list one comes to when going round it from `p`, before coming back. -/
def othersAfter [DecidableEq P] (p : P) (l : List P) : List P :=
  (l.dropWhile (· ≠ p)).tail ++ l.takeWhile (· ≠ p)

theorem othersAfter_eq [DecidableEq P] {xs ys : List P} (h : p ∉ xs) : othersAfter p (xs ++ p :: ys) = ys ++ xs := by
  have hne : ∀ x ∈ xs, decide (x ≠ p) = true := fun x hx => decide_eq_true fun heq => h (heq ▸ hx)
  rw [othersAfter, List.dropWhile_append_of_pos hne, List.takeWhile_append_of_pos hne]
  simp

namespace Linked

theorem nil : Linked next none [] := rfl

theorem cons (h : Linked next (next p) l) : Linked next (some p) (p :: l) := ⟨rfl, h⟩

theorem eq_nil (h : Linked next none l) : l = [] := by
  cases l with
  | nil => rfl
  | cons p l => exact absurd h.1 nofun

theorem eq_cons (h : Linked next (some p) l) : ∃ l', l = p :: l' ∧ Linked next (next p) l' := by
  cases l with
  | nil => exact absurd h nofun
  | cons q l =>
      obtain rfl := Option.some.inj h.1
      exact ⟨l, rfl, h.2⟩

theorem unique (h : Linked next head l) (h' : Linked next head l') : l = l' := by
  induction l generalizing head l' with
  | nil =>
      obtain rfl : head = none := h
      exact h'.eq_nil.symm
  | cons p l ih =>
      obtain ⟨rfl, h⟩ := h
      obtain ⟨l'', rfl, h''⟩ := h'.eq_cons
      rw [ih h h'']

/-- What is behind a node depends on the links of the nodes in the list only. -/
theorem congr (h : Linked next head l) (hnext : ∀ p ∈ l, next' p = next p) : Linked next' head l := by
  induction l generalizing head with
  | nil => exact h
  | cons p l ih =>
      refine ⟨h.1, ?_⟩
      rw [hnext p List.mem_cons_self]
      exact ih h.2 fun q hq => hnext q (List.mem_cons_of_mem _ hq)

theorem drop (h : Linked next head l) (i : ℕ) (hi : i < l.length) : Linked next (some l[i]) (l.drop i) := by
  induction l generalizing head i with
  | nil => exact absurd hi (Nat.not_lt_zero i)
  | cons p l ih =>
      cases i with
      | zero => exact ⟨rfl, h.2⟩
      | succ i => exact ih h.2 i (Nat.lt_of_succ_lt_succ hi)

/-- A node that came twice would have the same list behind it both times. -/
theorem nodup (h : Linked next head l) : l.Nodup := by
  rw [List.nodup_iff_injective_get]
  intro i j hij
  have hdrop := (h.drop i i.2).unique (by
    have hj := h.drop j j.2
    rwa [show l[(j : ℕ)] = l[(i : ℕ)] from hij.symm] at hj)
  have hlen := congrArg List.length hdrop
  rw [List.length_drop, List.length_drop] at hlen
  exact Fin.ext (by omega)

theorem getElem_zero (h : Linked next head l) (hl : 0 < l.length) : head = some l[0] := by
  cases l with
  | nil => exact absurd hl (Nat.lt_irrefl 0)
  | cons p l => exact h.1

theorem next_getElem (h : Linked next head l) (hi : i < l.length) : next l[i] = l[i + 1]? := by
  induction l generalizing head i with
  | nil => exact absurd hi (Nat.not_lt_zero i)
  | cons p l ih =>
      cases i with
      | succ i => exact ih h.2 (Nat.lt_of_succ_lt_succ hi)
      | zero =>
          cases l with
          | nil => exact h.2
          | cons q l => exact h.2.1

/-- A step round the list. -/
theorem next_or_head (h : Linked next head l) (hi : i < l.length) :
    (next l[i]).or head = l[(i + 1) % l.length]? := by
  rw [h.next_getElem hi]
  by_cases hlast : i + 1 < l.length
  · rw [Nat.mod_eq_of_lt hlast, List.getElem?_eq_getElem hlast, Option.some_or]
  · rw [List.getElem?_eq_none (Nat.le_of_not_lt hlast), Option.none_or, show i + 1 = l.length by omega,
      Nat.mod_self, List.getElem?_eq_getElem (by omega)]
    exact h.getElem_zero (by omega)

/-- **A walk round the list** counts its nodes modulo their number. -/
theorem advance (h : Linked next head l) (hi : i < l.length) (k : ℕ) :
    LockFreeStructures.advance next head k l[i] = l[(i + k) % l.length]? := by
  induction k generalizing i with
  | zero => rw [Nat.add_zero, Nat.mod_eq_of_lt hi, List.getElem?_eq_getElem hi, LockFreeStructures.advance]
  | succ k ih =>
      have hmod := Nat.mod_lt (i + 1) (Nat.zero_lt_of_lt hi)
      rw [LockFreeStructures.advance, h.next_or_head hi, List.getElem?_eq_getElem hmod, Option.bind_eq_bind,
        Option.bind_some, ih hmod, Nat.mod_add_mod, Nat.add_assoc, Nat.add_comm 1 k]

/-- So does a walk from the node at position `i`, counted modulo their number, of any number of steps congruent
    to `k`. -/
theorem advance_mod {k m : ℕ} (h : Linked next head l) (hp : l[i % l.length]? = some p)
    (hm : m % l.length = k % l.length) :
    LockFreeStructures.advance next head m p = l[(i + k) % l.length]? := by
  obtain ⟨hi, rfl⟩ := List.getElem?_eq_some_iff.mp hp
  rw [h.advance hi, Nat.mod_add_mod, Nat.add_mod, hm, ← Nat.add_mod]

/-- The nodes of the list are all that going round it leads to. -/
theorem mem_of_next_or_head {p' : P} (h : Linked next head l) (hp : p ∈ l) (hnext : (next p).or head = some p') :
    p' ∈ l := by
  obtain ⟨i, hi, rfl⟩ := List.getElem_of_mem hp
  rw [h.next_or_head hi] at hnext
  exact List.mem_of_getElem? hnext

/-- To the end of the list and back to the head. -/
theorem path_to_head {e : P} (h : Linked next (some p) (p :: l)) (hhead : head = some e) :
    Path (fun p => (next p).or head) ((next p).or head) l e := by
  induction l generalizing p with
  | nil => rw [show next p = none from h.2, Option.none_or, hhead, Path]
  | cons q l ih =>
      obtain ⟨-, hq, h⟩ := h
      rw [hq, Option.some_or]
      exact ⟨rfl, ih (.cons h)⟩

/-- From one node of the list to a later one. -/
theorem path_to_later {l' : List P} {e : P} (h : Linked next head (l ++ e :: l')) (head' : Option P) :
    Path (fun p => (next p).or head') head l e := by
  induction l generalizing head with
  | nil => exact h.1
  | cons p l ih =>
      refine ⟨h.1, ?_⟩
      have hpath := ih h.2
      cases hnext : next p with
      | some q =>
          rw [hnext] at hpath
          simpa only [hnext, Option.some_or] using hpath
      | none =>
          rw [hnext] at hpath
          cases l <;> exact absurd hpath (by simp [Path])

/-- **Once round the list**, from a node through all others back to it. -/
theorem path_round [DecidableEq P] (h : Linked next head l) (hp : p ∈ l) :
    Path (fun p => (next p).or head) ((next p).or head) (othersAfter p l) p ∧ (p :: othersAfter p l).Perm l := by
  obtain ⟨xs, ys, hl, hxs⟩ := List.eq_append_cons_of_mem hp
  subst hl
  rw [othersAfter_eq hxs]
  have hsuffix : Linked next (some p) (p :: ys) := by
    have hdrop := h.drop xs.length (by simp)
    simpa using hdrop
  refine ⟨?_, ?_⟩
  · cases xs with
    | nil =>
        rw [List.append_nil]
        exact hsuffix.path_to_head h.1
    | cons x xs =>
        refine Path.append_cons.mpr ⟨hsuffix.path_to_head h.1, ?_⟩
        have hlater : Path (fun p => (next p).or head) head (x :: xs) p := h.path_to_later head
        exact hlater.2
  · have hcomm : (p :: ys ++ xs).Perm (xs ++ p :: ys) := List.perm_append_comm
    exact hcomm

theorem nodesFrom (h : Linked next head l) {fuel : ℕ} (hfuel : l.length ≤ fuel) :
    LockFreeStructures.nodesFrom next fuel head = some l := by
  induction l generalizing head fuel with
  | nil =>
      obtain rfl : head = none := h
      cases fuel <;> rfl
  | cons p l ih =>
      obtain ⟨rfl, h⟩ := h
      obtain ⟨fuel, rfl⟩ := Nat.exists_eq_succ_of_ne_zero (Nat.ne_of_gt (Nat.lt_of_lt_of_le (Nat.succ_pos _) hfuel))
      rw [LockFreeStructures.nodesFrom, ih h (Nat.le_of_succ_le_succ hfuel), Option.map_some]

end Linked

end LockFreeStructures
