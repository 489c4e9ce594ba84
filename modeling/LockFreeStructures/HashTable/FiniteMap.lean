import Mathlib.Data.Finmap
import Mathlib.Data.Nat.ModEq
import LockFreeStructures.HashTable.Defs

/-!
# `HashTable.FiniteMap` — one call after another, the table is a finite map

`Represents` ties the chain of tables to the map: the value of a key is the one in the newest table that has
it, whatever older tables still hold. At most half of the newest table's slots are counted for, so every probe
path has a free slot.
-/

namespace LockFreeStructures

namespace HashTable

variable {K V : Type} {hash : K → ℕ} {n : HashNode K V} {k k' : K} {v v' : V} {i : ℕ}

/-! ## One table -/

namespace HashNode

/-- The slots can be masked; every key of a table is in one slot only, is reached from its hash, and has a value. -/
structure WF (hash : K → ℕ) (n : HashNode K V) : Prop where
  capacity : ∃ e, n.capacity = 2 ^ e
  inj : ∀ i < n.capacity, ∀ j < n.capacity, ∀ k, n.first i = some k → n.first j = some k → i = j
  placed : ∀ i < n.capacity, ∀ k, n.first i = some k → Placed n.capacity n.first (hash k) i
  stored : ∀ i < n.capacity, ∀ k, n.first i = some k → n.second i ≠ none

def HasFree (n : HashNode K V) : Prop := ∃ i < n.capacity, n.first i = none

def Holds (n : HashNode K V) (k : K) (v : V) : Prop :=
  ∃ i < n.capacity, n.first i = some k ∧ n.second i = some v

def Absent (n : HashNode K V) (k : K) : Prop := ∀ i < n.capacity, n.first i ≠ some k

theorem WF.create (hash : K → ℕ) {capacity : ℕ} (h : ∃ e, capacity = 2 ^ e) :
    (createNewHashNode capacity : HashNode K V).WF hash :=
  ⟨h, fun _ _ _ _ _ => nofun, fun _ _ _ => nofun, fun _ _ _ => nofun⟩

/-- The mask takes the remainder. -/
theorem WF.probeSlots_eq (h : n.WF hash) (stop : ℕ → Bool) (hashId : ℕ) :
    n.probeSlots stop hashId = probe stop n.capacity n.capacity hashId := by
  obtain ⟨e, he⟩ := h.capacity
  rw [probeSlots, he, probeMask_two_pow]

theorem absent_create (capacity : ℕ) (k : K) : (createNewHashNode capacity : HashNode K V).Absent k :=
  fun _ _ => nofun

theorem Holds.not_absent (h : n.Holds k v) : ¬ n.Absent k := by
  obtain ⟨i, hi, hk, -⟩ := h
  exact fun ha => ha i hi hk

/-- A table that has a key holds a value for it. -/
theorem WF.holds (h : n.WF hash) (hk : ¬ n.Absent k) : ∃ v, n.Holds k v := by
  simp only [Absent, not_forall, ne_eq, not_not] at hk
  obtain ⟨i, hi, hk⟩ := hk
  obtain ⟨v, hv⟩ := Option.ne_none_iff_exists'.mp (h.stored i hi k hk)
  exact ⟨v, i, hi, hk, hv⟩

theorem WF.holds_unique (h : n.WF hash) (hv : n.Holds k v) (hv' : n.Holds k v') : v = v' := by
  obtain ⟨i, hi, hk, hs⟩ := hv
  obtain ⟨j, hj, hk', hs'⟩ := hv'
  obtain rfl := h.inj i hi j hj k hk hk'
  exact Option.some.inj (hs.symm.trans hs')

/-- The search finds the slot of a key the table has, and ends at a free slot for another. -/
theorem WF.findEntry_cases [DecidableEq K] (h : n.WF hash) (hfree : n.HasFree) (k : K) :
    (∃ i < n.capacity, n.first i = some k ∧ n.findEntry (hash k) k = some (some i)) ∨
      n.Absent k ∧ n.findEntry (hash k) k = some none := by
  by_cases hk : n.Absent k
  · right
    obtain ⟨d, hd, hnone, hpass⟩ := exists_first_free hfree (hash k)
    have hC : 0 < n.capacity := Nat.zero_lt_of_lt hd
    refine ⟨hk, ?_⟩
    rw [findEntry, h.probeSlots_eq, probe_eq_some hd (by simp [hnone]) fun d' hd' => ?_, Option.map_some, if_neg]
    · rw [hnone]
      exact nofun
    · have hne := hk _ (Nat.mod_lt (hash k + d') hC)
      simp [hpass d' hd', hne]
  · left
    simp only [Absent, not_forall, ne_eq, not_not] at hk
    obtain ⟨i, hi, hk⟩ := hk
    obtain ⟨d, hd, rfl, hpass⟩ := h.placed i hi k hk
    refine ⟨_, hi, hk, ?_⟩
    rw [findEntry, h.probeSlots_eq, probe_eq_some hd (by simp [hk]) fun d' hd' => ?_, Option.map_some, if_pos hk]
    have hne : n.first ((hash k + d') % n.capacity) ≠ some k := by
      intro heq
      have hslot := h.inj _ (Nat.mod_lt _ (Nat.zero_lt_of_lt hd)) _ hi k heq hk
      -- two steps of one probe path that are less than a round apart are different slots
      have hmod : d' % n.capacity = d % n.capacity := Nat.ModEq.add_left_cancel' (hash k) hslot
      rw [Nat.mod_eq_of_lt (Nat.lt_trans hd' hd), Nat.mod_eq_of_lt hd] at hmod
      omega
    simp [hpass d' hd', hne]

section Put

variable (hi : i < n.capacity) (hnone : n.first i = none)

include hnone in
theorem first_put_ne_none (j : ℕ) (hj : n.first j ≠ none) : (n.put i k v).first j = n.first j := by
  refine Function.update_of_ne ?_ _ _
  rintro rfl
  exact hj hnone

include hi hnone

theorem WF.put (h : n.WF hash) (hk : n.Absent k) (hp : Placed n.capacity n.first (hash k) i) :
    (n.put i k v).WF hash := by
  have hfill : ∀ j < n.capacity, n.first j ≠ none → (n.put i k v).first j ≠ none := fun j _ hj => by
    rwa [first_put_ne_none hnone j hj]
  have hfirst : ∀ j, ∀ x, (n.put i k v).first j = some x → j = i ∧ x = k ∨ j ≠ i ∧ n.first j = some x := by
    intro j x hx
    by_cases hj : j = i
    · subst hj
      left
      rw [show (n.put j k v).first j = some k from Function.update_self ..] at hx
      exact ⟨rfl, (Option.some.inj hx).symm⟩
    · right
      exact ⟨hj, by rwa [show (n.put i k v).first j = n.first j from Function.update_of_ne hj ..] at hx⟩
  refine ⟨h.capacity, fun j hj j' hj' x hx hx' => ?_, fun j hj x hx => ?_, fun j hj x hx => ?_⟩
  · rcases hfirst j x hx with ⟨rfl, rfl⟩ | ⟨-, hold⟩
    · rcases hfirst j' x hx' with ⟨rfl, -⟩ | ⟨-, hold'⟩
      · rfl
      · exact absurd hold' (hk j' hj')
    · rcases hfirst j' x hx' with ⟨rfl, rfl⟩ | ⟨-, hold'⟩
      · exact absurd hold (hk j hj)
      · exact h.inj j hj j' hj' x hold hold'
  · rcases hfirst j x hx with ⟨rfl, rfl⟩ | ⟨-, hx⟩
    · exact hp.mono hfill
    · exact (h.placed j hj x hx).mono hfill
  · rcases hfirst j x hx with ⟨rfl, rfl⟩ | ⟨hne, hx⟩
    · exact fun hs => absurd (hs.symm.trans (Function.update_self ..)) nofun
    · rw [show (n.put i k v).second j = n.second j from Function.update_of_ne hne ..]
      exact h.stored j hj x hx

omit hi in
theorem absent_put (hk : n.Absent k') (hne : k' ≠ k) : (n.put i k v).Absent k' := by
  intro j hj hx
  by_cases hji : j = i
  · subst hji
    rw [show (n.put j k v).first j = some k from Function.update_self ..] at hx
    exact hne (Option.some.inj hx).symm
  · rw [show (n.put i k v).first j = n.first j from Function.update_of_ne hji ..] at hx
    exact hk j hj hx

omit hnone in
theorem holds_put_self : (n.put i k v).Holds k v :=
  ⟨i, hi, Function.update_self .., Function.update_self ..⟩

omit hi in
theorem holds_put_of_ne (hne : k' ≠ k) : (n.put i k v).Holds k' v' ↔ n.Holds k' v' := by
  constructor
  · rintro ⟨j, hj, hx, hs⟩
    have hji : j ≠ i := by
      rintro rfl
      rw [show (n.put j k v).first j = some k from Function.update_self ..] at hx
      exact hne (Option.some.inj hx).symm
    rw [show (n.put i k v).first j = n.first j from Function.update_of_ne hji ..] at hx
    rw [show (n.put i k v).second j = n.second j from Function.update_of_ne hji ..] at hs
    exact ⟨j, hj, hx, hs⟩
  · rintro ⟨j, hj, hx, hs⟩
    have hji : j ≠ i := by
      rintro rfl
      rw [hnone] at hx
      exact absurd hx nofun
    exact ⟨j, hj, (Function.update_of_ne hji ..).trans hx, (Function.update_of_ne hji ..).trans hs⟩

omit hi in
theorem absent_put_iff (hne : k' ≠ k) : (n.put i k v).Absent k' ↔ n.Absent k' := by
  refine ⟨fun h j hj hx => ?_, fun h => absent_put hnone h hne⟩
  exact h j hj (by rw [first_put_ne_none hnone j (by rw [hx]; exact nofun)]; exact hx)

end Put

/-- A new key goes into a free slot on its probe path. -/
theorem WF.addEntry_eq (h : n.WF hash) (hfree : n.HasFree) (hk : n.Absent k) (v : V) :
    ∃ i < n.capacity, n.first i = none ∧ n.addEntry (hash k) k v = some (i, n.put i k v) ∧
      (n.put i k v).WF hash := by
  obtain ⟨d, hd, hnone, hpass⟩ := exists_first_free hfree (hash k)
  have hi : (hash k + d) % n.capacity < n.capacity := Nat.mod_lt _ (Nat.zero_lt_of_lt hd)
  refine ⟨_, hi, hnone, ?_, h.put hi hnone hk ⟨d, hd, rfl, hpass⟩⟩
  rw [addEntry, h.probeSlots_eq, probe_eq_some hd (by simp [hnone]) fun d' hd' => ?_, Option.map_some]
  rw [Option.isNone_eq_false_iff]
  exact Option.isSome_iff_ne_none.mpr (hpass d' hd')

/-! ### Storing a value -/

theorem WF.storeSecond (h : n.WF hash) (v : V) : (n.storeSecond i v).WF hash := by
  refine ⟨h.capacity, h.inj, h.placed, fun j hj k hk => ?_⟩
  by_cases hji : j = i
  · subst hji
    exact fun hs => absurd (hs.symm.trans (Function.update_self ..)) nofun
  · rw [show (n.storeSecond i v).second j = n.second j from Function.update_of_ne hji ..]
    exact h.stored j hj k hk

theorem WF.holds_storeSecond [DecidableEq K] (h : n.WF hash) (hi : i < n.capacity) (hk : n.first i = some k) :
    (n.storeSecond i v).Holds k' v' ↔ if k' = k then v' = v else n.Holds k' v' := by
  have hself : (n.storeSecond i v).second i = some v := Function.update_self ..
  by_cases hkk : k' = k
  · subst hkk
    rw [if_pos rfl]
    constructor
    · rintro ⟨j, hj, hx, hs⟩
      obtain rfl := h.inj j hj i hi k' hx hk
      exact Option.some.inj (hs.symm.trans hself)
    · rintro rfl
      exact ⟨i, hi, hk, hself⟩
  · rw [if_neg hkk]
    have hother : ∀ j < n.capacity, n.first j = some k' → (n.storeSecond i v).second j = n.second j := by
      intro j _ hx
      refine Function.update_of_ne ?_ _ _
      rintro rfl
      exact hkk (Option.some.inj (hx.symm.trans hk))
    constructor
    · rintro ⟨j, hj, hx, hs⟩
      exact ⟨j, hj, hx, (hother j hj hx).symm.trans hs⟩
    · rintro ⟨j, hj, hx, hs⟩
      exact ⟨j, hj, hx, (hother j hj hx).trans hs⟩

end HashNode

/-! ## The chain -/

/-- The newest table of the chain that has the key holds the value. -/
def ChainHolds : List (HashNode K V) → K → V → Prop
  | [], _, _ => False
  | n :: prev, k, v => n.Holds k v ∨ n.Absent k ∧ ChainHolds prev k v

variable [DecidableEq K]

theorem findPrev_cases {prev : List (HashNode K V)} (hwf : ∀ n ∈ prev, n.WF hash)
    (hfree : ∀ n ∈ prev, n.HasFree) (k : K) :
    (∃ v, findPrev hash k prev = some (some v) ∧ ChainHolds prev k v) ∨
      findPrev hash k prev = some none ∧ ∀ v, ¬ ChainHolds prev k v := by
  induction prev with
  | nil => exact Or.inr ⟨rfl, fun _ => id⟩
  | cons n prev ih =>
      rcases (hwf n List.mem_cons_self).findEntry_cases (hfree n List.mem_cons_self) k with
        ⟨i, hi, hk, hfind⟩ | ⟨hk, hfind⟩
      · left
        obtain ⟨v, hv⟩ := Option.ne_none_iff_exists'.mp ((hwf n List.mem_cons_self).stored i hi k hk)
        refine ⟨v, ?_, Or.inl ⟨i, hi, hk, hv⟩⟩
        simp only [findPrev, hfind, Option.bind_eq_bind, Option.bind_some, hv, Option.map_some]
      · have hrec : findPrev hash k (n :: prev) = findPrev hash k prev := by
          simp only [findPrev, hfind, Option.bind_eq_bind, Option.bind_some]
        have hchain : ∀ v, ChainHolds (n :: prev) k v ↔ ChainHolds prev k v := fun v =>
          ⟨fun h => (h.resolve_left fun hh => hh.not_absent hk).2, fun h => Or.inr ⟨hk, h⟩⟩
        rw [hrec]
        rcases ih (fun n hn => hwf n (List.mem_cons_of_mem _ hn)) (fun n hn => hfree n (List.mem_cons_of_mem _ hn))
          with ⟨v, hrun, hv⟩ | ⟨hrun, hv⟩
        · exact Or.inl ⟨v, hrun, (hchain v).mpr hv⟩
        · exact Or.inr ⟨hrun, fun v h => hv v ((hchain v).mp h)⟩

/-! ## The table and the map -/

/-- The finite map a table stands for. -/
abbrev Map (K V : Type) := Finmap fun _ : K => V

structure Represents (hash : K → ℕ) (t : HashTable K V) (m : Map K V) : Prop where
  main : t.mainHash.WF hash
  prev : ∀ n ∈ t.prev, n.WF hash
  prevFree : ∀ n ∈ t.prev, n.HasFree
  lookup : ∀ k v, m.lookup k = some v ↔ ChainHolds (t.mainHash :: t.prev) k v
  count : t.entriesCount = m.keys.card
  half : t.entriesCount ≤ t.mainHash.capacity / 2

variable {t : HashTable K V} {m : Map K V}

namespace Represents

/-- The keys of the newest table are keys of the map. -/
theorem mem_of_first (h : Represents hash t m) (hi : i < t.mainHash.capacity) (hk : t.mainHash.first i = some k) :
    k ∈ m := by
  obtain ⟨v, hv⟩ := h.main.holds fun ha => ha i hi hk
  exact Finmap.mem_iff.mpr ⟨v, (h.lookup k v).mpr (Or.inl hv)⟩

theorem capacity_pos (h : Represents hash t m) : 0 < t.mainHash.capacity := by
  obtain ⟨e, he⟩ := h.main.capacity
  rw [he]
  exact Nat.two_pow_pos e

/-- The newest table has a free slot. -/
theorem mainFree (h : Represents hash t m) : t.mainHash.HasFree := by
  refine exists_free id m.keys (fun i hi j hj k k' hk hk' heq => ?_) (fun i hi k hk => ?_) ?_
  · obtain rfl : k = k' := heq
    exact h.main.inj i hi j hj k hk hk'
  · exact Finmap.mem_keys.mpr (h.mem_of_first hi hk)
  · have := h.half
    have := h.capacity_pos
    rw [← h.count]
    omega

/-- **Lookup.** A key of the map has its entry in the newest table afterwards; the map stays as it is. -/
theorem innerGetEntry_cases (h : Represents hash t m) (k : K) :
    (∃ i t' v, t.innerGetEntry hash k = some (some i, t') ∧ Represents hash t' m ∧ m.lookup k = some v ∧
        i < t'.mainHash.capacity ∧ t'.mainHash.first i = some k ∧ t'.mainHash.second i = some v) ∨
      t.innerGetEntry hash k = some (none, t) ∧ m.lookup k = none ∧ t.mainHash.Absent k := by
  rcases h.main.findEntry_cases h.mainFree k with ⟨i, hi, hk, hfind⟩ | ⟨hk, hfind⟩
  · left
    obtain ⟨v, hv⟩ := Option.ne_none_iff_exists'.mp (h.main.stored i hi k hk)
    refine ⟨i, t, v, ?_, h, (h.lookup k v).mpr (Or.inl ⟨i, hi, hk, hv⟩), hi, hk, hv⟩
    simp only [innerGetEntry, hfind, Option.bind_eq_bind, Option.bind_some]
  · rcases findPrev_cases h.prev h.prevFree k with ⟨v, hprev, hv⟩ | ⟨hprev, hv⟩
    · -- the entry of an older table is copied into the newest
      left
      have hlook := (h.lookup k v).mpr (Or.inr ⟨hk, hv⟩)
      obtain ⟨i, hi, hnone, hadd, hwf⟩ := h.main.addEntry_eq h.mainFree hk v
      refine ⟨i, { t with mainHash := t.mainHash.put i k v }, v, ?_,
        ⟨hwf, h.prev, h.prevFree, fun k' v' => ?_, h.count, h.half⟩, hlook, hi, Function.update_self ..,
        Function.update_self ..⟩
      · simp only [innerGetEntry, hfind, hprev, hadd, Option.bind_eq_bind, Option.bind_some]
      · rw [h.lookup k' v']
        by_cases hkk : k' = k
        · subst hkk
          have hself : (t.mainHash.put i k' v).Holds k' v := HashNode.holds_put_self hi
          constructor
          · intro hch
            obtain rfl : v' = v := by
              have := (h.lookup k' v').mpr hch
              exact Option.some.inj (this.symm.trans hlook)
            exact Or.inl hself
          · rintro (hh | ⟨ha, -⟩)
            · obtain rfl := hwf.holds_unique hh hself
              exact Or.inr ⟨hk, hv⟩
            · exact absurd ha hself.not_absent
        · exact or_congr (HashNode.holds_put_of_ne hnone hkk).symm
            (and_congr_left' (HashNode.absent_put_iff hnone hkk).symm)
    · right
      refine ⟨?_, ?_, hk⟩
      · simp only [innerGetEntry, hfind, hprev, Option.bind_eq_bind, Option.bind_some]
      · rw [Option.eq_none_iff_forall_ne_some]
        intro v hlook
        rcases (h.lookup k v).mp hlook with hh | ⟨-, hch⟩
        · exact hh.not_absent hk
        · exact hv v hch

theorem card_insert (hk : m.lookup k = none) (v : V) : (m.insert k v).keys.card = m.keys.card + 1 := by
  have hkeys : (m.insert k v).keys = insert k m.keys := by
    ext x
    rw [Finmap.mem_keys, Finmap.mem_insert, Finset.mem_insert, Finmap.mem_keys]
  rw [hkeys, Finset.card_insert_of_notMem]
  rwa [Finmap.mem_keys, ← Finmap.lookup_eq_none]

/-- Making room: afterwards less than half of the newest table is counted for. -/
theorem resize_eq (h : Represents hash t m) (w : ℕ) (hk : m.lookup k = none) :
    ∃ t', t.resize w t.entriesCount = some (t.entriesCount, t') ∧ Represents hash t' m ∧
      t'.entriesCount = t.entriesCount ∧ t'.entriesCount < t'.mainHash.capacity / 2 ∧ t'.mainHash.Absent k := by
  have hhalf := h.half
  have habs : t.mainHash.Absent k := by
    by_contra ha
    obtain ⟨v, hv⟩ := h.main.holds ha
    rw [(h.lookup k v).mpr (Or.inl hv)] at hk
    exact absurd hk nofun
  by_cases hfull : t.mainHash.capacity / 2 ≤ t.entriesCount
  · have hpos := h.capacity_pos
    have hroom : t.entriesCount < t.mainHash.capacity * 2 / 2 := by
      rw [Nat.mul_div_cancel _ Nat.two_pos]
      omega
    refine ⟨{ t with mainHash := createNewHashNode (t.mainHash.capacity * 2), prev := t.mainHash :: t.prev },
      ?_, ⟨.create hash ?_, ?_, ?_, fun k v => ?_, h.count, hroom.le⟩, rfl, hroom, HashNode.absent_create _ k⟩
    · simp only [resize, if_pos hfull, shiftCount, if_neg (Nat.not_le.mpr hroom), Option.bind_eq_bind,
        Option.bind_some]
    · obtain ⟨e, he⟩ := h.main.capacity
      exact ⟨e + 1, by rw [Nat.pow_succ, ← he]⟩
    · intro n hn
      rcases List.mem_cons.mp hn with rfl | hn
      · exact h.main
      · exact h.prev n hn
    · intro n hn
      rcases List.mem_cons.mp hn with rfl | hn
      · exact h.mainFree
      · exact h.prevFree n hn
    · rw [h.lookup k v]
      have habs := HashNode.absent_create (V := V) (t.mainHash.capacity * 2) k
      exact ⟨fun hch => Or.inr ⟨habs, hch⟩, fun hch => (hch.resolve_left fun hh => hh.not_absent habs).2⟩
  · exact ⟨t, by simp only [resize, if_neg hfull], h, rfl, by omega, habs⟩

/-- **Add.** -/
theorem innerAdd_eq (h : Represents hash t m) (w : ℕ) (hk : m.lookup k = none) (v : V) :
    ∃ t', t.innerAdd hash w k v = some t' ∧ Represents hash t' (m.insert k v) := by
  obtain ⟨t₁, hres, h₁, hcount, hroom, habs⟩ := h.resize_eq w hk
  obtain ⟨i, hi, hnone, hadd, hwf⟩ := h₁.main.addEntry_eq h₁.mainFree habs v
  refine ⟨{ t₁ with entriesCount := t.entriesCount + 1, mainHash := t₁.mainHash.put i k v }, ?_,
    ⟨hwf, h₁.prev, h₁.prevFree, fun k' v' => ?_, ?_, ?_⟩⟩
  · -- the count is raised before the table is made
    have hres' : HashTable.resize w t.entriesCount { t with entriesCount := t.entriesCount + 1 }
        = some (t.entriesCount, { t₁ with entriesCount := t.entriesCount + 1 }) := by
      unfold resize at hres ⊢
      by_cases hfull : t.mainHash.capacity / 2 ≤ t.entriesCount
      · simp only [if_pos hfull, Option.bind_eq_bind, Option.bind_eq_some_iff, Option.some.injEq,
          Prod.mk.injEq] at hres ⊢
        obtain ⟨c, hc, rfl, rfl⟩ := hres
        exact ⟨_, hc, rfl, rfl⟩
      · simp only [if_neg hfull, Option.some.injEq, Prod.mk.injEq, true_and] at hres ⊢
        rw [← hres]
    have hlt : t.entriesCount < t₁.mainHash.capacity / 2 + t₁.mainHash.capacity / 4 := by omega
    simp only [innerAdd, addLoop, hres', if_pos hlt, hadd, Option.bind_eq_bind, Option.bind_some]
  · by_cases hkk : k' = k
    · subst hkk
      have hself : (t₁.mainHash.put i k' v).Holds k' v := HashNode.holds_put_self hi
      rw [Finmap.lookup_insert]
      constructor
      · rintro ⟨⟩
        exact Or.inl hself
      · rintro (hh | ⟨ha, -⟩)
        · rw [hwf.holds_unique hh hself]
        · exact absurd ha hself.not_absent
    · rw [Finmap.lookup_insert_of_ne _ hkk, h₁.lookup k' v']
      exact or_congr (HashNode.holds_put_of_ne hnone hkk).symm
        (and_congr_left' (HashNode.absent_put_iff hnone hkk).symm)
  · rw [card_insert hk, ← h.count]
  · show t.entriesCount + 1 ≤ t₁.mainHash.capacity / 2
    omega

/-- Storing the value of a key in its slot of the newest table. -/
theorem storeSecond (h : Represents hash t m) (hi : i < t.mainHash.capacity) (hk : t.mainHash.first i = some k)
    (v : V) : Represents hash { t with mainHash := t.mainHash.storeSecond i v } (m.insert k v) := by
  have hkeys : (m.insert k v).keys = m.keys := by
    ext x
    rw [Finmap.mem_keys, Finmap.mem_insert, Finmap.mem_keys]
    refine ⟨?_, Or.inr⟩
    rintro (rfl | hx)
    · exact h.mem_of_first hi hk
    · exact hx
  refine ⟨h.main.storeSecond v, h.prev, h.prevFree, fun k' v' => ?_, by rw [hkeys]; exact h.count, h.half⟩
  have hholds : (t.mainHash.storeSecond i v).Holds k' v' ↔ if k' = k then v' = v else t.mainHash.Holds k' v' :=
    h.main.holds_storeSecond hi hk
  by_cases hkk : k' = k
  · subst hkk
    rw [Finmap.lookup_insert, Option.some.injEq]
    rw [if_pos rfl] at hholds
    have hnot : ¬ (t.mainHash.storeSecond i v).Absent k' := fun ha => ha i hi hk
    exact ⟨fun heq => Or.inl (hholds.mpr heq.symm), fun hch => (hholds.mp (hch.resolve_right fun hh => hnot hh.1)).symm⟩
  · rw [Finmap.lookup_insert_of_ne _ hkk, h.lookup k' v']
    rw [if_neg hkk] at hholds
    exact or_congr hholds.symm Iff.rfl

end Represents

/-! ## Runs -/

/-- **The map a table is meant to be**: what a call gives and the map after it. -/
def mapExec : Call K V → Map K V → Result V × Map K V
  | .get k, m => (.got (m.lookup k), m)
  | .set k v, m => (.set true, m.insert k v)
  | .getOrAdd k v, m =>
      match m.lookup k with
      | some v => (.gotOrAdded .getSuccess v, m)
      | none => (.gotOrAdded .addSuccess v, m.insert k v)

/-- The map through a whole run, with the number of its keys after each call. -/
def mapRun : List (Call K V) → Map K V → List (Result V × ℕ)
  | [], _ => []
  | c :: cs, m => ((mapExec c m).1, (mapExec c m).2.keys.card) :: mapRun cs (mapExec c m).2

/-- **Step.** -/
theorem Represents.exec (h : Represents hash t m) (w : ℕ) (c : Call K V) :
    ∃ t', t.exec hash w c = some ((mapExec c m).1, t') ∧ Represents hash t' (mapExec c m).2 := by
  cases c with
  | get k =>
      rcases h.innerGetEntry_cases k with ⟨i, t', v, hget, h', hlook, -, -, hv⟩ | ⟨hget, hlook, -⟩
      · refine ⟨t', ?_, h'⟩
        simp only [HashTable.exec, HashTable.get, hget, hv, mapExec, hlook, Option.bind_eq_bind, Option.bind_some,
          Option.map_some]
      · refine ⟨t, ?_, h⟩
        simp only [HashTable.exec, HashTable.get, hget, mapExec, hlook, Option.bind_eq_bind, Option.bind_some,
          Option.map_some]
  | set k v =>
      rcases h.innerGetEntry_cases k with ⟨i, t', v', hget, h', -, hi, hk, -⟩ | ⟨hget, hlook, -⟩
      · refine ⟨_, ?_, h'.storeSecond hi hk v⟩
        simp only [HashTable.exec, HashTable.set, hget, mapExec, Option.bind_eq_bind, Option.bind_some,
          Option.map_some]
      · obtain ⟨t', hadd, h'⟩ := h.innerAdd_eq w hlook v
        refine ⟨t', ?_, h'⟩
        simp only [HashTable.exec, HashTable.set, hget, hadd, mapExec, Option.bind_eq_bind, Option.bind_some,
          Option.map_some]
  | getOrAdd k v =>
      rcases h.innerGetEntry_cases k with ⟨i, t', v', hget, h', hlook, -, -, hv⟩ | ⟨hget, hlook, -⟩
      · refine ⟨t', ?_, ?_⟩
        · simp only [HashTable.exec, HashTable.getOrAdd, hget, hv, mapExec, hlook, Option.bind_eq_bind,
            Option.bind_some, Option.map_some]
        · simp only [mapExec, hlook]
          exact h'
      · obtain ⟨t', hadd, h'⟩ := h.innerAdd_eq w hlook v
        refine ⟨t', ?_, ?_⟩
        · simp only [HashTable.exec, HashTable.getOrAdd, hget, hadd, mapExec, hlook, Option.bind_eq_bind,
            Option.bind_some, Option.map_some]
        · simp only [mapExec, hlook]
          exact h'

/-- **Run.** -/
theorem Represents.run (h : Represents hash t m) (w : ℕ) (cs : List (Call K V)) :
    ∃ t', t.run hash w cs = some (mapRun cs m, t') := by
  induction cs generalizing t m with
  | nil => exact ⟨t, rfl⟩
  | cons c cs ih =>
      obtain ⟨t₁, hexec, h₁⟩ := h.exec w c
      obtain ⟨t₂, hrun⟩ := ih h₁
      refine ⟨t₂, ?_⟩
      simp only [HashTable.run, hexec, hrun, getSize, h₁.count, mapRun, Option.bind_eq_bind, Option.bind_some]

theorem Represents.fresh (hash : K → ℕ) (e : ℕ) : Represents hash (HashTable.fresh (2 ^ e)) (∅ : Map K V) := by
  refine ⟨.create hash ⟨e, rfl⟩, by simp [HashTable.fresh], by simp [HashTable.fresh], fun k v => ?_, rfl,
    Nat.zero_le _⟩
  rw [Finmap.lookup_empty]
  refine ⟨nofun, ?_⟩
  rintro (hh | ⟨-, hh⟩)
  · exact absurd (HashNode.absent_create _ k) hh.not_absent
  · exact hh.elim

/-- **A `HashTable` used by one call after another is a finite map**, and `GetSize()` the number of its
    keys. -/
theorem run_eq_mapRun (hash : K → ℕ) (w e : ℕ) (cs : List (Call K V)) :
    ∃ t, (HashTable.fresh (2 ^ e)).run hash w cs = some (mapRun cs ∅, t) :=
  (Represents.fresh hash e).run w cs

end HashTable

end LockFreeStructures
