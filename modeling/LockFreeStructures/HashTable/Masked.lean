import Mathlib.Data.Nat.Factorization.Basic
import LockFreeStructures.HashTable.FiniteMap

/-!
# `HashTable.Masked` — which capacities the mask works for

An index is masked with `Capacity - 1`, which takes the remainder where the capacity is a power of two. With any other
capacity a probe goes round a run of slots only, as many as the largest power of two that divides the capacity.
-/

namespace LockFreeStructures

namespace HashTable

variable {K V : Type}

namespace Masked

/-! ## Other capacities -/

/-- The table after the keys below `j`, which all hash to 0, have gone into the first `j` slots. -/
def crowded (C j : ℕ) : HashTable ℕ ℕ where
  entriesCount := j
  mainHash := ⟨C, fun i => if i < j then some i else none, fun i => if i < j then some 0 else none⟩
  prev := []

section Crowded

variable {a q j w : ℕ}

theorem crowded_zero (C : ℕ) : crowded C 0 = HashTable.fresh C := by
  simp [crowded, HashTable.fresh, createNewHashNode]

/-- Before half of the slots are used, the low run of them is full. -/
theorem run_lt_half (hq : 0 < q) : 2 ^ a ≤ 2 ^ a * (2 * q + 1) / 2 := by
  have := Nat.le_mul_of_pos_right (2 ^ a) hq
  rw [Nat.le_div_iff_mul_le Nat.two_pos, Nat.mul_add, Nat.mul_left_comm]
  omega

theorem probeSlots_crowded (stop : ℕ → Bool) : (crowded (2 ^ a * (2 * q + 1)) j).mainHash.probeSlots stop 0 =
    probe stop (2 ^ a) (2 ^ a * (2 * q + 1)) 0 := by
  rw [HashNode.probeSlots]
  refine ((LowOnes.of_odd a q).probeMask_eq 0 _).trans ?_
  simp [crowded]

/-- The first free slot on the path of hash 0. -/
theorem probeSlots_free (hj : j < 2 ^ a) {stop : ℕ → Bool} (hstop : stop j = true) (hpass : ∀ i < j, stop i = false) :
    (crowded (2 ^ a * (2 * q + 1)) j).mainHash.probeSlots stop 0 = some j := by
  have hle : 2 ^ a ≤ 2 ^ a * (2 * q + 1) := Nat.le_mul_of_pos_right _ (Nat.succ_pos _)
  have hmod : ∀ i ≤ j, (0 + i) % 2 ^ a = i := fun i hi => by rw [Nat.zero_add, Nat.mod_eq_of_lt (by omega)]
  rw [probeSlots_crowded, probe_eq_some (hj.trans_le hle) (by rw [hmod j le_rfl, hstop]) fun i hi => ?_, hmod j le_rfl]
  rw [hmod i hi.le, hpass i hi]

/-- Another key goes into the next slot. -/
theorem exec_crowded (hq : 0 < q) (hj : j < 2 ^ a) :
    (crowded (2 ^ a * (2 * q + 1)) j).exec (fun _ => 0) w (.getOrAdd j 0) =
      some (.gotOrAdded .addSuccess 0, crowded (2 ^ a * (2 * q + 1)) (j + 1)) := by
  have hhalf := @run_lt_half a q hq
  have hfind : (crowded (2 ^ a * (2 * q + 1)) j).mainHash.findEntry 0 j = some none := by
    rw [HashNode.findEntry, probeSlots_free hj (by simp [crowded]) fun i hi => ?_]
    · simp [crowded]
    · simp [crowded, hi, hi.ne]
  have hadd : (crowded (2 ^ a * (2 * q + 1)) j).mainHash.addEntry 0 j 0 =
      some (j, (crowded (2 ^ a * (2 * q + 1)) j).mainHash.put j j 0) := by
    rw [HashNode.addEntry, probeSlots_free hj (by simp [crowded]) fun i hi => ?_]
    · rfl
    · simp [crowded, hi]
  have hput : (crowded (2 ^ a * (2 * q + 1)) j).mainHash.put j j 0 = (crowded (2 ^ a * (2 * q + 1)) (j + 1)).mainHash := by
    have hfilled : ∀ (f : ℕ → ℕ) i, Function.update (fun i => if i < j then some (f i) else none) j (some (f j)) i =
        if i < j + 1 then some (f i) else none := by
      intro f i
      by_cases hij : i = j
      · rw [hij, Function.update_self, if_pos (Nat.lt_succ_self j)]
      · rw [Function.update_of_ne hij]
        exact if_congr (by omega) rfl rfl
    exact congrArg₂ (HashNode.mk _) (funext (hfilled id)) (funext (hfilled fun _ => 0))
  have hcount : (crowded (2 ^ a * (2 * q + 1)) j).entriesCount = j := rfl
  have hcap : (crowded (2 ^ a * (2 * q + 1)) j).mainHash.capacity = 2 ^ a * (2 * q + 1) := rfl
  have hroom : j < 2 ^ a * (2 * q + 1) / 2 + 2 ^ a * (2 * q + 1) / 4 := by omega
  simp only [exec, getOrAdd, innerGetEntry, hfind, show (crowded (2 ^ a * (2 * q + 1)) j).prev = [] from rfl, findPrev,
    Option.bind_eq_bind, Option.bind_some, innerAdd, addLoop, HashTable.resize, hcount, hcap,
    if_neg (show ¬ 2 ^ a * (2 * q + 1) / 2 ≤ j by omega), if_pos hroom, hadd, hput, Option.map_some]
  rfl

/-- **The low run full, the search for one more key never ends.** -/
theorem exec_crowded_full :
    (crowded (2 ^ a * (2 * q + 1)) (2 ^ a)).exec (fun _ => 0) w (.getOrAdd (2 ^ a) 0) = none := by
  have hfind : (crowded (2 ^ a * (2 * q + 1)) (2 ^ a)).mainHash.findEntry 0 (2 ^ a) = none := by
    rw [HashNode.findEntry]
    refine Option.map_eq_none_iff.mpr ((LowOnes.of_odd a q).probeMask_eq_none (h := 0) (fun i hi => ?_) _)
    simp [crowded, hi, hi.ne]
  simp only [exec, getOrAdd, innerGetEntry, hfind, Option.bind_eq_bind, Option.bind_none, Option.map_none]

theorem run_crowded (hq : 0 < q) {m : ℕ} (hj : j + m = 2 ^ a + 1) (hm : 0 < m) :
    (crowded (2 ^ a * (2 * q + 1)) j).run (fun _ => 0) w ((List.range' j m).map fun k => .getOrAdd k 0) = none := by
  induction m generalizing j with
  | zero => exact absurd hm (Nat.lt_irrefl 0)
  | succ m ih =>
      rw [List.range'_succ, List.map_cons, run]
      rcases Nat.eq_zero_or_pos m with rfl | hm
      · obtain rfl : j = 2 ^ a := by omega
        rw [exec_crowded_full]
        rfl
      · rw [exec_crowded hq (by omega)]
        simp only [Option.bind_eq_bind, Option.bind_some, ih (show j + 1 + m = 2 ^ a + 1 by omega) hm, Option.bind_none]

end Crowded

end Masked

/-! ## Which capacities work -/

/-- The key a call may add. -/
def Call.addedKey : Call K V → Option K
  | .getOrAdd k _ => some k
  | _ => none

/-- `GetOrAdd` and `Get` only, and no key is added twice. -/
structure DistinctAdds (cs : List (Call K V)) : Prop where
  calls : ∀ c ∈ cs, ∀ k v, c ≠ .set k v
  distinct : (cs.filterMap Call.addedKey).Nodup

/-- Whatever the keys, the hash and the calls, all loops end and every key added is found with its value. -/
def Works (w C : ℕ) : Prop :=
  ∀ (K V : Type) [DecidableEq K] (hash : K → ℕ) (cs : List (Call K V)), DistinctAdds cs →
    ∃ rs t, (HashTable.fresh C).run hash w cs = some (rs, t) ∧
      ∀ k v, .getOrAdd k v ∈ cs → ∃ t', t.get hash k = some (some v, t')

/-- A table finds what it has. -/
theorem Represents.get_eq [DecidableEq K] {hash : K → ℕ} {t : HashTable K V} {m : Map K V} {k : K} {v : V}
    (h : Represents hash t m) (hk : m.lookup k = some v) : ∃ t', t.get hash k = some (some v, t') := by
  rcases h.innerGetEntry_cases k with ⟨i, t', v', hget, -, hlook, -, -, hv⟩ | ⟨-, hlook, -⟩
  · obtain rfl : v = v' := Option.some.inj (hk.symm.trans hlook)
    refine ⟨t', ?_⟩
    simp only [HashTable.get, hget, hv, Option.bind_eq_bind, Option.bind_some, Option.map_some]
  · rw [hlook] at hk
    cases hk

/-- **Run.** Keys that are in the map stay, and those added get in. -/
theorem Represents.run_distinctAdds [DecidableEq K] {hash : K → ℕ} {t : HashTable K V} {m : Map K V}
    (h : Represents hash t m) (w : ℕ) {cs : List (Call K V)} (hcs : DistinctAdds cs)
    (hnew : ∀ k ∈ cs.filterMap Call.addedKey, m.lookup k = none) :
    ∃ rs t' m', t.run hash w cs = some (rs, t') ∧ Represents hash t' m' ∧
      (∀ k v, m.lookup k = some v → m'.lookup k = some v) ∧ ∀ k v, .getOrAdd k v ∈ cs → m'.lookup k = some v := by
  induction cs generalizing t m with
  | nil => exact ⟨[], t, m, rfl, h, fun _ _ hk => hk, fun _ _ hmem => absurd hmem List.not_mem_nil⟩
  | cons c cs ih =>
      obtain ⟨t₁, hexec, h₁⟩ := h.exec w c
      have hrun : ∀ {rs t'}, t₁.run hash w cs = some (rs, t') →
          t.run hash w (c :: cs) = some (((mapExec c m).1, t₁.getSize) :: rs, t') := fun hr => by
        simp only [HashTable.run, hexec, hr, Option.bind_eq_bind, Option.bind_some]
      cases c with
      | set k v => exact absurd rfl (hcs.calls _ (List.mem_cons_self ..) k v)
      | get k =>
          have hcs' : DistinctAdds cs := ⟨fun c hc => hcs.calls c (List.mem_cons_of_mem _ hc), hcs.distinct⟩
          obtain ⟨rs, t', m', hr, h', hkept, hadded⟩ := ih h₁ hcs' hnew
          refine ⟨_, t', m', hrun hr, h', hkept, fun k' v' hmem => hadded k' v' ?_⟩
          exact (List.mem_cons.mp hmem).resolve_left (by rintro ⟨⟩)
      | getOrAdd k v =>
          have hkeys : (Call.getOrAdd k v :: cs).filterMap Call.addedKey = k :: cs.filterMap Call.addedKey := rfl
          have hdistinct := hcs.distinct
          rw [hkeys, List.nodup_cons] at hdistinct
          have hcs' : DistinctAdds cs := ⟨fun c hc => hcs.calls c (List.mem_cons_of_mem _ hc), hdistinct.2⟩
          have hk : m.lookup k = none := hnew k (hkeys ▸ List.mem_cons_self ..)
          have hmap : (mapExec (.getOrAdd k v) m).2 = m.insert k v := by simp only [mapExec, hk]
          rw [hmap] at h₁
          obtain ⟨rs, t', m', hr, h', hkept, hadded⟩ := ih h₁ hcs' fun k' hk' => by
            have hne : k' ≠ k := fun heq => hdistinct.1 (heq ▸ hk')
            rw [Finmap.lookup_insert_of_ne _ hne]
            exact hnew k' (hkeys ▸ List.mem_cons_of_mem _ hk')
          refine ⟨_, t', m', hrun hr, h', fun k' v' hk' => hkept k' v' ?_, fun k' v' hmem => ?_⟩
          · have hne : k' ≠ k := fun heq => by rw [heq, hk] at hk'; cases hk'
            rwa [Finmap.lookup_insert_of_ne _ hne]
          · rcases List.mem_cons.mp hmem with heq | hmem
            · obtain ⟨rfl, rfl⟩ := Call.getOrAdd.inj heq
              exact hkept k' v' (Finmap.lookup_insert _)
            · exact hadded k' v' hmem

/-- **A table size works if and only if it is a power of two.** -/
theorem works_iff {w C : ℕ} (hC : 0 < C) : Works w C ↔ ∃ e, C = 2 ^ e := by
  constructor
  · intro h
    obtain ⟨a, r, hr, rfl⟩ := Nat.exists_eq_two_pow_mul_odd hC.ne'
    obtain ⟨q, rfl⟩ := hr
    by_cases hq0 : q = 0
    · exact ⟨a, by rw [hq0]; simp⟩
    · -- one key more than the low run of slots takes
      have hadds : DistinctAdds ((List.range' 0 (2 ^ a + 1)).map fun k => (.getOrAdd k 0 : Call ℕ ℕ)) := by
        refine ⟨by simp, ?_⟩
        rw [List.filterMap_map]
        refine (List.nodup_range' _).filterMap ?_
        rintro k k' _ ⟨⟩ ⟨⟩
        rfl
      obtain ⟨rs, t, hrun, -⟩ := h ℕ ℕ (fun _ => 0) _ hadds
      rw [← Masked.crowded_zero, Masked.run_crowded (Nat.pos_of_ne_zero hq0) (Nat.zero_add _) (Nat.succ_pos _)] at hrun
      exact nomatch hrun
  · rintro ⟨e, rfl⟩ K V _ hash cs hcs
    obtain ⟨rs, t, m, hrun, h, -, hadded⟩ := (Represents.fresh hash e).run_distinctAdds w hcs fun _ _ =>
      Finmap.lookup_empty _
    exact ⟨rs, t, hrun, fun k v hk => h.get_eq (hadded k v hk)⟩

theorem works_1024 : Works 64 1024 := (works_iff (by decide)).mpr ⟨10, rfl⟩

/-- **Three slots do not.** Two keys of hash 0, and the second is looked for in slot 0 for ever. -/
theorem not_works_three : ¬ Works 64 3 := by
  intro h
  have hadds : DistinctAdds [(.getOrAdd 1 0 : Call ℕ ℕ), .getOrAdd 2 0] := ⟨by simp, by simp [Call.addedKey]⟩
  obtain ⟨rs, t, hrun, -⟩ := h ℕ ℕ (fun _ => 0) _ hadds
  exact nomatch hrun

end HashTable

end LockFreeStructures
