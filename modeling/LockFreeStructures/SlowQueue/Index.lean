import LockFreeStructures.SlowQueue.Defs
import LockFreeStructures.Queue.Numbering

/-!
# `SlowQueue.Index` — block numbers in the index array

The entry of block number `k` stands in slot `c + k`, counted round the array, whatever the tail is; the slots of
one turn, from the oldest number `k₀` on, are `k₀` to `k₀ + Size - 1`. Inserting, rewinding and growing move the
tail, and growing moves `c`.
-/

namespace LockFreeStructures

namespace SlowQueue

variable {α : Type} {cfg : Cfg} {s s' s'' : SlowQueue α} {a : IndexEntryArray} {c k k₀ E M K n : ℕ}
  {v : ℕ → Option ℕ}

/-- The entry the pointer in a slot leads to, the slot counted round the array. -/
def IndexEntryArray.entryAt (a : IndexEntryArray) (i : ℕ) : ℕ := a.index (i % a.size)

/-! ## What the stores change -/

section Simp

variable {e e' : ℕ} {key : ℕ} {x : Option ℕ}

@[simp] theorem key_storeValue : ((s.storeValue e x).entries e').key = (s.entries e').key := by
  by_cases h : e' = e
  · subst h
    simp [storeValue]
  · simp [storeValue, h]

theorem value_storeValue : ((s.storeValue e x).entries e').value = if e' = e then x else (s.entries e').value := by
  by_cases h : e' = e
  · subst h
    simp [storeValue]
  · simp [storeValue, h]

theorem key_storeKey : ((s.storeKey e key).entries e').key = if e' = e then key else (s.entries e').key := by
  by_cases h : e' = e
  · subst h
    simp [storeKey]
  · simp [storeKey, h]

@[simp] theorem value_storeKey : ((s.storeKey e key).entries e').value = (s.entries e').value := by
  by_cases h : e' = e
  · subst h
    simp [storeKey]
  · simp [storeKey, h]

end Simp

/-! ## The layout of the index -/

/-- The entries of the numbers from `k₀` up to `E` have their keys, `v` tells the values of one turn, and the
    tail is at the entry before that of number `M`. -/
structure IndexLayout (cfg : Cfg) (s : SlowQueue α) (a : IndexEntryArray) (c k₀ E M : ℕ) (v : ℕ → Option ℕ) :
    Prop where
  arr : s.currentIndexEntryArray = some a
  size : ∃ e, a.size = 2 ^ e
  nextSize : s.indexEntriesSize = 2 * a.size
  /-- a lookup may go through the whole array without its distance wrapping -/
  span : a.size * cfg.blockSize ∣ 2 ^ cfg.w ∨ cfg.blockSize = 2 ^ (cfg.w - 1) ∧ M = 0
  tail_lt : a.tail < a.size
  tail : a.tail + 1 ≡ c + M [MOD a.size]
  inj : ∀ i < a.size, ∀ j < a.size, a.index i = a.index j → i = j
  issued : ∀ i < a.size, a.index i < s.entryCount
  window : E ≤ k₀ + a.size
  keys : ∀ k, k₀ ≤ k → k < E → (s.entries (a.entryAt (c + k))).key = k * cfg.blockSize % 2 ^ cfg.w
  values : ∀ k, k₀ ≤ k → k < k₀ + a.size → (s.entries (a.entryAt (c + k))).value = v k

/-- The array `a'`, counted from `c'`, has the entries of the numbers from `k₀` up to `K` where `a`, counted from
    `c`, has them. It is the same array up to the tail unless it grew. -/
structure SameEntries (a : IndexEntryArray) (c : ℕ) (a' : IndexEntryArray) (c' k₀ K : ℕ) : Prop where
  kept : ∀ k, k₀ ≤ k → k < K → a'.entryAt (c' + k) = a.entryAt (c + k)
  size_le : a.size ≤ a'.size
  same : a'.size = a.size → a'.index = a.index ∧ c' = c

namespace SameEntries

variable {a' a'' : IndexEntryArray} {c' c'' : ℕ}

theorem of_index (hsize : a'.size = a.size) (hindex : a'.index = a.index) : SameEntries a c a' c k₀ K := by
  refine ⟨fun k _ _ => ?_, hsize.ge, fun _ => ⟨hindex, rfl⟩⟩
  rw [IndexEntryArray.entryAt, IndexEntryArray.entryAt, hsize, hindex]

theorem refl (a : IndexEntryArray) (c k₀ K : ℕ) : SameEntries a c a c k₀ K := of_index rfl rfl

theorem trans (h : SameEntries a c a' c' k₀ K) (h' : SameEntries a' c' a'' c'' k₀ K) : SameEntries a c a'' c'' k₀ K := by
  refine ⟨fun k hk hkK => (h'.kept k hk hkK).trans (h.kept k hk hkK), h.size_le.trans h'.size_le, fun heq => ?_⟩
  have hmid : a'.size = a.size := le_antisymm (heq ▸ h'.size_le) h.size_le
  obtain ⟨hi, hc⟩ := h.same hmid
  obtain ⟨hi', hc'⟩ := h'.same (heq.trans hmid.symm)
  exact ⟨hi'.trans hi, hc'.trans hc⟩

theorem mono (h : SameEntries a c a' c' k₀ K) (hK : n ≤ K) : SameEntries a c a' c' k₀ n :=
  ⟨fun k hk hkn => h.kept k hk (hkn.trans_le hK), h.size_le, h.same⟩

end SameEntries

/-- The queue has changed in its index only. -/
structure IndexOnly (s s' : SlowQueue α) : Prop where
  rest : s' = { s with
    currentIndexEntryArray := s'.currentIndexEntryArray, indexEntriesSize := s'.indexEntriesSize
    entries := s'.entries, entryCount := s'.entryCount, allocs := s'.allocs }

namespace IndexOnly

theorem refl (s : SlowQueue α) : IndexOnly s s := ⟨rfl⟩

theorem trans (h : IndexOnly s s') (h' : IndexOnly s' s'') : IndexOnly s s'' := by
  refine ⟨?_⟩
  rw [h'.rest, h.rest]

theorem storeValue (s : SlowQueue α) (e : ℕ) (x : Option ℕ) : IndexOnly s (s.storeValue e x) := ⟨rfl⟩

end IndexOnly

namespace IndexLayout

theorem size_pos (h : IndexLayout cfg s a c k₀ E M v) : 0 < a.size := Nat.zero_lt_of_lt h.tail_lt

theorem congr (h : IndexLayout cfg s a c k₀ E M v) (ha : s'.currentIndexEntryArray = s.currentIndexEntryArray)
    (hn : s'.indexEntriesSize = s.indexEntriesSize) (he : s'.entries = s.entries)
    (hc : s'.entryCount = s.entryCount) : IndexLayout cfg s' a c k₀ E M v :=
  ⟨ha.trans h.arr, h.size, hn.trans h.nextSize, h.span, h.tail_lt, h.tail, h.inj, hc ▸ h.issued, h.window,
    he ▸ h.keys, he ▸ h.values⟩

/-- The slots of one turn are different. -/
theorem entryAt_inj (h : IndexLayout cfg s a c k₀ E M v) {k' : ℕ} (hk : k₀ ≤ k) (hlt : k < k₀ + a.size)
    (hk' : k₀ ≤ k') (hlt' : k' < k₀ + a.size) (heq : a.entryAt (c + k) = a.entryAt (c + k')) : k = k' := by
  obtain ⟨d, rfl⟩ := Nat.exists_eq_add_of_le hk
  obtain ⟨d', rfl⟩ := Nat.exists_eq_add_of_le hk'
  have hmod : c + (k₀ + d) ≡ c + (k₀ + d') [MOD a.size] :=
    h.inj _ (Nat.mod_lt _ h.size_pos) _ (Nat.mod_lt _ h.size_pos) heq
  have hd := (hmod.add_left_cancel' c).add_left_cancel' k₀
  rw [hd.eq_of_lt_of_lt (Nat.add_lt_add_iff_left.mp hlt) (Nat.add_lt_add_iff_left.mp hlt')]

/-- A turn later the slot is the same. -/
theorem entryAt_add_size (a : IndexEntryArray) (i : ℕ) : a.entryAt (i + a.size) = a.entryAt i := by
  rw [IndexEntryArray.entryAt, Nat.add_mod_right, IndexEntryArray.entryAt]

theorem tail_eq (h : IndexLayout cfg s a c k₀ E (M + 1) v) : a.tail = (c + M) % a.size := by
  have hmod : a.tail ≡ c + M [MOD a.size] := Nat.ModEq.add_right_cancel' 1 h.tail
  exact (Nat.mod_eq_of_lt h.tail_lt).symm.trans hmod

theorem get_mod (h : IndexLayout cfg s a c k₀ E M v) (i : ℕ) : a.get (i % a.size) = some (a.entryAt i) :=
  if_pos (Nat.mod_lt _ h.size_pos)

theorem span_of_pos (h : IndexLayout cfg s a c k₀ E M v) (hM : 0 < M) : a.size * cfg.blockSize ∣ 2 ^ cfg.w :=
  h.span.resolve_right fun hne => Nat.ne_of_gt hM hne.2

theorem size_dvd (h : IndexLayout cfg s a c k₀ E M v) (hM : 0 < M) : a.size ∣ 2 ^ cfg.w :=
  (Nat.dvd_mul_right _ _).trans (h.span_of_pos hM)

/-- With no number from `k₀` on having a value, no entry of the array has one. -/
theorem value_index (h : IndexLayout cfg s a c k₀ E M v) (hv : ∀ k, k₀ ≤ k → v k = none) {i : ℕ} (hi : i < a.size) :
    (s.entries (a.index i)).value = none := by
  have hpos : 0 < a.size := Nat.zero_lt_of_lt hi
  -- the number on slot `i` within one turn from `k₀` on
  have hslot : (c + (k₀ + (i + (c + k₀) * (a.size - 1)) % a.size)) % a.size = i := by
    have hturns : c + k₀ + (i + (c + k₀) * (a.size - 1)) = i + (c + k₀) * a.size := by
      have hle := Nat.le_mul_of_pos_right (c + k₀) hpos
      rw [Nat.mul_sub_one]
      omega
    rw [← Nat.add_assoc, Nat.add_mod_mod, hturns, Nat.add_mul_mod_self_right, Nat.mod_eq_of_lt hi]
  have hvalue := h.values (k₀ + (i + (c + k₀) * (a.size - 1)) % a.size) (Nat.le_add_right _ _)
    (Nat.add_lt_add_left (Nat.mod_lt _ hpos) _)
  rw [IndexEntryArray.entryAt, hslot] at hvalue
  exact hvalue.trans (hv _ (Nat.le_add_right _ _))

/-! ## Lookup -/

/-- The slot of an element's block, relative to the key at the tail. -/
theorem getBlockIndexIndexForIndex (h : IndexLayout cfg s a c k₀ E (M + 1) v) (hM : k₀ ≤ M) (hME : M < E) (n : ℕ) :
    s.getBlockIndexIndexForIndex cfg (n % 2 ^ cfg.w) = some ((c + n / cfg.blockSize) % a.size) := by
  have hkey := h.keys M hM hME
  have hmod : a.tail ≡ c + M [MOD a.size] := Nat.ModEq.add_right_cancel' 1 h.tail
  have hslot := add_sub_div_modEq (k := n / cfg.blockSize) (h.span_of_pos (Nat.succ_pos M)) cfg.blockSizeLog2_le hmod
  have htail : a.get a.tail = some (a.entryAt (c + M)) := by
    rw [h.tail_eq]
    exact h.get_mod _
  simp only [SlowQueue.getBlockIndexIndexForIndex, h.arr, Option.bind_eq_bind, Option.bind_some, htail, hkey,
    Word.alignDown_mod cfg.blockSizeLog2_le]
  rw [Word.add, Nat.mod_mod_of_dvd _ (h.size_dvd (Nat.succ_pos M))]
  exact congrArg some hslot

theorem getBlockIndexEntryForIndex (h : IndexLayout cfg s a c k₀ E (M + 1) v) (hM : k₀ ≤ M) (hME : M < E) (n : ℕ) :
    s.getBlockIndexEntryForIndex cfg (n % 2 ^ cfg.w) = some (a.entryAt (c + n / cfg.blockSize)) := by
  simp only [SlowQueue.getBlockIndexEntryForIndex, h.getBlockIndexIndexForIndex hM hME, h.arr, Option.bind_eq_bind,
    Option.bind_some, h.get_mod]

/-! ## Storing -/

theorem storeValue (h : IndexLayout cfg s a c k₀ E M v) (hk : k₀ ≤ k) (hlt : k < k₀ + a.size) (x : Option ℕ) :
    IndexLayout cfg (s.storeValue (a.entryAt (c + k)) x) a c k₀ E M (Function.update v k x) := by
  refine ⟨h.arr, h.size, h.nextSize, h.span, h.tail_lt, h.tail, h.inj, h.issued, h.window, fun j hj hjE => ?_,
    fun j hj hjlt => ?_⟩
  · rw [key_storeValue]
    exact h.keys j hj hjE
  · rw [value_storeValue]
    by_cases heq : j = k
    · rw [heq, if_pos rfl, Function.update_self]
    · rw [Function.update_of_ne heq, if_neg fun he => heq (h.entryAt_inj hj hjlt hk hlt he)]
      exact h.values j hj hjlt

/-- Keys may be forgotten. -/
theorem shrink (h : IndexLayout cfg s a c k₀ E M v) {E' : ℕ} (hE : E' ≤ E) : IndexLayout cfg s a c k₀ E' M v :=
  ⟨h.arr, h.size, h.nextSize, h.span, h.tail_lt, h.tail, h.inj, h.issued, hE.trans h.window,
    fun k hk hkE => h.keys k hk (hkE.trans_le hE), h.values⟩

/-- The oldest entries, without values by now, are the newest of the next turn. -/
theorem advance (h : IndexLayout cfg s a c k₀ E M v) {k₁ : ℕ} (hk : k₀ ≤ k₁) (hkE : k₁ ≤ E)
    (hold : ∀ k, k₀ ≤ k → k < k₁ → v k = none) (hnew : ∀ k, E ≤ k → v k = none) :
    IndexLayout cfg s a c k₁ E M v := by
  have hwin := h.window
  refine ⟨h.arr, h.size, h.nextSize, h.span, h.tail_lt, h.tail, h.inj, h.issued, by omega,
    fun k hk' => h.keys k (hk.trans hk'), fun k hk' hlt => ?_⟩
  by_cases hturn : k < k₀ + a.size
  · exact h.values k (hk.trans hk') hturn
  · obtain ⟨d, rfl⟩ := Nat.exists_eq_add_of_le' (show a.size ≤ k by omega)
    rw [← Nat.add_assoc, entryAt_add_size, h.values d (by omega) (by omega), hold d (by omega) (by omega),
      hnew _ (by omega)]

/-- The entry behind the tail gets the next number's key. -/
theorem takeIndexEntry (h : IndexLayout cfg s a c k₀ K K v) (hk : k₀ ≤ K) (hlt : K < k₀ + a.size)
    (hspan : a.size * cfg.blockSize ∣ 2 ^ cfg.w) :
    ∃ s', s.takeIndexEntry (K * cfg.blockSize % 2 ^ cfg.w) = some (a.entryAt (c + K), s') ∧ IndexOnly s s' ∧
      s'.allocs = s.allocs ∧
      IndexLayout cfg s' { a with tail := (a.tail + 1) % a.size } c k₀ (K + 1) (K + 1) v := by
  have hslot : (a.tail + 1) % a.size = (c + K) % a.size := h.tail
  have hget : a.get ((a.tail + 1) % a.size) = some (a.entryAt (c + K)) := by
    rw [hslot]
    exact h.get_mod _
  refine ⟨(s.storeKey (a.entryAt (c + K)) (K * cfg.blockSize % 2 ^ cfg.w)).storeTail ((a.tail + 1) % a.size), ?_, ⟨rfl⟩,
    rfl, ⟨by simp [storeTail, storeKey, h.arr], h.size, h.nextSize, Or.inl hspan, Nat.mod_lt _ h.size_pos, ?_, h.inj,
      h.issued, by show K + 1 ≤ k₀ + a.size; omega, fun k hk' hkE => ?_, fun k hk' hlt' => ?_⟩⟩
  · simp only [SlowQueue.takeIndexEntry, h.arr, Option.bind_eq_bind, Option.bind_some, hget]
  · show (a.tail + 1) % a.size + 1 ≡ c + (K + 1) [MOD a.size]
    exact ((Nat.mod_modEq _ _).trans h.tail).add_right 1
  · refine key_storeKey.trans ?_
    by_cases heq : k = K
    · rw [heq]
      exact if_pos rfl
    · exact (if_neg fun he => heq (h.entryAt_inj hk' (by omega) hk hlt he)).trans (h.keys k hk' (by omega))
  · exact value_storeKey.trans (h.values k hk' hlt')

/-- The tail goes back by one. -/
theorem rewindBlockIndexTail (h : IndexLayout cfg s a c k₀ E (M + 1) v) :
    ∃ s' a', s.rewindBlockIndexTail cfg = some s' ∧ IndexOnly s s' ∧ s'.allocs = s.allocs ∧
      a'.size = a.size ∧ a'.index = a.index ∧ IndexLayout cfg s' a' c k₀ E M v := by
  have hpos := h.size_pos
  have htail : Word.sub cfg.w a.tail 1 % a.size = slotBack a.size a.tail 1 :=
    sub_mod_eq_slotBack (h.size_dvd (Nat.succ_pos M)) h.tail_lt hpos
  refine ⟨s.storeTail (Word.sub cfg.w a.tail 1 % a.size), { a with tail := Word.sub cfg.w a.tail 1 % a.size }, ?_, ⟨rfl⟩,
    rfl, rfl, rfl, by simp [storeTail, h.arr], h.size, h.nextSize, Or.inl (h.span_of_pos (Nat.succ_pos M)),
    Nat.mod_lt _ hpos, ?_, h.inj, h.issued, h.window, h.keys, h.values⟩
  · simp only [SlowQueue.rewindBlockIndexTail, h.arr, Option.bind_eq_bind, Option.bind_some]
  · show Word.sub cfg.w a.tail 1 % a.size + 1 ≡ c + M [MOD a.size]
    have hback : slotBack a.size a.tail 1 + 1 ≡ a.tail [MOD a.size] := by
      unfold slotBack
      split
      · rw [Nat.sub_add_cancel ‹_›]
      · rw [show a.tail + a.size - 1 + 1 = a.tail + a.size by omega]
        exact Nat.add_mod_right _ _
    rw [htail]
    exact hback.trans (Nat.ModEq.add_right_cancel' 1 h.tail)

end IndexLayout

/-! ## Growing -/

/-- Only the allocations are used up; without failing ones the three succeed. -/
theorem allocateIndexArray_eq (s : SlowQueue α) : ∃ ok allocs,
    s.allocateIndexArray = (ok, { s with allocs := allocs }) ∧ (s.allocs = [] → ok = true ∧ allocs = []) := by
  by_cases hnil : s.allocs = []
  · exact ⟨true, [], by simp [allocateIndexArray, SlowQueue.allocate, hnil, LockFreeStructures.allocate],
      fun _ => ⟨rfl, rfl⟩⟩
  · suffices h : ∃ ok allocs, s.allocateIndexArray = (ok, { s with allocs := allocs }) by
      obtain ⟨ok, allocs, h⟩ := h
      exact ⟨ok, allocs, h, fun hal => absurd hal hnil⟩
    cases h₁ : s.allocate.1 with
    | false =>
        refine ⟨false, s.allocate.2.allocs, ?_⟩
        simp [allocateIndexArray, h₁]
        rfl
    | true =>
        cases h₂ : s.allocate.2.allocate.1 with
        | false =>
            refine ⟨false, s.allocate.2.allocate.2.allocs, ?_⟩
            simp [allocateIndexArray, h₁, h₂]
            rfl
        | true =>
            refine ⟨s.allocate.2.allocate.2.allocate.1, s.allocate.2.allocate.2.allocate.2.allocs, ?_⟩
            simp [allocateIndexArray, h₁, h₂]
            rfl

/-- The pointers are copied from the one behind the tail on, once round. -/
theorem copyIndex_eq (ht : a.tail < a.size) : ∀ {fuel j : ℕ} {new : ℕ → ℕ}, 0 < fuel → j + fuel = a.size →
    ∃ new', copyIndex a fuel ((a.tail + j) % a.size) j new = some new' ∧
      ∀ i < a.size, new' i = if i < j then new i else a.index ((a.tail + 1 + i) % a.size) := by
  intro fuel
  induction fuel with
  | zero => exact fun h => absurd h (Nat.lt_irrefl 0)
  | succ fuel ih =>
      intro j new _ hj
      have hnext : ((a.tail + j) % a.size + 1) % a.size = (a.tail + 1 + j) % a.size := by
        rw [Nat.mod_add_mod, Nat.add_right_comm]
      simp only [copyIndex, hnext]
      by_cases hlast : fuel = 0
      · have hback : (a.tail + 1 + j) % a.size = a.tail := by
          rw [show a.tail + 1 + j = a.tail + a.size by omega, Nat.add_mod_right, Nat.mod_eq_of_lt ht]
        rw [if_pos hback]
        refine ⟨_, rfl, fun i hi => ?_⟩
        by_cases hij : i = j
        · rw [hij, Function.update_self, if_neg (Nat.lt_irrefl j)]
        · rw [Function.update_of_ne hij, if_pos (by omega)]
      · have hne : (a.tail + 1 + j) % a.size ≠ a.tail := by
          intro heq
          have hmod : a.tail + (1 + j) ≡ a.tail + 0 [MOD a.size] := by
            rw [← Nat.add_assoc]
            exact heq.trans (Nat.mod_eq_of_lt ht).symm
          have := (hmod.add_left_cancel' _).eq_of_lt_of_lt (by omega) (by omega)
          omega
        rw [if_neg hne]
        obtain ⟨new', hcopy, hnew⟩ := @ih (j + 1) (Function.update new j (a.index ((a.tail + 1 + j) % a.size)))
          (Nat.pos_of_ne_zero hlast) (by omega)
        rw [show a.tail + (j + 1) = a.tail + 1 + j by omega] at hcopy
        refine ⟨new', hcopy, fun i hi => ?_⟩
        rw [hnew i hi]
        by_cases hij : i = j
        · rw [hij, if_pos (Nat.lt_succ_self j), Function.update_self, if_neg (Nat.lt_irrefl j)]
        · by_cases hlt : i < j
          · rw [if_pos (Nat.lt_succ_of_lt hlt), Function.update_of_ne hij, if_pos hlt]
          · rw [if_neg (by omega), if_neg hlt]

/-- **Growing.** The new array has the entries of a full turn first, and as many fresh ones behind them. -/
theorem IndexLayout.createNewBlockIndexArray (h : IndexLayout cfg s a c k₀ K K v) (hfull : K = k₀ + a.size)
    (hspan : 2 * a.size * cfg.blockSize ∣ 2 ^ cfg.w) (hnew : ∀ k, K ≤ k → v k = none) :
    (∃ s', s.createNewBlockIndexArray cfg = some (false, s') ∧ s' = { s with allocs := s'.allocs } ∧
      s.allocs ≠ []) ∨
    ∃ s' a' c', s.createNewBlockIndexArray cfg = some (true, s') ∧ IndexOnly s s' ∧
      (s.allocs = [] → s'.allocs = []) ∧ a'.size = 2 * a.size ∧ SameEntries a c a' c' k₀ K ∧
      IndexLayout cfg s' a' c' k₀ K K v := by
  obtain ⟨ok, allocs, halloc, hnil⟩ := allocateIndexArray_eq s
  have hpos := h.size_pos
  cases ok with
  | false =>
      refine Or.inl ⟨{ s with allocs := allocs }, ?_, rfl, fun hal => absurd (hnil hal).1 nofun⟩
      simp only [SlowQueue.createNewBlockIndexArray, halloc, Bool.not_false, if_pos]
  | true =>
      right
      obtain ⟨copied, hcopy, hcopied⟩ := @copyIndex_eq a h.tail_lt a.size 0 (fun _ => 0) hpos (Nat.zero_add _)
      rw [Nat.add_zero, Nat.mod_eq_of_lt h.tail_lt] at hcopy
      have hcopied' : ∀ j < a.size, copied j = a.entryAt (c + (k₀ + j)) := by
        intro j hj
        rw [hcopied j hj, if_neg (Nat.not_lt_zero j), IndexEntryArray.entryAt]
        congr 1
        refine (h.tail.add_right j).trans ?_
        rw [hfull, show c + (k₀ + a.size) + j = c + (k₀ + j) + a.size by omega]
        exact Nat.add_mod_right _ _
      have hsize : 2 * a.size ≤ 2 ^ cfg.w :=
        (Nat.le_mul_of_pos_right _ cfg.blockSize_pos).trans (Nat.le_of_dvd (Nat.two_pow_pos _) hspan)
      have htail : Word.sub cfg.w a.size 1 % (2 * a.size) = a.size - 1 := by
        rw [Word.sub_of_le hpos (by omega), Nat.mod_eq_of_lt (by omega)]
      let a' : IndexEntryArray := ⟨2 * a.size, a.size - 1,
        fun j => if a.size ≤ j ∧ j < a.size + a.size then s.entryCount + (j - a.size) else copied j⟩
      have hold : ∀ j < a.size, a'.index j = a.entryAt (c + (k₀ + j)) := fun j hj => by
        rw [← hcopied' j hj]
        exact if_neg (by omega)
      have hfresh : ∀ j, a.size ≤ j → j < 2 * a.size → a'.index j = s.entryCount + (j - a.size) := fun j hj hlt =>
        if_pos (by omega)
      -- number `k₀ + j` goes to slot `j`
      have hslot : ∀ j < 2 * a.size, a'.entryAt ((2 * a.size - 1) * k₀ + (k₀ + j)) = a'.index j := by
        intro j hj
        have hturns : (2 * a.size - 1) * k₀ + (k₀ + j) = j + 2 * a.size * k₀ := by
          rw [Nat.sub_mul, Nat.one_mul]
          have := Nat.le_mul_of_pos_left k₀ (show 0 < 2 * a.size by omega)
          omega
        show a'.index (_ % (2 * a.size)) = _
        rw [hturns, Nat.add_mul_mod_self_left, Nat.mod_eq_of_lt hj]
      refine ⟨{ s with
        allocs := allocs, currentIndexEntryArray := some a', indexEntriesSize := 2 * (2 * a.size)
        entries := fun e => if s.entryCount ≤ e ∧ e < s.entryCount + a.size then ⟨invalidBlockBase, none⟩
          else s.entries e
        entryCount := s.entryCount + a.size }, a', (2 * a.size - 1) * k₀, ?_, ⟨rfl⟩, fun hal => (hnil hal).2, rfl,
        ⟨fun k hk hkK => ?_, show a.size ≤ 2 * a.size by omega, fun heq => absurd heq (show 2 * a.size ≠ a.size by omega)⟩,
        ?_⟩
      · simp only [SlowQueue.createNewBlockIndexArray, halloc, h.arr, Option.map_some, Option.getD_some, Bool.not_true,
          Bool.false_eq_true, if_false, copiedIndex, hcopy, Option.bind_eq_bind, Option.bind_some, h.nextSize, htail, a']
      · obtain ⟨d, rfl⟩ := Nat.exists_eq_add_of_le hk
        rw [hslot d (by omega), hold d (by omega)]
      · obtain ⟨e, he⟩ := h.size
        have hissued : ∀ j < a.size, a'.index j < s.entryCount := fun j hj => by
          rw [hold j hj]
          exact h.issued _ (Nat.mod_lt _ hpos)
        have hkept : ∀ j < a.size, ¬ (s.entryCount ≤ a'.index j ∧ a'.index j < s.entryCount + a.size) := fun j hj =>
          fun hge => Nat.not_le.mpr (hissued j hj) hge.1
        refine ⟨rfl, ⟨e + 1, by rw [Nat.pow_succ']; exact congrArg (2 * ·) he⟩, rfl, Or.inl hspan, ?_, ?_, ?_, ?_, ?_,
          fun k hk hkK => ?_, fun k hk hlt => ?_⟩
        · show a.size - 1 < 2 * a.size
          omega
        · show a.size - 1 + 1 ≡ (2 * a.size - 1) * k₀ + K [MOD 2 * a.size]
          have hturns : (2 * a.size - 1) * k₀ + K = a.size + 2 * a.size * k₀ := by
            rw [Nat.sub_mul, Nat.one_mul]
            have := Nat.le_mul_of_pos_left k₀ (show 0 < 2 * a.size by omega)
            omega
          rw [hturns, Nat.sub_add_cancel hpos]
          exact (Nat.add_mul_mod_self_left _ _ _).symm
        · intro i hi j hj heq
          change i < 2 * a.size at hi
          change j < 2 * a.size at hj
          by_cases hi' : i < a.size
          · by_cases hj' : j < a.size
            · rw [hold i hi', hold j hj'] at heq
              have := h.entryAt_inj (by omega) (by omega) (by omega) (by omega) heq
              omega
            · have := hissued i hi'
              rw [heq, hfresh j (by omega) hj] at this
              omega
          · rw [hfresh i (by omega) hi] at heq
            by_cases hj' : j < a.size
            · have := hissued j hj'
              omega
            · rw [hfresh j (by omega) hj] at heq
              omega
        · intro i hi
          change i < 2 * a.size at hi
          show a'.index i < s.entryCount + a.size
          by_cases hi' : i < a.size
          · exact Nat.lt_add_right _ (hissued i hi')
          · rw [hfresh i (by omega) hi]
            omega
        · show K ≤ k₀ + 2 * a.size
          omega
        · obtain ⟨d, rfl⟩ := Nat.exists_eq_add_of_le hk
          rw [hslot d (by omega)]
          refine (congrArg IndexEntry.key (if_neg (hkept d (by omega)))).trans ?_
          rw [hold d (by omega)]
          exact h.keys _ hk hkK
        · obtain ⟨d, rfl⟩ := Nat.exists_eq_add_of_le hk
          change k₀ + d < k₀ + 2 * a.size at hlt
          rw [hslot d (by omega)]
          by_cases hd : d < a.size
          · refine (congrArg IndexEntry.value (if_neg (hkept d hd))).trans ?_
            rw [hold d hd]
            exact h.values _ hk (by omega)
          · rw [hnew _ (by omega)]
            refine congrArg IndexEntry.value (if_pos ?_)
            rw [hfresh d (by omega) (by omega)]
            omega

/-! ## Inserting -/

/-- The key of a block is no invalid one. -/
theorem key_ne_invalid (cfg : Cfg) (k : ℕ) : k * cfg.blockSize % 2 ^ cfg.w ≠ invalidBlockBase := by
  have htwo : 2 ∣ cfg.blockSize := dvd_pow_self 2 (by have := cfg.one_le_blockSizeLog2; omega)
  have hmod : k * cfg.blockSize % 2 ^ cfg.w % 2 = 0 := by
    rw [Nat.mod_mod_of_dvd _ (htwo.trans cfg.blockSize_dvd)]
    exact Nat.mod_eq_zero_of_dvd (htwo.mul_left k)
  intro heq
  rw [heq, invalidBlockBase] at hmod
  omega

namespace IndexLayout

/-- The slot behind the tail is free unless a whole turn is in use. -/
theorem isFree_eq (h : IndexLayout cfg s a c k₀ K K v) (hk : k₀ ≤ K) (hlive : ∀ k, k₀ ≤ k → k < K → v k ≠ none)
    (hnew : ∀ k, K ≤ k → v k = none) : (s.entries (a.entryAt (c + K))).isFree = decide (K < k₀ + a.size) := by
  have hwin := h.window
  have hpos := h.size_pos
  by_cases hlt : K < k₀ + a.size
  · rw [decide_eq_true hlt, IndexEntry.isFree, h.values K hk hlt, hnew K le_rfl]
    exact Bool.or_true _
  · have hfull : K = k₀ + a.size := by omega
    have hslot : a.entryAt (c + K) = a.entryAt (c + k₀) := by
      rw [hfull, ← Nat.add_assoc, entryAt_add_size]
    have hkey := key_ne_invalid cfg k₀
    rw [← h.keys k₀ le_rfl (by omega)] at hkey
    have hvalue := hlive k₀ le_rfl (by omega)
    rw [← h.values k₀ le_rfl (by omega)] at hvalue
    rw [decide_eq_false hlt, hslot, IndexEntry.isFree, beq_eq_false_iff_ne.mpr hkey, Bool.false_or,
      Option.isNone_eq_false_iff, Option.isSome_iff_ne_none]
    exact hvalue

/-- Twice as many slots still do not cover more than the index range. -/
theorem span_double (h : IndexLayout cfg s a c k₀ E M v)
    (hroom : a.size * cfg.blockSize < 2 ^ (cfg.w - 1)) : 2 * a.size * cfg.blockSize ∣ 2 ^ cfg.w := by
  obtain ⟨e, he⟩ := h.size
  rw [he, Cfg.blockSize, ← Nat.pow_add, Nat.pow_lt_pow_iff_right (by decide)] at hroom
  rw [he, Cfg.blockSize, ← Nat.pow_succ', ← Nat.pow_add]
  exact Nat.pow_dvd_pow 2 (by omega)

/-- **Inserting.** The next number gets its key at the tail, in an array twice as large if a whole turn is in
    use; otherwise the index stays as it was. -/
theorem insertBlockIndexEntry (h : IndexLayout cfg s a c k₀ K K v) (hk : k₀ ≤ K)
    (hlive : ∀ k, k₀ ≤ k → k < K → v k ≠ none) (hnew : ∀ k, K ≤ k → v k = none)
    (hroom : K * cfg.blockSize < k₀ * cfg.blockSize + 2 ^ (cfg.w - 1)) (hB : cfg.blockSize ≠ 2 ^ (cfg.w - 1))
    (mode : AllocMode) :
    (∃ s', s.insertBlockIndexEntry cfg mode (K * cfg.blockSize % 2 ^ cfg.w) = some (none, s') ∧ IndexOnly s s' ∧
      IndexLayout cfg s' a c k₀ K K v ∧ K = k₀ + a.size ∧ (mode = .cannotAlloc ∧ s' = s ∨ s.allocs ≠ [])) ∨
    ∃ s' a' c', s.insertBlockIndexEntry cfg mode (K * cfg.blockSize % 2 ^ cfg.w) = some (some (a'.entryAt (c' + K)), s') ∧
      IndexOnly s s' ∧ (s.allocs = [] → s'.allocs = []) ∧ K < k₀ + a'.size ∧ (K < k₀ + a.size → s'.allocs = s.allocs) ∧
      SameEntries a c a' c' k₀ K ∧ IndexLayout cfg s' a' c' k₀ (K + 1) (K + 1) v := by
  have hfree := h.isFree_eq hk hlive hnew
  have hspan : a.size * cfg.blockSize ∣ 2 ^ cfg.w := h.span.resolve_right fun hne => hB hne.1
  have hget : a.get ((a.tail + 1) % a.size) = some (a.entryAt (c + K)) := by
    rw [show (a.tail + 1) % a.size = (c + K) % a.size from h.tail]
    exact h.get_mod _
  have hpos := h.size_pos
  have hwin := h.window
  by_cases hlt : K < k₀ + a.size
  · right
    obtain ⟨s', htake, honly, hal, h'⟩ := h.takeIndexEntry hk hlt hspan
    rw [decide_eq_true hlt] at hfree
    refine ⟨s', { a with tail := (a.tail + 1) % a.size }, c, ?_, honly, fun hnil => hal.trans hnil, hlt, fun _ => hal,
      .of_index rfl rfl, h'⟩
    show _ = some (some (a.entryAt (c + K)), s')
    simp only [SlowQueue.insertBlockIndexEntry, h.arr, hget, hfree, htake, Option.bind_eq_bind, Option.bind_some,
      if_true]
  · have hfull : K = k₀ + a.size := by omega
    rw [decide_eq_false hlt] at hfree
    cases mode with
    | cannotAlloc =>
        refine Or.inl ⟨s, ?_, .refl s, h, hfull, Or.inl ⟨rfl, rfl⟩⟩
        simp only [SlowQueue.insertBlockIndexEntry, h.arr, hget, hfree, Option.bind_eq_bind, Option.bind_some,
          Bool.false_eq_true, if_false]
    | canAlloc =>
        have hdouble := h.span_double (by rw [hfull, Nat.add_mul] at hroom; omega)
        rcases h.createNewBlockIndexArray hfull hdouble hnew with ⟨s₁, hrun, hs₁, hal⟩ |
          ⟨s₁, a', c', hrun, honly, hal, hsize, hsame, h₁⟩
        · left
          refine ⟨s₁, ?_, ⟨by rw [hs₁]⟩, h.congr (by rw [hs₁]) (by rw [hs₁]) (by rw [hs₁]) (by rw [hs₁]), hfull,
            Or.inr hal⟩
          simp only [SlowQueue.insertBlockIndexEntry, h.arr, hget, hfree, hrun, Option.bind_eq_bind, Option.bind_some,
            Bool.false_eq_true, if_false, Bool.not_false, if_true]
        · right
          rw [← hsize] at hdouble
          have hlt' : K < k₀ + a'.size := by omega
          obtain ⟨s', htake, honly', hal', h'⟩ := h₁.takeIndexEntry hk hlt' hdouble
          refine ⟨s', { a' with tail := (a'.tail + 1) % a'.size }, c', ?_, honly.trans honly',
            fun hnil => hal'.trans (hal hnil), hlt',
            fun hlt => absurd hlt (by omega), hsame.trans (.of_index rfl rfl), h'⟩
          show _ = some (some (a'.entryAt (c' + K)), s')
          simp only [SlowQueue.insertBlockIndexEntry, h.arr, hget, hfree, hrun, htake, Option.bind_eq_bind,
            Option.bind_some, Bool.false_eq_true, if_false, Bool.not_true]

end IndexLayout

end SlowQueue

end LockFreeStructures
