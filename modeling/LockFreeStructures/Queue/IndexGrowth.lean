import LockFreeStructures.FastQueue.Index
import LockFreeStructures.SlowQueue.Index
import LockFreeStructures.Queue.Lookup

/-!
# `Queue.IndexGrowth` — `CreateNewBlockIndexArray` from any full or partly filled index

`Windowed` says that an index holds the bases of consecutive blocks in ring order, wherever the ring starts. Growth
keeps it, and a lookup in a windowed index finds the block of every base in the window.

The bases of a whole index range name each block once only; an array of more slots has lookups that lead past the
window. So twice the size has to cover no more than the index range.
-/

namespace LockFreeStructures

variable {α : Type} {cfg : Cfg}

/-! ## Memory -/

/-- What `CreateNewBlockIndexArray` allocates. -/
inductive IndexMemory where
  | array
  | entries (n : ℕ)
  | pointers (n : ℕ)
  deriving DecidableEq, Repr

/-- The allocations of the `try` block: those made, and whether that was all. -/
def tryAllocate : List IndexMemory → List Bool → List IndexMemory × Bool
  | [], _ => ([], true)
  | m :: ms, allocs =>
      if (allocate allocs).1 then
        (m :: (tryAllocate ms (allocate allocs).2).1, (tryAllocate ms (allocate allocs).2).2)
      else ([], false)

/-- The handler deallocates what its pointers are not null for. -/
def handled (pointers made : List IndexMemory) : List IndexMemory := pointers.filter (· ∈ made)

/-- The memory still allocated after `try` and `catch`. -/
def leftAllocated (requests pointers : List IndexMemory) (allocs : List Bool) : List IndexMemory :=
  let made := (tryAllocate requests allocs).1
  if (tryAllocate requests allocs).2 then made else made.filter (· ∉ handled pointers made)

/-- Where an allocation fails, those made before it are a proper beginning of the requests. -/
theorem tryAllocate_prefix : ∀ {requests : List IndexMemory} {allocs : List Bool},
    (tryAllocate requests allocs).2 = false → (tryAllocate requests allocs).1 <+: requests.dropLast
  | [], _, h => nomatch h
  | m :: ms, allocs, h => by
      rw [tryAllocate] at h ⊢
      by_cases hok : (allocate allocs).1
      · rw [if_pos hok] at h ⊢
        have ih := tryAllocate_prefix h
        cases ms with
        | nil => exact nomatch h
        | cons m' ms => exact List.prefix_cons_inj m |>.mpr ih
      · rw [if_neg hok]
        exact List.nil_prefix

/-- A handler that has a pointer to all but the last request leaves nothing. -/
theorem leftAllocated_eq_nil {requests : List IndexMemory} (hnodup : requests.Nodup) {allocs : List Bool}
    (h : (tryAllocate requests allocs).2 = false) : leftAllocated requests requests.dropLast allocs = [] := by
  obtain ⟨rest, hrest⟩ := tryAllocate_prefix h
  have hdisjoint : ∀ m ∈ rest, m ∉ (tryAllocate requests allocs).1 := by
    intro m hm hmade
    have hnd := hnodup.sublist (List.dropLast_sublist requests)
    rw [← hrest] at hnd
    exact (List.nodup_append.mp hnd).2.2 m hmade m hm rfl
  have hhandled : handled requests.dropLast (tryAllocate requests allocs).1 = (tryAllocate requests allocs).1 := by
    rw [handled, ← hrest, List.filter_append, List.filter_eq_self.mpr (by simp),
      List.filter_eq_nil_iff.mpr (by simpa using hdisjoint), List.append_nil]
  simp only [leftAllocated, h, Bool.false_eq_true, if_false]
  rw [hhandled, List.filter_eq_nil_iff]
  simp

/-! ## Slots and distances -/

/-- A signed distance from a slot so far back leads to the slot the rest of it back. -/
theorem slotAt_slotBack {S n x y : ℕ} (hn : n < S) (hx : x ≤ S) (hy : y ≤ S) :
    slotAt S (slotBack S n x) ((x : ℤ) - y) = slotBack S n y := by
  have hback : ∀ z ≤ S, ((slotBack S n z : ℕ) : ℤ) % S = ((n : ℤ) - z) % S := by
    intro z hz
    unfold slotBack
    split
    · rw [Nat.cast_sub ‹_›]
    · rw [Nat.cast_sub (by omega), Nat.cast_add, show (n : ℤ) + S - z = n - z + S by ring, Int.add_emod_right]
  have hmod : ((slotBack S n x : ℕ) + ((x : ℤ) - y)) % S = ((slotBack S n y : ℕ) : ℤ) % S := by
    rw [hback y hy, Int.add_emod, hback x hx, ← Int.add_emod]
    congr 1
    ring
  rw [slotAt, hmod, ← Int.natCast_emod, Int.toNat_natCast, Nat.mod_eq_of_lt (slotBack_lt hn hy)]

/-! ## `FastQueue` -/

namespace FastQueue

variable {s s' : FastQueue α} {filledSlot M k : ℕ} {blk : ℕ → ℕ}

/-- What `CreateNewBlockIndexArray` allocates; its handler has a pointer to the first. -/
def indexRequests (s : FastQueue α) : List IndexMemory := [.array, .entries (2 * s.indexEntriesSize)]

/-- The used entries, up to the one before `PO_NextIndexEntry`, hold the bases of the blocks up to number `M`;
    `Tail` is at the last of the first `filledSlot` of them. -/
structure Windowed (cfg : Cfg) (s : FastQueue α) (filledSlot M : ℕ) (blk : ℕ → ℕ) : Prop where
  size : ∃ e, s.indexEntriesSize = 2 ^ e
  next_lt : s.nextIndexEntry < s.indexEntriesSize
  used_le : s.indexEntriesUsed ≤ s.indexEntriesSize
  window : s.indexEntriesUsed ≤ M + 1
  filled_le : filledSlot ≤ s.indexEntriesUsed
  indexed : 0 < s.indexEntriesUsed → s.currentIndexEntryArray ≠ []
  arr : ∀ a ∈ s.currentIndexEntryArray.head?, a.size = s.indexEntriesSize
  tail : ∀ a ∈ s.currentIndexEntryArray.head?, 0 < filledSlot →
    a.tail = slotBack s.indexEntriesSize s.nextIndexEntry (s.indexEntriesUsed - filledSlot + 1)
  entries : ∀ a ∈ s.currentIndexEntryArray.head?, ∀ d < s.indexEntriesUsed,
    a.entries (slotBack s.indexEntriesSize s.nextIndexEntry (d + 1)) =
      some ⟨(M - d) * cfg.blockSize % 2 ^ cfg.w, blk (M - d)⟩

namespace Windowed

/-- **Lookup** of the base of a block in the window. -/
theorem lookup (h : Windowed cfg s filledSlot M blk) (hroom : s.indexEntriesSize * cfg.blockSize ≤ 2 ^ cfg.w)
    (hf : 0 < filledSlot) (hk : M < k + s.indexEntriesUsed) (hkM : k ≤ M) :
    s.lookup cfg (k * cfg.blockSize % 2 ^ cfg.w) = some (blk k) := by
  have hfilled := h.filled_le
  have hused := h.used_le
  have hwindow := h.window
  obtain ⟨a, prev, harr⟩ := List.exists_cons_of_ne_nil (h.indexed (hf.trans_le hfilled))
  have ha : a ∈ s.currentIndexEntryArray.head? := by rw [harr]; rfl
  obtain ⟨e, he⟩ := h.size
  have hget : ∀ d < s.indexEntriesUsed, a.get (slotBack s.indexEntriesSize s.nextIndexEntry (d + 1)) =
      some ⟨(M - d) * cfg.blockSize % 2 ^ cfg.w, blk (M - d)⟩ := fun d hd => by
    rw [IndexEntryArray.get, h.arr a ha, if_pos (slotBack_lt h.next_lt (by omega))]
    exact h.entries a ha d hd
  have htail := hget (s.indexEntriesUsed - filledSlot) (by omega)
  rw [← h.tail a ha hf] at htail
  -- number `k` is as far from the number at the tail as its slot is from the tail
  have hslot : slotAt (2 ^ e) a.tail ((k * cfg.blockSize / cfg.blockSize : ℕ) -
      (M - (s.indexEntriesUsed - filledSlot) : ℕ)) = slotBack s.indexEntriesSize s.nextIndexEntry (M - k + 1) := by
    have hback := slotAt_slotBack (x := s.indexEntriesUsed - filledSlot + 1) (y := M - k + 1) h.next_lt (by omega)
      (by omega)
    rw [Nat.mul_div_cancel _ cfg.blockSize_pos, ← he, h.tail a ha hf, ← hback]
    congr 1
    omega
  simp only [FastQueue.lookup, harr, List.head?_cons, Option.bind_eq_bind, Option.bind_some, htail]
  rw [h.arr a ha, he, wordLookup_eq_slotAt (he ▸ hroom), hslot, hget (M - k) (by omega), Nat.sub_sub_self hkM]
  rfl

/-- What the copying leaves: the window at the start of the new array, and nothing behind it. -/
theorem copiedEntries (h : Windowed cfg s filledSlot M blk) (hroom : s.indexEntriesSize < 2 ^ cfg.w) :
    ∃ new, s.copiedEntries cfg = some (s.indexEntriesUsed, new) ∧ (∀ j, s.indexEntriesUsed ≤ j → new j = none) ∧
      ∀ d < s.indexEntriesUsed, new (s.indexEntriesUsed - (d + 1)) =
        some ⟨(M - d) * cfg.blockSize % 2 ^ cfg.w, blk (M - d)⟩ := by
  unfold FastQueue.copiedEntries
  by_cases hu : s.indexEntriesUsed = 0
  · refine ⟨fun _ => none, by rw [if_pos hu, hu], fun _ _ => rfl, fun d hd => ?_⟩
    omega
  · obtain ⟨a, prev, harr⟩ := List.exists_cons_of_ne_nil (h.indexed (Nat.pos_of_ne_zero hu))
    have ha : a ∈ s.currentIndexEntryArray.head? := by rw [harr]; rfl
    obtain ⟨e, he⟩ := h.size
    have hdvd : s.indexEntriesSize ∣ 2 ^ cfg.w := by
      rw [he] at hroom ⊢
      exact Nat.pow_dvd_pow 2 ((Nat.pow_lt_pow_iff_right (by decide)).mp hroom).le
    obtain ⟨new, hcopy, hrest, hnew⟩ := copyEntries_eq a h.next_lt s.indexEntriesUsed s.indexEntriesSize 0
      (fun _ => none) (Nat.pos_of_ne_zero hu) h.used_le h.used_le
    rw [Nat.zero_add] at hnew hrest hcopy
    refine ⟨new, ?_, fun j hj => hrest j (Or.inr hj), fun d hd => ?_⟩
    · rw [if_neg hu]
      simp only [harr]
      rw [sub_mod_eq_slotBack hdvd h.next_lt h.used_le, hcopy]
    · have hused := h.used_le
      rw [hnew (d + 1) (Nat.succ_pos d) hd, IndexEntryArray.get, h.arr a ha, if_pos (slotBack_lt h.next_lt (by omega))]
      exact h.entries a ha d hd

/-- **Growth** succeeds if the allocations do, and keeps the window. -/
theorem createNewBlockIndexArray (h : Windowed cfg s filledSlot M blk) (hroom : s.indexEntriesSize < 2 ^ cfg.w) :
    ∃ ok s', s.createNewBlockIndexArray cfg filledSlot = some (ok, s') ∧
      ok = (tryAllocate s.indexRequests s.allocs).2 ∧
      (ok = false → s' = { s with allocs := s'.allocs }) ∧
      (ok = true → Windowed cfg s' filledSlot M blk ∧ ∃ a, s'.currentIndexEntryArray = a :: s.currentIndexEntryArray ∧
        a.size = 2 * s.indexEntriesSize ∧ s'.indexEntriesSize = 2 * s.indexEntriesSize ∧
        s'.nextIndexEntry = s.indexEntriesUsed ∧ s'.indexEntriesUsed = s.indexEntriesUsed ∧
        ∀ j, s.indexEntriesUsed ≤ j → a.entries j = none) := by
  rcases hal : LockFreeStructures.allocate s.allocs with ⟨ok, allocs⟩
  cases ok with
  | false =>
      exact ⟨false, { s with allocs := allocs }, by simp [FastQueue.createNewBlockIndexArray, FastQueue.allocate, hal],
        by simp [indexRequests, tryAllocate, hal], fun _ => rfl, by rintro ⟨⟩⟩
  | true =>
      rcases hal' : LockFreeStructures.allocate allocs with ⟨ok', allocs'⟩
      cases ok' with
      | false =>
          exact ⟨false, { s with allocs := allocs' },
            by simp [FastQueue.createNewBlockIndexArray, FastQueue.allocate, hal, hal'],
            by simp [indexRequests, tryAllocate, hal, hal'], fun _ => rfl, by rintro ⟨⟩⟩
      | true =>
          obtain ⟨new, hcopy, hrest, hnew⟩ := h.copiedEntries hroom
          have hcopy' : FastQueue.copiedEntries cfg { s with allocs := allocs' } = some (s.indexEntriesUsed, new) := hcopy
          have hused := h.used_le
          have hfilled := h.filled_le
          obtain ⟨e, he⟩ := h.size
          have hpos : 0 < s.indexEntriesSize := Nat.zero_lt_of_lt h.next_lt
          refine ⟨true, { s with
              currentIndexEntryArray :=
                ⟨2 * s.indexEntriesSize, Word.sub cfg.w filledSlot 1, new⟩ :: s.currentIndexEntryArray
              nextIndexEntry := s.indexEntriesUsed
              indexEntriesSize := 2 * s.indexEntriesSize
              allocs := allocs' },
            by simp [FastQueue.createNewBlockIndexArray, FastQueue.allocate, hal, hal', hcopy'],
            by simp [indexRequests, tryAllocate, hal, hal'], (by rintro ⟨⟩),
            fun _ => ⟨?_, ⟨_, _, new⟩, rfl, rfl, rfl, rfl, rfl, hrest⟩⟩
          refine ⟨⟨e + 1, ?_⟩, ?_, ?_, h.window, hfilled, fun _ => List.cons_ne_nil _ _, fun a ha => ?_,
            fun a ha hf => ?_, fun a ha d hd => ?_⟩
          · show 2 * s.indexEntriesSize = 2 ^ (e + 1)
            rw [he, Nat.pow_succ']
          · show s.indexEntriesUsed < 2 * s.indexEntriesSize
            omega
          · show s.indexEntriesUsed ≤ 2 * s.indexEntriesSize
            omega
          · obtain rfl := Option.some.inj ha
            rfl
          · obtain rfl := Option.some.inj ha
            show Word.sub cfg.w filledSlot 1 =
              slotBack (2 * s.indexEntriesSize) s.indexEntriesUsed (s.indexEntriesUsed - filledSlot + 1)
            rw [Word.sub_of_le hf (by omega), slotBack, if_pos (by omega)]
            omega
          · obtain rfl := Option.some.inj ha
            change d < s.indexEntriesUsed at hd
            show new (slotBack _ s.indexEntriesUsed (d + 1)) = _
            rw [slotBack, if_pos (by omega)]
            exact hnew d hd

end Windowed

end FastQueue

/-! ## `SlowQueue` -/

namespace SlowQueue

variable {s s' : SlowQueue α} {a : IndexEntryArray} {n M k : ℕ} {v : ℕ → Option ℕ}

/-- What `CreateNewBlockIndexArray` allocates; its handler has pointers to the first two. -/
def indexRequests (s : SlowQueue α) : List IndexMemory :=
  [.array, .entries ((s.currentIndexEntryArray.map (·.size)).getD s.indexEntriesSize), .pointers s.indexEntriesSize]

/-- The `n` entries up to the one at `Tail` hold the bases of the blocks up to number `M` and their values. -/
structure Windowed (cfg : Cfg) (s : SlowQueue α) (a : IndexEntryArray) (n M : ℕ) (v : ℕ → Option ℕ) : Prop where
  arr : s.currentIndexEntryArray = some a
  size : ∃ e, a.size = 2 ^ e
  nextSize : s.indexEntriesSize = 2 * a.size
  tail_lt : a.tail < a.size
  issued : ∀ i < a.size, a.index i < s.entryCount
  used_le : n ≤ a.size
  window : n ≤ M + 1
  entries : ∀ d < n, s.entries (a.index (slotBack a.size a.tail d)) = ⟨(M - d) * cfg.blockSize % 2 ^ cfg.w, v (M - d)⟩

/-- The array `CreateNewBlockIndexArray` makes: the copied pointers and then those to the new entries. -/
def grownIndex (s : SlowQueue α) (a : IndexEntryArray) (copied : ℕ → ℕ) : IndexEntryArray where
  size := 2 * a.size
  tail := a.size - 1
  index j := if a.size ≤ j ∧ j < a.size + a.size then s.entryCount + (j - a.size) else copied j

/-- The queue with that array. -/
def grown (s : SlowQueue α) (a : IndexEntryArray) (copied : ℕ → ℕ) (allocs : List Bool) : SlowQueue α :=
  { s with
    currentIndexEntryArray := some (s.grownIndex a copied)
    indexEntriesSize := 2 * (2 * a.size)
    entries := fun e => if s.entryCount ≤ e ∧ e < s.entryCount + a.size then ⟨invalidBlockBase, none⟩ else s.entries e
    entryCount := s.entryCount + a.size
    allocs := allocs }

theorem entries_grown {copied : ℕ → ℕ} {allocs : List Bool} {e : ℕ} (he : e < s.entryCount) :
    (s.grown a copied allocs).entries e = s.entries e := if_neg fun hnew => Nat.not_le.mpr he hnew.1

theorem isFree_grown {copied : ℕ → ℕ} {allocs : List Bool} {j : ℕ} (hj : a.size ≤ j) (hlt : j < 2 * a.size) :
    ((s.grown a copied allocs).entries ((s.grownIndex a copied).index j)).isFree = true := by
  have hindex : (s.grownIndex a copied).index j = s.entryCount + (j - a.size) := if_pos (by omega)
  have hentry : (s.grown a copied allocs).entries (s.entryCount + (j - a.size)) = ⟨invalidBlockBase, none⟩ :=
    if_pos (by omega)
  rw [hindex, hentry]
  rfl

namespace Windowed

/-- **Lookup** of the base of a block in the window. -/
theorem lookup (h : Windowed cfg s a n M v) (hroom : a.size * cfg.blockSize ≤ 2 ^ cfg.w) (hk : M < k + n)
    (hkM : k ≤ M) : s.getBlockIndexEntryForIndex cfg (k * cfg.blockSize % 2 ^ cfg.w) =
      some (a.index (slotBack a.size a.tail (M - k))) := by
  have hused := h.used_le
  obtain ⟨e, he⟩ := h.size
  have htail := h.entries 0 (by omega)
  rw [slotBack_zero, Nat.sub_zero] at htail
  have hslot : slotAt (2 ^ e) a.tail ((k * cfg.blockSize / cfg.blockSize : ℕ) - M) = slotBack a.size a.tail (M - k) := by
    have hback := slotAt_slotBack (x := 0) (y := M - k) h.tail_lt (by omega) (by omega)
    rw [Nat.mul_div_cancel _ cfg.blockSize_pos, ← he, ← hback, slotBack_zero]
    congr 1
    omega
  have hget : a.get a.tail = some (a.index a.tail) := if_pos h.tail_lt
  simp only [getBlockIndexEntryForIndex, getBlockIndexIndexForIndex, h.arr, Option.bind_eq_bind, Option.bind_some, hget,
    htail]
  rw [he, wordLookup_eq_slotAt (he ▸ hroom), hslot, ← he]
  exact if_pos (slotBack_lt h.tail_lt (by omega))

theorem grown (h : Windowed cfg s a n M v) {copied : ℕ → ℕ} {allocs : List Bool}
    (hgrown : ∀ d < a.size, (s.grownIndex a copied).index (slotBack (2 * a.size) (a.size - 1) d) =
      a.index (slotBack a.size a.tail d)) :
    Windowed cfg (s.grown a copied allocs) (s.grownIndex a copied) n M v := by
  have hused := h.used_le
  have hpos : 0 < a.size := Nat.zero_lt_of_lt h.tail_lt
  obtain ⟨e, he⟩ := h.size
  refine ⟨rfl, ⟨e + 1, ?_⟩, rfl, ?_, fun i hi => ?_, ?_, h.window, fun d hd => ?_⟩
  · show 2 * a.size = 2 ^ (e + 1)
    rw [he, Nat.pow_succ']
  · show a.size - 1 < 2 * a.size
    omega
  · change i < 2 * a.size at hi
    show (s.grownIndex a copied).index i < s.entryCount + a.size
    by_cases hlt : i < a.size
    · -- a copied pointer
      have hi' := hgrown (a.size - 1 - i) (by omega)
      rw [slotBack, if_pos (by omega), Nat.sub_sub_self (by omega)] at hi'
      rw [hi']
      exact Nat.lt_add_right _ (h.issued _ (slotBack_lt h.tail_lt (by omega)))
    · rw [show (s.grownIndex a copied).index i = s.entryCount + (i - a.size) from if_pos (by omega)]
      omega
  · show n ≤ 2 * a.size
    omega
  · show (s.grown a copied allocs).entries ((s.grownIndex a copied).index (slotBack (2 * a.size) (a.size - 1) d)) = _
    rw [hgrown d (by omega), entries_grown (h.issued _ (slotBack_lt h.tail_lt (by omega)))]
    exact h.entries d hd

/-- **Growth** succeeds if the allocations do, and keeps the window and every pointer's entry. -/
theorem createNewBlockIndexArray (h : Windowed cfg s a n M v) (hroom : a.size < 2 ^ cfg.w) :
    ∃ ok s', s.createNewBlockIndexArray cfg = some (ok, s') ∧ ok = (tryAllocate s.indexRequests s.allocs).2 ∧
      (ok = false → s' = { s with allocs := s'.allocs }) ∧
      (ok = true → ∃ a', Windowed cfg s' a' n M v ∧ a'.size = 2 * a.size ∧ a'.tail + 1 = a.size ∧
        (∀ d < a.size, a'.index (slotBack a'.size a'.tail d) = a.index (slotBack a.size a.tail d)) ∧
        (∀ i < a.size, s'.entries (a.index i) = s.entries (a.index i)) ∧
        ∀ j, a.size ≤ j → j < 2 * a.size → (s'.entries (a'.index j)).isFree = true) := by
  have hok : s.allocateIndexArray.1 = (tryAllocate s.indexRequests s.allocs).2 := by
    unfold allocateIndexArray indexRequests tryAllocate tryAllocate tryAllocate tryAllocate SlowQueue.allocate
    split_ifs <;> simp_all
  obtain ⟨ok, allocs, halloc, -⟩ := allocateIndexArray_eq s
  rw [halloc] at hok
  cases ok with
  | false =>
      refine ⟨false, { s with allocs := allocs }, ?_, hok, fun _ => rfl, by rintro ⟨⟩⟩
      simp only [SlowQueue.createNewBlockIndexArray, halloc, Bool.not_false, if_pos]
  | true =>
      have hpos : 0 < a.size := Nat.zero_lt_of_lt h.tail_lt
      obtain ⟨copied, hcopy, hcopied⟩ := @copyIndex_eq a h.tail_lt a.size 0 (fun _ => 0) hpos (Nat.zero_add _)
      rw [Nat.add_zero, Nat.mod_eq_of_lt h.tail_lt] at hcopy
      have htail : Word.sub cfg.w a.size 1 % (2 * a.size) = a.size - 1 := by
        rw [Word.sub_of_le hpos hroom, Nat.mod_eq_of_lt (by omega)]
      have hgrown : ∀ d < a.size, (s.grownIndex a copied).index (slotBack (2 * a.size) (a.size - 1) d) =
          a.index (slotBack a.size a.tail d) := by
        intro d hd
        -- so far behind the last copied slot is so far behind the tail
        have hslot : (a.tail + 1 + (a.size - 1 - d)) % a.size = slotBack a.size a.tail d := by
          have hturn := add_turns_mod (m := 0) h.tail_lt hd.le
          rw [Nat.mul_zero, Nat.zero_add] at hturn
          rw [← hturn]
          congr 1
          omega
        rw [slotBack, if_pos (by omega), ← hslot]
        exact (if_neg (by omega)).trans ((hcopied _ (by omega)).trans (if_neg (Nat.not_lt_zero _)))
      refine ⟨true, s.grown a copied allocs, ?_, hok, (by rintro ⟨⟩), fun _ => ⟨grownIndex s a copied, ?_, rfl,
        Nat.sub_add_cancel hpos, fun d hd => ?_, fun i hi => ?_, fun j hj hlt => ?_⟩⟩
      · simp only [SlowQueue.createNewBlockIndexArray, halloc, h.arr, Option.map_some, Option.getD_some, Bool.not_true,
          Bool.false_eq_true, if_false, copiedIndex, hcopy, Option.bind_eq_bind, Option.bind_some, h.nextSize, htail,
          SlowQueue.grown, grownIndex]
      · exact h.grown hgrown
      · exact hgrown d hd
      · exact entries_grown (h.issued i hi)
      · exact isFree_grown hj hlt

end Windowed

end SlowQueue

/-! ## Both queues -/

/-- **Growth keeps every lookup and fails cleanly**, as long as twice the array covers no more than the index range. -/
theorem growth_keeps_lookups :
    (∀ (s : FastQueue α) filledSlot M blk, s.Windowed cfg filledSlot M blk →
      2 * s.indexEntriesSize * cfg.blockSize ≤ 2 ^ cfg.w →
      ∃ ok s', s.createNewBlockIndexArray cfg filledSlot = some (ok, s') ∧
        ok = (tryAllocate s.indexRequests s.allocs).2 ∧
        (ok = false → s' = { s with allocs := s'.allocs } ∧ leftAllocated s.indexRequests [.array] s.allocs = []) ∧
        (ok = true → ∃ a, s'.currentIndexEntryArray = a :: s.currentIndexEntryArray ∧
          a.size = 2 * s.indexEntriesSize ∧ s'.indexEntriesSize = a.size ∧
          (0 < filledSlot → ∀ k, M < k + s.indexEntriesUsed → k ≤ M →
            s.lookup cfg (k * cfg.blockSize % 2 ^ cfg.w) = some (blk k) ∧
            s'.lookup cfg (k * cfg.blockSize % 2 ^ cfg.w) = some (blk k)) ∧
          (∀ j, j + 1 = s'.nextIndexEntry → a.entries j = some ⟨M * cfg.blockSize % 2 ^ cfg.w, blk M⟩) ∧
          s'.nextIndexEntry = s.indexEntriesUsed ∧ ∀ j, s'.nextIndexEntry ≤ j → a.entries j = none)) ∧
    ∀ (s : SlowQueue α) a n M v, s.Windowed cfg a n M v → 2 * a.size * cfg.blockSize ≤ 2 ^ cfg.w →
      ∃ ok s', s.createNewBlockIndexArray cfg = some (ok, s') ∧ ok = (tryAllocate s.indexRequests s.allocs).2 ∧
        (ok = false → s' = { s with allocs := s'.allocs } ∧
          leftAllocated s.indexRequests [.array, .entries a.size] s.allocs = []) ∧
        (ok = true → ∃ a', s'.currentIndexEntryArray = some a' ∧ a'.size = 2 * a.size ∧
          s'.indexEntriesSize = 2 * a'.size ∧
          (∀ k, M < k + n → k ≤ M → ∃ e, s.getBlockIndexEntryForIndex cfg (k * cfg.blockSize % 2 ^ cfg.w) = some e ∧
            s'.getBlockIndexEntryForIndex cfg (k * cfg.blockSize % 2 ^ cfg.w) = some e ∧
            s.entries e = ⟨k * cfg.blockSize % 2 ^ cfg.w, v k⟩ ∧ s'.entries e = s.entries e) ∧
          (0 < n → s'.entries (a'.index a'.tail) = ⟨M * cfg.blockSize % 2 ^ cfg.w, v M⟩) ∧ a'.tail + 1 = a.size ∧
          ∀ j, a'.tail < j → j < a'.size → (s'.entries (a'.index j)).isFree = true) := by
  constructor
  · intro s filledSlot M blk h hroom
    have hle : s.indexEntriesSize * cfg.blockSize ≤ 2 ^ cfg.w := by
      rw [Nat.mul_assoc] at hroom
      omega
    have hlt : s.indexEntriesSize < 2 ^ cfg.w := by
      have := Nat.le_mul_of_pos_right (2 * s.indexEntriesSize) cfg.blockSize_pos
      have := h.next_lt
      omega
    obtain ⟨ok, s', hrun, hok, hfail, hgrow⟩ := h.createNewBlockIndexArray hlt
    refine ⟨ok, s', hrun, hok, fun h0 => ⟨hfail h0, ?_⟩, fun h1 => ?_⟩
    · exact leftAllocated_eq_nil (by simp [FastQueue.indexRequests]) (hok.symm.trans h0)
    · obtain ⟨h', a, harr, hsize, hsize', hnext, hused, hfree⟩ := hgrow h1
      have ha : a ∈ s'.currentIndexEntryArray.head? := by rw [harr]; rfl
      refine ⟨a, harr, hsize, hsize'.trans hsize.symm, fun hf k hk hkM => ⟨h.lookup hle hf hk hkM, ?_⟩, fun j hj => ?_,
        hnext, fun j hj => hfree j (hnext ▸ hj)⟩
      · exact h'.lookup (hsize' ▸ hroom) hf (hused ▸ hk) hkM
      · have hnewest := h'.entries a ha 0 (by omega)
        rw [Nat.sub_zero, slotBack, if_pos (by omega), ← hj] at hnewest
        exact hnewest
  · intro s a n M v h hroom
    have hle : a.size * cfg.blockSize ≤ 2 ^ cfg.w := by
      rw [Nat.mul_assoc] at hroom
      omega
    have hlt : a.size < 2 ^ cfg.w := by
      have := Nat.le_mul_of_pos_right (2 * a.size) cfg.blockSize_pos
      have := h.tail_lt
      omega
    obtain ⟨ok, s', hrun, hok, hfail, hgrow⟩ := h.createNewBlockIndexArray hlt
    refine ⟨ok, s', hrun, hok, fun h0 => ⟨hfail h0, ?_⟩, fun h1 => ?_⟩
    · have hleft := leftAllocated_eq_nil (by simp [SlowQueue.indexRequests]) (hok.symm.trans h0)
      rwa [SlowQueue.indexRequests, h.arr] at hleft ⊢
    · obtain ⟨a', h', hsize, htail, hindex, hkept, hfree⟩ := hgrow h1
      have hused := h.used_le
      refine ⟨a', h'.arr, hsize, h'.nextSize, fun k hk hkM => ?_, fun hn => ?_, htail,
        fun j hj hlt => hfree j (by omega) (hsize ▸ hlt)⟩
      · have hslot := slotBack_lt (S := a.size) (d := M - k) h.tail_lt (by omega)
        refine ⟨_, h.lookup hle hk hkM, ?_, ?_, hkept _ hslot⟩
        · rw [h'.lookup (hsize ▸ hroom) hk hkM, hindex _ (by omega)]
        · rw [h.entries _ (by omega), Nat.sub_sub_self hkM]
      · have hnewest := h'.entries 0 hn
        rwa [slotBack_zero, Nat.sub_zero] at hnewest

/-- An index of `2 ^ e` slots that is full, up to block number `2 ^ e`, and turned by one slot. -/
def FastQueue.rotated (cfg : Cfg) (e : ℕ) : FastQueue α :=
  { FastQueue.unindexed cfg 0 0 [] with
    currentIndexEntryArray := [⟨2 ^ e, 0, fun i => some ⟨(if i = 0 then 2 ^ e else i) * cfg.blockSize % 2 ^ cfg.w, i⟩⟩]
    nextIndexEntry := 1
    indexEntriesUsed := 2 ^ e
    indexEntriesSize := 2 ^ e }

theorem FastQueue.windowed_rotated {e : ℕ} (he : 0 < e) :
    (FastQueue.rotated cfg e : FastQueue α).Windowed cfg (2 ^ e) (2 ^ e) (· % 2 ^ e) := by
  have hpos : 1 < 2 ^ e := Nat.one_lt_two_pow he.ne'
  refine ⟨⟨e, rfl⟩, hpos, le_rfl, Nat.le_succ _, le_rfl, fun _ => List.cons_ne_nil _ _, fun a ha => ?_, fun a ha _ => ?_,
    fun a ha d hd => ?_⟩
  · obtain rfl := Option.some.inj ha
    rfl
  · obtain rfl := Option.some.inj ha
    simp [rotated, slotBack]
  · obtain rfl := Option.some.inj ha
    change d < 2 ^ e at hd
    show some (IndexEntry.mk ((if slotBack (2 ^ e) 1 (d + 1) = 0 then 2 ^ e else slotBack (2 ^ e) 1 (d + 1)) * _ % _)
      (slotBack (2 ^ e) 1 (d + 1))) = _
    by_cases hd0 : d = 0
    · rw [hd0, slotBack, if_pos le_rfl, if_pos rfl, Nat.sub_zero, Nat.mod_self]
    · have hslot : slotBack (2 ^ e) 1 (d + 1) = 2 ^ e - d := by
        rw [slotBack, if_neg (by omega)]
        omega
      rw [hslot, if_neg (by omega), Nat.mod_eq_of_lt (show 2 ^ e - d < 2 ^ e by omega)]

theorem growth_keeps_lookups_at : ∃ s' : FastQueue ℕ,
    (FastQueue.rotated ⟨8, 1, by decide, by decide⟩ 1 : FastQueue ℕ).createNewBlockIndexArray
      ⟨8, 1, by decide, by decide⟩ 2 = some (true, s') ∧ s'.lookup ⟨8, 1, by decide, by decide⟩ 2 = some 1 := by
  obtain ⟨ok, s', hrun, hok, -, hgrow⟩ := (@growth_keeps_lookups ℕ ⟨8, 1, by decide, by decide⟩).1 _ _ _ _
    (FastQueue.windowed_rotated Nat.one_pos) (by norm_num [FastQueue.rotated, Cfg.w, Cfg.blockSize])
  obtain rfl : ok = true := hok.trans rfl
  obtain ⟨a, -, -, -, hlookup, -⟩ := hgrow rfl
  refine ⟨s', hrun, ?_⟩
  have h := (hlookup Nat.two_pos 1 (by norm_num [FastQueue.rotated]) (by norm_num)).2
  norm_num [Cfg.w, Cfg.blockSize] at h
  exact h

/-- **Not at any size.** The array of a whole index range grows, and a block's base leads past the window. -/
theorem not_growth_keeps_lookups :
    ¬ ∀ (s : FastQueue ℕ) filledSlot M blk, s.Windowed ⟨8, 62, by decide, by decide⟩ filledSlot M blk →
      0 < filledSlot → ∀ s', s.createNewBlockIndexArray ⟨8, 62, by decide, by decide⟩ filledSlot = some (true, s') →
      ∀ k, M < k + s.indexEntriesUsed → k ≤ M →
        s'.lookup ⟨8, 62, by decide, by decide⟩ (k * 2 ^ 62 % 2 ^ 64) =
          s.lookup ⟨8, 62, by decide, by decide⟩ (k * 2 ^ 62 % 2 ^ 64) := by
  intro h
  have hfull := @FastQueue.windowed_rotated ℕ ⟨8, 62, by decide, by decide⟩ 2 Nat.two_pos
  obtain ⟨ok, s', hrun, hok, -, hgrow⟩ := hfull.createNewBlockIndexArray (by norm_num [FastQueue.rotated, Cfg.w])
  obtain rfl : ok = true := hok.trans rfl
  obtain ⟨h', a, harr, hsize, hsize', hnext, hused, hfree⟩ := hgrow rfl
  have hkept := h _ _ _ _ hfull (by norm_num) s' hrun 1 (by norm_num [FastQueue.rotated]) (by norm_num)
  have hbefore := hfull.lookup (k := 1) (by norm_num [FastQueue.rotated, Cfg.w, Cfg.blockSize]) (by norm_num)
    (by norm_num [FastQueue.rotated]) (by norm_num)
  norm_num [Cfg.w, Cfg.blockSize] at hbefore
  have ha : a ∈ s'.currentIndexEntryArray.head? := by rw [harr]; rfl
  have htail := h'.tail a ha (by norm_num)
  have hnewest := h'.entries a ha 0 (by rw [hused]; norm_num [FastQueue.rotated])
  rw [hnext, hsize', hused] at htail
  rw [hnext, hsize'] at hnewest
  norm_num [FastQueue.rotated, slotBack] at htail hnewest hsize hfree
  have htailEntry : a.get a.tail = some ⟨0, 0⟩ := by
    rw [FastQueue.IndexEntryArray.get, htail, hsize, if_pos (by norm_num), hnewest]
    norm_num [Cfg.w, Cfg.blockSize]
  -- one block after the base at the tail is the slot behind the window
  have hslot : Word.add 64 3 (Word.sub 64 (Word.alignDown 62 4611686018427387904) 0 / 4611686018427387904) % 8 = 4 := by
    norm_num [Word.add, Word.sub, Word.alignDown]
  have hlost : s'.lookup ⟨8, 62, by decide, by decide⟩ 4611686018427387904 = none := by
    simp only [FastQueue.lookup, harr, List.head?_cons, Option.bind_eq_bind, Option.bind_some, htailEntry]
    norm_num [hsize, htail, Cfg.w, Cfg.blockSize, hslot, FastQueue.IndexEntryArray.get, hfree]
  norm_num [hlost, hbefore] at hkept
  cases hkept

end LockFreeStructures
