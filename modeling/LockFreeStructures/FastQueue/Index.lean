import LockFreeStructures.FastQueue.Layout

/-!
# `FastQueue.Index` — writing, growing and reading the index array

`writeEntry` and `storeTail` always succeed on a queue that has an index array; `putEntry` and `putTail`
are the states they leave.
-/

namespace LockFreeStructures

namespace FastQueue

variable {α : Type} {cfg : Cfg} {s s' : FastQueue α} {p : ℕ} {blk : ℕ → ℕ} {k₀ K : ℕ}

/-- `Tail` of the current index array. -/
def tailSlot (s : FastQueue α) : Option ℕ := s.currentIndexEntryArray.head?.map (·.tail)

/-- The queue with an entry written at `PO_NextIndexEntry`. -/
def putEntry (base p : ℕ) (s : FastQueue α) : FastQueue α :=
  { s with currentIndexEntryArray := s.currentIndexEntryArray.modifyHead fun a =>
      { a with entries := Function.update a.entries s.nextIndexEntry (some ⟨base, p⟩) } }

/-- The queue with `Tail` of the current index array stored. -/
def putTail (tail : ℕ) (s : FastQueue α) : FastQueue α :=
  { s with currentIndexEntryArray := s.currentIndexEntryArray.modifyHead fun a => { a with tail := tail } }

@[simp] theorem tailSlot_putEntry (base : ℕ) : (s.putEntry base p).tailSlot = s.tailSlot := by
  unfold tailSlot putEntry
  cases s.currentIndexEntryArray <;> rfl

theorem tailSlot_putTail (tail : ℕ) (h : s.currentIndexEntryArray ≠ []) :
    (s.putTail tail).tailSlot = some tail := by
  unfold tailSlot putTail
  cases harr : s.currentIndexEntryArray with
  | nil => exact absurd harr h
  | cons a prev => rfl

theorem storeTail_eq (tail : ℕ) (h : s.currentIndexEntryArray ≠ []) :
    s.storeTail tail = some (s.putTail tail) := by
  unfold storeTail putTail
  cases harr : s.currentIndexEntryArray with
  | nil => exact absurd harr h
  | cons a prev => rfl

namespace IndexLayout

/-- The index depends on the arrays and the three producer-only numbers. -/
theorem congr (h : IndexLayout cfg s blk k₀ K)
    (ha : s'.currentIndexEntryArray = s.currentIndexEntryArray)
    (hn : s'.nextIndexEntry = s.nextIndexEntry) (hu : s'.indexEntriesUsed = s.indexEntriesUsed)
    (hs : s'.indexEntriesSize = s.indexEntriesSize) : IndexLayout cfg s' blk k₀ K :=
  ⟨hs ▸ h.size, hs ▸ h.span, by rw [ha, hs]; exact h.arr, by rw [hn, hs]; exact h.next_lt,
    by rw [hu, hs]; exact h.used_le, by rw [ha, hu, hs]; exact h.unindexed, hu ▸ h.window, hu ▸ h.numbered,
    by rw [ha, hs, hn]; exact h.entries⟩

/-- Live blocks only: the oldest may go. -/
theorem drop (h : IndexLayout cfg s blk k₀ K) {k₁ : ℕ} (hk : k₀ ≤ k₁) : IndexLayout cfg s blk k₁ K :=
  { h with
    window := le_trans (Nat.sub_le_sub_left hk K) h.window
    entries := fun a ha k hk₁ hkK => h.entries a ha k (le_trans hk hk₁) hkK }

theorem size_dvd (h : IndexLayout cfg s blk k₀ K) : s.indexEntriesSize ∣ 2 ^ cfg.w := by
  obtain ⟨e, he, hS⟩ := h.size
  rw [hS]
  exact Nat.pow_dvd_pow 2 he

/-- A queue with a live block has an index array. -/
theorem exists_array (h : IndexLayout cfg s blk k₀ K) (hu : 0 < s.indexEntriesUsed) :
    ∃ a prev, s.currentIndexEntryArray = a :: prev ∧ a.size = s.indexEntriesSize := by
  cases harr : s.currentIndexEntryArray with
  | nil => exact absurd (h.unindexed harr).1 hu.ne'
  | cons a prev => exact ⟨a, prev, rfl, h.arr a (by rw [harr]; rfl)⟩

theorem array_ne_nil (h : IndexLayout cfg s blk k₀ K) (hu : 0 < s.indexEntriesUsed) :
    s.currentIndexEntryArray ≠ [] := by
  intro harr
  exact hu.ne' (h.unindexed harr).1

theorem writeEntry_eq (h : IndexLayout cfg s blk k₀ K) (hu : 0 < s.indexEntriesUsed)
    (ht : s.tailBlock = some p) (base : ℕ) : s.writeEntry base = some (s.putEntry base p) := by
  obtain ⟨a, prev, harr, hsize⟩ := h.exists_array hu
  have hlt : s.nextIndexEntry < a.size := hsize ▸ h.next_lt
  simp only [writeEntry, putEntry, harr, ht, IndexEntryArray.set, if_pos hlt, Option.map_some,
    List.modifyHead_cons]

/-- The slot at `PO_NextIndexEntry` is free while there are more slots than live blocks. -/
theorem putEntry (h : IndexLayout cfg s blk k₀ K) (hfree : K - k₀ < s.indexEntriesSize) (base : ℕ) :
    IndexLayout cfg (s.putEntry base p) blk k₀ K := by
  refine { h with arr := ?_, unindexed := ?_, entries := ?_ }
  · intro a ha
    unfold FastQueue.putEntry at ha
    cases harr : s.currentIndexEntryArray with
    | nil => simp [harr] at ha
    | cons b prev =>
        simp only [harr, List.modifyHead_cons, List.head?_cons, Option.mem_def, Option.some.injEq] at ha
        subst ha
        exact h.arr b (by rw [harr]; rfl)
  · intro hnil
    refine h.unindexed ?_
    unfold FastQueue.putEntry at hnil
    cases harr : s.currentIndexEntryArray with
    | nil => rfl
    | cons b prev => simp [harr] at hnil
  · intro a ha k hk hkK
    unfold FastQueue.putEntry at ha ⊢
    cases harr : s.currentIndexEntryArray with
    | nil => simp [harr] at ha
    | cons b prev =>
        simp only [harr, List.modifyHead_cons, List.head?_cons, Option.mem_def, Option.some.injEq] at ha
        subst ha
        have hne : slotBack s.indexEntriesSize s.nextIndexEntry (K - k) ≠ s.nextIndexEntry :=
          slotBack_ne (by omega) (by omega)
        refine (Function.update_of_ne hne _ _).trans ?_
        exact h.entries b (by rw [harr]; rfl) k hk hkK

/-- `Tail` of the index array is not part of the layout. -/
theorem putTail (h : IndexLayout cfg s blk k₀ K) (tail : ℕ) : IndexLayout cfg (s.putTail tail) blk k₀ K := by
  unfold FastQueue.putTail
  cases harr : s.currentIndexEntryArray with
  | nil => exact h.congr harr.symm rfl rfl rfl
  | cons b prev =>
      have hb : b ∈ s.currentIndexEntryArray.head? := by rw [harr]; rfl
      refine { h with arr := ?_, unindexed := ?_, entries := ?_ }
      · intro a ha
        obtain rfl := Option.some.inj ha
        exact h.arr b hb
      · intro hnil
        exact absurd hnil (by simp)
      · intro a ha
        obtain rfl := Option.some.inj ha
        exact h.entries b hb

/-- **A new entry.** Written at `PO_NextIndexEntry`, it becomes the entry of the next block number. -/
theorem push (h : IndexLayout cfg s blk k₀ K) (hk : k₀ ≤ K) (hused : K - k₀ < s.indexEntriesUsed)
    (hspan : s.indexEntriesSize * cfg.blockSize ∣ 2 ^ cfg.w ∨ K = 0) :
    IndexLayout cfg (s.putEntry (K * cfg.blockSize % 2 ^ cfg.w) p).advanceNextIndexEntry
      (Function.update blk K p) k₀ (K + 1) := by
  have hle := h.used_le
  have hput := h.putEntry (p := p) (by omega) (K * cfg.blockSize % 2 ^ cfg.w)
  refine { hput with span := ?_, next_lt := ?_, window := ?_, numbered := ?_, entries := ?_ }
  · exact hspan.imp id fun h0 => by rw [h0]
  · exact Nat.mod_lt _ (Nat.lt_of_le_of_lt (Nat.zero_le _) h.next_lt)
  · show K + 1 - k₀ ≤ s.indexEntriesUsed
    omega
  · intro _
    exact Nat.lt_of_le_of_lt (Nat.zero_le _) hused
  · intro a ha k hk' hkK
    show a.entries (slotBack s.indexEntriesSize ((s.nextIndexEntry + 1) % s.indexEntriesSize) _) = _
    rcases Nat.lt_succ_iff_lt_or_eq.mp hkK with hlt | rfl
    · rw [show K + 1 - k = K - k + 1 by omega, slotBack_succ h.next_lt (by omega),
        Function.update_of_ne hlt.ne]
      exact hput.entries a ha k hk' hlt
    · rw [Nat.add_sub_cancel_left, slotBack_one_succ h.next_lt, Function.update_self]
      change a ∈ (FastQueue.putEntry _ p s).currentIndexEntryArray.head? at ha
      unfold FastQueue.putEntry at ha
      cases harr : s.currentIndexEntryArray with
      | nil => simp [harr] at ha
      | cons b prev =>
          simp only [harr, List.modifyHead_cons, List.head?_cons, Option.mem_def, Option.some.injEq] at ha
          subst ha
          exact Function.update_self ..

/-- Going back to an earlier position of `PO_NextIndexEntry` takes back the numbers given since. -/
theorem rewind (h : IndexLayout cfg s blk k₀ K) {K₀ : ℕ} (hk : k₀ ≤ K₀) (hK : K₀ ≤ K)
    (hn : s'.nextIndexEntry = slotBack s.indexEntriesSize s.nextIndexEntry (K - K₀))
    (ha : s'.currentIndexEntryArray = s.currentIndexEntryArray)
    (hu : s'.indexEntriesUsed = s.indexEntriesUsed)
    (hs : s'.indexEntriesSize = s.indexEntriesSize) : IndexLayout cfg s' blk k₀ K₀ := by
  have hw := h.window
  have hle := h.used_le
  refine ⟨hs ▸ h.size, ?_, by rw [ha, hs]; exact h.arr, ?_, by rw [hu, hs]; exact h.used_le,
    by rw [ha, hu, hs]; exact h.unindexed, ?_, fun h0 => hu ▸ h.numbered (by omega), ?_⟩
  · rw [hs]
    exact h.span.imp id fun h1 => le_trans hK h1
  · rw [hn, hs]
    exact slotBack_lt h.next_lt (by omega)
  · rw [hu]
    omega
  · intro a ha' k hk' hkK
    rw [ha] at ha'
    rw [hs, hn, slotBack_slotBack (by omega), show K - K₀ + (K₀ - k) = K - k by omega]
    exact h.entries a ha' k hk' (by omega)

/-- Without live blocks the position of `PO_NextIndexEntry` does not matter. -/
theorem rewind_empty (h : IndexLayout cfg s blk k₀ K) {K₀ : ℕ} (hK : K₀ ≤ K)
    (hn : s'.nextIndexEntry < s.indexEntriesSize)
    (ha : s'.currentIndexEntryArray = s.currentIndexEntryArray)
    (hu : s'.indexEntriesUsed = s.indexEntriesUsed)
    (hs : s'.indexEntriesSize = s.indexEntriesSize) : IndexLayout cfg s' blk K₀ K₀ := by
  refine ⟨hs ▸ h.size, ?_, by rw [ha, hs]; exact h.arr, by rw [hs]; exact hn,
    by rw [hu, hs]; exact h.used_le, by rw [ha, hu, hs]; exact h.unindexed, by simp,
    fun h0 => hu ▸ h.numbered (by omega), ?_⟩
  · rw [hs]
    exact h.span.imp id fun h1 => le_trans hK h1
  · intro a _ k hk hkK
    exact absurd hkK (Nat.not_lt.mpr hk)

end IndexLayout

/-- The initial size is a power of two that the index range holds twice. -/
theorem initialIndexSize_eq (cfg : Cfg) (inSize : ℕ) :
    ∃ e, e + 1 < cfg.w ∧ initialIndexSize cfg inSize = 2 ^ e := by
  have hw : 8 ≤ cfg.w := by
    have := cfg.w_pos
    unfold Cfg.w at *
    omega
  unfold initialIndexSize
  rcases ceilToPow2_eq cfg.sizeofSize inSize with h0 | ⟨m, hm, hpow⟩
  · exact ⟨1, by omega, by rw [h0]; rfl⟩
  · rw [hpow]
    rcases Nat.lt_or_ge m 2 with hlt | hge
    · refine ⟨1, by omega, ?_⟩
      have hle : 2 ^ m ≤ 2 ^ 1 := Nat.pow_le_pow_right Nat.two_pos (by omega)
      omega
    · obtain ⟨m, rfl⟩ : ∃ m', m = m' + 1 := ⟨m - 1, by omega⟩
      have hle : 2 ^ 1 ≤ 2 ^ m := Nat.pow_le_pow_right Nat.two_pos (by omega)
      change m + 1 < cfg.w at hm
      refine ⟨m, hm, ?_⟩
      rw [Nat.pow_succ, Nat.mul_div_cancel _ Nat.two_pos]
      omega

/-! ## Growing the array -/

/-- One step forward undoes one step back. -/
theorem slotBack_add_one {S n d : ℕ} (hn : n < S) (hd : d + 1 ≤ S) :
    (slotBack S n (d + 1) + 1) % S = slotBack S n d := by
  rw [succ_mod (slotBack_lt hn hd)]
  unfold slotBack
  split <;> split <;> split <;> omega

/-- The copying loop started `d` slots behind its end copies these `d` entries, the oldest first, and nothing else. -/
theorem copyEntries_eq (a : IndexEntryArray) {S next : ℕ} (hn : next < S) :
    ∀ (d fuel j : ℕ) (new : ℕ → Option IndexEntry), 0 < d → d ≤ S → d ≤ fuel →
      ∃ new', copyEntries a S next fuel (slotBack S next d) j new = some (j + d, new') ∧
        (∀ m, m < j ∨ j + d ≤ m → new' m = new m) ∧
        ∀ m, 0 < m → m ≤ d → new' (j + d - m) = a.get (slotBack S next m) := by
  intro d
  induction d with
  | zero => intro fuel j new hd; exact absurd hd (Nat.lt_irrefl 0)
  | succ d ih =>
      intro fuel j new _ hdS hfuel
      obtain ⟨fuel, rfl⟩ := Nat.exists_eq_succ_of_ne_zero (Nat.ne_of_gt (Nat.lt_of_lt_of_le d.succ_pos hfuel))
      simp only [copyEntries, slotBack_add_one hn hdS]
      rcases Nat.eq_zero_or_pos d with rfl | hd
      · -- the last entry of the window
        refine ⟨_, by rw [slotBack_zero, if_pos rfl], ?_, ?_⟩
        · intro m hm
          exact Function.update_of_ne (by omega) _ _
        · intro m hm hm1
          obtain rfl : m = 1 := by omega
          simp
      · rw [if_neg (slotBack_ne hd (by omega))]
        obtain ⟨new', heq, hold, hnew⟩ := ih fuel (j + 1)
          (Function.update new j (a.get (slotBack S next (d + 1)))) hd (by omega) (by omega)
        refine ⟨new', by rw [heq, show j + 1 + d = j + (d + 1) by omega], ?_, ?_⟩
        · intro m hm
          rw [hold m (by omega), Function.update_of_ne (by omega)]
        · intro m hm hmd
          rcases Nat.lt_or_ge d m with hlt | hge
          · obtain rfl : m = d + 1 := by omega
            rw [Nat.add_sub_cancel, hold j (by omega), Function.update_self]
          · rw [show j + (d + 1) - m = j + 1 + d - m by omega]
            exact hnew m hm hge

namespace IndexLayout

/-- What `CreateNewBlockIndexArray` copies: the used entries end up at the start of the new array. -/
theorem copiedEntries_eq (h : IndexLayout cfg s blk k₀ K) :
    ∃ new, s.copiedEntries cfg = some (s.indexEntriesUsed, new) ∧
      ∀ a ∈ s.currentIndexEntryArray.head?, ∀ m, 0 < m → m ≤ s.indexEntriesUsed →
        new (s.indexEntriesUsed - m) = a.entries (slotBack s.indexEntriesSize s.nextIndexEntry m) := by
  unfold copiedEntries
  rcases Nat.eq_zero_or_pos s.indexEntriesUsed with h0 | hu
  · refine ⟨fun _ => none, by rw [if_pos h0, h0], ?_⟩
    intro a _ m hm hm0
    omega
  · obtain ⟨a, prev, harr, hsize⟩ := h.exists_array hu
    obtain ⟨new, heq, -, hnew⟩ := copyEntries_eq a h.next_lt s.indexEntriesUsed s.indexEntriesSize 0
      (fun _ => none) hu h.used_le h.used_le
    refine ⟨new, ?_, ?_⟩
    · rw [if_neg hu.ne']
      simp only [harr]
      rw [sub_mod_eq_slotBack h.size_dvd h.next_lt h.used_le, heq, Nat.zero_add]
    · intro b hb m hm hmu
      rw [harr, List.head?_cons, Option.mem_def, Option.some.injEq] at hb
      subst hb
      have hslot := slotBack_lt (d := m) h.next_lt (le_trans hmu h.used_le)
      rw [Nat.zero_add] at hnew
      rw [hnew m hm hmu, IndexEntryArray.get, hsize, if_pos hslot]

/-- An array that is full, but not of blocks for all the indices there are, can still double. -/
theorem grow_dvd (h : IndexLayout cfg s blk k₀ K)
    (hroom : s.indexEntriesUsed * cfg.blockSize < 2 ^ cfg.w) (hex : s.indexExhausted = true) :
    2 * s.indexEntriesSize * cfg.blockSize ∣ 2 ^ cfg.w := by
  rw [indexExhausted, Bool.or_eq_true, List.isEmpty_iff, beq_iff_eq] at hex
  rcases hex with hnil | hfull
  · exact (h.unindexed hnil).2
  · obtain ⟨e, -, hS⟩ := h.size
    rw [hfull, hS, Cfg.blockSize, ← Nat.pow_add, Nat.pow_lt_pow_iff_right (by decide)] at hroom
    rw [hS, Cfg.blockSize, ← Nat.pow_succ', ← Nat.pow_add]
    exact Nat.pow_dvd_pow 2 (by omega)

/-- **Growth.** Either an allocation fails and only `allocs` moves on, or the entries of the live blocks
    keep their distance from `PO_NextIndexEntry` in an array of twice the size. -/
theorem create (h : IndexLayout cfg s blk k₀ K) (hS : 2 * s.indexEntriesSize * cfg.blockSize ∣ 2 ^ cfg.w)
    (filledSlot : ℕ) :
    (∃ allocs, s.createNewBlockIndexArray cfg filledSlot = some (false, { s with allocs := allocs }) ∧
      s.allocs ≠ []) ∨
    ∃ s', s.createNewBlockIndexArray cfg filledSlot = some (true, s') ∧ IndexLayout cfg s' blk k₀ K ∧
      s' = { s with currentIndexEntryArray := s'.currentIndexEntryArray,
                    nextIndexEntry := s.indexEntriesUsed,
                    indexEntriesSize := 2 * s.indexEntriesSize, allocs := s'.allocs } ∧
      s'.currentIndexEntryArray ≠ [] ∧ s'.tailSlot = some (Word.sub cfg.w filledSlot 1) ∧
      (s.allocs = [] → s'.allocs = []) := by
  obtain ⟨new, hcopy, hnew⟩ := h.copiedEntries_eq
  rcases hal : LockFreeStructures.allocate s.allocs with ⟨ok, allocs⟩
  cases ok with
  | false =>
      refine Or.inl ⟨allocs, by simp [createNewBlockIndexArray, FastQueue.allocate, hal], ?_⟩
      intro hnil
      simp [hnil, LockFreeStructures.allocate] at hal
  | true =>
      rcases hal' : LockFreeStructures.allocate allocs with ⟨ok', allocs'⟩
      cases ok' with
      | false =>
          refine Or.inl ⟨allocs', by simp [createNewBlockIndexArray, FastQueue.allocate, hal, hal'], ?_⟩
          intro hnil
          simp only [hnil, LockFreeStructures.allocate, Prod.mk.injEq, true_and] at hal
          simp [← hal, LockFreeStructures.allocate] at hal'
      | true =>
          have hcopy' : FastQueue.copiedEntries cfg { s with allocs := allocs' }
              = some (s.indexEntriesUsed, new) := hcopy
          refine Or.inr ⟨{ s with
              currentIndexEntryArray :=
                ⟨2 * s.indexEntriesSize, Word.sub cfg.w filledSlot 1, new⟩ :: s.currentIndexEntryArray
              nextIndexEntry := s.indexEntriesUsed
              indexEntriesSize := 2 * s.indexEntriesSize
              allocs := allocs' },
            by simp [createNewBlockIndexArray, FastQueue.allocate, hal, hal', hcopy'], ?_, rfl, by simp, rfl,
            ?_⟩
          · obtain ⟨e, he, hSe⟩ := h.size
            have hSpos := Nat.lt_of_le_of_lt (Nat.zero_le _) h.next_lt
            have hle := h.used_le
            have hdvd : 2 ^ (e + 1) ∣ 2 ^ cfg.w := by
              rw [Nat.pow_succ', ← hSe]
              exact Dvd.dvd.trans (Dvd.intro _ rfl) hS
            refine ⟨⟨e + 1, (Nat.pow_dvd_pow_iff_le_right (by decide)).mp hdvd, ?_⟩, Or.inl hS, ?_, ?_, ?_,
              ?_, h.window, h.numbered, ?_⟩
            · show 2 * s.indexEntriesSize = 2 ^ (e + 1)
              rw [hSe, Nat.pow_succ']
            · intro a ha
              simp only [List.head?_cons, Option.mem_def, Option.some.injEq] at ha
              rw [← ha]
            · show s.indexEntriesUsed < 2 * s.indexEntriesSize
              omega
            · show s.indexEntriesUsed ≤ 2 * s.indexEntriesSize
              omega
            · intro hnil
              simp at hnil
            · intro a ha k hk hkK
              simp only [List.head?_cons, Option.mem_def, Option.some.injEq] at ha
              subst ha
              have hwin := h.window
              obtain ⟨b, prev, harr, -⟩ := h.exists_array (by omega)
              have hb : b ∈ s.currentIndexEntryArray.head? := by rw [harr]; rfl
              show new (slotBack (2 * s.indexEntriesSize) s.indexEntriesUsed (K - k)) = _
              rw [show slotBack (2 * s.indexEntriesSize) s.indexEntriesUsed (K - k)
                  = s.indexEntriesUsed - (K - k) from if_pos (by omega),
                hnew b hb (K - k) (by omega) (by omega)]
              exact h.entries b hb k hk hkK
          · intro hnil
            simp only [hnil, LockFreeStructures.allocate, Prod.mk.injEq, true_and] at hal
            simp only [← hal, LockFreeStructures.allocate, Prod.mk.injEq, true_and] at hal'
            exact hal'.symm

/-! ## Looking an element up -/

/-- **Lookup.** While `Tail` is at the entry of the newest block number, the head's element is looked up to
    the block of its number. -/
theorem lookup_eq {H : ℕ} (h : IndexLayout cfg s blk (H / cfg.blockSize) K) (hH : H < K * cfg.blockSize)
    (ht : s.tailSlot = some (slotBack s.indexEntriesSize s.nextIndexEntry 1)) :
    s.lookup cfg (H % 2 ^ cfg.w) = some (blk (H / cfg.blockSize)) := by
  have hbase : Word.alignDown cfg.blockSizeLog2 (H % 2 ^ cfg.w)
      = H / cfg.blockSize * cfg.blockSize % 2 ^ cfg.w := Word.alignDown_mod cfg.blockSizeLog2_le
  have hk : H / cfg.blockSize < K := cfg.block_lt hH
  generalize H / cfg.blockSize = k₀ at h hk hbase ⊢
  have hw := h.window
  have hle := h.used_le
  obtain ⟨a, prev, harr, hsize⟩ := h.exists_array (by omega)
  have ha : a ∈ s.currentIndexEntryArray.head? := by rw [harr]; rfl
  have htail : a.tail = slotBack s.indexEntriesSize s.nextIndexEntry 1 := by
    simpa [tailSlot, harr] using ht
  have hlt := slotBack_lt (d := 1) h.next_lt (by omega)
  obtain ⟨d, rfl⟩ : ∃ d, K = k₀ + d + 1 := ⟨K - 1 - k₀, by omega⟩
  have hnewest : a.get a.tail = some ⟨(k₀ + d) * cfg.blockSize % 2 ^ cfg.w, blk (k₀ + d)⟩ := by
    rw [IndexEntryArray.get, hsize, htail, if_pos hlt]
    have := h.entries a ha (k₀ + d) (by omega) (by omega)
    rwa [Nat.add_sub_cancel_left] at this
  have hslot : Word.add cfg.w a.tail (Word.sub cfg.w (Word.alignDown cfg.blockSizeLog2 (H % 2 ^ cfg.w))
        ((k₀ + d) * cfg.blockSize % 2 ^ cfg.w) / cfg.blockSize) % a.size
      = slotBack s.indexEntriesSize s.nextIndexEntry (d + 1) := by
    rw [Word.add, hsize, Nat.mod_mod_of_dvd _ h.size_dvd, htail, hbase]
    rcases h.span with hspan | hK1
    · refine (add_mod_eq_slotBack hspan hlt (by omega)).trans ?_
      rw [slotBack_slotBack (by omega), Nat.add_comm]
    · obtain rfl : d = 0 := by omega
      rw [Nat.add_zero, Word.sub_mod_mod (Nat.le_refl _) (by simp), Nat.sub_self, Nat.zero_div,
        Nat.add_zero, Nat.mod_eq_of_lt hlt]
  have hentry : a.get (slotBack s.indexEntriesSize s.nextIndexEntry (d + 1))
      = some ⟨k₀ * cfg.blockSize % 2 ^ cfg.w, blk k₀⟩ := by
    rw [IndexEntryArray.get, hsize, if_pos (slotBack_lt h.next_lt (by omega))]
    have := h.entries a ha k₀ (Nat.le_refl _) hk
    rwa [show k₀ + d + 1 - k₀ = d + 1 by omega] at this
  simp only [lookup, harr, List.head?_cons, Option.bind_eq_bind, Option.bind_some, hnewest, hslot, hentry]

end IndexLayout

end FastQueue

end LockFreeStructures
