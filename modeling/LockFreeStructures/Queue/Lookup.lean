import LockFreeStructures.Queue.Size
import LockFreeStructures.SlowQueue.Defs

/-!
# `Queue.Lookup` — block lookup and comparison when the indices wrap

Both queues find the block of an index by its distance, in blocks, from the base at the array's `Tail`. The
distance is computed in words, so it wraps, and it is shifted as an unsigned number even where it is negative; the
mask of the array makes up for both.
-/

namespace LockFreeStructures

variable {α : Type} {cfg : Cfg}

/-- The slot at a signed distance round a circular array. -/
def slotAt (size tail : ℕ) (d : ℤ) : ℕ := ((tail + d) % size).toNat

/-- Congruent distances lead to the same slot. -/
theorem mod_eq_slotAt {S n tail c k m : ℕ} (hc : c + m = tail + S * m) (hn : n ≡ c + k [MOD S]) :
    n % S = slotAt S tail ((k : ℤ) - m) := by
  have hz : ((n % S : ℕ) : ℤ) = ((tail : ℤ) + ((k : ℤ) - m)) % S := by
    rw [hn, Int.natCast_emod]
    have hcast : ((c + k : ℕ) : ℤ) = tail + ((k : ℤ) - m) + S * m := by
      have : (c : ℤ) + m = tail + S * m := by exact_mod_cast hc
      push_cast
      linarith
    rw [hcast, Int.add_mul_emod_self_left]
  rw [slotAt, ← hz, Int.toNat_natCast]

/-- **The lookup in words.** -/
theorem wordLookup_eq_slotAt {e tail m i : ℕ} (hsize : 2 ^ e * cfg.blockSize ≤ 2 ^ cfg.w) :
    Word.add cfg.w tail (Word.sub cfg.w (Word.alignDown cfg.blockSizeLog2 (i % 2 ^ cfg.w))
        (m * cfg.blockSize % 2 ^ cfg.w) / cfg.blockSize) % 2 ^ e
      = slotAt (2 ^ e) tail ((i / cfg.blockSize : ℕ) - m) := by
  have hpow : 2 ^ e * 2 ^ cfg.blockSizeLog2 ∣ 2 ^ cfg.w := by
    rw [Cfg.blockSize, ← Nat.pow_add] at hsize
    rw [← Nat.pow_add]
    exact Nat.pow_dvd_pow 2 ((Nat.pow_le_pow_iff_right (by decide)).mp hsize)
  have hpos : 0 < 2 ^ e := Nat.two_pow_pos e
  -- a slot for block number 0, some turns ahead
  obtain ⟨c, hc⟩ : ∃ c, c + m = tail + 2 ^ e * m :=
    ⟨tail + 2 ^ e * m - m, Nat.sub_add_cancel ((Nat.le_mul_of_pos_left m hpos).trans (Nat.le_add_left _ _))⟩
  have hmod : tail ≡ c + m [MOD 2 ^ e] := by
    rw [hc]
    exact (Nat.add_mul_mod_self_left ..).symm
  have hlook := add_sub_div_modEq (k := i / cfg.blockSize) hpow cfg.blockSizeLog2_le hmod
  rw [Word.add, Word.alignDown_mod cfg.blockSizeLog2_le,
    Nat.mod_mod_of_dvd _ (Dvd.dvd.trans (Nat.dvd_mul_right _ _) hpow)]
  exact mod_eq_slotAt hc hlook

/-- Counters less than half the range apart compare as their words do, and the distance is that of the words. -/
theorem compare_of_lt_half {h t : ℕ} (hle : h ≤ t) (hlt : t - h < 2 ^ (cfg.w - 1)) :
    (∀ x y, h ≤ x → x ≤ t → h ≤ y → y ≤ t →
      (circularLessThan cfg.w (x % 2 ^ cfg.w) (y % 2 ^ cfg.w) = true ↔ x < y)) ∧
    (if circularLessThan cfg.w (h % 2 ^ cfg.w) (t % 2 ^ cfg.w) then Word.sub cfg.w (t % 2 ^ cfg.w) (h % 2 ^ cfg.w)
      else 0) = t - h := by
  have hhalf := cfg.half_add_half
  have hcmp : ∀ x y, h ≤ x → x ≤ t → h ≤ y → y ≤ t →
      (circularLessThan cfg.w (x % 2 ^ cfg.w) (y % 2 ^ cfg.w) = true ↔ x < y) := by
    intro x y hx hxt hy hyt
    rcases Nat.le_or_le x y with hxy | hyx
    · exact circularLessThan_mod_of_lt cfg.w_pos hxy (by omega)
    · rw [circularLessThan_mod_of_ge hyx (by omega) cfg.w_pos]
      exact iff_of_false Bool.false_ne_true (Nat.not_lt_of_le hyx)
  refine ⟨hcmp, ?_⟩
  rw [Word.sub_mod_mod hle (by omega)]
  by_cases heq : h < t
  · rw [if_pos ((hcmp h t le_rfl hle hle le_rfl).mpr heq)]
  · rw [if_neg fun hc => heq ((hcmp h t le_rfl hle hle le_rfl).mp hc)]
    omega

/-- **Lookup and comparison survive the wrap of the indices**, whatever block the base at `Tail` is of. -/
theorem lookups_survive_wrap {h t i m e tail : ℕ} (hi : h ≤ i) (hit : i < t) (hlt : t - h < 2 ^ (cfg.w - 1))
    (hsize : 2 ^ e * cfg.blockSize ≤ 2 ^ cfg.w) (htail : tail < 2 ^ e) :
    (∀ (s : FastQueue α) a prev p, s.currentIndexEntryArray = a :: prev → a.size = 2 ^ e → a.tail = tail →
      a.entries tail = some ⟨m * cfg.blockSize % 2 ^ cfg.w, p⟩ →
      s.lookup cfg (i % 2 ^ cfg.w) =
        (a.get (slotAt (2 ^ e) tail ((i / cfg.blockSize : ℕ) - m))).map (·.innerBlock)) ∧
    (∀ (s : SlowQueue α) a, s.currentIndexEntryArray = some a → a.size = 2 ^ e → a.tail = tail →
      (s.entries (a.index tail)).key = m * cfg.blockSize % 2 ^ cfg.w →
      s.getBlockIndexIndexForIndex cfg (i % 2 ^ cfg.w) =
        some (slotAt (2 ^ e) tail ((i / cfg.blockSize : ℕ) - m))) ∧
    (∀ x y, h ≤ x → x ≤ t → h ≤ y → y ≤ t →
      (circularLessThan cfg.w (x % 2 ^ cfg.w) (y % 2 ^ cfg.w) = true ↔ x < y)) ∧
    (∀ s : FastQueue α, s.headIndex = h % 2 ^ cfg.w → s.tailIndex = t % 2 ^ cfg.w → s.size cfg = t - h) ∧
    ∀ s : SlowQueue α, s.headIndex = h % 2 ^ cfg.w → s.tailIndex = t % 2 ^ cfg.w → s.size cfg = t - h := by
  obtain ⟨hcmp, hsub⟩ := @compare_of_lt_half cfg _ _ (hi.trans hit.le) hlt
  refine ⟨?_, ?_, hcmp, ?_, ?_⟩
  · intro s a prev p harr hasize hatail hentry
    have hget : a.get a.tail = some ⟨m * cfg.blockSize % 2 ^ cfg.w, p⟩ := by
      rw [hatail, FastQueue.IndexEntryArray.get, hasize, if_pos htail, hentry]
    simp only [FastQueue.lookup, harr, List.head?_cons, Option.bind_eq_bind, Option.bind_some, hget]
    rw [hasize, hatail, wordLookup_eq_slotAt hsize]
    cases a.get (slotAt (2 ^ e) tail ((i / cfg.blockSize : ℕ) - m)) <;> rfl
  · intro s a harr hasize hatail hkey
    have hget : a.get a.tail = some (a.index tail) := by
      rw [hatail, SlowQueue.IndexEntryArray.get, hasize, if_pos htail]
    simp only [SlowQueue.getBlockIndexIndexForIndex, harr, Option.bind_eq_bind, Option.bind_some, hget, hkey]
    rw [hasize, hatail, wordLookup_eq_slotAt hsize]
  · intro s hhead htailIndex
    rw [FastQueue.size, hhead, htailIndex]
    exact hsub
  · intro s hhead htailIndex
    rw [SlowQueue.size, hhead, htailIndex]
    exact hsub

theorem lookups_survive_wrap_at :
    ({ SlowQueue.unindexed ⟨8, 1, by decide, by decide⟩ 4 0 [] with
        currentIndexEntryArray := some ⟨4, 3, id⟩, entries := fun _ => ⟨2, none⟩ } :
      SlowQueue ℕ).getBlockIndexIndexForIndex ⟨8, 1, by decide, by decide⟩ 0 = some 2 := by
  have h := (@lookups_survive_wrap ℕ ⟨8, 1, by decide, by decide⟩ (2 ^ 64 - 1) (2 ^ 64 + 1) (2 ^ 64) (2 ^ 63 + 1) 2 3
    (by norm_num) (by norm_num) (by norm_num [Cfg.w]) (by norm_num [Cfg.w, Cfg.blockSize]) (by norm_num)).2.1
    { SlowQueue.unindexed ⟨8, 1, by decide, by decide⟩ 4 0 [] with
      currentIndexEntryArray := some ⟨4, 3, id⟩, entries := fun _ => ⟨2, none⟩ } ⟨4, 3, id⟩ rfl rfl rfl
    (by norm_num [Cfg.w, Cfg.blockSize])
  norm_num [Cfg.w, Cfg.blockSize, slotAt] at h
  exact h

end LockFreeStructures
