import LockFreeStructures.SlowQueue.Enqueue

/-!
# `SlowQueue.RollBack` — taking back what a bulk enqueue got

The entries of the call's blocks are emptied in order while the tail goes back, once for each; the blocks go to the
manager along their links. The newest key stays at the tail until the last step, so every lookup on the way is right.
-/

namespace LockFreeStructures

namespace SlowQueue

variable {α : Type} {cfg : Cfg} {s s' : SlowQueue α} {a a' : IndexEntryArray} {c H K k₀ k₁ E n r : ℕ} {blk : ℕ → ℕ}
  {l : List α}

/-- The blocks from number `k` up to `E` are linked in order, and the last one is linked to nothing. -/
structure Linked (s : SlowQueue α) (blk : ℕ → ℕ) (k E : ℕ) : Prop where
  links : ∀ j, k ≤ j → j + 1 < E → (s.blocks (blk j)).next = some (blk (j + 1))
  last : k < E → (s.blocks (blk (E - 1))).next = none

/-- The first block from number `k` on. -/
def firstOf (blk : ℕ → ℕ) (k E : ℕ) : Option ℕ := if k < E then some (blk k) else none

namespace Linked

theorem congr (h : Linked s blk k₁ E) (hn : ∀ q, (s'.blocks q).next = (s.blocks q).next) : Linked s' blk k₁ E :=
  ⟨fun j hj hlt => (hn _).trans (h.links j hj hlt), fun hlt => (hn _).trans (h.last hlt)⟩

/-- Behind the first block the others follow. -/
theorem succ (h : Linked s blk k₁ E) (hlt : k₁ < E) :
    (s.blocks (blk k₁)).next = firstOf blk (k₁ + 1) E ∧ Linked s blk (k₁ + 1) E := by
  refine ⟨?_, fun j hj => h.links j (Nat.le_of_succ_le hj), fun hlt' => h.last (Nat.lt_of_succ_lt hlt')⟩
  by_cases hlast : k₁ + 1 < E
  · rw [firstOf, if_pos hlast]
    exact h.links k₁ le_rfl hlast
  · have := h.last hlt
    rw [firstOf, if_neg hlast]
    rwa [show E - 1 = k₁ by omega] at this

end Linked

/-- **The entries.** They lose their values one by one, and the tail goes back behind the first of them. -/
theorem IndexLayout.rollBackEntries {fuel : ℕ} : ∀ {r k₁ cti : ℕ} {s : SlowQueue α} {a : IndexEntryArray} {v : ℕ → Option ℕ},
    IndexLayout cfg s a c k₀ E (K + r) v → Linked s blk k₁ E → k₀ ≤ K → K ≤ k₁ → K + r ≤ E → k₁ + r = E → r ≤ fuel →
    Word.add cfg.w cti cfg.blockSize = k₁ * cfg.blockSize % 2 ^ cfg.w →
    ∃ s' a', s.rollBackEntries cfg fuel (firstOf blk k₁ E) cti = some s' ∧ IndexOnly s s' ∧ s'.allocs = s.allocs ∧
      a'.size = a.size ∧ a'.index = a.index ∧ IndexLayout cfg s' a' c k₀ E K fun k => if k₁ ≤ k ∧ k < E then none else v k := by
  induction fuel with
  | zero =>
      intro r k₁ cti s a v h _ _ _ _ hr hfuel _
      obtain rfl : r = 0 := Nat.le_zero.mp hfuel
      refine ⟨s, a, ?_, .refl s, rfl, rfl, rfl, h.congr_values fun k _ => if_neg (by omega)⟩
      rw [firstOf, if_neg (by omega), SlowQueue.rollBackEntries]
  | succ fuel ih =>
      intro r k₁ cti s a v h hlinked hk hk₁ hrE hr hfuel hcti
      cases r with
      | zero =>
          refine ⟨s, a, ?_, .refl s, rfl, rfl, rfl, h.congr_values fun k _ => if_neg (by omega)⟩
          rw [firstOf, if_neg (by omega), SlowQueue.rollBackEntries]
      | succ r =>
          have hwin := h.window
          have hlookup := h.getBlockIndexEntryForIndex (M := K + r) (by omega) (by omega) (k₁ * cfg.blockSize)
          rw [← hcti, Nat.mul_div_cancel _ cfg.blockSize_pos] at hlookup
          obtain ⟨s₁, a₁, hrew, honly₁, hal₁, hsize, hindex, h₁⟩ :=
            (h.storeValue (hk.trans hk₁) (by omega) none).rewindBlockIndexTail
          have hb₁ : s₁.blocks = s.blocks := by rw [honly₁.rest]; rfl
          obtain ⟨hnext, hlinked'⟩ := (hlinked.congr fun q => by rw [hb₁]).succ (by omega)
          obtain ⟨s₂, a₂, hrun, honly₂, hal₂, hsize₂, hindex₂, h₂⟩ := @ih r (k₁ + 1) (Word.add cfg.w cti cfg.blockSize) _ _ _ h₁ hlinked' hk (by omega)
            (by omega) (by omega) (by omega) (by rw [hcti, Word.add_mod_left, Nat.succ_mul])
          refine ⟨s₂, a₂, ?_, ((IndexOnly.storeValue s _ none).trans honly₁).trans honly₂, hal₂.trans hal₁,
            hsize₂.trans hsize, hindex₂.trans hindex, h₂.congr_values fun k _ => ?_⟩
          · rw [firstOf, if_pos (by omega), SlowQueue.rollBackEntries]
            refine Option.bind_eq_some_iff.mpr ⟨_, hlookup, ?_⟩
            refine Option.bind_eq_some_iff.mpr ⟨_, hrew, ?_⟩
            rw [hnext]
            exact hrun
          · by_cases hfirst : k = k₁
            · rw [if_pos (by omega), if_neg (by omega), hfirst, Function.update_self]
            · rw [Function.update_of_ne hfirst]
              by_cases hin : k₁ ≤ k ∧ k < E
              · rw [if_pos hin, if_pos (by omega)]
              · rw [if_neg hin, if_neg (by omega)]

/-- **The blocks.** They go back to the manager in order. -/
theorem returnBlocks_eq : ∀ {fuel k₁ : ℕ} {s : SlowQueue α}, s.blockManager.WF → Linked s blk k₁ E → E ≤ k₁ + fuel →
    s.blockManager.outstanding.Perm (liveBlocks blk k₁ E ++ liveBlocks blk k₀ K) →
    ∃ s', s.returnBlocks fuel (firstOf blk k₁ E) = some s' ∧
      s' = { s with blockManager := s'.blockManager, events := s'.events } ∧ s'.blockManager.WF ∧
      s'.blockManager.outstanding.Perm (liveBlocks blk k₀ K) ∧
      s'.events = s.events ++ (liveBlocks blk k₁ E).map .returned := by
  intro fuel
  induction fuel with
  | zero =>
      intro k₁ s hwf _ hfuel hout
      have hnone : liveBlocks blk k₁ E = [] := List.eq_nil_of_length_eq_zero (by rw [length_liveBlocks]; omega)
      rw [hnone] at hout ⊢
      refine ⟨s, ?_, rfl, hwf, hout, (List.append_nil _).symm⟩
      rw [firstOf, if_neg (by omega), SlowQueue.returnBlocks]
  | succ fuel ih =>
      intro k₁ s hwf hlinked hfuel hout
      by_cases hlt : k₁ < E
      · obtain ⟨hnext, hlinked'⟩ := hlinked.succ hlt
        rw [liveBlocks_cons hlt] at hout ⊢
        have herase := hout.erase (blk k₁)
        rw [List.cons_append, List.erase_cons_head] at herase
        obtain ⟨s', hrun, hrest, hwf', hout', hev⟩ := @ih (k₁ + 1) (s.returnBlock (blk k₁))
          (hwf.returnBlock (hout.mem_iff.mpr List.mem_cons_self)) (hlinked'.congr fun _ => rfl) (by omega) herase
        refine ⟨s', ?_, ?_, hwf', hout', ?_⟩
        · rw [firstOf, if_pos hlt, SlowQueue.returnBlocks, hnext]
          exact hrun
        · rw [hrest]
          rfl
        · rw [hev, List.map_cons]
          exact List.append_assoc _ [_] _
      · have hnone : liveBlocks blk k₁ E = [] := List.eq_nil_of_length_eq_zero (by rw [length_liveBlocks]; omega)
        rw [hnone] at hout ⊢
        refine ⟨s, ?_, rfl, hwf, hout, (List.append_nil _).symm⟩
        rw [firstOf, if_neg hlt, SlowQueue.returnBlocks]

/-- **Roll back.** The blocks from number `K` on are taken out again. -/
theorem Layout.rollBack (h : Layout cfg s a c H (K + n) blk l) (hlinked : Linked s blk K (K + n))
    (hfits : H + l.length ≤ K * cfg.blockSize) {t : ℕ} {o : Option ℕ}
    (hbase : Word.add cfg.w (Word.alignDown cfg.blockSizeLog2 (Word.sub cfg.w t 1)) cfg.blockSize
      = K * cfg.blockSize % 2 ^ cfg.w) (htail : H / cfg.blockSize < K → o = some (blk (K - 1))) :
    ∃ s' a', s.rollBack cfg t o (firstOf blk K (K + n)) = some s' ∧ Layout cfg s' a' c H K blk l ∧
      a'.size = a.size ∧ a'.index = a.index ∧ s'.tailBlock = o ∧
      s'.headIndex = s.headIndex ∧ s'.tailIndex = s.tailIndex ∧ s'.dequeueAttemptsCount = s.dequeueAttemptsCount ∧
      s'.dequeueFailedCount = s.dequeueFailedCount ∧
      s'.events = s.events ++ (liveBlocks blk K (K + n)).map .returned := by
  have hdead : H / cfg.blockSize ≤ K := Nat.div_le_of_le_mul (by rw [Nat.mul_comm]; omega)
  have hlen : n ≤ s.blockManager.blockCount := by
    have := h.manager.length_outstanding_le
    rw [h.outstanding.length_eq, length_liveBlocks] at this
    omega
  obtain ⟨s₁, a₁, hentries, honly₁, -, hsize, hindex, hi₁⟩ := h.index.rollBackEntries hlinked hdead le_rfl le_rfl rfl hlen hbase
  have hb₁ : s₁.blocks = s.blocks := by rw [honly₁.rest]
  have hm₁ : s₁.blockManager = s.blockManager := by rw [honly₁.rest]
  obtain ⟨s₂, hreturn, hrest, hwf, hout, hev⟩ := @returnBlocks_eq α K (H / cfg.blockSize) (K + n) blk
    s.blockManager.blockCount K s₁ (hm₁ ▸ h.manager) (hlinked.congr fun q => by rw [hb₁]) (by omega) (by
      rw [hm₁]
      exact h.outstanding.trans (by rw [liveBlocks_append hdead (Nat.le_add_right K n)]; exact List.perm_append_comm))
  have hb₂ : s₂.blocks = s.blocks := by rw [hrest, ← hb₁]
  have hroom : K * cfg.blockSize < H + 2 ^ (cfg.w - 1) := by
    have := Nat.mul_le_mul_right cfg.blockSize (Nat.le_add_right K n)
    have := h.room
    omega
  have hi₂ : IndexLayout cfg s₂ a₁ c (H / cfg.blockSize) K K (values blk K) := by
    refine ((hi₁.congr ?_ ?_ ?_ ?_).shrink (Nat.le_add_right K n)).congr_values fun k _ => ?_
    · rw [hrest]
    · rw [hrest]
    · rw [hrest]
    · rw [hrest]
    · by_cases hk : k < K
      · rw [if_neg (by omega), values_of_lt hk, values_of_lt (by omega)]
      · by_cases hk' : k < K + n
        · rw [if_pos (by omega), values_of_ge (by omega)]
        · rw [if_neg (by omega), values_of_ge (by omega), values_of_ge (by omega)]
  refine ⟨{ s₂ with tailBlock := o }, a₁, ?_, ⟨hwf, hout, hi₂.congr rfl rfl rfl rfl, ?_, fun k hk hkK => ?_, htail, hfits,
    hroom⟩, hsize, hindex, rfl, ?_, ?_, ?_, ?_, ?_⟩
  · simp only [SlowQueue.rollBack]
    refine Option.bind_eq_some_iff.mpr ⟨_, hentries, ?_⟩
    exact Option.bind_eq_some_iff.mpr ⟨_, hreturn, rfl⟩
  · exact (h.elements.shrink (Nat.le_add_right K n) fun j hj => contents_of_ge (by omega)).congr fun q => by rw [hb₂]
  · show (s₂.blocks _).policy.counter = _
    rw [hb₂]
    exact h.counters k hk (by omega)
  · show s₂.headIndex = _
    rw [hrest, honly₁.rest]
  · show s₂.tailIndex = _
    rw [hrest, honly₁.rest]
  · show s₂.dequeueAttemptsCount = _
    rw [hrest, honly₁.rest]
  · show s₂.dequeueFailedCount = _
    rw [hrest, honly₁.rest]
  · show s₂.events = _
    rw [hev, honly₁.rest]

end SlowQueue

end LockFreeStructures
