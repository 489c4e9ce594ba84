import LockFreeStructures.Queue.Elements
import LockFreeStructures.SlowQueue.Index

/-!
# `SlowQueue.Layout` — how the list lies in the blocks

The blocks outside the block manager are those of the numbers from `H / BlockSize` up to `K`: a block is given
back with its last element. Between calls `K` is the number of blocks the elements so far need.
-/

namespace LockFreeStructures

namespace SlowQueue

variable {α : Type} {cfg : Cfg} {s s' : SlowQueue α} {a a' : IndexEntryArray} {c c' k k₀ H K p q : ℕ}
  {blk : ℕ → ℕ} {l : List α}

/-! ## What the elementary operations change -/

section Simp

variable (f : CounterCheckPolicy → CounterCheckPolicy) (n : Option ℕ)

theorem blocks_modifyPolicy : (s.modifyPolicy p f).blocks q =
    if q = p then { s.blocks p with policy := f (s.blocks p).policy } else s.blocks q :=
  Function.update_apply ..

@[simp] theorem next_modifyPolicy : ((s.modifyPolicy p f).blocks q).next = (s.blocks q).next := by
  rw [blocks_modifyPolicy]
  split
  · next h => rw [h]
  · rfl

@[simp] theorem elements_modifyPolicy : ((s.modifyPolicy p f).blocks q).elements = (s.blocks q).elements := by
  rw [blocks_modifyPolicy]
  split
  · next h => rw [h]
  · rfl

@[simp] theorem policy_modifyPolicy_self : ((s.modifyPolicy p f).blocks p).policy = f (s.blocks p).policy := by
  rw [blocks_modifyPolicy, if_pos rfl]

theorem policy_modifyPolicy_of_ne (h : q ≠ p) :
    ((s.modifyPolicy p f).blocks q).policy = (s.blocks q).policy := by
  rw [blocks_modifyPolicy, if_neg h]

theorem blocks_setNext : (s.setNext p n).blocks q =
    if q = p then { s.blocks p with next := n } else s.blocks q :=
  Function.update_apply ..

@[simp] theorem policy_setNext : ((s.setNext p n).blocks q).policy = (s.blocks q).policy := by
  rw [blocks_setNext]
  split
  · next h => rw [h]
  · rfl

@[simp] theorem elements_setNext : ((s.setNext p n).blocks q).elements = (s.blocks q).elements := by
  rw [blocks_setNext]
  split
  · next h => rw [h]
  · rfl

@[simp] theorem next_setNext_self : ((s.setNext p n).blocks p).next = n := by
  rw [blocks_setNext, if_pos rfl]

theorem next_setNext_of_ne (h : q ≠ p) : ((s.setNext p n).blocks q).next = (s.blocks q).next := by
  rw [blocks_setNext, if_neg h]

end Simp

/-! ## The layout -/

/-- The values of the entries when `K` block numbers are given out. -/
def values (blk : ℕ → ℕ) (K k : ℕ) : Option ℕ := if k < K then some (blk k) else none

/-- The list `l`, its first element being number `H`, lies in the queue; `K` block numbers are given out. -/
structure Layout (cfg : Cfg) (s : SlowQueue α) (a : IndexEntryArray) (c H K : ℕ) (blk : ℕ → ℕ) (l : List α) :
    Prop where
  manager : s.blockManager.WF
  outstanding : s.blockManager.outstanding.Perm (liveBlocks blk (H / cfg.blockSize) K)
  index : IndexLayout cfg s a c (H / cfg.blockSize) K K (values blk K)
  elements : s.toSlots.Holds cfg blk (H / cfg.blockSize) K (contents H l)
  counters : ∀ k, H / cfg.blockSize ≤ k → k < K → (s.blocks (blk k)).policy.counter = H - k * cfg.blockSize
  tailBlock : H / cfg.blockSize < K → s.tailBlock = some (blk (K - 1))
  fits : H + l.length ≤ K * cfg.blockSize
  room : K * cfg.blockSize < H + 2 ^ (cfg.w - 1)

theorem values_of_lt (h : k < K) : values blk K k = some (blk k) := if_pos h

theorem values_of_ge (h : K ≤ k) : values blk K k = none := if_neg (Nat.not_lt.mpr h)

/-- The next number gets a block. -/
theorem values_update : Function.update (values blk K) K (some p) = values (Function.update blk K p) (K + 1) := by
  funext k
  unfold values
  by_cases hk : k = K
  · rw [hk, Function.update_self, if_pos (Nat.lt_succ_self K), Function.update_self]
  · rw [Function.update_of_ne hk, Function.update_of_ne hk]
    by_cases hlt : k < K
    · rw [if_pos hlt, if_pos (Nat.lt_succ_of_lt hlt)]
    · rw [if_neg hlt, if_neg (by omega)]

/-- The values of one turn are what matters. -/
theorem IndexLayout.congr_values {E M : ℕ} {v v' : ℕ → Option ℕ} (h : IndexLayout cfg s a c k₀ E M v)
    (hv : ∀ k, k₀ ≤ k → v' k = v k) : IndexLayout cfg s a c k₀ E M v' :=
  ⟨h.arr, h.size, h.nextSize, h.span, h.tail_lt, h.tail, h.inj, h.issued, h.window, h.keys,
    fun k hk hlt => (h.values k hk hlt).trans (hv k hk).symm⟩

namespace Layout

/-- The layout depends on the blocks, the index, the manager and the tail block. -/
theorem congr (h : Layout cfg s a c H K blk l) (hb : s'.blocks = s.blocks) (hm : s'.blockManager = s.blockManager)
    (ht : s'.tailBlock = s.tailBlock) (ha : s'.currentIndexEntryArray = s.currentIndexEntryArray)
    (hn : s'.indexEntriesSize = s.indexEntriesSize) (he : s'.entries = s.entries)
    (hc : s'.entryCount = s.entryCount) : Layout cfg s' a c H K blk l :=
  ⟨hm ▸ h.manager, hm ▸ h.outstanding, h.index.congr ha hn he hc, h.elements.congr fun q => by rw [hb],
    fun k hk hkK => by rw [hb]; exact h.counters k hk hkK, fun hlt => ht.trans (h.tailBlock hlt), h.fits, h.room⟩

theorem nodup (h : Layout cfg s a c H K blk l) : (liveBlocks blk (H / cfg.blockSize) K).Nodup :=
  h.outstanding.nodup_iff.mp (List.nodup_append.mp h.manager.nodup).1

theorem blk_inj (h : Layout cfg s a c H K blk l) : ∀ k k', H / cfg.blockSize ≤ k → k < K → H / cfg.blockSize ≤ k' →
    k' < K → blk k = blk k' → k = k' := fun k k' hk hkK hk' hkK' heq =>
  List.inj_on_of_nodup_map h.nodup (List.mem_range'_1.mpr ⟨hk, by omega⟩) (List.mem_range'_1.mpr ⟨hk', by omega⟩) heq

theorem head_le (h : Layout cfg s a c H K blk l) : H ≤ K * cfg.blockSize := by
  have := h.fits
  omega

theorem head_div_le (h : Layout cfg s a c H K blk l) : H / cfg.blockSize ≤ K :=
  Nat.div_le_of_le_mul (by rw [Nat.mul_comm]; exact h.head_le)

theorem length_lt (h : Layout cfg s a c H K blk l) : l.length < 2 ^ (cfg.w - 1) := by
  have := h.fits
  have := h.room
  omega

/-- **A block more.** A block that is new from the manager and reset gets the next number. -/
theorem push (h : Layout cfg s a c H K blk l) (hm : s'.blockManager.WF) (hp : p ∉ s.blockManager.outstanding)
    (hout : s'.blockManager.outstanding = p :: s.blockManager.outstanding)
    (hindex : IndexLayout cfg s' a' c' (H / cfg.blockSize) (K + 1) (K + 1)
      (values (Function.update blk K p) (K + 1)))
    (hel : ∀ q, (s'.blocks q).elements = (s.blocks q).elements)
    (hpol : ∀ q ≠ p, (s'.blocks q).policy = (s.blocks q).policy) (hreset : (s'.blocks p).policy.counter = 0)
    (ht : s'.tailBlock = some p) (hroom : (K + 1) * cfg.blockSize < H + 2 ^ (cfg.w - 1)) :
    Layout cfg s' a' c' H (K + 1) (Function.update blk K p) l := by
  have hle := h.head_div_le
  have hfits := h.fits
  have hnew : ∀ k, H / cfg.blockSize ≤ k → k < K → blk k ≠ p := by
    rintro k hk hkK rfl
    exact hp (h.outstanding.mem_iff.mpr (blk_mem_liveBlocks hk hkK))
  refine ⟨hm, ?_, hindex, ?_, fun k hk hkK => ?_, fun _ => ?_, ?_, hroom⟩
  · rw [hout, liveBlocks_succ hle]
    exact (h.outstanding.cons p).trans (List.perm_append_singleton p _).symm
  · refine h.elements.push hle (fun hmem => hp (h.outstanding.mem_iff.mpr hmem)) (fun n hn => ?_) hel
    exact contents_of_ge (by omega)
  · rcases Nat.lt_succ_iff_lt_or_eq.mp hkK with hlt | rfl
    · rw [Function.update_of_ne hlt.ne, hpol _ (hnew k hk hlt)]
      exact h.counters k hk hlt
    · rw [Function.update_self, hreset]
      omega
  · rw [ht, Nat.add_sub_cancel, Function.update_self]
  · rw [Nat.succ_mul]
    omega

/-- An element is constructed in the slot of its number. -/
theorem construct (h : Layout cfg s a c H K blk l) (hT : H + l.length < K * cfg.blockSize) (x : α) :
    Layout cfg
      { s with
        toSlots :=
          s.toSlots.construct (blk ((H + l.length) / cfg.blockSize)) ((H + l.length) % cfg.blockSize) x }
      a c H K blk (l ++ [x]) := by
  have hle : H / cfg.blockSize ≤ (H + l.length) / cfg.blockSize := Nat.div_le_div_right (Nat.le_add_right _ _)
  refine ⟨h.manager, h.outstanding, h.index.congr rfl rfl rfl rfl, ?_, fun k hk hkK => ?_, h.tailBlock, ?_, h.room⟩
  · rw [contents_append]
    exact h.elements.update h.blk_inj hle (cfg.block_lt hT) (some x) fun q j => Slots.elements_construct x j
  · exact (congrArg CounterCheckPolicy.counter (Slots.policy_construct x)).trans (h.counters k hk hkK)
  · rw [List.length_append, List.length_singleton]
    omega

/-! ### Lookup -/

/-- The entry of an element's block. -/
theorem getBlockIndexEntryForIndex (h : Layout cfg s a c H K blk l) (hl : 0 < l.length) :
    s.getBlockIndexEntryForIndex cfg (H % 2 ^ cfg.w) = some (a.entryAt (c + H / cfg.blockSize)) ∧
      s.getBlockIndexIndexForIndex cfg (H % 2 ^ cfg.w) = some ((c + H / cfg.blockSize) % a.size) := by
  have hfits := h.fits
  have hk : H / cfg.blockSize < K := cfg.block_lt (by omega)
  obtain ⟨M, rfl⟩ := Nat.exists_eq_succ_of_ne_zero (Nat.ne_zero_of_lt hk)
  exact ⟨h.index.getBlockIndexEntryForIndex (Nat.lt_succ_iff.mp hk) (Nat.lt_succ_self M) H,
    h.index.getBlockIndexIndexForIndex (Nat.lt_succ_iff.mp hk) (Nat.lt_succ_self M) H⟩

/-- The entries lead to the blocks. -/
theorem value_eq (h : Layout cfg s a c H K blk l) (hk : H / cfg.blockSize ≤ k) (hkK : k < K) :
    (s.entries (a.entryAt (c + k))).value = some (blk k) := by
  rw [h.index.values k hk (Nat.lt_of_lt_of_le hkK h.index.window), values_of_lt hkK]

end Layout

/-! ## Taking elements -/

/-- The queue has changed in what a dequeue does to blocks and entries. -/
structure TakenFrom (s s' : SlowQueue α) : Prop where
  rest : s' = { s with toSlots := s'.toSlots, entries := s'.entries, blockManager := s'.blockManager }

theorem TakenFrom.refl (s : SlowQueue α) : TakenFrom s s := ⟨rfl⟩

theorem TakenFrom.trans {s'' : SlowQueue α} (h : TakenFrom s s') (h' : TakenFrom s' s'') : TakenFrom s s'' := by
  refine ⟨?_⟩
  rw [h'.rest, h.rest]

theorem TakenFrom.setSomeEmpty (s : SlowQueue α) (m : Slots CounterCheckPolicy α) (e p n : ℕ) :
    TakenFrom s ({ s with toSlots := m }.setSomeEmpty cfg e p n) := by
  refine ⟨?_⟩
  simp only [SlowQueue.setSomeEmpty]
  split <;> rfl

/-- **One block's worth.** Elements of the oldest live block are moved out; with its last element the block goes
    back to the manager and its entry becomes free. -/
theorem Layout.takeRange (h : Layout cfg s a c H K blk l) {m : ℕ} (hm : m ≤ l.length) (hm₀ : 0 < m)
    (him : H % cfg.blockSize + m ≤ cfg.blockSize) :
    ∃ m₁, s.toSlots.takeRange (blk (H / cfg.blockSize)) (H % cfg.blockSize) m = some (l.take m, m₁) ∧
      Layout cfg ({ s with toSlots := m₁ }.setSomeEmpty cfg (a.entryAt (c + H / cfg.blockSize))
        (blk (H / cfg.blockSize)) m) a c (H + m) K blk (l.drop m) := by
  have hfits := h.fits
  have hk : H / cfg.blockSize < K := cfg.block_lt (by omega)
  have hpos := cfg.pos_eq H
  have hlen : (l.take m).length = m := List.length_take_of_le hm
  have hlen' : H + m + (l.drop m).length = H + l.length := by
    rw [List.length_drop]
    omega
  obtain ⟨m₁, htake, hel, honly, -⟩ := Slots.takeRange_eq h.blk_inj le_rfl hk (l.take m)
    (i := H % cfg.blockSize) h.elements (by rw [hlen]; exact him) (by
      intro j hj
      rw [hlen] at hj
      rw [hpos, contents, if_pos (Nat.le_add_right _ _), Nat.add_sub_cancel_left, List.getElem?_take,
        if_pos hj])
  rw [hlen] at htake hel
  rw [hpos, clearFrom_contents_drop] at hel
  refine ⟨m₁, htake, ?_⟩
  have hcounter : (m₁.blocks (blk (H / cfg.blockSize))).policy.counter = H % cfg.blockSize := by
    rw [honly.policy, h.counters _ le_rfl hk]
    omega
  have hother : ∀ k, H / cfg.blockSize < k → k < K → blk k ≠ blk (H / cfg.blockSize) := fun k hlt hkK heq =>
    hlt.ne' (h.blk_inj k _ hlt.le hkK le_rfl hk heq)
  let s₂ : SlowQueue α := { s with toSlots := m₁ }.modifyPolicy (blk (H / cfg.blockSize)) fun policy =>
    ⟨policy.counter + m⟩
  have hel' : s₂.toSlots.Holds cfg blk (H / cfg.blockSize) K (contents (H + m) (l.drop m)) :=
    hel.congr fun q => elements_modifyPolicy _
  have hpol : ∀ k, H / cfg.blockSize < k → k < K →
      (s₂.blocks (blk k)).policy.counter = H + m - k * cfg.blockSize := fun k hlt hkK => by
    have hend := cfg.block_end_le hlt
    rw [policy_modifyPolicy_of_ne _ (hother k hlt hkK)]
    refine (congrArg CounterCheckPolicy.counter (honly.policy _)).trans ?_
    rw [h.counters k hlt.le hkK]
    omega
  simp only [SlowQueue.setSomeEmpty, CounterCheckPolicy.setSomeEmpty, hcounter]
  by_cases hend : H % cfg.blockSize + m = cfg.blockSize
  · -- the last element of the block
    have hnum : H + m = (H / cfg.blockSize + 1) * cfg.blockSize + 0 := by
      rw [Nat.succ_mul]
      omega
    have hdiv : (H + m) / cfg.blockSize = H / cfg.blockSize + 1 := by
      rw [hnum]
      exact Cfg.pos_div cfg.blockSize_pos
    have hmem : blk (H / cfg.blockSize) ∈ s.blockManager.outstanding :=
      h.outstanding.mem_iff.mpr (blk_mem_liveBlocks le_rfl hk)
    rw [if_pos (beq_iff_eq.mpr hend)]
    refine ⟨h.manager.returnBlock hmem, ?_, ?_, ?_, fun k hk' hkK => ?_, fun _ => h.tailBlock hk, by omega, ?_⟩
    · rw [hdiv]
      have herase := h.outstanding.erase (blk (H / cfg.blockSize))
      rw [liveBlocks_cons hk, List.erase_cons_head] at herase
      exact herase
    · rw [hdiv]
      have hstored := h.index.storeValue le_rfl (Nat.lt_of_lt_of_le hk h.index.window) none
      have hadv := hstored.advance (Nat.le_succ _) hk
        (fun k hk' hlt => by rw [show k = H / cfg.blockSize by omega, Function.update_self])
        (fun k hkK => by rw [Function.update_of_ne (hk.trans_le hkK).ne', values_of_ge hkK])
      exact (hadv.congr_values fun k hlt => (Function.update_of_ne (Nat.ne_of_gt hlt) _ _).symm).congr rfl rfl rfl rfl
    · rw [hdiv]
      refine (hel'.drop (Nat.le_succ _) fun n hn => contents_of_lt ?_).congr fun q => rfl
      rw [hnum]
      exact hn
    · rw [hdiv] at hk'
      exact hpol k hk' hkK
    · have := h.room
      show K * cfg.blockSize < H + m + 2 ^ (cfg.w - 1)
      omega
  · have hdiv : (H + m) / cfg.blockSize = H / cfg.blockSize := by
      rw [← hpos, Nat.add_assoc, Cfg.pos_div (by omega), Cfg.pos_div (cfg.slot_lt H)]
    rw [if_neg (beq_iff_eq.not.mpr hend)]
    refine ⟨h.manager, by rw [hdiv]; exact h.outstanding, by rw [hdiv]; exact h.index.congr rfl rfl rfl rfl,
      by rw [hdiv]; exact hel', fun k hk' hkK => ?_, fun _ => h.tailBlock hk, by omega, ?_⟩
    · rw [hdiv] at hk'
      by_cases heq : k = H / cfg.blockSize
      · rw [heq, policy_modifyPolicy_self]
        show (m₁.blocks _).policy.counter + m = _
        rw [hcounter]
        omega
      · exact hpol k (by omega) hkK
    · have := h.room
      show K * cfg.blockSize < H + m + 2 ^ (cfg.w - 1)
      omega

end SlowQueue

end LockFreeStructures
