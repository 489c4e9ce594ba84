import LockFreeStructures.SlowQueue.BlockCount
import LockFreeStructures.SlowQueue.RollBack

/-!
# `SlowQueue.EnqueueBulk` — what `EnqueueBulk` does under the invariant

The call gets its blocks one by one (`Mid`), each with its index entry, and links them behind the tail block if
that is still to be filled. Then it fills them. What it got is taken back when a block is refused and when a
constructor throws.
-/

namespace LockFreeStructures

namespace SlowQueue

variable {α : Type} {cfg : Cfg} {s s₀ s' : SlowQueue α} {a : IndexEntryArray} {c H K k₀ n p : ℕ} {blk blk₀ : ℕ → ℕ}
  {l : List α} {b : Bulk α}

/-! ## Getting the blocks -/

/-- The queue has got blocks and index entries, and the counters are as they were. -/
structure GotFrom (s s' : SlowQueue α) : Prop where
  rest : s' = { s with
    toSlots := s'.toSlots, tailBlock := s'.tailBlock, currentIndexEntryArray := s'.currentIndexEntryArray
    indexEntriesSize := s'.indexEntriesSize, entries := s'.entries, entryCount := s'.entryCount
    blockManager := s'.blockManager, allocs := s'.allocs }
  events : s'.events = s.events
  allocs : s.allocs = [] → s'.allocs = []

theorem GotFrom.refl (s : SlowQueue α) : GotFrom s s := ⟨rfl, rfl, id⟩

theorem GotFrom.trans {s'' : SlowQueue α} (h : GotFrom s s') (h' : GotFrom s' s'') : GotFrom s s'' := by
  refine ⟨?_, h'.events.trans h.events, fun hal => h'.allocs (h.allocs hal)⟩
  rw [h'.rest, h.rest]

/-- The array has grown out of the one the call began with, whose tail was before number `K`. -/
def GrownFrom (s₀ : SlowQueue α) (a : IndexEntryArray) (c k₀ K : ℕ) : Prop :=
  ∃ a₀ c₀, s₀.currentIndexEntryArray = some a₀ ∧ a₀.tail < a₀.size ∧ a₀.tail + 1 ≡ c₀ + K [MOD a₀.size] ∧
    SameEntries a₀ c₀ a c k₀ K

theorem GrownFrom.trans {a' : IndexEntryArray} {c' : ℕ} (h : GrownFrom s₀ a c k₀ K) (h' : SameEntries a c a' c' k₀ K) :
    GrownFrom s₀ a' c' k₀ K := by
  obtain ⟨a₀, c₀, harr, hlt, htail, hsame⟩ := h
  exact ⟨a₀, c₀, harr, hlt, htail, hsame.trans h'⟩

/-- The call has got `n` blocks, the first of number `K`. -/
structure Mid (cfg : Cfg) (s₀ : SlowQueue α) (b : Bulk α) (H K n : ℕ) (blk : ℕ → ℕ) (l : List α) : Prop where
  layout : ∃ a c, Layout cfg b.queue a c H (K + n) blk l ∧ GrownFrom s₀ a c (H / cfg.blockSize) K
  got : GotFrom s₀ b.queue
  first : b.firstAllocatedBlock = firstOf blk K (K + n)
  linked : Linked b.queue blk K (K + n)
  /-- the tail block is filled up before -/
  join : (H + l.length) % cfg.blockSize ≠ 0 → 0 < n → (b.queue.blocks (blk (K - 1))).next = some (blk K)
  tailBlock : n = 0 → b.queue.tailBlock = s₀.tailBlock

namespace Mid

/-- In the middle of a block the tail block is in use. -/
theorem head_div_lt (hT : (H + l.length) % cfg.blockSize ≠ 0) :
    H / cfg.blockSize < numBlocks cfg (H + l.length) := by
  rw [(numBlocks_of_slot hT).1]
  exact Nat.lt_succ_of_le (Nat.div_le_div_right (Nat.le_add_right _ _))

/-- **Link.** A block that is new from the manager is made the last. -/
theorem linkBlock (hK : numBlocks cfg (H + l.length) = K) (h : Mid cfg s₀ b H K n blk l)
    (horigin : s₀.tailIndex % cfg.blockSize = (H + l.length) % cfg.blockSize)
    (cti : ℕ) {s₁ s₂ : SlowQueue α} {a₁ : IndexEntryArray} {c₁ : ℕ}
    (hroom : (K + n + 1) * cfg.blockSize < H + 2 ^ (cfg.w - 1))
    (honly : IndexOnly b.queue s₁) (hal₁ : b.queue.allocs = [] → s₁.allocs = [])
    (hlt : K + n < H / cfg.blockSize + a₁.size)
    (hi₁ : IndexLayout cfg s₁ a₁ c₁ (H / cfg.blockSize) (K + n + 1) (K + n + 1) (values blk (K + n)))
    (hgrown : GrownFrom s₀ a₁ c₁ (H / cfg.blockSize) K)
    (hp : p ∉ b.queue.blockManager.outstanding) (hwf : s₂.blockManager.WF)
    (hout : s₂.blockManager.outstanding = p :: b.queue.blockManager.outstanding)
    (hal₂ : s₁.allocs = [] → s₂.allocs = [])
    (hs₂ : s₂ = { s₁ with blockManager := s₂.blockManager, allocs := s₂.allocs }) :
    ∃ b', Bulk.linkBlock cfg s₀.tailIndex p ⟨((s₂.modifyPolicy p .reset).setNext p none).storeValue
        (a₁.entryAt (c₁ + (K + n))) (some p), cti, b.firstAllocatedBlock⟩ = some b' ∧
      b'.currentTailIndex = cti ∧
      Mid cfg s₀ b' H K (n + 1) (Function.update blk (K + n) p) l := by
  have hmid := @head_div_lt α cfg H l
  have hdead : H / cfg.blockSize ≤ K := by
    have := hK ▸ le_numBlocks cfg (H + l.length)
    exact Nat.div_le_of_le_mul (by rw [Nat.mul_comm]; omega)
  rw [hK] at hmid
  obtain ⟨a, c, hlay, -⟩ := h.layout
  have hb₂ : s₂.blocks = b.queue.blocks := by rw [hs₂, honly.rest]
  have hfirst : b.firstAllocatedBlock = if n = 0 then none else some (blk K) := by
    rw [h.first, firstOf]
    by_cases hn : n = 0
    · rw [if_neg (by omega), if_pos hn]
    · rw [if_pos (by omega), if_neg hn]
  let s₃ : SlowQueue α := ((s₂.modifyPolicy p .reset).setNext p none).storeValue (a₁.entryAt (c₁ + (K + n))) (some p)
  have hgot₃ : ∀ (m : Slots CounterCheckPolicy α), m.events = b.queue.events →
      GotFrom s₀ { s₃ with toSlots := m, tailBlock := some p } := fun m hev =>
    h.got.trans ⟨by
      show _ = _
      simp only [s₃, SlowQueue.storeValue, SlowQueue.setNext, SlowQueue.modifyPolicy]
      rw [hs₂, honly.rest], hev, fun hal => hal₂ (hal₁ hal)⟩
  have hevents : s₃.events = b.queue.events := by
    show s₂.events = _
    rw [hs₂, honly.rest]
  have hel₃ : ∀ q, (s₃.blocks q).elements = (b.queue.blocks q).elements := fun q => by
    rw [← hb₂]
    exact (elements_setNext _).trans (elements_modifyPolicy _)
  have hpol₃ : ∀ q ≠ p, (s₃.blocks q).policy = (b.queue.blocks q).policy := fun q hq => by
    rw [← hb₂]
    exact (policy_setNext _).trans (policy_modifyPolicy_of_ne _ hq)
  have hreset : (s₃.blocks p).policy.counter = 0 :=
    congrArg CounterCheckPolicy.counter ((policy_setNext _).trans (policy_modifyPolicy_self _))
  have hnext₃ : ∀ q ≠ p, (s₃.blocks q).next = (b.queue.blocks q).next := fun q hq => by
    rw [← hb₂]
    exact (next_setNext_of_ne _ hq).trans (next_modifyPolicy _)
  have hi₃ : IndexLayout cfg s₃ a₁ c₁ (H / cfg.blockSize) (K + n + 1) (K + n + 1)
      (values (Function.update blk (K + n) p) (K + n + 1)) := by
    have hi₂ : IndexLayout cfg ((s₂.modifyPolicy p .reset).setNext p none) a₁ c₁ (H / cfg.blockSize) (K + n + 1)
        (K + n + 1) (values blk (K + n)) :=
      hi₁.congr (by rw [hs₂]; rfl) (by rw [hs₂]; rfl) (by rw [hs₂]; rfl) (by rw [hs₂]; rfl)
    have := hi₂.storeValue hlay.head_div_le hlt (some p)
    rwa [values_update] at this
  have hne : ∀ k, H / cfg.blockSize ≤ k → k < K + n → blk k ≠ p := by
    rintro k hk hkK rfl
    exact hp (hlay.outstanding.mem_iff.mpr (blk_mem_liveBlocks hk hkK))
  by_cases hlink : s₀.tailIndex % cfg.blockSize ≠ 0 ∨ b.firstAllocatedBlock ≠ none
  · -- the block before is linked to it
    have hlive : H / cfg.blockSize < K + n := by
      rcases hlink with hT | hn
      · exact Nat.lt_add_right n (hmid (horigin ▸ hT))
      · rw [hfirst] at hn
        have : n ≠ 0 := fun h0 => hn (if_pos h0)
        omega
    have ht : s₃.tailBlock = some (blk (K + n - 1)) := by
      rw [← hlay.tailBlock hlive]
      show s₂.tailBlock = _
      rw [hs₂, honly.rest]
    have hpos := Nat.zero_lt_of_lt hlive
    have htp : blk (K + n - 1) ≠ p := hne _ (by omega) (by omega)
    have hinj : ∀ k, H / cfg.blockSize ≤ k → k < K + n - 1 → blk k ≠ blk (K + n - 1) := fun k hk hlt heq =>
      Nat.ne_of_lt hlt (hlay.blk_inj _ _ hk (by omega) (by omega) (by omega) heq)
    have hnew : ∀ k < K + n, Function.update blk (K + n) p k = blk k := fun k hk =>
      Function.update_of_ne (Nat.ne_of_lt hk) _ _
    refine ⟨⟨{ s₃.setNext (blk (K + n - 1)) (some p) with tailBlock := some p }, cti, b.firstAllocatedBlock.or (some p)⟩,
      ?_, rfl, ⟨a₁, c₁, ?_, hgrown⟩, hgot₃ _ hevents, ?_, ⟨fun k hk hkK => ?_, fun _ => ?_⟩, fun hT _ => ?_, by rintro ⟨⟩⟩
    · rw [Bulk.linkBlock, if_pos hlink]
      show (s₃.tailBlock.map _ >>= _) = _
      rw [ht]
      rfl
    · refine hlay.push hwf hp hout (hi₃.congr rfl rfl rfl rfl) (fun q => (elements_setNext _).trans (hel₃ q))
        (fun q hq => (policy_setNext _).trans (hpol₃ q hq)) ?_ rfl hroom
      exact (congrArg CounterCheckPolicy.counter (policy_setNext _)).trans hreset
    · show b.firstAllocatedBlock.or (some p) = _
      rw [hfirst, firstOf, if_pos (show K < K + (n + 1) by omega)]
      by_cases hn : n = 0
      · subst hn
        rw [if_pos rfl, Option.none_or, Nat.add_zero, Function.update_self]
      · rw [if_neg hn, Option.some_or, hnew K (by omega)]
    · show ((s₃.setNext _ _).blocks _).next = _
      rw [hnew k (by omega)]
      by_cases hlast : k + 1 = K + n
      · rw [show k = K + n - 1 by omega, next_setNext_self, show K + n - 1 + 1 = K + n by omega, Function.update_self]
      · rw [next_setNext_of_ne _ (hinj k (by omega) (by omega)), hnext₃ _ (hne k (by omega) (by omega)),
          hnew _ (by omega)]
        exact h.linked.links k hk (by omega)
    · show ((s₃.setNext _ _).blocks _).next = none
      rw [Nat.add_succ_sub_one, Function.update_self, next_setNext_of_ne _ htp.symm]
      exact next_setNext_self none
    · have hK := hmid hT
      have hpos := Nat.zero_lt_of_lt hK
      show ((s₃.setNext _ _).blocks _).next = _
      rw [hnew _ (by omega)]
      by_cases hn : n = 0
      · subst hn
        rw [Nat.add_zero, next_setNext_self, Function.update_self]
      · rw [next_setNext_of_ne _ (hinj _ (by omega) (by omega)), hnext₃ _ (hne _ (by omega) (by omega)), hnew _ (by omega)]
        exact h.join hT (Nat.pos_of_ne_zero hn)
  · -- the call's first block, at a block boundary
    rw [not_or, not_not, not_not] at hlink
    have hn : n = 0 := by
      by_contra hn
      rw [hlink.2, if_neg hn] at hfirst
      exact absurd hfirst (by rintro ⟨⟩)
    subst hn
    rw [horigin] at hlink
    refine ⟨⟨{ s₃ with tailBlock := some p }, cti, some p⟩, ?_, rfl, ⟨a₁, c₁, ?_, hgrown⟩, hgot₃ _ hevents, ?_,
      ⟨fun k hk hkK => ?_, fun _ => ?_⟩, fun hT => absurd hlink.1 hT, by rintro ⟨⟩⟩
    · rw [Bulk.linkBlock, if_neg (by rw [horigin, hlink.1, hlink.2]; simp)]
      simp only [Option.bind_eq_bind, Option.bind_some, hlink.2, Option.none_or, s₃]
    · exact hlay.push hwf hp hout (hi₃.congr rfl rfl rfl rfl) hel₃ hpol₃ hreset rfl hroom
    · show some p = _
      rw [firstOf, if_pos (by omega), Nat.add_zero, Function.update_self]
    · omega
    · show (s₃.blocks (Function.update blk K p K)).next = none
      rw [Function.update_self]
      exact next_setNext_self none

/-- Only the index and the loop's own variable have changed. -/
theorem reindex (h : Mid cfg s₀ b H K n blk l) (honly : IndexOnly b.queue s') (hal : b.queue.allocs = [] → s'.allocs = [])
    (hlay : ∃ a c, Layout cfg s' a c H (K + n) blk l ∧ GrownFrom s₀ a c (H / cfg.blockSize) K) (cti : ℕ) :
    Mid cfg s₀ ⟨s', cti, b.firstAllocatedBlock⟩ H K n blk l := by
  have hb : s'.blocks = b.queue.blocks := by rw [honly.rest]
  refine ⟨hlay, h.got.trans ⟨?_, by rw [honly.rest], hal⟩, h.first, h.linked.congr fun q => by rw [hb], fun hT hn => ?_, fun hn => ?_⟩
  · rw [honly.rest]
  · rw [hb]
    exact h.join hT hn
  · rw [honly.rest]
    exact h.tailBlock hn

/-- **The loop that gets the blocks.** It gets as many as it was asked for, or it is refused one, or the
    requisition of one throws and leaves its key. -/
theorem newBlocks (hK : numBlocks cfg (H + l.length) = K) (mode : AllocMode)
    (horigin : s₀.tailIndex % cfg.blockSize = (H + l.length) % cfg.blockSize) (hhead : s₀.headIndex = H % 2 ^ cfg.w) :
    ∀ {need n : ℕ} {blk : ℕ → ℕ} {b : Bulk α}, Mid cfg s₀ b H K n blk l →
      Word.add cfg.w b.currentTailIndex cfg.blockSize = (K + n) * cfg.blockSize % 2 ^ cfg.w →
      ∃ res b' n' blk', Bulk.newBlocks cfg mode s₀.tailIndex need b = some (res, b') ∧ n ≤ n' ∧
        (∀ k < K + n, blk' k = blk k) ∧
        (res = .acquired ∧ n' = n + need ∧ Mid cfg s₀ b' H K n' blk' l ∨
          res = .refused ∧ n' < n + need ∧ Mid cfg s₀ b' H K n' blk' l ∨
          res = .threw ∧ n' < n + need ∧ s₀.allocs ≠ [] ∧
            ∃ b₀, Mid cfg s₀ b₀ H K n' blk' l ∧ Keyed cfg b₀.queue b'.queue H (K + n') blk') := by
  intro need
  induction need with
  | zero =>
      intro n blk b h _
      exact ⟨.acquired, b, n, blk, rfl, Nat.le_refl n, fun _ _ => rfl, Or.inl ⟨rfl, rfl, h⟩⟩
  | succ need ih =>
      intro n blk b h hcti
      obtain ⟨a, c, hlay, hgrown⟩ := h.layout
      have hfull := Inv.isFull_eq hlay (by rw [h.got.rest]; exact hhead)
      by_cases hroom : (K + n + 1) * cfg.blockSize < H + 2 ^ (cfg.w - 1)
      · rw [decide_eq_true hroom, Bool.not_true, ← hcti] at hfull
        rcases hlay.insertBlockIndexEntry hroom mode with ⟨s₁, hins, honly, hlay₁, hal₁⟩ |
          ⟨s₁, a₁, c₁, hins, honly, hal₁, hlt, -, hsame, hi₁⟩
        · -- no place in the index
          rw [← hcti] at hins
          refine ⟨.refused, ⟨_, Word.add cfg.w b.currentTailIndex cfg.blockSize, _⟩, n, blk, ?_, Nat.le_refl n, fun _ _ => rfl,
            Or.inr (Or.inl ⟨rfl, by omega, h.reindex honly hal₁ ⟨a, c, hlay₁, hgrown⟩ _⟩)⟩
          simp only [Bulk.newBlocks, hfull, Bool.false_eq_true, if_false]
          exact Option.bind_eq_some_iff.mpr ⟨_, hins, rfl⟩
        · rw [← hcti] at hins
          have hgrown₁ := hgrown.trans (hsame.mono (Nat.le_add_right K n))
          have hm₁ : s₁.blockManager = b.queue.blockManager := by rw [honly.rest]
          rcases requisitionBlock_cases (hm₁ ▸ hlay.manager) mode with ⟨p, s₂, hreq, hp, hwf, hout, hal₂, hs₂⟩ |
            ⟨hreq, -⟩ | ⟨s₂, hreq, hal₂, hs₂⟩
          · -- a block
            rw [hm₁] at hp hout
            obtain ⟨b₁, hlink, hcti₁, hmid₁⟩ := h.linkBlock hK horigin (Word.add cfg.w b.currentTailIndex cfg.blockSize)
              hroom honly hal₁ hlt hi₁ hgrown₁ hp hwf hout hal₂ hs₂
            obtain ⟨res, b', n', blk', hrun, hn', hblk', hres⟩ := ih hmid₁ (by
              rw [hcti₁, hcti, Word.add_mod_left, ← Nat.add_assoc, Nat.succ_mul])
            refine ⟨res, b', n', blk', ?_, by omega, fun k hk => ?_, ?_⟩
            · simp only [Bulk.newBlocks, hfull, Bool.false_eq_true, if_false]
              refine Option.bind_eq_some_iff.mpr ⟨_, hins, ?_⟩
              simp only [hreq]
              exact Option.bind_eq_some_iff.mpr ⟨_, hlink, hrun⟩
            · rw [hblk' k (by omega), Function.update_of_ne (Nat.ne_of_lt hk)]
            · rwa [show n + (need + 1) = n + 1 + need by omega]
          · -- no block: the key is taken back
            obtain ⟨s₂, a₂, hrew, honly₂, hal₂, hsame₂, hi₂⟩ := Layout.rewind hi₁ hlay.head_div_le hlt fun _ _ => rfl
            have hrest : IndexOnly b.queue (s₂.storeValue (a₁.entryAt (c₁ + (K + n))) none) :=
              (honly.trans honly₂).trans (.storeValue s₂ _ _)
            have hm₂ : (s₂.storeValue (a₁.entryAt (c₁ + (K + n))) none).blockManager = b.queue.blockManager := by
              rw [hrest.rest]
            have hb₂ : (s₂.storeValue (a₁.entryAt (c₁ + (K + n))) none).blocks = b.queue.blocks := by rw [hrest.rest]
            have hlay₂ := hlay.reindex (hm₂ ▸ hlay.manager) (by rw [hm₂]) (fun q => by rw [hb₂]) (fun q _ => by rw [hb₂])
              (by rw [hrest.rest]) hi₂
            refine ⟨.refused, ⟨_, Word.add cfg.w b.currentTailIndex cfg.blockSize, _⟩, n, blk, ?_, Nat.le_refl n, fun _ _ => rfl,
              Or.inr (Or.inl ⟨rfl, by omega, h.reindex hrest (fun hnil => hal₂.trans (hal₁ hnil)) ⟨a₂, c₁, hlay₂,
                hgrown₁.trans (hsame₂.mono (Nat.le_add_right K n))⟩ _⟩)⟩
            simp only [Bulk.newBlocks, hfull, Bool.false_eq_true, if_false]
            refine Option.bind_eq_some_iff.mpr ⟨_, hins, ?_⟩
            simp only [hreq]
            exact Option.bind_eq_some_iff.mpr ⟨_, hrew, rfl⟩
          · -- the requisition throws
            refine ⟨.threw, ⟨s₂, Word.add cfg.w b.currentTailIndex cfg.blockSize, b.firstAllocatedBlock⟩, n, blk, ?_, Nat.le_refl n, fun _ _ => rfl,
              Or.inr (Or.inr ⟨rfl, by omega, fun hnil => hal₂ (hal₁ (h.got.allocs hnil)), b, h, honly.trans ⟨?_⟩, a₁, c₁, ?_⟩)⟩
            rotate_left
            · show s₂ = _
              rw [hs₂]
            · exact hi₁.congr (by rw [hs₂]) (by rw [hs₂]) (by rw [hs₂]) (by rw [hs₂])
            · simp only [Bulk.newBlocks, hfull, Bool.false_eq_true, if_false]
              refine Option.bind_eq_some_iff.mpr ⟨_, hins, ?_⟩
              simp only [hreq]
      · rw [decide_eq_false hroom, Bool.not_false, ← hcti] at hfull
        refine ⟨.refused, ⟨_, Word.add cfg.w b.currentTailIndex cfg.blockSize, _⟩, n, blk, ?_, Nat.le_refl n, fun _ _ => rfl,
          Or.inr (Or.inl ⟨rfl, by omega, h.reindex (.refl b.queue) id ⟨a, c, hlay, hgrown⟩ _⟩)⟩
        simp only [Bulk.newBlocks, hfull, if_true]

/-! ## Filling them -/

/-- From the block of the next element on, each block leads to the next. -/
theorem next_blk (h : Mid cfg s₀ b H K n blk l) (hK : numBlocks cfg (H + l.length) = K) {k : ℕ}
    (hk : (H + l.length) / cfg.blockSize ≤ k) (hlt : k + 1 < K + n) :
    (b.queue.blocks (blk k)).next = some (blk (k + 1)) := by
  by_cases hkK : K ≤ k
  · exact h.linked.links k hkK hlt
  · -- the tail block, if it is still to be filled
    have hT : (H + l.length) % cfg.blockSize ≠ 0 := by
      intro h0
      have := (numBlocks_of_first h0).1
      rw [hK] at this
      have hdiv : (H + l.length) / cfg.blockSize = K := by
        rw [← this]
        exact Nat.mul_div_cancel _ cfg.blockSize_pos
      omega
    have hlast := (numBlocks_of_slot hT).1
    have hjoin := h.join hT (by omega)
    obtain rfl : k = K - 1 := by
      generalize (H + l.length) / cfg.blockSize = x at *
      omega
    rwa [show K - 1 + 1 = K by omega]

/-- The filling loop on the blocks a call has got. -/
theorem fillBlocks (h : Mid cfg s₀ b H K n blk l) (hK : numBlocks cfg (H + l.length) = K) {m : ℕ} {as : List α}
    {rest : List (Option α)} (hrest : ∀ i ∈ rest.head?, i = none) (hm : as.length + rest.length = m) (hpos : 0 < m)
    (hgot : K + n = numBlocks cfg (H + l.length + m)) :
    ∃ m₁, m₁.Holds cfg blk (H / cfg.blockSize) (K + n) (contents H (l ++ as)) ∧
      Slots.ElementsOnly b.queue.toSlots m₁ ∧
      m₁.events = b.queue.events ++ eventsFrom cfg blk .constructed (H + l.length) as.length ∧
      ∃ cur i, b.queue.toSlots.fillBlocks cfg.blockSize b.queue.tailBlock ((H + l.length + m - 1) % cfg.blockSize)
          (m + 1) (blk ((H + l.length) / cfg.blockSize)) ((H + l.length) % cfg.blockSize) (as.map some ++ rest)
        = some (if rest = [] then .returned () else .threw, cur, i, m₁) ∧
        (rest ≠ [] → cur = blk ((H + l.length + as.length) / cfg.blockSize) ∧
          i = (H + l.length + as.length) % cfg.blockSize) := by
  obtain ⟨a, c, hlay, -⟩ := h.layout
  obtain ⟨hlt, hlast, hfit, hfuel⟩ := numBlocks_bounds cfg (H + l.length) hpos
  rw [← hgot] at hlt hlast hfit hfuel
  have hk : H / cfg.blockSize ≤ (H + l.length) / cfg.blockSize := Nat.div_le_div_right (Nat.le_add_right _ _)
  rw [hlay.tailBlock (Nat.lt_of_le_of_lt hk hlt)]
  obtain ⟨m₁, hel, honly, hev, cur, i, hloop, hcur⟩ := Slots.fillBlocks_eq hlay.blk_inj hlast hfit
    (Nat.lt_of_le_of_lt (Nat.zero_le _) hlt) hlay.elements (fun k hk' hkK => h.next_blk hK hk' hkK) hk
    (show H + l.length + (as.length + rest.length) = H + l.length + m by rw [hm]) (Nat.lt_add_of_pos_right hpos) hfuel hrest
  rw [store_contents] at hel
  exact ⟨m₁, hel, honly, hev, cur, i, hloop, hcur⟩

end Mid

/-- The layout after the elements have changed. -/
theorem Layout.of_elements (h : Layout cfg s a c H K blk l) {m₁ : Slots CounterCheckPolicy α} {l' : List α}
    (honly : Slots.ElementsOnly s.toSlots m₁) (hel : m₁.Holds cfg blk (H / cfg.blockSize) K (contents H l'))
    (hfits : H + l'.length ≤ K * cfg.blockSize) : Layout cfg { s with toSlots := m₁ } a c H K blk l' :=
  ⟨h.manager, h.outstanding, h.index.congr rfl rfl rfl rfl, hel, fun k hk hkK => by
    show (m₁.blocks _).policy.counter = _
    rw [honly.policy]
    exact h.counters k hk hkK, h.tailBlock, hfits, h.room⟩

/-! ## Taken back -/

/-- The entry `Tail` points to. -/
def tailEntry (s : SlowQueue α) : Option ℕ := s.currentIndexEntryArray.bind fun a => a.get a.tail

/-- How many slots the index array has. -/
def indexSize (s : SlowQueue α) : ℕ := (s.currentIndexEntryArray.map (·.size)).getD 0

/-- **Taken back.** A bulk enqueue of `count` items has left nothing behind: the elements it constructed, in `slots`,
    are destroyed and the blocks `got` by its loop are returned, each once, and the tail block and the index tail
    are what they were. Only an array that grew while no block was in use may have its tail at another entry, an
    unused one. -/
structure TakenBack (cfg : Cfg) (mode : AllocMode) (count : ℕ) (s s' : SlowQueue α) : Prop where
  undone : ∃ (res : Acquisition) (b : Bulk α) (slots : List (ℕ × ℕ)) (got : List ℕ),
    Bulk.newBlocks cfg mode s.tailIndex (needCount cfg s.tailIndex count) (.start cfg s) = some (res, b) ∧
      b.queue.blockManager.outstanding.Perm (got ++ s.blockManager.outstanding) ∧ got.Nodup ∧ slots.Nodup ∧
      s'.events = s.events ++ slots.map (fun p => .constructed p.1 p.2) ++ slots.map (fun p => .destroyed p.1 p.2)
        ++ got.map .returned
  outstanding : s'.blockManager.outstanding.Perm s.blockManager.outstanding
  tailBlock : s'.tailBlock = s.tailBlock
  tail : s'.tailEntry = s.tailEntry ∨ s.blockManager.outstanding = [] ∧ s.indexSize < s'.indexSize ∧
    ∃ e, s'.tailEntry = some e ∧ (s'.entries e).value = none

/-- The tail is back where it was. -/
theorem GrownFrom.tailEntry_eq (h : GrownFrom s₀ a c (H / cfg.blockSize) K) (hlay₀ : ∃ a c, Layout cfg s₀ a c H K blk₀ l)
    (hlay : Layout cfg s' a c H K blk l) :
    s'.tailEntry = s₀.tailEntry ∨ s₀.blockManager.outstanding = [] ∧ s₀.indexSize < s'.indexSize ∧
      ∃ e, s'.tailEntry = some e ∧ (s'.entries e).value = none := by
  obtain ⟨a₁, c₁, hlay₁⟩ := hlay₀
  obtain ⟨a₀, c₀, harr₀, hlt₀, htail₀, hsame⟩ := h
  have harr := hlay.index.arr
  have hlt := hlay.index.tail_lt
  have htail := hlay.index.tail
  have hget : ∀ {b : IndexEntryArray}, b.tail < b.size → b.get b.tail = some (b.index b.tail) := fun hb => if_pos hb
  have hs : s'.tailEntry = some (a.index a.tail) := by
    rw [tailEntry, harr, Option.bind_some, hget hlt]
  have hs₀ : s₀.tailEntry = some (a₀.index a₀.tail) := by
    rw [tailEntry, harr₀, Option.bind_some, hget hlt₀]
  rcases hsame.size_le.eq_or_lt with hsize | hgrew
  · -- the same array, the same position
    left
    obtain ⟨hindex, rfl⟩ := hsame.same hsize.symm
    rw [← hsize] at htail hlt
    have heq : a.tail = a₀.tail :=
      (Nat.ModEq.add_right_cancel' 1 (htail.trans htail₀.symm)).eq_of_lt_of_lt hlt hlt₀
    rw [hs, hs₀, hindex, heq]
  · by_cases hlive : H / cfg.blockSize < K
    · -- the newest block has kept its entry
      left
      obtain ⟨M, rfl⟩ := Nat.exists_eq_succ_of_ne_zero (Nat.ne_zero_of_lt hlive)
      have hkept := hsame.kept M (Nat.lt_succ_iff.mp hlive) (Nat.lt_succ_self M)
      have hmod : a₀.tail % a₀.size = (c₀ + M) % a₀.size := Nat.ModEq.add_right_cancel' 1 htail₀
      rw [hs, hs₀, hlay.index.tail_eq]
      rw [IndexEntryArray.entryAt, IndexEntryArray.entryAt, ← hmod, Nat.mod_eq_of_lt hlt₀] at hkept
      rw [hkept]
    · -- no number has a block
      right
      refine ⟨List.eq_nil_of_length_eq_zero ?_, ?_, a.index a.tail, hs,
        hlay.index.value_index (fun k hk => values_of_ge (by omega)) hlt⟩
      · rw [hlay₁.outstanding.length_eq, length_liveBlocks]
        omega
      · rw [indexSize, indexSize, harr, harr₀]
        exact hgrew

namespace Inv

/-- The block in which filling starts. -/
theorem first_eq (h : Inv cfg s H blk₀ l) (hK : numBlocks cfg (H + l.length) = K) (hmid : Mid cfg s b H K n blk l)
    (hblk : ∀ k < K, blk k = blk₀ k) {m : ℕ} (hpos : 0 < m) (hgot : K + n = numBlocks cfg (H + l.length + m)) :
    (if s.tailIndex % cfg.blockSize = 0 then b.firstAllocatedBlock.or s.tailBlock else s.tailBlock)
      = some (blk ((H + l.length) / cfg.blockSize)) := by
  have hlt := (numBlocks_bounds cfg (H + l.length) hpos).1
  rw [← hgot] at hlt
  rw [h.tailIndex_mod]
  by_cases hT : (H + l.length) % cfg.blockSize = 0
  · have hfirst := (numBlocks_of_first hT).1
    rw [hK] at hfirst
    have hdiv : (H + l.length) / cfg.blockSize = K := by
      rw [← hfirst]
      exact Nat.mul_div_cancel _ cfg.blockSize_pos
    rw [if_pos hT, hmid.first, firstOf, if_pos (hdiv ▸ hlt), hdiv, Option.some_or]
  · obtain ⟨a, c, hlay⟩ := h.layout
    have hlast := (numBlocks_of_slot hT).1
    rw [hlast] at hlay
    rw [hK] at hlast
    have hk : H / cfg.blockSize < (H + l.length) / cfg.blockSize + 1 :=
      Nat.lt_succ_of_le (Nat.div_le_div_right (Nat.le_add_right _ _))
    rw [if_neg hT, hlay.tailBlock hk, Nat.add_sub_cancel, hblk _ (by rw [hlast]; exact Nat.lt_succ_self _)]

/-- A call that has got nothing yet. -/
theorem mid_start (h : Inv cfg s H blk l) : Mid cfg s (.start cfg s) H (numBlocks cfg (H + l.length)) 0 blk l := by
  obtain ⟨a, c, hlay⟩ := h.layout
  refine ⟨⟨a, c, hlay, a, c, hlay.index.arr, hlay.index.tail_lt, hlay.index.tail, .refl a c _ _⟩, .refl s, ?_,
    ⟨fun k hk hlt => ?_, fun hlt => ?_⟩, fun _ hn => ?_, fun _ => rfl⟩
  · rw [firstOf, if_neg (by omega)]
    rfl
  · omega
  · exact absurd hlt (Nat.lt_irrefl _)
  · exact absurd hn (Nat.lt_irrefl 0)

/-- Rolled back, the queue is as it was before the call. -/
theorem rollBack (h : Inv cfg s H blk₀ l) (hK : numBlocks cfg (H + l.length) = K) (hmid : Mid cfg s b H K n blk l)
    (hblk : ∀ k < K, blk k = blk₀ k) {m₁ : Slots CounterCheckPolicy α}
    (honly : Slots.ElementsOnly b.queue.toSlots m₁)
    (hel : m₁.Holds cfg blk (H / cfg.blockSize) (K + n) (contents H l)) {mode : AllocMode} {count : ℕ} {res : Acquisition}
    (hnew : Bulk.newBlocks cfg mode s.tailIndex (needCount cfg s.tailIndex count) (.start cfg s) = some (res, b))
    {slots : List (ℕ × ℕ)} (hnd : slots.Nodup) (hev₁ : m₁.events = b.queue.events
      ++ slots.map (fun p => .constructed p.1 p.2) ++ slots.map (fun p => .destroyed p.1 p.2)) :
    ∃ s', SlowQueue.rollBack cfg s.tailIndex s.tailBlock b.firstAllocatedBlock { b.queue with toSlots := m₁ } = some s' ∧
      Inv cfg s' H blk l ∧ TakenBack cfg mode count s s' := by
  obtain ⟨a, c, hlay, hgrown⟩ := hmid.layout
  obtain ⟨a₀, c₀, hlay₀⟩ := h.layout
  rw [hK] at hlay₀
  have hbase := base_of_next cfg (H + l.length)
  rw [← h.tailIndex, hK] at hbase
  obtain ⟨s', a', hroll, hlay', hsize, hindex, hblock, hh, ht, ha, hf, hev⟩ := (hlay.of_elements honly hel hlay.fits).rollBack
    (hmid.linked.congr honly.next) hlay₀.fits hbase (o := s.tailBlock) fun hlt => by
      rw [hlay₀.tailBlock hlt, hblk _ (Nat.sub_lt (Nat.zero_lt_of_lt hlt) Nat.one_pos)]
  rw [hmid.first]
  have hle := hlay₀.head_div_le
  have hsplit := hlay.nodup
  rw [liveBlocks_append hle (Nat.le_add_right K n)] at hsplit
  have hold : liveBlocks blk (H / cfg.blockSize) K = liveBlocks blk₀ (H / cfg.blockSize) K :=
    List.map_congr_left fun k hk => hblk k (by rw [List.mem_range'_1] at hk; omega)
  have hout := hlay.outstanding
  rw [liveBlocks_append hle (Nat.le_add_right K n), hold] at hout
  refine ⟨s', hroll, ⟨⟨a', c, by rw [hK]; exact hlay'⟩, ?_, ?_, ?_, ?_⟩,
    ⟨⟨res, b, slots, liveBlocks blk K (K + n), hnew, ?_, (List.nodup_append.mp hsplit).2.1, hnd, ?_⟩, ?_, hblock,
      (hgrown.trans (.of_index hsize hindex)).tailEntry_eq ⟨a₀, c₀, hlay₀⟩ hlay'⟩⟩
  · rw [hh]
    show b.queue.headIndex = _
    rw [hmid.got.rest]
    exact h.headIndex
  · rw [ht]
    show b.queue.tailIndex = _
    rw [hmid.got.rest]
    exact h.tailIndex
  · rw [ha]
    show b.queue.dequeueAttemptsCount = _
    rw [hmid.got.rest]
    exact h.attempts
  · rw [hf]
    show b.queue.dequeueFailedCount = _
    rw [hmid.got.rest]
    exact h.failed
  · exact hout.trans (List.perm_append_comm.trans (hlay₀.outstanding.symm.append_left _))
  · rw [hev]
    show m₁.events ++ _ = _
    rw [hev₁, hmid.got.events]
  · have hout' := hlay'.outstanding
    rw [hold] at hout'
    exact hout'.trans hlay₀.outstanding.symm

/-- The slot of the last item. -/
theorem lastInner_eq (h : Inv cfg s H blk l) {m : ℕ} (hpos : 0 < m) :
    Word.sub cfg.w (Word.add cfg.w s.tailIndex m) 1 % cfg.blockSize = (H + l.length + m - 1) % cfg.blockSize := by
  have hpred : Word.sub cfg.w (Word.add cfg.w s.tailIndex m) 1 = (H + l.length + m - 1) % 2 ^ cfg.w := by
    refine Word.sub_eq_of_modEq ?_ (Nat.mod_lt _ Word.two_pow_pos)
    rw [h.tailIndex, Word.add_mod_left, Nat.mod_mod, Nat.add_mod_mod, Nat.add_sub_cancel' (by omega)]
  rw [hpred]
  exact Word.mod_mod_two_pow cfg.blockSizeLog2_le

/-- A call that has got its blocks fills them, and takes everything back if a constructor throws. -/
theorem enqueueBulk_acquired {mode : AllocMode} {items : List (Option α)} {first : ℕ}
    (hnew : Bulk.newBlocks cfg mode s.tailIndex (needCount cfg s.tailIndex items.length) (.start cfg s)
      = some (.acquired, b))
    (hfirst : (if s.tailIndex % cfg.blockSize = 0 then b.firstAllocatedBlock.or s.tailBlock else s.tailBlock)
      = some first) :
    s.enqueueBulk cfg mode items = (b.queue.toSlots.fillBlocks cfg.blockSize b.queue.tailBlock
        (Word.sub cfg.w (Word.add cfg.w s.tailIndex items.length) 1 % cfg.blockSize) (items.length + 1) first
        (s.tailIndex % cfg.blockSize) items).bind fun (r, cur, i, m) =>
      match r with
      | .threw => (m.destroyBlocks cfg.blockSize cur i b.queue.blockManager.blockCount first
          (s.tailIndex % cfg.blockSize)).bind fun m =>
            (SlowQueue.rollBack cfg s.tailIndex s.tailBlock b.firstAllocatedBlock { b.queue with toSlots := m }).bind
              fun s => some (.threw, s)
      | .returned () => some (.returned true, { b.queue with
          toSlots := m, tailIndex := Word.add cfg.w s.tailIndex items.length }) := by
  simp only [SlowQueue.enqueueBulk, hnew, Option.bind_eq_bind, Option.bind_some]
  by_cases hT : s.tailIndex % cfg.blockSize = 0
  · rw [if_pos hT] at hfirst
    rw [if_pos hT, hfirst]
    rfl
  · rw [if_neg hT] at hfirst
    rw [if_neg hT, hfirst]
    rfl

/-- **`EnqueueBulk`** appends its items, or leaves the queue as it was, or a requisition throws. -/
theorem enqueueBulk (h : Inv cfg s H blk l) (mode : AllocMode) (items : List (Option α)) (hm : 0 < items.length)
    (hmw : items.length + cfg.blockSize ≤ 2 ^ cfg.w) :
    ∃ r s', s.enqueueBulk cfg mode items = some (r, s') ∧
      ((∃ as blk', r = .returned true ∧ items = as.map some ∧ Inv cfg s' H blk' (l ++ as)) ∨
        (r ≠ .returned true ∧ (∃ blk', Inv cfg s' H blk' l) ∧ (r = .threw → none ∈ items) ∧
          TakenBack cfg mode items.length s s') ∨
        (r = .threw ∧ s.allocs ≠ [] ∧ ∃ n blk' b₀, Mid cfg s b₀ H (numBlocks cfg (H + l.length)) n blk' l ∧
          Keyed cfg b₀.queue s' H (numBlocks cfg (H + l.length) + n) blk' ∧
          ∃ b, Bulk.newBlocks cfg mode s.tailIndex (needCount cfg s.tailIndex items.length) (.start cfg s)
            = some (.threw, b) ∧ b.queue = s')) := by
  have hneed := needCount_cases cfg (H + l.length) hmw
  have hbase := base_of_next cfg (H + l.length)
  have hmid := h.mid_start
  rw [← h.tailIndex] at hneed hbase
  generalize hK : numBlocks cfg (H + l.length) = K at *
  obtain ⟨res, b, n, blk', hnew, -, hblk, hres⟩ := @Mid.newBlocks α cfg s H K l hK mode h.tailIndex_mod h.headIndex
    (needCount cfg s.tailIndex items.length) 0 blk (.start cfg s) hmid hbase
  rw [Nat.add_zero] at hblk
  rw [Nat.zero_add] at hres
  rcases hres with ⟨rfl, hn, hmid'⟩ | ⟨rfl, -, hmid'⟩ | ⟨rfl, -, hal, b₀, hmid', hkeyed⟩
  · -- the blocks are there
    obtain ⟨a, c, hlay, -⟩ := hmid'.layout
    have hgot : K + n = numBlocks cfg (H + l.length + items.length) := by
      refine hn ▸ hneed.resolve_right fun hbig => ?_
      -- with blocks for the whole index range there is no room
      have hroom := hlay.room
      have hle := hK ▸ le_numBlocks cfg (H + l.length)
      have hhalf := cfg.half_add_half
      rw [hn, Nat.add_mul] at hroom
      omega
    obtain ⟨as, rest, hitems, hrest⟩ := FastQueue.exists_items items
    have hlen : as.length + rest.length = items.length := by
      rw [hitems, List.length_append, List.length_map]
    obtain ⟨m₁, hel, honly, hev, cur, i, hloop, hcur⟩ := hmid'.fillBlocks hK hrest hlen hm hgot
    have hfirst := h.first_eq hK hmid' hblk hm hgot
    have hlast := h.lastInner_eq hm
    rw [← hitems, ← hlast, ← h.tailIndex_mod] at hloop
    cases rest with
    | nil =>
        rw [List.append_nil] at hitems
        have has : as.length = items.length := by simpa using hlen
        have hT : H + (l ++ as).length = H + l.length + items.length := by rw [List.length_append, ← has, Nat.add_assoc]
        have hlay' := hlay.of_elements honly hel (by rw [hT, hgot]; exact le_numBlocks cfg _)
        refine ⟨.returned true, { b.queue with toSlots := m₁, tailIndex := Word.add cfg.w s.tailIndex items.length }, ?_,
          Or.inl ⟨as, blk', rfl, hitems, ⟨a, c, ?_⟩, ?_, ?_, ?_, ?_⟩⟩
        · rw [enqueueBulk_acquired hnew hfirst, hloop]
          rfl
        · rw [hT, ← hgot]
          exact hlay'.congr rfl rfl rfl rfl rfl rfl rfl
        · show b.queue.headIndex = _
          rw [hmid'.got.rest]
          exact h.headIndex
        · show Word.add cfg.w s.tailIndex items.length = _
          rw [h.tailIndex, Word.add_mod_left, hT]
        · show b.queue.dequeueAttemptsCount = _
          rw [hmid'.got.rest]
          exact h.attempts
        · show b.queue.dequeueFailedCount = _
          rw [hmid'.got.rest]
          exact h.failed
    | cons o rest =>
        -- a constructor throws: the elements are destroyed, and the rest is rolled back
        obtain rfl : o = none := hrest o rfl
        rw [List.length_cons] at hlen
        obtain ⟨rfl, rfl⟩ := hcur (List.cons_ne_nil _ _)
        rw [if_neg (List.cons_ne_nil _ _)] at hloop
        have hk : H / cfg.blockSize ≤ (H + l.length) / cfg.blockSize := Nat.div_le_div_right (Nat.le_add_right _ _)
        have hend : (H + l.length + as.length) / cfg.blockSize < K + n :=
          cfg.block_lt (by have := le_numBlocks cfg (H + l.length + items.length); rw [hgot]; omega)
        have hfuel := hlay.manager.length_outstanding_le
        rw [hlay.outstanding.length_eq, length_liveBlocks] at hfuel
        obtain ⟨m₂, hdestroy, hel₂, honly₂, hev₂⟩ := Slots.destroyBlocks_eq hlay.blk_inj hend
          b.queue.blockManager.blockCount hel (fun k hk' hkK => (honly.next _).trans (hmid'.next_blk hK hk' hkK)) hk
          (Nat.le_add_right _ _) (by
            generalize (H + l.length) / cfg.blockSize = x at *
            generalize (H + l.length + as.length) / cfg.blockSize = y at *
            omega) fun j hj hjlt => by
              rw [contents, if_pos (by omega), List.getElem?_eq_getElem (by rw [List.length_append]; omega)]
              exact Option.some_ne_none _
        rw [Nat.add_sub_cancel_left, clearFrom_contents] at hel₂
        rw [Nat.add_sub_cancel_left, hev, eventsFrom_eq, eventsFrom_eq] at hev₂
        obtain ⟨s', hroll, h', hback⟩ := h.rollBack hK hmid' hblk (honly.trans honly₂) hel₂ hnew
          (nodup_slotsFrom hlay.blk_inj hk (by have := le_numBlocks cfg (H + l.length + items.length); rw [hgot]; omega)) hev₂
        refine ⟨.threw, s', ?_, Or.inr (Or.inl ⟨(by rintro ⟨⟩), ⟨blk', h'⟩, fun _ => ?_, hback⟩)⟩
        · rw [← h.tailIndex_mod] at hdestroy
          rw [enqueueBulk_acquired hnew hfirst, hloop, Option.bind_some]
          refine Option.bind_eq_some_iff.mpr ⟨_, hdestroy, ?_⟩
          exact Option.bind_eq_some_iff.mpr ⟨_, hroll, rfl⟩
        · rw [hitems]
          exact List.mem_append_right _ List.mem_cons_self
  · -- a block is refused
    obtain ⟨a, c, hlay, -⟩ := hmid'.layout
    obtain ⟨s', hroll, h', hback⟩ := h.rollBack hK hmid' hblk (.refl _) hlay.elements hnew List.nodup_nil (by simp)
    refine ⟨.returned false, s', ?_, Or.inr (Or.inl ⟨(by rintro ⟨⟩), ⟨blk', h'⟩, (by rintro ⟨⟩), hback⟩)⟩
    simp only [SlowQueue.enqueueBulk]
    refine Option.bind_eq_some_iff.mpr ⟨_, hnew, ?_⟩
    exact Option.bind_eq_some_iff.mpr ⟨_, hroll, rfl⟩
  · refine ⟨.threw, b.queue, ?_, Or.inr (Or.inr ⟨rfl, hal, n, blk', b₀, hmid', hkeyed, b, hnew, rfl⟩)⟩
    simp only [SlowQueue.enqueueBulk]
    exact Option.bind_eq_some_iff.mpr ⟨_, hnew, rfl⟩

end Inv

end SlowQueue

end LockFreeStructures
