import LockFreeStructures.FastQueue.Index
import LockFreeStructures.FastQueue.Elements

/-!
# `FastQueue.Acquire` — getting one more block

The next block number goes to the empty block behind the tail block (`Layout.reuse`) or to a block new
from the manager (`Layout.splice`); `Layout.acquireNewBlock_cases` says what the checks before the latter
can come to.
-/

namespace LockFreeStructures

namespace FastQueue

variable {α : Type} {cfg : Cfg} {s s' : FastQueue α} {p q : ℕ} {blk : ℕ → ℕ} {k K H : ℕ}
  {front : List ℕ} {l : List α}

/-! ## The state after a block was got -/

/-- The queue after `reuseNext` made the block `p` its tail block. -/
def reused (p : ℕ) (s : FastQueue α) : FastQueue α :=
  { s with tailBlock := some p }.modifyPolicy p .reset

/-- The queue after the block `p` from the manager was linked in. -/
def spliced (p : ℕ) (m : BlockManager) (allocs : List Bool) (s : FastQueue α) : FastQueue α :=
  ({ s with blockManager := m, allocs := allocs }.modifyPolicy p .reset).spliceBlock p

/-- The queue after the index entry of the block `p`, its tail block, was written and passed. -/
def entered (cfg : Cfg) (K p : ℕ) (s : FastQueue α) : FastQueue α :=
  (s.putEntry (K * cfg.blockSize % 2 ^ cfg.w) p).advanceNextIndexEntry

/-- What getting blocks leaves alone: the counters, the events and what the slots hold. -/
structure SameContents (s s' : FastQueue α) : Prop where
  headIndex : s'.headIndex = s.headIndex
  tailIndex : s'.tailIndex = s.tailIndex
  attempts : s'.dequeueAttemptsCount = s.dequeueAttemptsCount
  failed : s'.dequeueFailedCount = s.dequeueFailedCount
  events : s'.events = s.events
  elements : ∀ q, (s'.blocks q).elements = (s.blocks q).elements

namespace SameContents

theorem refl (s : FastQueue α) : SameContents s s := ⟨rfl, rfl, rfl, rfl, rfl, fun _ => rfl⟩

theorem trans {s'' : FastQueue α} (h : SameContents s s') (h' : SameContents s' s'') :
    SameContents s s'' :=
  ⟨h'.headIndex.trans h.headIndex, h'.tailIndex.trans h.tailIndex, h'.attempts.trans h.attempts,
    h'.failed.trans h.failed, h'.events.trans h.events, fun q => (h'.elements q).trans (h.elements q)⟩

theorem reused (s : FastQueue α) (p : ℕ) : SameContents s (s.reused p) :=
  ⟨rfl, rfl, rfl, rfl, rfl, fun _ => elements_modifyPolicy _⟩

theorem spliced (s : FastQueue α) (p : ℕ) (m : BlockManager) (allocs : List Bool) :
    SameContents s (s.spliced p m allocs) := by
  refine ⟨?_, ?_, ?_, ?_, ?_, fun q => ?_⟩
  case refine_6 => exact elements_spliceBlock.trans (elements_modifyPolicy _)
  all_goals
    rw [FastQueue.spliced, spliceBlock]
    split <;> rfl

theorem entered (s : FastQueue α) (K p : ℕ) : SameContents s (s.entered cfg K p) :=
  ⟨rfl, rfl, rfl, rfl, rfl, fun _ => rfl⟩

end SameContents

/-- The ring does not depend on the index entries. -/
theorem RingLayout.entered {k₀ : ℕ} (h : RingLayout s blk k₀ K front) (K' p : ℕ) :
    RingLayout (s.entered cfg K' p) blk k₀ K front :=
  h.congr (fun _ => rfl) rfl rfl rfl

namespace Layout

theorem lt_block_end (cfg : Cfg) (H : ℕ) :
    H < H / cfg.blockSize * cfg.blockSize + cfg.blockSize := by
  have := cfg.pos_eq H
  have := cfg.slot_lt H
  omega

theorem head_block_le (h : Layout cfg s H K blk front l) : H / cfg.blockSize ≤ K := by
  have hHK : H ≤ K * cfg.blockSize := le_trans (Nat.le_add_right _ _) h.fits
  exact Nat.div_le_of_le_mul (by rwa [Nat.mul_comm])

theorem blk_inj (h : Layout cfg s H K blk front l) :
    ∀ k k', H / cfg.blockSize ≤ k → k < K → H / cfg.blockSize ≤ k' → k' < K → blk k = blk k' → k = k' :=
  fun _ _ hk hkK hk' hkK' heq => h.ring.blk_inj hk hkK hk' hkK' heq

/-- The layout does not depend on the counters, the allocations ahead and the events. -/
theorem congr (h : Layout cfg s H K blk front l) (hb : s'.blocks = s.blocks)
    (ht : s'.tailBlock = s.tailBlock) (hm : s'.blockManager = s.blockManager)
    (ha : s'.currentIndexEntryArray = s.currentIndexEntryArray)
    (hn : s'.nextIndexEntry = s.nextIndexEntry) (hu : s'.indexEntriesUsed = s.indexEntriesUsed)
    (hs : s'.indexEntriesSize = s.indexEntriesSize) : Layout cfg s' H K blk front l :=
  ⟨h.ring.congr (fun q => by rw [hb]) ht hm hu, h.index.congr ha hn hu hs,
    h.flags.congr (fun k _ _ => by rw [hb]), h.elements.congr (fun q => by rw [hb]), h.fits⟩

/-- **The next block.** It is told whether the block behind the tail block is empty; if it is, it heads the
    ring and carries no element any more. -/
theorem nextIsEmpty_cases (h : Layout cfg s H K blk front l) :
    s.nextIsEmpty cfg = some false ∨
      ∃ p front', front = p :: front' ∧ s.blockIsEmpty cfg p = true ∧ s.nextIsEmpty cfg = some true := by
  unfold nextIsEmpty
  cases ht : s.tailBlock with
  | none => exact Or.inl rfl
  | some t =>
      have hnext := h.ring.next_tail ht
      cases hf : front with
      | cons p front' =>
          rw [hf, List.cons_append, List.head?_cons] at hnext
          cases he : s.blockIsEmpty cfg p with
          | true => exact Or.inr ⟨p, front', rfl, he, by simp [hnext, he]⟩
          | false => exact Or.inl (by simp [hnext, he])
      | nil =>
          -- the ring starts with the oldest live block, which is not empty
          rw [hf, List.nil_append] at hnext
          have hlt : H / cfg.blockSize < K := by
            rcases Nat.lt_or_ge (H / cfg.blockSize) K with hlt | hge
            · exact hlt
            · have htail := h.ring.tail
              rw [hf, ht, Nat.le_antisymm h.head_block_le hge, liveBlocks_self] at htail
              simp at htail
          rw [liveBlocks_cons hlt, List.head?_cons] at hnext
          refine Or.inl ?_
          simp [hnext, h.flags.not_isEmpty (Nat.le_refl _) hlt (lt_block_end cfg H)]

theorem reuseNext_eq (h : Layout cfg s H K blk (p :: front) l) : s.reuseNext = some (s.reused p) := by
  have htail := h.ring.tail
  cases ht : s.tailBlock with
  | none =>
      rw [ht, eq_comm, List.getLast?_eq_none_iff] at htail
      exact absurd htail (by simp)
  | some t =>
      have hnext := h.ring.next_tail ht
      rw [List.cons_append, List.head?_cons] at hnext
      simp [reuseNext, ht, hnext, reused]

theorem used_pos (h : Layout cfg s H K blk (p :: front) l) :
    K - H / cfg.blockSize < s.indexEntriesUsed := by
  have := h.ring.length_le
  rw [List.length_cons] at this
  omega

/-- **Reuse.** The empty block behind the tail block gets the next number. -/
theorem reuse (h : Layout cfg s H K blk (p :: front) l)
    (hspan : s.indexEntriesSize * cfg.blockSize ∣ 2 ^ cfg.w ∨ K = 0) :
    (s.reused p).writeEntry (K * cfg.blockSize % 2 ^ cfg.w)
        = some ((s.reused p).putEntry (K * cfg.blockSize % 2 ^ cfg.w) p) ∧
      Layout cfg ((s.reused p).entered cfg K p) H (K + 1) (Function.update blk K p) front l := by
  have hk := h.head_block_le
  have hnotlive : p ∉ liveBlocks blk (H / cfg.blockSize) K :=
    h.ring.not_mem_liveBlocks List.mem_cons_self
  have hindex : IndexLayout cfg (s.reused p) blk (H / cfg.blockSize) K := h.index.congr rfl rfl rfl rfl
  have hHK : H + l.length ≤ K * cfg.blockSize := h.fits
  refine ⟨hindex.writeEntry_eq (Nat.lt_of_le_of_lt (Nat.zero_le _) h.used_pos) rfl _, ?_⟩
  refine ⟨?_, hindex.push hk h.used_pos hspan, ?_, ?_, ?_⟩
  · exact (h.ring.reuse (s.reused p) hk (fun _ => next_modifyPolicy _) rfl rfl rfl).entered K p
  · refine h.flags.push (by omega) (fun k hk' hkK => ?_) (fun i _ => ?_)
    · refine policy_modifyPolicy_of_ne _ ?_
      rintro rfl
      exact hnotlive (blk_mem_liveBlocks hk' hkK)
    · exact congrArg (fun f : FlagsCheckPolicy => f.flags i) (policy_modifyPolicy_self _)
  · exact h.elements.push hk hnotlive (fun n hn => contents_of_ge (by omega))
      fun _ => elements_modifyPolicy _
  · rw [Nat.succ_mul]
    omega

/-- **Splice.** A block new from the manager gets the next number. -/
theorem splice (h : Layout cfg s H K blk front l) {m : BlockManager} (allocs : List Bool) (hm : m.WF)
    (hout : m.outstanding = p :: s.blockManager.outstanding) (hp : p ∉ s.blockManager.outstanding)
    (harr : s.currentIndexEntryArray ≠ []) (hused : s.indexEntriesUsed < s.indexEntriesSize)
    (hspan : s.indexEntriesSize * cfg.blockSize ∣ 2 ^ cfg.w ∨ K = 0) :
    (s.spliced p m allocs).writeEntry (K * cfg.blockSize % 2 ^ cfg.w)
        = some ((s.spliced p m allocs).putEntry (K * cfg.blockSize % 2 ^ cfg.w) p) ∧
      Layout cfg ((s.spliced p m allocs).entered cfg K p) H (K + 1) (Function.update blk K p) front l := by
  have hk := h.head_block_le
  have hnotlive : p ∉ liveBlocks blk (H / cfg.blockSize) K := fun hmem =>
    hp (h.ring.owned p (List.mem_append_right _ hmem))
  have hfields : (s.spliced p m allocs).currentIndexEntryArray = s.currentIndexEntryArray ∧
      (s.spliced p m allocs).nextIndexEntry = s.nextIndexEntry ∧
      (s.spliced p m allocs).indexEntriesUsed = s.indexEntriesUsed + 1 ∧
      (s.spliced p m allocs).indexEntriesSize = s.indexEntriesSize := by
    rw [spliced, spliceBlock]
    split <;> exact ⟨rfl, rfl, rfl, rfl⟩
  obtain ⟨hfa, hfn, hfu, hfs⟩ := hfields
  have hw := h.index.window
  have hindex : IndexLayout cfg (s.spliced p m allocs) blk (H / cfg.blockSize) K :=
    ⟨by rw [hfs]; exact h.index.size, by rw [hfs]; exact h.index.span, by rw [hfa, hfs]; exact h.index.arr,
      by rw [hfn, hfs]; exact h.index.next_lt, by rw [hfu, hfs]; exact hused,
      fun hnil => absurd (hfa ▸ hnil) harr, by rw [hfu]; exact Nat.le_succ_of_le hw,
      fun _ => by rw [hfu]; exact Nat.succ_pos _,
      by rw [hfa, hfs, hfn]; exact h.index.entries⟩
  have hHK : H + l.length ≤ K * cfg.blockSize := h.fits
  refine ⟨hindex.writeEntry_eq (by rw [hfu]; exact Nat.succ_pos _) rfl _, ?_⟩
  refine ⟨?_, hindex.push hk (by rw [hfu]; exact Nat.lt_succ_of_le hw) (by rw [hfs]; exact hspan), ?_, ?_, ?_⟩
  · exact (h.ring.spliceBlock ({ s with blockManager := m, allocs := allocs }.modifyPolicy p .reset)
      hk hp (fun _ => next_modifyPolicy _) rfl hm hout rfl).entered K p
  · refine h.flags.push (by omega) (fun k hk' hkK => ?_) (fun i _ => ?_)
    · refine policy_spliceBlock.trans (policy_modifyPolicy_of_ne _ ?_)
      rintro rfl
      exact hnotlive (blk_mem_liveBlocks hk' hkK)
    · exact congrArg (fun f : FlagsCheckPolicy => f.flags i)
        (policy_spliceBlock.trans (policy_modifyPolicy_self _))
  · exact h.elements.push hk hnotlive (fun n hn => contents_of_ge (by omega))
      fun _ => elements_spliceBlock.trans (elements_modifyPolicy _)
  · rw [Nat.succ_mul]
    omega

end Layout

/-! ## The checks before a new block -/

/-- The queue up to its allocations ahead, with the index array replaced where `grew` says so. -/
structure Regrown (cfg : Cfg) (filledSlot : ℕ) (grew : Bool) (s s₁ : FastQueue α) : Prop where
  rest : s₁ = { s with
    currentIndexEntryArray := s₁.currentIndexEntryArray, nextIndexEntry := s₁.nextIndexEntry
    indexEntriesSize := s₁.indexEntriesSize, allocs := s₁.allocs }
  stays : grew = false → s₁ = { s with allocs := s₁.allocs }
  grows : grew = true → s.indexExhausted = true ∧ s₁.currentIndexEntryArray ≠ [] ∧
    s₁.nextIndexEntry = s.indexEntriesUsed ∧ s₁.indexEntriesSize = 2 * s.indexEntriesSize ∧
    s₁.tailSlot = some (Word.sub cfg.w filledSlot 1)
  allocs : s.allocs = [] → s₁.allocs = []

namespace Regrown

variable {s₁ : FastQueue α} {grew : Bool} {filledSlot : ℕ}

theorem refl (s : FastQueue α) : Regrown cfg filledSlot false s s :=
  ⟨rfl, fun _ => rfl, fun h => (Bool.false_ne_true h).elim, id⟩

theorem sameContents (h : Regrown cfg filledSlot grew s s₁) : SameContents s s₁ := by
  rw [h.rest]
  exact ⟨rfl, rfl, rfl, rfl, rfl, fun _ => rfl⟩

theorem withAllocs (h : Regrown cfg filledSlot grew s s₁) (allocs : List Bool)
    (ha : s.allocs = [] → allocs = []) : Regrown cfg filledSlot grew s { s₁ with allocs := allocs } := by
  refine ⟨?_, fun hg => ?_, h.grows, ha⟩
  · conv_lhs => rw [h.rest]
  · conv_lhs => rw [h.stays hg]

end Regrown

namespace Layout

/-- Only a call that may allocate replaces the index array. -/
theorem canAlloc_of_grew {mode : AllocMode} {grew : Bool} (hmode : mode = .cannotAlloc → grew = false)
    (hgrew : grew = true) : mode = .canAlloc := by
  cases mode with
  | canAlloc => rfl
  | cannotAlloc => exact absurd (hgrew.symm.trans (hmode rfl)) (by decide)

/-- What making room for one more index entry can come to. -/
theorem ensureIndexEntry_cases (h : Layout cfg s H K blk front l) (mode : AllocMode)
    (hroom : mode = .canAlloc → s.indexEntriesUsed * cfg.blockSize < 2 ^ cfg.w) (filledSlot : ℕ) :
    ∃ ready grew s₁, s.ensureIndexEntry cfg mode filledSlot = some (ready, grew, s₁) ∧
      Layout cfg s₁ H K blk front l ∧ Regrown cfg filledSlot grew s s₁ ∧
      (mode = .cannotAlloc → grew = false) ∧
      (ready = true → s₁.currentIndexEntryArray ≠ [] ∧ s₁.indexEntriesUsed < s₁.indexEntriesSize) ∧
      (ready = false → mode = .cannotAlloc ∨ s.allocs ≠ []) := by
  unfold ensureIndexEntry
  cases hex : s.indexExhausted with
  | false =>
      rw [indexExhausted, Bool.or_eq_false_iff, beq_eq_false_iff_ne] at hex
      refine ⟨true, false, s, rfl, h, .refl s, fun _ => rfl, fun _ => ⟨?_, ?_⟩, fun hr => ?_⟩
      · intro hnil
        simp [hnil] at hex
      · exact lt_of_le_of_ne h.index.used_le hex.2
      · exact absurd hr (by decide)
  | true =>
      cases mode with
      | cannotAlloc =>
          exact ⟨false, false, s, rfl, h, .refl s, fun _ => rfl, fun hr => absurd hr (by decide),
            fun _ => Or.inl rfl⟩
      | canAlloc =>
          rcases h.index.create (h.index.grow_dvd (hroom rfl) hex) filledSlot with
            ⟨allocs, hcreate, hne⟩ | ⟨s₁, hcreate, hindex, hrest, harr, htail, hallocs⟩
          · refine ⟨false, false, { s with allocs := allocs }, by simp [hcreate],
              h.congr rfl rfl rfl rfl rfl rfl rfl, ⟨rfl, fun _ => rfl, fun hg => absurd hg (by decide),
                fun hnil => absurd hnil hne⟩, fun _ => rfl, fun hr => absurd hr (by decide),
              fun _ => Or.inr hne⟩
          · have hnext : s₁.nextIndexEntry = s.indexEntriesUsed := by rw [hrest]
            have hused : s₁.indexEntriesUsed = s.indexEntriesUsed := by rw [hrest]
            have hsize : s₁.indexEntriesSize = 2 * s.indexEntriesSize := by rw [hrest]
            refine ⟨true, true, s₁, by simp [hcreate], ?_, ?_, (by rintro ⟨⟩), fun _ => ⟨harr, ?_⟩,
              fun hr => absurd hr (by decide)⟩
            · refine ⟨?_, hindex, ?_, ?_, h.fits⟩
              · exact h.ring.congr (fun q => by rw [hrest]) (by rw [hrest]) (by rw [hrest]) hused
              · exact h.flags.congr fun k _ _ => by rw [hrest]
              · exact h.elements.congr fun q => by rw [hrest]
            · refine ⟨?_, fun hg => absurd hg (by decide), fun _ => ⟨hex, harr, hnext, hsize, htail⟩, hallocs⟩
              conv_lhs => rw [hrest]
              rw [hnext, hsize]
            · have := h.index.used_le
              have := h.index.next_lt
              omega

/-- What the requisition of a new block can come to: the call is refused and nothing but the index array
    has changed, the allocator throws, or a block new to the queue is linked in. -/
theorem acquireNewBlock_cases (h : Layout cfg s H K blk front l) (mode : AllocMode)
    (hroom : mode = .canAlloc → s.indexEntriesUsed * cfg.blockSize < 2 ^ cfg.w) (cti filledSlot : ℕ) :
    ∃ grew s₁, Layout cfg s₁ H K blk front l ∧ Regrown cfg filledSlot grew s s₁ ∧
      (mode = .cannotAlloc → grew = false) ∧
      ((s.acquireNewBlock cfg mode cti filledSlot = some (.refused, grew, s₁) ∧
          (s.isFull cfg cti = true ∧ grew = false ∨ mode = .cannotAlloc ∨ s.allocs ≠ [])) ∨
        (s.acquireNewBlock cfg mode cti filledSlot = some (.threw, grew, s₁) ∧ s.allocs ≠ []) ∨
        ∃ p m allocs, s.acquireNewBlock cfg mode cti filledSlot
            = some (.acquired, grew, s₁.spliced p m allocs) ∧
          m.WF ∧ m.outstanding = p :: s₁.blockManager.outstanding ∧ p ∉ s₁.blockManager.outstanding ∧
          s₁.currentIndexEntryArray ≠ [] ∧ s₁.indexEntriesUsed < s₁.indexEntriesSize ∧
          m.poolSize = s₁.blockManager.poolSize ∧ s₁.blockManager.allocated ≤ m.allocated ∧
          (s.allocs = [] → allocs = [])) := by
  unfold acquireNewBlock
  cases hfull : s.isFull cfg cti with
  | true =>
      exact ⟨false, s, h, .refl s, fun _ => rfl, Or.inl ⟨rfl, Or.inl ⟨rfl, rfl⟩⟩⟩
  | false =>
      obtain ⟨ready, grew, s₁, hens, h₁, hre, hmode, hready, hnot⟩ :=
        h.ensureIndexEntry_cases mode hroom filledSlot
      rw [if_neg Bool.false_ne_true]
      simp only [hens, Option.bind_eq_bind, Option.bind_some]
      cases ready with
      | false => exact ⟨grew, s₁, h₁, hre, hmode, Or.inl ⟨rfl, Or.inr (hnot rfl)⟩⟩
      | true =>
          obtain ⟨harr, hused⟩ := hready rfl
          rcases h₁.ring.manager.requisitionBlock_cases mode s₁.allocs with
            ⟨p, allocs, m, hreq, hp, hm, hout, hpool, halloc, hallocs⟩ | ⟨hreq, hcannot⟩ |
            ⟨allocs, hreq, hne⟩
          · exact ⟨grew, s₁, h₁, hre, hmode, Or.inr (Or.inr ⟨p, m, allocs, by simp [hreq, spliced], hm, hout,
              hp, harr, hused, hpool, halloc, fun hnil => hallocs (hre.allocs hnil)⟩)⟩
          · exact ⟨grew, s₁, h₁, hre, hmode, Or.inl ⟨by simp [hreq], Or.inr (Or.inl hcannot)⟩⟩
          · have hne' : s.allocs ≠ [] := fun hnil => hne (hre.allocs hnil)
            exact ⟨grew, { s₁ with allocs := allocs }, h₁.congr rfl rfl rfl rfl rfl rfl rfl,
              hre.withAllocs allocs (fun hnil => absurd hnil hne'), hmode,
              Or.inr (Or.inl ⟨by simp [hreq], hne'⟩)⟩

end Layout

end FastQueue

end LockFreeStructures
