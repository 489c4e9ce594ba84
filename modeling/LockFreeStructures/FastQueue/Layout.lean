import LockFreeStructures.FastQueue.Run
import LockFreeStructures.Queue.Numbering
import LockFreeStructures.Lib.Ring

/-!
# `FastQueue.Layout` — how the list lies in the ring of blocks and in the index

The elements are numbered from 0 on in the order they are enqueued; `H` is the number of the next one to
dequeue, `T` that of the next one to enqueue. Block number `k` holds the elements from `k * BlockSize` on,
in the block `blk k`; `K` block numbers are given out. The four layouts each speak of one part of the
state, so that an operation that changes one part keeps the others by their `congr` lemmas:

- `RingLayout`: the ring holds, in link order, the blocks `front` that carry no element any more and then
  the blocks of the numbers from `k₀` on; the tail block is the last of them.
- `IndexLayout`: the entry of block number `k` stands `K - k` slots behind `PO_NextIndexEntry`.
- `FlagsLayout`: a slot is marked empty when its element is dequeued.
- `ElementsLayout`: the slots hold the elements of the list and nothing else.
-/

namespace LockFreeStructures

namespace FastQueue

variable {α : Type} {cfg : Cfg} {s s' : FastQueue α} {p q i : ℕ}

/-! ## What the elementary operations change -/

section Simp

variable (f : FlagsCheckPolicy → FlagsCheckPolicy) (n : Option ℕ) (a : α)

theorem blocks_modifyPolicy : (s.modifyPolicy p f).blocks q =
    if q = p then { s.blocks p with policy := f (s.blocks p).policy } else s.blocks q :=
  Function.update_apply ..

@[simp] theorem next_modifyPolicy : ((s.modifyPolicy p f).blocks q).next = (s.blocks q).next := by
  rw [blocks_modifyPolicy]
  split
  · next h => rw [h]
  · rfl

@[simp] theorem elements_modifyPolicy :
    ((s.modifyPolicy p f).blocks q).elements = (s.blocks q).elements := by
  rw [blocks_modifyPolicy]
  split
  · next h => rw [h]
  · rfl

@[simp] theorem policy_modifyPolicy_self :
    ((s.modifyPolicy p f).blocks p).policy = f (s.blocks p).policy := by
  rw [blocks_modifyPolicy, if_pos rfl]

theorem policy_modifyPolicy_of_ne (h : q ≠ p) :
    ((s.modifyPolicy p f).blocks q).policy = (s.blocks q).policy := by
  rw [blocks_modifyPolicy, if_neg h]

theorem blocks_setNext : (s.setNext p n).blocks q =
    if q = p then { s.blocks p with next := n } else s.blocks q :=
  Function.update_apply ..

@[simp] theorem policy_setNext : ((s.setNext p n).blocks q).policy = (s.blocks q).policy := by
  rw [blocks_setNext]
  split
  · next h => rw [h]
  · rfl

@[simp] theorem elements_setNext : ((s.setNext p n).blocks q).elements = (s.blocks q).elements := by
  rw [blocks_setNext]
  split
  · next h => rw [h]
  · rfl

theorem next_setNext_of_ne (h : q ≠ p) : ((s.setNext p n).blocks q).next = (s.blocks q).next := by
  rw [blocks_setNext, if_neg h]

@[simp] theorem tailBlock_spliceBlock : (s.spliceBlock p).tailBlock = some p := rfl

@[simp] theorem indexEntriesUsed_spliceBlock :
    (s.spliceBlock p).indexEntriesUsed = s.indexEntriesUsed + 1 := rfl

@[simp] theorem blockManager_spliceBlock : (s.spliceBlock p).blockManager = s.blockManager := by
  rw [spliceBlock]
  split <;> rfl

theorem next_spliceBlock_none (h : s.tailBlock = none) :
    ((s.spliceBlock p).blocks q).next = if q = p then some p else (s.blocks q).next := by
  simp only [spliceBlock, h, blocks_setNext]
  split <;> rfl

theorem next_spliceBlock_some {t : ℕ} (h : s.tailBlock = some t) :
    ((s.spliceBlock p).blocks q).next
      = if q = t then some p else if q = p then (s.blocks t).next else (s.blocks q).next := by
  simp only [spliceBlock, h, blocks_setNext]
  split
  · rfl
  · split <;> rfl

@[simp] theorem policy_spliceBlock : ((s.spliceBlock p).blocks q).policy = (s.blocks q).policy := by
  rw [spliceBlock]
  split <;> simp

@[simp] theorem elements_spliceBlock :
    ((s.spliceBlock p).blocks q).elements = (s.blocks q).elements := by
  rw [spliceBlock]
  split <;> simp

theorem blocks_construct : (s.construct p i a).blocks q =
    if q = p then { s.blocks p with elements := Function.update (s.blocks p).elements i (some a) }
    else s.blocks q :=
  Function.update_apply ..

@[simp] theorem next_construct : ((s.construct p i a).blocks q).next = (s.blocks q).next := by
  rw [blocks_construct]
  split
  · next h => rw [h]
  · rfl

@[simp] theorem policy_construct : ((s.construct p i a).blocks q).policy = (s.blocks q).policy := by
  rw [blocks_construct]
  split
  · next h => rw [h]
  · rfl

theorem elements_construct (j : ℕ) : ((s.construct p i a).blocks q).elements j =
    if q = p ∧ j = i then some a else (s.blocks q).elements j := by
  rw [blocks_construct]
  by_cases hq : q = p
  · subst hq
    simp [Function.update_apply]
  · simp [hq]

end Simp

/-! ## The four layouts -/

structure RingLayout (s : FastQueue α) (blk : ℕ → ℕ) (k₀ K : ℕ) (front : List ℕ) : Prop where
  manager : s.blockManager.WF
  used : s.indexEntriesUsed = s.blockManager.outstanding.length
  ring : IsRing (fun p => (s.blocks p).next) (front ++ liveBlocks blk k₀ K)
  tail : s.tailBlock = (front ++ liveBlocks blk k₀ K).getLast?
  owned : ∀ p ∈ front ++ liveBlocks blk k₀ K, p ∈ s.blockManager.outstanding

structure IndexLayout (cfg : Cfg) (s : FastQueue α) (blk : ℕ → ℕ) (k₀ K : ℕ) : Prop where
  size : ∃ e ≤ cfg.w, s.indexEntriesSize = 2 ^ e
  /-- a lookup may step back through the whole array without its distance wrapping -/
  span : s.indexEntriesSize * cfg.blockSize ∣ 2 ^ cfg.w ∨ K ≤ 1
  arr : ∀ a ∈ s.currentIndexEntryArray.head?, a.size = s.indexEntriesSize
  next_lt : s.nextIndexEntry < s.indexEntriesSize
  used_le : s.indexEntriesUsed ≤ s.indexEntriesSize
  unindexed : s.currentIndexEntryArray = [] →
    s.indexEntriesUsed = 0 ∧ 2 * s.indexEntriesSize * cfg.blockSize ∣ 2 ^ cfg.w
  window : K - k₀ ≤ s.indexEntriesUsed
  numbered : 0 < K → 0 < s.indexEntriesUsed
  entries : ∀ a ∈ s.currentIndexEntryArray.head?, ∀ k, k₀ ≤ k → k < K →
    a.entries (slotBack s.indexEntriesSize s.nextIndexEntry (K - k))
      = some ⟨k * cfg.blockSize % 2 ^ cfg.w, blk k⟩

structure FlagsLayout (cfg : Cfg) (s : FastQueue α) (H : ℕ) (blk : ℕ → ℕ) (k₀ K : ℕ) : Prop where
  flag : ∀ k, k₀ ≤ k → k < K → ∀ i < cfg.blockSize,
    ((s.blocks (blk k)).policy.flags i = true ↔ k * cfg.blockSize + i < H)

/-- `c` tells what the slot of every element number holds. -/
structure ElementsLayout (cfg : Cfg) (s : FastQueue α) (blk : ℕ → ℕ) (k₀ K : ℕ) (c : ℕ → Option α) :
    Prop where
  live : ∀ k, k₀ ≤ k → k < K → ∀ i < cfg.blockSize,
    (s.blocks (blk k)).elements i = c (k * cfg.blockSize + i)
  raw : ∀ p ∉ liveBlocks blk k₀ K, ∀ i < cfg.blockSize, (s.blocks p).elements i = none

/-- The list `l`, its first element being number `H`, lies in the queue; `K` block numbers are given
    out. -/
structure Layout (cfg : Cfg) (s : FastQueue α) (H K : ℕ) (blk : ℕ → ℕ) (front : List ℕ) (l : List α) :
    Prop where
  ring : RingLayout s blk (H / cfg.blockSize) K front
  index : IndexLayout cfg s blk (H / cfg.blockSize) K
  flags : FlagsLayout cfg s H blk (H / cfg.blockSize) K
  elements : ElementsLayout cfg s blk (H / cfg.blockSize) K (contents H l)
  fits : H + l.length ≤ K * cfg.blockSize

variable {blk : ℕ → ℕ} {k k₀ K H : ℕ} {front : List ℕ} {l : List α}

/-! ### The ring -/

namespace RingLayout

/-- The ring depends on the links, the tail block, the manager and the number of used entries. -/
theorem congr (h : RingLayout s blk k₀ K front) (hn : ∀ q, (s'.blocks q).next = (s.blocks q).next)
    (ht : s'.tailBlock = s.tailBlock) (hm : s'.blockManager = s.blockManager)
    (hu : s'.indexEntriesUsed = s.indexEntriesUsed) : RingLayout s' blk k₀ K front :=
  ⟨hm ▸ h.manager, by rw [hu, hm, h.used], h.ring.congr fun q _ => hn q, ht.trans h.tail,
    fun q hq => hm ▸ h.owned q hq⟩

theorem blk_inj (h : RingLayout s blk k₀ K front) {k' : ℕ} (hk : k₀ ≤ k) (hkK : k < K) (hk' : k₀ ≤ k')
    (hkK' : k' < K) (heq : blk k = blk k') : k = k' := by
  have hnd := (List.nodup_append.mp h.ring.nodup).2.1
  exact List.inj_on_of_nodup_map hnd (List.mem_range'_1.mpr ⟨hk, by omega⟩)
    (List.mem_range'_1.mpr ⟨hk', by omega⟩) heq

theorem not_mem_liveBlocks (h : RingLayout s blk k₀ K front) (hp : p ∈ front) :
    p ∉ liveBlocks blk k₀ K := by
  intro hmem
  exact (List.nodup_append.mp h.ring.nodup).2.2 _ hp _ hmem rfl

/-- There is a used index entry for every block of the ring. -/
theorem length_le (h : RingLayout s blk k₀ K front) :
    front.length + (K - k₀) ≤ s.indexEntriesUsed := by
  have hsub : List.Subperm _ s.blockManager.outstanding := h.ring.nodup.subperm fun p hp => h.owned p hp
  simpa [h.used] using hsub.length_le

/-- The block behind the tail block is the first of the ring. -/
theorem next_tail (h : RingLayout s blk k₀ K front) {t : ℕ} (ht : s.tailBlock = some t) :
    (s.blocks t).next = (front ++ liveBlocks blk k₀ K).head? := by
  have hlast := h.tail.symm.trans ht
  obtain ⟨l, hl⟩ := List.getLast?_eq_some_iff.mp hlast
  have hring := h.ring
  rw [hl] at hring ⊢
  exact hring.next_last

/-- The blocks of consecutive numbers are linked. -/
theorem next_blk (h : RingLayout s blk k₀ K front) (hk : k₀ ≤ k) (hkK : k + 1 < K) :
    (s.blocks (blk k)).next = some (blk (k + 1)) := by
  have hsplit : front ++ liveBlocks blk k₀ K
      = (front ++ liveBlocks blk k₀ k) ++ blk k :: blk (k + 1) :: liveBlocks blk (k + 2) K := by
    rw [liveBlocks_append hk (by omega : k ≤ K), liveBlocks_cons (by omega : k < K), liveBlocks_cons hkK,
      List.append_assoc]
  have hring := h.ring
  rw [hsplit] at hring
  exact hring.next_mid

/-- **Reuse.** The first block of the ring becomes its last, under a new number. -/
theorem reuse (h : RingLayout s blk k₀ K (p :: front)) (s' : FastQueue α) (hk : k₀ ≤ K)
    (hn : ∀ q, (s'.blocks q).next = (s.blocks q).next) (ht : s'.tailBlock = some p)
    (hm : s'.blockManager = s.blockManager) (hu : s'.indexEntriesUsed = s.indexEntriesUsed) :
    RingLayout s' (Function.update blk K p) k₀ (K + 1) front := by
  have hlist : front ++ liveBlocks (Function.update blk K p) k₀ (K + 1)
      = front ++ liveBlocks blk k₀ K ++ [p] := by
    rw [liveBlocks_succ hk, List.append_assoc]
  refine ⟨hm ▸ h.manager, by rw [hu, hm, h.used], ?_, ?_, ?_⟩
  · rw [hlist]
    have hrot : IsRing (fun p => (s.blocks p).next) ([p] ++ (front ++ liveBlocks blk k₀ K)) := h.ring
    exact hrot.rotate.congr fun q _ => hn q
  · rw [hlist, ht]
    simp
  · intro q hq
    rw [hlist] at hq
    rw [hm]
    apply h.owned q
    simp only [List.mem_append, List.cons_append, List.mem_cons] at hq ⊢
    tauto

/-- **Splice.** A block new from the manager becomes the last of the ring. -/
theorem spliceBlock (h : RingLayout s blk k₀ K front) (s' : FastQueue α) (hk : k₀ ≤ K)
    (hp : p ∉ s.blockManager.outstanding)
    (hn : ∀ q, (s'.blocks q).next = (s.blocks q).next) (ht : s'.tailBlock = s.tailBlock)
    (hm : s'.blockManager.WF) (hout : s'.blockManager.outstanding = p :: s.blockManager.outstanding)
    (hu : s'.indexEntriesUsed = s.indexEntriesUsed) :
    RingLayout (s'.spliceBlock p) (Function.update blk K p) k₀ (K + 1) front := by
  have hlist : front ++ liveBlocks (Function.update blk K p) k₀ (K + 1)
      = front ++ liveBlocks blk k₀ K ++ [p] := by
    rw [liveBlocks_succ hk, List.append_assoc]
  have hnew : p ∉ front ++ liveBlocks blk k₀ K := fun hmem => hp (h.owned p hmem)
  refine ⟨by simpa using hm, by simp [hout, hu, h.used], ?_, by rw [hlist]; simp, ?_⟩
  · rw [hlist]
    cases htail : s.tailBlock with
    | none =>
        have hnil : front ++ liveBlocks blk k₀ K = [] :=
          List.getLast?_eq_none_iff.mp (h.tail.symm.trans htail)
        rw [hnil, List.nil_append]
        exact IsRing.singleton (by rw [next_spliceBlock_none (ht.trans htail), if_pos rfl])
    | some t =>
        obtain ⟨l, hl⟩ := List.getLast?_eq_some_iff.mp (h.tail.symm.trans htail)
        have hring := h.ring
        rw [hl] at hring hnew ⊢
        have hpt : p ≠ t := by
          rintro rfl
          simp at hnew
        refine hring.splice hnew ?_ ?_ ?_
        · rw [next_spliceBlock_some (ht.trans htail), if_pos rfl]
        · rw [next_spliceBlock_some (ht.trans htail), if_neg hpt, if_pos rfl, hn]
        · intro z hz
          have hzt : z ≠ t := by
            rintro rfl
            exact (List.nodup_append.mp hring.nodup).2.2 z hz z List.mem_cons_self rfl
          have hzp : z ≠ p := by
            rintro rfl
            exact hnew (List.mem_append_left _ hz)
          rw [next_spliceBlock_some (ht.trans htail), if_neg hzt, if_neg hzp, hn]
  · intro q hq
    rw [hlist, List.mem_append, List.mem_singleton] at hq
    rw [blockManager_spliceBlock, hout]
    rcases hq with hq | rfl
    · exact List.mem_cons_of_mem _ (h.owned q hq)
    · exact List.mem_cons_self

end RingLayout

end FastQueue

end LockFreeStructures
