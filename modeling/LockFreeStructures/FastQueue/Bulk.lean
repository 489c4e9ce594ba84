import LockFreeStructures.FastQueue.Acquire
import LockFreeStructures.FastQueue.Manager

/-!
# `FastQueue.Bulk` — the blocks of one `EnqueueBulk`, and giving them back

`Mid` is the state of a bulk enqueue that has got `r` blocks from the ring and `n` new ones: the layout
with the higher block numbers, the saved position `OriginNextIndexEntry`, and where the ring was. The two
acquisition loops keep it, and `Mid.rollBack` is what `RollBack` makes of it.

The saved position is right as long as the index array was not replaced. Replacing it saves the position
behind the entries used at the start of the call, which is `r` slots too far ahead: the new array starts
with the used entries, those of the `r` reused blocks among them.
-/

namespace LockFreeStructures

namespace FastQueue

variable {α : Type} {cfg : Cfg} {s₀ : FastQueue α} {b b' : Bulk α} {p q : ℕ} {blk : ℕ → ℕ}
  {H K₀ r n : ℕ} {grew : Bool} {front : List ℕ} {l : List α}

/-- A bulk enqueue that started in `s₀` with `K₀` block numbers given out has since got `r` blocks of the
    ring and `n` new ones; `grew` tells whether the index array was replaced. -/
structure Mid (cfg : Cfg) (s₀ : FastQueue α) (b : Bulk α) (H K₀ r n : ℕ) (grew : Bool) (blk : ℕ → ℕ)
    (front : List ℕ) (l : List α) : Prop where
  layout : Layout cfg b.queue H (K₀ + r + n) blk front l
  same : SameContents s₀ b.queue
  fits₀ : H + l.length ≤ K₀ * cfg.blockSize
  first : b.firstAllocatedBlock = if r + n = 0 then none else some (blk K₀)
  used : b.queue.indexEntriesUsed = s₀.indexEntriesUsed + n
  used₀ : 0 < H + l.length → 0 < s₀.indexEntriesUsed
  start : s₀.tailBlock
    = (liveBlocks blk K₀ (K₀ + r) ++ front ++ liveBlocks blk (H / cfg.blockSize) K₀).getLast?
  origin : b.originNextIndexEntry
    = slotBack b.queue.indexEntriesSize b.queue.nextIndexEntry (n + if grew then 0 else r)
  tailSlot : 0 < H + l.length →
    b.queue.tailSlot = some (slotBack b.queue.indexEntriesSize b.originNextIndexEntry 1)
  policy : ∀ q, q ∉ liveBlocks blk K₀ (K₀ + r + n) → (b.queue.blocks q).policy = (s₀.blocks q).policy
  poolSize : b.queue.blockManager.poolSize = s₀.blockManager.poolSize
  allocated : s₀.blockManager.allocated ≤ b.queue.blockManager.allocated
  allocs : s₀.allocs = [] → b.queue.allocs = []
  size_le : s₀.indexEntriesSize ≤ b.queue.indexEntriesSize
  span : s₀.indexEntriesSize * cfg.blockSize ∣ 2 ^ cfg.w →
    b.queue.indexEntriesSize * cfg.blockSize ∣ 2 ^ cfg.w
  out : ∀ q ∈ b.queue.blockManager.outstanding,
    q ∈ s₀.blockManager.outstanding ∨ q ∈ liveBlocks blk K₀ (K₀ + r + n)

namespace Mid

theorem head_block_le (h : Mid cfg s₀ b H K₀ r n grew blk front l) : H / cfg.blockSize ≤ K₀ := by
  have hHK : H ≤ K₀ * cfg.blockSize := le_trans (Nat.le_add_right _ _) h.fits₀
  exact Nat.div_le_of_le_mul (by rwa [Nat.mul_comm])

/-- All blocks got so far fit into the index array. -/
theorem got_le (h : Mid cfg s₀ b H K₀ r n grew blk front l) :
    r + n ≤ b.queue.indexEntriesUsed := by
  have hw := h.layout.index.window
  have hle := h.head_block_le
  omega

/-- **Reuse step.** -/
theorem reuse (h : Mid cfg s₀ b H K₀ r 0 false blk (p :: front) l)
    (hspan : b.queue.indexEntriesSize * cfg.blockSize ∣ 2 ^ cfg.w ∨ K₀ + r = 0) (cti : ℕ) :
    Mid cfg s₀ ⟨(b.queue.reused p).entered cfg (K₀ + r) p, cti, b.firstAllocatedBlock.or (some p),
      b.originNextIndexEntry⟩ H K₀ (r + 1) 0 false (Function.update blk (K₀ + r) p) front l := by
  have hlay := (h.layout.reuse hspan).2
  have hmem := h.layout.ring.length_le
  have hle := h.head_block_le
  have hused := h.layout.index.used_le
  rw [List.length_cons] at hmem
  have hold : ∀ k₀, liveBlocks (Function.update blk (K₀ + r) p) k₀ K₀ = liveBlocks blk k₀ K₀ := fun k₀ =>
    liveBlocks_congr fun k _ hk => Function.update_of_ne (by omega) _ _
  have hgot : liveBlocks (Function.update blk (K₀ + r) p) K₀ (K₀ + (r + 1))
      = liveBlocks blk K₀ (K₀ + r) ++ [p] := liveBlocks_succ (Nat.le_add_right _ _)
  refine ⟨hlay, h.same.trans ((SameContents.reused _ p).trans (SameContents.entered _ _ p)), h.fits₀, ?_,
    h.used, h.used₀, ?_, ?_, fun hT => ?_, fun q hq => ?_, h.poolSize, h.allocated, h.allocs, h.size_le, h.span,
    fun q hq => ?_⟩
  · show b.firstAllocatedBlock.or (some p) = _
    rw [h.first, if_neg (by omega : ¬ r + 1 + 0 = 0)]
    rcases Nat.eq_zero_or_pos r with rfl | hr
    · simp
    · rw [if_neg (by omega), Function.update_of_ne (by omega), Option.some_or]
  · rw [hold, hgot, List.append_assoc (liveBlocks blk K₀ (K₀ + r)), List.singleton_append]
    exact h.start
  · show b.originNextIndexEntry
      = slotBack b.queue.indexEntriesSize ((b.queue.nextIndexEntry + 1) % b.queue.indexEntriesSize) _
    rw [h.origin, if_neg Bool.false_ne_true, if_neg Bool.false_ne_true, Nat.zero_add, Nat.zero_add,
      slotBack_succ h.layout.index.next_lt (by omega)]
  · exact (tailSlot_putEntry (s := b.queue.reused p) _).trans (h.tailSlot hT)
  · rw [show K₀ + (r + 1) + 0 = K₀ + (r + 1) from rfl, hgot, List.mem_append, List.mem_singleton,
      not_or] at hq
    exact (policy_modifyPolicy_of_ne _ hq.2).trans (h.policy q hq.1)
  · refine (h.out q hq).imp id fun hlive => ?_
    rw [show K₀ + (r + 1) + 0 = K₀ + (r + 1) from rfl, hgot]
    exact List.mem_append_left _ hlive

/-- **Growth step.** Making room for a new block may replace the index array; the saved position becomes
    the number of entries used at the start. -/
theorem regrow (h : Mid cfg s₀ b H K₀ r n grew blk front l) {s₁ : FastQueue α} {grew' : Bool}
    (hlay : Layout cfg s₁ H (K₀ + r + n) blk front l)
    (hre : Regrown cfg s₀.indexEntriesUsed grew' b.queue s₁)
    (hroom : grew' = true → b.queue.indexEntriesUsed * cfg.blockSize < 2 ^ cfg.w) (cti : ℕ) :
    Mid cfg s₀ ⟨s₁, cti, b.firstAllocatedBlock,
      if grew' then s₀.indexEntriesUsed else b.originNextIndexEntry⟩ H K₀ r n (grew || grew') blk front l := by
  have hbl : s₁.blocks = b.queue.blocks := by rw [hre.rest]
  have hm : s₁.blockManager = b.queue.blockManager := by rw [hre.rest]
  have hu : s₁.indexEntriesUsed = b.queue.indexEntriesUsed := by rw [hre.rest]
  refine ⟨hlay, h.same.trans hre.sameContents, h.fits₀, h.first, hu.trans h.used, h.used₀, h.start, ?_,
    fun hT => ?_, fun q hq => by rw [hbl]; exact h.policy q hq, by rw [hm]; exact h.poolSize,
    by rw [hm]; exact h.allocated, fun hnil => hre.allocs (h.allocs hnil), ?_, fun hdvd => ?_,
    by rw [hm]; exact h.out⟩
  case refine_4 =>
    cases grew' with
    | false =>
        rw [show s₁.indexEntriesSize = b.queue.indexEntriesSize by rw [hre.stays rfl]]
        exact h.span hdvd
    | true =>
        obtain ⟨hex, -, -, hsize, -⟩ := hre.grows rfl
        rw [hsize]
        exact h.layout.index.grow_dvd (hroom rfl) hex
  all_goals
    cases grew' with
    | false =>
        have hn : s₁.nextIndexEntry = b.queue.nextIndexEntry := by rw [hre.stays rfl]
        have hs : s₁.indexEntriesSize = b.queue.indexEntriesSize := by rw [hre.stays rfl]
        have ht : s₁.tailSlot = b.queue.tailSlot := by rw [hre.stays rfl]; rfl
        simp only [Bool.or_false, Bool.false_eq_true, if_false, hn, hs, ht]
        first | exact h.origin | exact h.tailSlot hT | exact h.size_le
    | true =>
        obtain ⟨-, -, hnext, hsize, htail⟩ := hre.grows rfl
        have hle := h.layout.index.used_le
        have hlt := h.layout.index.next_lt
        have hu' := h.used
        replace hroom := hroom rfl
        simp only [Bool.or_true, if_true, hnext, hsize, htail]
        have hback : s₀.indexEntriesUsed
            = slotBack (2 * b.queue.indexEntriesSize) b.queue.indexEntriesUsed (n + 0) := by
          rw [slotBack, if_pos (by omega)]
          omega
        have hsize_le := h.size_le
        first
          | exact hback
          | omega
          | have hpos := h.used₀ hT
            have hmul := Nat.le_mul_of_pos_right b.queue.indexEntriesUsed cfg.blockSize_pos
            have hhalf := cfg.half_add_half
            rw [Word.sub_of_le hpos (by omega), slotBack, if_pos (by omega)]

/-- **New block step.** -/
theorem splice (h : Mid cfg s₀ b H K₀ r n grew blk front l) {m : BlockManager} {allocs : List Bool}
    (hm : m.WF) (hout : m.outstanding = p :: b.queue.blockManager.outstanding)
    (hp : p ∉ b.queue.blockManager.outstanding) (harr : b.queue.currentIndexEntryArray ≠ [])
    (hused : b.queue.indexEntriesUsed < b.queue.indexEntriesSize)
    (hpool : m.poolSize = b.queue.blockManager.poolSize)
    (halloc : b.queue.blockManager.allocated ≤ m.allocated) (hallocs : s₀.allocs = [] → allocs = [])
    (hspan : b.queue.indexEntriesSize * cfg.blockSize ∣ 2 ^ cfg.w ∨ K₀ + r + n = 0) (cti : ℕ) :
    Mid cfg s₀ ⟨(b.queue.spliced p m allocs).entered cfg (K₀ + r + n) p, cti,
      b.firstAllocatedBlock.or (some p), b.originNextIndexEntry⟩ H K₀ r (n + 1) grew
      (Function.update blk (K₀ + r + n) p) front l := by
  have hlay := (h.layout.splice allocs hm hout hp harr hused hspan).2
  have hgot := h.got_le
  have hold : ∀ k₀ K, K ≤ K₀ + r + n →
      liveBlocks (Function.update blk (K₀ + r + n) p) k₀ K = liveBlocks blk k₀ K := fun k₀ K hK =>
    liveBlocks_congr fun k _ hk => Function.update_of_ne (by omega) _ _
  have hnew : liveBlocks (Function.update blk (K₀ + r + n) p) K₀ (K₀ + r + (n + 1))
      = liveBlocks blk K₀ (K₀ + r + n) ++ [p] := liveBlocks_succ (by omega)
  have hfields : (b.queue.spliced p m allocs).nextIndexEntry = b.queue.nextIndexEntry ∧
      (b.queue.spliced p m allocs).indexEntriesSize = b.queue.indexEntriesSize ∧
      (b.queue.spliced p m allocs).indexEntriesUsed = b.queue.indexEntriesUsed + 1 ∧
      (b.queue.spliced p m allocs).blockManager = m ∧ (b.queue.spliced p m allocs).allocs = allocs ∧
      (b.queue.spliced p m allocs).tailSlot = b.queue.tailSlot := by
    rw [spliced, spliceBlock]
    split <;> exact ⟨rfl, rfl, rfl, rfl, rfl, rfl⟩
  obtain ⟨hfn, hfs, hfu, hfm, hfa, hft⟩ := hfields
  refine ⟨hlay, h.same.trans ((SameContents.spliced _ p m allocs).trans (SameContents.entered _ _ p)),
    h.fits₀, ?_, ?_, h.used₀, ?_, ?_, fun hT => ?_, fun q hq => ?_, ?_, ?_, fun hnil => ?_, ?_, fun hdvd => ?_,
    fun q hq => ?_⟩
  · show b.firstAllocatedBlock.or (some p) = _
    rw [h.first, if_neg (by omega : ¬ r + (n + 1) = 0)]
    rcases Nat.eq_zero_or_pos (r + n) with h0 | hpos
    · obtain ⟨rfl, rfl⟩ : r = 0 ∧ n = 0 := by omega
      simp
    · rw [if_neg (by omega), Function.update_of_ne (by omega), Option.some_or]
  · show (b.queue.spliced p m allocs).indexEntriesUsed = _
    rw [hfu, h.used, Nat.add_assoc]
  · rw [hold _ _ (by omega), hold _ _ (by omega)]
    exact h.start
  · show b.originNextIndexEntry = slotBack (b.queue.spliced p m allocs).indexEntriesSize
      (((b.queue.spliced p m allocs).nextIndexEntry + 1) % (b.queue.spliced p m allocs).indexEntriesSize) _
    rw [hfn, hfs, h.origin, show n + 1 + (if grew = true then 0 else r)
      = n + (if grew = true then 0 else r) + 1 by omega, slotBack_succ h.layout.index.next_lt]
    split <;> omega
  · show (FastQueue.putEntry _ _ _).tailSlot = some (slotBack (b.queue.spliced p m allocs).indexEntriesSize _ 1)
    rw [tailSlot_putEntry, hft, hfs]
    exact h.tailSlot hT
  · rw [hnew, List.mem_append, List.mem_singleton, not_or] at hq
    exact policy_spliceBlock.trans ((policy_modifyPolicy_of_ne _ hq.2).trans (h.policy q hq.1))
  · show (b.queue.spliced p m allocs).blockManager.poolSize = _
    rw [hfm, hpool, h.poolSize]
  · show _ ≤ (b.queue.spliced p m allocs).blockManager.allocated
    rw [hfm]
    exact le_trans h.allocated halloc
  · show (b.queue.spliced p m allocs).allocs = []
    rw [hfa, hallocs hnil]
  · show _ ≤ (b.queue.spliced p m allocs).indexEntriesSize
    rw [hfs]
    exact h.size_le
  · show (b.queue.spliced p m allocs).indexEntriesSize * _ ∣ _
    rw [hfs]
    exact h.span hdvd
  · change q ∈ (b.queue.spliced p m allocs).blockManager.outstanding at hq
    rw [hfm, hout, List.mem_cons] at hq
    rw [hnew, List.mem_append, List.mem_singleton]
    rcases hq with rfl | hq
    · exact Or.inr (Or.inr rfl)
    · exact (h.out q hq).imp id Or.inl

/-- **Roll back.** Going back to the tail block and the position saved at the start gives the layout at the
    start, the blocks got since among those that carry no element, if the saved position is still right:
    the index array was not replaced, no block was reused before, or no element is left to be found.
    If the ring was empty at the start, the new blocks are no longer in it. -/
theorem rollBack (h : Mid cfg s₀ b H K₀ r n grew blk front l)
    (hsafe : grew = false ∨ r = 0 ∨ H / cfg.blockSize = K₀) :
    ∃ front', Layout cfg (b.rollBack s₀.tailBlock) H K₀ blk front' l ∧
      (0 < H + l.length → (b.rollBack s₀.tailBlock).tailSlot =
        some (slotBack b.queue.indexEntriesSize b.originNextIndexEntry 1)) ∧
      (∀ q ∈ front', q ∈ liveBlocks blk K₀ (K₀ + r + n) ++ front) ∧
      (s₀.tailBlock ≠ none → front'.Perm (liveBlocks blk K₀ (K₀ + r + n) ++ front)) := by
  have hk := h.head_block_le
  have hgot := h.got_le
  have hK : K₀ ≤ K₀ + r + n := by omega
  have hring := h.layout.ring
  have hsplit : liveBlocks blk _ _ = _ := liveBlocks_append hk hK
  -- the ring as it was linked: first what was there at the start, then the blocks got since
  obtain ⟨front', hring', htail', hsub, hperm⟩ : ∃ front',
      IsRing (fun p => (b.queue.blocks p).next) (front' ++ liveBlocks blk (H / cfg.blockSize) K₀) ∧
      s₀.tailBlock = (front' ++ liveBlocks blk (H / cfg.blockSize) K₀).getLast? ∧
      (∀ q ∈ front', q ∈ liveBlocks blk K₀ (K₀ + r + n) ++ front) ∧
      (s₀.tailBlock ≠ none → front'.Perm (liveBlocks blk K₀ (K₀ + r + n) ++ front)) := by
    have hlinked := hring.ring
    rw [hsplit, ← List.append_assoc] at hlinked
    have hstart := h.start
    by_cases hnil : front ++ liveBlocks blk (H / cfg.blockSize) K₀ = []
    · obtain ⟨rfl, hlive⟩ := List.append_eq_nil_iff.mp hnil
      have hsplit' : liveBlocks blk K₀ (K₀ + r + n)
          = liveBlocks blk K₀ (K₀ + r) ++ liveBlocks blk (K₀ + r) (K₀ + r + n) :=
        liveBlocks_append (Nat.le_add_right _ _) (Nat.le_add_right _ _)
      rw [hlive, List.append_nil, List.append_nil] at hstart
      rcases Nat.eq_zero_or_pos r with rfl | hr
      · -- the ring was empty
        refine ⟨[], by rw [hlive]; exact IsRing.nil, ?_, by simp, fun hne => ?_⟩
        · rw [hlive, hstart]
          simp
        · simp [hstart] at hne
      · rw [hlive, List.append_nil, List.nil_append, hsplit'] at hlinked
        refine ⟨liveBlocks blk (K₀ + r) (K₀ + r + n) ++ liveBlocks blk K₀ (K₀ + r), ?_, ?_, ?_, ?_⟩
        · rw [hlive, List.append_nil]
          exact hlinked.rotate
        · have hne : liveBlocks blk K₀ (K₀ + r) ≠ [] := by
            intro h0
            have := congrArg List.length h0
            simp at this
            omega
          rw [hlive, List.append_nil, hstart, List.getLast?_append_of_ne_nil _ hne]
        · intro q hq
          rw [hsplit', List.append_nil]
          exact List.mem_append.mpr (List.mem_append.mp hq).symm
        · intro _
          rw [hsplit', List.append_nil]
          exact List.perm_append_comm
    · refine ⟨liveBlocks blk K₀ (K₀ + r + n) ++ front, ?_, ?_, fun q hq => hq, fun _ => List.Perm.refl _⟩
      · rw [List.append_assoc]
        exact hlinked.rotate
      · rw [hstart, List.append_assoc, List.append_assoc, List.getLast?_append_of_ne_nil _ hnil,
          List.getLast?_append_of_ne_nil _ hnil]
  refine ⟨front', ⟨?_, ?_, ?_, ?_, h.fits₀⟩, h.tailSlot, hsub, hperm⟩
  · refine ⟨hring.manager, hring.used, hring', htail', fun q hq => hring.owned q ?_⟩
    rw [hsplit]
    rcases List.mem_append.mp hq with hq | hq
    · rcases List.mem_append.mp (hsub q hq) with hq | hq
      · exact List.mem_append_right _ (List.mem_append_right _ hq)
      · exact List.mem_append_left _ hq
    · exact List.mem_append_right _ (List.mem_append_left _ hq)
  · have hused := h.layout.index.used_le
    by_cases hempty : H / cfg.blockSize = K₀
    · have hlt : b.originNextIndexEntry < b.queue.indexEntriesSize := by
        rw [h.origin]
        refine slotBack_lt h.layout.index.next_lt ?_
        split <;> omega
      have hrewind : IndexLayout cfg (b.rollBack s₀.tailBlock) blk K₀ K₀ :=
        h.layout.index.rewind_empty hK hlt rfl rfl rfl
      rw [← hempty] at hrewind ⊢
      exact hrewind
    · refine h.layout.index.rewind hk hK ?_ rfl rfl rfl
      show b.originNextIndexEntry = _
      rw [h.origin, show K₀ + r + n - K₀ = n + r by omega]
      rcases hsafe with rfl | rfl | h0
      · rfl
      · simp
      · exact absurd h0 hempty
  · exact (h.layout.flags.shrink hK).congr fun _ _ _ => rfl
  · exact (h.layout.elements.shrink hK fun m hm => contents_of_ge (le_trans h.fits₀ hm)).congr fun _ => rfl

end Mid

/-! ## The acquisition loops -/

/-- `CurrentTailIndex` is the base of the block before number `K`. -/
def AtBlock (cfg : Cfg) (b : Bulk α) (K : ℕ) : Prop :=
  Word.add cfg.w b.currentTailIndex cfg.blockSize = K * cfg.blockSize % 2 ^ cfg.w

theorem AtBlock.succ {cti K : ℕ} {s : FastQueue α} {f : Option ℕ} {o : ℕ}
    (h : cti = K * cfg.blockSize % 2 ^ cfg.w) : AtBlock cfg (⟨s, cti, f, o⟩ : Bulk α) (K + 1) := by
  show Word.add cfg.w cti cfg.blockSize = _
  rw [h, Word.add_mod_left, Nat.succ_mul]

/-- **The reuse loop** takes the leading empty blocks of the ring, as many as are needed. -/
theorem reuseBlocks_eq :
    ∀ {need : ℕ} {b : Bulk α} {r : ℕ} {blk : ℕ → ℕ} {front : List ℕ},
      Mid cfg s₀ b H K₀ r 0 false blk front l → AtBlock cfg b (K₀ + r) →
      (b.queue.indexEntriesSize * cfg.blockSize ∣ 2 ^ cfg.w ∨ K₀ + r + need ≤ 1) →
      ∃ need' b' blk' got front', Bulk.reuseBlocks cfg need b = some (need', b') ∧
        Mid cfg s₀ b' H K₀ (r + got.length) 0 false blk' front' l ∧
        AtBlock cfg b' (K₀ + (r + got.length)) ∧ got.length + need' = need ∧ front = got ++ front' ∧
        (∀ k < K₀, blk' k = blk k) ∧ b'.queue.indexEntriesSize = b.queue.indexEntriesSize ∧
        (∀ q ∈ got, s₀.blockIsEmpty cfg q = true) ∧
        (0 < need' → ∀ q ∈ front'.head?, s₀.blockIsEmpty cfg q = false) := by
  intro need
  induction need with
  | zero =>
      intro b r blk front h hat _
      exact ⟨0, b, blk, [], front, rfl, h, hat, rfl, rfl, fun _ _ => rfl, rfl, by simp, fun hn => absurd hn (by decide)⟩
  | succ need ih =>
      intro b r blk front h hat hspan
      -- the blocks still in front have the policy they had at the start
      have hpolicy : ∀ q ∈ front, b.queue.blockIsEmpty cfg q = s₀.blockIsEmpty cfg q := by
        intro q hq
        have hnot : q ∉ liveBlocks blk K₀ (K₀ + r + 0) := by
          intro hmem
          refine h.layout.ring.not_mem_liveBlocks hq ?_
          rw [liveBlocks_append h.head_block_le (by omega : K₀ ≤ K₀ + r + 0)]
          exact List.mem_append_right _ hmem
        rw [blockIsEmpty, blockIsEmpty, h.policy q hnot]
      rcases h.layout.nextIsEmpty_cases with hno | ⟨p, front₁, rfl, hempty, hyes⟩
      · refine ⟨need + 1, b, blk, [], front, ?_, h, hat, by simp, rfl, fun _ _ => rfl, rfl, by simp,
          fun _ q hq => ?_⟩
        · simp [Bulk.reuseBlocks, hno]
        · rw [← hpolicy q (List.mem_of_head? hq)]
          cases hf : front with
          | nil => simp [hf] at hq
          | cons q' front₁ =>
              obtain rfl : q' = q := by simpa [hf] using hq
              subst hf
              have ht := h.layout.ring.tail
              cases htail : b.queue.tailBlock with
              | none =>
                  rw [htail, eq_comm, List.getLast?_eq_none_iff] at ht
                  exact absurd ht (by simp)
              | some t =>
                  have hnext := h.layout.ring.next_tail htail
                  rw [List.cons_append, List.head?_cons] at hnext
                  simpa [nextIsEmpty, htail, hnext] using hno
      · have hspan' : b.queue.indexEntriesSize * cfg.blockSize ∣ 2 ^ cfg.w ∨ K₀ + r = 0 :=
          hspan.imp id fun h1 => by omega
        have hwrite := (h.layout.reuse hspan').1
        have hmid := h.reuse hspan' (Word.add cfg.w b.currentTailIndex cfg.blockSize)
        obtain ⟨need', b', blk', got, front', hloop, hmid', hat', hlen, hfront, hblk, hsize, hgot, hstop⟩ :=
          ih hmid (AtBlock.succ hat) (hspan.imp id fun h1 => by omega)
        have hadd : r + 1 + got.length = r + (p :: got).length := by rw [List.length_cons]; omega
        rw [hadd] at hmid' hat'
        refine ⟨need', b', blk', p :: got, front', ?_, hmid', hat', ?_, ?_, ?_, hsize, ?_, hstop⟩
        · rw [Bulk.reuseBlocks]
          simp only [hyes, h.layout.reuseNext_eq, Option.bind_eq_bind, Option.bind_some, if_true]
          rw [← hloop]
          have hat₀ : Word.add cfg.w b.currentTailIndex cfg.blockSize
              = (K₀ + r + 0) * cfg.blockSize % 2 ^ cfg.w := hat
          simp only [Bulk.noteAllocated, Bulk.enterBlock, hat₀, hwrite, Option.map_some, Option.bind_some]
          rfl
        · rw [List.length_cons]
          omega
        · rw [hfront, List.cons_append]
        · intro k hk
          rw [hblk k hk, Function.update_of_ne (by omega)]
        · intro q hq
          rcases List.mem_cons.mp hq with rfl | hq
          · rw [← hpolicy q List.mem_cons_self]
            exact hempty
          · exact hgot q hq

/-- **The loop that gets new blocks.** Either the call may allocate and the queue comes to have blocks for all
    the indices there are, or the loop ends: with all the blocks it needs, or refused or thrown out before. -/
theorem newBlocks_eq (mode : AllocMode) :
    ∀ {need : ℕ} {b : Bulk α} {n : ℕ} {grew : Bool} {blk : ℕ → ℕ}, Mid cfg s₀ b H K₀ r n grew blk front l →
      AtBlock cfg b (K₀ + r + n) →
      (b.queue.indexEntriesSize * cfg.blockSize ∣ 2 ^ cfg.w ∨ K₀ + r + n + need ≤ 1) →
      (grew = true → r = 0 ∨ s₀.indexEntriesSize < s₀.indexEntriesUsed + n) →
      (mode = .canAlloc ∧ ∃ b' : Bulk α, b'.queue.indexEntriesUsed < b.queue.indexEntriesUsed + need ∧
        2 ^ cfg.w ≤ b'.queue.indexEntriesUsed * cfg.blockSize ∧
        b'.queue.indexEntriesUsed ≤ b'.queue.blockManager.blockCount ∧
        ∀ res b'', Bulk.newBlocks cfg mode s₀.indexEntriesUsed need b = some (res, b'') →
          b'.queue.blockManager.blockCount ≤ b''.queue.blockManager.blockCount) ∨
      ∃ res b' n' grew' blk', Bulk.newBlocks cfg mode s₀.indexEntriesUsed need b = some (res, b') ∧
        Mid cfg s₀ b' H K₀ r n' grew' blk' front l ∧ n ≤ n' ∧
        (∀ k < K₀ + r + n, blk' k = blk k) ∧ (mode = .cannotAlloc → grew' = grew) ∧
        (res = .acquired → n' = n + need ∧
          (grew' = true → r = 0 ∨ s₀.indexEntriesSize < s₀.indexEntriesUsed + n')) ∧
        (res ≠ .acquired → n' < n + need) ∧
        (res = .refused → b'.queue.isFull cfg ((K₀ + r + n') * cfg.blockSize % 2 ^ cfg.w) = true ∨
          mode = .cannotAlloc ∨ s₀.allocs ≠ []) ∧
        (res = .threw → s₀.allocs ≠ []) := by
  intro need
  induction need with
  | zero =>
      intro b n grew blk h _ _ hgrew
      exact Or.inr ⟨.acquired, b, n, grew, blk, rfl, h, Nat.le_refl _, fun _ _ => rfl, fun _ => rfl,
        fun _ => ⟨rfl, hgrew⟩, fun hne => absurd rfl hne, (by rintro ⟨⟩), by rintro ⟨⟩⟩
  | succ need ih =>
      intro b n grew blk h hat hspan hgrew
      have hcti : Word.add cfg.w b.currentTailIndex cfg.blockSize
          = (K₀ + r + n) * cfg.blockSize % 2 ^ cfg.w := hat
      have hused : b.queue.indexEntriesUsed ≤ b.queue.blockManager.blockCount := by
        rw [h.layout.ring.used]
        exact h.layout.ring.manager.length_outstanding_le
      by_cases hroom : mode = .canAlloc → b.queue.indexEntriesUsed * cfg.blockSize < 2 ^ cfg.w
      swap
      · obtain ⟨hmay, hroom⟩ := Classical.not_imp.mp hroom
        rw [Nat.not_lt] at hroom
        exact Or.inl ⟨hmay, b, by omega, hroom, hused, fun res b'' hrun => ((acquires_newBlocks hrun).requisitions).blockCount_le⟩
      obtain ⟨grew', s₁, hlay, hre, hmode, hcases⟩ := h.layout.acquireNewBlock_cases mode hroom
        ((K₀ + r + n) * cfg.blockSize % 2 ^ cfg.w) s₀.indexEntriesUsed
      have hgrow : grew' = true → b.queue.indexEntriesUsed * cfg.blockSize < 2 ^ cfg.w := fun hg =>
        hroom (Layout.canAlloc_of_grew hmode hg)
      have hmid := h.regrow hlay hre hgrow ((K₀ + r + n) * cfg.blockSize % 2 ^ cfg.w)
      have hs₀ : s₀.allocs = [] → b.queue.allocs = [] := h.allocs
      have hcannot : mode = .cannotAlloc → (grew || grew') = grew := fun hm => by
        rw [hmode hm, Bool.or_false]
      rcases hcases with ⟨hacq, hwhy⟩ | ⟨hacq, hne⟩ | ⟨p, m, allocs, hacq, hm, hout, hp, harr, hroom₁, hpool,
        halloc, hallocs⟩
      · -- refused
        refine Or.inr ⟨.refused, _, n, grew || grew', blk, ?_, hmid, Nat.le_refl _, fun _ _ => rfl, hcannot,
          (by rintro ⟨⟩), fun _ => by omega, fun _ => ?_, by rintro ⟨⟩⟩
        · simp only [Bulk.newBlocks, hcti, hacq, Option.bind_eq_bind, Option.bind_some]
        · rcases hwhy with ⟨hfull, rfl⟩ | hc | hne
          · left
            show s₁.isFull cfg _ = true
            rw [hre.stays rfl]
            exact hfull
          · exact Or.inr (Or.inl hc)
          · exact Or.inr (Or.inr fun hnil => hne (hs₀ hnil))
      · -- the allocator threw
        refine Or.inr ⟨.threw, _, n, grew || grew', blk, ?_, hmid, Nat.le_refl _, fun _ _ => rfl, hcannot,
          (by rintro ⟨⟩), fun _ => by omega, (by rintro ⟨⟩), fun _ hnil => hne (hs₀ hnil)⟩
        simp only [Bulk.newBlocks, hcti, hacq, Option.bind_eq_bind, Option.bind_some]
      · -- one more block
        have hspan₁ : s₁.indexEntriesSize * cfg.blockSize ∣ 2 ^ cfg.w ∨ K₀ + r + n + (need + 1) ≤ 1 := by
          rcases hspan with hdvd | h1
          · left
            rcases Bool.eq_false_or_eq_true grew' with hg | hg
            · obtain ⟨hex, -, -, hsize, -⟩ := hre.grows hg
              rw [hsize]
              exact h.layout.index.grow_dvd (hgrow hg) hex
            · rw [hre.stays hg]
              exact hdvd
          · exact Or.inr h1
        have hallocs' : s₀.allocs = [] → allocs = [] := fun hnil => hallocs (hs₀ hnil)
        have hmid₁ := hmid.splice hm hout hp harr hroom₁ hpool halloc hallocs'
          (hspan₁.imp id fun h1 => by omega) ((K₀ + r + n) * cfg.blockSize % 2 ^ cfg.w)
        have hwrite := (hlay.splice allocs hm hout hp harr hroom₁
          (hspan₁.imp id fun h1 => by omega)).1
        have hused₁ : s₁.indexEntriesUsed = b.queue.indexEntriesUsed := by rw [hre.rest]
        have hgrew₁ : (grew || grew') = true → r = 0 ∨
            s₀.indexEntriesSize < s₀.indexEntriesUsed + (n + 1) := by
          intro hg
          rcases Bool.or_eq_true_iff.mp hg with hg | hg
          · exact (hgrew hg).imp id fun hlt => by omega
          · have hex := (hre.grows hg).1
            rw [indexExhausted, Bool.or_eq_true, List.isEmpty_iff, beq_iff_eq] at hex
            rcases hex with hnil | hfull
            · have h0 := (h.layout.index.unindexed hnil).1
              have := h.got_le
              exact Or.inl (by omega)
            · have := h.size_le
              have := h.used
              exact Or.inr (by omega)
        have hstep : Bulk.newBlocks cfg mode s₀.indexEntriesUsed (need + 1) b
            = Bulk.newBlocks cfg mode s₀.indexEntriesUsed need
                ⟨(s₁.spliced p m allocs).entered cfg (K₀ + r + n) p,
                  (K₀ + r + n) * cfg.blockSize % 2 ^ cfg.w, b.firstAllocatedBlock.or (some p),
                  if grew' then s₀.indexEntriesUsed else b.originNextIndexEntry⟩ := by
          rw [Bulk.newBlocks]
          simp only [hcti, hacq, Option.bind_eq_bind, Option.bind_some, Bulk.noteAllocated, Bulk.enterBlock,
            hwrite, Option.map_some]
          rfl
        have hsize₁ : ((s₁.spliced p m allocs).entered cfg (K₀ + r + n) p).indexEntriesSize
            = s₁.indexEntriesSize := by
          show (s₁.spliced p m allocs).indexEntriesSize = _
          rw [spliced, spliceBlock]
          split <;> rfl
        have husedNew : ((s₁.spliced p m allocs).entered cfg (K₀ + r + n) p).indexEntriesUsed
            = b.queue.indexEntriesUsed + 1 := by
          rw [← hused₁]
          rfl
        rcases ih hmid₁ (AtBlock.succ rfl) (by
            show ((s₁.spliced p m allocs).entered cfg (K₀ + r + n) p).indexEntriesSize * _ ∣ _ ∨ _
            rw [hsize₁]
            exact hspan₁.imp id fun h1 => by omega) hgrew₁ with
          ⟨hmay, b', hlt, hbig, hle, hmono⟩ | ⟨res, b', n', grew'', blk', hloop, hmid', hnn, hblk, hcan, hacq', hbreak,
            hrefused, hthrew⟩
        · refine Or.inl ⟨hmay, b', ?_, hbig, hle, fun res b'' hrun => hmono res b'' (hstep ▸ hrun)⟩
          have : b'.queue.indexEntriesUsed < b.queue.indexEntriesUsed + 1 + need := husedNew ▸ hlt
          omega
        · refine Or.inr ⟨res, b', n', grew'', blk', hstep.trans hloop, hmid', by omega, fun k hk => ?_,
            fun hm => (hcan hm).trans (hcannot hm), fun hr => ?_, fun hr => ?_, hrefused, hthrew⟩
          · rw [hblk k (by omega), Function.update_of_ne (by omega)]
          · obtain ⟨hn', hg'⟩ := hacq' hr
            exact ⟨by omega, hg'⟩
          · have := hbreak hr
            omega

end FastQueue

end LockFreeStructures
