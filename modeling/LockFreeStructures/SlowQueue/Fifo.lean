import LockFreeStructures.SlowQueue.Throws
import LockFreeStructures.Lib.Transition

/-!
# `SlowQueue.Fifo` — a queue used by one call after another is a plain list

A call keeps the invariant unless the requisition of a block throws in it when something of the queue is in use. So a
run in which that does not happen gives what it gives on the list, and the blocks out of the manager are always those
of the elements that are not dequeued.
-/

namespace LockFreeStructures

/-- How many elements a call took. -/
def Result.taken {α : Type} : Result α → ℕ
  | .enqueued _ => 0
  | .dequeued a => a.toList.length
  | .dequeuedBulk as => as.length

namespace SlowQueue

variable {α : Type} {cfg : Cfg} {s s' : SlowQueue α} {H K n : ℕ} {blk : ℕ → ℕ} {l : List α}

/-! ## A new queue -/

/-- The index array of a new queue, every entry of it unused. -/
theorem fresh_eq (cfg : Cfg) (inSize poolSize : ℕ)
    (hS : FastQueue.initialIndexSize cfg inSize * cfg.blockSize ≤ 2 ^ cfg.w ∨ cfg.blockSize = 2 ^ (cfg.w - 1)) :
    ∃ s : SlowQueue α, fresh cfg inSize poolSize [] = some s ∧ Inv cfg s 0 (fun _ => 0) [] ∧
      s.blockManager = .fresh poolSize := by
  obtain ⟨e, he, hS₂⟩ := FastQueue.initialIndexSize_eq cfg inSize
  have hpos : 0 < FastQueue.initialIndexSize cfg inSize := by
    rw [hS₂]
    exact Nat.two_pow_pos e
  let a : IndexEntryArray := ⟨FastQueue.initialIndexSize cfg inSize,
    Word.sub cfg.w 0 1 % FastQueue.initialIndexSize cfg inSize,
    fun j => if 0 ≤ j ∧ j < 0 + FastQueue.initialIndexSize cfg inSize then 0 + (j - 0) else 0⟩
  obtain ⟨s, hs, hhead, htail, hatt, hfail, harr, hman, hnext, hentries, hcount, hraw⟩ :
      ∃ s : SlowQueue α, fresh cfg inSize poolSize [] = some s ∧ s.headIndex = 0 ∧ s.tailIndex = 0 ∧
        s.dequeueAttemptsCount = 0 ∧ s.dequeueFailedCount = 0 ∧ s.currentIndexEntryArray = some a ∧
        s.blockManager = .fresh poolSize ∧ s.indexEntriesSize = 2 * FastQueue.initialIndexSize cfg inSize ∧
        (∀ e, (s.entries e).value = none) ∧ s.entryCount = 0 + FastQueue.initialIndexSize cfg inSize ∧
        ∀ q i, (s.blocks q).elements i = none := by
    refine ⟨_, rfl, rfl, rfl, rfl, rfl, rfl, rfl, rfl, fun e => ?_, rfl, fun _ _ => rfl⟩
    show (if _ then _ else _ : IndexEntry).value = none
    split <;> rfl
  have hindex : ∀ j < a.size, a.index j = j := fun j hj => by
    show (if _ then _ else _) = j
    rw [if_pos ⟨Nat.zero_le j, by rw [Nat.zero_add]; exact hj⟩, Nat.zero_add, Nat.sub_zero]
  have hlay : Layout cfg s a 0 0 0 (fun _ => 0) [] := by
    refine ⟨hman ▸ BlockManager.WF.fresh poolSize, ?_, ?_, ⟨fun k _ hk => absurd hk (Nat.not_lt_zero k),
      fun q _ i _ => hraw q i⟩, fun k _ hk => absurd hk (Nat.not_lt_zero k), fun h => absurd h (Nat.not_lt_zero _),
      Nat.zero_le _, ?_⟩
    · rw [hman, Nat.zero_div, liveBlocks_self]
      exact List.Perm.refl _
    · rw [Nat.zero_div]
      refine ⟨harr, ⟨e, hS₂⟩, hnext, hS.imp (fun hle => ?_) fun hB => ⟨hB, rfl⟩, Nat.mod_lt _ hpos, ?_,
        fun i hi j hj heq => ?_, fun i hi => ?_, Nat.zero_le _, fun k _ hk => absurd hk (Nat.not_lt_zero k),
        fun k _ _ => ?_⟩
      · show FastQueue.initialIndexSize cfg inSize * cfg.blockSize ∣ _
        rw [hS₂, Cfg.blockSize, ← Nat.pow_add] at hle ⊢
        exact Nat.pow_dvd_pow 2 ((Nat.pow_le_pow_iff_right (by decide)).mp hle)
      · -- the tail is in the last slot
        show Word.sub cfg.w 0 1 % FastQueue.initialIndexSize cfg inSize + 1 ≡ 0 + 0 [MOD FastQueue.initialIndexSize cfg inSize]
        rw [sub_mod_eq_slotBack (by rw [hS₂]; exact Nat.pow_dvd_pow 2 (by omega)) hpos hpos, slotBack,
          if_neg (by omega), Nat.zero_add, Nat.sub_add_cancel hpos]
        exact Nat.mod_self _
      · rwa [hindex i hi, hindex j hj] at heq
      · rw [hindex i hi, hcount, Nat.zero_add]
        exact hi
      · rw [hentries, values_of_ge (Nat.zero_le k)]
    · rw [Nat.zero_mul, Nat.zero_add]
      exact Nat.two_pow_pos _
  refine ⟨s, hs, ⟨⟨a, 0, ?_⟩, ?_, ?_, ?_, hfail⟩, hman⟩
  · rwa [List.length_nil, numBlocks_zero]
  · rw [hhead, Nat.zero_mod]
  · rw [htail, List.length_nil, Nat.zero_mod]
  · rw [hatt, Nat.zero_mod]

/-! ## Steps -/

/-- What is asked of a call: it is of a number of items, not of all the indices there are, and if the requisition of
    a block throws in it, then the first one, when nothing of the queue is in use. -/
def Meets (cfg : Cfg) (s : SlowQueue α) (call : Call α) : Prop :=
  call.Countable ∧ call.items.length + cfg.blockSize ≤ 2 ^ cfg.w ∧
    (RequisitionThrows cfg s call → ThrowsFirst cfg s call)

namespace Inv

/-- A queue none of whose blocks is in use. -/
theorem dead_of_first (h : Inv cfg s H blk l) {call : Call α} (hfirst : ThrowsFirst cfg s call) :
    l = [] ∧ (H + l.length) % cfg.blockSize = 0 ∧ numBlocks cfg (H + l.length) ≤ H / cfg.blockSize := by
  obtain ⟨heq, hmod, -⟩ := hfirst
  obtain rfl := h.headIndex_eq_iff.mp heq
  rw [h.tailIndex_mod] at hmod
  refine ⟨rfl, hmod, ?_⟩
  have hK := (numBlocks_of_first hmod).1
  rw [List.length_nil, Nat.add_zero] at hK ⊢
  exact ((Nat.eq_div_of_mul_eq_left cfg.blockSize_pos.ne' hK)).le

/-- **Step.** A call does what it does to the list, unless the requisition of a block throws in it when something of
    the queue is in use. -/
theorem exec (h : Inv cfg s H blk l) (call : Call α) (hcount : call.Countable)
    (hsmall : call.items.length + cfg.blockSize ≤ 2 ^ cfg.w) :
    ∃ r s', s.exec cfg call = some (r, s') ∧
      ((∃ blk' l', FifoStep l call r l' ∧ Inv cfg s' (H + r.taken) blk' l') ∨
        (r = .enqueued .threw ∧ RequisitionThrows cfg s call ∧ ¬ ThrowsFirst cfg s call)) := by
  cases call with
  | enqueue mode item allocs =>
      have h₀ := h.begin allocs
      by_cases hT : (H + l.length) % cfg.blockSize = 0
      · obtain ⟨r, s', hrun, hcases⟩ := h₀.enqueue_first hT mode item
        refine ⟨.enqueued r, s', by rw [SlowQueue.exec, hrun]; rfl, ?_⟩
        rcases hcases with ⟨x, blk', rfl, hitem, h'⟩ | ⟨hr, h', -⟩ | ⟨rfl, -, hkeyed, e, s₁, hfull, hins, hreq⟩
        · exact Or.inl ⟨blk', l ++ [x], ⟨x, hitem, rfl⟩, h'⟩
        · refine Or.inl ⟨blk, l, ?_, h'⟩
          rcases r with (_ | _) | _
          · rfl
          · exact absurd rfl hr
          · rfl
        · by_cases hfirst : ThrowsFirst cfg s (.enqueue mode item allocs)
          · -- the key that stays stands for no block in use
            left
            obtain ⟨a, c, hlay⟩ := h₀.layout
            have hrest := hkeyed.only.rest
            refine ⟨blk, l, rfl, h₀.of_layout (hlay.of_keyed hkeyed (h.dead_of_first hfirst).2.2) ?_ ?_ ?_ ?_⟩
            all_goals rw [hrest]
          · exact Or.inr ⟨rfl, ⟨h.tailIndex_mod.trans hT, e, s₁, s', hfull, hins, hreq⟩, hfirst⟩
      · obtain ⟨hthrow, hsome⟩ := h₀.enqueue_slot hT mode item
        cases item with
        | none => exact ⟨.enqueued .threw, s.begin allocs, by rw [SlowQueue.exec, hthrow rfl]; rfl, Or.inl ⟨blk, l, rfl, h₀⟩⟩
        | some x =>
            obtain ⟨s', hrun, h'⟩ := hsome x rfl
            exact ⟨.enqueued (.returned true), s', by rw [SlowQueue.exec, hrun]; rfl, Or.inl ⟨blk, l ++ [x], ⟨x, rfl, rfl⟩, h'⟩⟩
  | enqueueBulk mode items allocs =>
      have h₀ := h.begin allocs
      obtain ⟨r, s', hrun, hcases⟩ := h₀.enqueueBulk mode items (List.length_pos_iff.mpr hcount) hsmall
      refine ⟨.enqueued r, s', by rw [SlowQueue.exec, hrun]; rfl, ?_⟩
      rcases hcases with ⟨as, blk', rfl, hitems, h'⟩ | ⟨hr, ⟨blk', h'⟩, -⟩ |
        ⟨rfl, -, n, blk', b₀, hmid, hkeyed, b, hnew, rfl⟩
      · exact Or.inl ⟨blk', l ++ as, ⟨as, hitems, rfl⟩, h'⟩
      · refine Or.inl ⟨blk', l, ?_, h'⟩
        rcases r with (_ | _) | _
        · rfl
        · exact absurd rfl hr
        · rfl
      · by_cases hfirst : ThrowsFirst cfg s (.enqueueBulk mode items allocs)
        · left
          obtain ⟨-, hmod, hdead⟩ := h.dead_of_first hfirst
          obtain ⟨a, c, hlay⟩ := h₀.layout
          obtain ⟨a₀, c₀, hlay₀, -⟩ := hmid.layout
          have hbase := base_of_next cfg (H + l.length)
          rw [← h.tailIndex] at hbase
          have hman := hlay.newBlocks_threw h.headIndex hdead hfirst.2.2.1 hfirst.2.2.2 hbase hnew
          -- so the call has got no block
          have hn : n = 0 := by
            have hout := hlay₀.outstanding.length_eq
            rw [hkeyed.only.rest] at hman
            rw [show b₀.queue.blockManager = (s.begin allocs).blockManager from hman, hlay.outstanding.length_eq,
              length_liveBlocks, length_liveBlocks] at hout
            have := hlay.head_div_le
            omega
          subst hn
          have hrest := hkeyed.only.rest
          refine ⟨blk', l, rfl, ⟨hlay₀.of_keyed hkeyed hdead, ?_, ?_, ?_, ?_⟩⟩
          · rw [hrest, hmid.got.rest]
            exact h.headIndex
          · rw [hrest, hmid.got.rest]
            exact h.tailIndex
          · rw [hrest, hmid.got.rest]
            exact h.attempts
          · rw [hrest, hmid.got.rest]
            exact h.failed
        · exact Or.inr ⟨rfl, ⟨b, hnew⟩, hfirst⟩
  | dequeue =>
      obtain ⟨s', hrun, h'⟩ := (h.begin []).dequeue
      refine ⟨.dequeued l.head?, s', by rw [SlowQueue.exec, hrun]; rfl, Or.inl ⟨blk, l.tail, ⟨rfl, rfl⟩, ?_⟩⟩
      cases l with
      | nil => exact h'
      | cons x l => simpa [Result.taken] using h'
  | dequeueBulk maxCount =>
      obtain ⟨s', hrun, h'⟩ := (h.begin []).dequeueBulk maxCount
      refine ⟨.dequeuedBulk (l.take maxCount), s', by rw [SlowQueue.exec, hrun]; rfl,
        Or.inl ⟨blk, l.drop maxCount, ⟨rfl, rfl⟩, ?_⟩⟩
      rw [Result.taken, List.length_take, Nat.min_comm]
      exact h'

/-- **Run.** A run of calls that meet what is asked of them gives what it gives on the list. -/
theorem run_along (h : Inv cfg s H blk l) {calls : List (Call α)} (hcalls : Along (SlowQueue.exec cfg) (Meets cfg) calls s) :
    ∃ rs s' l' blk', s.run cfg calls = some (rs, s') ∧ FifoRun l calls rs l' ∧
      Inv cfg s' (H + (rs.map fun r => r.1.taken).sum) blk' l' := by
  induction calls generalizing s H blk l with
  | nil => exact ⟨[], s, l, blk, rfl, .nil l, h⟩
  | cons call calls ih =>
      obtain ⟨⟨hcount, hsmall, hthrows⟩, hrest⟩ := hcalls
      obtain ⟨r, s', hexec, hcases⟩ := h.exec call hcount hsmall
      rcases hcases with ⟨blk', l', hstep, h'⟩ | ⟨-, hthrew, hnot⟩
      · obtain ⟨rs, s'', l'', blk'', hrun, hfifo, h''⟩ := ih h' (hrest r s' hexec)
        refine ⟨(r, l'.length) :: rs, s'', l'', blk'', ?_, .cons hstep hfifo, ?_⟩
        · simp only [SlowQueue.run, hexec, hrun, h'.size_eq, Option.bind_eq_bind, Option.bind_some]
        · rw [List.map_cons, List.sum_cons, ← Nat.add_assoc]
          exact h''
      · exact absurd (hthrows hthrew) hnot

/-- So does a run in which nothing throws. -/
theorem run (h : Inv cfg s H blk l) {calls : List (Call α)} (hcount : ∀ call ∈ calls, call.Countable)
    (hthrow : ∀ call ∈ calls, call.NoThrow) (hsmall : ∀ call ∈ calls, call.items.length + cfg.blockSize ≤ 2 ^ cfg.w) :
    ∃ rs s' l' blk', s.run cfg calls = some (rs, s') ∧ FifoRun l calls rs l' ∧
      Inv cfg s' (H + (rs.map fun r => r.1.taken).sum) blk' l' :=
  h.run_along <| .of_forall (fun call hmem _ => ⟨hcount call hmem, hsmall call hmem, fun hthrows =>
    absurd (hthrow call hmem).2 hthrows.allocs_ne⟩) s

end Inv

/-! ## Refinement -/

/-- The blocks out of the manager, each once, are those whose index range `[ k * BlockSize, ( k + 1 ) * BlockSize )`
    was begun and has a slot that is not dequeued, when `H` elements were dequeued and the list `l` is left; the
    elements of the list are in their slots. -/
def Balanced (cfg : Cfg) (s : SlowQueue α) (H : ℕ) (l : List α) : Prop :=
  ∃ blk : ℕ → ℕ, s.blockManager.outstanding.Nodup ∧
    (∀ p, p ∈ s.blockManager.outstanding ↔
      ∃ k, k * cfg.blockSize < H + l.length ∧ H < (k + 1) * cfg.blockSize ∧ blk k = p) ∧
    ∀ i, (hi : i < l.length) → (s.blocks (blk ((H + i) / cfg.blockSize))).elements ((H + i) % cfg.blockSize) = some l[i]

theorem Inv.balanced (h : Inv cfg s H blk l) : Balanced cfg s H l := by
  obtain ⟨a, c, hlay⟩ := h.layout
  refine ⟨blk, (List.nodup_append.mp hlay.manager.nodup).1, fun p => ?_, fun i hi => ?_⟩
  · rw [h.mem_outstanding_iff]
    refine exists_congr fun k => ?_
    rw [← and_assoc, ← and_assoc, and_comm (a := H / cfg.blockSize ≤ k)]
    refine and_congr_left' (and_congr ?_ ?_)
    · -- the block was begun
      refine ⟨fun hk => ?_, fun hk => ?_⟩
      · have hlt := numBlocks_lt (Nat.ne_zero_of_lt hk)
        exact Nat.lt_of_le_of_lt (Nat.mul_le_mul_right _ (Nat.le_sub_one_of_lt hk)) hlt
      · exact Nat.lt_of_mul_lt_mul_right (Nat.lt_of_lt_of_le hk (le_numBlocks cfg _))
    · rw [← Nat.lt_succ_iff, Nat.div_lt_iff_lt_mul cfg.blockSize_pos]
  · have hlt : (H + i) / cfg.blockSize < numBlocks cfg (H + l.length) := cfg.block_lt (by have := hlay.fits; omega)
    rw [hlay.elements.live _ (Nat.div_le_div_right (Nat.le_add_right _ _)) hlt _ (cfg.slot_lt _), cfg.pos_eq, contents,
      if_pos (Nat.le_add_right _ _), Nat.add_sub_cancel_left, List.getElem?_eq_getElem hi]

/-- **A `SlowQueue` refines a plain list and keeps its blocks balanced**: every run of calls in which nothing throws
    gives what it gives on the list, and afterwards the blocks out of the manager are those of the elements that
    are not dequeued, provided the slots of the initial index array cover no more elements than there are
    indices. -/
theorem fifo_and_balanced (cfg : Cfg) (inSize poolSize : ℕ)
    (hindex : FastQueue.initialIndexSize cfg inSize * cfg.blockSize ≤ 2 ^ cfg.w ∨ cfg.blockSize = 2 ^ (cfg.w - 1))
    (calls : List (Call α)) (hcount : ∀ call ∈ calls, call.Countable) (hthrow : ∀ call ∈ calls, call.NoThrow)
    (hsmall : ∀ call ∈ calls, call.items.length + cfg.blockSize ≤ 2 ^ cfg.w) :
    ∃ s rs s' l, fresh cfg inSize poolSize [] = some s ∧ s.run cfg calls = some (rs, s') ∧
      FifoRun [] calls rs l ∧ Balanced cfg s' (rs.map fun r => r.1.taken).sum l := by
  obtain ⟨s, hs, h, -⟩ := fresh_eq (α := α) cfg inSize poolSize hindex
  obtain ⟨rs, s', l, blk, hrun, hfifo, h'⟩ := h.run hcount hthrow hsmall
  rw [Nat.zero_add] at h'
  exact ⟨s, rs, s', l, hs, hrun, hfifo, h'.balanced⟩

/-- A run with a bulk enqueue over two blocks and a failed one, in words of 16 bits. -/
theorem fifo_and_balanced_bulk : ∃ s rs s' l,
    fresh ⟨2, 1, by decide, by decide⟩ 4 2 [] = some s ∧
      s.run ⟨2, 1, by decide, by decide⟩ [.enqueueBulk .cannotAlloc [some 1, some 2, some 3] [],
        .enqueueBulk .cannotAlloc [some 4, some 5, some 6] [], .dequeue, .dequeueBulk 7] = some (rs, s') ∧
      FifoRun ([] : List ℕ) [.enqueueBulk .cannotAlloc [some 1, some 2, some 3] [],
        .enqueueBulk .cannotAlloc [some 4, some 5, some 6] [], .dequeue, .dequeueBulk 7] rs l ∧
      Balanced ⟨2, 1, by decide, by decide⟩ s' (rs.map fun r => r.1.taken).sum l :=
  fifo_and_balanced ⟨2, 1, by decide, by decide⟩ 4 2 (Or.inl (by decide)) _ (by simp [Call.Countable])
    (by simp [Call.NoThrow, Call.items, Call.allocs]) (by simp [Call.items]; decide)

/-- With an index array whose slots cover more elements than there are indices, the block of an older
    element is no longer found: in words of 32 bits, 64 slots a block and an index array of `2 ^ 27` entries,
    the first element is lost as soon as a second block is in use. -/
theorem not_fifo_and_balanced : ¬ ∀ (cfg : Cfg) (inSize poolSize : ℕ) (calls : List (Call Unit)),
    (∀ call ∈ calls, call.Countable) → (∀ call ∈ calls, call.NoThrow) →
    (calls.map fun call => call.items.length).sum < 2 ^ (cfg.w - 1) →
    ∃ s rs s' l, fresh cfg inSize poolSize [] = some s ∧ s.run cfg calls = some (rs, s') ∧
      FifoRun [] calls rs l ∧ Balanced cfg s' (rs.map fun r => r.1.taken).sum l := by
  intro h
  have hnone : ((fresh ⟨4, 6, by decide, by decide⟩ (2 ^ 28) 0 []).bind fun s =>
      s.run ⟨4, 6, by decide, by decide⟩
        [.enqueueBulk .canAlloc (List.replicate 65 (some ())) [], .dequeue]).isNone = true := by decide +kernel
  obtain ⟨s, rs, s', l, hs, hrun, -⟩ := h ⟨4, 6, by decide, by decide⟩ (2 ^ 28) 0
    [.enqueueBulk .canAlloc (List.replicate 65 (some ())) [], .dequeue] (by simp [Call.Countable])
    (by simp [Call.NoThrow, Call.items, Call.allocs]) (by decide)
  rw [hs, Option.bind_some, hrun] at hnone
  exact absurd hnone nofun

end SlowQueue

end LockFreeStructures
