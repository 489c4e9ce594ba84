import LockFreeStructures.FastQueue.EnqueueBulk

/-!
# `FastQueue.Fifo` — a queue used by one call after another is a plain list

As long as no constructor and no allocation throws, the blocks that come from the heap are paid for by the elements
that need them: `Steady` keeps that account, so the queue never comes to have blocks for all the indices there are.
A bulk enqueue that may allocate is then never refused, and where one that may not is refused, the position saved for
`RollBack` is right. `Steady.exec` is the step, `Steady.run` the run.
-/

namespace LockFreeStructures

/-- How many elements a call enqueued. -/
def Call.enqueued {α : Type} (call : Call α) : Result α → ℕ
  | .enqueued (.returned true) => call.items.length
  | _ => 0

namespace FastQueue

variable {α : Type} {cfg : Cfg} {s s' : FastQueue α} {blk : ℕ → ℕ} {H : ℕ} {front : List ℕ} {l : List α}

/-! ## A new queue -/

/-- The index array of a new queue. -/
theorem fresh_eq (cfg : Cfg) (inSize poolSize : ℕ) :
    ∃ s : FastQueue α, fresh cfg inSize poolSize [] = some s ∧ Inv cfg s 0 (fun _ => 0) [] [] ∧
      s.indexEntriesUsed = 0 ∧ s.indexEntriesSize = 2 * initialIndexSize cfg inSize ∧
      s.blockManager = .fresh poolSize := by
  obtain ⟨e, he, hS⟩ := initialIndexSize_eq cfg inSize
  obtain ⟨s, hs, hhead, htail, hatt, hfail, htb, ⟨a, harr, ha⟩, hman, hnext, hused, hsize, hraw⟩ :
      ∃ s : FastQueue α, fresh cfg inSize poolSize [] = some s ∧ s.headIndex = 0 ∧ s.tailIndex = 0 ∧
        s.dequeueAttemptsCount = 0 ∧ s.dequeueFailedCount = 0 ∧ s.tailBlock = none ∧
        (∃ a, s.currentIndexEntryArray = [a] ∧ a.size = 2 * initialIndexSize cfg inSize) ∧
        s.blockManager = .fresh poolSize ∧ s.nextIndexEntry = 0 ∧ s.indexEntriesUsed = 0 ∧
        s.indexEntriesSize = 2 * initialIndexSize cfg inSize ∧ ∀ q i, (s.blocks q).elements i = none :=
    ⟨_, rfl, rfl, rfl, rfl, rfl, rfl, ⟨_, rfl, rfl⟩, rfl, rfl, rfl, rfl, fun _ _ => rfl⟩
  have hring : RingLayout s (fun _ => 0) 0 0 [] :=
    ⟨hman ▸ BlockManager.WF.fresh poolSize, by rw [hused, hman]; rfl, .nil, htb, fun q hq => absurd hq (by simp)⟩
  have hindex : IndexLayout cfg s (fun _ => 0) 0 0 := by
    refine ⟨⟨e + 1, he.le, ?_⟩, Or.inr (Nat.zero_le _), ?_, ?_, ?_, fun h => ?_, Nat.zero_le _,
      fun h => absurd h (Nat.lt_irrefl _), fun _ _ k _ hk => absurd hk (Nat.not_lt_zero k)⟩
    · rw [hsize, hS, Nat.pow_succ']
    · intro b hb
      rw [harr, List.head?_cons, Option.mem_some_iff] at hb
      rw [← hb, ha, hsize]
    · rw [hnext, hsize, hS]
      exact Nat.mul_pos Nat.two_pos (Nat.two_pow_pos e)
    · rw [hused]
      exact Nat.zero_le _
    · rw [harr] at h
      exact absurd h (List.cons_ne_nil _ _)
  have hlay : Layout cfg s 0 0 (fun _ => 0) [] [] := by
    refine ⟨?_, ?_, ⟨?_⟩, ⟨?_, fun q _ i _ => hraw q i⟩, Nat.zero_le _⟩
    · rwa [Nat.zero_div]
    · rwa [Nat.zero_div]
    · exact fun k _ hk => absurd hk (Nat.not_lt_zero k)
    · exact fun k _ hk => absurd hk (Nat.not_lt_zero k)
  refine ⟨s, hs, ⟨?_, ?_, ?_, ?_, hfail, fun h => absurd h (Nat.lt_irrefl _)⟩, hused, hsize, hman⟩
  · rwa [List.length_nil, numBlocks_zero]
  · rw [hhead, Nat.zero_mod]
  · rw [htail, List.length_nil, Nat.zero_mod]
  · rw [hatt, Nat.zero_mod]

/-! ## The account of blocks and items -/

/-- The queue holds the list `l` after `H` elements were dequeued. The blocks it has are those of the pool and as many
    as its elements have needed. -/
structure Steady (cfg : Cfg) (s : FastQueue α) (H : ℕ) (blk : ℕ → ℕ) (front : List ℕ) (l : List α) : Prop where
  inv : Inv cfg s H blk front l
  span : s.indexEntriesSize * cfg.blockSize ∣ 2 ^ cfg.w
  pool : s.blockManager.poolSize * cfg.blockSize ≤ 2 ^ (cfg.w - 1)
  paid : s.blockManager.allocated ≤ numBlocks cfg (H + l.length)

/-- A bulk enqueue is of a number of items that fits after `n` elements: one that may allocate of fewer than are left of
    half the indices, one that may not allocate not of all the indices there are. -/
def InHalf (cfg : Cfg) (_ : FastQueue α) (n : ℕ) : Call α → Prop
  | .enqueueBulk .canAlloc items _ => n + items.length < 2 ^ (cfg.w - 1)
  | .enqueueBulk .cannotAlloc items _ => items.length + cfg.blockSize ≤ 2 ^ cfg.w
  | _ => True

/-- As long as nothing is dequeued, a bulk enqueue that may allocate leaves a block of that half free. -/
def BlockFree (cfg : Cfg) (s : FastQueue α) (n : ℕ) : Call α → Prop
  | .enqueueBulk .canAlloc items _ => s.headIndex = 0 → n + items.length + cfg.blockSize ≤ 2 ^ (cfg.w - 1)
  | _ => True

/-- A run in which never as many elements as half the indices are enqueued, from the state after `n` elements on, and
    all of whose calls are `ok`. -/
def Bounded (cfg : Cfg) (ok : FastQueue α → ℕ → Call α → Prop) : ℕ → List (Call α) → FastQueue α → Prop
  | n, [], _ => n < 2 ^ (cfg.w - 1)
  | n, call :: calls, s => n < 2 ^ (cfg.w - 1) ∧ ok s n call ∧
      match s.exec cfg call with
      | none => True
      | some (r, s') => Bounded cfg ok (n + call.enqueued r) calls s'

instance (cfg : Cfg) (s : FastQueue α) (n : ℕ) (call : Call α) : Decidable (InHalf cfg s n call) :=
  match call with
  | .enqueueBulk .canAlloc items _ => inferInstanceAs (Decidable (n + items.length < 2 ^ (cfg.w - 1)))
  | .enqueueBulk .cannotAlloc items _ => inferInstanceAs (Decidable (items.length + cfg.blockSize ≤ 2 ^ cfg.w))
  | .enqueue _ _ _ | .dequeue | .dequeueBulk _ => isTrue trivial

instance (cfg : Cfg) (s : FastQueue α) (n : ℕ) (call : Call α) : Decidable (BlockFree cfg s n call) :=
  match call with
  | .enqueueBulk .canAlloc items _ =>
      inferInstanceAs (Decidable (s.headIndex = 0 → n + items.length + cfg.blockSize ≤ 2 ^ (cfg.w - 1)))
  | .enqueueBulk .cannotAlloc _ _ | .enqueue _ _ _ | .dequeue | .dequeueBulk _ => isTrue trivial

def decideBounded (cfg : Cfg) (ok : FastQueue α → ℕ → Call α → Prop) [∀ s n call, Decidable (ok s n call)] :
    ∀ (n : ℕ) (calls : List (Call α)) (s : FastQueue α), Decidable (Bounded cfg ok n calls s)
  | n, [], _ => inferInstanceAs (Decidable (n < 2 ^ (cfg.w - 1)))
  | n, call :: calls, s =>
      have : Decidable (match s.exec cfg call with
          | none => True
          | some (r, s') => Bounded cfg ok (n + call.enqueued r) calls s') :=
        match s.exec cfg call with
        | none => isTrue trivial
        | some (r, s') => decideBounded cfg ok (n + call.enqueued r) calls s'
      inferInstanceAs (Decidable (_ ∧ _ ∧ _))

instance (cfg : Cfg) (ok : FastQueue α → ℕ → Call α → Prop) [∀ s n call, Decidable (ok s n call)] (n : ℕ)
    (calls : List (Call α)) : DecidablePred (Bounded cfg ok n calls) :=
  decideBounded cfg ok n calls

variable {ok : FastQueue α → ℕ → Call α → Prop}

theorem Bounded.lt {n : ℕ} {calls : List (Call α)} (h : Bounded cfg ok n calls s) : n < 2 ^ (cfg.w - 1) := by
  cases calls with
  | nil => exact h
  | cons call calls => exact h.1

/-- Half the indices are those of whole blocks. -/
theorem numBlocks_mul_le_half {T : ℕ} (hT : T ≤ 2 ^ (cfg.w - 1)) : numBlocks cfg T * cfg.blockSize ≤ 2 ^ (cfg.w - 1) := by
  obtain ⟨j, hj⟩ := cfg.blockSize_dvd_half
  rw [Nat.mul_comm] at hj
  have hle : numBlocks cfg T ≤ numBlocks cfg (j * cfg.blockSize) := numBlocks_mono (hj ▸ hT)
  rw [numBlocks_mul] at hle
  rw [hj]
  exact Nat.mul_le_mul_right _ hle

namespace Steady

theorem fresh (cfg : Cfg) (inSize poolSize : ℕ) (hindex : 2 * initialIndexSize cfg inSize * cfg.blockSize ≤ 2 ^ cfg.w)
    (hpool : poolSize * cfg.blockSize ≤ 2 ^ (cfg.w - 1)) :
    ∃ s : FastQueue α, FastQueue.fresh cfg inSize poolSize [] = some s ∧ Steady cfg s 0 (fun _ => 0) [] [] := by
  obtain ⟨s, hs, hinv, -, hsize, hman⟩ := fresh_eq (α := α) cfg inSize poolSize
  refine ⟨s, hs, hinv, ?_, by rw [hman]; exact hpool, by rw [hman]; exact Nat.zero_le _⟩
  obtain ⟨e, -, he⟩ := initialIndexSize_eq cfg inSize
  rw [he, Cfg.blockSize, ← Nat.pow_succ', ← Nat.pow_add] at hindex
  rw [hsize, he, Cfg.blockSize, ← Nat.pow_succ', ← Nat.pow_add]
  exact Nat.pow_dvd_pow 2 ((Nat.pow_le_pow_iff_right (by decide)).mp hindex)

theorem used_le (h : Steady cfg s H blk front l) :
    s.indexEntriesUsed ≤ s.blockManager.poolSize + numBlocks cfg (H + l.length) := by
  have hring := h.inv.layout.ring
  rw [hring.used]
  exact le_trans hring.manager.length_outstanding_le (Nat.add_le_add_left h.paid _)

/-- The blocks got from the heap are paid for by the elements that needed them. -/
theorem paid_of (h : Steady cfg s H blk front l) {mode : AllocMode} {H' : ℕ} {blk' : ℕ → ℕ} {front' : List ℕ}
    {l' : List α} (hacq : Acquires mode s s') (hinv : Inv cfg s' H' blk' front' l')
    (hused : s'.indexEntriesUsed + numBlocks cfg (H + l.length)
      ≤ s.indexEntriesUsed + numBlocks cfg (H' + l'.length)) :
    s'.blockManager.allocated ≤ numBlocks cfg (H' + l'.length) := by
  have hreq := hacq.requisitionsIn.allocated_add_le
  rw [← h.inv.layout.ring.used, ← hinv.layout.ring.used] at hreq
  have := h.paid
  omega

theorem begin (h : Steady cfg s H blk front l) (allocs : List Bool) : Steady cfg (s.begin allocs) H blk front l :=
  ⟨h.inv.begin allocs, h.span, h.pool, h.paid⟩

/-! ### Dequeues -/

theorem dequeue (h : Steady cfg s H blk front l) (hT : H + l.length < 2 ^ (cfg.w - 1)) :
    ∃ s' H' front', s.dequeue cfg = some (l.head?, s') ∧ H' + l.tail.length = H + l.length ∧
      Steady cfg s' H' blk front' l.tail := by
  cases l with
  | nil => exact ⟨s, H, front, h.inv.dequeue_nil, rfl, h⟩
  | cons a l =>
      obtain ⟨s', hrun, hinv, hslots⟩ := h.inv.dequeue_cons (by omega)
      have hlen : H + 1 + l.length = H + (a :: l).length := by rw [List.length_cons]; omega
      refine ⟨s', H + 1, _, hrun, hlen, hinv, ?_, ?_, ?_⟩
      · rw [hslots.rest]
        exact h.span
      · rw [hslots.rest]
        exact h.pool
      · rw [List.tail_cons, hlen, hslots.rest]
        exact h.paid

theorem dequeueBulk (h : Steady cfg s H blk front l) (hT : H + l.length < 2 ^ (cfg.w - 1)) (maxCount : ℕ) :
    ∃ s' H' front', s.dequeueBulk cfg maxCount = some (l.take maxCount, s') ∧
      H' + (l.drop maxCount).length = H + l.length ∧ Steady cfg s' H' blk front' (l.drop maxCount) := by
  obtain ⟨s', hrun, hinv, hslots, -⟩ := h.inv.dequeueBulk (by omega) maxCount
  have hlen : H + min l.length maxCount + (l.drop maxCount).length = H + l.length := by
    rw [List.length_drop]
    omega
  refine ⟨s', _, _, hrun, hlen, hinv, ?_, ?_, ?_⟩
  · rw [hslots.rest]
    exact h.span
  · rw [hslots.rest]
    exact h.pool
  · rw [hlen, hslots.rest]
    exact h.paid

/-! ### Enqueues -/

theorem enqueue (h : Steady cfg s H blk front l) (hT : H + l.length < 2 ^ (cfg.w - 1)) (hal : s.allocs = [])
    (mode : AllocMode) (a : α) :
    ∃ b s' blk' front', s.enqueue cfg mode (some a) = some (.returned b, s') ∧
      Steady cfg s' H blk' front' (if b then l ++ [a] else l) := by
  have hroom : (H + l.length) % cfg.blockSize = 0 → mode = .canAlloc →
      s.indexEntriesUsed * cfg.blockSize < 2 ^ cfg.w := by
    intro hfirst _
    have hmul := Nat.mul_le_mul_right cfg.blockSize h.used_le
    rw [Nat.add_mul, (numBlocks_of_first hfirst).1] at hmul
    have hpool := h.pool
    have hhalf := cfg.half_add_half
    omega
  obtain ⟨r, s', blk', front', hrun, hcases⟩ := h.inv.enqueue mode hroom (Or.inl h.span) (some a)
  have hacq := acquires_enqueue hrun
  have hpool : s'.blockManager.poolSize * cfg.blockSize ≤ 2 ^ (cfg.w - 1) := by
    rw [hacq.requisitionsIn.poolSize_eq]
    exact h.pool
  rcases hcases with ⟨rfl, hinv, hext⟩ | ⟨-, hthrow, -⟩ | ⟨a', ha', rfl, hinv, hext⟩
  · exact ⟨false, s', blk', front', hrun, hinv, hext.span h.span, hpool, h.paid_of hacq hinv hext.used⟩
  · exact absurd hal (hthrow.resolve_left (Option.some_ne_none a))
  · obtain rfl := Option.some.inj ha'
    have hlen : H + (l ++ [a]).length = H + l.length + 1 := by
      rw [List.length_append, List.length_singleton, Nat.add_assoc]
    refine ⟨true, s', blk', front', hrun, hinv, hext.span h.span, hpool, h.paid_of hacq hinv ?_⟩
    rw [if_pos rfl, hlen]
    exact hext.used

/-- A bulk enqueue that may allocate does not find the index range full. -/
theorem not_isFull {K m : ℕ} (hhead : s.headIndex = H % 2 ^ cfg.w) (hHK : H ≤ K * cfg.blockSize)
    (hK : K < numBlocks cfg m) (hm : m < 2 ^ (cfg.w - 1))
    (hfirst : s.headIndex = 0 → m + cfg.blockSize ≤ 2 ^ (cfg.w - 1)) :
    s.isFull cfg (K * cfg.blockSize % 2 ^ cfg.w) = false := by
  have hend := cfg.block_end_le hK
  have hle := numBlocks_mul_le_half hm.le
  have hmul := numBlocks_mul_lt cfg m
  have hhalf := cfg.half_add_half
  have hlt : H < K * cfg.blockSize + cfg.blockSize := lt_add_of_le_of_pos hHK cfg.blockSize_pos
  have hdist : K * cfg.blockSize + cfg.blockSize - H < 2 ^ (cfg.w - 1) := by
    rcases Nat.eq_zero_or_pos H with rfl | hH
    · have := hfirst (by rw [hhead, Nat.zero_mod])
      omega
    · omega
  have hless := (circularLessThan_mod_of_lt cfg.w_pos hlt.le hdist).mpr hlt
  rw [isFull, hhead, Word.add_mod_left, hless]
  rfl

theorem enqueueBulk (h : Steady cfg s H blk front l) (hT : H + l.length < 2 ^ (cfg.w - 1)) (hal : s.allocs = [])
    {as : List α} (hpos : 0 < as.length) {mode : AllocMode} {allocs : List Bool}
    (hhalf : InHalf cfg s (H + l.length) (.enqueueBulk mode (as.map some) allocs))
    (hfree : BlockFree cfg s (H + l.length) (.enqueueBulk mode (as.map some) allocs)) :
    ∃ b s' blk' front', s.enqueueBulk cfg mode (as.map some) = some (.returned b, s') ∧
      Steady cfg s' H blk' front' (if b then l ++ as else l) := by
  have hsum := cfg.half_add_half
  have hlen : (as.map some).length = as.length := List.length_map _
  have hsmall : (as.map some).length + cfg.blockSize ≤ 2 ^ cfg.w := by
    cases mode with
    | canAlloc =>
        have := Nat.le_of_dvd (Nat.two_pow_pos _) cfg.blockSize_dvd_half
        have : H + l.length + (as.map some).length < 2 ^ (cfg.w - 1) := hhalf
        omega
    | cannotAlloc => exact hhalf
  rcases h.inv.enqueueBulk mode (as.map some) (by omega) hsmall h.span with
    ⟨rfl, u, hu, hbig, -⟩ | ⟨b, n, grew, blk', got, front', hgot, hcan, hcases⟩
  · -- the pool and the elements do not make for so many blocks
    have hm : H + l.length + (as.map some).length < 2 ^ (cfg.w - 1) := hhalf
    rw [hlen] at hu hm
    have hle : numBlocks cfg _ * cfg.blockSize ≤ _ := numBlocks_mul_le_half hm.le
    have hused := h.used_le
    have hpool := h.pool
    have hmul := Nat.mul_le_mul_right cfg.blockSize
      (show u + 1 ≤ s.blockManager.poolSize + numBlocks cfg (H + l.length + as.length) by omega)
    rw [Nat.succ_mul, Nat.add_mul] at hmul
    have := cfg.blockSize_pos
    omega
  · have hmid := hgot.mid
    rw [hlen] at hcases
    rcases hcases with ⟨hrun, hless, hwhy⟩ | ⟨-, hne⟩ | ⟨htot, -, hcases⟩
    · -- only a call that may not allocate is refused
      have hacq := acquires_enqueueBulk hrun
      obtain rfl : mode = .cannotAlloc := by
        cases mode with
        | cannotAlloc => rfl
        | canAlloc =>
            have hm : H + l.length + (as.map some).length < 2 ^ (cfg.w - 1) := hhalf
            have hfirst : s.headIndex = 0 → H + l.length + (as.map some).length + cfg.blockSize ≤ 2 ^ (cfg.w - 1) := hfree
            rw [hlen] at hm hfirst
            rcases hwhy with hfull | hcannot | hne
            · rw [not_isFull (hmid.same.headIndex.trans h.inv.headIndex) ?_ (hless.resolve_right (by omega)) hm
                fun hzero => hfirst (hmid.same.headIndex ▸ hzero)] at hfull
              · exact absurd hfull Bool.false_ne_true
              · refine le_trans (le_trans (Nat.le_add_right _ _) hmid.fits₀) (Nat.mul_le_mul_right _ ?_)
                omega
            · exact hcannot
            · exact absurd hal hne
      obtain ⟨front'', hinv, -, -⟩ := h.inv.rollBack hmid (Or.inl (hcan rfl))
      refine ⟨false, _, blk', front'', hrun, hinv, hmid.span h.span, ?_, ?_⟩
      · rw [hacq.requisitionsIn.poolSize_eq]
        exact h.pool
      · rw [hacq.requisitionsIn.allocated_eq]
        exact h.paid
    · exact absurd hal hne
    · rcases hcases with ⟨as', s', hitems, hrun, hinv, hused, -, hsize⟩ | ⟨as', rest, s', hitems, -, -⟩
      · obtain rfl : as' = as := (List.map_injective_iff.mpr (Option.some_injective α) hitems).symm
        have hacq := acquires_enqueueBulk hrun
        have hT' : H + (l ++ as').length = H + l.length + as'.length := by
          rw [List.length_append, Nat.add_assoc]
        refine ⟨true, s', blk', front', hrun, hinv, ?_, ?_, h.paid_of hacq hinv ?_⟩
        · rw [hsize]
          exact hmid.span h.span
        · rw [hacq.requisitionsIn.poolSize_eq]
          exact h.pool
        · rw [if_pos rfl, hT']
          omega
      · have : none ∈ as.map some := by
          rw [hitems]
          exact List.mem_append_right _ List.mem_cons_self
        simp at this

/-! ### Steps and runs -/

/-- **Step.** A call in which nothing throws does what it does to the list. -/
theorem exec (h : Steady cfg s H blk front l) (call : Call α) (hcount : call.Countable) (hthrow : call.NoThrow)
    (hT : H + l.length < 2 ^ (cfg.w - 1)) (hhalf : InHalf cfg s (H + l.length) call)
    (hfree : BlockFree cfg s (H + l.length) call) :
    ∃ r s' l' H' blk' front', s.exec cfg call = some (r, s') ∧ FifoStep l call r l' ∧
      H' + l'.length = H + l.length + call.enqueued r ∧ Steady cfg s' H' blk' front' l' := by
  cases call with
  | enqueue mode item allocs =>
      obtain ⟨hitem, hal⟩ := hthrow
      cases item with
      | none => exact absurd rfl (hitem none List.mem_cons_self)
      | some a =>
          obtain ⟨b, s', blk', front', hrun, h'⟩ := (h.begin allocs).enqueue hT hal mode a
          refine ⟨.enqueued (.returned b), s', _, H, blk', front', by rw [FastQueue.exec, hrun]; rfl, ?_, ?_, h'⟩
          · cases b with
            | false => rfl
            | true => exact ⟨a, rfl, rfl⟩
          · cases b with
            | false => rfl
            | true => exact congrArg (H + ·) List.length_append
  | enqueueBulk mode items allocs =>
      obtain ⟨hitem, hal⟩ := hthrow
      obtain ⟨as, rest, hitems, hrest⟩ := exists_items items
      cases rest with
      | cons o rest =>
          obtain rfl : o = none := hrest o rfl
          refine absurd rfl (hitem none ?_)
          show none ∈ items
          rw [hitems]
          exact List.mem_append_right _ List.mem_cons_self
      | nil =>
          obtain rfl : items = as.map some := by rw [hitems, List.append_nil]
          have hpos : 0 < as.length := by
            rw [List.length_pos_iff]
            rintro rfl
            exact hcount rfl
          obtain ⟨b, s', blk', front', hrun, h'⟩ := (h.begin allocs).enqueueBulk hT hal hpos hhalf hfree
          refine ⟨.enqueued (.returned b), s', _, H, blk', front', by rw [FastQueue.exec, hrun]; rfl, ?_, ?_, h'⟩
          · cases b with
            | false => rfl
            | true => exact ⟨as, rfl, rfl⟩
          · cases b with
            | false => rfl
            | true =>
                simp only [if_true, Call.enqueued, Call.items, List.length_append, List.length_map]
                omega
  | dequeue =>
      obtain ⟨s', H', front', hrun, hlen, h'⟩ := (h.begin []).dequeue hT
      exact ⟨.dequeued l.head?, s', l.tail, H', blk, front', by rw [FastQueue.exec, hrun]; rfl, ⟨rfl, rfl⟩, hlen, h'⟩
  | dequeueBulk maxCount =>
      obtain ⟨s', H', front', hrun, hlen, h'⟩ := (h.begin []).dequeueBulk hT maxCount
      exact ⟨.dequeuedBulk (l.take maxCount), s', l.drop maxCount, H', blk, front',
        by rw [FastQueue.exec, hrun]; rfl, ⟨rfl, rfl⟩, hlen, h'⟩

/-- **Run.** So does a run of such calls. -/
theorem run (h : Steady cfg s H blk front l) {calls : List (Call α)} (hcount : ∀ call ∈ calls, call.Countable)
    (hthrow : ∀ call ∈ calls, call.NoThrow) 
    (hcalls : Bounded cfg (fun s n call => InHalf cfg s n call ∧ BlockFree cfg s n call) (H + l.length) calls s) :
    ∃ rs s' l', s.run cfg calls = some (rs, s') ∧ FifoRun l calls rs l' := by
  induction calls generalizing s H blk front l with
  | nil => exact ⟨[], s, l, rfl, .nil l⟩
  | cons call calls ih =>
      obtain ⟨hT, ⟨hhalf, hfree⟩, hrest⟩ := hcalls
      obtain ⟨r, s', l', H', blk', front', hexec, hstep, hlen, h'⟩ := h.exec call
        (hcount call List.mem_cons_self) (hthrow call List.mem_cons_self) hT hhalf hfree
      have hcalls' : Bounded cfg (fun s n call => InHalf cfg s n call ∧ BlockFree cfg s n call)
          (H + l.length + call.enqueued r) calls s' := by
        rwa [hexec] at hrest
      rw [← hlen] at hcalls'
      have hsize : s'.size cfg = l'.length := by
        apply h'.inv.size_eq
        have := hcalls'.lt
        omega
      obtain ⟨rs, s'', l'', hrun, hfifo⟩ := ih h' (fun c hc => hcount c (List.mem_cons_of_mem _ hc))
        (fun c hc => hthrow c (List.mem_cons_of_mem _ hc)) hcalls'
      refine ⟨(r, l'.length) :: rs, s'', l'', ?_, .cons hstep hfifo⟩
      simp only [FastQueue.run, hexec, hrun, hsize, Option.bind_eq_bind, Option.bind_some]

end Steady

/-! ## Blocks of half the index range -/

/-- Nothing was ever enqueued. -/
structure Unused (s : FastQueue α) : Prop where
  headIndex : s.headIndex = 0
  tailIndex : s.tailIndex = 0
  attempts : s.dequeueAttemptsCount = 0
  failed : s.dequeueFailedCount = 0
  tailBlock : s.tailBlock = none

namespace Unused

theorem size_eq (h : Unused s) : s.size cfg = 0 := by
  rw [size, h.headIndex, h.tailIndex, Word.sub]
  split <;> simp

/-- A block has half the indices, so the first one would fill the index range. -/
theorem acquireNewBlock_eq (h : Unused s) (hB : cfg.blockSize = 2 ^ (cfg.w - 1)) (mode : AllocMode) (filledSlot : ℕ) :
    s.acquireNewBlock cfg mode 0 filledSlot = some (.refused, false, s) := by
  have hfull : s.isFull cfg 0 = true := by
    have hhalf := cfg.half_add_half
    have hpos := Nat.two_pow_pos (cfg.w - 1)
    rw [isFull, h.headIndex, hB, Word.add, Nat.zero_add, Nat.mod_eq_of_lt (by omega), circularLessThan,
      Word.sub_of_lt hpos (by omega), Bool.not_eq_true', decide_eq_false_iff_not]
    omega
  rw [acquireNewBlock, if_pos hfull]

theorem nextIsEmpty_eq (h : Unused s) : s.nextIsEmpty cfg = some false := by
  unfold nextIsEmpty
  rw [h.tailBlock]

/-- **Step.** Every element is refused. -/
theorem exec (h : Unused s) (hB : cfg.blockSize = 2 ^ (cfg.w - 1)) (call : Call α) (hcount : call.Countable)
    (hword : call.items.length < 2 ^ cfg.w) :
    ∃ r s', s.exec cfg call = some (r, s') ∧ FifoStep [] call r [] ∧ Unused s' := by
  have h₀ : ∀ allocs, Unused (s.begin allocs) := fun _ => ⟨h.headIndex, h.tailIndex, h.attempts, h.failed, h.tailBlock⟩
  have hsub : Word.sub cfg.w 0 0 = 0 := by
    rw [Word.sub]
    simp
  have hless : circularLessThan cfg.w 0 0 = false := by
    rw [circularLessThan, decide_eq_false_iff_not, hsub]
    exact Nat.not_lt_zero _
  cases call with
  | enqueue mode item allocs =>
      have hacq : (s.begin allocs).acquireBlock cfg mode = some (.refused, s.begin allocs) := by
        simp only [acquireBlock, (h₀ allocs).nextIsEmpty_eq, (h₀ allocs).tailIndex,
          (h₀ allocs).acquireNewBlock_eq hB, Option.bind_eq_bind, Option.bind_some, Bool.false_eq_true, if_false]
      refine ⟨.enqueued (.returned false), s.begin allocs, ?_, rfl, h₀ allocs⟩
      simp only [FastQueue.exec, FastQueue.enqueue, (h₀ allocs).tailIndex, Nat.zero_mod, if_true, hacq,
        Option.bind_eq_bind, Option.bind_some, Option.map_some]
  | enqueueBulk mode items allocs =>
      have hneed : ∃ need, blockCountNeed cfg 0 items.length = need + 1 := by
        have hpos : 0 < items.length := List.length_pos_iff.mpr hcount
        rw [blockCountNeed_zero hpos hword]
        have hbounds := (numBlocks_bounds cfg 0 hpos).1
        rw [Nat.zero_add] at hbounds
        exact ⟨_, (Nat.succ_pred (Nat.ne_zero_of_lt hbounds)).symm⟩
      obtain ⟨need, hneed⟩ := hneed
      have hcti : Word.add cfg.w (Word.alignDown cfg.blockSizeLog2 (Word.sub cfg.w 0 1)) cfg.blockSize = 0 := by
        have hbase := base_of_next cfg 0
        rwa [Nat.zero_mod, numBlocks_zero, Nat.zero_mul, Nat.zero_mod] at hbase
      have hstart : Bulk.start cfg (s.begin allocs) = ⟨s.begin allocs,
          Word.alignDown cfg.blockSizeLog2 (Word.sub cfg.w 0 1), none, (s.begin allocs).nextIndexEntry⟩ := by
        rw [Bulk.start, (h₀ allocs).tailIndex]
      refine ⟨.enqueued (.returned false), Bulk.rollBack (s.begin allocs).tailBlock
        ⟨s.begin allocs, 0, none, (s.begin allocs).nextIndexEntry⟩, ?_, rfl, ?_⟩
      · simp only [FastQueue.exec, FastQueue.enqueueBulk, (h₀ allocs).tailIndex, hneed, hstart, Bulk.reuseBlocks,
          (h₀ allocs).nextIsEmpty_eq, Bulk.newBlocks, hcti, (h₀ allocs).acquireNewBlock_eq hB, Option.bind_eq_bind,
          Option.bind_some, Bool.false_eq_true, if_false, Option.map_some]
      · exact ⟨h.headIndex, h.tailIndex, h.attempts, h.failed, (h₀ allocs).tailBlock⟩
  | dequeue =>
      refine ⟨.dequeued none, s.begin [], ?_, ⟨rfl, rfl⟩, h₀ []⟩
      simp only [FastQueue.exec, FastQueue.dequeue, (h₀ []).attempts, (h₀ []).failed, (h₀ []).tailIndex,
        hsub, hless, Bool.false_eq_true, if_false, Option.map_some]
  | dequeueBulk maxCount =>
      refine ⟨.dequeuedBulk [], s.begin [], ?_, ⟨List.take_nil.symm, List.drop_nil.symm⟩, h₀ []⟩
      simp only [FastQueue.exec, FastQueue.dequeueBulk, (h₀ []).attempts, (h₀ []).failed, (h₀ []).tailIndex,
        hsub, hless, Bool.false_eq_true, if_false, Option.map_some]

/-- **Run.** -/
theorem run (h : Unused s) (hB : cfg.blockSize = 2 ^ (cfg.w - 1)) {calls : List (Call α)}
    (hcount : ∀ call ∈ calls, call.Countable) (hword : ∀ call ∈ calls, call.items.length < 2 ^ cfg.w) :
    ∃ rs s', s.run cfg calls = some (rs, s') ∧ FifoRun [] calls rs [] := by
  induction calls generalizing s with
  | nil => exact ⟨[], s, rfl, .nil []⟩
  | cons call calls ih =>
      obtain ⟨r, s', hexec, hstep, h'⟩ := h.exec hB call (hcount call List.mem_cons_self) (hword call List.mem_cons_self)
      obtain ⟨rs, s'', hrun, hfifo⟩ := ih h' (fun c hc => hcount c (List.mem_cons_of_mem _ hc))
        (fun c hc => hword c (List.mem_cons_of_mem _ hc))
      refine ⟨(r, 0) :: rs, s'', ?_, .cons hstep hfifo⟩
      simp only [FastQueue.run, hexec, hrun, h'.size_eq, Option.bind_eq_bind, Option.bind_some]

end Unused

/-! ## Refinement -/

/-- The refinement of a plain list by the runs, in which nothing throws and fewer elements than half the indices are
    enqueued, of queues that are `fits` with calls that are `ok`. -/
def Refines (α : Type) (fits : Cfg → ℕ → ℕ → Prop) (ok : Cfg → FastQueue α → ℕ → Call α → Prop) : Prop :=
  ∀ (cfg : Cfg) (inSize poolSize : ℕ) (calls : List (Call α)), (∀ call ∈ calls, call.Countable) →
    (∀ call ∈ calls, call.NoThrow) → (∀ call ∈ calls, call.items.length < 2 ^ cfg.w) → fits cfg inSize poolSize →
    (∀ s ∈ fresh cfg inSize poolSize [], Bounded cfg (ok cfg) 0 calls s) →
    ∃ s rs s' l, fresh cfg inSize poolSize [] = some s ∧ s.run cfg calls = some (rs, s') ∧ FifoRun [] calls rs l

/-- **A `FastQueue` refines a plain list**: every run of calls in which nothing throws gives what it gives on
    the list, `Size()` after each call being the list's length, provided neither the slots of the initial index array
    nor the blocks of the pool and of half the index range come to more elements than there are indices. -/
theorem run_refines_fifo (cfg : Cfg) (inSize poolSize : ℕ) (calls : List (Call α))
    (hcount : ∀ call ∈ calls, call.Countable) (hthrow : ∀ call ∈ calls, call.NoThrow)
    (hword : ∀ call ∈ calls, call.items.length < 2 ^ cfg.w)
    (hfits : cfg.blockSize = 2 ^ (cfg.w - 1) ∨
      2 * initialIndexSize cfg inSize * cfg.blockSize ≤ 2 ^ cfg.w ∧ poolSize * cfg.blockSize ≤ 2 ^ (cfg.w - 1) ∧
        ∀ s ∈ fresh cfg inSize poolSize [],
          Bounded cfg (fun s n call => InHalf cfg s n call ∧ BlockFree cfg s n call) 0 calls s) :
    ∃ s rs s' l, fresh cfg inSize poolSize [] = some s ∧ s.run cfg calls = some (rs, s') ∧
      FifoRun [] calls rs l := by
  rcases hfits with hB | ⟨hindex, hpool, hbounded⟩
  · obtain ⟨s, hs, hinv, -⟩ := fresh_eq (α := α) cfg inSize poolSize
    have htail := hinv.layout.ring.tail
    rw [List.length_nil, Nat.zero_add, Nat.zero_div, numBlocks_zero, liveBlocks_self] at htail
    have hunused : Unused s := by
      refine ⟨hinv.headIndex.trans (Nat.zero_mod _), hinv.tailIndex.trans (Nat.zero_mod _), ?_, hinv.failed, htail⟩
      exact hinv.attempts.trans (Nat.zero_mod _)
    obtain ⟨rs, s', hrun, hfifo⟩ := hunused.run hB hcount hword
    exact ⟨s, rs, s', [], hs, hrun, hfifo⟩
  · obtain ⟨s, hs, h⟩ := Steady.fresh (α := α) cfg inSize poolSize hindex hpool
    obtain ⟨rs, s', l, hrun, hfifo⟩ := h.run hcount hthrow (hbounded s hs)
    exact ⟨s, rs, s', l, hs, hrun, hfifo⟩

/-- A run in words of 8 bits with forty bulk enqueues that are refused, a growth of the index array in the middle of a
    bulk, and blocks used again. -/
def refusals : List (Call ℕ) :=
  .enqueueBulk .cannotAlloc [some 1, some 2, some 3, some 4] [] ::
    List.replicate 40 (.enqueueBulk .cannotAlloc [some 5, some 6, some 7, some 8] []) ++
    [.enqueue .cannotAlloc (some 5) [], .dequeueBulk 3, .enqueueBulk .canAlloc ((List.range 12).map some) [], .dequeue,
      .dequeueBulk 20, .enqueue .canAlloc (some 6) [], .dequeue]

theorem run_refines_fifo_refusals : ∃ s rs s' l, fresh ⟨1, 1, by decide, by decide⟩ 4 3 [] = some s ∧
    s.run ⟨1, 1, by decide, by decide⟩ refusals = some (rs, s') ∧ FifoRun [] refusals rs l :=
  run_refines_fifo ⟨1, 1, by decide, by decide⟩ 4 3 refusals (by decide +kernel) (by decide +kernel)
    (by decide +kernel) (Or.inr ⟨by decide, by decide, by decide +kernel⟩)

/-- The runs in which each of the bounds is missed, in words of 8 bits with two slots a block: a bulk enqueue finds the
    index range full when it has reused blocks and grown the index array; two find it full when nothing was dequeued;
    refused ones take up a pool of a hundred blocks. -/
def overfull : List (Call Unit) :=
  [.enqueueBulk .canAlloc (List.replicate 6 (some ())) [], .dequeueBulk 5,
    .enqueueBulk .canAlloc (List.replicate 140 (some ())) [], .enqueue .canAlloc (some ()) [],
    .enqueue .canAlloc (some ()) [], .enqueue .canAlloc (some ()) [], .dequeueBulk 10]

def overfullFirst : List (Call Unit) :=
  List.replicate 2 (.enqueueBulk .canAlloc (List.replicate 127 (some ())) []) ++
    [.enqueueBulk .canAlloc (List.replicate 10 (some ())) [], .dequeueBulk 3]

def poolTaken : List (Call Unit) :=
  .enqueueBulk .cannotAlloc (List.replicate 100 (some ())) [] ::
    (List.range 10).flatMap (fun _ => [.enqueue .canAlloc (some ()) [],
      .enqueueBulk .cannotAlloc (List.replicate 110 (some ())) []]) ++
    List.replicate 90 (.enqueue .canAlloc (some ()) []) ++ [.dequeueBulk 127]

/-- Each of the bounds is needed. With an index array whose slots cover more elements than there are indices, the
    block of an older element is no longer found: in words of 32 bits, 64 slots a block and an index array of `2 ^ 27`
    entries, the first element is lost as soon as a second block is in use. The other bounds are missed in `overfull`,
    `overfullFirst` and `poolTaken`. -/
theorem not_run_refines_fifo :
    (¬ Refines Unit (fun _ _ _ => True) fun _ _ _ _ => True) ∧
      (¬ Refines Unit (fun cfg _ poolSize => poolSize * cfg.blockSize ≤ 2 ^ (cfg.w - 1))
        fun cfg s n call => InHalf cfg s n call ∧ BlockFree cfg s n call) ∧
      (¬ Refines Unit (fun cfg inSize poolSize => 2 * initialIndexSize cfg inSize * cfg.blockSize ≤ 2 ^ cfg.w ∧
        poolSize * cfg.blockSize ≤ 2 ^ (cfg.w - 1)) BlockFree) ∧
      (¬ Refines Unit (fun cfg inSize poolSize => 2 * initialIndexSize cfg inSize * cfg.blockSize ≤ 2 ^ cfg.w ∧
        poolSize * cfg.blockSize ≤ 2 ^ (cfg.w - 1)) InHalf) ∧
      ¬ Refines Unit (fun cfg inSize _ => 2 * initialIndexSize cfg inSize * cfg.blockSize ≤ 2 ^ cfg.w)
        fun cfg s n call => InHalf cfg s n call ∧ BlockFree cfg s n call := by
  -- none of the runs gets to its end
  have hstuck : ∀ {cfg : Cfg} {inSize poolSize : ℕ} {calls : List (Call Unit)},
      ((fresh cfg inSize poolSize []).bind fun s => s.run cfg calls).isNone = true →
      ¬ ∃ s rs s' l, fresh cfg inSize poolSize [] = some s ∧ s.run cfg calls = some (rs, s') ∧ FifoRun [] calls rs l := by
    rintro cfg inSize poolSize calls hnone ⟨s, rs, s', l, hs, hrun, -⟩
    rw [hs, Option.bind_some, hrun] at hnone
    exact Bool.false_ne_true hnone
  have hindex : ((fresh ⟨4, 6, by decide, by decide⟩ (2 ^ 27) 0 []).bind fun s =>
      s.run ⟨4, 6, by decide, by decide⟩
        [.enqueueBulk .canAlloc (List.replicate 65 (some ())) [], .dequeue]).isNone = true := by decide +kernel
  refine ⟨fun h => hstuck hindex ?_, fun h => hstuck hindex ?_, fun h => ?_, fun h => ?_, fun h => ?_⟩
  · exact h _ _ _ _ (by decide +kernel) (by decide +kernel) (by decide +kernel) trivial (by decide +kernel)
  · exact h _ _ _ _ (by decide +kernel) (by decide +kernel) (by decide +kernel) (by decide) (by decide +kernel)
  · exact hstuck (show ((fresh ⟨1, 1, by decide, by decide⟩ 4 0 []).bind fun s =>
      s.run ⟨1, 1, by decide, by decide⟩ overfull).isNone = true by decide +kernel) (h _ _ _ _ (by decide +kernel)
        (by decide +kernel) (by decide +kernel) (by decide) (by decide +kernel))
  · exact hstuck (show ((fresh ⟨1, 1, by decide, by decide⟩ 4 0 []).bind fun s =>
      s.run ⟨1, 1, by decide, by decide⟩ overfullFirst).isNone = true by decide +kernel) (h _ _ _ _ (by decide +kernel)
        (by decide +kernel) (by decide +kernel) (by decide) (by decide +kernel))
  · exact hstuck (show ((fresh ⟨1, 1, by decide, by decide⟩ 4 100 []).bind fun s =>
      s.run ⟨1, 1, by decide, by decide⟩ poolTaken).isNone = true by decide +kernel) (h _ _ _ _ (by decide +kernel)
        (by decide +kernel) (by decide +kernel) (by decide) (by decide +kernel))

end FastQueue

end LockFreeStructures
