import LockFreeStructures.FastQueue.Run

/-!
# `FastQueue.Manager` — what calls do to the block manager

A call only ever requisitions blocks. This holds of every call in every state, whatever the call comes to,
so what a requisition preserves is preserved by all calls.
-/

namespace LockFreeStructures

namespace BlockManager

/-- `m'` came from `m` by requisitions. -/
def Requisitions (m m' : BlockManager) : Prop :=
  Relation.ReflTransGen (fun m m' => ∃ mode allocs, m' = (m.requisitionBlock mode allocs).2.2) m m'

namespace Requisitions

variable {m m' m'' : BlockManager}

theorem refl (m : BlockManager) : Requisitions m m := Relation.ReflTransGen.refl

theorem of_eq (h : m' = m) : Requisitions m m' := h ▸ refl m'

theorem trans (h : Requisitions m m') (h' : Requisitions m' m'') : Requisitions m m'' :=
  Relation.ReflTransGen.trans h h'

theorem single (mode : AllocMode) (allocs : List Bool) (m : BlockManager) :
    Requisitions m (m.requisitionBlock mode allocs).2.2 :=
  Relation.ReflTransGen.single ⟨mode, allocs, rfl⟩

theorem wf (h : Requisitions m m') (hm : m.WF) : m'.WF := by
  induction h with
  | refl => exact hm
  | tail _ hstep ih =>
      obtain ⟨mode, allocs, rfl⟩ := hstep
      rcases ih.requisitionBlock_cases mode allocs with ⟨p, allocs', m', hreq, -, hwf, -⟩ | ⟨hreq, -⟩ |
        ⟨allocs', hreq, -⟩
      · rw [hreq]
        exact hwf
      · rw [hreq]
        exact ih
      · rw [hreq]
        exact ih

theorem blockCount_le (h : Requisitions m m') : m.blockCount ≤ m'.blockCount := by
  induction h with
  | refl => exact Nat.le_refl _
  | tail _ hstep ih =>
      obtain ⟨mode, allocs, rfl⟩ := hstep
      exact le_trans ih (blockCount_le_requisitionBlock mode allocs _)

end Requisitions

/-- `m'` came from `m` by requisitions in one mode. -/
def RequisitionsIn (mode : AllocMode) (m m' : BlockManager) : Prop :=
  Relation.ReflTransGen (fun m m' => ∃ allocs, m' = (m.requisitionBlock mode allocs).2.2) m m'

namespace RequisitionsIn

variable {mode : AllocMode} {m m' m'' : BlockManager}

theorem refl (m : BlockManager) : RequisitionsIn mode m m := Relation.ReflTransGen.refl

theorem of_eq (h : m' = m) : RequisitionsIn mode m m' := h ▸ refl m'

theorem trans (h : RequisitionsIn mode m m') (h' : RequisitionsIn mode m' m'') : RequisitionsIn mode m m'' :=
  Relation.ReflTransGen.trans h h'

theorem single (mode : AllocMode) (allocs : List Bool) (m : BlockManager) :
    RequisitionsIn mode m (m.requisitionBlock mode allocs).2.2 :=
  Relation.ReflTransGen.single ⟨allocs, rfl⟩

theorem requisitions (h : RequisitionsIn mode m m') : Requisitions m m' := by
  induction h with
  | refl => exact .refl m
  | tail _ hstep ih =>
      obtain ⟨allocs, rfl⟩ := hstep
      exact ih.trans (.single mode allocs _)

/-- Every block that came from the heap is with the caller. -/
theorem allocated_add_le (h : RequisitionsIn mode m m') :
    m'.allocated + m.outstanding.length ≤ m.allocated + m'.outstanding.length := by
  induction h with
  | refl => exact Nat.le_refl _
  | @tail m₁ _ _ hstep ih =>
      obtain ⟨allocs, rfl⟩ := hstep
      have hstep := allocated_requisitionBlock mode allocs m₁
      omega

theorem poolSize_eq (h : RequisitionsIn mode m m') : m'.poolSize = m.poolSize := by
  induction h with
  | refl => rfl
  | tail _ hstep ih =>
      obtain ⟨allocs, rfl⟩ := hstep
      exact (poolSize_requisitionBlock mode allocs _).trans ih

theorem allocated_eq (h : RequisitionsIn .cannotAlloc m m') : m'.allocated = m.allocated := by
  induction h with
  | refl => rfl
  | tail _ hstep ih =>
      obtain ⟨allocs, rfl⟩ := hstep
      exact (allocated_requisitionBlock_cannotAlloc allocs _).trans ih

end RequisitionsIn

end BlockManager

namespace FastQueue

open BlockManager

variable {α : Type} {cfg : Cfg} {s s' : FastQueue α} {p i n : ℕ}

/-- The block manager and the counters of the dequeues stay. -/
structure Fixed (s s' : FastQueue α) : Prop where
  blockManager : s'.blockManager = s.blockManager
  headIndex : s'.headIndex = s.headIndex
  attempts : s'.dequeueAttemptsCount = s.dequeueAttemptsCount
  failed : s'.dequeueFailedCount = s.dequeueFailedCount

namespace Fixed

theorem refl (s : FastQueue α) : Fixed s s := ⟨rfl, rfl, rfl, rfl⟩

theorem of_eq (h : s' = s) : Fixed s s' := h ▸ refl s'

theorem trans {s'' : FastQueue α} (h : Fixed s s') (h' : Fixed s' s'') : Fixed s s'' :=
  ⟨h'.blockManager.trans h.blockManager, h'.headIndex.trans h.headIndex, h'.attempts.trans h.attempts,
    h'.failed.trans h.failed⟩

end Fixed

/-- Blocks may be requisitioned in the mode of the call, the counters of the dequeues stay. -/
structure Acquires (mode : AllocMode) (s s' : FastQueue α) : Prop where
  requisitionsIn : RequisitionsIn mode s.blockManager s'.blockManager
  headIndex : s'.headIndex = s.headIndex
  attempts : s'.dequeueAttemptsCount = s.dequeueAttemptsCount
  failed : s'.dequeueFailedCount = s.dequeueFailedCount

namespace Acquires

variable {mode : AllocMode}

theorem requisitions (h : Acquires mode s s') : Requisitions s.blockManager s'.blockManager :=
  h.requisitionsIn.requisitions

theorem of_fixed (h : Fixed s s') : Acquires mode s s' := ⟨.of_eq h.blockManager, h.headIndex, h.attempts, h.failed⟩

theorem trans {s'' : FastQueue α} (h : Acquires mode s s') (h' : Acquires mode s' s'') : Acquires mode s s'' :=
  ⟨h.requisitionsIn.trans h'.requisitionsIn, h'.headIndex.trans h.headIndex, h'.attempts.trans h.attempts,
    h'.failed.trans h.failed⟩

end Acquires

/-! ## Steps that leave the manager alone -/

theorem fixed_takeElement {a : α} (h : s.takeElement p i = some (a, s')) : Fixed s s' := by
  simp only [takeElement, Option.map_eq_some_iff, Prod.mk.injEq] at h
  obtain ⟨-, -, -, rfl⟩ := h
  exact ⟨rfl, rfl, rfl, rfl⟩

theorem fixed_takeRange {as : List α} (h : s.takeRange p i n = some (as, s')) : Fixed s s' := by
  induction n generalizing i s as with
  | zero =>
      simp only [takeRange, Option.some.injEq, Prod.mk.injEq] at h
      exact .of_eq h.2.symm
  | succ n ih =>
      simp only [takeRange, Option.bind_eq_bind, Option.bind_eq_some_iff, Option.some.injEq, Prod.mk.injEq] at h
      obtain ⟨⟨a, s₁⟩, htake, ⟨as', s₂⟩, hrest, -, rfl⟩ := h
      exact (fixed_takeElement htake).trans (ih hrest)

theorem fixed_takeBlocks {fuel start need : ℕ} {p : Option ℕ} {as : List α}
    (h : s.takeBlocks cfg fuel p start need = some (as, s')) : Fixed s s' := by
  induction fuel generalizing p start need s as with
  | zero =>
      cases need with
      | zero =>
          simp only [takeBlocks, Option.some.injEq, Prod.mk.injEq] at h
          exact .of_eq h.2.symm
      | succ need => simp [takeBlocks] at h
  | succ fuel ih =>
      cases need with
      | zero =>
          simp only [takeBlocks, Option.some.injEq, Prod.mk.injEq] at h
          exact .of_eq h.2.symm
      | succ need =>
          simp only [takeBlocks, Option.bind_eq_bind, Option.bind_eq_some_iff, Option.some.injEq,
            Prod.mk.injEq] at h
          obtain ⟨q, -, ⟨as₁, s₁⟩, htake, ⟨as₂, s₂⟩, hrest, -, rfl⟩ := h
          have hpolicy : ∀ f, Fixed s₁ (s₁.modifyPolicy q f) := fun _ => ⟨rfl, rfl, rfl, rfl⟩
          exact ((fixed_takeRange htake).trans (hpolicy _)).trans (ih hrest)

theorem fixed_destroyRange (h : s.destroyRange p i n = some s') : Fixed s s' := by
  induction n generalizing i s with
  | zero =>
      simp only [destroyRange, Option.some.injEq] at h
      exact .of_eq h.symm
  | succ n ih =>
      simp only [destroyRange, destroy, Option.bind_eq_bind, Option.bind_eq_some_iff,
        Option.map_eq_some_iff] at h
      obtain ⟨s₁, ⟨⟨a, s₂⟩, htake, rfl⟩, hrest⟩ := h
      exact (fixed_takeElement htake).trans (ih hrest)

theorem fixed_destroyBlocks {last lastInner fuel cur start : ℕ}
    (h : s.destroyBlocks cfg last lastInner fuel cur start = some s') : Fixed s s' := by
  induction fuel generalizing cur start s with
  | zero => simp [destroyBlocks] at h
  | succ fuel ih =>
      simp only [destroyBlocks, Option.bind_eq_bind, Option.bind_eq_some_iff] at h
      obtain ⟨s₁, hdestroy, h⟩ := h
      split at h
      · rw [← Option.some.inj h]
        exact fixed_destroyRange hdestroy
      · obtain ⟨q, -, hrest⟩ := Option.bind_eq_some_iff.mp h
        exact (fixed_destroyRange hdestroy).trans (ih hrest)

theorem fixed_setBlocksEmpty {fuel cur : ℕ} (h : s.setBlocksEmpty fuel cur = some s') : Fixed s s' := by
  induction fuel generalizing cur s with
  | zero => simp [setBlocksEmpty] at h
  | succ fuel ih =>
      have hpolicy : Fixed s (s.modifyPolicy cur .setAllEmpty) := ⟨rfl, rfl, rfl, rfl⟩
      simp only [setBlocksEmpty, Option.bind_eq_bind] at h
      split at h
      · rw [← Option.some.inj h]
        exact hpolicy
      · obtain ⟨q, -, hrest⟩ := Option.bind_eq_some_iff.mp h
        exact hpolicy.trans (ih hrest)

theorem fixed_fillBlock {items : List (Option α)} {j : ℕ} {r : Outcome (List (Option α))}
    (h : s.fillBlock p i n items = some (j, r, s')) : Fixed s s' := by
  induction n generalizing i s items with
  | zero =>
      simp only [fillBlock, Option.some.injEq, Prod.mk.injEq] at h
      exact .of_eq h.2.2.symm
  | succ n ih =>
      rcases items with - | ⟨item, items⟩
      · simp [fillBlock] at h
      · cases item with
        | none =>
            simp only [fillBlock, Option.some.injEq, Prod.mk.injEq] at h
            exact .of_eq h.2.2.symm
        | some a =>
            rw [fillBlock] at h
            have hconstruct : Fixed s (s.construct p i a) := ⟨rfl, rfl, rfl, rfl⟩
            exact hconstruct.trans (ih h)

theorem fixed_fillBlocks {lastInner fuel cur start cur' j : ℕ} {items : List (Option α)}
    {r : Outcome Unit} (h : s.fillBlocks cfg lastInner fuel cur start items = some (r, cur', j, s')) :
    Fixed s s' := by
  induction fuel generalizing cur start s items with
  | zero => simp [fillBlocks] at h
  | succ fuel ih =>
      simp only [fillBlocks, Option.bind_eq_bind, Option.bind_eq_some_iff] at h
      obtain ⟨⟨k, o, s₁⟩, hfill, h⟩ := h
      have hfixed := fixed_fillBlock hfill
      cases o with
      | threw =>
          simp only [Option.some.injEq, Prod.mk.injEq] at h
          rw [← h.2.2.2]
          exact hfixed
      | returned rest =>
          simp only at h
          split at h
          · simp only [Option.some.injEq, Prod.mk.injEq] at h
            rw [← h.2.2.2]
            exact hfixed
          · obtain ⟨q, -, hrest⟩ := Option.bind_eq_some_iff.mp h
            exact hfixed.trans (ih hrest)

theorem fixed_writeEntry {base : ℕ} (h : s.writeEntry base = some s') : Fixed s s' := by
  unfold writeEntry at h
  split at h
  · simp only [Option.map_eq_some_iff] at h
    obtain ⟨-, -, rfl⟩ := h
    exact ⟨rfl, rfl, rfl, rfl⟩
  · exact absurd h (by simp)

theorem fixed_storeTail {tail : ℕ} (h : s.storeTail tail = some s') : Fixed s s' := by
  unfold storeTail at h
  split at h
  · rw [← Option.some.inj h]
    exact ⟨rfl, rfl, rfl, rfl⟩
  · exact absurd h (by simp)

theorem fixed_reuseNext (h : s.reuseNext = some s') : Fixed s s' := by
  simp only [reuseNext, Option.bind_eq_bind, Option.bind_eq_some_iff, Option.some.injEq] at h
  obtain ⟨-, -, -, -, rfl⟩ := h
  exact ⟨rfl, rfl, rfl, rfl⟩

/-- Growing the index array leaves the manager alone. -/
theorem fixed_createNewBlockIndexArray {filledSlot : ℕ} {ok : Bool}
    (h : s.createNewBlockIndexArray cfg filledSlot = some (ok, s')) : Fixed s s' := by
  unfold createNewBlockIndexArray at h
  rcases hal : s.allocate with ⟨ok₁, s₁⟩
  have h₁ : Fixed s s₁ := by
    rw [← (Prod.mk.inj hal).2]
    exact ⟨rfl, rfl, rfl, rfl⟩
  rcases hal' : s₁.allocate with ⟨ok₂, s₂⟩
  have h₂ : Fixed s s₂ := by
    rw [← (Prod.mk.inj hal').2]
    exact ⟨h₁.blockManager, h₁.headIndex, h₁.attempts, h₁.failed⟩
  simp only [hal, hal'] at h
  cases ok₁ with
  | false =>
      simp only [Bool.not_false, if_true, Option.some.injEq, Prod.mk.injEq] at h
      exact h.2 ▸ h₁
  | true =>
      cases ok₂ with
      | false =>
          simp only [Bool.not_true, Bool.not_false, Bool.false_eq_true, if_false, if_true, Option.some.injEq,
            Prod.mk.injEq] at h
          exact h.2 ▸ h₂
      | true =>
          simp only [Bool.not_true, Bool.false_eq_true, if_false, Option.bind_eq_bind,
            Option.bind_eq_some_iff, Option.some.injEq, Prod.mk.injEq] at h
          obtain ⟨-, -, -, rfl⟩ := h
          exact ⟨h₂.blockManager, h₂.headIndex, h₂.attempts, h₂.failed⟩

theorem fixed_ensureIndexEntry {mode : AllocMode} {filledSlot : ℕ} {ready grew : Bool}
    (h : s.ensureIndexEntry cfg mode filledSlot = some (ready, grew, s')) : Fixed s s' := by
  unfold ensureIndexEntry at h
  split at h
  · cases mode with
    | cannotAlloc =>
        simp only [Option.some.injEq, Prod.mk.injEq] at h
        exact .of_eq h.2.2.symm
    | canAlloc =>
        simp only [Option.bind_eq_bind, Option.bind_eq_some_iff, Option.some.injEq, Prod.mk.injEq] at h
        obtain ⟨⟨ok, s₂⟩, hcreate, -, -, rfl⟩ := h
        exact fixed_createNewBlockIndexArray hcreate
  · simp only [Option.some.injEq, Prod.mk.injEq] at h
    exact .of_eq h.2.2.symm

/-! ## Calls -/

theorem acquires_acquireNewBlock {mode : AllocMode} {cti filledSlot : ℕ} {r : Acquisition} {grew : Bool}
    (h : s.acquireNewBlock cfg mode cti filledSlot = some (r, grew, s')) : Acquires mode s s' := by
  unfold acquireNewBlock at h
  split at h
  · simp only [Option.some.injEq, Prod.mk.injEq] at h
    exact .of_fixed (.of_eq h.2.2.symm)
  · simp only [Option.bind_eq_bind, Option.bind_eq_some_iff] at h
    obtain ⟨⟨ready, grew', s₁⟩, hens, h⟩ := h
    refine (Acquires.of_fixed (fixed_ensureIndexEntry hens)).trans ?_
    cases ready with
    | false =>
        simp only [Bool.not_false, if_true, Option.some.injEq, Prod.mk.injEq] at h
        exact .of_fixed (.of_eq h.2.2.symm)
    | true =>
        have hreq := RequisitionsIn.single mode s₁.allocs s₁.blockManager
        rcases hr : s₁.blockManager.requisitionBlock mode s₁.allocs with ⟨res, allocs, m⟩
        rw [hr] at hreq
        cases res with
        | null =>
            simp only [hr, Bool.not_true, Bool.false_eq_true, if_false, Option.some.injEq, Prod.mk.injEq] at h
            rw [← h.2.2]
            exact ⟨hreq, rfl, rfl, rfl⟩
        | threw =>
            simp only [hr, Bool.not_true, Bool.false_eq_true, if_false, Option.some.injEq, Prod.mk.injEq] at h
            rw [← h.2.2]
            exact ⟨hreq, rfl, rfl, rfl⟩
        | block p =>
            simp only [hr, Bool.not_true, Bool.false_eq_true, if_false, Option.some.injEq, Prod.mk.injEq] at h
            rw [← h.2.2, spliceBlock]
            split <;> exact ⟨hreq, rfl, rfl, rfl⟩

theorem acquires_enqueue {mode : AllocMode} {item : Option α} {r : Outcome Bool}
    (h : s.enqueue cfg mode item = some (r, s')) : Acquires mode s s' := by
  simp only [enqueue, Option.bind_eq_bind] at h
  split at h
  · obtain ⟨⟨res, s₁⟩, hacq, h⟩ := Option.bind_eq_some_iff.mp h
    have hreq : Acquires mode s s₁ := by
      simp only [acquireBlock, Option.bind_eq_bind, Option.bind_eq_some_iff] at hacq
      obtain ⟨yes, -, hacq⟩ := hacq
      split at hacq
      · simp only [Option.bind_eq_some_iff, Option.some.injEq, Prod.mk.injEq] at hacq
        obtain ⟨s₂, hreuse, -, rfl⟩ := hacq
        exact .of_fixed (fixed_reuseNext hreuse)
      · simp only [Option.bind_eq_some_iff, Option.some.injEq, Prod.mk.injEq] at hacq
        obtain ⟨⟨r', grew, s₂⟩, hnew, -, rfl⟩ := hacq
        exact acquires_acquireNewBlock hnew
    cases res with
    | refused =>
        simp only [Option.some.injEq, Prod.mk.injEq] at h
        exact h.2 ▸ hreq
    | threw =>
        simp only [Option.some.injEq, Prod.mk.injEq] at h
        exact h.2 ▸ hreq
    | acquired =>
        simp only [Option.bind_eq_some_iff] at h
        obtain ⟨s₂, hwrite, t, -, h⟩ := h
        have hwritten := hreq.trans (.of_fixed (fixed_writeEntry hwrite))
        cases item with
        | none =>
            simp only [Option.some.injEq, Prod.mk.injEq] at h
            rw [← h.2]
            exact ⟨hwritten.requisitionsIn, hwritten.headIndex, hwritten.attempts, hwritten.failed⟩
        | some a =>
            simp only [Option.bind_eq_some_iff, Option.some.injEq, Prod.mk.injEq] at h
            obtain ⟨s₃, hstore, -, rfl⟩ := h
            have hconstruct : Fixed s₂ (s₂.construct t (s.tailIndex % cfg.blockSize) a) := ⟨rfl, rfl, rfl, rfl⟩
            have hstored := hwritten.trans (.of_fixed (hconstruct.trans (fixed_storeTail hstore)))
            exact ⟨hstored.requisitionsIn, hstored.headIndex, hstored.attempts, hstored.failed⟩
  · obtain ⟨t, -, h⟩ := Option.bind_eq_some_iff.mp h
    cases item with
    | none =>
        simp only [Option.some.injEq, Prod.mk.injEq] at h
        exact .of_fixed (.of_eq h.2.symm)
    | some a =>
        simp only [Option.some.injEq, Prod.mk.injEq] at h
        rw [← h.2]
        exact .of_fixed ⟨rfl, rfl, rfl, rfl⟩

theorem fixed_enterBlock {b b' : Bulk α} (h : b.enterBlock = some b') : Fixed b.queue b'.queue := by
  simp only [Bulk.enterBlock, Option.map_eq_some_iff] at h
  obtain ⟨s₁, hwrite, rfl⟩ := h
  have hfixed := fixed_writeEntry hwrite
  exact ⟨hfixed.blockManager, hfixed.headIndex, hfixed.attempts, hfixed.failed⟩

theorem fixed_reuseBlocks {need need' : ℕ} {b b' : Bulk α}
    (h : Bulk.reuseBlocks cfg need b = some (need', b')) : Fixed b.queue b'.queue := by
  induction need generalizing b with
  | zero =>
      simp only [Bulk.reuseBlocks, Option.some.injEq, Prod.mk.injEq] at h
      exact .of_eq (by rw [h.2])
  | succ need ih =>
      simp only [Bulk.reuseBlocks, Option.bind_eq_bind, Option.bind_eq_some_iff] at h
      obtain ⟨yes, -, h⟩ := h
      split at h
      · simp only [Option.bind_eq_some_iff] at h
        obtain ⟨s₁, hreuse, b₁, henter, h⟩ := h
        exact (fixed_reuseNext hreuse).trans ((fixed_enterBlock henter).trans (ih h))
      · simp only [Option.some.injEq, Prod.mk.injEq] at h
        exact .of_eq (by rw [h.2])

theorem acquires_newBlocks {mode : AllocMode} {used need : ℕ} {b b' : Bulk α} {r : Acquisition}
    (h : Bulk.newBlocks cfg mode used need b = some (r, b')) : Acquires mode b.queue b'.queue := by
  induction need generalizing b with
  | zero =>
      simp only [Bulk.newBlocks, Option.some.injEq, Prod.mk.injEq] at h
      exact .of_fixed (.of_eq (by rw [h.2]))
  | succ need ih =>
      simp only [Bulk.newBlocks, Option.bind_eq_bind, Option.bind_eq_some_iff] at h
      obtain ⟨⟨res, grew, s⟩, hacq, h⟩ := h
      have hreq := acquires_acquireNewBlock hacq
      cases res with
      | refused =>
          simp only [Option.some.injEq, Prod.mk.injEq] at h
          rw [← h.2]
          exact hreq
      | threw =>
          simp only [Option.some.injEq, Prod.mk.injEq] at h
          rw [← h.2]
          exact hreq
      | acquired =>
          simp only [Option.bind_eq_some_iff] at h
          obtain ⟨b₁, henter, h⟩ := h
          exact hreq.trans ((Acquires.of_fixed (fixed_enterBlock henter)).trans (ih h))

/-- Behind the two loops a bulk enqueue requisitions nothing more. -/
theorem fixed_enqueueBulk {mode : AllocMode} {items : List (Option α)} {r : Outcome Bool}
    {need : ℕ} {b b' : Bulk α} {res : Acquisition}
    (hreuse : Bulk.reuseBlocks cfg (blockCountNeed cfg s.tailIndex items.length) (.start cfg s) = some (need, b))
    (hnew : Bulk.newBlocks cfg mode s.indexEntriesUsed need b = some (res, b'))
    (h : s.enqueueBulk cfg mode items = some (r, s')) : Fixed b'.queue s' := by
  simp only [enqueueBulk, hreuse, hnew, Option.bind_eq_bind, Option.bind_some] at h
  cases res with
  | refused =>
      simp only [Option.some.injEq, Prod.mk.injEq] at h
      rw [← h.2]
      exact ⟨rfl, rfl, rfl, rfl⟩
  | threw =>
      simp only [Option.some.injEq, Prod.mk.injEq] at h
      exact .of_eq h.2.symm
  | acquired =>
      simp only [Option.bind_eq_some_iff] at h
      obtain ⟨first, -, ⟨o, cur, i, s₁⟩, hfill, h⟩ := h
      have h₁ := fixed_fillBlocks hfill
      cases o with
      | threw =>
          simp only [Option.bind_eq_some_iff, Option.some.injEq, Prod.mk.injEq] at h
          obtain ⟨s₂, hhandle, -, rfl⟩ := h
          simp only [handleFillException, Bulk.setAllocatedEmpty, Option.bind_eq_bind,
            Option.bind_eq_some_iff] at hhandle
          obtain ⟨s₃, hset, first', -, hdestroy⟩ := hhandle
          have h₃ : Fixed s₁ s₃ := by
            split at hset
            · exact .of_eq (Option.some.inj hset).symm
            · exact fixed_setBlocksEmpty hset
          have hrolled : Fixed s₃ (Bulk.rollBack s.tailBlock { b' with queue := s₃ }) := ⟨rfl, rfl, rfl, rfl⟩
          exact ((h₁.trans h₃).trans hrolled).trans (fixed_destroyBlocks hdestroy)
      | returned u =>
          simp only [Option.bind_eq_some_iff, Option.some.injEq, Prod.mk.injEq] at h
          obtain ⟨s₂, hstore, -, rfl⟩ := h
          have h₂ : Fixed s₁ s₂ := by
            unfold Bulk.storeNewestTail at hstore
            split at hstore
            · exact fixed_storeTail hstore
            · exact .of_eq (Option.some.inj hstore).symm
          have hall := h₁.trans h₂
          exact ⟨hall.blockManager, hall.headIndex, hall.attempts, hall.failed⟩

theorem acquires_enqueueBulk {mode : AllocMode} {items : List (Option α)} {r : Outcome Bool}
    (h : s.enqueueBulk cfg mode items = some (r, s')) : Acquires mode s s' := by
  have hall := h
  simp only [enqueueBulk, Option.bind_eq_bind, Option.bind_eq_some_iff] at h
  obtain ⟨⟨need, b⟩, hreuse, ⟨res, b'⟩, hnew, -⟩ := h
  have hstart : Fixed s (Bulk.start cfg s).queue := .refl s
  exact (Acquires.of_fixed (hstart.trans (fixed_reuseBlocks hreuse))).trans
    ((acquires_newBlocks hnew).trans (.of_fixed (fixed_enqueueBulk hreuse hnew hall)))

theorem blockManager_dequeue {a : Option α} (h : s.dequeue cfg = some (a, s')) :
    s'.blockManager = s.blockManager := by
  simp only [dequeue] at h
  split at h
  · simp only [Option.bind_eq_bind, Option.bind_eq_some_iff, Option.some.injEq, Prod.mk.injEq] at h
    obtain ⟨p, -, ⟨a, s₁⟩, htake, -, rfl⟩ := h
    exact (fixed_takeElement htake).blockManager.trans rfl
  · simp only [Option.some.injEq, Prod.mk.injEq] at h
    rw [h.2]

theorem blockManager_dequeueBulk {maxCount : ℕ} {as : List α} (h : s.dequeueBulk cfg maxCount = some (as, s')) :
    s'.blockManager = s.blockManager := by
  simp only [dequeueBulk] at h
  split at h
  · simp only [Option.bind_eq_bind] at h
    split at h
    · obtain ⟨p, -, htake⟩ := Option.bind_eq_some_iff.mp h
      exact (fixed_takeBlocks htake).blockManager.trans rfl
    · obtain ⟨p, -, htake⟩ := Option.bind_eq_some_iff.mp h
      exact (fixed_takeBlocks htake).blockManager.trans rfl
  · simp only [Option.some.injEq, Prod.mk.injEq] at h
    rw [h.2]

/-- **Every call only requisitions blocks.** -/
theorem requisitions_exec {c : Call α} {r : Result α} (h : s.exec cfg c = some (r, s')) :
    Requisitions s.blockManager s'.blockManager := by
  cases c with
  | enqueue mode item allocs =>
      simp only [exec, Option.map_eq_some_iff, Prod.mk.injEq] at h
      obtain ⟨⟨o, s₁⟩, hcall, -, rfl⟩ := h
      have hreq : Requisitions (s.begin allocs).blockManager s₁.blockManager :=
        (acquires_enqueue hcall).requisitions
      exact hreq
  | enqueueBulk mode items allocs =>
      simp only [exec, Option.map_eq_some_iff, Prod.mk.injEq] at h
      obtain ⟨⟨o, s₁⟩, hcall, -, rfl⟩ := h
      have hreq : Requisitions (s.begin allocs).blockManager s₁.blockManager :=
        (acquires_enqueueBulk hcall).requisitions
      exact hreq
  | dequeue =>
      simp only [exec, Option.map_eq_some_iff, Prod.mk.injEq] at h
      obtain ⟨⟨o, s₁⟩, hcall, -, rfl⟩ := h
      have hm : s₁.blockManager = (s.begin []).blockManager := blockManager_dequeue hcall
      exact .of_eq hm
  | dequeueBulk maxCount =>
      simp only [exec, Option.map_eq_some_iff, Prod.mk.injEq] at h
      obtain ⟨⟨o, s₁⟩, hcall, -, rfl⟩ := h
      have hm : s₁.blockManager = (s.begin []).blockManager := blockManager_dequeueBulk hcall
      exact .of_eq hm

/-- So does every run. -/
theorem requisitions_run {cs : List (Call α)} {rs : List (Result α × ℕ)} (h : s.run cfg cs = some (rs, s')) :
    Requisitions s.blockManager s'.blockManager := by
  induction cs generalizing s rs with
  | nil =>
      simp only [run, Option.some.injEq, Prod.mk.injEq] at h
      exact .of_eq (by rw [h.2])
  | cons c cs ih =>
      simp only [run, Option.bind_eq_bind, Option.bind_eq_some_iff, Option.some.injEq, Prod.mk.injEq] at h
      obtain ⟨⟨r, s₁⟩, hcall, ⟨rs', s₂⟩, hrest, -, rfl⟩ := h
      exact (requisitions_exec hcall).trans (ih hrest)

end FastQueue

end LockFreeStructures
