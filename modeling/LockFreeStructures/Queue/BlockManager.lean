import LockFreeStructures.Queue.Block

/-!
# `Queue.BlockManager` — the block manager as one caller at a time sees it

`HakleBlockManager` serves a requisition from its pool, then from its free list, and then, if the caller
lets it allocate, from the heap. The blocks of the pool are the pointers below `poolSize`, those
allocated later the ones from there on.
-/

namespace LockFreeStructures

inductive AllocMode where
  | canAlloc
  | cannotAlloc
  deriving DecidableEq, Repr

/-- The outcomes of the allocations a call makes, in order; those not listed succeed. -/
def allocate : List Bool → Bool × List Bool
  | [] => (true, [])
  | ok :: allocs => (ok, allocs)

/-- What `RequisitionBlock` gives back: a block, a null pointer, or the exception of the allocator. -/
inductive Requisition where
  | block (p : ℕ)
  | null
  | threw
  deriving DecidableEq, Repr

/-- What came of a queue's trying to get a new block. -/
inductive Acquisition where
  | acquired
  | refused
  | threw
  deriving DecidableEq, Repr

structure BlockManager where
  /-- the size of the pool -/
  poolSize : ℕ
  /-- the pool's `Index`: its blocks handed out so far -/
  poolIndex : ℕ
  /-- the free list, its head first -/
  freeList : List ℕ
  /-- how many blocks came from the heap -/
  allocated : ℕ
  /-- the blocks requisitioned and not yet returned, the latest first -/
  outstanding : List ℕ

namespace BlockManager

/-- A new manager with a pool of `poolSize` blocks. -/
def fresh (poolSize : ℕ) : BlockManager := ⟨poolSize, 0, [], 0, []⟩

/-- The blocks there are: the pool's and the allocated ones. -/
def blockCount (m : BlockManager) : ℕ := m.poolSize + m.allocated

/-- `BlockPool::GetBlock` -/
def getBlock (m : BlockManager) : Option ℕ × BlockManager :=
  if m.poolIndex < m.poolSize then (some m.poolIndex, { m with poolIndex := m.poolIndex + 1 })
  else (none, m)

/-- `FreeList::TryGet` -/
def tryGet (m : BlockManager) : Option ℕ × BlockManager :=
  match m.freeList with
  | [] => (none, m)
  | p :: rest => (some p, { m with freeList := rest })

/-- The block `p` is with the caller from now on. -/
def handOut (p : ℕ) (m : BlockManager) : BlockManager := { m with outstanding := p :: m.outstanding }

/-- `HakleBlockManager::RequisitionBlock` -/
def requisitionBlock (mode : AllocMode) (allocs : List Bool) (m : BlockManager) :
    Requisition × List Bool × BlockManager :=
  match m.getBlock with
  | (some p, m) => (.block p, allocs, m.handOut p)
  | (none, m) =>
      match m.tryGet with
      | (some p, m) => (.block p, allocs, m.handOut p)
      | (none, m) =>
          match mode with
          | .cannotAlloc => (.null, allocs, m)
          | .canAlloc =>
              match allocate allocs with
              | (false, allocs) => (.threw, allocs, m)
              | (true, allocs) =>
                  (.block m.blockCount, allocs,
                    { m with allocated := m.allocated + 1 }.handOut m.blockCount)

/-- `HakleBlockManager::ReturnBlock` -/
def returnBlock (p : ℕ) (m : BlockManager) : BlockManager :=
  { m with freeList := p :: m.freeList, outstanding := m.outstanding.erase p }

/-! ## No block is in two places -/

/-- A block that has left the pool or was allocated. -/
def Issued (m : BlockManager) (p : ℕ) : Prop :=
  p < m.poolIndex ∨ m.poolSize ≤ p ∧ p < m.blockCount

/-- Every issued block is either with the caller or in the free list, once. -/
structure WF (m : BlockManager) : Prop where
  poolIndex_le : m.poolIndex ≤ m.poolSize
  nodup : (m.outstanding ++ m.freeList).Nodup
  issued : ∀ p ∈ m.outstanding ++ m.freeList, m.Issued p

theorem WF.fresh (poolSize : ℕ) : (fresh poolSize).WF :=
  ⟨Nat.zero_le _, List.nodup_nil, fun p hp => by simp [BlockManager.fresh] at hp⟩

/-- A block that comes out of the pool, of the free list or of the heap is new to the caller. -/
theorem WF.handOut {m m' : BlockManager} {p : ℕ} (h : m.WF) (hout : m'.outstanding = m.outstanding)
    (hfree : p ∉ m'.freeList) (hsub : List.Sublist m'.freeList m.freeList) (hp : p ∉ m.outstanding)
    (hle : m'.poolIndex ≤ m'.poolSize) (hiss : m'.Issued p) (hmono : ∀ q, m.Issued q → m'.Issued q) :
    (m'.handOut p).WF := by
  have hsub' : List.Sublist (m.outstanding ++ m'.freeList) (m.outstanding ++ m.freeList) :=
    hsub.append_left _
  refine ⟨hle, ?_, ?_⟩
  · show (p :: m'.outstanding ++ m'.freeList).Nodup
    rw [hout, List.cons_append, List.nodup_cons]
    exact ⟨by simp [hp, hfree], h.nodup.sublist hsub'⟩
  · intro q hq
    show m'.Issued q
    replace hq : q ∈ p :: (m.outstanding ++ m'.freeList) := by
      rw [← hout]
      exact hq
    rcases List.mem_cons.mp hq with rfl | hq
    · exact hiss
    · exact hmono q (h.issued q (hsub'.subset hq))

/-- **What a requisition can do.** A block given was with nobody, and is with the caller from then on;
    otherwise the manager stays as it was, and only a caller that may not allocate gets a null
    pointer. -/
theorem WF.requisitionBlock_cases {m : BlockManager} (h : m.WF) (mode : AllocMode) (allocs : List Bool) :
    (∃ p allocs' m', m.requisitionBlock mode allocs = (.block p, allocs', m') ∧ p ∉ m.outstanding ∧
      m'.WF ∧ m'.outstanding = p :: m.outstanding ∧ m'.poolSize = m.poolSize ∧
      m.allocated ≤ m'.allocated ∧ (allocs = [] → allocs' = [])) ∨
    (m.requisitionBlock mode allocs = (.null, allocs, m) ∧ mode = .cannotAlloc) ∨
    (∃ allocs', m.requisitionBlock mode allocs = (.threw, allocs', m) ∧ allocs ≠ []) := by
  rcases Nat.lt_or_ge m.poolIndex m.poolSize with hpool | hpool
  · -- the pool still has a block
    left
    have hget : m.getBlock = (some m.poolIndex, { m with poolIndex := m.poolIndex + 1 }) := if_pos hpool
    have hnew : ∀ p ∈ m.outstanding ++ m.freeList, p ≠ m.poolIndex := by
      rintro p hp rfl
      rcases h.issued _ hp with hlt | hge
      · exact Nat.lt_irrefl _ hlt
      · omega
    refine ⟨m.poolIndex, allocs, { m with poolIndex := m.poolIndex + 1 }.handOut m.poolIndex,
      by simp only [requisitionBlock, hget], ?_, ?_, rfl, rfl, le_rfl, id⟩
    · intro hp
      exact hnew _ (List.mem_append_left _ hp) rfl
    · refine h.handOut rfl (fun hp => hnew _ (List.mem_append_right _ hp) rfl) (List.Sublist.refl _)
        (fun hp => hnew _ (List.mem_append_left _ hp) rfl) hpool (Or.inl (Nat.lt_succ_self _)) ?_
      rintro q (hq | hq)
      · exact Or.inl (Nat.lt_succ_of_lt hq)
      · exact Or.inr hq
  · have hget : m.getBlock = (none, m) := if_neg (Nat.not_lt.mpr hpool)
    cases hfree : m.freeList with
    | cons p rest =>
        -- the free list gives its head
        left
        have htry : m.tryGet = (some p, { m with freeList := rest }) := by simp only [tryGet, hfree]
        have hnd := h.nodup
        rw [hfree, List.nodup_append] at hnd
        refine ⟨p, allocs, { m with freeList := rest }.handOut p,
          by simp only [requisitionBlock, hget, htry], ?_, ?_, rfl, rfl, le_rfl, id⟩
        · intro hp
          exact hnd.2.2 p hp p List.mem_cons_self rfl
        · refine h.handOut rfl (List.nodup_cons.mp hnd.2.1).1 ?_ ?_ h.poolIndex_le ?_ (fun q hq => hq)
          · show List.Sublist rest m.freeList
            rw [hfree]
            exact List.sublist_cons_self _ _
          · intro hp
            exact hnd.2.2 p hp p List.mem_cons_self rfl
          · exact h.issued p (List.mem_append_right _ (hfree ▸ List.mem_cons_self))
    | nil =>
        have htry : m.tryGet = (none, m) := by simp only [tryGet, hfree]
        cases mode with
        | cannotAlloc => exact Or.inr (Or.inl ⟨by simp only [requisitionBlock, hget, htry], rfl⟩)
        | canAlloc =>
            rcases hal : allocate allocs with ⟨ok, allocs'⟩
            cases ok with
            | false =>
                refine Or.inr (Or.inr ⟨allocs', by simp only [requisitionBlock, hget, htry, hal], ?_⟩)
                rintro rfl
                simp [allocate] at hal
            | true =>
                left
                have hnew : ∀ q ∈ m.outstanding ++ m.freeList, q < m.blockCount := by
                  intro q hq
                  have := h.poolIndex_le
                  rcases h.issued q hq with hlt | hge
                  · exact Nat.lt_of_lt_of_le hlt (by unfold blockCount; omega)
                  · exact hge.2
                refine ⟨m.blockCount, allocs', { m with allocated := m.allocated + 1 }.handOut m.blockCount,
                  by simp only [requisitionBlock, hget, htry, hal], ?_, ?_, rfl, rfl, Nat.le_succ _, ?_⟩
                · intro hp
                  exact Nat.lt_irrefl _ (hnew _ (List.mem_append_left _ hp))
                · refine h.handOut rfl (fun hp => ?_) (List.Sublist.refl _) (fun hp => ?_) h.poolIndex_le
                    (Or.inr ⟨Nat.le_add_right _ _, Nat.lt_succ_self _⟩) ?_
                  · exact Nat.lt_irrefl _ (hnew _ (List.mem_append_right _ hp))
                  · exact Nat.lt_irrefl _ (hnew _ (List.mem_append_left _ hp))
                  · rintro q (hq | hq)
                    · exact Or.inl hq
                    · exact Or.inr ⟨hq.1, Nat.lt_succ_of_lt hq.2⟩
                · rintro rfl
                  simp only [allocate, Prod.mk.injEq] at hal
                  exact hal.2.symm

/-- A null pointer is what a caller gets who may not allocate when pool and free list are empty. -/
theorem requisitionBlock_eq_null_iff (mode : AllocMode) (allocs : List Bool) (m : BlockManager) :
    (m.requisitionBlock mode allocs).1 = .null ↔
      mode = .cannotAlloc ∧ m.poolSize ≤ m.poolIndex ∧ m.freeList = [] := by
  by_cases hpool : m.poolIndex < m.poolSize
  · have hget : m.getBlock = (some m.poolIndex, { m with poolIndex := m.poolIndex + 1 }) := if_pos hpool
    simp [requisitionBlock, hget, hpool]
  · have hget : m.getBlock = (none, m) := if_neg hpool
    cases hfree : m.freeList with
    | cons p rest =>
        have htry : m.tryGet = (some p, { m with freeList := rest }) := by simp only [tryGet, hfree]
        simp [requisitionBlock, hget, htry]
    | nil =>
        have htry : m.tryGet = (none, m) := by simp only [tryGet, hfree]
        cases mode with
        | cannotAlloc => simp [requisitionBlock, hget, htry, Nat.le_of_not_lt hpool]
        | canAlloc =>
            rcases hal : allocate allocs with ⟨ok, allocs'⟩
            cases ok <;> simp [requisitionBlock, hget, htry, hal]

/-- Blocks are never given back to the heap. -/
theorem blockCount_le_requisitionBlock (mode : AllocMode) (allocs : List Bool) (m : BlockManager) :
    m.blockCount ≤ (m.requisitionBlock mode allocs).2.2.blockCount := by
  unfold requisitionBlock getBlock tryGet
  by_cases hpool : m.poolIndex < m.poolSize
  · simp only [if_pos hpool]
    exact Nat.le_refl _
  · simp only [if_neg hpool]
    cases m.freeList with
    | cons p rest => exact Nat.le_refl _
    | nil =>
        cases mode with
        | cannotAlloc => exact Nat.le_refl _
        | canAlloc =>
            rcases allocate allocs with ⟨ok, allocs'⟩
            cases ok with
            | false => exact Nat.le_refl _
            | true => exact Nat.le_succ _

/-- A block that comes from the heap goes to the caller. -/
theorem allocated_requisitionBlock (mode : AllocMode) (allocs : List Bool) (m : BlockManager) :
    (m.requisitionBlock mode allocs).2.2.allocated + m.outstanding.length
      ≤ m.allocated + (m.requisitionBlock mode allocs).2.2.outstanding.length := by
  unfold requisitionBlock getBlock tryGet
  by_cases hpool : m.poolIndex < m.poolSize
  · simp only [if_pos hpool, handOut, List.length_cons]
    omega
  · simp only [if_neg hpool]
    cases m.freeList with
    | cons p rest =>
        simp only [handOut, List.length_cons]
        omega
    | nil =>
        cases mode with
        | cannotAlloc => exact Nat.le_refl _
        | canAlloc =>
            rcases allocate allocs with ⟨ok, allocs'⟩
            cases ok with
            | false => exact Nat.le_refl _
            | true =>
                simp only [handOut, List.length_cons]
                omega

/-- A caller that may not allocate gets nothing from the heap. -/
theorem allocated_requisitionBlock_cannotAlloc (allocs : List Bool) (m : BlockManager) :
    (m.requisitionBlock .cannotAlloc allocs).2.2.allocated = m.allocated := by
  unfold requisitionBlock getBlock tryGet
  by_cases hpool : m.poolIndex < m.poolSize
  · simp only [if_pos hpool]
    rfl
  · simp only [if_neg hpool]
    cases m.freeList with
    | cons p rest => rfl
    | nil => rfl

theorem poolSize_requisitionBlock (mode : AllocMode) (allocs : List Bool) (m : BlockManager) :
    (m.requisitionBlock mode allocs).2.2.poolSize = m.poolSize := by
  unfold requisitionBlock getBlock tryGet
  by_cases hpool : m.poolIndex < m.poolSize
  · simp only [if_pos hpool]
    rfl
  · simp only [if_neg hpool]
    cases m.freeList with
    | cons p rest => rfl
    | nil =>
        cases mode with
        | cannotAlloc => rfl
        | canAlloc =>
            rcases allocate allocs with ⟨ok, allocs'⟩
            cases ok <;> rfl

/-- Blocks are distinct, so no more are out than there are. -/
theorem WF.length_outstanding_le {m : BlockManager} (h : m.WF) : m.outstanding.length ≤ m.blockCount := by
  have hnd : m.outstanding.Nodup := (List.nodup_append.mp h.nodup).1
  have hsub : m.outstanding ⊆ List.range m.blockCount := by
    intro p hp
    rw [List.mem_range]
    have hle := h.poolIndex_le
    rcases h.issued p (List.mem_append_left _ hp) with hlt | hge
    · exact Nat.lt_of_lt_of_le hlt (by unfold blockCount; omega)
    · exact hge.2
  simpa using (hnd.subperm hsub).length_le

/-- Without a failing allocation no requisition throws. -/
theorem requisitionBlock_of_nil (mode : AllocMode) (m : BlockManager) :
    (m.requisitionBlock mode []).1 ≠ .threw ∧ (m.requisitionBlock mode []).2.1 = [] := by
  unfold requisitionBlock
  rcases m.getBlock with ⟨_ | p, m₁⟩
  · dsimp only
    rcases m₁.tryGet with ⟨_ | p, m₂⟩
    · cases mode with
      | cannotAlloc => exact ⟨Requisition.noConfusion, rfl⟩
      | canAlloc => exact ⟨Requisition.noConfusion, rfl⟩
    · exact ⟨Requisition.noConfusion, rfl⟩
  · exact ⟨Requisition.noConfusion, rfl⟩

/-- There is no block to be had without allocating one. -/
def NoneFree (m : BlockManager) : Prop := m.poolSize ≤ m.poolIndex ∧ m.freeList = []

/-- Then a requisition gives what its allocation gives. -/
theorem NoneFree.requisitionBlock {m : BlockManager} (h : m.NoneFree) {mode : AllocMode} {allocs : List Bool}
    (hal : allocs.head? = some false) :
    ∃ allocs', (m.requisitionBlock mode allocs = (.null, allocs', m) ∨ m.requisitionBlock mode allocs = (.threw, allocs', m)) := by
  have hget : m.getBlock = (none, m) := if_neg (Nat.not_lt.mpr h.1)
  have htry : m.tryGet = (none, m) := by simp only [tryGet, h.2]
  obtain ⟨rest, rfl⟩ := List.head?_eq_some_iff.mp hal
  cases mode with
  | cannotAlloc => exact ⟨false :: rest, Or.inl (by simp only [BlockManager.requisitionBlock, hget, htry])⟩
  | canAlloc => exact ⟨rest, Or.inr (by simp only [BlockManager.requisitionBlock, hget, htry, allocate])⟩

/-- Returning a block that is out. -/
theorem WF.returnBlock {m : BlockManager} {p : ℕ} (h : m.WF) (hp : p ∈ m.outstanding) :
    (m.returnBlock p).WF := by
  have hperm : (m.outstanding.erase p ++ p :: m.freeList).Perm (m.outstanding ++ m.freeList) := by
    refine List.perm_middle.trans ?_
    rw [← List.cons_append]
    exact (List.perm_cons_erase hp).symm.append_right _
  refine ⟨h.poolIndex_le, hperm.nodup_iff.mpr h.nodup, fun q hq => ?_⟩
  exact h.issued q (hperm.subset hq)

end BlockManager

end LockFreeStructures
