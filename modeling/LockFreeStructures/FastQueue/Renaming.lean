import LockFreeStructures.FastQueue.Manager

/-!
# `FastQueue.Renaming` — the same queue on other blocks

A queue computes with the names of its blocks only by comparing them, so the same calls on a queue whose blocks
are named `a` higher have the same results. The blocks below `a` are others, and none of the calls touches them.
The manager of such a queue has no pool; it names the blocks it allocates in the order in which the other one
hands out its blocks, of the pool or not.
-/

namespace LockFreeStructures

/-- A manager whose blocks were all handed out for good: the next one is named by their number. -/
structure BlockManager.Unreturned (m : BlockManager) : Prop where
  freeList : m.freeList = []
  poolIndex_le : m.poolIndex ≤ m.poolSize
  allocated : m.poolIndex < m.poolSize → m.allocated = 0

namespace BlockManager

variable {m m' : BlockManager}

/-- The manager without a pool that has handed out `a` blocks more. -/
def rename (a : ℕ) (m : BlockManager) : BlockManager :=
  ⟨0, 0, [], m.poolIndex + m.allocated + a, m.outstanding.map (· + a)⟩

theorem Unreturned.fresh (poolSize : ℕ) : (fresh poolSize).Unreturned := ⟨rfl, Nat.zero_le _, fun _ => rfl⟩

/-- A requisition without failing allocations: both managers give their next block. -/
theorem Unreturned.requisitionBlock (h : m.Unreturned) (a : ℕ) :
    ∃ p m', m.requisitionBlock .canAlloc [] = (.block p, [], m') ∧
      (m.rename a).requisitionBlock .canAlloc [] = (.block (p + a), [], m'.rename a) ∧ m'.Unreturned := by
  have hrenamed : (m.rename a).requisitionBlock .canAlloc [] = (.block (m.poolIndex + m.allocated + a), [],
      ⟨0, 0, [], m.poolIndex + m.allocated + a + 1,
        (m.poolIndex + m.allocated + a) :: m.outstanding.map (· + a)⟩) := by
    simp [rename, BlockManager.requisitionBlock, getBlock, tryGet, allocate, blockCount, handOut]
  by_cases hpool : m.poolIndex < m.poolSize
  · -- the block is of the pool, and none was allocated
    have hzero := h.allocated hpool
    refine ⟨m.poolIndex, { m with poolIndex := m.poolIndex + 1 }.handOut m.poolIndex, ?_, ?_, ?_⟩
    · simp only [BlockManager.requisitionBlock, getBlock, if_pos hpool]
    · rw [hrenamed, hzero]
      simp only [rename, handOut, List.map_cons, Nat.add_zero, Nat.add_right_comm _ 1 a]
    · exact ⟨h.freeList, hpool, fun _ => hzero⟩
  · have heq : m.poolIndex = m.poolSize := Nat.le_antisymm h.poolIndex_le (Nat.le_of_not_lt hpool)
    refine ⟨m.blockCount, { m with allocated := m.allocated + 1 }.handOut m.blockCount, ?_, ?_, ?_⟩
    · simp only [BlockManager.requisitionBlock, getBlock, if_neg hpool, tryGet, h.freeList, allocate]
    · rw [hrenamed]
      simp only [rename, handOut, blockCount, ← heq, List.map_cons, ← Nat.add_assoc, Nat.add_right_comm _ 1 a]
    · exact ⟨h.freeList, h.poolIndex_le, fun hlt => absurd hlt hpool⟩

theorem Unreturned.of_requisitionBlock (h : m.Unreturned) (mode : AllocMode) (allocs : List Bool) :
    (m.requisitionBlock mode allocs).2.2.Unreturned := by
  by_cases hpool : m.poolIndex < m.poolSize
  · simp only [BlockManager.requisitionBlock, getBlock, if_pos hpool]
    exact ⟨h.freeList, hpool, fun _ => h.allocated hpool⟩
  · simp only [BlockManager.requisitionBlock, getBlock, if_neg hpool, tryGet, h.freeList]
    cases mode with
    | cannotAlloc => exact h
    | canAlloc =>
        rcases allocate allocs with ⟨ok, allocs'⟩
        cases ok with
        | false => exact h
        | true => exact ⟨rfl, h.poolIndex_le, fun hlt => absurd hlt hpool⟩

theorem Requisitions.unreturned (h : Requisitions m m') (hm : m.Unreturned) : m'.Unreturned := by
  induction h with
  | refl => exact hm
  | tail _ hstep ih =>
      obtain ⟨mode, allocs, rfl⟩ := hstep
      exact ih.of_requisitionBlock mode allocs

end BlockManager

namespace FastQueue

variable {α : Type} {cfg : Cfg} {a : ℕ} {o : ℕ → HakleBlock FlagsCheckPolicy α} {s s' : FastQueue α}

/-! ## The renamed queue -/

def IndexEntry.rename (a : ℕ) (e : IndexEntry) : IndexEntry := { e with innerBlock := e.innerBlock + a }

def IndexEntryArray.rename (a : ℕ) (arr : IndexEntryArray) : IndexEntryArray :=
  { arr with entries := fun i => (arr.entries i).map (.rename a) }

def renameBlock (a : ℕ) (b : HakleBlock FlagsCheckPolicy α) : HakleBlock FlagsCheckPolicy α :=
  { b with next := b.next.map (· + a) }

/-- The blocks named `a` higher, behind others. -/
def renameBlocks (a : ℕ) (o blocks : ℕ → HakleBlock FlagsCheckPolicy α) : ℕ → HakleBlock FlagsCheckPolicy α :=
  fun p => if p < a then o p else renameBlock a (blocks (p - a))

def renameEvent (a : ℕ) : Event → Event
  | .constructed p i => .constructed (p + a) i
  | .destroyed p i => .destroyed (p + a) i
  | .returned p => .returned (p + a)

def rename (a : ℕ) (o : ℕ → HakleBlock FlagsCheckPolicy α) (s : FastQueue α) : FastQueue α :=
  { s with
    tailBlock := s.tailBlock.map (· + a)
    currentIndexEntryArray := s.currentIndexEntryArray.map (.rename a)
    blockManager := s.blockManager.rename a
    blocks := renameBlocks a o s.blocks
    events := s.events.map (renameEvent a) }

/-- Nothing was returned to the manager, and no allocation is going to fail. -/
structure Ready (s : FastQueue α) : Prop where
  allocs : s.allocs = []
  manager : s.blockManager.Unreturned

@[simp] theorem renameBlocks_add (o blocks : ℕ → HakleBlock FlagsCheckPolicy α) (p : ℕ) :
    renameBlocks a o blocks (p + a) = renameBlock a (blocks p) := by
  rw [renameBlocks, if_neg (Nat.not_lt.mpr (Nat.le_add_left a p)), Nat.add_sub_cancel]

@[simp] theorem update_renameBlocks (o blocks : ℕ → HakleBlock FlagsCheckPolicy α) (p : ℕ)
    (b : HakleBlock FlagsCheckPolicy α) :
    Function.update (renameBlocks a o blocks) (p + a) (renameBlock a b) =
      renameBlocks a o (Function.update blocks p b) := by
  funext x
  by_cases hx : x = p + a
  · subst hx
    rw [Function.update_self, renameBlocks_add, Function.update_self]
  · rw [Function.update_of_ne hx]
    unfold renameBlocks
    by_cases hlt : x < a
    · rw [if_pos hlt, if_pos hlt]
    · rw [if_neg hlt, if_neg hlt, Function.update_of_ne]
      rintro rfl
      exact hx (Nat.sub_add_cancel (Nat.le_of_not_lt hlt)).symm

/-! ## Blocks and slots -/

theorem modifyBlock_rename (p : ℕ) {f : HakleBlock FlagsCheckPolicy α → HakleBlock FlagsCheckPolicy α}
    {f' : HakleBlock FlagsCheckPolicy α → HakleBlock FlagsCheckPolicy α}
    (h : ∀ b, f' (renameBlock a b) = renameBlock a (f b)) :
    (s.rename a o).modifyBlock (p + a) f' = (s.modifyBlock p f).rename a o := by
  simp only [modifyBlock, rename, renameBlocks_add, h, update_renameBlocks]

@[simp] theorem modifyPolicy_rename (p : ℕ) (f : FlagsCheckPolicy → FlagsCheckPolicy) :
    (s.rename a o).modifyPolicy (p + a) f = (s.modifyPolicy p f).rename a o :=
  modifyBlock_rename p fun _ => rfl

@[simp] theorem setNext_rename (p : ℕ) (n : Option ℕ) :
    (s.rename a o).setNext (p + a) (n.map (· + a)) = (s.setNext p n).rename a o :=
  modifyBlock_rename p fun _ => rfl

@[simp] theorem blockIsEmpty_rename (p : ℕ) :
    (s.rename a o).blockIsEmpty cfg (p + a) = s.blockIsEmpty cfg p := by
  simp only [blockIsEmpty, rename, renameBlocks_add, renameBlock]

theorem setElement_rename (p i : ℕ) (x : Option α) :
    (s.rename a o).modifyBlock (p + a) (fun b => { b with elements := Function.update b.elements i x }) =
      (s.modifyBlock p fun b => { b with elements := Function.update b.elements i x }).rename a o :=
  modifyBlock_rename p fun _ => rfl

@[simp] theorem construct_rename (p i : ℕ) (x : α) :
    (s.rename a o).construct (p + a) i x = (s.construct p i x).rename a o := by
  simp only [construct, setElement_rename]
  simp only [rename, modifyBlock, List.map_append, List.map_cons, List.map_nil, renameEvent]

theorem takeElement_rename {p i : ℕ} {x : α} (h : s.takeElement p i = some (x, s')) :
    (s.rename a o).takeElement (p + a) i = some (x, s'.rename a o) := by
  simp only [takeElement, Option.map_eq_some_iff, Prod.mk.injEq] at h ⊢
  obtain ⟨x', hx, rfl, rfl⟩ := h
  refine ⟨x', ?_, rfl, ?_⟩
  · simp only [rename, renameBlocks_add, renameBlock, hx]
  · simp only [setElement_rename]
    simp only [rename, modifyBlock, List.map_append, List.map_cons, List.map_nil, renameEvent]

/-! ## The index array -/

theorem IndexEntryArray.get_rename (arr : IndexEntryArray) (i : ℕ) :
    (arr.rename a).get i = (arr.get i).map (.rename a) := by
  simp only [IndexEntryArray.get, apply_ite (Option.map (IndexEntry.rename a)), Option.map_none]
  rfl

/-- Entries behind which the blocks are renamed. -/
theorem update_renameEntries (entries : ℕ → Option IndexEntry) (i : ℕ) (e : Option IndexEntry) :
    Function.update (fun i => (entries i).map (IndexEntry.rename a)) i (e.map (.rename a)) =
      fun j => (Function.update entries i e j).map (.rename a) := by
  funext j
  by_cases hj : j = i
  · rw [hj, Function.update_self, Function.update_self]
  · rw [Function.update_of_ne hj, Function.update_of_ne hj]

theorem IndexEntryArray.set_rename {arr arr' : IndexEntryArray} {i : ℕ} {e : IndexEntry}
    (h : arr.set i e = some arr') : (arr.rename a).set i (e.rename a) = some (arr'.rename a) := by
  unfold IndexEntryArray.set at h ⊢
  split at h
  · next hlt =>
    obtain rfl := Option.some.inj h
    refine (if_pos hlt).trans ?_
    exact congrArg (fun entries => some { arr with entries := entries })
      (update_renameEntries arr.entries i (some e))
  · cases h

theorem writeEntry_rename {base : ℕ} (h : s.writeEntry base = some s') :
    (s.rename a o).writeEntry base = some (s'.rename a o) := by
  unfold writeEntry at h ⊢
  split at h
  · next arr prev t harr ht =>
    simp only [Option.map_eq_some_iff] at h
    obtain ⟨arr', hset, rfl⟩ := h
    simp only [rename, harr, ht, List.map_cons, Option.map_some]
    rw [show (⟨base, t + a⟩ : IndexEntry) = IndexEntry.rename a ⟨base, t⟩ from rfl, IndexEntryArray.set_rename hset]
    rfl
  · cases h

theorem storeTail_rename {tail : ℕ} (h : s.storeTail tail = some s') :
    (s.rename a o).storeTail tail = some (s'.rename a o) := by
  unfold storeTail at h ⊢
  split at h
  · next arr prev harr =>
    obtain rfl := Option.some.inj h
    simp only [rename, harr, List.map_cons]
    rfl
  · cases h

theorem copyEntries_rename {arr : IndexEntryArray} {size next fuel i j n : ℕ} {new new' : ℕ → Option IndexEntry}
    (h : copyEntries arr size next fuel i j new = some (n, new')) :
    copyEntries (arr.rename a) size next fuel i j (fun i => (new i).map (.rename a)) =
      some (n, fun i => (new' i).map (.rename a)) := by
  induction fuel generalizing i j new with
  | zero => cases h
  | succ fuel ih =>
      simp only [copyEntries, IndexEntryArray.get_rename, update_renameEntries] at h ⊢
      split at h
      · next hnext =>
        simp only [Option.some.injEq, Prod.mk.injEq] at h
        obtain ⟨rfl, rfl⟩ := h
        rw [if_pos hnext]
      · next hnext =>
        rw [if_neg hnext]
        exact ih h

theorem copiedEntries_rename {n : ℕ} {new : ℕ → Option IndexEntry} (h : s.copiedEntries cfg = some (n, new)) :
    (s.rename a o).copiedEntries cfg = some (n, fun i => (new i).map (.rename a)) := by
  unfold copiedEntries at h ⊢
  by_cases hzero : s.indexEntriesUsed = 0
  · rw [if_pos hzero] at h
    simp only [Option.some.injEq, Prod.mk.injEq] at h
    obtain ⟨rfl, rfl⟩ := h
    exact if_pos hzero
  · rw [if_neg hzero] at h
    rw [if_neg (show (s.rename a o).indexEntriesUsed ≠ 0 from hzero)]
    simp only [rename]
    cases harr : s.currentIndexEntryArray with
    | nil =>
        rw [harr] at h
        cases h
    | cons arr prev =>
        rw [harr] at h
        exact copyEntries_rename h

theorem allocate_eq (h : s.allocs = []) : s.allocate = (true, s) := by
  cases s
  obtain rfl := h
  rfl

theorem createNewBlockIndexArray_rename {filledSlot : ℕ} {ok : Bool} (hready : s.Ready)
    (h : s.createNewBlockIndexArray cfg filledSlot = some (ok, s')) :
    (s.rename a o).createNewBlockIndexArray cfg filledSlot = some (ok, s'.rename a o) ∧ s'.Ready := by
  have hallocs : (s.rename a o).allocs = [] := hready.allocs
  simp only [createNewBlockIndexArray, allocate_eq hready.allocs, allocate_eq hallocs, Bool.not_true, Bool.false_eq_true, if_false, Option.bind_eq_bind,
    Option.bind_eq_some_iff, Option.some.injEq, Prod.mk.injEq] at h ⊢
  obtain ⟨⟨n, new⟩, hcopied, rfl, rfl⟩ := h
  exact ⟨⟨_, copiedEntries_rename hcopied, rfl, rfl⟩, hready.allocs, hready.manager⟩

/-! ## Getting the next block -/

theorem nextIsEmpty_rename (s : FastQueue α) : (s.rename a o).nextIsEmpty cfg = s.nextIsEmpty cfg := by
  simp only [nextIsEmpty, rename]
  cases s.tailBlock with
  | none => rfl
  | some t =>
      simp only [Option.map_some, renameBlocks_add, renameBlock, Option.map_map]
      congr 1
      funext n
      exact blockIsEmpty_rename (s := s) (a := a) (o := o) n

theorem reuseNext_rename (h : s.reuseNext = some s') : (s.rename a o).reuseNext = some (s'.rename a o) := by
  simp only [reuseNext, Option.bind_eq_bind, Option.bind_eq_some_iff, Option.some.injEq] at h ⊢
  obtain ⟨t, ht, n, hn, rfl⟩ := h
  refine ⟨t + a, by simp only [rename, ht, Option.map_some], n + a, ?_, ?_⟩
  · simp only [rename, renameBlocks_add, renameBlock, hn, Option.map_some]
  · exact modifyPolicy_rename (s := { s with tailBlock := some n }) n .reset

theorem spliceBlock_rename (p : ℕ) (s : FastQueue α) :
    (s.rename a o).spliceBlock (p + a) = (s.spliceBlock p).rename a o := by
  have htail : (s.rename a o).tailBlock = s.tailBlock.map (· + a) := rfl
  unfold spliceBlock
  rw [htail]
  cases s.tailBlock with
  | none =>
      simp only [Option.map_none]
      rw [show some (p + a) = (some p).map (· + a) from rfl, setNext_rename]
      rfl
  | some t =>
      have hnext : ((s.rename a o).blocks (t + a)).next = (s.blocks t).next.map (· + a) := by
        simp only [rename, renameBlocks_add, renameBlock]
      simp only [Option.map_some, hnext, setNext_rename]
      rw [show some (p + a) = (some p).map (· + a) from rfl, setNext_rename]
      rfl

theorem Ready.spliceBlock (h : s.Ready) (p : ℕ) : (s.spliceBlock p).Ready := by
  unfold FastQueue.spliceBlock
  split <;> exact ⟨h.allocs, h.manager⟩

theorem ensureIndexEntry_rename {filledSlot : ℕ} {ok grew : Bool} (hready : s.Ready)
    (h : s.ensureIndexEntry cfg .canAlloc filledSlot = some (ok, grew, s')) :
    (s.rename a o).ensureIndexEntry cfg .canAlloc filledSlot = some (ok, grew, s'.rename a o) ∧ s'.Ready := by
  have hexhausted : (s.rename a o).indexExhausted = s.indexExhausted := by
    simp only [indexExhausted, rename, List.isEmpty_map]
  unfold ensureIndexEntry at h ⊢
  rw [hexhausted]
  split at h
  · next hex =>
    simp only [Option.bind_eq_bind, Option.bind_eq_some_iff, Option.some.injEq, Prod.mk.injEq, Prod.exists] at h ⊢
    obtain ⟨ok, s₁, hcreate, rfl, rfl, rfl⟩ := h
    obtain ⟨hcreate', hready'⟩ := createNewBlockIndexArray_rename (a := a) (o := o) hready hcreate
    refine ⟨(if_pos hex).trans ?_, hready'⟩
    simp only [hcreate', Option.bind_some]
  · next hex =>
    simp only [Option.some.injEq, Prod.mk.injEq] at h
    obtain ⟨rfl, rfl, rfl⟩ := h
    rw [if_neg hex]
    exact ⟨rfl, hready⟩

theorem acquireNewBlock_rename {cti filledSlot : ℕ} {r : Acquisition} {grew : Bool} (hready : s.Ready)
    (h : s.acquireNewBlock cfg .canAlloc cti filledSlot = some (r, grew, s')) :
    (s.rename a o).acquireNewBlock cfg .canAlloc cti filledSlot = some (r, grew, s'.rename a o) ∧ s'.Ready := by
  have hfull : (s.rename a o).isFull cfg cti = s.isFull cfg cti := rfl
  unfold acquireNewBlock at h ⊢
  rw [hfull]
  split at h
  · next hf =>
    simp only [Option.some.injEq, Prod.mk.injEq] at h
    obtain ⟨rfl, rfl, rfl⟩ := h
    rw [if_pos hf]
    exact ⟨rfl, hready⟩
  · next hf =>
    rw [if_neg hf]
    simp only [Option.bind_eq_bind, Option.bind_eq_some_iff, Prod.exists] at h ⊢
    obtain ⟨ok, grew', s₁, hensure, h⟩ := h
    obtain ⟨hensure', hready₁⟩ := ensureIndexEntry_rename (a := a) (o := o) hready hensure
    cases ok with
    | false =>
        simp only [Bool.not_false, if_true, Option.some.injEq, Prod.mk.injEq] at h
        obtain ⟨rfl, rfl, rfl⟩ := h
        exact ⟨⟨_, _, _, hensure', rfl⟩, hready₁⟩
    | true =>
        obtain ⟨p, m, hreq, hreq', hm⟩ := hready₁.manager.requisitionBlock a
        simp only [Bool.not_true, Bool.false_eq_true, if_false, hready₁.allocs, hreq, Option.some.injEq,
          Prod.mk.injEq] at h
        obtain ⟨rfl, rfl, rfl⟩ := h
        have hallocs : (s₁.rename a o).allocs = [] := hready₁.allocs
        refine ⟨⟨_, _, _, hensure', ?_⟩, (Ready.mk rfl hm).spliceBlock p⟩
        simp only [Bool.not_true, Bool.false_eq_true, if_false, hallocs]
        rw [show (s₁.rename a o).blockManager = s₁.blockManager.rename a from rfl, hreq']
        simp only [← spliceBlock_rename, ← modifyPolicy_rename]
        rfl

/-! ## `Enqueue` -/

theorem Ready.of_fixed (h : s.Ready) (hfixed : Fixed s s') (hallocs : s'.allocs = s.allocs) : s'.Ready :=
  ⟨hallocs.trans h.allocs, hfixed.blockManager ▸ h.manager⟩

theorem allocs_reuseNext (h : s.reuseNext = some s') : s'.allocs = s.allocs := by
  simp only [reuseNext, Option.bind_eq_bind, Option.bind_eq_some_iff, Option.some.injEq] at h
  obtain ⟨-, -, -, -, rfl⟩ := h
  rfl

theorem allocs_writeEntry {base : ℕ} (h : s.writeEntry base = some s') : s'.allocs = s.allocs := by
  unfold writeEntry at h
  split at h
  · simp only [Option.map_eq_some_iff] at h
    obtain ⟨-, -, rfl⟩ := h
    rfl
  · cases h

theorem acquireBlock_rename {r : Acquisition} (hready : s.Ready)
    (h : s.acquireBlock cfg .canAlloc = some (r, s')) :
    (s.rename a o).acquireBlock cfg .canAlloc = some (r, s'.rename a o) ∧ s'.Ready := by
  simp only [acquireBlock, nextIsEmpty_rename, Option.bind_eq_bind, Option.bind_eq_some_iff] at h ⊢
  obtain ⟨empty, hempty, h⟩ := h
  cases empty with
  | true =>
      simp only [if_true, Option.bind_eq_some_iff, Option.some.injEq, Prod.mk.injEq] at h
      obtain ⟨s₁, hreuse, rfl, rfl⟩ := h
      refine ⟨⟨_, hempty, ?_⟩, hready.of_fixed (fixed_reuseNext hreuse) (allocs_reuseNext hreuse)⟩
      simp only [if_true, reuseNext_rename hreuse, Option.bind_some]
  | false =>
      simp only [Bool.false_eq_true, if_false, Option.bind_eq_some_iff, Prod.exists, Option.some.injEq,
        Prod.mk.injEq] at h
      obtain ⟨r, grew, s₁, hnew, rfl, rfl⟩ := h
      obtain ⟨hnew', hready'⟩ := acquireNewBlock_rename (a := a) (o := o) hready hnew
      refine ⟨⟨_, hempty, ?_⟩, hready'⟩
      simp only [Bool.false_eq_true, if_false]
      rw [show (s.rename a o).tailIndex = s.tailIndex from rfl,
        show (s.rename a o).indexEntriesUsed = s.indexEntriesUsed from rfl, hnew', Option.bind_some]

/-- **Enqueue.** -/
theorem enqueue_rename {x : α} {r : Outcome Bool} (hready : s.Ready)
    (h : s.enqueue cfg .canAlloc (some x) = some (r, s')) :
    (s.rename a o).enqueue cfg .canAlloc (some x) = some (r, s'.rename a o) := by
  have htailIndex : (s.rename a o).tailIndex = s.tailIndex := rfl
  simp only [enqueue, htailIndex, Option.bind_eq_bind] at h ⊢
  by_cases hinner : s.tailIndex % cfg.blockSize = 0
  · rw [if_pos hinner] at h ⊢
    simp only [Option.bind_eq_some_iff, Prod.exists] at h ⊢
    obtain ⟨res, s₁, hacquire, h⟩ := h
    obtain ⟨hacquire', -⟩ := acquireBlock_rename (a := a) (o := o) hready hacquire
    refine ⟨_, _, hacquire', ?_⟩
    cases res with
    | refused | threw =>
        simp only [Option.some.injEq, Prod.mk.injEq] at h
        obtain ⟨rfl, rfl⟩ := h
        rfl
    | acquired =>
        simp only [Option.bind_eq_some_iff, Option.some.injEq, Prod.mk.injEq] at h ⊢
        obtain ⟨s₂, hwrite, t, ht, s₃, hstore, rfl, rfl⟩ := h
        refine ⟨_, writeEntry_rename hwrite, t + a, by simp only [rename, ht, Option.map_some], s₃.rename a o, ?_, rfl, ?_⟩
        · rw [construct_rename]
          exact storeTail_rename hstore
        · rfl
  · rw [if_neg hinner] at h ⊢
    simp only [Option.bind_eq_some_iff, Option.some.injEq, Prod.mk.injEq] at h ⊢
    obtain ⟨t, ht, rfl, rfl⟩ := h
    refine ⟨t + a, by simp only [rename, ht, Option.map_some], rfl, ?_⟩
    rw [construct_rename]
    rfl

/-! ## `EnqueueBulk` -/

namespace Bulk

variable {b b' : Bulk α}

def rename (a : ℕ) (o : ℕ → HakleBlock FlagsCheckPolicy α) (b : Bulk α) : Bulk α :=
  { b with queue := b.queue.rename a o, firstAllocatedBlock := b.firstAllocatedBlock.map (· + a) }

theorem noteAllocated_rename (b : Bulk α) : (b.rename a o).noteAllocated = b.noteAllocated.rename a o := by
  simp only [noteAllocated, rename, FastQueue.rename]
  cases b.firstAllocatedBlock <;> rfl

theorem enterBlock_rename (h : b.enterBlock = some b') : (b.rename a o).enterBlock = some (b'.rename a o) := by
  simp only [enterBlock, Option.map_eq_some_iff] at h ⊢
  obtain ⟨s, hwrite, rfl⟩ := h
  exact ⟨_, writeEntry_rename hwrite, rfl⟩

theorem ready_enterBlock (hready : b.queue.Ready) (h : b.enterBlock = some b') : b'.queue.Ready := by
  have hfixed := fixed_enterBlock h
  simp only [enterBlock, Option.map_eq_some_iff] at h
  obtain ⟨s, hwrite, rfl⟩ := h
  have hallocs : s.allocs = b.queue.allocs := allocs_writeEntry hwrite
  exact hready.of_fixed hfixed hallocs

theorem reuseBlocks_rename {need need' : ℕ} (hready : b.queue.Ready)
    (h : reuseBlocks cfg need b = some (need', b')) :
    reuseBlocks cfg need (b.rename a o) = some (need', b'.rename a o) ∧ b'.queue.Ready := by
  induction need generalizing b with
  | zero =>
      simp only [reuseBlocks, Option.some.injEq, Prod.mk.injEq] at h
      obtain ⟨rfl, rfl⟩ := h
      exact ⟨rfl, hready⟩
  | succ need ih =>
      have hempty' : (b.rename a o).queue.nextIsEmpty cfg = b.queue.nextIsEmpty cfg := nextIsEmpty_rename b.queue
      simp only [reuseBlocks, hempty', Option.bind_eq_bind, Option.bind_eq_some_iff] at h ⊢
      obtain ⟨empty, hempty, h⟩ := h
      cases empty with
      | true =>
          simp only [if_true, Option.bind_eq_some_iff] at h
          obtain ⟨s, hreuse, b₁, henter, h⟩ := h
          have hready₁ : b₁.queue.Ready :=
            ready_enterBlock (hready.of_fixed (fixed_reuseNext hreuse) (allocs_reuseNext hreuse)) henter
          obtain ⟨h', hready'⟩ := ih hready₁ h
          refine ⟨⟨_, hempty, ?_⟩, hready'⟩
          have henter' := enterBlock_rename (a := a) (o := o) henter
          rw [← noteAllocated_rename] at henter'
          simp only [if_true, Option.bind_eq_some_iff]
          exact ⟨_, reuseNext_rename hreuse, _, henter', h'⟩
      | false =>
          simp only [Bool.false_eq_true, if_false, Option.some.injEq, Prod.mk.injEq] at h
          obtain ⟨rfl, rfl⟩ := h
          exact ⟨⟨_, hempty, rfl⟩, hready⟩

theorem newBlocks_rename {used need : ℕ} {r : Acquisition} (hready : b.queue.Ready)
    (h : newBlocks cfg .canAlloc used need b = some (r, b')) :
    newBlocks cfg .canAlloc used need (b.rename a o) = some (r, b'.rename a o) ∧ b'.queue.Ready := by
  induction need generalizing b with
  | zero =>
      simp only [newBlocks, Option.some.injEq, Prod.mk.injEq] at h
      obtain ⟨rfl, rfl⟩ := h
      exact ⟨rfl, hready⟩
  | succ need ih =>
      simp only [newBlocks, Option.bind_eq_bind, Option.bind_eq_some_iff, Prod.exists] at h ⊢
      obtain ⟨res, grew, s, hnew, h⟩ := h
      obtain ⟨hnew', hready₁⟩ := acquireNewBlock_rename (a := a) (o := o) hready hnew
      cases res with
      | refused | threw =>
          simp only [Option.some.injEq, Prod.mk.injEq] at h
          obtain ⟨rfl, rfl⟩ := h
          exact ⟨⟨_, _, _, hnew', rfl⟩, hready₁⟩
      | acquired =>
          simp only [Option.bind_eq_some_iff] at h
          obtain ⟨b₁, henter, h⟩ := h
          have hready₂ : b₁.queue.Ready := by
            refine ready_enterBlock ?_ henter
            exact hready₁
          obtain ⟨h', hready'⟩ := ih hready₂ h
          refine ⟨⟨_, _, _, hnew', ?_⟩, hready'⟩
          have henter' := enterBlock_rename (a := a) (o := o) henter
          rw [← noteAllocated_rename] at henter'
          simp only [Option.bind_eq_some_iff]
          exact ⟨_, henter', h'⟩

theorem firstBlock_rename {startBlock : Option ℕ} {startInner first : ℕ}
    (h : b.firstBlock startBlock startInner = some first) :
    (b.rename a o).firstBlock (startBlock.map (· + a)) startInner = some (first + a) := by
  unfold firstBlock at h ⊢
  by_cases hinner : startInner = 0
  · rw [if_pos hinner] at h ⊢
    simp only [rename]
    cases hfirst : b.firstAllocatedBlock with
    | none =>
        rw [hfirst, Option.none_or] at h
        rw [h]
        rfl
    | some f =>
        rw [hfirst] at h
        obtain rfl := Option.some.inj h
        rfl
  · rw [if_neg hinner] at h ⊢
    rw [h]
    rfl

theorem storeNewestTail_rename (h : b.storeNewestTail cfg = some s') :
    (b.rename a o).storeNewestTail cfg = some (s'.rename a o) := by
  have hsome : (b.rename a o).firstAllocatedBlock.isSome = b.firstAllocatedBlock.isSome := Option.isSome_map
  unfold storeNewestTail at h ⊢
  rw [hsome]
  split at h
  · next hfirst =>
    rw [if_pos hfirst]
    exact storeTail_rename h
  · next hfirst =>
    rw [if_neg hfirst, ← Option.some.inj h]
    rfl

end Bulk

theorem fillBlock_rename {p i n j : ℕ} {items : List (Option α)} {r : Outcome (List (Option α))}
    (h : s.fillBlock p i n items = some (j, r, s')) :
    (s.rename a o).fillBlock (p + a) i n items = some (j, r, s'.rename a o) := by
  induction n generalizing i items s with
  | zero =>
      simp only [fillBlock, Option.some.injEq, Prod.mk.injEq] at h
      obtain ⟨rfl, rfl, rfl⟩ := h
      rfl
  | succ n ih =>
      cases items with
      | nil => cases h
      | cons item items =>
          cases item with
          | none =>
              simp only [fillBlock, Option.some.injEq, Prod.mk.injEq] at h
              obtain ⟨rfl, rfl, rfl⟩ := h
              rfl
          | some x =>
              simp only [fillBlock, construct_rename] at h ⊢
              exact ih h

/-- Constructors that do not throw. -/
theorem fillBlock_returned {p i n j : ℕ} {items : List (Option α)} {r : Outcome (List (Option α))}
    (h : s.fillBlock p i n items = some (j, r, s')) (hitems : none ∉ items) :
    ∃ items', r = .returned items' ∧ none ∉ items' := by
  induction n generalizing i items s with
  | zero =>
      simp only [fillBlock, Option.some.injEq, Prod.mk.injEq] at h
      exact ⟨items, h.2.1.symm, hitems⟩
  | succ n ih =>
      cases items with
      | nil => cases h
      | cons item items =>
          cases item with
          | none => exact absurd List.mem_cons_self hitems
          | some x => exact ih h fun hmem => hitems (List.mem_cons_of_mem _ hmem)

theorem fillBlocks_rename {lastInner fuel cur start cur' j : ℕ} {items : List (Option α)} {r : Outcome Unit}
    (h : s.fillBlocks cfg lastInner fuel cur start items = some (r, cur', j, s')) (hitems : none ∉ items) :
    r = .returned () ∧ (s.rename a o).fillBlocks cfg lastInner fuel (cur + a) start items =
      some (r, cur' + a, j, s'.rename a o) := by
  induction fuel generalizing cur start items s with
  | zero => cases h
  | succ fuel ih =>
      have htail : ∀ s : FastQueue α, (s.rename a o).tailBlock = some (cur + a) ↔ s.tailBlock = some cur := by
        intro s
        simp only [rename, Option.map_eq_some_iff, Nat.add_right_cancel_iff, exists_eq_right]
      simp only [fillBlocks, htail, Option.bind_eq_bind, Option.bind_eq_some_iff, Prod.exists] at h ⊢
      obtain ⟨i, res, s₁, hfill, h⟩ := h
      obtain ⟨items', rfl, hitems'⟩ := fillBlock_returned hfill hitems
      have hfill' := fillBlock_rename (a := a) (o := o) hfill
      by_cases hlast : s₁.tailBlock = some cur
      · simp only [hlast, if_true, Option.some.injEq, Prod.mk.injEq] at h
        obtain ⟨rfl, rfl, rfl, rfl⟩ := h
        refine ⟨rfl, i, _, _, hfill', ?_⟩
        simp only [htail, hlast, if_true]
      · simp only [hlast, if_false, Option.bind_eq_some_iff] at h
        obtain ⟨n, hn, h⟩ := h
        obtain ⟨hr, h'⟩ := ih h hitems'
        refine ⟨hr, _, _, _, hfill', ?_⟩
        simp only [htail, hlast, if_false, Option.bind_eq_some_iff]
        refine ⟨n + a, ?_, h'⟩
        simp only [rename, renameBlocks_add, renameBlock, hn, Option.map_some]

/-- **EnqueueBulk.** -/
theorem enqueueBulk_rename {items : List (Option α)} {r : Outcome Bool} (hready : s.Ready) (hitems : none ∉ items)
    (h : s.enqueueBulk cfg .canAlloc items = some (r, s')) :
    (s.rename a o).enqueueBulk cfg .canAlloc items = some (r, s'.rename a o) := by
  simp only [enqueueBulk, Option.bind_eq_bind, Option.bind_eq_some_iff, Prod.exists] at h ⊢
  obtain ⟨need, b, hreuse, res, b', hnew, h⟩ := h
  obtain ⟨hreuse', hready₁⟩ := Bulk.reuseBlocks_rename (a := a) (o := o) (b := .start cfg s) hready hreuse
  obtain ⟨hnew', -⟩ := Bulk.newBlocks_rename (a := a) (o := o) hready₁ hnew
  refine ⟨_, _, hreuse', _, _, hnew', ?_⟩
  cases res with
  | refused | threw =>
      simp only [Option.some.injEq, Prod.mk.injEq] at h
      obtain ⟨rfl, rfl⟩ := h
      rfl
  | acquired =>
      simp only [Option.bind_eq_some_iff, Prod.exists] at h ⊢
      obtain ⟨first, hfirst, res, cur, i, s₁, hfill, h⟩ := h
      obtain ⟨rfl, hfill'⟩ := fillBlocks_rename (a := a) (o := o) hfill hitems
      simp only [Option.bind_eq_some_iff, Option.some.injEq, Prod.mk.injEq] at h
      obtain ⟨s₂, hstore, rfl, rfl⟩ := h
      refine ⟨_, Bulk.firstBlock_rename hfirst, _, _, _, _, hfill', ?_⟩
      have hstore' := Bulk.storeNewestTail_rename (a := a) (o := o) hstore
      simp only [Option.bind_eq_some_iff, Option.some.injEq, Prod.mk.injEq]
      exact ⟨_, hstore', trivial, rfl⟩

/-! ## `Dequeue` and `DequeueBulk` -/

theorem lookup_rename {index p : ℕ} (h : s.lookup cfg index = some p) :
    (s.rename a o).lookup cfg index = some (p + a) := by
  simp only [lookup, Option.bind_eq_bind, Option.bind_eq_some_iff, Option.some.injEq] at h ⊢
  obtain ⟨arr, harr, t, ht, e, he, rfl⟩ := h
  have hhead : (s.rename a o).currentIndexEntryArray.head? = some (arr.rename a) := by
    simp only [rename, List.head?_map, harr, Option.map_some]
  refine ⟨_, hhead, t.rename a, ?_, e.rename a, ?_, rfl⟩
  · rw [IndexEntryArray.get_rename]
    exact (congrArg (Option.map _) ht).trans rfl
  · rw [IndexEntryArray.get_rename]
    exact (congrArg (Option.map _) he).trans rfl

/-- **Dequeue.** -/
theorem dequeue_rename {x : Option α} (h : s.dequeue cfg = some (x, s')) :
    (s.rename a o).dequeue cfg = some (x, s'.rename a o) := by
  have hattempts : (s.rename a o).dequeueAttemptsCount = s.dequeueAttemptsCount := rfl
  have hfailed : (s.rename a o).dequeueFailedCount = s.dequeueFailedCount := rfl
  have htail : (s.rename a o).tailIndex = s.tailIndex := rfl
  have hhead : (s.rename a o).headIndex = s.headIndex := rfl
  simp only [dequeue, hattempts, hfailed, htail, hhead] at h ⊢
  by_cases hlt : circularLessThan cfg.w (Word.sub cfg.w s.dequeueAttemptsCount s.dequeueFailedCount) s.tailIndex
  · simp only [hlt, if_true, Option.bind_eq_bind, Option.bind_eq_some_iff, Prod.exists, Option.some.injEq,
      Prod.mk.injEq] at h ⊢
    obtain ⟨p, hp, x, s₁, htake, rfl, rfl⟩ := h
    refine ⟨p + a, lookup_rename (o := o) hp, x, _, takeElement_rename htake, rfl, ?_⟩
    exact modifyPolicy_rename p _
  · simp only [hlt, Bool.false_eq_true, if_false, Option.some.injEq, Prod.mk.injEq] at h ⊢
    obtain ⟨rfl, rfl⟩ := h
    exact ⟨rfl, rfl⟩

theorem takeRange_rename {p i n : ℕ} {xs : List α} (h : s.takeRange p i n = some (xs, s')) :
    (s.rename a o).takeRange (p + a) i n = some (xs, s'.rename a o) := by
  induction n generalizing i xs s with
  | zero =>
      simp only [takeRange, Option.some.injEq, Prod.mk.injEq] at h
      obtain ⟨rfl, rfl⟩ := h
      rfl
  | succ n ih =>
      simp only [takeRange, Option.bind_eq_bind, Option.bind_eq_some_iff, Prod.exists, Option.some.injEq,
        Prod.mk.injEq] at h ⊢
      obtain ⟨x, s₁, htake, xs', s₂, hrange, rfl, rfl⟩ := h
      exact ⟨x, _, takeElement_rename htake, xs', _, ih hrange, rfl, rfl⟩

theorem takeBlocks_rename {fuel start need : ℕ} {p : Option ℕ} {xs : List α}
    (h : s.takeBlocks cfg fuel p start need = some (xs, s')) :
    (s.rename a o).takeBlocks cfg fuel (p.map (· + a)) start need = some (xs, s'.rename a o) := by
  induction fuel generalizing p start need xs s with
  | zero =>
      cases need with
      | zero =>
          simp only [takeBlocks, Option.some.injEq, Prod.mk.injEq] at h
          obtain ⟨rfl, rfl⟩ := h
          rfl
      | succ need => cases h
  | succ fuel ih =>
      cases need with
      | zero =>
          simp only [takeBlocks, Option.some.injEq, Prod.mk.injEq] at h
          obtain ⟨rfl, rfl⟩ := h
          rfl
      | succ need =>
          simp only [takeBlocks, Option.bind_eq_bind, Option.bind_eq_some_iff, Prod.exists, Option.some.injEq,
            Prod.mk.injEq] at h ⊢
          obtain ⟨p, rfl, xs', s₁, hrange, xs'', s₂, hblocks, rfl, rfl⟩ := h
          have hnext : ((s₁.rename a o).blocks (p + a)).next = (s₁.blocks p).next.map (· + a) := by
            simp only [rename, renameBlocks_add, renameBlock]
          refine ⟨p + a, rfl, xs', _, takeRange_rename hrange, xs'', _, ?_, rfl, rfl⟩
          rw [hnext, modifyPolicy_rename]
          exact ih hblocks

/-- **DequeueBulk.** -/
theorem dequeueBulk_rename {maxCount : ℕ} {xs : List α} (h : s.dequeueBulk cfg maxCount = some (xs, s')) :
    (s.rename a o).dequeueBulk cfg maxCount = some (xs, s'.rename a o) := by
  have hattempts : (s.rename a o).dequeueAttemptsCount = s.dequeueAttemptsCount := rfl
  have hfailed : (s.rename a o).dequeueFailedCount = s.dequeueFailedCount := rfl
  have htail : (s.rename a o).tailIndex = s.tailIndex := rfl
  have hhead : (s.rename a o).headIndex = s.headIndex := rfl
  simp only [dequeueBulk, hattempts, hfailed, htail, hhead] at h ⊢
  by_cases hlt : circularLessThan cfg.w 0
      (Word.sub cfg.w s.tailIndex (Word.sub cfg.w s.dequeueAttemptsCount s.dequeueFailedCount))
  · -- one caller at a time gets all that it asked for
    have hall : ∀ n : ℕ, ¬ n < n := Nat.lt_irrefl
    simp only [hlt, if_true, Nat.min_eq_right (Nat.min_le_left _ _), hall, if_false, Option.bind_eq_bind,
      Option.bind_eq_some_iff] at h ⊢
    obtain ⟨p, hp, hblocks⟩ := h
    exact ⟨p + a, lookup_rename (o := o) hp, takeBlocks_rename hblocks⟩
  · simp only [hlt, Bool.false_eq_true, if_false, Option.some.injEq, Prod.mk.injEq] at h ⊢
    obtain ⟨rfl, rfl⟩ := h
    exact ⟨rfl, rfl⟩

/-! ## New queues -/

/-- A new queue has no blocks, so there is nothing to rename. -/
theorem fresh_rename {inSize : ℕ} (h : fresh cfg inSize 0 [] = some s) (a : ℕ)
    (o : ℕ → HakleBlock FlagsCheckPolicy α) :
    s.blockManager = .fresh 0 ∧
      s.rename a o = { s with blockManager := s.blockManager.rename a, blocks := renameBlocks a o s.blocks } := by
  simp only [fresh, createNewBlockIndexArray, Option.map_eq_some_iff] at h
  simp only [allocate, unindexed, LockFreeStructures.allocate, Bool.not_true, Bool.false_eq_true, if_false,
    copiedEntries, if_true, Option.bind_eq_bind, Option.bind_some, Option.some.injEq, Prod.exists, Prod.mk.injEq] at h
  obtain ⟨ok, s', ⟨rfl, rfl⟩, rfl⟩ := h
  exact ⟨rfl, rfl⟩

end FastQueue

end LockFreeStructures
