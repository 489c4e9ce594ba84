import LockFreeStructures.SlowQueue.EnqueueBulk

/-!
# `SlowQueue.Throws` — calls in which the requisition of a block throws

Nothing is taken back then: the key of the block that did not come stays in the index, and so do the blocks the call
had got. The queue is as it was just when nothing of it is in use and the first requisition throws.
-/

namespace LockFreeStructures

namespace SlowQueue

variable {α : Type} {cfg : Cfg} {s s' : SlowQueue α} {a : IndexEntryArray} {c H K : ℕ} {blk : ℕ → ℕ} {l : List α}

/-- The requisition of a block throws in the call. -/
def RequisitionThrows (cfg : Cfg) (s : SlowQueue α) : Call α → Prop
  | .enqueue mode _ allocs => s.tailIndex % cfg.blockSize = 0 ∧ ∃ e s₁ s', s.isFull cfg s.tailIndex = false ∧
      (s.begin allocs).insertBlockIndexEntry cfg mode s.tailIndex = some (some e, s₁) ∧
      s₁.requisitionBlock mode = (.threw, s')
  | .enqueueBulk mode items allocs => ∃ b, Bulk.newBlocks cfg mode s.tailIndex
      (needCount cfg s.tailIndex items.length) (.start cfg (s.begin allocs)) = some (.threw, b)
  | .dequeue => False
  | .dequeueBulk _ => False

/-- No block of the queue is in use, there is none to be had without an allocation, and the first one fails. -/
def ThrowsFirst (cfg : Cfg) (s : SlowQueue α) (call : Call α) : Prop :=
  s.headIndex = s.tailIndex ∧ s.tailIndex % cfg.blockSize = 0 ∧ s.blockManager.NoneFree ∧
    call.allocs.head? = some false

/-! ## Allocations that succeed -/

theorem allocs_insertBlockIndexEntry {mode : AllocMode} {key : ℕ} {e : Option ℕ} (hal : s.allocs = [])
    (h : s.insertBlockIndexEntry cfg mode key = some (e, s')) : s'.allocs = [] := by
  have htake : ∀ {t t' : SlowQueue α} {e : ℕ}, t.takeIndexEntry key = some (e, t') → t.allocs = [] → t'.allocs = [] := by
    intro t t' e ht hnil
    simp only [takeIndexEntry, Option.bind_eq_bind, Option.bind_eq_some_iff, Option.some.injEq, Prod.mk.injEq] at ht
    obtain ⟨a, -, e', -, -, rfl⟩ := ht
    exact hnil
  unfold insertBlockIndexEntry at h
  cases harr : s.currentIndexEntryArray with
  | none =>
      simp only [harr, Option.some.injEq, Prod.mk.injEq] at h
      rw [← h.2]
      exact hal
  | some a =>
      simp only [harr, Option.bind_eq_bind, Option.bind_eq_some_iff] at h
      obtain ⟨e₀, -, h⟩ := h
      split at h
      · simp only [Option.bind_eq_some_iff, Option.some.injEq, Prod.mk.injEq] at h
        obtain ⟨⟨e₁, s₁⟩, ht, -, rfl⟩ := h
        exact htake ht hal
      · cases mode with
        | cannotAlloc =>
            simp only [Option.some.injEq, Prod.mk.injEq] at h
            rw [← h.2]
            exact hal
        | canAlloc =>
            simp only [Option.bind_eq_some_iff] at h
            obtain ⟨⟨ok, s₁⟩, hcreate, h⟩ := h
            have hal₁ : s₁.allocs = [] := by
              obtain ⟨ok', allocs, halloc, hnil⟩ := allocateIndexArray_eq s
              obtain ⟨rfl, rfl⟩ := hnil hal
              simp only [createNewBlockIndexArray, halloc, Bool.not_true, Bool.false_eq_true, if_false,
                Option.bind_eq_bind, Option.bind_eq_some_iff, Option.some.injEq, Prod.mk.injEq] at hcreate
              obtain ⟨copied, -, -, rfl⟩ := hcreate
              rfl
            split at h
            · simp only [Option.some.injEq, Prod.mk.injEq] at h
              rw [← h.2]
              exact hal₁
            · simp only [Option.bind_eq_some_iff, Option.some.injEq, Prod.mk.injEq] at h
              obtain ⟨⟨e₁, s₂⟩, ht, -, rfl⟩ := h
              exact htake ht hal₁

theorem requisitionBlock_of_nil {mode : AllocMode} (hal : s.allocs = []) :
    (s.requisitionBlock mode).1 ≠ .threw ∧ (s.requisitionBlock mode).2.allocs = [] := by
  rw [requisitionBlock, hal]
  exact s.blockManager.requisitionBlock_of_nil mode

theorem Bulk.newBlocks_ne_threw {mode : AllocMode} {o : ℕ} : ∀ {need : ℕ} {b b' : Bulk α}, b.queue.allocs = [] →
    Bulk.newBlocks cfg mode o need b ≠ some (.threw, b') := by
  intro need
  induction need with
  | zero => rintro _ _ - ⟨⟩
  | succ need ih =>
      intro b b' hal h
      simp only [Bulk.newBlocks] at h
      split at h
      · exact absurd h (by rintro ⟨⟩)
      · simp only [Option.bind_eq_bind, Option.bind_eq_some_iff] at h
        obtain ⟨⟨e, s₁⟩, hins, h⟩ := h
        have hal₁ := allocs_insertBlockIndexEntry hal hins
        cases e with
        | none => exact absurd h (by rintro ⟨⟩)
        | some e =>
            obtain ⟨hne, hal₂⟩ := @requisitionBlock_of_nil α s₁ mode hal₁
            rcases hreq : s₁.requisitionBlock mode with ⟨_ | _ | _, s₂⟩
            · rename_i p
              rw [hreq] at hal₂
              simp only [hreq, Option.bind_eq_some_iff] at h
              obtain ⟨b₁, hlink, h⟩ := h
              refine ih ?_ h
              unfold Bulk.linkBlock at hlink
              split at hlink
              · simp only [Option.bind_eq_bind, Option.bind_eq_some_iff, Option.map_eq_some_iff, Option.some.injEq] at hlink
                obtain ⟨s₃, ⟨t, -, rfl⟩, rfl⟩ := hlink
                exact hal₂
              · simp only [Option.bind_eq_bind, Option.bind_some, Option.some.injEq] at hlink
                rw [← hlink]
                exact hal₂
            · simp only [hreq, Option.bind_eq_some_iff, Option.some.injEq, Prod.mk.injEq] at h
              obtain ⟨t, -, hres, -⟩ := h
              exact absurd hres (by rintro ⟨⟩)
            · rw [hreq] at hne
              exact hne rfl

theorem RequisitionThrows.allocs_ne {call : Call α} (h : RequisitionThrows cfg s call) : call.allocs ≠ [] := by
  intro hal
  cases call with
  | enqueue mode item allocs =>
      obtain rfl : allocs = [] := hal
      obtain ⟨-, e, s₁, s', -, hins, hreq⟩ := h
      obtain ⟨hne, -⟩ := @requisitionBlock_of_nil α s₁ mode (allocs_insertBlockIndexEntry rfl hins)
      rw [hreq] at hne
      exact hne rfl
  | enqueueBulk mode items allocs =>
      obtain rfl : allocs = [] := hal
      obtain ⟨b, hnew⟩ := h
      exact Bulk.newBlocks_ne_threw rfl hnew
  | dequeue => exact h
  | dequeueBulk maxCount => exact h

/-! ## The first requisition throws -/

/-- Where no block is in use, a requisition of which nothing is to be had leaves the manager alone. -/
theorem Layout.requisition_threw (h : Layout cfg s a c H K blk l) (hroom : (K + 1) * cfg.blockSize < H + 2 ^ (cfg.w - 1))
    (hdead : K ≤ H / cfg.blockSize) (hnone : s.blockManager.NoneFree) (hal : s.allocs.head? = some false)
    {mode : AllocMode} {e : ℕ} {s₁ s₂ : SlowQueue α} {r : Requisition}
    (hins : s.insertBlockIndexEntry cfg mode (K * cfg.blockSize % 2 ^ cfg.w) = some (some e, s₁))
    (hreq : s₁.requisitionBlock mode = (r, s₂)) : s₂.blockManager = s.blockManager ∧ ∀ p, r ≠ .block p := by
  rcases h.insertBlockIndexEntry hroom mode with ⟨s', hrun, -⟩ | ⟨s', a', c', hrun, honly, -, -, hstill, -⟩
  · rw [hins, Option.some.injEq, Prod.mk.injEq] at hrun
    exact absurd hrun.1 (by rintro ⟨⟩)
  · obtain ⟨-, rfl⟩ := Prod.mk.inj (Option.some.inj (hins.symm.trans hrun))
    have hm : s₁.blockManager = s.blockManager := by rw [honly.rest]
    rw [← hstill hdead] at hal
    rw [← hm] at hnone ⊢
    obtain ⟨allocs', hthrew⟩ := @BlockManager.NoneFree.requisitionBlock _ hnone mode _ hal
    simp only [SlowQueue.requisitionBlock] at hreq
    rcases hthrew with hthrew | hthrew
    · rw [hthrew] at hreq
      obtain ⟨rfl, rfl⟩ := Prod.mk.inj hreq
      exact ⟨rfl, by rintro _ ⟨⟩⟩
    · rw [hthrew] at hreq
      obtain ⟨rfl, rfl⟩ := Prod.mk.inj hreq
      exact ⟨rfl, by rintro _ ⟨⟩⟩

/-- In a bulk enqueue too it is the first requisition that throws. -/
theorem Layout.newBlocks_threw (h : Layout cfg s a c H K blk l) (hhead : s.headIndex = H % 2 ^ cfg.w)
    (hdead : K ≤ H / cfg.blockSize) (hnone : s.blockManager.NoneFree) (hal : s.allocs.head? = some false)
    {mode : AllocMode} {o need cti : ℕ} {f : Option ℕ} {b : Bulk α}
    (hcti : Word.add cfg.w cti cfg.blockSize = K * cfg.blockSize % 2 ^ cfg.w)
    (hnew : Bulk.newBlocks cfg mode o need ⟨s, cti, f⟩ = some (.threw, b)) :
    b.queue.blockManager = s.blockManager := by
  cases need with
  | zero => exact absurd hnew (by rintro ⟨⟩)
  | succ need =>
      have hfull := Inv.isFull_eq h hhead
      by_cases hroom : (K + 1) * cfg.blockSize < H + 2 ^ (cfg.w - 1)
      · rw [decide_eq_true hroom, Bool.not_true, ← hcti] at hfull
        simp only [Bulk.newBlocks, hfull, Bool.false_eq_true, if_false, Option.bind_eq_bind,
          Option.bind_eq_some_iff] at hnew
        obtain ⟨⟨e, s₁⟩, hins, hnew⟩ := hnew
        cases e with
        | none => exact absurd hnew (by rintro ⟨⟩)
        | some e =>
            rw [hcti] at hins
            rcases hreq : s₁.requisitionBlock mode with ⟨_ | _ | _, s₂⟩
            · exact absurd rfl ((h.requisition_threw hroom hdead hnone hal hins hreq).2 _)
            · simp only [hreq, Option.bind_eq_some_iff, Option.some.injEq, Prod.mk.injEq] at hnew
              obtain ⟨t, -, hres, -⟩ := hnew
              exact absurd hres (by rintro ⟨⟩)
            · simp only [hreq, Option.some.injEq, Prod.mk.injEq] at hnew
              rw [← hnew.2]
              exact (h.requisition_threw hroom hdead hnone hal hins hreq).1
      · rw [decide_eq_false hroom, Bool.not_false, ← hcti] at hfull
        simp only [Bulk.newBlocks, hfull, if_true] at hnew
        exact absurd hnew (by rintro ⟨⟩)

end SlowQueue

end LockFreeStructures
