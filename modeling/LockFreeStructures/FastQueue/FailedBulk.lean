import LockFreeStructures.FastQueue.Manager
import LockFreeStructures.FastQueue.Layout

/-!
# `FastQueue.FailedBulk` — what a bulk enqueue that returns false leaves behind

`RollBack` takes back the tail block and the position in the index, but not the blocks: one that was reused
has been reset, so it no longer counts as empty, and neither does a new one. The producer is left as it was
just when the call failed at its first block.
-/

namespace LockFreeStructures

namespace BlockManager

/-- A requisition takes no block back. -/
theorem Requisitions.mem_outstanding {m m' : BlockManager} (h : Requisitions m m') (hm : m.WF) {p : ℕ}
    (hp : p ∈ m.outstanding) : p ∈ m'.outstanding := by
  induction h with
  | refl => exact hp
  | tail hhead hstep ih =>
      obtain ⟨mode, allocs, rfl⟩ := hstep
      rcases (Requisitions.wf hhead hm).requisitionBlock_cases mode allocs with
        ⟨q, allocs', m', hreq, -, -, hout, -⟩ | ⟨hreq, -⟩ | ⟨allocs', hreq, -⟩
      · rw [hreq]
        show p ∈ m'.outstanding
        rw [hout]
        exact List.mem_cons_of_mem _ ih
      · rw [hreq]
        exact ih
      · rw [hreq]
        exact ih

end BlockManager

namespace FastQueue

open BlockManager

variable {α : Type} {cfg : Cfg} {s s' : FastQueue α} {p q : ℕ}

/-- The block `n` links behind block `p`. -/
def nextBlock (s : FastQueue α) : ℕ → ℕ → Option ℕ
  | 0, p => some p
  | n + 1, p => (s.blocks p).next.bind (s.nextBlock n)

/-- The ring of the tail block reaches the block. -/
def InRing (s : FastQueue α) (p : ℕ) : Prop := ∃ t n, s.tailBlock = some t ∧ s.nextBlock n t = some p

/-- **Left as it was.** After the call every run in which no enqueue would have failed gives what it would
    have given; blocks that could be reused still can; no block is outside the ring but those that were;
    a block gained is a spare one, which can be reused; and `Clear` destroys the same elements. -/
structure LeftAsItWas (cfg : Cfg) (s s' : FastQueue α) : Prop where
  later : ∀ calls rs t, s.run cfg calls = some (rs, t) → (∀ r ∈ rs, r.1 ≠ .enqueued (.returned false)) →
    ∃ t', s'.run cfg calls = some (rs, t')
  reusable : ∀ p, s.InRing p → s.blockIsEmpty cfg p = true → s'.InRing p ∧ s'.blockIsEmpty cfg p = true
  kept : ∀ p ∈ s'.blockManager.outstanding, ¬ s'.InRing p → p ∈ s.blockManager.outstanding ∧ ¬ s.InRing p
  spare : ∀ p ∈ s'.blockManager.outstanding, p ∉ s.blockManager.outstanding → s'.blockIsEmpty cfg p = true
  cleared : ∀ t, (s.begin []).clear cfg = some t → ∃ t', (s'.begin []).clear cfg = some t' ∧
    t'.events.filter Event.isDestroyed = t.events.filter Event.isDestroyed

/-- **The call fails at its first block**: there is no empty block behind the tail block, and the index range
    is used up, or there is no entry for a new block and the call may not or cannot allocate more, or there
    is no block to be had without allocating one. -/
structure FirstBlockRefused (cfg : Cfg) (mode : AllocMode) (allocs : List Bool) (s : FastQueue α) : Prop where
  noEmpty : s.nextIsEmpty cfg = some false
  noNew : s.isFull cfg (Word.add cfg.w (Word.alignDown cfg.blockSizeLog2 (Word.sub cfg.w s.tailIndex 1))
        cfg.blockSize) = true ∨
    s.indexExhausted = true ∧ (mode = .cannotAlloc ∨ false ∈ allocs.take 2) ∨
    mode = .cannotAlloc ∧ s.blockManager.poolSize ≤ s.blockManager.poolIndex ∧ s.blockManager.freeList = []

/-! ## Failing at the first block -/

/-- The index array is replaced unless one of the two allocations for it fails. -/
theorem createNewBlockIndexArray_cases (cfg : Cfg) (filledSlot : ℕ) (s : FastQueue α) :
    (false ∈ s.allocs.take 2 ∧
      ∃ allocs, s.createNewBlockIndexArray cfg filledSlot = some (false, { s with allocs := allocs })) ∨
    (false ∉ s.allocs.take 2 ∧
      ∀ ok s', s.createNewBlockIndexArray cfg filledSlot = some (ok, s') → ok = true) := by
  rcases hal : s.allocs with - | ⟨ok₁, - | ⟨ok₂, rest⟩⟩
  · refine Or.inr ⟨by simp, fun ok s' h => ?_⟩
    simp only [createNewBlockIndexArray, allocate, LockFreeStructures.allocate, hal, Bool.not_true,
      Bool.false_eq_true, if_false, Option.bind_eq_bind, Option.bind_eq_some_iff, Option.some.injEq,
      Prod.mk.injEq] at h
    exact h.choose_spec.2.1.symm
  · cases ok₁ with
    | false =>
        exact Or.inl ⟨by simp, [], by simp [createNewBlockIndexArray, allocate, LockFreeStructures.allocate, hal]⟩
    | true =>
        refine Or.inr ⟨by simp, fun ok s' h => ?_⟩
        simp only [createNewBlockIndexArray, allocate, LockFreeStructures.allocate, hal, Bool.not_true,
          Bool.false_eq_true, if_false, Option.bind_eq_bind, Option.bind_eq_some_iff, Option.some.injEq,
          Prod.mk.injEq] at h
        exact h.choose_spec.2.1.symm
  · cases ok₁ with
    | false =>
        exact Or.inl ⟨by simp, ok₂ :: rest,
          by simp [createNewBlockIndexArray, allocate, LockFreeStructures.allocate, hal]⟩
    | true =>
        cases ok₂ with
        | false =>
            exact Or.inl ⟨by simp, rest,
              by simp [createNewBlockIndexArray, allocate, LockFreeStructures.allocate, hal]⟩
        | true =>
            refine Or.inr ⟨by simp, fun ok s' h => ?_⟩
            simp only [createNewBlockIndexArray, allocate, LockFreeStructures.allocate, hal, Bool.not_true,
              Bool.false_eq_true, if_false, Option.bind_eq_bind, Option.bind_eq_some_iff, Option.some.injEq,
              Prod.mk.injEq] at h
            exact h.choose_spec.2.1.symm

/-- Why a new block is refused. -/
def NewBlockRefused (cfg : Cfg) (mode : AllocMode) (cti : ℕ) (s : FastQueue α) : Prop :=
  s.isFull cfg cti = true ∨
    s.indexExhausted = true ∧ (mode = .cannotAlloc ∨ false ∈ s.allocs.take 2) ∨
    mode = .cannotAlloc ∧ s.blockManager.poolSize ≤ s.blockManager.poolIndex ∧ s.blockManager.freeList = []

/-- A refusal leaves the queue as it was. -/
theorem acquireNewBlock_of_refused {mode : AllocMode} {cti : ℕ} (used : ℕ)
    (h : s.NewBlockRefused cfg mode cti) :
    ∃ allocs, s.acquireNewBlock cfg mode cti used = some (.refused, false, { s with allocs := allocs }) := by
  unfold acquireNewBlock ensureIndexEntry
  by_cases hfull : s.isFull cfg cti = true
  · exact ⟨s.allocs, by rw [if_pos hfull]⟩
  · rw [if_neg hfull]
    by_cases hex : s.indexExhausted = true
    · cases mode with
      | cannotAlloc => exact ⟨s.allocs, by simp [hex]⟩
      | canAlloc =>
          have hfalse : false ∈ s.allocs.take 2 := by
            rcases h with h | ⟨-, h⟩ | ⟨h, -⟩
            · exact absurd h hfull
            · exact h.resolve_left nofun
            · exact absurd h nofun
          rcases createNewBlockIndexArray_cases cfg used s with ⟨-, allocs, hcreate⟩ | ⟨hno, -⟩
          · exact ⟨allocs, by simp [hex, hcreate]⟩
          · exact absurd hfalse hno
    · obtain ⟨rfl, hpool, hfree⟩ := (h.resolve_left hfull).resolve_left fun h => hex h.1
      have hnull := (BlockManager.requisitionBlock_eq_null_iff .cannotAlloc s.allocs s.blockManager).mpr
        ⟨rfl, hpool, hfree⟩
      rcases hreq : s.blockManager.requisitionBlock .cannotAlloc s.allocs with ⟨r, allocs, m⟩
      obtain rfl : r = .null := by rwa [hreq] at hnull
      have hm : m = s.blockManager := by
        have hget : s.blockManager.getBlock = (none, s.blockManager) := if_neg (Nat.not_lt.mpr hpool)
        have htry : s.blockManager.tryGet = (none, s.blockManager) := by simp only [tryGet, hfree]
        simp only [BlockManager.requisitionBlock, hget, htry, Prod.mk.injEq] at hreq
        exact hreq.2.2.symm
      exact ⟨allocs, by simp [hex, hreq, hm]⟩

/-- A new block is refused for these reasons only. -/
theorem newBlockRefused_of_eq {mode : AllocMode} {cti used : ℕ} {grew : Bool}
    (h : s.acquireNewBlock cfg mode cti used = some (.refused, grew, s')) : s.NewBlockRefused cfg mode cti := by
  unfold acquireNewBlock ensureIndexEntry at h
  by_cases hfull : s.isFull cfg cti = true
  · exact Or.inl hfull
  · rw [if_neg hfull] at h
    -- a requisition that gives a null pointer
    have hnull : ∀ s₁ : FastQueue α, s₁.blockManager = s.blockManager → ∀ allocs m,
        s₁.blockManager.requisitionBlock mode s₁.allocs = (.null, allocs, m) → s.NewBlockRefused cfg mode cti := by
      intro s₁ hm allocs m hreq
      have := (BlockManager.requisitionBlock_eq_null_iff mode s₁.allocs s₁.blockManager).mp (by rw [hreq])
      rw [hm] at this
      exact Or.inr (Or.inr this)
    by_cases hex : s.indexExhausted = true
    · cases mode with
      | cannotAlloc => exact Or.inr (Or.inl ⟨hex, Or.inl rfl⟩)
      | canAlloc =>
          rcases createNewBlockIndexArray_cases cfg used s with ⟨hfalse, -⟩ | ⟨-, hok⟩
          · exact Or.inr (Or.inl ⟨hex, Or.inr hfalse⟩)
          · simp only [hex, if_true, Option.bind_eq_bind, Option.bind_eq_some_iff, Option.some.injEq] at h
            obtain ⟨-, ⟨⟨ok, s₁⟩, hcreate, rfl⟩, h⟩ := h
            obtain rfl := hok ok s₁ hcreate
            rcases hreq : s₁.blockManager.requisitionBlock .canAlloc s₁.allocs with ⟨r, allocs, m⟩
            cases r with
            | null => exact hnull s₁ (fixed_createNewBlockIndexArray hcreate).blockManager allocs m hreq
            | threw => simp [hreq] at h
            | block p => simp [hreq] at h
    · simp only [if_neg hex, Option.bind_eq_bind, Option.bind_some, Bool.not_true, Bool.false_eq_true, if_false] at h
      rcases hreq : s.blockManager.requisitionBlock mode s.allocs with ⟨r, allocs, m⟩
      cases r with
      | null => exact hnull s rfl allocs m hreq
      | threw => simp [hreq] at h
      | block p => simp [hreq] at h

/-! ## A block got is not an empty one -/

/-- Blocks that are not empty stay so. -/
def NotEmptyKept (cfg : Cfg) (s s' : FastQueue α) : Prop :=
  ∀ q, s.blockIsEmpty cfg q = false → s'.blockIsEmpty cfg q = false

namespace NotEmptyKept

theorem of_blocks (h : s'.blocks = s.blocks) : NotEmptyKept cfg s s' := fun q hq => by
  rw [blockIsEmpty, h]
  exact hq

theorem trans {s'' : FastQueue α} (h : NotEmptyKept cfg s s') (h' : NotEmptyKept cfg s' s'') :
    NotEmptyKept cfg s s'' := fun q hq => h' q (h q hq)

end NotEmptyKept

theorem blockIsEmpty_reset (cfg : Cfg) (p : ℕ) (s : FastQueue α) :
    (s.modifyPolicy p .reset).blockIsEmpty cfg p = false ∧ NotEmptyKept cfg s (s.modifyPolicy p .reset) := by
  have hself : (s.modifyPolicy p .reset).blockIsEmpty cfg p = false := by
    rw [blockIsEmpty, policy_modifyPolicy_self]
    exact FlagsCheckPolicy.isEmpty_reset cfg.blockSize_pos
  refine ⟨hself, fun q hq => ?_⟩
  by_cases hqp : q = p
  · rw [hqp]
    exact hself
  · rw [blockIsEmpty, policy_modifyPolicy_of_ne _ hqp]
    exact hq

theorem reuseNext_spec (cfg : Cfg) (h : s.reuseNext = some s') :
    ∃ t n, s.tailBlock = some t ∧ (s.blocks t).next = some n ∧ s'.blockIsEmpty cfg n = false ∧
      NotEmptyKept cfg s s' := by
  simp only [reuseNext, Option.bind_eq_bind, Option.bind_eq_some_iff, Option.some.injEq] at h
  obtain ⟨t, ht, n, hn, rfl⟩ := h
  obtain ⟨hself, hkept⟩ := blockIsEmpty_reset cfg n { s with tailBlock := some n }
  exact ⟨t, n, ht, hn, hself, hkept⟩

theorem blocks_writeEntry {base : ℕ} (h : s.writeEntry base = some s') : s'.blocks = s.blocks := by
  unfold writeEntry at h
  split at h
  · simp only [Option.map_eq_some_iff] at h
    obtain ⟨-, -, rfl⟩ := h
    rfl
  · exact absurd h (by simp)

theorem blocks_createNewBlockIndexArray {filledSlot : ℕ} {ok : Bool}
    (h : s.createNewBlockIndexArray cfg filledSlot = some (ok, s')) : s'.blocks = s.blocks := by
  rcases createNewBlockIndexArray_cases cfg filledSlot s with ⟨-, allocs, heq⟩ | ⟨hno, hok⟩
  · rw [heq, Option.some.injEq, Prod.mk.injEq] at h
    rw [← h.2]
  · obtain rfl := hok ok s' h
    unfold createNewBlockIndexArray at h
    rcases hal : s.allocate with ⟨ok₁, s₁⟩
    have hb₁ : s₁.blocks = s.blocks := by rw [← (Prod.mk.inj hal).2]
    rcases hal' : s₁.allocate with ⟨ok₂, s₂⟩
    have hb₂ : s₂.blocks = s.blocks := by rw [← (Prod.mk.inj hal').2, ← hb₁]
    cases ok₁ <;> cases ok₂ <;> simp only [hal, hal', Bool.not_true, Bool.not_false, Bool.false_eq_true, if_true,
      if_false, Option.bind_eq_bind, Option.bind_eq_some_iff, Option.some.injEq, Prod.mk.injEq, false_and] at h
    obtain ⟨-, -, -, rfl⟩ := h
    exact hb₂

theorem acquireNewBlock_spec {mode : AllocMode} {cti used : ℕ} {r : Acquisition} {grew : Bool}
    (h : s.acquireNewBlock cfg mode cti used = some (r, grew, s')) :
    NotEmptyKept cfg s s' ∧ (r = .acquired → s.blockManager.WF →
      ∃ p ∈ s'.blockManager.outstanding, p ∉ s.blockManager.outstanding ∧ s'.blockIsEmpty cfg p = false) := by
  unfold acquireNewBlock at h
  split at h
  · simp only [Option.some.injEq, Prod.mk.injEq] at h
    obtain ⟨rfl, -, rfl⟩ := h
    exact ⟨.of_blocks rfl, nofun⟩
  · simp only [Option.bind_eq_bind, Option.bind_eq_some_iff] at h
    obtain ⟨⟨ready, grew', s₁⟩, hens, h⟩ := h
    have hm := (fixed_ensureIndexEntry hens).blockManager
    have hb : s₁.blocks = s.blocks := by
      unfold ensureIndexEntry at hens
      split at hens
      · cases mode with
        | cannotAlloc =>
            simp only [Option.some.injEq, Prod.mk.injEq] at hens
            rw [← hens.2.2]
        | canAlloc =>
            simp only [Option.bind_eq_bind, Option.bind_eq_some_iff, Option.some.injEq, Prod.mk.injEq] at hens
            obtain ⟨⟨ok, s₂⟩, hcreate, -, -, rfl⟩ := hens
            exact blocks_createNewBlockIndexArray hcreate
      · simp only [Option.some.injEq, Prod.mk.injEq] at hens
        rw [← hens.2.2]
    cases ready with
    | false =>
        simp only [Bool.not_false, if_true, Option.some.injEq, Prod.mk.injEq] at h
        obtain ⟨rfl, -, rfl⟩ := h
        exact ⟨.of_blocks hb, nofun⟩
    | true =>
        rcases hreq : s₁.blockManager.requisitionBlock mode s₁.allocs with ⟨res, allocs, m⟩
        cases res with
        | null =>
            simp only [hreq, Bool.not_true, Bool.false_eq_true, if_false, Option.some.injEq, Prod.mk.injEq] at h
            obtain ⟨rfl, -, rfl⟩ := h
            exact ⟨.of_blocks hb, nofun⟩
        | threw =>
            simp only [hreq, Bool.not_true, Bool.false_eq_true, if_false, Option.some.injEq, Prod.mk.injEq] at h
            obtain ⟨rfl, -, rfl⟩ := h
            exact ⟨.of_blocks hb, nofun⟩
        | block p =>
            simp only [hreq, Bool.not_true, Bool.false_eq_true, if_false, Option.some.injEq, Prod.mk.injEq] at h
            obtain ⟨rfl, -, rfl⟩ := h
            obtain ⟨hself, hkept⟩ := blockIsEmpty_reset cfg p { s₁ with blockManager := m, allocs := allocs }
            -- linking the block in changes no policy
            have hsplice : ∀ s₂ : FastQueue α, ∀ q, (s₂.spliceBlock p).blockIsEmpty cfg q = s₂.blockIsEmpty cfg q := by
              intro s₂ q
              rw [blockIsEmpty, policy_spliceBlock]
              rfl
            refine ⟨fun q hq => ?_, fun _ hwf => ⟨p, ?_, ?_, ?_⟩⟩
            · rw [hsplice]
              exact hkept q (NotEmptyKept.of_blocks hb q hq)
            · rcases (hm ▸ hwf : s₁.blockManager.WF).requisitionBlock_cases mode s₁.allocs with
                ⟨p', allocs', m', heq, hnew, -, hout, -⟩ | ⟨heq, -⟩ | ⟨allocs', heq, -⟩
              · rw [hreq, Prod.mk.injEq, Prod.mk.injEq, Requisition.block.injEq] at heq
                rw [blockManager_spliceBlock]
                show p ∈ m.outstanding
                rw [heq.2.2, hout, heq.1]
                exact List.mem_cons_self
              · simp [hreq] at heq
              · simp [hreq] at heq
            · rcases (hm ▸ hwf : s₁.blockManager.WF).requisitionBlock_cases mode s₁.allocs with
                ⟨p', allocs', m', heq, hnew, -, hout, -⟩ | ⟨heq, -⟩ | ⟨allocs', heq, -⟩
              · rw [hreq, Prod.mk.injEq, Prod.mk.injEq, Requisition.block.injEq] at heq
                rw [heq.1, ← hm]
                exact hnew
              · simp [hreq] at heq
              · simp [hreq] at heq
            · rw [hsplice]
              exact hself

theorem notEmptyKept_enterBlock (cfg : Cfg) {b b' : Bulk α} (h : b.enterBlock = some b') :
    NotEmptyKept cfg b.queue b'.queue := by
  simp only [Bulk.enterBlock, Option.map_eq_some_iff] at h
  obtain ⟨s₁, hwrite, rfl⟩ := h
  have hblocks : s₁.blocks = b.queue.blocks := blocks_writeEntry hwrite
  exact .of_blocks hblocks

theorem notEmptyKept_reuseBlocks {need need' : ℕ} {b b' : Bulk α}
    (h : Bulk.reuseBlocks cfg need b = some (need', b')) : NotEmptyKept cfg b.queue b'.queue := by
  induction need generalizing b with
  | zero =>
      simp only [Bulk.reuseBlocks, Option.some.injEq, Prod.mk.injEq] at h
      exact .of_blocks (by rw [h.2])
  | succ need ih =>
      simp only [Bulk.reuseBlocks, Option.bind_eq_bind, Option.bind_eq_some_iff] at h
      obtain ⟨yes, -, h⟩ := h
      split at h
      · simp only [Option.bind_eq_some_iff] at h
        obtain ⟨s₁, hreuse, b₁, henter, h⟩ := h
        obtain ⟨t, n, -, -, -, hkept⟩ := reuseNext_spec cfg hreuse
        have henter' := notEmptyKept_enterBlock cfg henter
        exact hkept.trans (henter'.trans (ih h))
      · simp only [Option.some.injEq, Prod.mk.injEq] at h
        exact .of_blocks (by rw [h.2])

theorem notEmptyKept_newBlocks {mode : AllocMode} {used need : ℕ} {b b' : Bulk α} {r : Acquisition}
    (h : Bulk.newBlocks cfg mode used need b = some (r, b')) : NotEmptyKept cfg b.queue b'.queue := by
  induction need generalizing b with
  | zero =>
      simp only [Bulk.newBlocks, Option.some.injEq, Prod.mk.injEq] at h
      exact .of_blocks (by rw [h.2])
  | succ need ih =>
      simp only [Bulk.newBlocks, Option.bind_eq_bind, Option.bind_eq_some_iff] at h
      obtain ⟨⟨res, grew, s⟩, hacq, h⟩ := h
      have hkept := (acquireNewBlock_spec hacq).1
      cases res with
      | refused =>
          simp only [Option.some.injEq, Prod.mk.injEq] at h
          rw [← h.2]
          exact hkept
      | threw =>
          simp only [Option.some.injEq, Prod.mk.injEq] at h
          rw [← h.2]
          exact hkept
      | acquired =>
          simp only [Option.bind_eq_some_iff] at h
          obtain ⟨b₁, henter, h⟩ := h
          have henter' := notEmptyKept_enterBlock cfg henter
          exact hkept.trans (henter'.trans (ih h))

/-! ## Leaving the producer as it was -/

theorem run_begin (cfg : Cfg) (calls : List (Call α)) {rs : List (Result α × ℕ)} {t : FastQueue α}
    (hs : s'.begin [] = s.begin []) (h : s.run cfg calls = some (rs, t)) :
    ∃ t', s'.run cfg calls = some (rs, t') := by
  cases calls with
  | nil =>
      simp only [run, Option.some.injEq, Prod.mk.injEq] at h ⊢
      exact ⟨s', h.1, rfl⟩
  | cons c calls =>
      -- a call does not read what the one before left in `allocs` and `events`
      have hbegin : ∀ allocs, s'.begin allocs = s.begin allocs := fun allocs => by
        have : (s'.begin []).begin allocs = (s.begin []).begin allocs := by rw [hs]
        exact this
      have hexec : s'.exec cfg c = s.exec cfg c := by
        cases c <;> simp only [exec, hbegin]
      refine ⟨t, ?_⟩
      rw [run, hexec]
      exact h

theorem leftAsItWas_of_begin (hs : s'.begin [] = s.begin []) : LeftAsItWas cfg s s' := by
  have hblocks : s'.blocks = s.blocks := (congrArg FastQueue.blocks hs :)
  have htail : s'.tailBlock = s.tailBlock := (congrArg FastQueue.tailBlock hs :)
  have hman : s'.blockManager = s.blockManager := (congrArg FastQueue.blockManager hs :)
  have hempty : ∀ p, s'.blockIsEmpty cfg p = s.blockIsEmpty cfg p := fun p => by
    rw [blockIsEmpty, hblocks]
    rfl
  have hnext : ∀ n p, s'.nextBlock n p = s.nextBlock n p := by
    intro n
    induction n with
    | zero => exact fun _ => rfl
    | succ n ih =>
        intro p
        rw [nextBlock, nextBlock, hblocks]
        congr 1
        exact funext ih
  have hring : ∀ p, s'.InRing p ↔ s.InRing p := fun p => by
    unfold InRing
    simp only [htail, hnext]
  refine ⟨fun calls rs t h _ => run_begin cfg calls hs h, fun p hp he => ⟨(hring p).mpr hp, ?_⟩,
    fun p hp hnot => ⟨?_, fun hr => hnot ((hring p).mpr hr)⟩, fun p hp hnot => absurd ?_ hnot, fun t h => ?_⟩
  · rw [hempty]
    exact he
  · rwa [← hman]
  · rwa [← hman]
  · rw [hs]
    exact ⟨t, h, rfl⟩

/-- What a bulk enqueue did that returned false. -/
theorem enqueueBulk_false {mode : AllocMode} {items : List (Option α)}
    (h : s.enqueueBulk cfg mode items = some (.returned false, s')) :
    ∃ need b b', Bulk.reuseBlocks cfg (blockCountNeed cfg s.tailIndex items.length) (.start cfg s) = some (need, b) ∧
      Bulk.newBlocks cfg mode s.indexEntriesUsed need b = some (.refused, b') ∧ s' = b'.rollBack s.tailBlock := by
  simp only [enqueueBulk, Option.bind_eq_bind, Option.bind_eq_some_iff] at h
  obtain ⟨⟨need, b⟩, hreuse, ⟨r, b'⟩, hnew, h⟩ := h
  cases r with
  | refused =>
      simp only [Option.some.injEq, Prod.mk.injEq, true_and] at h
      exact ⟨need, b, b', hreuse, hnew, h.symm⟩
  | threw => simp at h
  | acquired =>
      simp only [Option.bind_eq_some_iff] at h
      obtain ⟨first, -, ⟨r, cur, i, t⟩, -, h⟩ := h
      cases r with
      | threw => simp [Option.bind_eq_some_iff] at h
      | returned u => simp [Option.bind_eq_some_iff] at h

/-- **A bulk enqueue that returned false leaves the producer as it was just when it failed at its first
    block.** -/
theorem leftAsItWas_iff_firstBlockRefused (cfg : Cfg) (inSize poolSize : ℕ) (allocs₀ : List Bool)
    {s₀ s s' : FastQueue α} {calls : List (Call α)} {rs : List (Result α × ℕ)} {mode : AllocMode}
    {items : List (Option α)} {allocs : List Bool} (hfresh : fresh cfg inSize poolSize allocs₀ = some s₀)
    (hrun : s₀.run cfg calls = some (rs, s))
    (hexec : s.exec cfg (.enqueueBulk mode items allocs) = some (.enqueued (.returned false), s')) :
    LeftAsItWas cfg s s' ↔ FirstBlockRefused cfg mode allocs s := by
  have hwf : s.blockManager.WF := by
    have hman₀ : s₀.blockManager = .fresh poolSize := by
      simp only [fresh, Option.map_eq_some_iff] at hfresh
      obtain ⟨⟨ok, s₁⟩, hcreate, rfl⟩ := hfresh
      exact (fixed_createNewBlockIndexArray hcreate).blockManager.trans rfl
    exact (requisitions_run hrun).wf (hman₀ ▸ .fresh poolSize)
  simp only [exec, Option.map_eq_some_iff, Prod.mk.injEq, Result.enqueued.injEq] at hexec
  obtain ⟨⟨r, s₁⟩, hbulk, rfl, rfl⟩ := hexec
  obtain ⟨need, b, b', hreuse, hnew, rfl⟩ := enqueueBulk_false hbulk
  have hempty' : ∀ q, b'.queue.blockIsEmpty cfg q = false → (b'.rollBack (s.begin allocs).tailBlock).blockIsEmpty cfg q = false :=
    fun _ h => h
  cases hcount : blockCountNeed cfg (s.begin allocs).tailIndex items.length with
  | zero =>
      -- with no block needed the call does not fail
      rw [hcount] at hreuse
      simp only [Bulk.reuseBlocks, Option.some.injEq, Prod.mk.injEq] at hreuse
      rw [← hreuse.1] at hnew
      simp [Bulk.newBlocks] at hnew
  | succ n =>
      rw [hcount] at hreuse
      simp only [Bulk.reuseBlocks, Option.bind_eq_bind, Option.bind_eq_some_iff] at hreuse
      obtain ⟨yes, hyes, hreuse⟩ := hreuse
      have hyes' : s.nextIsEmpty cfg = some yes := hyes
      cases yes with
      | true =>
          -- the block behind the tail block has been reset
          simp only [if_true, Option.bind_eq_some_iff] at hreuse
          obtain ⟨s₁, hreuse₁, b₁, henter, hreuse⟩ := hreuse
          obtain ⟨t, q, ht, hq, hempty, -⟩ := reuseNext_spec cfg hreuse₁
          have hkept := ((notEmptyKept_enterBlock cfg henter).trans (notEmptyKept_reuseBlocks hreuse)).trans
            (notEmptyKept_newBlocks hnew)
          have hwas : s.blockIsEmpty cfg q = true := by
            have ht' : s.tailBlock = some t := ht
            have hq' : (s.blocks t).next = some q := hq
            simp only [nextIsEmpty, ht', hq', Option.map_some, Option.some.injEq] at hyes'
            exact hyes'
          refine iff_of_false (fun h => ?_) fun h => absurd (hyes'.symm.trans h.noEmpty) (by simp)
          have hnow := (h.reusable q ⟨t, 1, ht, by simp [nextBlock, show (s.blocks t).next = some q from hq]⟩ hwas).2
          exact absurd (hnow.symm.trans (hempty' q (hkept q hempty))) (by simp)
      | false =>
          simp only [Bool.false_eq_true, if_false, Option.some.injEq, Prod.mk.injEq] at hreuse
          obtain ⟨rfl, rfl⟩ := hreuse
          simp only [Bulk.newBlocks, Option.bind_eq_bind, Option.bind_eq_some_iff] at hnew
          obtain ⟨⟨res, grew, s₁⟩, hacq, hnew⟩ := hnew
          cases res with
          | threw => simp at hnew
          | refused =>
              have hwhy : (s.begin allocs).NewBlockRefused cfg mode _ := newBlockRefused_of_eq hacq
              refine iff_of_true (leftAsItWas_of_begin ?_) ⟨hyes', hwhy⟩
              obtain ⟨allocs', heq⟩ := acquireNewBlock_of_refused (s.begin allocs).indexEntriesUsed hwhy
              have heq' := hacq.symm.trans heq
              simp only [Option.some.injEq, Prod.mk.injEq, true_and] at heq'
              obtain ⟨rfl, rfl⟩ := heq'
              simp only [Bool.false_eq_true, if_false, Option.some.injEq, Prod.mk.injEq, true_and] at hnew
              rw [← hnew]
              rfl
          | acquired =>
              simp only [Option.bind_eq_some_iff] at hnew
              obtain ⟨b₁, henter, hnew⟩ := hnew
              obtain ⟨-, hspec⟩ := acquireNewBlock_spec hacq
              obtain ⟨p, hp, hpnew, hempty⟩ := hspec rfl hwf
              have hkept := (notEmptyKept_enterBlock cfg henter).trans (notEmptyKept_newBlocks hnew)
              have hreq := ((acquires_acquireNewBlock hacq).requisitions)
              refine iff_of_false (fun h => ?_) fun h => ?_
              · have hp' : p ∈ b'.queue.blockManager.outstanding := by
                  refine ((acquires_newBlocks hnew).requisitions).mem_outstanding ?_ ?_
                  · rw [(fixed_enterBlock henter).blockManager]
                    exact hreq.wf hwf
                  · rw [(fixed_enterBlock henter).blockManager]
                    exact hp
                exact absurd ((h.spare p hp' hpnew).symm.trans (hempty' p (hkept p hempty))) (by simp)
              · obtain ⟨allocs', heq⟩ := acquireNewBlock_of_refused (s.begin allocs).indexEntriesUsed
                  (s := s.begin allocs) h.noNew
                have heq' := hacq.symm.trans heq
                simp at heq'

/-- A call that fails at its first block, both blocks of the pool being in use. -/
theorem leftAsItWas_iff_firstBlockRefused_full : ∃ s₀ rs s s',
    fresh ⟨8, 1, by decide, by decide⟩ 4 2 [] = some s₀ ∧
      s₀.run ⟨8, 1, by decide, by decide⟩ [.enqueueBulk .cannotAlloc [some 1, some 2, some 3, some 4] []] = some (rs, s) ∧
      s.exec ⟨8, 1, by decide, by decide⟩ (.enqueueBulk .cannotAlloc [some 5] []) =
        some (.enqueued (.returned false), s') ∧
      (LeftAsItWas ⟨8, 1, by decide, by decide⟩ (s : FastQueue ℕ) s' ↔
        FirstBlockRefused ⟨8, 1, by decide, by decide⟩ .cannotAlloc [] s) := by
  have hruns : ((fresh ⟨8, 1, by decide, by decide⟩ 4 2 []).bind fun s₀ : FastQueue ℕ =>
      (s₀.run ⟨8, 1, by decide, by decide⟩ [.enqueueBulk .cannotAlloc [some 1, some 2, some 3, some 4] []]).bind
        fun t => (t.2.exec ⟨8, 1, by decide, by decide⟩ (.enqueueBulk .cannotAlloc [some 5] [])).map Prod.fst) =
      some (.enqueued (.returned false)) := by decide +kernel
  simp only [Option.bind_eq_some_iff, Option.map_eq_some_iff] at hruns
  obtain ⟨s₀, hfresh, ⟨rs, s⟩, hrun, ⟨_, s'⟩, hexec, rfl⟩ := hruns
  exact ⟨s₀, rs, s, s', hfresh, hrun, hexec, leftAsItWas_iff_firstBlockRefused _ 4 2 [] hfresh hrun hexec⟩

/-- With both blocks of the pool empty again, a bulk enqueue of three blocks resets them before it fails,
    and then there is no block for a single element. -/
theorem not_leftAsItWas : ¬ ∀ (cfg : Cfg) (inSize poolSize : ℕ) (s₀ s s' : FastQueue ℕ) (calls : List (Call ℕ))
    (rs : List (Result ℕ × ℕ)) (mode : AllocMode) (items : List (Option ℕ)) (allocs : List Bool),
    items ≠ [] → fresh cfg inSize poolSize [] = some s₀ → s₀.run cfg calls = some (rs, s) →
    s.exec cfg (.enqueueBulk mode items allocs) = some (.enqueued (.returned false), s') →
    LeftAsItWas cfg s s' := by
  intro h
  have hruns : ((fresh ⟨8, 1, by decide, by decide⟩ 4 2 []).bind fun s₀ : FastQueue ℕ =>
      (s₀.run ⟨8, 1, by decide, by decide⟩
        [.enqueueBulk .cannotAlloc [some 1, some 2, some 3, some 4] [], .dequeueBulk 4]).bind fun t =>
      (t.2.exec ⟨8, 1, by decide, by decide⟩
        (.enqueueBulk .cannotAlloc [some 1, some 2, some 3, some 4, some 5, some 6] [])).bind fun u =>
      (t.2.run ⟨8, 1, by decide, by decide⟩ [.enqueue .cannotAlloc (some 1) []]).bind fun v =>
      (u.2.run ⟨8, 1, by decide, by decide⟩ [.enqueue .cannotAlloc (some 1) []]).map fun v' =>
      (u.1, v.1, v'.1)) =
      some (.enqueued (.returned false), [(.enqueued (.returned true), 1)], [(.enqueued (.returned false), 0)]) := by
    decide +kernel
  simp only [Option.bind_eq_some_iff, Option.map_eq_some_iff, Prod.mk.injEq] at hruns
  obtain ⟨s₀, hfresh, ⟨rs, s⟩, hrun, ⟨_, s'⟩, hexec, ⟨_, t⟩, hlater, ⟨_, t'⟩, hlater', rfl, rfl, rfl⟩ := hruns
  obtain ⟨u, hsame⟩ := (h _ _ _ s₀ s s' _ rs _ _ _ (by simp) hfresh hrun hexec).later _ _ t hlater (by simp)
  rw [hlater'] at hsame
  simp at hsame

end FastQueue

end LockFreeStructures
