import LockFreeStructures.SlowQueue.Fifo

/-!
# `SlowQueue.FailedBulk` — what a bulk enqueue that fails leaves behind

`RollBack` takes everything back, whichever block was refused and whichever constructor threw. The index array may
have grown in between; it stays as large as it is.
-/

namespace LockFreeStructures

namespace SlowQueue

variable {α : Type} {cfg : Cfg} {s s₀ s' : SlowQueue α} {H : ℕ} {blk : ℕ → ℕ} {l : List α}

/-- **Step.** Unless a requisition throws, a bulk enqueue that does not return true takes everything back. -/
theorem Inv.takenBack (h : Inv cfg s H blk l) {mode : AllocMode} {items : List (Option α)} {allocs : List Bool}
    {o : Outcome Bool} (hitems : items ≠ []) (hsmall : items.length + cfg.blockSize ≤ 2 ^ cfg.w)
    (hexec : s.exec cfg (.enqueueBulk mode items allocs) = some (.enqueued o, s')) (ho : o ≠ .returned true)
    (hthrow : o = .threw → ¬ RequisitionThrows cfg s (.enqueueBulk mode items allocs)) :
    (∃ blk', Inv cfg s' H blk' l) ∧ TakenBack cfg mode items.length (s.begin allocs) s' := by
  obtain ⟨r, s₁, hrun, hcases⟩ := (h.begin allocs).enqueueBulk mode items (List.length_pos_iff.mpr hitems) hsmall
  rw [SlowQueue.exec, hrun, Option.map_some, Option.some.injEq, Prod.mk.injEq, Result.enqueued.injEq] at hexec
  obtain ⟨rfl, rfl⟩ := hexec
  rcases hcases with ⟨as, blk', hr, -⟩ | ⟨-, h', -, hback⟩ | ⟨hr, -, n, blk', b₀, -, -, b, hnew, -⟩
  · exact absurd hr ho
  · exact ⟨h', hback⟩
  · exact absurd ⟨b, hnew⟩ (hthrow hr)

/-- **A bulk enqueue is all or nothing.** After any run, a bulk enqueue that is refused a block or left by a
    constructor's exception takes everything back, and every later run gives what it gives on the list without the
    call's items, provided the slots of the initial index array cover no more elements than there are indices. -/
theorem all_or_nothing (cfg : Cfg) (inSize poolSize : ℕ)
    (hindex : FastQueue.initialIndexSize cfg inSize * cfg.blockSize ≤ 2 ^ cfg.w ∨ cfg.blockSize = 2 ^ (cfg.w - 1))
    {calls : List (Call α)} {rs : List (Result α × ℕ)} {mode : AllocMode} {items : List (Option α)}
    {allocs : List Bool} {o : Outcome Bool} (hfresh : fresh cfg inSize poolSize [] = some s₀)
    (hcalls : Along (exec cfg) (Meets cfg) calls s₀) (hrun : s₀.run cfg calls = some (rs, s)) (hitems : items ≠ [])
    (hsmall : items.length + cfg.blockSize ≤ 2 ^ cfg.w)
    (hexec : s.exec cfg (.enqueueBulk mode items allocs) = some (.enqueued o, s')) (ho : o ≠ .returned true)
    (hthrow : o = .threw → ¬ RequisitionThrows cfg s (.enqueueBulk mode items allocs)) :
    TakenBack cfg mode items.length (s.begin allocs) s' ∧ ∃ l, FifoRun [] calls rs l ∧
      ∀ later, Along (exec cfg) (Meets cfg) later s' →
        ∃ rs' t l', s'.run cfg later = some (rs', t) ∧ FifoRun l later rs' l' := by
  obtain ⟨s₁, hs₁, h, -⟩ := fresh_eq (α := α) cfg inSize poolSize hindex
  obtain rfl := Option.some.inj (hfresh.symm.trans hs₁)
  obtain ⟨rs₁, s₂, l, blk, hrun₁, hfifo, h₁⟩ := h.run_along hcalls
  obtain ⟨rfl, rfl⟩ := Prod.mk.inj (Option.some.inj (hrun.symm.trans hrun₁))
  obtain ⟨⟨blk', h'⟩, hback⟩ := h₁.takenBack hitems hsmall hexec ho hthrow
  refine ⟨hback, l, hfifo, fun later hlater => ?_⟩
  obtain ⟨rs', t, l', -, hrun', hfifo', -⟩ := h'.run_along hlater
  exact ⟨rs', t, l', hrun', hfifo'⟩

/-- A constructor throws in the third of three blocks, for which the index array of two slots had grown. -/
theorem all_or_nothing_grown : ∃ s₀ rs s s',
    fresh ⟨2, 1, by decide, by decide⟩ 4 2 [] = some s₀ ∧
      s₀.run ⟨2, 1, by decide, by decide⟩ [.enqueue .canAlloc (some 0) []] = some (rs, s) ∧
      s.exec ⟨2, 1, by decide, by decide⟩ (.enqueueBulk .canAlloc [some 1, some 2, some 3, some 4, none] []) =
        some (.enqueued .threw, s') ∧
      (TakenBack ⟨2, 1, by decide, by decide⟩ .canAlloc 5 (s.begin []) s' ∧
        ∃ l, FifoRun ([] : List ℕ) [.enqueue .canAlloc (some 0) []] rs l ∧
          ∀ later, Along (exec ⟨2, 1, by decide, by decide⟩) (Meets ⟨2, 1, by decide, by decide⟩) later s' →
            ∃ rs' t l', s'.run ⟨2, 1, by decide, by decide⟩ later = some (rs', t) ∧ FifoRun l later rs' l') := by
  have hruns : ((fresh ⟨2, 1, by decide, by decide⟩ 4 2 []).bind fun s₀ : SlowQueue ℕ =>
      (s₀.run ⟨2, 1, by decide, by decide⟩ [.enqueue .canAlloc (some 0) []]).bind fun t =>
        (t.2.exec ⟨2, 1, by decide, by decide⟩ (.enqueueBulk .canAlloc [some 1, some 2, some 3, some 4, none] [])).map
          Prod.fst) = some (.enqueued .threw) := by decide +kernel
  simp only [Option.bind_eq_some_iff, Option.map_eq_some_iff] at hruns
  obtain ⟨s₀, hfresh, ⟨rs, s⟩, hrun, ⟨_, s'⟩, hexec, rfl⟩ := hruns
  refine ⟨s₀, rs, s, s', hfresh, hrun, hexec, all_or_nothing ⟨2, 1, by decide, by decide⟩ 4 2 (Or.inl (by decide)) hfresh
    (.of_forall (fun call hmem s => ?_) s₀) hrun (by simp) (by decide) hexec (by rintro ⟨⟩) fun _ hthrows => hthrows.allocs_ne rfl⟩
  obtain rfl := List.mem_singleton.mp hmem
  exact ⟨trivial, by decide, fun hthrows => absurd rfl hthrows.allocs_ne⟩

/-- With no block in use the index tail may come to another entry: a call that needs three blocks, in an index of
    two slots, passes through the entry its tail began at, and the array that grows gets new ones behind. -/
theorem not_all_or_nothing : ¬ ∀ (cfg : Cfg) (inSize poolSize : ℕ) (s₀ s' : SlowQueue ℕ) (mode : AllocMode)
    (items : List (Option ℕ)) (allocs : List Bool) (o : Outcome Bool),
    fresh cfg inSize poolSize [] = some s₀ → items ≠ [] →
    s₀.exec cfg (.enqueueBulk mode items allocs) = some (.enqueued o, s') → o ≠ .returned true →
    (o = .threw → ¬ RequisitionThrows cfg s₀ (.enqueueBulk mode items allocs)) → s'.tailEntry = s₀.tailEntry := by
  intro h
  have hruns : ((fresh ⟨2, 1, by decide, by decide⟩ 4 2 []).bind fun s₀ : SlowQueue ℕ =>
      (s₀.exec ⟨2, 1, by decide, by decide⟩ (.enqueueBulk .canAlloc [some 1, some 2, some 3, some 4, none] [])).map
        fun r => (r.1, r.2.tailEntry, s₀.tailEntry)) = some (.enqueued .threw, some 3, some 1) := by decide +kernel
  simp only [Option.bind_eq_some_iff, Option.map_eq_some_iff, Prod.mk.injEq] at hruns
  obtain ⟨s₀, hfresh, ⟨_, s'⟩, hexec, rfl, htail, htail₀⟩ := hruns
  have heq := h _ _ _ s₀ s' _ _ _ _ hfresh (by simp) hexec (by rintro ⟨⟩) fun _ hthrows => hthrows.allocs_ne rfl
  dsimp only at htail
  rw [htail, htail₀] at heq
  exact absurd heq (by decide)

end SlowQueue

end LockFreeStructures
