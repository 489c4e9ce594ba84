import LockFreeStructures.Queue.Size
import LockFreeStructures.SlowQueue.Defs

/-!
# `SlowQueue.Size` — how many elements a dequeue takes

As for `FastQueue`: enqueues leave the counters of the dequeues alone, a dequeue takes what the size and its bound
let it take.
-/

namespace LockFreeStructures

namespace SlowQueue

variable {α : Type} {cfg : Cfg} {s s' s'' : SlowQueue α} {p e i n : ℕ} {mode : AllocMode} {as : List α}

/-! ## What leaves the counters alone -/

/-- The counters stay. -/
structure Fixed (s s' : SlowQueue α) : Prop where
  headIndex : s'.headIndex = s.headIndex
  tailIndex : s'.tailIndex = s.tailIndex
  attempts : s'.dequeueAttemptsCount = s.dequeueAttemptsCount
  failed : s'.dequeueFailedCount = s.dequeueFailedCount

namespace Fixed

theorem refl (s : SlowQueue α) : Fixed s s := ⟨rfl, rfl, rfl, rfl⟩

theorem of_eq (h : s' = s) : Fixed s s' := h ▸ refl s'

theorem trans (h : Fixed s s') (h' : Fixed s' s'') : Fixed s s'' :=
  ⟨h'.headIndex.trans h.headIndex, h'.tailIndex.trans h.tailIndex, h'.attempts.trans h.attempts,
    h'.failed.trans h.failed⟩

end Fixed

theorem fixed_allocate (s : SlowQueue α) : Fixed s s.allocate.2 := ⟨rfl, rfl, rfl, rfl⟩

theorem fixed_allocateIndexArray (s : SlowQueue α) : Fixed s s.allocateIndexArray.2 := by
  unfold allocateIndexArray
  simp only
  split
  · exact fixed_allocate s
  · split
    · exact (fixed_allocate s).trans (fixed_allocate _)
    · exact ((fixed_allocate s).trans (fixed_allocate _)).trans (fixed_allocate _)

theorem fixed_createNewBlockIndexArray {ok : Bool} (h : s.createNewBlockIndexArray cfg = some (ok, s')) :
    Fixed s s' := by
  have halloc := fixed_allocateIndexArray s
  unfold createNewBlockIndexArray at h
  rcases hal : s.allocateIndexArray with ⟨ok₁, s₁⟩
  rw [hal] at halloc
  simp only [hal] at h
  split at h
  · obtain ⟨-, rfl⟩ := Prod.mk.inj (Option.some.inj h)
    exact halloc
  · obtain ⟨copied, -, h⟩ := Option.bind_eq_some_iff.mp h
    obtain ⟨-, rfl⟩ := Prod.mk.inj (Option.some.inj h)
    exact ⟨halloc.headIndex, halloc.tailIndex, halloc.attempts, halloc.failed⟩

theorem fixed_takeIndexEntry (h : s.takeIndexEntry n = some (e, s')) : Fixed s s' := by
  obtain ⟨a, -, h⟩ := Option.bind_eq_some_iff.mp h
  obtain ⟨e', -, h⟩ := Option.bind_eq_some_iff.mp h
  obtain ⟨-, rfl⟩ := Prod.mk.inj (Option.some.inj h)
  exact ⟨rfl, rfl, rfl, rfl⟩

theorem fixed_insertBlockIndexEntry {e : Option ℕ} (h : s.insertBlockIndexEntry cfg mode n = some (e, s')) :
    Fixed s s' := by
  unfold insertBlockIndexEntry at h
  cases harr : s.currentIndexEntryArray with
  | none =>
      simp only [harr, Option.some.injEq, Prod.mk.injEq] at h
      exact .of_eq h.2.symm
  | some a =>
      simp only [harr, Option.bind_eq_bind] at h
      obtain ⟨e₀, -, h⟩ := Option.bind_eq_some_iff.mp h
      split at h
      · obtain ⟨⟨e₁, s₁⟩, htake, h⟩ := Option.bind_eq_some_iff.mp h
        obtain ⟨-, rfl⟩ := Prod.mk.inj (Option.some.inj h)
        exact fixed_takeIndexEntry htake
      · cases mode with
        | cannotAlloc => exact .of_eq (Prod.mk.inj (Option.some.inj h)).2.symm
        | canAlloc =>
            obtain ⟨⟨ok, s₁⟩, hcreate, h⟩ := Option.bind_eq_some_iff.mp h
            have hfixed := fixed_createNewBlockIndexArray hcreate
            simp only at h
            split at h
            · obtain ⟨-, rfl⟩ := Prod.mk.inj (Option.some.inj h)
              exact hfixed
            · obtain ⟨⟨e₁, s₂⟩, htake, h⟩ := Option.bind_eq_some_iff.mp h
              obtain ⟨-, rfl⟩ := Prod.mk.inj (Option.some.inj h)
              exact hfixed.trans (fixed_takeIndexEntry htake)

theorem fixed_requisitionBlock (mode : AllocMode) (s : SlowQueue α) : Fixed s (s.requisitionBlock mode).2 :=
  ⟨rfl, rfl, rfl, rfl⟩

theorem fixed_rewindBlockIndexTail (h : s.rewindBlockIndexTail cfg = some s') : Fixed s s' := by
  obtain ⟨a, -, h⟩ := Option.bind_eq_some_iff.mp h
  rw [← Option.some.inj h]
  exact ⟨rfl, rfl, rfl, rfl⟩

theorem fixed_setSomeEmpty (e p n : ℕ) (s : SlowQueue α) : Fixed s (s.setSomeEmpty cfg e p n) := by
  unfold setSomeEmpty
  simp only
  split <;> exact ⟨rfl, rfl, rfl, rfl⟩

theorem fixed_rollBackEntries {fuel : ℕ} {block : Option ℕ} (h : s.rollBackEntries cfg fuel block n = some s') :
    Fixed s s' := by
  induction fuel generalizing s block n with
  | zero =>
      cases block with
      | none => exact .of_eq (Option.some.inj h).symm
      | some p => exact absurd h nofun
  | succ fuel ih =>
      cases block with
      | none => exact .of_eq (Option.some.inj h).symm
      | some p =>
          obtain ⟨e, -, h⟩ := Option.bind_eq_some_iff.mp h
          obtain ⟨s₁, hrewind, h⟩ := Option.bind_eq_some_iff.mp h
          have hfree : Fixed s (s.storeValue e none) := ⟨rfl, rfl, rfl, rfl⟩
          exact (hfree.trans (fixed_rewindBlockIndexTail hrewind)).trans (ih h)

theorem fixed_returnBlocks {fuel : ℕ} {block : Option ℕ} (h : s.returnBlocks fuel block = some s') : Fixed s s' := by
  induction fuel generalizing s block with
  | zero =>
      cases block with
      | none => exact .of_eq (Option.some.inj h).symm
      | some p => exact absurd h nofun
  | succ fuel ih =>
      cases block with
      | none => exact .of_eq (Option.some.inj h).symm
      | some p =>
          have hreturn : Fixed s (s.returnBlock p) := ⟨rfl, rfl, rfl, rfl⟩
          exact hreturn.trans (ih h)

theorem fixed_rollBack {block block' : Option ℕ} (h : s.rollBack cfg n block block' = some s') : Fixed s s' := by
  obtain ⟨s₁, hentries, h⟩ := Option.bind_eq_some_iff.mp h
  obtain ⟨s₂, hreturn, h⟩ := Option.bind_eq_some_iff.mp h
  have hfixed := (fixed_rollBackEntries hentries).trans (fixed_returnBlocks hreturn)
  rw [← Option.some.inj h]
  exact ⟨hfixed.headIndex, hfixed.tailIndex, hfixed.attempts, hfixed.failed⟩

theorem fixed_linkBlock {b b' : Bulk α} (h : Bulk.linkBlock cfg n p b = some b') : Fixed b.queue b'.queue := by
  unfold Bulk.linkBlock at h
  split at h
  · obtain ⟨s₁, hlink, h⟩ := Option.bind_eq_some_iff.mp h
    obtain ⟨t, -, rfl⟩ := Option.map_eq_some_iff.mp hlink
    rw [← Option.some.inj h]
    exact ⟨rfl, rfl, rfl, rfl⟩
  · obtain ⟨s₁, hsame, h⟩ := Option.bind_eq_some_iff.mp h
    obtain rfl := Option.some.inj hsame
    rw [← Option.some.inj h]
    exact ⟨rfl, rfl, rfl, rfl⟩

theorem fixed_newBlocks {origin need : ℕ} {b b' : Bulk α} {r : Acquisition}
    (h : Bulk.newBlocks cfg mode origin need b = some (r, b')) : Fixed b.queue b'.queue := by
  induction need generalizing b with
  | zero =>
      obtain ⟨-, rfl⟩ := Prod.mk.inj (Option.some.inj h)
      exact .refl _
  | succ need ih =>
      simp only [Bulk.newBlocks, Option.bind_eq_bind] at h
      split at h
      · obtain ⟨-, rfl⟩ := Prod.mk.inj (Option.some.inj h)
        exact .refl _
      · obtain ⟨⟨e, s⟩, hinsert, h⟩ := Option.bind_eq_some_iff.mp h
        have hfixed := fixed_insertBlockIndexEntry hinsert
        cases e with
        | none =>
            obtain ⟨-, rfl⟩ := Prod.mk.inj (Option.some.inj h)
            exact hfixed
        | some e =>
            have hreq := hfixed.trans (fixed_requisitionBlock mode s)
            rcases hrequisition : s.requisitionBlock mode with ⟨r', s₁⟩
            rw [hrequisition] at hreq
            simp only [hrequisition] at h
            cases r' with
            | threw =>
                obtain ⟨-, rfl⟩ := Prod.mk.inj (Option.some.inj h)
                exact hreq
            | null =>
                obtain ⟨s₂, hrewind, h⟩ := Option.bind_eq_some_iff.mp h
                obtain ⟨-, rfl⟩ := Prod.mk.inj (Option.some.inj h)
                have hall := hreq.trans (fixed_rewindBlockIndexTail hrewind)
                exact ⟨hall.headIndex, hall.tailIndex, hall.attempts, hall.failed⟩
            | block p =>
                obtain ⟨b₁, hlink, h⟩ := Option.bind_eq_some_iff.mp h
                have hset : Fixed s₁ (((s₁.modifyPolicy p .reset).setNext p none).storeValue e (some p)) :=
                  ⟨rfl, rfl, rfl, rfl⟩
                exact (hreq.trans (hset.trans (fixed_linkBlock hlink))).trans (ih h)

/-! ## The counters through an enqueue -/

/-- The head index is the difference of the two counters. -/
def Counted (cfg : Cfg) (s : SlowQueue α) : Prop :=
  s.headIndex = Word.sub cfg.w s.dequeueAttemptsCount s.dequeueFailedCount

theorem size_eq (s : SlowQueue α) : s.size cfg = available cfg.w s.headIndex s.tailIndex := rfl

namespace Counted

theorem of_fixed (h : Counted cfg s) (hfixed : Fixed s s') : Counted cfg s' := by
  rw [Counted, hfixed.headIndex, hfixed.attempts, hfixed.failed]
  exact h

theorem begin (h : Counted cfg s) (allocs : List Bool) : Counted cfg (s.begin allocs) := h

/-- The head index and the attempts go on by as many. -/
theorem advance (h : Counted cfg s) (n : ℕ) (hhead : s'.headIndex = Word.add cfg.w s.headIndex n)
    (hattempts : s'.dequeueAttemptsCount = Word.add cfg.w s.dequeueAttemptsCount n)
    (hfailed : s'.dequeueFailedCount = s.dequeueFailedCount) : Counted cfg s' := by
  rw [Counted, hhead, hattempts, hfailed, Word.sub_add_left, h]

theorem enqueue {item : Option α} {r : Outcome Bool} (h : Counted cfg s)
    (hcall : s.enqueue cfg mode item = some (r, s')) : Counted cfg s' := by
  simp only [SlowQueue.enqueue, Option.bind_eq_bind] at hcall
  split at hcall
  · split at hcall
    · obtain ⟨-, rfl⟩ := Prod.mk.inj (Option.some.inj hcall)
      exact h
    · obtain ⟨⟨e, s₁⟩, hinsert, hcall⟩ := Option.bind_eq_some_iff.mp hcall
      have h₁ := h.of_fixed (fixed_insertBlockIndexEntry hinsert)
      cases e with
      | none =>
          obtain ⟨-, rfl⟩ := Prod.mk.inj (Option.some.inj hcall)
          exact h₁
      | some e =>
          have h₂ := h₁.of_fixed (fixed_requisitionBlock mode s₁)
          rcases hrequisition : s₁.requisitionBlock mode with ⟨r', s₂⟩
          rw [hrequisition] at h₂
          simp only [hrequisition] at hcall
          cases r' with
          | threw =>
              obtain ⟨-, rfl⟩ := Prod.mk.inj (Option.some.inj hcall)
              exact h₂
          | null =>
              obtain ⟨s₃, hrewind, hcall⟩ := Option.bind_eq_some_iff.mp hcall
              obtain ⟨-, rfl⟩ := Prod.mk.inj (Option.some.inj hcall)
              have h₃ : Counted cfg s₃ := Counted.of_fixed (s := s₂) h₂ (fixed_rewindBlockIndexTail hrewind)
              exact h₃
          | block p =>
              cases item with
              | none =>
                  obtain ⟨s₃, hrewind, hcall⟩ := Option.bind_eq_some_iff.mp hcall
                  obtain ⟨-, rfl⟩ := Prod.mk.inj (Option.some.inj hcall)
                  have h₃ : Counted cfg s₃ :=
                    Counted.of_fixed (s := s₂.modifyPolicy p .reset) h₂ (fixed_rewindBlockIndexTail hrewind)
                  exact h₃
              | some a =>
                  obtain ⟨-, rfl⟩ := Prod.mk.inj (Option.some.inj hcall)
                  exact h₂
  · obtain ⟨t, -, hcall⟩ := Option.bind_eq_some_iff.mp hcall
    cases item with
    | none =>
        obtain ⟨-, rfl⟩ := Prod.mk.inj (Option.some.inj hcall)
        exact h
    | some a =>
        obtain ⟨-, rfl⟩ := Prod.mk.inj (Option.some.inj hcall)
        exact h

theorem enqueueBulk {items : List (Option α)} {r : Outcome Bool} (h : Counted cfg s)
    (hcall : s.enqueueBulk cfg mode items = some (r, s')) : Counted cfg s' := by
  simp only [SlowQueue.enqueueBulk, Option.bind_eq_bind] at hcall
  obtain ⟨⟨res, b⟩, hnew, hcall⟩ := Option.bind_eq_some_iff.mp hcall
  have hb : Counted cfg b.queue := Counted.of_fixed h (fixed_newBlocks hnew)
  cases res with
  | threw =>
      obtain ⟨-, rfl⟩ := Prod.mk.inj (Option.some.inj hcall)
      exact hb
  | refused =>
      obtain ⟨s₁, hroll, hcall⟩ := Option.bind_eq_some_iff.mp hcall
      obtain ⟨-, rfl⟩ := Prod.mk.inj (Option.some.inj hcall)
      exact hb.of_fixed (fixed_rollBack hroll)
  | acquired =>
      simp only at hcall
      -- the call starts in a new block or in the old tail block
      split at hcall
      all_goals
        obtain ⟨first, -, hcall⟩ := Option.bind_eq_some_iff.mp hcall
        obtain ⟨⟨o, cur, i, m⟩, -, hcall⟩ := Option.bind_eq_some_iff.mp hcall
        cases o with
        | threw =>
            obtain ⟨m', -, hcall⟩ := Option.bind_eq_some_iff.mp hcall
            obtain ⟨s₁, hroll, hcall⟩ := Option.bind_eq_some_iff.mp hcall
            obtain ⟨-, rfl⟩ := Prod.mk.inj (Option.some.inj hcall)
            exact Counted.of_fixed (s := { b.queue with toSlots := m' }) hb (fixed_rollBack hroll)
        | returned u =>
            obtain ⟨-, rfl⟩ := Prod.mk.inj (Option.some.inj hcall)
            exact hb

end Counted

/-! ## What a dequeue takes -/

theorem length_takeRange {m m' : Slots CounterCheckPolicy α} (h : m.takeRange p i n = some (as, m')) :
    as.length = n := by
  induction n generalizing i m as with
  | zero =>
      obtain ⟨rfl, -⟩ := Prod.mk.inj (Option.some.inj h)
      rfl
  | succ n ih =>
      obtain ⟨⟨a, m₁⟩, -, h⟩ := Option.bind_eq_some_iff.mp h
      obtain ⟨⟨as', m₂⟩, hrest, h⟩ := Option.bind_eq_some_iff.mp h
      obtain ⟨rfl, rfl⟩ := Prod.mk.inj (Option.some.inj h)
      exact congrArg Nat.succ (ih hrest)

theorem length_takeBlocks {fuel start need : ℕ} (h : s.takeBlocks cfg fuel i start need = some (as, s')) :
    as.length = need ∧ Fixed s s' := by
  induction fuel generalizing i start need s as with
  | zero =>
      cases need with
      | zero =>
          obtain ⟨rfl, rfl⟩ := Prod.mk.inj (Option.some.inj h)
          exact ⟨rfl, .refl _⟩
      | succ need => exact absurd h nofun
  | succ fuel ih =>
      cases need with
      | zero =>
          obtain ⟨rfl, rfl⟩ := Prod.mk.inj (Option.some.inj h)
          exact ⟨rfl, .refl _⟩
      | succ need =>
          obtain ⟨a, -, h⟩ := Option.bind_eq_some_iff.mp h
          obtain ⟨e, -, h⟩ := Option.bind_eq_some_iff.mp h
          obtain ⟨p, -, h⟩ := Option.bind_eq_some_iff.mp h
          obtain ⟨⟨as₁, m⟩, htake, h⟩ := Option.bind_eq_some_iff.mp h
          obtain ⟨⟨as₂, s₂⟩, hrest, h⟩ := Option.bind_eq_some_iff.mp h
          obtain ⟨rfl, rfl⟩ := Prod.mk.inj (Option.some.inj h)
          have hlen₁ := length_takeRange htake
          obtain ⟨hlen₂, hfixed₂⟩ := ih hrest
          have hslots : Fixed s { s with toSlots := m } := ⟨rfl, rfl, rfl, rfl⟩
          refine ⟨?_, (hslots.trans (fixed_setSomeEmpty e p _ _)).trans hfixed₂⟩
          rw [List.length_append, hlen₁, hlen₂]
          split <;> omega

namespace Counted

/-- **`Dequeue`** gives an element just when the size is not zero. -/
theorem dequeue {r : Option α} (h : Counted cfg s) (hcall : s.dequeue cfg = some (r, s')) :
    Counted cfg s' ∧ (r = none ↔ s.size cfg = 0) ∧ s'.size cfg = s.size cfg - 1 := by
  have hw := cfg.w_pos
  have hhead : Word.sub cfg.w s.dequeueAttemptsCount s.dequeueFailedCount = s.headIndex := h.symm
  simp only [SlowQueue.dequeue, hhead] at hcall
  split at hcall
  · rename_i hlt
    have hpos : 0 < s.size cfg := (available_pos_iff hw).mpr hlt
    obtain ⟨e, -, hcall⟩ := Option.bind_eq_some_iff.mp hcall
    obtain ⟨p, -, hcall⟩ := Option.bind_eq_some_iff.mp hcall
    obtain ⟨⟨a, m⟩, -, hcall⟩ := Option.bind_eq_some_iff.mp hcall
    obtain ⟨rfl, rfl⟩ := Prod.mk.inj (Option.some.inj hcall)
    have hempty := @fixed_setSomeEmpty α cfg e p 1 { s with
      toSlots := m, headIndex := Word.add cfg.w s.headIndex 1,
      dequeueAttemptsCount := Word.add cfg.w s.dequeueAttemptsCount 1 }
    refine ⟨h.advance 1 hempty.headIndex hempty.attempts hempty.failed, ⟨nofun, fun hzero => ?_⟩, ?_⟩
    · exact absurd hzero hpos.ne'
    · have hadd : available cfg.w (Word.add cfg.w s.headIndex 1) s.tailIndex = s.size cfg - 1 :=
        available_add hw hpos
      rw [size_eq]
      exact (congrArg₂ (available cfg.w) hempty.headIndex hempty.tailIndex).trans hadd
  · rename_i hge
    obtain ⟨rfl, rfl⟩ := Prod.mk.inj (Option.some.inj hcall)
    have hzero : s.size cfg = 0 := if_neg hge
    exact ⟨h, iff_of_true rfl hzero, by rw [hzero]⟩

/-- **`DequeueBulk`** gives as many elements as there are, up to its bound. -/
theorem dequeueBulk {maxCount : ℕ} (h : Counted cfg s) (hcall : s.dequeueBulk cfg maxCount = some (as, s')) :
    Counted cfg s' ∧ as.length = min (s.size cfg) maxCount ∧ s'.size cfg = s.size cfg - as.length := by
  have hw := cfg.w_pos
  have hhead : Word.sub cfg.w s.dequeueAttemptsCount s.dequeueFailedCount = s.headIndex := h.symm
  simp only [SlowQueue.dequeueBulk, hhead, circularLessThan_zero_sub hw] at hcall
  split at hcall
  · rename_i hlt
    have hsize : s.size cfg = Word.sub cfg.w s.tailIndex s.headIndex := if_pos hlt
    have hmin : min (Word.sub cfg.w s.tailIndex s.headIndex) (min (Word.sub cfg.w s.tailIndex s.headIndex) maxCount)
        = min (Word.sub cfg.w s.tailIndex s.headIndex) maxCount := min_eq_right (min_le_left _ _)
    simp only [hmin, Nat.lt_irrefl, if_false] at hcall
    obtain ⟨i, -, htake⟩ := Option.bind_eq_some_iff.mp hcall
    obtain ⟨hlen, hfixed⟩ := length_takeBlocks htake
    rw [← hsize] at hfixed hlen
    refine ⟨h.advance _ hfixed.headIndex hfixed.attempts hfixed.failed, hlen, ?_⟩
    have hadd : available cfg.w (Word.add cfg.w s.headIndex (min (s.size cfg) maxCount)) s.tailIndex
        = s.size cfg - min (s.size cfg) maxCount := available_add hw (min_le_left _ _)
    rw [hlen, size_eq]
    exact (congrArg₂ (available cfg.w) hfixed.headIndex hfixed.tailIndex).trans hadd
  · rename_i hge
    obtain ⟨rfl, rfl⟩ := Prod.mk.inj (Option.some.inj hcall)
    have hzero : s.size cfg = 0 := if_neg hge
    exact ⟨h, by rw [hzero, Nat.zero_min, List.length_nil], by rw [hzero, List.length_nil]⟩

end Counted

end SlowQueue

end LockFreeStructures
