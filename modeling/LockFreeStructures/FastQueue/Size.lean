import LockFreeStructures.FastQueue.Manager
import LockFreeStructures.Queue.Size

/-!
# `FastQueue.Size` — how many elements a dequeue takes

Enqueues leave the counters of the dequeues alone, whatever comes of them; a dequeue takes exactly what the size
and its bound let it take. Nothing is assumed of the state but that its head index is where the counters say.
-/

namespace LockFreeStructures

namespace FastQueue

variable {α : Type} {cfg : Cfg} {s s' : FastQueue α} {p i n : ℕ} {as : List α}

/-- The head index is the difference of the two counters. -/
def Counted (cfg : Cfg) (s : FastQueue α) : Prop :=
  s.headIndex = Word.sub cfg.w s.dequeueAttemptsCount s.dequeueFailedCount

theorem size_eq (s : FastQueue α) : s.size cfg = available cfg.w s.headIndex s.tailIndex := rfl

/-! ## What a dequeue takes -/

theorem tailIndex_takeElement {a : α} (h : s.takeElement p i = some (a, s')) : s'.tailIndex = s.tailIndex := by
  obtain ⟨_, -, heq⟩ := Option.map_eq_some_iff.mp h
  obtain ⟨-, rfl⟩ := Prod.mk.inj heq
  rfl

theorem length_takeRange (h : s.takeRange p i n = some (as, s')) : as.length = n ∧ s'.tailIndex = s.tailIndex := by
  induction n generalizing i s as with
  | zero =>
      obtain ⟨rfl, rfl⟩ := Prod.mk.inj (Option.some.inj h)
      exact ⟨rfl, rfl⟩
  | succ n ih =>
      obtain ⟨⟨a, s₁⟩, htake, h⟩ := Option.bind_eq_some_iff.mp h
      obtain ⟨⟨as', s₂⟩, hrest, h⟩ := Option.bind_eq_some_iff.mp h
      obtain ⟨rfl, rfl⟩ := Prod.mk.inj (Option.some.inj h)
      obtain ⟨hlen, htail⟩ := ih hrest
      exact ⟨congrArg Nat.succ hlen, htail.trans (tailIndex_takeElement htake)⟩

theorem length_takeBlocks {fuel start need : ℕ} {p : Option ℕ} (h : s.takeBlocks cfg fuel p start need = some (as, s')) :
    as.length = need ∧ s'.tailIndex = s.tailIndex := by
  induction fuel generalizing p start need s as with
  | zero =>
      cases need with
      | zero =>
          obtain ⟨rfl, rfl⟩ := Prod.mk.inj (Option.some.inj h)
          exact ⟨rfl, rfl⟩
      | succ need => exact absurd h nofun
  | succ fuel ih =>
      cases need with
      | zero =>
          obtain ⟨rfl, rfl⟩ := Prod.mk.inj (Option.some.inj h)
          exact ⟨rfl, rfl⟩
      | succ need =>
          obtain ⟨q, -, h⟩ := Option.bind_eq_some_iff.mp h
          obtain ⟨⟨as₁, s₁⟩, htake, h⟩ := Option.bind_eq_some_iff.mp h
          obtain ⟨⟨as₂, s₂⟩, hrest, h⟩ := Option.bind_eq_some_iff.mp h
          obtain ⟨rfl, rfl⟩ := Prod.mk.inj (Option.some.inj h)
          obtain ⟨hlen₁, htail₁⟩ := length_takeRange htake
          obtain ⟨hlen₂, htail₂⟩ := ih hrest
          refine ⟨?_, htail₂.trans htail₁⟩
          rw [List.length_append, hlen₁, hlen₂]
          split <;> omega

/-! ## The counters through a call -/

namespace Counted

theorem of_acquires (h : Counted cfg s) {mode : AllocMode} (hacq : Acquires mode s s') : Counted cfg s' := by
  rw [Counted, hacq.headIndex, hacq.attempts, hacq.failed]
  exact h

theorem of_fixed (h : Counted cfg s) (hfixed : Fixed s s') : Counted cfg s' := by
  rw [Counted, hfixed.headIndex, hfixed.attempts, hfixed.failed]
  exact h

theorem begin (h : Counted cfg s) (allocs : List Bool) : Counted cfg (s.begin allocs) := h

/-- The head index and the attempts go on by as many. -/
theorem advance (h : Counted cfg s) (n : ℕ) (hhead : s'.headIndex = Word.add cfg.w s.headIndex n)
    (hattempts : s'.dequeueAttemptsCount = Word.add cfg.w s.dequeueAttemptsCount n)
    (hfailed : s'.dequeueFailedCount = s.dequeueFailedCount) : Counted cfg s' := by
  rw [Counted, hhead, hattempts, hfailed, Word.sub_add_left, h]

/-- **`Dequeue`** gives an element just when the size is not zero. -/
theorem dequeue {r : Option α} (h : Counted cfg s) (hcall : s.dequeue cfg = some (r, s')) :
    Counted cfg s' ∧ (r = none ↔ s.size cfg = 0) ∧ s'.size cfg = s.size cfg - 1 := by
  have hw := cfg.w_pos
  have hhead : Word.sub cfg.w s.dequeueAttemptsCount s.dequeueFailedCount = s.headIndex := h.symm
  simp only [FastQueue.dequeue, hhead] at hcall
  split at hcall
  · rename_i hlt
    have hpos : 0 < s.size cfg := (available_pos_iff hw).mpr hlt
    obtain ⟨p, -, hcall⟩ := Option.bind_eq_some_iff.mp hcall
    obtain ⟨⟨a, s₁⟩, htake, hcall⟩ := Option.bind_eq_some_iff.mp hcall
    obtain ⟨rfl, rfl⟩ := Prod.mk.inj (Option.some.inj hcall)
    have hfixed := fixed_takeElement htake
    have htail := tailIndex_takeElement htake
    refine ⟨h.advance 1 hfixed.headIndex hfixed.attempts hfixed.failed, ⟨(by rintro ⟨⟩), fun hzero => ?_⟩, ?_⟩
    · exact absurd hzero hpos.ne'
    · have hadd : available cfg.w (Word.add cfg.w s.headIndex 1) s.tailIndex = s.size cfg - 1 :=
        available_add hw hpos
      rw [size_eq]
      exact (congrArg₂ (available cfg.w) hfixed.headIndex htail).trans hadd
  · rename_i hge
    obtain ⟨rfl, rfl⟩ := Prod.mk.inj (Option.some.inj hcall)
    have hzero : s.size cfg = 0 := if_neg hge
    exact ⟨h, iff_of_true rfl hzero, by rw [hzero]⟩

/-- **`DequeueBulk`** gives as many elements as there are, up to its bound. -/
theorem dequeueBulk {maxCount : ℕ} (h : Counted cfg s) (hcall : s.dequeueBulk cfg maxCount = some (as, s')) :
    Counted cfg s' ∧ as.length = min (s.size cfg) maxCount ∧ s'.size cfg = s.size cfg - as.length := by
  have hw := cfg.w_pos
  have hhead : Word.sub cfg.w s.dequeueAttemptsCount s.dequeueFailedCount = s.headIndex := h.symm
  simp only [FastQueue.dequeueBulk, hhead, circularLessThan_zero_sub hw] at hcall
  split at hcall
  · rename_i hlt
    have hsize : s.size cfg = Word.sub cfg.w s.tailIndex s.headIndex := if_pos hlt
    have hmin : min (Word.sub cfg.w s.tailIndex s.headIndex) (min (Word.sub cfg.w s.tailIndex s.headIndex) maxCount)
        = min (Word.sub cfg.w s.tailIndex s.headIndex) maxCount := min_eq_right (min_le_left _ _)
    simp only [hmin, Nat.lt_irrefl, if_false] at hcall
    obtain ⟨p, -, htake⟩ := Option.bind_eq_some_iff.mp hcall
    have hfixed := fixed_takeBlocks htake
    obtain ⟨hlen, htail⟩ := length_takeBlocks htake
    rw [← hsize] at hfixed hlen
    refine ⟨h.advance _ hfixed.headIndex hfixed.attempts hfixed.failed, hlen, ?_⟩
    have hadd : available cfg.w (Word.add cfg.w s.headIndex (min (s.size cfg) maxCount)) s.tailIndex
        = s.size cfg - min (s.size cfg) maxCount := available_add hw (min_le_left _ _)
    rw [hlen, size_eq]
    exact (congrArg₂ (available cfg.w) hfixed.headIndex htail).trans hadd
  · rename_i hge
    obtain ⟨rfl, rfl⟩ := Prod.mk.inj (Option.some.inj hcall)
    have hzero : s.size cfg = 0 := if_neg hge
    exact ⟨h, by rw [hzero, Nat.zero_min, List.length_nil], by rw [hzero, List.length_nil]⟩

end Counted

end FastQueue

end LockFreeStructures
