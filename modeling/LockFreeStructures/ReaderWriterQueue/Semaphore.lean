import Mathlib.Data.Int.Notation
import Mathlib.Tactic.Common
import LockFreeStructures.Lib.Transition

/-!
# `ReaderWriterQueue.Semaphore` — `LightWeightSemaphore`

One thread signals, one waits, and every access to `Count` or to the binary semaphore `Sem` is a step. The
semaphore is right as long as the loop that gives a timed out wait's decrement back finds `Count` negative.
Where it does not, a signal is on its way; the loop has then added one more than it had taken, and adds
another one each time round.
-/

namespace LockFreeStructures

namespace LightWeightSemaphore

/-- Where the signalling thread is in `Signal`. -/
inductive Signaller where
  | idle
  /-- it found `Count` negative and is about to `Sem.release()` -/
  | release
  deriving DecidableEq, Repr

/-- Where the waiting thread is. -/
inductive Waiter where
  | idle
  /-- at the load of `TryWait`, for `TryWait` itself or as the start of `Wait( t )` -/
  | tryWait (timeout : Option ℤ)
  /-- a load was positive: about to take one from `Count` -/
  | take
  /-- in the spinning loop of `TryWaitWithPartialSpinning`, `spin` loads from its end -/
  | spin (spin : ℕ) (timeout : ℤ)
  /-- at `Sem.acquire()` -/
  | acquire
  /-- at `Sem.try_acquire_for` -/
  | tryAcquireFor
  /-- at the `FetchAdd( 1 )` of the last loop -/
  | giveBack
  /-- at the `Sem.try_acquire()` of the last loop -/
  | tryAcquire
  /-- the wait has returned -/
  | returned (success : Bool)
  deriving DecidableEq, Repr

structure State where
  count : ℤ
  sem : ℕ
  signaller : Signaller
  waiter : Waiter
  /-- how many times `Signal` has raised `Count` -/
  signals : ℕ
  /-- how many waits have returned true -/
  successes : ℕ

/-- `LightWeightSemaphore( InitialCount )` -/
def State.fresh (initialCount : ℕ) : State := ⟨initialCount, 0, .idle, .idle, 0, 0⟩

/-- The steps, named by what the thread does. -/
inductive Access where
  | signal
  | release
  | call
  | load
  | take
  | subtract
  | acquire
  | timeOut
  | giveBack
  | tryAcquire
  | leave
  deriving DecidableEq, Repr

/-- An access of a wait between its call and its return. -/
def Access.InWait : Access → Prop
  | .signal | .release | .call | .leave => False
  | .load | .take | .subtract | .acquire | .timeOut | .giveBack | .tryAcquire => True

/-- The wait returns true. -/
def State.succeed (s : State) : State := { s with waiter := .returned true, successes := s.successes + 1 }

/-- After the load of `TryWait` found no token. -/
def Waiter.afterLoad : Option ℤ → Waiter
  | none => .returned false
  | some t => .spin 1024 t

/-- After the spinning loop found no token and took one all the same. -/
def Waiter.afterSubtract (timeout : ℤ) : Waiter :=
  if timeout < 0 then .acquire else if 0 < timeout then .tryAcquireFor else .giveBack

inductive Step : State → Access → State → Prop
  | signal (s : State) (h : s.signaller = .idle) :
      Step s .signal { s with
        count := s.count + 1, signals := s.signals + 1, signaller := if s.count < 0 then .release else .idle }
  | release (s : State) (h : s.signaller = .release) :
      Step s .release { s with sem := s.sem + 1, signaller := .idle }
  /-- `TryWait()`, or `Wait( t )` -/
  | call (s : State) (timeout : Option ℤ) (h : s.waiter = .idle) :
      Step s .call { s with waiter := .tryWait timeout }
  | load (s : State) (timeout : Option ℤ) (h : s.waiter = .tryWait timeout) :
      Step s .load { s with waiter := if 0 < s.count then .take else .afterLoad timeout }
  | take (s : State) (h : s.waiter = .take) : Step s .take { s with count := s.count - 1 }.succeed
  | spin (s : State) (n : ℕ) (t : ℤ) (h : s.waiter = .spin (n + 1) t) :
      Step s .load { s with waiter := if 0 < s.count then .take else .spin n t }
  | subtract (s : State) (t : ℤ) (h : s.waiter = .spin 0 t) :
      Step s .subtract (if 0 < s.count then { s with count := s.count - 1 }.succeed
        else { s with count := s.count - 1, waiter := .afterSubtract t })
  /-- `acquire` waits for the semaphore, `try_acquire_for` gets it in time -/
  | acquire (s : State) (h : s.waiter = .acquire ∨ s.waiter = .tryAcquireFor) (hsem : 0 < s.sem) :
      Step s .acquire { s with sem := s.sem - 1 }.succeed
  /-- `try_acquire_for` may time out at any moment -/
  | timeOut (s : State) (h : s.waiter = .tryAcquireFor) : Step s .timeOut { s with waiter := .giveBack }
  | giveBack (s : State) (h : s.waiter = .giveBack) :
      Step s .giveBack { s with
        count := s.count + 1, waiter := if s.count < 0 then .returned false else .tryAcquire }
  | tryAcquire (s : State) (h : s.waiter = .tryAcquire) (hsem : 0 < s.sem) :
      Step s .tryAcquire { s with sem := s.sem - 1 }.succeed
  /-- `try_acquire` may also fail for no reason -/
  | tryAcquireFails (s : State) (h : s.waiter = .tryAcquire) :
      Step s .tryAcquire { s with waiter := .giveBack }
  | leave (s : State) (b : Bool) (h : s.waiter = .returned b) : Step s .leave { s with waiter := .idle }

/-- Neither thread is inside a call. -/
def State.Quiescent (s : State) : Prop := s.signaller = .idle ∧ (s.waiter = .idle ∨ ∃ b, s.waiter = .returned b)

/-- A wait that timed out gives its decrement back while no signal has come for it. -/
def InTime (s : State) (a : Access) : Prop := a = .giveBack → s.count < 0

theorem inTime_of_ne {s : State} {a : Access} (h : a ≠ .giveBack) : InTime s a := fun h' => absurd h' h

/-! ## The invariant -/

/-- The wait has taken one from `Count` that it may not have. -/
def Waiter.owing : Waiter → ℤ
  | .acquire | .tryAcquireFor | .giveBack | .tryAcquire => 1
  | .idle | .tryWait _ | .take | .spin _ _ | .returned _ => 0

/-- The wait has just returned true. -/
def Waiter.succeeded : Waiter → ℕ
  | .returned true => 1
  | .returned false | .idle | .tryWait _ | .take | .spin _ _ | .acquire | .tryAcquireFor | .giveBack | .tryAcquire => 0

theorem Waiter.owing_le_one (w : Waiter) : w.owing ≤ 1 := by
  cases w <;> simp [Waiter.owing]

def Signaller.releasing : Signaller → ℕ
  | .release => 1
  | .idle => 0

/-- `Count` is what the tokens there are leave, less the one a wait owes; `Sem` carries, or is about to carry,
    one token exactly when a signal has met a wait that owes one. -/
structure Balanced (initialCount : ℕ) (s : State) : Prop where
  count : s.count = initialCount + s.signals - s.successes - s.waiter.owing
  nonneg : 0 ≤ s.count + s.waiter.owing
  sem : s.sem + s.signaller.releasing = if 0 < s.waiter.owing ∧ 0 ≤ s.count then 1 else 0
  take : s.waiter = .take → 0 < s.count
  inTime : s.waiter ≠ .tryAcquire

theorem Balanced.fresh (initialCount : ℕ) : Balanced initialCount (.fresh initialCount) := by
  refine ⟨?_, ?_, rfl, nofun, nofun⟩
  · simp [State.fresh, Waiter.owing]
  · simp [State.fresh, Waiter.owing]

theorem Waiter.owing_afterSubtract (t : ℤ) : (Waiter.afterSubtract t).owing = 1 := by
  unfold Waiter.afterSubtract
  split
  · rfl
  · split <;> rfl

/-- **Step.** -/
theorem Balanced.step {initialCount : ℕ} {s s' : State} {a : Access} (h : Balanced initialCount s)
    (htime : InTime s a) (hs : Step s a s') : Balanced initialCount s' := by
  obtain ⟨hcount, hnonneg, hsem, htake, hin⟩ := h
  cases hs with
  | signal hw =>
      have hle := s.waiter.owing_le_one
      rw [hw, Signaller.releasing] at hsem
      refine ⟨?_, ?_, ?_, fun ht => ?_, hin⟩
      · push_cast
        omega
      · show 0 ≤ s.count + 1 + s.waiter.owing
        omega
      · show s.sem + Signaller.releasing (if s.count < 0 then .release else .idle)
          = if 0 < s.waiter.owing ∧ 0 ≤ s.count + 1 then 1 else 0
        by_cases hneg : s.count < 0
        · rw [if_neg (by omega)] at hsem
          rw [if_pos hneg, if_pos (by omega), Signaller.releasing]
          omega
        · rw [if_neg hneg, Signaller.releasing, hsem]
          by_cases howe : 0 < s.waiter.owing
          · rw [if_pos (by omega), if_pos (by omega)]
          · rw [if_neg (by omega), if_neg (by omega)]
      · have := htake ht
        show 0 < s.count + 1
        omega
  | release hw =>
      rw [hw, Signaller.releasing] at hsem
      exact ⟨hcount, hnonneg, hsem, htake, hin⟩
  | call timeout hw =>
      rw [hw, Waiter.owing] at hcount hnonneg hsem
      exact ⟨hcount, hnonneg, hsem, nofun, nofun⟩
  | load timeout hw =>
      rw [hw, Waiter.owing] at hcount hnonneg hsem
      by_cases hpos : 0 < s.count
      · simp only [if_pos hpos]
        exact ⟨hcount, hnonneg, hsem, fun _ => hpos, nofun⟩
      · simp only [if_neg hpos]
        cases timeout <;> exact ⟨hcount, hnonneg, hsem, nofun, nofun⟩
  | take hw =>
      have hpos := htake hw
      rw [hw, Waiter.owing] at hcount hnonneg hsem
      refine ⟨?_, ?_, hsem, nofun, nofun⟩ <;> simp only [State.succeed, Waiter.owing] <;> push_cast <;> omega
  | spin n t hw =>
      rw [hw, Waiter.owing] at hcount hnonneg hsem
      by_cases hpos : 0 < s.count
      · simp only [if_pos hpos]
        exact ⟨hcount, hnonneg, hsem, fun _ => hpos, nofun⟩
      · simp only [if_neg hpos]
        exact ⟨hcount, hnonneg, hsem, nofun, nofun⟩
  | subtract t hw =>
      rw [hw, Waiter.owing] at hcount hnonneg hsem
      by_cases hpos : 0 < s.count
      · rw [if_pos hpos]
        refine ⟨?_, ?_, hsem, nofun, nofun⟩ <;> simp only [State.succeed, Waiter.owing] <;> push_cast <;> omega
      · rw [if_neg hpos]
        refine ⟨?_, ?_, ?_, fun ht => ?_, fun ht => ?_⟩
        · simp only [Waiter.owing_afterSubtract]
          omega
        · simp only [Waiter.owing_afterSubtract]
          omega
        · simp only [Waiter.owing_afterSubtract]
          rw [if_neg (by omega)]
          exact hsem
        · have := Waiter.owing_afterSubtract t
          rw [show Waiter.afterSubtract t = .take from ht] at this
          exact absurd this (by decide)
        · unfold Waiter.afterSubtract at ht
          split at ht
          · exact absurd ht nofun
          · split at ht <;> exact absurd ht nofun
  | acquire hw hpos =>
      have howe : s.waiter.owing = 1 := by
        rcases hw with hw | hw <;> rw [hw] <;> rfl
      rw [howe] at hcount hnonneg hsem
      have hge : 0 ≤ s.count := by
        by_contra hneg
        rw [if_neg (by omega)] at hsem
        omega
      rw [if_pos ⟨by omega, hge⟩] at hsem
      refine ⟨?_, ?_, ?_, nofun, nofun⟩
      · simp only [State.succeed, Waiter.owing]
        push_cast
        omega
      · simp only [State.succeed, Waiter.owing]
        omega
      · show s.sem - 1 + s.signaller.releasing = if (0 : ℤ) < 0 ∧ 0 ≤ s.count then 1 else 0
        rw [if_neg (by omega)]
        omega
  | timeOut hw =>
      rw [hw, Waiter.owing] at hcount hnonneg hsem
      exact ⟨hcount, hnonneg, hsem, nofun, nofun⟩
  | giveBack hw =>
      have hneg := htime rfl
      rw [hw, Waiter.owing] at hcount hnonneg hsem
      simp only [if_pos hneg]
      rw [if_neg (by omega)] at hsem
      refine ⟨?_, ?_, hsem, nofun, nofun⟩ <;> simp only [Waiter.owing] <;> omega
  | tryAcquire hw _ => exact absurd hw hin
  | tryAcquireFails hw => exact absurd hw hin
  | leave b hw =>
      rw [hw, Waiter.owing] at hcount hnonneg hsem
      exact ⟨hcount, hnonneg, hsem, nofun, nofun⟩

theorem Balanced.successes_le {initialCount : ℕ} {s : State} (h : Balanced initialCount s) :
    s.successes ≤ initialCount + s.signals := by
  have := h.count
  have := h.nonneg
  omega

theorem Balanced.count_eq {initialCount : ℕ} {s : State} (h : Balanced initialCount s) (hq : s.Quiescent) :
    s.count = initialCount + s.signals - s.successes := by
  have hcount := h.count
  obtain ⟨-, hw | ⟨b, hw⟩⟩ := hq
  · rwa [hw, Waiter.owing, Int.sub_zero] at hcount
  · rwa [hw, Waiter.owing, Int.sub_zero] at hcount

/-- **Run.** -/
theorem Balanced.reaches {initialCount : ℕ} {s : State} (h : Reaches Step InTime (.fresh initialCount) s) :
    Balanced initialCount s :=
  h.invariant (.fresh initialCount) fun _ _ _ hb htime hs => hb.step htime hs

/-- Spinning without a token. -/
theorem reaches_spin {ok : State → Access → Prop} (hok : ∀ s, ok s .load) (n : ℕ) (t : ℤ) (s : State)
    (hw : s.waiter = .spin n t) (hc : s.count ≤ 0) : Reaches Step ok s { s with waiter := .spin 0 t } := by
  induction n generalizing s with
  | zero =>
      rw [← hw]
      exact .refl s
  | succ n ih =>
      have hstep := Step.spin s n t hw
      rw [if_neg (Int.not_lt.mpr hc)] at hstep
      exact .head hstep (hok s) (ih { s with waiter := .spin n t } rfl hc)

/-- A step of the semaphore other than `Signal` raises `successes` just as it returns true. -/
theorem succeeded_of_step {s s' : State} {a : Access} (h₁ : a ≠ .signal) (h₂ : a ≠ .leave)
    (h : Step s a s') : s'.signals = s.signals ∧
      s'.successes + s.waiter.succeeded = s.successes + s'.waiter.succeeded := by
  cases h with
  | signal => exact absurd rfl h₁
  | release => exact ⟨rfl, rfl⟩
  | call t hw =>
      rw [hw]
      exact ⟨rfl, rfl⟩
  | load t hw =>
      rw [hw]
      refine ⟨rfl, ?_⟩
      by_cases hpos : 0 < s.count
      · simp [hpos, Waiter.succeeded]
      · cases t <;> simp [hpos, Waiter.afterLoad, Waiter.succeeded]
  | take hw =>
      rw [hw]
      exact ⟨rfl, rfl⟩
  | spin n t hw =>
      rw [hw]
      refine ⟨rfl, ?_⟩
      by_cases hpos : 0 < s.count <;> simp [hpos, Waiter.succeeded]
  | subtract t hw =>
      rw [hw]
      by_cases hpos : 0 < s.count
      · rw [if_pos hpos]
        exact ⟨rfl, rfl⟩
      · rw [if_neg hpos]
        refine ⟨rfl, ?_⟩
        unfold Waiter.afterSubtract
        split
        · rfl
        · split <;> rfl
  | acquire hw =>
      rcases hw with hw | hw <;> rw [hw] <;> exact ⟨rfl, rfl⟩
  | timeOut hw =>
      rw [hw]
      exact ⟨rfl, rfl⟩
  | giveBack hw =>
      rw [hw]
      refine ⟨rfl, ?_⟩
      by_cases hneg : s.count < 0 <;> simp [hneg, Waiter.succeeded]
  | tryAcquire hw =>
      rw [hw]
      exact ⟨rfl, rfl⟩
  | tryAcquireFails hw =>
      rw [hw]
      exact ⟨rfl, rfl⟩
  | leave => exact absurd rfl h₂

end LightWeightSemaphore

end LockFreeStructures
