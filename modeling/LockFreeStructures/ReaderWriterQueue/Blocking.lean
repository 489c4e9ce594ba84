import LockFreeStructures.ReaderWriterQueue.Lossless
import LockFreeStructures.ReaderWriterQueue.Semaphore

/-!
# `ReaderWriterQueue.Blocking` — the queue that blocks on a semaphore

`Inner` is the queue of `ReaderWriterQueue.Defs` and `Sem` the semaphore of `ReaderWriterQueue.Semaphore`, with
all their steps; each thread goes from the one to the other as its call says. Where the semaphore is balanced
there is an element in `Inner` for every wait that has returned true, so the call of `Inner` that follows never
finds the queue empty.
-/

namespace LockFreeStructures

namespace ReaderWriterQueue

variable {V : Type} {cfg : Cfg} {m m' : Memory V} {op : Op}

/-! ## What the calls of a queue leave -/

/-- The call the consumer is in. -/
def ConsumerPc.op? : ConsumerPc V → Option Op
  | .idle | .assertFailed => none
  | .loadFrontBlock op | .loadFront op _ | .loadTailBlock op _ _ _ | .loadTail op _ _ _ | .reloadTail op _ _
  | .loadNext op _ | .loadNextFront op _ | .loadNextTail op _ _ | .storeFrontBlock op _ _ | .take op _ _
  | .storeFront op _ _ _ => some op

/-- How many elements a call takes that has found one. -/
def Op.taken : Op → ℕ
  | .peek => 0
  | .tryDequeue | .pop => 1

/-- After an access of the consumer its call goes on or returns, with an element or without. -/
inductive Consumed (op : Op) (m m' : Memory V) : ConsumerPc V → Prop
  | goesOn {pc : ConsumerPc V} (hpc : pc.op? = some op) (henq : m'.enqueued = m.enqueued)
      (hcons : m'.consumed = m.consumed) (hempty : m'.wasEmpty = m.wasEmpty) : Consumed op m m' pc
  | assertFailed : Consumed op m m' .assertFailed
  | nothing (hout : m'.outcomes = ⟨op, none, m.wasEmpty⟩ :: m.outcomes) (henq : m'.enqueued = m.enqueued)
      (hcons : m'.consumed = m.consumed) : Consumed op m m' .idle
  | found {slot : ℕ × ℕ} (hout : m'.outcomes = ⟨op, some slot, m.wasEmpty⟩ :: m.outcomes)
      (henq : m'.enqueued = m.enqueued) (hcons : m'.consumed.length = m.consumed.length + op.taken) :
      Consumed op m m' .idle

namespace Consumed

/-- Refreshing `LocalTail` changes none of it. -/
theorem of_updateBlock {b : ℕ} {f : Block V → Block V} {pc : ConsumerPc V}
    (h : Consumed op (m.updateBlock b f) m' pc) : Consumed op m m' pc := by
  cases h with
  | goesOn hpc henq hcons hempty => exact .goesOn hpc henq hcons hempty
  | assertFailed => exact .assertFailed
  | nothing hout henq hcons => exact .nothing hout henq hcons
  | found hout henq hcons => exact .found hout henq hcons

theorem useFront (m : Memory V) (op : Op) (b front : ℕ) :
    Consumed op m (ReaderWriterQueue.useFront m op b front).1 (ReaderWriterQueue.useFront m op b front).2 := by
  cases op with
  | peek => exact .found rfl rfl rfl
  | tryDequeue => exact .goesOn rfl rfl rfl rfl
  | pop => exact .goesOn rfl rfl rfl rfl

theorem orElse (m : Memory V) (op : Op) (b front tail : ℕ) :
    Consumed op m (ReaderWriterQueue.orElse m op b front tail).1
      (ReaderWriterQueue.orElse m op b front tail).2 := by
  unfold ReaderWriterQueue.orElse
  split
  · exact useFront m op b front
  · exact .goesOn rfl rfl rfl rfl

/-- **Step** of the consumer. -/
theorem consume {A : View V} {cpc pc : ConsumerPc V} (hop : cpc.op? = some op) (hat : cpc.At m A)
    (hs : ReaderWriterQueue.consume m cpc = some (m', pc)) : Consumed op m m' pc := by
  cases cpc with
  | idle | assertFailed => exact absurd hs nofun
  | loadFrontBlock | loadFront | loadNextFront | storeFrontBlock | take =>
      cases hs
      exact .goesOn hop rfl rfl rfl
  | loadTailBlock op' b front localTail =>
      cases hop
      simp only [ReaderWriterQueue.consume] at hs
      split at hs
      · cases hs
        exact .goesOn rfl rfl rfl rfl
      · obtain ⟨rfl, rfl⟩ := Prod.mk.inj (Option.some.inj hs)
        exact orElse ..
  | loadTail op' b front localTail =>
      cases hop
      simp only [ReaderWriterQueue.consume] at hs
      split at hs
      · cases hs
        exact .goesOn rfl rfl rfl rfl
      · obtain ⟨rfl, rfl⟩ := Prod.mk.inj (Option.some.inj hs)
        exact (orElse ..).of_updateBlock
  | reloadTail op' b front =>
      cases hop
      simp only [ReaderWriterQueue.consume] at hs
      split at hs
      · obtain ⟨rfl, rfl⟩ := Prod.mk.inj (Option.some.inj hs)
        exact (useFront ..).of_updateBlock
      · cases hs
        exact .nothing rfl rfl rfl
  | loadNext op' b =>
      obtain ⟨next, -, hs⟩ := Option.map_eq_some_iff.mp hs
      cases hs
      exact .goesOn hop rfl rfl rfl
  | loadNextTail op' b front =>
      cases hop
      simp only [ReaderWriterQueue.consume] at hs
      split at hs
      · cases hs
        exact .assertFailed
      · cases op with
        | peek =>
            cases hs
            exact .found rfl rfl rfl
        | tryDequeue | pop =>
            cases hs
            exact .goesOn rfl rfl rfl rfl
  | storeFront op' b front v =>
      cases hop
      -- a `Peek` does not store `Front`
      obtain ⟨-, -, hpeek, -⟩ := hat
      cases hs
      refine .found rfl rfl ?_
      cases op with
      | peek => exact absurd rfl hpeek
      | tryDequeue | pop => exact List.length_append

end Consumed

/-- Where there is an element the note stays that the queue has not been empty. -/
theorem note_wasEmpty (h : m.wasEmpty = false) (hlt : m.consumed.length < m.enqueued.length) :
    m.note.wasEmpty = false := by
  show (m.wasEmpty || decide (m.enqueued.length = m.consumed.length)) = false
  rw [h, Bool.false_or, decide_eq_false_iff_not]
  exact Nat.ne_of_gt hlt

/-- What an access of the producer leaves to the consumer, and what its call returns with. -/
structure Produced (s s' : State V) : Prop where
  consumer : s'.consumer = s.consumer
  consumed : s'.memory.consumed = s.memory.consumed
  wasEmpty : s.memory.consumed.length < s.memory.enqueued.length → s.memory.wasEmpty = false →
    s'.memory.wasEmpty = false
  enqueued : s'.memory.enqueued = s.memory.enqueued ∨
    s'.producer = .idle ∧ s'.memory.enqueued.length = s.memory.enqueued.length + 1

namespace Produced

theorem noted {ppc pc : ProducerPc V} {cpc : ConsumerPc V} (hcons : m'.consumed = m.consumed)
    (hempty : m'.wasEmpty = m.wasEmpty)
    (henq : m'.enqueued = m.enqueued ∨ pc = .idle ∧ m'.enqueued.length = m.enqueued.length + 1) :
    Produced ⟨m, ppc, cpc⟩ ⟨m'.note, pc, cpc⟩ := by
  refine ⟨rfl, hcons, fun hlt hfalse => note_wasEmpty (hempty.trans hfalse) ?_, henq⟩
  rw [hcons]
  rcases henq with henq | ⟨-, henq⟩ <;> rw [henq]
  · exact hlt
  · exact Nat.lt_succ_of_lt hlt

/-- **Step** of the producer. -/
theorem produce {ppc pc : ProducerPc V} {cpc : ConsumerPc V}
    (hs : ReaderWriterQueue.produce cfg m ppc = some (m', pc)) :
    Produced ⟨m, ppc, cpc⟩ ⟨m'.note, pc, cpc⟩ := by
  cases ppc with
  | idle | assertFailed => exact absurd hs nofun
  | loadTailBlock | construct | loadNext | loadNextTail | constructNext | storeNextTail | makeBlock | loadNewNext
  | storeNext =>
      cases hs
      exact noted rfl rfl (Or.inl rfl)
  | loadTail mode v b =>
      simp only [ReaderWriterQueue.produce] at hs
      split at hs <;> cases hs <;> exact noted rfl rfl (Or.inl rfl)
  | loadFront mode v b tail =>
      simp only [ReaderWriterQueue.produce] at hs
      split at hs <;> cases hs <;> exact noted rfl rfl (Or.inl rfl)
  | loadFrontBlock mode v b next =>
      simp only [ReaderWriterQueue.produce] at hs
      split at hs
      · cases hs
        exact noted rfl rfl (Or.inl rfl)
      · cases mode <;> cases hs <;> exact noted rfl rfl (Or.inl rfl)
  | loadNextBlock v b =>
      obtain ⟨next, -, hs⟩ := Option.map_eq_some_iff.mp hs
      cases hs
      exact noted rfl rfl (Or.inl rfl)
  | loadNextFront v b tail =>
      simp only [ReaderWriterQueue.produce] at hs
      split at hs <;> cases hs <;> exact noted rfl rfl (Or.inl rfl)
  | storeTail | storeTailBlock =>
      cases hs
      exact noted rfl rfl (Or.inr ⟨rfl, List.length_append⟩)

theorem noBlock {ppc : ProducerPc V} {cpc : ConsumerPc V} :
    Produced ⟨m, ppc, cpc⟩ ⟨m.grow cfg, .idle, cpc⟩ := ⟨rfl, rfl, fun _ h => h, Or.inl rfl⟩

end Produced

end ReaderWriterQueue

namespace BlockingReaderWriterQueue

open LightWeightSemaphore

variable {V : Type}

/-- The calls that wait for a token. -/
inductive Call where
  | tryDequeue
  | dequeue
  | dequeueWaitFor (timeout : ℤ)
  | pop
  deriving DecidableEq, Repr

/-- `Sem->TryWait()`, or `Sem->Wait( t )`. -/
def Call.wait : Call → Option ℤ
  | .tryDequeue | .pop => none
  | .dequeue => some (-1)
  | .dequeueWaitFor timeout => some timeout

/-- What is called of `Inner` then. -/
def Call.op : Call → ReaderWriterQueue.Op
  | .tryDequeue | .dequeue | .dequeueWaitFor _ => .tryDequeue
  | .pop => .pop

/-- Where the producer is. -/
inductive Producer where
  | idle
  /-- in a call of `Inner` -/
  | enqueue
  /-- `Inner` has the item: about to `Signal` -/
  | signal
  deriving DecidableEq, Repr

/-- Where the consumer is. -/
inductive Consumer where
  | idle
  /-- in the semaphore's wait -/
  | wait (c : Call)
  /-- past the semaphore, in the call of `Inner` -/
  | take (c : Call)
  /-- in `Inner.Peek()`, which needs no token -/
  | peek
  /-- `assert( Success )` has failed -/
  | assertFailed
  deriving DecidableEq, Repr

structure State (V : Type) where
  inner : ReaderWriterQueue.State V
  sem : LightWeightSemaphore.State
  producer : Producer
  consumer : Consumer

/-- `BlockingReaderWriterQueue( ReservedSize )` -/
def State.fresh (cfg : Cfg) (reservedSize : ℕ) : State V := ⟨.fresh cfg reservedSize, .fresh 0, .idle, .idle⟩

/-- The producer after an access of `Inner`'s call, which before it had enqueued `n` items. A call that returns
    true has enqueued one more. -/
def Producer.after (n : ℕ) (s : ReaderWriterQueue.State V) : Producer :=
  match s.producer with
  | .idle => if n < s.memory.enqueued.length then .signal else .idle
  | _ => .enqueue

/-- The consumer after an access of `Inner`'s call, whose `Success` is asserted. -/
def Consumer.after (c : Call) (s : ReaderWriterQueue.State V) : Consumer :=
  match s.consumer with
  | .idle => if s.memory.outcomes.head?.bind ReaderWriterQueue.Outcome.slot = none then .assertFailed else .idle
  | _ => .take c

/-- The consumer after an access of `Inner.Peek()`. -/
def Consumer.afterPeek (s : ReaderWriterQueue.State V) : Consumer :=
  match s.consumer with
  | .idle => .idle
  | _ => .peek

inductive Act (V : Type) where
  | enqueue (mode : AllocMode) (v : V)
  | produce
  | noBlock
  /-- an access of either thread to the semaphore -/
  | access (a : Access)
  | call (c : Call)
  /-- the wait has returned true -/
  | enter
  /-- the wait has returned false -/
  | leave
  | peek
  | consume

inductive Step (cfg : Cfg) : State V → Act V → State V → Prop
  | enqueue {s : State V} {inner : ReaderWriterQueue.State V} (mode : AllocMode) (v : V) (h : s.producer = .idle)
      (hsem : s.sem.signaller = .idle) (hs : ReaderWriterQueue.Step cfg s.inner (.enqueue mode v) inner) :
      Step cfg s (.enqueue mode v) { s with inner := inner, producer := .enqueue }
  | produce {s : State V} {inner : ReaderWriterQueue.State V} (h : s.producer = .enqueue)
      (hs : ReaderWriterQueue.Step cfg s.inner .produce inner) :
      Step cfg s .produce
        { s with inner := inner, producer := .after s.inner.memory.enqueued.length inner }
  | noBlock {s : State V} {inner : ReaderWriterQueue.State V} (h : s.producer = .enqueue)
      (hs : ReaderWriterQueue.Step cfg s.inner .noBlock inner) :
      Step cfg s .noBlock
        { s with inner := inner, producer := .after s.inner.memory.enqueued.length inner }
  | signal {s : State V} {sem : LightWeightSemaphore.State} (h : s.producer = .signal)
      (hs : LightWeightSemaphore.Step s.sem .signal sem) :
      Step cfg s (.access .signal) { s with sem := sem, producer := .idle }
  | release {s : State V} {sem : LightWeightSemaphore.State} (hs : LightWeightSemaphore.Step s.sem .release sem) :
      Step cfg s (.access .release) { s with sem := sem }
  | call {s : State V} (c : Call) (h : s.consumer = .idle) :
      Step cfg s (.call c) { s with sem := { s.sem with waiter := .tryWait c.wait }, consumer := .wait c }
  | wait {s : State V} {sem : LightWeightSemaphore.State} {c : Call} {a : Access} (h : s.consumer = .wait c)
      (ha : a.InWait) (hs : LightWeightSemaphore.Step s.sem a sem) : Step cfg s (.access a) { s with sem := sem }
  | enter {s : State V} {inner : ReaderWriterQueue.State V} {c : Call} (h : s.consumer = .wait c)
      (hw : s.sem.waiter = .returned true) (hs : ReaderWriterQueue.Step cfg s.inner (.dequeue c.op) inner) :
      Step cfg s .enter { s with inner := inner, sem := { s.sem with waiter := .idle }, consumer := .take c }
  | leave {s : State V} {c : Call} (h : s.consumer = .wait c) (hw : s.sem.waiter = .returned false) :
      Step cfg s .leave { s with sem := { s.sem with waiter := .idle }, consumer := .idle }
  | peek {s : State V} {inner : ReaderWriterQueue.State V} (h : s.consumer = .idle)
      (hs : ReaderWriterQueue.Step cfg s.inner (.dequeue .peek) inner) :
      Step cfg s .peek { s with inner := inner, consumer := .peek }
  | consume {s : State V} {inner : ReaderWriterQueue.State V} {c : Call} (h : s.consumer = .take c)
      (hs : ReaderWriterQueue.Step cfg s.inner .consume inner) :
      Step cfg s .consume { s with inner := inner, consumer := .after c inner }
  | consumePeek {s : State V} {inner : ReaderWriterQueue.State V} (h : s.consumer = .peek)
      (hs : ReaderWriterQueue.Step cfg s.inner .consume inner) :
      Step cfg s .consume { s with inner := inner, consumer := .afterPeek inner }

/-- A wait that timed out gives its decrement back while no signal has come for it. -/
def InTime (s : State V) : Act V → Prop
  | .access a => LightWeightSemaphore.InTime s.sem a
  | _ => True

/-! ## The invariant -/

/-- Items of `Inner` whose `Signal` has not raised `Count` yet. -/
def Producer.unsignalled : Producer → ℕ
  | .signal => 1
  | .idle | .enqueue => 0

/-- Elements of `Inner` that a wait has paid for and its call not taken yet. -/
def State.paid (s : State V) : ℕ :=
  match s.consumer with
  | .wait _ => s.sem.waiter.succeeded
  | .take _ => 1
  | .idle | .peek | .assertFailed => 0

/-- What is known where the consumer is. Past the semaphore the queue is not empty at any moment. -/
def Consumer.At (s : State V) : Consumer → Prop
  | .idle => s.sem.waiter = .idle
  | .wait _ => True
  | .take c => s.sem.waiter = .idle ∧ s.inner.consumer.op? = some c.op ∧ s.inner.memory.wasEmpty = false
  | .peek => s.sem.waiter = .idle ∧ s.inner.consumer.op? = some .peek
  | .assertFailed => False

/-- Every item of the inner queue is paid for by a signal, made or to come, that no wait has used. -/
structure Stocked (cfg : Cfg) (s : State V) : Prop where
  balanced : Balanced 0 s.sem
  inner : ∃ A, ReaderWriterQueue.Inv cfg s.inner A
  enqueued : s.inner.memory.enqueued.length = s.sem.signals + s.producer.unsignalled
  consumed : s.inner.memory.consumed.length + s.paid = s.sem.successes
  consumer : s.consumer.At s

namespace Stocked

variable {cfg : Cfg} {s s' : State V} {inner : ReaderWriterQueue.State V} {sem : LightWeightSemaphore.State}

theorem fresh {reservedSize : ℕ} (hpos : 1 ≤ reservedSize) (hlt : reservedSize < 2 ^ (cfg.w - 1)) :
    Stocked cfg (State.fresh cfg reservedSize : State V) :=
  ⟨.fresh 0, ⟨_, ReaderWriterQueue.Inv.fresh hpos hlt⟩, rfl, rfl, rfl⟩

/-- A consumer past the semaphore has an element to take. -/
theorem consumed_lt (h : Stocked cfg s) (hpaid : s.paid = 1) :
    s.inner.memory.consumed.length < s.inner.memory.enqueued.length := by
  have := h.balanced.successes_le
  have := h.enqueued
  have := h.consumed
  omega

/-! ### The producer -/

theorem unsignalled_after_of_eq {n : ℕ} (h : inner.memory.enqueued.length = n) :
    (Producer.after n inner).unsignalled = 0 := by
  unfold Producer.after
  split
  · rw [if_neg (by omega)]
    rfl
  · rfl

theorem after_of_succ {n : ℕ} (hpc : inner.producer = .idle) (h : inner.memory.enqueued.length = n + 1) :
    Producer.after n inner = .signal := by
  unfold Producer.after
  rw [hpc]
  exact if_pos (by omega)

/-- An access of `Inner`'s call, or its giving up for want of a block. -/
theorem of_produced (h : Stocked cfg s) (hp : s.producer = .enqueue)
    (hs : ReaderWriterQueue.Produced s.inner inner) (hinv : ∃ A, ReaderWriterQueue.Inv cfg inner A) :
    Stocked cfg { s with inner := inner, producer := .after s.inner.memory.enqueued.length inner } := by
  have henq := h.enqueued
  rw [hp, Producer.unsignalled, Nat.add_zero] at henq
  refine ⟨h.balanced, hinv, ?_, ?_, ?_⟩
  · show inner.memory.enqueued.length = s.sem.signals + (Producer.after _ inner).unsignalled
    rcases hs.enqueued with heq | ⟨hpc, hlen⟩
    · rw [unsignalled_after_of_eq (by rw [heq]), heq, henq, Nat.add_zero]
    · rw [after_of_succ hpc hlen, hlen, henq, Producer.unsignalled]
  · show inner.memory.consumed.length + s.paid = s.sem.successes
    rw [hs.consumed]
    exact h.consumed
  · have hat := h.consumer
    cases hc : s.consumer with
    | idle | wait | assertFailed =>
        rw [hc] at hat
        exact hat
    | peek =>
        rw [hc] at hat
        refine ⟨hat.1, ?_⟩
        show inner.consumer.op? = _
        rw [hs.consumer]
        exact hat.2
    | take c =>
        -- with an element to spare the queue is not empty while the producer goes on
        have hpaid : s.paid = 1 := by
          unfold State.paid
          rw [hc]
        rw [hc] at hat
        refine ⟨hat.1, ?_, hs.wasEmpty (h.consumed_lt hpaid) hat.2.2⟩
        show inner.consumer.op? = _
        rw [hs.consumer]
        exact hat.2.1

theorem enqueue (h : Stocked cfg s) (mode : AllocMode) (v : V) (hp : s.producer = .idle)
    (hs : ReaderWriterQueue.Step cfg s.inner (.enqueue mode v) inner) :
    Stocked cfg { s with inner := inner, producer := .enqueue } := by
  obtain ⟨A, hinv⟩ := h.inner
  have henq := h.enqueued
  rw [hp] at henq
  have hinv' := hinv.step hs
  cases hs with
  | enqueue _ _ hpc => exact ⟨h.balanced, hinv', henq, h.consumed, h.consumer⟩

/-- `Signal` raises `Count`. -/
theorem signal (h : Stocked cfg s) (htime : LightWeightSemaphore.InTime s.sem .signal) (hp : s.producer = .signal)
    (hs : LightWeightSemaphore.Step s.sem .signal sem) : Stocked cfg { s with sem := sem, producer := .idle } := by
  have hbal := h.balanced.step htime hs
  have henq := h.enqueued
  rw [hp, Producer.unsignalled] at henq
  cases hs with
  | signal => exact ⟨hbal, h.inner, henq, h.consumed, h.consumer⟩

theorem release (h : Stocked cfg s) (htime : LightWeightSemaphore.InTime s.sem .release)
    (hs : LightWeightSemaphore.Step s.sem .release sem) : Stocked cfg { s with sem := sem } := by
  have hbal := h.balanced.step htime hs
  cases hs with
  | release => exact ⟨hbal, h.inner, h.enqueued, h.consumed, h.consumer⟩

/-! ### The consumer -/

theorem paid_of_wait {c : Call} (hc : s.consumer = .wait c) : s.paid = s.sem.waiter.succeeded := by
  unfold State.paid
  rw [hc]

theorem paid_of_take {c : Call} (hc : s.consumer = .take c) : s.paid = 1 := by
  unfold State.paid
  rw [hc]

theorem call (h : Stocked cfg s) (c : Call) (hc : s.consumer = .idle) :
    Stocked cfg { s with sem := { s.sem with waiter := .tryWait c.wait }, consumer := .wait c } := by
  have hat := h.consumer
  have hcons := h.consumed
  rw [hc] at hat
  have hpaid : s.paid = 0 := by
    unfold State.paid
    rw [hc]
  rw [hpaid] at hcons
  have hbal := h.balanced.step (inTime_of_ne (by decide)) (.call s.sem c.wait hat)
  exact ⟨hbal, h.inner, h.enqueued, hcons, trivial⟩

theorem wait {c : Call} {a : Access} (h : Stocked cfg s) (htime : LightWeightSemaphore.InTime s.sem a)
    (hc : s.consumer = .wait c) (ha : a.InWait) (hs : LightWeightSemaphore.Step s.sem a sem) :
    Stocked cfg { s with sem := sem } := by
  have hcons := h.consumed
  rw [paid_of_wait hc] at hcons
  obtain ⟨hsig, hsucc⟩ := succeeded_of_step (by rintro rfl; exact ha) (by rintro rfl; exact ha) hs
  refine ⟨h.balanced.step htime hs, h.inner, ?_, ?_, ?_⟩
  · show s.inner.memory.enqueued.length = sem.signals + s.producer.unsignalled
    rw [hsig]
    exact h.enqueued
  · have hpaid : State.paid { s with sem := sem } = sem.waiter.succeeded := paid_of_wait hc
    rw [hpaid]
    show s.inner.memory.consumed.length + sem.waiter.succeeded = sem.successes
    omega
  · show s.consumer.At _
    rw [hc]
    exact trivial

/-- A call of `Inner` begins with an element there. -/
theorem enter {c : Call} (h : Stocked cfg s) (hc : s.consumer = .wait c) (hw : s.sem.waiter = .returned true)
    (hs : ReaderWriterQueue.Step cfg s.inner (.dequeue c.op) inner) :
    Stocked cfg { s with inner := inner, sem := { s.sem with waiter := .idle }, consumer := .take c } := by
  obtain ⟨A, hinv⟩ := h.inner
  have hpaid : s.paid = 1 := by
    rw [paid_of_wait hc, hw, Waiter.succeeded]
  have hlt := h.consumed_lt hpaid
  have hcons := h.consumed
  rw [hpaid] at hcons
  -- the token the wait has taken passes to the call
  have hinv' := hinv.step hs
  have hbal := h.balanced.step (inTime_of_ne (by decide)) (.leave s.sem true hw)
  cases hs with
  | dequeue _ hpc =>
      exact ⟨hbal, hinv', h.enqueued, hcons, rfl, rfl, ReaderWriterQueue.note_wasEmpty rfl hlt⟩

theorem leave {c : Call} (h : Stocked cfg s) (hc : s.consumer = .wait c) (hw : s.sem.waiter = .returned false) :
    Stocked cfg { s with sem := { s.sem with waiter := .idle }, consumer := .idle } := by
  have hcons := h.consumed
  rw [paid_of_wait hc, hw] at hcons
  have hbal := h.balanced.step (inTime_of_ne (by decide)) (.leave s.sem false hw)
  exact ⟨hbal, h.inner, h.enqueued, hcons, rfl⟩

theorem peek (h : Stocked cfg s) (hc : s.consumer = .idle)
    (hs : ReaderWriterQueue.Step cfg s.inner (.dequeue .peek) inner) :
    Stocked cfg { s with inner := inner, consumer := .peek } := by
  obtain ⟨A, hinv⟩ := h.inner
  have hat := h.consumer
  have hcons := h.consumed
  rw [hc] at hat
  have hpaid : s.paid = 0 := by
    unfold State.paid
    rw [hc]
  rw [hpaid] at hcons
  have hinv' := hinv.step hs
  cases hs with
  | dequeue _ hpc => exact ⟨h.balanced, hinv', h.enqueued, hcons, hat, rfl⟩

theorem after_of_op? {c : Call} {op : ReaderWriterQueue.Op} (h : inner.consumer.op? = some op) :
    Consumer.after c inner = .take c := by
  unfold Consumer.after
  split
  · next hpc =>
      rw [hpc] at h
      exact absurd h nofun
  · rfl

theorem afterPeek_of_op? {op : ReaderWriterQueue.Op} (h : inner.consumer.op? = some op) :
    Consumer.afterPeek inner = .peek := by
  unfold Consumer.afterPeek
  split
  · next hpc =>
      rw [hpc] at h
      exact absurd h nofun
  · rfl

/-- **Past the semaphore** the call of `Inner` takes an element. -/
theorem consume {c : Call} (h : Stocked cfg s) (hc : s.consumer = .take c)
    (hs : ReaderWriterQueue.Step cfg s.inner .consume inner) :
    Stocked cfg { s with inner := inner, consumer := .after c inner } := by
  obtain ⟨A, hinv⟩ := h.inner
  obtain ⟨A', hinv'⟩ := hinv.step hs
  have hlt := h.consumed_lt (paid_of_take hc)
  have hcons := h.consumed
  have hat := h.consumer
  rw [paid_of_take hc] at hcons
  rw [hc] at hat
  obtain ⟨hw, hop, hempty⟩ := hat
  cases hs with
  | @consume m pc hstep =>
      have hgoes := ReaderWriterQueue.Consumed.consume hop hinv.consumer hstep
      cases hgoes with
      | goesOn hpc henq hcons' hempty' =>
          rw [after_of_op? hpc]
          refine ⟨h.balanced, ⟨A', hinv'⟩, ?_, ?_, hw, hpc, ?_⟩
          · exact (congrArg List.length henq).trans h.enqueued
          · show m.consumed.length + 1 = s.sem.successes
            rw [hcons', hcons]
          · exact ReaderWriterQueue.note_wasEmpty (hempty'.trans hempty) (by rw [hcons', henq]; exact hlt)
      -- the inner queue's own assertions hold
      | assertFailed => exact absurd hinv'.consumer id
      | nothing hout henq hcons' =>
          -- a call that gives nothing has found the queue empty
          have hfound := hinv'.shared.history.empties ⟨c.op, none, s.inner.memory.wasEmpty⟩ ?_ rfl
          · rw [show s.inner.memory.wasEmpty = true from hfound] at hempty
            exact absurd hempty nofun
          · show _ ∈ m.outcomes
            rw [hout]
            exact List.mem_cons_self
      | @found slot hout henq hcons' =>
          have hafter : Consumer.after c ⟨m.note, s.inner.producer, .idle⟩ = .idle := by
            show (if m.outcomes.head?.bind _ = none then Consumer.assertFailed else .idle) = .idle
            rw [hout]
            rfl
          rw [hafter]
          refine ⟨h.balanced, ⟨A', hinv'⟩, (congrArg List.length henq).trans h.enqueued, ?_, hw⟩
          show m.consumed.length + 0 = s.sem.successes
          -- it takes one element, which pays back the token
          have htaken : c.op.taken = 1 := by
            cases c <;> rfl
          omega

theorem consumePeek (h : Stocked cfg s) (hc : s.consumer = .peek)
    (hs : ReaderWriterQueue.Step cfg s.inner .consume inner) :
    Stocked cfg { s with inner := inner, consumer := .afterPeek inner } := by
  obtain ⟨A, hinv⟩ := h.inner
  obtain ⟨A', hinv'⟩ := hinv.step hs
  have hcons := h.consumed
  have hat := h.consumer
  have hpaid : s.paid = 0 := by
    unfold State.paid
    rw [hc]
  rw [hpaid] at hcons
  rw [hc] at hat
  obtain ⟨hw, hop⟩ := hat
  cases hs with
  | @consume m pc hstep =>
      have hgoes := ReaderWriterQueue.Consumed.consume hop hinv.consumer hstep
      cases hgoes with
      | goesOn hpc henq hcons' _ =>
          rw [afterPeek_of_op? hpc]
          exact ⟨h.balanced, ⟨A', hinv'⟩, (congrArg List.length henq).trans h.enqueued,
            (congrArg List.length hcons').trans hcons, hw, hpc⟩
      | assertFailed => exact absurd hinv'.consumer id
      | nothing _ henq hcons' =>
          exact ⟨h.balanced, ⟨A', hinv'⟩, (congrArg List.length henq).trans h.enqueued,
            (congrArg List.length hcons').trans hcons, hw⟩
      | found _ henq hcons' =>
          exact ⟨h.balanced, ⟨A', hinv'⟩, (congrArg List.length henq).trans h.enqueued, hcons'.trans hcons, hw⟩

/-- **Step.** -/
theorem step {a : Act V} (h : Stocked cfg s) (htime : InTime s a) (hs : Step cfg s a s') : Stocked cfg s' := by
  cases hs with
  | enqueue mode v hp _ hs => exact h.enqueue mode v hp hs
  | produce hp hs =>
      obtain ⟨A, hinv⟩ := h.inner
      have hinv' := hinv.step hs
      cases hs with
      | produce hstep => exact h.of_produced hp (.produce hstep) hinv'
  | noBlock hp hs =>
      obtain ⟨A, hinv⟩ := h.inner
      have hinv' := hinv.step hs
      cases hs with
      | noBlock hpc => exact h.of_produced hp .noBlock hinv'
  | signal hp hs => exact h.signal htime hp hs
  | release hs => exact h.release htime hs
  | call c hc => exact h.call c hc
  | wait hc ha hs => exact h.wait htime hc ha hs
  | enter hc hw hs => exact h.enter hc hw hs
  | leave hc hw => exact h.leave hc hw
  | peek hc hs => exact h.peek hc hs
  | consume hc hs => exact h.consume hc hs
  | consumePeek hc hs => exact h.consumePeek hc hs

/-- **Run.** -/
theorem reaches {reservedSize : ℕ} (hpos : 1 ≤ reservedSize) (hlt : reservedSize < 2 ^ (cfg.w - 1))
    (h : Reaches (Step cfg) InTime (State.fresh cfg reservedSize : State V) s) : Stocked cfg s :=
  h.invariant (.fresh hpos hlt) fun _ _ _ hstock htime hs => hstock.step htime hs

end Stocked

/-! ### A run -/

/-- Some run in which the waits give back in time leads to such a state. -/
def CanReach (cfg : Cfg) (P : State V → Prop) (s : State V) : Prop := ∃ s', Reaches (Step cfg) InTime s s' ∧ P s'

namespace CanReach

variable {cfg : Cfg} {P : State V → Prop} {s s' : State V} {m : ReaderWriterQueue.Memory V}
  {ppc : ReaderWriterQueue.ProducerPc V} {cpc : ReaderWriterQueue.ConsumerPc V} {sem : LightWeightSemaphore.State}
  {pr : Producer} {co : Consumer}

theorem now (h : P s) : CanReach cfg P s := ⟨s, .refl s, h⟩

theorem head {a : Act V} (hs : Step cfg s a s') (htime : InTime s a) (h : CanReach cfg P s') : CanReach cfg P s := by
  obtain ⟨s'', hreach, hP⟩ := h
  exact ⟨s'', .head hs htime hreach, hP⟩

theorem produce (h : ∃ m' ppc', ReaderWriterQueue.produce cfg m ppc = some (m', ppc') ∧
    CanReach cfg P ⟨⟨m'.note, ppc', cpc⟩, sem, .after m.enqueued.length ⟨m'.note, ppc', cpc⟩, co⟩) :
    CanReach cfg P ⟨⟨m, ppc, cpc⟩, sem, .enqueue, co⟩ := by
  obtain ⟨m', ppc', hs, h⟩ := h
  exact .head (.produce rfl (.produce hs)) trivial h

theorem consume {c : Call} (h : ∃ m' cpc', ReaderWriterQueue.consume m cpc = some (m', cpc') ∧
    CanReach cfg P ⟨⟨m'.note, ppc, cpc'⟩, sem, pr, .after c ⟨m'.note, ppc, cpc'⟩⟩) :
    CanReach cfg P ⟨⟨m, ppc, cpc⟩, sem, pr, .take c⟩ := by
  obtain ⟨m', cpc', hs, h⟩ := h
  exact .head (.consume rfl (.consume hs)) trivial h

/-- The spinning loop runs out. -/
theorem spin {inner : ReaderWriterQueue.State V} {n : ℕ} {t count : ℤ} {semCount signals successes : ℕ}
    {signaller : Signaller} {c : Call} (hcount : count ≤ 0)
    (h : CanReach cfg P ⟨inner, ⟨count, semCount, signaller, .spin 0 t, signals, successes⟩, pr, .wait c⟩) :
    CanReach cfg P ⟨inner, ⟨count, semCount, signaller, .spin n t, signals, successes⟩, pr, .wait c⟩ := by
  induction n with
  | zero => exact h
  | succ n ih =>
      have hstep :=
        LightWeightSemaphore.Step.spin ⟨count, semCount, signaller, .spin (n + 1) t, signals, successes⟩ n t rfl
      rw [if_neg (Int.not_lt.mpr hcount)] at hstep
      have hwait : Access.InWait .load := trivial
      exact .head (.wait rfl hwait hstep) (inTime_of_ne (by decide)) ih

end CanReach

theorem fresh_one : (ReaderWriterQueue.Memory.fresh ⟨8, 1, by decide, by decide⟩ 1 : ReaderWriterQueue.Memory ℕ) =
    { frontBlock := 0, tailBlock := 0, blockSize := 2
      blocks := fun b =>
        { front := 0, localTail := 0, tail := 0, localFront := 0, next := some ((b + 1) % 1), size := 2
          data := fun _ => none, sizeMask := 1 }
      blockCount := 1, enqueued := [], consumed := [], outcomes := [], wasEmpty := true } := by
  have hblocks : ReaderWriterQueue.initialBlocks ⟨8, 1, by decide, by decide⟩ 1 = (1, 2) := by decide
  rw [ReaderWriterQueue.Memory.fresh, hblocks]
  rfl

section

attribute [local simp] ReaderWriterQueue.produce ReaderWriterQueue.consume ReaderWriterQueue.orElse
  ReaderWriterQueue.useFront ReaderWriterQueue.Memory.note ReaderWriterQueue.Memory.updateBlock
  ReaderWriterQueue.Memory.enqueue ReaderWriterQueue.Memory.finish ReaderWriterQueue.Block.construct
  ReaderWriterQueue.Block.destroy ReaderWriterQueue.Block.succ Producer.after Consumer.after

/-- A `DequeueWaitFor( 5 )` times out, an item comes and the next `TryDequeue` takes it. -/
theorem canReach_timedWait : CanReach ⟨8, 1, by decide, by decide⟩ (fun s : State ℕ => s.inner.memory.consumed = [some 7])
    (State.fresh ⟨8, 1, by decide, by decide⟩ 1) := by
  have hwait : ∀ a ∈ [Access.load, .take, .subtract, .timeOut, .giveBack], a.InWait := by
    simp [Access.InWait]
  rw [State.fresh, ReaderWriterQueue.State.fresh, fresh_one]
  -- the wait spins, takes one all the same, times out and gives it back
  refine .head (.call (.dequeueWaitFor 5) rfl) trivial ?_
  refine .head (.wait rfl (hwait _ (by decide)) (.load _ _ rfl)) (inTime_of_ne (by decide)) ?_
  refine .spin (Int.le_refl 0) ?_
  refine .head (.wait rfl (hwait _ (by decide)) (.subtract _ 5 rfl)) (inTime_of_ne (by decide)) ?_
  refine .head (.wait rfl (hwait _ (by decide)) (.timeOut _ rfl)) (inTime_of_ne (by decide)) ?_
  refine .head (.wait rfl (hwait _ (by decide)) (.giveBack _ rfl)) (fun _ => by decide) ?_
  refine .head (.leave rfl rfl) trivial ?_
  -- the item comes, and its signal
  refine .head (.enqueue .cannotAlloc 7 rfl rfl (.enqueue .cannotAlloc 7 rfl)) trivial ?_
  iterate 4 (apply CanReach.produce; simp)
  refine .head (.signal rfl (.signal _ rfl)) (inTime_of_ne (by decide)) ?_
  refine .head (.call .tryDequeue rfl) trivial ?_
  refine .head (.wait rfl (hwait _ (by decide)) (.load _ _ rfl)) (inTime_of_ne (by decide)) ?_
  refine .head (.wait rfl (hwait _ (by decide)) (.take _ rfl)) (inTime_of_ne (by decide)) ?_
  refine .head (.enter rfl rfl (.dequeue .tryDequeue rfl)) trivial ?_
  iterate 6 (apply CanReach.consume; simp)
  exact .now rfl

end

end BlockingReaderWriterQueue

namespace LightWeightSemaphore

/-- **Tokens are conserved** in every run in which a wait that timed out gives its decrement back while `Count`
    is negative: no more waits return true than there were tokens, and between calls `Count` is what is left of
    them. In the blocking queue, if its first block has a slot to spare, a call past the semaphore has an element
    to take and its assertion holds. -/
theorem tokens_conserved {V : Type} {cfg : Cfg} {reservedSize : ℕ} (initialCount : ℕ) {s : State}
    {q : BlockingReaderWriterQueue.State V} (hpos : 1 ≤ reservedSize) (hlt : reservedSize < 2 ^ (cfg.w - 1))
    (hs : Reaches Step InTime (.fresh initialCount) s)
    (hq : Reaches (BlockingReaderWriterQueue.Step cfg) BlockingReaderWriterQueue.InTime (.fresh cfg reservedSize) q) :
    s.successes ≤ initialCount + s.signals ∧
      (s.Quiescent → s.count = initialCount + s.signals - s.successes) ∧
      (∀ c, q.consumer = .take c → q.inner.memory.consumed.length < q.inner.memory.enqueued.length) ∧
      q.consumer ≠ .assertFailed ∧ ReaderWriterQueue.Lossless q.inner := by
  have hbal := Balanced.reaches hs
  have hstock := BlockingReaderWriterQueue.Stocked.reaches hpos hlt hq
  obtain ⟨A, hinv⟩ := hstock.inner
  refine ⟨hbal.successes_le, hbal.count_eq, fun c hc => ?_, fun hc => ?_, hinv.lossless⟩
  · exact hstock.consumed_lt (BlockingReaderWriterQueue.Stocked.paid_of_take hc)
  · have hat := hstock.consumer
    rw [hc] at hat
    exact hat

/-- A wait that times out, a signal and a wait that takes its token; in the blocking queue an item that is taken
    after a wait has timed out. -/
theorem tokens_conserved_timedWait : ∃ (s : State) (q : BlockingReaderWriterQueue.State ℕ),
    s.successes = 1 ∧ q.inner.memory.consumed = [some 7] ∧ s.successes ≤ 0 + s.signals ∧
      (s.Quiescent → s.count = (0 : ℕ) + s.signals - s.successes) ∧
      (∀ c, q.consumer = .take c → q.inner.memory.consumed.length < q.inner.memory.enqueued.length) ∧
      q.consumer ≠ .assertFailed ∧ ReaderWriterQueue.Lossless q.inner := by
  have hcall : Step (.fresh 0) .call ⟨0, 0, .idle, .tryWait (some 5), 0, 0⟩ := .call _ (some 5) rfl
  have hload : Step ⟨0, 0, .idle, .tryWait (some 5), 0, 0⟩ .load ⟨0, 0, .idle, .spin 1024 5, 0, 0⟩ :=
    .load _ (some 5) rfl
  have hspin : Reaches Step InTime ⟨0, 0, .idle, .spin 1024 5, 0, 0⟩ ⟨0, 0, .idle, .spin 0 5, 0, 0⟩ :=
    reaches_spin (fun _ => inTime_of_ne (by decide)) 1024 5 _ rfl (Int.le_refl _)
  have hsubtract : Step ⟨0, 0, .idle, .spin 0 5, 0, 0⟩ .subtract ⟨-1, 0, .idle, .tryAcquireFor, 0, 0⟩ :=
    .subtract _ 5 rfl
  have htimeOut : Step ⟨-1, 0, .idle, .tryAcquireFor, 0, 0⟩ .timeOut ⟨-1, 0, .idle, .giveBack, 0, 0⟩ :=
    .timeOut _ rfl
  have hgive : Step ⟨-1, 0, .idle, .giveBack, 0, 0⟩ .giveBack ⟨0, 0, .idle, .returned false, 0, 0⟩ :=
    .giveBack _ rfl
  have hleave : Step ⟨0, 0, .idle, .returned false, 0, 0⟩ .leave (.fresh 0) := .leave _ false rfl
  have hsignal : Step (.fresh 0) .signal ⟨1, 0, .idle, .idle, 1, 0⟩ := .signal _ rfl
  have hagain : Step ⟨1, 0, .idle, .idle, 1, 0⟩ .call ⟨1, 0, .idle, .tryWait none, 1, 0⟩ := .call _ none rfl
  have hfound : Step ⟨1, 0, .idle, .tryWait none, 1, 0⟩ .load ⟨1, 0, .idle, .take, 1, 0⟩ := .load _ none rfl
  have htake : Step ⟨1, 0, .idle, .take, 1, 0⟩ .take ⟨0, 0, .idle, .returned true, 1, 1⟩ := .take _ rfl
  have hrun : Reaches Step InTime (.fresh 0) ⟨0, 0, .idle, .returned true, 1, 1⟩ :=
    .head hcall (inTime_of_ne (by decide)) (.head hload (inTime_of_ne (by decide)) (hspin.trans
      (.head hsubtract (inTime_of_ne (by decide)) (.head htimeOut (inTime_of_ne (by decide))
      (.head hgive (fun _ => by decide) (.head hleave (inTime_of_ne (by decide))
      (.head hsignal (inTime_of_ne (by decide)) (.head hagain (inTime_of_ne (by decide))
      (.head hfound (inTime_of_ne (by decide)) (.head htake (inTime_of_ne (by decide)) (.refl _)))))))))))
  obtain ⟨q, hq, hconsumed⟩ := BlockingReaderWriterQueue.canReach_timedWait
  exact ⟨_, q, rfl, hconsumed, tokens_conserved 0 (by decide) (by decide) hrun hq⟩

/-- A signal comes between the decrement of a `Wait( 0 )` and its giving it back: the wait gets that token, and
    `Count` keeps it. -/
theorem not_tokens_conserved : ¬ ∀ (initialCount : ℕ) (s : State),
    Reaches Step (fun _ _ => True) (.fresh initialCount) s → s.successes ≤ initialCount + s.signals ∧
      (s.Quiescent → s.count = initialCount + s.signals - s.successes) := by
  intro h
  have hcall : Step (.fresh 0) .call ⟨0, 0, .idle, .tryWait (some 0), 0, 0⟩ := .call _ (some 0) rfl
  have hload : Step ⟨0, 0, .idle, .tryWait (some 0), 0, 0⟩ .load ⟨0, 0, .idle, .spin 1024 0, 0, 0⟩ :=
    .load _ (some 0) rfl
  have hspin : Reaches Step (fun _ _ => True) ⟨0, 0, .idle, .spin 1024 0, 0, 0⟩ ⟨0, 0, .idle, .spin 0 0, 0, 0⟩ :=
    reaches_spin (fun _ => trivial) 1024 0 _ rfl (Int.le_refl _)
  have hsubtract : Step ⟨0, 0, .idle, .spin 0 0, 0, 0⟩ .subtract ⟨-1, 0, .idle, .giveBack, 0, 0⟩ :=
    .subtract _ 0 rfl
  have hsignal : Step ⟨-1, 0, .idle, .giveBack, 0, 0⟩ .signal ⟨0, 0, .release, .giveBack, 1, 0⟩ := .signal _ rfl
  have hgive : Step ⟨0, 0, .release, .giveBack, 1, 0⟩ .giveBack ⟨1, 0, .release, .tryAcquire, 1, 0⟩ :=
    .giveBack _ rfl
  have hrelease : Step ⟨1, 0, .release, .tryAcquire, 1, 0⟩ .release ⟨1, 1, .idle, .tryAcquire, 1, 0⟩ :=
    .release _ rfl
  have hacquire : Step ⟨1, 1, .idle, .tryAcquire, 1, 0⟩ .tryAcquire ⟨1, 0, .idle, .returned true, 1, 1⟩ :=
    .tryAcquire _ rfl Nat.one_pos
  have hrun : Reaches Step (fun _ _ => True) (.fresh 0) ⟨1, 0, .idle, .returned true, 1, 1⟩ :=
    .head hcall trivial (.head hload trivial (hspin.trans (.head hsubtract trivial (.head hsignal trivial
      (.head hgive trivial (.head hrelease trivial (.head hacquire trivial (.refl _))))))))
  have := (h 0 _ hrun).2 ⟨rfl, Or.inr ⟨true, rfl⟩⟩
  exact absurd this (by decide)

end LightWeightSemaphore

end LockFreeStructures
