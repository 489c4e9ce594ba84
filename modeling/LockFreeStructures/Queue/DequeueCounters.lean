import Mathlib.Data.List.Pairwise
import LockFreeStructures.Lib.Interleaving
import LockFreeStructures.Lib.Tally
import LockFreeStructures.Queue.Size

/-!
# `Queue.DequeueCounters` — how consumers claim elements

`Dequeue` and `DequeueBulk` of both queues claim elements with the same accesses to `TailIndex`, `HeadIndex`,
`DequeueAttemptsCount` and `DequeueFailedCount`. Each access is one step here, next to a producer that raises
`TailIndex`. The counters are words of `w` bits. Every unit of `DequeueAttemptsCount` is an attempt with a `fate` of
its own.

The tests compare words on a circle. They are right as long as fewer than `2 ^ ( w - 1 )` elements have been enqueued
and fewer attempts than that been made; past that the attempts that are still to fail make a test pass that should not.
-/

namespace LockFreeStructures

namespace DequeueCounters

inductive Call where
  | dequeue
  | dequeueBulk (maxCount : ℕ)

/-- What has become of an attempt. -/
inductive Fate (T : Type) where
  | pending (t : T)
  | failed
  | taken
  deriving DecidableEq

/-- A range of indices `HeadIndex.fetch_add` has handed out, and `TailIndex` at that time. -/
structure Claim where
  first : ℕ
  count : ℕ
  tailIndex : ℕ

structure Memory (T : Type) where
  tailIndex : ℕ
  headIndex : ℕ
  dequeueAttemptsCount : ℕ
  dequeueFailedCount : ℕ
  claims : List Claim
  fate : ℕ → Fate T

/-- Where a consumer is. The two counters of the first test are loaded in either order. -/
inductive Pc where
  | idle (returned : Option ℕ)
  | loadFailedCount (c : Call)
  | loadCounts (c : Call) (failedCount : ℕ)
  | loadTailIndex (c : Call) (failedCount attemptsCount : ℕ)
  | loadAttemptsCount (c : Call) (failedCount tailIndex : ℕ)
  | addAttempts (c : Call) (failedCount desiredCount : ℕ)
  | reloadTailIndex (c : Call) (failedCount desiredCount attemptsCount : ℕ)
  | addFailed (desiredCount attemptsCount actualCount : ℕ)
  | addHeadIndex (attemptsCount actualCount : ℕ)
  | giveUp (desiredCount attemptsCount : ℕ)

inductive Act where
  | raise (n : ℕ)
  | call (c : Call)
  | access (tailFirst : Bool)

variable {T : Type}

def Memory.fresh : Memory T := ⟨0, 0, 0, 0, [], fun _ => .failed⟩

section Accesses

variable (w : ℕ)

namespace Memory

/-- `DequeueAttemptsCount.fetch_add( DesiredCount )` -/
def attempt (t : T) (n : ℕ) (m : Memory T) : Memory T :=
  { m with
    dequeueAttemptsCount := Word.add w m.dequeueAttemptsCount n
    fate := fill m.fate m.dequeueAttemptsCount n (.pending t) }

/-- `DequeueFailedCount.fetch_add`, for the `n` attempts from `a` on. -/
def fail (a n : ℕ) (m : Memory T) : Memory T :=
  { m with dequeueFailedCount := Word.add w m.dequeueFailedCount n, fate := fill m.fate a n .failed }

/-- `HeadIndex.fetch_add`, for the `n` attempts from `a` on. -/
def take (a n : ℕ) (m : Memory T) : Memory T :=
  { m with
    headIndex := Word.add w m.headIndex n
    claims := ⟨m.headIndex, n, m.tailIndex⟩ :: m.claims
    fate := fill m.fate a n .taken }

end Memory

namespace Call

/-- The first test and `DesiredCount`. -/
def desiredCount (failedCount attemptsCount tailIndex : ℕ) : Call → Option ℕ
  | .dequeue => if circularLessThan w (Word.sub w attemptsCount failedCount) tailIndex then some 1 else none
  | .dequeueBulk maxCount =>
      let desired := Word.sub w tailIndex (Word.sub w attemptsCount failedCount)
      if circularLessThan w 0 desired then some (min desired maxCount) else none

/-- The second test and `ActualCount`. -/
def actualCount (failedCount desiredCount attemptsCount tailIndex : ℕ) : Call → Option ℕ
  | .dequeue => if circularLessThan w (Word.sub w attemptsCount failedCount) tailIndex then some 1 else none
  | .dequeueBulk _ =>
      let actual := Word.sub w tailIndex (Word.sub w attemptsCount failedCount)
      if circularLessThan w 0 actual then some (min actual desiredCount) else none

/-- Where the first test leads. -/
def tested (failedCount attemptsCount tailIndex : ℕ) (c : Call) : Pc :=
  match c.desiredCount w failedCount attemptsCount tailIndex with
  | none => .idle (some 0)
  | some desired => .addAttempts c failedCount desired

/-- Where the second test leads. -/
def retested (failedCount desired attemptsCount tailIndex : ℕ) (c : Call) : Pc :=
  match c.actualCount w failedCount desired attemptsCount tailIndex with
  | none => .giveUp desired attemptsCount
  | some actual =>
      if actual < desired then .addFailed desired attemptsCount actual else .addHeadIndex attemptsCount actual

end Call

/-- The next access of consumer `t`. -/
def access (t : T) (tailFirst : Bool) (m : Memory T) : Pc → Option (Memory T × Pc)
  | .idle _ => none
  | .loadFailedCount c => some (m, .loadCounts c m.dequeueFailedCount)
  | .loadCounts c failed =>
      some (m, if tailFirst then .loadAttemptsCount c failed m.tailIndex
        else .loadTailIndex c failed m.dequeueAttemptsCount)
  | .loadTailIndex c failed attempts => some (m, c.tested w failed attempts m.tailIndex)
  | .loadAttemptsCount c failed tail => some (m, c.tested w failed m.dequeueAttemptsCount tail)
  | .addAttempts c failed desired =>
      some (m.attempt w t desired, .reloadTailIndex c failed desired m.dequeueAttemptsCount)
  | .reloadTailIndex c failed desired attempts => some (m, c.retested w failed desired attempts m.tailIndex)
  | .addFailed desired attempts actual =>
      some (m.fail w (attempts + actual) (desired - actual), .addHeadIndex attempts actual)
  | .addHeadIndex attempts actual => some (m.take w attempts actual, .idle (some actual))
  | .giveUp desired attempts => some (m.fail w attempts desired, .idle (some 0))

/-- The producer is thread `none`. -/
inductive ThreadStep : Option T → Memory T × Pc → Act → Memory T × Pc → Prop
  | raise {m : Memory T} {pc : Pc} {n : ℕ} :
      ThreadStep none (m, pc) (.raise n) ({ m with tailIndex := Word.add w m.tailIndex n }, pc)
  | call {t : T} {m : Memory T} {c : Call} {returned : Option ℕ} :
      ThreadStep (some t) (m, .idle returned) (.call c) (m, .loadFailedCount c)
  | access {t : T} {m : Memory T} {pc : Pc} {tailFirst : Bool} {r : Memory T × Pc}
      (h : DequeueCounters.access w t tailFirst m pc = some r) : ThreadStep (some t) (m, pc) (.access tailFirst) r

/-- The step of a thread, computed. -/
def threadStep : Option T → Act → Memory T × Pc → Option (Memory T × Pc)
  | none, .raise n, (m, pc) => some ({ m with tailIndex := Word.add w m.tailIndex n }, pc)
  | some _, .call c, (m, .idle _) => some (m, .loadFailedCount c)
  | some t, .access tailFirst, (m, pc) => DequeueCounters.access w t tailFirst m pc
  | _, _, _ => none

theorem ThreadStep.of_threadStep {t : Option T} {a : Act} {r r' : Memory T × Pc} (h : threadStep w t a r = some r') :
    ThreadStep w t r a r' := by
  unfold threadStep at h
  split at h
  · cases h
    exact .raise
  · cases h
    exact .call
  · exact .access h
  · cases h

abbrev State (T : Type) := Interleaving.State (Option T) (Memory T) Pc

def start : State T := ⟨.fresh, fun _ => .idle none⟩

abbrev Step [DecidableEq T] : State T → Option T × Act → State T → Prop :=
  Interleaving.Step (ThreadStep w)

/-- The attempts that are about to be made stay below `2 ^ ( w - 1 )`. -/
def Pc.InRange (m : Memory T) : Pc → Prop
  | .addAttempts _ _ desired => m.dequeueAttemptsCount + desired < 2 ^ (w - 1)
  | _ => True

def Act.InRange (m : Memory T) (pc : Pc) : Act → Prop
  | .raise n => m.tailIndex + n < 2 ^ (w - 1)
  | .call _ => True
  | .access _ => pc.InRange w m

/-- Fewer than `2 ^ ( w - 1 )` elements are enqueued and fewer attempts than that made. -/
def InRange (s : State T) (a : Option T × Act) : Prop := a.2.InRange w s.memory (s.threads a.1)

instance (m : Memory T) : (pc : Pc) → Decidable (pc.InRange w m)
  | .addAttempts _ _ desired => inferInstanceAs (Decidable (m.dequeueAttemptsCount + desired < 2 ^ (w - 1)))
  | .idle _ | .loadFailedCount _ | .loadCounts _ _ | .loadTailIndex _ _ _ | .loadAttemptsCount _ _ _
  | .reloadTailIndex _ _ _ _ | .addFailed _ _ _ | .addHeadIndex _ _ | .giveUp _ _ => isTrue trivial

instance (m : Memory T) (pc : Pc) : (a : Act) → Decidable (a.InRange w m pc)
  | .raise n => inferInstanceAs (Decidable (m.tailIndex + n < 2 ^ (w - 1)))
  | .call _ => isTrue trivial
  | .access _ => inferInstanceAs (Decidable (pc.InRange w m))

instance (s : State T) (a : Option T × Act) : Decidable (InRange w s a) :=
  inferInstanceAs (Decidable (a.2.InRange w s.memory (s.threads a.1)))

end Accesses

/-- No consumer call is in progress. -/
def Quiet (s : State T) : Prop := ∀ t : T, ∃ returned, s.threads (some t) = .idle returned

/-- Only consumer `t` goes on with its call. -/
def Alone (t : T) (_ : State T) (a : Option T × Act) : Prop := a.1 = some t ∧ ∃ tailFirst, a.2 = .access tailFirst

def Claim.range (c : Claim) : Finset ℕ := Finset.Ico c.first (c.first + c.count)

structure Safe [DecidableEq T] (w : ℕ) (s : State T) : Prop where
  head_le : s.memory.headIndex ≤ s.memory.tailIndex
  disjoint : s.memory.claims.Pairwise fun c c' => Disjoint c.range c'.range
  below : ∀ c ∈ s.memory.claims, ∀ i ∈ c.range, i < c.tailIndex
  balance : Quiet s → (s.memory.dequeueAttemptsCount : ℤ) - s.memory.dequeueFailedCount = s.memory.headIndex
  /-- a `Dequeue` on its own returns, and finds an element if there is one -/
  alone : Quiet s → ∀ t s', Step w s (some t, .call .dequeue) s' →
    (∃ s'' returned, Reaches (Step w) (Alone t) s' s'' ∧ s''.threads (some t) = .idle returned) ∧
    ∀ s'' returned, Reaches (Step w) (Alone t) s' s'' → s''.threads (some t) = .idle returned →
      returned = some (if s.memory.headIndex < s.memory.tailIndex then 1 else 0)

/-! ## The invariant -/

section Invariant

variable [DecidableEq T] {w : ℕ} {m m' : Memory T} {t t' : T} {pc pc' : Pc} {a n : ℕ}

namespace Memory

/-- The attempts before the `n`-th that have failed. -/
def failedBelow (m : Memory T) (n : ℕ) : ℕ := tally m.fate .failed n

def takenBelow (m : Memory T) (n : ℕ) : ℕ := tally m.fate .taken n

/-! The changes without wrapping. -/

def attempted (t : T) (n : ℕ) (m : Memory T) : Memory T :=
  { m with
    dequeueAttemptsCount := m.dequeueAttemptsCount + n
    fate := fill m.fate m.dequeueAttemptsCount n (.pending t) }

def failed (a n : ℕ) (m : Memory T) : Memory T :=
  { m with dequeueFailedCount := m.dequeueFailedCount + n, fate := fill m.fate a n .failed }

def taken (a n : ℕ) (m : Memory T) : Memory T :=
  { m with
    headIndex := m.headIndex + n
    claims := ⟨m.headIndex, n, m.tailIndex⟩ :: m.claims
    fate := fill m.fate a n .taken }

omit [DecidableEq T] in
theorem attempt_eq (h : m.dequeueAttemptsCount + n < 2 ^ w) : m.attempt w t n = m.attempted t n := by
  rw [attempt, Word.add_of_lt h]
  rfl

omit [DecidableEq T] in
theorem fail_eq (h : m.dequeueFailedCount + n < 2 ^ w) : m.fail w a n = m.failed a n := by
  rw [fail, Word.add_of_lt h]
  rfl

omit [DecidableEq T] in
theorem take_eq (h : m.headIndex + n < 2 ^ w) : m.take w a n = m.taken a n := by
  rw [take, Word.add_of_lt h]
  rfl

end Memory

theorem two_pow_pred_le (w : ℕ) : 2 ^ (w - 1) ≤ 2 ^ w := Nat.pow_le_pow_right (by decide) (Nat.sub_le w 1)

/-- The test of `Dequeue`, for counters in range. -/
theorem circularLessThan_sub_iff {failed attempts tail : ℕ} (hw : 0 < w) (hfailed : failed ≤ attempts)
    (hattempts : attempts < 2 ^ (w - 1)) (htail : tail < 2 ^ (w - 1)) :
    circularLessThan w (Word.sub w attempts failed) tail = true ↔ attempts < tail + failed := by
  have hhalf := Word.two_pow_pred_add hw
  rw [Word.sub_of_le hfailed (by omega), circularLessThan_iff hw]
  rcases Nat.le_total (attempts - failed) tail with hle | hge
  · rw [Word.sub_of_le hle (by omega)]
    omega
  · rcases Nat.eq_or_lt_of_le hge with heq | hlt
    · rw [← heq, Word.sub_of_le le_rfl (by omega)]
      omega
    · rw [Word.sub_of_lt hlt (by omega)]
      omega

/-- What `DequeueBulk` computes then. -/
theorem sub_sub_eq {failed attempts tail : ℕ} (hfailed : failed ≤ attempts) (hattempts : attempts < 2 ^ (w - 1))
    (htail : tail < 2 ^ (w - 1)) (hlt : attempts < tail + failed) :
    Word.sub w tail (Word.sub w attempts failed) = tail + failed - attempts := by
  have hhalf := two_pow_pred_le w
  rw [Word.sub_of_le hfailed (by omega), Word.sub_of_le (by omega) (by omega)]
  omega

theorem Memory.failedBelow_le (m : Memory T) (n : ℕ) : m.failedBelow n ≤ n :=
  (Nat.le_add_right ..).trans (tally_add_tally_le (y := .taken) m.fate (by rintro ⟨⟩) n)

structure Inv (w : ℕ) (m : Memory T) : Prop where
  tailIndex_lt : m.tailIndex < 2 ^ (w - 1)
  attemptsCount_lt : m.dequeueAttemptsCount < 2 ^ (w - 1)
  failed : m.dequeueFailedCount = m.failedBelow m.dequeueAttemptsCount
  head : m.headIndex = m.takenBelow m.dequeueAttemptsCount
  /-- the attempt was taken with a failed count that only counted earlier attempts -/
  taken : ∀ u < m.dequeueAttemptsCount, m.fate u = .taken → u < m.tailIndex + m.failedBelow u
  claims : m.claims.Pairwise fun c c' => Disjoint c.range c'.range
  claimed : ∀ c ∈ m.claims, c.first + c.count ≤ m.headIndex ∧ c.first + c.count ≤ c.tailIndex

/-- The pending attempts of thread `t` are the `n` from `a` on. -/
structure Holds (t : T) (m : Memory T) (a n : ℕ) : Prop where
  le : a + n ≤ m.dequeueAttemptsCount
  pending : ∀ u < m.dequeueAttemptsCount, m.fate u = .pending t ↔ a ≤ u ∧ u < a + n

/-- `Dequeue` makes one attempt. -/
def Call.Fits (desired : ℕ) : Call → Prop
  | .dequeue => desired = 1
  | .dequeueBulk _ => True

/-- What a consumer knows where it is. -/
def Pc.At (t : T) (m : Memory T) : Pc → Prop
  | .idle _ | .loadFailedCount _ => Holds t m 0 0
  | .loadCounts _ failed | .loadTailIndex _ failed _ | .loadAttemptsCount _ failed _ =>
      failed ≤ m.dequeueFailedCount ∧ Holds t m 0 0
  | .addAttempts c failed desired => c.Fits desired ∧ failed ≤ m.dequeueFailedCount ∧ Holds t m 0 0
  | .reloadTailIndex c failed desired attempts =>
      c.Fits desired ∧ failed ≤ m.failedBelow attempts ∧ Holds t m attempts desired
  | .addFailed desired attempts actual =>
      actual ≤ desired ∧ attempts + actual ≤ m.tailIndex + m.failedBelow attempts ∧ Holds t m attempts desired
  | .addHeadIndex attempts actual =>
      attempts + actual ≤ m.tailIndex + m.failedBelow attempts ∧ Holds t m attempts actual
  | .giveUp desired attempts => Holds t m attempts desired

/-- What the others do: counters only grow, and the attempts of thread `t` are left alone. -/
structure Rely (t : T) (m m' : Memory T) : Prop where
  tail : m.tailIndex ≤ m'.tailIndex
  attempts : m.dequeueAttemptsCount ≤ m'.dequeueAttemptsCount
  failedCount : m.dequeueFailedCount ≤ m'.dequeueFailedCount
  failed : ∀ u < m.dequeueAttemptsCount, m.fate u = .failed → m'.fate u = .failed
  pending : ∀ u < m.dequeueAttemptsCount, m'.fate u = .pending t ↔ m.fate u = .pending t
  later : ∀ u, m.dequeueAttemptsCount ≤ u → u < m'.dequeueAttemptsCount → m'.fate u ≠ .pending t

omit [DecidableEq T] in
theorem Rely.refl (t : T) (m : Memory T) : Rely t m m where
  tail := le_rfl
  attempts := le_rfl
  failedCount := le_rfl
  failed := fun _ _ h => h
  pending := fun _ _ => Iff.rfl
  later := fun _ hle hlt => absurd hlt (Nat.not_lt.mpr hle)

omit [DecidableEq T] in
theorem Rely.raise (t : T) (m : Memory T) (n : ℕ) : Rely t m { m with tailIndex := m.tailIndex + n } :=
  { Rely.refl t m with tail := Nat.le_add_right .. }

omit [DecidableEq T] in
theorem Holds.stable (h : Holds t m a n) (hrely : Rely t m m') : Holds t m' a n := by
  refine ⟨h.le.trans hrely.attempts, fun u hu => ?_⟩
  by_cases hold : u < m.dequeueAttemptsCount
  · rw [hrely.pending u hold, h.pending u hold]
  · have hle := h.le
    exact iff_of_false (hrely.later u (Nat.not_lt.mp hold) hu) fun hmem => hold (by omega)

theorem Rely.failedBelow_le (h : Rely t m m') (ha : a ≤ m.dequeueAttemptsCount) :
    m.failedBelow a ≤ m'.failedBelow a :=
  tally_mono fun u hu => h.failed u (Nat.lt_of_lt_of_le hu ha)

theorem Pc.At.stable (h : pc.At t m) (hrely : Rely t m m') : pc.At t m' := by
  have htail := hrely.tail
  cases pc with
  | idle | loadFailedCount => exact Holds.stable h hrely
  | loadCounts | loadTailIndex | loadAttemptsCount => exact ⟨h.1.trans hrely.failedCount, h.2.stable hrely⟩
  | addAttempts => exact ⟨h.1, h.2.1.trans hrely.failedCount, h.2.2.stable hrely⟩
  | reloadTailIndex c failed desired attempts =>
      have hle := hrely.failedBelow_le ((Nat.le_add_right ..).trans h.2.2.le)
      exact ⟨h.1, h.2.1.trans hle, h.2.2.stable hrely⟩
  | addFailed desired attempts actual =>
      obtain ⟨hactual, hbound, hholds⟩ := h
      have hle := hrely.failedBelow_le ((Nat.le_add_right ..).trans hholds.le)
      exact ⟨hactual, by omega, hholds.stable hrely⟩
  | addHeadIndex attempts actual =>
      obtain ⟨hbound, hholds⟩ := h
      have hle := hrely.failedBelow_le ((Nat.le_add_right ..).trans hholds.le)
      exact ⟨by omega, hholds.stable hrely⟩
  | giveUp => exact Holds.stable h hrely

/-- **No over-claim.** The last attempt that was taken is followed by no other, and of those before it as many have
    failed as its consumer had counted. -/
theorem headIndex_le_tailIndex (hhead : m.headIndex = m.takenBelow m.dequeueAttemptsCount)
    (htaken : ∀ u < m.dequeueAttemptsCount, m.fate u = .taken → u < m.tailIndex + m.failedBelow u) :
    m.headIndex ≤ m.tailIndex := by
  rcases Nat.eq_zero_or_pos (m.takenBelow m.dequeueAttemptsCount) with hzero | hpos
  · rw [hhead, hzero]
    exact Nat.zero_le _
  · obtain ⟨u, hu, hfate, hlast⟩ := exists_last hpos
    have hlt := htaken u hu hfate
    have hle : m.failedBelow u ≤ m.failedBelow (u + 1) := tally_le_of_le _ _ (Nat.le_succ u)
    have hcount : m.takenBelow (u + 1) + m.failedBelow (u + 1) ≤ u + 1 := tally_add_tally_le _ (by rintro ⟨⟩) _
    have hall : m.headIndex = m.takenBelow (u + 1) := hhead.trans hlast
    omega

theorem Inv.head_le (h : Inv w m) : m.headIndex ≤ m.tailIndex := headIndex_le_tailIndex h.head h.taken

/-- With no attempt pending each has failed or was taken. -/
theorem Inv.balance (h : Inv w m) (hquiet : ∀ t : T, Holds t m 0 0) :
    (m.dequeueAttemptsCount : ℤ) - m.dequeueFailedCount = m.headIndex := by
  have hall : m.takenBelow m.dequeueAttemptsCount + m.failedBelow m.dequeueAttemptsCount = m.dequeueAttemptsCount := by
    apply tally_add_tally
    · intro u hu
      cases hfate : m.fate u with
      | pending t => exact absurd (((hquiet t).pending u hu).mp hfate).2 (Nat.not_lt_zero u)
      | failed => exact Or.inr rfl
      | taken => exact Or.inl rfl
    · rintro ⟨⟩
  have hfailed := h.failed
  have hhead := h.head
  omega

end Invariant

/-! ## The steps -/

section Steps

variable [DecidableEq T] {w : ℕ} {m m' : Memory T} {t t' : T} {pc pc' : Pc} {a n k : ℕ} {x : Fate T}

omit [DecidableEq T] in
theorem Holds.of_mem (h : Holds t m a n) {u : ℕ} (hle : a ≤ u) (hlt : u < a + n) : m.fate u = .pending t :=
  (h.pending u (Nat.lt_of_lt_of_le hlt h.le)).mpr ⟨hle, hlt⟩

omit [DecidableEq T] in
/-- The last `k` pending attempts of a thread are settled. -/
theorem Holds.settle (h : Holds t m a (n + k)) (hx : x ≠ .pending t)
    (hattempts : m'.dequeueAttemptsCount = m.dequeueAttemptsCount) (hfate : m'.fate = fill m.fate (a + n) k x) :
    Holds t m' a n := by
  have hle := h.le
  refine ⟨by omega, fun u hu => ?_⟩
  rw [hattempts] at hu
  rw [hfate]
  by_cases hmem : a + n ≤ u ∧ u < a + n + k
  · rw [fill_of_mem hmem]
    exact iff_of_false hx fun hin => by omega
  · rw [fill_of_notMem hmem, h.pending u hu]
    constructor
    · intro hin
      omega
    · intro hin
      omega

omit [DecidableEq T] in
theorem Holds.nothing (h : Holds t m a 0) : Holds t m 0 0 :=
  ⟨Nat.zero_le _, fun u hu => by rw [h.pending u hu]; omega⟩

omit [DecidableEq T] in
theorem Holds.attempt (h : Holds t m 0 0) (n : ℕ) : Holds t (m.attempted t n) m.dequeueAttemptsCount n := by
  refine ⟨le_rfl, fun u hu => ?_⟩
  show fill m.fate m.dequeueAttemptsCount n (.pending t) u = .pending t ↔ _
  by_cases hmem : m.dequeueAttemptsCount ≤ u ∧ u < m.dequeueAttemptsCount + n
  · rw [fill_of_mem hmem]
    exact iff_of_true rfl hmem
  · have hold : u < m.dequeueAttemptsCount := by
      have hlt : u < m.dequeueAttemptsCount + n := hu
      omega
    rw [fill_of_notMem hmem, h.pending u hold]
    exact iff_of_false (fun hin => by omega) hmem

omit [DecidableEq T] in
theorem Rely.attempt (ht : t' ≠ t) (n : ℕ) : Rely t' m (m.attempted t n) := by
  have hnew : ∀ u < m.dequeueAttemptsCount, (m.attempted t n).fate u = m.fate u := fun u hu =>
    fill_of_notMem fun hmem => absurd hu (Nat.not_lt.mpr hmem.1)
  refine ⟨le_rfl, Nat.le_add_right .., le_rfl, fun u hu h => (hnew u hu).trans h, fun u hu => ?_, fun u hle hlt => ?_⟩
  · rw [hnew u hu]
  · have hfate : (m.attempted t n).fate u = .pending t := fill_of_mem ⟨hle, hlt⟩
    rw [hfate]
    exact fun heq => ht (Fate.pending.inj heq).symm

omit [DecidableEq T] in
/-- Pending attempts of another thread are settled. -/
theorem Rely.settle (h : Holds t m a (n + k)) (ht : t' ≠ t) (hx : x ≠ .pending t')
    (htail : m'.tailIndex = m.tailIndex) (hattempts : m'.dequeueAttemptsCount = m.dequeueAttemptsCount)
    (hfailed : m.dequeueFailedCount ≤ m'.dequeueFailedCount) (hfate : m'.fate = fill m.fate (a + n) k x) :
    Rely t' m m' := by
  have hpending : ∀ u, a + n ≤ u ∧ u < a + n + k → m.fate u = .pending t := fun u hmem =>
    h.of_mem (by omega) (by omega)
  refine ⟨htail.ge, hattempts.ge, hfailed, fun u hu hf => ?_, fun u hu => ?_, fun u hle hlt => ?_⟩
  · have hnot : ¬ (a + n ≤ u ∧ u < a + n + k) := by
      intro hmem
      rw [hpending u hmem] at hf
      cases hf
    rw [hfate, fill_of_notMem hnot, hf]
  · rw [hfate]
    by_cases hmem : a + n ≤ u ∧ u < a + n + k
    · rw [fill_of_mem hmem, hpending u hmem]
      exact iff_of_false hx fun heq => ht (Fate.pending.inj heq).symm
    · rw [fill_of_notMem hmem]
  · omega

theorem Inv.attempt (h : Inv w m) (t : T) {n : ℕ} (hn : m.dequeueAttemptsCount + n < 2 ^ (w - 1)) :
    Inv w (m.attempted t n) where
  tailIndex_lt := h.tailIndex_lt
  attemptsCount_lt := hn
  failed := h.failed.trans (tally_fill_append _ _ _ (by rintro ⟨⟩)).symm
  head := h.head.trans (tally_fill_append _ _ _ (by rintro ⟨⟩)).symm
  taken := by
    intro u hu hfate
    by_cases hmem : m.dequeueAttemptsCount ≤ u ∧ u < m.dequeueAttemptsCount + n
    · have hpending : (m.attempted t n).fate u = .pending t := fill_of_mem hmem
      rw [hpending] at hfate
      cases hfate
    · have hlt : u < m.dequeueAttemptsCount := by
        have hall : u < m.dequeueAttemptsCount + n := hu
        omega
      have hold : m.fate u = .taken := (fill_of_notMem hmem).symm.trans hfate
      have hsame : (m.attempted t n).failedBelow u = m.failedBelow u := tally_fill_below (Nat.le_of_lt hlt)
      rw [hsame]
      exact h.taken u hlt hold
  claims := h.claims
  claimed := h.claimed

theorem Inv.fail (h : Inv w m) (hholds : Holds t m a (n + k)) : Inv w (m.failed (a + n) k) := by
  have hle : a + n + k ≤ m.dequeueAttemptsCount := by
    have hall := hholds.le
    omega
  have hpending : ∀ u, a + n ≤ u → u < a + n + k → m.fate u = .pending t := fun u hu hlt =>
    hholds.of_mem (by omega) (by omega)
  refine ⟨h.tailIndex_lt, h.attemptsCount_lt, ?_, ?_, fun u hu hfate => ?_, h.claims, h.claimed⟩
  · refine Eq.trans ?_ (tally_fill_self hle fun u hu hlt => ?_).symm
    · exact congrArg (· + k) h.failed
    · rw [hpending u hu hlt]
      rintro ⟨⟩
  · refine h.head.trans (tally_fill_of_ne (by rintro ⟨⟩) fun u hu hlt => ?_).symm
    rw [hpending u hu hlt]
    rintro ⟨⟩
  · have hnot : ¬ (a + n ≤ u ∧ u < a + n + k) := by
      intro hmem
      rw [show (m.failed (a + n) k).fate u = .failed from fill_of_mem hmem] at hfate
      cases hfate
    have hlt := h.taken u hu ((fill_of_notMem hnot).symm.trans hfate)
    have hmono : m.failedBelow u ≤ (m.failed (a + n) k).failedBelow u := tally_mono fun i _ hi => by
      by_cases hmem : a + n ≤ i ∧ i < a + n + k
      · exact fill_of_mem hmem
      · exact (fill_of_notMem hmem).trans hi
    exact Nat.lt_of_lt_of_le hlt (Nat.add_le_add_left hmono _)

/-- The count of the failed attempts does not wrap. -/
theorem Inv.failed_lt (h : Inv w m) (hholds : Holds t m a (n + k)) : m.dequeueFailedCount + k < 2 ^ w := by
  have hall := (h.fail hholds).failed
  have hle := Memory.failedBelow_le (m.failed (a + n) k) m.dequeueAttemptsCount
  have hlt := h.attemptsCount_lt.trans_le (two_pow_pred_le w)
  replace hall : m.dequeueFailedCount + k = (m.failed (a + n) k).failedBelow m.dequeueAttemptsCount := hall
  omega

theorem Inv.take (h : Inv w m) (hholds : Holds t m a n) (hbound : a + n ≤ m.tailIndex + m.failedBelow a) :
    Inv w (m.taken a n) := by
  have hfailed : ∀ u, (m.taken a n).failedBelow u = m.failedBelow u := fun u =>
    tally_fill_of_ne (by rintro ⟨⟩) fun i hi hlt => by
      rw [hholds.of_mem hi hlt]
      rintro ⟨⟩
  have hhead : (m.taken a n).headIndex = (m.taken a n).takenBelow (m.taken a n).dequeueAttemptsCount := by
    refine Eq.trans ?_ (tally_fill_self hholds.le fun i hi hlt => ?_).symm
    · exact congrArg (· + n) h.head
    · rw [hholds.of_mem hi hlt]
      rintro ⟨⟩
  have htaken : ∀ u < (m.taken a n).dequeueAttemptsCount, (m.taken a n).fate u = .taken →
      u < (m.taken a n).tailIndex + (m.taken a n).failedBelow u := by
    intro u hu hfate
    rw [hfailed]
    show u < m.tailIndex + m.failedBelow u
    by_cases hmem : a ≤ u ∧ u < a + n
    · have hmono : m.failedBelow a ≤ m.failedBelow u := tally_le_of_le _ _ hmem.1
      omega
    · exact h.taken u hu ((fill_of_notMem hmem).symm.trans hfate)
  have hle : m.headIndex + n ≤ m.tailIndex := headIndex_le_tailIndex hhead htaken
  refine ⟨h.tailIndex_lt, h.attemptsCount_lt, h.failed.trans (hfailed _).symm, hhead, htaken,
    List.pairwise_cons.mpr ⟨fun c hc => ?_, h.claims⟩, List.forall_mem_cons.mpr ⟨⟨le_rfl, hle⟩, fun c hc => ?_⟩⟩
  · -- earlier ranges end where this one starts
    have hend := (h.claimed c hc).1
    rw [Finset.disjoint_left]
    intro i hi hi'
    rw [Claim.range, Finset.mem_Ico] at hi hi'
    exact absurd (Nat.lt_of_lt_of_le hi'.2 hend) (Nat.not_lt.mpr hi.1)
  · exact ⟨(h.claimed c hc).1.trans (Nat.le_add_right ..), (h.claimed c hc).2⟩

theorem Inv.raise (h : Inv w m) {n : ℕ} (hn : m.tailIndex + n < 2 ^ (w - 1)) :
    Inv w { m with tailIndex := m.tailIndex + n } where
  tailIndex_lt := hn
  attemptsCount_lt := h.attemptsCount_lt
  failed := h.failed
  head := h.head
  taken := fun u hu hfate => (h.taken u hu hfate).trans_le (Nat.add_le_add_right (Nat.le_add_right ..) _)
  claims := h.claims
  claimed := h.claimed

omit [DecidableEq T] in
theorem Call.desiredCount_fits {c : Call} {failed attempts tail desired : ℕ}
    (h : c.desiredCount w failed attempts tail = some desired) : c.Fits desired := by
  cases c with
  | dequeue =>
      simp only [Call.desiredCount] at h
      split at h
      · exact (Option.some.inj h).symm
      · cases h
  | dequeueBulk maxCount => trivial

/-- No more is taken than was attempted, and no more than there was behind what had been attempted before. -/
theorem Call.actualCount_le {c : Call} {failed desired attempts tail actual : ℕ} (hw : 0 < w)
    (hfailed : failed ≤ attempts) (hattempts : attempts < 2 ^ (w - 1)) (htail : tail < 2 ^ (w - 1))
    (hfits : c.Fits desired) (h : c.actualCount w failed desired attempts tail = some actual) :
    actual ≤ desired ∧ attempts + actual ≤ tail + failed := by
  have hpassed := circularLessThan_sub_iff hw hfailed hattempts htail
  cases c with
  | dequeue =>
      simp only [Call.actualCount] at h
      split at h
      · next hlt =>
        cases h
        exact ⟨hfits.ge, hpassed.mp hlt⟩
      · cases h
  | dequeueBulk maxCount =>
      simp only [Call.actualCount, circularLessThan_zero_sub hw] at h
      split at h
      · next hlt =>
        rw [hpassed] at hlt
        rw [sub_sub_eq hfailed hattempts htail hlt] at h
        cases h
        exact ⟨Nat.min_le_right .., by omega⟩
      · cases h

theorem Call.tested_at (c : Call) {failed attempts tail : ℕ} (hfailed : failed ≤ m.dequeueFailedCount)
    (h : Holds t m 0 0) : (c.tested w failed attempts tail).At t m := by
  unfold Call.tested
  split
  · exact h
  · next desired hdesired => exact ⟨Call.desiredCount_fits hdesired, hfailed, h⟩

theorem Call.retested_at {c : Call} {failed desired attempts : ℕ} (hw : 0 < w) (hm : Inv w m) (hfits : c.Fits desired)
    (hfailed : failed ≤ m.failedBelow attempts) (h : Holds t m attempts desired) :
    (c.retested w failed desired attempts m.tailIndex).At t m := by
  have hbelow := m.failedBelow_le attempts
  have hall := h.le
  have hattempts := hm.attemptsCount_lt
  unfold Call.retested
  split
  · exact h
  · next actual hactual =>
    obtain ⟨hle, hbound⟩ :=
      Call.actualCount_le hw (hfailed.trans hbelow) (by omega) hm.tailIndex_lt hfits hactual
    split
    · exact ⟨hle, by omega, h⟩
    · obtain rfl : actual = desired := by omega
      exact ⟨by omega, h⟩

/-- **One access** keeps the invariant, and all that other threads rely on. -/
theorem Pc.At.access {tailFirst : Bool} (h : pc.At t m) (hw : 0 < w) (hm : Inv w m) (hrange : pc.InRange w m)
    (hs : DequeueCounters.access w t tailFirst m pc = some (m', pc')) :
    Inv w m' ∧ pc'.At t m' ∧ ∀ t' ≠ t, Rely t' m m' := by
  have hhalf := two_pow_pred_le w
  have hattempts := hm.attemptsCount_lt
  cases pc with
  | idle returned => cases hs
  | loadFailedCount c =>
      cases hs
      exact ⟨hm, ⟨le_rfl, h⟩, fun t' _ => .refl t' m⟩
  | loadCounts c failed =>
      cases hs
      refine ⟨hm, ?_, fun t' _ => .refl t' m⟩
      split
      · exact h
      · exact h
  | loadTailIndex c failed attempts =>
      cases hs
      exact ⟨hm, c.tested_at h.1 h.2, fun t' _ => .refl t' m⟩
  | loadAttemptsCount c failed tail =>
      cases hs
      exact ⟨hm, c.tested_at h.1 h.2, fun t' _ => .refl t' m⟩
  | addAttempts c failed desired =>
      have hbound : m.dequeueAttemptsCount + desired < 2 ^ (w - 1) := hrange
      cases hs
      obtain ⟨hfits, hle, hholds⟩ := h
      rw [Memory.attempt_eq (hbound.trans_le hhalf)]
      refine ⟨hm.attempt t hbound, ⟨hfits, ?_, hholds.attempt desired⟩, fun t' ht => .attempt ht desired⟩
      -- what had failed when the count was loaded were attempts made before this one
      have hsame : (m.attempted t desired).failedBelow m.dequeueAttemptsCount = m.failedBelow m.dequeueAttemptsCount :=
        tally_fill_below le_rfl
      rw [hsame, ← hm.failed]
      exact hle
  | reloadTailIndex c failed desired attempts =>
      cases hs
      exact ⟨hm, Call.retested_at hw hm h.1 h.2.1 h.2.2, fun t' _ => .refl t' m⟩
  | addFailed desired attempts actual =>
      cases hs
      obtain ⟨hle, hbound, hholds⟩ := h
      obtain ⟨k, rfl⟩ := Nat.exists_eq_add_of_le hle
      rw [Nat.add_sub_cancel_left, Memory.fail_eq (hm.failed_lt hholds)]
      refine ⟨hm.fail hholds, ⟨?_, hholds.settle (by rintro ⟨⟩) rfl rfl⟩, fun t' ht => ?_⟩
      · have hsame : (m.failed (attempts + actual) k).failedBelow attempts = m.failedBelow attempts :=
          tally_fill_below (Nat.le_add_right ..)
        rw [hsame]
        exact hbound
      · exact .settle hholds ht (by rintro ⟨⟩) rfl rfl (Nat.le_add_right ..) rfl
  | addHeadIndex attempts actual =>
      cases hs
      obtain ⟨hbound, hholds⟩ := h
      have hall : Holds t m attempts (0 + actual) := by rwa [Nat.zero_add]
      have htaken := hm.take hholds hbound
      have hle : m.headIndex + actual ≤ m.tailIndex := htaken.head_le
      rw [Memory.take_eq (hle.trans_lt (hm.tailIndex_lt.trans_le hhalf))]
      have hsettled : Holds t (m.taken attempts actual) attempts 0 := hall.settle (by rintro ⟨⟩) rfl rfl
      exact ⟨htaken, hsettled.nothing, fun t' ht => .settle hall ht (by rintro ⟨⟩) rfl rfl le_rfl rfl⟩
  | giveUp desired attempts =>
      cases hs
      have hall : Holds t m attempts (0 + desired) := by rwa [Nat.zero_add]
      have hsettled : Holds t (m.failed attempts desired) attempts 0 := hall.settle (by rintro ⟨⟩) rfl rfl
      rw [Memory.fail_eq (hm.failed_lt hall)]
      exact ⟨hm.fail hall, hsettled.nothing,
        fun t' ht => .settle hall ht (by rintro ⟨⟩) rfl rfl (Nat.le_add_right ..) rfl⟩

end Steps

/-! ## Runs -/

section Runs

variable [DecidableEq T] {w : ℕ} {s : State T}

/-- What thread `t` knows; the producer knows nothing. -/
def Own (t : Option T) (m : Memory T) (pc : Pc) : Prop := ∀ t₀, t = some t₀ → pc.At t₀ m

/-- **Step.** -/
theorem ThreadStep.sound {t : Option T} {a : Act} {m m' : Memory T} {pc pc' : Pc}
    (hs : ThreadStep w t (m, pc) a (m', pc')) (hw : 0 < w) (hm : Inv w m) (hown : Own t m pc)
    (hrange : a.InRange w m pc) :
    Inv w m' ∧ Own t m' pc' ∧ ∀ t' ≠ t, ∀ t₀, t' = some t₀ → Rely t₀ m m' := by
  cases hs with
  | @raise _ _ n =>
      have hn : m.tailIndex + n < 2 ^ (w - 1) := hrange
      rw [Word.add_of_lt (hn.trans_le (two_pow_pred_le w))]
      refine ⟨hm.raise hn, fun t₀ ht => ?_, fun _ _ t₀ _ => .raise t₀ m n⟩
      cases ht
  | call => exact ⟨hm, fun t₀ ht => hown t₀ ht, fun _ _ t₀ _ => .refl t₀ m⟩
  | @access t _ _ _ _ hacc =>
      obtain ⟨hm', hat, hrely⟩ := (hown t rfl).access hw hm hrange hacc
      refine ⟨hm', fun t₀ ht => ?_, fun t' ht' t₀ ht₀ => hrely t₀ ?_⟩
      · cases ht
        exact hat
      · rintro rfl
        exact ht' ht₀

theorem relyGuarantee (hw : 0 < w) : Interleaving.RelyGuarantee (ThreadStep w) (InRange w) (Inv w) (Own (T := T))
    (fun t m m' => ∀ t₀, t = some t₀ → Rely t₀ m m') where
  own := fun hrange hm hown hs =>
    have hsound := hs.sound hw hm hown hrange
    ⟨hsound.1, hsound.2.1⟩
  guarantee := fun hrange hm hown hs ht => (hs.sound hw hm hown hrange).2.2 _ ht
  stable := fun _ hown hrely t₀ ht => (hown t₀ ht).stable (hrely t₀ ht)

omit [DecidableEq T] in
/-- How many accesses a call has before it at most. -/
def Pc.rank : Pc → ℕ
  | .idle _ => 0
  | .giveUp .. | .addHeadIndex .. => 1
  | .addFailed .. => 2
  | .reloadTailIndex .. => 3
  | .addAttempts .. => 4
  | .loadTailIndex .. | .loadAttemptsCount .. => 5
  | .loadCounts .. => 6
  | .loadFailedCount _ => 7

omit [DecidableEq T] in
theorem Call.tested_rank (c : Call) (failed attempts tail : ℕ) : (c.tested w failed attempts tail).rank ≤ 4 := by
  unfold Call.tested
  split
  · exact Nat.zero_le _
  · exact le_rfl

omit [DecidableEq T] in
theorem Call.retested_rank (c : Call) (failed desired attempts tail : ℕ) :
    (c.retested w failed desired attempts tail).rank ≤ 2 := by
  unfold Call.retested
  split
  · exact Nat.le_succ 1
  · split
    · exact le_rfl
    · exact Nat.le_succ 1

omit [DecidableEq T] in
theorem exists_access (w : ℕ) (t : T) (m : Memory T) {pc : Pc} (h : 0 < pc.rank) :
    ∃ m' pc', access w t false m pc = some (m', pc') ∧ pc'.rank < pc.rank := by
  cases pc with
  | idle => exact absurd h (Nat.lt_irrefl 0)
  | loadTailIndex c failed attempts => exact ⟨_, _, rfl, Nat.lt_succ_of_le (c.tested_rank ..)⟩
  | loadAttemptsCount c failed tail => exact ⟨_, _, rfl, Nat.lt_succ_of_le (c.tested_rank ..)⟩
  | reloadTailIndex c failed desired attempts => exact ⟨_, _, rfl, Nat.lt_succ_of_le (c.retested_rank ..)⟩
  | loadFailedCount | loadCounts | addAttempts | addFailed | addHeadIndex | giveUp =>
      exact ⟨_, _, rfl, Nat.lt_succ_self _⟩

/-- **Wait-freedom.** A consumer that goes on alone returns. -/
theorem returns_alone (w : ℕ) (s : State T) (t : T) :
    ∃ s' returned, Reaches (Step w) (Alone t) s s' ∧ s'.threads (some t) = .idle returned := by
  obtain ⟨n, hn⟩ : ∃ n, (s.threads (some t)).rank = n := ⟨_, rfl⟩
  induction n using Nat.strong_induction_on generalizing s with
  | _ n ih =>
      rcases Nat.eq_zero_or_pos n with rfl | hpos
      · cases hpc : s.threads (some t) with
        | idle returned => exact ⟨s, returned, .refl s, hpc⟩
        | _ =>
            rw [hpc] at hn
            cases hn
      · obtain ⟨m', pc', hs, hlt⟩ := exists_access w t s.memory (hn.symm ▸ hpos)
        have hstep : Step w s (some t, .access false) ⟨m', Function.update s.threads (some t) pc'⟩ :=
          Interleaving.Step.of_eq rfl (.access hs)
        have hnew : (Function.update s.threads (some t) pc' (some t)).rank = pc'.rank := by
          rw [Function.update_self]
        obtain ⟨s', returned, hrun, hidle⟩ := ih _ (hn ▸ hlt) ⟨m', Function.update s.threads (some t) pc'⟩ hnew
        exact ⟨s', returned, .head hstep ⟨rfl, false, rfl⟩ hrun, hidle⟩

/-- Where a `Dequeue` is that started in the memory `m₀` and was not interrupted. -/
inductive Uninterrupted (w : ℕ) (t : T) (m₀ : Memory T) : Memory T → Pc → Prop
  | loadFailedCount : Uninterrupted w t m₀ m₀ (.loadFailedCount .dequeue)
  | loadCounts : Uninterrupted w t m₀ m₀ (.loadCounts .dequeue m₀.dequeueFailedCount)
  | loadTailIndex :
      Uninterrupted w t m₀ m₀ (.loadTailIndex .dequeue m₀.dequeueFailedCount m₀.dequeueAttemptsCount)
  | loadAttemptsCount : Uninterrupted w t m₀ m₀ (.loadAttemptsCount .dequeue m₀.dequeueFailedCount m₀.tailIndex)
  | addAttempts (h : m₀.headIndex < m₀.tailIndex) :
      Uninterrupted w t m₀ m₀ (.addAttempts .dequeue m₀.dequeueFailedCount 1)
  | reloadTailIndex (h : m₀.headIndex < m₀.tailIndex) : Uninterrupted w t m₀ (m₀.attempt w t 1)
      (.reloadTailIndex .dequeue m₀.dequeueFailedCount 1 m₀.dequeueAttemptsCount)
  | addHeadIndex (h : m₀.headIndex < m₀.tailIndex) :
      Uninterrupted w t m₀ (m₀.attempt w t 1) (.addHeadIndex m₀.dequeueAttemptsCount 1)
  | returned {m : Memory T} :
      Uninterrupted w t m₀ m (.idle (some (if m₀.headIndex < m₀.tailIndex then 1 else 0)))

theorem Uninterrupted.access {t : T} {m₀ m m' : Memory T} {pc pc' : Pc} {tailFirst : Bool} (hw : 0 < w)
    (hm : Inv w m₀) (hbalance : (m₀.dequeueAttemptsCount : ℤ) - m₀.dequeueFailedCount = m₀.headIndex)
    (h : Uninterrupted w t m₀ m pc) (hs : DequeueCounters.access w t tailFirst m pc = some (m', pc')) :
    Uninterrupted w t m₀ m' pc' := by
  -- both tests compare the head with the tail
  have htest : circularLessThan w (Word.sub w m₀.dequeueAttemptsCount m₀.dequeueFailedCount) m₀.tailIndex =
      decide (m₀.headIndex < m₀.tailIndex) := by
    rw [Bool.eq_iff_iff, decide_eq_true_iff,
      circularLessThan_sub_iff hw (by omega) hm.attemptsCount_lt hm.tailIndex_lt]
    omega
  have htested : Uninterrupted w t m₀ m₀
      (Call.tested w m₀.dequeueFailedCount m₀.dequeueAttemptsCount m₀.tailIndex .dequeue) := by
    simp only [Call.tested, Call.desiredCount, htest, decide_eq_true_eq]
    by_cases hlt : m₀.headIndex < m₀.tailIndex
    · simp only [if_pos hlt]
      exact .addAttempts hlt
    · have hzero : Uninterrupted w t m₀ m₀ _ := .returned
      rw [if_neg hlt] at hzero
      simp only [if_neg hlt]
      exact hzero
  cases h with
  | loadFailedCount =>
      cases hs
      exact .loadCounts
  | loadCounts =>
      cases hs
      split
      · exact .loadAttemptsCount
      · exact .loadTailIndex
  | loadTailIndex =>
      cases hs
      exact htested
  | loadAttemptsCount =>
      cases hs
      exact htested
  | addAttempts hlt =>
      cases hs
      exact .reloadTailIndex hlt
  | reloadTailIndex hlt =>
      cases hs
      have htail : (m₀.attempt w t 1).tailIndex = m₀.tailIndex := rfl
      simp only [Call.retested, Call.actualCount, htail, htest, decide_eq_true_eq, if_pos hlt, Nat.lt_irrefl,
        if_false]
      exact .addHeadIndex hlt
  | addHeadIndex hlt =>
      cases hs
      have hone : Uninterrupted w t m₀ ((m₀.attempt w t 1).take w m₀.dequeueAttemptsCount 1) _ := .returned
      rwa [if_pos hlt] at hone
  | returned => cases hs

omit [DecidableEq T] in
theorem Uninterrupted.of_idle {t : T} {m₀ m : Memory T} {returned : Option ℕ}
    (h : Uninterrupted w t m₀ m (.idle returned)) :
    returned = some (if m₀.headIndex < m₀.tailIndex then 1 else 0) := by
  cases h
  rfl

theorem Uninterrupted.run {t : T} {m₀ : Memory T} {s s' : State T} (hw : 0 < w) (hm : Inv w m₀)
    (hbalance : (m₀.dequeueAttemptsCount : ℤ) - m₀.dequeueFailedCount = m₀.headIndex)
    (h : Uninterrupted w t m₀ s.memory (s.threads (some t))) (hrun : Reaches (Step w) (Alone t) s s') :
    Uninterrupted w t m₀ s'.memory (s'.threads (some t)) := by
  refine hrun.invariant (I := fun s => Uninterrupted w t m₀ s.memory (s.threads (some t))) h ?_
  rintro s a s' hat ⟨ht, tailFirst, ha⟩ ⟨hs⟩
  rename_i m m' ls t' a' l'
  obtain rfl : t' = some t := ht
  obtain rfl : a' = .access tailFirst := ha
  dsimp only at hat ⊢
  rw [Function.update_self]
  generalize ls (some t) = pc at hat hs
  cases hs with
  | access hacc => exact hat.access hw hm hbalance hacc

theorem Inv.fresh (w : ℕ) : Inv w (Memory.fresh : Memory T) where
  tailIndex_lt := Nat.two_pow_pos _
  attemptsCount_lt := Nat.two_pow_pos _
  failed := rfl
  head := rfl
  taken := fun u hu => absurd hu (Nat.not_lt_zero u)
  claims := List.Pairwise.nil
  claimed := fun _ hc => absurd hc List.not_mem_nil

/-- **Run.** However the calls of the consumers and the producer take turns, as long as the counters stay in range no
    consumer claims what is not there, none claims what another one has claimed, and between calls the counters
    balance. -/
theorem counters_sound (hw : 0 < w) (h : Reaches (Step w) (InRange w) start s) : Safe w s := by
  have hfresh : ∀ t : Option T, Own t Memory.fresh (.idle none) := fun t t₀ _ =>
    ⟨le_rfl, fun u hu => absurd hu (Nat.not_lt_zero u)⟩
  obtain ⟨hm, hown⟩ := (relyGuarantee hw).invariant h (Inv.fresh w) hfresh
  have hbalance : Quiet s →
      (s.memory.dequeueAttemptsCount : ℤ) - s.memory.dequeueFailedCount = s.memory.headIndex := by
    intro hquiet
    apply hm.balance
    intro t
    obtain ⟨returned, hidle⟩ := hquiet t
    have hat := hown (some t) t rfl
    rw [hidle] at hat
    exact hat
  refine ⟨hm.head_le, hm.claims, fun c hc i hi => ?_, hbalance, fun hquiet t s' hstep => ?_⟩
  · have hend := (hm.claimed c hc).2
    rw [Claim.range, Finset.mem_Ico] at hi
    exact hi.2.trans_le hend
  · refine ⟨returns_alone w s' t, fun s'' returned hrun hidle => ?_⟩
    have hstart : Uninterrupted w t s.memory s'.memory (s'.threads (some t)) := by
      cases hstep with
      | @mk m m' ls t' a l' hs =>
          generalize hpc : ls (some t) = pc at hs
          cases hs
          dsimp only
          rw [Function.update_self]
          exact .loadFailedCount
    have hend := hstart.run hw hm (hbalance hquiet) hrun
    rw [hidle] at hend
    exact hend.of_idle

/-- Two consumers are after the one element there is, and both attempts are made before the second tests. -/
theorem counters_sound_race : ∃ s : State Bool, s.memory.headIndex = 1 ∧ s.memory.dequeueAttemptsCount = 2 ∧
    s.memory.dequeueFailedCount = 1 ∧ Safe 32 s := by
  have hrun : (Interleaving.runSchedule (threadStep 32) (InRange 32)
      ([(none, .raise 1), (some false, .call .dequeue), (some true, .call (.dequeueBulk 5))] ++
        (List.replicate 6 [(some false, .access true), (some true, .access false)]).flatten)
      (start : State Bool)).map (fun s => (s.memory.headIndex, s.memory.dequeueAttemptsCount,
        s.memory.dequeueFailedCount)) = some (1, 2, 1) := by decide +kernel
  obtain ⟨s, hs, hends⟩ := Option.map_eq_some_iff.mp hrun
  obtain ⟨hhead, hattempts, hfailed⟩ :
      s.memory.headIndex = 1 ∧ s.memory.dequeueAttemptsCount = 2 ∧ s.memory.dequeueFailedCount = 1 := by
    simpa only [Prod.mk.injEq] using hends
  exact ⟨s, hhead, hattempts, hfailed, counters_sound (by decide)
    (Interleaving.reaches_of_schedule (fun _ _ _ _ => ThreadStep.of_threadStep 32) hs)⟩

end Runs

end DequeueCounters

end LockFreeStructures
