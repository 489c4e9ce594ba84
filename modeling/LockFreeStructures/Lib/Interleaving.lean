import Mathlib.Logic.Function.Basic
import LockFreeStructures.Lib.Transition

/-!
# `Lib.Interleaving` — threads that take turns on one memory

Thread `t` steps from its own state and the memory to a new pair of them. What is known of a thread is a
property of the memory and of its own state only; it survives the steps of the others because all they do to
the memory is covered by the thread's rely condition.
-/

namespace LockFreeStructures

namespace Interleaving

variable {T M L A : Type*}

structure State (T M L : Type*) where
  memory : M
  threads : T → L

section Step

variable [DecidableEq T]

/-- One thread takes a step, the others stay where they are. -/
inductive Step (step : T → M × L → A → M × L → Prop) : State T M L → T × A → State T M L → Prop
  | mk {m m' : M} {ls : T → L} {t : T} {a : A} {l' : L} (h : step t (m, ls t) a (m', l')) :
      Step step ⟨m, ls⟩ (t, a) ⟨m', Function.update ls t l'⟩

variable {step : T → M × L → A → M × L → Prop} {ok : State T M L → T × A → Prop}

theorem Step.of_eq {s : State T M L} {t : T} {a : A} {m' : M} {l l' : L} (hl : s.threads t = l)
    (h : step t (s.memory, l) a (m', l')) : Step step s (t, a) ⟨m', Function.update s.threads t l'⟩ := by
  subst hl
  exact .mk h

/-- A thread that has just stepped steps again. -/
theorem Step.again {m m' : M} {ls : T → L} {t : T} {a : A} {l l' : L} (h : step t (m, l) a (m', l')) :
    Step step ⟨m, Function.update ls t l⟩ (t, a) ⟨m', Function.update ls t l'⟩ := by
  have hs : Step step ⟨m, Function.update ls t l⟩ (t, a) ⟨m', Function.update (Function.update ls t l) t l'⟩ :=
    .of_eq (Function.update_self ..) h
  rwa [Function.update_idem] at hs

/-- `Inv` is known of the memory, `Own t` by thread `t`; `Rely t` covers what the others do. -/
structure RelyGuarantee (step : T → M × L → A → M × L → Prop) (ok : State T M L → T × A → Prop) (Inv : M → Prop)
    (Own : T → M → L → Prop) (Rely : T → M → M → Prop) : Prop where
  own : ∀ {s : State T M L} {t : T} {a : A} {m' : M} {l' : L}, ok s (t, a) → Inv s.memory →
    Own t s.memory (s.threads t) → step t (s.memory, s.threads t) a (m', l') → Inv m' ∧ Own t m' l'
  guarantee : ∀ {s : State T M L} {t t' : T} {a : A} {m' : M} {l' : L}, ok s (t, a) → Inv s.memory →
    Own t s.memory (s.threads t) → step t (s.memory, s.threads t) a (m', l') → t' ≠ t → Rely t' s.memory m'
  stable : ∀ {t : T} {m m' : M} {l : L}, Inv m → Own t m l → Rely t m m' → Own t m' l

/-- What the threads know of the start they know of every state reached. -/
theorem RelyGuarantee.invariant {Inv : M → Prop} {Own : T → M → L → Prop} {Rely : T → M → M → Prop}
    (hrg : RelyGuarantee step ok Inv Own Rely) {s s' : State T M L} (h : Reaches (Step step) ok s s')
    (hinv : Inv s.memory) (hown : ∀ t, Own t s.memory (s.threads t)) :
    Inv s'.memory ∧ ∀ t, Own t s'.memory (s'.threads t) := by
  refine h.invariant (I := fun s => Inv s.memory ∧ ∀ t, Own t s.memory (s.threads t)) ⟨hinv, hown⟩ ?_
  rintro s a s' ⟨hinv, hown⟩ hok ⟨hs⟩
  rename_i m m' ls t a l'
  obtain ⟨hinv', hown'⟩ := hrg.own hok hinv (hown t) hs
  refine ⟨hinv', fun t' => ?_⟩
  by_cases ht : t' = t
  · subst ht
    simpa only [Function.update_self] using hown'
  · simp only [Function.update_of_ne ht]
    exact hrg.stable hinv (hown t') (hrg.guarantee hok hinv (hown t) hs ht)

/-! ## Schedules -/

variable {exec : T → A → M × L → Option (M × L)} [∀ s a, Decidable (ok s a)]

/-- Where the steps are computed: the threads take those of the schedule in turn, as long as the condition
    holds before each. -/
def runSchedule (exec : T → A → M × L → Option (M × L)) (ok : State T M L → T × A → Prop)
    [∀ s a, Decidable (ok s a)] : List (T × A) → State T M L → Option (State T M L)
  | [], s => some s
  | a :: as, s =>
      if ok s a then
        (exec a.1 a.2 (s.memory, s.threads a.1)).bind fun r =>
          runSchedule exec ok as ⟨r.1, Function.update s.threads a.1 r.2⟩
      else none

theorem reaches_of_schedule (hexec : ∀ t a r r', exec t a r = some r' → step t r a r') {as : List (T × A)}
    {s s' : State T M L} (h : runSchedule exec ok as s = some s') : Reaches (Step step) ok s s' := by
  induction as generalizing s with
  | nil =>
      cases h
      exact .refl _
  | cons a as ih =>
      rw [runSchedule] at h
      split at h
      · next hok =>
          obtain ⟨r, hr, hrest⟩ := Option.bind_eq_some_iff.mp h
          exact .head (.mk (hexec _ _ _ _ hr)) hok (ih hrest)
      · cases h

end Step

end Interleaving

end LockFreeStructures
