import Mathlib.Logic.Relation

/-!
# `Lib.Transition` — systems that take labelled steps

A system is a relation `step s a s'` between states, `a` naming the step. `Reaches step ok` follows the steps
that meet a condition `ok` on the state before and the name; with the condition left out it is
`Reaches step fun _ _ => True`.
-/

namespace LockFreeStructures

variable {σ A : Type*} {step : σ → A → σ → Prop} {ok : σ → A → Prop} {s s' s'' : σ}

/-- From one state to another by steps that all meet the condition. -/
def Reaches (step : σ → A → σ → Prop) (ok : σ → A → Prop) : σ → σ → Prop :=
  Relation.ReflTransGen fun s s' => ∃ a, ok s a ∧ step s a s'

namespace Reaches

theorem refl (s : σ) : Reaches step ok s s := Relation.ReflTransGen.refl

theorem trans (h : Reaches step ok s s') (h' : Reaches step ok s' s'') : Reaches step ok s s'' :=
  Relation.ReflTransGen.trans h h'

theorem head {a : A} (hs : step s a s') (hok : ok s a) (h : Reaches step ok s' s'') : Reaches step ok s s'' :=
  Relation.ReflTransGen.head ⟨a, hok, hs⟩ h

/-- **Invariance.** What holds at the start and is kept by every step that meets the condition holds in every
    state reached. -/
theorem invariant {I : σ → Prop} (h : Reaches step ok s s') (h₀ : I s)
    (hstep : ∀ s a s', I s → ok s a → step s a s' → I s') : I s' := by
  induction h with
  | refl => exact h₀
  | tail _ hlast ih =>
      obtain ⟨a, hok, hs⟩ := hlast
      exact hstep _ a _ ih hok hs

theorem mono {ok' : σ → A → Prop} (h : Reaches step ok s s') (hok : ∀ s a, ok s a → ok' s a) : Reaches step ok' s s' :=
  Relation.ReflTransGen.mono (fun _ _ ⟨a, ha, hs⟩ => ⟨a, hok _ a ha, hs⟩) _ _ h

end Reaches

/-- Where the steps are computed: the condition holds before each step of the run that takes the steps `as` in
    turn. -/
def Along {ρ : Type*} (exec : A → σ → Option (ρ × σ)) (ok : σ → A → Prop) : List A → σ → Prop
  | [], _ => True
  | a :: as, s => ok s a ∧ ∀ r s', exec a s = some (r, s') → Along exec ok as s'

theorem Along.of_forall {ρ : Type*} {exec : A → σ → Option (ρ × σ)} {as : List A} (h : ∀ a ∈ as, ∀ s, ok s a) (s : σ) :
    Along exec ok as s := by
  induction as generalizing s with
  | nil => exact trivial
  | cons a as ih =>
      exact ⟨h a List.mem_cons_self s, fun r s' _ => ih (fun a ha => h a (List.mem_cons_of_mem _ ha)) s'⟩

end LockFreeStructures
