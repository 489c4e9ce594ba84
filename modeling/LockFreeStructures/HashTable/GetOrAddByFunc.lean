import LockFreeStructures.HashTable.Ownership

/-!
# `HashTable.GetOrAddByFunc` — each thread keeps one implicit producer

With `GetOrAddByFunc` the only call, no value is ever replaced. The value of a thread's first success is then
in every slot that has its key, a slot that is still to be stored to apart, and before the first success there
is no such slot. That value is the one `AllocateValueFunc` made in the first success, so that no other key has it
as long as no value is made twice.
-/

namespace LockFreeStructures

namespace HashTable

namespace Concurrent

open Memory

variable {K V : Type} {hash : K → ℕ} {w e : ℕ} {k : K} {m m' : Memory K V} {pc pc' : Pc V} {n i : ℕ} {o : Option V}

/-! ## What the calls of a thread return -/

/-- The call did not fail. -/
def Result.succeeded : Result V → Bool
  | .gotOrAdded .failed _ => false
  | _ => true

/-- The calls that did not fail. -/
def successes (rs : List (Call V × Result V)) : List (Call V × Result V) := rs.filter fun r => r.2.succeeded

/-- The first call that succeeded added the value that `AllocateValueFunc` had made in it, and all later ones got
    that value; no value, no such call. -/
def Outcomes (o : Option V) (rs : List (Call V × Result V)) : Prop :=
  match o with
  | none => successes rs = []
  | some v => ∃ later, successes rs = (.getOrAddByFunc (some v), .gotOrAdded .addSuccess (some v)) :: later ∧
      ∀ r ∈ later, r.2 = .gotOrAdded .getSuccess (some v)

/-- `AllocateValueFunc` is to make the value in one of the calls. -/
def Made (rs : List (Call V × Result V)) (v : V) : Prop := ∃ r ∈ rs, r.1 = .getOrAddByFunc (some v)

/-- One of the calls has given the value. -/
def Gave (rs : List (Call V × Result V)) (v : V) : Prop := ∃ r ∈ successes rs, ∃ status, r.2 = .gotOrAdded status (some v)

variable {rs rs' : List (Call V × Result V)} {c : Call V}

theorem successes_failed (rs : List (Call V × Result V)) (c : Call V) (v : Option V) :
    successes (rs ++ [(c, .gotOrAdded .failed v)]) = successes rs := by
  unfold successes
  rw [List.filter_append, List.filter_cons_of_neg (by exact Bool.false_ne_true), List.filter_nil, List.append_nil]

theorem successes_append (rs : List (Call V × Result V)) {r : Call V × Result V} (h : r.2.succeeded = true) :
    successes (rs ++ [r]) = successes rs ++ [r] := by
  unfold successes
  rw [List.filter_append, List.filter_cons_of_pos (p := fun r : Call V × Result V => r.2.succeeded) h, List.filter_nil]

theorem Outcomes.failed (h : Outcomes o rs) (c : Call V) (v : Option V) :
    Outcomes o (rs ++ [(c, .gotOrAdded .failed v)]) := by
  unfold Outcomes
  rw [successes_failed]
  exact h

theorem Outcomes.addSuccess (h : Outcomes none rs) (v : V) :
    Outcomes (some v) (rs ++ [(.getOrAddByFunc (some v), .gotOrAdded .addSuccess (some v))]) := by
  have hnone : successes rs = [] := h
  refine ⟨[], ?_, fun r hr => absurd hr List.not_mem_nil⟩
  rw [successes_append rs rfl, hnone, List.nil_append]

theorem Outcomes.getSuccess (h : Outcomes o rs) (ho : o ≠ none) (c : Call V) :
    Outcomes o (rs ++ [(c, .gotOrAdded .getSuccess o)]) := by
  obtain ⟨v, rfl⟩ := Option.ne_none_iff_exists'.mp ho
  obtain ⟨later, hfirst, hlater⟩ := h
  refine ⟨later ++ [(c, .gotOrAdded .getSuccess (some v))], ?_, fun r hr => ?_⟩
  · rw [successes_append rs rfl, hfirst, List.cons_append]
  · rcases List.mem_append.mp hr with hold | hnew
    · exact hlater r hold
    · exact List.mem_singleton.mp hnew ▸ rfl

/-- What the calls have given `AllocateValueFunc` made in the first of them. -/
theorem Outcomes.made {v : V} (h : Outcomes o rs) (hgave : Gave rs v) : Made rs v := by
  obtain ⟨r, hr, status, hv⟩ := hgave
  cases o with
  | none =>
      rw [show successes rs = [] from h] at hr
      exact absurd hr List.not_mem_nil
  | some u =>
      obtain ⟨later, hfirst, hlater⟩ := h
      have hmem : (.getOrAddByFunc (some u), .gotOrAdded .addSuccess (some u)) ∈ successes rs :=
        hfirst ▸ List.mem_cons_self
      have hval : u = v := by
        rw [hfirst] at hr
        rcases List.mem_cons.mp hr with rfl | hr'
        · cases hv
          rfl
        · cases (hlater r hr').symm.trans hv
          rfl
      exact ⟨_, List.mem_of_mem_filter hmem, congrArg (fun v => Call.getOrAddByFunc (some v)) hval⟩

/-! ## What a thread knows of its value -/

/-- The call the thread is in, if any, is of `GetOrAddByFunc`, and `InnerAdd` is given the value it made. -/
structure Pc.ByFunc (pc : Pc V) : Prop where
  call : ∀ c, pc.call = some c → ∃ v, c = .getOrAddByFunc v
  adding : ∀ v, pc.adding = some v → pc.call = some (.getOrAddByFunc (some v))

theorem Pc.ByFunc.next (h : pc.ByFunc) (hcall : pc'.call = pc.call) (hadd : pc'.adding = none ∨ pc'.adding = pc.adding) :
    pc'.ByFunc := by
  refine ⟨fun c hc => h.call c (hcall.symm.trans hc), fun v hv => ?_⟩
  rcases hadd with hnone | hsame
  · cases hnone.symm.trans hv
  · rw [hcall]
    exact h.adding v (hsame.symm.trans hv)

/-- The value in the thread's hands is the one it has had before, if any. -/
def Pc.Carries (o : Option V) : Pc V → Prop
  | .promote _ _ _ v => v = o ∧ o ≠ none
  | .promoteStore _ _ _ v => v = o ∧ o ≠ none
  | .store _ _ _ _ => o = none
  | _ => True

/-- `o` is the value of the thread's first success. -/
structure Valued (k : K) (m : Memory K V) (pc : Pc V) (o : Option V) : Prop where
  byFunc : pc.ByFunc
  returns : Outcomes o (m.returns k)
  carries : pc.Carries o
  owned : o ≠ none → ∃ n i, m.Owns k n i
  second : ∀ n i, m.Owns k n i → pc.pending = some (n, i) ∨ o ≠ none ∧ (m.nodes n).second i = o

theorem Rely.valued (h : Rely k m m') (hv : Valued k m pc o) : Valued k m' pc o := by
  refine ⟨hv.byFunc, h.returns ▸ hv.returns, hv.carries, fun ho => ?_, fun n i ho => ?_⟩
  · obtain ⟨n, i, hown⟩ := hv.owned ho
    exact ⟨n, i, (h.owns_iff n i).mpr hown⟩
  · have hown := (h.owns_iff n i).mp ho
    rw [h.second n hown.1 i hown.2.2]
    exact hv.second n i hown

theorem Valued.value_of_owns (h : Valued k m pc o) (hp : pc.pending = none) (ho : m.Owns k n i) :
    o ≠ none ∧ (m.nodes n).second i = o := by
  refine (h.second n i ho).resolve_left fun hpend => ?_
  rw [hp] at hpend
  exact absurd hpend nofun

theorem Valued.none_of_lacks (h : Valued k m pc o) (hl : m.Lacks k) : o = none := by
  by_contra hne
  obtain ⟨n, i, ho⟩ := h.owned hne
  exact hl n i ho

/-! ## What a thread does -/

/-- The memory is as before, as far as the slots with the key go. -/
theorem Valued.move (h : Valued k m pc o) (hown : ∀ n i, m'.Owns k n i ↔ m.Owns k n i)
    (hsecond : ∀ n i, m.Owns k n i → (m'.nodes n).second i = (m.nodes n).second i)
    (hreturns : m'.returns k = m.returns k) (hf : pc'.ByFunc) (hp : pc.pending = none)
    (hcarries : pc'.Carries o) : Valued k m' pc' o := by
  refine ⟨hf, hreturns ▸ h.returns, hcarries, fun ho => ?_, fun n i ho => ?_⟩
  · obtain ⟨n, i, ho'⟩ := h.owned ho
    exact ⟨n, i, (hown n i).mpr ho'⟩
  · have ho' := (hown n i).mp ho
    rw [hsecond n i ho']
    exact Or.inr (h.value_of_owns hp ho')

theorem Valued.local (h : Valued k m pc o) (hf : pc'.ByFunc) (hp : pc.pending = none)
    (hcarries : pc'.Carries o) : Valued k m pc' o :=
  h.move (fun _ _ => Iff.rfl) (fun _ _ _ => rfl) rfl hf hp hcarries

/-- Of the steps of `InnerGetEntry`, which has no value to insert. -/
theorem Valued.search (h : Valued k m pc o) (hcall : pc'.call = pc.call) (hadd : pc'.adding = none)
    (hp : pc.pending = none) (hcarries : pc'.Carries o) : Valued k m pc' o :=
  h.local (h.byFunc.next hcall (.inl hadd)) hp hcarries

/-- The thread is in the loop of `InnerAdd`. -/
structure Pc.Adds (c : Call V) (v : V) (o : Option V) (pc : Pc V) : Prop where
  call : pc.call = some c
  adding : pc.adding = some v
  carries : pc.Carries o

theorem Pc.Adds.byFunc {v : V} (h : pc'.Adds c v o) (hf : pc.ByFunc) (hcall : pc.call = some c)
    (hadd : pc.adding = some v) : pc'.ByFunc :=
  hf.next (h.call.trans hcall.symm) (.inr (h.adding.trans hadd.symm))

theorem checkSpace_adds (c : Call V) (v : V) (main newCount : ℕ) : (checkSpace m c v main newCount).Adds c v o := by
  unfold checkSpace
  split
  · exact ⟨rfl, rfl, trivial⟩
  · exact ⟨rfl, rfl, trivial⟩

theorem addLoop_adds (c : Call V) (v : V) (main newCount : ℕ) : (addLoop m c v main newCount).Adds c v o := by
  unfold addLoop
  split
  · exact ⟨rfl, rfl, trivial⟩
  · exact checkSpace_adds c v main newCount

/-- A slot is filled with the key; its value is still to be stored. -/
theorem Valued.fill (h : Valued k m pc o) (hn : n ≤ m.mainHash) (hi : i < (m.nodes n).capacity)
    (hnone : (m.nodes n).first i = none) (hf : pc'.ByFunc) (hp : pc.pending = none)
    (hp' : pc'.pending = some (n, i)) (hcarries : pc'.Carries o) : Valued k (m.fill n i k) pc' o := by
  refine ⟨hf, h.returns, hcarries, fun ho => ?_, fun n' j ho => ?_⟩
  · obtain ⟨n', j, ho'⟩ := h.owned ho
    exact ⟨n', j, (owns_fill hn hi hnone n' j).mpr (Or.inl ho')⟩
  · rw [fill_second]
    rcases (owns_fill hn hi hnone n' j).mp ho with ho | ⟨rfl, rfl⟩
    · exact Or.inr (h.value_of_owns hp ho)
    · exact Or.inl hp'

variable [DecidableEq K]

theorem finish_returns (m : Memory K V) (k : K) (c : Call V) (r : Result V) :
    (m.finish k c r).1.returns k = m.returns k ++ [(c, r)] :=
  Function.update_self ..

theorem idle_byFunc : (Pc.idle : Pc V).ByFunc := ⟨fun _ => nofun, fun _ => nofun⟩

/-- A call returns. -/
theorem Valued.finish (h : Valued k m pc o) (hp : pc.pending = none) {r : Result V}
    (hr : Outcomes o (m.returns k ++ [(c, r)])) : Valued k (m.finish k c r).1 .idle o := by
  refine ⟨idle_byFunc, ?_, trivial, h.owned, fun _ _ ho => Or.inr (h.value_of_owns hp ho)⟩
  rw [finish_returns]
  exact hr

/-- The first success: the value goes into the only slot that has the key. -/
theorem Valued.store (h : Valued k m pc none) {v : V} (ho : m.Owns k n i)
    (honly : ∀ n' j, m.Owns k n' j → n' = n ∧ j = i) :
    Valued k ((m.storeSecond n i (some v)).finish k (.getOrAddByFunc (some v)) (.gotOrAdded .addSuccess (some v))).1
      .idle (some v) := by
  refine ⟨idle_byFunc, ?_, trivial, fun _ => ⟨n, i, (owns_storeSecond ..).mpr ho⟩, fun n' j ho' => ?_⟩
  · rw [finish_returns]
    exact h.returns.addSuccess v
  · obtain ⟨rfl, rfl⟩ := honly n' j ((owns_storeSecond ..).mp ho')
    refine Or.inr ⟨nofun, ?_⟩
    show ((m.storeSecond n' j (some v)).nodes n').second j = some v
    rw [storeSecond_second, if_pos ⟨rfl, rfl⟩]

/-- **Access.** -/
theorem Valued.access {r : Memory K V × Pc V} (h : Valued k m pc o) (hown : Own hash k m pc) (hch : m.Chain e)
    (hs : access hash w k m pc = some r) : ∃ o, Valued k r.1 r.2 o := by
  have hat := hown.pc
  cases pc with
  | idle => exact absurd hs nofun
  | load c =>
      obtain rfl := Option.some.inj hs
      exact ⟨o, h.search rfl rfl rfl trivial⟩
  | find c main cur d =>
      simp only [Concurrent.access] at hs
      split at hs
      · obtain rfl := Option.some.inj hs
        exact ⟨o, h.search rfl rfl rfl trivial⟩
      · split at hs
        · split at hs
          · obtain rfl := Option.some.inj hs
            exact ⟨o, h.search rfl rfl rfl trivial⟩
          · obtain rfl := Option.some.inj hs
            obtain ⟨v, rfl⟩ := h.byFunc.call c rfl
            cases v with
            | none => exact ⟨o, h.finish rfl (h.returns.failed _ none)⟩
            | some v => exact ⟨o, h.local ⟨h.byFunc.call, fun _ hv => by cases hv; rfl⟩ rfl trivial⟩
        · obtain rfl := Option.some.inj hs
          exact ⟨o, h.search rfl rfl rfl trivial⟩
  | readValue c main cur i =>
      obtain ⟨hne, hval⟩ := h.value_of_owns rfl hat.2.2.2
      simp only [Concurrent.access] at hs
      split at hs
      · obtain rfl := Option.some.inj hs
        exact ⟨o, h.search rfl rfl rfl trivial⟩
      · obtain rfl := Option.some.inj hs
        exact ⟨o, h.search rfl rfl rfl ⟨hval, hne⟩⟩
  | promote c main d v =>
      obtain ⟨-, hp⟩ := hat
      simp only [Concurrent.access] at hs
      split at hs
      · next hnone =>
          obtain rfl := Option.some.inj hs
          exact ⟨o, h.fill hp.1 (hp.slot_lt hch) hnone (h.byFunc.next rfl (.inl rfl)) rfl rfl h.carries⟩
      · obtain rfl := Option.some.inj hs
        exact ⟨o, h.search rfl rfl rfl h.carries⟩
  | promoteStore c main i v =>
      obtain rfl := Option.some.inj hs
      obtain ⟨rfl, hne⟩ := h.carries
      refine ⟨v, h.byFunc.next rfl (.inl rfl), h.returns, trivial, fun _ => ⟨main, i, (owns_storeSecond ..).mpr hat⟩, fun n j ho => ?_⟩
      have ho' := (owns_storeSecond ..).mp ho
      refine Or.inr ⟨hne, ?_⟩
      show ((m.storeSecond main i v).nodes n).second j = v
      rw [storeSecond_second]
      by_cases hslot : n = main ∧ j = i
      · rw [if_pos hslot]
      · rw [if_neg hslot]
        refine ((h.second n j ho').resolve_left fun hpend => hslot ?_).2
        rw [Pc.pending, Option.some.injEq, Prod.mk.injEq] at hpend
        exact ⟨hpend.1.symm, hpend.2.symm⟩
  | found c main i =>
      obtain rfl := Option.some.inj hs
      obtain ⟨v, rfl⟩ := h.byFunc.call c rfl
      obtain ⟨hne, hval⟩ := h.value_of_owns rfl hat
      refine ⟨o, h.finish rfl ?_⟩
      rw [hval]
      exact h.returns.getSuccess hne _
  | add c v main =>
      obtain rfl := Option.some.inj hs
      have hnext : (addLoop m c v main m.entriesCount).Adds c v o := addLoop_adds c v main m.entriesCount
      exact ⟨o, h.move (fun _ _ => Iff.rfl) (fun _ _ _ => rfl) rfl (hnext.byFunc h.byFunc rfl rfl) rfl hnext.carries⟩
  | testAndSet c v main newCount =>
      simp only [Concurrent.access] at hs
      split at hs
      · obtain rfl := Option.some.inj hs
        exact ⟨o, h.move (fun _ _ => Iff.rfl) (fun _ _ _ => rfl) rfl (h.byFunc.next rfl (.inr rfl)) rfl trivial⟩
      · obtain rfl := Option.some.inj hs
        have hnext : (checkSpace m c v main newCount).Adds c v o := checkSpace_adds c v main newCount
        exact ⟨o, h.local (hnext.byFunc h.byFunc rfl rfl) rfl hnext.carries⟩
  | resize c v newCount =>
      simp only [Concurrent.access] at hs
      split at hs
      · obtain rfl := Option.some.inj hs
        exact ⟨o, h.local (h.byFunc.next rfl (.inr rfl)) rfl trivial⟩
      · rw [Option.map_eq_some_iff] at hs
        obtain ⟨count, -, rfl⟩ := hs
        exact ⟨o, h.local (h.byFunc.next rfl (.inr rfl)) rfl trivial⟩
  | publish c v main newCapacity newCount =>
      obtain rfl := Option.some.inj hs
      refine ⟨o, h.move (fun _ _ => owns_publish ..) (fun n i ho => ?_) rfl (h.byFunc.next rfl (.inr rfl)) rfl trivial⟩
      rw [publish_nodes_of_le ho.1]
  | clear c v main newCount =>
      obtain rfl := Option.some.inj hs
      have hnext : (checkSpace m c v main newCount).Adds c v o := checkSpace_adds c v main newCount
      exact ⟨o, h.move (fun _ _ => Iff.rfl) (fun _ _ _ => rfl) rfl (hnext.byFunc h.byFunc rfl rfl) rfl hnext.carries⟩
  | insert c v main d =>
      simp only [Concurrent.access] at hs
      split at hs
      · obtain rfl := Option.some.inj hs
        exact ⟨o, h.local (h.byFunc.next rfl (.inr rfl)) rfl trivial⟩
      · obtain rfl := Option.some.inj hs
        exact ⟨o, h.local (h.byFunc.next rfl (.inr rfl)) rfl trivial⟩
  | exchange c v main d =>
      obtain ⟨hl, hp⟩ := hat
      simp only [Concurrent.access] at hs
      split at hs
      · next hnone =>
          obtain rfl := Option.some.inj hs
          exact ⟨o, h.fill hp.1 (hp.slot_lt hch) hnone (h.byFunc.next rfl (.inr rfl)) rfl rfl (h.none_of_lacks hl)⟩
      · obtain rfl := Option.some.inj hs
        exact ⟨o, h.local (h.byFunc.next rfl (.inr rfl)) rfl trivial⟩
  | store c v main i =>
      obtain rfl := Option.some.inj hs
      obtain rfl : o = none := h.carries
      obtain rfl : c = .getOrAddByFunc (some v) := Option.some.inj (h.byFunc.adding v rfl)
      exact ⟨some v, h.store hat.1 hat.2⟩
  | reload c v newCount =>
      obtain rfl := Option.some.inj hs
      have hnext : (addLoop m c v m.mainHash newCount).Adds c v o := addLoop_adds c v m.mainHash newCount
      exact ⟨o, h.local (hnext.byFunc h.byFunc rfl rfl) rfl hnext.carries⟩

/-- **Step.** -/
theorem Valued.step {a : Act V} {r : Memory K V × Pc V} (h : Valued k m pc o) (hown : Own hash k m pc)
    (hch : m.Chain e) (hcall : ∀ c, a = .call c → ∃ v, c = .getOrAddByFunc v)
    (hs : ThreadStep hash w k (m, pc) a r) : ∃ o, Valued k r.1 r.2 o := by
  cases hs with
  | call c =>
      refine ⟨o, ⟨⟨fun c' hc' => ?_, fun _ => nofun⟩, h.returns, trivial, h.owned,
        fun _ _ ho => Or.inr (h.value_of_owns rfl ho)⟩⟩
      cases hc'
      exact hcall c rfl
  | access hacc => exact h.access hown hch hacc
  | throws =>
      exact ⟨o, ⟨idle_byFunc, h.returns, trivial, h.owned, fun _ _ ho => Or.inr (h.value_of_owns rfl ho)⟩⟩

/-! ## Runs -/

/-- Every call is of `GetOrAddByFunc`. -/
def OnlyByFunc (_ : State K V) (a : K × Act V) : Prop := ∀ c, a.2 = .call c → ∃ v, c = .getOrAddByFunc v

theorem relyGuarantee_valued (hash : K → ℕ) (w e : ℕ) :
    Interleaving.RelyGuarantee (ThreadStep hash w) (OnlyByFunc : State K V → K × Act V → Prop) (Chain e)
      (fun k m pc => Own hash k m pc ∧ ∃ o, Valued k m pc o) Rely where
  own := by
    rintro s k a m' pc' hok hch ⟨hown, o, hval⟩ hs
    have hsound := hown.step hch hs
    exact ⟨hsound.chain, hsound.own, hval.step hown hch hok hs⟩
  guarantee := fun _ hch hown hs hne => (hown.1.step hch hs).rely _ hne
  stable := by
    rintro k m m' pc - ⟨hown, o, hval⟩ hrely
    exact ⟨⟨hrely.keyed hown.keyed, hrely.at_ hown.pc⟩, o, hrely.valued hval⟩

instance (s : State K V) (a : K × Act V) : Decidable (OnlyByFunc s a) :=
  match a with
  | (_, .call (.getOrAddByFunc v)) => .isTrue fun c hc => ⟨v, by cases hc; rfl⟩
  | (_, .call (.get)) => .isFalse fun h => by obtain ⟨v, hv⟩ := h _ rfl; cases hv
  | (_, .call (.set _)) => .isFalse fun h => by obtain ⟨v, hv⟩ := h _ rfl; cases hv
  | (_, .call (.getOrAdd _)) => .isFalse fun h => by obtain ⟨v, hv⟩ := h _ rfl; cases hv
  | (_, .access) => .isTrue fun c hc => by cases hc
  | (_, .throws) => .isTrue fun c hc => by cases hc

/-- **Each thread keeps one value**: of its calls that succeed the first adds the value that `AllocateValueFunc`
    made in it, and all later ones get that value; where the values made for two keys are different, the calls
    with the one never give a value that a call with the other gives. -/
theorem outcomes (hash : K → ℕ) (w e : ℕ) {s : State K V}
    (h : Reaches (Step hash w) OnlyByFunc (fresh (2 ^ e)) s) :
    (∀ k, ∃ o, Outcomes o (s.memory.returns k)) ∧
      ∀ k k' v, (∀ u, Made (s.memory.returns k) u → ¬ Made (s.memory.returns k') u) →
        Gave (s.memory.returns k) v → ¬ Gave (s.memory.returns k') v := by
  obtain ⟨-, hown⟩ := (relyGuarantee_valued hash w e).invariant h (.fresh e) fun k =>
    ⟨.fresh hash e k, none, idle_byFunc, rfl, trivial, fun h => absurd rfl h, fun _ _ ho => absurd ho.2.2 nofun⟩
  have hkeeps : ∀ k, ∃ o, Outcomes o (s.memory.returns k) := by
    intro k
    obtain ⟨-, o, hval⟩ := hown k
    exact ⟨o, hval.returns⟩
  refine ⟨hkeeps, fun k k' v hapart hgave hgave' => ?_⟩
  obtain ⟨o, ho⟩ := hkeeps k
  obtain ⟨o', ho'⟩ := hkeeps k'
  exact hapart v (ho.made hgave) (ho'.made hgave')

/-- Two threads add their keys to one table, which has to grow twice meanwhile, and come again. -/
theorem outcomes_twice : ∃ s : State (Fin 2) ℕ,
    s.memory.mainHash = 2 ∧
      s.memory.returns 0 = [(.getOrAddByFunc (some 7), .gotOrAdded .addSuccess (some 7)),
        (.getOrAddByFunc (some 8), .gotOrAdded .getSuccess (some 7))] ∧
      s.memory.returns 1 = [(.getOrAddByFunc (some 9), .gotOrAdded .addSuccess (some 9)),
        (.getOrAddByFunc (some 6), .gotOrAdded .getSuccess (some 9))] ∧
      (∀ k, ∃ o, Outcomes o (s.memory.returns k)) ∧ ¬ Gave (s.memory.returns 1) 7 := by
  have hrun : (Interleaving.runSchedule (threadStep (fun _ => 0) 64) OnlyByFunc
      ([(0, .call (.getOrAddByFunc (some 7))), (1, .call (.getOrAddByFunc (some 9)))] ++
        (List.replicate 9 [(0, .access), (1, .access)]).flatten ++
        [(0, .access), (1, .access), (0, .call (.getOrAddByFunc (some 8)))] ++
        (List.replicate 4 [(0, .access), (1, .access)]).flatten ++ [(1, .call (.getOrAddByFunc (some 6)))] ++
        (List.replicate 4 [(0, .access), (1, .access)]).flatten)
      (fresh (2 ^ 0) : State (Fin 2) ℕ)).map
        (fun s => (s.memory.mainHash, s.memory.returns 0, s.memory.returns 1)) =
      some (2, [(.getOrAddByFunc (some 7), .gotOrAdded .addSuccess (some 7)),
          (.getOrAddByFunc (some 8), .gotOrAdded .getSuccess (some 7))],
        [(.getOrAddByFunc (some 9), .gotOrAdded .addSuccess (some 9)),
          (.getOrAddByFunc (some 6), .gotOrAdded .getSuccess (some 9))]) := by decide +kernel
  obtain ⟨s, hs, hends⟩ := Option.map_eq_some_iff.mp hrun
  obtain ⟨hmain, h₀, h₁⟩ : s.memory.mainHash = 2 ∧ s.memory.returns 0 = _ ∧ s.memory.returns 1 = _ := by
    simpa only [Prod.mk.injEq] using hends
  obtain ⟨hkeeps, hapart⟩ :=
    outcomes (fun _ => 0) 64 0 (Interleaving.reaches_of_schedule (fun _ _ _ _ => ThreadStep.of_threadStep) hs)
  refine ⟨s, hmain, h₀, h₁, hkeeps, hapart 0 1 7 ?_ ?_⟩
  · rw [h₀, h₁]
    rintro u ⟨r, hr, hu⟩ ⟨r', hr', hu'⟩
    simp only [List.mem_cons, List.not_mem_nil, or_false] at hr hr'
    rcases hr with rfl | rfl <;> rcases hr' with rfl | rfl <;> cases hu <;> cases hu'
  · rw [h₀]
    exact ⟨_, List.mem_cons_self, _, rfl⟩

end Concurrent

end HashTable

end LockFreeStructures
