import LockFreeStructures.HashTable.LatestSet

/-!
# `HashTable.SpacedRuns` — the calls on a key agree

A `Get` that begins after the last `Set` begins with the table of its value or a newer one, and finds the value in
one of them. With that all that is claimed of the calls on a key holds in spaced runs; it fails in others, as two
threads that both miss the key insert it twice.
-/

namespace LockFreeStructures

namespace HashTable

namespace Concurrent

open Memory

/-- In a `Get` that has not left table `n` behind. -/
def Pc.Reads {K V : Type} (hash : K → ℕ) (k : K) (m : Memory K V) (n : ℕ) : Pc V → Prop
  | .load c => c = .get
  | .find c _ cur _ => c = .get ∧ n ≤ cur
  | .readValue c _ cur _ => c = .get ∧ n ≤ cur
  | .promote c main _ _ => c = .get ∧ n < main
  | .promoteStore c main _ _ => c = .get ∧ n < main
  | .found c main i => c = .get ∧ (n < main ∨ n = main ∧ m.Finds hash k main i)
  | _ => False

namespace Shared

variable {T K V : Type} {hash : K → ℕ} {w e : ℕ} {k : K} {m m' : Memory K V} {n i j : ℕ} {v : V} {o : Option V}
  {pc pc' : Pc V} {r : Memory K V × Pc V} {key : T → K} {ls : T → Pc V} {t t₀ : T} {a : Act V}

/-! ## The `Get` after it -/

section Runs

variable [DecidableEq K]

omit [DecidableEq K] in
theorem Reads.mono (h : pc.Reads hash k m n) (hg : Grows m m') : pc.Reads hash k m' n := by
  cases pc with
  | found c main i => exact ⟨h.1, h.2.imp_right fun hf => ⟨hf.1, hg.finds hf.2⟩⟩
  | _ => exact h

/-- A `Get` that has not left the table of the value behind finds a slot in it or in a newer one. -/
theorem Reads.access (h : pc.Reads hash k m n) (hk : pc.Knows hash k m) (hch : m.Chain e) (hreached : m.Reached hash k)
    (ho : m.Owns k n i) (hs : access hash w k m pc = some r) : r.2.Reads hash k r.1 n ∨ ∃ main i, pc = .found .get main i := by
  cases pc with
  | load c =>
      obtain rfl := Option.some.inj hs
      exact .inl ⟨h, ho.1⟩
  | find c main cur d =>
      obtain ⟨rfl, hcur⟩ := h
      obtain ⟨-, -, hp, hne⟩ := hk
      simp only [Concurrent.access] at hs
      by_cases hkey : (m.nodes cur).first ((hash k + d) % (m.nodes cur).capacity) = some k
      · rw [if_pos hkey] at hs
        obtain rfl := Option.some.inj hs
        exact .inl ⟨rfl, hcur⟩
      · rw [if_neg hkey] at hs
        by_cases hnone : (m.nodes cur).first ((hash k + d) % (m.nodes cur).capacity) = none
        -- table `n` has the key, so a search that ends at a free slot is in a newer one
        · have hlt : n < cur := Nat.lt_of_le_of_ne hcur fun heq => not_owns_of_free hreached hne hnone i (heq ▸ ho)
          have hzero : cur ≠ 0 := by omega
          rw [if_pos hnone, (hch cur hp.1).2, if_neg hzero] at hs
          obtain rfl := Option.some.inj hs
          exact .inl ⟨rfl, Nat.le_sub_one_of_lt hlt⟩
        · rw [if_neg hnone] at hs
          obtain rfl := Option.some.inj hs
          exact .inl ⟨rfl, hcur⟩
  | readValue c main cur i =>
      obtain ⟨rfl, hcur⟩ := h
      obtain ⟨hle, -, hf⟩ := hk
      simp only [Concurrent.access] at hs
      -- a value from an older table is promoted, one from the newest is the result
      by_cases heq : cur = main
      · rw [if_pos heq] at hs
        obtain rfl := Option.some.inj hs
        subst heq
        exact .inl ⟨rfl, (Nat.lt_or_eq_of_le hcur).imp_right fun hn => ⟨hn, hf⟩⟩
      · rw [if_neg heq] at hs
        obtain rfl := Option.some.inj hs
        exact .inl ⟨rfl, Nat.lt_of_le_of_lt hcur (Nat.lt_of_le_of_ne hle heq)⟩
  | promote c main d o =>
      simp only [Concurrent.access] at hs
      by_cases hnone : (m.nodes main).first ((hash k + d) % (m.nodes main).capacity) = none
      · rw [if_pos hnone] at hs
        obtain rfl := Option.some.inj hs
        exact .inl h
      · rw [if_neg hnone] at hs
        obtain rfl := Option.some.inj hs
        exact .inl h
  | promoteStore c main i o =>
      obtain rfl := Option.some.inj hs
      exact .inl ⟨h.1, .inl h.2⟩
  | found c main i =>
      obtain ⟨rfl, -⟩ := h
      exact .inr ⟨main, i, rfl⟩
  | _ => exact absurd h id

theorem Reads.of_call (n : ℕ) (hs : ThreadStep hash w k (m, pc) (.call .get) r) : r.2.Reads hash k r.1 n := by
  cases hs
  rfl

omit [DecidableEq K] in
/-- And what it finds is the value. -/
theorem Current.found {main : ℕ} {c : Call V} (h : Current hash k v n m)
    (hreads : (Pc.found c main i).Reads hash k m n) (ho : m.Owns k main i)
    (htidy : (Pc.found c main i).Tidy k m) : (m.nodes main).second i = some v := by
  have hsome : (m.nodes main).second i ≠ none := htidy
  obtain ⟨v', hv'⟩ := Option.ne_none_iff_exists'.mp hsome
  rcases hreads.2 with hlt | ⟨rfl, hf⟩
  · exact (h.newer main i hlt ho).resolve_left hsome
  · rw [hv', h.read hf le_rfl hv']

variable [DecidableEq T] {s s' : State T K V}

theorem Latest.run (h : Latest hash key k v n s) (hagreed : Agreed hash e key k s)
    (hrun : Reaches (Step hash w key) (fun s a => Spaced key k s a ∧ Gets key k s a) s s') :
    Agreed hash e key k s' ∧ Latest hash key k v n s' := by
  refine hrun.invariant (I := fun s => Agreed hash e key k s ∧ Latest hash key k v n s) ⟨hagreed, h⟩ ?_
  rintro s a s' ⟨hagreed, h⟩ ⟨hok, hgets⟩ ⟨hs⟩
  exact ⟨hagreed.step hok hs, h.step hagreed hok hgets hs⟩

theorem Setting.run (h : Setting hash key k v t₀ s) (hkey₀ : key t₀ = k) (hagreed : Agreed hash e key k s)
    (hrun : Reaches (Step hash w key) (fun s a => Spaced key k s a ∧ Gets key k s a ∧ GoesOn t₀ s a) s s') :
    Agreed hash e key k s' ∧ Setting hash key k v t₀ s' := by
  refine hrun.invariant (I := fun s => Agreed hash e key k s ∧ Setting hash key k v t₀ s) ⟨hagreed, h⟩ ?_
  rintro s a s' ⟨hagreed, h⟩ ⟨hok, hgets, hgo⟩ ⟨hs⟩
  exact ⟨hagreed.step hok hs, h.step hkey₀ hagreed hok hgets hgo hs⟩

theorem Reads.run (h : (s.threads t).Reads hash k s.memory n) (hkey : key t = k) (hagreed : Agreed hash e key k s)
    (hlatest : Latest hash key k v n s)
    (hrun : Reaches (Step hash w key) (fun s a => Spaced key k s a ∧ Gets key k s a ∧ GoesOn t s a) s s') :
    (Agreed hash e key k s' ∧ Latest hash key k v n s') ∧
      ((s'.threads t).Reads hash k s'.memory n ∨ s'.threads t = .idle) := by
  refine hrun.invariant
    (I := fun s => (Agreed hash e key k s ∧ Latest hash key k v n s) ∧
      ((s.threads t).Reads hash k s.memory n ∨ s.threads t = .idle))
    ⟨⟨hagreed, hlatest⟩, .inl h⟩ ?_
  rintro s a s' ⟨⟨hagreed, hlatest⟩, h⟩ ⟨hok, hgets, hgo⟩ ⟨hs⟩
  rename_i m m' ls t' a l'
  refine ⟨⟨hagreed.step hok hs, hlatest.step hagreed hok hgets hs⟩, ?_⟩
  have hg := (hagreed.inv.sound hs).grows
  by_cases ht : t = t'
  · subst ht
    -- the thread's own access; the steps of the others leave its place and grow the tables only
    obtain rfl := hgo rfl
    obtain ⟨i, ho⟩ := hlatest.current.owns
    have hknows : (ls t).Knows hash k m := hkey ▸ hagreed.inv.knows t
    have hpc : (ls t).Reads hash k m n ∨ ls t = .idle := h
    rw [hkey] at hs
    simp only [Function.update_self]
    generalize ls t = pc at hs hknows hpc
    cases hs with
    | access hacc =>
        rcases hpc with h | rfl
        · rcases Reads.access h hknows hagreed.inv.chain hagreed.shape.reached ho hacc with hreads | ⟨main, i, rfl⟩
          · exact .inl hreads
          · obtain rfl := congrArg Prod.snd (Option.some.inj hacc)
            exact .inr rfl
        · cases hacc
  · simp only [Function.update_of_ne ht]
    exact h.imp_left fun hreads => Reads.mono hreads hg

/-! ## What is reported for a key -/

/-- The calls on the key agree, as long as the steps are such. -/
structure Agreement (hash : K → ℕ) (w e : ℕ) (key : T → K) (k : K) (ok : State T K V → T × Act V → Prop) : Prop where
  /-- `GetOrAdd` adds the key once. -/
  once : ∀ s, Reaches (Step hash w key) ok (start T e) s → addCount k s.memory ≤ 1
  /-- Without a `Set` all reports are the same. -/
  same : ∀ s, Reaches (Step hash w key) (fun s a => ok s a ∧ NoSet key k s a) (start T e) s →
    ∀ r₁ ∈ s.memory.returns k, ∀ r₂ ∈ s.memory.returns k, ∀ o₁ o₂, r₁.2.value = some o₁ → r₂.2.value = some o₂ → o₁ = o₂
  /-- What is reported was stored. -/
  stored : ∀ (S : Set V) s, Reaches (Step hash w key) (fun s a => ok s a ∧ Stores key k S s a) (start T e) s →
    ∀ r ∈ s.memory.returns k, ∀ o, r.2.value = some o → ∃ v ∈ S, o = some v
  /-- When `t₀` begins a `Set` with the others in no call but `Get`, and none but `Get` is called from then on, a
      `Get` that begins after the `Set` has returned gives its value. -/
  latest : ∀ (v : V) (t₀ t : T) (s₀ s₁ s₂ s₃ s₄ s₅ : State T K V), key t₀ = k → key t = k →
    Reaches (Step hash w key) ok (start T e) s₀ →
    s₀.threads t₀ = .load (.set v) → (∀ t' ≠ t₀, key t' = k → (s₀.threads t').Reading) →
    Reaches (Step hash w key) (fun s a => ok s a ∧ Gets key k s a ∧ GoesOn t₀ s a) s₀ s₁ → s₁.threads t₀ = .idle →
    Reaches (Step hash w key) (fun s a => ok s a ∧ Gets key k s a) s₁ s₂ →
    Step hash w key s₂ (t, .call .get) s₃ →
    Reaches (Step hash w key) (fun s a => ok s a ∧ Gets key k s a ∧ GoesOn t s a) s₃ s₄ →
    ok s₄ (t, .access) → Step hash w key s₄ (t, .access) s₅ → s₅.threads t = .idle →
    (s₅.memory.returns k).getLast? = some (.get, .got (some v))

/-- The last access of the `Get`. -/
theorem Latest.last (h : Latest hash key k v n s) (hkey : key t = k) (hagreed : Agreed hash e key k s)
    (hreads : (s.threads t).Reads hash k s.memory n ∨ s.threads t = .idle) (hok : Spaced key k s (t, .access))
    (hs : Step hash w key s (t, .access) s') (hidle : s'.threads t = .idle) :
    (s'.memory.returns k).getLast? = some (.get, .got (some v)) := by
  obtain ⟨hs⟩ := hs
  rename_i m m' ls l'
  obtain ⟨i₀, ho⟩ := h.current.owns
  have htidy : (ls t).Tidy k m := hok.tidy hagreed.inv hagreed.shape hagreed.turns hkey
  have hknows : (ls t).Knows hash k m := hkey ▸ hagreed.inv.knows t
  have hpc : (ls t).Reads hash k m n ∨ ls t = .idle := hreads
  have hl' : l' = .idle := by simpa only [Function.update_self] using hidle
  subst hl'
  rw [hkey] at hs
  generalize ls t = pc at hs hknows hpc htidy
  cases hs with
  | access hacc =>
      rcases hpc with hreads | rfl
      · rcases Reads.access hreads hknows hagreed.inv.chain hagreed.shape.reached ho hacc with hstill | ⟨main, i, rfl⟩
        · exact absurd hstill id
        · obtain rfl := congrArg Prod.fst (Option.some.inj hacc)
          have hvalue : (m.nodes main).second i = some v := h.current.found hreads hknows htidy
          simp only [useEntry, Memory.finish, Function.update_self, hvalue, List.getLast?_append,
            List.getLast?_singleton, Option.some_or]
      · cases hacc

/-- **The calls on a key agree in spaced runs.** -/
theorem agreement_of_spaced (hash : K → ℕ) (w e : ℕ) (key : T → K) (k : K) :
    Agreement (V := V) hash w e key k (Spaced key k) := by
  refine ⟨fun s h => (Agreed.run h).once, fun s h r₁ hr₁ r₂ hr₂ o₁ o₂ ho₁ ho₂ => ?_, fun S s h => ?_, ?_⟩
  · obtain ⟨S, hS, hheld⟩ := (Uniform.run h).held
    obtain ⟨v₁, hv₁, rfl⟩ := hheld.values.reported r₁ hr₁ o₁ ho₁
    obtain ⟨v₂, hv₂, rfl⟩ := hheld.values.reported r₂ hr₂ o₂ ho₂
    rw [hS hv₁ hv₂]
  · exact (Held.run h).values.reported
  · intro v t₀ t s₀ s₁ s₂ s₃ s₄ s₅ hkey₀ hkey hrun₀ hload hothers hrun₁ hidle₁ hrun₂ hcall hrun₃ hok₄ hs₄ hidle₅
    have hset₀ : Setting hash key k v t₀ s₀ := by
      refine ⟨hothers, .inl ⟨congrArg Pc.call hload, ?_⟩⟩
      rw [hload]
      trivial
    obtain ⟨hagreed₁, hset₁⟩ := hset₀.run hkey₀ (Agreed.run hrun₀) hrun₁
    rcases hset₁.set with ⟨hcalls, -⟩ | ⟨-, n, hlatest₁⟩
    · rw [hidle₁] at hcalls
      cases hcalls
    · obtain ⟨hagreed₂, hlatest₂⟩ := hlatest₁.run hagreed₁ hrun₂
      obtain ⟨hs⟩ := hcall
      rename_i m m' ls l'
      have hok : ∀ s : State T K V, Spaced key k s (t, .call .get) := fun s =>
        ⟨fun _ c hc => by cases hc; trivial, fun _ => by rintro ⟨⟩, fun _ => by rintro ⟨⟩⟩
      have hagreed₃ := hagreed₂.step (hok _) hs
      have hlatest₃ := hlatest₂.step hagreed₂ (hok _) (fun _ c hc => by cases hc; rfl) hs
      have hreads₃ : (Function.update ls t l' t).Reads hash k m' n := by
        rw [Function.update_self]
        rw [hkey] at hs
        exact Reads.of_call n hs
      obtain ⟨⟨hagreed₄, hlatest₄⟩, hreads₄⟩ := Reads.run hreads₃ hkey hagreed₃ hlatest₃ hrun₃
      exact hlatest₄.last hkey hagreed₄ hreads₄ hok₄ hs₄ hidle₅

/-- Threads 0 and 1 have one key, thread 2 another. The key is added, the other one makes the table grow, two `Get`
    bring the key to the new table side by side, each into a slot of its own, and a `Get` beside a `Set` and one
    after it follow. -/
theorem agreement_of_two_promotions : ∃ s : State (Fin 3) (Fin 2) ℕ,
    (List.range 4).map (s.memory.nodes 1).first = [some 1, some 0, some 0, none] ∧
      s.memory.returns 0 = [(.getOrAdd 7, .gotOrAdded .addSuccess (some 7)), (.get, .got (some 7)), (.get, .got (some 7)),
        (.get, .got (some 7)), (.set 9, .set), (.get, .got (some 9))] ∧ addCount 0 s.memory ≤ 1 := by
  have hrun : (Interleaving.runSchedule (fun t => threadStep (fun _ => 0) 64 (if t = 2 then 1 else 0))
      (Spaced (fun t : Fin 3 => if t = 2 then (1 : Fin 2) else 0) 0)
      ([(0, .call (.getOrAdd 7))] ++ List.replicate 6 (0, .access) ++
        [(2, .call (.getOrAdd 5))] ++ List.replicate 11 (2, .access) ++
        [(0, .call .get), (1, .call .get)] ++ (List.replicate 9 [(0, .access), (1, .access)]).flatten ++ [(1, .access)] ++
        [(1, .call (.set 9)), (0, .call .get)] ++ (List.replicate 5 [(0, .access), (1, .access)]).flatten ++
        [(0, .call .get)] ++ List.replicate 5 (0, .access))
      (start (Fin 3) 1 : State (Fin 3) (Fin 2) ℕ)).map
        (fun s => ((List.range 4).map (s.memory.nodes 1).first, s.memory.returns 0)) =
      some ([some 1, some 0, some 0, none], [(.getOrAdd 7, .gotOrAdded .addSuccess (some 7)), (.get, .got (some 7)),
        (.get, .got (some 7)), (.get, .got (some 7)), (.set 9, .set), (.get, .got (some 9))]) := by decide +kernel
  obtain ⟨s, hs, hends⟩ := Option.map_eq_some_iff.mp hrun
  rw [Prod.mk.injEq] at hends
  exact ⟨s, hends.1, hends.2, (agreement_of_spaced (fun _ => 0) 64 1 _ 0).once s
    (Interleaving.reaches_of_schedule (fun _ _ _ _ => ThreadStep.of_threadStep) hs)⟩

/-- Two threads that have both missed the key insert it twice. -/
theorem not_agreement_of_plainCalls :
    ¬ Agreement (T := Fin 2) (V := ℕ) (fun _ : Fin 1 => 0) 64 3 (fun _ => 0) 0 (PlainCalls (fun _ => 0) 0) := by
  intro h
  have hcall : ∀ (s : State (Fin 2) (Fin 1) ℕ) (t : Fin 2) (v : ℕ),
      PlainCalls (fun _ => 0) 0 s (t, Act.call (.getOrAdd v)) := fun _ _ _ _ c hc => by
    cases hc
    trivial
  have haccess : ∀ (s : State (Fin 2) (Fin 1) ℕ) (t : Fin 2), PlainCalls (fun _ => 0) 0 s (t, Act.access) :=
    fun _ _ _ _ => nofun
  have htwice := h.once _ <|
    .head (.mk (t := 0) (.call (.getOrAdd 7))) (hcall _ _ _) <|
    .head (.mk (t := 1) (.call (.getOrAdd 9))) (hcall _ _ _) <|
    -- both read `MainHash`, find the first slot free, take their tickets and find the slot free again
    .head (.mk (t := 0) (.access rfl)) (haccess _ _) <| .head (.mk (t := 1) (.access rfl)) (haccess _ _) <|
    .head (.mk (t := 0) (.access rfl)) (haccess _ _) <| .head (.mk (t := 1) (.access rfl)) (haccess _ _) <|
    .head (.mk (t := 0) (.access rfl)) (haccess _ _) <| .head (.mk (t := 1) (.access rfl)) (haccess _ _) <|
    .head (.mk (t := 0) (.access rfl)) (haccess _ _) <| .head (.mk (t := 1) (.access rfl)) (haccess _ _) <|
    -- the exchange of the second fails, and it goes on to the next slot
    .head (.mk (t := 0) (.access rfl)) (haccess _ _) <| .head (.mk (t := 1) (.access rfl)) (haccess _ _) <|
    .head (.mk (t := 1) (.access rfl)) (haccess _ _) <| .head (.mk (t := 1) (.access rfl)) (haccess _ _) <|
    .head (.mk (t := 0) (.access rfl)) (haccess _ _) <| .head (.mk (t := 1) (.access rfl)) (haccess _ _) <| .refl _
  exact absurd htwice (by decide)

end Runs

end Shared

end Concurrent

end HashTable

end LockFreeStructures
