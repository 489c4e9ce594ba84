import LockFreeStructures.HashTable.SharedKey

/-!
# `HashTable.Agreement` — what the calls on one key report

In a spaced run a key is inserted once, however often it is promoted, and a slot of it that has no value yet is
about to get one from the thread that has claimed it, so that no other goes to it. So `GetOrAdd` adds the key
once, all reports are of that value as long as there is no `Set`, and no value is reported that was not stored.
-/

namespace LockFreeStructures

namespace HashTable

namespace Concurrent

open Memory

namespace Shared

variable {T K V : Type} {hash : K → ℕ} {w e : ℕ} {k : K} {m m' : Memory K V} {n i j : ℕ} {v : V} {o : Option V}
  {pc pc' : Pc V} {r : Memory K V × Pc V} {key : T → K} {S S' : Set V} {ls : T → Pc V} {t : T} {a : Act V}

/-- The slot that the thread has claimed has no value yet. -/
def Empty (m : Memory K V) (pc : Pc V) : Prop := ∀ n i, pc.pending = some (n, i) → (m.nodes n).second i = none

/-- No other thread has claimed the slot that thread `t` has claimed. -/
def Single (key : T → K) (k : K) (ls : T → Pc V) (t : T) (pc : Pc V) : Prop :=
  ∀ n i, pc.pending = some (n, i) → ∀ t', key t' = k → (ls t').pending = some (n, i) → t' = t

/-- The slots of the key, and the threads that claimed them. -/
structure Shape (hash : K → ℕ) (key : T → K) (k : K) (s : State T K V) : Prop where
  reached : s.memory.Reached hash k
  plain : ∀ t, key t = k → (s.threads t).Plain
  empty : ∀ t, key t = k → Empty s.memory (s.threads t)
  single : ∀ t, key t = k → Single key k s.threads t (s.threads t)
  carried : ∀ t, key t = k → ∀ n o, (s.threads t).carries = some (n, o) → o ≠ none
  claimed : ∀ n i, s.memory.Owns k n i → (s.memory.nodes n).second i = none →
    ∃ t, key t = k ∧ (s.threads t).pending = some (n, i)

/-- A lookup has the key still before it, and `InnerAdd` is not at work. -/
structure Seeks (k : K) (m : Memory K V) (pc : Pc V) : Prop where
  ahead : ∀ main cur, pc.searched = some (main, cur) → ∃ n ≤ cur, ∃ i, m.Owns k n i
  adding : pc.adding ≠ none → pc.pending ≠ none

/-- The thread has begun a call that may insert the key. -/
def Writing (pc : Pc V) : Prop := ∃ c, pc.underWay = some c ∧ c.mayAdd = true

/-- One thread at a time is on its way to insert the key, and none is any more when it is there. -/
structure Turns (key : T → K) (k : K) (s : State T K V) : Prop where
  seeks : ∀ t, key t = k → Writing (s.threads t) → s.memory.Lacks k ∨ Seeks k s.memory (s.threads t)
  one : s.memory.Lacks k → ∀ t t', key t = k → key t' = k → Writing (s.threads t) → Writing (s.threads t') → t' = t

/-- All values of the key are in `S`. -/
structure Held (key : T → K) (k : K) (S : Set V) (s : State T K V) : Prop where
  values : Values k S s.memory
  brings : ∀ t, key t = k → Brings S (s.threads t)

/-- What the thread is about to store is the first value of the key, its slot the only one. -/
def First (key : T → K) (k : K) (s : State T K V) (pc : Pc V) : Prop :=
  ∀ c v n i, pc = .store c v n i → Held key k ∅ s ∧ ∀ n' j, s.memory.Owns k n' j → n' = n ∧ j = i

/-- Until the first value of the key is stored there is none. -/
structure Fresh (key : T → K) (k : K) (s : State T K V) : Prop where
  lacking : s.memory.Lacks k → Held key k ∅ s
  storing : ∀ t, key t = k → First key k s (s.threads t)

/-- What is true in every spaced run. -/
structure Agreed (hash : K → ℕ) (e : ℕ) (key : T → K) (k : K) (s : State T K V) : Prop where
  inv : Inv hash e key s
  shape : Shape hash key k s
  turns : Turns key k s
  fresh : Fresh key k s
  once : addCount k s.memory ≤ 1

theorem pending_owns (h : pc.Knows hash k m) (hp : pc.pending = some (n, i)) : m.Owns k n i := by
  cases pc with
  | promoteStore c main i o =>
      cases hp
      exact h.1
  | store c v main i =>
      cases hp
      exact h
  | _ => exact absurd hp nofun

theorem idle_not_writing : ¬ Writing (Pc.idle : Pc V) := by
  rintro ⟨c, hc, -⟩
  cases hc

theorem writing_of_adding (hplain : pc.Plain) (hadd : pc.adding = some v) : Writing pc := by
  rcases hplain.2 v hadd with hcall | hcall
  · refine ⟨.set v, ?_, rfl⟩
    cases pc with
    | idle | load => cases hadd
    | _ => exact hcall
  · refine ⟨.getOrAdd v, ?_, rfl⟩
    cases pc with
    | idle | load => cases hadd
    | _ => exact hcall

/-- A call that goes on was loading `MainHash`, or had loaded it. -/
theorem Writing.cases (h : Writing pc') (hcall : pc'.call = pc.call) :
    Writing pc ∨ ∃ c, pc.loading = some c ∧ c.mayAdd = true := by
  obtain ⟨c, hc, hadd⟩ := h
  have hcall' : pc.call = some c := by
    cases pc' with
    | idle | load => cases hc
    | _ => exact hcall.symm.trans hc
  cases pc with
  | idle => cases hcall'
  | load c' =>
      cases hcall'
      exact .inr ⟨_, rfl, hadd⟩
  | _ => exact .inl ⟨c, hcall', hadd⟩

theorem Held.mono (h : Held key k S ⟨m, ls⟩) (hS : S ⊆ S') : Held key k S' ⟨m, ls⟩ :=
  ⟨h.values.mono hS, fun t ht n o hc => (h.brings t ht n o hc).imp fun _ hv => ⟨hS hv.1, hv.2⟩⟩

section Step

section Threads

variable [DecidableEq T]

/-- Thread `t` has stepped: what is true of the threads with the key. -/
theorem forall_update {P : T → Pc V → Prop} (hself : key t = k → P t pc') (hothers : ∀ t' ≠ t, key t' = k → P t' (ls t'))
    (t' : T) (ht' : key t' = k) : P t' (Function.update ls t pc' t') := by
  by_cases h : t' = t
  · subst h
    rw [Function.update_self]
    exact hself ht'
  · rw [Function.update_of_ne h]
    exact hothers t' h ht'

end Threads

variable [DecidableEq K]

/-- What a step of an orderly run is to the key: one of a thread that has the key, or of one that has another. -/
inductive Moves (hash : K → ℕ) (key : T → K) (k : K) (m : Memory K V) (pc : Pc V) (t : T) (r : Memory K V × Pc V) : Prop
  | own (hkey : key t = k) (h : Effect hash k m pc r)
  | other (hkey : key t ≠ k) (h : Leaves k m r.1)

omit [DecidableEq K] in
/-- In a spaced run a value that is read is there, and `InnerAdd` puts the key where no table has it. -/
theorem Spaced.tidy (hok : Spaced key k ⟨m, ls⟩ (t, .access)) (hinv : Inv hash e key ⟨m, ls⟩)
    (hshape : Shape hash key k ⟨m, ls⟩) (hturns : Turns key k ⟨m, ls⟩) (hkey : key t = k) : (ls t).Tidy k m := by
  have hknows : (ls t).Knows hash k m := hkey ▸ hinv.knows t
  -- a slot without a value belongs to another thread, which is about to store it
  have hvalue : ∀ n i, (ls t).uses = some (n, i) → (ls t).pending = none → m.Owns k n i →
      (m.nodes n).second i ≠ none := by
    intro n i huses hp ho hnone
    obtain ⟨t', hkey', hp'⟩ := hshape.claimed n i ho hnone
    have hne : t' ≠ t := by
      rintro rfl
      cases hp.symm.trans hp'
    exact hok.settled hkey rfl (n, i) huses t' hne hkey' hp'
  have hseeks : Writing (ls t) → m.Lacks k ∨ Seeks k m (ls t) := hturns.seeks t hkey
  have hplain : (ls t).Plain := hshape.plain t hkey
  generalize ls t = pc at hknows hvalue hseeks hplain ⊢
  cases pc with
  | readValue c main cur i =>
      by_cases heq : cur = main
      · exact .inl heq
      · exact .inr (hvalue cur i (if_neg heq) rfl hknows.2.2.1)
  | found c main i => exact hvalue main i rfl rfl hknows
  | exchange c v main d =>
      refine (hseeks (writing_of_adding hplain rfl)).resolve_right fun h => ?_
      exact h.adding (by rintro ⟨⟩) rfl
  | _ => trivial

theorem Spaced.moves (hok : Spaced key k ⟨m, ls⟩ (t, a)) (hinv : Inv hash e key ⟨m, ls⟩)
    (hshape : Shape hash key k ⟨m, ls⟩) (hturns : Turns key k ⟨m, ls⟩)
    (hs : ThreadStep hash w (key t) (m, ls t) a r) : Moves hash key k m (ls t) t r := by
  by_cases hkey : key t = k
  · have hknows := hinv.knows t
    have htidy : a = .access → (ls t).Tidy k m := by
      rintro rfl
      exact hok.tidy hinv hshape hturns hkey
    subst hkey
    exact .own rfl <| .of_step hknows hinv.chain hshape.reached (hshape.plain t rfl) (hok.plain rfl) htidy hs
  · exact .other hkey ((hinv.sound hs).leaves k fun h => hkey h.symm)

/-- While the key has no value, only the thread that has inserted it stores one. -/
theorem Held.stored (h : Held key k ∅ ⟨m, ls⟩) (heff : Effect hash k m (ls t) r) (hst : (ls t).stored = some v) :
    ∃ c n i, ls t = .store c v n i := by
  obtain ⟨n, i, ho, ⟨c, hpc⟩ | hsome⟩ := heff.stored hst
  · exact ⟨c, n, i, hpc⟩
  · obtain ⟨v', hv'⟩ := Option.ne_none_iff_exists'.mp hsome
    exact absurd (h.values.slots n i v' ho hv') id

variable [DecidableEq T]

theorem Shape.step (h : Shape hash key k ⟨m, ls⟩) (hinv : Inv hash e key ⟨m, ls⟩) (hg : Grows m r.1)
    (hm : Moves hash key k m (ls t) t r) : Shape hash key k ⟨r.1, Function.update ls t r.2⟩ := by
  have howns : ∀ t', key t' = k → ∀ n i, (ls t').pending = some (n, i) → m.Owns k n i := by
    rintro t' rfl n i hp
    exact pending_owns (hinv.knows t') hp
  cases hm with
  | own hkey heff =>
      -- a slot that the thread claims was free, so nobody else has claimed it
      have hfree : ∀ n i, r.2.pending = some (n, i) → ∀ t', key t' = k → (ls t').pending ≠ some (n, i) := by
        intro n i hp t' hkey' hp'
        exact absurd ((heff.pending hinv.blank hp).1.symm.trans (howns t' hkey' n i hp').2.2) nofun
      refine ⟨heff.reached h.reached hg, forall_update (fun _ => heff.plain (h.plain t hkey)) fun t' _ => h.plain t', ?_, ?_,
        forall_update (P := fun _ pc => ∀ n o, pc.carries = some (n, o) → o ≠ none) (fun _ => heff.carries (h.carried t hkey))
          fun t' _ => h.carried t', ?_⟩
      · refine forall_update (P := fun _ => Empty r.1) (fun _ n i hp => (heff.pending hinv.blank hp).2) ?_
        intro t' ht' hkey' n i hp
        refine heff.second_none (howns t' hkey' n i hp) (h.empty t' hkey' n i hp) fun hp' => ?_
        exact ht' (h.single t hkey n i hp' t' hkey' hp)
      · refine forall_update (P := Single key k (Function.update ls t r.2)) (fun _ n i hp t' hkey' hp' => ?_) ?_
        · by_contra ht'
          rw [Function.update_of_ne ht'] at hp'
          exact hfree n i hp t' hkey' hp'
        · intro t' ht' hkey' n i hp t'' hkey'' hp'
          by_cases ht'' : t'' = t
          · subst ht''
            rw [Function.update_self] at hp'
            exact absurd hp (hfree n i hp' t' hkey')
          · rw [Function.update_of_ne ht''] at hp'
            exact h.single t' hkey' n i hp t'' hkey'' hp'
      · intro n i ho hnone
        rcases heff.claimed (h.carried t hkey) ho hnone with hp | ⟨ho', hnone', hp⟩
        · refine ⟨t, hkey, ?_⟩
          show (Function.update ls t r.2 t).pending = _
          rwa [Function.update_self]
        · obtain ⟨t', hkey', hp'⟩ := h.claimed n i ho' hnone'
          have hne : t' ≠ t := by
            rintro rfl
            exact hp hp'
          refine ⟨t', hkey', ?_⟩
          show (Function.update ls t r.2 t').pending = _
          rwa [Function.update_of_ne hne]
  | other hkey hl =>
      refine ⟨hl.reached hg h.reached, forall_update (absurd · hkey) fun t' _ => h.plain t', ?_, ?_,
        forall_update (P := fun _ pc => ∀ n o, pc.carries = some (n, o) → o ≠ none) (absurd · hkey) fun t' _ => h.carried t', ?_⟩
      · refine forall_update (P := fun _ => Empty r.1) (absurd · hkey) fun t' _ hkey' n i hp => ?_
        exact (hl.second n i (howns t' hkey' n i hp)).trans (h.empty t' hkey' n i hp)
      · refine forall_update (P := Single key k (Function.update ls t r.2)) (absurd · hkey) fun t' _ hkey' n i hp t'' hkey'' hp' => ?_
        rw [Function.update_of_ne fun ht'' : t'' = t => hkey (ht'' ▸ hkey'')] at hp'
        exact h.single t' hkey' n i hp t'' hkey'' hp'
      · intro n i ho hnone
        have ho' := (hl.owns n i).mp ho
        obtain ⟨t', hkey', hp'⟩ := h.claimed n i ho' ((hl.second n i ho').symm.trans hnone)
        have hne : t' ≠ t := by
          rintro rfl
          exact hkey hkey'
        refine ⟨t', hkey', ?_⟩
        show (Function.update ls t r.2 t').pending = _
        rwa [Function.update_of_ne hne]

omit [DecidableEq T] in
/-- What a lookup has before it stays there, and one that begins has all tables before it. -/
theorem Effect.seeks (h : Effect hash k m pc r) (hown : ∀ n i, m.Owns k n i → n ≤ m.mainHash)
    (hseeks : Writing pc → m.Lacks k ∨ Seeks k m pc) (hplain : pc.Plain) (hwrites : Writing r.2) (hl : ¬ m.Lacks k) :
    Seeks k r.1 r.2 := by
  cases h with
  | call => obtain ⟨c, hc, -⟩ := hwrites; cases hc
  | throws => obtain ⟨c, hc, -⟩ := hwrites; cases hc
  | miss => obtain ⟨c, hc, -⟩ := hwrites; cases hc
  | report => obtain ⟨c, hc, -⟩ := hwrites; cases hc
  | overwrite => obtain ⟨c, hc, -⟩ := hwrites; cases hc
  | put => obtain ⟨c, hc, -⟩ := hwrites; cases hc
  | carry => exact ⟨by rintro _ _ ⟨⟩, fun h => absurd rfl h⟩
  | claim => exact ⟨by rintro _ _ ⟨⟩, fun h => absurd rfl h⟩
  | place => exact ⟨by rintro _ _ ⟨⟩, fun h => absurd rfl h⟩
  | insert hn hi hfree hl' => exact absurd hl' hl
  | @quiet pc pc' m' leaves call plain stored before pending carries searched adding =>
      have hseeks' : Writing pc → Seeks k m pc := fun hw => (hseeks hw).resolve_left hl
      have howns : ∀ n i, m.Owns k n i → m'.Owns k n i := fun n i ho => (leaves.owns n i).mpr ho
      refine ⟨fun main cur hs => ?_, fun hadd => ?_⟩
      · rcases searched main cur hs with ⟨-, rfl, rfl⟩ | ⟨cur₀, hs₀, -, hpass⟩
        · simp only [Memory.Lacks, not_forall, not_not] at hl
          obtain ⟨n, i, ho⟩ := hl
          exact ⟨n, hown n i ho, i, howns n i ho⟩
        · have hw : Writing pc := by
            refine (hwrites.cases call).resolve_right ?_
            rintro ⟨c, hc, -⟩
            cases pc with
            | load => cases hs₀
            | _ => cases hc
          obtain ⟨n, hn, i, ho⟩ := (hseeks' hw).ahead main cur₀ hs₀
          refine ⟨n, ?_, i, howns n i ho⟩
          by_contra hlt
          have := hpass n i ho (Nat.lt_of_not_le hlt)
          omega
      · obtain ⟨v, hv⟩ := Option.ne_none_iff_exists'.mp hadd
        rcases adding v hv with hadd₀ | ⟨main, cur, hs₀, hpass⟩
        · exact absurd before ((hseeks' (writing_of_adding hplain hadd₀)).adding (by rw [hadd₀]; rintro ⟨⟩))
        · have hw : Writing pc := by
            refine (hwrites.cases call).resolve_right ?_
            rintro ⟨c, hc, -⟩
            cases pc with
            | load => cases hs₀
            | _ => cases hc
          obtain ⟨n, hn, i, ho⟩ := (hseeks' hw).ahead main cur hs₀
          have := hpass n i ho
          omega

omit [DecidableEq T] in
/-- The key comes into the tables by `InnerAdd`, which is done then but for the value. -/
theorem Effect.inserts (h : Effect hash k m pc r) (hl : m.Lacks k) (ho : r.1.Owns k n i) :
    (∃ v, pc.adding = some v) ∧ Seeks k r.1 r.2 := by
  cases h with
  | quiet leaves => exact absurd ((leaves.owns n i).mp ho) (hl n i)
  | claim hn hi hfree hold =>
      obtain ⟨n', -, i', ho'⟩ := hold
      exact absurd ho' (hl n' i')
  | place => exact absurd ((owns_storeSecond ..).mp ho) (hl n i)
  | overwrite => exact absurd ((owns_storeSecond ..).mp ho) (hl n i)
  | put => exact absurd ((owns_storeSecond ..).mp ho) (hl n i)
  | @insert c v => exact ⟨⟨v, rfl⟩, by rintro _ _ ⟨⟩, fun _ => by rintro ⟨⟩⟩
  | _ => exact absurd ho (hl n i)

omit [DecidableEq T] in
/-- A thread that has begun to write had begun before, or has just loaded `MainHash`. -/
theorem Effect.writing (h : Effect hash k m pc r) (hwrites : Writing r.2) :
    Writing pc ∨ ∃ c, pc.loading = some c ∧ c.mayAdd = true := by
  rcases h.call_eq with ⟨-, c, hload⟩ | hnone | hsame
  · obtain ⟨c', hc', -⟩ := hwrites
    rw [hload] at hc'
    cases hc'
  · obtain ⟨c', hc', hadd⟩ := hwrites
    generalize r.2 = pc' at hnone hc'
    cases pc' with
    | idle | load => cases hc'
    | _ => cases hnone
  · exact hwrites.cases hsame

theorem Turns.step (h : Turns key k ⟨m, ls⟩) (hok : Spaced key k ⟨m, ls⟩ (t, a)) (hshape : Shape hash key k ⟨m, ls⟩)
    (hg : Grows m r.1) (haccess : ∀ c, (ls t).loading = some c → Writing r.2 → a = .access)
    (hm : Moves hash key k m (ls t) t r) : Turns key k ⟨r.1, Function.update ls t r.2⟩ := by
  have hlacks : r.1.Lacks k → m.Lacks k := fun hl n i ho => hl n i (hg.owns ho)
  cases hm with
  | own hkey heff =>
      refine ⟨forall_update (P := fun _ pc => Writing pc → r.1.Lacks k ∨ Seeks k r.1 pc) (fun _ hwrites => ?_)
        (fun t' ht' hkey' hwrites => ?_), fun hl t₁ t₂ hkey₁ hkey₂ h₁ h₂ => ?_⟩
      · by_cases hl : r.1.Lacks k
        · exact .inl hl
        · by_cases hl₀ : m.Lacks k
          · -- the step has put the key into the table
            simp only [Memory.Lacks, not_forall, not_not] at hl
            obtain ⟨n, i, ho⟩ := hl
            exact .inr (heff.inserts hl₀ ho).2
          · exact .inr (heff.seeks (fun _ _ ho => ho.1) (h.seeks t hkey) (hshape.plain t hkey) hwrites hl₀)
      · rcases h.seeks t' hkey' hwrites with hl | hseeks
        · by_cases hl' : r.1.Lacks k
          · exact .inl hl'
          · -- only one thread is on its way to insert the key
            simp only [Memory.Lacks, not_forall, not_not] at hl'
            obtain ⟨n, i, ho⟩ := hl'
            obtain ⟨⟨v, hv⟩, -⟩ := heff.inserts hl ho
            exact absurd (h.one hl t t' hkey hkey' (writing_of_adding (hshape.plain t hkey) hv) hwrites) ht'
        · refine .inr ⟨fun main cur hs => ?_, hseeks.adding⟩
          obtain ⟨n, hn, i, ho⟩ := hseeks.ahead main cur hs
          exact ⟨n, hn, i, hg.owns ho⟩
      · have hl₀ := hlacks hl
        -- a thread that has just loaded `MainHash` has not joined another that may insert the key
        have hjoin : ∀ t' ≠ t, key t' = k → Writing r.2 → Writing (ls t') → Writing (ls t) := by
          intro t' ht' hkey' hwrites hwrites'
          rcases heff.writing hwrites with hw | ⟨c, hc, hadd⟩
          · exact hw
          · obtain ⟨c', hc', hadd'⟩ := hwrites'
            obtain rfl := haccess c hc hwrites
            have hmay := hok.joins hkey rfl c hc t' ht' hkey' c' hc'
            exact absurd hl₀ (hmay.add (by rw [hadd, hadd']; rfl))
        simp only [Function.update_apply] at h₁ h₂
        by_cases ht₁ : t₁ = t
        · by_cases ht₂ : t₂ = t
          · exact ht₂.trans ht₁.symm
          · rw [if_pos ht₁] at h₁
            rw [if_neg ht₂] at h₂
            exact absurd (h.one hl₀ t t₂ hkey hkey₂ (hjoin t₂ ht₂ hkey₂ h₁ h₂) h₂) ht₂
        · by_cases ht₂ : t₂ = t
          · rw [if_neg ht₁] at h₁
            rw [if_pos ht₂] at h₂
            exact absurd (h.one hl₀ t t₁ hkey hkey₁ (hjoin t₁ ht₁ hkey₁ h₂ h₁) h₁) ht₁
          · rw [if_neg ht₁] at h₁
            rw [if_neg ht₂] at h₂
            exact h.one hl₀ t₁ t₂ hkey₁ hkey₂ h₁ h₂
  | other hkey hl =>
      have hlacks' : m.Lacks k → r.1.Lacks k := fun hl₀ n i ho => hl₀ n i ((hl.owns n i).mp ho)
      refine ⟨forall_update (P := fun _ pc => Writing pc → r.1.Lacks k ∨ Seeks k r.1 pc) (absurd · hkey)
        (fun t' _ hkey' hwrites => ?_), fun hl' t₁ t₂ hkey₁ hkey₂ h₁ h₂ => ?_⟩
      · rcases h.seeks t' hkey' hwrites with hl₀ | hseeks
        · exact .inl (hlacks' hl₀)
        · refine .inr ⟨fun main cur hs => ?_, hseeks.adding⟩
          obtain ⟨n, hn, i, ho⟩ := hseeks.ahead main cur hs
          exact ⟨n, hn, i, hg.owns ho⟩
      · have ht₁ : t₁ ≠ t := by
          rintro rfl
          exact hkey hkey₁
        have ht₂ : t₂ ≠ t := by
          rintro rfl
          exact hkey hkey₂
        simp only [Function.update_of_ne ht₁] at h₁
        simp only [Function.update_of_ne ht₂] at h₂
        exact h.one (hlacks hl') t₁ t₂ hkey₁ hkey₂ h₁ h₂

theorem Held.step (h : Held key k S ⟨m, ls⟩) (hb : Blank m) (hst : key t = k → ∀ v, (ls t).stored = some v → v ∈ S)
    (hm : Moves hash key k m (ls t) t r) : Held key k S ⟨r.1, Function.update ls t r.2⟩ := by
  cases hm with
  | own hkey heff =>
      obtain ⟨hv, hbr⟩ := heff.values hb h.values (h.brings t hkey) (hst hkey)
      exact ⟨hv, forall_update (fun _ => hbr) fun t' _ => h.brings t'⟩
  | other hkey hl => exact ⟨h.values.leaves hl, forall_update (absurd · hkey) fun t' _ => h.brings t'⟩

theorem Fresh.step (h : Fresh key k ⟨m, ls⟩) (hinv : Inv hash e key ⟨m, ls⟩) (hshape : Shape hash key k ⟨m, ls⟩)
    (hg : Grows m r.1) (hm : Moves hash key k m (ls t) t r) : Fresh key k ⟨r.1, Function.update ls t r.2⟩ := by
  have hlacks : r.1.Lacks k → m.Lacks k := fun hl n i ho => hl n i (hg.owns ho)
  have hkeep : Held key k ∅ ⟨m, ls⟩ → (key t = k → (ls t).stored = none) →
      Held key k ∅ ⟨r.1, Function.update ls t r.2⟩ := by
    intro hheld hst
    refine hheld.step hinv.blank (fun hkey v hv => ?_) hm
    rw [hst hkey] at hv
    exact absurd hv nofun
  refine ⟨fun hl => ?_, forall_update (P := fun _ => First key k ⟨r.1, Function.update ls t r.2⟩)
    (fun hkey c v n i hpc => ?_) fun t' ht' hkey' c v n i hpc => ?_⟩
  · have hheld := h.lacking (hlacks hl)
    refine hkeep hheld fun hkey => ?_
    cases hm with
    | own _ heff =>
        by_contra hne
        obtain ⟨v, hv⟩ := Option.ne_none_iff_exists'.mp hne
        obtain ⟨n, i, ho, -⟩ := heff.stored hv
        exact hl n i (hg.owns ho)
    | other hkey' _ => exact absurd hkey hkey'
  · cases hm with
    | own _ heff =>
        have heff' : Effect hash k m (ls t) (r.1, .store c v n i) := hpc ▸ heff
        obtain ⟨hl, hst, howns⟩ := heff'.store
        exact ⟨hkeep (h.lacking hl) fun _ => hst, howns⟩
    | other hkey' _ => exact absurd hkey hkey'
  · obtain ⟨hheld, howns⟩ := h.storing t' hkey' c v n i hpc
    have ho : m.Owns k n i := by
      subst hkey'
      exact pending_owns (hinv.knows t') (congrArg Pc.pending hpc)
    cases hm with
    | own hkey heff =>
        refine ⟨hkeep hheld fun _ => ?_, fun n' j ho' => ?_⟩
        · by_contra hne
          obtain ⟨v', hv'⟩ := Option.ne_none_iff_exists'.mp hne
          obtain ⟨c', n', i', hpc'⟩ := hheld.stored heff hv'
          -- two threads that have inserted the key have inserted it in the one slot it has
          have ho' : m.Owns k n' i' := by
            subst hkey
            exact pending_owns (hinv.knows t) (congrArg Pc.pending hpc')
          obtain ⟨rfl, rfl⟩ := howns n' i' ho'
          exact ht' (hshape.single t hkey _ _ (congrArg Pc.pending hpc') t' hkey' (congrArg Pc.pending hpc))
        · rcases heff.owns ho' with hold | hl | ⟨n'', o, hcar⟩
          · exact howns n' j hold
          · exact absurd ho (hl n i)
          · obtain ⟨v', hv', -⟩ := hheld.brings t hkey n'' o hcar
            exact absurd hv' id
    | other hkey hl =>
        exact ⟨hkeep hheld fun hkey'' => absurd hkey'' hkey, fun n' j ho' => howns n' j ((hl.owns n' j).mp ho')⟩

/-- **Step.** -/
theorem Agreed.step (h : Agreed hash e key k ⟨m, ls⟩) (hok : Spaced key k ⟨m, ls⟩ (t, a))
    (hs : ThreadStep hash w (key t) (m, ls t) a r) : Agreed hash e key k ⟨r.1, Function.update ls t r.2⟩ := by
  have hg := (h.inv.sound hs).grows
  have hm := hok.moves h.inv h.shape h.turns hs
  have haccess : ∀ c, (ls t).loading = some c → Writing r.2 → a = .access := by
    intro c hc _
    generalize ls t = pc at hc hs
    cases hs with
    | access => rfl
    | _ => cases hc
  refine ⟨h.inv.step hs, h.shape.step h.inv hg hm, h.turns.step hok h.shape hg haccess hm,
    h.fresh.step h.inv h.shape hg hm, ?_⟩
  cases hm with
  | own hkey heff =>
      rcases heff.addCount with hsame | ⟨⟨c, v, n, i, hpc⟩, hmore⟩
      · exact hsame.le.trans h.once
      · rw [hmore, (h.fresh.storing t hkey c v n i hpc).1.values.addCount]
  | other hkey hl =>
      simp only [addCount, hl.returns]
      exact h.once

end Step

theorem Agreed.start (hash : K → ℕ) (e : ℕ) (key : T → K) (k : K) : Agreed hash e key k (start T e : State T K V) :=
  ⟨.start hash e key, ⟨fun _ _ h => absurd h.2.2 nofun, fun _ _ => ⟨nofun, nofun⟩, fun _ _ _ _ => nofun,
      fun _ _ _ _ => nofun, fun _ _ _ _ => nofun, fun _ _ h => absurd h.2.2 nofun⟩,
    ⟨fun _ _ hw => absurd hw idle_not_writing, fun _ _ _ _ _ hw => absurd hw idle_not_writing⟩,
    ⟨fun _ => ⟨⟨fun _ _ _ h => absurd h.2.2 nofun, nofun⟩, fun _ _ _ _ => nofun⟩, fun _ _ _ _ _ _ => nofun⟩,
    Nat.zero_le 1⟩

/-! ## Runs -/

/-- What the threads with the key store is in `S`. -/
def Stores (key : T → K) (k : K) (S : Set V) (s : State T K V) (a : T × Act V) : Prop :=
  key a.1 = k → a.2 = .access → ∀ v, (s.threads a.1).stored = some v → v ∈ S

/-- No `Set` of the key is called. -/
def NoSet (key : T → K) (k : K) (_ : State T K V) (a : T × Act V) : Prop := key a.1 = k → ∀ v, a.2 ≠ .call (.set v)

theorem stored_cases (h : pc.stored = some v) : (∃ c n i, pc = .store c v n i) ∨ pc.call = some (.set v) := by
  match pc with
  | .found (.set _) main i =>
      cases h
      exact .inr rfl
  | .store c _ main i =>
      cases h
      exact .inl ⟨c, main, i, rfl⟩

variable [DecidableEq K]

theorem call_of_step (hs : ThreadStep hash w k (m, pc) a r) (heff : Effect hash k m pc r) :
    r.2.call = none ∨ r.2.call = pc.call ∨ ∃ c, a = .call c ∧ r.2.call = some c := by
  cases hs with
  | call c => exact .inr (.inr ⟨c, rfl, rfl⟩)
  | access hacc =>
      rcases heff.call_eq with ⟨rfl, -⟩ | hnone | hsame
      · exact absurd hacc nofun
      · exact .inl hnone
      · exact .inr (.inl hsame)
  | throws => exact .inl rfl

theorem Stores.step (hst : Stores key k S ⟨m, ls⟩ (t, a)) (hs : ThreadStep hash w (key t) (m, ls t) a r) (hkey : key t = k)
    (v : V) (hv : (ls t).stored = some v) : v ∈ S := by
  have haccess : a = .access := by
    generalize ls t = pc at hs hv
    cases hs with
    | access => rfl
    | _ => exact absurd hv nofun
  exact hst hkey haccess v hv

variable [DecidableEq T] {s : State T K V}

theorem Agreed.run (h : Reaches (Step hash w key) (Spaced key k) (Shared.start T e) s) : Agreed hash e key k s := by
  refine h.invariant (.start hash e key k) ?_
  rintro s a s' hagreed hok ⟨hs⟩
  exact hagreed.step hok hs

theorem Held.run (h : Reaches (Step hash w key) (fun s a => Spaced key k s a ∧ Stores key k S s a) (Shared.start T e) s) :
    Held key k S s := by
  refine (h.invariant (I := fun s => Agreed hash e key k s ∧ Held key k S s) ⟨.start hash e key k, ?_⟩ ?_).2
  · exact ⟨⟨fun _ _ _ h => absurd h.2.2 nofun, nofun⟩, fun _ _ _ _ => nofun⟩
  · rintro s a s' ⟨hagreed, hheld⟩ ⟨hok, hst⟩ ⟨hs⟩
    exact ⟨hagreed.step hok hs, hheld.step hagreed.inv.blank (hst.step hs) (hok.moves hagreed.inv hagreed.shape hagreed.turns hs)⟩

/-- There is no call of `Set`, and one value at most. -/
structure Uniform (key : T → K) (k : K) (s : State T K V) : Prop where
  calls : ∀ t, key t = k → ∀ v, (s.threads t).call ≠ some (.set v)
  held : ∃ S : Set V, S.Subsingleton ∧ Held key k S s

theorem Uniform.step (h : Uniform key k ⟨m, ls⟩) (hagreed : Agreed hash e key k ⟨m, ls⟩)
    (hok : Spaced key k ⟨m, ls⟩ (t, a)) (hno : NoSet key k ⟨m, ls⟩ (t, a))
    (hs : ThreadStep hash w (key t) (m, ls t) a r) : Uniform key k ⟨r.1, Function.update ls t r.2⟩ := by
  have hm := hok.moves hagreed.inv hagreed.shape hagreed.turns hs
  refine ⟨forall_update (P := fun _ pc => ∀ v, pc.call ≠ some (.set v)) (fun hkey v hcall => ?_) fun t' _ => h.calls t', ?_⟩
  · cases hm with
    | own _ heff =>
        subst hkey
        rcases call_of_step hs heff with hnone | hsame | ⟨c, hc, hcall'⟩
        · exact absurd (hnone.symm.trans hcall) nofun
        · exact h.calls t rfl v (hsame.symm.trans hcall)
        · cases hcall'.symm.trans hcall
          exact hno rfl v hc
    | other hkey' _ => exact hkey' hkey
  · by_cases hstored : key t = k ∧ ∃ v, (ls t).stored = some v
    · -- the first value of the key: there was none before
      obtain ⟨hkey, v, hv⟩ := hstored
      rcases stored_cases hv with ⟨c, n, i, hpc⟩ | hset
      · have hheld := (hagreed.fresh.storing t hkey c v n i hpc).1.mono (Set.empty_subset {v})
        refine ⟨{v}, Set.subsingleton_singleton, hheld.step hagreed.inv.blank (fun _ v' hv' => ?_) hm⟩
        exact (Option.some.inj (hv.symm.trans hv')).symm
      · exact absurd hset (h.calls t hkey v)
    · obtain ⟨S, hS, hheld⟩ := h.held
      exact ⟨S, hS, hheld.step hagreed.inv.blank (fun hkey v hv => absurd ⟨hkey, v, hv⟩ hstored) hm⟩

theorem Uniform.run (h : Reaches (Step hash w key) (fun s a => Spaced key k s a ∧ NoSet key k s a) (Shared.start T e) s) :
    Uniform key k s := by
  refine (h.invariant (I := fun s => Agreed hash e key k s ∧ Uniform key k s) ⟨.start hash e key k, ?_⟩ ?_).2
  · exact ⟨fun _ _ _ => nofun, ∅, Set.subsingleton_empty, (Agreed.start hash e key k).fresh.lacking
      fun _ _ ho => absurd ho.2.2 nofun⟩
  · rintro s a s' ⟨hagreed, hset⟩ ⟨hok, hno⟩ ⟨hs⟩
    exact ⟨hagreed.step hok hs, hset.step hagreed hok hno hs⟩

end Shared

end Concurrent

end HashTable

end LockFreeStructures
