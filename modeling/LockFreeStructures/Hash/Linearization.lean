import Mathlib.Data.Finset.Card
import LockFreeStructures.Hash.Defs
import LockFreeStructures.Lib.Probing

/-!
# `Hash.Linearization` — every call of the sample maps takes effect when it returns

A key that is in the table is in one slot, and all that its loop looks at before holds other keys for good. So a loop that
meets a free slot, or comes to its end, knows at that moment that its key is nowhere, and the access with which a call
returns is the one at which it takes effect.
-/

namespace LockFreeStructures

namespace Samples

variable {T K V : Type} [Zero K] [Zero V] [DecidableEq K] {table : Table K} {m m' : Memory T K V} {t : T} {k : K} {v : V}
  {i j s : ℕ} {c : Call K V} {r : Result V} {f : K → V}

/-! ## The invariant -/

section Invariant

/-- The first `i` rounds of the loop for `k` meet other keys. -/
def Passed (table : Table K) (m : Memory T K V) (k : K) (i : ℕ) : Prop :=
  ∀ j < i, ∃ s, table.path k j = some s ∧ m.key s ≠ 0 ∧ m.key s ≠ k

/-- Keys stay where they are. -/
def KeepsKeys (m m' : Memory T K V) : Prop := ∀ s, m.key s ≠ 0 → m'.key s = m.key s

/-- The table holds the map `f`. -/
structure Holds (m : Memory T K V) (f : K → V) : Prop where
  held : ∀ s, m.key s ≠ 0 → f (m.key s) = m.value s
  absent : ∀ k, k ≠ 0 → (∀ s, m.key s ≠ k) → f k = 0

structure Inv (table : Table K) (m : Memory T K V) : Prop where
  placed : ∀ s, m.key s ≠ 0 → ∃ i, table.path (m.key s) i = some s ∧ Passed table m (m.key s) i
  empty : ∀ s, m.key s = 0 → m.value s = 0
  called : ∀ s, m.key s ≠ 0 → Called m.log (m.key s)
  replays : ∃ f, Replays m.log f ∧ Holds m f
  drops : DropsWhenFull table.size m.log

/-- What a thread knows. -/
def Pc.At (table : Table K) (m : Memory T K V) : Pc K V → Prop
  | .idle => True
  | .setLoad k _ i => k ≠ 0 ∧ Called m.log k ∧ Passed table m k i
  | .setExchange k _ i s => k ≠ 0 ∧ Called m.log k ∧ Passed table m k i ∧ table.path k i = some s
  | .setStore k _ s => k ≠ 0 ∧ m.key s = k
  | .getLoad k i => k ≠ 0 ∧ Passed table m k i
  | .getValue k s => k ≠ 0 ∧ m.key s = k

end Invariant

omit [Zero V] [DecidableEq K] in
theorem Passed.mono (h : Passed table m k i) (hkeys : KeepsKeys m m') : Passed table m' k i := by
  intro j hj
  obtain ⟨s, hs, hzero, hne⟩ := h j hj
  refine ⟨s, hs, ?_, ?_⟩
  · rwa [hkeys s hzero]
  · rwa [hkeys s hzero]

omit [Zero V] [DecidableEq K] in
/-- One more round that meets another key. -/
theorem Passed.succ (h : Passed table m k i) (hs : table.path k i = some s) (hzero : m.key s ≠ 0) (hne : m.key s ≠ k) :
    Passed table m k (i + 1) := by
  intro j hj
  rcases Nat.lt_succ_iff_lt_or_eq.mp hj with hlt | rfl
  · exact h j hlt
  · exact ⟨s, hs, hzero, hne⟩

namespace Inv

/-- A loop that meets a free slot, or ends, has a key that is nowhere. -/
theorem absent (h : Inv table m) (hpassed : Passed table m k i)
    (hstop : ∀ s, table.path k i = some s → m.key s = 0) (hk : k ≠ 0) : ∀ s, m.key s ≠ k := by
  rintro s rfl
  obtain ⟨j, hj, hbefore⟩ := h.placed s hk
  rcases Nat.lt_trichotomy i j with hlt | rfl | hgt
  · obtain ⟨s', hs', hzero, -⟩ := hbefore i hlt
    exact hzero (hstop s' hs')
  · exact hk (hstop s hj)
  · obtain ⟨s', hs', -, hne⟩ := hpassed j hgt
    rw [hj] at hs'
    cases hs'
    exact hne rfl

/-- No key is in two slots. -/
theorem unique (h : Inv table m) {s' : ℕ} (hk : m.key s ≠ 0) (heq : m.key s' = m.key s) : s' = s := by
  obtain ⟨i, hi, hbefore⟩ := h.placed s hk
  obtain ⟨j, hj, hbefore'⟩ := h.placed s' (heq ▸ hk)
  rw [heq] at hj hbefore'
  rcases Nat.lt_trichotomy i j with hlt | rfl | hgt
  · obtain ⟨s'', hs'', -, hne⟩ := hbefore' i hlt
    rw [hi] at hs''
    cases hs''
    exact absurd rfl hne
  · rw [hi] at hj
    cases hj
    rfl
  · obtain ⟨s'', hs'', -, hne⟩ := hbefore j hgt
    rw [hj] at hs''
    cases hs''
    exact absurd heq hne

/-- The slots of a full table have as many keys as there are slots. -/
theorem full (h : Inv table m) (hfull : ∀ s < table.size, m.key s ≠ 0 ∧ m.key s ≠ k) :
    ∃ keys : Finset K, keys.card = table.size ∧ k ∉ keys ∧ ∀ k' ∈ keys, Called m.log k' := by
  refine ⟨(Finset.range table.size).image m.key, ?_, fun hmem => ?_, fun k' hmem => ?_⟩
  · rw [Finset.card_image_of_injOn, Finset.card_range]
    intro s hs s' _ heq
    exact (h.unique (hfull s (Finset.mem_range.mp hs)).1 heq.symm).symm
  · obtain ⟨s, hs, heq⟩ := Finset.mem_image.mp hmem
    exact (hfull s (Finset.mem_range.mp hs)).2 heq
  · obtain ⟨s, hs, rfl⟩ := Finset.mem_image.mp hmem
    exact h.called s (hfull s (Finset.mem_range.mp hs)).1

end Inv

/-! ## The log -/

section Log

variable {l : List (Event T K V)} {e : Event T K V}

omit [Zero K] [Zero V] [DecidableEq K] in
theorem Called.cons (h : Called l k) (e : Event T K V) : Called (e :: l) k := by
  obtain ⟨t, v, hmem⟩ := h
  exact ⟨t, v, List.mem_cons_of_mem e hmem⟩

omit [Zero K] [Zero V] [DecidableEq K] in
/-- What is recorded is no dropped item, or the table is full. -/
theorem DropsWhenFull.cons {size : ℕ} (h : DropsWhenFull size l)
    (he : ∀ t k v, e = .returned t (.setItem k v) .dropped →
      ∃ keys : Finset K, keys.card = size ∧ k ∉ keys ∧ ∀ k' ∈ keys, Called l k') : DropsWhenFull size (e :: l) := by
  intro l₁ l₂ t k v heq
  cases l₁ with
  | nil =>
      obtain ⟨rfl, rfl⟩ := List.cons.inj heq
      exact he t k v rfl
  | cons e' l₁ =>
      obtain ⟨-, rfl⟩ := List.cons.inj heq
      exact h l₁ l₂ t k v rfl

end Log

namespace Inv

/-- An event that changes no slot. -/
theorem record (h : Inv table m) {e : Event T K V} (hreplays : ∃ f, Replays (e :: m.log) f ∧ Holds m f)
    (hdrops : DropsWhenFull table.size (e :: m.log)) : Inv table (m.record e) := by
  obtain ⟨f, hf, hholds⟩ := hreplays
  exact ⟨h.placed, h.empty, fun s hs => (h.called s hs).cons e, ⟨f, hf, hholds.held, hholds.absent⟩, hdrops⟩

theorem call (h : Inv table m) (t : T) (c : Call K V) : Inv table (m.record (.call t c)) := by
  obtain ⟨f, hf, hholds⟩ := h.replays
  exact h.record ⟨f, .call hf, hholds⟩ (h.drops.cons (by rintro t k v ⟨⟩))

/-- `GetItem` returns what the map has. -/
theorem got (h : Inv table m) (hv : ∀ f, Holds m f → f k = v) : Inv table (m.record (.returned t (.getItem k) (.got v))) := by
  obtain ⟨f, hf, hholds⟩ := h.replays
  refine h.record ⟨f, .returned hf ?_, hholds⟩ (h.drops.cons (by rintro t k v ⟨⟩))
  rw [← hv f hholds]
  exact .got

/-- `SetItem` comes to the end of the table. -/
theorem dropped (h : Inv table m) (hpassed : Passed table m k i) (hend : table.path k i = none) :
    Inv table (m.record (.returned t (.setItem k v) .dropped)) := by
  obtain ⟨f, hf, hholds⟩ := h.replays
  refine h.record ⟨f, .returned hf .dropped, hholds⟩ (h.drops.cons ?_)
  rintro _ _ _ ⟨⟩
  refine h.full fun s hs => ?_
  obtain ⟨j, hj, hslot⟩ := table.covers hend hs
  obtain ⟨s', hs', hzero, hne⟩ := hpassed j hj
  rw [hslot] at hs'
  cases hs'
  exact ⟨hzero, hne⟩

/-- A successful exchange. The item is still `0`, as it is for a key that is nowhere. -/
theorem setKey (h : Inv table m) (hk : k ≠ 0) (hcalled : Called m.log k) (hpassed : Passed table m k i)
    (hs : table.path k i = some s) (hfree : m.key s = 0) : Inv table (m.setKey s k) ∧ KeepsKeys m (m.setKey s k) := by
  have hself : (m.setKey s k).key s = k := Function.update_self ..
  have hother : ∀ {s'}, s' ≠ s → (m.setKey s k).key s' = m.key s' := fun hne => Function.update_of_ne hne ..
  have hkeeps : KeepsKeys m (m.setKey s k) := by
    intro s' hs'
    exact hother (by rintro rfl; exact hs' hfree)
  have habsent : ∀ s', m.key s' ≠ k := h.absent hpassed (fun s' hs' => by rw [hs] at hs'; cases hs'; exact hfree) hk
  refine ⟨⟨fun s' hs' => ?_, fun s' hs' => ?_, fun s' hs' => ?_, ?_, h.drops⟩, hkeeps⟩
  · by_cases heq : s' = s
    · subst heq
      rw [hself]
      exact ⟨i, hs, hpassed.mono hkeeps⟩
    · rw [hother heq] at hs' ⊢
      obtain ⟨j, hj, hbefore⟩ := h.placed s' hs'
      exact ⟨j, hj, hbefore.mono hkeeps⟩
  · by_cases heq : s' = s
    · subst heq
      exact absurd (hself.symm.trans hs') hk
    · exact h.empty s' ((hother heq).symm.trans hs')
  · by_cases heq : s' = s
    · subst heq
      rw [hself]
      exact hcalled
    · rw [hother heq] at hs' ⊢
      exact h.called s' hs'
  · obtain ⟨f, hf, hholds⟩ := h.replays
    refine ⟨f, hf, fun s' hs' => ?_, fun k' hk' hnone => ?_⟩
    · by_cases heq : s' = s
      · subst heq
        rw [hself, hholds.absent k hk habsent]
        exact (h.empty s' hfree).symm
      · rw [hother heq] at hs' ⊢
        exact hholds.held s' hs'
    · refine hholds.absent k' hk' fun s' heq => ?_
      by_cases hs' : s' = s
      · subst hs'
        exact hk' (heq.symm.trans hfree)
      · exact hnone s' ((hother hs').trans heq)

/-- The store of an item. -/
theorem stored (h : Inv table m) (hk : k ≠ 0) (hs : m.key s = k) :
    Inv table ((m.setValue s v).record (.returned t (.setItem k v) .stored)) := by
  obtain ⟨f, hf, hholds⟩ := h.replays
  refine ⟨h.placed, fun s' hs' => ?_, fun s' hs' => (h.called s' hs').cons _, ⟨_, .returned hf .stored, ?_, ?_⟩,
    h.drops.cons (by rintro t k v ⟨⟩)⟩
  · have hne : s' ≠ s := by
      rintro rfl
      exact hk (hs.symm.trans hs')
    exact (Function.update_of_ne hne ..).trans (h.empty s' hs')
  · intro s' hs'
    by_cases heq : s' = s
    · subst heq
      show Function.update f k v (m.key s') = Function.update m.value s' v s'
      rw [hs, Function.update_self, Function.update_self]
    · have hne : m.key s' ≠ k := fun hkey => heq (h.unique (hs ▸ hk) (hkey.trans hs.symm))
      show Function.update f k v (m.key s') = Function.update m.value s v s'
      rw [Function.update_of_ne hne, Function.update_of_ne heq]
      exact hholds.held s' hs'
  · intro k' hk' hnone
    have hne : k' ≠ k := by
      rintro rfl
      exact hnone s hs
    rw [Function.update_of_ne hne]
    exact hholds.absent k' hk' hnone

end Inv

/-! ## One step -/

/-- What the others do to what a thread knows. -/
structure Rely (m m' : Memory T K V) : Prop where
  keys : KeepsKeys m m'
  log : ∀ k, Called m.log k → Called m'.log k

omit [Zero V] [DecidableEq K] in
theorem Pc.At.stable {pc : Pc K V} (h : pc.At table m) (hrely : Rely m m') : pc.At table m' := by
  cases pc with
  | idle => trivial
  | setLoad k v i => exact ⟨h.1, hrely.log k h.2.1, h.2.2.mono hrely.keys⟩
  | setExchange k v i s => exact ⟨h.1, hrely.log k h.2.1, h.2.2.1.mono hrely.keys, h.2.2.2⟩
  | setStore k v s => exact ⟨h.1, (hrely.keys s (h.2 ▸ h.1)).trans h.2⟩
  | getLoad k i => exact ⟨h.1, h.2.mono hrely.keys⟩
  | getValue k s => exact ⟨h.1, (hrely.keys s (h.2 ▸ h.1)).trans h.2⟩

omit [DecidableEq K] [Zero V] in
theorem Rely.refl (m : Memory T K V) : Rely m m := ⟨fun _ _ => rfl, fun _ h => h⟩

omit [DecidableEq K] [Zero V] in
theorem Rely.record (e : Event T K V) (m : Memory T K V) : Rely m (m.record e) := ⟨fun _ _ => rfl, fun _ h => h.cons e⟩

/-- **Step.** An access keeps the invariant, and its thread goes on knowing what it needs. -/
theorem Inv.access (h : Inv table m) {pc : Pc K V} (hat : pc.At table m) {r : Memory T K V × Pc K V}
    (hr : access table t m pc = some r) : Inv table r.1 ∧ r.2.At table r.1 ∧ Rely m r.1 := by
  cases pc with
  | idle => cases hr
  | setLoad k v i =>
      obtain ⟨hk, hcalled, hpassed⟩ := hat
      unfold Samples.access at hr
      dsimp only at hr
      split at hr
      · rename_i hend
        cases hr
        exact ⟨h.dropped hpassed hend, trivial, .record ..⟩
      · rename_i s hs
        split at hr
        · rename_i hkey
          cases hr
          exact ⟨h, ⟨hk, hkey⟩, .refl m⟩
        · rename_i hne
          split at hr
          · cases hr
            exact ⟨h, ⟨hk, hcalled, hpassed, hs⟩, .refl m⟩
          · rename_i hzero
            cases hr
            exact ⟨h, ⟨hk, hcalled, hpassed.succ hs hzero hne⟩, .refl m⟩
  | setExchange k v i s =>
      obtain ⟨hk, hcalled, hpassed, hs⟩ := hat
      unfold Samples.access at hr
      dsimp only at hr
      split at hr
      · rename_i hfree
        cases hr
        obtain ⟨hinv, hkeeps⟩ := h.setKey hk hcalled hpassed hs hfree
        exact ⟨hinv, ⟨hk, Function.update_self ..⟩, hkeeps, fun _ h => h⟩
      · rename_i hzero
        -- another thread has taken the slot, perhaps for the same key
        split at hr
        · rename_i hkey
          cases hr
          exact ⟨h, ⟨hk, hkey⟩, .refl m⟩
        · rename_i hne
          cases hr
          exact ⟨h, ⟨hk, hcalled, hpassed.succ hs hzero hne⟩, .refl m⟩
  | setStore k v s =>
      obtain ⟨hk, hs⟩ := hat
      cases hr
      exact ⟨h.stored hk hs, trivial, fun _ _ => rfl, fun _ h => h.cons _⟩
  | getLoad k i =>
      obtain ⟨hk, hpassed⟩ := hat
      unfold Samples.access at hr
      dsimp only at hr
      split at hr
      · rename_i hend
        cases hr
        refine ⟨h.got fun f hf => hf.absent k hk (h.absent hpassed ?_ hk), trivial, .record ..⟩
        intro s hs
        rw [hend] at hs
        cases hs
      · rename_i s hs
        split at hr
        · rename_i hkey
          cases hr
          exact ⟨h, ⟨hk, hkey⟩, .refl m⟩
        · rename_i hne
          split at hr
          · rename_i hfree
            cases hr
            refine ⟨h.got fun f hf => hf.absent k hk (h.absent hpassed ?_ hk), trivial, .record ..⟩
            intro s' hs'
            rw [hs] at hs'
            cases hs'
            exact hfree
          · rename_i hzero
            cases hr
            exact ⟨h, ⟨hk, hpassed.succ hs hzero hne⟩, .refl m⟩
  | getValue k s =>
      obtain ⟨hk, hs⟩ := hat
      cases hr
      refine ⟨h.got fun f hf => ?_, trivial, .record ..⟩
      rw [← hs]
      exact hf.held s (hs ▸ hk)

/-- An access goes on with the call of its thread, or returns from it. -/
theorem log_of_access {pc : Pc K V} {r : Memory T K V × Pc K V} (hr : access table t m pc = some r) :
    r.1.log = m.log ∧ r.2.call = pc.call ∨
      ∃ c q, pc.call = some c ∧ r.2.call = none ∧ r.1.log = .returned t c q :: m.log := by
  cases pc with
  | idle => cases hr
  | setLoad k v i =>
      unfold Samples.access at hr
      dsimp only at hr
      split at hr
      · cases hr
        exact .inr ⟨_, _, rfl, rfl, rfl⟩
      · split at hr
        · cases hr
          exact .inl ⟨rfl, rfl⟩
        · split at hr <;> (cases hr; exact .inl ⟨rfl, rfl⟩)
  | setExchange k v i s =>
      unfold Samples.access at hr
      dsimp only at hr
      split at hr
      · cases hr
        exact .inl ⟨rfl, rfl⟩
      · split at hr <;> (cases hr; exact .inl ⟨rfl, rfl⟩)
  | setStore k v s | getValue k s =>
      cases hr
      exact .inr ⟨_, _, rfl, rfl, rfl⟩
  | getLoad k i =>
      unfold Samples.access at hr
      dsimp only at hr
      split at hr
      · cases hr
        exact .inr ⟨_, _, rfl, rfl, rfl⟩
      · split at hr
        · cases hr
          exact .inl ⟨rfl, rfl⟩
        · split at hr
          · cases hr
            exact .inr ⟨_, _, rfl, rfl, rfl⟩
          · cases hr
            exact .inl ⟨rfl, rfl⟩

/-! ## Every run -/

section Runs

omit [DecidableEq K] in
/-- A call begins with everything before its loop. -/
theorem Call.at_enter (hc : c.Asserts) (t : T) : c.enter.At table (m.record (.call t c)) := by
  have hnone : ∀ k, Passed table (m.record (.call t c)) k 0 := fun k j hj => absurd hj (Nat.not_lt_zero j)
  cases c with
  | setItem k v => exact ⟨hc.1, ⟨t, v, List.mem_cons_self⟩, hnone k⟩
  | getItem k => exact ⟨hc, hnone k⟩

omit [Zero K] [Zero V] [DecidableEq K] in
theorem Call.call_enter (c : Call K V) : c.enter.call = some c := by cases c <;> rfl

/-- The thread that took the step was not `t`. -/
def LogsOthers (t : T) (m m' : Memory T K V) : Prop :=
  m'.log = m.log ∨ ∃ e, e.thread ≠ t ∧ m'.log = e :: m.log

theorem relyGuarantee :
    Interleaving.RelyGuarantee (ThreadStep (T := T) (V := V) table) (fun _ _ => True) (Inv table)
      (fun t m pc => pc.At table m ∧ InTurn t m.log pc.call) (fun t m m' => Rely m m' ∧ LogsOthers t m m') where
  own := by
    rintro s t a m' pc' - hinv ⟨hat, hturn⟩ hs
    generalize s.threads t = pc at hat hturn hs
    cases hs with
    | @call m c hc =>
        refine ⟨hinv.call t c, Call.at_enter hc t, ?_⟩
        rw [c.call_enter]
        exact .call hturn
    | access hr =>
        obtain ⟨hinv', hat', -⟩ := hinv.access hat hr
        refine ⟨hinv', hat', ?_⟩
        obtain ⟨hlog, hcall⟩ | ⟨c, q, hcall, hidle, hlog⟩ := log_of_access hr
        · rw [hlog, hcall]
          exact hturn
        · rw [hlog, hidle]
          exact .returned (hcall ▸ hturn)
  guarantee := by
    rintro s t t' a m' pc' - hinv ⟨hat, -⟩ hs ht
    generalize s.threads t = pc at hat hs
    cases hs with
    | @call m c hc => exact ⟨.record .., .inr ⟨.call t c, ht.symm, rfl⟩⟩
    | access hr =>
        refine ⟨(hinv.access hat hr).2.2, ?_⟩
        obtain ⟨hlog, -⟩ | ⟨c, q, -, -, hlog⟩ := log_of_access hr
        · exact .inl hlog
        · exact .inr ⟨.returned t c q, ht.symm, hlog⟩
  stable := by
    rintro t m m' pc hinv ⟨hat, hturn⟩ ⟨hrely, hlog⟩
    refine ⟨hat.stable hrely, ?_⟩
    obtain hlog | ⟨e, he, hlog⟩ := hlog
    · rw [hlog]
      exact hturn
    · rw [hlog]
      exact .other he hturn

theorem Inv.start : Inv table (start : State T K V).memory where
  placed _ hs := absurd rfl hs
  empty _ _ := rfl
  called _ hs := absurd rfl hs
  replays := ⟨_, .nil, fun _ hs => absurd rfl hs, fun _ _ _ => rfl⟩
  drops l₁ l₂ t k v heq := by
    cases l₁ <;> cases heq

/-- **Run.** However the accesses of the threads take turns, the calls that have returned are a run of the map in the
    order they returned in, and an item is dropped only by a table full of other keys. -/
theorem linearized [DecidableEq T] {s : State T K V} (h : Reaches (Step table) (fun _ _ => True) start s) :
    Linearized table.size s := by
  obtain ⟨hinv, hown⟩ := relyGuarantee.invariant h Inv.start fun t => ⟨trivial, .nil⟩
  obtain ⟨f, hf, -⟩ := hinv.replays
  exact ⟨⟨f, hf⟩, fun t => (hown t).2, hinv.drops⟩

theorem linearized_full : ∃ s : State Bool ℕ ℕ, Linearized 1 s ∧
    s.memory.log.head? = some (.returned false (.setItem 2 6) .dropped) := by
  have hcall : Reaches (Step (linearSearchMap ℕ 1)) (fun _ _ => True) (start : State Bool ℕ ℕ) _ :=
    .head (a := (true, .call (.setItem 1 5))) (.of_eq rfl (.call ⟨by decide, by decide⟩)) trivial (.refl _)
  have hload := hcall.tail ⟨(true, .access), trivial, .of_eq rfl (.access rfl)⟩
  have hexchange := hload.tail ⟨(true, .access), trivial, .of_eq rfl (.access rfl)⟩
  have hcall' := hexchange.tail ⟨(false, .call (.setItem 2 6)), trivial, .of_eq rfl (.call ⟨by decide, by decide⟩)⟩
  have hother := hcall'.tail ⟨(false, .access), trivial, .of_eq rfl (.access rfl)⟩
  have hstore := hother.tail ⟨(true, .access), trivial, .of_eq rfl (.access rfl)⟩
  have hend := hstore.tail ⟨(false, .access), trivial, .of_eq rfl (.access rfl)⟩
  exact ⟨_, linearized hend, rfl⟩

end Runs

/-! ## Calls that run alone -/

section Alone

/-- Thread `t` makes one access after another until its call returns. -/
def runAlone (table : Table K) (t : T) : ℕ → Memory T K V → Pc K V → Option (Memory T K V)
  | _, m, .idle => some m
  | 0, _, _ => none
  | fuel + 1, m, pc => (access table t m pc).bind fun r => runAlone table t fuel r.1 r.2

def Returns (table : Table K) (t : T) (m : Memory T K V) (pc : Pc K V) : Prop :=
  ∃ fuel m', runAlone table t fuel m pc = some m'

/-- Round `i` of the loop. -/
def Call.loop : Call K V → ℕ → Pc K V
  | setItem k v, i => .setLoad k v i
  | getItem k, i => .getLoad k i

/-- Round `i` is the last one: the slot is free or has the key, or there is none. -/
def Stops (table : Table K) (m : Memory T K V) (k : K) (i : ℕ) : Prop :=
  ∀ s, table.path k i = some s → m.key s = 0 ∨ m.key s = k

theorem Returns.idle : Returns table t m .idle := ⟨0, m, rfl⟩

theorem Returns.head {pc : Pc K V} {q : Memory T K V × Pc K V} (hq : access table t m pc = some q)
    (h : Returns table t q.1 q.2) : Returns table t m pc := by
  obtain ⟨fuel, m', hrun⟩ := h
  refine ⟨fuel + 1, m', ?_⟩
  cases pc with
  | idle => cases hq
  | _ =>
      show (access table t m _).bind _ = _
      rw [hq]
      exact hrun

/-- From the last round on a call has at most two accesses to make. -/
theorem Returns.of_stops (hc : c.Asserts) (h : Stops table m c.key i) : Returns table t m (c.loop i) := by
  cases c with
  | setItem k v =>
      cases hpath : table.path k i with
      | none => exact .head (by dsimp only [Call.loop, access]; rw [hpath]) .idle
      | some s =>
          obtain hfree | hkey := h s hpath
          · have hne : m.key s ≠ k := fun hkey => hc.1 (hkey.symm.trans hfree)
            refine .head (q := (m, .setExchange k v i s)) ?_ (.head (q := (m.setKey s k, .setStore k v s)) ?_ (.head rfl .idle))
            · dsimp only [Call.loop, access]
              rw [hpath]
              exact (if_neg hne).trans (if_pos hfree)
            · exact if_pos hfree
          · refine .head (q := (m, .setStore k v s)) ?_ (.head rfl .idle)
            dsimp only [Call.loop, access]
            rw [hpath]
            exact if_pos hkey
  | getItem k =>
      cases hpath : table.path k i with
      | none => exact .head (by dsimp only [Call.loop, access]; rw [hpath]) .idle
      | some s =>
          obtain hfree | hkey := h s hpath
          · have hne : m.key s ≠ k := fun hkey => hc (hkey.symm.trans hfree)
            refine .head (q := m.finish t (.getItem k) (.got 0)) ?_ .idle
            dsimp only [Call.loop, access]
            rw [hpath]
            exact (if_neg hne).trans (if_pos hfree)
          · refine .head (q := (m, .getValue k s)) ?_ (.head rfl .idle)
            dsimp only [Call.loop, access]
            rw [hpath]
            exact if_pos hkey

/-- Any other round goes on to the next. -/
theorem access_of_not_stops (h : ¬ Stops table m c.key i) : access table t m (c.loop i) = some (m, c.loop (i + 1)) := by
  unfold Stops at h
  simp only [not_forall, not_or] at h
  obtain ⟨s, hpath, hzero, hne⟩ := h
  cases c with
  | setItem k v | getItem k =>
      dsimp only [Call.key] at hpath
      dsimp only [Call.loop, access]
      rw [hpath]
      exact (if_neg hne).trans (if_neg hzero)

/-- A call that runs alone returns just if its loop has a last round. -/
theorem returns_iff_stops (hc : c.Asserts) : Returns table t m c.enter ↔ ∃ i, Stops table m c.key i := by
  have henter : c.enter = c.loop 0 := by cases c <;> rfl
  rw [henter]
  constructor
  · rintro ⟨fuel, m', hrun⟩
    by_contra hnever
    simp only [not_exists] at hnever
    -- by induction on the accesses that are left, from any round on
    have hall : ∀ fuel i, runAlone table t fuel m (c.loop i) = none := by
      intro fuel
      induction fuel with
      | zero =>
          intro i
          cases c <;> rfl
      | succ fuel ih =>
          intro i
          have hstep := access_of_not_stops (t := t) (hnever i)
          cases c with
          | setItem k v | getItem k =>
              show (access table t m _).bind _ = none
              rw [hstep]
              exact ih (i + 1)
    rw [hall fuel 0] at hrun
    cases hrun
  · rintro ⟨i, hstops⟩
    -- by induction on the rounds that are left
    have hall : ∀ d j, j + d = i → Returns table t m (c.loop j) := by
      intro d
      induction d with
      | zero =>
          rintro j rfl
          exact .of_stops hc hstops
      | succ d ih =>
          intro j hj
          by_cases hstop : Stops table m c.key j
          · exact .of_stops hc hstop
          · exact .head (access_of_not_stops hstop) (ih (j + 1) (by omega))
    exact hall i 0 (Nat.zero_add i)

/-- `idx` goes round the slots that a 32-bit index reaches. -/
theorem idx_eq (n : ℕ) (inKey : BitVec 32) (i : ℕ) :
    idx n inKey i = ((integerHash inKey).toNat + i) % 2 ^ min n 32 := by
  have hmask : ∀ x, x % 2 ^ 32 &&& (2 ^ n - 1) = x % 2 ^ min n 32 := by
    intro x
    rw [Nat.and_two_pow_sub_one_eq_mod]
    rcases Nat.le_total n 32 with hle | hle
    · rw [Nat.min_eq_left hle, Nat.mod_mod_of_dvd _ (Nat.pow_dvd_pow 2 hle)]
    · rw [Nat.min_eq_right hle, Nat.mod_eq_of_lt (b := 2 ^ n)]
      exact (Nat.mod_lt x (by decide)).trans_le (Nat.pow_le_pow_right (by decide) hle)
  induction i with
  | zero =>
      rw [idx, ← hmask, Nat.add_zero, Nat.mod_eq_of_lt (integerHash inKey).isLt]
  | succ i ih =>
      rw [idx, hmask, ih, Nat.mod_add_mod, Nat.add_assoc]

/-- **`HashTable` spins on a full table.** A call that runs alone returns exactly if some slot that its index reaches is
    free or has the key; `LinearSearchMap` always returns. -/
theorem returns_alone_iff {n : ℕ} {m : Memory T (BitVec 32) V} {c : Call (BitVec 32) V} (hc : c.Asserts) (t : T) :
    (Returns (hashTable n) t m c.enter ↔ ∃ s < 2 ^ min n 32, m.key s = 0 ∨ m.key s = c.key) ∧
      Returns (linearSearchMap (BitVec 32) n) t m c.enter := by
  rw [returns_iff_stops hc, returns_iff_stops hc]
  refine ⟨⟨fun ⟨i, hi⟩ => ?_, fun ⟨s, hs, hstop⟩ => ?_⟩, n, fun s hs => ?_⟩
  · refine ⟨idx n c.key i, ?_, hi _ rfl⟩
    rw [idx_eq]
    exact Nat.mod_lt _ (Nat.two_pow_pos _)
  · obtain ⟨i, -, hi⟩ := exists_probe_eq hs (integerHash c.key).toNat
    refine ⟨i, fun s' hs' => ?_⟩
    cases hs'
    rwa [idx_eq, hi]
  · cases (if_neg (Nat.lt_irrefl n)).symm.trans hs

theorem returns_alone_iff_full : ¬ Returns (hashTable 1) true (⟨fun _ => 7, fun _ => 1, []⟩ : Memory Bool (BitVec 32) ℕ)
    (Call.getItem 5).enter := by
  refine mt (returns_alone_iff (n := 1) (c := .getItem 5) (by unfold Call.Asserts; decide) true).1.mp ?_
  rintro ⟨s, -, hfree | hkey⟩
  · exact absurd hfree (by decide : ¬ (7 : BitVec 32) = 0)
  · exact absurd hkey (by decide : ¬ (7 : BitVec 32) = 5)

end Alone

end Samples

end LockFreeStructures
