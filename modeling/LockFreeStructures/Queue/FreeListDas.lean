import Mathlib.Algebra.Group.Nat.Defs
import LockFreeStructures.Lib.Interleaving
import LockFreeStructures.Lib.LinkedList

/-!
# `Queue.FreeListDas` — the free list with a tagged head

Loading and compare-exchanging the head is one step each, and so is every access to a node's `FreeListNext`.
The tag tells apart the heads a thread has seen from later ones as long as it does not come round: `version`
counts the changes of the head without a bound, and the tag is what 16 bits hold of it.
-/

namespace LockFreeStructures

namespace FreeListDas

structure HeadPtr (P : Type) where
  ptr : Option P
  tag : BitVec 16
  deriving DecidableEq

structure Memory (T P : Type) where
  head : HeadPtr P
  /-- `FreeListNext` -/
  next : P → Option P
  /-- the caller that has the node -/
  owner : P → Option T
  /-- how often the head was changed -/
  version : ℕ

/-- Where a thread is in `Add` or `TryGet`. `seen` is the version of the head that `CurrentHead` is. -/
inductive Pc (P : Type) where
  | idle
  | addLoad (node : P)
  | addStore (node : P) (currentHead : HeadPtr P)
  | addExchange (node : P) (currentHead : HeadPtr P)
  | getLoad
  | getNext (ptr : P) (tag : BitVec 16) (seen : ℕ)
  | getExchange (ptr : P) (tag : BitVec 16) (next : Option P) (seen : ℕ)

inductive Act (T P : Type) where
  | add (node : P)
  | tryGet
  | access
  /-- a caller leaves a node to another one -/
  | give (node : P) (taker : T)

variable {T P : Type}

namespace Memory

/-- A compare-exchange of the head has succeeded. -/
def exchange (ptr : Option P) (m : Memory T P) : Memory T P :=
  { m with head := ⟨ptr, m.head.tag + 1⟩, version := m.version + 1 }

/-- `CurrentHead` has been loaded: `TryGet` returns if the list is empty. -/
def loaded (m : Memory T P) : Pc P :=
  match m.head.ptr with
  | none => .idle
  | some p => .getNext p m.head.tag m.version

section Owner

variable [DecidableEq P]

def setOwner (p : P) (o : Option T) (m : Memory T P) : Memory T P := { m with owner := Function.update m.owner p o }

def setNext (p : P) (next : Option P) (m : Memory T P) : Memory T P := { m with next := Function.update m.next p next }

end Owner

/-- An empty list, every node with a caller. -/
def fresh (owner : P → T) : Memory T P := ⟨⟨none, 0⟩, fun _ => none, fun p => some (owner p), 0⟩

end Memory

variable [DecidableEq P]

/-- The next access of thread `t`. -/
def access (t : T) (m : Memory T P) : Pc P → Option (Memory T P × Pc P)
  | .idle => none
  | .addLoad n => some (m, .addStore n m.head)
  | .addStore n h => some (m.setNext n h.ptr, .addExchange n h)
  | .addExchange n h =>
      if m.head = h then some ((m.exchange (some n)).setOwner n none, .idle) else some (m, .addStore n m.head)
  | .getLoad => some (m, m.loaded)
  | .getNext p tag seen => some (m, .getExchange p tag (m.next p) seen)
  | .getExchange p tag next _ =>
      if m.head = ⟨some p, tag⟩ then some ((m.exchange next).setOwner p (some t), .idle) else some (m, m.loaded)

/-- A thread adds only nodes it owns. -/
inductive ThreadStep (t : T) : Memory T P × Pc P → Act T P → Memory T P × Pc P → Prop
  | add {m : Memory T P} {n : P} (h : m.owner n = some t) : ThreadStep t (m, .idle) (.add n) (m, .addLoad n)
  | tryGet {m : Memory T P} : ThreadStep t (m, .idle) .tryGet (m, .getLoad)
  | access {m : Memory T P} {pc : Pc P} {r : Memory T P × Pc P} (h : FreeListDas.access t m pc = some r) :
      ThreadStep t (m, pc) .access r
  | give {m : Memory T P} {n : P} {t' : T} (h : m.owner n = some t) :
      ThreadStep t (m, .idle) (.give n t') (m.setOwner n (some t'), .idle)

/-- The step of thread `t`, computed. -/
def threadStep [DecidableEq T] (t : T) : Act T P → Memory T P × Pc P → Option (Memory T P × Pc P)
  | .add n, (m, .idle) => if m.owner n = some t then some (m, .addLoad n) else none
  | .tryGet, (m, .idle) => some (m, .getLoad)
  | .access, (m, pc) => FreeListDas.access t m pc
  | .give n t', (m, .idle) => if m.owner n = some t then some (m.setOwner n (some t'), .idle) else none
  | _, _ => none

theorem ThreadStep.of_threadStep [DecidableEq T] {t : T} {a : Act T P} {r r' : Memory T P × Pc P}
    (h : threadStep t a r = some r') : ThreadStep t r a r' := by
  unfold threadStep at h
  split at h
  · split at h
    · next hn =>
      cases h
      exact .add hn
    · cases h
  · cases h
    exact .tryGet
  · exact .access h
  · split at h
    · next hn =>
      cases h
      exact .give hn
    · cases h
  · cases h

abbrev State (T P : Type) := Interleaving.State T (Memory T P) (Pc P)

/-- No call in progress. -/
def start (owner : P → T) : State T P := ⟨.fresh owner, fun _ => .idle⟩

abbrev Step [DecidableEq T] : State T P → T × Act T P → State T P → Prop := Interleaving.Step ThreadStep

/-- The list from the head on is what no caller has, each node once; so a node that is given to a caller was no
    one's. -/
structure Safe (s : State T P) : Prop where
  kept : ∃ l, Linked s.memory.next s.memory.head.ptr l ∧ ∀ p, p ∈ l ↔ s.memory.owner p = none
  given : ∀ t p tag next seen, s.threads t = .getExchange p tag next seen → s.memory.head = ⟨some p, tag⟩ →
    s.memory.owner p = none

/-- The head `TryGet` is about to exchange was changed less than `2 ^ 16` times since it was loaded. -/
def Timely (s : State T P) (a : T × Act T P) : Prop :=
  a.2 = .access → ∀ p tag next seen, s.threads a.1 = .getExchange p tag next seen → s.memory.version < seen + 2 ^ 16

instance (s : State T P) (a : T × Act T P) : Decidable (Timely s a) :=
  match ha : a.2, hpc : s.threads a.1 with
  | .access, .getExchange p tag next seen =>
      decidable_of_iff (s.memory.version < seen + 2 ^ 16)
        ⟨fun hlt _ _ _ _ _ heq => by rw [hpc] at heq; cases heq; exact hlt, fun h => h ha p tag next seen hpc⟩
  | .access, .idle | .access, .addLoad _ | .access, .addStore .. | .access, .addExchange .. | .access, .getLoad
  | .access, .getNext .. => isTrue fun _ _ _ _ _ heq => by rw [hpc] at heq; cases heq
  | .add _, _ | .tryGet, _ | .give .., _ => isTrue fun h => by rw [ha] at h; cases h

/-! ## The invariant -/

section Invariant

omit [DecidableEq P]

variable {m m' : Memory T P} {t t' : T} {pc : Pc P} {p n : P}

structure Intact (m : Memory T P) : Prop where
  list : ∃ l, Linked m.next m.head.ptr l ∧ ∀ p, p ∈ l ↔ m.owner p = none
  tag : m.head.tag = BitVec.ofNat 16 m.version

/-- What a thread knows where it is. -/
def Pc.At (t : T) (m : Memory T P) : Pc P → Prop
  | .idle | .getLoad => True
  | .addLoad n | .addStore n _ => m.owner n = some t
  | .addExchange n h => m.owner n = some t ∧ m.next n = h.ptr
  | .getNext p tag seen =>
      seen ≤ m.version ∧ tag = BitVec.ofNat 16 seen ∧ (seen = m.version → m.head.ptr = some p)
  | .getExchange p tag next seen =>
      seen ≤ m.version ∧ tag = BitVec.ofNat 16 seen ∧
        (seen = m.version → m.head.ptr = some p ∧ m.next p = next)

/-- What the other threads do: nothing to the nodes of thread `t`, and nothing to the list without changing the
    head. -/
structure Rely (t : T) (m m' : Memory T P) : Prop where
  owner : ∀ n, m.owner n = some t → m'.owner n = some t
  next : ∀ n, m.owner n = some t → m'.next n = m.next n
  head : m.version < m'.version ∨
    m'.version = m.version ∧ m'.head = m.head ∧ ∀ p, m.owner p = none → m'.next p = m.next p

theorem Rely.refl (t : T) (m : Memory T P) : Rely t m m :=
  ⟨fun _ h => h, fun _ _ => rfl, Or.inr ⟨rfl, rfl, fun _ _ => rfl⟩⟩

/-- No caller has the first node of the list. -/
theorem Intact.owner_head (h : Intact m) (hp : m.head.ptr = some p) : m.owner p = none := by
  obtain ⟨l, hlinked, hmem⟩ := h.list
  rw [hp] at hlinked
  obtain ⟨l', rfl, -⟩ := hlinked.eq_cons
  exact (hmem p).mp List.mem_cons_self

theorem Pc.At.stable (h : pc.At t m) (hm : Intact m) (hrely : Rely t m m') : pc.At t m' := by
  cases pc with
  | idle | getLoad => trivial
  | addLoad n | addStore n h' => exact hrely.owner n h
  | addExchange n h' => exact ⟨hrely.owner n h.1, (hrely.next n h.1).trans h.2⟩
  | getNext p tag seen =>
      obtain ⟨hle, htag, hhead⟩ := h
      rcases hrely.head with hlt | ⟨hv, hh, -⟩
      · have hlt := Nat.lt_of_le_of_lt hle hlt
        exact ⟨Nat.le_of_lt hlt, htag, fun heq => absurd heq (Nat.ne_of_lt hlt)⟩
      · exact ⟨hv.symm ▸ hle, htag, fun heq => hh.symm ▸ hhead (heq.trans hv)⟩
  | getExchange p tag next seen =>
      obtain ⟨hle, htag, hhead⟩ := h
      rcases hrely.head with hlt | ⟨hv, hh, hnext⟩
      · have hlt := Nat.lt_of_le_of_lt hle hlt
        exact ⟨Nat.le_of_lt hlt, htag, fun heq => absurd heq (Nat.ne_of_lt hlt)⟩
      · refine ⟨hv.symm ▸ hle, htag, fun heq => ?_⟩
        obtain ⟨hptr, hn⟩ := hhead (heq.trans hv)
        exact ⟨hh.symm ▸ hptr, (hnext p (hm.owner_head hptr)).trans hn⟩

/-- `CurrentHead` as it has just been loaded. -/
theorem Intact.loaded (h : Intact m) (t : T) : m.loaded.At t m := by
  unfold Memory.loaded
  split
  · trivial
  · next p hp => exact ⟨Nat.le_refl _, h.tag, fun _ => hp⟩

theorem Intact.exchange_tag (h : Intact m) (ptr : Option P) :
    (m.exchange ptr).head.tag = BitVec.ofNat 16 (m.exchange ptr).version := by
  rw [Memory.exchange, h.tag, BitVec.ofNat_add]
  rfl

/-- Within `2 ^ 16` versions the tag tells them apart. -/
theorem seen_eq {seen version : ℕ} (hle : seen ≤ version) (hlt : version < seen + 2 ^ 16)
    (h : BitVec.ofNat 16 seen = BitVec.ofNat 16 version) : seen = version := by
  have hmod := congrArg BitVec.toNat h
  simp only [BitVec.toNat_ofNat] at hmod
  omega

/-- A thread whose compare-exchange succeeds in time has the list as it is. -/
theorem Pc.At.of_exchange {tag : BitVec 16} {next : Option P} {seen : ℕ} (h : (Pc.getExchange p tag next seen).At t m)
    (hm : Intact m) (hlt : m.version < seen + 2 ^ 16) (hhead : m.head = ⟨some p, tag⟩) :
    m.head.ptr = some p ∧ m.next p = next := by
  obtain ⟨hle, htag, hcur⟩ := h
  refine hcur (seen_eq hle hlt ?_)
  rw [← htag, ← hm.tag, hhead]

end Invariant

/-! ## The steps -/

section Steps

variable {m m' : Memory T P} {t t' : T} {pc pc' : Pc P} {p n : P}

/-- A node gets in front of the list. -/
theorem Intact.push (h : Intact m) (hnext : m.next n = m.head.ptr) :
    Intact ((m.exchange (some n)).setOwner n none) := by
  obtain ⟨l, hlinked, hmem⟩ := h.list
  refine ⟨⟨n :: l, ⟨rfl, ?_⟩, fun p => ?_⟩, h.exchange_tag _⟩
  · show Linked m.next (m.next n) l
    rwa [hnext]
  · show p ∈ n :: l ↔ Function.update m.owner n none p = none
    by_cases hp : p = n
    · simp [hp]
    · rw [Function.update_of_ne hp, List.mem_cons, hmem, or_iff_right hp]

/-- The first node of the list goes to a caller. -/
theorem Intact.pop (h : Intact m) (hp : m.head.ptr = some p) (t : T) :
    Intact ((m.exchange (m.next p)).setOwner p (some t)) := by
  obtain ⟨l, hlinked, hmem⟩ := h.list
  have hnodup := hlinked.nodup
  rw [hp] at hlinked
  obtain ⟨l', rfl, hrest⟩ := hlinked.eq_cons
  refine ⟨⟨l', hrest, fun x => ?_⟩, h.exchange_tag _⟩
  show x ∈ l' ↔ Function.update m.owner p (some t) x = none
  by_cases hx : x = p
  · rw [hx, Function.update_self]
    exact iff_of_false (List.nodup_cons.mp hnodup).1 nofun
  · rw [Function.update_of_ne hx, ← hmem, List.mem_cons, or_iff_right hx]

/-- A node outside the list is linked elsewhere. -/
theorem Intact.setNext (h : Intact m) (hn : m.owner n = some t) (next : Option P) : Intact (m.setNext n next) := by
  obtain ⟨l, hlinked, hmem⟩ := h.list
  refine ⟨⟨l, hlinked.congr fun p hp => Function.update_of_ne ?_ _ _, hmem⟩, h.tag⟩
  rintro rfl
  exact absurd (((hmem p).mp hp).symm.trans hn) nofun

/-- A node outside the list changes hands. -/
theorem Intact.give (h : Intact m) (hn : m.owner n = some t) (t' : T) : Intact (m.setOwner n (some t')) := by
  obtain ⟨l, hlinked, hmem⟩ := h.list
  refine ⟨⟨l, hlinked, fun p => ?_⟩, h.tag⟩
  show p ∈ l ↔ Function.update m.owner n (some t') p = none
  by_cases hp : p = n
  · rw [hmem, hp, Function.update_self, hn]
    exact iff_of_false nofun nofun
  · rw [Function.update_of_ne hp, hmem]

theorem Rely.setNext (hn : m.owner n = some t) (ht : t' ≠ t) (next : Option P) : Rely t' m (m.setNext n next) := by
  refine ⟨fun _ h => h, fun x hx => Function.update_of_ne ?_ _ _, Or.inr ⟨rfl, rfl, fun x hx => ?_⟩⟩
  · rintro rfl
    exact ht (Option.some.inj (hx.symm.trans hn))
  · refine Function.update_of_ne ?_ _ _
    rintro rfl
    exact absurd (hx.symm.trans hn) nofun

/-- A node of another thread, or of none, goes to a caller or into the list. -/
theorem setOwner_of_ne (hn : m.owner n ≠ some t') (o : Option T) {x : P} (hx : m.owner x = some t') :
    Function.update m.owner n o x = some t' := by
  rw [← hx]
  refine Function.update_of_ne ?_ _ _
  rintro rfl
  exact hn hx

theorem Rely.exchange (hn : m.owner n ≠ some t') (ptr : Option P) (o : Option T) :
    Rely t' m ((m.exchange ptr).setOwner n o) :=
  ⟨fun _ hx => setOwner_of_ne hn o hx, fun _ _ => rfl, Or.inl (Nat.lt_succ_self _)⟩

theorem Rely.give (hn : m.owner n ≠ some t') (o : Option T) : Rely t' m (m.setOwner n o) :=
  ⟨fun _ hx => setOwner_of_ne hn o hx, fun _ _ => rfl, Or.inr ⟨rfl, rfl, fun _ _ => rfl⟩⟩

/-- **One access** keeps the list intact, and all that other threads rely on. -/
theorem Pc.At.access (h : pc.At t m) (hm : Intact m)
    (htime : ∀ p tag next seen, pc = .getExchange p tag next seen → m.version < seen + 2 ^ 16)
    (hs : FreeListDas.access t m pc = some (m', pc')) :
    Intact m' ∧ pc'.At t m' ∧ ∀ t' ≠ t, Rely t' m m' := by
  cases pc with
  | idle => exact absurd hs nofun
  | addLoad n =>
      cases hs
      exact ⟨hm, h, fun t' _ => .refl t' m⟩
  | addStore n hd =>
      cases hs
      exact ⟨hm.setNext h _, ⟨h, Function.update_self ..⟩, fun t' ht => .setNext h ht _⟩
  | addExchange n hd =>
      obtain ⟨hown, hnext⟩ := h
      simp only [FreeListDas.access] at hs
      split at hs
      · next heq =>
        cases hs
        refine ⟨hm.push (hnext.trans (congrArg HeadPtr.ptr heq).symm), trivial, fun t' ht => .exchange ?_ _ _⟩
        rw [hown]
        exact fun heq => ht (Option.some.inj heq).symm
      · cases hs
        exact ⟨hm, hown, fun t' _ => .refl t' m⟩
  | getLoad =>
      cases hs
      exact ⟨hm, hm.loaded t, fun t' _ => .refl t' m⟩
  | getNext p tag seen =>
      cases hs
      obtain ⟨hle, htag, hcur⟩ := h
      exact ⟨hm, ⟨hle, htag, fun heq => ⟨hcur heq, rfl⟩⟩, fun t' _ => .refl t' m⟩
  | getExchange p tag next seen =>
      simp only [FreeListDas.access] at hs
      split at hs
      · next heq =>
        cases hs
        obtain ⟨hptr, rfl⟩ := h.of_exchange hm (htime p tag next seen rfl) heq
        refine ⟨hm.pop hptr t, trivial, fun t' _ => .exchange ?_ _ _⟩
        rw [hm.owner_head hptr]
        exact nofun
      · cases hs
        exact ⟨hm, hm.loaded t, fun t' _ => .refl t' m⟩

end Steps

section Runs

variable {s : State T P} {owner : P → T}

/-- **Step.** -/
theorem relyGuarantee : Interleaving.RelyGuarantee ThreadStep Timely (Intact (T := T) (P := P))
    (fun t m pc => pc.At t m) Rely where
  own {s t a m' pc'} hok hm hat hs := by
    obtain ⟨m, ls⟩ := s
    dsimp only at hm hat hs
    generalize hpc : ls t = pc at hat hs
    cases hs with
    | add hn => exact ⟨hm, hn⟩
    | tryGet => exact ⟨hm, trivial⟩
    | give hn => exact ⟨hm.give hn _, trivial⟩
    | access hacc =>
        obtain ⟨hm', hat', -⟩ := hat.access hm (fun p tag next seen heq => hok rfl p tag next seen (hpc.trans heq)) hacc
        exact ⟨hm', hat'⟩
  guarantee {s t t' a m' pc'} hok hm hat hs ht := by
    obtain ⟨m, ls⟩ := s
    dsimp only at hm hat hs
    generalize hpc : ls t = pc at hat hs
    cases hs with
    | add | tryGet => exact .refl t' _
    | give hn => exact .give (fun heq => ht (Option.some.inj (heq.symm.trans hn))) _
    | access hacc =>
        obtain ⟨-, -, hrely⟩ := hat.access hm (fun p tag next seen heq => hok rfl p tag next seen (hpc.trans heq)) hacc
        exact hrely t' ht
  stable hm hat hrely := hat.stable hm hrely

omit [DecidableEq P] in
theorem Intact.fresh (owner : P → T) : Intact (Memory.fresh owner) :=
  ⟨⟨[], rfl, fun _ => iff_of_false nofun nofun⟩, rfl⟩

variable [DecidableEq T]

/-- **Run.** As long as the tag does not come round between a load of the head and its exchange, the list is safe. -/
theorem safe_of_timely (h : Reaches Step Timely (start owner) s) : Safe s := by
  obtain ⟨hm, -⟩ := relyGuarantee.invariant h (Intact.fresh owner) fun _ => trivial
  exact ⟨hm.list, fun _ p tag _ _ _ hhead => hm.owner_head (congrArg HeadPtr.ptr hhead)⟩

/-! ## Calls that are not interrupted -/

variable {ok : State T P → T × Act T P → Prop} {m m' : Memory T P} {ls : T → Pc P} {t : T} {pc pc' : Pc P} {n p : P}

theorem reaches_access (hpc : ls t = pc) (hok : ok ⟨m, ls⟩ (t, .access)) (hs : access t m pc = some (m', pc'))
    (h : Reaches Step ok ⟨m', Function.update ls t pc'⟩ s) : Reaches Step ok ⟨m, ls⟩ s :=
  .head (Interleaving.Step.of_eq hpc (.access hs)) hok h

/-- `TryGet` on a list that is not empty, up to the compare-exchange. -/
theorem reaches_getExchange (hok : ∀ s a, ok s a) (hidle : ls t = .idle) (hp : m.head.ptr = some p)
    (h : Reaches Step ok ⟨m, Function.update ls t (.getExchange p m.head.tag (m.next p) m.version)⟩ s) :
    Reaches Step ok ⟨m, ls⟩ s := by
  have hloaded : m.loaded = .getNext p m.head.tag m.version := by simp only [Memory.loaded, hp]
  refine .head (Interleaving.Step.of_eq hidle .tryGet) (hok _ _) ?_
  refine reaches_access (Function.update_self ..) (hok _ _) rfl ?_
  rw [hloaded, Function.update_idem]
  refine reaches_access (Function.update_self ..) (hok _ _) rfl ?_
  rw [Function.update_idem]
  exact h

theorem reaches_tryGet (hok : ∀ s a, ok s a) (hidle : ls t = .idle) (hp : m.head.ptr = some p)
    (h : Reaches Step ok ⟨(m.exchange (m.next p)).setOwner p (some t), ls⟩ s) : Reaches Step ok ⟨m, ls⟩ s := by
  have hhead : m.head = ⟨some p, m.head.tag⟩ := by rw [← hp]
  refine reaches_getExchange hok hidle hp ?_
  refine reaches_access (Function.update_self ..) (hok _ _) (if_pos hhead) ?_
  rw [Function.update_idem, ← hidle, Function.update_eq_self]
  exact h

theorem reaches_add (hok : ∀ s a, Timely s a → ok s a) (hidle : ls t = .idle) (hn : m.owner n = some t)
    (h : Reaches Step ok ⟨((m.setNext n m.head.ptr).exchange (some n)).setOwner n none, ls⟩ s) :
    Reaches Step ok ⟨m, ls⟩ s := by
  -- no step of `Add` is that of a thread with a head to exchange in `TryGet`
  have htime : ∀ {m : Memory T P} {ls : T → Pc P} {pc : Pc P}, (∀ p tag next seen, pc ≠ .getExchange p tag next seen) →
      ok ⟨m, Function.update ls t pc⟩ (t, .access) :=
    fun hpc => hok _ _ fun _ p tag next seen heq =>
      absurd ((Function.update_self t _ _).symm.trans heq) (hpc p tag next seen)
  refine .head (Interleaving.Step.of_eq hidle (.add hn)) (hok _ _ nofun) ?_
  refine reaches_access (Function.update_self ..) (htime nofun) rfl ?_
  rw [Function.update_idem]
  refine reaches_access (Function.update_self ..) (htime nofun) rfl ?_
  rw [Function.update_idem]
  refine reaches_access (Function.update_self ..) (htime nofun) (if_pos rfl) ?_
  rw [Function.update_idem, ← hidle, Function.update_eq_self]
  exact h

/-- The first node is taken by another thread before a `TryGet` exchanges the head; it tries again and gets the
    second one. -/
theorem safe_of_timely_retry : ∃ s : State Bool ℕ, s.memory.owner 0 = some true ∧ s.memory.owner 1 = some false ∧
    s.memory.version = 4 ∧ Safe s := by
  have hrun : (Interleaving.runSchedule threadStep Timely
      ([(true, .add 1), (true, .access), (true, .access), (true, .access), (true, .add 0), (true, .access),
        (true, .access), (true, .access), (false, .tryGet), (false, .access), (false, .access), (true, .tryGet),
        (true, .access), (true, .access), (true, .access), (false, .access), (false, .access), (false, .access)])
      (start fun _ => true : State Bool ℕ)).map
        (fun s => (s.memory.owner 0, s.memory.owner 1, s.memory.version)) = some (some true, some false, 4) := by
    decide +kernel
  obtain ⟨s, hs, hends⟩ := Option.map_eq_some_iff.mp hrun
  obtain ⟨hfirst, hsecond, hversion⟩ :
      s.memory.owner 0 = some true ∧ s.memory.owner 1 = some false ∧ s.memory.version = 4 := by
    simpa only [Prod.mk.injEq] using hends
  exact ⟨s, hfirst, hsecond, hversion,
    safe_of_timely (Interleaving.reaches_of_schedule (fun _ _ _ _ => ThreadStep.of_threadStep) hs)⟩

end Runs

/-! ## A tag that comes round -/

/-- Thread 0 is about to exchange the head it loaded at version 2; thread 1 has taken the second node for good. -/
def paused (version : ℕ) : State ℕ ℕ :=
  ⟨{ head := ⟨some 0, BitVec.ofNat 16 version⟩
     next := Function.update (fun _ => none) 0 (some 2)
     owner := Function.update (Function.update (fun _ => some 1) 2 none) 0 none
     version := version },
    Function.update (fun _ => .idle) 0 (.getExchange 0 2 (some 1) 2)⟩

section Paused

variable {ok : State ℕ ℕ → ℕ × Act ℕ ℕ → Prop}

theorem reaches_of_eq {s s' : State ℕ ℕ} (h : s = s') : Reaches Step ok s s' := h ▸ .refl s

theorem reaches_paused (hok : ∀ s a, ok s a) : Reaches Step ok (start fun _ => 1) (paused 6) := by
  refine reaches_add (t := 1) (n := 1) (fun s a _ => hok s a) rfl rfl ?_
  refine reaches_add (t := 1) (n := 0) (fun s a _ => hok s a) rfl rfl ?_
  refine reaches_getExchange (t := 0) (p := 0) hok rfl rfl ?_
  refine reaches_tryGet (t := 1) (p := 0) hok rfl rfl ?_
  refine reaches_tryGet (t := 1) (p := 1) hok rfl rfl ?_
  refine reaches_add (t := 1) (n := 2) (fun s a _ => hok s a) rfl rfl ?_
  refine reaches_add (t := 1) (n := 0) (fun s a _ => hok s a) rfl rfl ?_
  refine reaches_of_eq ?_
  simp only [paused, Memory.exchange, Memory.setOwner, Memory.setNext, Memory.fresh]
  congr 2
  · funext p
    grind [Function.update_apply]
  · funext p
    grind [Function.update_apply]

/-- Taking the first node and adding it again changes nothing but the tag. -/
theorem reaches_paused_add_two (hok : ∀ s a, ok s a) (version : ℕ) :
    Reaches Step ok (paused version) (paused (version + 2)) := by
  refine reaches_tryGet (t := 1) (p := 0) hok rfl rfl ?_
  refine reaches_add (t := 1) (n := 0) (fun s a _ => hok s a) rfl rfl ?_
  refine reaches_of_eq ?_
  simp only [paused, Memory.exchange, Memory.setOwner, Memory.setNext]
  congr 2
  · rw [BitVec.ofNat_add, BitVec.add_assoc]
    rfl
  · exact Function.update_eq_self ..
  · rw [Function.update_idem, Function.update_idem]

/-- So the head has its old tag again after `2 ^ 16` changes. -/
theorem reaches_paused_round (hok : ∀ s a, ok s a) : Reaches Step ok (start fun _ => 1) (paused (2 + 2 ^ 16)) := by
  have hrounds : ∀ n, Reaches Step ok (start fun _ => 1) (paused (6 + 2 * n)) := by
    intro n
    induction n with
    | zero => exact reaches_paused hok
    | succ n ih => exact ih.trans (reaches_paused_add_two hok _)
  exact hrounds 32766

end Paused

/-- The compare-exchange of thread 0 puts the next of an older head in front. -/
def stale : State ℕ ℕ :=
  ⟨((paused (2 + 2 ^ 16)).memory.exchange (some 1)).setOwner 0 (some 0), fun _ => .idle⟩

theorem reaches_stale : Reaches Step (fun _ _ => True) (start fun _ => 1) stale := by
  have htag : (paused (2 + 2 ^ 16)).memory.head = ⟨some 0, 2⟩ := by decide
  have haccess : access 0 (paused (2 + 2 ^ 16)).memory (.getExchange 0 2 (some 1) 2) = some (stale.memory, .idle) :=
    by rw [access, if_pos htag]; rfl
  refine (reaches_paused_round fun _ _ => trivial).trans ?_
  refine reaches_access (t := 0) rfl trivial haccess ?_
  refine reaches_of_eq ?_
  simp only [stale, paused, Function.update_idem]
  congr 1
  exact Function.update_eq_self 0 (fun _ => Pc.idle)

/-- After `2 ^ 16` changes of the head the second node is in the list and with thread 1 at once. -/
theorem not_safe : ¬ ∀ (owner : ℕ → ℕ) (s : State ℕ ℕ), Reaches Step (fun _ _ => True) (start owner) s → Safe s := by
  intro h
  obtain ⟨l, hlinked, hmem⟩ := (h _ _ reaches_stale).kept
  obtain ⟨l', rfl, -⟩ := hlinked.eq_cons
  exact absurd ((hmem 1).mp List.mem_cons_self) nofun

end FreeListDas

end LockFreeStructures
