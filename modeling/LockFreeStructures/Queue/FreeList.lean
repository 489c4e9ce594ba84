import Mathlib.Algebra.Group.Nat.Defs
import Mathlib.Data.Fintype.Card
import LockFreeStructures.Lib.Interleaving
import LockFreeStructures.Lib.LinkedList

/-!
# `Queue.FreeList` — the free list with reference counts

Every access to `Head`, `FreeListRefs` or `FreeListNext` is one step. The lower 31 bits of `FreeListRefs` count the
calls of `TryGet` that have a hold on the node, and one more while the node is in the list or on its way into it; the
highest bit is set while it is to be added as soon as no one has a hold on it. A thread that drops the last hold on
such a node adds it.
-/

namespace LockFreeStructures

namespace FreeList

/-- Where a node is in the course of its life. -/
inductive Place (T : Type) where
  /-- no caller has been given it -/
  | unborn
  | owned (t : T)
  /-- to be added by the last thread that has a hold on it -/
  | waiting
  | adding (t : T)
  /-- its `FreeListRefs` is 1 already, the head is not it yet -/
  | offered (t : T)
  | listed
  /-- taken out of the list, not yet returned -/
  | taken (t : T)

structure Node (T P : Type) where
  /-- `FreeListNext` -/
  next : Option P
  /-- `FreeListRefs` -/
  refs : BitVec 32
  place : Place T
  /-- the threads that have counted themselves in `refs` -/
  holders : Finset T

structure Memory (T P : Type) where
  head : Option P
  node : P → Node T P

/-- What the thread that has added a node back goes on with: `Add` returns, `TryGet` starts over. -/
inductive Rest (P : Type) where
  | done
  | tryGet (currentHead : Option P)
  deriving DecidableEq

/-- Where a thread is in `Add`, `InnerAdd` or `TryGet`. -/
inductive Pc (P : Type) where
  | idle (got : Option P)
  | addFlag (n : P)
  | innerLoad (n : P) (rest : Rest P)
  | innerNext (n : P) (currentHead : Option P) (rest : Rest P)
  | innerRefs (n : P) (currentHead : Option P) (rest : Rest P)
  | innerExchange (n : P) (currentHead : Option P) (rest : Rest P)
  | innerFlag (n : P) (currentHead : Option P) (rest : Rest P)
  | getLoad
  | getRefs (currentHead : P)
  | getAddRef (currentHead : P) (refs : BitVec 32)
  | getNext (currentHead : P)
  | getExchange (currentHead : P) (next : Option P)
  | getTaken (currentHead : P)
  | getDrop (prevHead : P) (currentHead : Option P)
  deriving DecidableEq

inductive Act (T P : Type) where
  | fresh (n : P)
  /-- a caller leaves a node to another one -/
  | give (n : P) (taker : T)
  | add (n : P)
  | tryGet
  | access

def addFlag : BitVec 32 := 0x80000000#32

def refsMask : BitVec 32 := 0x7fffffff#32

variable {T P : Type}

/-- The test of `TryGet`'s loop. -/
def loop : Option P → Pc P
  | none => .idle none
  | some n => .getRefs n

def Rest.pc : Rest P → Pc P
  | .done => .idle none
  | .tryGet currentHead => loop currentHead

section Accesses

variable [DecidableEq T] [DecidableEq P]

def Memory.set (n : P) (x : Node T P) (m : Memory T P) : Memory T P := { m with node := Function.update m.node n x }

/-- The next access of thread `t`. -/
def access (t : T) (m : Memory T P) : Pc P → Option (Memory T P × Pc P)
  | .idle _ => none
  | .addFlag n =>
      let x := m.node n
      if x.refs = 0 then some (m.set n { x with refs := x.refs + addFlag, place := .adding t }, .innerLoad n .done)
      else some (m.set n { x with refs := x.refs + addFlag, place := .waiting }, .idle none)
  | .innerLoad n rest => some (m, .innerNext n m.head rest)
  | .innerNext n currentHead rest =>
      some (m.set n { m.node n with next := currentHead }, .innerRefs n currentHead rest)
  | .innerRefs n currentHead rest =>
      some (m.set n { m.node n with refs := 1, place := .offered t }, .innerExchange n currentHead rest)
  | .innerExchange n currentHead rest =>
      if m.head = currentHead then
        some ({ m with head := some n }.set n { m.node n with place := .listed }, rest.pc)
      else some (m, .innerFlag n m.head rest)
  | .innerFlag n currentHead rest =>
      let x := m.node n
      if x.refs = 1 then
        some (m.set n { x with refs := x.refs + (addFlag - 1), place := .adding t }, .innerNext n currentHead rest)
      else some (m.set n { x with refs := x.refs + (addFlag - 1), place := .waiting }, rest.pc)
  | .getLoad => some (m, loop m.head)
  | .getRefs n => some (m, if (m.node n).refs &&& refsMask = 0 then .getLoad else .getAddRef n (m.node n).refs)
  | .getAddRef n refs =>
      let x := m.node n
      if x.refs = refs then some (m.set n { x with refs := refs + 1, holders := insert t x.holders }, .getNext n)
      else some (m, .getLoad)
  | .getNext n => some (m, .getExchange n (m.node n).next)
  | .getExchange n next =>
      if m.head = some n then some ({ m with head := next }.set n { m.node n with place := .taken t }, .getTaken n)
      else some (m, .getDrop n m.head)
  | .getTaken n =>
      let x := m.node n
      some (m.set n { x with refs := x.refs - 2, holders := x.holders.erase t, place := .owned t }, .idle (some n))
  | .getDrop n currentHead =>
      let x := { m.node n with refs := (m.node n).refs - 1, holders := (m.node n).holders.erase t }
      if (m.node n).refs = addFlag + 1 then
        some (m.set n { x with place := .adding t }, .innerLoad n (.tryGet currentHead))
      else some (m.set n x, loop currentHead)

/-- A thread adds only nodes it owns. -/
inductive ThreadStep (t : T) : Memory T P × Pc P → Act T P → Memory T P × Pc P → Prop
  | fresh {m : Memory T P} {n : P} {got : Option P} (h : (m.node n).place = .unborn) :
      ThreadStep t (m, .idle got) (.fresh n) (m.set n { m.node n with place := .owned t }, .idle got)
  | give {m : Memory T P} {n : P} {t' : T} {got : Option P} (h : (m.node n).place = .owned t) :
      ThreadStep t (m, .idle got) (.give n t') (m.set n { m.node n with place := .owned t' }, .idle got)
  | add {m : Memory T P} {n : P} {got : Option P} (h : (m.node n).place = .owned t) :
      ThreadStep t (m, .idle got) (.add n) (m, .addFlag n)
  | tryGet {m : Memory T P} {got : Option P} : ThreadStep t (m, .idle got) .tryGet (m, .getLoad)
  | access {m : Memory T P} {pc : Pc P} {r : Memory T P × Pc P} (h : FreeList.access t m pc = some r) :
      ThreadStep t (m, pc) .access r

def Memory.isOwned (t : T) (n : P) (m : Memory T P) : Bool :=
  match (m.node n).place with
  | .owned t' => t' = t
  | _ => false

omit [DecidableEq P] in
theorem Memory.isOwned_iff {t : T} {n : P} {m : Memory T P} : m.isOwned t n = true ↔ (m.node n).place = .owned t := by
  unfold Memory.isOwned
  split
  · next hplace => rw [hplace, decide_eq_true_iff, Place.owned.injEq]
  · next hplace => exact iff_of_false (by rintro ⟨⟩) (hplace t)

/-- The step of thread `t`, computed. -/
def threadStep (t : T) : Act T P → Memory T P × Pc P → Option (Memory T P × Pc P)
  | .fresh n, (m, .idle got) =>
      match (m.node n).place with
      | .unborn => some (m.set n { m.node n with place := .owned t }, .idle got)
      | _ => none
  | .give n t', (m, .idle got) =>
      if m.isOwned t n then some (m.set n { m.node n with place := .owned t' }, .idle got) else none
  | .add n, (m, .idle _) => if m.isOwned t n then some (m, .addFlag n) else none
  | .tryGet, (m, .idle _) => some (m, .getLoad)
  | .access, (m, pc) => FreeList.access t m pc
  | _, _ => none

theorem ThreadStep.of_threadStep {t : T} {a : Act T P} {r r' : Memory T P × Pc P} (h : threadStep t a r = some r') :
    ThreadStep t r a r' := by
  unfold threadStep at h
  split at h
  · split at h
    · next hplace =>
      cases h
      exact .fresh hplace
    · cases h
  · split at h
    · next howned =>
      cases h
      exact .give (Memory.isOwned_iff.mp howned)
    · cases h
  · split at h
    · next howned =>
      cases h
      exact .add (Memory.isOwned_iff.mp howned)
    · cases h
  · cases h
    exact .tryGet
  · exact .access h
  · cases h

end Accesses

abbrev State (T P : Type) := Interleaving.State T (Memory T P) (Pc P)

def start : State T P := ⟨⟨none, fun _ => ⟨none, 0, .unborn, ∅⟩⟩, fun _ => .idle none⟩

abbrev Step [DecidableEq T] [DecidableEq P] : State T P → T × Act T P → State T P → Prop :=
  Interleaving.Step ThreadStep

def Place.owner : Place T → Option T
  | .owned t => some t
  | _ => none

def Memory.next (m : Memory T P) (n : P) : Option P := (m.node n).next

/-- A node that was given to a caller and is no one's was added and not taken since. -/
def Memory.Added (m : Memory T P) (n : P) : Prop := (m.node n).place ≠ .unborn ∧ (m.node n).place.owner = none

structure Safe (s : State T P) : Prop where
  acyclic : ∃ l, Linked s.memory.next s.memory.head l
  /-- a node that is about to be returned is no caller's, and no one else is about to return it -/
  given : ∀ t n, s.threads t = .getTaken n →
    (s.memory.node n).place.owner = none ∧ ∀ t', s.threads t' = .getTaken n → t' = t
  quiet : (∀ t, ∃ got, s.threads t = .idle got) →
    ∃ l, Linked s.memory.next s.memory.head l ∧ (∀ n, n ∈ l ↔ s.memory.Added n) ∧
      ∀ n ∈ l, (s.memory.node n).refs = 1

/-! ## What a thread knows -/

section Knowledge

variable {m m' : Memory T P} {t t' : T} {pc pc' : Pc P} {n n' : P} {x x' : Node T P}

/-- What `FreeListRefs` is besides the holders. -/
def Place.base : Place T → ℕ
  | .unborn | .owned _ => 0
  | .waiting | .adding _ => 2 ^ 31
  | .offered _ | .listed | .taken _ => 1

/-- The thread that is at work with the node. -/
def Place.worker : Place T → Option T
  | .adding t | .offered t | .taken t => some t
  | .unborn | .owned _ | .waiting | .listed => none

/-- The thread in whose hands the node is. -/
def Place.hand (p : Place T) : Option T := p.owner.or p.worker

structure Node.Good (x : Node T P) : Prop where
  refs : x.refs.toNat = x.place.base + x.holders.card
  waiting : x.place = .waiting → x.holders ≠ ∅
  alone : (x.place = .unborn ∨ ∃ t, x.place = .adding t) → x.holders = ∅

structure Intact (m : Memory T P) : Prop where
  good : ∀ n, (m.node n).Good
  list : ∃ l, Linked m.next m.head l ∧ ∀ n, n ∈ l ↔ (m.node n).place = .listed

namespace Pc

/-- The node the thread has in hand or has a hold on. -/
def node : Pc P → Option P
  | .idle _ | .getLoad | .getRefs _ | .getAddRef .. => none
  | .addFlag n | .innerLoad n _ | .innerNext n .. | .innerRefs n .. | .innerExchange n .. | .innerFlag n ..
  | .getNext n | .getExchange n _ | .getTaken n | .getDrop n _ => some n

/-- The thread is among the holders of `node`. -/
def Holds : Pc P → Prop
  | .getNext _ | .getExchange .. | .getTaken _ | .getDrop .. => True
  | _ => False

/-- Where `node` is, if it is in the hands of the thread. -/
def place (t : T) : Pc P → Option (Place T)
  | .addFlag _ => some (.owned t)
  | .innerLoad .. | .innerNext .. | .innerRefs .. => some (.adding t)
  | .innerExchange .. | .innerFlag .. => some (.offered t)
  | .getTaken _ => some (.taken t)
  | _ => none

/-- What the `FreeListNext` of `node` is known to be. -/
def next : Pc P → Option (Option P)
  | .innerRefs _ currentHead _ | .innerExchange _ currentHead _ => some currentHead
  | .getExchange _ next => some next
  | _ => none

/-- What a thread knows of node `n`. -/
structure Knows (t : T) (pc : Pc P) (n : P) (x : Node T P) : Prop where
  held : t ∈ x.holders ↔ pc.node = some n ∧ pc.Holds
  place : ∀ p, pc.node = some n → pc.place t = some p → x.place = p
  worker : x.place.worker = some t → pc.node = some n ∧ pc.place t ≠ none
  next : ∀ next, pc.node = some n → pc.next = some next → x.next = next

/-- A thread counts itself in only where the count is not zero. -/
def Counted : Pc P → Prop
  | .getAddRef _ refs => refs &&& refsMask ≠ 0
  | _ => True

def At (t : T) (m : Memory T P) (pc : Pc P) : Prop := pc.Counted ∧ ∀ n, pc.Knows t n (m.node n)

/-- A node the thread has nothing to do with. -/
theorem Knows.of_ne (hheld : t ∉ x.holders) (hworker : x.place.worker ≠ some t) (hpc : pc.node ≠ some n) :
    pc.Knows t n x where
  held := iff_of_false hheld fun h => hpc h.1
  place := fun _ h => absurd h hpc
  worker := fun h => absurd h hworker
  next := fun _ h => absurd h hpc

theorem Knows.elsewhere (h : pc.Knows t n x) (hpc : pc.node ≠ some n) (hpc' : pc'.node ≠ some n) :
    pc'.Knows t n x :=
  .of_ne (fun hheld => hpc (h.held.mp hheld).1) (fun hworker => hpc (h.worker hworker).1) hpc'

/-- The thread goes on without a change. -/
theorem Knows.goOn (h : pc.Knows t n x) (hnode : pc'.node = pc.node) (hholds : pc'.Holds ↔ pc.Holds)
    (hplace : pc'.place t = pc.place t) (hnext : ∀ next, pc.node = some n → pc'.next = some next → x.next = next) :
    pc'.Knows t n x where
  held := by rw [hnode, hholds, h.held]
  place := by rw [hnode, hplace]; exact h.place
  worker := by rw [hnode, hplace]; exact h.worker
  next := by rw [hnode]; exact hnext

end Pc

/-- What the other threads do to a node. -/
structure Node.Rely (t : T) (x x' : Node T P) : Prop where
  held : t ∈ x'.holders ↔ t ∈ x.holders
  place : x.place.hand = some t → x'.place = x.place
  worker : x'.place.worker = some t → x'.place = x.place
  next : t ∈ x.holders ∨ x.place.worker = some t → x'.next = x.next

def Rely (t : T) (m m' : Memory T P) : Prop := ∀ n, Node.Rely t (m.node n) (m'.node n)

theorem Node.Rely.refl (t : T) (x : Node T P) : Node.Rely t x x :=
  ⟨Iff.rfl, fun _ => rfl, fun _ => rfl, fun _ => rfl⟩

theorem Rely.refl (t : T) (m : Memory T P) : Rely t m m := fun n => Node.Rely.refl t (m.node n)

/-- The node stays where it is. -/
theorem Node.Rely.same (hplace : x'.place = x.place) (hheld : t ∈ x'.holders ↔ t ∈ x.holders)
    (hnext : x'.next = x.next) : Node.Rely t x x' :=
  ⟨hheld, fun _ => hplace, fun _ => hplace, fun _ => hnext⟩

theorem Place.hand_of_worker {p : Place T} (h : p.worker = some t) : p.hand = some t := by
  cases p <;> first | exact h | cases h

/-- The node goes from one hand to another, neither of them thread `t`'s. -/
theorem Node.Rely.moved (hfrom : x.place.hand ≠ some t) (hto : x'.place.worker ≠ some t)
    (hheld : t ∈ x'.holders ↔ t ∈ x.holders) (hnext : t ∈ x.holders → x'.next = x.next) : Node.Rely t x x' where
  held := hheld
  place := fun h => absurd h hfrom
  worker := fun h => absurd h hto
  next := fun h => h.elim hnext fun hworker => absurd (Place.hand_of_worker hworker) hfrom

theorem Pc.Knows.stable (h : pc.Knows t n x) (hrely : Node.Rely t x x') : pc.Knows t n x' := by
  refine ⟨hrely.held.trans h.held, fun p hnode hp => ?_, fun hworker => ?_, fun next hnode hnext => ?_⟩
  · have hplace := h.place p hnode hp
    rw [hrely.place, hplace]
    rw [hplace]
    cases pc <;> cases hp <;> rfl
  · rw [hrely.worker hworker] at hworker
    exact h.worker hworker
  · rw [hrely.next, h.next next hnode hnext]
    -- a link is known of a node that is held or about to be added
    cases pc with
    | innerRefs => exact Or.inr (h.place _ hnode rfl ▸ rfl)
    | innerExchange => exact Or.inr (h.place _ hnode rfl ▸ rfl)
    | getExchange => exact Or.inl (h.held.mpr ⟨hnode, trivial⟩)
    | _ => cases hnext

theorem Pc.At.stable (h : pc.At t m) (hrely : Rely t m m') : pc.At t m' :=
  ⟨h.1, fun n => (h.2 n).stable (hrely n)⟩

end Knowledge

/-! ## Changes of one node -/

section Changes

variable [DecidableEq P] {m m' : Memory T P} {t t' : T} {pc pc' : Pc P} {n : P} {x x' : Node T P}

theorem next_of_update (hnode : m'.node = Function.update m.node n x') (hnext : x'.next = (m.node n).next) :
    m'.next = m.next := by
  funext p
  unfold Memory.next
  rw [hnode]
  by_cases hp : p = n
  · subst hp
    rw [Function.update_self, hnext]
  · rw [Function.update_of_ne hp]

theorem Intact.good_of_update (h : Intact m) (hnode : m'.node = Function.update m.node n x') (hgood : x'.Good) (p : P) :
    (m'.node p).Good := by
  rw [hnode]
  by_cases hp : p = n
  · subst hp
    rwa [Function.update_self]
  · rw [Function.update_of_ne hp]
    exact h.good p

/-- A node outside the list stays there. -/
theorem Intact.outside (h : Intact m) (hgood : x'.Good) (hold : (m.node n).place ≠ .listed) (hnew : x'.place ≠ .listed) :
    Intact (m.set n x') := by
  obtain ⟨l, hlinked, hmem⟩ := h.list
  refine ⟨h.good_of_update rfl hgood, l, hlinked.congr fun p hp => ?_, fun p => ?_⟩
  · have hne : p ≠ n := by
      rintro rfl
      exact hold ((hmem p).mp hp)
    show (Function.update m.node n x' p).next = (m.node p).next
    rw [Function.update_of_ne hne]
  · show p ∈ l ↔ (Function.update m.node n x' p).place = .listed
    by_cases hp : p = n
    · subst hp
      rw [Function.update_self, hmem]
      exact iff_of_false hold hnew
    · rw [Function.update_of_ne hp, hmem]

/-- A node stays where it is. -/
theorem Intact.inside (h : Intact m) (hgood : x'.Good) (hplace : x'.place = (m.node n).place)
    (hnext : x'.next = (m.node n).next) : Intact (m.set n x') := by
  obtain ⟨l, hlinked, hmem⟩ := h.list
  refine ⟨h.good_of_update rfl hgood, l, ?_, fun p => ?_⟩
  · rw [next_of_update rfl hnext]
    exact hlinked
  · show p ∈ l ↔ (Function.update m.node n x' p).place = .listed
    by_cases hp : p = n
    · subst hp
      rw [Function.update_self, hplace, hmem]
    · rw [Function.update_of_ne hp, hmem]

/-- A node gets in front of the list. -/
theorem Intact.push (h : Intact m) (hgood : x'.Good) (hold : (m.node n).place ≠ .listed) (hnew : x'.place = .listed)
    (hnext : x'.next = (m.node n).next) (hhead : (m.node n).next = m.head) :
    Intact ({ m with head := some n }.set n x') := by
  obtain ⟨l, hlinked, hmem⟩ := h.list
  refine ⟨h.good_of_update rfl hgood, n :: l, ⟨rfl, ?_⟩, fun p => ?_⟩
  · have hsame : Memory.next ({ m with head := some n }.set n x') = m.next := next_of_update rfl hnext
    rw [hsame]
    show Linked m.next (m.node n).next l
    rw [hhead]
    exact hlinked
  · show p ∈ n :: l ↔ (Function.update m.node n x' p).place = .listed
    by_cases hp : p = n
    · subst hp
      rw [Function.update_self]
      exact iff_of_true List.mem_cons_self hnew
    · rw [Function.update_of_ne hp, List.mem_cons, hmem, or_iff_right hp]

/-- The first node gets out of the list. -/
theorem Intact.pop (h : Intact m) (hgood : x'.Good) (hhead : m.head = some n) (hnew : x'.place ≠ .listed)
    (hnext : x'.next = (m.node n).next) : Intact ({ m with head := (m.node n).next }.set n x') := by
  obtain ⟨l, hlinked, hmem⟩ := h.list
  have hnodup := hlinked.nodup
  rw [hhead] at hlinked
  obtain ⟨l', rfl, hrest⟩ := hlinked.eq_cons
  refine ⟨h.good_of_update rfl hgood, l', ?_, fun p => ?_⟩
  · have hsame : Memory.next ({ m with head := (m.node n).next }.set n x') = m.next := next_of_update rfl hnext
    rw [hsame]
    exact hrest
  · show p ∈ l' ↔ (Function.update m.node n x' p).place = .listed
    by_cases hp : p = n
    · subst hp
      rw [Function.update_self]
      exact iff_of_false (List.nodup_cons.mp hnodup).1 hnew
    · rw [Function.update_of_ne hp, ← hmem, List.mem_cons, or_iff_right hp]

omit [DecidableEq P] in
theorem Intact.place_head (h : Intact m) (hhead : m.head = some n) : (m.node n).place = .listed := by
  obtain ⟨l, hlinked, hmem⟩ := h.list
  rw [hhead] at hlinked
  obtain ⟨l', rfl, -⟩ := hlinked.eq_cons
  exact (hmem n).mp List.mem_cons_self

/-- What one thread has kept and what the others rely on, after a step of thread `t`. -/
def Kept (t : T) (m m' : Memory T P) (pc' : Pc P) : Prop := Intact m' ∧ pc'.At t m' ∧ ∀ t' ≠ t, Rely t' m m'

/-- A step that changes node `n` only. -/
theorem Pc.At.change (h : pc.At t m) (hnode : m'.node = Function.update m.node n x') (hm' : Intact m')
    (hpc : ∀ p, pc.node = some p → p = n) (hpc' : ∀ p, pc'.node = some p → p = n) (hcounted : pc'.Counted)
    (hknows : pc'.Knows t n x') (hrely : ∀ t' ≠ t, Node.Rely t' (m.node n) x') : Kept t m m' pc' := by
  refine ⟨hm', ⟨hcounted, fun p => ?_⟩, fun t' ht p => ?_⟩
  · rw [hnode]
    by_cases hp : p = n
    · subst hp
      rwa [Function.update_self]
    · rw [Function.update_of_ne hp]
      exact (h.2 p).elsewhere (fun heq => hp (hpc p heq)) fun heq => hp (hpc' p heq)
  · rw [hnode]
    by_cases hp : p = n
    · subst hp
      rw [Function.update_self]
      exact hrely t' ht
    · rw [Function.update_of_ne hp]
      exact .refl t' _

omit [DecidableEq P] in
/-- A step that changes nothing. -/
theorem Pc.At.goOn (h : pc.At t m) (hm : Intact m) (hcounted : pc'.Counted) (hnode : pc'.node = pc.node)
    (hholds : pc'.Holds ↔ pc.Holds) (hplace : pc'.place t = pc.place t)
    (hnext : ∀ n next, pc.node = some n → pc'.next = some next → (m.node n).next = next) : Kept t m m pc' :=
  ⟨hm, ⟨hcounted, fun n => (h.2 n).goOn hnode hholds hplace fun next => hnext n next⟩, fun t' _ => .refl t' m⟩

omit [DecidableEq P] in
/-- A thread with no node goes on with none. -/
theorem Pc.At.free (h : pc.At t m) (hpc : pc.node = none) (hcounted : pc'.Counted) (hpc' : pc'.node = none) :
    pc'.At t m := by
  refine ⟨hcounted, fun n => (h.2 n).elsewhere ?_ ?_⟩
  · rw [hpc]
    rintro ⟨⟩
  · rw [hpc']
    rintro ⟨⟩

omit [DecidableEq P] in
theorem Pc.At.restart (h : pc.At t m) (hm : Intact m) (hpc : pc.node = none) (hcounted : pc'.Counted)
    (hpc' : pc'.node = none) : Kept t m m pc' :=
  ⟨hm, h.free hpc hcounted hpc', fun t' _ => .refl t' m⟩

end Changes

/-! ## The count -/

section Count

variable {t : T} {x : Node T P}

/-- With fewer than `2 ^ 31 - 1` threads the count does not run into the flag. -/
def Small (x : Node T P) : Prop := x.holders.card < 2 ^ 31 - 1

theorem Place.base_le (p : Place T) : p.base ≤ 2 ^ 31 := by
  cases p with
  | unborn | owned => exact Nat.zero_le _
  | waiting | adding => exact le_rfl
  | offered | listed | taken => exact Nat.one_le_two_pow

/-- `Add` finds no one with a hold on the node. -/
theorem Node.Good.flag_alone (h : x.Good) (hplace : x.place.base = 0) (hrefs : x.refs = 0) :
    ({ x with refs := x.refs + addFlag, place := .adding t } : Node T P).Good := by
  have hcard : x.holders.card = 0 := by
    have hcount := h.refs
    rw [hrefs, hplace] at hcount
    exact (Nat.zero_add _).symm.trans hcount.symm
  have hempty := Finset.card_eq_zero.mp hcard
  refine ⟨?_, by rintro ⟨⟩, fun _ => hempty⟩
  show (x.refs + addFlag).toNat = 2 ^ 31 + x.holders.card
  rw [hrefs, hcard]
  rfl

/-- `Add` leaves the node to those with a hold on it. -/
theorem Node.Good.flag (h : x.Good) (hsmall : Small x) (hplace : x.place.base = 0) (hrefs : x.refs ≠ 0) :
    ({ x with refs := x.refs + addFlag, place := .waiting } : Node T P).Good := by
  have hcount := h.refs
  unfold Small at hsmall
  rw [hplace, Nat.zero_add] at hcount
  refine ⟨?_, fun _ hempty => hrefs ?_, ?_⟩
  · show (x.refs + addFlag).toNat = 2 ^ 31 + x.holders.card
    rw [BitVec.toNat_add, hcount, show addFlag.toNat = 2 ^ 31 from rfl]
    omega
  · have hzero : x.holders = ∅ := hempty
    rw [hzero, Finset.card_empty] at hcount
    exact BitVec.eq_of_toNat_eq hcount
  · rintro (h | ⟨t, h⟩)
    · cases h
    · cases h

/-- The failed exchange of `InnerAdd`, no one having got a hold on the node. -/
theorem Node.Good.unoffer_alone (h : x.Good) (hplace : x.place = .offered t) (hrefs : x.refs = 1) :
    ({ x with refs := x.refs + (addFlag - 1), place := .adding t } : Node T P).Good := by
  have hcount := h.refs
  rw [hrefs, hplace] at hcount
  have hcard : x.holders.card = 0 := by
    have hone : 1 = 1 + x.holders.card := hcount
    omega
  refine ⟨?_, by rintro ⟨⟩, fun _ => Finset.card_eq_zero.mp hcard⟩
  show (x.refs + (addFlag - 1)).toNat = 2 ^ 31 + x.holders.card
  rw [hrefs, hcard]
  rfl

theorem Node.Good.unoffer (h : x.Good) (hsmall : Small x) (hplace : x.place = .offered t) (hrefs : x.refs ≠ 1) :
    ({ x with refs := x.refs + (addFlag - 1), place := .waiting } : Node T P).Good := by
  have hcount : x.refs.toNat = 1 + x.holders.card := by
    rw [h.refs, hplace]
    rfl
  unfold Small at hsmall
  refine ⟨?_, fun _ hempty => hrefs ?_, ?_⟩
  · show (x.refs + (addFlag - 1)).toNat = 2 ^ 31 + x.holders.card
    rw [BitVec.toNat_add, hcount, show (addFlag - 1).toNat = 2 ^ 31 - 1 from rfl]
    omega
  · have hzero : x.holders = ∅ := hempty
    rw [hzero, Finset.card_empty] at hcount
    exact BitVec.eq_of_toNat_eq hcount
  · rintro (h | ⟨t, h⟩)
    · cases h
    · cases h

theorem refs_and_mask (refs : BitVec 32) : (refs &&& refsMask).toNat = refs.toNat % 2 ^ 31 := by
  rw [BitVec.toNat_and, show refsMask.toNat = 2 ^ 31 - 1 from rfl, Nat.and_two_pow_sub_one_eq_mod]

/-- `TryGet` gets no hold on a node that is being added. -/
theorem Node.Good.masked_of_alone (h : x.Good) (hplace : x.place = .unborn ∨ ∃ t, x.place = .adding t) :
    x.refs &&& refsMask = 0 := by
  apply BitVec.eq_of_toNat_eq
  rw [refs_and_mask, h.refs, h.alone hplace, Finset.card_empty]
  rcases hplace with hplace | ⟨t, hplace⟩
  · rw [hplace]
    rfl
  · rw [hplace, show (Place.adding t).base = 2 ^ 31 from rfl, Nat.add_zero, Nat.mod_self]
    rfl

variable [DecidableEq T]

theorem Node.Good.hold (h : x.Good) (hsmall : Small x) (ht : t ∉ x.holders) (hmask : x.refs &&& refsMask ≠ 0) :
    ({ x with refs := x.refs + 1, holders := insert t x.holders } : Node T P).Good := by
  have hcount := h.refs
  have hbase := x.place.base_le
  unfold Small at hsmall
  refine ⟨?_, fun _ => Finset.insert_ne_empty _ _, fun hplace => absurd (h.masked_of_alone hplace) hmask⟩
  show (x.refs + 1).toNat = x.place.base + (insert t x.holders).card
  rw [Finset.card_insert_of_notMem ht, BitVec.toNat_add, hcount, show (1 : BitVec 32).toNat = 1 from rfl]
  omega

/-- `TryGet` has taken the node, for the list and for itself. -/
theorem Node.Good.own (h : x.Good) (hsmall : Small x) (ht : t ∈ x.holders) (hplace : x.place = .taken t) :
    ({ x with refs := x.refs - 2, holders := x.holders.erase t, place := .owned t } : Node T P).Good := by
  have hcount : x.refs.toNat = 1 + x.holders.card := by
    rw [h.refs, hplace]
    rfl
  have hpos := Finset.card_pos.mpr ⟨t, ht⟩
  unfold Small at hsmall
  refine ⟨?_, by rintro ⟨⟩, ?_⟩
  · show (x.refs - 2).toNat = 0 + (x.holders.erase t).card
    rw [Finset.card_erase_of_mem ht, BitVec.toNat_sub, hcount, show (2 : BitVec 32).toNat = 2 from rfl]
    omega
  · rintro (h | ⟨t, h⟩)
    · cases h
    · cases h

/-- The last hold on a node that is to be added. -/
theorem Node.Good.last (h : x.Good) (hsmall : Small x) (ht : t ∈ x.holders) (hrefs : x.refs = addFlag + 1) :
    x.place = .waiting ∧
      ({ x with refs := x.refs - 1, holders := x.holders.erase t, place := .adding t } : Node T P).Good := by
  have hpos := Finset.card_pos.mpr ⟨t, ht⟩
  have hcount := h.refs
  rw [hrefs, show (addFlag + 1).toNat = 2 ^ 31 + 1 from rfl] at hcount
  unfold Small at hsmall
  have hplace : x.place = .waiting := by
    cases hp : x.place with
    | waiting => rfl
    | adding t' =>
        rw [h.alone (Or.inr ⟨t', hp⟩), Finset.card_empty] at hpos
        exact absurd hpos (Nat.lt_irrefl 0)
    | unborn | owned | offered | listed | taken =>
        rw [hp] at hcount
        simp only [Place.base] at hcount
        omega
  refine ⟨hplace, ?_⟩
  rw [hplace, show (Place.waiting : Place T).base = 2 ^ 31 from rfl] at hcount
  have hcard : (x.holders.erase t).card = 0 := by
    rw [Finset.card_erase_of_mem ht]
    omega
  refine ⟨?_, by rintro ⟨⟩, fun _ => Finset.card_eq_zero.mp hcard⟩
  show (x.refs - 1).toNat = 2 ^ 31 + (x.holders.erase t).card
  rw [hrefs, hcard]
  rfl

theorem Node.Good.drop (h : x.Good) (hsmall : Small x) (ht : t ∈ x.holders) (hrefs : x.refs ≠ addFlag + 1) :
    ({ x with refs := x.refs - 1, holders := x.holders.erase t } : Node T P).Good := by
  have hpos := Finset.card_pos.mpr ⟨t, ht⟩
  have hcount := h.refs
  have hbase := x.place.base_le
  unfold Small at hsmall
  refine ⟨?_, fun hplace hempty => hrefs ?_, fun hplace => ?_⟩
  · show (x.refs - 1).toNat = x.place.base + (x.holders.erase t).card
    rw [Finset.card_erase_of_mem ht, BitVec.toNat_sub, hcount, show (1 : BitVec 32).toNat = 1 from rfl]
    omega
  · have hcard : x.holders.card = 1 := by
      have hzero := Finset.card_eq_zero.mpr hempty
      rw [Finset.card_erase_of_mem ht] at hzero
      omega
    rw [hcard, show x.place = .waiting from hplace] at hcount
    exact BitVec.eq_of_toNat_eq hcount
  · rw [h.alone hplace] at ht
    exact absurd ht (Finset.notMem_empty t)

end Count

/-! ## The steps -/

section Steps

variable [DecidableEq T] [DecidableEq P] {m m' : Memory T P} {t t' : T} {pc pc' : Pc P} {n : P}

omit [DecidableEq T] [DecidableEq P] in
theorem loop_node (o : Option P) : (loop o).node = none := by
  cases o <;> rfl

omit [DecidableEq T] [DecidableEq P] in
theorem loop_counted (o : Option P) : (loop o).Counted := by
  cases o <;> exact trivial

omit [DecidableEq T] [DecidableEq P] in
theorem Rest.pc_node (rest : Rest P) : rest.pc.node = none := by
  cases rest with
  | done => rfl
  | tryGet currentHead => exact loop_node currentHead

omit [DecidableEq T] [DecidableEq P] in
theorem Rest.pc_counted (rest : Rest P) : rest.pc.Counted := by
  cases rest with
  | done => trivial
  | tryGet currentHead => exact loop_counted currentHead

omit [DecidableEq T] [DecidableEq P] in
theorem not_mem_of_node (h : pc.node = none) (p n : P) : pc.node = some p → p = n := by
  rw [h]
  rintro ⟨⟩

/-- **One access** keeps the list intact, and all that other threads rely on. -/
theorem Pc.At.access (h : pc.At t m) (hm : Intact m) (hsmall : ∀ n, Small (m.node n))
    (hs : FreeList.access t m pc = some (m', pc')) : Kept t m m' pc' := by
  cases pc with
  | idle got => cases hs
  | addFlag n =>
      have hplace := (h.2 n).place _ rfl rfl
      have hheld : t ∉ (m.node n).holders := fun hmem => ((h.2 n).held.mp hmem).2
      have hbase : (m.node n).place.base = 0 := by
        rw [hplace]
        rfl
      have hout : (m.node n).place ≠ .listed := by
        rw [hplace]
        rintro ⟨⟩
      have hhand : ∀ t' ≠ t, (m.node n).place.hand ≠ some t' := by
        intro t' ht heq
        rw [hplace] at heq
        exact ht (Option.some.inj heq).symm
      simp only [FreeList.access] at hs
      split at hs
      · next hrefs =>
        cases hs
        refine h.change rfl (hm.outside ((hm.good n).flag_alone hbase hrefs) hout (by rintro ⟨⟩))
          (fun p hp => (Option.some.inj hp).symm) (fun p hp => (Option.some.inj hp).symm) trivial ?_ fun t' ht => ?_
        · exact ⟨iff_of_false hheld fun hin => hin.2, fun p _ hp => Option.some.inj hp,
            fun _ => ⟨rfl, by rintro ⟨⟩⟩, by rintro _ _ ⟨⟩⟩
        · exact .moved (hhand t' ht) (fun heq => ht (Option.some.inj heq).symm) Iff.rfl fun _ => rfl
      · next hrefs =>
        cases hs
        refine h.change rfl (hm.outside ((hm.good n).flag (hsmall n) hbase hrefs) hout (by rintro ⟨⟩))
          (fun p hp => (Option.some.inj hp).symm) (by rintro _ ⟨⟩) trivial ?_ fun t' ht => ?_
        · exact .of_ne hheld (by rintro ⟨⟩) (by rintro ⟨⟩)
        · exact .moved (hhand t' ht) (by rintro ⟨⟩) Iff.rfl fun _ => rfl
  | innerLoad n rest =>
      cases hs
      exact h.goOn hm trivial rfl Iff.rfl rfl (by rintro _ _ _ ⟨⟩)
  | innerNext n currentHead rest =>
      cases hs
      have hplace := (h.2 n).place _ rfl rfl
      have hnone := (hm.good n).alone (Or.inr ⟨t, hplace⟩)
      have hgood : ({ m.node n with next := currentHead } : Node T P).Good :=
        ⟨(hm.good n).refs, (hm.good n).waiting, (hm.good n).alone⟩
      have hout : (m.node n).place ≠ .listed := by
        rw [hplace]
        rintro ⟨⟩
      refine h.change rfl (hm.outside hgood hout hout)
        (fun p hp => (Option.some.inj hp).symm) (fun p hp => (Option.some.inj hp).symm) trivial ?_ fun t' ht => ?_
      · exact ⟨(h.2 n).held, (h.2 n).place, (h.2 n).worker, fun _ _ hnext => Option.some.inj hnext⟩
      · -- no one else has a hold on the node
        have hother : (m.node n).place.hand ≠ some t' := by
          intro heq
          rw [hplace] at heq
          exact ht (Option.some.inj heq).symm
        refine .moved hother (fun heq => hother (Place.hand_of_worker heq)) Iff.rfl fun hmem => ?_
        rw [hnone] at hmem
        exact absurd hmem (Finset.notMem_empty t')
  | innerRefs n currentHead rest =>
      cases hs
      have hplace := (h.2 n).place _ rfl rfl
      have hnext := (h.2 n).next _ rfl rfl
      have hheld : t ∉ (m.node n).holders := fun hmem => ((h.2 n).held.mp hmem).2
      have hnone := (hm.good n).alone (Or.inr ⟨t, hplace⟩)
      have hgood : ({ m.node n with refs := 1, place := .offered t } : Node T P).Good := by
        refine ⟨?_, by rintro ⟨⟩, ?_⟩
        · show 1 = 1 + (m.node n).holders.card
          rw [hnone, Finset.card_empty]
        · rintro (h | ⟨t, h⟩)
          · cases h
          · cases h
      refine h.change rfl (hm.outside hgood (by rw [hplace]; rintro ⟨⟩) (by rintro ⟨⟩))
        (fun p hp => (Option.some.inj hp).symm) (fun p hp => (Option.some.inj hp).symm) trivial ?_ fun t' ht => ?_
      · exact ⟨iff_of_false hheld fun hin => hin.2, fun p _ hp => Option.some.inj hp,
          fun _ => ⟨rfl, by rintro ⟨⟩⟩, fun _ _ hn => hnext.trans (Option.some.inj hn)⟩
      · refine .moved (fun heq => ?_) (fun heq => ht (Option.some.inj heq).symm) Iff.rfl fun _ => rfl
        rw [hplace] at heq
        exact ht (Option.some.inj heq).symm
  | innerExchange n currentHead rest =>
      have hplace := (h.2 n).place _ rfl rfl
      have hnext := (h.2 n).next _ rfl rfl
      have hheld : t ∉ (m.node n).holders := fun hmem => ((h.2 n).held.mp hmem).2
      simp only [FreeList.access] at hs
      split at hs
      · next hhead =>
        cases hs
        have hgood : ({ m.node n with place := .listed } : Node T P).Good := by
          refine ⟨?_, by rintro ⟨⟩, ?_⟩
          · have hcount := (hm.good n).refs
            rwa [hplace] at hcount
          · rintro (h | ⟨t, h⟩)
            · cases h
            · cases h
        refine h.change rfl (hm.push hgood (by rw [hplace]; rintro ⟨⟩) rfl rfl (hnext.trans hhead.symm))
          (fun p hp => (Option.some.inj hp).symm) (not_mem_of_node rest.pc_node · n) rest.pc_counted ?_ fun t' ht => ?_
        · refine .of_ne hheld (by rintro ⟨⟩) ?_
          rw [rest.pc_node]
          rintro ⟨⟩
        · refine .moved (fun heq => ?_) (by rintro ⟨⟩) Iff.rfl fun _ => rfl
          rw [hplace] at heq
          exact ht (Option.some.inj heq).symm
      · cases hs
        exact h.goOn hm trivial rfl Iff.rfl rfl (by rintro _ _ _ ⟨⟩)
  | innerFlag n currentHead rest =>
      have hplace := (h.2 n).place _ rfl rfl
      have hheld : t ∉ (m.node n).holders := fun hmem => ((h.2 n).held.mp hmem).2
      have hout : (m.node n).place ≠ .listed := by
        rw [hplace]
        rintro ⟨⟩
      have hhand : ∀ t' ≠ t, (m.node n).place.hand ≠ some t' := by
        intro t' ht heq
        rw [hplace] at heq
        exact ht (Option.some.inj heq).symm
      simp only [FreeList.access] at hs
      split at hs
      · next hrefs =>
        cases hs
        refine h.change rfl (hm.outside ((hm.good n).unoffer_alone hplace hrefs) hout (by rintro ⟨⟩))
          (fun p hp => (Option.some.inj hp).symm) (fun p hp => (Option.some.inj hp).symm) trivial ?_ fun t' ht => ?_
        · exact ⟨iff_of_false hheld fun hin => hin.2, fun p _ hp => Option.some.inj hp,
            fun _ => ⟨rfl, by rintro ⟨⟩⟩, by rintro _ _ ⟨⟩⟩
        · exact .moved (hhand t' ht) (fun heq => ht (Option.some.inj heq).symm) Iff.rfl fun _ => rfl
      · next hrefs =>
        cases hs
        refine h.change rfl (hm.outside ((hm.good n).unoffer (hsmall n) hplace hrefs) hout (by rintro ⟨⟩))
          (fun p hp => (Option.some.inj hp).symm) (not_mem_of_node rest.pc_node · n) rest.pc_counted ?_ fun t' ht => ?_
        · refine .of_ne hheld (by rintro ⟨⟩) ?_
          rw [rest.pc_node]
          rintro ⟨⟩
        · exact .moved (hhand t' ht) (by rintro ⟨⟩) Iff.rfl fun _ => rfl
  | getLoad =>
      cases hs
      exact h.restart hm rfl (loop_counted _) (loop_node _)
  | getRefs n =>
      cases hs
      split
      · exact h.restart hm rfl trivial rfl
      · next hmask => exact h.restart hm rfl hmask rfl
  | getAddRef n refs =>
      have hheld : t ∉ (m.node n).holders := fun hmem => ((h.2 n).held.mp hmem).2
      have hworker : (m.node n).place.worker ≠ some t := fun hw => absurd ((h.2 n).worker hw).1 (by rintro ⟨⟩)
      simp only [FreeList.access] at hs
      split at hs
      · next hrefs =>
        cases hs
        have hmask : (m.node n).refs &&& refsMask ≠ 0 := by
          rw [hrefs]
          exact h.1
        have hgood := (hm.good n).hold (hsmall n) hheld hmask
        rw [hrefs] at hgood
        refine h.change rfl (hm.inside hgood rfl rfl) (by rintro _ ⟨⟩) (fun p hp => (Option.some.inj hp).symm) trivial
          ?_ fun t' ht => ?_
        · exact ⟨iff_of_true (Finset.mem_insert_self ..) ⟨rfl, trivial⟩, by rintro _ _ ⟨⟩, fun hw => absurd hw hworker,
            by rintro _ _ ⟨⟩⟩
        · refine .same rfl ?_ rfl
          rw [Finset.mem_insert, or_iff_right ht]
      · cases hs
        exact h.restart hm rfl trivial rfl
  | getNext n =>
      cases hs
      refine h.goOn hm trivial rfl Iff.rfl rfl fun p next hp hnext => ?_
      cases hp
      exact Option.some.inj hnext
  | getExchange n next =>
      have hnext := (h.2 n).next _ rfl rfl
      simp only [FreeList.access] at hs
      split at hs
      · next hhead =>
        cases hs
        have hplace := hm.place_head hhead
        have hgood : ({ m.node n with place := .taken t } : Node T P).Good := by
          refine ⟨?_, by rintro ⟨⟩, ?_⟩
          · have hcount := (hm.good n).refs
            rwa [hplace] at hcount
          · rintro (h | ⟨t, h⟩)
            · cases h
            · cases h
        have hpop := hm.pop hgood hhead (by rintro ⟨⟩) rfl
        rw [hnext] at hpop
        refine h.change rfl hpop (fun p hp => (Option.some.inj hp).symm) (fun p hp => (Option.some.inj hp).symm) trivial
          ?_ fun t' ht => ?_
        · exact ⟨(h.2 n).held, fun p _ hp => Option.some.inj hp, fun _ => ⟨rfl, by rintro ⟨⟩⟩, by rintro _ _ ⟨⟩⟩
        · refine .moved ?_ (fun heq => ht (Option.some.inj heq).symm) Iff.rfl fun _ => rfl
          rw [hplace]
          rintro ⟨⟩
      · cases hs
        exact h.goOn hm trivial rfl Iff.rfl rfl (by rintro _ _ _ ⟨⟩)
  | getTaken n =>
      cases hs
      have hplace := (h.2 n).place _ rfl rfl
      have hheld := (h.2 n).held.mpr ⟨rfl, trivial⟩
      have hgood := (hm.good n).own (hsmall n) hheld hplace
      refine h.change rfl (hm.outside hgood (by rw [hplace]; rintro ⟨⟩) (by rintro ⟨⟩))
        (fun p hp => (Option.some.inj hp).symm) (by rintro _ ⟨⟩) trivial ?_ fun t' ht => ?_
      · exact .of_ne (Finset.notMem_erase t _) (by rintro ⟨⟩) (by rintro ⟨⟩)
      · refine .moved (fun heq => ?_) (by rintro ⟨⟩) ?_ fun _ => rfl
        · rw [hplace] at heq
          exact ht (Option.some.inj heq).symm
        · rw [Finset.mem_erase, and_iff_right ht]
  | getDrop n currentHead =>
      have hheld := (h.2 n).held.mpr ⟨rfl, trivial⟩
      have hworker : (m.node n).place.worker ≠ some t := fun hw => ((h.2 n).worker hw).2 rfl
      have hmem : ∀ t' ≠ t, t' ∈ (m.node n).holders.erase t ↔ t' ∈ (m.node n).holders := by
        intro t' ht
        rw [Finset.mem_erase, and_iff_right ht]
      simp only [FreeList.access] at hs
      split at hs
      · next hrefs =>
        cases hs
        obtain ⟨hplace, hgood⟩ := (hm.good n).last (hsmall n) hheld hrefs
        refine h.change rfl (hm.outside hgood (by rw [hplace]; rintro ⟨⟩) (by rintro ⟨⟩))
          (fun p hp => (Option.some.inj hp).symm) (fun p hp => (Option.some.inj hp).symm) trivial ?_ fun t' ht => ?_
        · exact ⟨iff_of_false (Finset.notMem_erase t _) fun hin => hin.2, fun p _ hp => Option.some.inj hp,
            fun _ => ⟨rfl, by rintro ⟨⟩⟩, by rintro _ _ ⟨⟩⟩
        · refine .moved ?_ (fun heq => ht (Option.some.inj heq).symm) (hmem t' ht) fun _ => rfl
          rw [hplace]
          rintro ⟨⟩
      · next hrefs =>
        cases hs
        have hgood := (hm.good n).drop (hsmall n) hheld hrefs
        refine h.change rfl (hm.inside hgood rfl rfl) (fun p hp => (Option.some.inj hp).symm)
          (not_mem_of_node (loop_node _) · n) (loop_counted _) ?_ fun t' ht => .same rfl (hmem t' ht) rfl
        refine .of_ne (Finset.notMem_erase t _) hworker ?_
        rw [loop_node]
        rintro ⟨⟩

end Steps

/-! ## What an access leaves -/

section Effect

variable [DecidableEq T] [DecidableEq P] {m m' : Memory T P} {t t' : T} {pc pc' : Pc P} {n q : P}

/-- An access changes one node at most, and moves only the one the thread has in hand. -/
theorem access_effect (hs : access t m pc = some (m', pc')) :
    m'.node = m.node ∨ ∃ n x', m'.node = Function.update m.node n x' ∧
      (x'.place = (m.node n).place ∨ pc.node = some n ∧ x'.place ≠ .unborn) := by
  cases pc with
  | idle got => cases hs
  | innerLoad | getLoad | getRefs | getNext =>
      cases hs
      exact Or.inl rfl
  | innerNext n currentHead rest =>
      cases hs
      exact Or.inr ⟨n, _, rfl, Or.inl rfl⟩
  | innerRefs n currentHead rest =>
      cases hs
      exact Or.inr ⟨n, _, rfl, Or.inr ⟨rfl, by rintro ⟨⟩⟩⟩
  | getTaken n =>
      cases hs
      exact Or.inr ⟨n, _, rfl, Or.inr ⟨rfl, by rintro ⟨⟩⟩⟩
  | addFlag n | innerFlag n =>
      simp only [access] at hs
      split at hs <;>
      · cases hs
        exact Or.inr ⟨n, _, rfl, Or.inr ⟨rfl, by rintro ⟨⟩⟩⟩
  | innerExchange n | getExchange n =>
      simp only [access] at hs
      split at hs
      · cases hs
        exact Or.inr ⟨n, _, rfl, Or.inr ⟨rfl, by rintro ⟨⟩⟩⟩
      · cases hs
        exact Or.inl rfl
  | getAddRef n refs =>
      simp only [access] at hs
      split at hs
      · cases hs
        exact Or.inr ⟨n, _, rfl, Or.inl rfl⟩
      · cases hs
        exact Or.inl rfl
  | getDrop n currentHead =>
      simp only [access] at hs
      split at hs
      · cases hs
        exact Or.inr ⟨n, _, rfl, Or.inr ⟨rfl, by rintro ⟨⟩⟩⟩
      · cases hs
        exact Or.inr ⟨n, _, rfl, Or.inl rfl⟩

omit [DecidableEq T] [DecidableEq P] in
/-- A node a thread has anything to do with was given to a caller once. -/
theorem Pc.At.node_born (h : pc.At t m) (hm : Intact m) (hn : pc.node = some n) : (m.node n).place ≠ .unborn := by
  intro hunborn
  cases hp : pc.place t with
  | some p =>
      have hplace := (h.2 n).place p hn hp
      rw [hunborn] at hplace
      subst hplace
      cases pc <;> cases hp
  | none =>
      have hholds : pc.Holds := by
        cases pc <;> trivial
      have hmem := (h.2 n).held.mpr ⟨hn, hholds⟩
      rw [(hm.good n).alone (Or.inl hunborn)] at hmem
      exact Finset.notMem_empty t hmem

theorem Pc.At.unborn_iff (h : pc.At t m) (hm : Intact m) (hs : FreeList.access t m pc = some (m', pc')) (n : P) :
    (m'.node n).place = .unborn ↔ (m.node n).place = .unborn := by
  rcases access_effect hs with hnode | ⟨p, x', hnode, hx⟩
  · rw [hnode]
  · rw [hnode]
    by_cases hn : n = p
    · subst hn
      rw [Function.update_self]
      rcases hx with hplace | ⟨hpc, hplace⟩
      · rw [hplace]
      · exact iff_of_false hplace (h.node_born hm hpc)
    · rw [Function.update_of_ne hn]

/-- The other nodes of a thread stay with it. -/
theorem owned_of_access (hs : access t m pc = some (m', pc')) (hq : (m.node q).place = .owned t')
    (hne : pc.node ≠ some q) : (m'.node q).place = .owned t' := by
  rcases access_effect hs with hnode | ⟨p, x', hnode, hx⟩
  · rwa [hnode]
  · rw [hnode]
    by_cases hp : q = p
    · subst hp
      rw [Function.update_self]
      rcases hx with hplace | ⟨hpc, -⟩
      · rwa [hplace]
      · exact absurd hpc hne
    · rwa [Function.update_of_ne hp]

/-- The thread is in `Add` with node `n`, or has come out of it. -/
def Pc.InAdd (n : P) : Pc P → Prop
  | .idle _ => True
  | .addFlag n' | .innerLoad n' .done | .innerNext n' _ .done | .innerRefs n' _ .done | .innerExchange n' _ .done
  | .innerFlag n' _ .done => n' = n
  | _ => False

theorem Pc.InAdd.access (h : pc.InAdd n) (hs : FreeList.access t m pc = some (m', pc')) : pc'.InAdd n := by
  cases pc with
  | idle got => cases hs
  | addFlag n' =>
      simp only [FreeList.access] at hs
      split at hs
      · cases hs
        exact h
      · cases hs
        trivial
  | innerLoad n' rest | innerNext n' currentHead rest | innerRefs n' currentHead rest =>
      cases rest with
      | done =>
          cases hs
          exact h
      | tryGet => exact absurd h id
  | innerExchange n' currentHead rest | innerFlag n' currentHead rest =>
      cases rest with
      | done =>
          simp only [FreeList.access] at hs
          split at hs <;>
          · cases hs
            first | exact h | exact trivial
      | tryGet => exact absurd h id
  | getLoad | getRefs | getAddRef | getNext | getExchange | getTaken | getDrop => exact absurd h id

omit [DecidableEq P] in
theorem Pc.InAdd.node_ne (h : pc.InAdd n) (hq : q ≠ n) : pc.node ≠ some q := by
  intro hnode
  cases pc with
  | addFlag n' => exact hq ((Option.some.inj hnode).symm.trans h)
  | innerLoad n' rest | innerNext n' currentHead rest | innerRefs n' currentHead rest
  | innerExchange n' currentHead rest | innerFlag n' currentHead rest =>
      cases rest with
      | done => exact hq ((Option.some.inj hnode).symm.trans h)
      | tryGet => exact absurd h id
  | idle | getLoad | getRefs | getAddRef => cases hnode
  | getNext | getExchange | getTaken | getDrop => exact absurd h id

/-- `TryGet` returns the node it has just taken. -/
theorem eq_getTaken_of_access (hs : access t m pc = some (m', .idle (some n))) : pc = .getTaken n := by
  have hloop : ∀ o : Option P, loop o ≠ .idle (some n) := by
    intro o
    cases o <;> rintro ⟨⟩
  have hrest : ∀ rest : Rest P, rest.pc ≠ .idle (some n) := by
    intro rest
    cases rest with
    | done => rintro ⟨⟩
    | tryGet currentHead => exact hloop currentHead
  cases pc with
  | idle got => cases hs
  | innerLoad | innerNext | innerRefs | getNext => cases hs
  | getLoad => exact absurd (congrArg Prod.snd (Option.some.inj hs)) (hloop _)
  | getRefs =>
      have hpc := congrArg Prod.snd (Option.some.inj hs)
      dsimp only at hpc
      split at hpc <;> cases hpc
  | getTaken n' =>
      cases hs
      rfl
  | addFlag | getAddRef | getExchange =>
      simp only [access] at hs
      split at hs <;> cases hs
  | innerExchange | innerFlag | getDrop =>
      simp only [access] at hs
      split at hs
      · first | exact absurd (congrArg Prod.snd (Option.some.inj hs)) (hrest _) | cases hs
      · first | exact absurd (congrArg Prod.snd (Option.some.inj hs)) (hrest _)
              | exact absurd (congrArg Prod.snd (Option.some.inj hs)) (hloop _)
              | cases hs

end Effect

/-! ## Runs -/

section Runs

variable [DecidableEq T] [DecidableEq P] {m m' : Memory T P} {t : T} {pc pc' : Pc P} {s : State T P}

omit [DecidableEq T] in
/-- A node goes to a caller, from another one or for the first time. -/
theorem Pc.At.handOver {n : P} {t' : T} {got : Option P} (h : (Pc.idle got : Pc P).At t m) (hm : Intact m)
    (hplace : (m.node n).place = .unborn ∨ (m.node n).place = .owned t) :
    Kept t m (m.set n { m.node n with place := .owned t' }) (.idle got) := by
  have hheld : t ∉ (m.node n).holders := fun hmem => ((h.2 n).held.mp hmem).2
  have hgood : ({ m.node n with place := .owned t' } : Node T P).Good := by
    refine ⟨?_, by rintro ⟨⟩, ?_⟩
    · have hcount := (hm.good n).refs
      rcases hplace with hplace | hplace <;> rwa [hplace] at hcount
    · rintro (h | ⟨t, h⟩)
      · cases h
      · cases h
  have hout : (m.node n).place ≠ .listed := by
    rcases hplace with hplace | hplace <;> rw [hplace] <;> rintro ⟨⟩
  refine h.change rfl (hm.outside hgood hout (by rintro ⟨⟩)) (by rintro _ ⟨⟩) (by rintro _ ⟨⟩) trivial ?_
    fun t'' ht => ?_
  · exact .of_ne hheld (by rintro ⟨⟩) (by rintro ⟨⟩)
  · refine .moved ?_ (by rintro ⟨⟩) Iff.rfl fun _ => rfl
    rcases hplace with hplace | hplace <;> rw [hplace]
    · rintro ⟨⟩
    · exact fun heq => ht (Option.some.inj heq).symm

theorem Pc.At.step {a : Act T P} (h : pc.At t m) (hm : Intact m) (hsmall : ∀ n, Small (m.node n))
    (hs : ThreadStep t (m, pc) a (m', pc')) : Kept t m m' pc' := by
  cases hs with
  | fresh hplace => exact h.handOver hm (Or.inl hplace)
  | give hplace => exact h.handOver hm (Or.inr hplace)
  | @add _ n got hplace =>
      refine ⟨hm, ⟨trivial, fun p => ?_⟩, fun t' _ => .refl t' m⟩
      have hknows := h.2 p
      have hheld : t ∉ (m.node p).holders := fun hmem => (hknows.held.mp hmem).2
      have hworker : (m.node p).place.worker ≠ some t := fun hw => absurd (hknows.worker hw).1 (by rintro ⟨⟩)
      refine ⟨iff_of_false hheld fun hin => hin.2, fun q hp hq => ?_, fun hw => absurd hw hworker, by rintro _ _ ⟨⟩⟩
      cases hp
      exact hplace.trans (Option.some.inj hq)
  | tryGet => exact h.restart hm rfl trivial rfl
  | access hacc => exact h.access hm hsmall hacc

variable [Fintype T]

omit [DecidableEq T] [DecidableEq P] in
theorem small (hT : Fintype.card T < 2 ^ 31 - 1) (x : Node T P) : Small x :=
  (Finset.card_le_univ x.holders).trans_lt hT

/-- **Step.** -/
theorem relyGuarantee (hT : Fintype.card T < 2 ^ 31 - 1) :
    Interleaving.RelyGuarantee ThreadStep (fun _ _ => True) (Intact (T := T) (P := P)) (fun t m pc => pc.At t m)
      Rely where
  own := by
    intro s t a m' pc' _ hm hat hs
    obtain ⟨hm', hat', -⟩ := hat.step hm (fun n => small hT _) hs
    exact ⟨hm', hat'⟩
  guarantee := by
    intro s t t' a m' pc' _ hm hat hs ht
    obtain ⟨-, -, hrely⟩ := hat.step hm (fun n => small hT _) hs
    exact hrely t' ht
  stable := fun _ hat hrely => hat.stable hrely

omit [DecidableEq T] [DecidableEq P] [Fintype T] in
theorem Intact.fresh : Intact (start : State T P).memory where
  good := fun n => ⟨rfl, by rintro ⟨⟩, fun _ => rfl⟩
  list := ⟨[], rfl, fun n => iff_of_false List.not_mem_nil (by rintro ⟨⟩)⟩

omit [DecidableEq T] [DecidableEq P] [Fintype T] in
theorem At.fresh (t : T) : ((start : State T P).threads t).At t (start : State T P).memory :=
  ⟨trivial, fun n => .of_ne (Finset.notMem_empty t) (by rintro ⟨⟩) (by rintro ⟨⟩)⟩

omit [DecidableEq T] [DecidableEq P] [Fintype T] in
/-- With no call in progress no node is on its way. -/
theorem Intact.listed_iff (h : Intact m) (hidle : ∀ t, ∃ got, (Pc.idle got : Pc P).At t m) (n : P) :
    ((m.node n).place = .listed ↔ m.Added n) ∧ (m.node n).holders = ∅ := by
  have hempty : (m.node n).holders = ∅ := by
    rw [Finset.eq_empty_iff_forall_notMem]
    intro t hmem
    obtain ⟨got, hat⟩ := hidle t
    exact ((hat.2 n).held.mp hmem).2
  have hworker : ∀ t, (m.node n).place.worker ≠ some t := by
    intro t hw
    obtain ⟨got, hat⟩ := hidle t
    exact absurd ((hat.2 n).worker hw).1 (by rintro ⟨⟩)
  refine ⟨?_, hempty⟩
  unfold Memory.Added
  cases hplace : (m.node n).place with
  | unborn => exact iff_of_false (by rintro ⟨⟩) fun hadded => hadded.1 rfl
  | owned t => exact iff_of_false (by rintro ⟨⟩) fun hadded => by cases hadded.2
  | waiting => exact absurd hempty ((h.good n).waiting hplace)
  | listed => exact iff_of_true rfl ⟨by rintro ⟨⟩, rfl⟩
  | adding t | offered t | taken t => exact absurd (congrArg Place.worker hplace) (hworker t)

omit [DecidableEq T] [DecidableEq P] [Fintype T] in
theorem Intact.refs_of_listed {n : P} (h : Intact m) (hidle : ∀ t, ∃ got, (Pc.idle got : Pc P).At t m)
    (hn : (m.node n).place = .listed) : (m.node n).refs = 1 := by
  apply BitVec.eq_of_toNat_eq
  rw [(h.good n).refs, hn, (h.listed_iff hidle n).2, Finset.card_empty]
  rfl

/-- **Run.** With fewer than `2 ^ 31 - 1` threads the list never loses a node and never gives one away twice. -/
theorem safe_of_reaches (hT : Fintype.card T < 2 ^ 31 - 1) (h : Reaches Step (fun _ _ => True) start s) : Safe s := by
  obtain ⟨hm, hat⟩ := (relyGuarantee hT).invariant h Intact.fresh At.fresh
  refine ⟨?_, fun t n hpc => ?_, fun hquiet => ?_⟩
  · obtain ⟨l, hlinked, -⟩ := hm.list
    exact ⟨l, hlinked⟩
  · have htaken : ∀ t', s.threads t' = .getTaken n → (s.memory.node n).place = .taken t' := by
      intro t' hpc'
      have hknows := (hat t').2 n
      rw [hpc'] at hknows
      exact hknows.place _ rfl rfl
    refine ⟨by rw [htaken t hpc]; rfl, fun t' hpc' => ?_⟩
    have hboth := (htaken t' hpc').symm.trans (htaken t hpc)
    cases hboth
    rfl
  · obtain ⟨l, hlinked, hmem⟩ := hm.list
    have hidle : ∀ t, ∃ got, (Pc.idle got : Pc P).At t s.memory := by
      intro t
      obtain ⟨got, hpc⟩ := hquiet t
      exact ⟨got, hpc ▸ hat t⟩
    refine ⟨l, hlinked, fun n => ?_, fun n hn => hm.refs_of_listed hidle ((hmem n).mp hn)⟩
    rw [hmem, (hm.listed_iff hidle n).1]

/-- A `TryGet` has a hold on a node that another thread takes out and adds back; the node is added by the `TryGet`,
    when it drops the hold. -/
theorem safe_of_reaches_dropped : ∃ s : State Bool ℕ, s.memory.head = some 0 ∧ (s.memory.node 0).refs = 1 ∧
    Safe s := by
  have hrun : (Interleaving.runSchedule threadStep (fun _ _ => True)
      ([(true, .fresh 0), (true, .add 0)] ++ List.replicate 5 (true, .access) ++ [(false, .tryGet)] ++
        List.replicate 3 (false, .access) ++ [(true, .tryGet)] ++ List.replicate 6 (true, .access) ++
        [(true, .add 0), (true, .access)] ++ List.replicate 7 (false, .access)) (start : State Bool ℕ)).map
        (fun s => (s.memory.head, (s.memory.node 0).refs)) = some (some 0, 1) := by
    decide +kernel
  obtain ⟨s, hs, hends⟩ := Option.map_eq_some_iff.mp hrun
  obtain ⟨hhead, hrefs⟩ : s.memory.head = some 0 ∧ (s.memory.node 0).refs = 1 := by
    simpa only [Prod.mk.injEq] using hends
  exact ⟨s, hhead, hrefs, safe_of_reaches (by decide)
    (Interleaving.reaches_of_schedule (fun _ _ _ _ => ThreadStep.of_threadStep) hs)⟩

end Runs

end FreeList

end LockFreeStructures
