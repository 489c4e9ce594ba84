import Mathlib.Data.BitVec
import LockFreeStructures.Lib.Interleaving

/-!
# `Hash.Defs` — the sample maps between threads

`HashTable` and `LinearSearchMap` are one algorithm on two tables: in each round a loop looks at one slot, takes it if
its key is the one it looks for or if it is free, and goes on to the next round otherwise. They differ in which slot a
round looks at and in whether the rounds end. Every load, exchange and store of a slot is a step, a key of `0` is a free
slot, and the log says what was called and what returned.
-/

namespace LockFreeStructures

namespace Samples

/-! ## The tables -/

/-- The slots, and the one that round `i` of the loop for a key looks at; `none` after the last round. -/
structure Table (K : Type) where
  size : ℕ
  path : K → ℕ → Option ℕ
  path_lt : ∀ {k i s}, path k i = some s → s < size
  /-- the loop ends when it has been everywhere -/
  covers : ∀ {k i s}, path k i = none → s < size → ∃ j < i, path k j = some s

/-- `IntegerHash` -/
def integerHash (h : BitVec 32) : BitVec 32 :=
  let h := h ^^^ (h >>> 16)
  let h := h * 0x85ebca6b
  let h := h ^^^ (h >>> 13)
  let h := h * 0xc2b2ae35
  h ^^^ (h >>> 16)

/-- `idx` in round `i`, for `N = 2 ^ n`. -/
def idx (n : ℕ) (inKey : BitVec 32) : ℕ → ℕ
  | 0 => (integerHash inKey).toNat &&& (2 ^ n - 1)
  | i + 1 => (idx n inKey i + 1) % 2 ^ 32 &&& (2 ^ n - 1)

theorem idx_lt (n : ℕ) (inKey : BitVec 32) (i : ℕ) : idx n inKey i < 2 ^ n := by
  cases i with
  | zero => exact lt_of_le_of_lt Nat.and_le_right (Nat.sub_one_lt (Nat.two_pow_pos n).ne')
  | succ i => exact lt_of_le_of_lt Nat.and_le_right (Nat.sub_one_lt (Nat.two_pow_pos n).ne')

/-- `HashTable<N>` goes round its slots, from the one the key hashes to on, and never stops by itself. -/
def hashTable (n : ℕ) : Table (BitVec 32) where
  size := 2 ^ n
  path := fun inKey i => some (idx n inKey i)
  path_lt := by
    rintro k i s h
    cases h
    exact idx_lt n k i
  covers := by
    rintro k i s h
    cases h

/-- `LinearSearchMap<N>` looks at all its slots once. -/
def linearSearchMap (K : Type) (n : ℕ) : Table K where
  size := n
  path := fun _ i => if i < n then some i else none
  path_lt := by
    intro k i s h
    split at h
    · cases h
      assumption
    · cases h
  covers := by
    intro k i s h hs
    split at h
    · cases h
    · exact ⟨s, by omega, if_pos hs⟩

/-! ## Calls and returns -/

inductive Call (K V : Type) where
  | setItem (inKey : K) (inValue : V)
  | getItem (inKey : K)

/-- `SetItem` returns nothing: `stored` and `dropped` say if it found a slot. -/
inductive Result (V : Type) where
  | stored
  | dropped
  | got (value : V)
  deriving DecidableEq

inductive Event (T K V : Type) where
  | call (t : T) (c : Call K V)
  | returned (t : T) (c : Call K V) (r : Result V)

structure Memory (T K V : Type) where
  key : ℕ → K
  value : ℕ → V
  /-- the latest first -/
  log : List (Event T K V)

/-- Where a thread is: at the load of the key of the slot of round `i`, at the exchange of that slot's key, at the access
    to the value. -/
inductive Pc (K V : Type) where
  | idle
  | setLoad (inKey : K) (inValue : V) (i : ℕ)
  | setExchange (inKey : K) (inValue : V) (i s : ℕ)
  | setStore (inKey : K) (inValue : V) (s : ℕ)
  | getLoad (inKey : K) (i : ℕ)
  | getValue (inKey : K) (s : ℕ)

variable {T K V : Type}

namespace Call

def key : Call K V → K
  | setItem inKey _ => inKey
  | getItem inKey => inKey

/-- The assertions at the head of the call. -/
def Asserts [Zero K] [Zero V] : Call K V → Prop
  | setItem inKey inValue => inKey ≠ 0 ∧ inValue ≠ 0
  | getItem inKey => inKey ≠ 0

def enter : Call K V → Pc K V
  | setItem inKey inValue => .setLoad inKey inValue 0
  | getItem inKey => .getLoad inKey 0

end Call

/-- The call a thread is in. -/
def Pc.call : Pc K V → Option (Call K V)
  | .idle => none
  | .setLoad k v _ | .setExchange k v _ _ | .setStore k v _ => some (.setItem k v)
  | .getLoad k _ | .getValue k _ => some (.getItem k)

def Event.thread : Event T K V → T
  | .call t _ => t
  | .returned t _ _ => t

namespace Memory

def record (e : Event T K V) (m : Memory T K V) : Memory T K V := { m with log := e :: m.log }

/-- The call returns. -/
def finish (t : T) (c : Call K V) (r : Result V) (m : Memory T K V) : Memory T K V × Pc K V :=
  (m.record (.returned t c r), .idle)

def setKey (s : ℕ) (k : K) (m : Memory T K V) : Memory T K V := { m with key := Function.update m.key s k }

def setValue (s : ℕ) (v : V) (m : Memory T K V) : Memory T K V := { m with value := Function.update m.value s v }

end Memory

/-! ## The accesses -/

section Accesses

variable [Zero K] [Zero V] [DecidableEq K] (table : Table K) (t : T) (m : Memory T K V)

/-- The next access of thread `t`. -/
def access : Pc K V → Option (Memory T K V × Pc K V)
  | .idle => none
  | .setLoad k v i =>
      match table.path k i with
      | none => some (m.finish t (.setItem k v) .dropped)
      | some s =>
          if m.key s = k then some (m, .setStore k v s)
          else if m.key s = 0 then some (m, .setExchange k v i s)
          else some (m, .setLoad k v (i + 1))
  | .setExchange k v i s =>
      if m.key s = 0 then some (m.setKey s k, .setStore k v s)
      else if m.key s = k then some (m, .setStore k v s)
      else some (m, .setLoad k v (i + 1))
  | .setStore k v s => some ((m.setValue s v).finish t (.setItem k v) .stored)
  | .getLoad k i =>
      match table.path k i with
      | none => some (m.finish t (.getItem k) (.got 0))
      | some s =>
          if m.key s = k then some (m, .getValue k s)
          else if m.key s = 0 then some (m.finish t (.getItem k) (.got 0))
          else some (m, .getLoad k (i + 1))
  | .getValue k s => some (m.finish t (.getItem k) (.got (m.value s)))

inductive Act (K V : Type) where
  | call (c : Call K V)
  | access

inductive ThreadStep : Memory T K V × Pc K V → Act K V → Memory T K V × Pc K V → Prop
  | call {m : Memory T K V} {c : Call K V} (h : c.Asserts) :
      ThreadStep (m, .idle) (.call c) (m.record (.call t c), c.enter)
  | access {m : Memory T K V} {pc : Pc K V} {r : Memory T K V × Pc K V} (h : Samples.access table t m pc = some r) :
      ThreadStep (m, pc) .access r

end Accesses

abbrev State (T K V : Type) := Interleaving.State T (Memory T K V) (Pc K V)

abbrev Step [DecidableEq T] [Zero K] [Zero V] [DecidableEq K] (table : Table K) :
    State T K V → T × Act K V → State T K V → Prop :=
  Interleaving.Step (ThreadStep table)

/-- A new map: every slot free. -/
def start [Zero K] [Zero V] : State T K V := ⟨⟨fun _ => 0, fun _ => 0, []⟩, fun _ => .idle⟩

/-! ## The map that the threads see -/

section Spec

variable [DecidableEq K] [Zero V]

/-- A call on the map as a whole, a key without an item having the value `0`. -/
inductive Applies : Call K V → Result V → (K → V) → (K → V) → Prop
  | stored {k : K} {v : V} {f : K → V} : Applies (.setItem k v) .stored f (Function.update f k v)
  | dropped {k : K} {v : V} {f : K → V} : Applies (.setItem k v) .dropped f f
  | got {k : K} {f : K → V} : Applies (.getItem k) (.got (f k)) f f

/-- The calls of the log, one after another in the order they returned in, make the map `f`. -/
inductive Replays : List (Event T K V) → (K → V) → Prop
  | nil : Replays [] fun _ => 0
  | call {l : List (Event T K V)} {f : K → V} {t : T} {c : Call K V} (h : Replays l f) : Replays (.call t c :: l) f
  | returned {l : List (Event T K V)} {f f' : K → V} {t : T} {c : Call K V} {r : Result V} (h : Replays l f)
      (happly : Applies c r f f') : Replays (.returned t c r :: l) f'

/-- Thread `t` has been in one call after another, and now it is in `c`. -/
inductive InTurn (t : T) : List (Event T K V) → Option (Call K V) → Prop
  | nil : InTurn t [] none
  | other {e : Event T K V} {l : List (Event T K V)} {c : Option (Call K V)} (he : e.thread ≠ t) (h : InTurn t l c) :
      InTurn t (e :: l) c
  | call {l : List (Event T K V)} {c : Call K V} (h : InTurn t l none) : InTurn t (.call t c :: l) (some c)
  | returned {l : List (Event T K V)} {c : Call K V} {r : Result V} (h : InTurn t l (some c)) :
      InTurn t (.returned t c r :: l) none

/-- Some thread called `SetItem` with the key. -/
def Called (l : List (Event T K V)) (k : K) : Prop := ∃ t v, Event.call t (.setItem k v) ∈ l

/-- An item is dropped only when `SetItem` was called with as many other keys as there are slots. -/
def DropsWhenFull (size : ℕ) (l : List (Event T K V)) : Prop :=
  ∀ l₁ l₂ t k v, l = l₁ ++ .returned t (.setItem k v) .dropped :: l₂ →
    ∃ keys : Finset K, keys.card = size ∧ k ∉ keys ∧ ∀ k' ∈ keys, Called l₂ k'

structure Linearized (size : ℕ) (s : State T K V) : Prop where
  replays : ∃ f, Replays s.memory.log f
  inTurn : ∀ t, InTurn t s.memory.log (s.threads t).call
  drops : DropsWhenFull size s.memory.log

end Spec

end Samples

end LockFreeStructures
