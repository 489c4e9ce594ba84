import LockFreeStructures.HashTable.FiniteMap
import LockFreeStructures.Queue.Block

/-!
# `HashTable.FailedGrowth` — when the larger table cannot be made

`Flagged` is the table with its resize flag, one call after another, where making a larger table may fail. As long as
it does not, the flag is clear between calls and the table is the one of `HashTable.Defs`. A failure leaves the flag
set, and the count raised if it was by an exception: no later call makes a larger table, and once three quarters of
the newest one are counted for an add goes round its loop for ever.
-/

namespace LockFreeStructures

namespace HashTable

/-- What `CreateNewHashNode` comes to in a call that gets to it. -/
inductive Creation where
  | created
  | null
  | threw
  deriving DecidableEq

/-- A table and its `HashResizeInProgressFlag`. -/
structure Flagged (K V : Type) extends HashTable K V where
  resizing : Bool

namespace Flagged

variable {K V : Type}

inductive Call (K V : Type) where
  | get (k : K)
  | set (k : K) (v : V) (creation : Creation)
  | getOrAdd (k : K) (v : V) (creation : Creation)
  /-- with what `AllocateValueFunc` gives -/
  | getOrAddByFunc (k : K) (v : Option V) (creation : Creation)

inductive Reply (V : Type) where
  | got (v : Option V)
  | set (ok : Bool)
  | gotOrAdded (status : HashTableStatus) (v : Option V)
  deriving DecidableEq

def fresh (initialHashSize : ℕ) : Flagged K V := ⟨.fresh initialHashSize, false⟩

/-- How the part of `InnerAdd`'s loop that makes a new table ends: with the count to go on with, or not at all. -/
inductive Room where
  | count (newCount : ℕ)
  | refused
  | threw

section Operations

variable [DecidableEq K] (hash : K → ℕ) (w : ℕ)

def resize (creation : Creation) (newCount : ℕ) (t : Flagged K V) : Option (Room × Flagged K V) :=
  -- `test_and_set` sets the flag where it was clear
  if t.mainHash.capacity / 2 ≤ newCount ∧ t.resizing = false then
    if newCount < t.mainHash.capacity / 2 then some (.count newCount, { t with resizing := false })
    else do
      let newCapacity := t.mainHash.capacity * 2
      let newCount ← shiftCount w newCapacity (w + 1) newCount
      match creation with
      | .threw => some (.threw, { t with resizing := true })
      | .null => some (.refused, { t with resizing := true, entriesCount := t.entriesCount - 1 })
      | .created => some (.count newCount, { t with
          mainHash := createNewHashNode newCapacity, prev := t.mainHash :: t.prev, resizing := false })
  else some (.count newCount, t)

/-- The loop of `InnerAdd`. -/
def addLoop (creation : Creation) (k : K) (v : V) : ℕ → ℕ → Flagged K V → Option (Outcome Bool × Flagged K V)
  | 0, _, _ => none
  | fuel + 1, newCount, t => do
      let (room, t) ← t.resize w creation newCount
      match room with
      | .threw => some (.threw, t)
      | .refused => some (.returned false, t)
      | .count newCount =>
          if newCount < t.mainHash.capacity / 2 + t.mainHash.capacity / 4 then
            let (_, n) ← t.mainHash.addEntry (hash k) k v
            some (.returned true, { t with mainHash := n })
          else addLoop creation k v fuel newCount t

/-- `InnerAdd`. A second turn of its loop finds everything as the first has left it. -/
def innerAdd (creation : Creation) (k : K) (v : V) (t : Flagged K V) : Option (Outcome Bool × Flagged K V) :=
  addLoop hash w creation k v 1 t.entriesCount { t with entriesCount := t.entriesCount + 1 }

/-- `InnerGetEntry` -/
def innerGetEntry (k : K) (t : Flagged K V) : Option (Option ℕ × Flagged K V) :=
  (t.toHashTable.innerGetEntry hash k).map fun (i, t') => (i, ⟨t', t.resizing⟩)

/-- `Get` -/
def get (k : K) (t : Flagged K V) : Option (Reply V × Flagged K V) := do
  let (i, t) ← t.innerGetEntry hash k
  match i with
  | none => some (.got none, t)
  | some i => (t.mainHash.second i).map fun v => (.got (some v), t)

/-- `Set`. It may not throw: the program ends where it would. -/
def set (creation : Creation) (k : K) (v : V) (t : Flagged K V) : Option (Reply V × Flagged K V) := do
  let (i, t) ← t.innerGetEntry hash k
  match i with
  | some i => some (.set true, { t with mainHash := t.mainHash.storeSecond i v })
  | none => do
      let (r, t) ← t.innerAdd hash w creation k v
      match r with
      | .returned ok => some (.set ok, t)
      | .threw => none

/-- What `GetOrAdd` and `GetOrAddByFunc` make of `InnerAdd`. -/
def add (creation : Creation) (k : K) (v : V) (t : Flagged K V) : Option (Outcome (Reply V) × Flagged K V) := do
  let (r, t) ← t.innerAdd hash w creation k v
  match r with
  | .returned true => some (.returned (.gotOrAdded .addSuccess (some v)), t)
  | .returned false => some (.returned (.gotOrAdded .failed none), t)
  | .threw => some (.threw, t)

/-- `GetOrAdd` -/
def getOrAdd (creation : Creation) (k : K) (v : V) (t : Flagged K V) : Option (Outcome (Reply V) × Flagged K V) := do
  let (i, t) ← t.innerGetEntry hash k
  match i with
  | some i => (t.mainHash.second i).map fun v => (.returned (.gotOrAdded .getSuccess (some v)), t)
  | none => t.add hash w creation k v

/-- `GetOrAddByFunc` -/
def getOrAddByFunc (creation : Creation) (k : K) (v : Option V) (t : Flagged K V) :
    Option (Outcome (Reply V) × Flagged K V) := do
  let (i, t) ← t.innerGetEntry hash k
  match i with
  | some i => (t.mainHash.second i).map fun v => (.returned (.gotOrAdded .getSuccess (some v)), t)
  | none =>
      match v with
      | none => some (.returned (.gotOrAdded .failed none), t)
      | some v => t.add hash w creation k v

def exec (c : Call K V) (t : Flagged K V) : Option (Outcome (Reply V) × Flagged K V) :=
  match c with
  | .get k => (t.get hash k).map fun (r, t) => (.returned r, t)
  | .set k v creation => (t.set hash w creation k v).map fun (r, t) => (.returned r, t)
  | .getOrAdd k v creation => t.getOrAdd hash w creation k v
  | .getOrAddByFunc k v creation => t.getOrAddByFunc hash w creation k v

/-- The calls one after another, each with what it came to and `GetSize()` after it. -/
def run : List (Call K V) → Flagged K V → Option (List (Outcome (Reply V) × ℕ) × Flagged K V)
  | [], t => some ([], t)
  | c :: cs, t => do
      let (r, t) ← t.exec hash w c
      let n := t.getSize
      let (rs, t) ← run cs t
      some ((r, n) :: rs, t)

end Operations

/-! ## As long as tables can be made -/

variable [DecidableEq K] {hash : K → ℕ} {w : ℕ} {t t' : Flagged K V} {k : K} {v : V} {m : Map K V}
  {creation : Creation}

omit [DecidableEq K] in
/-- The flag plays no part: `InnerAdd` is that of `HashTable.Defs`. -/
theorem innerAdd_eq (hclear : t.resizing = false)
    (h : creation = .created ∨ t.entriesCount < t.mainHash.capacity / 2) :
    t.innerAdd hash w creation k v = (t.toHashTable.innerAdd hash w k v).map fun t' => (.returned true, ⟨t', false⟩) := by
  obtain ⟨t, resizing⟩ := t
  obtain rfl : resizing = false := hclear
  by_cases hfull : t.mainHash.capacity / 2 ≤ t.entriesCount
  · obtain rfl : creation = .created := h.resolve_right (Nat.not_lt_of_le hfull)
    have hlt : ¬ t.entriesCount < t.mainHash.capacity / 2 := Nat.not_lt_of_le hfull
    simp only [innerAdd, addLoop, resize, HashTable.innerAdd, HashTable.addLoop, HashTable.resize, hfull, hlt,
      and_self, if_true, if_false, Option.bind_eq_bind]
    cases shiftCount w (t.mainHash.capacity * 2) (w + 1) t.entriesCount with
    | none => rfl
    | some newCount =>
        simp only [Option.bind_some]
        split
        · cases (createNewHashNode (t.mainHash.capacity * 2) : HashNode K V).addEntry (hash k) k v <;> rfl
        · rfl
  · simp only [innerAdd, addLoop, resize, HashTable.innerAdd, HashTable.addLoop, HashTable.resize, hfull, false_and,
      if_false, Option.bind_eq_bind, Option.bind_some]
    split
    · cases t.mainHash.addEntry (hash k) k v <;> rfl
    · rfl

/-- A table that has always been able to grow stands for a map. -/
def Sound (hash : K → ℕ) (t : Flagged K V) : Prop := t.resizing = false → ∃ m, Represents hash t.toHashTable m

/-- The key is new, half of the newest table is counted for, and nobody is making a larger one. -/
structure Grows (hash : K → ℕ) (t : Flagged K V) (k : K) : Prop where
  absent : t.innerGetEntry hash k = some (none, t)
  clear : t.resizing = false
  full : t.mainHash.capacity / 2 ≤ t.entriesCount

/-- The search of a key, in a table that stands for a map. -/
theorem innerGetEntry_cases (h : Represents hash t.toHashTable m) (k : K) :
    (∃ i t' v, t.innerGetEntry hash k = some (some i, t') ∧ t'.resizing = t.resizing ∧
        Represents hash t'.toHashTable m ∧ i < t'.mainHash.capacity ∧ t'.mainHash.first i = some k ∧
        t'.mainHash.second i = some v) ∨
      t.innerGetEntry hash k = some (none, t) ∧ m.lookup k = none := by
  rcases h.innerGetEntry_cases k with ⟨i, t', v, hget, h', -, hi, hk, hv⟩ | ⟨hget, hlook, -⟩
  · exact Or.inl ⟨i, ⟨t', t.resizing⟩, v, by rw [innerGetEntry, hget, Option.map_some], rfl, h', hi, hk, hv⟩
  · exact Or.inr ⟨by rw [innerGetEntry, hget, Option.map_some], hlook⟩

/-- The count a call goes for is below the capacity, so the doubling of `NewCount` stops at once. -/
theorem shiftCount_eq (h : Represents hash t.toHashTable m) :
    shiftCount w (t.mainHash.capacity * 2) (w + 1) t.entriesCount = some t.entriesCount := by
  have hpos := h.capacity_pos
  have hhalf := h.half
  have hroom : ¬ t.mainHash.capacity * 2 / 2 ≤ t.entriesCount := by
    rw [Nat.mul_div_cancel _ Nat.two_pos]
    omega
  rw [shiftCount, if_neg hroom]

/-- **What is left of a growth that throws**: the flag and the count. -/
theorem Grows.innerAdd_threw (h : Grows hash t k) (hm : Represents hash t.toHashTable m) :
    t.innerAdd hash w .threw k v = some (.threw, { t with resizing := true, entriesCount := t.entriesCount + 1 }) := by
  have hlt : ¬ t.entriesCount < t.mainHash.capacity / 2 := Nat.not_lt_of_le h.full
  have hshift : shiftCount w (t.mainHash.capacity * 2) (w + 1) t.entriesCount = some t.entriesCount := shiftCount_eq hm
  simp only [innerAdd, addLoop, resize, h.full, h.clear, hlt, hshift, and_self, if_true, if_false,
    Option.bind_eq_bind, Option.bind_some]

/-- **Of one that gives null**: the flag. -/
theorem Grows.innerAdd_null (h : Grows hash t k) (hm : Represents hash t.toHashTable m) :
    t.innerAdd hash w .null k v = some (.returned false, { t with resizing := true }) := by
  have hlt : ¬ t.entriesCount < t.mainHash.capacity / 2 := Nat.not_lt_of_le h.full
  have hshift : shiftCount w (t.mainHash.capacity * 2) (w + 1) t.entriesCount = some t.entriesCount := shiftCount_eq hm
  simp only [innerAdd, addLoop, resize, h.full, h.clear, hlt, hshift, and_self, if_true, if_false,
    Option.bind_eq_bind, Option.bind_some, Nat.add_sub_cancel]

/-- An add to a table that stands for a map and is not being resized. -/
theorem innerAdd_cases (hm : Represents hash t.toHashTable m) (hclear : t.resizing = false)
    (hget : t.innerGetEntry hash k = some (none, t)) (hlook : m.lookup k = none) (w : ℕ) (creation : Creation) (v : V) :
    (∃ t', t.innerAdd hash w creation k v = some (.returned true, t') ∧ t'.resizing = false ∧
        Represents hash t'.toHashTable (m.insert k v)) ∨
      Grows hash t k ∧ creation ≠ .created ∧ ∃ o t', t.innerAdd hash w creation k v = some (o, t') ∧
        (o = .threw ∨ o = .returned false) ∧ t'.resizing = true := by
  by_cases hdone : creation = .created ∨ t.entriesCount < t.mainHash.capacity / 2
  · left
    obtain ⟨t₁, hadd, h₁⟩ := hm.innerAdd_eq w hlook v
    refine ⟨⟨t₁, false⟩, ?_, rfl, h₁⟩
    rw [innerAdd_eq hclear hdone, hadd, Option.map_some]
  · right
    obtain ⟨hne, hfull⟩ := not_or.mp hdone
    have hgrows : Grows hash t k := ⟨hget, hclear, Nat.le_of_not_lt hfull⟩
    refine ⟨hgrows, hne, ?_⟩
    cases creation with
    | created => exact absurd rfl hne
    | null => exact ⟨_, _, hgrows.innerAdd_null hm, Or.inr rfl, rfl⟩
    | threw => exact ⟨_, _, hgrows.innerAdd_threw hm, Or.inl rfl, rfl⟩

/-- In the call a larger table can be made, should it be needed. -/
def Call.Allocates : Call K V → Prop
  | .get _ => True
  | .set _ _ creation | .getOrAdd _ _ creation | .getOrAddByFunc _ _ creation => creation = .created

/-- A `GetOrAdd` or `GetOrAddByFunc` in which the larger table cannot be made. -/
def CreationFails (hash : K → ℕ) (t : Flagged K V) : Call K V → Prop
  | .get _ | .set _ _ _ => False
  | .getOrAdd k _ creation => Grows hash t k ∧ creation ≠ .created
  | .getOrAddByFunc k v creation => Grows hash t k ∧ v ≠ none ∧ creation ≠ .created

/-- The call reports that it failed. -/
def Failed : Outcome (Reply V) → Prop
  | .threw => True
  | .returned r => r = .gotOrAdded .failed none

/-- **Step**, of a table that is not being resized: it stays one, or the flag is left. -/
theorem exec_cases (hm : Represents hash t.toHashTable m) (hclear : t.resizing = false) (c : Call K V) :
    (∃ r t' m', t.exec hash w c = some (r, t') ∧ t'.resizing = false ∧ Represents hash t'.toHashTable m') ∨
      ¬ c.Allocates ∧ ∀ r t', t.exec hash w c = some (r, t') → t'.resizing = true := by
  cases c with
  | get k =>
      left
      rcases innerGetEntry_cases hm k with ⟨i, t', v, hget, hflag, h', -, -, hv⟩ | ⟨hget, -⟩
      · refine ⟨.returned (.got (some v)), t', m, ?_, hflag.trans hclear, h'⟩
        simp only [exec, get, hget, hv, Option.bind_eq_bind, Option.bind_some, Option.map_some]
      · refine ⟨.returned (.got none), t, m, ?_, hclear, hm⟩
        simp only [exec, get, hget, Option.bind_eq_bind, Option.bind_some, Option.map_some]
  | set k v creation =>
      rcases innerGetEntry_cases hm k with ⟨i, t', v', hget, hflag, h', hi, hk, hv⟩ | ⟨hget, hlook⟩
      · refine Or.inl ⟨.returned (.set true), { t' with mainHash := t'.mainHash.storeSecond i v }, _, ?_,
          hflag.trans hclear, h'.storeSecond hi hk v⟩
        simp only [exec, set, hget, Option.bind_eq_bind, Option.bind_some, Option.map_some]
      · rcases innerAdd_cases hm hclear hget hlook w creation v with ⟨t', hadd, hflag, h'⟩ | ⟨-, hne, o, t', hadd, -, hflag⟩
        · refine Or.inl ⟨.returned (.set true), t', _, ?_, hflag, h'⟩
          simp only [exec, set, hget, hadd, Option.bind_eq_bind, Option.bind_some, Option.map_some]
        · refine Or.inr ⟨hne, fun r t'' h => ?_⟩
          simp only [exec, set, hget, hadd, Option.bind_eq_bind, Option.bind_some, Option.map_eq_some_iff] at h
          obtain ⟨r', h, heq⟩ := h
          obtain ⟨-, rfl⟩ := Prod.mk.inj heq
          cases o with
          | threw => exact absurd h nofun
          | returned ok => exact (Option.some.inj h) ▸ hflag
  | getOrAdd k v creation =>
      rcases innerGetEntry_cases hm k with ⟨i, t', v', hget, hflag, h', -, -, hv⟩ | ⟨hget, hlook⟩
      · refine Or.inl ⟨.returned (.gotOrAdded .getSuccess (some v')), t', m, ?_, hflag.trans hclear, h'⟩
        simp only [exec, getOrAdd, hget, hv, Option.bind_eq_bind, Option.bind_some, Option.map_some]
      · rcases innerAdd_cases hm hclear hget hlook w creation v with ⟨t', hadd, hflag, h'⟩ |
          ⟨-, hne, o, t', hadd, ho, hflag⟩
        · refine Or.inl ⟨.returned (.gotOrAdded .addSuccess (some v)), t', _, ?_, hflag, h'⟩
          simp only [exec, getOrAdd, add, hget, hadd, Option.bind_eq_bind, Option.bind_some]
        · refine Or.inr ⟨hne, fun r t'' h => ?_⟩
          simp only [exec, getOrAdd, add, hget, hadd, Option.bind_eq_bind, Option.bind_some] at h
          rcases ho with rfl | rfl
          · exact (Prod.mk.inj (Option.some.inj h)).2 ▸ hflag
          · exact (Prod.mk.inj (Option.some.inj h)).2 ▸ hflag
  | getOrAddByFunc k v creation =>
      rcases innerGetEntry_cases hm k with ⟨i, t', v', hget, hflag, h', -, -, hv⟩ | ⟨hget, hlook⟩
      · refine Or.inl ⟨.returned (.gotOrAdded .getSuccess (some v')), t', m, ?_, hflag.trans hclear, h'⟩
        simp only [exec, getOrAddByFunc, hget, hv, Option.bind_eq_bind, Option.bind_some, Option.map_some]
      · cases v with
        | none =>
            refine Or.inl ⟨.returned (.gotOrAdded .failed none), t, m, ?_, hclear, hm⟩
            simp only [exec, getOrAddByFunc, hget, Option.bind_eq_bind, Option.bind_some]
        | some v =>
            rcases innerAdd_cases hm hclear hget hlook w creation v with ⟨t', hadd, hflag, h'⟩ |
              ⟨-, hne, o, t', hadd, ho, hflag⟩
            · refine Or.inl ⟨.returned (.gotOrAdded .addSuccess (some v)), t', _, ?_, hflag, h'⟩
              simp only [exec, getOrAddByFunc, add, hget, hadd, Option.bind_eq_bind, Option.bind_some]
            · refine Or.inr ⟨hne, fun r t'' h => ?_⟩
              simp only [exec, getOrAddByFunc, add, hget, hadd, Option.bind_eq_bind, Option.bind_some] at h
              rcases ho with rfl | rfl
              · exact (Prod.mk.inj (Option.some.inj h)).2 ▸ hflag
              · exact (Prod.mk.inj (Option.some.inj h)).2 ▸ hflag

omit [DecidableEq K] in
/-- The flag, once left, is never cleared: a call on such a table makes no larger one. -/
theorem innerAdd_of_resizing (h : t.resizing = true) {o : Outcome Bool}
    (hadd : t.innerAdd hash w creation k v = some (o, t')) :
    t'.resizing = true ∧ t'.mainHash.capacity = t.mainHash.capacity ∧ t'.entriesCount = t.entriesCount + 1 ∧
      t.entriesCount < t.mainHash.capacity / 2 + t.mainHash.capacity / 4 := by
  have hres : resize w creation t.entriesCount { t with entriesCount := t.entriesCount + 1 }
      = some (.count t.entriesCount, { t with entriesCount := t.entriesCount + 1 }) := by
    rw [resize, if_neg]
    exact fun hand => Bool.false_ne_true (hand.2.symm.trans h)
  simp only [innerAdd, addLoop, hres, Option.bind_eq_bind, Option.bind_some] at hadd
  split at hadd
  · next hroom =>
    obtain ⟨⟨i, n⟩, hentry, hadd⟩ := Option.bind_eq_some_iff.mp hadd
    obtain ⟨-, rfl⟩ := Prod.mk.inj (Option.some.inj hadd)
    obtain ⟨j, -, heq⟩ := Option.map_eq_some_iff.mp hentry
    obtain ⟨-, rfl⟩ := Prod.mk.inj heq
    exact ⟨h, rfl, rfl, hroom⟩
  · exact absurd hadd nofun

/-! ## Runs -/

theorem Sound.fresh (hash : K → ℕ) (e : ℕ) : Sound hash (Flagged.fresh (2 ^ e) : Flagged K V) :=
  fun _ => ⟨∅, .fresh hash e⟩

theorem innerGetEntry_resizing {o : Option ℕ} (h : t.innerGetEntry hash k = some (o, t')) :
    t'.resizing = t.resizing := by
  obtain ⟨⟨i, t₁⟩, -, heq⟩ := Option.map_eq_some_iff.mp h
  obtain ⟨-, rfl⟩ := Prod.mk.inj heq
  rfl

/-- A left flag stays. -/
theorem exec_resizing {r : Outcome (Reply V)} {c : Call K V} (h : t.resizing = true)
    (hexec : t.exec hash w c = some (r, t')) : t'.resizing = true := by
  have hadded : ∀ {t₁ : Flagged K V} {k v creation r}, t₁.resizing = true →
      t₁.add hash w creation k v = some (r, t') → t'.resizing = true := by
    intro t₁ k v creation r h₁ hadd
    obtain ⟨⟨o, t₂⟩, hadd, hend⟩ := Option.bind_eq_some_iff.mp hadd
    have h₂ := (innerAdd_of_resizing h₁ hadd).1
    rcases o with (_ | _) | _
    · exact (Prod.mk.inj (Option.some.inj hend)).2 ▸ h₂
    · exact (Prod.mk.inj (Option.some.inj hend)).2 ▸ h₂
    · exact (Prod.mk.inj (Option.some.inj hend)).2 ▸ h₂
  cases c with
  | get k =>
      obtain ⟨⟨r', t₁⟩, hget, heq⟩ := Option.map_eq_some_iff.mp hexec
      obtain ⟨-, rfl⟩ := Prod.mk.inj heq
      obtain ⟨⟨i, t₂⟩, hentry, hget⟩ := Option.bind_eq_some_iff.mp hget
      have h₂ := (innerGetEntry_resizing hentry).trans h
      cases i with
      | none => exact (Prod.mk.inj (Option.some.inj hget)).2 ▸ h₂
      | some i =>
          obtain ⟨v, -, heq⟩ := Option.map_eq_some_iff.mp hget
          exact (Prod.mk.inj heq).2 ▸ h₂
  | set k v creation =>
      obtain ⟨⟨r', t₁⟩, hset, heq⟩ := Option.map_eq_some_iff.mp hexec
      obtain ⟨-, rfl⟩ := Prod.mk.inj heq
      obtain ⟨⟨i, t₂⟩, hentry, hset⟩ := Option.bind_eq_some_iff.mp hset
      have h₂ := (innerGetEntry_resizing hentry).trans h
      cases i with
      | some i => exact (Prod.mk.inj (Option.some.inj hset)).2 ▸ h₂
      | none =>
          obtain ⟨⟨o, t₃⟩, hadd, hend⟩ := Option.bind_eq_some_iff.mp hset
          cases o with
          | threw => exact absurd hend nofun
          | returned ok => exact (Prod.mk.inj (Option.some.inj hend)).2 ▸ (innerAdd_of_resizing h₂ hadd).1
  | getOrAdd k v creation =>
      obtain ⟨⟨i, t₂⟩, hentry, hget⟩ := Option.bind_eq_some_iff.mp hexec
      have h₂ := (innerGetEntry_resizing hentry).trans h
      cases i with
      | none => exact hadded h₂ hget
      | some i =>
          obtain ⟨v, -, heq⟩ := Option.map_eq_some_iff.mp hget
          exact (Prod.mk.inj heq).2 ▸ h₂
  | getOrAddByFunc k v creation =>
      obtain ⟨⟨i, t₂⟩, hentry, hget⟩ := Option.bind_eq_some_iff.mp hexec
      have h₂ := (innerGetEntry_resizing hentry).trans h
      cases i with
      | some i =>
          obtain ⟨v, -, heq⟩ := Option.map_eq_some_iff.mp hget
          exact (Prod.mk.inj heq).2 ▸ h₂
      | none =>
          cases v with
          | none => exact (Prod.mk.inj (Option.some.inj hget)).2 ▸ h₂
          | some v => exact hadded h₂ hget

/-- **Run**, from any state that is sound: every state reached is. -/
theorem Sound.run {cs : List (Call K V)} {rs : List (Outcome (Reply V) × ℕ)} (h : Sound hash t)
    (hrun : t.run hash w cs = some (rs, t')) : Sound hash t' := by
  induction cs generalizing t rs with
  | nil =>
      obtain ⟨-, rfl⟩ := Prod.mk.inj (Option.some.inj hrun)
      exact h
  | cons c cs ih =>
      obtain ⟨⟨r, t₁⟩, hexec, hcalls⟩ := Option.bind_eq_some_iff.mp hrun
      obtain ⟨⟨rs₁, t₂⟩, hrest, heq⟩ := Option.bind_eq_some_iff.mp hcalls
      obtain ⟨-, rfl⟩ := Prod.mk.inj (Option.some.inj heq)
      refine ih ?_ hrest
      intro hclear₁
      cases hflag : t.resizing with
      | true => exact absurd hclear₁ (by rw [exec_resizing hflag hexec]; exact nofun)
      | false =>
          obtain ⟨m, hm⟩ := h hflag
          rcases exec_cases (w := w) hm hflag c with ⟨r', t₁', m', hexec', -, h'⟩ | ⟨-, hleft⟩
          · obtain ⟨-, rfl⟩ := Prod.mk.inj (Option.some.inj (hexec.symm.trans hexec'))
            exact ⟨m', h'⟩
          · exact absurd hclear₁ (by rw [hleft r t₁ hexec]; exact nofun)

/-- Calls that can make a larger table when they need one always end. -/
theorem run_of_allocates {cs : List (Call K V)} (hm : Represents hash t.toHashTable m) (hclear : t.resizing = false)
    (hall : ∀ c ∈ cs, c.Allocates) : ∃ rs t', t.run hash w cs = some (rs, t') := by
  induction cs generalizing t m with
  | nil => exact ⟨[], t, rfl⟩
  | cons c cs ih =>
      rcases exec_cases (w := w) hm hclear c with ⟨r, t₁, m₁, hexec, hclear₁, h₁⟩ | ⟨hnot, -⟩
      · obtain ⟨rs, t', hrest⟩ := ih h₁ hclear₁ fun c hc => hall c (List.mem_cons_of_mem _ hc)
        refine ⟨(r, t₁.getSize) :: rs, t', ?_⟩
        simp only [run, hexec, hrest, Option.bind_eq_bind, Option.bind_some]
      · exact absurd (hall c List.mem_cons_self) hnot

/-! ## After a failure -/

/-- **What a failed growth is meant to leave**: the state before the call, on which later calls that can allocate
    end with the same results. -/
structure Unharmed (hash : K → ℕ) (w : ℕ) (t t' : Flagged K V) : Prop where
  entriesCount : t'.entriesCount = t.entriesCount
  mainHash : t'.mainHash = t.mainHash
  prev : t'.prev = t.prev
  resizing : t'.resizing = t.resizing
  later : ∀ cs : List (Call K V), (∀ c ∈ cs, c.Allocates) →
    ∃ rs s s', t.run hash w cs = some (rs, s) ∧ t'.run hash w cs = some (rs, s')

/-- What the failing call itself does. -/
theorem CreationFails.exec (hm : Represents hash t.toHashTable m) {c : Call K V} (h : CreationFails hash t c) :
    ∃ r t', t.exec hash w c = some (r, t') ∧ Failed r ∧ t'.resizing = true ∧ t.resizing = false := by
  have hadded : ∀ {k v creation}, Grows hash t k → creation ≠ .created → ∃ r t',
      t.add hash w creation k v = some (r, t') ∧ Failed r ∧ t'.resizing = true ∧ t.resizing = false := by
    intro k v creation hgrows hne
    cases creation with
    | created => exact absurd rfl hne
    | null =>
        refine ⟨.returned (.gotOrAdded .failed none), { t with resizing := true }, ?_, rfl, rfl, hgrows.clear⟩
        simp only [add, hgrows.innerAdd_null hm, Option.bind_eq_bind, Option.bind_some]
    | threw =>
        refine ⟨.threw, { t with resizing := true, entriesCount := t.entriesCount + 1 }, ?_, trivial, rfl,
          hgrows.clear⟩
        simp only [add, hgrows.innerAdd_threw hm, Option.bind_eq_bind, Option.bind_some]
  cases c with
  | get k => exact h.elim
  | set k v creation => exact h.elim
  | getOrAdd k v creation =>
      obtain ⟨hgrows, hne⟩ := h
      obtain ⟨r, t', hadd, hrest⟩ := @hadded k v creation hgrows hne
      refine ⟨r, t', ?_, hrest⟩
      simp only [Flagged.exec, getOrAdd, hgrows.absent, Option.bind_eq_bind, Option.bind_some, hadd]
  | getOrAddByFunc k v creation =>
      obtain ⟨hgrows, hv, hne⟩ := h
      obtain ⟨v, rfl⟩ := Option.ne_none_iff_exists'.mp hv
      obtain ⟨r, t', hadd, hrest⟩ := @hadded k v creation hgrows hne
      refine ⟨r, t', ?_, hrest⟩
      simp only [Flagged.exec, getOrAddByFunc, hgrows.absent, Option.bind_eq_bind, Option.bind_some, hadd]

/-- **No failed growth leaves the table as it was.** In every state of every run, a call in which the larger table
    cannot be made reports that, and leaves the flag set. -/
theorem not_unharmed (hash : K → ℕ) (w e : ℕ) (cs : List (Call K V)) (rs : List (Outcome (Reply V) × ℕ))
    (t : Flagged K V) (c : Call K V) (hrun : (Flagged.fresh (2 ^ e)).run hash w cs = some (rs, t))
    (hfails : CreationFails hash t c) :
    ∃ r t', t.exec hash w c = some (r, t') ∧ Failed r ∧ ¬ Unharmed hash w t t' := by
  have hclear : t.resizing = false := by
    cases c with
    | get k => exact hfails.elim
    | set k v creation => exact hfails.elim
    | getOrAdd k v creation => exact hfails.1.clear
    | getOrAddByFunc k v creation => exact hfails.1.clear
  obtain ⟨m, hm⟩ := (Sound.fresh hash e).run hrun hclear
  obtain ⟨r, t', hexec, hfailed, hflag, -⟩ := hfails.exec hm
  refine ⟨r, t', hexec, hfailed, fun h => ?_⟩
  have hsame := h.resizing
  rw [hflag, hclear] at hsame
  exact Bool.false_ne_true hsame.symm

/-- A table of four slots, half of them counted for, and a third key for which eight cannot be allocated. -/
theorem not_unharmed_third : ∃ rs t, (Flagged.fresh (2 ^ 2)).run id 64
      [.getOrAdd 0 10 .created, .getOrAdd 1 11 .created] = some (rs, t) ∧
    ∃ r t', t.exec id 64 (.getOrAdd 2 12 .threw) = some (r, t') ∧ Failed r ∧ ¬ Unharmed id 64 t t' :=
  ⟨_, _, rfl, not_unharmed id 64 2 [.getOrAdd 0 10 .created, .getOrAdd 1 11 .created] _ _ (.getOrAdd 2 12 .threw) rfl
    ⟨⟨rfl, rfl, by decide⟩, nofun⟩⟩

/-- After it the add of a fourth key goes round its loop for ever. -/
theorem exists_not_unharmed : ¬ ∀ (hash : ℕ → ℕ) (w e : ℕ) (cs : List (Call ℕ ℕ))
    (rs : List (Outcome (Reply ℕ) × ℕ)) (t : Flagged ℕ ℕ) (c : Call ℕ ℕ) (r : Outcome (Reply ℕ)) (t' : Flagged ℕ ℕ),
    (Flagged.fresh (2 ^ e)).run hash w cs = some (rs, t) → CreationFails hash t c →
    t.exec hash w c = some (r, t') → Unharmed hash w t t' := by
  intro h
  have hall := h id 64 2 [.getOrAdd 0 10 .created, .getOrAdd 1 11 .created] _ _ (.getOrAdd 2 12 .threw) _ _ rfl
    ⟨⟨rfl, rfl, by decide⟩, nofun⟩ rfl
  obtain ⟨rs, s, s', -, hrun⟩ := hall.later [.getOrAdd 3 13 .created] (by simp [Call.Allocates])
  exact absurd hrun nofun

/-! ## Why it matters -/

theorem findEntry_eq_some {n : HashNode K V} {i : ℕ} (h : n.findEntry (hash k) k = some (some i)) :
    i < n.capacity ∧ n.first i = some k := by
  obtain ⟨j, hprobe, heq⟩ := Option.map_eq_some_iff.mp h
  split at heq
  · next hfirst =>
    obtain rfl := Option.some.inj heq
    refine ⟨?_, hfirst⟩
    have hpos : 0 < n.capacity := by
      by_contra hzero
      rw [HashNode.probeSlots, Nat.le_zero.mp (Nat.le_of_not_lt hzero)] at hprobe
      exact absurd hprobe (by rintro ⟨⟩)
    exact Nat.lt_of_le_pred hpos (probeMask_le hprobe)
  · exact absurd heq (by rintro ⟨⟩)

/-- A key that is in no table is not found. -/
theorem innerGetEntry_of_absent (habs : ∀ n ∈ t.mainHash :: t.prev, n.Absent k) {o : Option ℕ}
    (h : t.innerGetEntry hash k = some (o, t')) : o = none ∧ t' = t := by
  have hno : ∀ {n : HashNode K V} {i}, n ∈ t.mainHash :: t.prev → n.findEntry (hash k) k ≠ some (some i) := by
    intro n i hn hfind
    obtain ⟨hi, hfirst⟩ := findEntry_eq_some hfind
    exact habs n hn i hi hfirst
  have hprev : ∀ {prev : List (HashNode K V)} {v}, (∀ n ∈ prev, n ∈ t.mainHash :: t.prev) →
      findPrev hash k prev ≠ some (some v) := by
    intro prev v hsub
    induction prev with
    | nil => exact nofun
    | cons n prev ih =>
        intro hfind
        obtain ⟨o, hentry, hfind⟩ := Option.bind_eq_some_iff.mp hfind
        cases o with
        | some i => exact hno (hsub n List.mem_cons_self) hentry
        | none => exact ih (fun n hn => hsub n (List.mem_cons_of_mem _ hn)) hfind
  obtain ⟨⟨i, t₁⟩, hget, heq⟩ := Option.map_eq_some_iff.mp h
  obtain ⟨rfl, rfl⟩ := Prod.mk.inj heq
  obtain ⟨o, hentry, hget⟩ := Option.bind_eq_some_iff.mp hget
  cases o with
  | some i => exact absurd hentry (hno List.mem_cons_self)
  | none =>
      obtain ⟨o, hfind, hget⟩ := Option.bind_eq_some_iff.mp hget
      cases o with
      | some v => exact absurd hfind (hprev fun n hn => List.mem_cons_of_mem _ hn)
      | none =>
          obtain ⟨rfl, rfl⟩ := Prod.mk.inj (Option.some.inj hget)
          exact ⟨rfl, rfl⟩

omit [DecidableEq K] in
/-- There is always another key. -/
theorem exists_absent [Infinite K] (ns : List (HashNode K V)) : ∃ k, ∀ n ∈ ns, n.Absent k := by
  have hfinite : {k : K | ∃ n ∈ ns, ∃ i < n.capacity, n.first i = some k}.Finite := by
    have hone : ∀ n ∈ {n | n ∈ ns}, {k : K | ∃ i < n.capacity, n.first i = some k}.Finite := by
      intro n _
      refine ((Set.finite_Iio n.capacity).image fun i => n.first i).preimage (Option.some_injective K).injOn |>.subset ?_
      rintro k ⟨i, hi, hk⟩
      exact ⟨i, hi, hk⟩
    refine ((List.finite_toSet ns).biUnion hone).subset ?_
    rintro k ⟨n, hn, i, hi, hk⟩
    exact Set.mem_biUnion (x := n) hn ⟨i, hi, hk⟩
  obtain ⟨k, hk⟩ := hfinite.exists_notMem
  refine ⟨k, fun n hn i hi hfirst => hk ⟨n, hn, i, hi, hfirst⟩⟩

/-- **A table whose flag was left gets stuck.** Whatever keys come next, so many new ones in a row do not go in,
    although all memory asked for could be had. -/
theorem exists_run_eq_none [Infinite K] (v : V) (h : t.resizing = true) :
    ∃ cs : List (Call K V), (∀ c ∈ cs, c.Allocates) ∧ t.run hash w cs = none := by
  induction hleft : t.mainHash.capacity / 2 + t.mainHash.capacity / 4 - t.entriesCount using Nat.strong_induction_on
    generalizing t with
  | _ left ih =>
      obtain ⟨k, habs⟩ := exists_absent (t.mainHash :: t.prev)
      have hall : ∀ c ∈ [Call.getOrAdd k v .created], c.Allocates := by simp [Call.Allocates]
      cases hexec : t.exec hash w (.getOrAdd k v .created) with
      | none => exact ⟨[.getOrAdd k v .created], hall, by simp only [run, hexec, Option.bind_eq_bind, Option.bind_none]⟩
      | some res =>
          obtain ⟨r, t₁⟩ := res
          obtain ⟨⟨i, t₂⟩, hentry, hadded⟩ := Option.bind_eq_some_iff.mp hexec
          obtain ⟨rfl, rfl⟩ := innerGetEntry_of_absent habs hentry
          obtain ⟨⟨o, t₃⟩, hadd, hend⟩ := Option.bind_eq_some_iff.mp hadded
          obtain ⟨hflag, hcapacity, hcount, hroom⟩ := innerAdd_of_resizing h hadd
          obtain rfl : t₁ = t₃ := by
            rcases o with (_ | _) | _
            · exact (Prod.mk.inj (Option.some.inj hend)).2.symm
            · exact (Prod.mk.inj (Option.some.inj hend)).2.symm
            · exact (Prod.mk.inj (Option.some.inj hend)).2.symm
          obtain ⟨cs, hcs, hrun⟩ := ih _ (by rw [hcapacity, hcount, ← hleft]; omega) hflag rfl
          refine ⟨.getOrAdd k v .created :: cs, ?_, ?_⟩
          · rintro c (_ | ⟨_, hc⟩)
            · rfl
            · exact hcs c hc
          · simp only [run, hexec, hrun, Option.bind_eq_bind, Option.bind_some, Option.bind_none]

end Flagged

end HashTable

end LockFreeStructures
