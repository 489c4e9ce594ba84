import LockFreeStructures.Common.Utility

/-!
# `Queue.Block` — blocks and their emptiness policies

A block holds `BlockSize` raw slots, a link to the block after it, and a policy that records which of its
slots are used up. Slots, flags and links of blocks are read by position and by pointer: pointers are
natural numbers, a slot that holds no constructed element is `none`.
-/

namespace LockFreeStructures

/-! ## Policies -/

/-- One flag a slot. Only the first `BlockSize` flags exist. -/
structure FlagsCheckPolicy where
  flags : ℕ → Bool

namespace FlagsCheckPolicy

def isEmpty (blockSize : ℕ) (p : FlagsCheckPolicy) : Bool := (List.range blockSize).all p.flags

def setEmpty (index : ℕ) (p : FlagsCheckPolicy) : FlagsCheckPolicy :=
  ⟨Function.update p.flags index true⟩

def setSomeEmpty (index count : ℕ) (p : FlagsCheckPolicy) : FlagsCheckPolicy :=
  ⟨fun i => if index ≤ i ∧ i < index + count then true else p.flags i⟩

def setAllEmpty (_p : FlagsCheckPolicy) : FlagsCheckPolicy := ⟨fun _ => true⟩

def reset (_p : FlagsCheckPolicy) : FlagsCheckPolicy := ⟨fun _ => false⟩

variable {blockSize : ℕ} {p : FlagsCheckPolicy}

theorem isEmpty_iff : p.isEmpty blockSize = true ↔ ∀ i < blockSize, p.flags i = true := by
  simp [isEmpty]

theorem flags_setSomeEmpty (index count i : ℕ) : (p.setSomeEmpty index count).flags i =
    if index ≤ i ∧ i < index + count then true else p.flags i := rfl

theorem setEmpty_eq_setSomeEmpty (index : ℕ) : p.setEmpty index = p.setSomeEmpty index 1 := by
  unfold setEmpty setSomeEmpty
  congr 1
  funext i
  by_cases h : i = index
  · subst h
    simp
  · rw [Function.update_of_ne h, if_neg (by omega)]

@[simp] theorem isEmpty_setAllEmpty : p.setAllEmpty.isEmpty blockSize = true := by
  simp [isEmpty_iff, setAllEmpty]

theorem isEmpty_reset (h : 0 < blockSize) : p.reset.isEmpty blockSize = false := by
  rw [← Bool.not_eq_true, isEmpty_iff]
  intro hall
  exact absurd (hall 0 h) (by simp [reset])

end FlagsCheckPolicy

/-- One counter of used up slots a block. The two setters answer whether the block is now empty. -/
structure CounterCheckPolicy where
  counter : ℕ

namespace CounterCheckPolicy

def isEmpty (blockSize : ℕ) (p : CounterCheckPolicy) : Bool := p.counter == blockSize

def setSomeEmpty (blockSize count : ℕ) (p : CounterCheckPolicy) : Bool × CounterCheckPolicy :=
  (p.counter + count == blockSize, ⟨p.counter + count⟩)

def setEmpty (blockSize : ℕ) (p : CounterCheckPolicy) : Bool × CounterCheckPolicy :=
  p.setSomeEmpty blockSize 1

def reset (_p : CounterCheckPolicy) : CounterCheckPolicy := ⟨0⟩

end CounterCheckPolicy

/-! ## Blocks -/

/-- `HakleBlock`: the slots, the policy and the `Next` link. -/
structure HakleBlock (P α : Type*) where
  policy : P
  elements : ℕ → Option α
  next : Option ℕ

/-- What a call came to: it returned a value or an exception left it. -/
inductive Outcome (R : Type) where
  | returned (r : R)
  | threw
  deriving DecidableEq, Repr

/-- What a call does to the slots of blocks and to the manager, in order. -/
inductive Event where
  /-- an element is constructed in a slot of a block -/
  | constructed (block slot : ℕ)
  /-- the element in a slot of a block is destroyed -/
  | destroyed (block slot : ℕ)
  /-- a block goes back to the block manager -/
  | returned (block : ℕ)
  deriving DecidableEq, Repr

/-- The elements a call destroyed, by block and slot. -/
def Event.isDestroyed : Event → Bool
  | .destroyed _ _ => true
  | _ => false

end LockFreeStructures
