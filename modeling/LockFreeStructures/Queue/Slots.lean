import LockFreeStructures.Queue.Block

/-!
# `Queue.Slots` — the memory of the blocks and what the loops over slots do to it

`Slots` is the part of a queue's state that loops over slots touch: the blocks and the record of what was
constructed and destroyed in them. `none` is undefined behaviour, as everywhere: an element moved out of a
slot that holds none, a null `Next` followed, an iterator read past its last item.
-/

namespace LockFreeStructures

structure Slots (P α : Type) where
  blocks : ℕ → HakleBlock P α
  events : List Event

namespace Slots

variable {P α : Type}

def modifyBlock (p : ℕ) (f : HakleBlock P α → HakleBlock P α) (m : Slots P α) : Slots P α :=
  { m with blocks := Function.update m.blocks p (f (m.blocks p)) }

/-- `ValueAllocatorTraits::Construct` on a slot of a block. -/
def construct (p i : ℕ) (a : α) (m : Slots P α) : Slots P α :=
  { m.modifyBlock p fun b => { b with elements := Function.update b.elements i (some a) } with
    events := m.events ++ [.constructed p i] }

/-- The element of a slot, moved out of it and destroyed. -/
def takeElement (p i : ℕ) (m : Slots P α) : Option (α × Slots P α) :=
  ((m.blocks p).elements i).map fun a =>
    (a, { m.modifyBlock p fun b => { b with elements := Function.update b.elements i none } with
      events := m.events ++ [.destroyed p i] })

/-- `ValueAllocatorTraits::Destroy` on a slot of a block. -/
def destroy (p i : ℕ) (m : Slots P α) : Option (Slots P α) := (m.takeElement p i).map Prod.snd

/-- `Destroy` on `n` slots of a block from `i` on. -/
def destroyRange (p : ℕ) : ℕ → ℕ → Slots P α → Option (Slots P α)
  | _, 0, m => some m
  | i, n + 1, m => do
      let m ← m.destroy p i
      destroyRange p (i + 1) n m

/-- Move `n` elements out of a block, from slot `i` on. -/
def takeRange (p : ℕ) : ℕ → ℕ → Slots P α → Option (List α × Slots P α)
  | _, 0, m => some ([], m)
  | i, n + 1, m => do
      let (a, m) ← m.takeElement p i
      let (as, m) ← takeRange p (i + 1) n m
      some (a :: as, m)

/-- Construct the items from slot `i` of block `p` on, `n` of them. Gives the slot after the last
    constructed one, whether a constructor threw, and the items left. -/
def fillBlock (p : ℕ) : ℕ → ℕ → List (Option α) → Slots P α →
    Option (ℕ × Outcome (List (Option α)) × Slots P α)
  | i, 0, items, m => some (i, .returned items, m)
  | _, _ + 1, [], _ => none
  | i, _ + 1, none :: _, m => some (i, .threw, m)
  | i, n + 1, some a :: items, m => fillBlock p (i + 1) n items (m.construct p i a)

/-- The filling loop up to slot `lastInner` of the tail block. Where it threw it gives the current block and
    slot. -/
def fillBlocks (blockSize : ℕ) (tailBlock : Option ℕ) (lastInner : ℕ) : ℕ → ℕ → ℕ → List (Option α) →
    Slots P α → Option (Outcome Unit × ℕ × ℕ × Slots P α)
  | 0, _, _, _, _ => none
  | fuel + 1, cur, start, items, m => do
      let endInner := if tailBlock = some cur then lastInner else blockSize - 1
      let (i, r, m) ← m.fillBlock cur start (endInner + 1 - start) items
      match r with
      | .threw => some (.threw, cur, i, m)
      | .returned items =>
          if tailBlock = some cur then some (.returned (), cur, i, m)
          else
            let n ← (m.blocks cur).next
            fillBlocks blockSize tailBlock lastInner fuel n 0 items m

/-- The elements from slot `start` of block `cur` to the slot before `lastInner` of block `last` are
    destroyed. -/
def destroyBlocks (blockSize last lastInner : ℕ) : ℕ → ℕ → ℕ → Slots P α → Option (Slots P α)
  | 0, _, _, _ => none
  | fuel + 1, cur, start, m => do
      let endInner := if cur = last then lastInner else blockSize
      let m ← m.destroyRange cur start (endInner - start)
      if cur = last then some m
      else
        let n ← (m.blocks cur).next
        destroyBlocks blockSize last lastInner fuel n 0 m

end Slots

end LockFreeStructures
