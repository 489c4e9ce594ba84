import LockFreeStructures.FastQueue.Defs

/-!
# `FastQueue.Run` — calls, runs, and the list a queue is meant to be
-/

namespace LockFreeStructures

/-- The calls a queue is used through. A constructor argument `none` throws; `allocs` are the outcomes of
    the allocations the call makes. -/
inductive Call (α : Type) where
  | enqueue (mode : AllocMode) (item : Option α) (allocs : List Bool)
  | enqueueBulk (mode : AllocMode) (items : List (Option α)) (allocs : List Bool)
  | dequeue
  | dequeueBulk (maxCount : ℕ)

/-- What a call gives its caller. -/
inductive Result (α : Type) where
  | enqueued (o : Outcome Bool)
  | dequeued (a : Option α)
  | dequeuedBulk (as : List α)
  deriving DecidableEq, Repr

namespace Call

variable {α : Type}

/-- The items a call offers to the queue. -/
def items : Call α → List (Option α)
  | .enqueue _ item _ => [item]
  | .enqueueBulk _ items _ => items
  | .dequeue => []
  | .dequeueBulk _ => []

/-- The outcomes of the call's allocations. -/
def allocs : Call α → List Bool
  | .enqueue _ _ allocs => allocs
  | .enqueueBulk _ _ allocs => allocs
  | .dequeue => []
  | .dequeueBulk _ => []

/-- A bulk enqueue is of at least one item. -/
def Countable (c : Call α) : Prop :=
  match c with
  | .enqueueBulk _ items _ => items ≠ []
  | _ => True

/-- No constructor and no allocation of the call throws. -/
def NoThrow (c : Call α) : Prop := (∀ i ∈ c.items, i ≠ none) ∧ c.allocs = []

instance (c : Call α) : Decidable c.Countable :=
  match c with
  | .enqueueBulk _ items _ => inferInstanceAs (Decidable (items ≠ []))
  | .enqueue _ _ _ | .dequeue | .dequeueBulk _ => isTrue trivial

instance (c : Call α) : Decidable c.NoThrow := inferInstanceAs (Decidable (_ ∧ _))

end Call

/-! ## The abstract queue -/

/-- **The list a queue is meant to be.** An enqueue that returns true appends its items, one that returns
    false or throws appends nothing; a dequeue takes what there is from the front. -/
def FifoStep {α : Type} (l : List α) : Call α → Result α → List α → Prop
  | .enqueue _ item _, .enqueued (.returned true), l' => ∃ a, item = some a ∧ l' = l ++ [a]
  | .enqueueBulk _ items _, .enqueued (.returned true), l' => ∃ as, items = as.map some ∧ l' = l ++ as
  | .enqueue _ _ _, .enqueued _, l' => l' = l
  | .enqueueBulk _ _ _, .enqueued _, l' => l' = l
  | .dequeue, .dequeued r, l' => r = l.head? ∧ l' = l.tail
  | .dequeueBulk n, .dequeuedBulk as, l' => as = l.take n ∧ l' = l.drop n
  | _, _, _ => False

/-- The list through a whole run; `sizes` are the lengths after each call. -/
inductive FifoRun {α : Type} : List α → List (Call α) → List (Result α × ℕ) → List α → Prop
  | nil (l : List α) : FifoRun l [] [] l
  | cons {l l' l'' : List α} {c : Call α} {cs : List (Call α)} {r : Result α}
      {rs : List (Result α × ℕ)} (h : FifoStep l c r l') (ht : FifoRun l' cs rs l'') :
      FifoRun l (c :: cs) ((r, l'.length) :: rs) l''

/-! ## Runs of a `FastQueue` -/

namespace FastQueue

variable {α : Type} (cfg : Cfg)

/-- A call begins with its own allocations ahead and nothing done. -/
def begin (allocs : List Bool) (s : FastQueue α) : FastQueue α := { s with allocs := allocs, events := [] }

def exec (c : Call α) (s : FastQueue α) : Option (Result α × FastQueue α) :=
  match c with
  | .enqueue mode item allocs =>
      ((s.begin allocs).enqueue cfg mode item).map fun (r, s) => (.enqueued r, s)
  | .enqueueBulk mode items allocs =>
      ((s.begin allocs).enqueueBulk cfg mode items).map fun (r, s) => (.enqueued r, s)
  | .dequeue => ((s.begin []).dequeue cfg).map fun (r, s) => (.dequeued r, s)
  | .dequeueBulk maxCount => ((s.begin []).dequeueBulk cfg maxCount).map fun (r, s) => (.dequeuedBulk r, s)

/-- A run: the calls one after another, each with what it gave and `Size()` after it. -/
def run : List (Call α) → FastQueue α → Option (List (Result α × ℕ) × FastQueue α)
  | [], s => some ([], s)
  | c :: cs, s => do
      let (r, s) ← s.exec cfg c
      let n := s.size cfg
      let (rs, s) ← run cs s
      some ((r, n) :: rs, s)

end FastQueue

end LockFreeStructures
