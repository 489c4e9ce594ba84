import LockFreeStructures.Queue.BlockManager
import LockFreeStructures.Queue.FreeList

/-!
# `Queue.SharedManager` — the block manager between threads

`RequisitionBlock`, `ReturnBlock` and `ReturnBlocks` with every access to the pool's `Index` and to the free list a
step of its own. The blocks of the pool are those below `poolSize`, the ones allocated later those from there on. An
allocation is one step, and fails where the step says so.
-/

namespace LockFreeStructures

namespace SharedManager

structure Memory (T : Type) where
  poolSize : ℕ
  /-- the pool's `Index` -/
  poolIndex : ℕ
  /-- how many blocks came from the heap -/
  allocated : ℕ
  /-- the blocks' own links -/
  blockNext : ℕ → Option ℕ
  list : FreeList.Memory T ℕ

inductive Pc where
  | idle (returned : Option Requisition)
  | poolLoad (mode : AllocMode)
  | poolAdd (mode : AllocMode)
  | tryGet (mode : AllocMode) (pc : FreeList.Pc ℕ)
  | allocate
  | returnBlock (pc : FreeList.Pc ℕ)
  | readNext (p : ℕ)
  | returnBlocks (next : Option ℕ) (pc : FreeList.Pc ℕ)
  deriving DecidableEq

inductive Act (T : Type) where
  | requisitionBlock (mode : AllocMode)
  | returnBlock (p : ℕ)
  | returnBlocks (p : Option ℕ)
  /-- a caller links a block of its own -/
  | link (p : ℕ) (next : Option ℕ)
  | give (p : ℕ) (taker : T)
  /-- `ok`: an allocation would succeed -/
  | access (ok : Bool)

variable {T : Type}

namespace Memory

def blockCount (m : Memory T) : ℕ := m.poolSize + m.allocated

def place (m : Memory T) (p : ℕ) : FreeList.Place T := (m.list.node p).place

/-- Thread `t` has the block. -/
def own (t : T) (p : ℕ) (m : Memory T) : Memory T :=
  { m with list := m.list.set p { m.list.node p with place := .owned t } }

def fresh (poolSize : ℕ) : Memory T := ⟨poolSize, 0, 0, fun _ => none, FreeList.start.memory⟩

end Memory

/-- What comes after an access of `TryGet`. -/
def afterTryGet (mode : AllocMode) : FreeList.Pc ℕ → Pc
  | .idle (some p) => .idle (some (.block p))
  | .idle none =>
      match mode with
      | .cannotAlloc => .idle (some .null)
      | .canAlloc => .allocate
  | pc => .tryGet mode pc

def afterReturnBlock : FreeList.Pc ℕ → Pc
  | .idle _ => .idle none
  | pc => .returnBlock pc

/-- The loop of `ReturnBlocks`. -/
def loop : Option ℕ → Pc
  | none => .idle none
  | some p => .readNext p

def afterReturnBlocks (next : Option ℕ) : FreeList.Pc ℕ → Pc
  | .idle _ => loop next
  | pc => .returnBlocks next pc

section Accesses

variable [DecidableEq T]

/-- An access to the free list. -/
def onList (t : T) (m : Memory T) (pc : FreeList.Pc ℕ) (after : FreeList.Pc ℕ → Pc) : Option (Memory T × Pc) :=
  (FreeList.access t m.list pc).map fun r => ({ m with list := r.1 }, after r.2)

/-- The next access of thread `t`. -/
def access (t : T) (ok : Bool) (m : Memory T) : Pc → Option (Memory T × Pc)
  | .idle _ => none
  | .poolLoad mode => some (m, if m.poolSize ≤ m.poolIndex then .tryGet mode .getLoad else .poolAdd mode)
  | .poolAdd mode =>
      if m.poolIndex < m.poolSize then
        some ({ m with poolIndex := m.poolIndex + 1 }.own t m.poolIndex, .idle (some (.block m.poolIndex)))
      else some ({ m with poolIndex := m.poolIndex + 1 }, .tryGet mode .getLoad)
  | .tryGet mode pc => onList t m pc (afterTryGet mode)
  | .allocate =>
      if ok then
        some ({ m with allocated := m.allocated + 1 }.own t m.blockCount, .idle (some (.block m.blockCount)))
      else some (m, .idle (some .threw))
  | .returnBlock pc => onList t m pc afterReturnBlock
  | .readNext p => some (m, .returnBlocks (m.blockNext p) (.addFlag p))
  | .returnBlocks next pc => onList t m pc (afterReturnBlocks next)

/-- A thread returns and links only blocks it has. -/
inductive ThreadStep (t : T) : Memory T × Pc → Act T → Memory T × Pc → Prop
  | requisitionBlock {m : Memory T} {mode : AllocMode} {r : Option Requisition} :
      ThreadStep t (m, .idle r) (.requisitionBlock mode) (m, .poolLoad mode)
  | returnBlock {m : Memory T} {p : ℕ} {r : Option Requisition} (h : m.place p = .owned t) :
      ThreadStep t (m, .idle r) (.returnBlock p) (m, .returnBlock (.addFlag p))
  | returnBlocks {m : Memory T} {p : Option ℕ} {l : List ℕ} {r : Option Requisition} (hl : Linked m.blockNext p l)
      (h : ∀ q ∈ l, m.place q = .owned t) : ThreadStep t (m, .idle r) (.returnBlocks p) (m, loop p)
  | link {m : Memory T} {p : ℕ} {next : Option ℕ} {r : Option Requisition} (h : m.place p = .owned t) :
      ThreadStep t (m, .idle r) (.link p next)
        ({ m with blockNext := Function.update m.blockNext p next }, .idle r)
  | give {m : Memory T} {p : ℕ} {t' : T} {r : Option Requisition} (h : m.place p = .owned t) :
      ThreadStep t (m, .idle r) (.give p t') (m.own t' p, .idle r)
  | access {m : Memory T} {pc : Pc} {ok : Bool} {r : Memory T × Pc} (h : SharedManager.access t ok m pc = some r) :
      ThreadStep t (m, pc) (.access ok) r

/-- The step of thread `t`, computed, for the calls that are about one block. -/
def threadStep (t : T) : Act T → Memory T × Pc → Option (Memory T × Pc)
  | .requisitionBlock mode, (m, .idle _) => some (m, .poolLoad mode)
  | .returnBlock p, (m, .idle _) => if m.list.isOwned t p then some (m, .returnBlock (.addFlag p)) else none
  | .link p next, (m, .idle r) =>
      if m.list.isOwned t p then some ({ m with blockNext := Function.update m.blockNext p next }, .idle r) else none
  | .give p t', (m, .idle r) => if m.list.isOwned t p then some (m.own t' p, .idle r) else none
  | .access ok, (m, pc) => SharedManager.access t ok m pc
  | _, _ => none

theorem ThreadStep.of_threadStep {t : T} {a : Act T} {r r' : Memory T × Pc} (h : threadStep t a r = some r') :
    ThreadStep t r a r' := by
  unfold threadStep at h
  split at h
  · cases h
    exact .requisitionBlock
  · split at h
    · next howned =>
      cases h
      exact .returnBlock (FreeList.Memory.isOwned_iff.mp howned)
    · cases h
  · split at h
    · next howned =>
      cases h
      exact .link (FreeList.Memory.isOwned_iff.mp howned)
    · cases h
  · split at h
    · next howned =>
      cases h
      exact .give (FreeList.Memory.isOwned_iff.mp howned)
    · cases h
  · exact .access h
  · cases h

end Accesses

abbrev State (T : Type) := Interleaving.State T (Memory T) Pc

def start (poolSize : ℕ) : State T := ⟨.fresh poolSize, fun _ => .idle none⟩

abbrev Step [DecidableEq T] : State T → T × Act T → State T → Prop := Interleaving.Step ThreadStep

/-- The pool has handed the block out, or it was allocated. -/
def Memory.Issued (m : Memory T) (p : ℕ) : Prop := p < min m.poolIndex m.poolSize ∨ m.poolSize ≤ p ∧ p < m.blockCount

structure Safe [DecidableEq T] (s : State T) : Prop where
  acyclic : ∃ l, Linked s.memory.list.next s.memory.list.head l
  /-- a block is given to a caller only if none has it -/
  given : ∀ t ok s' p, Step s (t, .access ok) s' → s'.threads t = .idle (some (.block p)) →
    (s.memory.place p).owner = none ∧ s'.memory.place p = .owned t
  /-- between calls the blocks no caller has are those in the list -/
  quiet : (∀ t, ∃ r, s.threads t = .idle r) →
    ∃ l, Linked s.memory.list.next s.memory.list.head l ∧
      (∀ p, p ∈ l ↔ s.memory.Issued p ∧ (s.memory.place p).owner = none) ∧
      ∀ p ∈ l, (s.memory.list.node p).refs = 1

/-! ## The invariant -/

section Invariant

variable {m m' : Memory T} {t t' : T} {pc pc' : Pc} {p : ℕ} {head : Option ℕ} {l : List ℕ}

structure Inv (m : Memory T) : Prop where
  intact : FreeList.Intact m.list
  unborn : ∀ p, m.place p = .unborn ↔ ¬ m.Issued p

/-- The chain from `head` on is `l`, and all its blocks are thread `t`'s. -/
structure Owns (t : T) (m : Memory T) (head : Option ℕ) (l : List ℕ) : Prop where
  linked : Linked m.blockNext head l
  owned : ∀ q ∈ l, m.place q = .owned t

namespace Pc

/-- Where the thread is in the free list. -/
def free : Pc → FreeList.Pc ℕ
  | .tryGet _ pc | .returnBlock pc | .returnBlocks _ pc => pc
  | _ => .idle none

/-- The blocks `ReturnBlocks` has yet to return. -/
def Chain (t : T) (m : Memory T) : Pc → Prop
  | .readNext p => ∃ l, Owns t m (some p) l
  | .returnBlocks next pc => ∃ n l, pc.InAdd n ∧ n ∉ l ∧ Owns t m next l
  | _ => True

structure At (t : T) (m : Memory T) (pc : Pc) : Prop where
  free : pc.free.At t m.list
  chain : pc.Chain t m

end Pc

/-- What the other threads do: as in the list, and they link only blocks of their own. -/
structure Rely (t : T) (m m' : Memory T) : Prop where
  list : FreeList.Rely t m.list m'.list
  links : ∀ p, m.place p = .owned t → m'.blockNext p = m.blockNext p

theorem Rely.refl (t : T) (m : Memory T) : Rely t m m := ⟨.refl t m.list, fun _ _ => rfl⟩

theorem Rely.owned (h : Rely t m m') (hp : m.place p = .owned t) : m'.place p = .owned t :=
  ((h.list p).place (congrArg FreeList.Place.hand hp)).trans hp

theorem Owns.stable (h : Owns t m head l) (hrely : Rely t m m') : Owns t m' head l where
  linked := h.linked.congr fun q hq => hrely.links q (h.owned q hq)
  owned := fun q hq => hrely.owned (h.owned q hq)

theorem Pc.At.stable (h : pc.At t m) (hrely : Rely t m m') : pc.At t m' := by
  refine ⟨h.free.stable hrely.list, ?_⟩
  have hchain := h.chain
  cases pc with
  | readNext p =>
      obtain ⟨l, hl⟩ := hchain
      exact ⟨l, hl.stable hrely⟩
  | returnBlocks next pc =>
      obtain ⟨n, l, hadd, hn, hl⟩ := hchain
      exact ⟨n, l, hadd, hn, hl.stable hrely⟩
  | idle | poolLoad | poolAdd | tryGet | allocate | returnBlock => trivial

/-- A thread with no node of the list in hand goes on with none. -/
theorem Pc.At.switch (h : pc.At t m) (hpc : pc.free.node = none) (hpc' : pc'.free = .idle none)
    (hchain : pc'.Chain t m) : pc'.At t m := by
  refine ⟨?_, hchain⟩
  rw [hpc']
  exact h.free.free hpc trivial rfl

theorem Owns.loop (h : Owns t m head l) : (loop head).Chain t m := by
  cases head with
  | none => trivial
  | some p => exact ⟨l, h⟩

theorem loop_free (head : Option ℕ) : (loop head).free = .idle none := by
  cases head <;> rfl

/-- After an access of the list, as long as the thread knows where it is in it. -/
theorem at_after {after : FreeList.Pc ℕ → Pc} {fpc : FreeList.Pc ℕ} (h : fpc.At t m.list)
    (hafter : ((after fpc).free = fpc ∨ fpc.node = none ∧ (after fpc).free = .idle none) ∧ (after fpc).Chain t m) :
    (after fpc).At t m := by
  refine ⟨?_, hafter.2⟩
  rcases hafter.1 with hfree | ⟨hnode, hfree⟩
  · rwa [hfree]
  · rw [hfree]
    exact h.free hnode trivial rfl

theorem afterTryGet_free (mode : AllocMode) (fpc : FreeList.Pc ℕ) :
    ((afterTryGet mode fpc).free = fpc ∨ fpc.node = none ∧ (afterTryGet mode fpc).free = .idle none) ∧
      (afterTryGet mode fpc).Chain t m := by
  cases fpc with
  | idle got =>
      cases got with
      | some p => exact ⟨Or.inr ⟨rfl, rfl⟩, trivial⟩
      | none =>
          cases mode with
          | canAlloc => exact ⟨Or.inr ⟨rfl, rfl⟩, trivial⟩
          | cannotAlloc => exact ⟨Or.inr ⟨rfl, rfl⟩, trivial⟩
  | _ => exact ⟨Or.inl rfl, trivial⟩

theorem afterReturnBlock_free (fpc : FreeList.Pc ℕ) :
    ((afterReturnBlock fpc).free = fpc ∨ fpc.node = none ∧ (afterReturnBlock fpc).free = .idle none) ∧
      (afterReturnBlock fpc).Chain t m := by
  cases fpc with
  | idle got => exact ⟨Or.inr ⟨rfl, rfl⟩, trivial⟩
  | _ => exact ⟨Or.inl rfl, trivial⟩

theorem afterReturnBlocks_free (fpc : FreeList.Pc ℕ) {n : ℕ} (hadd : fpc.InAdd n) (hn : n ∉ l) (hl : Owns t m head l) :
    ((afterReturnBlocks head fpc).free = fpc ∨ fpc.node = none ∧ (afterReturnBlocks head fpc).free = .idle none) ∧
      (afterReturnBlocks head fpc).Chain t m := by
  cases fpc with
  | idle got => exact ⟨Or.inr ⟨rfl, loop_free head⟩, hl.loop⟩
  | _ => exact ⟨Or.inl rfl, ⟨n, l, hadd, hn, hl⟩⟩

end Invariant

/-! ## The steps -/

section Steps

variable [DecidableEq T] {m m' : Memory T} {t t' : T} {pc pc' : Pc} {p : ℕ}

/-- What one thread has kept and what the others rely on, after a step of thread `t`. -/
def Kept (t : T) (m m' : Memory T) (pc' : Pc) : Prop := Inv m' ∧ pc'.At t m' ∧ ∀ t' ≠ t, Rely t' m m'

omit [DecidableEq T] in
/-- A block goes to a caller, from another one or for the first time. -/
theorem Pc.At.own {t' : T} {r r' : Option Requisition} (h : (Pc.idle r).At t m) (hm : Inv m)
    (hplace : m.place p = .unborn ∨ m.place p = .owned t) (hlist : m'.list = m.list)
    (hissued : ∀ q, m'.Issued q ↔ m.Issued q ∨ q = p) (hnext : m'.blockNext = m.blockNext) :
    Kept t m (m'.own t' p) (.idle r') := by
  have hkept : FreeList.Kept t m.list (m'.own t' p).list (.idle none) := by
    unfold Memory.own
    rw [hlist]
    exact h.free.handOver hm.intact hplace
  obtain ⟨hintact, hfree, hrely⟩ := hkept
  refine ⟨⟨hintact, fun q => ?_⟩, ⟨hfree, trivial⟩, fun t'' ht => ⟨hrely t'' ht, fun q _ => congrFun hnext q⟩⟩
  show (Function.update m'.list.node p _ q).place = .unborn ↔ ¬ m'.Issued q
  rw [hissued, hlist]
  by_cases hq : q = p
  · subst hq
    rw [Function.update_self]
    exact iff_of_false (by rintro ⟨⟩) fun hnot => hnot (Or.inr rfl)
  · rw [Function.update_of_ne hq, or_iff_left hq]
    exact hm.unborn q

/-- An access to the list. -/
theorem Inv.onList {fpc fpc' : FreeList.Pc ℕ} {list : FreeList.Memory T ℕ} (hm : Inv m) (h : fpc.At t m.list)
    (hsmall : ∀ n, FreeList.Small (m.list.node n)) (hs : FreeList.access t m.list fpc = some (list, fpc')) :
    Inv { m with list := list } ∧ fpc'.At t list ∧ ∀ t' ≠ t, Rely t' m { m with list := list } := by
  obtain ⟨hintact, hat, hrely⟩ := h.access hm.intact hsmall hs
  refine ⟨⟨hintact, fun q => ?_⟩, hat, fun t' ht => ⟨hrely t' ht, fun _ _ => rfl⟩⟩
  exact (h.unborn_iff hm.intact hs q).trans (hm.unborn q)

theorem exists_of_onList {fpc : FreeList.Pc ℕ} {after : FreeList.Pc ℕ → Pc}
    (hs : onList t m fpc after = some (m', pc')) :
    ∃ list fpc', FreeList.access t m.list fpc = some (list, fpc') ∧ m' = { m with list := list } ∧
      pc' = after fpc' := by
  obtain ⟨⟨list, fpc'⟩, hacc, heq⟩ := Option.map_eq_some_iff.mp hs
  cases heq
  exact ⟨list, fpc', hacc, rfl, rfl⟩

/-- **One access.** -/
theorem Pc.At.access {ok : Bool} (h : pc.At t m) (hm : Inv m) (hsmall : ∀ n, FreeList.Small (m.list.node n))
    (hs : SharedManager.access t ok m pc = some (m', pc')) : Kept t m m' pc' := by
  cases pc with
  | idle r => cases hs
  | poolLoad mode =>
      cases hs
      refine ⟨hm, ?_, fun t' _ => .refl t' m⟩
      split
      · exact ⟨h.free.free rfl trivial rfl, trivial⟩
      · exact ⟨h.free, trivial⟩
  | poolAdd mode =>
      simp only [SharedManager.access] at hs
      split at hs
      · next hlt =>
        cases hs
        have hidle : (Pc.idle none).At t m := ⟨h.free, trivial⟩
        refine hidle.own hm (Or.inl ?_) rfl (fun q => ?_) rfl
        · rw [hm.unborn]
          unfold Memory.Issued
          omega
        · show (q < min (m.poolIndex + 1) m.poolSize ∨ _) ↔ (q < min m.poolIndex m.poolSize ∨ _) ∨ q = m.poolIndex
          simp only [Memory.blockCount]
          omega
      · next hge =>
        cases hs
        refine ⟨⟨hm.intact, fun q => (hm.unborn q).trans (not_congr ?_)⟩, ⟨h.free.free rfl trivial rfl, trivial⟩,
          fun t' _ => ⟨.refl t' m.list, fun _ _ => rfl⟩⟩
        show q < min m.poolIndex m.poolSize ∨ _ ↔ q < min (m.poolIndex + 1) m.poolSize ∨ _
        simp only [Memory.blockCount]
        omega
  | tryGet mode fpc =>
      obtain ⟨list, fpc', hacc, rfl, rfl⟩ := exists_of_onList hs
      obtain ⟨hm', hat, hrely⟩ := hm.onList h.free hsmall hacc
      exact ⟨hm', at_after hat (afterTryGet_free mode fpc'), hrely⟩
  | allocate =>
      simp only [SharedManager.access] at hs
      split at hs
      · cases hs
        have hidle : (Pc.idle none).At t m := ⟨h.free, trivial⟩
        refine hidle.own hm (Or.inl ?_) rfl (fun q => ?_) rfl
        · rw [hm.unborn]
          unfold Memory.Issued Memory.blockCount
          omega
        · simp only [Memory.Issued, Memory.blockCount]
          omega
      · cases hs
        exact ⟨hm, ⟨h.free, trivial⟩, fun t' _ => .refl t' m⟩
  | returnBlock fpc =>
      obtain ⟨list, fpc', hacc, rfl, rfl⟩ := exists_of_onList hs
      obtain ⟨hm', hat, hrely⟩ := hm.onList h.free hsmall hacc
      exact ⟨hm', at_after hat (afterReturnBlock_free fpc'), hrely⟩
  | readNext p =>
      cases hs
      obtain ⟨l, hl⟩ := h.chain
      obtain ⟨l', rfl, hrest⟩ := hl.linked.eq_cons
      have howned := hl.owned p List.mem_cons_self
      have hnot := (List.nodup_cons.mp hl.linked.nodup).1
      have hadd : FreeList.ThreadStep t (m.list, .idle none) (.add p) (m.list, .addFlag p) := .add howned
      obtain ⟨-, hat, -⟩ := h.free.step hm.intact hsmall hadd
      exact ⟨hm, ⟨hat, p, l', rfl, hnot, hrest, fun q hq => hl.owned q (List.mem_cons_of_mem p hq)⟩,
        fun t' _ => .refl t' m⟩
  | returnBlocks next fpc =>
      obtain ⟨list, fpc', hacc, rfl, rfl⟩ := exists_of_onList hs
      obtain ⟨hm', hat, hrely⟩ := hm.onList h.free hsmall hacc
      obtain ⟨n, l, hadd, hn, hl⟩ := h.chain
      have hl' : Owns t { m with list := list } next l := by
        refine ⟨hl.linked, fun q hq => ?_⟩
        apply FreeList.owned_of_access hacc (hl.owned q hq)
        apply hadd.node_ne
        rintro rfl
        exact hn hq
      exact ⟨hm', at_after hat (afterReturnBlocks_free fpc' (hadd.access hacc) hn hl'), hrely⟩

theorem Pc.At.step {a : Act T} (h : pc.At t m) (hm : Inv m) (hsmall : ∀ n, FreeList.Small (m.list.node n))
    (hs : ThreadStep t (m, pc) a (m', pc')) : Kept t m m' pc' := by
  cases hs with
  | requisitionBlock => exact ⟨hm, ⟨h.free, trivial⟩, fun t' _ => .refl t' m⟩
  | returnBlock hplace =>
      have hadd : FreeList.ThreadStep t (m.list, .idle none) (.add _) (m.list, .addFlag _) := .add hplace
      obtain ⟨-, hat, -⟩ := h.free.step hm.intact hsmall hadd
      exact ⟨hm, ⟨hat, trivial⟩, fun t' _ => .refl t' m⟩
  | returnBlocks hl hplace =>
      have hchain := Owns.loop ⟨hl, hplace⟩
      exact ⟨hm, h.switch rfl (loop_free _) hchain, fun t' _ => .refl t' m⟩
  | @link _ p next r hplace =>
      refine ⟨⟨hm.intact, hm.unborn⟩, ⟨h.free, trivial⟩, fun t' ht => ⟨.refl t' m.list, fun q hq => ?_⟩⟩
      refine Function.update_of_ne ?_ _ _
      rintro rfl
      have howner := hq.symm.trans hplace
      cases howner
      exact ht rfl
  | give hplace =>
      refine h.own hm (Or.inr hplace) rfl (fun q => (or_iff_left_of_imp ?_).symm) rfl
      rintro rfl
      by_contra hnot
      rw [(hm.unborn q).mpr hnot] at hplace
      cases hplace
  | access hacc => exact h.access hm hsmall hacc

end Steps

/-! ## Runs -/

section Runs

variable [DecidableEq T] [Fintype T] {s : State T} {poolSize : ℕ}

/-- **Step.** -/
theorem relyGuarantee (hT : Fintype.card T < 2 ^ 31 - 1) :
    Interleaving.RelyGuarantee ThreadStep (fun _ _ => True) (Inv (T := T)) (fun t m pc => pc.At t m) Rely where
  own := by
    intro s t a m' pc' _ hm hat hs
    obtain ⟨hm', hat', -⟩ := hat.step hm (fun n => FreeList.small hT _) hs
    exact ⟨hm', hat'⟩
  guarantee := by
    intro s t t' a m' pc' _ hm hat hs ht
    obtain ⟨-, -, hrely⟩ := hat.step hm (fun n => FreeList.small hT _) hs
    exact hrely t' ht
  stable := fun _ hat hrely => hat.stable hrely

omit [DecidableEq T] [Fintype T] in
theorem Inv.fresh : Inv (Memory.fresh poolSize : Memory T) := by
  refine ⟨FreeList.Intact.fresh, fun p => iff_of_true rfl ?_⟩
  unfold Memory.Issued Memory.blockCount Memory.fresh
  dsimp only
  omega

omit [Fintype T] in
/-- **A block given was no one's**, and is the caller's from then on. -/
theorem Pc.At.given {m m' : Memory T} {t : T} {ok : Bool} {pc : Pc} {p : ℕ} (h : pc.At t m) (hm : Inv m)
    (hs : SharedManager.access t ok m pc = some (m', .idle (some (.block p)))) :
    (m.place p).owner = none ∧ m'.place p = .owned t := by
  have hown : ∀ {m : Memory T} {q : ℕ}, (m.own t q).place q = .owned t := by
    intro m q
    unfold Memory.own Memory.place FreeList.Memory.set
    dsimp only
    rw [Function.update_self]
  cases pc with
  | idle r => cases hs
  | poolLoad mode =>
      simp only [SharedManager.access] at hs
      split at hs <;> cases hs
  | poolAdd mode =>
      simp only [SharedManager.access] at hs
      split at hs
      · cases hs
        refine ⟨?_, hown⟩
        rw [(hm.unborn m.poolIndex).mpr]
        · rfl
        · unfold Memory.Issued
          omega
      · cases hs
  | tryGet mode fpc =>
      obtain ⟨list, fpc', hacc, rfl, heq⟩ := exists_of_onList hs
      have hfpc' : fpc' = .idle (some p) := by
        cases fpc' with
        | idle got =>
            cases got with
            | some q =>
                cases heq
                rfl
            | none => cases mode <;> cases heq
        | _ => cases heq
      subst hfpc'
      obtain rfl := FreeList.eq_getTaken_of_access hacc
      have hplace : m.place p = .taken t := (h.free.2 p).place _ rfl rfl
      cases hacc
      refine ⟨by rw [hplace]; rfl, ?_⟩
      unfold Memory.place FreeList.Memory.set
      dsimp only
      rw [Function.update_self]
  | allocate =>
      simp only [SharedManager.access] at hs
      split at hs
      · cases hs
        refine ⟨?_, hown⟩
        rw [(hm.unborn m.blockCount).mpr]
        · rfl
        · unfold Memory.Issued Memory.blockCount
          omega
      · cases hs
  | returnBlock fpc =>
      obtain ⟨list, fpc', -, -, heq⟩ := exists_of_onList hs
      cases fpc' <;> cases heq
  | readNext q => cases hs
  | returnBlocks next fpc =>
      obtain ⟨list, fpc', -, -, heq⟩ := exists_of_onList hs
      cases fpc' with
      | idle got => cases next <;> cases heq
      | _ => cases heq

omit [DecidableEq T] [Fintype T] in
theorem idle_of_quiet (hat : ∀ t, (s.threads t).At t s.memory) (hquiet : ∀ t, ∃ r, s.threads t = .idle r) (t : T) :
    ∃ got, (FreeList.Pc.idle got : FreeList.Pc ℕ).At t s.memory.list := by
  obtain ⟨r, hidle⟩ := hquiet t
  have hfree := (hat t).free
  rw [hidle] at hfree
  exact ⟨none, hfree⟩

/-- **Run.** With fewer than `2 ^ 31 - 1` threads no block is given to a caller while another one has it, and none
    gets lost. -/
theorem blocks_safe_of_reaches (hT : Fintype.card T < 2 ^ 31 - 1)
    (h : Reaches Step (fun _ _ => True) (start poolSize) s) : Safe s := by
  obtain ⟨hm, hat⟩ := (relyGuarantee hT).invariant h Inv.fresh fun t => ⟨FreeList.At.fresh t, trivial⟩
  obtain ⟨l, hlinked, hmem⟩ := hm.intact.list
  refine ⟨⟨l, hlinked⟩, fun t ok s' p hs hr => ?_, fun hquiet => ⟨l, hlinked, fun p => ?_, fun p hp => ?_⟩⟩
  · cases hs with
    | @mk m m' ls _ _ pc' hstep =>
        have hown := hat t
        dsimp only at hr hown hm ⊢
        rw [Function.update_self] at hr
        subst hr
        generalize ls t = pc at hstep hown
        cases hstep with
        | access hacc => exact hown.given hm hacc
  · have hidle := idle_of_quiet hat hquiet
    rw [hmem, (hm.intact.listed_iff hidle p).1]
    exact and_congr_left fun _ => (not_congr (hm.unborn p)).trans not_not
  · have hidle := idle_of_quiet hat hquiet
    exact hm.intact.refs_of_listed hidle ((hmem p).mp hp)

/-- One thread gives the only block back while the other one asks for a block. The other one sees the pool used up
    and gets the block from the list. -/
theorem blocks_safe_of_reaches_relisted : ∃ s : State Bool, Safe s ∧
    s.threads false = .idle (some (.block 0)) ∧ s.memory.place 0 = .owned false ∧ s.memory.list.head = none := by
  have hrun : (Interleaving.runSchedule threadStep (fun _ _ => True)
      ([(true, .requisitionBlock .canAlloc), (true, .access true), (true, .access true), (true, .returnBlock 0)] ++
        List.replicate 3 (true, .access true) ++ [(false, .requisitionBlock .cannotAlloc), (false, .access true)] ++
        List.replicate 2 (true, .access true) ++ List.replicate 6 (false, .access true))
      (start 1 : State Bool)).map (fun s => (s.threads false, s.memory.list.isOwned false 0, s.memory.list.head)) =
        some (.idle (some (.block 0)), true, none) := by
    decide +kernel
  obtain ⟨s, hs, hends⟩ := Option.map_eq_some_iff.mp hrun
  obtain ⟨hgot, howned, hhead⟩ : s.threads false = .idle (some (.block 0)) ∧ s.memory.list.isOwned false 0 = true ∧
      s.memory.list.head = none := by
    simpa only [Prod.mk.injEq] using hends
  exact ⟨s, blocks_safe_of_reaches (by decide)
    (Interleaving.reaches_of_schedule (fun _ _ _ _ => ThreadStep.of_threadStep) hs), hgot,
    FreeList.Memory.isOwned_iff.mp howned, hhead⟩

end Runs

/-! ## Calls that are not interrupted -/

section Alone

variable [DecidableEq T] {m m' : Memory T} {t : T} {ok : Bool} {pc pc' : Pc} {b : BlockManager} {p : ℕ}
  {r : Option Requisition}

/-- Thread `t` goes on with its call until it returns. -/
def run (t : T) (ok : Bool) : ℕ → Memory T → Pc → Option (Option Requisition × Memory T)
  | _, m, .idle r => some (r, m)
  | 0, _, _ => none
  | fuel + 1, m, pc => (access t ok m pc).bind fun r => run t ok fuel r.1 r.2

def Returns (t : T) (ok : Bool) (m : Memory T) (pc : Pc) (r : Option Requisition) (m' : Memory T) : Prop :=
  ∃ fuel, run t ok fuel m pc = some (r, m')

/-- No call is in progress, and the manager is what `b` is. -/
structure Represents (m : Memory T) (b : BlockManager) : Prop where
  inv : Inv m
  idle : ∀ t, (Pc.idle none).At t m
  poolSize : b.poolSize = m.poolSize
  poolIndex : b.poolIndex = min m.poolIndex m.poolSize
  allocated : b.allocated = m.allocated
  freeList : Linked m.list.next m.list.head b.freeList
  nodup : b.outstanding.Nodup
  outstanding : ∀ p, p ∈ b.outstanding ↔ ∃ t, m.place p = .owned t

theorem returns_idle (t : T) (ok : Bool) (m : Memory T) (r : Option Requisition) : Returns t ok m (.idle r) r m :=
  ⟨0, rfl⟩

theorem Returns.head (hs : access t ok m pc = some (m', pc')) {m'' : Memory T} (h : Returns t ok m' pc' r m'') :
    Returns t ok m pc r m'' := by
  obtain ⟨fuel, hrun⟩ := h
  refine ⟨fuel + 1, ?_⟩
  cases pc with
  | idle => cases hs
  | _ =>
      simp only [run, hs, Option.bind_some]
      exact hrun

theorem Returns.kept [Fintype T] (hT : Fintype.card T < 2 ^ 31 - 1) (h : Returns t ok m pc r m') (hm : Inv m)
    (hat : pc.At t m) (hothers : ∀ t' ≠ t, (Pc.idle none).At t' m) : Inv m' ∧ ∀ t', (Pc.idle none).At t' m' := by
  obtain ⟨fuel, hrun⟩ := h
  have hidle : ∀ {m : Memory T} {r : Option Requisition}, (Pc.idle r).At t m →
      (∀ t' ≠ t, (Pc.idle none).At t' m) → ∀ t', (Pc.idle none).At t' m := by
    intro m r hat hothers t'
    by_cases ht : t' = t
    · subst ht
      exact ⟨hat.free, trivial⟩
    · exact hothers t' ht
  induction fuel generalizing m pc with
  | zero =>
      cases pc with
      | idle r' =>
          cases hrun
          exact ⟨hm, hidle hat hothers⟩
      | _ => cases hrun
  | succ fuel ih =>
      by_cases hpc : ∃ r', pc = .idle r'
      · obtain ⟨r', rfl⟩ := hpc
        cases hrun
        exact ⟨hm, hidle hat hothers⟩
      · have hstep : ∃ m₁ pc₁, access t ok m pc = some (m₁, pc₁) ∧ run t ok fuel m₁ pc₁ = some (r, m') := by
          cases pc with
          | idle r' => exact absurd ⟨r', rfl⟩ hpc
          | _ =>
              obtain ⟨⟨m₁, pc₁⟩, hs, hrest⟩ := Option.bind_eq_some_iff.mp hrun
              exact ⟨m₁, pc₁, hs, hrest⟩
        obtain ⟨m₁, pc₁, hs, hrest⟩ := hstep
        obtain ⟨hm₁, hat₁, hrely⟩ := hat.access hm (fun n => FreeList.small hT _) hs
        exact ih hm₁ hat₁ (fun t' ht => (hothers t' ht).stable (hrely t' ht)) hrest

theorem Returns.onList {fpc fpc' : FreeList.Pc ℕ} {after : FreeList.Pc ℕ → Pc} {list : FreeList.Memory T ℕ}
    {m'' : Memory T} (hpc : access t ok m pc = SharedManager.onList t m fpc after)
    (hs : FreeList.access t m.list fpc = some (list, fpc')) (h : Returns t ok { m with list := list } (after fpc') r m'') :
    Returns t ok m pc r m'' := by
  refine .head ?_ h
  rw [hpc, SharedManager.onList, hs]
  rfl

omit [DecidableEq T] in
theorem Represents.free (h : Represents m b) (n : ℕ) : (m.list.node n).holders = ∅ :=
  (h.inv.intact.listed_iff (fun t => ⟨none, (h.idle t).free⟩) n).2

omit [DecidableEq T] in
/-- What the list holds is what `b`'s list holds. -/
theorem Represents.mem_freeList (h : Represents m b) (p : ℕ) : p ∈ b.freeList ↔ m.place p = .listed := by
  obtain ⟨l, hlinked, hmem⟩ := h.inv.intact.list
  rw [h.freeList.unique hlinked]
  exact hmem p

/-- `TryGet` on its own. -/
theorem returns_tryGet (h : Represents m b) {n : ℕ} {l : List ℕ} (hfree : b.freeList = n :: l) (mode : AllocMode) :
    ∃ m', Returns t ok m (.tryGet mode .getLoad) (some (.block n)) m' ∧ m'.poolSize = m.poolSize ∧
      m'.poolIndex = m.poolIndex ∧ m'.allocated = m.allocated ∧ Linked m'.list.next m'.list.head l ∧
      ∀ p, m'.place p = if p = n then .owned t else m.place p := by
  have hlinked := h.freeList
  rw [hfree] at hlinked
  obtain ⟨hhead, hrest⟩ := hlinked
  have hrefs : (m.list.node n).refs = 1 := by
    have hlisted := (h.mem_freeList n).mp (hfree ▸ List.mem_cons_self)
    exact h.inv.intact.refs_of_listed (fun t => ⟨none, (h.idle t).free⟩) hlisted
  -- the accesses one after another
  let x₁ : FreeList.Node T ℕ := { m.list.node n with refs := 1 + 1, holders := insert t (m.list.node n).holders }
  let list₁ := m.list.set n x₁
  have hx₁ : list₁.node n = x₁ := Function.update_self ..
  let list₂ := { list₁ with head := (m.list.node n).next }.set n { x₁ with place := .taken t }
  have hx₂ : list₂.node n = { x₁ with place := .taken t } := Function.update_self ..
  let list₃ := list₂.set n
    { x₁ with refs := x₁.refs - 2, holders := x₁.holders.erase t, place := .owned t }
  have hx₃ : list₃.node n = { x₁ with refs := x₁.refs - 2, holders := x₁.holders.erase t, place := .owned t } :=
    Function.update_self ..
  refine ⟨{ m with list := list₃ }, ?_, rfl, rfl, rfl, ?_, fun p => ?_⟩
  · have hload : FreeList.access t m.list .getLoad = some (m.list, .getRefs n) := by
      rw [FreeList.access, hhead]
      rfl
    have hmask : (m.list.node n).refs &&& FreeList.refsMask ≠ 0 := by
      rw [hrefs]
      decide
    have hloaded : FreeList.access t m.list (.getRefs n) = some (m.list, .getAddRef n 1) := by
      rw [FreeList.access, if_neg hmask, hrefs]
    have hheld : FreeList.access t m.list (.getAddRef n 1) = some (list₁, .getNext n) := by
      rw [FreeList.access, if_pos hrefs]
    have hnext : FreeList.access t list₁ (.getNext n) = some (list₁, .getExchange n (m.list.node n).next) := by
      rw [FreeList.access, hx₁]
    have hexchange : FreeList.access t list₁ (.getExchange n (m.list.node n).next) = some (list₂, .getTaken n) := by
      rw [FreeList.access, if_pos (show list₁.head = some n from hhead), hx₁]
    have htaken : FreeList.access t list₂ (.getTaken n) = some (list₃, .idle (some n)) := by
      rw [FreeList.access, hx₂]
    exact .onList rfl hload (.onList rfl hloaded (.onList rfl hheld (.onList rfl hnext (.onList rfl hexchange
      (.onList rfl htaken (returns_idle ..))))))
  · have hsame : list₃.next = m.list.next := by
      have hnode₁ : list₁.node = Function.update m.list.node n x₁ := rfl
      have hnode₂ : list₂.node = Function.update list₁.node n { x₁ with place := .taken t } := rfl
      have hnode₃ : list₃.node = Function.update list₂.node n
        { x₁ with refs := x₁.refs - 2, holders := x₁.holders.erase t, place := .owned t } := rfl
      rw [FreeList.next_of_update hnode₃ (congrArg FreeList.Node.next hx₂).symm,
        FreeList.next_of_update hnode₂ (congrArg FreeList.Node.next hx₁).symm, FreeList.next_of_update hnode₁ rfl]
    show Linked list₃.next (m.list.node n).next l
    rw [hsame]
    exact hrest
  · unfold Memory.place
    by_cases hp : p = n
    · rw [hp, if_pos rfl]
      exact congrArg FreeList.Node.place hx₃
    · rw [if_neg hp]
      show (list₃.node p).place = (m.list.node p).place
      have hnode : list₃.node p = m.list.node p :=
        (Function.update_of_ne hp _ _).trans ((Function.update_of_ne hp _ _).trans (Function.update_of_ne hp _ _))
      rw [hnode]

/-- Called from `call`, the list goes on in `call` until it returns to `after`. -/
structure Within (call after : FreeList.Pc ℕ → Pc) : Prop where
  access : ∀ (t : T) ok m fpc, SharedManager.access t ok m (call fpc) = SharedManager.onList t m fpc after
  stays : ∀ fpc, (∀ got, fpc ≠ .idle got) → after fpc = call fpc

theorem Within.returnBlock : Within (T := T) .returnBlock afterReturnBlock where
  access := fun _ _ _ _ => rfl
  stays := by
    intro fpc hfpc
    cases fpc with
    | idle got => exact absurd rfl (hfpc got)
    | _ => rfl

theorem Within.returnBlocks (next : Option ℕ) : Within (T := T) (.returnBlocks next) (afterReturnBlocks next) where
  access := fun _ _ _ _ => rfl
  stays := by
    intro fpc hfpc
    cases fpc with
    | idle got => exact absurd rfl (hfpc got)
    | _ => rfl

theorem Returns.within {call after : FreeList.Pc ℕ → Pc} {fpc fpc' : FreeList.Pc ℕ} {list : FreeList.Memory T ℕ}
    {m'' : Memory T} (hcall : Within (T := T) call after) (hs : FreeList.access t m.list fpc = some (list, fpc'))
    (hfpc' : ∀ got, fpc' ≠ .idle got) (h : Returns t ok { m with list := list } (call fpc') r m'') :
    Returns t ok m (call fpc) r m'' := by
  refine .onList (hcall.access ..) hs ?_
  rwa [hcall.stays fpc' hfpc']

/-- `Add` on its own. -/
theorem returns_add (h : Represents m b) (hp : m.place p = .owned t) (ok : Bool) :
    ∃ m', (∀ call after, Within (T := T) call after → ∀ r m'',
        Returns t ok m' (after (.idle none)) r m'' → Returns t ok m (call (.addFlag p)) r m'') ∧
      m'.poolSize = m.poolSize ∧ m'.poolIndex = m.poolIndex ∧ m'.allocated = m.allocated ∧
      m'.blockNext = m.blockNext ∧ Linked m'.list.next m'.list.head (p :: b.freeList) ∧
      ∀ q, m'.place q = if q = p then .listed else m.place q := by
  have hrefs : (m.list.node p).refs = 0 := by
    apply BitVec.eq_of_toNat_eq
    rw [(h.inv.intact.good p).refs, h.free p, Finset.card_empty, show (m.list.node p).place = .owned t from hp]
    rfl
  have hnot : p ∉ b.freeList := by
    rw [h.mem_freeList, hp]
    rintro ⟨⟩
  let x₁ : FreeList.Node T ℕ := { m.list.node p with refs := 0 + FreeList.addFlag, place := .adding t }
  let list₁ := m.list.set p x₁
  have hx₁ : list₁.node p = x₁ := Function.update_self ..
  let list₂ := list₁.set p { x₁ with next := m.list.head }
  have hx₂ : list₂.node p = { x₁ with next := m.list.head } := Function.update_self ..
  let list₃ := list₂.set p { x₁ with next := m.list.head, refs := 1, place := .offered t }
  have hx₃ : list₃.node p = { x₁ with next := m.list.head, refs := 1, place := .offered t } := Function.update_self ..
  let list₄ := { list₃ with head := some p }.set p { x₁ with next := m.list.head, refs := 1, place := .listed }
  have hother : ∀ q, q ≠ p → list₄.node q = m.list.node q := fun q hq =>
    (Function.update_of_ne hq _ _).trans ((Function.update_of_ne hq _ _).trans
      ((Function.update_of_ne hq _ _).trans (Function.update_of_ne hq _ _)))
  have hx₄ : list₄.node p = { x₁ with next := m.list.head, refs := 1, place := .listed } := Function.update_self ..
  refine ⟨{ m with list := list₄ }, fun call after hcall r m'' hreturns => ?_, rfl, rfl, rfl, rfl, ⟨rfl, ?_⟩, fun q => ?_⟩
  · have hflag : FreeList.access t m.list (.addFlag p) = some (list₁, .innerLoad p .done) := by
      simp only [FreeList.access, hrefs, if_true]
      rfl
    have hload : FreeList.access t list₁ (.innerLoad p .done) = some (list₁, .innerNext p m.list.head .done) := rfl
    have hnext : FreeList.access t list₁ (.innerNext p m.list.head .done) =
        some (list₂, .innerRefs p m.list.head .done) := by
      rw [FreeList.access, hx₁]
    have hone : FreeList.access t list₂ (.innerRefs p m.list.head .done) =
        some (list₃, .innerExchange p m.list.head .done) := by
      rw [FreeList.access, hx₂]
    have hexchange : FreeList.access t list₃ (.innerExchange p m.list.head .done) = some (list₄, .idle none) := by
      rw [FreeList.access, if_pos (show list₃.head = m.list.head from rfl), hx₃]
      rfl
    have hlast : Returns t ok { m with list := list₃ } (call (.innerExchange p m.list.head .done)) r m'' :=
      .onList (hcall.access ..) hexchange hreturns
    have hstore : Returns t ok { m with list := list₂ } (call (.innerRefs p m.list.head .done)) r m'' :=
      .within hcall hone (by rintro _ ⟨⟩) hlast
    have hlink : Returns t ok { m with list := list₁ } (call (.innerNext p m.list.head .done)) r m'' :=
      .within hcall hnext (by rintro _ ⟨⟩) hstore
    have hfirst : Returns t ok { m with list := list₁ } (call (.innerLoad p .done)) r m'' :=
      .within hcall hload (by rintro _ ⟨⟩) hlink
    exact .within hcall hflag (by rintro _ ⟨⟩) hfirst
  · have hlink : list₄.next p = m.list.head := congrArg FreeList.Node.next hx₄
    show Linked list₄.next (list₄.next p) b.freeList
    rw [hlink]
    refine h.freeList.congr fun q hq => congrArg FreeList.Node.next (hother q ?_)
    rintro rfl
    exact hnot hq
  · unfold Memory.place
    by_cases hq : q = p
    · subst hq
      rw [if_pos rfl]
      exact congrArg FreeList.Node.place hx₄
    · rw [if_neg hq]
      exact congrArg FreeList.Node.place (hother q hq)

omit [DecidableEq T] in
/-- Thread `t` has one block more. -/
theorem Represents.cons (h : Represents m b) (hp : (m.place p).owner = none)
    (hplace : ∀ q, m'.place q = if q = p then .owned t else m.place q) :
    (p :: b.outstanding).Nodup ∧ ∀ q, q ∈ p :: b.outstanding ↔ ∃ t', m'.place q = .owned t' := by
  constructor
  · refine List.nodup_cons.mpr ⟨fun hmem => ?_, h.nodup⟩
    obtain ⟨t', howned⟩ := (h.outstanding p).mp hmem
    rw [howned] at hp
    cases hp
  · intro q
    rw [hplace, List.mem_cons]
    by_cases hq : q = p
    · rw [if_pos hq]
      exact iff_of_true (Or.inl hq) ⟨t, rfl⟩
    · rw [if_neg hq, or_iff_right hq]
      exact h.outstanding q

omit [DecidableEq T] in
theorem place_own (m : Memory T) (p q : ℕ) : (m.own t p).place q = if q = p then .owned t else m.place q := by
  unfold Memory.own Memory.place FreeList.Memory.set
  by_cases hq : q = p
  · subst hq
    rw [if_pos rfl]
    dsimp only
    rw [Function.update_self]
  · rw [if_neg hq]
    dsimp only
    rw [Function.update_of_ne hq]

omit [DecidableEq T] in
theorem next_own (m : Memory T) (p : ℕ) : (m.own t p).list.next = m.list.next :=
  FreeList.next_of_update (m := m.list) rfl rfl

variable [Fintype T]

/-- **A requisition on its own** gives what the sequential manager gives. -/
theorem Represents.requisitionBlock (hT : Fintype.card T < 2 ^ 31 - 1) (h : Represents m b) (t : T) (mode : AllocMode)
    (ok : Bool) : ∃ m', Returns t ok m (.poolLoad mode) (some (b.requisitionBlock mode [ok]).1) m' ∧
      Represents m' (b.requisitionBlock mode [ok]).2.2 := by
  have hkept : ∀ {r m'}, Returns t ok m (.poolLoad mode) r m' → Inv m' ∧ ∀ t', (Pc.idle none).At t' m' := fun hr =>
    hr.kept hT h.inv ⟨(h.idle t).free, trivial⟩ fun t' _ => h.idle t'
  have hindex := h.poolIndex
  rcases Nat.lt_or_ge m.poolIndex m.poolSize with hlt | hge
  · -- the pool still has a block
    have hget : b.getBlock = (some m.poolIndex, { b with poolIndex := m.poolIndex + 1 }) := by
      rw [BlockManager.getBlock, h.poolSize, hindex, Nat.min_eq_left (Nat.le_of_lt hlt), if_pos hlt]
    have hreturns : Returns t ok m (.poolLoad mode) (some (.block m.poolIndex))
        ({ m with poolIndex := m.poolIndex + 1 }.own t m.poolIndex) := by
      have hload : access t ok m (.poolLoad mode) = some (m, .poolAdd mode) := by
        simp only [access, if_neg (Nat.not_le.mpr hlt)]
      refine .head hload (.head ?_ (returns_idle ..))
      simp only [access, if_pos hlt]
    have howner : (m.place m.poolIndex).owner = none := by
      rw [(h.inv.unborn m.poolIndex).mpr]
      · rfl
      · unfold Memory.Issued
        omega
    obtain ⟨hinv, hidle⟩ := hkept hreturns
    obtain ⟨hnodup, hmem⟩ := h.cons howner fun q => place_own { m with poolIndex := m.poolIndex + 1 } m.poolIndex q
    simp only [BlockManager.requisitionBlock, hget]
    refine ⟨_, hreturns, hinv, hidle, h.poolSize, ?_, h.allocated, ?_, hnodup, hmem⟩
    · show m.poolIndex + 1 = min (m.poolIndex + 1) m.poolSize
      omega
    · rw [next_own]
      exact h.freeList
  · have hget : b.getBlock = (none, b) := by
      rw [BlockManager.getBlock, h.poolSize, hindex, if_neg]
      omega
    have hpool : access t ok m (.poolLoad mode) = some (m, .tryGet mode .getLoad) := by
      simp only [access, if_pos hge]
    cases hfree : b.freeList with
    | cons n l =>
        obtain ⟨m', hreturns, hsize, hpoolIndex, hallocated, hlinked, hplace⟩ := returns_tryGet h hfree mode
        have howner : (m.place n).owner = none := by
          have hlisted := (h.mem_freeList n).mp (hfree ▸ List.mem_cons_self)
          rw [hlisted]
          rfl
        obtain ⟨hinv, hidle⟩ := hkept (.head hpool hreturns)
        obtain ⟨hnodup, hmem⟩ := h.cons howner hplace
        simp only [BlockManager.requisitionBlock, BlockManager.tryGet, hget, hfree]
        refine ⟨m', .head hpool hreturns, hinv, hidle, h.poolSize.trans hsize.symm, ?_, h.allocated.trans hallocated.symm,
          hlinked, hnodup, hmem⟩
        show b.poolIndex = min m'.poolIndex m'.poolSize
        rw [hpoolIndex, hsize]
        exact hindex
    | nil =>
        have hhead : m.list.head = none := by
          have hlinked := h.freeList
          rwa [hfree] at hlinked
        have hload : FreeList.access t m.list .getLoad = some (m.list, .idle none) := by
          rw [FreeList.access, hhead]
          rfl
        have hempty : ∀ {r m'}, Returns t ok m (afterTryGet mode (.idle none)) r m' →
            Returns t ok m (.poolLoad mode) r m' := fun hr => .head hpool (.onList rfl hload hr)
        simp only [BlockManager.requisitionBlock, BlockManager.tryGet, hget, hfree]
        cases mode with
        | cannotAlloc => exact ⟨m, hempty (returns_idle ..), h⟩
        | canAlloc =>
            cases ok with
            | false => exact ⟨m, hempty (.head rfl (returns_idle ..)), h⟩
            | true =>
                have hcount : b.blockCount = m.blockCount := by
                  unfold BlockManager.blockCount Memory.blockCount
                  rw [h.poolSize, h.allocated]
                have hreturns := hempty (.head rfl (returns_idle t true
                  ({ m with allocated := m.allocated + 1 }.own t m.blockCount) (some (.block m.blockCount))))
                have howner : (m.place m.blockCount).owner = none := by
                  rw [(h.inv.unborn m.blockCount).mpr]
                  · rfl
                  · unfold Memory.Issued Memory.blockCount
                    omega
                obtain ⟨hinv, hidle⟩ := hkept hreturns
                obtain ⟨hnodup, hmem⟩ := h.cons howner fun q =>
                  place_own { m with allocated := m.allocated + 1 } m.blockCount q
                simp only [allocate, hcount]
                refine ⟨_, hreturns, hinv, hidle, h.poolSize, hindex, congrArg (· + 1) h.allocated, ?_, hnodup, hmem⟩
                have hlinked := h.freeList
                rw [hfree] at hlinked
                rw [next_own]
                exact hlinked

theorem Represents.add (hT : Fintype.card T < 2 ^ 31 - 1) (h : Represents m b) (hp : m.place p = .owned t) (ok : Bool) :
    ∃ m', (∀ call after, Within (T := T) call after → ∀ r m'',
        Returns t ok m' (after (.idle none)) r m'' → Returns t ok m (call (.addFlag p)) r m'') ∧
      Represents m' (b.returnBlock p) ∧ m'.blockNext = m.blockNext ∧
      ∀ q, m'.place q = if q = p then .listed else m.place q := by
  obtain ⟨m', hadd, hsize, hpoolIndex, hallocated, hnext, hlinked, hplace⟩ := returns_add h hp ok
  obtain ⟨-, hat, -⟩ := (h.idle t).step h.inv (fun n => FreeList.small hT _) (.returnBlock hp)
  have hreturns := hadd _ _ .returnBlock none m' (returns_idle ..)
  obtain ⟨hinv, hidle⟩ := hreturns.kept hT h.inv hat fun t' _ => h.idle t'
  refine ⟨m', hadd, ⟨hinv, hidle, h.poolSize.trans hsize.symm, ?_, h.allocated.trans hallocated.symm, hlinked,
    h.nodup.erase p, fun q => ?_⟩, hnext, hplace⟩
  · show b.poolIndex = min m'.poolIndex m'.poolSize
    rw [hpoolIndex, hsize]
    exact h.poolIndex
  · show q ∈ b.outstanding.erase p ↔ _
    rw [h.nodup.mem_erase_iff, hplace]
    by_cases hq : q = p
    · rw [if_pos hq]
      refine iff_of_false (fun hmem => hmem.1 hq) ?_
      rintro ⟨t', ⟨⟩⟩
    · rw [if_neg hq, and_iff_right hq]
      exact h.outstanding q

/-- **A return on its own.** -/
theorem Represents.returnBlock (hT : Fintype.card T < 2 ^ 31 - 1) (h : Represents m b) (hp : m.place p = .owned t)
    (ok : Bool) :
    ∃ m', Returns t ok m (.returnBlock (.addFlag p)) none m' ∧ Represents m' (b.returnBlock p) := by
  obtain ⟨m', hadd, hm', -, -⟩ := h.add hT hp ok
  exact ⟨m', hadd _ _ .returnBlock none m' (returns_idle ..), hm'⟩

/-- **The return of a chain on its own.** -/
theorem Represents.returnBlocks (hT : Fintype.card T < 2 ^ 31 - 1) (h : Represents m b) {head : Option ℕ} {l : List ℕ}
    (hl : Owns t m head l) (ok : Bool) :
    ∃ m', Returns t ok m (loop head) none m' ∧ Represents m' (l.foldl (fun b p => b.returnBlock p) b) := by
  induction l generalizing m b head with
  | nil =>
      have hhead : head = none := hl.linked
      subst hhead
      exact ⟨m, returns_idle .., h⟩
  | cons p l ih =>
      obtain ⟨hhead, hrest⟩ := id hl.linked
      subst hhead
      obtain ⟨m₁, hadd, hm₁, hnext, hplace⟩ := h.add hT (hl.owned p List.mem_cons_self) ok
      have hnot := (List.nodup_cons.mp hl.linked.nodup).1
      have hl₁ : Owns t m₁ (m.blockNext p) l := by
        refine ⟨by rwa [hnext], fun q hq => ?_⟩
        rw [hplace, if_neg]
        · exact hl.owned q (List.mem_cons_of_mem p hq)
        · rintro rfl
          exact hnot hq
      obtain ⟨m', hreturns, hm'⟩ := ih hm₁ hl₁
      exact ⟨m', .head rfl (hadd _ _ (.returnBlocks (m.blockNext p)) none m' hreturns), hm'⟩

omit [Fintype T] in
theorem Returns.unique {r' : Option Requisition} {m'' : Memory T} (h : Returns t ok m pc r m')
    (h' : Returns t ok m pc r' m'') : r = r' ∧ m' = m'' := by
  obtain ⟨fuel, hrun⟩ := h
  obtain ⟨fuel', hrun'⟩ := h'
  induction fuel generalizing m pc fuel' with
  | zero =>
      cases pc with
      | idle =>
          cases hrun
          cases fuel' <;> exact Prod.ext_iff.mp (Option.some.inj hrun')
      | _ => cases hrun
  | succ fuel ih =>
      by_cases hpc : ∃ r₀, pc = .idle r₀
      · obtain ⟨r₀, rfl⟩ := hpc
        cases hrun
        cases fuel' <;> exact Prod.ext_iff.mp (Option.some.inj hrun')
      · cases fuel' with
        | zero =>
            cases pc with
            | idle r₀ => exact absurd ⟨r₀, rfl⟩ hpc
            | _ => cases hrun'
        | succ fuel' =>
            have hbind : ∀ n, run t ok (n + 1) m pc = (access t ok m pc).bind fun x => run t ok n x.1 x.2 := by
              intro n
              cases pc with
              | idle r₀ => exact absurd ⟨r₀, rfl⟩ hpc
              | _ => rfl
            rw [hbind] at hrun hrun'
            obtain ⟨⟨m₁, pc₁⟩, hs, hrest⟩ := Option.bind_eq_some_iff.mp hrun
            rw [hs, Option.bind_some] at hrun'
            exact ih hrest fuel' hrun'

/-- A call that no other one interrupts. -/
inductive Call (T : Type) where
  | requisitionBlock (t : T) (mode : AllocMode) (ok : Bool)
  | returnBlock (t : T) (p : ℕ)
  /-- `l`: the blocks of the chain -/
  | returnBlocks (t : T) (p : Option ℕ) (l : List ℕ)
  | link (t : T) (p : ℕ) (next : Option ℕ)
  | give (t : T) (p : ℕ) (taker : T)

namespace Call

def Ready (m : Memory T) : Call T → Prop
  | .requisitionBlock .. => True
  | .returnBlock t p | .link t p _ | .give t p _ => m.place p = .owned t
  | .returnBlocks t p l => Owns t m p l

/-- What the call does to the manager of one caller at a time. -/
def exec (b : BlockManager) : Call T → Option Requisition × BlockManager
  | .requisitionBlock _ mode ok => (some (b.requisitionBlock mode [ok]).1, (b.requisitionBlock mode [ok]).2.2)
  | .returnBlock _ p => (none, b.returnBlock p)
  | .returnBlocks _ _ l => (none, l.foldl (fun b p => b.returnBlock p) b)
  | .link .. | .give .. => (none, b)

/-- The call starts in `m` and returns `r` in `m'`. -/
def Finishes (m : Memory T) (r : Option Requisition) (m' : Memory T) : Call T → Prop
  | .requisitionBlock t mode ok => Returns t ok m (.poolLoad mode) r m'
  | .returnBlock t p => Returns t true m (.returnBlock (.addFlag p)) r m'
  | .returnBlocks t p _ => Returns t true m (loop p) r m'
  | .link _ p next => r = none ∧ m' = { m with blockNext := Function.update m.blockNext p next }
  | .give _ p t' => r = none ∧ m' = m.own t' p

end Call

inductive Runs : List (Call T) → Memory T → List (Option Requisition) → Memory T → Prop
  | nil {m : Memory T} : Runs [] m [] m
  | cons {c : Call T} {cs : List (Call T)} {m m' m'' : Memory T} {r : Option Requisition}
      {rs : List (Option Requisition)} (hc : c.Ready m) (h : c.Finishes m r m') (hs : Runs cs m' rs m'') :
      Runs (c :: cs) m (r :: rs) m''

omit [DecidableEq T] [Fintype T] in
def execAll : List (Call T) → BlockManager → List (Option Requisition) × BlockManager
  | [], b => ([], b)
  | c :: cs, b => ((c.exec b).1 :: (execAll cs (c.exec b).2).1, (execAll cs (c.exec b).2).2)

omit [DecidableEq T] [Fintype T] in
theorem Represents.fresh (poolSize : ℕ) : Represents (Memory.fresh poolSize : Memory T) (.fresh poolSize) where
  inv := Inv.fresh
  idle := fun t => ⟨FreeList.At.fresh t, trivial⟩
  poolSize := rfl
  poolIndex := (Nat.zero_min _).symm
  allocated := rfl
  freeList := rfl
  nodup := List.nodup_nil
  outstanding := fun p => iff_of_false List.not_mem_nil (by rintro ⟨t, ⟨⟩⟩)

omit [DecidableEq T] [Fintype T] in
theorem Represents.link (h : Represents m b) (next : ℕ → Option ℕ) : Represents { m with blockNext := next } b :=
  ⟨⟨h.inv.intact, h.inv.unborn⟩, fun t => ⟨(h.idle t).free, trivial⟩, h.poolSize, h.poolIndex, h.allocated,
    h.freeList, h.nodup, h.outstanding⟩

theorem Represents.give (hT : Fintype.card T < 2 ^ 31 - 1) (h : Represents m b) (hp : m.place p = .owned t) (t' : T) :
    Represents (m.own t' p) b := by
  have hgive : ThreadStep t (m, .idle none) (.give p t') (m.own t' p, .idle none) := .give hp
  obtain ⟨hinv, hat, hrely⟩ := (h.idle t).step h.inv (fun n => FreeList.small hT _) hgive
  refine ⟨hinv, fun t'' => ?_, h.poolSize, h.poolIndex, h.allocated, ?_, h.nodup, fun q => ?_⟩
  · by_cases ht : t'' = t
    · subst ht
      exact hat
    · exact (h.idle t'').stable (hrely t'' ht)
  · rw [next_own]
    exact h.freeList
  · rw [h.outstanding, place_own]
    by_cases hq : q = p
    · subst hq
      rw [if_pos rfl]
      exact iff_of_true ⟨t, hp⟩ ⟨t', rfl⟩
    · rw [if_neg hq]

/-- **Step.** A call returns what the sequential manager returns. -/
theorem Represents.call (hT : Fintype.card T < 2 ^ 31 - 1) {c : Call T} (h : Represents m b) (hc : c.Ready m) :
    ∃ m', c.Finishes m (c.exec b).1 m' ∧ Represents m' (c.exec b).2 := by
  cases c with
  | requisitionBlock t mode ok => exact h.requisitionBlock hT t mode ok
  | returnBlock t p => exact h.returnBlock hT hc true
  | returnBlocks t p l => exact h.returnBlocks hT hc true
  | link t p next => exact ⟨_, ⟨rfl, rfl⟩, h.link _⟩
  | give t p t' => exact ⟨_, ⟨rfl, rfl⟩, h.give hT hc t'⟩

omit [Fintype T] in
theorem Call.Finishes.unique {c : Call T} {r' : Option Requisition} {m'' : Memory T} (h : c.Finishes m r m')
    (h' : c.Finishes m r' m'') : r = r' ∧ m' = m'' := by
  cases c with
  | requisitionBlock | returnBlock | returnBlocks => exact Returns.unique h h'
  | link | give =>
      obtain ⟨rfl, rfl⟩ := h
      obtain ⟨rfl, rfl⟩ := h'
      exact ⟨rfl, rfl⟩

/-- **Run.** Called by one thread at a time the manager is the one the queues are proved with, and every call
    returns. -/
theorem refines_blockManager (hT : Fintype.card T < 2 ^ 31 - 1) {cs : List (Call T)} {rs : List (Option Requisition)}
    {poolSize : ℕ} (h : Runs cs (.fresh poolSize) rs m) :
    rs = (execAll cs (.fresh poolSize)).1 ∧ Represents m (execAll cs (.fresh poolSize)).2 ∧
      ∀ c : Call T, c.Ready m → ∃ r m', c.Finishes m r m' := by
  have hrun : ∀ {m₀ b}, Represents m₀ b → Runs cs m₀ rs m → rs = (execAll cs b).1 ∧ Represents m (execAll cs b).2 := by
    intro m₀ b h₀ hruns
    clear h
    induction hruns generalizing b with
    | nil => exact ⟨rfl, h₀⟩
    | cons hc hfinishes _ ih =>
        obtain ⟨m₁, hfinishes₁, h₁⟩ := h₀.call hT hc
        obtain ⟨rfl, rfl⟩ := hfinishes.unique hfinishes₁
        obtain ⟨hrs, hm⟩ := ih h₁
        exact ⟨congrArg _ hrs, hm⟩
  obtain ⟨hrs, hm⟩ := hrun (Represents.fresh poolSize) h
  refine ⟨hrs, hm, fun c hc => ?_⟩
  obtain ⟨m', hfinishes, -⟩ := hm.call hT hc
  exact ⟨_, m', hfinishes⟩

/-- The one block of the pool is in the free list after its return. -/
theorem refines_blockManager_returned : ∃ m : Memory Bool, Represents m (execAll
    [.requisitionBlock true .cannotAlloc true, .returnBlock true 0] (.fresh 1)).2 := by
  let m : Memory Bool := { Memory.fresh 1 with poolIndex := 1 }.own true 0
  have hfirst : Call.Finishes (.fresh 1) (some (.block 0)) m (.requisitionBlock true .cannotAlloc true) := ⟨2, rfl⟩
  have hreturn : Call.Finishes m none _ (.returnBlock true 0) := ⟨5, rfl⟩
  have hready : Call.Ready m (.returnBlock true 0) := rfl
  have hcall : Call.Ready (Memory.fresh 1 : Memory Bool) (.requisitionBlock true .cannotAlloc true) := trivial
  obtain ⟨-, hm, -⟩ := refines_blockManager (by decide) (.cons hcall hfirst (.cons hready hreturn .nil))
  exact ⟨_, hm⟩

end Alone

end SharedManager

end LockFreeStructures
