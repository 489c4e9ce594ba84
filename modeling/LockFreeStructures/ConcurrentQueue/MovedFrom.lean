import LockFreeStructures.ConcurrentQueue.ConsumerToken
import LockFreeStructures.ConcurrentQueue.Move
import LockFreeStructures.ConcurrentQueue.ProducerToken
import LockFreeStructures.FastQueue.Renaming

/-!
# `ConcurrentQueue.MovedFrom` — a queue that was moved from

A queue that was moved from is used like a new one, but its nodes and blocks have names behind those that exist
already. `Renamed` relates a world with a new queue to one with a queue that was moved from; it is kept by all calls
that do without the table of the implicit producers, and these give the same replies. The others end in undefined
behaviour: there is no table.
-/

namespace LockFreeStructures

namespace ConcurrentQueue

variable {K α ρ : Type}

def ProducerToken.rename (n : ℕ) (tok : ProducerToken) : ProducerToken := ⟨tok.producerNode.map (· + n)⟩

def ConsumerToken.rename (n : ℕ) (tok : ConsumerToken) : ConsumerToken :=
  { tok with
    currentProducer := tok.currentProducer.map (· + n)
    desiredProducer := tok.desiredProducer.map (· + n) }

namespace World

variable {tr : Traits K} {q n a p t : ℕ} {old : ℕ → HakleBlock FlagsCheckPolicy α} {v v' w w' w₀ : World K α}

/-! ## The relation -/

/-- The same node `n` names higher, its blocks `a` names higher. What is stored in the producer of manager and
    blocks is not read. -/
structure RenamedNode (K : Type) (q n a : ℕ) (old : ℕ → HakleBlock FlagsCheckPolicy α)
    (x y : ProducerListNode α) : Prop where
  next : y.next = x.next.map (· + n)
  inactive : y.inactive = x.inactive
  manager : x.manager = q
  manager' : y.manager = q
  producer : ∃ s s', x.producer = .explicit s ∧ y.producer = .explicit s' ∧
    ∀ c : ConcurrentQueue K α, loadExplicit s' c = loadExplicit (s.rename a old) c

structure RenamedQueue (n a : ℕ) (old : ℕ → HakleBlock FlagsCheckPolicy α) (c c' : ConcurrentQueue K α) : Prop where
  head : c'.producerListsHead = c.producerListsHead.map (· + n)
  count : c'.producerCount = c.producerCount
  offset : c'.globalExplicitConsumerOffset = c.globalExplicitConsumerOffset
  consumerId : c'.nextExplicitConsumerId = c.nextExplicitConsumerId
  unreturned : c.explicitManager.Unreturned
  manager : ∀ out, { c'.explicitManager with outstanding := out.map (· + a) } =
    { c.explicitManager with outstanding := out }.rename a
  blocks : c'.explicitBlocks = FastQueue.renameBlocks a old c.explicitBlocks

/-- Queue `q` is new in `v`; in `w` it is the one of `w₀` with the nodes and blocks behind those of `w₀`. -/
structure Renamed (q n a : ℕ) (old : ℕ → HakleBlock FlagsCheckPolicy α) (w₀ v w : World K α) : Prop where
  queue : RenamedQueue n a old (v.queues q) (w.queues q)
  node : ∀ p < v.nodeCount, RenamedNode K q n a old (v.nodes p) (w.nodes (p + n))
  nodeCount : w.nodeCount = v.nodeCount + n
  producerToken : ∀ t, w.producerTokens t = ((v.producerTokens t).map (.rename n)).or (w₀.producerTokens t)
  consumerToken : ∀ t, w.consumerTokens t = ((v.consumerTokens t).map (.rename n)).or (w₀.consumerTokens t)
  newProducerToken : ∀ t, v.producerTokens t ≠ none → w₀.producerTokens t = none
  newConsumerToken : ∀ t, v.consumerTokens t ≠ none → w₀.consumerTokens t = none
  nodes : ∀ p < n, w.nodes p = w₀.nodes p
  queues : ∀ q' ≠ q, w.queues q' = w₀.queues q'
  implicitManager : (w.queues q).implicitManager = (w₀.queues q).implicitManager
  implicitBlocks : (w.queues q).implicitBlocks = (w₀.queues q).implicitBlocks

/-- Outside queue `q` nothing was changed, and of the nodes and blocks only new ones were used. -/
structure Untouched (q : ℕ) (w w' : World K α) : Prop where
  nodes : ∀ p < w.nodeCount, w'.nodes p = w.nodes p
  queues : ∀ q' ≠ q, w'.queues q' = w.queues q'
  explicitBlocks : ∀ p < (w.queues q).explicitManager.blockCount,
    (w'.queues q).explicitBlocks p = (w.queues q).explicitBlocks p
  implicitBlocks : (w'.queues q).implicitBlocks = (w.queues q).implicitBlocks
  producerTokens : ∀ t, w.producerTokens t ≠ none → w'.producerTokens t = w.producerTokens t
  consumerTokens : ∀ t, w.consumerTokens t ≠ none → w'.consumerTokens t = w.consumerTokens t

namespace Renamed

/-- The queue is changed. -/
theorem setQueue (h : Renamed q n a old w₀ v w) {c c' : ConcurrentQueue K α} (hc : RenamedQueue n a old c c')
    (himplicit : c'.implicitManager = (w.queues q).implicitManager ∧ c'.implicitBlocks = (w.queues q).implicitBlocks) :
    Renamed q n a old w₀ { v with queues := Function.update v.queues q c }
      { w with queues := Function.update w.queues q c' } :=
  { h with
    queue := by simpa only [Function.update_self] using hc
    queues := fun q' hq' => by simpa only [Function.update_of_ne hq'] using h.queues q' hq'
    implicitManager := by simpa only [Function.update_self] using himplicit.1.trans h.implicitManager
    implicitBlocks := by simpa only [Function.update_self] using himplicit.2.trans h.implicitBlocks }

/-- A node is changed. -/
theorem setNode (h : Renamed q n a old w₀ v w) {x y : ProducerListNode α} (hxy : RenamedNode K q n a old x y) :
    Renamed q n a old w₀ { v with nodes := Function.update v.nodes p x }
      { w with nodes := Function.update w.nodes (p + n) y } :=
  { h with
    node := fun p' hp' => by
      by_cases heq : p' = p
      · simpa only [heq, Function.update_self] using hxy
      · have hne : p' + n ≠ p + n := fun h => heq (Nat.add_right_cancel h)
        simpa only [Function.update_of_ne heq, Function.update_of_ne hne] using h.node p' hp'
    nodes := fun p' hp' => by
      have hne : p' ≠ p + n := Nat.ne_of_lt (Nat.lt_of_lt_of_le hp' (Nat.le_add_left n p))
      simpa only [Function.update_of_ne hne] using h.nodes p' hp' }

theorem storeExplicit (h : Renamed q n a old w₀ v w) (hp : p < v.nodeCount) (s : FastQueue α)
    (hs : s.blockManager.Unreturned) :
    Renamed q n a old w₀ (v.storeExplicit p s) (w.storeExplicit (p + n) (s.rename a old)) := by
  have hnode := h.node p hp
  have hstore : ∀ (u : World K α) (p : ℕ) (s : FastQueue α), (u.nodes p).manager = q → u.storeExplicit p s =
      { u with
        queues := Function.update u.queues q
          { u.queues q with explicitManager := s.blockManager, explicitBlocks := s.blocks }
        nodes := Function.update u.nodes p { u.nodes p with producer := .explicit s } } := by
    rintro u p s rfl
    rfl
  rw [hstore v p s hnode.manager, hstore w (p + n) _ hnode.manager']
  have hqueue : RenamedQueue n a old
      { v.queues q with explicitManager := s.blockManager, explicitBlocks := s.blocks }
      { w.queues q with explicitManager := (s.rename a old).blockManager, explicitBlocks := (s.rename a old).blocks } :=
    ⟨h.queue.head, h.queue.count, h.queue.offset, h.queue.consumerId, hs, fun _ => rfl, rfl⟩
  refine (h.setQueue hqueue ⟨rfl, rfl⟩).setNode ?_
  exact ⟨hnode.next, hnode.inactive, hnode.manager, hnode.manager', s, _, rfl, rfl, fun _ => rfl⟩

/-- **Calls of a producer.** -/
theorem onProducer (h : Renamed q n a old w₀ v w) (hp : p < v.nodeCount) {r : ρ}
    {f : FastQueue α → Option (ρ × FastQueue α)} {g : SlowQueue α → Option (ρ × SlowQueue α)}
    (hf : ∀ s s', s.blockManager.Unreturned → f s = some (r, s') →
      f (s.rename a old) = some (r, s'.rename a old) ∧ s'.blockManager.Unreturned)
    (hcall : v.onProducer p f g = some (r, v')) :
    ∃ w', w.onProducer (p + n) f g = some (r, w') ∧ Renamed q n a old w₀ v' w' := by
  obtain ⟨hnext, hinactive, hmanager, hmanager', s, s', hs, hs', hload⟩ := h.node p hp
  simp only [World.onProducer, hs, Option.map_eq_some_iff, Prod.mk.injEq] at hcall
  obtain ⟨⟨r, t⟩, hft, rfl, rfl⟩ := hcall
  rw [hmanager] at hft
  have hloaded : loadExplicit s' (w.queues q) = (loadExplicit s (v.queues q)).rename a old := by
    rw [hload]
    simp only [loadExplicit, FastQueue.rename, ← h.queue.manager, h.queue.blocks]
    rfl
  have hunreturned : (loadExplicit s (v.queues q)).blockManager.Unreturned :=
    ⟨h.queue.unreturned.freeList, h.queue.unreturned.poolIndex_le, h.queue.unreturned.allocated⟩
  obtain ⟨hft', ht⟩ := hf _ t hunreturned hft
  refine ⟨w.storeExplicit (p + n) (t.rename a old), ?_, ?_⟩
  · simp only [World.onProducer, hs', hmanager', hloaded, hft', Option.map_some]
  · exact h.storeExplicit hp t ht

section Calls

variable {r : Outcome Bool} {x : Option α} {xs : List α}

theorem producerEnqueue (h : Renamed q n a old w₀ v w) (hp : p < v.nodeCount) {x : α}
    (hcall : v.producerEnqueue tr p .canAlloc (some x) [] = some (r, v')) :
    ∃ w', w.producerEnqueue tr (p + n) .canAlloc (some x) [] = some (r, w') ∧ Renamed q n a old w₀ v' w' := by
  refine h.onProducer hp (fun s s' hs henq => ⟨?_, ?_⟩) hcall
  · have hready : (s.begin []).Ready := ⟨rfl, hs⟩
    exact FastQueue.enqueue_rename hready henq
  · exact (FastQueue.acquires_enqueue henq).requisitions.unreturned hs

theorem producerEnqueueBulk (h : Renamed q n a old w₀ v w) (hp : p < v.nodeCount) {items : List (Option α)}
    (hitems : none ∉ items) (hcall : v.producerEnqueueBulk tr p .canAlloc items [] = some (r, v')) :
    ∃ w', w.producerEnqueueBulk tr (p + n) .canAlloc items [] = some (r, w') ∧ Renamed q n a old w₀ v' w' := by
  refine h.onProducer hp (fun s s' hs henq => ⟨?_, ?_⟩) hcall
  · have hready : (s.begin []).Ready := ⟨rfl, hs⟩
    exact FastQueue.enqueueBulk_rename hready hitems henq
  · exact (FastQueue.acquires_enqueueBulk henq).requisitions.unreturned hs

theorem producerDequeue (h : Renamed q n a old w₀ v w) (hp : p < v.nodeCount)
    (hcall : v.producerDequeue tr p = some (x, v')) :
    ∃ w', w.producerDequeue tr (p + n) = some (x, w') ∧ Renamed q n a old w₀ v' w' := by
  refine h.onProducer hp (fun s s' hs hdeq => ⟨?_, ?_⟩) hcall
  · exact FastQueue.dequeue_rename (s := s.begin []) hdeq
  · rw [FastQueue.blockManager_dequeue hdeq]
    exact hs

theorem producerDequeueBulk (h : Renamed q n a old w₀ v w) (hp : p < v.nodeCount) {maxCount : ℕ}
    (hcall : v.producerDequeueBulk tr p maxCount = some (xs, v')) :
    ∃ w', w.producerDequeueBulk tr (p + n) maxCount = some (xs, w') ∧ Renamed q n a old w₀ v' w' := by
  refine h.onProducer hp (fun s s' hs hdeq => ⟨?_, ?_⟩) hcall
  · exact FastQueue.dequeueBulk_rename (s := s.begin []) hdeq
  · rw [FastQueue.blockManager_dequeueBulk hdeq]
    exact hs

theorem producerSize (h : Renamed q n a old w₀ v w) (hp : p < v.nodeCount) :
    w.producerSize tr (p + n) = v.producerSize tr p := by
  obtain ⟨-, -, -, -, s, s', hs, hs', hload⟩ := h.node p hp
  have hheads := congrArg FastQueue.headIndex (hload (v.queues q))
  have htails := congrArg FastQueue.tailIndex (hload (v.queues q))
  simp only [World.producerSize, hs, hs', Producer.size, FastQueue.size]
  have hhead : s'.headIndex = s.headIndex := hheads
  have htail : s'.tailIndex = s.tailIndex := htails
  rw [hhead, htail]

end Calls

/-! ## The producer list -/

variable {ls : ℕ → List ℕ}

theorem linked (h : Renamed q n a old w₀ v w) {l : List ℕ} {head : Option ℕ} (hlinked : Linked v.next head l)
    (hl : ∀ p ∈ l, p < v.nodeCount) : Linked w.next (head.map (· + n)) (l.map (· + n)) := by
  induction l generalizing head with
  | nil =>
      obtain rfl : head = none := hlinked
      exact .nil
  | cons p l ih =>
      obtain ⟨rfl, hlinked⟩ := hlinked
      have hnext : w.next (p + n) = (v.next p).map (· + n) := (h.node p (hl p List.mem_cons_self)).next
      refine ⟨rfl, ?_⟩
      rw [hnext]
      exact ih hlinked fun p hp => hl p (List.mem_cons_of_mem _ hp)

theorem producerList (h : Renamed q n a old w₀ v w) (hlisted : Listed v ls) :
    w.producerList q = some ((ls q).map (· + n)) := by
  have hlinked := h.linked (hlisted.linked q) fun p hp => ((hlisted.mem q p).mp hp).1
  rw [← h.queue.head] at hlinked
  refine hlinked.nodesFrom ?_
  rw [List.length_map, h.nodeCount]
  exact Nat.le_add_right_of_le (hlisted.length_le q)

theorem findInactive (h : Renamed q n a old w₀ v w) {ps : List ℕ} (hps : ∀ p ∈ ps, p < v.nodeCount) :
    w.findInactive .explicit (ps.map (· + n)) = (v.findInactive .explicit ps).map (· + n) := by
  induction ps with
  | nil => rfl
  | cons p ps ih =>
      obtain ⟨-, hinactive, -, -, s, s', hs, hs', -⟩ := h.node p (hps p List.mem_cons_self)
      have ih := ih fun p hp => hps p (List.mem_cons_of_mem _ hp)
      simp only [World.findInactive, List.map_cons, hinactive, hs, hs', Producer.type, and_true, ih]
      split <;> rfl

/-- A node is marked as active or not. -/
theorem setInactive (h : Renamed q n a old w₀ v w) (hp : p < v.nodeCount) (b : Bool) :
    Renamed q n a old w₀ (v.modifyNode p fun x => { x with inactive := b })
      (w.modifyNode (p + n) fun x => { x with inactive := b }) := by
  have hnode := h.node p hp
  exact h.setNode ⟨hnode.next, rfl, hnode.manager, hnode.manager', hnode.producer⟩

/-- A new producer. -/
theorem push (h : Renamed q n a old w₀ v w) {s : FastQueue α}
    (hs : ∀ c : ConcurrentQueue K α, loadExplicit s c = loadExplicit (s.rename a old) c) :
    Renamed q n a old w₀ (v.push q (.explicit s)) (w.push q (.explicit s)) where
  queue := by
    simp only [World.push, Function.update_self]
    refine ⟨?_, ?_, h.queue.offset, h.queue.consumerId, h.queue.unreturned, h.queue.manager, h.queue.blocks⟩
    · simp only [h.nodeCount, Option.map_some]
    · rw [h.queue.count]
  node p hp := by
    simp only [World.push, h.nodeCount]
    by_cases heq : p = v.nodeCount
    · subst heq
      simp only [Function.update_self]
      exact ⟨h.queue.head, rfl, rfl, rfl, s, s, rfl, rfl, hs⟩
    · have hne : p + n ≠ v.nodeCount + n := fun h => heq (Nat.add_right_cancel h)
      simp only [Function.update_of_ne heq, Function.update_of_ne hne]
      exact h.node p (Nat.lt_of_le_of_ne (Nat.le_of_lt_succ hp) heq)
  nodeCount := by
    show w.nodeCount + 1 = v.nodeCount + 1 + n
    rw [h.nodeCount, Nat.add_right_comm]
  producerToken := h.producerToken
  consumerToken := h.consumerToken
  newProducerToken := h.newProducerToken
  newConsumerToken := h.newConsumerToken
  nodes p hp := by
    have hne : p ≠ w.nodeCount := by
      rw [h.nodeCount]
      exact Nat.ne_of_lt (Nat.lt_of_lt_of_le hp (Nat.le_add_left _ _))
    simpa only [World.push, Function.update_of_ne hne] using h.nodes p hp
  queues q' hq' := by simpa only [World.push, Function.update_of_ne hq'] using h.queues q' hq'
  implicitManager := by simpa only [World.push, Function.update_self] using h.implicitManager
  implicitBlocks := by simpa only [World.push, Function.update_self] using h.implicitBlocks

/-- **Requests for a node.** -/
theorem getProducerListNode (h : Renamed q n a old w₀ v w) (hlisted : Listed v ls)
    (hcall : v.getProducerListNode tr q .explicit = some (p, v')) :
    ∃ w', w.getProducerListNode tr q .explicit = some (p + n, w') ∧ Renamed q n a old w₀ v' w' ∧
      v'.producerTokens = v.producerTokens ∧ p < v'.nodeCount := by
  have hls : ∀ p ∈ ls q, p < v.nodeCount := fun p hp => ((hlisted.mem q p).mp hp).1
  simp only [World.getProducerListNode, hlisted.producerList, h.producerList hlisted, h.findInactive hls,
    Option.bind_eq_bind, Option.bind_some] at hcall ⊢
  cases hfind : v.findInactive .explicit (ls q) with
  | some p' =>
      rw [hfind] at hcall
      obtain ⟨rfl, rfl⟩ := Prod.mk.inj (Option.some.inj hcall)
      have hp := hls p' (findInactive_eq_some hfind).1
      exact ⟨_, rfl, h.setInactive hp false, rfl, hp⟩
  | none =>
      rw [hfind] at hcall
      have hcreate : ∀ (u : World K α) (s : FastQueue α),
          FastQueue.fresh tr.toCfg tr.initialExplicitQueueSize 0 [] = some s →
          (u.createProducerListNode tr q .explicit).bind (fun r => some (r.1, r.2.addProducer q r.1)) =
            some (u.nodeCount, u.push q (.explicit s)) := by
        intro u s hs
        simp only [World.createProducerListNode, newProducer, hs, Option.map_some, Option.bind_eq_bind,
          Option.bind_some, World.addProducer, World.modifyNode, World.modifyQueue, World.push, Function.update_self,
          Function.update_idem]
      cases hfresh : (FastQueue.fresh tr.toCfg tr.initialExplicitQueueSize 0 [] : Option (FastQueue α)) with
      | none =>
          simp only [World.createProducerListNode, newProducer, hfresh, Option.map_none, Option.bind_eq_bind,
            Option.bind_none] at hcall
          exact absurd hcall (by rintro ⟨⟩)
      | some s =>
          have hv := hcreate v s hfresh
          have hw := hcreate w s hfresh
          obtain ⟨rfl, rfl⟩ := Prod.mk.inj (Option.some.inj (hv.symm.trans hcall))
          refine ⟨w.push q (.explicit s), ?_, h.push fun c => ?_, rfl, Nat.lt_succ_self _⟩
          · rw [h.nodeCount] at hw
            exact hw
          · obtain ⟨hmanager, hrename⟩ := FastQueue.fresh_rename hfresh a old
            simp only [hrename, loadExplicit, hmanager, BlockManager.rename, BlockManager.fresh, List.map_nil]

/-! ## Dequeues without a token -/

section Dequeue

variable {x : Option α} {xs : List α} {ps : List ℕ}

theorem findBest (h : Renamed q n a old w₀ v w) (hps : ∀ p ∈ ps, p < v.nodeCount) (nonEmptyCount : ℕ)
    (best : Option ℕ) (bestSize : ℕ) :
    w.findBest tr (ps.map (· + n)) nonEmptyCount (best.map (· + n)) bestSize =
      (v.findBest tr ps nonEmptyCount best bestSize).map id (Option.map (· + n)) := by
  induction ps generalizing nonEmptyCount best bestSize with
  | nil => rfl
  | cons p ps ih =>
      have ih := ih fun p hp => hps p (List.mem_cons_of_mem _ hp)
      have hbest : (if bestSize < v.producerSize tr p then (some (p + n), v.producerSize tr p)
          else (best.map (· + n), bestSize)) =
          (if bestSize < v.producerSize tr p then (some p, v.producerSize tr p) else (best, bestSize)).map
            (Option.map (· + n)) id := by
        split <;> rfl
      simp only [World.findBest, List.map_cons, h.producerSize (hps p List.mem_cons_self), hbest]
      rcases (if bestSize < v.producerSize tr p then (some p, v.producerSize tr p) else (best, bestSize)) with ⟨b, s⟩
      generalize (if 0 < v.producerSize tr p then nonEmptyCount + 1 else nonEmptyCount) = count
      simp only [Prod.map_apply, id_eq, ih]
      by_cases hcount : count < 3
      · rw [if_pos hcount, if_pos hcount]
      · rw [if_neg hcount, if_neg hcount]
        rfl

/-- The producer the search prefers is in the list. -/
theorem findBest_mem {nonEmptyCount bestSize : ℕ} {best : Option ℕ} (hbest : ∀ p, best = some p → p ∈ ls q)
    (hps : ∀ p ∈ ps, p ∈ ls q) : ∀ p, (v.findBest tr ps nonEmptyCount best bestSize).2 = some p → p ∈ ls q := by
  induction ps generalizing nonEmptyCount best bestSize with
  | nil => exact hbest
  | cons p ps ih =>
      have ih := fun {nonEmptyCount bestSize best} hbest =>
        @ih nonEmptyCount bestSize best hbest fun p hp => hps p (List.mem_cons_of_mem _ hp)
      have hsome : ∀ p', some p = some p' → p' ∈ ls q := fun p' heq => Option.some.inj heq ▸ hps p List.mem_cons_self
      simp only [World.findBest]
      generalize (if 0 < v.producerSize tr p then nonEmptyCount + 1 else nonEmptyCount) = count
      by_cases hsize : bestSize < v.producerSize tr p
      · simp only [if_pos hsize]
        split
        · exact ih hsome
        · exact hsome
      · simp only [if_neg hsize]
        split
        · exact ih hbest
        · exact hbest

theorem dequeueFirst (h : Renamed q n a old w₀ v w) (hps : ∀ p ∈ ps, p < v.nodeCount) {skip : Option ℕ}
    (hcall : World.dequeueFirst tr skip ps v = some (x, v')) :
    ∃ w', World.dequeueFirst tr (skip.map (· + n)) (ps.map (· + n)) w = some (x, w') ∧
      Renamed q n a old w₀ v' w' := by
  induction ps generalizing v w with
  | nil =>
      obtain ⟨rfl, rfl⟩ := Prod.mk.inj (Option.some.inj hcall)
      exact ⟨w, rfl, h⟩
  | cons p ps ih =>
      have hskip : some (p + n) = skip.map (· + n) ↔ some p = skip := by
        cases skip <;> simp
      simp only [World.dequeueFirst, List.map_cons, hskip] at hcall ⊢
      by_cases heq : some p = skip
      · rw [if_pos heq] at hcall ⊢
        exact ih h (fun p hp => hps p (List.mem_cons_of_mem _ hp)) hcall
      · rw [if_neg heq] at hcall ⊢
        simp only [Option.bind_eq_bind, Option.bind_eq_some_iff, Prod.exists] at hcall
        obtain ⟨r, v₁, hdeq, hcall⟩ := hcall
        obtain ⟨w₁, hdeq', h₁⟩ := h.producerDequeue (hps p List.mem_cons_self) hdeq
        rw [hdeq', Option.bind_eq_bind, Option.bind_some]
        cases r with
        | some b =>
            simp only [Option.some.injEq, Prod.mk.injEq] at hcall
            obtain ⟨rfl, rfl⟩ := hcall
            exact ⟨w₁, rfl, h₁⟩
        | none =>
            refine ih h₁ (fun p hp => ?_) hcall
            rw [(onProducer_frame hdeq).nodeCount]
            exact hps p (List.mem_cons_of_mem _ hp)

theorem tryDequeue (h : Renamed q n a old w₀ v w) (hlisted : Listed v ls)
    (hcall : v.tryDequeue tr q = some (x, v')) :
    ∃ w', w.tryDequeue tr q = some (x, w') ∧ Renamed q n a old w₀ v' w' := by
  have hls : ∀ p ∈ ls q, p < v.nodeCount := fun p hp => ((hlisted.mem q p).mp hp).1
  have hbest : w.findBest tr ((ls q).map (· + n)) 0 none 0 =
      (v.findBest tr (ls q) 0 none 0).map id (Option.map (· + n)) := h.findBest hls 0 none 0
  simp only [World.tryDequeue, hlisted.producerList, h.producerList hlisted, Option.bind_eq_bind, Option.bind_some]
    at hcall ⊢
  rw [hbest]
  rcases hfind : v.findBest tr (ls q) 0 none 0 with ⟨count, best⟩
  simp only [hfind, Prod.map_apply, id_eq] at hcall ⊢
  by_cases hcount : 0 < count
  · rw [if_pos hcount] at hcall ⊢
    simp only [Option.bind_eq_some_iff, Prod.exists] at hcall
    obtain ⟨p, rfl, r, v₁, hdeq, hcall⟩ := hcall
    have hnone : ∀ p, none = some p → p ∈ ls q := nofun
    have hp : p < v.nodeCount := hls p (findBest_mem hnone (fun _ hp => hp) p (congrArg Prod.snd hfind))
    obtain ⟨w₁, hdeq', h₁⟩ := h.producerDequeue hp hdeq
    simp only [Option.map_some, Option.bind_some, hdeq']
    cases r with
    | some b =>
        obtain ⟨rfl, rfl⟩ := Prod.mk.inj (Option.some.inj hcall)
        exact ⟨w₁, rfl, h₁⟩
    | none =>
        have hls₁ : ∀ p' ∈ ls q, p' < v₁.nodeCount := by
          rw [(onProducer_frame hdeq).nodeCount]
          exact hls
        exact h₁.dequeueFirst hls₁ hcall
  · rw [if_neg hcount] at hcall ⊢
    obtain ⟨rfl, rfl⟩ := Prod.mk.inj (Option.some.inj hcall)
    exact ⟨w, rfl, h⟩

theorem dequeueBulkFirst (h : Renamed q n a old w₀ v w) (hps : ∀ p ∈ ps, p < v.nodeCount) {need : ℕ}
    (hcall : World.dequeueBulkFirst tr ps need v = some (xs, v')) :
    ∃ w', World.dequeueBulkFirst tr (ps.map (· + n)) need w = some (xs, w') ∧ Renamed q n a old w₀ v' w' := by
  induction ps generalizing v w need xs with
  | nil =>
      obtain ⟨rfl, rfl⟩ := Prod.mk.inj (Option.some.inj hcall)
      exact ⟨w, rfl, h⟩
  | cons p ps ih =>
      simp only [World.dequeueBulkFirst, Option.bind_eq_bind, Option.bind_eq_some_iff, Prod.exists] at hcall
      obtain ⟨ys, v₁, hdeq, hcall⟩ := hcall
      obtain ⟨w₁, hdeq', h₁⟩ := h.producerDequeueBulk (hps p List.mem_cons_self) hdeq
      simp only [World.dequeueBulkFirst, List.map_cons, Option.bind_eq_bind, hdeq', Option.bind_some]
      by_cases hlen : ys.length = need
      · rw [if_pos hlen] at hcall ⊢
        obtain ⟨rfl, rfl⟩ := Prod.mk.inj (Option.some.inj hcall)
        exact ⟨w₁, rfl, h₁⟩
      · rw [if_neg hlen] at hcall ⊢
        simp only [Option.bind_eq_some_iff, Prod.exists, Option.some.injEq, Prod.mk.injEq] at hcall
        obtain ⟨zs, v₂, hrest, rfl, rfl⟩ := hcall
        obtain ⟨w₂, hrest', h₂⟩ := ih h₁ (fun p hp => by
          rw [(onProducer_frame hdeq).nodeCount]
          exact hps p (List.mem_cons_of_mem _ hp)) hrest
        exact ⟨w₂, by rw [hrest', Option.bind_some], h₂⟩

theorem tryDequeueBulk (h : Renamed q n a old w₀ v w) (hlisted : Listed v ls) {maxCount : ℕ}
    (hcall : v.tryDequeueBulk tr q maxCount = some (xs, v')) :
    ∃ w', w.tryDequeueBulk tr q maxCount = some (xs, w') ∧ Renamed q n a old w₀ v' w' := by
  simp only [World.tryDequeueBulk, hlisted.producerList, h.producerList hlisted, Option.bind_eq_bind,
    Option.bind_some] at hcall ⊢
  exact h.dequeueBulkFirst (fun p hp => ((hlisted.mem q p).mp hp).1) hcall

end Dequeue

/-! ## Dequeues with a consumer token -/

section Consume

variable {tok tok' : ConsumerToken} {x : Option α} {xs : List α} {S : Set ℕ}

/-- The node behind one in the list, or the first one. -/
theorem next_or (h : Renamed q n a old w₀ v w) (hp : p < v.nodeCount) :
    (w.next (p + n)).or (w.queues q).producerListsHead =
      ((v.next p).or (v.queues q).producerListsHead).map (· + n) := by
  have hnext : w.next (p + n) = (v.next p).map (· + n) := (h.node p hp).next
  rw [hnext, h.queue.head, ← Option.map_or]

theorem advance (h : Renamed q n a old w₀ v w) (hround : Round q S v) (hS : ∀ p ∈ S, p < v.nodeCount) {k p' : ℕ}
    (hp : p ∈ S) (hadv : LockFreeStructures.advance v.next (v.queues q).producerListsHead k p = some p') :
    LockFreeStructures.advance w.next (w.queues q).producerListsHead k (p + n) = some (p' + n) := by
  induction k generalizing p with
  | zero =>
      obtain rfl := Option.some.inj hadv
      rfl
  | succ k ih =>
      obtain ⟨p₁, hnext, hadv⟩ := Option.bind_eq_some_iff.mp hadv
      have hnext' : (w.next (p + n)).or (w.queues q).producerListsHead = some (p₁ + n) := by
        rw [h.next_or (hS p hp), hnext, Option.map_some]
      simp only [LockFreeStructures.advance, hnext', Option.bind_eq_bind, Option.bind_some]
      exact ih (hround.next p hp p₁ hnext) hadv

theorem startProducer (h : Renamed q n a old w₀ v w) (hround : Round q S v)
    (hS : ∀ p ∈ S, p < v.nodeCount) (hin : ConsumerToken.In S tok) (hstart : v.startProducer q tok = some p) :
    w.startProducer q (tok.rename n) = some (p + n) ∧ p ∈ S := by
  simp only [World.startProducer, ConsumerToken.rename, h.queue.count] at hstart ⊢
  cases hdesired : tok.desiredProducer with
  | some p' =>
      rw [hdesired] at hstart
      obtain rfl := Option.some.inj hstart
      exact ⟨rfl, hin.desired p' hdesired⟩
  | none =>
      simp only [hdesired, Option.map_none] at hstart ⊢
      split at hstart
      · cases hstart
      · next hcount =>
        obtain ⟨head, hhead, hadv⟩ := Option.bind_eq_some_iff.mp hstart
        have hmem := hround.head head hhead
        refine ⟨?_, hround.advance hmem hadv⟩
        have hadv' := h.advance hround hS hmem hadv
        rw [if_neg hcount]
        simpa only [h.queue.head, hhead, Option.map_some, Option.bind_some] using hadv'

theorem updateProducerForConsumer (h : Renamed q n a old w₀ v w) (hround : Round q S v)
    (hS : ∀ p ∈ S, p < v.nodeCount) (hin : ConsumerToken.In S tok) {ok : Bool}
    (hcall : v.updateProducerForConsumer q tok = some (ok, tok')) :
    w.updateProducerForConsumer q (tok.rename n) = some (ok, tok'.rename n) := by
  have hdesired : (tok.rename n).desiredProducer = none ↔ tok.desiredProducer = none := Option.map_eq_none_iff
  have hhead : (w.queues q).producerListsHead = none ↔ (v.queues q).producerListsHead = none := by
    rw [h.queue.head, Option.map_eq_none_iff]
  simp only [World.updateProducerForConsumer, hdesired, hhead] at hcall ⊢
  split at hcall
  · next hnone =>
    obtain ⟨rfl, rfl⟩ := Prod.mk.inj (Option.some.inj hcall)
    rw [if_pos hnone]
  · next hsome =>
    rw [if_neg hsome]
    simp only [Option.bind_eq_bind, Option.bind_eq_some_iff, Option.some.injEq, Prod.mk.injEq] at hcall ⊢
    obtain ⟨start, hstart, k, hdelta, p, hadv, rfl, rfl⟩ := hcall
    have hdelta' : w.delta q (tok.rename n) = some k := by
      simp only [World.delta, h.queue.count, h.queue.offset]
      exact hdelta
    obtain ⟨hstart', hmem⟩ := h.startProducer hround hS hin hstart
    refine ⟨start + n, hstart', k, hdelta', p + n, h.advance hround hS hmem hadv, rfl, ?_⟩
    simp only [ConsumerToken.rename, Option.map_some, h.queue.offset]

theorem refresh (h : Renamed q n a old w₀ v w) (hround : Round q S v) (hS : ∀ p ∈ S, p < v.nodeCount)
    (hin : ConsumerToken.In S tok) {ok : Bool} (hcall : v.refresh q tok = some (ok, tok')) :
    w.refresh q (tok.rename n) = some (ok, tok'.rename n) := by
  have hdesired : (tok.rename n).desiredProducer = none ↔ tok.desiredProducer = none := Option.map_eq_none_iff
  have hlast : (tok.rename n).lastKnownGlobalOffset = tok.lastKnownGlobalOffset := rfl
  unfold World.refresh at hcall ⊢
  simp only [hdesired, hlast, h.queue.offset]
  split at hcall
  · next hold =>
    rw [if_pos hold]
    exact h.updateProducerForConsumer hround hS hin hcall
  · next hnew =>
    rw [if_neg hnew]
    obtain ⟨rfl, rfl⟩ := Prod.mk.inj (Option.some.inj hcall)
    rfl

theorem dequeueOthers (h : Renamed q n a old w₀ v w) (hround : Round q S v) (hS : ∀ p ∈ S, p < v.nodeCount)
    {fuel fuel' : ℕ} {node : Option ℕ} (hfuel : fuel ≤ fuel') (hnode : ∀ p, node = some p → p ∈ S)
    (hcall : World.dequeueOthers tr (v.queues q).producerListsHead fuel node tok v = some (x, tok', v')) :
    ∃ w', World.dequeueOthers tr (w.queues q).producerListsHead fuel' (node.map (· + n)) (tok.rename n) w =
      some (x, tok'.rename n, w') ∧ Renamed q n a old w₀ v' w' := by
  induction fuel generalizing fuel' node v w with
  | zero => exact absurd hcall nofun
  | succ fuel ih =>
      obtain ⟨fuel', rfl⟩ := Nat.exists_eq_add_of_le' (Nat.lt_of_lt_of_le (Nat.succ_pos fuel) hfuel)
      have hcurrent : node.map (· + n) = (tok.rename n).currentProducer ↔ node = tok.currentProducer :=
        Option.map_inj_right fun _ _ h => Nat.add_right_cancel h
      simp only [World.dequeueOthers, hcurrent] at hcall ⊢
      split at hcall
      · next heq =>
        simp only [Option.some.injEq, Prod.mk.injEq] at hcall
        obtain ⟨rfl, rfl, rfl⟩ := hcall
        exact ⟨w, if_pos heq, h⟩
      · next hne =>
        rw [if_neg hne]
        simp only [Option.bind_eq_bind, Option.bind_eq_some_iff, Prod.exists] at hcall
        obtain ⟨p, rfl, r, v₁, hdeq, hcall⟩ := hcall
        have hp := hnode p rfl
        obtain ⟨w₁, hdeq', h₁⟩ := h.producerDequeue (hS p hp) hdeq
        simp only [Option.map_some, Option.bind_eq_bind, Option.bind_some, hdeq']
        cases r with
        | some b =>
            simp only [Option.some.injEq, Prod.mk.injEq] at hcall
            obtain ⟨rfl, rfl, rfl⟩ := hcall
            exact ⟨w₁, rfl, h₁⟩
        | none =>
            have hframe := onProducer_frame hdeq
            have hframe' := onProducer_frame hdeq'
            rw [← hframe.head] at hcall
            rw [← hframe'.head, h₁.next_or (hframe.nodeCount ▸ hS p hp)]
            refine ih h₁ (hround.frame hframe) ?_ (Nat.le_of_succ_le_succ hfuel) ?_ hcall
            · rw [hframe.nodeCount]
              exact hS
            · exact (hround.frame hframe).next p hp

theorem dequeueBulkOthers (h : Renamed q n a old w₀ v w) (hround : Round q S v) (hS : ∀ p ∈ S, p < v.nodeCount)
    {fuel fuel' need : ℕ} {node : Option ℕ} (hfuel : fuel ≤ fuel') (hnode : ∀ p, node = some p → p ∈ S)
    (hcall : World.dequeueBulkOthers tr (v.queues q).producerListsHead fuel node need tok v = some (xs, tok', v')) :
    ∃ w', World.dequeueBulkOthers tr (w.queues q).producerListsHead fuel' (node.map (· + n)) need (tok.rename n) w =
      some (xs, tok'.rename n, w') ∧ Renamed q n a old w₀ v' w' := by
  induction fuel generalizing fuel' node need tok xs v w with
  | zero => exact absurd hcall nofun
  | succ fuel ih =>
      obtain ⟨fuel', rfl⟩ := Nat.exists_eq_add_of_le' (Nat.lt_of_lt_of_le (Nat.succ_pos fuel) hfuel)
      have hcurrent : node.map (· + n) = (tok.rename n).currentProducer ↔ node = tok.currentProducer :=
        Option.map_inj_right fun _ _ h => Nat.add_right_cancel h
      simp only [World.dequeueBulkOthers, hcurrent] at hcall ⊢
      split at hcall
      · next heq =>
        simp only [Option.some.injEq, Prod.mk.injEq] at hcall
        obtain ⟨rfl, rfl, rfl⟩ := hcall
        exact ⟨w, if_pos heq, h⟩
      · next hne =>
        rw [if_neg hne]
        simp only [Option.bind_eq_bind, Option.bind_eq_some_iff, Prod.exists] at hcall
        obtain ⟨p, rfl, ys, v₁, hdeq, hcall⟩ := hcall
        have hp := hnode p rfl
        obtain ⟨w₁, hdeq', h₁⟩ := h.producerDequeueBulk (hS p hp) hdeq
        simp only [Option.map_some, Option.bind_eq_bind, Option.bind_some, hdeq']
        have htok : (if ys.length ≠ 0 then
            { tok.rename n with currentProducer := some (p + n), itemsConsumed := ys.length } else tok.rename n) =
            (if ys.length ≠ 0 then { tok with currentProducer := some p, itemsConsumed := ys.length } else tok).rename n := by
          split <;> rfl
        simp only [htok]
        generalize (if ys.length ≠ 0 then
          { tok with currentProducer := some p, itemsConsumed := ys.length } else tok) = tok₁ at hcall ⊢
        split at hcall
        · next hlen =>
          simp only [Option.some.injEq, Prod.mk.injEq] at hcall
          obtain ⟨rfl, rfl, rfl⟩ := hcall
          exact ⟨w₁, if_pos hlen, h₁⟩
        · next hlen =>
          rw [if_neg hlen]
          simp only [Option.bind_eq_some_iff, Prod.exists, Option.some.injEq, Prod.mk.injEq] at hcall
          obtain ⟨zs, tok₂, v₂, hrest, rfl, rfl, rfl⟩ := hcall
          have hframe := onProducer_frame hdeq
          rw [← hframe.head] at hrest
          have hrest' : ∃ w', World.dequeueBulkOthers tr (w₁.queues q).producerListsHead fuel'
              (((v₁.next p).or (v₁.queues q).producerListsHead).map (· + n)) (need - ys.length) (tok₁.rename n) w₁ =
                some (zs, tok₂.rename n, w') ∧ Renamed q n a old w₀ v₂ w' := by
            refine ih h₁ (hround.frame hframe) ?_ (Nat.le_of_succ_le_succ hfuel) ?_ hrest
            · rw [hframe.nodeCount]
              exact hS
            · exact (hround.frame hframe).next p hp
          obtain ⟨w₂, hrest', h₂⟩ := hrest'
          refine ⟨w₂, ?_, h₂⟩
          rw [← h₁.next_or (hframe.nodeCount ▸ hS p hp), (onProducer_frame hdeq').head] at hrest'
          rw [hrest', Option.bind_some]

theorem rotate (h : Renamed q n a old w₀ v w) : Renamed q n a old w₀ (v.rotate q) (w.rotate q) := by
  refine h.setQueue ⟨h.queue.head, h.queue.count, ?_, h.queue.consumerId, h.queue.unreturned, h.queue.manager,
    h.queue.blocks⟩ ⟨rfl, rfl⟩
  simp only [h.queue.offset]

/-- **`TryDequeue( ConsumerToken& )`.** -/
theorem tryDequeueToken (h : Renamed q n a old w₀ v w) (hround : Round q S v) (hS : ∀ p ∈ S, p < v.nodeCount)
    (hin : ConsumerToken.In S tok) (hcall : v.tryDequeueToken tr q tok = some (x, tok', v')) :
    ∃ w', w.tryDequeueToken tr q (tok.rename n) = some (x, tok'.rename n, w') ∧ Renamed q n a old w₀ v' w' := by
  simp only [World.tryDequeueToken, Option.bind_eq_bind, Option.bind_eq_some_iff, Prod.exists] at hcall
  obtain ⟨ok, tok₁, hrefresh, hcall⟩ := hcall
  have hin₁ := hin.refresh hround hrefresh
  have hrefresh' := h.refresh hround hS hin hrefresh
  simp only [World.tryDequeueToken, hrefresh', Option.bind_eq_bind, Option.bind_some]
  cases ok with
  | false =>
      simp only [Bool.not_false, if_true, Option.some.injEq, Prod.mk.injEq] at hcall
      obtain ⟨rfl, rfl, rfl⟩ := hcall
      exact ⟨w, rfl, h⟩
  | true =>
      simp only [Bool.not_true, Bool.false_eq_true, if_false, Option.bind_eq_some_iff, Prod.exists] at hcall
      obtain ⟨current, hcurrent, r, v₁, hdeq, hcall⟩ := hcall
      have hp := hin₁.current current hcurrent
      obtain ⟨w₁, hdeq', h₁⟩ := h.producerDequeue (hS current hp) hdeq
      have hcurrent' : (tok₁.rename n).currentProducer = some (current + n) := congrArg (Option.map _) hcurrent
      simp only [Bool.not_true, Bool.false_eq_true, if_false, hcurrent', Option.bind_some, hdeq']
      cases r with
      | some b =>
          simp only [Option.some.injEq, Prod.mk.injEq] at hcall
          obtain ⟨rfl, rfl, rfl⟩ := hcall
          simp only [ConsumerToken.rename, hcurrent, Option.map_some]
          refine ⟨_, rfl, ?_⟩
          split
          · exact h₁.rotate
          · exact h₁
      | none =>
          have hframe := onProducer_frame hdeq
          have hframe' := onProducer_frame hdeq'
          rw [h₁.next_or (hframe.nodeCount ▸ hS current hp)]
          refine h₁.dequeueOthers (hround.frame hframe) ?_ ?_ ?_ hcall
          · rw [hframe.nodeCount]
            exact hS
          · rw [h₁.nodeCount]
            exact Nat.succ_le_succ (Nat.le_add_right _ _)
          · exact (hround.frame hframe).next current hp

/-- **`TryDequeueBulk( ConsumerToken& )`.** -/
theorem tryDequeueBulkToken (h : Renamed q n a old w₀ v w) (hround : Round q S v) (hS : ∀ p ∈ S, p < v.nodeCount)
    (hin : ConsumerToken.In S tok) {maxCount : ℕ}
    (hcall : v.tryDequeueBulkToken tr q maxCount tok = some (xs, tok', v')) :
    ∃ w', w.tryDequeueBulkToken tr q maxCount (tok.rename n) = some (xs, tok'.rename n, w') ∧
      Renamed q n a old w₀ v' w' := by
  simp only [World.tryDequeueBulkToken, Option.bind_eq_bind, Option.bind_eq_some_iff, Prod.exists] at hcall
  obtain ⟨ok, tok₁, hrefresh, hcall⟩ := hcall
  have hin₁ := hin.refresh hround hrefresh
  have hrefresh' := h.refresh hround hS hin hrefresh
  simp only [World.tryDequeueBulkToken, hrefresh', Option.bind_eq_bind, Option.bind_some]
  cases ok with
  | false =>
      simp only [Bool.not_false, if_true, Option.some.injEq, Prod.mk.injEq] at hcall
      obtain ⟨rfl, rfl, rfl⟩ := hcall
      exact ⟨w, rfl, h⟩
  | true =>
      simp only [Bool.not_true, Bool.false_eq_true, if_false, Option.bind_eq_some_iff, Prod.exists] at hcall
      obtain ⟨current, hcurrent, ys, v₁, hdeq, hcall⟩ := hcall
      have hp := hin₁.current current hcurrent
      obtain ⟨w₁, hdeq', h₁⟩ := h.producerDequeueBulk (hS current hp) hdeq
      have hcurrent' : (tok₁.rename n).currentProducer = some (current + n) := congrArg (Option.map _) hcurrent
      have hitems : (tok₁.rename n).itemsConsumed = tok₁.itemsConsumed := rfl
      simp only [Bool.not_true, Bool.false_eq_true, if_false, hcurrent', Option.bind_some, hdeq', hitems]
      by_cases hlen : ys.length = maxCount
      · rw [if_pos hlen] at hcall ⊢
        simp only [Option.some.injEq, Prod.mk.injEq] at hcall
        obtain ⟨rfl, rfl, rfl⟩ := hcall
        simp only [ConsumerToken.rename, hcurrent, Option.map_some]
        refine ⟨_, rfl, ?_⟩
        split
        · exact h₁.rotate
        · exact h₁
      · rw [if_neg hlen] at hcall ⊢
        simp only [Option.bind_eq_some_iff, Prod.exists, Option.some.injEq, Prod.mk.injEq] at hcall
        obtain ⟨zs, tok₂, v₂, hrest, rfl, rfl, rfl⟩ := hcall
        have hframe := onProducer_frame hdeq
        have hfuel : 2 * v₁.nodeCount + 1 ≤ 2 * w₁.nodeCount + 1 := by
          rw [h₁.nodeCount]
          omega
        have hS₁ : ∀ p ∈ S, p < v₁.nodeCount := by
          rw [hframe.nodeCount]
          exact hS
        have hround₁ := hround.frame hframe
        obtain ⟨w₂, hrest', h₂⟩ := h₁.dequeueBulkOthers hround₁ hS₁ hfuel (hround₁.next current hp) hrest
        rw [← h₁.next_or (hframe.nodeCount ▸ hS current hp)] at hrest'
        refine ⟨w₂, ?_, h₂⟩
        simp only [ConsumerToken.rename, hcurrent, Option.map_some] at hrest' ⊢
        rw [hrest', Option.bind_some]

end Consume

/-! ## Tokens -/

theorem setProducerToken (h : Renamed q n a old w₀ v w) (ht : w₀.producerTokens t = none) (tok : ProducerToken) :
    Renamed q n a old w₀ (v.setProducerToken t (some tok)) (w.setProducerToken t (some (tok.rename n))) :=
  { h with
    producerToken := fun t' => by
      by_cases heq : t' = t
      · simp only [World.setProducerToken, heq, Function.update_self, Option.map_some, Option.some_or]
      · simpa only [World.setProducerToken, Function.update_of_ne heq] using h.producerToken t'
    newProducerToken := fun t' ht' => by
      by_cases heq : t' = t
      · rw [heq, ht]
      · simp only [World.setProducerToken, Function.update_of_ne heq] at ht'
        exact h.newProducerToken t' ht' }

theorem setConsumerToken (h : Renamed q n a old w₀ v w) (ht : w₀.consumerTokens t = none) (tok : ConsumerToken) :
    Renamed q n a old w₀ (v.setConsumerToken t tok) (w.setConsumerToken t (tok.rename n)) :=
  { h with
    consumerToken := fun t' => by
      by_cases heq : t' = t
      · simp only [World.setConsumerToken, heq, Function.update_self, Option.map_some, Option.some_or]
      · simpa only [World.setConsumerToken, Function.update_of_ne heq] using h.consumerToken t'
    newConsumerToken := fun t' ht' => by
      by_cases heq : t' = t
      · rw [heq, ht]
      · simp only [World.setConsumerToken, Function.update_of_ne heq] at ht'
        exact h.newConsumerToken t' ht' }

theorem tokenNode (h : Renamed q n a old w₀ v w) (ht : v.tokenNode t = some p) : w.tokenNode t = some (p + n) := by
  obtain ⟨tok, htok, hp⟩ := Option.bind_eq_some_iff.mp ht
  simp only [World.tokenNode, h.producerToken, htok, Option.map_some, Option.some_or, Option.bind_some,
    ProducerToken.rename, hp]

end Renamed

/-! ## The calls that follow a move -/

/-- The calls on one queue that nothing fails in: no allocation and no constructor throws. -/
inductive LaterCall (K α : Type) where
  | enqueue (thread : K) (item : α)
  | enqueueBulk (thread : K) (item : α) (items : List α)
  | getProducerToken (t : ℕ)
  | enqueueWithToken (t : ℕ) (item : α)
  | enqueueBulkWithToken (t : ℕ) (item : α) (items : List α)
  | getConsumerToken (t : ℕ)
  | tryDequeue
  | tryDequeueBulk (maxCount : ℕ)
  | tryDequeueToken (t : ℕ)
  | tryDequeueBulkToken (t maxCount : ℕ)

namespace LaterCall

def op (q : ℕ) : LaterCall K α → Op K α
  | .enqueue thread item => .enqueue q thread .canAlloc (some item) []
  | .enqueueBulk thread item items => .enqueueBulk q thread .canAlloc ((item :: items).map some) []
  | .getProducerToken t => .getProducerToken q t
  | .enqueueWithToken t item => .enqueueWithToken t (some item) []
  | .enqueueBulkWithToken t item items => .enqueueBulkWithToken t .canAlloc ((item :: items).map some) []
  | .getConsumerToken t => .getConsumerToken q t
  | .tryDequeue => .tryDequeue q
  | .tryDequeueBulk maxCount => .tryDequeueBulk q maxCount
  | .tryDequeueToken t => .tryDequeueToken q t
  | .tryDequeueBulkToken t maxCount => .tryDequeueBulkToken q t maxCount

/-- An `Enqueue` or `EnqueueBulk` without a token. -/
def Implicit : LaterCall K α → Prop
  | .enqueue _ _ => True
  | .enqueueBulk _ _ _ => True
  | _ => False

/-- The token a call creates is a new one. -/
def NewToken (w : World K α) : LaterCall K α → Prop
  | .getProducerToken t => w.producerTokens t = none
  | .getConsumerToken t => w.consumerTokens t = none
  | _ => True

theorem atHome (q : ℕ) (c : LaterCall K α) : (c.op q).AtHome fun _ => q := by
  cases c with
  | getConsumerToken | tryDequeueToken | tryDequeueBulkToken => rfl
  | _ => trivial

end LaterCall

/-- **Step.** -/
theorem Renamed.exec [DecidableEq K] {ls : ℕ → List ℕ} {c : LaterCall K α} {r : Reply α}
    (h : Renamed q n a old w₀ v w) (hhomed : Homed (fun _ => q) v ls) (howned : Owned v) (hc : ¬ c.Implicit)
    (hnew : c.NewToken w₀) (hcall : v.exec tr (c.op q) = some (r, v')) :
    ∃ w', w.exec tr (c.op q) = some (r, w') ∧ Renamed q n a old w₀ v' w' := by
  have hlisted := hhomed.listed
  have hls : ∀ p ∈ {p | p ∈ ls q}, p < v.nodeCount := fun p hp => ((hlisted.mem q p).mp hp).1
  cases c with
  | enqueue | enqueueBulk => exact absurd trivial hc
  | getProducerToken t =>
      obtain ⟨⟨p, v₁⟩, hget, hcall⟩ := Option.bind_eq_some_iff.mp hcall
      obtain ⟨w₁, hget', h₁, -, -⟩ := h.getProducerListNode hlisted hget
      simp only [constructProducerToken, Option.ite_none_right_eq_some, Option.some.injEq, Prod.mk.injEq] at hcall
      obtain ⟨ht, rfl, rfl⟩ := hcall
      have ht₀ : w₀.producerTokens t = none := hnew
      have ht' : w₁.producerTokens t = none := by rw [h₁.producerToken, ht, ht₀]; rfl
      refine ⟨w₁.setProducerToken t (some ⟨some (p + n)⟩), ?_, h₁.setProducerToken ht₀ _⟩
      simp only [LaterCall.op, World.exec, hget', Option.bind_eq_bind, Option.bind_some, constructProducerToken,
        if_pos ht']
  | enqueueWithToken t item =>
      obtain ⟨p, hp, hcall⟩ := Option.bind_eq_some_iff.mp hcall
      obtain ⟨⟨o, v₁⟩, henq, hcall⟩ := Option.bind_eq_some_iff.mp hcall
      obtain ⟨rfl, rfl⟩ := Prod.mk.inj (Option.some.inj hcall)
      obtain ⟨w₁, henq', h₁⟩ := h.producerEnqueue (howned.explicit t p hp).1 henq
      refine ⟨w₁, ?_, h₁⟩
      simp only [LaterCall.op, World.exec, h.tokenNode hp, henq', Option.bind_eq_bind, Option.bind_some]
  | enqueueBulkWithToken t item items =>
      obtain ⟨p, hp, hcall⟩ := Option.bind_eq_some_iff.mp hcall
      obtain ⟨⟨o, v₁⟩, henq, hcall⟩ := Option.bind_eq_some_iff.mp hcall
      obtain ⟨rfl, rfl⟩ := Prod.mk.inj (Option.some.inj hcall)
      have hitems : none ∉ (item :: items).map some := by simp
      obtain ⟨w₁, henq', h₁⟩ := h.producerEnqueueBulk (howned.explicit t p hp).1 hitems henq
      refine ⟨w₁, ?_, h₁⟩
      simp only [LaterCall.op, World.exec, h.tokenNode hp, henq', Option.bind_eq_bind, Option.bind_some]
  | getConsumerToken t =>
      simp only [LaterCall.op, World.exec, constructConsumerToken, Option.ite_none_right_eq_some, Option.some.injEq,
        Prod.mk.injEq] at hcall ⊢
      obtain ⟨ht, rfl, rfl⟩ := hcall
      have ht₀ : w₀.consumerTokens t = none := hnew
      have ht' : w.consumerTokens t = none := by
        rw [h.consumerToken, ht₀]
        exact (congrArg (fun o => (Option.map _ o).or none) ht).trans rfl
      refine ⟨_, ⟨ht', rfl, rfl⟩, ?_⟩
      rw [h.queue.consumerId]
      refine Renamed.setConsumerToken ?_ ht₀ (.new _)
      refine h.setQueue ⟨h.queue.head, h.queue.count, h.queue.offset, ?_, h.queue.unreturned, h.queue.manager,
        h.queue.blocks⟩ ⟨rfl, rfl⟩
      simp only [h.queue.consumerId]
  | tryDequeue =>
      obtain ⟨⟨x, v₁⟩, hdeq, hcall⟩ := Option.bind_eq_some_iff.mp hcall
      obtain ⟨rfl, rfl⟩ := Prod.mk.inj (Option.some.inj hcall)
      obtain ⟨w₁, hdeq', h₁⟩ := h.tryDequeue hlisted hdeq
      refine ⟨w₁, ?_, h₁⟩
      simp only [LaterCall.op, World.exec, hdeq', Option.bind_eq_bind, Option.bind_some]
  | tryDequeueBulk maxCount =>
      obtain ⟨⟨xs, v₁⟩, hdeq, hcall⟩ := Option.bind_eq_some_iff.mp hcall
      obtain ⟨rfl, rfl⟩ := Prod.mk.inj (Option.some.inj hcall)
      obtain ⟨w₁, hdeq', h₁⟩ := h.tryDequeueBulk hlisted hdeq
      refine ⟨w₁, ?_, h₁⟩
      simp only [LaterCall.op, World.exec, hdeq', Option.bind_eq_bind, Option.bind_some]
  | tryDequeueToken t =>
      obtain ⟨tok, ht, hcall⟩ := Option.bind_eq_some_iff.mp hcall
      obtain ⟨⟨x, tok', v₁⟩, hdeq, hcall⟩ := Option.bind_eq_some_iff.mp hcall
      obtain ⟨rfl, rfl⟩ := Prod.mk.inj (Option.some.inj hcall)
      obtain ⟨w₁, hdeq', h₁⟩ := h.tryDequeueToken (hlisted.round q) hls (hhomed.tokens t tok ht) hdeq
      have ht₀ := h.newConsumerToken t (by rw [ht]; exact (by rintro ⟨⟩))
      have ht' : w.consumerTokens t = some (tok.rename n) := by rw [h.consumerToken, ht]; rfl
      refine ⟨w₁.setConsumerToken t (tok'.rename n), ?_, h₁.setConsumerToken ht₀ _⟩
      simp only [LaterCall.op, World.exec, ht', hdeq', Option.bind_eq_bind, Option.bind_some]
  | tryDequeueBulkToken t maxCount =>
      obtain ⟨tok, ht, hcall⟩ := Option.bind_eq_some_iff.mp hcall
      obtain ⟨⟨xs, tok', v₁⟩, hdeq, hcall⟩ := Option.bind_eq_some_iff.mp hcall
      obtain ⟨rfl, rfl⟩ := Prod.mk.inj (Option.some.inj hcall)
      obtain ⟨w₁, hdeq', h₁⟩ := h.tryDequeueBulkToken (hlisted.round q) hls (hhomed.tokens t tok ht) hdeq
      have ht₀ := h.newConsumerToken t (by rw [ht]; exact (by rintro ⟨⟩))
      have ht' : w.consumerTokens t = some (tok.rename n) := by rw [h.consumerToken, ht]; rfl
      refine ⟨w₁.setConsumerToken t (tok'.rename n), ?_, h₁.setConsumerToken ht₀ _⟩
      simp only [LaterCall.op, World.exec, ht', hdeq', Option.bind_eq_bind, Option.bind_some]

/-- **Run.** -/
theorem Renamed.run [DecidableEq K] {ls : ℕ → List ℕ} {cs : List (LaterCall K α)} {rs : List (Reply α)}
    (h : Renamed q n a old w₀ v w) (hhomed : Homed (fun _ => q) v ls) (howned : Owned v)
    (hcs : ∀ c ∈ cs, ¬ c.Implicit) (hnew : ∀ c ∈ cs, c.NewToken w₀)
    (hrun : v.run tr (cs.map (·.op q)) = some (rs, v')) :
    ∃ w', w.run tr (cs.map (·.op q)) = some (rs, w') ∧ Renamed q n a old w₀ v' w' := by
  induction cs generalizing v w ls rs with
  | nil =>
      obtain ⟨rfl, rfl⟩ := Prod.mk.inj (Option.some.inj hrun)
      exact ⟨w, rfl, h⟩
  | cons c cs ih =>
      obtain ⟨⟨r, v₁⟩, hexec, hrest⟩ := Option.bind_eq_some_iff.mp hrun
      obtain ⟨⟨rs₁, v₂⟩, hrun₁, heq⟩ := Option.bind_eq_some_iff.mp hrest
      obtain ⟨rfl, rfl⟩ := Prod.mk.inj (Option.some.inj heq)
      obtain ⟨w₁, hexec', h₁⟩ := h.exec hhomed howned (hcs c List.mem_cons_self) (hnew c List.mem_cons_self) hexec
      have heffect := exec_effect hexec
      obtain ⟨ls₁, hhomed₁⟩ := hhomed.effect (c.atHome q) heffect
      obtain ⟨w₂, hrun', h₂⟩ := ih h₁ hhomed₁ (howned.effect hhomed.listed heffect)
        (fun c hc => hcs c (List.mem_cons_of_mem _ hc)) (fun c hc => hnew c (List.mem_cons_of_mem _ hc)) hrun₁
      refine ⟨w₂, ?_, h₂⟩
      simp only [List.map_cons, World.run, hexec', Option.bind_eq_bind, Option.bind_some, hrun']

/-- **Start.** A new queue, and one that was just reset. -/
theorem Renamed.start (tr : Traits K) (pools : ℕ → ℕ × ℕ) {c : ConcurrentQueue K α} (hq : w.queues q = reset c) :
    Renamed q w.nodeCount c.explicitManager.blockCount c.explicitBlocks w (fresh tr pools) w where
  queue := by
    rw [hq]
    refine ⟨rfl, rfl, rfl, rfl, .fresh _, fun _ => ?_, rfl⟩
    simp only [reset, BlockManager.emptied, BlockManager.rename, World.fresh, BlockManager.fresh, Nat.zero_add]
  node p hp := absurd hp (Nat.not_lt_zero p)
  nodeCount := (Nat.zero_add _).symm
  producerToken _ := rfl
  consumerToken _ := rfl
  newProducerToken _ ht := absurd rfl ht
  newConsumerToken _ ht := absurd rfl ht
  nodes _ _ := rfl
  queues _ _ := rfl
  implicitManager := rfl
  implicitBlocks := rfl

theorem Renamed.untouched {c : ConcurrentQueue K α} (hq : w₀.queues q = reset c)
    (h : Renamed q w₀.nodeCount c.explicitManager.blockCount c.explicitBlocks w₀ v w) : Untouched q w₀ w where
  nodes := h.nodes
  queues := h.queues
  explicitBlocks p hp := by
    have hlt : p < c.explicitManager.blockCount := by
      rw [hq] at hp
      exact hp.trans_le (Nat.zero_add _).le
    rw [h.queue.blocks, hq]
    simp only [FastQueue.renameBlocks, reset, appendBlocks, if_pos hlt]
  implicitBlocks := h.implicitBlocks
  producerTokens t ht := by
    have hv : v.producerTokens t = none := by
      by_contra hv
      exact ht (h.newProducerToken t hv)
    rw [h.producerToken, hv]
    rfl
  consumerTokens t ht := by
    have hv : v.consumerTokens t = none := by
      by_contra hv
      exact ht (h.newConsumerToken t hv)
    rw [h.consumerToken, hv]
    rfl

end World

namespace MovableWorld

open World (LaterCall Untouched Reply)

variable [DecidableEq K] {tr : Traits K} {q q' : ℕ} {w w₁ w₂ : MovableWorld K α} {rs : List (Reply α)}
  {cs : List (LaterCall K α)}

/-! ## Calls and tables -/

omit [DecidableEq K] in
theorem LaterCall.tableQueue_op (q : ℕ) (c : LaterCall K α) :
    (c.Implicit → tableQueue (c.op q) = some q) ∧ (¬ c.Implicit → tableQueue (c.op q) = none) := by
  cases c with
  | enqueue | enqueueBulk => exact ⟨fun _ => rfl, fun h => absurd trivial h⟩
  | _ => exact ⟨fun h => h.elim, fun _ => rfl⟩

theorem run_of_explicit (hcs : ∀ c ∈ cs, ¬ c.Implicit) :
    w.run tr (cs.map (·.op q)) =
      (w.world.run tr (cs.map (·.op q))).map fun (rs, world) => (rs, { w with world := world }) := by
  induction cs generalizing w with
  | nil => rfl
  | cons c cs ih =>
      have htable := (LaterCall.tableQueue_op q c).2 (hcs c List.mem_cons_self)
      simp only [List.map_cons, run, World.run, exec, htable, Option.any_none, Bool.false_eq_true, if_false]
      cases hexec : w.world.exec tr (c.op q) with
      | none => rfl
      | some r =>
          have ih := ih (w := { w with world := r.2 }) fun c hc => hcs c (List.mem_cons_of_mem _ hc)
          simp only [Option.map_some, Option.bind_eq_bind, Option.bind_some, ih]
          cases r.2.run tr (cs.map (·.op q)) <;> rfl

/-- Without a table there is no way through an implicit enqueue. -/
theorem explicit_of_run (htable : w.tableless q = true) (hrun : w.run tr (cs.map (·.op q)) = some (rs, w₂)) :
    ∀ c ∈ cs, ¬ c.Implicit := by
  induction cs generalizing w rs with
  | nil => exact fun c hc => absurd hc List.not_mem_nil
  | cons c cs ih =>
      obtain ⟨⟨r, w'⟩, hexec, hrest⟩ := Option.bind_eq_some_iff.mp hrun
      obtain ⟨⟨rs', w''⟩, hrun', heq⟩ := Option.bind_eq_some_iff.mp hrest
      obtain ⟨rfl, rfl⟩ := Prod.mk.inj (Option.some.inj heq)
      simp only [exec, Option.ite_none_left_eq_some, Option.map_eq_some_iff, Prod.mk.injEq] at hexec
      obtain ⟨hany, ⟨r, world⟩, -, rfl, rfl⟩ := hexec
      intro c' hc'
      rcases List.mem_cons.mp hc' with rfl | hc'
      · intro himplicit
        rw [(LaterCall.tableQueue_op q c').1 himplicit, Option.any_some, htable] at hany
        exact hany rfl
      · exact ih (w := { w with world := world }) htable hrun' c' hc'

/-! ## Moves -/

/-- `q` was constructed or assigned by a move from another queue `q'`. -/
def MovedTo (tr : Traits K) (q q' : ℕ) (w w₁ : MovableWorld K α) : Prop :=
  w.moveConstruct q q' = some w₁ ∨ q ≠ q' ∧ w.moveAssign tr q q' = some w₁

/-- The calls on a queue `q` that was moved from give the replies `rs` and touch nothing else. -/
def LikeNew (tr : Traits K) (q : ℕ) (cs : List (LaterCall K α)) (rs : List (Reply α)) (w : MovableWorld K α) : Prop :=
  ∃ w', w.run tr (cs.map (·.op q)) = some (rs, w') ∧ Untouched q w.world w'.world

omit [DecidableEq K] in
theorem MovedTo.reset (h : MovedTo tr q q' w w₁) :
    w₁.tableless q' = true ∧ ∃ c, w₁.world.queues q' = ConcurrentQueue.reset c := by
  have hmove : ∀ w : MovableWorld K α, (w.moveQueue q q').tableless q' = true ∧
      ∃ c, (w.moveQueue q q').world.queues q' = ConcurrentQueue.reset c := fun w =>
    ⟨Function.update_self .., _, Function.update_self ..⟩
  rcases h with h | ⟨hne, h⟩
  · simp only [moveConstruct, Option.ite_none_right_eq_some, Option.some.injEq] at h
    exact h.2 ▸ hmove w
  · simp only [moveAssign, if_neg hne, Option.map_eq_some_iff] at h
    obtain ⟨world, -, rfl⟩ := h
    exact hmove _

/-- **A queue that was moved from** is like a new one exactly for the calls that need no table. -/
theorem likeNew_iff (pools : ℕ → ℕ × ℕ) {v : MovableWorld K α} (hmove : MovedTo tr q q' w w₁)
    (hnew : ∀ c ∈ cs, c.NewToken w₁.world) (hrun : (fresh tr pools).run tr (cs.map (·.op q')) = some (rs, v)) :
    LikeNew tr q' cs rs w₁ ↔ ∀ c ∈ cs, ¬ c.Implicit := by
  obtain ⟨htable, c, hreset⟩ := hmove.reset
  constructor
  · rintro ⟨w₂, hrun', -⟩
    exact explicit_of_run htable hrun'
  · intro hcs
    rw [run_of_explicit hcs, Option.map_eq_some_iff] at hrun
    obtain ⟨⟨rs, v'⟩, hrun, heq⟩ := hrun
    obtain ⟨rfl, -⟩ := Prod.mk.inj heq
    obtain ⟨w', hrun', h⟩ := (World.Renamed.start tr pools hreset).run (.fresh tr pools _) (.fresh tr pools) hcs hnew hrun
    refine ⟨{ w₁ with world := w' }, ?_, h.untouched hreset⟩
    rw [run_of_explicit hcs, hrun', Option.map_some]

/-- Queue 0 holds an element when it is assigned to queue 1; then another element goes through it. -/
theorem likeNew_iff_assigned : ∃ rs w w₁, (fresh .small fun _ => (2, 2) : MovableWorld ℕ ℕ).run .small
      [.getProducerToken 0 9, .enqueueWithToken 9 (some 5) []] = some (rs, w) ∧
    w.moveAssign .small 1 0 = some w₁ ∧
    LikeNew .small 0 [.getProducerToken 0, .enqueueWithToken 0 7, .tryDequeue]
      [.done, .enqueued (.returned true), .dequeued (some 7)] w₁ := by
  obtain ⟨w₁, hw₁⟩ : ∃ w₁, (((fresh .small fun _ => (2, 2) : MovableWorld ℕ ℕ).run .small
      [.getProducerToken 0 9, .enqueueWithToken 9 (some 5) []]).bind fun r => r.2.moveAssign .small 1 0) = some w₁ :=
    ⟨_, rfl⟩
  have htoken : ((((fresh .small fun _ => (2, 2) : MovableWorld ℕ ℕ).run .small
      [.getProducerToken 0 9, .enqueueWithToken 9 (some 5) []]).bind fun r => r.2.moveAssign .small 1 0).map
        fun w => w.world.producerTokens 0) = some none := rfl
  rw [hw₁, Option.map_some, Option.some.injEq] at htoken
  obtain ⟨⟨rs, w⟩, hrun, hassign⟩ := Option.bind_eq_some_iff.mp hw₁
  refine ⟨rs, w, w₁, hrun, hassign, ?_⟩
  refine (likeNew_iff (fun _ => (2, 2)) (Or.inr ⟨Nat.one_ne_zero, hassign⟩) ?_ rfl).mpr ?_
  · simpa [LaterCall.NewToken] using htoken
  · simp [LaterCall.Implicit]

/-- The table of the implicit producers is null after a move. -/
theorem not_likeNew : ¬ ∀ (tr : Traits ℕ) (pools : ℕ → ℕ × ℕ) (q q' : ℕ) (w w₁ v : MovableWorld ℕ ℕ)
    (cs : List (LaterCall ℕ ℕ)) (rs : List (Reply ℕ)), MovedTo tr q q' w w₁ →
    (∀ c ∈ cs, c.NewToken w₁.world) → (fresh tr pools).run tr (cs.map (·.op q')) = some (rs, v) →
    LikeNew tr q' cs rs w₁ := by
  intro h
  have hmove : MovedTo .small 1 0 (fresh .small fun _ => (2, 2) : MovableWorld ℕ ℕ)
      ((fresh .small fun _ => (2, 2)).moveQueue 1 0) :=
    Or.inl (if_pos ⟨by decide, rfl, fun p hp => absurd hp (Nat.not_lt_zero p)⟩)
  obtain ⟨w', hrun, -⟩ := h .small (fun _ => (2, 2)) 1 0 _ _ _ [.enqueue 3 5] [.enqueued (.returned true)] hmove
    (by simp [LaterCall.NewToken]) rfl
  exact absurd hrun nofun

end MovableWorld

end ConcurrentQueue

end LockFreeStructures
