import LockFreeStructures.ConcurrentQueue.Defs

/-!
# `ConcurrentQueue.ProducerList` — the producer lists and what calls leave of them

`Frame S` says what calls of the producers of the nodes in `S` may have changed. `Listed` says that every node is
in the list of the queue it was created for, once; it is kept by every call, which at most puts a new node in
front of a list.
-/

namespace LockFreeStructures

namespace ConcurrentQueue

namespace World

variable {K α ρ : Type} {tr : Traits K} {w w' w'' : World K α} {S S' : Set ℕ} {p q t : ℕ} {r : ρ} {l : List ℕ}

/-! ## Frame -/

/-- **Frame.** What producers of the nodes in `S` may change: themselves, and the blocks and managers of their
    queues. -/
structure Frame (S : Set ℕ) (w w' : World K α) : Prop where
  next : ∀ p, (w'.nodes p).next = (w.nodes p).next
  inactive : ∀ p, (w'.nodes p).inactive = (w.nodes p).inactive
  type : ∀ p, (w'.nodes p).producer.type = (w.nodes p).producer.type
  manager : ∀ p, (w'.nodes p).manager = (w.nodes p).manager
  outside : ∀ p ∉ S, w'.nodes p = w.nodes p
  head : ∀ q, (w'.queues q).producerListsHead = (w.queues q).producerListsHead
  count : ∀ q, (w'.queues q).producerCount = (w.queues q).producerCount
  offset : ∀ q, (w'.queues q).globalExplicitConsumerOffset = (w.queues q).globalExplicitConsumerOffset
  others : ∀ q, (∀ p ∈ S, (w.nodes p).manager ≠ q) → w'.queues q = w.queues q
  nodeCount : w'.nodeCount = w.nodeCount
  producerTokens : w'.producerTokens = w.producerTokens
  consumerTokens : w'.consumerTokens = w.consumerTokens

namespace Frame

theorem refl (S : Set ℕ) (w : World K α) : Frame S w w :=
  ⟨fun _ => rfl, fun _ => rfl, fun _ => rfl, fun _ => rfl, fun _ _ => rfl, fun _ => rfl, fun _ => rfl, fun _ => rfl,
    fun _ _ => rfl, rfl, rfl, rfl⟩

theorem trans (h : Frame S w w') (h' : Frame S w' w'') : Frame S w w'' where
  next p := (h'.next p).trans (h.next p)
  inactive p := (h'.inactive p).trans (h.inactive p)
  type p := (h'.type p).trans (h.type p)
  manager p := (h'.manager p).trans (h.manager p)
  outside p hp := (h'.outside p hp).trans (h.outside p hp)
  head q := (h'.head q).trans (h.head q)
  count q := (h'.count q).trans (h.count q)
  offset q := (h'.offset q).trans (h.offset q)
  others q hq := (h'.others q fun p hp => by rw [h.manager]; exact hq p hp).trans (h.others q hq)
  nodeCount := h'.nodeCount.trans h.nodeCount
  producerTokens := h'.producerTokens.trans h.producerTokens
  consumerTokens := h'.consumerTokens.trans h.consumerTokens

theorem mono (h : Frame S w w') (hS : S ⊆ S') : Frame S' w w' :=
  { h with
    outside := fun p hp => h.outside p fun hp' => hp (hS hp')
    others := fun q hq => h.others q fun p hp => hq p (hS hp) }

/-- The links between the nodes stay. -/
theorem next_eq (h : Frame S w w') : w'.next = w.next := funext h.next

end Frame

/-- A node's producer and the manager of its queue are changed together. -/
theorem modify_frame (p : ℕ) (producer : Producer α) (f : ConcurrentQueue K α → ConcurrentQueue K α)
    (htype : producer.type = (w.nodes p).producer.type)
    (hf : ∀ c, (f c).producerListsHead = c.producerListsHead ∧ (f c).producerCount = c.producerCount ∧
      (f c).globalExplicitConsumerOffset = c.globalExplicitConsumerOffset) :
    Frame {p} w
      ((w.modifyNode p fun n => { n with producer := producer }).modifyQueue (w.nodes p).manager f) := by
  have hnode : ∀ p', (Function.update w.nodes p { w.nodes p with producer := producer } p').next = (w.nodes p').next ∧
      (Function.update w.nodes p { w.nodes p with producer := producer } p').inactive = (w.nodes p').inactive ∧
      (Function.update w.nodes p { w.nodes p with producer := producer } p').producer.type
        = (w.nodes p').producer.type ∧
      (Function.update w.nodes p { w.nodes p with producer := producer } p').manager = (w.nodes p').manager := by
    intro p'
    by_cases hp : p' = p
    · subst hp
      simp only [Function.update_self, htype, and_self]
    · simp only [Function.update_of_ne hp, and_self]
  have hqueue : ∀ q, (Function.update w.queues (w.nodes p).manager (f (w.queues (w.nodes p).manager)) q).producerListsHead
        = (w.queues q).producerListsHead ∧
      (Function.update w.queues (w.nodes p).manager (f (w.queues (w.nodes p).manager)) q).producerCount
        = (w.queues q).producerCount ∧
      (Function.update w.queues (w.nodes p).manager (f (w.queues (w.nodes p).manager)) q).globalExplicitConsumerOffset
        = (w.queues q).globalExplicitConsumerOffset := by
    intro q
    by_cases hq : q = (w.nodes p).manager
    · subst hq
      simpa only [Function.update_self] using hf _
    · simp only [Function.update_of_ne hq, and_self]
  exact
    { next := fun p => (hnode p).1
      inactive := fun p => (hnode p).2.1
      type := fun p => (hnode p).2.2.1
      manager := fun p => (hnode p).2.2.2
      outside := fun p' hp => Function.update_of_ne hp _ _
      head := fun q => (hqueue q).1
      count := fun q => (hqueue q).2.1
      offset := fun q => (hqueue q).2.2
      others := fun q hq => Function.update_of_ne (hq p rfl).symm _ _
      nodeCount := rfl
      producerTokens := rfl
      consumerTokens := rfl }

/-- **A call of one producer.** -/
theorem onProducer_frame {f : FastQueue α → Option (ρ × FastQueue α)} {g : SlowQueue α → Option (ρ × SlowQueue α)}
    (h : w.onProducer p f g = some (r, w')) : Frame {p} w w' := by
  unfold onProducer at h
  cases hprod : (w.nodes p).producer with
  | explicit s =>
      simp only [hprod, Option.map_eq_some_iff] at h
      obtain ⟨⟨_, s'⟩, -, heq⟩ := h
      obtain ⟨-, rfl⟩ := Prod.mk.inj heq
      refine modify_frame p _ _ ?_ fun c => ⟨rfl, rfl, rfl⟩
      rw [hprod]
      rfl
  | implicit s =>
      simp only [hprod, Option.map_eq_some_iff] at h
      obtain ⟨⟨_, s'⟩, -, heq⟩ := h
      obtain ⟨-, rfl⟩ := Prod.mk.inj heq
      refine modify_frame p _ _ ?_ fun c => ⟨rfl, rfl, rfl⟩
      rw [hprod]
      rfl

/-! ## Frames of the dequeues -/

theorem dequeueFirst_frame {skip : Option ℕ} {a : Option α} {ps : List ℕ}
    (h : dequeueFirst tr skip ps w = some (a, w')) : Frame {p | p ∈ ps} w w' := by
  induction ps generalizing w with
  | nil =>
      obtain ⟨-, rfl⟩ := Prod.mk.inj (Option.some.inj h)
      exact .refl _ _
  | cons p ps ih =>
      have hsub : {p' | p' ∈ ps} ⊆ {p' | p' ∈ p :: ps} := fun p' hp' => List.mem_cons_of_mem _ hp'
      rw [dequeueFirst] at h
      split at h
      · exact (ih h).mono hsub
      · obtain ⟨⟨r, w₁⟩, hcall, hrest⟩ := Option.bind_eq_some_iff.mp h
        have hframe : Frame {p' | p' ∈ p :: ps} w w₁ := (onProducer_frame hcall).mono (by simp)
        cases r with
        | some a' =>
            obtain ⟨-, rfl⟩ := Prod.mk.inj (Option.some.inj hrest)
            exact hframe
        | none => exact hframe.trans ((ih hrest).mono hsub)

theorem dequeueBulkFirst_frame {as : List α} {ps : List ℕ} {need : ℕ}
    (h : dequeueBulkFirst tr ps need w = some (as, w')) : Frame {p | p ∈ ps} w w' := by
  induction ps generalizing w need as with
  | nil =>
      obtain ⟨-, rfl⟩ := Prod.mk.inj (Option.some.inj h)
      exact .refl _ _
  | cons p ps ih =>
      obtain ⟨⟨as₁, w₁⟩, hcall, hrest⟩ := Option.bind_eq_some_iff.mp h
      have hframe : Frame {p' | p' ∈ p :: ps} w w₁ := (onProducer_frame hcall).mono (by simp)
      simp only at hrest
      split at hrest
      · obtain ⟨-, rfl⟩ := Prod.mk.inj (Option.some.inj hrest)
        exact hframe
      · obtain ⟨⟨as₂, w₂⟩, hloop, hrest⟩ := Option.bind_eq_some_iff.mp hrest
        obtain ⟨-, rfl⟩ := Prod.mk.inj (Option.some.inj hrest)
        exact hframe.trans ((ih hloop).mono fun p' hp' => List.mem_cons_of_mem _ hp')

theorem tryDequeue_frame {a : Option α} (h : w.tryDequeue tr q = some (a, w')) : Frame Set.univ w w' := by
  obtain ⟨ps, -, h⟩ := Option.bind_eq_some_iff.mp h
  simp only at h
  split at h
  · obtain ⟨best, -, h⟩ := Option.bind_eq_some_iff.mp h
    obtain ⟨⟨r, w₁⟩, hcall, h⟩ := Option.bind_eq_some_iff.mp h
    have hframe := (onProducer_frame hcall).mono (Set.subset_univ _)
    cases r with
    | some a' =>
        obtain ⟨-, rfl⟩ := Prod.mk.inj (Option.some.inj h)
        exact hframe
    | none => exact hframe.trans ((dequeueFirst_frame h).mono (Set.subset_univ _))
  · obtain ⟨-, rfl⟩ := Prod.mk.inj (Option.some.inj h)
    exact .refl _ _

/-! ## What a call does -/

/-- **Effects.** What a call changes besides the producers it calls. -/
inductive Effect [DecidableEq K] (tr : Traits K) : Op K α → World K α → World K α → Prop
  | getProducerToken {q t p : ℕ} {w w' : World K α} (h : w.getProducerListNode tr q .explicit = some (p, w'))
      (ht : w'.producerTokens t = none) :
      Effect tr (.getProducerToken q t) w (w'.setProducerToken t (some ⟨some p⟩))
  | moveProducerToken {t t' : ℕ} {b : ProducerToken} {w : World K α} (ht' : w.producerTokens t' = some b)
      (hne : t ≠ t') (ht : w.producerTokens t = none) :
      Effect tr (.moveProducerToken t t') w ((w.setProducerToken t' (some ⟨none⟩)).setProducerToken t (some b))
  | destroyInvalid {t : ℕ} {w : World K α} (ht : w.producerTokens t = some ⟨none⟩) :
      Effect tr (.destroyProducerToken t) w (w.setProducerToken t none)
  | destroyValid {t p : ℕ} {w : World K α} (ht : w.producerTokens t = some ⟨some p⟩) :
      Effect tr (.destroyProducerToken t) w
        ((w.modifyNode p fun n => { n with inactive := true }).setProducerToken t none)
  | getConsumerToken {q t : ℕ} {w : World K α} (ht : w.consumerTokens t = none) :
      Effect tr (.getConsumerToken q t) w
        ((w.modifyQueue q fun c => { c with nextExplicitConsumerId := Word.add 32 c.nextExplicitConsumerId 1
          }).setConsumerToken t (.new (w.queues q).nextExplicitConsumerId))
  | moveConsumerToken {t t' : ℕ} {b : ConsumerToken} {w : World K α} (ht' : w.consumerTokens t' = some b)
      (ht : w.consumerTokens t = none) : Effect tr (.moveConsumerToken t t') w (w.setConsumerToken t b)
  | swapConsumerTokens {t t' : ℕ} {a b : ConsumerToken} {w : World K α} (op : Op K α)
      (hop : op = .assignConsumerToken t t' ∨ op = .swapConsumerTokens t t') (ht : w.consumerTokens t = some a)
      (ht' : w.consumerTokens t' = some b) (hne : t ≠ t') :
      Effect tr op w ((w.setConsumerToken t' (a.swap b).2).setConsumerToken t (a.swap b).1)
  | enqueue {q p : ℕ} {thread : K} {w w₁ w' : World K α} (op : Op K α)
      (h : w.getOrAddImplicitProducer tr q thread = some (p, w₁)) (hframe : Frame {p} w₁ w') : Effect tr op w w'
  | tryDequeueToken {q t : ℕ} {a : Option α} {tok tok' : ConsumerToken} {w w' : World K α}
      (ht : w.consumerTokens t = some tok) (h : w.tryDequeueToken tr q tok = some (a, tok', w')) :
      Effect tr (.tryDequeueToken q t) w (w'.setConsumerToken t tok')
  | tryDequeueBulkToken {q t maxCount : ℕ} {as : List α} {tok tok' : ConsumerToken} {w w' : World K α}
      (ht : w.consumerTokens t = some tok) (h : w.tryDequeueBulkToken tr q maxCount tok = some (as, tok', w')) :
      Effect tr (.tryDequeueBulkToken q t maxCount) w (w'.setConsumerToken t tok')
  | call {w w' : World K α} (op : Op K α) (h : Frame Set.univ w w') : Effect tr op w w'

theorem setProducerToken_self {tok : ProducerToken} (h : w.producerTokens t = some tok) :
    w.setProducerToken t (some tok) = w := by
  rw [setProducerToken, ← h, Function.update_eq_self]

theorem exec_effect [DecidableEq K] {op : Op K α} {r : Reply α} (h : w.exec tr op = some (r, w')) :
    Effect tr op w w' := by
  have hcall : ∀ {ρ : Type} {p : ℕ} {x : ρ} {w' : World K α} {f g}, w.onProducer p f g = some (x, w') →
      Frame Set.univ w w' := fun h => (onProducer_frame h).mono (Set.subset_univ _)
  cases op with
  | getProducerToken q t =>
      obtain ⟨⟨p, w₁⟩, hnode, h⟩ := Option.bind_eq_some_iff.mp h
      simp only [constructProducerToken, Option.ite_none_right_eq_some, Option.some.injEq, Prod.mk.injEq] at h
      obtain ⟨ht, -, rfl⟩ := h
      exact .getProducerToken hnode ht
  | moveProducerToken t t' =>
      obtain ⟨b, ht', h⟩ := Option.bind_eq_some_iff.mp h
      simp only [Option.ite_none_left_eq_some, constructProducerToken, Option.ite_none_right_eq_some,
        Option.some.injEq, Prod.mk.injEq] at h
      obtain ⟨hne, ht, -, rfl⟩ := h
      exact .moveProducerToken ht' hne ((Function.update_of_ne hne _ _).symm.trans ht)
  | assignProducerToken t t' | swapProducerTokens t t' =>
      obtain ⟨a, ht, h⟩ := Option.bind_eq_some_iff.mp h
      obtain ⟨b, ht', h⟩ := Option.bind_eq_some_iff.mp h
      obtain ⟨-, rfl⟩ := Prod.mk.inj (Option.some.inj h)
      rw [setProducerToken_self ht', setProducerToken_self ht]
      exact .call _ (.refl _ _)
  | destroyProducerToken t =>
      obtain ⟨⟨node⟩, ht, h⟩ := Option.bind_eq_some_iff.mp h
      obtain ⟨-, rfl⟩ := Prod.mk.inj (Option.some.inj h)
      cases node with
      | none => exact .destroyInvalid ht
      | some p => exact .destroyValid ht
  | getConsumerToken q t =>
      simp only [exec, constructConsumerToken, Option.ite_none_right_eq_some, Option.some.injEq, Prod.mk.injEq] at h
      obtain ⟨ht, -, rfl⟩ := h
      exact .getConsumerToken ht
  | moveConsumerToken t t' =>
      obtain ⟨b, ht', h⟩ := Option.bind_eq_some_iff.mp h
      simp only [constructConsumerToken, Option.ite_none_right_eq_some, Option.some.injEq, Prod.mk.injEq] at h
      obtain ⟨ht, -, rfl⟩ := h
      exact .moveConsumerToken ht' ht
  | assignConsumerToken t t' | swapConsumerTokens t t' =>
      obtain ⟨a, ht, h⟩ := Option.bind_eq_some_iff.mp h
      obtain ⟨b, ht', h⟩ := Option.bind_eq_some_iff.mp h
      simp only at h
      split at h
      · obtain ⟨-, rfl⟩ := Prod.mk.inj (Option.some.inj h)
        exact .call _ (.refl _ _)
      · obtain ⟨-, rfl⟩ := Prod.mk.inj (Option.some.inj h)
        exact .swapConsumerTokens _ (by simp) ht ht' (by assumption)
  | enqueue q thread mode item allocs =>
      obtain ⟨⟨p, w₁⟩, hnode, h⟩ := Option.bind_eq_some_iff.mp h
      obtain ⟨⟨o, w₂⟩, henq, h⟩ := Option.bind_eq_some_iff.mp h
      obtain ⟨-, rfl⟩ := Prod.mk.inj (Option.some.inj h)
      exact .enqueue _ hnode (onProducer_frame henq)
  | enqueueBulk q thread mode items allocs =>
      obtain ⟨⟨p, w₁⟩, hnode, h⟩ := Option.bind_eq_some_iff.mp h
      obtain ⟨⟨o, w₂⟩, henq, h⟩ := Option.bind_eq_some_iff.mp h
      obtain ⟨-, rfl⟩ := Prod.mk.inj (Option.some.inj h)
      exact .enqueue _ hnode (onProducer_frame henq)
  | tryDequeueToken q t =>
      obtain ⟨tok, ht, h⟩ := Option.bind_eq_some_iff.mp h
      obtain ⟨⟨a, tok', w₁⟩, hdeq, h⟩ := Option.bind_eq_some_iff.mp h
      obtain ⟨-, rfl⟩ := Prod.mk.inj (Option.some.inj h)
      exact .tryDequeueToken ht hdeq
  | tryDequeueBulkToken q t maxCount =>
      obtain ⟨tok, ht, h⟩ := Option.bind_eq_some_iff.mp h
      obtain ⟨⟨as, tok', w₁⟩, hdeq, h⟩ := Option.bind_eq_some_iff.mp h
      obtain ⟨-, rfl⟩ := Prod.mk.inj (Option.some.inj h)
      exact .tryDequeueBulkToken ht hdeq
  | enqueueWithToken t item allocs =>
      obtain ⟨p, -, h⟩ := Option.bind_eq_some_iff.mp h
      obtain ⟨⟨o, w₁⟩, henq, h⟩ := Option.bind_eq_some_iff.mp h
      obtain ⟨-, rfl⟩ := Prod.mk.inj (Option.some.inj h)
      exact .call _ (hcall henq)
  | enqueueBulkWithToken t mode items allocs =>
      obtain ⟨p, -, h⟩ := Option.bind_eq_some_iff.mp h
      obtain ⟨⟨o, w₁⟩, henq, h⟩ := Option.bind_eq_some_iff.mp h
      obtain ⟨-, rfl⟩ := Prod.mk.inj (Option.some.inj h)
      exact .call _ (hcall henq)
  | tryDequeueFromProducer t =>
      obtain ⟨p, -, h⟩ := Option.bind_eq_some_iff.mp h
      obtain ⟨⟨a, w₁⟩, hdeq, h⟩ := Option.bind_eq_some_iff.mp h
      obtain ⟨-, rfl⟩ := Prod.mk.inj (Option.some.inj h)
      exact .call _ (hcall hdeq)
  | tryDequeueBulkFromProducer t maxCount =>
      obtain ⟨p, -, h⟩ := Option.bind_eq_some_iff.mp h
      obtain ⟨⟨as, w₁⟩, hdeq, h⟩ := Option.bind_eq_some_iff.mp h
      obtain ⟨-, rfl⟩ := Prod.mk.inj (Option.some.inj h)
      exact .call _ (hcall hdeq)
  | tryDequeue q =>
      obtain ⟨⟨a, w₁⟩, hdeq, h⟩ := Option.bind_eq_some_iff.mp h
      obtain ⟨-, rfl⟩ := Prod.mk.inj (Option.some.inj h)
      exact .call _ (tryDequeue_frame hdeq)
  | tryDequeueNonInterleaved q =>
      obtain ⟨⟨a, w₁⟩, hdeq, h⟩ := Option.bind_eq_some_iff.mp h
      obtain ⟨-, rfl⟩ := Prod.mk.inj (Option.some.inj h)
      obtain ⟨ps, -, hdeq⟩ := Option.bind_eq_some_iff.mp hdeq
      exact .call _ ((dequeueFirst_frame hdeq).mono (Set.subset_univ _))
  | tryDequeueBulk q maxCount =>
      obtain ⟨⟨as, w₁⟩, hdeq, h⟩ := Option.bind_eq_some_iff.mp h
      obtain ⟨-, rfl⟩ := Prod.mk.inj (Option.some.inj h)
      obtain ⟨ps, -, hdeq⟩ := Option.bind_eq_some_iff.mp hdeq
      exact .call _ ((dequeueBulkFirst_frame hdeq).mono (Set.subset_univ _))
  | size q =>
      obtain ⟨n, -, h⟩ := Option.map_eq_some_iff.mp h
      obtain ⟨-, rfl⟩ := Prod.mk.inj h
      exact .call _ (.refl _ _)

/-! ## The lists -/

/-- Every node is in the list of the queue it was created for, and nowhere else. -/
structure Listed (w : World K α) (ls : ℕ → List ℕ) : Prop where
  linked : ∀ q, Linked w.next (w.queues q).producerListsHead (ls q)
  count : ∀ q, (w.queues q).producerCount = (ls q).length % 2 ^ 32
  mem : ∀ q p, p ∈ ls q ↔ p < w.nodeCount ∧ (w.nodes p).manager = q

variable {ls : ℕ → List ℕ}

namespace Listed

theorem fresh (tr : Traits K) (pools : ℕ → ℕ × ℕ) : Listed (fresh tr pools : World K α) fun _ => [] :=
  ⟨fun _ => rfl, fun _ => rfl, fun q p => by simp [World.fresh]⟩

theorem congr (h : Listed w ls) (hnext : ∀ p, (w'.nodes p).next = (w.nodes p).next)
    (hmanager : ∀ p, (w'.nodes p).manager = (w.nodes p).manager)
    (hhead : ∀ q, (w'.queues q).producerListsHead = (w.queues q).producerListsHead)
    (hcount : ∀ q, (w'.queues q).producerCount = (w.queues q).producerCount) (hnodes : w'.nodeCount = w.nodeCount) :
    Listed w' ls := by
  refine ⟨fun q => ?_, fun q => (hcount q).trans (h.count q), fun q p => ?_⟩
  · rw [hhead]
    exact (h.linked q).congr fun p _ => hnext p
  · rw [h.mem, hnodes, hmanager]

theorem frame (h : Listed w ls) (hframe : Frame S w w') : Listed w' ls :=
  h.congr hframe.next hframe.manager hframe.head hframe.count hframe.nodeCount

theorem length_le (h : Listed w ls) (q : ℕ) : (ls q).length ≤ w.nodeCount := by
  have hsub : ls q ⊆ List.range w.nodeCount := fun p hp => List.mem_range.mpr ((h.mem q p).mp hp).1
  have hle := ((h.linked q).nodup.subperm hsub).length_le
  rwa [List.length_range] at hle

/-- The loops over the producers go through the whole list. -/
theorem producerList (h : Listed w ls) (q : ℕ) : w.producerList q = some (ls q) :=
  (h.linked q).nodesFrom (h.length_le q)

theorem modifyQueue (h : Listed w ls) (q : ℕ) {f : ConcurrentQueue K α → ConcurrentQueue K α}
    (hf : ∀ c, (f c).producerListsHead = c.producerListsHead ∧ (f c).producerCount = c.producerCount) :
    Listed (w.modifyQueue q f) ls := by
  have hqueue : ∀ q', ((w.modifyQueue q f).queues q').producerListsHead = (w.queues q').producerListsHead ∧
      ((w.modifyQueue q f).queues q').producerCount = (w.queues q').producerCount := by
    intro q'
    by_cases hq : q' = q
    · subst hq
      simpa only [World.modifyQueue, Function.update_self] using hf _
    · simp only [World.modifyQueue, Function.update_of_ne hq, and_self]
  exact h.congr (fun _ => rfl) (fun _ => rfl) (fun q' => (hqueue q').1) (fun q' => (hqueue q').2) rfl

theorem setImplicitMap (h : Listed w ls) (q : ℕ) (t : HashTable K ℕ) :
    Listed (w.modifyQueue q fun c => { c with implicitMap := t }) ls :=
  h.modifyQueue q fun _ => ⟨rfl, rfl⟩

theorem setInactive (h : Listed w ls) (p : ℕ) (b : Bool) :
    Listed (w.modifyNode p fun n => { n with inactive := b }) ls := by
  have hnode : ∀ p', ((w.modifyNode p fun n => { n with inactive := b }).nodes p').next = (w.nodes p').next ∧
      ((w.modifyNode p fun n => { n with inactive := b }).nodes p').manager = (w.nodes p').manager := by
    intro p'
    by_cases hp : p' = p
    · subst hp
      simp only [modifyNode, Function.update_self, and_self]
    · simp only [modifyNode, Function.update_of_ne hp, and_self]
  exact h.congr (fun p' => (hnode p').1) (fun p' => (hnode p').2) (fun _ => rfl) (fun _ => rfl) rfl

theorem setProducerToken (h : Listed w ls) (t : ℕ) (tok : Option ProducerToken) :
    Listed (w.setProducerToken t tok) ls :=
  ⟨h.linked, h.count, h.mem⟩

theorem setConsumerToken (h : Listed w ls) (t : ℕ) (tok : ConsumerToken) : Listed (w.setConsumerToken t tok) ls :=
  ⟨h.linked, h.count, h.mem⟩

end Listed

/-- A new node in front of the list of a queue. -/
def push (q : ℕ) (producer : Producer α) (w : World K α) : World K α :=
  { w with
    nodes := Function.update w.nodes w.nodeCount ⟨(w.queues q).producerListsHead, false, producer, q⟩
    nodeCount := w.nodeCount + 1
    queues := Function.update w.queues q { w.queues q with
      producerCount := Word.add 32 (w.queues q).producerCount 1, producerListsHead := some w.nodeCount } }

theorem Listed.push (h : Listed w ls) (q : ℕ) (producer : Producer α) :
    Listed (w.push q producer) (Function.update ls q (w.nodeCount :: ls q)) := by
  -- the new node is in no list yet
  have hold : ∀ q', ∀ p ∈ ls q', p ≠ w.nodeCount := fun q' p hp => Nat.ne_of_lt ((h.mem q' p).mp hp).1
  have hnext : ∀ q', ∀ p ∈ ls q', (w.push q producer).next p = w.next p := fun q' p hp => by
    simp only [World.next, World.push, Function.update_of_ne (hold q' p hp)]
  refine ⟨fun q' => ?_, fun q' => ?_, fun q' p => ?_⟩
  · by_cases hq : q' = q
    · subst hq
      simp only [World.push, Function.update_self]
      refine .cons ?_
      simp only [World.next, Function.update_self]
      exact (h.linked q').congr (hnext q')
    · simp only [World.push, Function.update_of_ne hq]
      exact (h.linked q').congr (hnext q')
  · by_cases hq : q' = q
    · subst hq
      simp only [World.push, Function.update_self, List.length_cons, h.count, Word.add, Nat.mod_add_mod]
    · simp only [World.push, Function.update_of_ne hq, h.count]
  · by_cases hp : p = w.nodeCount
    · subst hp
      by_cases hq : q' = q
      · subst hq
        simp [World.push]
      · simp [World.push, Function.update_of_ne hq, h.mem, Ne.symm hq]
    · have hlt : p < w.nodeCount + 1 ↔ p < w.nodeCount := by omega
      by_cases hq : q' = q
      · subst hq
        simp [World.push, h.mem, hp, hlt]
      · simp [World.push, Function.update_of_ne hq, h.mem, hp, hlt]

/-! ## Getting a node -/

theorem findInactive_eq_some {type : ProducerType} {ps : List ℕ} (h : w.findInactive type ps = some p) :
    p ∈ ps ∧ (w.nodes p).inactive = true ∧ (w.nodes p).producer.type = type := by
  induction ps with
  | nil => exact absurd h nofun
  | cons p' ps ih =>
      rw [findInactive] at h
      split at h
      · obtain rfl := Option.some.inj h
        exact ⟨List.mem_cons_self, by assumption⟩
      · exact ⟨List.mem_cons_of_mem _ (ih h).1, (ih h).2⟩

theorem findInactive_eq_none {type : ProducerType} {ps : List ℕ} (h : w.findInactive type ps = none) :
    ∀ p ∈ ps, (w.nodes p).inactive = true → (w.nodes p).producer.type ≠ type := by
  induction ps with
  | nil => exact fun p hp => absurd hp List.not_mem_nil
  | cons p' ps ih =>
      rw [findInactive] at h
      split at h
      · exact absurd h nofun
      · intro p hp hinactive htype
        rcases List.mem_cons.mp hp with rfl | hp
        · simp [hinactive, htype] at *
        · exact ih h p hp hinactive htype

theorem newProducer_type {type : ProducerType} {producer : Producer α} (h : newProducer tr type = some producer) :
    producer.type = type := by
  cases type with
  | explicit =>
      simp only [newProducer, Option.map_eq_some_iff] at h
      obtain ⟨s, -, rfl⟩ := h
      rfl
  | implicit =>
      simp only [newProducer, Option.map_eq_some_iff] at h
      obtain ⟨s, -, rfl⟩ := h
      rfl

/-- **What a request for a node gives**: an inactive one of the type if the queue has one, else a new one. -/
theorem getProducerListNode_cases {type : ProducerType} (h : Listed w ls)
    (hget : w.getProducerListNode tr q type = some (p, w')) :
    (p ∈ ls q ∧ (w.nodes p).inactive = true ∧ (w.nodes p).producer.type = type ∧
      w' = w.modifyNode p fun n => { n with inactive := false }) ∨
    ((∀ p ∈ ls q, (w.nodes p).inactive = true → (w.nodes p).producer.type ≠ type) ∧ p = w.nodeCount ∧
      ∃ producer : Producer α, producer.type = type ∧ w' = w.push q producer) := by
  rw [getProducerListNode, h.producerList, Option.bind_eq_bind, Option.bind_some] at hget
  split at hget
  · rename_i p' hfind
    obtain ⟨rfl, rfl⟩ := Prod.mk.inj (Option.some.inj hget)
    obtain ⟨hmem, hinactive, htype⟩ := findInactive_eq_some hfind
    exact Or.inl ⟨hmem, hinactive, htype, rfl⟩
  · rename_i hfind
    obtain ⟨⟨p', w₁⟩, hcreate, hget⟩ := Option.bind_eq_some_iff.mp hget
    obtain ⟨rfl, rfl⟩ := Prod.mk.inj (Option.some.inj hget)
    obtain ⟨producer, hproducer, hcreate⟩ := Option.bind_eq_some_iff.mp hcreate
    obtain ⟨rfl, rfl⟩ := Prod.mk.inj (Option.some.inj hcreate)
    refine Or.inr ⟨findInactive_eq_none hfind, rfl, producer, newProducer_type hproducer, ?_⟩
    simp only [addProducer, modifyNode, World.modifyQueue, World.push, Function.update_self, Function.update_idem]

end World

end ConcurrentQueue

end LockFreeStructures
