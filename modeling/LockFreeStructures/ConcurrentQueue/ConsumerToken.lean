import LockFreeStructures.ConcurrentQueue.Consume

/-!
# `ConcurrentQueue.ConsumerToken` — moving and swapping consumer tokens

A token used with one queue only stays in that queue's producer list: `Homed.effect` is the step, `Homed.run` the
run, and `Homed.consume` says what its dequeues can touch. `swap` exchanges `DesiredProducer` twice and
`ItemsConsumed` not at all, so it exchanges two tokens only where they agree in both.
-/

namespace LockFreeStructures

namespace ConcurrentQueue

/-! ## Swapping -/

namespace ConsumerToken

variable {a b : ConsumerToken}

theorem swap_eq (a b : ConsumerToken) : a.swap b =
    ({ b with itemsConsumed := a.itemsConsumed, desiredProducer := a.desiredProducer },
      { a with itemsConsumed := b.itemsConsumed, desiredProducer := b.desiredProducer }) := rfl

/-- Swapping twice restores both tokens. -/
theorem swap_swap (a b : ConsumerToken) : (a.swap b).1.swap (a.swap b).2 = (a, b) := rfl

theorem swap_eq_iff : a.swap b = (b, a) ↔
    a.itemsConsumed = b.itemsConsumed ∧ a.desiredProducer = b.desiredProducer := by
  obtain ⟨ai, al, an, ac, ad⟩ := a
  obtain ⟨bi, bl, bn, bc, bd⟩ := b
  constructor
  · intro h
    simp only [swap_eq, Prod.mk.injEq, mk.injEq] at h
    exact ⟨h.1.2.2.1, h.1.2.2.2.2⟩
  · rintro ⟨hitems, hdesired⟩
    simp only at hitems hdesired
    rw [swap_eq, hitems, hdesired]

end ConsumerToken

namespace World

variable {K α : Type} {tr : Traits K} {w w' : World K α} {S : Set ℕ} {p q t : ℕ} {ls : ℕ → List ℕ}
  {tok tok' : ConsumerToken}

/-! ## Tokens stay in their queues -/

/-- Every token is used with its own queue, and none is swapped. -/
def Op.AtHome (home : ℕ → ℕ) : Op K α → Prop
  | .getConsumerToken q t => q = home t
  | .moveConsumerToken t t' => home t = home t'
  | .assignConsumerToken _ _ => False
  | .swapConsumerTokens _ _ => False
  | .tryDequeueToken q t => q = home t
  | .tryDequeueBulkToken q t _ => q = home t
  | _ => True

/-- The producers of every token are in the list of its queue. -/
structure Homed (home : ℕ → ℕ) (w : World K α) (ls : ℕ → List ℕ) : Prop where
  listed : Listed w ls
  tokens : ∀ t tok, w.consumerTokens t = some tok → ConsumerToken.In {p | p ∈ ls (home t)} tok

theorem ConsumerToken.In.mono {S' : Set ℕ} (h : ConsumerToken.In S tok) (hS : S ⊆ S') : ConsumerToken.In S' tok :=
  ⟨fun p hp => hS (h.current p hp), fun p hp => hS (h.desired p hp)⟩

theorem getProducerListNode_consumerTokens {type : ProducerType} (h : Listed w ls)
    (hget : w.getProducerListNode tr q type = some (p, w')) : w'.consumerTokens = w.consumerTokens := by
  rcases getProducerListNode_cases h hget with ⟨-, -, -, rfl⟩ | ⟨-, -, producer, -, rfl⟩
  · rfl
  · rfl

/-- Where a token of the state after a call comes from. -/
inductive Origin (tr : Traits K) (home : ℕ → ℕ) (w : World K α) (t : ℕ) (tok' : ConsumerToken) : Prop
  | kept (t' : ℕ) (hhome : home t = home t') (ht : w.consumerTokens t' = some tok')
  | created (n : ℕ) (heq : tok' = .new n)
  | dequeue (tok : ConsumerToken) (a : Option α) (w₁ : World K α) (ht : w.consumerTokens t = some tok)
      (h : w.tryDequeueToken tr (home t) tok = some (a, tok', w₁))
  | dequeueBulk (tok : ConsumerToken) (maxCount : ℕ) (as : List α) (w₁ : World K α)
      (ht : w.consumerTokens t = some tok)
      (h : w.tryDequeueBulkToken tr (home t) maxCount tok = some (as, tok', w₁))

/-- **Tokens after a call.** -/
theorem Effect.origin [DecidableEq K] {home : ℕ → ℕ} {op : Op K α} (h : Listed w ls) (hop : op.AtHome home)
    (heffect : Effect tr op w w') (ht : w'.consumerTokens t = some tok') : Origin tr home w t tok' := by
  have hkeep : ∀ {w₁ : World K α}, w₁.consumerTokens = w.consumerTokens → ∀ {t tok'},
      w₁.consumerTokens t = some tok' → Origin tr home w t tok' := by
    intro w₁ heq t tok' ht
    rw [heq] at ht
    exact .kept t rfl ht
  have hset : ∀ {w₁ : World K α} {t₁ tok₁}, w₁.consumerTokens = w.consumerTokens → Origin tr home w t₁ tok₁ →
      (w₁.setConsumerToken t₁ tok₁).consumerTokens t = some tok' → Origin tr home w t tok' := by
    intro w₁ t₁ tok₁ heq horigin ht
    by_cases hself : t = t₁
    · subst hself
      simp only [World.setConsumerToken, Function.update_self, Option.some.injEq] at ht
      exact ht ▸ horigin
    · simp only [World.setConsumerToken, Function.update_of_ne hself] at ht
      exact hkeep heq ht
  have hrotate : ∀ {S q w₁} {w₂ : World K α}, Frame S w w₁ → w₂ = w₁ ∨ w₂ = w₁.rotate q →
      w₂.consumerTokens = w.consumerTokens := by
    rintro S q w₁ w₂ hframe (rfl | rfl)
    · exact hframe.consumerTokens
    · exact hframe.consumerTokens
  cases heffect with
  | getProducerToken hget _ =>
      have htokens := getProducerListNode_consumerTokens h hget
      exact hkeep htokens ht
  | moveProducerToken _ _ _ => exact hkeep rfl ht
  | destroyInvalid _ => exact hkeep rfl ht
  | destroyValid _ => exact hkeep rfl ht
  | getConsumerToken _ => exact hset (by rfl) (.created _ rfl) ht
  | moveConsumerToken ht' _ => exact hset rfl (.kept _ hop ht') ht
  | swapConsumerTokens op hop' _ _ _ =>
      rcases hop' with rfl | rfl
      · exact hop.elim
      · exact hop.elim
  | enqueue op hget hframe =>
      refine hkeep (hframe.consumerTokens.trans ?_) ht
      obtain ⟨t, w₁, rfl, rfl | ⟨t', w₂, hnode, rfl⟩⟩ := getOrAddImplicitProducer_cases hget
      · rfl
      · have htokens := getProducerListNode_consumerTokens (h.setImplicitMap _ t) hnode
        exact htokens
  | tryDequeueToken ht' hdeq =>
      obtain rfl := hop
      obtain ⟨-, -, w₁, hframe, hw⟩ := tryDequeueToken_cases (.univ _ _) (.univ _) hdeq
      exact hset (hrotate hframe hw) (.dequeue _ _ _ ht' hdeq) ht
  | tryDequeueBulkToken ht' hdeq =>
      obtain rfl := hop
      obtain ⟨-, -, w₁, hframe, hw⟩ := tryDequeueBulkToken_cases (.univ _ _) (.univ _) hdeq
      exact hset (hrotate hframe hw) (.dequeueBulk _ _ _ _ ht' hdeq) ht
  | call op hframe => exact hkeep hframe.consumerTokens ht

namespace Homed

variable {home : ℕ → ℕ}

theorem fresh (tr : Traits K) (pools : ℕ → ℕ × ℕ) (home : ℕ → ℕ) :
    Homed home (World.fresh tr pools : World K α) fun _ => [] :=
  ⟨.fresh tr pools, fun _ _ h => absurd h nofun⟩

/-- **Step.** -/
theorem effect [DecidableEq K] {op : Op K α} (h : Homed home w ls) (hop : op.AtHome home)
    (heffect : Effect tr op w w') : ∃ ls', Homed home w' ls' := by
  obtain ⟨ls', hlisted, hsuffix⟩ := h.listed.effect heffect
  refine ⟨ls', hlisted, fun t tok' ht => ?_⟩
  have hsub : {p | p ∈ ls (home t)} ⊆ {p | p ∈ ls' (home t)} := fun p hp => (hsuffix _).subset hp
  refine ConsumerToken.In.mono ?_ hsub
  cases heffect.origin h.listed hop ht with
  | kept t' hhome ht' => exact hhome ▸ h.tokens t' tok' ht'
  | created n heq => exact heq ▸ ⟨fun p hp => absurd hp nofun, fun p hp => absurd hp nofun⟩
  | dequeue tok a w₁ ht' hdeq => exact (tryDequeueToken_cases (h.listed.round _) (h.tokens t tok ht') hdeq).1
  | dequeueBulk tok maxCount as w₁ ht' hdeq =>
      exact (tryDequeueBulkToken_cases (h.listed.round _) (h.tokens t tok ht') hdeq).1

/-- **Run.** -/
theorem run [DecidableEq K] {ops : List (Op K α)} {rs : List (Reply α)} (h : Homed home w ls)
    (hops : ∀ op ∈ ops, op.AtHome home) (hrun : w.run tr ops = some (rs, w')) : ∃ ls', Homed home w' ls' := by
  induction ops generalizing w ls rs with
  | nil =>
      obtain ⟨-, rfl⟩ := Prod.mk.inj (Option.some.inj hrun)
      exact ⟨ls, h⟩
  | cons op ops ih =>
      obtain ⟨⟨r, w₁⟩, hexec, hops'⟩ := Option.bind_eq_some_iff.mp hrun
      obtain ⟨⟨rs₁, w₂⟩, hrest, heq⟩ := Option.bind_eq_some_iff.mp hops'
      obtain ⟨-, rfl⟩ := Prod.mk.inj (Option.some.inj heq)
      obtain ⟨ls₁, h₁⟩ := h.effect (hops op List.mem_cons_self) (exec_effect hexec)
      exact ih h₁ (fun op hop => hops op (List.mem_cons_of_mem _ hop)) hrest

end Homed

/-! ## The dequeues of one token -/

/-- The calls a consumer token is used for. -/
inductive TokenCall where
  | tryDequeue
  | tryDequeueBulk (maxCount : ℕ)

/-- Calls with one token on one queue, one after another. -/
def consume (tr : Traits K) (q : ℕ) : List TokenCall → ConsumerToken → World K α →
    Option (List (Reply α) × ConsumerToken × World K α)
  | [], tok, w => some ([], tok, w)
  | .tryDequeue :: calls, tok, w => do
      let (a, tok, w) ← w.tryDequeueToken tr q tok
      let (rs, tok, w) ← consume tr q calls tok w
      some (.dequeued a :: rs, tok, w)
  | .tryDequeueBulk maxCount :: calls, tok, w => do
      let (as, tok, w) ← w.tryDequeueBulkToken tr q maxCount tok
      let (rs, tok, w) ← consume tr q calls tok w
      some (.dequeuedBulk as :: rs, tok, w)

/-- The nodes and queues that are not of queue `q` are left alone. -/
structure OnlyQueue (q : ℕ) (w w' : World K α) : Prop where
  nodes : ∀ p, (w.nodes p).manager ≠ q → w'.nodes p = w.nodes p
  queues : ∀ q', q' ≠ q → w'.queues q' = w.queues q'
  manager : ∀ p, (w'.nodes p).manager = (w.nodes p).manager

theorem OnlyQueue.trans {w'' : World K α} (h : OnlyQueue q w w') (h' : OnlyQueue q w' w'') : OnlyQueue q w w'' where
  nodes p hp := (h'.nodes p (by rw [h.manager]; exact hp)).trans (h.nodes p hp)
  queues q' hq := (h'.queues q' hq).trans (h.queues q' hq)
  manager p := (h'.manager p).trans (h.manager p)

/-- Calls of producers of a queue and a rotation of it. -/
theorem Listed.onlyQueue {w₁ : World K α} (h : Listed w ls) (hframe : Frame {p | p ∈ ls q} w w₁)
    (hw : w' = w₁ ∨ w' = w₁.rotate q) : OnlyQueue q w w' := by
  have hmanager : ∀ p ∈ ls q, (w.nodes p).manager = q := fun p hp => ((h.mem q p).mp hp).2
  have hframe' : OnlyQueue q w w₁ := by
    refine ⟨fun p hp => hframe.outside p fun hmem => hp (hmanager p hmem), fun q' hq => hframe.others q' ?_,
      hframe.manager⟩
    intro p hp heq
    exact hq (heq.symm.trans (hmanager p hp))
  rcases hw with rfl | rfl
  · exact hframe'
  · exact hframe'.trans ⟨fun _ _ => rfl, fun q' hq => Function.update_of_ne hq _ _, fun _ => rfl⟩

/-- **A token of a queue only touches that queue.** -/
theorem Listed.consume {calls : List TokenCall} {rs : List (Reply α)} (h : Listed w ls)
    (hin : ConsumerToken.In {p | p ∈ ls q} tok) (hrun : consume tr q calls tok w = some (rs, tok', w')) :
    OnlyQueue q w w' := by
  induction calls generalizing w tok rs with
  | nil =>
      simp only [World.consume, Option.some.injEq, Prod.mk.injEq] at hrun
      obtain ⟨-, -, rfl⟩ := hrun
      exact ⟨fun _ _ => rfl, fun _ _ => rfl, fun _ => rfl⟩
  | cons call calls ih =>
      -- what one call leaves, and the calls after it
      have hstep : ∀ {tok₁ : ConsumerToken} {w₁ : World K α} {rs₁}, ConsumerToken.In {p | p ∈ ls q} tok₁ ∧
          (∃ w₂, Frame {p | p ∈ ls q} w w₂ ∧ (w₁ = w₂ ∨ w₁ = w₂.rotate q)) →
          World.consume tr q calls tok₁ w₁ = some (rs₁, tok', w') → OnlyQueue q w w' := by
        rintro tok₁ w₁ rs₁ ⟨hin₁, w₂, hframe, hw⟩ hrest
        have hlisted : Listed w₁ ls := by
          rcases hw with rfl | rfl
          · exact h.frame hframe
          · exact (h.frame hframe).rotate q
        exact (h.onlyQueue hframe hw).trans (ih hlisted hin₁ hrest)
      cases call with
      | tryDequeue =>
          obtain ⟨⟨a, tok₁, w₁⟩, hdeq, hcalls⟩ := Option.bind_eq_some_iff.mp hrun
          obtain ⟨⟨rs₁, tok₂, w₂⟩, hrest, heq⟩ := Option.bind_eq_some_iff.mp hcalls
          simp only [Option.some.injEq, Prod.mk.injEq] at heq
          obtain ⟨-, rfl, rfl⟩ := heq
          obtain ⟨hin₁, -, hcall⟩ := tryDequeueToken_cases (h.round q) hin hdeq
          exact hstep ⟨hin₁, hcall⟩ hrest
      | tryDequeueBulk maxCount =>
          obtain ⟨⟨as, tok₁, w₁⟩, hdeq, hcalls⟩ := Option.bind_eq_some_iff.mp hrun
          obtain ⟨⟨rs₁, tok₂, w₂⟩, hrest, heq⟩ := Option.bind_eq_some_iff.mp hcalls
          simp only [Option.some.injEq, Prod.mk.injEq] at heq
          obtain ⟨-, rfl, rfl⟩ := heq
          obtain ⟨hin₁, -, hcall⟩ := tryDequeueBulkToken_cases (h.round q) hin hdeq
          exact hstep ⟨hin₁, hcall⟩ hrest

/-! ## The laws of moving and swapping -/

/-- **What a swap is meant to do**: `a.swap( b )` exchanges the two tokens, a second one brings them back, and
    from then on `a` dequeues from queue `q` what `b` would have dequeued, touching nothing of other queues. A
    move assignment `a = std::move( b )` is the same call. -/
structure Exchanged (tr : Traits K) (q : ℕ) (w : World K α) (a b : ConsumerToken) : Prop where
  exchange : a.swap b = (b, a)
  restore : (a.swap b).1.swap (a.swap b).2 = (a, b)
  later : ∀ calls, consume tr q calls (a.swap b).1 w = consume tr q calls b w
  only : ∀ calls rs tok w', consume tr q calls (a.swap b).1 w = some (rs, tok, w') → OnlyQueue q w w'

/-- **Tokens are exchanged where they agree in what `swap` leaves behind**, whatever their queues are and the
    history in which each token was used with its own. -/
theorem exchanged_iff [DecidableEq K] (tr : Traits K) (pools : ℕ → ℕ × ℕ) (home : ℕ → ℕ) (ops : List (Op K α))
    (rs : List (Reply α)) (w : World K α) (t : ℕ) (a b : ConsumerToken) (hops : ∀ op ∈ ops, op.AtHome home)
    (hrun : (fresh tr pools).run tr ops = some (rs, w)) (hb : w.consumerTokens t = some b) :
    Exchanged tr (home t) w a b ↔ a.itemsConsumed = b.itemsConsumed ∧ a.desiredProducer = b.desiredProducer := by
  constructor
  · intro h
    exact ConsumerToken.swap_eq_iff.mp h.exchange
  · intro h
    obtain ⟨ls, hhomed⟩ := (Homed.fresh tr pools home).run hops hrun
    have hswap := ConsumerToken.swap_eq_iff.mpr h
    refine ⟨hswap, ConsumerToken.swap_swap a b, fun calls => by rw [hswap], fun calls rs tok w' hcalls => ?_⟩
    rw [hswap] at hcalls
    exact hhomed.listed.consume (hhomed.tokens t b hb) hcalls

/-- Two tokens have dequeued an item each from the one producer there is. -/
def oneQueue : List (Op ℕ ℕ) :=
  [.getProducerToken 0 0, .enqueueBulkWithToken 0 .canAlloc [some 1, some 2, some 3] [], .getConsumerToken 0 0,
    .getConsumerToken 0 1, .tryDequeueToken 0 0, .tryDequeueToken 0 1]

theorem exchanged_iff_used : ∃ rs w a b, (fresh .small fun _ => (2, 2)).run .small oneQueue = some (rs, w) ∧
    w.consumerTokens 0 = some a ∧ w.consumerTokens 1 = some b ∧ a.itemsConsumed = 1 ∧
    a.desiredProducer = some 0 ∧ Exchanged .small 0 w a b := by
  have hend : (((fresh .small fun _ => (2, 2)).run .small oneQueue).bind fun x =>
      (x.2.consumerTokens 0).bind fun a => (x.2.consumerTokens 1).map fun b =>
        (a.itemsConsumed, b.itemsConsumed, a.desiredProducer, b.desiredProducer)) = some (1, 1, some 0, some 0) := by
    decide +kernel
  obtain ⟨⟨rs, w⟩, hrun, htokens⟩ := Option.bind_eq_some_iff.mp hend
  obtain ⟨a, ha, htokens⟩ := Option.bind_eq_some_iff.mp htokens
  obtain ⟨b, hb, htokens⟩ := Option.map_eq_some_iff.mp htokens
  simp only [Prod.mk.injEq] at htokens
  obtain ⟨hitems, hitems', hdesired, hdesired'⟩ := htokens
  exact ⟨rs, w, a, b, hrun, ha, hb, hitems, hdesired,
    (exchanged_iff .small (fun _ => (2, 2)) (fun _ => 0) oneQueue rs w 1 a b (by simp [oneQueue, Op.AtHome]) hrun hb).mpr
      ⟨hitems.trans hitems'.symm, hdesired.trans hdesired'.symm⟩⟩

/-- Each of two queues has a producer; the token of the first has dequeued one item, that of the second none. -/
def twoQueues : List (Op ℕ ℕ) :=
  [.getProducerToken 0 0, .getProducerToken 1 1, .enqueueBulkWithToken 0 .canAlloc [some 1, some 2] [],
    .enqueueWithToken 1 (some 10) [], .getConsumerToken 0 0, .getConsumerToken 1 1, .tryDequeueToken 0 0]

/-- After `a = std::move( b )` the first dequeue of `a` from the second queue takes an item of the first one:
    `a` has kept its own `DesiredProducer`, and walks on from there. -/
theorem not_exchanged : ¬ ∀ (tr : Traits ℕ) (pools : ℕ → ℕ × ℕ) (home : ℕ → ℕ) (ops : List (Op ℕ ℕ))
    (rs : List (Reply ℕ)) (w : World ℕ ℕ) (t t' : ℕ) (a b : ConsumerToken), (∀ op ∈ ops, op.AtHome home) →
    (fresh tr pools).run tr ops = some (rs, w) → w.consumerTokens t = some a → w.consumerTokens t' = some b →
    Exchanged tr (home t') w a b := by
  intro h
  have hfirst : (((fresh .small fun _ => (2, 2)).run .small twoQueues).bind fun x =>
      (x.2.consumerTokens 0).bind fun a => (x.2.consumerTokens 1).bind fun b =>
        (consume .small 1 [.tryDequeue] (a.swap b).1 x.2).map Prod.fst) = some [.dequeued (some 2)] := by
    decide +kernel
  have hsecond : (((fresh .small fun _ => (2, 2)).run .small twoQueues).bind fun x =>
      (x.2.consumerTokens 1).bind fun b => (consume .small 1 [.tryDequeue] b x.2).map Prod.fst)
        = some [.dequeued (some 10)] := by
    decide +kernel
  obtain ⟨⟨rs, w⟩, hrun, htokens⟩ := Option.bind_eq_some_iff.mp hfirst
  obtain ⟨a, ha, htokens⟩ := Option.bind_eq_some_iff.mp htokens
  obtain ⟨b, hb, hcall⟩ := Option.bind_eq_some_iff.mp htokens
  have hlaw := h .small (fun _ => (2, 2)) id twoQueues rs w 0 1 a b (by simp [twoQueues, Op.AtHome]) hrun ha hb
  rw [show (id 1 : ℕ) = 1 from rfl] at hlaw
  rw [hlaw.later] at hcall
  rw [hrun, Option.bind_some, hb, Option.bind_some, hcall] at hsecond
  exact absurd hsecond (by decide)

end World

end ConcurrentQueue

end LockFreeStructures
