import LockFreeStructures.ConcurrentQueue.ProducerList

/-!
# `ConcurrentQueue.Consume` — dequeues with a consumer token

A dequeue with a token goes from the token's producers round the list. `Round` is a set of nodes that this does
not leave; `tryDequeueToken_cases` and `tryDequeueBulkToken_cases` say that only producers in the set are called
and the token stays in it. With all nodes for the set this is the frame of the two calls.
-/

namespace LockFreeStructures

namespace ConcurrentQueue

namespace World

variable {K α ρ : Type} {tr : Traits K} {w w' : World K α} {S : Set ℕ} {p q t : ℕ} {ls : ℕ → List ℕ}
  {tok tok' : ConsumerToken}

/-- Going round the list of a queue from a node in `S` leads to nodes in `S`. -/
structure Round (q : ℕ) (S : Set ℕ) (w : World K α) : Prop where
  head : ∀ p, (w.queues q).producerListsHead = some p → p ∈ S
  next : ∀ p ∈ S, ∀ p', (w.next p).or (w.queues q).producerListsHead = some p' → p' ∈ S

namespace Round

theorem univ (q : ℕ) (w : World K α) : Round q Set.univ w := ⟨fun _ _ => trivial, fun _ _ _ _ => trivial⟩

theorem frame {S' : Set ℕ} (h : Round q S w) (hframe : Frame S' w w') : Round q S w' := by
  refine ⟨?_, ?_⟩
  · rw [hframe.head]
    exact h.head
  · rw [hframe.head, hframe.next_eq]
    exact h.next

theorem advance (h : Round q S w) {k : ℕ} {p' : ℕ} (hp : p ∈ S)
    (hadv : advance w.next (w.queues q).producerListsHead k p = some p') : p' ∈ S := by
  induction k generalizing p with
  | zero =>
      obtain rfl := Option.some.inj hadv
      exact hp
  | succ k ih =>
      obtain ⟨p₁, hnext, hadv⟩ := Option.bind_eq_some_iff.mp hadv
      exact ih (h.next p hp p₁ hnext) hadv

end Round

/-- The list of a queue is a round. -/
theorem Listed.round (h : Listed w ls) (q : ℕ) : Round q {p | p ∈ ls q} w := by
  refine ⟨fun p hp => ?_, fun p hp p' hnext => (h.linked q).mem_of_next_or_head hp hnext⟩
  have hlinked := h.linked q
  rw [hp] at hlinked
  obtain ⟨l, hl, -⟩ := hlinked.eq_cons
  show p ∈ ls q
  rw [hl]
  exact List.mem_cons_self

/-- The producers of a token are in `S`. -/
structure ConsumerToken.In (S : Set ℕ) (tok : ConsumerToken) : Prop where
  current : ∀ p, tok.currentProducer = some p → p ∈ S
  desired : ∀ p, tok.desiredProducer = some p → p ∈ S

theorem ConsumerToken.In.univ (tok : ConsumerToken) : ConsumerToken.In Set.univ tok :=
  ⟨fun _ _ => trivial, fun _ _ => trivial⟩

/-! ## Updates -/

/-- **What an update does**: nothing where there is no producer, else it puts the token on the node that the
    rotations since its last update, or its initial offset, lead to. -/
theorem updateProducerForConsumer_cases {ok : Bool} (h : w.updateProducerForConsumer q tok = some (ok, tok')) :
    (ok = false ∧ tok' = tok ∧ tok.desiredProducer = none ∧ (w.queues q).producerListsHead = none) ∨
    (ok = true ∧ (w.queues q).producerCount ≠ 0 ∧ ∃ start p,
      (tok.desiredProducer = some start ∨ tok.desiredProducer = none ∧
        ∃ head, (w.queues q).producerListsHead = some head ∧ advance w.next (some head)
          (tok.initialOffset % (w.queues q).producerCount) head = some start) ∧
      advance w.next (w.queues q).producerListsHead (Word.sub 32 (w.queues q).globalExplicitConsumerOffset
        tok.lastKnownGlobalOffset % (w.queues q).producerCount) start = some p ∧
      tok' = { tok with
        desiredProducer := some p
        lastKnownGlobalOffset := (w.queues q).globalExplicitConsumerOffset
        currentProducer := some p
        itemsConsumed := 0 }) := by
  unfold updateProducerForConsumer at h
  simp only at h
  split at h
  · rename_i hnone
    obtain ⟨rfl, rfl⟩ := Prod.mk.inj (Option.some.inj h)
    exact Or.inl ⟨rfl, rfl, hnone⟩
  · obtain ⟨start, hstart, h⟩ := Option.bind_eq_some_iff.mp h
    obtain ⟨delta, hdelta, h⟩ := Option.bind_eq_some_iff.mp h
    obtain ⟨p, hadv, h⟩ := Option.bind_eq_some_iff.mp h
    obtain ⟨rfl, rfl⟩ := Prod.mk.inj (Option.some.inj h)
    have hmod : (w.queues q).producerCount ≠ 0 ∧ delta = Word.sub 32 (w.queues q).globalExplicitConsumerOffset
        tok.lastKnownGlobalOffset % (w.queues q).producerCount := by
      unfold World.delta at hdelta
      simp only at hdelta
      split at hdelta
      · split at hdelta
        · exact absurd hdelta nofun
        · exact ⟨by assumption, (Option.some.inj hdelta).symm⟩
      · rename_i hlt
        obtain rfl := Option.some.inj hdelta
        exact ⟨by omega, (Nat.mod_eq_of_lt (by omega)).symm⟩
    refine Or.inr ⟨rfl, hmod.1, start, p, ?_, hmod.2 ▸ hadv, rfl⟩
    unfold startProducer at hstart
    simp only at hstart
    split at hstart
    · rename_i p' hdesired
      exact Or.inl (hdesired.trans hstart)
    · rename_i hdesired
      rw [if_neg hmod.1] at hstart
      obtain ⟨head, hhead, hstart⟩ := Option.bind_eq_some_iff.mp hstart
      exact Or.inr ⟨hdesired, head, hhead, by rwa [hhead] at hstart⟩

/-- What a token is after the check at the start of a dequeue. -/
theorem refresh_cases {ok : Bool} (h : w.refresh q tok = some (ok, tok')) :
    (tok.desiredProducer ≠ none ∧ tok.lastKnownGlobalOffset = (w.queues q).globalExplicitConsumerOffset ∧ ok = true ∧
      tok' = tok) ∨
    ((tok.desiredProducer = none ∨ tok.lastKnownGlobalOffset ≠ (w.queues q).globalExplicitConsumerOffset) ∧
      w.updateProducerForConsumer q tok = some (ok, tok')) := by
  unfold refresh at h
  split at h
  · exact Or.inr ⟨by assumption, h⟩
  · rename_i hfresh
    obtain ⟨rfl, rfl⟩ := Prod.mk.inj (Option.some.inj h)
    obtain ⟨hdesired, hlast⟩ := not_or.mp hfresh
    exact Or.inl ⟨hdesired, not_not.mp hlast, rfl, rfl⟩

theorem ConsumerToken.In.refresh {ok : Bool} (hin : ConsumerToken.In S tok) (hround : Round q S w)
    (h : w.refresh q tok = some (ok, tok')) : ConsumerToken.In S tok' := by
  rcases refresh_cases h with ⟨-, -, -, rfl⟩ | ⟨-, hupdate⟩
  · exact hin
  · rcases updateProducerForConsumer_cases hupdate with ⟨-, rfl, -, -⟩ | ⟨-, -, start, p, hstart, hadv, rfl⟩
    · exact hin
    · have hmem : start ∈ S := by
        rcases hstart with hdesired | ⟨-, head, hhead, hwalk⟩
        · exact hin.desired start hdesired
        · rw [← hhead] at hwalk
          exact hround.advance (hround.head head hhead) hwalk
      have hp : p ∈ S := hround.advance hmem hadv
      exact ⟨fun p' hp' => Option.some.inj hp' ▸ hp, fun p' hp' => Option.some.inj hp' ▸ hp⟩

/-! ## Dequeues -/

theorem dequeueOthers_cases {fuel : ℕ} {node : Option ℕ} {a : Option α} (hround : Round q S w)
    (hnode : ∀ p, node = some p → p ∈ S)
    (h : dequeueOthers tr (w.queues q).producerListsHead fuel node tok w = some (a, tok', w')) :
    Frame S w w' ∧ (tok' = tok ∨ ∃ p ∈ S, tok' = { tok with currentProducer := some p, itemsConsumed := 1 }) := by
  induction fuel generalizing node w with
  | zero => exact absurd h nofun
  | succ fuel ih =>
      rw [dequeueOthers] at h
      split at h
      · simp only [Option.some.injEq, Prod.mk.injEq] at h
        obtain ⟨-, rfl, rfl⟩ := h
        exact ⟨.refl _ _, Or.inl rfl⟩
      · obtain ⟨p, hp, h⟩ := Option.bind_eq_some_iff.mp h
        obtain ⟨⟨r, w₁⟩, hcall, h⟩ := Option.bind_eq_some_iff.mp h
        replace hp := hnode p hp
        have hframe := (onProducer_frame hcall).mono (Set.singleton_subset_iff.mpr hp)
        cases r with
        | some a' =>
            simp only [Option.some.injEq, Prod.mk.injEq] at h
            obtain ⟨-, rfl, rfl⟩ := h
            exact ⟨hframe, Or.inr ⟨p, hp, rfl⟩⟩
        | none =>
            rw [← hframe.head] at h
            have hnext : ∀ p', (w₁.next p).or (w₁.queues q).producerListsHead = some p' → p' ∈ S :=
              (hround.frame hframe).next p hp
            obtain ⟨hframe', htok⟩ := ih (hround.frame hframe) hnext h
            exact ⟨hframe.trans hframe', htok⟩

theorem dequeueBulkOthers_cases {fuel need : ℕ} {node : Option ℕ} {as : List α} (hround : Round q S w)
    (hnode : ∀ p, node = some p → p ∈ S)
    (h : dequeueBulkOthers tr (w.queues q).producerListsHead fuel node need tok w = some (as, tok', w')) :
    Frame S w w' ∧ (tok' = tok ∨ ∃ p ∈ S, ∃ n, tok' = { tok with currentProducer := some p, itemsConsumed := n }) := by
  induction fuel generalizing node need tok w as with
  | zero => exact absurd h nofun
  | succ fuel ih =>
      rw [dequeueBulkOthers] at h
      split at h
      · simp only [Option.some.injEq, Prod.mk.injEq] at h
        obtain ⟨-, rfl, rfl⟩ := h
        exact ⟨.refl _ _, Or.inl rfl⟩
      · obtain ⟨p, hp, h⟩ := Option.bind_eq_some_iff.mp h
        obtain ⟨⟨as₁, w₁⟩, hcall, h⟩ := Option.bind_eq_some_iff.mp h
        replace hp := hnode p hp
        have hframe := (onProducer_frame hcall).mono (Set.singleton_subset_iff.mpr hp)
        -- the token after the call of this producer
        have htok₁ : ∀ {tok₁ : ConsumerToken}, tok₁ = (if as₁.length ≠ 0 then
            { tok with currentProducer := some p, itemsConsumed := as₁.length } else tok) →
            tok₁ = tok ∨ ∃ p ∈ S, ∃ n, tok₁ = { tok with currentProducer := some p, itemsConsumed := n } := by
          rintro tok₁ rfl
          by_cases hlen : as₁.length ≠ 0
          · rw [if_pos hlen]
            exact Or.inr ⟨p, hp, _, rfl⟩
          · rw [if_neg hlen]
            exact Or.inl rfl
        simp only at h
        split at h
        · simp only [Option.some.injEq, Prod.mk.injEq] at h
          obtain ⟨-, rfl, rfl⟩ := h
          exact ⟨hframe, htok₁ rfl⟩
        · obtain ⟨⟨as₂, tok₂, w₂⟩, hloop, h⟩ := Option.bind_eq_some_iff.mp h
          simp only [Option.some.injEq, Prod.mk.injEq] at h
          obtain ⟨-, rfl, rfl⟩ := h
          rw [← hframe.head] at hloop
          have hnext : ∀ p', (w₁.next p).or (w₁.queues q).producerListsHead = some p' → p' ∈ S :=
            (hround.frame hframe).next p hp
          obtain ⟨hframe', htok⟩ := ih (hround.frame hframe) hnext hloop
          refine ⟨hframe.trans hframe', ?_⟩
          rcases htok with rfl | ⟨p', hp', n, rfl⟩
          · exact htok₁ rfl
          · rcases htok₁ rfl with heq | ⟨p'', -, n', heq⟩
            · exact Or.inr ⟨p', hp', n, by rw [heq]⟩
            · exact Or.inr ⟨p', hp', n, by rw [heq]⟩

/-- The token after a dequeue: it was refreshed, and may have gone to another producer. -/
def Moved (q : ℕ) (w : World K α) (tok tok' : ConsumerToken) : Prop :=
  ∃ ok tok₁ current items, w.refresh q tok = some (ok, tok₁) ∧
    tok' = { tok₁ with currentProducer := current, itemsConsumed := items }

/-- **`TryDequeue( ConsumerToken& )`** calls producers of the round, and may rotate. -/
theorem tryDequeueToken_cases {a : Option α} (hround : Round q S w) (hin : ConsumerToken.In S tok)
    (h : w.tryDequeueToken tr q tok = some (a, tok', w')) :
    ConsumerToken.In S tok' ∧ Moved q w tok tok' ∧ ∃ w₁, Frame S w w₁ ∧ (w' = w₁ ∨ w' = w₁.rotate q) := by
  obtain ⟨⟨ok, tok₁⟩, hrefresh, h⟩ := Option.bind_eq_some_iff.mp h
  have hin₁ := hin.refresh hround hrefresh
  cases ok with
  | false =>
      simp only [Bool.not_false, if_true, Option.some.injEq, Prod.mk.injEq] at h
      obtain ⟨-, rfl, rfl⟩ := h
      exact ⟨hin₁, ⟨false, _, _, _, hrefresh, rfl⟩, w, .refl _ _, Or.inl rfl⟩
  | true =>
      obtain ⟨p, hcurrent, h⟩ := Option.bind_eq_some_iff.mp h
      obtain ⟨⟨r, w₁⟩, hcall, h⟩ := Option.bind_eq_some_iff.mp h
      have hp := hin₁.current p hcurrent
      have hframe := (onProducer_frame hcall).mono (Set.singleton_subset_iff.mpr hp)
      cases r with
      | some a' =>
          simp only [Option.some.injEq, Prod.mk.injEq] at h
          obtain ⟨-, rfl, rfl⟩ := h
          refine ⟨⟨hin₁.current, hin₁.desired⟩, ⟨true, _, _, _, hrefresh, rfl⟩, w₁, hframe, ?_⟩
          split
          · exact Or.inr rfl
          · exact Or.inl rfl
      | none =>
          have hround₁ := hround.frame hframe
          obtain ⟨hframe', htok⟩ := dequeueOthers_cases hround₁ (hround₁.next p hp) h
          rcases htok with rfl | ⟨p', hp', rfl⟩
          · exact ⟨hin₁, ⟨true, _, _, _, hrefresh, rfl⟩, w', hframe.trans hframe', Or.inl rfl⟩
          · exact ⟨⟨fun p'' h'' => Option.some.inj h'' ▸ hp', hin₁.desired⟩, ⟨true, _, _, _, hrefresh, rfl⟩, w',
              hframe.trans hframe', Or.inl rfl⟩

/-- **`TryDequeueBulk( ConsumerToken& )`** does so too. -/
theorem tryDequeueBulkToken_cases {maxCount : ℕ} {as : List α} (hround : Round q S w) (hin : ConsumerToken.In S tok)
    (h : w.tryDequeueBulkToken tr q maxCount tok = some (as, tok', w')) :
    ConsumerToken.In S tok' ∧ Moved q w tok tok' ∧ ∃ w₁, Frame S w w₁ ∧ (w' = w₁ ∨ w' = w₁.rotate q) := by
  obtain ⟨⟨ok, tok₁⟩, hrefresh, h⟩ := Option.bind_eq_some_iff.mp h
  have hin₁ := hin.refresh hround hrefresh
  cases ok with
  | false =>
      simp only [Bool.not_false, if_true, Option.some.injEq, Prod.mk.injEq] at h
      obtain ⟨-, rfl, rfl⟩ := h
      exact ⟨hin₁, ⟨false, _, _, _, hrefresh, rfl⟩, w, .refl _ _, Or.inl rfl⟩
  | true =>
      obtain ⟨p, hcurrent, h⟩ := Option.bind_eq_some_iff.mp h
      obtain ⟨⟨as₁, w₁⟩, hcall, h⟩ := Option.bind_eq_some_iff.mp h
      have hp := hin₁.current p hcurrent
      have hframe := (onProducer_frame hcall).mono (Set.singleton_subset_iff.mpr hp)
      simp only at h
      split at h
      · simp only [Option.some.injEq, Prod.mk.injEq] at h
        obtain ⟨-, rfl, rfl⟩ := h
        refine ⟨⟨hin₁.current, hin₁.desired⟩, ⟨true, _, _, _, hrefresh, rfl⟩, w₁, hframe, ?_⟩
        split
        · exact Or.inr rfl
        · exact Or.inl rfl
      · obtain ⟨⟨as₂, tok₂, w₂⟩, hloop, h⟩ := Option.bind_eq_some_iff.mp h
        simp only [Option.some.injEq, Prod.mk.injEq] at h
        obtain ⟨-, rfl, rfl⟩ := h
        have hround₁ := hround.frame hframe
        obtain ⟨hframe', htok⟩ := dequeueBulkOthers_cases hround₁ (hround₁.next p hp) hloop
        rcases htok with rfl | ⟨p', hp', n, rfl⟩
        · exact ⟨⟨hin₁.current, hin₁.desired⟩, ⟨true, _, _, _, hrefresh, rfl⟩, _, hframe.trans hframe', Or.inl rfl⟩
        · exact ⟨⟨fun p'' h'' => Option.some.inj h'' ▸ hp', hin₁.desired⟩, ⟨true, _, _, _, hrefresh, rfl⟩, _,
            hframe.trans hframe', Or.inl rfl⟩

/-! ## The lists through a call -/

theorem Listed.rotate (h : Listed w ls) (q : ℕ) : Listed (w.rotate q) ls := h.modifyQueue q fun _ => ⟨rfl, rfl⟩

/-- A request for a node puts at most a new one in front of the list. -/
theorem Listed.getProducerListNode {type : ProducerType} (h : Listed w ls)
    (hget : w.getProducerListNode tr q type = some (p, w')) :
    Listed w' ls ∨ Listed w' (Function.update ls q (w.nodeCount :: ls q)) := by
  rcases getProducerListNode_cases h hget with ⟨-, -, -, rfl⟩ | ⟨-, -, producer, -, rfl⟩
  · exact Or.inl (h.setInactive p false)
  · exact Or.inr (h.push q producer)

/-- What a call of an implicit producer starts with: the map may change, and a node be requested. -/
theorem getOrAddImplicitProducer_cases [DecidableEq K] {thread : K}
    (h : w.getOrAddImplicitProducer tr q thread = some (p, w')) :
    ∃ t w₁, w₁ = w.modifyQueue q (fun c => { c with implicitMap := t }) ∧
      (w' = w₁ ∨ ∃ t' w₂, w₁.getProducerListNode tr q .implicit = some (p, w₂) ∧
        w' = w₂.modifyQueue q fun c => { c with implicitMap := t' }) := by
  obtain ⟨⟨i, t⟩, -, h⟩ := Option.bind_eq_some_iff.mp h
  refine ⟨t, _, rfl, ?_⟩
  cases i with
  | some i =>
      obtain ⟨p', -, h⟩ := Option.map_eq_some_iff.mp h
      exact Or.inl (Prod.mk.inj h).2.symm
  | none =>
      obtain ⟨⟨p', w₂⟩, hnode, h⟩ := Option.bind_eq_some_iff.mp h
      obtain ⟨t', -, h⟩ := Option.bind_eq_some_iff.mp h
      obtain ⟨rfl, rfl⟩ := Prod.mk.inj (Option.some.inj h)
      exact Or.inr ⟨t', w₂, hnode, rfl⟩

/-- **Step.** After a call every list is as it was or has a new node in front. -/
theorem Listed.effect [DecidableEq K] {op : Op K α} (h : Listed w ls) (heffect : Effect tr op w w') :
    ∃ ls', Listed w' ls' ∧ ∀ q, ls q <:+ ls' q := by
  have hsame : Listed w' ls → ∃ ls', Listed w' ls' ∧ ∀ q, ls q <:+ ls' q :=
    fun h' => ⟨ls, h', fun q => List.suffix_rfl⟩
  have hpush : ∀ q, Listed w' (Function.update ls q (w.nodeCount :: ls q)) →
      ∃ ls', Listed w' ls' ∧ ∀ q, ls q <:+ ls' q := by
    refine fun q h' => ⟨_, h', fun q' => ?_⟩
    by_cases hq : q' = q
    · subst hq
      rw [Function.update_self]
      exact List.suffix_cons _ _
    · rw [Function.update_of_ne hq]
  -- a dequeue with a token, whatever its producers are
  have hconsume : ∀ {q t tok' w₁} {w₂ : World K α}, Frame Set.univ w w₁ → w₂ = w₁ ∨ w₂ = w₁.rotate q →
      w' = w₂.setConsumerToken t tok' → Listed w' ls := by
    rintro q t tok' w₁ w₂ hframe (rfl | rfl) rfl
    · exact (h.frame hframe).setConsumerToken t tok'
    · exact ((h.frame hframe).rotate q).setConsumerToken t tok'
  cases heffect with
  | getProducerToken hget ht =>
      rcases h.getProducerListNode hget with h' | h'
      · exact hsame (h'.setProducerToken _ _)
      · exact hpush _ (h'.setProducerToken _ _)
  | moveProducerToken ht' hne ht => exact hsame ((h.setProducerToken _ _).setProducerToken _ _)
  | destroyInvalid ht => exact hsame (h.setProducerToken _ _)
  | destroyValid ht => exact hsame ((h.setInactive _ true).setProducerToken _ _)
  | getConsumerToken ht =>
      refine hsame (Listed.setConsumerToken (h.modifyQueue _ ?_) _ _)
      exact fun _ => ⟨rfl, rfl⟩
  | moveConsumerToken ht' ht => exact hsame (h.setConsumerToken _ _)
  | swapConsumerTokens op hop ht ht' hne => exact hsame ((h.setConsumerToken _ _).setConsumerToken _ _)
  | enqueue op hget hframe =>
      obtain ⟨t, w₁, rfl, rfl | ⟨t', w₂, hnode, rfl⟩⟩ := getOrAddImplicitProducer_cases hget
      · exact hsame ((h.setImplicitMap _ t).frame hframe)
      · rcases (h.setImplicitMap _ t).getProducerListNode hnode with h' | h'
        · exact hsame ((h'.setImplicitMap _ t').frame hframe)
        · exact hpush _ ((h'.setImplicitMap _ t').frame hframe)
  | tryDequeueToken ht hdeq =>
      obtain ⟨-, -, w₁, hframe, hw⟩ := tryDequeueToken_cases (.univ _ _) (.univ _) hdeq
      exact hsame (hconsume hframe hw rfl)
  | tryDequeueBulkToken ht hdeq =>
      obtain ⟨-, -, w₁, hframe, hw⟩ := tryDequeueBulkToken_cases (.univ _ _) (.univ _) hdeq
      exact hsame (hconsume hframe hw rfl)
  | call op hframe => exact hsame (h.frame hframe)

/-- **Run.** The lists stay lists through every run from a state in which they are. -/
theorem Listed.run [DecidableEq K] {ops : List (Op K α)} {rs : List (Reply α)} (h : Listed w ls)
    (hrun : w.run tr ops = some (rs, w')) : ∃ ls', Listed w' ls' ∧ ∀ q, ls q <:+ ls' q := by
  induction ops generalizing w ls rs with
  | nil =>
      obtain ⟨-, rfl⟩ := Prod.mk.inj (Option.some.inj hrun)
      exact ⟨ls, h, fun q => List.suffix_rfl⟩
  | cons op ops ih =>
      obtain ⟨⟨r, w₁⟩, hexec, hops⟩ := Option.bind_eq_some_iff.mp hrun
      obtain ⟨⟨rs₁, w₂⟩, hrest, heq⟩ := Option.bind_eq_some_iff.mp hops
      obtain ⟨-, rfl⟩ := Prod.mk.inj (Option.some.inj heq)
      obtain ⟨ls₁, h₁, hsuffix⟩ := h.effect (exec_effect hexec)
      obtain ⟨ls₂, h₂, hsuffix'⟩ := ih h₁ hrest
      exact ⟨ls₂, h₂, fun q => (hsuffix q).trans (hsuffix' q)⟩

end World

end ConcurrentQueue

end LockFreeStructures
