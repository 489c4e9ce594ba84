import LockFreeStructures.ConcurrentQueue.ConsumerToken

/-!
# `ConcurrentQueue.Rotation` — where the updates of consumer tokens lead

As long as the list of a queue stays as it is, an update puts a token on the node its initial offset and all
rotations so far lead to, whatever updates it made before: `Positioned` is the invariant,
`Positioned.update` what one update does, `Rotating.run` the run.
-/

namespace LockFreeStructures

namespace ConcurrentQueue

namespace World

variable {K α : Type} {tr : Traits K} {w w' : World K α} {S : Set ℕ} {p q t : ℕ} {ls : ℕ → List ℕ}
  {tok tok' : ConsumerToken} {l : List ℕ} {g g' : ℕ} {home : ℕ → ℕ}

/-! ## Updates -/

/-- The node at which a token stands after an update that saw `g` rotations. -/
def position (l : List ℕ) (g : ℕ) (tok : ConsumerToken) : Option ℕ := l[(tok.initialOffset + g + 1) % l.length]?

/-- A token of a queue with `g` rotations so far: it was never updated, or its last update put it where it
    belongs. -/
def Positioned (l : List ℕ) (g : ℕ) (tok : ConsumerToken) : Prop :=
  tok.desiredProducer = none ∧ tok.lastKnownGlobalOffset = 2 ^ 32 - 1 ∨
    tok.lastKnownGlobalOffset ≤ g ∧ tok.desiredProducer = position l tok.lastKnownGlobalOffset tok

/-- The producer list of a queue, and the rotations of it so far. -/
structure Stands (q : ℕ) (l : List ℕ) (g : ℕ) (w : World K α) : Prop where
  linked : Linked w.next (w.queues q).producerListsHead l
  count : (w.queues q).producerCount = l.length
  offset : (w.queues q).globalExplicitConsumerOffset = g

namespace Positioned

theorem mono (h : Positioned l g tok) (hg : g ≤ g') : Positioned l g' tok :=
  h.imp_right fun h => ⟨h.1.trans hg, h.2⟩

/-- **Update.** Its steps add up to the initial offset and the rotations, counted round the list. -/
theorem update (h : Positioned l g tok) (hstands : Stands q l g w) (hl : 0 < l.length) (hg : g < 2 ^ 32 - 1) :
    ∃ p, position l g tok = some p ∧ w.updateProducerForConsumer q tok = some (true, { tok with
      desiredProducer := some p
      lastKnownGlobalOffset := g
      currentProducer := some p
      itemsConsumed := 0 }) := by
  have hhead := hstands.linked.getElem_zero hl
  have hget : ∀ i, ∃ p, l[i % l.length]? = some p := fun i =>
    ⟨_, List.getElem?_eq_getElem (Nat.mod_lt i hl)⟩
  -- the walk of an update starts `d` steps before its end
  obtain ⟨k, start, hk, hstart, d, hsub, hsum⟩ : ∃ k start, l[k % l.length]? = some start ∧
      w.startProducer q tok = some start ∧ ∃ d, Word.sub 32 g tok.lastKnownGlobalOffset = d ∧
        k + d = tok.initialOffset + g + 1 := by
    rcases h with ⟨hdesired, hlast⟩ | ⟨hlast, hdesired⟩
    · -- a first update walks from the head, and from there `g + 1` steps
      obtain ⟨start, hstart⟩ := hget tok.initialOffset
      refine ⟨tok.initialOffset, start, hstart, ?_, g + 1, ?_, (Nat.add_assoc ..).symm⟩
      · have hwalk := hstands.linked.advance_mod (i := 0) (by
          rw [Nat.zero_mod]
          exact List.getElem?_eq_getElem hl) (Nat.mod_mod tok.initialOffset l.length)
        rw [Nat.zero_add, hstart] at hwalk
        simp only [startProducer, hdesired, hstands.count, if_neg hl.ne']
        rwa [hhead, Option.bind_some, ← hhead]
      · rw [hlast, Word.sub_of_lt hg (by decide)]
        omega
    · obtain ⟨start, hstart⟩ := hget (tok.initialOffset + tok.lastKnownGlobalOffset + 1)
      refine ⟨_, start, hstart, ?_, g - tok.lastKnownGlobalOffset, Word.sub_of_le hlast (by omega), by omega⟩
      simp only [startProducer, hdesired, position, hstart]
  obtain ⟨m, hdelta, hm⟩ : ∃ m, w.delta q tok = some m ∧ m % l.length = d % l.length := by
    subst hsub
    simp only [World.delta, hstands.count, hstands.offset, if_neg hl.ne']
    split
    · exact ⟨_, rfl, Nat.mod_mod _ _⟩
    · exact ⟨_, rfl, rfl⟩
  obtain ⟨p, hp⟩ := hget (tok.initialOffset + g + 1)
  have hend := hstands.linked.advance_mod hk hm
  rw [hsum, hp] at hend
  have hsome : ¬ (tok.desiredProducer = none ∧ (w.queues q).producerListsHead = none) := by
    rw [hhead]
    exact fun h => absurd h.2 nofun
  refine ⟨p, hp, ?_⟩
  rw [updateProducerForConsumer, if_neg hsome, hstart, hdelta, hstands.offset]
  simp only [Option.bind_eq_bind, Option.bind_some, hend]

end Positioned

/-! ## Rotations -/

/-- How many of the calls rotate a queue. -/
def rotations [DecidableEq K] (tr : Traits K) (q : ℕ) : List (Op K α) → World K α → ℕ
  | [], _ => 0
  | op :: ops, w =>
      match w.exec tr op with
      | none => 0
      | some (_, w') =>
          (if (w'.queues q).globalExplicitConsumerOffset = (w.queues q).globalExplicitConsumerOffset then 0 else 1) +
            rotations tr q ops w'

theorem offset_modifyQueue (q q' : ℕ) (f : ConcurrentQueue K α → ConcurrentQueue K α)
    (hf : ∀ c, (f c).globalExplicitConsumerOffset = c.globalExplicitConsumerOffset) (w : World K α) :
    ((w.modifyQueue q' f).queues q).globalExplicitConsumerOffset = (w.queues q).globalExplicitConsumerOffset := by
  by_cases hq : q = q'
  · subst hq
    simp only [modifyQueue, Function.update_self, hf]
  · simp only [modifyQueue, Function.update_of_ne hq]

theorem offset_setImplicitMap (q q' : ℕ) (t : HashTable K ℕ) (w : World K α) :
    ((w.modifyQueue q' fun c => { c with implicitMap := t }).queues q).globalExplicitConsumerOffset
      = (w.queues q).globalExplicitConsumerOffset :=
  offset_modifyQueue q q' (fun c => { c with implicitMap := t }) (fun _ => rfl) w

theorem getProducerListNode_offset {q' : ℕ} {type : ProducerType} (h : Listed w ls)
    (hget : w.getProducerListNode tr q' type = some (p, w')) :
    (w'.queues q).globalExplicitConsumerOffset = (w.queues q).globalExplicitConsumerOffset := by
  rcases getProducerListNode_cases h hget with ⟨-, -, -, rfl⟩ | ⟨-, -, producer, -, rfl⟩
  · rfl
  · by_cases hq : q = q'
    · subst hq
      simp only [push, Function.update_self]
    · simp only [push, Function.update_of_ne hq]

/-- A call rotates a queue once at most. -/
theorem Effect.offset [DecidableEq K] {op : Op K α} (h : Listed w ls) (heffect : Effect tr op w w') (q : ℕ) :
    (w'.queues q).globalExplicitConsumerOffset = (w.queues q).globalExplicitConsumerOffset ∨
      (w'.queues q).globalExplicitConsumerOffset = Word.add 32 (w.queues q).globalExplicitConsumerOffset 1 := by
  have hconsume : ∀ {q' w₁} {w₂ : World K α}, Frame Set.univ w w₁ → w₂ = w₁ ∨ w₂ = w₁.rotate q' →
      (w₂.queues q).globalExplicitConsumerOffset = (w.queues q).globalExplicitConsumerOffset ∨
        (w₂.queues q).globalExplicitConsumerOffset = Word.add 32 (w.queues q).globalExplicitConsumerOffset 1 := by
    rintro q' w₁ w₂ hframe (rfl | rfl)
    · exact Or.inl (hframe.offset q)
    · rw [← hframe.offset q]
      by_cases hq : q = q'
      · subst hq
        right
        simp only [rotate, modifyQueue, Function.update_self]
      · left
        simp only [rotate, modifyQueue, Function.update_of_ne hq]
  cases heffect with
  | getProducerToken hget ht =>
      have hoffset := getProducerListNode_offset (q := q) h hget
      exact Or.inl hoffset
  | getConsumerToken ht =>
      have hoffset := fun q' => offset_modifyQueue q q' (fun c =>
        { c with nextExplicitConsumerId := Word.add 32 c.nextExplicitConsumerId 1 }) (fun _ => rfl) w
      exact Or.inl (hoffset _)
  | enqueue op hget hframe =>
      left
      rw [hframe.offset]
      obtain ⟨t, w₁, rfl, rfl | ⟨t', w₂, hnode, rfl⟩⟩ := getOrAddImplicitProducer_cases hget
      · exact offset_setImplicitMap q _ t w
      · rw [offset_setImplicitMap, getProducerListNode_offset (h.setImplicitMap _ t) hnode]
        exact offset_setImplicitMap q _ t w
  | tryDequeueToken ht hdeq =>
      obtain ⟨-, -, w₁, hframe, hw⟩ := tryDequeueToken_cases (.univ _ _) (.univ _) hdeq
      have hoffset := hconsume hframe hw
      exact hoffset
  | tryDequeueBulkToken ht hdeq =>
      obtain ⟨-, -, w₁, hframe, hw⟩ := tryDequeueBulkToken_cases (.univ _ _) (.univ _) hdeq
      have hoffset := hconsume hframe hw
      exact hoffset
  | call op hframe => exact Or.inl (hframe.offset q)
  | _ => exact Or.inl rfl

/-! ## Runs -/

/-- A queue that has been rotated `g` times, and its tokens. -/
structure Rotating (home : ℕ → ℕ) (q : ℕ) (ls : ℕ → List ℕ) (g : ℕ) (w : World K α) : Prop where
  listed : Listed w ls
  offset : (w.queues q).globalExplicitConsumerOffset = g
  tokens : ∀ t tok, w.consumerTokens t = some tok → home t = q → Positioned (ls q) g tok

namespace Rotating

theorem stands (h : Rotating home q ls g w) (hn : (ls q).length < 2 ^ 32) : Stands q (ls q) g w :=
  ⟨h.listed.linked q, by rw [h.listed.count, Nat.mod_eq_of_lt hn], h.offset⟩

/-- A dequeue with a token leaves it where it belongs. -/
theorem moved (h : Rotating home q ls g w) (hl : 0 < (ls q).length) (hn : (ls q).length < 2 ^ 32)
    (hg : g < 2 ^ 32 - 1) (htok : Positioned (ls q) g tok) (hmoved : Moved q w tok tok') :
    Positioned (ls q) g tok' := by
  obtain ⟨ok, tok₁, current, items, hrefresh, rfl⟩ := hmoved
  rcases refresh_cases hrefresh with ⟨-, -, -, rfl⟩ | ⟨-, hupdate⟩
  · exact htok
  · obtain ⟨p, hp, heq⟩ := htok.update (h.stands hn) hl hg
    rw [hupdate] at heq
    obtain ⟨-, rfl⟩ := Prod.mk.inj (Option.some.inj heq)
    exact Or.inr ⟨Nat.le_refl g, hp.symm⟩

/-- **Step.** -/
theorem effect [DecidableEq K] {op : Op K α} {ls' : ℕ → List ℕ} (h : Rotating home q ls g w)
    (hl : 0 < (ls q).length) (hn : (ls q).length < 2 ^ 32) (hop : op.AtHome home) (heffect : Effect tr op w w')
    (hlisted : Listed w' ls') (hsame : ls' q = ls q) (hg : g' < 2 ^ 32 - 1)
    (hg' : g' = (if (w'.queues q).globalExplicitConsumerOffset = (w.queues q).globalExplicitConsumerOffset then 0
      else 1) + g) : Rotating home q ls' g' w' := by
  have hle : g ≤ g' := by omega
  have hoffset : (w'.queues q).globalExplicitConsumerOffset = g' := by
    rcases heffect.offset h.listed q with heq | heq
    · rw [if_pos heq] at hg'
      rw [heq, h.offset, hg', Nat.zero_add]
    · have hadd : Word.add 32 g 1 = g + 1 := Word.add_of_lt (by omega)
      rw [h.offset, hadd] at heq
      rw [heq, h.offset, if_neg (Nat.succ_ne_self g)] at hg'
      rw [heq, hg', Nat.add_comm]
  refine ⟨hlisted, hoffset, fun t tok' ht hhome => ?_⟩
  rw [hsame]
  refine Positioned.mono ?_ hle
  cases heffect.origin h.listed hop ht with
  | kept t' hhome' ht' => exact h.tokens t' tok' ht' (hhome'.symm.trans hhome)
  | created n heq => exact heq ▸ Or.inl ⟨rfl, rfl⟩
  | dequeue tok a w₁ ht' hdeq =>
      obtain ⟨-, hmove, -⟩ := tryDequeueToken_cases (.univ _ _) (.univ _) hdeq
      exact h.moved hl hn (by omega) (h.tokens t tok ht' hhome) (hhome ▸ hmove)
  | dequeueBulk tok maxCount as w₁ ht' hdeq =>
      obtain ⟨-, hmove, -⟩ := tryDequeueBulkToken_cases (.univ _ _) (.univ _) hdeq
      exact h.moved hl hn (by omega) (h.tokens t tok ht' hhome) (hhome ▸ hmove)

/-- **Run**, in which the list of the queue stays as it is. -/
theorem run [DecidableEq K] {ops : List (Op K α)} {rs : List (Reply α)} (h : Rotating home q ls g w)
    (hl : 0 < (ls q).length) (hn : (ls q).length < 2 ^ 32) (hops : ∀ op ∈ ops, op.AtHome home)
    (hrun : w.run tr ops = some (rs, w')) (hlist : w'.producerList q = some (ls q))
    (hg : g + rotations tr q ops w < 2 ^ 32 - 1) :
    ∃ ls' g', Rotating home q ls' g' w' ∧ ls' q = ls q ∧ g' < 2 ^ 32 - 1 := by
  induction ops generalizing w ls rs g with
  | nil =>
      obtain ⟨-, rfl⟩ := Prod.mk.inj (Option.some.inj hrun)
      exact ⟨ls, g, h, rfl, hg⟩
  | cons op ops ih =>
      obtain ⟨⟨r, w₁⟩, hexec, hops'⟩ := Option.bind_eq_some_iff.mp hrun
      obtain ⟨⟨rs₁, w₂⟩, hrest, heq⟩ := Option.bind_eq_some_iff.mp hops'
      obtain ⟨-, rfl⟩ := Prod.mk.inj (Option.some.inj heq)
      obtain ⟨ls₁, hlisted₁, hsuffix₁⟩ := h.listed.effect (exec_effect hexec)
      obtain ⟨ls₂, hlisted₂, hsuffix₂⟩ := hlisted₁.run hrest
      -- nothing was put in front of the list on the way
      have hsame : ls₁ q = ls q := by
        have hlast : ls₂ q = ls q := Option.some.inj ((hlisted₂.producerList q).symm.trans hlist)
        refine ((hsuffix₁ q).eq_of_length_le ?_).symm
        rw [← hlast]
        exact (hsuffix₂ q).length_le
      simp only [rotations, hexec] at hg
      obtain ⟨g₁, hg₁⟩ : ∃ g₁, g₁ = (if (w₁.queues q).globalExplicitConsumerOffset
          = (w.queues q).globalExplicitConsumerOffset then 0 else 1) + g := ⟨_, rfl⟩
      have h₁ := h.effect hl hn (hops op List.mem_cons_self) (exec_effect hexec) hlisted₁ hsame (by omega) hg₁
      rw [← hsame] at hl hn hlist ⊢
      exact ih h₁ hl hn (fun op hop => hops op (List.mem_cons_of_mem _ hop)) hrest hlist (by omega)

end Rotating

/-! ## Where the tokens stand -/

/-- **What rotation is meant to do** for the tokens of a queue with the producer list `l`: an up-to-date token's
    `DesiredProducer` is where its initial offset and the rotations lead to, an update at any moment makes it so,
    and two up-to-date tokens stand on different producers unless their initial offsets are the same modulo the
    number of producers. -/
structure Spread (home : ℕ → ℕ) (q : ℕ) (l : List ℕ) (w : World K α) : Prop where
  upToDate : ∀ t tok, w.consumerTokens t = some tok → home t = q →
    tok.lastKnownGlobalOffset = (w.queues q).globalExplicitConsumerOffset →
    tok.desiredProducer = position l (w.queues q).globalExplicitConsumerOffset tok
  update : ∀ t tok, w.consumerTokens t = some tok → home t = q → ∃ tok',
    w.updateProducerForConsumer q tok = some (true, tok') ∧
      tok'.lastKnownGlobalOffset = (w.queues q).globalExplicitConsumerOffset ∧
      tok'.desiredProducer = position l (w.queues q).globalExplicitConsumerOffset tok ∧
      tok'.currentProducer = tok'.desiredProducer
  distinct : ∀ t t' tok tok', w.consumerTokens t = some tok → w.consumerTokens t' = some tok' → home t = q →
    home t' = q → tok.lastKnownGlobalOffset = (w.queues q).globalExplicitConsumerOffset →
    tok'.lastKnownGlobalOffset = (w.queues q).globalExplicitConsumerOffset →
    tok.initialOffset % l.length ≠ tok'.initialOffset % l.length → tok.desiredProducer ≠ tok'.desiredProducer

theorem Positioned.eq_position (h : Positioned l g tok) (hg : g < 2 ^ 32 - 1) (hlast : tok.lastKnownGlobalOffset = g) :
    tok.desiredProducer = position l g tok := by
  rcases h with ⟨-, hnew⟩ | ⟨-, hdesired⟩
  · omega
  · rwa [hlast] at hdesired

/-- Different initial offsets lead to different nodes. -/
theorem position_ne (hnodup : l.Nodup) (hl : 0 < l.length)
    (hne : tok.initialOffset % l.length ≠ tok'.initialOffset % l.length) : position l g tok ≠ position l g tok' := by
  intro heq
  have hmod : ∀ i, i % l.length < l.length := fun i => Nat.mod_lt i hl
  have hindex := (List.getElem?_inj (hmod _) hnodup).mp heq
  refine hne (Nat.ModEq.add_right_cancel' (g + 1) ?_)
  rw [Nat.ModEq, ← Nat.add_assoc, ← Nat.add_assoc]
  exact hindex

theorem Rotating.spread (h : Rotating home q ls g w) (hl : 0 < (ls q).length) (hn : (ls q).length < 2 ^ 32)
    (hg : g < 2 ^ 32 - 1) : Spread home q (ls q) w := by
  obtain rfl := h.offset
  refine ⟨fun t tok ht hhome hlast => (h.tokens t tok ht hhome).eq_position hg hlast, fun t tok ht hhome => ?_,
    fun t t' tok tok' ht ht' hhome hhome' hlast hlast' hne => ?_⟩
  · obtain ⟨p, hp, hupdate⟩ := (h.tokens t tok ht hhome).update (h.stands hn) hl hg
    exact ⟨_, hupdate, rfl, hp.symm, rfl⟩
  · rw [(h.tokens t tok ht hhome).eq_position hg hlast, (h.tokens t' tok' ht' hhome').eq_position hg hlast']
    exact position_ne (h.listed.linked q).nodup hl hne

/-- **Rotation spreads consumers.** In every run in which the producer list of a queue stays the same, shorter than
    `2 ^ 32`, with fewer than `2 ^ 32 - 1` rotations of the queue in all, and with tokens of it that had not been
    used when the run began. -/
theorem tokens_spread [DecidableEq K] (tr : Traits K) (pools : ℕ → ℕ × ℕ) (home : ℕ → ℕ) (q : ℕ)
    (before ops : List (Op K α)) (rs₀ rs : List (Reply α)) (w₀ w : World K α) (l : List ℕ)
    (hbefore : (fresh tr pools).run tr before = some (rs₀, w₀))
    (hnew : ∀ t tok, w₀.consumerTokens t = some tok → home t = q → tok = .new tok.initialOffset)
    (hlist : w₀.producerList q = some l) (hl : 0 < l.length) (hn : l.length < 2 ^ 32)
    (hops : ∀ op ∈ ops, op.AtHome home) (hrun : w₀.run tr ops = some (rs, w)) (hsame : w.producerList q = some l)
    (hrotations : (w₀.queues q).globalExplicitConsumerOffset + rotations tr q ops w₀ < 2 ^ 32 - 1) :
    Spread home q l w := by
  obtain ⟨ls, hlisted, -⟩ := (Listed.fresh tr pools).run hbefore
  obtain rfl : ls q = l := Option.some.inj ((hlisted.producerList q).symm.trans hlist)
  have hstart : Rotating home q ls (w₀.queues q).globalExplicitConsumerOffset w₀ := by
    refine ⟨hlisted, rfl, fun t tok ht hhome => Or.inl ?_⟩
    rw [hnew t tok ht hhome]
    exact ⟨rfl, rfl⟩
  obtain ⟨ls', g', h', hls, hg'⟩ := hstart.run hl hn hops hrun hsame hrotations
  rw [← hls] at hl hn ⊢
  exact h'.spread hl hn hg'

/-- Two tokens on two producers. -/
theorem tokens_spread_two : ∃ w₀ w, ((fresh .small fun _ => (2, 2) : World ℕ ℕ).run .small
      [.getProducerToken 0 0, .getProducerToken 0 1]).map Prod.snd = some w₀ ∧
    (w₀.run .small [.getConsumerToken 0 0, .getConsumerToken 0 1, .tryDequeueToken 0 0, .tryDequeueBulkToken 0 1 5]).map
      Prod.snd = some w ∧ Spread (fun _ => 0) 0 [1, 0] w :=
  ⟨_, _, rfl, rfl, tokens_spread .small (fun _ => (2, 2)) (fun _ => 0) 0
    [.getProducerToken 0 0, .getProducerToken 0 1]
    [.getConsumerToken 0 0, .getConsumerToken 0 1, .tryDequeueToken 0 0, .tryDequeueBulkToken 0 1 5] _ _ _ _ [1, 0]
    rfl nofun rfl (by decide) (by decide) (by simp [Op.AtHome]) rfl rfl (by decide +kernel)⟩

/-! ## More producers than `ProducerCount` counts -/

/-- A queue with `k` explicit producers, all in use, and no consumer tokens. -/
structure Crowded (k : ℕ) (w : World K α) : Prop where
  listed : ∃ ls, Listed w ls ∧ (ls 0).length = k
  active : ∀ p, (w.nodes p).inactive = false
  unused : ∀ t, k ≤ t → w.producerTokens t = none
  tokens : ∀ t, w.consumerTokens t = none
  offset : (w.queues 0).globalExplicitConsumerOffset = 0
  nextId : (w.queues 0).nextExplicitConsumerId = 0

theorem findInactive_of_active (hactive : ∀ p, (w.nodes p).inactive = false) (type : ProducerType) (ps : List ℕ) :
    w.findInactive type ps = none := by
  induction ps with
  | nil => rfl
  | cons p ps ih => rw [findInactive, if_neg (by simp [hactive]), ih]

/-- One more token, and a producer for it. -/
theorem Crowded.getProducerToken [DecidableEq K] {k : ℕ} (h : Crowded k w) :
    ∃ w', w.exec tr (.getProducerToken 0 k) = some (.done, w') ∧ Crowded (k + 1) w' := by
  obtain ⟨ls, hlisted, hlen⟩ := h.listed
  obtain ⟨s, hfresh⟩ : ∃ s : FastQueue α, FastQueue.fresh tr.toCfg tr.initialExplicitQueueSize 0 [] = some s :=
    ⟨_, rfl⟩
  have hget : w.getProducerListNode tr 0 .explicit = some (w.nodeCount, w.push 0 (.explicit s)) := by
    rw [getProducerListNode, hlisted.producerList, Option.bind_eq_bind, Option.bind_some,
      findInactive_of_active h.active]
    simp only [createProducerListNode, newProducer, hfresh, Option.map_some, Option.bind_eq_bind, Option.bind_some,
      addProducer, modifyNode, modifyQueue, push, Function.update_self, Function.update_idem]
  refine ⟨(w.push 0 (.explicit s)).setProducerToken k (some ⟨some w.nodeCount⟩), ?_, ?_⟩
  · exact Option.bind_eq_some_iff.mpr ⟨_, hget, if_pos (h.unused k (Nat.le_refl k))⟩
  · refine ⟨⟨_, (hlisted.push 0 (.explicit s)).setProducerToken _ _, ?_⟩, fun p => ?_, fun t ht => ?_, h.tokens, ?_, ?_⟩
    · rw [Function.update_self, List.length_cons, hlen]
    · by_cases hp : p = w.nodeCount
      · subst hp
        simp only [setProducerToken, push, Function.update_self]
      · simp only [setProducerToken, push, Function.update_of_ne hp, h.active]
    · have hne : t ≠ k := by omega
      simp only [setProducerToken, Function.update_of_ne hne]
      exact h.unused t (by omega)
    · simp only [setProducerToken, push, Function.update_self, h.offset]
    · simp only [setProducerToken, push, Function.update_self, h.nextId]

theorem Crowded.run [DecidableEq K] (tr : Traits K) (n : ℕ) {k : ℕ} (h : Crowded k w) :
    ∃ rs w', w.run tr ((List.range' k n).map (.getProducerToken 0)) = some (rs, w') ∧ Crowded (k + n) w' := by
  induction n generalizing k w with
  | zero => exact ⟨[], w, rfl, h⟩
  | succ n ih =>
      obtain ⟨w₁, hexec, h₁⟩ := @Crowded.getProducerToken _ _ tr _ _ _ h
      obtain ⟨rs, w', hrun, h'⟩ := ih h₁
      rw [Nat.add_right_comm] at h'
      refine ⟨.done :: rs, w', ?_, h'⟩
      rw [List.range'_succ, List.map_cons, World.run, hexec, Option.bind_eq_bind, Option.bind_some]
      exact Option.bind_eq_some_iff.mpr ⟨(rs, w'), hrun, rfl⟩

/-- The first consumer token of queue 0. -/
def withConsumerToken (w : World K α) : World K α :=
  (w.modifyQueue 0 fun c =>
    { c with nextExplicitConsumerId := Word.add 32 c.nextExplicitConsumerId 1 }).setConsumerToken 0 (.new 0)

/-- Where `ProducerCount` is one modulo `2 ^ 32`, every update leads to the first node. -/
theorem updateProducerForConsumer_new (hlinked : Linked w.next (w.queues q).producerListsHead l) (hl : 0 < l.length)
    (hcount : (w.queues q).producerCount = 1) (i : ℕ) {ok : Bool}
    (h : w.updateProducerForConsumer q (.new i) = some (ok, tok')) : tok'.desiredProducer = some l[0] := by
  have hhead := hlinked.getElem_zero hl
  rcases updateProducerForConsumer_cases h with ⟨-, -, -, hnone⟩ | ⟨-, -, start, p, hstart, hadv, rfl⟩
  · rw [hhead] at hnone
    exact absurd hnone nofun
  · rw [hcount, Nat.mod_one] at hadv
    rcases hstart with hdesired | ⟨-, head, hhead', hwalk⟩
    · exact absurd hdesired nofun
    · rw [hcount, Nat.mod_one] at hwalk
      obtain rfl := Option.some.inj hadv
      obtain rfl := Option.some.inj hwalk
      rw [← hhead, hhead']

/-- With `2 ^ 32 + 1` producers `ProducerCount` is one, and the first token is not put on the second node. -/
theorem not_tokens_spread : ¬ ∀ (tr : Traits ℕ) (pools : ℕ → ℕ × ℕ) (home : ℕ → ℕ) (q : ℕ)
    (before ops : List (Op ℕ ℕ)) (rs₀ rs : List (Reply ℕ)) (w₀ w : World ℕ ℕ) (l : List ℕ),
    (fresh tr pools).run tr before = some (rs₀, w₀) →
    (∀ t tok, w₀.consumerTokens t = some tok → home t = q → tok = .new tok.initialOffset) →
    w₀.producerList q = some l → 0 < l.length → (∀ op ∈ ops, op.AtHome home) → w₀.run tr ops = some (rs, w) →
    w.producerList q = some l →
    (w₀.queues q).globalExplicitConsumerOffset + rotations tr q ops w₀ < 2 ^ 32 - 1 → Spread home q l w := by
  intro hclaim
  have hstart : Crowded 0 (fresh .small fun _ => (0, 0) : World ℕ ℕ) :=
    ⟨⟨_, .fresh .small _, rfl⟩, fun _ => rfl, fun _ _ => rfl, fun _ => rfl, rfl, rfl⟩
  obtain ⟨rs₀, w₀, hrun₀, h⟩ := hstart.run .small (2 ^ 32 + 1)
  rw [Nat.zero_add] at h
  obtain ⟨ls, hlisted, hlen⟩ := h.listed
  -- the run goes on with the first consumer token
  have hexec : w₀.exec .small (.getConsumerToken 0 0) = some (.done, w₀.withConsumerToken) := by
    refine (if_pos (h.tokens 0)).trans ?_
    rw [h.nextId]
    rfl
  have hlisted' : Listed w₀.withConsumerToken ls := by
    refine Listed.setConsumerToken (hlisted.modifyQueue 0 ?_) 0 _
    exact fun _ => ⟨rfl, rfl⟩
  have hcount : (w₀.withConsumerToken.queues 0).producerCount = 1 := by
    rw [hlisted'.count, hlen]
    decide
  have hoffset : (w₀.withConsumerToken.queues 0).globalExplicitConsumerOffset = 0 := by
    simp only [withConsumerToken, setConsumerToken, modifyQueue, Function.update_self, h.offset]
  have hl : 0 < (ls 0).length := by omega
  have hlaw := hclaim .small (fun _ => (0, 0)) (fun _ => 0) 0 _ [.getConsumerToken 0 0] rs₀ [.done] w₀
    w₀.withConsumerToken (ls 0) hrun₀ (fun t tok ht => absurd ((h.tokens t).symm.trans ht) (by rintro ⟨⟩))
    (hlisted.producerList 0) hl (by simp [Op.AtHome]) (by rw [run, hexec]; rfl) (hlisted'.producerList 0) (by
      simp only [rotations, hexec, hoffset, h.offset]
      decide)
  obtain ⟨tok', hupdate, -, hposition, -⟩ := hlaw.update 0 (.new 0) rfl rfl
  rw [updateProducerForConsumer_new (hlisted'.linked 0) hl hcount 0 hupdate, hoffset, position, hlen,
    ← List.getElem?_eq_getElem hl, List.getElem?_inj hl (hlisted'.linked 0).nodup] at hposition
  exact absurd hposition (by decide)

end World

end ConcurrentQueue

end LockFreeStructures
