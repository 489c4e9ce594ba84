import LockFreeStructures.ConcurrentQueue.Size
import LockFreeStructures.Lib.Transition

/-!
# `ConcurrentQueue.Quota` — the consumption quota of a token

A token that has consumed its quota is to be moved on by a rotation. `TryDequeue` rotates when the count is the quota,
`TryDequeueBulk` when a whole batch takes it there or beyond. A batch that is cut short does not rotate, and once the
count is past the quota single dequeues do not either. `rotates_along_iff` says which calls keep the quota.
-/

namespace LockFreeStructures

namespace ConcurrentQueue

namespace World

variable {K α : Type} {tr : Traits K} {w w' : World K α} {p q t : ℕ} {ls : ℕ → List ℕ} {home : ℕ → ℕ}
  {tok tok₁ : ConsumerToken}

/-- **What the quota is meant to do**: where a token has consumed its quota after a call on it, the queue has been
    rotated since the token last looked, so that its next call moves it on. -/
def Rotates [DecidableEq K] (tr : Traits K) (w : World K α) (op : Op K α) : Prop :=
  ∀ r w', w.exec tr op = some (r, w') → match op with
    | .tryDequeueToken q t | .tryDequeueBulkToken q t _ => ∀ tok, w'.consumerTokens t = some tok →
        consumptionQuota ≤ tok.itemsConsumed →
          tok.lastKnownGlobalOffset ≠ (w'.queues q).globalExplicitConsumerOffset
    | _ => True

/-- The calls that leave no token with its quota consumed and nothing done about it. Single dequeues: the refreshed
    token is below its quota, or goes to another producer. Bulk dequeues: its producer has enough for the whole
    batch, or the count is below the quota after the last batch of the way round. -/
def KeepsQuota (tr : Traits K) (w : World K α) : Op K α → Prop
  | .tryDequeueToken q t => ∀ tok tok₁ p ps, w.consumerTokens t = some tok → Refreshed q w tok tok₁ p →
      w.producerList q = some ps →
      if 0 < w.producerSize tr p then Word.add tr.w tok₁.itemsConsumed 1 ≤ consumptionQuota
      else tok₁.itemsConsumed < consumptionQuota ∨ ∃ n ∈ othersAfter p ps, w.producerSize tr n ≠ 0
  | .tryDequeueBulkToken q t maxCount => ∀ tok tok₁ p ps, w.consumerTokens t = some tok → Refreshed q w tok tok₁ p →
      w.producerList q = some ps →
      maxCount ≤ w.producerSize tr p ∨
        lastBatch ((othersAfter p ps).map (w.producerSize tr)) (maxCount - w.producerSize tr p)
          (Word.add tr.w tok₁.itemsConsumed (w.producerSize tr p)) < consumptionQuota
  | _ => True

/-! ## The state of the tokens -/

/-- A pending rotation moves a token on: its count starts again at the producer it goes to. -/
theorem Refreshed.itemsConsumed (h : Refreshed q w tok tok₁ p)
    (hpending : tok.lastKnownGlobalOffset ≠ (w.queues q).globalExplicitConsumerOffset) :
    tok₁.itemsConsumed = 0 ∧ tok₁.desiredProducer = some p := by
  rcases refresh_cases h.refresh with ⟨-, hlast, -⟩ | ⟨-, hupdate⟩
  · exact absurd hlast hpending
  · rcases updateProducerForConsumer_cases hupdate with ⟨hok, -⟩ | ⟨-, -, start, p', -, -, rfl⟩
    · exact absurd hok nofun
    · exact ⟨rfl, h.current⟩

theorem Refreshed.unique {tok₂ : ConsumerToken} {p' : ℕ} (h : Refreshed q w tok tok₁ p)
    (h' : Refreshed q w tok tok₂ p') : tok₂ = tok₁ ∧ p' = p := by
  obtain rfl : tok₂ = tok₁ := (Prod.mk.inj (Option.some.inj (h'.refresh.symm.trans h.refresh))).2
  exact ⟨rfl, Option.some.inj (h'.current.symm.trans h.current)⟩

/-- A rotation is seen. -/
theorem add_one_ne (n : ℕ) : n ≠ Word.add 32 n 1 := by
  have hlt := Nat.mod_lt (n + 1) (Nat.two_pow_pos 32)
  rw [Word.add]
  intro heq
  rw [← heq] at hlt
  by_cases hlast : n + 1 = 2 ^ 32
  · rw [hlast, Nat.mod_self] at heq
    omega
  · rw [Nat.mod_eq_of_lt (by omega)] at heq
    omega

/-- The counts of the tokens and of their producers. A token that has no producer yet has consumed nothing. -/
structure Metered (tr : Traits K) (home : ℕ → ℕ) (w : World K α) (ls : ℕ → List ℕ) : Prop where
  homed : Homed home w ls
  counted : Counted tr w
  idle : ∀ t tok, w.consumerTokens t = some tok → tok.desiredProducer = none → tok.itemsConsumed = 0

namespace Metered

theorem fresh (tr : Traits K) (pools : ℕ → ℕ × ℕ) (home : ℕ → ℕ) :
    Metered tr home (World.fresh tr pools : World K α) fun _ => [] :=
  ⟨.fresh tr pools home, .fresh tr pools, fun _ _ h => absurd h nofun⟩

/-- **Step.** -/
theorem exec [DecidableEq K] {op : Op K α} {r : Reply α} (h : Metered tr home w ls) (hop : op.AtHome home)
    (hexec : w.exec tr op = some (r, w')) : ∃ ls', Metered tr home w' ls' := by
  have heffect := exec_effect hexec
  obtain ⟨ls', hhomed⟩ := h.homed.effect hop heffect
  refine ⟨ls', hhomed, h.counted.exec h.homed hop hexec, fun t tok' ht hdesired => ?_⟩
  cases heffect.origin h.homed.listed hop ht with
  | kept t' hhome ht' => exact h.idle t' tok' ht' hdesired
  | created n heq => rw [heq, ConsumerToken.new]
  | dequeue tok a w₁ ht' hdeq =>
      rcases (h.counted.tryDequeueToken h.homed.listed (h.homed.tokens t tok ht') hdeq).2 with
        ⟨rfl, -⟩ | ⟨-, -, -, -, hsome, -⟩
      · exact h.idle t tok' ht' hdesired
      · exact absurd hdesired hsome
  | dequeueBulk tok maxCount as w₁ ht' hdeq =>
      rcases (h.counted.tryDequeueBulkToken h.homed.listed (h.homed.tokens t tok ht') hdeq).2 with
        ⟨rfl, -⟩ | ⟨-, -, -, -, hsome, -⟩
      · exact h.idle t tok' ht' hdesired
      · exact absurd hdesired hsome

/-- A token that finds no producer has consumed nothing, and keeps its quota whatever it is asked for. -/
theorem below_of_idle (h : Metered tr home w ls) (ht : w.consumerTokens t = some tok)
    (hrefresh : w.refresh q tok = some (false, tok)) :
    ¬ consumptionQuota ≤ tok.itemsConsumed ∧ ∀ tok₁ p, ¬ Refreshed q w tok tok₁ p := by
  refine ⟨?_, fun tok₁ p hrefreshed => ?_⟩
  · rw [h.idle t tok ht (refresh_false hrefresh).2]
    decide
  · have hok := (Prod.mk.inj (Option.some.inj (hrefresh.symm.trans hrefreshed.refresh))).1
    exact absurd hok nofun

/-- **Single dequeues.** -/
theorem tryDequeueToken_iff {tok' : ConsumerToken} {a : Option α} (h : Metered tr home w ls)
    (ht : w.consumerTokens t = some tok) (hcall : w.tryDequeueToken tr (home t) tok = some (a, tok', w')) :
    (consumptionQuota ≤ tok'.itemsConsumed →
      tok'.lastKnownGlobalOffset ≠ (w'.queues (home t)).globalExplicitConsumerOffset) ↔
    KeepsQuota tr w (.tryDequeueToken (home t) t) := by
  rcases (h.counted.tryDequeueToken h.homed.listed (h.homed.tokens t tok ht) hcall).2 with
    ⟨rfl, hrefresh⟩ | ⟨tok₁, p, hrefreshed, hlast, -, hcases⟩
  · obtain ⟨hbelow, hnone⟩ := h.below_of_idle ht hrefresh
    refine iff_of_true (fun hquota => absurd hquota hbelow) ?_
    intro tok tok₁ p ps ht' hrefreshed
    obtain rfl := Option.some.inj (ht.symm.trans ht')
    exact absurd hrefreshed (hnone tok₁ p)
  · -- what is asked of the call, for the producer the token has
    have hkeeps : KeepsQuota tr w (.tryDequeueToken (home t) t) ↔
        if 0 < w.producerSize tr p then Word.add tr.w tok₁.itemsConsumed 1 ≤ consumptionQuota
        else tok₁.itemsConsumed < consumptionQuota ∨
          ∃ n ∈ othersAfter p (ls (home t)), w.producerSize tr n ≠ 0 := by
      constructor
      · exact fun hall => hall tok tok₁ p _ ht hrefreshed (h.homed.listed.producerList _)
      · intro hthis tok' tok₂ p' ps ht' hrefreshed' hlist
        obtain rfl := Option.some.inj (ht.symm.trans ht')
        obtain ⟨rfl, rfl⟩ := hrefreshed.unique hrefreshed'
        obtain rfl := Option.some.inj ((h.homed.listed.producerList _).symm.trans hlist)
        exact hthis
    rw [hkeeps, hlast]
    rcases hcases with ⟨hpos, hitems, hoffset⟩ | ⟨hzero, hoffset, hothers⟩
    · rw [if_pos hpos, hoffset, ← hitems]
      by_cases hquota : tok'.itemsConsumed = consumptionQuota
      · rw [if_pos hquota]
        exact iff_of_true (fun _ => add_one_ne _) hquota.le
      · rw [if_neg hquota]
        constructor
        · exact fun hrotated => Nat.le_of_not_le fun hge => hrotated hge rfl
        · exact fun hle hge => absurd (Nat.le_antisymm hle hge) hquota
    · rw [hzero, if_neg (Nat.lt_irrefl 0), hoffset]
      rcases hothers with ⟨hall, hitems⟩ | ⟨hsome, hitems⟩
      · rw [hitems]
        constructor
        · exact fun hrotated => Or.inl (Nat.lt_of_not_le fun hge => hrotated hge rfl)
        · rintro (hlt | ⟨n, hn, hpos⟩) hge
          · exact absurd hge (Nat.not_le_of_lt hlt)
          · exact absurd (hall n hn) hpos
      · rw [hitems]
        exact iff_of_true (fun hge => absurd hge (by decide)) (Or.inr hsome)

/-- **Bulk dequeues.** -/
theorem tryDequeueBulkToken_iff {maxCount : ℕ} {tok' : ConsumerToken} {as : List α} (h : Metered tr home w ls)
    (ht : w.consumerTokens t = some tok)
    (hcall : w.tryDequeueBulkToken tr (home t) maxCount tok = some (as, tok', w')) :
    (consumptionQuota ≤ tok'.itemsConsumed →
      tok'.lastKnownGlobalOffset ≠ (w'.queues (home t)).globalExplicitConsumerOffset) ↔
    KeepsQuota tr w (.tryDequeueBulkToken (home t) t maxCount) := by
  rcases (h.counted.tryDequeueBulkToken h.homed.listed (h.homed.tokens t tok ht) hcall).2 with
    ⟨rfl, hrefresh⟩ | ⟨tok₁, p, hrefreshed, hlast, -, hcases⟩
  · obtain ⟨hbelow, hnone⟩ := h.below_of_idle ht hrefresh
    refine iff_of_true (fun hquota => absurd hquota hbelow) ?_
    intro tok tok₁ p ps ht' hrefreshed
    obtain rfl := Option.some.inj (ht.symm.trans ht')
    exact absurd hrefreshed (hnone tok₁ p)
  · have hkeeps : KeepsQuota tr w (.tryDequeueBulkToken (home t) t maxCount) ↔
        maxCount ≤ w.producerSize tr p ∨
          lastBatch ((othersAfter p (ls (home t))).map (w.producerSize tr)) (maxCount - w.producerSize tr p)
            (Word.add tr.w tok₁.itemsConsumed (w.producerSize tr p)) < consumptionQuota := by
      constructor
      · exact fun hall => hall tok tok₁ p _ ht hrefreshed (h.homed.listed.producerList _)
      · intro hthis tok' tok₂ p' ps ht' hrefreshed' hlist
        obtain rfl := Option.some.inj (ht.symm.trans ht')
        obtain ⟨rfl, rfl⟩ := hrefreshed.unique hrefreshed'
        obtain rfl := Option.some.inj ((h.homed.listed.producerList _).symm.trans hlist)
        exact hthis
    rw [hkeeps, hlast]
    rcases hcases with ⟨hfull, -, hoffset⟩ | ⟨hpart, hoffset, hitems⟩
    · refine iff_of_true (fun hquota => ?_) (Or.inl hfull)
      rw [hoffset, if_pos (Or.inl hquota)]
      exact add_one_ne _
    · rw [hoffset, ← hitems]
      constructor
      · exact fun hrotated => Or.inr (Nat.lt_of_not_le fun hge => hrotated hge rfl)
      · rintro (hfull | hlt) hge
        · exact absurd hpart (Nat.not_lt_of_le hfull)
        · exact absurd hge (Nat.not_le_of_lt hlt)

/-- **One call.** -/
theorem rotates_iff [DecidableEq K] {op : Op K α} {r : Reply α} (h : Metered tr home w ls) (hop : op.AtHome home)
    (hexec : w.exec tr op = some (r, w')) : Rotates tr w op ↔ KeepsQuota tr w op := by
  cases op with
  | tryDequeueToken q t =>
      obtain rfl : q = home t := hop
      have hexec' := hexec
      obtain ⟨tok, ht, hexec'⟩ := Option.bind_eq_some_iff.mp hexec'
      obtain ⟨⟨a, tok', w₁⟩, hdeq, heq⟩ := Option.bind_eq_some_iff.mp hexec'
      obtain ⟨rfl, rfl⟩ := Prod.mk.inj (Option.some.inj heq)
      have htok : (w₁.setConsumerToken t tok').consumerTokens t = some tok' := Function.update_self _ _ _
      refine Iff.trans ⟨fun hrotates => ?_, ?_⟩ (h.tryDequeueToken_iff ht hdeq)
      · exact hrotates _ _ hexec tok' htok
      · intro hthis r' w' hexec' tok'' htok''
        obtain ⟨rfl, rfl⟩ := Prod.mk.inj (Option.some.inj (hexec.symm.trans hexec'))
        obtain rfl := Option.some.inj (htok.symm.trans htok'')
        exact hthis
  | tryDequeueBulkToken q t maxCount =>
      obtain rfl : q = home t := hop
      have hexec' := hexec
      obtain ⟨tok, ht, hexec'⟩ := Option.bind_eq_some_iff.mp hexec'
      obtain ⟨⟨as, tok', w₁⟩, hdeq, heq⟩ := Option.bind_eq_some_iff.mp hexec'
      obtain ⟨rfl, rfl⟩ := Prod.mk.inj (Option.some.inj heq)
      have htok : (w₁.setConsumerToken t tok').consumerTokens t = some tok' := Function.update_self _ _ _
      refine Iff.trans ⟨fun hrotates => ?_, ?_⟩ (h.tryDequeueBulkToken_iff ht hdeq)
      · exact hrotates _ _ hexec tok' htok
      · intro hthis r' w' hexec' tok'' htok''
        obtain ⟨rfl, rfl⟩ := Prod.mk.inj (Option.some.inj (hexec.symm.trans hexec'))
        obtain rfl := Option.some.inj (htok.symm.trans htok'')
        exact hthis
  | _ => exact iff_of_true (fun _ _ _ => trivial) trivial

end Metered

/-! ## Runs -/

/-- **Run.** The tokens of a queue rotate after every call of a run, of any calls that use each token with its own
    queue, if and only if each of the calls keeps the quota. -/
theorem rotates_along_iff [DecidableEq K] (tr : Traits K) (pools : ℕ → ℕ × ℕ) (home : ℕ → ℕ) (ops : List (Op K α))
    (rs : List (Reply α)) (w : World K α) (hops : ∀ op ∈ ops, op.AtHome home)
    (hrun : (fresh tr pools).run tr ops = some (rs, w)) :
    Along (exec tr) (Rotates tr) ops (fresh tr pools) ↔ Along (exec tr) (KeepsQuota tr) ops (fresh tr pools) := by
  have hall : ∀ {w₀ : World K α} {ls rs}, Metered tr home w₀ ls → w₀.run tr ops = some (rs, w) →
      (Along (exec tr) (Rotates tr) ops w₀ ↔ Along (exec tr) (KeepsQuota tr) ops w₀) := by
    clear hrun
    induction ops with
    | nil => exact fun _ _ => Iff.rfl
    | cons op ops ih =>
        intro w₀ ls rs hmetered hrun
        obtain ⟨⟨r, w₁⟩, hexec, hcalls⟩ := Option.bind_eq_some_iff.mp hrun
        obtain ⟨⟨rs₁, w₂⟩, hrest, heq⟩ := Option.bind_eq_some_iff.mp hcalls
        obtain ⟨-, rfl⟩ := Prod.mk.inj (Option.some.inj heq)
        have hop := hops op List.mem_cons_self
        obtain ⟨ls₁, hmetered₁⟩ := hmetered.exec hop hexec
        refine and_congr (hmetered.rotates_iff hop hexec) (forall_congr' fun r' => forall_congr' fun w' =>
          imp_congr_right fun hexec' => ?_)
        obtain ⟨-, rfl⟩ := Prod.mk.inj (Option.some.inj (hexec.symm.trans hexec'))
        exact ih (fun op hop => hops op (List.mem_cons_of_mem _ hop)) hmetered₁ hrest
  exact hall (.fresh tr pools home) hrun

/-- A queue with some elements, and a token that asks for `maxCount`. -/
def askFor (items : List (Option ℕ)) (maxCount : ℕ) : List (Op ℕ ℕ) :=
  [.getProducerToken 0 0, .enqueueBulkWithToken 0 .canAlloc items [], .getConsumerToken 0 0] ++
    [.tryDequeueBulkToken 0 0 maxCount]

theorem askFor_atHome (items : List (Option ℕ)) (maxCount : ℕ) :
    ∀ op ∈ askFor items maxCount, op.AtHome fun _ => 0 := by
  simp [askFor, Op.AtHome]

/-- A whole batch of 256 reaches the quota. -/
theorem rotates_along_iff_quota : ∃ rs w tok,
    (fresh .small fun _ => (2, 2)).run .small (askFor (List.replicate 256 (some 1)) 256) = some (rs, w) ∧
    w.consumerTokens 0 = some tok ∧ tok.itemsConsumed = consumptionQuota ∧
    (Along (exec .small) (Rotates .small) (askFor (List.replicate 256 (some 1)) 256) (fresh .small fun _ => (2, 2)) ↔
      Along (exec .small) (KeepsQuota .small) (askFor (List.replicate 256 (some 1)) 256)
        (fresh .small fun _ => (2, 2))) := by
  have hend : (((fresh .small fun _ => (2, 2)).run .small (askFor (List.replicate 256 (some 1)) 256)).bind fun x =>
      (x.2.consumerTokens 0).map fun tok => tok.itemsConsumed) = some consumptionQuota := by
    decide +kernel
  obtain ⟨⟨rs, w⟩, hrun, htokens⟩ := Option.bind_eq_some_iff.mp hend
  obtain ⟨tok, htok, hitems⟩ := Option.map_eq_some_iff.mp htokens
  exact ⟨rs, w, tok, hrun, htok, hitems,
    rotates_along_iff .small (fun _ => (2, 2)) (fun _ => 0) _ rs w (askFor_atHome _ _) hrun⟩

/-- The last call of a run. -/
theorem rotates_last [DecidableEq K] {ops : List (Op K α)} {op : Op K α} {rs : List (Reply α)}
    (hall : Along (exec tr) (Rotates tr) (ops ++ [op]) w) (hrun : w.run tr (ops ++ [op]) = some (rs, w')) :
    ∃ r w₁, w₁.exec tr op = some (r, w') ∧ Rotates tr w₁ op := by
  induction ops generalizing w rs with
  | nil =>
      obtain ⟨⟨r, w₁⟩, hexec, hrun⟩ := Option.bind_eq_some_iff.mp hrun
      obtain ⟨-, rfl⟩ := Prod.mk.inj (Option.some.inj hrun)
      exact ⟨r, w, hexec, hall.1⟩
  | cons op' ops ih =>
      obtain ⟨⟨r, w₁⟩, hexec, hcalls⟩ := Option.bind_eq_some_iff.mp hrun
      obtain ⟨⟨rs₁, w₂⟩, hrest, heq⟩ := Option.bind_eq_some_iff.mp hcalls
      obtain ⟨-, rfl⟩ := Prod.mk.inj (Option.some.inj heq)
      exact ih (hall.2 r w₁ hexec) hrest

/-- A batch of 256 that is one short of what was asked for reaches the quota and does not rotate. -/
theorem not_rotates_along : ¬ ∀ (tr : Traits ℕ) (pools : ℕ → ℕ × ℕ) (home : ℕ → ℕ) (ops : List (Op ℕ ℕ))
    (rs : List (Reply ℕ)) (w : World ℕ ℕ), (∀ op ∈ ops, op.AtHome home) →
    (fresh tr pools).run tr ops = some (rs, w) → Along (exec tr) (Rotates tr) ops (fresh tr pools) := by
  intro h
  have hend : (((fresh .small fun _ => (2, 2)).run .small (askFor (List.replicate 256 (some 1)) 257)).bind fun x =>
      (x.2.consumerTokens 0).map fun tok => (tok.itemsConsumed, tok.lastKnownGlobalOffset,
        (x.2.queues 0).globalExplicitConsumerOffset)) = some (256, 0, 0) := by
    decide +kernel
  obtain ⟨⟨rs, w⟩, hrun, htokens⟩ := Option.bind_eq_some_iff.mp hend
  obtain ⟨tok, htok, htokens⟩ := Option.map_eq_some_iff.mp htokens
  simp only [Prod.mk.injEq] at htokens
  obtain ⟨hitems, hlast, hoffset⟩ := htokens
  have hall := h .small (fun _ => (2, 2)) (fun _ => 0) _ rs w (askFor_atHome _ _) hrun
  obtain ⟨r, w₁, hexec, hrotates⟩ := rotates_last hall hrun
  exact hrotates r w hexec tok htok hitems.ge (hlast.trans hoffset.symm)

end World

end ConcurrentQueue

end LockFreeStructures
