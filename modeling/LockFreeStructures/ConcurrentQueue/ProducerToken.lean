import LockFreeStructures.ConcurrentQueue.Consume
import LockFreeStructures.Lib.Transition

/-!
# `ConcurrentQueue.ProducerToken` — who holds which explicit producer

`Owned` says that no two tokens hold one node and that exactly the nodes nobody holds are inactive; every call
keeps it (`Owned.effect`), moves and swaps included. `swap` however leaves both tokens as they are, so a call of
it, or of the move assignment, transfers nothing unless there is nothing to transfer.
-/

namespace LockFreeStructures

namespace ConcurrentQueue

namespace World

variable {K α : Type} {tr : Traits K} {w w' : World K α} {S : Set ℕ} {p q t t' : ℕ} {ls : ℕ → List ℕ}

/-- **Ownership.** An explicit node is held by one token or inactive. -/
structure Owned (w : World K α) : Prop where
  explicit : ∀ t p, w.tokenNode t = some p → p < w.nodeCount ∧ (w.nodes p).producer.type = .explicit
  unique : ∀ t t' p, w.tokenNode t = some p → w.tokenNode t' = some p → t = t'
  inactive : ∀ p < w.nodeCount, (w.nodes p).producer.type = .explicit →
    ((w.nodes p).inactive = true ↔ ∀ t, w.tokenNode t ≠ some p)

/-! ## The node of a token -/

theorem tokenNode_eq {tok : ProducerToken} (h : w.producerTokens t = some tok) : w.tokenNode t = tok.producerNode := by
  rw [tokenNode, h, Option.bind_some]

theorem tokenNode_eq_none (h : w.producerTokens t = none) : w.tokenNode t = none := by
  rw [tokenNode, h, Option.bind_none]

theorem tokenNode_congr (h : w'.producerTokens = w.producerTokens) (t : ℕ) : w'.tokenNode t = w.tokenNode t := by
  rw [tokenNode, h, tokenNode]

@[simp] theorem tokenNode_setProducerToken_self (t : ℕ) (tok : Option ProducerToken) (w : World K α) :
    (w.setProducerToken t tok).tokenNode t = tok.bind (·.producerNode) := by
  simp only [tokenNode, setProducerToken, Function.update_self]

theorem tokenNode_setProducerToken_of_ne (h : t' ≠ t) (tok : Option ProducerToken) :
    (w.setProducerToken t tok).tokenNode t' = w.tokenNode t' := by
  simp only [tokenNode, setProducerToken, Function.update_of_ne h]

/-! ## Ownership through a call -/

namespace Owned

theorem fresh (tr : Traits K) (pools : ℕ → ℕ × ℕ) : Owned (World.fresh tr pools : World K α) :=
  ⟨fun _ _ h => absurd h nofun, fun _ _ _ h => absurd h nofun, fun p hp => absurd hp (Nat.not_lt_zero p)⟩

/-- What ownership is about stays the same, except for nodes that are implicit. -/
theorem congr (h : Owned w) (htype : ∀ p < w.nodeCount, (w'.nodes p).producer.type = (w.nodes p).producer.type)
    (hinactive : ∀ p < w.nodeCount, (w.nodes p).producer.type = .explicit →
      (w'.nodes p).inactive = (w.nodes p).inactive)
    (hle : w.nodeCount ≤ w'.nodeCount)
    (hnew : ∀ p < w'.nodeCount, w.nodeCount ≤ p → (w'.nodes p).producer.type = .implicit)
    (htokens : w'.producerTokens = w.producerTokens) : Owned w' := by
  have hnode := tokenNode_congr htokens
  refine ⟨fun t p ht => ?_, fun t t' p ht ht' => ?_, fun p hp hexp => ?_⟩
  · rw [hnode] at ht
    obtain ⟨hlt, hexp⟩ := h.explicit t p ht
    exact ⟨Nat.lt_of_lt_of_le hlt hle, (htype p hlt).trans hexp⟩
  · rw [hnode] at ht ht'
    exact h.unique t t' p ht ht'
  · by_cases hlt : p < w.nodeCount
    · rw [htype p hlt] at hexp
      rw [hinactive p hlt hexp, h.inactive p hlt hexp]
      simp only [hnode]
    · rw [hnew p hp (Nat.le_of_not_lt hlt)] at hexp
      exact absurd hexp nofun

theorem frame (h : Owned w) (hframe : Frame S w w') : Owned w' :=
  h.congr (fun p _ => hframe.type p) (fun p _ _ => hframe.inactive p) hframe.nodeCount.ge
    (fun p hp hle => absurd hp (by rw [hframe.nodeCount]; exact Nat.not_lt_of_le hle)) hframe.producerTokens

/-- Nothing that ownership is about is changed. -/
theorem of_eq (h : Owned w) (hnodes : w'.nodes = w.nodes) (hcount : w'.nodeCount = w.nodeCount)
    (htokens : w'.producerTokens = w.producerTokens) : Owned w' :=
  h.congr (fun p _ => by rw [hnodes]) (fun p _ _ => by rw [hnodes]) hcount.ge
    (fun p hp hle => absurd hp (by rw [hcount]; exact Nat.not_lt_of_le hle)) htokens

theorem setImplicitMap (h : Owned w) (q : ℕ) (t : HashTable K ℕ) :
    Owned (w.modifyQueue q fun c => { c with implicitMap := t }) :=
  h.of_eq rfl rfl rfl

/-- Who holds node `p` changes, and with it whether it is inactive; the node may be a new one. -/
theorem change (h : Owned w) (p : ℕ) (hcount : ∀ p' ≠ p, p' < w'.nodeCount ↔ p' < w.nodeCount)
    (hnode : ∀ p' ≠ p, (w'.nodes p').producer.type = (w.nodes p').producer.type ∧
      (w'.nodes p').inactive = (w.nodes p').inactive)
    (htok : ∀ p' ≠ p, ∀ t, w'.tokenNode t = some p' ↔ w.tokenNode t = some p')
    (hp : p < w'.nodeCount ∧ (w'.nodes p).producer.type = .explicit)
    (hone : ∀ t t', w'.tokenNode t = some p → w'.tokenNode t' = some p → t = t')
    (hfree : (w'.nodes p).inactive = true ↔ ∀ t, w'.tokenNode t ≠ some p) : Owned w' := by
  refine ⟨fun t p' ht => ?_, fun t t' p' ht ht' => ?_, fun p' hlt hexp => ?_⟩
  · by_cases hpp : p' = p
    · subst hpp
      exact hp
    · rw [hcount p' hpp, (hnode p' hpp).1]
      exact h.explicit t p' ((htok p' hpp t).mp ht)
  · by_cases hpp : p' = p
    · subst hpp
      exact hone t t' ht ht'
    · exact h.unique t t' p' ((htok p' hpp t).mp ht) ((htok p' hpp t').mp ht')
  · by_cases hpp : p' = p
    · subst hpp
      exact hfree
    · rw [hcount p' hpp] at hlt
      rw [(hnode p' hpp).1] at hexp
      rw [(hnode p' hpp).2, h.inactive p' hlt hexp]
      exact forall_congr' fun t => not_congr (htok p' hpp t).symm

/-- A new token holds a node that nobody held. -/
theorem hold (h : Owned w) (hcount : ∀ p' ≠ p, p' < w'.nodeCount ↔ p' < w.nodeCount)
    (hnode : ∀ p' ≠ p, w'.nodes p' = w.nodes p') (htokens : w'.producerTokens = w.producerTokens)
    (hp : p < w'.nodeCount ∧ (w'.nodes p).producer.type = .explicit) (hinactive : (w'.nodes p).inactive = false)
    (hfree : ∀ t, w.tokenNode t ≠ some p) (ht : w.producerTokens t = none) :
    Owned (w'.setProducerToken t (some ⟨some p⟩)) := by
  have htok : ∀ t' p', (w'.setProducerToken t (some ⟨some p⟩)).tokenNode t' = some p' ↔
      t' = t ∧ p' = p ∨ w.tokenNode t' = some p' := by
    intro t' p'
    by_cases heq : t' = t
    · subst heq
      rw [tokenNode_setProducerToken_self, tokenNode_eq_none ht]
      simp [eq_comm]
    · rw [tokenNode_setProducerToken_of_ne heq, tokenNode_congr htokens]
      simp [heq]
  refine h.change p hcount (fun p' hpp => ?_) (fun p' hpp t' => ?_) hp (fun t₁ t₂ h₁ h₂ => ?_) ?_
  · rw [show (w'.setProducerToken t (some ⟨some p⟩)).nodes p' = w.nodes p' from hnode p' hpp]
    exact ⟨rfl, rfl⟩
  · rw [htok]
    simp [hpp]
  · have hself : ∀ t', _ → t' = t := fun t' h' => ((htok t' p).mp h').elim (·.1) fun h' => absurd h' (hfree t')
    rw [hself t₁ h₁, hself t₂ h₂]
  · have hactive : ((w'.setProducerToken t (some ⟨some p⟩)).nodes p).inactive = false := hinactive
    refine iff_of_false (by rw [hactive]; exact Bool.false_ne_true) fun hnone => ?_
    exact hnone t ((htok t p).mpr (Or.inl ⟨rfl, rfl⟩))

theorem type_setInactive (p p' : ℕ) (b : Bool) (w : World K α) :
    ((w.modifyNode p fun n => { n with inactive := b }).nodes p').producer.type = (w.nodes p').producer.type := by
  by_cases hp : p' = p
  · subst hp
    simp only [modifyNode, Function.update_self]
  · simp only [modifyNode, Function.update_of_ne hp]

/-- A token lets its node go. -/
theorem release (h : Owned w) (ht : w.producerTokens t = some ⟨some p⟩) :
    Owned ((w.modifyNode p fun n => { n with inactive := true }).setProducerToken t none) := by
  have hheld : w.tokenNode t = some p := tokenNode_eq ht
  have htok : ∀ t' p', ((w.modifyNode p fun n => { n with inactive := true }).setProducerToken t none).tokenNode t'
      = some p' ↔ t' ≠ t ∧ w.tokenNode t' = some p' := by
    intro t' p'
    by_cases heq : t' = t
    · subst heq
      simp
    · rw [tokenNode_setProducerToken_of_ne heq]
      simp [heq, tokenNode, modifyNode]
  have hp := h.explicit t p hheld
  refine h.change p (fun _ _ => Iff.rfl) (fun p' hpp => ?_) (fun p' hpp t' => ?_)
    ⟨hp.1, (type_setInactive p p true w).trans hp.2⟩ (fun t₁ t₂ h₁ h₂ => ?_) ?_
  · simp only [modifyNode, setProducerToken, Function.update_of_ne hpp, and_self]
  · rw [htok, and_iff_right_of_imp]
    rintro h' rfl
    exact hpp (Option.some.inj (h'.symm.trans hheld))
  · exact h.unique t₁ t₂ p ((htok t₁ p).mp h₁).2 ((htok t₂ p).mp h₂).2
  · refine iff_of_true (by simp [modifyNode, setProducerToken]) fun t' h' => ?_
    obtain ⟨hne, h'⟩ := (htok t' p).mp h'
    exact hne (h.unique t' t p h' hheld)

/-- Tokens trade their nodes. -/
theorem rename (h : Owned w) (σ : Equiv.Perm ℕ) (hnodes : w'.nodes = w.nodes) (hcount : w'.nodeCount = w.nodeCount)
    (htok : ∀ t, w'.tokenNode t = w.tokenNode (σ t)) : Owned w' := by
  refine ⟨fun t p ht => ?_, fun t t' p ht ht' => ?_, fun p hlt hexp => ?_⟩
  · rw [htok] at ht
    rw [hnodes, hcount]
    exact h.explicit (σ t) p ht
  · rw [htok] at ht ht'
    exact σ.injective (h.unique (σ t) (σ t') p ht ht')
  · rw [hcount] at hlt
    rw [hnodes] at hexp
    rw [hnodes, h.inactive p hlt hexp]
    simp only [htok]
    exact (σ.forall_congr_right (q := fun t => w.tokenNode t ≠ some p)).symm

/-- A new token takes over the node of another one. -/
theorem move (h : Owned w) {b : ProducerToken} (ht' : w.producerTokens t' = some b)
    (ht : w.producerTokens t = none) :
    Owned ((w.setProducerToken t' (some ⟨none⟩)).setProducerToken t (some b)) := by
  refine h.rename (Equiv.swap t t') rfl rfl fun t'' => ?_
  by_cases heq : t'' = t
  · subst heq
    rw [tokenNode_setProducerToken_self, Equiv.swap_apply_left, tokenNode_eq ht', Option.bind_some]
  · rw [tokenNode_setProducerToken_of_ne heq]
    by_cases heq' : t'' = t'
    · subst heq'
      rw [tokenNode_setProducerToken_self, Equiv.swap_apply_right, tokenNode_eq_none ht, Option.bind_some]
    · rw [tokenNode_setProducerToken_of_ne heq', Equiv.swap_apply_of_ne_of_ne heq heq']

/-- A token that holds no node goes. -/
theorem discard (h : Owned w) (ht : w.producerTokens t = some ⟨none⟩) : Owned (w.setProducerToken t none) := by
  refine h.rename (Equiv.refl ℕ) rfl rfl fun t' => ?_
  by_cases heq : t' = t
  · subst heq
    rw [tokenNode_setProducerToken_self, Equiv.refl_apply, tokenNode_eq ht, Option.bind_none]
  · rw [tokenNode_setProducerToken_of_ne heq, Equiv.refl_apply]

/-- A new implicit producer is nobody's, and reusing one changes nothing. -/
theorem getImplicit (h : Owned w) (hlisted : Listed w ls)
    (hget : w.getProducerListNode tr q .implicit = some (p, w')) : Owned w' := by
  rcases getProducerListNode_cases hlisted hget with ⟨-, -, htype, rfl⟩ | ⟨-, rfl, producer, htype, rfl⟩
  · refine h.congr (fun p' _ => type_setInactive p p' false w) (fun p' _ hexp => ?_) (Nat.le_refl _)
      (fun p' hlt hle => absurd hlt (Nat.not_lt_of_le hle)) rfl
    have hpp : p' ≠ p := by
      rintro rfl
      exact absurd (hexp.symm.trans htype) nofun
    simp only [modifyNode, Function.update_of_ne hpp]
  · refine h.congr (fun p' hlt => ?_) (fun p' hlt _ => ?_) (Nat.le_succ _) (fun p' hlt hle => ?_) rfl
    · simp only [push, Function.update_of_ne (Nat.ne_of_lt hlt)]
    · simp only [push, Function.update_of_ne (Nat.ne_of_lt hlt)]
    · obtain rfl : p' = w.nodeCount := Nat.le_antisymm (Nat.le_of_lt_succ hlt) hle
      simpa only [push, Function.update_self] using htype

/-- A new token gets a node nobody holds. -/
theorem getExplicit (h : Owned w) (hlisted : Listed w ls)
    (hget : w.getProducerListNode tr q .explicit = some (p, w')) (ht : w'.producerTokens t = none) :
    Owned (w'.setProducerToken t (some ⟨some p⟩)) := by
  rcases getProducerListNode_cases hlisted hget with ⟨hmem, hinactive, htype, rfl⟩ | ⟨-, rfl, producer, htype, rfl⟩
  · have hlt := ((hlisted.mem q p).mp hmem).1
    refine h.hold (fun _ _ => Iff.rfl) (fun p' hpp => ?_) rfl ⟨hlt, (type_setInactive p p false w).trans htype⟩ ?_
      ((h.inactive p hlt htype).mp hinactive) ht
    · simp only [modifyNode, Function.update_of_ne hpp]
    · simp only [modifyNode, Function.update_self]
  · have hnew : ∀ t', w.tokenNode t' ≠ some w.nodeCount := fun t' h' =>
      absurd (h.explicit t' _ h').1 (Nat.lt_irrefl _)
    refine h.hold (fun p' hpp => ?_) (fun p' hpp => ?_) rfl ⟨Nat.lt_succ_self _, ?_⟩ ?_ hnew ht
    · show p' < w.nodeCount + 1 ↔ _
      omega
    · simp only [push, Function.update_of_ne hpp]
    · simpa only [push, Function.update_self] using htype
    · simp only [push, Function.update_self]

/-- **Step.** -/
theorem effect [DecidableEq K] {op : Op K α} (h : Owned w) (hlisted : Listed w ls) (heffect : Effect tr op w w') :
    Owned w' := by
  have hconsume : ∀ {q t tok' w₁} {w₂ : World K α}, Frame Set.univ w w₁ → w₂ = w₁ ∨ w₂ = w₁.rotate q →
      Owned (w₂.setConsumerToken t tok') := by
    rintro q t tok' w₁ w₂ hframe (rfl | rfl)
    · exact (h.frame hframe).of_eq rfl rfl rfl
    · exact (h.frame hframe).of_eq rfl rfl rfl
  cases heffect with
  | getProducerToken hget ht => exact h.getExplicit hlisted hget ht
  | moveProducerToken ht' hne ht => exact h.move ht' ht
  | destroyInvalid ht => exact h.discard ht
  | destroyValid ht => exact h.release ht
  | getConsumerToken ht => exact h.of_eq rfl rfl rfl
  | moveConsumerToken ht' ht => exact h.of_eq rfl rfl rfl
  | swapConsumerTokens op hop ht ht' hne => exact h.of_eq rfl rfl rfl
  | enqueue op hget hframe =>
      obtain ⟨t, w₁, rfl, rfl | ⟨t', w₂, hnode, rfl⟩⟩ := getOrAddImplicitProducer_cases hget
      · exact (h.setImplicitMap _ t).frame hframe
      · have h₁ := (h.setImplicitMap _ t).getImplicit (hlisted.setImplicitMap _ t) hnode
        exact (h₁.setImplicitMap _ t').frame hframe
  | tryDequeueToken ht hdeq =>
      obtain ⟨-, -, w₁, hframe, hw⟩ := tryDequeueToken_cases (.univ _ _) (.univ _) hdeq
      exact hconsume hframe hw
  | tryDequeueBulkToken ht hdeq =>
      obtain ⟨-, -, w₁, hframe, hw⟩ := tryDequeueBulkToken_cases (.univ _ _) (.univ _) hdeq
      exact hconsume hframe hw
  | call op hframe => exact h.frame hframe

end Owned

/-! ## What transfers are meant to do -/

/-- **What a call on producer tokens is meant to do**: a swap exchanges the nodes of the two tokens, a move
    hands one over, and what is then enqueued with the token goes to the producer that was handed over. -/
def Transfers [DecidableEq K] (tr : Traits K) (w w' : World K α) : Op K α → Prop
  | .swapProducerTokens t t' => w'.tokenNode t = w.tokenNode t' ∧ w'.tokenNode t' = w.tokenNode t
  | .assignProducerToken t t' => w'.tokenNode t = w.tokenNode t' ∧ ∀ p, w.tokenNode t' = some p →
      ∀ item allocs, w'.exec tr (.enqueueWithToken t item allocs)
        = (w'.producerEnqueue tr p .canAlloc item allocs).map fun (o, w) => (.enqueued o, w)
  | .moveProducerToken t t' => w'.tokenNode t = w.tokenNode t' ∧ w'.tokenNode t' = none
  | _ => True

/-- The call leaves every node with one owner and does what it is meant to do. -/
def Transferred [DecidableEq K] (tr : Traits K) (w : World K α) (op : Op K α) : Prop :=
  ∀ r w', w.exec tr op = some (r, w') → Owned w' ∧ Transfers tr w w' op

/-- A swap or a move assignment is of two tokens that hold the same: the same node as they are the same token,
    or none. -/
def SameNode (w : World K α) (op : Op K α) : Prop :=
  ∀ t t' a b, op = .swapProducerTokens t t' ∨ op = .assignProducerToken t t' → w.producerTokens t = some a →
    w.producerTokens t' = some b → a.producerNode = b.producerNode

/-- A swap changes nothing. -/
theorem swapProducerTokens_eq_some_iff {r : Reply α} : w.swapProducerTokens t t' = some (r, w') ↔
    r = .done ∧ w' = w ∧ ∃ a b, w.producerTokens t = some a ∧ w.producerTokens t' = some b := by
  constructor
  · intro h
    obtain ⟨a, ht, h⟩ := Option.bind_eq_some_iff.mp h
    obtain ⟨b, ht', h⟩ := Option.bind_eq_some_iff.mp h
    obtain ⟨rfl, rfl⟩ := Prod.mk.inj (Option.some.inj h)
    exact ⟨rfl, by rw [setProducerToken_self ht', setProducerToken_self ht], a, b, ht, ht'⟩
  · rintro ⟨rfl, rfl, a, b, ht, ht'⟩
    refine Option.bind_eq_some_iff.mpr ⟨a, ht, Option.bind_eq_some_iff.mpr ⟨b, ht', ?_⟩⟩
    show some (Reply.done, (w'.setProducerToken t' (some b)).setProducerToken t (some a)) = _
    rw [setProducerToken_self ht', setProducerToken_self ht]

theorem exec_enqueueWithToken [DecidableEq K] (h : w.tokenNode t = some p) (item : Option α) (allocs : List Bool) :
    w.exec tr (.enqueueWithToken t item allocs)
      = (w.producerEnqueue tr p .canAlloc item allocs).map fun (o, w) => (.enqueued o, w) := by
  rw [exec, h, Option.bind_eq_bind, Option.bind_some]
  cases w.producerEnqueue tr p .canAlloc item allocs with
  | none => rfl
  | some r => rfl

/-- **Step.** A call does what it is meant to do unless it is to exchange two different nodes. -/
theorem Owned.transferred_iff [DecidableEq K] (h : Owned w) (hlisted : Listed w ls) (op : Op K α) :
    Transferred tr w op ↔ SameNode w op := by
  have howned : ∀ r w', w.exec tr op = some (r, w') → Owned w' := fun r w' hexec =>
    h.effect hlisted (exec_effect hexec)
  -- a call of another kind
  have hother : (∀ t t', op ≠ .swapProducerTokens t t' ∧ op ≠ .assignProducerToken t t') →
      (∀ r w', w.exec tr op = some (r, w') → Transfers tr w w' op) → (Transferred tr w op ↔ SameNode w op) := by
    intro hne htransfers
    refine iff_of_true (fun r w' hexec => ⟨howned r w' hexec, htransfers r w' hexec⟩) fun t t' a b hop => ?_
    exact hop.elim (fun heq => absurd heq (hne t t').1) fun heq => absurd heq (hne t t').2
  cases op with
  | swapProducerTokens t t' =>
      constructor
      · rintro htransferred t₁ t₂ a b (heq | heq) ht ht'
        · obtain ⟨rfl, rfl⟩ := Op.swapProducerTokens.inj heq
          have hlaw := (htransferred .done w (swapProducerTokens_eq_some_iff.mpr ⟨rfl, rfl, a, b, ht, ht'⟩)).2
          rw [← tokenNode_eq ht, ← tokenNode_eq ht']
          exact hlaw.1
        · exact absurd heq (by rintro ⟨⟩)
      · intro hsame r w' hexec
        refine ⟨howned r w' hexec, ?_⟩
        obtain ⟨-, rfl, a, b, ht, ht'⟩ := swapProducerTokens_eq_some_iff.mp hexec
        have hnode := hsame t t' a b (Or.inl rfl) ht ht'
        rw [← tokenNode_eq ht, ← tokenNode_eq ht'] at hnode
        exact ⟨hnode, hnode.symm⟩
  | assignProducerToken t t' =>
      constructor
      · rintro htransferred t₁ t₂ a b (heq | heq) ht ht'
        · exact absurd heq (by rintro ⟨⟩)
        · obtain ⟨rfl, rfl⟩ := Op.assignProducerToken.inj heq
          have hlaw := (htransferred .done w (swapProducerTokens_eq_some_iff.mpr ⟨rfl, rfl, a, b, ht, ht'⟩)).2
          rw [← tokenNode_eq ht, ← tokenNode_eq ht']
          exact hlaw.1
      · intro hsame r w' hexec
        refine ⟨howned r w' hexec, ?_⟩
        obtain ⟨-, rfl, a, b, ht, ht'⟩ := swapProducerTokens_eq_some_iff.mp hexec
        have hnode := hsame t t' a b (Or.inr rfl) ht ht'
        rw [← tokenNode_eq ht, ← tokenNode_eq ht'] at hnode
        exact ⟨hnode, fun p hp item allocs => exec_enqueueWithToken (hnode.trans hp) item allocs⟩
  | moveProducerToken t t' =>
      refine hother (fun _ _ => ⟨(by rintro ⟨⟩), by rintro ⟨⟩⟩) fun r w' hexec => ?_
      obtain ⟨b, ht', h⟩ := Option.bind_eq_some_iff.mp hexec
      simp only [Option.ite_none_left_eq_some, constructProducerToken, Option.ite_none_right_eq_some,
        Option.some.injEq, Prod.mk.injEq] at h
      obtain ⟨hne, -, -, rfl⟩ := h
      refine ⟨?_, ?_⟩
      · rw [tokenNode_setProducerToken_self, tokenNode_eq ht', Option.bind_some]
      · rw [tokenNode_setProducerToken_of_ne (Ne.symm hne), tokenNode_setProducerToken_self, Option.bind_some]
  | _ => exact hother (fun _ _ => ⟨(by rintro ⟨⟩), by rintro ⟨⟩⟩) fun _ _ _ => trivial

/-- **Run.** In every run on producer tokens, of one queue or of several, every call leaves each node with one
    owner, and does what it is meant to do, if and only if no call is to exchange two different nodes. -/
theorem transferred_along_iff [DecidableEq K] (tr : Traits K) (pools : ℕ → ℕ × ℕ) (ops : List (Op K α)) :
    Along (exec tr) (Transferred tr) ops (fresh tr pools) ↔ Along (exec tr) SameNode ops (fresh tr pools) := by
  have hrun : ∀ {w : World K α} {ls}, Owned w → Listed w ls →
      (Along (exec tr) (Transferred tr) ops w ↔ Along (exec tr) SameNode ops w) := by
    induction ops with
    | nil => exact fun _ _ => Iff.rfl
    | cons op ops ih =>
        intro w ls howned hlisted
        refine and_congr (howned.transferred_iff hlisted op) (forall_congr' fun r => forall_congr' fun w' =>
          imp_congr_right fun hexec => ?_)
        obtain ⟨ls', hlisted', -⟩ := hlisted.effect (exec_effect hexec)
        exact ih (howned.effect hlisted (exec_effect hexec)) hlisted'
  exact hrun (.fresh tr pools) (.fresh tr pools)

/-- Swapping two tokens that have just been created leaves each with its own node. -/
theorem not_transferred_along : ¬ ∀ (tr : Traits ℕ) (pools : ℕ → ℕ × ℕ) (ops : List (Op ℕ ℕ)),
    Along (exec tr) (Transferred tr) ops (fresh tr pools) := by
  intro h
  have hrun := h .small (fun _ => (0, 0)) [.getProducerToken 0 0, .getProducerToken 0 1, .swapProducerTokens 0 1]
  have hlaw := ((hrun.2 _ _ rfl).2 _ _ rfl).1 _ _ rfl
  exact absurd hlaw.2.1 (by decide)

end World

end ConcurrentQueue

end LockFreeStructures
