import Mathlib.Data.Finset.Card
import LockFreeStructures.ConcurrentQueue.Shared

/-!
# `ConcurrentQueue.SharedRuns` — the producer list is shared safely

Nodes are only ever pushed, and a node has one user from the exchange that activates it until its token is destroyed. What
a thread knows of the list it knows of the part from the head it loaded on, which no later push changes; so its walks stay
in the list and its scans meet every producer once.
-/

namespace LockFreeStructures

namespace SharedProducers

open ConcurrentQueue

variable {T : Type} {m m' : Memory T} {t t' : T} {l l' : Local} {p node : ℕ} {type : ProducerType}

/-! ## The invariant -/

section Invariant

structure Inv (m : Memory T) : Prop where
  linked : Linked m.next m.producerListsHead m.added
  nodup : (m.added ++ m.pushing).Nodup
  below : ∀ p ∈ m.added ++ m.pushing, p < m.nodeCount
  count : m.producerCount = m.added.length + m.pushing.length
  countable : m.nodeCount < 2 ^ 32
  user : ∀ p ∈ m.added, m.inactive p = true ↔ m.user p = none
  pushing : ∀ p ∈ m.pushing, ∃ t, m.user p = some t

/-- Thread `t` has the node. -/
structure Holds (t : T) (m : Memory T) (type : ProducerType) (p : ℕ) : Prop where
  added : p ∈ m.added
  type_eq : m.type p = type
  user : m.user p = some t

/-- Thread `t` has made the node and not pushed it yet. -/
structure New (t : T) (m : Memory T) (p : ℕ) : Prop where
  added : p ∉ m.added
  lt : p < m.nodeCount
  user : m.user p = some t
  inactive : m.inactive p = false

/-- `list` is what the list was when the head was loaded. -/
def From (m : Memory T) (head : Option ℕ) (list : List ℕ) : Prop :=
  head = list.head? ∧ ∃ newer, m.added = newer ++ list

/-- A pointer to a node of the list. -/
def InList (m : Memory T) (o : Option ℕ) : Prop := ∃ p ∈ m.added, o = some p

/-- What a thread knows where it is. -/
def Pc.At (t : T) (m : Memory T) (l : Local) : Pc → Prop
  | .idle | .loadHead _ | .fetchConsumerId | .checkOffset | .updateHead | .rotate | .scanHead => True
  | .loadInactive _ node | .loadNext _ node => node ∈ m.added
  | .exchangeInactive type node => node ∈ m.added ∧ m.type node = type
  | .countProducer node => New t m node ∧ node ∉ m.pushing
  | .loadListsHead node | .storeNext node _ => New t m node ∧ node ∈ m.pushing
  | .exchangeHead node head => New t m node ∧ node ∈ m.pushing ∧ m.next node = head
  | .storeInactive node => l.producerNode = some node
  | .updateCount head => InList m head
  | .updateOffset head producerCount => InList m head ∧ 0 < producerCount
  | .firstWalk head producerCount _ _ desired => InList m head ∧ 0 < producerCount ∧ InList m desired
  | .secondWalk head _ _ desired => InList m head ∧ InList m desired
  | .dequeueCurrent | .roundHead => InList m l.token.currentProducer
  | .roundNext head node seen list => From m head list ∧ ∃ p before rest, l.token.currentProducer = some p ∧ p ∈ list ∧
      p :: seen = before ++ [node] ∧ othersAfter p list = seen ++ rest
  | .roundVisit head node seen list => From m head list ∧ ∃ p rest, l.token.currentProducer = some p ∧ p ∈ list ∧
      othersAfter p list = seen ++ node :: rest
  | .scanVisit node seen list => (∃ newer, m.added = newer ++ list) ∧ ∃ rest, list = seen ++ node :: rest
  | .scanNext node seen list =>
      (∃ newer, m.added = newer ++ list) ∧ ∃ before rest, seen = before ++ [node] ∧ list = seen ++ rest

/-- The nodes and the token that a thread has between its calls. -/
structure Local.Has (t : T) (m : Memory T) (l : Local) : Prop where
  producerNode : ∀ p, l.producerNode = some p → Holds t m .explicit p
  implicitProducer : ∀ p, l.implicitProducer = some p → Holds t m .implicit p
  token : ∀ p, l.token.desiredProducer = some p ∨ l.token.currentProducer = some p → p ∈ m.added
  current : l.token.desiredProducer ≠ none → l.token.currentProducer ≠ none

structure Local.Own (t : T) (m : Memory T) (l : Local) : Prop extends l.Has t m where
  pushing : ∀ p ∈ m.pushing, m.user p = some t → l.pc.adding = some p
  at_ : l.pc.At t m l

/-- What the other threads do: they push nodes of their own, and leave those of thread `t` alone. -/
structure Rely (t : T) (m m' : Memory T) : Prop where
  added : ∃ newer, m'.added = newer ++ m.added
  type : ∀ p < m.nodeCount, m'.type p = m.type p
  nodeCount : m.nodeCount ≤ m'.nodeCount
  user : ∀ p, p < m.nodeCount → (m'.user p = some t ↔ m.user p = some t)
  own : ∀ p, p < m.nodeCount → m.user p = some t → m'.next p = m.next p ∧ m'.inactive p = m.inactive p ∧
    (p ∈ m'.added → p ∈ m.added) ∧ (p ∈ m'.pushing ↔ p ∈ m.pushing)
  pushing : ∀ p ∈ m'.pushing, m'.user p = some t → p ∈ m.pushing ∧ m.user p = some t

end Invariant

/-! ## What stays known -/

section Stable

theorem Rely.mem (h : Rely t m m') (hp : p ∈ m.added) : p ∈ m'.added := by
  obtain ⟨newer, hnewer⟩ := h.added
  rw [hnewer]
  exact List.mem_append_right _ hp

theorem InList.mono {o : Option ℕ} (h : InList m o) (hrely : Rely t m m') : InList m' o := by
  obtain ⟨p, hp, ho⟩ := h
  exact ⟨p, hrely.mem hp, ho⟩

theorem Inv.lt (h : Inv m) (hp : p ∈ m.added) : p < m.nodeCount := h.below p (List.mem_append_left _ hp)

theorem suffix_mono {list : List ℕ} (h : ∃ newer, m.added = newer ++ list) (hrely : Rely t m m') :
    ∃ newer, m'.added = newer ++ list := by
  obtain ⟨newer, hnewer⟩ := h
  obtain ⟨newest, hnewest⟩ := hrely.added
  exact ⟨newest ++ newer, by rw [hnewest, hnewer, List.append_assoc]⟩

theorem Holds.stable (h : Holds t m type p) (hm : Inv m) (hrely : Rely t m m') : Holds t m' type p :=
  ⟨hrely.mem h.added, (hrely.type p (hm.lt h.added)).trans h.type_eq, (hrely.user p (hm.lt h.added)).mpr h.user⟩

theorem New.stable (h : New t m p) (hrely : Rely t m m') : New t m' p :=
  ⟨fun hp => h.added ((hrely.own p h.lt h.user).2.2.1 hp), h.lt.trans_le hrely.nodeCount,
    (hrely.user p h.lt).mpr h.user, (hrely.own p h.lt h.user).2.1.trans h.inactive⟩

theorem New.pushing_iff (h : New t m p) (hrely : Rely t m m') : p ∈ m'.pushing ↔ p ∈ m.pushing :=
  (hrely.own p h.lt h.user).2.2.2

theorem Pc.At.stable {pc : Pc} (h : pc.At t m l) (hm : Inv m) (hrely : Rely t m m') : pc.At t m' l := by
  cases pc with
  | idle | loadHead | fetchConsumerId | checkOffset | updateHead | rotate | scanHead => trivial
  | loadInactive type node | loadNext type node => exact hrely.mem h
  | exchangeInactive type node => exact ⟨hrely.mem h.1, (hrely.type node (hm.lt h.1)).trans h.2⟩
  | countProducer node => exact ⟨h.1.stable hrely, fun hp => h.2 ((h.1.pushing_iff hrely).mp hp)⟩
  | loadListsHead node | storeNext node head => exact ⟨h.1.stable hrely, (h.1.pushing_iff hrely).mpr h.2⟩
  | exchangeHead node head =>
      exact ⟨h.1.stable hrely, (h.1.pushing_iff hrely).mpr h.2.1, (hrely.own node h.1.lt h.1.user).1.trans h.2.2⟩
  | storeInactive node => exact h
  | updateCount head => exact InList.mono h hrely
  | updateOffset head producerCount => exact ⟨h.1.mono hrely, h.2⟩
  | firstWalk head producerCount globalOffset left desired => exact ⟨h.1.mono hrely, h.2.1, h.2.2.mono hrely⟩
  | secondWalk head globalOffset left desired => exact ⟨h.1.mono hrely, h.2.mono hrely⟩
  | dequeueCurrent | roundHead => exact InList.mono h hrely
  | roundNext head node seen list | roundVisit head node seen list => exact ⟨⟨h.1.1, suffix_mono h.1.2 hrely⟩, h.2⟩
  | scanVisit node seen list | scanNext node seen list => exact ⟨suffix_mono h.1 hrely, h.2⟩

theorem Local.Has.stable (h : l.Has t m) (hm : Inv m) (hrely : Rely t m m') : l.Has t m' where
  producerNode p hp := (h.producerNode p hp).stable hm hrely
  implicitProducer p hp := (h.implicitProducer p hp).stable hm hrely
  token p hp := hrely.mem (h.token p hp)
  current := h.current

theorem Local.Own.stable (h : l.Own t m) (hm : Inv m) (hrely : Rely t m m') : l.Own t m' where
  toHas := h.toHas.stable hm hrely
  pushing p hp huser := by
    obtain ⟨hp', huser'⟩ := hrely.pushing p hp huser
    exact h.pushing p hp' huser'
  at_ := h.at_.stable hm hrely

end Stable

/-! ## What the accesses do to the memory -/

section Effects

theorem Rely.refl (t : T) (m : Memory T) : Rely t m m :=
  ⟨⟨[], rfl⟩, fun _ _ => rfl, le_rfl, fun _ _ => Iff.rfl, fun _ _ _ => ⟨rfl, rfl, id, Iff.rfl⟩, fun _ hp hu => ⟨hp, hu⟩⟩

/-- No two threads have one node. -/
theorem ne_user (huser : m.user p = some t) (ht : t' ≠ t) : m.user p ≠ some t' := by
  rw [huser]
  exact fun heq => ht (Option.some.inj heq).symm

/-- A node in the list is not one that is being added. -/
theorem Inv.ne_of_pushing (h : Inv m) (hp : p ∈ m.pushing) (hnode : node ∈ m.added) : p ≠ node := by
  rintro rfl
  exact List.disjoint_of_nodup_append h.nodup hnode hp

/-! ### A new node -/

theorem Inv.create (h : Inv m) (hlt : m.nodeCount + 1 < 2 ^ 32) (t : T) (type : ProducerType) : Inv (m.create t type) := by
  have hne : ∀ {p}, p ∈ m.added ++ m.pushing → p ≠ m.nodeCount := fun hp => Nat.ne_of_lt (h.below _ hp)
  refine ⟨?_, h.nodup, fun p hp => (h.below p hp).trans (Nat.lt_succ_self _), h.count, hlt, fun p hp => ?_, fun p hp => ?_⟩
  · exact h.linked.congr fun p hp => Function.update_of_ne (hne (List.mem_append_left _ hp)) ..
  · have hp := hne (List.mem_append_left _ hp)
    show Function.update m.inactive m.nodeCount false p = true ↔ Function.update m.user m.nodeCount (some t) p = none
    rw [Function.update_of_ne hp, Function.update_of_ne hp]
    exact h.user p ‹_›
  · obtain ⟨t', huser⟩ := h.pushing p hp
    exact ⟨t', (Function.update_of_ne (hne (List.mem_append_right _ hp)) ..).trans huser⟩

theorem New.create (h : Inv m) (t : T) (type : ProducerType) : New t (m.create t type) m.nodeCount ∧ m.nodeCount ∉ m.pushing :=
  ⟨⟨fun hp => Nat.lt_irrefl _ (h.lt hp), Nat.lt_succ_self _, Function.update_self .., Function.update_self ..⟩,
    fun hp => Nat.lt_irrefl _ (h.below _ (List.mem_append_right _ hp))⟩

theorem Rely.create (h : Inv m) (t t' : T) (type : ProducerType) : Rely t' m (m.create t type) := by
  have huser : ∀ {p}, p < m.nodeCount → (m.create t type).user p = m.user p :=
    fun hp => Function.update_of_ne (Nat.ne_of_lt hp) ..
  refine ⟨⟨[], rfl⟩, fun p hp => Function.update_of_ne (Nat.ne_of_lt hp) .., Nat.le_succ _, fun p hp => ?_, fun p hp _ => ?_,
    fun p hp hu => ⟨hp, ?_⟩⟩
  · rw [huser hp]
  · exact ⟨Function.update_of_ne (Nat.ne_of_lt hp) .., Function.update_of_ne (Nat.ne_of_lt hp) .., id, Iff.rfl⟩
  · rwa [huser (h.below p (List.mem_append_right _ hp))] at hu

/-! ### A node of the list is given to a thread or left by it -/

theorem Inv.setInactive (h : Inv m) (hnode : node ∈ m.added) {inactive : Bool} {user : Option T}
    (hiff : inactive = true ↔ user = none) : Inv (m.setInactive node inactive user) := by
  refine ⟨h.linked, h.nodup, h.below, h.count, h.countable, fun p hp => ?_, fun p hp => ?_⟩
  · show Function.update m.inactive node inactive p = true ↔ Function.update m.user node user p = none
    by_cases heq : p = node
    · subst heq
      rw [Function.update_self, Function.update_self]
      exact hiff
    · rw [Function.update_of_ne heq, Function.update_of_ne heq]
      exact h.user p hp
  · obtain ⟨t, huser⟩ := h.pushing p hp
    exact ⟨t, (Function.update_of_ne (h.ne_of_pushing hp hnode) ..).trans huser⟩

theorem Rely.setInactive (h : Inv m) (hnode : node ∈ m.added) {inactive : Bool} {user : Option T}
    (hbefore : m.user node ≠ some t) (hafter : user ≠ some t) : Rely t m (m.setInactive node inactive user) := by
  have hne : ∀ {p}, m.user p = some t → p ≠ node := by
    rintro p hp rfl
    exact hbefore hp
  refine ⟨⟨[], rfl⟩, fun _ _ => rfl, le_rfl, fun p hp => ?_, fun p hp huser => ?_, fun p hp huser => ⟨hp, ?_⟩⟩
  · show Function.update m.user node user p = some t ↔ m.user p = some t
    by_cases heq : p = node
    · subst heq
      rw [Function.update_self]
      exact iff_of_false hafter hbefore
    · rw [Function.update_of_ne heq]
  · exact ⟨rfl, Function.update_of_ne (hne huser) .., id, Iff.rfl⟩
  · exact (Function.update_of_ne (h.ne_of_pushing hp hnode) ..).symm.trans huser

/-! ### A node is added -/

theorem Inv.setNext (h : Inv m) (hnode : node ∉ m.added) (next : Option ℕ) : Inv (m.setNext node next) := by
  refine ⟨h.linked.congr fun p hp => Function.update_of_ne ?_ .., h.nodup, h.below, h.count, h.countable, h.user, h.pushing⟩
  rintro rfl
  exact hnode hp

theorem Rely.setNext (huser : m.user node ≠ some t) (next : Option ℕ) : Rely t m (m.setNext node next) := by
  refine ⟨⟨[], rfl⟩, fun _ _ => rfl, le_rfl, fun _ _ => Iff.rfl, fun p hp hp' => ⟨Function.update_of_ne ?_ .., rfl, id, Iff.rfl⟩,
    fun _ hp hu => ⟨hp, hu⟩⟩
  rintro rfl
  exact huser hp'

/-- Distinct names below `n` are at most `n`. -/
theorem length_le_of_below {l : List ℕ} {n : ℕ} (hnodup : l.Nodup) (hbelow : ∀ p ∈ l, p < n) : l.length ≤ n := by
  rw [← List.toFinset_card_of_nodup hnodup, ← Finset.card_range n]
  refine Finset.card_le_card fun p hp => ?_
  exact Finset.mem_range.mpr (hbelow p (List.mem_toFinset.mp hp))

theorem Inv.countProducer (h : Inv m) (hnew : New t m node) (hnode : node ∉ m.pushing) :
    Inv { m with producerCount := Word.add 32 m.producerCount 1, pushing := node :: m.pushing } := by
  have hnodup : (m.added ++ node :: m.pushing).Nodup := by
    rw [List.nodup_middle, List.nodup_cons]
    exact ⟨fun hp => (List.mem_append.mp hp).elim hnew.added hnode, h.nodup⟩
  have hbelow : ∀ p ∈ m.added ++ node :: m.pushing, p < m.nodeCount := by
    intro p hp
    rcases List.mem_cons.mp (List.perm_middle.mem_iff.mp hp) with rfl | hp
    · exact hnew.lt
    · exact h.below p hp
  have hle := length_le_of_below hnodup hbelow
  refine ⟨h.linked, hnodup, hbelow, ?_, h.countable, h.user, fun p hp => ?_⟩
  · show Word.add 32 m.producerCount 1 = _
    rw [List.length_append, List.length_cons] at hle
    have hcountable := h.countable
    rw [Word.add, Nat.mod_eq_of_lt (by rw [h.count]; omega), h.count, List.length_cons, Nat.add_assoc]
  · rcases List.mem_cons.mp hp with rfl | hp
    · exact ⟨t, hnew.user⟩
    · exact h.pushing p hp

theorem Rely.countProducer (hnew : New t m node) (ht : t' ≠ t) :
    Rely t' m { m with producerCount := Word.add 32 m.producerCount 1, pushing := node :: m.pushing } := by
  have hne : ∀ {p}, m.user p = some t' → p ≠ node := by
    rintro p hp rfl
    exact ne_user hnew.user ht hp
  refine ⟨⟨[], rfl⟩, fun _ _ => rfl, le_rfl, fun _ _ => Iff.rfl, fun p hp hp' => ⟨rfl, rfl, id, ?_⟩, fun p hp hu => ⟨?_, hu⟩⟩
  · show p ∈ node :: m.pushing ↔ p ∈ m.pushing
    rw [List.mem_cons, or_iff_right (hne hp')]
  · exact (List.mem_cons.mp hp).resolve_left (hne hu)

theorem Inv.push (h : Inv m) (hnew : New t m node) (hnode : node ∈ m.pushing) (hnext : m.next node = m.producerListsHead) :
    Inv (m.push node) := by
  have hperm : (m.added ++ m.pushing).Perm (node :: m.added ++ m.pushing.erase node) :=
    (List.Perm.append_left _ (List.perm_cons_erase hnode)).trans List.perm_middle
  refine ⟨⟨rfl, ?_⟩, hperm.nodup_iff.mp h.nodup, fun p hp => h.below p (hperm.mem_iff.mpr hp), ?_, h.countable, fun p hp => ?_,
    fun p hp => h.pushing p (List.mem_of_mem_erase hp)⟩
  · show Linked m.next (m.next node) m.added
    rw [hnext]
    exact h.linked
  · have hlen := hperm.length_eq
    rw [List.length_append, List.length_append] at hlen
    exact h.count.trans hlen
  · show m.inactive p = true ↔ m.user p = none
    rcases List.mem_cons.mp hp with rfl | hp
    · rw [hnew.inactive, hnew.user]
      exact iff_of_false (by rintro ⟨⟩) (by rintro ⟨⟩)
    · exact h.user p hp

theorem Rely.push (hnew : New t m node) (ht : t' ≠ t) : Rely t' m (m.push node) := by
  have hne : ∀ {p}, m.user p = some t' → p ≠ node := by
    rintro p hp rfl
    exact ne_user hnew.user ht hp
  refine ⟨⟨[node], rfl⟩, fun _ _ => rfl, le_rfl, fun _ _ => Iff.rfl, fun p hp hp' => ⟨rfl, rfl, fun hmem => ?_, ?_⟩,
    fun p hp hu => ⟨List.mem_of_mem_erase hp, hu⟩⟩
  · exact (List.mem_cons.mp hmem).resolve_left (hne hp')
  · exact List.mem_erase_of_ne (hne hp')

end Effects

/-! ## Going over the list -/

section Walks

variable {head : Option ℕ} {seen list : List ℕ}

/-- The list from the head on that a thread has loaded is still there. -/
theorem From.linked (h : Inv m) (hfrom : From m head list) : Linked m.next head list := by
  obtain ⟨rfl, newer, hnewer⟩ := hfrom
  have hlinked := h.linked
  rw [hnewer] at hlinked
  cases list with
  | nil => rfl
  | cons p list =>
      have hdrop := hlinked.drop newer.length (by rw [List.length_append, List.length_cons]; omega)
      rw [List.drop_left, List.getElem_append_right le_rfl] at hdrop
      simpa only [Nat.sub_self, List.getElem_cons_zero, List.head?_cons] using hdrop

theorem From.now (h : Inv m) : From m m.producerListsHead m.added := by
  refine ⟨?_, [], rfl⟩
  have hlinked := h.linked
  cases hadded : m.added with
  | nil =>
      rw [hadded] at hlinked
      exact hlinked
  | cons p l =>
      rw [hadded] at hlinked
      exact hlinked.1

/-- A step of a walk. -/
theorem InList.step (h : Inv m) (hhead : InList m head) (hp : p ∈ m.added) : InList m ((m.next p).or head) := by
  obtain ⟨q, hq, rfl⟩ := hhead
  cases hnext : m.next p with
  | none => exact ⟨q, hq, rfl⟩
  | some r => exact ⟨r, h.linked.mem_of_next_or_head hp (by rw [hnext, Option.some_or]), rfl⟩

/-- The producer behind the one that was tried last, going round from `p`. -/
theorem From.step_round (h : Inv m) (hfrom : From m head list) (hp : p ∈ list) {before rest : List ℕ}
    (hbefore : p :: seen = before ++ [node]) (hround : othersAfter p list = seen ++ rest) :
    (m.next node).or head = (rest ++ [p]).head? := by
  have hpath := ((hfrom.linked h).path_round hp).1
  rw [hround] at hpath
  have hrest : Path (fun p => (m.next p).or head) ((m.next node).or head) rest p := by
    cases before with
    | nil =>
        obtain ⟨rfl, rfl⟩ := List.cons.inj hbefore
        exact hpath
    | cons b before =>
        obtain ⟨rfl, hseen⟩ := List.cons.inj hbefore
        replace hseen : seen = before ++ [node] := hseen
        rw [hseen, List.append_assoc] at hpath
        exact (Path.append_cons.mp hpath).2
  cases rest with
  | nil => exact hrest
  | cons r rest => exact hrest.1

/-- The producers a round tries are the others of the list. -/
theorem From.round_perm (h : Inv m) (hfrom : From m head list) (hp : p ∈ list) : (p :: othersAfter p list).Perm list :=
  ((hfrom.linked h).path_round hp).2

/-- The node behind one of the list. -/
theorem next_of_suffix (h : Inv m) {before rest : List ℕ} (hadded : m.added = before ++ node :: rest) :
    m.next node = rest.head? := by
  have hlinked := h.linked
  rw [hadded] at hlinked
  have hnext := hlinked.next_getElem (i := before.length) (by rw [List.length_append, List.length_cons]; omega)
  rw [List.getElem_append_right le_rfl, List.getElem?_append_right (Nat.le_succ _)] at hnext
  simpa [List.head?_eq_getElem?] using hnext

/-- A scan of the whole list goes on where the nodes it has seen end, newer nodes apart. -/
theorem Pc.At.next_of_scanNext (h : Inv m) {seen list : List ℕ} (hat : (Pc.scanNext node seen list).At t m l) :
    ∃ rest, list = seen ++ rest ∧ m.next node = rest.head? := by
  obtain ⟨⟨newer, hnewer⟩, before, rest, hseen, hlist⟩ := hat
  have hadded : m.added = (newer ++ before) ++ node :: rest := by
    rw [hnewer, hlist, hseen]
    simp only [List.append_assoc, List.singleton_append]
  exact ⟨rest, hlist, next_of_suffix h hadded⟩

end Walks

/-! ## One step -/

section Steps

/-- An access keeps the invariant and what its thread knows, and others can rely on it. -/
structure Kept (t : T) (m : Memory T) (r : Memory T × Local) : Prop where
  inv : Inv r.1
  own : r.2.Own t r.1
  rely : ∀ t' ≠ t, Rely t' m r.1

/-- The thread goes on without any effect. -/
theorem Local.Own.goto (h : l.Own t m) {pc : Pc} (hat : pc.At t m l) (hadding : pc.adding = l.pc.adding) :
    (l.goto pc).Own t m := by
  refine ⟨⟨h.producerNode, h.implicitProducer, h.token, h.current⟩, fun p hp huser => ?_, ?_⟩
  · exact hadding.trans (h.pushing p hp huser)
  · cases pc <;> exact hat

theorem Kept.goto (hm : Inv m) (h : l.Own t m) {pc : Pc} (hat : pc.At t m l) (hadding : pc.adding = l.pc.adding) :
    Kept t m (m, l.goto pc) :=
  ⟨hm, h.goto hat hadding, fun t' _ => .refl t' m⟩

theorem Kept.secondWalk (hm : Inv m) (h : l.Own t m) {head desired : Option ℕ} {globalOffset left : ℕ}
    (hhead : InList m head) (hdesired : InList m desired) (hadding : l.pc.adding = none) :
    Kept t m (m, l.goto (.secondWalk head globalOffset left desired)) := by
  apply Kept.goto hm h
  · exact ⟨hhead, hdesired⟩
  · exact hadding.symm

/-- The next node of the list, or a new one. -/
theorem Kept.findFrom (hm : Inv m) (h : l.Own t m) (hadding : l.pc.adding = none) (hlt : m.nodeCount + 1 < 2 ^ 32)
    {o : Option ℕ} (ho : ∀ p, o = some p → p ∈ m.added) : Kept t m (findFrom t m l type o) := by
  cases o with
  | some p => exact .goto hm h (show (Pc.loadInactive type p).At t m l from ho p rfl) hadding.symm
  | none =>
      have hinv := hm.create hlt t type
      have hrely := Rely.create hm t t type
      have hstable := h.toHas.stable hm hrely
      refine ⟨hinv, ⟨⟨hstable.producerNode, hstable.implicitProducer, hstable.token, hstable.current⟩,
        fun p hp huser => ?_, New.create hm t type⟩, fun t' _ => .create hm t t' type⟩
      obtain ⟨hp', huser'⟩ := hrely.pushing p hp huser
      rw [h.pushing p hp' huser'] at hadding
      cases hadding

/-- `GetProducerListNode` has returned. -/
theorem Local.Has.give (h : l.Has t m) (hp : Holds t m type p) (hpushing : ∀ q ∈ m.pushing, m.user q ≠ some t) :
    (l.give type p).Own t m := by
  cases type with
  | explicit =>
      refine ⟨⟨?_, h.implicitProducer, h.token, h.current⟩, fun q hq huser => absurd huser (hpushing q hq), trivial⟩
      rintro q ⟨⟩
      exact hp
  | implicit =>
      refine ⟨⟨h.producerNode, ?_, h.token, h.current⟩, fun q hq huser => absurd huser (hpushing q hq), trivial⟩
      rintro q ⟨⟩
      exact hp

/-- The thread is not adding a node. -/
theorem Local.Own.pushing_ne (h : l.Own t m) (hadding : l.pc.adding = none) : ∀ q ∈ m.pushing, m.user q ≠ some t := by
  intro q hq huser
  rw [h.pushing q hq huser] at hadding
  cases hadding

theorem Holds.setInactive (h : Holds t m type p) (hne : p ≠ node) (inactive : Bool) (user : Option T) :
    Holds t (m.setInactive node inactive user) type p :=
  ⟨h.added, h.type_eq, (Function.update_of_ne hne ..).trans h.user⟩

/-- A node that nobody has goes to the thread. -/
theorem Kept.exchangeInactive (hm : Inv m) (h : l.Own t m) (hadding : l.pc.adding = none) (hnode : node ∈ m.added)
    (htype : m.type node = type) (hinactive : m.inactive node = true) :
    Kept t m (m.setInactive node false (some t), l.give type node) := by
  have huser : m.user node = none := (hm.user node hnode).mp hinactive
  have hne : ∀ {p}, m.user p = some t → p ≠ node := by
    rintro p hp rfl
    rw [huser] at hp
    cases hp
  refine ⟨hm.setInactive hnode (iff_of_false (by rintro ⟨⟩) (by rintro ⟨⟩)), ?_, fun t' ht => ?_⟩
  · refine Local.Has.give ⟨fun p hp => ?_, fun p hp => ?_, h.token, h.current⟩ ⟨hnode, htype, Function.update_self ..⟩ fun q hq huser' => ?_
    · exact (h.producerNode p hp).setInactive (hne (h.producerNode p hp).user) _ _
    · exact (h.implicitProducer p hp).setInactive (hne (h.implicitProducer p hp).user) _ _
    · refine h.pushing_ne hadding q hq ?_
      exact (Function.update_of_ne (hm.ne_of_pushing hq hnode) ..).symm.trans huser'
  · refine .setInactive hm hnode ?_ fun heq => ht (Option.some.inj heq).symm
    rw [huser]
    rintro ⟨⟩

/-- The thread leaves the node of its token. -/
theorem Kept.storeInactive (hm : Inv m) (h : l.Own t m) (hadding : l.pc.adding = none) (hnode : l.producerNode = some node) :
    Kept t m (m.setInactive node true none, { l with producerNode := none, pc := .idle }) := by
  have hholds := h.producerNode node hnode
  refine ⟨hm.setInactive hholds.added (iff_of_true rfl rfl), ⟨⟨?_, fun p hp => ?_, h.token, h.current⟩, fun q hq huser => ?_,
    trivial⟩, fun t' ht => ?_⟩
  · rintro p ⟨⟩
  · refine (h.implicitProducer p hp).setInactive ?_ _ _
    rintro rfl
    have htype := hholds.type_eq.symm.trans (h.implicitProducer p hp).type_eq
    cases htype
  · refine absurd ?_ (h.pushing_ne hadding q hq)
    exact (Function.update_of_ne (hm.ne_of_pushing hq hholds.added) ..).symm.trans huser
  · exact .setInactive hm hholds.added (ne_user hholds.user ht) (by rintro ⟨⟩)

theorem Kept.countProducer (hm : Inv m) (h : l.Own t m) (hpc : l.pc = .countProducer node) :
    Kept t m ({ m with producerCount := Word.add 32 m.producerCount 1, pushing := node :: m.pushing },
      l.goto (.loadListsHead node)) := by
  have hat := h.at_
  have hpushing := h.pushing
  rw [hpc] at hat hpushing
  obtain ⟨hnew, hnode⟩ := hat
  refine ⟨hm.countProducer hnew hnode, ⟨⟨fun p hp => ?_, fun p hp => ?_, h.token, h.current⟩, fun q hq huser => ?_, ?_⟩,
    fun t' ht => .countProducer hnew ht⟩
  · exact ⟨(h.producerNode p hp).added, (h.producerNode p hp).type_eq, (h.producerNode p hp).user⟩
  · exact ⟨(h.implicitProducer p hp).added, (h.implicitProducer p hp).type_eq, (h.implicitProducer p hp).user⟩
  · rcases List.mem_cons.mp hq with rfl | hq
    · rfl
    · exact hpushing q hq huser
  · exact ⟨⟨hnew.added, hnew.lt, hnew.user, hnew.inactive⟩, List.mem_cons_self⟩

theorem Kept.storeNext (hm : Inv m) (h : l.Own t m) {head : Option ℕ} (hpc : l.pc = .storeNext node head) :
    Kept t m (m.setNext node head, l.goto (.exchangeHead node head)) := by
  have hat := h.at_
  have hpushing := h.pushing
  rw [hpc] at hat hpushing
  obtain ⟨hnew, hnode⟩ := hat
  refine ⟨hm.setNext hnew.added head, ⟨⟨fun p hp => ?_, fun p hp => ?_, h.token, h.current⟩, hpushing, ?_⟩,
    fun t' ht => .setNext (ne_user hnew.user ht) head⟩
  · exact ⟨(h.producerNode p hp).added, (h.producerNode p hp).type_eq, (h.producerNode p hp).user⟩
  · exact ⟨(h.implicitProducer p hp).added, (h.implicitProducer p hp).type_eq, (h.implicitProducer p hp).user⟩
  · exact ⟨⟨hnew.added, hnew.lt, hnew.user, hnew.inactive⟩, hnode, Function.update_self ..⟩

/-- The node is in the list, and the thread has it. -/
theorem Kept.exchangeHead (hm : Inv m) (h : l.Own t m) {head : Option ℕ} (hpc : l.pc = .exchangeHead node head)
    (hhead : m.producerListsHead = head) : Kept t m (m.push node, l.give (m.type node) node) := by
  have hat := h.at_
  have hpushing := h.pushing
  rw [hpc] at hat hpushing
  obtain ⟨hnew, hnode, hnext⟩ := hat
  have hmem : ∀ {p}, p ∈ m.added → p ∈ (m.push node).added := fun hp => List.mem_cons_of_mem _ hp
  refine ⟨hm.push hnew hnode (hnext.trans hhead.symm), ?_, fun t' ht => .push hnew ht⟩
  refine Local.Has.give ⟨fun p hp => ?_, fun p hp => ?_, fun p hp => hmem (h.token p hp), h.current⟩
    ⟨List.mem_cons_self, rfl, hnew.user⟩ fun q hq huser => ?_
  · exact ⟨hmem (h.producerNode p hp).added, (h.producerNode p hp).type_eq, (h.producerNode p hp).user⟩
  · exact ⟨hmem (h.implicitProducer p hp).added, (h.implicitProducer p hp).type_eq, (h.implicitProducer p hp).user⟩
  · have heq := Option.some.inj (hpushing q (List.mem_of_mem_erase hq) huser)
    subst heq
    exact (List.nodup_append.mp hm.nodup).2.1.not_mem_erase hq

/-- The thread's consumer token changes. -/
theorem Kept.setToken (hm : Inv m) (h : l.Own t m) (hadding : l.pc.adding = none) {tok : ConsumerToken} {pc : Pc}
    (htoken : ∀ p, tok.desiredProducer = some p ∨ tok.currentProducer = some p → p ∈ m.added)
    (hcurrent : tok.desiredProducer ≠ none → tok.currentProducer ≠ none)
    (hat : pc.At t m { l with token := tok, pc := pc }) : Kept t m (m, { l with token := tok, pc := pc }) :=
  ⟨hm, ⟨⟨h.producerNode, h.implicitProducer, htoken, hcurrent⟩,
    fun q hq huser => absurd huser (h.pushing_ne hadding q hq), hat⟩, fun t' _ => .refl t' m⟩

/-- Counters that no one's knowledge depends on. -/
theorem Kept.counters (h : Kept t m (m, l)) (globalOffset nextId : ℕ) :
    Kept t m ({ m with globalExplicitConsumerOffset := globalOffset, nextExplicitConsumerId := nextId }, l) := by
  obtain ⟨hinv, hown, -⟩ := h
  have hrely : ∀ t', Rely t' m { m with globalExplicitConsumerOffset := globalOffset, nextExplicitConsumerId := nextId } :=
    fun t' => ⟨⟨[], rfl⟩, fun _ _ => rfl, le_rfl, fun _ _ => Iff.rfl, fun _ _ _ => ⟨rfl, rfl, id, Iff.rfl⟩,
      fun _ hp hu => ⟨hp, hu⟩⟩
  exact ⟨⟨hinv.linked, hinv.nodup, hinv.below, hinv.count, hinv.countable, hinv.user, hinv.pushing⟩,
    hown.stable hinv (hrely t), fun t' _ => hrely t'⟩

/-- The list is not empty, and the count is at least the number of its nodes. -/
theorem Inv.count_pos (h : Inv m) (hp : p ∈ m.added) : 0 < m.producerCount := by
  rw [h.count]
  have := List.length_pos_of_mem hp
  omega

/-- **Step.** -/
theorem Kept.access (hm : Inv m) (h : l.Own t m) (hlt : m.nodeCount + 1 < 2 ^ 32) {stop : Bool} {w : ℕ}
    {r : Memory T × Local} (hs : access t stop m l w = some r) : Kept t m r := by
  have hat := h.at_
  generalize hpc : l.pc = pc at hat
  unfold SharedProducers.access at hs
  rw [hpc] at hs
  have hother : pc.adding = none → l.pc.adding = none := fun heq => by rw [hpc, heq]
  cases pc with
  | idle => cases hs
  | loadHead type =>
      cases hs
      refine .findFrom hm h (hother rfl) hlt fun p hp => ?_
      exact List.mem_of_mem_head? ((From.now hm).1.symm.trans hp)
  | loadInactive type node =>
      dsimp only at hs
      split at hs
      · rename_i htest
        cases hs
        exact .goto hm h ⟨hat, htest.2⟩ (hother rfl).symm
      · cases hs
        exact .goto hm h hat (hother rfl).symm
  | exchangeInactive type node =>
      dsimp only at hs
      split at hs
      · rename_i hinactive
        cases hs
        exact .exchangeInactive hm h (hother rfl) hat.1 hat.2 hinactive
      · cases hs
        exact .goto hm h hat.1 (hother rfl).symm
  | loadNext type node =>
      cases hs
      refine .findFrom hm h (hother rfl) hlt fun p hp => ?_
      exact hm.linked.mem_of_next_or_head hat (by rw [hp, Option.some_or])
  | countProducer node =>
      cases hs
      exact .countProducer hm h hpc
  | loadListsHead node =>
      cases hs
      exact .goto hm h hat (by rw [hpc]; rfl)
  | storeNext node head =>
      cases hs
      exact .storeNext hm h hpc
  | exchangeHead node head =>
      dsimp only at hs
      split at hs
      · rename_i hhead
        cases hs
        exact .exchangeHead hm h hpc hhead.1
      · cases hs
        exact .goto hm h ⟨hat.1, hat.2.1⟩ (by rw [hpc]; rfl)
  | storeInactive node =>
      cases hs
      exact .storeInactive hm h (hother rfl) hat
  | fetchConsumerId =>
      cases hs
      have hkept : Kept t m (m, { l with token := .new m.nextExplicitConsumerId, pc := .idle }) := by
        refine .setToken hm h (hother rfl) ?_ (fun hne => absurd rfl hne) trivial
        rintro p (⟨⟨⟩⟩ | ⟨⟨⟩⟩)
      exact hkept.counters _ _
  | checkOffset =>
      dsimp only at hs
      split at hs
      · cases hs
        exact .goto hm h trivial (hother rfl).symm
      · rename_i hupdated
        cases hs
        obtain ⟨p, hp⟩ := Option.ne_none_iff_exists'.mp (h.current fun hnone => hupdated (.inl hnone))
        exact .goto hm h ⟨p, h.token p (.inr hp), hp⟩ (hother rfl).symm
  | updateHead =>
      dsimp only at hs
      split at hs
      · cases hs
        exact .goto hm h trivial (hother rfl).symm
      · rename_i hsome
        cases hs
        refine .goto hm h (show (Pc.updateCount m.producerListsHead).At t m l from ?_) (hother rfl).symm
        -- a token that has a producer was updated with a list that had one
        have hne : m.added ≠ [] := by
          intro hempty
          refine hsome ⟨?_, ?_⟩
          · cases hdesired : l.token.desiredProducer with
            | none => rfl
            | some p =>
                have hmem := h.token p (.inl hdesired)
                rw [hempty] at hmem
                cases hmem
          · rw [(From.now hm).1, hempty, List.head?_nil]
        obtain ⟨p, hp⟩ := Option.ne_none_iff_exists'.mp (mt List.head?_eq_none_iff.mp hne)
        exact ⟨p, List.mem_of_mem_head? hp, (From.now hm).1.trans hp⟩
  | updateCount head =>
      cases hs
      obtain ⟨p, hp, -⟩ := id hat
      exact .goto hm h ⟨hat, hm.count_pos hp⟩ (hother rfl).symm
  | updateOffset head producerCount =>
      dsimp only at hs
      rw [if_neg (Nat.ne_of_gt hat.2)] at hs
      split at hs
      · cases hs
        exact .goto hm h ⟨hat.1, hat.2, hat.1⟩ (hother rfl).symm
      · rename_i p hp
        cases hs
        exact .secondWalk hm h hat.1 ⟨p, h.token p (.inl hp), rfl⟩ (hother rfl)
  | firstWalk head producerCount globalOffset left desired =>
      obtain ⟨hhead, hcount, p, hp, rfl⟩ := hat
      dsimp only at hs
      split at hs
      · cases hs
        exact .secondWalk hm h hhead ⟨p, hp, rfl⟩ (hother rfl)
      · cases hs
        exact .goto hm h ⟨hhead, hcount, hhead.step hm hp⟩ (hother rfl).symm
  | secondWalk head globalOffset left desired =>
      obtain ⟨hhead, p, hp, rfl⟩ := hat
      dsimp only at hs
      split at hs
      · cases hs
        refine .setToken hm h (hother rfl) ?_ id ⟨p, hp, rfl⟩
        rintro q (⟨⟨⟩⟩ | ⟨⟨⟩⟩) <;> exact hp
      · cases hs
        exact .goto hm h ⟨hhead, hhead.step hm hp⟩ (hother rfl).symm
  | dequeueCurrent =>
      obtain ⟨p, hp, hcurrent⟩ := hat
      obtain ⟨-, -, hs⟩ := Option.map_eq_some_iff.mp hs
      split at hs
      · cases hs
        refine .setToken hm h (hother rfl) h.token h.current ?_
        split <;> trivial
      · cases hs
        exact .goto hm h ⟨p, hp, hcurrent⟩ (hother rfl).symm
  | rotate =>
      cases hs
      have hkept : Kept t m (m, l.goto .idle) := .goto hm h trivial (hother rfl).symm
      exact hkept.counters _ _
  | roundHead =>
      obtain ⟨p, hp, hcurrent⟩ := hat
      dsimp only at hs
      rw [hcurrent] at hs
      cases hs
      exact .goto hm h ⟨From.now hm, p, [], _, hcurrent, hp, rfl, rfl⟩ (hother rfl).symm
  | roundNext head node seen list =>
      obtain ⟨hfrom, p, before, rest, hcurrent, hp, hbefore, hround⟩ := hat
      dsimp only at hs
      rw [hfrom.step_round hm hp hbefore hround, hcurrent] at hs
      cases rest with
      | nil =>
          dsimp only [List.nil_append, List.head?_cons, Option.map_some] at hs
          rw [if_pos rfl] at hs
          cases hs
          exact .goto hm h trivial (hother rfl).symm
      | cons q rest =>
          dsimp only [List.cons_append, List.head?_cons, Option.map_some] at hs
          have hne : some q ≠ some p := by
            have hnodup := (hfrom.round_perm hm hp).nodup_iff.mpr (hfrom.linked hm).nodup
            rw [hround] at hnodup
            rintro ⟨⟩
            exact (List.nodup_cons.mp hnodup).1 (List.mem_append_right _ List.mem_cons_self)
          rw [if_neg hne] at hs
          cases hs
          exact .goto hm h ⟨hfrom, p, rest, hcurrent, hp, hround⟩ (hother rfl).symm
  | roundVisit head node seen list =>
      obtain ⟨hfrom, p, rest, hcurrent, hp, hround⟩ := hat
      dsimp only at hs
      have hmem : node ∈ list := by
        refine (hfrom.round_perm hm hp).mem_iff.mp (List.mem_cons_of_mem _ ?_)
        rw [hround]
        exact List.mem_append_right _ List.mem_cons_self
      obtain ⟨newer, hnewer⟩ := hfrom.2
      split at hs
      · cases hs
        refine .setToken hm h (hother rfl) ?_ (fun _ => by rintro ⟨⟩) trivial
        rintro q (hq | ⟨⟨⟩⟩)
        · exact h.token q (.inl hq)
        · rw [hnewer]
          exact List.mem_append_right _ hmem
      · cases hs
        refine .goto hm h ⟨hfrom, p, p :: seen, rest, hcurrent, hp, rfl, ?_⟩ (hother rfl).symm
        rw [hround, List.append_assoc, List.singleton_append]
  | scanHead =>
      dsimp only at hs
      split at hs
      · cases hs
        exact .goto hm h trivial (hother rfl).symm
      · rename_i p hp
        cases hs
        refine .goto hm h (show (Pc.scanVisit p [] m.added).At t m l from ⟨⟨[], rfl⟩, m.added.tail, ?_⟩) (hother rfl).symm
        exact (List.eq_cons_of_mem_head? ((From.now hm).1.symm.trans hp))
  | scanVisit node seen list =>
      obtain ⟨hnewer, rest, hlist⟩ := hat
      dsimp only at hs
      split at hs
      · cases hs
        exact .goto hm h trivial (hother rfl).symm
      · cases hs
        refine .goto hm h ⟨hnewer, seen, rest, rfl, ?_⟩ (hother rfl).symm
        rw [hlist, List.append_assoc, List.singleton_append]
  | scanNext node seen list =>
      obtain ⟨rest, hlist, hnext⟩ := Pc.At.next_of_scanNext hm hat
      dsimp only at hs
      split at hs
      · cases hs
        exact .goto hm h trivial (hother rfl).symm
      · rename_i p hp
        cases hs
        refine .goto hm h (show (Pc.scanVisit p seen list).At t m l from ⟨hat.1, rest.tail, ?_⟩) (hother rfl).symm
        rw [hlist]
        exact congrArg _ (List.eq_cons_of_mem_head? (hnext.symm.trans hp))

end Steps

/-! ## Every run -/

section Runs

/-- A call that has not returned can go on. -/
theorem Local.Own.isSome_access (h : l.Own t m) (hm : Inv m) (hpc : l.pc ≠ .idle) (stop : Bool) (w : ℕ) :
    (access t stop m l w).isSome := by
  have hat := h.at_
  generalize hpc' : l.pc = pc at hat hpc
  unfold SharedProducers.access
  rw [hpc']
  cases pc with
  | idle => exact absurd rfl hpc
  | updateOffset head producerCount =>
      dsimp only
      rw [if_neg (Nat.ne_of_gt hat.2)]
      split <;> rfl
  | firstWalk head producerCount globalOffset left desired =>
      obtain ⟨-, -, p, -, rfl⟩ := hat
      dsimp only
      split <;> rfl
  | secondWalk head globalOffset left desired =>
      obtain ⟨-, p, -, rfl⟩ := hat
      dsimp only
      split <;> rfl
  | dequeueCurrent | roundHead =>
      obtain ⟨p, -, hcurrent⟩ := hat
      dsimp only
      rw [hcurrent]
      rfl
  | roundNext head node seen list =>
      obtain ⟨hfrom, p, before, rest, -, hp, hbefore, hround⟩ := hat
      dsimp only
      rw [hfrom.step_round hm hp hbefore hround]
      cases rest <;> rfl
  | loadInactive | exchangeInactive | exchangeHead | checkOffset | updateHead | roundVisit | scanHead | scanVisit
  | scanNext =>
      dsimp only
      split <;> rfl
  | _ => rfl

variable [DecidableEq T] {w : ℕ} {s : State T} {initialOffset : T → ℕ}

omit [DecidableEq T] in
theorem relyGuarantee (w : ℕ) :
    Interleaving.RelyGuarantee (ThreadStep (T := T) w) Countable Inv (fun t m l => l.Own t m) Rely where
  own := by
    intro s t a m' l' hok hm h hs
    generalize hl : s.threads t = l at h hs
    have hidle : l.pc = .idle → ∀ {pc : Pc}, pc.At t s.memory l → pc.adding = none → (l.goto pc).Own t s.memory :=
      fun hpc _ hat hadding => h.goto hat (by rw [hadding, hpc]; rfl)
    cases hs with
    | getProducerToken hpc _ | getOrAddImplicitProducer hpc | getConsumerToken hpc | tryDequeueToken hpc
    | forEachProducer hpc => exact ⟨hm, hidle hpc trivial rfl⟩
    | destroyProducerToken hpc hnode => exact ⟨hm, hidle hpc hnode rfl⟩
    | access hr => exact ⟨(Kept.access hm h hok hr).inv, (Kept.access hm h hok hr).own⟩
  guarantee := by
    intro s t t' a m' l' hok hm h hs ht
    generalize s.threads t = l at h hs
    cases hs with
    | access hr => exact (Kept.access hm h hok hr).rely t' ht
    | _ => exact .refl t' _
  stable := fun hm h hrely => h.stable hm hrely

omit [DecidableEq T] in
theorem Inv.fresh : Inv (Memory.fresh : Memory T) where
  linked := rfl
  nodup := .nil
  below _ hp := absurd hp List.not_mem_nil
  count := rfl
  countable := Nat.two_pow_pos 32
  user _ hp := absurd hp List.not_mem_nil
  pushing _ hp := absurd hp List.not_mem_nil

omit [DecidableEq T] in
theorem Local.Own.start (initialOffset : T → ℕ) (t : T) : ((start initialOffset).threads t).Own t .fresh where
  producerNode := by rintro p ⟨⟩
  implicitProducer := by rintro p ⟨⟩
  token := by rintro p (⟨⟨⟩⟩ | ⟨⟨⟩⟩)
  current := fun hne => absurd rfl hne
  pushing _ hp := absurd hp List.not_mem_nil
  at_ := trivial

/-- **Run.** However the accesses of the threads take turns, the producer list is shared safely as long as its nodes can be
    counted. -/
theorem producers_safe_of_reaches (h : Reaches (Step w) Countable (start initialOffset) s) : Safe w s := by
  obtain ⟨hm, hown⟩ := (relyGuarantee w).invariant h Inv.fresh (Local.Own.start initialOffset)
  refine ⟨fun t hpc stop => (hown t).isSome_access hm hpc stop w, hm.linked, fun t p hp => ?_, fun t p hp => ?_, ?_, fun hquiet => ?_,
    fun t => (hown t).token, ?_, ?_⟩
  · have hholds := (hown t).producerNode p hp
    refine ⟨hholds.added, hholds.type_eq, ?_, fun t' => ⟨fun hp' => ?_, fun hp' => ?_⟩⟩
    · rw [Bool.eq_false_iff, ne_eq, hm.user p hholds.added, hholds.user]
      rintro ⟨⟩
    · have htype := hholds.type_eq.symm.trans ((hown t').implicitProducer p hp').type_eq
      cases htype
    · exact Option.some.inj (((hown t').producerNode p hp').user.symm.trans hholds.user)
  · have hholds := (hown t).implicitProducer p hp
    refine ⟨hholds.added, hholds.type_eq, ?_, fun t' hp' => ?_⟩
    · rw [Bool.eq_false_iff, ne_eq, hm.user p hholds.added, hholds.user]
      rintro ⟨⟩
    · exact Option.some.inj (((hown t').implicitProducer p hp').user.symm.trans hholds.user)
  · rw [hm.count]
    exact Nat.le_add_right _ _
  · have hnone : s.memory.pushing = [] := by
      refine List.eq_nil_iff_forall_not_mem.mpr fun p hp => ?_
      obtain ⟨t, huser⟩ := hm.pushing p hp
      have hadding := (hown t).pushing p hp huser
      rw [hquiet t] at hadding
      cases hadding
    rw [hm.count, hnone, List.length_nil, Nat.add_zero]
  · intro t node seen list hpc hend
    have hat := (hown t).at_
    rw [hpc] at hat
    obtain ⟨rest, hlist, hnext⟩ := Pc.At.next_of_scanNext hm hat
    rw [hend] at hnext
    rw [hlist, List.head?_eq_none_iff.mp hnext.symm, List.append_nil]
  · intro t head node seen list p hpc hcurrent hend
    have hat := (hown t).at_
    rw [hpc] at hat
    obtain ⟨hfrom, p', before, rest, hcurrent', hp, hbefore, hround⟩ := hat
    obtain rfl := Option.some.inj (hcurrent.symm.trans hcurrent')
    rw [hfrom.step_round hm hp hbefore hround] at hend
    have hperm := hfrom.round_perm hm hp
    rw [hround] at hperm
    cases rest with
    | nil => rwa [List.append_nil] at hperm
    | cons q rest =>
        obtain rfl := Option.some.inj hend
        have hnodup := hperm.nodup_iff.mpr (hfrom.linked hm).nodup
        exact absurd (List.mem_append_right _ List.mem_cons_self) (List.nodup_cons.mp hnodup).1

theorem producers_safe_of_reaches_token : ∃ s : State Bool, Safe 64 s ∧ (s.threads true).producerNode = some 0 ∧
    (s.threads false).token.currentProducer = some 0 := by
  have haccess : ∀ {s s' : State Bool} {t : Bool} {r : Memory Bool × Local}, Reaches (Step 64) Countable s s' →
      s'.memory.nodeCount + 1 < 2 ^ 32 → access t false s'.memory (s'.threads t) 64 = some r →
      Reaches (Step 64) Countable s ⟨r.1, Function.update s'.threads t r.2⟩ :=
    fun {s s' t r} h hlt hr => h.tail ⟨(t, .access false), hlt, .of_eq rfl (.access hr)⟩
  have hcall : Reaches (Step 64) Countable (start fun _ => 0 : State Bool) _ :=
    .head (a := (true, .getProducerToken)) (.of_eq rfl (.getProducerToken rfl rfl)) (by decide : 0 + 1 < 2 ^ 32) (.refl _)
  have hcreate := haccess (t := true) hcall (by decide) rfl
  have hcount := haccess (t := true) hcreate (by decide) rfl
  have hload := haccess (t := true) hcount (by decide) rfl
  have hstore := haccess (t := true) hload (by decide) rfl
  have hpush := haccess (t := true) hstore (by decide) rfl
  have hdequeue := hpush.tail ⟨(false, .tryDequeueToken), (by decide : 1 + 1 < 2 ^ 32), .of_eq rfl (.tryDequeueToken rfl)⟩
  have hoffset := haccess (t := false) hdequeue (by decide) rfl
  have hhead := haccess (t := false) hoffset (by decide) rfl
  have hproducerCount := haccess (t := false) hhead (by decide) rfl
  have hglobal := haccess (t := false) hproducerCount (by decide) rfl
  have hfirst := haccess (t := false) hglobal (by decide) rfl
  have hsecond := haccess (t := false) hfirst (by decide) rfl
  exact ⟨_, producers_safe_of_reaches hsecond, rfl, rfl⟩

end Runs

end SharedProducers

end LockFreeStructures
