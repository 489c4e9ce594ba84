import LockFreeStructures.ConcurrentQueue.ConsumerToken
import LockFreeStructures.FastQueue.Size
import LockFreeStructures.SlowQueue.Size

/-!
# `ConcurrentQueue.Size` — how many elements the dequeues find

The counters of every producer belong together in all reachable states (`Counted.exec`), so a dequeue of a producer
gives what its size says. With it the walks round the other producers are read off the sizes at their start.
-/

namespace LockFreeStructures

namespace ConcurrentQueue

/-! ## One producer -/

namespace Producer

variable {α : Type}

/-- The head index is the difference of the two dequeue counters. -/
def Counted (cfg : Cfg) : Producer α → Prop
  | .explicit q => q.Counted cfg
  | .implicit q => q.Counted cfg

end Producer

namespace World

variable {K α : Type} {tr : Traits K} {w w' w'' : World K α} {S : Set ℕ} {p p' q t : ℕ} {ls : ℕ → List ℕ}

theorem newProducer_counted {type : ProducerType} {producer : Producer α} (h : newProducer tr type = some producer) :
    producer.Counted tr.toCfg := by
  have hzero : (0 : ℕ) = Word.sub tr.w 0 0 := by simp [Word.sub]
  cases type with
  | explicit =>
      simp only [newProducer] at h
      obtain ⟨s, hfresh, rfl⟩ := Option.map_eq_some_iff.mp h
      obtain ⟨⟨ok, s'⟩, hcreate, rfl⟩ := Option.map_eq_some_iff.mp hfresh
      have hstart : (FastQueue.unindexed tr.toCfg tr.initialExplicitQueueSize 0 [] : FastQueue α).Counted tr.toCfg :=
        hzero
      exact hstart.of_fixed (FastQueue.fixed_createNewBlockIndexArray hcreate)
  | implicit =>
      simp only [newProducer] at h
      obtain ⟨s, hfresh, rfl⟩ := Option.map_eq_some_iff.mp h
      obtain ⟨⟨ok, s'⟩, hcreate, rfl⟩ := Option.map_eq_some_iff.mp hfresh
      have hstart : (SlowQueue.unindexed tr.toCfg tr.initialImplicitQueueSize 0 [] : SlowQueue α).Counted tr.toCfg :=
        hzero
      exact hstart.of_fixed (SlowQueue.fixed_createNewBlockIndexArray hcreate)

/-- The counters of all producers belong together. -/
def Counted (tr : Traits K) (w : World K α) : Prop := ∀ p, (w.nodes p).producer.Counted tr.toCfg

/-- What a call of one producer does to that producer: the two kinds at once. -/
theorem Counted.onProducer {ρ : Type} {f : FastQueue α → Option (ρ × FastQueue α)}
    {g : SlowQueue α → Option (ρ × SlowQueue α)} {r : ρ} (h : Counted tr w) (R : ρ → ℕ → ℕ → Prop)
    (hf : ∀ {s s' r}, s.Counted tr.toCfg → f s = some (r, s') →
      s'.Counted tr.toCfg ∧ R r (s.size tr.toCfg) (s'.size tr.toCfg))
    (hg : ∀ {s s' r}, s.Counted tr.toCfg → g s = some (r, s') →
      s'.Counted tr.toCfg ∧ R r (s.size tr.toCfg) (s'.size tr.toCfg))
    (hcall : w.onProducer p f g = some (r, w')) :
    Counted tr w' ∧ R r (w.producerSize tr p) (w'.producerSize tr p) := by
  have hframe := onProducer_frame hcall
  have hother : (w'.nodes p).producer.Counted tr.toCfg → Counted tr w' := by
    intro hp p'
    by_cases heq : p' = p
    · exact heq ▸ hp
    · rw [hframe.outside p' heq]
      exact h p'
  have hp := h p
  unfold World.onProducer at hcall
  unfold producerSize
  cases hproducer : (w.nodes p).producer with
  | explicit s =>
      rw [hproducer] at hp
      simp only [hproducer] at hcall
      obtain ⟨⟨r', s'⟩, hqueue, heq⟩ := Option.map_eq_some_iff.mp hcall
      obtain ⟨rfl, rfl⟩ := Prod.mk.inj heq
      have hnode : ((w.storeExplicit p s').nodes p).producer = .explicit s' := by
        simp only [storeExplicit, modifyQueue, modifyNode, Function.update_self]
      rw [hnode] at hother ⊢
      obtain ⟨hcounted, hr⟩ := hf (s := loadExplicit s (w.queues (w.nodes p).manager)) hp hqueue
      exact ⟨hother hcounted, hr⟩
  | implicit s =>
      rw [hproducer] at hp
      simp only [hproducer] at hcall
      obtain ⟨⟨r', s'⟩, hqueue, heq⟩ := Option.map_eq_some_iff.mp hcall
      obtain ⟨rfl, rfl⟩ := Prod.mk.inj heq
      have hnode : ((w.storeImplicit p s').nodes p).producer = .implicit s' := by
        simp only [storeImplicit, modifyQueue, modifyNode, Function.update_self]
      rw [hnode] at hother ⊢
      obtain ⟨hcounted, hr⟩ := hg (s := loadImplicit s (w.queues (w.nodes p).manager)) hp hqueue
      exact ⟨hother hcounted, hr⟩

namespace Counted

theorem producerEnqueue {mode : AllocMode} {item : Option α} {allocs : List Bool} {r : Outcome Bool}
    (h : Counted tr w) (hcall : w.producerEnqueue tr p mode item allocs = some (r, w')) : Counted tr w' :=
  (h.onProducer (fun _ _ _ => True) (fun hs hcall => ⟨(hs.begin allocs).of_acquires (FastQueue.acquires_enqueue hcall),
    trivial⟩) (fun hs hcall => ⟨(hs.begin allocs).enqueue hcall, trivial⟩) hcall).1

theorem producerEnqueueBulk {mode : AllocMode} {items : List (Option α)} {allocs : List Bool} {r : Outcome Bool}
    (h : Counted tr w) (hcall : w.producerEnqueueBulk tr p mode items allocs = some (r, w')) : Counted tr w' :=
  (h.onProducer (fun _ _ _ => True) (fun hs hcall => ⟨(hs.begin allocs).of_acquires
    (FastQueue.acquires_enqueueBulk hcall), trivial⟩) (fun hs hcall => ⟨(hs.begin allocs).enqueueBulk hcall,
    trivial⟩) hcall).1

/-- **A dequeue of a producer** gives nothing just when the producer is empty. -/
theorem producerDequeue {r : Option α} (h : Counted tr w) (hcall : w.producerDequeue tr p = some (r, w')) :
    Counted tr w' ∧ (r = none ↔ w.producerSize tr p = 0) ∧ w'.producerSize tr p = w.producerSize tr p - 1 :=
  h.onProducer (fun r n n' => (r = none ↔ n = 0) ∧ n' = n - 1) (fun hs hcall => (hs.begin []).dequeue hcall)
    (fun hs hcall => (hs.begin []).dequeue hcall) hcall

/-- **A bulk dequeue** gives what is there, up to its bound. -/
theorem producerDequeueBulk {maxCount : ℕ} {as : List α} (h : Counted tr w)
    (hcall : w.producerDequeueBulk tr p maxCount = some (as, w')) :
    Counted tr w' ∧ as.length = min (w.producerSize tr p) maxCount ∧
      w'.producerSize tr p = w.producerSize tr p - as.length :=
  h.onProducer (fun as n n' => as.length = min n maxCount ∧ n' = n - as.length)
    (fun hs hcall => (hs.begin []).dequeueBulk hcall) (fun hs hcall => (hs.begin []).dequeueBulk hcall) hcall

end Counted

/-- Other producers keep their sizes. -/
theorem Frame.producerSize (h : Frame S w w') (hp : p ∉ S) : w'.producerSize tr p = w.producerSize tr p := by
  rw [World.producerSize, h.outside p hp, World.producerSize]

/-! ## Walks round the other producers -/

/-- A step of the loops that go round the producers. -/
def roundStep (next : ℕ → Option ℕ) (head : Option ℕ) (p : ℕ) : Option ℕ := (next p).or head

/-- The loop of `TryDequeue` finds an element if there is a producer that is not empty. -/
theorem Counted.dequeueOthers {head node : Option ℕ} {fuel c : ℕ} {ns : List ℕ} {tok tok' : ConsumerToken}
    {a : Option α} (h : Counted tr w) (hcurrent : tok.currentProducer = some c) (hc : c ∉ ns) (hnodup : ns.Nodup)
    (hpath : Path (roundStep w.next head) node ns c)
    (hcall : dequeueOthers tr head fuel node tok w = some (a, tok', w')) :
    Counted tr w' ∧ (((∀ n ∈ ns, w.producerSize tr n = 0) ∧ tok' = tok) ∨
      ((∃ n ∈ ns, w.producerSize tr n ≠ 0) ∧ tok'.itemsConsumed = 1)) := by
  induction fuel generalizing node w ns with
  | zero => exact absurd hcall (by rintro ⟨⟩)
  | succ fuel ih =>
      rw [World.dequeueOthers, hcurrent] at hcall
      cases ns with
      | nil =>
          obtain rfl : node = some c := hpath
          rw [if_pos rfl] at hcall
          simp only [Option.some.injEq, Prod.mk.injEq] at hcall
          obtain ⟨-, rfl, rfl⟩ := hcall
          exact ⟨h, Or.inl ⟨fun n hn => absurd hn List.not_mem_nil, rfl⟩⟩
      | cons n ns =>
          obtain ⟨rfl, hpath⟩ := hpath
          have hne : n ≠ c := fun heq => hc (heq ▸ List.mem_cons_self)
          rw [if_neg fun heq => hne (Option.some.inj heq)] at hcall
          simp only [Option.bind_eq_bind, Option.bind_some] at hcall
          obtain ⟨⟨r, w₁⟩, hdeq, hcall⟩ := Option.bind_eq_some_iff.mp hcall
          obtain ⟨h₁, hnone, -⟩ := h.producerDequeue hdeq
          have hframe := onProducer_frame hdeq
          cases r with
          | some a' =>
              simp only [Option.some.injEq, Prod.mk.injEq] at hcall
              obtain ⟨-, rfl, rfl⟩ := hcall
              exact ⟨h₁, Or.inr ⟨⟨n, List.mem_cons_self, fun hzero => absurd (hnone.mpr hzero) (by rintro ⟨⟩)⟩, rfl⟩⟩
          | none =>
              obtain ⟨hn, hnodup⟩ := List.nodup_cons.mp hnodup
              have hsize : ∀ n' ∈ ns, w₁.producerSize tr n' = w.producerSize tr n' := fun n' hn' =>
                hframe.producerSize fun heq => hn (Set.mem_singleton_iff.mp heq ▸ hn')
              rw [← hframe.next_eq] at hpath
              obtain ⟨h₂, hrest⟩ := ih h₁ (fun hmem => hc (List.mem_cons_of_mem _ hmem)) hnodup hpath hcall
              refine ⟨h₂, ?_⟩
              rcases hrest with ⟨hall, htok⟩ | ⟨⟨n', hn', hpos⟩, htok⟩
              · refine Or.inl ⟨fun n' hn' => ?_, htok⟩
                rcases List.mem_cons.mp hn' with rfl | hn'
                · exact hnone.mp rfl
                · rw [← hsize n' hn']
                  exact hall n' hn'
              · rw [hsize n' hn'] at hpos
                exact Or.inr ⟨⟨n', List.mem_cons_of_mem _ hn', hpos⟩, htok⟩

/-- The size of the last batch that is not empty when `need` elements are taken from producers of the given sizes
    in turn; `items` if there is none. -/
def lastBatch : List ℕ → ℕ → ℕ → ℕ
  | [], _, items => items
  | n :: ns, need, items => lastBatch ns (need - min n need) (if min n need = 0 then items else min n need)

@[simp] theorem lastBatch_zero (ns : List ℕ) (items : ℕ) : lastBatch ns 0 items = items := by
  induction ns with
  | nil => rfl
  | cons n ns ih => rw [lastBatch, Nat.min_zero, if_pos rfl, Nat.sub_zero, ih]

/-- Empty producers at the end give no batch. -/
theorem lastBatch_append_zeros {zs : List ℕ} (h : ∀ z ∈ zs, z = 0) (ns : List ℕ) (need items : ℕ) :
    lastBatch (ns ++ zs) need items = lastBatch ns need items := by
  induction ns generalizing need items with
  | cons n ns ih => exact ih _ _
  | nil =>
      rw [List.nil_append]
      induction zs with
      | nil => rfl
      | cons z zs ih =>
          have hz : z = 0 := h z List.mem_cons_self
          simp only [lastBatch, hz, Nat.zero_min, if_true, Nat.sub_zero]
          exact ih fun z hz => h z (List.mem_cons_of_mem _ hz)

/-- The loop of `TryDequeueBulk`, standing before the producers `ns` on its way round: `visited` are those it has
    come by since the token's producer. A batch makes the producer it came from the new end of the way, and all
    others are empty or still to come. -/
theorem Counted.dequeueBulkOthers {head node : Option ℕ} {fuel c need : ℕ} {visited ns : List ℕ}
    {tok tok' : ConsumerToken} {as : List α} (h : Counted tr w) (hcurrent : tok.currentProducer = some c)
    (hnodup : (c :: (visited ++ ns)).Nodup) (hround : Path (roundStep w.next head) (roundStep w.next head c)
      (visited ++ ns) c) (hpath : Path (roundStep w.next head) node ns c) (hneed : 0 < need)
    (hempty : ∀ n ∈ c :: visited, w.producerSize tr n = 0)
    (hcall : dequeueBulkOthers tr head fuel node need tok w = some (as, tok', w')) :
    Counted tr w' ∧ tok'.itemsConsumed = lastBatch (ns.map (w.producerSize tr)) need tok.itemsConsumed := by
  induction fuel generalizing node need tok w ns visited c as with
  | zero => exact absurd hcall nofun
  | succ fuel ih =>
      rw [World.dequeueBulkOthers, hcurrent] at hcall
      cases ns with
      | nil =>
          obtain rfl : node = some c := hpath
          rw [if_pos rfl] at hcall
          simp only [Option.some.injEq, Prod.mk.injEq] at hcall
          obtain ⟨-, rfl, rfl⟩ := hcall
          exact ⟨h, rfl⟩
      | cons n ns =>
          obtain ⟨rfl, hpath⟩ := hpath
          have hperm : (c :: (visited ++ n :: ns)).Perm (n :: (ns ++ c :: visited)) := by
            rw [← List.cons_append]
            exact List.perm_append_comm
          have hne : n ≠ c := by
            rintro rfl
            simp at hnodup
          rw [if_neg fun heq => hne (Option.some.inj heq)] at hcall
          simp only [Option.bind_eq_bind, Option.bind_some] at hcall
          obtain ⟨⟨as₁, w₁⟩, hdeq, hcall⟩ := Option.bind_eq_some_iff.mp hcall
          obtain ⟨h₁, hlen, hsize⟩ := h.producerDequeueBulk hdeq
          have hframe := onProducer_frame hdeq
          have hother : ∀ n' ∈ ns ++ c :: visited, w₁.producerSize tr n' = w.producerSize tr n' := by
            intro n' hn'
            refine hframe.producerSize fun heq => ?_
            exact (List.nodup_cons.mp (hperm.nodup_iff.mp hnodup)).1 (Set.mem_singleton_iff.mp heq ▸ hn')
          have hmap : ns.map (w₁.producerSize tr) = ns.map (w.producerSize tr) :=
            List.map_congr_left fun n' hn' => hother n' (List.mem_append_left _ hn')
          have hempty₁ : ∀ n' ∈ c :: visited, w₁.producerSize tr n' = 0 := fun n' hn' => by
            rw [hother n' (List.mem_append_right _ hn')]
            exact hempty n' hn'
          rw [← hframe.next_eq] at hround hpath
          rw [List.map_cons, lastBatch, ← hlen]
          simp only at hcall
          split at hcall
          · -- the batch is all that was needed
            rename_i hfull
            simp only [Option.some.injEq, Prod.mk.injEq] at hcall
            obtain ⟨-, rfl, rfl⟩ := hcall
            rw [hfull, Nat.sub_self, lastBatch_zero, if_pos hneed.ne', if_neg hneed.ne']
            exact ⟨h₁, rfl⟩
          · rename_i hpart
            obtain ⟨⟨as₂, tok₂, w₂⟩, hloop, hcall⟩ := Option.bind_eq_some_iff.mp hcall
            simp only [Option.some.injEq, Prod.mk.injEq] at hcall
            obtain ⟨-, rfl, rfl⟩ := hcall
            have hall : as₁.length = w.producerSize tr n := by omega
            have hneed₁ : 0 < need - as₁.length := by omega
            have hn : w₁.producerSize tr n = 0 := by rw [hsize, hall, Nat.sub_self]
            by_cases hzero : as₁.length = 0
            · rw [if_neg (not_not.mpr hzero)] at hloop
              rw [if_pos hzero]
              have hmoved : ∀ {l}, visited ++ n :: l = visited ++ [n] ++ l := by simp
              rw [hmoved] at hnodup hround
              obtain ⟨h₂, hitems⟩ := ih h₁ hcurrent hnodup hround hpath hneed₁ (by
                intro n' hn'
                rw [← List.cons_append, List.mem_append, List.mem_singleton] at hn'
                rcases hn' with hn' | rfl
                · exact hempty₁ n' hn'
                · exact hn) hloop
              exact ⟨h₂, by rw [hitems, hmap]⟩
            · rw [if_pos hzero] at hloop
              rw [if_neg hzero]
              obtain ⟨hto, hfrom⟩ := Path.append_cons.mp hround
              have hround₁ : Path (roundStep w₁.next head) (roundStep w₁.next head n) ([] ++ (ns ++ c :: visited)) n :=
                Path.append_cons.mpr ⟨hfrom, hto⟩
              have hpath₁ : Path (roundStep w₁.next head) ((w₁.next n).or head) (ns ++ c :: visited) n := hround₁
              have hnodup₁ : (n :: ([] ++ (ns ++ c :: visited))).Nodup := hperm.nodup_iff.mp hnodup
              obtain ⟨h₂, hitems⟩ := ih h₁ rfl hnodup₁ hround₁ hpath₁ hneed₁ (by
                intro n' hn'
                rw [List.mem_singleton.mp hn']
                exact hn) hloop
              refine ⟨h₂, ?_⟩
              rw [hitems, List.map_append, lastBatch_append_zeros, hmap]
              intro z hz
              obtain ⟨n', hn', rfl⟩ := List.mem_map.mp hz
              exact hempty₁ n' hn'

/-! ## Dequeues with a token -/

theorem roundStep_path (h : Listed w ls) (hp : p ∈ ls q) :
    Path (roundStep w.next (w.queues q).producerListsHead) ((w.next p).or (w.queues q).producerListsHead)
      (othersAfter p (ls q)) p ∧ (p :: othersAfter p (ls q)).Nodup := by
  obtain ⟨hpath, hperm⟩ := (h.linked q).path_round hp
  exact ⟨hpath, hperm.nodup_iff.mpr (h.linked q).nodup⟩

/-- A refreshed token knows the rotations of its queue. -/
theorem refresh_last {tok tok₁ : ConsumerToken} (h : w.refresh q tok = some (true, tok₁)) :
    tok₁.lastKnownGlobalOffset = (w.queues q).globalExplicitConsumerOffset ∧ tok₁.desiredProducer ≠ none := by
  rcases refresh_cases h with ⟨hdesired, hlast, -, rfl⟩ | ⟨-, hupdate⟩
  · exact ⟨hlast, hdesired⟩
  · rcases updateProducerForConsumer_cases hupdate with ⟨hok, -⟩ | ⟨-, -, start, p, -, -, rfl⟩
    · exact absurd hok nofun
    · exact ⟨rfl, nofun⟩

theorem refresh_false {tok tok₁ : ConsumerToken} (h : w.refresh q tok = some (false, tok₁)) :
    tok₁ = tok ∧ tok.desiredProducer = none := by
  rcases refresh_cases h with ⟨-, -, hok, -⟩ | ⟨-, hupdate⟩
  · exact absurd hok nofun
  · rcases updateProducerForConsumer_cases hupdate with ⟨-, rfl, hdesired, -⟩ | ⟨hok, -⟩
    · exact ⟨rfl, hdesired⟩
    · exact absurd hok nofun

theorem rotate_offset (q : ℕ) (w : World K α) : ((w.rotate q).queues q).globalExplicitConsumerOffset
    = Word.add 32 (w.queues q).globalExplicitConsumerOffset 1 := by
  simp only [rotate, modifyQueue, Function.update_self]

/-- The token, refreshed, has the producer `p`. -/
structure Refreshed (q : ℕ) (w : World K α) (tok tok₁ : ConsumerToken) (p : ℕ) : Prop where
  refresh : w.refresh q tok = some (true, tok₁)
  current : tok₁.currentProducer = some p

/-- **`TryDequeue( ConsumerToken& )`** counts an element of the token's producer, and rotates when the count is the
    quota. If that producer is empty it starts the count again at an element of another one. -/
theorem Counted.tryDequeueToken {tok tok' : ConsumerToken} {a : Option α} (h : Counted tr w) (hlisted : Listed w ls)
    (hin : ConsumerToken.In {p | p ∈ ls q} tok) (hcall : w.tryDequeueToken tr q tok = some (a, tok', w')) :
    Counted tr w' ∧ ((tok' = tok ∧ w.refresh q tok = some (false, tok)) ∨ ∃ tok₁ p, Refreshed q w tok tok₁ p ∧
      tok'.lastKnownGlobalOffset = (w.queues q).globalExplicitConsumerOffset ∧ tok'.desiredProducer ≠ none ∧
      ((0 < w.producerSize tr p ∧ tok'.itemsConsumed = Word.add tr.w tok₁.itemsConsumed 1 ∧
          (w'.queues q).globalExplicitConsumerOffset = if tok'.itemsConsumed = consumptionQuota then
            Word.add 32 (w.queues q).globalExplicitConsumerOffset 1 else (w.queues q).globalExplicitConsumerOffset) ∨
        (w.producerSize tr p = 0 ∧
          (w'.queues q).globalExplicitConsumerOffset = (w.queues q).globalExplicitConsumerOffset ∧
          (((∀ n ∈ othersAfter p (ls q), w.producerSize tr n = 0) ∧ tok'.itemsConsumed = tok₁.itemsConsumed) ∨
            ((∃ n ∈ othersAfter p (ls q), w.producerSize tr n ≠ 0) ∧ tok'.itemsConsumed = 1))))) := by
  obtain ⟨⟨ok, tok₁⟩, hrefresh, hcall⟩ := Option.bind_eq_some_iff.mp hcall
  cases ok with
  | false =>
      simp only [Bool.not_false, if_true, Option.some.injEq, Prod.mk.injEq] at hcall
      obtain ⟨-, rfl, rfl⟩ := hcall
      obtain rfl := (refresh_false hrefresh).1
      exact ⟨h, Or.inl ⟨rfl, hrefresh⟩⟩
  | true =>
      obtain ⟨hlast, hdesired⟩ := refresh_last hrefresh
      obtain ⟨p, hcurrent, hcall⟩ := Option.bind_eq_some_iff.mp hcall
      obtain ⟨⟨r, w₁⟩, hdeq, hcall⟩ := Option.bind_eq_some_iff.mp hcall
      obtain ⟨h₁, hnone, -⟩ := h.producerDequeue hdeq
      have hframe := onProducer_frame hdeq
      cases r with
      | some a' =>
          simp only [Option.some.injEq, Prod.mk.injEq] at hcall
          obtain ⟨-, rfl, rfl⟩ := hcall
          have hpos : 0 < w.producerSize tr p :=
            Nat.pos_of_ne_zero fun hzero => absurd (hnone.mpr hzero) nofun
          refine ⟨?_, Or.inr ⟨tok₁, p, ⟨hrefresh, hcurrent⟩, hlast, hdesired, Or.inl ⟨hpos, rfl, ?_⟩⟩⟩
          · split
            · exact h₁
            · exact h₁
          · split
            · rw [rotate_offset, hframe.offset]
            · exact hframe.offset q
      | none =>
          have hp : p ∈ ls q := (hin.refresh (hlisted.round q) hrefresh).current p hcurrent
          obtain ⟨hpath, hnodup⟩ := roundStep_path (hlisted.frame hframe) hp
          obtain ⟨hnotin, hothers⟩ := List.nodup_cons.mp hnodup
          obtain ⟨h₂, hloop⟩ := h₁.dequeueOthers hcurrent hnotin hothers hpath hcall
          obtain ⟨hframe', htok⟩ := dequeueOthers_cases (.univ q w₁) (fun _ _ => trivial) hcall
          have hsize : ∀ n ∈ othersAfter p (ls q), w₁.producerSize tr n = w.producerSize tr n := fun n hn =>
            hframe.producerSize fun heq => hnotin (Set.mem_singleton_iff.mp heq ▸ hn)
          have hkeep : tok'.lastKnownGlobalOffset = tok₁.lastKnownGlobalOffset ∧
              tok'.desiredProducer = tok₁.desiredProducer := by
            rcases htok with rfl | ⟨p', -, rfl⟩
            · exact ⟨rfl, rfl⟩
            · exact ⟨rfl, rfl⟩
          refine ⟨h₂, Or.inr ⟨tok₁, p, ⟨hrefresh, hcurrent⟩, hkeep.1.trans hlast, hkeep.2 ▸ hdesired,
            Or.inr ⟨hnone.mp rfl, (hframe'.offset q).trans (hframe.offset q), ?_⟩⟩⟩
          rcases hloop with ⟨hall, rfl⟩ | ⟨⟨n, hn, hpos⟩, hitems⟩
          · exact Or.inl ⟨fun n hn => (hsize n hn).symm.trans (hall n hn), rfl⟩
          · exact Or.inr ⟨⟨n, hn, (hsize n hn).symm.trans_ne hpos⟩, hitems⟩

/-- **`TryDequeueBulk( ConsumerToken& )`** counts a whole batch of the token's producer, and rotates when the count
    has reached the quota. Else the last batch of the other producers, if there is one, is the new count. -/
theorem Counted.tryDequeueBulkToken {maxCount : ℕ} {tok tok' : ConsumerToken} {as : List α} (h : Counted tr w)
    (hlisted : Listed w ls) (hin : ConsumerToken.In {p | p ∈ ls q} tok)
    (hcall : w.tryDequeueBulkToken tr q maxCount tok = some (as, tok', w')) :
    Counted tr w' ∧ ((tok' = tok ∧ w.refresh q tok = some (false, tok)) ∨ ∃ tok₁ p, Refreshed q w tok tok₁ p ∧
      tok'.lastKnownGlobalOffset = (w.queues q).globalExplicitConsumerOffset ∧ tok'.desiredProducer ≠ none ∧
      ((maxCount ≤ w.producerSize tr p ∧ tok'.itemsConsumed = Word.add tr.w tok₁.itemsConsumed maxCount ∧
          (w'.queues q).globalExplicitConsumerOffset =
            if consumptionQuota ≤ tok'.itemsConsumed ∨ consumptionQuota ≤ maxCount then
              Word.add 32 (w.queues q).globalExplicitConsumerOffset 1
            else (w.queues q).globalExplicitConsumerOffset) ∨
        (w.producerSize tr p < maxCount ∧
          (w'.queues q).globalExplicitConsumerOffset = (w.queues q).globalExplicitConsumerOffset ∧
          tok'.itemsConsumed = lastBatch ((othersAfter p (ls q)).map (w.producerSize tr))
            (maxCount - w.producerSize tr p) (Word.add tr.w tok₁.itemsConsumed (w.producerSize tr p))))) := by
  obtain ⟨⟨ok, tok₁⟩, hrefresh, hcall⟩ := Option.bind_eq_some_iff.mp hcall
  cases ok with
  | false =>
      simp only [Bool.not_false, if_true, Option.some.injEq, Prod.mk.injEq] at hcall
      obtain ⟨-, rfl, rfl⟩ := hcall
      obtain rfl := (refresh_false hrefresh).1
      exact ⟨h, Or.inl ⟨rfl, hrefresh⟩⟩
  | true =>
      obtain ⟨hlast, hdesired⟩ := refresh_last hrefresh
      obtain ⟨p, hcurrent, hcall⟩ := Option.bind_eq_some_iff.mp hcall
      obtain ⟨⟨as₁, w₁⟩, hdeq, hcall⟩ := Option.bind_eq_some_iff.mp hcall
      obtain ⟨h₁, hlen, hsize₁⟩ := h.producerDequeueBulk hdeq
      have hframe := onProducer_frame hdeq
      simp only at hcall
      split at hcall
      · rename_i hfull
        simp only [Option.some.injEq, Prod.mk.injEq] at hcall
        obtain ⟨-, rfl, rfl⟩ := hcall
        have hle : maxCount ≤ w.producerSize tr p := by omega
        rw [hfull]
        refine ⟨?_, Or.inr ⟨tok₁, p, ⟨hrefresh, hcurrent⟩, hlast, hdesired, Or.inl ⟨hle, rfl, ?_⟩⟩⟩
        · split
          · exact h₁
          · exact h₁
        · split
          · rw [rotate_offset, hframe.offset]
          · exact hframe.offset q
      · rename_i hpart
        have hall : as₁.length = w.producerSize tr p := by omega
        obtain ⟨⟨as₂, tok₂, w₂⟩, hloop, hcall⟩ := Option.bind_eq_some_iff.mp hcall
        simp only [Option.some.injEq, Prod.mk.injEq] at hcall
        obtain ⟨-, rfl, rfl⟩ := hcall
        have hp : p ∈ ls q := (hin.refresh (hlisted.round q) hrefresh).current p hcurrent
        obtain ⟨hpath, hnodup⟩ := roundStep_path (hlisted.frame hframe) hp
        have hempty : ∀ n ∈ [p], w₁.producerSize tr n = 0 := fun n hn => by
          rw [List.mem_singleton.mp hn, hsize₁, hall, Nat.sub_self]
        have hround : Path (roundStep w₁.next (w₁.queues q).producerListsHead)
            (roundStep w₁.next (w₁.queues q).producerListsHead p) ([] ++ othersAfter p (ls q)) p := hpath
        have hneed : 0 < maxCount - as₁.length := by omega
        have hnodup₁ : (p :: ([] ++ othersAfter p (ls q))).Nodup := hnodup
        have hcurrent₁ : { tok₁ with itemsConsumed := Word.add tr.w tok₁.itemsConsumed as₁.length }.currentProducer
            = some p := hcurrent
        obtain ⟨h₂, hitems⟩ := h₁.dequeueBulkOthers hcurrent₁ hnodup₁ hround hpath hneed hempty hloop
        obtain ⟨hframe', htok⟩ := dequeueBulkOthers_cases (.univ q w₁) (fun _ _ => trivial) hloop
        have hsize : (othersAfter p (ls q)).map (w₁.producerSize tr) = (othersAfter p (ls q)).map (w.producerSize tr) :=
          List.map_congr_left fun n hn => hframe.producerSize fun heq =>
            (List.nodup_cons.mp hnodup).1 (Set.mem_singleton_iff.mp heq ▸ hn)
        have hkeep : tok₂.lastKnownGlobalOffset = tok₁.lastKnownGlobalOffset ∧
            tok₂.desiredProducer = tok₁.desiredProducer := by
          rcases htok with rfl | ⟨p', -, n, rfl⟩
          · exact ⟨rfl, rfl⟩
          · exact ⟨rfl, rfl⟩
        refine ⟨h₂, Or.inr ⟨tok₁, p, ⟨hrefresh, hcurrent⟩, hkeep.1.trans hlast, hkeep.2 ▸ hdesired,
          Or.inr ⟨by omega, (hframe'.offset q).trans (hframe.offset q), ?_⟩⟩⟩
        rw [hitems, hsize, hall]

/-! ## The counters through a call -/

namespace Counted

theorem fresh (tr : Traits K) (pools : ℕ → ℕ × ℕ) : Counted tr (World.fresh tr pools : World K α) := fun _ => by
  simp [World.fresh, Producer.Counted, FastQueue.Counted, FastQueue.unindexed, Word.sub]

theorem dequeueFirst {skip : Option ℕ} {ps : List ℕ} {a : Option α} (h : Counted tr w)
    (hcall : World.dequeueFirst tr skip ps w = some (a, w')) : Counted tr w' := by
  induction ps generalizing w with
  | nil =>
      obtain ⟨-, rfl⟩ := Prod.mk.inj (Option.some.inj hcall)
      exact h
  | cons p ps ih =>
      rw [World.dequeueFirst] at hcall
      split at hcall
      · exact ih h hcall
      · obtain ⟨⟨r, w₁⟩, hdeq, hcall⟩ := Option.bind_eq_some_iff.mp hcall
        have h₁ := (h.producerDequeue hdeq).1
        cases r with
        | some a' =>
            obtain ⟨-, rfl⟩ := Prod.mk.inj (Option.some.inj hcall)
            exact h₁
        | none => exact ih h₁ hcall

theorem dequeueBulkFirst {ps : List ℕ} {need : ℕ} {as : List α} (h : Counted tr w)
    (hcall : World.dequeueBulkFirst tr ps need w = some (as, w')) : Counted tr w' := by
  induction ps generalizing w need as with
  | nil =>
      obtain ⟨-, rfl⟩ := Prod.mk.inj (Option.some.inj hcall)
      exact h
  | cons p ps ih =>
      obtain ⟨⟨as₁, w₁⟩, hdeq, hcall⟩ := Option.bind_eq_some_iff.mp hcall
      have h₁ := (h.producerDequeueBulk hdeq).1
      simp only at hcall
      split at hcall
      · obtain ⟨-, rfl⟩ := Prod.mk.inj (Option.some.inj hcall)
        exact h₁
      · obtain ⟨⟨as₂, w₂⟩, hloop, hcall⟩ := Option.bind_eq_some_iff.mp hcall
        obtain ⟨-, rfl⟩ := Prod.mk.inj (Option.some.inj hcall)
        exact ih h₁ hloop

theorem tryDequeue {a : Option α} (h : Counted tr w) (hcall : w.tryDequeue tr q = some (a, w')) : Counted tr w' := by
  obtain ⟨ps, -, hcall⟩ := Option.bind_eq_some_iff.mp hcall
  simp only at hcall
  split at hcall
  · obtain ⟨best, -, hcall⟩ := Option.bind_eq_some_iff.mp hcall
    obtain ⟨⟨r, w₁⟩, hdeq, hcall⟩ := Option.bind_eq_some_iff.mp hcall
    have h₁ := (h.producerDequeue hdeq).1
    cases r with
    | some a' =>
        obtain ⟨-, rfl⟩ := Prod.mk.inj (Option.some.inj hcall)
        exact h₁
    | none => exact h₁.dequeueFirst hcall
  · obtain ⟨-, rfl⟩ := Prod.mk.inj (Option.some.inj hcall)
    exact h

/-- A node that is found or created. -/
theorem getProducerListNode {type : ProducerType} (h : Counted tr w)
    (hget : w.getProducerListNode tr q type = some (p, w')) : Counted tr w' := by
  obtain ⟨ps, -, hget⟩ := Option.bind_eq_some_iff.mp hget
  have hnode : ∀ (w₁ : World K α) (p₁ : ℕ) (f : ProducerListNode α → ProducerListNode α), Counted tr w₁ →
      (f (w₁.nodes p₁)).producer.Counted tr.toCfg → Counted tr (w₁.modifyNode p₁ f) := by
    intro w₁ p₁ f h₁ hf p'
    by_cases hp : p' = p₁
    · subst hp
      simpa only [modifyNode, Function.update_self] using hf
    · simpa only [modifyNode, Function.update_of_ne hp] using h₁ p'
  simp only at hget
  split at hget
  · obtain ⟨-, rfl⟩ := Prod.mk.inj (Option.some.inj hget)
    exact hnode w _ _ h (h _)
  · obtain ⟨⟨p₁, w₁⟩, hcreate, hget⟩ := Option.bind_eq_some_iff.mp hget
    obtain ⟨-, rfl⟩ := Prod.mk.inj (Option.some.inj hget)
    obtain ⟨producer, hproducer, hcreate⟩ := Option.bind_eq_some_iff.mp hcreate
    obtain ⟨rfl, rfl⟩ := Prod.mk.inj (Option.some.inj hcreate)
    have hcreated := hnode w w.nodeCount (fun _ => ⟨none, false, producer, q⟩) h (newProducer_counted hproducer)
    exact hnode _ w.nodeCount (fun n => { n with next := _ }) hcreated (hcreated w.nodeCount)

theorem getOrAddImplicitProducer [DecidableEq K] {thread : K} (h : Counted tr w)
    (hget : w.getOrAddImplicitProducer tr q thread = some (p, w')) : Counted tr w' := by
  obtain ⟨t, w₁, rfl, rfl | ⟨t', w₂, hnode, rfl⟩⟩ := getOrAddImplicitProducer_cases hget
  · exact h
  · have hmap : Counted tr (w.modifyQueue q fun c => { c with implicitMap := t }) := h
    have hgot := hmap.getProducerListNode hnode
    exact hgot

/-- **Step.** -/
theorem exec [DecidableEq K] {home : ℕ → ℕ} {op : Op K α} {r : Reply α} (h : Counted tr w) (hhomed : Homed home w ls)
    (hop : op.AtHome home) (hexec : w.exec tr op = some (r, w')) : Counted tr w' := by
  cases op with
  | getProducerToken q t =>
      obtain ⟨⟨p, w₁⟩, hnode, hexec⟩ := Option.bind_eq_some_iff.mp hexec
      simp only [constructProducerToken, Option.ite_none_right_eq_some, Option.some.injEq, Prod.mk.injEq] at hexec
      obtain ⟨-, -, rfl⟩ := hexec
      have hgot := h.getProducerListNode hnode
      exact hgot
  | moveProducerToken t t' =>
      obtain ⟨b, -, hexec⟩ := Option.bind_eq_some_iff.mp hexec
      simp only [Option.ite_none_left_eq_some, constructProducerToken, Option.ite_none_right_eq_some,
        Option.some.injEq, Prod.mk.injEq] at hexec
      obtain ⟨-, -, -, rfl⟩ := hexec
      exact h
  | assignProducerToken t t' | swapProducerTokens t t' =>
      obtain ⟨a, -, hexec⟩ := Option.bind_eq_some_iff.mp hexec
      obtain ⟨b, -, hexec⟩ := Option.bind_eq_some_iff.mp hexec
      obtain ⟨-, rfl⟩ := Prod.mk.inj (Option.some.inj hexec)
      exact h
  | destroyProducerToken t =>
      obtain ⟨⟨node⟩, -, hexec⟩ := Option.bind_eq_some_iff.mp hexec
      obtain ⟨-, rfl⟩ := Prod.mk.inj (Option.some.inj hexec)
      cases node with
      | none => exact h
      | some p =>
          intro p'
          by_cases hp : p' = p
          · subst hp
            simpa only [setProducerToken, modifyNode, Function.update_self] using h p'
          · simpa only [setProducerToken, modifyNode, Function.update_of_ne hp] using h p'
  | getConsumerToken q t =>
      simp only [World.exec, constructConsumerToken, Option.ite_none_right_eq_some, Option.some.injEq,
        Prod.mk.injEq] at hexec
      obtain ⟨-, -, rfl⟩ := hexec
      exact h
  | moveConsumerToken t t' =>
      obtain ⟨b, -, hexec⟩ := Option.bind_eq_some_iff.mp hexec
      simp only [constructConsumerToken, Option.ite_none_right_eq_some, Option.some.injEq, Prod.mk.injEq] at hexec
      obtain ⟨-, -, rfl⟩ := hexec
      exact h
  | assignConsumerToken t t' | swapConsumerTokens t t' => exact hop.elim
  | enqueue q thread mode item allocs =>
      obtain ⟨⟨p, w₁⟩, hnode, hexec⟩ := Option.bind_eq_some_iff.mp hexec
      obtain ⟨⟨o, w₂⟩, henq, hexec⟩ := Option.bind_eq_some_iff.mp hexec
      obtain ⟨-, rfl⟩ := Prod.mk.inj (Option.some.inj hexec)
      exact (h.getOrAddImplicitProducer hnode).producerEnqueue henq
  | enqueueBulk q thread mode items allocs =>
      obtain ⟨⟨p, w₁⟩, hnode, hexec⟩ := Option.bind_eq_some_iff.mp hexec
      obtain ⟨⟨o, w₂⟩, henq, hexec⟩ := Option.bind_eq_some_iff.mp hexec
      obtain ⟨-, rfl⟩ := Prod.mk.inj (Option.some.inj hexec)
      exact (h.getOrAddImplicitProducer hnode).producerEnqueueBulk henq
  | enqueueWithToken t item allocs =>
      obtain ⟨p, -, hexec⟩ := Option.bind_eq_some_iff.mp hexec
      obtain ⟨⟨o, w₁⟩, henq, hexec⟩ := Option.bind_eq_some_iff.mp hexec
      obtain ⟨-, rfl⟩ := Prod.mk.inj (Option.some.inj hexec)
      exact h.producerEnqueue henq
  | enqueueBulkWithToken t mode items allocs =>
      obtain ⟨p, -, hexec⟩ := Option.bind_eq_some_iff.mp hexec
      obtain ⟨⟨o, w₁⟩, henq, hexec⟩ := Option.bind_eq_some_iff.mp hexec
      obtain ⟨-, rfl⟩ := Prod.mk.inj (Option.some.inj hexec)
      exact h.producerEnqueueBulk henq
  | tryDequeue q =>
      obtain ⟨⟨a, w₁⟩, hdeq, hexec⟩ := Option.bind_eq_some_iff.mp hexec
      obtain ⟨-, rfl⟩ := Prod.mk.inj (Option.some.inj hexec)
      exact h.tryDequeue hdeq
  | tryDequeueNonInterleaved q =>
      obtain ⟨⟨a, w₁⟩, hdeq, hexec⟩ := Option.bind_eq_some_iff.mp hexec
      obtain ⟨-, rfl⟩ := Prod.mk.inj (Option.some.inj hexec)
      obtain ⟨ps, -, hdeq⟩ := Option.bind_eq_some_iff.mp hdeq
      exact h.dequeueFirst hdeq
  | tryDequeueBulk q maxCount =>
      obtain ⟨⟨as, w₁⟩, hdeq, hexec⟩ := Option.bind_eq_some_iff.mp hexec
      obtain ⟨-, rfl⟩ := Prod.mk.inj (Option.some.inj hexec)
      obtain ⟨ps, -, hdeq⟩ := Option.bind_eq_some_iff.mp hdeq
      exact h.dequeueBulkFirst hdeq
  | tryDequeueToken q t =>
      obtain ⟨tok, ht, hexec⟩ := Option.bind_eq_some_iff.mp hexec
      obtain ⟨⟨a, tok', w₁⟩, hdeq, hexec⟩ := Option.bind_eq_some_iff.mp hexec
      obtain ⟨-, rfl⟩ := Prod.mk.inj (Option.some.inj hexec)
      obtain rfl : q = home t := hop
      exact (h.tryDequeueToken hhomed.listed (hhomed.tokens t tok ht) hdeq).1
  | tryDequeueBulkToken q t maxCount =>
      obtain ⟨tok, ht, hexec⟩ := Option.bind_eq_some_iff.mp hexec
      obtain ⟨⟨as, tok', w₁⟩, hdeq, hexec⟩ := Option.bind_eq_some_iff.mp hexec
      obtain ⟨-, rfl⟩ := Prod.mk.inj (Option.some.inj hexec)
      obtain rfl : q = home t := hop
      exact (h.tryDequeueBulkToken hhomed.listed (hhomed.tokens t tok ht) hdeq).1
  | tryDequeueFromProducer t =>
      obtain ⟨p, -, hexec⟩ := Option.bind_eq_some_iff.mp hexec
      obtain ⟨⟨a, w₁⟩, hdeq, hexec⟩ := Option.bind_eq_some_iff.mp hexec
      obtain ⟨-, rfl⟩ := Prod.mk.inj (Option.some.inj hexec)
      exact (h.producerDequeue hdeq).1
  | tryDequeueBulkFromProducer t maxCount =>
      obtain ⟨p, -, hexec⟩ := Option.bind_eq_some_iff.mp hexec
      obtain ⟨⟨as, w₁⟩, hdeq, hexec⟩ := Option.bind_eq_some_iff.mp hexec
      obtain ⟨-, rfl⟩ := Prod.mk.inj (Option.some.inj hexec)
      exact (h.producerDequeueBulk hdeq).1
  | size q =>
      obtain ⟨n, -, hexec⟩ := Option.map_eq_some_iff.mp hexec
      obtain ⟨-, rfl⟩ := Prod.mk.inj hexec
      exact h

end Counted

end World

end ConcurrentQueue

end LockFreeStructures
