import Mathlib.Data.Fintype.Basic
import LockFreeStructures.HashTable.Sharing

/-!
# `HashTable.SharedKey` — what the threads with one key do to it

`InnerAdd` does not look whether its key has come into the table meanwhile, `InnerGetEntry` not whether another
thread is promoting the same key, and neither waits for the value of a slot whose key it sees. `Spaced` are the
runs whose calls keep out of each other's way as far as it takes, and `Effect` says what a step does to the key
that has a value where it looks for one and no slot where it puts one.
-/

namespace LockFreeStructures

namespace HashTable

namespace Concurrent

open Memory

section Calls

variable {V : Type}

/-- `Get`, `Set` or `GetOrAdd`. -/
def Call.Plain : Call V → Prop
  | .getOrAddByFunc _ => False
  | _ => True

def Call.isSet : Call V → Bool
  | .set _ => true
  | _ => false

/-- The call may insert its key. -/
def Call.mayAdd : Call V → Bool
  | .get => false
  | _ => true

/-- The value that a call reports. -/
def Result.value : Result V → Option (Option V)
  | .got v => some v
  | .gotOrAdded _ v => some v
  | _ => none

/-- The call that a thread begins. -/
def Act.called : Act V → Option (Call V)
  | .call c => some c
  | _ => none

theorem Act.eq_call {a : Act V} {c : Call V} (h : a.called = some c) : a = .call c := by
  cases a with
  | call c' =>
      cases h
      rfl
  | access => cases h
  | throws => cases h

def Result.isAdd : Result V → Bool
  | .gotOrAdded .addSuccess _ => true
  | _ => false

end Calls

namespace Pc

variable {K V : Type}

/-- The call that is about to load `MainHash`. -/
def loading : Pc V → Option (Call V)
  | .load c => some c
  | _ => none

/-- The call that has loaded `MainHash`. -/
def underWay : Pc V → Option (Call V)
  | .load _ => none
  | pc => pc.call

/-- The slot whose value the next access reads for the call, or replaces. -/
def uses : Pc V → Option (ℕ × ℕ)
  | .readValue _ main cur i => if cur = main then none else some (cur, i)
  | .found _ main i => some (main, i)
  | _ => none

/-- The table a value is being promoted to, and the value. -/
def carries : Pc V → Option (ℕ × Option V)
  | .promote _ main _ v => some (main, v)
  | .promoteStore _ main _ v => some (main, v)
  | _ => none

/-- The value that the next access stores for the call. -/
def stored : Pc V → Option V
  | .found (.set v) _ _ => some v
  | .store _ v _ _ => some v
  | _ => none

/-- Where `InnerGetEntry` is: the table it began with, and the one it searches. -/
def searched : Pc V → Option (ℕ × ℕ)
  | .find _ main cur _ => some (main, cur)
  | .readValue _ main cur _ => some (main, cur)
  | _ => none

/-- What `InnerAdd` is given is the call's. -/
def Plain (pc : Pc V) : Prop :=
  (∀ c, pc.call = some c → c.Plain) ∧ ∀ v, pc.adding = some v → pc.call = some (.set v) ∨ pc.call = some (.getOrAdd v)

/-- The value that the next access reads is there, and `InnerAdd` has not been overtaken. -/
def Tidy (k : K) (m : Memory K V) : Pc V → Prop
  | .readValue _ main cur i => cur = main ∨ (m.nodes cur).second i ≠ none
  | .found _ main i => (m.nodes main).second i ≠ none
  | .exchange _ _ _ _ => m.Lacks k
  | _ => True

end Pc

namespace Shared

variable {T K V : Type} {hash : K → ℕ} {w e : ℕ} {k : K} {m m' : Memory K V} {n i j : ℕ} {v : V} {o : Option V}
  {pc pc' : Pc V} {r : Memory K V × Pc V} {key : T → K} {S S' : Set V}

/-- The threads with the key only call `Get`, `Set` and `GetOrAdd`. -/
def PlainCalls (key : T → K) (k : K) (_ : State T K V) (a : T × Act V) : Prop :=
  key a.1 = k → ∀ c, a.2 = .call c → c.Plain

/-- A call may join another on the same key: where one of them is a `Set`, in a table that has the key, and
    where both may insert the key, once some table has it. -/
structure MayJoin (k : K) (m : Memory K V) (c c' : Call V) : Prop where
  set : (c.isSet || c'.isSet) = true → ∃ i, m.Owns k m.mainHash i
  add : (c.mayAdd && c'.mayAdd) = true → ¬ m.Lacks k

/-- The call that the thread begins with its load of `MainHash` may join those under way. -/
def Joins (key : T → K) (k : K) (s : State T K V) (t : T) : Prop :=
  ∀ c, (s.threads t).loading = some c → ∀ t', t' ≠ t → key t' = k → ∀ c', (s.threads t').underWay = some c' →
    MayJoin k s.memory c c'

/-- No other thread has given the slot its key and not its value yet. -/
def Settled (key : T → K) (k : K) (s : State T K V) (t : T) : Prop :=
  ∀ slot, (s.threads t).uses = some slot → ∀ t', t' ≠ t → key t' = k → (s.threads t').pending ≠ some slot

/-- The calls on the key join others only where they may, and none of them goes to a slot between the exchange
    that gives it the key and the store of its value. -/
structure Spaced (key : T → K) (k : K) (s : State T K V) (a : T × Act V) : Prop where
  plain : PlainCalls key k s a
  joins : key a.1 = k → a.2 = .access → Joins key k s a.1
  settled : key a.1 = k → a.2 = .access → Settled key k s a.1

section Decidable

variable [DecidableEq K]

instance (c : Call V) : Decidable c.Plain :=
  match c with
  | .getOrAddByFunc _ => .isFalse id
  | .get | .set _ | .getOrAdd _ => .isTrue trivial

instance (k : K) (m : Memory K V) (n : ℕ) : Decidable (∃ i, m.Owns k n i) :=
  decidable_of_iff (n ≤ m.mainHash ∧ ∃ i < (m.nodes n).capacity, (m.nodes n).first i = some k)
    ⟨fun ⟨hn, i, hi, hf⟩ => ⟨i, hn, hi, hf⟩, fun ⟨i, hn, hi, hf⟩ => ⟨hn, i, hi, hf⟩⟩

instance (k : K) (m : Memory K V) : Decidable (m.Lacks k) :=
  decidable_of_iff (∀ n ≤ m.mainHash, ∀ i < (m.nodes n).capacity, (m.nodes n).first i ≠ some k)
    ⟨fun h n i ho => h n ho.1 i ho.2.1 ho.2.2, fun h n hn i hi hf => h n i ⟨hn, hi, hf⟩⟩

instance (k : K) (m : Memory K V) (c c' : Call V) : Decidable (MayJoin k m c c') :=
  decidable_of_iff (((c.isSet || c'.isSet) = true → ∃ i, m.Owns k m.mainHash i) ∧
    ((c.mayAdd && c'.mayAdd) = true → ¬ m.Lacks k)) ⟨fun h => ⟨h.1, h.2⟩, fun h => ⟨h.set, h.add⟩⟩

section Threads

variable [Fintype T] [DecidableEq T] (key : T → K) (k : K) (s : State T K V)

instance (t : T) : Decidable (Joins key k s t) :=
  decidable_of_iff (∀ c ∈ (s.threads t).loading, ∀ t', t' ≠ t → key t' = k →
    ∀ c' ∈ (s.threads t').underWay, MayJoin k s.memory c c') Iff.rfl

instance (t : T) : Decidable (Settled key k s t) :=
  decidable_of_iff (∀ slot ∈ (s.threads t).uses, ∀ t', t' ≠ t → key t' = k → (s.threads t').pending ≠ some slot) Iff.rfl

instance [DecidableEq V] (a : T × Act V) : Decidable (Spaced key k s a) :=
  decidable_of_iff ((key a.1 = k → ∀ c ∈ a.2.called, c.Plain) ∧
      (key a.1 = k → a.2 = .access → Joins key k s a.1) ∧ (key a.1 = k → a.2 = .access → Settled key k s a.1))
    ⟨fun h => ⟨fun hkey c hc => h.1 hkey c (congrArg Act.called hc), h.2.1, h.2.2⟩,
      fun h => ⟨fun hkey c hc => h.plain hkey c (Act.eq_call hc), h.joins, h.settled⟩⟩

end Threads

end Decidable

/-! ## What a step does to the key -/

/-- What a thread with the key does to it, the step being a tidy one. -/
inductive Effect (hash : K → ℕ) (k : K) (m : Memory K V) [DecidableEq K] : Pc V → Memory K V × Pc V → Prop
  | call (c : Call V) (hc : c.Plain) : Effect hash k m .idle (m, .load c)
  | throws {c : Call V} {v : V} {main newCapacity newCount : ℕ} :
      Effect hash k m (.publish c v main newCapacity newCount) (m, .idle)
  /-- The thread moves, or does something to the other keys only. -/
  | quiet {pc pc' : Pc V} {m' : Memory K V} (leaves : Leaves k m m') (call : pc'.call = pc.call) (plain : pc'.Plain)
      (stored : pc.stored = none) (before : pc.pending = none) (pending : pc'.pending = none)
      (carries : pc'.carries = none ∨ pc'.carries = pc.carries)
      (searched : ∀ main cur, pc'.searched = some (main, cur) →
        pc.loading ≠ none ∧ cur = main ∧ main = m.mainHash ∨
        ∃ cur₀, pc.searched = some (main, cur₀) ∧ cur ≤ cur₀ ∧ ∀ n i, m.Owns k n i → cur < n → cur₀ < n)
      (adding : ∀ v, pc'.adding = some v → pc.adding = some v ∨
        ∃ main cur, pc.searched = some (main, cur) ∧ ∀ n i, m.Owns k n i → cur < n) :
      Effect hash k m pc (m', pc')
  | miss {main d : ℕ} : Effect hash k m (.find .get main 0 d) (m.finish k .get .notGot)
  | carry {c : Call V} {main cur i : ℕ} {v : V} (hlt : cur < main) (hf : m.Finds hash k cur i)
      (hv : (m.nodes cur).second i = some v) : Effect hash k m (.readValue c main cur i) (m, .promote c main 0 (some v))
  | claim {c : Call V} {main i d : ℕ} {o : Option V} (hn : main ≤ m.mainHash) (hi : i < (m.nodes main).capacity)
      (hfree : (m.nodes main).first i = none) (hold : ∃ n < main, ∃ i, m.Owns k n i)
      (hk : (m.fill main i k).Reached hash k) :
      Effect hash k m (.promote c main d o) (m.fill main i k, .promoteStore c main i o)
  | place {c : Call V} {main i : ℕ} {o : Option V} (ho : m.Owns k main i) :
      Effect hash k m (.promoteStore c main i o) (m.storeSecond main i o, .found c main i)
  | report {c : Call V} {main i : ℕ} {v : V} {r : Result V} (ho : m.Owns k main i)
      (hv : (m.nodes main).second i = some v)
      (hr : c = .get ∧ r = .got (some v) ∨ (∃ v', c = .getOrAdd v') ∧ r = .gotOrAdded .getSuccess (some v)) :
      Effect hash k m (.found c main i) (m.finish k c r)
  | overwrite {main i : ℕ} {v : V} (ho : m.Owns k main i) (hv : (m.nodes main).second i ≠ none) :
      Effect hash k m (.found (.set v) main i) ((m.storeSecond main i (some v)).finish k (.set v) .set)
  | insert {c : Call V} {v : V} {main i d : ℕ} (hn : main ≤ m.mainHash) (hi : i < (m.nodes main).capacity)
      (hfree : (m.nodes main).first i = none) (hl : m.Lacks k) (hk : (m.fill main i k).Reached hash k) :
      Effect hash k m (.exchange c v main d) (m.fill main i k, .store c v main i)
  | put {c : Call V} {v : V} {main i : ℕ} {r : Result V} (ho : m.Owns k main i)
      (hr : c = .set v ∧ r = .set ∨ c = .getOrAdd v ∧ r = .gotOrAdded .addSuccess (some v)) :
      Effect hash k m (.store c v main i) ((m.storeSecond main i (some v)).finish k c r)

/-- `InnerAdd` at a step that is neither the exchange of a slot's key nor the store of its value. -/
structure Adds (c : Call V) (v : V) (pc : Pc V) : Prop where
  call : pc.call = some c
  adding : pc.adding = some v
  pending : pc.pending = none
  carries : pc.carries = none
  searched : pc.searched = none

theorem checkSpace_adds (c : Call V) (v : V) (main newCount : ℕ) : Adds c v (checkSpace m c v main newCount) := by
  unfold checkSpace
  split <;> exact ⟨rfl, rfl, rfl, rfl, rfl⟩

theorem addLoop_adds (c : Call V) (v : V) (main newCount : ℕ) : Adds c v (addLoop m c v main newCount) := by
  unfold addLoop
  split
  · exact ⟨rfl, rfl, rfl, rfl, rfl⟩
  · exact checkSpace_adds c v main newCount

theorem plain_of_call {c : Call V} (hcall : pc.call = some c) (hc : c.Plain) (hadd : pc.adding = none) : pc.Plain := by
  refine ⟨fun c' hc' => ?_, fun v hv => ?_⟩
  · rw [hcall] at hc'
    exact Option.some.inj hc' ▸ hc
  · rw [hadd] at hv
    exact absurd hv nofun

theorem plain_of_adding {c : Call V} (hcall : pc.call = some c) (hc : c = .set v ∨ c = .getOrAdd v)
    (hadd : pc.adding = some v) : pc.Plain := by
  refine ⟨fun c' hc' => ?_, fun v' hv' => ?_⟩
  · rw [hcall] at hc'
    obtain rfl := Option.some.inj hc'
    rcases hc with rfl | rfl <;> trivial
  · rw [hadd] at hv'
    obtain rfl := Option.some.inj hv'
    rw [hcall]
    exact hc.imp (congrArg some) (congrArg some)

theorem of_plain {c : Call V} (h : pc.Plain) (hcall : pc.call = some c) (hadd : pc.adding = some v) :
    c = .set v ∨ c = .getOrAdd v := by
  have hv := h.2 v hadd
  rw [hcall] at hv
  exact hv.imp Option.some.inj Option.some.inj

/-- A free slot on the probe path of a key whose earlier slots have other keys. -/
theorem not_owns_of_free {cur d : ℕ} (hreached : m.Reached hash k)
    (hne : ∀ d' < d, (m.nodes cur).first ((hash k + d') % (m.nodes cur).capacity) ≠ some k)
    (hnone : (m.nodes cur).first ((hash k + d) % (m.nodes cur).capacity) = none) (i : ℕ) : ¬ m.Owns k cur i := by
  intro ho
  obtain ⟨d', hd', hf⟩ := (hreached cur i ho).not_free ho.2.2 hnone
  exact hne d' hd' hf

/-- The values that the slots of the key have, and the values reported for it, are in `S`. -/
structure Values (k : K) (S : Set V) (m : Memory K V) : Prop where
  slots : ∀ n i v, m.Owns k n i → (m.nodes n).second i = some v → v ∈ S
  reported : ∀ r ∈ m.returns k, ∀ o, r.2.value = some o → ∃ v ∈ S, o = some v

/-- The value that the thread carries to a newer table is in `S`. -/
def Brings (S : Set V) (pc : Pc V) : Prop := ∀ n o, pc.carries = some (n, o) → ∃ v ∈ S, o = some v

theorem Brings.of_none (h : pc.carries = none) : Brings S pc := fun n o hc => by
  rw [h] at hc
  exact absurd hc nofun

namespace Values

theorem mono (h : Values k S m) (hS : S ⊆ S') : Values k S' m :=
  ⟨fun n i v ho hv => hS (h.slots n i v ho hv), fun r hr o ho => (h.reported r hr o ho).imp fun _ hv => ⟨hS hv.1, hv.2⟩⟩

theorem leaves (h : Values k S m) (hl : Leaves k m m') : Values k S m' := by
  refine ⟨fun n i v ho hv => ?_, fun r hr => h.reported r (hl.returns ▸ hr)⟩
  have hown := (hl.owns n i).mp ho
  exact h.slots n i v hown ((hl.second n i hown).symm.trans hv)

theorem storeSecond (h : Values k S m) (ho : ∃ v ∈ S, o = some v) : Values k S (m.storeSecond n i o) := by
  refine ⟨fun n' j v hown hv => ?_, h.reported⟩
  rw [storeSecond_second] at hv
  by_cases hslot : n' = n ∧ j = i
  · obtain ⟨v', hv', rfl⟩ := ho
    rw [if_pos hslot] at hv
    exact Option.some.inj hv ▸ hv'
  · rw [if_neg hslot] at hv
    exact h.slots n' j v ((owns_storeSecond ..).mp hown) hv

theorem fill (h : Values k S m) (hb : Blank m) (hn : n ≤ m.mainHash) (hi : i < (m.nodes n).capacity)
    (hfree : (m.nodes n).first i = none) : Values k S (m.fill n i k) := by
  refine ⟨fun n' j v hown hv => ?_, h.reported⟩
  rw [fill_second] at hv
  rcases (owns_fill hn hi hfree n' j).mp hown with hown | ⟨rfl, rfl⟩
  · exact h.slots n' j v hown hv
  · exact absurd ((hb _ hn _ hfree).symm.trans hv) nofun

end Values

/-- How often the key was added. -/
def addCount (k : K) (m : Memory K V) : ℕ := (m.returns k).countP fun r => r.2.isAdd

theorem Values.addCount (h : Values k ∅ m) : addCount k m = 0 := by
  unfold Shared.addCount
  rw [List.countP_eq_zero]
  intro r hr hadd
  match r with
  | (_, .gotOrAdded .addSuccess o) =>
      obtain ⟨v, hv, -⟩ := h.reported _ hr o rfl
      exact hv

theorem Leaves.reached (h : Leaves k m m') (hg : Grows m m') (hk : m.Reached hash k) : m'.Reached hash k := by
  intro n i hi
  have hown := (h.owns n i).mp hi
  rw [hg.capacity n hown.1]
  refine (hk n i hown).mono fun x _ hx => ?_
  rw [hg.filled n hown.1 x hx]
  exact hx

section Access

variable [DecidableEq K]

/-- A step of `InnerAdd` that is not the exchange. -/
theorem Effect.adds {c : Call V} (hl : Leaves k m m') (hcall : pc.call = some c) (hc : c = .set v ∨ c = .getOrAdd v)
    (hadd : pc.adding = some v) (hst : pc.stored = none) (hbefore : pc.pending = none) (h : Adds c v pc') :
    Effect hash k m pc (m', pc') := by
  refine .quiet hl (h.call.trans hcall.symm) (plain_of_adding h.call hc h.adding) hst hbefore h.pending (.inl h.carries)
    (fun main cur hs => ?_) fun v' hv' => .inl ?_
  · rw [h.searched] at hs
    cases hs
  · rw [hadd, ← hv', h.adding]

/-- A step of `InnerGetEntry` that changes nothing and carries nothing. -/
theorem Effect.move {c : Call V} (hcall : pc.call = some c) (hcall' : pc'.call = some c) (hc : c.Plain)
    (hst : pc.stored = none) (hadd : pc'.adding = none) (hbefore : pc.pending = none) (hpend : pc'.pending = none)
    (hcar : pc'.carries = none ∨ pc'.carries = pc.carries)
    (hs : ∀ main cur, pc'.searched = some (main, cur) → pc.loading ≠ none ∧ cur = main ∧ main = m.mainHash ∨
      ∃ cur₀, pc.searched = some (main, cur₀) ∧ cur ≤ cur₀ ∧ ∀ n i, m.Owns k n i → cur < n → cur₀ < n) :
    Effect hash k m pc (m, pc') := by
  refine .quiet (.refl k m) (hcall'.trans hcall.symm) (plain_of_call hcall' hc hadd) hst hbefore hpend hcar hs ?_
  intro v hv
  rw [hadd] at hv
  cases hv

/-- **Access.** -/
theorem Effect.of_access (hk : pc.Knows hash k m) (hch : m.Chain e) (hreached : m.Reached hash k) (hplain : pc.Plain)
    (htidy : pc.Tidy k m) (hs : access hash w k m pc = some r) : Effect hash k m pc r := by
  cases pc with
  | idle => exact absurd hs (by rintro ⟨⟩)
  | load c =>
      obtain rfl := Option.some.inj hs
      refine .move rfl rfl (hplain.1 c rfl) rfl rfl rfl rfl (.inl rfl) fun main cur h => .inl ?_
      cases h
      exact ⟨by rintro ⟨⟩, rfl, rfl⟩
  | find c main cur d =>
      obtain ⟨hcur, hmain, hp, hne⟩ := hk
      have hc : c.Plain := hplain.1 c rfl
      simp only [Concurrent.access] at hs
      by_cases hkey : (m.nodes cur).first ((hash k + d) % (m.nodes cur).capacity) = some k
      · rw [if_pos hkey] at hs
        obtain rfl := Option.some.inj hs
        refine .move rfl rfl hc rfl rfl rfl rfl (.inl rfl) fun main cur h => .inr ?_
        cases h
        exact ⟨cur, rfl, le_rfl, fun _ _ _ h => h⟩
      · rw [if_neg hkey] at hs
        by_cases hnone : (m.nodes cur).first ((hash k + d) % (m.nodes cur).capacity) = none
        · have hnot := not_owns_of_free hreached hne hnone
          rw [if_pos hnone, (hch cur hp.1).2] at hs
          by_cases hzero : cur = 0
          · subst hzero
            -- the key is not in the oldest table either
            have hpassed : ∀ n i, m.Owns k n i → 0 < n := by
              intro n i ho
              refine Nat.pos_of_ne_zero ?_
              rintro rfl
              exact hnot i ho
            obtain rfl := Option.some.inj hs
            cases c with
            | get => exact .miss
            | set v =>
                refine .quiet (.refl k m) rfl (plain_of_adding rfl (.inl rfl) rfl) rfl rfl rfl (.inl rfl) (by rintro _ _ ⟨⟩) ?_
                exact fun v' _ => .inr ⟨main, 0, rfl, hpassed⟩
            | getOrAdd v =>
                refine .quiet (.refl k m) rfl (plain_of_adding rfl (.inr rfl) rfl) rfl rfl rfl (.inl rfl) (by rintro _ _ ⟨⟩) ?_
                exact fun v' _ => .inr ⟨main, 0, rfl, hpassed⟩
            | getOrAddByFunc v => exact absurd hc id
          · rw [if_neg hzero] at hs
            obtain rfl := Option.some.inj hs
            refine .move rfl rfl hc rfl rfl rfl rfl (.inl rfl) fun main' cur' h => .inr ?_
            cases h
            refine ⟨cur, rfl, Nat.sub_le .., fun n i ho hlt => ?_⟩
            have hne : n ≠ cur := by
              rintro rfl
              exact hnot i ho
            omega
        · rw [if_neg hnone] at hs
          obtain rfl := Option.some.inj hs
          refine .move rfl rfl hc rfl rfl rfl rfl (.inl rfl) fun main cur h => .inr ?_
          cases h
          exact ⟨cur, rfl, le_rfl, fun _ _ _ h => h⟩
  | readValue c main cur i =>
      obtain ⟨hcur, hmain, hf⟩ := hk
      simp only [Concurrent.access] at hs
      by_cases heq : cur = main
      · rw [if_pos heq] at hs
        obtain rfl := Option.some.inj hs
        exact .move rfl rfl (hplain.1 c rfl) rfl rfl rfl rfl (.inl rfl) (by rintro _ _ ⟨⟩)
      · rw [if_neg heq] at hs
        obtain rfl := Option.some.inj hs
        obtain ⟨v, hv⟩ := Option.ne_none_iff_exists'.mp (htidy.resolve_left heq)
        rw [hv]
        exact .carry (Nat.lt_of_le_of_ne hcur heq) hf hv
  | promote c main d o =>
      obtain ⟨hp, hold⟩ := hk
      simp only [Concurrent.access] at hs
      by_cases hnone : (m.nodes main).first ((hash k + d) % (m.nodes main).capacity) = none
      · rw [if_pos hnone] at hs
        obtain rfl := Option.some.inj hs
        exact .claim hp.1 (hp.slot_lt hch) hnone hold (hreached.fill hch hp hnone)
      · rw [if_neg hnone] at hs
        obtain rfl := Option.some.inj hs
        exact .move rfl rfl (hplain.1 c rfl) rfl rfl rfl rfl (.inr rfl) (by rintro _ _ ⟨⟩)
  | promoteStore c main i o =>
      obtain rfl := Option.some.inj hs
      exact .place hk.1
  | found c main i =>
      obtain rfl := Option.some.inj hs
      have hsome : (m.nodes main).second i ≠ none := htidy
      obtain ⟨v, hv⟩ := Option.ne_none_iff_exists'.mp hsome
      cases c with
      | get =>
          simp only [useEntry, hv]
          exact .report hk hv (.inl ⟨rfl, rfl⟩)
      | set v' => exact .overwrite hk hsome
      | getOrAdd v' =>
          simp only [useEntry, hv]
          exact .report hk hv (.inr ⟨⟨v', rfl⟩, rfl⟩)
      | getOrAddByFunc v' => exact absurd (hplain.1 _ rfl) id
  | add c v main =>
      obtain rfl := Option.some.inj hs
      exact .adds (.of_eq rfl rfl rfl) rfl (of_plain hplain rfl rfl) rfl rfl rfl (addLoop_adds c v _ _)
  | testAndSet c v main newCount =>
      have hc := of_plain hplain rfl rfl
      simp only [Concurrent.access] at hs
      by_cases hres : m.resizing = none
      · rw [if_pos hres] at hs
        obtain rfl := Option.some.inj hs
        exact .adds (.of_eq rfl rfl rfl) rfl hc rfl rfl rfl ⟨rfl, rfl, rfl, rfl, rfl⟩
      · rw [if_neg hres] at hs
        obtain rfl := Option.some.inj hs
        exact .adds (.refl k m) rfl hc rfl rfl rfl (checkSpace_adds c v _ _)
  | resize c v newCount =>
      have hc := of_plain hplain rfl rfl
      simp only [Concurrent.access] at hs
      by_cases hroom : newCount < (m.nodes m.mainHash).capacity / 2
      · rw [if_pos hroom] at hs
        obtain rfl := Option.some.inj hs
        exact .adds (.refl k m) rfl hc rfl rfl rfl ⟨rfl, rfl, rfl, rfl, rfl⟩
      · rw [if_neg hroom, Option.map_eq_some_iff] at hs
        obtain ⟨count, -, rfl⟩ := hs
        exact .adds (.refl k m) rfl hc rfl rfl rfl ⟨rfl, rfl, rfl, rfl, rfl⟩
  | publish c v main newCapacity newCount =>
      obtain rfl := Option.some.inj hs
      exact .adds (.publish k _ _ m) rfl (of_plain hplain rfl rfl) rfl rfl rfl ⟨rfl, rfl, rfl, rfl, rfl⟩
  | clear c v main newCount =>
      obtain rfl := Option.some.inj hs
      exact .adds (.of_eq rfl rfl rfl) rfl (of_plain hplain rfl rfl) rfl rfl rfl (checkSpace_adds c v _ _)
  | insert c v main d =>
      have hc := of_plain hplain rfl rfl
      simp only [Concurrent.access] at hs
      by_cases hnone : (m.nodes main).first ((hash k + d) % (m.nodes main).capacity) = none
      · rw [if_pos hnone] at hs
        obtain rfl := Option.some.inj hs
        exact .adds (.refl k m) rfl hc rfl rfl rfl ⟨rfl, rfl, rfl, rfl, rfl⟩
      · rw [if_neg hnone] at hs
        obtain rfl := Option.some.inj hs
        exact .adds (.refl k m) rfl hc rfl rfl rfl ⟨rfl, rfl, rfl, rfl, rfl⟩
  | exchange c v main d =>
      have hp : m.Probed (hash k) main d := hk
      simp only [Concurrent.access] at hs
      by_cases hnone : (m.nodes main).first ((hash k + d) % (m.nodes main).capacity) = none
      · have hl : m.Lacks k := htidy
        rw [if_pos hnone] at hs
        obtain rfl := Option.some.inj hs
        exact .insert hp.1 (hp.slot_lt hch) hnone hl (hreached.fill hch hp hnone)
      · rw [if_neg hnone] at hs
        obtain rfl := Option.some.inj hs
        exact .adds (.refl k m) rfl (of_plain hplain rfl rfl) rfl rfl rfl ⟨rfl, rfl, rfl, rfl, rfl⟩
  | store c v main i =>
      obtain rfl := Option.some.inj hs
      rcases of_plain hplain rfl rfl with rfl | rfl
      · exact .put hk (.inl ⟨rfl, rfl⟩)
      · exact .put hk (.inr ⟨rfl, rfl⟩)
  | reload c v newCount =>
      obtain rfl := Option.some.inj hs
      exact .adds (.refl k m) rfl (of_plain hplain rfl rfl) rfl rfl rfl (addLoop_adds c v _ _)

theorem Effect.of_step {a : Act V} (hk : pc.Knows hash k m) (hch : m.Chain e) (hreached : m.Reached hash k)
    (hplain : pc.Plain) (hcall : ∀ c, a = .call c → c.Plain) (htidy : a = .access → pc.Tidy k m)
    (hs : ThreadStep hash w k (m, pc) a r) : Effect hash k m pc r := by
  cases hs with
  | call c => exact .call c (hcall c rfl)
  | access hacc => exact .of_access hk hch hreached hplain (htidy rfl) hacc
  | throws => exact .throws

/-! ## The key, its slots and the threads at them -/

theorem Effect.reached (h : Effect hash k m pc r) (hreached : m.Reached hash k) (hg : Grows m r.1) :
    r.1.Reached hash k := by
  cases h with
  | quiet leaves => exact leaves.reached hg hreached
  | claim hn hi hfree hold hk => exact hk
  | insert hn hi hfree hl hk => exact hk
  | place ho => exact hreached.storeSecond _ _ _
  | @overwrite main i v ho hv => exact hreached.storeSecond main i (some v)
  | @put c v main i r ho hr => exact hreached.storeSecond main i (some v)
  | _ => exact hreached

theorem Effect.plain (h : Effect hash k m pc r) (hplain : pc.Plain) : r.2.Plain := by
  have hidle : (Pc.idle : Pc V).Plain := ⟨nofun, nofun⟩
  cases h with
  | call c hc => exact plain_of_call rfl hc rfl
  | quiet leaves call plain => exact plain
  | carry => exact hplain
  | claim => exact hplain
  | place => exact hplain
  | insert => exact hplain
  | _ => exact hidle

/-- A slot is claimed while it is free. -/
theorem Effect.pending (h : Effect hash k m pc r) (hb : Blank m) (hp : r.2.pending = some (n, i)) :
    (m.nodes n).first i = none ∧ (r.1.nodes n).second i = none := by
  cases h with
  | quiet leaves call plain stored before pending =>
      rw [pending] at hp
      exact absurd hp nofun
  | claim hn hi hfree =>
      cases hp
      exact ⟨hfree, by simpa using hb _ hn _ hfree⟩
  | insert hn hi hfree =>
      cases hp
      exact ⟨hfree, by simpa using hb _ hn _ hfree⟩
  | _ => exact absurd hp nofun

/-- A slot whose value is to come from another thread gets none from this one. -/
theorem Effect.second_none (h : Effect hash k m pc r) (ho : m.Owns k n i) (hnone : (m.nodes n).second i = none)
    (hp : pc.pending ≠ some (n, i)) : (r.1.nodes n).second i = none := by
  cases h with
  | quiet leaves => exact (leaves.second n i ho).trans hnone
  | claim => exact (congrFun (fill_second ..) i).trans hnone
  | insert => exact (congrFun (fill_second ..) i).trans hnone
  | place =>
      rw [storeSecond_second, if_neg]
      · exact hnone
      · rintro ⟨rfl, rfl⟩
        exact hp rfl
  | overwrite ho' hv =>
      rw [finish_nodes, storeSecond_second, if_neg]
      · exact hnone
      · rintro ⟨rfl, rfl⟩
        exact hv hnone
  | put =>
      rw [finish_nodes, storeSecond_second, if_neg]
      · exact hnone
      · rintro ⟨rfl, rfl⟩
        exact hp rfl
  | _ => exact hnone

/-- A slot of the key that has no value is about to get one, from the thread that has just claimed it or from one
    that had claimed it before. -/
theorem Effect.claimed (h : Effect hash k m pc r) (hcar : ∀ n o, pc.carries = some (n, o) → o ≠ none)
    (ho : r.1.Owns k n i) (hnone : (r.1.nodes n).second i = none) :
    r.2.pending = some (n, i) ∨ m.Owns k n i ∧ (m.nodes n).second i = none ∧ pc.pending ≠ some (n, i) := by
  cases h with
  | quiet leaves call plain stored before =>
      have ho' := (leaves.owns n i).mp ho
      refine .inr ⟨ho', (leaves.second n i ho').symm.trans hnone, ?_⟩
      rw [before]
      rintro ⟨⟩
  | claim hn hi hfree =>
      rw [fill_second] at hnone
      rcases (owns_fill hn hi hfree n i).mp ho with hold | ⟨rfl, rfl⟩
      · exact .inr ⟨hold, hnone, by rintro ⟨⟩⟩
      · exact .inl rfl
  | insert hn hi hfree =>
      rw [fill_second] at hnone
      rcases (owns_fill hn hi hfree n i).mp ho with hold | ⟨rfl, rfl⟩
      · exact .inr ⟨hold, hnone, by rintro ⟨⟩⟩
      · exact .inl rfl
  | @place c main i' o ho' =>
      rw [storeSecond_second] at hnone
      by_cases hslot : n = main ∧ i = i'
      · rw [if_pos hslot] at hnone
        exact absurd hnone (hcar main o rfl)
      · rw [if_neg hslot] at hnone
        refine .inr ⟨(owns_storeSecond ..).mp ho, hnone, ?_⟩
        rintro ⟨⟩
        exact hslot ⟨rfl, rfl⟩
  | @overwrite main i' v ho' hv =>
      rw [finish_nodes, storeSecond_second] at hnone
      by_cases hslot : n = main ∧ i = i'
      · rw [if_pos hslot] at hnone
        cases hnone
      · rw [if_neg hslot] at hnone
        exact .inr ⟨(owns_storeSecond ..).mp ho, hnone, by rintro ⟨⟩⟩
  | @put c v main i' r ho' hr =>
      rw [finish_nodes, storeSecond_second] at hnone
      by_cases hslot : n = main ∧ i = i'
      · rw [if_pos hslot] at hnone
        cases hnone
      · rw [if_neg hslot] at hnone
        refine .inr ⟨(owns_storeSecond ..).mp ho, hnone, ?_⟩
        rintro ⟨⟩
        exact hslot ⟨rfl, rfl⟩
  | _ => exact .inr ⟨ho, hnone, by rintro ⟨⟩⟩

/-- A value that is promoted was read. -/
theorem Effect.carries (h : Effect hash k m pc r) (hcar : ∀ n o, pc.carries = some (n, o) → o ≠ none) (n : ℕ)
    (o : Option V) (ho : r.2.carries = some (n, o)) : o ≠ none := by
  cases h with
  | quiet leaves call plain stored before pending carries =>
      rcases carries with hnone | hsame
      · cases hnone.symm.trans ho
      · exact hcar n o (hsame.symm.trans ho)
  | carry =>
      cases ho
      rintro ⟨⟩
  | claim =>
      cases ho
      exact hcar _ _ rfl
  | _ => cases ho

theorem Effect.call_eq (h : Effect hash k m pc r) : (pc = .idle ∧ ∃ c, r.2 = .load c) ∨ r.2.call = none ∨ r.2.call = pc.call := by
  cases h with
  | call c => exact .inl ⟨rfl, c, rfl⟩
  | quiet leaves call => exact .inr (.inr call)
  | carry => exact .inr (.inr rfl)
  | claim => exact .inr (.inr rfl)
  | place => exact .inr (.inr rfl)
  | insert => exact .inr (.inr rfl)
  | _ => exact .inr (.inl rfl)

/-! ## The values of the key -/

theorem Values.finish (h : Values k S m) {c : Call V} {r : Result V}
    (hr : ∀ o, r.value = some o → ∃ v ∈ S, o = some v) : Values k S (m.finish k c r).1 := by
  refine ⟨h.slots, fun r' hr' => ?_⟩
  have hmem : r' ∈ m.returns k ++ [(c, r)] := by simpa only [Memory.finish, Function.update_self] using hr'
  rcases List.mem_append.mp hmem with hold | hnew
  · exact h.reported r' hold
  · exact List.mem_singleton.mp hnew ▸ hr

theorem Effect.values (h : Effect hash k m pc r) (hb : Blank m) (hv : Values k S m) (hbr : Brings S pc)
    (hst : ∀ v, pc.stored = some v → v ∈ S) : Values k S r.1 ∧ Brings S r.2 := by
  cases h with
  | quiet leaves call plain stored before pending carries =>
      refine ⟨hv.leaves leaves, ?_⟩
      rcases carries with hnone | hsame
      · exact .of_none hnone
      · exact fun n o hc => hbr n o (hsame.symm.trans hc)
  | call c hc => exact ⟨hv, .of_none rfl⟩
  | throws => exact ⟨hv, .of_none rfl⟩
  | miss => exact ⟨hv.finish nofun, .of_none rfl⟩
  | carry hlt hf hsome =>
      refine ⟨hv, fun n o hc => ?_⟩
      cases hc
      exact ⟨_, hv.slots _ _ _ hf.1 hsome, rfl⟩
  | claim hn hi hfree => exact ⟨hv.fill hb hn hi hfree, hbr⟩
  | place ho => exact ⟨hv.storeSecond (hbr _ _ rfl), .of_none rfl⟩
  | @report c main i v r ho hsome hr =>
      refine ⟨hv.finish fun o hval => ⟨v, hv.slots _ _ _ ho hsome, ?_⟩, .of_none rfl⟩
      rcases hr with ⟨-, rfl⟩ | ⟨-, rfl⟩
      · exact (Option.some.inj hval).symm
      · exact (Option.some.inj hval).symm
  | @overwrite main i v ho hsome =>
      exact ⟨(hv.storeSecond ⟨v, hst v rfl, rfl⟩).finish nofun, .of_none rfl⟩
  | insert hn hi hfree => exact ⟨hv.fill hb hn hi hfree, .of_none rfl⟩
  | @put c v main i r ho hr =>
      refine ⟨(hv.storeSecond ⟨v, hst v rfl, rfl⟩).finish fun o hval => ⟨v, hst v rfl, ?_⟩, .of_none rfl⟩
      rcases hr with ⟨-, rfl⟩ | ⟨-, rfl⟩
      · exact absurd hval nofun
      · exact (Option.some.inj hval).symm

/-- Slots come to have the key by a promotion, or where no slot has it yet. -/
theorem Effect.owns (h : Effect hash k m pc r) (ho : r.1.Owns k n i) :
    m.Owns k n i ∨ m.Lacks k ∨ ∃ n' o, pc.carries = some (n', o) := by
  cases h with
  | quiet leaves => exact .inl ((leaves.owns n i).mp ho)
  | claim => exact .inr (.inr ⟨_, _, rfl⟩)
  | place => exact .inl ((owns_storeSecond ..).mp ho)
  | overwrite => exact .inl ((owns_storeSecond ..).mp ho)
  | put => exact .inl ((owns_storeSecond ..).mp ho)
  | insert hn hi hfree hl => exact .inr (.inl hl)
  | _ => exact .inl ho

/-- A value goes into a slot that has none yet from `InnerAdd` only. -/
theorem Effect.stored (h : Effect hash k m pc r) (hst : pc.stored = some v) :
    ∃ n i, m.Owns k n i ∧ ((∃ c, pc = .store c v n i) ∨ (m.nodes n).second i ≠ none) := by
  cases h with
  | quiet leaves call plain stored =>
      rw [stored] at hst
      exact absurd hst nofun
  | @overwrite main i v' ho hv => exact ⟨main, i, ho, .inr hv⟩
  | @put c v' main i r ho =>
      cases hst
      exact ⟨main, i, ho, .inl ⟨c, rfl⟩⟩
  | @report c main i v' r ho hv => exact ⟨main, i, ho, .inr (by rw [hv]; exact nofun)⟩
  | _ => exact absurd hst nofun

theorem Effect.store {c : Call V} (h : Effect hash k m pc (m', .store c v n i)) :
    m.Lacks k ∧ pc.stored = none ∧ ∀ n' j, m'.Owns k n' j → n' = n ∧ j = i := by
  cases h with
  | quiet leaves call plain stored before pending => exact absurd pending nofun
  | insert hn hi hfree hl =>
      exact ⟨hl, rfl, fun n' j ho => ((owns_fill hn hi hfree n' j).mp ho).resolve_left (hl n' j)⟩

/-! ## How often the key is added -/

theorem addCount_finish (c : Call V) (r : Result V) :
    addCount k (m.finish k c r).1 = addCount k m + if r.isAdd then 1 else 0 := by
  simp only [addCount, Memory.finish, Function.update_self, List.countP_append, List.countP_singleton]

theorem Effect.addCount (h : Effect hash k m pc r) : addCount k r.1 = addCount k m ∨
    (∃ c v n i, pc = .store c v n i) ∧ addCount k r.1 = addCount k m + 1 := by
  cases h with
  | quiet leaves => exact .inl (by rw [Shared.addCount, leaves.returns, Shared.addCount])
  | miss => exact .inl (addCount_finish _ _)
  | report ho hv hr =>
      rcases hr with ⟨-, rfl⟩ | ⟨-, rfl⟩
      · exact .inl (addCount_finish _ _)
      · exact .inl (addCount_finish _ _)
  | overwrite => exact .inl (addCount_finish _ _)
  | put ho hr =>
      rcases hr with ⟨-, rfl⟩ | ⟨-, rfl⟩
      · exact .inl (addCount_finish _ _)
      · exact .inr ⟨⟨_, _, _, _, rfl⟩, addCount_finish _ _⟩
  | _ => exact .inl rfl

end Access

end Shared

end Concurrent

end HashTable

end LockFreeStructures
