import LockFreeStructures.HashTable.Agreement

/-!
# `HashTable.LatestSet` — what `Get` finds after the last `Set`

The last `Set` leaves its value in the slot that a probe of some table finds. No newer table has the key then, and
no thread is on its way to bring it to one. From then on the key has no other value in a newer table, and a later
`Get` does not look into older ones.
-/

namespace LockFreeStructures

namespace HashTable

namespace Concurrent

open Memory

namespace Pc

variable {K V : Type}

/-- The table that `InnerGetEntry` began with. -/
def begun : Pc V → Option ℕ
  | .find _ main _ _ | .readValue _ main _ _ | .promote _ main _ _ | .promoteStore _ main _ _ | .found _ main _ => some main
  | _ => none

/-- The thread is in no call but `Get`. -/
def Reading (pc : Pc V) : Prop := ∀ c, pc.call = some c → c = .get

end Pc

namespace Shared

variable {T K V : Type} {hash : K → ℕ} {w e : ℕ} {k : K} {m m' : Memory K V} {n i j : ℕ} {v : V} {o : Option V}
  {pc pc' : Pc V} {r : Memory K V × Pc V} {key : T → K} {ls : T → Pc V} {t t₀ : T} {a : Act V}

/-! ## The value of the last `Set` -/

/-- A probe of table `n` finds the value, and no newer table has another. -/
structure Current (hash : K → ℕ) (k : K) (v : V) (n : ℕ) (m : Memory K V) : Prop where
  set : ∃ i, m.Finds hash k n i ∧ (m.nodes n).second i = some v
  newer : ∀ n' i, n < n' → m.Owns k n' i → (m.nodes n').second i = none ∨ (m.nodes n').second i = some v

/-- The thread takes no other value to a table newer than `n`. -/
structure Follows (v : V) (n : ℕ) (pc : Pc V) : Prop where
  carried : ∀ n' o, pc.carries = some (n', o) → n < n' → o = some v
  searched : ∀ main cur, pc.searched = some (main, cur) → n < main → n ≤ cur

/-- From here on `Get` is the only call, and all of them are to find the value. -/
structure Latest (hash : K → ℕ) (key : T → K) (k : K) (v : V) (n : ℕ) (s : State T K V) : Prop where
  current : Current hash k v n s.memory
  follows : ∀ t, key t = k → Follows v n (s.threads t)
  reading : ∀ t, key t = k → (s.threads t).Reading

/-- The threads with the key only call `Get`. -/
def Gets (key : T → K) (k : K) (_ : State T K V) (a : T × Act V) : Prop := key a.1 = k → ∀ c, a.2 = .call c → c = .get

/-- The thread goes on with its call. -/
def GoesOn (t : T) (_ : State T K V) (a : T × Act V) : Prop := a.1 = t → a.2 = .access

theorem Current.owns (h : Current hash k v n m) : ∃ i, m.Owns k n i := h.set.imp fun _ hi => hi.1.1

theorem Current.leaves (h : Current hash k v n m) (hl : Leaves k m m') (hg : Grows m m') : Current hash k v n m' := by
  refine ⟨?_, fun n' i hn' ho => ?_⟩
  · obtain ⟨i, hf, hv⟩ := h.set
    exact ⟨i, hg.finds hf, (hl.second n i hf.1).trans hv⟩
  · have ho' := (hl.owns n' i).mp ho
    rw [hl.second n' i ho']
    exact h.newer n' i hn' ho'

theorem Follows.of_none (hc : pc.carries = none) (hs : pc.searched = none) : Follows v n pc := by
  refine ⟨fun n' o h => ?_, fun main cur h => ?_⟩
  · rw [hc] at h
    cases h
  · rw [hs] at h
    cases h

/-- A thread that began with table `n` or an older one. -/
theorem Follows.of_begun (h : ∀ main, pc.begun = some main → main ≤ n) : Follows v n pc := by
  refine ⟨fun n' o hc hn' => ?_, fun main cur hs hmain => ?_⟩
  · cases pc with
    | promote c main d v | promoteStore c main i v =>
        cases hc
        exact absurd (h _ rfl) (Nat.not_le_of_lt hn')
    | _ => cases hc
  · cases pc with
    | find c main cur d | readValue c main cur i =>
        cases hs
        exact absurd (h _ rfl) (Nat.not_le_of_lt hmain)
    | _ => cases hs

/-- What a `Get` reads and takes to a newer table is the value. -/
theorem Current.read {cur : ℕ} {v' : V} (h : Current hash k v n m) (hf : m.Finds hash k cur i)
    (hn : n ≤ cur) (hv : (m.nodes cur).second i = some v') : v' = v := by
  rcases Nat.eq_or_lt_of_le hn with rfl | hlt
  · obtain ⟨i₀, hf₀, hv₀⟩ := h.set
    obtain rfl := hf.unique hf₀
    exact Option.some.inj (hv.symm.trans hv₀)
  · rcases h.newer cur i hlt hf.1 with hnone | hsome
    · cases hv.symm.trans hnone
    · exact Option.some.inj (hv.symm.trans hsome)

section Step

variable [DecidableEq K]

/-- **Step**, of a thread in a `Get`. -/
theorem Effect.current (h : Effect hash k m pc r) (hg : Grows m r.1) (hb : Blank m) (hknows : pc.Knows hash k m)
    (hempty : Empty m pc) (hc : Current hash k v n m) (hf : Follows v n pc) (hread : pc.Reading) :
    Current hash k v n r.1 ∧ Follows v n r.2 := by
  cases h with
  | quiet leaves call plain stored before pending carries searched =>
      refine ⟨hc.leaves leaves hg, fun n' o hcar hn' => ?_, fun main cur hs hmain => ?_⟩
      · rcases carries with hnone | hsame
        · cases hnone.symm.trans hcar
        · exact hf.carried n' o (hsame.symm.trans hcar) hn'
      · rcases searched main cur hs with ⟨-, rfl, -⟩ | ⟨cur₀, hs₀, hle, hpass⟩
        · exact hmain.le
        · -- the thread has not just left table `n`, which has the key
          have hcur₀ := hf.searched main cur₀ hs₀ hmain
          obtain ⟨i₀, ho₀⟩ := hc.owns
          by_contra hlt
          exact absurd (hpass n i₀ ho₀ (Nat.lt_of_not_le hlt)) (Nat.not_lt_of_le hcur₀)
  | call => exact ⟨hc, .of_none rfl rfl⟩
  | throws => exact ⟨hc, .of_none rfl rfl⟩
  | miss => exact ⟨⟨hc.set, hc.newer⟩, .of_none rfl rfl⟩
  | @carry c main cur i v' hlt hfinds hv =>
      refine ⟨hc, fun n' o hcar hn' => ?_, by rintro _ _ ⟨⟩⟩
      cases hcar
      rw [hc.read hfinds (hf.searched main cur rfl hn') hv]
  | claim hn hi hfree =>
      refine ⟨⟨?_, fun n' j hn' ho => ?_⟩, hf.carried, by rintro _ _ ⟨⟩⟩
      · obtain ⟨i₀, hf₀, hv₀⟩ := hc.set
        exact ⟨i₀, hg.finds hf₀, (congrFun (fill_second ..) i₀).trans hv₀⟩
      · rw [fill_second]
        rcases (owns_fill hn hi hfree n' j).mp ho with hold | ⟨rfl, rfl⟩
        · exact hc.newer n' j hn' hold
        · exact .inl (hb _ hn _ hfree)
  | @place c main i o ho =>
      refine ⟨⟨?_, fun n' j hn' ho' => ?_⟩, .of_none rfl rfl⟩
      · obtain ⟨i₀, hf₀, hv₀⟩ := hc.set
        refine ⟨i₀, hg.finds hf₀, ?_⟩
        rw [storeSecond_second, if_neg]
        · exact hv₀
        · -- the slot that is found has its value already
          rintro ⟨rfl, rfl⟩
          cases (hempty _ _ rfl).symm.trans hv₀
      · rw [storeSecond_second]
        by_cases hslot : n' = main ∧ j = i
        · rw [if_pos hslot]
          exact .inr (hf.carried main o rfl (hslot.1 ▸ hn'))
        · rw [if_neg hslot]
          exact hc.newer n' j hn' ((owns_storeSecond ..).mp ho')
  | report => exact ⟨⟨hc.set, hc.newer⟩, .of_none rfl rfl⟩
  | overwrite => cases hread _ rfl
  | insert hn hi hfree hl =>
      obtain ⟨i₀, ho₀⟩ := hc.owns
      exact absurd ho₀ (hl n i₀)
  | put ho hr =>
      obtain rfl := hread _ rfl
      rcases hr with ⟨hc', -⟩ | ⟨hc', -⟩
      · cases hc'
      · cases hc'

theorem Reading.step (h : (ls t).Reading) (hgets : Gets key k ⟨m, ls⟩ (t, a)) (hkey : key t = k)
    (hs : ThreadStep hash w k (m, ls t) a r) (heff : Effect hash k m (ls t) r) : r.2.Reading := by
  intro c hc
  rcases call_of_step hs heff with hnone | hsame | ⟨c', hc', hcall⟩
  · exact absurd (hnone.symm.trans hc) nofun
  · exact h c (hsame.symm.trans hc)
  · cases hcall.symm.trans hc
    exact hgets hkey c hc'

variable [DecidableEq T]

theorem Latest.step (h : Latest hash key k v n ⟨m, ls⟩) (hagreed : Agreed hash e key k ⟨m, ls⟩)
    (hok : Spaced key k ⟨m, ls⟩ (t, a)) (hgets : Gets key k ⟨m, ls⟩ (t, a))
    (hs : ThreadStep hash w (key t) (m, ls t) a r) : Latest hash key k v n ⟨r.1, Function.update ls t r.2⟩ := by
  have hg := (hagreed.inv.sound hs).grows
  cases hok.moves hagreed.inv hagreed.shape hagreed.turns hs with
  | own hkey heff =>
      have hknows := hagreed.inv.knows t
      rw [hkey] at hknows hs
      obtain ⟨hc, hf⟩ := heff.current hg hagreed.inv.blank hknows (hagreed.shape.empty t hkey) h.current
        (h.follows t hkey) (h.reading t hkey)
      exact ⟨hc, forall_update (P := fun _ => Follows v n) (fun _ => hf) fun t' _ => h.follows t',
        forall_update (fun _ => Reading.step (h.reading t hkey) hgets hkey hs heff) fun t' _ => h.reading t'⟩
  | other hkey hl =>
      exact ⟨h.current.leaves hl hg,
        forall_update (P := fun _ => Follows v n) (absurd · hkey) fun t' _ => h.follows t',
        forall_update (absurd · hkey) fun t' _ => h.reading t'⟩

/-! ## A `Set` and the calls beside it -/

/-- No other call on the key has loaded `MainHash`. -/
def Alone (key : T → K) (k : K) (t₀ : T) (ls : T → Pc V) : Prop := ∀ t ≠ t₀, key t = k → (ls t).underWay = none

/-- No table newer than `main` has the key or is to get it, and `main` has it or the `Set` is alone. -/
structure Apart (key : T → K) (k : K) (t₀ : T) (ls : T → Pc V) (m : Memory K V) (main : ℕ) : Prop where
  newer : m.NewerLack k main
  others : ∀ t ≠ t₀, key t = k → ∀ main', (ls t).begun = some main' → main' ≤ main
  here : (∃ i, m.Owns k main i) ∨ Alone key k t₀ ls

/-- What thread `t₀` knows of the key in a `Set`. -/
def SetAt (hash : K → ℕ) (key : T → K) (k : K) (t₀ : T) (ls : T → Pc V) (m : Memory K V) : Pc V → Prop
  | .idle | .load _ => True
  | .find _ main cur _ | .readValue _ main cur _ =>
      Apart key k t₀ ls m main ∧ (cur < main → ∀ i, ¬ m.Owns k main i)
  | .promote _ main _ _ => Apart key k t₀ ls m main ∧ ∀ i, ¬ m.Owns k main i
  | .promoteStore _ main i _ | .found _ main i | .store _ _ main i =>
      Apart key k t₀ ls m main ∧ m.Finds hash k main i
  | _ => Alone key k t₀ ls

omit [DecidableEq K] [DecidableEq T] in
theorem underWay_of_begun {main : ℕ} (h : pc.begun = some main) : pc.underWay ≠ none := by
  cases pc with
  | find | readValue | promote | promoteStore | found => rintro ⟨⟩
  | _ => cases h

omit [DecidableEq K] [DecidableEq T] in
theorem Apart.congr {main : ℕ} (h : Apart key k t₀ ls m main) (hown : ∀ n i, m'.Owns k n i ↔ m.Owns k n i) :
    Apart key k t₀ ls m' main :=
  ⟨fun n i ho => h.newer n i ((hown n i).mp ho), h.others, h.here.imp_left fun ⟨i, ho⟩ => ⟨i, (hown main i).mpr ho⟩⟩

omit [DecidableEq K] [DecidableEq T] in
theorem checkSpace_setAt (h : Alone key k t₀ ls) (c : Call V) (v : V) (main newCount : ℕ) :
    SetAt hash key k t₀ ls m' (checkSpace m c v main newCount) := by
  unfold checkSpace
  split <;> exact h

omit [DecidableEq K] [DecidableEq T] in
theorem addLoop_setAt (h : Alone key k t₀ ls) (c : Call V) (v : V) (main newCount : ℕ) :
    SetAt hash key k t₀ ls m' (addLoop m c v main newCount) := by
  unfold addLoop
  split
  · exact h
  · exact checkSpace_setAt h c v main newCount

omit [DecidableEq T] in
/-- **Access** of the `Set`. -/
theorem SetAt.access (h : SetAt hash key k t₀ ls m pc) (hk : pc.Knows hash k m) (hch : m.Chain e)
    (hreached : m.Reached hash k) (hcall : pc.call = some (.set v)) (htidy : pc.Tidy k m)
    (hbegun : ∀ t ≠ t₀, key t = k → ∀ main, (ls t).begun = some main → main ≤ m.mainHash)
    (hjoins : pc.loading ≠ none → (∃ i, m.Owns k m.mainHash i) ∨ Alone key k t₀ ls)
    (hs : access hash w k m pc = some r) : SetAt hash key k t₀ ls r.1 r.2 := by
  cases pc with
  | idle => cases hcall
  | load c =>
      obtain rfl := Option.some.inj hs
      exact ⟨⟨fun _ _ ho => ho.1, hbegun, hjoins (by rintro ⟨⟩)⟩, fun hlt => absurd hlt (Nat.lt_irrefl _)⟩
  | find c main cur d =>
      obtain ⟨hcur, hmain, hp, hne⟩ := hk
      obtain ⟨hapart, hnot⟩ := h
      simp only [Concurrent.access] at hs
      by_cases hkey : (m.nodes cur).first ((hash k + d) % (m.nodes cur).capacity) = some k
      · rw [if_pos hkey] at hs
        obtain rfl := Option.some.inj hs
        exact ⟨hapart, hnot⟩
      · rw [if_neg hkey] at hs
        by_cases hnone : (m.nodes cur).first ((hash k + d) % (m.nodes cur).capacity) = none
        · -- the table the lookup began with does not have the key
          have hnot' : ∀ i, ¬ m.Owns k main i := by
            rcases Nat.eq_or_lt_of_le hcur with rfl | hlt
            · exact not_owns_of_free hreached hne hnone
            · exact hnot hlt
          rw [if_pos hnone, (hch cur hp.1).2] at hs
          by_cases hzero : cur = 0
          · rw [if_pos hzero] at hs
            cases hcall
            obtain rfl := Option.some.inj hs
            exact hapart.here.resolve_left (not_exists.mpr hnot')
          · rw [if_neg hzero] at hs
            obtain rfl := Option.some.inj hs
            exact ⟨hapart, fun _ => hnot'⟩
        · rw [if_neg hnone] at hs
          obtain rfl := Option.some.inj hs
          exact ⟨hapart, hnot⟩
  | readValue c main cur i =>
      obtain ⟨hcur, -, hf⟩ := hk
      obtain ⟨hapart, hnot⟩ := h
      simp only [Concurrent.access] at hs
      by_cases heq : cur = main
      · rw [if_pos heq] at hs
        obtain rfl := Option.some.inj hs
        exact ⟨hapart, heq ▸ hf⟩
      · rw [if_neg heq] at hs
        obtain rfl := Option.some.inj hs
        exact ⟨hapart, hnot (Nat.lt_of_le_of_ne hcur heq)⟩
  | promote c main d o =>
      obtain ⟨hp, -⟩ := hk
      obtain ⟨hapart, hnot⟩ := h
      simp only [Concurrent.access] at hs
      by_cases hnone : (m.nodes main).first ((hash k + d) % (m.nodes main).capacity) = none
      · rw [if_pos hnone] at hs
        obtain rfl := Option.some.inj hs
        have hfinds := Memory.Finds.of_fill hch hp hnot hnone
        refine ⟨⟨fun n i ho => ?_, hapart.others, .inl ⟨_, hfinds.1⟩⟩, hfinds⟩
        rcases (owns_fill hp.1 (hp.slot_lt hch) hnone n i).mp ho with ho | ⟨rfl, -⟩
        · exact hapart.newer n i ho
        · exact le_rfl
      · rw [if_neg hnone] at hs
        obtain rfl := Option.some.inj hs
        exact ⟨hapart, hnot⟩
  | promoteStore c main i o =>
      obtain rfl := Option.some.inj hs
      exact ⟨h.1.congr fun _ _ => owns_storeSecond .., (Grows.storeSecond main i o m).finds h.2⟩
  | found c main i =>
      cases hcall
      obtain rfl := Option.some.inj hs
      trivial
  | add c v main =>
      obtain rfl := Option.some.inj hs
      exact addLoop_setAt h c v _ _
  | testAndSet c v main newCount =>
      simp only [Concurrent.access] at hs
      split at hs
      · obtain rfl := Option.some.inj hs
        exact h
      · obtain rfl := Option.some.inj hs
        exact checkSpace_setAt h c v _ _
  | resize c v newCount =>
      simp only [Concurrent.access] at hs
      split at hs
      · obtain rfl := Option.some.inj hs
        exact h
      · obtain ⟨count, -, rfl⟩ := Option.map_eq_some_iff.mp hs
        exact h
  | publish c v main newCapacity newCount =>
      obtain rfl := Option.some.inj hs
      exact h
  | clear c v main newCount =>
      obtain rfl := Option.some.inj hs
      exact checkSpace_setAt h c v _ _
  | insert c v main d =>
      simp only [Concurrent.access] at hs
      split at hs <;> obtain rfl := Option.some.inj hs <;> exact h
  | exchange c v main d =>
      have hp : m.Probed (hash k) main d := hk
      have hl : m.Lacks k := htidy
      have halone : Alone key k t₀ ls := h
      simp only [Concurrent.access] at hs
      by_cases hnone : (m.nodes main).first ((hash k + d) % (m.nodes main).capacity) = none
      · rw [if_pos hnone] at hs
        obtain rfl := Option.some.inj hs
        have hfinds := Memory.Finds.of_fill hch hp (hl main) hnone
        refine ⟨⟨fun n i ho => ?_, fun t ht hkey main' hb => ?_, .inl ⟨_, hfinds.1⟩⟩, hfinds⟩
        · rcases (owns_fill hp.1 (hp.slot_lt hch) hnone n i).mp ho with ho | ⟨rfl, -⟩
          · exact absurd ho (hl n i)
          · exact le_rfl
        · exact absurd (halone t ht hkey) (underWay_of_begun hb)
      · rw [if_neg hnone] at hs
        obtain rfl := Option.some.inj hs
        exact halone
  | store c v main i =>
      obtain rfl := Option.some.inj hs
      cases c <;> trivial
  | reload c v newCount =>
      obtain rfl := Option.some.inj hs
      exact addLoop_setAt h c v _ _

omit [DecidableEq T] in
/-- A lookup begins with the table it loads, and ends with it. -/
theorem access_begun {main : ℕ} (hs : Concurrent.access hash w k m pc = some r) (h : r.2.begun = some main) :
    pc.begun = some main ∨ (∃ c, pc = .load c) ∧ main = m.mainHash := by
  have hloop : ∀ c v main' newCount, (addLoop m c v main' newCount).begun = none := by
    intro c v main' newCount
    unfold addLoop checkSpace
    split
    · rfl
    · split <;> rfl
  have hcheck : ∀ c v main' newCount, (checkSpace m c v main' newCount).begun = none := by
    intro c v main' newCount
    unfold checkSpace
    split <;> rfl
  cases pc with
  | idle => cases hs
  | load c =>
      obtain rfl := Option.some.inj hs
      cases h
      exact .inr ⟨⟨c, rfl⟩, rfl⟩
  | find c main' cur d =>
      simp only [Concurrent.access] at hs
      split at hs
      · obtain rfl := Option.some.inj hs
        exact .inl h
      · split at hs
        · split at hs
          · obtain rfl := Option.some.inj hs
            exact .inl h
          · obtain rfl := Option.some.inj hs
            rcases c with _ | v | v | (_ | v) <;> cases h
        · obtain rfl := Option.some.inj hs
          exact .inl h
  | readValue c main' cur i =>
      simp only [Concurrent.access] at hs
      split at hs <;> obtain rfl := Option.some.inj hs <;> exact .inl h
  | promote c main' d o =>
      simp only [Concurrent.access] at hs
      split at hs <;> obtain rfl := Option.some.inj hs <;> exact .inl h
  | promoteStore c main' i o =>
      obtain rfl := Option.some.inj hs
      exact .inl h
  | found c main' i =>
      obtain rfl := Option.some.inj hs
      cases c <;> cases h
  | add c v main' =>
      obtain rfl := Option.some.inj hs
      cases (hloop _ _ _ _).symm.trans h
  | testAndSet c v main' newCount =>
      simp only [Concurrent.access] at hs
      split at hs
      · obtain rfl := Option.some.inj hs
        cases h
      · obtain rfl := Option.some.inj hs
        cases (hcheck _ _ _ _).symm.trans h
  | resize c v newCount =>
      simp only [Concurrent.access] at hs
      split at hs
      · obtain rfl := Option.some.inj hs
        cases h
      · obtain ⟨count, -, rfl⟩ := Option.map_eq_some_iff.mp hs
        cases h
  | publish c v main' newCapacity newCount =>
      obtain rfl := Option.some.inj hs
      cases h
  | clear c v main' newCount =>
      obtain rfl := Option.some.inj hs
      cases (hcheck _ _ _ _).symm.trans h
  | insert c v main' d =>
      simp only [Concurrent.access] at hs
      split at hs <;> obtain rfl := Option.some.inj hs <;> cases h
  | exchange c v main' d =>
      simp only [Concurrent.access] at hs
      split at hs <;> obtain rfl := Option.some.inj hs <;> cases h
  | store c v main' i =>
      obtain rfl := Option.some.inj hs
      cases c <;> cases h
  | reload c v newCount =>
      obtain rfl := Option.some.inj hs
      cases (hloop _ _ _ _).symm.trans h

/-- What another thread does beside a `Set`: it only brings the key to the table it began with, and it only begins
    with a table that has the key. -/
structure Beside (key : T → K) (k : K) (t : T) (ls : T → Pc V) (m : Memory K V) (r : Memory K V × Pc V) : Prop where
  grows : Grows m r.1
  owns : ∀ n i, r.1.Owns k n i → m.Owns k n i ∨ key t = k ∧ (ls t).begun = some n
  begun : key t = k → ∀ main, r.2.begun = some main →
    (ls t).begun = some main ∨ (∃ i, m.Owns k m.mainHash i) ∧ main = m.mainHash
  underWay : key t = k → (ls t).underWay = none → r.2.underWay = none ∨ ∃ i, m.Owns k m.mainHash i

omit [DecidableEq T] in
/-- A `Get` brings the key to the table it began with. -/
theorem Effect.owns_begun (h : Effect hash k m pc r) (hplain : pc.Plain) (hread : pc.Reading) (ho : r.1.Owns k n i) :
    m.Owns k n i ∨ pc.begun = some n := by
  cases h with
  | quiet leaves => exact .inl ((leaves.owns n i).mp ho)
  | claim hn hi hfree =>
      rcases (owns_fill hn hi hfree n i).mp ho with hold | ⟨rfl, -⟩
      · exact .inl hold
      · exact .inr rfl
  | insert =>
      rcases hplain.2 _ rfl with hcall | hcall
      · cases hread _ hcall
      · cases hread _ hcall
  | place => exact .inl ((owns_storeSecond ..).mp ho)
  | overwrite => exact .inl ((owns_storeSecond ..).mp ho)
  | put => exact .inl ((owns_storeSecond ..).mp ho)
  | _ => exact .inl ho

omit [DecidableEq T] in
theorem Moves.beside (hm : Moves hash key k m (ls t) t r) (hg : Grows m r.1) (hok : Spaced key k ⟨m, ls⟩ (t, a))
    (hplain : key t = k → (ls t).Plain) (hread : key t = k → (ls t).Reading) (ht : t ≠ t₀) (hkey₀ : key t₀ = k)
    (hset : (ls t₀).underWay = some (.set v)) (hs : ThreadStep hash w (key t) (m, ls t) a r) : Beside key k t ls m r := by
  -- a thread that loads `MainHash` joins the `Set`
  have hload : key t = k → a = .access → ∀ c, ls t = .load c → ∃ i, m.Owns k m.mainHash i := by
    intro hkey ha c hc
    refine (hok.joins hkey ha c (congrArg Pc.loading hc) t₀ (Ne.symm ht) hkey₀ _ hset).set ?_
    rw [show (Call.set v).isSet = true from rfl, Bool.or_true]
  refine ⟨hg, fun n i ho => ?_, fun hkey main hb => ?_, fun hkey hnone => ?_⟩
  · cases hm with
    | own hkey heff => exact (heff.owns_begun (hplain hkey) (hread hkey) ho).imp_right fun hb => ⟨hkey, hb⟩
    | other hkey hl => exact .inl ((hl.owns n i).mp ho)
  · generalize hpc : ls t = pc at hs hload ⊢
    cases hs with
    | call => cases hb
    | throws => cases hb
    | access hacc =>
        rcases access_begun hacc hb with hold | ⟨⟨c, hc⟩, hmain⟩
        · exact .inl hold
        · exact .inr ⟨hload hkey rfl c hc, hmain⟩
  · generalize hpc : ls t = pc at hs hload hnone ⊢
    cases hs with
    | call => exact .inl rfl
    | throws => cases hnone
    | access hacc =>
        cases pc with
        | idle => cases hacc
        | load c => exact .inr (hload hkey rfl c rfl)
        | _ => cases hnone

variable {main : ℕ}

omit [DecidableEq K] [DecidableEq T] in
theorem begun_le (h : pc.Knows hash k m) (hb : pc.begun = some main) : main ≤ m.mainHash := by
  cases pc with
  | find =>
      cases hb
      exact h.2.1
  | readValue =>
      cases hb
      exact h.2.1
  | promote =>
      cases hb
      exact h.1.1
  | promoteStore =>
      cases hb
      exact h.1.1
  | found =>
      cases hb
      exact h.1
  | _ => cases hb

omit [DecidableEq K] [DecidableEq T] in
/-- Only the other threads matter. -/
theorem SetAt.congr {ls' : T → Pc V} (h : SetAt hash key k t₀ ls m pc) (hothers : ∀ t ≠ t₀, ls' t = ls t) :
    SetAt hash key k t₀ ls' m pc := by
  have halone : Alone key k t₀ ls → Alone key k t₀ ls' := fun h t ht hkey => by
    rw [hothers t ht]
    exact h t ht hkey
  have hapart : ∀ main, Apart key k t₀ ls m main → Apart key k t₀ ls' m main := fun main h =>
    ⟨h.newer, fun t ht hkey main' hb => h.others t ht hkey main' (hothers t ht ▸ hb), h.here.imp_right halone⟩
  cases pc with
  | idle => trivial
  | load => trivial
  | find | readValue | promote | promoteStore | found | store => exact ⟨hapart _ h.1, h.2⟩
  | add | testAndSet | resize | publish | clear | insert | exchange | reload => exact halone h

theorem Alone.other (h : Alone key k t₀ ls) (hb : Beside key k t ls m r) (ht : t ≠ t₀) :
    Alone key k t₀ (Function.update ls t r.2) ∨ ∃ i, m.Owns k m.mainHash i := by
  by_cases hkey : key t = k
  · refine (hb.underWay hkey (h t ht hkey)).imp_left fun hnone t' ht' hkey' => ?_
    by_cases heq : t' = t
    · subst heq
      rwa [Function.update_self]
    · rw [Function.update_of_ne heq]
      exact h t' ht' hkey'
  · refine .inl fun t' ht' hkey' => ?_
    rw [Function.update_of_ne fun heq : t' = t => hkey (heq ▸ hkey')]
    exact h t' ht' hkey'

theorem Apart.other (h : Apart key k t₀ ls m main) (hb : Beside key k t ls m r) (ht : t ≠ t₀)
    (hmain : main ≤ m.mainHash) : Apart key k t₀ (Function.update ls t r.2) r.1 main := by
  refine ⟨fun n i ho => ?_, fun t' ht' hkey' main' hbegun => ?_, ?_⟩
  · rcases hb.owns n i ho with hold | ⟨hkey, hbegun⟩
    · exact h.newer n i hold
    · exact h.others t ht hkey n hbegun
  · by_cases heq : t' = t
    · subst heq
      rw [Function.update_self] at hbegun
      rcases hb.begun hkey' main' hbegun with hold | ⟨⟨i, ho⟩, rfl⟩
      · exact h.others t' ht hkey' main' hold
      · exact h.newer _ i ho
    · rw [Function.update_of_ne heq] at hbegun
      exact h.others t' ht' hkey' main' hbegun
  · rcases h.here with ⟨i, ho⟩ | halone
    · exact .inl ⟨i, hb.grows.owns ho⟩
    · rcases halone.other hb ht with hstill | ⟨i, ho⟩
      · exact .inr hstill
      · obtain rfl : m.mainHash = main := Nat.le_antisymm (h.newer _ i ho) hmain
        exact .inl ⟨i, hb.grows.owns ho⟩

omit [DecidableEq K] [DecidableEq T] in
/-- While the `Set` is to bring the key to its table, nobody else does. -/
theorem Apart.not_owns (h : Apart key k t₀ ls m main) (hb : Beside key k t ls m r) (ht : t ≠ t₀)
    (hnot : ∀ i, ¬ m.Owns k main i) (i : ℕ) : ¬ r.1.Owns k main i := by
  intro ho
  rcases hb.owns main i ho with hold | ⟨hkey, hbegun⟩
  · exact hnot i hold
  · have halone := h.here.resolve_left fun ⟨i, ho⟩ => hnot i ho
    exact underWay_of_begun hbegun (halone t ht hkey)

/-- **Step** of another thread. -/
theorem SetAt.other (h : SetAt hash key k t₀ ls m pc) (hb : Beside key k t ls m r) (ht : t ≠ t₀)
    (hk : pc.Knows hash k m) (hlacks : pc.adding ≠ none → pc.pending = none → m.Lacks k) :
    SetAt hash key k t₀ (Function.update ls t r.2) r.1 pc := by
  have halone : Alone key k t₀ ls → m.Lacks k → Alone key k t₀ (Function.update ls t r.2) := fun halone hl =>
    (halone.other hb ht).resolve_right fun ⟨i, ho⟩ => hl _ i ho
  cases pc with
  | idle => trivial
  | load c => trivial
  | find c main cur d =>
      exact ⟨h.1.other hb ht hk.2.1, fun hlt => h.1.not_owns hb ht (h.2 hlt)⟩
  | readValue c main cur i =>
      exact ⟨h.1.other hb ht hk.2.1, fun hlt => h.1.not_owns hb ht (h.2 hlt)⟩
  | promote c main d o => exact ⟨h.1.other hb ht hk.1.1, h.1.not_owns hb ht h.2⟩
  | promoteStore c main i o => exact ⟨h.1.other hb ht h.2.1.1, hb.grows.finds h.2⟩
  | found c main i => exact ⟨h.1.other hb ht h.2.1.1, hb.grows.finds h.2⟩
  | store c v main i => exact ⟨h.1.other hb ht h.2.1.1, hb.grows.finds h.2⟩
  | add | testAndSet | resize | publish | clear | insert | exchange | reload =>
      exact halone h (hlacks (by rintro ⟨⟩) rfl)

/-! ## The last `Set` -/

/-- `Set` stores its value over that of a slot, or inserts it. -/
theorem Effect.set (h : Effect hash k m pc r) (hcall : pc.call = some (.set v)) (hplain : pc.Plain)
    (hgo : ∀ c v' main newCapacity newCount, pc = .publish c v' main newCapacity newCount → r.2 ≠ .idle) :
    r.2.call = some (.set v) ∨ r.2 = .idle ∧ ∃ n i, r.1 = ((m.storeSecond n i (some v)).finish k (.set v) .set).1 ∧
      m.Owns k n i ∧ (pc = .found (.set v) n i ∨ pc = .store (.set v) v n i) := by
  cases h with
  | call => cases hcall
  | throws => exact absurd rfl (hgo _ _ _ _ _ rfl)
  | quiet leaves call => exact .inl (call.trans hcall)
  | miss => cases hcall
  | carry => exact .inl hcall
  | claim => exact .inl hcall
  | place => exact .inl hcall
  | insert => exact .inl hcall
  | report ho hv hr =>
      cases hcall
      rcases hr with ⟨hc, -⟩ | ⟨⟨v', hc⟩, -⟩
      · cases hc
      · cases hc
  | @overwrite main i v' ho hv =>
      cases hcall
      exact .inr ⟨rfl, main, i, rfl, ho, .inl rfl⟩
  | @put c v' main i r ho hr =>
      cases hcall
      rcases hr with ⟨hc, rfl⟩ | ⟨hc, -⟩
      · cases hc
        exact .inr ⟨rfl, main, i, rfl, ho, .inr rfl⟩
      · cases hc

/-- From the last `Set` on: the others are in no call but `Get`, and the `Set` has not returned or has left its
    value. -/
structure Setting (hash : K → ℕ) (key : T → K) (k : K) (v : V) (t₀ : T) (s : State T K V) : Prop where
  others : ∀ t ≠ t₀, key t = k → (s.threads t).Reading
  set : (s.threads t₀).call = some (.set v) ∧ SetAt hash key k t₀ s.threads s.memory (s.threads t₀) ∨
    s.threads t₀ = .idle ∧ ∃ n, Latest hash key k v n s

/-- **The last `Set` stores its value**, where a probe finds it. -/
theorem Latest.of_set (hothers : ∀ t' ≠ t, key t' = k → (ls t').Reading) (hidle : r.2 = .idle)
    (hmem : r.1 = ((m.storeSecond n i (some v)).finish k (.set v) .set).1) (hapart : Apart key k t ls m n)
    (hfinds : m.Finds hash k n i) : Latest hash key k v n ⟨r.1, Function.update ls t r.2⟩ := by
  have hset : r.1.Finds hash k n i ∧ (r.1.nodes n).second i = some v := by
    rw [hmem, finish_nodes, storeSecond_second, if_pos ⟨rfl, rfl⟩]
    exact ⟨(Grows.storeSecond n i (some v) m).finds hfinds, rfl⟩
  refine ⟨⟨⟨i, hset⟩, fun n' j hn' ho => ?_⟩, forall_update (P := fun _ => Follows v n) (fun _ => ?_) ?_, ?_⟩
  · rw [hmem] at ho
    exact absurd (hapart.newer n' j ((owns_storeSecond ..).mp ho)) (Nat.not_le_of_lt hn')
  · rw [hidle]
    exact .of_none rfl rfl
  · exact fun t' ht' hkey' => .of_begun (hapart.others t' ht' hkey')
  · refine forall_update (fun _ => ?_) fun t' ht' hkey' => hothers t' ht' hkey'
    rw [hidle]
    rintro c ⟨⟩

theorem Setting.step (h : Setting hash key k v t₀ ⟨m, ls⟩) (hkey₀ : key t₀ = k) (hagreed : Agreed hash e key k ⟨m, ls⟩)
    (hok : Spaced key k ⟨m, ls⟩ (t, a)) (hgets : Gets key k ⟨m, ls⟩ (t, a)) (hgo : GoesOn t₀ ⟨m, ls⟩ (t, a))
    (hs : ThreadStep hash w (key t) (m, ls t) a r) : Setting hash key k v t₀ ⟨r.1, Function.update ls t r.2⟩ := by
  have hm := hok.moves hagreed.inv hagreed.shape hagreed.turns hs
  have hknows₀ : (ls t₀).Knows hash k m := hkey₀ ▸ hagreed.inv.knows t₀
  have hbegun : ∀ t' ≠ t₀, key t' = k → ∀ main, (ls t').begun = some main → main ≤ m.mainHash := by
    rintro t' - rfl main hb
    exact begun_le (hagreed.inv.knows t') hb
  by_cases ht : t = t₀
  · subst ht
    have hothers : ∀ t' ≠ t, key t' = k → (Function.update ls t r.2 t').Reading := fun t' ht' hkey' => by
      rw [Function.update_of_ne ht']
      exact h.others t' ht' hkey'
    refine ⟨hothers, ?_⟩
    obtain rfl := hgo rfl
    rcases h.set with ⟨hcall, hset⟩ | ⟨hidle, -⟩
    · cases hm with
      | own _ heff =>
          have hcall' : (ls t).call = some (.set v) := hcall
          have hset' : SetAt hash key k t ls m (ls t) := hset
          have htidy := hok.tidy hagreed.inv hagreed.shape hagreed.turns hkey₀
          have hplain : (ls t).Plain := hagreed.shape.plain t hkey₀
          have hpublish : ∀ c v' main newCapacity newCount, ls t = .publish c v' main newCapacity newCount → r.2 ≠ .idle := by
            intro c v' main newCapacity newCount hpc
            rw [hpc] at hs
            cases hs with
            | access hacc =>
                obtain rfl := Option.some.inj hacc
                rintro ⟨⟩
          have hjoins : (ls t).loading ≠ none → (∃ i, m.Owns k m.mainHash i) ∨ Alone key k t ls := by
            intro hload
            obtain ⟨c, hc⟩ := Option.ne_none_iff_exists'.mp hload
            by_cases hhere : ∃ i, m.Owns k m.mainHash i
            · exact .inl hhere
            · refine .inr fun t' ht' hkey' => ?_
              by_contra hway
              obtain ⟨c', hc'⟩ := Option.ne_none_iff_exists'.mp hway
              refine hhere ((hok.joins hkey₀ rfl c hc t' ht' hkey' c' hc').set ?_)
              have hsets : c = .set v := by
                generalize ls t = pc at hc hcall'
                cases pc with
                | load c'' =>
                    cases hc
                    exact Option.some.inj hcall'
                | _ => cases hc
              rw [hsets]
              rfl
          simp only [Function.update_self]
          rcases heff.set hcall' hplain hpublish with hstill | ⟨hidle, n, i, hmem, ho, hcase⟩
          · refine .inl ⟨hstill, ?_⟩
            rw [hkey₀] at hs
            have hnext : SetAt hash key k t ls r.1 r.2 := by
              generalize ls t = pc at hs hset' hcall' htidy hknows₀ hjoins
              cases hs with
              | access hacc =>
                  exact hset'.access hknows₀ hagreed.inv.chain hagreed.shape.reached hcall' htidy hbegun hjoins hacc
            exact hnext.congr fun t' ht' => Function.update_of_ne ht' ..
          · refine .inr ⟨hidle, n, ?_⟩
            rcases hcase with hpc | hpc <;> rw [hpc] at hset' <;>
              exact .of_set h.others hidle hmem hset'.1 hset'.2
      | other hne _ => exact absurd hkey₀ hne
    · have hidle' : ls t = .idle := hidle
      rw [hidle'] at hs
      cases hs with
      | access hacc => cases hacc
  · have hset₀ : Function.update ls t r.2 t₀ = ls t₀ := Function.update_of_ne (Ne.symm ht) _ _
    refine ⟨fun t' ht' hkey' => ?_, ?_⟩
    · refine forall_update (P := fun t' pc => t' ≠ t₀ → pc.Reading) (fun hkey _ => ?_) (fun t' _ hkey' ht' =>
        h.others t' ht' hkey') t' hkey' ht'
      cases hm with
      | own _ heff => exact Reading.step (h.others t ht hkey) hgets hkey (hkey ▸ hs) heff
      | other hne _ => exact absurd hkey hne
    · simp only [hset₀]
      refine h.set.imp (fun ⟨hcall, hset⟩ => ⟨hcall, ?_⟩) fun ⟨hidle, n, hlatest⟩ =>
        ⟨hidle, n, hlatest.step hagreed hok hgets hs⟩
      have hcall' : (ls t₀).call = some (.set v) := hcall
      have hset' : SetAt hash key k t₀ ls m (ls t₀) := hset
      by_cases hway : (ls t₀).underWay = some (.set v)
      · have hb := hm.beside (hagreed.inv.sound hs).grows hok (hagreed.shape.plain t) (h.others t ht) ht hkey₀ hway hs
        refine hset'.other hb ht hknows₀ fun hadd hpend => ?_
        obtain ⟨v', hv'⟩ := Option.ne_none_iff_exists'.mp hadd
        refine (hagreed.turns.seeks t₀ hkey₀ ⟨_, hway, rfl⟩).resolve_right fun hseeks => hseeks.adding hadd hpend
      · -- the `Set` has not loaded `MainHash`
        generalize ls t₀ = pc at hcall' hway ⊢
        cases pc with
        | idle => trivial
        | load c => trivial
        | _ => exact absurd hcall' hway

end Step

end Shared

end Concurrent

end HashTable

end LockFreeStructures
