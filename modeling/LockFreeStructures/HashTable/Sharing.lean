import LockFreeStructures.HashTable.Ownership

/-!
# `HashTable.Sharing` — several threads with one key

A key no longer names its thread: thread `t` calls with `key t`, and a thread that calls with several keys is
several threads here. What a thread knows is then weaker: another one with its key may put the key into a table
it has already searched, or into a second slot of one. `Pc.Knows` is what stays true, point by point, and
`Leaves` is what a step of a thread with another key does to a key.
-/

namespace LockFreeStructures

namespace HashTable

namespace Concurrent

open Memory

/-- Every slot that has the key is reached from its hash. -/
def Memory.Reached {K V : Type} (hash : K → ℕ) (k : K) (m : Memory K V) : Prop :=
  ∀ n i, m.Owns k n i → Placed (m.nodes n).capacity (m.nodes n).first (hash k) i

/-- Slot `i` is the one that a probe of table `n` for the key finds. -/
def Memory.Finds {K V : Type} (hash : K → ℕ) (k : K) (m : Memory K V) (n i : ℕ) : Prop :=
  m.Owns k n i ∧ ∃ d, (hash k + d) % (m.nodes n).capacity = i ∧
    ∀ d' < d, (m.nodes n).first ((hash k + d') % (m.nodes n).capacity) ≠ none ∧
      (m.nodes n).first ((hash k + d') % (m.nodes n).capacity) ≠ some k

/-- Where a thread holds the resize flag. -/
def Pc.Resizing {V : Type} : Pc V → Prop
  | .resize _ _ _ => True
  | .publish _ _ _ _ _ => True
  | .clear _ _ _ _ => True
  | _ => False

/-- What a thread with key `κ` knows where it is. -/
def Pc.Knows {K V : Type} (hash : K → ℕ) (κ : K) (m : Memory K V) : Pc V → Prop
  | .idle => True
  | .load _ => True
  | .find _ main cur d => cur ≤ main ∧ main ≤ m.mainHash ∧ m.Probed (hash κ) cur d ∧
      ∀ d' < d, (m.nodes cur).first ((hash κ + d') % (m.nodes cur).capacity) ≠ some κ
  | .readValue _ main cur i => cur ≤ main ∧ main ≤ m.mainHash ∧ m.Finds hash κ cur i
  | .promote _ main d _ => m.Probed (hash κ) main d ∧ ∃ n < main, ∃ i, m.Owns κ n i
  | .promoteStore _ main i _ => m.Owns κ main i ∧ ∃ n < main, ∃ i, m.Owns κ n i
  | .found _ main i => m.Owns κ main i
  | .add _ _ main => main ≤ m.mainHash
  | .testAndSet _ _ main _ => main ≤ m.mainHash
  | .resize _ _ _ => m.resizing = some κ
  | .publish _ _ main newCapacity _ =>
      m.resizing = some κ ∧ main = m.mainHash ∧ newCapacity = (m.nodes main).capacity * 2
  | .clear _ _ main _ => m.resizing = some κ ∧ main ≤ m.mainHash
  | .insert _ _ main d => m.Probed (hash κ) main d
  | .exchange _ _ main d => m.Probed (hash κ) main d
  | .store _ _ main i => m.Owns κ main i
  | .reload _ _ _ => True

namespace Memory

variable {K V : Type} {hash : K → ℕ} {e : ℕ} {k : K} {m : Memory K V} {n i d : ℕ} {v : Option V}

namespace Finds

theorem unique {j : ℕ} (hi : m.Finds hash k n i) (hj : m.Finds hash k n j) : i = j := by
  obtain ⟨hoi, d, rfl, hpass⟩ := hi
  obtain ⟨hoj, d', rfl, hpass'⟩ := hj
  rcases Nat.lt_trichotomy d d' with hlt | rfl | hgt
  · exact absurd hoi.2.2 (hpass' d hlt).2
  · rfl
  · exact absurd hoj.2.2 (hpass d' hgt).2

/-- The first slot with the key on the probe path. -/
theorem of_probed (hch : m.Chain e) (hp : m.Probed (hash k) n d)
    (hne : ∀ d' < d, (m.nodes n).first ((hash k + d') % (m.nodes n).capacity) ≠ some k)
    (hkey : (m.nodes n).first ((hash k + d) % (m.nodes n).capacity) = some k) :
    m.Finds hash k n ((hash k + d) % (m.nodes n).capacity) :=
  ⟨⟨hp.1, hp.slot_lt hch, hkey⟩, d, rfl, fun d' hd' => ⟨hp.2 d' hd', hne d' hd'⟩⟩

/-- The first slot of a table that gets the key. -/
theorem of_fill (hch : m.Chain e) (hp : m.Probed (hash k) n d) (hnot : ∀ i, ¬ m.Owns k n i)
    (hfree : (m.nodes n).first ((hash k + d) % (m.nodes n).capacity) = none) :
    (m.fill n ((hash k + d) % (m.nodes n).capacity) k).Finds hash k n ((hash k + d) % (m.nodes n).capacity) := by
  refine ⟨(owns_fill hp.1 (hp.slot_lt hch) hfree _ _).mpr (.inr ⟨rfl, rfl⟩), d, ?_, fun d' hd' => ?_⟩
  · rw [fill_capacity]
  · have hother : (hash k + d') % (m.nodes n).capacity ≠ (hash k + d) % (m.nodes n).capacity := by
      intro heq
      exact hp.2 d' hd' (heq ▸ hfree)
    rw [fill_capacity, fill_first, if_neg fun h => hother h.2]
    refine ⟨hp.2 d' hd', fun hkey => ?_⟩
    exact hnot _ ⟨hp.1, Nat.mod_lt _ (hch.capacity_pos hp.1), hkey⟩

end Finds

/-- A key goes into the first free slot of its probe path, whether the table has it or not. -/
theorem Reached.fill (h : m.Reached hash k) (hch : m.Chain e) (hp : m.Probed (hash k) n d)
    (hfree : (m.nodes n).first ((hash k + d) % (m.nodes n).capacity) = none) :
    (m.fill n ((hash k + d) % (m.nodes n).capacity) k).Reached hash k := by
  have hi := hp.slot_lt hch
  intro n' x hx
  have hmono : ∀ y < (m.nodes n').capacity, (m.nodes n').first y ≠ none →
      ((m.fill n ((hash k + d) % (m.nodes n).capacity) k).nodes n').first y ≠ none := by
    intro y _ hy
    rw [fill_first]
    split
    · rintro ⟨⟩
    · exact hy
  rw [fill_capacity]
  rcases (owns_fill hp.1 hi hfree n' x).mp hx with hx | ⟨rfl, rfl⟩
  · exact (h n' x hx).mono hmono
  · exact Placed.mono ⟨d, hp.lt_capacity ⟨_, hi, hfree⟩, rfl, hp.2⟩ hmono

theorem Reached.storeSecond (h : m.Reached hash k) (n i : ℕ) (v : Option V) : (m.storeSecond n i v).Reached hash k := by
  intro n' x hx
  simpa using h n' x ((owns_storeSecond ..).mp hx)

end Memory

namespace Shared

variable {T K V : Type} {hash : K → ℕ} {w e : ℕ} {k κ : K} {m m' m'' : Memory K V} {n i d : ℕ} {v : Option V}
  {pc pc' : Pc V} {r : Memory K V × Pc V}

abbrev State (T K V : Type) := Interleaving.State T (Memory K V) (Pc V)

/-- A new `HashTable`, no thread in a call. -/
def start (T : Type) (e : ℕ) : State T K V := ⟨(fresh (2 ^ e)).memory, fun _ => .idle⟩

abbrev Step [DecidableEq T] [DecidableEq K] (hash : K → ℕ) (w : ℕ) (key : T → K) :
    State T K V → T × Act V → State T K V → Prop :=
  Interleaving.Step fun t => ThreadStep hash w (key t)

/-! ## What every step does to the tables -/

/-- The tables only get more, and slots are only filled. -/
structure Grows (m m' : Memory K V) : Prop where
  mainHash : m.mainHash ≤ m'.mainHash
  capacity : ∀ n ≤ m.mainHash, (m'.nodes n).capacity = (m.nodes n).capacity
  filled : ∀ n ≤ m.mainHash, ∀ i, (m.nodes n).first i ≠ none → (m'.nodes n).first i = (m.nodes n).first i

/-- Nothing is done to the key. -/
structure Leaves (k : K) (m m' : Memory K V) : Prop where
  owns : ∀ n i, m'.Owns k n i ↔ m.Owns k n i
  second : ∀ n i, m.Owns k n i → (m'.nodes n).second i = (m.nodes n).second i
  returns : m'.returns k = m.returns k

/-- The slots without a key have no value. -/
def Blank (m : Memory K V) : Prop := ∀ n ≤ m.mainHash, ∀ i, (m.nodes n).first i = none → (m.nodes n).second i = none

namespace Grows

theorem of_eq (hn : m'.nodes = m.nodes) (hm : m'.mainHash = m.mainHash) : Grows m m' :=
  ⟨hm.ge, fun _ _ => by rw [hn], fun _ _ _ _ => by rw [hn]⟩

theorem refl (m : Memory K V) : Grows m m := .of_eq rfl rfl

theorem fill (hfree : (m.nodes n).first i = none) (κ : K) : Grows m (m.fill n i κ) := by
  refine ⟨le_rfl, fun _ _ => by simp, fun j _ x hx => ?_⟩
  rw [fill_first, if_neg]
  rintro ⟨rfl, rfl⟩
  exact hx hfree

theorem storeSecond (n i : ℕ) (v : Option V) (m : Memory K V) : Grows m (m.storeSecond n i v) :=
  ⟨le_rfl, fun _ _ => by simp, fun _ _ _ _ => by simp⟩

theorem publish (newCapacity main : ℕ) (m : Memory K V) : Grows m (m.publish newCapacity main) :=
  ⟨Nat.le_succ _, fun j hj => by rw [publish_nodes_of_le hj], fun j hj x _ => by rw [publish_nodes_of_le hj]⟩

theorem owns (h : Grows m m') (ho : m.Owns k n i) : m'.Owns k n i := by
  obtain ⟨hn, hi, hf⟩ := ho
  refine ⟨hn.trans h.mainHash, by rwa [h.capacity n hn], ?_⟩
  rw [h.filled n hn i (by rw [hf]; exact nofun), hf]

theorem probed (h : Grows m m') {a : ℕ} (hp : m.Probed a n d) : m'.Probed a n d := by
  refine ⟨hp.1.trans h.mainHash, fun d' hd' => ?_⟩
  rw [h.capacity n hp.1, h.filled n hp.1 _ (hp.2 d' hd')]
  exact hp.2 d' hd'

/-- A slot that is found stays the one that is found: keys go into free slots only. -/
theorem finds (h : Grows m m') (hf : m.Finds hash k n i) : m'.Finds hash k n i := by
  obtain ⟨ho, d, hd, hpass⟩ := hf
  refine ⟨h.owns ho, d, ?_, fun d' hd' => ?_⟩
  · rw [h.capacity n ho.1]
    exact hd
  · rw [h.capacity n ho.1, h.filled n ho.1 _ (hpass d' hd').1]
    exact hpass d' hd'

end Grows

namespace Leaves

theorem of_eq (hn : m'.nodes = m.nodes) (hm : m'.mainHash = m.mainHash) (hr : m'.returns k = m.returns k) :
    Leaves k m m' :=
  ⟨fun n i => by simp only [Owns, hn, hm], fun _ _ _ => by rw [hn], hr⟩

theorem refl (k : K) (m : Memory K V) : Leaves k m m := .of_eq rfl rfl rfl

theorem fill (hne : k ≠ κ) (hfree : (m.nodes n).first i = none) : Leaves k m (m.fill n i κ) := by
  refine ⟨fun j x => ?_, fun _ _ _ => by simp, rfl⟩
  simp only [Owns, fill_mainHash, fill_capacity, fill_first]
  by_cases hslot : j = n ∧ x = i
  · obtain ⟨rfl, rfl⟩ := hslot
    simp [hfree, hne.symm]
  · rw [if_neg hslot]

theorem storeSecond (hne : k ≠ κ) (ho : m.Owns κ n i) (v : Option V) : Leaves k m (m.storeSecond n i v) := by
  refine ⟨fun _ _ => owns_storeSecond .., fun j x hx => ?_, rfl⟩
  rw [storeSecond_second, if_neg]
  rintro ⟨rfl, rfl⟩
  exact hne (Option.some.inj (hx.2.2.symm.trans ho.2.2))

theorem publish (k : K) (newCapacity main : ℕ) (m : Memory K V) : Leaves k m (m.publish newCapacity main) :=
  ⟨fun _ _ => owns_publish .., fun n _ ho => by rw [publish_nodes_of_le ho.1], rfl⟩

theorem finish [DecidableEq K] (hne : k ≠ κ) (h : Leaves k m m') (c : Call V) (r : Result V) :
    Leaves k m (m'.finish κ c r).1 :=
  ⟨h.owns, h.second, (Function.update_of_ne hne _ _).trans h.returns⟩

end Leaves

theorem Blank.storeSecond (h : Blank m) (ho : m.Owns k n i) (v : Option V) : Blank (m.storeSecond n i v) := by
  intro j hj x hx
  rw [storeSecond_first] at hx
  rw [storeSecond_second, if_neg]
  · exact h j hj x hx
  · rintro ⟨rfl, rfl⟩
    exact absurd (hx.symm.trans ho.2.2) nofun

theorem Blank.fill (h : Blank m) (n i : ℕ) (k : K) : Blank (m.fill n i k) := by
  intro j hj x hx
  rw [fill_second]
  refine h j hj x ?_
  rw [fill_first] at hx
  split at hx
  · exact absurd hx nofun
  · exact hx

theorem Blank.publish (h : Blank m) (newCapacity main : ℕ) : Blank (m.publish newCapacity main) := by
  intro j hj x hx
  rcases Nat.le_succ_iff.mp hj with hle | rfl
  · rw [publish_nodes_of_le hle] at hx ⊢
    exact h j hle x hx
  · rw [Nat.succ_eq_add_one, publish_nodes_new]
    rfl

/-! ## What a thread knows -/

/-- What a thread knows stays true as long as nobody takes the resize flag from it. -/
theorem Knows.mono (h : pc.Knows hash κ m) (hg : Grows m m')
    (hflag : pc.Resizing → m'.resizing = m.resizing ∧ m'.mainHash = m.mainHash) : pc.Knows hash κ m' := by
  cases pc with
  | idle => trivial
  | load c => trivial
  | find c main cur d =>
      obtain ⟨hcur, hmain, hp, hne⟩ := h
      refine ⟨hcur, hmain.trans hg.mainHash, hg.probed hp, fun d' hd' => ?_⟩
      rw [hg.capacity cur hp.1, hg.filled cur hp.1 _ (hp.2 d' hd')]
      exact hne d' hd'
  | readValue c main cur i => exact ⟨h.1, h.2.1.trans hg.mainHash, hg.finds h.2.2⟩
  | promote c main d v =>
      obtain ⟨hp, n, hn, i, ho⟩ := h
      exact ⟨hg.probed hp, n, hn, i, hg.owns ho⟩
  | promoteStore c main i v =>
      obtain ⟨howns, n, hn, i', ho⟩ := h
      exact ⟨hg.owns howns, n, hn, i', hg.owns ho⟩
  | found c main i => exact hg.owns h
  | add c v main => exact Nat.le_trans h hg.mainHash
  | testAndSet c v main newCount => exact Nat.le_trans h hg.mainHash
  | resize c v newCount => exact (hflag trivial).1.trans h
  | publish c v main newCapacity newCount =>
      obtain ⟨hres, rfl, hcap⟩ := h
      exact ⟨(hflag trivial).1.trans hres, (hflag trivial).2.symm, by rw [hg.capacity _ le_rfl]; exact hcap⟩
  | clear c v main newCount => exact ⟨(hflag trivial).1.trans h.1, h.2.trans hg.mainHash⟩
  | insert c v main d => exact hg.probed h
  | exchange c v main d => exact hg.probed h
  | store c v main i => exact hg.owns h
  | reload c v newCount => trivial

theorem Knows.flag (h : pc.Knows hash κ m) (hres : pc.Resizing) : m.resizing = some κ := by
  cases pc with
  | resize c v newCount => exact h
  | publish c v main newCapacity newCount => exact h.1
  | clear c v main newCount => exact h.1
  | _ => exact absurd hres id

/-- What a step of a thread with key `κ` comes to, for it and for the others. -/
structure Sound (hash : K → ℕ) (e : ℕ) (κ : K) (m : Memory K V) (pc : Pc V) (r : Memory K V × Pc V) : Prop where
  chain : r.1.Chain e
  blank : Blank r.1
  knows : r.2.Knows hash κ r.1
  grows : Grows m r.1
  leaves : ∀ k ≠ κ, Leaves k m r.1
  takes : r.2.Resizing → pc.Resizing ∨ m.resizing = none
  keeps : ¬ pc.Resizing → r.1.mainHash = m.mainHash ∧ (m.resizing ≠ none → r.1.resizing = m.resizing)

/-- A step that only moves the thread. -/
theorem Sound.move (hch : m.Chain e) (hb : Blank m) (hk : pc'.Knows hash κ m)
    (hflag : pc'.Resizing → pc.Resizing) : Sound hash e κ m pc (m, pc') :=
  ⟨hch, hb, hk, .refl m, fun k _ => .refl k m, fun h => .inl (hflag h), fun _ => ⟨rfl, fun _ => rfl⟩⟩

/-- A step that ends the call, the memory being changed before. -/
theorem Sound.finish [DecidableEq K] (hch : m'.Chain e) (hb : Blank m') (hg : Grows m m')
    (hl : ∀ k ≠ κ, Leaves k m m') (hmain : m'.mainHash = m.mainHash) (hres : m'.resizing = m.resizing) (c : Call V)
    (r : Result V) : Sound hash e κ m pc (m'.finish κ c r) :=
  ⟨hch, hb, trivial, ⟨hg.mainHash, hg.capacity, hg.filled⟩, fun k hk => (hl k hk).finish hk c r, nofun,
    fun _ => ⟨hmain, fun _ => hres⟩⟩

theorem Sound.storeSecond (hch : m.Chain e) (hb : Blank m) (ho : m.Owns κ n i) (v : Option V)
    (hk : pc'.Knows hash κ (m.storeSecond n i v)) (hflag : ¬ pc'.Resizing) :
    Sound hash e κ m pc (m.storeSecond n i v, pc') :=
  ⟨fun j hj => by simpa using hch j hj, hb.storeSecond ho v, hk, .storeSecond n i v m,
    fun _ hk => .storeSecond hk ho v, fun h => absurd h hflag, fun _ => ⟨rfl, fun _ => rfl⟩⟩

theorem Sound.fill (hch : m.Chain e) (hb : Blank m) (hfree : (m.nodes n).first i = none)
    (hk : pc'.Knows hash κ (m.fill n i κ)) (hflag : ¬ pc'.Resizing) : Sound hash e κ m pc (m.fill n i κ, pc') :=
  ⟨fun j hj => by simpa using hch j hj, hb.fill n i κ, hk, .fill hfree κ, fun _ hk => .fill hk hfree,
    fun h => absurd h hflag, fun _ => ⟨rfl, fun _ => rfl⟩⟩

theorem checkSpace_knows (c : Call V) (v : V) {main : ℕ} (hmain : main ≤ m'.mainHash) (newCount : ℕ) :
    (checkSpace m c v main newCount).Knows hash κ m' := by
  unfold checkSpace
  split
  · exact .zero hmain
  · trivial

theorem addLoop_knows (c : Call V) (v : V) {main : ℕ} (hmain : main ≤ m'.mainHash) (newCount : ℕ) :
    (addLoop m c v main newCount).Knows hash κ m' := by
  unfold addLoop
  split
  · exact hmain
  · exact checkSpace_knows c v hmain newCount

theorem checkSpace_not_resizing (c : Call V) (v : V) (main newCount : ℕ) :
    ¬ (checkSpace m c v main newCount).Resizing := by
  unfold checkSpace
  split <;> exact id

theorem addLoop_not_resizing (c : Call V) (v : V) (main newCount : ℕ) :
    ¬ (addLoop m c v main newCount).Resizing := by
  unfold addLoop
  split
  · exact id
  · exact checkSpace_not_resizing c v main newCount

section Access

variable [DecidableEq K]

theorem notFound_sound (hch : m.Chain e) (hb : Blank m) (c : Call V) {main : ℕ} (hmain : main ≤ m.mainHash) :
    Sound hash e κ m pc (notFound κ m c main) := by
  have hret : ∀ r : Result V, Sound hash e κ m pc (m.finish κ c r) :=
    .finish hch hb (.refl m) (fun k _ => .refl k m) rfl rfl c
  match c with
  | .get => exact hret _
  | .set v => exact .move hch hb hmain nofun
  | .getOrAdd v => exact .move hch hb hmain nofun
  | .getOrAddByFunc (some v) => exact .move hch hb hmain nofun
  | .getOrAddByFunc none => exact hret _

theorem useEntry_sound (hch : m.Chain e) (hb : Blank m) (c : Call V) (ho : m.Owns κ n i) :
    Sound hash e κ m pc (useEntry κ m c n i) := by
  have hret : ∀ r : Result V, Sound hash e κ m pc (m.finish κ c r) :=
    .finish hch hb (.refl m) (fun k _ => .refl k m) rfl rfl c
  cases c with
  | get => exact hret _
  | set v =>
      refine .finish (fun j hj => by simpa using hch j hj) (hb.storeSecond ho _) (.storeSecond n i _ m)
        (fun _ hk => .storeSecond hk ho _) rfl rfl _ _
  | getOrAdd v => exact hret _
  | getOrAddByFunc v => exact hret _

/-- **Access.** -/
theorem Knows.access (hk : pc.Knows hash κ m) (hch : m.Chain e) (hb : Blank m)
    (hs : access hash w κ m pc = some r) : Sound hash e κ m pc r := by
  cases pc with
  | idle => exact absurd hs (by rintro ⟨⟩)
  | load c =>
      obtain rfl := Option.some.inj hs
      exact .move hch hb ⟨le_rfl, le_rfl, .zero le_rfl, fun _ => by rintro ⟨⟩⟩ (by rintro ⟨⟩)
  | find c main cur d =>
      obtain ⟨hcur, hmain, hp, hne⟩ := hk
      simp only [Concurrent.access] at hs
      by_cases hkey : (m.nodes cur).first ((hash κ + d) % (m.nodes cur).capacity) = some κ
      · rw [if_pos hkey] at hs
        obtain rfl := Option.some.inj hs
        exact .move hch hb ⟨hcur, hmain, .of_probed hch hp hne hkey⟩ (by rintro ⟨⟩)
      · rw [if_neg hkey] at hs
        by_cases hnone : (m.nodes cur).first ((hash κ + d) % (m.nodes cur).capacity) = none
        · rw [if_pos hnone, (hch cur hp.1).2] at hs
          by_cases hzero : cur = 0
          · rw [if_pos hzero] at hs
            obtain rfl := Option.some.inj hs
            exact notFound_sound hch hb c hmain
          · rw [if_neg hzero] at hs
            obtain rfl := Option.some.inj hs
            exact .move hch hb ⟨(Nat.sub_le ..).trans hcur, hmain, .zero ((Nat.sub_le ..).trans hp.1), fun _ => by rintro ⟨⟩⟩
              (by rintro ⟨⟩)
        · rw [if_neg hnone] at hs
          obtain rfl := Option.some.inj hs
          refine .move hch hb ⟨hcur, hmain, hp.succ hnone, fun d' hd' => ?_⟩ (by rintro ⟨⟩)
          rcases Nat.lt_succ_iff_lt_or_eq.mp hd' with hlt | rfl
          · exact hne d' hlt
          · exact hkey
  | readValue c main cur i =>
      obtain ⟨hcur, hmain, hf⟩ := hk
      simp only [Concurrent.access] at hs
      by_cases heq : cur = main
      · rw [if_pos heq] at hs
        obtain rfl := Option.some.inj hs
        subst heq
        exact .move hch hb hf.1 (by rintro ⟨⟩)
      · rw [if_neg heq] at hs
        obtain rfl := Option.some.inj hs
        exact .move hch hb ⟨.zero hmain, cur, Nat.lt_of_le_of_ne hcur heq, i, hf.1⟩ (by rintro ⟨⟩)
  | promote c main d v =>
      obtain ⟨hp, n, hn, i, ho⟩ := hk
      simp only [Concurrent.access] at hs
      by_cases hnone : (m.nodes main).first ((hash κ + d) % (m.nodes main).capacity) = none
      · rw [if_pos hnone] at hs
        obtain rfl := Option.some.inj hs
        refine .fill hch hb hnone ⟨?_, n, hn, i, ?_⟩ (by rintro ⟨⟩)
        · exact (owns_fill hp.1 (hp.slot_lt hch) hnone _ _).mpr (Or.inr ⟨rfl, rfl⟩)
        · exact (owns_fill hp.1 (hp.slot_lt hch) hnone _ _).mpr (Or.inl ho)
      · rw [if_neg hnone] at hs
        obtain rfl := Option.some.inj hs
        exact .move hch hb ⟨hp.succ hnone, n, hn, i, ho⟩ (by rintro ⟨⟩)
  | promoteStore c main i v =>
      obtain rfl := Option.some.inj hs
      exact .storeSecond hch hb hk.1 v ((owns_storeSecond ..).mpr hk.1) (by rintro ⟨⟩)
  | found c main i =>
      obtain rfl := Option.some.inj hs
      exact useEntry_sound hch hb c hk
  | add c v main =>
      obtain rfl := Option.some.inj hs
      exact ⟨hch, hb, addLoop_knows c v hk _, .of_eq rfl rfl, fun _ _ => .of_eq rfl rfl rfl,
        fun h => absurd h (addLoop_not_resizing c v _ _), fun _ => ⟨rfl, fun _ => rfl⟩⟩
  | testAndSet c v main newCount =>
      simp only [Concurrent.access] at hs
      by_cases hres : m.resizing = none
      · rw [if_pos hres] at hs
        obtain rfl := Option.some.inj hs
        exact ⟨hch, hb, rfl, .of_eq rfl rfl, fun _ _ => .of_eq rfl rfl rfl, fun _ => .inr hres,
          fun _ => ⟨rfl, fun h => absurd hres h⟩⟩
      · rw [if_neg hres] at hs
        obtain rfl := Option.some.inj hs
        exact .move hch hb (checkSpace_knows c v hk _) fun h => absurd h (checkSpace_not_resizing c v _ _)
  | resize c v newCount =>
      simp only [Concurrent.access] at hs
      by_cases hroom : newCount < (m.nodes m.mainHash).capacity / 2
      · rw [if_pos hroom] at hs
        obtain rfl := Option.some.inj hs
        exact .move hch hb ⟨hk, le_rfl⟩ fun _ => trivial
      · rw [if_neg hroom, Option.map_eq_some_iff] at hs
        obtain ⟨count, -, rfl⟩ := hs
        exact .move hch hb ⟨hk, rfl, rfl⟩ fun _ => trivial
  | publish c v main newCapacity newCount =>
      obtain ⟨hres, rfl, rfl⟩ := hk
      obtain rfl := Option.some.inj hs
      exact ⟨hch.publish, hb.publish _ _, ⟨hres, le_rfl⟩, .publish _ _ m, fun k _ => .publish k _ _ m,
        fun _ => .inl trivial, fun h => absurd trivial h⟩
  | clear c v main newCount =>
      obtain rfl := Option.some.inj hs
      have hmain : main ≤ Memory.mainHash { m with resizing := none } := hk.2
      exact ⟨hch, hb, checkSpace_knows c v hmain _, .of_eq rfl rfl, fun _ _ => .of_eq rfl rfl rfl,
        fun h => absurd h (checkSpace_not_resizing c v _ _), fun h => absurd trivial h⟩
  | insert c v main d =>
      simp only [Concurrent.access] at hs
      by_cases hnone : (m.nodes main).first ((hash κ + d) % (m.nodes main).capacity) = none
      · rw [if_pos hnone] at hs
        obtain rfl := Option.some.inj hs
        exact .move hch hb hk (by rintro ⟨⟩)
      · rw [if_neg hnone] at hs
        obtain rfl := Option.some.inj hs
        have hp : m.Probed (hash κ) main d := hk
        exact .move hch hb (hp.succ hnone) (by rintro ⟨⟩)
  | exchange c v main d =>
      have hp : m.Probed (hash κ) main d := hk
      simp only [Concurrent.access] at hs
      by_cases hnone : (m.nodes main).first ((hash κ + d) % (m.nodes main).capacity) = none
      · rw [if_pos hnone] at hs
        obtain rfl := Option.some.inj hs
        exact .fill hch hb hnone ((owns_fill hp.1 (hp.slot_lt hch) hnone _ _).mpr (Or.inr ⟨rfl, rfl⟩)) (by rintro ⟨⟩)
      · rw [if_neg hnone] at hs
        obtain rfl := Option.some.inj hs
        exact .move hch hb (hp.succ hnone) (by rintro ⟨⟩)
  | store c v main i =>
      obtain rfl := Option.some.inj hs
      have hret : ∀ c' (r : Result V), Sound hash e κ m (.store c v main i) ((m.storeSecond main i (some v)).finish κ c' r) :=
        .finish (fun j hj => by simpa using hch j hj) (hb.storeSecond hk _) (.storeSecond main i _ m)
          (fun _ hne => .storeSecond hne hk _) rfl rfl
      cases c <;> exact hret _ _
  | reload c v newCount =>
      obtain rfl := Option.some.inj hs
      exact .move hch hb (addLoop_knows c v le_rfl _) fun h => absurd h (addLoop_not_resizing c v _ _)

theorem Knows.step {a : Act V} (hk : pc.Knows hash κ m) (hch : m.Chain e) (hb : Blank m)
    (hs : ThreadStep hash w κ (m, pc) a r) : Sound hash e κ m pc r := by
  cases hs with
  | call c => exact .move hch hb trivial nofun
  | access hacc => exact Knows.access hk hch hb hacc
  | throws => exact .move hch hb trivial nofun

end Access

/-! ## Runs -/

/-- What is true in every run: each thread knows what it should, and one at most holds the resize flag. -/
structure Inv (hash : K → ℕ) (e : ℕ) (key : T → K) (s : State T K V) : Prop where
  chain : s.memory.Chain e
  blank : Blank s.memory
  knows : ∀ t, (s.threads t).Knows hash (key t) s.memory
  alone : ∀ t t', (s.threads t).Resizing → (s.threads t').Resizing → t' = t

variable {key : T → K}

theorem Inv.start (hash : K → ℕ) (e : ℕ) (key : T → K) : Inv hash e key (start T e : State T K V) :=
  ⟨.fresh e, fun _ _ _ _ => rfl, fun _ => trivial, fun _ _ h => absurd h id⟩

variable [DecidableEq K] {ls : T → Pc V} {t : T} {a : Act V}

theorem Inv.sound (h : Inv hash e key ⟨m, ls⟩) (hs : ThreadStep hash w (key t) (m, ls t) a r) :
    Sound hash e (key t) m (ls t) r :=
  Knows.step (h.knows t) h.chain h.blank hs

/-- **Step.** -/
theorem Inv.step [DecidableEq T] (h : Inv hash e key ⟨m, ls⟩) (hs : ThreadStep hash w (key t) (m, ls t) a r) :
    Inv hash e key ⟨r.1, Function.update ls t r.2⟩ := by
  have hsound := h.sound hs
  -- a thread that now has the flag had it before, or nobody had it
  have honly : ∀ t', r.2.Resizing → t' ≠ t → ¬ (ls t').Resizing := by
    intro t' hres ht hres'
    rcases hsound.takes hres with hbefore | hnone
    · exact ht (h.alone t t' hbefore hres')
    · exact absurd (hnone.symm.trans (Knows.flag (h.knows t') hres')) nofun
  refine ⟨hsound.chain, hsound.blank, fun t' => ?_, fun t₁ t₂ h₁ h₂ => ?_⟩
  · by_cases ht : t' = t
    · subst ht
      simpa only [Function.update_self] using hsound.knows
    · simp only [Function.update_of_ne ht]
      refine Knows.mono (h.knows t') hsound.grows fun hres => ?_
      have hkeeps := hsound.keeps fun hres' => ht (h.alone t t' hres' hres)
      have hflag : m.resizing ≠ none := by
        rw [Knows.flag (h.knows t') hres]
        exact nofun
      exact ⟨hkeeps.2 hflag, hkeeps.1⟩
  · simp only [Function.update_apply] at h₁ h₂
    by_cases ht₁ : t₁ = t <;> by_cases ht₂ : t₂ = t
    · exact ht₂.trans ht₁.symm
    · rw [if_pos ht₁] at h₁
      rw [if_neg ht₂] at h₂
      exact absurd h₂ (honly t₂ h₁ ht₂)
    · rw [if_neg ht₁] at h₁
      rw [if_pos ht₂] at h₂
      exact absurd h₁ (honly t₁ h₂ ht₁)
    · rw [if_neg ht₁] at h₁
      rw [if_neg ht₂] at h₂
      exact h.alone t₁ t₂ h₁ h₂

end Shared

end Concurrent

end HashTable

end LockFreeStructures
