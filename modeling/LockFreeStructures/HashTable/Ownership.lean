import LockFreeStructures.HashTable.Concurrent
import LockFreeStructures.HashTable.FiniteMap

/-!
# `HashTable.Ownership` — what a thread knows of its own key

Only thread `k` ever fills a slot with `k`, and no slot is emptied again. So a thread knows at every point of a
call which tables have its key, whatever the others do in between: `Pc.At` says what, point by point, and
`Rely` what the others may do to the memory.
-/

namespace LockFreeStructures

namespace HashTable

namespace Concurrent

variable {K V : Type} {hash : K → ℕ} {w e : ℕ} {k k' : K} {m m' m'' : Memory K V} {n i j d x : ℕ} {v : Option V} {pc : Pc V}

/-! ## The memory operations -/

namespace Memory

@[simp] theorem fill_first (n i : ℕ) (k : K) (m : Memory K V) (j x : ℕ) :
    ((m.fill n i k).nodes j).first x = if j = n ∧ x = i then some k else (m.nodes j).first x := by
  by_cases hj : j = n
  · subst hj
    simp [fill, Node.fill, Function.update_apply]
  · simp [fill, hj]

@[simp] theorem fill_capacity (n i : ℕ) (k : K) (m : Memory K V) (j : ℕ) :
    ((m.fill n i k).nodes j).capacity = (m.nodes j).capacity := by
  by_cases hj : j = n
  · subst hj
    simp [fill, Node.fill]
  · simp [fill, hj]

@[simp] theorem fill_prev (n i : ℕ) (k : K) (m : Memory K V) (j : ℕ) :
    ((m.fill n i k).nodes j).prev = (m.nodes j).prev := by
  by_cases hj : j = n
  · subst hj
    simp [fill, Node.fill]
  · simp [fill, hj]

@[simp] theorem fill_second (n i : ℕ) (k : K) (m : Memory K V) (j : ℕ) :
    ((m.fill n i k).nodes j).second = (m.nodes j).second := by
  by_cases hj : j = n
  · subst hj
    simp [fill, Node.fill]
  · simp [fill, hj]

@[simp] theorem storeSecond_first (n i : ℕ) (v : Option V) (m : Memory K V) (j : ℕ) :
    ((m.storeSecond n i v).nodes j).first = (m.nodes j).first := by
  by_cases hj : j = n
  · subst hj
    simp [storeSecond, Node.store]
  · simp [storeSecond, hj]

@[simp] theorem storeSecond_capacity (n i : ℕ) (v : Option V) (m : Memory K V) (j : ℕ) :
    ((m.storeSecond n i v).nodes j).capacity = (m.nodes j).capacity := by
  by_cases hj : j = n
  · subst hj
    simp [storeSecond, Node.store]
  · simp [storeSecond, hj]

@[simp] theorem storeSecond_prev (n i : ℕ) (v : Option V) (m : Memory K V) (j : ℕ) :
    ((m.storeSecond n i v).nodes j).prev = (m.nodes j).prev := by
  by_cases hj : j = n
  · subst hj
    simp [storeSecond, Node.store]
  · simp [storeSecond, hj]

@[simp] theorem storeSecond_second (n i : ℕ) (v : Option V) (m : Memory K V) (j x : ℕ) :
    ((m.storeSecond n i v).nodes j).second x = if j = n ∧ x = i then v else (m.nodes j).second x := by
  by_cases hj : j = n
  · subst hj
    simp [storeSecond, Node.store, Function.update_apply]
  · simp [storeSecond, hj]

theorem publish_nodes_of_le {newCapacity main : ℕ} (h : j ≤ m.mainHash) :
    (m.publish newCapacity main).nodes j = m.nodes j := by
  simp [publish, Nat.ne_of_lt (Nat.lt_succ_of_le h)]

theorem publish_nodes_new (newCapacity main : ℕ) (m : Memory K V) :
    (m.publish newCapacity main).nodes (m.mainHash + 1) = ⟨createNewHashNode newCapacity, some main⟩ := by
  simp [publish]

section Fields

variable (m : Memory K V)

@[simp] theorem fill_mainHash : (m.fill n i k).mainHash = m.mainHash := rfl
@[simp] theorem fill_resizing : (m.fill n i k).resizing = m.resizing := rfl
@[simp] theorem fill_tickets : (m.fill n i k).tickets = m.tickets := rfl
@[simp] theorem fill_returns : (m.fill n i k).returns = m.returns := rfl
@[simp] theorem fill_entriesCount : (m.fill n i k).entriesCount = m.entriesCount := rfl
@[simp] theorem storeSecond_mainHash : (m.storeSecond n i v).mainHash = m.mainHash := rfl
@[simp] theorem storeSecond_resizing : (m.storeSecond n i v).resizing = m.resizing := rfl
@[simp] theorem storeSecond_tickets : (m.storeSecond n i v).tickets = m.tickets := rfl
@[simp] theorem storeSecond_returns : (m.storeSecond n i v).returns = m.returns := rfl
@[simp] theorem storeSecond_entriesCount : (m.storeSecond n i v).entriesCount = m.entriesCount := rfl
@[simp] theorem publish_mainHash : (m.publish n i).mainHash = m.mainHash + 1 := rfl
@[simp] theorem publish_resizing : (m.publish n i).resizing = m.resizing := rfl
@[simp] theorem publish_tickets : (m.publish n i).tickets = m.tickets := rfl
@[simp] theorem publish_returns : (m.publish n i).returns = m.returns := rfl
@[simp] theorem publish_entriesCount : (m.publish n i).entriesCount = m.entriesCount := rfl

variable [DecidableEq K]

@[simp] theorem takeTicket_mainHash : (m.takeTicket k).mainHash = m.mainHash := rfl
@[simp] theorem takeTicket_resizing : (m.takeTicket k).resizing = m.resizing := rfl
@[simp] theorem takeTicket_nodes : (m.takeTicket k).nodes = m.nodes := rfl
@[simp] theorem takeTicket_returns : (m.takeTicket k).returns = m.returns := rfl

variable (c : Call V) (r : Result V)

@[simp] theorem finish_mainHash : (m.finish k c r).1.mainHash = m.mainHash := rfl
@[simp] theorem finish_resizing : (m.finish k c r).1.resizing = m.resizing := rfl
@[simp] theorem finish_nodes : (m.finish k c r).1.nodes = m.nodes := rfl
@[simp] theorem finish_tickets : (m.finish k c r).1.tickets = m.tickets := rfl
@[simp] theorem finish_entriesCount : (m.finish k c r).1.entriesCount = m.entriesCount := rfl
@[simp] theorem finish_pc : (m.finish k c r).2 = .idle := rfl

end Fields

/-! ## What a thread knows -/

/-- Slot `i` of table `n` has the key. -/
def Owns (k : K) (m : Memory K V) (n i : ℕ) : Prop :=
  n ≤ m.mainHash ∧ i < (m.nodes n).capacity ∧ (m.nodes n).first i = some k

/-- No table newer than `n` has the key. -/
def NewerLack (k : K) (m : Memory K V) (n : ℕ) : Prop := ∀ n' i, m.Owns k n' i → n' ≤ n

/-- No table has the key. -/
def Lacks (k : K) (m : Memory K V) : Prop := ∀ n i, ¬ m.Owns k n i

/-- The first `d` slots of a probe path were not free. -/
def Probed (h : ℕ) (m : Memory K V) (n d : ℕ) : Prop :=
  n ≤ m.mainHash ∧ ∀ d' < d, (m.nodes n).first ((h + d') % (m.nodes n).capacity) ≠ none

/-- The key is in one slot of a table at most, and there it is reached from its hash. -/
structure Keyed (hash : K → ℕ) (k : K) (m : Memory K V) : Prop where
  inj : ∀ n i j, m.Owns k n i → m.Owns k n j → i = j
  placed : ∀ n i, m.Owns k n i → Placed (m.nodes n).capacity (m.nodes n).first (hash k) i

/-- The tables: each has twice the slots of the one before it, which is its `Prev`. -/
def Chain (e : ℕ) (m : Memory K V) : Prop :=
  ∀ n ≤ m.mainHash, (m.nodes n).capacity = 2 ^ (e + n) ∧ (m.nodes n).prev = if n = 0 then none else some (n - 1)

theorem Chain.capacity_pos (h : m.Chain e) (hn : n ≤ m.mainHash) : 0 < (m.nodes n).capacity := by
  rw [(h n hn).1]
  exact Nat.two_pow_pos _

end Memory

open Memory

/-- What thread `k` knows where it is. -/
def Pc.At (hash : K → ℕ) (k : K) (m : Memory K V) : Pc V → Prop
  | .idle => True
  | .load _ => True
  | .find _ main cur d => cur ≤ main ∧ main ≤ m.mainHash ∧ m.NewerLack k cur ∧ m.Probed (hash k) cur d ∧
      ∀ d' < d, (m.nodes cur).first ((hash k + d') % (m.nodes cur).capacity) ≠ some k
  | .readValue _ main cur i => cur ≤ main ∧ main ≤ m.mainHash ∧ m.NewerLack k cur ∧ m.Owns k cur i
  | .promote _ main d _ => (∀ i, ¬ m.Owns k main i) ∧ m.Probed (hash k) main d
  | .promoteStore _ main i _ => m.Owns k main i
  | .found _ main i => m.Owns k main i
  | .add _ _ main => main ≤ m.mainHash ∧ m.Lacks k
  | .testAndSet _ _ main _ => main ≤ m.mainHash ∧ m.Lacks k
  | .resize _ _ _ => m.resizing = some k ∧ m.Lacks k
  | .publish _ _ main newCapacity _ =>
      m.resizing = some k ∧ main = m.mainHash ∧ newCapacity = (m.nodes main).capacity * 2 ∧ m.Lacks k
  | .clear _ _ main _ => m.resizing = some k ∧ main ≤ m.mainHash ∧ m.Lacks k
  | .insert _ _ main d => m.Lacks k ∧ m.Probed (hash k) main d
  | .exchange _ _ main d => m.Lacks k ∧ m.Probed (hash k) main d
  | .store _ _ main i => m.Owns k main i ∧ ∀ n j, m.Owns k n j → n = main ∧ j = i
  | .reload _ _ _ => m.Lacks k

/-- What thread `k` knows of the memory. -/
structure Own (hash : K → ℕ) (k : K) (m : Memory K V) (pc : Pc V) : Prop where
  keyed : m.Keyed hash k
  pc : pc.At hash k m

/-- What the other threads may do to the memory, as thread `k` sees it. -/
structure Rely (k : K) (m m' : Memory K V) : Prop where
  mainHash : m.mainHash ≤ m'.mainHash
  capacity : ∀ n ≤ m.mainHash, (m'.nodes n).capacity = (m.nodes n).capacity
  filled : ∀ n ≤ m.mainHash, ∀ i, (m.nodes n).first i ≠ none → (m'.nodes n).first i = (m.nodes n).first i
  mine : ∀ n ≤ m'.mainHash, ∀ i, (m'.nodes n).first i = some k → n ≤ m.mainHash ∧ (m.nodes n).first i = some k
  second : ∀ n ≤ m.mainHash, ∀ i, (m.nodes n).first i = some k → (m'.nodes n).second i = (m.nodes n).second i
  resizing : m.resizing = some k → m'.resizing = some k ∧ m'.mainHash = m.mainHash
  tickets : m'.tickets k = m.tickets k
  returns : m'.returns k = m.returns k

namespace Rely

theorem refl (k : K) (m : Memory K V) : Rely k m m :=
  ⟨le_rfl, fun _ _ => rfl, fun _ _ _ _ => rfl, fun _ hn _ h => ⟨hn, h⟩, fun _ _ _ _ => rfl, fun h => ⟨h, rfl⟩, rfl, rfl⟩

/-! ### What stays known -/

theorem owns_iff (h : Rely k m m') (n i : ℕ) : m'.Owns k n i ↔ m.Owns k n i := by
  constructor
  · rintro ⟨hn, hi, hf⟩
    obtain ⟨hn', hf'⟩ := h.mine n hn i hf
    exact ⟨hn', by rwa [h.capacity n hn'] at hi, hf'⟩
  · rintro ⟨hn, hi, hf⟩
    refine ⟨hn.trans h.mainHash, by rwa [h.capacity n hn], ?_⟩
    rw [h.filled n hn i (by rw [hf]; exact nofun), hf]

theorem newerLack (h : Rely k m m') (hl : m.NewerLack k n) : m'.NewerLack k n :=
  fun n' i ho => hl n' i ((h.owns_iff n' i).mp ho)

theorem lacks (h : Rely k m m') (hl : m.Lacks k) : m'.Lacks k :=
  fun n i ho => hl n i ((h.owns_iff n i).mp ho)

theorem probed (h : Rely k m m') {a : ℕ} (hp : m.Probed a n d) : m'.Probed a n d := by
  refine ⟨hp.1.trans h.mainHash, fun d' hd' => ?_⟩
  rw [h.capacity n hp.1, h.filled n hp.1 _ (hp.2 d' hd')]
  exact hp.2 d' hd'

theorem keyed (h : Rely k m m') (hk : m.Keyed hash k) : m'.Keyed hash k := by
  refine ⟨fun n i j hi hj => hk.inj n i j ((h.owns_iff n i).mp hi) ((h.owns_iff n j).mp hj), fun n i hi => ?_⟩
  have hown := (h.owns_iff n i).mp hi
  rw [h.capacity n hown.1]
  refine (hk.placed n i hown).mono fun x _ hx => ?_
  rw [h.filled n hown.1 x hx]
  exact hx

theorem at_ (h : Rely k m m') {pc : Pc V} (hpc : pc.At hash k m) : pc.At hash k m' := by
  cases pc with
  | idle => trivial
  | load c => trivial
  | find c main cur d =>
      obtain ⟨hcur, hmain, hnew, hp, hne⟩ := hpc
      refine ⟨hcur, hmain.trans h.mainHash, h.newerLack hnew, h.probed hp, fun d' hd' hf => hne d' hd' ?_⟩
      rw [h.capacity cur hp.1] at hf
      exact (h.mine cur (hp.1.trans h.mainHash) _ hf).2
  | readValue c main cur i =>
      obtain ⟨hcur, hmain, hnew, ho⟩ := hpc
      exact ⟨hcur, hmain.trans h.mainHash, h.newerLack hnew, (h.owns_iff _ _).mpr ho⟩
  | promote c main d v => exact ⟨fun i ho => hpc.1 i ((h.owns_iff _ _).mp ho), h.probed hpc.2⟩
  | promoteStore c main i v => exact (h.owns_iff _ _).mpr hpc
  | found c main i => exact (h.owns_iff _ _).mpr hpc
  | add c v main => exact ⟨hpc.1.trans h.mainHash, h.lacks hpc.2⟩
  | testAndSet c v main newCount => exact ⟨hpc.1.trans h.mainHash, h.lacks hpc.2⟩
  | resize c v newCount => exact ⟨(h.resizing hpc.1).1, h.lacks hpc.2⟩
  | publish c v main newCapacity newCount =>
      obtain ⟨hres, rfl, hcap, hl⟩ := hpc
      exact ⟨(h.resizing hres).1, (h.resizing hres).2.symm, by rw [h.capacity _ le_rfl]; exact hcap, h.lacks hl⟩
  | clear c v main newCount => exact ⟨(h.resizing hpc.1).1, hpc.2.1.trans h.mainHash, h.lacks hpc.2.2⟩
  | insert c v main d => exact ⟨h.lacks hpc.1, h.probed hpc.2⟩
  | exchange c v main d => exact ⟨h.lacks hpc.1, h.probed hpc.2⟩
  | store c v main i =>
      exact ⟨(h.owns_iff _ _).mpr hpc.1, fun n j ho => hpc.2 n j ((h.owns_iff _ _).mp ho)⟩
  | reload c v newCount => exact h.lacks hpc

/-! ### What the others do -/

theorem fill (hne : k ≠ k') (hfree : (m.nodes n).first i = none) : Rely k m (m.fill n i k') := by
  refine ⟨le_rfl, fun _ _ => by simp, fun j _ x hx => ?_, fun j hj x hx => ?_, fun _ _ _ _ => by simp,
    fun h => ⟨h, rfl⟩, rfl, rfl⟩
  · rw [fill_first, if_neg]
    rintro ⟨rfl, rfl⟩
    exact hx hfree
  · rw [fill_first] at hx
    by_cases hslot : j = n ∧ x = i
    · rw [if_pos hslot] at hx
      exact absurd (Option.some.inj hx).symm hne
    · rw [if_neg hslot] at hx
      exact ⟨hj, hx⟩

theorem storeSecond (hne : k ≠ k') (ho : m.Owns k' n i) (v : Option V) : Rely k m (m.storeSecond n i v) := by
  refine ⟨le_rfl, fun _ _ => by simp, fun _ _ _ _ => by simp, fun j hj x hx => ⟨hj, by simpa using hx⟩,
    fun j hj x hx => ?_, fun h => ⟨h, rfl⟩, rfl, rfl⟩
  rw [storeSecond_second, if_neg]
  rintro ⟨rfl, rfl⟩
  rw [ho.2.2] at hx
  exact hne (Option.some.inj hx).symm

theorem publish (hne : k ≠ k') (hres : m.resizing = some k') (newCapacity main : ℕ) :
    Rely k m (m.publish newCapacity main) := by
  refine ⟨Nat.le_succ _, fun j hj => by rw [publish_nodes_of_le hj], fun j hj x _ => by rw [publish_nodes_of_le hj],
    fun j hj x hx => ?_, fun j hj x _ => by rw [publish_nodes_of_le hj], fun h => ?_, rfl, rfl⟩
  · rcases Nat.le_succ_iff.mp hj with hle | rfl
    · rw [publish_nodes_of_le hle] at hx
      exact ⟨hle, hx⟩
    · rw [Nat.succ_eq_add_one, publish_nodes_new] at hx
      exact absurd hx nofun
  · rw [hres] at h
    exact absurd (Option.some.inj h).symm hne

theorem setFlag (hres : m.resizing = none) (r : Option K) : Rely k m { m with resizing := r } := by
  refine ⟨le_rfl, fun _ _ => rfl, fun _ _ _ _ => rfl, fun _ hn _ h => ⟨hn, h⟩, fun _ _ _ _ => rfl, fun h => ?_, rfl, rfl⟩
  rw [hres] at h
  exact absurd h nofun

theorem clearFlag (hne : k ≠ k') (hres : m.resizing = some k') (r : Option K) :
    Rely k m { m with resizing := r } := by
  refine ⟨le_rfl, fun _ _ => rfl, fun _ _ _ _ => rfl, fun _ hn _ h => ⟨hn, h⟩, fun _ _ _ _ => rfl, fun h => ?_, rfl, rfl⟩
  rw [hres] at h
  exact absurd (Option.some.inj h).symm hne

variable [DecidableEq K]

theorem takeTicket (hne : k ≠ k') : Rely k m (m.takeTicket k') :=
  ⟨le_rfl, fun _ _ => rfl, fun _ _ _ _ => rfl, fun _ hn _ h => ⟨hn, h⟩, fun _ _ _ _ => rfl, fun h => ⟨h, rfl⟩,
    Function.update_of_ne hne _ _, rfl⟩

theorem finish (hne : k ≠ k') (h : Rely k m m') (c : Call V) (r : Result V) : Rely k m (m'.finish k' c r).1 :=
  ⟨h.mainHash, h.capacity, h.filled, h.mine, h.second, h.resizing, h.tickets,
    (Function.update_of_ne hne _ _).trans h.returns⟩

end Rely

/-! ## What a thread does -/

namespace Memory

theorem Probed.zero {a : ℕ} (hn : n ≤ m.mainHash) : m.Probed a n 0 := ⟨hn, fun _ => nofun⟩

theorem Probed.succ {a : ℕ} (h : m.Probed a n d)
    (hd : (m.nodes n).first ((a + d) % (m.nodes n).capacity) ≠ none) : m.Probed a n (d + 1) := by
  refine ⟨h.1, fun d' hd' => ?_⟩
  rcases Nat.lt_succ_iff_lt_or_eq.mp hd' with hlt | rfl
  · exact h.2 d' hlt
  · exact hd

/-- A free slot is met before the probe is round the table. -/
theorem Probed.lt_capacity {a : ℕ} (h : m.Probed a n d) (hfree : (m.nodes n).toHashNode.HasFree) :
    d < (m.nodes n).capacity := by
  obtain ⟨i, hi, hnone⟩ := hfree
  by_contra hge
  exact no_free_of_passed (Nat.le_of_not_lt hge) h.2 hi hnone

theorem Probed.slot_lt {a : ℕ} (hch : m.Chain e) (h : m.Probed a n d) :
    (a + d) % (m.nodes n).capacity < (m.nodes n).capacity :=
  Nat.mod_lt _ (hch.capacity_pos h.1)

theorem owns_fill (hn : n ≤ m.mainHash) (hi : i < (m.nodes n).capacity) (hnone : (m.nodes n).first i = none)
    (n' j : ℕ) : (m.fill n i k).Owns k n' j ↔ m.Owns k n' j ∨ n' = n ∧ j = i := by
  simp only [Owns, fill_mainHash, fill_capacity, fill_first]
  constructor
  · rintro ⟨hn', hj, hf⟩
    by_cases hslot : n' = n ∧ j = i
    · exact Or.inr hslot
    · rw [if_neg hslot] at hf
      exact Or.inl ⟨hn', hj, hf⟩
  · rintro (⟨hn', hj, hf⟩ | ⟨rfl, rfl⟩)
    · refine ⟨hn', hj, ?_⟩
      rw [if_neg, hf]
      rintro ⟨rfl, rfl⟩
      rw [hnone] at hf
      exact absurd hf nofun
    · exact ⟨hn, hi, if_pos ⟨rfl, rfl⟩⟩

/-- The key goes into the first free slot of its probe path. -/
theorem Keyed.fill (h : m.Keyed hash k) (hch : m.Chain e) (hnot : ∀ i, ¬ m.Owns k n i)
    (hp : m.Probed (hash k) n d)
    (hnone : (m.nodes n).first ((hash k + d) % (m.nodes n).capacity) = none) :
    (m.fill n ((hash k + d) % (m.nodes n).capacity) k).Keyed hash k := by
  have hi := hp.slot_lt hch
  refine ⟨fun n' x y hx hy => ?_, fun n' x hx => ?_⟩
  · rw [owns_fill hp.1 hi hnone] at hx hy
    rcases hx with hx | ⟨rfl, rfl⟩
    · rcases hy with hy | ⟨rfl, rfl⟩
      · exact h.inj n' x y hx hy
      · exact absurd hx (hnot x)
    · rcases hy with hy | ⟨-, rfl⟩
      · exact absurd hy (hnot y)
      · rfl
  · rw [owns_fill hp.1 hi hnone] at hx
    rw [fill_capacity]
    have hmono : ∀ y < (m.nodes n').capacity, (m.nodes n').first y ≠ none →
        ((m.fill n ((hash k + d) % (m.nodes n).capacity) k).nodes n').first y ≠ none := fun y _ hy => by
      rw [fill_first]
      split
      · exact nofun
      · exact hy
    rcases hx with hx | ⟨rfl, rfl⟩
    · exact (h.placed n' x hx).mono hmono
    · exact Placed.mono ⟨d, hp.lt_capacity ⟨_, hi, hnone⟩, rfl, hp.2⟩ hmono

theorem owns_storeSecond (n' j : ℕ) : (m.storeSecond n i v).Owns k n' j ↔ m.Owns k n' j := by
  simp [Owns]

theorem Keyed.storeSecond (h : m.Keyed hash k) (n i : ℕ) (v : Option V) :
    (m.storeSecond n i v).Keyed hash k := by
  refine ⟨fun n' x y hx hy => h.inj n' x y ((owns_storeSecond ..).mp hx) ((owns_storeSecond ..).mp hy),
    fun n' x hx => ?_⟩
  simpa using h.placed n' x ((owns_storeSecond ..).mp hx)

theorem owns_publish {newCapacity main : ℕ} (n' j : ℕ) :
    (m.publish newCapacity main).Owns k n' j ↔ m.Owns k n' j := by
  constructor
  · rintro ⟨hn, hj, hf⟩
    rcases Nat.le_succ_iff.mp hn with hle | rfl
    · rw [publish_nodes_of_le hle] at hj hf
      exact ⟨hle, hj, hf⟩
    · rw [Nat.succ_eq_add_one, publish_nodes_new] at hf
      exact absurd hf nofun
  · rintro ⟨hn, hj, hf⟩
    refine ⟨Nat.le_succ_of_le hn, ?_, ?_⟩
    · rwa [publish_nodes_of_le hn]
    · rwa [publish_nodes_of_le hn]

theorem Keyed.publish (h : m.Keyed hash k) (newCapacity main : ℕ) :
    (m.publish newCapacity main).Keyed hash k := by
  refine ⟨fun n' x y hx hy => h.inj n' x y ((owns_publish ..).mp hx) ((owns_publish ..).mp hy), fun n' x hx => ?_⟩
  have ho := (owns_publish ..).mp hx
  rw [publish_nodes_of_le ho.1]
  exact h.placed n' x ho

theorem Chain.publish (h : m.Chain e) :
    (m.publish ((m.nodes m.mainHash).capacity * 2) m.mainHash).Chain e := by
  intro n hn
  rcases Nat.le_succ_iff.mp hn with hle | rfl
  · rw [publish_nodes_of_le hle]
    exact h n hle
  · rw [Nat.succ_eq_add_one, publish_nodes_new]
    refine ⟨?_, rfl⟩
    rw [← Nat.add_assoc, Nat.pow_succ, ← (h m.mainHash le_rfl).1]
    rfl

end Memory

/-- The tables still are a chain, the thread knows what it should, the others may rely on it. -/
structure Sound (hash : K → ℕ) (e : ℕ) (k : K) (m : Memory K V) (r : Memory K V × Pc V) : Prop where
  chain : r.1.Chain e
  own : Own hash k r.1 r.2
  rely : ∀ k' ≠ k, Rely k' m r.1

theorem Own.sound (h : Own hash k m pc) (hch : m.Chain e) {pc' : Pc V} (hpc : pc'.At hash k m) :
    Sound hash e k m (m, pc') :=
  ⟨hch, ⟨h.keyed, hpc⟩, fun k' _ => .refl k' m⟩

theorem checkSpace_at (c : Call V) (v : V) {main : ℕ} (hmain : main ≤ m'.mainHash) (hl : m'.Lacks k)
    (newCount : ℕ) : (checkSpace m c v main newCount).At hash k m' := by
  unfold checkSpace
  split
  · exact ⟨hl, .zero hmain⟩
  · exact hl

theorem addLoop_at (c : Call V) (v : V) {main : ℕ} (hmain : main ≤ m'.mainHash) (hl : m'.Lacks k)
    (newCount : ℕ) : (addLoop m c v main newCount).At hash k m' := by
  unfold addLoop
  split
  · exact ⟨hmain, hl⟩
  · exact checkSpace_at c v hmain hl newCount

/-- Storing the value of a slot that has the key. -/
theorem Own.storeSecond (h : Own hash k m pc) (hch : m.Chain e) (ho : m.Owns k n i) (v : Option V) :
    (m.storeSecond n i v).Chain e ∧ (m.storeSecond n i v).Keyed hash k ∧
      ∀ k' ≠ k, Rely k' m (m.storeSecond n i v) :=
  ⟨fun j hj => by simpa using hch j hj, h.keyed.storeSecond n i v, fun _ hk' => .storeSecond hk' ho v⟩

section Access

variable [DecidableEq K]

theorem Sound.finish (hch : m'.Chain e) (hk : m'.Keyed hash k) (hrely : ∀ k' ≠ k, Rely k' m m') (c : Call V)
    (r : Result V) : Sound hash e k m (m'.finish k c r) :=
  ⟨hch, ⟨⟨hk.inj, hk.placed⟩, trivial⟩, fun k' hk' => (hrely k' hk').finish hk' c r⟩

theorem Own.notFound (h : Own hash k m pc) (hch : m.Chain e) (c : Call V) {main : ℕ} (hmain : main ≤ m.mainHash)
    (hl : m.Lacks k) : Sound hash e k m (notFound k m c main) := by
  have hrefl : ∀ k' ≠ k, Rely k' m m := fun k' _ => .refl k' m
  match c with
  | .get => exact .finish hch h.keyed hrefl _ _
  | .set v => exact h.sound hch ⟨hmain, hl⟩
  | .getOrAdd v => exact h.sound hch ⟨hmain, hl⟩
  | .getOrAddByFunc (some v) => exact h.sound hch ⟨hmain, hl⟩
  | .getOrAddByFunc none => exact .finish hch h.keyed hrefl _ _

theorem Own.useEntry (h : Own hash k m pc) (hch : m.Chain e) (c : Call V) (ho : m.Owns k n i) :
    Sound hash e k m (useEntry k m c n i) := by
  have hrefl : ∀ k' ≠ k, Rely k' m m := fun k' _ => .refl k' m
  cases c with
  | get => exact .finish hch h.keyed hrefl _ _
  | set v =>
      obtain ⟨hch', hk', hrely⟩ := h.storeSecond hch ho (some v)
      exact .finish hch' hk' hrely _ _
  | getOrAdd v => exact .finish hch h.keyed hrefl _ _
  | getOrAddByFunc v => exact .finish hch h.keyed hrefl _ _

/-- **Access.** -/
theorem Own.access {r : Memory K V × Pc V} (h : Own hash k m pc) (hch : m.Chain e)
    (hs : access hash w k m pc = some r) : Sound hash e k m r := by
  have hpc := h.pc
  cases pc with
  | idle => exact absurd hs nofun
  | load c =>
      obtain rfl := Option.some.inj hs
      exact h.sound hch ⟨le_rfl, le_rfl, fun n i ho => ho.1, .zero le_rfl, fun _ => nofun⟩
  | find c main cur d =>
      obtain ⟨hcur, hmain, hnew, hp, hne⟩ := hpc
      simp only [Concurrent.access] at hs
      by_cases hkey : (m.nodes cur).first ((hash k + d) % (m.nodes cur).capacity) = some k
      · rw [if_pos hkey] at hs
        obtain rfl := Option.some.inj hs
        exact h.sound hch ⟨hcur, hmain, hnew, hp.1, hp.slot_lt hch, hkey⟩
      · rw [if_neg hkey] at hs
        by_cases hnone : (m.nodes cur).first ((hash k + d) % (m.nodes cur).capacity) = none
        · rw [if_pos hnone] at hs
          -- a free slot on the key's path: the key is not in this table
          have hnot : ∀ i, ¬ m.Owns k cur i := by
            intro i ho
            obtain ⟨d', hd', hf⟩ := (h.keyed.placed cur i ho).not_free ho.2.2 hnone
            exact hne d' hd' hf
          have hlt : ∀ n i, m.Owns k n i → n < cur := by
            intro n i ho
            refine Nat.lt_of_le_of_ne (hnew n i ho) ?_
            rintro rfl
            exact hnot i ho
          rw [(hch cur hp.1).2] at hs
          by_cases hzero : cur = 0
          · rw [if_pos hzero] at hs
            obtain rfl := Option.some.inj hs
            exact h.notFound hch c hmain fun n i ho => by
              have := hlt n i ho
              omega
          · rw [if_neg hzero] at hs
            obtain rfl := Option.some.inj hs
            exact h.sound hch ⟨by omega, hmain, fun n i ho => Nat.le_sub_one_of_lt (hlt n i ho),
              .zero (by omega), fun _ => nofun⟩
        · rw [if_neg hnone] at hs
          obtain rfl := Option.some.inj hs
          refine h.sound hch ⟨hcur, hmain, hnew, hp.succ hnone, fun d' hd' => ?_⟩
          rcases Nat.lt_succ_iff_lt_or_eq.mp hd' with hlt | rfl
          · exact hne d' hlt
          · exact hkey
  | readValue c main cur i =>
      obtain ⟨hcur, hmain, hnew, ho⟩ := hpc
      simp only [Concurrent.access] at hs
      by_cases heq : cur = main
      · rw [if_pos heq] at hs
        obtain rfl := Option.some.inj hs
        subst heq
        exact h.sound hch ho
      · rw [if_neg heq] at hs
        obtain rfl := Option.some.inj hs
        refine h.sound hch ⟨fun j ho' => ?_, .zero hmain⟩
        have := hnew main j ho'
        omega
  | promote c main d v =>
      obtain ⟨hnot, hp⟩ := hpc
      simp only [Concurrent.access] at hs
      by_cases hnone : (m.nodes main).first ((hash k + d) % (m.nodes main).capacity) = none
      · rw [if_pos hnone] at hs
        obtain rfl := Option.some.inj hs
        refine ⟨fun j hj => by simpa using hch j hj, ⟨h.keyed.fill hch hnot hp hnone, ?_⟩, fun k' hk' => .fill hk' hnone⟩
        exact (owns_fill hp.1 (hp.slot_lt hch) hnone _ _).mpr (Or.inr ⟨rfl, rfl⟩)
      · rw [if_neg hnone] at hs
        obtain rfl := Option.some.inj hs
        exact h.sound hch ⟨hnot, hp.succ hnone⟩
  | promoteStore c main i v =>
      obtain rfl := Option.some.inj hs
      obtain ⟨hch', hk', hrely⟩ := h.storeSecond hch hpc v
      exact ⟨hch', ⟨hk', (owns_storeSecond ..).mpr hpc⟩, hrely⟩
  | found c main i =>
      obtain rfl := Option.some.inj hs
      exact h.useEntry hch c hpc
  | add c v main =>
      obtain rfl := Option.some.inj hs
      exact ⟨hch, ⟨⟨h.keyed.inj, h.keyed.placed⟩, addLoop_at c v hpc.1 hpc.2 _⟩, fun k' hk' => .takeTicket hk'⟩
  | testAndSet c v main newCount =>
      simp only [Concurrent.access] at hs
      by_cases hres : m.resizing = none
      · rw [if_pos hres] at hs
        obtain rfl := Option.some.inj hs
        exact ⟨hch, ⟨⟨h.keyed.inj, h.keyed.placed⟩, rfl, hpc.2⟩, fun k' _ => .setFlag hres _⟩
      · rw [if_neg hres] at hs
        obtain rfl := Option.some.inj hs
        exact h.sound hch (checkSpace_at c v hpc.1 hpc.2 newCount)
  | resize c v newCount =>
      simp only [Concurrent.access] at hs
      by_cases hroom : newCount < (m.nodes m.mainHash).capacity / 2
      · rw [if_pos hroom] at hs
        obtain rfl := Option.some.inj hs
        exact h.sound hch ⟨hpc.1, le_rfl, hpc.2⟩
      · rw [if_neg hroom, Option.map_eq_some_iff] at hs
        obtain ⟨count, -, rfl⟩ := hs
        exact h.sound hch ⟨hpc.1, rfl, rfl, hpc.2⟩
  | publish c v main newCapacity newCount =>
      obtain ⟨hres, rfl, rfl, hl⟩ := hpc
      obtain rfl := Option.some.inj hs
      refine ⟨hch.publish, ⟨h.keyed.publish _ _, hres, le_rfl, fun n i ho => hl n i ((owns_publish ..).mp ho)⟩,
        fun k' hk' => .publish hk' hres _ _⟩
  | clear c v main newCount =>
      obtain rfl := Option.some.inj hs
      have hl : Lacks k { m with resizing := none } := hpc.2.2
      refine ⟨hch, ⟨⟨h.keyed.inj, h.keyed.placed⟩, checkSpace_at c v ?_ hl newCount⟩,
        fun k' hk' => .clearFlag hk' hpc.1 _⟩
      exact hpc.2.1
  | insert c v main d =>
      simp only [Concurrent.access] at hs
      by_cases hnone : (m.nodes main).first ((hash k + d) % (m.nodes main).capacity) = none
      · rw [if_pos hnone] at hs
        obtain rfl := Option.some.inj hs
        exact h.sound hch hpc
      · rw [if_neg hnone] at hs
        obtain rfl := Option.some.inj hs
        exact h.sound hch ⟨hpc.1, hpc.2.succ hnone⟩
  | exchange c v main d =>
      obtain ⟨hl, hp⟩ := hpc
      simp only [Concurrent.access] at hs
      by_cases hnone : (m.nodes main).first ((hash k + d) % (m.nodes main).capacity) = none
      · rw [if_pos hnone] at hs
        obtain rfl := Option.some.inj hs
        have hiff := owns_fill (k := k) hp.1 (hp.slot_lt hch) hnone
        refine ⟨fun j hj => by simpa using hch j hj, ⟨h.keyed.fill hch (hl main) hp hnone, ?_, fun n j ho => ?_⟩,
          fun k' hk' => .fill hk' hnone⟩
        · exact (hiff _ _).mpr (Or.inr ⟨rfl, rfl⟩)
        · exact ((hiff n j).mp ho).resolve_left (hl n j)
      · rw [if_neg hnone] at hs
        obtain rfl := Option.some.inj hs
        exact h.sound hch ⟨hl, hp.succ hnone⟩
  | store c v main i =>
      obtain rfl := Option.some.inj hs
      obtain ⟨hch', hk', hrely⟩ := h.storeSecond hch hpc.1 (some v)
      cases c <;> exact .finish hch' hk' hrely _ _
  | reload c v newCount =>
      obtain rfl := Option.some.inj hs
      exact h.sound hch (addLoop_at c v le_rfl hpc newCount)

/-- **Step.** -/
theorem Own.step {a : Act V} {r : Memory K V × Pc V} (h : Own hash k m pc) (hch : m.Chain e)
    (hs : ThreadStep hash w k (m, pc) a r) : Sound hash e k m r := by
  cases hs with
  | call c => exact h.sound hch trivial
  | access hacc => exact h.access hch hacc
  | throws => exact h.sound hch trivial

end Access

theorem Memory.Chain.fresh (e : ℕ) : (fresh (2 ^ e) : State K V).memory.Chain e := by
  intro n hn
  obtain rfl : n = 0 := Nat.le_zero.mp hn
  exact ⟨rfl, rfl⟩

theorem Own.fresh (hash : K → ℕ) (e : ℕ) (k : K) : Own hash k (fresh (2 ^ e) : State K V).memory .idle :=
  ⟨⟨fun _ _ _ h => absurd h.2.2 nofun, fun _ _ h => absurd h.2.2 nofun⟩, trivial⟩

end Concurrent

end HashTable

end LockFreeStructures
