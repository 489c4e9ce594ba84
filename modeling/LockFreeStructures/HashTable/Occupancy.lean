import Mathlib.Data.Fintype.Card
import LockFreeStructures.HashTable.Ownership

/-!
# `HashTable.Occupancy` — no table fills up as long as one doubling is enough

A key in a table has a count of its own from `EntriesCount`, below three quarters of the table's slots. A
resizing thread that finds its count at the capacity of the newest table or above is the exception: the loop
that should double the new capacity until half of it exceeds the count shifts the count instead, until it
overflows to zero. A thread gets one count only, so this takes more threads than the first table has slots, and
with more threads it happens.
-/

namespace LockFreeStructures

namespace HashTable

namespace Concurrent

open Memory

variable {K V : Type} {hash : K → ℕ} {w e : ℕ} {k k' : K} {m m' : Memory K V} {pc pc' : Pc V} {n i d : ℕ}

/-- How many entries `InnerAdd` lets into a table: it compares its count with this. -/
def Memory.limit (m : Memory K V) (n : ℕ) : ℕ := (m.nodes n).capacity / 2 + (m.nodes n).capacity / 4

/-- No count is given out twice. -/
structure Memory.Ticketed (m : Memory K V) : Prop where
  lt : ∀ k t, m.tickets k = some t → t < m.entriesCount
  inj : ∀ k k' t, m.tickets k = some t → m.tickets k' = some t → k = k'

/-- What thread `k` knows of its count. -/
def Pc.Paid (k : K) (m : Memory K V) : Pc V → Prop
  | .promote _ main _ _ => ∃ n i, n ≤ main ∧ m.Owns k n i
  | .testAndSet _ _ _ newCount => m.tickets k = some newCount
  | .resize _ _ newCount => m.tickets k = some newCount
  | .publish _ _ _ newCapacity newCount => m.tickets k = some newCount ∧ newCount < newCapacity / 2
  | .clear _ _ _ newCount => m.tickets k = some newCount
  | .reload _ _ newCount => m.tickets k = some newCount
  | .insert _ _ main _ => ∃ t, m.tickets k = some t ∧ t < m.limit main
  | .exchange _ _ main _ => ∃ t, m.tickets k = some t ∧ t < m.limit main
  | .idle | .load _ | .find _ _ _ _ | .readValue _ _ _ _ | .promoteStore _ _ _ _ | .found _ _ _ | .add _ _ _
  | .store _ _ _ _ => True

/-- Every slot that has the key is covered by the thread's count. -/
structure Paid (k : K) (m : Memory K V) (pc : Pc V) : Prop where
  slots : ∀ n i, m.Owns k n i → ∃ t, m.tickets k = some t ∧ t < m.limit n
  pc : pc.Paid k m

theorem Memory.Chain.limit_le (h : m.Chain e) {n' : ℕ} (hle : n ≤ n') (hn' : n' ≤ m.mainHash) :
    m.limit n ≤ m.limit n' := by
  have hcap : (m.nodes n).capacity ≤ (m.nodes n').capacity := by
    rw [(h n (hle.trans hn')).1, (h n' hn').1]
    exact Nat.pow_le_pow_right Nat.two_pos (by omega)
  exact Nat.add_le_add (Nat.div_le_div_right hcap) (Nat.div_le_div_right hcap)

theorem Rely.paid (h : Rely k m m') (hown : Own hash k m pc) (hp : Paid k m pc) : Paid k m' pc := by
  have hlimit : ∀ n ≤ m.mainHash, m'.limit n = m.limit n := fun n hn => by
    unfold Memory.limit
    rw [h.capacity n hn]
  have hpc := hp.pc
  have hat := hown.pc
  refine ⟨fun n i ho => ?_, ?_⟩
  · have ho' := (h.owns_iff n i).mp ho
    obtain ⟨t, ht, hlt⟩ := hp.slots n i ho'
    exact ⟨t, h.tickets.trans ht, (hlimit n ho'.1).symm ▸ hlt⟩
  · cases pc with
    | promote c main d v =>
        obtain ⟨n, i, hn, ho⟩ := hpc
        exact ⟨n, i, hn, (h.owns_iff n i).mpr ho⟩
    | testAndSet c v main newCount => exact h.tickets.trans hpc
    | resize c v newCount => exact h.tickets.trans hpc
    | publish c v main newCapacity newCount => exact ⟨h.tickets.trans hpc.1, hpc.2⟩
    | clear c v main newCount => exact h.tickets.trans hpc
    | reload c v newCount => exact h.tickets.trans hpc
    | insert c v main d =>
        obtain ⟨t, ht, hlt⟩ := hpc
        exact ⟨t, h.tickets.trans ht, (hlimit main hat.2.1).symm ▸ hlt⟩
    | exchange c v main d =>
        obtain ⟨t, ht, hlt⟩ := hpc
        exact ⟨t, h.tickets.trans ht, (hlimit main hat.2.1).symm ▸ hlt⟩
    | idle | load | find | readValue | promoteStore | found | add | store => trivial

/-! ## What a thread does -/

theorem checkSpace_paid (c : Call V) (v : V) (main : ℕ) {newCount : ℕ} (ht : m'.tickets k = some newCount)
    (hnodes : m'.nodes = m.nodes) : (checkSpace m c v main newCount).Paid k m' := by
  unfold checkSpace
  split
  · next hlt =>
      refine ⟨newCount, ht, ?_⟩
      rw [limit, hnodes]
      exact hlt
  · exact ht

theorem addLoop_paid (c : Call V) (v : V) (main : ℕ) {newCount : ℕ} (ht : m'.tickets k = some newCount)
    (hnodes : m'.nodes = m.nodes) : (addLoop m c v main newCount).Paid k m' := by
  unfold addLoop
  split
  · exact ht
  · exact checkSpace_paid c v main ht hnodes

/-- Nothing changes for the slots that have the key. -/
theorem Paid.congr (h : Paid k m pc) (ho : ∀ n i, m'.Owns k n i → m.Owns k n i)
    (hlimit : ∀ n ≤ m.mainHash, m'.limit n = m.limit n) (ht : m'.tickets k = m.tickets k) (hpc : pc'.Paid k m') :
    Paid k m' pc' := by
  refine ⟨fun n i h' => ?_, hpc⟩
  obtain ⟨t, htick, hlt⟩ := h.slots n i (ho n i h')
  exact ⟨t, ht.trans htick, (hlimit n (ho n i h').1).symm ▸ hlt⟩

theorem Paid.local (h : Paid k m pc) (hpc : pc'.Paid k m) : Paid k m pc' := ⟨h.slots, hpc⟩

/-- The key goes into a slot of a table that its count is low enough for. -/
theorem Paid.fill (h : Paid k m pc) (hn : n ≤ m.mainHash) (hi : i < (m.nodes n).capacity)
    (hnone : (m.nodes n).first i = none) (ht : ∃ t, m.tickets k = some t ∧ t < m.limit n)
    (hpc : pc'.Paid k (m.fill n i k)) : Paid k (m.fill n i k) pc' := by
  have hlimit : ∀ n', (m.fill n i k).limit n' = m.limit n' := fun n' => by simp [limit]
  refine ⟨fun n' j ho => ?_, hpc⟩
  rw [hlimit]
  rcases (owns_fill hn hi hnone n' j).mp ho with ho | ⟨rfl, rfl⟩
  · exact h.slots n' j ho
  · exact ht

variable [DecidableEq K]

theorem Paid.finish (h : Paid k m pc) (c : Call V) (r : Result V) : Paid k (m.finish k c r).1 (m.finish k c r).2 :=
  h.congr (fun _ _ ho => ho) (fun _ _ => rfl) rfl trivial

omit [DecidableEq K] in
theorem Paid.storeSecond (h : Paid k m pc) (n i : ℕ) (v : Option V)
    (hpc : pc'.Paid k (m.storeSecond n i v)) : Paid k (m.storeSecond n i v) pc' :=
  h.congr (fun _ _ ho => (owns_storeSecond ..).mp ho) (fun _ _ => by simp [limit]) rfl hpc

theorem Paid.notFound (h : Paid k m pc) (c : Call V) (main : ℕ) :
    Paid k (notFound k m c main).1 (notFound k m c main).2 := by
  match c with
  | .get => exact h.finish _ _
  | .set v => exact h.local trivial
  | .getOrAdd v => exact h.local trivial
  | .getOrAddByFunc (some v) => exact h.local trivial
  | .getOrAddByFunc none => exact h.finish _ _

theorem Paid.useEntry (h : Paid k m pc) (c : Call V) (n i : ℕ) :
    Paid k (useEntry k m c n i).1 (useEntry k m c n i).2 := by
  cases c with
  | get => exact h.finish _ _
  | set v => exact Paid.finish (show Paid k _ .idle from h.storeSecond n i (some v) trivial) _ _
  | getOrAdd v => exact h.finish _ _
  | getOrAddByFunc v => exact h.finish _ _

/-- The count a thread goes on with after one doubling. -/
theorem shiftCount_of_lt {capacity newCount : ℕ} (h : newCount < capacity) :
    shiftCount w (capacity * 2) (w + 1) newCount = some newCount := by
  rw [shiftCount, Nat.mul_div_cancel _ Nat.two_pos, if_neg (Nat.not_le_of_lt h)]

/-- The loop that shifts the count always ends: after `w` rounds the count is zero. -/
theorem exists_shiftCount {newCapacity newCount : ℕ} (hcap : 2 ≤ newCapacity) (hcount : newCount < 2 ^ w) :
    ∃ count, shiftCount w newCapacity (w + 1) newCount = some count ∧ count < newCapacity / 2 := by
  have hloop : ∀ rounds j c, rounds + j = w → 2 ^ j ∣ c → c < 2 ^ w →
      ∃ count, shiftCount w newCapacity (rounds + 1) c = some count ∧ count < newCapacity / 2 := by
    intro rounds
    induction rounds with
    | zero =>
        intro j c hj hdvd hlt
        rw [Nat.zero_add] at hj
        subst hj
        obtain rfl := Nat.eq_zero_of_dvd_of_lt hdvd hlt
        have hhalf : 0 < newCapacity / 2 := by omega
        exact ⟨0, by rw [shiftCount, if_neg (Nat.not_le_of_lt hhalf)], hhalf⟩
    | succ rounds ih =>
        intro j c hj hdvd hlt
        rw [shiftCount]
        by_cases hge : newCapacity / 2 ≤ c
        · rw [if_pos hge]
          -- one more factor of two, and the overflow takes none away
          have hstep : 2 ^ (j + 1) ∣ c * 2 % 2 ^ w := by
            rw [Nat.dvd_mod_iff (Nat.pow_dvd_pow 2 (by omega)), Nat.pow_succ]
            exact Nat.mul_dvd_mul_right hdvd 2
          exact ih (j + 1) _ (by omega) hstep (Nat.mod_lt _ (Nat.two_pow_pos w))
        · rw [if_neg hge]
          exact ⟨c, rfl, Nat.lt_of_not_le hge⟩
  exact hloop w 0 newCount rfl (one_dvd _) hcount

/-- **Access.** `hfits` is the condition on the load of `MainHash` by a resizing thread. -/
theorem Paid.access {r : Memory K V × Pc V} (h : Paid k m pc) (hown : Own hash k m pc) (hch : m.Chain e)
    (htick : m.Ticketed)
    (hfits : ∀ c v newCount, pc = .resize c v newCount → newCount < (m.nodes m.mainHash).capacity)
    (hs : access hash w k m pc = some r) : r.1.Ticketed ∧ Paid k r.1 r.2 := by
  have hat := hown.pc
  have hpc := h.pc
  cases pc with
  | idle => exact absurd hs (by rintro ⟨⟩)
  | load c =>
      obtain rfl := Option.some.inj hs
      exact ⟨htick, h.local trivial⟩
  | find c main cur d =>
      simp only [Concurrent.access] at hs
      split at hs
      · obtain rfl := Option.some.inj hs
        exact ⟨htick, h.local trivial⟩
      · split at hs
        · split at hs
          · obtain rfl := Option.some.inj hs
            exact ⟨htick, h.local trivial⟩
          · obtain rfl := Option.some.inj hs
            refine ⟨?_, h.notFound c main⟩
            cases c with
            | get | set | getOrAdd => exact ⟨htick.lt, htick.inj⟩
            | getOrAddByFunc v => cases v <;> exact ⟨htick.lt, htick.inj⟩
        · obtain rfl := Option.some.inj hs
          exact ⟨htick, h.local trivial⟩
  | readValue c main cur i =>
      obtain ⟨hcur, -, -, ho⟩ := hat
      simp only [Concurrent.access] at hs
      split at hs
      · obtain rfl := Option.some.inj hs
        exact ⟨htick, h.local trivial⟩
      · obtain rfl := Option.some.inj hs
        exact ⟨htick, h.local ⟨cur, i, hcur, ho⟩⟩
  | promote c main d v =>
      obtain ⟨-, hp⟩ := hat
      obtain ⟨n, i, hn, ho⟩ := hpc
      simp only [Concurrent.access] at hs
      split at hs
      · next hnone =>
          obtain rfl := Option.some.inj hs
          -- the entry of the older table has paid for this one
          obtain ⟨t, ht, hlt⟩ := h.slots n i ho
          exact ⟨⟨htick.lt, htick.inj⟩,
            h.fill hp.1 (hp.slot_lt hch) hnone ⟨t, ht, hlt.trans_le (hch.limit_le hn hp.1)⟩ trivial⟩
      · obtain rfl := Option.some.inj hs
        exact ⟨htick, h.local ⟨n, i, hn, ho⟩⟩
  | promoteStore c main i v =>
      obtain rfl := Option.some.inj hs
      exact ⟨⟨htick.lt, htick.inj⟩, h.storeSecond main i v trivial⟩
  | found c main i =>
      obtain rfl := Option.some.inj hs
      refine ⟨?_, h.useEntry c main i⟩
      cases c <;> exact ⟨htick.lt, htick.inj⟩
  | add c v main =>
      obtain rfl := Option.some.inj hs
      have hself : (m.takeTicket k).tickets k = some m.entriesCount := Function.update_self ..
      refine ⟨⟨fun k' t ht => ?_, fun k₁ k₂ t h₁ h₂ => ?_⟩, fun n i ho => absurd ho (hat.2 n i),
        addLoop_paid c v main hself rfl⟩
      · by_cases hk : k' = k
        · subst hk
          rw [hself] at ht
          cases ht
          exact Nat.lt_succ_self _
        · rw [show (m.takeTicket k).tickets k' = m.tickets k' from Function.update_of_ne hk ..] at ht
          exact Nat.lt_succ_of_lt (htick.lt k' t ht)
      · -- the new count is above all the others
        have hnew : ∀ k', k' ≠ k → (m.takeTicket k).tickets k' ≠ some m.entriesCount := by
          intro k' hk ht
          rw [show (m.takeTicket k).tickets k' = m.tickets k' from Function.update_of_ne hk ..] at ht
          exact Nat.lt_irrefl _ (htick.lt k' _ ht)
        by_cases hk₁ : k₁ = k
        · subst hk₁
          rw [hself] at h₁
          cases h₁
          by_contra hk₂
          exact hnew k₂ (Ne.symm hk₂) h₂
        · by_cases hk₂ : k₂ = k
          · subst hk₂
            rw [hself] at h₂
            cases h₂
            exact absurd h₁ (hnew k₁ hk₁)
          · rw [show (m.takeTicket k).tickets k₁ = m.tickets k₁ from Function.update_of_ne hk₁ ..] at h₁
            rw [show (m.takeTicket k).tickets k₂ = m.tickets k₂ from Function.update_of_ne hk₂ ..] at h₂
            exact htick.inj k₁ k₂ t h₁ h₂
  | testAndSet c v main newCount =>
      simp only [Concurrent.access] at hs
      split at hs
      · obtain rfl := Option.some.inj hs
        exact ⟨⟨htick.lt, htick.inj⟩, h.congr (fun _ _ ho => ho) (fun _ _ => rfl) rfl hpc⟩
      · obtain rfl := Option.some.inj hs
        exact ⟨htick, h.local (checkSpace_paid c v main hpc rfl)⟩
  | resize c v newCount =>
      have hlt := hfits c v newCount rfl
      simp only [Concurrent.access, shiftCount_of_lt hlt, Option.map_some] at hs
      split at hs
      · obtain rfl := Option.some.inj hs
        exact ⟨htick, h.local hpc⟩
      · obtain rfl := Option.some.inj hs
        refine ⟨htick, h.local ⟨hpc, ?_⟩⟩
        rw [Nat.mul_div_cancel _ Nat.two_pos]
        exact hlt
  | publish c v main newCapacity newCount =>
      obtain rfl := Option.some.inj hs
      refine ⟨⟨htick.lt, htick.inj⟩, h.congr (fun _ _ ho => (owns_publish ..).mp ho) (fun n hn => ?_) rfl hpc.1⟩
      rw [limit, publish_nodes_of_le hn, limit]
  | clear c v main newCount =>
      obtain rfl := Option.some.inj hs
      exact ⟨⟨htick.lt, htick.inj⟩, h.congr (fun _ _ ho => ho) (fun _ _ => rfl) rfl (checkSpace_paid c v main hpc rfl)⟩
  | insert c v main d =>
      simp only [Concurrent.access] at hs
      split at hs <;> obtain rfl := Option.some.inj hs <;> exact ⟨htick, h.local hpc⟩
  | exchange c v main d =>
      obtain ⟨-, hp⟩ := hat
      simp only [Concurrent.access] at hs
      split at hs
      · next hnone =>
          obtain rfl := Option.some.inj hs
          exact ⟨⟨htick.lt, htick.inj⟩, h.fill hp.1 (hp.slot_lt hch) hnone hpc trivial⟩
      · obtain rfl := Option.some.inj hs
        exact ⟨htick, h.local hpc⟩
  | store c v main i =>
      obtain rfl := Option.some.inj hs
      have hstore : Paid k (m.storeSecond main i (some v)) .idle := h.storeSecond main i (some v) trivial
      cases c <;> exact ⟨⟨htick.lt, htick.inj⟩, hstore.finish _ _⟩
  | reload c v newCount =>
      obtain rfl := Option.some.inj hs
      exact ⟨htick, h.local (addLoop_paid c v _ hpc rfl)⟩

/-- **Step.** -/
theorem Paid.step {a : Act V} {r : Memory K V × Pc V} (h : Paid k m pc) (hown : Own hash k m pc) (hch : m.Chain e)
    (htick : m.Ticketed)
    (hfits : ∀ c v newCount, pc = .resize c v newCount → newCount < (m.nodes m.mainHash).capacity)
    (hs : ThreadStep hash w k (m, pc) a r) : r.1.Ticketed ∧ Paid k r.1 r.2 := by
  cases hs with
  | call c => exact ⟨htick, h.local trivial⟩
  | access hacc => exact h.access hown hch htick hfits hacc
  | throws => exact ⟨htick, h.local trivial⟩

/-! ## One count for a thread -/

/-- The thread has its count and no slot yet. -/
def Pc.Counted : Pc V → Prop
  | .testAndSet _ _ _ _ | .resize _ _ _ | .publish _ _ _ _ _ | .clear _ _ _ _ | .insert _ _ _ _
  | .exchange _ _ _ _ | .reload _ _ _ => True
  | _ => False

/-- A thread that has a count is about to use it, or has used it. -/
def Once (k : K) (m : Memory K V) (pc : Pc V) : Prop := m.tickets k ≠ none → pc.Counted ∨ ¬ m.Lacks k

omit [DecidableEq K] in
theorem Rely.once (h : Rely k m m') (ho : Once k m pc) : Once k m' pc := by
  intro ht
  rw [h.tickets] at ht
  refine (ho ht).imp_right fun hl hl' => hl fun n i hown => ?_
  exact hl' n i ((h.owns_iff n i).mpr hown)

omit [DecidableEq K] in
theorem Once.of_owns (ho : m.Owns k n i) : Once k m pc := fun _ => .inr fun hl => hl n i ho

omit [DecidableEq K] in
/-- The thread has used its count, or has none. -/
theorem Once.keep (h : Once k m pc) (hpc : ¬ pc.Counted) (ht : m'.tickets k = m.tickets k)
    (ho : ∀ n i, m.Owns k n i → m'.Owns k n i) : Once k m' pc' := by
  intro ht'
  rw [ht] at ht'
  exact .inr fun hl => (h ht').resolve_left hpc fun n i hown => hl n i (ho n i hown)

omit [DecidableEq K] in
theorem checkSpace_counted (c : Call V) (v : V) (main newCount : ℕ) : (checkSpace m c v main newCount).Counted := by
  unfold checkSpace
  split <;> trivial

omit [DecidableEq K] in
theorem addLoop_counted (c : Call V) (v : V) (main newCount : ℕ) : (addLoop m c v main newCount).Counted := by
  unfold addLoop
  split
  · trivial
  · exact checkSpace_counted c v main newCount

theorem Once.notFound (h : Once k m pc) (hpc : ¬ pc.Counted) (c : Call V) (main : ℕ) :
    Once k (notFound k m c main).1 (notFound k m c main).2 := by
  match c with
  | .get => exact h.keep hpc rfl fun _ _ ho => ho
  | .set v => exact h.keep hpc rfl fun _ _ ho => ho
  | .getOrAdd v => exact h.keep hpc rfl fun _ _ ho => ho
  | .getOrAddByFunc (some v) => exact h.keep hpc rfl fun _ _ ho => ho
  | .getOrAddByFunc none => exact h.keep hpc rfl fun _ _ ho => ho

theorem Once.access {r : Memory K V × Pc V} (h : Once k m pc) (hown : Own hash k m pc) (hch : m.Chain e)
    (hs : access hash w k m pc = some r) : Once k r.1 r.2 := by
  have hat := hown.pc
  cases pc with
  | idle => exact absurd hs (by rintro ⟨⟩)
  | load c =>
      obtain rfl := Option.some.inj hs
      exact h.keep id rfl fun _ _ ho => ho
  | find c main cur d =>
      simp only [Concurrent.access] at hs
      split at hs
      · obtain rfl := Option.some.inj hs
        exact h.keep id rfl fun _ _ ho => ho
      · split at hs
        · split at hs
          · obtain rfl := Option.some.inj hs
            exact h.keep id rfl fun _ _ ho => ho
          · obtain rfl := Option.some.inj hs
            exact h.notFound id c main
        · obtain rfl := Option.some.inj hs
          exact h.keep id rfl fun _ _ ho => ho
  | readValue c main cur i =>
      simp only [Concurrent.access] at hs
      split at hs <;> obtain rfl := Option.some.inj hs <;> exact h.keep id rfl fun _ _ ho => ho
  | promote c main d v =>
      simp only [Concurrent.access] at hs
      split at hs
      · next hnone =>
          obtain rfl := Option.some.inj hs
          exact .of_owns ((owns_fill hat.2.1 (hat.2.slot_lt hch) hnone _ _).mpr (.inr ⟨rfl, rfl⟩))
      · obtain rfl := Option.some.inj hs
        exact h.keep id rfl fun _ _ ho => ho
  | promoteStore c main i v =>
      obtain rfl := Option.some.inj hs
      exact .of_owns ((owns_storeSecond ..).mpr hat)
  | found c main i =>
      obtain rfl := Option.some.inj hs
      cases c with
      | set v => exact .of_owns ((owns_storeSecond ..).mpr hat)
      | get => exact .of_owns hat
      | getOrAdd v => exact .of_owns hat
      | getOrAddByFunc v => exact .of_owns hat
  | add c v main =>
      obtain rfl := Option.some.inj hs
      exact fun _ => .inl (addLoop_counted c v main m.entriesCount)
  | testAndSet c v main newCount =>
      simp only [Concurrent.access] at hs
      split at hs
      · obtain rfl := Option.some.inj hs
        exact fun _ => .inl trivial
      · obtain rfl := Option.some.inj hs
        exact fun _ => .inl (checkSpace_counted c v main newCount)
  | resize c v newCount =>
      simp only [Concurrent.access] at hs
      split at hs
      · obtain rfl := Option.some.inj hs
        exact fun _ => .inl trivial
      · obtain ⟨count, -, rfl⟩ := Option.map_eq_some_iff.mp hs
        exact fun _ => .inl trivial
  | publish c v main newCapacity newCount =>
      obtain rfl := Option.some.inj hs
      exact fun _ => .inl trivial
  | clear c v main newCount =>
      obtain rfl := Option.some.inj hs
      exact fun _ => .inl (checkSpace_counted c v main newCount)
  | insert c v main d =>
      simp only [Concurrent.access] at hs
      split at hs <;> obtain rfl := Option.some.inj hs <;> exact fun _ => .inl trivial
  | exchange c v main d =>
      obtain ⟨-, hp⟩ := hat
      simp only [Concurrent.access] at hs
      split at hs
      · next hnone =>
          obtain rfl := Option.some.inj hs
          exact .of_owns ((owns_fill hp.1 (hp.slot_lt hch) hnone _ _).mpr (.inr ⟨rfl, rfl⟩))
      · obtain rfl := Option.some.inj hs
        exact fun _ => .inl trivial
  | store c v main i =>
      obtain rfl := Option.some.inj hs
      have ho : (m.storeSecond main i (some v)).Owns k main i := (owns_storeSecond ..).mpr hat.1
      cases c <;> exact .of_owns ho
  | reload c v newCount =>
      obtain rfl := Option.some.inj hs
      exact fun _ => .inl (addLoop_counted c v m.mainHash newCount)

/-- `EntriesCount` is read and changed by the `fetch_add` only. -/
theorem access_counts {r : Memory K V × Pc V} (hs : access hash w k m pc = some r) :
    (r.1.entriesCount = m.entriesCount ∧ r.1.tickets = m.tickets) ∨
      (∃ c v main, pc = .add c v main) ∧ r.1 = m.takeTicket k := by
  cases pc with
  | idle => exact absurd hs (by rintro ⟨⟩)
  | load c =>
      obtain rfl := Option.some.inj hs
      exact .inl ⟨rfl, rfl⟩
  | find c main cur d =>
      simp only [Concurrent.access] at hs
      split at hs
      · obtain rfl := Option.some.inj hs
        exact .inl ⟨rfl, rfl⟩
      · split at hs
        · split at hs
          · obtain rfl := Option.some.inj hs
            exact .inl ⟨rfl, rfl⟩
          · obtain rfl := Option.some.inj hs
            rcases c with _ | v | v | (_ | v) <;> exact .inl ⟨rfl, rfl⟩
        · obtain rfl := Option.some.inj hs
          exact .inl ⟨rfl, rfl⟩
  | resize c v newCount =>
      simp only [Concurrent.access] at hs
      split at hs
      · obtain rfl := Option.some.inj hs
        exact .inl ⟨rfl, rfl⟩
      · obtain ⟨count, -, rfl⟩ := Option.map_eq_some_iff.mp hs
        exact .inl ⟨rfl, rfl⟩
  | add c v main =>
      obtain rfl := Option.some.inj hs
      exact .inr ⟨⟨c, v, main, rfl⟩, rfl⟩
  | found c main i =>
      obtain rfl := Option.some.inj hs
      cases c <;> exact .inl ⟨rfl, rfl⟩
  | store c v main i =>
      obtain rfl := Option.some.inj hs
      cases c <;> exact .inl ⟨rfl, rfl⟩
  | readValue | promote | testAndSet | insert | exchange =>
      simp only [Concurrent.access] at hs
      split at hs <;> obtain rfl := Option.some.inj hs <;> exact .inl ⟨rfl, rfl⟩
  | promoteStore | publish | clear | reload =>
      obtain rfl := Option.some.inj hs
      exact .inl ⟨rfl, rfl⟩

/-! ## Runs -/

/-- No allocation fails. -/
def NoThrow (_ : State K V) (a : K × Act V) : Prop := a.2 ≠ .throws

instance (s : State K V) (a : K × Act V) : Decidable (NoThrow s a) :=
  match a with
  | (_, .call _) => .isTrue (by rintro ⟨⟩)
  | (_, .access) => .isTrue (by rintro ⟨⟩)
  | (_, .throws) => .isFalse fun h => h rfl

/-- No more counts are given out than there are threads. -/
def Memory.Counted [Fintype K] (m : Memory K V) : Prop :=
  m.entriesCount ≤ (Finset.univ.filter fun k => m.tickets k ≠ none).card

theorem Memory.Counted.takeTicket [Fintype K] (h : m.Counted) (hk : m.tickets k = none) : (m.takeTicket k).Counted := by
  unfold Memory.Counted at h ⊢
  have hset : (Finset.univ.filter fun k' => (m.takeTicket k).tickets k' ≠ none) =
      insert k (Finset.univ.filter fun k' => m.tickets k' ≠ none) := by
    ext k'
    rw [Finset.mem_insert, Finset.mem_filter_univ, Finset.mem_filter_univ]
    show Function.update m.tickets k (some m.entriesCount) k' ≠ none ↔ _
    by_cases hk' : k' = k
    · subst hk'
      simp
    · simp [hk']
  rw [hset, Finset.card_insert_of_notMem (by simp [hk])]
  exact Nat.succ_le_succ h

/-- What a thread knows, and what is known of its count. -/
structure Charged (hash : K → ℕ) (k : K) (m : Memory K V) (pc : Pc V) : Prop where
  own : Own hash k m pc
  paid : Paid k m pc
  once : Once k m pc

theorem Charged.counted [Fintype K] {a : Act V} {r : Memory K V × Pc V} (h : Charged hash k m pc) (hcount : m.Counted)
    (hs : ThreadStep hash w k (m, pc) a r) : r.1.Counted := by
  cases hs with
  | call c => exact hcount
  | throws => exact hcount
  | access hacc =>
      rcases access_counts hacc with ⟨hcounts, htickets⟩ | ⟨⟨c, v, main, rfl⟩, hmem⟩
      · unfold Memory.Counted
        rw [hcounts, htickets]
        exact hcount
      · rw [hmem]
        refine hcount.takeTicket ?_
        by_contra hne
        exact (h.once hne).elim id fun hl => hl h.own.pc.2

theorem relyGuarantee [Fintype K] (hash : K → ℕ) (w : ℕ) {e : ℕ} (hfew : Fintype.card K ≤ 2 ^ e) :
    Interleaving.RelyGuarantee (ThreadStep hash w) (NoThrow : State K V → K × Act V → Prop)
      (fun m => m.Chain e ∧ m.Ticketed ∧ m.Counted) (Charged hash) Rely where
  own := by
    rintro s k a m' pc' hok ⟨hch, htick, hcount⟩ h hs
    have hsound := h.own.step hch hs
    have hfits : ∀ c v newCount, s.threads k = .resize c v newCount →
        newCount < (s.memory.nodes s.memory.mainHash).capacity := by
      -- a count is below the number of threads, and the newest table has at least as many slots as the first
      intro c v newCount hpc
      have hticket := h.paid.pc
      rw [hpc] at hticket
      calc newCount < s.memory.entriesCount := htick.lt k newCount hticket
        _ ≤ (Finset.univ.filter fun k => s.memory.tickets k ≠ none).card := hcount
        _ ≤ Fintype.card K := Finset.card_le_univ _
        _ ≤ 2 ^ e := hfew
        _ ≤ 2 ^ (e + s.memory.mainHash) := Nat.pow_le_pow_right Nat.two_pos (Nat.le_add_right ..)
        _ = (s.memory.nodes s.memory.mainHash).capacity := (hch _ le_rfl).1.symm
    obtain ⟨htick', hpaid'⟩ := h.paid.step h.own hch htick hfits hs
    refine ⟨⟨hsound.chain, htick', h.counted hcount hs⟩, hsound.own, hpaid', ?_⟩
    generalize s.threads k = pc at h hs
    cases hs with
    | call c => exact h.once.keep id rfl fun _ _ ho => ho
    | access hacc => exact h.once.access h.own hch hacc
    | throws => exact absurd rfl hok
  guarantee := fun _ hinv h hs hne => (h.own.step hinv.1 hs).rely _ hne
  stable := fun _ h hrely => ⟨⟨hrely.keyed h.own.keyed, hrely.at_ h.own.pc⟩, hrely.paid h.own h.paid, hrely.once h.once⟩

/-- Where a thread is probing: the table, and how many slots it has passed. -/
def Pc.probing : Pc V → Option (ℕ × ℕ)
  | .find _ _ cur d => some (cur, d)
  | .promote _ main d _ => some (main, d)
  | .insert _ _ main d => some (main, d)
  | .exchange _ _ main d => some (main, d)
  | _ => none

/-- Half of a new table exceeds the count of the thread that is about to publish it, every table has a free
    slot, and no probe has gone round its table. -/
structure NeverFull (s : State K V) : Prop where
  published : ∀ k c v main newCapacity newCount t, s.threads k = .publish c v main newCapacity newCount →
    s.memory.tickets k = some t → t < newCapacity / 2
  free : ∀ n ≤ s.memory.mainHash, (s.memory.nodes n).toHashNode.HasFree
  probes : ∀ k n d, (s.threads k).probing = some (n, d) → d < (s.memory.nodes n).capacity

omit [DecidableEq K] in
/-- The counts that have paid for the keys of a table are fewer than its slots. -/
theorem hasFree (hch : m.Chain e) (htick : m.Ticketed) (hkeyed : ∀ k, m.Keyed hash k)
    (hpaid : ∀ k n i, m.Owns k n i → ∃ t, m.tickets k = some t ∧ t < m.limit n) (hn : n ≤ m.mainHash) :
    (m.nodes n).toHashNode.HasFree := by
  have hpos := hch.capacity_pos hn
  have htk : ∀ i < (m.nodes n).capacity, ∀ k, (m.nodes n).first i = some k →
      ∃ t, m.tickets k = some t ∧ t < m.limit n := fun i hi k hk => hpaid k n i ⟨hn, hi, hk⟩
  -- different keys have different counts, all of them below a limit that leaves a slot
  refine exists_free (fun k => (m.tickets k).getD 0) (Finset.range (m.limit n)) ?_ (fun i hi k hk => ?_) ?_
  · intro i hi j hj k k' hk hk' heq
    obtain ⟨t, ht, -⟩ := htk i hi k hk
    obtain ⟨t', ht', -⟩ := htk j hj k' hk'
    simp only [ht, ht', Option.getD_some] at heq
    subst heq
    obtain rfl := htick.inj k k' t ht ht'
    exact (hkeyed k).inj n i j ⟨hn, hi, hk⟩ ⟨hn, hj, hk'⟩
  · obtain ⟨t, ht, hlt⟩ := htk i hi k hk
    simp only [ht, Option.getD_some, Finset.mem_range, hlt]
  · rw [Finset.card_range, limit]
    omega

omit [DecidableEq K] in
theorem probed_of_probing (hat : pc.At hash k m) (hp : pc.probing = some (n, d)) : m.Probed (hash k) n d := by
  cases pc with
  | find c main cur d' =>
      cases hp
      exact hat.2.2.2.1
  | promote c main d' v =>
      cases hp
      exact hat.2
  | insert c v main d' =>
      cases hp
      exact hat.2
  | exchange c v main d' =>
      cases hp
      exact hat.2
  | idle | load | readValue | promoteStore | found | add | testAndSet | resize | publish | clear | store | reload =>
      exact absurd hp nofun

/-- With as many threads as the first table has slots or fewer, no table fills up. -/
theorem NeverFull.of_few [Fintype K] (hash : K → ℕ) (w : ℕ) {e : ℕ} (hfew : Fintype.card K ≤ 2 ^ e) {s : State K V}
    (h : Reaches (Step hash w) NoThrow (fresh (2 ^ e)) s) : NeverFull s := by
  obtain ⟨⟨hch, htick, -⟩, hown⟩ := (relyGuarantee hash w hfew).invariant h ⟨.fresh e, ⟨nofun, nofun⟩, Nat.zero_le _⟩
    fun k => ⟨.fresh hash e k, ⟨fun _ _ ho => absurd ho.2.2 nofun, trivial⟩, fun ht => absurd rfl ht⟩
  have hfree : ∀ n ≤ s.memory.mainHash, (s.memory.nodes n).toHashNode.HasFree := fun n hn =>
    hasFree hch htick (fun k => (hown k).own.keyed) (fun k => (hown k).paid.slots) hn
  -- a probe has passed taken slots only, so the free one is still ahead of it
  refine ⟨fun k c v main newCapacity newCount t hpc ht => ?_, hfree, fun k n d hp => ?_⟩
  · have hpaid := (hown k).paid.pc
    rw [hpc] at hpaid
    rw [hpaid.1] at ht
    exact Option.some.inj ht ▸ hpaid.2
  · have hprobed := probed_of_probing (hown k).own.pc hp
    exact hprobed.lt_capacity (hfree n hprobed.1)

/-! ## With more threads -/

/-- The first table is as it was made, and so many threads have taken their counts. -/
structure Untouched (e j : ℕ) (m : Memory K V) : Prop where
  entriesCount : m.entriesCount = j
  resizing : m.resizing = none
  mainHash : m.mainHash = 0
  nodes : m.nodes = fun _ => ⟨createNewHashNode (2 ^ e), none⟩

/-- A thread looks its key up, does not find it and takes its count. -/
theorem Untouched.takes {j : ℕ} {ls : K → Pc V} (h : Untouched e j m) (hidle : ls k = .idle) (hash : K → ℕ) (w : ℕ)
    (v : V) : Untouched e (j + 1) (m.takeTicket k) ∧
      Reaches (Step hash w) NoThrow ⟨m, ls⟩ ⟨m.takeTicket k, Function.update ls k (addLoop m (.getOrAdd v) v 0 j)⟩ := by
  have hload : Concurrent.access hash w k m (.load (.getOrAdd v)) = some (m, .find (.getOrAdd v) 0 0 0) := by
    rw [Concurrent.access, h.mainHash]
  have hfind : Concurrent.access hash w k m (.find (.getOrAdd v) 0 0 0) = some (m, .add (.getOrAdd v) v 0) := by
    have hfirst : ∀ i, (m.nodes 0).first i = none := fun i => by rw [h.nodes]; rfl
    have hprev : (m.nodes 0).prev = none := by rw [h.nodes]
    simp only [Concurrent.access, hfirst, hprev]
    rfl
  have hadd : Concurrent.access hash w k m (.add (.getOrAdd v) v 0) =
      some (m.takeTicket k, addLoop m (.getOrAdd v) v 0 j) := by
    rw [Concurrent.access, h.entriesCount]
  refine ⟨⟨congrArg (· + 1) h.entriesCount, h.resizing, h.mainHash, h.nodes⟩, ?_⟩
  exact .head (.of_eq hidle (.call (.getOrAdd v))) (by rintro ⟨⟩) <|
    .head (.again (.access hload)) (by rintro ⟨⟩) <| .head (.again (.access hfind)) (by rintro ⟨⟩) <|
    .head (.again (.access hadd)) (by rintro ⟨⟩) <| .refl _

/-- Any threads may take the first counts. -/
theorem exists_untouched (hash : K → ℕ) (w e : ℕ) (v : V) {ks : List K} (hks : ks.Nodup) :
    ∃ s : State K V, Reaches (Step hash w) NoThrow (fresh (2 ^ e)) s ∧ Untouched e ks.length s.memory ∧
      ∀ k ∉ ks, s.threads k = .idle := by
  induction ks with
  | nil => exact ⟨_, .refl _, ⟨rfl, rfl, rfl, rfl⟩, fun _ _ => rfl⟩
  | cons k ks ih =>
      rw [List.nodup_cons] at hks
      obtain ⟨s, hrun, huntouched, hidle⟩ := ih hks.2
      obtain ⟨huntouched', htakes⟩ := huntouched.takes (hidle k hks.1) hash w v
      refine ⟨_, hrun.trans htakes, huntouched', fun k' hk' => ?_⟩
      rw [List.mem_cons, not_or] at hk'
      show Function.update s.threads k _ k' = .idle
      rw [Function.update_of_ne hk'.1]
      exact hidle k' hk'.2

/-- When the first table has no more slots than counts were given out, the thread with the next count makes a table
    half of which does not exceed that count. -/
theorem exists_not_neverFull (hash : K → ℕ) (he : e < w) (v : V) {ks : List K} (hks : ks.Nodup)
    (hlength : ks.length = 2 ^ e) (hk : k ∉ ks) :
    ∃ s : State K V, Reaches (Step hash w) NoThrow (fresh (2 ^ e)) s ∧ ¬ NeverFull s := by
  obtain ⟨⟨m, ls⟩, hrun, huntouched, hidle⟩ := exists_untouched hash w e v hks
  rw [hlength] at huntouched
  obtain ⟨⟨-, hresizing, hmain, hnodes⟩, htakes⟩ := huntouched.takes (hidle k hk) hash w v
  have hcapacity : ((m.takeTicket k).nodes 0).capacity = 2 ^ e := by rw [hnodes]; rfl
  have hhalf : 2 ^ e / 2 ≤ 2 ^ e := Nat.div_le_self ..
  have hloop : addLoop m (.getOrAdd v) v 0 (2 ^ e) = .testAndSet (.getOrAdd v) v 0 (2 ^ e) := by
    rw [addLoop, if_pos]
    exact hcapacity.symm ▸ hhalf
  rw [hloop] at htakes
  have htest : Concurrent.access hash w k (m.takeTicket k) (.testAndSet (.getOrAdd v) v 0 (2 ^ e)) =
      some ({ m.takeTicket k with resizing := some k }, .resize (.getOrAdd v) v (2 ^ e)) := by
    rw [Concurrent.access, if_pos hresizing]
  -- the loop that shifts the count ends, however it ends
  have htwo : 2 ≤ 2 ^ e * 2 := Nat.le_mul_of_pos_left 2 (Nat.two_pow_pos e)
  obtain ⟨count, hcount, -⟩ := exists_shiftCount htwo (Nat.pow_lt_pow_right (by decide) he)
  have hresize : Concurrent.access hash w k { m.takeTicket k with resizing := some k } (.resize (.getOrAdd v) v (2 ^ e)) =
      some ({ m.takeTicket k with resizing := some k }, .publish (.getOrAdd v) v 0 (2 ^ e * 2) count) := by
    simp only [Concurrent.access, hmain, hcapacity]
    rw [if_neg (by omega), hcount]
    rfl
  refine ⟨_, hrun.trans <| htakes.trans <| .head (.again (.access htest)) (by rintro ⟨⟩) <|
    .head (.again (.access hresize)) (by rintro ⟨⟩) <| .refl _, fun hfull => ?_⟩
  have hlt := hfull.published k _ _ _ _ _ (2 ^ e) (Function.update_self ..)
    ((Function.update_self ..).trans (congrArg some huntouched.entriesCount))
  rw [Nat.mul_div_cancel _ Nat.two_pos] at hlt
  exact Nat.lt_irrefl _ hlt

/-- **No table ever fills up just when there are no more threads than the first table has slots.** -/
theorem neverFull_iff [Fintype K] [Nonempty V] (hash : K → ℕ) (he : e + 1 < w) :
    (∀ s : State K V, Reaches (Step hash w) NoThrow (fresh (2 ^ e)) s → NeverFull s) ↔ Fintype.card K ≤ 2 ^ e := by
  constructor
  · intro hall
    by_contra hmany
    obtain ⟨v⟩ := ‹Nonempty V›
    obtain ⟨ks, -, hcard⟩ := Finset.exists_subset_card_eq (s := (Finset.univ : Finset K)) (n := 2 ^ e + 1) (by
      rw [Finset.card_univ]
      omega)
    obtain ⟨k, ks', hlist⟩ := List.exists_cons_of_length_eq_add_one ((Finset.length_toList ks).trans hcard)
    have hnodup : (k :: ks').Nodup := hlist ▸ ks.nodup_toList
    have hlength : (k :: ks').length = 2 ^ e + 1 := hlist ▸ (Finset.length_toList ks).trans hcard
    rw [List.nodup_cons] at hnodup
    obtain ⟨s, hrun, hnot⟩ := exists_not_neverFull hash (Nat.lt_of_succ_lt he) v hnodup.2 (Nat.succ.inj hlength) hnodup.1
    exact hnot (hall s hrun)
  · intro hfew s hrun
    exact .of_few hash w hfew hrun

/-- Two threads, two slots: both take their counts, and the second makes a table of four. -/
theorem neverFull_resize : ∃ s : State (Fin 2) Unit,
    s.threads 1 = .publish (.getOrAdd ()) () 0 4 1 ∧ NeverFull s := by
  have hrun : (Interleaving.runSchedule (threadStep (fun _ => 0) 64) NoThrow
      ([(0, .call (.getOrAdd ())), (1, .call (.getOrAdd ()))] ++
        (List.replicate 3 [(0, .access), (1, .access)]).flatten ++ List.replicate 2 (1, .access))
      (fresh (2 ^ 1) : State (Fin 2) Unit)).map (fun s => s.threads 1) =
        some (.publish (.getOrAdd ()) () 0 4 1) := by decide +kernel
  obtain ⟨s, hs, hpc⟩ := Option.map_eq_some_iff.mp hrun
  exact ⟨s, hpc, (neverFull_iff (fun _ => 0) (by decide)).mpr (by decide) s
    (Interleaving.reaches_of_schedule (fun _ _ _ _ => ThreadStep.of_threadStep) hs)⟩

/-- Three threads take their counts before the last of them makes the first new table: half of its two slots
    does not exceed the count 2. -/
theorem not_neverFull : ¬ ∀ s : State (Fin 3) Unit,
    Reaches (Step (fun _ => 0) 64) NoThrow (fresh (2 ^ 0)) s → NeverFull s := by
  intro h
  have hfull := h _ <|
    .head (.mk (t := 0) (.call (.getOrAdd ()))) (by rintro ⟨⟩) <|
    .head (.mk (t := 0) (.access rfl)) (by rintro ⟨⟩) <|
    .head (.mk (t := 0) (.access rfl)) (by rintro ⟨⟩) <|
    .head (.mk (t := 0) (.access rfl)) (by rintro ⟨⟩) <|
    .head (.mk (t := 1) (.call (.getOrAdd ()))) (by rintro ⟨⟩) <|
    .head (.mk (t := 1) (.access rfl)) (by rintro ⟨⟩) <|
    .head (.mk (t := 1) (.access rfl)) (by rintro ⟨⟩) <|
    .head (.mk (t := 1) (.access rfl)) (by rintro ⟨⟩) <|
    .head (.mk (t := 2) (.call (.getOrAdd ()))) (by rintro ⟨⟩) <|
    .head (.mk (t := 2) (.access rfl)) (by rintro ⟨⟩) <|
    .head (.mk (t := 2) (.access rfl)) (by rintro ⟨⟩) <|
    .head (.mk (t := 2) (.access rfl)) (by rintro ⟨⟩) <|
    .head (.mk (t := 2) (.access rfl)) (by rintro ⟨⟩) <|
    .head (.mk (t := 2) (.access rfl)) (by rintro ⟨⟩) <| .refl _
  exact absurd (hfull.published 2 _ _ _ _ _ 2 rfl rfl) (by decide)

end Concurrent

end HashTable

end LockFreeStructures
