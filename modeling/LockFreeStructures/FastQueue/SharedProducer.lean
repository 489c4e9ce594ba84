import LockFreeStructures.FastQueue.EnqueueBulk
import LockFreeStructures.FastQueue.SharedInvariant

/-!
# `FastQueue.SharedProducer` — the producer's steps
-/

namespace LockFreeStructures

namespace SharedFastQueue

variable {T α : Type} [DecidableEq T] {cfg : Cfg} {m m' : Memory T α} {t : T} {l : ProducerLocals α}
  {first n k p i : ℕ}

/-! ## What the consumers rely on -/

section Guarantee

omit [DecidableEq T] in
/-- Counters, phases and index arrays stay, and the blocks have only become more. -/
theorem Rely.of_frame (hcounters : m'.counters = m.counters) (hphase : m'.phase = m.phase)
    (harrays : m'.arrays = m.arrays) (hcurrent : m'.currentIndexEntryArray = m.currentIndexEntryArray)
    (hstarted : m.started ≤ m'.started) (hblockOf : ∀ k < m.started, m'.blockOf k = m.blockOf k) :
    Rely cfg t m m' where
  counters := by rw [hcounters]; exact .refl t m.counters
  owned := fun i _ => congrFun hphase i
  started := hstarted
  blockOf := hblockOf
  current := hcurrent.ge
  arrays := fun a _ => by rw [harrays]; exact ⟨rfl, rfl⟩
  based := fun a _ tail h => by rwa [harrays]
  tail := fun a _ h => by rwa [harrays]
  entry := fun a _ i _ => by rw [harrays]

omit [DecidableEq T] in
theorem Rely.modifyBlock (p : ℕ) (f : Block α → Block α) : Rely cfg t m (m.modifyBlock p f) :=
  .of_frame rfl rfl rfl rfl le_rfl fun _ _ => rfl

omit [DecidableEq T] in
theorem blockOf_start (p : ℕ) {k : ℕ} (hk : k < m.started) : (m.start p).blockOf k = m.blockOf k :=
  Function.update_of_ne (Nat.ne_of_lt hk) _ _

omit [DecidableEq T] in
theorem blockOf_start_self (p : ℕ) : (m.start p).blockOf m.started = p := Function.update_self ..

end Guarantee

/-! ## Changes of the blocks -/

section Blocks

/-- The blocks of the ring keep their links and elements, and no flag of them is set. -/
structure SameRing (m : Memory T α) (blocks : ℕ → Block α) : Prop where
  next : ∀ k, m.oldest ≤ k → k < m.started → (blocks (m.blockOf k)).next = (m.blocks (m.blockOf k)).next
  elements : ∀ k, m.oldest ≤ k → k < m.started → (blocks (m.blockOf k)).elements = (m.blocks (m.blockOf k)).elements
  flags : ∀ k, m.oldest ≤ k → k < m.started → ∀ j, (blocks (m.blockOf k)).flags j = true →
    (m.blocks (m.blockOf k)).flags j = true

theorem Inv.elements_congr (h : Inv cfg m) {blocks : ℕ → Block α}
    (helements : ∀ k, m.oldest ≤ k → k < m.indexed →
      (blocks (m.blockOf k)).elements = (m.blocks (m.blockOf k)).elements)
    (hflags : ∀ k, m.oldest ≤ k → k < m.indexed → ∀ j, (blocks (m.blockOf k)).flags j = true →
      (m.blocks (m.blockOf k)).flags j = true) : Elements cfg { m with blocks := blocks } := by
  refine { h.elements with element := fun i x hx hlive => ?_, flag := fun k hk hk' j hj hflag => ?_ }
  · have hlt : i / cfg.blockSize < m.indexed := by
      obtain ⟨hi, -⟩ := List.getElem?_eq_some_iff.mp hx
      have hle := h.elements.written_le
      apply Nat.div_lt_of_lt_mul
      rw [Nat.mul_comm]
      exact hi.trans_le hle
    show (blocks _).elements _ = _
    rw [helements _ (h.elements.oldest_le hlive.ne_done) hlt]
    exact h.elements.element i x hx hlive
  · exact h.elements.flag k hk hk' j hj (hflags k hk hk' j hflag)

theorem Inv.setBlocks (h : Inv cfg m) {blocks : ℕ → Block α} (hsame : SameRing m blocks) :
    Inv cfg { m with blocks := blocks } where
  counters := h.counters
  ring := { h.ring with
    next := fun k hk hk' => (hsame.next k hk (Nat.lt_of_succ_lt hk')).trans (h.ring.next k hk hk')
    last := fun hstarted =>
      (hsame.next _ (Nat.le_sub_one_of_lt (h.ring.oldest_lt hstarted)) (Nat.sub_one_lt (Nat.ne_of_gt hstarted))).trans
        (h.ring.last hstarted) }
  index := { h.index with }
  elements := h.elements_congr (fun k hk hk' => hsame.elements k hk (hk'.trans_le h.index.indexed_le))
    fun k hk hk' => hsame.flags k hk (hk'.trans_le h.index.indexed_le)
  deliveries := { h.deliveries with }

omit [DecidableEq T] in
/-- A block outside the ring changes. -/
theorem SameRing.outside (hp : ¬ m.InRing p) (b : Block α) : SameRing m (Function.update m.blocks p b) := by
  have hsame : ∀ k, m.oldest ≤ k → k < m.started →
      Function.update m.blocks p b (m.blockOf k) = m.blocks (m.blockOf k) :=
    fun k hk hk' => Function.update_of_ne (fun heq => hp ⟨k, hk, hk', heq⟩) _ _
  exact ⟨fun k hk hk' => by rw [hsame k hk hk'], fun k hk hk' => by rw [hsame k hk hk'],
    fun k hk hk' j hj => by rwa [hsame k hk hk'] at hj⟩

omit [DecidableEq T] in
/-- A flag is cleared. -/
theorem SameRing.clear (p i : ℕ) : SameRing m (m.setFlag p i false).blocks := by
  refine ⟨fun k _ _ => next_setFlag false, fun k _ _ => elements_setFlag false, fun k _ _ j hj => ?_⟩
  by_cases hself : m.blockOf k = p ∧ j = i
  · obtain ⟨rfl, rfl⟩ := hself
    rw [flags_setFlag_self] at hj
    cases hj
  · rwa [flags_setFlag_of_ne false (not_and_or.mp hself)] at hj

end Blocks

/-! ## A new tail block -/

section Started

omit [DecidableEq T] in
theorem oldest_start (h : Ring m) (p : ℕ) : (m.start p).oldest = m.oldest + 1 := by
  have hle := h.used_le
  show m.started + 1 - m.indexEntriesUsed = m.started - m.indexEntriesUsed + 1
  omega

omit [DecidableEq T] in
/-- The oldest block of the ring becomes the newest. -/
theorem Ring.reuse (h : Ring m) (hpos : 0 < m.started) : Ring (m.start (m.blockOf m.oldest)) := by
  have holdest := h.oldest_lt hpos
  have hold : ∀ {k}, k < m.started → (m.start (m.blockOf m.oldest)).blockOf k = m.blockOf k := blockOf_start _
  have hnew : (m.start (m.blockOf m.oldest)).blockOf m.started = m.blockOf m.oldest := blockOf_start_self _
  refine ⟨h.used_le.trans (Nat.le_succ _), fun _ => h.used_pos hpos, fun j k hj hjk hk => ?_, ?_, fun k hk hk' => ?_,
    fun _ => ?_⟩
  · rw [oldest_start h] at hj
    replace hk : k < m.started + 1 := hk
    rw [hold (by omega)]
    by_cases hlast : k = m.started
    · subst hlast
      rw [hnew]
      exact (h.injective m.oldest j le_rfl hj hjk).symm
    · rw [hold (by omega)]
      exact h.injective j k (by omega) hjk (by omega)
  · show some (m.blockOf m.oldest) = if m.started + 1 = 0 then none else some _
    rw [if_neg (Nat.succ_ne_zero _)]
    exact congrArg some hnew.symm
  · rw [oldest_start h] at hk
    replace hk' : k + 1 < m.started + 1 := hk'
    rw [hold (by omega)]
    by_cases hlast : k + 1 = m.started
    · rw [hlast, hnew, ← h.last hpos, ← hlast, Nat.add_sub_cancel]
      rfl
    · rw [hold (by omega)]
      exact h.next k (by omega) (by omega)
  · show (m.blocks _).next = _
    rw [oldest_start h, show (m.start (m.blockOf m.oldest)).started - 1 = m.started from Nat.add_sub_cancel .., hnew]
    by_cases hlast : m.oldest + 1 = m.started
    · have hself := h.last hpos
      rw [← hlast, Nat.add_sub_cancel] at hself
      rw [hlast, hnew]
      exact hself
    · rw [hold (by omega)]
      exact h.next m.oldest le_rfl (by omega)

theorem Inv.reuse (h : Inv cfg m) (hindexed : m.indexed = m.started) (hpos : 0 < m.started)
    (hflags : ∀ j < cfg.blockSize, (m.blocks (m.blockOf m.oldest)).flags j = true) :
    Inv cfg (m.start (m.blockOf m.oldest)) := by
  have holdest := h.ring.oldest_lt hpos
  have hold : ∀ {k}, k < m.started → (m.start (m.blockOf m.oldest)).blockOf k = m.blockOf k := blockOf_start _
  refine ⟨h.counters, h.ring.reuse hpos, ?_, ?_, { h.deliveries with }⟩
  · refine { h.index with indexed_le := ?_, le_indexed := ?_, entry := fun k hk hk' => ?_ }
    · exact h.index.indexed_le.trans (Nat.le_succ _)
    · show m.started + 1 ≤ m.indexed + 1
      omega
    · rw [oldest_start h.ring] at hk
      rw [hold (hk'.trans_le hindexed.le)]
      exact h.index.entry k (Nat.le_of_succ_le hk) hk'
  · refine { h.elements with early := fun i hi => ?_, element := fun i x hx hlive => ?_, flag := fun k hk hk' => ?_ }
    · rw [oldest_start h.ring, Nat.add_mul, Nat.one_mul] at hi
      by_cases hlt : i < m.oldest * cfg.blockSize
      · exact h.elements.early i hlt
      · -- the flags of the oldest block are all set
        have hdone := h.elements.flag m.oldest le_rfl (by omega) (i - m.oldest * cfg.blockSize) (by omega)
          (hflags _ (by omega))
        rwa [Nat.add_sub_cancel' (Nat.not_lt.mp hlt)] at hdone
    · have hlt : i / cfg.blockSize < m.started := by
        obtain ⟨hi, -⟩ := List.getElem?_eq_some_iff.mp hx
        have hle := h.elements.written_le
        rw [hindexed] at hle
        apply Nat.div_lt_of_lt_mul
        rw [Nat.mul_comm]
        exact Nat.lt_of_lt_of_le hi hle
      rw [hold hlt]
      exact h.elements.element i x hx hlive
    · rw [oldest_start h.ring] at hk
      rw [hold (hk'.trans_le hindexed.le)]
      exact h.elements.flag k (Nat.le_of_succ_le hk) hk'

/-- Block `p` is linked in behind the tail block. -/
structure Appended (m : Memory T α) (p : ℕ) (blocks : ℕ → Block α) : Prop where
  next : ∀ k, m.oldest ≤ k → k + 1 < m.started → (blocks (m.blockOf k)).next = (m.blocks (m.blockOf k)).next
  tail : 0 < m.started → (blocks (m.blockOf (m.started - 1))).next = p
  last : (blocks p).next = if m.started = 0 then p else m.blockOf m.oldest
  elements : ∀ q, (blocks q).elements = (m.blocks q).elements
  flags : ∀ q, (blocks q).flags = (m.blocks q).flags

/-- The memory with one block more. -/
def Memory.append (p : ℕ) (blocks : ℕ → Block α) (m : Memory T α) : Memory T α :=
  { m with blocks := blocks, indexEntriesUsed := m.indexEntriesUsed + 1 }.start p

variable {blocks : ℕ → Block α}

omit [DecidableEq T] in
theorem oldest_append (p : ℕ) : (m.append p blocks).oldest = m.oldest := Nat.add_sub_add_right ..

omit [DecidableEq T] in
theorem blockOf_append (p : ℕ) {k : ℕ} (hk : k < m.started) : (m.append p blocks).blockOf k = m.blockOf k :=
  Function.update_of_ne (Nat.ne_of_lt hk) _ _

omit [DecidableEq T] in
theorem blockOf_append_self (p : ℕ) : (m.append p blocks).blockOf m.started = p := Function.update_self ..

omit [DecidableEq T] in
theorem Ring.append (h : Ring m) (hp : ¬ m.InRing p) (happ : Appended m p blocks) : Ring (m.append p blocks) := by
  have hold : ∀ {k}, k < m.started → (m.append p blocks).blockOf k = m.blockOf k := blockOf_append p
  have hnew : (m.append p blocks).blockOf m.started = p := blockOf_append_self p
  have hle := h.used_le
  refine ⟨Nat.succ_le_succ hle, fun _ => Nat.succ_pos _, fun j k hj hjk hk => ?_, ?_, fun k hk hk' => ?_, fun _ => ?_⟩
  · rw [oldest_append] at hj
    replace hk : k < m.started + 1 := hk
    rw [hold (by omega)]
    by_cases hlast : k = m.started
    · subst hlast
      rw [hnew]
      exact fun heq => hp ⟨j, hj, hjk, heq⟩
    · rw [hold (by omega)]
      exact h.injective j k hj hjk (by omega)
  · show some p = if m.started + 1 = 0 then none else some _
    rw [if_neg (Nat.succ_ne_zero _)]
    exact congrArg some hnew.symm
  · rw [oldest_append] at hk
    replace hk' : k + 1 < m.started + 1 := hk'
    show (blocks _).next = _
    rw [hold (by omega)]
    by_cases hlast : k + 1 = m.started
    · rw [hlast, hnew, ← happ.tail (by omega), ← hlast, Nat.add_sub_cancel]
    · rw [hold (by omega), happ.next k hk (by omega)]
      exact h.next k hk (by omega)
  · show (blocks _).next = _
    rw [oldest_append, show (m.append p blocks).started - 1 = m.started from Nat.add_sub_cancel .., hnew, happ.last]
    split
    · next hzero =>
      have holdest : m.oldest = m.started := by
        unfold Memory.oldest
        omega
      rw [holdest, hnew]
    · next hpos => rw [hold (h.oldest_lt (Nat.pos_of_ne_zero hpos))]

theorem Inv.append (h : Inv cfg m) (hindexed : m.indexed = m.started) (hused : m.indexEntriesUsed < m.current.size)
    (hp : ¬ m.InRing p) (happ : Appended m p blocks) : Inv cfg (m.append p blocks) := by
  have hold : ∀ {k}, k < m.started → (m.append p blocks).blockOf k = m.blockOf k := blockOf_append p
  refine ⟨h.counters, h.ring.append hp happ, ?_, ?_, { h.deliveries with }⟩
  · refine { h.index with used_le := hused, indexed_le := ?_, le_indexed := ?_, entry := fun k hk hk' => ?_ }
    · exact h.index.indexed_le.trans (Nat.le_succ _)
    · show m.started + 1 ≤ m.indexed + 1
      omega
    · rw [oldest_append] at hk
      rw [hold (hk'.trans_le hindexed.le)]
      exact h.index.entry k hk hk'
  · refine { h.elements with
      early := fun i hi => ?_, element := fun i x hx hlive => ?_, flag := fun k hk hk' j hj hflag => ?_ }
    · rw [oldest_append] at hi
      exact h.elements.early i hi
    · have hlt : i / cfg.blockSize < m.started := by
        obtain ⟨hi, -⟩ := List.getElem?_eq_some_iff.mp hx
        have hle := h.elements.written_le
        rw [hindexed] at hle
        apply Nat.div_lt_of_lt_mul
        rw [Nat.mul_comm]
        exact Nat.lt_of_lt_of_le hi hle
      show (blocks _).elements _ = _
      rw [hold hlt, happ.elements]
      exact h.elements.element i x hx hlive
    · rw [oldest_append] at hk
      rw [hold (hk'.trans_le hindexed.le)] at hflag
      replace hflag : (blocks (m.blockOf k)).flags j = true := hflag
      rw [happ.flags] at hflag
      exact h.elements.flag k hk hk' j hj hflag

end Started

/-! ## Changes of the index -/

section Entries

/-- Two blocks less than a round apart have entries of their own. -/
theorem IndexEntryArray.slot_ne {a : IndexEntryArray} (hlt : k < n) (hround : n < k + a.size) :
    a.slot k ≠ a.slot n := by
  unfold IndexEntryArray.slot
  intro heq
  have hdvd : a.size ∣ n + a.shift - (k + a.shift) :=
    Nat.dvd_of_mod_eq_zero (Nat.sub_mod_eq_zero_of_mod_eq heq.symm)
  have hle := Nat.le_of_dvd (by omega) hdvd
  omega

theorem IndexEntryArray.slot_lt {a : IndexEntryArray} (hpos : 0 < a.size) (k : ℕ) : a.slot k < a.size :=
  Nat.mod_lt _ hpos

/-- A base is written where it belongs. -/
theorem IndexEntryArray.Based.update {a : IndexEntryArray} {tail : ℕ} (h : a.Based cfg tail) (n : ℕ) :
    ({ a with base := Function.update a.base (a.slot n) (some (n * cfg.blockSize)) } : IndexEntryArray).Based
      cfg tail := by
  obtain ⟨k, htail, hbase⟩ := h
  by_cases heq : a.slot k = a.slot n
  · refine ⟨n, htail.trans heq, ?_⟩
    exact Function.update_self ..
  · refine ⟨k, htail, ?_⟩
    exact (Function.update_of_ne heq _ _).trans hbase

/-- The array `CurrentIndexEntryArray` points to changes in a way that consumers do not see. -/
structure Compatible (cfg : Cfg) (m : Memory T α) (a : IndexEntryArray) : Prop where
  size : a.size = m.current.size
  shift : a.shift = m.current.shift
  based : ∀ tail, m.current.Based cfg tail → a.Based cfg tail
  tail : m.current.Based cfg m.current.tail → a.Based cfg a.tail
  entry : ∀ k, m.oldest ≤ k → k < m.indexed → a.innerBlock (m.current.slot k) = m.current.innerBlock (m.current.slot k)

omit [DecidableEq T] in
theorem current_modifyCurrent (f : IndexEntryArray → IndexEntryArray) : (m.modifyCurrent f).current = f m.current :=
  Function.update_self ..

theorem Rely.modifyCurrent (h : Inv cfg m) {f : IndexEntryArray → IndexEntryArray}
    (hf : Compatible cfg m (f m.current)) (t : T) (hcounters : m'.counters = m.counters) (hphase : m'.phase = m.phase)
    (harrays : m'.arrays = (m.modifyCurrent f).arrays) (hcurrent : m'.currentIndexEntryArray = m.currentIndexEntryArray)
    (hstarted : m'.started = m.started) (hblockOf : m'.blockOf = m.blockOf) : Rely cfg t m m' := by
  have hself : m'.arrays m.currentIndexEntryArray = f m.current := by
    rw [harrays]
    exact Function.update_self ..
  have hother : ∀ a, a ≠ m.currentIndexEntryArray → m'.arrays a = m.arrays a := by
    intro a ha
    rw [harrays]
    exact Function.update_of_ne ha _ _
  refine ⟨?_, fun i _ => congrFun hphase i, hstarted.ge, fun k _ => congrFun hblockOf k, hcurrent.ge, fun a _ => ?_,
    fun a _ tail htail => ?_, fun a _ htail => ?_, fun a _ i hi => ?_⟩
  · rw [hcounters]
    exact .refl t m.counters
  · by_cases ha : a = m.currentIndexEntryArray
    · rw [ha, hself]
      exact ⟨hf.size, hf.shift⟩
    · rw [hother a ha]
      exact ⟨rfl, rfl⟩
  · by_cases ha : a = m.currentIndexEntryArray
    · rw [ha] at htail ⊢
      rw [hself]
      exact hf.based tail htail
    · rwa [hother a ha]
  · by_cases ha : a = m.currentIndexEntryArray
    · rw [ha] at htail ⊢
      rw [hself]
      exact hf.tail htail
    · rwa [hother a ha]
  · by_cases ha : a = m.currentIndexEntryArray
    · obtain ⟨hle, hlt⟩ := h.indexed (i := i) (by rw [hi]; rintro ⟨⟩) (by rw [hi]; rintro ⟨⟩)
      rw [ha, hself]
      exact hf.entry _ hle hlt
    · rw [hother a ha]

omit [DecidableEq T] in
/-- The place of the next entry is no other block's. -/
theorem Index.slot_ne (h : Index cfg m) (hstarted : m.indexed + 1 = m.started) (hk : m.oldest ≤ k)
    (hk' : k < m.indexed) : m.current.slot k ≠ m.current.slot m.indexed := by
  apply IndexEntryArray.slot_ne hk'
  have hused := h.used_le
  unfold Memory.oldest at hk
  omega

def IndexEntryArray.setBase (i base : ℕ) (a : IndexEntryArray) : IndexEntryArray :=
  { a with base := Function.update a.base i (some base) }

def IndexEntryArray.setInnerBlock (i : ℕ) (p : Option ℕ) (a : IndexEntryArray) : IndexEntryArray :=
  { a with innerBlock := Function.update a.innerBlock i p }

omit [DecidableEq T] in
theorem Index.setBase (h : Index cfg m) (hstarted : m.indexed + 1 = m.started) :
    Compatible cfg m (m.current.setBase m.nextIndexEntry (m.indexed * cfg.blockSize)) ∧
      Index cfg (m.modifyCurrent (·.setBase m.nextIndexEntry (m.indexed * cfg.blockSize))) := by
  have hbased : ∀ {tail}, m.current.Based cfg tail →
      (m.current.setBase m.nextIndexEntry (m.indexed * cfg.blockSize)).Based cfg tail := by
    intro tail htail
    rw [h.next]
    exact htail.update m.indexed
  refine ⟨⟨rfl, rfl, fun tail => hbased, hbased, fun k _ _ => rfl⟩, ?_⟩
  have hcurrent := current_modifyCurrent (m := m) (·.setBase m.nextIndexEntry (m.indexed * cfg.blockSize))
  refine ⟨?_, ?_, h.indexed_le, h.le_indexed, ?_, fun k hk hk' => ?_, fun hpos => ?_⟩
  · rw [hcurrent]
    exact h.used_le
  · rw [hcurrent]
    exact h.sized
  · rw [hcurrent]
    exact h.next
  · rw [hcurrent]
    obtain ⟨hbase, hblock⟩ := h.entry k hk hk'
    refine ⟨?_, hblock⟩
    refine (Function.update_of_ne ?_ _ _).trans hbase
    rw [h.next]
    exact h.slot_ne hstarted hk hk'
  · rw [hcurrent]
    exact hbased (h.tail hpos)

/-- The entry is complete. -/
def Memory.enter (p : Option ℕ) (m : Memory T α) : Memory T α :=
  { m.modifyCurrent (·.setInnerBlock m.nextIndexEntry p) with
    nextIndexEntry := (m.nextIndexEntry + 1) % m.current.size, indexed := m.indexed + 1 }

omit [DecidableEq T] in
theorem current_enter (p : Option ℕ) : (m.enter p).current = m.current.setInnerBlock m.nextIndexEntry p :=
  Function.update_self ..

theorem Inv.enter (h : Inv cfg m) (hstarted : m.indexed + 1 = m.started)
    (hbase : m.current.base m.nextIndexEntry = some (m.indexed * cfg.blockSize))
    (hflags : ∀ j < cfg.blockSize, (m.blocks (m.blockOf m.indexed)).flags j = false) :
    Compatible cfg m (m.current.setInnerBlock m.nextIndexEntry (some (m.blockOf m.indexed))) ∧
      Inv cfg (m.enter (some (m.blockOf m.indexed))) := by
  have hcurrent := current_enter (m := m) (some (m.blockOf m.indexed))
  have hother : ∀ k, m.oldest ≤ k → k < m.indexed →
      (m.current.setInnerBlock m.nextIndexEntry (some (m.blockOf m.indexed))).innerBlock (m.current.slot k) =
        m.current.innerBlock (m.current.slot k) := by
    intro k hk hk'
    refine Function.update_of_ne ?_ _ _
    rw [h.index.next]
    exact h.index.slot_ne hstarted hk hk'
  refine ⟨⟨rfl, rfl, fun tail htail => htail, fun htail => htail, hother⟩, h.counters, { h.ring with }, ?_, ?_,
    { h.deliveries with }⟩
  · refine ⟨?_, ?_, hstarted.le, ?_, ?_, fun k hk hk' => ?_, fun hpos => ?_⟩
    · rw [hcurrent]
      exact h.index.used_le
    · rw [hcurrent]
      exact h.index.sized
    · show m.started ≤ m.indexed + 1 + 1
      omega
    · rw [hcurrent]
      show (m.nextIndexEntry + 1) % m.current.size = (m.indexed + 1 + m.current.shift) % m.current.size
      rw [h.index.next, IndexEntryArray.slot, Nat.mod_add_mod, Nat.add_right_comm]
    · rw [hcurrent]
      replace hk' : k < m.indexed + 1 := hk'
      by_cases hlast : k = m.indexed
      · subst hlast
        rw [h.index.next] at hbase
        refine ⟨hbase, ?_⟩
        rw [h.index.next]
        exact Function.update_self ..
      · obtain ⟨hbase', hblock⟩ := h.index.entry k hk (by omega)
        exact ⟨hbase', (hother k hk (by omega)).trans hblock⟩
    · rw [hcurrent]
      exact h.index.tail hpos
  · refine { h.elements with written_le := ?_, flag := fun k hk hk' j hj hflag => ?_ }
    · exact h.elements.written_le.trans (Nat.mul_le_mul_right _ (Nat.le_succ _))
    · replace hk' : k < m.indexed + 1 := hk'
      by_cases hlast : k = m.indexed
      · subst hlast
        have hnot := hflags j hj
        rw [show (m.blocks (m.blockOf m.indexed)).flags j = true from hflag] at hnot
        cases hnot
      · exact h.elements.flag k hk (by omega) j hj hflag

/-- `Tail` is stored. -/
theorem Inv.storeTail (h : Inv cfg m) {tail : ℕ} (htail : m.current.Based cfg tail) :
    Compatible cfg m { m.current with tail := tail } ∧
      Inv cfg (m.modifyCurrent fun a => { a with tail := tail }) := by
  have hcurrent := current_modifyCurrent (m := m) fun a => { a with tail := tail }
  refine ⟨⟨rfl, rfl, fun _ h => h, fun _ => htail, fun k _ _ => rfl⟩, h.counters, { h.ring with }, ?_,
    { h.elements with }, { h.deliveries with }⟩
  refine ⟨?_, ?_, h.index.indexed_le, h.index.le_indexed, ?_, fun k hk hk' => ?_, fun _ => ?_⟩
  · rw [hcurrent]
    exact h.index.used_le
  · rw [hcurrent]
    exact h.index.sized
  · rw [hcurrent]
    exact h.index.next
  · rw [hcurrent]
    exact h.index.entry k hk hk'
  · rw [hcurrent]
    exact htail

omit [DecidableEq T] in
/-- The entry before `PO_NextIndexEntry` is the last block's. -/
theorem Index.based_last (h : Index cfg m) (holdest : m.oldest < m.indexed) :
    m.current.Based cfg (Word.sub cfg.w m.nextIndexEntry 1 % m.current.size) := by
  have hpos := h.sized.pos
  have hdvd : m.current.size ∣ 2 ^ cfg.w := (Nat.dvd_mul_right ..).trans h.sized.dvd
  obtain ⟨hbase, -⟩ := h.entry (m.indexed - 1) (by omega) (by omega)
  refine ⟨m.indexed - 1, ?_, hbase⟩
  have hnext : m.nextIndexEntry = (m.current.slot (m.indexed - 1) + 1) % m.current.size := by
    rw [h.next, IndexEntryArray.slot, IndexEntryArray.slot, Nat.mod_add_mod]
    congr 1
    omega
  have hslot := IndexEntryArray.slot_lt hpos (m.indexed - 1)
  rw [sub_mod_eq_slotBack hdvd (hnext ▸ Nat.mod_lt _ hpos) hpos, hnext]
  exact slotBack_one_succ hslot

/-! A new index array has the entries of the ring first, the oldest one at the front. -/

omit [DecidableEq T] in
theorem current_createNewBlockIndexArray (filledSlot : ℕ) : (m.createNewBlockIndexArray cfg filledSlot).current =
    let i := Word.sub cfg.w m.nextIndexEntry m.indexEntriesUsed % m.current.size
    { size := 2 * m.current.size
      tail := Word.sub cfg.w filledSlot 1
      base := fun j => if j < m.indexEntriesUsed then m.current.base ((i + j) % m.current.size) else none
      innerBlock := fun j => if j < m.indexEntriesUsed then m.current.innerBlock ((i + j) % m.current.size) else none
      shift := m.indexEntriesUsed + (2 * m.current.size - m.started % (2 * m.current.size)) } :=
  Function.update_self ..

omit [DecidableEq T] in
theorem slot_createNewBlockIndexArray (hring : Ring m) (hfull : m.indexEntriesUsed = m.current.size)
    (hsize : 0 < m.current.size) (filledSlot : ℕ) {j : ℕ} (hj : j ≤ m.indexEntriesUsed) :
    (m.createNewBlockIndexArray cfg filledSlot).current.slot (m.oldest + j) = j := by
  rw [current_createNewBlockIndexArray]
  unfold IndexEntryArray.slot
  dsimp only
  have hused := hring.used_le
  have hmod := Nat.mod_lt m.started (show 0 < 2 * m.current.size by omega)
  have hsum : m.oldest + j + (m.indexEntriesUsed + (2 * m.current.size - m.started % (2 * m.current.size))) =
      j + 2 * m.current.size * (m.started / (2 * m.current.size) + 1) := by
    have hdiv := Nat.div_add_mod m.started (2 * m.current.size)
    rw [Nat.mul_add, Nat.mul_one]
    unfold Memory.oldest
    omega
  rw [hsum, Nat.add_mul_mod_self_left]
  exact Nat.mod_eq_of_lt (by omega)

omit [DecidableEq T] in
/-- The old place of an entry of a full array. -/
theorem Index.copied (h : Index cfg m) (hring : Ring m) (hindexed : m.indexed = m.started)
    (hfull : m.indexEntriesUsed = m.current.size) {j : ℕ} :
    (Word.sub cfg.w m.nextIndexEntry m.indexEntriesUsed % m.current.size + j) % m.current.size =
      m.current.slot (m.oldest + j) := by
  have hpos := h.sized.pos
  have hdvd : m.current.size ∣ 2 ^ cfg.w := (Nat.dvd_mul_right ..).trans h.sized.dvd
  have hle := hring.used_le
  have hlt : m.nextIndexEntry < m.current.size := h.next ▸ IndexEntryArray.slot_lt hpos m.indexed
  -- a whole round back is the same place
  have hback : slotBack m.current.size m.nextIndexEntry m.current.size = m.nextIndexEntry := by
    unfold slotBack
    rw [if_neg (by omega), Nat.add_sub_cancel]
  rw [hfull, sub_mod_eq_slotBack hdvd hlt le_rfl, hback, h.next, hindexed]
  unfold IndexEntryArray.slot
  rw [Nat.mod_add_mod]
  unfold Memory.oldest
  rw [show m.started + m.current.shift + j = m.started - m.indexEntriesUsed + j + m.current.shift + m.current.size by
    omega, Nat.add_mod_right]

/-- As long as the indices of the ring's blocks are below half the range, an array twice as large fits. -/
theorem IndexEntryArray.Sized.double {a : IndexEntryArray} (h : a.Sized cfg)
    (hle : 2 * a.size * cfg.blockSize ≤ 2 ^ cfg.w) {a' : IndexEntryArray} (hsize : a'.size = 2 * a.size) :
    a'.Sized cfg := by
  obtain ⟨e, he, -⟩ := h
  unfold IndexEntryArray.Sized
  rw [hsize]
  exact ⟨e + 1, by rw [he, Nat.pow_succ, Nat.mul_comm], hle⟩

theorem Inv.createNewBlockIndexArray (h : Inv cfg m) (hindexed : m.indexed = m.started)
    (hfull : m.indexEntriesUsed = m.current.size) (hfits : m.started * cfg.blockSize < 2 ^ (cfg.w - 1)) {filledSlot : ℕ}
    (hfilled : 0 < m.counters.tailIndex → 0 < filledSlot ∧ filledSlot ≤ m.indexEntriesUsed) :
    Inv cfg (m.createNewBlockIndexArray cfg filledSlot) := by
  have hcurrent : (m.createNewBlockIndexArray cfg filledSlot).current = _ := current_createNewBlockIndexArray filledSlot
  have hsize := h.index.sized.pos
  have hle := h.ring.used_le
  have hhalf := cfg.half_add_half
  have hused : m.current.size * cfg.blockSize < 2 ^ (cfg.w - 1) :=
    (Nat.mul_le_mul_right _ (hfull ▸ hle)).trans_lt hfits
  have hslot : ∀ {j}, j ≤ m.indexEntriesUsed →
      (m.createNewBlockIndexArray cfg filledSlot).current.slot (m.oldest + j) = j :=
    slot_createNewBlockIndexArray h.ring hfull hsize filledSlot
  have hentry : ∀ j < m.indexEntriesUsed,
      (m.createNewBlockIndexArray cfg filledSlot).current.base j = some ((m.oldest + j) * cfg.blockSize) ∧
        (m.createNewBlockIndexArray cfg filledSlot).current.innerBlock j = some (m.blockOf (m.oldest + j)) := by
    intro j hj
    rw [hcurrent]
    dsimp only
    rw [if_pos hj, if_pos hj, h.index.copied h.ring hindexed hfull]
    exact h.index.entry (m.oldest + j) (Nat.le_add_right ..) (by unfold Memory.oldest; omega)
  refine ⟨h.counters, { h.ring with }, ?_, { h.elements with }, { h.deliveries with }⟩
  refine ⟨?_, ?_, h.index.indexed_le, h.index.le_indexed, ?_, fun k hk hk' => ?_, fun hpos => ?_⟩
  · rw [hcurrent]
    show m.indexEntriesUsed ≤ 2 * m.current.size
    omega
  · refine h.index.sized.double ?_ (congrArg IndexEntryArray.size hcurrent)
    rw [Nat.mul_assoc]
    omega
  · have hnext := hslot (le_refl m.indexEntriesUsed)
    rw [show m.oldest + m.indexEntriesUsed = m.indexed by unfold Memory.oldest; omega] at hnext
    exact hnext.symm
  · replace hk : m.oldest ≤ k := hk
    replace hk' : k < m.indexed := hk'
    obtain ⟨j, rfl⟩ := Nat.exists_eq_add_of_le hk
    have hj : j < m.indexEntriesUsed := by
      unfold Memory.oldest at hk'
      omega
    rw [hslot hj.le]
    exact hentry j hj
  -- once there are elements the new tail is an entry that was copied
  · obtain ⟨hfilledPos, hfilledLe⟩ := hfilled hpos
    refine ⟨m.oldest + (filledSlot - 1), ?_, ?_⟩
    · rw [hslot (by omega), hcurrent]
      have hbound : filledSlot ≤ m.current.size * cfg.blockSize :=
        (hfilledLe.trans hfull.le).trans (Nat.le_mul_of_pos_right _ cfg.blockSize_pos)
      exact Word.sub_of_le hfilledPos (by omega)
    · rw [hslot (by omega)]
      exact (hentry (filledSlot - 1) (by omega)).1

omit [DecidableEq T] in
theorem Rely.createNewBlockIndexArray (filledSlot : ℕ) (t : T) :
    Rely cfg t m (m.createNewBlockIndexArray cfg filledSlot) := by
  have hold : ∀ a ≤ m.currentIndexEntryArray, (m.createNewBlockIndexArray cfg filledSlot).arrays a = m.arrays a :=
    fun a ha => Function.update_of_ne (Nat.ne_of_lt (Nat.lt_succ_of_le ha)) _ _
  refine ⟨.refl t m.counters, fun _ _ => rfl, le_rfl, fun _ _ => rfl, Nat.le_succ _, fun a ha => ?_,
    fun a ha tail htail => ?_, fun a ha htail => ?_, fun a ha i _ => ?_⟩
  · rw [hold a ha]
    exact ⟨rfl, rfl⟩
  · rwa [hold a ha]
  · rwa [hold a ha]
  · rw [hold a ha]

end Entries

/-! ## The elements -/

section Elements

/-- The next element is constructed. -/
theorem Inv.construct (h : Inv cfg m) (hindexed : m.indexed = m.started) (hk : m.oldest ≤ k) (hk' : k < m.started)
    (hindex : k * cfg.blockSize + i = m.written.length) (hi : i < cfg.blockSize) (x : α) :
    Inv cfg { m.setElement (m.blockOf k) i (some x) with written := m.written ++ [x] } := by
  have hroom : (k + 1) * cfg.blockSize ≤ m.indexed * cfg.blockSize := Nat.mul_le_mul_right _ (by omega)
  rw [Nat.add_mul, Nat.one_mul] at hroom
  refine ⟨h.counters, { h.ring with next := fun j hj hj' => ?_, last := fun hstarted => ?_ }, { h.index with }, ?_,
    { h.deliveries with }⟩
  · exact (next_setElement _).trans (h.ring.next j hj hj')
  · exact (next_setElement _).trans (h.ring.last hstarted)
  · refine { h.elements with
      written := h.elements.written.trans (List.prefix_append ..), written_le := ?_, element := fun j y hy hlive => ?_,
      flag := fun j hj hj' c hc hflag => ?_ }
    · show (m.written ++ [x]).length ≤ m.indexed * cfg.blockSize
      rw [List.length_append, List.length_singleton]
      omega
    · replace hy : (m.written ++ [x])[j]? = some y := hy
      by_cases hold : j < m.written.length
      · rw [List.getElem?_append_left hold] at hy
        -- two indices with the same slot of the same block have the same block number, so they are equal
        have hne : m.blockOf (j / cfg.blockSize) ≠ m.blockOf k ∨ j % cfg.blockSize ≠ i := by
          by_contra hsame
          rw [not_or, not_not, not_not] at hsame
          obtain ⟨hblock, hmod⟩ := hsame
          have hle := h.elements.oldest_le hlive.ne_done
          have hlt : j / cfg.blockSize < m.started := by
            have hle := h.elements.written_le
            rw [hindexed] at hle
            apply Nat.div_lt_of_lt_mul
            rw [Nat.mul_comm]
            exact Nat.lt_of_lt_of_le hold hle
          have hdiv := h.ring.eq_of_blockOf hle hlt hk hk' hblock
          have hj := Nat.div_add_mod j cfg.blockSize
          rw [hdiv, hmod, Nat.mul_comm] at hj
          omega
        exact (elements_setElement_of_ne _ hne).trans (h.elements.element j y hy hlive)
      · obtain ⟨hjlt, -⟩ := List.getElem?_eq_some_iff.mp hy
        rw [List.length_append, List.length_singleton] at hjlt
        -- the element just constructed
        obtain rfl : j = k * cfg.blockSize + i := by omega
        rw [hindex, List.getElem?_concat_length] at hy
        cases hy
        rw [Cfg.pos_div hi, Cfg.pos_mod hi]
        exact elements_setElement_self _
    · replace hflag : ((m.setElement (m.blockOf k) i (some x)).blocks (m.blockOf j)).flags c = true := hflag
      rw [flags_setElement] at hflag
      exact h.elements.flag j hj hj' c hc hflag

/-- All items are constructed, and `TailIndex` is stored. -/
theorem Inv.publish (h : Inv cfg m) {items : List α} (hwritten : m.written = m.enqueued ++ items)
    (hfits : m.counters.tailIndex + items.length < 2 ^ (cfg.w - 1))
    (htail : 0 < m.counters.tailIndex + items.length → m.current.Based cfg m.current.tail) :
    Inv cfg { m with
      counters := { m.counters with tailIndex := m.counters.tailIndex + items.length }
      enqueued := m.enqueued ++ items } where
  counters := h.counters.raise hfits
  ring := { h.ring with }
  index := { h.index with tail := htail }
  elements := { h.elements with
    enqueued := by rw [List.length_append, h.elements.enqueued]
    written := by rw [hwritten] }
  deliveries := { h.deliveries with
    value := by
      intro d hd
      have hvalue := h.deliveries.value d hd
      obtain ⟨hlt, -⟩ := List.getElem?_eq_some_iff.mp hvalue
      exact (List.getElem?_append_left hlt).trans hvalue }

omit [DecidableEq T] in
theorem Rely.publish (items : List α) (t : T) : Rely cfg t m { m with
    counters := { m.counters with tailIndex := m.counters.tailIndex + items.length }
    enqueued := m.enqueued ++ items } where
  counters := .raise t m.counters items.length
  owned := fun _ _ => rfl
  started := le_rfl
  blockOf := fun _ _ => rfl
  current := le_rfl
  arrays := fun _ _ => ⟨rfl, rfl⟩
  based := fun _ _ _ h => h
  tail := fun _ _ h => h
  entry := fun _ _ _ _ => rfl

end Elements

/-! ## What the producer knows -/

section Knowledge

theorem eq_of_mul_between {k n b : ℕ} (hle : k * b ≤ n * b) (hlt : n * b < k * b + b) : n = k := by
  have hb : 0 < b := by omega
  have hle' := Nat.le_of_mul_le_mul_right hle hb
  rw [← Nat.succ_mul] at hlt
  have hlt' := Nat.lt_of_mul_lt_mul_right hlt
  omega

omit [DecidableEq T] in
theorem Acquiring.nextBlock (h : Acquiring cfg l m first 0) (hneed : 0 < l.blockCountNeed) (reusing : Bool) :
    Acquiring cfg { l.nextBlock cfg with reusing := reusing } m first 1 := by
  have hcount : m.started + (l.blockCountNeed - 1) + 1 = m.started + l.blockCountNeed + 0 := by omega
  refine { h with
    enough := ?_, tight := ?_, currentTailIndex_lt := Nat.mod_lt _ (Nat.two_pow_pos _), currentTailIndex := ?_ }
  · show _ ≤ (m.started + (l.blockCountNeed - 1) + 1) * cfg.blockSize
    rw [hcount]
    exact h.enough
  · show (m.started + (l.blockCountNeed - 1) + 1) * cfg.blockSize < _
    rw [hcount]
    exact h.tight
  · show Word.add cfg.w (Word.add cfg.w l.currentTailIndex cfg.blockSize) cfg.blockSize = _
    rw [h.currentTailIndex, Word.add_mod_left, Nat.add_zero, Nat.succ_mul]

omit [DecidableEq T] in
/-- One of the blocks has become the tail block. -/
theorem Acquiring.started (h : Acquiring cfg l m first 1) (htail : m'.counters.tailIndex = m.counters.tailIndex)
    (hwritten : m'.written = m.written) (henqueued : m'.enqueued = m.enqueued) (hstarted : m'.started = m.started + 1)
    (hindexed : m'.indexed = m.indexed) (hold : ∀ k < m.started, m'.blockOf k = m.blockOf k)
    (hnew : m'.blockOf m.started = p) (hused : m.indexEntriesUsed ≤ m'.indexEntriesUsed) :
    Acquiring cfg (l.allocated p) m' first 0 := by
  have hcount : m'.started + l.blockCountNeed + 0 = m.started + l.blockCountNeed + 1 := by omega
  refine
    { items := h.items, startTailIndex := by rw [htail]; exact h.startTailIndex
      fits := h.fits, written := by rw [hwritten, henqueued]; exact h.written
      enough := ?_, tight := ?_, currentTailIndex_lt := h.currentTailIndex_lt, currentTailIndex := ?_
      first_le := by rw [hstarted]; exact h.first_le.trans (Nat.le_succ _)
      first_le_indexed := by rw [hindexed]; exact h.first_le_indexed
      le_first := h.le_first, first_lt := h.first_lt, allocated := ?_, startBlock := ?_
      origin := fun hpos => ?_, untouched := by rintro ⟨⟩ }
  · show _ ≤ (m'.started + l.blockCountNeed + 0) * cfg.blockSize
    rw [hcount]
    exact h.enough
  · show (m'.started + l.blockCountNeed + 0) * cfg.blockSize < _
    rw [hcount]
    exact h.tight
  · rw [hstarted]
    exact h.currentTailIndex
  · have hle := h.first_le
    show some (l.firstAllocatedBlock.getD p) = _
    rw [h.allocated, hstarted, if_pos (Nat.lt_succ_of_le hle)]
    split
    · next hlt => rw [hold first hlt, Option.getD_some]
    · next hge =>
      obtain rfl : first = m.started := by omega
      rw [hnew, Option.getD_none]
  · have hle := h.first_le
    show l.startBlock = _
    rw [h.startBlock]
    split
    · rfl
    · rw [hold (first - 1) (by omega)]
  · obtain ⟨horigin, hle⟩ := h.origin (htail ▸ hpos)
    exact ⟨horigin, hle.trans hused⟩

omit [DecidableEq T] in
theorem Acquiring.started_start (h : Acquiring cfg l m first 1) (p : ℕ) :
    Acquiring cfg (l.allocated p) (m.start p) first 0 :=
  h.started rfl rfl rfl rfl rfl (fun _ hk => blockOf_start p hk) (blockOf_start_self p) le_rfl

omit [DecidableEq T] in
theorem Acquiring.started_append {blocks : ℕ → Block α} (h : Acquiring cfg l m first 1) (p : ℕ) :
    Acquiring cfg (l.allocated p) (m.append p blocks) first 0 :=
  h.started rfl rfl rfl rfl rfl (fun _ hk => blockOf_append p hk) (blockOf_append_self p) (Nat.le_succ _)

omit [DecidableEq T] in
theorem Acquiring.pos (h : Acquiring cfg l m first n) : 0 < l.items.length := List.length_pos_of_ne_nil h.items

omit [DecidableEq T] in
/-- The blocks begin at indices below half the range. -/
theorem Acquiring.base_lt (h : Acquiring cfg l m first n) :
    (m.started + n - 1) * cfg.blockSize < 2 ^ (cfg.w - 1) := by
  have htight := h.tight
  have hfits := h.fits
  rcases Nat.eq_zero_or_pos (m.started + n) with hzero | hpos
  · rw [hzero, Nat.zero_sub, Nat.zero_mul]
    exact Nat.two_pow_pos _
  · have hle : (m.started + n - 1 + 1) * cfg.blockSize ≤ (m.started + l.blockCountNeed + n) * cfg.blockSize :=
      Nat.mul_le_mul_right _ (by omega)
    rw [Nat.succ_mul] at hle
    omega

omit [DecidableEq T] in
theorem Acquiring.currentTailIndex_eq (h : Acquiring cfg l m first n) (hpos : 0 < m.started + n) :
    l.currentTailIndex = (m.started + n - 1) * cfg.blockSize := by
  have hlt := h.base_lt.trans_le (DequeueCounters.two_pow_pred_le cfg.w)
  have hsum : l.currentTailIndex + cfg.blockSize ≡ (m.started + n - 1) * cfg.blockSize + cfg.blockSize
      [MOD 2 ^ cfg.w] := by
    rw [← Nat.succ_mul, show (m.started + n - 1).succ = m.started + n by omega]
    exact h.currentTailIndex
  have hword := Nat.ModEq.add_right_cancel' cfg.blockSize hsum
  rwa [Nat.ModEq, Nat.mod_eq_of_lt h.currentTailIndex_lt, Nat.mod_eq_of_lt hlt] at hword

omit [DecidableEq T] in
/-- Where no block has been taken a roll back changes nothing. -/
theorem Acquiring.rollBack (h : Acquiring cfg l m first n) (hring : Ring m) (hnone : l.firstAllocatedBlock = none) :
    m.rollBack l = m ∧ first = m.started := by
  have hallocated := h.allocated
  rw [hnone] at hallocated
  have hfirst : first = m.started := by
    have hle := h.first_le
    -- a block taken would be the first one allocated
    by_contra hne
    rw [if_pos (Nat.lt_of_le_of_ne hle hne)] at hallocated
    cases hallocated
  have htail : l.startBlock = m.tailBlock := by rw [h.startBlock, hring.tailBlock, hfirst]
  refine ⟨?_, hfirst⟩
  unfold Memory.rollBack
  rw [(h.untouched hnone).2, htail]

/-- With all blocks there the filling starts in the block of the first index. -/
theorem Acquiring.firstBlock (h : Acquiring cfg l m first 0) (hm : Inv cfg m)
    (hneed : l.blockCountNeed = 0) : l.firstBlock cfg = some (m.blockOf (l.startTailIndex / cfg.blockSize)) ∧
      m.oldest ≤ l.startTailIndex / cfg.blockSize ∧ l.startTailIndex / cfg.blockSize < m.started := by
  have hdiv := Nat.div_add_mod l.startTailIndex cfg.blockSize
  rw [Nat.mul_comm] at hdiv
  have hmod := Nat.mod_lt l.startTailIndex cfg.blockSize_pos
  have hle := h.le_first
  have hlt := h.first_lt
  have hitems := h.pos
  have henough := h.enough
  rw [hneed] at henough
  have holdest : m.oldest ≤ l.startTailIndex / cfg.blockSize := by
    apply hm.elements.oldest_le
    rw [(hm.elements.waiting l.startTailIndex).mpr]
    · rintro ⟨⟩
    · rw [h.startTailIndex]
      exact hm.counters.head_le
  have hstarted : l.startTailIndex / cfg.blockSize < m.started := by
    apply Nat.div_lt_of_lt_mul
    rw [Nat.mul_comm]
    exact Nat.lt_of_lt_of_le (by omega) henough
  refine ⟨?_, holdest, hstarted⟩
  unfold ProducerLocals.firstBlock ProducerLocals.startIndex
  by_cases hzero : l.startTailIndex % cfg.blockSize = 0
  · -- the call starts with a new block
    have hfirst : first = l.startTailIndex / cfg.blockSize :=
      eq_of_mul_between (b := cfg.blockSize) (by omega) (by omega)
    have hallocated : l.firstAllocatedBlock = some (m.blockOf (l.startTailIndex / cfg.blockSize)) := by
      rw [h.allocated, hfirst, if_pos hstarted]
    rw [if_pos ⟨hzero, by rw [hallocated]; rintro ⟨⟩⟩, hallocated]
  · have hfirst : first = l.startTailIndex / cfg.blockSize + 1 := by
      apply eq_of_mul_between (b := cfg.blockSize)
      · rw [Nat.succ_mul]
        by_contra hcon
        have hsame : first = l.startTailIndex / cfg.blockSize :=
          eq_of_mul_between (b := cfg.blockSize) (by omega) (by omega)
        rw [hsame] at hle
        omega
      · rw [Nat.succ_mul]
        omega
    rw [if_neg fun hand => hzero hand.1, h.startBlock, hfirst, if_neg (Nat.succ_ne_zero _), Nat.add_sub_cancel]

theorem Acquiring.filling (h : Acquiring cfg l m first 0) (hm : Inv cfg m) (hindexed : m.indexed = m.started)
    (hneed : l.blockCountNeed = 0) : Filling cfg l m l.items where
  items := h.items
  startTailIndex := h.startTailIndex
  fits := h.fits
  indexed := hindexed
  written := by rw [h.written]
  enough := by
    have henough := h.enough
    rwa [hneed] at henough
  tight := by
    have htight := h.tight
    rwa [hneed] at htight
  tail := by
    intro hnone
    apply hm.index.tail
    -- otherwise the first block was got in this call
    by_contra hzero
    have hitems := h.pos
    have henough := h.enough
    have hlt := h.first_lt
    have hstart := h.startTailIndex
    have hfirst : first = 0 := eq_of_mul_between (b := cfg.blockSize) (by omega) (by omega)
    have hpos : 0 < m.started := by
      by_contra hnot
      rw [hneed, show m.started = 0 by omega, Nat.zero_add, Nat.zero_mul] at henough
      omega
    rw [h.allocated, hfirst, if_pos hpos] at hnone
    cases hnone

end Knowledge

/-! ## The steps -/

section Steps

/-- What holds after a step of the producer. -/
structure Kept (cfg : Cfg) (m m' : Memory T α) (pc' : ProducerPc α) : Prop where
  inv : Inv cfg m'
  at_ : pc'.At cfg m'
  rely : ∀ t, Rely cfg t m m'

theorem Kept.same (hm : Inv cfg m) {pc' : ProducerPc α} (hat : pc'.At cfg m) : Kept cfg m m pc' :=
  ⟨hm, hat, fun _ => .of_frame rfl rfl rfl rfl le_rfl fun _ _ => rfl⟩

theorem ProducerPc.At.acquire {pc' : ProducerPc α} (h : (ProducerPc.acquire l).At cfg m) (hm : Inv cfg m)
    (hs : produce cfg m (.acquire l) = some (m', pc')) : Kept cfg m m' pc' := by
  obtain ⟨hindexed, first, hacq⟩ := h
  unfold produce at hs
  dsimp only at hs
  split at hs
  · next hneed =>
    obtain ⟨hblock, holdest, hstarted⟩ := hacq.firstBlock hm hneed
    rw [hblock] at hs
    cases hs
    refine .same hm ⟨hacq.filling hm hindexed hneed, _, holdest, hstarted, rfl, ?_, (Nat.mod_lt _ cfg.blockSize_pos).le⟩
    rw [hacq.written, hm.elements.enqueued, ← hacq.startTailIndex, Nat.mul_comm]
    exact Nat.div_add_mod ..
  · next hneed =>
    have hneed' := Nat.pos_of_ne_zero hneed
    have hfresh := hacq.nextBlock hneed' false
    cases hreusing : l.reusing with
    | false =>
        rw [hreusing] at hs
        cases hs
        exact .same hm ⟨hindexed, first, hfresh⟩
    | true =>
        rw [hreusing] at hs
        have htail := hm.ring.tailBlock
        by_cases hzero : m.started = 0
        · rw [if_pos hzero] at htail
          rw [htail] at hs
          cases hs
          exact .same hm ⟨hindexed, first, hfresh⟩
        · rw [if_neg hzero] at htail
          rw [htail] at hs
          cases hs
          have hstarted := Nat.pos_of_ne_zero hzero
          exact .same hm ⟨hindexed, ⟨first, hacq⟩, hneed', hstarted, hm.ring.last hstarted, cfg.blockSize_pos,
            fun j hj => absurd hj (Nat.not_lt_zero j)⟩

theorem ProducerPc.At.isEmpty {pc' : ProducerPc α} (h : (ProducerPc.isEmpty l p i).At cfg m)
    (hm : Inv cfg m) (hs : produce cfg m (.isEmpty l p i) = some (m', pc')) : Kept cfg m m' pc' := by
  obtain ⟨hindexed, ⟨first, hacq⟩, hneed, hstarted, rfl, hi, hflags⟩ := h
  unfold produce at hs
  dsimp only at hs
  split at hs
  · cases hs
    exact .same hm ⟨hindexed, first, { hacq with }⟩
  · next hflag =>
    rw [Bool.not_eq_false] at hflag
    have hflags' : ∀ j < i + 1, (m.blocks (m.blockOf m.oldest)).flags j = true := by
      intro j hj
      rcases Nat.lt_succ_iff_lt_or_eq.mp hj with hlt | rfl
      · exact hflags j hlt
      · exact hflag
    split at hs
    · next hlast =>
      cases hs
      -- all flags are set: the oldest block becomes the newest one
      refine ⟨hm.reuse hindexed hstarted (hlast ▸ hflags'), ?_, fun t => ?_⟩
      · refine ⟨?_, ⟨first, (hacq.nextBlock hneed l.reusing).started_start _⟩, ?_, Nat.zero_lt_of_lt hi,
          fun j hj => absurd hj (Nat.not_lt_zero j)⟩
        · show m.indexed + 1 = m.started + 1
          rw [hindexed]
        · show _ = (m.start _).blockOf m.indexed
          rw [hindexed, blockOf_start_self]
      · exact .of_frame rfl rfl rfl rfl (Nat.le_succ _) fun k hk => blockOf_start _ hk
    · next hlast =>
      cases hs
      exact .same hm ⟨hindexed, ⟨first, hacq⟩, hneed, hstarted, rfl, by omega, hflags'⟩

theorem ProducerPc.At.indexArray {pc' : ProducerPc α} (h : (ProducerPc.indexArray l).At cfg m)
    (hm : Inv cfg m) (hs : produce cfg m (.indexArray l) = some (m', pc')) : Kept cfg m m' pc' := by
  obtain ⟨hindexed, first, hacq⟩ := h
  unfold produce at hs
  dsimp only at hs
  split at hs
  · next hfull =>
    split at hs
    · cases hs
      exact .same hm ⟨hindexed, first, hacq⟩
    · cases hs
      have hfits := hacq.base_lt
      rw [Nat.add_sub_cancel] at hfits
      refine ⟨hm.createNewBlockIndexArray hindexed hfull hfits hacq.origin, ⟨hindexed, ⟨first, ?_⟩, ?_⟩,
        fun t => .createNewBlockIndexArray _ t⟩
      · exact { hacq with untouched := fun hnone => ⟨(hacq.untouched hnone).1, (hacq.untouched hnone).1⟩ }
      · rw [current_createNewBlockIndexArray]
        show m.indexEntriesUsed < 2 * m.current.size
        have hsize := hm.index.sized.pos
        omega
  · next hroom =>
    cases hs
    exact .same hm ⟨hindexed, ⟨first, hacq⟩, Nat.lt_of_le_of_ne hm.index.used_le hroom⟩

/-- **A call that has taken no block fails**, and leaves everything as it was. -/
theorem ProducerPc.At.giveUp {pc' : ProducerPc α} (h : (ProducerPc.giveUp l).At cfg m) (hm : Inv cfg m)
    (hnone : l.firstAllocatedBlock = none) (hs : produce cfg m (.giveUp l) = some (m', pc')) : Kept cfg m m' pc' := by
  obtain ⟨hindexed, first, hacq⟩ := h
  -- with no block taken the positions saved at the start are the present ones
  obtain ⟨hsame, hfirst⟩ := hacq.rollBack hm.ring hnone
  unfold produce at hs
  dsimp only at hs
  rw [hsame] at hs
  cases hs
  have hle := hacq.le_first
  have hlt := hacq.first_lt
  rw [hacq.startTailIndex, hfirst] at hle hlt
  exact .same hm ⟨hindexed, hacq.written, hle, hlt⟩

/-- A block of the manager's comes with whatever is in it. -/
theorem ProducerPc.At.requisition (h : (ProducerPc.requisitionBlock l).At cfg m) (hm : Inv cfg m)
    (hp : ¬ m.InRing p) (content : Block α) : Kept cfg m (m.modifyBlock p fun _ => content) (.reset l p true 0) := by
  obtain ⟨hindexed, ⟨first, hacq⟩, hused⟩ := h
  refine ⟨hm.setBlocks (.outside hp content), ?_, fun t => .modifyBlock p _⟩
  exact ⟨hindexed, ⟨first, { hacq with }⟩, hused, hp, cfg.blockSize_pos, fun j hj => absurd hj (Nat.not_lt_zero j)⟩

omit [DecidableEq T] in
/-- One flag more is cleared. -/
theorem flags_cleared (h : ∀ j < i, (m.blocks p).flags j = false) :
    ∀ j < i + 1, ((m.setFlag p i false).blocks p).flags j = false := by
  intro j hj
  by_cases hji : j = i
  · rw [hji]
    exact flags_setFlag_self false
  · rw [flags_setFlag_of_ne false (Or.inr hji)]
    exact h j (by omega)

theorem ProducerPc.At.reset {fresh : Bool} {pc' : ProducerPc α} (h : (ProducerPc.reset l p fresh i).At cfg m)
    (hm : Inv cfg m) (hs : produce cfg m (.reset l p fresh i) = some (m', pc')) : Kept cfg m m' pc' := by
  cases hs
  have hinv : Inv cfg (m.setFlag p i false) := hm.setBlocks (.clear p i)
  refine ⟨hinv, ?_, fun t => .modifyBlock p _⟩
  -- a block of the manager's has still to be linked, a reused one is the tail block already
  cases fresh with
  | true =>
      obtain ⟨hindexed, ⟨first, hacq⟩, hused, hp, hi, hflags⟩ := h
      have hcleared := flags_cleared hflags
      split
      · next hlast =>
        rw [hlast] at hcleared
        exact ⟨hindexed, ⟨first, { hacq with }⟩, hused, hp, hcleared⟩
      · next hlast => exact ⟨hindexed, ⟨first, { hacq with }⟩, hused, hp, by omega, hcleared⟩
  | false =>
      obtain ⟨hindexed, ⟨first, hacq⟩, rfl, hi, hflags⟩ := h
      have hcleared := flags_cleared hflags
      split
      · next hlast =>
        rw [hlast] at hcleared
        exact ⟨hindexed, ⟨first, { hacq with }⟩, hcleared⟩
      · next hlast => exact ⟨hindexed, ⟨first, { hacq with }⟩, rfl, by omega, hcleared⟩

/-- A block got its place in the ring. -/
theorem Kept.append (hm : Inv cfg m) (hindexed : m.indexed = m.started) (hacq : Acquiring cfg l m first 1)
    (hused : m.indexEntriesUsed < m.current.size) (hp : ¬ m.InRing p) {blocks : ℕ → Block α}
    (hflags : ∀ j < cfg.blockSize, (m.blocks p).flags j = false) (happ : Appended m p blocks) :
    Kept cfg m (m.append p blocks) (.entryBase (l.allocated p)) := by
  refine ⟨hm.append hindexed hused hp happ, ⟨?_, ⟨first, hacq.started_append p⟩, fun j hj => ?_⟩, fun t => ?_⟩
  · show m.indexed + 1 = m.started + 1
    rw [hindexed]
  · show (blocks ((m.append p blocks).blockOf m.indexed)).flags j = false
    rw [hindexed, blockOf_append_self, happ.flags]
    exact hflags j hj
  · exact .of_frame rfl rfl rfl rfl (Nat.le_succ _) fun k hk => blockOf_append p hk

theorem ProducerPc.At.linkBlock {pc' : ProducerPc α} (h : (ProducerPc.linkBlock l p).At cfg m)
    (hm : Inv cfg m) (hs : produce cfg m (.linkBlock l p) = some (m', pc')) : Kept cfg m m' pc' := by
  obtain ⟨hindexed, ⟨first, hacq⟩, hused, hp, hflags⟩ := h
  have htail := hm.ring.tailBlock
  unfold produce at hs
  dsimp only at hs
  -- the first block of the queue is linked to itself
  by_cases hzero : m.started = 0
  · rw [if_pos hzero] at htail
    rw [htail] at hs
    cases hs
    have happ : Appended m p (m.setNext p p).blocks := by
      refine ⟨fun k _ hk => absurd hk (by omega), fun hstarted => absurd hstarted (by omega), ?_,
        fun q => elements_setNext p, fun q => flags_setNext p⟩
      rw [if_pos hzero]
      exact next_setNext_self p
    exact .append hm hindexed hacq hused hp hflags happ
  · rw [if_neg hzero] at htail
    rw [htail] at hs
    cases hs
    have hstarted := Nat.pos_of_ne_zero hzero
    refine ⟨hm.setBlocks (.outside hp _), ?_, fun t => .modifyBlock p _⟩
    refine ⟨hindexed, ⟨first, { hacq with }⟩, hused, hp, fun j hj => ?_, hstarted, ?_⟩
    · rw [flags_setNext]
      exact hflags j hj
    · rw [next_setNext_self]
      exact hm.ring.last hstarted

theorem ProducerPc.At.linkTail {pc' : ProducerPc α} (h : (ProducerPc.linkTail l p).At cfg m)
    (hm : Inv cfg m) (hs : produce cfg m (.linkTail l p) = some (m', pc')) : Kept cfg m m' pc' := by
  obtain ⟨hindexed, ⟨first, hacq⟩, hused, hp, hflags, hstarted, hnext⟩ := h
  have htail := hm.ring.tailBlock
  have holdest := hm.ring.oldest_lt hstarted
  rw [if_neg (Nat.ne_of_gt hstarted)] at htail
  unfold produce at hs
  dsimp only at hs
  rw [htail] at hs
  cases hs
  have happ : Appended m p (m.setNext (m.blockOf (m.started - 1)) p).blocks := by
    refine ⟨fun k hk hk' => next_setNext_of_ne p ?_, fun _ => next_setNext_self p, ?_, fun q => elements_setNext p,
      fun q => flags_setNext p⟩
    · exact hm.ring.injective k (m.started - 1) hk (by omega) (by omega)
    · rw [if_neg (Nat.ne_of_gt hstarted), next_setNext_of_ne]
      · exact hnext
      · rintro rfl
        exact hp ⟨m.started - 1, by omega, by omega, rfl⟩
  exact .append hm hindexed hacq hused hp hflags happ

theorem ProducerPc.At.entryBase {pc' : ProducerPc α} (h : (ProducerPc.entryBase l).At cfg m)
    (hm : Inv cfg m) (hs : produce cfg m (.entryBase l) = some (m', pc')) : Kept cfg m m' pc' := by
  obtain ⟨hindexed, ⟨first, hacq⟩, hflags⟩ := h
  have hbase : l.currentTailIndex = m.indexed * cfg.blockSize := by
    rw [hacq.currentTailIndex_eq (by omega), ← hindexed, Nat.add_zero, Nat.add_sub_cancel]
  unfold produce at hs
  dsimp only at hs
  rw [hbase] at hs
  cases hs
  -- the entry is unused or the one of the block that was taken out, so no consumer needs it
  obtain ⟨hcompatible, hindex⟩ := hm.index.setBase hindexed
  refine ⟨⟨hm.counters, { hm.ring with }, hindex, { hm.elements with }, { hm.deliveries with }⟩, ?_, fun t => ?_⟩
  · refine ⟨hindexed, ⟨first, { hacq with }⟩, hflags, ?_⟩
    rw [current_modifyCurrent]
    exact Function.update_self ..
  · exact .modifyCurrent hm hcompatible t rfl rfl rfl rfl rfl rfl

theorem ProducerPc.At.entryBlock {pc' : ProducerPc α} (h : (ProducerPc.entryBlock l).At cfg m)
    (hm : Inv cfg m) (hs : produce cfg m (.entryBlock l) = some (m', pc')) : Kept cfg m m' pc' := by
  obtain ⟨hindexed, ⟨first, hacq⟩, hflags, hbase⟩ := h
  have htail : m.tailBlock = some (m.blockOf m.indexed) := by
    rw [hm.ring.tailBlock, if_neg (by omega), ← hindexed, Nat.add_sub_cancel]
  unfold produce at hs
  dsimp only at hs
  rw [htail] at hs
  cases hs
  obtain ⟨hcompatible, hinv⟩ := hm.enter hindexed hbase hflags
  refine ⟨hinv, ⟨hindexed, first, ?_⟩, fun t => .modifyCurrent hm hcompatible t rfl rfl rfl rfl rfl rfl⟩
  have hfirst := hacq.first_le_indexed
  refine { hacq with first_le_indexed := hfirst.trans (Nat.le_succ _), untouched := fun hnone => ?_ }
  -- the entry is the one of a block this call has taken
  have hallocated := hacq.allocated
  rw [hnone, if_pos (show first < m.started by omega)] at hallocated
  cases hallocated

omit [DecidableEq T] in
/-- How many items are left. -/
theorem Filling.count {rest : List α} (h : Filling cfg l m rest) (hm : Elements cfg m) :
    m.written.length + rest.length = l.startTailIndex + l.items.length := by
  have hlength := congrArg List.length h.written
  rwa [List.length_append, List.length_append, hm.enqueued, ← h.startTailIndex] at hlength

omit [DecidableEq T] in
/-- The last index of the call. -/
theorem Filling.last_eq {rest : List α} (h : Filling cfg l m rest) :
    Word.sub cfg.w (Word.add cfg.w l.startTailIndex l.items.length) 1 = l.startTailIndex + l.items.length - 1 := by
  have hitems := List.length_pos_of_ne_nil h.items
  have hlt := h.fits.trans_le (DequeueCounters.two_pow_pred_le cfg.w)
  rw [Word.add_of_lt hlt, Word.sub_of_le (by omega) hlt]

/-- Whether the block is the tail block, and where the filling of it ends. -/
theorem Filling.last_block {rest : List α} (h : Filling cfg l m rest) (hm : Inv cfg m)
    (hk : m.oldest ≤ k) (hk' : k < m.started) :
    m.tailBlock = some (m.blockOf k) ∧ k + 1 = m.started ∧
        k * cfg.blockSize + (l.startTailIndex + l.items.length - 1) % cfg.blockSize + 1 =
          l.startTailIndex + l.items.length ∨
      m.tailBlock ≠ some (m.blockOf k) ∧ k + 1 < m.started ∧
        k * cfg.blockSize + cfg.blockSize < l.startTailIndex + l.items.length := by
  have hitems := List.length_pos_of_ne_nil h.items
  have henough := h.enough
  have htight := h.tight
  rcases Nat.lt_or_ge (k + 1) m.started with hlt | hge
  · refine Or.inr ⟨fun heq => ?_, hlt, ?_⟩
    · have hlast := (hm.ring.tailBlock_eq_iff hk hk').mp heq
      omega
    · have hmul := Nat.mul_le_mul_right cfg.blockSize (show k + 1 + 1 ≤ m.started by omega)
      rw [Nat.add_mul, Nat.add_mul, Nat.one_mul] at hmul
      omega
  · have hlast : k + 1 = m.started := by omega
    refine Or.inl ⟨(hm.ring.tailBlock_eq_iff hk hk').mpr hlast, hlast, ?_⟩
    rw [← hlast, Nat.add_mul, Nat.one_mul] at henough htight
    have hsum : l.startTailIndex + l.items.length - 1 =
        l.startTailIndex + l.items.length - 1 - k * cfg.blockSize + k * cfg.blockSize := by omega
    rw [hsum, Nat.add_mul_mod_self_right, Nat.mod_eq_of_lt (by omega)]
    omega

theorem Filling.construct {x : α} {rest : List α} (h : Filling cfg l m (x :: rest)) (hm : Inv cfg m)
    (hk : m.oldest ≤ k) (hk' : k < m.started) (hindex : k * cfg.blockSize + i = m.written.length)
    (hi : i < cfg.blockSize) :
    Kept cfg m { m.setElement (m.blockOf k) i (some x) with written := m.written ++ [x] }
      (.fill l (m.blockOf k) (i + 1) rest) := by
  refine ⟨hm.construct h.indexed hk hk' hindex hi x, ?_, fun t => .of_frame rfl rfl rfl rfl le_rfl fun _ _ => rfl⟩
  refine ⟨{ h with written := ?_ }, k, hk, hk', rfl, ?_, hi⟩
  · show m.written ++ [x] ++ rest = _
    rw [List.append_assoc]
    exact h.written
  · show k * cfg.blockSize + (i + 1) = (m.written ++ [x]).length
    rw [List.length_append, List.length_singleton, ← hindex, Nat.add_assoc]

theorem ProducerPc.At.fill {rest : List α} {pc' : ProducerPc α} (h : (ProducerPc.fill l p i rest).At cfg m)
    (hm : Inv cfg m) (hs : produce cfg m (.fill l p i rest) = some (m', pc')) : Kept cfg m m' pc' := by
  obtain ⟨hfilling, k, hk, hk', rfl, hindex, hi⟩ := h
  have hcount := hfilling.count hm.elements
  unfold produce at hs
  dsimp only at hs
  rw [hfilling.last_eq] at hs
  -- in the tail block the filling ends with the last item, in any other one with the last slot
  rcases hfilling.last_block hm hk hk' with ⟨htail, hstarted, hend⟩ | ⟨htail, hstarted, hend⟩
  · rw [if_pos htail] at hs
    split at hs
    · next hle =>
      cases rest with
      | nil => cases hs
      | cons x rest =>
          cases hs
          exact hfilling.construct hm hk hk' hindex (hle.trans_lt (Nat.mod_lt _ cfg.blockSize_pos))
    · next hgt =>
      cases hs
      have hrest : rest = [] := by
        apply List.eq_nil_of_length_eq_zero
        omega
      subst hrest
      refine .same hm ?_
      split
      · next hnone => exact ⟨hfilling, hfilling.tail hnone⟩
      · exact hfilling
  · rw [if_neg htail] at hs
    split at hs
    · next hle =>
      cases rest with
      | nil => cases hs
      | cons x rest =>
          cases hs
          exact hfilling.construct hm hk hk' hindex (Nat.lt_of_le_sub_one cfg.blockSize_pos hle)
    · next hgt =>
      cases hs
      have hfull : i = cfg.blockSize := by omega
      subst hfull
      have hnext := hm.ring.next k hk hstarted
      refine .same hm ⟨hfilling, k + 1, hk.trans (Nat.le_succ k), hstarted, hnext, ?_, Nat.zero_le _⟩
      rw [Nat.add_zero, Nat.succ_mul]
      exact hindex

theorem ProducerPc.At.storeTail {pc' : ProducerPc α} (h : (ProducerPc.storeTail l).At cfg m)
    (hm : Inv cfg m) (hs : produce cfg m (.storeTail l) = some (m', pc')) : Kept cfg m m' pc' := by
  have hfilling : Filling cfg l m [] := h
  cases hs
  have hstarted : 0 < m.started := by
    have hitems := List.length_pos_of_ne_nil hfilling.items
    have henough := hfilling.enough
    by_contra hnot
    rw [show m.started = 0 by omega, Nat.zero_mul] at henough
    omega
  have hbased := hm.index.based_last (by rw [hfilling.indexed]; exact hm.ring.oldest_lt hstarted)
  obtain ⟨hcompatible, hinv⟩ := hm.storeTail hbased
  have hnew : (m.modifyCurrent fun a => { a with
      tail := Word.sub cfg.w m.nextIndexEntry 1 % m.current.size }).current.Based cfg
      (Word.sub cfg.w m.nextIndexEntry 1 % m.current.size) := by
    rw [current_modifyCurrent]
    exact hbased
  have htail : (m.modifyCurrent fun a => { a with
      tail := Word.sub cfg.w m.nextIndexEntry 1 % m.current.size }).current.tail =
      Word.sub cfg.w m.nextIndexEntry 1 % m.current.size := by
    rw [current_modifyCurrent]
  refine ⟨hinv, ⟨{ hfilling with tail := fun _ => ?_ }, ?_⟩, fun t =>
    .modifyCurrent hm hcompatible t rfl rfl rfl rfl rfl rfl⟩
  · exact htail.symm ▸ hnew
  · exact htail.symm ▸ hnew

theorem ProducerPc.At.storeTailIndex {pc' : ProducerPc α} (h : (ProducerPc.storeTailIndex l).At cfg m)
    (hm : Inv cfg m) (hs : produce cfg m (.storeTailIndex l) = some (m', pc')) : Kept cfg m m' pc' := by
  obtain ⟨hfilling, hbased⟩ := h
  have hwritten := hfilling.written
  rw [List.append_nil] at hwritten
  have henough := hfilling.enough
  have htight := hfilling.tight
  have hfits := hfilling.fits
  unfold produce at hs
  dsimp only at hs
  rw [Word.add_of_lt (hfits.trans_le (DequeueCounters.two_pow_pred_le cfg.w)), hfilling.startTailIndex] at hs
  rw [hfilling.startTailIndex] at henough htight hfits
  cases hs
  exact ⟨hm.publish hwritten hfits fun _ => hbased, ⟨hfilling.indexed, hwritten, henough, htight⟩,
    fun t => .publish l.items t⟩

/-- **A call starts.** -/
theorem ProducerPc.At.enqueueBulk {returned : Option Bool} (h : (ProducerPc.idle returned : ProducerPc α).At cfg m)
    (hm : Inv cfg m) (mode : AllocMode) {items : List α} (hitems : items ≠ [])
    (hfits : m.counters.tailIndex + items.length < 2 ^ (cfg.w - 1)) :
    (ProducerPc.acquire (SharedFastQueue.enqueueBulk cfg mode items m)).At cfg m := by
  obtain ⟨hindexed, hwritten, hle, hlt⟩ := h
  have hlength := List.length_pos_of_ne_nil hitems
  have hword := hm.counters.tailIndex_lt.trans_le (DequeueCounters.two_pow_pred_le cfg.w)
  have hblocks : numBlocks cfg m.counters.tailIndex = m.started := numBlocks_eq hle hlt
  have hneed : m.started + (SharedFastQueue.enqueueBulk cfg mode items m).blockCountNeed + 0 =
      numBlocks cfg (m.counters.tailIndex + items.length) := by
    have hcount : FastQueue.blockCountNeed cfg m.counters.tailIndex items.length + numBlocks cfg m.counters.tailIndex = _ :=
      FastQueue.blockCountNeed_word hlength (by omega) hword
    -- below half the range the signed shift asks for no block too many
    rw [if_neg fun hand => absurd hand.1 hm.counters.tailIndex_lt.le.not_gt, hblocks] at hcount
    unfold SharedFastQueue.enqueueBulk
    dsimp only
    omega
  have hbase := base_of_next cfg m.counters.tailIndex
  rw [Nat.mod_eq_of_lt hword, hblocks] at hbase
  refine ⟨hindexed, m.started,
    { items := hitems, startTailIndex := rfl, fits := hfits, written := hwritten, enough := ?_, tight := ?_
      currentTailIndex_lt := (Nat.sub_le ..).trans_lt (Nat.mod_lt _ (Nat.two_pow_pos _)), currentTailIndex := hbase
      first_le := le_rfl, first_le_indexed := hindexed.ge, le_first := hle, first_lt := hlt
      allocated := (if_neg (Nat.lt_irrefl _)).symm, startBlock := hm.ring.tailBlock
      origin := fun htail => ⟨hm.ring.used_pos ?_, le_rfl⟩, untouched := fun _ => ⟨rfl, rfl⟩ }⟩
  · rw [hneed]
    exact le_numBlocks cfg _
  · rw [hneed]
    exact numBlocks_mul_lt cfg _
  · by_contra hnot
    rw [show m.started = 0 by omega, Nat.zero_mul] at hle
    omega

/-- **One access of the producer.** -/
theorem ProducerPc.At.produce {pc pc' : ProducerPc α} (h : pc.At cfg m) (hm : Inv cfg m)
    (hrange : (Pc.producer pc).InRange cfg m)
    (hs : SharedFastQueue.produce cfg m pc = some (m', pc')) : Kept cfg m m' pc' := by
  cases pc with
  | idle => cases hs
  | acquire l => exact h.acquire hm hs
  | isEmpty l p i => exact h.isEmpty hm hs
  | loadHeadIndex l =>
      unfold SharedFastQueue.produce at hs
      dsimp only at hs
      split at hs
      · cases hs
        exact .same hm h
      · cases hs
        exact .same hm h
  | indexArray l => exact h.indexArray hm hs
  | requisitionBlock l => cases hs
  | reset l p fresh i => exact h.reset hm hs
  | linkBlock l p => exact h.linkBlock hm hs
  | linkTail l p => exact h.linkTail hm hs
  | entryBase l => exact h.entryBase hm hs
  | entryBlock l => exact h.entryBlock hm hs
  | fill l p i rest => exact h.fill hm hs
  | storeTail l => exact h.storeTail hm hs
  | storeTailIndex l => exact h.storeTailIndex hm hs
  | giveUp l => exact h.giveUp hm hrange hs

end Steps

end SharedFastQueue

end LockFreeStructures
