import LockFreeStructures.ReaderWriterQueue.Invariant

/-!
# `ReaderWriterQueue.Throws` — constructors of elements that throw

In the tail block and in the next one the constructor runs before anything is written, save the copy of `Front`.
A new block is made before its element: an exception leaves the block where no one finds it, and `BlockSize`
doubled. In runs without that the blocks are always the ones of the ring, whatever the size of the first.
-/

namespace LockFreeStructures

namespace ReaderWriterQueue

variable {V : Type} {cfg : Cfg} {m m' m'' : Memory V} {s s' : State V} {ring : List ℕ} {b tail reservedSize : ℕ} {v : V}
  {mode : AllocMode} {ppc pc : ProducerPc V} {cpc : ConsumerPc V}

/-! ## Throwing -/

/-- A new block without an element, not linked in. -/
def Memory.leaveBlock (cfg : Cfg) (m : Memory V) : Memory V :=
  { m with
    blocks := Function.update m.blocks m.blockCount (makeBlock cfg m.blockSize)
    blockCount := m.blockCount + 1 }

/-- The constructor throws where the producer comes to it. -/
def throwing (cfg : Cfg) (m : Memory V) : ProducerPc V → Option (Memory V)
  | .construct _ _ _ | .constructNext _ _ _ => some m
  | .makeBlock _ _ => some ((m.grow cfg).leaveBlock cfg)
  | _ => none

/-- Steps of a queue whose elements' constructors may throw. -/
inductive ThrowStep (cfg : Cfg) : State V → Option (Act V) → State V → Prop
  | step {s s' : State V} {a : Act V} (h : Step cfg s a s') : ThrowStep cfg s (some a) s'
  | throw {s : State V} {m : Memory V} (h : throwing cfg s.memory s.producer = some m) :
      ThrowStep cfg s none { s with memory := m, producer := .idle }

/-- The producer, left to itself, comes to a constructor that throws. -/
inductive Throws (cfg : Cfg) : Memory V → ProducerPc V → Memory V → Prop
  | throw {m m' : Memory V} {pc : ProducerPc V} (h : throwing cfg m pc = some m') : Throws cfg m pc m'
  | access {m m' m'' : Memory V} {ppc pc : ProducerPc V} (h : produce cfg m ppc = some (m', pc))
      (h' : Throws cfg m'.note pc m'') : Throws cfg m ppc m''

/-- No exception after a block has been made. -/
def Contained (s : State V) (a : Option (Act V)) : Prop := a = none → ∀ v b, s.producer ≠ .makeBlock v b

/-! ## `Clear` -/

/-- The blocks `Clear` frees. -/
def Memory.clear (m : Memory V) (fuel : ℕ) : Option (List ℕ) :=
  walkRound (fun b => (m.blocks b).next) m.frontBlock fuel m.frontBlock

/-- `Clear` frees every block that has been made, once. -/
def AllFreed (m : Memory V) : Prop := ∃ fuel l, m.clear fuel = some l ∧ l.Perm (List.range m.blockCount)

theorem allFreed_of_ring (hring : IsRing (fun b => (m.blocks b).next) ring) (hfront : m.frontBlock ∈ ring)
    (hmem : ∀ b, b ∈ ring ↔ b < m.blockCount) : AllFreed m := by
  obtain ⟨fuel, l, hwalk, hperm⟩ := hring.walkRound_perm hfront
  refine ⟨fuel, l, hwalk, hperm.trans ?_⟩
  refine (List.perm_ext_iff_of_nodup hring.nodup List.nodup_range).mpr fun b => ?_
  rw [hmem, List.mem_range]

/-- A block outside the ring is not freed. -/
theorem not_allFreed_of_notMem (hring : IsRing (fun b => (m.blocks b).next) ring) (hfront : m.frontBlock ∈ ring)
    (hb : b ∉ ring) (hlt : b < m.blockCount) : ¬ AllFreed m := by
  rintro ⟨fuel, l, hwalk, hperm⟩
  exact hb (hring.walkRound_subset hfront hwalk (hperm.mem_iff.mpr (List.mem_range.mpr hlt)))

/-! ## The ring is all blocks -/

/-- The block the producer is at. -/
def ProducerPc.block : ProducerPc V → Option ℕ
  | .loadTail _ _ b | .loadFront _ _ b _ | .construct _ b _ | .storeTail _ b _ | .loadNext _ _ b
  | .loadFrontBlock _ _ b _ | .loadNextBlock _ b | .loadNextTail _ b | .loadNextFront _ b _ | .constructNext _ b _
  | .storeNextTail _ b _ | .makeBlock _ b | .loadNewNext _ b _ | .storeNext _ b _ | .storeTailBlock _ b => some b
  | .idle | .loadTailBlock _ _ | .assertFailed => none

/-- The new block, before it is linked in. -/
def ProducerPc.unlinked : ProducerPc V → Option ℕ
  | .loadNewNext _ _ b | .storeNext _ _ b => some b
  | _ => none

/-- The block the consumer is at. -/
def ConsumerPc.block : ConsumerPc V → Option ℕ
  | .loadFront _ b | .loadTailBlock _ b _ _ | .loadTail _ b _ _ | .reloadTail _ b _ | .loadNext _ b
  | .loadNextFront _ b | .loadNextTail _ b _ | .storeFrontBlock _ b _ | .take _ b _ | .storeFront _ b _ _ => some b
  | .idle | .loadFrontBlock _ | .assertFailed => none

/-- The blocks form a ring, and either side is at one of them. -/
structure Ringed (s : State V) (ring : List ℕ) : Prop where
  isRing : IsRing (fun b => (s.memory.blocks b).next) ring
  mem : ∀ b, b ∈ ring ↔ b < s.memory.blockCount ∧ s.producer.unlinked ≠ some b
  front : s.memory.frontBlock ∈ ring
  tail : s.memory.tailBlock ∈ ring
  producer : ∀ b, s.producer.block = some b → b ∈ ring
  consumer : ∀ b, s.consumer.block = some b → b ∈ ring
  unlinked : ∀ b, s.producer.unlinked = some b → b < s.memory.blockCount
  next : ∀ v b newBlock, s.producer = .storeNext v b newBlock →
    (s.memory.blocks newBlock).next = (s.memory.blocks b).next

theorem next_localFront (b i x : ℕ) :
    ((m.updateBlock b fun block => { block with localFront := i }).blocks x).next = (m.blocks x).next := by
  apply updateBlock_field Block.next
  rfl

theorem next_tail (b i x : ℕ) :
    ((m.updateBlock b fun block => { block with tail := block.succ i }).blocks x).next = (m.blocks x).next := by
  apply updateBlock_field Block.next
  rfl

theorem next_construct (b i : ℕ) (v : V) (x : ℕ) :
    ((m.updateBlock b (Block.construct i v)).blocks x).next = (m.blocks x).next := by
  apply updateBlock_field Block.next
  unfold Block.construct
  split_ifs <;> rfl

namespace Ringed

/-- Steps that leave the links alone. -/
theorem move (h : Ringed s ring) (hnext : ∀ b, (m'.blocks b).next = (s.memory.blocks b).next)
    (hcount : m'.blockCount = s.memory.blockCount) (hfront : m'.frontBlock ∈ ring) (htail : m'.tailBlock ∈ ring)
    (hunlinked : pc.unlinked = s.producer.unlinked) (hp : ∀ b, pc.block = some b → b ∈ ring)
    (hc : ∀ b, cpc.block = some b → b ∈ ring)
    (hstore : ∀ v b newBlock, pc = .storeNext v b newBlock → s.producer = .storeNext v b newBlock) :
    Ringed ⟨m', pc, cpc⟩ ring where
  isRing := h.isRing.congr fun b _ => hnext b
  mem b := by
    rw [show State.memory ⟨m', pc, cpc⟩ = m' from rfl, show State.producer ⟨m', pc, cpc⟩ = pc from rfl, hcount,
      hunlinked]
    exact h.mem b
  front := hfront
  tail := htail
  producer := hp
  consumer := hc
  unlinked b hb := by
    rw [show State.memory ⟨m', pc, cpc⟩ = m' from rfl, hcount]
    exact h.unlinked b (hunlinked.symm.trans hb)
  next v b newBlock hpc := by
    rw [show State.memory ⟨m', pc, cpc⟩ = m' from rfl, hnext, hnext]
    exact h.next v b newBlock (hstore v b newBlock hpc)

/-- The producer goes on within the ring. -/
theorem goOn (h : Ringed s ring) (hnext : ∀ b, (m'.blocks b).next = (s.memory.blocks b).next)
    (hcount : m'.blockCount = s.memory.blockCount) (hfront : m'.frontBlock = s.memory.frontBlock)
    (htail : m'.tailBlock ∈ ring) (hold : s.producer.unlinked = none) (hnew : pc.unlinked = none)
    (hp : ∀ b, pc.block = some b → b ∈ ring) : Ringed { s with memory := m'.note, producer := pc } ring := by
  refine h.move hnext hcount ?_ htail (hnew.trans hold.symm) hp h.consumer ?_
  · exact hfront ▸ h.front
  · rintro v b newBlock rfl
    exact absurd hnew nofun

/-- Linking the new block in. -/
theorem storeNext {newBlock : ℕ} (h : Ringed s ring) (hpc : s.producer = .storeNext v b newBlock) :
    ∃ ring, Ringed ⟨(s.memory.updateBlock b fun block => { block with next := some newBlock }).note,
      .storeTailBlock v newBlock, s.consumer⟩ ring := by
  have hb := h.producer b (by rw [hpc]; rfl)
  have hnew : newBlock ∉ ring := fun hmem => ((h.mem _).mp hmem).2 (by rw [hpc]; rfl)
  have hlt := h.unlinked newBlock (by rw [hpc]; rfl)
  have hne : newBlock ≠ b := fun heq => hnew (heq ▸ hb)
  obtain ⟨l₁, l₂, rfl⟩ := List.append_of_mem hb
  have hsplit : IsRing (fun b => (s.memory.blocks b).next) ((l₁ ++ [b]) ++ l₂) := by
    rw [List.append_assoc]
    exact h.isRing
  have hrot : IsRing (fun b => (s.memory.blocks b).next) (l₂ ++ l₁ ++ [b]) := by
    rw [List.append_assoc]
    exact hsplit.rotate
  have hperm : ∀ x, x ∈ l₂ ++ l₁ ++ [b] ↔ x ∈ l₁ ++ b :: l₂ := by
    intro x
    simp only [List.mem_append, List.mem_cons, List.not_mem_nil, or_false]
    tauto
  have hself : (s.memory.updateBlock b fun block => { block with next := some newBlock }).blocks b = _ :=
    updateBlock_self ..
  have hother : ∀ x ≠ b, ((s.memory.updateBlock b fun block => { block with next := some newBlock }).blocks x) =
      s.memory.blocks x := fun x hx => updateBlock_of_ne hx _
  have hin : ∀ x ∈ l₁ ++ b :: l₂, x ∈ l₂ ++ l₁ ++ [b] ++ [newBlock] :=
    fun x hx => List.mem_append_left _ ((hperm x).mpr hx)
  refine ⟨l₂ ++ l₁ ++ [b] ++ [newBlock], ?_, fun x => ?_, hin _ h.front, hin _ h.tail, ?_,
    fun x hx => hin x (h.consumer x hx), nofun, nofun⟩
  · refine hrot.splice (fun hmem => hnew ((hperm _).mp hmem)) ?_ ?_ fun z hz => ?_
    · exact congrArg Block.next hself
    · exact (congrArg Block.next (hother newBlock hne)).trans (h.next v b newBlock hpc)
    · refine congrArg Block.next (hother z ?_)
      rintro rfl
      exact (List.nodup_append.mp hrot.nodup).2.2 z hz z List.mem_cons_self rfl
  · rw [List.mem_append, List.mem_singleton, hperm, h.mem, hpc]
    show _ ↔ x < s.memory.blockCount ∧ none ≠ some x
    rw [show (ProducerPc.storeNext v b newBlock).unlinked = some newBlock from rfl]
    constructor
    · rintro (⟨hx, -⟩ | rfl)
      · exact ⟨hx, nofun⟩
      · exact ⟨hlt, nofun⟩
    · rintro ⟨hx, -⟩
      by_cases heq : x = newBlock
      · exact Or.inr heq
      · exact Or.inl ⟨hx, fun heq' => heq (Option.some.inj heq').symm⟩
  · intro x hx
    obtain rfl : newBlock = x := Option.some.inj hx
    exact List.mem_append_right _ List.mem_cons_self

/-- Making a new block. -/
theorem makeBlock (h : Ringed s ring) (hpc : s.producer = .makeBlock v b) :
    Ringed ⟨((s.memory.grow cfg).addBlock cfg v).note, .loadNewNext v b s.memory.blockCount, s.consumer⟩ ring := by
  have hmem : ∀ x, x ∈ ring ↔ x < s.memory.blockCount := by
    intro x
    rw [h.mem, hpc]
    exact and_iff_left nofun
  have hother : ∀ x ∈ ring, ((s.memory.grow cfg).addBlock cfg v).blocks x = s.memory.blocks x :=
    fun x hx => Function.update_of_ne (Nat.ne_of_lt ((hmem x).mp hx)) ..
  refine ⟨h.isRing.congr fun x hx => congrArg Block.next (hother x hx), fun x => ?_, h.front, h.tail, ?_, h.consumer,
    ?_, nofun⟩
  · rw [hmem]
    show x < s.memory.blockCount ↔ x < s.memory.blockCount + 1 ∧ some s.memory.blockCount ≠ some x
    rw [Ne, Option.some.injEq]
    omega
  · intro x hx
    exact h.producer x (by rw [hpc]; exact hx)
  · intro x hx
    obtain rfl : s.memory.blockCount = x := Option.some.inj hx
    exact Nat.lt_succ_self _

/-- The new block's `Next`, before it is linked in. -/
theorem loadNewNext {newBlock : ℕ} (h : Ringed s ring) (hpc : s.producer = .loadNewNext v b newBlock) :
    Ringed ⟨(s.memory.updateBlock newBlock fun block => { block with next := (s.memory.blocks b).next }).note,
      .storeNext v b newBlock, s.consumer⟩ ring := by
  have hb := h.producer b (by rw [hpc]; rfl)
  have hnew : newBlock ∉ ring := fun hmem => ((h.mem _).mp hmem).2 (by rw [hpc]; rfl)
  have hself : (s.memory.updateBlock newBlock fun block =>
      { block with next := (s.memory.blocks b).next }).blocks newBlock = _ := updateBlock_self ..
  have hother : ∀ x ∈ ring, ((s.memory.updateBlock newBlock fun block =>
      { block with next := (s.memory.blocks b).next }).blocks x).next = (s.memory.blocks x).next :=
    fun x hx => congrArg Block.next (updateBlock_of_ne (ne_of_mem_of_not_mem hx hnew) _)
  refine ⟨h.isRing.congr hother, fun x => ?_, h.front, h.tail, ?_, h.consumer, ?_, ?_⟩
  · rw [h.mem, hpc]
    rfl
  · intro x hx
    exact h.producer x (by rw [hpc]; exact hx)
  · intro x hx
    exact h.unlinked x (by rw [hpc]; exact hx)
  · intro v' b' newBlock' heq
    cases heq
    exact (congrArg Block.next hself).trans (hother b hb).symm

/-- **Step** of the producer. -/
theorem produce (h : Ringed s ring) (hs : ReaderWriterQueue.produce cfg s.memory s.producer = some (m', pc)) :
    ∃ ring, Ringed { s with memory := m'.note, producer := pc } ring := by
  have hat : ∀ b, s.producer.block = some b → ∀ x, some b = some x → x ∈ ring := by
    intro b hb x hx
    obtain rfl := Option.some.inj hx
    exact h.producer b hb
  cases hpc : s.producer with
  | idle | assertFailed =>
      rw [hpc] at hs
      exact absurd hs (by rintro ⟨⟩)
  | loadTailBlock mode v =>
      rw [hpc] at hs
      cases hs
      refine ⟨ring, h.goOn (fun _ => rfl) rfl rfl h.tail (by rw [hpc]; rfl) rfl fun x hx => ?_⟩
      obtain rfl : s.memory.tailBlock = x := Option.some.inj hx
      exact h.tail
  | loadTail mode v b =>
      simp only [hpc, ReaderWriterQueue.produce] at hs
      split at hs <;> cases hs <;>
        exact ⟨ring, h.goOn (fun _ => rfl) rfl rfl h.tail (by rw [hpc]; rfl) rfl (hat b (by rw [hpc]; rfl))⟩
  | loadFront mode v b tail =>
      simp only [hpc, ReaderWriterQueue.produce] at hs
      split at hs <;> cases hs <;>
        exact ⟨ring, h.goOn (next_localFront b _) rfl rfl h.tail (by rw [hpc]; rfl) rfl
          (hat b (by rw [hpc]; rfl))⟩
  | construct v b tail =>
      rw [hpc] at hs
      cases hs
      exact ⟨ring, h.goOn (next_construct b _ _) rfl rfl h.tail (by rw [hpc]; rfl) rfl
        (hat b (by rw [hpc]; rfl))⟩
  | storeTail v b tail =>
      rw [hpc] at hs
      cases hs
      exact ⟨ring, h.goOn (next_tail b _) rfl rfl h.tail (by rw [hpc]; rfl) rfl (by rintro _ ⟨⟩)⟩
  | loadNext mode v b =>
      rw [hpc] at hs
      cases hs
      exact ⟨ring, h.goOn (fun _ => rfl) rfl rfl h.tail (by rw [hpc]; rfl) rfl (hat b (by rw [hpc]; rfl))⟩
  | loadFrontBlock mode v b next =>
      simp only [hpc, ReaderWriterQueue.produce] at hs
      split at hs
      · cases hs
        exact ⟨ring, h.goOn (fun _ => rfl) rfl rfl h.tail (by rw [hpc]; rfl) rfl (hat b (by rw [hpc]; rfl))⟩
      · cases mode with
        | canAlloc =>
            cases hs
            exact ⟨ring, h.goOn (fun _ => rfl) rfl rfl h.tail (by rw [hpc]; rfl) rfl (hat b (by rw [hpc]; rfl))⟩
        | cannotAlloc =>
            cases hs
            exact ⟨ring, h.goOn (fun _ => rfl) rfl rfl h.tail (by rw [hpc]; rfl) rfl (by rintro _ ⟨⟩)⟩
  | loadNextBlock v b =>
      rw [hpc] at hs
      obtain ⟨next, hnext, hs⟩ := Option.map_eq_some_iff.mp hs
      cases hs
      refine ⟨ring, h.goOn (fun _ => rfl) rfl rfl h.tail (by rw [hpc]; rfl) rfl fun x hx => ?_⟩
      obtain rfl : next = x := Option.some.inj hx
      exact h.isRing.next_mem (h.producer b (by rw [hpc]; rfl)) hnext
  | loadNextTail v b =>
      rw [hpc] at hs
      cases hs
      exact ⟨ring, h.goOn (fun _ => rfl) rfl rfl h.tail (by rw [hpc]; rfl) rfl (hat b (by rw [hpc]; rfl))⟩
  | loadNextFront v b tail =>
      simp only [hpc, ReaderWriterQueue.produce] at hs
      split at hs
      · cases hs
        exact ⟨ring, h.goOn (next_localFront b _) rfl rfl h.tail (by rw [hpc]; rfl) rfl
          (hat b (by rw [hpc]; rfl))⟩
      · cases hs
        exact ⟨ring, h.goOn (next_localFront b _) rfl rfl h.tail (by rw [hpc]; rfl) rfl (by rintro _ ⟨⟩)⟩
  | constructNext v b tail =>
      rw [hpc] at hs
      cases hs
      exact ⟨ring, h.goOn (next_construct b _ _) rfl rfl h.tail (by rw [hpc]; rfl) rfl
        (hat b (by rw [hpc]; rfl))⟩
  | storeNextTail v b tail =>
      rw [hpc] at hs
      cases hs
      exact ⟨ring, h.goOn (next_tail b _) rfl rfl h.tail (by rw [hpc]; rfl) rfl (hat b (by rw [hpc]; rfl))⟩
  | makeBlock v b =>
      rw [hpc] at hs
      cases hs
      exact ⟨ring, h.makeBlock hpc⟩
  | loadNewNext v b newBlock =>
      rw [hpc] at hs
      cases hs
      exact ⟨ring, h.loadNewNext hpc⟩
  | storeNext v b newBlock =>
      rw [hpc] at hs
      cases hs
      exact h.storeNext hpc
  | storeTailBlock v b =>
      rw [hpc] at hs
      cases hs
      exact ⟨ring, h.goOn (fun _ => rfl) rfl rfl (h.producer b (by rw [hpc]; rfl)) (by rw [hpc]; rfl) rfl (by rintro _ ⟨⟩)⟩

/-- Where the consumer comes to from one access to the next. -/
theorem block_of_consume {cpc cpc' : ConsumerPc V} (hs : consume m cpc = some (m', cpc')) :
    (m'.frontBlock = m.frontBlock ∨ cpc.block = some m'.frontBlock) ∧
      ∀ b, cpc'.block = some b → cpc.block = some b ∨ b = m.frontBlock ∨
        ∃ b', cpc.block = some b' ∧ (m.blocks b').next = some b := by
  have huse : ∀ (m : Memory V) op b front, (useFront m op b front).1.frontBlock = m.frontBlock ∧
      ∀ x, (useFront m op b front).2.block = some x → some b = some x := by
    intro m op b front
    cases op
    · exact ⟨rfl, fun x hx => hx⟩
    · exact ⟨rfl, by rintro _ ⟨⟩⟩
    · exact ⟨rfl, fun x hx => hx⟩
  have helse : ∀ (m : Memory V) op b front tail, (orElse m op b front tail).1.frontBlock = m.frontBlock ∧
      ∀ x, (orElse m op b front tail).2.block = some x → some b = some x := by
    intro m op b front tail
    unfold orElse
    split
    · exact huse m op b front
    · exact ⟨rfl, fun x hx => hx⟩
  cases cpc with
  | idle | assertFailed => exact absurd hs (by rintro ⟨⟩)
  | loadFrontBlock op =>
      cases hs
      exact ⟨Or.inl rfl, fun x hx => Or.inr (Or.inl (Option.some.inj hx).symm)⟩
  | loadTailBlock op b front localTail =>
      simp only [consume] at hs
      split at hs
      · cases hs
        exact ⟨Or.inl rfl, fun x hx => Or.inl hx⟩
      · have helse := helse m op b front localTail
        rw [Option.some.inj hs] at helse
        exact ⟨Or.inl helse.1, fun x hx => Or.inl (helse.2 x hx)⟩
  | loadTail op b front localTail =>
      simp only [consume] at hs
      split at hs
      · cases hs
        exact ⟨Or.inl rfl, fun x hx => Or.inl hx⟩
      · have hpair := Option.some.inj hs
        obtain ⟨hfront, hblock⟩ := helse (m.updateBlock b fun block => { block with localTail := (m.blocks b).tail }) op b
          front (if op = .tryDequeue then (m.blocks b).tail else localTail)
        exact ⟨Or.inl ((congrArg (fun r => r.1.frontBlock) hpair).symm.trans hfront), fun x hx =>
          Or.inl (hblock x ((congrArg (fun r => r.2.block) hpair).trans hx))⟩
  | reloadTail op b front =>
      simp only [consume] at hs
      split at hs
      · have hpair := Option.some.inj hs
        obtain ⟨hfront, hblock⟩ :=
          huse (m.updateBlock b fun block => { block with localTail := (m.blocks b).tail }) op b front
        exact ⟨Or.inl ((congrArg (fun r => r.1.frontBlock) hpair).symm.trans hfront), fun x hx =>
          Or.inl (hblock x ((congrArg (fun r => r.2.block) hpair).trans hx))⟩
      · cases hs
        exact ⟨Or.inl rfl, by rintro _ ⟨⟩⟩
  | loadNext op b =>
      obtain ⟨next, hnext, hs⟩ := Option.map_eq_some_iff.mp hs
      cases hs
      refine ⟨Or.inl rfl, fun x hx => Or.inr (Or.inr ⟨b, rfl, ?_⟩)⟩
      exact hnext.trans hx
  | loadNextTail op b front =>
      simp only [consume] at hs
      split at hs
      · cases hs
        exact ⟨Or.inl rfl, by rintro _ ⟨⟩⟩
      · cases op <;> cases hs
        · exact ⟨Or.inl rfl, fun x hx => Or.inl hx⟩
        · exact ⟨Or.inl rfl, by rintro _ ⟨⟩⟩
        · exact ⟨Or.inl rfl, fun x hx => Or.inl hx⟩
  | storeFrontBlock op b front =>
      cases hs
      exact ⟨Or.inr rfl, fun x hx => Or.inl hx⟩
  | storeFront op b front v =>
      cases hs
      exact ⟨Or.inl rfl, by rintro _ ⟨⟩⟩
  | loadFront | loadNextFront | take =>
      cases hs
      exact ⟨Or.inl rfl, fun x hx => Or.inl hx⟩

/-- **Step** of the consumer. -/
theorem consume {cpc : ConsumerPc V} (h : Ringed s ring)
    (hs : ReaderWriterQueue.consume s.memory s.consumer = some (m', cpc)) :
    Ringed { s with memory := m'.note, consumer := cpc } ring := by
  have hframe := ConsumerFrame.consume hs
  obtain ⟨hfront, hblock⟩ := block_of_consume hs
  refine h.move hframe.next hframe.blockCount ?_ ?_ rfl h.producer (fun b hb => ?_) fun _ _ _ hpc => hpc
  · rcases hfront with heq | hat
    · exact heq.symm ▸ h.front
    · exact h.consumer _ hat
  · exact hframe.tailBlock.symm ▸ h.tail
  · rcases hblock b hb with hat | rfl | ⟨b', hat, hnext⟩
    · exact h.consumer b hat
    · exact h.front
    · exact h.isRing.next_mem (h.consumer b' hat) hnext

/-- **Step.** -/
theorem step {a : Option (Act V)} (h : Ringed s ring) (hok : Contained s a) (hs : ThrowStep cfg s a s') :
    ∃ ring, Ringed s' ring := by
  cases hs with
  | step hs =>
      cases hs with
      | enqueue mode v hpc =>
          exact ⟨ring, h.move (fun _ => rfl) rfl h.front h.tail (by rw [hpc]; rfl) nofun h.consumer nofun⟩
      | produce hprod => exact h.produce hprod
      | noBlock hpc =>
          exact ⟨ring, h.move (fun _ => rfl) rfl h.front h.tail (by rw [hpc]; rfl) nofun h.consumer nofun⟩
      | dequeue op hpc =>
          exact ⟨ring, h.move (fun _ => rfl) rfl h.front h.tail rfl h.producer nofun fun _ _ _ hpc => hpc⟩
      | consume hcons => exact ⟨ring, h.consume hcons⟩
  | throw hthrow =>
      cases hpc : s.producer with
      | construct v b tail | constructNext v b tail =>
          rw [hpc] at hthrow
          cases hthrow
          exact ⟨ring, h.move (fun _ => rfl) rfl h.front h.tail (by rw [hpc]; rfl) nofun h.consumer nofun⟩
      | makeBlock v b => exact absurd hpc (hok rfl v b)
      | idle | loadTailBlock | loadTail | loadFront | storeTail | loadNext | loadFrontBlock | loadNextBlock
      | loadNextTail | loadNextFront | storeNextTail | loadNewNext | storeNext | storeTailBlock | assertFailed =>
          rw [hpc] at hthrow
          exact absurd hthrow nofun

/-- The constructor links all blocks it makes, whatever their number and size. -/
theorem fresh (cfg : Cfg) (reservedSize : ℕ) : ∃ ring, Ringed (State.fresh cfg reservedSize : State V) ring := by
  have hcount : 0 < (initialBlocks cfg reservedSize).1 := by
    have htwo := cfg.two_le_blockSize
    unfold initialBlocks
    dsimp only
    split_ifs
    · exact Nat.div_pos (by omega) (by omega)
    · exact Nat.one_pos
  have hmem : 0 ∈ List.range (initialBlocks cfg reservedSize).1 := List.mem_range.mpr hcount
  refine ⟨List.range (initialBlocks cfg reservedSize).1, IsRing.range hcount, fun b => ?_, hmem, hmem, nofun, nofun,
    nofun, nofun⟩
  rw [List.mem_range]
  exact (and_iff_left nofun).symm

/-- **Run.** -/
theorem of_reaches (h : Reaches (ThrowStep cfg) Contained (State.fresh cfg reservedSize : State V) s) :
    ∃ ring, Ringed s ring :=
  h.invariant (I := fun s => ∃ ring, Ringed s ring) (fresh cfg reservedSize) fun _ _ _ hring hok hs => by
    obtain ⟨ring, hring⟩ := hring
    exact hring.step hok hs

/-- **Between calls** `Clear` frees all blocks. -/
theorem allFreed (h : Ringed s ring) (hpc : s.producer = .idle) : AllFreed s.memory := by
  refine allFreed_of_ring h.isRing h.front fun b => ?_
  rw [h.mem, hpc]
  exact and_iff_left nofun

end Ringed

/-! ## A call that throws -/

/-- All of the queue that can be observed is as before: nothing but the producer's copies of `Front` may differ. -/
structure Unchanged (m m' : Memory V) : Prop where
  enqueued : m'.enqueued = m.enqueued
  consumed : m'.consumed = m.consumed
  frontBlock : m'.frontBlock = m.frontBlock
  tailBlock : m'.tailBlock = m.tailBlock
  blockSize : m'.blockSize = m.blockSize
  blocks : ∀ b < m.blockCount, ∃ i, m'.blocks b = { m.blocks b with localFront := i }

/-- The tail block is full, and the next one is the front block. -/
structure OutOfRoom (m : Memory V) : Prop where
  localFront : (m.blocks m.tailBlock).succ (m.blocks m.tailBlock).tail = (m.blocks m.tailBlock).localFront
  front : (m.blocks m.tailBlock).succ (m.blocks m.tailBlock).tail = (m.blocks m.tailBlock).front
  next : (m.blocks m.tailBlock).next = some m.frontBlock

/-- Unchanged, and no block has been made. -/
def Kept (m m' : Memory V) : Prop := Unchanged m m' ∧ m'.blockCount = m.blockCount

namespace Kept

theorem refl (m : Memory V) : Kept m m := ⟨⟨rfl, rfl, rfl, rfl, rfl, fun _ _ => ⟨_, rfl⟩⟩, rfl⟩

theorem note (m : Memory V) : Kept m m.note := ⟨⟨rfl, rfl, rfl, rfl, rfl, fun _ _ => ⟨_, rfl⟩⟩, rfl⟩

theorem trans (h : Kept m m') (h' : Kept m' m'') : Kept m m'' := by
  obtain ⟨h, hcount⟩ := h
  obtain ⟨h', hcount'⟩ := h'
  refine ⟨⟨h'.enqueued.trans h.enqueued, h'.consumed.trans h.consumed, h'.frontBlock.trans h.frontBlock,
    h'.tailBlock.trans h.tailBlock, h'.blockSize.trans h.blockSize, fun b hb => ?_⟩, hcount'.trans hcount⟩
  obtain ⟨i, hi⟩ := h.blocks b hb
  obtain ⟨j, hj⟩ := h'.blocks b (hcount.symm ▸ hb)
  exact ⟨j, by rw [hj, hi]⟩

theorem localFront (m : Memory V) (b i : ℕ) :
    Kept m (m.updateBlock b fun block => { block with localFront := i }) := by
  refine ⟨⟨rfl, rfl, rfl, rfl, rfl, fun x _ => ?_⟩, rfl⟩
  by_cases hx : x = b
  · rw [hx, updateBlock_self]
    exact ⟨i, rfl⟩
  · rw [updateBlock_of_ne hx]
    exact ⟨_, rfl⟩

/-- The ring and what `Clear` frees are as before. -/
theorem allFreed (h : Kept m m') (hring : IsRing (fun b => (m.blocks b).next) ring) (hfront : m.frontBlock ∈ ring)
    (hmem : ∀ b, b ∈ ring ↔ b < m.blockCount) : AllFreed m' := by
  obtain ⟨h, hcount⟩ := h
  refine allFreed_of_ring (hring.congr fun b hb => ?_) (h.frontBlock.symm ▸ hfront) (hcount.symm ▸ hmem)
  obtain ⟨i, hi⟩ := h.blocks b ((hmem b).mp hb)
  rw [hi]

end Kept

/-- The element has been made, or the call has come to its end. -/
def ProducerPc.past : ProducerPc V → Bool
  | .idle | .storeTail _ _ _ | .storeNextTail _ _ _ | .loadNewNext _ _ _ | .storeNext _ _ _ | .storeTailBlock _ _
  | .assertFailed => true
  | .loadTailBlock _ _ | .loadTail _ _ _ | .loadFront _ _ _ _ | .construct _ _ _ | .loadNext _ _ _
  | .loadFrontBlock _ _ _ _ | .loadNextBlock _ _ | .loadNextTail _ _ | .loadNextFront _ _ _ | .constructNext _ _ _
  | .makeBlock _ _ => false

namespace Throws

theorem past_eq_false (h : Throws cfg m pc m') : pc.past = false := by
  induction h with
  | @throw m m' pc h =>
      cases pc with
      | construct | constructNext | makeBlock => rfl
      | idle | loadTailBlock | loadTail | loadFront | storeTail | loadNext | loadFrontBlock | loadNextBlock
      | loadNextTail | loadNextFront | storeNextTail | loadNewNext | storeNext | storeTailBlock | assertFailed =>
          exact absurd h nofun
  | @access m m' m'' ppc pc h h' ih =>
      cases ppc with
      | idle | assertFailed => exact absurd h nofun
      | storeTail | storeNextTail | loadNewNext | storeNext | storeTailBlock =>
          cases h
          exact absurd ih nofun
      | loadTailBlock | loadTail | loadFront | construct | loadNext | loadFrontBlock | loadNextBlock | loadNextTail
      | loadNextFront | constructNext | makeBlock => rfl

/-- Where the producer does not come to a constructor it goes on. -/
theorem of_access (h : Throws cfg m ppc m'') (hthrow : throwing cfg m ppc = none)
    (hs : produce cfg m ppc = some (m', pc)) : Throws cfg m'.note pc m'' := by
  cases h with
  | throw h => exact absurd (hthrow.symm.trans h) nofun
  | access h h' =>
      cases hs.symm.trans h
      exact h'

/-- A constructor that does not throw is the last there is. -/
theorem of_throwing (h : Throws cfg m ppc m'') (hs : produce cfg m ppc = some (m', pc)) (hpast : pc.past = true) :
    throwing cfg m ppc = some m'' := by
  cases h with
  | throw h => exact h
  | access h h' =>
      cases hs.symm.trans h
      exact absurd (hpast.symm.trans h'.past_eq_false) nofun

theorem construct (h : Throws cfg m (.construct v b tail) m') : Kept m m' := by
  cases h.of_throwing rfl rfl
  exact .refl m

theorem loadNextFront (h : Throws cfg m (.loadNextFront v b tail) m') : Kept m m' := by
  by_cases heq : (m.blocks b).front = tail
  · have hs : produce cfg m (.loadNextFront v b tail) =
        some (m.updateBlock b fun block => { block with localFront := (m.blocks b).front }, .constructNext v b tail) := by
      simp only [produce, if_pos heq]
    cases (h.of_access rfl hs).of_throwing rfl rfl
    exact (Kept.localFront m b _).trans (.note _)
  · have hs : produce cfg m (.loadNextFront v b tail) =
        some (m.updateBlock b fun block => { block with localFront := (m.blocks b).front }, .assertFailed) := by
      simp only [produce, if_neg heq]
    exact absurd (h.of_access rfl hs).past_eq_false (by rintro ⟨⟩)

theorem loadNextBlock (h : Throws cfg m (.loadNextBlock v b) m') : Kept m m' := by
  cases hnext : (m.blocks b).next with
  | none =>
      cases h with
      | throw h => exact absurd h (by rintro ⟨⟩)
      | access h _ =>
          simp only [produce, hnext, Option.map_none] at h
          exact absurd h (by rintro ⟨⟩)
  | some x =>
      have hs : produce cfg m (.loadNextBlock v b) = some (m, .loadNextTail v x) := by
        simp only [produce, hnext, Option.map_some]
      have hnote := (Kept.note m).trans (.note _)
      exact hnote.trans ((h.of_access rfl hs).of_access rfl rfl).loadNextFront

/-- The tail block is full. -/
theorem loadNext (h : Throws cfg m (.loadNext mode v b) m') :
    (m.blocks b).next ≠ some m.frontBlock ∧ Kept m m' ∨
      (m.blocks b).next = some m.frontBlock ∧ ∃ m₁, Kept m m₁ ∧ m' = (m₁.grow cfg).leaveBlock cfg := by
  have h := h.of_access rfl rfl
  by_cases hnext : (m.blocks b).next = some m.frontBlock
  · refine Or.inr ⟨hnext, ?_⟩
    have hnext' : ¬ (m.blocks b).next ≠ some m.note.frontBlock := not_not.mpr hnext
    cases mode with
    | canAlloc =>
        have hs : produce cfg m.note (.loadFrontBlock .canAlloc v b (m.blocks b).next) =
            some (m.note, .makeBlock v b) := by
          simp only [produce, if_neg hnext']
        exact ⟨_, (Kept.note m).trans (.note _), (Option.some.inj ((h.of_access rfl hs).of_throwing rfl rfl)).symm⟩
    | cannotAlloc =>
        have hs : produce cfg m.note (.loadFrontBlock .cannotAlloc v b (m.blocks b).next) = some (m.note, .idle) := by
          simp only [produce, if_neg hnext']
        exact absurd (h.of_access rfl hs).past_eq_false (by rintro ⟨⟩)
  · have hs : produce cfg m.note (.loadFrontBlock mode v b (m.blocks b).next) = some (m.note, .loadNextBlock v b) := by
      simp only [produce]
      exact if_pos hnext
    exact Or.inl ⟨hnext, ((Kept.note m).trans (.note _)).trans (h.of_access rfl hs).loadNextBlock⟩

/-- **A call that throws** changes nothing, or it has made a block. -/
theorem cases_of_call (h : Throws cfg m (.loadTailBlock mode v) m') :
    ¬ OutOfRoom m ∧ Kept m m' ∨ OutOfRoom m ∧ ∃ m₁, Kept m m₁ ∧ m' = (m₁.grow cfg).leaveBlock cfg := by
  have h := h.of_access rfl rfl
  by_cases hlocal : (m.blocks m.tailBlock).succ (m.blocks m.tailBlock).tail = (m.blocks m.tailBlock).localFront
  · have hs : produce cfg m.note (.loadTail mode v m.tailBlock) =
        some (m.note, .loadFront mode v m.tailBlock (m.blocks m.tailBlock).tail) := by
      simp only [produce]
      exact if_neg (not_not.mpr hlocal)
    have h := h.of_access rfl hs
    have hkept : Kept m (m.note.note.updateBlock m.tailBlock fun block =>
        { block with localFront := (m.blocks m.tailBlock).front }).note :=
      (((Kept.note m).trans (.note _)).trans (.localFront _ _ _)).trans (.note _)
    by_cases hfront : (m.blocks m.tailBlock).succ (m.blocks m.tailBlock).tail = (m.blocks m.tailBlock).front
    · have hs : produce cfg m.note.note (.loadFront mode v m.tailBlock (m.blocks m.tailBlock).tail) =
          some (m.note.note.updateBlock m.tailBlock fun block =>
            { block with localFront := (m.blocks m.tailBlock).front }, .loadNext mode v m.tailBlock) := by
        simp only [produce, updateBlock_self]
        exact if_neg (not_not.mpr hfront)
      have hnext := next_localFront (m := m) m.tailBlock (m.blocks m.tailBlock).front m.tailBlock
      rcases (h.of_access rfl hs).loadNext with ⟨hne, hkept'⟩ | ⟨heq, m₁, hkept', hm'⟩
      · exact Or.inl ⟨fun hout => hne (hnext.trans hout.next), hkept.trans hkept'⟩
      · exact Or.inr ⟨⟨hlocal, hfront, hnext.symm.trans heq⟩, m₁, hkept.trans hkept', hm'⟩
    · have hs : produce cfg m.note.note (.loadFront mode v m.tailBlock (m.blocks m.tailBlock).tail) =
          some (m.note.note.updateBlock m.tailBlock fun block =>
            { block with localFront := (m.blocks m.tailBlock).front },
            .construct v m.tailBlock (m.blocks m.tailBlock).tail) := by
        simp only [produce, updateBlock_self]
        exact if_pos hfront
      exact Or.inl ⟨fun hout => hfront hout.front, hkept.trans (h.of_access rfl hs).construct⟩
  · have hs : produce cfg m.note (.loadTail mode v m.tailBlock) =
        some (m.note, .construct v m.tailBlock (m.blocks m.tailBlock).tail) := by
      simp only [produce]
      exact if_pos hlocal
    exact Or.inl ⟨fun hout => hlocal hout.localFront,
      ((Kept.note m).trans (.note _)).trans (h.of_access rfl hs).construct⟩

end Throws

/-- Between calls of a run without exceptions after a block has been made, a call that throws leaves the queue as it
    is, and all blocks where `Clear` finds them, exactly when the queue was not out of room. -/
theorem throws_iff (h : Reaches (ThrowStep cfg) Contained (State.fresh cfg reservedSize : State V) s)
    (hpc : s.producer = .idle) (hthrows : Throws cfg s.memory (.loadTailBlock mode v) m') :
    Unchanged s.memory m' ∧ AllFreed m' ↔ ¬ OutOfRoom s.memory := by
  obtain ⟨ring, hring⟩ := Ringed.of_reaches h
  have hmem : ∀ b, b ∈ ring ↔ b < s.memory.blockCount := by
    intro b
    rw [hring.mem, hpc]
    exact and_iff_left nofun
  rcases hthrows.cases_of_call with ⟨hroom, hkept⟩ | ⟨hroom, m₁, ⟨hkept, hcount⟩, rfl⟩
  · exact iff_of_true ⟨hkept.1, hkept.allFreed hring.isRing hring.front hmem⟩ hroom
  · refine iff_of_false (fun ⟨_, hfreed⟩ => ?_) (not_not.mpr hroom)
    -- the new block is not in the ring
    have hnext : ∀ b ∈ ring, ((m₁.grow cfg).leaveBlock cfg).blocks b = m₁.blocks b := by
      intro b hb
      exact Function.update_of_ne (hcount ▸ Nat.ne_of_lt ((hmem b).mp hb)) ..
    refine not_allFreed_of_notMem (m := (m₁.grow cfg).leaveBlock cfg) (b := m₁.blockCount) (hring.isRing.congr fun b hb => ?_)
      (show m₁.frontBlock ∈ ring from hkept.frontBlock.symm ▸ hring.front) ?_ (Nat.lt_succ_self _) hfreed
    · obtain ⟨i, hi⟩ := hkept.blocks b ((hmem b).mp hb)
      rw [hnext b hb, hi]
    · rw [hmem, hcount]
      exact Nat.lt_irrefl _

/-- In a queue of one slot a constructor throws, and the next call fills the slot. Then a call that throws has made a
    block. -/
theorem throws_iff_full : ∃ (s : State ℕ) (m' : Memory ℕ),
    Reaches (ThrowStep ⟨8, 1, by decide, by decide⟩) Contained (State.fresh ⟨8, 1, by decide, by decide⟩ 1) s ∧
    s.memory.enqueued = [7] ∧ Throws ⟨8, 1, by decide, by decide⟩ s.memory (.loadTailBlock .canAlloc 8) m' ∧
    ¬ (Unchanged s.memory m' ∧ AllFreed m') := by
  have hfailed : Reaches (ThrowStep ⟨8, 1, by decide, by decide⟩) Contained
      (State.fresh ⟨8, 1, by decide, by decide⟩ 1 : State ℕ) ⟨_, .idle, .idle⟩ :=
    .head (.step (.enqueue .canAlloc 6 rfl)) (by rintro ⟨⟩) <| .head (.step (.produce rfl)) (by rintro ⟨⟩) <|
      .head (.step (.produce rfl)) (by rintro ⟨⟩) <| .head (.throw rfl) (by rintro - v b ⟨⟩) <| .refl _
  have hfull : Reaches (ThrowStep ⟨8, 1, by decide, by decide⟩) Contained
      (State.fresh ⟨8, 1, by decide, by decide⟩ 1 : State ℕ) ⟨_, .idle, .idle⟩ :=
    hfailed.trans <| .head (.step (.enqueue .canAlloc 7 rfl)) (by rintro ⟨⟩) <|
      .head (.step (.produce rfl)) (by rintro ⟨⟩) <| .head (.step (.produce rfl)) (by rintro ⟨⟩) <|
        .head (.step (.produce rfl)) (by rintro ⟨⟩) <| .head (.step (.produce rfl)) (by rintro ⟨⟩) <| .refl _
  obtain ⟨s, hrun, henqueued, hidle, hroom, m', hthrows⟩ : ∃ s : State ℕ,
      Reaches (ThrowStep ⟨8, 1, by decide, by decide⟩) Contained (State.fresh ⟨8, 1, by decide, by decide⟩ 1) s ∧
      s.memory.enqueued = [7] ∧ s.producer = .idle ∧ OutOfRoom s.memory ∧
      ∃ m', Throws ⟨8, 1, by decide, by decide⟩ s.memory (.loadTailBlock .canAlloc 8) m' :=
    ⟨_, hfull, rfl, rfl, ⟨rfl, rfl, rfl⟩, _,
      .access rfl <| .access rfl <| .access rfl <| .access rfl <| .access rfl <| .throw rfl⟩
  exact ⟨s, m', hrun, henqueued, hthrows, fun hkept => (throws_iff hrun hidle hthrows).mp hkept hroom⟩

/-- In a full queue of one slot the new block is never freed. -/
theorem not_throws_unchanged :
    ¬ ∀ (s : State ℕ) (mode : AllocMode) (v : ℕ) (m' : Memory ℕ),
      Reaches (ThrowStep ⟨8, 1, by decide, by decide⟩) (fun _ _ => True) (State.fresh ⟨8, 1, by decide, by decide⟩ 1) s →
      s.producer = .idle → Throws ⟨8, 1, by decide, by decide⟩ s.memory (.loadTailBlock mode v) m' →
      Unchanged s.memory m' ∧ AllFreed m' := by
  intro h
  have hreach : Reaches (ThrowStep ⟨8, 1, by decide, by decide⟩) (fun _ _ => True)
      (State.fresh ⟨8, 1, by decide, by decide⟩ 1 : State ℕ) ⟨_, .idle, .idle⟩ :=
    .head (.step (.enqueue .canAlloc 7 rfl)) trivial <| .head (.step (.produce rfl)) trivial <|
      .head (.step (.produce rfl)) trivial <| .head (.step (.produce rfl)) trivial <|
        .head (.step (.produce rfl)) trivial <| .refl _
  obtain ⟨-, fuel, l, hclear, hperm⟩ := h _ .canAlloc 8 _ hreach rfl
    (.access rfl <| .access rfl <| .access rfl <| .access rfl <| .access rfl <| .throw rfl)
  have hl : l.length = 2 := hperm.length_eq
  cases fuel with
  | zero => exact absurd hclear nofun
  | succ fuel =>
      cases hclear
      exact absurd hl (by decide)

end ReaderWriterQueue

end LockFreeStructures
