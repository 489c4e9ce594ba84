import LockFreeStructures.FastQueue.Layout

/-!
# `FastQueue.Elements` — the loops over slots

Filling, destroying and taking run through the slots of consecutive block numbers along the `Next`
links. Each loop is first reduced to what it does to the element numbers from one to another; the control
flow over blocks appears in the `fillBlocks`, `destroyBlocks` and `takeBlocks` lemmas only.
-/

namespace LockFreeStructures

namespace FastQueue

variable {α : Type} {cfg : Cfg} {s s' s'' : FastQueue α} {p q : ℕ} {blk : ℕ → ℕ} {k k₀ K H n : ℕ}
  {c : ℕ → Option α} {l as : List α}

/-! ## Flags -/

namespace FlagsLayout

theorem congr (h : FlagsLayout cfg s H blk k₀ K)
    (hp : ∀ k, k₀ ≤ k → k < K → (s'.blocks (blk k)).policy = (s.blocks (blk k)).policy) :
    FlagsLayout cfg s' H blk k₀ K :=
  ⟨fun k hk hkK i hi => by rw [hp k hk hkK]; exact h.flag k hk hkK i hi⟩

theorem drop (h : FlagsLayout cfg s H blk k₀ K) {k₁ : ℕ} (hk : k₀ ≤ k₁) : FlagsLayout cfg s H blk k₁ K :=
  ⟨fun k hk₁ hkK => h.flag k (le_trans hk hk₁) hkK⟩

theorem shrink (h : FlagsLayout cfg s H blk k₀ K) {K₀ : ℕ} (hK : K₀ ≤ K) :
    FlagsLayout cfg s H blk k₀ K₀ :=
  ⟨fun k hk hkK => h.flag k hk (lt_of_lt_of_le hkK hK)⟩

/-- A block that was reset takes the next number. -/
theorem push (h : FlagsLayout cfg s H blk k₀ K) (hH : H ≤ K * cfg.blockSize)
    (hp : ∀ k, k₀ ≤ k → k < K → (s'.blocks (blk k)).policy = (s.blocks (blk k)).policy)
    (hreset : ∀ i < cfg.blockSize, (s'.blocks p).policy.flags i = false) :
    FlagsLayout cfg s' H (Function.update blk K p) k₀ (K + 1) := by
  refine ⟨fun k hk hkK i hi => ?_⟩
  rcases Nat.lt_succ_iff_lt_or_eq.mp hkK with hlt | rfl
  · rw [Function.update_of_ne hlt.ne, hp k hk hlt]
    exact h.flag k hk hlt i hi
  · rw [Function.update_self, hreset i hi]
    simp only [Bool.false_eq_true, false_iff]
    omega

/-- The slots of the next `m` elements of a block are marked as empty. -/
theorem consume (h : FlagsLayout cfg s H blk k₀ K) {i m : ℕ} (hpos : k₀ * cfg.blockSize + i = H)
    (him : i + m ≤ cfg.blockSize)
    (hself : (s'.blocks (blk k₀)).policy = (s.blocks (blk k₀)).policy.setSomeEmpty i m)
    (hp : ∀ k, k₀ < k → k < K → (s'.blocks (blk k)).policy = (s.blocks (blk k)).policy) :
    FlagsLayout cfg s' (H + m) blk k₀ K := by
  refine ⟨fun k hk hkK j hj => ?_⟩
  rcases Nat.lt_or_eq_of_le hk with hlt | rfl
  · have hend := cfg.block_end_le hlt
    rw [hp k hlt hkK, h.flag k hk hkK j hj]
    omega
  · have hold := h.flag k₀ hk hkK j hj
    rw [hself, FlagsCheckPolicy.flags_setSomeEmpty]
    split
    · simp only [true_iff]
      omega
    · rw [hold]
      omega

/-- A live block still has a slot in use. -/
theorem not_isEmpty (h : FlagsLayout cfg s H blk k₀ K) (hk : k₀ ≤ k) (hkK : k < K)
    (hH : H < k * cfg.blockSize + cfg.blockSize) : s.blockIsEmpty cfg (blk k) = false := by
  have hpos := cfg.blockSize_pos
  have hlast := h.flag k hk hkK (cfg.blockSize - 1) (by omega)
  rw [blockIsEmpty, ← Bool.not_eq_true, FlagsCheckPolicy.isEmpty_iff]
  intro hall
  have := hlast.mp (hall _ (by omega))
  omega

end FlagsLayout

/-! ## Elements -/

namespace ElementsLayout

theorem congr (h : ElementsLayout cfg s blk k₀ K c)
    (he : ∀ q, (s'.blocks q).elements = (s.blocks q).elements) : ElementsLayout cfg s' blk k₀ K c :=
  ⟨fun k hk hkK i hi => by rw [he]; exact h.live k hk hkK i hi,
    fun q hq i hi => by rw [he]; exact h.raw q hq i hi⟩

/-- Blocks whose slots are all unused are no longer counted as live. -/
theorem drop (h : ElementsLayout cfg s blk k₀ K c) {k₁ : ℕ} (hk : k₀ ≤ k₁)
    (hc : ∀ n < k₁ * cfg.blockSize, c n = none) : ElementsLayout cfg s blk k₁ K c := by
  refine ⟨fun k hk₁ hkK => h.live k (le_trans hk hk₁) hkK, fun q hq i hi => ?_⟩
  by_cases hlive : q ∈ liveBlocks blk k₀ K
  · obtain ⟨k, hk₀, hkK, rfl⟩ := mem_liveBlocks.mp hlive
    have hlt : k < k₁ := Nat.lt_of_not_le fun hle => hq (blk_mem_liveBlocks hle hkK)
    have := cfg.block_end_le hlt
    rw [h.live k hk₀ hkK i hi]
    exact hc _ (by omega)
  · exact h.raw q hlive i hi

/-- Numbers whose slots are all unused are taken back. -/
theorem shrink (h : ElementsLayout cfg s blk k₀ K c) {K₀ : ℕ} (hK : K₀ ≤ K)
    (hc : ∀ n, K₀ * cfg.blockSize ≤ n → c n = none) : ElementsLayout cfg s blk k₀ K₀ c := by
  refine ⟨fun k hk hkK => h.live k hk (lt_of_lt_of_le hkK hK), fun q hq i hi => ?_⟩
  by_cases hlive : q ∈ liveBlocks blk k₀ K
  · obtain ⟨k, hk₀, hkK, rfl⟩ := mem_liveBlocks.mp hlive
    have hge : K₀ ≤ k := Nat.le_of_not_lt fun hlt => hq (blk_mem_liveBlocks hk₀ hlt)
    have := Nat.mul_le_mul_right cfg.blockSize hge
    rw [h.live k hk₀ hkK i hi]
    exact hc _ (by omega)
  · exact h.raw q hlive i hi

/-- A raw block takes the next number. -/
theorem push (h : ElementsLayout cfg s blk k₀ K c) (hk : k₀ ≤ K) (hp : p ∉ liveBlocks blk k₀ K)
    (hc : ∀ n, K * cfg.blockSize ≤ n → c n = none)
    (he : ∀ q, (s'.blocks q).elements = (s.blocks q).elements) :
    ElementsLayout cfg s' (Function.update blk K p) k₀ (K + 1) c := by
  refine ⟨fun k hk' hkK i hi => ?_, fun q hq i hi => ?_⟩
  · rcases Nat.lt_succ_iff_lt_or_eq.mp hkK with hlt | rfl
    · rw [Function.update_of_ne hlt.ne, he]
      exact h.live k hk' hlt i hi
    · rw [Function.update_self, he, hc _ (Nat.le_add_right _ _)]
      exact h.raw p hp i hi
  · rw [liveBlocks_succ hk, List.mem_append] at hq
    rw [he]
    exact h.raw q (fun hmem => hq (Or.inl hmem)) i hi

/-- **One slot.** Changing the slot of element number `n` changes the contents at `n`. -/
theorem update (h : ElementsLayout cfg s blk k₀ K c)
    (hinj : ∀ k k', k₀ ≤ k → k < K → k₀ ≤ k' → k' < K → blk k = blk k' → k = k') (hn : k₀ ≤ n / cfg.blockSize)
    (hnK : n / cfg.blockSize < K) (v : Option α)
    (he : ∀ q j, (s'.blocks q).elements j =
      if q = blk (n / cfg.blockSize) ∧ j = n % cfg.blockSize then v else (s.blocks q).elements j) :
    ElementsLayout cfg s' blk k₀ K (Function.update c n v) := by
  refine ⟨fun k hk hkK i hi => ?_, fun q hq i hi => ?_⟩
  · rw [he]
    by_cases hpos : k * cfg.blockSize + i = n
    · have hkn : n / cfg.blockSize = k := by rw [← hpos]; exact Cfg.pos_div hi
      have hin : n % cfg.blockSize = i := by rw [← hpos]; exact Cfg.pos_mod hi
      rw [hkn, hin, if_pos ⟨rfl, rfl⟩, hpos, Function.update_self]
    · rw [if_neg, Function.update_of_ne hpos, h.live k hk hkK i hi]
      rintro ⟨hb, hj⟩
      exact Cfg.pos_ne hi hpos ⟨hinj _ _ hk hkK hn hnK hb, hj⟩
  · rw [he, if_neg, h.raw q hq i hi]
    rintro ⟨rfl, -⟩
    exact hq (blk_mem_liveBlocks hn hnK)

end ElementsLayout

/-- The queue has changed in the elements of its blocks and the events only. -/
structure ElementsOnly (s s' : FastQueue α) : Prop where
  rest : s' = { s with blocks := s'.blocks, events := s'.events }
  next : ∀ q, (s'.blocks q).next = (s.blocks q).next
  policy : ∀ q, (s'.blocks q).policy = (s.blocks q).policy

namespace ElementsOnly

theorem refl (s : FastQueue α) : ElementsOnly s s := ⟨rfl, fun _ => rfl, fun _ => rfl⟩

theorem trans (h : ElementsOnly s s') (h' : ElementsOnly s' s'') : ElementsOnly s s'' := by
  refine ⟨?_, fun q => (h'.next q).trans (h.next q), fun q => (h'.policy q).trans (h.policy q)⟩
  rw [h'.rest, h.rest]

theorem construct (s : FastQueue α) (p i : ℕ) (a : α) : ElementsOnly s (s.construct p i a) :=
  ⟨rfl, fun _ => next_construct a, fun _ => policy_construct a⟩

end ElementsOnly

/-- An element that is there is taken out of its slot. -/
theorem takeElement_eq {i : ℕ} {a : α} (h : (s.blocks p).elements i = some a) :
    ∃ s', s.takeElement p i = some (a, s') ∧ ElementsOnly s s' ∧
      (∀ q j, (s'.blocks q).elements j = if q = p ∧ j = i then none else (s.blocks q).elements j) ∧
      s'.events = s.events ++ [.destroyed p i] := by
  refine ⟨_, by rw [takeElement, h]; rfl, ⟨rfl, fun q => ?_, fun q => ?_⟩, fun q j => ?_, rfl⟩
  all_goals
    simp only [modifyBlock, Function.update_apply]
    by_cases hq : q = p
    · subst hq
      simp [Function.update_apply]
    · simp [hq]

/-! ## Filling -/

section Loops

variable (hinj : ∀ k k', k₀ ≤ k → k < K → k₀ ≤ k' → k' < K → blk k = blk k' → k = k')

include hinj

/-- The elements that construct go into consecutive slots; the loop goes on with the items behind them. -/
theorem fillBlock_eq (hk : k₀ ≤ k) (hkK : k < K) (as : List α) :
    ∀ {i : ℕ} {s : FastQueue α} {c : ℕ → Option α}, ElementsLayout cfg s blk k₀ K c →
      i + as.length ≤ cfg.blockSize →
      ∃ s', (∀ d rest, s.fillBlock (blk k) i (as.length + d) (as.map some ++ rest)
          = s'.fillBlock (blk k) (i + as.length) d rest) ∧
        ElementsLayout cfg s' blk k₀ K (store c (k * cfg.blockSize + i) as) ∧ ElementsOnly s s' ∧
        s'.events = s.events ++ eventsFrom cfg blk .constructed (k * cfg.blockSize + i) as.length := by
  induction as with
  | nil =>
      intro i s c h _
      exact ⟨s, fun d rest => by simp, h, .refl s, by simp [eventsFrom]⟩
  | cons a as ih =>
      intro i s c h hi
      rw [List.length_cons] at hi
      have hdiv : (k * cfg.blockSize + i) / cfg.blockSize = k := Cfg.pos_div (by omega)
      have hmod : (k * cfg.blockSize + i) % cfg.blockSize = i := Cfg.pos_mod (by omega)
      have hstep : ElementsLayout cfg (s.construct (blk k) i a) blk k₀ K
          (Function.update c (k * cfg.blockSize + i) (some a)) := by
        apply h.update hinj
        · rwa [hdiv]
        · rwa [hdiv]
        · intro q j
          rw [hdiv, hmod]
          exact elements_construct a j
      obtain ⟨s', hfill, hel, honly, hev⟩ := ih (i := i + 1) hstep (by omega)
      refine ⟨s', ?_, ?_, (ElementsOnly.construct s (blk k) i a).trans honly, ?_⟩
      · intro d rest
        rw [List.length_cons, show as.length + 1 + d = (as.length + d) + 1 by omega, List.map_cons,
          List.cons_append, fillBlock, hfill, show i + 1 + as.length = i + (as.length + 1) by omega]
      · exact hel
      · rw [hev, List.length_cons, eventsFrom_succ, hdiv, hmod]
        simp [construct, Nat.add_assoc]

/-- **Filling.** From element number `n` on, the items up to the first whose constructor throws go into
    the slots of their numbers. The loop ends behind the last item, or where the constructor threw. -/
theorem fillBlocks_eq {E : ℕ} (hE : (K - 1) * cfg.blockSize < E) (hEK : E ≤ K * cfg.blockSize) (hK : 0 < K) :
    ∀ {fuel n : ℕ} {as : List α} {rest : List (Option α)} {s : FastQueue α} {c : ℕ → Option α},
      ElementsLayout cfg s blk k₀ K c → s.tailBlock = some (blk (K - 1)) →
      (∀ k, k₀ ≤ k → k + 1 < K → (s.blocks (blk k)).next = some (blk (k + 1))) →
      k₀ ≤ n / cfg.blockSize → n + (as.length + rest.length) = E → n < E → K ≤ n / cfg.blockSize + fuel →
      (∀ i ∈ rest.head?, i = none) →
      ∃ s', ElementsLayout cfg s' blk k₀ K (store c n as) ∧ ElementsOnly s s' ∧
        s'.events = s.events ++ eventsFrom cfg blk .constructed n as.length ∧
        ∃ cur i, s.fillBlocks cfg ((E - 1) % cfg.blockSize) fuel (blk (n / cfg.blockSize)) (n % cfg.blockSize)
            (as.map some ++ rest) = some (if rest = [] then .returned () else .threw, cur, i, s') ∧
          (rest ≠ [] → cur = blk ((n + as.length) / cfg.blockSize) ∧ i = (n + as.length) % cfg.blockSize) := by
  intro fuel
  induction fuel with
  | zero =>
      intro n as rest s c _ _ _ _ _ hnE hfuel _
      have := cfg.block_lt (Nat.lt_of_lt_of_le hnE hEK)
      omega
  | succ fuel ih =>
      intro n as rest s c h htail hlink hn hlen hnE hfuel hrest
      have hnK : n / cfg.blockSize < K := cfg.block_lt (Nat.lt_of_lt_of_le hnE hEK)
      have hpos := cfg.pos_eq n
      have hslot := cfg.slot_lt n
      -- where the constructor of the item behind `as` throws in the current block, the loop ends there
      have hthrow : ∀ d, rest ≠ [] → n % cfg.blockSize + as.length < cfg.blockSize →
          ∃ s', ElementsLayout cfg s' blk k₀ K (store c n as) ∧ ElementsOnly s s' ∧
            s'.events = s.events ++ eventsFrom cfg blk .constructed n as.length ∧
            s.fillBlock (blk (n / cfg.blockSize)) (n % cfg.blockSize) (as.length + (d + 1))
              (as.map some ++ rest) = some ((n + as.length) % cfg.blockSize, .threw, s') ∧
            (n + as.length) / cfg.blockSize = n / cfg.blockSize := by
        intro d hne hlt
        obtain ⟨s', hfill, hel, honly, hev⟩ := fillBlock_eq hinj hn hnK as (i := n % cfg.blockSize) h hlt.le
        rw [hpos] at hel hev
        have hnum : n + as.length = n / cfg.blockSize * cfg.blockSize + (n % cfg.blockSize + as.length) := by
          omega
        refine ⟨s', hel, honly, hev, ?_, by rw [hnum]; exact Cfg.pos_div hlt⟩
        rw [hfill, hnum, Cfg.pos_mod hlt]
        cases rest with
        | nil => exact absurd rfl hne
        | cons o rest =>
            obtain rfl : o = none := hrest o rfl
            rfl
      by_cases hlast : n / cfg.blockSize = K - 1
      · -- the last block: what is left fits into it
        have htail' : s.tailBlock = some (blk (n / cfg.blockSize)) := by rw [hlast]; exact htail
        have hEnum : E - 1 = n / cfg.blockSize * cfg.blockSize + (E - 1 - (K - 1) * cfg.blockSize) := by
          rw [hlast]
          omega
        have hKend : (K - 1) * cfg.blockSize + cfg.blockSize = K * cfg.blockSize := by
          rw [← Nat.succ_mul, Nat.succ_eq_add_one, Nat.sub_add_cancel hK]
        have hEmod : (E - 1) % cfg.blockSize = E - 1 - (K - 1) * cfg.blockSize := by
          rw [hEnum, Cfg.pos_mod (by omega), ← hEnum]
        rw [hlast] at hpos
        have hcount : (E - 1) % cfg.blockSize + 1 - n % cfg.blockSize = as.length + rest.length := by
          rw [hEmod]
          omega
        by_cases hnil : rest = []
        · subst hnil
          obtain ⟨s', hfill, hel, honly, hev⟩ := fillBlock_eq hinj hn hnK as (i := n % cfg.blockSize) h (by
            have hElt := cfg.slot_lt (E - 1)
            simp only [List.length_nil] at hlen
            omega)
          rw [cfg.pos_eq] at hel hev
          have := hfill 0 []
          have htail'' : s'.tailBlock = some (blk (n / cfg.blockSize)) := by rw [honly.rest]; exact htail'
          refine ⟨s', hel, honly, hev, blk (n / cfg.blockSize), n % cfg.blockSize + as.length, ?_,
            fun hne => absurd rfl hne⟩
          simp only [fillBlocks, if_pos htail', hcount, List.length_nil, this, fillBlock, Option.bind_eq_bind,
            Option.bind_some, if_pos htail'', if_pos]
        · have hrestpos : 0 < rest.length := List.length_pos_iff.mpr hnil
          have hElt := cfg.slot_lt (E - 1)
          obtain ⟨s', hel, honly, hev, hfill, hcur⟩ := hthrow (rest.length - 1) hnil (by omega)
          rw [Nat.sub_add_cancel hrestpos] at hfill
          refine ⟨s', hel, honly, hev, blk (n / cfg.blockSize), (n + as.length) % cfg.blockSize, ?_,
            fun _ => ⟨by rw [hcur], rfl⟩⟩
          simp only [fillBlocks, if_pos htail', hcount, hfill, Option.bind_eq_bind, Option.bind_some,
            if_neg hnil]
      · -- a block before the last one is filled to its end
        have hnext := hlink _ hn (by omega)
        have htail' : ¬ s.tailBlock = some (blk (n / cfg.blockSize)) := by
          rw [htail]
          intro heq
          exact hlast (hinj _ _ hn hnK (by omega) (by omega) (Option.some.inj heq).symm)
        have hend := cfg.block_end_le (show n / cfg.blockSize < K - 1 by omega)
        have hsize := cfg.blockSize_pos
        have hcount : cfg.blockSize - 1 + 1 - n % cfg.blockSize = cfg.blockSize - n % cfg.blockSize := by
          omega
        rcases Nat.lt_or_ge as.length (cfg.blockSize - n % cfg.blockSize) with hlt | hge
        · have hnil : rest ≠ [] := by
            rintro rfl
            simp only [List.length_nil] at hlen
            omega
          obtain ⟨s', hel, honly, hev, hfill, hcur⟩ :=
            hthrow (cfg.blockSize - n % cfg.blockSize - as.length - 1) hnil (by omega)
          rw [show as.length + (cfg.blockSize - n % cfg.blockSize - as.length - 1 + 1)
            = cfg.blockSize - n % cfg.blockSize by omega] at hfill
          refine ⟨s', hel, honly, hev, blk (n / cfg.blockSize), (n + as.length) % cfg.blockSize, ?_,
            fun _ => ⟨by rw [hcur], rfl⟩⟩
          simp only [fillBlocks, if_neg htail', hcount, hfill, Option.bind_eq_bind, Option.bind_some,
            if_neg hnil]
        · obtain ⟨as₁, as₂, rfl, hlen₁⟩ : ∃ as₁ as₂, as = as₁ ++ as₂ ∧
              as₁.length = cfg.blockSize - n % cfg.blockSize :=
            ⟨as.take _, as.drop _, (List.take_append_drop _ _).symm, List.length_take_of_le hge⟩
          rw [List.length_append] at hlen
          obtain ⟨s₁, hfill, hel₁, honly₁, hev₁⟩ := fillBlock_eq hinj hn hnK as₁ (i := n % cfg.blockSize) h
            (by omega)
          rw [hpos] at hel₁ hev₁
          have hfull : n + as₁.length = n / cfg.blockSize * cfg.blockSize + cfg.blockSize := by omega
          have hnum : n + as₁.length = (n / cfg.blockSize + 1) * cfg.blockSize + 0 := by
            rw [Nat.succ_mul]
            exact hfull
          have hdiv : (n + as₁.length) / cfg.blockSize = n / cfg.blockSize + 1 := by
            rw [hnum]
            exact Cfg.pos_div hsize
          have hmod : (n + as₁.length) % cfg.blockSize = 0 := by
            rw [hnum]
            exact Cfg.pos_mod hsize
          have htail₁ : s₁.tailBlock = some (blk (K - 1)) := by rw [honly₁.rest]; exact htail
          obtain ⟨s', hel, honly, hev, cur, i, hloop, hcur⟩ := @ih (n + as₁.length) as₂ rest s₁ _ hel₁ htail₁ (fun k hk hkK => by rw [honly₁.next]; exact hlink k hk hkK)
            (by rw [hdiv]; omega) (by omega) (by omega) (by rw [hdiv]; omega) hrest
          rw [hdiv, hmod] at hloop
          have hfill₀ := hfill 0 (as₂.map some ++ rest)
          rw [Nat.add_zero, hlen₁] at hfill₀
          refine ⟨s', ?_, honly₁.trans honly, ?_, cur, i, ?_, ?_⟩
          · rw [store_append]
            exact hel
          · rw [hev, hev₁, List.append_assoc, eventsFrom_append, List.length_append]
          · have htail'' : ¬ s₁.tailBlock = some (blk (n / cfg.blockSize)) := by
              rw [honly₁.rest]
              exact htail'
            rw [List.map_append, List.append_assoc]
            simp only [fillBlocks, if_neg htail', hcount, hfill₀, fillBlock, Option.bind_eq_bind,
              Option.bind_some, if_neg htail'', honly₁.next, hnext, hloop]
          · intro hne
            rw [List.length_append, ← Nat.add_assoc]
            exact hcur hne

/-! ## Taking and destroying -/

/-- The elements of consecutive slots are moved out in order. -/
theorem takeRange_eq (hk : k₀ ≤ k) (hkK : k < K) (as : List α) :
    ∀ {i : ℕ} {s : FastQueue α} {c : ℕ → Option α}, ElementsLayout cfg s blk k₀ K c →
      i + as.length ≤ cfg.blockSize → (∀ j < as.length, c (k * cfg.blockSize + i + j) = as[j]?) →
      ∃ s', s.takeRange (blk k) i as.length = some (as, s') ∧
        ElementsLayout cfg s' blk k₀ K (clearFrom c (k * cfg.blockSize + i) as.length) ∧
        ElementsOnly s s' ∧
        s'.events = s.events ++ eventsFrom cfg blk .destroyed (k * cfg.blockSize + i) as.length := by
  induction as with
  | nil =>
      intro i s c h _ _
      exact ⟨s, rfl, by simpa using h, .refl s, by simp [eventsFrom]⟩
  | cons a as ih =>
      intro i s c h hi hc
      rw [List.length_cons] at hi
      have hdiv : (k * cfg.blockSize + i) / cfg.blockSize = k := Cfg.pos_div (by omega)
      have hmod : (k * cfg.blockSize + i) % cfg.blockSize = i := Cfg.pos_mod (by omega)
      have hhead : (s.blocks (blk k)).elements i = some a := by
        rw [h.live k hk hkK i (by omega)]
        exact hc 0 (by simp)
      obtain ⟨s₁, htake, honly₁, hel₁, hev₁⟩ := takeElement_eq hhead
      have hstep : ElementsLayout cfg s₁ blk k₀ K (Function.update c (k * cfg.blockSize + i) none) := by
        apply h.update hinj
        · rwa [hdiv]
        · rwa [hdiv]
        · intro q j
          rw [hdiv, hmod]
          exact hel₁ q j
      obtain ⟨s', htakes, hel, honly, hev⟩ := ih (i := i + 1) hstep (by omega) (by
        intro j hj
        rw [Function.update_of_ne (by omega)]
        have := hc (j + 1) (by simpa using hj)
        rwa [show k * cfg.blockSize + i + (j + 1) = k * cfg.blockSize + (i + 1) + j by omega] at this)
      refine ⟨s', ?_, ?_, honly₁.trans honly, ?_⟩
      · rw [List.length_cons, takeRange]
        simp only [htake, htakes, Option.bind_eq_bind, Option.bind_some]
      · rw [List.length_cons, Nat.add_comm as.length, ← clearFrom_clearFrom, ← update_none_eq_clearFrom]
        exact hel
      · rw [hev, hev₁, List.length_cons, eventsFrom_succ, hdiv, hmod]
        simp [Nat.add_assoc]

omit hinj in
theorem destroyRange_eq_takeRange (p : ℕ) (m : ℕ) :
    ∀ (i : ℕ) (s : FastQueue α), s.destroyRange p i m = (s.takeRange p i m).map Prod.snd := by
  induction m with
  | zero => intro i s; rfl
  | succ m ih =>
      intro i s
      simp only [destroyRange, takeRange, destroy, ih]
      cases s.takeElement p i with
      | none => rfl
      | some r =>
          simp only [Option.map_some, Option.bind_eq_bind, Option.bind_some]
          cases takeRange p (i + 1) m r.2 <;> rfl

/-- Consecutive slots that all hold an element are destroyed. -/
theorem destroyRange_eq (h : ElementsLayout cfg s blk k₀ K c) (hk : k₀ ≤ k) (hkK : k < K) {i m : ℕ}
    (him : i + m ≤ cfg.blockSize) (hc : ∀ j < m, c (k * cfg.blockSize + i + j) ≠ none) :
    ∃ s', s.destroyRange (blk k) i m = some s' ∧
      ElementsLayout cfg s' blk k₀ K (clearFrom c (k * cfg.blockSize + i) m) ∧ ElementsOnly s s' ∧
      s'.events = s.events ++ eventsFrom cfg blk .destroyed (k * cfg.blockSize + i) m := by
  obtain ⟨as, rfl, hget⟩ : ∃ as : List α, as.length = m ∧
      ∀ j < m, c (k * cfg.blockSize + i + j) = as[j]? := by
    refine ⟨List.ofFn fun j : Fin m => (c (k * cfg.blockSize + i + j)).get
      (Option.isSome_iff_ne_none.mpr (hc j j.isLt)), by simp, fun j hj => ?_⟩
    rw [List.getElem?_eq_getElem (by simpa using hj)]
    simp
  obtain ⟨s', htake, hrest⟩ := takeRange_eq hinj hk hkK as h him hget
  exact ⟨s', by rw [destroyRange_eq_takeRange, htake]; rfl, hrest⟩

/-- **Destroying.** The elements with the numbers from `n` up to `e` are destroyed, block by block along
    the links. -/
theorem destroyBlocks_eq {e : ℕ} (heK : e / cfg.blockSize < K) :
    ∀ (fuel : ℕ) {n : ℕ} {s : FastQueue α} {c : ℕ → Option α}, ElementsLayout cfg s blk k₀ K c →
      (∀ k, k₀ ≤ k → k + 1 < K → (s.blocks (blk k)).next = some (blk (k + 1))) →
      k₀ ≤ n / cfg.blockSize → n ≤ e → e / cfg.blockSize < n / cfg.blockSize + fuel →
      (∀ j, n ≤ j → j < e → c j ≠ none) →
      ∃ s', s.destroyBlocks cfg (blk (e / cfg.blockSize)) (e % cfg.blockSize) fuel
          (blk (n / cfg.blockSize)) (n % cfg.blockSize) = some s' ∧
        ElementsLayout cfg s' blk k₀ K (clearFrom c n (e - n)) ∧ ElementsOnly s s' ∧
        s'.events = s.events ++ eventsFrom cfg blk .destroyed n (e - n) := by
  intro fuel
  induction fuel with
  | zero =>
      intro n s c _ _ _ hne hfuel _
      have := Nat.div_le_div_right (c := cfg.blockSize) hne
      omega
  | succ fuel ih =>
      intro n s c h hlink hn hne hfuel hc
      have hle : n / cfg.blockSize ≤ e / cfg.blockSize := Nat.div_le_div_right hne
      have hpos := cfg.pos_eq n
      have hepos := cfg.pos_eq e
      have hslot := cfg.slot_lt n
      have heslot := cfg.slot_lt e
      by_cases hlast : n / cfg.blockSize = e / cfg.blockSize
      · rw [← hlast] at hepos
        obtain ⟨s', hdestroy, hel, honly, hev⟩ := destroyRange_eq (i := n % cfg.blockSize)
          (m := e % cfg.blockSize - n % cfg.blockSize) hinj h hn (lt_of_le_of_lt hle heK) (by omega)
          (fun j hj => by rw [hpos]; exact hc _ (by omega) (by omega))
        rw [hpos, show e % cfg.blockSize - n % cfg.blockSize = e - n by omega] at hel hev
        refine ⟨s', ?_, hel, honly, hev⟩
        simp only [destroyBlocks, hlast, if_pos, hlast ▸ hdestroy, Option.bind_eq_bind, Option.bind_some]
      · have hlt : n / cfg.blockSize < e / cfg.blockSize := lt_of_le_of_ne hle hlast
        have hend := cfg.block_end_le hlt
        have hne' : ¬ blk (n / cfg.blockSize) = blk (e / cfg.blockSize) := fun heq =>
          hlast (hinj _ _ hn (lt_trans hlt heK) (le_trans hn hle) heK heq)
        obtain ⟨s₁, hdestroy, hel₁, honly₁, hev₁⟩ := destroyRange_eq (i := n % cfg.blockSize)
          (m := cfg.blockSize - n % cfg.blockSize) hinj h hn (lt_trans hlt heK) (by omega)
          (fun j hj => by rw [hpos]; exact hc _ (by omega) (by omega))
        rw [hpos] at hel₁ hev₁
        generalize hm : cfg.blockSize - n % cfg.blockSize = m at hdestroy hel₁ hev₁
        have hnum : n + m = (n / cfg.blockSize + 1) * cfg.blockSize + 0 := by
          rw [Nat.succ_mul]
          omega
        have hdiv : (n + m) / cfg.blockSize = n / cfg.blockSize + 1 := by
          rw [hnum]
          exact Cfg.pos_div cfg.blockSize_pos
        have hmod : (n + m) % cfg.blockSize = 0 := by
          rw [hnum]
          exact Cfg.pos_mod cfg.blockSize_pos
        have hnme : n + m ≤ e := by omega
        obtain ⟨s', hloop, hel, honly, hev⟩ := ih (n := n + m) hel₁
          (fun k hk hkK => by rw [honly₁.next]; exact hlink k hk hkK) (by rw [hdiv]; omega) hnme
          (by rw [hdiv]; omega) (fun j hj hje => by
            rw [clearFrom, if_neg (by omega)]
            exact hc j (by omega) hje)
        rw [hdiv, hmod] at hloop
        refine ⟨s', ?_, ?_, honly₁.trans honly, ?_⟩
        · simp only [destroyBlocks, if_neg hne', hm, hdestroy, Option.bind_eq_bind, Option.bind_some,
            honly₁.next, hlink _ hn (show n / cfg.blockSize + 1 < K by omega), hloop]
        · rwa [clearFrom_clearFrom, show m + (e - (n + m)) = e - n by omega] at hel
        · rw [hev, hev₁, List.append_assoc, eventsFrom_append, show m + (e - (n + m)) = e - n by omega]

end Loops

end FastQueue

end LockFreeStructures
