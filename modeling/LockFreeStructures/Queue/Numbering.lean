import LockFreeStructures.Common.Utility
import LockFreeStructures.Queue.Block

/-!
# `Queue.Numbering` — elements and blocks by their numbers

The elements are numbered from 0 on in the order they are enqueued. Block number `k` holds the elements from
`k * BlockSize` on, in the block `blk k`. Both queues are described in these terms.
-/

namespace LockFreeStructures

namespace Cfg

variable {cfg : Cfg} {i k K : ℕ}

/-! ## Element numbers as block number and slot -/

theorem pos_div (hi : i < cfg.blockSize) : (k * cfg.blockSize + i) / cfg.blockSize = k := by
  rw [Nat.mul_comm, Nat.mul_add_div cfg.blockSize_pos, Nat.div_eq_of_lt hi, Nat.add_zero]

theorem pos_mod (hi : i < cfg.blockSize) : (k * cfg.blockSize + i) % cfg.blockSize = i := by
  rw [Nat.mul_comm, Nat.mul_add_mod, Nat.mod_eq_of_lt hi]

theorem pos_eq (cfg : Cfg) (n : ℕ) : n / cfg.blockSize * cfg.blockSize + n % cfg.blockSize = n := by
  rw [Nat.mul_comm]
  exact Nat.div_add_mod n _

theorem slot_lt (cfg : Cfg) (n : ℕ) : n % cfg.blockSize < cfg.blockSize := Nat.mod_lt n cfg.blockSize_pos

theorem block_end_le (cfg : Cfg) (h : k < K) : k * cfg.blockSize + cfg.blockSize ≤ K * cfg.blockSize := by
  rw [← Nat.succ_mul]
  exact Nat.mul_le_mul_right _ h

theorem block_lt (cfg : Cfg) {n : ℕ} (h : n < K * cfg.blockSize) : n / cfg.blockSize < K :=
  (Nat.div_lt_iff_lt_mul cfg.blockSize_pos).mpr h

/-- Different positions are different in block number or slot. -/
theorem pos_ne {n : ℕ} (hi : i < cfg.blockSize) (hne : k * cfg.blockSize + i ≠ n) :
    ¬ (k = n / cfg.blockSize ∧ i = n % cfg.blockSize) := by
  rintro ⟨rfl, rfl⟩
  exact hne (cfg.pos_eq n)

end Cfg

variable {α : Type} {cfg : Cfg} {p q i n k k₀ K H : ℕ} {blk : ℕ → ℕ} {c : ℕ → Option α} {l as : List α}

/-! ## Block numbers -/

/-- The block numbers that `T` elements need. -/
def numBlocks (cfg : Cfg) (T : ℕ) : ℕ := (T + cfg.blockSize - 1) / cfg.blockSize

theorem le_numBlocks (cfg : Cfg) (T : ℕ) : T ≤ numBlocks cfg T * cfg.blockSize := by
  have := cfg.pos_eq (T + cfg.blockSize - 1)
  have := cfg.slot_lt (T + cfg.blockSize - 1)
  have := cfg.blockSize_pos
  unfold numBlocks
  omega

theorem numBlocks_eq {T : ℕ} (h₁ : T ≤ K * cfg.blockSize) (h₂ : K * cfg.blockSize < T + cfg.blockSize) :
    numBlocks cfg T = K := by
  have hpos := cfg.blockSize_pos
  unfold numBlocks
  obtain ⟨i, hi, hiB⟩ : ∃ i, T + cfg.blockSize - 1 = K * cfg.blockSize + i ∧ i < cfg.blockSize :=
    ⟨T + cfg.blockSize - 1 - K * cfg.blockSize, by omega, by omega⟩
  rw [hi, Cfg.pos_div hiB]

theorem numBlocks_lt {T : ℕ} (hT : numBlocks cfg T ≠ 0) :
    (numBlocks cfg T - 1) * cfg.blockSize < T := by
  have h1 := cfg.pos_eq (T + cfg.blockSize - 1)
  change numBlocks cfg T * cfg.blockSize + _ = _ at h1
  have h2 : (numBlocks cfg T - 1) * cfg.blockSize + cfg.blockSize = numBlocks cfg T * cfg.blockSize := by
    rw [← Nat.succ_mul, Nat.succ_eq_add_one, Nat.sub_add_cancel (Nat.pos_of_ne_zero hT)]
  have := cfg.blockSize_pos
  omega

theorem numBlocks_mul (K : ℕ) : numBlocks cfg (K * cfg.blockSize) = K :=
  numBlocks_eq (Nat.le_refl _) (Nat.lt_add_of_pos_right cfg.blockSize_pos)

/-- In the middle of a block no further block is needed. -/
theorem numBlocks_of_slot {T : ℕ} (h : T % cfg.blockSize ≠ 0) :
    numBlocks cfg T = T / cfg.blockSize + 1 ∧ numBlocks cfg (T + 1) = T / cfg.blockSize + 1 := by
  have hpos := cfg.pos_eq T
  have hslot := cfg.slot_lt T
  have hmul : (T / cfg.blockSize + 1) * cfg.blockSize = T / cfg.blockSize * cfg.blockSize + cfg.blockSize :=
    Nat.succ_mul _ _
  generalize T / cfg.blockSize = k at hpos hmul ⊢
  exact ⟨numBlocks_eq (by omega) (by omega), numBlocks_eq (by omega) (by omega)⟩

/-- At the start of a block the next element is the first of a new one. -/
theorem numBlocks_of_first {T : ℕ} (h : T % cfg.blockSize = 0) :
    numBlocks cfg T * cfg.blockSize = T ∧ numBlocks cfg (T + 1) = numBlocks cfg T + 1 := by
  have hpos := cfg.pos_eq T
  rw [h, Nat.add_zero] at hpos
  have hsize := cfg.blockSize_pos
  have hmul : (T / cfg.blockSize + 1) * cfg.blockSize = T / cfg.blockSize * cfg.blockSize + cfg.blockSize :=
    Nat.succ_mul _ _
  have hK : numBlocks cfg T = T / cfg.blockSize := numBlocks_eq (by omega) (by omega)
  have hK' : numBlocks cfg (T + 1) = T / cfg.blockSize + 1 := numBlocks_eq (by omega) (by omega)
  rw [hK', hK]
  exact ⟨hpos, rfl⟩

theorem numBlocks_mono {T T' : ℕ} (h : T ≤ T') : numBlocks cfg T ≤ numBlocks cfg T' :=
  Nat.div_le_div_right (by omega)

theorem numBlocks_add (k T : ℕ) : numBlocks cfg (k * cfg.blockSize + T) = k + numBlocks cfg T := by
  unfold numBlocks
  rw [show k * cfg.blockSize + T + cfg.blockSize - 1 = T + cfg.blockSize - 1 + k * cfg.blockSize by
    have := cfg.blockSize_pos; omega, Nat.add_mul_div_right _ _ cfg.blockSize_pos, Nat.add_comm]

theorem numBlocks_succ (T : ℕ) : numBlocks cfg (T + 1) = T / cfg.blockSize + 1 := by
  unfold numBlocks
  rw [show T + 1 + cfg.blockSize - 1 = T + cfg.blockSize by omega, Nat.add_div_right _ cfg.blockSize_pos]

theorem numBlocks_add_one (T : ℕ) :
    numBlocks cfg (T + 1) = numBlocks cfg T + if T % cfg.blockSize = 0 then 1 else 0 := by
  by_cases h : T % cfg.blockSize = 0
  · rw [if_pos h, (numBlocks_of_first h).2]
  · obtain ⟨hT, hT'⟩ := numBlocks_of_slot h
    rw [if_neg h, hT, hT', Nat.add_zero]

@[simp] theorem numBlocks_zero : numBlocks cfg 0 = 0 := by
  unfold numBlocks
  rw [Nat.zero_add]
  exact Nat.div_eq_of_lt (Nat.sub_lt cfg.blockSize_pos Nat.one_pos)

theorem numBlocks_mul_lt (cfg : Cfg) (T : ℕ) : numBlocks cfg T * cfg.blockSize < T + cfg.blockSize := by
  by_cases h0 : numBlocks cfg T = 0
  · have := cfg.blockSize_pos
    rw [h0]
    omega
  · have hlt := numBlocks_lt h0
    obtain ⟨k, hk⟩ := Nat.exists_eq_succ_of_ne_zero h0
    rw [hk, Nat.succ_sub_one] at hlt
    rw [hk, Nat.succ_mul]
    omega

/-- The block numbers after a call that has got what it needs. -/
theorem numBlocks_bounds (cfg : Cfg) (T : ℕ) {m : ℕ} (hm : 0 < m) :
    T / cfg.blockSize < numBlocks cfg (T + m) ∧ (numBlocks cfg (T + m) - 1) * cfg.blockSize < T + m ∧
      T + m ≤ numBlocks cfg (T + m) * cfg.blockSize ∧
      numBlocks cfg (T + m) ≤ T / cfg.blockSize + (m + 1) := by
  have hpos : numBlocks cfg (T + m) ≠ 0 := by
    rw [show T + m = T + m - 1 + 1 by omega, numBlocks_succ]
    exact Nat.succ_ne_zero _
  have hle := le_numBlocks cfg (T + m)
  have hlt := numBlocks_lt hpos
  refine ⟨cfg.block_lt (by omega), hlt, hle, ?_⟩
  have hT := cfg.pos_eq T
  have hslot := cfg.slot_lt T
  have hmB := Nat.le_mul_of_pos_right m cfg.blockSize_pos
  have hlt' : (numBlocks cfg (T + m) - 1) * cfg.blockSize < (T / cfg.blockSize + (m + 1)) * cfg.blockSize := by
    rw [Nat.add_mul, Nat.succ_mul]
    omega
  have := Nat.lt_of_mul_lt_mul_right hlt'
  omega

/-- The blocks that all the elements of the index range would take. -/
theorem two_pow_sub_mul (cfg : Cfg) : 2 ^ (cfg.w - cfg.blockSizeLog2) * cfg.blockSize = 2 ^ cfg.w := by
  rw [Cfg.blockSize, ← Nat.pow_add, Nat.sub_add_cancel cfg.blockSizeLog2_le]

/-- `CurrentTailIndex` of a bulk enqueue starts a block before the first new base. -/
theorem base_of_next (cfg : Cfg) (T : ℕ) :
    Word.add cfg.w (Word.alignDown cfg.blockSizeLog2 (Word.sub cfg.w (T % 2 ^ cfg.w) 1)) cfg.blockSize
      = numBlocks cfg T * cfg.blockSize % 2 ^ cfg.w := by
  rcases Nat.eq_zero_or_pos (T) with h0 | hpos
  · have hW := two_pow_sub_mul cfg
    have hB := cfg.two_le_blockSize
    have hpos : 0 < 2 ^ cfg.w := Word.two_pow_pos
    have hle := Nat.le_of_dvd hpos cfg.blockSize_dvd
    have hones : Word.sub cfg.w 0 1 = 2 ^ cfg.w - cfg.blockSize + (cfg.blockSize - 1) := by
      rw [Word.sub_of_lt Nat.one_pos (by omega)]
      omega
    have hmod : (2 ^ cfg.w - cfg.blockSize + (cfg.blockSize - 1)) % cfg.blockSize = cfg.blockSize - 1 := by
      rw [← hW, ← Nat.sub_one_mul, Cfg.pos_mod (by omega)]
    rw [h0, Nat.zero_mod, hones, Word.alignDown]
    change Word.add cfg.w (_ - _ % cfg.blockSize) _ = _
    rw [hmod, Nat.add_sub_cancel, numBlocks_zero, Nat.zero_mul, Nat.zero_mod, Word.add, Nat.sub_add_cancel hle,
      Nat.mod_self]
  · obtain ⟨T', hT⟩ : ∃ T', T = T' + 1 := ⟨T - 1, by omega⟩
    have hpred : Word.sub cfg.w ((T' + 1) % 2 ^ cfg.w) 1 = T' % 2 ^ cfg.w := by
      refine Word.sub_eq_of_modEq ?_ (Nat.mod_lt _ Word.two_pow_pos)
      rw [Nat.mod_mod, Nat.add_mod_mod, Nat.add_comm]
    rw [hT, hpred, Word.alignDown_mod cfg.blockSizeLog2_le, numBlocks_succ, Word.add_mod_left, Nat.succ_mul]
    rfl

/-! ## Live blocks -/

/-- The blocks of the numbers from `k₀` up to `K`. -/
def liveBlocks (blk : ℕ → ℕ) (k₀ K : ℕ) : List ℕ := (List.range' k₀ (K - k₀)).map blk

theorem mem_liveBlocks : q ∈ liveBlocks blk k₀ K ↔ ∃ k, k₀ ≤ k ∧ k < K ∧ blk k = q := by
  simp only [liveBlocks, List.mem_map, List.mem_range'_1]
  constructor
  · rintro ⟨k, ⟨h1, h2⟩, rfl⟩
    exact ⟨k, h1, by omega, rfl⟩
  · rintro ⟨k, h1, h2, rfl⟩
    exact ⟨k, ⟨h1, by omega⟩, rfl⟩

theorem blk_mem_liveBlocks (h1 : k₀ ≤ k) (h2 : k < K) : blk k ∈ liveBlocks blk k₀ K :=
  mem_liveBlocks.mpr ⟨k, h1, h2, rfl⟩

@[simp] theorem length_liveBlocks : (liveBlocks blk k₀ K).length = K - k₀ := by simp [liveBlocks]

@[simp] theorem liveBlocks_self : liveBlocks blk K K = [] := by simp [liveBlocks]

theorem liveBlocks_congr {blk' : ℕ → ℕ} (h : ∀ k, k₀ ≤ k → k < K → blk' k = blk k) :
    liveBlocks blk' k₀ K = liveBlocks blk k₀ K := by
  refine List.map_congr_left fun k hk => ?_
  rw [List.mem_range'_1] at hk
  exact h k hk.1 (by omega)

/-- The numbers up to `K` and those from `K` on. -/
theorem liveBlocks_append {K' : ℕ} (h : k₀ ≤ K) (h' : K ≤ K') :
    liveBlocks blk k₀ K' = liveBlocks blk k₀ K ++ liveBlocks blk K K' := by
  rw [liveBlocks, liveBlocks, liveBlocks, ← List.map_append]
  congr 1
  rw [show K' - k₀ = (K - k₀) + (K' - K) by omega, ← List.range'_append_1]
  congr 2
  omega

theorem liveBlocks_succ (h : k₀ ≤ K) :
    liveBlocks (Function.update blk K p) k₀ (K + 1) = liveBlocks blk k₀ K ++ [p] := by
  rw [liveBlocks_append h (Nat.le_succ K)]
  congr 1
  · exact liveBlocks_congr fun k _ hk => Function.update_of_ne (Nat.ne_of_lt hk) _ _
  · simp [liveBlocks]

theorem liveBlocks_cons (h : k₀ < K) : liveBlocks blk k₀ K = blk k₀ :: liveBlocks blk (k₀ + 1) K := by
  rw [liveBlocks_append (Nat.le_succ k₀) h]
  simp [liveBlocks]

/-! ## Contents -/

/-- The elements of the list `l` by their numbers, the first being number `H`. -/
def contents (H : ℕ) (l : List α) (n : ℕ) : Option α := if H ≤ n then l[n - H]? else none

theorem contents_append (a : α) :
    contents H (l ++ [a]) = Function.update (contents H l) (H + l.length) (some a) := by
  funext n
  unfold contents
  rcases Nat.lt_trichotomy n (H + l.length) with h | rfl | h
  · rw [Function.update_of_ne h.ne]
    split
    · rw [List.getElem?_append_left (by omega)]
    · rfl
  · rw [Function.update_self, if_pos (Nat.le_add_right _ _), Nat.add_sub_cancel_left,
      List.getElem?_concat_length]
  · rw [Function.update_of_ne h.ne', if_pos (by omega), if_pos (by omega),
      List.getElem?_eq_none (by simp; omega), List.getElem?_eq_none (by omega)]

theorem contents_cons (a : α) :
    contents (H + 1) l = Function.update (contents H (a :: l)) H none := by
  funext n
  unfold contents
  rcases Nat.lt_trichotomy n H with h | rfl | h
  · rw [Function.update_of_ne h.ne, if_neg (by omega), if_neg (by omega)]
  · rw [Function.update_self, if_neg (by omega)]
  · rw [Function.update_of_ne h.ne', if_pos (by omega), if_pos (by omega),
      show n - H = n - (H + 1) + 1 by omega, List.getElem?_cons_succ]

theorem contents_of_lt (h : n < H) : contents H l n = none := if_neg (Nat.not_le.mpr h)

theorem contents_of_ge (h : H + l.length ≤ n) : contents H l n = none := by
  rw [contents, if_pos (by omega), List.getElem?_eq_none (by omega)]

theorem contents_head (a : α) : contents H (a :: l) H = some a := by
  rw [contents, if_pos (Nat.le_refl _), Nat.sub_self, List.getElem?_cons_zero]

/-! ## Runs of element numbers -/

/-- The contents with the elements `as` stored from number `n` on. -/
def store (c : ℕ → Option α) : ℕ → List α → ℕ → Option α
  | _, [] => c
  | n, a :: as => store (Function.update c n (some a)) (n + 1) as

/-- The contents with `m` numbers cleared from `n` on. -/
def clearFrom (c : ℕ → Option α) (n m j : ℕ) : Option α := if n ≤ j ∧ j < n + m then none else c j

/-- An event for each of `m` element numbers from `n` on. -/
def eventsFrom (cfg : Cfg) (blk : ℕ → ℕ) (f : ℕ → ℕ → Event) (n m : ℕ) : List Event :=
  (List.range' n m).map fun j => f (blk (j / cfg.blockSize)) (j % cfg.blockSize)

theorem store_append {n : ℕ} {as' : List α} :
    store c n (as ++ as') = store (store c n as) (n + as.length) as' := by
  induction as generalizing c n with
  | nil => rfl
  | cons a as ih =>
      simp only [List.cons_append, store, ih, List.length_cons]
      rw [show n + 1 + as.length = n + (as.length + 1) by omega]

theorem store_contents : store (contents H l) (H + l.length) as = contents H (l ++ as) := by
  induction as generalizing l with
  | nil => rw [List.append_nil]; rfl
  | cons a as ih =>
      rw [store, ← contents_append, show H + l.length + 1 = H + (l ++ [a]).length by simp; omega, ih,
        List.append_assoc, List.singleton_append]

@[simp] theorem clearFrom_zero : clearFrom c n 0 = c := by
  funext j
  rw [clearFrom, if_neg (by omega)]

theorem clearFrom_clearFrom {m m' : ℕ} :
    clearFrom (clearFrom c n m) (n + m) m' = clearFrom c n (m + m') := by
  funext j
  unfold clearFrom
  by_cases h : n ≤ j ∧ j < n + (m + m')
  · rw [if_pos h]
    split
    · rfl
    · exact if_pos (by omega)
  · rw [if_neg h, if_neg (by omega), if_neg (by omega)]

theorem update_none_eq_clearFrom : Function.update c n none = clearFrom c n 1 := by
  funext j
  unfold clearFrom
  by_cases hj : j = n
  · subst hj
    rw [Function.update_self, if_pos (by omega)]
  · rw [Function.update_of_ne hj, if_neg (by omega)]

/-- Clearing the numbers of the last elements leaves the list without them. -/
theorem clearFrom_contents : clearFrom (contents H (l ++ as)) (H + l.length) as.length = contents H l := by
  funext j
  unfold clearFrom
  split
  · rw [contents_of_ge (by omega)]
  · rcases Nat.lt_or_ge j (H + l.length) with hlt | hge
    · unfold contents
      split
      · rw [List.getElem?_append_left (by omega)]
      · rfl
    · rw [contents_of_ge hge, contents_of_ge (by simp; omega)]

/-- Clearing the numbers of the first elements leaves the list without them. -/
theorem clearFrom_contents_drop {m : ℕ} :
    clearFrom (contents H l) H m = contents (H + m) (l.drop m) := by
  funext j
  unfold clearFrom contents
  rcases Nat.lt_or_ge j H with hlt | hge
  · rw [if_neg (by omega), if_neg (by omega), if_neg (by omega)]
  · rcases Nat.lt_or_ge j (H + m) with hlt' | hge'
    · rw [if_pos ⟨hge, hlt'⟩, if_neg (by omega)]
    · rw [if_neg (by omega), if_pos hge, if_pos hge', List.getElem?_drop,
        show m + (j - (H + m)) = j - H by omega]

theorem eventsFrom_succ (f : ℕ → ℕ → Event) (n m : ℕ) : eventsFrom cfg blk f n (m + 1) =
    f (blk (n / cfg.blockSize)) (n % cfg.blockSize) :: eventsFrom cfg blk f (n + 1) m := rfl

theorem eventsFrom_append (f : ℕ → ℕ → Event) (n m m' : ℕ) :
    eventsFrom cfg blk f n m ++ eventsFrom cfg blk f (n + m) m' = eventsFrom cfg blk f n (m + m') := by
  unfold eventsFrom
  rw [← List.map_append, List.range'_append_1]

/-- The slots of the elements with the numbers from `n` on. -/
def slotsFrom (cfg : Cfg) (blk : ℕ → ℕ) (n m : ℕ) : List (ℕ × ℕ) :=
  (List.range' n m).map fun j => (blk (j / cfg.blockSize), j % cfg.blockSize)

theorem eventsFrom_eq (f : ℕ → ℕ → Event) (n m : ℕ) :
    eventsFrom cfg blk f n m = (slotsFrom cfg blk n m).map fun p => f p.1 p.2 := by
  rw [slotsFrom, List.map_map]
  rfl

/-- Different numbers have different slots. -/
theorem nodup_slotsFrom {k₀ K n m : ℕ} (hinj : ∀ k k', k₀ ≤ k → k < K → k₀ ≤ k' → k' < K → blk k = blk k' → k = k')
    (hk : k₀ ≤ n / cfg.blockSize) (hK : n + m ≤ K * cfg.blockSize) : (slotsFrom cfg blk n m).Nodup := by
  refine List.Nodup.map_on (fun i hi j hj heq => ?_) List.nodup_range'
  rw [List.mem_range'_1] at hi hj
  obtain ⟨hblk, hslot⟩ := Prod.mk.inj heq
  have hdiv := hinj _ _ (hk.trans (Nat.div_le_div_right hi.1)) (cfg.block_lt (by omega))
    (hk.trans (Nat.div_le_div_right hj.1)) (cfg.block_lt (by omega)) hblk
  rw [← cfg.pos_eq i, ← cfg.pos_eq j, hdiv, hslot]

end LockFreeStructures
