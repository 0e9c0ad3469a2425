import CorgiCoin.Difficulty
import Mathlib.Data.Rat.Floor
import Mathlib.Data.List.Forall2

/-!
# The weighted retarget

`CalculateNextWorkRequiredLWMA` scales the average target of a window by the weighted sum of its
solve times, which lie between one and six times the spacing whatever the timestamps are.  So the
target stays near the average, it is kept where blocks come in time, and it is monotone in the time
of the newest header and in the targets.
-/

namespace CorgiCoin

/-! ## The target before it is encoded -/

/-- The sum of the weights `i, i + 1, …` of so many headers. -/
def weights : ℤ → ℕ → ℤ
  | _, 0 => 0
  | i, n + 1 => i + weights (i + 1) n

/-- `bnNew` for a window, oldest header first, before it is cut at the limit. -/
def lwmaQuotient (oldest : CBlockIndex) (window : List CBlockIndex) : ℤ :=
  let n : ℤ := LWMA_WINDOW
  let k := n * (n + 1) / 2 * nTargetSpacing
  let sums := lwmaSums 1 oldest.getBlockTime window
  (sums.2 * sums.1).tdiv (n * k)

/-- The target `CalculateNextWorkRequiredLWMA` computes from a whole window, before it is encoded. -/
def lwmaTarget (network : Network) (pindexLast : CBlockIndex) : ℤ :=
  let bnProofOfWorkLimit := network.bnProofOfWorkLimit
  match (pindexLast.chain.take (LWMA_WINDOW + 1)).reverse with
  | [] => bnProofOfWorkLimit
  | oldest :: window =>
    let bnNew := lwmaQuotient oldest window
    if bnNew > bnProofOfWorkLimit then bnProofOfWorkLimit else bnNew

variable {pindexLast : CBlockIndex}

theorem calculateNextWorkRequiredLWMA_eq
    {network : Network} (h : LWMA_WINDOW ≤ pindexLast.nHeight) :
  calculateNextWorkRequiredLWMA network pindexLast = getCompact (lwmaTarget network pindexLast)
  := by
  rw [calculateNextWorkRequiredLWMA, lwmaTarget, if_neg (Nat.not_lt.mpr h)]
  generalize (pindexLast.chain.take (LWMA_WINDOW + 1)).reverse = window
  cases window with
  | nil => rfl
  | cons oldest window =>
    simp only [lwmaQuotient]
    congr

/-- A whole window: the newest header, those between, and the oldest one. -/
theorem exists_window (h : LWMA_WINDOW ≤ pindexLast.nHeight) :
  ∃ newest rest oldest, pindexLast.chain.take (LWMA_WINDOW + 1) = newest :: (rest ++ [oldest])
    ∧ rest.length + 1 = LWMA_WINDOW
  := by
  have hlength := length_lwmaWindow h
  match hwindow : pindexLast.chain.take (LWMA_WINDOW + 1) with
  | [] =>
    rw [hwindow] at hlength
    cases hlength
  | newest :: tail =>
    rw [hwindow, List.length_cons, Nat.add_right_cancel_iff] at hlength
    have hne : tail ≠ [] := List.ne_nil_of_length_pos (by rw [hlength]; decide)
    refine ⟨newest, tail.dropLast, tail.getLast hne, ?_, ?_⟩
    · rw [List.dropLast_append_getLast hne]
    · rw [List.length_dropLast, hlength]
      rfl

theorem lwmaTarget_of_window
    {network : Network} {pindexLast newest oldest : CBlockIndex} {rest : List CBlockIndex}
    (h : pindexLast.chain.take (LWMA_WINDOW + 1) = newest :: (rest ++ [oldest])) :
  lwmaTarget network pindexLast
    = min (lwmaQuotient oldest (rest.reverse ++ [newest])) network.bnProofOfWorkLimit
  := by
  have hreverse : (pindexLast.chain.take (LWMA_WINDOW + 1)).reverse
      = oldest :: (rest.reverse ++ [newest]) := by
    rw [h, List.reverse_cons, List.reverse_append]
    rfl
  rw [lwmaTarget, hreverse]
  simp only
  split_ifs with hgt
  · rw [min_eq_right hgt.le]
  · rw [min_eq_left (not_lt.mp hgt)]

/-! ## Bounds -/

/-- The weights of the window add up to the factor of `k`. -/
theorem weights_window : weights 1 LWMA_WINDOW = (LWMA_WINDOW : ℤ) * (LWMA_WINDOW + 1) / 2 := by
  decide +kernel

/-- The sum of the targets of a window. -/
def sumTargets (window : List CBlockIndex) : ℤ :=
  (window.map (fun pindex => setCompact pindex.entry.nBits)).sum

theorem snd_lwmaSums (i nPrevTime : ℤ) (window : List CBlockIndex) :
  (lwmaSums i nPrevTime window).2 = sumTargets window
  := by
  induction window generalizing i nPrevTime with
  | nil => rfl
  | cons pindex window ih =>
    rw [lwmaSums, sumTargets, List.map_cons, List.sum_cons]
    simp only [ih]
    rfl

/-- Every solve time is counted as at least a second and at most six times the spacing. -/
theorem fst_lwmaSums_bounds {i : ℤ} (hi : 0 ≤ i) (nPrevTime : ℤ) (window : List CBlockIndex) :
  weights i window.length ≤ (lwmaSums i nPrevTime window).1
    ∧ (lwmaSums i nPrevTime window).1 ≤ 6 * nTargetSpacing * weights i window.length
  := by
  induction window generalizing i nPrevTime with
  | nil => exact ⟨le_rfl, le_rfl⟩
  | cons pindex window ih =>
    obtain ⟨hlow, hhigh⟩ := @ih (i + 1) (by omega) (max pindex.getBlockTime (nPrevTime + 1))
    set nSolvetime := min (max pindex.getBlockTime (nPrevTime + 1) - nPrevTime)
      (6 * nTargetSpacing) with hsolve
    have hone : 1 ≤ nSolvetime := by
      rw [hsolve, nTargetSpacing]
      omega
    have hsix : nSolvetime ≤ 6 * nTargetSpacing := min_le_right _ _
    have hleast : 1 * i ≤ nSolvetime * i := Int.mul_le_mul_of_nonneg_right hone hi
    have hmost : nSolvetime * i ≤ 6 * nTargetSpacing * i := Int.mul_le_mul_of_nonneg_right hsix hi
    have hsum : (lwmaSums i nPrevTime (pindex :: window)).1 = nSolvetime * i
        + (lwmaSums (i + 1) (max pindex.getBlockTime (nPrevTime + 1)) window).1 := rfl
    rw [hsum, List.length_cons, weights, mul_add]
    constructor
    · omega
    · omega

variable {window : List CBlockIndex}

theorem sumTargets_bounds
    {bnProofOfWorkLimit : ℤ}
    (h : ∀ pindex ∈ window, 1 ≤ setCompact pindex.entry.nBits
      ∧ setCompact pindex.entry.nBits ≤ bnProofOfWorkLimit) :
  0 ≤ sumTargets window ∧ sumTargets window ≤ window.length * bnProofOfWorkLimit
  := by
  induction window with
  | nil => simp [sumTargets]
  | cons pindex window ih =>
    obtain ⟨hfirst, hrest⟩ := List.forall_mem_cons.mp h
    obtain ⟨hlow, hhigh⟩ := ih hrest
    rw [sumTargets, List.map_cons, List.sum_cons, List.length_cons]
    rw [sumTargets] at hlow hhigh
    push_cast
    constructor
    · omega
    · linarith [hfirst.2]

/-- The target lies between a sixtieth of the average and six times the average. -/
theorem lwmaQuotient_bounds
    {oldest : CBlockIndex} {window : List CBlockIndex} (hlength : window.length = LWMA_WINDOW)
    (hnonneg : 0 ≤ sumTargets window) :
  sumTargets window / (LWMA_WINDOW * nTargetSpacing) ≤ lwmaQuotient oldest window
    ∧ lwmaQuotient oldest window * LWMA_WINDOW ≤ 6 * sumTargets window
  := by
  obtain ⟨hlow, hhigh⟩ :=
    fst_lwmaSums_bounds (show (0 : ℤ) ≤ 1 by decide) oldest.getBlockTime window
  rw [hlength, weights_window] at hlow hhigh
  rw [lwmaQuotient, snd_lwmaSums]
  simp only [LWMA_WINDOW, nTargetSpacing] at hlow hhigh ⊢
  norm_num at hlow hhigh ⊢
  set nSum := (lwmaSums 1 oldest.getBlockTime window).1
  have hleast : sumTargets window * 4095 ≤ sumTargets window * nSum :=
    Int.mul_le_mul_of_nonneg_left hlow hnonneg
  have hmost : sumTargets window * nSum ≤ sumTargets window * 1474200 :=
    Int.mul_le_mul_of_nonneg_left hhigh hnonneg
  rw [Int.tdiv_eq_ediv_of_nonneg (by omega)]
  constructor
  · omega
  · omega

/-! ## Equilibrium -/

/-- A header is the spacing later than the one before it. -/
def Spaced (earlier later : CBlockIndex) : Prop :=
  later.getBlockTime = earlier.getBlockTime + nTargetSpacing

instance (earlier later : CBlockIndex) : Decidable (Spaced earlier later) :=
  inferInstanceAs (Decidable (_ = _))

variable {oldest : CBlockIndex}

/-- Blocks that come in time are counted with the spacing each. -/
theorem fst_lwmaSums_of_spaced
    (h : (oldest :: window).IsChain Spaced) (i : ℤ) :
  (lwmaSums i oldest.getBlockTime window).1 = nTargetSpacing * weights i window.length
  := by
  induction window generalizing oldest i with
  | nil => rfl
  | cons pindex window ih =>
    obtain ⟨hspaced, hrest⟩ := List.isChain_cons_cons.mp h
    have hspacing : pindex.getBlockTime = oldest.getBlockTime + nTargetSpacing := hspaced
    have hthis : max pindex.getBlockTime (oldest.getBlockTime + 1) = pindex.getBlockTime := by
      apply max_eq_left
      rw [hspacing, nTargetSpacing]
      omega
    have hsolve : min (pindex.getBlockTime - oldest.getBlockTime) (6 * nTargetSpacing)
        = nTargetSpacing := by
      rw [hspacing, nTargetSpacing]
      omega
    have hsum : (lwmaSums i oldest.getBlockTime (pindex :: window)).1
        = min (max pindex.getBlockTime (oldest.getBlockTime + 1) - oldest.getBlockTime)
            (6 * nTargetSpacing) * i
          + (lwmaSums (i + 1) (max pindex.getBlockTime (oldest.getBlockTime + 1)) window).1 := rfl
    rw [hsum, hthis, hsolve, ih hrest, List.length_cons, weights, mul_add]

theorem sumTargets_of_const
    {nBits : UInt32} {window : List CBlockIndex} (h : ∀ pindex ∈ window, pindex.entry.nBits = nBits) :
  sumTargets window = window.length * setCompact nBits
  := by
  induction window with
  | nil => simp [sumTargets]
  | cons pindex window ih =>
    obtain ⟨hfirst, hrest⟩ := List.forall_mem_cons.mp h
    have hsum := ih hrest
    rw [sumTargets] at hsum
    rw [sumTargets, List.map_cons, List.sum_cons, hsum, hfirst, List.length_cons]
    push_cast
    ring

/-- The division is exact on blocks that come in time with one target. -/
theorem lwmaQuotient_of_steady
    {nBits : UInt32}
    (hlength : window.length = LWMA_WINDOW) (hspaced : (oldest :: window).IsChain Spaced)
    (hbits : ∀ pindex ∈ window, pindex.entry.nBits = nBits) :
  lwmaQuotient oldest window = setCompact nBits
  := by
  rw [lwmaQuotient, snd_lwmaSums, sumTargets_of_const hbits]
  simp only [fst_lwmaSums_of_spaced hspaced, hlength, weights_window]
  have hproduct : (LWMA_WINDOW : ℤ) * setCompact nBits
      * (nTargetSpacing * (LWMA_WINDOW * (LWMA_WINDOW + 1) / 2))
      = setCompact nBits
        * (LWMA_WINDOW * (LWMA_WINDOW * (LWMA_WINDOW + 1) / 2 * nTargetSpacing)) := by
    ring
  rw [hproduct, Int.mul_tdiv_cancel _ (by decide)]

/-- The average target of the window of the next block. -/
def averageTarget (pindexLast : CBlockIndex) : ℚ :=
  sumTargets (pindexLast.chain.take LWMA_WINDOW) / LWMA_WINDOW

variable {newest : CBlockIndex}

theorem sumTargets_window
    {rest : List CBlockIndex}
    (h : pindexLast.chain.take (LWMA_WINDOW + 1) = newest :: (rest ++ [oldest]))
    (hlength : rest.length + 1 = LWMA_WINDOW) :
  pindexLast.chain.take LWMA_WINDOW = newest :: rest
    ∧ sumTargets (rest.reverse ++ [newest]) = sumTargets (pindexLast.chain.take LWMA_WINDOW)
  := by
  have htake : pindexLast.chain.take LWMA_WINDOW = newest :: rest := by
    have htake := congrArg (List.take LWMA_WINDOW) h
    rw [List.take_take, min_eq_left (Nat.le_succ _), ← List.cons_append,
      List.take_left' (by rw [List.length_cons, hlength])] at htake
    exact htake
  refine ⟨htake, ?_⟩
  rw [htake, ← List.reverse_cons, sumTargets, sumTargets, List.map_reverse, List.sum_reverse]

/-- On every chain with a whole window the target is close to the average, whatever the times of the
headers are, and a chain that is in equilibrium stays there. -/
theorem lwma_bounds_and_equilibrium
    {network : Network} {pindexLast : CBlockIndex} (hheight : LWMA_WINDOW ≤ pindexLast.nHeight) :
  ((∀ pindex ∈ pindexLast.chain, 1 ≤ setCompact pindex.entry.nBits
      ∧ setCompact pindex.entry.nBits ≤ network.bnProofOfWorkLimit) →
    calculateNextWorkRequiredLWMA network pindexLast = getCompact (lwmaTarget network pindexLast)
      ∧ ⌊averageTarget pindexLast / 60⌋ ≤ lwmaTarget network pindexLast
      ∧ (lwmaTarget network pindexLast : ℚ)
        ≤ min (6 * averageTarget pindexLast) network.bnProofOfWorkLimit)
  ∧ ∀ nBits, getCompact (setCompact nBits) = nBits → setCompact nBits ≤ network.bnProofOfWorkLimit →
    (∀ pindex ∈ pindexLast.chain.take (LWMA_WINDOW + 1), pindex.entry.nBits = nBits) →
    (pindexLast.chain.take (LWMA_WINDOW + 1)).reverse.IsChain Spaced →
    calculateNextWorkRequiredLWMA network pindexLast = nBits
  := by
  obtain ⟨newest, rest, oldest, hwindow, hlength⟩ := exists_window hheight
  obtain ⟨htake, hsum⟩ := sumTargets_window hwindow hlength
  have hlength' : (rest.reverse ++ [newest]).length = LWMA_WINDOW := by
    rw [List.length_append, List.length_reverse, ← hlength]
    rfl
  have htarget := @lwmaTarget_of_window network _ _ _ _ hwindow
  constructor
  · intro htargets
    have hall : ∀ pindex ∈ pindexLast.chain.take LWMA_WINDOW, 1 ≤ setCompact pindex.entry.nBits
        ∧ setCompact pindex.entry.nBits ≤ network.bnProofOfWorkLimit :=
      fun pindex hmem => htargets pindex (List.mem_of_mem_take hmem)
    obtain ⟨hnonneg, hlimit⟩ := sumTargets_bounds hall
    have hbounds := @lwmaQuotient_bounds oldest (rest.reverse ++ [newest]) hlength' (hsum ▸ hnonneg)
    rw [htake, List.length_cons, hlength, ← htake] at hlimit
    rw [hsum] at hbounds
    obtain ⟨hlow, hhigh⟩ := hbounds
    rw [htarget]
    refine ⟨htarget ▸ calculateNextWorkRequiredLWMA_eq hheight, ?_, ?_⟩
    · have hfloor : ⌊averageTarget pindexLast / 60⌋
          = sumTargets (pindexLast.chain.take LWMA_WINDOW) / (LWMA_WINDOW * nTargetSpacing) := by
        have hquotient := Rat.floor_intCast_div_natCast
          (sumTargets (pindexLast.chain.take LWMA_WINDOW)) 5400
        rw [averageTarget, div_div]
        have hfactor : ((LWMA_WINDOW : ℕ) : ℚ) * 60 = ((5400 : ℕ) : ℚ) := by
          norm_num [LWMA_WINDOW]
        rw [hfactor, hquotient]
        rfl
      rw [hfloor]
      apply le_min hlow
      simp only [LWMA_WINDOW, nTargetSpacing] at hlimit ⊢
      obtain ⟨hleast, -⟩ := bnProofOfWorkLimit_bounds network
      omega
    · rw [Int.cast_min]
      apply le_min
      · apply (min_le_left _ _).trans
        have hhigh' : (lwmaQuotient oldest (rest.reverse ++ [newest]) : ℚ) * LWMA_WINDOW
            ≤ 6 * sumTargets (pindexLast.chain.take LWMA_WINDOW) := by
          exact_mod_cast hhigh
        have hpos : (0 : ℚ) < LWMA_WINDOW := by
          norm_num [LWMA_WINDOW]
        rw [averageTarget, ← mul_div_assoc]
        exact (le_div_iff₀ hpos).mpr hhigh'
      · exact min_le_right _ _
  · intro nBits hcanonical hlimit hbits hspaced
    have hreverse : (pindexLast.chain.take (LWMA_WINDOW + 1)).reverse
        = oldest :: (rest.reverse ++ [newest]) := by
      rw [hwindow, List.reverse_cons, List.reverse_append]
      rfl
    rw [hreverse] at hspaced
    have hbits' : ∀ pindex ∈ rest.reverse ++ [newest], pindex.entry.nBits = nBits := by
      intro pindex hmem
      apply hbits
      rw [← List.mem_reverse, hreverse]
      exact List.mem_cons_of_mem _ hmem
    rw [calculateNextWorkRequiredLWMA_eq hheight, htarget,
      lwmaQuotient_of_steady hlength' hspaced hbits', min_eq_left hlimit, hcanonical]

/-- A row of blocks a minute apart, all at one target. -/
def steadyRow (nBits : UInt32) : ℕ → CBlockIndex
  | 0 => .first ⟨0, BlockPos.first, 1, 0, 1774996802, nBits, 0⟩
  | n + 1 =>
    .next ⟨BitVec.ofNat 256 (n + 1), BlockPos.first, 1, 0,
      UInt32.ofNat (1774996862 + 60 * n), nBits, 0⟩ (steadyRow nBits n)

/-- A row of blocks a minute apart keeps its target. -/
theorem steadyRow_keeps_target :
  calculateNextWorkRequiredLWMA .main (steadyRow 0x1e0ffff0 LWMA_WINDOW) = 0x1e0ffff0
    ∧ ⌊averageTarget (steadyRow 0x1e0ffff0 LWMA_WINDOW) / 60⌋
      ≤ lwmaTarget .main (steadyRow 0x1e0ffff0 LWMA_WINDOW)
  := by
  have hheight : LWMA_WINDOW ≤ (steadyRow 0x1e0ffff0 LWMA_WINDOW).nHeight := by
    decide
  obtain ⟨hbounds, hsteady⟩ := @lwma_bounds_and_equilibrium .main _ hheight
  constructor
  · apply hsteady
    · decide
    · decide
    · decide
    · decide +kernel
  · exact (hbounds (by decide +kernel)).2.1

/-! ## Monotonicity -/

/-- Two headers of one time, the second with a target that is no smaller. -/
def Easier (pindex pindex' : CBlockIndex) : Prop :=
  pindex.getBlockTime = pindex'.getBlockTime
    ∧ setCompact pindex.entry.nBits ≤ setCompact pindex'.entry.nBits

/-- Two windows, newest header first, that differ in the time of the newest header only, which is
no earlier in the second. -/
def LaterNewest : List CBlockIndex → List CBlockIndex → Prop
  | newest :: rest, newest' :: rest' =>
    newest.getBlockTime ≤ newest'.getBlockTime ∧ newest.entry.nBits = newest'.entry.nBits
      ∧ List.Forall₂ (fun pindex pindex' => pindex.getBlockTime = pindex'.getBlockTime
          ∧ pindex.entry.nBits = pindex'.entry.nBits) rest rest'
  | _, _ => False

variable {window' : List CBlockIndex}

/-- A later newest header, after headers of the same times, makes the weighted sum no smaller. -/
theorem fst_lwmaSums_mono
    {newest' : CBlockIndex} (h : List.Forall₂ Easier window window')
    (hnewest : newest.getBlockTime ≤ newest'.getBlockTime) {i : ℤ} (hi : 0 ≤ i) (nPrevTime : ℤ) :
  (lwmaSums i nPrevTime (window ++ [newest])).1 ≤ (lwmaSums i nPrevTime (window' ++ [newest'])).1
  := by
  induction h generalizing i nPrevTime with
  | nil =>
    have hlast : ∀ pindex : CBlockIndex, (lwmaSums i nPrevTime ([] ++ [pindex])).1
        = min (max pindex.getBlockTime (nPrevTime + 1) - nPrevTime) (6 * nTargetSpacing) * i :=
      fun pindex => Int.add_zero _
    rw [hlast, hlast]
    apply Int.mul_le_mul_of_nonneg_right _ hi
    omega
  | cons hfirst _ ih =>
    rw [List.cons_append, List.cons_append, lwmaSums, lwmaSums, hfirst.1]
    exact Int.add_le_add_left (ih (by omega) _) _

theorem sumTargets_mono (h : List.Forall₂ Easier window window') :
  sumTargets window ≤ sumTargets window'
  := by
  induction h with
  | nil => exact le_rfl
  | cons hfirst _ ih =>
    rw [sumTargets] at ih ⊢
    rw [sumTargets, List.map_cons, List.map_cons, List.sum_cons, List.sum_cons]
    exact Int.add_le_add hfirst.2 ih

theorem sumTargets_nonneg
    (h : ∀ pindex ∈ window, 0 ≤ setCompact pindex.entry.nBits) :
  0 ≤ sumTargets window
  := by
  apply List.sum_nonneg
  intro bnTarget hmem
  obtain ⟨pindex, hpindex, rfl⟩ := List.mem_map.mp hmem
  exact h pindex hpindex

/-- The sums and the division keep the order. -/
theorem lwmaQuotient_mono
    {oldest' newest' : CBlockIndex}
    (hnonneg : 0 ≤ sumTargets (window ++ [newest])) (h : List.Forall₂ Easier window window')
    (holdest : oldest.getBlockTime = oldest'.getBlockTime)
    (hnewest : newest.getBlockTime ≤ newest'.getBlockTime)
    (htarget : setCompact newest.entry.nBits ≤ setCompact newest'.entry.nBits) :
  0 ≤ lwmaQuotient oldest (window ++ [newest])
    ∧ lwmaQuotient oldest (window ++ [newest]) ≤ lwmaQuotient oldest' (window' ++ [newest'])
  := by
  have htimes := fst_lwmaSums_mono h hnewest (show (0 : ℤ) ≤ 1 by decide) oldest'.getBlockTime
  have htargets : sumTargets (window ++ [newest]) ≤ sumTargets (window' ++ [newest']) := by
    have hwindow := sumTargets_mono h
    rw [sumTargets] at hwindow ⊢
    rw [sumTargets] at hwindow ⊢
    rw [List.map_append, List.sum_append, List.map_append, List.sum_append, List.map_singleton,
      List.map_singleton, List.sum_singleton, List.sum_singleton]
    exact Int.add_le_add hwindow htarget
  have hweights : ∀ n, 0 ≤ weights 1 n := by
    have hall : ∀ (n : ℕ) (i : ℤ), 0 ≤ i → 0 ≤ weights i n := by
      intro n
      induction n with
      | zero => exact fun _ _ => le_rfl
      | succ n ih =>
        intro i hi
        exact Int.add_nonneg hi (ih (i + 1) (by omega))
    exact fun n => hall n 1 (by decide)
  have hpositive := (fst_lwmaSums_bounds (show (0 : ℤ) ≤ 1 by decide) oldest'.getBlockTime
    (window ++ [newest])).1
  have hsums : 0 ≤ (lwmaSums 1 oldest'.getBlockTime (window ++ [newest])).1 :=
    le_trans (hweights _) hpositive
  rw [lwmaQuotient, lwmaQuotient, snd_lwmaSums, snd_lwmaSums, holdest]
  constructor
  · exact Int.tdiv_nonneg (Int.mul_nonneg hnonneg hsums) (by decide)
  · apply Int.tdiv_le_tdiv (by decide)
    exact Int.mul_le_mul htargets htimes hsums (le_trans hnonneg htargets)

/-- The cut at the limit and the encoding keep the order. -/
theorem setCompact_min_mono {network : Network} {bn bn' : ℤ} (hnonneg : 0 ≤ bn) (hle : bn ≤ bn') :
  setCompact (getCompact (min bn network.bnProofOfWorkLimit))
    ≤ setCompact (getCompact (min bn' network.bnProofOfWorkLimit))
  := by
  obtain ⟨hlimit, hbound⟩ := bnProofOfWorkLimit_bounds network
  obtain ⟨m, hm⟩ := Int.eq_ofNat_of_zero_le (show 0 ≤ min bn network.bnProofOfWorkLimit by omega)
  obtain ⟨n, hn⟩ := Int.eq_ofNat_of_zero_le (show 0 ≤ min bn' network.bnProofOfWorkLimit by omega)
  rw [hm, hn]
  apply setCompact_getCompact_mono
  · omega
  · omega

/-- On windows whose targets are not negative, neither a later newest header nor larger targets make
the next target smaller. -/
theorem lwma_monotone
    {network : Network} {pindexLast pindexLast' : CBlockIndex}
    (hheight : LWMA_WINDOW ≤ pindexLast.nHeight) (hheight' : LWMA_WINDOW ≤ pindexLast'.nHeight)
    (hnonneg : ∀ pindex ∈ pindexLast.chain.take LWMA_WINDOW, 0 ≤ setCompact pindex.entry.nBits) :
  (LaterNewest (pindexLast.chain.take (LWMA_WINDOW + 1))
      (pindexLast'.chain.take (LWMA_WINDOW + 1)) →
    setCompact (calculateNextWorkRequiredLWMA network pindexLast)
      ≤ setCompact (calculateNextWorkRequiredLWMA network pindexLast'))
  ∧ (List.Forall₂ Easier (pindexLast.chain.take (LWMA_WINDOW + 1))
      (pindexLast'.chain.take (LWMA_WINDOW + 1)) →
    setCompact (calculateNextWorkRequiredLWMA network pindexLast)
      ≤ setCompact (calculateNextWorkRequiredLWMA network pindexLast'))
  := by
  obtain ⟨newest, rest, oldest, hwindow, hlength⟩ := exists_window hheight
  obtain ⟨newest', rest', oldest', hwindow', hlength'⟩ := exists_window hheight'
  obtain ⟨-, hsum⟩ := sumTargets_window hwindow hlength
  -- both parts differ in that the newest header may be later and all targets larger
  have hmono : newest.getBlockTime ≤ newest'.getBlockTime →
      setCompact newest.entry.nBits ≤ setCompact newest'.entry.nBits →
      List.Forall₂ Easier (rest ++ [oldest]) (rest' ++ [oldest']) →
      setCompact (calculateNextWorkRequiredLWMA network pindexLast)
        ≤ setCompact (calculateNextWorkRequiredLWMA network pindexLast') := by
    intro htime htarget hrest
    have hlengths : rest.length = rest'.length := by omega
    have hinner : List.Forall₂ Easier rest rest' := by
      have htake := List.forall₂_take rest.length hrest
      rwa [List.take_left', hlengths, List.take_left'] at htake
      · rfl
      · rfl
    have holdest : Easier oldest oldest' := by
      have hdrop := List.forall₂_drop rest.length hrest
      rw [List.drop_left', hlengths, List.drop_left'] at hdrop
      · exact (List.forall₂_cons.mp hdrop).1
      · rfl
      · rfl
    obtain ⟨hzero, hle⟩ := lwmaQuotient_mono (hsum ▸ sumTargets_nonneg hnonneg)
      (List.forall₂_reverse_iff.mpr hinner) holdest.1 htime htarget
    rw [calculateNextWorkRequiredLWMA_eq hheight, calculateNextWorkRequiredLWMA_eq hheight',
      lwmaTarget_of_window hwindow, lwmaTarget_of_window hwindow']
    exact setCompact_min_mono hzero hle
  rw [hwindow, hwindow']
  constructor
  · rintro ⟨htime, hbits, hrest⟩
    apply hmono htime (hbits ▸ le_rfl)
    apply hrest.imp
    rintro pindex pindex' ⟨hsame, hsameBits⟩
    exact ⟨hsame, hsameBits ▸ le_rfl⟩
  · intro hall
    obtain ⟨hnewest, hrest⟩ := List.forall₂_cons.mp hall
    exact hmono hnewest.1.le hnewest.2 hrest

/-- The row whose last block is some seconds later. -/
def lateRow (nBits : UInt32) (nSeconds : ℕ) : CBlockIndex :=
  .next ⟨BitVec.ofNat 256 90, BlockPos.first, 1, 0,
    UInt32.ofNat (1774996862 + 60 * 89 + nSeconds), nBits, 0⟩ (steadyRow nBits 89)

theorem laterNewest_lateRow (nBits : UInt32) :
  LaterNewest ((steadyRow nBits LWMA_WINDOW).chain.take (LWMA_WINDOW + 1))
    ((lateRow nBits 60).chain.take (LWMA_WINDOW + 1))
  := by
  have htime : ((UInt32.ofNat (1774996862 + 60 * 89)).toNat : ℤ)
      ≤ (UInt32.ofNat (1774996862 + 60 * 89 + 60)).toNat := by
    decide
  refine ⟨htime, rfl, ?_⟩
  exact List.forall₂_same.mpr fun _ _ => ⟨rfl, rfl⟩

/-- A block that is a minute late does not make the next target smaller. -/
theorem lateRow_monotone :
  setCompact (calculateNextWorkRequiredLWMA .main (steadyRow 0x1e0ffff0 LWMA_WINDOW))
    ≤ setCompact (calculateNextWorkRequiredLWMA .main (lateRow 0x1e0ffff0 60))
  := by
  have hheight : LWMA_WINDOW ≤ (steadyRow 0x1e0ffff0 LWMA_WINDOW).nHeight := by
    decide
  have hheight' : LWMA_WINDOW ≤ (lateRow 0x1e0ffff0 60).nHeight := by
    decide
  apply (lwma_monotone hheight hheight' (by decide)).1
  exact laterNewest_lateRow 0x1e0ffff0

/-- The weighted sum of the solve times of a window. -/
def sumWeightedSolvetime (pindexLast : CBlockIndex) : ℤ :=
  match (pindexLast.chain.take (LWMA_WINDOW + 1)).reverse with
  | [] => 0
  | oldest :: window => (lwmaSums 1 oldest.getBlockTime window).1

/-- The target when all headers have one. -/
theorem lwmaTarget_of_const
    {network : Network} {pindexLast : CBlockIndex} {nBits : UInt32}
    (hheight : LWMA_WINDOW ≤ pindexLast.nHeight)
    (hbits : ∀ pindex ∈ pindexLast.chain.take (LWMA_WINDOW + 1), pindex.entry.nBits = nBits) :
  lwmaTarget network pindexLast
    = min ((LWMA_WINDOW * setCompact nBits * sumWeightedSolvetime pindexLast).tdiv
        (LWMA_WINDOW * (LWMA_WINDOW * (LWMA_WINDOW + 1) / 2 * nTargetSpacing)))
      network.bnProofOfWorkLimit
  := by
  obtain ⟨newest, rest, oldest, hwindow, hlength⟩ := exists_window hheight
  obtain ⟨htake, hsum⟩ := sumTargets_window hwindow hlength
  have hconst : sumTargets (pindexLast.chain.take LWMA_WINDOW) = LWMA_WINDOW * setCompact nBits := by
    rw [@sumTargets_of_const nBits, htake, List.length_cons, hlength]
    intro pindex hmem
    apply hbits
    rw [hwindow, ← List.cons_append, List.mem_append, ← htake]
    exact Or.inl hmem
  have htimes : sumWeightedSolvetime pindexLast
      = (lwmaSums 1 oldest.getBlockTime (rest.reverse ++ [newest])).1 := by
    rw [sumWeightedSolvetime, hwindow, List.reverse_cons, List.reverse_append]
    rfl
  rw [lwmaTarget_of_window hwindow, lwmaQuotient, snd_lwmaSums, hsum, hconst, htimes]

/-- Rows with a larger target are easier. -/
theorem easier_lateRow {nBits nBits' : UInt32} (h : setCompact nBits ≤ setCompact nBits') :
  List.Forall₂ Easier ((lateRow nBits 600).chain.take (LWMA_WINDOW + 1))
    ((lateRow nBits' 600).chain.take (LWMA_WINDOW + 1))
  := by
  have hrow : ∀ n, List.Forall₂ Easier (steadyRow nBits n).chain (steadyRow nBits' n).chain := by
    intro n
    induction n with
    | zero => exact List.Forall₂.cons ⟨rfl, h⟩ List.Forall₂.nil
    | succ n ih => exact List.Forall₂.cons ⟨rfl, h⟩ ih
  apply List.forall₂_take
  exact List.Forall₂.cons ⟨rfl, h⟩ (hrow 89)

/-- On targets with the sign bit set a later newest header makes the next target smaller, and on
such targets of the largest size larger targets do. -/
theorem negative_not_monotone :
  (LaterNewest ((steadyRow 0x1e8ffff0 LWMA_WINDOW).chain.take (LWMA_WINDOW + 1))
      ((lateRow 0x1e8ffff0 60).chain.take (LWMA_WINDOW + 1))
    ∧ setCompact (calculateNextWorkRequiredLWMA .main (lateRow 0x1e8ffff0 60))
      < setCompact (calculateNextWorkRequiredLWMA .main (steadyRow 0x1e8ffff0 LWMA_WINDOW)))
  ∧ List.Forall₂ Easier ((lateRow 0xffffffff 600).chain.take (LWMA_WINDOW + 1))
      ((lateRow 0xff80ffff 600).chain.take (LWMA_WINDOW + 1))
    ∧ setCompact (calculateNextWorkRequiredLWMA .main (lateRow 0xff80ffff 600))
      < setCompact (calculateNextWorkRequiredLWMA .main (lateRow 0xffffffff 600))
  := by
  have hlarger : setCompact 0xffffffff ≤ setCompact 0xff80ffff := by
    decide +kernel
  have htarget : lwmaTarget .main (lateRow 0xffffffff 600)
      = min ((LWMA_WINDOW * setCompact 0xffffffff * 272700).tdiv
          (LWMA_WINDOW * (LWMA_WINDOW * (LWMA_WINDOW + 1) / 2 * nTargetSpacing)))
        (Network.bnProofOfWorkLimit .main) := by
    have htimes : sumWeightedSolvetime (lateRow 0xffffffff 600) = 272700 := by
      decide +kernel
    rw [@lwmaTarget_of_const _ _ 0xffffffff (by decide) (by decide), htimes]
  have htarget' : lwmaTarget .main (lateRow 0xff80ffff 600)
      = min ((LWMA_WINDOW * setCompact 0xff80ffff * 272700).tdiv
          (LWMA_WINDOW * (LWMA_WINDOW * (LWMA_WINDOW + 1) / 2 * nTargetSpacing)))
        (Network.bnProofOfWorkLimit .main) := by
    have htimes : sumWeightedSolvetime (lateRow 0xff80ffff 600) = 272700 := by
      decide +kernel
    rw [@lwmaTarget_of_const _ _ 0xff80ffff (by decide) (by decide), htimes]
  refine ⟨⟨laterNewest_lateRow 0x1e8ffff0, by decide +kernel⟩, easier_lateRow hlarger, ?_⟩
  rw [calculateNextWorkRequiredLWMA_eq (by decide),
    calculateNextWorkRequiredLWMA_eq (by decide), htarget, htarget']
  decide +kernel

end CorgiCoin
