import CorgiCoin.Work

/-!
# The difficulty that is demanded

The compact form of a positive target decodes to a positive target that is no larger.  So every rule
of `GetNextWorkRequired` demands a target in the range that `CheckProofOfWork` accepts, as long as
the targets of the chain are not tiny.
-/

namespace CorgiCoin

/-! ## The rules -/

/-- A target that a block can have and `CheckProofOfWork` accepts. -/
def InRange (network : Network) (nBits : UInt32) : Prop :=
  0 < setCompact nBits ∧ setCompact nBits ≤ network.bnProofOfWorkLimit

variable {network : Network}

/-- `CheckProofOfWork` gets past its range check: what is left is to compare the hash. -/
theorem InRange.checkProofOfWork {nBits : UInt32} (h : InRange network nBits)
    (hash : uint256) :
  checkProofOfWork network hash nBits = !(getuint256 (setCompact nBits) < hash)
  := by
  rw [CorgiCoin.checkProofOfWork, if_neg]
  rw [Bool.or_eq_true, decide_eq_true_iff, decide_eq_true_iff]
  have hlow := h.1
  have hhigh := h.2
  omega

theorem bnProofOfWorkLimit_bounds (network : Network) :
  2 ^ 16 ≤ network.bnProofOfWorkLimit ∧ network.bnProofOfWorkLimit < 2 ^ 256
  := by
  cases network with
  | main => decide
  | test => decide
  | regtest => decide

/-- The compact form of a positive target, cut at the limit of the network, is in range. -/
theorem inRange_getCompact {bnNew : ℤ} (h : 0 < bnNew) :
  InRange network
    (getCompact (if bnNew > network.bnProofOfWorkLimit then network.bnProofOfWorkLimit else bnNew))
  := by
  obtain ⟨hlimit, hbound⟩ := bnProofOfWorkLimit_bounds network
  split_ifs with hgt
  · exact setCompact_getCompact (by omega) hbound
  · obtain ⟨hpos, hle⟩ := setCompact_getCompact h (by omega)
    exact ⟨hpos, by omega⟩

theorem inRange_limit (network : Network) :
  InRange network (getCompact network.bnProofOfWorkLimit)
  := by
  obtain ⟨hlimit, hbound⟩ := bnProofOfWorkLimit_bounds network
  exact setCompact_getCompact (by omega) hbound

/-- The targets of a chain are not tiny and not above the limit. -/
def TargetsOk (network : Network) (pindexLast : CBlockIndex) : Prop :=
  ∀ pindex ∈ pindexLast.chain, 2 ^ 16 ≤ setCompact pindex.entry.nBits
    ∧ setCompact pindex.entry.nBits ≤ network.bnProofOfWorkLimit

variable {pindexLast : CBlockIndex}

theorem TargetsOk.inRange {pindex : CBlockIndex}
    (h : TargetsOk network pindexLast) (hmem : pindex ∈ pindexLast.chain) :
  InRange network pindex.entry.nBits
  := by
  obtain ⟨hlow, hhigh⟩ := h pindex hmem
  exact ⟨by omega, hhigh⟩

/-- The sums over a window whose targets are not tiny: every solve time is at least a second. -/
theorem lwmaSums_le
    (window : List CBlockIndex) {i : ℤ} (hi : 1 ≤ i) (nPrevTime : ℤ)
    (h : ∀ pindex ∈ window, 2 ^ 16 ≤ setCompact pindex.entry.nBits) :
  (window.length : ℤ) ≤ (lwmaSums i nPrevTime window).1
    ∧ window.length * 2 ^ 16 ≤ (lwmaSums i nPrevTime window).2
  := by
  induction window generalizing i nPrevTime with
  | nil => exact ⟨le_rfl, le_rfl⟩
  | cons pindex window ih =>
    obtain ⟨hfirst, hrest⟩ := List.forall_mem_cons.mp h
    obtain ⟨htimes, htargets⟩ :=
      @ih (i + 1) (by omega) (max pindex.getBlockTime (nPrevTime + 1)) hrest
    have hsolve : 1 ≤ min (max pindex.getBlockTime (nPrevTime + 1) - nPrevTime)
        (6 * nTargetSpacing) := by
      rw [nTargetSpacing]
      omega
    have hweighted : 1 ≤ min (max pindex.getBlockTime (nPrevTime + 1) - nPrevTime)
        (6 * nTargetSpacing) * i := by
      calc (1 : ℤ) = 1 * 1 := rfl
        _ ≤ _ := Int.mul_le_mul hsolve hi (by decide) (by omega)
    rw [lwmaSums, List.length_cons]
    push_cast
    constructor
    · omega
    · omega

/-- The window of the last blocks lies inside the chain. -/
theorem length_lwmaWindow (h : LWMA_WINDOW ≤ pindexLast.nHeight) :
  (pindexLast.chain.take (LWMA_WINDOW + 1)).length = LWMA_WINDOW + 1
  := by
  rw [List.length_take, CBlockIndex.length_chain]
  omega

theorem inRange_lwma
    (h : TargetsOk network pindexLast) :
  InRange network (calculateNextWorkRequiredLWMA network pindexLast)
  := by
  simp only [calculateNextWorkRequiredLWMA]
  split_ifs with hheight
  · apply inRange_limit
  · have hlength := length_lwmaWindow (Nat.not_lt.mp hheight)
    rw [← List.length_reverse] at hlength
    cases hwindow : (pindexLast.chain.take (LWMA_WINDOW + 1)).reverse with
    | nil =>
      rw [hwindow] at hlength
      cases hlength
    | cons oldest window =>
      rw [hwindow, List.length_cons, Nat.add_right_cancel_iff] at hlength
      have hmem : ∀ pindex ∈ window, 2 ^ 16 ≤ setCompact pindex.entry.nBits := by
        intro pindex hmem
        apply (h pindex _).1
        apply List.mem_of_mem_take (i := LWMA_WINDOW + 1)
        rw [← List.mem_reverse, hwindow]
        apply List.mem_cons_of_mem _ hmem
      obtain ⟨htimes, htargets⟩ := lwmaSums_le window (le_refl 1) oldest.getBlockTime hmem
      rw [hlength] at htimes htargets
      apply inRange_getCompact
      have hproduct : (LWMA_WINDOW * 2 ^ 16 : ℤ) * LWMA_WINDOW
          ≤ (lwmaSums 1 oldest.getBlockTime window).2 * (lwmaSums 1 oldest.getBlockTime window).1 :=
        Int.mul_le_mul htargets htimes (by decide) (le_trans (by decide) htargets)
      rw [Int.tdiv_eq_ediv_of_nonneg (le_trans (by decide) hproduct)]
      apply Int.le_ediv_of_mul_le (by decide)
      exact le_trans (by decide) hproduct

/-- The time span of a retarget after it was bounded. -/
theorem le_boundedTimespan (nHeight : ℕ) (nActualTimespan : ℤ) :
  let nMinTimespan :=
    if nHeight > 10000 then nTargetTimespan / 4
    else if nHeight > 5000 then nTargetTimespan / 8
    else nTargetTimespan / 16
  let nLeast := if nActualTimespan < nMinTimespan then nMinTimespan else nActualTimespan
  nTargetTimespan / 16 ≤ if nLeast > nTargetTimespan * 4 then nTargetTimespan * 4 else nLeast
  := by
  simp only [nTargetTimespan]
  split_ifs <;> omega

theorem inRange_retarget
    (h : TargetsOk network pindexLast) (pindexFirst : CBlockIndex) :
  InRange network (retarget network pindexLast pindexFirst)
  := by
  obtain ⟨htarget, -⟩ := h pindexLast pindexLast.mem_chain_self
  simp only [retarget]
  apply inRange_getCompact
  have hproduct : ∀ nActualTimespan : ℤ, nTargetTimespan / 16 ≤ nActualTimespan →
      0 < (setCompact pindexLast.entry.nBits * nActualTimespan).tdiv nTargetTimespan := by
    intro nActualTimespan hactual
    have hle : 2 ^ 16 * (nTargetTimespan / 16)
        ≤ setCompact pindexLast.entry.nBits * nActualTimespan :=
      Int.mul_le_mul htarget hactual (by decide) (by omega)
    rw [Int.tdiv_eq_ediv_of_nonneg (le_trans (by decide) hle)]
    apply Int.le_ediv_of_mul_le (by decide)
    exact le_trans (by decide) hle
  apply hproduct
  apply le_boundedTimespan

/-- The walk back over blocks of minimum difficulty stays on the chain. -/
theorem lastNotSpecial_mem_chain (nProofOfWorkLimit : UInt32) (pindex : CBlockIndex) :
  lastNotSpecial nProofOfWorkLimit pindex ∈ pindex.chain
  := by
  induction pindex with
  | first entry => exact List.mem_singleton_self _
  | next entry pprev ih =>
    rw [lastNotSpecial]
    split_ifs
    · exact List.mem_cons_of_mem _ ih
    · exact List.mem_cons_self

/-- The block that a retarget counts from. -/
theorem exists_pindexFirst (h : (pindexLast.nHeight + 1) % nInterval = 0) :
  ∃ pindexFirst ∈ pindexLast.chain,
    pindexLast.chain[if pindexLast.nHeight + 1 != nInterval then nInterval else nInterval - 1]?
      = some pindexFirst
  := by
  have hlt : (if pindexLast.nHeight + 1 != nInterval then nInterval else nInterval - 1)
      < pindexLast.chain.length := by
    rw [CBlockIndex.length_chain]
    rw [nInterval] at *
    split_ifs with hne
    · rw [bne_iff_ne] at hne
      omega
    · rw [bne_iff_ne, not_not] at hne
      omega
  exact ⟨_, List.getElem_mem hlt, List.getElem?_eq_getElem hlt⟩

/-- No assertion of `GetNextWorkRequired` fails. -/
theorem exists_getNextWorkRequired (network : Network) (pindexLast : CBlockIndex) (nTime : UInt32) :
  ∃ nBits, getNextWorkRequired network pindexLast nTime = some nBits
  := by
  simp only [getNextWorkRequired]
  split_ifs with hregtest hlwma hinterval htest htime hback
  · exact ⟨_, rfl⟩
  · exact ⟨_, rfl⟩
  · exact ⟨_, rfl⟩
  · exact ⟨_, rfl⟩
  · exact ⟨_, rfl⟩
  · rw [bne_iff_ne, not_not] at hinterval
    obtain ⟨pindexFirst, -, hfirst⟩ := exists_pindexFirst hinterval
    rw [if_pos hback] at hfirst
    exact ⟨_, by rw [hfirst]; rfl⟩
  · rw [bne_iff_ne, not_not] at hinterval
    obtain ⟨pindexFirst, -, hfirst⟩ := exists_pindexFirst hinterval
    rw [if_neg hback] at hfirst
    exact ⟨_, by rw [hfirst]; rfl⟩

/-- `GetNextWorkRequired`, also for a block without another before it. -/
def nextWorkRequired (network : Network) (pindexLast : Option CBlockIndex) (nTime : UInt32) :
    Option UInt32 :=
  match pindexLast with
  | none => some (getCompact network.bnProofOfWorkLimit)
  | some pindexLast => getNextWorkRequired network pindexLast nTime

/-- On every network, every chain whose targets are not tiny and every block on top of it demand a
target that can be met; no assertion fails, and all blocks that are looked at are on the chain. -/
theorem nextWorkRequired_inRange
    (network : Network) (pindexLast : Option CBlockIndex) (nTime : UInt32)
    (h : ∀ pindex ∈ pindexLast, TargetsOk network pindex) :
  (∃ nBits, nextWorkRequired network pindexLast nTime = some nBits ∧ InRange network nBits
      ∧ ∀ hash, checkProofOfWork network hash nBits = !(getuint256 (setCompact nBits) < hash))
    ∧ ∀ pindex ∈ pindexLast,
        lastNotSpecial (getCompact network.bnProofOfWorkLimit) pindex ∈ pindex.chain
          ∧ (LWMA_WINDOW ≤ pindex.nHeight →
              (pindex.chain.take (LWMA_WINDOW + 1)).length = LWMA_WINDOW + 1)
          ∧ ((pindex.nHeight + 1) % nInterval = 0 → ∃ pindexFirst ∈ pindex.chain,
              pindex.chain[if pindex.nHeight + 1 != nInterval then nInterval else nInterval - 1]?
                = some pindexFirst)
  := by
  have hbits : ∃ nBits, nextWorkRequired network pindexLast nTime = some nBits
      ∧ InRange network nBits := by
    cases pindexLast with
    | none => exact ⟨_, rfl, inRange_limit network⟩
    | some pindexLast =>
      have hok := h pindexLast rfl
      simp only [nextWorkRequired, getNextWorkRequired]
      split_ifs with hregtest hlwma hinterval htest htime hback
      · exact ⟨_, rfl, inRange_limit network⟩
      · exact ⟨_, rfl, inRange_lwma hok⟩
      · exact ⟨_, rfl, inRange_limit network⟩
      · exact ⟨_, rfl, hok.inRange (lastNotSpecial_mem_chain _ pindexLast)⟩
      · exact ⟨_, rfl, hok.inRange pindexLast.mem_chain_self⟩
      · rw [bne_iff_ne, not_not] at hinterval
        obtain ⟨pindexFirst, -, hfirst⟩ := exists_pindexFirst hinterval
        rw [if_pos hback] at hfirst
        rw [hfirst]
        exact ⟨_, rfl, inRange_retarget hok pindexFirst⟩
      · rw [bne_iff_ne, not_not] at hinterval
        obtain ⟨pindexFirst, -, hfirst⟩ := exists_pindexFirst hinterval
        rw [if_neg hback] at hfirst
        rw [hfirst]
        exact ⟨_, rfl, inRange_retarget hok pindexFirst⟩
  obtain ⟨nBits, hnext, hrange⟩ := hbits
  refine ⟨⟨nBits, hnext, hrange, hrange.checkProofOfWork⟩, ?_⟩
  exact fun pindex _ => ⟨lastNotSpecial_mem_chain _ pindex, length_lwmaWindow, exists_pindexFirst⟩

end CorgiCoin
