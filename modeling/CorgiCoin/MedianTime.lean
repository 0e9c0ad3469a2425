import CorgiCoin.BlockIndex
import CorgiCoin.Lib.OrderStatistics

/-!
# The median time of the last blocks

`GetMedianTimePast` is the middle one of the times of the last eleven blocks.  A block has to be
later than the median before it, and so the median never goes back.
-/

namespace CorgiCoin.CBlockIndex

/-- The times of the last blocks, the latest block first. -/
def medianWindow (pindex : CBlockIndex) : List ℤ :=
  (pindex.chain.take nMedianTimeSpan).map getBlockTime

theorem exists_chain_eq_cons (pindex : CBlockIndex) : ∃ below, pindex.chain = pindex :: below := by
  cases pindex with
  | first entry => exact ⟨[], rfl⟩
  | next entry pprev => exact ⟨pprev.chain, rfl⟩

theorem length_medianWindow_pos (pindex : CBlockIndex) : 0 < pindex.medianWindow.length := by
  obtain ⟨below, hchain⟩ := pindex.exists_chain_eq_cons
  rw [medianWindow, List.length_map, List.length_take, hchain, List.length_cons, nMedianTimeSpan]
  omega

/-- The median is at least `m` when at most half of the times, rounded down, are earlier than
`m`. -/
theorem le_getMedianTimePast_iff (pindex : CBlockIndex) (m : ℤ) :
  m ≤ pindex.getMedianTimePast ↔
    pindex.medianWindow.countP (· < m) ≤ pindex.medianWindow.length / 2
  := by
  have hpos := pindex.length_medianWindow_pos
  have hk : (pindex.medianWindow.insertionSort (· ≤ ·)).length / 2
      < (pindex.medianWindow.insertionSort (· ≤ ·)).length := by
    rw [List.length_insertionSort]
    omega
  have hmedian : pindex.getMedianTimePast = (pindex.medianWindow.insertionSort (· ≤ ·))[
      (pindex.medianWindow.insertionSort (· ≤ ·)).length / 2] := by
    change (pindex.medianWindow.insertionSort (· ≤ ·))[
      (pindex.medianWindow.insertionSort (· ≤ ·)).length / 2]?.getD 0 = _
    rw [List.getElem?_eq_getElem hk, Option.getD_some]
  rw [hmedian, OrderStatistics.le_getElem_insertionSort_iff hk, List.length_insertionSort]

/-- The window of a block is its time on top of the window before it, without the time that
drops out. -/
theorem medianWindow_next (entry : BlockEntry) (pprev : CBlockIndex) :
  (next entry pprev).medianWindow
    = (next entry pprev).getBlockTime :: pprev.medianWindow.take (nMedianTimeSpan - 1)
  := by
  rw [medianWindow, chain, nMedianTimeSpan, List.take_succ_cons, List.map_cons, medianWindow,
    ← List.map_take, List.take_take]
  rfl

/-- A block that is not earlier than the median before it does not put the median back. -/
theorem getMedianTimePast_le_of_le {entry : BlockEntry} {pprev : CBlockIndex}
    (h : pprev.getMedianTimePast ≤ (next entry pprev).getBlockTime) :
  pprev.getMedianTimePast ≤ (next entry pprev).getMedianTimePast
  := by
  have hold := (pprev.le_getMedianTimePast_iff pprev.getMedianTimePast).mp (le_refl _)
  rw [le_getMedianTimePast_iff, medianWindow_next, List.countP_cons_of_neg (by simpa using h),
    List.length_cons, List.length_take]
  have hsub : (pprev.medianWindow.take (nMedianTimeSpan - 1)).countP (· < pprev.getMedianTimePast)
      ≤ pprev.medianWindow.countP (· < pprev.getMedianTimePast) :=
    (List.take_sublist _ _).countP_le
  have hlength : pprev.medianWindow.length ≤ nMedianTimeSpan := by
    rw [medianWindow, List.length_map]
    exact List.length_take_le _ _
  rw [nMedianTimeSpan] at hlength hsub ⊢
  omega

/-! ## Chains -/

/-- Every block of a chain is later than the median time of the blocks before it, as `AcceptBlock`
demands. -/
def TimesAccepted : CBlockIndex → Prop
  | first _ => True
  | next entry pprev =>
    pprev.getMedianTimePast < (next entry pprev).getBlockTime ∧ pprev.TimesAccepted

instance TimesAccepted.decidable : (pindex : CBlockIndex) → Decidable pindex.TimesAccepted
  | first _ => inferInstanceAs (Decidable True)
  | next entry pprev =>
    have := TimesAccepted.decidable pprev
    inferInstanceAs (Decidable
      (pprev.getMedianTimePast < (next entry pprev).getBlockTime ∧ pprev.TimesAccepted))

/-- Down a chain, the median times do not increase. -/
theorem getMedianTimePast_sorted {pindex : CBlockIndex} (h : pindex.TimesAccepted) :
  (pindex.chain.map getMedianTimePast).Pairwise (· ≥ ·)
  := by
  induction pindex with
  | first entry => exact List.pairwise_singleton _ _
  | next entry pprev ih =>
    have hrest := ih h.2
    have hstep : pprev.getMedianTimePast ≤ (next entry pprev).getMedianTimePast :=
      getMedianTimePast_le_of_le h.1.le
    obtain ⟨below, hchain⟩ := pprev.exists_chain_eq_cons
    rw [chain, List.map_cons, List.pairwise_cons]
    refine ⟨?_, hrest⟩
    rw [hchain, List.map_cons] at hrest ⊢
    rintro m (_ | ⟨_, hm⟩)
    · exact hstep
    · exact ((List.pairwise_cons.mp hrest).1 m hm).le.trans hstep

/-! ### A chain whose times go back -/

def timedEntry (nTime : UInt32) : BlockEntry :=
  ⟨0, BlockPos.first, 1, 0, nTime, 0x1e0fffff, 0⟩

/-- Blocks with the given times, the latest block first, on top of a first block. -/
def timedChain (nFirst : UInt32) : List UInt32 → CBlockIndex
  | [] => first (timedEntry nFirst)
  | nTime :: times => next (timedEntry nTime) (timedChain nFirst times)

/-- The times go forth and back, the medians do not. -/
theorem timedChain_sorted :
  (timedChain 100 [150, 103, 130, 102, 120, 101]).TimesAccepted
    ∧ ((timedChain 100 [150, 103, 130, 102, 120, 101]).chain.map getMedianTimePast).Pairwise (· ≥ ·)
  := by
  have haccepted : (timedChain 100 [150, 103, 130, 102, 120, 101]).TimesAccepted := by
    decide
  exact ⟨haccepted, getMedianTimePast_sorted haccepted⟩

end CorgiCoin.CBlockIndex
