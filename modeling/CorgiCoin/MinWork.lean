import CorgiCoin.Difficulty
import CorgiCoin.Mpi
import Mathlib.Algebra.Order.Ring.Int

/-!
# The least work after a checkpoint

`ComputeMinWork` bounds how far the target can have risen some time after a block.  The bound
quadruples once in four retarget periods, while a retarget looks at all the time since the one before,
and since the fork every block retargets.  So a block meets the bound of one before it just when the last
retarget between them does not stretch its target further.
-/

namespace CorgiCoin

/-! ## The bound -/

/-- The loop of `ComputeMinWork`. -/
def minWorkLoop (bnProofOfWorkLimit : ℤ) (bnResult nTime : ℤ) : ℤ :=
  if nTime > 0 ∧ bnResult < bnProofOfWorkLimit then
    minWorkLoop bnProofOfWorkLimit (bnResult * 4) (nTime - nTargetTimespan * 4)
  else bnResult
termination_by nTime.toNat
decreasing_by
  rw [nTargetTimespan]
  omega

def computeMinWork (network : Network) (nBase : UInt32) (nTime : ℤ) : UInt32 :=
  let bnProofOfWorkLimit := network.bnProofOfWorkLimit
  if network.fTestNet && decide (nTime > nTargetSpacing * 2) then getCompact bnProofOfWorkLimit
  else
    let bnResult := minWorkLoop bnProofOfWorkLimit (setCompact nBase) nTime
    getCompact (if bnResult > bnProofOfWorkLimit then bnProofOfWorkLimit else bnResult)

/-- The largest target that blocks of the main network are asked for. -/
def bnMaxTarget : ℤ := 0x0fffff * 256 ^ 27

/-- The time that a retarget takes the blocks since the one before to have taken. -/
def boundedTimespan (nHeight : ℕ) (nActualTimespan : ℤ) : ℤ :=
  min (max nActualTimespan
    (nTargetTimespan / (if nHeight > 10000 then 4 else if nHeight > 5000 then 8 else 16)))
    (nTargetTimespan * 4)

/-- What a retarget on top of a block stretches the targets before it to: the target of the block by the
time since the retarget before, or the targets of the window by its weighted solve times.  Nothing on top
of a block that no retarget follows. -/
def stretched (pindexLast : CBlockIndex) : Option ℤ :=
  let nHeight := pindexLast.nHeight + 1
  if nHeight ≥ LWMA_FORK_HEIGHT_MAINNET then
    match (pindexLast.chain.take (LWMA_WINDOW + 1)).reverse with
    | [] => none
    | oldest :: window =>
      let sums := lwmaSums 1 oldest.getBlockTime window
      some ((sums.2 * sums.1).tdiv
        (LWMA_WINDOW * (LWMA_WINDOW * (LWMA_WINDOW + 1) / 2 * nTargetSpacing)))
  else if nHeight % nInterval = 0 then
    (pindexLast.chain[if nHeight = nInterval then nInterval - 1 else nInterval]?).map
      (fun pindexFirst => (setCompact pindexLast.entry.nBits
        * boundedTimespan nHeight (pindexLast.getBlockTime - pindexFirst.getBlockTime)).tdiv
          nTargetTimespan)
  else none

/-- The target of a block that is asked for the given one: no larger than the limit, and cut to what a
compact form holds. -/
def packed (bn : ℤ) : ℤ := setCompact (getCompact (min bn (Network.bnProofOfWorkLimit .main)))

/-- Every block of a chain has the difficulty that is demanded of it; the first block has any target
that a block can have. -/
def FollowsRule : CBlockIndex → Prop
  | .first entry => 0 ≤ setCompact entry.nBits ∧ setCompact entry.nBits ≤ bnMaxTarget
  | .next entry pprev =>
    getNextWorkRequired .main pprev entry.nTime = some entry.nBits ∧ FollowsRule pprev

instance FollowsRule.decidable : (pindex : CBlockIndex) → Decidable (FollowsRule pindex)
  | .first entry =>
    inferInstanceAs (Decidable (0 ≤ setCompact entry.nBits ∧ setCompact entry.nBits ≤ bnMaxTarget))
  | .next entry pprev =>
    have := FollowsRule.decidable pprev
    inferInstanceAs (Decidable
      (getNextWorkRequired .main pprev entry.nTime = some entry.nBits ∧ FollowsRule pprev))

/-- Nothing is a retarget after `b` up to the given block, or the last one there stretches the targets
before it to no more than the given bound. -/
def LastRetargetFits (b : CBlockIndex) (bound : ℤ) : CBlockIndex → Prop
  | .first _ => True
  | .next _ pprev =>
    pprev.nHeight + 1 ≤ b.nHeight
      ∨ match stretched pprev with
        | some bn => packed bn ≤ bound
        | none => LastRetargetFits b bound pprev

instance LastRetargetFits.decidable (b : CBlockIndex) (bound : ℤ) :
    (c : CBlockIndex) → Decidable (LastRetargetFits b bound c)
  | .first _ => .isTrue trivial
  | .next _ pprev =>
    have := LastRetargetFits.decidable b bound pprev
    match h : stretched pprev with
    | some bn => decidable_of_iff (pprev.nHeight + 1 ≤ b.nHeight ∨ packed bn ≤ bound)
        (by rw [LastRetargetFits, h])
    | none => decidable_of_iff (pprev.nHeight + 1 ≤ b.nHeight ∨ LastRetargetFits b bound pprev)
        (by rw [LastRetargetFits, h])

/-- The times of a row of blocks: a second apart, with one long wait. -/
def waitingTime (i : ℕ) : UInt32 := if i ≤ 478 then UInt32.ofNat i else 58078

/-- The difficulties that are demanded of these blocks. -/
def waitingBits (i : ℕ) : UInt32 :=
  if i < 240 then 0x1e0fffff else if i < 480 then 0x1e00ffff else 0x1e03fffc

def waitingEntry (i : ℕ) : BlockEntry :=
  ⟨0, BlockPos.first, 1, 0, waitingTime i, waitingBits i, 0⟩

def waitingRow : ℕ → CBlockIndex
  | 0 => .first (waitingEntry 0)
  | i + 1 => .next (waitingEntry (i + 1)) (waitingRow i)

/-- The targets of the row are not tiny. -/
theorem waitingRow_targetsOk (network : Network) (n : ℕ) : TargetsOk network (waitingRow n)
  := by
  have hbits : ∀ i, 2 ^ 16 ≤ setCompact (waitingBits i)
      ∧ setCompact (waitingBits i) ≤ network.bnProofOfWorkLimit := by
    intro i
    rw [waitingBits]
    cases network <;> split_ifs <;> decide
  induction n with
  | zero =>
    intro pindex hmem
    rw [List.mem_singleton.mp hmem]
    exact hbits 0
  | succ n ih =>
    intro pindex hmem
    rcases List.mem_cons.mp hmem with rfl | hmem
    · exact hbits (n + 1)
    · exact ih pindex hmem

/-- On top of block 479 the main network retargets, and the test network averages the last blocks. -/
theorem waitingRow_next_inRange :
  nextWorkRequired .main (some (waitingRow 479)) 58078 = some 0x1e03fffc ∧ InRange .main 0x1e03fffc
    ∧ nextWorkRequired .test (some (waitingRow 479)) 58078 = some 0x1d25ee38 ∧ InRange .test 0x1d25ee38
  := by
  have hall : ∀ network, ∀ pindex ∈ some (waitingRow 479), TargetsOk network pindex := by
    intro network pindex hmem
    rw [← Option.mem_some.mp hmem]
    exact waitingRow_targetsOk network 479
  have hmain : nextWorkRequired .main (some (waitingRow 479)) 58078 = some 0x1e03fffc := by decide +kernel
  have htest : nextWorkRequired .test (some (waitingRow 479)) 58078 = some 0x1d25ee38 := by decide +kernel
  obtain ⟨⟨nBits, hnext, hrange, -⟩, -⟩ :=
    nextWorkRequired_inRange .main (some (waitingRow 479)) 58078 (hall .main)
  obtain ⟨⟨nBits', hnext', hrange', -⟩, -⟩ :=
    nextWorkRequired_inRange .test (some (waitingRow 479)) 58078 (hall .test)
  obtain rfl := Option.some.inj (hmain.symm.trans hnext)
  obtain rfl := Option.some.inj (htest.symm.trans hnext')
  exact ⟨hmain, hrange, htest, hrange'⟩

end CorgiCoin
