import Mathlib.Data.UInt
import CorgiCoin.BlockIndex

/-!
# Proof of work

The difficulty a block must have, the checks of its proof of work, and the checks a block
passes whatever block it is put on.
-/

namespace CorgiCoin

/-! ## Difficulty -/

def nTargetTimespan : ℤ := 4 * 60 * 60
def nTargetSpacing : ℤ := 60
def nInterval : ℕ := 240
def LWMA_FORK_HEIGHT_MAINNET : ℕ := 34000
def LWMA_FORK_HEIGHT_TESTNET : ℕ := 100
def LWMA_WINDOW : ℕ := 90
def LWMA_FUTURE_TIME_LIMIT : ℤ := 5 * 60
def AUXPOW_FORK_HEIGHT_MAINNET : ℕ := 50000
def AUXPOW_FORK_HEIGHT_TESTNET : ℕ := 200

def getLwmaForkHeight (network : Network) : ℕ :=
  if network.fTestNet then LWMA_FORK_HEIGHT_TESTNET else LWMA_FORK_HEIGHT_MAINNET

def getAuxPowForkHeight (network : Network) : ℕ :=
  if network.fTestNet then AUXPOW_FORK_HEIGHT_TESTNET else AUXPOW_FORK_HEIGHT_MAINNET

/-- The loop of `CalculateNextWorkRequiredLWMA` over the headers after the oldest: the sum of
the weighted solve times and the sum of the targets. -/
def lwmaSums : ℤ → ℤ → List CBlockIndex → ℤ × ℤ
  | _, _, [] => (0, 0)
  | i, nPrevTime, pindex :: window =>
    -- a monotonic view of the timestamps, with the solve time capped
    let nThisTime := max pindex.getBlockTime (nPrevTime + 1)
    let nSolvetime := min (nThisTime - nPrevTime) (6 * nTargetSpacing)
    let rest := lwmaSums (i + 1) nThisTime window
    (nSolvetime * i + rest.1, setCompact pindex.entry.nBits + rest.2)

def calculateNextWorkRequiredLWMA (network : Network) (pindexLast : CBlockIndex) : UInt32 :=
  let bnProofOfWorkLimit := network.bnProofOfWorkLimit
  if pindexLast.nHeight < LWMA_WINDOW then getCompact bnProofOfWorkLimit
  else
    match (pindexLast.chain.take (LWMA_WINDOW + 1)).reverse with
    | [] => getCompact bnProofOfWorkLimit
    | oldest :: window =>
      let n : ℤ := LWMA_WINDOW
      let k := n * (n + 1) / 2 * nTargetSpacing
      let sums := lwmaSums 1 oldest.getBlockTime window
      let bnNew := (sums.2 * sums.1).tdiv (n * k)
      getCompact (if bnNew > bnProofOfWorkLimit then bnProofOfWorkLimit else bnNew)

/-- The last block on a chain that was not mined under the minimum-difficulty rule of the
test network. -/
def lastNotSpecial (nProofOfWorkLimit : UInt32) : CBlockIndex → CBlockIndex
  | .first entry => .first entry
  | .next entry pprev =>
    if (CBlockIndex.next entry pprev).nHeight % nInterval != 0
        && entry.nBits == nProofOfWorkLimit then
      lastNotSpecial nProofOfWorkLimit pprev
    else .next entry pprev

/-- The retarget every `nInterval` blocks, bounded by how much the target may move. -/
def retarget (network : Network) (pindexLast pindexFirst : CBlockIndex) : UInt32 :=
  let nHeight := pindexLast.nHeight + 1
  let nActualTimespan := pindexLast.getBlockTime - pindexFirst.getBlockTime
  let nMinTimespan :=
    if nHeight > 10000 then nTargetTimespan / 4
    else if nHeight > 5000 then nTargetTimespan / 8
    else nTargetTimespan / 16
  let nActualTimespan := if nActualTimespan < nMinTimespan then nMinTimespan else nActualTimespan
  let nActualTimespan :=
    if nActualTimespan > nTargetTimespan * 4 then nTargetTimespan * 4 else nActualTimespan
  let bnNew := (setCompact pindexLast.entry.nBits * nActualTimespan).tdiv nTargetTimespan
  getCompact (if bnNew > network.bnProofOfWorkLimit then network.bnProofOfWorkLimit else bnNew)

/-- `GetNextWorkRequired` for a block of the given time on top of an entry; `none` where the
source stops at an assertion. -/
def getNextWorkRequired (network : Network) (pindexLast : CBlockIndex) (nTime : UInt32) :
    Option UInt32 :=
  let nProofOfWorkLimit := getCompact network.bnProofOfWorkLimit
  let nHeight := pindexLast.nHeight + 1
  if network.fRegTest then some nProofOfWorkLimit
  else if nHeight ≥ getLwmaForkHeight network then
    some (calculateNextWorkRequiredLWMA network pindexLast)
  else if nHeight % nInterval != 0 then
    if network.fTestNet then
      if (nTime.toNat : ℤ) > pindexLast.getBlockTime + nTargetSpacing * 2 then
        some nProofOfWorkLimit
      else some (lastNotSpecial nProofOfWorkLimit pindexLast).entry.nBits
    else some pindexLast.entry.nBits
  else
    let blockstogoback := if nHeight != nInterval then nInterval else nInterval - 1
    (pindexLast.chain[blockstogoback]?).map (retarget network pindexLast)

/-! ## Checks of the proof of work -/

def checkProofOfWork (network : Network) (hash : uint256) (nBits : UInt32) : Bool :=
  let bnTarget := setCompact nBits
  if bnTarget ≤ 0 || bnTarget > network.bnProofOfWorkLimit then false
  else !(getuint256 bnTarget < hash)

def checkAuxProofOfWork (env : Env) (block : CBlock) (nBits : UInt32) : Bool :=
  if !block.isAuxPow then
    checkProofOfWork env.network (block.toCPureBlockHeader.getPoWHash env.crypto) nBits
  else
    match block.auxpow with
    | none => false
    | some auxpow =>
      auxpow.check env.crypto (block.toCPureBlockHeader.getHash env.crypto)
          (getChainId block.nVersion)
        && checkProofOfWork env.network (auxpow.parentBlock.getPoWHash env.crypto) nBits

/-! ## Checks that need no chain -/

/-- `CTransaction::GetLegacySigOpCount`. -/
def CTransaction.getLegacySigOpCount (tx : CTransaction) : UInt32 :=
  (tx.vin.map (fun txin => getSigOpCount false txin.scriptSig)).sum
    + (tx.vout.map (fun txout => getSigOpCount false txout.scriptPubKey)).sum

namespace CBlock

def getHash (env : Env) (block : CBlock) : uint256 := block.toCPureBlockHeader.getHash env.crypto

def getBlockTime (block : CBlock) : ℤ := block.nTime.toNat

/-- The hashes of the transactions of a block. -/
def txids (env : Env) (block : CBlock) : List uint256 :=
  block.vtx.map (CTransaction.getHash env.crypto)

/-- `CBlock::CheckBlock` at an adjusted time. -/
def checkBlock (env : Env) (nAdjustedTime : ℤ) (block : CBlock) : Bool :=
  match block.vtx, block.getSerializeSize SER_NETWORK with
  | [], _ => false
  | _, none => false
  | coinbase :: rest, some nSize =>
    if block.vtx.length > MAX_BLOCK_SIZE.toNat || nSize > MAX_BLOCK_SIZE then false
    else if !checkAuxProofOfWork env block block.nBits then false
    else if block.getBlockTime > nAdjustedTime + 2 * 60 * 60 then false
    else if !coinbase.isCoinBase then false
    else if rest.any CTransaction.isCoinBase then false
    else if !block.vtx.all CTransaction.checkTransaction then false
    else if !decide (block.txids env).Nodup then false
    else if (block.vtx.map CTransaction.getLegacySigOpCount).sum > MAX_BLOCK_SIGOPS then false
    else block.hashMerkleRoot == block.buildMerkleTree env.crypto

/-- What a block that passed `CheckBlock` is known to satisfy. -/
structure Checked (env : Env) (block : CBlock) : Prop where
  work : checkAuxProofOfWork env block block.nBits = true
  exists_coinbase : ∃ coinbase rest, block.vtx = coinbase :: rest ∧ coinbase.isCoinBase = true
    ∧ ∀ tx ∈ rest, tx.isCoinBase = false
  checkTransaction : ∀ tx ∈ block.vtx, tx.checkTransaction = true
  nodup : (block.txids env).Nodup

theorem checked_of_checkBlock
    {env : Env} {nAdjustedTime : ℤ} {block : CBlock}
    (h : block.checkBlock env nAdjustedTime = true) :
  block.Checked env
  := by
  rw [checkBlock] at h
  split at h
  · cases h
  · cases h
  · rename_i coinbase rest nSize hvtx hsize
    split_ifs at h with hlimits hwork htime hfirst hothers hcheck hnodup hsigops
    constructor
    · simpa using hwork
    · refine ⟨coinbase, rest, hvtx, by simpa using hfirst, ?_⟩
      intro tx hmem
      by_contra hcoinbase
      exact hothers (List.any_eq_true.mpr ⟨tx, hmem, by simpa using hcoinbase⟩)
    · rw [Bool.not_eq_true', Bool.not_eq_false, List.all_eq_true] at hcheck
      apply hcheck
    · rw [Bool.not_eq_true', Bool.not_eq_false, decide_eq_true_iff] at hnodup
      apply hnodup

theorem buildMerkleTree_of_checkBlock
    {env : Env} {nAdjustedTime : ℤ} {block : CBlock}
    (h : block.checkBlock env nAdjustedTime = true) :
  block.hashMerkleRoot = block.buildMerkleTree env.crypto
  := by
  rw [checkBlock] at h
  split at h
  · cases h
  · cases h
  · split_ifs at h
    exact beq_iff_eq.mp h

/-- A block of the given transactions on top of another, with the largest target. -/
def assemble (env : Env) (hashPrevBlock : uint256) (nTime : UInt32) (vtx : List CTransaction) :
    CBlock where
  nVersion := CURRENT_VERSION
  hashPrevBlock := hashPrevBlock
  hashMerkleRoot := (vMerkleTree env.crypto vtx).getLast?.getD 0
  nTime := nTime
  nBits := getCompact env.network.bnProofOfWorkLimit
  nNonce := 0
  vtx := vtx
  auxpow := none

end CBlock

/-- A coinbase with the given bytes in its script, paying one amount to anyone. -/
def sampleCoinbase (bytes : Bytes) (nValue : Int64) : CTransaction :=
  ⟨1, [⟨COutPoint.null, bytes, 0xffffffff⟩], [⟨nValue, [0x51]⟩], 0⟩

/-- A transaction that spends the first output of another and pays an amount to anyone. -/
def sampleSpend (hash : uint256) (nValue : Int64) : CTransaction :=
  ⟨1, [⟨⟨hash, 0⟩, [0x51], 0xffffffff⟩], [⟨nValue, [0x51]⟩], 0⟩

end CorgiCoin
