import CorgiCoin.AuxPow
import Mathlib.Data.List.Sort
import CorgiCoin.Money

/-!
# The block index

An entry of the block index is created once, below the entry of its previous block, and from
then on only its `pnext` pointer and its `fFailedChain` flag change.  The two live in the state
of the node; what is left is an immutable chain of entries down to the first block, on which
the height, the chain work and the median time past are functions.
-/

namespace CorgiCoin

/-! ## The networks -/

/-- The network a node is started on. -/
inductive Network where
  | main
  | test
  | regtest
  deriving DecidableEq, Repr

namespace Network

/-- Regression-test nodes follow the rules of the test network. -/
def fTestNet : Network → Bool
  | main => false
  | test => true
  | regtest => true

def fRegTest : Network → Bool
  | regtest => true
  | _ => false

/-- `bnProofOfWorkLimit`. -/
def bnProofOfWorkLimit : Network → ℤ
  | main => ((2 ^ 256 - 1) >>> 20 : ℕ)
  | test => ((2 ^ 256 - 1) >>> 16 : ℕ)
  | regtest => ((2 ^ 256 - 1) >>> 1 : ℕ)

end Network

/-- What the node is given from outside the modelled code: the hash functions, the script
interpreter, the network and which scripts count as standard. -/
structure Env where
  crypto : Crypto
  evalScript : EvalScript
  network : Network
  /-- `IsStandard` of an output script. -/
  isStandardScript : CScript → Bool
  /-- The check `AreInputsStandard` makes of one input: the output it spends, the transaction
  and the position of the input. -/
  isStandardInput : CTxOut → CTransaction → ℕ → Bool

/-- A node of the regression-test network to evaluate definitions with. -/
def sampleEnv : Env where
  crypto := sampleCrypto
  evalScript := evalPushes
  network := .regtest
  isStandardScript _ := true
  isStandardInput _ _ _ := true

/-! ## Positions of blocks -/

/-- The place a block is stored at.  Files are numbered from one, the largest number stands
for no file, and the first record of a file starts with eight bytes of its own. -/
structure BlockPos where
  nFile : UInt32
  nBlockPos : UInt32
  one_le_nFile : 1 ≤ nFile
  nFile_ne : nFile ≠ 0xffffffff
  eight_le_nBlockPos : 8 ≤ nBlockPos
  deriving DecidableEq, Repr

/-- The place of the first block of the first file. -/
def BlockPos.first : BlockPos := ⟨1, 8, by decide, by decide, by decide⟩

/-! ## Entries -/

/-- The fields of a `CBlockIndex` that are its own. -/
structure BlockEntry where
  /-- `*phashBlock`. -/
  hash : uint256
  pos : BlockPos
  nVersion : Int32
  hashMerkleRoot : uint256
  nTime : UInt32
  nBits : UInt32
  nNonce : UInt32
  deriving DecidableEq, Repr

/-- An entry of the block index with the entries before it. -/
inductive CBlockIndex where
  /-- The first block, whose `pprev` is null. -/
  | first (entry : BlockEntry)
  /-- A block on top of another. -/
  | next (entry : BlockEntry) (pprev : CBlockIndex)
  deriving DecidableEq, Repr

namespace CBlockIndex

def entry : CBlockIndex → BlockEntry
  | first entry => entry
  | next entry _ => entry

def pprev : CBlockIndex → Option CBlockIndex
  | first _ => none
  | next _ pprev => some pprev

def getBlockHash (pindex : CBlockIndex) : uint256 := pindex.entry.hash

def nHeight : CBlockIndex → ℕ
  | first _ => 0
  | next _ pprev => pprev.nHeight + 1

def getBlockTime (pindex : CBlockIndex) : ℤ := pindex.entry.nTime.toNat

/-- `CBlockIndex::GetBlockWork`. -/
def getBlockWork (pindex : CBlockIndex) : ℤ :=
  let bnTarget := setCompact pindex.entry.nBits
  if bnTarget ≤ 0 then 0 else 2 ^ 256 / (bnTarget + 1)

/-- The work of a block and the blocks before it. -/
def bnChainWork : CBlockIndex → ℤ
  | first entry => (first entry).getBlockWork
  | next entry pprev => pprev.bnChainWork + (next entry pprev).getBlockWork

/-- An entry followed by the entries before it. -/
def chain : CBlockIndex → List CBlockIndex
  | first entry => [first entry]
  | next entry pprev => next entry pprev :: pprev.chain

def nMedianTimeSpan : ℕ := 11

/-- `CBlockIndex::GetMedianTimePast`. -/
def getMedianTimePast (pindex : CBlockIndex) : ℤ :=
  let pmedian := ((pindex.chain.take nMedianTimeSpan).map getBlockTime).insertionSort (· ≤ ·)
  pmedian[pmedian.length / 2]?.getD 0

/-- `CBlockIndex::GetBlockHeader`: the header is rebuilt from the entry, the other members are
those of an empty `CBlock`. -/
def getBlockHeader (pindex : CBlockIndex) : CBlock where
  nVersion := pindex.entry.nVersion
  hashPrevBlock := (pindex.pprev.map getBlockHash).getD 0
  hashMerkleRoot := pindex.entry.hashMerkleRoot
  nTime := pindex.entry.nTime
  nBits := pindex.entry.nBits
  nNonce := pindex.entry.nNonce
  auxpow := none
  vtx := []

/-! ### Chains -/

theorem mem_chain_self (pindex : CBlockIndex) :
  pindex ∈ pindex.chain
  := by
  cases pindex <;> apply List.mem_cons_self

theorem length_chain (pindex : CBlockIndex) :
  pindex.chain.length = pindex.nHeight + 1
  := by
  induction pindex with
  | first entry => rfl
  | next entry pprev ih => rw [chain, List.length_cons, ih, nHeight]

theorem mem_chain_trans
    {p q r : CBlockIndex} (hpq : p ∈ q.chain) (hqr : q ∈ r.chain) :
  p ∈ r.chain
  := by
  induction r with
  | first entry =>
    obtain rfl := List.mem_singleton.mp hqr
    apply hpq
  | next entry pprev ih =>
    rcases List.mem_cons.mp hqr with rfl | hqr
    · apply hpq
    · apply List.mem_cons_of_mem _ (ih hqr)

/-- Entries of a chain are no higher than its end. -/
theorem nHeight_le_of_mem_chain
    {p q : CBlockIndex} (h : p ∈ q.chain) :
  p.nHeight ≤ q.nHeight
  := by
  induction q with
  | first entry =>
    obtain rfl := List.mem_singleton.mp h
    apply le_rfl
  | next entry pprev ih =>
    rcases List.mem_cons.mp h with rfl | h
    · apply le_rfl
    · apply (ih h).trans (Nat.le_succ _)

/-- An entry of a chain as high as its end is its end. -/
theorem eq_of_mem_chain_of_nHeight
    {p q : CBlockIndex} (h : p ∈ q.chain) (hheight : p.nHeight = q.nHeight) :
  p = q
  := by
  cases q with
  | first entry => apply List.mem_singleton.mp h
  | next entry pprev =>
    rcases List.mem_cons.mp h with rfl | h
    · rfl
    · have hle := nHeight_le_of_mem_chain h
      rw [hheight, nHeight] at hle
      omega

/-- A chain is linear: two entries of it are on one chain. -/
theorem mem_chain_or_mem_chain
    {p q r : CBlockIndex} (hp : p ∈ r.chain) (hq : q ∈ r.chain) :
  p ∈ q.chain ∨ q ∈ p.chain
  := by
  induction r with
  | first entry =>
    obtain rfl := List.mem_singleton.mp hp
    obtain rfl := List.mem_singleton.mp hq
    left
    apply mem_chain_self
  | next entry pprev ih =>
    rcases List.mem_cons.mp hp with rfl | hp'
    · right
      apply hq
    · rcases List.mem_cons.mp hq with rfl | hq'
      · left
        apply hp
      · apply ih hp' hq'

end CBlockIndex

end CorgiCoin
