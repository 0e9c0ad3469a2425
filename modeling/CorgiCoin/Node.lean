import CorgiCoin.BlockFile
import CorgiCoin.MemPool

/-!
# The node

The globals of `main.cpp` that hold the block index, the tip and the memory pool, together with
the database and the block files, and the functions that change them: `Reorganize`,
`SetBestChain`, `InvalidateBlock`, `ReconsiderBlock`, `AddToBlockIndex` and `AcceptBlock`.

A call returns the state it leaves and what it returned.  A database transaction that is
aborted or not committed leaves the database as it was.  Whatever may go wrong outside the
modelled code, reading a block or a step of a transaction, is decided by an `Io`.
-/

namespace CorgiCoin

open Std

/-! ## The first block -/

/-- `pszTimestamp`: "CorgiCoin Relaunch 2026 - The Return of the Short Chain". -/
def pszTimestamp : Bytes :=
  [ 0x43, 0x6f, 0x72, 0x67, 0x69, 0x43, 0x6f, 0x69, 0x6e, 0x20, 0x52, 0x65, 0x6c, 0x61, 0x75, 0x6e,
    0x63, 0x68, 0x20, 0x32, 0x30, 0x32, 0x36, 0x20, 0x2d, 0x20, 0x54, 0x68, 0x65, 0x20, 0x52, 0x65,
    0x74, 0x75, 0x72, 0x6e, 0x20, 0x6f, 0x66, 0x20, 0x74, 0x68, 0x65, 0x20, 0x53, 0x68, 0x6f, 0x72,
    0x74, 0x20, 0x43, 0x68, 0x61, 0x69, 0x6e ]

/-- The key the output of the first block pays to. -/
def genesisKey : Bytes :=
  [ 0x04, 0x01, 0x84, 0x71, 0x0f, 0xa6, 0x89, 0xad, 0x50, 0x23, 0x69, 0x0c, 0x80, 0xf3, 0xa4, 0x9c,
    0x8f, 0x13, 0xf8, 0xd4, 0x5b, 0x8c, 0x85, 0x7f, 0xbc, 0xbc, 0x8b, 0xc4, 0xa8, 0xe4, 0xd3, 0xeb,
    0x4b, 0x10, 0xf4, 0xd4, 0x60, 0x4f, 0xa0, 0x8d, 0xce, 0x60, 0x1a, 0xaf, 0x0f, 0x47, 0x02, 0x16,
    0xfe, 0x1b, 0x51, 0x85, 0x0b, 0x4a, 0xcf, 0x21, 0xb1, 0x79, 0xc4, 0x50, 0x70, 0xac, 0x7b, 0x03,
    0xa9 ]

/-- The transaction of the first block. -/
def genesisTx : CTransaction where
  nVersion := 1
  vin := [⟨COutPoint.null,
    pushUInt 486604799 ++ pushBigNum 4 ++ pushData pszTimestamp, 0xffffffff⟩]
  vout := [⟨88 * COIN, pushData genesisKey ++ [UInt8.ofNat OP_CHECKSIG]⟩]
  nLockTime := 0

/-- The first block of a network, as `LoadBlockIndex` builds it. -/
def genesisBlock (env : Env) : CBlock where
  nVersion := 1
  hashPrevBlock := 0
  hashMerkleRoot := (vMerkleTree env.crypto [genesisTx]).getLast?.getD 0
  nTime :=
    match env.network with
    | .main => 1774996800
    | .test => 1774996801
    | .regtest => 1774996802
  nBits :=
    match env.network with
    | .main => 0x1e0ffff0
    | .test => 0x1f00ffff
    | .regtest => 0x207fffff
  nNonce :=
    match env.network with
    | .main => 2580018
    | .test => 150043
    | .regtest => 0
  vtx := [genesisTx]
  auxpow := none

/-- `hashGenesisBlock`, which `LoadBlockIndex` asserts to be the hash of the first block. -/
def hashGenesisBlock (env : Env) : uint256 := (genesisBlock env).getHash env

/-! ## The state -/

/-- A block as it comes out of a message: its vectors are within the limits of the format, it
has a merged-mining proof exactly when its version says so, and it is no larger than a message
may be. -/
structure ReceivedBlock where
  block : CBlock
  fits : block.Fits
  present : block.AuxPowPresent
  size_le : (block.bytes SER_NETWORK).length ≤ MAX_SIZE

/-- A block of the regression-test network on top of another, with a coinbase that has the given
bytes in its script. -/
def sampleChild (hashPrevBlock : uint256) (nTime : UInt32) (bytes : Bytes) (nValue : Int64) :
    CBlock :=
  CBlock.assemble sampleEnv hashPrevBlock nTime [sampleCoinbase bytes nValue]

/-- The state of a node. -/
structure Node where
  mapBlockIndex : ExtTreeMap uint256 CBlockIndex compare
  /-- The `pnext` pointers that are not null, by the hash of the block they belong to. -/
  pnext : ExtTreeMap uint256 CBlockIndex compare
  /-- The blocks whose `fFailedChain` is set. -/
  failed : ExtTreeMap uint256 Unit compare
  setInvalidatedBlocks : ExtTreeMap uint256 Unit compare
  pindexGenesisBlock : Option CBlockIndex
  pindexBest : Option CBlockIndex
  hashBestChain : uint256
  nBestHeight : ℤ
  bnBestChainWork : ℤ
  bnBestInvalidWork : ℤ
  txdb : CTxDB
  files : BlockFiles
  mempool : CTxMemPool

/-- What a call gets from outside.  The functions are asked for the hash of a block. -/
structure Io where
  /-- `GetAdjustedTime` when a block is checked before it is accepted. -/
  nCheckTime : ℤ
  /-- `GetAdjustedTime` in `AcceptBlock`. -/
  nAcceptTime : ℤ
  /-- `GetAdjustedTime` when the block is connected. -/
  nAdjustedTime : uint256 → ℤ
  /-- There is disk space, and the block can be written. -/
  fDiskSpace : Bool
  /-- `ReadFromDisk` of the block works. -/
  reads : uint256 → Bool
  /-- `ReadFromDisk` of the candidate of `ActivateBestValidChain` works. -/
  readsCandidate : Bool
  /-- `TxnBegin` works when the chain is to be switched to the block. -/
  begins : uint256 → Bool
  /-- `TxnBegin` works when the block was postponed. -/
  beginsPostponed : uint256 → Bool
  /-- The writes made for the block work. -/
  writes : uint256 → Bool
  /-- `TxnCommit` works when the block is the new tip of the database. -/
  commits : uint256 → Bool
  /-- `TxnBegin` works when a block is added to the index. -/
  beginsIndex : Bool
  /-- The entry of the block is written. -/
  writesIndex : Bool
  /-- `TxnCommit` works when a block is added to the index. -/
  commitsIndex : Bool
  /-- `WriteInvalidatedSet` works. -/
  writesSet : Bool

/-- Nothing goes wrong, and the clock shows the same time throughout. -/
def Io.smooth (nTime : ℤ) : Io where
  nCheckTime := nTime
  nAcceptTime := nTime
  nAdjustedTime _ := nTime
  fDiskSpace := true
  reads _ := true
  readsCandidate := true
  begins _ := true
  beginsPostponed _ := true
  writes _ := true
  commits _ := true
  beginsIndex := true
  writesIndex := true
  commitsIndex := true
  writesSet := true

namespace CBlockIndex

/-- The inner loop of `Reorganize`: walk down until no higher than a height. -/
def descend (nHeight : ℕ) : CBlockIndex → Option CBlockIndex
  | first entry => some (first entry)
  | next entry pprev =>
    if (next entry pprev).nHeight > nHeight then descend nHeight pprev
    else some (next entry pprev)

/-- The loop of `Reorganize` that finds the fork. -/
def findFork : CBlockIndex → CBlockIndex → Option CBlockIndex
  | first entry, plonger =>
    if first entry = plonger then some plonger
    else do
      let plonger ← descend 0 plonger
      if first entry = plonger then some plonger else none
  | next entry pprev, plonger =>
    if next entry pprev = plonger then some plonger
    else do
      let plonger ← descend (next entry pprev).nHeight plonger
      if next entry pprev = plonger then some plonger else findFork pprev plonger

/-- The blocks from an entry down to, and without, another. -/
def branch (pindex pfork : CBlockIndex) : List CBlockIndex :=
  pindex.chain.takeWhile (fun p => p ≠ pfork)

/-- The loop of `SetBestChain` that postpones reconnects: the first block that has more work
than the best chain, and the blocks on top of it, the last first. -/
def postpone (bnBestWork : ℤ) : CBlockIndex → CBlockIndex × List CBlockIndex
  | first entry => (first entry, [])
  | next entry pprev =>
    if pprev.bnChainWork > bnBestWork then
      let rest := postpone bnBestWork pprev
      (rest.1, next entry pprev :: rest.2)
    else (next entry pprev, [])

end CBlockIndex

namespace Node

/-- Nothing goes wrong some time after the first block. -/
def sampleIo : Io := Io.smooth 1774999999

/-- A node that has loaded nothing. -/
def empty : Node where
  mapBlockIndex := ∅
  pnext := ∅
  failed := ∅
  setInvalidatedBlocks := ∅
  pindexGenesisBlock := none
  pindexBest := none
  hashBestChain := 0
  nBestHeight := -1
  bnBestChainWork := 0
  bnBestInvalidWork := 0
  txdb := CTxDB.empty
  files := BlockFiles.empty
  mempool := CTxMemPool.empty

def setFiles (node : Node) (files : BlockFiles) : Node := { node with files }

section Chain

variable (env : Env) (io : Io)

/-- What inputs are fetched from besides the database. -/
def reader (node : Node) : TxReader := ⟨node.files.readTx, node.mempool.mapTx⟩

def fFailedChain (node : Node) (pindex : CBlockIndex) : Bool :=
  node.failed.contains pindex.getBlockHash

/-- `CBlock::ReadFromDisk` of an entry. -/
def readFromDisk (node : Node) (pindex : CBlockIndex) : Option CBlock :=
  if io.reads pindex.getBlockHash then node.files.readFromDisk env pindex else none

/-- `InvalidChainFound`. -/
def invalidChainFound (node : Node) (pindexNew : CBlockIndex) : Node :=
  if pindexNew.bnChainWork > node.bnBestInvalidWork then
    { node with
      bnBestInvalidWork := pindexNew.bnChainWork
      txdb := { node.txdb with bnBestInvalidWork := pindexNew.bnChainWork } }
  else node

/-! ### Reorganize -/

/-- The body of the loop of `Reorganize` that disconnects: the database, and the transactions
to resurrect. -/
def disconnectStep (node : Node) (state : CTxDB × List CTransaction) (pindex : CBlockIndex) :
    Option (CTxDB × List CTransaction) := do
  let block ← node.readFromDisk env io pindex
  if !io.writes pindex.getBlockHash then none
  else do
    let txdb ← block.disconnectBlock env state.1 pindex
    return (txdb, state.2 ++ block.vtx.filter (fun tx => !tx.isCoinBase))

/-- The body of the loop of `Reorganize` that connects: the database, and the transactions to
delete from the memory pool. -/
def connectStep (node : Node) (state : CTxDB × List CTransaction) (pindex : CBlockIndex) :
    Option (CTxDB × List CTransaction) := do
  let block ← node.readFromDisk env io pindex
  if !io.writes pindex.getBlockHash then none
  else do
    let txdb ← block.connectBlock env node.reader (io.nAdjustedTime pindex.getBlockHash) state.1
      pindex
    return (txdb, state.2 ++ block.vtx)

/-- Clear the `pnext` pointer of the block before an entry. -/
def unlinkNext (pnext : ExtTreeMap uint256 CBlockIndex compare) (pindex : CBlockIndex) :
    ExtTreeMap uint256 CBlockIndex compare :=
  match pindex.pprev with
  | none => pnext
  | some pprev => pnext.erase pprev.getBlockHash

/-- Point the `pnext` pointer of the block before an entry to it. -/
def linkNext (pnext : ExtTreeMap uint256 CBlockIndex compare) (pindex : CBlockIndex) :
    ExtTreeMap uint256 CBlockIndex compare :=
  match pindex.pprev with
  | none => pnext
  | some pprev => pnext.insert pprev.getBlockHash pindex

/-- Put a transaction of a disconnected block back into the memory pool. -/
def resurrect (disk : CDiskTxPos → Option CTransaction) (txIndex : TxIndexMap)
    (pindexBest : CBlockIndex) (pool : CTxMemPool) (tx : CTransaction) : CTxMemPool :=
  (pool.accept env disk txIndex pindexBest tx false false).getD pool

/-- `Reorganize`, inside a transaction: the state after the commit, or `none` where it returns
false, which is before anything in memory changes. -/
def reorganize (node : Node) (pindexNew : CBlockIndex) : Option Node := do
  let pindexBest ← node.pindexBest
  let pfork ← pindexBest.findFork pindexNew
  let vDisconnect := pindexBest.branch pfork
  let vConnect := (pindexNew.branch pfork).reverse
  let (txdb, vResurrect) ← vDisconnect.foldlM (node.disconnectStep env io) (node.txdb, [])
  let (txdb, vDelete) ← vConnect.foldlM (node.connectStep env io) (txdb, [])
  if !io.writes pindexNew.getBlockHash || !io.commits pindexNew.getBlockHash then none
  else
    let txdb := txdb.writeHashBestChain pindexNew.getBlockHash
    let pool := vResurrect.foldl (resurrect env node.files.readTx txdb.txIndex pindexBest)
      node.mempool
    some { node with
      txdb := txdb
      pnext := vConnect.foldl linkNext (vDisconnect.foldl unlinkNext node.pnext)
      mempool := vDelete.foldl (CTxMemPool.remove env) pool }

/-! ### SetBestChain -/

/-- `CBlock::SetBestChainInner`, inside a transaction. -/
def setBestChainInner (node : Node) (block : CBlock) (pindexNew : CBlockIndex) : Node × Bool :=
  let hash := block.getHash env
  let connected :=
    if io.writes hash then
      block.connectBlock env node.reader (io.nAdjustedTime hash) node.txdb pindexNew
    else none
  match connected with
  | none => (node.invalidChainFound pindexNew, false)
  | some txdb =>
    if io.commits hash then
      ({ node with
          txdb := txdb.writeHashBestChain hash
          pnext := linkNext node.pnext pindexNew
          mempool := block.vtx.foldl (CTxMemPool.remove env) node.mempool }, true)
    else (node, false)

/-- The loop of `SetBestChain` over the postponed blocks, which stops at the first that cannot
be read or connected. -/
def connectPostponed : Node → List CBlockIndex → Node
  | node, [] => node
  | node, pindex :: rest =>
    match node.readFromDisk env io pindex with
    | none => node
    | some block =>
      if !io.beginsPostponed pindex.getBlockHash then node
      else
        let inner := node.setBestChainInner env io block pindex
        if inner.2 then connectPostponed inner.1 rest else inner.1

/-- The assignments to the globals of the tip. -/
def setTip (node : Node) (hash : uint256) (pindexNew : CBlockIndex) : Node :=
  { node with
    hashBestChain := hash
    pindexBest := some pindexNew
    nBestHeight := pindexNew.nHeight
    bnBestChainWork := pindexNew.bnChainWork }

/-- `CBlock::SetBestChain`. -/
def setBestChain (node : Node) (block : CBlock) (pindexNew : CBlockIndex) : Node × Bool :=
  let hash := block.getHash env
  if !io.begins hash then (node, false)
  else if node.pindexGenesisBlock.isNone && hash == hashGenesisBlock env then
    if io.commits hash then
      ({ node with
          txdb := node.txdb.writeHashBestChain hash
          pindexGenesisBlock := some pindexNew }.setTip hash pindexNew, true)
    else (node, false)
  else if block.hashPrevBlock == node.hashBestChain then
    let inner := node.setBestChainInner env io block pindexNew
    if inner.2 then (inner.1.setTip hash pindexNew, true) else (inner.1, false)
  else
    match node.pindexBest with
    | none => (node, false)
    | some pindexBest =>
      let postponed := pindexNew.postpone pindexBest.bnChainWork
      match node.reorganize env io postponed.1 with
      | none => (node.invalidChainFound pindexNew, false)
      | some node =>
        ((node.connectPostponed env io postponed.2.reverse).setTip hash pindexNew, true)

/-! ### Operator control -/

/-- The entries of the block index by height, ties in the order of their hashes. -/
def sortedByHeight (node : Node) : List CBlockIndex :=
  (node.mapBlockIndex.toList.map Prod.snd).insertionSort (fun p q => p.nHeight ≤ q.nHeight)

/-- The flag a block gets from the set of invalidated blocks and the flag of the block before
it. -/
def failedFlag (node : Node) (failed : ExtTreeMap uint256 Unit compare) (pindex : CBlockIndex) :
    Bool :=
  node.setInvalidatedBlocks.contains pindex.getBlockHash
    || match pindex.pprev with
      | none => false
      | some pprev => failed.contains pprev.getBlockHash

/-- Set or clear the flag of a block. -/
def setFlag (node : Node) (failed : ExtTreeMap uint256 Unit compare) (pindex : CBlockIndex) :
    ExtTreeMap uint256 Unit compare :=
  if node.failedFlag failed pindex then failed.insert pindex.getBlockHash ()
  else failed.erase pindex.getBlockHash

/-- `UpdateFailedChainFlags`. -/
def updateFailedChainFlags (node : Node) : Node :=
  { node with failed := node.sortedByHeight.foldl node.setFlag node.failed }

/-- `WriteInvalidatedSet` when it works. -/
def writeInvalidatedSet (node : Node) : Node :=
  { node with
    txdb := { node.txdb with vInvalidatedBlocks := node.setInvalidatedBlocks.keys } }

/-- The body of the loop of `ActivateBestValidChain`. -/
def betterCandidate (node : Node) (pindexCandidate pindex : CBlockIndex) : CBlockIndex :=
  if !node.fFailedChain pindex && pindex.bnChainWork > pindexCandidate.bnChainWork then pindex
  else pindexCandidate

/-- The loop of `ActivateBestValidChain` that looks for a candidate. -/
def bestCandidate (node : Node) (pindexBest : CBlockIndex) : CBlockIndex :=
  (node.mapBlockIndex.toList.map Prod.snd).foldl node.betterCandidate pindexBest

/-- `ActivateBestValidChain`. -/
def activateBestValidChain (node : Node) : Node × Bool :=
  match node.pindexBest with
  | none => (node, false)
  | some pindexBest =>
    let pindexCandidate := node.bestCandidate pindexBest
    if pindexCandidate = pindexBest then (node, true)
    else
      let block :=
        if io.readsCandidate then node.files.readFromDisk env pindexCandidate else none
      match block with
      | none => (node, false)
      | some block => node.setBestChain env io block pindexCandidate

/-- Mark a block as invalidated and update the flags. -/
def markInvalidated (node : Node) (pindex : CBlockIndex) : Node :=
  { node with
    setInvalidatedBlocks := node.setInvalidatedBlocks.insert pindex.getBlockHash () }
    |>.updateFailedChainFlags

/-- Take the mark of a block back and update the flags. -/
def unmarkInvalidated (node : Node) (pindex : CBlockIndex) : Node :=
  { node with
    setInvalidatedBlocks := node.setInvalidatedBlocks.erase pindex.getBlockHash }
    |>.updateFailedChainFlags

/-- The part of `InvalidateBlock` that rolls the chain back to the last block that is not
failed, `none` where it fails. -/
def rollBack (node : Node) : Option Node := do
  let pindexBest ← node.pindexBest
  if !node.fFailedChain pindexBest then some node
  else do
    let pindexNew ← pindexBest.chain.find? (fun pindex => !node.fFailedChain pindex)
    if !io.begins pindexNew.getBlockHash then none
    else do
      let node ← node.reorganize env io pindexNew
      some (node.setTip pindexNew.getBlockHash pindexNew)

/-- `InvalidateBlock`. -/
def invalidateBlock (node : Node) (pindex : CBlockIndex) : Node × Bool :=
  match pindex.pprev with
  | none => (node, false)
  | some _ =>
    let fWasInvalidated := node.setInvalidatedBlocks.contains pindex.getBlockHash
    let marked := node.markInvalidated pindex
    if !io.writesSet then
      if fWasInvalidated then (marked.updateFailedChainFlags, false)
      else (marked.unmarkInvalidated pindex, false)
    else
      let marked := marked.writeInvalidatedSet
      match marked.rollBack env io with
      | none => (marked, false)
      -- a branch that cannot be activated does not make the call fail
      | some node => ((node.activateBestValidChain env io).1, true)

/-- Take the marks of a block and of the blocks before it back and update the flags. -/
def unmarkChain (node : Node) (pindex : CBlockIndex) : Node :=
  { node with
    setInvalidatedBlocks := pindex.chain.foldl
      (fun set (p : CBlockIndex) => set.erase p.getBlockHash) node.setInvalidatedBlocks }
    |>.updateFailedChainFlags

/-- `ReconsiderBlock`. -/
def reconsiderBlock (node : Node) (pindex : CBlockIndex) : Node × Bool :=
  let unmarked := node.unmarkChain pindex
  if !io.writesSet then (unmarked, false)
  else unmarked.writeInvalidatedSet.activateBestValidChain env io

/-! ### Accepting blocks -/

/-- The entry of a block with a place on disk, below the entry of its previous block. -/
def newEntry (node : Node) (block : CBlock) (pos : BlockPos) : CBlockIndex :=
  let entry : BlockEntry :=
    ⟨block.getHash env, pos, block.nVersion, block.hashMerkleRoot, block.nTime, block.nBits,
      block.nNonce⟩
  match node.mapBlockIndex[block.hashPrevBlock]? with
  | none => .first entry
  | some pprev => .next entry pprev

/-- Insert an entry into the block index in memory, with its flag. -/
def insertEntry (node : Node) (pindexNew : CBlockIndex) : Node :=
  { node with
    mapBlockIndex := node.mapBlockIndex.insert pindexNew.getBlockHash pindexNew
    failed := node.setFlag node.failed pindexNew }

/-- Write an entry to the database. -/
def writeEntry (node : Node) (pindexNew : CBlockIndex) : Node :=
  { node with
    txdb := if io.writesIndex then node.txdb.writeBlockIndex pindexNew 0 else node.txdb }

/-- `CBlock::AddToBlockIndex`. -/
def addToBlockIndex (node : Node) (block : CBlock) (pos : BlockPos) : Node × Bool :=
  if node.mapBlockIndex.contains (block.getHash env) then (node, false)
  else
    let pindexNew := node.newEntry env block pos
    let node := node.insertEntry pindexNew
    if !io.beginsIndex || !io.commitsIndex then (node, false)
    else
      let node := node.writeEntry io pindexNew
      if pindexNew.bnChainWork > node.bnBestChainWork && !node.fFailedChain pindexNew then
        node.setBestChain env io block pindexNew
      else (node, true)

/-- `Checkpoints::CheckBlock`: the first block of the main network is the only checkpoint. -/
def checkpointsCheckBlock (nHeight : ℕ) (hash : uint256) : Bool :=
  env.network.fTestNet || nHeight != 0 || hash == hashGenesisBlock env

/-- The checks of `AcceptBlock` of a block on top of an entry. -/
def contextualCheck (node : Node) (block : CBlock) (pindexPrev : CBlockIndex) : Bool :=
  let nHeight := pindexPrev.nHeight + 1
  if some block.nBits ≠ getNextWorkRequired env.network pindexPrev block.nTime then false
  else if nHeight ≥ getAuxPowForkHeight env.network
      ∧ getChainId block.nVersion ≠ AUXPOW_CHAIN_ID then false
  else if nHeight < getAuxPowForkHeight env.network ∧ block.isAuxPow = true then false
  else if block.getBlockTime ≤ pindexPrev.getMedianTimePast then false
  else if nHeight ≥ getLwmaForkHeight env.network
      ∧ block.getBlockTime > io.nAcceptTime + LWMA_FUTURE_TIME_LIMIT then false
  else if !block.vtx.all (fun tx =>
      tx.isFinal node.nBestHeight io.nAcceptTime nHeight block.getBlockTime) then false
  else checkpointsCheckBlock env nHeight (block.getHash env)

/-- `CBlock::AcceptBlock`. -/
def acceptBlock (node : Node) (block : CBlock) : Node × Bool :=
  if node.mapBlockIndex.contains (block.getHash env) then (node, false)
  else
    match node.mapBlockIndex[block.hashPrevBlock]? with
    | none => (node, false)
    | some pindexPrev =>
      if !node.contextualCheck env io block pindexPrev then (node, false)
      else
        match (if io.fDiskSpace then node.files.writeToDisk env.network block else none) with
        | none => (node, false)
        | some (files, pos) => (node.setFiles files).addToBlockIndex env io block pos

/-- `LoadBlockIndex` on an empty data directory: the node it starts with, or `none` where it
fails. -/
def load : Option Node := do
  let (files, pos) ← BlockFiles.empty.writeToDisk env.network (genesisBlock env)
  let loaded := (empty.setFiles files).addToBlockIndex env io (genesisBlock env) pos
  if loaded.2 then some loaded.1 else none

end Chain

/-! ## Operations -/

/-- What happens to a node after it has started: blocks that passed `CheckBlock` are handed to
`AcceptBlock`, the operator invalidates and reconsiders blocks, and transactions are offered to
and removed from the memory pool. -/
inductive Op where
  | accept (io : Io) (received : ReceivedBlock)
  | invalidate (io : Io) (hash : uint256)
  | reconsider (io : Io) (hash : uint256)
  | acceptTx (tx : CTransaction) (fCheckInputs fRateLimited : Bool)
  | removeTx (tx : CTransaction)

/-- Offer a transaction to the memory pool. -/
def acceptTx (env : Env) (node : Node) (tx : CTransaction) (fCheckInputs fRateLimited : Bool) :
    Node :=
  match node.pindexBest with
  | none => node
  | some pindexBest =>
    { node with
      mempool := (node.mempool.accept env node.files.readTx node.txdb.txIndex pindexBest tx
        fCheckInputs fRateLimited).getD node.mempool }

/-- The state after an operation; blocks are invalidated and reconsidered by their hash. -/
def step (env : Env) (node : Node) : Op → Node
  | .accept io received =>
    if received.block.checkBlock env io.nCheckTime then
      (node.acceptBlock env io received.block).1
    else node
  | .invalidate io hash =>
    match node.mapBlockIndex[hash]? with
    | none => node
    | some pindex => (node.invalidateBlock env io pindex).1
  | .reconsider io hash =>
    match node.mapBlockIndex[hash]? with
    | none => node
    | some pindex => (node.reconsiderBlock env io pindex).1
  | .acceptTx tx fCheckInputs fRateLimited => node.acceptTx env tx fCheckInputs fRateLimited
  | .removeTx tx => { node with mempool := node.mempool.remove env tx }

end Node

end CorgiCoin
