import CorgiCoin.NodeIndex

/-!
# Chains of any height

A node that accepts one block after the other, where blocks are told apart by their times alone:
the hash of a block is its time.  The blocks are accepted whatever the height is, so rules that
start at a height are reached without going through the blocks below it.
-/

namespace CorgiCoin

open Std Codec

/-- Hash functions to evaluate definitions with: the hash of a header is its time. -/
def rowCrypto : Crypto where
  hash bs := BitVec.ofNat 256 (ofLE ((bs.drop 68).take 4))
  scrypt _ := 0

/-- A node of the regression-test network with these hash functions. -/
def rowEnv : Env := { sampleEnv with crypto := rowCrypto }

theorem getHash_rowCrypto (header : CPureBlockHeader) :
  header.getHash rowCrypto = BitVec.ofNat 256 header.nTime.toNat
  := by
  have hfront : (serializeInt header.nVersion ++ (serializeUint256 header.hashPrevBlock
      ++ serializeUint256 header.hashMerkleRoot)).length = 68 := by
    simp [serializeInt, serializeUInt, serializeUint256]
  have hsplit : header.serialize = (serializeInt header.nVersion
      ++ (serializeUint256 header.hashPrevBlock ++ serializeUint256 header.hashMerkleRoot))
      ++ (toLE 4 header.nTime.toNat ++ (serializeUInt header.nBits ++ serializeUInt header.nNonce)) := by
    simp [CPureBlockHeader.serialize, serializeUInt]
  change BitVec.ofNat 256 (ofLE ((header.serialize.drop 68).take 4)) = _
  rw [hsplit, ← hfront, List.drop_left, List.take_left' (length_toLE 4 header.nTime.toNat),
    ofLE_toLE_of_lt]
  apply header.nTime.toNat_lt

/-- The time of the first block. -/
def rowTime (n : ℕ) : ℕ := 1774996802 + n

/-- The hash of the block of a height. -/
def rowHash (n : ℕ) : uint256 := BitVec.ofNat 256 (rowTime n)

/-- The block on top of a height. -/
def rowBlock (n : ℕ) : CBlock :=
  CBlock.assemble rowEnv (rowHash n) (UInt32.ofNat (rowTime (n + 1))) [sampleCoinbase [1, 1] 1000]

theorem isAuxPow_rowBlock (n : ℕ) :
  (rowBlock n).isAuxPow = false
  := by
  change isAuxPowVersion CBlock.CURRENT_VERSION = false
  decide

theorem length_bytes_rowBlock (n : ℕ) (nType : UInt32) :
  ((rowBlock n).bytes nType).length ≤ 300
  := by
  have hvtx : ((rowBlock n).vtxBytes nType).length ≤ 200 := by
    rw [CBlock.vtxBytes]
    split_ifs
    · change (serializeVector CTransaction.serialize [sampleCoinbase [1, 1] 1000]).length ≤ 200
      decide
    · exact Nat.zero_le _
  rw [CBlock.bytes_of_not_isAuxPow nType (isAuxPow_rowBlock n), List.length_append,
    CPureBlockHeader.length_serialize]
  omega

/-- The block on top of a height, as a message brings it. -/
def rowReceived (n : ℕ) : ReceivedBlock where
  block := rowBlock n
  fits := by
    have hvtx : (rowBlock n).vtx = [sampleCoinbase [1, 1] 1000] := rfl
    refine ⟨?_, ?_, fun _ hcontra => absurd hcontra (Option.not_mem_none _)⟩
    · rw [hvtx]
      decide
    · rw [hvtx]
      decide
  present := by
    rw [CBlock.AuxPowPresent, isAuxPow_rowBlock]
    rfl
  size_le := (length_bytes_rowBlock n SER_NETWORK).trans (by decide)

/-- The median of the times of a chain is no later than the latest. -/
theorem CBlockIndex.getMedianTimePast_le
    {pindex : CBlockIndex} {t : ℤ} (hnonneg : 0 ≤ t) (h : ∀ p ∈ pindex.chain, p.getBlockTime ≤ t) :
  pindex.getMedianTimePast ≤ t
  := by
  rw [getMedianTimePast]
  set pmedian := ((pindex.chain.take nMedianTimeSpan).map getBlockTime).insertionSort (· ≤ ·)
  cases hget : pmedian[pmedian.length / 2]? with
  | none => apply hnonneg
  | some time =>
    have hmem := List.mem_of_getElem? hget
    rw [List.mem_insertionSort, List.mem_map] at hmem
    obtain ⟨p, hp, rfl⟩ := hmem
    apply h p (List.mem_of_mem_take hp)

namespace Node

/-- A node whose highest block is the block of a height. -/
structure RowInv (n : ℕ) (node : Node) : Prop where
  indexed : node.Indexed rowEnv
  top : ∃ pindex, node.mapBlockIndex[rowHash n]? = some pindex ∧ pindex.nHeight = n
    ∧ ∀ p ∈ pindex.chain, p.getBlockTime ≤ rowTime n
  low : ∀ (hash : uint256) (pindex : CBlockIndex), node.mapBlockIndex[hash]? = some pindex →
    hash.toNat ≤ rowTime n
  file : node.files.nCurrentBlockFile = 1
  room : node.files.current.length ≤ 1000 * (n + 1)

/-- What makes a received block the next one. -/
structure RowNext (io : Io) (n : ℕ) (received : ReceivedBlock) : Prop where
  hashPrevBlock : received.block.hashPrevBlock = rowHash n
  nTime : received.block.nTime = UInt32.ofNat (rowTime (n + 1))
  nBits : received.block.nBits = getCompact Network.regtest.bnProofOfWorkLimit
  checked : received.block.checkBlock rowEnv io.nCheckTime = true
  chainId : n + 1 ≥ 200 → getChainId received.block.nVersion = AUXPOW_CHAIN_ID
  plain : n + 1 < 200 → received.block.isAuxPow = false
  early : (rowTime (n + 1) : ℤ) ≤ io.nAcceptTime + LWMA_FUTURE_TIME_LIMIT
  lockTime : ∀ tx ∈ received.block.vtx, tx.nLockTime = 0
  small : (received.block.bytes SER_DISK).length ≤ 900

/-- The next block is accepted. -/
theorem RowInv.accept
    {n : ℕ} {node : Node} {io : Io} {received : ReceivedBlock} (h : node.RowInv n)
    (hn : n < 1000) (hspace : io.fDiskSpace = true) (hnext : RowNext io n received) :
  (node.step rowEnv (.accept io received)).RowInv (n + 1)
    ∧ ∃ pindex, (node.step rowEnv (.accept io received)).mapBlockIndex[rowHash (n + 1)]?
        = some pindex
      ∧ pindex.entry.nVersion = received.block.nVersion
  := by
  have htime : (UInt32.ofNat (rowTime (n + 1))).toNat = rowTime (n + 1) := by
    rw [UInt32.toNat_ofNat_of_lt']
    simp only [rowTime, UInt32.size]
    omega
  have hhash : received.block.getHash rowEnv = rowHash (n + 1) := by
    change received.block.toCPureBlockHeader.getHash rowCrypto = _
    rw [getHash_rowCrypto, hnext.nTime, htime]
    rfl
  have htoNat : (rowHash (n + 1)).toNat = rowTime (n + 1) := by
    rw [rowHash, BitVec.toNat_ofNat, Nat.mod_eq_of_lt]
    rw [rowTime]
    omega
  obtain ⟨pprev, hpprev, hheight, htimes⟩ := h.top
  have hnew : node.mapBlockIndex[received.block.getHash rowEnv]? = none := by
    rw [hhash]
    by_contra hne
    obtain ⟨pindex, hget⟩ := Option.ne_none_iff_exists'.mp hne
    have hle := h.low _ _ hget
    rw [htoNat, rowTime, rowTime] at hle
    omega
  have hblockTime : received.block.getBlockTime = rowTime (n + 1) := by
    rw [CBlock.getBlockTime, hnext.nTime, htime]
  have hroom : node.files.HasRoom := by
    constructor
    · rw [h.file]
      decide
    · have hmax : MAX_SIZE = 0x02000000 := rfl
      have hlength := h.room
      omega
  have hcontext : node.contextualCheck rowEnv io received.block pprev = true := by
    have hwork : getNextWorkRequired rowEnv.network pprev received.block.nTime
        = some received.block.nBits := by
      rw [hnext.nBits]
      rfl
    have hmedian : pprev.getMedianTimePast < received.block.getBlockTime := by
      have hle := CBlockIndex.getMedianTimePast_le (Int.natCast_nonneg _) htimes
      rw [hblockTime]
      rw [rowTime] at hle ⊢
      omega
    have hfinal : received.block.vtx.all (fun tx => tx.isFinal node.nBestHeight io.nAcceptTime
        (pprev.nHeight + 1 : ℕ) received.block.getBlockTime) = true := by
      rw [List.all_eq_true]
      intro tx htx
      rw [CTransaction.isFinal, hnext.lockTime tx htx]
      rfl
    have hchainId : ¬(n + 1 ≥ getAuxPowForkHeight rowEnv.network
        ∧ getChainId received.block.nVersion ≠ AUXPOW_CHAIN_ID) :=
      fun hwrong => hwrong.2 (hnext.chainId hwrong.1)
    have hplain : ¬(n + 1 < getAuxPowForkHeight rowEnv.network ∧ received.block.isAuxPow = true) :=
      fun hwrong => absurd hwrong.2 (by rw [hnext.plain hwrong.1]; decide)
    have hearly : ¬(n + 1 ≥ getLwmaForkHeight rowEnv.network
        ∧ received.block.getBlockTime > io.nAcceptTime + LWMA_FUTURE_TIME_LIMIT) := by
      rw [hblockTime]
      exact fun hwrong => absurd hwrong.2 (Int.not_lt.mpr hnext.early)
    rw [hheight] at hfinal
    rw [contextualCheck]
    simp only [hwork, hheight, ne_eq, not_true_eq_false, if_false]
    rw [if_neg hchainId, if_neg hplain, if_neg (Int.not_le.mpr hmedian), if_neg hearly, hfinal]
    rfl
  rw [← hnext.hashPrevBlock] at hpprev
  obtain ⟨files, pos, hwrite, hfile, hlength⟩ :=
    BlockFiles.exists_writeToDisk hroom rowEnv.network received.present
  have hinserts := h.indexed.inserts hnext.checked hspace hpprev hnew hcontext hwrite
  have hstore := hinserts.sameStore
  have hself := getElem?_insertEntry_self (node.setFiles files)
    (.next (blockEntry rowEnv received.block pos) pprev)
  have hkey : (CBlockIndex.next (blockEntry rowEnv received.block pos) pprev).getBlockHash
      = rowHash (n + 1) := hhash
  rw [hkey, ← hstore.mapBlockIndex] at hself
  refine ⟨⟨h.indexed.step _, ⟨_, hself, ?_, ?_⟩, ?_, ?_, ?_⟩, _, hself, rfl⟩
  · rw [CBlockIndex.nHeight, hheight]
  · intro p hp
    rcases List.mem_cons.mp hp with rfl | hp
    · rw [CBlockIndex.getBlockTime]
      change ((received.block.nTime.toNat : ℕ) : ℤ) ≤ rowTime (n + 1)
      rw [hnext.nTime, htime]
    · have hle := htimes p hp
      rw [rowTime] at hle ⊢
      omega
  · intro hash pindex hget
    rw [hstore.mapBlockIndex] at hget
    change (node.mapBlockIndex.insert (received.block.getHash rowEnv) _)[hash]? = _ at hget
    rw [TreeMap.getElem?_insert_ite] at hget
    split_ifs at hget with heq
    · rw [← heq, hhash, htoNat]
    · have hle := h.low hash pindex hget
      rw [rowTime] at hle ⊢
      omega
  · rw [hstore.files]
    exact hfile.trans h.file
  · rw [hstore.files]
    change files.current.length ≤ _
    have hsmall := hnext.small
    have hbefore := h.room
    omega

/-- The block on top of a height passes the checks that need no chain. -/
theorem checkBlock_rowBlock
    {n : ℕ} {t : ℤ} (hn : n < 1000) (ht : (rowTime (n + 1) : ℤ) ≤ t + 2 * 60 * 60) :
  (rowBlock n).checkBlock rowEnv t = true
  := by
  -- the height matters to the time alone
  have hvtx : (rowBlock n).vtx = [sampleCoinbase [1, 1] 1000] := rfl
  have hsize : (rowBlock n).getSerializeSize SER_NETWORK = some (80 + 0
      + getSerializeSizeVector CTransaction.getSerializeSize [sampleCoinbase [1, 1] 1000]) := by
    have hversion : isAuxPowVersion (rowBlock n).nVersion = false := isAuxPow_rowBlock n
    rw [CBlock.getSerializeSize, hvtx, CBlock.carriesAuxPow, hversion]
    rfl
  have hwork : checkAuxProofOfWork rowEnv (rowBlock n) (rowBlock n).nBits = true := by
    rw [checkAuxProofOfWork, isAuxPow_rowBlock, Bool.not_false, if_pos rfl]
    change checkProofOfWork .regtest 0 (getCompact Network.regtest.bnProofOfWorkLimit) = true
    decide
  have htime : ¬(rowBlock n).getBlockTime > t + 2 * 60 * 60 := by
    have hblockTime : (rowBlock n).getBlockTime = rowTime (n + 1) := by
      change ((UInt32.ofNat (rowTime (n + 1))).toNat : ℤ) = _
      rw [UInt32.toNat_ofNat_of_lt']
      simp only [rowTime, UInt32.size]
      omega
    rw [hblockTime]
    exact Int.not_lt.mpr ht
  have hids : (rowBlock n).txids rowEnv = [(sampleCoinbase [1, 1] 1000).getHash rowCrypto] := rfl
  have hroot : (rowBlock n).hashMerkleRoot = (rowBlock n).buildMerkleTree rowEnv.crypto := rfl
  rw [CBlock.checkBlock]
  simp only [hvtx, hsize, hwork, hids, ← hroot, beq_self_eq_true]
  rw [if_neg (by decide), if_neg (by decide), if_neg htime, if_neg (by decide), if_neg (by decide),
    if_neg (by decide), if_neg (by simp), if_neg (by decide)]

/-- The block on top of a height is the next one, below the height of the first proofs. -/
theorem rowNext_rowReceived
    {n : ℕ} (hn : n + 1 < 200) :
  RowNext sampleIo n (rowReceived n)
  := by
  have htime : (rowTime (n + 1) : ℤ) ≤ 1774999999 := by
    rw [rowTime]
    omega
  have hlimit : LWMA_FUTURE_TIME_LIMIT = 300 := rfl
  refine ⟨rfl, rfl, rfl, checkBlock_rowBlock (by omega) ?_, fun hge => absurd hge (by omega),
    fun _ => isAuxPow_rowBlock n, ?_, ?_, (length_bytes_rowBlock n SER_DISK).trans (by decide)⟩
  · change _ ≤ (1774999999 : ℤ) + _
    omega
  · change _ ≤ (1774999999 : ℤ) + _
    omega
  · intro tx htx
    obtain rfl := List.mem_singleton.mp htx
    rfl

/-- The blocks up to a height are accepted one after the other. -/
def rowOps (n : ℕ) : List Op := (List.range n).map (fun i => .accept sampleIo (rowReceived i))

theorem exists_rowInv_zero :
  ∃ start, load rowEnv sampleIo = some start ∧ start.RowInv 0
  := by
  have heval : (load rowEnv sampleIo).map (fun start =>
      (start.files.nCurrentBlockFile, decide (start.files.current.length ≤ 1000),
        start.pindexBest.map CBlockIndex.getBlockTime))
      = some (1, true, some 1774996802) := by
    decide +kernel
  obtain ⟨start, hload, hvalue⟩ := Option.map_eq_some_iff.mp heval
  simp only [Prod.mk.injEq, decide_eq_true_eq] at hvalue
  obtain ⟨hfile, hlength, htime⟩ := hvalue
  obtain ⟨entry, hstarted⟩ := started_of_load hload
  have hhash : entry.hash = rowHash 0 := by
    rw [hstarted.hash_eq]
    apply getHash_rowCrypto
  rw [hstarted.tip.pindexBest, Option.map_some, Option.some.injEq] at htime
  refine ⟨start, hload, hstarted.indexed, ⟨.first entry, ?_, rfl, ?_⟩, ?_, hfile, ?_⟩
  · exact (hstarted.mapBlockIndex _ _).mpr ⟨hhash, rfl⟩
  · intro p hp
    obtain rfl := List.mem_singleton.mp hp
    rw [htime]
    exact le_rfl
  · intro hash pindex hget
    obtain ⟨rfl, -⟩ := (hstarted.mapBlockIndex hash pindex).mp hget
    rw [hhash]
    decide
  · simpa using hlength

theorem RowInv.run
    {start : Node} (h : start.RowInv 0) {n : ℕ} (hn : n < 200) :
  (Transition.run (step rowEnv) start (rowOps n)).RowInv n
  := by
  induction n with
  | zero => apply h
  | succ n ih =>
    have hops : rowOps (n + 1) = rowOps n ++ [.accept sampleIo (rowReceived n)] := by
      rw [rowOps, rowOps, List.range_succ, List.map_append]
      rfl
    rw [hops, Transition.run_append]
    apply ((ih (by omega)).accept (by omega) rfl (rowNext_rowReceived hn)).1

end Node

end CorgiCoin
