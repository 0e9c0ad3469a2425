import CorgiCoin.Inputs

/-!
# Connecting and disconnecting blocks

`ConnectBlock` runs through the transactions of a block with a map of queued index changes and
writes the map in the end; `DisconnectBlock` runs through them backwards on the index itself.
A block that connects has the effect of `addTx` for each of its transactions, in order, and
`TxsConnect` says what was checked on the way.
-/

namespace CorgiCoin

open Std

/-! ## Definitions -/

def nBIP30SwitchTime : ℤ := 1349049600
def nBIP16SwitchTime : ℤ := 1349049600

/-- What the loop of `ConnectBlock` carries from transaction to transaction. -/
structure ConnectState where
  mapQueuedChanges : TxIndexMap
  nFees : Int64
  nSigOps : UInt32
  nTxPos : UInt32

/-- A transaction is in the index with an output that is not spent. -/
def overwritesUnspent (txIndex : TxIndexMap) (hashTx : uint256) : Bool :=
  match txIndex[hashTx]? with
  | none => false
  | some txindexOld => txindexOld.vSpent.any CDiskTxPos.isNull

/-- The position of a transaction at an offset of the file of a block. -/
def BlockPos.txPos (pos : BlockPos) (nTxPos : UInt32) : CDiskTxPos :=
  ⟨pos.nFile, pos.nBlockPos, nTxPos⟩

/-- The signature operations of pay-to-script-hash inputs, counted once the rule is in force. -/
def strictSigOpCount (fStrictPayToScriptHash : Bool) (mapInputs : MapPrevTx)
    (tx : CTransaction) : Option UInt32 :=
  if fStrictPayToScriptHash then tx.getP2SHSigOpCount mapInputs else some 0

/-- The body of the loop of `ConnectBlock`. -/
def connectTx (env : Env) (reader : TxReader) (txIndex : TxIndexMap) (pindex : CBlockIndex)
    (fEnforceBIP30 fStrictPayToScriptHash : Bool) (state : ConnectState) (tx : CTransaction) :
    Option ConnectState :=
  let hashTx := tx.getHash env.crypto
  if fEnforceBIP30 && overwritesUnspent txIndex hashTx then none
  else
    let nSigOps := state.nSigOps + tx.getLegacySigOpCount
    if nSigOps > MAX_BLOCK_SIGOPS then none
    else
      let posThisTx := pindex.entry.pos.txPos state.nTxPos
      let nTxPos := state.nTxPos + tx.getSerializeSize
      let txindexNew := CTxIndex.unspent posThisTx tx.vout.length
      if tx.isCoinBase then
        some ⟨state.mapQueuedChanges.insert hashTx txindexNew, state.nFees, nSigOps, nTxPos⟩
      else
        match tx.fetchInputs reader txIndex state.mapQueuedChanges true false with
        | .error _ => none
        | .ok mapInputs => do
          let nP2SHSigOps ← strictSigOpCount fStrictPayToScriptHash mapInputs tx
          let nSigOps := nSigOps + nP2SHSigOps
          if nSigOps > MAX_BLOCK_SIGOPS then none
          else
            let nValueIn ← tx.getValueIn mapInputs
            let nValueOut ← tx.getValueOut
            let mapQueuedChanges ← tx.connectInputs env mapInputs state.mapQueuedChanges
              posThisTx pindex true false fStrictPayToScriptHash
            some ⟨mapQueuedChanges.insert hashTx txindexNew,
              state.nFees + (nValueIn - nValueOut), nSigOps, nTxPos⟩

/-- The offset of the first transaction of a block in its file. -/
def CBlock.txStart (block : CBlock) (pos : BlockPos) : Option UInt32 :=
  (block.getSerializeSize (SER_DISK ||| SER_BLOCKHEADERONLY)).map (fun nHeader =>
    pos.nBlockPos + nHeader + getSizeOfCompactSize block.vtx.length)

/-- Update the entry of the previous block on disk. -/
def CTxDB.linkPrev (txdb : CTxDB) (pindex : CBlockIndex) (hashNext : uint256) : CTxDB :=
  match pindex.pprev with
  | none => txdb
  | some pprev => txdb.writeBlockIndex pprev hashNext

/-- `GetBlockHash` of the previous block, zero for the first block. -/
def CBlockIndex.prevHash (pindex : CBlockIndex) : uint256 :=
  (pindex.pprev.map CBlockIndex.getBlockHash).getD 0

/-- `CBlock::ConnectBlock` at an adjusted time: the database after it, or `none` where it
returns false. -/
def CBlock.connectBlock (env : Env) (reader : TxReader) (nAdjustedTime : ℤ) (txdb : CTxDB)
    (pindex : CBlockIndex) (block : CBlock) : Option CTxDB :=
  if !block.checkBlock env nAdjustedTime then none
  else do
    let fEnforceBIP30 : Bool := pindex.getBlockTime > nBIP30SwitchTime
    let fStrictPayToScriptHash : Bool := pindex.getBlockTime ≥ nBIP16SwitchTime
    let nTxPos ← block.txStart pindex.entry.pos
    let state ← block.vtx.foldlM
      (connectTx env reader txdb.txIndex pindex fEnforceBIP30 fStrictPayToScriptHash)
      ⟨∅, 0, 0, nTxPos⟩
    let txdb := { txdb with txIndex := TreeMap.overlay txdb.txIndex state.mapQueuedChanges }
    let nBlockReward := getBlockValue pindex.nHeight state.nFees pindex.prevHash
    let coinbase ← block.vtx.head?
    let nValueOut ← coinbase.getValueOut
    if nValueOut > nBlockReward then none
    else some (txdb.linkPrev pindex pindex.getBlockHash)

/-- `CBlock::DisconnectBlock`. -/
def CBlock.disconnectBlock (env : Env) (txdb : CTxDB) (pindex : CBlockIndex) (block : CBlock) :
    Option CTxDB :=
  (block.vtx.reverse.foldlM (CTransaction.disconnectInputs env) txdb.txIndex).map
    (fun txIndex => { txdb with txIndex }.linkPrev pindex 0)

@[simp]
theorem CTxDB.linkPrev_txIndex (txdb : CTxDB) (pindex : CBlockIndex) (hashNext : uint256) :
  (txdb.linkPrev pindex hashNext).txIndex = txdb.txIndex
  := by
  rw [linkPrev]
  split <;> rfl

/-! ## The effect of a block -/

/-- The positions of the transactions of a block, the first being at an offset. -/
def txPositions (pos : BlockPos) : UInt32 → List CTransaction → List (CDiskTxPos × CTransaction)
  | _, [] => []
  | nTxPos, tx :: vtx =>
    (pos.txPos nTxPos, tx) :: txPositions pos (nTxPos + tx.getSerializeSize) vtx

/-- The transactions of a block with the positions they are indexed at. -/
def CBlock.placed (block : CBlock) (pos : BlockPos) : List (CDiskTxPos × CTransaction) :=
  txPositions pos ((block.txStart pos).getD 0) block.vtx

theorem map_snd_txPositions (pos : BlockPos) (nTxPos : UInt32) (vtx : List CTransaction) :
  (txPositions pos nTxPos vtx).map Prod.snd = vtx
  := by
  induction vtx generalizing nTxPos with
  | nil => rfl
  | cons tx vtx ih => rw [txPositions, List.map_cons, ih]

theorem mem_txPositions
    {pos : BlockPos} {nTxPos : UInt32} {vtx : List CTransaction}
    {placed : CDiskTxPos × CTransaction} (h : placed ∈ txPositions pos nTxPos vtx) :
  placed.2 ∈ vtx ∧ ∃ n, placed.1 = pos.txPos n
  := by
  induction vtx generalizing nTxPos with
  | nil => cases h
  | cons tx vtx ih =>
    rcases List.mem_cons.mp h with rfl | h
    · exact ⟨List.mem_cons_self, nTxPos, rfl⟩
    · obtain ⟨hmem, hpos⟩ := ih h
      exact ⟨List.mem_cons_of_mem _ hmem, hpos⟩

/-- Transactions in blocks are never at the position that stands for the memory pool. -/
theorem BlockPos.txPos_ne_pool (pos : BlockPos) (nTxPos : UInt32) :
  pos.txPos nTxPos ≠ CDiskTxPos.pool
  := by
  intro h
  have height := pos.eight_le_nBlockPos
  rw [(CDiskTxPos.mk.inj h).2.1] at height
  exact absurd height (by decide)

theorem BlockPos.isNull_txPos (pos : BlockPos) (nTxPos : UInt32) :
  (pos.txPos nTxPos).isNull = false
  := by
  rw [CDiskTxPos.isNull, txPos]
  simpa using pos.nFile_ne

/-- The index after a transaction: the outputs it spends are marked, its own are unspent. -/
def addTx (env : Env) (index : TxIndexMap) (placed : CDiskTxPos × CTransaction) : TxIndexMap :=
  (setSlots placed.1 index placed.2.prevouts).insert (placed.2.getHash env.crypto)
    (CTxIndex.unspent placed.1 placed.2.vout.length)

/-- The fee of a transaction in an index, over the integers. -/
def txFee (reader : TxReader) (index : TxIndexMap) (tx : CTransaction) : ℤ :=
  if tx.isCoinBase then 0 else (tx.prevouts.map (inputValue reader index)).sum - tx.valueOut

section Effect

variable (env : Env) (reader : TxReader) (fStrict : Bool) (pindex : CBlockIndex)

/-- The transactions connect one after the other, each in the index the ones before it left. -/
def TxsConnect : TxIndexMap → List (CDiskTxPos × CTransaction) → Prop
  | _, [] => True
  | index, placed :: rest =>
    (placed.2.isCoinBase = false → ∃ nValueIn nValueOut,
        TxConnects env reader fStrict pindex index placed.2 nValueIn nValueOut)
      ∧ TxsConnect (addTx env index placed) rest

/-- The fees of the transactions of a block. -/
def totalFees : TxIndexMap → List (CDiskTxPos × CTransaction) → ℤ
  | _, [] => 0
  | index, placed :: rest =>
    txFee reader index placed.2 + totalFees (addTx env index placed) rest

end Effect

/-! ## The loop -/

section Loop

variable {env : Env} {reader : TxReader} {txIndex : TxIndexMap} {pindex : CBlockIndex}
  {fEnforceBIP30 fStrict : Bool}

/-- The fee of a transaction that passed its checks is an amount. -/
theorem TxConnects.toInt_fee
    {index : TxIndexMap} {tx : CTransaction} {nValueIn nValueOut : Int64}
    (hcoinbase : tx.isCoinBase = false)
    (h : TxConnects env reader fStrict pindex index tx nValueIn nValueOut) :
  (nValueIn - nValueOut).toInt = txFee reader index tx ∧ 0 ≤ txFee reader index tx
  := by
  obtain ⟨hin, hsum⟩ := checkInputs_eq_some moneyRange_zero h.tally
  obtain ⟨-, hout, hvalue⟩ := CTransaction.getValueOut_eq_some h.getValueOut
  obtain ⟨hfee, hnonneg⟩ := CorgiCoin.toInt_fee hin hout h.fee
  have htxFee : txFee reader index tx = nValueIn.toInt - nValueOut.toInt := by
    rw [txFee, hcoinbase, CTransaction.prevouts, hcoinbase, hsum, hvalue]
    simp
  rw [htxFee]
  exact ⟨hfee, hnonneg⟩

/-- One transaction of the loop. -/
theorem connectTx_eq_some
    {state state' : ConnectState} {tx : CTransaction} (hchecked : tx.Checked)
    (h : connectTx env reader txIndex pindex fEnforceBIP30 fStrict state tx = some state') :
  (fEnforceBIP30 = true → overwritesUnspent txIndex (tx.getHash env.crypto) = false)
    ∧ (tx.isCoinBase = false → ∃ nValueIn nValueOut,
      TxConnects env reader fStrict pindex
        (TreeMap.overlay txIndex state.mapQueuedChanges) tx nValueIn nValueOut)
    ∧ TreeMap.overlay txIndex state'.mapQueuedChanges
      = addTx env (TreeMap.overlay txIndex state.mapQueuedChanges)
          (pindex.entry.pos.txPos state.nTxPos, tx)
    ∧ state'.nFees = state.nFees
      + Int64.ofInt (txFee reader (TreeMap.overlay txIndex state.mapQueuedChanges) tx)
    ∧ state'.nTxPos = state.nTxPos + tx.getSerializeSize
  := by
  rw [connectTx] at h
  simp only [Option.bind_eq_bind] at h
  split_ifs at h with hbip30 hsigops hcoinbase
  · -- a coinbase
    obtain rfl := Option.some.inj h
    refine ⟨?_, ?_, ?_, ?_, rfl⟩
    · simpa using hbip30
    · intro hnot
      rw [hcoinbase] at hnot
      cases hnot
    · rw [TreeMap.overlay_insert, addTx, CTransaction.prevouts, if_pos hcoinbase]
      rfl
    · rw [txFee, if_pos hcoinbase]
      simp
  · -- a transaction that spends
    have hspends := Bool.eq_false_of_not_eq_true hcoinbase
    split at h
    · cases h
    · rename_i mapInputs hfetch
      obtain ⟨nP2SH, -, h⟩ := Option.bind_eq_some_iff.mp h
      split_ifs at h with hp2sh
      obtain ⟨nValueIn, hin, h⟩ := Option.bind_eq_some_iff.mp h
      obtain ⟨nValueOut, hout, h⟩ := Option.bind_eq_some_iff.mp h
      obtain ⟨mapNew, hconnect, h⟩ := Option.bind_eq_some_iff.mp h
      obtain rfl := Option.some.inj h
      obtain ⟨nValueIn', nValueOut', hconnects, hin', hoverlay⟩ :=
        connectInputs_eq_some rfl hspends hchecked.nodup hfetch hconnect
      obtain rfl : nValueIn' = nValueIn := Option.some.inj (hin'.symm.trans hin)
      obtain rfl : nValueOut' = nValueOut := Option.some.inj (hconnects.getValueOut.symm.trans hout)
      refine ⟨?_, fun _ => ⟨_, _, hconnects⟩, ?_, ?_, rfl⟩
      · simpa using hbip30
      · rw [TreeMap.overlay_insert, hoverlay, addTx, CTransaction.prevouts, if_neg hcoinbase]
      · rw [← (hconnects.toInt_fee hspends).1, Int64.ofInt_toInt]

/-- The loop of `ConnectBlock` over transactions that passed `CheckTransaction`. -/
theorem foldlM_connectTx
    {vtx : List CTransaction} {state state' : ConnectState}
    (hchecked : ∀ tx ∈ vtx, tx.Checked)
    (h : vtx.foldlM (connectTx env reader txIndex pindex fEnforceBIP30 fStrict) state
      = some state') :
  (fEnforceBIP30 = true → ∀ tx ∈ vtx, overwritesUnspent txIndex (tx.getHash env.crypto) = false)
    ∧ TxsConnect env reader fStrict pindex (TreeMap.overlay txIndex state.mapQueuedChanges)
      (txPositions pindex.entry.pos state.nTxPos vtx)
    ∧ TreeMap.overlay txIndex state'.mapQueuedChanges
      = (txPositions pindex.entry.pos state.nTxPos vtx).foldl (addTx env)
          (TreeMap.overlay txIndex state.mapQueuedChanges)
    ∧ state'.nFees = state.nFees
      + Int64.ofInt (totalFees env reader (TreeMap.overlay txIndex state.mapQueuedChanges)
          (txPositions pindex.entry.pos state.nTxPos vtx))
  := by
  induction vtx generalizing state with
  | nil =>
    obtain rfl := Option.some.inj h
    refine ⟨fun _ _ hmem => absurd hmem List.not_mem_nil, trivial, rfl, ?_⟩
    simp [txPositions, totalFees]
  | cons tx vtx ih =>
    rw [List.foldlM_cons, Option.bind_eq_bind, Option.bind_eq_some_iff] at h
    obtain ⟨stateMid, hstep, hrest⟩ := h
    obtain ⟨htx, hvtx⟩ := List.forall_mem_cons.mp hchecked
    obtain ⟨hbip30, hconnects, hoverlay, hfees, hpos⟩ := connectTx_eq_some htx hstep
    obtain ⟨hbip30s, hrestConnects, hrestOverlay, hrestFees⟩ := ih hvtx hrest
    rw [hoverlay, hpos] at hrestConnects hrestOverlay hrestFees
    refine ⟨fun henforce => List.forall_mem_cons.mpr ⟨hbip30 henforce, hbip30s henforce⟩,
      ⟨hconnects, hrestConnects⟩, hrestOverlay, ?_⟩
    rw [hrestFees, hfees, txPositions, totalFees, Int64.ofInt_add, Int64.add_assoc]

end Loop

/-! ## Connecting -/

/-- What a block that `ConnectBlock` accepted is known to satisfy. -/
structure BlockConnects (env : Env) (reader : TxReader) (txdb : CTxDB) (pindex : CBlockIndex)
    (block : CBlock) (txdb' : CTxDB) : Prop where
  checked : block.Checked env
  txStart_ne_none : block.txStart pindex.entry.pos ≠ none
  notOverwrites : pindex.getBlockTime > nBIP30SwitchTime → ∀ tx ∈ block.vtx,
    overwritesUnspent txdb.txIndex (tx.getHash env.crypto) = false
  txsConnect : TxsConnect env reader (decide (pindex.getBlockTime ≥ nBIP16SwitchTime)) pindex
    txdb.txIndex (block.placed pindex.entry.pos)
  reward : ∃ coinbase nValueOut, block.vtx.head? = some coinbase
    ∧ coinbase.getValueOut = some nValueOut
    ∧ nValueOut ≤ getBlockValue pindex.nHeight
        (Int64.ofInt (totalFees env reader txdb.txIndex (block.placed pindex.entry.pos)))
        pindex.prevHash
  txdb_eq : txdb' = { txdb with
      txIndex := (block.placed pindex.entry.pos).foldl (addTx env) txdb.txIndex }.linkPrev
    pindex pindex.getBlockHash

theorem CBlock.connectBlock_eq_some
    {env : Env} {reader : TxReader} {nAdjustedTime : ℤ} {txdb txdb' : CTxDB}
    {pindex : CBlockIndex} {block : CBlock}
    (h : block.connectBlock env reader nAdjustedTime txdb pindex = some txdb') :
  BlockConnects env reader txdb pindex block txdb'
  := by
  rw [connectBlock] at h
  simp only [Option.bind_eq_bind] at h
  split_ifs at h with hcheck
  rw [Bool.not_eq_true', Bool.not_eq_false] at hcheck
  have hchecked := checked_of_checkBlock hcheck
  obtain ⟨nTxPos, hstart, h⟩ := Option.bind_eq_some_iff.mp h
  obtain ⟨state, hloop, h⟩ := Option.bind_eq_some_iff.mp h
  obtain ⟨coinbase, hhead, h⟩ := Option.bind_eq_some_iff.mp h
  obtain ⟨nValueOut, hout, h⟩ := Option.bind_eq_some_iff.mp h
  split_ifs at h with hreward
  obtain rfl := Option.some.inj h
  have hplaced : block.placed pindex.entry.pos
      = txPositions pindex.entry.pos nTxPos block.vtx := by
    rw [placed, hstart]
    rfl
  obtain ⟨hbip30, hconnects, hoverlay, hfees⟩ := foldlM_connectTx
    (fun tx hmem => CTransaction.checked_of_checkTransaction (hchecked.checkTransaction tx hmem))
    hloop
  simp only [TreeMap.overlay_empty, ← hplaced] at hconnects hoverlay hfees
  rw [Int64.zero_add] at hfees
  refine ⟨hchecked, ?_, ?_, hconnects, ⟨coinbase, nValueOut, hhead, hout, ?_⟩, ?_⟩
  · rw [hstart]
    apply Option.some_ne_none
  · intro htime
    apply hbip30 (decide_eq_true htime)
  · rw [← hfees]
    apply Int64.not_lt.mp hreward
  · rw [hoverlay]

/-- The index after a block that connects. -/
theorem BlockConnects.txIndex_eq
    {env : Env} {reader : TxReader} {txdb txdb' : CTxDB} {pindex : CBlockIndex} {block : CBlock}
    (h : BlockConnects env reader txdb pindex block txdb') :
  txdb'.txIndex = (block.placed pindex.entry.pos).foldl (addTx env) txdb.txIndex
  := by
  rw [h.txdb_eq, CTxDB.linkPrev_txIndex]

end CorgiCoin
