import CorgiCoin.Undo

/-!
# Replaying a chain

The transaction index of a chain is what connecting its blocks one after the other leaves,
starting from an empty index above the first block, whose transaction is never indexed.  The
index does not depend on when the blocks are connected, on the memory pool or on what is stored
in the block files besides the blocks of the chain, and disconnecting the last block gives the
index of the chain below it when the block repeats no transaction.
-/

namespace CorgiCoin

open Std

/-! ## What connecting a block depends on -/

section Time

variable {env : Env} {reader : TxReader} {t t' : ℤ} {txdb txdb' : CTxDB} {pindex : CBlockIndex}
  {block : CBlock}

/-- A block that is not too far in the future is not later either. -/
theorem CBlock.checkBlock_mono
    (htime : t ≤ t') (h : block.checkBlock env t = true) :
  block.checkBlock env t' = true
  := by
  rw [checkBlock] at h ⊢
  split at h
  · cases h
  · cases h
  · split_ifs at h with hsize hwork hlate hcoinbase hothers hcheck hnodup hsigops
    have hlate' : ¬block.getBlockTime > t' + 2 * 60 * 60 := by omega
    simp only [hsize, hwork, hlate', hcoinbase, hothers, hcheck, hnodup, hsigops, if_false]
    apply h

theorem CBlock.connectBlock_mono
    (htime : t ≤ t') (h : block.connectBlock env reader t txdb pindex = some txdb') :
  block.connectBlock env reader t' txdb pindex = some txdb'
  := by
  rw [connectBlock] at h ⊢
  split_ifs at h with hcheck
  rw [Bool.not_eq_true', Bool.not_eq_false] at hcheck
  rw [checkBlock_mono htime hcheck]
  apply h

end Time

/-- The index after connecting a block, or `none` where `ConnectBlock` returns false. -/
def CBlock.connectIndex (env : Env) (reader : TxReader) (nAdjustedTime : ℤ) (index : TxIndexMap)
    (pindex : CBlockIndex) (block : CBlock) : Option TxIndexMap :=
  (block.connectBlock env reader nAdjustedTime { CTxDB.empty with txIndex := index } pindex).map
    CTxDB.txIndex

/-- Connecting a block reads the index of the database and nothing else of it. -/
theorem CBlock.map_txIndex_connectBlock
    (env : Env) (reader : TxReader) (t : ℤ) (txdb : CTxDB) (pindex : CBlockIndex)
    (block : CBlock) :
  (block.connectBlock env reader t txdb pindex).map CTxDB.txIndex
    = block.connectIndex env reader t txdb.txIndex pindex
  := by
  rw [connectIndex, connectBlock, connectBlock]
  split_ifs
  · rfl
  · simp only [Option.bind_eq_bind]
    cases block.txStart pindex.entry.pos with
    | none => rfl
    | some nTxPos =>
      simp only [Option.bind_some]
      generalize block.vtx.foldlM (connectTx env reader txdb.txIndex pindex _ _) _ = looped
      cases looped with
      | none => rfl
      | some state =>
        cases block.vtx.head? with
        | none => rfl
        | some coinbase =>
          cases hvalue : coinbase.getValueOut with
          | none => simp [hvalue]
          | some nValueOut =>
            simp only [Option.bind_some, hvalue]
            split_ifs
            · rfl
            · simp

theorem CBlock.connectIndex_of_connectBlock
    {env : Env} {reader : TxReader} {t : ℤ} {txdb txdb' : CTxDB} {pindex : CBlockIndex}
    {block : CBlock} (h : block.connectBlock env reader t txdb pindex = some txdb') :
  block.connectIndex env reader t txdb.txIndex pindex = some txdb'.txIndex
  := by
  rw [← map_txIndex_connectBlock, h, Option.map_some]

section Readers

variable {env : Env} {reader reader' : TxReader} {index txIndex mapTestPool : TxIndexMap}

/-- Two readers find the same transactions for the entries of an index. -/
def ReadsAlike (reader reader' : TxReader) (index : TxIndexMap) : Prop :=
  ∀ (hash : uint256) (txindex : CTxIndex), index[hash]? = some txindex →
    reader.readPrev hash txindex = reader'.readPrev hash txindex

theorem prevOf_congr
    (h : ReadsAlike reader reader' index) (hash : uint256) :
  prevOf reader index hash = prevOf reader' index hash
  := by
  rw [prevOf, prevOf]
  cases hget : index[hash]? with
  | none => rfl
  | some txindex =>
    rw [Option.bind_some, Option.bind_some, h hash txindex hget]

theorem fetchInputs_congr
    (h : ReadsAlike reader reader' (TreeMap.overlay txIndex mapTestPool)) (tx : CTransaction) :
  tx.fetchInputs reader txIndex mapTestPool true false
    = tx.fetchInputs reader' txIndex mapTestPool true false
  := by
  have hfetch : fetchInput reader txIndex mapTestPool true false
      = fetchInput reader' txIndex mapTestPool true false := by
    funext inputs txin
    rw [fetchInput_eq rfl, fetchInput_eq rfl, prevOf_congr h]
  rw [CTransaction.fetchInputs, CTransaction.fetchInputs, hfetch]

theorem connectTx_congr
    {state : ConnectState}
    (h : ReadsAlike reader reader' (TreeMap.overlay txIndex state.mapQueuedChanges))
    (pindex : CBlockIndex) (fEnforceBIP30 fStrict : Bool) (tx : CTransaction) :
  connectTx env reader txIndex pindex fEnforceBIP30 fStrict state tx
    = connectTx env reader' txIndex pindex fEnforceBIP30 fStrict state tx
  := by
  rw [connectTx, connectTx, fetchInputs_congr h]

theorem TxReader.readPrev_congr
    {txindex txindex' : CTxIndex} (h : txindex.pos = txindex'.pos) (hash : uint256) :
  reader.readPrev hash txindex = reader.readPrev hash txindex'
  := by
  rw [readPrev, readPrev, h]

theorem ReadsAlike.addTx
    (h : ReadsAlike reader reader' index) {placed : CDiskTxPos × CTransaction}
    (hpool : placed.1 ≠ CDiskTxPos.pool) (hdisk : reader.disk placed.1 = reader'.disk placed.1) :
  ReadsAlike reader reader' (addTx env index placed)
  := by
  intro hash txindex hget
  rw [CorgiCoin.addTx, TreeMap.getElem?_insert_ite] at hget
  split_ifs at hget
  · obtain rfl := Option.some.inj hget
    rw [TxReader.readPrev, TxReader.readPrev, CTxIndex.unspent, if_neg hpool, if_neg hpool, hdisk]
  · -- a mark leaves the position of the entry
    have hshape := map_shape_setSlots placed.1 index placed.2.prevouts hash
    rw [hget, Option.map_some] at hshape
    obtain ⟨txindexOld, hold, heq⟩ := Option.map_eq_some_iff.mp hshape.symm
    have hpos : txindex.pos = txindexOld.pos := ((Prod.mk.inj heq).1).symm
    rw [TxReader.readPrev_congr hpos, TxReader.readPrev_congr hpos, h hash txindexOld hold]

theorem foldlM_connectTx_congr
    {pindex : CBlockIndex} {fEnforceBIP30 fStrict : Bool} {vtx : List CTransaction}
    {state : ConnectState} (hchecked : ∀ tx ∈ vtx, tx.Checked)
    (h : ReadsAlike reader reader' (TreeMap.overlay txIndex state.mapQueuedChanges))
    (hdisk : ∀ placed ∈ txPositions pindex.entry.pos state.nTxPos vtx,
      reader.disk placed.1 = reader'.disk placed.1) :
  vtx.foldlM (connectTx env reader txIndex pindex fEnforceBIP30 fStrict) state
    = vtx.foldlM (connectTx env reader' txIndex pindex fEnforceBIP30 fStrict) state
  := by
  induction vtx generalizing state with
  | nil => rfl
  | cons tx vtx ih =>
    obtain ⟨htx, hvtx⟩ := List.forall_mem_cons.mp hchecked
    rw [txPositions, List.forall_mem_cons] at hdisk
    rw [List.foldlM_cons, List.foldlM_cons, ← connectTx_congr h]
    cases hstep : connectTx env reader txIndex pindex fEnforceBIP30 fStrict state tx with
    | none => rfl
    | some state' =>
      obtain ⟨-, -, hoverlay, -, hpos⟩ := connectTx_eq_some htx hstep
      apply ih hvtx
      · rw [hoverlay]
        apply h.addTx (BlockPos.txPos_ne_pool _ _) hdisk.1
      · rw [hpos]
        apply hdisk.2

/-- Connecting a block depends on what is read for the entries of the index and for the
transactions of the block itself. -/
theorem CBlock.connectBlock_congr
    {t : ℤ} {txdb : CTxDB} {pindex : CBlockIndex} {block : CBlock}
    (h : ReadsAlike reader reader' txdb.txIndex)
    (hdisk : ∀ placed ∈ block.placed pindex.entry.pos,
      reader.disk placed.1 = reader'.disk placed.1) :
  block.connectBlock env reader t txdb pindex = block.connectBlock env reader' t txdb pindex
  := by
  rw [connectBlock, connectBlock]
  split_ifs with hcheck
  · rfl
  · rw [Bool.not_eq_true', Bool.not_eq_false] at hcheck
    have hchecked := checked_of_checkBlock hcheck
    simp only [Option.bind_eq_bind]
    cases hstart : block.txStart pindex.entry.pos with
    | none => rfl
    | some nTxPos =>
      rw [placed, hstart] at hdisk
      simp only [Option.bind_some]
      rw [foldlM_connectTx_congr _ _ hdisk]
      · exact fun tx hmem =>
          CTransaction.checked_of_checkTransaction (hchecked.checkTransaction tx hmem)
      · rw [TreeMap.overlay_empty]
        apply h

end Readers

/-! ## Stored chains -/

/-- What the files held is still there. -/
def BlockFiles.Extends (files files' : BlockFiles) : Prop :=
  ∀ nFile offset data, files.Holds nFile offset data → files'.Holds nFile offset data

/-- An entry on top of another whose block is in the files. -/
structure Stored (env : Env) (files : BlockFiles) (pprev : CBlockIndex) (entry : BlockEntry)
    (block : CBlock) : Prop where
  fits : block.Fits
  present : block.AuxPowPresent
  hash_eq : block.getHash env = entry.hash
  prev_eq : block.hashPrevBlock = pprev.getBlockHash
  work : checkAuxProofOfWork env block block.nBits = true
  holds : files.Holds entry.pos.nFile entry.pos.nBlockPos.toNat (block.bytes SER_DISK)
  lt : entry.pos.nBlockPos.toNat + (block.bytes SER_DISK).length < 2 ^ 32

/-- Every block of a chain but the first is in the files. -/
def ChainStored (env : Env) (files : BlockFiles) : CBlockIndex → Prop
  | .first _ => True
  | .next entry pprev => (∃ block, Stored env files pprev entry block) ∧ ChainStored env files pprev

section Stored

variable {env : Env} {files files' : BlockFiles} {pprev pindex : CBlockIndex}
  {entry : BlockEntry} {block : CBlock}

theorem Stored.readFromDisk_eq
    (h : Stored env files pprev entry block) :
  files.readFromDisk env (.next entry pprev) = some block
  := by
  have hread := BlockFiles.readBlock_of_holds h.present h.fits h.work h.holds
  rw [BlockFiles.readFromDisk]
  simp only [CBlockIndex.entry, hread, Option.bind_eq_bind, Option.bind_some,
    CBlockIndex.getBlockHash, h.hash_eq, bne_self_eq_false, Bool.false_eq_true, if_false]

theorem Stored.mono
    (h : Stored env files pprev entry block) (hext : files.Extends files') :
  Stored env files' pprev entry block
  := ⟨h.fits, h.present, h.hash_eq, h.prev_eq, h.work, hext _ _ _ h.holds, h.lt⟩

/-- The files hold a transaction at the position of every entry of an index. -/
def Located (files : BlockFiles) (index : TxIndexMap) : Prop :=
  ∀ (hash : uint256) (txindex : CTxIndex), index[hash]? = some txindex →
    txindex.pos ≠ CDiskTxPos.pool ∧ ∃ tx : CTransaction, tx.Fits
      ∧ files.Holds txindex.pos.nFile txindex.pos.nTxPos.toNat tx.serialize

theorem readTx_eq_of_extends
    (hext : files.Extends files') {pos : CDiskTxPos} {tx : CTransaction} (hfits : tx.Fits)
    (hholds : files.Holds pos.nFile pos.nTxPos.toNat tx.serialize) :
  files.readTx pos = files'.readTx pos
  := by
  rw [BlockFiles.readTx_of_holds hfits hholds, BlockFiles.readTx_of_holds hfits (hext _ _ _ hholds)]

theorem Located.readsAlike
    {index : TxIndexMap} (h : Located files index) (hext : files.Extends files')
    (mempool mempool' : ExtTreeMap uint256 CTransaction compare) :
  ReadsAlike ⟨files.readTx, mempool⟩ ⟨files'.readTx, mempool'⟩ index
  := by
  intro hash txindex hget
  obtain ⟨hpool, tx, hfits, hholds⟩ := h hash txindex hget
  rw [TxReader.readPrev, TxReader.readPrev, if_neg hpool, if_neg hpool]
  apply readTx_eq_of_extends hext hfits hholds

theorem Located.foldl_addTx
    {placed : List (CDiskTxPos × CTransaction)} {index : TxIndexMap} (h : Located files index)
    (hplaced : ∀ p ∈ placed, p.1 ≠ CDiskTxPos.pool ∧ p.2.Fits
      ∧ files.Holds p.1.nFile p.1.nTxPos.toNat p.2.serialize) :
  Located files (placed.foldl (addTx env) index)
  := by
  induction placed generalizing index with
  | nil => apply h
  | cons p placed ih =>
    obtain ⟨⟨hpool, hfits, hholds⟩, hplaced⟩ := List.forall_mem_cons.mp hplaced
    apply ih _ hplaced
    intro hash txindex hget
    rw [addTx, TreeMap.getElem?_insert_ite] at hget
    split_ifs at hget
    · obtain rfl := Option.some.inj hget
      exact ⟨hpool, p.2, hfits, hholds⟩
    · have hshape := map_shape_setSlots p.1 index p.2.prevouts hash
      rw [hget, Option.map_some] at hshape
      obtain ⟨txindexOld, hold, heq⟩ := Option.map_eq_some_iff.mp hshape.symm
      rw [← (Prod.mk.inj heq).1]
      apply h hash txindexOld hold

/-- The transactions of a stored block are at the positions they are indexed at. -/
theorem Stored.holds_placed
    (h : Stored env files pprev entry block) :
  ∀ p ∈ block.placed entry.pos, p.1 ≠ CDiskTxPos.pool ∧ p.2.Fits
    ∧ files.Holds p.1.nFile p.1.nTxPos.toNat p.2.serialize
  := by
  intro p hmem
  obtain ⟨htx, n, hpos⟩ := mem_txPositions hmem
  refine ⟨?_, h.fits.vtx_fits _ htx, CBlock.holds_placed h.present h.holds h.lt p hmem⟩
  rw [hpos]
  apply BlockPos.txPos_ne_pool

/-- Connecting a stored block does not depend on the memory pool or on what else is stored. -/
theorem Stored.connectBlock_congr
    (h : Stored env files pprev entry block) (hext : files.Extends files') {txdb : CTxDB}
    (hlocated : Located files txdb.txIndex) (t : ℤ)
    (mempool mempool' : ExtTreeMap uint256 CTransaction compare) :
  block.connectBlock env ⟨files.readTx, mempool⟩ t txdb (.next entry pprev)
    = block.connectBlock env ⟨files'.readTx, mempool'⟩ t txdb (.next entry pprev)
  := by
  apply CBlock.connectBlock_congr (hlocated.readsAlike hext mempool mempool')
  intro p hmem
  obtain ⟨-, hfits, hholds⟩ := h.holds_placed p hmem
  apply readTx_eq_of_extends hext hfits hholds

end Stored

/-! ## Replaying -/

/-- The index of a chain: connect its blocks from the first to the last. -/
def replay (env : Env) (files : BlockFiles) (nAdjustedTime : ℤ) :
    CBlockIndex → Option TxIndexMap
  | .first _ => some ∅
  | .next entry pprev => do
    let index ← replay env files nAdjustedTime pprev
    let block ← files.readFromDisk env (.next entry pprev)
    block.connectIndex env ⟨files.readTx, ∅⟩ nAdjustedTime index (.next entry pprev)

/-- An index is what connecting the blocks of a chain leaves, at some time. -/
def Replays (env : Env) (files : BlockFiles) (pindex : CBlockIndex) (index : TxIndexMap) : Prop :=
  ∃ nAdjustedTime, replay env files nAdjustedTime pindex = some index

section Replay

variable {env : Env} {files files' : BlockFiles} {pprev pindex : CBlockIndex}
  {entry : BlockEntry} {block : CBlock} {index index' : TxIndexMap} {t t' : ℤ}

theorem CBlock.connectIndex_mono
    {reader : TxReader} (htime : t ≤ t')
    (h : block.connectIndex env reader t index pindex = some index') :
  block.connectIndex env reader t' index pindex = some index'
  := by
  rw [connectIndex] at h ⊢
  obtain ⟨txdb', hconnect, rfl⟩ := Option.map_eq_some_iff.mp h
  rw [connectBlock_mono htime hconnect, Option.map_some]

theorem CBlock.connectIndex_eq_some
    {reader : TxReader} (h : block.connectIndex env reader t index pindex = some index') :
  ∃ txdb', BlockConnects env reader { CTxDB.empty with txIndex := index } pindex block txdb'
    ∧ txdb'.txIndex = index'
  := by
  obtain ⟨txdb', hconnect, hindex⟩ := Option.map_eq_some_iff.mp h
  exact ⟨txdb', connectBlock_eq_some hconnect, hindex⟩

theorem replay_mono
    (htime : t ≤ t') (h : replay env files t pindex = some index) :
  replay env files t' pindex = some index
  := by
  induction pindex generalizing index with
  | first entry => apply h
  | next entry pprev ih =>
    simp only [replay, Option.bind_eq_bind, Option.bind_eq_some_iff] at h ⊢
    obtain ⟨mid, hmid, block, hread, hconnect⟩ := h
    exact ⟨mid, ih hmid, block, hread, CBlock.connectIndex_mono htime hconnect⟩

/-- A chain has one index. -/
theorem Replays.unique
    (h : Replays env files pindex index) (h' : Replays env files pindex index') :
  index = index'
  := by
  obtain ⟨t, ht⟩ := h
  obtain ⟨t', ht'⟩ := h'
  have hmax := replay_mono (le_max_left t t') ht
  rw [replay_mono (le_max_right t t') ht'] at hmax
  exact (Option.some.inj hmax).symm

/-- The index of a chain is that of the chain below with the last block connected. -/
theorem replays_next_iff :
  Replays env files (.next entry pprev) index'
    ↔ ∃ index block t, Replays env files pprev index
      ∧ files.readFromDisk env (.next entry pprev) = some block
      ∧ block.connectIndex env ⟨files.readTx, ∅⟩ t index (.next entry pprev) = some index'
  := by
  constructor
  · rintro ⟨t, h⟩
    simp only [replay, Option.bind_eq_bind, Option.bind_eq_some_iff] at h
    obtain ⟨index, hindex, block, hread, hconnect⟩ := h
    exact ⟨index, block, t, ⟨t, hindex⟩, hread, hconnect⟩
  · rintro ⟨index, block, t, ⟨t', hindex⟩, hread, hconnect⟩
    use max t t'
    simp only [replay, Option.bind_eq_bind, Option.bind_eq_some_iff]
    exact ⟨index, replay_mono (le_max_right t t') hindex, block, hread,
      CBlock.connectIndex_mono (le_max_left t t') hconnect⟩

/-- What is known of the index of a stored chain. -/
structure ReplayFacts (env : Env) (files : BlockFiles) (pindex : CBlockIndex)
    (index : TxIndexMap) : Prop where
  located : Located files index
  canonical : Canonical index
  keys : ∀ hash : uint256, index[hash]? ≠ none → ∃ p ∈ pindex.chain, ∃ block,
    p.pprev ≠ none ∧ files.readFromDisk env p = some block ∧ hash ∈ block.txids env

theorem Replays.facts
    (hstored : ChainStored env files pindex) (h : Replays env files pindex index) :
  ReplayFacts env files pindex index
  := by
  induction pindex generalizing index with
  | first entry =>
    obtain ⟨t, ht⟩ := h
    obtain rfl := Option.some.inj ht
    constructor
    · intro hash txindex hget
      simp at hget
    · intro o pos hslot
      simp [slot] at hslot
    · intro hash hne
      simp at hne
  | next entry pprev ih =>
    obtain ⟨⟨block, hblock⟩, hchain⟩ := hstored
    obtain ⟨mid, block', t, hmid, hread, hconnect⟩ := replays_next_iff.mp h
    obtain rfl : block = block' := Option.some.inj (hblock.readFromDisk_eq.symm.trans hread)
    obtain ⟨txdb', hconnects, rfl⟩ := CBlock.connectIndex_eq_some hconnect
    have hfacts := ih hchain hmid
    constructor
    · rw [hconnects.txIndex_eq]
      apply hfacts.located.foldl_addTx hblock.holds_placed
    · rw [hconnects.txIndex_eq]
      apply hfacts.canonical.foldl_addTx (fun p hmem => (hconnects.placed_isNull p hmem).1)
    · intro hash hne
      rw [Ne, hconnects.getElem?_eq_none_iff, not_and_or, not_not] at hne
      rcases hne with hmem | hold
      · exact ⟨.next entry pprev, CBlockIndex.mem_chain_self _, block, Option.some_ne_none _,
          hread, hmem⟩
      · obtain ⟨p, hp, rest⟩ := hfacts.keys hash hold
        exact ⟨p, List.mem_cons_of_mem _ hp, rest⟩

/-- More on disk does not change what connecting a stored block does. -/
theorem Stored.connectIndex_congr
    (h : Stored env files pprev entry block) (hext : files.Extends files')
    (hlocated : Located files index) (t : ℤ) :
  block.connectIndex env ⟨files.readTx, ∅⟩ t index (.next entry pprev)
    = block.connectIndex env ⟨files'.readTx, ∅⟩ t index (.next entry pprev)
  := by
  rw [CBlock.connectIndex, CBlock.connectIndex, h.connectBlock_congr hext hlocated t ∅ ∅]

/-- More on disk does not change the index of a stored chain. -/
theorem replay_congr_of_extends
    (hstored : ChainStored env files pindex) (hext : files.Extends files') (t : ℤ) :
  replay env files t pindex = replay env files' t pindex
  := by
  induction pindex with
  | first entry => rfl
  | next entry pprev ih =>
    obtain ⟨⟨block, hblock⟩, hchain⟩ := hstored
    rw [replay, replay, ← ih hchain, hblock.readFromDisk_eq, (hblock.mono hext).readFromDisk_eq]
    cases hindex : replay env files t pprev with
    | none => rfl
    | some index =>
      have hreplays : Replays env files pprev index := ⟨t, hindex⟩
      apply hblock.connectIndex_congr hext (hreplays.facts hchain).located

theorem Replays.mono
    (hstored : ChainStored env files pindex) (hext : files.Extends files')
    (h : Replays env files pindex index) :
  Replays env files' pindex index
  := by
  obtain ⟨t, h⟩ := h
  use t
  rw [← replay_congr_of_extends hstored hext, h]

/-- Connecting the block of an entry in a database with the index of the chain below. -/
theorem Replays.connectBlock
    {txdb txdb' : CTxDB} {mempool : ExtTreeMap uint256 CTransaction compare}
    (hstored : ChainStored env files (.next entry pprev))
    (h : Replays env files pprev txdb.txIndex)
    (hread : files.readFromDisk env (.next entry pprev) = some block)
    (hconnect : block.connectBlock env ⟨files.readTx, mempool⟩ t txdb (.next entry pprev)
      = some txdb') :
  Replays env files (.next entry pprev) txdb'.txIndex
  := by
  obtain ⟨⟨block', hblock⟩, hchain⟩ := hstored
  obtain rfl : block' = block := Option.some.inj (hblock.readFromDisk_eq.symm.trans hread)
  rw [hblock.connectBlock_congr (fun _ _ _ hholds => hholds) (h.facts hchain).located t mempool ∅]
    at hconnect
  rw [replays_next_iff]
  exact ⟨_, block', t, h, hread, CBlock.connectIndex_of_connectBlock hconnect⟩

/-- The block of an entry has no transaction of a block below, the first block apart. -/
def NotRepeating (env : Env) (files : BlockFiles) (pindex : CBlockIndex) : Prop :=
  ∀ block, files.readFromDisk env pindex = some block → ∀ p ∈ pindex.chain.tail, ∀ block',
    p.pprev ≠ none → files.readFromDisk env p = some block' →
    ∀ hash ∈ block.txids env, hash ∉ block'.txids env

/-- Disconnecting a block that repeats no transaction gives the index of the chain below. -/
theorem Replays.disconnectTxs
    (hstored : ChainStored env files (.next entry pprev))
    (h : Replays env files (.next entry pprev) index)
    (hread : files.readFromDisk env (.next entry pprev) = some block)
    (hfresh : NotRepeating env files (.next entry pprev)) :
  ∃ index', block.disconnectTxs env index = some index' ∧ Replays env files pprev index'
  := by
  obtain ⟨mid, block', t, hmid, hread', hconnect⟩ := replays_next_iff.mp h
  obtain rfl : block' = block := Option.some.inj (hread'.symm.trans hread)
  obtain ⟨txdb', hconnects, rfl⟩ := CBlock.connectIndex_eq_some hconnect
  have hfacts := hmid.facts hstored.2
  have hnew : ∀ hash ∈ block'.txids env, mid[hash]? = none := by
    intro hash hmem
    by_contra hne
    obtain ⟨p, hp, block, hpprev, hreadp, hmemp⟩ := hfacts.keys hash hne
    exact hfresh block' hread p hp block hpprev hreadp hash hmem hmemp
  exact ⟨mid, (hconnects.disconnectTxs_eq hfacts.canonical hnew).1, hmid⟩

end Replay

end CorgiCoin
