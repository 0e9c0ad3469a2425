import CorgiCoin.NodeIndex

/-!
# The memory pool over runs

The memory pool changes when transactions are accepted and removed, when a block is connected
and when the chain is reorganized, where transactions of disconnected blocks are put back
without looking at their inputs.  It stays consistent through all of this as long as no two
transactions of the run have the same hash.
-/

namespace CorgiCoin

open Std

namespace CTxMemPool

variable {env : Env} {txs : Set CTransaction} {pool : CTxMemPool} {vtx : List CTransaction}

theorem Valid.foldl_remove
    (h : pool.Valid env txs) (hinj : txs.InjOn (CTransaction.getHash env.crypto))
    (hvtx : ∀ tx ∈ vtx, tx ∈ txs) :
  (vtx.foldl (CTxMemPool.remove env) pool).Valid env txs
  := by
  induction vtx generalizing pool with
  | nil => apply h
  | cons tx vtx ih =>
    obtain ⟨htx, hvtx⟩ := List.forall_mem_cons.mp hvtx
    apply ih (h.remove hinj htx) hvtx

theorem Valid.foldl_resurrect
    (h : pool.Valid env txs) {disk : CDiskTxPos → Option CTransaction} {txIndex : TxIndexMap}
    {pindexBest : CBlockIndex} (hvtx : ∀ tx ∈ vtx, tx ∈ txs) :
  (vtx.foldl (Node.resurrect env disk txIndex pindexBest) pool).Valid env txs
  := by
  induction vtx generalizing pool with
  | nil => apply h
  | cons tx vtx ih =>
    obtain ⟨htx, hvtx⟩ := List.forall_mem_cons.mp hvtx
    apply ih _ hvtx
    rw [Node.resurrect]
    cases haccept : pool.accept env disk txIndex pindexBest tx false false with
    | none => apply h
    | some pool' => apply h.accept htx haccept

end CTxMemPool

namespace Node

/-- The transactions an operation brings. -/
def Op.txs : Op → List CTransaction
  | .accept _ received => received.block.vtx
  | .invalidate _ _ => []
  | .reconsider _ _ => []
  | .acceptTx tx _ _ => [tx]
  | .removeTx tx => [tx]

/-- The pool is valid, and the transactions of the blocks on disk are among those of a set. -/
structure PoolInv (env : Env) (txs : Set CTransaction) (node : Node) : Prop where
  indexed : node.Indexed env
  valid : node.mempool.Valid env txs
  onDisk : ∀ (entry : BlockEntry) (pprev : CBlockIndex) (block : CBlock),
    node.mapBlockIndex[entry.hash]? = some (.next entry pprev) →
    node.files.readFromDisk env (.next entry pprev) = some block → ∀ tx ∈ block.vtx, tx ∈ txs

section Pool

variable {env : Env} {io : Io} {txs : Set CTransaction} {node node' : Node}
  {pindexNew best pfork : CBlockIndex} {block : CBlock}

theorem PoolInv.of_same
    (h : node.PoolInv env txs) (hstore : SameStore node node') (hindexed : node'.Indexed env)
    (hvalid : node'.mempool.Valid env txs) :
  node'.PoolInv env txs
  := by
  refine ⟨hindexed, hvalid, ?_⟩
  rw [hstore.mapBlockIndex, hstore.files]
  apply h.onDisk

/-- The transactions to resurrect are on disk. -/
theorem foldlM_disconnectStep_txs
    {pindexes : List CBlockIndex} {state state' : CTxDB × List CTransaction}
    (hdisk : ∀ p ∈ pindexes, ∀ block, node.files.readFromDisk env p = some block →
      ∀ tx ∈ block.vtx, tx ∈ txs)
    (hstart : ∀ tx ∈ state.2, tx ∈ txs)
    (h : pindexes.foldlM (node.disconnectStep env io) state = some state') :
  ∀ tx ∈ state'.2, tx ∈ txs
  := by
  induction pindexes generalizing state with
  | nil =>
    obtain rfl := Option.some.inj h
    apply hstart
  | cons p pindexes ih =>
    obtain ⟨hp, hdisk⟩ := List.forall_mem_cons.mp hdisk
    rw [List.foldlM_cons, Option.bind_eq_bind, Option.bind_eq_some_iff] at h
    obtain ⟨mid, hstep, hrest⟩ := h
    apply ih hdisk _ hrest
    obtain ⟨block, txdb, hread, -, rfl⟩ := disconnectStep_eq_some hstep
    intro tx hmem
    rcases List.mem_append.mp hmem with hmem | hmem
    · apply hstart tx hmem
    · apply hp block hread tx (List.mem_filter.mp hmem).1

/-- The transactions to delete are on disk. -/
theorem foldlM_connectStep_txs
    {pindexes : List CBlockIndex} {state state' : CTxDB × List CTransaction}
    (hdisk : ∀ p ∈ pindexes, ∀ block, node.files.readFromDisk env p = some block →
      ∀ tx ∈ block.vtx, tx ∈ txs)
    (hstart : ∀ tx ∈ state.2, tx ∈ txs)
    (h : pindexes.foldlM (node.connectStep env io) state = some state') :
  ∀ tx ∈ state'.2, tx ∈ txs
  := by
  induction pindexes generalizing state with
  | nil =>
    obtain rfl := Option.some.inj h
    apply hstart
  | cons p pindexes ih =>
    obtain ⟨hp, hdisk⟩ := List.forall_mem_cons.mp hdisk
    rw [List.foldlM_cons, Option.bind_eq_bind, Option.bind_eq_some_iff] at h
    obtain ⟨mid, hstep, hrest⟩ := h
    apply ih hdisk _ hrest
    obtain ⟨block, txdb, hread, -, rfl⟩ := connectStep_eq_some hstep
    intro tx hmem
    rcases List.mem_append.mp hmem with hmem | hmem
    · apply hstart tx hmem
    · apply hp block hread tx hmem

/-- The blocks of a branch of an indexed chain have their transactions in the set. -/
theorem PoolInv.branch_txs
    (h : node.PoolInv env txs) {pindex : CBlockIndex}
    (hindexed : node.mapBlockIndex[pindex.getBlockHash]? = some pindex)
    (hfork : pfork ∈ pindex.chain) :
  ∀ p ∈ pindex.branch pfork, ∀ block, node.files.readFromDisk env p = some block →
    ∀ tx ∈ block.vtx, tx ∈ txs
  := by
  intro p hmem block hread
  have hp := h.indexed.mem_chain hindexed (CBlockIndex.mem_chain_of_mem_branch hmem)
  obtain ⟨entry, pprev, rfl⟩ := CBlockIndex.exists_next_of_mem_branch hfork hmem
  apply h.onDisk entry pprev block hp hread

variable (hinj : txs.InjOn (CTransaction.getHash env.crypto))

include hinj

theorem PoolInv.valid_reorganize
    (h : node.PoolInv env txs)
    (hindexed : node.mapBlockIndex[pindexNew.getBlockHash]? = some pindexNew)
    (hreorganize : node.reorganize env io pindexNew = some node') :
  node'.mempool.Valid env txs
  := by
  obtain ⟨best, pfork, txdb, vResurrect, txdb', vDelete, hbest, hfork, hdisconnect, hconnect,
    rfl⟩ := reorganize_eq_some hreorganize
  obtain ⟨best', htip, hbestIndexed⟩ := h.indexed.tip
  rw [htip.pindexBest] at hbest
  obtain rfl := Option.some.inj hbest
  obtain ⟨hforkBest, hforkNew⟩ := CBlockIndex.mem_chain_of_findFork hfork
  have hresurrect := foldlM_disconnectStep_txs (h.branch_txs hbestIndexed hforkBest)
    (fun _ hmem => absurd hmem List.not_mem_nil) hdisconnect
  have hdelete := foldlM_connectStep_txs
    (fun p hmem => h.branch_txs hindexed hforkNew p (List.mem_reverse.mp hmem))
    (fun _ hmem => absurd hmem List.not_mem_nil) hconnect
  apply CTxMemPool.Valid.foldl_remove _ hinj hdelete
  apply h.valid.foldl_resurrect hresurrect

theorem PoolInv.valid_setBestChainInner
    (io : Io) (pindexNew : CBlockIndex) (h : node.mempool.Valid env txs) (hblock : ∀ tx ∈ block.vtx, tx ∈ txs) :
  (node.setBestChainInner env io block pindexNew).1.mempool.Valid env txs
  := by
  obtain ⟨txdb, -, heq⟩ | heq | heq :=
    setBestChainInner_cases env io node block pindexNew
  · rw [heq]
    apply h.foldl_remove hinj hblock
  · rw [heq]
    apply h
  · rw [heq, (node.invalidChainFound_same pindexNew).2.2.2.2.1]
    apply h

theorem PoolInv.valid_connectPostponed
    {pindexes : List CBlockIndex}
    (hdisk : ∀ p ∈ pindexes, ∀ block, node.files.readFromDisk env p = some block →
      ∀ tx ∈ block.vtx, tx ∈ txs)
    (h : node.mempool.Valid env txs) :
  (node.connectPostponed env io pindexes).mempool.Valid env txs
  := by
  induction pindexes generalizing node with
  | nil => apply h
  | cons p pindexes ih =>
    obtain ⟨hp, hdisk⟩ := List.forall_mem_cons.mp hdisk
    rw [connectPostponed]
    split
    · apply h
    · rename_i block hread
      have hinner := PoolInv.valid_setBestChainInner hinj io p h
        (hp block (readFromDisk_eq_some hread))
      simp only
      split_ifs
      · apply h
      · apply ih _ hinner
        rw [(setBestChainInner_same env io node block p).1.files]
        apply hdisk
      · apply hinner

theorem PoolInv.setBestChain
    (h : node.PoolInv env txs) (hblock : ∀ tx ∈ block.vtx, tx ∈ txs)
    (hhash : block.getHash env = pindexNew.getBlockHash)
    (hindexed : node.mapBlockIndex[pindexNew.getBlockHash]? = some pindexNew) :
  (node.setBestChain env io block pindexNew).1.PoolInv env txs
  := by
  obtain ⟨hstore, -⟩ := setBestChain_same io h.indexed.loaded hhash
  apply h.of_same hstore (h.indexed.setBestChain io hhash hindexed)
  obtain (heq | heq) | ⟨-, -, heq⟩ | ⟨best, mid, hbest, -, hreorganize, heq⟩ :=
    setBestChain_cases env io h.indexed.loaded block pindexNew
  · rw [heq]
    apply h.valid
  · rw [heq, (node.invalidChainFound_same pindexNew).2.2.2.2.1]
    apply h.valid
  · rw [heq]
    apply valid_setBestChainInner hinj io pindexNew h.valid hblock
  · rw [heq]
    obtain ⟨hfirst, hpostponed⟩ := pindexNew.postpone_spec best.bnChainWork
    have hvalid := h.valid_reorganize hinj (h.indexed.mem_chain hindexed hfirst) hreorganize
    apply valid_connectPostponed hinj _ hvalid
    intro p hmem
    rw [(reorganize_same hreorganize).1.files]
    rw [List.mem_reverse, ← hpostponed] at hmem
    apply h.branch_txs hindexed hfirst p hmem

theorem PoolInv.activateBestValidChain
    (h : node.PoolInv env txs) :
  (node.activateBestValidChain env io).1.PoolInv env txs
  := by
  obtain ⟨best, htip, hbest⟩ := h.indexed.tip
  obtain heq | ⟨block, hne, hread, heq⟩ :=
    activateBestValidChain_cases env io htip.pindexBest
  · rw [heq]
    apply h
  · rw [heq]
    have hindexed := h.indexed.bestCandidate hbest
    apply h.setBestChain hinj _ (getHash_of_readFromDisk hread) hindexed
    obtain ⟨hsame | ⟨-, -, -, hmore⟩, -⟩ := node.bestCandidate_spec best
    · exact absurd hsame hne
    · obtain ⟨entry, pprev, heq⟩ := h.indexed.exists_next_of_lt hbest hindexed hmore
      rw [heq] at hread hindexed
      apply h.onDisk entry pprev block hindexed hread

omit hinj in
theorem PoolInv.of_onlyMarks
    (h : node.PoolInv env txs) (hmarks : OnlyMarks node node') :
  node'.PoolInv env txs
  := by
  apply h.of_same hmarks.store (h.indexed.of_onlyMarks hmarks)
  rw [hmarks.mempool]
  apply h.valid

theorem PoolInv.rollBack
    (h : node.PoolInv env txs) (hroll : node.rollBack env io = some node') :
  node'.PoolInv env txs
  := by
  apply h.of_same (rollBack_same hroll).1 (h.indexed.rollBack hroll)
  obtain ⟨best, hbest, ⟨-, rfl⟩ | ⟨pindexNew, mid, -, hfind, hmid, rfl⟩⟩ := rollBack_cases hroll
  · apply h.valid
  · obtain ⟨best', htip, hbestIndexed⟩ := h.indexed.tip
    rw [htip.pindexBest] at hbest
    obtain rfl := Option.some.inj hbest
    apply h.valid_reorganize hinj _ hmid
    apply h.indexed.mem_chain hbestIndexed (List.mem_of_find?_eq_some hfind)

theorem PoolInv.accept
    (h : node.PoolInv env txs) (received : ReceivedBlock)
    (hcheck : received.block.checkBlock env io.nCheckTime = true) (htxs : ∀ tx ∈ received.block.vtx, tx ∈ txs) :
  (node.acceptBlock env io received.block).1.PoolInv env txs
  := by
  obtain heq | ⟨files, entry, pprev, hinserts, halternatives⟩ :=
    accept_cases h.indexed received hcheck
  · rw [heq]
    apply h
  · have hinserted : ((node.setFiles files).insertEntry (.next entry pprev)).PoolInv env txs := by
      refine ⟨hinserts.indexed, h.valid, ?_⟩
      intro entry' pprev' block hget hread
      change (node.mapBlockIndex.insert entry.hash _)[entry'.hash]? = _ at hget
      rw [TreeMap.getElem?_insert_ite] at hget
      split_ifs at hget
      · -- the new block
        obtain ⟨rfl, rfl⟩ := CBlockIndex.next.inj (Option.some.inj hget)
        obtain rfl := Option.some.inj (hinserts.stored.readFromDisk_eq.symm.trans hread)
        apply htxs
      · -- the others are still on disk
        obtain ⟨-, block', hblock'⟩ := h.indexed.next _ _ _ hget
        have hread' := (hblock'.mono hinserts.files_extends).readFromDisk_eq
        obtain rfl := Option.some.inj (hread'.symm.trans hread)
        apply h.onDisk entry' pprev' block' hget hblock'.readFromDisk_eq
    have hwritten : (((node.setFiles files).insertEntry (.next entry pprev)).writeEntry io
        (.next entry pprev)).PoolInv env txs :=
      hinserted.of_same ⟨rfl, rfl, rfl⟩ (hinserts.indexed.writeEntry io _) hinserted.valid
    obtain ⟨-, heq⟩ | ⟨-, heq⟩ | ⟨-, heq⟩ := halternatives
    · rw [heq]
      apply hinserted
    · rw [heq]
      apply hwritten
    · rw [heq]
      apply hwritten.setBestChain hinj htxs hinserts.hash_eq
      apply getElem?_insertEntry_self

theorem PoolInv.step
    (h : node.PoolInv env txs) (op : Op) (htxs : ∀ tx ∈ op.txs, tx ∈ txs) :
  (node.step env op).PoolInv env txs
  := by
  cases op with
  | accept io received =>
    rw [Node.step]
    split_ifs with hcheck
    · apply h.accept hinj received hcheck htxs
    · apply h
  | invalidate io hash =>
    simp only [Node.step]
    split
    · apply h
    · rename_i pindex _
      obtain ⟨marked, hmarks, heq | ⟨-, rolled, hrolled, heq⟩⟩ :=
        invalidateBlock_cases env io node pindex
      · rw [heq]
        apply h.of_onlyMarks hmarks
      · rw [heq]
        apply ((h.of_onlyMarks hmarks).rollBack hinj hrolled).activateBestValidChain hinj
  | reconsider io hash =>
    simp only [Node.step]
    split
    · apply h
    · rename_i pindex _
      obtain ⟨marked, hmarks, heq | ⟨-, heq⟩⟩ := reconsiderBlock_cases env io node pindex
      · rw [heq]
        apply h.of_onlyMarks hmarks
      · rw [heq]
        apply (h.of_onlyMarks hmarks).activateBestValidChain hinj
  | acceptTx tx fCheckInputs fRateLimited =>
    have htx : tx ∈ txs := htxs tx List.mem_cons_self
    rw [Node.step, acceptTx]
    split
    · apply h
    · rename_i best _
      refine ⟨h.indexed.setMempool _, ?_, h.onDisk⟩
      cases haccept : node.mempool.accept env node.files.readTx node.txdb.txIndex best tx
          fCheckInputs fRateLimited with
      | none => apply h.valid
      | some pool => apply h.valid.accept htx haccept
  | removeTx tx =>
    exact ⟨h.indexed.setMempool _, h.valid.remove hinj (htxs tx List.mem_cons_self), h.onDisk⟩

end Pool

theorem Started.poolInv
    {env : Env} {node : Node} {entry : BlockEntry} (h : Started env node entry)
    (txs : Set CTransaction) :
  node.PoolInv env txs
  := by
  refine ⟨h.indexed, ?_, ?_⟩
  · rw [h.mempool]
    apply CTxMemPool.valid_empty
  · intro entry' pprev block hget
    obtain ⟨-, heq⟩ := (h.mapBlockIndex _ _).mp hget
    cases heq

/-- A pool of a run is valid. -/
theorem valid_run
    {env : Env} {io : Io} {start : Node} {ops : List Op} (hload : load env io = some start)
    (hinj : Set.InjOn (CTransaction.getHash env.crypto) {tx | ∃ op ∈ ops, tx ∈ op.txs}) :
  (Transition.run (step env) start ops).mempool.Valid env {tx | ∃ op ∈ ops, tx ∈ op.txs}
  := by
  obtain ⟨entry, hstarted⟩ := started_of_load hload
  have hstep : ∀ (node : Node) (op : Op), op ∈ ops →
      node.PoolInv env {tx | ∃ op ∈ ops, tx ∈ op.txs} →
      (node.step env op).PoolInv env {tx | ∃ op ∈ ops, tx ∈ op.txs} := by
    intro node op hop h
    apply h.step hinj op
    intro tx htx
    exact ⟨op, hop, htx⟩
  have hinv := Transition.run_invariant hstep
    (Transition.along_of_forall_mem (fun op hop _ => hop) start) (hstarted.poolInv _)
  apply hinv.valid

/-- After any operations on a node the memory pool is consistent: an output is mapped to an
input exactly when a transaction of the pool spends it with that input.  So no two inputs of
the pool spend the same output, and no input is of a transaction that is gone.  The
transactions of the run have different hashes. -/
theorem mempool_consistent
    (env : Env) (io : Io) (start : Node) (ops : List Op) (hload : load env io = some start)
    (hinj : Set.InjOn (CTransaction.getHash env.crypto) {tx | ∃ op ∈ ops, tx ∈ op.txs}) :
  let pool := (Transition.run (step env) start ops).mempool
  (∀ (o : COutPoint) (inpoint : CInPoint), pool.mapNextTx[o]? = some inpoint
      ↔ ∃ tx, pool.mapTx[inpoint.hash]? = some tx
        ∧ tx.vin[inpoint.n]?.map CTxIn.prevout = some o)
    ∧ (∀ (hash hash' : uint256) (tx tx' : CTransaction) (i j : ℕ) (txin txin' : CTxIn),
      pool.mapTx[hash]? = some tx → pool.mapTx[hash']? = some tx' →
      tx.vin[i]? = some txin → tx'.vin[j]? = some txin' → txin.prevout = txin'.prevout →
      hash = hash' ∧ i = j)
    ∧ ∀ (o : COutPoint) (inpoint : CInPoint), pool.mapNextTx[o]? = some inpoint →
      ∃ tx, pool.mapTx[inpoint.hash]? = some tx
  := by
  have hvalid := valid_run hload hinj
  refine ⟨hvalid.consistent, ?_, ?_⟩
  · intro hash hash' tx tx' i j txin txin' htx htx' hi hj hsame
    apply hvalid.consistent.unique htx htx' hi hj hsame
  · intro o inpoint hget
    obtain ⟨tx, htx, -⟩ := (hvalid.consistent o inpoint).mp hget
    exact ⟨tx, htx⟩

/-- A block with one coinbase on top of the first block. -/
def samplePoolBlock : ReceivedBlock where
  block := sampleChild (hashGenesisBlock sampleEnv) 1774996862 [1, 1] 1000
  fits := by decide
  present := by decide
  size_le := by decide +kernel

/-- A block comes in, a transaction that spends its coinbase waits in the pool, and a
transaction that is not there is removed. -/
def samplePoolOps : List Op :=
  [ .accept (Io.smooth 1774999999) samplePoolBlock,
    .acceptTx (sampleSpend ((sampleCoinbase [1, 1] 1000).getHash sampleCrypto) 900) false false,
    .removeTx (sampleCoinbase [1, 1] 1000) ]

theorem samplePoolOps_consistent :
  ∃ start, load sampleEnv (Io.smooth 1774999999) = some start
    ∧ (Transition.run (step sampleEnv) start samplePoolOps).mempool.Consistent
  := by
  have hsome : (load sampleEnv (Io.smooth 1774999999)).isSome = true := by decide +kernel
  obtain ⟨start, hload⟩ := Option.isSome_iff_exists.mp hsome
  refine ⟨start, hload, (mempool_consistent sampleEnv _ start samplePoolOps hload ?_).1⟩
  have hne : (sampleCoinbase [1, 1] 1000).getHash sampleCrypto
      ≠ (sampleSpend ((sampleCoinbase [1, 1] 1000).getHash sampleCrypto) 900).getHash
        sampleCrypto := by
    decide +kernel
  have hmem : ∀ tx, (∃ op ∈ samplePoolOps, tx ∈ op.txs) → tx = sampleCoinbase [1, 1] 1000
      ∨ tx = sampleSpend ((sampleCoinbase [1, 1] 1000).getHash sampleCrypto) 900 := by
    rintro tx ⟨op, hop, htx⟩
    simp only [samplePoolOps, List.mem_cons, List.not_mem_nil, or_false] at hop
    obtain rfl | rfl | rfl := hop
    · left
      apply List.mem_singleton.mp htx
    · right
      apply List.mem_singleton.mp htx
    · left
      apply List.mem_singleton.mp htx
  intro tx htx tx' htx' heq
  obtain rfl | rfl := hmem tx htx
  · obtain rfl | rfl := hmem tx' htx'
    · rfl
    · exact absurd heq hne
  · obtain rfl | rfl := hmem tx' htx'
    · exact absurd heq.symm hne
    · rfl

end Node

end CorgiCoin
