import CorgiCoin.BlockTemplate
import CorgiCoin.Tip

/-!
# The miner and the validator

`CreateNewBlock` connects the transactions of a new block in a map of its own, at the position that stands
for the memory pool.  `ConnectBlock` connects them again after the coinbase, at the positions they have on
disk.  The two indexes have the same outputs with the same ones spent, apart from those of the coinbase, so
that what the miner took is connected.
-/

namespace CorgiCoin

open Std

/-! ## Two indexes of the same outputs -/

/-- The entries that a transaction has for the miner and for the validator of a block. -/
structure SameEntry (reader reader' : TxReader) (pos : BlockPos) (hash : uint256)
    (txindex txindex' : CTxIndex) : Prop where
  read : reader.readPrev hash txindex = reader'.readPrev hash txindex'
  marks : txindex.vSpent.map CDiskTxPos.isNull = txindex'.vSpent.map CDiskTxPos.isNull
  /-- A coinbase is in the block it was in before, which is not the new one. -/
  place : (txindex'.pos = txindex.pos
      ∧ ¬(pos.nBlockPos = txindex.pos.nBlockPos ∧ pos.nFile = txindex.pos.nFile))
    ∨ ∀ tx, reader.readPrev hash txindex = some tx → tx.isCoinBase = false

/-- The indexes agree on every transaction but the coinbase of the new block. -/
def SameOutputs (reader reader' : TxReader) (pos : BlockPos) (hashCoinbase : uint256)
    (index index' : TxIndexMap) : Prop :=
  ∀ hash, hash ≠ hashCoinbase → Option.Rel (SameEntry reader reader' pos hash) index[hash]? index'[hash]?

section Same

variable {reader reader' : TxReader} {pos : BlockPos} {hashCoinbase : uint256} {index index' : TxIndexMap}

variable {p : CDiskTxPos}

theorem SameOutputs.setSlot
    (h : SameOutputs reader reader' pos hashCoinbase index index') {p' : CDiskTxPos}
    (hp : p.isNull = p'.isNull) (o : COutPoint) :
  SameOutputs reader reader' pos hashCoinbase (setSlot p index o) (setSlot p' index' o)
  := by
  intro hash hne
  have hentry := h hash hne
  rw [getElem?_setSlot, getElem?_setSlot]
  split_ifs
  · generalize index[hash]? = found at hentry ⊢
    generalize index'[hash]? = found' at hentry ⊢
    cases hentry with
    | none => apply Option.Rel.none
    | some hsame =>
      apply Option.Rel.some
      constructor
      · apply hsame.read
      · simp only [List.map_set, hsame.marks, hp]
      · apply hsame.place
  · exact hentry

theorem SameOutputs.setSlots
    (h : SameOutputs reader reader' pos hashCoinbase index index') {p' : CDiskTxPos}
    (hp : p.isNull = p'.isNull) (os : List COutPoint) :
  SameOutputs reader reader' pos hashCoinbase (setSlots p index os) (setSlots p' index' os)
  := by
  induction os generalizing index index' with
  | nil => exact h
  | cons o os ih => apply ih (h.setSlot hp o)

variable {hash : uint256}

theorem SameOutputs.insert
    (h : SameOutputs reader reader' pos hashCoinbase index index') {e e' : CTxIndex}
    (hsame : SameEntry reader reader' pos hash e e') :
  SameOutputs reader reader' pos hashCoinbase (index.insert hash e) (index'.insert hash e')
  := by
  intro hash' hne
  rw [TreeMap.getElem?_insert_ite, TreeMap.getElem?_insert_ite]
  split_ifs with hhash
  · subst hhash
    apply Option.Rel.some hsame
  · apply h hash' hne

/-- A transaction that the miner has in its pool and the validator on disk. -/
theorem SameOutputs.addTx
    {env : Env} (h : SameOutputs reader reader' pos hashCoinbase index index') {tx : CTransaction}
    {posThisTx : CDiskTxPos} (hcoinbase : tx.isCoinBase = false) (hnull : posThisTx.isNull = false)
    (hpool : reader.mempool[tx.getHash env.crypto]? = some tx) (hpos : posThisTx ≠ CDiskTxPos.pool)
    (hdisk : reader'.disk posThisTx = some tx) :
  SameOutputs reader reader' pos hashCoinbase (addTx env index (CDiskTxPos.pool, tx))
    (addTx env index' (posThisTx, tx))
  := by
  apply SameOutputs.insert
  · apply h.setSlots
    rw [hnull]
    rfl
  · have hread : reader.readPrev (tx.getHash env.crypto) (CTxIndex.unspent CDiskTxPos.pool tx.vout.length)
        = some tx := by
      rw [TxReader.readPrev, CTxIndex.unspent, if_pos rfl, hpool]
    constructor
    · rw [hread, TxReader.readPrev, CTxIndex.unspent, if_neg hpos, hdisk]
    · rfl
    · right
      intro tx' htx'
      obtain rfl := Option.some.inj (hread.symm.trans htx')
      exact hcoinbase

variable {txindex : CTxIndex}

/-- What is behind a hash, for both. -/
theorem SameOutputs.prevOf
    (h : SameOutputs reader reader' pos hashCoinbase index index') (hne : hash ≠ hashCoinbase)
    {txPrev : CTransaction} (hprev : prevOf reader index hash = some (txindex, txPrev)) :
  ∃ txindex', prevOf reader' index' hash = some (txindex', txPrev)
    ∧ SameEntry reader reader' pos hash txindex txindex'
  := by
  obtain ⟨hget, hread⟩ := prevOf_eq_some_iff.mp hprev
  have hentry := h hash hne
  rw [hget] at hentry
  generalize hget' : index'[hash]? = found at hentry
  cases hentry with
  | some hsame =>
    rename_i txindex'
    refine ⟨txindex', prevOf_eq_some_iff.mpr ⟨hget', ?_⟩, hsame⟩
    rw [← hsame.read]
    exact hread

theorem SameEntry.length_eq
    {txindex' : CTxIndex} (h : SameEntry reader reader' pos hash txindex txindex') :
  txindex.vSpent.length = txindex'.vSpent.length
  := by
  have hlength := congrArg List.length h.marks
  rw [List.length_map, List.length_map] at hlength
  exact hlength

/-- An output that is unspent for the one is unspent for the other. -/
theorem SameEntry.getElem?_vSpent
    {txindex' : CTxIndex} (h : SameEntry reader reader' pos hash txindex txindex')
    {n : ℕ} (hslot : txindex.vSpent[n]? = some p) :
  ∃ p', txindex'.vSpent[n]? = some p' ∧ p'.isNull = p.isNull
  := by
  have hmark := congrArg (fun marks => marks[n]?) h.marks
  simp only [List.getElem?_map, hslot, Option.map_some] at hmark
  obtain ⟨p', hslot', heq⟩ := Option.map_eq_some_iff.mp hmark.symm
  exact ⟨p', hslot', heq⟩

/-! ## A transaction connects for both -/

/-- On top of a block, a coinbase of another block matures as it does one block below. -/
theorem immature_next
    {entry : BlockEntry} {pprev : CBlockIndex} {txpos : CDiskTxPos}
    (hother : ¬(entry.pos.nBlockPos = txpos.nBlockPos ∧ entry.pos.nFile = txpos.nFile))
    (h : immature (.next entry pprev) txpos = true) :
  immature pprev txpos = true
  := by
  rw [immature, CBlockIndex.chain, COINBASE_MATURITY, List.take_succ_cons, List.any_cons, Bool.or_eq_true] at h
  rcases h with h | h
  · rw [Bool.and_eq_true, beq_iff_eq, beq_iff_eq] at h
    exact absurd h hother
  · obtain ⟨p, hp, hat⟩ := List.any_eq_true.mp h
    exact List.any_eq_true.mpr ⟨p, (List.take_subset_take_left _ (by decide)) hp, hat⟩

variable {env : Env} {entry : BlockEntry} {pprev : CBlockIndex} {tx : CTransaction} {nValueIn nValueOut : Int64}

theorem SameOutputs.checkInputs
    (h : SameOutputs reader reader' entry.pos hashCoinbase index index') {vin : List CTxIn}
    (hvin : ∀ txin ∈ vin, txin.prevout.hash ≠ hashCoinbase) {nStart : Int64}
    (htally : checkInputs pprev (CorgiCoin.prevOf reader index) vin nStart = some nValueIn) :
  checkInputs (.next entry pprev) (CorgiCoin.prevOf reader' index') vin nStart = some nValueIn
  := by
  induction vin generalizing nStart with
  | nil => exact htally
  | cons txin vin ih =>
    obtain ⟨htxin, hvin⟩ := List.forall_mem_cons.mp hvin
    rw [checkInputs_cons, Option.bind_eq_some_iff] at htally ⊢
    obtain ⟨nMid, hstep, hrest⟩ := htally
    refine ⟨nMid, ?_, ih hvin hrest⟩
    obtain ⟨txindex, txPrev, txout, p, hprev, hout, hslot, hmature, hadd⟩ := checkInput_eq_some hstep
    obtain ⟨txindex', hprev', hsame⟩ := h.prevOf htxin hprev
    obtain ⟨p', hslot', -⟩ := hsame.getElem?_vSpent hslot
    have hmature' : (txPrev.isCoinBase && immature (.next entry pprev) txindex'.pos) = false := by
      cases hcoinbase : txPrev.isCoinBase with
      | false => rfl
      | true =>
        rw [hcoinbase, Bool.true_and] at hmature
        rw [Bool.true_and, Bool.eq_false_iff]
        rcases hsame.place with ⟨hpos, hother⟩ | hnot
        · rw [hpos]
          intro himmature
          rw [immature_next hother himmature] at hmature
          cases hmature
        · have hread := (prevOf_eq_some_iff.mp hprev).2
          rw [hnot txPrev hread] at hcoinbase
          cases hcoinbase
    simp only [checkInput, hprev', hout, hslot', hmature', Bool.false_eq_true, if_false]
    exact hadd

theorem verifySignature_of_strict
    {crypto : Crypto} {evalScript : EvalScript} {txFrom txTo : CTransaction} {nIn : ℕ}
    (h : verifySignature crypto evalScript txFrom txTo nIn true = true) (fValidatePayToScriptHash : Bool) :
  verifySignature crypto evalScript txFrom txTo nIn fValidatePayToScriptHash = true
  := by
  rw [verifySignature] at h ⊢
  cases htxin : txTo.vin[nIn]? with
  | none =>
    rw [htxin] at h
    cases h
  | some txin =>
    simp only [htxin] at h ⊢
    cases htxout : txFrom.vout[txin.prevout.n.toNat]? with
    | none =>
      rw [htxout] at h
      cases h
    | some txout =>
      simp only [htxout] at h ⊢
      split_ifs at h ⊢
      apply verifyScript_of_strict h

theorem SameOutputs.txConnects
    (h : SameOutputs reader reader' entry.pos hashCoinbase index index')
    (hvin : ∀ txin ∈ tx.vin, txin.prevout.hash ≠ hashCoinbase)
    (hconnects : TxConnects env reader true pprev index tx nValueIn nValueOut) (fStrict : Bool) :
  TxConnects env reader' fStrict (.next entry pprev) index' tx nValueIn nValueOut
  := by
  constructor
  · intro txin hmem
    obtain ⟨⟨txindex, txPrev⟩, hprev, hout, hspent⟩ := hconnects.found txin hmem
    obtain ⟨txindex', hprev', hsame⟩ := h.prevOf (hvin txin hmem) hprev
    refine ⟨_, hprev', hout, ?_⟩
    rw [← hsame.length_eq]
    exact hspent
  · apply h.checkInputs hvin hconnects.tally
  · intro input hmem
    obtain ⟨⟨txindex, txPrev⟩, p, hprev, hslot, hnull, hverify⟩ := hconnects.spendable input hmem
    have hne := hvin input.1 (List.fst_mem_of_mem_zipIdx hmem)
    obtain ⟨txindex', hprev', hsame⟩ := h.prevOf hne hprev
    obtain ⟨p', hslot', hnull'⟩ := hsame.getElem?_vSpent hslot
    refine ⟨_, p', hprev', hslot', hnull'.trans hnull, ?_⟩
    apply verifySignature_of_strict hverify fStrict
  · apply hconnects.getValueOut
  · apply hconnects.fee

theorem SameOutputs.p2shSigOps_eq
    (h : SameOutputs reader reader' entry.pos hashCoinbase index index')
    (hvin : ∀ txin ∈ tx.vin, txin.prevout.hash ≠ hashCoinbase) (hfound : InputsFound reader index tx) :
  p2shSigOps reader' index' tx = p2shSigOps reader index tx
  := by
  rw [p2shSigOps, p2shSigOps]
  congr 1
  apply List.map_congr_left
  intro txin hmem
  obtain ⟨⟨txindex, txPrev⟩, hprev, -⟩ := hfound txin hmem
  obtain ⟨txindex', hprev', -⟩ := h.prevOf (hvin txin hmem) hprev
  rw [p2shSigOpsOf, p2shSigOpsOf, hprev, hprev']
  rfl

end Same

/-! ## The loop of the validator -/

section Validate

variable {env : Env} {reader reader' : TxReader} {txIndex : TxIndexMap} {fEnforceBIP30 fStrict : Bool}

/-- A transaction that connects in the index is connected by the loop. -/
theorem exists_connectTx
    {pindex : CBlockIndex} {state : ConnectState} {tx : CTransaction} (hchecked : tx.Checked)
    (hcoinbase : tx.isCoinBase = false)
    (hbip30 : (fEnforceBIP30 && overwritesUnspent txIndex (tx.getHash env.crypto)) = false)
    {nValueIn nValueOut : Int64}
    (hconnects : TxConnects env reader fStrict pindex (TreeMap.overlay txIndex state.mapQueuedChanges) tx
      nValueIn nValueOut)
    (hsigops : state.nSigOps.toNat + (tx.getLegacySigOpCount.toNat
      + (p2shSigOps reader (TreeMap.overlay txIndex state.mapQueuedChanges) tx).toNat) ≤ 20000) :
  ∃ state', connectTx env reader txIndex pindex fEnforceBIP30 fStrict state tx = some state'
    ∧ state'.nSigOps.toNat ≤ state.nSigOps.toNat + (tx.getLegacySigOpCount.toNat
      + (p2shSigOps reader (TreeMap.overlay txIndex state.mapQueuedChanges) tx).toNat)
    ∧ state'.nFees = state.nFees + (nValueIn - nValueOut)
  := by
  have hmax : MAX_BLOCK_SIGOPS.toNat = 20000 := by decide
  have hlegacy : ¬state.nSigOps + tx.getLegacySigOpCount > MAX_BLOCK_SIGOPS := by
    rw [gt_iff_lt, UInt32.lt_iff_toNat_lt, UInt32.toNat_add, hmax]
    omega
  obtain ⟨mapInputs, mapNew, hfetch, hconnect⟩ := @exists_connectInputs env reader pindex txIndex
    state.mapQueuedChanges true false fStrict rfl tx hcoinbase hchecked.nodup nValueIn nValueOut
    (pindex.entry.pos.txPos state.nTxPos) hconnects
  obtain ⟨nValueIn', nValueOut', hconnects', hin, -⟩ :=
    connectInputs_eq_some rfl hcoinbase hchecked.nodup hfetch hconnect
  obtain rfl : nValueIn' = nValueIn := Option.some.inj (hconnects'.tally.symm.trans hconnects.tally)
  have hp2sh : ∃ nP2SHSigOps, strictSigOpCount fStrict mapInputs tx = some nP2SHSigOps
      ∧ nP2SHSigOps.toNat
        ≤ (p2shSigOps reader (TreeMap.overlay txIndex state.mapQueuedChanges) tx).toNat := by
    rw [strictSigOpCount]
    split_ifs
    · exact ⟨_, getP2SHSigOpCount_eq rfl hcoinbase hfetch, le_rfl⟩
    · exact ⟨0, rfl, Nat.zero_le _⟩
  obtain ⟨nP2SHSigOps, hstrict, hle⟩ := hp2sh
  have hredeem : ¬state.nSigOps + tx.getLegacySigOpCount + nP2SHSigOps > MAX_BLOCK_SIGOPS := by
    rw [gt_iff_lt, UInt32.lt_iff_toNat_lt, UInt32.toNat_add, UInt32.toNat_add, hmax]
    omega
  rw [connectTx, hbip30]
  simp only [Bool.false_eq_true, if_false, if_neg hlegacy, hcoinbase, hfetch, hstrict, Option.bind_eq_bind,
    Option.bind_some, if_neg hredeem, hin, hconnects.getValueOut, hconnect]
  refine ⟨_, rfl, ?_, rfl⟩
  simp only [UInt32.toNat_add]
  omega

variable {entry : BlockEntry} {pprev : CBlockIndex} {hashCoinbase : uint256}

/-- Every output of the coinbase's hash that the miner sees is spent. -/
def NoneUnspent (index : TxIndexMap) (hash : uint256) : Prop :=
  ∀ o : COutPoint, o.hash = hash → ∀ p, slot index o = some p → p.isNull = false

variable {index : TxIndexMap} {hash : uint256}

theorem noneUnspent_of_overwritesUnspent
    (h : overwritesUnspent index hash = false) :
  NoneUnspent index hash
  := by
  rintro o rfl p hslot
  obtain ⟨txindex, hget, hp⟩ := slot_eq_some_iff.mp hslot
  rw [overwritesUnspent, hget] at h
  have hall := List.any_eq_false.mp h p (List.mem_of_getElem? hp)
  simpa using hall

theorem NoneUnspent.addTx
    (h : NoneUnspent index hash) {p : CDiskTxPos × CTransaction}
    (hnull : p.1.isNull = false) (hne : p.2.getHash env.crypto ≠ hash) :
  NoneUnspent (addTx env index p) hash
  := by
  rintro o rfl q hslot
  obtain ⟨txindex, hget, hq⟩ := slot_eq_some_iff.mp hslot
  rw [CorgiCoin.addTx, TreeMap.getElem?_insert_ite, if_neg hne] at hget
  have hslot' : slot (setSlots p.1 index p.2.prevouts) o = some q := slot_eq_some_iff.mpr ⟨txindex, hget, hq⟩
  by_cases hmem : o ∈ p.2.prevouts
  · cases hold : slot index o with
    | none =>
      -- marking does not make an output
      have hshape := map_shape_setSlots p.1 index p.2.prevouts o.hash
      rw [hget, Option.map_some] at hshape
      obtain ⟨txindexOld, hgetOld, heq⟩ := Option.map_eq_some_iff.mp hshape.symm
      obtain ⟨hlt, -⟩ := List.getElem?_eq_some_iff.mp hq
      have hlength := (Prod.mk.inj heq).2
      rw [slot, hgetOld, Option.bind_some, List.getElem?_eq_none_iff] at hold
      omega
    | some r =>
      rw [slot_setSlots_of_mem p.1 hold hmem] at hslot'
      obtain rfl := Option.some.inj hslot'
      exact hnull
  · rw [slot_setSlots_of_not_mem p.1 hmem] at hslot'
    apply h o rfl q hslot'

/-- What connects spends nothing of a hash whose outputs are all spent. -/
theorem NoneUnspent.ne_of_connects
    (h : NoneUnspent index hash) {pindex : CBlockIndex} {tx : CTransaction}
    {nValueIn nValueOut : Int64} (hconnects : TxConnects env reader fStrict pindex index tx nValueIn nValueOut) :
  ∀ txin ∈ tx.vin, txin.prevout.hash ≠ hash
  := by
  rintro txin hmem rfl
  obtain ⟨i, hi⟩ := List.mem_iff_getElem?.mp hmem
  obtain ⟨prev, p, hprev, hslot, hnull, -⟩ :=
    hconnects.spendable (txin, i) (List.mk_mem_zipIdx_iff_getElem?.mpr hi)
  have hunspent := h txin.prevout rfl p
    (slot_eq_some_iff.mpr ⟨prev.1, (prevOf_eq_some_iff.mp hprev).1, hslot⟩)
  rw [hunspent] at hnull
  cases hnull

/-- What is known of a transaction that the miner took, besides that it connects. -/
structure Minable (env : Env) (reader : TxReader) (txIndex : TxIndexMap) (hashCoinbase : uint256)
    (tx : CTransaction) : Prop where
  checked : tx.Checked
  notCoinBase : tx.isCoinBase = false
  notOverwriting : overwritesUnspent txIndex (tx.getHash env.crypto) = false
  inPool : reader.mempool[tx.getHash env.crypto]? = some tx
  other : tx.getHash env.crypto ≠ hashCoinbase

theorem atPool_cons (tx : CTransaction) (vtx : List CTransaction) :
  atPool (tx :: vtx) = (CDiskTxPos.pool, tx) :: atPool vtx
  := rfl

/-- What connects for the miner one after the other connects for the validator. -/
theorem exists_foldlM_connectTx
    {vtx : List CTransaction} {index : TxIndexMap} {state : ConnectState}
    (hsame : SameOutputs reader reader' entry.pos hashCoinbase index
      (TreeMap.overlay txIndex state.mapQueuedChanges))
    (hspent : NoneUnspent index hashCoinbase)
    (hconnects : TxsConnect env reader true pprev index (atPool vtx))
    (hvtx : ∀ tx ∈ vtx, Minable env reader txIndex hashCoinbase tx)
    (hplaced : ∀ p ∈ txPositions entry.pos state.nTxPos vtx, reader'.disk p.1 = some p.2)
    (hsigops : state.nSigOps.toNat + totalSigOps env reader index (atPool vtx) ≤ 20000) :
  ∃ state', vtx.foldlM (connectTx env reader' txIndex (.next entry pprev) fEnforceBIP30 fStrict) state
      = some state'
    ∧ state'.nFees = state.nFees + Int64.ofInt (totalFees env reader index (atPool vtx))
  := by
  induction vtx generalizing index state with
  | nil =>
    refine ⟨state, rfl, ?_⟩
    simp [atPool, totalFees]
  | cons tx vtx ih =>
    obtain ⟨htx, hvtx⟩ := List.forall_mem_cons.mp hvtx
    rw [txPositions, List.forall_mem_cons] at hplaced
    obtain ⟨hdisk, hplaced⟩ := hplaced
    rw [atPool_cons, TxsConnect] at hconnects
    obtain ⟨hfirst, hrest⟩ := hconnects
    have hfirst' : ∃ nValueIn nValueOut, TxConnects env reader true pprev index tx nValueIn nValueOut :=
      hfirst htx.notCoinBase
    obtain ⟨nValueIn, nValueOut, hmined⟩ := hfirst'
    have hvin := hspent.ne_of_connects hmined
    have hvalid := hsame.txConnects hvin hmined fStrict
    have hp2sh := hsame.p2shSigOps_eq hvin hmined.found
    simp only [atPool_cons, totalSigOps] at hsigops
    rw [← hp2sh] at hsigops
    have hbip30 : (fEnforceBIP30 && overwritesUnspent txIndex (tx.getHash env.crypto)) = false := by
      rw [htx.notOverwriting, Bool.and_false]
    obtain ⟨mid, hstep, hmid, hfees⟩ :=
      @exists_connectTx env reader' txIndex fEnforceBIP30 fStrict (.next entry pprev) state tx htx.checked
        htx.notCoinBase hbip30 nValueIn nValueOut hvalid (by omega)
    obtain ⟨-, -, hoverlay, -, hpos⟩ := connectTx_eq_some htx.checked hstep
    have hentry : (CBlockIndex.next entry pprev).entry.pos = entry.pos := rfl
    rw [hentry] at hoverlay
    have hsame' := hsame.addTx htx.notCoinBase (entry.pos.isNull_txPos state.nTxPos) htx.inPool
      (entry.pos.txPos_ne_pool state.nTxPos) hdisk
    rw [← hoverlay] at hsame'
    obtain ⟨state', hrun, hfees'⟩ := ih hsame' (hspent.addTx rfl htx.other) hrest hvtx
      (by rw [hpos]; exact hplaced) (by omega)
    refine ⟨state', ?_, ?_⟩
    · rw [List.foldlM_cons, hstep]
      exact hrun
    · rw [hfees', hfees, atPool_cons, totalFees, Int64.ofInt_add,
        ← (hmined.toInt_fee htx.notCoinBase).1, Int64.ofInt_toInt, Int64.add_assoc]

end Validate

/-! ## Where the entries of an index are -/

/-- A transaction of the index is in a block of the chain. -/
def PlacedIn (pindex : CBlockIndex) (index : TxIndexMap) : Prop :=
  ∀ (hash : uint256) (txindex : CTxIndex), index[hash]? = some txindex →
    ∃ p ∈ pindex.chain, p.pprev ≠ none ∧ txindex.pos.nFile = p.entry.pos.nFile
      ∧ txindex.pos.nBlockPos = p.entry.pos.nBlockPos

section Places

variable {env : Env} {files files' : BlockFiles} {pindex : CBlockIndex} {index : TxIndexMap}

theorem PlacedIn.foldl_addTx
    {placed : List (CDiskTxPos × CTransaction)} (h : PlacedIn pindex index) (hpprev : pindex.pprev ≠ none)
    (hplaced : ∀ p ∈ placed, ∃ n, p.1 = pindex.entry.pos.txPos n) :
  PlacedIn pindex (placed.foldl (addTx env) index)
  := by
  induction placed generalizing index with
  | nil => exact h
  | cons p placed ih =>
    obtain ⟨⟨n, hp⟩, hplaced⟩ := List.forall_mem_cons.mp hplaced
    apply ih _ hplaced
    intro hash txindex hget
    rw [addTx, TreeMap.getElem?_insert_ite] at hget
    split_ifs at hget
    · obtain rfl := Option.some.inj hget
      refine ⟨pindex, CBlockIndex.mem_chain_self _, hpprev, ?_⟩
      rw [CTxIndex.unspent, hp]
      exact ⟨rfl, rfl⟩
    · have hshape := map_shape_setSlots p.1 index p.2.prevouts hash
      rw [hget, Option.map_some] at hshape
      obtain ⟨txindexOld, hold, heq⟩ := Option.map_eq_some_iff.mp hshape.symm
      rw [← (Prod.mk.inj heq).1]
      apply h hash txindexOld hold

/-- The index of a stored chain has only transactions of its blocks. -/
theorem Replays.placedIn
    (hstored : ChainStored env files pindex) (h : Replays env files pindex index) :
  PlacedIn pindex index
  := by
  induction pindex generalizing index with
  | first entry =>
    obtain ⟨t, ht⟩ := h
    obtain rfl := Option.some.inj ht
    intro hash txindex hget
    simp at hget
  | next entry pprev ih =>
    obtain ⟨⟨block, hblock⟩, hchain⟩ := hstored
    obtain ⟨mid, block', t, hmid, hread, hconnect⟩ := replays_next_iff.mp h
    obtain ⟨txdb', hconnects, rfl⟩ := CBlock.connectIndex_eq_some hconnect
    rw [hconnects.txIndex_eq]
    have hbelow : PlacedIn (.next entry pprev) mid := by
      intro hash txindex hget
      obtain ⟨p, hp, rest⟩ := ih hchain hmid hash txindex hget
      exact ⟨p, List.mem_cons_of_mem _ hp, rest⟩
    apply hbelow.foldl_addTx (Option.some_ne_none _)
    intro p hmem
    exact (mem_txPositions hmem).2

/-- The blocks of a stored chain are in the files. -/
theorem ChainStored.holds
    (h : ChainStored env files pindex) {p : CBlockIndex} (hp : p ∈ pindex.chain) (hpprev : p.pprev ≠ none) :
  ∃ data, data ≠ [] ∧ files.Holds p.entry.pos.nFile p.entry.pos.nBlockPos.toNat data
  := by
  induction pindex with
  | first entry =>
    obtain rfl := List.mem_singleton.mp hp
    exact absurd rfl hpprev
  | next entry pprev ih =>
    obtain ⟨⟨block, hblock⟩, hchain⟩ := h
    rcases List.mem_cons.mp hp with rfl | hp
    · refine ⟨_, ?_, hblock.holds⟩
      intro hnil
      have hlength := congrArg List.length hnil
      rw [CBlock.bytes, List.length_append, CPureBlockHeader.length_serialize, List.length_nil] at hlength
      omega
    · apply ih hchain hp

/-- A block is written where nothing was before. -/
theorem BlockFiles.Holds.ne_of_writeToDisk
    {nFile nBlockPos : UInt32} {data : Bytes} (h : files.Holds nFile nBlockPos.toNat data) (hne : data ≠ [])
    {network : Network} {block : CBlock} {pos : BlockPos}
    (hwrite : files.writeToDisk network block = some (files', pos)) :
  ¬(pos.nBlockPos = nBlockPos ∧ pos.nFile = nFile)
  := by
  obtain ⟨bytes, rest, hopen, hdrop⟩ := h
  rw [writeToDisk] at hwrite
  simp only [Option.bind_eq_bind, Option.bind_eq_some_iff] at hwrite
  obtain ⟨⟨room, hroom⟩, happend, nSize, -, serialized, -, heq⟩ := hwrite
  obtain ⟨-, rfl⟩ := Prod.mk.inj (Option.some.inj heq)
  rintro ⟨hpos, rfl⟩
  have hlt : room.current.length < 0x7F000000 - MAX_SIZE := hroom.2
  have hsize : MAX_SIZE = 0x02000000 := rfl
  have hat : nBlockPos.toNat = room.current.length + 8 := by
    rw [← hpos, nextPos, UInt32.toNat_ofNat_of_lt' (by simp [UInt32.size]; omega)]
  rw [← openBlockFile_congr (files_appendBlockFile happend), openBlockFile] at hopen
  split_ifs at hopen
  obtain ⟨file, hget, rfl⟩ := Option.map_eq_some_iff.mp hopen
  have hcurrent : room.current = file := by
    have hfile : (room.nextPos hroom).nFile = room.nCurrentBlockFile := rfl
    rw [current, ← hfile, hget, Option.getD_some]
  have hlength := congrArg List.length hdrop
  rw [List.length_drop, List.length_append, BlockFile.length_bytes, ← hcurrent] at hlength
  have hdata := List.length_pos_iff.mpr hne
  omega

end Places

/-! ## Connecting a block of a template -/

section Connect

variable {env : Env} {files files' : BlockFiles} {mempool mempool' : ExtTreeMap uint256 CTransaction compare}
  {best : CBlockIndex} {entry : BlockEntry} {index : TxIndexMap} {block : CBlock} {coinbase : CTransaction}
  {vtx : List CTransaction}

/-- The miner and the validator start with the same outputs, apart from those of the coinbase. -/
theorem sameOutputs_start
    (hchain : ChainStored env files best) (hreplays : Replays env files best index)
    (hext : files.Extends files') {network : Network}
    (hwrite : files.writeToDisk network block = some (files', entry.pos)) (hash : uint256) (e : CTxIndex) :
  SameOutputs ⟨files.readTx, mempool⟩ ⟨files'.readTx, mempool'⟩ entry.pos hash index
    (TreeMap.overlay index ((∅ : TxIndexMap).insert hash e))
  := by
  have halike := (hreplays.facts hchain).located.readsAlike hext mempool mempool'
  rw [TreeMap.overlay_insert, TreeMap.overlay_empty]
  intro hash' hne
  rw [TreeMap.getElem?_insert_ite, if_neg hne.symm]
  cases hget : index[hash']? with
  | none => apply Option.Rel.none
  | some txindex =>
    apply Option.Rel.some
    obtain ⟨p, hp, hpprev, hfile, hblock⟩ := hreplays.placedIn hchain hash' txindex hget
    obtain ⟨data, hne, hholds⟩ := hchain.holds hp hpprev
    constructor
    · apply halike hash' txindex hget
    · rfl
    · left
      refine ⟨rfl, ?_⟩
      rw [hfile, hblock]
      apply hholds.ne_of_writeToDisk hne hwrite

/-- What a miner took after its coinbase connects on top of the same block. -/
theorem exists_connectBlock
    {txdb : CTxDB} {nAdjustedTime : ℤ} (hchain : ChainStored env files best)
    (hreplays : Replays env files best txdb.txIndex)
    (hwrite : files.writeToDisk env.network block = some (files', entry.pos))
    (hstored : Stored env files' best entry block) (hcheck : block.checkBlock env nAdjustedTime = true)
    (hvtx : block.vtx = coinbase :: vtx)
    (hnew : overwritesUnspent txdb.txIndex (coinbase.getHash env.crypto) = false)
    (hminable : ∀ tx ∈ vtx,
      Minable env ⟨files.readTx, mempool⟩ txdb.txIndex (coinbase.getHash env.crypto) tx)
    (hconnects : TxsConnect env ⟨files.readTx, mempool⟩ true best txdb.txIndex (atPool vtx))
    (hsigops : coinbase.getLegacySigOpCount.toNat
      + totalSigOps env ⟨files.readTx, mempool⟩ txdb.txIndex (atPool vtx) ≤ 20000)
    {nValueOut : Int64} (hout : coinbase.getValueOut = some nValueOut)
    (hreward : nValueOut ≤ getBlockValue (best.nHeight + 1)
      (Int64.ofInt (totalFees env ⟨files.readTx, mempool⟩ txdb.txIndex (atPool vtx))) best.getBlockHash) :
  ∃ txdb', block.connectBlock env ⟨files'.readTx, mempool'⟩ nAdjustedTime txdb (.next entry best) = some txdb'
  := by
  obtain ⟨hext, -, -⟩ := BlockFiles.writeToDisk_eq_some hstored.present hwrite
  have hcoinbase : coinbase.isCoinBase = true := by
    obtain ⟨first, rest, heq, hfirst, -⟩ := (CBlock.checked_of_checkBlock hcheck).exists_coinbase
    obtain ⟨rfl, -⟩ := List.cons.inj (hvtx.symm.trans heq)
    exact hfirst
  obtain ⟨nTxPos, hstart⟩ : ∃ nTxPos, block.txStart entry.pos = some nTxPos := by
    rw [CBlock.txStart, CBlock.getSerializeSize_eq _ hstored.present]
    exact ⟨_, rfl⟩
  have hplaced : block.placed entry.pos = txPositions entry.pos nTxPos (coinbase :: vtx) := by
    rw [CBlock.placed, hstart, hvtx]
    rfl
  have hdisk : ∀ p ∈ txPositions entry.pos (nTxPos + coinbase.getSerializeSize) vtx,
      files'.readTx p.1 = some p.2 := by
    intro p hmem
    have hmem' : p ∈ block.placed entry.pos := by
      rw [hplaced]
      apply List.mem_cons_of_mem _ hmem
    obtain ⟨-, hfits, hholds⟩ := hstored.holds_placed p hmem'
    apply BlockFiles.readTx_of_holds hfits hholds
  have hmax : MAX_BLOCK_SIGOPS.toNat = 20000 := by decide
  have hlegacy : ¬(0 : UInt32) + coinbase.getLegacySigOpCount > MAX_BLOCK_SIGOPS := by
    rw [gt_iff_lt, UInt32.zero_add, UInt32.lt_iff_toNat_lt, hmax]
    omega
  -- the coinbase comes first
  have hfirst : ∀ fEnforceBIP30 fStrict, connectTx env ⟨files'.readTx, mempool'⟩ txdb.txIndex
      (.next entry best) fEnforceBIP30 fStrict ⟨∅, 0, 0, nTxPos⟩ coinbase
      = some ⟨(∅ : TxIndexMap).insert (coinbase.getHash env.crypto)
          (CTxIndex.unspent (entry.pos.txPos nTxPos) coinbase.vout.length), 0,
          0 + coinbase.getLegacySigOpCount, nTxPos + coinbase.getSerializeSize⟩ := by
    intro fEnforceBIP30 fStrict
    rw [connectTx]
    simp only [hnew, Bool.and_false, Bool.false_eq_true, if_false, if_neg hlegacy, hcoinbase, if_true]
    rfl
  have hsame := @sameOutputs_start env files files' mempool mempool' best entry txdb.txIndex block hchain hreplays
    hext env.network hwrite (coinbase.getHash env.crypto)
    (CTxIndex.unspent (entry.pos.txPos nTxPos) coinbase.vout.length)
  obtain ⟨state, hrun, hfees⟩ := @exists_foldlM_connectTx env ⟨files.readTx, mempool⟩ ⟨files'.readTx, mempool'⟩
    txdb.txIndex (decide ((CBlockIndex.next entry best).getBlockTime > nBIP30SwitchTime))
    (decide ((CBlockIndex.next entry best).getBlockTime ≥ nBIP16SwitchTime)) entry best _ vtx txdb.txIndex
    ⟨(∅ : TxIndexMap).insert (coinbase.getHash env.crypto)
      (CTxIndex.unspent (entry.pos.txPos nTxPos) coinbase.vout.length), 0,
      0 + coinbase.getLegacySigOpCount, nTxPos + coinbase.getSerializeSize⟩ hsame
    (noneUnspent_of_overwritesUnspent hnew) hconnects hminable hdisk
    (by rw [UInt32.zero_add]; exact hsigops)
  rw [Int64.zero_add] at hfees
  have hreward' : ¬nValueOut > getBlockValue (best.nHeight + 1) state.nFees best.getBlockHash := by
    rw [hfees]
    exact Int64.not_lt.mpr hreward
  have hentry : (CBlockIndex.next entry best).entry = entry := rfl
  have hheight : (CBlockIndex.next entry best).nHeight = best.nHeight + 1 := rfl
  have hprev : (CBlockIndex.next entry best).prevHash = best.getBlockHash := rfl
  rw [CBlock.connectBlock, hcheck, hentry, hstart, hvtx, hheight, hprev]
  simp only [Bool.not_true, Bool.false_eq_true, if_false, Option.bind_eq_bind, Option.bind_some, List.foldlM_cons,
    hfirst, List.head?_cons, hout]
  rw [hrun, Option.bind_some, if_neg hreward']
  exact ⟨_, rfl⟩

end Connect

end CorgiCoin
