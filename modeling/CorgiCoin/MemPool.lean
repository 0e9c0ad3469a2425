import CorgiCoin.Inputs

/-!
# The memory pool

Transactions that wait for a block, and for every output they spend which of them spends it and
with which input.  `Consistent` says that the two maps tell the same; it is kept by adding a
transaction that spends nothing the pool spends, and by removing a transaction as long as the
copy the caller has is the one in the pool.
-/

namespace CorgiCoin

open Std

/-! ## Order on outpoints -/

/-- `operator<` of `COutPoint`: by hash, then by position. -/
instance : Ord COutPoint :=
  ⟨compareLex (compareOn COutPoint.hash) (compareOn COutPoint.n)⟩

instance : TransOrd COutPoint :=
  inferInstanceAs (TransCmp (compareLex (compareOn COutPoint.hash) (compareOn COutPoint.n)))

instance : LawfulEqOrd COutPoint where
  eq_of_compare {a b} h := by
    obtain ⟨hhash, hn⟩ := compareLex_eq_eq.mp h
    obtain ⟨hash, n⟩ := a
    obtain ⟨hash', n'⟩ := b
    obtain rfl : hash = hash' := LawfulEqOrd.eq_of_compare hhash
    obtain rfl : n = n' := LawfulEqOrd.eq_of_compare hn
    rfl

/-! ## Policy -/

def MIN_TX_FEE : Int64 := 100000000
def MIN_RELAY_TX_FEE : Int64 := MIN_TX_FEE
def LOCKTIME_THRESHOLD : ℤ := 500000000

/-- `GetMinFee_mode`. -/
inductive GetMinFeeMode where
  | block
  | relay
  | send
  deriving DecidableEq, Repr

namespace CTransaction

/-- `CTransaction::IsFinal` at a height and a time; a zero stands for those of the tip and the
clock. -/
def isFinal (nBestHeight nAdjustedTime : ℤ) (tx : CTransaction) (nBlockHeight nBlockTime : ℤ) :
    Bool :=
  let nLockTime : ℤ := tx.nLockTime.toNat
  if nLockTime = 0 then true
  else
    let nBlockHeight := if nBlockHeight = 0 then nBestHeight else nBlockHeight
    let nBlockTime := if nBlockTime = 0 then nAdjustedTime else nBlockTime
    if nLockTime < (if nLockTime < LOCKTIME_THRESHOLD then nBlockHeight else nBlockTime) then true
    else tx.vin.all CTxIn.isFinal

/-- `CTransaction::IsStandard`. -/
def isStandard (env : Env) (tx : CTransaction) : Bool :=
  if tx.nVersion > 1 then false
  else if tx.vin.any (fun txin => txin.scriptSig.length > 500 || !isPushOnly txin.scriptSig) then
    false
  else if tx.vout.any (fun txout => !env.isStandardScript txout.scriptPubKey) then false
  else
    let nDataOut := tx.vout.countP (fun txout =>
      txout.scriptPubKey.head?.map UInt8.toNat == some OP_RETURN)
    !decide (nDataOut > 1)

/-- `CTransaction::AreInputsStandard`. -/
def areInputsStandard (env : Env) (inputs : MapPrevTx) (tx : CTransaction) : Bool :=
  tx.isCoinBase || tx.vin.zipIdx.all (fun (txin, i) =>
    match getOutputFor inputs txin with
    | none => false
    | some prev => env.isStandardInput prev tx i)

/-- `CTransaction::GetMinFee`. -/
def getMinFee (tx : CTransaction) (nBlockSize : UInt32) (fAllowFree : Bool)
    (mode : GetMinFeeMode) : Int64 :=
  let nBaseFee := if mode = .relay then MIN_RELAY_TX_FEE else MIN_TX_FEE
  let nBytes := tx.getSerializeSize
  let nNewBlockSize := nBlockSize + nBytes
  let nMinFee := (1 + Int64.ofNat (nBytes.toNat / 1000)) * nBaseFee
  let fFree := fAllowFree
    && (if nBlockSize = 1 then decide (nBytes < 10000) else decide (nNewBlockSize < 27000))
  let nMinFee := if fFree then 0 else nMinFee
  let nMinFee := tx.vout.foldl (fun nMinFee txout =>
    if txout.nValue < COIN then nMinFee + nBaseFee else nMinFee) nMinFee
  let clamp (nMinFee : Int64) : Int64 := if moneyRange nMinFee then nMinFee else MAX_MONEY
  if nBlockSize ≠ 1 ∧ nNewBlockSize ≥ MAX_BLOCK_SIZE_GEN / 2 then
    if nNewBlockSize ≥ MAX_BLOCK_SIZE_GEN then MAX_MONEY
    else
      clamp (nMinFee * Int64.ofNat (MAX_BLOCK_SIZE_GEN / (MAX_BLOCK_SIZE_GEN - nNewBlockSize)).toNat)
  else clamp nMinFee

end CTransaction

/-! ## The pool -/

/-- An input of a transaction of the pool, which the source points to and the model names by
its key in `mapTx`. -/
structure CInPoint where
  hash : uint256
  n : ℕ
  deriving DecidableEq, Repr

structure CTxMemPool where
  mapTx : ExtTreeMap uint256 CTransaction compare
  mapNextTx : ExtTreeMap COutPoint CInPoint compare

namespace CTxMemPool

def empty : CTxMemPool := ⟨∅, ∅⟩

/-- `CTxMemPool::addUnchecked`. -/
def addUnchecked (pool : CTxMemPool) (hash : uint256) (tx : CTransaction) : CTxMemPool where
  mapTx := pool.mapTx.insert hash tx
  mapNextTx := tx.vin.zipIdx.foldl (fun mapNextTx (txin, i) =>
    mapNextTx.insert txin.prevout ⟨hash, i⟩) pool.mapNextTx

/-- `CTxMemPool::remove`: the entries erased are those of the caller's transaction. -/
def remove (env : Env) (pool : CTxMemPool) (tx : CTransaction) : CTxMemPool :=
  let hash := tx.getHash env.crypto
  if pool.mapTx.contains hash then
    { mapNextTx := tx.vin.foldl (fun mapNextTx txin => mapNextTx.erase txin.prevout)
        pool.mapNextTx
      mapTx := pool.mapTx.erase hash }
  else pool

/-- The checks of `accept` against the chain: the inputs are there, standard, pay enough and
may be spent.  The limit on free transactions has state and a clock of its own; whether it
would reject the transaction is given. -/
def checkInputsOf (env : Env) (pool : CTxMemPool) (disk : CDiskTxPos → Option CTransaction)
    (txIndex : TxIndexMap) (pindexBest : CBlockIndex) (fRateLimited : Bool) (tx : CTransaction) :
    Bool :=
  match tx.fetchInputs ⟨disk, pool.mapTx⟩ txIndex ∅ false false with
  | .error _ => false
  | .ok mapInputs =>
    if !tx.areInputsStandard env mapInputs && !env.network.fTestNet then false
    else
      match tx.getValueIn mapInputs, tx.getValueOut with
      | some nValueIn, some nValueOut =>
        let nFees := nValueIn - nValueOut
        if nFees < tx.getMinFee 1000 true .relay then false
        else if nFees < MIN_RELAY_TX_FEE && fRateLimited then false
        else (tx.connectInputs env mapInputs ∅ CDiskTxPos.pool pindexBest false false true).isSome
      | _, _ => false

/-- `CTxMemPool::accept`: the pool after it, or `none` where it returns false. -/
def accept (env : Env) (pool : CTxMemPool) (disk : CDiskTxPos → Option CTransaction)
    (txIndex : TxIndexMap) (pindexBest : CBlockIndex) (tx : CTransaction)
    (fCheckInputs fRateLimited : Bool) : Option CTxMemPool :=
  if !tx.checkTransaction then none
  else if tx.isCoinBase then none
  else if tx.nLockTime.toNat > 0x7fffffff then none
  else if !env.network.fTestNet && !tx.isStandard env then none
  else
    let hash := tx.getHash env.crypto
    if pool.mapTx.contains hash then none
    else if fCheckInputs && txIndex.contains hash then none
    -- replacing a transaction by a newer version of it is disabled
    else if tx.vin.any (fun txin => pool.mapNextTx.contains txin.prevout) then none
    else if fCheckInputs
        && !pool.checkInputsOf env disk txIndex pindexBest fRateLimited tx then none
    else some (pool.addUnchecked hash tx)

/-! ## Consistency -/

/-- The maps agree: an output is mapped to an input exactly when a transaction of the pool
spends it with that input. -/
def Consistent (pool : CTxMemPool) : Prop :=
  ∀ (o : COutPoint) (inpoint : CInPoint), pool.mapNextTx[o]? = some inpoint
    ↔ ∃ tx, pool.mapTx[inpoint.hash]? = some tx
      ∧ tx.vin[inpoint.n]?.map CTxIn.prevout = some o

section Consistency

variable {env : Env} {pool : CTxMemPool} {hash : uint256} {tx : CTransaction}

theorem mem_zipIdx_iff
    {vin : List CTxIn} {txin : CTxIn} {i : ℕ} :
  (txin, i) ∈ vin.zipIdx ↔ vin[i]? = some txin
  := List.mk_mem_zipIdx_iff_getElem?

/-- Adding a transaction that is not in the pool and spends nothing the pool spends. -/
theorem Consistent.addUnchecked
    (h : pool.Consistent) (hnew : pool.mapTx[hash]? = none)
    (hnodup : (tx.vin.map CTxIn.prevout).Nodup)
    (hfree : ∀ txin ∈ tx.vin, pool.mapNextTx[txin.prevout]? = none) :
  (pool.addUnchecked hash tx).Consistent
  := by
  intro o inpoint
  have hkeys : (tx.vin.zipIdx.map (fun input => input.1.prevout)).Nodup := by
    have hcompose : tx.vin.zipIdx.map (fun input => input.1.prevout)
        = (tx.vin.zipIdx.map Prod.fst).map CTxIn.prevout := by
      rw [List.map_map]
      rfl
    rw [hcompose, List.zipIdx_map_fst]
    apply hnodup
  rw [CTxMemPool.addUnchecked, TreeMap.getElem?_foldl_insert hkeys, TreeMap.getElem?_insert_ite]
  constructor
  · rintro (⟨⟨txin, i⟩, hmem, rfl, rfl⟩ | ⟨hnone, hold⟩)
    · rw [mem_zipIdx_iff] at hmem
      refine ⟨tx, if_pos rfl, ?_⟩
      simp only [hmem, Option.map_some]
    · obtain ⟨tx', htx', hspends⟩ := (h o inpoint).mp hold
      refine ⟨tx', ?_, hspends⟩
      rw [if_neg, htx']
      rintro rfl
      rw [hnew] at htx'
      cases htx'
  · rintro ⟨tx', htx', hspends⟩
    split_ifs at htx' with hhash
    · left
      obtain rfl := Option.some.inj htx'
      obtain ⟨txin, htxin, hprevout⟩ := Option.map_eq_some_iff.mp hspends
      refine ⟨(txin, inpoint.n), mem_zipIdx_iff.mpr htxin, hprevout, ?_⟩
      rw [hhash]
    · right
      have hold := (h o inpoint).mpr ⟨tx', htx', hspends⟩
      refine ⟨?_, hold⟩
      rintro ⟨txin, i⟩ hmem rfl
      rw [hfree txin (List.fst_mem_of_mem_zipIdx hmem)] at hold
      cases hold

/-- Removing a transaction whose copy in the pool, if there is one, is the same. -/
theorem Consistent.remove
    (h : pool.Consistent)
    (hsame : ∀ tx', pool.mapTx[tx.getHash env.crypto]? = some tx' → tx' = tx) :
  (pool.remove env tx).Consistent
  := by
  rw [CTxMemPool.remove]
  split_ifs with hcontains
  · rw [ExtTreeMap.contains_iff_mem, ExtTreeMap.mem_iff_isSome_getElem?,
      Option.isSome_iff_exists] at hcontains
    obtain ⟨tx', hget⟩ := hcontains
    obtain rfl := hsame tx' hget
    intro o inpoint
    simp only [TreeMap.getElem?_foldl_erase, TreeMap.getElem?_erase_ite]
    constructor
    · rintro ⟨hnone, hold⟩
      obtain ⟨tx, htx, hspends⟩ := (h o inpoint).mp hold
      refine ⟨tx, ?_, hspends⟩
      rw [if_neg, htx]
      intro hhash
      rw [← hhash, hget] at htx
      obtain rfl := Option.some.inj htx
      obtain ⟨txin, htxin, hprevout⟩ := Option.map_eq_some_iff.mp hspends
      exact hnone txin (List.mem_of_getElem? htxin) hprevout
    · rintro ⟨tx, htx, hspends⟩
      split_ifs at htx with hhash
      have hold := (h o inpoint).mpr ⟨tx, htx, hspends⟩
      refine ⟨?_, hold⟩
      rintro txin hmem rfl
      -- the transaction removed is the only one that spends what its inputs spend
      obtain ⟨i, hi⟩ := List.mem_iff_getElem?.mp hmem
      have hown := (h txin.prevout ⟨tx'.getHash env.crypto, i⟩).mpr ⟨tx', hget, by simp [hi]⟩
      rw [hold] at hown
      exact hhash (CInPoint.mk.inj (Option.some.inj hown)).1.symm
  · apply h

/-- In a consistent pool no output is spent twice. -/
theorem Consistent.unique
    (h : pool.Consistent) {hash' : uint256} {tx' : CTransaction} {i j : ℕ} {txin txin' : CTxIn}
    (htx : pool.mapTx[hash]? = some tx) (htx' : pool.mapTx[hash']? = some tx')
    (hi : tx.vin[i]? = some txin) (hj : tx'.vin[j]? = some txin')
    (hsame : txin.prevout = txin'.prevout) :
  hash = hash' ∧ i = j
  := by
  have hnext := (h txin.prevout ⟨hash, i⟩).mpr ⟨tx, htx, by simp [hi]⟩
  have hnext' := (h txin.prevout ⟨hash', j⟩).mpr ⟨tx', htx', by simp [hj, hsame]⟩
  rw [hnext] at hnext'
  apply CInPoint.mk.inj (Option.some.inj hnext')

/-- What `accept` checks of a transaction it takes. -/
theorem accept_eq_some
    {disk : CDiskTxPos → Option CTransaction} {txIndex : TxIndexMap} {pindexBest : CBlockIndex}
    {fCheckInputs fRateLimited : Bool} {pool' : CTxMemPool}
    (h : pool.accept env disk txIndex pindexBest tx fCheckInputs fRateLimited = some pool') :
  tx.checkTransaction = true ∧ tx.isCoinBase = false
    ∧ pool.mapTx[tx.getHash env.crypto]? = none
    ∧ (∀ txin ∈ tx.vin, pool.mapNextTx[txin.prevout]? = none)
    ∧ pool' = pool.addUnchecked (tx.getHash env.crypto) tx
  := by
  rw [accept] at h
  simp only at h
  split_ifs at h with hcheck hcoinbase _ _ hhave _ hspent _
  obtain rfl := Option.some.inj h
  refine ⟨?_, ?_, ?_, ?_, rfl⟩
  · simpa using hcheck
  · simpa using hcoinbase
  · apply ExtTreeMap.getElem?_eq_none_of_contains_eq_false
    apply Bool.eq_false_of_not_eq_true hhave
  · intro txin hmem
    apply ExtTreeMap.getElem?_eq_none_of_contains_eq_false
    apply Bool.eq_false_of_not_eq_true
    intro hcontains
    exact hspent (List.any_eq_true.mpr ⟨txin, hmem, hcontains⟩)

/-- The pool is consistent and holds checked transactions of a set under their hashes. -/
structure Valid (env : Env) (txs : Set CTransaction) (pool : CTxMemPool) : Prop where
  consistent : pool.Consistent
  key : ∀ (hash : uint256) (tx : CTransaction), pool.mapTx[hash]? = some tx →
    tx.getHash env.crypto = hash
  mem : ∀ (hash : uint256) (tx : CTransaction), pool.mapTx[hash]? = some tx → tx ∈ txs
  checked : ∀ (hash : uint256) (tx : CTransaction), pool.mapTx[hash]? = some tx →
    tx.checkTransaction = true ∧ tx.isCoinBase = false

variable {txs : Set CTransaction}

theorem valid_empty : Valid env txs empty
  := by
  constructor
  · intro o inpoint
    simp [empty]
  all_goals
    intro hash tx hget
    simp [empty] at hget

theorem Valid.accept
    (h : pool.Valid env txs) (hmem : tx ∈ txs)
    {disk : CDiskTxPos → Option CTransaction} {txIndex : TxIndexMap} {pindexBest : CBlockIndex}
    {fCheckInputs fRateLimited : Bool} {pool' : CTxMemPool}
    (haccept : pool.accept env disk txIndex pindexBest tx fCheckInputs fRateLimited
      = some pool') :
  pool'.Valid env txs
  := by
  obtain ⟨hcheck, hcoinbase, hnew, hfree, rfl⟩ := accept_eq_some haccept
  have hnodup := (CTransaction.checked_of_checkTransaction hcheck).nodup
  have hget : ∀ (hash : uint256) (tx' : CTransaction),
      (pool.addUnchecked (tx.getHash env.crypto) tx).mapTx[hash]? = some tx' →
      (tx.getHash env.crypto = hash ∧ tx' = tx) ∨ pool.mapTx[hash]? = some tx' := by
    intro hash tx' hget
    rw [CTxMemPool.addUnchecked, TreeMap.getElem?_insert_ite] at hget
    split_ifs at hget with hhash
    · left
      exact ⟨hhash, (Option.some.inj hget).symm⟩
    · right
      apply hget
  refine ⟨h.consistent.addUnchecked hnew hnodup hfree, ?_, ?_, ?_⟩
  · intro hash tx' htx'
    obtain ⟨hhash, rfl⟩ | hold := hget hash tx' htx'
    · apply hhash
    · apply h.key _ _ hold
  · intro hash tx' htx'
    obtain ⟨-, rfl⟩ | hold := hget hash tx' htx'
    · apply hmem
    · apply h.mem _ _ hold
  · intro hash tx' htx'
    obtain ⟨-, rfl⟩ | hold := hget hash tx' htx'
    · exact ⟨hcheck, hcoinbase⟩
    · apply h.checked _ _ hold

theorem getElem?_mapTx_remove
    {tx' : CTransaction} (h : (pool.remove env tx).mapTx[hash]? = some tx') :
  pool.mapTx[hash]? = some tx'
  := by
  rw [remove] at h
  split_ifs at h
  · rw [TreeMap.getElem?_erase_ite] at h
    split_ifs at h
    apply h
  · apply h

theorem Valid.remove
    (h : pool.Valid env txs) (hinj : txs.InjOn (CTransaction.getHash env.crypto))
    (hmem : tx ∈ txs) :
  (pool.remove env tx).Valid env txs
  := by
  refine ⟨h.consistent.remove ?_, ?_, ?_, ?_⟩
  · intro tx' hget
    apply hinj (h.mem _ _ hget) hmem
    apply h.key _ _ hget
  · intro hash tx' hget
    apply h.key _ _ (getElem?_mapTx_remove hget)
  · intro hash tx' hget
    apply h.mem _ _ (getElem?_mapTx_remove hget)
  · intro hash tx' hget
    apply h.checked _ _ (getElem?_mapTx_remove hget)

end Consistency

end CTxMemPool

end CorgiCoin
