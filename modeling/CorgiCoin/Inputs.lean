import CorgiCoin.TxDB

/-!
# Inputs

Fetching the transactions an input spends from, checking and marking the outputs spent, and
taking the marks back.  While a block is connected the index entries it changes are queued in
a second map that is looked up before the database; what the block sees is the overlay of the
two, and the specifications of this module are stated over the overlay.
-/

namespace CorgiCoin

open Std

def COINBASE_MATURITY : ℕ := 30

/-- Previous transactions with their index entries. -/
abbrev MapPrevTx := ExtTreeMap uint256 (CTxIndex × CTransaction) compare

/-- What is read besides the database when inputs are fetched. -/
structure TxReader where
  /-- `CTransaction::ReadFromDisk`. -/
  disk : CDiskTxPos → Option CTransaction
  /-- `mempool.mapTx`. -/
  mempool : ExtTreeMap uint256 CTransaction compare

/-- The transaction of an index entry, from the memory pool for the position that stands for
it and from disk otherwise. -/
def TxReader.readPrev (reader : TxReader) (hash : uint256) (txindex : CTxIndex) :
    Option CTransaction :=
  if txindex.pos = CDiskTxPos.pool then reader.mempool[hash]? else reader.disk txindex.pos

/-- Why inputs could not be fetched: a previous transaction is not there, or it has no such
output (`fInvalid`). -/
inductive FetchError where
  | missing
  | invalid
  deriving DecidableEq, Repr

/-! ## Definitions -/

section Definitions

variable (reader : TxReader) (txIndex mapTestPool : TxIndexMap) (fBlock fMiner : Bool)

/-- The body of the first loop of `FetchInputs`. -/
def fetchInput (inputsRet : MapPrevTx) (txin : CTxIn) : Option MapPrevTx :=
  let hash := txin.prevout.hash
  if inputsRet.contains hash then some inputsRet
  else
    let found :=
      if fBlock || fMiner then mapTestPool[hash]?.or txIndex[hash]? else txIndex[hash]?
    match found with
    | none =>
      if fBlock || fMiner then none
      else
        reader.mempool[hash]?.map (fun txPrev =>
          inputsRet.insert hash (CTxIndex.unspent CDiskTxPos.null txPrev.vout.length, txPrev))
    | some txindex =>
      (reader.readPrev hash txindex).map (fun txPrev => inputsRet.insert hash (txindex, txPrev))

/-- The second loop of `FetchInputs`: the output is there. -/
def inputInRange (inputs : MapPrevTx) (txin : CTxIn) : Bool :=
  match inputs[txin.prevout.hash]? with
  | none => false
  | some (txindex, txPrev) =>
    !(txin.prevout.n.toNat ≥ txPrev.vout.length || txin.prevout.n.toNat ≥ txindex.vSpent.length)

/-- `CTransaction::FetchInputs`. -/
def CTransaction.fetchInputs (tx : CTransaction) : Except FetchError MapPrevTx :=
  if tx.isCoinBase then .ok ∅
  else
    match tx.vin.foldlM (fetchInput reader txIndex mapTestPool fBlock fMiner) ∅ with
    | none => .error .missing
    | some inputsRet =>
      if tx.vin.all (inputInRange inputsRet) then .ok inputsRet else .error .invalid

end Definitions

/-- `CTransaction::GetOutputFor`, `none` where the source throws. -/
def getOutputFor (inputs : MapPrevTx) (txin : CTxIn) : Option CTxOut :=
  inputs[txin.prevout.hash]?.bind (fun prev => prev.2.vout[txin.prevout.n.toNat]?)

/-- `CTransaction::GetValueIn`. -/
def CTransaction.getValueIn (inputs : MapPrevTx) (tx : CTransaction) : Option Int64 :=
  if tx.isCoinBase then some 0
  else
    tx.vin.foldlM (fun nResult txin =>
      (getOutputFor inputs txin).map (fun txout => nResult + txout.nValue)) 0

/-- `CTransaction::GetP2SHSigOpCount`. -/
def CTransaction.getP2SHSigOpCount (inputs : MapPrevTx) (tx : CTransaction) : Option UInt32 :=
  if tx.isCoinBase then some 0
  else
    tx.vin.foldlM (fun nSigOps txin =>
      (getOutputFor inputs txin).map (fun prevout =>
        if isPayToScriptHash prevout.scriptPubKey then
          nSigOps + getSigOpCountFor prevout.scriptPubKey txin.scriptSig
        else nSigOps)) 0

/-- A coinbase at the position is among the last `COINBASE_MATURITY` blocks; going back one
block lowers the height by one. -/
def immature (pindexBlock : CBlockIndex) (pos : CDiskTxPos) : Bool :=
  (pindexBlock.chain.take COINBASE_MATURITY).any (fun pindex =>
    pindex.entry.pos.nBlockPos == pos.nBlockPos && pindex.entry.pos.nFile == pos.nFile)

/-- The body of the first loop of `ConnectInputs`, the previous transaction given. -/
def checkInput (pindexBlock : CBlockIndex) (prev : Option (CTxIndex × CTransaction))
    (prevout : COutPoint) (nValueIn : Int64) : Option Int64 :=
  match prev with
  | none => none
  | some (txindex, txPrev) =>
    match txPrev.vout[prevout.n.toNat]?, txindex.vSpent[prevout.n.toNat]? with
    | some txout, some _ =>
      if txPrev.isCoinBase && immature pindexBlock txindex.pos then none
      else addMoney nValueIn txout.nValue
    | _, _ => none

/-- The first loop of `ConnectInputs`: the value of the inputs, where `prevs` has the previous
transactions. -/
def checkInputs (pindexBlock : CBlockIndex) (prevs : uint256 → Option (CTxIndex × CTransaction))
    (vin : List CTxIn) (nValueIn : Int64) : Option Int64 :=
  vin.foldlM (fun nValueIn txin =>
    checkInput pindexBlock (prevs txin.prevout.hash) txin.prevout nValueIn) nValueIn

/-- The body of the second loop of `ConnectInputs`, on the input at a position. -/
def spendInput (env : Env) (fWriteBack fStrictPayToScriptHash : Bool) (posThisTx : CDiskTxPos)
    (tx : CTransaction) (state : MapPrevTx × TxIndexMap) (input : CTxIn × ℕ) :
    Option (MapPrevTx × TxIndexMap) :=
  let prevout := input.1.prevout
  match state.1[prevout.hash]? with
  | none => none
  | some (txindex, txPrev) =>
    match txindex.vSpent[prevout.n.toNat]? with
    | none => none
    | some pos =>
      if !pos.isNull then none
      else if !verifySignature env.crypto env.evalScript txPrev tx input.2
          fStrictPayToScriptHash then none
      else
        let txindex := { txindex with vSpent := txindex.vSpent.set prevout.n.toNat posThisTx }
        some (state.1.insert prevout.hash (txindex, txPrev),
          if fWriteBack then state.2.insert prevout.hash txindex else state.2)

/-- The fee check at the end of `ConnectInputs`. -/
def feeInRange (nValueIn nValueOut : Int64) : Bool :=
  if nValueIn < nValueOut then false
  else
    let nTxFee := nValueIn - nValueOut
    if nTxFee < 0 then false else moneyRange (0 + nTxFee)

/-- `CTransaction::ConnectInputs`: the changed index entries, or `none` where it returns
false.  The last checkpoint is the first block, so signatures are always verified. -/
def CTransaction.connectInputs (env : Env) (inputs : MapPrevTx) (mapTestPool : TxIndexMap)
    (posThisTx : CDiskTxPos) (pindexBlock : CBlockIndex)
    (fBlock fMiner fStrictPayToScriptHash : Bool) (tx : CTransaction) : Option TxIndexMap :=
  if tx.isCoinBase then some mapTestPool
  else do
    let nValueIn ← checkInputs pindexBlock (fun hash => inputs[hash]?) tx.vin 0
    let state ← tx.vin.zipIdx.foldlM
      (spendInput env (fBlock || fMiner) fStrictPayToScriptHash posThisTx tx)
      (inputs, mapTestPool)
    let nValueOut ← tx.getValueOut
    if feeInRange nValueIn nValueOut then some state.2 else none

/-- The body of the loop of `DisconnectInputs`. -/
def disconnectInput (txIndex : TxIndexMap) (txin : CTxIn) : Option TxIndexMap :=
  match txIndex[txin.prevout.hash]? with
  | none => none
  | some txindex =>
    if txin.prevout.n.toNat ≥ txindex.vSpent.length then none
    else
      some (txIndex.insert txin.prevout.hash
        { txindex with vSpent := txindex.vSpent.set txin.prevout.n.toNat CDiskTxPos.null })

/-- `CTransaction::DisconnectInputs`. -/
def CTransaction.disconnectInputs (env : Env) (txIndex : TxIndexMap) (tx : CTransaction) :
    Option TxIndexMap :=
  (if tx.isCoinBase then some txIndex else tx.vin.foldlM disconnectInput txIndex).map
    (fun txIndex => txIndex.erase (tx.getHash env.crypto))

/-- The outputs a transaction spends. -/
def CTransaction.prevouts (tx : CTransaction) : List COutPoint :=
  if tx.isCoinBase then [] else tx.vin.map CTxIn.prevout

/-! ## Fetching -/

/-- The entry and the transaction behind a hash in an index. -/
def prevOf (reader : TxReader) (index : TxIndexMap) (hash : uint256) :
    Option (CTxIndex × CTransaction) :=
  index[hash]?.bind (fun txindex =>
    (reader.readPrev hash txindex).map (fun txPrev => (txindex, txPrev)))

theorem prevOf_eq_some_iff
    {reader : TxReader} {index : TxIndexMap} {hash : uint256} {prev : CTxIndex × CTransaction} :
  prevOf reader index hash = some prev
    ↔ index[hash]? = some prev.1 ∧ reader.readPrev hash prev.1 = some prev.2
  := by
  obtain ⟨txindex, txPrev⟩ := prev
  rw [prevOf, Option.bind_eq_some_iff]
  constructor
  · rintro ⟨txindex', hget, hread⟩
    obtain ⟨txPrev', hread', heq⟩ := Option.map_eq_some_iff.mp hread
    obtain ⟨rfl, rfl⟩ := Prod.mk.inj heq
    exact ⟨hget, hread'⟩
  · rintro ⟨hget, hread⟩
    exact ⟨txindex, hget, Option.map_eq_some_iff.mpr ⟨txPrev, hread, rfl⟩⟩

section Fetch

variable {reader : TxReader} {txIndex mapTestPool : TxIndexMap} {fBlock fMiner : Bool}

/-- One step of the fetching loop over an overlay. -/
theorem fetchInput_eq
    (hmode : (fBlock || fMiner) = true) (inputs : MapPrevTx) (txin : CTxIn) :
  fetchInput reader txIndex mapTestPool fBlock fMiner inputs txin
    = if inputs.contains txin.prevout.hash then some inputs
      else (prevOf reader (TreeMap.overlay txIndex mapTestPool) txin.prevout.hash).map
        (inputs.insert txin.prevout.hash)
  := by
  rw [fetchInput]
  simp only [hmode, if_true]
  split_ifs with hcontains
  · rfl
  · rw [prevOf, TreeMap.getElem?_overlay]
    cases mapTestPool[txin.prevout.hash]?.or txIndex[txin.prevout.hash]? with
    | none => rfl
    | some txindex =>
      simp only [Option.bind_some]
      cases reader.readPrev txin.prevout.hash txindex with
      | none => rfl
      | some txPrev => rfl

/-- The fetching loop finds what the overlay has for the inputs, and fails where it has
nothing. -/
theorem foldlM_fetchInput
    (hmode : (fBlock || fMiner) = true) {vin : List CTxIn} {inputs inputs' : MapPrevTx}
    (hsound : ∀ (hash : uint256) prev, inputs[hash]? = some prev →
      prevOf reader (TreeMap.overlay txIndex mapTestPool) hash = some prev)
    (h : vin.foldlM (fetchInput reader txIndex mapTestPool fBlock fMiner) inputs
      = some inputs') :
  (∀ (hash : uint256) prev, inputs'[hash]? = some prev →
      prevOf reader (TreeMap.overlay txIndex mapTestPool) hash = some prev)
    ∧ (∀ (hash : uint256) prev, inputs[hash]? = some prev → inputs'[hash]? = some prev)
    ∧ ∀ txin ∈ vin, ∃ prev, inputs'[txin.prevout.hash]? = some prev
  := by
  induction vin generalizing inputs with
  | nil =>
    obtain rfl := Option.some.inj h
    exact ⟨hsound, fun _ _ hget => hget, fun _ hmem => absurd hmem List.not_mem_nil⟩
  | cons txin vin ih =>
    rw [List.foldlM_cons, Option.bind_eq_bind, Option.bind_eq_some_iff] at h
    obtain ⟨inputsMid, hstep, hrest⟩ := h
    rw [fetchInput_eq hmode] at hstep
    split_ifs at hstep with hcontains
    · obtain rfl := Option.some.inj hstep
      obtain ⟨hsound', hkeep, hall⟩ := ih hsound hrest
      refine ⟨hsound', hkeep, List.forall_mem_cons.mpr ⟨?_, hall⟩⟩
      rw [ExtTreeMap.contains_iff_mem, ExtTreeMap.mem_iff_isSome_getElem?,
        Option.isSome_iff_exists] at hcontains
      obtain ⟨prev, hprev⟩ := hcontains
      exact ⟨prev, hkeep _ _ hprev⟩
    · obtain ⟨prev, hprev, rfl⟩ := Option.map_eq_some_iff.mp hstep
      have hnone : inputs[txin.prevout.hash]? = none := by
        apply ExtTreeMap.getElem?_eq_none_of_contains_eq_false
        apply Bool.eq_false_of_not_eq_true hcontains
      have hsoundMid : ∀ (hash : uint256) prev',
          (inputs.insert txin.prevout.hash prev)[hash]? = some prev' →
          prevOf reader (TreeMap.overlay txIndex mapTestPool) hash = some prev' := by
        intro hash prev' hget
        rw [TreeMap.getElem?_insert_ite] at hget
        split_ifs at hget with hhash
        · rw [← hhash, hprev, hget]
        · apply hsound _ _ hget
      obtain ⟨hsound', hkeep, hall⟩ := ih hsoundMid hrest
      refine ⟨hsound', ?_, List.forall_mem_cons.mpr ⟨?_, hall⟩⟩
      · intro hash prev' hget
        apply hkeep
        rw [TreeMap.getElem?_insert_ite]
        split_ifs with hhash
        · rw [← hhash, hnone] at hget
          cases hget
        · apply hget
      · exact ⟨prev, hkeep _ _ ExtTreeMap.getElem?_insert_self⟩

theorem exists_foldlM_fetchInput
    (hmode : (fBlock || fMiner) = true) {vin : List CTxIn}
    (hfound : ∀ txin ∈ vin, ∃ prev,
      prevOf reader (TreeMap.overlay txIndex mapTestPool) txin.prevout.hash = some prev)
    (inputs : MapPrevTx) :
  ∃ inputs', vin.foldlM (fetchInput reader txIndex mapTestPool fBlock fMiner) inputs
    = some inputs'
  := by
  induction vin generalizing inputs with
  | nil => exact ⟨inputs, rfl⟩
  | cons txin vin ih =>
    obtain ⟨⟨prev, hprev⟩, hfound⟩ := List.forall_mem_cons.mp hfound
    rw [List.foldlM_cons, fetchInput_eq hmode]
    split_ifs
    · apply ih hfound
    · rw [hprev]
      apply ih hfound

/-- The outputs the inputs of a transaction spend are in an index. -/
def InputsFound (reader : TxReader) (index : TxIndexMap) (tx : CTransaction) : Prop :=
  ∀ txin ∈ tx.vin, ∃ prev, prevOf reader index txin.prevout.hash = some prev
    ∧ txin.prevout.n.toNat < prev.2.vout.length ∧ txin.prevout.n.toNat < prev.1.vSpent.length

/-- Fetched inputs are those of the overlay. -/
theorem fetchInputs_eq_ok
    (hmode : (fBlock || fMiner) = true) {tx : CTransaction} (hcoinbase : tx.isCoinBase = false)
    {inputs : MapPrevTx}
    (h : tx.fetchInputs reader txIndex mapTestPool fBlock fMiner = .ok inputs) :
  InputsFound reader (TreeMap.overlay txIndex mapTestPool) tx
    ∧ ∀ txin ∈ tx.vin, inputs[txin.prevout.hash]?
      = prevOf reader (TreeMap.overlay txIndex mapTestPool) txin.prevout.hash
  := by
  rw [CTransaction.fetchInputs, hcoinbase] at h
  simp only [Bool.false_eq_true, if_false] at h
  split at h
  · cases h
  · rename_i inputs' hfold
    split_ifs at h with hrange
    cases h
    obtain ⟨hsound, -, hall⟩ := foldlM_fetchInput hmode
      (fun hash prev hget => by rw [ExtTreeMap.getElem?_empty] at hget; cases hget) hfold
    constructor
    · intro txin hmem
      obtain ⟨prev, hprev⟩ := hall txin hmem
      refine ⟨prev, hsound _ _ hprev, ?_⟩
      have hin := List.all_eq_true.mp hrange txin hmem
      rw [inputInRange, hprev] at hin
      simpa using hin
    · intro txin hmem
      obtain ⟨prev, hprev⟩ := hall txin hmem
      rw [hprev, hsound _ _ hprev]

/-- Inputs that are in the overlay are fetched. -/
theorem exists_fetchInputs
    (hmode : (fBlock || fMiner) = true) {tx : CTransaction} (hcoinbase : tx.isCoinBase = false)
    (hfound : InputsFound reader (TreeMap.overlay txIndex mapTestPool) tx) :
  ∃ inputs, tx.fetchInputs reader txIndex mapTestPool fBlock fMiner = .ok inputs
  := by
  obtain ⟨inputs, hfold⟩ := exists_foldlM_fetchInput hmode
    (fun txin hmem => (hfound txin hmem).imp (fun _ hprev => hprev.1)) ∅
  obtain ⟨hsound, -, hall⟩ := foldlM_fetchInput hmode
    (fun hash prev hget => by rw [ExtTreeMap.getElem?_empty] at hget; cases hget) hfold
  use inputs
  rw [CTransaction.fetchInputs, hcoinbase, hfold]
  simp only [Bool.false_eq_true, if_false]
  rw [if_pos]
  rw [List.all_eq_true]
  intro txin hmem
  obtain ⟨prev, hprev, hout, hspent⟩ := hfound txin hmem
  obtain ⟨prev', hprev'⟩ := hall txin hmem
  obtain rfl : prev' = prev := Option.some.inj ((hsound _ _ hprev').symm.trans hprev)
  rw [inputInRange, hprev']
  simp [hout, hspent]

end Fetch

/-! ## Spending -/

section Spend

variable {env : Env} {reader : TxReader} {fStrict : Bool} {tx : CTransaction}

/-- An input of a transaction may spend its output in an index: the output is unspent and the
script of the input satisfies it. -/
def InputSpendable (env : Env) (reader : TxReader) (fStrict : Bool) (tx : CTransaction)
    (index : TxIndexMap) (input : CTxIn × ℕ) : Prop :=
  ∃ prev pos, prevOf reader index input.1.prevout.hash = some prev
    ∧ prev.1.vSpent[input.1.prevout.n.toNat]? = some pos ∧ pos.isNull = true
    ∧ verifySignature env.crypto env.evalScript prev.2 tx input.2 fStrict = true

/-- Writing a mark changes the marks of what is behind a hash and nothing else. -/
theorem prevOf_setSlot
    (pos : CDiskTxPos) (index : TxIndexMap) (o : COutPoint) (hash : uint256) :
  prevOf reader (setSlot pos index o) hash
    = if o.hash = hash then (prevOf reader index hash).map (fun prev =>
        ({ prev.1 with vSpent := prev.1.vSpent.set o.n.toNat pos }, prev.2))
      else prevOf reader index hash
  := by
  rw [prevOf, prevOf, getElem?_setSlot]
  split_ifs
  · cases index[hash]? with
    | none => rfl
    | some txindex =>
      simp only [Option.map_some, Option.bind_some, TxReader.readPrev]
      split_ifs
      · cases reader.mempool[hash]? <;> rfl
      · cases reader.disk txindex.pos <;> rfl
  · rfl

/-- Spending one output does not matter to an input that spends another. -/
theorem inputSpendable_setSlot
    {index : TxIndexMap} {input : CTxIn × ℕ} {o : COutPoint} (pos : CDiskTxPos)
    (h : o ≠ input.1.prevout) :
  InputSpendable env reader fStrict tx (setSlot pos index o) input
    ↔ InputSpendable env reader fStrict tx index input
  := by
  rw [InputSpendable, InputSpendable, prevOf_setSlot]
  split_ifs with hhash
  · have hn := COutPoint.toNat_n_ne h hhash
    constructor
    · rintro ⟨prev, p, hprev, hslot, hrest⟩
      obtain ⟨prevOld, hold, rfl⟩ := Option.map_eq_some_iff.mp hprev
      rw [List.getElem?_set_ne hn] at hslot
      exact ⟨prevOld, p, hold, hslot, hrest⟩
    · rintro ⟨prev, p, hprev, hslot, hrest⟩
      refine ⟨_, p, Option.map_eq_some_iff.mpr ⟨prev, hprev, rfl⟩, ?_, hrest⟩
      rw [List.getElem?_set_ne hn, hslot]
  · rfl

variable {txIndex mapTestPool : TxIndexMap} {inputs : MapPrevTx}

/-- One step of the spending loop over an overlay: it succeeds when the input may spend its
output, and then the output is marked. -/
theorem spendInput_eq_some_iff
    {input : CTxIn × ℕ} (posThisTx : CDiskTxPos) {state : MapPrevTx × TxIndexMap}
    (hinputs : inputs[input.1.prevout.hash]?
      = prevOf reader (TreeMap.overlay txIndex mapTestPool) input.1.prevout.hash) :
  spendInput env true fStrict posThisTx tx (inputs, mapTestPool) input = some state
    ↔ InputSpendable env reader fStrict tx (TreeMap.overlay txIndex mapTestPool) input
      ∧ ∃ txindex txPrev,
        prevOf reader (TreeMap.overlay txIndex mapTestPool) input.1.prevout.hash
          = some (txindex, txPrev)
        ∧ state = (inputs.insert input.1.prevout.hash
            ({ txindex with vSpent := txindex.vSpent.set input.1.prevout.n.toNat posThisTx },
              txPrev),
          mapTestPool.insert input.1.prevout.hash
            { txindex with vSpent := txindex.vSpent.set input.1.prevout.n.toNat posThisTx })
  := by
  rw [spendInput, InputSpendable]
  simp only [hinputs]
  cases prevOf reader (TreeMap.overlay txIndex mapTestPool) input.1.prevout.hash with
  | none => simp
  | some prev =>
    obtain ⟨txindex, txPrev⟩ := prev
    simp only [Option.some.injEq, Prod.mk.injEq, exists_and_left, exists_eq_left', if_true]
    cases txindex.vSpent[input.1.prevout.n.toNat]? with
    | none => simp
    | some pos =>
      cases hnull : pos.isNull with
      | false => simp [hnull]
      | true =>
        cases hverify : verifySignature env.crypto env.evalScript txPrev tx input.2 fStrict with
        | false => simp
        | true =>
          simp [hnull]
          apply eq_comm

/-- The overlay after a spending step. -/
theorem overlay_spendInput
    {o : COutPoint} {txindex : CTxIndex} {txPrev : CTransaction} (posThisTx : CDiskTxPos)
    (hprev : prevOf reader (TreeMap.overlay txIndex mapTestPool) o.hash = some (txindex, txPrev)) :
  TreeMap.overlay txIndex (mapTestPool.insert o.hash
      { txindex with vSpent := txindex.vSpent.set o.n.toNat posThisTx })
    = setSlot posThisTx (TreeMap.overlay txIndex mapTestPool) o
  := by
  rw [prevOf_eq_some_iff] at hprev
  rw [TreeMap.overlay_insert, setSlot_of_getElem? posThisTx hprev.1]

/-- The spending loop marks the outputs of all inputs; each input may spend its own. -/
theorem foldlM_spendInput
    {vin : List CTxIn} {k : ℕ} {posThisTx : CDiskTxPos} {state : MapPrevTx × TxIndexMap}
    (hnodup : (vin.map CTxIn.prevout).Nodup)
    (hinputs : ∀ txin ∈ vin, inputs[txin.prevout.hash]?
      = prevOf reader (TreeMap.overlay txIndex mapTestPool) txin.prevout.hash)
    (h : (vin.zipIdx k).foldlM (spendInput env true fStrict posThisTx tx) (inputs, mapTestPool)
      = some state) :
  (∀ input ∈ vin.zipIdx k,
      InputSpendable env reader fStrict tx (TreeMap.overlay txIndex mapTestPool) input)
    ∧ TreeMap.overlay txIndex state.2
      = setSlots posThisTx (TreeMap.overlay txIndex mapTestPool) (vin.map CTxIn.prevout)
  := by
  induction vin generalizing inputs mapTestPool k with
  | nil =>
    obtain rfl := Option.some.inj h
    exact ⟨fun _ hmem => absurd hmem List.not_mem_nil, rfl⟩
  | cons txin vin ih =>
    rw [List.zipIdx_cons, List.foldlM_cons, Option.bind_eq_bind, Option.bind_eq_some_iff] at h
    obtain ⟨stateMid, hstep, hrest⟩ := h
    rw [List.map_cons, List.nodup_cons] at hnodup
    obtain ⟨hfirst, hinputs⟩ := List.forall_mem_cons.mp hinputs
    obtain ⟨hspend, txindex, txPrev, hprev, rfl⟩ := (spendInput_eq_some_iff posThisTx hfirst).mp hstep
    have hoverlay := overlay_spendInput posThisTx hprev
    -- the inputs that are left see the marked index
    have hinputsMid : ∀ txin' ∈ vin,
        (inputs.insert txin.prevout.hash
          ({ txindex with vSpent := txindex.vSpent.set txin.prevout.n.toNat posThisTx },
            txPrev))[txin'.prevout.hash]?
          = prevOf reader (setSlot posThisTx (TreeMap.overlay txIndex mapTestPool) txin.prevout)
              txin'.prevout.hash := by
      intro txin' hmem
      rw [TreeMap.getElem?_insert_ite, prevOf_setSlot]
      split_ifs with hhash
      · rw [← hhash, hprev]
        rfl
      · apply hinputs txin' hmem
    rw [← hoverlay] at hinputsMid
    obtain ⟨hspends, hfinal⟩ := ih hnodup.2 hinputsMid hrest
    rw [hoverlay] at hspends hfinal
    refine ⟨?_, hfinal⟩
    rw [List.zipIdx_cons, List.forall_mem_cons]
    refine ⟨hspend, fun input hmem => ?_⟩
    rw [← inputSpendable_setSlot posThisTx]
    · apply hspends input hmem
    · intro heq
      apply hnodup.1
      rw [heq]
      apply List.mem_map_of_mem (List.fst_mem_of_mem_zipIdx hmem)

/-- The spending loop succeeds when every input may spend its output. -/
theorem exists_foldlM_spendInput
    {vin : List CTxIn} {k : ℕ} (posThisTx : CDiskTxPos) (hnodup : (vin.map CTxIn.prevout).Nodup)
    (hinputs : ∀ txin ∈ vin, inputs[txin.prevout.hash]?
      = prevOf reader (TreeMap.overlay txIndex mapTestPool) txin.prevout.hash)
    (hspends : ∀ input ∈ vin.zipIdx k,
      InputSpendable env reader fStrict tx (TreeMap.overlay txIndex mapTestPool) input) :
  ∃ state, (vin.zipIdx k).foldlM (spendInput env true fStrict posThisTx tx)
    (inputs, mapTestPool) = some state
  := by
  induction vin generalizing inputs mapTestPool k with
  | nil => exact ⟨_, rfl⟩
  | cons txin vin ih =>
    rw [List.map_cons, List.nodup_cons] at hnodup
    obtain ⟨hfirst, hinputs⟩ := List.forall_mem_cons.mp hinputs
    rw [List.zipIdx_cons, List.forall_mem_cons] at hspends
    obtain ⟨hspend, hspends⟩ := hspends
    obtain ⟨⟨txindex, txPrev⟩, pos, hprev, hslot, hnull⟩ := hspend
    have hspend : InputSpendable env reader fStrict tx (TreeMap.overlay txIndex mapTestPool)
        (txin, k) := ⟨(txindex, txPrev), pos, hprev, hslot, hnull⟩
    have hstep := (spendInput_eq_some_iff posThisTx hfirst).mpr
      ⟨hspend, txindex, txPrev, hprev, rfl⟩
    have hoverlay := overlay_spendInput posThisTx hprev
    rw [List.zipIdx_cons, List.foldlM_cons, hstep]
    apply ih hnodup.2
    · intro txin' hmem
      rw [hoverlay, TreeMap.getElem?_insert_ite, prevOf_setSlot]
      split_ifs with hhash
      · rw [← hhash, hprev]
        rfl
      · apply hinputs txin' hmem
    · intro input hmem
      rw [hoverlay, inputSpendable_setSlot posThisTx]
      · apply hspends input hmem
      · intro heq
        apply hnodup.1
        rw [heq]
        apply List.mem_map_of_mem (List.fst_mem_of_mem_zipIdx hmem)

end Spend

/-! ## Connecting -/

section Connect

variable {env : Env} {reader : TxReader} {pindexBlock : CBlockIndex}

theorem checkInputs_cons
    (prevs : uint256 → Option (CTxIndex × CTransaction)) (txin : CTxIn) (vin : List CTxIn)
    (nValueIn : Int64) :
  checkInputs pindexBlock prevs (txin :: vin) nValueIn
    = (checkInput pindexBlock (prevs txin.prevout.hash) txin.prevout nValueIn).bind
        (checkInputs pindexBlock prevs vin)
  := by
  rw [checkInputs, List.foldlM_cons]
  rfl

/-- The first loop reads the previous transactions of the inputs alone. -/
theorem checkInputs_congr
    {prevs prevs' : uint256 → Option (CTxIndex × CTransaction)} {vin : List CTxIn}
    (h : ∀ txin ∈ vin, prevs txin.prevout.hash = prevs' txin.prevout.hash) (nValueIn : Int64) :
  checkInputs pindexBlock prevs vin nValueIn = checkInputs pindexBlock prevs' vin nValueIn
  := by
  induction vin generalizing nValueIn with
  | nil => rfl
  | cons txin vin ih =>
    obtain ⟨hfirst, hrest⟩ := List.forall_mem_cons.mp h
    rw [checkInputs_cons, checkInputs_cons, hfirst]
    congr 1
    funext nValueIn
    apply ih hrest

variable {nValueIn : Int64}

/-- What a step of the first loop checks. -/
theorem checkInput_eq_some
    {prev : Option (CTxIndex × CTransaction)} {prevout : COutPoint}
    {nValueNew : Int64} (h : checkInput pindexBlock prev prevout nValueIn = some nValueNew) :
  ∃ txindex txPrev txout pos, prev = some (txindex, txPrev)
    ∧ txPrev.vout[prevout.n.toNat]? = some txout
    ∧ txindex.vSpent[prevout.n.toNat]? = some pos
    ∧ (txPrev.isCoinBase && immature pindexBlock txindex.pos) = false
    ∧ addMoney nValueIn txout.nValue = some nValueNew
  := by
  cases prev with
  | none => cases h
  | some prev =>
    obtain ⟨txindex, txPrev⟩ := prev
    rw [checkInput] at h
    split at h
    · rename_i txout pos hout hspent
      split_ifs at h with himmature
      exact ⟨txindex, txPrev, txout, pos, rfl, hout, hspent,
        Bool.eq_false_of_not_eq_true himmature, h⟩
    · cases h

/-- The value of the output an input spends, over the integers. -/
def inputValue (reader : TxReader) (index : TxIndexMap) (o : COutPoint) : ℤ :=
  ((prevOf reader index o.hash).bind (fun prev => prev.2.vout[o.n.toNat]?)).elim 0
    (fun txout => txout.nValue.toInt)

/-- The first loop tallies the values of the outputs spent, each of them in range. -/
theorem checkInputs_eq_some
    {index : TxIndexMap} {vin : List CTxIn} {nStart : Int64} (hstart : moneyRange nStart = true)
    (h : checkInputs pindexBlock (prevOf reader index) vin nStart = some nValueIn) :
  moneyRange nValueIn = true
    ∧ nValueIn.toInt
      = nStart.toInt + ((vin.map CTxIn.prevout).map (inputValue reader index)).sum
  := by
  induction vin generalizing nStart with
  | nil =>
    obtain rfl := Option.some.inj h
    exact ⟨hstart, by simp⟩
  | cons txin vin ih =>
    rw [checkInputs_cons, Option.bind_eq_some_iff] at h
    obtain ⟨nMid, hstep, hrest⟩ := h
    obtain ⟨txindex, txPrev, txout, pos, hprev, hout, -, -, hadd⟩ := checkInput_eq_some hstep
    obtain ⟨-, hmid, hsum⟩ := addMoney_eq_some hstart hadd
    obtain ⟨hrange, hrestsum⟩ := ih hmid hrest
    have hvalue : inputValue reader index txin.prevout = txout.nValue.toInt := by
      rw [inputValue, hprev]
      simp [hout]
    refine ⟨hrange, ?_⟩
    rw [hrestsum, hsum, List.map_cons, List.map_cons, List.sum_cons, hvalue, add_assoc]

/-- `GetValueIn` returns the tally of the first loop. -/
theorem getValueIn_of_checkInputs
    {inputs : MapPrevTx} {tx : CTransaction} (hcoinbase : tx.isCoinBase = false)
    (h : checkInputs pindexBlock (fun hash => inputs[hash]?) tx.vin 0 = some nValueIn) :
  tx.getValueIn inputs = some nValueIn
  := by
  rw [CTransaction.getValueIn, hcoinbase]
  simp only [Bool.false_eq_true, if_false]
  generalize (0 : Int64) = nStart at h ⊢
  generalize tx.vin = vin at h ⊢
  induction vin generalizing nStart with
  | nil => apply h
  | cons txin vin ih =>
    rw [checkInputs_cons, Option.bind_eq_some_iff] at h
    obtain ⟨nMid, hstep, hrest⟩ := h
    obtain ⟨txindex, txPrev, txout, pos, hprev, hout, -, -, hadd⟩ := checkInput_eq_some hstep
    rw [addMoney] at hadd
    split_ifs at hadd
    obtain rfl := Option.some.inj hadd
    rw [List.foldlM_cons, getOutputFor, hprev, Option.bind_some, hout]
    apply ih _ hrest

/-- What `ConnectInputs` checks of a transaction that spends, in an index. -/
structure TxConnects (env : Env) (reader : TxReader) (fStrict : Bool)
    (pindexBlock : CBlockIndex) (index : TxIndexMap) (tx : CTransaction)
    (nValueIn nValueOut : Int64) : Prop where
  found : InputsFound reader index tx
  tally : checkInputs pindexBlock (prevOf reader index) tx.vin 0 = some nValueIn
  spendable : ∀ input ∈ tx.vin.zipIdx, InputSpendable env reader fStrict tx index input
  getValueOut : tx.getValueOut = some nValueOut
  fee : feeInRange nValueIn nValueOut = true

variable {txIndex mapTestPool : TxIndexMap} {fBlock fMiner fStrict : Bool}

/-- A transaction whose inputs were fetched and connected passes the checks in the overlay, and
in the new overlay its outputs are marked. -/
theorem connectInputs_eq_some
    (hmode : (fBlock || fMiner) = true) {tx : CTransaction} (hcoinbase : tx.isCoinBase = false)
    (hnodup : (tx.vin.map CTxIn.prevout).Nodup) {inputs : MapPrevTx} {posThisTx : CDiskTxPos}
    {mapNew : TxIndexMap}
    (hfetch : tx.fetchInputs reader txIndex mapTestPool fBlock fMiner = .ok inputs)
    (h : tx.connectInputs env inputs mapTestPool posThisTx pindexBlock fBlock fMiner fStrict
      = some mapNew) :
  ∃ nValueIn nValueOut,
    TxConnects env reader fStrict pindexBlock (TreeMap.overlay txIndex mapTestPool) tx
      nValueIn nValueOut
    ∧ tx.getValueIn inputs = some nValueIn
    ∧ TreeMap.overlay txIndex mapNew
      = setSlots posThisTx (TreeMap.overlay txIndex mapTestPool) (tx.vin.map CTxIn.prevout)
  := by
  obtain ⟨hfound, hinputs⟩ := fetchInputs_eq_ok hmode hcoinbase hfetch
  rw [CTransaction.connectInputs, hcoinbase, hmode] at h
  simp only [Bool.false_eq_true, if_false, Option.bind_eq_bind, Option.bind_eq_some_iff] at h
  obtain ⟨nValueIn, htally, state, hspend, nValueOut, hout, hfee⟩ := h
  split_ifs at hfee with hrange
  obtain rfl := Option.some.inj hfee
  obtain ⟨hspendable, hoverlay⟩ := foldlM_spendInput hnodup hinputs hspend
  refine ⟨nValueIn, nValueOut, ⟨hfound, ?_, hspendable, hout, hrange⟩, ?_, hoverlay⟩
  · rw [← htally]
    apply checkInputs_congr
    intro txin hmem
    rw [hinputs txin hmem]
  · apply getValueIn_of_checkInputs hcoinbase htally

/-- A transaction that passes the checks in the overlay is fetched and connected. -/
theorem exists_connectInputs
    (hmode : (fBlock || fMiner) = true) {tx : CTransaction} (hcoinbase : tx.isCoinBase = false)
    (hnodup : (tx.vin.map CTxIn.prevout).Nodup) {nValueIn nValueOut : Int64}
    (posThisTx : CDiskTxPos)
    (h : TxConnects env reader fStrict pindexBlock (TreeMap.overlay txIndex mapTestPool) tx
      nValueIn nValueOut) :
  ∃ inputs mapNew, tx.fetchInputs reader txIndex mapTestPool fBlock fMiner = .ok inputs
    ∧ tx.connectInputs env inputs mapTestPool posThisTx pindexBlock fBlock fMiner fStrict
      = some mapNew
  := by
  obtain ⟨inputs, hfetch⟩ := exists_fetchInputs hmode hcoinbase h.found
  obtain ⟨-, hinputs⟩ := fetchInputs_eq_ok hmode hcoinbase hfetch
  obtain ⟨state, hstate⟩ :=
    exists_foldlM_spendInput posThisTx hnodup hinputs h.spendable
  have htally : checkInputs pindexBlock (fun hash => inputs[hash]?) tx.vin 0 = some nValueIn := by
    rw [← h.tally]
    apply checkInputs_congr hinputs
  refine ⟨inputs, state.2, hfetch, ?_⟩
  rw [CTransaction.connectInputs, hcoinbase, hmode]
  simp only [Bool.false_eq_true, if_false, Option.bind_eq_bind, htally, Option.bind_some,
    hstate, h.getValueOut, h.fee, if_true]

/-- A fee that passed its check is the difference of two amounts. -/
theorem toInt_fee
    {nValueOut : Int64} (hin : moneyRange nValueIn = true)
    (hout : moneyRange nValueOut = true) (h : feeInRange nValueIn nValueOut = true) :
  (nValueIn - nValueOut).toInt = nValueIn.toInt - nValueOut.toInt
    ∧ 0 ≤ nValueIn.toInt - nValueOut.toInt
  := by
  rw [feeInRange] at h
  split_ifs at h with hlt
  refine ⟨toInt_sub_of_moneyRange hin hout, ?_⟩
  rw [Int64.lt_iff_toInt_lt] at hlt
  omega

end Connect

/-! ## Disconnecting -/

theorem disconnectInput_eq
    (txIndex : TxIndexMap) (txin : CTxIn) :
  disconnectInput txIndex txin
    = (slot txIndex txin.prevout).map (fun _ => setSlot CDiskTxPos.null txIndex txin.prevout)
  := by
  rw [disconnectInput, slot]
  cases hget : txIndex[txin.prevout.hash]? with
  | none => rfl
  | some txindex =>
    rw [Option.bind_some, setSlot_of_getElem? _ hget]
    simp only
    split_ifs with hrange
    · rw [List.getElem?_eq_none hrange]
      rfl
    · rw [List.getElem?_eq_getElem (Nat.not_le.mp hrange)]
      rfl

/-- Taking back the marks of several inputs. -/
theorem foldlM_disconnectInput
    {txIndex txIndex' : TxIndexMap} {vin : List CTxIn}
    (h : vin.foldlM disconnectInput txIndex = some txIndex') :
  txIndex' = setSlots CDiskTxPos.null txIndex (vin.map CTxIn.prevout)
    ∧ ∀ txin ∈ vin, txIndex[txin.prevout.hash]? ≠ none
  := by
  induction vin generalizing txIndex with
  | nil =>
    obtain rfl := Option.some.inj h
    exact ⟨rfl, fun _ hmem => absurd hmem List.not_mem_nil⟩
  | cons txin vin ih =>
    rw [List.foldlM_cons, Option.bind_eq_bind, Option.bind_eq_some_iff] at h
    obtain ⟨txIndexMid, hstep, hrest⟩ := h
    rw [disconnectInput_eq] at hstep
    obtain ⟨pos, hslot, rfl⟩ := Option.map_eq_some_iff.mp hstep
    obtain ⟨rfl, hall⟩ := ih hrest
    refine ⟨rfl, List.forall_mem_cons.mpr ⟨?_, ?_⟩⟩
    · obtain ⟨txindex, hget, -⟩ := slot_eq_some_iff.mp hslot
      rw [hget]
      apply Option.some_ne_none
    · intro txin' hmem
      rw [Ne, ← getElem?_setSlot_eq_none_iff]
      apply hall txin' hmem

theorem exists_foldlM_disconnectInput
    {txIndex : TxIndexMap} {vin : List CTxIn}
    (h : ∀ txin ∈ vin, ∃ pos, slot txIndex txin.prevout = some pos) :
  ∃ txIndex', vin.foldlM disconnectInput txIndex = some txIndex'
  := by
  induction vin generalizing txIndex with
  | nil => exact ⟨txIndex, rfl⟩
  | cons txin vin ih =>
    obtain ⟨⟨pos, hslot⟩, hrest⟩ := List.forall_mem_cons.mp h
    rw [List.foldlM_cons, disconnectInput_eq, hslot]
    apply ih
    intro txin' hmem
    by_cases heq : txin.prevout = txin'.prevout
    · rw [← heq]
      exact ⟨_, slot_setSlot_self _ hslot⟩
    · rw [slot_setSlot_of_ne _ heq]
      apply hrest txin' hmem

end CorgiCoin
