import CorgiCoin.Difficulty
import CorgiCoin.MedianTime
import CorgiCoin.MinerValidator
import CorgiCoin.MultiSigRun
import CorgiCoin.ReadBack

/-!
# Mined blocks

A miner works on a block of `CreateNewBlock`: it changes the extra nonce, the time and the nonce until the
proof of work is found.  The node that made the block then accepts it as its new tip.
-/

namespace CorgiCoin

open Std Codec

/-! ## The coinbase script -/

/-- The script that `IncrementExtraNonce` writes. -/
def extraNonceScript (nTime nExtraNonce : UInt32) : CScript :=
  pushUInt nTime ++ pushBigNum nExtraNonce.toNat ++ COINBASE_FLAGS

theorem length_getvch_uint32 (n : UInt32) : (getvch n.toNat).length ≤ 5
  := by
  apply length_getvch_le
  apply n.toNat_lt

/-- A short push is a byte longer than its data. -/
theorem length_pushData_of_short {data : Bytes} (h : data.length < OP_PUSHDATA1) :
  (pushData data).length = data.length + 1
  := by
  rw [pushData, if_pos h, List.length_cons]

theorem length_pushUInt (n : UInt32) : 1 ≤ (pushUInt n).length ∧ (pushUInt n).length ≤ 6
  := by
  have hlength := length_getvch_uint32 n
  have hshort : (getvch n.toNat).length < OP_PUSHDATA1 := by
    rw [OP_PUSHDATA1]
    omega
  rw [pushUInt]
  split_ifs
  · rw [List.length_singleton]
    omega
  · rw [length_pushData_of_short hshort]
    omega

/-- The script fits the bounds of a coinbase, as `IncrementExtraNonce` asserts. -/
theorem length_extraNonceScript (nTime nExtraNonce : UInt32) :
  2 ≤ (extraNonceScript nTime nExtraNonce).length ∧ (extraNonceScript nTime nExtraNonce).length ≤ 100
  := by
  have htime := length_pushUInt nTime
  have hlength := length_getvch_uint32 nExtraNonce
  have hshort : (getvch nExtraNonce.toNat).length < OP_PUSHDATA1 := by
    rw [OP_PUSHDATA1]
    omega
  have hflags : COINBASE_FLAGS.length = 7 := by decide
  rw [extraNonceScript, List.length_append, List.length_append, pushBigNum, length_pushData_of_short hshort,
    hflags]
  omega

/-! ### Its signature operations -/

/-- No instruction counts when none is a signature check, whatever precedes. -/
theorem countSigOps_false_cons (lastOpcode opcode : ℕ) (vch : Bytes) (ops : List (ℕ × Bytes)) :
  countSigOps false lastOpcode ((opcode, vch) :: ops)
    = sigOpsOf false opcode opcode + countSigOps false opcode ops
  := by
  rw [countSigOps, sigOpsOf, sigOpsOf]
  simp

theorem countSigOps_false_congr (lastOpcode lastOpcode' : ℕ) (ops : List (ℕ × Bytes)) :
  countSigOps false lastOpcode ops = countSigOps false lastOpcode' ops
  := by
  cases ops with
  | nil => rfl
  | cons op ops => rw [countSigOps_false_cons, countSigOps_false_cons]

/-- What an instruction at the head of a script adds. -/
theorem getSigOpCount_false_of_getOp
    {script pc : CScript} {opcode : ℕ} {vch : Bytes} (h : getOp script = some (opcode, vch, pc)) :
  getSigOpCount false script = sigOpsOf false opcode opcode + getSigOpCount false pc
  := by
  rw [getSigOpCount, getSigOpCount, instructions_cons h, countSigOps_false_cons,
    countSigOps_false_congr opcode OP_INVALIDOPCODE]

/-- An opcode up to that of sixteen checks no signature. -/
theorem sigOpsOf_number {opcode : ℕ} (h : opcode ≤ OP_16) : sigOpsOf false opcode opcode = 0
  := by
  rw [OP_16] at h
  rw [sigOpsOf, OP_CHECKSIG, OP_CHECKSIGVERIFY, OP_CHECKMULTISIG, OP_CHECKMULTISIGVERIFY, if_neg (by omega),
    if_neg (by omega)]

theorem getSigOpCount_pushData {data : Bytes} (h : data.length < 2 ^ 32) (rest : CScript) :
  getSigOpCount false (pushData data ++ rest) = getSigOpCount false rest
  := by
  have hle : pushOpcode data ≤ OP_16 := (pushOpcode_le data).trans (by decide)
  rw [getSigOpCount_false_of_getOp (getOp_pushData h rest), sigOpsOf_number hle, UInt32.zero_add]

theorem getSigOpCount_pushUInt (n : UInt32) (rest : CScript) :
  getSigOpCount false (pushUInt n ++ rest) = getSigOpCount false rest
  := by
  rw [pushUInt]
  split_ifs with hsmall
  · have hop := @getOp_opcode (n.toNat + (OP_1 - 1)) (by rw [OP_1, OP_PUSHDATA4]; omega) (by rw [OP_1]; omega)
      rest
    have hle : n.toNat + (OP_1 - 1) ≤ OP_16 := by
      rw [OP_1, OP_16]
      omega
    rw [List.singleton_append, getSigOpCount_false_of_getOp hop, sigOpsOf_number hle, UInt32.zero_add]
  · apply getSigOpCount_pushData
    have hlength := length_getvch_uint32 n
    omega

theorem getSigOpCount_extraNonceScript (nTime nExtraNonce : UInt32) :
  getSigOpCount false (extraNonceScript nTime nExtraNonce) = 0
  := by
  have hlength := length_getvch_uint32 nExtraNonce
  rw [extraNonceScript, List.append_assoc, getSigOpCount_pushUInt, pushBigNum,
    getSigOpCount_pushData (by omega)]
  decide

/-! ### The output -/

/-- A reserved key is no longer than an uncompressed one. -/
def MinerPayee.Valid : MinerPayee → Prop
  | minerAddr _ => True
  | reservedKey vchPubKey => vchPubKey.length ≤ 65

theorem MinerPayee.length_scriptPubKey {payee : MinerPayee} (h : payee.Valid) :
  payee.scriptPubKey.length ≤ 67
  := by
  cases payee with
  | minerAddr dest =>
    cases dest with
    | CNoDestination => apply Nat.zero_le
    | CKeyID keyID =>
      have hlength : (serializeUint160 keyID).length = 20 := length_toLE 20 keyID.toNat
      rw [scriptPubKey, setDestination, scriptForKeyID]
      simp only [List.length_append, List.length_cons, List.length_nil]
      rw [length_pushData_of_short (by rw [hlength]; decide), hlength]
      decide
    | CScriptID scriptID =>
      have hlength : (serializeUint160 scriptID).length = 20 := length_toLE 20 scriptID.toNat
      rw [scriptPubKey, setDestination, scriptForScriptID]
      simp only [List.length_append, List.length_cons, List.length_nil]
      rw [length_pushData_of_short (by rw [hlength]; decide), hlength]
      decide
  | reservedKey vchPubKey =>
    have hlength : vchPubKey.length ≤ 65 := h
    have hshort : vchPubKey.length < OP_PUSHDATA1 := by
      rw [OP_PUSHDATA1]
      omega
    rw [scriptPubKey, List.length_append, length_pushData_of_short hshort, List.length_singleton]
    omega

theorem MinerPayee.toNat_getSigOpCount {payee : MinerPayee} (h : payee.Valid) :
  (getSigOpCount false payee.scriptPubKey).toNat ≤ 1
  := by
  cases payee with
  | minerAddr dest =>
    cases dest with
    | CNoDestination => apply Nat.zero_le
    | CKeyID keyID =>
      rw [scriptPubKey, setDestination, getSigOpCount, instructions_scriptForKeyID]
      apply Nat.le_refl
    | CScriptID scriptID =>
      rw [scriptPubKey, setDestination, getSigOpCount, instructions_scriptForScriptID]
      apply Nat.zero_le
  | reservedKey vchPubKey =>
    have hlength : vchPubKey.length ≤ 65 := h
    rw [scriptPubKey, getSigOpCount_pushData (by omega)]
    decide

/-! ## The coinbase -/

/-- The coinbase of a block that is worked on. -/
def workedCoinbase (payee : MinerPayee) (nValue : Int64) (scriptSig : CScript) : CTransaction :=
  ⟨CTransaction.CURRENT_VERSION, [⟨COutPoint.null, scriptSig, 0xffffffff⟩], [⟨nValue, payee.scriptPubKey⟩], 0⟩

section Coinbase

variable (payee : MinerPayee) (nValue : Int64) (scriptSig : CScript)

theorem isCoinBase_workedCoinbase :
  (workedCoinbase payee nValue scriptSig).isCoinBase = true
  := by
  rfl

theorem length_workedCoinbase
    (hpayee : payee.Valid) (hsig : scriptSig.length ≤ 100) :
  (workedCoinbase payee nValue scriptSig).serialize.length ≤ 300
  := by
  have hscript := payee.length_scriptPubKey hpayee
  have hcompact : ∀ n, n < 253 → (writeCompactSize n).length = 1 := by
    intro n hn
    rw [writeCompactSize, if_pos hn]
    rfl
  rw [CTransaction.serialize, serializeVector, serializeVector, workedCoinbase]
  simp only [List.length_append, List.flatMap_cons, List.flatMap_nil, CTxIn.serialize, CTxOut.serialize,
    COutPoint.serialize, serializeBytes, serializeInt, serializeInt64, serializeUInt, serializeUint256,
    length_toLE, List.length_cons, List.length_nil]
  rw [hcompact 1 (by omega), hcompact scriptSig.length (by omega), hcompact _ (by omega)]
  omega

theorem checkTransaction_workedCoinbase
    (hpayee : payee.Valid) (hsig : 2 ≤ scriptSig.length ∧ scriptSig.length ≤ 100)
    (hvalue : moneyRange nValue = true) :
  (workedCoinbase payee nValue scriptSig).checkTransaction = true
  := by
  have hlength := length_workedCoinbase payee nValue scriptSig hpayee hsig.2
  have hsize : ¬(workedCoinbase payee nValue scriptSig).getSerializeSize > MAX_BLOCK_SIZE := by
    have hmax : MAX_BLOCK_SIZE.toNat = 1000000 := by decide
    rw [gt_iff_lt, UInt32.lt_iff_toNat_lt, CTransaction.toNat_getSerializeSize (by omega), hmax]
    omega
  have hvalues : checkValuesOut 0 (workedCoinbase payee nValue scriptSig).vout = true := by
    rw [checkValuesOut_eq]
    simp [workedCoinbase, addMoney, hvalue]
  have hinputs : checkDistinctInputs [] (workedCoinbase payee nValue scriptSig).vin = true := by
    rw [checkDistinctInputs_iff]
    simp [workedCoinbase]
  have hscript : (((workedCoinbase payee nValue scriptSig).vin.head?.map CTxIn.scriptSig).getD []).length
      = scriptSig.length := rfl
  rw [CTransaction.checkTransaction, hvalues, hinputs, isCoinBase_workedCoinbase, if_neg hsize, hscript]
  simp only [workedCoinbase, List.isEmpty_cons, Bool.false_eq_true, if_false, Bool.not_true, if_true]
  simp
  omega

theorem toNat_getLegacySigOpCount_workedCoinbase
    (hpayee : payee.Valid) (hsig : getSigOpCount false scriptSig = 0) :
  (workedCoinbase payee nValue scriptSig).getLegacySigOpCount.toNat ≤ 1
  := by
  have hcount := MinerPayee.toNat_getSigOpCount hpayee
  rw [CTransaction.getLegacySigOpCount, workedCoinbase]
  simp only [List.map_cons, List.map_nil, List.sum_cons, List.sum_nil, hsig, UInt32.zero_add, UInt32.add_zero]
  exact hcount

theorem getValueOut_workedCoinbase
    (hvalue : moneyRange nValue = true) :
  (workedCoinbase payee nValue scriptSig).getValueOut = some nValue
  := by
  simp [CTransaction.getValueOut, workedCoinbase, addMoney, hvalue]

end Coinbase

/-! ## Sizes -/

/-- The bytes of a block without a merged-mining proof. -/
theorem CBlock.length_bytes_le
    {nType : UInt32} {block : CBlock} (haux : block.isAuxPow = false) :
  (block.bytes nType).length ≤ 89 + (block.vtx.map (fun tx => tx.serialize.length)).sum
  := by
  have hproof : carriesAuxPow nType block.nVersion = false := by
    rw [carriesAuxPow]
    have hversion : isAuxPowVersion block.nVersion = false := haux
    rw [hversion, Bool.and_false]
  have hcompact : ∀ n, (writeCompactSize n).length ≤ 9 := by
    intro n
    rw [writeCompactSize]
    split_ifs <;> simp only [List.length_cons, length_toLE] <;> omega
  have hcount := hcompact block.vtx.length
  have hvtx : (vtxBytes nType block).length
      ≤ 9 + (block.vtx.map (fun tx => tx.serialize.length)).sum := by
    rw [vtxBytes]
    split_ifs
    · rw [serializeVector, List.length_append, List.length_flatMap]
      omega
    · apply Nat.zero_le
  rw [bytes, List.length_append, List.length_append, CPureBlockHeader.length_serialize, auxPowBytes, hproof]
  simp only [Bool.false_eq_true, if_false, List.length_nil]
  omega

/-- There are no more transactions than bytes. -/
theorem length_vtx_le_sum (vtx : List CTransaction) :
  vtx.length ≤ (vtx.map (fun tx => tx.serialize.length)).sum
  := by
  induction vtx with
  | nil => apply Nat.zero_le
  | cons tx vtx ih =>
    have hone : 1 ≤ tx.serialize.length := by
      rw [CTransaction.serialize]
      simp only [List.length_append, serializeInt, serializeUInt, length_toLE]
      omega
    rw [List.map_cons, List.sum_cons, List.length_cons]
    omega

/-! ## Working on a block -/

/-- What a miner makes of a block of `CreateNewBlock`: the extra nonce is set first, and after that the
extra nonce, the time and the nonce are changed in any order.  The list has the readings of the clock. -/
inductive Worked (env : Env) (pindexPrev : CBlockIndex) (template : CBlock) : List ℤ → CBlock → Prop where
  | start (nonce : ExtraNonce) :
    Worked env pindexPrev template [] (incrementExtraNonce env.crypto template nonce).1
  | extraNonce (nonce : ExtraNonce) {clock : List ℤ} {block : CBlock}
    (h : Worked env pindexPrev template clock block) :
    Worked env pindexPrev template clock (incrementExtraNonce env.crypto block nonce).1
  | time {nTime : ℤ} {clock : List ℤ} {block block' : CBlock} (h : Worked env pindexPrev template clock block)
    (hupdate : block.updateTime env.network pindexPrev nTime = some block') :
    Worked env pindexPrev template (nTime :: clock) block'
  | nonce (nNonce : UInt32) {clock : List ℤ} {block : CBlock} (h : Worked env pindexPrev template clock block) :
    Worked env pindexPrev template clock { block with nNonce }

/-- What all these blocks have in common. -/
structure NewBlock (env : Env) (pindexPrev : CBlockIndex) (nAdjustedTime : ℤ) (payee : MinerPayee)
    (nValue : Int64) (vtx : List CTransaction) (scriptSig : CScript) (block : CBlock) : Prop where
  nVersion : block.nVersion =
    if pindexPrev.nHeight + 1 ≥ getAuxPowForkHeight env.network then
      makeVersion CBlock.CURRENT_VERSION AUXPOW_CHAIN_ID false
    else CBlock.CURRENT_VERSION
  hashPrevBlock : block.hashPrevBlock = pindexPrev.getBlockHash
  auxpow : block.auxpow = none
  vtx : block.vtx = workedCoinbase payee nValue scriptSig :: vtx
  hashMerkleRoot : block.hashMerkleRoot = block.buildMerkleTree env.crypto
  nBits : getNextWorkRequired env.network pindexPrev block.nTime = some block.nBits
  nTime : pindexPrev.getMedianTimePast < block.getBlockTime ∧ nAdjustedTime ≤ block.getBlockTime

section Work

variable {env : Env} {pindexPrev : CBlockIndex} {nAdjustedTime : ℤ} {payee : MinerPayee} {nValue : Int64}
  {vtx : List CTransaction} {scriptSig : CScript} {template block block' : CBlock}

theorem getMedianTimePast_nonneg (pindex : CBlockIndex) : 0 ≤ pindex.getMedianTimePast
  := by
  rw [CBlockIndex.le_getMedianTimePast_iff]
  have hcount : pindex.medianWindow.countP (· < 0) = 0 := by
    rw [List.countP_eq_zero]
    intro t hmem
    obtain ⟨p, -, rfl⟩ := List.mem_map.mp hmem
    have hnonneg : 0 ≤ p.getBlockTime := Int.natCast_nonneg _
    simpa using hnonneg
  rw [hcount]
  apply Nat.zero_le

/-- As long as 32 bits hold it, a new time is after the median of the past and not before the clock. -/
theorem toNat_newBlockTime
    {nTime : ℤ} (hmedian : pindexPrev.getMedianTimePast < 2 ^ 32 - 1) (hlt : nTime < 2 ^ 32) :
  pindexPrev.getMedianTimePast < (newBlockTime pindexPrev nTime).toNat
    ∧ nTime ≤ (newBlockTime pindexPrev nTime).toNat
  := by
  have hnonneg := getMedianTimePast_nonneg pindexPrev
  have hnat : ((newBlockTime pindexPrev nTime).toNat : ℤ) = max (pindexPrev.getMedianTimePast + 1) nTime := by
    generalize hmax : max (pindexPrev.getMedianTimePast + 1) nTime = m
    have hm : 0 ≤ m ∧ m < 2 ^ 32 := by omega
    rw [newBlockTime, hmax, UInt32.ofInt, UInt32.toNat_ofNat']
    omega
  rw [hnat]
  omega

/-- Only on the test networks the target depends on the time of the block. -/
theorem getNextWorkRequired_congr
    {network : Network} (h : network.fTestNet = false) (pindexLast : CBlockIndex) (nTime nTime' : UInt32) :
  getNextWorkRequired network pindexLast nTime = getNextWorkRequired network pindexLast nTime'
  := by
  rw [getNextWorkRequired, getNextWorkRequired]
  simp only [h, Bool.false_eq_true, if_false]

theorem NewBlock.updateTime
    {nTime : ℤ} (h : NewBlock env pindexPrev nAdjustedTime payee nValue vtx scriptSig block)
    (hmedian : pindexPrev.getMedianTimePast < 2 ^ 32 - 1) (hle : nAdjustedTime ≤ nTime) (hlt : nTime < 2 ^ 32)
    (hupdate : block.updateTime env.network pindexPrev nTime = some block') :
  NewBlock env pindexPrev nAdjustedTime payee nValue vtx scriptSig block'
  := by
  have htime := toNat_newBlockTime hmedian hlt
  rw [CBlock.updateTime] at hupdate
  dsimp only at hupdate
  split_ifs at hupdate with htest
  · obtain ⟨nBits, hbits, rfl⟩ := Option.map_eq_some_iff.mp hupdate
    exact ⟨h.nVersion, h.hashPrevBlock, h.auxpow, h.vtx, h.hashMerkleRoot, hbits, htime.1, hle.trans htime.2⟩
  · obtain rfl := Option.some.inj hupdate
    refine ⟨h.nVersion, h.hashPrevBlock, h.auxpow, h.vtx, h.hashMerkleRoot, ?_, htime.1, hle.trans htime.2⟩
    rw [getNextWorkRequired_congr (Bool.eq_false_of_not_eq_true htest) pindexPrev _ block.nTime]
    exact h.nBits

/-- Whatever the script of the coinbase was, it is replaced. -/
theorem NewBlock.incrementExtraNonce
    (h : NewBlock env pindexPrev nAdjustedTime payee nValue vtx scriptSig block) (nonce : ExtraNonce) :
  ∃ nExtraNonce, NewBlock env pindexPrev nAdjustedTime payee nValue vtx (extraNonceScript block.nTime nExtraNonce)
    (CorgiCoin.incrementExtraNonce env.crypto block nonce).1
  := by
  use (if nonce.hashPrevBlock != block.hashPrevBlock then 0 else nonce.nExtraNonce) + 1
  have hvtx : ∀ scriptSig', (block.setScriptSig scriptSig').vtx = workedCoinbase payee nValue scriptSig' :: vtx := by
    intro scriptSig'
    rw [CBlock.setScriptSig, h.vtx]
    rfl
  rw [CorgiCoin.incrementExtraNonce]
  dsimp only
  rw [CBlock.setScriptSig_eq]
  refine ⟨h.nVersion, h.hashPrevBlock, h.auxpow, ?_, rfl, h.nBits, h.nTime⟩
  apply hvtx

/-- All blocks that are worked on have the transactions of the template after a coinbase of the same output
and of a script that `IncrementExtraNonce` wrote. -/
theorem Worked.newBlock
    {clock : List ℤ} (h : Worked env pindexPrev template clock block)
    (hclock : ∀ nTime ∈ clock, nAdjustedTime ≤ nTime ∧ nTime < 2 ^ 32)
    (hmedian : pindexPrev.getMedianTimePast < 2 ^ 32 - 1)
    (htemplate : NewBlock env pindexPrev nAdjustedTime payee nValue vtx scriptSig template) :
  ∃ nTime nExtraNonce,
    NewBlock env pindexPrev nAdjustedTime payee nValue vtx (extraNonceScript nTime nExtraNonce) block
  := by
  induction h with
  | start nonce =>
    obtain ⟨nExtraNonce, hnew⟩ := htemplate.incrementExtraNonce nonce
    exact ⟨_, nExtraNonce, hnew⟩
  | extraNonce nonce _ ih =>
    obtain ⟨_, _, hbefore⟩ := ih hclock
    obtain ⟨nExtraNonce, hnew⟩ := hbefore.incrementExtraNonce nonce
    exact ⟨_, nExtraNonce, hnew⟩
  | time _ hupdate ih =>
    obtain ⟨⟨hle, hlt⟩, hclock⟩ := List.forall_mem_cons.mp hclock
    obtain ⟨nTime, nExtraNonce, hbefore⟩ := ih hclock
    exact ⟨nTime, nExtraNonce, hbefore.updateTime hmedian hle hlt hupdate⟩
  | nonce nNonce _ ih =>
    obtain ⟨nTime, nExtraNonce, hbefore⟩ := ih hclock
    exact ⟨nTime, nExtraNonce, hbefore.nVersion, hbefore.hashPrevBlock, hbefore.auxpow, hbefore.vtx,
      hbefore.hashMerkleRoot, hbefore.nBits, hbefore.nTime⟩

/-- The header that `CreateNewBlock` fills in. -/
theorem newBlock_of_fillHeader
    (hmedian : pindexPrev.getMedianTimePast < 2 ^ 32 - 1) (hlt : nAdjustedTime < 2 ^ 32)
    (h : fillHeader env pindexPrev nAdjustedTime (newCoinbase payee nValue :: vtx) = some block) :
  NewBlock env pindexPrev nAdjustedTime payee nValue vtx [] block
  := by
  have htime := toNat_newBlockTime hmedian hlt
  rw [fillHeader] at h
  generalize hversion : (if pindexPrev.nHeight + 1 ≥ getAuxPowForkHeight env.network then
    makeVersion CBlock.CURRENT_VERSION AUXPOW_CHAIN_ID false else CBlock.CURRENT_VERSION) = nVersion at h
  dsimp only at h
  split at h
  · cases h
  · rename_i timed hupdate
    obtain ⟨nBits, hbits, rfl⟩ := Option.map_eq_some_iff.mp h
    rw [CBlock.updateTime] at hupdate
    dsimp only at hupdate
    split_ifs at hupdate
    · obtain ⟨nBits', -, rfl⟩ := Option.map_eq_some_iff.mp hupdate
      exact ⟨hversion.symm, rfl, rfl, rfl, rfl, hbits, htime⟩
    · obtain rfl := Option.some.inj hupdate
      exact ⟨hversion.symm, rfl, rfl, rfl, rfl, hbits, htime⟩

end Work

/-! ## The checks -/

section Checks

variable {env : Env} {pindexPrev : CBlockIndex} {nAdjustedTime : ℤ} {payee : MinerPayee} {nValue : Int64}
  {vtx : List CTransaction} {scriptSig : CScript} {block : CBlock}

/-- New blocks carry no merged-mining proof. -/
theorem NewBlock.isAuxPow
    (h : NewBlock env pindexPrev nAdjustedTime payee nValue vtx scriptSig block) :
  block.isAuxPow = false
  := by
  rw [CPureBlockHeader.isAuxPow, h.nVersion]
  split_ifs
  · decide
  · decide

theorem NewBlock.present
    (h : NewBlock env pindexPrev nAdjustedTime payee nValue vtx scriptSig block) :
  block.AuxPowPresent
  := by
  rw [CBlock.AuxPowPresent, h.auxpow, h.isAuxPow]
  rfl

theorem sum_getLegacySigOpCount_le
    (env : Env) (reader : TxReader) (index : TxIndexMap) (vtx : List CTransaction) :
  (vtx.map CTransaction.getLegacySigOpCount).sum.toNat ≤ totalSigOps env reader index (atPool vtx)
  := by
  induction vtx generalizing index with
  | nil => apply Nat.zero_le
  | cons tx vtx ih =>
    have hrest := ih (addTx env index (CDiskTxPos.pool, tx))
    rw [List.map_cons, List.sum_cons, UInt32.toNat_add, atPool_cons, totalSigOps]
    dsimp only
    omega

/-- The sizes of a new block. -/
theorem NewBlock.length_bytes
    (h : NewBlock env pindexPrev nAdjustedTime payee nValue vtx scriptSig block) (hpayee : payee.Valid)
    (hsig : scriptSig.length ≤ 100) (nType : UInt32)
    (hsize : 1000 + (vtx.map (fun tx => tx.serialize.length)).sum < 500000) :
  (block.bytes nType).length < 500000 ∧ block.vtx.length < 500000
  := by
  have hcoinbase := length_workedCoinbase payee nValue scriptSig hpayee hsig
  have hlength := @CBlock.length_bytes_le nType block h.isAuxPow
  have hcount := length_vtx_le_sum block.vtx
  rw [h.vtx, List.map_cons, List.sum_cons] at hlength hcount
  rw [h.vtx]
  omega

theorem NewBlock.fits
    (h : NewBlock env pindexPrev nAdjustedTime payee nValue vtx scriptSig block) (hpayee : payee.Valid)
    (hsig : scriptSig.length ≤ 100)
    (hsize : 1000 + (vtx.map (fun tx => tx.serialize.length)).sum < 500000) :
  block.Fits
  := by
  have hmax : MAX_SIZE = 0x02000000 := rfl
  have hcoinbase := length_workedCoinbase payee nValue scriptSig hpayee hsig
  obtain ⟨-, hcount⟩ := h.length_bytes hpayee hsig SER_NETWORK hsize
  constructor
  · omega
  · intro tx hmem
    apply CTransaction.fits_of_length
    rw [h.vtx, List.mem_cons] at hmem
    rcases hmem with rfl | hmem
    · omega
    · have hle : tx.serialize.length ≤ (vtx.map (fun tx => tx.serialize.length)).sum :=
        List.single_le_sum (fun _ _ => Nat.zero_le _) _ (List.mem_map_of_mem hmem)
      omega
  · intro auxpow hmem
    rw [h.auxpow] at hmem
    cases hmem

/-- A new block passes the checks that need no chain once its proof of work is found. -/
theorem NewBlock.checkBlock
    (h : NewBlock env pindexPrev nAdjustedTime payee nValue vtx scriptSig block) (hpayee : payee.Valid)
    (hvalue : moneyRange nValue = true) (hsig : 2 ≤ scriptSig.length ∧ scriptSig.length ≤ 100)
    (hvtx : ∀ tx ∈ vtx, tx.checkTransaction = true ∧ tx.isCoinBase = false) (hnodup : (block.txids env).Nodup)
    (hsize : 1000 + (vtx.map (fun tx => tx.serialize.length)).sum < 500000)
    (hsigops : (workedCoinbase payee nValue scriptSig).getLegacySigOpCount.toNat
      + (vtx.map CTransaction.getLegacySigOpCount).sum.toNat ≤ 20000)
    (hwork : checkProofOfWork env.network (block.toCPureBlockHeader.getPoWHash env.crypto) block.nBits = true)
    {nTime : ℤ} (htime : block.getBlockTime ≤ nTime + 2 * 60 * 60) :
  block.checkBlock env nTime = true
  := by
  obtain ⟨hbytes, hcount⟩ := h.length_bytes hpayee hsig.2 SER_NETWORK hsize
  have hmax : MAX_BLOCK_SIZE.toNat = 1000000 := by decide
  have hmaxops : MAX_BLOCK_SIGOPS.toNat = 20000 := by decide
  have haux : checkAuxProofOfWork env block block.nBits = true := by
    rw [checkAuxProofOfWork, h.isAuxPow]
    simpa using hwork
  have hlimits : ¬(decide (block.vtx.length > MAX_BLOCK_SIZE.toNat)
      || decide (UInt32.ofNat (block.bytes SER_NETWORK).length > MAX_BLOCK_SIZE)) = true := by
    rw [Bool.or_eq_true, decide_eq_true_iff, decide_eq_true_iff, hmax, gt_iff_lt, gt_iff_lt,
      UInt32.lt_iff_toNat_lt, hmax, UInt32.toNat_ofNat', Nat.mod_eq_of_lt (by omega)]
    omega
  have hothers : ¬vtx.any CTransaction.isCoinBase = true := by
    rw [List.any_eq_true]
    rintro ⟨tx, hmem, hcoinbase⟩
    rw [(hvtx tx hmem).2] at hcoinbase
    cases hcoinbase
  have hall : block.vtx.all CTransaction.checkTransaction = true := by
    rw [h.vtx, List.all_cons, checkTransaction_workedCoinbase payee nValue scriptSig hpayee hsig hvalue,
      Bool.true_and, List.all_eq_true]
    exact fun tx hmem => (hvtx tx hmem).1
  have hops : ¬(block.vtx.map CTransaction.getLegacySigOpCount).sum > MAX_BLOCK_SIGOPS := by
    rw [h.vtx, List.map_cons, List.sum_cons, gt_iff_lt, UInt32.lt_iff_toNat_lt, UInt32.toNat_add, hmaxops]
    omega
  rw [CBlock.checkBlock, CBlock.getSerializeSize_eq SER_NETWORK h.present]
  split
  · rename_i hnil
    rw [h.vtx] at hnil
    cases hnil
  · rename_i hnone _
    cases hnone
  · rename_i coinbase rest nSize hcons hsome
    obtain rfl := Option.some.inj hsome
    obtain ⟨rfl, rfl⟩ := List.cons.inj (h.vtx.symm.trans hcons)
    rw [if_neg hlimits, if_neg (by rw [haux]; decide), if_neg (Int.not_lt.mpr htime),
      isCoinBase_workedCoinbase, if_neg (by decide), if_neg hothers, if_neg (by rw [hall]; decide),
      if_neg (by simpa using hnodup), if_neg hops, h.hashMerkleRoot, beq_self_eq_true]

/-- What is final for the next block of a chain is final in it. -/
theorem isFinal_of_newBlock
    {nBestHeight nAcceptTime nHeight nBlockTime : ℤ} {tx : CTransaction}
    (h : tx.isFinal nBestHeight nAdjustedTime 0 0 = true) (hheight : nBestHeight ≤ nHeight) (hpos : nHeight ≠ 0)
    (htime : nAdjustedTime ≤ nBlockTime) (hne : nBlockTime ≠ 0) :
  tx.isFinal nBestHeight nAcceptTime nHeight nBlockTime = true
  := by
  rw [CTransaction.isFinal] at h ⊢
  dsimp only at h ⊢
  rw [if_pos rfl, if_pos rfl] at h
  rw [if_neg hpos, if_neg hne]
  split_ifs at h ⊢ with hzero hlow hpast
  all_goals first | rfl | exact h | omega

end Checks

/-- The transactions of a valid pool have different hashes. -/
theorem CTxMemPool.Valid.nodup_hashes
    {txs : Set CTransaction} {pool : CTxMemPool} {env : Env} (h : pool.Valid env txs) :
  (pool.txs.map (CTransaction.getHash env.crypto)).Nodup
  := by
  have hkeys : pool.txs.map (CTransaction.getHash env.crypto) = pool.mapTx.toList.map Prod.fst := by
    rw [CTxMemPool.txs, List.map_map]
    apply List.map_congr_left
    rintro ⟨hash, tx⟩ hmem
    apply h.key hash tx
    apply ExtTreeMap.mem_toList_iff_getElem?_eq_some.mp hmem
  rw [hkeys]
  apply TreeMap.nodup_keys

namespace Node

section Accept

variable {env : Env} {node : Node} {best : CBlockIndex} {nAdjustedTime : ℤ} {payee : MinerPayee} {nValue : Int64}
  {vtx : List CTransaction} {scriptSig : CScript} {block : CBlock}

/-- A new block passes the checks of `AcceptBlock` on top of the tip that it was made for. -/
theorem contextualCheck_newBlock
    (h : NewBlock env best nAdjustedTime payee nValue vtx scriptSig block) (htip : node.TipIs best)
    (hvtx : ∀ tx ∈ vtx, tx.isFinal node.nBestHeight nAdjustedTime 0 0 = true) {nTime : ℤ}
    (htime : block.getBlockTime ≤ nTime + LWMA_FUTURE_TIME_LIMIT) :
  node.contextualCheck env (Io.smooth nTime) block best = true
  := by
  have hmedian := getMedianTimePast_nonneg best
  have hfork : ¬(best.nHeight + 1 ≥ getAuxPowForkHeight env.network
      ∧ getChainId block.nVersion ≠ AUXPOW_CHAIN_ID) := by
    rintro ⟨hheight, hchain⟩
    rw [h.nVersion, if_pos hheight] at hchain
    exact hchain (by decide)
  have hfuture : ¬(best.nHeight + 1 ≥ getLwmaForkHeight env.network
      ∧ block.getBlockTime > nTime + LWMA_FUTURE_TIME_LIMIT) := by
    rintro ⟨-, hlate⟩
    omega
  have hfinal : block.vtx.all (fun tx => tx.isFinal node.nBestHeight nTime ((best.nHeight + 1 : ℕ) : ℤ)
      block.getBlockTime) = true := by
    rw [h.vtx, List.all_cons, Bool.and_eq_true, List.all_eq_true]
    constructor
    · rfl
    · intro tx hmem
      apply isFinal_of_newBlock (hvtx tx hmem)
      · rw [htip.nBestHeight]
        omega
      · omega
      · exact h.nTime.2
      · have hafter := h.nTime.1
        omega
  rw [contextualCheck]
  rw [if_neg (by rw [h.nBits]; exact not_not_intro rfl), if_neg hfork,
    if_neg (by rw [h.isAuxPow]; rintro ⟨-, hcontra⟩; cases hcontra), if_neg (Int.not_le.mpr h.nTime.1)]
  have haccept : (Io.smooth nTime).nAcceptTime = nTime := rfl
  rw [haccept, if_neg hfuture, if_neg (by rw [hfinal]; decide), checkpointsCheckBlock]
  have hne : (best.nHeight + 1 != 0) = true := by simp
  rw [hne, Bool.or_true, Bool.true_or]

/-- A block of some target has work. -/
theorem getBlockWork_pos
    {network : Network} {hash : uint256} {pindex : CBlockIndex}
    (h : checkProofOfWork network hash pindex.entry.nBits = true) :
  0 < pindex.getBlockWork
  := by
  rw [checkProofOfWork] at h
  split_ifs at h with hrange
  rw [Bool.or_eq_true, decide_eq_true_iff, decide_eq_true_iff, not_or] at hrange
  have hlimit := (bnProofOfWorkLimit_bounds network).2
  rw [CBlockIndex.getBlockWork, if_neg hrange.1]
  apply Int.le_ediv_of_mul_le
  · omega
  · omega

/-- A received block on top of the tip becomes the new tip when it connects. -/
theorem acceptBlock_on_tip
    (hindexed : node.Indexed env) (htip : node.TipIs best) {received : ReceivedBlock} {nTime : ℤ}
    (hprev : node.mapBlockIndex[received.block.hashPrevBlock]? = some best)
    (hnew : node.mapBlockIndex[received.block.getHash env]? = none)
    (hcontext : node.contextualCheck env (Io.smooth nTime) received.block best = true)
    {files : BlockFiles} {pos : BlockPos}
    (hwrite : node.files.writeToDisk env.network received.block = some (files, pos))
    (hwork : 0 < (CBlockIndex.next (blockEntry env received.block pos) best).getBlockWork)
    (hbest : node.fFailedChain best = false)
    (hvalid : node.setInvalidatedBlocks.contains (received.block.getHash env) = false)
    (hconnect : ∀ txdb, txdb.txIndex = node.txdb.txIndex →
      ∃ txdb', received.block.connectBlock env ⟨files.readTx, node.mempool.mapTx⟩ nTime txdb
        (.next (blockEntry env received.block pos) best) = some txdb') :
  (node.acceptBlock env (Io.smooth nTime) received.block).2 = true
    ∧ (node.acceptBlock env (Io.smooth nTime) received.block).1.hashBestChain = received.block.getHash env
  := by
  have hself : best.getBlockHash = received.block.hashPrevBlock := hindexed.key _ _ hprev
  have hcontains : node.mapBlockIndex.contains (received.block.getHash env) = false := by
    rw [← Bool.not_eq_true, ExtTreeMap.contains_iff_mem, ExtTreeMap.mem_iff_isSome_getElem?, hnew]
    simp
  have haccept : node.acceptBlock env (Io.smooth nTime) received.block
      = (node.setFiles files).addToBlockIndex env (Io.smooth nTime) received.block pos := by
    have hspace : (Io.smooth nTime).fDiskSpace = true := rfl
    rw [acceptBlock, if_neg (by rw [hcontains]; decide), hprev]
    dsimp only
    rw [if_neg (by rw [hcontext]; decide), hspace, if_pos rfl, hwrite]
  generalize hpindex : CBlockIndex.next (blockEntry env received.block pos) best = pindexNew at *
  have hhash : pindexNew.getBlockHash = received.block.getHash env := by
    rw [← hpindex]
    rfl
  have hmore : pindexNew.bnChainWork > (node.setFiles files).bnBestChainWork := by
    have hbestwork : (node.setFiles files).bnBestChainWork = best.bnChainWork := htip.bnBestChainWork
    have hchainwork : pindexNew.bnChainWork = best.bnChainWork + pindexNew.getBlockWork := by
      rw [← hpindex]
      rfl
    omega
  have hgood : ((node.setFiles files).insertEntry pindexNew).fFailedChain pindexNew = false := by
    have hflag : (node.setFiles files).failedFlag node.failed pindexNew = false := by
      rw [failedFlag, hhash, ← hpindex]
      dsimp only [CBlockIndex.pprev]
      rw [Bool.or_eq_false_iff]
      exact ⟨hvalid, hbest⟩
    have hfailed : ((node.setFiles files).insertEntry pindexNew).failed
        = node.failed.erase pindexNew.getBlockHash := by
      rw [insertEntry]
      dsimp only
      have hold : (node.setFiles files).failed = node.failed := rfl
      rw [hold, setFlag, hflag]
      rfl
    rw [fFailedChain, hfailed]
    simp
  rw [haccept]
  have hcases := @addToBlockIndex_cases env (node.setFiles files) received.block (Io.smooth nTime) pos best hnew hprev
  rw [hpindex] at hcases
  rcases hcases with ⟨hcontra, -⟩ | ⟨-, hnot⟩ | ⟨-, -, hswitch⟩
  · cases hcontra
  · exact absurd ⟨hmore, hgood⟩ hnot
  · rw [hswitch]
    generalize hwritten : ((node.setFiles files).insertEntry pindexNew).writeEntry (Io.smooth nTime) pindexNew
      = written
    have hindex : written.txdb.txIndex = node.txdb.txIndex := by
      rw [← hwritten]
      rfl
    have hreader : written.reader = ⟨files.readTx, node.mempool.mapTx⟩ := by
      rw [← hwritten]
      rfl
    have hloaded : written.pindexGenesisBlock.isNone = false := by
      have hsame : written.pindexGenesisBlock = node.pindexGenesisBlock := by
        rw [← hwritten]
        rfl
      rw [hsame, Bool.eq_false_iff, Ne, Option.isNone_iff_eq_none]
      exact hindexed.loaded
    have hon : (received.block.hashPrevBlock == written.hashBestChain) = true := by
      have hsame : written.hashBestChain = node.hashBestChain := by
        rw [← hwritten]
        rfl
      rw [hsame, htip.hashBestChain, hself, beq_self_eq_true]
    obtain ⟨txdb', htxdb⟩ := hconnect written.txdb hindex
    have hinner : (written.setBestChainInner env (Io.smooth nTime) received.block pindexNew).2 = true := by
      rw [setBestChainInner, hreader]
      simp only [Io.smooth, if_true, htxdb]
    have hbegins : (!(Io.smooth nTime).begins (received.block.getHash env)) = false := rfl
    rw [setBestChain, hbegins, hloaded, hon]
    simp only [Bool.false_eq_true, if_false, Bool.false_and, if_true, if_pos hinner]
    exact ⟨trivial, rfl⟩

end Accept

/-! ## The miner's own node accepts -/

/-- What is asked of the node, of the clock and of the block that was found. -/
structure MiningOk (env : Env) (node : Node) (best : CBlockIndex) (nAdjustedTime nTime : ℤ)
    (payee : MinerPayee) (clock : List ℤ) (template block : CBlock) : Prop where
  payee : payee.Valid
  sized : node.mempool.Sized
  /-- No transaction of the pool replaces one that still has unspent outputs. -/
  notOverwriting : ∀ tx ∈ node.mempool.txs,
    overwritesUnspent node.txdb.txIndex (tx.getHash env.crypto) = false
  /-- Nor does the coinbase, and its hash is new to the pool. -/
  coinbase : ∀ coinbase ∈ block.vtx.head?,
    overwritesUnspent node.txdb.txIndex (coinbase.getHash env.crypto) = false
      ∧ node.mempool.mapTx[coinbase.getHash env.crypto]? = none
  value : ∀ coinbase ∈ template.vtx.head?, ∀ txout ∈ coinbase.vout, moneyRange txout.nValue = true
  /-- 32 bits hold the times. -/
  bits : nAdjustedTime < 2 ^ 32 ∧ best.getMedianTimePast < 2 ^ 32 - 1
  /-- While the block is worked on, the clock is not set back to before the template. -/
  clock : ∀ t ∈ clock, nAdjustedTime ≤ t ∧ t < 2 ^ 32
  future : block.getBlockTime ≤ nTime + LWMA_FUTURE_TIME_LIMIT
  work : checkProofOfWork env.network (block.toCPureBlockHeader.getPoWHash env.crypto) block.nBits = true
  new : node.mapBlockIndex[block.getHash env]? = none
  notInvalidated : node.fFailedChain best = false
    ∧ node.setInvalidatedBlocks.contains (block.getHash env) = false
  space : node.files.writeToDisk env.network block ≠ none

/-- What is known of the transactions of a template. -/
structure TakenOk (env : Env) (node : Node) (nAdjustedTime : ℤ) (tx : CTransaction) : Prop where
  inPool : node.mempool.mapTx[tx.getHash env.crypto]? = some tx
  checkTransaction : tx.checkTransaction = true
  notCoinBase : tx.isCoinBase = false
  isFinal : tx.isFinal node.nBestHeight nAdjustedTime 0 0 = true

theorem taken_of_built
    {env : Env} {doubles : Doubles} {node : Node} {best : CBlockIndex} {nAdjustedTime : ℤ}
    {txs : Set CTransaction} (hvalid : node.mempool.Valid env txs) {template : Template doubles.Double}
    (hbuilt : template.Built env doubles node best nAdjustedTime) :
  (∀ tx ∈ template.vtx, TakenOk env node nAdjustedTime tx)
    ∧ (template.vtx.map (CTransaction.getHash env.crypto)).Nodup
  := by
  have htaken : template.vtx.Subperm (node.mempool.txs.filter (IsCandidate node nAdjustedTime)) :=
    (List.sublist_append_left _ _).subperm.trans hbuilt.queue
  constructor
  · intro tx hmem
    obtain ⟨hpool, hcandidate⟩ := List.mem_filter.mp (htaken.subset hmem)
    obtain ⟨⟨hash, tx'⟩, hitem, rfl⟩ := List.mem_map.mp hpool
    rw [ExtTreeMap.mem_toList_iff_getElem?_eq_some] at hitem
    obtain ⟨hcheck, hcoinbase⟩ := hvalid.checked hash tx' hitem
    rw [IsCandidate, Bool.not_eq_true', Bool.or_eq_false_iff, Bool.not_eq_false'] at hcandidate
    refine ⟨?_, hcheck, hcoinbase, hcandidate.2⟩
    rw [hvalid.key hash tx' hitem]
    exact hitem
  · obtain ⟨l, hperm, hsub⟩ := htaken
    apply (hperm.map (CTransaction.getHash env.crypto)).nodup_iff.mp
    apply (hsub.map _).nodup
    apply (List.filter_sublist.map _).nodup hvalid.nodup_hashes

/-- The block that a miner finds on the template of its node passes all checks of that node, which makes it
its new tip. -/
theorem mined_block_accepted
    (env : Env) (io : Io) (start : Node) (ops : List Op) (hload : load env io = some start)
    (hok : Transition.Along (step env) (OpOk env) start ops)
    (hinj : Set.InjOn (CTransaction.getHash env.crypto) {tx | ∃ op ∈ ops, tx ∈ op.txs})
    (doubles : Doubles) (nAdjustedTime nTime : ℤ) (payee : MinerPayee) (best : CBlockIndex)
    (clock : List ℤ) (template block : CBlock)
    (hbest : (Transition.run (step env) start ops).pindexBest = some best)
    (htemplate : createNewBlock env doubles (Transition.run (step env) start ops) nAdjustedTime payee
      = some template)
    (hworked : Worked env best template clock block)
    (hmining : MiningOk env (Transition.run (step env) start ops) best nAdjustedTime nTime payee clock template
      block) :
  let node := Transition.run (step env) start ops
  block.checkBlock env nTime = true
    ∧ node.contextualCheck env (Io.smooth nTime) block best = true
    ∧ (node.acceptBlock env (Io.smooth nTime) block).2 = true
    ∧ (node.acceptBlock env (Io.smooth nTime) block).1.hashBestChain = block.getHash env
  := by
  have hindexed := indexed_run hload ops
  have hagrees := (tip_agrees env io start ops hload hok).1
  have hvalid := valid_run hload hinj
  generalize Transition.run (step env) start ops = node at *
  obtain ⟨best', hself, htip, hat⟩ := hagrees
  obtain rfl := Option.some.inj (htip.pindexBest.symm.trans hbest)
  -- the template
  rw [createNewBlock, hbest] at htemplate
  simp only [Option.bind_eq_bind, Option.bind_some] at htemplate
  obtain ⟨collected, hcollect, hfill⟩ := Option.bind_eq_some_iff.mp htemplate
  obtain ⟨collected', hcollect', -, hbuilt⟩ :=
    @collectTransactions_spec env node _ hvalid hmining.sized doubles best' nAdjustedTime
  obtain rfl := Option.some.inj (hcollect.symm.trans hcollect')
  have hstart := newBlock_of_fillHeader hmining.bits.2 hmining.bits.1 hfill
  obtain ⟨nScriptTime, nExtraNonce, hnew⟩ := hworked.newBlock hmining.clock hmining.bits.2 hstart
  generalize hreward : getBlockValue (best'.nHeight + 1) collected.nFees best'.getBlockHash = nValue at hstart hnew
  have hhead : workedCoinbase payee nValue [] ∈ template.vtx.head? := by
    rw [hstart.vtx]
    rfl
  have hvalue : moneyRange nValue = true :=
    hmining.value _ hhead ⟨nValue, payee.scriptPubKey⟩ List.mem_cons_self
  have hsig := length_extraNonceScript nScriptTime nExtraNonce
  have hops := getSigOpCount_extraNonceScript nScriptTime nExtraNonce
  generalize extraNonceScript nScriptTime nExtraNonce = scriptSig at hnew hsig hops
  obtain ⟨htaken, hnodup⟩ := taken_of_built hvalid hbuilt
  obtain ⟨hfresh, hnotInPool⟩ := hmining.coinbase (workedCoinbase payee nValue scriptSig) (by rw [hnew.vtx]; rfl)
  have hother : ∀ tx ∈ collected.vtx,
      tx.getHash env.crypto ≠ (workedCoinbase payee nValue scriptSig).getHash env.crypto := by
    intro tx hmem heq
    rw [← heq, (htaken tx hmem).inPool] at hnotInPool
    cases hnotInPool
  have hdistinct : (block.txids env).Nodup := by
    rw [CBlock.txids, hnew.vtx, List.map_cons, List.nodup_cons]
    refine ⟨?_, hnodup⟩
    intro hmem
    obtain ⟨tx, htx, heq⟩ := List.mem_map.mp hmem
    exact hother tx htx heq
  -- the limits
  have hsize : 1000 + (collected.vtx.map (fun tx => tx.serialize.length)).sum < 500000 := by
    rw [← hbuilt.size.1]
    exact hbuilt.size.2
  have hcoinbaseOps := toNat_getLegacySigOpCount_workedCoinbase payee nValue scriptSig hmining.payee hops
  have htotal : 100 + totalSigOps env node.reader node.txdb.txIndex (atPool collected.vtx) < 20000 := by
    rw [← hbuilt.sigOps.1]
    exact hbuilt.sigOps.2
  have hlegacy := sum_getLegacySigOpCount_le env node.reader node.txdb.txIndex collected.vtx
  have hcheck : block.checkBlock env nTime = true := by
    apply hnew.checkBlock hmining.payee hvalue hsig
      (fun tx hmem => ⟨(htaken tx hmem).checkTransaction, (htaken tx hmem).notCoinBase⟩) hdistinct hsize _
      hmining.work
    · have hfuture := hmining.future
      rw [LWMA_FUTURE_TIME_LIMIT] at hfuture
      omega
    · omega
  have hcontext := contextualCheck_newBlock hnew htip (fun tx hmem => (htaken tx hmem).isFinal) hmining.future
  refine ⟨hcheck, hcontext, ?_⟩
  -- the block on disk
  obtain ⟨⟨files, pos⟩, hwrite⟩ := Option.ne_none_iff_exists'.mp hmining.space
  have hreceived : ∃ received : ReceivedBlock, received.block = block := by
    refine ⟨⟨block, hnew.fits hmining.payee hsig.2 hsize, hnew.present, ?_⟩, rfl⟩
    have hbytes := (hnew.length_bytes hmining.payee hsig.2 SER_NETWORK hsize).1
    have hmax : MAX_SIZE = 0x02000000 := rfl
    omega
  obtain ⟨received, rfl⟩ := hreceived
  have hprev : node.mapBlockIndex[received.block.hashPrevBlock]? = some best' := by
    rw [hnew.hashPrevBlock]
    exact hself
  have hstored := (stored_of_writeToDisk (CBlock.checked_of_checkBlock hcheck).work hnew.hashPrevBlock hwrite).2
  have hpow : 0 < (CBlockIndex.next (blockEntry env received.block pos) best').getBlockWork :=
    getBlockWork_pos hmining.work
  have hconnect : ∀ txdb : CTxDB, txdb.txIndex = node.txdb.txIndex →
      ∃ txdb', received.block.connectBlock env ⟨files.readTx, node.mempool.mapTx⟩ nTime txdb
        (.next (blockEntry env received.block pos) best') = some txdb' := by
    intro txdb hindex
    have hminable : ∀ tx ∈ collected.vtx, Minable env node.reader txdb.txIndex
        ((workedCoinbase payee nValue scriptSig).getHash env.crypto) tx := by
      intro tx hmem
      have htx := htaken tx hmem
      refine ⟨CTransaction.checked_of_checkTransaction htx.checkTransaction, htx.notCoinBase, ?_, htx.inPool,
        hother tx hmem⟩
      rw [hindex]
      apply hmining.notOverwriting tx
      apply List.mem_map.mpr ⟨(tx.getHash env.crypto, tx), _, rfl⟩
      apply ExtTreeMap.mem_toList_iff_getElem?_eq_some.mpr htx.inPool
    have hconnects := hbuilt.connects
    have hfees := hbuilt.nFees
    have hreplays := hat.replays
    rw [← hindex] at hconnects hfees htotal hfresh hreplays
    apply exists_connectBlock (hindexed.chainStored hself) hreplays hwrite hstored hcheck hnew.vtx hfresh hminable
      hconnects _ (getValueOut_workedCoinbase payee nValue scriptSig hvalue)
    · rw [← hreward, hfees]
      apply Int64.le_refl
    · change (workedCoinbase payee nValue scriptSig).getLegacySigOpCount.toNat
        + totalSigOps env node.reader txdb.txIndex (atPool collected.vtx) ≤ 20000
      omega
  apply acceptBlock_on_tip hindexed htip hprev hmining.new hcontext hwrite hpow hmining.notInvalidated.1
    hmining.notInvalidated.2 hconnect

/-! ### A chain of blocks -/

/-- The node after operations, where each of them brings a block on top of the tip or a transaction. -/
def growAlong (env : Env) (node : Node) : List Op → Option Node
  | [] => some node
  | op :: ops =>
    match op with
    | .accept _ received =>
      if received.block.hashPrevBlock = node.hashBestChain then growAlong env (node.step env op) ops else none
    | .acceptTx _ _ _ => growAlong env (node.step env op) ops
    | _ => none

/-- A chain that grows at its tip is never switched to another branch. -/
theorem along_of_growAlong
    {env : Env} {ops : List Op} {node node' : Node} (hindexed : node.Indexed env)
    (h : growAlong env node ops = some node') :
  Transition.Along (step env) (OpOk env) node ops ∧ Transition.run (step env) node ops = node'
  := by
  induction ops generalizing node with
  | nil => exact ⟨trivial, Option.some.inj h⟩
  | cons op ops ih =>
    have hnext := hindexed.step op
    cases op with
    | accept io received =>
      rw [growAlong] at h
      split_ifs at h with hprev
      obtain ⟨halong, hrun⟩ := ih hnext h
      refine ⟨⟨?_, halong⟩, hrun⟩
      intro best files entry pprev hbest hinserts _
      obtain ⟨best', htip, hself⟩ := hindexed.tip
      obtain rfl := Option.some.inj (htip.pindexBest.symm.trans hbest)
      apply switchOk_of_pprev
      have hindexed' := hinserts.pprev_indexed
      rw [← hinserts.stored.prev_eq, hprev, htip.hashBestChain, hself] at hindexed'
      exact hindexed'.symm
    | acceptTx tx fCheckInputs fRateLimited =>
      obtain ⟨halong, hrun⟩ := ih hnext h
      exact ⟨⟨trivial, halong⟩, hrun⟩
    | invalidate io hash => cases h
    | reconsider io hash => cases h
    | removeTx tx => cases h

theorem isAuxPow_sampleChild (hashPrevBlock : uint256) (nTime : UInt32) (bytes : Bytes) (nValue : Int64) :
  (sampleChild hashPrevBlock nTime bytes nValue).isAuxPow = false
  := by
  change isAuxPowVersion CBlock.CURRENT_VERSION = false
  decide

theorem length_sampleCoinbase (byte : UInt8) (nValue : Int64) :
  (sampleCoinbase [1, byte] nValue).serialize.length = 63
  := by
  simp only [CTransaction.serialize, sampleCoinbase, serializeVector, List.flatMap_cons, List.flatMap_nil,
    CTxIn.serialize, CTxOut.serialize, serializeBytes, COutPoint.serialize, serializeInt, serializeUInt,
    serializeUint256, serializeInt64, writeCompactSize, List.length_append, List.length_cons, List.length_nil,
    length_toLE]
  rfl

theorem length_bytes_sampleChild
    (hashPrevBlock : uint256) (nTime : UInt32) (byte : UInt8) (nValue : Int64) (nType : UInt32) :
  ((sampleChild hashPrevBlock nTime [1, byte] nValue).bytes nType).length ≤ 300
  := by
  have hlength := @CBlock.length_bytes_le nType _ (isAuxPow_sampleChild hashPrevBlock nTime [1, byte] nValue)
  have hvtx : (sampleChild hashPrevBlock nTime [1, byte] nValue).vtx = [sampleCoinbase [1, byte] nValue] := rfl
  rw [hvtx, List.map_singleton, List.sum_singleton, length_sampleCoinbase] at hlength
  omega

/-- A block with one coinbase, as a message brings it. -/
def tallReceived (hashPrevBlock : uint256) (nTime : UInt32) (byte : UInt8) : ReceivedBlock where
  block := sampleChild hashPrevBlock nTime [1, byte] 1000000000
  fits := by
    have hmax : MAX_SIZE = 0x02000000 := rfl
    have hvtx : (sampleChild hashPrevBlock nTime [1, byte] 1000000000).vtx
        = [sampleCoinbase [1, byte] 1000000000] := rfl
    refine ⟨?_, ?_, fun _ hcontra => absurd hcontra (Option.not_mem_none _)⟩
    · rw [hvtx, hmax]
      exact Nat.le_of_ble_eq_true rfl
    · intro tx htx
      rw [hvtx, List.mem_singleton] at htx
      rw [htx]
      apply CTransaction.fits_of_length
      rw [length_sampleCoinbase, hmax]
      decide
  present := by
    rw [CBlock.AuxPowPresent, isAuxPow_sampleChild]
    rfl
  size_le := (length_bytes_sampleChild hashPrevBlock nTime byte 1000000000 SER_NETWORK).trans (by decide)

/-- Blocks on top of each other, from a height on. -/
def tallOps : ℕ → uint256 → ℕ → List Op
  | 0, _, _ => []
  | n + 1, hashPrevBlock, nHeight =>
    let received := tallReceived hashPrevBlock (UInt32.ofNat (1774996862 + 60 * nHeight)) (UInt8.ofNat nHeight)
    .accept sampleIo received :: tallOps n (received.block.getHash sampleEnv) (nHeight + 1)

/-- A transaction that spends the coinbase of the first of these blocks. -/
def tallSpend : CTransaction := sampleSpend ((sampleCoinbase [1, 1] 1000000000).getHash sampleCrypto) 500000000

/-- As many blocks as make the first coinbase mature, and a transaction that spends it. -/
def minedOps : List Op := tallOps 31 (hashGenesisBlock sampleEnv) 1 ++ [.acceptTx tallSpend true false]

/-! ### A block that is found -/

/-- Priorities as integers. -/
def sampleDoubles : Doubles where
  Double := ℤ
  zero := 0
  addInput dPriority nValueIn nConf := dPriority + nValueIn.toInt * nConf
  perByte dPriority nBytes := dPriority / nBytes.toNat
  before a b := decide (b < a)
  allowFree dPriority := decide (dPriority > 57600000)

/-- The block that is found on a template, with the first extra nonce and the clock a minute later. -/
def foundBlock (best : CBlockIndex) (template : CBlock) : Option CBlock :=
  (incrementExtraNonce sampleCrypto template ⟨0, 0⟩).1.updateTime .regtest best 1774999100

/-- The block that is found on top of the chain, and what was asked of it. -/
theorem eval_foundBlock :
  ((load sampleEnv sampleIo).bind (fun start => growAlong sampleEnv start minedOps)).any (fun node =>
    node.pindexBest.any (fun best =>
    (createNewBlock sampleEnv sampleDoubles node 1774999000 (.reservedKey [2, 3])).any (fun template =>
    (foundBlock best template).any (fun block =>
      decide (block.vtx.length = 2)
      && (node.mempool.txs.all (fun tx => decide (tx.serialize.length < 2 ^ 32)
        && !overwritesUnspent node.txdb.txIndex (tx.getHash sampleCrypto))
      && (block.vtx.head?.all (fun coinbase =>
        !overwritesUnspent node.txdb.txIndex (coinbase.getHash sampleCrypto)
          && (node.mempool.mapTx[coinbase.getHash sampleCrypto]?).isNone)
      && (template.vtx.head?.all (fun coinbase => coinbase.vout.all (fun txout => moneyRange txout.nValue))
      && (decide (best.getMedianTimePast < 2 ^ 32 - 1)
      && (decide (block.getBlockTime ≤ 1774999100 + LWMA_FUTURE_TIME_LIMIT)
      && (checkProofOfWork .regtest (block.toCPureBlockHeader.getPoWHash sampleCrypto) block.nBits
      && ((node.mapBlockIndex[block.getHash sampleEnv]?).isNone
      && (!node.fFailedChain best
      && (!node.setInvalidatedBlocks.contains (block.getHash sampleEnv)
      && (node.files.writeToDisk .regtest block).isSome))))))))))))) = true
  := by
  decide +kernel

/-- On top of a chain with a mature coinbase and a transaction of the pool that spends it, the block with the
transaction becomes the tip. -/
theorem foundBlock_accepted :
  ∃ start best template block, load sampleEnv sampleIo = some start
    ∧ createNewBlock sampleEnv sampleDoubles (Transition.run (step sampleEnv) start minedOps) 1774999000
      (.reservedKey [2, 3]) = some template
    ∧ foundBlock best template = some block ∧ block.vtx.length = 2
    ∧ ((Transition.run (step sampleEnv) start minedOps).acceptBlock sampleEnv (Io.smooth 1774999100)
      block).1.hashBestChain = block.getHash sampleEnv
  := by
  obtain ⟨node, hgrown, heval⟩ := (Option.any_eq_true _ _).mp eval_foundBlock
  obtain ⟨start, hload, hgrow⟩ := Option.bind_eq_some_iff.mp hgrown
  obtain ⟨best, hbest, heval⟩ := (Option.any_eq_true _ _).mp heval
  obtain ⟨template, htemplate, heval⟩ := (Option.any_eq_true _ _).mp heval
  obtain ⟨block, hfound, heval⟩ := (Option.any_eq_true _ _).mp heval
  simp only [Bool.and_eq_true] at heval
  obtain ⟨htwo, hpool, hcoinbase, hvalue, hmedian, hfuture, hwork, hnew, hbestOk, hblockOk, hspace⟩ := heval
  obtain ⟨halong, hrun⟩ := along_of_growAlong (indexed_run hload []) hgrow
  have hinj : Set.InjOn (CTransaction.getHash sampleEnv.crypto) {tx | ∃ op ∈ minedOps, tx ∈ op.txs} := by
    have hnodup : ((minedOps.flatMap Op.txs).map (CTransaction.getHash sampleCrypto)).Nodup := by decide +kernel
    rintro tx ⟨op, hop, htx⟩ tx' ⟨op', hop', htx'⟩ heq
    exact List.inj_on_of_nodup_map hnodup (List.mem_flatMap.mpr ⟨op, hop, htx⟩)
      (List.mem_flatMap.mpr ⟨op', hop', htx'⟩) heq
  have hworked : Worked sampleEnv best template [1774999100] block := (Worked.start ⟨0, 0⟩).time hfound
  have hpooled : ∀ tx ∈ node.mempool.txs, tx.serialize.length < 2 ^ 32
      ∧ overwritesUnspent node.txdb.txIndex (tx.getHash sampleCrypto) = false := by
    intro tx hmem
    have hall := List.all_eq_true.mp hpool tx hmem
    rw [Bool.and_eq_true, Bool.not_eq_true'] at hall
    exact ⟨of_decide_eq_true hall.1, hall.2⟩
  have hmining : MiningOk sampleEnv node best 1774999000 1774999100 (.reservedKey [2, 3]) [1774999100]
      template block := by
    constructor
    · change 2 ≤ 65
      decide
    · exact fun tx hmem => (hpooled tx hmem).1
    · exact fun tx hmem => (hpooled tx hmem).2
    · intro coinbase hhead
      have hall := (Option.all_eq_true _ _).mp hcoinbase coinbase hhead
      rw [Bool.and_eq_true, Bool.not_eq_true', Option.isNone_iff_eq_none] at hall
      exact hall
    · intro coinbase hhead
      exact List.all_eq_true.mp ((Option.all_eq_true _ _).mp hvalue coinbase hhead)
    · exact ⟨by decide, of_decide_eq_true hmedian⟩
    · intro t ht
      obtain rfl := List.mem_singleton.mp ht
      decide
    · exact of_decide_eq_true hfuture
    · exact hwork
    · exact Option.isNone_iff_eq_none.mp hnew
    · exact ⟨by simpa using hbestOk, by simpa using hblockOk⟩
    · exact Option.isSome_iff_ne_none.mp hspace
  rw [← hrun] at hbest htemplate hmining
  obtain ⟨-, -, -, htip⟩ := mined_block_accepted sampleEnv sampleIo start minedOps hload halong hinj sampleDoubles
    1774999000 1774999100 (.reservedKey [2, 3]) best [1774999100] template block hbest htemplate hworked hmining
  exact ⟨start, best, template, block, hload, htemplate, hfound, of_decide_eq_true htwo, htip⟩

end Node

end CorgiCoin
