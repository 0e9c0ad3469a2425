import CorgiCoin.Headers
import CorgiCoin.Mining
import CorgiCoin.CreateTransaction
import CorgiCoin.PoolRuns
import CorgiCoin.FeeRange
import CorgiCoin.SigOpBound

/-!
# Block templates

`CreateNewBlock` takes transactions from the memory pool in the order of their priority.  A transaction
with an input that is not on disk waits until every transaction it depends on has been taken.  Each
transaction is connected in a map of its own, and is taken when it connects there, pays the fee that is
demanded, and the block has room for it.
-/

namespace CorgiCoin

open Std

/-! ## Priorities -/

/-- The arithmetic on `double` that priorities are computed with. -/
structure Doubles where
  Double : Type
  zero : Double
  /-- `dPriority + static_cast<double>(nValueIn) * nConf` -/
  addInput : Double → Int64 → ℤ → Double
  /-- `dPriority / ::GetSerializeSize(tx)` -/
  perByte : Double → UInt32 → Double
  /-- `-a < -b`, the order of the keys of `mapPriority`. -/
  before : Double → Double → Bool
  /-- `CTransaction::AllowFree` -/
  allowFree : Double → Bool

/-- `CTransaction::ReadFromDisk` of the transaction an output belongs to, with its index entry. -/
def readPrevOut (disk : CDiskTxPos → Option CTransaction) (txIndex : TxIndexMap) (prevout : COutPoint) :
    Option (CTxIndex × CTxOut) := do
  let txindex ← txIndex[prevout.hash]?
  let txPrev ← disk txindex.pos
  let txout ← txPrev.vout[prevout.n.toNat]?
  return (txindex, txout)

/-- `CBlock::ReadFromDisk` without the transactions. -/
def BlockFiles.readHeader (env : Env) (files : BlockFiles) (nFile nBlockPos : UInt32) : Option CBlock := do
  let bytes ← files.openBlockFile nFile
  let result ← (CBlock.unserialize (SER_DISK ||| SER_BLOCKHEADERONLY)).run (bytes.drop nBlockPos.toNat)
  if checkAuxProofOfWork env result.1 result.1.nBits then some result.1 else none

/-- `CTxIndex::GetDepthInMainChain` -/
def CTxIndex.getDepthInMainChain (env : Env) (node : Node) (txindex : CTxIndex) : ℤ :=
  match node.files.readHeader env txindex.pos.nFile txindex.pos.nBlockPos with
  | none => 0
  | some block =>
    match node.mapBlockIndex[block.getHash env]? with
    | none => 0
    | some pindex => if !node.isInMainChain pindex then 0 else 1 + node.nBestHeight - pindex.nHeight

/-! ## Candidates -/

/-- A transaction that waits for others. -/
structure COrphan (Double : Type) where
  ptx : CTransaction
  setDependsOn : List uint256
  dPriority : Double

/-- The transactions that may be taken, and those that wait; `mapDependers` names the latter by their
place in `vOrphan`. -/
structure Candidates (Double : Type) where
  vOrphan : List (COrphan Double)
  mapDependers : ExtTreeMap uint256 (List ℕ) compare
  mapPriority : List (Double × CTransaction)

/-- What is known of a candidate after some of its inputs; `porphan` is null while it depends on nothing. -/
structure InputScan (Double : Type) where
  setDependsOn : List uint256
  mapDependers : ExtTreeMap uint256 (List ℕ) compare
  dPriority : Double

/-- `mapPriority.insert`: equal keys stay in the order in which they were inserted. -/
def insertPriority (doubles : Doubles) (dPriority : doubles.Double) (tx : CTransaction) :
    List (doubles.Double × CTransaction) → List (doubles.Double × CTransaction)
  | [] => [(dPriority, tx)]
  | item :: mapPriority =>
    if doubles.before dPriority item.1 then (dPriority, tx) :: item :: mapPriority
    else item :: insertPriority doubles dPriority tx mapPriority

section Template

variable (env : Env) (doubles : Doubles) (node : Node)

/-- One input of a candidate that has its place in `vOrphan`, should it have to wait. -/
def scanInput (nOrphan : ℕ) (scan : InputScan doubles.Double) (txin : CTxIn) : InputScan doubles.Double :=
  match readPrevOut node.files.readTx node.txdb.txIndex txin.prevout with
  | none =>
    { scan with
      mapDependers := scan.mapDependers.insert txin.prevout.hash
        (scan.mapDependers[txin.prevout.hash]?.getD [] ++ [nOrphan])
      setDependsOn := scan.setDependsOn.insert txin.prevout.hash }
  | some (txindex, txout) =>
    { scan with
      dPriority := doubles.addInput scan.dPriority txout.nValue (txindex.getDepthInMainChain env node) }

/-- The body of the loop over the memory pool. -/
def addCandidate (nAdjustedTime : ℤ) (candidates : Candidates doubles.Double) (tx : CTransaction) :
    Candidates doubles.Double :=
  if tx.isCoinBase || !tx.isFinal node.nBestHeight nAdjustedTime 0 0 then candidates
  else
    let scan := tx.vin.foldl (scanInput env doubles node candidates.vOrphan.length)
      ⟨[], candidates.mapDependers, doubles.zero⟩
    let dPriority := doubles.perByte scan.dPriority tx.getSerializeSize
    if scan.setDependsOn.isEmpty then
      { candidates with
        mapDependers := scan.mapDependers
        mapPriority := insertPriority doubles dPriority tx candidates.mapPriority }
    else
      { candidates with
        mapDependers := scan.mapDependers
        vOrphan := candidates.vOrphan ++ [⟨tx, scan.setDependsOn, dPriority⟩] }

/-- The transactions of the memory pool, by their hashes. -/
def CTxMemPool.txs (pool : CTxMemPool) : List CTransaction := pool.mapTx.toList.map Prod.snd

/-- The candidates of the memory pool. -/
def candidates (nAdjustedTime : ℤ) : Candidates doubles.Double :=
  node.mempool.txs.foldl (addCandidate env doubles node nAdjustedTime) ⟨[], ∅, []⟩

/-! ## Collecting -/

/-- A waiting transaction depends on one transaction less. -/
def releaseOrphan (hash : uint256) (candidates : Candidates doubles.Double) (i : ℕ) :
    Candidates doubles.Double :=
  match candidates.vOrphan[i]? with
  | none => candidates
  | some porphan =>
    if porphan.setDependsOn.isEmpty then candidates
    else
      let setDependsOn := porphan.setDependsOn.erase hash
      { candidates with
        vOrphan := candidates.vOrphan.set i { porphan with setDependsOn }
        mapPriority :=
          if setDependsOn.isEmpty then
            insertPriority doubles porphan.dPriority porphan.ptx candidates.mapPriority
          else candidates.mapPriority }

/-- The transactions that depend on one that was taken. -/
def releaseDependers (candidates : Candidates doubles.Double) (hash : uint256) : Candidates doubles.Double :=
  (candidates.mapDependers[hash]?.getD []).foldl (releaseOrphan doubles hash) candidates

/-- What the loop that collects carries; the transactions are those after the coinbase. -/
structure Template (Double : Type) extends Candidates Double where
  vtx : List CTransaction
  mapTestPool : TxIndexMap
  nBlockSize : UInt64
  nBlockSigOps : UInt32
  nFees : Int64

/-- The transaction is taken. -/
def Template.take (template : Template doubles.Double) (tx : CTransaction) (mapTestPoolTmp : TxIndexMap)
    (nTxSigOps : UInt32) (nTxFees : Int64) : Template doubles.Double :=
  let hash := tx.getHash env.crypto
  { releaseDependers doubles template.toCandidates hash with
    vtx := template.vtx ++ [tx]
    mapTestPool := mapTestPoolTmp.insert hash (CTxIndex.unspent CDiskTxPos.pool tx.vout.length)
    nBlockSize := template.nBlockSize + tx.getSerializeSize.toUInt64
    nBlockSigOps := template.nBlockSigOps + nTxSigOps
    nFees := template.nFees + nTxFees }

/-- The body of the loop that collects, the transaction being off the queue; `none` where the source
throws. -/
def considerTx (pindexPrev : CBlockIndex) (template : Template doubles.Double) (dPriority : doubles.Double)
    (tx : CTransaction) : Option (Template doubles.Double) :=
  let nTxSize := tx.getSerializeSize.toUInt64
  if template.nBlockSize + nTxSize ≥ MAX_BLOCK_SIZE_GEN.toUInt64 then some template
  else
    let nTxSigOps := tx.getLegacySigOpCount
    if template.nBlockSigOps + nTxSigOps ≥ MAX_BLOCK_SIGOPS then some template
    else
      let fAllowFree := decide (template.nBlockSize + nTxSize < 1500) || doubles.allowFree dPriority
      let nMinFee := tx.getMinFee template.nBlockSize.toUInt32 fAllowFree .block
      match tx.fetchInputs node.reader node.txdb.txIndex template.mapTestPool false true with
      | .error _ => some template
      | .ok mapInputs => do
        let nValueIn ← tx.getValueIn mapInputs
        let nValueOut ← tx.getValueOut
        let nTxFees := nValueIn - nValueOut
        if nTxFees < nMinFee then some template
        else
          let nP2SHSigOps ← tx.getP2SHSigOpCount mapInputs
          let nTxSigOps := nTxSigOps + nP2SHSigOps
          if template.nBlockSigOps + nTxSigOps ≥ MAX_BLOCK_SIGOPS then some template
          else
            match tx.connectInputs env mapInputs template.mapTestPool CDiskTxPos.pool pindexPrev false true
                true with
            | none => some template
            | some mapTestPoolTmp => some (template.take env doubles tx mapTestPoolTmp nTxSigOps nTxFees)

/-- The loop that collects.  The first argument bounds the number of rounds. -/
def collect (pindexPrev : CBlockIndex) : ℕ → Template doubles.Double → Option (Template doubles.Double)
  | 0, template => some template
  | n + 1, template =>
    match template.mapPriority with
    | [] => some template
    | (dPriority, tx) :: mapPriority =>
      (considerTx env doubles node pindexPrev { template with mapPriority } dPriority tx).bind
        (collect pindexPrev n)

/-- The loop starts with room for the header and the coinbase. -/
def startTemplate (nAdjustedTime : ℤ) : Template doubles.Double :=
  { candidates env doubles node nAdjustedTime with
    vtx := []
    mapTestPool := ∅
    nBlockSize := 1000
    nBlockSigOps := 100
    nFees := 0 }

/-- The transactions of the new block, every candidate being considered once at most. -/
def collectTransactions (pindexPrev : CBlockIndex) (nAdjustedTime : ℤ) :
    Option (Template doubles.Double) :=
  collect env doubles node pindexPrev node.mempool.txs.length (startTemplate env doubles node nAdjustedTime)

/-- The output script that a new block pays to: that of `-mineraddress`, or of a reserved key. -/
inductive MinerPayee where
  | minerAddr (dest : CTxDestination)
  | reservedKey (vchPubKey : Bytes)

/-- The script of the coinbase output. -/
def MinerPayee.scriptPubKey : MinerPayee → CScript
  | minerAddr dest => setDestination dest
  | reservedKey vchPubKey => pushData vchPubKey ++ [UInt8.ofNat OP_CHECKSIG]

/-- The coinbase of a new block. -/
def newCoinbase (payee : MinerPayee) (nValue : Int64) : CTransaction :=
  ⟨CTransaction.CURRENT_VERSION, [⟨COutPoint.null, [], 0xffffffff⟩], [⟨nValue, payee.scriptPubKey⟩], 0⟩

/-- `CreateNewBlock`; `none` where the source throws or stops at an assertion. -/
def createNewBlock (nAdjustedTime : ℤ) (payee : MinerPayee) : Option CBlock := do
  let pindexPrev ← node.pindexBest
  let template ← collectTransactions env doubles node pindexPrev nAdjustedTime
  let nValue := getBlockValue (pindexPrev.nHeight + 1) template.nFees pindexPrev.getBlockHash
  fillHeader env pindexPrev nAdjustedTime (newCoinbase payee nValue :: template.vtx)

end Template

/-! ## Each candidate is considered once -/

section Queue

variable {env : Env} {doubles : Doubles} {node : Node}

theorem insertPriority_perm
    (dPriority : doubles.Double) (tx : CTransaction) (mapPriority : List (doubles.Double × CTransaction)) :
  (insertPriority doubles dPriority tx mapPriority).Perm ((dPriority, tx) :: mapPriority)
  := by
  induction mapPriority with
  | nil => apply List.Perm.refl
  | cons item mapPriority ih =>
    rw [insertPriority]
    split_ifs
    · apply List.Perm.refl
    · apply (ih.cons item).trans
      apply List.Perm.swap

/-- The transaction waits. -/
def COrphan.waits {Double : Type} (porphan : COrphan Double) : Bool := !porphan.setDependsOn.isEmpty

/-- The transactions that are still to be considered, those that wait at the end. -/
def Candidates.live {Double : Type} (candidates : Candidates Double) : List CTransaction :=
  candidates.mapPriority.map Prod.snd ++ (candidates.vOrphan.filter COrphan.waits).map COrphan.ptx

/-- A waiting transaction goes to the queue or goes on waiting. -/
theorem live_releaseOrphan
    (candidates : Candidates doubles.Double) (hash : uint256) (i : ℕ) :
  (releaseOrphan doubles hash candidates i).live.Perm candidates.live
  := by
  obtain ⟨vOrphan, mapDependers, mapPriority⟩ := candidates
  rw [releaseOrphan]
  cases hget : vOrphan[i]? with
  | none => apply List.Perm.refl
  | some porphan =>
    simp only
    split_ifs with hwaits hfree
    · apply List.Perm.refl
    all_goals
      obtain ⟨hlt, hat⟩ := List.getElem?_eq_some_iff.mp hget
      have hset : vOrphan.set i { porphan with setDependsOn := porphan.setDependsOn.erase hash }
          = if i < vOrphan.length then vOrphan.take i ++ { porphan with
              setDependsOn := porphan.setDependsOn.erase hash } :: vOrphan.drop (i + 1)
            else vOrphan := List.set_eq_take_append_cons_drop
      have hsplit : vOrphan = vOrphan.take i ++ porphan :: vOrphan.drop (i + 1) := by
        rw [← hat, List.cons_getElem_drop_succ, List.take_append_drop]
      rw [if_pos hlt] at hset
      have hporphan : porphan.waits = true := by
        rw [COrphan.waits]
        simpa using hwaits
    · -- nothing is left that it depends on
      have hafter : COrphan.waits { porphan with setDependsOn := porphan.setDependsOn.erase hash } = false := by
        rw [COrphan.waits, hfree]
        rfl
      simp only [Candidates.live, hset]
      conv_rhs => rw [hsplit]
      simp only [List.filter_append, List.filter_cons, hporphan, hafter, Bool.false_eq_true, if_true, if_false,
        List.map_append, List.map_cons]
      apply ((insertPriority_perm porphan.dPriority porphan.ptx mapPriority).map Prod.snd).append_right _ |>.trans
      rw [List.map_cons, List.cons_append, ← List.append_assoc, ← List.append_assoc]
      apply List.perm_middle.symm
    · have hafter : COrphan.waits { porphan with setDependsOn := porphan.setDependsOn.erase hash } = true := by
        rw [COrphan.waits]
        simpa using hfree
      simp only [Candidates.live, hset]
      conv_rhs => rw [hsplit]
      simp only [List.filter_append, List.filter_cons, hporphan, hafter, if_true, List.map_append, List.map_cons]
      apply List.Perm.refl

theorem live_releaseDependers (candidates : Candidates doubles.Double) (hash : uint256) :
  (releaseDependers doubles candidates hash).live.Perm candidates.live
  := by
  rw [releaseDependers]
  generalize candidates.mapDependers[hash]?.getD [] = dependers
  induction dependers generalizing candidates with
  | nil => apply List.Perm.refl
  | cons i dependers ih => apply (ih _).trans (live_releaseOrphan candidates hash i)

/-- A transaction of the memory pool that may go into a block. -/
def IsCandidate (node : Node) (nAdjustedTime : ℤ) (tx : CTransaction) : Bool :=
  !(tx.isCoinBase || !tx.isFinal node.nBestHeight nAdjustedTime 0 0)

theorem live_addCandidate
    (nAdjustedTime : ℤ) (candidates : Candidates doubles.Double) (tx : CTransaction) :
  (addCandidate env doubles node nAdjustedTime candidates tx).live.Perm
    (if IsCandidate node nAdjustedTime tx then tx :: candidates.live else candidates.live)
  := by
  rw [addCandidate, IsCandidate]
  cases tx.isCoinBase || !tx.isFinal node.nBestHeight nAdjustedTime 0 0 with
  | true => apply List.Perm.refl
  | false =>
    simp only [Bool.false_eq_true, if_false, Bool.not_false, if_true]
    split_ifs with hfree
    · apply ((insertPriority_perm _ tx candidates.mapPriority).map Prod.snd).append_right
    · have hwaits : COrphan.waits ⟨tx, (tx.vin.foldl (scanInput env doubles node candidates.vOrphan.length)
          ⟨[], candidates.mapDependers, doubles.zero⟩).setDependsOn, doubles.perByte
          (tx.vin.foldl (scanInput env doubles node candidates.vOrphan.length)
          ⟨[], candidates.mapDependers, doubles.zero⟩).dPriority tx.getSerializeSize⟩ = true := by
        rw [COrphan.waits]
        simpa using hfree
      simp only [Candidates.live, List.filter_append, List.filter_cons, hwaits, if_true, List.filter_nil,
        List.map_append, List.map_cons, List.map_nil, ← List.append_assoc]
      apply List.perm_append_singleton

theorem live_candidates (nAdjustedTime : ℤ) :
  (candidates env doubles node nAdjustedTime).live.Perm
    (node.mempool.txs.filter (IsCandidate node nAdjustedTime))
  := by
  have hfold : ∀ (txs : List CTransaction) (candidates : Candidates doubles.Double),
      (txs.foldl (addCandidate env doubles node nAdjustedTime) candidates).live.Perm
        (txs.filter (IsCandidate node nAdjustedTime) ++ candidates.live) := by
    intro txs
    induction txs with
    | nil => exact fun _ => List.Perm.refl _
    | cons tx txs ih =>
      intro candidates
      apply (ih _).trans
      have hstep := @live_addCandidate env doubles node nAdjustedTime candidates tx
      rw [List.filter_cons]
      split_ifs at hstep ⊢
      · apply (hstep.append_left _).trans
        apply List.perm_middle
      · apply hstep.append_left
  have h := hfold node.mempool.txs ⟨[], ∅, []⟩
  simp only [Candidates.live, List.map_nil, List.filter_nil, List.append_nil] at h
  apply h

end Queue

/-! ## Signature operations -/

theorem toNat_sigOpsOf_le_twenty (fAccurate : Bool) (lastOpcode opcode : ℕ) :
  (sigOpsOf fAccurate lastOpcode opcode).toNat ≤ 20
  := by
  rw [sigOpsOf]
  split_ifs with hsingle hmulti hkeys
  · decide
  · have hle : decodeOP_N lastOpcode ≤ 16 := by
      simp only [decodeOP_N, OP_1, OP_16] at hkeys ⊢
      omega
    rw [UInt32.toNat_ofNat']
    omega
  · decide
  · decide

theorem toNat_getSigOpCount_le (fAccurate : Bool) (script : CScript) :
  (getSigOpCount fAccurate script).toNat ≤ 20 * script.length
  := by
  have hops : ∀ (ops : List (ℕ × Bytes)) (lastOpcode : ℕ),
      (countSigOps fAccurate lastOpcode ops).toNat ≤ 20 * ops.length := by
    intro ops
    induction ops with
    | nil => exact fun _ => Nat.zero_le _
    | cons op ops ih =>
      intro lastOpcode
      have hop := toNat_sigOpsOf_le_twenty fAccurate lastOpcode op.1
      have hrest := ih op.1
      rw [countSigOps, UInt32.toNat_add, List.length_cons]
      omega
  have hparse := length_parse_le script.length script
  have hcount := hops (instructions script).1 OP_INVALIDOPCODE
  rw [instructions] at hcount
  rw [getSigOpCount, instructions]
  omega

/-- The bytes of the scripts of a transaction. -/
def CTransaction.scriptBytes (tx : CTransaction) : ℕ :=
  (tx.vin.map (fun txin => txin.scriptSig.length)).sum
    + (tx.vout.map (fun txout => txout.scriptPubKey.length)).sum

theorem scriptBytes_le (tx : CTransaction) : tx.scriptBytes ≤ tx.serialize.length
  := by
  have hin : ∀ vin : List CTxIn,
      (vin.map (fun txin => txin.scriptSig.length)).sum ≤ (vin.flatMap CTxIn.serialize).length := by
    intro vin
    induction vin with
    | nil => rfl
    | cons txin vin ih =>
      rw [List.map_cons, List.sum_cons, List.flatMap_cons, List.length_append, CTxIn.serialize, serializeBytes]
      simp only [List.length_append]
      omega
  have hout : ∀ vout : List CTxOut,
      (vout.map (fun txout => txout.scriptPubKey.length)).sum ≤ (vout.flatMap CTxOut.serialize).length := by
    intro vout
    induction vout with
    | nil => rfl
    | cons txout vout ih =>
      rw [List.map_cons, List.sum_cons, List.flatMap_cons, List.length_append, CTxOut.serialize, serializeBytes]
      simp only [List.length_append]
      omega
  have hvin := hin tx.vin
  have hvout := hout tx.vout
  rw [CTransaction.scriptBytes, CTransaction.serialize, serializeVector, serializeVector]
  simp only [List.length_append]
  omega

theorem toNat_getLegacySigOpCount_le (tx : CTransaction) :
  tx.getLegacySigOpCount.toNat ≤ 20 * tx.serialize.length
  := by
  have hbytes := scriptBytes_le tx
  have hsum : ∀ {α : Type} (f : α → CScript) (l : List α),
      (l.map (fun x => getSigOpCount false (f x))).sum.toNat ≤ 20 * (l.map (fun x => (f x).length)).sum := by
    intro α f l
    induction l with
    | nil => rfl
    | cons x l ih =>
      have hx := toNat_getSigOpCount_le false (f x)
      rw [List.map_cons, List.sum_cons, List.map_cons, List.sum_cons, UInt32.toNat_add]
      omega
  have hin := hsum CTxIn.scriptSig tx.vin
  have hout := hsum CTxOut.scriptPubKey tx.vout
  rw [CTransaction.getLegacySigOpCount, UInt32.toNat_add]
  rw [CTransaction.scriptBytes] at hbytes
  omega

/-- The operations of an input that spends a pay-to-script-hash output of an index. -/
def p2shSigOpsOf (reader : TxReader) (index : TxIndexMap) (txin : CTxIn) : UInt32 :=
  match (prevOf reader index txin.prevout.hash).bind (fun prev => prev.2.vout[txin.prevout.n.toNat]?) with
  | none => 0
  | some prevout =>
    if isPayToScriptHash prevout.scriptPubKey then getSigOpCountFor prevout.scriptPubKey txin.scriptSig
    else 0

/-- The operations of the pay-to-script-hash inputs of a transaction, over an index. -/
def p2shSigOps (reader : TxReader) (index : TxIndexMap) (tx : CTransaction) : UInt32 :=
  (tx.vin.map (p2shSigOpsOf reader index)).sum

theorem length_data_le
    {script : CScript} {op : ℕ × Bytes} (h : op ∈ (instructions script).1) :
  op.2.length ≤ script.length
  := by
  have hget : ∀ {script : CScript} {opcode : ℕ} {vch pc : Bytes}, getOp script = some (opcode, vch, pc) →
      vch.length ≤ script.length ∧ pc.length ≤ script.length := by
    intro script opcode vch pc h
    cases script with
    | nil => cases h
    | cons b rest =>
      rw [getOp] at h
      dsimp only at h
      split_ifs at h
      all_goals
        simp only [Option.some.injEq, Prod.mk.injEq] at h
        obtain ⟨-, rfl, rfl⟩ := h
        simp only [List.length_cons, List.length_nil, List.length_take, List.length_drop]
        omega
  have hparse : ∀ (n : ℕ) (script : CScript), op ∈ (parse n script).1 → op.2.length ≤ script.length := by
    intro n
    induction n with
    | zero => exact fun _ hmem => absurd hmem List.not_mem_nil
    | succ n ih =>
      intro script hmem
      rw [parse] at hmem
      split_ifs at hmem
      · cases hmem
      · cases hop : getOp script with
        | none =>
          rw [hop] at hmem
          cases hmem
        | some found =>
          obtain ⟨opcode, vch, pc⟩ := found
          rw [hop] at hmem
          obtain ⟨hvch, hpc⟩ := hget hop
          rcases List.mem_cons.mp hmem with rfl | hmem
          · exact hvch
          · exact (ih pc hmem).trans hpc
  apply hparse _ _ h

theorem toNat_getSigOpCountFor_le
    {scriptPubKey : CScript} (h : isPayToScriptHash scriptPubKey = true) (scriptSig : CScript) :
  (getSigOpCountFor scriptPubKey scriptSig).toNat ≤ 20 * scriptSig.length
  := by
  rw [getSigOpCountFor, h]
  simp only [Bool.not_true, Bool.false_eq_true, if_false]
  split_ifs
  · apply Nat.zero_le
  · apply (toNat_getSigOpCount_le _ _).trans
    cases hlast : (instructions scriptSig).1.getLast? with
    | none => apply Nat.zero_le
    | some op =>
      have hmem := length_data_le (List.mem_of_getLast? hlast)
      simp only [Option.map_some, Option.getD_some]
      omega

theorem toNat_p2shSigOps_le (reader : TxReader) (index : TxIndexMap) (tx : CTransaction) :
  (p2shSigOps reader index tx).toNat ≤ 20 * tx.serialize.length
  := by
  have hbytes := scriptBytes_le tx
  rw [CTransaction.scriptBytes] at hbytes
  have hsum : ∀ vin : List CTxIn, (vin.map (p2shSigOpsOf reader index)).sum.toNat
      ≤ 20 * (vin.map (fun txin => txin.scriptSig.length)).sum := by
    intro vin
    induction vin with
    | nil => rfl
    | cons txin vin ih =>
      rw [List.map_cons, List.sum_cons, List.map_cons, List.sum_cons, UInt32.toNat_add, p2shSigOpsOf]
      cases (prevOf reader index txin.prevout.hash).bind (fun prev => prev.2.vout[txin.prevout.n.toNat]?) with
      | none =>
        have hzero : (0 : UInt32).toNat = 0 := rfl
        simp only
        omega
      | some prevout =>
        simp only
        split_ifs with hscript
        · have hfor := toNat_getSigOpCountFor_le hscript txin.scriptSig
          omega
        · have hzero : (0 : UInt32).toNat = 0 := rfl
          omega
  have hvin := hsum tx.vin
  rw [p2shSigOps]
  omega

/-- What is counted over fetched inputs is what is counted over the overlay. -/
theorem getP2SHSigOpCount_eq
    {reader : TxReader} {txIndex mapTestPool : TxIndexMap} {fBlock fMiner : Bool}
    (hmode : (fBlock || fMiner) = true) {tx : CTransaction} (hcoinbase : tx.isCoinBase = false)
    {inputs : MapPrevTx} (h : tx.fetchInputs reader txIndex mapTestPool fBlock fMiner = .ok inputs) :
  tx.getP2SHSigOpCount inputs = some (p2shSigOps reader (TreeMap.overlay txIndex mapTestPool) tx)
  := by
  obtain ⟨hfound, hinputs⟩ := fetchInputs_eq_ok hmode hcoinbase h
  have hfold : ∀ (vin : List CTxIn) (nSigOps : UInt32), (∀ txin ∈ vin, txin ∈ tx.vin) →
      vin.foldlM (fun nSigOps txin =>
        (getOutputFor inputs txin).map (fun prevout =>
          if isPayToScriptHash prevout.scriptPubKey then
            nSigOps + getSigOpCountFor prevout.scriptPubKey txin.scriptSig
          else nSigOps)) nSigOps
        = some (nSigOps
          + (vin.map (p2shSigOpsOf reader (TreeMap.overlay txIndex mapTestPool))).sum) := by
    intro vin
    induction vin with
    | nil =>
      intro nSigOps _
      rw [List.map_nil, List.sum_nil, UInt32.add_zero]
      rfl
    | cons txin vin ih =>
      intro nSigOps hvin
      obtain ⟨htxin, hvin⟩ := List.forall_mem_cons.mp hvin
      obtain ⟨prev, hprev, hlt, _⟩ := hfound txin htxin
      have hout : prev.2.vout[txin.prevout.n.toNat]? = some prev.2.vout[txin.prevout.n.toNat] :=
        List.getElem?_eq_getElem hlt
      rw [List.foldlM_cons, getOutputFor, hinputs txin htxin, hprev, Option.bind_some, hout, Option.map_some,
        Option.bind_eq_bind, Option.bind_some, ih _ hvin, List.map_cons, List.sum_cons, p2shSigOpsOf, hprev,
        Option.bind_some, hout]
      simp only
      split_ifs
      · rw [UInt32.add_assoc]
      · rw [UInt32.zero_add]
  rw [CTransaction.getP2SHSigOpCount, hcoinbase]
  simp only [Bool.false_eq_true, if_false]
  rw [hfold tx.vin 0 (fun _ hmem => hmem), UInt32.zero_add, p2shSigOps]

/-! ## The loop that collects -/

section Collect

variable {env : Env} {reader : TxReader} {fStrict : Bool} {pindex : CBlockIndex}

theorem txsConnect_concat
    {index : TxIndexMap} {placed : List (CDiskTxPos × CTransaction)} {p : CDiskTxPos × CTransaction} :
  TxsConnect env reader fStrict pindex index (placed ++ [p])
    ↔ TxsConnect env reader fStrict pindex index placed
      ∧ (p.2.isCoinBase = false → ∃ nValueIn nValueOut,
        TxConnects env reader fStrict pindex (placed.foldl (addTx env) index) p.2 nValueIn nValueOut)
  := by
  induction placed generalizing index with
  | nil =>
    simp only [List.nil_append, TxsConnect, List.foldl_nil, true_and, and_true]
  | cons q placed ih => rw [List.cons_append, TxsConnect, TxsConnect, ih, List.foldl_cons, and_assoc]

theorem totalFees_concat
    (index : TxIndexMap) (placed : List (CDiskTxPos × CTransaction)) (p : CDiskTxPos × CTransaction) :
  totalFees env reader index (placed ++ [p])
    = totalFees env reader index placed + txFee reader (placed.foldl (addTx env) index) p.2
  := by
  induction placed generalizing index with
  | nil => simp [totalFees]
  | cons q placed ih => rw [List.cons_append, totalFees, totalFees, ih, List.foldl_cons, add_assoc]

/-- The signature operations of transactions, each counted in the index the ones before it left. -/
def totalSigOps (env : Env) (reader : TxReader) : TxIndexMap → List (CDiskTxPos × CTransaction) → ℕ
  | _, [] => 0
  | index, p :: placed =>
    (p.2.getLegacySigOpCount.toNat + (p2shSigOps reader index p.2).toNat)
      + totalSigOps env reader (addTx env index p) placed

theorem totalSigOps_concat
    (index : TxIndexMap) (placed : List (CDiskTxPos × CTransaction)) (p : CDiskTxPos × CTransaction) :
  totalSigOps env reader index (placed ++ [p])
    = totalSigOps env reader index placed + (p.2.getLegacySigOpCount.toNat
      + (p2shSigOps reader (placed.foldl (addTx env) index) p.2).toNat)
  := by
  induction placed generalizing index with
  | nil => simp [totalSigOps]
  | cons q placed ih =>
    rw [List.cons_append, totalSigOps, totalSigOps, ih, List.foldl_cons]
    omega

end Collect

/-- Transactions at the position that stands for the memory pool. -/
def atPool (vtx : List CTransaction) : List (CDiskTxPos × CTransaction) :=
  vtx.map (fun tx => (CDiskTxPos.pool, tx))

/-- The transactions of the pool are of sizes that 32 bits hold. -/
def CTxMemPool.Sized (pool : CTxMemPool) : Prop := ∀ tx ∈ pool.txs, tx.serialize.length < 2 ^ 32

section Built

variable (env : Env) (doubles : Doubles) (node : Node) (pindexPrev : CBlockIndex) (nAdjustedTime : ℤ)

/-- What is known of a template at any time of the loop. -/
structure Template.Built (template : Template doubles.Double) : Prop where
  effect : TreeMap.overlay node.txdb.txIndex template.mapTestPool
    = (atPool template.vtx).foldl (addTx env) node.txdb.txIndex
  connects : TxsConnect env node.reader true pindexPrev node.txdb.txIndex (atPool template.vtx)
  nFees : template.nFees
    = Int64.ofInt (totalFees env node.reader node.txdb.txIndex (atPool template.vtx))
  size : template.nBlockSize.toNat = 1000 + (template.vtx.map (fun tx => tx.serialize.length)).sum
    ∧ template.nBlockSize.toNat < 500000
  sigOps : template.nBlockSigOps.toNat
      = 100 + totalSigOps env node.reader node.txdb.txIndex (atPool template.vtx)
    ∧ template.nBlockSigOps.toNat < 20000
  queue : (template.vtx ++ template.live).Subperm
    (node.mempool.txs.filter (IsCandidate node nAdjustedTime))

/-- What is checked of a transaction that is taken. -/
structure Template.Takes (template : Template doubles.Double) (tx : CTransaction) (mapInputs : MapPrevTx)
    (mapTestPoolTmp : TxIndexMap) (nP2SHSigOps : UInt32) : Prop where
  room : template.nBlockSize + tx.getSerializeSize.toUInt64 < MAX_BLOCK_SIZE_GEN.toUInt64
  sigOps : template.nBlockSigOps + (tx.getLegacySigOpCount + nP2SHSigOps) < MAX_BLOCK_SIGOPS
  fetched : tx.fetchInputs node.reader node.txdb.txIndex template.mapTestPool false true = .ok mapInputs
  p2sh : tx.getP2SHSigOpCount mapInputs = some nP2SHSigOps
  connected : tx.connectInputs env mapInputs template.mapTestPool CDiskTxPos.pool pindexPrev false true true
    = some mapTestPoolTmp

variable {env doubles node pindexPrev nAdjustedTime} {template template' : Template doubles.Double}

theorem built_startTemplate :
  (startTemplate env doubles node nAdjustedTime).Built env doubles node pindexPrev nAdjustedTime
  := by
  have hsize : (startTemplate env doubles node nAdjustedTime).nBlockSize = 1000 := rfl
  have hsigops : (startTemplate env doubles node nAdjustedTime).nBlockSigOps = 100 := rfl
  constructor
  · apply TreeMap.overlay_empty
  · trivial
  · rfl
  · rw [hsize]
    exact ⟨rfl, by decide⟩
  · rw [hsigops]
    exact ⟨rfl, by decide⟩
  · apply (live_candidates nAdjustedTime).subperm

variable {dPriority : doubles.Double} {tx : CTransaction}

/-- A transaction is passed over, or taken after its checks. -/
theorem considerTx_eq_some
    (h : considerTx env doubles node pindexPrev template dPriority tx = some template') :
  template' = template ∨ ∃ mapInputs mapTestPoolTmp nP2SHSigOps nValueIn nValueOut,
    template.Takes env doubles node pindexPrev tx mapInputs mapTestPoolTmp nP2SHSigOps
    ∧ tx.getValueIn mapInputs = some nValueIn ∧ tx.getValueOut = some nValueOut
    ∧ template' = template.take env doubles tx mapTestPoolTmp (tx.getLegacySigOpCount + nP2SHSigOps)
      (nValueIn - nValueOut)
  := by
  rw [considerTx] at h
  simp only [Option.bind_eq_bind] at h
  split_ifs at h with hroom hlegacy
  · exact .inl (Option.some.inj h).symm
  · exact .inl (Option.some.inj h).symm
  · split at h
    · exact .inl (Option.some.inj h).symm
    · rename_i mapInputs hfetch
      obtain ⟨nValueIn, hin, h⟩ := Option.bind_eq_some_iff.mp h
      obtain ⟨nValueOut, hout, h⟩ := Option.bind_eq_some_iff.mp h
      split_ifs at h with hfee
      · exact .inl (Option.some.inj h).symm
      · obtain ⟨nP2SHSigOps, hp2sh, h⟩ := Option.bind_eq_some_iff.mp h
        split_ifs at h with hsigops
        · exact .inl (Option.some.inj h).symm
        · split at h
          · exact .inl (Option.some.inj h).symm
          · rename_i mapTestPoolTmp hconnect
            right
            exact ⟨mapInputs, mapTestPoolTmp, nP2SHSigOps, nValueIn, nValueOut,
              ⟨UInt64.not_le.mp hroom, UInt32.not_le.mp hsigops, hfetch, hp2sh, hconnect⟩, hin, hout,
              (Option.some.inj h).symm⟩

theorem Template.Takes.size
    {mapInputs : MapPrevTx} {mapTestPoolTmp : TxIndexMap} {nP2SHSigOps : UInt32}
    (h : template.Takes env doubles node pindexPrev tx mapInputs mapTestPoolTmp nP2SHSigOps)
    (hblock : template.nBlockSize.toNat < 500000) (hsize : tx.serialize.length < 2 ^ 32) :
  (template.nBlockSize + tx.getSerializeSize.toUInt64).toNat
      = template.nBlockSize.toNat + tx.serialize.length
    ∧ template.nBlockSize.toNat + tx.serialize.length < 500000
  := by
  have hroom := h.room
  have hmax : MAX_BLOCK_SIZE_GEN.toUInt64.toNat = 500000 := by decide
  rw [UInt64.lt_iff_toNat_lt, hmax, UInt64.toNat_add, UInt32.toNat_toUInt64,
    CTransaction.toNat_getSerializeSize hsize] at hroom
  rw [UInt64.toNat_add, UInt32.toNat_toUInt64, CTransaction.toNat_getSerializeSize hsize]
  omega

variable {txs : Set CTransaction} {mapPriority : List (doubles.Double × CTransaction)}

/-- Taking a transaction. -/
theorem Template.Built.take
    (hvalid : node.mempool.Valid env txs) (hsized : node.mempool.Sized)
    (h : template.Built env doubles node pindexPrev nAdjustedTime)
    (hhead : template.mapPriority = (dPriority, tx) :: mapPriority)
    {mapInputs : MapPrevTx} {mapTestPoolTmp : TxIndexMap} {nP2SHSigOps : UInt32} {nValueIn nValueOut : Int64}
    (htakes : Template.Takes env doubles node pindexPrev { template with mapPriority } tx mapInputs
      mapTestPoolTmp nP2SHSigOps)
    (hin : tx.getValueIn mapInputs = some nValueIn) (hout : tx.getValueOut = some nValueOut) :
  (Template.take env doubles { template with mapPriority } tx mapTestPoolTmp
    (tx.getLegacySigOpCount + nP2SHSigOps) (nValueIn - nValueOut)).Built env doubles node pindexPrev
      nAdjustedTime
  := by
  have hlive : template.live = tx :: Candidates.live { template.toCandidates with mapPriority } := by
    rw [Candidates.live, hhead]
    rfl
  have hmem : tx ∈ node.mempool.txs := by
    apply List.mem_of_mem_filter
    apply h.queue.subset
    rw [hlive]
    exact List.mem_append_right _ List.mem_cons_self
  obtain ⟨⟨hash, tx'⟩, hitem, rfl⟩ := List.mem_map.mp hmem
  rw [ExtTreeMap.mem_toList_iff_getElem?_eq_some] at hitem
  obtain ⟨hcheck, hcoinbase⟩ := hvalid.checked hash tx' hitem
  have hchecked := CTransaction.checked_of_checkTransaction hcheck
  obtain ⟨nValueIn', nValueOut', hconnects, hin', hoverlay⟩ :=
    connectInputs_eq_some rfl hcoinbase hchecked.nodup htakes.fetched htakes.connected
  obtain rfl : nValueIn' = nValueIn := Option.some.inj (hin'.symm.trans hin)
  obtain rfl : nValueOut' = nValueOut := Option.some.inj (hconnects.getValueOut.symm.trans hout)
  have hp2sh := htakes.p2sh
  rw [getP2SHSigOpCount_eq rfl hcoinbase htakes.fetched] at hp2sh
  have heffect := h.effect
  simp only at hconnects hoverlay hp2sh
  rw [heffect] at hconnects hoverlay hp2sh
  obtain rfl := Option.some.inj hp2sh
  have hfits := htakes.size h.size.2 (hsized tx' hmem)
  simp only at hfits
  obtain ⟨hnat, hlt⟩ := hfits
  have hatPool : atPool (template.vtx ++ [tx']) = atPool template.vtx ++ [(CDiskTxPos.pool, tx')] := by
    rw [atPool, List.map_append]
    rfl
  constructor
  · simp only [Template.take, hatPool, List.foldl_append, List.foldl_cons, List.foldl_nil]
    rw [TreeMap.overlay_insert, hoverlay, addTx, CTransaction.prevouts, hcoinbase]
    rfl
  · simp only [Template.take, hatPool]
    rw [txsConnect_concat]
    exact ⟨h.connects, fun _ => ⟨_, _, hconnects⟩⟩
  · simp only [Template.take, hatPool]
    rw [totalFees_concat, Int64.ofInt_add, ← h.nFees, ← (hconnects.toInt_fee hcoinbase).1, Int64.ofInt_toInt]
  · simp only [Template.take, List.map_append, List.sum_append, List.map_cons, List.map_nil, List.sum_cons,
      List.sum_nil]
    have hsize := h.size.1
    omega
  · have hlegacy := toNat_getLegacySigOpCount_le tx'
    have hredeem := toNat_p2shSigOps_le node.reader
      ((atPool template.vtx).foldl (addTx env) node.txdb.txIndex) tx'
    have hsum := h.sigOps
    have hlimit := htakes.sigOps
    have hmax : MAX_BLOCK_SIGOPS.toNat = 20000 := by decide
    simp only [Template.take, hatPool]
    rw [totalSigOps_concat]
    rw [UInt32.lt_iff_toNat_lt, hmax] at hlimit
    simp only [UInt32.toNat_add] at hlimit ⊢
    omega
  · simp only [Template.take]
    have hperm := live_releaseDependers { template.toCandidates with mapPriority } (tx'.getHash env.crypto)
    apply List.Subperm.trans _ h.queue
    rw [hlive, List.append_assoc, List.singleton_append]
    apply ((hperm.cons tx').append_left template.vtx).subperm

theorem Template.Built.step
    (hvalid : node.mempool.Valid env txs) (hsized : node.mempool.Sized)
    (h : template.Built env doubles node pindexPrev nAdjustedTime)
    (hhead : template.mapPriority = (dPriority, tx) :: mapPriority)
    (hstep : considerTx env doubles node pindexPrev { template with mapPriority } dPriority tx
      = some template') :
  template'.Built env doubles node pindexPrev nAdjustedTime
  := by
  rcases considerTx_eq_some hstep with rfl | ⟨_, _, _, _, _, htakes, hin, hout, rfl⟩
  · refine ⟨h.effect, h.connects, h.nFees, h.size, h.sigOps, ?_⟩
    apply List.Subperm.trans _ h.queue
    rw [Candidates.live, Candidates.live, hhead]
    apply List.Sublist.subperm
    apply List.Sublist.append_left
    apply List.Sublist.append_right
    apply List.sublist_cons_self
  · apply h.take hvalid hsized hhead htakes hin hout

theorem Template.Built.collect
    (hvalid : node.mempool.Valid env txs) (hsized : node.mempool.Sized)
    {n : ℕ} (h : template.Built env doubles node pindexPrev nAdjustedTime)
    (hcollect : collect env doubles node pindexPrev n template = some template') :
  template'.Built env doubles node pindexPrev nAdjustedTime
  := by
  induction n generalizing template with
  | zero =>
    obtain rfl := Option.some.inj hcollect
    exact h
  | succ n ih =>
    rw [CorgiCoin.collect] at hcollect
    split at hcollect
    · obtain rfl := Option.some.inj hcollect
      exact h
    · rename_i dPriority tx mapPriority hhead
      obtain ⟨mid, hstep, hrest⟩ := Option.bind_eq_some_iff.mp hcollect
      apply ih (h.step hvalid hsized hhead hstep) hrest

/-! ### The loop ends -/

/-- Fetched inputs name outputs that are there. -/
theorem isSome_getOutputFor
    {reader : TxReader} {txIndex mapTestPool : TxIndexMap} {fBlock fMiner : Bool}
    (hmode : (fBlock || fMiner) = true) (hcoinbase : tx.isCoinBase = false)
    {inputs : MapPrevTx} (h : tx.fetchInputs reader txIndex mapTestPool fBlock fMiner = .ok inputs)
    {txin : CTxIn} (hmem : txin ∈ tx.vin) :
  ∃ txout, getOutputFor inputs txin = some txout
  := by
  obtain ⟨hfound, hinputs⟩ := fetchInputs_eq_ok hmode hcoinbase h
  obtain ⟨prev, hprev, hlt, _⟩ := hfound txin hmem
  use prev.2.vout[txin.prevout.n.toNat]
  rw [getOutputFor, hinputs txin hmem, hprev, Option.bind_some, List.getElem?_eq_getElem hlt]

theorem exists_getValueIn
    {reader : TxReader} {txIndex mapTestPool : TxIndexMap} {fBlock fMiner : Bool}
    (hmode : (fBlock || fMiner) = true) (hcoinbase : tx.isCoinBase = false)
    {inputs : MapPrevTx} (h : tx.fetchInputs reader txIndex mapTestPool fBlock fMiner = .ok inputs) :
  ∃ nValueIn, tx.getValueIn inputs = some nValueIn
  := by
  have hfold : ∀ (vin : List CTxIn) (nResult : Int64), (∀ txin ∈ vin, txin ∈ tx.vin) →
      ∃ nValueIn, vin.foldlM (fun nResult txin =>
        (getOutputFor inputs txin).map (fun txout => nResult + txout.nValue)) nResult = some nValueIn := by
    intro vin
    induction vin with
    | nil => exact fun nResult _ => ⟨nResult, rfl⟩
    | cons txin vin ih =>
      intro nResult hvin
      obtain ⟨htxin, hvin⟩ := List.forall_mem_cons.mp hvin
      obtain ⟨txout, hout⟩ := isSome_getOutputFor hmode hcoinbase h htxin
      rw [List.foldlM_cons, hout]
      apply ih _ hvin
  rw [CTransaction.getValueIn, hcoinbase]
  apply hfold tx.vin 0 (fun _ hmem => hmem)

/-- A transaction of the pool is considered without an exception. -/
theorem exists_considerTx
    (hvalid : node.mempool.Valid env txs) (pindexPrev : CBlockIndex)
    (template : Template doubles.Double) (dPriority : doubles.Double) (hmem : tx ∈ node.mempool.txs) :
  ∃ template', considerTx env doubles node pindexPrev template dPriority tx = some template'
  := by
  obtain ⟨⟨hash, tx'⟩, hitem, rfl⟩ := List.mem_map.mp hmem
  rw [ExtTreeMap.mem_toList_iff_getElem?_eq_some] at hitem
  obtain ⟨hcheck, hcoinbase⟩ := hvalid.checked hash tx' hitem
  obtain ⟨nValueOut, hout⟩ := (CTransaction.checked_of_checkTransaction hcheck).getValueOut_isSome
  rw [considerTx]
  simp only [Option.bind_eq_bind]
  split_ifs
  · exact ⟨_, rfl⟩
  · exact ⟨_, rfl⟩
  · cases hfetch : tx'.fetchInputs node.reader node.txdb.txIndex template.mapTestPool false true with
    | error _ => exact ⟨_, rfl⟩
    | ok mapInputs =>
      obtain ⟨nValueIn, hin⟩ := exists_getValueIn rfl hcoinbase hfetch
      simp only [hin, hout, getP2SHSigOpCount_eq rfl hcoinbase hfetch, Option.bind_some]
      split_ifs
      · exact ⟨_, rfl⟩
      · exact ⟨_, rfl⟩
      · split
        · exact ⟨_, rfl⟩
        · exact ⟨_, rfl⟩

/-- One transaction less is left to be considered. -/
theorem length_live_of_considerTx
    (hhead : template.mapPriority = (dPriority, tx) :: mapPriority)
    (h : considerTx env doubles node pindexPrev { template with mapPriority } dPriority tx = some template') :
  template'.live.length + 1 = template.live.length
  := by
  have hlive : template.live = tx :: Candidates.live { template.toCandidates with mapPriority } := by
    rw [Candidates.live, hhead]
    rfl
  rw [hlive, List.length_cons]
  rcases considerTx_eq_some h with rfl | ⟨_, _, _, _, _, _, _, _, rfl⟩
  · rfl
  · rw [Template.take]
    have hperm := live_releaseDependers { template.toCandidates with mapPriority } (tx.getHash env.crypto)
    rw [← hperm.length_eq]

/-- With as many rounds as transactions are left the loop ends with an empty queue. -/
theorem exists_collect
    (hvalid : node.mempool.Valid env txs) (hsized : node.mempool.Sized)
    (n : ℕ) (h : template.Built env doubles node pindexPrev nAdjustedTime) (hn : template.live.length ≤ n) :
  ∃ template', collect env doubles node pindexPrev n template = some template' ∧ template'.mapPriority = []
  := by
  induction n generalizing template with
  | zero =>
    have hnil := List.eq_nil_of_length_eq_zero (Nat.le_zero.mp hn)
    rw [Candidates.live, List.append_eq_nil_iff, List.map_eq_nil_iff] at hnil
    exact ⟨template, rfl, hnil.1⟩
  | succ n ih =>
    rw [collect]
    split
    · rename_i hnil
      exact ⟨template, rfl, hnil⟩
    · rename_i dPriority tx mapPriority hhead
      have hmem : tx ∈ node.mempool.txs := by
        apply List.mem_of_mem_filter
        apply h.queue.subset
        rw [Candidates.live, hhead]
        exact List.mem_append_right _ List.mem_cons_self
      obtain ⟨mid, hstep⟩ := exists_considerTx hvalid pindexPrev { template with mapPriority } dPriority hmem
      have hlength := length_live_of_considerTx hhead hstep
      rw [hstep, Option.bind_some]
      apply ih (h.step hvalid hsized hhead hstep)
      omega

/-- The transactions of a new block. -/
theorem collectTransactions_spec
    {txs : Set CTransaction} (hvalid : node.mempool.Valid env txs) (hsized : node.mempool.Sized)
    (doubles : Doubles) (pindexPrev : CBlockIndex) (nAdjustedTime : ℤ) :
  ∃ template, collectTransactions env doubles node pindexPrev nAdjustedTime = some template
    ∧ template.mapPriority = [] ∧ template.Built env doubles node pindexPrev nAdjustedTime
  := by
  have hbuilt := @built_startTemplate env doubles node pindexPrev nAdjustedTime
  have hlength : (startTemplate env doubles node nAdjustedTime).live.length ≤ node.mempool.txs.length := by
    apply hbuilt.queue.length_le.trans
    apply List.length_filter_le
  obtain ⟨template, hcollect, hempty⟩ := exists_collect hvalid hsized _ hbuilt hlength
  exact ⟨template, hcollect, hempty, hbuilt.collect hvalid hsized hcollect⟩

end Built

end CorgiCoin
