import CorgiCoin.TxHistory
import CorgiCoin.BlockFile

/-!
# The checks of a start

`LoadBlockIndex` verifies the last blocks of the best chain against the transaction index and the block
files.  The checks are those of the levels: the positions of the transactions, the transactions found
there, the marks of their outputs, and the marks of what they spend.  On a database that connecting and
disconnecting blocks has left, every check passes but one: the fifth level takes an output for unspent
when its transaction was repeated after it had been spent.
-/

namespace CorgiCoin

open Std

/-! ## Databases that blocks are connected to -/

/-- A block as it can be written to disk and read back. -/
def StoredBlock := { block : CBlock // block.AuxPowPresent ∧ block.Fits }

/-- The block files, the blocks that were written to them with their entries, the database and the best
chain above the first block, the last block first. -/
structure ChainDB where
  files : BlockFiles
  mapBlockIndex : List (CBlockIndex × StoredBlock)
  txdb : CTxDB
  pindexGenesisBlock : BlockEntry
  chain : List (CBlockIndex × StoredBlock)

namespace ChainDB

/-- A database with the first block. -/
def start (files : BlockFiles) (genesis : BlockEntry) : ChainDB where
  files
  mapBlockIndex := []
  txdb := CTxDB.empty
  pindexGenesisBlock := genesis
  chain := []

/-- The last entry of a chain on top of the first block. -/
def bestOf (genesis : BlockEntry) : List (CBlockIndex × StoredBlock) → CBlockIndex
  | [] => .first genesis
  | block :: _ => block.1

def pindexBest (db : ChainDB) : CBlockIndex := bestOf db.pindexGenesisBlock db.chain

/-- What is done to the database: a block is written on top of an entry, a block that was written is
connected to the best chain, and the last block of it is disconnected. -/
inductive Op where
  | write (pprev : CBlockIndex) (block : StoredBlock)
  | connect (i : ℕ) (nAdjustedTime : ℤ) (mempool : ExtTreeMap uint256 CTransaction)
  | disconnect

variable (env : Env)

/-- The entry of a block. -/
def entryOf (block : CBlock) (pos : BlockPos) (pprev : CBlockIndex) : CBlockIndex :=
  .next ⟨block.getHash env, pos, block.nVersion, block.hashMerkleRoot, block.nTime, block.nBits,
    block.nNonce⟩ pprev

/-- A step, or `none` where it is refused. -/
def step (db : ChainDB) : Op → Option ChainDB
  | .write pprev block =>
    (db.files.writeToDisk env.network block.val).map (fun (files, pos) => { db with
      files
      mapBlockIndex := db.mapBlockIndex ++ [(entryOf env block.val pos pprev, block)] })
  | .connect i nAdjustedTime mempool =>
    match db.mapBlockIndex[i]? with
    | none => none
    | some (pindex, block) =>
      if pindex.pprev = some db.pindexBest then
        (block.val.connectBlock env ⟨db.files.readTx, mempool⟩ nAdjustedTime db.txdb pindex).map
          (fun txdb => { db with txdb, chain := (pindex, block) :: db.chain })
      else none
  | .disconnect =>
    match db.chain with
    | [] => none
    | (pindex, block) :: chain =>
      (block.val.disconnectBlock env db.txdb pindex).map (fun txdb => { db with txdb, chain })

/-- A sequence of steps. -/
def run (db : ChainDB) (ops : List Op) : Option ChainDB := ops.foldlM (step env) db

/-! ## The checks -/

/-- What the loop over the blocks carries along.  Of the map of positions only the keys are used. -/
structure Verification where
  pindexFork : Option CBlockIndex
  mapBlockPos : List (UInt32 × UInt32)

/-- Where a block is. -/
def blockPos (pindex : CBlockIndex) : UInt32 × UInt32 :=
  (pindex.entry.pos.nFile, pindex.entry.pos.nBlockPos)

/-- Whether a position is in another block than that of the entry. -/
def elsewhere (pindex : CBlockIndex) (pos : CDiskTxPos) : Bool :=
  pindex.entry.pos.nFile ≠ pos.nFile || pindex.entry.pos.nBlockPos ≠ pos.nBlockPos

variable (db : ChainDB) (nCheckLevel : ℤ)

/-- Levels 2 and 3: the transaction cannot be read where the index has it, or another one is there. -/
def badPosition (pindex : CBlockIndex) (hashTx : uint256) (txindex : CTxIndex) : Bool :=
  (decide (nCheckLevel > 2) || elsewhere pindex txindex.pos)
    && match db.files.readTx txindex.pos with
      | none => true
      | some txFound => txFound.getHash env.crypto ≠ hashTx

/-- Level 6: the transaction that spends an output cannot be read, is not valid, or does not spend it. -/
def badSpender (hashTx : uint256) (nOutput : ℕ) (txpos : CDiskTxPos) : Bool :=
  match db.files.readTx txpos with
  | none => true
  | some txSpend =>
    !txSpend.checkTransaction || !txSpend.vin.any (fun txin =>
      txin.prevout.hash == hashTx && txin.prevout.n == UInt32.ofNat nOutput)

/-- Level 4: the output is spent in a block that is not on the chain. -/
def badSpend (mapBlockPos : List (UInt32 × UInt32)) (hashTx : uint256)
    (spent : CDiskTxPos × ℕ) : Bool :=
  !spent.1.isNull && (!mapBlockPos.contains (spent.1.nFile, spent.1.nBlockPos)
    || decide (nCheckLevel > 5) && badSpender db hashTx spent.2 spent.1)

/-- Level 5: an output that is spent is not marked.  An entry without marks is not read in the source,
and there are none. -/
def badPrevout (txin : CTxIn) : Bool :=
  match db.txdb.txIndex[txin.prevout.hash]? with
  | none => false
  | some txindex =>
    match txindex.vSpent[txin.prevout.n.toNat]? with
    | none => true
    | some pos => pos.isNull

/-- The checks of a transaction of a block. -/
def badTx (mapBlockPos : List (UInt32 × UInt32)) (pindex : CBlockIndex) (tx : CTransaction) : Bool :=
  let hashTx := tx.getHash env.crypto
  (match db.txdb.txIndex[hashTx]? with
    | none => false
    | some txindex =>
      badPosition env db nCheckLevel pindex hashTx txindex
        || decide (nCheckLevel > 3)
          && txindex.vSpent.zipIdx.any (badSpend db nCheckLevel mapBlockPos hashTx))
    || decide (nCheckLevel > 4) && tx.vin.any (badPrevout db)

/-- The checks of a block: a block that fails makes its previous block the fork. -/
def verifyBlock (nAdjustedTime : ℤ) (pindex : CBlockIndex) (block : CBlock) (s : Verification) :
    Verification :=
  let s := if nCheckLevel > 0 ∧ ¬block.checkBlock env nAdjustedTime then
      { s with pindexFork := pindex.pprev }
    else s
  if nCheckLevel > 1 then
    let s := { s with mapBlockPos := blockPos pindex :: s.mapBlockPos }
    if block.vtx.any (badTx env db nCheckLevel s.mapBlockPos pindex) then
      { s with pindexFork := pindex.pprev }
    else s
  else s

/-- The loop over the best chain down to a height, or `none` where a block cannot be read. -/
def verifyLoop (nAdjustedTime nStop : ℤ) : CBlockIndex → Verification → Option Verification
  | .first _, s => some s
  | .next entry pprev, s =>
    let pindex : CBlockIndex := .next entry pprev
    if pindex.nHeight < nStop then some s
    else
      match db.files.readFromDisk env pindex with
      | none => none
      | some block =>
        verifyLoop nAdjustedTime nStop pprev (verifyBlock env db nCheckLevel nAdjustedTime pindex block s)

/-- The number of blocks below the last one that are verified, from `-checkblocks`. -/
def checkDepth (nBestHeight nCheckDepth : ℤ) : ℤ :=
  let nCheckDepth := if nCheckDepth = 0 then 1000000000 else nCheckDepth
  if nCheckDepth > nBestHeight then nBestHeight else nCheckDepth

/-- The lowest height that is verified. -/
def lowestHeight (nCheckDepth : ℤ) : ℤ :=
  db.pindexBest.nHeight - checkDepth db.pindexBest.nHeight nCheckDepth

/-- The verification of `LoadBlockIndex`: the fork that it finds, if there is one, or `none` where a
block cannot be read. -/
def verifyBlocks (nAdjustedTime nCheckDepth : ℤ) : Option (Option CBlockIndex) :=
  (verifyLoop env db nCheckLevel nAdjustedTime (db.lowestHeight nCheckDepth) db.pindexBest
    ⟨none, []⟩).map Verification.pindexFork

/-! ## What connecting and disconnecting leave -/

/-- The transactions of blocks with their positions, the last block coming first. -/
def placedOf (blocks : List (CBlockIndex × StoredBlock)) : List PlacedTx :=
  blocks.reverse.flatMap (fun b => b.2.val.placed b.1.entry.pos)

theorem placedOf_cons (b : CBlockIndex × StoredBlock) (blocks : List (CBlockIndex × StoredBlock)) :
  placedOf (b :: blocks) = placedOf blocks ++ b.2.val.placed b.1.entry.pos
  := by
  simp [placedOf]

theorem placedOf_append (later earlier : List (CBlockIndex × StoredBlock)) :
  placedOf (later ++ earlier) = placedOf earlier ++ placedOf later
  := by
  simp [placedOf]

variable {p : PlacedTx}

theorem mem_placedOf {blocks : List (CBlockIndex × StoredBlock)} :
  p ∈ placedOf blocks ↔ ∃ b ∈ blocks, p ∈ b.2.val.placed b.1.entry.pos
  := by
  simp [placedOf]

/-- Each block of a chain is on top of the next one, and the last one on the first block. -/
def Linked (genesis : BlockEntry) : List (CBlockIndex × StoredBlock) → Prop
  | [] => True
  | b :: blocks => b.1.pprev = some (bestOf genesis blocks) ∧ Linked genesis blocks

/-- The blocks are in the files, and the index tells of the chain. -/
structure Intact (db : ChainDB) : Prop where
  held : ∀ b ∈ db.mapBlockIndex,
    db.files.Holds b.1.entry.pos.nFile b.1.entry.pos.nBlockPos.toNat (b.2.val.bytes SER_DISK)
      ∧ b.1.getBlockHash = b.2.val.getHash env
  connected : ∀ b ∈ db.chain, b ∈ db.mapBlockIndex ∧ b.2.val.Checked env
  linked : Linked db.pindexGenesisBlock db.chain
  tells : Tells env db.txdb.txIndex (placedOf db.chain)

variable {env} {db : ChainDB} {nCheckLevel : ℤ}

theorem intact_start (env : Env) (files : BlockFiles) (genesis : BlockEntry) :
  Intact env (start files genesis)
  := ⟨fun _ h => absurd h List.not_mem_nil, fun _ h => absurd h List.not_mem_nil, trivial,
    tells_nil env⟩

theorem Intact.step {db' : ChainDB} {op : Op} (h : Intact env db) (hstep : db.step env op = some db') :
  Intact env db'
  := by
  cases op with
  | write pprev block =>
    rw [ChainDB.step, Option.map_eq_some_iff] at hstep
    obtain ⟨⟨files, pos⟩, hwrite, rfl⟩ := hstep
    obtain ⟨hkeeps, hholds, -⟩ := BlockFiles.writeToDisk_eq_some block.property.1 hwrite
    refine ⟨?_, ?_, h.linked, h.tells⟩
    · intro b hmem
      rcases List.mem_append.mp hmem with hmem | hmem
      · exact ⟨hkeeps _ _ _ (h.held b hmem).1, (h.held b hmem).2⟩
      · obtain rfl := List.mem_singleton.mp hmem
        exact ⟨hholds, rfl⟩
    · exact fun b hmem => ⟨List.mem_append_left _ (h.connected b hmem).1, (h.connected b hmem).2⟩
  | connect i nAdjustedTime mempool =>
    rw [ChainDB.step] at hstep
    cases hget : db.mapBlockIndex[i]? with
    | none =>
      rw [hget] at hstep
      cases hstep
    | some b =>
      obtain ⟨pindex, block⟩ := b
      rw [hget] at hstep
      simp only at hstep
      by_cases hprev : pindex.pprev = some db.pindexBest
      · rw [if_pos hprev, Option.map_eq_some_iff] at hstep
        obtain ⟨txdb, hconnect, rfl⟩ := hstep
        have hconnects := CBlock.connectBlock_eq_some hconnect
        refine ⟨h.held, ?_, ⟨hprev, h.linked⟩, ?_⟩
        · intro b hmem
          cases hmem with
          | head => exact ⟨List.mem_of_getElem? hget, hconnects.checked⟩
          | tail _ hmem => exact h.connected b hmem
        · rw [placedOf_cons]
          exact h.tells.connectBlock hconnects
      · rw [if_neg hprev] at hstep
        cases hstep
  | disconnect =>
    rw [ChainDB.step] at hstep
    cases hchain : db.chain with
    | nil =>
      rw [hchain] at hstep
      cases hstep
    | cons b chain =>
      obtain ⟨pindex, block⟩ := b
      rw [hchain] at hstep
      simp only [Option.map_eq_some_iff] at hstep
      obtain ⟨txdb, hdisconnect, rfl⟩ := hstep
      have hconnected := h.connected
      have hlinked := h.linked
      have htells := h.tells
      rw [hchain] at hconnected hlinked htells
      rw [placedOf_cons] at htells
      exact ⟨h.held, fun b hmem => hconnected b (List.mem_cons_of_mem _ hmem), hlinked.2,
        htells.disconnectBlock hdisconnect⟩

/-- Whatever was written, connected and disconnected. -/
theorem Intact.run {db' : ChainDB} {ops : List Op} (h : Intact env db)
    (hrun : db.run env ops = some db') :
  Intact env db'
  := by
  induction ops generalizing db with
  | nil =>
    obtain rfl := Option.some.inj hrun
    exact h
  | cons op ops ih =>
    rw [ChainDB.run, List.foldlM_cons, Option.bind_eq_bind, Option.bind_eq_some_iff] at hrun
    obtain ⟨mid, hstep, hrest⟩ := hrun
    exact ih (h.step hstep) hrest

/-! ## The checks pass -/

/-- The blocks end below the limit of the offsets. -/
def EndsBelow (db : ChainDB) : Prop :=
  ∀ b ∈ db.mapBlockIndex,
    b.1.entry.pos.nBlockPos.toNat + (b.2.val.bytes SER_DISK).length < 2 ^ 32

/-- What the checks of a chain rest on. -/
structure Sound (env : Env) (db : ChainDB) : Prop where
  intact : Intact env db
  endsBelow : db.EndsBelow
  /-- No transaction has the hash that stands for none. -/
  nonzero : ∀ b ∈ db.chain, ∀ tx ∈ b.2.val.vtx, tx.getHash env.crypto ≠ 0

theorem Sound.readTx (h : Sound env db) (hmem : p ∈ placedOf db.chain) :
  db.files.readTx p.1 = some p.2 ∧ p.2.checkTransaction = true ∧ p.2.getHash env.crypto ≠ 0
  := by
  obtain ⟨b, hb, hp⟩ := mem_placedOf.mp hmem
  obtain ⟨hindex, hchecked⟩ := h.intact.connected b hb
  have hstored := CBlock.storedAt_of_holds b.2.property.1 b.2.property.2
    (h.intact.held b hindex).1 (h.endsBelow b hindex)
  have hvtx := (mem_txPositions hp).1
  exact ⟨hstored p hp, hchecked.checkTransaction p.2 hvtx, h.nonzero b hb p.2 hvtx⟩

variable {b : CBlockIndex × StoredBlock}

theorem Sound.readFromDisk (h : Sound env db) (hmem : b ∈ db.chain) :
  db.files.readFromDisk env b.1 = some b.2.val
  := by
  obtain ⟨hindex, hchecked⟩ := h.intact.connected b hmem
  obtain ⟨hholds, hhash⟩ := h.intact.held b hindex
  have hread := BlockFiles.readBlock_of_holds b.2.property.1 b.2.property.2 hchecked.work hholds
  rw [BlockFiles.readFromDisk, hread, hhash]
  simp

/-- The positions of a chain of blocks are those of its blocks. -/
theorem blockPos_of_mem_placed
    (h : p ∈ b.2.val.placed b.1.entry.pos) :
  (p.1.nFile, p.1.nBlockPos) = blockPos b.1
  := by
  obtain ⟨-, n, hpos⟩ := mem_txPositions h
  rw [hpos]
  rfl

/-- A transaction of the chain, with those that were connected after it. -/
structure Occurs (db : ChainDB) (p : PlacedTx) (back : List PlacedTx) : Prop where
  exists_front : ∃ front, placedOf db.chain = front ++ p :: back

variable {back : List PlacedTx} {txindex : CTxIndex}

/-- An entry of the hash of a transaction on the chain is that of the transaction or of a later one,
and its marks are later still. -/
theorem Sound.entry
    (h : Sound env db) (hoccurs : Occurs db p back)
    (hget : db.txdb.txIndex[p.2.getHash env.crypto]? = some txindex) :
  (∃ tx, (txindex.pos, tx) ∈ placedOf db.chain ∧ tx.getHash env.crypto = p.2.getHash env.crypto)
    ∧ ∀ n pos, txindex.vSpent[n]? = some pos → pos.isNull = false → ∃ tx, (pos, tx) ∈ back
      ∧ ∃ o ∈ tx.prevouts, o.hash = p.2.getHash env.crypto ∧ o.n.toNat = n
  := by
  obtain ⟨front, hsplit⟩ := hoccurs.exists_front
  obtain ⟨i, ⟨tx, hi, htx⟩, hlast, hmarks⟩ := h.intact.tells.located _ _ hget
  have hp : (placedOf db.chain)[front.length]? = some p := by
    rw [hsplit, List.getElem?_append_right (Nat.le_refl _), Nat.sub_self]
    rfl
  -- the entry is not that of an earlier transaction
  have hle : front.length ≤ i := by
    by_contra hlt
    exact hlast front.length p (Nat.not_le.mp hlt) hp rfl
  refine ⟨⟨tx, List.mem_of_getElem? hi, htx⟩, ?_⟩
  intro n pos hpos hnull
  obtain ⟨j, tx', hij, hj, ho⟩ := hmarks n pos hpos hnull
  refine ⟨tx', ?_, ho⟩
  rw [hsplit, List.getElem?_append_right (by omega)] at hj
  obtain ⟨k, hk⟩ : ∃ k, j - front.length = k + 1 := ⟨j - front.length - 1, by omega⟩
  rw [hk, List.getElem?_cons_succ] at hj
  exact List.mem_of_getElem? hj

theorem Sound.badPosition_eq_false
    (h : Sound env db) (hoccurs : Occurs db p back)
    (hget : db.txdb.txIndex[p.2.getHash env.crypto]? = some txindex) (pindex : CBlockIndex) :
  badPosition env db nCheckLevel pindex (p.2.getHash env.crypto) txindex = false
  := by
  obtain ⟨⟨tx, hmem, hhash⟩, -⟩ := h.entry hoccurs hget
  rw [badPosition, (h.readTx hmem).1]
  simp [hhash]

/-- The spending transactions are on the chain that was seen, and spend the outputs. -/
theorem Sound.badSpend_eq_false
    (h : Sound env db) (hoccurs : Occurs db p back) {mapBlockPos : List (UInt32 × UInt32)}
    (hmap : ∀ q ∈ back, (q.1.nFile, q.1.nBlockPos) ∈ mapBlockPos)
    (hget : db.txdb.txIndex[p.2.getHash env.crypto]? = some txindex) :
  txindex.vSpent.zipIdx.any (badSpend db nCheckLevel mapBlockPos (p.2.getHash env.crypto)) = false
  := by
  rw [List.any_eq_false]
  rintro ⟨pos, n⟩ hmem
  have hpos := List.mk_mem_zipIdx_iff_getElem?.mp hmem
  rw [badSpend]
  cases hnull : pos.isNull with
  | true => simp
  | false =>
    obtain ⟨tx, htx, o, ho, hhash, hn⟩ := (h.entry hoccurs hget).2 n pos hpos hnull
    have hcontains := hmap _ htx
    have hchain : (pos, tx) ∈ placedOf db.chain := by
      obtain ⟨front, hsplit⟩ := hoccurs.exists_front
      rw [hsplit]
      exact List.mem_append_right _ (List.mem_cons_of_mem _ htx)
    obtain ⟨hread, hcheck, -⟩ := h.readTx hchain
    have hspends : tx.vin.any (fun txin => txin.prevout.hash == p.2.getHash env.crypto
        && txin.prevout.n == UInt32.ofNat n) = true := by
      rw [CTransaction.prevouts] at ho
      split_ifs at ho
      · cases ho
      · obtain ⟨txin, htxin, rfl⟩ := List.mem_map.mp ho
        rw [List.any_eq_true]
        refine ⟨txin, htxin, ?_⟩
        rw [← hhash, ← hn, UInt32.ofNat_toNat]
        simp
    have hspender : badSpender db (p.2.getHash env.crypto) n pos = false := by
      rw [badSpender, hread]
      simp only [hcheck, hspends]
      rfl
    simp [hcontains, hspender]

theorem badPrevout_iff (db : ChainDB) (txin : CTxIn) :
  badPrevout db txin = true ↔ (∃ txindex, db.txdb.txIndex[txin.prevout.hash]? = some txindex)
    ∧ ¬IsSpent db.txdb.txIndex txin.prevout
  := by
  rw [badPrevout, IsSpent, slot]
  cases hget : db.txdb.txIndex[txin.prevout.hash]? with
  | none => simp
  | some txindex =>
    cases hslot : txindex.vSpent[txin.prevout.n.toNat]? with
    | none => simp [hslot]
    | some pos => simp [hslot]

/-- A transaction, with those that were connected after it, spends an output whose transaction is
repeated there, and the index has the output of the repeated one as unspent. -/
def SpendsRepeated (env : Env) (index : TxIndexMap) (p : PlacedTx) (back : List PlacedTx) : Prop :=
  ∃ o ∈ p.2.prevouts, (∃ q ∈ p :: back, q.2.getHash env.crypto = o.hash)
    ∧ (∃ txindex, index[o.hash]? = some txindex) ∧ ¬IsSpent index o

/-- The fifth level fails exactly on repeated transactions. -/
theorem Sound.any_badPrevout_iff
    (h : Sound env db) (hoccurs : Occurs db p back) :
  p.2.vin.any (badPrevout db) = true ↔ SpendsRepeated env db.txdb.txIndex p back
  := by
  obtain ⟨front, hsplit⟩ := hoccurs.exists_front
  have hp : (placedOf db.chain)[front.length]? = some p := by
    rw [hsplit, List.getElem?_append_right (Nat.le_refl _), Nat.sub_self]
    rfl
  rw [List.any_eq_true]
  cases hcoinbase : p.2.isCoinBase with
  | true =>
    have hnone : p.2.prevouts = [] := by rw [CTransaction.prevouts, hcoinbase, if_pos rfl]
    constructor
    · rintro ⟨txin, htxin, hbad⟩
      -- no transaction has the hash that the input of a coinbase names
      have hnull : txin.prevout = COutPoint.null := by
        rw [CTransaction.isCoinBase] at hcoinbase
        split at hcoinbase
        · rename_i txin' hvin
          rw [hvin, List.mem_singleton] at htxin
          rw [htxin, ← COutPoint.isNull_iff, hcoinbase]
        · cases hcoinbase
      obtain ⟨⟨txindex, hget⟩, -⟩ := (badPrevout_iff db txin).mp hbad
      obtain ⟨i, ⟨tx, hi, htx⟩, -, -⟩ := h.intact.tells.located _ _ hget
      rw [hnull] at htx
      exact absurd htx (h.readTx (List.mem_of_getElem? hi)).2.2
    · rintro ⟨o, ho, -⟩
      rw [hnone] at ho
      cases ho
  | false =>
    have hall : p.2.prevouts = p.2.vin.map CTxIn.prevout := by
      rw [CTransaction.prevouts, hcoinbase, if_neg Bool.false_ne_true]
    constructor
    · rintro ⟨txin, htxin, hbad⟩
      obtain ⟨hentry, hnot⟩ := (badPrevout_iff db txin).mp hbad
      have ho : txin.prevout ∈ p.2.prevouts := by
        rw [hall]
        exact List.mem_map_of_mem htxin
      refine ⟨txin.prevout, ho, ?_, hentry, hnot⟩
      by_contra hrepeat
      obtain hnone | hspent := h.intact.tells.spent front.length p hp txin.prevout ho (by
        intro j q hle hq heq
        apply hrepeat
        refine ⟨q, ?_, heq⟩
        rw [hsplit, List.getElem?_append_right hle] at hq
        exact List.mem_of_getElem? hq)
      · obtain ⟨txindex, hget⟩ := hentry
        rw [hnone] at hget
        cases hget
      · exact hnot hspent
    · rintro ⟨o, ho, -, hentry, hnot⟩
      rw [hall] at ho
      obtain ⟨txin, htxin, rfl⟩ := List.mem_map.mp ho
      exact ⟨txin, htxin, (badPrevout_iff db txin).mpr ⟨hentry, hnot⟩⟩

theorem Sound.badTx_iff
    (h : Sound env db) (hoccurs : Occurs db p back) {mapBlockPos : List (UInt32 × UInt32)}
    (hmap : ∀ q ∈ back, (q.1.nFile, q.1.nBlockPos) ∈ mapBlockPos) (pindex : CBlockIndex) :
  badTx env db nCheckLevel mapBlockPos pindex p.2 = true
    ↔ 4 < nCheckLevel ∧ SpendsRepeated env db.txdb.txIndex p back
  := by
  have hentry : (match db.txdb.txIndex[p.2.getHash env.crypto]? with
      | none => false
      | some txindex =>
        badPosition env db nCheckLevel pindex (p.2.getHash env.crypto) txindex
          || decide (nCheckLevel > 3) && txindex.vSpent.zipIdx.any
            (badSpend db nCheckLevel mapBlockPos (p.2.getHash env.crypto))) = false := by
    cases hget : db.txdb.txIndex[p.2.getHash env.crypto]? with
    | none => rfl
    | some txindex =>
      simp only
      rw [h.badPosition_eq_false hoccurs hget, h.badSpend_eq_false hoccurs hmap hget, Bool.and_false]
      rfl
  rw [badTx, hentry, Bool.false_or, Bool.and_eq_true, decide_eq_true_iff, h.any_badPrevout_iff hoccurs]

/-! ## The loop -/

/-- A transaction of a block spends an output of a transaction that is repeated in the block or in a
later one, and the output is unspent. -/
def BlockSpendsRepeated (env : Env) (index : TxIndexMap) (later : List (CBlockIndex × StoredBlock))
    (b : CBlockIndex × StoredBlock) : Prop :=
  ∃ before p after, b.2.val.placed b.1.entry.pos = before ++ p :: after
    ∧ SpendsRepeated env index p (after ++ placedOf later)

/-- The checks of a block of the chain. -/
theorem Sound.verifyBlock_iff
    (h : Sound env db) {nAdjustedTime : ℤ} {later earlier : List (CBlockIndex × StoredBlock)}
    (hchain : db.chain = later ++ b :: earlier)
    (hcheck : b.2.val.checkBlock env nAdjustedTime = true) (hprev : b.1.pprev ≠ none)
    {s : Verification} (hmap : 1 < nCheckLevel → ∀ b' ∈ later, blockPos b'.1 ∈ s.mapBlockPos) :
  let s' := verifyBlock env db nCheckLevel nAdjustedTime b.1 b.2.val s
  (s'.pindexFork = none ↔ s.pindexFork = none
    ∧ ¬(4 < nCheckLevel ∧ BlockSpendsRepeated env db.txdb.txIndex later b))
  ∧ (1 < nCheckLevel → ∀ b' ∈ later ++ [b], blockPos b'.1 ∈ s'.mapBlockPos)
  := by
  intro s'
  have hvalid : ¬(nCheckLevel > 0 ∧ ¬b.2.val.checkBlock env nAdjustedTime = true) := by
    rw [hcheck]
    simp
  by_cases hlevel : nCheckLevel > 1
  · have hpositions : ∀ b' ∈ later ++ [b], blockPos b'.1 ∈ blockPos b.1 :: s.mapBlockPos := by
      intro b' hmem
      rcases List.mem_append.mp hmem with hmem | hmem
      · exact List.mem_cons_of_mem _ (hmap hlevel b' hmem)
      · obtain rfl := List.mem_singleton.mp hmem
        exact List.mem_cons_self
    have hsplit : placedOf db.chain
        = placedOf earlier ++ b.2.val.placed b.1.entry.pos ++ placedOf later := by
      rw [hchain, placedOf_append, placedOf_cons]
    have hbad : ∀ before p after, b.2.val.placed b.1.entry.pos = before ++ p :: after →
        (badTx env db nCheckLevel (blockPos b.1 :: s.mapBlockPos) b.1 p.2 = true
          ↔ 4 < nCheckLevel ∧ SpendsRepeated env db.txdb.txIndex p (after ++ placedOf later)) := by
      intro before p after hplaced
      apply h.badTx_iff
      · refine ⟨placedOf earlier ++ before, ?_⟩
        rw [hsplit, hplaced]
        simp
      · intro q hq
        rcases List.mem_append.mp hq with hq | hq
        · have hmem : q ∈ b.2.val.placed b.1.entry.pos := by
            rw [hplaced]
            exact List.mem_append_right _ (List.mem_cons_of_mem _ hq)
          rw [blockPos_of_mem_placed hmem]
          exact List.mem_cons_self
        · obtain ⟨b', hb', hmem⟩ := mem_placedOf.mp hq
          rw [blockPos_of_mem_placed hmem]
          exact List.mem_cons_of_mem _ (hmap hlevel b' hb')
    have hany : b.2.val.vtx.any (badTx env db nCheckLevel (blockPos b.1 :: s.mapBlockPos) b.1) = true
        ↔ 4 < nCheckLevel ∧ BlockSpendsRepeated env db.txdb.txIndex later b := by
      have hvtx : b.2.val.vtx = (b.2.val.placed b.1.entry.pos).map Prod.snd := by
        rw [CBlock.placed, map_snd_txPositions]
      rw [hvtx, List.any_eq_true]
      constructor
      · rintro ⟨tx, htx, hbadTx⟩
        obtain ⟨p, hp, rfl⟩ := List.mem_map.mp htx
        obtain ⟨before, after, hplaced⟩ := List.append_of_mem hp
        obtain ⟨hfour, hspends⟩ := (hbad before p after hplaced).mp hbadTx
        exact ⟨hfour, before, p, after, hplaced, hspends⟩
      · rintro ⟨hfour, before, p, after, hplaced, hspends⟩
        refine ⟨p.2, List.mem_map_of_mem ?_, (hbad before p after hplaced).mpr ⟨hfour, hspends⟩⟩
        rw [hplaced]
        exact List.mem_append_right _ List.mem_cons_self
    have hs' : s' = if b.2.val.vtx.any
        (badTx env db nCheckLevel (blockPos b.1 :: s.mapBlockPos) b.1) then
          { pindexFork := b.1.pprev, mapBlockPos := blockPos b.1 :: s.mapBlockPos }
        else { s with mapBlockPos := blockPos b.1 :: s.mapBlockPos } := by
      simp only [s', verifyBlock]
      rw [if_neg hvalid, if_pos hlevel]
    rw [hs']
    by_cases halarm : b.2.val.vtx.any
        (badTx env db nCheckLevel (blockPos b.1 :: s.mapBlockPos) b.1) = true
    · rw [if_pos halarm]
      exact ⟨iff_of_false hprev (fun hnot => hnot.2 (hany.mp halarm)), fun _ => hpositions⟩
    · rw [if_neg halarm]
      refine ⟨?_, fun _ => hpositions⟩
      rw [hany] at halarm
      exact (and_iff_left halarm).symm
  · have hs' : s' = s := by
      simp only [s', verifyBlock]
      rw [if_neg hvalid, if_neg hlevel]
    rw [hs']
    refine ⟨(and_iff_left ?_).symm, fun h => absurd h hlevel⟩
    rintro ⟨hfour, -⟩
    omega

theorem height_le_of_linked
    {genesis : BlockEntry} {blocks : List (CBlockIndex × StoredBlock)} (h : Linked genesis blocks)
    (hmem : b ∈ blocks) :
  b.1.nHeight ≤ (bestOf genesis blocks).nHeight
  := by
  induction blocks with
  | nil => cases hmem
  | cons b' blocks ih =>
    cases hmem with
    | head => exact Nat.le_refl _
    | tail _ hmem =>
      have hle := ih h.2 hmem
      have hprev := h.1
      rw [bestOf]
      cases hb : b'.1 with
      | first entry =>
        rw [hb] at hprev
        cases hprev
      | next entry pprev =>
        rw [hb] at hprev
        obtain rfl := Option.some.inj hprev
        rw [CBlockIndex.nHeight]
        omega

/-- The loop goes on below blocks that were verified. -/
theorem Sound.verifyLoop_iff
    (h : Sound env db) {nAdjustedTime nStop : ℤ} {later blocks : List (CBlockIndex × StoredBlock)}
    (hchain : db.chain = later ++ blocks) (hlinked : Linked db.pindexGenesisBlock blocks)
    (hcheck : ∀ b ∈ blocks, b.2.val.checkBlock env nAdjustedTime = true)
    {s : Verification} (hmap : 1 < nCheckLevel → ∀ b ∈ later, blockPos b.1 ∈ s.mapBlockPos) :
  ∃ s', verifyLoop env db nCheckLevel nAdjustedTime nStop (bestOf db.pindexGenesisBlock blocks) s
      = some s'
    ∧ (s'.pindexFork = none ↔ s.pindexFork = none
      ∧ ¬(4 < nCheckLevel ∧ ∃ mid b earlier, blocks = mid ++ b :: earlier ∧ nStop ≤ b.1.nHeight
        ∧ BlockSpendsRepeated env db.txdb.txIndex (later ++ mid) b))
  := by
  induction blocks generalizing later s with
  | nil =>
    refine ⟨s, rfl, ?_⟩
    rw [and_iff_left]
    rintro ⟨-, mid, b, earlier, hnil, -⟩
    exact absurd hnil (by simp)
  | cons b blocks ih =>
    have hlinkedAll := hlinked
    obtain ⟨hprev, hlinked'⟩ := hlinked
    obtain ⟨hfirst, hrest⟩ := List.forall_mem_cons.mp hcheck
    have hbest : bestOf db.pindexGenesisBlock (b :: blocks) = b.1 := rfl
    have hmem : b ∈ db.chain := by
      rw [hchain]
      exact List.mem_append_right _ List.mem_cons_self
    have hread := h.readFromDisk hmem
    by_cases hstop : (b.1.nHeight : ℤ) < nStop
    · -- the blocks below are lower still
      refine ⟨s, ?_, ?_⟩
      · rw [hbest]
        cases hb : b.1 with
        | first entry => rfl
        | next entry pprev =>
          rw [hb] at hstop
          rw [verifyLoop, if_pos hstop]
      · rw [and_iff_left]
        rintro ⟨-, mid, b', earlier, hsplit, hheight, -⟩
        have hin : b' ∈ b :: blocks := by
          rw [hsplit]
          exact List.mem_append_right _ List.mem_cons_self
        have hle := height_le_of_linked hlinkedAll hin
        rw [hbest] at hle
        omega
    · have hne : b.1.pprev ≠ none := by
        rw [hprev]
        exact Option.some_ne_none _
      obtain ⟨hfork, hpositions⟩ := h.verifyBlock_iff hchain hfirst hne hmap
      obtain ⟨s', hloop, hiff⟩ := ih (by rw [hchain]; simp) hlinked' hrest hpositions
      refine ⟨s', ?_, ?_⟩
      · rw [hbest]
        cases hb : b.1 with
        | first entry =>
          rw [hb] at hprev
          cases hprev
        | next entry pprev =>
          rw [hb] at hprev hstop hread hloop
          obtain rfl := Option.some.inj hprev
          rw [verifyLoop, if_neg hstop, hread]
          exact hloop
      · rw [hiff, hfork, and_assoc, ← not_or, ← and_or_left]
        apply and_congr_right'
        apply not_congr
        apply and_congr_right'
        constructor
        · rintro (hrepeat | ⟨mid, b', earlier, rfl, hheight, hrepeat⟩)
          · refine ⟨[], b, blocks, rfl, Int.not_lt.mp hstop, ?_⟩
            rwa [List.append_nil]
          · refine ⟨b :: mid, b', earlier, rfl, hheight, ?_⟩
            rwa [List.append_assoc] at hrepeat
        · rintro ⟨mid, b', earlier, hsplit, hheight, hrepeat⟩
          cases mid with
          | nil =>
            obtain ⟨rfl, rfl⟩ := List.cons.inj hsplit
            left
            rwa [List.append_nil] at hrepeat
          | cons b'' mid =>
            obtain ⟨rfl, rfl⟩ := List.cons.inj hsplit
            right
            refine ⟨mid, b', earlier, rfl, hheight, ?_⟩
            rwa [List.append_assoc]

/-! ## No false alarms -/

/-- A block at a height or above has a transaction that spends an output of a transaction that is
repeated there or later, and the output is unspent. -/
def SpendsRepeatedFrom (env : Env) (db : ChainDB) (nStop : ℤ) : Prop :=
  ∃ later b earlier, db.chain = later ++ b :: earlier ∧ nStop ≤ b.1.nHeight
    ∧ BlockSpendsRepeated env db.txdb.txIndex later b

/-- On a database that blocks were connected to and disconnected from, the verification finds no fork
exactly where the fifth level is not checked or meets no repeated transaction. -/
theorem verifyBlocks_eq_none_iff
    {files : BlockFiles} {genesis : BlockEntry} {ops : List Op}
    (hrun : (start files genesis).run env ops = some db) (hend : db.EndsBelow)
    (hzero : ∀ b ∈ db.chain, ∀ tx ∈ b.2.val.vtx, tx.getHash env.crypto ≠ 0) (nAdjustedTime : ℤ)
    (hcheck : ∀ b ∈ db.chain, b.2.val.checkBlock env nAdjustedTime = true)
    (nCheckLevel nCheckDepth : ℤ) :
  db.verifyBlocks env nCheckLevel nAdjustedTime nCheckDepth = some none
    ↔ nCheckLevel ≤ 4 ∨ ¬SpendsRepeatedFrom env db (db.lowestHeight nCheckDepth)
  := by
  have hintact := (intact_start env files genesis).run hrun
  obtain ⟨s', hloop, hiff⟩ := @Sound.verifyLoop_iff env db nCheckLevel ⟨hintact, hend, hzero⟩
    nAdjustedTime (db.lowestHeight nCheckDepth) [] db.chain rfl hintact.linked hcheck ⟨none, []⟩
    (fun _ _ h => absurd h List.not_mem_nil)
  rw [verifyBlocks, pindexBest, hloop, Option.map_some, Option.some.injEq, hiff,
    and_iff_right rfl, not_and_or, Int.not_lt]
  rfl

/-! ### A repeated coinbase -/

/-- A block as it is written, if it can be. -/
def storedBlock (block : CBlock) : Option StoredBlock :=
  if h : block.AuxPowPresent ∧ block.Fits then some ⟨block, h⟩ else none

theorem run_append {db db' : ChainDB} {ops ops' : List Op} (h : db.run env ops = some db') :
  db.run env (ops ++ ops') = db'.run env ops'
  := by
  rw [ChainDB.run, List.foldlM_append, ← ChainDB.run, h]
  rfl

/-- The first blocks of the chain that repeats a coinbase, written and connected one by one. -/
def repeatingRun : ℕ → Option (ChainDB × List Op)
  | 0 => some (start BlockFiles.empty sampleFirst.entry, [])
  | i + 1 =>
    match repeatingRun i with
    | none => none
    | some (db, ops) =>
      match storedBlock (repeatingBlock db.pindexBest (i + 1)) with
      | none => none
      | some block =>
        let ops' := [Op.write db.pindexBest block, Op.connect i 1774999999 ∅]
        (db.run sampleEnv ops').map (fun db => (db, ops ++ ops'))

theorem run_of_repeatingRun {i : ℕ} {db : ChainDB} {ops : List Op}
    (h : repeatingRun i = some (db, ops)) :
  (start BlockFiles.empty sampleFirst.entry).run sampleEnv ops = some db
  := by
  induction i generalizing db ops with
  | zero =>
    obtain ⟨rfl, rfl⟩ := Prod.mk.inj (Option.some.inj h)
    rfl
  | succ i ih =>
    rw [repeatingRun] at h
    cases hbefore : repeatingRun i with
    | none =>
      rw [hbefore] at h
      cases h
    | some before =>
      obtain ⟨db', ops'⟩ := before
      rw [hbefore] at h
      simp only at h
      cases hblock : storedBlock (repeatingBlock db'.pindexBest (i + 1)) with
      | none =>
        rw [hblock] at h
        cases h
      | some block =>
        rw [hblock] at h
        obtain ⟨db'', hrun, heq⟩ := Option.map_eq_some_iff.mp h
        obtain ⟨rfl, rfl⟩ := Prod.mk.inj heq
        rw [run_append (ih hbefore), hrun]

instance : DecidablePred EndsBelow :=
  fun db => inferInstanceAs (Decidable (∀ b ∈ db.mapBlockIndex,
    b.1.entry.pos.nBlockPos.toNat + (b.2.val.bytes SER_DISK).length < 2 ^ 32))

/-- The conditions of the verification at a time. -/
def IsChecked (env : Env) (nAdjustedTime : ℤ) (db : ChainDB) : Prop :=
  db.EndsBelow ∧ (∀ b ∈ db.chain, ∀ tx ∈ b.2.val.vtx, tx.getHash env.crypto ≠ 0)
    ∧ ∀ b ∈ db.chain, b.2.val.checkBlock env nAdjustedTime = true

instance (env : Env) (nAdjustedTime : ℤ) : DecidablePred (IsChecked env nAdjustedTime) :=
  fun db => inferInstanceAs (Decidable (db.EndsBelow
    ∧ (∀ b ∈ db.chain, ∀ tx ∈ b.2.val.vtx, tx.getHash env.crypto ≠ 0)
    ∧ ∀ b ∈ db.chain, b.2.val.checkBlock env nAdjustedTime = true))

/-- The verification of the first 31 blocks, and of the 32nd on top of them. -/
theorem repeatingRun_evaluated :
  (repeatingRun 31).map (fun r => (decide (IsChecked sampleEnv 1774999999 r.1),
      (r.1.verifyBlocks sampleEnv 6 1774999999 2).map Option.isSome)) = some (true, some false)
    ∧ (repeatingRun 32).map (fun r => (decide (IsChecked sampleEnv 1774999999 r.1),
      (r.1.verifyBlocks sampleEnv 5 1774999999 1).map Option.isSome)) = some (true, some true)
  := by
  -- one evaluation, because the longer run contains the shorter one
  decide +kernel

/-- Before the coinbase is repeated the last blocks, one of which spends it, pass all levels. -/
theorem repeatingRun_verified :
  ∃ db ops, (start BlockFiles.empty sampleFirst.entry).run sampleEnv ops = some db
    ∧ db.verifyBlocks sampleEnv 6 1774999999 2 = some none
    ∧ ¬SpendsRepeatedFrom sampleEnv db (db.lowestHeight 2)
  := by
  obtain ⟨⟨db, ops⟩, hrun, heq⟩ := Option.map_eq_some_iff.mp repeatingRun_evaluated.1
  obtain ⟨hchecked, hverify⟩ := Prod.mk.inj heq
  obtain ⟨fork, hfork, hnone⟩ := Option.map_eq_some_iff.mp hverify
  obtain rfl : fork = none := by simpa using hnone
  obtain ⟨hend, hzero, hcheck⟩ := of_decide_eq_true hchecked
  refine ⟨db, ops, run_of_repeatingRun hrun, hfork, ?_⟩
  obtain hlevel | hnot := (verifyBlocks_eq_none_iff (run_of_repeatingRun hrun) hend hzero 1774999999
    hcheck 6 2).mp hfork
  · exact absurd hlevel (by decide)
  · exact hnot

/-- When the coinbase is repeated on top, the fifth level takes the block that spent it for bad. -/
theorem repeatingRun_false_alarm :
  ∃ db ops fork, (start BlockFiles.empty sampleFirst.entry).run sampleEnv ops = some db
    ∧ IsChecked sampleEnv 1774999999 db
    ∧ db.verifyBlocks sampleEnv 5 1774999999 1 = some (some fork)
  := by
  obtain ⟨⟨db, ops⟩, hrun, heq⟩ := Option.map_eq_some_iff.mp repeatingRun_evaluated.2
  obtain ⟨hchecked, hverify⟩ := Prod.mk.inj heq
  obtain ⟨fork, hfork, hsome⟩ := Option.map_eq_some_iff.mp hverify
  obtain ⟨pindex, rfl⟩ := Option.isSome_iff_exists.mp hsome
  exact ⟨db, ops, pindex, run_of_repeatingRun hrun, of_decide_eq_true hchecked, hfork⟩

end ChainDB

end CorgiCoin
