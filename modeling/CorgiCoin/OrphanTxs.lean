import CorgiCoin.MemPool
import CorgiCoin.Lib.Transition
import Mathlib.Algebra.Order.BigOperators.Group.List

/-!
# The orphan-transaction pool

A transaction with missing inputs waits in `mapOrphanTransactions`, and once more under each
transaction it spends from in `mapOrphanTransactionsByPrev`.  When a transaction is accepted the
handler of the `tx` message tries those that wait for it, and then those that wait for each of
these.  The handler looks the waiting ones up with `operator[]`, which makes an empty entry where
there is none.
-/

namespace CorgiCoin

open Std Codec Transition

def MAX_ORPHAN_TRANSACTIONS : UInt32 := MAX_BLOCK_SIZE / 100

def DEFAULT_MAX_MESSAGE_SIZE : ℕ := 5000

/-- The payload of a `tx` message that can be read, with the transaction read from it.  The pool
keeps the payload, and reads the transaction from it again each time. -/
structure TxMsg where
  vMsg : Bytes
  tx : CTransaction
  rest : Bytes
  read : CTransaction.unserialize.run vMsg = some (tx, rest)

/-- The payload read; `none` where the stream throws. -/
def TxMsg.ofBytes (vMsg : Bytes) : Option TxMsg :=
  match h : CTransaction.unserialize.run vMsg with
  | none => none
  | some (tx, rest) => some ⟨vMsg, tx, rest, h⟩

/-- The transactions that wait for one transaction. -/
abbrev Waiting := ExtTreeMap uint256 TxMsg compare

structure OrphanTxs where
  mapOrphanTransactions : ExtTreeMap uint256 TxMsg compare
  mapOrphanTransactionsByPrev : ExtTreeMap uint256 Waiting compare

/-- What `AcceptToMemoryPool` reads besides the memory pool while a message is handled. -/
structure PoolContext where
  disk : CDiskTxPos → Option CTransaction
  txIndex : TxIndexMap
  pindexBest : CBlockIndex
  /-- Whether the limit on free transactions would reject the transaction of the given call. -/
  fRateLimited : ℕ → Bool

/-- A `tx` message with what it meets: the memory pool it comes to, and the random hashes that
evictions draw. -/
structure TxEvent where
  vRecv : Bytes
  mempool : CTxMemPool
  context : PoolContext
  rand : ℕ → uint256

namespace OrphanTxs

/-- The pool a node starts with. -/
def empty : OrphanTxs := ⟨∅, ∅⟩

variable (env : Env)

/-! ## Adding and erasing -/

/-- `mapOrphanTransactionsByPrev[txin.prevout.hash].insert({hash, pvMsg})` -/
def addInput (msg : TxMsg) (byPrev : ExtTreeMap uint256 Waiting compare) (txin : CTxIn) :
    ExtTreeMap uint256 Waiting compare :=
  byPrev.insert txin.prevout.hash
    ((byPrev[txin.prevout.hash]?.getD ∅).insertIfNew (msg.tx.getHash env.crypto) msg)

def addOrphanTx (orphans : OrphanTxs) (msg : TxMsg) : OrphanTxs :=
  let hash := msg.tx.getHash env.crypto
  if orphans.mapOrphanTransactions.contains hash then orphans
  else if msg.vMsg.length > DEFAULT_MAX_MESSAGE_SIZE then orphans
  else
    { mapOrphanTransactions := orphans.mapOrphanTransactions.insert hash msg
      mapOrphanTransactionsByPrev :=
        msg.tx.vin.foldl (addInput env msg) orphans.mapOrphanTransactionsByPrev }

/-- The body of the loop of `EraseOrphanTx`. -/
def eraseInput (hash : uint256) (byPrev : ExtTreeMap uint256 Waiting compare) (txin : CTxIn) :
    ExtTreeMap uint256 Waiting compare :=
  let waiting := (byPrev[txin.prevout.hash]?.getD ∅).erase hash
  let byPrev := byPrev.insert txin.prevout.hash waiting
  if waiting.isEmpty then byPrev.erase txin.prevout.hash else byPrev

def eraseOrphanTx (orphans : OrphanTxs) (hash : uint256) : OrphanTxs :=
  match orphans.mapOrphanTransactions[hash]? with
  | none => orphans
  | some msg =>
    { mapOrphanTransactionsByPrev :=
        msg.tx.vin.foldl (eraseInput hash) orphans.mapOrphanTransactionsByPrev
      mapOrphanTransactions := orphans.mapOrphanTransactions.erase hash }

/-- The entry a random hash picks: the first one not below it, or else the first one. -/
def randomEntry (orphans : OrphanTxs) (rand : uint256) : Option (uint256 × TxMsg) :=
  (orphans.mapOrphanTransactions.toList.find? (fun entry => decide (rand ≤ entry.1))).or
    orphans.mapOrphanTransactions.toList.head?

/-- The loop of `LimitOrphanTxSize`.  Each turn makes the map smaller, so that its size is fuel
enough. -/
def limitLoop (nMaxOrphans : UInt32) (rand : ℕ → uint256) : ℕ → ℕ → OrphanTxs → OrphanTxs
  | 0, _, orphans => orphans
  | fuel + 1, nEvicted, orphans =>
    if nMaxOrphans.toNat < orphans.mapOrphanTransactions.size then
      match randomEntry orphans (rand nEvicted) with
      | none => orphans
      | some it =>
        limitLoop nMaxOrphans rand fuel (nEvicted + 1) (eraseOrphanTx orphans it.1)
    else orphans

/-- `LimitOrphanTxSize`, without the number of evictions, which is only logged. -/
def limitOrphanTxSize (orphans : OrphanTxs) (nMaxOrphans : UInt32) (rand : ℕ → uint256) :
    OrphanTxs :=
  limitLoop nMaxOrphans rand orphans.mapOrphanTransactions.size 0 orphans

/-! ## The `tx` message -/

/-- The value `accept` leaves in `*pfMissingInputs`: it got as far as fetching the inputs, and a
previous transaction is not there. -/
def missingInputs (context : PoolContext) (pool : CTxMemPool) (tx : CTransaction) : Bool :=
  if !tx.checkTransaction then false
  else if tx.isCoinBase then false
  else if tx.nLockTime.toNat > 0x7fffffff then false
  else if !env.network.fTestNet && !tx.isStandard env then false
  else if pool.mapTx.contains (tx.getHash env.crypto) then false
  else if context.txIndex.contains (tx.getHash env.crypto) then false
  else if tx.vin.any (fun txin => pool.mapNextTx.contains txin.prevout) then false
  else
    match tx.fetchInputs ⟨context.disk, pool.mapTx⟩ context.txIndex ∅ false false with
    | .error .missing => true
    | _ => false

/-- `tx.AcceptToMemoryPool(txdb, true, &fMissingInputs)`, the given call of it. -/
def acceptToMemoryPool (context : PoolContext) (call : ℕ) (pool : CTxMemPool)
    (tx : CTransaction) : Option CTxMemPool × Bool :=
  (pool.accept env context.disk context.txIndex context.pindexBest tx true
      (context.fRateLimited call),
    missingInputs env context pool tx)

/-- The variables of the loop over the work queue. -/
structure Work where
  mempool : CTxMemPool
  /-- The number of calls of `AcceptToMemoryPool` so far. -/
  calls : ℕ
  vWorkQueue : List uint256
  vEraseQueue : List uint256

/-- The body of the inner loop: one transaction that waited is tried. -/
def tryOrphan (context : PoolContext) (work : Work) (msg : TxMsg) : Work :=
  let hash := msg.tx.getHash env.crypto
  match acceptToMemoryPool env context work.calls work.mempool msg.tx with
  | (some mempool, _) =>
    { mempool
      calls := work.calls + 1
      vWorkQueue := work.vWorkQueue ++ [hash]
      vEraseQueue := work.vEraseQueue ++ [hash] }
  | (none, fMissingInputs2) =>
    { work with
      calls := work.calls + 1
      vEraseQueue := if fMissingInputs2 then work.vEraseQueue else work.vEraseQueue ++ [hash] }

/-- `mapOrphanTransactionsByPrev[hashPrev]`, which makes an empty entry where there is none. -/
def lookup (byPrev : ExtTreeMap uint256 Waiting compare) (hashPrev : uint256) :
    Waiting × ExtTreeMap uint256 Waiting compare :=
  match byPrev[hashPrev]? with
  | some waiting => (waiting, byPrev)
  | none => (∅, byPrev.insert hashPrev ∅)

/-- The loop over the work queue, from its entry `i` on. -/
def workLoop (context : PoolContext) :
    ℕ → ℕ → ExtTreeMap uint256 Waiting compare → Work →
      ExtTreeMap uint256 Waiting compare × Work
  | 0, _, byPrev, work => (byPrev, work)
  | fuel + 1, i, byPrev, work =>
    match work.vWorkQueue[i]? with
    | none => (byPrev, work)
    | some hashPrev =>
      let (waiting, byPrev) := lookup byPrev hashPrev
      workLoop context fuel (i + 1) byPrev
        (waiting.toList.foldl (fun work item => tryOrphan env context work item.2) work)

/-- The loop over the work queue after the transaction with the given hash was accepted.  Each
orphan is accepted at most once, so that their number bounds the turns of the loop. -/
def processQueue (orphans : OrphanTxs) (context : PoolContext) (mempool : CTxMemPool)
    (hash : uint256) : ExtTreeMap uint256 Waiting compare × Work :=
  workLoop env context (orphans.mapOrphanTransactions.size + 1) 0
    orphans.mapOrphanTransactionsByPrev ⟨mempool, 1, [hash], [hash]⟩

/-- `ProcessMessage` of a `tx` message, as far as the orphans go. -/
def processTx (orphans : OrphanTxs) (event : TxEvent) : OrphanTxs :=
  match TxMsg.ofBytes event.vRecv with
  | none => orphans
  | some msg =>
    match acceptToMemoryPool env event.context 0 event.mempool msg.tx with
    | (some mempool, _) =>
      let (byPrev, work) :=
        processQueue env orphans event.context mempool (msg.tx.getHash env.crypto)
      work.vEraseQueue.foldl eraseOrphanTx
        { orphans with mapOrphanTransactionsByPrev := byPrev }
    | (none, fMissingInputs) =>
      if fMissingInputs then
        limitOrphanTxSize (addOrphanTx env orphans msg) MAX_ORPHAN_TRANSACTIONS event.rand
      else orphans

/-! ## What the pool keeps -/

/-- The message that waits for `hashPrev` under `hash`. -/
def waits (byPrev : ExtTreeMap uint256 Waiting compare) (hashPrev hash : uint256) :
    Option TxMsg :=
  byPrev[hashPrev]?.bind (fun waiting => waiting[hash]?)

/-- Nothing waits under a key of its own: no key has an empty inner map. -/
def NoEmptyKey (byPrev : ExtTreeMap uint256 Waiting compare) : Prop :=
  ∀ (hashPrev : uint256) waiting, byPrev[hashPrev]? = some waiting → waiting.isEmpty = false

/-- The transaction spends an output of the one with the given hash. -/
def SpendsFrom (tx : CTransaction) (hashPrev : uint256) : Prop :=
  ∃ txin ∈ tx.vin, txin.prevout.hash = hashPrev

instance (tx : CTransaction) (hashPrev : uint256) : Decidable (SpendsFrom tx hashPrev) :=
  inferInstanceAs (Decidable (∃ txin ∈ tx.vin, txin.prevout.hash = hashPrev))

/-- The pool holds transactions under their hashes, and files each exactly under those it spends
from. -/
structure Indexed (orphans : OrphanTxs) : Prop where
  key : ∀ (hash : uint256) msg, orphans.mapOrphanTransactions[hash]? = some msg →
    msg.tx.getHash env.crypto = hash ∧ msg.vMsg.length ≤ DEFAULT_MAX_MESSAGE_SIZE
  by_prev : ∀ hashPrev hash msg,
    waits orphans.mapOrphanTransactionsByPrev hashPrev hash = some msg ↔
      orphans.mapOrphanTransactions[hash]? = some msg ∧ SpendsFrom msg.tx hashPrev

variable {env} {orphans : OrphanTxs} {byPrev : ExtTreeMap uint256 Waiting compare}

/-! ### The number of inputs -/

theorem takes_readCompactSize :
  Takes 1 readCompactSize
  := by
  rw [readCompactSize]
  apply (takes_readLE 1).bind
  intro chSize
  have hret : ∀ nSizeRet : ℕ, Takes 0 (do
      if nSizeRet > MAX_SIZE then failure
      return nSizeRet : Reader ℕ) := by
    intro nSizeRet
    dsimp only
    split
    · intro bs a rest hrun
      cases hrun
    · apply takes_pure
  dsimp only
  split
  · apply (takes_pure chSize).bind hret
  · split
    · apply (takes_readLE 2).zero.bind hret
    · split
      · apply (takes_readLE 4).zero.bind hret
      · apply (takes_readLE 8).zero.bind hret

theorem takes_unserializeUInt :
  Takes 4 unserializeUInt
  := (takes_readLE 4).bind (fun _ => takes_pure _)

theorem takes_unserializeBytes :
  Takes 1 unserializeBytes
  := takes_readCompactSize.bind (fun nSize => (takes_takeBytes nSize).zero)

theorem takes_outpoint :
  Takes 32 COutPoint.unserialize
  := by
  rw [COutPoint.unserialize]
  apply Takes.bind ((takes_readLE 32).bind (fun _ => takes_pure _))
  intro hash
  apply (takes_unserializeUInt.bind (fun _ => takes_pure _)).zero

theorem takes_txin :
  Takes 32 CTxIn.unserialize
  := by
  rw [CTxIn.unserialize]
  apply takes_outpoint.bind
  intro prevout
  apply takes_unserializeBytes.zero.bind
  intro scriptSig
  apply (takes_unserializeUInt.bind (fun _ => takes_pure _)).zero

/-- A message has no more inputs than bytes. -/
theorem length_vin_le (msg : TxMsg) :
  msg.tx.vin.length ≤ msg.vMsg.length
  := by
  obtain ⟨nVersion, mid, hversion, hrest⟩ := run_bind_eq_some msg.read
  obtain ⟨vin, mid', hvin, hrest⟩ := run_bind_eq_some hrest
  obtain ⟨vout, _, -, hrest⟩ := run_bind_eq_some hrest
  obtain ⟨nLockTime, _, -, hpure⟩ := run_bind_eq_some hrest
  obtain ⟨nSize, _, hsize, hmany⟩ := run_bind_eq_some hvin
  have htx : vin = msg.tx.vin := congrArg (fun pair => pair.1.vin) (Option.some.inj hpure)
  have hversion' := (takes_unserializeUInt.bind (fun _ => takes_pure _)) _ _ _ hversion
  have hsize' := takes_readCompactSize _ _ _ hsize
  have hlength := length_of_readMany takes_txin hmany
  rw [← htx]
  omega

/-! ### `AddOrphanTx` -/

theorem getElem?_insertIfNew_ite
    (waiting : Waiting) (hash hash' : uint256) (msg : TxMsg) :
  (waiting.insertIfNew hash msg)[hash']?
    = if hash = hash' then waiting[hash']?.or (some msg) else waiting[hash']?
  := by
  rw [ExtTreeMap.getElem?_insertIfNew]
  split_ifs with h1 h2 h3
  · obtain ⟨heq, hnew⟩ := h1
    rw [LawfulEqCmp.eq_of_compare heq] at hnew
    rw [ExtTreeMap.getElem?_eq_none hnew, Option.none_or]
  · exact absurd (LawfulEqCmp.eq_of_compare h1.1) h2
  · subst h3
    have hmem : hash ∈ waiting := by
      by_contra hnot
      exact h1 ⟨ReflCmp.compare_self, hnot⟩
    obtain ⟨msg', hmsg'⟩ := Option.isSome_iff_exists.mp
      (ExtTreeMap.mem_iff_isSome_getElem?.mp hmem)
    rw [hmsg', Option.some_or]
  · rfl

theorem waits_addInput
    (msg : TxMsg) (txin : CTxIn) (hashPrev hash : uint256) :
  waits (addInput env msg byPrev txin) hashPrev hash
    = if txin.prevout.hash = hashPrev ∧ msg.tx.getHash env.crypto = hash then
        (waits byPrev hashPrev hash).or (some msg)
      else waits byPrev hashPrev hash
  := by
  rw [waits, addInput, TreeMap.getElem?_insert_ite]
  by_cases hprev : txin.prevout.hash = hashPrev
  · rw [if_pos hprev, hprev, Option.bind_some, getElem?_insertIfNew_ite, waits]
    cases byPrev[hashPrev]? with
    | none => simp
    | some waiting => simp
  · rw [if_neg hprev, if_neg (fun h => hprev h.1), waits]

/-- The loop of `AddOrphanTx` files the message under all it spends from. -/
theorem waits_foldl_addInput
    (msg : TxMsg) (vin : List CTxIn) (hashPrev hash : uint256) :
  waits (vin.foldl (addInput env msg) byPrev) hashPrev hash
    = if (∃ txin ∈ vin, txin.prevout.hash = hashPrev) ∧ msg.tx.getHash env.crypto = hash then
        (waits byPrev hashPrev hash).or (some msg)
      else waits byPrev hashPrev hash
  := by
  induction vin generalizing byPrev with
  | nil => simp
  | cons txin vin ih =>
    rw [List.foldl_cons, ih, waits_addInput]
    simp only [List.mem_cons, exists_eq_or_imp]
    split_ifs with h1 h2 h3 h3
    · simp
    · grind
    · rfl
    · grind
    · rfl
    · grind
    · grind
    · rfl

theorem noEmptyKey_foldl_addInput
    (h : NoEmptyKey byPrev) (msg : TxMsg) (vin : List CTxIn) :
  NoEmptyKey (vin.foldl (addInput env msg) byPrev)
  := by
  induction vin generalizing byPrev with
  | nil => apply h
  | cons txin vin ih =>
    apply ih
    intro hashPrev waiting hget
    rw [addInput, TreeMap.getElem?_insert_ite] at hget
    split_ifs at hget with hprev
    · cases hget
      rw [ExtTreeMap.isEmpty_eq_false_iff]
      intro hempty
      have hmem : msg.tx.getHash env.crypto
          ∈ (byPrev[txin.prevout.hash]?.getD ∅).insertIfNew (msg.tx.getHash env.crypto) msg :=
        ExtTreeMap.mem_insertIfNew_self
      rw [hempty] at hmem
      exact ExtTreeMap.not_mem_empty hmem
    · apply h hashPrev waiting hget

theorem indexed_addOrphanTx
    (h : Indexed env orphans) (msg : TxMsg) :
  Indexed env (addOrphanTx env orphans msg)
  := by
  rw [addOrphanTx]
  split
  case isTrue => apply h
  case isFalse hnew =>
    split
    case isTrue => apply h
    case isFalse hsize =>
      have hnone : orphans.mapOrphanTransactions[msg.tx.getHash env.crypto]? = none :=
        ExtTreeMap.getElem?_eq_none_of_contains_eq_false (Bool.not_eq_true _ ▸ hnew)
      have hwaits : ∀ hashPrev, waits orphans.mapOrphanTransactionsByPrev hashPrev
          (msg.tx.getHash env.crypto) = none := by
        intro hashPrev
        by_contra hne
        obtain ⟨msg', hmsg'⟩ := Option.ne_none_iff_exists'.mp hne
        rw [h.by_prev, hnone] at hmsg'
        cases hmsg'.1
      constructor
      · intro hash msg' hget
        rw [TreeMap.getElem?_insert_ite] at hget
        split_ifs at hget with heq
        · cases hget
          exact ⟨heq, Nat.le_of_not_lt hsize⟩
        · apply h.key hash msg' hget
      · intro hashPrev hash msg'
        rw [waits_foldl_addInput, TreeMap.getElem?_insert_ite]
        by_cases heq : msg.tx.getHash env.crypto = hash
        · rw [if_pos heq, ← heq, hwaits, Option.none_or, Option.some_inj]
          split_ifs with hspends
          · rw [Option.some_inj, iff_self_and]
            rintro rfl
            apply hspends.1
          · refine ⟨nofun, ?_⟩
            rintro ⟨rfl, hspends'⟩
            exact absurd ⟨hspends', rfl⟩ hspends
        · rw [if_neg heq, if_neg (fun hand => heq hand.2), h.by_prev]

theorem noEmptyKey_addOrphanTx
    (h : NoEmptyKey orphans.mapOrphanTransactionsByPrev) (msg : TxMsg) :
  NoEmptyKey (addOrphanTx env orphans msg).mapOrphanTransactionsByPrev
  := by
  rw [addOrphanTx]
  split
  · apply h
  · split
    · apply h
    · apply noEmptyKey_foldl_addInput h

/-! ### `EraseOrphanTx` -/

variable {hash hashPrev : uint256}

theorem getElem?_eraseInput_of_ne
    {txin : CTxIn} (hne : txin.prevout.hash ≠ hashPrev) :
  (eraseInput hash byPrev txin)[hashPrev]? = byPrev[hashPrev]?
  := by
  rw [eraseInput]
  split
  · rw [TreeMap.getElem?_erase_of_ne hne, TreeMap.getElem?_insert_of_ne hne]
  · rw [TreeMap.getElem?_insert_of_ne hne]

/-- The entry of the transaction an input spends from, after it: gone if nothing else waits. -/
theorem getElem?_eraseInput_self
    (hash : uint256) (txin : CTxIn) :
  (eraseInput hash byPrev txin)[txin.prevout.hash]?
    = if ((byPrev[txin.prevout.hash]?.getD ∅).erase hash).isEmpty then none
      else some ((byPrev[txin.prevout.hash]?.getD ∅).erase hash)
  := by
  rw [eraseInput]
  split
  · rw [ExtTreeMap.getElem?_erase_self]
  · rw [ExtTreeMap.getElem?_insert_self]

theorem waits_eraseInput
    (hash : uint256) (txin : CTxIn) (hashPrev hash' : uint256) :
  waits (eraseInput hash byPrev txin) hashPrev hash'
    = if txin.prevout.hash = hashPrev ∧ hash = hash' then none
      else waits byPrev hashPrev hash'
  := by
  by_cases hprev : txin.prevout.hash = hashPrev
  · subst hprev
    have hold : waits byPrev txin.prevout.hash hash' = (byPrev[txin.prevout.hash]?.getD ∅)[hash']? := by
      rw [waits]
      cases byPrev[txin.prevout.hash]? with
      | none => simp
      | some waiting => rfl
    have herase : ((byPrev[txin.prevout.hash]?.getD ∅).erase hash)[hash']?
        = if hash = hash' then none else waits byPrev txin.prevout.hash hash' := by
      rw [TreeMap.getElem?_erase_ite, hold]
    rw [waits, getElem?_eraseInput_self]
    simp only [true_and, ← herase]
    split
    case isTrue hempty =>
      rw [ExtTreeMap.isEmpty_iff.mp hempty, ExtTreeMap.getElem?_empty, Option.bind_none]
    case isFalse => rw [Option.bind_some]
  · rw [waits, getElem?_eraseInput_of_ne hprev, if_neg (fun h => hprev h.1), waits]

theorem waits_foldl_eraseInput
    (hash : uint256) (vin : List CTxIn) (hashPrev hash' : uint256) :
  waits (vin.foldl (eraseInput hash) byPrev) hashPrev hash'
    = if (∃ txin ∈ vin, txin.prevout.hash = hashPrev) ∧ hash = hash' then none
      else waits byPrev hashPrev hash'
  := by
  induction vin generalizing byPrev with
  | nil => simp
  | cons txin vin ih =>
    rw [List.foldl_cons, ih, waits_eraseInput]
    simp only [List.mem_cons, exists_eq_or_imp]
    split_ifs with h1 h2 h3 h3
    · rfl
    · grind
    · rfl
    · grind
    · grind
    · rfl

theorem getElem?_foldl_eraseInput
    {vin : List CTxIn} (hne : ∀ txin ∈ vin, txin.prevout.hash ≠ hashPrev) (hash : uint256) :
  (vin.foldl (eraseInput hash) byPrev)[hashPrev]? = byPrev[hashPrev]?
  := by
  induction vin generalizing byPrev with
  | nil => rfl
  | cons txin vin ih =>
    obtain ⟨hfirst, hrest⟩ := List.forall_mem_cons.mp hne
    rw [List.foldl_cons, ih hrest, getElem?_eraseInput_of_ne hfirst]

theorem noEmptyKey_foldl_eraseInput
    (h : NoEmptyKey byPrev) (hash : uint256) (vin : List CTxIn) :
  NoEmptyKey (vin.foldl (eraseInput hash) byPrev)
  := by
  induction vin generalizing byPrev with
  | nil => apply h
  | cons txin vin ih =>
    apply ih
    intro hashPrev waiting hget
    by_cases hprev : txin.prevout.hash = hashPrev
    · subst hprev
      rw [getElem?_eraseInput_self] at hget
      split_ifs at hget with hempty
      cases hget
      apply Bool.eq_false_of_not_eq_true hempty
    · rw [getElem?_eraseInput_of_ne hprev] at hget
      apply h hashPrev waiting hget

theorem indexed_eraseOrphanTx
    (h : Indexed env orphans) (hash : uint256) :
  Indexed env (eraseOrphanTx orphans hash)
  := by
  rw [eraseOrphanTx]
  split
  case h_1 => apply h
  case h_2 msg hmsg =>
    constructor
    · intro hash' msg' hget
      rw [TreeMap.getElem?_erase_ite] at hget
      split_ifs at hget with heq
      apply h.key hash' msg' hget
    · intro hashPrev hash' msg'
      rw [waits_foldl_eraseInput, TreeMap.getElem?_erase_ite]
      by_cases heq : hash = hash'
      · subst heq
        rw [if_pos rfl]
        split_ifs with hspends
        · simp
        · rw [h.by_prev, hmsg, Option.some_inj]
          refine ⟨?_, nofun⟩
          rintro ⟨rfl, hspends'⟩
          exact absurd ⟨hspends', rfl⟩ hspends
      · rw [if_neg heq, if_neg (fun hand => heq hand.2), h.by_prev]

theorem noEmptyKey_eraseOrphanTx
    (h : NoEmptyKey orphans.mapOrphanTransactionsByPrev) (hash : uint256) :
  NoEmptyKey (eraseOrphanTx orphans hash).mapOrphanTransactionsByPrev
  := by
  rw [eraseOrphanTx]
  split
  · apply h
  · apply noEmptyKey_foldl_eraseInput h

/-- An empty entry stays where no orphan spends from its key. -/
theorem getElem?_eraseOrphanTx
    (hnone : ∀ (hash : uint256) msg, orphans.mapOrphanTransactions[hash]? = some msg →
      ¬SpendsFrom msg.tx hashPrev) (hash : uint256) :
  (eraseOrphanTx orphans hash).mapOrphanTransactionsByPrev[hashPrev]?
    = orphans.mapOrphanTransactionsByPrev[hashPrev]?
  := by
  rw [eraseOrphanTx]
  split
  case h_1 => rfl
  case h_2 msg hmsg =>
    apply getElem?_foldl_eraseInput
    intro txin hmem heq
    exact hnone hash msg hmsg ⟨txin, hmem, heq⟩

theorem size_eraseOrphanTx_le (hash : uint256) :
  (eraseOrphanTx orphans hash).mapOrphanTransactions.size ≤ orphans.mapOrphanTransactions.size
  := by
  rw [eraseOrphanTx]
  split
  · apply le_rfl
  · apply ExtTreeMap.size_erase_le

/-! ### `LimitOrphanTxSize` -/

variable {msg : TxMsg}

theorem size_eraseOrphanTx
    (hmem : orphans.mapOrphanTransactions[hash]? = some msg) :
  (eraseOrphanTx orphans hash).mapOrphanTransactions.size
    = orphans.mapOrphanTransactions.size - 1
  := by
  rw [eraseOrphanTx, hmem, ExtTreeMap.size_erase, if_pos]
  rw [ExtTreeMap.contains_iff_mem, ExtTreeMap.mem_iff_isSome_getElem?, hmem]
  rfl

theorem limitLoop_spec
    (h : Indexed env orphans) (nMaxOrphans : UInt32) (rand : ℕ → uint256) {fuel : ℕ}
    (nEvicted : ℕ) (hfuel : orphans.mapOrphanTransactions.size ≤ fuel) :
  Indexed env (limitLoop nMaxOrphans rand fuel nEvicted orphans) ∧
    (limitLoop nMaxOrphans rand fuel nEvicted orphans).mapOrphanTransactions.size
      ≤ nMaxOrphans.toNat ∧
    (NoEmptyKey orphans.mapOrphanTransactionsByPrev →
      NoEmptyKey (limitLoop nMaxOrphans rand fuel nEvicted orphans).mapOrphanTransactionsByPrev)
  := by
  induction fuel generalizing nEvicted orphans with
  | zero =>
    refine ⟨h, ?_, id⟩
    rw [limitLoop]
    omega
  | succ fuel ih =>
    rw [limitLoop]
    split
    case isTrue hover =>
      have hempty : orphans.mapOrphanTransactions.isEmpty = false := by
        rw [ExtTreeMap.isEmpty_eq_size_beq_zero, beq_eq_false_iff_ne]
        apply Nat.ne_zero_of_lt hover
      obtain ⟨it, hit⟩ : ∃ it, randomEntry orphans (rand nEvicted) = some it :=
        TreeMap.exists_first hempty _
      have hsize : (eraseOrphanTx orphans it.1).mapOrphanTransactions.size ≤ fuel := by
        rw [size_eraseOrphanTx (TreeMap.getElem?_of_first hit)]
        omega
      obtain ⟨hindexed, hle, hkeep⟩ := ih (indexed_eraseOrphanTx h it.1) (nEvicted + 1) hsize
      simp only [hit]
      exact ⟨hindexed, hle, fun hempty => hkeep (noEmptyKey_eraseOrphanTx hempty it.1)⟩
    case isFalse hover => exact ⟨h, Nat.le_of_not_lt hover, id⟩

/-! ### The work queue

`cascade` is the loop over the work queue for a fixed list of messages that wait for each
transaction: it says which transactions a message brings into the memory pool, whatever the
lookups do to the index. -/

variable (env) in
def cascade (waiting : uint256 → List TxMsg) (context : PoolContext) : ℕ → ℕ → Work → Work
  | 0, _, work => work
  | fuel + 1, i, work =>
    match work.vWorkQueue[i]? with
    | none => work
    | some hashPrev =>
      cascade waiting context fuel (i + 1)
        ((waiting hashPrev).foldl (tryOrphan env context) work)

/-- The messages that wait for a transaction, in the order of their hashes. -/
def waitingFor (byPrev : ExtTreeMap uint256 Waiting compare) (hashPrev : uint256) : List TxMsg :=
  (byPrev[hashPrev]?.getD ∅).toList.map Prod.snd

theorem prefix_tryOrphan (context : PoolContext) (work : Work) (msg : TxMsg) :
  work.vWorkQueue <+: (tryOrphan env context work msg).vWorkQueue
  := by
  rw [tryOrphan]
  split
  · apply List.prefix_append
  · apply List.prefix_rfl

theorem prefix_foldl_tryOrphan (context : PoolContext) (work : Work) (msgs : List TxMsg) :
  work.vWorkQueue <+: (msgs.foldl (tryOrphan env context) work).vWorkQueue
  := by
  induction msgs generalizing work with
  | nil => apply List.prefix_rfl
  | cons msg msgs ih => apply (prefix_tryOrphan context work msg).trans (ih _)

theorem prefix_cascade
    (waiting : uint256 → List TxMsg) (context : PoolContext) (fuel i : ℕ) (work : Work) :
  work.vWorkQueue <+: (cascade env waiting context fuel i work).vWorkQueue
  := by
  induction fuel generalizing i work with
  | zero => apply List.prefix_rfl
  | succ fuel ih =>
    rw [cascade]
    split
    · apply List.prefix_rfl
    · apply (prefix_foldl_tryOrphan context work _).trans (ih _ _)

/-- Looking keys up: those that are not there get an empty entry. -/
def Touched (hashes : List uint256) (byPrev byPrev' : ExtTreeMap uint256 Waiting compare) :
    Prop :=
  ∀ hashPrev : uint256, byPrev'[hashPrev]?
    = byPrev[hashPrev]?.or (if hashPrev ∈ hashes then some ∅ else none)

theorem touched_lookup (byPrev : ExtTreeMap uint256 Waiting compare) (hash : uint256) :
  Touched [hash] byPrev (lookup byPrev hash).2
  := by
  intro hashPrev
  simp only [lookup, List.mem_singleton]
  split
  case h_1 waiting hget =>
    split_ifs with heq
    · rw [heq, hget, Option.some_or]
    · rw [Option.or_none]
  case h_2 hget =>
    rw [TreeMap.getElem?_insert_ite]
    split_ifs with h1 h2 h2
    · rw [← h1, hget, Option.none_or]
    · exact absurd h1.symm h2
    · exact absurd h2.symm h1
    · rw [Option.or_none]

variable {hashes : List uint256} {byPrev' : ExtTreeMap uint256 Waiting compare}

theorem Touched.cons
    {byPrev'' : ExtTreeMap uint256 Waiting compare}
    (h : Touched [hash] byPrev byPrev') (h' : Touched hashes byPrev' byPrev'') :
  Touched (hash :: hashes) byPrev byPrev''
  := by
  intro hashPrev
  rw [h' hashPrev, h hashPrev, Option.or_assoc]
  congr 1
  by_cases hfirst : hashPrev = hash
  · simp [hfirst]
  · simp [hfirst]

theorem Touched.waitingFor_eq
    (h : Touched hashes byPrev byPrev') :
  waitingFor byPrev' = waitingFor byPrev
  := by
  funext hashPrev
  rw [waitingFor, waitingFor, h hashPrev]
  cases byPrev[hashPrev]? with
  | some waiting => rfl
  | none =>
    rw [Option.none_or]
    split
    · rfl
    · rfl

/-- The loop of the handler does what `cascade` says, and touches the keys it looks up. -/
theorem workLoop_spec
    (env : Env) (context : PoolContext) (fuel i : ℕ)
    (byPrev : ExtTreeMap uint256 Waiting compare) (work : Work) :
  (workLoop env context fuel i byPrev work).2
      = cascade env (waitingFor byPrev) context fuel i work ∧
    Touched (((cascade env (waitingFor byPrev) context fuel i work).vWorkQueue.drop i).take fuel)
      byPrev (workLoop env context fuel i byPrev work).1
  := by
  induction fuel generalizing i byPrev work with
  | zero =>
    refine ⟨rfl, ?_⟩
    intro hashPrev
    simp [workLoop]
  | succ fuel ih =>
    rw [workLoop, cascade]
    split
    case h_1 hnone =>
      refine ⟨rfl, ?_⟩
      intro hashPrev
      rw [List.drop_eq_nil_of_le (List.getElem?_eq_none_iff.mp hnone)]
      simp
    case h_2 hash hhash =>
      have htouch := touched_lookup byPrev hash
      have hfold : (lookup byPrev hash).1.toList.foldl
            (fun work item => tryOrphan env context work item.2) work
          = (waitingFor byPrev hash).foldl (tryOrphan env context) work := by
        rw [waitingFor, List.foldl_map, lookup]
        split
        case h_1 waiting hget => rw [hget, Option.getD_some]
        case h_2 hget => rw [hget, Option.getD_none]
      obtain ⟨hwork, htouched⟩ := ih (i + 1) (lookup byPrev hash).2
        ((waitingFor byPrev hash).foldl (tryOrphan env context) work)
      rw [htouch.waitingFor_eq] at hwork htouched
      simp only [hfold]
      refine ⟨hwork, ?_⟩
      generalize hfinal : cascade env (waitingFor byPrev) context fuel (i + 1)
        ((waitingFor byPrev hash).foldl (tryOrphan env context) work) = final at hwork htouched ⊢
      -- the entry `i` of the final queue is the key looked up here
      have hentry : final.vWorkQueue[i]? = some hash := by
        have hprefix : work.vWorkQueue <+: final.vWorkQueue := by
          rw [← hfinal]
          apply (prefix_foldl_tryOrphan context work _).trans
          apply prefix_cascade
        obtain ⟨tail, htail⟩ := hprefix
        obtain ⟨hlt, -⟩ := List.getElem?_eq_some_iff.mp hhash
        rw [← htail, List.getElem?_append_left hlt, hhash]
      obtain ⟨hlt, hget⟩ := List.getElem?_eq_some_iff.mp hentry
      rw [List.drop_eq_getElem_cons hlt, hget, List.take_succ_cons]
      apply htouch.cons htouched

/-! The loop ends: with every transaction accepted the queue gets longer by one, and the orphans
that are not in the memory pool are fewer by one. -/

/-- The number of orphans that are not in the memory pool. -/
def unaccepted (orphans : OrphanTxs) (mempool : CTxMemPool) : ℕ :=
  orphans.mapOrphanTransactions.toList.countP (fun item => !mempool.mapTx.contains item.1)

theorem unaccepted_addUnchecked
    {mempool : CTxMemPool} (hmem : orphans.mapOrphanTransactions[hash]? = some msg)
    (hnew : mempool.mapTx[hash]? = none) (tx : CTransaction) :
  orphans.unaccepted (mempool.addUnchecked hash tx) + 1 ≤ orphans.unaccepted mempool
  := by
  have hcontains : ∀ hash', (mempool.addUnchecked hash tx).mapTx.contains hash'
      = (compare hash hash' == .eq || mempool.mapTx.contains hash') :=
    fun hash' => ExtTreeMap.contains_insert
  have hself : mempool.mapTx.contains hash = false := by
    rw [ExtTreeMap.contains_eq_isSome_getElem?, hnew]
    rfl
  rw [← ExtTreeMap.mem_toList_iff_getElem?_eq_some] at hmem
  obtain ⟨front, back, hsplit⟩ := List.append_of_mem hmem
  have hmono : ∀ items : List (uint256 × TxMsg),
      items.countP (fun item => !(mempool.addUnchecked hash tx).mapTx.contains item.1)
        ≤ items.countP (fun item => !mempool.mapTx.contains item.1) := by
    intro items
    apply List.countP_mono_left
    intro item _ hitem
    rw [hcontains] at hitem
    simp_all
  have hfront := hmono front
  have hback := hmono back
  have hhere : (mempool.addUnchecked hash tx).mapTx.contains hash = true := by
    rw [hcontains, (ReflCmp.compare_self : compare hash hash = .eq)]
    rfl
  rw [unaccepted, unaccepted, hsplit]
  simp only [List.countP_append, List.countP_cons, hhere, hself]
  simp only [Bool.not_true, Bool.not_false, if_true, Bool.false_eq_true, if_false]
  omega

/-- What waits is an orphan. -/
def AllOrphans (env : Env) (orphans : OrphanTxs) (msgs : List TxMsg) : Prop :=
  ∀ msg ∈ msgs, orphans.mapOrphanTransactions[msg.tx.getHash env.crypto]? = some msg

theorem length_tryOrphan
    {context : PoolContext} {work : Work}
    (hmem : orphans.mapOrphanTransactions[msg.tx.getHash env.crypto]? = some msg) :
  (tryOrphan env context work msg).vWorkQueue.length
      + orphans.unaccepted (tryOrphan env context work msg).mempool
    ≤ work.vWorkQueue.length + orphans.unaccepted work.mempool
  := by
  rw [tryOrphan]
  split
  case h_1 mempool _ haccept =>
    obtain ⟨-, -, hnew, -, rfl⟩ := CTxMemPool.accept_eq_some (congrArg Prod.fst haccept)
    have hless := unaccepted_addUnchecked hmem hnew msg.tx
    simp only [List.length_append, List.length_singleton]
    omega
  case h_2 => apply le_rfl

theorem length_foldl_tryOrphan
    {context : PoolContext} {work : Work} {msgs : List TxMsg}
    (h : AllOrphans env orphans msgs) :
  (msgs.foldl (tryOrphan env context) work).vWorkQueue.length
      + orphans.unaccepted (msgs.foldl (tryOrphan env context) work).mempool
    ≤ work.vWorkQueue.length + orphans.unaccepted work.mempool
  := by
  induction msgs generalizing work with
  | nil => apply le_rfl
  | cons msg msgs ih =>
    obtain ⟨hfirst, hrest⟩ := List.forall_mem_cons.mp h
    apply (ih hrest).trans (length_tryOrphan hfirst)

theorem length_cascade
    {waiting : uint256 → List TxMsg} (h : ∀ hashPrev, AllOrphans env orphans (waiting hashPrev))
    (context : PoolContext) (fuel i : ℕ) (work : Work) :
  (cascade env waiting context fuel i work).vWorkQueue.length
      + orphans.unaccepted (cascade env waiting context fuel i work).mempool
    ≤ work.vWorkQueue.length + orphans.unaccepted work.mempool
  := by
  induction fuel generalizing i work with
  | zero => apply le_rfl
  | succ fuel ih =>
    rw [cascade]
    split
    · apply le_rfl
    · apply (ih _ _).trans (length_foldl_tryOrphan (h _))

theorem Indexed.allOrphans
    (h : Indexed env orphans) (hashPrev : uint256) :
  AllOrphans env orphans (waitingFor orphans.mapOrphanTransactionsByPrev hashPrev)
  := by
  intro msg hmsg
  obtain ⟨⟨hash, msg'⟩, hitem, heq⟩ := List.mem_map.mp hmsg
  obtain rfl : msg' = msg := heq
  rw [ExtTreeMap.mem_toList_iff_getElem?_eq_some] at hitem
  have hwaits : waits orphans.mapOrphanTransactionsByPrev hashPrev hash = some msg' := by
    rw [waits]
    cases hget : orphans.mapOrphanTransactionsByPrev[hashPrev]? with
    | none =>
      rw [hget, Option.getD_none, ExtTreeMap.getElem?_empty] at hitem
      cases hitem
    | some waiting =>
      rw [hget, Option.getD_some] at hitem
      apply hitem
  have horphan := ((h.by_prev _ _ _).mp hwaits).1
  rw [(h.key _ _ horphan).1]
  apply horphan

/-- The transactions a message brings into the memory pool: its own, if it is accepted, and
those that waited and are accepted after it. -/
def accepted (env : Env) (orphans : OrphanTxs) (event : TxEvent) : List uint256 :=
  match TxMsg.ofBytes event.vRecv with
  | none => []
  | some msg =>
    match (acceptToMemoryPool env event.context 0 event.mempool msg.tx).1 with
    | none => []
    | some mempool =>
      let hash := msg.tx.getHash env.crypto
      (cascade env (waitingFor orphans.mapOrphanTransactionsByPrev) event.context
        (orphans.mapOrphanTransactions.size + 1) 0 ⟨mempool, 1, [hash], [hash]⟩).vWorkQueue

/-- Some orphan waits for each transaction that the message brings into the memory pool. -/
def Awaited (env : Env) (orphans : OrphanTxs) (event : TxEvent) : Prop :=
  ∀ hash ∈ accepted env orphans event, orphans.mapOrphanTransactionsByPrev.contains hash = true

/-- The loop over the work queue looks up every transaction accepted: it does not stop before
the end of the queue. -/
theorem processQueue_spec
    (h : Indexed env orphans) (context : PoolContext) (mempool : CTxMemPool) (hash : uint256) :
  Touched (cascade env (waitingFor orphans.mapOrphanTransactionsByPrev) context
      (orphans.mapOrphanTransactions.size + 1) 0 ⟨mempool, 1, [hash], [hash]⟩).vWorkQueue
    orphans.mapOrphanTransactionsByPrev (processQueue env orphans context mempool hash).1
  := by
  obtain ⟨-, htouched⟩ := workLoop_spec env context (orphans.mapOrphanTransactions.size + 1) 0
    orphans.mapOrphanTransactionsByPrev ⟨mempool, 1, [hash], [hash]⟩
  have hlength := length_cascade h.allOrphans context
    (orphans.mapOrphanTransactions.size + 1) 0 ⟨mempool, 1, [hash], [hash]⟩
  have hle : orphans.unaccepted mempool ≤ orphans.mapOrphanTransactions.size := by
    rw [← ExtTreeMap.length_toList]
    apply List.countP_le_length
  rw [List.drop_zero, List.take_of_length_le] at htouched
  · apply htouched
  · simp only [List.length_singleton] at hlength
    omega

theorem Touched.waits_eq
    (h : Touched hashes byPrev byPrev') (hashPrev hash : uint256) :
  waits byPrev' hashPrev hash = waits byPrev hashPrev hash
  := by
  rw [waits, waits, h hashPrev]
  cases byPrev[hashPrev]? with
  | some waiting => rfl
  | none =>
    rw [Option.none_or, Option.bind_none]
    split
    · apply ExtTreeMap.getElem?_empty
    · rfl

theorem Touched.indexed
    (htouched : Touched hashes orphans.mapOrphanTransactionsByPrev byPrev') (h : Indexed env orphans) :
  Indexed env { orphans with mapOrphanTransactionsByPrev := byPrev' }
  := by
  refine ⟨h.key, ?_⟩
  intro hashPrev hash msg
  rw [htouched.waits_eq, h.by_prev]

/-- Erasing a list of orphans. -/
theorem foldl_eraseOrphanTx
    (h : Indexed env orphans) (hashes : List uint256) :
  Indexed env (hashes.foldl eraseOrphanTx orphans) ∧
    (hashes.foldl eraseOrphanTx orphans).mapOrphanTransactions.size
      ≤ orphans.mapOrphanTransactions.size ∧
    (NoEmptyKey orphans.mapOrphanTransactionsByPrev →
      NoEmptyKey (hashes.foldl eraseOrphanTx orphans).mapOrphanTransactionsByPrev)
  := by
  induction hashes generalizing orphans with
  | nil => exact ⟨h, le_rfl, id⟩
  | cons hash hashes ih =>
    obtain ⟨hindexed, hle, hkeep⟩ := ih (indexed_eraseOrphanTx h hash)
    exact ⟨hindexed, hle.trans (size_eraseOrphanTx_le hash),
      fun hempty => hkeep (noEmptyKey_eraseOrphanTx hempty hash)⟩

theorem getElem?_of_eraseOrphanTx
    {hash' : uint256} (hget : (eraseOrphanTx orphans hash).mapOrphanTransactions[hash']? = some msg) :
  orphans.mapOrphanTransactions[hash']? = some msg
  := by
  rw [eraseOrphanTx] at hget
  split at hget
  · apply hget
  · rw [TreeMap.getElem?_erase_ite] at hget
    split_ifs at hget
    apply hget

/-- Erasing orphans that do not spend from a key leaves its entry. -/
theorem getElem?_foldl_eraseOrphanTx
    (hnone : ∀ (hash : uint256) msg, orphans.mapOrphanTransactions[hash]? = some msg →
      ¬SpendsFrom msg.tx hashPrev) (hashes : List uint256) :
  (hashes.foldl eraseOrphanTx orphans).mapOrphanTransactionsByPrev[hashPrev]?
    = orphans.mapOrphanTransactionsByPrev[hashPrev]?
  := by
  induction hashes generalizing orphans with
  | nil => rfl
  | cons hash hashes ih =>
    rw [List.foldl_cons, ih, getElem?_eraseOrphanTx hnone]
    intro hash' msg hget
    apply hnone hash' msg (getElem?_of_eraseOrphanTx hget)

/-- After the lookups and the erasures no key is empty exactly when all keys looked up were
there. -/
theorem noEmptyKey_touched_iff
    (htouched : Touched hashes orphans.mapOrphanTransactionsByPrev byPrev')
    (h : Indexed env orphans) (hempty : NoEmptyKey orphans.mapOrphanTransactionsByPrev)
    (erased : List uint256) :
  NoEmptyKey (erased.foldl eraseOrphanTx
      { orphans with mapOrphanTransactionsByPrev := byPrev' }).mapOrphanTransactionsByPrev
    ↔ ∀ hash ∈ hashes, orphans.mapOrphanTransactionsByPrev.contains hash = true
  := by
  constructor
  · intro hkeep hash hmem
    by_contra hmissing
    have hnone : orphans.mapOrphanTransactionsByPrev[hash]? = none :=
      ExtTreeMap.getElem?_eq_none_of_contains_eq_false (Bool.not_eq_true _ ▸ hmissing)
    -- nothing spends from a key that was not there, so that its empty entry stays
    have hspends : ∀ (hash' : uint256) msg, orphans.mapOrphanTransactions[hash']? = some msg →
        ¬SpendsFrom msg.tx hash := by
      intro hash' msg hget hspends
      have hwaits := (h.by_prev hash hash' msg).mpr ⟨hget, hspends⟩
      rw [waits, hnone] at hwaits
      cases hwaits
    have hentry : byPrev'[hash]? = some ∅ := by
      rw [htouched hash, hnone, Option.none_or, if_pos hmem]
    have hstays := @getElem?_foldl_eraseOrphanTx
      { orphans with mapOrphanTransactionsByPrev := byPrev' } hash hspends erased
    have hfalse := hkeep hash ∅ (hstays.trans hentry)
    rw [ExtTreeMap.isEmpty_empty] at hfalse
    cases hfalse
  · intro hall
    apply (foldl_eraseOrphanTx (htouched.indexed h) erased).2.2
    intro hashPrev waiting hget
    apply hempty hashPrev waiting
    have hlookup := htouched hashPrev
    rw [hget] at hlookup
    cases hold : orphans.mapOrphanTransactionsByPrev[hashPrev]? with
    | some waiting' =>
      rw [hold, Option.some_or] at hlookup
      exact hlookup.symm
    | none =>
      rw [hold, Option.none_or] at hlookup
      split_ifs at hlookup with hmem
      have hcontains := hall hashPrev hmem
      rw [ExtTreeMap.contains_eq_isSome_getElem?, hold] at hcontains
      cases hcontains

/-- What a message keeps. -/
theorem processTx_spec
    (h : Indexed env orphans)
    (hsize : orphans.mapOrphanTransactions.size ≤ MAX_ORPHAN_TRANSACTIONS.toNat)
    (event : TxEvent) :
  Indexed env (processTx env orphans event) ∧
    (processTx env orphans event).mapOrphanTransactions.size ≤ MAX_ORPHAN_TRANSACTIONS.toNat ∧
    (NoEmptyKey orphans.mapOrphanTransactionsByPrev →
      (NoEmptyKey (processTx env orphans event).mapOrphanTransactionsByPrev
        ↔ Awaited env orphans event))
  := by
  rw [processTx, Awaited, accepted]
  cases TxMsg.ofBytes event.vRecv with
  | none =>
    refine ⟨h, hsize, ?_⟩
    intro hempty
    simpa using hempty
  | some msg =>
    simp only [acceptToMemoryPool]
    cases event.mempool.accept env event.context.disk event.context.txIndex
        event.context.pindexBest msg.tx true (event.context.fRateLimited 0) with
    | some mempool =>
      have htouched := processQueue_spec h event.context mempool (msg.tx.getHash env.crypto)
      obtain ⟨hindexed, hle, -⟩ := foldl_eraseOrphanTx (htouched.indexed h)
        (processQueue env orphans event.context mempool (msg.tx.getHash env.crypto)).2.vEraseQueue
      refine ⟨hindexed, hle.trans hsize, ?_⟩
      intro hempty
      apply noEmptyKey_touched_iff htouched h hempty
    | none =>
      simp only [List.not_mem_nil, false_imp_iff, implies_true, iff_true]
      split
      · obtain ⟨hindexed, hle, hkeep⟩ := limitLoop_spec (indexed_addOrphanTx h msg)
          MAX_ORPHAN_TRANSACTIONS event.rand 0 le_rfl
        exact ⟨hindexed, hle, fun hempty => hkeep (noEmptyKey_addOrphanTx hempty msg)⟩
      · exact ⟨h, hsize, id⟩

/-! ## Runs -/

/-- The pool is as it should be: the index agrees with the transactions and has no empty entry,
the transactions are no more than the limit, and so the keys of the index are bounded too. -/
structure Kept (env : Env) (orphans : OrphanTxs) : Prop where
  indexed : Indexed env orphans
  noEmptyKey : NoEmptyKey orphans.mapOrphanTransactionsByPrev
  size_le : orphans.mapOrphanTransactions.size ≤ MAX_ORPHAN_TRANSACTIONS.toNat
  keys_le : orphans.mapOrphanTransactionsByPrev.size
    ≤ MAX_ORPHAN_TRANSACTIONS.toNat * DEFAULT_MAX_MESSAGE_SIZE

/-- Without empty entries there are no more keys than inputs. -/
theorem Indexed.keys_le
    (h : Indexed env orphans) (hempty : NoEmptyKey orphans.mapOrphanTransactionsByPrev) :
  orphans.mapOrphanTransactionsByPrev.size
    ≤ orphans.mapOrphanTransactions.size * DEFAULT_MAX_MESSAGE_SIZE
  := by
  let inputs := orphans.mapOrphanTransactions.toList.flatMap
    (fun item => item.2.tx.vin.map (fun txin => txin.prevout.hash))
  have hsubset : orphans.mapOrphanTransactionsByPrev.toList.map Prod.fst ⊆ inputs := by
    intro hashPrev hmem
    obtain ⟨⟨hashPrev', waiting⟩, hitem, heq⟩ := List.mem_map.mp hmem
    obtain rfl : hashPrev' = hashPrev := heq
    rw [ExtTreeMap.mem_toList_iff_getElem?_eq_some] at hitem
    -- some transaction waits under the key, and spends from it
    have hne := hempty _ _ hitem
    rw [← ExtTreeMap.isEmpty_toList, List.isEmpty_eq_false_iff_exists_mem] at hne
    obtain ⟨⟨hash, msg⟩, hmsg⟩ := hne
    rw [ExtTreeMap.mem_toList_iff_getElem?_eq_some] at hmsg
    have hwaits : waits orphans.mapOrphanTransactionsByPrev hashPrev' hash = some msg := by
      rw [waits, hitem, Option.bind_some, hmsg]
    obtain ⟨horphan, txin, htxin, hprev⟩ := (h.by_prev _ _ _).mp hwaits
    rw [List.mem_flatMap]
    refine ⟨(hash, msg), ExtTreeMap.mem_toList_iff_getElem?_eq_some.mpr horphan, ?_⟩
    exact List.mem_map.mpr ⟨txin, htxin, hprev⟩
  have hkeys := (TreeMap.nodup_keys orphans.mapOrphanTransactionsByPrev).length_le_of_subset hsubset
  have hinputs : inputs.length ≤ orphans.mapOrphanTransactions.size * DEFAULT_MAX_MESSAGE_SIZE := by
    rw [List.length_flatMap, ← ExtTreeMap.length_toList]
    have hsum := List.sum_le_card_nsmul (orphans.mapOrphanTransactions.toList.map
      (fun item => (item.2.tx.vin.map (fun txin => txin.prevout.hash)).length))
      DEFAULT_MAX_MESSAGE_SIZE ?_
    · rwa [List.length_map, nsmul_eq_mul, Nat.cast_id] at hsum
    intro n hn
    obtain ⟨⟨hash, msg⟩, hitem, rfl⟩ := List.mem_map.mp hn
    rw [ExtTreeMap.mem_toList_iff_getElem?_eq_some] at hitem
    rw [List.length_map]
    exact (length_vin_le msg).trans (h.key _ _ hitem).2
  rw [List.length_map, ExtTreeMap.length_toList] at hkeys
  exact hkeys.trans hinputs

theorem indexed_empty (env : Env) :
  Indexed env empty
  := by
  constructor
  · intro hash msg hget
    rw [empty, ExtTreeMap.getElem?_empty] at hget
    cases hget
  · intro hashPrev hash msg
    simp [empty, waits]

theorem kept_empty (env : Env) :
  Kept env empty
  := by
  refine ⟨indexed_empty env, ?_, Nat.zero_le _, Nat.zero_le _⟩
  intro hashPrev waiting hget
  rw [empty, ExtTreeMap.getElem?_empty] at hget
  cases hget

/-- A message keeps the pool as it should be exactly when some orphan waits for each transaction
it brings into the memory pool. -/
theorem kept_processTx_iff
    (h : Kept env orphans) (event : TxEvent) :
  Kept env (processTx env orphans event) ↔ Awaited env orphans event
  := by
  obtain ⟨hindexed, hsize, hiff⟩ := processTx_spec h.indexed h.size_le event
  rw [← hiff h.noEmptyKey]
  constructor
  · apply Kept.noEmptyKey
  · intro hempty
    refine ⟨hindexed, hempty, hsize, (hindexed.keys_le hempty).trans ?_⟩
    apply Nat.mul_le_mul_right _ hsize

/-- After any messages the index agrees with the transactions, which are no more than the limit;
and the pool is as it should be all along exactly when some orphan waits for each transaction
that the messages bring into the memory pool. -/
theorem orphanTxs_kept_iff (env : Env) (events : List TxEvent) :
  (Indexed env (run (processTx env) empty events) ∧
    (run (processTx env) empty events).mapOrphanTransactions.size
      ≤ MAX_ORPHAN_TRANSACTIONS.toNat) ∧
  ((∀ n, Kept env (run (processTx env) empty (events.take n)))
    ↔ Along (processTx env) (Awaited env) empty events)
  := by
  constructor
  · have hstep : ∀ orphans event, True →
        Indexed env orphans ∧
          orphans.mapOrphanTransactions.size ≤ MAX_ORPHAN_TRANSACTIONS.toNat →
        Indexed env (processTx env orphans event) ∧
          (processTx env orphans event).mapOrphanTransactions.size
            ≤ MAX_ORPHAN_TRANSACTIONS.toNat := by
      rintro orphans event - ⟨hindexed, hsize⟩
      obtain ⟨hindexed', hsize', -⟩ := processTx_spec hindexed hsize event
      exact ⟨hindexed', hsize'⟩
    apply run_invariant hstep (along_of_forall_mem (fun _ _ _ => trivial) empty)
      ⟨indexed_empty env, Nat.zero_le _⟩
  · have hstep : ∀ orphans event, Kept env orphans →
        (Kept env (processTx env orphans event) ↔ Awaited env orphans event) :=
      fun _ event h => kept_processTx_iff h event
    apply forall_take_iff_along hstep (kept_empty env)

/-! ### A transaction nobody waits for -/

/-- A transaction of the chain, with one output. -/
def confirmedTx : CTransaction :=
  ⟨1, [⟨⟨7, 0⟩, [], 0xffffffff⟩], [⟨300000000, [0x51]⟩], 0⟩

/-- A transaction that spends its output. -/
def loneTx : CTransaction :=
  ⟨1, [⟨⟨confirmedTx.getHash sampleCrypto, 0⟩, [], 0xffffffff⟩], [⟨200000000, [0x51]⟩], 0⟩

/-- The message with the spending transaction, which comes to an empty memory pool. -/
def loneEvent : TxEvent where
  vRecv := loneTx.serialize
  mempool := CTxMemPool.empty
  context := {
    disk pos := if pos = ⟨1, 8, 90⟩ then some confirmedTx else none
    txIndex := (∅ : TxIndexMap).insert (confirmedTx.getHash sampleCrypto)
      (CTxIndex.unspent ⟨1, 8, 90⟩ 1)
    pindexBest := .first ⟨1, BlockPos.first, 1, 0, 1774996860, 0, 0⟩
    fRateLimited _ := false }
  rand _ := 0

/-- The message is accepted, and leaves an empty entry under the hash of its transaction. -/
theorem loneEvent_not_kept :
  ¬Kept sampleEnv (run (processTx sampleEnv) empty [loneEvent])
  := by
  intro h
  have hempty : (run (processTx sampleEnv) empty [loneEvent]).mapOrphanTransactionsByPrev[
      loneTx.getHash sampleCrypto]?.map ExtTreeMap.isEmpty = some true := by
    decide +kernel
  obtain ⟨waiting, hget, hwaiting⟩ := Option.map_eq_some_iff.mp hempty
  rw [h.noEmptyKey _ _ hget] at hwaiting
  cases hwaiting

end OrphanTxs

end CorgiCoin
