import Mathlib.Data.List.Nodup
import CorgiCoin.Supply

/-!
# Undoing blocks

Disconnecting a block takes back what connecting it did, as long as no transaction of the block
was indexed before.  A repeated transaction is erased together with the entry it replaced, and
then neither the outputs of the first one come back nor can a block that spends them be
disconnected.
-/

namespace CorgiCoin

open Std

/-! ## One block -/

/-- The loop of `DisconnectBlock` over the transactions of a block. -/
def CBlock.disconnectTxs (env : Env) (block : CBlock) (txIndex : TxIndexMap) :
    Option TxIndexMap :=
  block.vtx.reverse.foldlM (CTransaction.disconnectInputs env) txIndex

theorem CBlock.map_txIndex_disconnectBlock
    (env : Env) (txdb : CTxDB) (pindex : CBlockIndex) (block : CBlock) :
  (block.disconnectBlock env txdb pindex).map CTxDB.txIndex
    = block.disconnectTxs env txdb.txIndex
  := by
  rw [disconnectBlock, disconnectTxs, Option.map_map]
  cases block.vtx.reverse.foldlM (CTransaction.disconnectInputs env) txdb.txIndex with
  | none => rfl
  | some txIndex => simp

/-- Null marks are the ones `SetNull` writes. -/
def Canonical (index : TxIndexMap) : Prop :=
  ∀ o pos, slot index o = some pos → pos.isNull = true → pos = CDiskTxPos.null

section Tx

variable {env : Env} {reader : TxReader} {fStrict : Bool} {pindex : CBlockIndex}
  {index : TxIndexMap}

/-- The marks after adding a transaction. -/
theorem slot_addTx
    (placed : CDiskTxPos × CTransaction) (o : COutPoint) :
  slot (addTx env index placed) o
    = if placed.2.getHash env.crypto = o.hash then
        (List.replicate placed.2.vout.length CDiskTxPos.null)[o.n.toNat]?
      else slot (setSlots placed.1 index placed.2.prevouts) o
  := by
  rw [slot, addTx, TreeMap.getElem?_insert_ite]
  split_ifs
  · rfl
  · rfl

theorem Canonical.addTx
    (h : Canonical index) {placed : CDiskTxPos × CTransaction} (hpos : placed.1.isNull = false) :
  Canonical (addTx env index placed)
  := by
  intro o pos hslot hnull
  rw [slot_addTx] at hslot
  split_ifs at hslot
  · apply List.eq_of_mem_replicate (List.mem_of_getElem? hslot)
  · by_cases hmem : o ∈ placed.2.prevouts
    · cases hold : slot index o with
      | none =>
        have hkey : (setSlots placed.1 index placed.2.prevouts)[o.hash]?.map CTxIndex.shape
            = index[o.hash]?.map CTxIndex.shape := map_shape_setSlots _ _ _ _
        rw [slot] at hold hslot
        cases hget : index[o.hash]? with
        | none =>
          rw [hget, Option.map_none, Option.map_eq_none_iff] at hkey
          rw [hkey] at hslot
          cases hslot
        | some txindex =>
          rw [hget, Option.map_some] at hkey
          obtain ⟨txindex', hget', hshape⟩ := Option.map_eq_some_iff.mp hkey
          rw [hget', Option.bind_some] at hslot
          rw [hget, Option.bind_some, List.getElem?_eq_none_iff] at hold
          obtain ⟨hlt, -⟩ := List.getElem?_eq_some_iff.mp hslot
          rw [(Prod.mk.inj hshape).2] at hlt
          omega
      | some p =>
        rw [slot_setSlots_of_mem placed.1 hold hmem] at hslot
        rw [← Option.some.inj hslot, hpos] at hnull
        cases hnull
    · rw [slot_setSlots_of_not_mem placed.1 hmem] at hslot
      apply h o pos hslot hnull

/-- The outputs a transaction that connects spends have null marks. -/
theorem TxConnects.slot_prevouts
    {tx : CTransaction} {nValueIn nValueOut : Int64}
    (h : TxConnects env reader fStrict pindex index tx nValueIn nValueOut) :
  ∀ o ∈ tx.vin.map CTxIn.prevout, ∃ pos, slot index o = some pos ∧ pos.isNull = true
  := by
  intro o hmem
  obtain ⟨txindex, txPrev, txout, pos, hprev, -, hslot, hnull⟩ := h.spendable_prevouts o hmem
  obtain ⟨hget, -⟩ := prevOf_eq_some_iff.mp hprev
  exact ⟨pos, slot_eq_some_iff.mpr ⟨txindex, hget, hslot⟩, hnull⟩

/-- Disconnecting takes back adding a transaction that was not indexed before, whatever outputs were
marked unspent since.  The outputs it spent are then marked with the null position. -/
theorem disconnectInputs_addTx
    {placed : CDiskTxPos × CTransaction} (hchecked : placed.2.Checked)
    (hnew : index[placed.2.getHash env.crypto]? = none)
    (hconnects : placed.2.isCoinBase = false → ∃ nValueIn nValueOut,
      TxConnects env reader fStrict pindex index placed.2 nValueIn nValueOut) (os : List COutPoint) :
  placed.2.disconnectInputs env (setSlots CDiskTxPos.null (addTx env index placed) os)
    = some (setSlots CDiskTxPos.null index (placed.2.prevouts ++ os))
  := by
  have hnone : (setSlots placed.1 index placed.2.prevouts)[placed.2.getHash env.crypto]? = none :=
    getElem?_setSlots_eq_none_iff.mpr hnew
  obtain ⟨txindex, hinsert⟩ := setSlots_insert CDiskTxPos.null hnone
    (CTxIndex.unspent placed.1 placed.2.vout.length) os
  have herase : (setSlots CDiskTxPos.null (setSlots placed.1 index placed.2.prevouts)
      os)[placed.2.getHash env.crypto]? = none := getElem?_setSlots_eq_none_iff.mpr hnone
  rw [CTransaction.disconnectInputs, addTx, hinsert, CTransaction.prevouts]
  rw [CTransaction.prevouts] at herase
  cases hcoinbase : placed.2.isCoinBase with
  | true =>
    rw [hcoinbase] at herase
    simp only [if_true] at herase ⊢
    rw [Option.map_some, TreeMap.erase_insert herase]
    rfl
  | false =>
    rw [hcoinbase] at herase
    obtain ⟨nValueIn, nValueOut, hconnects⟩ := hconnects hcoinbase
    simp only [Bool.false_eq_true, if_false] at herase ⊢
    have hslots := hconnects.slot_prevouts
    -- the transactions spent from were indexed before, so none of them is this one
    have hne : ∀ o ∈ placed.2.vin.map CTxIn.prevout, o.hash ≠ placed.2.getHash env.crypto := by
      intro o hmem heq
      obtain ⟨pos, hslot, -⟩ := hslots o hmem
      rw [slot, heq, hnew] at hslot
      cases hslot
    have hmarked : ∀ txin ∈ placed.2.vin, ∃ pos,
        slot ((setSlots CDiskTxPos.null (setSlots placed.1 index
          (placed.2.vin.map CTxIn.prevout)) os).insert (placed.2.getHash env.crypto) txindex)
          txin.prevout = some pos := by
      intro txin hmem
      have ho := List.mem_map_of_mem (f := CTxIn.prevout) hmem
      obtain ⟨pos, hslot, -⟩ := hslots _ ho
      have hmark := slot_setSlots_of_mem placed.1 hslot ho
      rw [slot, TreeMap.getElem?_insert_of_ne (Ne.symm (hne _ ho)), ← slot]
      by_cases hin : txin.prevout ∈ os
      · exact ⟨_, slot_setSlots_of_mem _ hmark hin⟩
      · rw [slot_setSlots_of_not_mem _ hin]
        exact ⟨_, hmark⟩
    obtain ⟨txIndex', hfold⟩ := exists_foldlM_disconnectInput hmarked
    obtain ⟨rfl, -⟩ := foldlM_disconnectInput hfold
    have hkept : (setSlots CDiskTxPos.null (setSlots CDiskTxPos.null (setSlots placed.1 index
        (placed.2.vin.map CTxIn.prevout)) os)
        (placed.2.vin.map CTxIn.prevout))[placed.2.getHash env.crypto]? = none :=
      getElem?_setSlots_eq_none_iff.mpr herase
    rw [hfold, Option.map_some, setSlots_insert_of_ne _ _ _ hne, TreeMap.erase_insert hkept,
      setSlots_comm, setSlots_setSlots _ _ _ hchecked.nodup, setSlots_append]

/-- A transaction adds its own hash to the keys of the index. -/
theorem getElem?_addTx_eq_none_iff
    {placed : CDiskTxPos × CTransaction} {hash : uint256} :
  (addTx env index placed)[hash]? = none
    ↔ placed.2.getHash env.crypto ≠ hash ∧ index[hash]? = none
  := by
  rw [addTx, TreeMap.getElem?_insert_ite]
  split_ifs with h
  · simp [h]
  · rw [getElem?_setSlots_eq_none_iff]
    simp [h]

/-- The outputs that transactions in a row spend. -/
def spentBy (placed : List (CDiskTxPos × CTransaction)) : List COutPoint :=
  placed.flatMap (fun p => p.2.prevouts)

variable {placed : List (CDiskTxPos × CTransaction)}

/-- Disconnecting takes back adding transactions that were not indexed before. -/
theorem foldlM_disconnectInputs_foldl_addTx
    (hchecked : ∀ p ∈ placed, p.2.Checked)
    (hnodup : (placed.map (fun p => p.2.getHash env.crypto)).Nodup)
    (hnew : ∀ p ∈ placed, index[p.2.getHash env.crypto]? = none)
    (hconnects : TxsConnect env reader fStrict pindex index placed) :
  (placed.map Prod.snd).reverse.foldlM (CTransaction.disconnectInputs env)
      (placed.foldl (addTx env) index)
    = some (setSlots CDiskTxPos.null index (spentBy placed))
  := by
  induction placed generalizing index with
  | nil => rfl
  | cons p placed ih =>
    obtain ⟨hfirstChecked, hchecked⟩ := List.forall_mem_cons.mp hchecked
    obtain ⟨hfirst, hnew⟩ := List.forall_mem_cons.mp hnew
    rw [List.map_cons, List.nodup_cons] at hnodup
    have hnew' : ∀ q ∈ placed, (addTx env index p)[q.2.getHash env.crypto]? = none := by
      intro q hmem
      rw [getElem?_addTx_eq_none_iff]
      refine ⟨?_, hnew q hmem⟩
      intro heq
      apply hnodup.1
      rw [heq]
      apply List.mem_map_of_mem hmem
    have hrest := ih hchecked hnodup.2 hnew' hconnects.2
    rw [List.map_cons, List.reverse_cons, List.foldlM_append, List.foldl_cons, hrest]
    simp only [Option.bind_eq_bind, Option.bind_some, List.foldlM_cons, List.foldlM_nil]
    rw [disconnectInputs_addTx hfirstChecked hfirst hconnects.1]
    rfl

/-- The outputs that transactions in a row spend are unspent or not indexed before them. -/
theorem isNull_of_mem_spentBy
    (hpos : ∀ p ∈ placed, p.1.isNull = false)
    (hnew : ∀ p ∈ placed, index[p.2.getHash env.crypto]? = none)
    (hnodup : (placed.map (fun p => p.2.getHash env.crypto)).Nodup)
    (hconnects : TxsConnect env reader fStrict pindex index placed) {o : COutPoint}
    (ho : o ∈ spentBy placed) {pos : CDiskTxPos} (hslot : slot index o = some pos) :
  pos.isNull = true
  := by
  induction placed generalizing index pos with
  | nil => cases ho
  | cons p placed ih =>
    obtain ⟨hfirst, hnew⟩ := List.forall_mem_cons.mp hnew
    obtain ⟨hfirstPos, hpos⟩ := List.forall_mem_cons.mp hpos
    rw [List.map_cons, List.nodup_cons] at hnodup
    rw [spentBy, List.flatMap_cons, List.mem_append] at ho
    by_cases hown : o ∈ p.2.prevouts
    · rw [CTransaction.prevouts] at hown
      split_ifs at hown with hcoinbase
      · cases hown
      · rw [Bool.not_eq_true] at hcoinbase
        obtain ⟨nValueIn, nValueOut, htx⟩ := hconnects.1 hcoinbase
        obtain ⟨pos', hslot', hnull⟩ := htx.slot_prevouts o hown
        rw [hslot] at hslot'
        cases hslot'
        exact hnull
    · have hnew' : ∀ q ∈ placed, (addTx env index p)[q.2.getHash env.crypto]? = none := by
        intro q hmem
        rw [getElem?_addTx_eq_none_iff]
        refine ⟨?_, hnew q hmem⟩
        intro heq
        apply hnodup.1
        rw [heq]
        apply List.mem_map_of_mem hmem
      apply ih hpos hnew' hnodup.2 hconnects.2 (ho.resolve_left hown)
      rw [slot_addTx, if_neg, slot_setSlots_of_not_mem _ hown, hslot]
      intro heq
      rw [slot, ← heq, hfirst] at hslot
      cases hslot

theorem Canonical.foldl_addTx
    (h : Canonical index) (hpos : ∀ p ∈ placed, p.1.isNull = false) :
  Canonical (placed.foldl (CorgiCoin.addTx env) index)
  := by
  induction placed generalizing index with
  | nil => exact h
  | cons p placed ih =>
    obtain ⟨hfirst, hrest⟩ := List.forall_mem_cons.mp hpos
    apply ih (h.addTx hfirst) hrest

end Tx

section Block

variable {env : Env} {reader : TxReader} {txdb txdb' : CTxDB} {pindex : CBlockIndex}
  {block : CBlock}

theorem BlockConnects.placed_isNull
    (h : BlockConnects env reader txdb pindex block txdb') :
  ∀ p ∈ block.placed pindex.entry.pos, p.1.isNull = false ∧ p.2.Checked
  := by
  intro p hmem
  obtain ⟨htx, n, hpos⟩ := mem_txPositions hmem
  constructor
  · rw [hpos]
    apply BlockPos.isNull_txPos
  · apply CTransaction.checked_of_checkTransaction (h.checked.checkTransaction _ htx)

/-- The hashes of the placed transactions are those of the block. -/
theorem CBlock.map_hash_placed (env : Env) (pos : BlockPos) (block : CBlock) :
  (block.placed pos).map (fun p => p.2.getHash env.crypto) = block.txids env
  := by
  have hids : ((block.placed pos).map Prod.snd).map (CTransaction.getHash env.crypto)
      = block.txids env := by
    rw [placed, map_snd_txPositions, txids]
  rw [List.map_map] at hids
  apply hids

/-- The keys of the index after a block. -/
theorem BlockConnects.getElem?_eq_none_iff
    (h : BlockConnects env reader txdb pindex block txdb') {hash : uint256} :
  txdb'.txIndex[hash]? = none ↔ hash ∉ block.txids env ∧ txdb.txIndex[hash]? = none
  := by
  rw [h.txIndex_eq, ← CBlock.map_hash_placed env pindex.entry.pos]
  generalize txdb.txIndex = index
  induction block.placed pindex.entry.pos generalizing index with
  | nil => simp
  | cons p placed ih =>
    rw [List.foldl_cons, ih, getElem?_addTx_eq_none_iff, List.map_cons, List.mem_cons, not_or,
      Ne, eq_comm]
    tauto

/-- What disconnecting a block leaves when none of its transactions was indexed before. -/
theorem BlockConnects.disconnectTxs_eq_setSlots
    (h : BlockConnects env reader txdb pindex block txdb')
    (hnew : ∀ hash ∈ block.txids env, txdb.txIndex[hash]? = none) :
  block.disconnectTxs env txdb'.txIndex
      = some (setSlots CDiskTxPos.null txdb.txIndex (spentBy (block.placed pindex.entry.pos)))
    ∧ ∀ o ∈ spentBy (block.placed pindex.entry.pos), ∀ pos, slot txdb.txIndex o = some pos →
        pos.isNull = true
  := by
  have hnodup := h.checked.nodup
  rw [← CBlock.map_hash_placed env pindex.entry.pos] at hnodup hnew
  have hplaced : ∀ p ∈ block.placed pindex.entry.pos,
      txdb.txIndex[p.2.getHash env.crypto]? = none :=
    fun p hmem => hnew _ (List.mem_map_of_mem hmem)
  constructor
  · have hundo := foldlM_disconnectInputs_foldl_addTx
      (fun p hmem => (h.placed_isNull p hmem).2) hnodup hplaced h.txsConnect
    rw [CBlock.placed, map_snd_txPositions, ← CBlock.placed, ← h.txIndex_eq] at hundo
    apply hundo
  · intro o ho pos hslot
    exact isNull_of_mem_spentBy (fun p hmem => (h.placed_isNull p hmem).1) hplaced hnodup
      h.txsConnect ho hslot

/-- A block none of whose transactions was indexed before is disconnected exactly. -/
theorem BlockConnects.disconnectTxs_eq
    (h : BlockConnects env reader txdb pindex block txdb') (hcanonical : Canonical txdb.txIndex)
    (hnew : ∀ hash ∈ block.txids env, txdb.txIndex[hash]? = none) :
  block.disconnectTxs env txdb'.txIndex = some txdb.txIndex ∧ Canonical txdb'.txIndex
  := by
  obtain ⟨hundo, hnull⟩ := h.disconnectTxs_eq_setSlots hnew
  constructor
  · rw [hundo, setSlots_null_of_slot]
    exact fun o ho pos hslot => hcanonical o pos hslot (hnull o ho pos hslot)
  · rw [h.txIndex_eq]
    exact hcanonical.foldl_addTx (fun p hmem => (h.placed_isNull p hmem).1)

/-- Marking an output unspent keeps null marks as `SetNull` writes them. -/
theorem Canonical.setSlot_null
    {index : TxIndexMap} (h : Canonical index) (o : COutPoint) :
  Canonical (setSlot CDiskTxPos.null index o)
  := by
  intro o' pos hslot hnull
  by_cases ho : o = o'
  · subst ho
    cases hold : slot index o with
    | none =>
      have hsame : setSlot CDiskTxPos.null index o = index := by
        apply @setSlots_null_of_slot index [o]
        intro o' hmem pos' hslot'
        rw [List.mem_singleton.mp hmem, hold] at hslot'
        cases hslot'
      rw [hsame, hold] at hslot
      cases hslot
    | some p =>
      rw [slot_setSlot_self _ hold] at hslot
      exact (Option.some.inj hslot).symm
  · rw [slot_setSlot_of_ne _ ho] at hslot
    exact h o' pos hslot hnull

/-- Disconnecting a block keeps null marks as `SetNull` writes them. -/
theorem Canonical.disconnectTxs
    {index index' : TxIndexMap} (h : Canonical index)
    (hdisconnect : block.disconnectTxs env index = some index') :
  Canonical index'
  := by
  rw [CBlock.disconnectTxs] at hdisconnect
  generalize block.vtx.reverse = vtx at hdisconnect
  induction vtx generalizing index with
  | nil =>
    cases hdisconnect
    exact h
  | cons tx vtx ih =>
    rw [List.foldlM_cons, Option.bind_eq_bind, Option.bind_eq_some_iff] at hdisconnect
    obtain ⟨mid, hstep, hrest⟩ := hdisconnect
    apply ih _ hrest
    rw [CTransaction.disconnectInputs, Option.map_eq_some_iff] at hstep
    obtain ⟨unspent, hinputs, rfl⟩ := hstep
    have hunspent : Canonical unspent := by
      split_ifs at hinputs
      · cases hinputs
        exact h
      · obtain ⟨rfl, -⟩ := foldlM_disconnectInput hinputs
        rw [setSlots]
        clear hinputs hrest
        induction tx.vin.map CTxIn.prevout generalizing index with
        | nil => exact h
        | cons o os ih => exact ih (h.setSlot_null o)
    intro o pos hslot hnull
    rw [slot, TreeMap.getElem?_erase_ite] at hslot
    split_ifs at hslot
    · cases hslot
    · exact hunspent o pos hslot hnull

/-- Disconnecting a block right after connecting it gives back every entry and every mark of the
index.  Marks of unspent outputs come back as `SetNull` writes them, which is what they were in an
index written by `ConnectBlock` and `DisconnectBlock`. -/
theorem disconnectBlock_connectBlock
    {nAdjustedTime : ℤ}
    (h : block.connectBlock env reader nAdjustedTime txdb pindex = some txdb')
    (hnew : ∀ tx ∈ block.vtx, txdb.txIndex[tx.getHash env.crypto]? = none) :
  ∃ txdb'', block.disconnectBlock env txdb' pindex = some txdb''
    ∧ (∀ hash : uint256,
        txdb''.txIndex[hash]?.map CTxIndex.shape = txdb.txIndex[hash]?.map CTxIndex.shape)
    ∧ (∀ o pos, slot txdb.txIndex o = some pos → slot txdb''.txIndex o = some pos
        ∨ pos.isNull = true ∧ slot txdb''.txIndex o = some CDiskTxPos.null)
    ∧ (Canonical txdb.txIndex →
        txdb''.txIndex = txdb.txIndex ∧ Canonical txdb'.txIndex)
  := by
  have hconnects := CBlock.connectBlock_eq_some h
  have hids : ∀ hash ∈ block.txids env, txdb.txIndex[hash]? = none := by
    intro hash hmem
    obtain ⟨tx, htx, rfl⟩ := List.mem_map.mp hmem
    exact hnew tx htx
  obtain ⟨hundo, hnull⟩ := hconnects.disconnectTxs_eq_setSlots hids
  rw [← CBlock.map_txIndex_disconnectBlock env txdb' pindex, Option.map_eq_some_iff] at hundo
  obtain ⟨txdb'', hdisconnect, hindex⟩ := hundo
  refine ⟨txdb'', hdisconnect, ?_, ?_, ?_⟩
  · intro hash
    rw [hindex, map_shape_setSlots]
  · intro o pos hslot
    rw [hindex]
    by_cases ho : o ∈ spentBy (block.placed pindex.entry.pos)
    · exact .inr ⟨hnull o ho pos hslot, slot_setSlots_of_mem _ hslot ho⟩
    · left
      rw [slot_setSlots_of_not_mem _ ho, hslot]
  · intro hcanonical
    obtain ⟨hexact, hcanonical'⟩ := hconnects.disconnectTxs_eq hcanonical hids
    refine ⟨?_, hcanonical'⟩
    rw [← CBlock.map_txIndex_disconnectBlock env txdb' pindex, hdisconnect] at hexact
    exact Option.some.inj hexact

/-- A block that spends an output and then the output of that spend. -/
theorem spendingBlock_disconnected :
  (∀ tx ∈ spendingBlock.vtx, matureDB.txIndex[tx.getHash sampleEnv.crypto]? = none)
    ∧ ∃ txdb' txdb'', spendingBlock.connectBlock sampleEnv spendingReader 1774997000 matureDB
        (sampleEntry sampleEnv firstPos spendingBlock) = some txdb'
      ∧ spendingBlock.disconnectBlock sampleEnv txdb' (sampleEntry sampleEnv firstPos spendingBlock)
        = some txdb''
      ∧ txdb''.txIndex = matureDB.txIndex
  := by
  have hnew : ∀ tx ∈ spendingBlock.vtx, matureDB.txIndex[tx.getHash sampleEnv.crypto]? = none := by
    decide +kernel
  have hsome : (spendingBlock.connectBlock sampleEnv spendingReader 1774997000 matureDB
      (sampleEntry sampleEnv firstPos spendingBlock)).isSome = true := by decide +kernel
  obtain ⟨txdb', hconnect⟩ := Option.isSome_iff_exists.mp hsome
  obtain ⟨txdb'', hdisconnect, -, -, hexact⟩ := disconnectBlock_connectBlock hconnect hnew
  have hempty : Canonical ∅ := by
    intro o pos hslot
    rw [slot, ExtTreeMap.getElem?_empty] at hslot
    cases hslot
  exact ⟨hnew, txdb', txdb'', hconnect, hdisconnect, (hexact (hempty.addTx rfl)).1⟩

/-- A null mark that `SetNull` did not write. -/
def strayNull : CDiskTxPos := ⟨0xffffffff, 1, 0⟩

/-- The output that `spendingBlock` spends first. -/
def matureOutput : COutPoint := ⟨matureCoinbase.2.getHash sampleEnv.crypto, 0⟩

/-- The database of `matureDB`, with the other null mark at the unspent output. -/
def strayDB : CTxDB := { matureDB with txIndex := setSlot strayNull matureDB.txIndex matureOutput }

/-- The mark comes back as `SetNull` writes it, so the map is another one. -/
theorem strayBlock_not_restored :
  (∀ tx ∈ spendingBlock.vtx, strayDB.txIndex[tx.getHash sampleEnv.crypto]? = none)
    ∧ ∃ txdb' txdb'', spendingBlock.connectBlock sampleEnv spendingReader 1774997000 strayDB
        (sampleEntry sampleEnv firstPos spendingBlock) = some txdb'
      ∧ spendingBlock.disconnectBlock sampleEnv txdb' (sampleEntry sampleEnv firstPos spendingBlock)
        = some txdb''
      ∧ txdb''.txIndex ≠ strayDB.txIndex
  := by
  refine ⟨by decide +kernel, ?_⟩
  have hundone : ((spendingBlock.connectBlock sampleEnv spendingReader 1774997000 strayDB
      (sampleEntry sampleEnv firstPos spendingBlock)).bind (fun txdb' =>
        spendingBlock.disconnectBlock sampleEnv txdb'
          (sampleEntry sampleEnv firstPos spendingBlock))).map
            (fun txdb'' => slot txdb''.txIndex matureOutput)
      = some (some CDiskTxPos.null) := by decide +kernel
  have hstray : slot strayDB.txIndex matureOutput = some strayNull := by decide +kernel
  obtain ⟨txdb'', hboth, hslot⟩ := Option.map_eq_some_iff.mp hundone
  obtain ⟨txdb', hconnect, hdisconnect⟩ := Option.bind_eq_some_iff.mp hboth
  refine ⟨txdb', txdb'', hconnect, hdisconnect, ?_⟩
  intro heq
  rw [heq, hstray] at hslot
  exact absurd hslot (by decide)

end Block

/-! ## Sequences of blocks -/

/-- A call of `ConnectBlock`: what it reads, when it is made, and the block. -/
structure ConnectCall where
  reader : TxReader
  nAdjustedTime : ℤ
  pindex : CBlockIndex
  block : CBlock

namespace ConnectCall

def connect (env : Env) (txdb : CTxDB) (call : ConnectCall) : Option CTxDB :=
  call.block.connectBlock env call.reader call.nAdjustedTime txdb call.pindex

def disconnect (env : Env) (txdb : CTxDB) (call : ConnectCall) : Option CTxDB :=
  call.block.disconnectBlock env txdb call.pindex

end ConnectCall

/-- Connect blocks one after the other. -/
def connectAll (env : Env) (txdb : CTxDB) (calls : List ConnectCall) : Option CTxDB :=
  calls.foldlM (ConnectCall.connect env) txdb

/-- Disconnect blocks, the last of the list first. -/
def disconnectAll (env : Env) (txdb : CTxDB) (calls : List ConnectCall) : Option CTxDB :=
  calls.reverse.foldlM (ConnectCall.disconnect env) txdb

/-- The outputs that are not spent. -/
def unspentOutputs (index : TxIndexMap) : Set COutPoint :=
  {o | ∃ pos, slot index o = some pos ∧ pos.isNull = true}

/-- Disconnecting any number of the last blocks succeeds and leaves the unspent outputs that
were there before they were connected. -/
def Undoable (env : Env) (calls : List ConnectCall) (txdb : CTxDB) : Prop :=
  ∀ kept undone, calls = kept ++ undone → ∃ before after,
    connectAll env CTxDB.empty kept = some before
      ∧ disconnectAll env txdb undone = some after
      ∧ unspentOutputs after.txIndex = unspentOutputs before.txIndex

/-- No transaction hash occurs in two of the blocks. -/
def NoRepeats (env : Env) (calls : List ConnectCall) : Prop :=
  calls.Pairwise (fun call call' =>
    ∀ hash ∈ call.block.txids env, hash ∉ call'.block.txids env)

section Sequences

variable {env : Env} {calls kept undone : List ConnectCall} {txdb txdb' before after : CTxDB}

theorem connectAll_append :
  connectAll env txdb (kept ++ undone)
    = (connectAll env txdb kept).bind (fun mid => connectAll env mid undone)
  := by
  rw [connectAll, List.foldlM_append]
  rfl

theorem disconnectAll_append :
  disconnectAll env txdb (kept ++ undone)
    = (disconnectAll env txdb undone).bind (fun mid => disconnectAll env mid kept)
  := by
  rw [disconnectAll, List.reverse_append, List.foldlM_append]
  rfl

theorem disconnectAll_singleton (call : ConnectCall) :
  disconnectAll env txdb [call] = call.disconnect env txdb
  := by
  simp [disconnectAll]

/-- Disconnecting reads the index alone. -/
theorem disconnectAll_congr
    (env : Env) (h : txdb.txIndex = txdb'.txIndex) (calls : List ConnectCall) :
  (disconnectAll env txdb calls).map CTxDB.txIndex
    = (disconnectAll env txdb' calls).map CTxDB.txIndex
  := by
  induction calls using List.reverseRecOn generalizing txdb txdb' with
  | nil => exact congrArg some h
  | append_singleton calls call ih =>
    rw [disconnectAll_append, disconnectAll_append, disconnectAll_singleton,
      disconnectAll_singleton]
    have hcall : (call.disconnect env txdb).map CTxDB.txIndex
        = (call.disconnect env txdb').map CTxDB.txIndex := by
      rw [ConnectCall.disconnect, ConnectCall.disconnect, CBlock.map_txIndex_disconnectBlock,
        CBlock.map_txIndex_disconnectBlock, h]
    cases hd : call.disconnect env txdb with
    | none =>
      rw [hd, Option.map_none, eq_comm, Option.map_eq_none_iff] at hcall
      rw [hcall]
    | some mid =>
      rw [hd, Option.map_some] at hcall
      obtain ⟨mid', hd', hmid⟩ := Option.map_eq_some_iff.mp hcall.symm
      rw [hd']
      apply ih hmid.symm

/-- What connecting a sequence of blocks from an empty database leaves: the keys of the index
are the hashes of the blocks, every entry has a mark, and a mark that is not null comes from
a transaction of the blocks that spends the output. -/
structure ChainIndex (env : Env) (calls : List ConnectCall) (index : TxIndexMap) : Prop where
  keys : ∀ hash, index[hash]? = none ↔ ∀ call ∈ calls, hash ∉ call.block.txids env
  marked : ∀ (hash : uint256) (txindex : CTxIndex), index[hash]? = some txindex →
    0 < txindex.vSpent.length
  spent : ∀ o pos, slot index o = some pos → pos.isNull = false →
    ∃ call ∈ calls, ∃ tx ∈ call.block.vtx, o ∈ tx.prevouts

variable {call : ConnectCall} {index : TxIndexMap}

theorem chainIndex_foldl_addTx
    (env : Env) (calls : List ConnectCall) {placed : List (CDiskTxPos × CTransaction)}
    (hplaced : ∀ p ∈ placed, p.2.Checked ∧ p.2 ∈ call.block.vtx)
    (hmarked : ∀ (hash : uint256) (txindex : CTxIndex), index[hash]? = some txindex →
      0 < txindex.vSpent.length)
    (hspent : ∀ o pos, slot index o = some pos → pos.isNull = false →
      ∃ call' ∈ calls ++ [call], ∃ tx ∈ call'.block.vtx, o ∈ tx.prevouts) :
  (∀ (hash : uint256) (txindex : CTxIndex),
      (placed.foldl (addTx env) index)[hash]? = some txindex → 0 < txindex.vSpent.length)
    ∧ ∀ o pos, slot (placed.foldl (addTx env) index) o = some pos → pos.isNull = false →
      ∃ call' ∈ calls ++ [call], ∃ tx ∈ call'.block.vtx, o ∈ tx.prevouts
  := by
  induction placed generalizing index with
  | nil => exact ⟨hmarked, hspent⟩
  | cons p placed ih =>
    obtain ⟨⟨hchecked, hvtx⟩, hplaced⟩ := List.forall_mem_cons.mp hplaced
    apply ih hplaced
    · intro hash txindex hget
      rw [addTx, TreeMap.getElem?_insert_ite] at hget
      split_ifs at hget
      · rw [← Option.some.inj hget, CTxIndex.unspent, List.length_replicate]
        apply List.length_pos_of_ne_nil hchecked.vout_ne_nil
      · have hshape := map_shape_setSlots p.1 index p.2.prevouts hash
        rw [hget, Option.map_some, eq_comm] at hshape
        obtain ⟨txindexOld, hold, heq⟩ := Option.map_eq_some_iff.mp hshape
        rw [← (Prod.mk.inj heq).2]
        apply hmarked hash txindexOld hold
    · intro o pos hslot hnull
      rw [slot_addTx] at hslot
      split_ifs at hslot
      · rw [List.eq_of_mem_replicate (List.mem_of_getElem? hslot)] at hnull
        cases hnull
      · by_cases hmem : o ∈ p.2.prevouts
        · exact ⟨call, List.mem_append_right _ List.mem_cons_self, p.2, hvtx, hmem⟩
        · rw [slot_setSlots_of_not_mem p.1 hmem] at hslot
          apply hspent o pos hslot hnull

/-- Connecting one more block. -/
theorem ChainIndex.connect
    (h : ChainIndex env calls txdb.txIndex) (hconnect : call.connect env txdb = some txdb') :
  ChainIndex env (calls ++ [call]) txdb'.txIndex
  := by
  have hconnects := CBlock.connectBlock_eq_some hconnect
  have hplaced : ∀ p ∈ call.block.placed call.pindex.entry.pos,
      p.2.Checked ∧ p.2 ∈ call.block.vtx :=
    fun p hmem => ⟨(hconnects.placed_isNull p hmem).2, (mem_txPositions hmem).1⟩
  obtain ⟨hmarked, hspent⟩ := chainIndex_foldl_addTx env calls hplaced
    h.marked (fun o pos hslot hnull => by
      obtain ⟨call', hmem, htx⟩ := h.spent o pos hslot hnull
      exact ⟨call', List.mem_append_left _ hmem, htx⟩)
  rw [← hconnects.txIndex_eq] at hmarked hspent
  refine ⟨fun hash => ?_, hmarked, hspent⟩
  rw [hconnects.getElem?_eq_none_iff, h.keys hash]
  constructor
  · rintro ⟨hnot, hkeys⟩ call' hmem
    rcases List.mem_append.mp hmem with hmem | hmem
    · apply hkeys call' hmem
    · obtain rfl := List.mem_singleton.mp hmem
      apply hnot
  · intro hall
    exact ⟨hall call (List.mem_append_right _ List.mem_cons_self),
      fun call' hmem => hall call' (List.mem_append_left _ hmem)⟩

theorem chainIndex_connectAll
    (h : connectAll env CTxDB.empty calls = some txdb) :
  ChainIndex env calls txdb.txIndex
  := by
  induction calls using List.reverseRecOn generalizing txdb with
  | nil =>
    obtain rfl := Option.some.inj h
    constructor
    · intro hash
      simp [CTxDB.empty]
    · intro hash txindex hget
      simp [CTxDB.empty] at hget
    · intro o pos hslot
      simp [CTxDB.empty, slot] at hslot
  | append_singleton calls call ih =>
    rw [connectAll_append, Option.bind_eq_some_iff] at h
    obtain ⟨mid, hmid, hlast⟩ := h
    rw [connectAll, List.foldlM_cons, Option.bind_eq_bind, Option.bind_eq_some_iff] at hlast
    obtain ⟨last, hconnect, hnil⟩ := hlast
    obtain rfl := Option.some.inj hnil
    apply (ih hmid).connect hconnect

/-! ### Without repeats -/

/-- Without repeats every block is disconnected to the index it was connected on. -/
theorem disconnectAll_of_noRepeats
    (hrepeats : NoRepeats env calls) (h : connectAll env CTxDB.empty calls = some txdb) :
  Canonical txdb.txIndex
    ∧ ∀ kept undone, calls = kept ++ undone → ∃ before after,
      connectAll env CTxDB.empty kept = some before
        ∧ disconnectAll env txdb undone = some after ∧ after.txIndex = before.txIndex
  := by
  induction calls using List.reverseRecOn generalizing txdb with
  | nil =>
    obtain rfl := Option.some.inj h
    constructor
    · intro o pos hslot
      simp [CTxDB.empty, slot] at hslot
    · intro kept undone heq
      obtain ⟨rfl, rfl⟩ := List.append_eq_nil_iff.mp heq.symm
      exact ⟨CTxDB.empty, CTxDB.empty, rfl, rfl, rfl⟩
  | append_singleton calls call ih =>
    have hall := h
    rw [connectAll_append, Option.bind_eq_some_iff] at h
    obtain ⟨mid, hmid, hlast⟩ := h
    rw [connectAll, List.foldlM_cons, Option.bind_eq_bind, Option.bind_eq_some_iff] at hlast
    obtain ⟨last, hconnect, hnil⟩ := hlast
    obtain rfl := Option.some.inj hnil
    rw [NoRepeats, List.pairwise_append] at hrepeats
    obtain ⟨hrepeats, -, hlast⟩ := hrepeats
    obtain ⟨hcanonical, hundo⟩ := ih hrepeats hmid
    have hnew : ∀ hash ∈ call.block.txids env, mid.txIndex[hash]? = none := by
      intro hash hmem
      rw [(chainIndex_connectAll hmid).keys]
      intro call' hcall' hmem'
      exact hlast call' hcall' call List.mem_cons_self hash hmem' hmem
    obtain ⟨hdisconnect, hcanonical'⟩ :=
      (CBlock.connectBlock_eq_some hconnect).disconnectTxs_eq hcanonical hnew
    refine ⟨hcanonical', ?_⟩
    intro kept undone heq
    rcases List.eq_nil_or_concat' undone with rfl | ⟨undone, call', rfl⟩
    · rw [List.append_nil] at heq
      subst heq
      exact ⟨last, last, hall, rfl, rfl⟩
    · rw [← List.append_assoc] at heq
      obtain ⟨rfl, hcall⟩ := List.append_inj' heq rfl
      obtain rfl := List.singleton_inj.mp hcall
      -- the last block first, then the others on the index it was connected on
      rw [← CBlock.map_txIndex_disconnectBlock env last call.pindex] at hdisconnect
      obtain ⟨first, hfirst, hindex⟩ := Option.map_eq_some_iff.mp hdisconnect
      obtain ⟨before, after, hbefore, hafter, hsame⟩ := hundo kept undone rfl
      have hcongr := disconnectAll_congr env hindex undone
      rw [hafter, Option.map_some] at hcongr
      obtain ⟨after', hafter', hsame'⟩ := Option.map_eq_some_iff.mp hcongr
      refine ⟨before, after', hbefore, ?_, hsame'.trans hsame⟩
      rw [disconnectAll_append, disconnectAll_singleton, ConnectCall.disconnect, hfirst]
      apply hafter'

/-! ### With repeats -/

/-- Disconnecting a transaction adds no key, drops its own, and needs those it spends from. -/
theorem disconnectInputs_keys
    {tx : CTransaction} {index' : TxIndexMap} (h : tx.disconnectInputs env index = some index') :
  index'[tx.getHash env.crypto]? = none
    ∧ (∀ hash : uint256, index[hash]? = none → index'[hash]? = none)
    ∧ ∀ o ∈ tx.prevouts, index[o.hash]? ≠ none
  := by
  rw [CTransaction.disconnectInputs] at h
  obtain ⟨mid, hmid, rfl⟩ := Option.map_eq_some_iff.mp h
  refine ⟨ExtTreeMap.getElem?_erase_self, ?_, ?_⟩
  · intro hash hnone
    rw [TreeMap.getElem?_erase_ite]
    split_ifs with hhash
    · rfl
    · split_ifs at hmid
      · obtain rfl := Option.some.inj hmid
        apply hnone
      · obtain ⟨rfl, -⟩ := foldlM_disconnectInput hmid
        rw [getElem?_setSlots_eq_none_iff]
        apply hnone
  · intro o ho
    rw [CTransaction.prevouts] at ho
    split_ifs at ho hmid with hcoinbase
    · cases ho
    · obtain ⟨-, hpresent⟩ := foldlM_disconnectInput hmid
      obtain ⟨txin, hmem, rfl⟩ := List.mem_map.mp ho
      apply hpresent txin hmem

theorem foldlM_disconnectInputs_keys
    {vtx : List CTransaction} {index' : TxIndexMap}
    (h : vtx.foldlM (CTransaction.disconnectInputs env) index = some index') :
  (∀ tx ∈ vtx, index'[tx.getHash env.crypto]? = none)
    ∧ (∀ hash : uint256, index[hash]? = none → index'[hash]? = none)
    ∧ ∀ tx ∈ vtx, ∀ o ∈ tx.prevouts, index[o.hash]? ≠ none
  := by
  induction vtx generalizing index with
  | nil =>
    obtain rfl := Option.some.inj h
    exact ⟨fun _ hmem => absurd hmem List.not_mem_nil, fun _ hnone => hnone,
      fun _ hmem => absurd hmem List.not_mem_nil⟩
  | cons tx vtx ih =>
    rw [List.foldlM_cons, Option.bind_eq_bind, Option.bind_eq_some_iff] at h
    obtain ⟨mid, hstep, hrest⟩ := h
    obtain ⟨herased, hkeep, hneeds⟩ := disconnectInputs_keys hstep
    obtain ⟨herased', hkeep', hneeds'⟩ := ih hrest
    refine ⟨List.forall_mem_cons.mpr ⟨hkeep' _ herased, herased'⟩,
      fun hash hnone => hkeep' hash (hkeep hash hnone),
      List.forall_mem_cons.mpr ⟨hneeds, ?_⟩⟩
    intro tx' hmem o ho hnone
    exact hneeds' tx' hmem o ho (hkeep _ hnone)

/-- Disconnecting a block adds no key, drops its own, and needs those it spends from. -/
theorem disconnect_keys
    (h : call.disconnect env txdb = some txdb') :
  (∀ hash ∈ call.block.txids env, txdb'.txIndex[hash]? = none)
    ∧ (∀ hash : uint256, txdb.txIndex[hash]? = none → txdb'.txIndex[hash]? = none)
    ∧ ∀ tx ∈ call.block.vtx, ∀ o ∈ tx.prevouts, txdb.txIndex[o.hash]? ≠ none
  := by
  have hindex := CBlock.map_txIndex_disconnectBlock env txdb call.pindex call.block
  rw [← ConnectCall.disconnect.eq_def env txdb call, h, Option.map_some, eq_comm] at hindex
  obtain ⟨herased, hkeep, hneeds⟩ := foldlM_disconnectInputs_keys hindex
  refine ⟨?_, hkeep, fun tx hmem => hneeds tx (List.mem_reverse.mpr hmem)⟩
  intro hash hmem
  obtain ⟨tx, htx, rfl⟩ := List.mem_map.mp hmem
  apply herased tx (List.mem_reverse.mpr htx)

/-- A key that is gone stays gone, and blocks that spend from it cannot be disconnected. -/
theorem disconnectAll_keys
    {hash : uint256} (h : disconnectAll env txdb calls = some txdb')
    (hnone : txdb.txIndex[hash]? = none) :
  txdb'.txIndex[hash]? = none
    ∧ ∀ call ∈ calls, ∀ tx ∈ call.block.vtx, ∀ o ∈ tx.prevouts, o.hash ≠ hash
  := by
  induction calls using List.reverseRecOn generalizing txdb with
  | nil =>
    obtain rfl := Option.some.inj h
    exact ⟨hnone, fun _ hmem => absurd hmem List.not_mem_nil⟩
  | append_singleton calls call ih =>
    rw [disconnectAll_append, disconnectAll_singleton, Option.bind_eq_some_iff] at h
    obtain ⟨mid, hstep, hrest⟩ := h
    obtain ⟨-, hkeep, hneeds⟩ := disconnect_keys hstep
    obtain ⟨hgone, hall⟩ := ih hrest (hkeep hash hnone)
    refine ⟨hgone, ?_⟩
    intro call' hmem
    rcases List.mem_append.mp hmem with hmem | hmem
    · apply hall call' hmem
    · obtain rfl := List.mem_singleton.mp hmem
      intro tx htx o ho heq
      apply hneeds tx htx o ho
      rw [heq, hnone]

/-- A sequence that can be undone has no repeats. -/
theorem noRepeats_of_undoable
    (hundo : Undoable env calls txdb) :
  NoRepeats env calls
  := by
  rw [NoRepeats, List.pairwise_iff_getElem]
  intro i j hi hj hlt hash hmem hmem'
  -- cut the sequence before the second block with the hash
  have hsplit : calls = calls.take j ++ (calls[j] :: calls.drop (j + 1)) := by
    rw [← List.drop_eq_getElem_cons hj, List.take_append_drop]
  obtain ⟨before, after, hbefore, hafter, hsame⟩ := hundo _ _ hsplit
  have hchain := chainIndex_connectAll hbefore
  have hfirst : calls[i] ∈ calls.take j := by
    rw [List.mem_take_iff_getElem]
    exact ⟨i, by omega, rfl⟩
  -- the hash was indexed before, and is gone after
  have hgone : after.txIndex[hash]? = none := by
    rw [← List.singleton_append, disconnectAll_append, Option.bind_eq_some_iff] at hafter
    obtain ⟨mid, -, hlast⟩ := hafter
    rw [disconnectAll_singleton] at hlast
    apply (disconnect_keys hlast).1 hash hmem'
  obtain ⟨txindex, hget⟩ : ∃ txindex, before.txIndex[hash]? = some txindex := by
    rw [← Option.ne_none_iff_exists']
    intro hnone
    exact (hchain.keys hash).mp hnone _ hfirst hmem
  obtain ⟨pos, hslot⟩ : ∃ pos, slot before.txIndex ⟨hash, 0⟩ = some pos := by
    rw [slot, hget, Option.bind_some]
    exact ⟨_, List.getElem?_eq_getElem (hchain.marked hash txindex hget)⟩
  cases hnull : pos.isNull with
  | true =>
    -- its first output was unspent, so it must be unspent again
    have hout : (⟨hash, 0⟩ : COutPoint) ∈ unspentOutputs after.txIndex := by
      rw [hsame]
      exact ⟨pos, hslot, hnull⟩
    obtain ⟨pos', hslot', -⟩ := hout
    rw [slot, hgone] at hslot'
    cases hslot'
  | false =>
    -- its first output was spent, and the block that spends it cannot be disconnected
    obtain ⟨call, hcall, tx, htx, ho⟩ := hchain.spent _ pos hslot hnull
    obtain ⟨-, final, -, hfinal, -⟩ := hundo [] calls rfl
    rw [hsplit, disconnectAll_append, hafter] at hfinal
    exact (disconnectAll_keys hfinal hgone).2 call hcall tx htx _ ho rfl

/-- Blocks connected one after the other on an empty database can be undone, any number of the
last of them, exactly when no transaction hash occurs in two of them. -/
theorem undoable_iff_noRepeats
    (env : Env) (calls : List ConnectCall) (txdb : CTxDB)
    (h : connectAll env CTxDB.empty calls = some txdb) :
  Undoable env calls txdb ↔ NoRepeats env calls
  := by
  constructor
  · intro hundo
    apply noRepeats_of_undoable hundo
  · intro hrepeats kept undone heq
    obtain ⟨before, after, hbefore, hafter, hindex⟩ :=
      (disconnectAll_of_noRepeats hrepeats h).2 kept undone heq
    refine ⟨before, after, hbefore, hafter, ?_⟩
    rw [hindex]

end Sequences

/-! ### A repeated coinbase -/

/-- Blocks follow one another on a chain. -/
def Linked (calls : List ConnectCall) : Prop :=
  calls.IsChain (fun call call' => call'.pindex.pprev = some call.pindex)

instance : DecidablePred Linked :=
  fun calls => inferInstanceAs (Decidable
    (calls.IsChain (fun call call' => call'.pindex.pprev = some call.pindex)))

/-- The place of the `i`-th of a row of small blocks. -/
def samplePos (i : ℕ) : BlockPos :=
  if h : 8 ≤ UInt32.ofNat (8 + 1000 * i) then
    { firstPos with nBlockPos := UInt32.ofNat (8 + 1000 * i), eight_le_nBlockPos := h }
  else firstPos

/-- The coinbase that is repeated. -/
def repeatedCoinbase : CTransaction := sampleCoinbase [1, 1] 5000

/-- The transactions of the `i`-th block: the first one has the coinbase that is repeated, the
31st spends it and the 32nd repeats it. -/
def repeatingVtx (i : ℕ) : List CTransaction :=
  if i = 1 then [repeatedCoinbase]
  else if i = 31 then
    [sampleCoinbase [1, 31] 1000, sampleSpend (repeatedCoinbase.getHash sampleCrypto) 4000]
  else if i = 32 then [repeatedCoinbase]
  else [sampleCoinbase [1, UInt8.ofNat i] 1000]

/-- The index entry of a first block. -/
def sampleFirst : CBlockIndex := .first ⟨7, samplePos 0, 1, 0, 1774996802, 0x207fffff, 0⟩

/-- The `i`-th block on top of an entry. -/
def repeatingBlock (pprev : CBlockIndex) (i : ℕ) : CBlock :=
  CBlock.assemble sampleEnv pprev.getBlockHash (UInt32.ofNat (1774996802 + 60 * i))
    (repeatingVtx i)

/-- The disk with the first block on it. -/
def repeatingReader : TxReader where
  disk pos := ((repeatingBlock sampleFirst 1).placed (samplePos 1)).lookup pos
  mempool := ∅

/-- The calls that connect the first blocks, and the entry of the last of them. -/
def repeatingChain : ℕ → CBlockIndex × List ConnectCall
  | 0 => (sampleFirst, [])
  | i + 1 =>
    let chain := repeatingChain i
    let block := repeatingBlock chain.1 (i + 1)
    let pindex : CBlockIndex :=
      .next ⟨block.getHash sampleEnv, samplePos (i + 1), block.nVersion, block.hashMerkleRoot,
        block.nTime, block.nBits, block.nNonce⟩ chain.1
    (pindex, chain.2 ++ [⟨repeatingReader, 1774999999, pindex, block⟩])

/-- The first 31 blocks are connected and have no repeats.  The 32nd is connected on top of them, and the last
two stay connected. -/
theorem repeatingChain_evaluated :
  (connectAll sampleEnv CTxDB.empty (repeatingChain 31).2).isSome = true
    ∧ ((repeatingChain 31).2.flatMap (fun call => call.block.txids sampleEnv)).Nodup
    ∧ Linked (repeatingChain 32).2
    ∧ (connectAll sampleEnv CTxDB.empty (repeatingChain 32).2).map (fun txdb =>
      (disconnectAll sampleEnv txdb ((repeatingChain 32).2.drop 30)).isSome) = some false
  := by
  decide +kernel

/-- 32 blocks are accepted one on top of the other, and the last two cannot be disconnected. -/
theorem repeatingChain_not_undoable :
  Linked (repeatingChain 32).2
    ∧ ∃ txdb, connectAll sampleEnv CTxDB.empty (repeatingChain 32).2 = some txdb
      ∧ ¬Undoable sampleEnv (repeatingChain 32).2 txdb
  := by
  obtain ⟨-, -, hlinked, hrun⟩ := repeatingChain_evaluated
  obtain ⟨txdb, hconnect, hdisconnect⟩ := Option.map_eq_some_iff.mp hrun
  refine ⟨hlinked, txdb, hconnect, ?_⟩
  intro hundo
  obtain ⟨before, after, -, hafter, -⟩ := hundo _ _ (List.take_append_drop 30 _).symm
  rw [hafter] at hdisconnect
  cases hdisconnect

/-- The blocks below the last, one of which spends the first coinbase, have no repeats. -/
theorem repeatingChain_undoable :
  ∃ txdb, connectAll sampleEnv CTxDB.empty (repeatingChain 31).2 = some txdb
    ∧ Undoable sampleEnv (repeatingChain 31).2 txdb
  := by
  obtain ⟨hsome, hnodup, -⟩ := repeatingChain_evaluated
  obtain ⟨txdb, hconnect⟩ := Option.isSome_iff_exists.mp hsome
  refine ⟨txdb, hconnect, ?_⟩
  apply (undoable_iff_noRepeats sampleEnv _ txdb hconnect).mpr
  apply (List.nodup_flatMap.mp hnodup).2

end CorgiCoin
