import CorgiCoin.Lib.TreeMap
import CorgiCoin.Work

/-!
# The transaction database

The transaction index maps the hash of a transaction to its place on disk and, for each of its
outputs, the place of the transaction that spends it, which is null as long as the output is
unspent.  `slot` and `setSlot` read and write the mark of one output; every change the node
makes to an existing entry is a `setSlot`.
-/

namespace CorgiCoin

open Std

/-! ## Entries -/

/-- Where a transaction is on disk. -/
structure CDiskTxPos where
  nFile : UInt32
  nBlockPos : UInt32
  nTxPos : UInt32
  deriving DecidableEq, Repr

namespace CDiskTxPos

/-- The value `SetNull` gives. -/
def null : CDiskTxPos := ⟨0xffffffff, 0, 0⟩

def isNull (pos : CDiskTxPos) : Bool := pos.nFile == 0xffffffff

/-- The position that stands for a transaction of the memory pool. -/
def pool : CDiskTxPos := ⟨1, 1, 1⟩

@[simp]
theorem isNull_null :
  null.isNull = true
  := rfl

end CDiskTxPos

/-- The place of a transaction and the marks of its outputs. -/
structure CTxIndex where
  pos : CDiskTxPos
  vSpent : List CDiskTxPos
  deriving DecidableEq, Repr

namespace CTxIndex

/-- The entry of a transaction none of whose outputs is spent. -/
def unspent (pos : CDiskTxPos) (nOutputs : ℕ) : CTxIndex :=
  ⟨pos, List.replicate nOutputs CDiskTxPos.null⟩

/-- What marks do not change. -/
def shape (txindex : CTxIndex) : CDiskTxPos × ℕ := (txindex.pos, txindex.vSpent.length)

end CTxIndex

/-- `CDiskBlockIndex`: a block index entry with hashes in the place of its pointers. -/
structure CDiskBlockIndex where
  hashNext : uint256
  pos : BlockPos
  nHeight : ℕ
  nVersion : Int32
  hashPrev : uint256
  hashMerkleRoot : uint256
  nTime : UInt32
  nBits : UInt32
  nNonce : UInt32
  deriving DecidableEq, Repr

namespace CDiskBlockIndex

/-- The entry to store for a block index entry followed by the given block. -/
def ofIndex (pindex : CBlockIndex) (hashNext : uint256) : CDiskBlockIndex where
  hashNext := hashNext
  pos := pindex.entry.pos
  nHeight := pindex.nHeight
  nVersion := pindex.entry.nVersion
  hashPrev := (pindex.pprev.map CBlockIndex.getBlockHash).getD 0
  hashMerkleRoot := pindex.entry.hashMerkleRoot
  nTime := pindex.entry.nTime
  nBits := pindex.entry.nBits
  nNonce := pindex.entry.nNonce

end CDiskBlockIndex

abbrev TxIndexMap := ExtTreeMap uint256 CTxIndex compare

/-! ## The database -/

/-- The records of the database. -/
structure CTxDB where
  txIndex : TxIndexMap
  blockIndex : ExtTreeMap uint256 CDiskBlockIndex compare
  hashBestChain : Option uint256
  vInvalidatedBlocks : List uint256
  bnBestInvalidWork : ℤ

namespace CTxDB

/-- A database nothing has been written to. -/
def empty : CTxDB := ⟨∅, ∅, none, [], 0⟩

def writeBlockIndex (txdb : CTxDB) (pindex : CBlockIndex) (hashNext : uint256) : CTxDB :=
  { txdb with
    blockIndex := txdb.blockIndex.insert pindex.getBlockHash
      (CDiskBlockIndex.ofIndex pindex hashNext) }

def writeHashBestChain (txdb : CTxDB) (hashBestChain : uint256) : CTxDB :=
  { txdb with hashBestChain := some hashBestChain }

end CTxDB

/-! ## Marks -/

/-- The mark of an output, if the index has one. -/
def slot (index : TxIndexMap) (o : COutPoint) : Option CDiskTxPos :=
  index[o.hash]?.bind (fun txindex => txindex.vSpent[o.n.toNat]?)

/-- Write the mark of an output the index has. -/
def setSlot (pos : CDiskTxPos) (index : TxIndexMap) (o : COutPoint) : TxIndexMap :=
  match index[o.hash]? with
  | none => index
  | some txindex =>
    index.insert o.hash { txindex with vSpent := txindex.vSpent.set o.n.toNat pos }

variable {o : COutPoint} {index : TxIndexMap} {pos : CDiskTxPos}

theorem slot_eq_some_iff
    :
  slot index o = some pos
    ↔ ∃ txindex, index[o.hash]? = some txindex ∧ txindex.vSpent[o.n.toNat]? = some pos
  := by
  rw [slot, Option.bind_eq_some_iff]

theorem setSlot_of_getElem?
    {txindex : CTxIndex} (pos : CDiskTxPos) (h : index[o.hash]? = some txindex) :
  setSlot pos index o
    = index.insert o.hash { txindex with vSpent := txindex.vSpent.set o.n.toNat pos }
  := by
  rw [setSlot, h]

/-- The entry at a hash after writing a mark. -/
theorem getElem?_setSlot
    (pos : CDiskTxPos) (index : TxIndexMap) (o : COutPoint) (hash : uint256) :
  (setSlot pos index o)[hash]?
    = if o.hash = hash then index[hash]?.map (fun txindex =>
        { txindex with vSpent := txindex.vSpent.set o.n.toNat pos })
      else index[hash]?
  := by
  rw [setSlot]
  split
  · rename_i hnone
    split_ifs with h
    · rw [← h, hnone]
      rfl
    · rfl
  · rename_i txindex hsome
    rw [TreeMap.getElem?_insert_ite]
    split_ifs with h
    · rw [← h, hsome]
      rfl
    · rfl

variable {hash : uint256}

/-- Writing marks neither adds nor drops entries. -/
theorem getElem?_setSlot_eq_none_iff
    :
  (setSlot pos index o)[hash]? = none ↔ index[hash]? = none
  := by
  rw [getElem?_setSlot]
  split_ifs
  · apply Option.map_eq_none_iff
  · rfl

/-- Writing a mark moves no transaction and keeps the number of its marks. -/
theorem map_shape_setSlot
    (pos : CDiskTxPos) (index : TxIndexMap) (o : COutPoint) (hash : uint256) :
  (setSlot pos index o)[hash]?.map CTxIndex.shape = index[hash]?.map CTxIndex.shape
  := by
  rw [getElem?_setSlot]
  split_ifs
  · cases index[hash]? with
    | none => rfl
    | some txindex => simp [CTxIndex.shape]
  · rfl

variable {o' : COutPoint}

theorem COutPoint.toNat_n_ne
    (hne : o ≠ o') (hhash : o.hash = o'.hash) :
  o.n.toNat ≠ o'.n.toNat
  := by
  intro hn
  apply hne
  obtain ⟨hash, n⟩ := o
  obtain ⟨hash', n'⟩ := o'
  obtain rfl : hash = hash' := hhash
  obtain rfl : n = n' := UInt32.toNat_inj.mp hn
  rfl

theorem slot_setSlot_self
    {p : CDiskTxPos} (pos : CDiskTxPos) (h : slot index o = some p) :
  slot (setSlot pos index o) o = some pos
  := by
  obtain ⟨txindex, hget, hslot⟩ := slot_eq_some_iff.mp h
  rw [slot, getElem?_setSlot, if_pos rfl, hget]
  obtain ⟨hlt, -⟩ := List.getElem?_eq_some_iff.mp hslot
  simp [hlt]

theorem slot_setSlot_of_ne
    (pos : CDiskTxPos) (h : o ≠ o') :
  slot (setSlot pos index o) o' = slot index o'
  := by
  rw [slot, slot, getElem?_setSlot]
  split_ifs with hhash
  · have hn := COutPoint.toNat_n_ne h hhash
    cases index[o'.hash]? with
    | none => rfl
    | some txindex => simp [List.getElem?_set_ne hn]
  · rfl

/-- The last of two marks of one output stays. -/
theorem setSlot_setSlot
    (p q : CDiskTxPos) (index : TxIndexMap) (o : COutPoint) :
  setSlot q (setSlot p index o) o = setSlot q index o
  := by
  apply ExtTreeMap.ext_getElem?
  intro hash
  rw [getElem?_setSlot, getElem?_setSlot, getElem?_setSlot]
  split_ifs
  · cases index[hash]? with
    | none => rfl
    | some txindex => simp
  · rfl

/-- Writing the mark that is there changes nothing. -/
theorem setSlot_of_slot
    (h : slot index o = some pos) :
  setSlot pos index o = index
  := by
  obtain ⟨txindex, hget, hslot⟩ := slot_eq_some_iff.mp h
  obtain ⟨hlt, hpos⟩ := List.getElem?_eq_some_iff.mp hslot
  rw [setSlot_of_getElem? pos hget, ← hpos, List.set_getElem_self]
  apply TreeMap.insert_of_getElem? hget

/-- Marks of different outputs are written in any order. -/
theorem setSlot_comm
    (p q : CDiskTxPos) (index : TxIndexMap) (h : o ≠ o') :
  setSlot q (setSlot p index o) o' = setSlot p (setSlot q index o') o
  := by
  apply ExtTreeMap.ext_getElem?
  intro hash
  rw [getElem?_setSlot, getElem?_setSlot, getElem?_setSlot, getElem?_setSlot]
  split_ifs with ho' ho
  · have hn := COutPoint.toNat_n_ne h (ho.trans ho'.symm)
    cases index[hash]? with
    | none => rfl
    | some txindex => simp [List.set_comm _ _ hn]
  · rfl
  · rfl
  · rfl

theorem setSlot_insert_of_ne
    (pos : CDiskTxPos) (index : TxIndexMap) (txindex : CTxIndex) (h : o.hash ≠ hash) :
  setSlot pos (index.insert hash txindex) o = (setSlot pos index o).insert hash txindex
  := by
  apply ExtTreeMap.ext_getElem?
  intro hash'
  rw [getElem?_setSlot, TreeMap.getElem?_insert_ite, TreeMap.getElem?_insert_ite,
    getElem?_setSlot]
  split_ifs with ho hh
  · exact absurd (ho.trans hh.symm) h
  · rfl
  · rfl
  · rfl

/-! ## Marks of several outputs -/

/-- Write one mark for each of several outputs. -/
def setSlots (pos : CDiskTxPos) (index : TxIndexMap) (os : List COutPoint) : TxIndexMap :=
  os.foldl (setSlot pos) index

theorem setSlots_cons
    (pos : CDiskTxPos) (index : TxIndexMap) (o : COutPoint) (os : List COutPoint) :
  setSlots pos index (o :: os) = setSlots pos (setSlot pos index o) os
  := rfl

variable {os : List COutPoint}

theorem slot_setSlots_of_not_mem
    (pos : CDiskTxPos) (h : o ∉ os) :
  slot (setSlots pos index os) o = slot index o
  := by
  induction os generalizing index with
  | nil => rfl
  | cons o' os ih =>
    obtain ⟨hne, hrest⟩ := not_or.mp (List.mem_cons.not.mp h)
    rw [setSlots_cons, ih hrest, slot_setSlot_of_ne pos (Ne.symm hne)]

theorem slot_setSlots_of_mem
    {p : CDiskTxPos} (pos : CDiskTxPos) (hslot : slot index o = some p) (h : o ∈ os) :
  slot (setSlots pos index os) o = some pos
  := by
  induction os generalizing index p with
  | nil => cases h
  | cons o' os ih =>
    rw [setSlots_cons]
    by_cases hmem : o ∈ os
    · by_cases ho : o' = o
      · subst ho
        apply ih (slot_setSlot_self pos hslot) hmem
      · apply ih (p := p) _ hmem
        rw [slot_setSlot_of_ne pos ho, hslot]
    · obtain rfl : o = o' := (List.mem_cons.mp h).resolve_right hmem
      rw [slot_setSlots_of_not_mem pos hmem, slot_setSlot_self pos hslot]

theorem setSlots_setSlot_comm
    (p q : CDiskTxPos) (index : TxIndexMap) (h : o ∉ os) :
  setSlot q (setSlots p index os) o = setSlots p (setSlot q index o) os
  := by
  induction os generalizing index with
  | nil => rfl
  | cons o' os ih =>
    obtain ⟨hne, hrest⟩ := not_or.mp (List.mem_cons.not.mp h)
    rw [setSlots_cons, setSlots_cons, ih _ hrest, setSlot_comm p q index (Ne.symm hne)]

/-- The last of two marks of several outputs stays. -/
theorem setSlots_setSlots
    (p q : CDiskTxPos) (index : TxIndexMap) (hnodup : os.Nodup) :
  setSlots q (setSlots p index os) os = setSlots q index os
  := by
  induction os generalizing index with
  | nil => rfl
  | cons o os ih =>
    rw [List.nodup_cons] at hnodup
    rw [setSlots_cons, setSlots_cons, setSlots_setSlot_comm _ _ _ hnodup.1, setSlot_setSlot,
      ih _ hnodup.2, setSlots_cons]

theorem setSlots_append
    (pos : CDiskTxPos) (index : TxIndexMap) (os os' : List COutPoint) :
  setSlots pos index (os ++ os') = setSlots pos (setSlots pos index os) os'
  := List.foldl_append

/-- Lists of outputs get one mark in any order. -/
theorem setSlots_comm
    (pos : CDiskTxPos) (index : TxIndexMap) (os os' : List COutPoint) :
  setSlots pos (setSlots pos index os) os' = setSlots pos (setSlots pos index os') os
  := by
  have hcomm : ∀ (index : TxIndexMap) (o o' : COutPoint),
      setSlot pos (setSlot pos index o) o' = setSlot pos (setSlot pos index o') o := by
    intro index o o'
    by_cases h : o = o'
    · rw [h]
    · apply setSlot_comm pos pos index h
  have hone : ∀ (index : TxIndexMap) (o : COutPoint),
      setSlots pos (setSlot pos index o) os' = setSlot pos (setSlots pos index os') o := by
    intro index o
    induction os' generalizing index with
    | nil => rfl
    | cons o' os' ih => rw [setSlots_cons, hcomm, ih, setSlots_cons]
  induction os generalizing index with
  | nil => rfl
  | cons o os ih => rw [setSlots_cons, ih, hone, setSlots_cons]

/-- Writing null to outputs that are marked so, or not indexed, changes nothing. -/
theorem setSlots_null_of_slot
    {index : TxIndexMap} {os : List COutPoint}
    (hnull : ∀ o ∈ os, ∀ pos, slot index o = some pos → pos = CDiskTxPos.null) :
  setSlots CDiskTxPos.null index os = index
  := by
  induction os with
  | nil => rfl
  | cons o os ih =>
    obtain ⟨ho, hos⟩ := List.forall_mem_cons.mp hnull
    have hsame : setSlot CDiskTxPos.null index o = index := by
      cases hslot : slot index o with
      | some pos =>
        rw [ho pos hslot] at hslot
        apply setSlot_of_slot hslot
      | none =>
        rw [setSlot]
        cases hget : index[o.hash]? with
        | none => rfl
        | some txindex =>
          rw [slot, hget, Option.bind_some, List.getElem?_eq_none_iff] at hslot
          simp only
          rw [List.set_eq_of_length_le hslot]
          apply TreeMap.insert_of_getElem? hget
    rw [setSlots_cons, hsame, ih hos]

theorem getElem?_setSlots_eq_none_iff
    :
  (setSlots pos index os)[hash]? = none ↔ index[hash]? = none
  := by
  induction os generalizing index with
  | nil => rfl
  | cons o os ih => rw [setSlots_cons, ih, getElem?_setSlot_eq_none_iff]

theorem map_shape_setSlots
    (pos : CDiskTxPos) (index : TxIndexMap) (os : List COutPoint) (hash : uint256) :
  (setSlots pos index os)[hash]?.map CTxIndex.shape = index[hash]?.map CTxIndex.shape
  := by
  induction os generalizing index with
  | nil => rfl
  | cons o os ih => rw [setSlots_cons, ih, map_shape_setSlot]

theorem setSlots_insert_of_ne
    (pos : CDiskTxPos) (index : TxIndexMap) (txindex : CTxIndex) (h : ∀ o ∈ os, o.hash ≠ hash) :
  setSlots pos (index.insert hash txindex) os = (setSlots pos index os).insert hash txindex
  := by
  induction os generalizing index with
  | nil => rfl
  | cons o os ih =>
    obtain ⟨ho, hos⟩ := List.forall_mem_cons.mp h
    rw [setSlots_cons, setSlots_cons, setSlot_insert_of_ne pos index txindex ho, ih _ hos]

/-- Marks written after a transaction is indexed are those of the others and those of its own. -/
theorem setSlots_insert
    (pos : CDiskTxPos) (hnew : index[hash]? = none) (txindex : CTxIndex) (os : List COutPoint) :
  ∃ txindex', setSlots pos (index.insert hash txindex) os
    = (setSlots pos index os).insert hash txindex'
  := by
  induction os generalizing index txindex with
  | nil => exact ⟨txindex, rfl⟩
  | cons o os ih =>
    rw [setSlots_cons, setSlots_cons]
    by_cases ho : o.hash = hash
    · have hinsert : setSlot pos (index.insert hash txindex) o = index.insert hash
          { txindex with vSpent := txindex.vSpent.set o.n.toNat pos } := by
        rw [setSlot_of_getElem? pos (by rw [ho, ExtTreeMap.getElem?_insert_self]), ho,
          TreeMap.insert_insert]
      have hnone : setSlot pos index o = index := by
        rw [setSlot, ho, hnew]
      rw [hinsert, hnone]
      apply ih hnew
    · rw [setSlot_insert_of_ne pos index txindex ho]
      apply ih
      rw [getElem?_setSlot_eq_none_iff]
      exact hnew

end CorgiCoin
