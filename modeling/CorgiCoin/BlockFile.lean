import CorgiCoin.BlockCodec
import CorgiCoin.ConnectBlock
import Mathlib.Data.List.Induction

/-!
# Block files

Blocks are appended to numbered files, each after the four bytes of the network and four bytes
of size, and the transaction index points into the files.  `Holds` says that a file has given
bytes at an offset; appending keeps it, and it is all that reading back depends on.
-/

namespace CorgiCoin

open Std Codec

/-! ## Files -/

/-- A block file: the records appended to it, the last first, and how long they are. -/
structure BlockFile where
  records : List Bytes
  length : ℕ
  length_eq : length = records.reverse.flatten.length

namespace BlockFile

def empty : BlockFile := ⟨[], 0, rfl⟩

def bytes (file : BlockFile) : Bytes := file.records.reverse.flatten

def append (file : BlockFile) (record : Bytes) : BlockFile where
  records := record :: file.records
  length := file.length + record.length
  length_eq := by simp [file.length_eq]

theorem length_bytes (file : BlockFile) :
  file.bytes.length = file.length
  := file.length_eq.symm

theorem bytes_append (file : BlockFile) (record : Bytes) :
  (file.append record).bytes = file.bytes ++ record
  := by
  simp [bytes, append]

end BlockFile

/-- The block files and the number of the one blocks are appended to. -/
structure BlockFiles where
  nCurrentBlockFile : UInt32
  files : ExtTreeMap UInt32 BlockFile compare
  one_le : 1 ≤ nCurrentBlockFile

namespace BlockFiles

def empty : BlockFiles := ⟨1, ∅, BlockPos.first.one_le_nFile⟩

/-- `OpenBlockFile` for reading. -/
def openBlockFile (files : BlockFiles) (nFile : UInt32) : Option Bytes :=
  if nFile < 1 || nFile == 0xffffffff then none else files.files[nFile]?.map BlockFile.bytes

/-- A file opened for appending is created where it does not exist. -/
def current (files : BlockFiles) : BlockFile :=
  files.files[files.nCurrentBlockFile]?.getD BlockFile.empty

/-- The current file can be opened, and a record may be appended to it. -/
def HasRoom (files : BlockFiles) : Prop :=
  files.nCurrentBlockFile ≠ 0xffffffff ∧ files.current.length < 0x7F000000 - MAX_SIZE

instance : DecidablePred HasRoom :=
  fun files => inferInstanceAs (Decidable (files.nCurrentBlockFile ≠ 0xffffffff
    ∧ files.current.length < 0x7F000000 - MAX_SIZE))

theorem one_le_succ {n : UInt32} (hone : 1 ≤ n) (hne : n ≠ 0xffffffff) :
  1 ≤ n + 1
  := by
  have htoNat : n.toNat ≠ 0xffffffff := fun heq => hne (UInt32.toNat_inj.mp heq)
  have hlt := n.toNat_lt
  rw [UInt32.le_iff_toNat_le] at hone ⊢
  rw [UInt32.toNat_add]
  simp only [UInt32.toNat_one] at hone ⊢
  omega

/-- The loop of `AppendBlockFile`: go on to the first file with room.  The first argument
bounds the number of files tried. -/
def appendBlockFile : ℕ → BlockFiles → Option { files : BlockFiles // files.HasRoom }
  | 0, _ => none
  | fuel + 1, files =>
    if hopen : files.nCurrentBlockFile = 0xffffffff then none
    else if hroom : files.current.length < 0x7F000000 - MAX_SIZE then
      some ⟨files, hopen, hroom⟩
    else
      appendBlockFile fuel
        ⟨files.nCurrentBlockFile + 1, files.files, one_le_succ files.one_le hopen⟩

/-- The four bytes every record starts with. -/
def pchMessageStart : Network → Bytes
  | .main => [0xc0, 0xc0, 0xc0, 0xc0]
  | .test => [0xfc, 0xc1, 0xb7, 0xdc]
  | .regtest => [0xfa, 0xc0, 0xb6, 0xda]

/-- The place after the eight bytes a record starts with. -/
def nextPos (files : BlockFiles) (hroom : files.HasRoom) : BlockPos where
  nFile := files.nCurrentBlockFile
  nBlockPos := UInt32.ofNat (files.current.length + 8)
  one_le_nFile := files.one_le
  nFile_ne := hroom.1
  eight_le_nBlockPos := by
    have hlt : files.current.length < 0x7F000000 - MAX_SIZE := hroom.2
    have hsize : MAX_SIZE = 0x02000000 := rfl
    rw [UInt32.le_iff_toNat_le, UInt32.toNat_ofNat_of_lt' (by simp [UInt32.size]; omega)]
    simp

/-- Append a record to the current file. -/
def appendRecord (files : BlockFiles) (record : Bytes) : BlockFiles :=
  { files with
    files := files.files.insert files.nCurrentBlockFile (files.current.append record) }

/-- `CBlock::WriteToDisk`: the files after it and the place of the block, or `none` where it
fails. -/
def writeToDisk (files : BlockFiles) (network : Network) (block : CBlock) :
    Option (BlockFiles × BlockPos) := do
  let room ← appendBlockFile (2 ^ 32) files
  let nSize ← block.getSerializeSize SER_DISK
  let data ← block.serialize SER_DISK
  return (room.1.appendRecord (pchMessageStart network ++ (serializeUInt nSize ++ data)),
    room.1.nextPos room.2)

/-- `CTransaction::ReadFromDisk`. -/
def readTx (files : BlockFiles) (pos : CDiskTxPos) : Option CTransaction := do
  let bytes ← files.openBlockFile pos.nFile
  let result ← CTransaction.unserialize.run (bytes.drop pos.nTxPos.toNat)
  return result.1

/-- `CBlock::ReadFromDisk` at a position. -/
def readBlock (env : Env) (files : BlockFiles) (pos : BlockPos) : Option CBlock := do
  let bytes ← files.openBlockFile pos.nFile
  let result ← (CBlock.unserialize SER_DISK).run (bytes.drop pos.nBlockPos.toNat)
  if checkAuxProofOfWork env result.1 result.1.nBits then some result.1 else none

/-- `CBlock::ReadFromDisk` of a block index entry. -/
def readFromDisk (env : Env) (files : BlockFiles) (pindex : CBlockIndex) : Option CBlock := do
  let block ← files.readBlock env pindex.entry.pos
  if block.getHash env != pindex.getBlockHash then none else some block

/-! ## What the files hold -/

/-- A file has the given bytes at an offset. -/
def Holds (files : BlockFiles) (nFile : UInt32) (offset : ℕ) (data : Bytes) : Prop :=
  ∃ bytes rest, files.openBlockFile nFile = some bytes ∧ bytes.drop offset = data ++ rest

variable {files : BlockFiles} {nFile : UInt32} {offset : ℕ} {data : Bytes}

theorem Holds.left
    {data' : Bytes} (h : files.Holds nFile offset (data ++ data')) :
  files.Holds nFile offset data
  := by
  obtain ⟨bytes, rest, hopen, hdrop⟩ := h
  rw [List.append_assoc] at hdrop
  exact ⟨bytes, data' ++ rest, hopen, hdrop⟩

theorem Holds.right
    {data' : Bytes} (h : files.Holds nFile offset (data ++ data')) :
  files.Holds nFile (offset + data.length) data'
  := by
  obtain ⟨bytes, rest, hopen, hdrop⟩ := h
  refine ⟨bytes, rest, hopen, ?_⟩
  rw [← List.drop_drop, hdrop, List.append_assoc, List.drop_left]

/-- Opening a file after a record was appended. -/
theorem openBlockFile_appendRecord
    (files : BlockFiles) (record : Bytes) {bytes : Bytes} (h : files.openBlockFile nFile = some bytes) :
  ∃ more, (files.appendRecord record).openBlockFile nFile = some (bytes ++ more)
  := by
  rw [openBlockFile] at h
  split_ifs at h with hvalid
  obtain ⟨file, hget, rfl⟩ := Option.map_eq_some_iff.mp h
  rw [openBlockFile, if_neg hvalid, appendRecord]
  simp only [TreeMap.getElem?_insert_ite]
  split_ifs with hcurrent
  · use record
    rw [Option.map_some, current, hcurrent, hget, Option.getD_some, BlockFile.bytes_append]
  · use []
    rw [hget, Option.map_some, List.append_nil]

theorem Holds.appendRecord
    (h : files.Holds nFile offset data) (record : Bytes) :
  (files.appendRecord record).Holds nFile offset data
  := by
  obtain ⟨bytes, rest, hopen, hdrop⟩ := h
  obtain ⟨more, hmore⟩ := openBlockFile_appendRecord files record hopen
  refine ⟨bytes ++ more, rest ++ more.drop (offset - bytes.length), hmore, ?_⟩
  rw [List.drop_append, hdrop, List.append_assoc]

/-- The record appended is at the end of the current file. -/
theorem holds_appendRecord
    (hroom : files.HasRoom) (record : Bytes) :
  (files.appendRecord record).Holds files.nCurrentBlockFile files.current.length record
  := by
  have hvalid : ¬(decide (files.nCurrentBlockFile < 1)
      || files.nCurrentBlockFile == 0xffffffff) = true := by
    rw [Bool.or_eq_true, decide_eq_true_iff, beq_iff_eq, not_or]
    exact ⟨UInt32.not_lt.mpr files.one_le, hroom.1⟩
  refine ⟨files.current.bytes ++ record, [], ?_, ?_⟩
  · rw [openBlockFile, if_neg hvalid, BlockFiles.appendRecord, ExtTreeMap.getElem?_insert_self,
      Option.map_some, BlockFile.bytes_append]
  · rw [← BlockFile.length_bytes, List.drop_left, List.append_nil]

/-- Going on to a file with room changes no file. -/
theorem files_appendBlockFile
    {fuel : ℕ} {room : { files : BlockFiles // files.HasRoom }}
    (h : appendBlockFile fuel files = some room) :
  room.1.files = files.files
  := by
  induction fuel generalizing files with
  | zero => cases h
  | succ fuel ih =>
    rw [appendBlockFile] at h
    split_ifs at h
    · obtain rfl := Option.some.inj h
      rfl
    · apply ih h

theorem openBlockFile_congr
    {files' : BlockFiles} (h : files.files = files'.files) (nFile : UInt32) :
  files.openBlockFile nFile = files'.openBlockFile nFile
  := by
  rw [openBlockFile, openBlockFile, h]

variable {pos : BlockPos}

/-- What `WriteToDisk` does: the files keep what they held and hold the block at the place
returned. -/
theorem writeToDisk_eq_some
    {files' : BlockFiles} {network : Network} {block : CBlock} (hpresent : block.AuxPowPresent)
    (h : files.writeToDisk network block = some (files', pos)) :
  (∀ nFile offset data, files.Holds nFile offset data → files'.Holds nFile offset data)
    ∧ files'.Holds pos.nFile pos.nBlockPos.toNat (block.bytes SER_DISK)
    ∧ pos.nBlockPos.toNat < 0x7F000000
  := by
  rw [writeToDisk, CBlock.getSerializeSize_eq SER_DISK hpresent,
    CBlock.serialize_eq SER_DISK hpresent] at h
  simp only [Option.bind_eq_bind, Option.bind_some, Option.bind_eq_some_iff] at h
  obtain ⟨⟨room, hroom⟩, happend, h⟩ := h
  obtain ⟨rfl, rfl⟩ := Prod.mk.inj (Option.some.inj h)
  have hlt : room.current.length < 0x7F000000 - MAX_SIZE := hroom.2
  have hsize : MAX_SIZE = 0x02000000 := rfl
  have hpos : (room.nextPos hroom).nBlockPos.toNat = room.current.length + 8 := by
    rw [nextPos, UInt32.toNat_ofNat_of_lt' (by simp [UInt32.size]; omega)]
  refine ⟨?_, ?_, ?_⟩
  · intro nFile offset data hholds
    apply Holds.appendRecord
    obtain ⟨bytes, rest, hopen, hdrop⟩ := hholds
    refine ⟨bytes, rest, ?_, hdrop⟩
    rw [openBlockFile_congr (files_appendBlockFile happend), hopen]
  · have hrecord := holds_appendRecord hroom (pchMessageStart network
      ++ (serializeUInt (UInt32.ofNat (block.bytes SER_DISK).length) ++ block.bytes SER_DISK))
    have hmagic : (pchMessageStart network).length = 4 := by
      cases network <;> rfl
    have hblock := hrecord.right.right
    rw [hmagic, serializeUInt, length_toLE, add_assoc] at hblock
    rw [hpos]
    apply hblock
  · rw [hpos]
    omega

/-- A block is written to the current file where that has room. -/
theorem exists_writeToDisk
    (hroom : files.HasRoom) (network : Network) {block : CBlock} (hpresent : block.AuxPowPresent) :
  ∃ files' pos, files.writeToDisk network block = some (files', pos)
    ∧ files'.nCurrentBlockFile = files.nCurrentBlockFile
    ∧ files'.current.length = files.current.length + 8 + (block.bytes SER_DISK).length
  := by
  have happend : appendBlockFile (2 ^ 32) files = some ⟨files, hroom⟩ := by
    rw [show 2 ^ 32 = (2 ^ 32 - 1) + 1 by decide, appendBlockFile, dif_neg hroom.1, dif_pos hroom.2]
  have hmagic : (pchMessageStart network).length = 4 := by
    cases network <;> rfl
  refine ⟨files.appendRecord (pchMessageStart network
      ++ (serializeUInt (UInt32.ofNat (block.bytes SER_DISK).length) ++ block.bytes SER_DISK)),
    files.nextPos hroom, ?_, rfl, ?_⟩
  · rw [writeToDisk, CBlock.getSerializeSize_eq SER_DISK hpresent,
      CBlock.serialize_eq SER_DISK hpresent, happend]
    rfl
  · simp only [appendRecord, current, ExtTreeMap.getElem?_insert_self, Option.getD_some,
      BlockFile.append, List.length_append, hmagic, serializeUInt, length_toLE]
    omega

/-! ## Reading back -/

theorem readTx_of_holds
    {pos : CDiskTxPos} {tx : CTransaction} (hfits : tx.Fits)
    (h : files.Holds pos.nFile pos.nTxPos.toNat tx.serialize) :
  files.readTx pos = some tx
  := by
  obtain ⟨bytes, rest, hopen, hdrop⟩ := h
  rw [readTx, hopen]
  simp only [Option.bind_eq_bind, Option.bind_some]
  rw [hdrop, CTransaction.lawful.read_write tx hfits]
  rfl

theorem readBlock_of_holds
    {env : Env} {block : CBlock} (hpresent : block.AuxPowPresent) (hfits : block.Fits)
    (hwork : checkAuxProofOfWork env block block.nBits = true)
    (h : files.Holds pos.nFile pos.nBlockPos.toNat (block.bytes SER_DISK)) :
  files.readBlock env pos = some block
  := by
  obtain ⟨bytes, rest, hopen, hdrop⟩ := h
  rw [readBlock, hopen]
  simp only [Option.bind_eq_bind, Option.bind_some]
  rw [hdrop, CBlock.unserialize_bytes rfl hpresent hfits]
  have hform : CBlock.form SER_DISK block = block := rfl
  simp only [Option.bind_some, hform, hwork, if_true]

/-- Transactions stored one after the other from an offset are at the positions counted from
it, as long as the offsets fit 32 bits. -/
theorem holds_txPositions
    {vtx : List CTransaction}
    (hholds : files.Holds pos.nFile offset (vtx.flatMap CTransaction.serialize))
    (hlt : offset + (vtx.flatMap CTransaction.serialize).length < 2 ^ 32) :
  ∀ placed ∈ txPositions pos (UInt32.ofNat offset) vtx,
    files.Holds placed.1.nFile placed.1.nTxPos.toNat placed.2.serialize
  := by
  induction vtx generalizing offset with
  | nil => exact fun _ hmem => absurd hmem List.not_mem_nil
  | cons tx vtx ih =>
    rw [List.flatMap_cons] at hholds hlt
    rw [List.length_append] at hlt
    have hoffset : (UInt32.ofNat offset).toNat = offset := by
      apply UInt32.toNat_ofNat_of_lt'
      rw [UInt32.size]
      omega
    rw [txPositions, List.forall_mem_cons]
    constructor
    · rw [BlockPos.txPos, hoffset]
      apply hholds.left
    · rw [CTransaction.lawful.size_eq, ← UInt32.ofNat_add]
      apply ih hholds.right
      omega

end BlockFiles

/-! ## Positions in the transaction index -/

/-- Transactions with different hashes stay at the positions they were added at. -/
theorem map_shape_foldl_addTx
    {env : Env} {placed : List (CDiskTxPos × CTransaction)} {pos : CDiskTxPos}
    {tx : CTransaction} (index : TxIndexMap)
    (hnodup : (placed.map (fun p => p.2.getHash env.crypto)).Nodup)
    (hmem : (pos, tx) ∈ placed) :
  (placed.foldl (addTx env) index)[tx.getHash env.crypto]?.map CTxIndex.shape
    = some (pos, tx.vout.length)
  := by
  induction placed using List.reverseRecOn with
  | nil => cases hmem
  | append_singleton placed p ih =>
    rw [List.map_append, List.nodup_append] at hnodup
    obtain ⟨hnodup, -, hdisjoint⟩ := hnodup
    rw [List.foldl_append, List.foldl_cons, List.foldl_nil, addTx, TreeMap.getElem?_insert_ite]
    rcases List.mem_append.mp hmem with hmem | hmem
    · rw [if_neg, map_shape_setSlots]
      · apply ih hnodup hmem
      · intro heq
        exact hdisjoint _ (List.mem_map_of_mem hmem) _ List.mem_cons_self heq.symm
    · obtain rfl := List.mem_singleton.mp hmem
      rw [if_pos rfl, Option.map_some, CTxIndex.shape, CTxIndex.unspent, List.length_replicate]

/-- The transactions of a block are read back at the positions they are indexed at. -/
def CBlock.StoredAt (disk : CDiskTxPos → Option CTransaction) (pos : BlockPos)
    (block : CBlock) : Prop :=
  ∀ placed ∈ block.placed pos, disk placed.1 = some placed.2

variable {block : CBlock}

/-- A file that holds a block below the 32-bit limit holds its transactions at the positions
they are indexed at. -/
theorem CBlock.holds_placed
    {files : BlockFiles} {pos : BlockPos} (hpresent : block.AuxPowPresent)
    (hholds : files.Holds pos.nFile pos.nBlockPos.toNat (block.bytes SER_DISK))
    (hlt : pos.nBlockPos.toNat + (block.bytes SER_DISK).length < 2 ^ 32) :
  ∀ placed ∈ block.placed pos,
    files.Holds placed.1.nFile placed.1.nTxPos.toNat placed.2.serialize
  := by
  -- the bytes before the first transaction are those of the header-only form and the count
  have hheader : block.bytes (SER_DISK ||| SER_BLOCKHEADERONLY)
      = block.toCPureBlockHeader.serialize ++ auxPowBytes SER_DISK block := by
    rw [bytes]
    have hvtx : vtxBytes (SER_DISK ||| SER_BLOCKHEADERONLY) block = [] := rfl
    rw [hvtx, List.append_nil]
    rfl
  have hbytes : block.bytes SER_DISK
      = (block.bytes (SER_DISK ||| SER_BLOCKHEADERONLY) ++ writeCompactSize block.vtx.length)
        ++ block.vtx.flatMap CTransaction.serialize := by
    have hvtx : vtxBytes SER_DISK block
        = writeCompactSize block.vtx.length ++ block.vtx.flatMap CTransaction.serialize := rfl
    rw [hheader, bytes, hvtx]
    simp only [List.append_assoc]
  have hstart : block.txStart pos = some (UInt32.ofNat (pos.nBlockPos.toNat
      + (block.bytes (SER_DISK ||| SER_BLOCKHEADERONLY)
        ++ writeCompactSize block.vtx.length).length)) := by
    rw [txStart, getSerializeSize_eq _ hpresent, getSizeOfCompactSize_eq, List.length_append,
      UInt32.ofNat_add, UInt32.ofNat_add, UInt32.ofNat_toNat, Option.map_some, UInt32.add_assoc]
  rw [hbytes] at hholds hlt
  rw [List.length_append] at hlt
  rw [placed, hstart]
  apply BlockFiles.holds_txPositions hholds.right
  omega

/-- A block held by a file below the 32-bit limit is stored at its place. -/
theorem CBlock.storedAt_of_holds
    {files : BlockFiles} {pos : BlockPos} (hpresent : block.AuxPowPresent) (hfits : block.Fits)
    (hholds : files.Holds pos.nFile pos.nBlockPos.toNat (block.bytes SER_DISK))
    (hlt : pos.nBlockPos.toNat + (block.bytes SER_DISK).length < 2 ^ 32) :
  block.StoredAt files.readTx pos
  := by
  intro placed hmem
  apply BlockFiles.readTx_of_holds (hfits.vtx_fits _ (mem_txPositions hmem).1)
  apply holds_placed hpresent hholds hlt placed hmem

/-- The entry `ConnectBlock` leaves in the index for a transaction of the block has the
position the transaction is indexed at. -/
theorem BlockConnects.pos_eq
    {env : Env} {reader : TxReader} {txdb txdb' : CTxDB} {pindex : CBlockIndex}
    (h : BlockConnects env reader txdb pindex block txdb') {placed : CDiskTxPos × CTransaction}
    (hmem : placed ∈ block.placed pindex.entry.pos) :
  ∃ txindex, txdb'.txIndex[placed.2.getHash env.crypto]? = some txindex
    ∧ txindex.pos = placed.1
  := by
  have hnodup : ((block.placed pindex.entry.pos).map (fun p => p.2.getHash env.crypto)).Nodup := by
    have hids : ((block.placed pindex.entry.pos).map Prod.snd).map
        (CTransaction.getHash env.crypto) = block.txids env := by
      rw [CBlock.placed, map_snd_txPositions, CBlock.txids]
    rw [List.map_map] at hids
    have hnodup := h.checked.nodup
    rw [← hids] at hnodup
    apply hnodup
  have hshape := map_shape_foldl_addTx txdb.txIndex hnodup hmem
  rw [← h.txIndex_eq] at hshape
  obtain ⟨txindex, hget, heq⟩ := Option.map_eq_some_iff.mp hshape
  exact ⟨txindex, hget, (Prod.mk.inj heq).1⟩

/-! ## Transactions of an accepted block -/

/-- `CheckTransaction` bounds the vectors of a transaction, unless its size wraps around. -/
theorem CTransaction.fits_of_checkTransaction
    {tx : CTransaction} (hlt : tx.serialize.length < 2 ^ 32) (h : tx.checkTransaction = true) :
  tx.Fits
  := by
  have hsize : tx.getSerializeSize ≤ MAX_BLOCK_SIZE := by
    rw [checkTransaction] at h
    split_ifs at h with _ _ hlarge <;> exact UInt32.not_lt.mp hlarge
  have hle := UInt32.le_iff_toNat_le.mp hsize
  rw [CTransaction.lawful.size_eq, UInt32.toNat_ofNat_of_lt' hlt] at hle
  exact fits_of_length (hle.trans (by decide))

/-- So the transactions of a block that `CheckBlock` accepts are within the limits of the format. -/
theorem CBlock.Checked.fits
    {env : Env} (h : block.Checked env) (hlt : (block.bytes SER_DISK).length < 2 ^ 32)
    {tx : CTransaction} (hmem : tx ∈ block.vtx) :
  tx.Fits
  := by
  have hle := length_le_serializeVector CTransaction.serialize hmem
  have hbytes : block.bytes SER_DISK = block.toCPureBlockHeader.serialize
      ++ (auxPowBytes SER_DISK block ++ serializeVector CTransaction.serialize block.vtx) := rfl
  rw [hbytes, List.length_append, List.length_append] at hlt
  apply CTransaction.fits_of_checkTransaction _ (h.checkTransaction _ hmem)
  omega

/-- The position `ConnectBlock` stores for a transaction of a block is the one at which the
transaction is read back, when `WriteToDisk` put the block at the place of its index entry and
the block ends below the 32-bit limit of the offsets. -/
theorem indexed_tx_readable
    (env : Env) (reader : TxReader) (nAdjustedTime : ℤ) (txdb txdb' : CTxDB)
    (files files' : BlockFiles) (pindex : CBlockIndex) (block : CBlock)
    (hpresent : block.AuxPowPresent)
    (hwrite : files.writeToDisk env.network block = some (files', pindex.entry.pos))
    (hlt : pindex.entry.pos.nBlockPos.toNat + (block.bytes SER_DISK).length < 2 ^ 32)
    (hconnect : block.connectBlock env reader nAdjustedTime txdb pindex = some txdb')
    (i : ℕ) (tx : CTransaction) (hi : block.vtx[i]? = some tx) :
  ∃ txindex, txdb'.txIndex[tx.getHash env.crypto]? = some txindex
    ∧ files'.readTx txindex.pos = some tx
  := by
  have hconnects := CBlock.connectBlock_eq_some hconnect
  obtain ⟨-, hholds, -⟩ := BlockFiles.writeToDisk_eq_some hpresent hwrite
  have hmem : tx ∈ (block.placed pindex.entry.pos).map Prod.snd := by
    rw [CBlock.placed, map_snd_txPositions]
    apply List.mem_of_getElem? hi
  obtain ⟨placed, hplaced, rfl⟩ := List.mem_map.mp hmem
  obtain ⟨txindex, hget, hpos⟩ := hconnects.pos_eq hplaced
  refine ⟨txindex, hget, ?_⟩
  rw [hpos]
  apply BlockFiles.readTx_of_holds (hconnects.checked.fits (by omega) (mem_txPositions hplaced).1)
  apply CBlock.holds_placed hpresent hholds hlt placed hplaced

/-! ## A block on disk -/

/-- The place of the first block of the first file. -/
def firstPos : BlockPos := BlockPos.first

/-- An index entry for a block at a place, on top of an entry for its previous block. -/
def sampleEntry (env : Env) (pos : BlockPos) (block : CBlock) : CBlockIndex :=
  .next ⟨block.getHash env, pos, block.nVersion, block.hashMerkleRoot, block.nTime, block.nBits,
      block.nNonce⟩
    (.first ⟨block.hashPrevBlock, firstPos, 1, 0, 1774996802, block.nBits, 0⟩)

/-- A block of one coinbase. -/
def sampleBlock : CBlock :=
  CBlock.assemble sampleEnv 0 1774997000 [sampleCoinbase [1, 2] 5000]

theorem sampleBlock_indexed_tx_readable :
  ∃ files' txdb',
    BlockFiles.empty.writeToDisk .regtest sampleBlock = some (files', firstPos)
      ∧ sampleBlock.connectBlock sampleEnv ⟨fun _ => none, ∅⟩ 1774997000 CTxDB.empty
        (sampleEntry sampleEnv firstPos sampleBlock) = some txdb'
      ∧ ∃ txindex,
        txdb'.txIndex[(sampleCoinbase [1, 2] 5000).getHash sampleCrypto]? = some txindex
          ∧ files'.readTx txindex.pos = some (sampleCoinbase [1, 2] 5000)
  := by
  have hpos : (BlockFiles.empty.writeToDisk .regtest sampleBlock).map Prod.snd
      = some firstPos := by decide
  obtain ⟨⟨files', pos⟩, hwrite, rfl⟩ := Option.map_eq_some_iff.mp hpos
  have hsome : (sampleBlock.connectBlock sampleEnv ⟨fun _ => none, ∅⟩ 1774997000 CTxDB.empty
      (sampleEntry sampleEnv firstPos sampleBlock)).isSome = true := by decide +kernel
  obtain ⟨txdb', hconnect⟩ := Option.isSome_iff_exists.mp hsome
  refine ⟨files', txdb', hwrite, hconnect, ?_⟩
  exact indexed_tx_readable sampleEnv ⟨fun _ => none, ∅⟩ 1774997000 CTxDB.empty txdb'
    BlockFiles.empty files' (sampleEntry sampleEnv firstPos sampleBlock) sampleBlock
    (by decide) hwrite (by decide +kernel) hconnect 0 _ rfl

/-! ## Blocks past the limit of the offsets -/

/-- A parent coinbase that commits to a block and has `k` outputs with scripts of `m` zeros. -/
def wideCoinbase (hashAuxBlock : uint256) (k m : ℕ) : CTransaction where
  nVersion := 1
  vin := [⟨COutPoint.null, MERGED_MINING_HEADER ++ (vchRootHash hashAuxBlock
    ++ (serializeUInt 1 ++ serializeUInt 0)), 0xffffffff⟩]
  vout := List.replicate k ⟨0, List.replicate m 0⟩
  nLockTime := 0

/-- A proof built on a wide parent coinbase. -/
def wideProof (hashAuxBlock : uint256) (k m : ℕ) : CAuxPow :=
  { wideCoinbase hashAuxBlock k m with
    hashBlock := 0, vMerkleBranch := [], nIndex := 0, vChainMerkleBranch := [], nChainIndex := 0
    parentBlock := ⟨1, 0, (wideCoinbase hashAuxBlock k m).getHash sampleCrypto, 0, 0, 0⟩ }

/-- The header and the transaction of a merged-mined block. -/
def mergedSample : CBlock :=
  { sampleBlock with nVersion := makeVersion CBlock.CURRENT_VERSION AUXPOW_CHAIN_ID true }

/-- A merged-mined block with a wide proof. -/
def wideBlock (k m : ℕ) : CBlock :=
  { mergedSample with auxpow := some (wideProof (mergedSample.getHash sampleEnv) k m) }

theorem wideProof_check (k m : ℕ) :
  (wideProof (mergedSample.getHash sampleEnv) k m).check sampleCrypto
    (mergedSample.getHash sampleEnv) AUXPOW_CHAIN_ID = true
  := by
  have hroot (hash : uint256) : checkMerkleBranch sampleCrypto hash [] 0 = hash := rfl
  have hscript : (wideProof (mergedSample.getHash sampleEnv) k m).coinbaseScript
      = (wideProof (mergedSample.getHash sampleEnv) 0 0).coinbaseScript := rfl
  have hsearch : search (vchRootHash (mergedSample.getHash sampleEnv))
      (wideProof (mergedSample.getHash sampleEnv) 0 0).coinbaseScript = some 4 := by
    decide +kernel
  have hplaced : magicPlaced
      (wideProof (mergedSample.getHash sampleEnv) 0 0).coinbaseScript 4 = true := by
    decide +kernel
  have hmatch : sizeAndNonceMatch
      (wideProof (mergedSample.getHash sampleEnv) 0 0).coinbaseScript (4 + 32)
      AUXPOW_CHAIN_ID 0 0 = true := by
    decide
  have hindex : (wideProof (mergedSample.getHash sampleEnv) k m).nIndex = 0 := rfl
  have hcoinbase : (wideProof (mergedSample.getHash sampleEnv) k m).isCoinBase = true := rfl
  have hversion : (wideProof (mergedSample.getHash sampleEnv) k m).parentBlock.nVersion = 1 := rfl
  have hbranch : (wideProof (mergedSample.getHash sampleEnv) k m).vMerkleBranch = [] := rfl
  have hchain : (wideProof (mergedSample.getHash sampleEnv) k m).vChainMerkleBranch = [] := rfl
  have hchainIndex : (wideProof (mergedSample.getHash sampleEnv) k m).nChainIndex = 0 := rfl
  have hmerkle : (wideProof (mergedSample.getHash sampleEnv) k m).parentBlock.hashMerkleRoot
      = (wideProof (mergedSample.getHash sampleEnv) k m).toCTransaction.getHash sampleCrypto := rfl
  have hid : (getChainId 1 == AUXPOW_CHAIN_ID) = false := by decide
  have haux : isAuxPowVersion 1 = false := by decide
  rw [CAuxPow.check]
  simp only [hindex, hcoinbase, hversion, hbranch, hchain, hchainIndex, hmerkle, hroot, hid,
    haux, hscript, hsearch, hplaced, hmatch, bne_self_eq_false, Bool.not_true,
    Bool.false_eq_true, if_false, List.length_nil]
  rfl

/-- The bytes of an output of the wide coinbase before its script. -/
def wideOutFront (m : ℕ) : Bytes := serializeInt64 0 ++ writeCompactSize m

theorem serialize_wideOut (m : ℕ) :
  CTxOut.serialize ⟨0, List.replicate m 0⟩ = wideOutFront m ++ List.replicate m 0
  := by
  rw [CTxOut.serialize, serializeBytes, wideOutFront, List.append_assoc, List.length_replicate]

theorem length_wideOutFront {m : ℕ} (hm : (writeCompactSize m).length = 5) :
  (wideOutFront m).length = 13
  := by
  rw [wideOutFront, List.length_append, serializeInt64, length_toLE, hm]

/-- The bytes of the wide coinbase before its first output. -/
def wideFront (hashAuxBlock : uint256) (k : ℕ) : Bytes :=
  serializeInt 1 ++ (serializeVector CTxIn.serialize (wideCoinbase hashAuxBlock 0 0).vin
    ++ writeCompactSize k)

theorem length_wideFront (hashAuxBlock : uint256) {k : ℕ} (hk : (writeCompactSize k).length = 1) :
  (wideFront hashAuxBlock k).length = 91
  := by
  have hin : (serializeVector CTxIn.serialize (wideCoinbase hashAuxBlock 0 0).vin).length = 86 := by
    simp [wideCoinbase, serializeVector, CTxIn.serialize, COutPoint.serialize, serializeBytes,
      serializeUint256, serializeUInt, vchRootHash, MERGED_MINING_HEADER, writeCompactSize]
  rw [wideFront, List.length_append, List.length_append, hin, hk, serializeInt, serializeUInt,
    length_toLE]

theorem serialize_wideCoinbase (hashAuxBlock : uint256) (k m : ℕ) :
  (wideCoinbase hashAuxBlock k m).serialize
    = wideFront hashAuxBlock k
      ++ ((List.replicate k (wideOutFront m ++ List.replicate m 0)).flatten ++ serializeUInt 0)
  := by
  have hout : serializeVector CTxOut.serialize (wideCoinbase hashAuxBlock k m).vout
      = writeCompactSize k
        ++ (List.replicate k (wideOutFront m ++ List.replicate m 0)).flatten := by
    rw [serializeVector, wideCoinbase, List.length_replicate, List.flatMap_def,
      List.map_replicate, serialize_wideOut]
  rw [CTransaction.serialize, hout, wideFront]
  simp only [List.append_assoc]
  rfl

theorem length_wideCoinbase (hashAuxBlock : uint256) {k m : ℕ}
    (hk : (writeCompactSize k).length = 1) (hm : (writeCompactSize m).length = 5) :
  (wideCoinbase hashAuxBlock k m).serialize.length = 95 + k * (13 + m)
  := by
  rw [serialize_wideCoinbase, List.length_append, List.length_append, length_wideFront _ hk,
    List.length_flatten, List.map_replicate, List.sum_replicate_nat, List.length_append,
    length_wideOutFront hm, List.length_replicate, serializeUInt, length_toLE]
  omega

/-- The bytes of the proof after the parent coinbase. -/
def wideTail (hashAuxBlock : uint256) (k m : ℕ) : Bytes :=
  serializeUint256 0 ++ (serializeVector serializeUint256 [] ++ (serializeInt 0
    ++ (serializeVector serializeUint256 [] ++ (serializeInt 0
    ++ (wideProof hashAuxBlock k m).parentBlock.serialize))))

theorem length_wideTail (hashAuxBlock : uint256) (k m : ℕ) :
  (wideTail hashAuxBlock k m).length = 122
  := by
  simp [wideTail, serializeVector, serializeUint256, serializeInt, serializeUInt, writeCompactSize]

theorem serialize_wideProof (hashAuxBlock : uint256) (k m : ℕ) :
  (wideProof hashAuxBlock k m).serialize
    = (wideCoinbase hashAuxBlock k m).serialize ++ wideTail hashAuxBlock k m
  := by
  rw [CAuxPow.serialize, CMerkleTx.serialize, wideTail]
  simp only [List.append_assoc]
  rfl

/-- A wide block is its header, its proof and its transactions. -/
theorem bytes_wideBlock (nType : UInt32) (hhash : nType &&& SER_GETHASH = 0) (k m : ℕ) :
  (wideBlock k m).bytes nType
    = mergedSample.toCPureBlockHeader.serialize
      ++ ((wideProof (mergedSample.getHash sampleEnv) k m).serialize
      ++ CBlock.vtxBytes nType mergedSample)
  := by
  have hcarries : CBlock.carriesAuxPow nType (wideBlock k m).nVersion = true := by
    have hversion : (wideBlock k m).nVersion = mergedSample.nVersion := rfl
    rw [CBlock.carriesAuxPow, hhash, hversion]
    decide
  rw [CBlock.bytes, CBlock.auxPowBytes, hcarries]
  rfl

section Wide

variable {m : ℕ}

theorem wideBlock_present :
  (wideBlock 128 m).AuxPowPresent
  := by
  have hversion : (wideBlock 128 m).isAuxPow = mergedSample.isAuxPow := rfl
  have hbit : mergedSample.isAuxPow = true := by decide
  rw [CBlock.AuxPowPresent, hversion, hbit]
  rfl

theorem wideBlock_fits (hm : m ≤ MAX_SIZE) :
  (wideBlock 128 m).Fits
  := by
  constructor
  · have hlength : mergedSample.vtx.length ≤ MAX_SIZE := by decide
    exact hlength
  · have hvtx : ∀ tx ∈ mergedSample.vtx, tx.Fits := by decide
    exact hvtx
  · intro auxpow hauxpow
    obtain rfl := Option.some.inj hauxpow
    refine ⟨⟨⟨?_, ?_, ?_, ?_⟩, Nat.zero_le _⟩, Nat.zero_le _⟩
    · have hlength : (wideProof (mergedSample.getHash sampleEnv) 0 0).vin.length ≤ MAX_SIZE := by
        decide
      exact hlength
    · have hvin : ∀ txin ∈ (wideProof (mergedSample.getHash sampleEnv) 0 0).vin, txin.Fits := by
        decide
      exact hvin
    · have hlength : (wideProof (mergedSample.getHash sampleEnv) 128 m).vout.length = 128 := by
        apply List.length_replicate
      rw [hlength]
      decide
    · intro txout htxout
      obtain rfl := List.eq_of_mem_replicate htxout
      rw [CTxOut.Fits, List.length_replicate]
      apply hm

/-- The bytes of a wide block are counted past `2 ^ 32`. -/
theorem length_bytes_wideBlock
    (hm : (writeCompactSize m).length = 5) (hwrap : 128 * m = 2 ^ 32) (nType : UInt32)
    (hhash : nType &&& SER_GETHASH = 0) :
  ((wideBlock 128 m).bytes nType).length
    = 2 ^ 32 + (1961 + (CBlock.vtxBytes nType mergedSample).length)
  := by
  rw [bytes_wideBlock nType hhash, serialize_wideProof, List.length_append, List.length_append,
    List.length_append, CPureBlockHeader.length_serialize,
    length_wideCoinbase _ (by decide) hm, length_wideTail]
  omega

theorem ofNat_two_pow_add (n : ℕ) :
  UInt32.ofNat (2 ^ 32 + n) = UInt32.ofNat n
  := by
  apply UInt32.toNat_inj.mp
  rw [UInt32.toNat_ofNat', UInt32.toNat_ofNat', Nat.add_mod_left]

theorem wideBlock_checkBlock
    (hm : (writeCompactSize m).length = 5) (hwrap : 128 * m = 2 ^ 32) :
  (wideBlock 128 m).checkBlock sampleEnv 1774997000 = true
  := by
  have hsize : (wideBlock 128 m).getSerializeSize SER_NETWORK = some 2025 := by
    rw [CBlock.getSerializeSize_eq SER_NETWORK wideBlock_present,
      length_bytes_wideBlock hm hwrap SER_NETWORK rfl, ofNat_two_pow_add]
    decide
  have hwork : checkAuxProofOfWork sampleEnv (wideBlock 128 m) (wideBlock 128 m).nBits = true := by
    have hbit : (wideBlock 128 m).isAuxPow = true := by
      have hversion : (wideBlock 128 m).isAuxPow = mergedSample.isAuxPow := rfl
      rw [hversion]
      decide
    have hauxpow : (wideBlock 128 m).auxpow
        = some (wideProof (mergedSample.getHash sampleEnv) 128 m) := rfl
    have hid : getChainId (wideBlock 128 m).nVersion = AUXPOW_CHAIN_ID := by
      have hversion : getChainId (wideBlock 128 m).nVersion = getChainId mergedSample.nVersion := rfl
      rw [hversion]
      decide
    have hbits : (wideBlock 128 m).nBits = mergedSample.nBits := rfl
    have hpow : checkProofOfWork sampleEnv.network 0 mergedSample.nBits = true := by
      decide
    rw [checkAuxProofOfWork, hbit, hauxpow, hid, hbits]
    have hcheck := wideProof_check 128 m
    simp only [Bool.not_true, Bool.false_eq_true, if_false, Bool.and_eq_true]
    exact ⟨hcheck, hpow⟩
  have hvtx : (wideBlock 128 m).vtx = [sampleCoinbase [1, 2] 5000] := rfl
  have htime : (wideBlock 128 m).getBlockTime = mergedSample.getBlockTime := rfl
  have htxids : (wideBlock 128 m).txids sampleEnv = mergedSample.txids sampleEnv := rfl
  have hroot : ((wideBlock 128 m).hashMerkleRoot
        == (wideBlock 128 m).buildMerkleTree sampleEnv.crypto)
      = (mergedSample.hashMerkleRoot == mergedSample.buildMerkleTree sampleEnv.crypto) := rfl
  rw [CBlock.checkBlock]
  simp only [hsize, hvtx, hwork, htime, htxids, hroot]
  decide +kernel

/-- The transaction of a wide block is indexed as if its proof were `2 ^ 32` bytes shorter. -/
theorem txStart_wideBlock
    (hm : (writeCompactSize m).length = 5) (hwrap : 128 * m = 2 ^ 32) :
  (wideBlock 128 m).txStart firstPos = some 1970
  := by
  have hvtx : (wideBlock 128 m).vtx = mergedSample.vtx := rfl
  rw [CBlock.txStart, hvtx, CBlock.getSerializeSize_eq _ wideBlock_present,
    length_bytes_wideBlock hm hwrap (SER_DISK ||| SER_BLOCKHEADERONLY) rfl, ofNat_two_pow_add]
  decide

theorem wideBlock_connectBlock
    (hm : (writeCompactSize m).length = 5) (hwrap : 128 * m = 2 ^ 32) :
  ∃ txdb', (wideBlock 128 m).connectBlock sampleEnv ⟨fun _ => none, ∅⟩ 1774997000 CTxDB.empty
    (sampleEntry sampleEnv firstPos (wideBlock 128 m)) = some txdb'
  := by
  have hpindex : sampleEntry sampleEnv firstPos (wideBlock 128 m)
      = sampleEntry sampleEnv firstPos mergedSample := rfl
  have hpos : (sampleEntry sampleEnv firstPos mergedSample).entry.pos = firstPos := rfl
  have hvtx : (wideBlock 128 m).vtx = [sampleCoinbase [1, 2] 5000] := rfl
  apply Option.isSome_iff_exists.mp
  rw [CBlock.connectBlock, wideBlock_checkBlock hm hwrap, hpindex, hpos,
    txStart_wideBlock hm hwrap, hvtx]
  decide +kernel

/-- Ten zero bytes are read as a transaction without inputs and outputs. -/
theorem readTx_of_zeros
    {files : BlockFiles} {pos : CDiskTxPos}
    (h : files.Holds pos.nFile pos.nTxPos.toNat (List.replicate 10 0)) :
  files.readTx pos = some ⟨0, [], [], 0⟩
  := by
  apply BlockFiles.readTx_of_holds
  · decide
  · apply h

/-- The offset the transaction of a wide block is indexed at is inside the first script of the
parent coinbase. -/
theorem wideBlock_readTx
    (hm : (writeCompactSize m).length = 5) (hlarge : 2000 ≤ m) {files : BlockFiles}
    (h : files.Holds 1 8 ((wideBlock 128 m).bytes SER_DISK)) :
  files.readTx (firstPos.txPos 1970) = some ⟨0, [], [], 0⟩
  := by
  have hreplicate : List.replicate 128 (wideOutFront m ++ List.replicate m (0 : UInt8))
      = (wideOutFront m ++ List.replicate m 0)
        :: List.replicate 127 (wideOutFront m ++ List.replicate m 0) := rfl
  have hzeros : List.replicate m (0 : UInt8)
      = List.replicate 1778 0 ++ (List.replicate 10 0 ++ List.replicate (m - 1788) 0) := by
    have hsum : 1778 + (10 + (m - 1788)) = m := by omega
    rw [List.replicate_append_replicate, List.replicate_append_replicate, hsum]
  rw [bytes_wideBlock SER_DISK rfl, serialize_wideProof, serialize_wideCoinbase, hreplicate,
    List.flatten_cons] at h
  simp only [List.append_assoc] at h
  have hscript := h.right.right.right.left
  rw [hzeros, CPureBlockHeader.length_serialize, length_wideFront _ (by decide),
    length_wideOutFront hm] at hscript
  have hten := hscript.right.left
  rw [List.length_replicate] at hten
  exact readTx_of_zeros hten

end Wide

theorem exists_writeToDisk_empty
    (hpresent : block.AuxPowPresent) (network : Network) :
  ∃ files', BlockFiles.empty.writeToDisk network block = some (files', firstPos)
  := by
  have hroom : BlockFiles.empty.HasRoom := by decide
  have happend : BlockFiles.appendBlockFile (2 ^ 32) BlockFiles.empty
      = some ⟨BlockFiles.empty, hroom⟩ := by
    rw [show 2 ^ 32 = 4294967295 + 1 from rfl, BlockFiles.appendBlockFile, dif_neg hroom.1,
      dif_pos hroom.2]
  rw [BlockFiles.writeToDisk, happend, CBlock.getSerializeSize_eq SER_DISK hpresent,
    CBlock.serialize_eq SER_DISK hpresent]
  exact ⟨_, rfl⟩

/-- A merged-mined block with a proof of more than four gigabytes connects, and its
transaction is not at the position it is indexed at. -/
theorem wideBlock_not_readable :
  (wideBlock 128 MAX_SIZE).AuxPowPresent ∧ (wideBlock 128 MAX_SIZE).Fits ∧
    ∃ files' txdb',
      BlockFiles.empty.writeToDisk .regtest (wideBlock 128 MAX_SIZE) = some (files', firstPos)
      ∧ (wideBlock 128 MAX_SIZE).connectBlock sampleEnv ⟨fun _ => none, ∅⟩ 1774997000
          CTxDB.empty (sampleEntry sampleEnv firstPos (wideBlock 128 MAX_SIZE)) = some txdb'
      ∧ (wideBlock 128 MAX_SIZE).vtx[0]? = some (sampleCoinbase [1, 2] 5000)
      ∧ ¬∃ txindex,
        txdb'.txIndex[(sampleCoinbase [1, 2] 5000).getHash sampleCrypto]? = some txindex
          ∧ files'.readTx txindex.pos = some (sampleCoinbase [1, 2] 5000)
  := by
  have hm : (writeCompactSize MAX_SIZE).length = 5 := by decide
  have hwrap : 128 * MAX_SIZE = 2 ^ 32 := by decide
  refine ⟨wideBlock_present, wideBlock_fits le_rfl, ?_⟩
  generalize MAX_SIZE = m at hm hwrap ⊢
  obtain ⟨files', hwrite⟩ := exists_writeToDisk_empty (wideBlock_present (m := m))
    .regtest
  obtain ⟨txdb', hconnect⟩ := wideBlock_connectBlock hm hwrap
  refine ⟨files', txdb', hwrite, hconnect, rfl, ?_⟩
  rintro ⟨txindex, hget, hread⟩
  obtain ⟨-, hholds, -⟩ := BlockFiles.writeToDisk_eq_some wideBlock_present hwrite
  have hmem : (firstPos.txPos 1970, sampleCoinbase [1, 2] 5000)
      ∈ (wideBlock 128 m).placed firstPos := by
    rw [CBlock.placed, txStart_wideBlock hm hwrap]
    apply List.mem_cons_self
  obtain ⟨txindex', hget', hpos⟩ := (CBlock.connectBlock_eq_some hconnect).pos_eq hmem
  obtain rfl : txindex' = txindex := Option.some.inj (hget'.symm.trans hget)
  rw [hpos, wideBlock_readTx hm (by omega) hholds] at hread
  exact absurd hread (by decide)

end CorgiCoin
