import CorgiCoin.Transaction

/-!
# Blocks

`CPureBlockHeader`, `CMerkleTx`, `CAuxPow` and `CBlock` with their serialization.  The
merged-mining proof of a block is a pointer that may be null, and the serializer follows it
whenever the AuxPoW bit of the version is set, so the size and the bytes of a block are
`none` where the source would dereference a null pointer.
-/

namespace CorgiCoin

open Codec

/-! ## Block versions -/

/-- The merged-mining chain identifier of this chain. -/
def AUXPOW_CHAIN_ID : Int32 := 0x00C6

def VERSION_AUXPOW_BIT : Int32 := (1 : Int32) <<< 8

def getChainId (nVersion : Int32) : Int32 := nVersion >>> 16

def isAuxPowVersion (nVersion : Int32) : Bool := nVersion &&& VERSION_AUXPOW_BIT != 0

def makeVersion (nBaseVersion nChainId : Int32) (fAuxPow : Bool) : Int32 :=
  (nChainId <<< 16) ||| (if fAuxPow then VERSION_AUXPOW_BIT else 0) ||| (nBaseVersion &&& 0xff)

/-! ## Headers -/

/-- The 80-byte block header, of which the header of `CBlock` is a copy. -/
structure CPureBlockHeader where
  nVersion : Int32
  hashPrevBlock : uint256
  hashMerkleRoot : uint256
  nTime : UInt32
  nBits : UInt32
  nNonce : UInt32
  deriving DecidableEq, Repr

namespace CPureBlockHeader

def isAuxPow (header : CPureBlockHeader) : Bool := isAuxPowVersion header.nVersion

def getSerializeSize (_ : CPureBlockHeader) : UInt32 := 4 + 32 + 32 + 4 + 4 + 4

def serialize (header : CPureBlockHeader) : Bytes :=
  serializeInt header.nVersion
    ++ (serializeUint256 header.hashPrevBlock
    ++ (serializeUint256 header.hashMerkleRoot
    ++ (serializeUInt header.nTime
    ++ (serializeUInt header.nBits ++ serializeUInt header.nNonce))))

def unserialize : Reader CPureBlockHeader := do
  let nVersion ← unserializeInt
  let hashPrevBlock ← unserializeUint256
  let hashMerkleRoot ← unserializeUint256
  let nTime ← unserializeUInt
  let nBits ← unserializeUInt
  let nNonce ← unserializeUInt
  return { nVersion, hashPrevBlock, hashMerkleRoot, nTime, nBits, nNonce }

@[simp]
theorem length_serialize (header : CPureBlockHeader) :
  header.serialize.length = 80
  := by
  simp [serialize, serializeInt, serializeUInt, serializeUint256]

theorem lawful :
  Lawful (fun _ => True) getSerializeSize serialize unserialize
  := by
  constructor
  · intro header
    rw [length_serialize]
    rfl
  · intro header _ rest
    rw [unserialize, serialize]
    simp only [List.append_assoc]
    rw [run_bind_of_run (int_lawful.read_write _ trivial _),
      run_bind_of_run (uint256_lawful.read_write _ trivial _),
      run_bind_of_run (uint256_lawful.read_write _ trivial _),
      run_bind_of_run (uint_lawful.read_write _ trivial _),
      run_bind_of_run (uint_lawful.read_write _ trivial _),
      run_bind_of_run (uint_lawful.read_write _ trivial _)]
    rfl

end CPureBlockHeader

/-! ## Transactions with a merkle branch -/

/-- A transaction with a merkle branch linking it to a block, without the memory-only flag
`fMerkleVerified`. -/
structure CMerkleTx extends CTransaction where
  hashBlock : uint256
  vMerkleBranch : List uint256
  nIndex : Int32
  deriving DecidableEq, Repr

namespace CMerkleTx

/-- The vectors of the transaction and of its branch are within the limits of the format. -/
structure Fits (mtx : CMerkleTx) : Prop where
  tx_fits : mtx.toCTransaction.Fits
  branch_length : mtx.vMerkleBranch.length ≤ MAX_SIZE

instance : DecidablePred Fits :=
  fun mtx => decidable_of_iff
    (mtx.toCTransaction.Fits ∧ mtx.vMerkleBranch.length ≤ MAX_SIZE)
    ⟨fun h => ⟨h.1, h.2⟩, fun h => ⟨h.1, h.2⟩⟩

def getSerializeSize (mtx : CMerkleTx) : UInt32 :=
  mtx.toCTransaction.getSerializeSize + 32
    + getSerializeSizeVector (fun _ => 32) mtx.vMerkleBranch + 4

def serialize (mtx : CMerkleTx) : Bytes :=
  mtx.toCTransaction.serialize
    ++ (serializeUint256 mtx.hashBlock
    ++ (serializeVector serializeUint256 mtx.vMerkleBranch ++ serializeInt mtx.nIndex))

def unserialize : Reader CMerkleTx := do
  let tx ← CTransaction.unserialize
  let hashBlock ← unserializeUint256
  let vMerkleBranch ← unserializeVector unserializeUint256
  let nIndex ← unserializeInt
  return { tx with hashBlock, vMerkleBranch, nIndex }

theorem lawful :
  Lawful Fits getSerializeSize serialize unserialize
  := by
  have hbranch := vector_lawful uint256_lawful
  constructor
  · intro mtx
    rw [getSerializeSize, serialize]
    simp only [List.length_append, UInt32.ofNat_add]
    rw [← CTransaction.lawful.size_eq, ← uint256_lawful.size_eq, ← hbranch.size_eq,
      ← int_lawful.size_eq, UInt32.add_assoc, UInt32.add_assoc]
  · intro mtx hfits rest
    rw [unserialize, serialize]
    simp only [List.append_assoc]
    rw [run_bind_of_run (CTransaction.lawful.read_write _ hfits.tx_fits _),
      run_bind_of_run (uint256_lawful.read_write _ trivial _),
      run_bind_of_run (hbranch.read_write _ ⟨hfits.branch_length, fun _ _ => trivial⟩ _),
      run_bind_of_run (int_lawful.read_write _ trivial _)]
    rfl

end CMerkleTx

/-! ## Merged-mining proofs -/

/-- A merged-mining proof: the parent coinbase with its branch, the branch of the auxiliary
block hash under the committed root, and the parent header. -/
structure CAuxPow extends CMerkleTx where
  vChainMerkleBranch : List uint256
  nChainIndex : Int32
  parentBlock : CPureBlockHeader
  deriving DecidableEq, Repr

namespace CAuxPow

/-- The vectors of the proof are within the limits of the format. -/
structure Fits (auxpow : CAuxPow) : Prop where
  mtx_fits : auxpow.toCMerkleTx.Fits
  branch_length : auxpow.vChainMerkleBranch.length ≤ MAX_SIZE

instance : DecidablePred Fits :=
  fun auxpow => decidable_of_iff
    (auxpow.toCMerkleTx.Fits ∧ auxpow.vChainMerkleBranch.length ≤ MAX_SIZE)
    ⟨fun h => ⟨h.1, h.2⟩, fun h => ⟨h.1, h.2⟩⟩

def getSerializeSize (auxpow : CAuxPow) : UInt32 :=
  auxpow.toCMerkleTx.getSerializeSize
    + getSerializeSizeVector (fun _ => 32) auxpow.vChainMerkleBranch + 4
    + auxpow.parentBlock.getSerializeSize

def serialize (auxpow : CAuxPow) : Bytes :=
  auxpow.toCMerkleTx.serialize
    ++ (serializeVector serializeUint256 auxpow.vChainMerkleBranch
    ++ (serializeInt auxpow.nChainIndex ++ auxpow.parentBlock.serialize))

def unserialize : Reader CAuxPow := do
  let mtx ← CMerkleTx.unserialize
  let vChainMerkleBranch ← unserializeVector unserializeUint256
  let nChainIndex ← unserializeInt
  let parentBlock ← CPureBlockHeader.unserialize
  return { mtx with vChainMerkleBranch, nChainIndex, parentBlock }

theorem lawful :
  Lawful Fits getSerializeSize serialize unserialize
  := by
  have hbranch := vector_lawful uint256_lawful
  constructor
  · intro auxpow
    rw [getSerializeSize, serialize]
    simp only [List.length_append, UInt32.ofNat_add]
    rw [← CMerkleTx.lawful.size_eq, ← hbranch.size_eq, ← int_lawful.size_eq,
      ← CPureBlockHeader.lawful.size_eq, UInt32.add_assoc, UInt32.add_assoc]
  · intro auxpow hfits rest
    rw [unserialize, serialize]
    simp only [List.append_assoc]
    rw [run_bind_of_run (CMerkleTx.lawful.read_write _ hfits.mtx_fits _),
      run_bind_of_run (hbranch.read_write _ ⟨hfits.branch_length, fun _ _ => trivial⟩ _),
      run_bind_of_run (int_lawful.read_write _ trivial _),
      run_bind_of_run (CPureBlockHeader.lawful.read_write _ trivial _)]
    rfl

end CAuxPow

/-! ## Blocks -/

/-- A block: its header, its transactions and the merged-mining proof, if there is one.  The
memory-only fields `vMerkleTree` and `nDoS` are left out. -/
structure CBlock extends CPureBlockHeader where
  vtx : List CTransaction
  auxpow : Option CAuxPow
  deriving DecidableEq, Repr

namespace CBlock

/-- Current version of the block format. -/
def CURRENT_VERSION : Int32 := 1

/-- The form `nType` carries the merged-mining proof. -/
def carriesAuxPow (nType : UInt32) (nVersion : Int32) : Bool :=
  nType &&& SER_GETHASH == 0 && isAuxPowVersion nVersion

/-- The form `nType` carries the transactions. -/
def carriesVtx (nType : UInt32) : Bool :=
  nType &&& (SER_GETHASH ||| SER_BLOCKHEADERONLY) == 0

def getSerializeSize (nType : UInt32) (block : CBlock) : Option UInt32 := do
  -- `READWRITE(*auxpow)` dereferences the pointer, whatever it holds
  let nAuxPow ←
    if carriesAuxPow nType block.nVersion then block.auxpow.map CAuxPow.getSerializeSize
    else some 0
  let nVtx :=
    if carriesVtx nType then getSerializeSizeVector CTransaction.getSerializeSize block.vtx
    else 0
  return block.toCPureBlockHeader.getSerializeSize + nAuxPow + nVtx

def serialize (nType : UInt32) (block : CBlock) : Option Bytes := do
  let auxBytes ←
    if carriesAuxPow nType block.nVersion then block.auxpow.map CAuxPow.serialize
    else some []
  let vtxBytes :=
    if carriesVtx nType then serializeVector CTransaction.serialize block.vtx else []
  return block.toCPureBlockHeader.serialize ++ (auxBytes ++ vtxBytes)

def unserialize (nType : UInt32) : Reader CBlock := do
  let header ← CPureBlockHeader.unserialize
  let auxpow ←
    if carriesAuxPow nType header.nVersion then do
      let auxpow ← CAuxPow.unserialize
      pure (some auxpow)
    else pure none
  let vtx ←
    if carriesVtx nType then unserializeVector CTransaction.unserialize else pure []
  return { header with vtx, auxpow }

/-- The vectors of the block are within the limits of the format. -/
structure Fits (block : CBlock) : Prop where
  vtx_length : block.vtx.length ≤ MAX_SIZE
  vtx_fits : ∀ tx ∈ block.vtx, tx.Fits
  auxpow_fits : ∀ auxpow ∈ block.auxpow, auxpow.Fits

instance : DecidablePred Fits :=
  fun block => decidable_of_iff
    ((block.vtx.length ≤ MAX_SIZE ∧ ∀ tx ∈ block.vtx, tx.Fits) ∧
      ∀ auxpow ∈ block.auxpow, auxpow.Fits)
    ⟨fun h => ⟨h.1.1, h.1.2, h.2⟩, fun h => ⟨⟨h.1, h.2⟩, h.3⟩⟩

/-- The merged-mining proof is present exactly when the version carries the AuxPoW bit. -/
def AuxPowPresent (block : CBlock) : Prop := block.auxpow.isSome = block.isAuxPow

instance : DecidablePred AuxPowPresent :=
  fun block => inferInstanceAs (Decidable (block.auxpow.isSome = block.isAuxPow))

/-- The part of the block the form `nType` carries. -/
def form (nType : UInt32) (block : CBlock) : CBlock :=
  if carriesVtx nType then block else { block with vtx := [] }

end CBlock

end CorgiCoin
