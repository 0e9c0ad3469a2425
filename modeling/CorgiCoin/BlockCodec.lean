import CorgiCoin.Block

/-!
# The block codec

A block whose merged-mining proof is present exactly when its version announces one has bytes,
these bytes are read back to the block, and the size computed for it is their number, counted
in an `unsigned int`.  Without the AuxPoW bit the bytes are the legacy layout.
-/

namespace CorgiCoin

open Codec

namespace CBlock

/-- The bytes the form `nType` holds between the header and the transactions. -/
def auxPowBytes (nType : UInt32) (block : CBlock) : Bytes :=
  if carriesAuxPow nType block.nVersion then (block.auxpow.map CAuxPow.serialize).getD []
  else []

/-- The bytes the form `nType` holds for the transactions. -/
def vtxBytes (nType : UInt32) (block : CBlock) : Bytes :=
  if carriesVtx nType then serializeVector CTransaction.serialize block.vtx else []

/-- The bytes of the block in the form `nType`. -/
def bytes (nType : UInt32) (block : CBlock) : Bytes :=
  block.toCPureBlockHeader.serialize ++ (auxPowBytes nType block ++ vtxBytes nType block)

variable {block : CBlock}

theorem exists_auxpow
    {nType : UInt32} (hpresent : block.AuxPowPresent) (h : carriesAuxPow nType block.nVersion = true) :
  ∃ auxpow, block.auxpow = some auxpow
  := by
  rw [carriesAuxPow, Bool.and_eq_true] at h
  apply Option.isSome_iff_exists.mp
  rw [hpresent]
  apply h.2

/-- The serializer never meets a null proof, and writes `bytes`. -/
theorem serialize_eq
    (nType : UInt32) (hpresent : block.AuxPowPresent) :
  block.serialize nType = some (bytes nType block)
  := by
  rw [serialize, bytes, auxPowBytes, vtxBytes]
  split
  case isTrue h =>
    obtain ⟨auxpow, hauxpow⟩ := exists_auxpow hpresent h
    simp [hauxpow]
  case isFalse => simp

/-- The size of a block is the number of its bytes, as an `unsigned int`. -/
theorem getSerializeSize_eq
    (nType : UInt32) (hpresent : block.AuxPowPresent) :
  block.getSerializeSize nType = some (UInt32.ofNat (bytes nType block).length)
  := by
  have hvtx : (if carriesVtx nType then
        getSerializeSizeVector CTransaction.getSerializeSize block.vtx else 0)
      = UInt32.ofNat (vtxBytes nType block).length := by
    rw [vtxBytes]
    split
    · apply (vector_lawful CTransaction.lawful).size_eq
    · rfl
  rw [getSerializeSize, bytes, auxPowBytes, hvtx, List.length_append, List.length_append,
    UInt32.ofNat_add, UInt32.ofNat_add, ← CPureBlockHeader.lawful.size_eq]
  split
  case isTrue h =>
    obtain ⟨auxpow, hauxpow⟩ := exists_auxpow hpresent h
    simp [hauxpow, CAuxPow.lawful.size_eq, UInt32.add_assoc]
  case isFalse => simp

/-- Reading the bytes of a block in a form that carries the proof gives that form of the block
and leaves the bytes that follow. -/
theorem unserialize_bytes
    {nType : UInt32} (hhash : nType &&& SER_GETHASH = 0)
    (hpresent : block.AuxPowPresent) (hfits : block.Fits) (rest : Bytes) :
  (unserialize nType).run (bytes nType block ++ rest) = some (form nType block, rest)
  := by
  obtain ⟨header, vtx, auxpow⟩ := block
  have hvtx := (vector_lawful CTransaction.lawful).read_write vtx
    ⟨hfits.vtx_length, hfits.vtx_fits⟩
  have hcarries : carriesAuxPow nType header.nVersion = auxpow.isSome := by
    rw [carriesAuxPow, hhash, hpresent]
    rfl
  rw [unserialize, bytes, auxPowBytes, vtxBytes, form]
  simp only [List.append_assoc]
  rw [run_bind_of_run (CPureBlockHeader.lawful.read_write _ trivial _), hcarries]
  cases auxpow with
  | none =>
    cases hv : carriesVtx nType with
    | false => rfl
    | true => simp [hvtx]
  | some auxpow =>
    have haux := CAuxPow.lawful.read_write auxpow (hfits.auxpow_fits auxpow rfl)
    cases hv : carriesVtx nType with
    | false => simp [haux]
    | true => simp [StateT.run_bind, haux, hvtx]

/-- Without the AuxPoW bit the bytes are the legacy header followed by the transactions. -/
theorem bytes_of_not_isAuxPow
    (nType : UInt32) (h : block.isAuxPow = false) :
  bytes nType block = block.toCPureBlockHeader.serialize ++ vtxBytes nType block
  := by
  have hcarries : carriesAuxPow nType block.nVersion = false := by
    rw [carriesAuxPow, Bool.and_eq_false_iff]
    apply Or.inr h
  rw [bytes, auxPowBytes, hcarries]
  rfl

/-- Every form of a block that carries its proof is written without meeting a null pointer and
read back exactly; its size is the number of bytes written modulo `2 ^ 32`, and without the
AuxPoW bit the bytes are the 80 bytes of the legacy header followed by the transactions. -/
theorem block_round_trip
    (nType : UInt32) (hhash : nType &&& SER_GETHASH = 0) (block : CBlock)
    (hpresent : block.AuxPowPresent) (hfits : block.Fits) :
  ∃ data n, block.serialize nType = some data ∧
    (∀ rest, (unserialize nType).run (data ++ rest) = some (form nType block, rest)) ∧
    block.getSerializeSize nType = some n ∧ n.toNat = data.length % 2 ^ 32 ∧
    (block.isAuxPow = false →
      data = block.toCPureBlockHeader.serialize ++ vtxBytes nType block ∧
        block.toCPureBlockHeader.serialize.length = 80)
  := by
  use bytes nType block, UInt32.ofNat (bytes nType block).length
  and_intros
  · apply serialize_eq nType hpresent
  · apply unserialize_bytes hhash hpresent hfits
  · apply getSerializeSize_eq nType hpresent
  · apply UInt32.toNat_ofNat'
  · intro h
    use bytes_of_not_isAuxPow nType h
    apply CPureBlockHeader.length_serialize

/-- A merged-mined block with one transaction, whose proof has a branch of one hash. -/
def mergedBlock : CBlock where
  nVersion := makeVersion CURRENT_VERSION AUXPOW_CHAIN_ID true
  hashPrevBlock := 7
  hashMerkleRoot := 9
  nTime := 1774996900
  nBits := 0x1e0ffff0
  nNonce := 0
  vtx := [⟨1, [⟨COutPoint.null, [1, 2], 0xffffffff⟩], [⟨100000000, [0x51]⟩], 0⟩]
  auxpow := some
    { nVersion := 1, vin := [⟨COutPoint.null, [3, 4], 0xffffffff⟩], vout := [⟨5, []⟩]
      nLockTime := 0, hashBlock := 0, vMerkleBranch := [11], nIndex := 0
      vChainMerkleBranch := [], nChainIndex := 0, parentBlock := ⟨1, 1, 2, 3, 4, 5⟩ }

theorem mergedBlock_round_trip :
  ∃ data n, mergedBlock.serialize SER_DISK = some data ∧
    (∀ rest, (unserialize SER_DISK).run (data ++ rest) = some (form SER_DISK mergedBlock, rest))
    ∧ mergedBlock.getSerializeSize SER_DISK = some n ∧ n.toNat = data.length % 2 ^ 32 ∧
    (mergedBlock.isAuxPow = false →
      data = mergedBlock.toCPureBlockHeader.serialize ++ vtxBytes SER_DISK mergedBlock ∧
        mergedBlock.toCPureBlockHeader.serialize.length = 80)
  := block_round_trip SER_DISK (by decide) mergedBlock (by decide) (by decide)

/-! ## Blocks too long for the size type -/

/-- A block of one transaction with `k` outputs, each with a script of `m` zero bytes. -/
def paddedBlock (k m : ℕ) : CBlock where
  nVersion := 1
  hashPrevBlock := 0
  hashMerkleRoot := 0
  nTime := 0
  nBits := 0
  nNonce := 0
  vtx := [⟨1, [], List.replicate k ⟨0, List.replicate m 0⟩, 0⟩]
  auxpow := none

theorem paddedBlock_fits {k m : ℕ} (hk : k ≤ MAX_SIZE) (hm : m ≤ MAX_SIZE) :
  (paddedBlock k m).Fits
  := by
  constructor
  · apply (by decide : 1 ≤ MAX_SIZE)
  · intro tx htx
    obtain rfl := List.mem_singleton.mp htx
    constructor
    · apply Nat.zero_le
    · simp
    · rw [List.length_replicate]
      apply hk
    · intro txout htxout
      obtain rfl := List.eq_of_mem_replicate htxout
      rw [CTxOut.Fits, List.length_replicate]
      apply hm
  · simp [paddedBlock]

/-- The scripts of the padded block alone take `k * m` bytes. -/
theorem le_length_paddedBlock (k m : ℕ) :
  k * m ≤ (bytes SER_NETWORK (paddedBlock k m)).length
  := by
  have hout : m ≤ (CTxOut.serialize ⟨0, List.replicate m 0⟩).length := by
    rw [CTxOut.serialize, serializeBytes, List.length_append, List.length_append,
      List.length_replicate]
    omega
  have hflat : k * m
      ≤ ((List.replicate k (⟨0, List.replicate m 0⟩ : CTxOut)).flatMap CTxOut.serialize).length := by
    rw [List.length_flatMap, List.map_replicate, List.sum_replicate_nat]
    apply Nat.mul_le_mul_left k hout
  have hvtx : vtxBytes SER_NETWORK (paddedBlock k m)
      = serializeVector CTransaction.serialize (paddedBlock k m).vtx := rfl
  rw [bytes, hvtx, paddedBlock]
  simp only [serializeVector, CTransaction.serialize, List.flatMap_cons, List.flatMap_nil,
    List.length_append, List.append_nil]
  omega

/-- A block of 128 outputs with scripts of the largest size fits the format, and its size is
not the number of bytes written. -/
theorem paddedBlock_size_ne :
  (paddedBlock 128 MAX_SIZE).AuxPowPresent ∧ (paddedBlock 128 MAX_SIZE).Fits ∧
    ∃ data n, (paddedBlock 128 MAX_SIZE).serialize SER_NETWORK = some data ∧
      (paddedBlock 128 MAX_SIZE).getSerializeSize SER_NETWORK = some n ∧
      n.toNat ≠ data.length
  := by
  have hpresent : (paddedBlock 128 MAX_SIZE).AuxPowPresent := rfl
  use hpresent, paddedBlock_fits (by decide) le_rfl
  use bytes SER_NETWORK (paddedBlock 128 MAX_SIZE),
    UInt32.ofNat (bytes SER_NETWORK (paddedBlock 128 MAX_SIZE)).length
  and_intros
  · apply serialize_eq SER_NETWORK hpresent
  · apply getSerializeSize_eq SER_NETWORK hpresent
  · intro h
    have hlen := le_length_paddedBlock 128 MAX_SIZE
    have hlt := UInt32.toNat_lt
      (UInt32.ofNat (bytes SER_NETWORK (paddedBlock 128 MAX_SIZE)).length)
    rw [h] at hlt
    have hsize : 128 * MAX_SIZE = 2 ^ 32 := by decide
    omega

end CBlock

end CorgiCoin
