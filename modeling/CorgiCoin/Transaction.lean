import CorgiCoin.Serialize

/-!
# Transactions

`COutPoint`, `CTxIn`, `CTxOut` and `CTransaction` with their serialization.  The statements of
`IMPLEMENT_SERIALIZE` are expanded three times, into the size, the bytes and the reader of each
class; `Fits` says that the vectors of a value are within the size limit of the format, and
on such values the three agree.
-/

namespace CorgiCoin

open Codec

/-- A script is its bytes. -/
abbrev CScript := Bytes

/-- A transaction hash and an index into the outputs of that transaction. -/
structure COutPoint where
  hash : uint256
  n : UInt32
  deriving DecidableEq, Repr

namespace COutPoint

/-- The outpoint of a coinbase input. -/
def null : COutPoint := ⟨0, 0xffffffff⟩

def isNull (a : COutPoint) : Bool := a.hash == 0 && a.n == 0xffffffff

theorem isNull_iff (a : COutPoint) :
  a.isNull = true ↔ a = null
  := by
  obtain ⟨hash, n⟩ := a
  simp [isNull, null]

def getSerializeSize (_ : COutPoint) : UInt32 := 36

def serialize (a : COutPoint) : Bytes := serializeUint256 a.hash ++ serializeUInt a.n

def unserialize : Reader COutPoint := do
  let hash ← unserializeUint256
  let n ← unserializeUInt
  return { hash, n }

theorem lawful :
  Lawful (fun _ => True) getSerializeSize serialize unserialize
  := by
  constructor
  · intro a
    rw [getSerializeSize, serialize, List.length_append, UInt32.ofNat_add,
      ← uint256_lawful.size_eq, ← uint_lawful.size_eq]
    rfl
  · intro a _ rest
    rw [unserialize, serialize, List.append_assoc,
      run_bind_of_run (uint256_lawful.read_write _ trivial _),
      run_bind_of_run (uint_lawful.read_write _ trivial _)]
    rfl

end COutPoint

/-- An input: the output it spends, the script that unlocks it and a sequence number. -/
structure CTxIn where
  prevout : COutPoint
  scriptSig : CScript
  nSequence : UInt32
  deriving DecidableEq, Repr

namespace CTxIn

def isFinal (txin : CTxIn) : Bool := txin.nSequence == 0xffffffff

/-- The vectors of the input are within the limits of the format. -/
def Fits (txin : CTxIn) : Prop := txin.scriptSig.length ≤ MAX_SIZE

instance : DecidablePred Fits :=
  fun txin => inferInstanceAs (Decidable (txin.scriptSig.length ≤ MAX_SIZE))

def getSerializeSize (txin : CTxIn) : UInt32 :=
  txin.prevout.getSerializeSize + getSerializeSizeBytes txin.scriptSig + 4

def serialize (txin : CTxIn) : Bytes :=
  txin.prevout.serialize ++ (serializeBytes txin.scriptSig ++ serializeUInt txin.nSequence)

def unserialize : Reader CTxIn := do
  let prevout ← COutPoint.unserialize
  let scriptSig ← unserializeBytes
  let nSequence ← unserializeUInt
  return { prevout, scriptSig, nSequence }

theorem lawful :
  Lawful Fits getSerializeSize serialize unserialize
  := by
  constructor
  · intro txin
    rw [getSerializeSize, serialize, List.length_append, List.length_append, UInt32.ofNat_add,
      UInt32.ofNat_add, ← COutPoint.lawful.size_eq, ← bytes_lawful.size_eq,
      ← uint_lawful.size_eq, UInt32.add_assoc]
  · intro txin hfits rest
    rw [unserialize, serialize, List.append_assoc, List.append_assoc,
      run_bind_of_run (COutPoint.lawful.read_write _ trivial _),
      run_bind_of_run (bytes_lawful.read_write _ hfits _),
      run_bind_of_run (uint_lawful.read_write _ trivial _)]
    rfl

end CTxIn

/-- An output: an amount and the script an input must satisfy to spend it. -/
structure CTxOut where
  nValue : Int64
  scriptPubKey : CScript
  deriving DecidableEq, Repr

namespace CTxOut

/-- The vectors of the output are within the limits of the format. -/
def Fits (txout : CTxOut) : Prop := txout.scriptPubKey.length ≤ MAX_SIZE

instance : DecidablePred Fits :=
  fun txout => inferInstanceAs (Decidable (txout.scriptPubKey.length ≤ MAX_SIZE))

def getSerializeSize (txout : CTxOut) : UInt32 :=
  8 + getSerializeSizeBytes txout.scriptPubKey

def serialize (txout : CTxOut) : Bytes :=
  serializeInt64 txout.nValue ++ serializeBytes txout.scriptPubKey

def unserialize : Reader CTxOut := do
  let nValue ← unserializeInt64
  let scriptPubKey ← unserializeBytes
  return { nValue, scriptPubKey }

theorem lawful :
  Lawful Fits getSerializeSize serialize unserialize
  := by
  constructor
  · intro txout
    rw [getSerializeSize, serialize, List.length_append, UInt32.ofNat_add,
      ← int64_lawful.size_eq, ← bytes_lawful.size_eq]
  · intro txout hfits rest
    rw [unserialize, serialize, List.append_assoc,
      run_bind_of_run (int64_lawful.read_write _ trivial _),
      run_bind_of_run (bytes_lawful.read_write _ hfits _)]
    rfl

end CTxOut

/-- A transaction, without the memory-only misbehaviour score `nDoS`. -/
structure CTransaction where
  nVersion : Int32
  vin : List CTxIn
  vout : List CTxOut
  nLockTime : UInt32
  deriving DecidableEq, Repr

namespace CTransaction

/-- Current version of the transaction format. -/
def CURRENT_VERSION : Int32 := 1

def isCoinBase (tx : CTransaction) : Bool :=
  match tx.vin with
  | [txin] => txin.prevout.isNull
  | _ => false

/-- The vectors of the transaction are within the limits of the format. -/
structure Fits (tx : CTransaction) : Prop where
  vin_length : tx.vin.length ≤ MAX_SIZE
  vin_fits : ∀ txin ∈ tx.vin, txin.Fits
  vout_length : tx.vout.length ≤ MAX_SIZE
  vout_fits : ∀ txout ∈ tx.vout, txout.Fits

instance : DecidablePred Fits :=
  fun tx => decidable_of_iff
    ((tx.vin.length ≤ MAX_SIZE ∧ ∀ txin ∈ tx.vin, txin.Fits) ∧
      tx.vout.length ≤ MAX_SIZE ∧ ∀ txout ∈ tx.vout, txout.Fits)
    ⟨fun h => ⟨h.1.1, h.1.2, h.2.1, h.2.2⟩, fun h => ⟨⟨h.1, h.2⟩, h.3, h.4⟩⟩

def getSerializeSize (tx : CTransaction) : UInt32 :=
  4 + getSerializeSizeVector CTxIn.getSerializeSize tx.vin
    + getSerializeSizeVector CTxOut.getSerializeSize tx.vout + 4

def serialize (tx : CTransaction) : Bytes :=
  serializeInt tx.nVersion
    ++ (serializeVector CTxIn.serialize tx.vin
    ++ (serializeVector CTxOut.serialize tx.vout ++ serializeUInt tx.nLockTime))

def unserialize : Reader CTransaction := do
  let nVersion ← unserializeInt
  let vin ← unserializeVector CTxIn.unserialize
  let vout ← unserializeVector CTxOut.unserialize
  let nLockTime ← unserializeUInt
  return { nVersion, vin, vout, nLockTime }

theorem lawful :
  Lawful Fits getSerializeSize serialize unserialize
  := by
  have hin := vector_lawful CTxIn.lawful
  have hout := vector_lawful CTxOut.lawful
  constructor
  · intro tx
    rw [getSerializeSize, serialize]
    simp only [List.length_append, UInt32.ofNat_add]
    rw [← int_lawful.size_eq, ← hin.size_eq, ← hout.size_eq, ← uint_lawful.size_eq,
      UInt32.add_assoc, UInt32.add_assoc]
  · intro tx hfits rest
    rw [unserialize, serialize]
    simp only [List.append_assoc]
    rw [run_bind_of_run (int_lawful.read_write _ trivial _),
      run_bind_of_run (hin.read_write _ ⟨hfits.vin_length, hfits.vin_fits⟩ _),
      run_bind_of_run (hout.read_write _ ⟨hfits.vout_length, hfits.vout_fits⟩ _),
      run_bind_of_run (uint_lawful.read_write _ trivial _)]
    rfl

/-- A transaction of as many bytes as a vector may have is within the limits of the format. -/
theorem fits_of_length {tx : CTransaction} (h : tx.serialize.length ≤ MAX_SIZE) :
  tx.Fits
  := by
  have hin (txin : CTxIn) : txin.scriptSig.length + 4 ≤ txin.serialize.length := by
    simp only [CTxIn.serialize, serializeBytes, serializeUInt, List.length_append, length_toLE]
    omega
  have hout (txout : CTxOut) : txout.scriptPubKey.length + 8 ≤ txout.serialize.length := by
    simp only [CTxOut.serialize, serializeBytes, serializeInt64, List.length_append, length_toLE]
    omega
  simp only [serialize, List.length_append] at h
  constructor
  · have hle := mul_length_le_serializeVector (fun a => (Nat.le_add_left 4 _).trans (hin a)) tx.vin
    omega
  · intro txin hmem
    have hle := length_le_serializeVector CTxIn.serialize hmem
    have hscript := hin txin
    rw [CTxIn.Fits]
    omega
  · have hle := mul_length_le_serializeVector (fun a => (Nat.le_add_left 8 _).trans (hout a)) tx.vout
    omega
  · intro txout hmem
    have hle := length_le_serializeVector CTxOut.serialize hmem
    have hscript := hout txout
    rw [CTxOut.Fits]
    omega

end CTransaction

end CorgiCoin
