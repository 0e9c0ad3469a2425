import CorgiCoin.Lib.Codec

/-!
# Serialization

The basic types and the templates of `serialize.h`: fixed-width integers, 256-bit hashes,
compact sizes and vectors.  Each type has the three functions the source has,
`GetSerializeSize`, `Serialize` and `Unserialize`; `GetSerializeSize` counts in an
`unsigned int`, and `Unserialize` fails where the stream throws.
-/

namespace CorgiCoin

open Codec

/-- A string of bytes, as streams, scripts and block files hold it. -/
abbrev Bytes := List UInt8

/-- A 256-bit number, the type of all hashes. -/
abbrev uint256 := BitVec 256

instance instTransOrdUint256 : Std.TransOrd uint256 := BitVec.instTransOrd

instance instLawfulBEqUint256 : LawfulBEq uint256 := instLawfulBEq

/-- The largest count a compact size may announce. -/
def MAX_SIZE : ℕ := 0x02000000

/-! ## Flags of `nType` -/

def SER_NETWORK : UInt32 := (1 : UInt32) <<< 0
def SER_DISK : UInt32 := (1 : UInt32) <<< 1
def SER_GETHASH : UInt32 := (1 : UInt32) <<< 2
def SER_BLOCKHEADERONLY : UInt32 := (1 : UInt32) <<< 17

/-! ## Basic types -/

def serializeUInt (a : UInt32) : Bytes := toLE 4 a.toNat

def unserializeUInt : Reader UInt32 := do
  let n ← readLE 4
  return UInt32.ofNat n

def serializeInt (a : Int32) : Bytes := serializeUInt a.toUInt32

def unserializeInt : Reader Int32 := do
  let a ← unserializeUInt
  return a.toInt32

def serializeInt64 (a : Int64) : Bytes := toLE 8 a.toUInt64.toNat

def unserializeInt64 : Reader Int64 := do
  let n ← readLE 8
  return (UInt64.ofNat n).toInt64

/-- The 32 bytes of a hash, least significant first. -/
def serializeUint256 (a : uint256) : Bytes := toLE 32 a.toNat

def unserializeUint256 : Reader uint256 := do
  let n ← readLE 32
  return BitVec.ofNat 256 n

theorem uint_lawful :
  Lawful (fun _ => True) (fun _ => 4) serializeUInt unserializeUInt
  := by
  constructor
  · intro a
    rw [serializeUInt, length_toLE]
    rfl
  · intro a _ rest
    have h : a.toNat < 256 ^ 4 := a.toNat_lt
    rw [unserializeUInt, serializeUInt, run_bind_of_run (readLE_toLE h rest),
      UInt32.ofNat_toNat]
    rfl

theorem int_lawful :
  Lawful (fun _ => True) (fun _ => 4) serializeInt unserializeInt
  := by
  constructor
  · intro a
    rw [serializeInt, ← uint_lawful.size_eq]
  · intro a _ rest
    rw [unserializeInt, serializeInt, run_bind_of_run (uint_lawful.read_write _ trivial rest)]
    rfl

theorem int64_lawful :
  Lawful (fun _ => True) (fun _ => 8) serializeInt64 unserializeInt64
  := by
  constructor
  · intro a
    rw [serializeInt64, length_toLE]
    rfl
  · intro a _ rest
    have h : a.toUInt64.toNat < 256 ^ 8 := a.toUInt64.toNat_lt
    rw [unserializeInt64, serializeInt64, run_bind_of_run (readLE_toLE h rest),
      UInt64.ofNat_toNat]
    rfl

theorem uint256_lawful :
  Lawful (fun _ => True) (fun _ => 32) serializeUint256 unserializeUint256
  := by
  constructor
  · intro a
    rw [serializeUint256, length_toLE]
    rfl
  · intro a _ rest
    have h : a.toNat < 256 ^ 32 := lt_of_lt_of_eq a.isLt (by norm_num)
    rw [unserializeUint256, serializeUint256, run_bind_of_run (readLE_toLE h rest),
      BitVec.ofNat_toNat, BitVec.setWidth_eq]
    rfl

/-- A hash is determined by its bytes. -/
theorem serializeUint256_injective :
  Function.Injective serializeUint256
  := by
  intro a b h
  have ha : a.toNat < 256 ^ 32 := lt_of_lt_of_eq a.isLt (by norm_num)
  have hb : b.toNat < 256 ^ 32 := lt_of_lt_of_eq b.isLt (by norm_num)
  have hn := congrArg ofLE h
  rw [serializeUint256, serializeUint256, ofLE_toLE_of_lt ha, ofLE_toLE_of_lt hb] at hn
  apply BitVec.eq_of_toNat_eq hn

/-! ## Compact sizes -/

def getSizeOfCompactSize (nSize : ℕ) : UInt32 :=
  if nSize < 253 then 1
  else if nSize ≤ 0xffff then 1 + 2
  else if nSize ≤ 0xffffffff then 1 + 4
  else 1 + 8

def writeCompactSize (nSize : ℕ) : Bytes :=
  if nSize < 253 then toLE 1 nSize
  else if nSize ≤ 0xffff then 253 :: toLE 2 nSize
  else if nSize ≤ 0xffffffff then 254 :: toLE 4 nSize
  else 255 :: toLE 8 nSize

def readCompactSize : Reader ℕ := do
  let chSize ← readLE 1
  let nSizeRet ←
    if chSize < 253 then pure chSize
    else if chSize = 253 then readLE 2
    else if chSize = 254 then readLE 4
    else readLE 8
  if nSizeRet > MAX_SIZE then failure
  return nSizeRet

/-- The size announced for a compact size is the number of bytes written for it. -/
theorem getSizeOfCompactSize_eq (nSize : ℕ) :
  getSizeOfCompactSize nSize = UInt32.ofNat (writeCompactSize nSize).length
  := by
  rw [getSizeOfCompactSize, writeCompactSize]
  split_ifs
  · rw [length_toLE]
    rfl
  · rw [List.length_cons, length_toLE]
    rfl
  · rw [List.length_cons, length_toLE]
    rfl
  · rw [List.length_cons, length_toLE]
    rfl

private theorem readLE_one_cons (b : UInt8) (rest : Bytes) :
  (readLE 1).run (b :: rest) = some (b.toNat, rest)
  := by
  have h := readLE_toLE (k := 1) (n := b.toNat) b.toNat_lt rest
  rw [toLE, UInt8.ofNat_toNat] at h
  apply h

/-- A compact size within the limit is read back. -/
theorem readCompactSize_write {nSize : ℕ} (h : nSize ≤ MAX_SIZE) (rest : Bytes) :
  readCompactSize.run (writeCompactSize nSize ++ rest) = some (nSize, rest)
  := by
  have hlimit : ¬ nSize > MAX_SIZE := Nat.not_lt.mpr h
  have hword : nSize ≤ 0xffffffff := le_trans h (by decide)
  rw [writeCompactSize, readCompactSize]
  split_ifs with h1 h2
  · rw [run_bind_of_run (readLE_toLE (lt_trans h1 (by decide)) rest)]
    simp [h1, hlimit]
  · have hr := readLE_toLE (k := 2) (Nat.lt_succ_of_le h2) rest
    rw [List.cons_append, run_bind_of_run (readLE_one_cons 253 _)]
    simp [hr, hlimit, StateT.run_bind]
  · have hr := readLE_toLE (k := 4) (Nat.lt_succ_of_le hword) rest
    rw [List.cons_append, run_bind_of_run (readLE_one_cons 254 _)]
    simp [hr, hlimit, StateT.run_bind]

/-! ## Vectors -/

/-- `GetSerializeSize` of a vector of bytes. -/
def getSerializeSizeBytes (v : Bytes) : UInt32 :=
  getSizeOfCompactSize v.length + UInt32.ofNat v.length

/-- `Serialize` of a vector of bytes. -/
def serializeBytes (v : Bytes) : Bytes := writeCompactSize v.length ++ v

/-- `Unserialize` of a vector of bytes; the source reads it in blocks of five million bytes,
which returns the same bytes. -/
def unserializeBytes : Reader Bytes := do
  let nSize ← readCompactSize
  takeBytes nSize

/-- `GetSerializeSize` of a vector, the size of an element given. -/
def getSerializeSizeVector {α : Type} (size : α → UInt32) (v : List α) : UInt32 :=
  v.foldl (fun nSize a => nSize + size a) (getSizeOfCompactSize v.length)

/-- `Serialize` of a vector, the bytes of an element given. -/
def serializeVector {α : Type} (write : α → Bytes) (v : List α) : Bytes :=
  writeCompactSize v.length ++ v.flatMap write

theorem length_le_serializeVector {α : Type} (write : α → Bytes) {v : List α} {a : α} (h : a ∈ v) :
  (write a).length ≤ (serializeVector write v).length
  := by
  obtain ⟨before, after, rfl⟩ := List.append_of_mem h
  simp only [serializeVector, List.flatMap_append, List.flatMap_cons, List.length_append]
  omega

theorem mul_length_le_serializeVector
    {α : Type} {write : α → Bytes} {k : ℕ} (hk : ∀ a, k ≤ (write a).length) (v : List α) :
  k * v.length ≤ (serializeVector write v).length
  := by
  have hflat : k * v.length ≤ (v.flatMap write).length := by
    induction v with
    | nil => exact Nat.zero_le _
    | cons a v ih =>
      have ha := hk a
      rw [List.flatMap_cons, List.length_append, List.length_cons, Nat.mul_succ]
      omega
  rw [serializeVector, List.length_append]
  omega

/-- `Unserialize` of a vector, the reader of an element given; the source resizes the vector
in steps as it reads, which returns the same elements. -/
def unserializeVector {α : Type} (read : Reader α) : Reader (List α) := do
  let nSize ← readCompactSize
  readMany read nSize

theorem bytes_lawful :
  Lawful (fun v => v.length ≤ MAX_SIZE) getSerializeSizeBytes serializeBytes unserializeBytes
  := by
  constructor
  · intro v
    rw [getSerializeSizeBytes, serializeBytes, getSizeOfCompactSize_eq, List.length_append,
      UInt32.ofNat_add]
  · intro v hv rest
    rw [unserializeBytes, serializeBytes, List.append_assoc,
      run_bind_of_run (readCompactSize_write hv _), takeBytes_append rfl]

/-- A vector of lawfully written elements is lawfully written, up to the size limit. -/
theorem vector_lawful
    {α : Type} {P : α → Prop} {size : α → UInt32} {write : α → Bytes} {read : Reader α}
    (h : Lawful P size write read) :
  Lawful (fun v => v.length ≤ MAX_SIZE ∧ ∀ a ∈ v, P a) (getSerializeSizeVector size)
    (serializeVector write) (unserializeVector read)
  := by
  constructor
  · intro v
    rw [getSerializeSizeVector, serializeVector, getSizeOfCompactSize_eq,
      foldl_size_eq h.size_eq, List.length_append]
  · rintro v ⟨hlen, hv⟩ rest
    rw [unserializeVector, serializeVector, List.append_assoc,
      run_bind_of_run (readCompactSize_write hlen _), readMany_flatMap h.read_write v hv]

end CorgiCoin
