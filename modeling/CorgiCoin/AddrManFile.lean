import CorgiCoin.AddrMan

/-!
# The file of the address manager

The serialization of the address manager for the disk.  It leaves out the ids, the tried buckets
and the random order, which the reader makes again; ids of new entries are renumbered so that the
new buckets can refer to them.
-/

namespace CorgiCoin

open Codec

/-! ## Addresses -/

namespace CNetAddr

def serialize (a : CNetAddr) : Bytes := a.ip

def unserialize : Reader CNetAddr := do
  let ip ← takeBytes 16
  if h : ip.length = 16 then return ⟨ip, h⟩
  failure

theorem unserialize_serialize (a : CNetAddr) (rest : Bytes) :
  unserialize.run (a.serialize ++ rest) = some (a, rest)
  := by
  rw [unserialize, serialize, run_bind_of_run (takeBytes_append a.length_ip rest),
    dif_pos a.length_ip]
  rfl

end CNetAddr

namespace CService

/-- The address, and the port in network order. -/
def serialize (a : CService) : Bytes :=
  a.toCNetAddr.serialize
    ++ [UInt8.ofNat (a.port.toNat / 0x100), UInt8.ofNat (a.port.toNat % 0x100)]

def unserialize : Reader CService := do
  let a ← CNetAddr.unserialize
  let high ← readLE 1
  let low ← readLE 1
  return { a with port := UInt16.ofNat (0x100 * high + low) }

theorem unserialize_serialize (a : CService) (rest : Bytes) :
  unserialize.run (a.serialize ++ rest) = some (a, rest)
  := by
  have hport : a.port.toNat < 2 ^ 16 := a.port.toNat_lt
  have hhigh : UInt8.ofNat (a.port.toNat / 0x100) :: (UInt8.ofNat (a.port.toNat % 0x100) :: rest)
      = toLE 1 (a.port.toNat / 0x100) ++ (toLE 1 (a.port.toNat % 0x100) ++ rest) := rfl
  rw [unserialize, serialize, List.append_assoc, List.cons_append, List.cons_append,
    List.nil_append, hhigh, run_bind_of_run (CNetAddr.unserialize_serialize a.toCNetAddr _),
    run_bind_of_run (readLE_toLE (by omega) _), run_bind_of_run (readLE_toLE (by omega) _),
    Nat.div_add_mod, UInt16.ofNat_toNat]
  rfl

end CService

/-- `NODE_NETWORK` -/
def NODE_NETWORK : UInt64 := 1

namespace CAddress

/-- `Init` -/
def init (service : CService) : CAddress :=
  { service with nServices := NODE_NETWORK, nTime := 100000000, nLastTry := 0 }

/-- The serialization for the disk, of a version. -/
def serialize (nVersion : Int32) (a : CAddress) : Bytes :=
  serializeInt nVersion ++ serializeUInt a.nTime ++ toLE 8 a.nServices.toNat ++ a.toCService.serialize

def unserialize : Reader CAddress := do
  let _nVersion ← unserializeInt
  let nTime ← unserializeUInt
  let nServices ← readLE 8
  let service ← CService.unserialize
  return { init service with nTime := nTime, nServices := UInt64.ofNat nServices }

/-- The time of the last try is in memory only. -/
theorem unserialize_serialize (nVersion : Int32) (a : CAddress) (rest : Bytes) :
  unserialize.run (a.serialize nVersion ++ rest) = some ({ a with nLastTry := 0 }, rest)
  := by
  have hservices : a.nServices.toNat < 256 ^ 8 := a.nServices.toNat_lt
  rw [unserialize, serialize, List.append_assoc, List.append_assoc, List.append_assoc,
    run_bind_of_run (int_lawful.read_write _ trivial _),
    run_bind_of_run (uint_lawful.read_write _ trivial _),
    run_bind_of_run (readLE_toLE hservices _),
    run_bind_of_run (CService.unserialize_serialize _ _), UInt64.ofNat_toNat]
  rfl

end CAddress

/-! ## Entries -/

namespace CAddrInfo

/-- The numbers of an entry are those of an `int64` and an `int`. -/
structure Storable (info : CAddrInfo) : Prop where
  nLastSuccess : -2 ^ 63 ≤ info.nLastSuccess ∧ info.nLastSuccess < 2 ^ 63
  nAttempts : -2 ^ 31 ≤ info.nAttempts ∧ info.nAttempts < 2 ^ 31

/-- `CAddrInfo()` -/
def default : CAddrInfo :=
  make (CAddress.init ⟨⟨List.replicate 16 0, List.length_replicate⟩, 0⟩)
    ⟨List.replicate 16 0, List.length_replicate⟩

def serialize (nVersion : Int32) (info : CAddrInfo) : Bytes :=
  info.toCAddress.serialize nVersion ++ info.source.serialize
    ++ serializeInt64 (Int64.ofInt info.nLastSuccess) ++ serializeInt (Int32.ofInt info.nAttempts)

def unserialize : Reader CAddrInfo := do
  let a ← CAddress.unserialize
  let source ← CNetAddr.unserialize
  let nLastSuccess ← unserializeInt64
  let nAttempts ← unserializeInt
  return { make a source with nLastSuccess := nLastSuccess.toInt, nAttempts := nAttempts.toInt }

/-- What is not stored of an entry is as in a new one. -/
theorem unserialize_serialize
    (nVersion : Int32) {info : CAddrInfo} (h : info.Storable) (rest : Bytes) :
  unserialize.run (info.serialize nVersion ++ rest)
    = some ({ info with nLastTry := 0, nRefCount := 0, fInTried := false, nRandomPos := -1 }, rest)
  := by
  have hsuccess : (Int64.ofInt info.nLastSuccess).toInt = info.nLastSuccess :=
    Int64.toInt_ofInt_of_le h.nLastSuccess.1 h.nLastSuccess.2
  have hattempts : (Int32.ofInt info.nAttempts).toInt = info.nAttempts :=
    Int32.toInt_ofInt_of_le h.nAttempts.1 h.nAttempts.2
  rw [unserialize, serialize, List.append_assoc, List.append_assoc, List.append_assoc,
    run_bind_of_run (CAddress.unserialize_serialize _ _ _),
    run_bind_of_run (CNetAddr.unserialize_serialize _ _),
    run_bind_of_run (int64_lawful.read_write _ trivial _),
    run_bind_of_run (int_lawful.read_write _ trivial _), hsuccess, hattempts]
  rfl

end CAddrInfo

/-! ## The writer -/

namespace CAddrMan

/-- The entries of `mapInfo` in the order of their ids. -/
structure Items (man : CAddrMan) (items : List (ℕ × CAddrInfo)) : Prop where
  sorted : (items.map Prod.fst).Pairwise (· < ·)
  mem : ∀ id info, (id, info) ∈ items ↔ man.mapInfo id = some info

/-- The version that the file is written with, and its entries too: it hides the one that the
stream has. -/
def nFileVersion : Int32 := 0

/-- The loop that writes the new entries, from `nIds` written ones on: their bytes, and the
numbers they get. -/
def serializeNew (man : CAddrMan) :
    List (ℕ × CAddrInfo) → ℕ → (ℕ → ℕ) → Bytes × (ℕ → ℕ)
  | [], _, mapUnkIds => ([], mapUnkIds)
  | (id, info) :: items, nIds, mapUnkIds =>
    if (nIds : ℤ) = man.nNew then ([], mapUnkIds)
    else
      let mapUnkIds := Function.update mapUnkIds id nIds
      if info.nRefCount ≠ 0 then
        let (bytes, mapUnkIds) := man.serializeNew items (nIds + 1) mapUnkIds
        (info.serialize nFileVersion ++ bytes, mapUnkIds)
      else man.serializeNew items nIds mapUnkIds

/-- The loop that writes the tried entries. -/
def serializeTried (man : CAddrMan) : List (ℕ × CAddrInfo) → ℕ → Bytes
  | [], _ => []
  | (_, info) :: items, nIds =>
    if (nIds : ℤ) = man.nTried then []
    else if info.fInTried then
      info.serialize nFileVersion ++ man.serializeTried items (nIds + 1)
    else man.serializeTried items nIds

/-- A new bucket: its size, and the numbers of its entries. -/
def serializeBucket (mapUnkIds : ℕ → ℕ) (vNew : Finset ℕ) : Bytes :=
  let ids := vNew.sort (· ≤ ·)
  serializeInt (Int32.ofNat ids.length)
    ++ ids.flatMap (fun id => serializeInt (Int32.ofNat (mapUnkIds id)))

/-- `Serialize`, with the entries of `mapInfo` in their order. -/
def serialize (man : CAddrMan) (items : List (ℕ × CAddrInfo)) : Bytes :=
  let (bytes, mapUnkIds) := man.serializeNew items 0 (fun _ => 0)
  [UInt8.ofNat 0] ++ serializeBytes man.nKey ++ serializeInt (Int32.ofInt man.nNew)
    ++ serializeInt (Int32.ofInt man.nTried)
    ++ serializeInt (Int32.ofNat ADDRMAN_NEW_BUCKET_COUNT) ++ bytes
    ++ man.serializeTried items 0
    ++ (List.finRange ADDRMAN_NEW_BUCKET_COUNT).flatMap
      (fun b => serializeBucket mapUnkIds (man.vvNew b))

/-! ## The reader -/

/-- One turn of the loop that reads the new entries. -/
def unserializeNew (crypto : Crypto) (nUBuckets : Int32) (n : ℕ) (am : CAddrMan) :
    Reader CAddrMan := do
  let info ← CAddrInfo.unserialize
  let info := { info with nRandomPos := am.vRandom.length }
  let am := { am.setInfo n info with
    mapAddr := Function.update am.mapAddr info.toCNetAddr (some n)
    vRandom := am.vRandom ++ [n] }
  if nUBuckets ≠ Int32.ofNat ADDRMAN_NEW_BUCKET_COUNT then
    let nUBucket := info.getNewBucket crypto am.nKey info.source
    let am := am.setNew nUBucket (insert n (am.vvNew nUBucket))
    return am.setInfo n { info with nRefCount := info.nRefCount + 1 }
  return am

/-- One turn of the loop that reads the tried entries; it counts those that find no place. -/
def unserializeTried (crypto : Crypto) (_n : ℕ) (s : CAddrMan × ℕ) : Reader (CAddrMan × ℕ) := do
  let (am, nLost) := s
  let info ← CAddrInfo.unserialize
  let nKBucket := info.getTriedBucket crypto am.nKey
  if (am.vvTried nKBucket).length < ADDRMAN_TRIED_BUCKET_SIZE then
    let info := { info with nRandomPos := am.vRandom.length, fInTried := true }
    return ({ am with
      vRandom := am.vRandom ++ [am.nIdCount]
      mapInfo := Function.update am.mapInfo am.nIdCount (some info)
      mapAddr := Function.update am.mapAddr info.toCNetAddr (some am.nIdCount)
      vvTried := Function.update am.vvTried nKBucket (am.vvTried nKBucket ++ [am.nIdCount])
      nIdCount := am.nIdCount + 1 }, nLost)
  return (am, nLost + 1)

/-- One turn of the loop that reads the entries of the new bucket `b`.  An index without an entry
makes one; a negative one, which is no id of the model, fails. -/
def unserializeIndex (nUBuckets : Int32) (b : NewBucket) (_n : ℕ) (am : CAddrMan) :
    Reader CAddrMan := do
  let nIndex ← unserializeInt
  if nIndex.toInt < 0 then failure
  let nIndex := nIndex.toInt.toNat
  let info := (am.mapInfo nIndex).getD CAddrInfo.default
  if nUBuckets = Int32.ofNat ADDRMAN_NEW_BUCKET_COUNT
      ∧ info.nRefCount < ADDRMAN_NEW_BUCKETS_PER_ADDRESS then
    let am := am.setInfo nIndex { info with nRefCount := info.nRefCount + 1 }
    return am.setNew b (insert nIndex (am.vvNew b))
  return am.setInfo nIndex info

theorem mod_newBucketCount_lt (b : ℕ) :
  b % ADDRMAN_NEW_BUCKET_COUNT < ADDRMAN_NEW_BUCKET_COUNT
  := Nat.mod_lt b (by decide)

/-- One turn of the loop that reads the new buckets. -/
def unserializeBucket (nUBuckets : Int32) (b : ℕ) (am : CAddrMan) : Reader CAddrMan := do
  let nSize ← unserializeInt
  -- with another number of buckets than the manager has, the bucket is not used
  let bucket : NewBucket := ⟨b % ADDRMAN_NEW_BUCKET_COUNT, mod_newBucketCount_lt b⟩
  forRange (unserializeIndex nUBuckets bucket) nSize.toInt.toNat 0 am

/-- `Unserialize`.  What the manager held before is forgotten. -/
def unserialize (crypto : Crypto) : Reader CAddrMan := do
  let _nVersion ← readLE 1
  let nKey ← unserializeBytes
  let nNew ← unserializeInt
  let nTried ← unserializeInt
  let nUBuckets ← unserializeInt
  let am := { empty nKey with nNew := nNew.toInt, nTried := nTried.toInt }
  let am ← forRange (unserializeNew crypto nUBuckets) nNew.toInt.toNat 0 am
  let am := { am with nIdCount := nNew.toInt.toNat }
  let (am, nLost) ← forRange (unserializeTried crypto) nTried.toInt.toNat 0 (am, 0)
  let am := { am with nTried := am.nTried - nLost }
  forRange (unserializeBucket nUBuckets) nUBuckets.toInt.toNat 0 am

end CAddrMan

end CorgiCoin
