import CorgiCoin.NetAddr
import Mathlib.Data.Finset.Sort
import Mathlib.Data.Fintype.Card

/-!
# The address manager

The tables of addresses that a node keeps: buckets of addresses it has heard of, buckets of
addresses it has connected to, and the order in which it gives them to others.  A failed assertion,
a lookup of an entry that is not there, and an `int` counter that overflows, is `none`.  The random numbers that an operation draws
are a sequence it is given.
-/

namespace CorgiCoin

open Codec

def ADDRMAN_TRIED_BUCKET_COUNT : ℕ := 64
def ADDRMAN_TRIED_BUCKET_SIZE : ℕ := 64
def ADDRMAN_NEW_BUCKET_COUNT : ℕ := 256
def ADDRMAN_NEW_BUCKET_SIZE : ℕ := 64
def ADDRMAN_TRIED_BUCKETS_PER_GROUP : ℕ := 4
def ADDRMAN_NEW_BUCKETS_PER_SOURCE_GROUP : ℕ := 32
def ADDRMAN_NEW_BUCKETS_PER_ADDRESS : ℤ := 4
def ADDRMAN_TRIED_ENTRIES_INSPECT_ON_EVICT : ℕ := 4
def ADDRMAN_HORIZON_DAYS : ℤ := 30
def ADDRMAN_RETRIES : ℤ := 3
def ADDRMAN_MAX_FAILURES : ℤ := 10
def ADDRMAN_MIN_FAIL_DAYS : ℤ := 7
def ADDRMAN_GETADDR_MAX_PCT : ℕ := 23
def ADDRMAN_GETADDR_MAX : ℕ := 2500

/-- `GetRandInt` of a bound, from a random number. -/
def getRandInt (rand nMax : ℕ) : ℕ := if nMax = 0 then 0 else rand % nMax

/-- The largest `int`. -/
def INT_MAX : ℕ := 2 ^ 31 - 1

abbrev TriedBucket := Fin ADDRMAN_TRIED_BUCKET_COUNT
abbrev NewBucket := Fin ADDRMAN_NEW_BUCKET_COUNT

/-! ## Entries -/

/-- An address and what is known of it. -/
structure CAddrInfo extends CAddress where
  source : CNetAddr
  nLastSuccess : ℤ
  nAttempts : ℤ
  nRefCount : ℤ
  fInTried : Bool
  nRandomPos : ℤ
  deriving DecidableEq

namespace CAddrInfo

/-- `CAddrInfo(addrIn, addrSource)` -/
def make (addrIn : CAddress) (addrSource : CNetAddr) : CAddrInfo :=
  { addrIn with
    nLastTry := 0
    source := addrSource
    nLastSuccess := 0
    nAttempts := 0
    nRefCount := 0
    fInTried := false
    nRandomPos := -1 }

/-- `Hash(...).Get64()` -/
def hash64 (crypto : Crypto) (ss : Bytes) : ℕ := (crypto.hash ss).toNat % 2 ^ 64

def getTriedBucket (crypto : Crypto) (info : CAddrInfo) (nKey : Bytes) : TriedBucket :=
  let hash1 := hash64 crypto (serializeBytes nKey ++ serializeBytes info.getKey)
  let hash2 := hash64 crypto (serializeBytes nKey ++ serializeBytes info.getGroup
    ++ toLE 8 (hash1 % ADDRMAN_TRIED_BUCKETS_PER_GROUP))
  ⟨hash2 % ADDRMAN_TRIED_BUCKET_COUNT, Nat.mod_lt _ (by decide)⟩

def getNewBucket (crypto : Crypto) (info : CAddrInfo) (nKey : Bytes) (src : CNetAddr) :
    NewBucket :=
  let hash1 := hash64 crypto
    (serializeBytes nKey ++ serializeBytes info.getGroup ++ serializeBytes src.getGroup)
  let hash2 := hash64 crypto (serializeBytes nKey ++ serializeBytes src.getGroup
    ++ toLE 8 (hash1 % ADDRMAN_NEW_BUCKETS_PER_SOURCE_GROUP))
  ⟨hash2 % ADDRMAN_NEW_BUCKET_COUNT, Nat.mod_lt _ (by decide)⟩

def isTerrible (info : CAddrInfo) (nNow : ℤ) : Bool :=
  let nTime : ℤ := info.nTime.toNat
  if info.nLastTry ≠ 0 ∧ info.nLastTry ≥ nNow - 60 then false
  else if nTime > nNow + 10 * 60 then true
  else if nTime = 0 ∨ nNow - nTime > ADDRMAN_HORIZON_DAYS * 86400 then true
  else if info.nLastSuccess = 0 ∧ info.nAttempts ≥ ADDRMAN_RETRIES then true
  else if nNow - info.nLastSuccess > ADDRMAN_MIN_FAIL_DAYS * 86400
      ∧ info.nAttempts ≥ ADDRMAN_MAX_FAILURES then true
  else false

end CAddrInfo

/-! ## The tables -/

structure CAddrMan where
  nKey : Bytes
  nIdCount : ℕ
  mapInfo : ℕ → Option CAddrInfo
  mapAddr : CNetAddr → Option ℕ
  vRandom : List ℕ
  nTried : ℤ
  vvTried : TriedBucket → List ℕ
  nNew : ℤ
  vvNew : NewBucket → Finset ℕ

namespace CAddrMan

/-- `CAddrMan()` with the random key it draws. -/
def empty (nKey : Bytes) : CAddrMan where
  nKey := nKey
  nIdCount := 0
  mapInfo := fun _ => none
  mapAddr := fun _ => none
  vRandom := []
  nTried := 0
  vvTried := fun _ => []
  nNew := 0
  vvNew := fun _ => ∅

/-- Write the information of an entry. -/
def setInfo (man : CAddrMan) (nId : ℕ) (info : CAddrInfo) : CAddrMan :=
  { man with mapInfo := Function.update man.mapInfo nId (some info) }

theorem mapInfo_setInfo_self (man : CAddrMan) (nId : ℕ) (info : CAddrInfo) :
  (man.setInfo nId info).mapInfo nId = some info
  := Function.update_self _ _ _

theorem mapInfo_setInfo_of_ne
    (man : CAddrMan) {nId id : ℕ} (info : CAddrInfo) (h : id ≠ nId) :
  (man.setInfo nId info).mapInfo id = man.mapInfo id
  := Function.update_of_ne h _ _

def setNew (man : CAddrMan) (nUBucket : NewBucket) (vNew : Finset ℕ) : CAddrMan :=
  { man with vvNew := Function.update man.vvNew nUBucket vNew }

def setTried (man : CAddrMan) (nKBucket : TriedBucket) (vTried : List ℕ) : CAddrMan :=
  { man with vvTried := Function.update man.vvTried nKBucket vTried }

def find (man : CAddrMan) (addr : CNetAddr) : Option (ℕ × CAddrInfo) := do
  let nId ← man.mapAddr addr
  let info ← man.mapInfo nId
  return (nId, info)

/-- `Create`; the entry it makes has the id `nIdCount`, and ids are never given back. -/
def create (man : CAddrMan) (addr : CAddress) (addrSource : CNetAddr) : Option CAddrMan :=
  let nId := man.nIdCount
  if nId = INT_MAX then none
  else
    let info := { CAddrInfo.make addr addrSource with nRandomPos := man.vRandom.length }
    some { man with
      nIdCount := nId + 1
      mapInfo := Function.update man.mapInfo nId (some info)
      mapAddr := Function.update man.mapAddr addr.toCNetAddr (some nId)
      vRandom := man.vRandom ++ [nId] }

def swapRandom (man : CAddrMan) (nRndPos1 nRndPos2 : ℕ) : Option CAddrMan := do
  if nRndPos1 = nRndPos2 then return man
  let nId1 ← man.vRandom[nRndPos1]?
  let nId2 ← man.vRandom[nRndPos2]?
  let info1 ← man.mapInfo nId1
  let man := man.setInfo nId1 { info1 with nRandomPos := nRndPos2 }
  let info2 ← man.mapInfo nId2
  let man := man.setInfo nId2 { info2 with nRandomPos := nRndPos1 }
  return { man with vRandom := (man.vRandom.set nRndPos1 nId2).set nRndPos2 nId1 }

/-! ## Making room -/

/-- The loop of `SelectTried` from position `i` on: the shuffled bucket, and the entry to evict
with the position it was drawn from. -/
def selectTriedLoop (man : CAddrMan) (rand : ℕ → ℕ) :
    ℕ → ℕ → List ℕ → Option (ℕ × ℕ) → Option (List ℕ × Option (ℕ × ℕ))
  | 0, _, vTried, oldest => some (vTried, oldest)
  | k + 1, i, vTried, oldest =>
    if i < vTried.length then do
      let nPos := getRandInt (rand i) (vTried.length - i) + i
      let nTemp ← vTried[nPos]?
      let first ← vTried[i]?
      let vTried := (vTried.set nPos first).set i nTemp
      let info ← man.mapInfo nTemp
      let oldest ←
        match oldest with
        | none => some (some (nTemp, nPos))
        | some (nOldest, nOldestPos) => do
          let infoOldest ← man.mapInfo nOldest
          if info.nLastSuccess < infoOldest.nLastSuccess then some (some (nTemp, nPos))
          else some (some (nOldest, nOldestPos))
      man.selectTriedLoop rand k (i + 1) vTried oldest
    else some (vTried, oldest)

/-- `SelectTried`: the position of the entry to evict. -/
def selectTried (man : CAddrMan) (nKBucket : TriedBucket) (rand : ℕ → ℕ) :
    Option (CAddrMan × ℕ) := do
  let (vTried, oldest) ←
    man.selectTriedLoop rand ADDRMAN_TRIED_ENTRIES_INSPECT_ON_EVICT 0 (man.vvTried nKBucket) none
  let (_, nOldestPos) ← oldest
  return (man.setTried nKBucket vTried, nOldestPos)

/-- Take an entry out of a new bucket, and delete it when it is in no other one. -/
def removeNew (man : CAddrMan) (nUBucket : NewBucket) (nId : ℕ) : Option CAddrMan := do
  let info ← man.mapInfo nId
  let info := { info with nRefCount := info.nRefCount - 1 }
  let man := man.setInfo nId info
  let man ←
    if info.nRefCount = 0 then do
      let man ← man.swapRandom info.nRandomPos.toNat (man.vRandom.length - 1)
      some { man with
        vRandom := man.vRandom.dropLast
        mapAddr := Function.update man.mapAddr info.toCNetAddr none
        mapInfo := Function.update man.mapInfo nId none
        nNew := man.nNew - 1 }
    else some man
  return man.setNew nUBucket ((man.vvNew nUBucket).erase nId)

/-- The first loop of `ShrinkNew`: the first entry that is terrible. -/
def findTerrible (man : CAddrMan) (nNow : ℤ) : List ℕ → Option (Option ℕ)
  | [] => some none
  | nId :: ids => do
    let info ← man.mapInfo nId
    if info.isTerrible nNow then some (some nId) else man.findTerrible nNow ids

/-- The second loop of `ShrinkNew`: the oldest of the entries at some positions. -/
def findOldest (man : CAddrMan) (n : List ℕ) : List (ℕ × ℕ) → Option ℕ → Option (Option ℕ)
  | [], nOldest => some nOldest
  | (nId, nI) :: ids, nOldest =>
    if nI ∈ n then do
      let info ← man.mapInfo nId
      match nOldest with
      | none => man.findOldest n ids (some nId)
      | some oldest => do
        let infoOldest ← man.mapInfo oldest
        man.findOldest n ids (some (if info.nTime < infoOldest.nTime then nId else oldest))
    else man.findOldest n ids nOldest

def shrinkNew (man : CAddrMan) (nUBucket : NewBucket) (nNow : ℤ) (rand : ℕ → ℕ) :
    Option CAddrMan := do
  let ids := (man.vvNew nUBucket).sort (· ≤ ·)
  match ← man.findTerrible nNow ids with
  | some nId => man.removeNew nUBucket nId
  | none =>
    let n := (List.range 4).map (fun k => getRandInt (rand k) ids.length)
    let nOldest ← (← man.findOldest n ids.zipIdx none)
    man.removeNew nUBucket nOldest

/-! ## Promotion -/

/-- The loop of `MakeTried` that takes an entry out of every new bucket and counts its references
down. -/
def removeFromNew (nId : ℕ) (vvNew : NewBucket → Finset ℕ) (nRefCount : ℤ) :
    (NewBucket → Finset ℕ) × ℤ :=
  (List.finRange ADDRMAN_NEW_BUCKET_COUNT).foldl
    (fun (vvNew, nRefCount) b =>
      if nId ∈ vvNew b then (Function.update vvNew b ((vvNew b).erase nId), nRefCount - 1)
      else (vvNew, nRefCount))
    (vvNew, nRefCount)

/-- The rest of `MakeTried`, once the entry is out of the new buckets. -/
def moveToTried (crypto : Crypto) (man : CAddrMan) (nId : ℕ) (info : CAddrInfo)
    (nOrigin : NewBucket) (rand : ℕ → ℕ) : Option CAddrMan :=
  let nKBucket := info.getTriedBucket crypto man.nKey
  if (man.vvTried nKBucket).length < ADDRMAN_TRIED_BUCKET_SIZE then
    let man := man.setTried nKBucket (man.vvTried nKBucket ++ [nId])
    some { man.setInfo nId { info with fInTried := true } with nTried := man.nTried + 1 }
  else do
    let (man, nPos) ← man.selectTried nKBucket rand
    let nIdOld ← (man.vvTried nKBucket)[nPos]?
    let infoOld ← man.mapInfo nIdOld
    let nUBucket := infoOld.getNewBucket crypto man.nKey infoOld.source
    let man := man.setInfo nIdOld { infoOld with fInTried := false, nRefCount := 1 }
    let nUBucket :=
      if (man.vvNew nUBucket).card < ADDRMAN_NEW_BUCKET_SIZE then nUBucket else nOrigin
    let man := man.setNew nUBucket (insert nIdOld (man.vvNew nUBucket))
    let man := { man with nNew := man.nNew + 1 }
    let man := man.setTried nKBucket ((man.vvTried nKBucket).set nPos nId)
    return man.setInfo nId { info with fInTried := true }

def makeTried (crypto : Crypto) (man : CAddrMan) (nId : ℕ) (nOrigin : NewBucket)
    (rand : ℕ → ℕ) : Option CAddrMan := do
  if nId ∉ man.vvNew nOrigin then none
  let info ← man.mapInfo nId
  let (vvNew, nRefCount) := removeFromNew nId man.vvNew info.nRefCount
  let info := { info with nRefCount := nRefCount }
  let man := { man.setInfo nId info with vvNew := vvNew, nNew := man.nNew - 1 }
  if info.nRefCount ≠ 0 then none
  man.moveToTried crypto nId info nOrigin rand

/-! ## Operations -/

def good (crypto : Crypto) (man : CAddrMan) (addr : CService) (nTime : ℤ) (nRnd : ℕ)
    (rand : ℕ → ℕ) : Option CAddrMan :=
  match man.find addr.toCNetAddr with
  | none => some man
  | some (nId, info) =>
    if info.toCService ≠ addr then some man
    else
      let info := { info with
        nLastSuccess := nTime, nLastTry := nTime, nTime := UInt32.ofInt nTime, nAttempts := 0 }
      let man := man.setInfo nId info
      if info.fInTried then some man
      else
        let nRnd := getRandInt nRnd ADDRMAN_NEW_BUCKET_COUNT
        let buckets := (List.finRange ADDRMAN_NEW_BUCKET_COUNT).map
          (fun n => (⟨(n + nRnd) % ADDRMAN_NEW_BUCKET_COUNT, Nat.mod_lt _ (by decide)⟩ : NewBucket))
        match buckets.find? (fun nB => nId ∈ man.vvNew nB) with
        | none => some man
        | some nUBucket => man.makeTried crypto nId nUBucket rand

/-- The end of `Add_`: put an entry into the new bucket of a source. -/
def addToNew (crypto : Crypto) (man : CAddrMan) (nId : ℕ) (source : CNetAddr) (nNow : ℤ)
    (rand : ℕ → ℕ) : Option CAddrMan := do
  let info ← man.mapInfo nId
  let nUBucket := info.getNewBucket crypto man.nKey source
  if nId ∈ man.vvNew nUBucket then return man
  let man := man.setInfo nId { info with nRefCount := info.nRefCount + 1 }
  let man ←
    if (man.vvNew nUBucket).card = ADDRMAN_NEW_BUCKET_SIZE then man.shrinkNew nUBucket nNow rand
    else some man
  return man.setNew nUBucket (insert nId (man.vvNew nUBucket))

/-- What `Add_` learns of an address that is known already. -/
def refresh (info : CAddrInfo) (addr : CAddress) (nTimePenalty nNow : ℤ) : CAddrInfo :=
  let addrTime : ℤ := addr.nTime.toNat
  let infoTime : ℤ := info.nTime.toNat
  let fCurrentlyOnline : Bool := nNow - addrTime < 24 * 60 * 60
  let nUpdateInterval : ℤ := if fCurrentlyOnline then 60 * 60 else 24 * 60 * 60
  let nTime :=
    if addrTime ≠ 0 ∧ (infoTime = 0 ∨ infoTime < addrTime - nUpdateInterval - nTimePenalty) then
      UInt32.ofInt (max 0 (addrTime - nTimePenalty))
    else info.nTime
  { info with nTime := nTime, nServices := info.nServices ||| addr.nServices }

/-- `Add_`; `nStochastic` is the random number of the stochastic test. -/
def add (crypto : Crypto) (man : CAddrMan) (addr : CAddress) (source : CNetAddr)
    (nTimePenalty nNow : ℤ) (nStochastic : ℕ) (rand : ℕ → ℕ) : Option CAddrMan :=
  if !addr.isRoutable then some man
  else
    match man.find addr.toCNetAddr with
    | some (nId, info) =>
      let info := refresh info addr nTimePenalty nNow
      let man := man.setInfo nId info
      if addr.nTime = 0 ∨ (info.nTime ≠ 0 ∧ addr.nTime ≤ info.nTime) then some man
      else if info.fInTried then some man
      else if info.nRefCount = ADDRMAN_NEW_BUCKETS_PER_ADDRESS then some man
      else
        let nFactor := 2 ^ info.nRefCount.toNat
        if nFactor > 1 ∧ getRandInt nStochastic nFactor ≠ 0 then some man
        else man.addToNew crypto nId source nNow rand
    | none => do
      let nId := man.nIdCount
      let man ← man.create addr source
      let info ← man.mapInfo nId
      let man := man.setInfo nId
        { info with nTime := UInt32.ofInt (max 0 (info.nTime.toNat - nTimePenalty)) }
      let man := { man with nNew := man.nNew + 1 }
      man.addToNew crypto nId source nNow rand

def attempt (man : CAddrMan) (addr : CService) (nTime : ℤ) : Option CAddrMan :=
  match man.find addr.toCNetAddr with
  | none => some man
  | some (nId, info) =>
    if info.toCService ≠ addr then some man
    else if info.nAttempts = INT_MAX then none
    else some (man.setInfo nId { info with nLastTry := nTime, nAttempts := info.nAttempts + 1 })

def connected (man : CAddrMan) (addr : CService) (nTime : ℤ) : CAddrMan :=
  match man.find addr.toCNetAddr with
  | none => man
  | some (nId, info) =>
    if info.toCService ≠ addr then man
    else if nTime - info.nTime.toNat > 20 * 60 then
      man.setInfo nId { info with nTime := UInt32.ofInt nTime }
    else man

/-- The random choices of one turn of a loop of `Select_`: the bucket, the position in it, and
whether the entry there is taken. -/
structure Pick where
  nBucket : ℕ
  nPos : ℕ
  fTaken : Bool

/-- The loop of `Select_` over the tried buckets, for as many turns as there are picks: the
address it returns, if it returns by then. -/
def selectTriedNode (man : CAddrMan) : List Pick → Option (Option CAddress)
  | [] => some none
  | pick :: picks =>
    let nKBucket : TriedBucket :=
      ⟨getRandInt pick.nBucket ADDRMAN_TRIED_BUCKET_COUNT % ADDRMAN_TRIED_BUCKET_COUNT,
        Nat.mod_lt _ (by decide)⟩
    let vTried := man.vvTried nKBucket
    if vTried.length = 0 then man.selectTriedNode picks
    else do
      let nId ← vTried[getRandInt pick.nPos vTried.length]?
      let info ← man.mapInfo nId
      if pick.fTaken then some (some info.toCAddress) else man.selectTriedNode picks

/-- The loop of `Select_` over the new buckets. -/
def selectNewNode (man : CAddrMan) : List Pick → Option (Option CAddress)
  | [] => some none
  | pick :: picks =>
    let nUBucket : NewBucket :=
      ⟨getRandInt pick.nBucket ADDRMAN_NEW_BUCKET_COUNT % ADDRMAN_NEW_BUCKET_COUNT,
        Nat.mod_lt _ (by decide)⟩
    let vNew := (man.vvNew nUBucket).sort (· ≤ ·)
    if vNew.length = 0 then man.selectNewNode picks
    else do
      let nId ← vNew[getRandInt pick.nPos vNew.length]?
      let info ← man.mapInfo nId
      if pick.fTaken then some (some info.toCAddress) else man.selectNewNode picks

/-- `Select_`, for the turns of its loop that `picks` gives; `fTried` says which table it draws
from. -/
def select (man : CAddrMan) (fTried : Bool) (picks : List Pick) : Option (Option CAddress) :=
  if man.vRandom.length = 0 then some none
  else if fTried then man.selectTriedNode picks
  else man.selectNewNode picks

/-- The loop of `GetAddr_` from position `n` on. -/
def getAddrLoop (rand : ℕ → ℕ) : ℕ → ℕ → CAddrMan → List CAddress →
    Option (CAddrMan × List CAddress)
  | 0, _, man, vAddr => some (man, vAddr)
  | k + 1, n, man, vAddr => do
    let nRndPos := getRandInt (rand n) (man.vRandom.length - n) + n
    let man ← man.swapRandom n nRndPos
    let nId ← man.vRandom[n]?
    let info ← man.mapInfo nId
    getAddrLoop rand k (n + 1) man (vAddr ++ [info.toCAddress])

def getAddr (man : CAddrMan) (rand : ℕ → ℕ) : Option (CAddrMan × List CAddress) :=
  let nNodes := ADDRMAN_GETADDR_MAX_PCT * man.vRandom.length / 100
  let nNodes := if nNodes > ADDRMAN_GETADDR_MAX then ADDRMAN_GETADDR_MAX else nNodes
  getAddrLoop rand nNodes 0 man []

end CAddrMan

/-! ## Runs -/

/-- A call of the address manager, with what it draws and the time it is made at. -/
inductive AddrManCall where
  | add (addr : CAddress) (source : CNetAddr) (nTimePenalty nNow : ℤ) (nStochastic : ℕ)
      (rand : ℕ → ℕ)
  | good (addr : CService) (nTime : ℤ) (nRnd : ℕ) (rand : ℕ → ℕ)
  | attempt (addr : CService) (nTime : ℤ)
  | connected (addr : CService) (nTime : ℤ)
  | select (fTried : Bool) (picks : List CAddrMan.Pick)
  | getAddr (rand : ℕ → ℕ)

/-- The times of a call are positive. -/
def AddrManCall.Positive : AddrManCall → Prop
  | .good _ nTime _ _ => 0 < nTime
  | .attempt _ nTime => 0 < nTime
  | .connected _ nTime => 0 < nTime
  | _ => True

namespace CAddrMan

/-- One call; `none` when an assertion fails or a counter overflows. -/
def call (crypto : Crypto) (man : CAddrMan) : AddrManCall → Option CAddrMan
  | .add addr source nTimePenalty nNow nStochastic rand =>
    man.add crypto addr source nTimePenalty nNow nStochastic rand
  | .good addr nTime nRnd rand => man.good crypto addr nTime nRnd rand
  | .attempt addr nTime => man.attempt addr nTime
  | .connected addr nTime => some (man.connected addr nTime)
  | .select fTried picks => (man.select fTried picks).map (fun _ => man)
  | .getAddr rand => (man.getAddr rand).map Prod.fst

end CAddrMan

end CorgiCoin
