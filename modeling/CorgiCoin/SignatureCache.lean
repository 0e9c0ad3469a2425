import CorgiCoin.SignatureHash
import CorgiCoin.Lib.Query

/-!
# The signature cache

`CheckSig` remembers the signatures that it has verified in a set that the whole process shares.  When the
set is full, entries that are drawn at random make room.  Whatever is checked in whatever order, and
whatever is drawn, the answers are those of `CheckSig` without the set.
-/

namespace CorgiCoin

open Std Lib

/-- `sigdata_type`: the hash that was signed, the signature and the public key. -/
abbrev SigData := uint256 × Bytes × Bytes

/-- The order of the tuples. -/
def cmpSigData : SigData → SigData → Ordering :=
  compareLex (compareOn (fun k => k.1)) (compareLex (compareOn (fun k => k.2.1)) (compareOn (fun k => k.2.2)))

instance : TransCmp cmpSigData := inferInstanceAs (TransCmp (compareLex _ (compareLex _ _)))

instance : LawfulEqCmp cmpSigData where
  eq_of_compare {a b} h := by
    obtain ⟨hhash, hrest⟩ := compareLex_eq_eq.mp h
    obtain ⟨hsig, hkey⟩ := compareLex_eq_eq.mp hrest
    apply Prod.ext
    · exact LawfulEqOrd.eq_of_compare hhash
    · apply Prod.ext
      · exact LawfulEqOrd.eq_of_compare hsig
      · exact LawfulEqOrd.eq_of_compare hkey

/-- `CSignatureCache` -/
structure CSignatureCache where
  setValid : ExtTreeSet SigData cmpSigData

namespace CSignatureCache

def get (cache : CSignatureCache) (k : SigData) : Bool := cache.setValid.contains k

/-- What `lower_bound` of the tuple of a hash and two empty strings finds, or else the first entry. -/
def victim (setValid : ExtTreeSet SigData cmpSigData) (randomHash : uint256) : Option SigData :=
  (setValid.toList.find? (fun k => (cmpSigData (randomHash, [], []) k).isLE)).or setValid.toList.head?

/-- The loop that makes room, with what is drawn in its rounds.  Every round erases an entry, so that the
number of entries is fuel enough. -/
def evict (nMaxCacheSize : ℤ) (rand : ℕ → uint256) :
    ℕ → ExtTreeSet SigData cmpSigData → ExtTreeSet SigData cmpSigData
  | 0, setValid => setValid
  | fuel + 1, setValid =>
    if (setValid.size : ℤ) > nMaxCacheSize then
      match victim setValid (rand fuel) with
      | none => setValid
      | some it => evict nMaxCacheSize rand fuel (setValid.erase it)
    else setValid

def set (nMaxCacheSize : ℤ) (rand : ℕ → uint256) (cache : CSignatureCache) (k : SigData) : CSignatureCache :=
  if nMaxCacheSize ≤ 0 then cache
  else ⟨(evict nMaxCacheSize rand cache.setValid.size cache.setValid).insert k⟩

end CSignatureCache

/-- What `CheckSig` is asked. -/
structure SigQuestion where
  vchSig : Bytes
  vchPubKey : Bytes
  scriptCode : CScript
  txTo : CTransaction
  nIn : ℕ
  nHashType : Int32

section Check

variable (crypto : Crypto) (ecdsa : Ecdsa)

/-- The answer without a cache. -/
def SigQuestion.answer (q : SigQuestion) : Bool :=
  checkSig crypto ecdsa q.vchSig q.vchPubKey q.scriptCode q.txTo q.nIn q.nHashType

/-- `CheckSig` with the cache that it shares with the calls before. -/
def checkSigCached (nMaxCacheSize : ℤ) (rand : ℕ → uint256) (cache : CSignatureCache) (q : SigQuestion) :
    CSignatureCache × Bool :=
  match q.vchSig.getLast? with
  | none => (cache, false)
  | some back =>
    let nType := Int32.ofNat back.toNat
    if q.nHashType ≠ 0 ∧ q.nHashType ≠ nType then (cache, false)
    else
      let vchSig := q.vchSig.dropLast
      let sighash := signatureHash crypto q.scriptCode q.txTo q.nIn nType
      if cache.get (sighash, vchSig, q.vchPubKey) then (cache, true)
      else if !ecdsa.setPubKey q.vchPubKey then (cache, false)
      else if !ecdsa.verify q.vchPubKey sighash vchSig then (cache, false)
      else (cache.set nMaxCacheSize rand (sighash, vchSig, q.vchPubKey), true)

/-- The process: the cache, and how many calls there were; what is drawn depends on the call. -/
def sigMachine (nMaxCacheSize : ℤ) (rand : ℕ → ℕ → uint256) (s : CSignatureCache × ℕ) (q : SigQuestion) :
    (CSignatureCache × ℕ) × Bool :=
  let (cache, fOk) := checkSigCached crypto ecdsa nMaxCacheSize (rand s.2) s.1 q
  ((cache, s.2 + 1), fOk)

end Check

/-! ## What the cache holds -/

namespace CSignatureCache

variable {nMaxCacheSize : ℤ} {rand : ℕ → uint256} {setValid : ExtTreeSet SigData cmpSigData}

theorem mem_of_victim {randomHash : uint256} {it : SigData} (h : victim setValid randomHash = some it) :
  it ∈ setValid
  := by
  apply ExtTreeSet.mem_toList.mp
  rcases Option.or_eq_some_iff.mp h with hfind | ⟨-, hhead⟩
  · exact List.mem_of_find?_eq_some hfind
  · exact List.mem_of_head? hhead

theorem victim_eq_none {randomHash : uint256} (h : victim setValid randomHash = none) :
  setValid.size = 0
  := by
  obtain ⟨-, hhead⟩ := Option.or_eq_none_iff.mp h
  rw [← ExtTreeSet.length_toList, List.head?_eq_none_iff.mp hhead, List.length_nil]

/-- Making room only erases. -/
theorem mem_of_mem_evict {fuel : ℕ} {k : SigData} (h : k ∈ evict nMaxCacheSize rand fuel setValid) :
  k ∈ setValid
  := by
  induction fuel generalizing setValid with
  | zero => exact h
  | succ fuel ih =>
    rw [evict] at h
    split_ifs at h
    · split at h
      · exact h
      · exact (ExtTreeSet.mem_erase.mp (ih h)).2
    · exact h

/-- The loop ends with a set that is not too large. -/
theorem size_evict_le (hpos : 0 ≤ nMaxCacheSize) {fuel : ℕ} (hfuel : setValid.size ≤ fuel) :
  ((evict nMaxCacheSize rand fuel setValid).size : ℤ) ≤ nMaxCacheSize
  := by
  induction fuel generalizing setValid with
  | zero =>
    rw [evict]
    omega
  | succ fuel ih =>
    rw [evict]
    split_ifs with hlarge
    · split
      · next hnone =>
        have hempty := victim_eq_none hnone
        omega
      · next it hit =>
        apply ih
        have hmem := mem_of_victim hit
        rw [ExtTreeSet.size_erase, if_pos (ExtTreeSet.contains_iff_mem.mpr hmem)]
        omega
    · omega

/-- The cache holds what is verified, and not much more than its limit says; without a limit it stays
empty. -/
structure Sound (ecdsa : Ecdsa) (nMaxCacheSize : ℤ) (cache : CSignatureCache) : Prop where
  valid : ∀ hash vchSig vchPubKey, (hash, vchSig, vchPubKey) ∈ cache.setValid →
    ecdsa.setPubKey vchPubKey = true ∧ ecdsa.verify vchPubKey hash vchSig = true
  size_le : (cache.setValid.size : ℤ) ≤ max 0 (nMaxCacheSize + 1)
  empty : nMaxCacheSize ≤ 0 → cache.setValid = ∅

theorem sound_empty (ecdsa : Ecdsa) (nMaxCacheSize : ℤ) :
  Sound ecdsa nMaxCacheSize ⟨∅⟩
  where
  valid _ _ _ h := absurd h ExtTreeSet.not_mem_empty
  size_le := by
    rw [ExtTreeSet.size_empty]
    exact le_max_left _ _
  empty _ := rfl

theorem Sound.set
    {ecdsa : Ecdsa} {cache : CSignatureCache} (h : cache.Sound ecdsa nMaxCacheSize) {hash : uint256}
    {vchSig vchPubKey : Bytes} (hkey : ecdsa.setPubKey vchPubKey = true)
    (hverify : ecdsa.verify vchPubKey hash vchSig = true) :
  (cache.set nMaxCacheSize rand (hash, vchSig, vchPubKey)).Sound ecdsa nMaxCacheSize
  := by
  rw [CSignatureCache.set]
  split_ifs with hoff
  · exact h
  · constructor
    · intro hash' vchSig' vchPubKey' hmem
      rcases ExtTreeSet.mem_insert.mp hmem with hsame | hmem
      · obtain ⟨rfl, rfl, rfl⟩ : hash = hash' ∧ vchSig = vchSig' ∧ vchPubKey = vchPubKey' := by
          simpa only [Prod.mk.injEq] using LawfulEqCmp.eq_of_compare hsame
        exact ⟨hkey, hverify⟩
      · exact h.valid _ _ _ (mem_of_mem_evict hmem)
    · have hevict := @size_evict_le nMaxCacheSize rand cache.setValid (by omega) _ le_rfl
      have hinsert := @ExtTreeSet.size_insert_le _ _ (evict nMaxCacheSize rand cache.setValid.size cache.setValid) _
        (hash, vchSig, vchPubKey)
      dsimp only
      omega
    · exact fun hoff' => absurd hoff' hoff

end CSignatureCache

/-! ## The answers -/

section Answers

variable {crypto : Crypto} {ecdsa : Ecdsa} {nMaxCacheSize : ℤ}

/-- A call keeps the cache sound and answers as it would without the cache. -/
theorem checkSigCached_spec
    (rand : ℕ → uint256) {cache : CSignatureCache} (h : cache.Sound ecdsa nMaxCacheSize) (q : SigQuestion) :
  (checkSigCached crypto ecdsa nMaxCacheSize rand cache q).1.Sound ecdsa nMaxCacheSize
    ∧ (checkSigCached crypto ecdsa nMaxCacheSize rand cache q).2 = q.answer crypto ecdsa
  := by
  rw [checkSigCached, SigQuestion.answer, checkSig]
  cases q.vchSig.getLast? with
  | none => exact ⟨h, rfl⟩
  | some back =>
    dsimp only
    split_ifs with htype hget hkey hverify
    · exact ⟨h, rfl⟩
    · obtain ⟨hkey, hverify⟩ := h.valid _ _ _ (ExtTreeSet.contains_iff_mem.mp hget)
      rw [hkey, hverify]
      exact ⟨h, rfl⟩
    · rw [Bool.not_eq_true'] at hkey
      rw [hkey]
      exact ⟨h, rfl⟩
    · rw [Bool.not_eq_true'] at hverify
      rw [hverify, Bool.and_false]
      exact ⟨h, rfl⟩
    · rw [Bool.not_eq_true', Bool.not_eq_false] at hkey hverify
      rw [hkey, hverify]
      exact ⟨h.set hkey hverify, rfl⟩

/-- Whatever a process asks, each question depending on the answers before, and whatever is drawn to make
room: it gets the answers of `CheckSig` without the cache.  The cache holds only what is verified, and at
most one entry more than its limit. -/
theorem checkSig_cache
    (crypto : Crypto) (ecdsa : Ecdsa) (nMaxCacheSize : ℤ) (rand : ℕ → ℕ → uint256) {α : Type}
    (program : Query SigQuestion Bool α) :
  let result := program.run (sigMachine crypto ecdsa nMaxCacheSize rand) (⟨∅⟩, 0)
  result.2 = program.eval (SigQuestion.answer crypto ecdsa)
    ∧ result.1.1.Sound ecdsa nMaxCacheSize
  := by
  have hstep : ∀ (s : CSignatureCache × ℕ) (q : SigQuestion), s.1.Sound ecdsa nMaxCacheSize →
      (sigMachine crypto ecdsa nMaxCacheSize rand s q).1.1.Sound ecdsa nMaxCacheSize
        ∧ (sigMachine crypto ecdsa nMaxCacheSize rand s q).2 = q.answer crypto ecdsa :=
    fun s q h => checkSigCached_spec (rand s.2) h q
  have hempty : CSignatureCache.Sound ecdsa nMaxCacheSize ((⟨∅⟩, 0) : CSignatureCache × ℕ).1 :=
    CSignatureCache.sound_empty ecdsa nMaxCacheSize
  obtain ⟨hsound, hresult⟩ := Query.run_eq_eval hstep program hempty
  exact ⟨hresult, hsound⟩

end Answers

end CorgiCoin
