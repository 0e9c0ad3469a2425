import CorgiCoin.Lib.Hex
import CorgiCoin.SignatureHash
import Mathlib.Tactic.Positivity

/-!
# Transactions of the web wallet

The web wallet serialises and signs transactions on its own, in JavaScript.  Its bytes are those of
the daemon's `CTransaction`, and what it signs is what the daemon's `SignatureHash` hashes, as long
as no count or script is of 2^32 or more: the wallet has no encoding of such sizes.
-/

namespace CorgiCoin.WebWallet

open Codec Hex

/-! ## Bytes -/

/-- The 32 bits that the bitwise operators see of a number. -/
def toUint32 (n : ℤ) : ℕ := (n % 2 ^ 32).toNat

def le32 (n : ℤ) : Bytes :=
  [UInt8.ofNat (toUint32 n &&& 255), UInt8.ofNat ((toUint32 n >>> 8) &&& 255),
    UInt8.ofNat ((toUint32 n >>> 16) &&& 255), UInt8.ofNat ((toUint32 n >>> 24) &&& 255)]

/-- The loop of `le64` for the given number of bytes. -/
def le64Loop : ℕ → ℤ → Bytes
  | 0, _ => []
  | k + 1, x => UInt8.ofNat (x % 256).toNat :: le64Loop k (x / 256)

def le64 (v : ℤ) : Bytes := le64Loop 8 v

def varint (n : ℕ) : Bytes :=
  if n < 0xfd then [UInt8.ofNat n]
  else if n ≤ 0xffff then [0xfd, UInt8.ofNat (n &&& 255), UInt8.ofNat ((n >>> 8) &&& 255)]
  else 0xfe :: le32 n

/-- `pushData`; `none` where it throws. -/
def pushData (data : Bytes) : Option Bytes :=
  if data.length ≥ 76 then none else some (UInt8.ofNat data.length :: data)

/-! ## Transactions -/

structure TxIn where
  txid : List Char
  vout : ℤ
  script : Bytes

structure TxOut where
  value : ℤ
  script : Bytes

structure Tx where
  version : ℤ
  vin : List TxIn
  vout : List TxOut
  locktime : ℤ

def serializeIn (i : TxIn) : Bytes :=
  (fromHex i.txid).reverse ++ le32 i.vout ++ varint i.script.length ++ i.script ++ le32 0xffffffff

def serializeOut (o : TxOut) : Bytes := le64 o.value ++ varint o.script.length ++ o.script

def serialize (tx : Tx) : Bytes :=
  le32 tx.version ++ varint tx.vin.length ++ tx.vin.flatMap serializeIn
    ++ varint tx.vout.length ++ tx.vout.flatMap serializeOut ++ le32 tx.locktime

/-! ## Signing -/

structure Account where
  privKey : Bytes
  pubKey : Bytes

/-- The functions that the wallet takes from its libraries. -/
structure Library where
  /-- `hash160`, RIPEMD-160 of SHA-256. -/
  hash160 : Bytes → uint160
  /-- `secp.sign` of a hash with a private key, in DER. -/
  sign : uint256 → Bytes → Bytes

def p2pkhScript (hash160Bytes : Bytes) : Bytes := [0x76, 0xa9, 0x14] ++ hash160Bytes ++ [0x88, 0xac]

/-- The copy of the transaction with the script of one input set and the others empty. -/
def copyFor (tx : Tx) (i : ℕ) (prevScript : Bytes) : Tx :=
  { tx with vin := tx.vin.mapIdx (fun j v => { v with script := if j = i then prevScript else [] }) }

/-- What is hashed for the signature of an input. -/
def preimage (tx : Tx) (i : ℕ) (prevScript : Bytes) : Bytes :=
  serialize (copyFor tx i prevScript) ++ le32 1

section Signing

variable (crypto : Crypto) (library : Library)

/-- The signature of an input, with the byte of the hash type. -/
def signature (tx : Tx) (i : ℕ) (owner : Account) : Bytes :=
  let prevScript := p2pkhScript (serializeUint160 (library.hash160 owner.pubKey))
  library.sign (crypto.hash (preimage tx i prevScript)) owner.privKey ++ [1]

/-- The body of the signing loop of `buildAndSign`. -/
def signInput (tx : Tx) (i : ℕ) (owner : Account) : Option Tx := do
  let sig ← pushData (signature crypto library tx i owner)
  let pubKey ← pushData owner.pubKey
  return { tx with vin := tx.vin.modify i (fun v => { v with script := sig ++ pubKey }) }

/-- The signing loop from the given input on, with the owners of the inputs from there on. -/
def signInputs : ℕ → List Account → Tx → Option Tx
  | _, [], tx => some tx
  | i, owner :: owners, tx => do
    let tx ← signInput crypto library tx i owner
    signInputs (i + 1) owners tx

end Signing

/-! ## The daemon's transaction -/

/-- `uint256::GetHex`, the text of a transaction id. -/
def getHex (hash : uint256) : List Char := toHex (serializeUint256 hash).reverse

/-- A transaction of the daemon as the web wallet holds it. -/
def ofTransaction (tx : CTransaction) : Tx where
  version := tx.nVersion.toInt
  vin := tx.vin.map (fun txin => ⟨getHex txin.prevout.hash, txin.prevout.n.toNat, txin.scriptSig⟩)
  vout := tx.vout.map (fun txout => ⟨txout.nValue.toInt, txout.scriptPubKey⟩)
  locktime := tx.nLockTime.toNat

/-! ## The bytes agree -/

theorem uint8_ofNat_and (n : ℕ) : UInt8.ofNat (n &&& 255) = UInt8.ofNat n := by
  apply UInt8.toNat_inj.mp
  rw [UInt8.toNat_ofNat', UInt8.toNat_ofNat', show (255 : ℕ) = 2 ^ 8 - 1 from rfl,
    Nat.and_two_pow_sub_one_eq_mod]
  omega

theorem le32_eq (n : ℤ) : le32 n = toLE 4 (toUint32 n) := by
  simp only [le32, toLE, uint8_ofNat_and, Nat.shiftRight_eq_div_pow, Nat.div_div_eq_div_mul]

theorem toUint32_natCast {n : ℕ} (h : n < 2 ^ 32) : toUint32 n = n := by
  rw [toUint32]
  omega

theorem toUint32_toInt (a : Int32) : toUint32 a.toInt = a.toUInt32.toNat := by
  have h := BitVec.toInt_eq_toNat_cond a.toBitVec
  have hlt := a.toUInt32.toNat_lt
  change a.toInt = if 2 * a.toUInt32.toNat < 2 ^ 32 then (a.toUInt32.toNat : ℤ)
    else (a.toUInt32.toNat : ℤ) - (2 ^ 32 : ℕ) at h
  rw [toUint32, h]
  split_ifs <;> omega

theorem toInt64_emod (a : Int64) : (a.toInt % 2 ^ 64).toNat = a.toUInt64.toNat := by
  have h := BitVec.toInt_eq_toNat_cond a.toBitVec
  have hlt := a.toUInt64.toNat_lt
  change a.toInt = if 2 * a.toUInt64.toNat < 2 ^ 64 then (a.toUInt64.toNat : ℤ)
    else (a.toUInt64.toNat : ℤ) - (2 ^ 64 : ℕ) at h
  rw [h]
  split_ifs <;> omega

/-- Taking a byte off a number modulo a power of 256. -/
theorem emod_toNat_div (x : ℤ) {m : ℤ} (h : 0 < m) :
  (x % (256 * m)).toNat / 256 = (x / 256 % m).toNat
  := by
  have hdiv : x % (256 * m) / 256 = x / 256 % m := by
    rw [Int.emod_def, Int.emod_def, ← Int.ediv_ediv_of_nonneg (by decide), Int.mul_assoc]
    omega
  rw [← hdiv]
  have hnonneg : 0 ≤ x % (256 * m) := Int.emod_nonneg _ (by omega)
  omega

theorem le64Loop_eq (k : ℕ) (x : ℤ) : le64Loop k x = toLE k (x % 256 ^ k).toNat := by
  induction k generalizing x with
  | zero => rfl
  | succ k ih =>
    rw [le64Loop, toLE, pow_succ, Int.mul_comm, emod_toNat_div x (by positivity), ih]
    congr 1
    apply UInt8.toNat_inj.mp
    rw [UInt8.toNat_ofNat', UInt8.toNat_ofNat']
    have hmod : x % (256 * 256 ^ k) % 256 = x % 256 :=
      Int.emod_emod_of_dvd x (Int.dvd_mul_right 256 _)
    have hnonneg : 0 ≤ x % (256 * 256 ^ k) := Int.emod_nonneg _ (by positivity)
    omega

theorem le64_toInt (a : Int64) : le64 a.toInt = serializeInt64 a := by
  rw [le64, le64Loop_eq, serializeInt64, ← toInt64_emod]
  rfl

theorem le32_toInt (a : Int32) : le32 a.toInt = serializeInt a := by
  rw [le32_eq, toUint32_toInt]
  rfl

theorem le32_toNat (a : UInt32) : le32 a.toNat = serializeUInt a := by
  rw [le32_eq, toUint32_natCast a.toNat_lt]
  rfl

/-- Sizes below 2^32 are written as the daemon's compact sizes. -/
theorem varint_eq {n : ℕ} (h : n < 2 ^ 32) : varint n = writeCompactSize n := by
  rw [varint, writeCompactSize]
  split_ifs with hshort htwo hfour
  · rfl
  · simp only [toLE, uint8_ofNat_and, Nat.shiftRight_eq_div_pow]
  · rw [le32_eq, toUint32_natCast h]
  · omega

/-- The sizes of a transaction are below 2^32. -/
structure SizesFit (tx : CTransaction) : Prop where
  vin : tx.vin.length < 2 ^ 32
  scriptSig : ∀ txin ∈ tx.vin, txin.scriptSig.length < 2 ^ 32
  vout : tx.vout.length < 2 ^ 32
  scriptPubKey : ∀ txout ∈ tx.vout, txout.scriptPubKey.length < 2 ^ 32

/-- Every sequence number is the one that the web wallet writes. -/
def SequencesFinal (tx : CTransaction) : Prop := ∀ txin ∈ tx.vin, txin.nSequence = 0xffffffff

theorem serializeIn_eq
    {txin : CTxIn} (hsequence : txin.nSequence = 0xffffffff)
    (hscript : txin.scriptSig.length < 2 ^ 32) :
  serializeIn ⟨getHex txin.prevout.hash, txin.prevout.n.toNat, txin.scriptSig⟩ = txin.serialize
  := by
  rw [serializeIn, getHex, fromHex_toHex, List.reverse_reverse, le32_toNat, varint_eq hscript,
    CTxIn.serialize, COutPoint.serialize, serializeBytes, hsequence]
  simp only [List.append_assoc]
  rfl

theorem serializeOut_eq
    {txout : CTxOut} (hscript : txout.scriptPubKey.length < 2 ^ 32) :
  serializeOut ⟨txout.nValue.toInt, txout.scriptPubKey⟩ = txout.serialize
  := by
  rw [serializeOut, le64_toInt, varint_eq hscript, CTxOut.serialize, serializeBytes,
    List.append_assoc]

variable {tx : CTransaction}

theorem serialize_ofTransaction
    (hsequence : SequencesFinal tx) (hsizes : SizesFit tx) :
  serialize (ofTransaction tx) = tx.serialize
  := by
  have hvin : (ofTransaction tx).vin.flatMap serializeIn = tx.vin.flatMap CTxIn.serialize := by
    rw [ofTransaction, List.flatMap_map]
    apply List.flatMap_congr
    intro txin hmem
    apply serializeIn_eq (hsequence txin hmem) (hsizes.scriptSig txin hmem)
  have hvout : (ofTransaction tx).vout.flatMap serializeOut
      = tx.vout.flatMap CTxOut.serialize := by
    rw [ofTransaction, List.flatMap_map]
    apply List.flatMap_congr
    intro txout hmem
    apply serializeOut_eq (hsizes.scriptPubKey txout hmem)
  rw [serialize, hvin, hvout]
  simp only [ofTransaction, List.length_map]
  rw [varint_eq hsizes.vin, varint_eq hsizes.vout, le32_toInt, le32_toNat, CTransaction.serialize,
    serializeVector, serializeVector]
  simp only [List.append_assoc]

/-! ## The signed bytes agree -/

theorem p2pkhScript_eq (keyID : uint160) :
  p2pkhScript (serializeUint160 keyID) = scriptForKeyID keyID
  := by
  have hlength : (serializeUint160 keyID).length = 20 := length_toLE 20 keyID.toNat
  rw [p2pkhScript, scriptForKeyID, CorgiCoin.pushData, hlength]
  rfl

/-- The copy that is signed, as a transaction of the daemon. -/
def blanked (tx : CTransaction) (i : ℕ) (script : CScript) : CTransaction :=
  { tx with vin := blankScripts script i tx.vin }

theorem blankScripts_eq (script : CScript) (i : ℕ) (vin : List CTxIn) :
  blankScripts script i vin
    = vin.mapIdx (fun j txin => { txin with scriptSig := if j = i then script else [] })
  := by
  apply List.ext_getElem?
  intro j
  rw [blankScripts, List.getElem?_modify, List.getElem?_map, List.getElem?_mapIdx]
  cases vin[j]? with
  | none => simp
  | some txin =>
    by_cases h : i = j
    · simp [h]
    · simp [h, Ne.symm h]

theorem copyFor_ofTransaction (tx : CTransaction) (i : ℕ) (script : CScript) :
  copyFor (ofTransaction tx) i script = ofTransaction (blanked tx i script)
  := by
  rw [copyFor, blanked, blankScripts_eq, ofTransaction, ofTransaction]
  simp only [Tx.mk.injEq, true_and, and_true]
  apply List.ext_getElem?
  intro j
  simp [List.getElem?_mapIdx, Function.comp_def]

variable {i : ℕ}

theorem mem_blankScripts
    {script : CScript} {vin : List CTxIn} {txin : CTxIn} (h : txin ∈ blankScripts script i vin) :
  ∃ old ∈ vin, txin.nSequence = old.nSequence ∧ (txin.scriptSig = script ∨ txin.scriptSig = [])
  := by
  rw [blankScripts_eq, List.mem_mapIdx] at h
  obtain ⟨j, hj, rfl⟩ := h
  refine ⟨vin[j], List.getElem_mem hj, rfl, ?_⟩
  dsimp only
  split_ifs
  · exact .inl rfl
  · exact .inr rfl

/-- What the web wallet hashes for an input is what `SignatureHash` hashes. -/
theorem preimage_ofTransaction
    (hsequence : SequencesFinal tx) (hsizes : SizesFit tx) (hi : i < tx.vin.length) (keyID : uint160) :
  signatureBytes (scriptForKeyID keyID) tx i SIGHASH_ALL
    = some (preimage (ofTransaction tx) i (p2pkhScript (serializeUint160 keyID)))
  := by
  have hscript : (scriptForKeyID keyID).length = 25 := by
    rw [← p2pkhScript_eq, p2pkhScript, List.length_append, List.length_append, serializeUint160,
      length_toLE]
    rfl
  have hblanked : serialize (ofTransaction (blanked tx i (scriptForKeyID keyID)))
      = (blanked tx i (scriptForKeyID keyID)).serialize := by
    apply serialize_ofTransaction
    · intro txin hmem
      obtain ⟨old, hold, hseq, -⟩ := mem_blankScripts hmem
      rw [hseq, hsequence old hold]
    · refine ⟨?_, ?_, hsizes.vout, hsizes.scriptPubKey⟩
      · rw [blanked, blankScripts_eq, List.length_mapIdx]
        apply hsizes.vin
      · intro txin hmem
        obtain ⟨-, -, -, heq | heq⟩ := mem_blankScripts hmem
        · rw [heq, hscript]
          decide
        · rw [heq]
          decide
  have hnone : ¬(SIGHASH_ALL &&& 0x1f = SIGHASH_NONE) := by decide
  have hsingle : ¬(SIGHASH_ALL &&& 0x1f = SIGHASH_SINGLE) := by decide
  have hanyone : ¬(SIGHASH_ALL &&& SIGHASH_ANYONECANPAY ≠ 0) := by decide
  rw [signatureBytes, if_neg (Nat.not_le.mpr hi), findAndDelete_scriptForKeyID]
  dsimp only
  rw [if_neg hnone, if_neg hsingle, Option.map_some]
  dsimp only
  rw [if_neg hanyone, preimage, p2pkhScript_eq, copyFor_ofTransaction, hblanked]
  rfl

/-! ## The signing loop -/

/-- The transaction with the given scripts in its inputs. -/
def withScripts (tx : CTransaction) (scripts : ℕ → CScript) : CTransaction :=
  { tx with vin := tx.vin.mapIdx (fun j txin => { txin with scriptSig := scripts j }) }

theorem blankScripts_withScripts
    (tx : CTransaction) (scripts : ℕ → CScript) (script : CScript) (i : ℕ) :
  blankScripts script i (withScripts tx scripts).vin = blankScripts script i tx.vin
  := by
  rw [blankScripts_eq, blankScripts_eq, withScripts, List.mapIdx_mapIdx]
  rfl

/-- The scripts that are in the inputs do not change what is signed. -/
theorem signature_withScripts
    (crypto : Crypto) (library : Library) (tx : CTransaction) (scripts : ℕ → CScript) (i : ℕ)
    (owner : Account) :
  signature crypto library (ofTransaction (withScripts tx scripts)) i owner
    = signature crypto library (ofTransaction tx) i owner
  := by
  rw [signature, signature, preimage, preimage, copyFor_ofTransaction, copyFor_ofTransaction,
    blanked, blanked, blankScripts_withScripts]
  rfl

theorem signatureBytes_withScripts
    (tx : CTransaction) (scripts : ℕ → CScript) (scriptCode : CScript) (i : ℕ)
    (nHashType : Int32) :
  signatureBytes scriptCode (withScripts tx scripts) i nHashType
    = signatureBytes scriptCode tx i nHashType
  := by
  have hlength : (withScripts tx scripts).vin.length = tx.vin.length := List.length_mapIdx
  rw [signatureBytes, signatureBytes, hlength]
  dsimp only
  rw [blankScripts_withScripts]
  rfl

theorem modify_ofTransaction
    (tx : CTransaction) (scripts : ℕ → CScript) (i : ℕ) (script : CScript) :
  { ofTransaction (withScripts tx scripts) with
    vin := (ofTransaction (withScripts tx scripts)).vin.modify i
      (fun v => { v with script := script }) }
    = ofTransaction (withScripts tx (Function.update scripts i script))
  := by
  simp only [ofTransaction, withScripts, Tx.mk.injEq, true_and, and_true]
  apply List.ext_getElem?
  intro j
  rw [List.getElem?_modify]
  simp only [List.getElem?_map, List.getElem?_mapIdx]
  cases tx.vin[j]? with
  | none => simp
  | some txin =>
    by_cases h : i = j
    · subst h
      simp
    · simp [h, Function.update_of_ne (Ne.symm h)]

/-- The script that the loop gives an input. -/
def IsSigned (crypto : Crypto) (library : Library) (tx : CTransaction) (i : ℕ) (owner : Account)
    (script : CScript) : Prop :=
  ∃ sig pubKey, pushData (signature crypto library (ofTransaction tx) i owner) = some sig
    ∧ pushData owner.pubKey = some pubKey ∧ script = sig ++ pubKey

theorem signInputs_eq
    {crypto : Crypto} {library : Library} {scripts : ℕ → CScript} {owners : List Account} {signed : Tx}
    (h : signInputs crypto library i owners (ofTransaction (withScripts tx scripts))
      = some signed) :
  ∃ scripts', signed = ofTransaction (withScripts tx scripts') ∧ (∀ j < i, scripts' j = scripts j)
    ∧ ∀ k owner, owners[k]? = some owner →
      IsSigned crypto library tx (i + k) owner (scripts' (i + k))
  := by
  induction owners generalizing scripts i with
  | nil =>
    obtain rfl := Option.some.inj h
    exact ⟨scripts, rfl, fun _ _ => rfl, nofun⟩
  | cons owner owners ih =>
    rw [signInputs] at h
    obtain ⟨next, hnext, hrest⟩ := Option.bind_eq_some_iff.mp h
    rw [signInput, signature_withScripts] at hnext
    obtain ⟨sig, hsig, hnext⟩ := Option.bind_eq_some_iff.mp hnext
    obtain ⟨pubKey, hpubKey, hnext⟩ := Option.bind_eq_some_iff.mp hnext
    obtain rfl := Option.some.inj hnext
    rw [modify_ofTransaction] at hrest
    obtain ⟨scripts', hsigned, hsame, howners⟩ := ih hrest
    refine ⟨scripts', hsigned, ?_, ?_⟩
    · intro j hj
      rw [hsame j (by omega), Function.update_of_ne (by omega)]
    · intro k owner' hk
      cases k with
      | zero =>
        obtain rfl := Option.some.inj hk
        refine ⟨sig, pubKey, hsig, hpubKey, ?_⟩
        rw [Nat.add_zero, hsame i (by omega), Function.update_self]
      | succ k =>
        rw [← Nat.add_assoc, Nat.add_right_comm]
        apply howners k owner' hk

/-- The keys of an account are a pair, and signatures made with it verify. -/
def Account.Signs (ecdsa : Ecdsa) (library : Library) (account : Account) : Prop :=
  ecdsa.setPubKey account.pubKey = true
    ∧ ∀ hash, ecdsa.verify account.pubKey hash (library.sign hash account.privKey) = true

theorem checkSig_signature
    {crypto : Crypto} {ecdsa : Ecdsa} {library : Library}
    (hsequence : SequencesFinal tx) (hsizes : SizesFit tx) (hi : i < tx.vin.length)
    {owner : Account} (howner : owner.Signs ecdsa library) (scripts : ℕ → CScript) :
  checkSig crypto ecdsa (signature crypto library (ofTransaction tx) i owner) owner.pubKey
    (scriptForKeyID (library.hash160 owner.pubKey)) (withScripts tx scripts) i 0 = true
  := by
  have hlast : (signature crypto library (ofTransaction tx) i owner).getLast? = some 1 := by
    rw [signature, List.getLast?_concat]
  have htype : Int32.ofNat (1 : UInt8).toNat = SIGHASH_ALL := rfl
  rw [checkSig, hlast]
  dsimp only
  rw [if_neg (by simp), htype, signatureHash, signatureBytes_withScripts,
    preimage_ofTransaction hsequence hsizes hi, howner.1, Bool.true_and, signature,
    List.dropLast_concat]
  apply howner.2

/-- Where no size is of 2^32 or more, the web wallet writes the daemon's bytes, hashes what
`SignatureHash` hashes, and makes signatures that `CheckSig` accepts in the signed transaction. -/
theorem webWallet_agrees
    (crypto : Crypto) (ecdsa : Ecdsa) (library : Library) {tx : CTransaction}
    (hsequence : SequencesFinal tx) (hsizes : SizesFit tx) :
  serialize (ofTransaction tx) = tx.serialize
    ∧ (∀ i < tx.vin.length, ∀ keyID, signatureBytes (scriptForKeyID keyID) tx i SIGHASH_ALL
      = some (preimage (ofTransaction tx) i (p2pkhScript (serializeUint160 keyID))))
    ∧ ∀ owners signed, (∀ owner ∈ owners, owner.Signs ecdsa library) →
      owners.length = tx.vin.length →
      signInputs crypto library 0 owners (ofTransaction (withScripts tx (fun _ => [])))
        = some signed →
      ∃ scripts, signed = ofTransaction (withScripts tx scripts)
        ∧ ∀ i owner, owners[i]? = some owner →
          IsSigned crypto library tx i owner (scripts i)
          ∧ checkSig crypto ecdsa (signature crypto library (ofTransaction tx) i owner)
            owner.pubKey (scriptForKeyID (library.hash160 owner.pubKey)) (withScripts tx scripts) i 0
            = true
  := by
  refine ⟨serialize_ofTransaction hsequence hsizes, ?_, ?_⟩
  · intro i hi keyID
    apply preimage_ofTransaction hsequence hsizes hi
  · intro owners signed howners hlength hsigned
    obtain ⟨scripts, heq, -, hscripts⟩ := signInputs_eq hsigned
    refine ⟨scripts, heq, ?_⟩
    intro i owner howner
    have hi : i < tx.vin.length := hlength ▸ (List.getElem?_eq_some_iff.mp howner).1
    have hscript := hscripts i owner howner
    rw [Nat.zero_add] at hscript
    refine ⟨hscript, ?_⟩
    apply checkSig_signature hsequence hsizes hi (howners owner (List.mem_of_getElem? howner))

/-! ### A payment, and a script that is too long -/

/-- A transaction of two inputs and two outputs. -/
def samplePayment : CTransaction where
  nVersion := 1
  vin := [⟨⟨7, 0⟩, [], 0xffffffff⟩, ⟨⟨9, 1⟩, [], 0xffffffff⟩]
  vout := [⟨500000000, scriptForKeyID 5⟩, ⟨100000000, scriptForKeyID 6⟩]
  nLockTime := 0

/-- Signatures that hold the hash and the key. -/
def sampleLibrary : Library where
  hash160 bytes := BitVec.ofNat 160 (ofLE bytes)
  sign hash privKey := 0x30 :: (serializeUint256 hash ++ privKey)

def sampleEcdsa : Ecdsa where
  setPubKey pubKey := pubKey.length == 33
  verify pubKey hash sig := sig == 0x30 :: (serializeUint256 hash ++ pubKey.drop 1)

def sampleAccount (n : UInt8) : Account where
  privKey := List.replicate 32 n
  pubKey := 2 :: List.replicate 32 n

theorem samplePayment_agrees :
  serialize (ofTransaction samplePayment) = samplePayment.serialize
    ∧ ∃ scripts, signInputs sampleCrypto sampleLibrary 0 [sampleAccount 3, sampleAccount 4]
        (ofTransaction (withScripts samplePayment (fun _ => [])))
          = some (ofTransaction (withScripts samplePayment scripts))
      ∧ checkSig sampleCrypto sampleEcdsa
        (signature sampleCrypto sampleLibrary (ofTransaction samplePayment) 1 (sampleAccount 4))
        (sampleAccount 4).pubKey
        (scriptForKeyID (sampleLibrary.hash160 (sampleAccount 4).pubKey))
        (withScripts samplePayment scripts) 1 0 = true
  := by
  have hsequence : SequencesFinal samplePayment := by
    unfold SequencesFinal
    decide
  have hsizes : SizesFit samplePayment :=
    ⟨by decide, by decide, by decide, by decide⟩
  have howners : ∀ owner ∈ [sampleAccount 3, sampleAccount 4],
      owner.Signs sampleEcdsa sampleLibrary := by
    intro owner hmem
    obtain rfl | rfl := List.mem_pair.mp hmem
    · exact ⟨rfl, fun hash => by simp [sampleEcdsa, sampleLibrary, sampleAccount]⟩
    · exact ⟨rfl, fun hash => by simp [sampleEcdsa, sampleLibrary, sampleAccount]⟩
  obtain ⟨hbytes, -, hsigned⟩ :=
    webWallet_agrees sampleCrypto sampleEcdsa sampleLibrary hsequence hsizes
  refine ⟨hbytes, ?_⟩
  obtain ⟨signed, hsome⟩ : ∃ signed, signInputs sampleCrypto sampleLibrary 0
      [sampleAccount 3, sampleAccount 4]
      (ofTransaction (withScripts samplePayment (fun _ => []))) = some signed := by
    apply Option.isSome_iff_exists.mp
    decide
  obtain ⟨scripts, rfl, hscripts⟩ := hsigned _ signed howners rfl hsome
  exact ⟨scripts, hsome, (hscripts 1 (sampleAccount 4) rfl).2⟩

/-- The two encodings of a size of 2^32 or more start with different bytes. -/
theorem serializeOut_ne
    {txout : CTxOut} (h : 2 ^ 32 ≤ txout.scriptPubKey.length) (rest rest' : Bytes) :
  serializeOut ⟨txout.nValue.toInt, txout.scriptPubKey⟩ ++ rest ≠ txout.serialize ++ rest'
  := by
  intro heq
  rw [serializeOut, le64_toInt, CTxOut.serialize, serializeBytes] at heq
  dsimp only at heq
  rw [varint, if_neg (by omega), if_neg (by omega), writeCompactSize, if_neg (by omega),
    if_neg (by omega), if_neg (by omega)] at heq
  simp only [List.append_assoc, List.append_cancel_left_eq, List.cons_append,
    List.cons.injEq] at heq
  exact absurd heq.1 (by decide)

/-- A payment whose one output has the given script. -/
def paymentTo (script : CScript) : CTransaction where
  nVersion := 1
  vin := [⟨⟨7, 0⟩, [], 0xffffffff⟩]
  vout := [⟨500000000, script⟩]
  nLockTime := 0

theorem serialize_paymentTo_ne
    {script : CScript} (h : 2 ^ 32 ≤ script.length) :
  serialize (ofTransaction (paymentTo script)) ≠ (paymentTo script).serialize
  := by
  intro heq
  have hin : (ofTransaction (paymentTo script)).vin.flatMap serializeIn
      = (paymentTo script).vin.flatMap CTxIn.serialize := by
    rw [ofTransaction, List.flatMap_map]
    apply List.flatMap_congr
    intro txin hmem
    obtain rfl := List.mem_singleton.mp hmem
    apply serializeIn_eq rfl
    decide
  have hcount : varint 1 = writeCompactSize 1 := varint_eq (by decide)
  rw [serialize, CTransaction.serialize, hin, serializeVector, serializeVector] at heq
  simp only [ofTransaction, paymentTo, List.length_singleton, le32_toInt, hcount,
    List.map_cons, List.map_nil, List.flatMap_cons, List.flatMap_nil, List.append_nil,
    List.append_assoc, List.append_cancel_left_eq] at heq
  apply @serializeOut_ne ⟨500000000, script⟩ h
  apply heq

theorem longScript_bytes_ne :
  serialize (ofTransaction (paymentTo (List.replicate (2 ^ 32) 0)))
    ≠ (paymentTo (List.replicate (2 ^ 32) 0)).serialize
  := by
  apply serialize_paymentTo_ne
  rw [List.length_replicate]

end CorgiCoin.WebWallet
