import CorgiCoin.StandardScripts

/-!
# Signing

`SignSignature` signs an input of a transaction with the keys of a key store.  Where not all signatures
that a multi-signature asks for can be made, it leaves those that can be.  The curve is a parameter; a
signature depends on a number that is drawn at random.
-/

namespace CorgiCoin

open Codec txnouttype

/-- The elliptic-curve operations on private keys, next to those on public ones. -/
structure Signing extends Ecdsa where
  /-- `CKey::GetPubKey` -/
  getPubKey : CKey → Bytes
  /-- `CKey::Sign`, the number drawn at random given. -/
  sign : ℕ → CKey → uint256 → Option Bytes

section Keys

variable (signing : Signing) (hash160 : Bytes → uint160) (keystore : CKeyStore)
variable (nHashType : Int32)
-- the numbers drawn at random, by the addresses that are signed for
variable (rand : uint160 → ℕ)

/-- `Sign1`: what it adds to the script, where it returns true. -/
def sign1 (address : uint160) (hash : uint256) : Option CScript := do
  let key ← keystore.getKey address
  let vchSig ← signing.sign (rand address) key hash
  return pushData (vchSig ++ [nHashType.toUInt32.toUInt8])

/-- The loop of `SignN`: how many signatures were made, and the script. -/
def signNLoop (hash : uint256) (nRequired : ℕ) : List Bytes → ℕ → CScript → ℕ × CScript
  | [], nSigned, scriptSig => (nSigned, scriptSig)
  | pubkey :: pubkeys, nSigned, scriptSig =>
    if nSigned < nRequired then
      match sign1 signing keystore nHashType rand (hash160 pubkey) hash with
      | none => signNLoop hash nRequired pubkeys nSigned scriptSig
      | some pushed => signNLoop hash nRequired pubkeys (nSigned + 1) (scriptSig ++ pushed)
    else (nSigned, scriptSig)

/-- `SignN`: whether enough signatures were made, and the script. -/
def signN (multisigdata : List Bytes) (hash : uint256) (scriptSig : CScript) : Bool × CScript :=
  let nRequired := ((multisigdata.head?.getD []).head?.getD 0).toNat
  let (nSigned, scriptSig) :=
    signNLoop signing hash160 keystore nHashType rand hash nRequired multisigdata.tail.dropLast 0 scriptSig
  (nSigned == nRequired, scriptSig)

/-- `Solver` with a key store: whether it returns true, the script and the type. -/
def signSolver (scriptPubKey : CScript) (hash : uint256) : Bool × CScript × txnouttype :=
  match solver scriptPubKey with
  | none => (false, [], TX_NONSTANDARD)
  | some (TX_PUBKEY, vSolutions) =>
    match sign1 signing keystore nHashType rand (hash160 (vSolutions.head?.getD [])) hash with
    | none => (false, [], TX_PUBKEY)
    | some scriptSig => (true, scriptSig, TX_PUBKEY)
  | some (TX_PUBKEYHASH, vSolutions) =>
    let keyID := uint160OfBytes (vSolutions.head?.getD [])
    match sign1 signing keystore nHashType rand keyID hash with
    | none => (false, [], TX_PUBKEYHASH)
    | some scriptSig => (true, scriptSig ++ pushData ((keystore.getPubKey keyID).getD []), TX_PUBKEYHASH)
  | some (TX_SCRIPTHASH, vSolutions) =>
    match keystore.getCScript (uint160OfBytes (vSolutions.head?.getD [])) with
    | none => (false, [], TX_SCRIPTHASH)
    | some subscript => (true, subscript, TX_SCRIPTHASH)
  | some (TX_MULTISIG, vSolutions) =>
    let (fSigned, scriptSig) := signN signing hash160 keystore nHashType rand vSolutions hash [0]
    (fSigned, scriptSig, TX_MULTISIG)
  | some (whichType, _) => (false, [], whichType)

end Keys

/-- `SignSignature`: the transaction after it and what it returns; `none` where the assertion on the
input fails. -/
def signSignature (crypto : Crypto) (signing : Signing) (hashes : ScriptHashes) (keystore : CKeyStore)
    (rand : uint160 → ℕ) (fromPubKey : CScript) (txTo : CTransaction) (nIn : ℕ) (nHashType : Int32) :
    Option (CTransaction × Bool) :=
  if nIn ≥ txTo.vin.length then none
  else
    let solve := signSolver signing hashes.hash160 keystore nHashType rand
    let verify := fun txTo scriptSig =>
      verifyScript (evalScript crypto signing.toEcdsa hashes 0) scriptSig fromPubKey txTo nIn true
    let (fSolved, scriptSig, whichType) := solve fromPubKey (signatureHash crypto fromPubKey txTo nIn nHashType)
    let txTo := txTo.setScriptSig nIn scriptSig
    if !fSolved then some (txTo, false)
    else if whichType = TX_SCRIPTHASH then
      let subscript := scriptSig
      let (fSolved, scriptSig, subType) :=
        solve subscript (signatureHash crypto subscript txTo nIn nHashType)
      let scriptSig := scriptSig ++ pushData subscript
      let txTo := txTo.setScriptSig nIn scriptSig
      if !(fSolved && subType != TX_SCRIPTHASH) then some (txTo, false)
      else some (txTo, verify txTo scriptSig)
    else some (txTo, verify txTo scriptSig)

end CorgiCoin
