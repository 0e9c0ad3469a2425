import CorgiCoin.Address
import CorgiCoin.Lib.TreeMap

/-!
# Standard scripts

`Solver` recognises the scripts of the standard types and takes the keys and hashes out of them.  On
top of it, `ExtractDestination` names the destination that a script pays to and `IsMine` says whether a
key store can spend it.
-/

namespace CorgiCoin

open Std Codec

inductive txnouttype where
  | TX_NONSTANDARD | TX_PUBKEY | TX_PUBKEYHASH | TX_SCRIPTHASH | TX_MULTISIG | TX_NULL_DATA
  deriving DecidableEq

/-! ## Templates -/

def OP_SMALLINTEGER : ℕ := 0xfa
def OP_PUBKEYS : ℕ := 0xfb
def OP_PUBKEYHASH : ℕ := 0xfd
def OP_PUBKEY : ℕ := 0xfe

open txnouttype in
/-- `mTemplates`, in the order of the types; the instructions of a template push nothing. -/
def mTemplates : List (txnouttype × List ℕ) := [
  (TX_PUBKEY, [OP_PUBKEY, OP_CHECKSIG]),
  (TX_PUBKEYHASH, [OP_DUP, OP_HASH160, OP_PUBKEYHASH, OP_EQUALVERIFY, OP_CHECKSIG]),
  (TX_MULTISIG, [OP_SMALLINTEGER, OP_PUBKEYS, OP_SMALLINTEGER, OP_CHECKMULTISIG])]

/-- Whether a push can be that of a public key. -/
def isPubKeySize (vch : Bytes) : Bool := 33 ≤ vch.length && vch.length ≤ 120

/-- The loop over public keys: the instruction at hand after it, the rest of the script and the keys.
The keys are fewer than the bytes of the script. -/
def takePubKeys : ℕ → ℕ × Bytes × CScript → List Bytes → (ℕ × Bytes × CScript) × List Bytes
  | 0, op, vSolutions => (op, vSolutions)
  | fuel + 1, (opcode1, vch1, pc1), vSolutions =>
    if isPubKeySize vch1 then
      match getOp pc1 with
      | none => ((OP_INVALIDOPCODE, [], pc1), vSolutions ++ [vch1])
      | some op => takePubKeys fuel op (vSolutions ++ [vch1])
    else ((opcode1, vch1, pc1), vSolutions)

/-- An instruction of a script against one of a template: what is added to the solutions. -/
def matchOp (opcode1 : ℕ) (vch1 : Bytes) (opcode2 : ℕ) : Option (List Bytes) :=
  if opcode2 = OP_PUBKEY then
    if isPubKeySize vch1 then some [vch1] else none
  else if opcode2 = OP_PUBKEYHASH then
    if vch1.length = 20 then some [vch1] else none
  else if opcode2 = OP_SMALLINTEGER then
    if opcode1 = 0 ∨ (OP_1 ≤ opcode1 ∧ opcode1 ≤ OP_16) then
      some [[UInt8.ofNat (if opcode1 = 0 then 0 else decodeOP_N opcode1)]]
    else none
  else if opcode1 ≠ opcode2 ∨ vch1 ≠ [] then none
  else some []

/-- The comparison of a script with a template, and the solutions where they match. -/
def matchTemplate : List ℕ → CScript → List Bytes → Option (List Bytes)
  | [], pc1, vSolutions => if pc1.isEmpty then some vSolutions else none
  | opcode2 :: rest, pc1, vSolutions =>
    match getOp pc1 with
    | none => none
    | some (opcode1, vch1, pc1) =>
      if opcode2 = OP_PUBKEYS then
        let (op, vSolutions) := takePubKeys (pc1.length + 1) (opcode1, vch1, pc1) vSolutions
        match rest with
        | [] => none
        | opcode2 :: rest =>
          match matchOp op.1 op.2.1 opcode2 with
          | none => none
          | some found => matchTemplate rest op.2.2 (vSolutions ++ found)
      else
        match matchOp opcode1 vch1 opcode2 with
        | none => none
        | some found => matchTemplate rest pc1 (vSolutions ++ found)

/-- The scan of the templates, and the checks of a multisignature that is found. -/
def scanTemplates (script : CScript) :
    List (txnouttype × List ℕ) → Option (txnouttype × List Bytes)
  | [] => none
  | (typeRet, template) :: templates =>
    match matchTemplate template script [] with
    | none => scanTemplates script templates
    | some vSolutions =>
      if typeRet = .TX_MULTISIG then
        let m := ((vSolutions.head?.getD []).head?.getD 0).toNat
        let n := ((vSolutions.getLast?.getD []).head?.getD 0).toNat
        if m < 1 ∨ n < 1 ∨ m > n ∨ vSolutions.length - 2 ≠ n then none
        else some (typeRet, vSolutions)
      else some (typeRet, vSolutions)

/-- `Solver`: the type and the solutions of a script, where it returns true. -/
def solver (scriptPubKey : CScript) : Option (txnouttype × List Bytes) :=
  if scriptPubKey.head? = some (UInt8.ofNat OP_RETURN) ∧ scriptPubKey.length ≤ 83 then
    some (.TX_NULL_DATA, [])
  else if isPayToScriptHash scriptPubKey then
    some (.TX_SCRIPTHASH, [(scriptPubKey.drop 2).take 20])
  else scanTemplates scriptPubKey mTemplates

/-! ## Key stores -/

/-- The methods of `CKeyStore`. -/
structure CKeyStore where
  haveKey : uint160 → Bool
  getKey : uint160 → Option CKey
  getPubKey : uint160 → Option Bytes
  mapScripts : ExtTreeMap uint160 CScript

namespace CKeyStore

def haveCScript (keystore : CKeyStore) (hash : uint160) : Bool := keystore.mapScripts.contains hash

def getCScript (keystore : CKeyStore) (hash : uint160) : Option CScript := keystore.mapScripts[hash]?

end CKeyStore

/-- `uint160(vch)` -/
def uint160OfBytes (vch : Bytes) : uint160 := if vch.length = 20 then BitVec.ofNat 160 (ofLE vch) else 0

section Destinations

variable (hash160 : Bytes → uint160)

def extractDestination (scriptPubKey : CScript) : Option CTxDestination :=
  match solver scriptPubKey with
  | some (.TX_PUBKEY, vSolutions) => some (.CKeyID (hash160 (vSolutions.head?.getD [])))
  | some (.TX_PUBKEYHASH, vSolutions) => some (.CKeyID (uint160OfBytes (vSolutions.head?.getD [])))
  | some (.TX_SCRIPTHASH, vSolutions) => some (.CScriptID (uint160OfBytes (vSolutions.head?.getD [])))
  | _ => none

variable (keystore : CKeyStore)

/-- `IsMine` of a destination. -/
def isMineDestination : CTxDestination → Bool
  | .CNoDestination => false
  | .CKeyID keyID => keystore.haveKey keyID
  | .CScriptID scriptID => keystore.haveCScript scriptID

def haveKeys (pubkeys : List Bytes) : ℕ :=
  pubkeys.countP (fun pubkey => keystore.haveKey (hash160 pubkey))

/-- The recursion of `IsMine` through scripts of the store.  It goes deeper than the store has scripts
only where a script names itself, and there the source does not return. -/
def isMineLoop : ℕ → CScript → Bool
  | 0, _ => false
  | fuel + 1, scriptPubKey =>
    match solver scriptPubKey with
    | some (.TX_PUBKEY, vSolutions) => keystore.haveKey (hash160 (vSolutions.head?.getD []))
    | some (.TX_PUBKEYHASH, vSolutions) =>
      keystore.haveKey (uint160OfBytes (vSolutions.head?.getD []))
    | some (.TX_SCRIPTHASH, vSolutions) =>
      match keystore.getCScript (uint160OfBytes (vSolutions.head?.getD [])) with
      | none => false
      | some subscript => isMineLoop fuel subscript
    | some (.TX_MULTISIG, vSolutions) =>
      let keys := vSolutions.tail.dropLast
      haveKeys hash160 keystore keys == keys.length
    | _ => false

/-- `IsMine` of a script. -/
def isMine (scriptPubKey : CScript) : Bool :=
  isMineLoop hash160 keystore (keystore.mapScripts.size + 1) scriptPubKey

end Destinations

/-! ## Destinations as keys of a map -/

namespace CTxDestination

/-- The alternative of the variant. -/
def index : CTxDestination → ℕ
  | CNoDestination => 0
  | CKeyID _ => 1
  | CScriptID _ => 2

def id : CTxDestination → uint160
  | CNoDestination => 0
  | CKeyID id => id
  | CScriptID id => id

instance : Ord CTxDestination := ⟨compareLex (compareOn index) (compareOn id)⟩

instance : TransOrd CTxDestination :=
  inferInstanceAs (TransCmp (compareLex (compareOn index) (compareOn id)))

instance : LawfulEqOrd CTxDestination where
  eq_of_compare {a b} h := by
    obtain ⟨hindex, hid⟩ := compareLex_eq_eq.mp h
    replace hindex : a.index = b.index := LawfulEqOrd.eq_of_compare hindex
    replace hid : a.id = b.id := LawfulEqOrd.eq_of_compare hid
    cases a <;> cases b <;>
      first | rfl | exact congrArg CKeyID hid | exact congrArg CScriptID hid | cases hindex

end CTxDestination

example : extractDestination (fun _ => 7) (scriptForKeyID 5) = some (.CKeyID 5) := by decide

end CorgiCoin
