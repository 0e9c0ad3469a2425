import CorgiCoin.Merkle
import CorgiCoin.BigNum

/-!
# Scripts

Reading instructions off a script, counting signature operations, the push operators and
`VerifyScript`.  The interpreter of a single script is a parameter, so the results built on
this module hold for every set of opcodes; the pay-to-script-hash rule around it is modelled.
-/

namespace CorgiCoin

open Codec

/-! ## Opcodes -/

def OP_PUSHDATA1 : ℕ := 0x4c
def OP_PUSHDATA2 : ℕ := 0x4d
def OP_PUSHDATA4 : ℕ := 0x4e
def OP_1 : ℕ := 0x51
def OP_16 : ℕ := 0x60
def OP_RETURN : ℕ := 0x6a
def OP_DUP : ℕ := 0x76
def OP_EQUAL : ℕ := 0x87
def OP_EQUALVERIFY : ℕ := 0x88
def OP_HASH160 : ℕ := 0xa9
def OP_CHECKSIG : ℕ := 0xac
def OP_CHECKSIGVERIFY : ℕ := 0xad
def OP_CHECKMULTISIG : ℕ := 0xae
def OP_CHECKMULTISIGVERIFY : ℕ := 0xaf
def OP_INVALIDOPCODE : ℕ := 0xff

/-! ## Reading instructions -/

/-- `CScript::GetOp`: the opcode at the head of a script, the data it pushes and the rest of
the script, or `none` where the script ends inside the instruction. -/
def getOp : CScript → Option (ℕ × Bytes × CScript)
  | [] => none
  | b :: pc =>
    let opcode := b.toNat
    if opcode > OP_PUSHDATA4 then some (opcode, [], pc)
    else
      -- the bytes of the length field that follows the opcode
      let nLength :=
        if opcode < OP_PUSHDATA1 then 0
        else if opcode = OP_PUSHDATA1 then 1
        else if opcode = OP_PUSHDATA2 then 2
        else 4
      if pc.length < nLength then none
      else
        let nSize := if opcode < OP_PUSHDATA1 then opcode else ofLE (pc.take nLength)
        let pc := pc.drop nLength
        if pc.length < nSize then none
        else some (opcode, pc.take nSize, pc.drop nSize)

/-- The instructions of a script in order, up to the first that is cut short, and whether the
whole script was read.  The first argument bounds the number of instructions. -/
def parse : ℕ → CScript → List (ℕ × Bytes) × Bool
  | 0, script => ([], script.isEmpty)
  | n + 1, script =>
    if script.isEmpty then ([], true)
    else
      match getOp script with
      | none => ([], false)
      | some (opcode, vch, pc) =>
        let rest := parse n pc
        ((opcode, vch) :: rest.1, rest.2)

/-- The instructions of a script; every instruction takes a byte at least. -/
def instructions (script : CScript) : List (ℕ × Bytes) × Bool := parse script.length script

def decodeOP_N (opcode : ℕ) : ℕ := opcode - (OP_1 - 1)

/-- The signature operations an instruction counts for, the instruction before it given. -/
def sigOpsOf (fAccurate : Bool) (lastOpcode opcode : ℕ) : UInt32 :=
  if opcode = OP_CHECKSIG ∨ opcode = OP_CHECKSIGVERIFY then 1
  else if opcode = OP_CHECKMULTISIG ∨ opcode = OP_CHECKMULTISIGVERIFY then
    if fAccurate ∧ lastOpcode ≥ OP_1 ∧ lastOpcode ≤ OP_16 then UInt32.ofNat (decodeOP_N lastOpcode)
    else 20
  else 0

/-- The loop of `CScript::GetSigOpCount`. -/
def countSigOps (fAccurate : Bool) : ℕ → List (ℕ × Bytes) → UInt32
  | _, [] => 0
  | lastOpcode, (opcode, _) :: ops =>
    sigOpsOf fAccurate lastOpcode opcode + countSigOps fAccurate opcode ops

/-- `CScript::GetSigOpCount(bool)`. -/
def getSigOpCount (fAccurate : Bool) (script : CScript) : UInt32 :=
  countSigOps fAccurate OP_INVALIDOPCODE (instructions script).1

def isPayToScriptHash (script : CScript) : Bool :=
  script.length == 23
    && (script.map UInt8.toNat)[0]? == some OP_HASH160
    && (script.map UInt8.toNat)[1]? == some 0x14
    && (script.map UInt8.toNat)[22]? == some OP_EQUAL

/-- `CScript::IsPushOnly`. -/
def isPushOnly (script : CScript) : Bool :=
  let ops := instructions script
  ops.2 && ops.1.all (fun op => op.1 ≤ OP_16)

/-- `CScript::GetSigOpCount(const CScript&)`: for a pay-to-script-hash output, the operations
of the script the input pushes last. -/
def getSigOpCountFor (scriptPubKey scriptSig : CScript) : UInt32 :=
  if !isPayToScriptHash scriptPubKey then getSigOpCount true scriptPubKey
  else if !isPushOnly scriptSig then 0
  else getSigOpCount true (((instructions scriptSig).1.getLast?.map Prod.snd).getD [])

/-! ## Writing instructions -/

/-- `operator<<` of a vector of bytes. -/
def pushData (b : Bytes) : CScript :=
  if b.length < OP_PUSHDATA1 then UInt8.ofNat b.length :: b
  else if b.length ≤ 0xff then UInt8.ofNat OP_PUSHDATA1 :: UInt8.ofNat b.length :: b
  else if b.length ≤ 0xffff then UInt8.ofNat OP_PUSHDATA2 :: (toLE 2 b.length ++ b)
  else UInt8.ofNat OP_PUSHDATA4 :: (toLE 4 b.length ++ b)

/-- `operator<<` of an `unsigned int`. -/
def pushUInt (n : UInt32) : CScript :=
  if 1 ≤ n.toNat ∧ n.toNat ≤ 16 then [UInt8.ofNat (n.toNat + (OP_1 - 1))]
  else pushData (getvch n.toNat)

/-- `operator<<` of a `CBigNum`. -/
def pushBigNum (bn : ℤ) : CScript := pushData (getvch bn)

/-! ## Verification -/

/-- `CastToBool`: any non-zero byte counts, but for the sign of a negative zero. -/
def castToBool : Bytes → Bool
  | [] => false
  | [b] => b != 0 && b != 0x80
  | b :: bs => b != 0 || castToBool bs

/-- The stack a script leaves, `EvalScript` taking the stack it starts from (top first), the
script, the transaction and the position of the input being checked. -/
abbrev EvalScript := List Bytes → CScript → CTransaction → ℕ → Option (List Bytes)

/-- What one push operation leaves on the stack. -/
def pushOp : ℕ × Bytes → Option Bytes
  | (opcode, vch) =>
    if opcode ≤ OP_PUSHDATA4 then some vch
    else if OP_1 ≤ opcode ∧ opcode ≤ OP_16 then some (getvch (decodeOP_N opcode))
    else none

/-- An interpreter of scripts that only push, to evaluate definitions with. -/
def evalPushes : EvalScript := fun stack script _ _ =>
  let ops := instructions script
  if ops.2 then (ops.1.mapM pushOp).map (fun pushed => pushed.reverse ++ stack) else none

/-- `VerifyScript`, with `nHashType` zero as every caller passes it. -/
def verifyScript (evalScript : EvalScript) (scriptSig scriptPubKey : CScript)
    (txTo : CTransaction) (nIn : ℕ) (fValidatePayToScriptHash : Bool) : Bool :=
  match evalScript [] scriptSig txTo nIn with
  | none => false
  | some stackCopy =>
    match evalScript stackCopy scriptPubKey txTo nIn with
    | none => false
    | some [] => false
    | some (top :: _) =>
      if !castToBool top then false
      else if fValidatePayToScriptHash && isPayToScriptHash scriptPubKey then
        if !isPushOnly scriptSig then false
        else
          match stackCopy with
          | [] => false
          | pubKey2 :: stackCopy =>
            match evalScript stackCopy pubKey2 txTo nIn with
            | some (top :: _) => castToBool top
            | _ => false
      else true

/-- Script checking under the pay-to-script-hash rule is the stricter of the two. -/
theorem verifyScript_of_strict
    {evalScript : EvalScript} {scriptSig scriptPubKey : CScript} {txTo : CTransaction} {nIn : ℕ}
    (h : verifyScript evalScript scriptSig scriptPubKey txTo nIn true = true)
    (fValidatePayToScriptHash : Bool) :
  verifyScript evalScript scriptSig scriptPubKey txTo nIn fValidatePayToScriptHash = true
  := by
  cases fValidatePayToScriptHash with
  | true => apply h
  | false =>
    rw [verifyScript] at h ⊢
    cases hsig : evalScript [] scriptSig txTo nIn with
    | none => rw [hsig] at h; cases h
    | some stackCopy =>
      rw [hsig] at h
      cases hkey : evalScript stackCopy scriptPubKey txTo nIn with
      | none => simp [hkey] at h
      | some stack =>
        cases stack with
        | nil => simp [hkey] at h
        | cons top stack =>
          cases htop : castToBool top with
          | false => simp [hkey, htop] at h
          | true => simp [hkey, htop]

/-- `VerifySignature`, with `nHashType` zero. -/
def verifySignature (crypto : Crypto) (evalScript : EvalScript) (txFrom txTo : CTransaction)
    (nIn : ℕ) (fValidatePayToScriptHash : Bool) : Bool :=
  match txTo.vin[nIn]? with
  | none => false
  | some txin =>
    match txFrom.vout[txin.prevout.n.toNat]? with
    | none => false
    | some txout =>
      if txin.prevout.hash != txFrom.getHash crypto then false
      else verifyScript evalScript txin.scriptSig txout.scriptPubKey txTo nIn
        fValidatePayToScriptHash

end CorgiCoin
