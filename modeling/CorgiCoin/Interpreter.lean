import CorgiCoin.HDKey

/-!
# The script machine

`EvalScript` runs a script on a stack of byte strings.  The machine is modelled down to its accesses:
a read below the bottom of a stack stops the run with `outOfRange`, the exception that
`std::vector::at` and `popstack` throw, and not with the `return false` of a failed script.  The hash
functions are parameters, and so is `CheckSig` of the transaction at hand.
-/

namespace CorgiCoin

open Codec

/-- The hash functions that scripts use, next to `Hash`. -/
structure ScriptHashes where
  ripemd160 : Bytes → Bytes
  length_ripemd160 : ∀ vch, (ripemd160 vch).length = 20
  sha1 : Bytes → Bytes
  length_sha1 : ∀ vch, (sha1 vch).length = 20
  sha256 : Bytes → Bytes
  length_sha256 : ∀ vch, (sha256 vch).length = 32
  hash160 : Bytes → uint160

/-! ## Opcodes -/

inductive UnaryOp where
  | add1 | sub1 | negate | abs | not | notEqual0
  deriving DecidableEq

inductive BinaryOp where
  | add | sub | boolAnd | boolOr | numEqual | numEqualVerify | numNotEqual | lessThan | greaterThan
  | lessThanOrEqual | greaterThanOrEqual | min | max
  deriving DecidableEq

inductive HashOp where
  | ripemd160 | sha1 | sha256 | hash160 | hash256
  deriving DecidableEq

/-- The cases of the switch of `EvalScript`. -/
inductive Op where
  /-- The numbers from minus one to sixteen. -/
  | smallInteger (n : ℤ)
  | nop
  | opIf | notIf | opElse | endIf | verify | opReturn
  | toAltStack | fromAltStack | drop2 | dup2 | dup3 | over2 | rot2 | swap2 | ifDup | depth | drop | dup
  | nip | over | pick | roll | rot | swap | tuck
  | size
  | equal | equalVerify
  | unary (op : UnaryOp)
  | binary (op : BinaryOp)
  | within
  | hash (op : HashOp)
  | codeSeparator
  | checkSig | checkSigVerify | checkMultiSig | checkMultiSigVerify
  /-- `default: return false` -/
  | invalid
  deriving DecidableEq

/-- The case of the switch that an opcode falls in. -/
def Op.ofOpcode : ℕ → Op
  | 0x4f => .smallInteger (-1)
  | 0x51 => .smallInteger 1
  | 0x52 => .smallInteger 2
  | 0x53 => .smallInteger 3
  | 0x54 => .smallInteger 4
  | 0x55 => .smallInteger 5
  | 0x56 => .smallInteger 6
  | 0x57 => .smallInteger 7
  | 0x58 => .smallInteger 8
  | 0x59 => .smallInteger 9
  | 0x5a => .smallInteger 10
  | 0x5b => .smallInteger 11
  | 0x5c => .smallInteger 12
  | 0x5d => .smallInteger 13
  | 0x5e => .smallInteger 14
  | 0x5f => .smallInteger 15
  | 0x60 => .smallInteger 16
  -- OP_NOP and OP_NOP1 to OP_NOP10
  | 0x61 | 0xb0 | 0xb1 | 0xb2 | 0xb3 | 0xb4 | 0xb5 | 0xb6 | 0xb7 | 0xb8 | 0xb9 => .nop
  | 0x63 => .opIf
  | 0x64 => .notIf
  | 0x67 => .opElse
  | 0x68 => .endIf
  | 0x69 => .verify
  | 0x6a => .opReturn
  | 0x6b => .toAltStack
  | 0x6c => .fromAltStack
  | 0x6d => .drop2
  | 0x6e => .dup2
  | 0x6f => .dup3
  | 0x70 => .over2
  | 0x71 => .rot2
  | 0x72 => .swap2
  | 0x73 => .ifDup
  | 0x74 => .depth
  | 0x75 => .drop
  | 0x76 => .dup
  | 0x77 => .nip
  | 0x78 => .over
  | 0x79 => .pick
  | 0x7a => .roll
  | 0x7b => .rot
  | 0x7c => .swap
  | 0x7d => .tuck
  | 0x82 => .size
  | 0x87 => .equal
  | 0x88 => .equalVerify
  | 0x8b => .unary .add1
  | 0x8c => .unary .sub1
  | 0x8f => .unary .negate
  | 0x90 => .unary .abs
  | 0x91 => .unary .not
  | 0x92 => .unary .notEqual0
  | 0x93 => .binary .add
  | 0x94 => .binary .sub
  | 0x9a => .binary .boolAnd
  | 0x9b => .binary .boolOr
  | 0x9c => .binary .numEqual
  | 0x9d => .binary .numEqualVerify
  | 0x9e => .binary .numNotEqual
  | 0x9f => .binary .lessThan
  | 0xa0 => .binary .greaterThan
  | 0xa1 => .binary .lessThanOrEqual
  | 0xa2 => .binary .greaterThanOrEqual
  | 0xa3 => .binary .min
  | 0xa4 => .binary .max
  | 0xa5 => .within
  | 0xa6 => .hash .ripemd160
  | 0xa7 => .hash .sha1
  | 0xa8 => .hash .sha256
  | 0xa9 => .hash .hash160
  | 0xaa => .hash .hash256
  | 0xab => .codeSeparator
  | 0xac => .checkSig
  | 0xad => .checkSigVerify
  | 0xae => .checkMultiSig
  | 0xaf => .checkMultiSigVerify
  | _ => .invalid

/-- The opcodes that fail a script wherever they stand: `OP_CAT`, `OP_SUBSTR`, `OP_LEFT`, `OP_RIGHT`,
`OP_INVERT`, `OP_AND`, `OP_OR`, `OP_XOR`, `OP_2MUL`, `OP_2DIV`, `OP_MUL`, `OP_DIV`, `OP_MOD`,
`OP_LSHIFT` and `OP_RSHIFT`.  Their cases of the switch are never reached. -/
def disabledOpcodes : List ℕ :=
  [0x7e, 0x7f, 0x80, 0x81, 0x83, 0x84, 0x85, 0x86, 0x8d, 0x8e, 0x95, 0x96, 0x97, 0x98, 0x99]

def OP_IF : ℕ := 0x63
def OP_ENDIF : ℕ := 0x68

/-! ## The machine -/

/-- How a run ends before the end of the script. -/
inductive Stop where
  /-- `return false` -/
  | failed
  /-- An access outside of a stack. -/
  | outOfRange
  /-- `CastToBigNum` of more than four bytes. -/
  | overflow
  deriving DecidableEq

structure Machine where
  /-- The stack, top first. -/
  stack : List Bytes
  altstack : List Bytes := []
  /-- The conditions that are open, innermost first. -/
  vfExec : List Bool := []
  nOpCount : ℕ := 0
  /-- The script from the most recent code separator on. -/
  pbegincodehash : CScript
  /-- The calls of `CheckSig` that were made.  The source keeps no such count. -/
  nChecks : ℕ := 0

/-- Computations of the machine; what a run has done stays when it is stopped. -/
abbrev Exec := EStateM Stop Machine

namespace Exec

/-! ### Running computations -/

section Run

variable {α β : Type} {m : Machine}

@[simp]
theorem pure_run (a : α) : (pure a : Exec α) m = .ok a m := rfl

@[simp]
theorem bind_run (x : Exec α) (f : α → Exec β) :
  (x >>= f) m =
    match x m with
    | .ok a m' => f a m'
    | .error stop m' => .error stop m'
  := by
  simp only [bind, EStateM.bind]
  cases x m <;> rfl

@[simp]
theorem get_run : (get : Exec Machine) m = .ok m m := rfl

@[simp]
theorem modify_run (f : Machine → Machine) : (modify f : Exec Unit) m = .ok () (f m) := rfl

@[simp]
theorem throw_run (stop : Stop) : (throw stop : Exec α) m = .error stop m := rfl

end Run

/-! ### The stacks -/

def fail {α : Type} : Exec α := throw Stop.failed

/-- `if (stack.size() < n) return false` -/
def need (n : ℕ) : Exec Unit := do
  if (← get).stack.length < n then fail

/-- `stacktop(-i)` -/
def stacktop (i : ℕ) : Exec Bytes := do
  match i, (← get).stack with
  | 0, _ => throw Stop.outOfRange
  | i + 1, stack =>
    match stack[i]? with
    | some vch => return vch
    | none => throw Stop.outOfRange

def popstack : Exec Unit := do
  match (← get).stack with
  | [] => throw Stop.outOfRange
  | _ :: stack => modify (fun m => { m with stack })

/-- `stack.push_back` -/
def push (vch : Bytes) : Exec Unit :=
  modify (fun m => { m with stack := vch :: m.stack })

/-- `stack.erase(stack.end() - i, stack.end() - j)` -/
def erase (i j : ℕ) : Exec Unit := do
  if (← get).stack.length < i then throw Stop.outOfRange
  else modify (fun m => { m with stack := m.stack.take j ++ m.stack.drop i })

/-- `stack.insert(stack.end() - i, vch)` -/
def insert (i : ℕ) (vch : Bytes) : Exec Unit := do
  if (← get).stack.length < i then throw Stop.outOfRange
  else modify (fun m => { m with stack := m.stack.take i ++ vch :: m.stack.drop i })

/-- `swap(stacktop(-i), stacktop(-j))` -/
def swap (i j : ℕ) : Exec Unit := do
  let vch1 ← stacktop i
  let vch2 ← stacktop j
  modify (fun m => { m with stack := (m.stack.set (i - 1) vch2).set (j - 1) vch1 })

/-- Pops a number of elements. -/
def popMany : ℕ → Exec Unit
  | 0 => return ()
  | i + 1 => do
    popstack
    popMany i

/-- `altstacktop(-1)` and the `popstack(altstack)` after it. -/
def popAlt : Exec Bytes := do
  match (← get).altstack with
  | [] => throw Stop.outOfRange
  | vch :: altstack =>
    modify (fun m => { m with altstack })
    return vch

/-- `vfExec.back()` -/
def backExec : Exec Bool := do
  match (← get).vfExec with
  | [] => throw Stop.outOfRange
  | fValue :: _ => return fValue

/-- `vfExec.pop_back()` -/
def popExec : Exec Unit := do
  match (← get).vfExec with
  | [] => throw Stop.outOfRange
  | _ :: vfExec => modify (fun m => { m with vfExec })

/-- `vfExec.push_back` -/
def pushExec (fValue : Bool) : Exec Unit :=
  modify (fun m => { m with vfExec := fValue :: m.vfExec })

/-- `CastToBigNum(vch)` -/
def castToBigNum (vch : Bytes) : Exec ℤ :=
  if vch.length > 4 then throw Stop.overflow else return setvch (getvch (setvch vch))

end Exec

/-! ## Instructions -/

/-- The bytes of a truth value, `vchTrue` and `vchFalse`. -/
def vchBool : Bool → Bytes
  | true => [1]
  | false => []

/-- The number that a truth value is assigned as. -/
def bnBool : Bool → ℤ
  | true => 1
  | false => 0

def UnaryOp.eval : UnaryOp → ℤ → ℤ
  | .add1, bn => bn + 1
  | .sub1, bn => bn - 1
  | .negate, bn => -bn
  | .abs, bn => if bn < 0 then -bn else bn
  | .not, bn => bnBool (bn == 0)
  | .notEqual0, bn => bnBool (bn != 0)

def BinaryOp.eval : BinaryOp → ℤ → ℤ → ℤ
  | .add, bn1, bn2 => bn1 + bn2
  | .sub, bn1, bn2 => bn1 - bn2
  | .boolAnd, bn1, bn2 => bnBool (bn1 != 0 && bn2 != 0)
  | .boolOr, bn1, bn2 => bnBool (bn1 != 0 || bn2 != 0)
  | .numEqual, bn1, bn2 => bnBool (bn1 == bn2)
  | .numEqualVerify, bn1, bn2 => bnBool (bn1 == bn2)
  | .numNotEqual, bn1, bn2 => bnBool (bn1 != bn2)
  | .lessThan, bn1, bn2 => bnBool (bn1 < bn2)
  | .greaterThan, bn1, bn2 => bnBool (bn1 > bn2)
  | .lessThanOrEqual, bn1, bn2 => bnBool (bn1 ≤ bn2)
  | .greaterThanOrEqual, bn1, bn2 => bnBool (bn1 ≥ bn2)
  | .min, bn1, bn2 => if bn1 < bn2 then bn1 else bn2
  | .max, bn1, bn2 => if bn1 > bn2 then bn1 else bn2

section Evaluation

variable (crypto : Crypto) (hashes : ScriptHashes)

def HashOp.eval : HashOp → Bytes → Bytes
  | .ripemd160, vch => hashes.ripemd160 vch
  | .sha1, vch => hashes.sha1 vch
  | .sha256, vch => hashes.sha256 vch
  | .hash160, vch => serializeUint160 (hashes.hash160 vch)
  | .hash256, vch => serializeUint256 (crypto.hash vch)

-- `CheckSig` of a signature, a public key and a script code, the transaction and the input given
variable (check : Bytes → Bytes → CScript → Bool)

namespace Exec

/-- A call of `CheckSig`. -/
def callCheckSig (vchSig vchPubKey : Bytes) (scriptCode : CScript) : Exec Bool := do
  modify (fun m => { m with nChecks := m.nChecks + 1 })
  return check vchSig vchPubKey scriptCode

/-- The truth value on top of the stack has to be true, and is taken away. -/
def verifyTop (fValue : Bool) : Exec Unit := do
  if fValue then popstack else fail

/-- The signatures of `OP_CHECKMULTISIG` are deleted from the script code. -/
def deleteSigs (isig : ℕ) : ℕ → CScript → Exec CScript
  | 0, scriptCode => return scriptCode
  | nSigsCount + 1, scriptCode => do
    let vchSig ← stacktop isig
    deleteSigs (isig + 1) nSigsCount (findAndDelete (pushData vchSig) scriptCode)

/-- The loop of `OP_CHECKMULTISIG` over the keys, the signatures and keys left given. -/
def checkSigs (scriptCode : CScript) : ℕ → ℕ → ℕ → ℕ → Exec Bool
  | _, 0, _, _ => return true
  -- not reached, as the signatures left are never more than the keys left
  | 0, _ + 1, _, _ => return false
  | nKeysCount + 1, nSigsCount + 1, isig, ikey => do
    let vchSig ← stacktop isig
    let vchPubKey ← stacktop ikey
    if ← callCheckSig check vchSig vchPubKey scriptCode then
      if nSigsCount > nKeysCount then return false
      else checkSigs scriptCode nKeysCount nSigsCount (isig + 1) (ikey + 1)
    else
      if nSigsCount + 1 > nKeysCount then return false
      else checkSigs scriptCode nKeysCount (nSigsCount + 1) isig (ikey + 1)

/-- The case of `OP_CHECKMULTISIG`, and whether the signatures were good. -/
def checkMultiSig : Exec Bool := do
  need 1
  let nKeysCount ← castToBigNum (← stacktop 1)
  if nKeysCount < 0 ∨ nKeysCount > 20 then fail
  let nKeysCount := nKeysCount.toNat
  modify (fun m => { m with nOpCount := m.nOpCount + nKeysCount })
  if (← get).nOpCount > 201 then fail
  let ikey := 2
  let i := ikey + nKeysCount
  need i
  let nSigsCount ← castToBigNum (← stacktop i)
  if nSigsCount < 0 ∨ nSigsCount > nKeysCount then fail
  let nSigsCount := nSigsCount.toNat
  let isig := i + 1
  let i := isig + nSigsCount
  need i
  let scriptCode ← deleteSigs isig nSigsCount (← get).pbegincodehash
  let fSuccess ← checkSigs check scriptCode nKeysCount nSigsCount isig ikey
  popMany i
  push (vchBool fSuccess)
  return fSuccess

/-- The case of `OP_CHECKSIG`, and whether the signature was good. -/
def checkSig : Exec Bool := do
  need 2
  let vchSig ← stacktop 2
  let vchPubKey ← stacktop 1
  let scriptCode := findAndDelete (pushData vchSig) (← get).pbegincodehash
  let fSuccess ← callCheckSig check vchSig vchPubKey scriptCode
  popstack
  popstack
  push (vchBool fSuccess)
  return fSuccess

/-- The case of `OP_EQUAL`, and whether the strings were equal. -/
def equal : Exec Bool := do
  need 2
  let vch1 ← stacktop 2
  let vch2 ← stacktop 1
  popstack
  popstack
  push (vchBool (vch1 == vch2))
  return vch1 == vch2

/-- The case of `OP_IF` and `OP_NOTIF`. -/
def branch (fNot fExec : Bool) : Exec Unit := do
  if fExec then
    need 1
    let vch ← stacktop 1
    popstack
    pushExec (castToBool vch != fNot)
  else
    pushExec false

/-- The case of `OP_PICK` and `OP_ROLL`. -/
def pick (fRoll : Bool) : Exec Unit := do
  need 2
  let n ← castToBigNum (← stacktop 1)
  popstack
  if n < 0 ∨ n ≥ (← get).stack.length then fail
  let n := n.toNat
  let vch ← stacktop (n + 1)
  if fRoll then erase (n + 1) n
  push vch

/-- The switch of `EvalScript`, the rest of the script given. -/
def switch (pc : CScript) (fExec : Bool) : Op → Exec Unit
  | .smallInteger n => push (getvch n)
  | .nop => return ()
  | .opIf => branch false fExec
  | .notIf => branch true fExec
  | .opElse => do
    if (← get).vfExec.isEmpty then fail
    let fValue ← backExec
    popExec
    pushExec (!fValue)
  | .endIf => do
    if (← get).vfExec.isEmpty then fail
    popExec
  | .verify => do
    need 1
    verifyTop (castToBool (← stacktop 1))
  | .opReturn => fail
  | .toAltStack => do
    need 1
    let vch ← stacktop 1
    modify (fun m => { m with altstack := vch :: m.altstack })
    popstack
  | .fromAltStack => do
    if (← get).altstack.length < 1 then fail
    push (← popAlt)
  | .drop2 => do
    need 2
    popstack
    popstack
  | .dup2 => do
    need 2
    let vch1 ← stacktop 2
    let vch2 ← stacktop 1
    push vch1
    push vch2
  | .dup3 => do
    need 3
    let vch1 ← stacktop 3
    let vch2 ← stacktop 2
    let vch3 ← stacktop 1
    push vch1
    push vch2
    push vch3
  | .over2 => do
    need 4
    let vch1 ← stacktop 4
    let vch2 ← stacktop 3
    push vch1
    push vch2
  | .rot2 => do
    need 6
    let vch1 ← stacktop 6
    let vch2 ← stacktop 5
    erase 6 4
    push vch1
    push vch2
  | .swap2 => do
    need 4
    swap 4 2
    swap 3 1
  | .ifDup => do
    need 1
    let vch ← stacktop 1
    if castToBool vch then push vch
  | .depth => do
    push (getvch (← get).stack.length)
  | .drop => do
    need 1
    popstack
  | .dup => do
    need 1
    push (← stacktop 1)
  | .nip => do
    need 2
    erase 2 1
  | .over => do
    need 2
    push (← stacktop 2)
  | .pick => pick false
  | .roll => pick true
  | .rot => do
    need 3
    swap 3 2
    swap 2 1
  | .swap => do
    need 2
    swap 2 1
  | .tuck => do
    need 2
    insert 2 (← stacktop 1)
  | .size => do
    need 1
    push (getvch (← stacktop 1).length)
  | .equal => do
    let _ ← equal
  | .equalVerify => do
    verifyTop (← equal)
  | .unary op => do
    need 1
    let bn ← castToBigNum (← stacktop 1)
    popstack
    push (getvch (op.eval bn))
  | .binary op => do
    need 2
    let bn1 ← castToBigNum (← stacktop 2)
    let bn2 ← castToBigNum (← stacktop 1)
    popstack
    popstack
    push (getvch (op.eval bn1 bn2))
    if op = .numEqualVerify then verifyTop (castToBool (← stacktop 1))
  | .within => do
    need 3
    let bn1 ← castToBigNum (← stacktop 3)
    let bn2 ← castToBigNum (← stacktop 2)
    let bn3 ← castToBigNum (← stacktop 1)
    popstack
    popstack
    popstack
    push (vchBool (bn2 ≤ bn1 ∧ bn1 < bn3))
  | .hash op => do
    need 1
    let vch ← stacktop 1
    popstack
    push (op.eval crypto hashes vch)
  | .codeSeparator => modify (fun m => { m with pbegincodehash := pc })
  | .checkSig => do
    let _ ← checkSig check
  | .checkSigVerify => do
    verifyTop (← checkSig check)
  | .checkMultiSig => do
    let _ ← checkMultiSig check
  | .checkMultiSigVerify => do
    verifyTop (← checkMultiSig check)
  | .invalid => fail

/-- An instruction that was read: the limits, the switch and the limits again. -/
def instruction (opcode : ℕ) (vchPushValue : Bytes) (pc : CScript) : Exec Unit := do
  let fExec := !(← get).vfExec.contains false
  if vchPushValue.length > 520 then fail
  if opcode > OP_16 then
    modify (fun m => { m with nOpCount := m.nOpCount + 1 })
    if (← get).nOpCount > 201 then fail
  if disabledOpcodes.contains opcode then fail
  if fExec ∧ opcode ≤ OP_PUSHDATA4 then push vchPushValue
  else if fExec ∨ (OP_IF ≤ opcode ∧ opcode ≤ OP_ENDIF) then
    switch crypto hashes check pc fExec (Op.ofOpcode opcode)
  if (← get).stack.length + (← get).altstack.length > 1000 then fail

/-- The loop of `EvalScript`.  Every instruction takes a byte at least, so that the length of the
script is fuel enough. -/
def loop : ℕ → CScript → Exec Unit
  | 0, _ => return ()
  | fuel + 1, pc =>
    if pc.isEmpty then return ()
    else
      match getOp pc with
      | none => fail
      | some (opcode, vchPushValue, pc) => do
        instruction crypto hashes check opcode vchPushValue pc
        loop fuel pc

end Exec

/-- The run of a script on a stack, up to the check that no condition is left open. -/
def runScript (stack : List Bytes) (script : CScript) : EStateM.Result Stop Machine Unit :=
  EStateM.run (Exec.loop crypto hashes check script.length script)
    { stack, pbegincodehash := script }

end Evaluation

/-- `EvalScript` -/
def evalScript (crypto : Crypto) (ecdsa : Ecdsa) (hashes : ScriptHashes) (nHashType : Int32) :
    EvalScript := fun stack script txTo nIn =>
  if script.length > 10000 then none
  else
    match runScript crypto hashes
      (fun vchSig vchPubKey scriptCode =>
        checkSig crypto ecdsa vchSig vchPubKey scriptCode txTo nIn nHashType) stack script with
    | .error _ _ => none
    | .ok _ m => if m.vfExec.isEmpty then some m.stack else none

end CorgiCoin
