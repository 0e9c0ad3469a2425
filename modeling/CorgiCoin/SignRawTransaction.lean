import CorgiCoin.Address
import CorgiCoin.MemPool
import CorgiCoin.CombineSignatures

/-!
# Signing raw transactions

`signrawtransaction` reads variants of a transaction, looks up the outputs that the first one spends,
signs its inputs and merges the signatures of the variants into them.  It indexes the outputs of the
previous transactions and the inputs of the variants without a test; an index outside of a vector is an
outcome of its own in the model.
-/

namespace CorgiCoin

open Std Codec

/-! ## Values and errors -/

/-- `Value_type` -/
inductive JsonType where
  | obj
  | array
  | str
  | bool
  | int
  | real
  | null
  deriving DecidableEq

/-- `Value_type_name` -/
def JsonType.name : JsonType → String
  | .obj => "object"
  | .array => "array"
  | .str => "string"
  | .bool => "boolean"
  | .int => "integer"
  | .real => "real"
  | .null => "null"

/-- A value in the parameters of a call.  No call that is modelled reads a real number. -/
inductive JsonValue where
  | obj (members : List (String × JsonValue))
  | array (elements : List JsonValue)
  | str (s : List Char)
  | bool (b : Bool)
  | int (n : ℤ)
  | real
  | null

def JsonValue.type : JsonValue → JsonType
  | .obj _ => .obj
  | .array _ => .array
  | .str _ => .str
  | .bool _ => .bool
  | .int _ => .int
  | .real => .real
  | .null => .null

/-- `find_value` -/
def findValue (o : List (String × JsonValue)) (name : String) : JsonValue :=
  ((o.find? (fun member => member.1 == name)).map Prod.snd).getD .null

/-- How a call ends without a result: with `JSONRPCError`, with the error on two different scripts of one
output, with another exception, which the caller turns into an error as well, or with an index that is out
of range. -/
inductive RpcError where
  | json (code : ℤ) (message : String)
  | scriptMismatch (known given : CScript)
  | exception
  | outOfRange
  deriving DecidableEq

/-- `v[i]` -/
def indexed {α : Type} (v : List α) (i : ℕ) : Except RpcError α :=
  match v[i]? with
  | none => .error .outOfRange
  | some a => .ok a

/-- `RPCTypeCheck` of the parameters. -/
def rpcTypeCheck : List JsonValue → List JsonType → Except RpcError Unit
  | v :: params, t :: typesExpected =>
    if v.type ≠ t then .error (.json (-3) ("Expected type " ++ t.name ++ ", got " ++ v.type.name))
    else rpcTypeCheck params typesExpected
  | _, _ => .ok ()

/-- `RPCTypeCheck` of an object, the names in the order of the map. -/
def rpcTypeCheckObject (o : List (String × JsonValue)) : List (String × JsonType) → Except RpcError Unit
  | [] => .ok ()
  | (name, t) :: typesExpected =>
    let v := findValue o name
    if v.type = .null then .error (.json (-3) ("Missing " ++ name))
    else if v.type ≠ t then
      .error (.json (-3) ("Expected type " ++ t.name ++ " for " ++ name ++ ", got " ++ v.type.name))
    else rpcTypeCheckObject o typesExpected

/-- `get_str`, which throws on another type. -/
def JsonValue.getStr : JsonValue → Except RpcError (List Char)
  | .str s => .ok s
  | _ => .error .exception

/-- `get_int`: a number is cut to 32 bits. -/
def JsonValue.getInt : JsonValue → Except RpcError Int32
  | .int n => .ok (Int32.ofInt n)
  | _ => .error .exception

/-- `get_array` of an array; what it makes of other values is not used. -/
def JsonValue.getArray : JsonValue → List JsonValue
  | .array elements => elements
  | _ => []

/-! ## Hexadecimal digits -/

/-- `phexdigit`, `none` for minus one. -/
def phexdigit (c : Char) : Option ℕ :=
  if '0' ≤ c ∧ c ≤ '9' then some (c.toNat - '0'.toNat)
  else if 'a' ≤ c ∧ c ≤ 'f' then some (c.toNat - 'a'.toNat + 10)
  else if 'A' ≤ c ∧ c ≤ 'F' then some (c.toNat - 'A'.toNat + 10)
  else none

/-- `isspace` -/
def isSpaceChar (c : Char) : Bool := c == ' ' || ('\t' ≤ c && c ≤ '\r')

def isHex (str : List Char) : Bool :=
  str.all (fun c => (phexdigit c).isSome) && 0 < str.length && str.length % 2 == 0

/-- `ParseHex`: the bytes up to the first character that is no digit, with space between bytes. -/
def parseHex : List Char → Bytes
  | [] => []
  | c :: rest =>
    if isSpaceChar c then parseHex rest
    else
      match phexdigit c, rest with
      | none, _ | _, [] => []
      | some high, d :: rest =>
        match phexdigit d with
        | none => []
        | some low => UInt8.ofNat (high * 16 + low) :: parseHex rest

/-- `SetHex` of a string that `IsHex` accepts. -/
def uint256OfHex (str : List Char) : uint256 :=
  BitVec.ofNat 256 (str.foldl (fun n c => n * 16 + (phexdigit c).getD 0) 0)

/-! ## Keys -/

def PRIVKEY_ADDRESS : UInt8 := PUBKEY_ADDRESS + 128
def PRIVKEY_ADDRESS_TEST : UInt8 := PUBKEY_ADDRESS_TEST + 128

/-- `CBitcoinSecret::SetString` and `GetSecret`. -/
def keyOfSecretString (crypto : Crypto) (fTestNet : Bool) (str : List Char) : Option CKey :=
  let (fGood, data) := CBitcoinAddress.setBase58 crypto str
  let fExpectTestNet :=
    if data.nVersion = PRIVKEY_ADDRESS then some false
    else if data.nVersion = PRIVKEY_ADDRESS_TEST then some true
    else none
  let isValid := fExpectTestNet == some fTestNet
    && (data.vchData.length == 32 || (data.vchData.length == 33 && data.vchData[32]? == some 1))
  if fGood && isValid then some (CKey.setSecret (data.vchData.take 32) (data.vchData.length == 33)) else none

/-- A `CBasicKeyStore` that keys are added to. -/
def keystoreOfKeys (signing : Signing) (hash160 : Bytes → uint160) (keys : List CKey) : CKeyStore :=
  let getKey := fun address => keys.reverse.find? (fun key => hash160 (signing.getPubKey key) == address)
  { haveKey := fun address => (getKey address).isSome
    getKey
    getPubKey := fun address => (getKey address).map signing.getPubKey
    mapScripts := ∅ }

/-! ## Previous transactions -/

/-- What the call reads beside its parameters. -/
structure SignContext where
  fTestNet : Bool
  /-- `pwalletMain->IsLocked()` -/
  fLocked : Bool
  /-- `*pwalletMain` -/
  wallet : CKeyStore
  txIndex : TxIndexMap
  /-- `mempool.mapTx` -/
  mempool : ExtTreeMap uint256 CTransaction compare
  /-- `CTransaction::ReadFromDisk`: what is in the transaction after it, and what it returns.  Where
  reading breaks off, the transaction keeps what was read. -/
  readFromDisk : CDiskTxPos → CTransaction × Bool
  /-- the numbers drawn at random for the signatures of an input -/
  rand : ℕ → uint160 → ℕ

namespace SignContext

variable (context : SignContext)

/-- A previous transaction as `FetchInputs` leaves it in its map, and whether it goes on. -/
def readPrev (hash : uint256) : CTransaction × Bool :=
  let fromPool :=
    match context.mempool[hash]? with
    | none => (CTransaction.blank, false)
    | some txPrev => (txPrev, true)
  match context.txIndex[hash]? with
  | none => fromPool
  | some txindex => if txindex.pos = CDiskTxPos.pool then fromPool else context.readFromDisk txindex.pos

/-- The first loop of `FetchInputs` outside of blocks: the transactions in its map, also where it fails. -/
def fetchLoop : List CTxIn → ExtTreeMap uint256 CTransaction → ExtTreeMap uint256 CTransaction
  | [], inputsRet => inputsRet
  | input :: vin, inputsRet =>
    let hash := input.prevout.hash
    if inputsRet.contains hash then fetchLoop vin inputsRet
    else
      let (txPrev, fRead) := context.readPrev hash
      if fRead then fetchLoop vin (inputsRet.insert hash txPrev) else inputsRet.insert hash txPrev

/-- The transactions that `FetchInputs` leaves in its map.  Its second loop only tests them. -/
def fetchInputs (tx : CTransaction) : ExtTreeMap uint256 CTransaction :=
  if tx.isCoinBase then ∅ else context.fetchLoop tx.vin ∅

end SignContext

/-- The loop that copies the scripts of the outputs spent. -/
def copyPrevOuts (mapPrevTx : ExtTreeMap uint256 CTransaction) :
    List CTxIn → ExtTreeMap COutPoint CScript → Except RpcError (ExtTreeMap COutPoint CScript)
  | [], mapPrevOut => .ok mapPrevOut
  | txin :: vin, mapPrevOut =>
    match mapPrevTx[txin.prevout.hash]? with
    | none => copyPrevOuts mapPrevTx vin mapPrevOut
    | some txPrev => do
      let txout ← indexed txPrev.vout txin.prevout.n.toNat
      copyPrevOuts mapPrevTx vin (mapPrevOut.insert txin.prevout txout.scriptPubKey)

/-! ## The parameters -/

/-- The loop that reads the variants.  Each takes a byte at least, so that the length of the data is fuel
enough. -/
def readVariants : ℕ → Bytes → Except RpcError (List CTransaction)
  | 0, _ => .ok []
  | fuel + 1, ssData =>
    if ssData.isEmpty then .ok []
    else
      match CTransaction.unserialize.run ssData with
      | none => .error (.json (-22) "TX decode failed")
      | some (tx, rest) => do
        let txVariants ← readVariants fuel rest
        return tx :: txVariants

/-- An output given in the call is added to those known. -/
def addPrevOut (mapPrevOut : ExtTreeMap COutPoint CScript) (p : JsonValue) :
    Except RpcError (ExtTreeMap COutPoint CScript) :=
  match p with
  | .obj prevOut => do
    rpcTypeCheckObject prevOut [("scriptPubKey", .str), ("txid", .str), ("vout", .int)]
    let txidHex ← (findValue prevOut "txid").getStr
    if !isHex txidHex then .error (.json (-22) "txid must be hexadecimal")
    else
      let nOut ← (findValue prevOut "vout").getInt
      if nOut < 0 then .error (.json (-22) "vout must be positive")
      else
        let pkHex ← (findValue prevOut "scriptPubKey").getStr
        if !isHex pkHex then .error (.json (-22) "scriptPubKey must be hexadecimal")
        else
          let scriptPubKey := parseHex pkHex
          let outpoint : COutPoint := ⟨uint256OfHex txidHex, nOut.toUInt32⟩
          match mapPrevOut[outpoint]? with
          | some known =>
            if known ≠ scriptPubKey then .error (.scriptMismatch known scriptPubKey) else .ok mapPrevOut
          | none => .ok (mapPrevOut.insert outpoint scriptPubKey)
  | _ => .error (.json (-22) "expected object with \x7b\"txid'\",\"vout\",\"scriptPubKey\"\x7d")

/-- `mapSigHashValues` -/
def mapSigHashValues : List (List Char × Int32) :=
  [("ALL".toList, SIGHASH_ALL), ("ALL|ANYONECANPAY".toList, SIGHASH_ALL ||| SIGHASH_ANYONECANPAY),
    ("NONE".toList, SIGHASH_NONE), ("NONE|ANYONECANPAY".toList, SIGHASH_NONE ||| SIGHASH_ANYONECANPAY),
    ("SINGLE".toList, SIGHASH_SINGLE),
    ("SINGLE|ANYONECANPAY".toList, SIGHASH_SINGLE ||| SIGHASH_ANYONECANPAY)]

/-- A private key given in the call. -/
def readKey (crypto : Crypto) (fTestNet : Bool) (k : JsonValue) : Except RpcError CKey := do
  let str ← k.getStr
  match keyOfSecretString crypto fTestNet str with
  | none => .error (.json (-5) "Invalid private key")
  | some key => .ok key

/-- What the parameters after the first one say. -/
structure SignRequest where
  mapPrevOut : ExtTreeMap COutPoint CScript
  keystore : CKeyStore
  nHashType : Int32

section Call

variable (crypto : Crypto) (signing : Signing) (hashes : ScriptHashes) (context : SignContext)

/-- The variants that the first parameter holds, after the checks of the call. -/
def signVariants (fHelp : Bool) (params : List JsonValue) : Except RpcError (List CTransaction) := do
  if fHelp ∨ params.length < 1 ∨ params.length > 4 then .error .exception
  else if params.length < 3 ∧ context.fLocked then
    .error (.json (-13) "Error: Please enter the wallet passphrase with walletpassphrase first.")
  else
    rpcTypeCheck params [.str, .array, .array]
    let str ← (params[0]?.getD JsonValue.null).getStr
    let txData := parseHex str
    readVariants txData.length txData

/-- The parameters after the first one, the outputs that are known given. -/
def signRequest (mapPrevOut : ExtTreeMap COutPoint CScript) (params : List JsonValue) :
    Except RpcError SignRequest := do
  let mapPrevOut ← (params[1]?.getD JsonValue.null).getArray.foldlM addPrevOut mapPrevOut
  let keystore ← (match params[2]? with
    | none => .ok context.wallet
    | some keys => do
      let keys ← keys.getArray.mapM (readKey crypto context.fTestNet)
      return keystoreOfKeys signing hashes.hash160 keys)
  let nHashType ← (match params[3]? with
    | none => .ok SIGHASH_ALL
    | some value => do
      let strHashType ← value.getStr
      match mapSigHashValues.lookup strHashType with
      | none => .error (.json (-8) "Invalid sighash param")
      | some nHashType => .ok nHashType)
  return { mapPrevOut, keystore, nHashType }

/-! ## The call -/

/-- The loop that merges the signatures of the variants into an input. -/
def mergeVariants (prevPubKey : CScript) (i : ℕ) :
    List CTransaction → CTransaction → Except RpcError CTransaction
  | [], mergedTx => .ok mergedTx
  | txv :: txVariants, mergedTx => do
    let txin ← indexed mergedTx.vin i
    let other ← indexed txv.vin i
    let scriptSig := combineSignatures crypto signing.toEcdsa mergedTx i hashes prevPubKey txin.scriptSig
      other.scriptSig
    mergeVariants prevPubKey i txVariants (mergedTx.setScriptSig i scriptSig)

/-- A turn of the loop that signs; `SignSignature` asserts that the input is there. -/
def signInput (request : SignRequest) (txVariants : List CTransaction) (state : CTransaction × Bool) (i : ℕ) :
    Except RpcError (CTransaction × Bool) := do
  let (mergedTx, fComplete) := state
  let txin ← indexed mergedTx.vin i
  match request.mapPrevOut[txin.prevout]? with
  | none => return (mergedTx, false)
  | some prevPubKey =>
    match signSignature crypto signing hashes request.keystore (context.rand i) prevPubKey
      (mergedTx.setScriptSig i []) i request.nHashType with
    | none => .error .outOfRange
    | some (mergedTx, _) =>
      let mergedTx ← mergeVariants crypto signing hashes prevPubKey i txVariants mergedTx
      let txin ← indexed mergedTx.vin i
      let fVerified := verifyScript (evalScript crypto signing.toEcdsa hashes 0) txin.scriptSig prevPubKey
        mergedTx i true
      return (mergedTx, fComplete && fVerified)

/-- `signrawtransaction`: the transaction with its signatures and whether they are complete. -/
def signrawtransaction (fHelp : Bool) (params : List JsonValue) : Except RpcError (CTransaction × Bool) := do
  let txVariants ← signVariants context fHelp params
  match txVariants with
  | [] => .error (.json (-22) "Missing transaction")
  | mergedTx :: _ =>
    let mapPrevOut ← copyPrevOuts (context.fetchInputs mergedTx) mergedTx.vin ∅
    let request ← signRequest crypto signing hashes context mapPrevOut params
    (List.range mergedTx.vin.length).foldlM (signInput crypto signing hashes context request txVariants)
      (mergedTx, true)

end Call

/-! ## Where the outputs are looked up -/

namespace SignContext

variable (context : SignContext)

/-- The inputs that `FetchInputs` comes to: up to the first whose transaction is not found. -/
def reached : List CTxIn → List CTxIn
  | [] => []
  | input :: vin => if (context.readPrev input.prevout.hash).2 then input :: reached vin else [input]

/-- A transaction is in the map of `FetchInputs`. -/
def isFetched (tx : CTransaction) (hash : uint256) : Bool :=
  !tx.isCoinBase && (context.reached tx.vin).any (fun input => input.prevout.hash == hash)

/-- The output that an input spends is in the transaction, if that is in the map. -/
def prevOutInRange (tx : CTransaction) (txin : CTxIn) : Bool :=
  !context.isFetched tx txin.prevout.hash
    || txin.prevout.n.toNat < (context.readPrev txin.prevout.hash).1.vout.length

/-- The script of the output that an input spends is added, if its transaction is in the map. -/
def addChainOut (tx : CTransaction) (mapPrevOut : ExtTreeMap COutPoint CScript) (txin : CTxIn) :
    ExtTreeMap COutPoint CScript :=
  match (context.readPrev txin.prevout.hash).1.vout[txin.prevout.n.toNat]? with
  | some txout =>
    if context.isFetched tx txin.prevout.hash then mapPrevOut.insert txin.prevout txout.scriptPubKey
    else mapPrevOut
  | none => mapPrevOut

/-- The scripts of the outputs spent, as far as their transactions are in the map. -/
def chainPrevOuts (tx : CTransaction) : ExtTreeMap COutPoint CScript :=
  tx.vin.foldl (context.addChainOut tx) ∅

/-- The loop adds the transactions of the inputs that it comes to. -/
theorem getElem?_fetchLoop
    {vin : List CTxIn} {inputsRet : ExtTreeMap uint256 CTransaction}
    (h : ∀ hash txPrev, inputsRet[hash]? = some txPrev → context.readPrev hash = (txPrev, true))
    (hash : uint256) :
  (context.fetchLoop vin inputsRet)[hash]?
    = if (inputsRet[hash]?).isSome || (context.reached vin).any (fun input => input.prevout.hash == hash)
      then some (context.readPrev hash).1 else none
  := by
  induction vin generalizing inputsRet with
  | nil =>
    rw [fetchLoop, reached]
    cases hget : inputsRet[hash]? with
    | none => rfl
    | some txPrev =>
      rw [h hash txPrev hget]
      rfl
  | cons input vin ih =>
    rw [fetchLoop, reached]
    dsimp only
    rw [ExtTreeMap.contains_eq_isSome_getElem?]
    cases hget : inputsRet[input.prevout.hash]? with
    | some txPrev =>
      rw [Option.isSome_some, if_pos rfl, ih h, h _ txPrev hget, if_pos rfl, List.any_cons]
      by_cases hsame : input.prevout.hash = hash
      · rw [← hsame, hget]
        rfl
      · rw [beq_eq_false_iff_ne.mpr hsame, Bool.false_or]
    | none =>
      rw [Option.isSome_none, if_neg Bool.false_ne_true]
      generalize hread : context.readPrev input.prevout.hash = read
      obtain ⟨txPrev, fRead⟩ := read
      cases fRead with
      | true =>
        have hinsert : ∀ hash' txPrev', (inputsRet.insert input.prevout.hash txPrev)[hash']? = some txPrev' →
            context.readPrev hash' = (txPrev', true) := by
          intro hash' txPrev' hget'
          rw [TreeMap.getElem?_insert_ite] at hget'
          split_ifs at hget' with hsame
          · rw [← hsame, hread, ← Option.some.inj hget']
          · exact h hash' txPrev' hget'
        rw [if_pos rfl, if_pos rfl, ih hinsert, TreeMap.getElem?_insert_ite, List.any_cons]
        by_cases hsame : input.prevout.hash = hash
        · rw [if_pos hsame, beq_iff_eq.mpr hsame, Bool.true_or, Bool.or_true]
          rfl
        · rw [if_neg hsame, beq_eq_false_iff_ne.mpr hsame, Bool.false_or]
      | false =>
        rw [if_neg Bool.false_ne_true, if_neg Bool.false_ne_true, TreeMap.getElem?_insert_ite, List.any_cons,
          List.any_nil, Bool.or_false]
        by_cases hsame : input.prevout.hash = hash
        · rw [if_pos hsame, beq_iff_eq.mpr hsame, Bool.or_true, if_pos rfl, ← hsame, hread]
        · rw [if_neg hsame, beq_eq_false_iff_ne.mpr hsame, Bool.or_false]
          cases hget : inputsRet[hash]? with
          | none => rfl
          | some txPrev =>
            rw [h hash txPrev hget]
            rfl

theorem getElem?_fetchInputs (tx : CTransaction) (hash : uint256) :
  (context.fetchInputs tx)[hash]?
    = if context.isFetched tx hash then some (context.readPrev hash).1 else none
  := by
  rw [fetchInputs, isFetched]
  cases tx.isCoinBase with
  | true =>
    rw [if_pos rfl, ExtTreeMap.getElem?_empty]
    rfl
  | false =>
    rw [if_neg Bool.false_ne_true, getElem?_fetchLoop]
    · rw [ExtTreeMap.getElem?_empty]
      rfl
    · intro hash txPrev hget
      rw [ExtTreeMap.getElem?_empty] at hget
      cases hget

/-- What the transactions are read with, where reading only succeeds or fails. -/
def reader : TxReader where
  disk pos := if (context.readFromDisk pos).2 then some (context.readFromDisk pos).1 else none
  mempool := context.mempool

/-- The scripts are copied when the outputs are there. -/
theorem copyPrevOuts_eq
    (tx : CTransaction) (vin : List CTxIn) (mapPrevOut : ExtTreeMap COutPoint CScript) :
  copyPrevOuts (context.fetchInputs tx) vin mapPrevOut
    = if vin.all (context.prevOutInRange tx) then .ok (vin.foldl (context.addChainOut tx) mapPrevOut)
      else .error .outOfRange
  := by
  induction vin generalizing mapPrevOut with
  | nil => rfl
  | cons txin vin ih =>
    rw [copyPrevOuts, getElem?_fetchInputs, List.all_cons, List.foldl_cons]
    cases hfetched : context.isFetched tx txin.prevout.hash with
    | false =>
      have hadd : context.addChainOut tx mapPrevOut txin = mapPrevOut := by
        rw [addChainOut, hfetched]
        split
        · rfl
        · rfl
      rw [if_neg Bool.false_ne_true, hadd, prevOutInRange, hfetched, Bool.not_false, Bool.true_or,
        Bool.true_and]
      exact ih mapPrevOut
    | true =>
      rw [if_pos rfl, prevOutInRange, addChainOut, hfetched, Bool.not_true, Bool.false_or]
      dsimp only [indexed]
      cases hget : (context.readPrev txin.prevout.hash).1.vout[txin.prevout.n.toNat]? with
      | none =>
        rw [decide_eq_false (Nat.not_lt.mpr (List.getElem?_eq_none_iff.mp hget)), Bool.false_and]
        rfl
      | some txout =>
        obtain ⟨hlt, -⟩ := List.getElem?_eq_some_iff.mp hget
        rw [decide_eq_true hlt, Bool.true_and]
        exact ih _

end SignContext

/-! ## Signing keeps the inputs -/

section Signing

variable {crypto : Crypto} {signing : Signing} {hashes : ScriptHashes} {context : SignContext}

theorem length_vin_setScriptSig (tx : CTransaction) (i : ℕ) (scriptSig : CScript) :
  (tx.setScriptSig i scriptSig).vin.length = tx.vin.length
  := List.length_modify ..

/-- Signing an input that is there changes scripts only. -/
theorem exists_signSignature
    {keystore : CKeyStore} {rand : uint160 → ℕ} {fromPubKey : CScript} {tx : CTransaction} {i : ℕ}
    {nHashType : Int32} (h : i < tx.vin.length) :
  ∃ tx' fSigned, signSignature crypto signing hashes keystore rand fromPubKey tx i nHashType
      = some (tx', fSigned)
    ∧ tx'.vin.map CTxIn.prevout = tx.vin.map CTxIn.prevout
  := by
  rw [signSignature, if_neg (Nat.not_le.mpr h)]
  dsimp only
  split_ifs
  · exact ⟨_, _, rfl, CoinWallet.map_prevout_setScriptSig ..⟩
  · exact ⟨_, _, rfl, (CoinWallet.map_prevout_setScriptSig ..).trans (CoinWallet.map_prevout_setScriptSig ..)⟩
  · exact ⟨_, _, rfl, (CoinWallet.map_prevout_setScriptSig ..).trans (CoinWallet.map_prevout_setScriptSig ..)⟩
  · exact ⟨_, _, rfl, CoinWallet.map_prevout_setScriptSig ..⟩

/-- The variants are merged when they all have the input. -/
theorem mergeVariants_inRange
    {prevPubKey : CScript} {i : ℕ} {txVariants : List CTransaction} {mergedTx : CTransaction}
    (h : i < mergedTx.vin.length) :
  ((∀ txv ∈ txVariants, i < txv.vin.length) →
      ∃ tx', mergeVariants crypto signing hashes prevPubKey i txVariants mergedTx = .ok tx'
        ∧ tx'.vin.map CTxIn.prevout = mergedTx.vin.map CTxIn.prevout)
    ∧ ((∃ txv ∈ txVariants, txv.vin.length ≤ i) →
      mergeVariants crypto signing hashes prevPubKey i txVariants mergedTx = .error .outOfRange)
  := by
  induction txVariants generalizing mergedTx with
  | nil =>
    refine ⟨fun _ => ⟨mergedTx, rfl, rfl⟩, ?_⟩
    rintro ⟨txv, htxv, -⟩
    cases htxv
  | cons txv txVariants ih =>
    have hindexed : indexed mergedTx.vin i = .ok mergedTx.vin[i] := by
      rw [indexed, List.getElem?_eq_getElem h]
    by_cases hi : i < txv.vin.length
    · have hother : indexed txv.vin i = .ok txv.vin[i] := by
        rw [indexed, List.getElem?_eq_getElem hi]
      have hmerge : mergeVariants crypto signing hashes prevPubKey i (txv :: txVariants) mergedTx
          = mergeVariants crypto signing hashes prevPubKey i txVariants (mergedTx.setScriptSig i
            (combineSignatures crypto signing.toEcdsa mergedTx i hashes prevPubKey mergedTx.vin[i].scriptSig
              txv.vin[i].scriptSig)) := by
        rw [mergeVariants, hindexed, hother]
        rfl
      rw [hmerge]
      obtain ⟨hall, hsome⟩ := @ih (mergedTx.setScriptSig i (combineSignatures crypto signing.toEcdsa mergedTx i
        hashes prevPubKey mergedTx.vin[i].scriptSig txv.vin[i].scriptSig)) (by rwa [length_vin_setScriptSig])
      constructor
      · intro hvariants
        obtain ⟨tx', htx', hsame⟩ := hall (List.forall_mem_cons.mp hvariants).2
        exact ⟨tx', htx', hsame.trans (CoinWallet.map_prevout_setScriptSig ..)⟩
      · rintro ⟨txv', htxv', hle⟩
        rcases List.mem_cons.mp htxv' with rfl | htxv'
        · omega
        · exact hsome ⟨txv', htxv', hle⟩
    · have hother : indexed txv.vin i = .error .outOfRange := by
        rw [indexed, List.getElem?_eq_none (Nat.le_of_not_lt hi)]
      constructor
      · intro hvariants
        exact absurd (hvariants txv List.mem_cons_self) hi
      · rintro -
        rw [mergeVariants, hindexed, hother]
        rfl

/-! ## The loop that signs -/

variable {request : SignRequest} {txVariants : List CTransaction}

/-- The variants have an input, if the output that it spends is known. -/
def SignRequest.InRangeAt (request : SignRequest) (txVariants : List CTransaction) (vin : List CTxIn) (i : ℕ) :
    Prop :=
  ∀ txin, vin[i]? = some txin → request.mapPrevOut.contains txin.prevout = true →
    ∀ txv ∈ txVariants, i < txv.vin.length

theorem inRangeAt_congr
    {vin vin' : List CTxIn} (h : vin'.map CTxIn.prevout = vin.map CTxIn.prevout) (i : ℕ) :
  request.InRangeAt txVariants vin' i ↔ request.InRangeAt txVariants vin i
  := by
  have hone : ∀ {vin vin' : List CTxIn}, vin'.map CTxIn.prevout = vin.map CTxIn.prevout →
      request.InRangeAt txVariants vin i → request.InRangeAt txVariants vin' i := by
    intro vin vin' h hrange txin htxin hknown
    have hget : (vin'.map CTxIn.prevout)[i]? = (vin.map CTxIn.prevout)[i]? := by rw [h]
    rw [List.getElem?_map, List.getElem?_map, htxin, Option.map_some, eq_comm, Option.map_eq_some_iff] at hget
    obtain ⟨txin', htxin', hprevout⟩ := hget
    exact hrange txin' htxin' (hprevout ▸ hknown)
  exact ⟨hone h.symm, hone h⟩

/-- One turn: it signs and merges when the variants have the input. -/
theorem signInput_inRange {mergedTx : CTransaction} {fComplete : Bool} {i : ℕ} (h : i < mergedTx.vin.length) :
  (request.InRangeAt txVariants mergedTx.vin i →
      ∃ state', signInput crypto signing hashes context request txVariants (mergedTx, fComplete) i = .ok state'
        ∧ state'.1.vin.map CTxIn.prevout = mergedTx.vin.map CTxIn.prevout)
    ∧ (¬request.InRangeAt txVariants mergedTx.vin i →
      signInput crypto signing hashes context request txVariants (mergedTx, fComplete) i = .error .outOfRange)
  := by
  have hindexed : indexed mergedTx.vin i = .ok mergedTx.vin[i] := by
    rw [indexed, List.getElem?_eq_getElem h]
  have hget : mergedTx.vin[i]? = some mergedTx.vin[i] := List.getElem?_eq_getElem h
  cases hprev : request.mapPrevOut[mergedTx.vin[i].prevout]? with
  | none =>
    have hturn : signInput crypto signing hashes context request txVariants (mergedTx, fComplete) i
        = .ok (mergedTx, false) := by
      simp only [signInput, hindexed, bind, Except.bind, hprev]
      rfl
    refine ⟨fun _ => ⟨_, hturn, rfl⟩, ?_⟩
    intro hrange
    exfalso
    apply hrange
    intro txin htxin hknown
    rw [← Option.some.inj (hget.symm.trans htxin), ExtTreeMap.contains_eq_isSome_getElem?, hprev] at hknown
    cases hknown
  | some prevPubKey =>
    obtain ⟨tx', fSigned, hsign, hsame⟩ := @exists_signSignature crypto signing hashes request.keystore
      (context.rand i) prevPubKey (mergedTx.setScriptSig i []) i request.nHashType
      (by rwa [length_vin_setScriptSig])
    have hprevouts := hsame.trans (CoinWallet.map_prevout_setScriptSig mergedTx i [])
    have hlength : tx'.vin.length = mergedTx.vin.length := by
      have hmap := congrArg List.length hprevouts
      rwa [List.length_map, List.length_map] at hmap
    have hrange : request.InRangeAt txVariants mergedTx.vin i ↔ ∀ txv ∈ txVariants, i < txv.vin.length := by
      constructor
      · intro hrange
        apply hrange _ hget
        rw [ExtTreeMap.contains_eq_isSome_getElem?, hprev]
        rfl
      · intro hvariants _ _ _
        exact hvariants
    obtain ⟨hall, hsome⟩ := @mergeVariants_inRange crypto signing hashes prevPubKey i txVariants tx'
      (hlength ▸ h)
    rw [hrange]
    constructor
    · intro hvariants
      obtain ⟨tx'', hmerge, hsame'⟩ := hall hvariants
      have hlength' : tx''.vin.length = mergedTx.vin.length := by
        have hmap := congrArg List.length (hsame'.trans hprevouts)
        rwa [List.length_map, List.length_map] at hmap
      have hindexed' : indexed tx''.vin i = .ok tx''.vin[i] := by
        rw [indexed, List.getElem?_eq_getElem]
      refine ⟨(tx'', fComplete && verifyScript (evalScript crypto signing.toEcdsa hashes 0)
        tx''.vin[i].scriptSig prevPubKey tx'' i true), ?_, hsame'.trans hprevouts⟩
      simp only [signInput, hindexed, bind, Except.bind, hprev, hsign, hmerge, hindexed']
      rfl
    · intro hvariants
      have hmerge := hsome (by
        by_contra hnone
        apply hvariants
        intro txv htxv
        by_contra hle
        exact hnone ⟨txv, htxv, Nat.le_of_not_lt hle⟩)
      simp only [signInput, hindexed, bind, Except.bind, hprev, hsign, hmerge]

/-- The loop runs to its end when the variants have all the inputs that are signed. -/
theorem signInputs_inRange
    {l : List ℕ} {mergedTx : CTransaction} {fComplete : Bool} (h : ∀ i ∈ l, i < mergedTx.vin.length) :
  ((∀ i ∈ l, request.InRangeAt txVariants mergedTx.vin i) →
      ∃ result, l.foldlM (signInput crypto signing hashes context request txVariants) (mergedTx, fComplete)
        = .ok result)
    ∧ ((∃ i ∈ l, ¬request.InRangeAt txVariants mergedTx.vin i) →
      l.foldlM (signInput crypto signing hashes context request txVariants) (mergedTx, fComplete)
        = .error .outOfRange)
  := by
  induction l generalizing mergedTx fComplete with
  | nil =>
    refine ⟨fun _ => ⟨_, rfl⟩, ?_⟩
    rintro ⟨i, hi, -⟩
    cases hi
  | cons i l ih =>
    obtain ⟨hi, hl⟩ := List.forall_mem_cons.mp h
    obtain ⟨hall, hsome⟩ := @signInput_inRange crypto signing hashes context request txVariants mergedTx
      fComplete i hi
    rw [List.foldlM_cons]
    by_cases hrange : request.InRangeAt txVariants mergedTx.vin i
    · obtain ⟨⟨tx', fComplete'⟩, hturn, hsame⟩ := hall hrange
      have hlength : tx'.vin.length = mergedTx.vin.length := by
        have hmap := congrArg List.length hsame
        rwa [List.length_map, List.length_map] at hmap
      obtain ⟨hall', hsome'⟩ := @ih tx' fComplete' (fun j hj => hlength ▸ hl j hj)
      rw [hturn]
      simp only [inRangeAt_congr hsame] at hall' hsome'
      constructor
      · intro hranges
        exact hall' (List.forall_mem_cons.mp hranges).2
      · rintro ⟨j, hj, hout⟩
        rcases List.mem_cons.mp hj with rfl | hj
        · exact absurd hrange hout
        · exact hsome' ⟨j, hj, hout⟩
    · rw [hsome hrange]
      refine ⟨fun hranges => absurd (hranges i List.mem_cons_self) hrange, fun _ => rfl⟩

end Signing

/-! ## Parameters and errors -/

/-- Nothing was indexed out of range. -/
def KeepsInRange {α : Type} (result : Except RpcError α) : Prop := result ≠ .error .outOfRange

section Parameters

theorem inRange_ok {α : Type} (a : α) :
  KeepsInRange (.ok a)
  := by
  intro h
  cases h

theorem inRange_bind
    {α β : Type} {result : Except RpcError α} {next : α → Except RpcError β} (h : KeepsInRange result)
    (hnext : ∀ a, result = .ok a → KeepsInRange (next a)) :
  KeepsInRange (result >>= next)
  := by
  cases result with
  | error e =>
    intro heq
    apply h
    exact congrArg Except.error (Except.error.inj heq)
  | ok a => exact hnext a rfl

theorem inRange_foldlM
    {α β : Type} {f : β → α → Except RpcError β} (h : ∀ b a, KeepsInRange (f b a)) (l : List α) (b : β) :
  KeepsInRange (l.foldlM f b)
  := by
  induction l generalizing b with
  | nil => exact inRange_ok b
  | cons a l ih =>
    rw [List.foldlM_cons]
    exact inRange_bind (h b a) (fun b' _ => ih b')

theorem inRange_mapM
    {α β : Type} {f : α → Except RpcError β} (h : ∀ a, KeepsInRange (f a)) (l : List α) :
  KeepsInRange (l.mapM f)
  := by
  induction l with
  | nil => exact inRange_ok _
  | cons a l ih =>
    rw [List.mapM_cons]
    exact inRange_bind (h a) (fun _ _ => inRange_bind ih (fun _ _ => inRange_ok _))

theorem inRange_getStr (v : JsonValue) :
  KeepsInRange v.getStr
  := by
  intro h
  cases v <;> cases h

theorem inRange_getInt (v : JsonValue) :
  KeepsInRange v.getInt
  := by
  intro h
  cases v <;> cases h

theorem inRange_rpcTypeCheck (params : List JsonValue) (typesExpected : List JsonType) :
  KeepsInRange (rpcTypeCheck params typesExpected)
  := by
  induction typesExpected generalizing params with
  | nil =>
    cases params with
    | nil => exact inRange_ok _
    | cons v params => exact inRange_ok _
  | cons t typesExpected ih =>
    cases params with
    | nil => exact inRange_ok _
    | cons v params =>
      rw [rpcTypeCheck]
      split_ifs
      · intro h
        cases h
      · apply ih

theorem inRange_rpcTypeCheckObject
    (o : List (String × JsonValue)) (typesExpected : List (String × JsonType)) :
  KeepsInRange (rpcTypeCheckObject o typesExpected)
  := by
  induction typesExpected with
  | nil => exact inRange_ok _
  | cons expected typesExpected ih =>
    obtain ⟨name, t⟩ := expected
    rw [rpcTypeCheckObject]
    split_ifs
    · intro h
      cases h
    · intro h
      cases h
    · exact ih

theorem inRange_readVariants (fuel : ℕ) (ssData : Bytes) :
  KeepsInRange (readVariants fuel ssData)
  := by
  induction fuel generalizing ssData with
  | zero => exact inRange_ok _
  | succ fuel ih =>
    rw [readVariants]
    split_ifs
    · exact inRange_ok _
    · split
      · intro h
        cases h
      · exact inRange_bind (ih _) (fun _ _ => inRange_ok _)

theorem inRange_addPrevOut (mapPrevOut : ExtTreeMap COutPoint CScript) (p : JsonValue) :
  KeepsInRange (addPrevOut mapPrevOut p)
  := by
  have hjson : ∀ {α : Type} (code : ℤ) (message : String),
      KeepsInRange (.error (.json code message) : Except RpcError α) := by
    intro α code message h
    cases h
  cases p with
  | obj prevOut =>
    rw [addPrevOut]
    apply inRange_bind (inRange_rpcTypeCheckObject _ _)
    intro _ _
    apply inRange_bind (inRange_getStr _)
    intro txidHex _
    split_ifs
    · apply hjson
    · apply inRange_bind (inRange_getInt _)
      intro nOut _
      dsimp only
      split_ifs
      · apply hjson
      · apply inRange_bind (inRange_getStr _)
        intro pkHex _
        split_ifs
        · apply hjson
        · split
          · split_ifs
            · intro h
              cases h
            · exact inRange_ok _
          · exact inRange_ok _
  | array _ => apply hjson
  | str _ => apply hjson
  | bool _ => apply hjson
  | int _ => apply hjson
  | real => apply hjson
  | null => apply hjson

theorem inRange_readKey (crypto : Crypto) (fTestNet : Bool) (k : JsonValue) :
  KeepsInRange (readKey crypto fTestNet k)
  := by
  rw [readKey]
  apply inRange_bind (inRange_getStr k)
  intro str _
  split
  · intro h
    cases h
  · exact inRange_ok _

variable (crypto : Crypto) (signing : Signing) (hashes : ScriptHashes) (context : SignContext)

theorem inRange_signVariants (fHelp : Bool) (params : List JsonValue) :
  KeepsInRange (signVariants context fHelp params)
  := by
  rw [signVariants]
  split_ifs
  · intro h
    cases h
  · intro h
    cases h
  · apply inRange_bind (inRange_rpcTypeCheck _ _)
    intro _ _
    apply inRange_bind (inRange_getStr _)
    intro str _
    apply inRange_readVariants

theorem inRange_signRequest (mapPrevOut : ExtTreeMap COutPoint CScript) (params : List JsonValue) :
  KeepsInRange (signRequest crypto signing hashes context mapPrevOut params)
  := by
  rw [signRequest]
  apply inRange_bind (inRange_foldlM inRange_addPrevOut _ _)
  intro mapPrevOut _
  apply inRange_bind
  · split
    · exact inRange_ok _
    · exact inRange_bind (inRange_mapM (inRange_readKey crypto context.fTestNet) _) (fun _ _ => inRange_ok _)
  · intro keystore _
    apply inRange_bind
    · split
      · exact inRange_ok _
      · apply inRange_bind (inRange_getStr _)
        intro strHashType _
        split
        · intro h
          cases h
        · exact inRange_ok _
    · intro nHashType _
      exact inRange_ok _

/-! ## When the call stays in range -/

/-- Where the call comes to the previous outputs, those that are looked up are there; and where it comes to
sign, all variants have each input whose previous output is known. -/
def CallInRange (fHelp : Bool) (params : List JsonValue) : Prop :=
  ∀ tx txVariants, signVariants context fHelp params = .ok (tx :: txVariants) →
    (∀ txin ∈ tx.vin, context.prevOutInRange tx txin = true)
    ∧ ∀ request, signRequest crypto signing hashes context (context.chainPrevOuts tx) params = .ok request →
      ∀ i txin, tx.vin[i]? = some txin → request.mapPrevOut.contains txin.prevout = true →
        ∀ txv ∈ txVariants, i < txv.vin.length

/-- The call reads outside of its vectors just when an output that is looked up is not there, or a variant
lacks an input that is signed. -/
theorem signrawtransaction_inRange_iff (fHelp : Bool) (params : List JsonValue) :
  signrawtransaction crypto signing hashes context fHelp params ≠ .error .outOfRange
    ↔ CallInRange crypto signing hashes context fHelp params
  := by
  change KeepsInRange _ ↔ _
  rw [signrawtransaction, CallInRange]
  cases hvariants : signVariants context fHelp params with
  | error e =>
    refine iff_of_true ?_ ?_
    · have hrange := inRange_signVariants context fHelp params
      rw [hvariants] at hrange
      intro h
      apply hrange
      exact congrArg Except.error (Except.error.inj h)
    · intro tx txVariants h
      cases h
  | ok txVariants =>
    cases txVariants with
    | nil =>
      refine iff_of_true ?_ ?_
      · intro h
        cases h
      · intro tx txVariants h
        cases h
    | cons tx txVariants =>
      change KeepsInRange (copyPrevOuts (context.fetchInputs tx) tx.vin ∅ >>= fun mapPrevOut =>
        signRequest crypto signing hashes context mapPrevOut params >>= fun request =>
        (List.range tx.vin.length).foldlM (signInput crypto signing hashes context request (tx :: txVariants))
          (tx, true)) ↔ _
      rw [context.copyPrevOuts_eq]
      by_cases hall : tx.vin.all (context.prevOutInRange tx) = true
      · rw [if_pos hall]
        change KeepsInRange (signRequest crypto signing hashes context (context.chainPrevOuts tx) params
          >>= fun request => (List.range tx.vin.length).foldlM
            (signInput crypto signing hashes context request (tx :: txVariants)) (tx, true)) ↔ _
        cases hrequest : signRequest crypto signing hashes context (context.chainPrevOuts tx) params with
        | error e =>
          apply iff_of_true
          · have hrange := inRange_signRequest crypto signing hashes context (context.chainPrevOuts tx) params
            rw [hrequest] at hrange
            intro h
            exact hrange (congrArg Except.error (Except.error.inj h))
          · intro tx' txVariants' h
            obtain ⟨rfl, rfl⟩ := List.cons.inj (Except.ok.inj h)
            refine ⟨List.all_eq_true.mp hall, ?_⟩
            intro request h
            rw [hrequest] at h
            cases h
        | ok request =>
          obtain ⟨hin, hout⟩ := @signInputs_inRange crypto signing hashes context request (tx :: txVariants)
            (List.range tx.vin.length) tx true (fun i hi => List.mem_range.mp hi)
          change KeepsInRange ((List.range tx.vin.length).foldlM
            (signInput crypto signing hashes context request (tx :: txVariants)) (tx, true)) ↔ _
          constructor
          · intro hrange tx' txVariants' h
            obtain ⟨rfl, rfl⟩ := List.cons.inj (Except.ok.inj h)
            refine ⟨List.all_eq_true.mp hall, ?_⟩
            intro request' hrequest' i txin htxin hknown txv htxv
            rw [hrequest] at hrequest'
            obtain rfl := Except.ok.inj hrequest'
            by_contra hlt
            apply hrange
            apply hout
            refine ⟨i, List.mem_range.mpr (List.getElem?_eq_some_iff.mp htxin).1, ?_⟩
            intro hat
            exact hlt (hat txin htxin hknown txv (List.mem_cons_of_mem _ htxv))
          · intro hcall
            obtain ⟨-, hvariants⟩ := hcall tx txVariants rfl
            have hranges : ∀ i ∈ List.range tx.vin.length, request.InRangeAt (tx :: txVariants) tx.vin i := by
              intro i hi txin htxin hknown txv htxv
              rcases List.mem_cons.mp htxv with rfl | htxv
              · exact List.mem_range.mp hi
              · exact hvariants request hrequest i txin htxin hknown txv htxv
            obtain ⟨result, hresult⟩ := hin hranges
            rw [hresult]
            exact inRange_ok result
      · rw [if_neg hall]
        apply iff_of_false
        · intro h
          exact h rfl
        · intro h
          exact hall (List.all_eq_true.mpr (h tx txVariants rfl).1)

end Parameters

/-! ## Calls out of range -/

/-- A curve that nothing is signed with. -/
def idleSigning : Signing where
  toEcdsa := sizedEcdsa
  getPubKey _ := []
  sign _ _ _ := none

/-- A node that knows the transactions of its memory pool only. -/
def poolContext (mempool : ExtTreeMap uint256 CTransaction compare) : SignContext where
  fTestNet := false
  fLocked := false
  wallet := ⟨fun _ => false, fun _ => none, fun _ => none, ∅⟩
  txIndex := ∅
  mempool
  readFromDisk _ := (CTransaction.blank, false)
  rand _ _ := 0

/-- A transaction that spends the first output of the transaction with the hash seven. -/
def spendHex : List Char :=
  ("0100000001" ++ "0700000000000000000000000000000000000000000000000000000000000000"
    ++ "0000000000ffffffff" ++ "0000000000").toList

/-- A transaction without inputs. -/
def noInputHex : List Char := "01000000000000000000".toList

/-- The call reads out of range where the previous transaction is not known, and where a second variant has
fewer inputs. -/
theorem signrawtransaction_outOfRange :
  signrawtransaction sampleCrypto idleSigning BurnPayload.sampleScriptHashes (poolContext ∅) false
      [.str spendHex] = .error .outOfRange
    ∧ signrawtransaction sampleCrypto idleSigning BurnPayload.sampleScriptHashes
      (poolContext ((∅ : ExtTreeMap uint256 CTransaction compare).insert 7 ⟨1, [], [⟨5, [0x51]⟩], 0⟩)) false
      [.str (spendHex ++ noInputHex)] = .error .outOfRange
  := by
  constructor
  · decide +kernel
  · decide +kernel

end CorgiCoin
