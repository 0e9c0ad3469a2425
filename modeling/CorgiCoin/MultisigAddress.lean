import CorgiCoin.Spendable
import CorgiCoin.SignRawTransaction
import CorgiCoin.KeyPool
import CorgiCoin.ReadBack
import CorgiCoin.ScriptLimits

/-!
# Multi-signature addresses

`addmultisigaddress` makes a script of the keys that it is given, stores it and answers with the address of
its hash.  It asks neither how many keys there are nor how large the script gets: more than sixteen keys
fail an assertion, and a script of more than 520 bytes cannot be pushed, so that what is sent to its
address is never spent.
-/

namespace CorgiCoin

open Std Codec Exec txnouttype

/-! ## The script -/

/-- `EncodeOP_N`, `none` where its assertion fails. -/
def encodeOP_N (n : ℕ) : Option UInt8 :=
  if n > 16 then none
  else if n = 0 then some 0
  else some (UInt8.ofNat (OP_1 + n - 1))

/-- `SetMultisig` of the public keys of the keys. -/
def setMultisig (nRequired : ℕ) (keys : List CPubKey) : Option CScript := do
  let required ← encodeOP_N nRequired
  let count ← encodeOP_N keys.length
  return [required] ++ keys.flatMap pushData ++ [count, UInt8.ofNat OP_CHECKMULTISIG]

/-! ## The call -/

/-- How the call ends without a result: as other calls do, with a `runtime_error`, or in an assertion. -/
inductive MultisigStop where
  | rpc (e : RpcError)
  | runtime_error (what : List Char)
  | assertion

/-- What the call reads and writes of the wallet. -/
structure MultisigWallet where
  keystore : CKeyStore
  mapAddressBook : ExtTreeMap CTxDestination (List Char)

section Call

variable (crypto : Crypto) (fTestNet : Bool) (signing : Signing) (hash160 : Bytes → uint160)

/-- `GetKeyID` -/
def CBitcoinAddress.getKeyID (addr : CBitcoinAddress) : Option uint160 :=
  match addr.get fTestNet with
  | .CKeyID keyID => some keyID
  | _ => none

/-- `AccountFromValue` -/
def accountFromValue (value : JsonValue) : Except RpcError (List Char) := do
  let strAccount ← value.getStr
  if strAccount = ['*'] then .error (.json (-11) "Invalid account name") else return strAccount

/-- The public key of one of the strings: of an address whose key the wallet has, or in hexadecimal. -/
def multisigKey (w : MultisigWallet) (ks : List Char) : Except MultisigStop CPubKey :=
  let invalid := MultisigStop.runtime_error (" Invalid public key: ".toList ++ ks)
  let check := fun vchPubKey : CPubKey =>
    if !CPubKey.isValid vchPubKey || !signing.setPubKey vchPubKey then .error invalid else .ok vchPubKey
  let address := (CBitcoinAddress.setString crypto fTestNet ks).2
  if address.isValid fTestNet then
    match address.getKeyID fTestNet with
    | none => .error (.runtime_error (ks ++ " does not refer to a key".toList))
    | some keyID =>
      match w.keystore.getPubKey keyID with
      | none => .error (.runtime_error ("no full public key for address ".toList ++ ks))
      | some vchPubKey => check vchPubKey
  else if isHex ks then check (parseHex ks)
  else .error invalid

/-- The keys of the call, in their order. -/
def multisigKeys (w : MultisigWallet) (nRequired : Int32) (keys : List JsonValue) :
    Except MultisigStop (List CPubKey) :=
  if nRequired < 1 then
    .error (.runtime_error "a multisignature address must require at least one key to redeem".toList)
  else if (keys.length : ℤ) < nRequired.toInt then
    .error (.runtime_error ("not enough keys supplied (got ".toList ++ (toString keys.length).toList
      ++ " keys, but need at least ".toList ++ (toString nRequired.toInt).toList ++ " to redeem)".toList))
  else
    keys.mapM (fun key => do
      let ks ← (key.getStr).mapError MultisigStop.rpc
      multisigKey crypto fTestNet signing w ks)

/-- `addmultisigaddress`: the wallet after it, and the address. -/
def addmultisigaddress (w : MultisigWallet) (fHelp : Bool) (params : List JsonValue) :
    Except MultisigStop (MultisigWallet × List Char) :=
  match params with
  | nrequired :: .array keys :: account =>
    if fHelp || account.length > 1 then .error (.rpc .exception)
    else do
      let nRequired ← (nrequired.getInt).mapError MultisigStop.rpc
      let strAccount ← (account.head?.elim (return []) accountFromValue).mapError MultisigStop.rpc
      let pubkeys ← multisigKeys crypto fTestNet signing w nRequired keys
      match setMultisig nRequired.toInt.toNat pubkeys with
      | none => .error .assertion
      | some inner =>
        let innerID := CTxDestination.CScriptID (hash160 inner)
        let w : MultisigWallet :=
          { keystore := w.keystore.addCScript hash160 inner
            mapAddressBook := w.mapAddressBook.insert innerID strAccount }
        return (w, (CBitcoinAddress.ofDestination fTestNet innerID).toString crypto)
  | _ => .error (.rpc .exception)

end Call

/-! ## What the script is -/

theorem encodeOP_N_of_pos {n : ℕ} {b : UInt8} (hpos : 1 ≤ n) (h : encodeOP_N n = some b) :
  n ≤ 16 ∧ b = UInt8.ofNat (OP_1 - 1 + n)
  := by
  rw [encodeOP_N] at h
  split_ifs at h with hlarge hzero
  · omega
  · refine ⟨Nat.le_of_not_lt hlarge, ?_⟩
    rw [← Option.some.inj h]
    congr 1
    simp only [OP_1]
    omega

theorem instructions_flatMap_pushData
    {keys : List CPubKey} (hkeys : ∀ key ∈ keys, key.length < 2 ^ 32) (rest : CScript) :
  instructions (keys.flatMap pushData ++ rest)
    = (keys.map (fun key => (pushOpcode key, key)) ++ (instructions rest).1, (instructions rest).2)
  := by
  induction keys with
  | nil => rfl
  | cons key keys ih =>
    obtain ⟨hkey, hkeys⟩ := List.forall_mem_cons.mp hkeys
    rw [List.flatMap_cons, List.append_assoc, instructions_cons (getOp_pushData hkey _), ih hkeys]
    rfl

/-- The script of keys of a valid size is that of a multi-signature. -/
theorem multiSigScript_setMultisig
    {nRequired : ℕ} {keys : List CPubKey} {inner : CScript} (hpos : 1 ≤ nRequired)
    (hle : nRequired ≤ keys.length) (hvalid : ∀ key ∈ keys, CPubKey.isValid key = true)
    (h : setMultisig nRequired keys = some inner) :
  MultiSigScript inner nRequired (keys.map (fun key => (pushOpcode key, key)))
    ∧ inner.length = 3 + (keys.map (fun key => key.length + 1)).sum
  := by
  have hsize : ∀ key ∈ keys, key.length = 33 ∨ key.length = 65 := by
    intro key hkey
    have h := hvalid key hkey
    rwa [CPubKey.isValid, Bool.or_eq_true, beq_iff_eq, beq_iff_eq] at h
  simp only [setMultisig, Option.bind_eq_bind, Option.bind_eq_some_iff] at h
  obtain ⟨required, hrequired, count, hcount, hinner⟩ := h
  obtain ⟨hrequired_le, rfl⟩ := encodeOP_N_of_pos hpos hrequired
  obtain ⟨hcount_le, rfl⟩ := encodeOP_N_of_pos (hpos.trans hle) hcount
  obtain rfl := Option.some.inj hinner
  have hopcode : ∀ n, 1 ≤ n → n ≤ 16 → ∀ rest : CScript,
      getOp (UInt8.ofNat (OP_1 - 1 + n) :: rest) = some (OP_1 - 1 + n, [], rest) := by
    intro n hpos hle rest
    apply getOp_opcode
    · simp only [OP_PUSHDATA4, OP_1]
      omega
    · simp only [OP_1]
      omega
  constructor
  · constructor
    · rw [List.append_assoc, List.singleton_append, instructions_cons (hopcode nRequired hpos hrequired_le _),
        instructions_flatMap_pushData (fun key hkey => by rcases hsize key hkey with h | h <;> rw [h] <;> decide),
        instructions_cons (hopcode keys.length (hpos.trans hle) hcount_le _), List.length_map]
      have hcheck : instructions [UInt8.ofNat OP_CHECKMULTISIG] = ([(OP_CHECKMULTISIG, [])], true) := rfl
      rw [hcheck]
      rfl
    · intro op hop
      obtain ⟨key, hkey, rfl⟩ := List.mem_map.mp hop
      rw [isPubKeySize]
      rcases hsize key hkey with h | h
      · rw [h]
        rfl
      · rw [h]
        rfl
    · exact hpos
    · rwa [List.length_map]
    · rwa [List.length_map]
  · have hpushes : ∀ keys' : List CPubKey, (∀ key ∈ keys', key.length = 33 ∨ key.length = 65) →
        (keys'.flatMap pushData).length = (keys'.map (fun key => key.length + 1)).sum := by
      intro keys'
      induction keys' with
      | nil => exact fun _ => rfl
      | cons key keys' ih =>
        intro hkeys'
        obtain ⟨hkey, hkeys'⟩ := List.forall_mem_cons.mp hkeys'
        have hpush : (pushData key).length = key.length + 1 := by
          have hshort : key.length < OP_PUSHDATA1 := by
            rcases hkey with h | h <;> rw [h] <;> decide
          rw [pushData, if_pos hshort, List.length_cons]
        rw [List.flatMap_cons, List.length_append, hpush, ih hkeys', List.map_cons, List.sum_cons]
    simp only [List.length_append, hpushes keys hsize, List.length_cons, List.length_nil]
    omega

/-! ## What cannot be spent -/

section Unspendable

variable {crypto : Crypto} {ecdsa : Ecdsa} {hashes : ScriptHashes}
variable {txTo : CTransaction} {nIn : ℕ} {nHashType : Int32}

/-- What satisfies the hash of a script that is too large to be pushed holds another script with the same
hash. -/
theorem verifyScript_scriptHash_large
    {script : CScript} (hlarge : 520 < script.length) {scriptSig : CScript}
    (haccepts : verifyScript (evalScript crypto ecdsa hashes 0) scriptSig
      (scriptForScriptID (hashes.hash160 script)) txTo nIn true = true) :
  ∃ script', script' ≠ script ∧ hashes.hash160 script' = hashes.hash160 script
  := by
  obtain ⟨-, hlimits⟩ := evalScript_limits crypto ecdsa hashes 0 (fun _ h => absurd h List.not_mem_nil)
    (Nat.zero_le _) scriptSig txTo nIn
  rw [verifyScript] at haccepts
  cases hrun : evalScript crypto ecdsa hashes 0 [] scriptSig txTo nIn with
  | none =>
    rw [hrun] at haccepts
    cases haccepts
  | some stackCopy =>
    obtain ⟨m, -, rfl, hwithin, -⟩ := hlimits stackCopy hrun
    rw [hrun] at haccepts
    dsimp only at haccepts
    cases hstack : m.stack with
    | nil =>
      rw [hstack, evalScript_scriptHash_nil] at haccepts
      cases haccepts
    | cons vch stack =>
      have hdepth := hwithin.depth
      have hsmall : vch.length ≤ 520 := by
        apply hwithin.stack
        rw [hstack]
        exact List.mem_cons_self
      rw [hstack, List.length_cons] at hdepth
      rw [hstack] at haccepts
      rw [evalScript_scriptHash _ (by omega)] at haccepts
      rcases Nat.lt_or_ge stack.length 999 with hlt | hge
      · use vch
        constructor
        · rintro rfl
          omega
        · by_contra hother
          have hbytes : (serializeUint160 (hashes.hash160 vch) == serializeUint160 (hashes.hash160 script))
              = false := by
            rw [beq_eq_false_iff_ne]
            intro hsame
            apply hother
            rw [← uint160OfBytes_serializeUint160 (hashes.hash160 vch), hsame, uint160OfBytes_serializeUint160]
          rw [if_pos hlt, hbytes] at haccepts
          cases haccepts
      · rw [if_neg (Nat.not_lt.mpr hge)] at haccepts
        cases haccepts

end Unspendable

/-! ## The calls that answer -/

section Answer

variable {crypto : Crypto} {fTestNet : Bool} {signing : Signing} {hashes : ScriptHashes}
variable {w w' : MultisigWallet} {answer : List Char}

theorem bind_eq_ok_iff
    {α β ε : Type} {x : Except ε α} {f : α → Except ε β} {b : β} :
  x >>= f = .ok b ↔ ∃ a, x = .ok a ∧ f a = .ok b
  := by
  cases x with
  | error e => simp [bind, Except.bind]
  | ok a => simp [bind, Except.bind]

/-- What a call that answers has done. -/
structure AddedMultisig (crypto : Crypto) (fTestNet : Bool) (signing : Signing) (hash160 : Bytes → uint160)
    (w w' : MultisigWallet) (params : List JsonValue) (answer : List Char) (nRequired : ℕ) (keys : List CPubKey)
    (inner : CScript) : Prop where
  read : ∃ nrequired values account n, params = nrequired :: .array values :: account
    ∧ nrequired.getInt = .ok n ∧ n.toInt.toNat = nRequired
    ∧ multisigKeys crypto fTestNet signing w n values = .ok keys
  pos : 1 ≤ nRequired
  le_keys : nRequired ≤ keys.length
  valid : ∀ key ∈ keys, CPubKey.isValid key = true ∧ signing.setPubKey key = true
  inner_eq : setMultisig nRequired keys = some inner
  keystore_eq : w'.keystore = w.keystore.addCScript hash160 inner
  answer_eq : answer = (CBitcoinAddress.ofDestination fTestNet (.CScriptID (hash160 inner))).toString crypto

theorem multisigKey_valid
    {ks : List Char} {key : CPubKey} (h : multisigKey crypto fTestNet signing w ks = .ok key) :
  CPubKey.isValid key = true ∧ signing.setPubKey key = true
  := by
  have hcheck : ∀ {vchPubKey : CPubKey} {e : MultisigStop},
      (if !CPubKey.isValid vchPubKey || !signing.setPubKey vchPubKey then .error e else .ok vchPubKey
        : Except MultisigStop CPubKey) = .ok key →
      CPubKey.isValid key = true ∧ signing.setPubKey key = true := by
    intro vchPubKey e h
    split_ifs at h with hinvalid
    obtain rfl := Except.ok.inj h
    rw [Bool.not_eq_true, Bool.or_eq_false_iff, Bool.not_eq_false', Bool.not_eq_false'] at hinvalid
    exact hinvalid
  rw [multisigKey] at h
  dsimp only at h
  split at h
  · split at h
    · cases h
    · split at h
      · cases h
      · exact hcheck h
  · split at h
    · exact hcheck h
    · cases h

theorem multisigKeys_ok
    {nRequired : Int32} {values : List JsonValue} {keys : List CPubKey}
    (h : multisigKeys crypto fTestNet signing w nRequired values = .ok keys) :
  1 ≤ nRequired.toInt.toNat ∧ nRequired.toInt.toNat ≤ keys.length
    ∧ ∀ key ∈ keys, CPubKey.isValid key = true ∧ signing.setPubKey key = true
  := by
  rw [multisigKeys] at h
  split_ifs at h with hpos hfew
  have hone : (1 : Int32).toInt = 1 := rfl
  rw [Int32.lt_iff_toInt_lt, hone] at hpos
  have hall : ∀ (values : List JsonValue) (keys : List CPubKey),
      values.mapM (fun key => do
        let ks ← (key.getStr).mapError MultisigStop.rpc
        multisigKey crypto fTestNet signing w ks) = .ok keys →
      keys.length = values.length
        ∧ ∀ key ∈ keys, CPubKey.isValid key = true ∧ signing.setPubKey key = true := by
    intro values
    induction values with
    | nil =>
      rintro keys h
      obtain rfl : [] = keys := Except.ok.inj h
      exact ⟨rfl, fun _ h => absurd h List.not_mem_nil⟩
    | cons value values ih =>
      intro keys h
      rw [List.mapM_cons, bind_eq_ok_iff] at h
      obtain ⟨key, hkey, h⟩ := h
      obtain ⟨ks, -, hkey⟩ := bind_eq_ok_iff.mp hkey
      obtain ⟨keys, hkeys, h⟩ := bind_eq_ok_iff.mp h
      obtain rfl := Except.ok.inj h
      obtain ⟨hlength, hvalid⟩ := ih keys hkeys
      rw [List.length_cons, List.length_cons, hlength, List.forall_mem_cons]
      exact ⟨rfl, multisigKey_valid hkey, hvalid⟩
  obtain ⟨hlength, hvalid⟩ := hall values keys h
  refine ⟨by omega, by omega, hvalid⟩

theorem addmultisigaddress_ok
    {fHelp : Bool} {params : List JsonValue}
    (h : addmultisigaddress crypto fTestNet signing hashes.hash160 w fHelp params = .ok (w', answer)) :
  ∃ nRequired keys inner,
    AddedMultisig crypto fTestNet signing hashes.hash160 w w' params answer nRequired keys inner
  := by
  unfold addmultisigaddress at h
  split at h
  · next nrequired values account =>
    split_ifs at h
    obtain ⟨nRequired, hnRequired, h⟩ := bind_eq_ok_iff.mp h
    have hint : nrequired.getInt = .ok nRequired := by
      cases hget : nrequired.getInt with
      | error e =>
        rw [hget] at hnRequired
        cases hnRequired
      | ok n =>
        rw [hget] at hnRequired
        rw [Except.ok.inj hnRequired]
    obtain ⟨strAccount, -, h⟩ := bind_eq_ok_iff.mp h
    obtain ⟨keys, hkeys, h⟩ := bind_eq_ok_iff.mp h
    split at h
    · cases h
    · next inner hinner =>
      obtain ⟨hpos, hle, hvalid⟩ := multisigKeys_ok hkeys
      obtain ⟨rfl, rfl⟩ := Prod.mk.inj (Except.ok.inj h)
      exact ⟨_, keys, inner, ⟨nrequired, values, account, nRequired, rfl, hint, rfl, hkeys⟩, hpos, hle, hvalid,
        hinner, rfl, rfl⟩
  · cases h

/-- The wallet counts the address as its own when it has all of the keys. -/
theorem isMine_multisig_iff
    {keystore : CKeyStore} {script : CScript} {nSigs : ℕ} {keyOps : List (ℕ × Bytes)}
    (hscript : MultiSigScript script nSigs keyOps)
    (hstored : keystore.getCScript (hashes.hash160 script) = some script) :
  isMine hashes.hash160 keystore (scriptForScriptID (hashes.hash160 script)) = true
    ↔ ∀ pubkey ∈ keyOps.map Prod.snd, keystore.haveKey (hashes.hash160 pubkey) = true
  := by
  have hsize : keystore.mapScripts.size ≠ 0 := by
    intro hzero
    rw [CKeyStore.getCScript, ExtTreeMap.eq_empty_iff_size_eq_zero.mpr hzero, ExtTreeMap.getElem?_empty] at hstored
    cases hstored
  obtain ⟨fuel, hfuel⟩ := Nat.exists_eq_succ_of_ne_zero hsize
  rw [isMine, isMineLoop, solver_scriptForScriptID]
  dsimp only
  rw [List.head?_cons, Option.getD_some, uint160OfBytes_serializeUint160, hstored]
  dsimp only
  rw [hfuel, isMineLoop, hscript.solver_eq]
  dsimp only
  rw [List.tail_cons, List.dropLast_concat, beq_iff_eq, haveKeys, List.countP_eq_length]

/-- An address of the call counts as the wallet's own when the wallet has all of the keys, and then the
wallet spends from it just when its script has at most 520 bytes; from a longer script nobody spends
without another script of the same hash. -/
theorem addmultisigaddress_spendable_iff
    {fHelp : Bool} {params : List JsonValue}
    (h : addmultisigaddress crypto fTestNet signing hashes.hash160 w fHelp params = .ok (w', answer)) :
  ∃ nRequired keys inner,
    AddedMultisig crypto fTestNet signing hashes.hash160 w w' params answer nRequired keys inner
    ∧ inner.length = 3 + (keys.map (fun key => key.length + 1)).sum
    ∧ (isMine hashes.hash160 w'.keystore (scriptForScriptID (hashes.hash160 inner)) = true
      ↔ ∀ key ∈ keys, w.keystore.haveKey (hashes.hash160 key) = true)
    ∧ (520 < inner.length → ∀ scriptSig txTo nIn,
      verifyScript (evalScript crypto signing.toEcdsa hashes 0) scriptSig
        (scriptForScriptID (hashes.hash160 inner)) txTo nIn true = true →
      ∃ script', script' ≠ inner ∧ hashes.hash160 script' = hashes.hash160 inner)
    ∧ (w.keystore.Ready signing hashes.hash160 → signing.Lawful →
      (∀ script ∈ [scriptForScriptID (hashes.hash160 inner), inner],
        w.keystore.Names signing hashes.hash160 script) →
      (∀ key ∈ keys, w.keystore.haveKey (hashes.hash160 key) = true) →
      ∀ txTo nIn rand (bHashType : UInt8), nIn < txTo.vin.length →
        ((∃ txTo', signSignature crypto signing hashes w'.keystore rand
            (scriptForScriptID (hashes.hash160 inner)) txTo nIn (Int32.ofNat bHashType.toNat) = some (txTo', true))
          ↔ inner.length ≤ 520))
  := by
  obtain ⟨nRequired, keys, inner, hadded⟩ := addmultisigaddress_ok h
  obtain ⟨hscript, hlength⟩ := multiSigScript_setMultisig hadded.pos hadded.le_keys
    (fun key hkey => (hadded.valid key hkey).1) hadded.inner_eq
  have hstored : w'.keystore.getCScript (hashes.hash160 inner) = some inner := by
    rw [hadded.keystore_eq]
    apply CKeyStore.getCScript_addCScript
  have hmine := isMine_multisig_iff hscript hstored
  rw [List.map_map, Function.comp_def, List.map_id', hadded.keystore_eq] at hmine
  refine ⟨nRequired, keys, inner, hadded, hlength, ?_, ?_, ?_⟩
  · rw [hadded.keystore_eq]
    exact hmine
  · intro hlarge scriptSig txTo nIn haccepts
    exact verifyScript_scriptHash_large hlarge haccepts
  · intro hready hlawful hnames hhave txTo nIn rand bHashType hin
    rw [hadded.keystore_eq] at hstored ⊢
    rw [isMine_spendable_iff (hready.addCScript inner) hlawful _ hin (hmine.mpr hhave),
      CKeyStore.redeemScript_scriptForScriptID, hstored]
    · simp only [Option.some.injEq, forall_eq']
      exact and_iff_right (MultiSigOutput.isPayToScriptHash_multiSig hscript)
    · rw [CKeyStore.redeemScript_scriptForScriptID, hstored]
      rintro script (rfl | hscript)
      · exact hnames _ List.mem_cons_self
      · rw [← Option.some.inj hscript]
        exact hnames _ (List.mem_cons_of_mem _ List.mem_cons_self)

end Answer

/-! ## A call with one key -/

section Single

open MultiSigOutput

/-- The wallet of a key, before the call. -/
def singleWallet : MultisigWallet := ⟨pairStore 1, ∅⟩

def singleParams : List JsonValue :=
  [.int 1, .array [.str "020000000000000000000000000000000000000000000000000000000000000001".toList]]

/-- The call stores the script of the key, and the wallet spends from its address. -/
theorem singleWallet_spends :
  ∃ w' answer txTo',
    addmultisigaddress sampleCrypto false pairSigning pairHashes.hash160 singleWallet false singleParams
      = .ok (w', answer)
    ∧ signSignature sampleCrypto pairSigning pairHashes w'.keystore (fun _ => 0) (scriptForScriptID 0) pairTx 0
      (Int32.ofNat (1 : UInt8).toNat) = some (txTo', true)
  := by
  have hanswers : (addmultisigaddress sampleCrypto false pairSigning pairHashes.hash160 singleWallet false
      singleParams).toOption.isSome = true := by
    decide +kernel
  cases hcall : addmultisigaddress sampleCrypto false pairSigning pairHashes.hash160 singleWallet false
      singleParams with
  | error e =>
    rw [hcall] at hanswers
    cases hanswers
  | ok result =>
    obtain ⟨w', answer⟩ := result
    obtain ⟨nRequired, keys, inner, hadded, hlength, -, -, hsign⟩ := addmultisigaddress_spendable_iff hcall
    obtain ⟨nrequired, values, account, n, hparams, hget, hn, hkeys⟩ := hadded.read
    obtain ⟨rfl, hrest⟩ := List.cons.inj hparams
    obtain ⟨hvalues, -⟩ := List.cons.inj hrest
    obtain rfl := JsonValue.array.inj hvalues
    obtain rfl : Int32.ofInt 1 = n := Except.ok.inj hget
    obtain rfl : 1 = nRequired := hn
    have hread : (multisigKeys sampleCrypto false pairSigning singleWallet (Int32.ofInt 1)
        [.str "020000000000000000000000000000000000000000000000000000000000000001".toList]).toOption
        = some [pairKey 1] := by
      decide +kernel
    rw [hkeys] at hread
    obtain rfl : keys = [pairKey 1] := Option.some.inj hread
    obtain rfl : singleScript = inner := Option.some.inj hadded.inner_eq
    have hhave : ∀ key ∈ [pairKey 1], singleWallet.keystore.haveKey (pairHashes.hash160 key) = true := by
      decide
    obtain ⟨txTo', hsigned⟩ := (hsign pairStore_ready pairSigning_lawful pairStore_names hhave pairTx 0
      (fun _ => 0) 1 (by decide)).mpr (by decide)
    exact ⟨w', answer, txTo', rfl, hsigned⟩

/-- The call answers for sixteen keys too, whose script is too large to be spent from. -/
example :
  (addmultisigaddress sampleCrypto false pairSigning pairHashes.hash160 singleWallet false
      [.int 1, .array (List.replicate 16
        (.str "020000000000000000000000000000000000000000000000000000000000000001".toList))]).toOption.map
    (fun result => (result.1.keystore.getCScript 0).map List.length) = some (some 547)
  := by
  decide +kernel

end Single

end CorgiCoin
