import CorgiCoin.CombinedSigs
import CorgiCoin.Address

/-!
# Outputs that can be spent

`IsMine` counts an output as the wallet's when the key store has the keys for it, behind any number of
script hashes.  `SignSignature` looks behind one script hash, and the script that it finds there has to be
pushed.  What `IsMine` accepts can be signed just when these two do not stand in the way.
-/

namespace CorgiCoin

open Std Codec Exec txnouttype

/-! ## Key stores that can sign -/

/-- An unlocked key store whose keys match their addresses and can sign. -/
structure CKeyStore.Ready (keystore : CKeyStore) (signing : Signing) (hash160 : Bytes → uint160) : Prop where
  getKey : ∀ address, keystore.haveKey address = true → ∃ key, keystore.getKey address = some key
  getPubKey : ∀ address key, keystore.getKey address = some key →
    keystore.getPubKey address = some (signing.getPubKey key) ∧ hash160 (signing.getPubKey key) = address
  isSome_sign : ∀ address key, keystore.getKey address = some key → ∀ n hash,
    (signing.sign n key hash).isSome = true
  /-- No signature is as short as a hash. -/
  length_sign : ∀ address key, keystore.getKey address = some key → ∀ n hash vchSig,
    signing.sign n key hash = some vchSig → 20 ≤ vchSig.length
  setPubKey : ∀ address key, keystore.getKey address = some key →
    signing.setPubKey (signing.getPubKey key) = true ∧ (signing.getPubKey key).length ≤ 65
      ∧ (signing.getPubKey key).head? ≠ some 0x30
  script : ∀ hash script, keystore.getCScript hash = some script → hash160 script = hash

/-- What a script pushes for its keys is not mistaken for another key with the same address. -/
def CKeyStore.Names (keystore : CKeyStore) (signing : Signing) (hash160 : Bytes → uint160)
    (script : CScript) : Prop :=
  ∀ pubkey ∈ ((solver script).map Prod.snd).getD [], ∀ key,
    keystore.getKey (hash160 pubkey) = some key → signing.getPubKey key = pubkey

namespace CKeyStore

variable {keystore : CKeyStore} {signing : Signing} {hash160 : Bytes → uint160}

/-- `AddCScript` -/
def addCScript (keystore : CKeyStore) (hash160 : Bytes → uint160) (redeemScript : CScript) : CKeyStore :=
  { keystore with mapScripts := keystore.mapScripts.insert (hash160 redeemScript) redeemScript }

theorem getCScript_addCScript (keystore : CKeyStore) (hash160 : Bytes → uint160) (script : CScript) :
  (keystore.addCScript hash160 script).getCScript (hash160 script) = some script
  := by
  rw [getCScript, addCScript, ExtTreeMap.getElem?_insert_self]

/-- The store can still sign with the script in it. -/
theorem Ready.addCScript (h : keystore.Ready signing hash160) (script : CScript) :
  (keystore.addCScript hash160 script).Ready signing hash160
  where
  getKey := h.getKey
  getPubKey := h.getPubKey
  isSome_sign := h.isSome_sign
  length_sign := h.length_sign
  setPubKey := h.setPubKey
  script hash script' hstored := by
    rw [getCScript, CKeyStore.addCScript, ExtTreeMap.getElem?_insert] at hstored
    split_ifs at hstored with hsame
    · rw [← Option.some.inj hstored]
      exact Std.LawfulEqCmp.compare_eq_iff_eq.mp hsame
    · exact h.script hash script' hstored

end CKeyStore

/-! ## Signatures of an input -/

theorem checkSig_setScriptSig
    (crypto : Crypto) (ecdsa : Ecdsa) (vchSig vchPubKey : Bytes) (scriptCode scriptSig : CScript)
    (txTo : CTransaction) (nIn i : ℕ) (nHashType : Int32) :
  checkSig crypto ecdsa vchSig vchPubKey scriptCode (txTo.setScriptSig i scriptSig) nIn nHashType
    = checkSig crypto ecdsa vchSig vchPubKey scriptCode txTo nIn nHashType
  := by
  rw [checkSig, checkSig]
  simp only [fun nHashType => signatureHash_congr crypto scriptCode nIn nHashType
    (txTo.unsigned_setScriptSig i scriptSig)]

/-- A push that a script does not make is not deleted from it. -/
theorem findAndDelete_pushData
    {v : Bytes} {script : CScript} (hlength : v.length < 2 ^ 32)
    (h : ∀ op ∈ (instructions script).1, op.2 = v → op.1 ≠ pushOpcode v) :
  findAndDelete (pushData v) script = script
  := by
  apply @findAndDelete_of_instructions _ (fun op => op = (pushOpcode v, v))
  · intro script hpre
    obtain ⟨rest, rfl⟩ := List.isPrefixOf_iff_prefix.mp hpre
    exact ⟨_, _, rest, getOp_pushData hlength rest, rfl⟩
  · rintro op hop rfl
    exact h _ hop rfl rfl

section Sign

variable {crypto : Crypto} {signing : Signing} {hashes : ScriptHashes} {keystore : CKeyStore}
variable {txTo : CTransaction} {nIn : ℕ} {rand : uint160 → ℕ} {bHashType : UInt8}

/-- A signature of an input for a script, with its hash type. -/
def Signs (crypto : Crypto) (signing : Signing) (keystore : CKeyStore) (txTo : CTransaction) (nIn : ℕ)
    (script : CScript) (v pubkey : Bytes) : Prop :=
  ∃ address key, keystore.getKey address = some key ∧ signing.getPubKey key = pubkey
    ∧ ∃ n vchSig bHashType, signing.sign n key
        (signatureHash crypto script txTo nIn (Int32.ofNat bHashType.toNat)) = some vchSig
      ∧ v = vchSig ++ [bHashType]

theorem toUInt8_hashType (b : UInt8) :
  (Int32.ofNat b.toNat).toUInt32.toUInt8 = b
  := by
  apply UInt8.toNat_inj.mp
  have hlt := b.toNat_lt
  have hword : (Int32.ofNat b.toNat).toUInt32.toNat = b.toNat % 2 ^ 32 := by
    change (UInt32.ofNat b.toNat).toNat = _
    rw [UInt32.toNat_ofNat']
  rw [UInt32.toNat_toUInt8, hword]
  omega

/-- A key of the store signs. -/
theorem sign1_eq
    (hready : keystore.Ready signing hashes.hash160) (script : CScript) {address : uint160} {key : CKey}
    (hkey : keystore.getKey address = some key) :
  ∃ v, sign1 signing keystore (Int32.ofNat bHashType.toNat) rand address
      (signatureHash crypto script txTo nIn (Int32.ofNat bHashType.toNat)) = some (pushData v)
    ∧ Signs crypto signing keystore txTo nIn script v (signing.getPubKey key)
  := by
  obtain ⟨vchSig, hsign⟩ := Option.isSome_iff_exists.mp (hready.isSome_sign address key hkey (rand address)
    (signatureHash crypto script txTo nIn (Int32.ofNat bHashType.toNat)))
  refine ⟨vchSig ++ [bHashType], ?_, address, key, hkey, rfl, _, vchSig, bHashType, hsign, rfl⟩
  rw [sign1, hkey]
  simp only [Option.bind_eq_bind, Option.bind_some, hsign, toUInt8_hashType]
  rfl

section Signs

variable {script : CScript} {v pubkey : Bytes}

theorem Signs.length
    (hready : keystore.Ready signing hashes.hash160) (hlawful : signing.Lawful)
    (h : Signs crypto signing keystore txTo nIn script v pubkey) :
  21 ≤ v.length ∧ v.length ≤ 73
  := by
  obtain ⟨address, key, hkey, -, n, vchSig, b, hsign, rfl⟩ := h
  have hlow := hready.length_sign address key hkey n _ vchSig hsign
  have hhigh := hlawful.length_sign n key _ vchSig hsign
  rw [List.length_append, List.length_singleton]
  omega

theorem Signs.head?
    (hlawful : signing.Lawful) (h : Signs crypto signing keystore txTo nIn script v pubkey) :
  v.head? = some 0x30
  := by
  obtain ⟨address, key, hkey, -, n, vchSig, b, hsign, rfl⟩ := h
  rw [List.head?_append, hlawful.head_sign n key _ vchSig hsign]
  rfl

/-- The signature is valid. -/
theorem Signs.checkSig
    (hready : keystore.Ready signing hashes.hash160) (hlawful : signing.Lawful)
    (h : Signs crypto signing keystore txTo nIn script v pubkey) :
  CorgiCoin.checkSig crypto signing.toEcdsa v pubkey script txTo nIn 0 = true
  := by
  obtain ⟨address, key, hkey, rfl, n, vchSig, b, hsign, rfl⟩ := h
  rw [CorgiCoin.checkSig, List.getLast?_concat]
  dsimp only
  rw [if_neg (by simp), List.dropLast_concat, (hready.setPubKey address key hkey).1,
    hlawful.verify_sign n key _ vchSig hsign]
  rfl

end Signs

end Sign

/-! ## Scripts that the store solves -/

section Solve

variable {crypto : Crypto} {signing : Signing} {hashes : ScriptHashes} {keystore : CKeyStore}
variable {txTo : CTransaction} {nIn : ℕ} {rand : uint160 → ℕ} {bHashType : UInt8}

variable {script : CScript}

/-- The run of a pay-to-pubkey script on a signature. -/
theorem evalScript_pubKey
    {ecdsa : Ecdsa} {nHashType : Int32} {opcode : ℕ} {vchSig key : Bytes}
    (hsize : isPubKeySize key = true)
    (hops : instructions script = ([(opcode, key), (OP_CHECKSIG, [])], true)) :
  evalScript crypto ecdsa hashes nHashType [vchSig] script txTo nIn
    = some [vchBool (checkSig crypto ecdsa vchSig key (findAndDelete (pushData vchSig) script) txTo nIn
        nHashType)]
  := by
  rw [isPubKeySize, Bool.and_eq_true, decide_eq_true_eq, decide_eq_true_eq] at hsize
  have hlength : script.length ≤ 525 * 2 := by
    apply length_le_of_instructions hops
    intro op hop
    simp only [List.mem_cons, List.not_mem_nil, or_false] at hop
    rcases hop with rfl | rfl
    · exact hsize.2.trans (by decide)
    · exact Nat.zero_le _
  obtain ⟨pc1, hop1, hrest⟩ := instructions_eq_cons_iff.mp hops
  obtain ⟨pc2, hop2, hrest⟩ := instructions_eq_cons_iff.mp hrest
  obtain rfl := instructions_eq_nil_iff.mp hrest
  have hpush : opcode ≤ OP_PUSHDATA4 := by
    by_contra hlt
    obtain rfl := vch_eq_nil_of_getOp hop1 (.inr (Nat.lt_of_not_le hlt))
    exact absurd hsize.1 (by decide)
  set check := fun vchSig vchPubKey scriptCode =>
    checkSig crypto ecdsa vchSig vchPubKey scriptCode txTo nIn nHashType with hcheck
  have hdata : instruction crypto hashes check opcode key pc1 ⟨[vchSig], [], [], 0, script, 0⟩
      = .ok () ⟨[key, vchSig], [], [], 0, script, 0⟩ :=
    (instruction_push_eq rfl hpush (hsize.2.trans (by decide))).trans (if_pos (Nat.le_of_ble_eq_true rfl))
  have hsig : instruction crypto hashes check OP_CHECKSIG [] [] ⟨[key, vchSig], [], [], 0, script, 0⟩
      = .ok () ⟨[vchBool (check vchSig key (findAndDelete (pushData vchSig) script))], [], [], 1, script, 1⟩ :=
    instruction_op_ok rfl (by decide) (Nat.zero_lt_of_lt (by decide : 0 < 201)) (by decide) rfl
      (Nat.le_of_ble_eq_true rfl)
  have hloop : loop crypto hashes check script.length script { stack := [vchSig], pbegincodehash := script }
      = .ok () ⟨[vchBool (check vchSig key (findAndDelete (pushData vchSig) script))], [], [], 1, script, 1⟩ := by
    rw [loop_cons hop1, bind_run, hdata]
    dsimp only
    rw [loop_cons hop2, bind_run, hsig]
    rfl
  rw [evalScript, if_neg (by omega), runScript, EStateM.run, hloop]
  rfl

/-- What the store makes of a script that is no script hash: values that satisfy the script. -/
structure Solves (crypto : Crypto) (signing : Signing) (hashes : ScriptHashes) (keystore : CKeyStore)
    (rand : uint160 → ℕ) (bHashType : UInt8) (txTo : CTransaction) (nIn : ℕ) (script : CScript)
    (values : List Bytes) : Prop where
  solve : ∃ whichType, whichType ≠ TX_SCRIPTHASH
    ∧ signSolver signing hashes.hash160 keystore (Int32.ofNat bHashType.toNat) rand script
        (signatureHash crypto script txTo nIn (Int32.ofNat bHashType.toNat))
      = (true, pushAll values, whichType)
  script_length : script.length ≤ 10000
  bare : isPayToScriptHash script = false
  length_le : values.length ≤ 17
  size_le : ∀ v ∈ values, v.length ≤ 120
  run : ∀ scriptSig, MultiSigOutput.succeeds (evalScript crypto signing.toEcdsa hashes 0 values.reverse script
    (txTo.setScriptSig nIn scriptSig) nIn) = true

theorem succeeds_singleton (b : Bool) :
  MultiSigOutput.succeeds (some [vchBool b]) = b
  := by
  cases b
  · rfl
  · rfl

theorem isPayToScriptHash_eq_false
    {whichType : txnouttype} {found : List Bytes}
    (hsolver : solver script = some (whichType, found)) (htype : whichType ≠ TX_SCRIPTHASH) :
  isPayToScriptHash script = false
  := by
  rw [Bool.eq_false_iff]
  intro hhash
  obtain ⟨hash, -, hscript⟩ := eq_of_isPayToScriptHash hhash
  have hhead : script.head? ≠ some (UInt8.ofNat OP_RETURN) := by
    rw [hscript, List.head?_cons]
    decide
  rw [solver, if_neg (fun h => hhead h.1), if_pos hhash] at hsolver
  exact htype (Prod.mk.inj (Option.some.inj hsolver)).1.symm

theorem solves_pubKey
    (hready : keystore.Ready signing hashes.hash160) (hlawful : signing.Lawful) {key : Bytes}
    (hnames : keystore.Names signing hashes.hash160 script) (hsolver : solver script = some (TX_PUBKEY, [key]))
    (hhave : keystore.haveKey (hashes.hash160 key) = true) :
  ∃ values, Solves crypto signing hashes keystore rand bHashType txTo nIn script values
  := by
  obtain ⟨opcode, _, hsize, hops, heq⟩ := solver_pubKey_iff.mp hsolver
  obtain ⟨rfl, -⟩ := List.cons.inj heq
  obtain ⟨ckey, hget⟩ := hready.getKey _ hhave
  have hkey : signing.getPubKey ckey = key := by
    apply hnames key _ ckey hget
    rw [hsolver]
    exact List.mem_cons_self
  obtain ⟨v, hsign, hsigns⟩ := @sign1_eq crypto signing hashes keystore txTo nIn rand bHashType hready script
    _ ckey hget
  rw [hkey] at hsigns
  have hlength := hsigns.length hready hlawful
  have hkeep : findAndDelete (pushData v) script = script := by
    apply findAndDelete_pushData (by omega)
    intro op hop hv
    rw [hops] at hop
    simp only [List.mem_cons, List.not_mem_nil, or_false] at hop
    rcases hop with rfl | rfl
    · have hhead := (hready.setPubKey _ ckey hget).2.2
      rw [hkey] at hhead
      obtain rfl : key = v := hv
      exact absurd (hsigns.head? hlawful) hhead
    · obtain rfl : [] = v := hv
      simp at hlength
  use [v]
  constructor
  · refine ⟨TX_PUBKEY, by decide, ?_⟩
    rw [signSolver, hsolver]
    dsimp only
    rw [List.head?_cons, Option.getD_some, hsign]
    simp [pushAll]
  · have hlength := length_le_of_instructions hops (by
      intro op hop
      rw [isPubKeySize, Bool.and_eq_true, decide_eq_true_eq, decide_eq_true_eq] at hsize
      simp only [List.mem_cons, List.not_mem_nil, or_false] at hop
      rcases hop with rfl | rfl
      · exact hsize.2.trans (by decide)
      · exact Nat.zero_le _)
    exact hlength.trans (Nat.le_of_ble_eq_true rfl)
  · apply isPayToScriptHash_eq_false hsolver (by decide)
  · rw [List.length_singleton]
    decide
  · intro v' hv'
    obtain rfl := List.mem_singleton.mp hv'
    omega
  · intro scriptSig
    rw [List.reverse_singleton, evalScript_pubKey hsize hops, hkeep, checkSig_setScriptSig,
      hsigns.checkSig hready hlawful]
    rfl

theorem serializeUint160_uint160OfBytes {vch : Bytes} (h : vch.length = 20) :
  serializeUint160 (uint160OfBytes vch) = vch
  := by
  rw [uint160OfBytes, if_pos h, CBitcoinAddress.serializeUint160_ofLE h]

theorem eq_scriptForScriptID (h : isPayToScriptHash script = true) :
  ∃ scriptID, script = scriptForScriptID scriptID
  := by
  obtain ⟨hash, hlength, rfl⟩ := eq_of_isPayToScriptHash h
  use uint160OfBytes hash
  rw [scriptForScriptID, serializeUint160_uint160OfBytes hlength]
  rfl

theorem eq_scriptForScriptID_of_solver
    {found : List Bytes} (h : solver script = some (TX_SCRIPTHASH, found)) :
  ∃ scriptID, script = scriptForScriptID scriptID
  := by
  obtain ⟨hash, hlength, rfl, -⟩ := solver_scriptHash_iff.mp h
  use uint160OfBytes hash
  rw [scriptForScriptID, serializeUint160_uint160OfBytes hlength, pushData, hlength, if_pos (by decide)]
  rfl

theorem solves_pubKeyHash
    (hready : keystore.Ready signing hashes.hash160) (hlawful : signing.Lawful) {hash : Bytes}
    (hsolver : solver script = some (TX_PUBKEYHASH, [hash]))
    (hhave : keystore.haveKey (uint160OfBytes hash) = true) :
  ∃ values, Solves crypto signing hashes keystore rand bHashType txTo nIn script values
  := by
  obtain ⟨opcode, _, hsize, hops, heq⟩ := solver_pubKeyHash_iff.mp hsolver
  obtain ⟨rfl, -⟩ := List.cons.inj heq
  obtain ⟨ckey, hget⟩ := hready.getKey _ hhave
  obtain ⟨hpubkey, haddress⟩ := hready.getPubKey _ ckey hget
  obtain ⟨v, hsign, hsigns⟩ := @sign1_eq crypto signing hashes keystore txTo nIn rand bHashType hready script
    _ ckey hget
  have hlength := hsigns.length hready hlawful
  have hkeep : findAndDelete (pushData v) script = script := by
    apply findAndDelete_pushData (by omega)
    intro op hop hv
    rw [hops] at hop
    have hshort : op.2.length ≤ 20 := by
      simp only [pubKeyHashOps, List.mem_cons, List.not_mem_nil, or_false] at hop
      rcases hop with rfl | rfl | rfl | rfl | rfl
      all_goals simp [hsize]
    rw [hv] at hshort
    omega
  use [v, signing.getPubKey ckey]
  constructor
  · refine ⟨TX_PUBKEYHASH, by decide, ?_⟩
    rw [signSolver, hsolver]
    dsimp only
    rw [List.head?_cons, Option.getD_some, hsign, hpubkey, Option.getD_some]
    simp [pushAll]
  · have hlength := length_le_of_instructions hops (by
      intro op hop
      simp only [pubKeyHashOps, List.mem_cons, List.not_mem_nil, or_false] at hop
      rcases hop with rfl | rfl | rfl | rfl | rfl
      all_goals simp [hsize])
    simp only [pubKeyHashOps, List.length_cons, List.length_nil] at hlength
    omega
  · apply isPayToScriptHash_eq_false hsolver (by decide)
  · rw [List.length_cons, List.length_singleton]
    decide
  · intro v' hv'
    have hkeylength := (hready.setPubKey _ ckey hget).2.1
    simp only [List.mem_cons, List.not_mem_nil, or_false] at hv'
    rcases hv' with rfl | rfl
    · omega
    · omega
  · intro scriptSig
    have hreverse : [v, signing.getPubKey ckey].reverse = [signing.getPubKey ckey, v] := rfl
    rw [hreverse, evalScript_pubKeyHash hsize hops, haddress, serializeUint160_uint160OfBytes hsize, if_pos rfl,
      hkeep, checkSig_setScriptSig, hsigns.checkSig hready hlawful]
    rfl

/-- All keys of a list sign, as long as signatures are missing. -/
theorem signNLoop_all
    (hready : keystore.Ready signing hashes.hash160) (script : CScript) {nRequired : ℕ} {pubkeys : List Bytes}
    (hpubkeys : ∀ pubkey ∈ pubkeys, ∃ key, keystore.getKey (hashes.hash160 pubkey) = some key
      ∧ signing.getPubKey key = pubkey)
    {nSigned : ℕ} (hle : nSigned ≤ nRequired) (scriptSig : CScript) :
  ∃ sigs, List.Forall₂ (Signs crypto signing keystore txTo nIn script) sigs (pubkeys.take (nRequired - nSigned))
    ∧ signNLoop signing hashes.hash160 keystore (Int32.ofNat bHashType.toNat) rand
        (signatureHash crypto script txTo nIn (Int32.ofNat bHashType.toNat)) nRequired pubkeys nSigned scriptSig
      = (nSigned + sigs.length, scriptSig ++ pushAll sigs)
  := by
  induction pubkeys generalizing nSigned scriptSig with
  | nil => exact ⟨[], by simp, by rw [signNLoop]; simp [pushAll]⟩
  | cons pubkey pubkeys ih =>
    obtain ⟨⟨key, hget, hkey⟩, hpubkeys⟩ := List.forall_mem_cons.mp hpubkeys
    rw [signNLoop]
    split_ifs with hlt
    · obtain ⟨v, hsign, hsigns⟩ := @sign1_eq crypto signing hashes keystore txTo nIn rand bHashType hready script
        _ key hget
      rw [hkey] at hsigns
      obtain ⟨sigs, hforall, hloop⟩ := ih hpubkeys (Nat.succ_le_of_lt hlt) (scriptSig ++ pushData v)
      refine ⟨v :: sigs, ?_, ?_⟩
      · have hcount : nRequired - nSigned = (nRequired - (nSigned + 1)) + 1 := by omega
        rw [hcount, List.take_succ_cons]
        exact .cons hsigns hforall
      · rw [hsign]
        dsimp only
        rw [hloop, List.length_cons, pushAll, pushAll, List.flatMap_cons, List.append_assoc]
        congr 1
        omega
    · have hcount : nRequired - nSigned = 0 := by omega
      rw [hcount]
      exact ⟨[], .nil, by simp [pushAll]⟩

theorem solves_multiSig
    (hready : keystore.Ready signing hashes.hash160) (hlawful : signing.Lawful)
    {nSigs : ℕ} {keyOps : List (ℕ × Bytes)} (hscript : MultiSigScript script nSigs keyOps)
    (hnames : keystore.Names signing hashes.hash160 script)
    (hhave : ∀ pubkey ∈ keyOps.map Prod.snd, keystore.haveKey (hashes.hash160 pubkey) = true) :
  ∃ values, Solves crypto signing hashes keystore rand bHashType txTo nIn script values
  := by
  have hle := hscript.le_keys
  have hkeys := hscript.keys_le
  have hpubkeys : ∀ pubkey ∈ keyOps.map Prod.snd, ∃ key, keystore.getKey (hashes.hash160 pubkey) = some key
      ∧ signing.getPubKey key = pubkey := by
    intro pubkey hmem
    obtain ⟨key, hget⟩ := hready.getKey _ (hhave pubkey hmem)
    refine ⟨key, hget, hnames pubkey ?_ key hget⟩
    rw [hscript.solver_eq]
    exact List.mem_cons_of_mem _ (List.mem_append_left _ hmem)
  obtain ⟨sigs, hforall, hloop⟩ := @signNLoop_all crypto signing hashes keystore txTo nIn rand bHashType hready
    script nSigs (keyOps.map Prod.snd) hpubkeys 0 (Nat.zero_le _) [0]
  rw [Nat.sub_zero] at hforall
  have hcount : sigs.length = nSigs := by
    rw [hforall.length_eq, List.length_take, List.length_map]
    omega
  have hsigns : ∀ v ∈ sigs, ∃ pubkey, Signs crypto signing keystore txTo nIn script v pubkey := by
    intro v hv
    obtain ⟨i, hi, rfl⟩ := List.getElem_of_mem hv
    obtain ⟨hsame, hget⟩ := List.forall₂_iff_get.mp hforall
    exact ⟨_, hget i hi (hsame ▸ hi)⟩
  have hkeep : withoutSigs sigs.reverse script = script := by
    have hall : ∀ sigs' : List Bytes, (∀ v ∈ sigs', v ∈ sigs) → withoutSigs sigs' script = script := by
      intro sigs'
      induction sigs' with
      | nil => exact fun _ => rfl
      | cons v sigs' ih =>
        intro hsub
        obtain ⟨hv, hsub⟩ := List.forall_mem_cons.mp hsub
        obtain ⟨pubkey, hsign⟩ := hsigns v hv
        have hlength := hsign.length hready hlawful
        have hdelete : findAndDelete (pushData v) script = script := by
          apply findAndDelete_pushData (by omega)
          intro op hop hdata
          rw [hscript.ops, multiSigOps, List.mem_cons, List.mem_append] at hop
          have hnil : ∀ opcode : ℕ, op ≠ (opcode, []) := by
            rintro opcode rfl
            obtain rfl : [] = v := hdata
            simp at hlength
          rcases hop with hop | hop | hop
          · exact absurd hop (hnil _)
          · obtain ⟨key, hget, hkey⟩ := hpubkeys op.2 (List.mem_map_of_mem hop)
            have hhead := (hready.setPubKey _ key hget).2.2
            rw [hkey, hdata] at hhead
            exact absurd (hsign.head? hlawful) hhead
          · simp only [List.mem_cons, List.not_mem_nil, or_false] at hop
            rcases hop with hop | hop
            · exact absurd hop (hnil _)
            · exact absurd hop (hnil _)
        rw [withoutSigs, List.foldl_cons, hdelete]
        exact ih hsub
    apply hall
    intro v hv
    exact List.mem_reverse.mp hv
  have hnumber : (UInt8.ofNat nSigs).toNat = nSigs := by
    rw [UInt8.toNat_ofNat', Nat.mod_eq_of_lt (by omega)]
  use [] :: sigs
  constructor
  · refine ⟨TX_MULTISIG, by decide, ?_⟩
    rw [signSolver, hscript.solver_eq]
    dsimp only
    rw [signN, List.tail_cons, List.dropLast_concat, List.head?_cons, Option.getD_some, List.head?_cons,
      Option.getD_some, hnumber]
    dsimp only
    rw [hloop, hcount, Nat.zero_add, beq_self_eq_true]
    rfl
  · exact hscript.length_le
  · exact MultiSigOutput.isPayToScriptHash_multiSig hscript
  · rw [List.length_cons]
    omega
  · intro v hv
    rcases List.mem_cons.mp hv with rfl | hv
    · exact Nat.zero_le _
    · obtain ⟨pubkey, hsign⟩ := hsigns v hv
      exact (hsign.length hready hlawful).2.trans (by decide)
  · intro scriptSig
    rw [List.reverse_cons, hscript.evalScript_run (by rw [List.length_reverse, hcount]) (Nat.zero_le _), hkeep,
      succeeds_singleton, Matching.search_iff, Matching.sublistForall₂_reverse]
    apply List.sublistForall₂_iff.mpr ⟨_, _, List.take_sublist nSigs (keyOps.map Prod.snd)⟩
    apply hforall.imp
    intro v pubkey hsign
    rw [checkSig_setScriptSig]
    apply hsign.checkSig hready hlawful

/-- What the store counts as its own, and what is no script hash, it solves. -/
theorem solves_of_isMine
    (hready : keystore.Ready signing hashes.hash160) (hlawful : signing.Lawful) {script : CScript} {fuel : ℕ}
    (hnames : keystore.Names signing hashes.hash160 script) (hbare : isPayToScriptHash script = false)
    (hmine : isMineLoop hashes.hash160 keystore fuel script = true) :
  ∃ values, Solves crypto signing hashes keystore rand bHashType txTo nIn script values
  := by
  cases fuel with
  | zero => cases hmine
  | succ fuel =>
    rw [isMineLoop] at hmine
    split at hmine
    · next vSolutions hsolver =>
      obtain ⟨_, key, _, _, rfl⟩ := solver_pubKey_iff.mp hsolver
      exact solves_pubKey hready hlawful hnames hsolver hmine
    · next vSolutions hsolver =>
      obtain ⟨_, hash, _, _, rfl⟩ := solver_pubKeyHash_iff.mp hsolver
      exact solves_pubKeyHash hready hlawful hsolver hmine
    · next vSolutions hsolver =>
      obtain ⟨scriptID, rfl⟩ := eq_scriptForScriptID_of_solver hsolver
      rw [isPayToScriptHash_scriptForScriptID] at hbare
      cases hbare
    · next vSolutions hsolver =>
      obtain ⟨nSigs, keyOps, hscript, rfl⟩ := multiSigScript_of_solver hsolver
      rw [List.tail_cons, List.dropLast_concat, beq_iff_eq, haveKeys, List.countP_eq_length] at hmine
      exact solves_multiSig hready hlawful hscript hnames hmine
    · cases hmine

end Solve

/-! ## Spending -/

section Spend

variable {crypto : Crypto} {signing : Signing} {hashes : ScriptHashes} {keystore : CKeyStore}
variable {txTo : CTransaction} {nIn : ℕ} {rand : uint160 → ℕ} {bHashType : UInt8}

/-- The script of the store behind a script hash. -/
def CKeyStore.redeemScript (keystore : CKeyStore) (scriptPubKey : CScript) : Option CScript :=
  match solver scriptPubKey with
  | some (TX_SCRIPTHASH, vSolutions) => keystore.getCScript (uint160OfBytes (vSolutions.head?.getD []))
  | _ => none

theorem CKeyStore.redeemScript_scriptForScriptID (keystore : CKeyStore) (scriptID : uint160) :
  keystore.redeemScript (scriptForScriptID scriptID) = keystore.getCScript scriptID
  := by
  rw [redeemScript, solver_scriptForScriptID]
  dsimp only
  rw [List.head?_cons, Option.getD_some, uint160OfBytes_serializeUint160]

variable {script : CScript}

theorem CKeyStore.redeemScript_of_bare
    (keystore : CKeyStore) (h : isPayToScriptHash script = false) :
  keystore.redeemScript script = none
  := by
  rw [redeemScript]
  split
  · next vSolutions hsolver =>
    obtain ⟨scriptID, rfl⟩ := eq_scriptForScriptID_of_solver hsolver
    rw [isPayToScriptHash_scriptForScriptID] at h
    cases h
  · rfl

theorem Solves.verifyScript
    {values : List Bytes}
    (h : Solves crypto signing hashes keystore rand bHashType txTo nIn script values) (scriptSig : CScript) :
  CorgiCoin.verifyScript (evalScript crypto signing.toEcdsa hashes 0) (pushAll values) script
    (txTo.setScriptSig nIn scriptSig) nIn true = true
  := by
  have hlength := h.length_le
  have hpushable : Pushable values :=
    ⟨hlength.trans (by decide), fun v hv => (h.size_le v hv).trans (by decide)⟩
  rw [MultiSigOutput.verifyScript_eq_succeeds hpushable.evalScript_eq h.bare, h.run]

/-- A script behind its hash is accepted with the values that satisfy it, when it can be pushed. -/
theorem Solves.verifyScript_scriptHash
    {values : List Bytes}
    (h : Solves crypto signing hashes keystore rand bHashType txTo nIn script values) (scriptSig : CScript) :
  CorgiCoin.verifyScript (evalScript crypto signing.toEcdsa hashes 0) (pushAll values ++ pushData script)
      (scriptForScriptID (hashes.hash160 script)) (txTo.setScriptSig nIn scriptSig) nIn true = true
    ↔ script.length ≤ 520
  := by
  have hlength := h.length_le
  rw [← pushAll_concat]
  by_cases hsize : script.length ≤ 520
  · have hpushable : Pushable (values ++ [script]) := by
      constructor
      · rw [List.length_append, List.length_singleton]
        omega
      · intro v hv
        rcases List.mem_append.mp hv with hv | hv
        · exact (h.size_le v hv).trans (by decide)
        · rw [List.mem_singleton.mp hv]
          exact hsize
    have hrun := @Pushable.evalScript_eq _ hpushable crypto signing.toEcdsa hashes 0
      (txTo.setScriptSig nIn scriptSig) nIn
    rw [List.reverse_append, List.reverse_singleton, List.singleton_append] at hrun
    rw [MultiSigOutput.verifyScript_scriptHash hrun hpushable.isPushOnly (by rw [List.length_reverse]; omega),
      h.run]
    exact iff_of_true rfl hsize
  · have hops : instructions (pushAll (values ++ [script]))
        = ((values ++ [script]).map (fun v => (pushOpcode v, v)), true) := by
      apply instructions_pushAll
      intro v hv
      rcases List.mem_append.mp hv with hv | hv
      · exact Nat.lt_of_le_of_lt (h.size_le v hv) (by decide)
      · rw [List.mem_singleton.mp hv]
        exact Nat.lt_of_le_of_lt h.script_length (by decide)
    have hrun : evalScript crypto signing.toEcdsa hashes 0 [] (pushAll (values ++ [script]))
        (txTo.setScriptSig nIn scriptSig) nIn = none := by
      apply evalScript_pushes_large hops
      · intro op hop
        obtain ⟨v, -, rfl⟩ := List.mem_map.mp hop
        apply pushOpcode_le
      · refine ⟨(pushOpcode script, script), List.mem_map_of_mem ?_, Nat.lt_of_not_le hsize⟩
        exact List.mem_append_right _ (List.mem_singleton_self _)
      · simp only [List.length_map, List.length_append, List.length_nil, List.length_singleton]
        omega
    rw [CorgiCoin.verifyScript, hrun]
    exact iff_of_false Bool.false_ne_true hsize

/-- What the wallet counts as its own can be spent just when it is behind no script hash, or behind one
script hash and the script there can be pushed. -/
theorem isMine_spendable_iff
    (hready : keystore.Ready signing hashes.hash160) (hlawful : signing.Lawful) {scriptPubKey : CScript}
    (hnames : ∀ script, script = scriptPubKey ∨ keystore.redeemScript scriptPubKey = some script →
      keystore.Names signing hashes.hash160 script)
    (hin : nIn < txTo.vin.length) (hmine : isMine hashes.hash160 keystore scriptPubKey = true) :
  (∃ txTo', signSignature crypto signing hashes keystore rand scriptPubKey txTo nIn
      (Int32.ofNat bHashType.toNat) = some (txTo', true))
    ↔ ∀ subscript, keystore.redeemScript scriptPubKey = some subscript →
      isPayToScriptHash subscript = false ∧ subscript.length ≤ 520
  := by
  rw [signSignature, if_neg (Nat.not_le.mpr hin)]
  dsimp only
  cases hbare : isPayToScriptHash scriptPubKey with
  | false =>
    obtain ⟨values, hsolves⟩ := @solves_of_isMine crypto signing hashes keystore txTo nIn rand bHashType
      hready hlawful _ _ (hnames _ (.inl rfl)) hbare hmine
    obtain ⟨whichType, htype, hsolve⟩ := hsolves.solve
    rw [hsolve]
    dsimp only
    rw [if_neg (by decide), if_neg htype, hsolves.verifyScript]
    apply iff_of_true ⟨_, rfl⟩
    intro subscript hredeem
    rw [keystore.redeemScript_of_bare hbare] at hredeem
    cases hredeem
  | true =>
    obtain ⟨scriptID, rfl⟩ := eq_scriptForScriptID hbare
    rw [isMine, isMineLoop, solver_scriptForScriptID] at hmine
    dsimp only at hmine
    rw [List.head?_cons, Option.getD_some, uint160OfBytes_serializeUint160] at hmine
    rw [MultiSigOutput.signSolver_scriptHash, keystore.redeemScript_scriptForScriptID]
    rw [keystore.redeemScript_scriptForScriptID] at hnames
    cases hstored : keystore.getCScript scriptID with
    | none =>
      rw [hstored] at hmine
      cases hmine
    | some subscript =>
      rw [hstored] at hmine hnames
      dsimp only [Option.isSome_some, Option.getD_some] at hmine ⊢
      rw [if_neg (by decide), if_pos rfl]
      simp only [Option.some.injEq, forall_eq']
      cases hnested : isPayToScriptHash subscript with
      | true =>
        obtain ⟨scriptID', rfl⟩ := eq_scriptForScriptID hnested
        simp only [MultiSigOutput.signSolver_scriptHash, bne_self_eq_false, Bool.and_false, Bool.not_false,
          if_true, Option.some.injEq, Prod.mk.injEq, Bool.false_eq_true, and_false, exists_false, Bool.true_eq_false,
          false_and]
      | false =>
        obtain ⟨values, hsolves⟩ := @solves_of_isMine crypto signing hashes keystore
          (txTo.setScriptSig nIn subscript) nIn rand bHashType hready hlawful _ _ (hnames _ (.inr rfl)) hnested
          hmine
        obtain ⟨whichType, htype, hsolve⟩ := hsolves.solve
        have hhash := hready.script _ _ hstored
        have hbne : (whichType != TX_SCRIPTHASH) = true := bne_iff_ne.mpr htype
        simp only [hsolve, hbne, Bool.and_self, Bool.not_true, Bool.false_eq_true, if_false, true_and]
        rw [← hhash, ← hsolves.verifyScript_scriptHash (pushAll values ++ pushData subscript)]
        simp only [Option.some.injEq, Prod.mk.injEq, exists_eq_left']

end Spend

/-! ## A key behind a script hash -/

section Single

open MultiSigOutput

/-- A multi-signature of one key, which is stored under its hash. -/
def singleScript : CScript := [0x51] ++ pushData (pairKey 1) ++ [0x51, 0xae]

def singleStore : CKeyStore := (pairStore 1).addCScript pairHash160 singleScript

theorem eq_of_getKey_pairStore {address : uint160} {key : CKey} (h : (pairStore 1).getKey address = some key) :
  address = pairHash160 (pairKey 1) ∧ key = ⟨1, true⟩
  := by
  change (if address = pairHash160 (pairKey 1) then some _ else none) = _ at h
  split_ifs at h with haddress
  exact ⟨haddress, (Option.some.inj h).symm⟩

theorem pairStore_ready :
  (pairStore 1).Ready pairSigning pairHashes.hash160
  := by
  constructor
  · intro address h
    obtain rfl : address = pairHash160 (pairKey 1) := beq_iff_eq.mp h
    exact ⟨⟨1, true⟩, rfl⟩
  · intro address key h
    obtain ⟨rfl, rfl⟩ := eq_of_getKey_pairStore h
    exact ⟨rfl, rfl⟩
  · exact fun _ _ _ _ _ => rfl
  · intro address key _ n hash vchSig hsign
    rw [← Option.some.inj hsign, List.length_cons, List.length_append, length_toBE32, serializeUint256,
      length_toLE]
    decide
  · intro address key h
    obtain ⟨rfl, rfl⟩ := eq_of_getKey_pairStore h
    decide
  · intro hash script h
    rw [CKeyStore.getCScript, pairStore, ExtTreeMap.getElem?_empty] at h
    cases h

theorem pairStore_names :
  ∀ script ∈ [scriptForScriptID 0, singleScript], (pairStore 1).Names pairSigning pairHashes.hash160 script
  := by
  intro script hscript pubkey hpubkey key hget
  obtain ⟨haddress, rfl⟩ := eq_of_getKey_pairStore hget
  have hfound : ∀ pubkey ∈ [serializeUint160 0, [1], pairKey 1],
      pairHash160 pubkey = pairHash160 (pairKey 1) → pairKey 1 = pubkey := by
    decide
  apply hfound pubkey _ haddress
  rcases List.mem_pair.mp hscript with rfl | rfl
  · obtain rfl := List.mem_singleton.mp hpubkey
    exact List.mem_cons_self
  · have hsolver : ((solver singleScript).map Prod.snd).getD [] = [[1], pairKey 1, [1]] := by
      decide
    rw [hsolver] at hpubkey
    simp only [List.mem_cons, List.not_mem_nil, or_false] at hpubkey ⊢
    tauto

/-- The key signs for the script behind its hash. -/
theorem singleStore_spends :
  ∃ txTo', signSignature sampleCrypto pairSigning pairHashes singleStore (fun _ => 0) (scriptForScriptID 0)
    pairTx 0 (Int32.ofNat (1 : UInt8).toNat) = some (txTo', true)
  := by
  apply (isMine_spendable_iff (pairStore_ready.addCScript singleScript) pairSigning_lawful ?_ (by decide)
    (by decide)).mpr
  · intro subscript h
    rw [CKeyStore.redeemScript_scriptForScriptID] at h
    obtain rfl : singleScript = subscript := Option.some.inj h
    decide
  · rintro script (rfl | h)
    · exact pairStore_names _ List.mem_cons_self
    · rw [CKeyStore.redeemScript_scriptForScriptID] at h
      rw [← Option.some.inj h]
      exact pairStore_names _ (List.mem_cons_of_mem _ List.mem_cons_self)

end Single

end CorgiCoin
