import CorgiCoin.CombineSignatures

/-!
# Partial signatures of a multi-signature output

Each of several parties signs with the keys it has, and `CombineSignatures` merges what they signed two
by two.  In whatever order and however often that is done, the result satisfies the output just when
there were valid signatures of enough different keys.
-/

namespace CorgiCoin

open Std Codec Exec txnouttype

/-! ## The transaction that is signed -/

/-- A transaction with the scripts of its inputs blank, which is what it keeps while it is being signed. -/
def CTransaction.unsigned (tx : CTransaction) : CTransaction :=
  { tx with vin := tx.vin.map (fun txin => { txin with scriptSig := [] }) }

theorem CTransaction.unsigned_setScriptSig (tx : CTransaction) (i : ℕ) (scriptSig : CScript) :
  (tx.setScriptSig i scriptSig).unsigned = tx.unsigned
  := by
  rw [unsigned, unsigned, setScriptSig]
  congr 1
  apply List.ext_getElem?
  intro k
  simp only [List.getElem?_map, List.getElem?_modify]
  cases tx.vin[k]? with
  | none => rfl
  | some txin =>
    simp only [Option.map_eq_map, Option.map_some]
    split_ifs <;> rfl

/-- The hash that is signed does not depend on the scripts of the inputs. -/
theorem signatureHash_congr
    (crypto : Crypto) (scriptCode : CScript) {tx txTo : CTransaction} (nIn : ℕ) (nHashType : Int32)
    (h : tx.unsigned = txTo.unsigned) :
  signatureHash crypto scriptCode tx nIn nHashType = signatureHash crypto scriptCode txTo nIn nHashType
  := by
  obtain ⟨hversion, hvin, hvout, hlock⟩ := CTransaction.mk.inj h
  have hlength : tx.vin.length = txTo.vin.length := by
    rw [← List.length_map, hvin, List.length_map]
  have hblanks : ∀ scriptCode, blankScripts scriptCode nIn tx.vin = blankScripts scriptCode nIn txTo.vin := by
    intro scriptCode
    rw [blankScripts, blankScripts, hvin]
  rw [signatureHash, signatureHash, signatureBytes, signatureBytes]
  simp only [hlength, hblanks, hversion, hvout, hlock]

/-! ## Outputs and signatures -/

/-- What OpenSSL does: a signature is a DER sequence of at most 72 bytes, and it verifies under the public
key of the key it was made with. -/
structure Signing.Lawful (signing : Signing) : Prop where
  length_sign : ∀ n key hash vchSig, signing.sign n key hash = some vchSig → vchSig.length ≤ 72
  head_sign : ∀ n key hash vchSig, signing.sign n key hash = some vchSig → vchSig.head? = some 0x30
  verify_sign : ∀ n key hash vchSig, signing.sign n key hash = some vchSig →
    signing.verify (signing.getPubKey key) hash vchSig = true

/-- A key store of keys and scripts that are stored under their hashes. -/
structure CKeyStore.Holds (keystore : CKeyStore) (signing : Signing) (hash160 : Bytes → uint160) : Prop where
  key : ∀ address key, keystore.getKey address = some key → hash160 (signing.getPubKey key) = address
  script : ∀ hash script, keystore.getCScript hash = some script → hash160 script = hash

/-- A multi-signature output of different public keys, bare or behind the hash of its script, in the
setting of a curve and of hashes.  A public key starts with another byte than a signature. -/
structure MultiSigOutput (signing : Signing) (hashes : ScriptHashes) where
  script : CScript
  nSigs : ℕ
  keyOps : List (ℕ × Bytes)
  isMultiSig : MultiSigScript script nSigs keyOps
  nodup : (keyOps.map Prod.snd).Nodup
  head_key : ∀ key ∈ keyOps.map Prod.snd, key.head? ≠ some 0x30
  fScriptHash : Bool
  script_length : fScriptHash = true → script.length ≤ 520

/-- The types of the solver are those of the instructions. -/
theorem multiSigScript_of_solver
    {script : CScript} {found : List Bytes} (h : solver script = some (TX_MULTISIG, found)) :
  ∃ nSigs keyOps, MultiSigScript script nSigs keyOps
    ∧ found = [UInt8.ofNat nSigs] :: (keyOps.map Prod.snd ++ [[UInt8.ofNat keyOps.length]])
  := by
  obtain ⟨m, n, keyOps, hm, hle, hn, rfl, hsize, hops, rfl⟩ := solver_multiSig_iff.mp h
  exact ⟨m, keyOps, ⟨hops, hsize, hm, hle, hn⟩, rfl⟩

theorem MultiSigScript.solver_eq
    {script : CScript} {nSigs : ℕ} {keyOps : List (ℕ × Bytes)} (h : MultiSigScript script nSigs keyOps) :
  solver script
    = some (TX_MULTISIG, [UInt8.ofNat nSigs] :: (keyOps.map Prod.snd ++ [[UInt8.ofNat keyOps.length]]))
  := solver_multiSig_iff.mpr ⟨_, _, _, h.pos, h.le_keys, h.keys_le, rfl, h.size, h.ops, rfl⟩

namespace MultiSigOutput

variable {signing : Signing} {hashes : ScriptHashes} (out : MultiSigOutput signing hashes)

def keys : List Bytes := out.keyOps.map Prod.snd

def scriptPubKey : CScript :=
  if out.fScriptHash then scriptForScriptID (hashes.hash160 out.script) else out.script

/-- What a script that signs the output pushes last: the script behind the hash. -/
def behind : List Bytes := if out.fScriptHash then [out.script] else []

/-- The assumptions on the keys and on the hash: `SetPubKey` takes the public key of a key, and neither the
keys nor the script share their hashes with others. -/
structure Sound : Prop where
  setPubKey : ∀ key, signing.setPubKey (signing.getPubKey key) = true
  hash_key : ∀ key, ∀ pubkey ∈ out.keys,
    hashes.hash160 (signing.getPubKey key) = hashes.hash160 pubkey → signing.getPubKey key = pubkey
  hash_script : out.fScriptHash = true → ∀ script,
    hashes.hash160 script = hashes.hash160 out.script → script = out.script

section Input

variable (crypto : Crypto) (txTo : CTransaction) (nIn : ℕ)

/-- Whether a value is a valid signature of the input under a key. -/
def check (vchSig vchPubKey : Bytes) : Bool :=
  checkSig crypto signing.toEcdsa vchSig vchPubKey out.script txTo nIn 0

/-- `VerifyScript` of the input. -/
def accepts (scriptSig : CScript) : Bool :=
  verifyScript (evalScript crypto signing.toEcdsa hashes 0) scriptSig out.scriptPubKey txTo nIn true

/-- `CombineSignatures` for the input. -/
def combine (scriptSig1 scriptSig2 : CScript) : CScript :=
  combineSignatures crypto signing.toEcdsa txTo nIn hashes out.scriptPubKey scriptSig1 scriptSig2

/-- The values that a script holds for the multi-signature. -/
def held (scriptSig : CScript) : List Bytes :=
  let values := (stackLeft crypto signing.toEcdsa hashes scriptSig).reverse
  if out.fScriptHash then values.dropLast else values

/-- The keys that some of the values is a valid signature of. -/
def signed (values : List Bytes) : List Bytes := signedKeys (out.check crypto txTo nIn) out.keys values

/-- No value is a valid signature of the input under two keys of the output. -/
def SignsOnce (values : List Bytes) : Prop := OneKey (out.check crypto txTo nIn) out.keys values

/-- The scripts that sign the input: empty ones, what `SignSignature` leaves, whatever keys it has, whatever
the hash type that the signatures carry and whether or not it succeeds, and combinations.  The scripts of
the inputs are not the same while the transaction is being signed. -/
inductive Produced : CScript → Prop where
  | empty : Produced []
  | signed {keystore : CKeyStore} {rand : uint160 → ℕ} {tx tx' : CTransaction} {back : UInt8}
      {fSolved : Bool} {txin : CTxIn} : keystore.Holds signing hashes.hash160 →
    tx.unsigned = txTo.unsigned →
    signSignature crypto signing hashes keystore rand out.scriptPubKey tx nIn (Int32.ofNat back.toNat)
      = some (tx', fSolved) → tx'.vin[nIn]? = some txin → Produced txin.scriptSig
  | combined {scriptSig1 scriptSig2 : CScript} : Produced scriptSig1 → Produced scriptSig2 →
    Produced (out.combine crypto txTo nIn scriptSig1 scriptSig2)

end Input

/-! ## Signatures and keys -/

/-- A value is a signature of a hash that was made with a key, and a hash type. -/
def Made (signing : Signing) (hash : uint256) (back : UInt8) (v key : Bytes) : Prop :=
  ∃ n ckey vchSig, signing.getPubKey ckey = key ∧ signing.sign n ckey hash = some vchSig ∧ v = vchSig ++ [back]

/-- A value is a signature, of whatever hash, and a hash type. -/
def IsSignature (signing : Signing) (v : Bytes) : Prop := ∃ hash back key, Made signing hash back v key

section Signatures

variable {out} {crypto : Crypto} {txTo : CTransaction} {nIn : ℕ} {v key : Bytes}

theorem check_nil (key : Bytes) :
  out.check crypto txTo nIn [] key = false
  := rfl

/-- What is made with a key of the output for the hash of the input is valid under the key. -/
theorem Made.check_eq
    (hlawful : signing.Lawful) (hsound : out.Sound) {back : UInt8}
    (h : Made signing (signatureHash crypto out.script txTo nIn (Int32.ofNat back.toNat)) back v key) :
  out.check crypto txTo nIn v key = true
  := by
  obtain ⟨n, ckey, vchSig, rfl, hsign, rfl⟩ := h
  rw [check, checkSig, List.getLast?_concat]
  dsimp only
  rw [if_neg (by simp), List.dropLast_concat, hsound.setPubKey, hlawful.verify_sign n ckey _ vchSig hsign]
  rfl

theorem IsSignature.length_le (hlawful : signing.Lawful) (h : IsSignature signing v) :
  v.length ≤ 73
  := by
  obtain ⟨hash, back, key, n, ckey, vchSig, -, hsign, rfl⟩ := h
  have hlength := hlawful.length_sign _ _ _ _ hsign
  rw [List.length_append, List.length_singleton]
  omega

/-- A signature is not a public key. -/
theorem IsSignature.not_mem_keys (hlawful : signing.Lawful) (h : IsSignature signing v) :
  v ∉ out.keys
  := by
  obtain ⟨hash, back, key, n, ckey, vchSig, -, hsign, rfl⟩ := h
  intro hmem
  apply out.head_key _ hmem
  rw [List.head?_append, hlawful.head_sign _ _ _ _ hsign]
  rfl

theorem not_mem_keys_nil :
  [] ∉ out.keys
  := by
  intro hmem
  obtain ⟨op, hop, hnil⟩ := List.mem_map.mp hmem
  have hlength := (out.isMultiSig.length_key hop).1
  rw [hnil] at hlength
  cases hlength

/-- What is not a key is not deleted from the script. -/
theorem findAndDelete_of_not_mem (hv : v ∉ out.keys) (hlength : v.length < 2 ^ 32) :
  findAndDelete (pushData v) out.script = out.script
  := by
  apply @findAndDelete_of_instructions _ (fun op => op = (pushOpcode v, v))
  · intro script hpre
    obtain ⟨rest, rfl⟩ := List.isPrefixOf_iff_prefix.mp hpre
    exact ⟨_, _, rest, getOp_pushData hlength rest, rfl⟩
  · intro op hop
    have hnumber : ∀ opcode, 0 < opcode → ((opcode, []) : ℕ × Bytes) ≠ (pushOpcode v, v) := by
      intro opcode hpos heq
      obtain ⟨hopcode, hnil⟩ := Prod.mk.inj heq
      rw [← hnil] at hopcode
      rw [hopcode] at hpos
      exact absurd hpos (by decide)
    rw [out.isMultiSig.ops, multiSigOps, List.mem_cons, List.mem_append] at hop
    rcases hop with rfl | hop | hop
    · apply hnumber
      simp only [OP_1]
      omega
    · rintro rfl
      exact hv (List.mem_map_of_mem hop)
    · simp only [List.mem_cons, List.not_mem_nil, or_false] at hop
      rcases hop with rfl | rfl
      · apply hnumber
        simp only [OP_1]
        omega
      · apply hnumber
        decide

theorem withoutSigs_eq {sigs : List Bytes} (h : ∀ v ∈ sigs, v ∉ out.keys ∧ v.length < 2 ^ 32) :
  withoutSigs sigs out.script = out.script
  := by
  induction sigs with
  | nil => rfl
  | cons v sigs ih =>
    obtain ⟨⟨hv, hlength⟩, hsigs⟩ := List.forall_mem_cons.mp h
    rw [withoutSigs, List.foldl_cons, findAndDelete_of_not_mem hv hlength]
    exact ih hsigs

end Signatures

/-! ## Partial signatures -/

/-- The values of a partial signature: the element more that the opcode takes, the signatures, and
places for missing ones. -/
def partialValues (sigs : List Bytes) (nMissing : ℕ) : List Bytes :=
  [] :: (sigs ++ List.replicate nMissing [])

variable (crypto : Crypto) (txTo : CTransaction) (nIn : ℕ) in
/-- Valid signatures of the input, in the order of the keys, and not too many places. -/
structure Partial (sigs : List Bytes) (nMissing : ℕ) : Prop where
  isSignature : ∀ v ∈ sigs, IsSignature signing v
  valid : List.SublistForall₂ (fun v key => out.check crypto txTo nIn v key = true) sigs out.keys
  length_le : sigs.length + nMissing ≤ out.nSigs

section Partial

variable {out} {crypto : Crypto} {txTo : CTransaction} {nIn : ℕ} {sigs : List Bytes} {nMissing : ℕ}

/-- Each value is empty or a signature. -/
theorem Partial.isSignature_of_mem
    (h : out.Partial crypto txTo nIn sigs nMissing) {v : Bytes} (hv : v ∈ partialValues sigs nMissing) :
  v = [] ∨ IsSignature signing v
  := by
  rw [partialValues, List.mem_cons, List.mem_append] at hv
  rcases hv with rfl | hv | hv
  · exact .inl rfl
  · exact .inr (h.isSignature v hv)
  · exact .inl (List.eq_of_mem_replicate hv)

theorem Partial.pushable (hlawful : signing.Lawful) (h : out.Partial crypto txTo nIn sigs nMissing) :
  Pushable (partialValues sigs nMissing ++ out.behind)
  := by
  have hlength := h.length_le
  have hkeys := out.isMultiSig.le_keys.trans out.isMultiSig.keys_le
  constructor
  · have hbehind : out.behind.length ≤ 1 := by
      rw [behind]
      split_ifs
      · exact le_rfl
      · exact Nat.zero_le _
    simp only [partialValues, List.length_append, List.length_cons, List.length_replicate]
    omega
  · intro v hv
    rcases List.mem_append.mp hv with hv | hv
    · rcases h.isSignature_of_mem hv with rfl | hsig
      · exact Nat.zero_le _
      · exact (hsig.length_le hlawful).trans (by decide)
    · rw [behind] at hv
      split_ifs at hv with hhash
      · rw [List.mem_singleton.mp hv]
        exact out.script_length hhash
      · cases hv

/-- The keys that the values are signed with are those of the signatures. -/
theorem signed_partialValues :
  out.signed crypto txTo nIn (partialValues sigs nMissing) = out.signed crypto txTo nIn sigs
  := by
  apply List.filter_congr
  intro key _
  rw [partialValues, List.any_cons, List.any_append, check_nil, Bool.false_or]
  have hmissing : (List.replicate nMissing []).any (fun v => out.check crypto txTo nIn v key) = false := by
    rw [List.any_eq_false]
    intro v hv
    rw [List.eq_of_mem_replicate hv, check_nil]
    exact Bool.false_ne_true
  rw [hmissing, Bool.or_false]

theorem signed_eq (values : List Bytes) :
  out.signed crypto txTo nIn values
    = out.keys.filter (fun key => ∃ v ∈ values, out.check crypto txTo nIn v key = true)
  := by
  apply List.filter_congr
  intro key _
  rw [Bool.eq_iff_iff, List.any_eq_true, decide_eq_true_iff]

/-- Where no signature is valid under two keys, there are as many signed keys as signatures. -/
theorem Partial.length_signed
    (h : out.Partial crypto txTo nIn sigs nMissing) (hone : out.SignsOnce crypto txTo nIn sigs) :
  (out.signed crypto txTo nIn sigs).length = sigs.length
  := by
  have hpartners : List.SublistForall₂ (fun v key => key ∈ out.keys ∧ out.check crypto txTo nIn v key = true)
      sigs out.keys := by
    obtain ⟨keys, hforall, hsub⟩ := List.sublistForall₂_iff.mp h.valid
    refine List.sublistForall₂_iff.mpr ⟨keys, ?_, hsub⟩
    rw [List.forall₂_iff_get] at hforall ⊢
    exact ⟨hforall.1, fun i hi hi' => ⟨hsub.subset (List.getElem_mem _), hforall.2 i hi hi'⟩⟩
  have honly : ∀ v ∈ sigs, ∀ key, (key ∈ out.keys ∧ out.check crypto txTo nIn v key = true) →
      ∀ key' ∈ out.keys, out.check crypto txTo nIn v key' = true → key' = key := by
    intro v hv key hkey key' hkey' hcheck
    exact hone v hv key' hkey' key hkey.1 hcheck hkey.2
  rw [signed_eq]
  exact Nat.le_antisymm (Matching.length_accepted_le out.nodup hpartners honly)
    ((Matching.sublistForall₂_iff_length_le out.nodup hpartners honly).mp h.valid)

end Partial

/-! ## What is accepted -/

/-- Whether a run succeeds with a true value on top. -/
def succeeds : Option (List Bytes) → Bool
  | some (top :: _) => castToBool top
  | _ => false

section Accepted

variable {out} {crypto : Crypto} {txTo : CTransaction} {nIn : ℕ} {sigs : List Bytes} {nMissing : ℕ}

/-- The script of the keys takes the values of a partial signature when no signature is missing. -/
theorem Partial.succeeds_iff
    (hlawful : signing.Lawful) (h : out.Partial crypto txTo nIn sigs nMissing) :
  succeeds (evalScript crypto signing.toEcdsa hashes 0 (partialValues sigs nMissing).reverse out.script txTo nIn)
      = true
    ↔ out.nSigs ≤ sigs.length
  := by
  have hlength := h.length_le
  by_cases hshort : sigs.length + nMissing < out.nSigs
  · rw [out.isMultiSig.evalScript_short (by simp [partialValues]; omega)]
    apply iff_of_false Bool.false_ne_true
    omega
  · have hreverse : (partialValues sigs nMissing).reverse
        = (sigs ++ List.replicate nMissing []).reverse ++ [[]] := List.reverse_cons
    have hkeep : withoutSigs (sigs ++ List.replicate nMissing []).reverse out.script = out.script := by
      apply withoutSigs_eq
      intro v hv
      rcases h.isSignature_of_mem (List.mem_cons_of_mem _ (List.mem_reverse.mp hv)) with rfl | hsig
      · exact ⟨not_mem_keys_nil, by decide⟩
      · exact ⟨hsig.not_mem_keys hlawful, Nat.lt_of_le_of_lt (hsig.length_le hlawful) (by decide)⟩
    rw [hreverse, out.isMultiSig.evalScript_run (by simp; omega) (Nat.zero_le _), hkeep]
    have hbool : ∀ (b : Bool) (rest : List Bytes), succeeds (some (vchBool b :: rest)) = b := by
      intro b rest
      cases b
      · rfl
      · rfl
    rw [hbool, Matching.search_iff, Matching.sublistForall₂_reverse]
    change List.SublistForall₂ (fun v key => out.check crypto txTo nIn v key = true) _ out.keys ↔ _
    rcases Nat.eq_zero_or_pos nMissing with rfl | hmissing
    · rw [List.replicate_zero, List.append_nil]
      apply iff_of_true h.valid
      omega
    · apply iff_of_false
      · intro hsub
        obtain ⟨keys, hforall, -⟩ := List.sublistForall₂_iff.mp hsub
        obtain ⟨hsame, hget⟩ := List.forall₂_iff_get.mp hforall
        have hi : sigs.length < (sigs ++ List.replicate nMissing []).length := by
          rw [List.length_append, List.length_replicate]
          omega
        have hcheck := hget sigs.length hi (hsame ▸ hi)
        rw [List.get_eq_getElem, List.getElem_append_right le_rfl, List.getElem_replicate,
          check_nil] at hcheck
        cases hcheck
      · omega

theorem isPayToScriptHash_multiSig
    {script : CScript} {nSigs : ℕ} {keyOps : List (ℕ × Bytes)} (h : MultiSigScript script nSigs keyOps) :
  isPayToScriptHash script = false
  := by
  rw [Bool.eq_false_iff]
  intro hhash
  obtain ⟨pc, hop, -⟩ := instructions_eq_cons_iff.mp h.ops
  have hhead := head?_of_getOp hop
  have hkeys := h.le_keys.trans h.keys_le
  obtain ⟨hash, -, hscript⟩ := eq_of_isPayToScriptHash hhash
  rw [hscript, List.head?_cons] at hhead
  have hopcode : OP_HASH160 = OP_1 - 1 + nSigs := Option.some.inj hhead
  simp only [OP_HASH160, OP_1] at hopcode
  omega

/-- A script that is no script hash is satisfied when its run succeeds. -/
theorem verifyScript_eq_succeeds
    {eval : EvalScript} {scriptSig scriptPubKey : CScript} {stack : List Bytes}
    (hsig : eval [] scriptSig txTo nIn = some stack) (hbare : isPayToScriptHash scriptPubKey = false) :
  verifyScript eval scriptSig scriptPubKey txTo nIn true = succeeds (eval stack scriptPubKey txTo nIn)
  := by
  rw [verifyScript, hsig, hbare]
  dsimp only
  rcases eval stack scriptPubKey txTo nIn with _ | _ | ⟨top, rest⟩
  · rfl
  · rfl
  · simp only [Bool.and_false, Bool.false_eq_true, if_false, succeeds]
    cases castToBool top
    · rfl
    · rfl

/-- The hash of a script is satisfied by the script and what makes its run succeed. -/
theorem verifyScript_scriptHash
    {scriptSig script : CScript} {stack : List Bytes}
    (hsig : evalScript crypto signing.toEcdsa hashes 0 [] scriptSig txTo nIn = some (script :: stack))
    (hpush : isPushOnly scriptSig = true) (hdepth : stack.length ≤ 900) :
  verifyScript (evalScript crypto signing.toEcdsa hashes 0) scriptSig
      (scriptForScriptID (hashes.hash160 script)) txTo nIn true
    = succeeds (evalScript crypto signing.toEcdsa hashes 0 stack script txTo nIn)
  := by
  rw [verifyScript, hsig]
  dsimp only
  rw [evalScript_scriptHash _ (hdepth.trans (by decide)), if_pos (Nat.lt_of_le_of_lt hdepth (by decide)),
    beq_self_eq_true, isPayToScriptHash_scriptForScriptID, hpush]
  simp only [vchBool, castToBool, Bool.and_true, Bool.not_true, Bool.false_eq_true, if_false, if_true]
  rcases evalScript crypto signing.toEcdsa hashes 0 stack script txTo nIn with _ | _ | ⟨top, rest⟩
  · rfl
  · rfl
  · rfl

/-- A partial signature is accepted when no signature is missing. -/
theorem Partial.accepts_iff
    (hlawful : signing.Lawful) (h : out.Partial crypto txTo nIn sigs nMissing) :
  out.accepts crypto txTo nIn (pushAll (partialValues sigs nMissing ++ out.behind)) = true
    ↔ out.nSigs ≤ sigs.length
  := by
  have hpushable := h.pushable hlawful
  rw [← h.succeeds_iff hlawful]
  have hrun : evalScript crypto signing.toEcdsa hashes 0 []
      (pushAll (partialValues sigs nMissing ++ out.behind)) txTo nIn
      = some (partialValues sigs nMissing ++ out.behind).reverse := hpushable.evalScript_eq
  rw [List.reverse_append] at hrun
  rw [accepts, scriptPubKey]
  cases hhash : out.fScriptHash with
  | false =>
    rw [behind, hhash, if_neg Bool.false_ne_true] at hrun
    rw [if_neg Bool.false_ne_true, behind, hhash, if_neg Bool.false_ne_true,
      verifyScript_eq_succeeds hrun (isPayToScriptHash_multiSig out.isMultiSig)]
    rfl
  | true =>
    have hvalues := h.length_le
    have hkeys := out.isMultiSig.le_keys.trans out.isMultiSig.keys_le
    have hpush := hpushable.isPushOnly
    rw [behind, hhash, if_pos rfl] at hrun hpush
    rw [if_pos rfl, behind, hhash, if_pos rfl,
      verifyScript_scriptHash hrun hpush (by simp [partialValues]; omega)]
    rfl

/-- An empty script is not accepted. -/
theorem accepts_nil :
  out.accepts crypto txTo nIn [] = false
  := by
  have hrun : evalScript crypto signing.toEcdsa hashes 0 [] [] txTo nIn = some [] := rfl
  rw [accepts, scriptPubKey]
  cases hhash : out.fScriptHash with
  | false =>
    rw [if_neg Bool.false_ne_true, verifyScript_eq_succeeds hrun (isPayToScriptHash_multiSig out.isMultiSig),
      out.isMultiSig.evalScript_short (Nat.zero_le _)]
    rfl
  | true =>
    rw [if_pos rfl, verifyScript, hrun]
    dsimp only
    rw [evalScript_scriptHash_nil]

/-! ## Scripts that sign in part -/

theorem held_nil :
  out.held crypto [] = []
  := by
  rw [held]
  split_ifs
  · rfl
  · rfl

theorem held_pushAll (hlawful : signing.Lawful) (h : out.Partial crypto txTo nIn sigs nMissing) :
  out.held crypto (pushAll (partialValues sigs nMissing ++ out.behind)) = partialValues sigs nMissing
  := by
  rw [held, (h.pushable hlawful).stackLeft_eq, List.reverse_reverse, behind]
  split_ifs with hhash
  · rw [List.dropLast_concat]
  · rw [List.append_nil]

variable (out crypto txTo nIn) in
/-- A script is empty, or it pushes a partial signature and, where there is one, the script behind the
hash. -/
def IsPartial (scriptSig : CScript) : Prop :=
  scriptSig = [] ∨ ∃ sigs nMissing, out.Partial crypto txTo nIn sigs nMissing
    ∧ scriptSig = pushAll (partialValues sigs nMissing ++ out.behind)

/-- Such a script is accepted when it holds signatures of enough keys. -/
theorem IsPartial.accepts_iff
    {scriptSig : CScript} (hlawful : signing.Lawful) (h : out.IsPartial crypto txTo nIn scriptSig)
    (hone : out.SignsOnce crypto txTo nIn (out.held crypto scriptSig)) :
  out.accepts crypto txTo nIn scriptSig = true
    ↔ out.nSigs ≤ (out.signed crypto txTo nIn (out.held crypto scriptSig)).length
  := by
  rcases h with rfl | ⟨sigs, nMissing, hmade, rfl⟩
  · have hnone : out.signed crypto txTo nIn [] = [] := List.filter_eq_nil_iff.mpr (by simp)
    rw [accepts_nil, held_nil, hnone]
    apply iff_of_false Bool.false_ne_true
    exact Nat.not_le.mpr out.isMultiSig.pos
  · rw [held_pushAll hlawful hmade] at hone ⊢
    have hsigs : out.SignsOnce crypto txTo nIn sigs :=
      fun v hv => hone v (List.mem_cons_of_mem _ (List.mem_append_left _ hv))
    rw [hmade.accepts_iff hlawful, signed_partialValues, hmade.length_signed hsigs]

/-- What it holds are signatures and empty places. -/
theorem IsPartial.isSignature
    {scriptSig : CScript} (hlawful : signing.Lawful) (h : out.IsPartial crypto txTo nIn scriptSig) {v : Bytes}
    (hv : v ∈ out.held crypto scriptSig) :
  v = [] ∨ IsSignature signing v
  := by
  rcases h with rfl | ⟨sigs, nMissing, hmade, rfl⟩
  · rw [held_nil] at hv
    cases hv
  · rw [held_pushAll hlawful hmade] at hv
    exact hmade.isSignature_of_mem hv

end Accepted

/-! ## What is signed with a key store -/

section Signed

variable {out} {crypto : Crypto} {txTo : CTransaction} {nIn : ℕ} {keystore : CKeyStore}
variable (rand : uint160 → ℕ) (nHashType : Int32) (hash : uint256)

/-- The loop adds signatures made with some of the keys, in the order of the keys. -/
theorem signNLoop_made
    (hkeystore : keystore.Holds signing hashes.hash160) (hsound : out.Sound) {nRequired : ℕ}
    {pubkeys : List Bytes} (hkeys : ∀ key ∈ pubkeys, key ∈ out.keys) {nSigned : ℕ}
    (hle : nSigned ≤ nRequired) (scriptSig : CScript) :
  ∃ sigs, List.SublistForall₂ (Made signing hash nHashType.toUInt32.toUInt8) sigs pubkeys
    ∧ nSigned + sigs.length ≤ nRequired
    ∧ signNLoop signing hashes.hash160 keystore nHashType rand hash nRequired pubkeys nSigned scriptSig
      = (nSigned + sigs.length, scriptSig ++ pushAll sigs)
  := by
  induction pubkeys generalizing nSigned scriptSig with
  | nil => exact ⟨[], .nil, hle, by rw [signNLoop]; simp [pushAll]⟩
  | cons pubkey pubkeys ih =>
    obtain ⟨hkey, hkeys⟩ := List.forall_mem_cons.mp hkeys
    rw [signNLoop]
    split_ifs with hlt
    · cases hsign : sign1 signing keystore nHashType rand (hashes.hash160 pubkey) hash with
      | none =>
        obtain ⟨sigs, hmade, hlength, hloop⟩ := ih hkeys hle scriptSig
        exact ⟨sigs, hmade.cons_right, hlength, hloop⟩
      | some pushed =>
        simp only [sign1, Option.bind_eq_bind, Option.bind_eq_some_iff, Option.pure_def,
          Option.some.injEq] at hsign
        obtain ⟨key, hget, vchSig, hvchSig, rfl⟩ := hsign
        have hpubkey : signing.getPubKey key = pubkey :=
          hsound.hash_key key pubkey hkey (hkeystore.key _ _ hget)
        obtain ⟨sigs, hmade, hlength, hloop⟩ := ih hkeys (Nat.succ_le_of_lt hlt)
          (scriptSig ++ pushData (vchSig ++ [nHashType.toUInt32.toUInt8]))
        refine ⟨(vchSig ++ [nHashType.toUInt32.toUInt8]) :: sigs, ?_, ?_, ?_⟩
        · exact .cons ⟨_, key, vchSig, hpubkey, hvchSig, rfl⟩ hmade
        · rw [List.length_cons]
          omega
        · dsimp only
          rw [hloop, List.length_cons, pushAll, pushAll, List.flatMap_cons, List.append_assoc]
          congr 1
          omega
    · exact ⟨[], .nil, hle, by simp [pushAll]⟩

/-- Signatures made for the hash of the input, in the order of the keys, are valid in that order. -/
theorem partial_of_made
    (hlawful : signing.Lawful) (hsound : out.Sound) {back : UInt8} {sigs : List Bytes}
    (h : List.SublistForall₂ (Made signing
      (signatureHash crypto out.script txTo nIn (Int32.ofNat back.toNat)) back) sigs out.keys)
    (hlength : sigs.length ≤ out.nSigs) :
  out.Partial crypto txTo nIn sigs 0
  := by
  obtain ⟨keys, hforall, hsub⟩ := List.sublistForall₂_iff.mp h
  refine ⟨?_, ?_, hlength⟩
  · intro v hv
    obtain ⟨i, hi, rfl⟩ := List.getElem_of_mem hv
    obtain ⟨hsame, hget⟩ := List.forall₂_iff_get.mp hforall
    exact ⟨_, _, _, hget i hi (hsame ▸ hi)⟩
  · exact List.sublistForall₂_iff.mpr
      ⟨keys, hforall.imp (fun v key hmade => hmade.check_eq hlawful hsound), hsub⟩

/-- Signing the script of the keys leaves a partial signature. -/
theorem signSolver_script
    (hlawful : signing.Lawful) (hkeystore : keystore.Holds signing hashes.hash160) (hsound : out.Sound)
    (back : UInt8) :
  ∃ sigs fSolved, out.Partial crypto txTo nIn sigs 0
    ∧ signSolver signing hashes.hash160 keystore (Int32.ofNat back.toNat) rand out.script
        (signatureHash crypto out.script txTo nIn (Int32.ofNat back.toNat))
      = (fSolved, pushAll (partialValues sigs 0), TX_MULTISIG)
  := by
  have hnumber : (UInt8.ofNat out.nSigs).toNat = out.nSigs := by
    have hkeys := out.isMultiSig.le_keys.trans out.isMultiSig.keys_le
    rw [UInt8.toNat_ofNat', Nat.mod_eq_of_lt (by omega)]
  have hback : (Int32.ofNat back.toNat).toUInt32.toUInt8 = back := by
    rw [← UInt8.toNat_inj]
    have hlt := back.toNat_lt
    simp
  obtain ⟨sigs, hmade, hlength, hloop⟩ := signNLoop_made rand (Int32.ofNat back.toNat)
    (signatureHash crypto out.script txTo nIn (Int32.ofNat back.toNat)) hkeystore hsound
    (fun key hkey => hkey) (Nat.zero_le out.nSigs) [0]
  rw [hback] at hmade
  refine ⟨sigs, 0 + sigs.length == out.nSigs, partial_of_made hlawful hsound hmade (by omega), ?_⟩
  rw [signSolver, out.isMultiSig.solver_eq]
  dsimp only
  rw [signN, List.tail_cons, List.dropLast_concat, List.head?_cons, Option.getD_some, List.head?_cons,
    Option.getD_some, hnumber]
  dsimp only
  rw [keys] at hloop
  rw [hloop, partialValues, List.replicate_zero, List.append_nil]
  rfl

/-- Signing the hash of a script looks the script up. -/
theorem signSolver_scriptHash (scriptID : uint160) :
  signSolver signing hashes.hash160 keystore nHashType rand (scriptForScriptID scriptID) hash
    = ((keystore.getCScript scriptID).isSome, (keystore.getCScript scriptID).getD [], TX_SCRIPTHASH)
  := by
  rw [signSolver, solver_scriptForScriptID]
  dsimp only
  rw [List.head?_cons, Option.getD_some, uint160OfBytes_serializeUint160]
  cases keystore.getCScript scriptID
  · rfl
  · rfl

variable {rand} in
/-- What signing the output leaves for the input. -/
theorem isPartial_signSignature
    (hlawful : signing.Lawful) (hkeystore : keystore.Holds signing hashes.hash160) (hsound : out.Sound)
    {tx tx' : CTransaction} {back : UInt8} {fSolved : Bool} {txin : CTxIn} (htx : tx.unsigned = txTo.unsigned)
    (hsign : signSignature crypto signing hashes keystore rand out.scriptPubKey tx nIn (Int32.ofNat back.toNat)
      = some (tx', fSolved))
    (htxin : tx'.vin[nIn]? = some txin) :
  out.IsPartial crypto txTo nIn txin.scriptSig
  := by
  have hset : ∀ {tx : CTransaction} {scriptSig : CScript},
      (tx.setScriptSig nIn scriptSig).vin[nIn]? = some txin → txin.scriptSig = scriptSig := by
    intro tx scriptSig h
    simp only [CTransaction.setScriptSig, List.getElem?_modify, if_true, Option.map_eq_map,
      Option.map_eq_some_iff] at h
    obtain ⟨txin', -, rfl⟩ := h
    rfl
  rw [signSignature] at hsign
  split_ifs at hsign
  dsimp only at hsign
  cases hhash : out.fScriptHash with
  | false =>
    rw [scriptPubKey, hhash, if_neg Bool.false_ne_true] at hsign
    obtain ⟨sigs, fSolved, hmade, hsolve⟩ :=
      @signSolver_script _ _ out crypto txTo nIn keystore rand hlawful hkeystore hsound back
    rw [signatureHash_congr crypto _ nIn _ htx, hsolve] at hsign
    dsimp only at hsign
    have htx : tx' = tx.setScriptSig nIn (pushAll (partialValues sigs 0)) := by
      rw [if_neg (by decide : ¬TX_MULTISIG = TX_SCRIPTHASH)] at hsign
      split_ifs at hsign
      · exact (Prod.mk.inj (Option.some.inj hsign)).1.symm
      · exact (Prod.mk.inj (Option.some.inj hsign)).1.symm
    rw [htx] at htxin
    refine .inr ⟨sigs, 0, hmade, ?_⟩
    rw [hset htxin, behind, hhash, if_neg Bool.false_ne_true, List.append_nil]
  | true =>
    rw [scriptPubKey, hhash, if_pos rfl, signSolver_scriptHash] at hsign
    cases hstored : keystore.getCScript (hashes.hash160 out.script) with
    | none =>
      rw [hstored] at hsign
      dsimp only at hsign
      rw [if_pos (by rfl), Option.some.injEq, Prod.mk.injEq] at hsign
      rw [← hsign.1] at htxin
      exact .inl (hset htxin)
    | some subscript =>
      obtain rfl := hsound.hash_script hhash subscript (hkeystore.script _ _ hstored)
      rw [hstored] at hsign
      dsimp only [Option.isSome_some, Option.getD_some] at hsign
      rw [if_neg (by decide), if_pos rfl] at hsign
      obtain ⟨sigs, fSolved, hmade, hsolve⟩ :=
        @signSolver_script _ _ out crypto txTo nIn keystore rand hlawful hkeystore hsound back
      rw [← signatureHash_congr crypto out.script nIn _
        ((tx.unsigned_setScriptSig nIn out.script).trans htx)] at hsolve
      simp only [hsolve] at hsign
      have htx : tx' = (tx.setScriptSig nIn out.script).setScriptSig nIn
          (pushAll (partialValues sigs 0) ++ pushData out.script) := by
        split_ifs at hsign
        · exact (Prod.mk.inj (Option.some.inj hsign)).1.symm
        · exact (Prod.mk.inj (Option.some.inj hsign)).1.symm
      rw [htx] at htxin
      refine .inr ⟨sigs, 0, hmade, ?_⟩
      rw [hset htxin, behind, hhash, if_pos rfl, pushAll_concat]

end Signed

end MultiSigOutput

end CorgiCoin
