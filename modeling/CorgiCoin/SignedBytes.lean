import CorgiCoin.SignatureHash
import CorgiCoin.Lib.PrefixCode

/-!
# What a signature covers

The bytes that `SignatureHash` hashes with `SIGHASH_ALL` determine the transaction, up to the scripts
of its inputs, and the position and the script code that are signed.  The position is marked by the
script code alone, which stands at the signed input where the other inputs have none: a script code
of nothing but code separators is empty once they are removed and marks no position.  With
`SIGHASH_ANYONECANPAY` only the signed input is covered.
-/

namespace CorgiCoin

open Codec

/-! ## The format is a prefix code -/

/-- A compact size of any 64-bit number read back, without the limit of the streams. -/
def compactSizeOf : Bytes → Option (ℕ × Bytes)
  | [] => none
  | b :: bs =>
    if b.toNat < 253 then some (b.toNat, bs)
    else
      let k := if b = 253 then 2 else if b = 254 then 4 else 8
      some (ofLE (bs.take k), bs.drop k)

theorem writeCompactSize_prefixCode :
  PrefixCode (fun n => n < 2 ^ 64) writeCompactSize
  := by
  apply @PrefixCode.of_read _ _ _ _ compactSizeOf
  intro n hn rest
  have hword : ∀ {k : ℕ}, n < 256 ^ k →
      (ofLE ((toLE k n ++ rest).take k), (toLE k n ++ rest).drop k) = (n, rest) := by
    intro k hk
    rw [List.take_left' (length_toLE k n), List.drop_left' (length_toLE k n), ofLE_toLE_of_lt hk]
  rw [writeCompactSize]
  split_ifs with hbyte htwo hfour
  · have hn : (UInt8.ofNat n).toNat = n := by
      rw [UInt8.toNat_ofNat', Nat.mod_eq_of_lt (by omega)]
    rw [toLE, toLE, List.cons_append, List.nil_append, compactSizeOf, hn, if_pos hbyte]
  · rw [List.cons_append, compactSizeOf, if_neg (by decide)]
    exact congrArg some (hword (k := 2) (by omega))
  · rw [List.cons_append, compactSizeOf, if_neg (by decide)]
    exact congrArg some (hword (k := 4) (by omega))
  · rw [List.cons_append, compactSizeOf, if_neg (by decide)]
    exact congrArg some (hword (k := 8) (by omega))

theorem serializeBytes_prefixCode :
  PrefixCode (fun v => v.length < 2 ^ 64) serializeBytes
  := by
  intro v w r s hv hw h
  rw [serializeBytes, serializeBytes, List.append_assoc, List.append_assoc] at h
  obtain ⟨hlength, hrest⟩ := writeCompactSize_prefixCode hv hw h
  exact List.append_inj hrest hlength

/-- The vector of the input is no longer than a size can be. -/
def CTxIn.Sized (txin : CTxIn) : Prop := txin.scriptSig.length < 2 ^ 64

def CTxOut.Sized (txout : CTxOut) : Prop := txout.scriptPubKey.length < 2 ^ 64

/-- The vectors of the transaction are no longer than a size can be. -/
structure CTransaction.Sized (tx : CTransaction) : Prop where
  vin_length : tx.vin.length < 2 ^ 64
  vin_sized : ∀ txin ∈ tx.vin, txin.Sized
  vout_length : tx.vout.length < 2 ^ 64
  vout_sized : ∀ txout ∈ tx.vout, txout.Sized

theorem CTxIn.serialize_prefixCode :
  PrefixCode Sized serialize
  := by
  intro a b r s ha hb h
  simp only [serialize, List.append_assoc] at h
  obtain ⟨hprevout, h⟩ := COutPoint.lawful.prefixCode trivial trivial h
  obtain ⟨hscript, h⟩ := serializeBytes_prefixCode ha hb h
  obtain ⟨hsequence, hrest⟩ := uint_lawful.prefixCode trivial trivial h
  cases a
  cases b
  cases hprevout
  cases hscript
  cases hsequence
  exact ⟨rfl, hrest⟩

theorem CTxOut.serialize_prefixCode :
  PrefixCode Sized serialize
  := by
  intro a b r s ha hb h
  simp only [serialize, List.append_assoc] at h
  obtain ⟨hvalue, h⟩ := int64_lawful.prefixCode trivial trivial h
  obtain ⟨hscript, hrest⟩ := serializeBytes_prefixCode ha hb h
  cases a
  cases b
  cases hvalue
  cases hscript
  exact ⟨rfl, hrest⟩

theorem CTransaction.serialize_prefixCode :
  PrefixCode Sized serialize
  := by
  intro a b r s ha hb h
  simp only [serialize, List.append_assoc] at h
  obtain ⟨hversion, h⟩ := int_lawful.prefixCode trivial trivial h
  obtain ⟨hvin, h⟩ := writeCompactSize_prefixCode.counted CTxIn.serialize_prefixCode
    ⟨ha.vin_length, ha.vin_sized⟩ ⟨hb.vin_length, hb.vin_sized⟩ h
  obtain ⟨hvout, h⟩ := writeCompactSize_prefixCode.counted CTxOut.serialize_prefixCode
    ⟨ha.vout_length, ha.vout_sized⟩ ⟨hb.vout_length, hb.vout_sized⟩ h
  obtain ⟨hlock, hrest⟩ := uint_lawful.prefixCode trivial trivial h
  cases a
  cases b
  cases hversion
  cases hvin
  cases hvout
  cases hlock
  exact ⟨rfl, hrest⟩

/-! ## The inputs without their scripts -/

theorem getElem?_blankScripts (scriptCode : CScript) (nIn : ℕ) (vin : List CTxIn) (i : ℕ) :
  (blankScripts scriptCode nIn vin)[i]?
    = vin[i]?.map (fun txin => { txin with scriptSig := if nIn = i then scriptCode else [] })
  := by
  rw [blankScripts, List.getElem?_modify, List.getElem?_map]
  cases vin[i]? with
  | none => rfl
  | some txin =>
    simp only [Option.map_some]
    split_ifs <;> rfl

theorem length_blankScripts (scriptCode : CScript) (nIn : ℕ) (vin : List CTxIn) :
  (blankScripts scriptCode nIn vin).length = vin.length
  := by
  rw [blankScripts, List.length_modify, List.length_map]

/-- What does not depend on the scripts of the inputs. -/
theorem map_blankScripts
    {α : Type} {f : CTxIn → α} (hf : ∀ txin scriptSig, f { txin with scriptSig } = f txin)
    (scriptCode : CScript) (nIn : ℕ) (vin : List CTxIn) :
  (blankScripts scriptCode nIn vin).map f = vin.map f
  := by
  apply List.ext_getElem?
  intro i
  rw [List.getElem?_map, List.getElem?_map, getElem?_blankScripts, Option.map_map]
  cases vin[i]? with
  | none => rfl
  | some txin => exact congrArg some (hf txin _)

theorem blankScripts_sized
    {scriptCode : CScript} (hcode : scriptCode.length < 2 ^ 64) (nIn : ℕ) (vin : List CTxIn) :
  ∀ txin ∈ blankScripts scriptCode nIn vin, txin.Sized
  := by
  intro txin hmem
  obtain ⟨i, hget⟩ := List.mem_iff_getElem?.mp hmem
  rw [getElem?_blankScripts, Option.map_eq_some_iff] at hget
  obtain ⟨txin', -, rfl⟩ := hget
  rw [CTxIn.Sized]
  split_ifs
  · exact hcode
  · exact Nat.two_pow_pos 64

/-- The place of a script code that is not empty, and the script code, can be read off the inputs. -/
theorem blankScripts_position
    {scriptCode scriptCode' : CScript} {nIn nIn' : ℕ} {vin vin' : List CTxIn}
    (hcode : scriptCode ≠ []) (hnIn : nIn < vin.length)
    (h : blankScripts scriptCode nIn vin = blankScripts scriptCode' nIn' vin') :
  nIn = nIn' ∧ scriptCode = scriptCode'
  := by
  have hget := getElem?_blankScripts scriptCode nIn vin nIn
  rw [h, getElem?_blankScripts, List.getElem?_eq_getElem hnIn, Option.map_some, if_pos rfl,
    Option.map_eq_some_iff] at hget
  obtain ⟨txin', -, heq⟩ := hget
  have hscript := congrArg CTxIn.scriptSig heq
  dsimp only at hscript
  split_ifs at hscript with hposition
  · exact ⟨hposition.symm, hscript.symm⟩
  · exact absurd hscript.symm hcode

/-! ## Deleting makes a script no longer -/

theorem length_findAndDelete_le (b script : CScript) :
  (findAndDelete b script).length ≤ script.length
  := by
  have hloop : ∀ fuel script, (findAndDeleteLoop b fuel script).length ≤ script.length := by
    intro fuel
    induction fuel with
    | zero => exact fun script => le_rfl
    | succ fuel ih =>
      intro script
      rw [findAndDeleteLoop]
      split_ifs
      · exact (ih _).trans (by rw [List.length_drop]; omega)
      · cases hop : getOp script with
        | none => exact le_rfl
        | some op =>
          obtain ⟨opcode, vch, pc⟩ := op
          have hlt := (getOp_suffix hop).2
          have hpc := ih pc
          simp only [List.length_append, List.length_take]
          omega
  rw [findAndDelete]
  split_ifs
  · exact le_rfl
  · exact hloop _ _

/-! ## The bytes that are hashed -/

/-- The script code that is put into the signed input. -/
def signedCode (scriptCode : CScript) : CScript :=
  findAndDelete [UInt8.ofNat OP_CODESEPARATOR] scriptCode

theorem signatureBytes_all (scriptCode : CScript) (txTo : CTransaction) (nIn : ℕ) :
  signatureBytes scriptCode txTo nIn SIGHASH_ALL
    = if nIn ≥ txTo.vin.length then none
      else some ({ txTo with vin := blankScripts (signedCode scriptCode) nIn txTo.vin }.serialize
        ++ serializeInt SIGHASH_ALL)
  := by
  have hnone : ¬SIGHASH_ALL &&& 0x1f = SIGHASH_NONE := by decide
  have hsingle : ¬SIGHASH_ALL &&& 0x1f = SIGHASH_SINGLE := by decide
  have hany : ¬SIGHASH_ALL &&& SIGHASH_ANYONECANPAY ≠ 0 := by decide
  simp only [signatureBytes, if_neg hnone, if_neg hsingle, if_neg hany, Option.map_some, signedCode]

/-- With `SIGHASH_ANYONECANPAY` the hash is of the signed input alone. -/
theorem signatureBytes_anyoneCanPay
    {nHashType : Int32} (hsingle : ¬nHashType &&& 0x1f = SIGHASH_SINGLE)
    (hany : nHashType &&& SIGHASH_ANYONECANPAY ≠ 0) (scriptCode : CScript) {txTo : CTransaction}
    {nIn : ℕ} {txin : CTxIn} (hget : txTo.vin[nIn]? = some txin) :
  signatureBytes scriptCode txTo nIn nHashType
    = some ({ txTo with
        vin := [{ txin with scriptSig := signedCode scriptCode }]
        vout := if nHashType &&& 0x1f = SIGHASH_NONE then [] else txTo.vout }.serialize
      ++ serializeInt nHashType)
  := by
  obtain ⟨hlt, -⟩ := List.getElem?_eq_some_iff.mp hget
  have hone : ∀ {vin : List CTxIn} {txin : CTxIn}, vin[nIn]? = some txin →
      (vin.drop nIn).take 1 = [txin] := by
    intro vin txin h
    rw [List.take_one, List.head?_drop, h]
    rfl
  have hblank : (blankScripts (signedCode scriptCode) nIn txTo.vin)[nIn]?
      = some { txin with scriptSig := signedCode scriptCode } := by
    rw [getElem?_blankScripts, hget, Option.map_some, if_pos rfl]
  have hsequences : (blankSequences nIn (blankScripts (signedCode scriptCode) nIn txTo.vin))[nIn]?
      = some { txin with scriptSig := signedCode scriptCode } := by
    rw [blankSequences, List.getElem?_mapIdx, hblank, Option.map_some, if_neg (not_not.mpr rfl)]
  simp only [signatureBytes, if_neg (Nat.not_le.mpr hlt), if_neg hsingle, if_pos hany]
  split_ifs with hnone
  · rw [Option.map_some]
    rw [signedCode] at hsequences ⊢
    simp only [hone hsequences]
  · rw [Option.map_some]
    rw [signedCode] at hblank ⊢
    simp only [hone hblank]

/-! ## What is covered -/

/-- A script code that has something else than code separators and a transaction, with vectors that
are no longer than a size can be. -/
structure Signable (scriptCode : CScript) (txTo : CTransaction) : Prop where
  sized : txTo.Sized
  code_sized : scriptCode.length < 2 ^ 64
  code_ne : signedCode scriptCode ≠ []

/-- The bytes that are hashed with `SIGHASH_ALL` determine the transaction but for the scripts of its
inputs, the position and the script code.  With `SIGHASH_ANYONECANPAY` and `SIGHASH_ALL` or
`SIGHASH_NONE` the inputs other than the signed one do not matter. -/
theorem signature_covers (crypto : Crypto) :
  (∀ scriptCode scriptCode' txTo txTo' nIn nIn' bytes,
    Signable scriptCode txTo → Signable scriptCode' txTo' →
    signatureBytes scriptCode txTo nIn SIGHASH_ALL = some bytes →
    signatureBytes scriptCode' txTo' nIn' SIGHASH_ALL = some bytes →
    txTo.nVersion = txTo'.nVersion ∧ txTo.vin.map CTxIn.prevout = txTo'.vin.map CTxIn.prevout
      ∧ txTo.vin.map CTxIn.nSequence = txTo'.vin.map CTxIn.nSequence ∧ txTo.vout = txTo'.vout
      ∧ txTo.nLockTime = txTo'.nLockTime ∧ nIn = nIn'
      ∧ signedCode scriptCode = signedCode scriptCode')
  ∧ ∀ nHashType ∈ [SIGHASH_ALL ||| SIGHASH_ANYONECANPAY, SIGHASH_NONE ||| SIGHASH_ANYONECANPAY],
    ∀ scriptCode txTo txTo' nIn nIn' txin txin',
      txTo.nVersion = txTo'.nVersion → txTo.vout = txTo'.vout → txTo.nLockTime = txTo'.nLockTime →
      txTo.vin[nIn]? = some txin → txTo'.vin[nIn']? = some txin' →
      txin.prevout = txin'.prevout → txin.nSequence = txin'.nSequence →
      signatureHash crypto scriptCode txTo nIn nHashType
        = signatureHash crypto scriptCode txTo' nIn' nHashType
  := by
  constructor
  · intro scriptCode scriptCode' txTo txTo' nIn nIn' bytes hsigns hsigns' hbytes hbytes'
    have hcode : ∀ {scriptCode : CScript}, scriptCode.length < 2 ^ 64 →
        (signedCode scriptCode).length < 2 ^ 64 := fun h => (length_findAndDelete_le _ _).trans_lt h
    have hsized : ∀ {scriptCode txTo nIn}, Signable scriptCode txTo →
        CTransaction.Sized { txTo with vin := blankScripts (signedCode scriptCode) nIn txTo.vin } :=
      fun h => ⟨(length_blankScripts _ _ _).trans_lt h.sized.vin_length,
        blankScripts_sized (hcode h.code_sized) _ _, h.sized.vout_length, h.sized.vout_sized⟩
    rw [signatureBytes_all] at hbytes hbytes'
    split_ifs at hbytes hbytes' with hnIn hnIn'
    have heq := (CTransaction.serialize_prefixCode (hsized hsigns) (hsized hsigns')
      (Option.some.inj (hbytes.trans hbytes'.symm))).1
    rw [CTransaction.mk.injEq] at heq
    obtain ⟨hversion, hvin, hvout, hlock⟩ := heq
    obtain ⟨hposition, hsame⟩ := blankScripts_position hsigns.code_ne (Nat.lt_of_not_le hnIn) hvin
    refine ⟨hversion, ?_, ?_, hvout, hlock, hposition, hsame⟩
    · have hprevouts := congrArg (List.map CTxIn.prevout) hvin
      rwa [map_blankScripts (fun _ _ => rfl), map_blankScripts (fun _ _ => rfl)] at hprevouts
    · have hsequences := congrArg (List.map CTxIn.nSequence) hvin
      rwa [map_blankScripts (fun _ _ => rfl), map_blankScripts (fun _ _ => rfl)] at hsequences
  · intro nHashType hmem scriptCode txTo txTo' nIn nIn' txin txin' hversion hvout hlock hget hget'
      hprevout hsequence
    have htypes : ∀ nHashType ∈
        [SIGHASH_ALL ||| SIGHASH_ANYONECANPAY, SIGHASH_NONE ||| SIGHASH_ANYONECANPAY],
        ¬nHashType &&& 0x1f = SIGHASH_SINGLE ∧ nHashType &&& SIGHASH_ANYONECANPAY ≠ 0 := by
      simp only [List.mem_cons, List.not_mem_nil, or_false, forall_eq_or_imp, forall_eq]
      decide
    obtain ⟨hsingle, hany⟩ := htypes nHashType hmem
    rw [signatureHash, signatureHash, signatureBytes_anyoneCanPay hsingle hany scriptCode hget,
      signatureBytes_anyoneCanPay hsingle hany scriptCode hget', hversion, hvout, hlock, hprevout,
      hsequence]

/-- A transaction of two inputs, the first with a script. -/
def twoInputs (scriptSig : CScript) : CTransaction where
  nVersion := 1
  vin := [⟨⟨1, 0⟩, scriptSig, 5⟩, ⟨⟨2, 0⟩, [], 7⟩]
  vout := [⟨100, [0x51]⟩]
  nLockTime := 0

theorem twoInputs_signable
    {scriptCode scriptSig : CScript} (hcode : scriptCode.length < 2 ^ 64)
    (hne : signedCode scriptCode ≠ []) (hsig : scriptSig.length < 2 ^ 64) :
  Signable scriptCode (twoInputs scriptSig)
  := by
  have hsmall : ∀ {n : ℕ}, n ≤ 2 → n < 2 ^ 64 := fun h => h.trans_lt (by decide)
  refine ⟨⟨hsmall (Nat.le_refl 2), ?_, hsmall (Nat.le_succ 1), ?_⟩, hcode, hne⟩
  · simp only [twoInputs, List.mem_cons, List.not_mem_nil, or_false, forall_eq_or_imp, forall_eq]
    exact ⟨hsig, hsmall (Nat.zero_le 2)⟩
  · simp only [twoInputs, List.mem_cons, List.not_mem_nil, or_false, forall_eq]
    exact hsmall (Nat.le_succ 1)

/-- A script code with and without a code separator, and an input with and without company. -/
theorem signature_covers_twoInputs :
  signedCode [0xab, 0xac] = signedCode [0xac]
  ∧ signatureHash sampleCrypto [0xac] (twoInputs []) 1 (SIGHASH_ALL ||| SIGHASH_ANYONECANPAY)
    = signatureHash sampleCrypto [0xac] ⟨1, [⟨⟨2, 0⟩, [9], 7⟩], [⟨100, [0x51]⟩], 0⟩ 0
      (SIGHASH_ALL ||| SIGHASH_ANYONECANPAY)
  := by
  obtain ⟨hall, hany⟩ := signature_covers sampleCrypto
  constructor
  · exact (hall [0xab, 0xac] [0xac] (twoInputs []) (twoInputs [9]) 1 1 _
      (twoInputs_signable (by decide) (by decide) (by decide))
      (twoInputs_signable (by decide) (by decide) (by decide)) rfl
      (by decide)).2.2.2.2.2.2
  · exact hany _ List.mem_cons_self [0xac] (twoInputs []) _ 1 0 ⟨⟨2, 0⟩, [], 7⟩ ⟨⟨2, 0⟩, [9], 7⟩ rfl
      rfl rfl rfl rfl rfl rfl

/-- With a script code of a code separator alone, the bytes are the same for both inputs. -/
theorem signature_position_lost :
  ([0xab] : CScript) ≠ []
  ∧ (signatureBytes [0xab] (twoInputs []) 0 SIGHASH_ALL).isSome = true
  ∧ signatureBytes [0xab] (twoInputs []) 0 SIGHASH_ALL
    = signatureBytes [0xab] (twoInputs []) 1 SIGHASH_ALL
  := ⟨by decide, by decide, by decide⟩

end CorgiCoin
