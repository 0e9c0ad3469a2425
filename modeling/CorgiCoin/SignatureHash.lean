import CorgiCoin.Script

/-!
# The bytes a signature covers

`SignatureHash` serialises a copy of the transaction in which the scripts of the inputs are blank,
but for the one that is signed, followed by the hash type.  `CheckSig` verifies a signature against
the hash of these bytes.  The elliptic curve is a parameter.
-/

namespace CorgiCoin

open Codec

def OP_CODESEPARATOR : ℕ := 0xab

def SIGHASH_ALL : Int32 := 1
def SIGHASH_NONE : Int32 := 2
def SIGHASH_SINGLE : Int32 := 3
def SIGHASH_ANYONECANPAY : Int32 := 0x80

/-! ## Deleting from a script -/

/-- The loop of `CScript::FindAndDelete` from an instruction on: occurrences of `b` are dropped
where an instruction starts.  Each turn takes a byte at least, so that the length of the script is
fuel enough. -/
def findAndDeleteLoop (b : CScript) : ℕ → CScript → CScript
  | 0, script => script
  | fuel + 1, script =>
    if b.isPrefixOf script then findAndDeleteLoop b fuel (script.drop b.length)
    else
      match getOp script with
      | none => script
      | some (_, _, pc) =>
        script.take (script.length - pc.length) ++ findAndDeleteLoop b fuel pc

/-- `CScript::FindAndDelete`: the script without the occurrences of `b`. -/
def findAndDelete (b script : CScript) : CScript :=
  if b.isEmpty then script else findAndDeleteLoop b script.length script

/-! ## The signature hash -/

/-- The inputs with their scripts blank, but for that of the given input. -/
def blankScripts (scriptCode : CScript) (nIn : ℕ) (vin : List CTxIn) : List CTxIn :=
  (vin.map (fun txin => { txin with scriptSig := [] })).modify nIn
    (fun txin => { txin with scriptSig := scriptCode })

/-- The sequence numbers of the inputs other than the given one set to zero. -/
def blankSequences (nIn : ℕ) (vin : List CTxIn) : List CTxIn :=
  vin.mapIdx (fun i txin => if i ≠ nIn then { txin with nSequence := 0 } else txin)

/-- An output as `SetNull` leaves it. -/
def CTxOut.null : CTxOut := ⟨-1, []⟩

/-- The bytes that `SignatureHash` hashes; `none` where it returns one. -/
def signatureBytes (scriptCode : CScript) (txTo : CTransaction) (nIn : ℕ) (nHashType : Int32) :
    Option Bytes :=
  if nIn ≥ txTo.vin.length then none
  else
    let scriptCode := findAndDelete [UInt8.ofNat OP_CODESEPARATOR] scriptCode
    let vin := blankScripts scriptCode nIn txTo.vin
    let blanked : Option (List CTxIn × List CTxOut) :=
      if nHashType &&& 0x1f = SIGHASH_NONE then some (blankSequences nIn vin, [])
      else if nHashType &&& 0x1f = SIGHASH_SINGLE then
        if nIn ≥ txTo.vout.length then none
        else
          some (blankSequences nIn vin,
            List.replicate nIn CTxOut.null ++ (txTo.vout.drop nIn).take 1)
      else some (vin, txTo.vout)
    blanked.map (fun (vin, vout) =>
      let vin := if nHashType &&& SIGHASH_ANYONECANPAY ≠ 0 then (vin.drop nIn).take 1 else vin
      { txTo with vin, vout }.serialize ++ serializeInt nHashType)

def signatureHash (crypto : Crypto) (scriptCode : CScript) (txTo : CTransaction) (nIn : ℕ)
    (nHashType : Int32) : uint256 :=
  match signatureBytes scriptCode txTo nIn nHashType with
  | none => 1
  | some bytes => crypto.hash bytes

/-! ## Checking signatures -/

/-- The elliptic-curve operations on public keys. -/
structure Ecdsa where
  /-- Whether `CKey::SetPubKey` takes the bytes for a public key. -/
  setPubKey : Bytes → Bool
  /-- `CKey::Verify` of a public key, a hash and a signature. -/
  verify : Bytes → uint256 → Bytes → Bool

/-- `CheckSig`.  The signature cache only holds what has been verified, so that it does not change
the answer. -/
def checkSig (crypto : Crypto) (ecdsa : Ecdsa) (vchSig vchPubKey : Bytes) (scriptCode : CScript)
    (txTo : CTransaction) (nIn : ℕ) (nHashType : Int32) : Bool :=
  match vchSig.getLast? with
  | none => false
  | some back =>
    let nType := Int32.ofNat back.toNat
    if nHashType ≠ 0 ∧ nHashType ≠ nType then false
    else
      let sighash := signatureHash crypto scriptCode txTo nIn nType
      ecdsa.setPubKey vchPubKey && ecdsa.verify vchPubKey sighash vchSig.dropLast

/-! ## Pay to public key hash -/

/-- A 160-bit number, the type of hashes of public keys and of scripts. -/
abbrev uint160 := BitVec 160

instance instTransOrdUint160 : Std.TransOrd uint160 := BitVec.instTransOrd

def serializeUint160 (a : uint160) : Bytes := toLE 20 a.toNat

/-- `OP_DUP OP_HASH160 <keyID> OP_EQUALVERIFY OP_CHECKSIG` -/
def scriptForKeyID (keyID : uint160) : CScript :=
  [UInt8.ofNat OP_DUP, UInt8.ofNat OP_HASH160] ++ pushData (serializeUint160 keyID)
    ++ [UInt8.ofNat OP_EQUALVERIFY, UInt8.ofNat OP_CHECKSIG]

/-! ## Scripts that nothing is deleted from -/

variable {script pc : CScript} {opcode : ℕ} {vch : Bytes}

/-- An instruction is its data and at most five bytes. -/
theorem length_of_getOp
    (h : getOp script = some (opcode, vch, pc)) :
  vch.length + pc.length ≤ script.length ∧ script.length ≤ vch.length + pc.length + 5
  := by
  cases script with
  | nil => cases h
  | cons b rest =>
    rw [getOp] at h
    dsimp only at h
    split_ifs at h
    all_goals
      simp only [Option.some.injEq, Prod.mk.injEq] at h
      obtain ⟨-, rfl, rfl⟩ := h
      simp only [List.length_cons, List.length_nil, List.length_take, List.length_drop] at *
      omega

/-- Reading an instruction takes a byte at least. -/
theorem getOp_suffix
    (h : getOp script = some (opcode, vch, pc)) :
  script.take (script.length - pc.length) ++ pc = script ∧ pc.length < script.length
  := by
  cases script with
  | nil => cases h
  | cons b rest =>
    have hdrop : ∃ n, pc = rest.drop n := by
      simp only [getOp] at h
      split_ifs at h
      · obtain ⟨-, -, rfl⟩ := h
        exact ⟨0, rfl⟩
      all_goals
        simp only [Option.some.injEq, Prod.mk.injEq] at h
        obtain ⟨-, -, rfl⟩ := h
        exact ⟨_, List.drop_drop ..⟩
    obtain ⟨n, rfl⟩ := hdrop
    refine ⟨?_, ?_⟩
    · obtain hle | hlt := Nat.le_total n rest.length
      · have hlen : (b :: rest).length - (rest.drop n).length = n + 1 := by
          rw [List.length_cons, List.length_drop]
          omega
        rw [hlen, List.take_succ_cons, List.cons_append, List.take_append_drop]
      · rw [List.drop_eq_nil_of_le hlt, List.append_nil, List.length_nil, Nat.sub_zero,
          List.take_length]
    · rw [List.length_cons, List.length_drop]
      omega

/-- Where the deleted bytes would be read as an instruction that the script has not, nothing is
deleted. -/
theorem findAndDeleteLoop_of_parse
    {b : CScript} {P : ℕ × Bytes → Prop}
    (hb : ∀ script, b.isPrefixOf script = true →
      ∃ opcode vch pc, getOp script = some (opcode, vch, pc) ∧ P (opcode, vch))
    {n : ℕ} (h : ∀ op ∈ (parse n script).1, ¬P op) :
  findAndDeleteLoop b n script = script
  := by
  induction n generalizing script with
  | zero => rfl
  | succ n ih =>
    rw [findAndDeleteLoop]
    cases hop : getOp script with
    | none =>
      rw [if_neg]
      intro hprefix
      obtain ⟨opcode, vch, pc, hsome, -⟩ := hb script hprefix
      rw [hop] at hsome
      cases hsome
    | some op =>
      obtain ⟨opcode, vch, pc⟩ := op
      have hempty : script.isEmpty = false := by
        cases script with
        | nil => cases hop
        | cons b rest => rfl
      rw [parse, hempty, if_neg Bool.false_ne_true, hop] at h
      obtain ⟨hhead, hrest⟩ := List.forall_mem_cons.mp h
      rw [if_neg]
      · dsimp only
        rw [ih hrest]
        exact (getOp_suffix hop).1
      · intro hprefix
        obtain ⟨opcode', vch', pc', hsome, hP⟩ := hb script hprefix
        rw [hop] at hsome
        obtain ⟨rfl, rfl, rfl⟩ := hsome
        exact hhead hP

theorem findAndDelete_of_instructions
    {b : CScript} {P : ℕ × Bytes → Prop}
    (hb : ∀ script, b.isPrefixOf script = true →
      ∃ opcode vch pc, getOp script = some (opcode, vch, pc) ∧ P (opcode, vch))
    {script : CScript} (h : ∀ op ∈ (instructions script).1, ¬P op) :
  findAndDelete b script = script
  := by
  rw [findAndDelete]
  split_ifs with hempty
  · rfl
  · apply findAndDeleteLoop_of_parse hb h

/-- Nothing is deleted from a script without code separators. -/
theorem findAndDelete_codeSeparator
    (h : ∀ op ∈ (instructions script).1, op.1 ≠ OP_CODESEPARATOR) :
  findAndDelete [UInt8.ofNat OP_CODESEPARATOR] script = script
  := by
  refine findAndDelete_of_instructions ?_ h
  intro script hprefix
  cases script with
  | nil => cases hprefix
  | cons b rest =>
    rw [List.isPrefixOf, Bool.and_eq_true, beq_iff_eq] at hprefix
    rw [← hprefix.1]
    exact ⟨OP_CODESEPARATOR, [], rest, rfl, rfl⟩

/-- More fuel than the bytes of a script reads the same instructions. -/
theorem parse_of_le
    {n m : ℕ} (hn : script.length ≤ n) (hm : script.length ≤ m) :
  parse n script = parse m script
  := by
  induction n generalizing m script with
  | zero =>
    obtain rfl := List.length_eq_zero_iff.mp (Nat.le_zero.mp hn)
    cases m with
    | zero => rfl
    | succ m => rfl
  | succ n ih =>
    cases m with
    | zero =>
      obtain rfl := List.length_eq_zero_iff.mp (Nat.le_zero.mp hm)
      rfl
    | succ m =>
      rw [parse, parse]
      cases hop : getOp script with
      | none => rfl
      | some op =>
        obtain ⟨opcode, vch, pc⟩ := op
        have hlt := (getOp_suffix hop).2
        dsimp only
        rw [@ih pc m (by omega) (by omega)]

theorem instructions_cons
    (h : getOp script = some (opcode, vch, pc)) :
  instructions script = ((opcode, vch) :: (instructions pc).1, (instructions pc).2)
  := by
  have hlt := (getOp_suffix h).2
  cases script with
  | nil => cases h
  | cons b rest =>
    rw [instructions, List.length_cons, parse, if_neg (by simp), h, instructions]
    dsimp only
    rw [parse_of_le (Nat.lt_succ_iff.mp hlt) (Nat.le_refl _)]

/-- The opcode of a push. -/
def pushOpcode (data : Bytes) : ℕ :=
  if data.length < OP_PUSHDATA1 then data.length
  else if data.length ≤ 0xff then OP_PUSHDATA1
  else if data.length ≤ 0xffff then OP_PUSHDATA2
  else OP_PUSHDATA4

theorem pushOpcode_le (data : Bytes) : pushOpcode data ≤ OP_PUSHDATA4 := by
  rw [pushOpcode]
  split_ifs with h
  · exact h.le.trans (by decide)
  · decide
  · decide
  · exact Nat.le_refl _

/-- A push is read back. -/
theorem getOp_pushData
    {data : Bytes} (h : data.length < 2 ^ 32) (rest : CScript) :
  getOp (pushData data ++ rest) = some (pushOpcode data, data, rest)
  := by
  rw [pushData, pushOpcode]
  split_ifs with hshort hone htwo
  · have hbyte : (UInt8.ofNat data.length).toNat = data.length := by
      rw [OP_PUSHDATA1] at hshort
      rw [UInt8.toNat_ofNat', Nat.mod_eq_of_lt (by omega)]
    have hop : ¬data.length > OP_PUSHDATA4 := by
      rw [OP_PUSHDATA1] at hshort
      rw [OP_PUSHDATA4]
      omega
    simp [getOp, hbyte, hshort, hop]
  · have hbyte : (UInt8.ofNat data.length).toNat = data.length := by
      rw [UInt8.toNat_ofNat', Nat.mod_eq_of_lt (by omega)]
    have htag : (UInt8.ofNat OP_PUSHDATA1).toNat = OP_PUSHDATA1 := rfl
    have hle : ¬OP_PUSHDATA1 > OP_PUSHDATA4 := by decide
    simp [getOp, htag, hle, ofLE, hbyte]
  · have hlen : ofLE (toLE 2 data.length) = data.length :=
      ofLE_toLE_of_lt (by omega)
    have htag : (UInt8.ofNat OP_PUSHDATA2).toNat = OP_PUSHDATA2 := rfl
    have hle : ¬OP_PUSHDATA2 > OP_PUSHDATA4 := by decide
    have hlt : ¬OP_PUSHDATA2 < OP_PUSHDATA1 := by decide
    have hne : OP_PUSHDATA2 ≠ OP_PUSHDATA1 := by decide
    have htake : ((toLE 2 data.length ++ (data ++ rest)).take 2) = toLE 2 data.length :=
      List.take_left' (length_toLE _ _)
    have hdrop : ((toLE 2 data.length ++ (data ++ rest)).drop 2) = data ++ rest :=
      List.drop_left' (length_toLE _ _)
    have hroom : 1 < 2 + (data.length + rest.length) := by omega
    simp [getOp, htag, hle, hlt, hne, htake, hdrop, hlen, hroom]
  · have hlen : ofLE (toLE 4 data.length) = data.length :=
      ofLE_toLE_of_lt (by omega)
    have htag : (UInt8.ofNat OP_PUSHDATA4).toNat = OP_PUSHDATA4 := rfl
    have hlt : ¬OP_PUSHDATA4 < OP_PUSHDATA1 := by decide
    have hne : OP_PUSHDATA4 ≠ OP_PUSHDATA1 := by decide
    have hne' : OP_PUSHDATA4 ≠ OP_PUSHDATA2 := by decide
    have htake : ((toLE 4 data.length ++ (data ++ rest)).take 4) = toLE 4 data.length :=
      List.take_left' (length_toLE _ _)
    have hdrop : ((toLE 4 data.length ++ (data ++ rest)).drop 4) = data ++ rest :=
      List.drop_left' (length_toLE _ _)
    simp [getOp, htag, hlt, hne, hne', htake, hdrop, hlen]

/-- The instructions of a script that pays to the hash of a public key. -/
theorem instructions_scriptForKeyID (keyID : uint160) :
  instructions (scriptForKeyID keyID)
    = ([(OP_DUP, []), (OP_HASH160, []), (20, serializeUint160 keyID), (OP_EQUALVERIFY, []),
        (OP_CHECKSIG, [])], true)
  := by
  have hlength : (serializeUint160 keyID).length = 20 := length_toLE 20 keyID.toNat
  have hpush : getOp (pushData (serializeUint160 keyID)
      ++ [UInt8.ofNat OP_EQUALVERIFY, UInt8.ofNat OP_CHECKSIG])
        = some (20, serializeUint160 keyID, [UInt8.ofNat OP_EQUALVERIFY, UInt8.ofNat OP_CHECKSIG]) := by
    rw [getOp_pushData (by rw [hlength]; decide), pushOpcode, hlength]
    rfl
  have hdup : ∀ rest, getOp (UInt8.ofNat OP_DUP :: rest) = some (OP_DUP, [], rest) := fun _ => rfl
  have hhash : ∀ rest, getOp (UInt8.ofNat OP_HASH160 :: rest) = some (OP_HASH160, [], rest) :=
    fun _ => rfl
  rw [scriptForKeyID, List.append_assoc, List.cons_append, List.cons_append, List.nil_append,
    instructions_cons (hdup _), instructions_cons (hhash _), instructions_cons hpush]
  rfl

/-- Deleting code separators does not reach into the pushed hash. -/
theorem findAndDelete_scriptForKeyID (keyID : uint160) :
  findAndDelete [UInt8.ofNat OP_CODESEPARATOR] (scriptForKeyID keyID) = scriptForKeyID keyID
  := by
  apply findAndDelete_codeSeparator
  rw [instructions_scriptForKeyID]
  simp [OP_DUP, OP_HASH160, OP_EQUALVERIFY, OP_CHECKSIG, OP_CODESEPARATOR]

end CorgiCoin
