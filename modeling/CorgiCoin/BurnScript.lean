import CorgiCoin.Interpreter
import CorgiCoin.Bridge

/-!
# Burn scripts

A burn is an output whose script is `OP_RETURN` and a push of the payload that names the partner and
the destination.  `Encode` writes payloads and `DecodeScript` reads scripts.  The reader takes every
form of push and whatever comes after it, so that the scripts it accepts are of the length that the
payload specification gives just when they are the ones it gives.  None of them can be spent.
-/

namespace CorgiCoin

open Codec

/-! ## A script that starts with `OP_RETURN` -/

section Return

variable (crypto : Crypto) (hashes : ScriptHashes) (check : Bytes → Bytes → CScript → Bool)

theorem getOp_return (pc : CScript) :
  getOp (UInt8.ofNat OP_RETURN :: pc) = some (OP_RETURN, [], pc)
  := rfl

/-- The instruction `OP_RETURN` stops a machine with no condition open. -/
theorem instruction_return {m : Machine} (h : m.vfExec = []) (pc : CScript) :
  ∃ stop m', Exec.instruction crypto hashes check OP_RETURN [] pc m = .error stop m'
  := by
  refine ⟨Stop.failed, { m with nOpCount := m.nOpCount + 1 }, ?_⟩
  by_cases hcount : m.nOpCount + 1 > 201
  · simp [Exec.instruction, Exec.fail, h, hcount, OP_RETURN, OP_16]
  · simp [Exec.instruction, Exec.switch, Op.ofOpcode, Exec.fail, h, hcount, OP_RETURN, OP_16,
      OP_PUSHDATA4, disabledOpcodes]

/-- No run of a script that starts with `OP_RETURN` comes to the end. -/
theorem runScript_return (stack : List Bytes) (pc : CScript) :
  ∃ stop m, runScript crypto hashes check stack (UInt8.ofNat OP_RETURN :: pc) = .error stop m
  := by
  obtain ⟨stop, m, h⟩ :=
    @instruction_return crypto hashes check
      { stack, pbegincodehash := UInt8.ofNat OP_RETURN :: pc } rfl pc
  refine ⟨stop, m, ?_⟩
  rw [runScript, EStateM.run, List.length_cons, Exec.loop, if_neg (by simp), getOp_return]
  simp only [Exec.bind_run, h]

end Return

/-- No output whose script starts with `OP_RETURN` can be spent. -/
theorem verifyScript_return
    (crypto : Crypto) (ecdsa : Ecdsa) (hashes : ScriptHashes) (nHashType : Int32)
    (scriptSig pc : CScript) (txTo : CTransaction) (nIn : ℕ) (fValidatePayToScriptHash : Bool) :
  verifyScript (evalScript crypto ecdsa hashes nHashType) scriptSig (UInt8.ofNat OP_RETURN :: pc)
    txTo nIn fValidatePayToScriptHash = false
  := by
  have hnone : ∀ stack, evalScript crypto ecdsa hashes nHashType stack
      (UInt8.ofNat OP_RETURN :: pc) txTo nIn = none := by
    intro stack
    rw [evalScript]
    split_ifs
    · rfl
    · obtain ⟨stop, m, h⟩ := runScript_return crypto hashes
        (fun vchSig vchPubKey scriptCode =>
          checkSig crypto ecdsa vchSig vchPubKey scriptCode txTo nIn nHashType) stack pc
      rw [h]
  rw [verifyScript]
  cases evalScript crypto ecdsa hashes nHashType [] scriptSig txTo nIn with
  | none => rfl
  | some stackCopy => simp only [hnone]

/-! ## The forms of a push -/

/-- The length field of a push of `nSize` bytes after the opcode. -/
def lengthField (opcode nSize : ℕ) : Bytes :=
  if opcode < OP_PUSHDATA1 then []
  else if opcode = OP_PUSHDATA1 then toLE 1 nSize
  else if opcode = OP_PUSHDATA2 then toLE 2 nSize
  else toLE 4 nSize

/-- A length field read with the data that it announces. -/
theorem eq_append_of_read
    {script pc : CScript} {n b opcode : ℕ} {vch : Bytes}
    (h : (if script.length < n then none
      else if (script.drop n).length < ofLE (script.take n) then none
      else some (b, (script.drop n).take (ofLE (script.take n)),
        (script.drop n).drop (ofLE (script.take n)))) = some (opcode, vch, pc)) :
  opcode = b ∧ script = toLE n vch.length ++ (vch ++ pc)
  := by
  split_ifs at h with hn hsize
  simp only [Option.some.injEq, Prod.mk.injEq] at h
  obtain ⟨rfl, rfl, rfl⟩ := h
  have hfield : toLE n (ofLE (script.take n)) = script.take n := by
    have hlen : (script.take n).length = n := List.length_take_of_le (by omega)
    have hfield := toLE_ofLE (script.take n)
    rw [hlen] at hfield
    exact hfield
  refine ⟨rfl, ?_⟩
  rw [List.length_take_of_le (by omega), hfield, List.take_append_drop, List.take_append_drop]

/-- What the reader takes for a push is the opcode, the length field, the data and the rest. -/
theorem getOp_push
    {b : UInt8} {script pc : CScript} {opcode : ℕ} {vch : Bytes}
    (h : getOp (b :: script) = some (opcode, vch, pc)) (hvch : vch ≠ []) :
  opcode = b.toNat ∧ opcode ≤ OP_PUSHDATA4 ∧ (opcode < OP_PUSHDATA1 → vch.length = opcode) ∧
    script = lengthField opcode vch.length ++ (vch ++ pc)
  := by
  rw [getOp] at h
  split_ifs at h with hpush hsize hone htwo
  · simp only [Option.some.injEq, Prod.mk.injEq] at h
    exact absurd h.2.1.symm hvch
  · dsimp only at h
    split_ifs at h with _ hlen
    simp only [Option.some.injEq, Prod.mk.injEq, List.drop_zero] at h hlen
    obtain ⟨rfl, rfl, rfl⟩ := h
    refine ⟨rfl, by omega, fun _ => List.length_take_of_le (by omega), ?_⟩
    rw [lengthField, if_pos hsize, List.nil_append, List.take_append_drop]
  · obtain ⟨rfl, hscript⟩ := eq_append_of_read h
    refine ⟨rfl, by omega, fun hlt => absurd hlt hsize, ?_⟩
    rw [lengthField, if_neg hsize, if_pos hone]
    exact hscript
  · obtain ⟨rfl, hscript⟩ := eq_append_of_read h
    refine ⟨rfl, by omega, fun hlt => absurd hlt hsize, ?_⟩
    rw [lengthField, if_neg hsize, if_neg hone, if_pos htwo]
    exact hscript
  · obtain ⟨rfl, hscript⟩ := eq_append_of_read h
    refine ⟨rfl, by omega, fun hlt => absurd hlt hsize, ?_⟩
    rw [lengthField, if_neg hsize, if_neg hone, if_neg htwo]
    exact hscript

/-! ## Payloads -/

namespace BurnPayload

/-- `Encode`, with the texts of the exceptions it throws. -/
def encode (partner solDest : Bytes) : Except String Bytes :=
  if !isValidPartnerTag partner then .error "partner tag must be 4 printable ASCII chars"
  else if solDest.length ≠ SOL_DEST_LEN then .error "sol_dest must be exactly 32 bytes"
  else .ok (MAGIC ++ (partner ++ solDest))

/-- `CScript() << OP_RETURN << payload` -/
def burnScript (payload : Bytes) : CScript := UInt8.ofNat OP_RETURN :: pushData payload

theorem length_of_isValidPartnerTag {tag : Bytes} (h : isValidPartnerTag tag = true) :
  tag.length = PARTNER_LEN
  := by
  rw [isValidPartnerTag] at h
  split_ifs at h with hlen
  exact not_not.mp hlen

variable {partner solDest payload : Bytes}

theorem encode_eq_ok_iff :
  encode partner solDest = .ok payload ↔
    isValidPartnerTag partner = true ∧ solDest.length = SOL_DEST_LEN ∧
      payload = MAGIC ++ (partner ++ solDest)
  := by
  rw [encode]
  cases isValidPartnerTag partner with
  | false => simp
  | true =>
    by_cases hlen : solDest.length = SOL_DEST_LEN
    · simp [hlen, eq_comm]
    · simp [hlen]

theorem length_of_encode
    (h : encode partner solDest = .ok payload) :
  payload.length = PAYLOAD_LEN
  := by
  obtain ⟨hpartner, hdest, rfl⟩ := encode_eq_ok_iff.mp h
  rw [List.length_append, List.length_append, length_of_isValidPartnerTag hpartner, hdest]
  rfl

variable {r : Decoded}

/-- The payloads that are accepted are those that are written. -/
theorem decodePayload_eq_some_iff :
  decodePayload payload = some r ↔ encode r.partner r.solDest = .ok payload
  := by
  constructor
  · intro h
    rw [decodePayload] at h
    dsimp only at h
    split_ifs at h with hlen hmagic hpartner
    simp only [Option.some.injEq] at h
    subst h
    rw [encode_eq_ok_iff]
    refine ⟨by simpa using hpartner, ?_, ?_⟩
    · rw [List.length_drop, not_not.mp hlen]
      rfl
    · rw [← List.drop_drop, List.take_append_drop, ← not_not.mp hmagic, List.take_append_drop]
  · intro h
    have hlen := length_of_encode h
    obtain ⟨hpartner, hdest, rfl⟩ := encode_eq_ok_iff.mp h
    have hpartnerLen := length_of_isValidPartnerTag hpartner
    rw [decodePayload, if_neg (not_not.mpr hlen), if_neg (by simp [MAGIC, MAGIC_LEN])]
    have hdrop : (MAGIC ++ (r.partner ++ r.solDest)).drop MAGIC_LEN = r.partner ++ r.solDest := rfl
    simp only [← List.drop_drop, hdrop, ← hpartnerLen, List.take_left, List.drop_left, hpartner]
    rfl

variable {script : CScript}

theorem decodeScript_eq_some_iff :
  decodeScript script = some r ↔
    ∃ pc opcode payload tail, script = UInt8.ofNat OP_RETURN :: pc ∧
      getOp pc = some (opcode, payload, tail) ∧ encode r.partner r.solDest = .ok payload
  := by
  rw [decodeScript]
  constructor
  · intro h
    split_ifs at h with hhead
    obtain ⟨pc, rfl⟩ := List.head?_eq_some_iff.mp (not_not.mp hhead)
    simp only [getOp_return, ne_eq, not_true_eq_false, if_false] at h
    cases hop : getOp pc with
    | none => simp [hop] at h
    | some op =>
      obtain ⟨opcode, payload, tail⟩ := op
      simp only [hop] at h
      exact ⟨pc, opcode, payload, tail, rfl, hop, decodePayload_eq_some_iff.mp h⟩
  · rintro ⟨pc, opcode, payload, tail, rfl, hop, hpayload⟩
    simp only [List.head?_cons, ne_eq, not_true_eq_false, if_false, getOp_return, hop]
    exact decodePayload_eq_some_iff.mpr hpayload

/-! ## The scripts that are accepted -/

/-- The opcode and length field of each form of a push of a payload. -/
def payloadPushes : List Bytes := [[0x27], [0x4c, 0x27], [0x4d, 0x27, 0], [0x4e, 0x27, 0, 0, 0]]

theorem exists_payloadPush
    {pc tail : CScript} {opcode : ℕ}
    (h : getOp pc = some (opcode, payload, tail)) (hlen : payload.length = PAYLOAD_LEN) :
  ∃ push ∈ payloadPushes, pc = push ++ (payload ++ tail)
  := by
  cases pc with
  | nil => cases h
  | cons b script =>
    have hne : payload ≠ [] := by
      rintro rfl
      cases hlen
    obtain ⟨rfl, hle, hsize, rfl⟩ := getOp_push h hne
    rw [hlen] at hsize ⊢
    -- the opcode is one of the four that a push of 39 bytes can have
    have hopcode : b.toNat = 0x27 ∨ b.toNat = 0x4c ∨ b.toNat = 0x4d ∨ b.toNat = 0x4e := by
      simp only [OP_PUSHDATA1, OP_PUSHDATA4, PAYLOAD_LEN, MAGIC_LEN, PARTNER_LEN, SOL_DEST_LEN]
        at hsize hle
      omega
    have hb : b = UInt8.ofNat b.toNat := UInt8.ofNat_toNat.symm
    rcases hopcode with h | h | h | h <;> rw [h] at hb ⊢ <;> subst hb
    · exact ⟨[0x27], by decide, rfl⟩
    · exact ⟨[0x4c, 0x27], by decide, rfl⟩
    · exact ⟨[0x4d, 0x27, 0], by decide, rfl⟩
    · exact ⟨[0x4e, 0x27, 0, 0, 0], by decide, rfl⟩

theorem getOp_payloadPush
    {push : Bytes} (h : push ∈ payloadPushes) (hlen : payload.length = PAYLOAD_LEN) (tail : CScript) :
  ∃ opcode, getOp (push ++ (payload ++ tail)) = some (opcode, payload, tail)
  := by
  have htake : (payload ++ tail).take 39 = payload := List.take_left' hlen
  have hdrop : (payload ++ tail).drop 39 = tail := List.drop_left' hlen
  have hle : 39 ≤ payload.length + tail.length := by
    rw [hlen]
    apply Nat.le_add_right
  rw [payloadPushes] at h
  simp only [List.mem_cons, List.not_mem_nil, or_false] at h
  rcases h with rfl | rfl | rfl | rfl
  · exact ⟨0x27, by simp [getOp, OP_PUSHDATA1, OP_PUSHDATA4, htake, hdrop, hle]⟩
  · exact ⟨0x4c, by simp [getOp, OP_PUSHDATA1, OP_PUSHDATA4, ofLE, htake, hdrop, hle]⟩
  · exact ⟨0x4d, by
      simp [getOp, OP_PUSHDATA1, OP_PUSHDATA2, OP_PUSHDATA4, ofLE, htake, hdrop, hle]⟩
  · exact ⟨0x4e, by
      simp [getOp, OP_PUSHDATA1, OP_PUSHDATA2, OP_PUSHDATA4, ofLE, htake, hdrop, hle]⟩

/-- The scripts that carry a payload but are not as the payload specification lays them out: another
form of push, or something after it. -/
def OtherwiseWritten (script : CScript) : Prop :=
  ∃ push ∈ payloadPushes, ∃ partner solDest payload tail,
    encode partner solDest = .ok payload ∧
      script = UInt8.ofNat OP_RETURN :: (push ++ (payload ++ tail)) ∧ (push ≠ [0x27] ∨ tail ≠ [])

/-- An accepted script is the 41 bytes that are written for what is read from it. -/
def AsLaidOut (script : CScript) : Prop :=
  ∀ r, decodeScript script = some r →
    ∃ payload, encode r.partner r.solDest = .ok payload ∧ script = 0x6a :: 0x27 :: payload ∧
      script = burnScript payload ∧ script.length = 41

theorem burnScript_eq (h : payload.length = PAYLOAD_LEN) :
  burnScript payload = 0x6a :: 0x27 :: payload
  := by
  rw [burnScript, pushData, if_pos (by rw [h]; decide), h]
  rfl

theorem asLaidOut_iff : AsLaidOut script ↔ ¬ OtherwiseWritten script := by
  constructor
  · rintro h ⟨push, hmem, partner, solDest, payload, tail, hencode, rfl, hother⟩
    have hlen := length_of_encode hencode
    obtain ⟨opcode, hop⟩ := getOp_payloadPush hmem hlen tail
    obtain ⟨payload', hencode', -, -, hlen'⟩ :=
      h ⟨partner, solDest⟩ (decodeScript_eq_some_iff.mpr ⟨_, _, _, _, rfl, hop, hencode⟩)
    simp only [List.length_cons, List.length_append, hlen, PAYLOAD_LEN, MAGIC_LEN, PARTNER_LEN,
      SOL_DEST_LEN] at hlen'
    simp only [payloadPushes, List.mem_cons, List.not_mem_nil, or_false] at hmem
    rcases hmem with rfl | rfl | rfl | rfl
    · refine hother.elim (fun hne => hne rfl) (fun hne => hne ?_)
      simp only [List.length_cons, List.length_nil] at hlen'
      exact List.eq_nil_of_length_eq_zero (by omega)
    all_goals
      simp only [List.length_cons, List.length_nil] at hlen'
      omega
  · intro h r hr
    obtain ⟨pc, opcode, payload, tail, rfl, hop, hencode⟩ := decodeScript_eq_some_iff.mp hr
    have hlen := length_of_encode hencode
    obtain ⟨push, hmem, rfl⟩ := exists_payloadPush hop hlen
    have hpush : push = [0x27] ∧ tail = [] := by
      by_contra hne
      refine h ⟨push, hmem, r.partner, r.solDest, payload, tail, hencode, rfl, ?_⟩
      tauto
    obtain ⟨rfl, rfl⟩ := hpush
    rw [List.append_nil, List.singleton_append]
    refine ⟨payload, hencode, rfl, (burnScript_eq hlen).symm, ?_⟩
    rw [List.length_cons, List.length_cons, hlen]
    rfl

/-- What is written for a tag and a destination is read back. -/
theorem decodeScript_burnScript
    (h : encode partner solDest = .ok payload) :
  decodeScript (burnScript payload) = some ⟨partner, solDest⟩
  := by
  have hlen := length_of_encode h
  obtain ⟨opcode, hop⟩ := getOp_payloadPush (by decide : [0x27] ∈ payloadPushes) hlen []
  rw [List.append_nil, List.singleton_append] at hop
  rw [burnScript_eq hlen]
  exact decodeScript_eq_some_iff.mpr ⟨_, opcode, payload, [], rfl, hop, h⟩

/-- The scripts that the reader accepts start with `OP_RETURN`. -/
theorem exists_return_of_decodeScript
    (h : decodeScript script = some r) :
  ∃ pc, script = UInt8.ofNat OP_RETURN :: pc
  := by
  obtain ⟨pc, -, -, -, hscript, -, -⟩ := decodeScript_eq_some_iff.mp h
  exact ⟨pc, hscript⟩

/-- Burns are read back as they were written and no accepted script can be spent.  An accepted script
is the one that is written unless its payload is pushed in another form or followed by something. -/
theorem burns_faithful_and_final (script : CScript) :
  (∀ partner solDest : Bytes, isValidPartnerTag partner = true → solDest.length = SOL_DEST_LEN →
    ∃ payload, encode partner solDest = .ok payload ∧
      decodeScript (burnScript payload) = some ⟨partner, solDest⟩) ∧
  (AsLaidOut script ↔ ¬ OtherwiseWritten script) ∧
  (∀ r : Decoded, decodeScript script = some r →
    ∀ (crypto : Crypto) (ecdsa : Ecdsa) (hashes : ScriptHashes) (nHashType : Int32)
      (scriptSig : CScript) (txTo : CTransaction) (nIn : ℕ) (fValidatePayToScriptHash : Bool),
      verifyScript (evalScript crypto ecdsa hashes nHashType) scriptSig script txTo nIn
        fValidatePayToScriptHash = false)
  := by
  refine ⟨?_, asLaidOut_iff, ?_⟩
  · intro partner solDest hpartner hdest
    have hencode := encode_eq_ok_iff.mpr ⟨hpartner, hdest, rfl⟩
    exact ⟨_, hencode, decodeScript_burnScript hencode⟩
  · intro r hr crypto ecdsa hashes nHashType scriptSig txTo nIn fValidate
    obtain ⟨pc, rfl⟩ := exists_return_of_decodeScript hr
    exact verifyScript_return crypto ecdsa hashes nHashType scriptSig pc txTo nIn fValidate

/-- The payload of a burn for the partner `CORG`. -/
def samplePayload : Bytes := MAGIC ++ ([0x43, 0x4f, 0x52, 0x47] ++ List.replicate 32 7)

/-- Hash functions to evaluate definitions with. -/
def sampleScriptHashes : ScriptHashes where
  ripemd160 vch := (vch ++ List.replicate 20 0).take 20
  length_ripemd160 vch := List.length_take_of_le (by simp)
  sha1 vch := (vch ++ List.replicate 20 1).take 20
  length_sha1 vch := List.length_take_of_le (by simp)
  sha256 vch := (vch ++ List.replicate 32 2).take 32
  length_sha256 vch := List.length_take_of_le (by simp)
  hash160 vch := BitVec.ofNat 160 (ofLE vch + vch.length)

theorem samplePayload_burned :
  decodeScript (burnScript samplePayload) = some ⟨[0x43, 0x4f, 0x52, 0x47], List.replicate 32 7⟩ ∧
    ∀ scriptSig txTo nIn, verifyScript (evalScript sampleCrypto ⟨fun _ => true, fun _ _ _ => true⟩
      sampleScriptHashes 0) scriptSig (burnScript samplePayload) txTo nIn true = false
  := by
  obtain ⟨payload, hencode, hread⟩ :=
    (burns_faithful_and_final (burnScript samplePayload)).1 [0x43, 0x4f, 0x52, 0x47]
      (List.replicate 32 7) (by decide) (by decide)
  obtain ⟨-, -, rfl⟩ := encode_eq_ok_iff.mp hencode
  exact ⟨hread, fun scriptSig txTo nIn =>
    (burns_faithful_and_final _).2.2 _ hread _ _ _ _ scriptSig txTo nIn true⟩

/-- A payload pushed with `OP_PUSHDATA1`, and one with an opcode after it, are accepted although they
are not the scripts that are written. -/
theorem not_asLaidOut :
  decodeScript (UInt8.ofNat OP_RETURN :: 0x4c :: 0x27 :: samplePayload) =
      some ⟨[0x43, 0x4f, 0x52, 0x47], List.replicate 32 7⟩ ∧
    decodeScript (burnScript samplePayload ++ [0x51]) =
      some ⟨[0x43, 0x4f, 0x52, 0x47], List.replicate 32 7⟩ ∧
    ¬ AsLaidOut (UInt8.ofNat OP_RETURN :: 0x4c :: 0x27 :: samplePayload) ∧
    ¬ AsLaidOut (burnScript samplePayload ++ [0x51])
  := by
  have hpush : decodeScript (UInt8.ofNat OP_RETURN :: 0x4c :: 0x27 :: samplePayload) =
      some ⟨[0x43, 0x4f, 0x52, 0x47], List.replicate 32 7⟩ := by
    decide
  have htail : decodeScript (burnScript samplePayload ++ [0x51]) =
      some ⟨[0x43, 0x4f, 0x52, 0x47], List.replicate 32 7⟩ := by
    decide
  refine ⟨hpush, htail, fun h => ?_, fun h => ?_⟩
  · obtain ⟨-, -, -, -, hlen⟩ := h _ hpush
    revert hlen
    decide
  · obtain ⟨-, -, -, -, hlen⟩ := h _ htail
    revert hlen
    decide

end BurnPayload

end CorgiCoin
