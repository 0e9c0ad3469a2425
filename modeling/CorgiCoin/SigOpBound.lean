import CorgiCoin.ScriptLimits

/-!
# Counted signature operations

`GetSigOpCount` reads a script without running it and guesses the keys of a multi-signature from the
opcode before it.  The calls of `CheckSig` that `EvalScript` and `VerifyScript` make are at most as
many as it counts, so that the limit on the counted operations of a block limits what the
verification of the block costs.
-/

namespace CorgiCoin

open Codec Exec

/-! ## Counting calls -/

section Counting

variable (crypto : Crypto) (ecdsa : Ecdsa) (hashes : ScriptHashes) (nHashType : Int32)
variable (txTo : CTransaction) (nIn : ℕ)

/-- The machine that a run leaves, when it comes to its end and when it is stopped. -/
def machineOf : EStateM.Result Stop Machine Unit → Machine
  | .ok _ m => m
  | .error _ m => m

/-- The calls of `CheckSig` that `EvalScript` makes. -/
def evalScriptChecks (stack : List Bytes) (script : CScript) : ℕ :=
  if script.length > 10000 then 0
  else
    (machineOf (runScript crypto hashes
      (fun vchSig vchPubKey scriptCode =>
        checkSig crypto ecdsa vchSig vchPubKey scriptCode txTo nIn nHashType) stack script)).nChecks

/-- The calls of `CheckSig` that `VerifyScript` makes in the scripts that it runs. -/
def verifyScriptChecks (scriptSig scriptPubKey : CScript) (fValidatePayToScriptHash : Bool) : ℕ :=
  let eval := evalScript crypto ecdsa hashes nHashType
  let checks := evalScriptChecks crypto ecdsa hashes nHashType txTo nIn
  checks [] scriptSig +
    match eval [] scriptSig txTo nIn with
    | none => 0
    | some stackCopy =>
      checks stackCopy scriptPubKey +
        match eval stackCopy scriptPubKey txTo nIn with
        | none => 0
        | some [] => 0
        | some (top :: _) =>
          if !castToBool top then 0
          else if fValidatePayToScriptHash && isPayToScriptHash scriptPubKey then
            if !isPushOnly scriptSig then 0
            else
              match stackCopy with
              | [] => 0
              | pubKey2 :: stackCopy => checks stackCopy pubKey2
          else 0

end Counting

/-! ## The count as a number -/

theorem toNat_sigOpsOf_le (lastOpcode opcode : ℕ) :
  (sigOpsOf true lastOpcode opcode).toNat ≤ 20
  := by
  rw [sigOpsOf]
  split_ifs with hsingle hmulti hkeys
  · decide
  · have hle : decodeOP_N lastOpcode ≤ 16 := by
      simp only [decodeOP_N, OP_1, OP_16] at hkeys ⊢
      omega
    rw [UInt32.toNat_ofNat']
    omega
  · decide
  · decide

theorem chargeOf_le (lastOpcode : ℕ) (ops : List (ℕ × Bytes)) :
  chargeOf lastOpcode ops ≤ 20 * ops.length
  := by
  induction ops generalizing lastOpcode with
  | nil => rfl
  | cons op ops ih =>
    have hop := toNat_sigOpsOf_le lastOpcode op.1
    have hops := ih op.1
    rw [chargeOf, List.length_cons]
    omega

/-- The count does not wrap for as many instructions as a script may have. -/
theorem toNat_countSigOps
    (lastOpcode : ℕ) {ops : List (ℕ × Bytes)} (h : 20 * ops.length < 2 ^ 32) :
  (countSigOps true lastOpcode ops).toNat = chargeOf lastOpcode ops
  := by
  induction ops generalizing lastOpcode with
  | nil => rfl
  | cons op ops ih =>
    have hle := chargeOf_le lastOpcode (op :: ops)
    rw [chargeOf] at hle
    rw [List.length_cons] at h hle
    rw [countSigOps, chargeOf, UInt32.toNat_add, ih op.1 (by omega), Nat.mod_eq_of_lt (by omega)]

theorem length_parse_le (n : ℕ) (script : CScript) :
  (parse n script).1.length ≤ n
  := by
  induction n generalizing script with
  | zero => rfl
  | succ n ih =>
    rw [parse]
    split_ifs
    · apply Nat.zero_le
    · cases getOp script with
      | none => apply Nat.zero_le
      | some op => exact Nat.succ_le_succ (ih _)

section Bounds

variable {crypto : Crypto} {ecdsa : Ecdsa} {hashes : ScriptHashes} {nHashType : Int32}
variable {txTo : CTransaction} {nIn : ℕ}

/-- The calls of a run are at most those that its script is counted for. -/
theorem evalScriptChecks_le (stack : List Bytes) (script : CScript) :
  evalScriptChecks crypto ecdsa hashes nHashType txTo nIn stack script
    ≤ (getSigOpCount true script).toNat
  := by
  rw [evalScriptChecks]
  split_ifs with hlong
  · apply Nat.zero_le
  · have hlength := length_parse_le script.length script
    have hcount : (getSigOpCount true script).toNat
        = chargeOf OP_INVALIDOPCODE (parse script.length script).1 := by
      rw [getSigOpCount, instructions]
      exact toNat_countSigOps _ (by omega)
    have hpushes : SmallPushes (fun _ => True) (max 1000 stack.length) :=
      ⟨fun _ => trivial, fun _ => trivial, fun _ => trivial⟩
    have hrun := @loop_spec crypto hashes
      (fun vchSig vchPubKey scriptCode =>
        checkSig crypto ecdsa vchSig vchPubKey scriptCode txTo nIn nHashType) _ _
      (chargeOf OP_INVALIDOPCODE (parse script.length script).1) hpushes (le_max_left _ _)
      script.length script OP_INVALIDOPCODE { stack, pbegincodehash := script }
      ⟨⟨fun _ _ => trivial, fun _ _ => trivial, Nat.zero_le _, (Nat.zero_add _).le, Nat.zero_le _⟩,
        fun _ => keysAtMost_twenty _, le_max_right _ _⟩
    rw [hcount, runScript, EStateM.run]
    revert hrun
    cases loop crypto hashes _ script.length script { stack, pbegincodehash := script } with
    | ok a m => exact fun hm => hm.1.nChecks_le
    | error stop m => exact fun hm => hm.nChecks_le

end Bounds

/-! ## Pay to script hash -/

/-- The form that `IsPayToScriptHash` tests for. -/
theorem eq_of_isPayToScriptHash {script : CScript} (h : isPayToScriptHash script = true) :
  ∃ hash : Bytes, hash.length = 20
    ∧ script = UInt8.ofNat OP_HASH160 :: (pushData hash ++ [UInt8.ofNat OP_EQUAL])
  := by
  rw [isPayToScriptHash] at h
  simp only [Bool.and_eq_true, beq_iff_eq, List.getElem?_map, Option.map_eq_some_iff] at h
  obtain ⟨⟨⟨hlength, b0, hb0, h0⟩, b1, hb1, h1⟩, b22, hb22, h22⟩ := h
  obtain rfl : b0 = UInt8.ofNat OP_HASH160 := UInt8.toNat_inj.mp h0
  obtain rfl : b1 = 0x14 := UInt8.toNat_inj.mp h1
  obtain rfl : b22 = UInt8.ofNat OP_EQUAL := UInt8.toNat_inj.mp h22
  rcases script with _ | ⟨b0, _ | ⟨b1, rest⟩⟩
  · cases hlength
  · cases hlength
  cases hb0
  cases hb1
  have hrest : rest.length = 21 := Nat.succ.inj (Nat.succ.inj hlength)
  have hhash : (rest.take 20).length = 20 := by
    rw [List.length_take, hrest]
    rfl
  have hlast : rest.drop 20 = [UInt8.ofNat OP_EQUAL] := by
    have hget : rest[20]? = some (UInt8.ofNat OP_EQUAL) := hb22
    rw [List.drop_eq_getElem_cons (by omega), List.drop_eq_nil_of_le (by omega)]
    rw [List.getElem?_eq_getElem (by omega), Option.some_inj] at hget
    rw [hget]
  refine ⟨rest.take 20, hhash, ?_⟩
  rw [pushData, hhash, if_pos (by decide), List.cons_append, ← hlast, List.take_append_drop]
  rfl

theorem getSigOpCount_payToScriptHash {script : CScript} (h : isPayToScriptHash script = true) :
  getSigOpCount true script = 0
  := by
  obtain ⟨hash, hlength, rfl⟩ := eq_of_isPayToScriptHash h
  have hhead : ∀ rest, getOp (UInt8.ofNat OP_HASH160 :: rest) = some (OP_HASH160, [], rest) :=
    fun _ => rfl
  have hpush : getOp (pushData hash ++ [UInt8.ofNat OP_EQUAL])
      = some (20, hash, [UInt8.ofNat OP_EQUAL]) := by
    rw [getOp_pushData (by omega), pushOpcode, hlength]
    rfl
  rw [getSigOpCount, instructions_cons (hhead _), instructions_cons hpush]
  rfl

section PushOnly

variable {crypto : Crypto} {hashes : ScriptHashes} {check : Bytes → Bytes → CScript → Bool}

/-- A script of pushes leaves what they push. -/
theorem loop_pushOnly
    {fuel : ℕ} {pc : CScript} {m m' : Machine} (hexec : m.vfExec = [])
    (hops : ∀ op ∈ (parse fuel pc).1, op.1 ≤ OP_16)
    (h : loop crypto hashes check fuel pc m = .ok () m') :
  m'.vfExec = []
    ∧ m'.stack = ((parse fuel pc).1.map (fun op => pushedBy op.1 op.2)).reverse ++ m.stack
  := by
  induction fuel generalizing pc m with
  | zero =>
    cases h
    exact ⟨hexec, rfl⟩
  | succ fuel ih =>
    rw [parse] at hops ⊢
    rw [loop] at h
    split_ifs at h hops ⊢ with hempty
    · cases h
      exact ⟨hexec, rfl⟩
    · cases hop : getOp pc with
      | none =>
        rw [hop] at h
        cases h
      | some op =>
        obtain ⟨opcode, vchPushValue, pc'⟩ := op
        rw [hop] at h hops
        obtain ⟨hopcode, hrest⟩ := List.forall_mem_cons.mp hops
        simp only [bind_run] at h
        cases hrun : instruction crypto hashes check opcode vchPushValue pc' m with
        | error stop m₁ =>
          rw [hrun] at h
          cases h
        | ok a m₁ =>
          rw [hrun] at h
          have hpush := instruction_push hopcode hrun
          rw [hexec, if_neg (by decide)] at hpush
          obtain ⟨hexec', hstack⟩ := ih (by rw [hpush]) hrest h
          refine ⟨hexec', ?_⟩
          rw [hstack, hpush, List.map_cons, List.reverse_cons, List.append_assoc]
          rfl

end PushOnly

section Bounds

variable {crypto : Crypto} {ecdsa : Ecdsa} {hashes : ScriptHashes} {nHashType : Int32}
variable {txTo : CTransaction} {nIn : ℕ}

/-- What a script of pushes leaves on top is what its last instruction pushes. -/
theorem head?_of_pushOnly
    {scriptSig : CScript} (hpush : isPushOnly scriptSig = true) {stackCopy : List Bytes}
    (heval : evalScript crypto ecdsa hashes nHashType [] scriptSig txTo nIn = some stackCopy) :
  stackCopy.head? = (instructions scriptSig).1.getLast?.map (fun op => pushedBy op.1 op.2)
  := by
  rw [isPushOnly, Bool.and_eq_true, List.all_eq_true] at hpush
  have hops : ∀ op ∈ (parse scriptSig.length scriptSig).1, op.1 ≤ OP_16 :=
    fun op hop => of_decide_eq_true (hpush.2 op hop)
  rw [evalScript] at heval
  split_ifs at heval
  cases hrun : runScript crypto hashes (fun vchSig vchPubKey scriptCode =>
      checkSig crypto ecdsa vchSig vchPubKey scriptCode txTo nIn nHashType) [] scriptSig with
  | error stop m =>
    rw [hrun] at heval
    cases heval
  | ok a m =>
    obtain ⟨hexec, hstack⟩ := loop_pushOnly rfl hops hrun
    simp only [hrun, hexec, List.isEmpty_nil, if_true, Option.some_inj] at heval
    rw [← heval, hstack, List.append_nil, List.head?_reverse, List.getLast?_map]
    rfl

/-- What an opcode for a number pushes is no script with signature operations. -/
theorem getSigOpCount_number {opcode : ℕ} (hlow : ¬opcode ≤ OP_PUSHDATA4) (hhigh : opcode ≤ OP_16) :
  getSigOpCount true (getvch (opcode - 0x50 : ℤ)) = 0
  := by
  simp only [OP_PUSHDATA4, OP_16] at hlow hhigh
  have hlow : 0x4f ≤ opcode := by omega
  interval_cases opcode
  all_goals decide

/-- The script that an input pushes last is the one that its operations are counted in, unless it
has none. -/
theorem getSigOpCount_last
    {scriptSig : CScript} (hpush : isPushOnly scriptSig = true) {stackCopy : List Bytes}
    {pubKey2 : CScript}
    (heval : evalScript crypto ecdsa hashes nHashType [] scriptSig txTo nIn
      = some (pubKey2 :: stackCopy)) {scriptPubKey : CScript}
    (hkey : isPayToScriptHash scriptPubKey = true) :
  getSigOpCount true pubKey2 = 0 ∨ getSigOpCount true pubKey2 = getSigOpCountFor scriptPubKey scriptSig
  := by
  have hhead := head?_of_pushOnly hpush heval
  rw [List.head?_cons, eq_comm, Option.map_eq_some_iff] at hhead
  obtain ⟨⟨opcode, vch⟩, hlast, rfl⟩ := hhead
  rw [pushedBy]
  split_ifs with hdata
  · apply Or.inr
    rw [getSigOpCountFor, hkey, hpush, hlast]
    rfl
  · apply Or.inl
    apply getSigOpCount_number hdata
    rw [isPushOnly, Bool.and_eq_true, List.all_eq_true] at hpush
    exact of_decide_eq_true (hpush.2 _ (List.mem_of_getLast? hlast))

end Bounds

/-- The calls of `CheckSig` in a run of a script, on whatever stack and also when the run is
stopped, are at most as many as the script is counted for.  Those of the verification of an input
that spends a pay-to-script-hash output are at most as many as the output is counted for with the
script of the input, and the script of the input by itself. -/
theorem sigOpCounts_bound_checks
    (crypto : Crypto) (ecdsa : Ecdsa) (hashes : ScriptHashes) (nHashType : Int32)
    (txTo : CTransaction) (nIn : ℕ) :
  (∀ stack script, evalScriptChecks crypto ecdsa hashes nHashType txTo nIn stack script
    ≤ (getSigOpCount true script).toNat)
  ∧ ∀ scriptSig scriptPubKey fValidatePayToScriptHash, isPayToScriptHash scriptPubKey = true →
    verifyScriptChecks crypto ecdsa hashes nHashType txTo nIn scriptSig scriptPubKey
      fValidatePayToScriptHash
    ≤ (getSigOpCountFor scriptPubKey scriptSig).toNat + (getSigOpCount true scriptSig).toNat
  := by
  refine ⟨evalScriptChecks_le, ?_⟩
  intro scriptSig scriptPubKey fValidatePayToScriptHash hkey
  have hsig := @evalScriptChecks_le crypto ecdsa hashes nHashType txTo nIn [] scriptSig
  have hnone : ∀ stack,
      evalScriptChecks crypto ecdsa hashes nHashType txTo nIn stack scriptPubKey = 0 := by
    intro stack
    have hle := @evalScriptChecks_le crypto ecdsa hashes nHashType txTo nIn stack scriptPubKey
    rw [getSigOpCount_payToScriptHash hkey] at hle
    exact Nat.le_zero.mp hle
  rw [verifyScriptChecks]
  cases heval : evalScript crypto ecdsa hashes nHashType [] scriptSig txTo nIn with
  | none => exact hsig.trans (Nat.le_add_left _ _)
  | some stackCopy =>
    dsimp only
    rw [hnone, Nat.zero_add, Nat.add_comm]
    apply Nat.add_le_add _ hsig
    split
    · apply Nat.zero_le
    · apply Nat.zero_le
    · split_ifs with htop hvalidate hpush
      · apply Nat.zero_le
      · apply Nat.zero_le
      · rw [Bool.not_eq_true', Bool.not_eq_false] at hpush
        cases stackCopy with
        | nil => apply Nat.zero_le
        | cons pubKey2 stackCopy =>
          have hle := @evalScriptChecks_le crypto ecdsa hashes nHashType txTo nIn stackCopy pubKey2
          rcases getSigOpCount_last hpush heval hkey with hcount | hcount
          · rw [hcount] at hle
            exact hle.trans (Nat.zero_le _)
          · rw [hcount] at hle
            exact hle
      · apply Nat.zero_le

/-- An input with a redeem script that makes one call. -/
theorem sigOpCounts_bound_redeem :
  verifyScriptChecks sampleCrypto ⟨fun _ => true, fun _ _ _ => true⟩ BurnPayload.sampleScriptHashes 0
    ⟨1, [], [], 0⟩ 0 [0x51, 0x51, 0x01, 0xac]
    ([0xa9, 0x14] ++ serializeUint160 (BurnPayload.sampleScriptHashes.hash160 [0xac]) ++ [0x87]) true
    ≤ 1
  := (sigOpCounts_bound_checks sampleCrypto ⟨fun _ => true, fun _ _ _ => true⟩
      BurnPayload.sampleScriptHashes 0 ⟨1, [], [], 0⟩ 0).2 _ _ true (by decide)

end CorgiCoin
