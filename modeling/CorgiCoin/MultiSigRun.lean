import CorgiCoin.StandardScripts

/-!
# Running a multi-signature script

The run of a whole multi-signature script, and of a script that pays to the hash of another one.  The
first takes an element for each signature and one more from the stack and leaves whether the signatures
find their keys; it fails where there are fewer elements.
-/

namespace CorgiCoin

open Codec Exec

/-! ## Numbers -/

/-- The opcode of a number from one to sixteen. -/
theorem ofOpcode_number {n : ℕ} (hpos : 1 ≤ n) (hle : n ≤ 16) :
  Op.ofOpcode (OP_1 - 1 + n) = .smallInteger n
  := by
  interval_cases n
  all_goals rfl

section Running

variable {crypto : Crypto} {hashes : ScriptHashes} {check : Bytes → Bytes → CScript → Bool}
variable {m : Machine} {pc : CScript}

theorem instruction_number_run
    {n : ℕ} (hpos : 1 ≤ n) (hle : n ≤ 16) (hexec : m.vfExec = [])
    (hdepth : m.stack.length + m.altstack.length < 1000) :
  instruction crypto hashes check (OP_1 - 1 + n) [] pc m
    = .ok () { m with stack := getvch n :: m.stack }
  := by
  have hcounted : ¬OP_1 - 1 + n > OP_16 := by
    simp only [OP_1, OP_16]
    omega
  have hpush : ¬OP_1 - 1 + n ≤ OP_PUSHDATA4 := by
    simp only [OP_1, OP_PUSHDATA4]
    omega
  have hdisabled : ¬disabledOpcodes.contains (OP_1 - 1 + n) = true := by
    simp only [disabledOpcodes, List.contains_iff_mem, List.mem_cons, List.not_mem_nil, or_false, OP_1]
    omega
  rw [instruction_eq]
  simp only [bind_run, get_run, failIf, List.length_nil, if_neg (show ¬0 > 520 by decide), pure_run,
    countOp, if_neg hcounted, if_neg hdisabled, perform, hexec, List.contains_nil, Bool.not_false,
    hpush, and_false, if_false, true_or, if_true, ofOpcode_number hpos hle, switch, push, modify_run,
    List.length_cons]
  rw [if_neg (by omega), pure_run]

/-! ## The opcode on a short stack -/

/-- The opcode fails where the stack has not an element for each signature and one more. -/
theorem checkMultiSig_short
    {vchKeys vchSigs : Bytes} {keys below : List Bytes} {nSigs : ℕ}
    (hstack : m.stack = vchKeys :: (keys ++ vchSigs :: below))
    (hnKeys : numberOf vchKeys = some (keys.length : ℤ)) (hnSigs : numberOf vchSigs = some (nSigs : ℤ))
    (hkeys : keys.length ≤ 20) (hsigs : nSigs ≤ keys.length) (hcount : m.nOpCount + keys.length ≤ 201)
    (hshort : below.length ≤ nSigs) :
  ∃ m', Exec.checkMultiSig check m = .error .failed m'
  := by
  have hlength : m.stack.length = keys.length + below.length + 2 := by
    rw [hstack]
    simp only [List.length_cons, List.length_append]
    omega
  have hdropCount : m.stack.drop (keys.length + 1) = vchSigs :: below := by
    rw [hstack, List.drop_succ_cons, List.drop_left]
  generalize hm' : ({ m with nOpCount := m.nOpCount + keys.length } : Machine) = m'
  have hsame : m'.stack = m.stack := by rw [← hm']
  have hnOpCount : m'.nOpCount = m.nOpCount + keys.length := by rw [← hm']
  have hneed₁ : need 1 m = .ok () m := need_run (by omega)
  have htop : stacktop 1 m = .ok vchKeys m := stacktop_run (hstack : m.stack.drop 0 = _)
  have hneed₂ : need (2 + keys.length) m' = .ok () m' := need_run (by rw [hsame]; omega)
  have hmiddle : stacktop (2 + keys.length) m' = .ok vchSigs m' := by
    rw [show 2 + keys.length = (keys.length + 1) + 1 by omega]
    exact stacktop_run ((congrArg (List.drop _) hsame).trans hdropCount)
  have hneed₃ : need (2 + keys.length + 1 + nSigs) m' = .error .failed m' := by
    rw [need]
    simp only [bind_run, get_run]
    rw [if_pos (by rw [hsame]; omega), fail, throw_run]
  refine ⟨m', ?_⟩
  simp only [Exec.checkMultiSig, bind_run, hneed₁, htop, castToBigNum_run hnKeys]
  rw [if_neg (by omega)]
  simp only [bind_run, modify_run, get_run, Int.toNat_natCast, hm']
  rw [if_neg (by omega)]
  simp only [bind_run, hneed₂, hmiddle, castToBigNum_run hnSigs]
  rw [if_neg (by omega)]
  simp only [bind_run, Int.toNat_natCast, hneed₃]

/-! ## The whole script -/

theorem numberOf_number {n : ℕ} (hpos : 1 ≤ n) (hle : n ≤ 16) :
  numberOf (getvch n) = some (n : ℤ)
  := by
  have hnumber := @numberOf_getvch (OP_1 - 1 + n) (by simp only [OP_1, OP_16]; omega)
  rwa [decodeOP_N, Nat.add_sub_cancel_left] at hnumber

/-- A script of a multi-signature, its numbers within the limits of the template. -/
structure MultiSigScript (script : CScript) (nSigs : ℕ) (keyOps : List (ℕ × Bytes)) : Prop where
  ops : instructions script = (multiSigOps nSigs keyOps.length keyOps, true)
  size : ∀ op ∈ keyOps, isPubKeySize op.2 = true
  pos : 1 ≤ nSigs
  le_keys : nSigs ≤ keyOps.length
  keys_le : keyOps.length ≤ 16

namespace MultiSigScript

variable {script : CScript} {nSigs : ℕ} {keyOps : List (ℕ × Bytes)}

theorem length_key (h : MultiSigScript script nSigs keyOps) {op : ℕ × Bytes} (hop : op ∈ keyOps) :
  33 ≤ op.2.length ∧ op.2.length ≤ 120
  := by
  have hsize := h.size op hop
  rw [isPubKeySize, Bool.and_eq_true, decide_eq_true_eq, decide_eq_true_eq] at hsize
  exact hsize

theorem push_key (h : MultiSigScript script nSigs keyOps) {op : ℕ × Bytes} (hop : op ∈ keyOps) :
  op.1 ≤ OP_PUSHDATA4
  := by
  by_contra hlt
  have hmem : op ∈ (instructions script).1 := by
    rw [h.ops]
    apply List.mem_cons_of_mem _ (List.mem_append_left _ hop)
  have hlength := (h.length_key hop).1
  rw [vch_eq_nil_of_mem hmem (.inr (Nat.lt_of_not_le hlt))] at hlength
  cases hlength

theorem length_le (h : MultiSigScript script nSigs keyOps) :
  script.length ≤ 10000
  := by
  have hsize : ∀ op ∈ multiSigOps nSigs keyOps.length keyOps, op.2.length ≤ 520 := by
    intro op hop
    rw [multiSigOps, List.mem_cons, List.mem_append] at hop
    rcases hop with rfl | hop | hop
    · exact Nat.zero_le _
    · exact (h.length_key hop).2.trans (by decide)
    · simp only [List.mem_cons, List.not_mem_nil, or_false] at hop
      rcases hop with rfl | rfl
      · exact Nat.zero_le _
      · exact Nat.zero_le _
  have hlength := length_le_of_instructions h.ops hsize
  have hkeys := h.keys_le
  simp only [multiSigOps, List.length_cons, List.length_append, List.length_nil] at hlength
  omega

/-- The script runs up to its last opcode. -/
theorem loop_run
    (h : MultiSigScript script nSigs keyOps) {stack : List Bytes} (hdepth : stack.length ≤ 900) :
  loop crypto hashes check script.length script { stack, pbegincodehash := script }
    = (instruction crypto hashes check OP_CHECKMULTISIG [] [] >>= fun _ =>
        loop crypto hashes check 0 [])
      { stack := getvch keyOps.length :: ((keyOps.map Prod.snd).reverse ++ getvch nSigs :: stack)
        pbegincodehash := script }
  := by
  have hkeys := h.keys_le
  obtain ⟨pc₁, hop₁, hops₁⟩ := instructions_eq_cons_iff.mp h.ops
  obtain ⟨pc₂, hops₂, hpushes⟩ := @loop_pushes_append crypto hashes check
    { stack := getvch nSigs :: stack, pbegincodehash := script } pc₁ keyOps _ true hops₁
    (fun op hop => h.push_key hop) (fun op hop => (h.length_key hop).2.trans (by decide)) rfl
    (by simp only [List.length_cons, List.length_nil]; omega)
  obtain ⟨pc₃, hop₃, hops₃⟩ := instructions_eq_cons_iff.mp hops₂
  obtain ⟨pc₄, hop₄, hops₄⟩ := instructions_eq_cons_iff.mp hops₃
  obtain rfl := instructions_eq_nil_iff.mp hops₄
  rw [loop_cons hop₁, bind_run,
    instruction_number_run h.pos (h.le_keys.trans hkeys) rfl (by simp only [List.length_nil]; omega)]
  dsimp only
  rw [hpushes, loop_cons hop₃, bind_run,
    instruction_number_run (h.pos.trans h.le_keys) hkeys rfl
      (by simp only [List.length_append, List.length_reverse, List.length_map, List.length_cons,
        List.length_nil]; omega)]
  dsimp only
  rw [loop_cons hop₄]
  rfl

end MultiSigScript

end Running

section Whole

variable {crypto : Crypto} {ecdsa : Ecdsa} {hashes : ScriptHashes} {nHashType : Int32}
variable {txTo : CTransaction} {nIn : ℕ}
variable {script : CScript} {nSigs : ℕ} {keyOps : List (ℕ × Bytes)}

/-- The script takes the signatures and one element more from the stack, if they are there. -/
theorem MultiSigScript.evalScript_short
    (h : MultiSigScript script nSigs keyOps) {stack : List Bytes} (hshort : stack.length ≤ nSigs) :
  evalScript crypto ecdsa hashes nHashType stack script txTo nIn = none
  := by
  have hkeys := h.keys_le
  have hle := h.le_keys
  have hlength : (keyOps.map Prod.snd).reverse.length = keyOps.length := by
    rw [List.length_reverse, List.length_map]
  rw [evalScript, if_neg (Nat.not_lt.mpr h.length_le), runScript, EStateM.run,
    h.loop_run (by omega), bind_run]
  set m : Machine :=
    { stack := getvch keyOps.length :: ((keyOps.map Prod.snd).reverse ++ getvch nSigs :: stack)
      pbegincodehash := script } with hm
  obtain ⟨m', hrun⟩ := @checkMultiSig_short (fun vchSig vchPubKey scriptCode =>
    checkSig crypto ecdsa vchSig vchPubKey scriptCode txTo nIn nHashType) { m with nOpCount := 1 }
    (getvch keyOps.length) (getvch nSigs) (keyOps.map Prod.snd).reverse stack nSigs rfl
    (by rw [hlength]; exact numberOf_number (h.pos.trans h.le_keys) hkeys)
    (numberOf_number h.pos (hle.trans hkeys)) (by omega) (by omega) (by simp only [hlength]; omega)
    hshort
  have hfail := @instruction_op_error crypto hashes (fun vchSig vchPubKey scriptCode =>
    checkSig crypto ecdsa vchSig vchPubKey scriptCode txTo nIn nHashType) m OP_CHECKMULTISIG []
    .failed m' rfl (by decide) (Nat.zero_lt_of_lt (by decide : 0 < 201)) (by decide)
    (by simp only [OP_CHECKMULTISIG, Op.ofOpcode, switch, bind_run]; rw [hrun])
  rw [hfail]

/-- The script leaves whether the signatures find their keys. -/
theorem MultiSigScript.evalScript_run
    (h : MultiSigScript script nSigs keyOps) {sigs rest : List Bytes} {vchExtra : Bytes}
    (hsigs : sigs.length = nSigs) (hdepth : rest.length ≤ 800) :
  evalScript crypto ecdsa hashes nHashType (sigs ++ vchExtra :: rest) script txTo nIn
    = some (vchBool (Matching.search
      (fun vchSig vchPubKey => checkSig crypto ecdsa vchSig vchPubKey (withoutSigs sigs script) txTo nIn
        nHashType) sigs (keyOps.map Prod.snd).reverse) :: rest)
  := by
  have hkeys := h.keys_le
  have hle := h.le_keys
  have hlength : (keyOps.map Prod.snd).reverse.length = keyOps.length := by
    rw [List.length_reverse, List.length_map]
  have hstack : (sigs ++ vchExtra :: rest).length ≤ 900 := by
    simp only [List.length_append, List.length_cons]
    omega
  rw [evalScript, if_neg (Nat.not_lt.mpr h.length_le), runScript, EStateM.run, h.loop_run hstack, bind_run]
  set m : Machine :=
    { stack := getvch keyOps.length
        :: ((keyOps.map Prod.snd).reverse ++ getvch nSigs :: (sigs ++ vchExtra :: rest))
      pbegincodehash := script } with hm
  have hmulti : MultiSigStack { m with nOpCount := 1 } sigs (keyOps.map Prod.snd).reverse rest := by
    refine ⟨⟨_, _, vchExtra, rfl, ?_, ?_⟩, by omega, by omega, by simp only [hlength]; omega⟩
    · rw [hlength]
      exact numberOf_number (h.pos.trans h.le_keys) hkeys
    · rw [hsigs]
      exact numberOf_number h.pos (hle.trans hkeys)
  obtain ⟨fSuccess, nChecks, hrun, hsuccess⟩ := checkMultiSig_run (fun vchSig vchPubKey scriptCode =>
    checkSig crypto ecdsa vchSig vchPubKey scriptCode txTo nIn nHashType) hmulti
  have hok := @instruction_op_ok crypto hashes (fun vchSig vchPubKey scriptCode =>
    checkSig crypto ecdsa vchSig vchPubKey scriptCode txTo nIn nHashType) m OP_CHECKMULTISIG [] _ rfl
    (by decide) (Nat.zero_lt_of_lt (by decide : 0 < 201)) (by decide)
    (by simp only [OP_CHECKMULTISIG, Op.ofOpcode, switch, bind_run]; rw [hrun]; rfl)
    (by rw [hm]; simp only [List.length_cons, List.length_nil]; omega)
  rw [hok, ← hsuccess]
  rfl

/-! ## Paying to the hash of a script -/

theorem instructions_scriptForScriptID (scriptID : uint160) :
  instructions (scriptForScriptID scriptID)
    = ([(OP_HASH160, []), (20, serializeUint160 scriptID), (OP_EQUAL, [])], true)
  := by
  have hlength := length_serializeUint160 scriptID
  have hpush : getOp (pushData (serializeUint160 scriptID) ++ [UInt8.ofNat OP_EQUAL])
      = some (20, serializeUint160 scriptID, [UInt8.ofNat OP_EQUAL]) := by
    rw [getOp_pushData (by rw [hlength]; decide), pushOpcode, hlength]
    rfl
  have hhash : ∀ rest, getOp (UInt8.ofNat OP_HASH160 :: rest) = some (OP_HASH160, [], rest) :=
    fun _ => rfl
  rw [scriptForScriptID, List.append_assoc, List.cons_append, List.nil_append,
    instructions_cons (hhash _), instructions_cons hpush]
  rfl

theorem length_scriptForScriptID (scriptID : uint160) :
  (scriptForScriptID scriptID).length ≤ 10000
  := by
  have hsize : ∀ op ∈ [(OP_HASH160, []), (20, serializeUint160 scriptID), (OP_EQUAL, [])],
      op.2.length ≤ 520 := by
    have hlength := length_serializeUint160 scriptID
    simp [hlength]
  have hlength := length_le_of_instructions (instructions_scriptForScriptID scriptID) hsize
  simp only [List.length_cons, List.length_nil] at hlength
  omega

theorem isPayToScriptHash_scriptForScriptID (scriptID : uint160) :
  isPayToScriptHash (scriptForScriptID scriptID) = true
  := by
  have hlength := length_serializeUint160 scriptID
  have hsize : (scriptForScriptID scriptID).length = 23 := by
    rw [scriptForScriptID, pushData, hlength, if_pos (by decide)]
    simp only [List.length_append, List.length_cons, List.length_nil, hlength]
  have hlast : ((scriptForScriptID scriptID).map UInt8.toNat)[22]? = some OP_EQUAL := by
    rw [scriptForScriptID, pushData, hlength, if_pos (by decide), List.getElem?_map,
      List.getElem?_append_right (by simp [hlength])]
    simp [hlength, OP_EQUAL]
  rw [isPayToScriptHash, hlast, hsize]
  rfl

/-- A script that pays to the hash of a script compares the hash of the top of the stack, if the stack has
room for the hash that it is compared with. -/
theorem evalScript_scriptHash
    {vch : Bytes} {stack : List Bytes} (scriptID : uint160) (hdepth : stack.length ≤ 999) :
  evalScript crypto ecdsa hashes nHashType (vch :: stack) (scriptForScriptID scriptID) txTo nIn
    = if stack.length < 999 then
        some (vchBool (serializeUint160 (hashes.hash160 vch) == serializeUint160 scriptID) :: stack)
      else none
  := by
  generalize hcode : scriptForScriptID scriptID = script
  have hscript := instructions_scriptForScriptID scriptID
  rw [hcode] at hscript
  obtain ⟨pc₁, hop₁, hops⟩ := instructions_eq_cons_iff.mp hscript
  obtain ⟨pc₂, hop₂, hops⟩ := instructions_eq_cons_iff.mp hops
  obtain ⟨pc₃, hop₃, hops⟩ := instructions_eq_cons_iff.mp hops
  obtain rfl := instructions_eq_nil_iff.mp hops
  generalize hkeyHash : serializeUint160 (hashes.hash160 vch) = hash₁
  have hlength := length_serializeUint160 scriptID
  generalize serializeUint160 scriptID = hash₂ at hop₂ hlength ⊢
  set check := fun vchSig vchPubKey scriptCode =>
    checkSig crypto ecdsa vchSig vchPubKey scriptCode txTo nIn nHashType
  have hhash : instruction crypto hashes check OP_HASH160 [] pc₁ ⟨vch :: stack, [], [], 0, script, 0⟩
      = .ok () ⟨hash₁ :: stack, [], [], 1, script, 0⟩ := by
    rw [← hkeyHash]
    exact instruction_op_ok rfl (by decide) (Nat.zero_lt_of_lt (by decide : 0 < 201)) (by decide) rfl
      (by simp only [List.length_cons, List.length_nil]; omega)
  have hdata : instruction crypto hashes check 20 hash₂ pc₂ ⟨hash₁ :: stack, [], [], 1, script, 0⟩ = _ :=
    instruction_push_eq rfl (by decide) (by omega)
  have hshort : script.length ≤ 10000 := by
    rw [← hcode]
    apply length_scriptForScriptID
  rw [evalScript, if_neg (Nat.not_lt.mpr hshort), runScript, EStateM.run, loop_cons hop₁, bind_run, hhash]
  dsimp only
  rw [loop_cons hop₂, bind_run, hdata]
  split_ifs with hroom hlt hlt
  · have hequal : instruction crypto hashes check OP_EQUAL [] [] ⟨hash₂ :: hash₁ :: stack, [], [], 1, script, 0⟩
        = .ok () ⟨vchBool (hash₁ == hash₂) :: stack, [], [], 2, script, 0⟩ :=
      instruction_op_ok rfl (by decide) (Nat.lt_of_lt_of_le Nat.one_lt_two (by decide)) (by decide) rfl
        (by simp only [List.length_cons, List.length_nil]; omega)
    dsimp only
    rw [loop_cons hop₃, bind_run, hequal]
    rfl
  · exact absurd (Nat.succ_lt_succ_iff.mp hroom) hlt
  · exact absurd (Nat.succ_lt_succ hlt) hroom
  · rfl

/-- It fails on an empty stack. -/
theorem evalScript_scriptHash_nil (scriptID : uint160) :
  evalScript crypto ecdsa hashes nHashType [] (scriptForScriptID scriptID) txTo nIn = none
  := by
  obtain ⟨pc₁, hop₁, hops⟩ := instructions_eq_cons_iff.mp (instructions_scriptForScriptID scriptID)
  set check := fun vchSig vchPubKey scriptCode =>
    checkSig crypto ecdsa vchSig vchPubKey scriptCode txTo nIn nHashType
  have hhash : instruction crypto hashes check OP_HASH160 [] pc₁
      ⟨[], [], [], 0, scriptForScriptID scriptID, 0⟩
      = .error .failed ⟨[], [], [], 1, scriptForScriptID scriptID, 0⟩ :=
    instruction_op_error rfl (by decide) (Nat.zero_lt_of_lt (by decide : 0 < 201)) (by decide) rfl
  rw [evalScript, if_neg (Nat.not_lt.mpr (length_scriptForScriptID scriptID)), runScript, EStateM.run,
    loop_cons hop₁, bind_run, hhash]

end Whole

end CorgiCoin
