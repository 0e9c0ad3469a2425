import CorgiCoin.Templates

/-!
# What satisfies a standard script

The run of a script that pays to the hash of a public key, instruction by instruction.  A signature
and a key satisfy it when the key has the hash and `CheckSig` accepts the signature, and together with
the types that `Solver` finds this says what the standard scripts mean.
-/

namespace CorgiCoin

open Codec Exec

/-! ## Instructions that run -/

section Running

variable {crypto : Crypto} {hashes : ScriptHashes} {check : Bytes → Bytes → CScript → Bool}
variable {m : Machine} {opcode : ℕ} {pc : CScript}

variable {script : CScript} {vch : Bytes}

/-- A loop over a script is its first instruction and a loop over the rest. -/
theorem loop_cons
    (h : getOp script = some (opcode, vch, pc)) :
  loop crypto hashes check script.length script
    = (instruction crypto hashes check opcode vch pc >>= fun _ => loop crypto hashes check pc.length pc)
  := by
  have hlt := (getOp_suffix h).2
  cases script with
  | nil => cases h
  | cons b rest =>
    rw [List.length_cons, loop, if_neg (by simp), h]
    dsimp only
    rw [loop_of_length_le rest.length (Nat.lt_succ_iff.mp hlt)]

/-- A push leaves its data on the stack, and fails where the stacks are full. -/
theorem instruction_push_eq
    (hexec : m.vfExec = []) (hopcode : opcode ≤ OP_PUSHDATA4) (hvch : vch.length ≤ 520) :
  instruction crypto hashes check opcode vch pc m
    = if m.stack.length + m.altstack.length < 1000 then .ok () { m with stack := vch :: m.stack }
      else .error .failed { m with stack := vch :: m.stack }
  := by
  simp only [OP_PUSHDATA4] at hopcode
  have hcounted : ¬opcode > OP_16 := by
    simp only [OP_16]
    omega
  have hdisabled : ¬disabledOpcodes.contains opcode = true := by
    simp only [disabledOpcodes, List.contains_iff_mem, List.mem_cons, List.not_mem_nil, or_false]
    omega
  have hdata : opcode ≤ OP_PUSHDATA4 := hopcode
  rw [instruction_eq]
  simp only [bind_run, get_run, failIf, if_neg (Nat.not_lt.mpr hvch), pure_run, countOp,
    if_neg hcounted, if_neg hdisabled, perform, hexec, List.contains_nil, Bool.not_false, hdata,
    and_self, if_true, push, modify_run, List.length_cons]
  rcases Nat.lt_or_ge (m.stack.length + m.altstack.length) 1000 with hroom | hfull
  · rw [if_neg (by omega), if_pos hroom, pure_run]
  · rw [if_pos (by omega), if_neg (Nat.not_lt.mpr hfull)]
    rfl

/-- An opcode that is counted does what its case of the switch does, and then the limits are tested. -/
theorem instruction_op_run
    (hexec : m.vfExec = []) (hopcode : opcode > OP_16) (hcount : m.nOpCount < 201)
    (hdisabled : opcode ∉ disabledOpcodes) :
  instruction crypto hashes check opcode [] pc m
    = (switch crypto hashes check pc true (Op.ofOpcode opcode) >>= fun _ => get >>= fun m =>
        failIf (m.stack.length + m.altstack.length > 1000))
      { m with nOpCount := m.nOpCount + 1 }
  := by
  have hpush : ¬opcode ≤ OP_PUSHDATA4 := by
    simp only [OP_16, OP_PUSHDATA4] at hopcode ⊢
    omega
  have hcontains : ¬disabledOpcodes.contains opcode = true := by
    rwa [List.contains_iff_mem]
  rw [instruction_eq]
  simp only [bind_run, get_run, failIf, List.length_nil, if_neg (show ¬0 > 520 by decide), pure_run,
    countOp, if_pos hopcode, modify_run, if_neg (show ¬m.nOpCount + 1 > 201 by omega),
    if_neg hcontains, perform, hexec, List.contains_nil, Bool.not_false, hpush, and_false, if_false,
    true_or, if_true]

/-- A case of the switch that is passed within the limits. -/
theorem instruction_op_ok
    {m' : Machine} (hexec : m.vfExec = []) (hopcode : opcode > OP_16) (hcount : m.nOpCount < 201)
    (hdisabled : opcode ∉ disabledOpcodes)
    (hswitch : switch crypto hashes check pc true (Op.ofOpcode opcode)
      { m with nOpCount := m.nOpCount + 1 } = .ok () m')
    (hdepth : m'.stack.length + m'.altstack.length ≤ 1000) :
  instruction crypto hashes check opcode [] pc m = .ok () m'
  := by
  rw [instruction_op_run hexec hopcode hcount hdisabled, bind_run, hswitch]
  simp only [bind_run, get_run, failIf, if_neg (Nat.not_lt.mpr hdepth), pure_run]

theorem instruction_op_error
    {stop : Stop} {m' : Machine} (hexec : m.vfExec = []) (hopcode : opcode > OP_16)
    (hcount : m.nOpCount < 201) (hdisabled : opcode ∉ disabledOpcodes)
    (hswitch : switch crypto hashes check pc true (Op.ofOpcode opcode)
      { m with nOpCount := m.nOpCount + 1 } = .error stop m') :
  instruction crypto hashes check opcode [] pc m = .error stop m'
  := by
  rw [instruction_op_run hexec hopcode hcount hdisabled, bind_run, hswitch]

/-! ## Scripts of pushes -/

/-- A script with small pushes is not long. -/
theorem length_le_of_instructions
    {ops : List (ℕ × Bytes)} (hops : instructions script = (ops, true))
    (hsize : ∀ op ∈ ops, op.2.length ≤ 520) :
  script.length ≤ 525 * ops.length
  := by
  induction ops generalizing script with
  | nil =>
    obtain rfl := instructions_eq_nil_iff.mp hops
    exact Nat.zero_le _
  | cons op ops ih =>
    obtain ⟨pc, hop, hrest⟩ := instructions_eq_cons_iff.mp hops
    obtain ⟨hvch, hsizes⟩ := List.forall_mem_cons.mp hsize
    have hlength := (length_of_getOp hop).2
    have hpc := ih hrest hsizes
    rw [List.length_cons]
    omega

/-- Pushes within the limits leave their data on the stack for the instructions after them. -/
theorem loop_pushes_append
    {script : CScript} {ops ops' : List (ℕ × Bytes)} {ok : Bool}
    (hops : instructions script = (ops ++ ops', ok))
    (hpush : ∀ op ∈ ops, op.1 ≤ OP_PUSHDATA4) (hsize : ∀ op ∈ ops, op.2.length ≤ 520)
    (hexec : m.vfExec = []) (hdepth : m.stack.length + m.altstack.length + ops.length ≤ 1000) :
  ∃ pc, instructions pc = (ops', ok)
    ∧ loop crypto hashes check script.length script m
      = loop crypto hashes check pc.length pc { m with stack := (ops.map Prod.snd).reverse ++ m.stack }
  := by
  induction ops generalizing script m with
  | nil => exact ⟨script, hops, rfl⟩
  | cons op ops ih =>
    rw [List.cons_append] at hops
    obtain ⟨pc, hop, hrest⟩ := instructions_eq_cons_iff.mp hops
    obtain ⟨hopcode, hpushes⟩ := List.forall_mem_cons.mp hpush
    obtain ⟨hvch, hsizes⟩ := List.forall_mem_cons.mp hsize
    rw [List.length_cons] at hdepth
    obtain ⟨pc', hpc', hloop⟩ := @ih { m with stack := op.2 :: m.stack } pc hrest hpushes hsizes hexec
      (by simp only [List.length_cons]; omega)
    refine ⟨pc', hpc', ?_⟩
    rw [loop_cons hop, bind_run, instruction_push_eq hexec hopcode hvch, if_pos (by omega)]
    dsimp only
    rw [hloop]
    simp only [List.map_cons, List.reverse_cons, List.append_assoc, List.singleton_append]

/-- A script of pushes within the limits leaves its data on the stack. -/
theorem loop_pushes
    {ops : List (ℕ × Bytes)} (hops : instructions script = (ops, true))
    (hpush : ∀ op ∈ ops, op.1 ≤ OP_PUSHDATA4) (hsize : ∀ op ∈ ops, op.2.length ≤ 520)
    (hexec : m.vfExec = []) (hdepth : m.stack.length + m.altstack.length + ops.length ≤ 1000) :
  loop crypto hashes check script.length script m
    = .ok () { m with stack := (ops.map Prod.snd).reverse ++ m.stack }
  := by
  rw [← List.append_nil ops] at hops
  obtain ⟨pc, hpc, hloop⟩ := loop_pushes_append hops hpush hsize hexec hdepth
  obtain rfl := instructions_eq_nil_iff.mp hpc
  rw [hloop]
  rfl

/-- A push of more than 520 bytes fails the script. -/
theorem loop_pushes_large
    {script : CScript} {ops : List (ℕ × Bytes)} (hops : instructions script = (ops, true))
    (hpush : ∀ op ∈ ops, op.1 ≤ OP_PUSHDATA4) (hlarge : ∃ op ∈ ops, 520 < op.2.length)
    (hexec : m.vfExec = []) (hdepth : m.stack.length + m.altstack.length + ops.length ≤ 1000) :
  ∃ m', loop crypto hashes check script.length script m = .error .failed m'
  := by
  induction ops generalizing script m with
  | nil =>
    obtain ⟨op, hmem, -⟩ := hlarge
    cases hmem
  | cons op ops ih =>
    obtain ⟨pc, hop, hrest⟩ := instructions_eq_cons_iff.mp hops
    obtain ⟨hopcode, hpushes⟩ := List.forall_mem_cons.mp hpush
    rw [List.length_cons] at hdepth
    rw [loop_cons hop, bind_run]
    by_cases hvch : op.2.length ≤ 520
    · have htail : ∃ op ∈ ops, 520 < op.2.length := by
        obtain ⟨op', hmem, hlt⟩ := hlarge
        rcases List.mem_cons.mp hmem with rfl | hmem
        · omega
        · exact ⟨op', hmem, hlt⟩
      rw [instruction_push_eq hexec hopcode hvch, if_pos (by omega)]
      exact ih hrest hpushes htail hexec (by simp only [List.length_cons]; omega)
    · rw [instruction_eq]
      simp only [bind_run, get_run, failIf, if_pos (Nat.lt_of_not_le hvch), fail, throw_run]
      exact ⟨_, rfl⟩

/-! ## Paying to the hash of a public key -/

theorem equalVerify_same {stack : List Bytes} {nOpCount nChecks : ℕ} :
  switch crypto hashes check pc true .equalVerify ⟨vch :: vch :: stack, [], [], nOpCount, script, nChecks⟩
    = .ok () ⟨stack, [], [], nOpCount, script, nChecks⟩
  := by
  have hequal : equal ⟨vch :: vch :: stack, [], [], nOpCount, script, nChecks⟩
      = .ok true ⟨vchBool true :: stack, [], [], nOpCount, script, nChecks⟩ := by
    rw [← beq_self_eq_true vch]
    rfl
  rw [switch, bind_run, hequal]
  rfl

theorem equalVerify_ne
    {vch1 vch2 : Bytes} {stack : List Bytes} {nOpCount nChecks : ℕ} (h : vch1 ≠ vch2) :
  switch crypto hashes check pc true .equalVerify ⟨vch2 :: vch1 :: stack, [], [], nOpCount, script, nChecks⟩
    = .error .failed ⟨vchBool false :: stack, [], [], nOpCount, script, nChecks⟩
  := by
  have hequal : equal ⟨vch2 :: vch1 :: stack, [], [], nOpCount, script, nChecks⟩
      = .ok false ⟨vchBool false :: stack, [], [], nOpCount, script, nChecks⟩ := by
    rw [← beq_eq_false_iff_ne.mpr h]
    rfl
  rw [switch, bind_run, hequal]
  rfl

/-- The run from a key and a signature on the stack: it ends with the answer of `CheckSig`, or stops
where the key does not have the hash. -/
theorem loop_pubKeyHash
    {script : CScript} {hash vchSig vchPubKey : Bytes} (hlength : hash.length = 20)
    (hops : instructions script = (pubKeyHashOps opcode hash, true)) :
  ∃ m', loop crypto hashes check script.length script
      { stack := [vchPubKey, vchSig], pbegincodehash := script }
    = (if serializeUint160 (hashes.hash160 vchPubKey) = hash then .ok () m' else .error .failed m')
    ∧ (serializeUint160 (hashes.hash160 vchPubKey) = hash → m'.vfExec = []
      ∧ m'.stack = [vchBool (check vchSig vchPubKey (findAndDelete (pushData vchSig) script))])
  := by
  obtain ⟨pc1, hop1, hops⟩ := instructions_eq_cons_iff.mp hops
  obtain ⟨pc2, hop2, hops⟩ := instructions_eq_cons_iff.mp hops
  obtain ⟨pc3, hop3, hops⟩ := instructions_eq_cons_iff.mp hops
  obtain ⟨pc4, hop4, hops⟩ := instructions_eq_cons_iff.mp hops
  obtain ⟨pc5, hop5, hops⟩ := instructions_eq_cons_iff.mp hops
  obtain rfl := instructions_eq_nil_iff.mp hops
  have hpush : opcode ≤ OP_PUSHDATA4 := by
    by_contra hlt
    obtain rfl := vch_eq_nil_of_getOp hop3 (.inr (Nat.lt_of_not_le hlt))
    cases hlength
  generalize hkeyHash : serializeUint160 (hashes.hash160 vchPubKey) = keyHash
  -- no machine on the way comes near the limits
  have hcount : ∀ {n : ℕ}, n < 5 → n < 201 := fun h => Nat.lt_of_lt_of_le h (by decide)
  have hdepth : ∀ {n : ℕ}, n ≤ 5 → n ≤ 1000 := fun h => Nat.le_trans h (by decide)
  have hdup : instruction crypto hashes check OP_DUP [] pc1 ⟨[vchPubKey, vchSig], [], [], 0, script, 0⟩
      = .ok () ⟨[vchPubKey, vchPubKey, vchSig], [], [], 1, script, 0⟩ :=
    instruction_op_ok rfl (by decide) (hcount (Nat.le_of_ble_eq_true rfl)) (by decide) rfl
      (hdepth (Nat.le_of_ble_eq_true rfl))
  have hhash : instruction crypto hashes check OP_HASH160 [] pc2
      ⟨[vchPubKey, vchPubKey, vchSig], [], [], 1, script, 0⟩
      = .ok () ⟨[keyHash, vchPubKey, vchSig], [], [], 2, script, 0⟩ := by
    rw [← hkeyHash]
    exact instruction_op_ok rfl (by decide) (hcount (Nat.le_of_ble_eq_true rfl)) (by decide) rfl
      (hdepth (Nat.le_of_ble_eq_true rfl))
  have hdata : instruction crypto hashes check opcode hash pc3
      ⟨[keyHash, vchPubKey, vchSig], [], [], 2, script, 0⟩
      = .ok () ⟨[hash, keyHash, vchPubKey, vchSig], [], [], 2, script, 0⟩ :=
    (instruction_push_eq rfl hpush (by omega)).trans (if_pos (Nat.le_of_ble_eq_true rfl))
  rw [loop_cons hop1, bind_run, hdup]
  dsimp only
  rw [loop_cons hop2, bind_run, hhash]
  dsimp only
  rw [loop_cons hop3, bind_run, hdata]
  dsimp only
  rw [loop_cons hop4, bind_run]
  by_cases hsame : keyHash = hash
  · have hequal : instruction crypto hashes check OP_EQUALVERIFY [] pc4
        ⟨[hash, keyHash, vchPubKey, vchSig], [], [], 2, script, 0⟩
        = .ok () ⟨[vchPubKey, vchSig], [], [], 3, script, 0⟩ := by
      apply instruction_op_ok rfl (by decide) (hcount (Nat.le_of_ble_eq_true rfl)) (by decide) _
        (hdepth (Nat.le_of_ble_eq_true rfl))
      rw [hsame]
      exact equalVerify_same
    have hcheck : instruction crypto hashes check OP_CHECKSIG [] []
        ⟨[vchPubKey, vchSig], [], [], 3, script, 0⟩
        = .ok () ⟨[vchBool (check vchSig vchPubKey (findAndDelete (pushData vchSig) script))], [], [], 4,
          script, 1⟩ :=
      instruction_op_ok rfl (by decide) (hcount (Nat.le_of_ble_eq_true rfl)) (by decide) rfl
        (hdepth (Nat.le_of_ble_eq_true rfl))
    rw [hequal]
    dsimp only
    rw [loop_cons hop5, bind_run, hcheck]
    refine ⟨_, (if_pos hsame).symm, fun _ => ⟨rfl, rfl⟩⟩
  · have hequal : instruction crypto hashes check OP_EQUALVERIFY [] pc4
        ⟨[hash, keyHash, vchPubKey, vchSig], [], [], 2, script, 0⟩
        = .error .failed ⟨[vchBool false, vchPubKey, vchSig], [], [], 3, script, 0⟩ := by
      apply instruction_op_error rfl (by decide) (hcount (Nat.le_of_ble_eq_true rfl)) (by decide)
      exact equalVerify_ne hsame
    rw [hequal]
    refine ⟨_, (if_neg hsame).symm, fun h => absurd h hsame⟩

end Running

/-! ## Whole scripts -/

section Whole

variable {crypto : Crypto} {ecdsa : Ecdsa} {hashes : ScriptHashes} {nHashType : Int32}
variable {txTo : CTransaction} {nIn : ℕ}

variable {script : CScript}

/-- A script of pushes leaves its data on the stack when none is too large. -/
theorem evalScript_pushes
    {stack : List Bytes} {ops : List (ℕ × Bytes)}
    (hops : instructions script = (ops, true)) (hpush : ∀ op ∈ ops, op.1 ≤ OP_PUSHDATA4)
    (hsize : ∀ op ∈ ops, op.2.length ≤ 520) (hdepth : stack.length + ops.length ≤ 1000)
    (hlength : script.length ≤ 10000) :
  evalScript crypto ecdsa hashes nHashType stack script txTo nIn
    = some ((ops.map Prod.snd).reverse ++ stack)
  := by
  rw [evalScript, if_neg (Nat.not_lt.mpr hlength), runScript, EStateM.run,
    loop_pushes (m := { stack, pbegincodehash := script }) hops hpush hsize rfl hdepth]
  rfl

theorem evalScript_pushes_large
    {stack : List Bytes} {ops : List (ℕ × Bytes)}
    (hops : instructions script = (ops, true)) (hpush : ∀ op ∈ ops, op.1 ≤ OP_PUSHDATA4)
    (hlarge : ∃ op ∈ ops, 520 < op.2.length) (hdepth : stack.length + ops.length ≤ 1000) :
  evalScript crypto ecdsa hashes nHashType stack script txTo nIn = none
  := by
  rw [evalScript]
  split_ifs
  · rfl
  · obtain ⟨m', hrun⟩ := @loop_pushes_large crypto hashes
      (fun vchSig vchPubKey scriptCode =>
        checkSig crypto ecdsa vchSig vchPubKey scriptCode txTo nIn nHashType)
      { stack, pbegincodehash := script } script ops hops hpush hlarge rfl hdepth
    rw [runScript, EStateM.run, hrun]

/-- What OpenSSL takes: a public key is at most 65 bytes long, and a signature, two numbers of 256 bits
in DER, at most 72. -/
structure Ecdsa.Sized (ecdsa : Ecdsa) : Prop where
  length_pubKey : ∀ vch, ecdsa.setPubKey vch = true → vch.length ≤ 65
  length_signature : ∀ vchPubKey hash vchSig, ecdsa.verify vchPubKey hash vchSig = true →
    vchSig.length ≤ 72

variable {vchSig vchPubKey : Bytes}

/-- What `CheckSig` accepts can be pushed. -/
theorem Ecdsa.Sized.of_checkSig
    (h : ecdsa.Sized) {scriptCode : CScript}
    (hcheck : checkSig crypto ecdsa vchSig vchPubKey scriptCode txTo nIn nHashType = true) :
  vchSig.length ≤ 73 ∧ vchPubKey.length ≤ 65
  := by
  rw [checkSig] at hcheck
  cases hlast : vchSig.getLast? with
  | none =>
    rw [hlast] at hcheck
    cases hcheck
  | some back =>
    rw [hlast] at hcheck
    dsimp only at hcheck
    split_ifs at hcheck
    obtain ⟨hkey, hverify⟩ := Bool.and_eq_true_iff.mp hcheck
    have hsig := h.length_signature _ _ _ hverify
    rw [List.length_dropLast] at hsig
    exact ⟨by omega, h.length_pubKey _ hkey⟩

variable {opcode : ℕ} {hash : Bytes}

theorem not_isPayToScriptHash_of_pubKeyHashOps
    (hops : instructions script = (pubKeyHashOps opcode hash, true)) :
  isPayToScriptHash script = false
  := by
  rw [Bool.eq_false_iff]
  intro h
  obtain ⟨pc, hop, -⟩ := instructions_eq_cons_iff.mp hops
  have hhead := head?_of_getOp hop
  obtain ⟨hash', -, hscript⟩ := eq_of_isPayToScriptHash h
  rw [hscript] at hhead
  cases hhead

/-- The run of a pay-to-pubkey-hash script on a signature and a key. -/
theorem evalScript_pubKeyHash
    (hlength : hash.length = 20) (hops : instructions script = (pubKeyHashOps opcode hash, true)) :
  evalScript crypto ecdsa hashes nHashType [vchPubKey, vchSig] script txTo nIn
    = if serializeUint160 (hashes.hash160 vchPubKey) = hash
      then some [vchBool (checkSig crypto ecdsa vchSig vchPubKey
        (findAndDelete (pushData vchSig) script) txTo nIn nHashType)]
      else none
  := by
  have hsize : ∀ op ∈ pubKeyHashOps opcode hash, op.2.length ≤ 520 := by
    intro op hop
    simp only [pubKeyHashOps, List.mem_cons, List.not_mem_nil, or_false] at hop
    rcases hop with rfl | rfl | rfl | rfl | rfl
    all_goals simp [hlength]
  have hshort : script.length ≤ 525 * 5 := length_le_of_instructions hops hsize
  obtain ⟨m', hrun, hend⟩ := @loop_pubKeyHash crypto hashes
    (fun vchSig vchPubKey scriptCode =>
      checkSig crypto ecdsa vchSig vchPubKey scriptCode txTo nIn nHashType)
    opcode script hash vchSig vchPubKey hlength hops
  rw [evalScript, if_neg (by omega), runScript, EStateM.run, hrun]
  split_ifs with hsame
  · obtain ⟨hexec, hstack⟩ := hend hsame
    dsimp only
    rw [hexec, hstack]
    rfl
  · rfl

/-- A signature and a key satisfy a pay-to-pubkey-hash script just when the key has the hash and
`CheckSig` accepts the signature. -/
theorem verifyScript_pubKeyHash_iff
    (hsized : ecdsa.Sized) {opSig opKey : ℕ}
    {scriptPubKey scriptSig : CScript} (hlength : hash.length = 20)
    (hops : instructions scriptPubKey = (pubKeyHashOps opcode hash, true))
    (hpushes : instructions scriptSig = ([(opSig, vchSig), (opKey, vchPubKey)], true))
    (hopSig : opSig ≤ OP_PUSHDATA4) (hopKey : opKey ≤ OP_PUSHDATA4) (fValidatePayToScriptHash : Bool) :
  verifyScript (evalScript crypto ecdsa hashes nHashType) scriptSig scriptPubKey txTo nIn
      fValidatePayToScriptHash = true
    ↔ serializeUint160 (hashes.hash160 vchPubKey) = hash
      ∧ checkSig crypto ecdsa vchSig vchPubKey (findAndDelete (pushData vchSig) scriptPubKey) txTo nIn
        nHashType = true
  := by
  have hpush : ∀ op ∈ [(opSig, vchSig), (opKey, vchPubKey)], op.1 ≤ OP_PUSHDATA4 := by
    simp [hopSig, hopKey]
  rw [verifyScript]
  by_cases hsizes : vchSig.length ≤ 520 ∧ vchPubKey.length ≤ 520
  · have hsize : ∀ op ∈ [(opSig, vchSig), (opKey, vchPubKey)], op.2.length ≤ 520 := by
      simp [hsizes]
    have hshort : scriptSig.length ≤ 525 * 2 := length_le_of_instructions hpushes hsize
    rw [evalScript_pushes hpushes hpush hsize (by simp) (by omega)]
    have hpushed : (List.map Prod.snd [(opSig, vchSig), (opKey, vchPubKey)]).reverse ++ []
        = [vchPubKey, vchSig] := rfl
    rw [hpushed]
    dsimp only
    rw [evalScript_pubKeyHash hlength hops, not_isPayToScriptHash_of_pubKeyHashOps hops]
    by_cases hsame : serializeUint160 (hashes.hash160 vchPubKey) = hash
    · rw [if_pos hsame, and_iff_right hsame]
      cases checkSig crypto ecdsa vchSig vchPubKey (findAndDelete (pushData vchSig) scriptPubKey) txTo nIn
        nHashType <;> simp [vchBool, castToBool]
    · rw [if_neg hsame]
      simp [hsame]
  · have hlarge : ∃ op ∈ [(opSig, vchSig), (opKey, vchPubKey)], 520 < op.2.length := by
      rw [not_and_or, not_le, not_le] at hsizes
      rcases hsizes with h | h
      · exact ⟨_, List.mem_cons_self, h⟩
      · exact ⟨_, List.mem_cons_of_mem _ List.mem_cons_self, h⟩
    rw [evalScript_pushes_large hpushes hpush hlarge (by simp)]
    constructor
    · intro h
      cases h
    · rintro ⟨-, hcheck⟩
      have hbound := hsized.of_checkSig hcheck
      omega

end Whole

/-! ## Destinations -/

theorem length_serializeUint160 (id : uint160) :
  (serializeUint160 id).length = 20
  := length_toLE ..

theorem uint160OfBytes_serializeUint160 (id : uint160) :
  uint160OfBytes (serializeUint160 id) = id
  := by
  have hlt : id.toNat < 256 ^ 20 := id.isLt
  rw [uint160OfBytes, if_pos (length_serializeUint160 id), serializeUint160, ofLE_toLE_of_lt hlt,
    BitVec.ofNat_toNat, BitVec.setWidth_eq]

theorem solver_scriptForScriptID (id : uint160) :
  solver (scriptForScriptID id) = some (.TX_SCRIPTHASH, [serializeUint160 id])
  := by
  have hlength := length_serializeUint160 id
  apply solver_scriptHash_iff.mpr ⟨_, hlength, _, rfl⟩
  rw [scriptForScriptID, pushData, hlength, if_pos (by decide)]
  rfl

/-- The destination of a script made for a destination is that destination. -/
theorem extractDestination_setDestination
    (hash160 : Bytes → uint160) {d : CTxDestination} (h : d ≠ .CNoDestination) :
  extractDestination hash160 (setDestination d) = some d
  := by
  cases d with
  | CNoDestination => exact absurd rfl h
  | CKeyID id =>
    have hops : instructions (setDestination (.CKeyID id))
        = (pubKeyHashOps (pushOpcode (serializeUint160 id)) (serializeUint160 id), true) :=
      instructions_scriptForKeyID id
    have hsolver := solver_pubKeyHash_iff.mpr ⟨_, _, length_serializeUint160 id, hops, rfl⟩
    rw [extractDestination, hsolver]
    exact congrArg (fun id => some (CTxDestination.CKeyID id)) (uint160OfBytes_serializeUint160 id)
  | CScriptID id =>
    rw [extractDestination, setDestination, solver_scriptForScriptID]
    exact congrArg (fun id => some (CTxDestination.CScriptID id)) (uint160OfBytes_serializeUint160 id)

/-! ## The standard scripts -/

/-- The types of the templates are the shapes of the instructions, with the data of the shape for
solutions; a destination is found again in its script; and a pay-to-pubkey-hash script is satisfied by
the signatures of the key with the hash. -/
theorem standardScripts
    (crypto : Crypto) {ecdsa : Ecdsa} (hsized : ecdsa.Sized) (hashes : ScriptHashes)
    (nHashType : Int32) :
  (∀ script found, solver script = some (.TX_PUBKEYHASH, found)
      ↔ ∃ opcode hash, hash.length = 20 ∧ instructions script = (pubKeyHashOps opcode hash, true)
        ∧ found = [hash])
    ∧ (∀ script found, solver script = some (.TX_PUBKEY, found)
      ↔ ∃ opcode key, isPubKeySize key = true
        ∧ instructions script = ([(opcode, key), (OP_CHECKSIG, [])], true) ∧ found = [key])
    ∧ (∀ script found, solver script = some (.TX_MULTISIG, found)
      ↔ ∃ m n keyOps, 1 ≤ m ∧ m ≤ n ∧ n ≤ 16 ∧ keyOps.length = n
        ∧ (∀ op ∈ keyOps, isPubKeySize op.2 = true)
        ∧ instructions script = (multiSigOps m n keyOps, true)
        ∧ found = [UInt8.ofNat m] :: (keyOps.map Prod.snd ++ [[UInt8.ofNat n]]))
    ∧ (∀ script found, solver script = some (.TX_SCRIPTHASH, found)
      ↔ ∃ hash : Bytes, hash.length = 20 ∧ script = [0xa9, 0x14] ++ (hash ++ [0x87]) ∧ found = [hash])
    ∧ (∀ d, d ≠ .CNoDestination → extractDestination hashes.hash160 (setDestination d) = some d)
    ∧ ∀ opcode hash scriptPubKey opSig vchSig opKey vchPubKey scriptSig txTo nIn
        fValidatePayToScriptHash, hash.length = 20 →
      instructions scriptPubKey = (pubKeyHashOps opcode hash, true) →
      instructions scriptSig = ([(opSig, vchSig), (opKey, vchPubKey)], true) →
      opSig ≤ OP_PUSHDATA4 → opKey ≤ OP_PUSHDATA4 →
      (verifyScript (evalScript crypto ecdsa hashes nHashType) scriptSig scriptPubKey txTo nIn
          fValidatePayToScriptHash = true
        ↔ serializeUint160 (hashes.hash160 vchPubKey) = hash
          ∧ checkSig crypto ecdsa vchSig vchPubKey (findAndDelete (pushData vchSig) scriptPubKey) txTo
            nIn nHashType = true)
  := by
  refine ⟨fun _ _ => solver_pubKeyHash_iff, fun _ _ => solver_pubKey_iff,
    fun _ _ => solver_multiSig_iff, fun _ _ => solver_scriptHash_iff,
    fun _ hd => extractDestination_setDestination hashes.hash160 hd, ?_⟩
  intro _ _ _ _ _ _ _ _ _ _ fValidatePayToScriptHash hlength hops hpushes hopSig hopKey
  exact verifyScript_pubKeyHash_iff hsized hlength hops hpushes hopSig hopKey fValidatePayToScriptHash

/-- Signatures that hold the hash and the key, for keys of 33 bytes. -/
def sizedEcdsa : Ecdsa where
  setPubKey pubKey := pubKey.length == 33
  verify pubKey hash sig := pubKey.length == 33 && sig == 0x30 :: (serializeUint256 hash ++ pubKey.drop 1)

theorem sizedEcdsa_sized : sizedEcdsa.Sized where
  length_pubKey vch h := by
    rw [beq_iff_eq.mp h]
    decide
  length_signature pubKey hash sig h := by
    obtain ⟨hkey, hsig⟩ := Bool.and_eq_true_iff.mp h
    have hlength : (serializeUint256 hash).length = 32 := length_toLE ..
    rw [beq_iff_eq.mp hsig, List.length_cons, List.length_append, List.length_drop, beq_iff_eq.mp hkey,
      hlength]
    decide

theorem standardScripts_sized :
  extractDestination BurnPayload.sampleScriptHashes.hash160 (setDestination (.CScriptID 5))
      = some (.CScriptID 5)
    ∧ ∀ txTo nIn, verifyScript (evalScript sampleCrypto sizedEcdsa BurnPayload.sampleScriptHashes 0)
      (pushData [7] ++ pushData [8]) (scriptForKeyID 5) txTo nIn true = true
        ↔ serializeUint160 (BurnPayload.sampleScriptHashes.hash160 [8]) = serializeUint160 5
          ∧ checkSig sampleCrypto sizedEcdsa [7] [8] (findAndDelete (pushData [7]) (scriptForKeyID 5)) txTo
            nIn 0 = true
  := by
  obtain ⟨-, -, -, -, hdestination, hspend⟩ :=
    standardScripts sampleCrypto sizedEcdsa_sized BurnPayload.sampleScriptHashes 0
  refine ⟨hdestination _ (by decide), fun txTo nIn => ?_⟩
  exact hspend _ _ _ 1 _ 1 _ _ txTo nIn true (length_toLE ..) (instructions_scriptForKeyID 5) rfl
    (by decide) (by decide)

end CorgiCoin
