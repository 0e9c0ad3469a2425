import Mathlib.Tactic.IntervalCases
import CorgiCoin.ScriptRules

/-!
# The limits of the script machine

A run of `EvalScript` that starts within the limits stays within them, and makes no more calls of
`CheckSig` than the instructions of the script are counted for.
-/

namespace CorgiCoin

open Codec Exec

section Runs

variable {crypto : Crypto} {hashes : ScriptHashes} {check : Bytes → Bytes → CScript → Bool}
variable {small : Bytes → Prop} {depth K r n : ℕ}

/-! ## Instructions -/

namespace Exec

/-- `if (c) return false` -/
def failIf (c : Prop) [Decidable c] : Exec Unit := if c then fail else return ()

/-- The opcodes above `OP_16` are counted. -/
def countOp (opcode : ℕ) : Exec Unit := do
  if opcode > OP_16 then
    modify (fun m => { m with nOpCount := m.nOpCount + 1 })
    failIf ((← get).nOpCount > 201)

variable (crypto hashes check) in
/-- What an instruction does between the tests of the limits. -/
def perform (opcode : ℕ) (vchPushValue : Bytes) (pc : CScript) (fExec : Bool) : Exec Unit := do
  if fExec ∧ opcode ≤ OP_PUSHDATA4 then push vchPushValue
  else if fExec ∨ (OP_IF ≤ opcode ∧ opcode ≤ OP_ENDIF) then
    switch crypto hashes check pc fExec (Op.ofOpcode opcode)

/-- An instruction is the tests of the limits around what it performs. -/
theorem instruction_eq (opcode : ℕ) (vchPushValue : Bytes) (pc : CScript) :
  instruction crypto hashes check opcode vchPushValue pc
    = (do
      let m ← get
      failIf (vchPushValue.length > 520)
      countOp opcode
      failIf (disabledOpcodes.contains opcode = true)
      perform crypto hashes check opcode vchPushValue pc (!m.vfExec.contains false)
      let m ← get
      failIf (m.stack.length + m.altstack.length > 1000))
  := by
  funext m
  simp only [instruction, failIf, countOp, perform, bind_run, get_run]
  by_cases hlong : vchPushValue.length > 520
  · simp only [hlong, fail, if_true, bind_run, throw_run]
  rw [if_neg hlong, if_neg hlong]
  by_cases hcounted : opcode > OP_16
  · simp only [if_pos hcounted, bind_run, modify_run, get_run, pure_run]
    split_ifs
    all_goals simp only [bind_run, fail, throw_run, pure_run, get_run]
  · simp only [hcounted, if_false, pure_run]
    split_ifs
    all_goals simp only [bind_run, fail, throw_run, pure_run, get_run]

theorem failIf_bind
    {α : Type} {Q : α → Machine → Prop} {c : Prop} [Decidable c] {P : Machine → Prop}
    {f : Unit → Exec α} (hP : ∀ m, P m → Room small K r n m)
    (h : ¬c → Triple P (f ()) Q (Stopped small K)) :
  Triple P (failIf c >>= f) Q (Stopped small K)
  := by
  intro m hm
  rw [bind_run, failIf]
  split_ifs with hc
  · exact (hP m hm).stopped (by decide)
  · exact h hc m hm

theorem countOp_spec {F : List Bytes → Prop} (opcode : ℕ) :
  Triple (fun m => Room small K r n m ∧ F m.stack) (countOp opcode)
    (fun _ m => Room small K r n m ∧ F m.stack) (Stopped small K)
  := by
  apply Triple.of_ite
  · rintro _ m ⟨hm, hF⟩
    simp only [bind_run, modify_run, get_run, failIf]
    split_ifs with hcount
    · exact ⟨by decide, hm.stack, hm.altstack, (Nat.le_add_right _ _).trans hm.nChecks_le⟩
    · exact ⟨⟨hm.stack, hm.altstack, Nat.le_of_not_lt hcount, hm.nChecks_le, hm.le_length⟩, hF⟩
  · intro _
    exact Triple.of_pure (fun m hm => hm)

end Exec

/-- The number of keys that is counted after an opcode. -/
def keysAfter (lastOpcode : ℕ) : ℕ :=
  if lastOpcode ≥ OP_1 ∧ lastOpcode ≤ OP_16 then decodeOP_N lastOpcode else 20

theorem keysAtMost_twenty (stack : List Bytes) :
  KeysAtMost 20 stack
  := fun _ _ _ _ hbn => hbn

variable {opcode : ℕ}

theorem checksAtMost_eq_zero {c : ℕ} (h : ∀ k ∈ [0xac, 0xad, 0xae, 0xaf], opcode ≠ k) :
  (Op.ofOpcode opcode).checksAtMost c = 0
  := by
  unfold Op.ofOpcode
  split
  all_goals first
    | rfl
    | exact absurd rfl (h _ (by decide))

/-- The calls that an opcode makes at most are those that it is counted for. -/
theorem checksAtMost_keysAfter (lastOpcode opcode : ℕ) :
  (Op.ofOpcode opcode).checksAtMost (keysAfter lastOpcode)
    = (sigOpsOf true lastOpcode opcode).toNat
  := by
  rw [sigOpsOf]
  split_ifs with hsingle hmulti hkeys
  · rcases hsingle with rfl | rfl <;> rfl
  · have hnumber : keysAfter lastOpcode = (UInt32.ofNat (decodeOP_N lastOpcode)).toNat := by
      rw [keysAfter, if_pos hkeys.2, UInt32.toNat_ofNat', decodeOP_N]
      simp only [OP_1, OP_16] at hkeys ⊢
      omega
    rw [← hnumber]
    rcases hmulti with rfl | rfl <;> rfl
  · have hnumber : keysAfter lastOpcode = 20 := if_neg (fun h => hkeys ⟨rfl, h⟩)
    rw [hnumber]
    rcases hmulti with rfl | rfl <;> rfl
  · apply checksAtMost_eq_zero
    simp only [OP_CHECKSIG, OP_CHECKSIGVERIFY, OP_CHECKMULTISIG, OP_CHECKMULTISIGVERIFY, not_or]
      at hsingle hmulti
    simp only [List.mem_cons, List.not_mem_nil, or_false, forall_eq_or_imp, forall_eq]
    exact ⟨hsingle.1, hsingle.2, hmulti.1, hmulti.2⟩

/-- The numbers that opcodes push are small. -/
theorem natAbs_le_of_smallInteger {bn : ℤ} (h : Op.ofOpcode opcode = .smallInteger bn) :
  bn.natAbs ≤ 16
  := by
  unfold Op.ofOpcode at h
  split at h
  all_goals first
    | cases h; decide
    | cases h

/-- The number of keys that the last opcode announces is on the stack, where it was executed. -/
def Announced (lastOpcode : ℕ) (m : Machine) : Prop :=
  m.vfExec.contains false = false → KeysAtMost (keysAfter lastOpcode) m.stack

variable {vchPushValue : Bytes}

theorem perform_spec
    (hsmall : SmallPushes small depth) {lastOpcode : ℕ} (pc : CScript)
    (fExec : Bool) (hvch : vchPushValue.length ≤ 520) :
  Triple (fun m => Room small K (r + (sigOpsOf true lastOpcode opcode).toNat) 0 m
      ∧ (fExec = true → KeysAtMost (keysAfter lastOpcode) m.stack) ∧ m.stack.length ≤ depth)
    (perform crypto hashes check opcode vchPushValue pc fExec) (fun _ => Room small K r 0)
    (Stopped small K)
  := by
  apply Triple.of_ite
  · intro _
    apply (push_spec (hsmall.of_length_le hvch)).weaken (fun m hm => hm.1)
    exact fun _ m hm => hm.mono (Nat.le_add_right _ _) (Nat.zero_le _)
  · intro _
    have hswitch : ∀ c, Triple (fun m => Room small K (r + (Op.ofOpcode opcode).checksAtMost c) 0 m
          ∧ KeysAtMost c m.stack ∧ m.stack.length ≤ depth)
        (switch crypto hashes check pc fExec (Op.ofOpcode opcode)) (fun _ => Room small K r 0)
        (Stopped small K) :=
      fun c => switch_spec hsmall pc fExec _ (fun bn h => natAbs_le_of_smallInteger h)
    apply Triple.of_ite
    · intro hcase
      cases fExec with
      | true =>
        apply (hswitch (keysAfter lastOpcode)).pre
        rintro m ⟨hm, hkeys, hdepth⟩
        rw [checksAtMost_keysAfter]
        exact ⟨hm, hkeys rfl, hdepth⟩
      | false =>
        -- the opcodes for conditions make no call
        apply (hswitch 20).pre
        rintro m ⟨hm, -, hdepth⟩
        have hnone : (Op.ofOpcode opcode).checksAtMost 20 = 0 := by
          apply checksAtMost_eq_zero
          simp only [Bool.false_eq_true, false_or, OP_IF, OP_ENDIF] at hcase
          simp only [List.mem_cons, List.not_mem_nil, or_false, forall_eq_or_imp, forall_eq]
          omega
        rw [hnone]
        exact ⟨hm.mono (Nat.le_add_right _ _) le_rfl, keysAtMost_twenty _, hdepth⟩
    · intro _
      exact Triple.of_pure (fun m hm => hm.1.mono (Nat.le_add_right _ _) le_rfl)

/-- The elements of both stacks. -/
def depthOf (m : Machine) : ℕ := m.stack.length + m.altstack.length

/-- An instruction keeps what is left for the rest of the script. -/
theorem instruction_spec
    (hsmall : SmallPushes small depth) {lastOpcode : ℕ} (pc : CScript) :
  Triple (fun m => Room small K (r + (sigOpsOf true lastOpcode opcode).toNat) 0 m
      ∧ Announced lastOpcode m ∧ depthOf m ≤ depth)
    (instruction crypto hashes check opcode vchPushValue pc)
    (fun _ m => Room small K r 0 m ∧ depthOf m ≤ 1000) (Stopped small K)
  := by
  rw [instruction_eq]
  apply Triple.of_get_bind
  rintro s ⟨hs, hannounced, hdepth⟩
  apply Triple.pre
    (P := fun m => Room small K (r + (sigOpsOf true lastOpcode opcode).toNat) 0 m
      ∧ ((!s.vfExec.contains false) = true → KeysAtMost (keysAfter lastOpcode) m.stack)
      ∧ m.stack.length ≤ depth)
  · apply failIf_bind (fun _ hm => hm.1)
    intro hvch
    apply Triple.of_bind (countOp_spec (F := fun stack =>
      ((!s.vfExec.contains false) = true → KeysAtMost (keysAfter lastOpcode) stack)
        ∧ stack.length ≤ depth) opcode)
    intro _
    apply failIf_bind (fun _ hm => hm.1)
    intro _
    apply Triple.of_bind (perform_spec hsmall pc _ (Nat.le_of_not_lt hvch))
    intro _ m hm
    simp only [bind_run, get_run, failIf]
    split_ifs with htotal
    · exact hm.stopped (by decide)
    · exact ⟨hm, Nat.le_of_not_lt htotal⟩
  · intro m hm
    rw [hm]
    refine ⟨hs, fun hexec => hannounced ?_, (Nat.le_add_right _ _).trans hdepth⟩
    rwa [Bool.not_eq_true'] at hexec

theorem numberOf_getvch {k : ℕ} (h : OP_1 ≤ k ∧ k ≤ OP_16) :
  numberOf (getvch (decodeOP_N k : ℤ)) = some (decodeOP_N k : ℤ)
  := by
  obtain ⟨hlow, hhigh⟩ := h
  simp only [OP_1, OP_16] at hlow hhigh
  interval_cases k
  all_goals decide

/-- What the opcodes up to `OP_16` push. -/
def pushedBy (opcode : ℕ) (vchPushValue : Bytes) : Bytes :=
  if opcode ≤ OP_PUSHDATA4 then vchPushValue else getvch (opcode - 0x50)

theorem ofOpcode_push (hlow : ¬opcode ≤ OP_PUSHDATA4) (hhigh : opcode ≤ OP_16) :
  Op.ofOpcode opcode = .invalid ∨ Op.ofOpcode opcode = .smallInteger (opcode - 0x50)
  := by
  simp only [OP_PUSHDATA4, OP_16] at hlow hhigh
  have hlow : 0x4f ≤ opcode := by omega
  interval_cases opcode
  · exact .inr rfl
  · exact .inl rfl
  all_goals exact .inr rfl

/-- The opcodes up to `OP_16` push, or do nothing where they are not executed. -/
theorem instruction_push
    {pc : CScript} {m m' : Machine} (hopcode : opcode ≤ OP_16)
    (h : instruction crypto hashes check opcode vchPushValue pc m = .ok () m') :
  m' = if m.vfExec.contains false then m
    else { m with stack := pushedBy opcode vchPushValue :: m.stack }
  := by
  have hcondition : ¬(OP_IF ≤ opcode ∧ opcode ≤ OP_ENDIF) := by
    simp only [OP_16, OP_IF] at hopcode ⊢
    omega
  have hperform : ∀ m m', perform crypto hashes check opcode vchPushValue pc (!m.vfExec.contains false) m
      = .ok () m' →
      m' = if m.vfExec.contains false then m
        else { m with stack := pushedBy opcode vchPushValue :: m.stack } := by
    intro m m' hrun
    rw [perform] at hrun
    cases hexec : m.vfExec.contains false with
    | true =>
      simp only [hexec, Bool.not_true, Bool.false_eq_true, false_and, if_false, hcondition, or_self,
        pure_run, EStateM.Result.ok.injEq, true_and] at hrun
      rw [if_pos rfl, hrun]
    | false =>
      rw [pushedBy]
      simp only [hexec, Bool.not_false, true_and, true_or, if_true] at hrun
      split_ifs at hrun with hdata
      · simp only [push, modify_run, EStateM.Result.ok.injEq, true_and] at hrun
        rw [if_neg Bool.false_ne_true, if_pos hdata, hrun]
      · rcases ofOpcode_push hdata hopcode with hop | hop
        · rw [hop, switch] at hrun
          cases hrun
        · simp only [hop, switch, push, modify_run, EStateM.Result.ok.injEq, true_and] at hrun
          rw [if_neg Bool.false_ne_true, if_neg hdata, hrun]
  rw [instruction_eq] at h
  simp only [bind_run, get_run, countOp, if_neg (Nat.not_lt.mpr hopcode), pure_run, failIf] at h
  split_ifs at h with hlong hdisabled hdisabled
  · cases h
  · cases h
  · cases h
  · simp only [pure_run] at h
    cases hrun : perform crypto hashes check opcode vchPushValue pc (!m.vfExec.contains false) m with
    | error stop m₁ =>
      rw [hrun] at h
      cases h
    | ok a m₁ =>
      simp only [hrun] at h
      split_ifs at h
      · cases h
      · cases h
        exact hperform m _ hrun

/-- A number of keys that was pushed is announced. -/
theorem instruction_announced (pc : CScript) :
  Triple (fun _ => True) (instruction crypto hashes check opcode vchPushValue pc)
    (fun _ m => Announced opcode m) (fun _ _ => True)
  := by
  intro m _
  cases hrun : instruction crypto hashes check opcode vchPushValue pc m with
  | error stop m' => trivial
  | ok a m' =>
    intro hexec
    by_cases hnumber : OP_1 ≤ opcode ∧ opcode ≤ OP_16
    · have hpush := instruction_push hnumber.2 hrun
      have hdata : ¬opcode ≤ OP_PUSHDATA4 := by
        simp only [OP_1, OP_PUSHDATA4] at hnumber ⊢
        omega
      have hkeys : keysAfter opcode = decodeOP_N opcode := if_pos hnumber
      split_ifs at hpush with hold
      · rw [hpush, hold] at hexec
        cases hexec
      · have hbn : (opcode : ℤ) - 0x50 = decodeOP_N opcode := by
          simp only [decodeOP_N, OP_1] at hnumber ⊢
          omega
        rw [pushedBy, if_neg hdata, hbn] at hpush
        intro vch hvch bn hnumberOf _
        rw [hpush, List.head?_cons, Option.mem_some_iff] at hvch
        rw [← hvch, numberOf_getvch hnumber, Option.some_inj] at hnumberOf
        rw [hkeys, hnumberOf]
    · rw [keysAfter, if_neg hnumber]
      apply keysAtMost_twenty

/-! ## Runs -/

/-- The calls of `CheckSig` that instructions are counted for, the opcode before them given. -/
def chargeOf : ℕ → List (ℕ × Bytes) → ℕ
  | _, [] => 0
  | lastOpcode, (opcode, _) :: ops =>
    (sigOpsOf true lastOpcode opcode).toNat + chargeOf opcode ops

/-- A run of any number of instructions stays within the limits and within what the instructions
are counted for. -/
theorem loop_spec
    (hsmall : SmallPushes small depth) (hdepth : 1000 ≤ depth) (fuel : ℕ) (pc : CScript)
    (lastOpcode : ℕ) :
  Triple (fun m => Room small K (chargeOf lastOpcode (parse fuel pc).1) 0 m
      ∧ Announced lastOpcode m ∧ depthOf m ≤ depth)
    (loop crypto hashes check fuel pc) (fun _ m => Room small K 0 0 m ∧ depthOf m ≤ depth)
    (Stopped small K)
  := by
  induction fuel generalizing pc lastOpcode with
  | zero => exact Triple.of_pure (fun m hm => ⟨hm.1.mono (Nat.zero_le _) le_rfl, hm.2.2⟩)
  | succ fuel ih =>
    rw [loop, parse]
    split_ifs with hempty
    · exact Triple.of_pure (fun m hm => ⟨hm.1, hm.2.2⟩)
    · cases hop : getOp pc with
      | none => exact fun m hm => hm.1.stopped (by decide)
      | some op =>
        obtain ⟨opcode, vchPushValue, pc'⟩ := op
        have hstep : Triple
            (fun m => Room small K (chargeOf lastOpcode ((opcode, vchPushValue) :: (parse fuel pc').1)) 0 m
              ∧ Announced lastOpcode m ∧ depthOf m ≤ depth)
            (instruction crypto hashes check opcode vchPushValue pc')
            (fun _ m => Room small K (chargeOf opcode (parse fuel pc').1) 0 m ∧ Announced opcode m
              ∧ depthOf m ≤ depth) (Stopped small K) := by
          apply ((instruction_spec hsmall pc').and (instruction_announced pc')).weaken
          · rintro m ⟨hm, hrest⟩
            rw [chargeOf, Nat.add_comm] at hm
            exact ⟨⟨hm, hrest⟩, trivial⟩
          · rintro _ m ⟨⟨hm, htotal⟩, hannounced⟩
            exact ⟨hm, hannounced, htotal.trans hdepth⟩
        exact Triple.of_bind hstep (fun _ => ih pc' opcode)

/-- As many turns as the script has bytes are enough for the whole of it. -/
theorem loop_of_length_le (fuel : ℕ) {pc : CScript} (h : pc.length ≤ fuel) :
  loop crypto hashes check fuel pc = loop crypto hashes check pc.length pc
  := by
  induction fuel using Nat.strong_induction_on generalizing pc with
  | _ fuel ih =>
    cases fuel with
    | zero => rw [Nat.le_zero.mp h]
    | succ fuel =>
      cases hpc : pc with
      | nil => rfl
      | cons b rest =>
        rw [hpc] at h
        rw [List.length_cons, loop, loop]
        cases hop : getOp (b :: rest) with
        | none => rfl
        | some op =>
          obtain ⟨opcode, vchPushValue, pc'⟩ := op
          have hlt := (getOp_suffix hop).2
          rw [List.length_cons] at h hlt
          have hrest : loop crypto hashes check fuel pc' = loop crypto hashes check rest.length pc' := by
            rw [ih fuel (Nat.lt_succ_self _) (by omega), ih rest.length (by omega) (by omega)]
          simp only [hrest]

/-! ## The limits -/

theorem smallPushes_limits :
  SmallPushes (fun vch => vch.length ≤ 520) 1000
  := by
  have hlength : ∀ n : ℕ, n ≤ 1000 → (getvch n).length ≤ 520 :=
    fun n hn => (length_getvch_le (n := n) (k := 2) (by omega)).trans (by decide)
  exact ⟨id, fun h => hlength _ (h.trans (by decide)), fun h => hlength _ h⟩

/-- The limits of the stacks and of the counted opcodes. -/
structure WithinLimits (m : Machine) : Prop where
  stack : ∀ vch ∈ m.stack, vch.length ≤ 520
  altstack : ∀ vch ∈ m.altstack, vch.length ≤ 520
  depth : m.stack.length + m.altstack.length ≤ 1000
  nOpCount_le : m.nOpCount ≤ 201

/-- After any number of instructions the machine is within the limits, or it was stopped, but not by
an access outside of a stack. -/
theorem loop_withinLimits
    {stack : List Bytes} (hstack : ∀ vch ∈ stack, vch.length ≤ 520) (hlength : stack.length ≤ 1000)
    (script : CScript) (n : ℕ) :
  match loop crypto hashes check n script { stack, pbegincodehash := script } with
  | .ok _ m => WithinLimits m
  | .error stop m => stop ≠ .outOfRange ∧ ∀ vch ∈ m.stack ++ m.altstack, vch.length ≤ 520
  := by
  have hrun := @loop_spec crypto hashes check _ _ (chargeOf OP_INVALIDOPCODE (parse n script).1)
    smallPushes_limits le_rfl n script OP_INVALIDOPCODE { stack, pbegincodehash := script }
    ⟨⟨hstack, nofun, Nat.zero_le _, (Nat.zero_add _).le, Nat.zero_le _⟩,
      fun _ => keysAtMost_twenty _, hlength⟩
  revert hrun
  cases loop crypto hashes check n script { stack, pbegincodehash := script } with
  | ok a m =>
    rintro ⟨hm, hdepth⟩
    exact ⟨hm.stack, hm.altstack, hdepth, hm.nOpCount_le⟩
  | error stop m =>
    rintro ⟨hstop, hstack, haltstack, -⟩
    exact ⟨hstop, fun vch hvch => (List.mem_append.mp hvch).elim (hstack vch) (haltstack vch)⟩

end Runs

/-- From a stack within the limits, no instruction of a script reads outside of a stack, and what is
pushed stays within the limits.  When the script succeeds, at most 201 opcodes were counted and no
condition is left open. -/
theorem evalScript_limits
    (crypto : Crypto) (ecdsa : Ecdsa) (hashes : ScriptHashes) (nHashType : Int32)
    {stack : List Bytes} (hstack : ∀ vch ∈ stack, vch.length ≤ 520) (hlength : stack.length ≤ 1000)
    (script : CScript) (txTo : CTransaction) (nIn : ℕ) :
  let check := fun vchSig vchPubKey scriptCode =>
    checkSig crypto ecdsa vchSig vchPubKey scriptCode txTo nIn nHashType
  (∀ n, match loop crypto hashes check n script { stack, pbegincodehash := script } with
    | .ok _ m => WithinLimits m
    | .error stop m => stop ≠ .outOfRange ∧ ∀ vch ∈ m.stack ++ m.altstack, vch.length ≤ 520)
  ∧ ∀ stack', evalScript crypto ecdsa hashes nHashType stack script txTo nIn = some stack' →
    ∃ m, runScript crypto hashes check stack script = .ok () m
      ∧ m.stack = stack' ∧ WithinLimits m ∧ m.vfExec = []
  := by
  intro check
  refine ⟨loop_withinLimits hstack hlength script, ?_⟩
  intro stack' heval
  rw [evalScript] at heval
  split_ifs at heval with hlong
  have hlimits := @loop_withinLimits crypto hashes check stack hstack hlength script script.length
  cases hrun : runScript crypto hashes check stack script with
  | error stop m =>
    rw [hrun] at heval
    cases heval
  | ok a m =>
    have hloop : loop crypto hashes check script.length script { stack, pbegincodehash := script }
        = .ok a m := hrun
    rw [hrun] at heval
    rw [hloop] at hlimits
    dsimp only at heval
    split_ifs at heval with hclosed
    exact ⟨m, rfl, Option.some.inj heval, hlimits, List.isEmpty_iff.mp hclosed⟩

/-- `OP_DUP OP_EQUAL` on a stack of one element. -/
theorem evalScript_limits_dupEqual :
  ∃ m, runScript sampleCrypto BurnPayload.sampleScriptHashes
      (fun vchSig vchPubKey scriptCode =>
        checkSig sampleCrypto ⟨fun _ => true, fun _ _ _ => true⟩ vchSig vchPubKey scriptCode
          ⟨1, [], [], 0⟩ 0 0) [[5]] [0x76, 0x87] = .ok () m
    ∧ m.stack = [[1]] ∧ WithinLimits m ∧ m.vfExec = []
  := (@evalScript_limits sampleCrypto ⟨fun _ => true, fun _ _ _ => true⟩
    BurnPayload.sampleScriptHashes 0 [[5]] (by decide) (by decide) [0x76, 0x87]
    ⟨1, [], [], 0⟩ 0).2 _ (by decide)

end CorgiCoin
