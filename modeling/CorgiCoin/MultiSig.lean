import CorgiCoin.BurnScript
import CorgiCoin.Lib.Matching

/-!
# Multi-signatures

`OP_CHECKMULTISIG` goes through the keys once and gives each signature the first key that accepts
it.  It reports success just when the signatures can be given keys in their order.
-/

namespace CorgiCoin

namespace Exec

variable {m : Machine} {i : ℕ} {vch : Bytes} {rest : List Bytes}

/-! ## Reading the stack -/

theorem need_run (h : i ≤ m.stack.length) :
  need i m = .ok () m
  := by
  rw [need]
  simp only [bind_run, get_run, if_neg (Nat.not_lt.mpr h), pure_run]

theorem stacktop_run (h : m.stack.drop i = vch :: rest) :
  stacktop (i + 1) m = .ok vch m
  := by
  have hget : m.stack[i]? = some vch := by
    rw [← List.head?_drop, h, List.head?_cons]
  simp only [stacktop, bind_run, get_run, hget, pure_run]

theorem popMany_run {n : ℕ} (h : n ≤ m.stack.length) :
  popMany n m = .ok () { m with stack := m.stack.drop n }
  := by
  induction n generalizing m with
  | zero => rfl
  | succ n ih =>
    cases hstack : m.stack with
    | nil =>
      rw [hstack] at h
      cases h
    | cons vch stack =>
      rw [hstack, List.length_cons] at h
      have hpop : popstack m = .ok () { m with stack := stack } := by
        simp only [popstack, bind_run, get_run, hstack, modify_run]
      rw [popMany, bind_run, hpop]
      exact ih (by simpa using h)

/-! ## The script code and the keys -/

/-- The script code that the signatures are checked against: without the signatures. -/
def withoutSigs (sigs : List Bytes) (scriptCode : CScript) : CScript :=
  sigs.foldl (fun scriptCode vchSig => findAndDelete (pushData vchSig) scriptCode) scriptCode

theorem deleteSigs_run
    {sigs : List Bytes} (h : m.stack.drop i = sigs ++ rest) (scriptCode : CScript) :
  deleteSigs (i + 1) sigs.length scriptCode m = .ok (withoutSigs sigs scriptCode) m
  := by
  induction sigs generalizing i scriptCode with
  | nil => rfl
  | cons vchSig sigs ih =>
    have hnext : m.stack.drop (i + 1) = sigs ++ rest := by
      rw [← List.drop_drop, h, List.cons_append, List.drop_succ_cons, List.drop_zero]
    rw [List.cons_append] at h
    rw [List.length_cons, deleteSigs, bind_run, stacktop_run h]
    exact ih hnext _

variable (check : Bytes → Bytes → CScript → Bool)

/-- The loop over the keys is the greedy search for keys that accept the signatures. -/
theorem checkSigs_run
    {sigs keys rest' : List Bytes} {j : ℕ} (scriptCode : CScript)
    (hsigs : m.stack.drop i = sigs ++ rest) (hkeys : m.stack.drop j = keys ++ rest') :
  ∃ nChecks, checkSigs check scriptCode keys.length sigs.length (i + 1) (j + 1) m
    = .ok (Matching.search (fun vchSig vchPubKey => check vchSig vchPubKey scriptCode) sigs keys)
      { m with nChecks }
  := by
  induction keys generalizing sigs i j m with
  | nil =>
    cases sigs with
    | nil => exact ⟨m.nChecks, rfl⟩
    | cons vchSig sigs => exact ⟨m.nChecks, rfl⟩
  | cons vchPubKey keys ih =>
    cases sigs with
    | nil => exact ⟨m.nChecks, rfl⟩
    | cons vchSig sigs =>
      have hsigs' : m.stack.drop (i + 1) = sigs ++ rest := by
        rw [← List.drop_drop, hsigs, List.cons_append, List.drop_succ_cons, List.drop_zero]
      have hkeys' : m.stack.drop (j + 1) = keys ++ rest' := by
        rw [← List.drop_drop, hkeys, List.cons_append, List.drop_succ_cons, List.drop_zero]
      have hsig := stacktop_run (hsigs.trans (List.cons_append ..))
      have hkey := stacktop_run (hkeys.trans (List.cons_append ..))
      rw [List.length_cons, List.length_cons, checkSigs]
      simp only [bind_run, hsig, hkey, callCheckSig, modify_run, pure_run]
      rw [Matching.search]
      by_cases haccept : check vchSig vchPubKey scriptCode = true
      · rw [if_pos haccept, if_pos haccept]
        split_ifs with hfew
        · exact ⟨_, rfl⟩
        · exact ih (m := { m with nChecks := m.nChecks + 1 }) hsigs' hkeys'
      · rw [if_neg haccept, if_neg haccept]
        split_ifs with hfew
        · exact ⟨_, rfl⟩
        · rw [← List.length_cons (a := vchSig)]
          exact ih (m := { m with nChecks := m.nChecks + 1 }) hsigs hkeys'

end Exec

/-! ## The opcode -/

/-- The number that an element of the stack is cast to; `none` where `CastToBigNum` throws. -/
def numberOf (vch : Bytes) : Option ℤ :=
  if vch.length > 4 then none else some (setvch (getvch (setvch vch)))

theorem Exec.castToBigNum_run {m : Machine} {vch : Bytes} {n : ℤ} (h : numberOf vch = some n) :
  Exec.castToBigNum vch m = .ok n m
  := by
  rw [numberOf] at h
  split_ifs at h with hlong
  rw [castToBigNum, if_neg hlong, pure_run, ← Option.some.inj h]

/-- The stack of a multi-signature, top first: the number of keys, the keys, the number of
signatures, the signatures, one element more and the rest.  The numbers are within the limits. -/
structure MultiSigStack (m : Machine) (sigs keys rest : List Bytes) : Prop where
  stack : ∃ vchKeys vchSigs vchExtra, m.stack = vchKeys :: (keys ++ vchSigs :: (sigs ++ vchExtra :: rest))
    ∧ numberOf vchKeys = some (keys.length : ℤ)
    ∧ numberOf vchSigs = some (sigs.length : ℤ)
  keys_le : keys.length ≤ 20
  sigs_le : sigs.length ≤ keys.length
  nOpCount_le : m.nOpCount + keys.length ≤ 201

/-- The run of the opcode takes the multi-signature off the stack and leaves whether the greedy
search succeeded. -/
theorem Exec.checkMultiSig_run
    (check : Bytes → Bytes → CScript → Bool) {m : Machine} {sigs keys rest : List Bytes}
    (h : MultiSigStack m sigs keys rest) :
  ∃ fSuccess nChecks, checkMultiSig check m
      = .ok fSuccess
        { m with stack := vchBool fSuccess :: rest, nOpCount := m.nOpCount + keys.length, nChecks }
    ∧ fSuccess = Matching.search
        (fun vchSig vchPubKey => check vchSig vchPubKey (withoutSigs sigs m.pbegincodehash)) sigs keys
  := by
  obtain ⟨⟨vchKeys, vchSigs, vchExtra, hstack, hnKeys, hnSigs⟩, hkeys, hsigs, hcount⟩ := h
  have hlength : m.stack.length = keys.length + sigs.length + rest.length + 3 := by
    rw [hstack]
    simp only [List.length_cons, List.length_append]
    omega
  -- the parts of the stack, each at its depth
  have hdropKeys : m.stack.drop 1 = keys ++ vchSigs :: (sigs ++ vchExtra :: rest) := by
    rw [hstack, List.drop_succ_cons, List.drop_zero]
  have hdropCount : m.stack.drop (keys.length + 1) = vchSigs :: (sigs ++ vchExtra :: rest) := by
    rw [Nat.add_comm, ← List.drop_drop, hdropKeys, List.drop_left]
  have hdropSigs : m.stack.drop (keys.length + 2) = sigs ++ vchExtra :: rest := by
    rw [show keys.length + 2 = (keys.length + 1) + 1 from rfl, ← List.drop_drop, hdropCount,
      List.drop_succ_cons, List.drop_zero]
  have hdropRest : m.stack.drop (keys.length + sigs.length + 3) = rest := by
    rw [show keys.length + sigs.length + 3 = (keys.length + 2) + (sigs.length + 1) by omega,
      ← List.drop_drop, hdropSigs, ← List.drop_drop, List.drop_left, List.drop_succ_cons,
      List.drop_zero]
  generalize hm' : ({ m with nOpCount := m.nOpCount + keys.length } : Machine) = m'
  have hsame : m'.stack = m.stack := by rw [← hm']
  have hcode : m'.pbegincodehash = m.pbegincodehash := by rw [← hm']
  have hend : ∀ stack nChecks, ({ m' with stack, nChecks } : Machine)
      = { m with stack, nOpCount := m.nOpCount + keys.length, nChecks } := by
    intro stack nChecks
    rw [← hm']
  have hnOpCount : m'.nOpCount = m.nOpCount + keys.length := by rw [← hm']
  obtain ⟨nChecks, hchecks⟩ := checkSigs_run check (withoutSigs sigs m.pbegincodehash)
    ((congrArg (List.drop _) hsame).trans hdropSigs) ((congrArg (List.drop _) hsame).trans hdropKeys)
  refine ⟨_, nChecks, ?_, rfl⟩
  generalize Matching.search
    (fun vchSig vchPubKey => check vchSig vchPubKey (withoutSigs sigs m.pbegincodehash)) sigs keys
    = fSuccess at hchecks ⊢
  rw [← hend]
  have hneed₁ : need 1 m = .ok () m := need_run (by omega)
  have htop : stacktop 1 m = .ok vchKeys m := stacktop_run (hstack : m.stack.drop 0 = _)
  have hneed₂ : need (2 + keys.length) m' = .ok () m' := need_run (by rw [hsame]; omega)
  have hmiddle : stacktop (2 + keys.length) m' = .ok vchSigs m' := by
    rw [show 2 + keys.length = (keys.length + 1) + 1 by omega]
    exact stacktop_run ((congrArg (List.drop _) hsame).trans hdropCount)
  have hneed₃ : need (2 + keys.length + 1 + sigs.length) m' = .ok () m' :=
    need_run (by rw [hsame]; omega)
  have hdelete : deleteSigs (2 + keys.length + 1) sigs.length m'.pbegincodehash m'
      = .ok (withoutSigs sigs m.pbegincodehash) m' := by
    rw [← hcode, show 2 + keys.length + 1 = (keys.length + 2) + 1 by omega]
    exact deleteSigs_run ((congrArg (List.drop _) hsame).trans hdropSigs) _
  have hpop : popMany (2 + keys.length + 1 + sigs.length) { m' with nChecks }
      = .ok () { m' with nChecks, stack := rest } := by
    rw [popMany_run (by rw [hsame]; omega), hsame,
      show 2 + keys.length + 1 + sigs.length = keys.length + sigs.length + 3 by omega, hdropRest]
  rw [show keys.length + 2 + 1 = 2 + keys.length + 1 by omega] at hchecks
  simp only [checkMultiSig, bind_run, hneed₁, htop, castToBigNum_run hnKeys]
  rw [if_neg (by omega)]
  simp only [bind_run, modify_run, get_run, Int.toNat_natCast, hm']
  rw [if_neg (by omega)]
  simp only [bind_run, hneed₂, hmiddle, castToBigNum_run hnSigs]
  rw [if_neg (by omega)]
  simp only [pure_run, bind_run, get_run, Int.toNat_natCast, hneed₃, hdelete, hchecks, hpop, push, modify_run]

/-- The opcodes for multi-signatures report success just when there is a strictly increasing
assignment of keys to the signatures under which every key accepts its signature; `CheckSig` may be
any predicate. -/
theorem checkMultiSig_complete
    (crypto : Crypto) (hashes : ScriptHashes) (check : Bytes → Bytes → CScript → Bool) (pc : CScript)
    {m : Machine} {sigs keys rest : List Bytes} (h : MultiSigStack m sigs keys rest) :
  ∃ fSuccess m',
    Exec.switch crypto hashes check pc true .checkMultiSig m = .ok () m'
    ∧ Exec.switch crypto hashes check pc true .checkMultiSigVerify m
      = (if fSuccess then .ok () { m' with stack := rest } else .error .failed m')
    ∧ m'.stack = vchBool fSuccess :: rest
    ∧ (fSuccess = true ↔ ∃ f : Fin sigs.length ↪o Fin keys.length, ∀ i,
        check (sigs.get i) (keys.get (f i)) (Exec.withoutSigs sigs m.pbegincodehash) = true)
  := by
  obtain ⟨fSuccess, nChecks, hrun, hsuccess⟩ := Exec.checkMultiSig_run check h
  refine ⟨fSuccess,
    { m with stack := vchBool fSuccess :: rest, nOpCount := m.nOpCount + keys.length, nChecks },
    ?_, ?_, rfl, ?_⟩
  · simp only [Exec.switch, Exec.bind_run, hrun, Exec.pure_run]
  · simp only [Exec.switch, Exec.bind_run, hrun, Exec.verifyTop]
    split_ifs
    · simp only [Exec.popstack, Exec.bind_run, Exec.get_run, Exec.modify_run]
    · rfl
  · rw [hsuccess, Matching.search_iff, Matching.sublistForall₂_iff_exists_orderEmbedding]

/-- Two signatures and three keys, which accept just themselves. -/
def sampleMultiSig : Machine where
  stack := [[3], [7], [8], [9], [2], [7], [9], []]
  pbegincodehash := []

theorem sampleMultiSig_stack :
  MultiSigStack sampleMultiSig [[7], [9]] [[7], [8], [9]] []
  := ⟨⟨[3], [2], [], rfl, by decide, by decide⟩, by decide, by decide, by decide⟩

theorem sampleMultiSig_complete :
  ∃ fSuccess m',
    Exec.switch sampleCrypto BurnPayload.sampleScriptHashes (fun vchSig vchPubKey _ => vchSig == vchPubKey) [] true
      .checkMultiSig sampleMultiSig = .ok () m'
    ∧ m'.stack = [vchBool fSuccess]
    ∧ (fSuccess = true ↔ ∃ f : Fin 2 ↪o Fin 3, ∀ i,
        ([[7], [9]] : List Bytes).get i == ([[7], [8], [9]] : List Bytes).get (f i))
  := by
  obtain ⟨fSuccess, m', hrun, -, hstack, hiff⟩ := checkMultiSig_complete sampleCrypto
    BurnPayload.sampleScriptHashes
    (fun vchSig vchPubKey _ => vchSig == vchPubKey) [] sampleMultiSig_stack
  exact ⟨fSuccess, m', hrun, hstack, hiff⟩

end CorgiCoin
