import CorgiCoin.MultiSig
import CorgiCoin.Lib.Triple

/-!
# Rules for the script machine

What every case of the switch of `EvalScript` keeps: no access leaves a stack, the elements of the
stacks stay small, and the calls of `CheckSig` stay within a number that is given beforehand.
-/

namespace CorgiCoin

open Codec

/-! ## Numbers on the stack -/

theorem natAbs_setvch_lt (vch : Bytes) :
  (setvch vch).natAbs < 256 ^ vch.length
  := by
  rw [setvch, ← List.length_reverse]
  generalize vch.reverse = bs
  cases bs with
  | nil => decide
  | cons b bs =>
    have hlt : ∀ b : UInt8, ofBE (b :: bs) < 256 ^ (b :: bs).length := by
      intro b
      rw [ofBE, ← List.length_reverse]
      apply ofLE_lt
    rw [mpi2bn]
    split_ifs
    · rw [Int.natAbs_neg, Int.natAbs_natCast]
      apply hlt
    · rw [Int.natAbs_natCast]
      apply hlt

/-- A number that is read off the stack has five bytes at most. -/
theorem natAbs_lt_of_numberOf {vch : Bytes} {bn : ℤ} (h : numberOf vch = some bn) :
  bn.natAbs < 256 ^ 5
  := by
  rw [numberOf] at h
  split_ifs at h with hlong
  rw [← Option.some.inj h]
  have hlength : (getvch (setvch vch)).length ≤ 5 := by
    apply length_getvch_le_of_natAbs
    exact (natAbs_setvch_lt vch).trans_le (Nat.pow_le_pow_right (by decide) (by omega))
  exact (natAbs_setvch_lt _).trans_le (Nat.pow_le_pow_right (by decide) hlength)

theorem natAbs_bnBool_le (f : Bool) :
  (bnBool f).natAbs ≤ 1
  := by
  cases f <;> decide

theorem UnaryOp.natAbs_eval_le (op : UnaryOp) (bn : ℤ) :
  (op.eval bn).natAbs ≤ bn.natAbs + 1
  := by
  cases op with
  | not => exact (natAbs_bnBool_le _).trans (Nat.le_add_left _ _)
  | notEqual0 => exact (natAbs_bnBool_le _).trans (Nat.le_add_left _ _)
  | abs =>
    rw [eval]
    split_ifs <;> omega
  | add1 | sub1 | negate =>
    rw [eval]
    omega

theorem BinaryOp.natAbs_eval_le (op : BinaryOp) (bn1 bn2 : ℤ) :
  (op.eval bn1 bn2).natAbs ≤ bn1.natAbs + bn2.natAbs + 1
  := by
  cases op with
  | add | sub =>
    rw [eval]
    omega
  | min | max =>
    rw [eval]
    split_ifs <;> omega
  | _ => exact (natAbs_bnBool_le _).trans (Nat.le_add_left _ _)

/-! ## What a run keeps -/

/-- The elements of both stacks are small, at least `n` of them are on the stack, and `r` calls of
`CheckSig` are left of `K`. -/
structure Room (small : Bytes → Prop) (K r n : ℕ) (m : Machine) : Prop where
  stack : ∀ vch ∈ m.stack, small vch
  altstack : ∀ vch ∈ m.altstack, small vch
  nOpCount_le : m.nOpCount ≤ 201
  nChecks_le : m.nChecks + r ≤ K
  le_length : n ≤ m.stack.length

/-- What holds where a run is stopped: not by an access outside of a stack, and with the elements
and the calls as before. -/
structure Stopped (small : Bytes → Prop) (K : ℕ) (stop : Stop) (m : Machine) : Prop where
  inRange : stop ≠ .outOfRange
  stack : ∀ vch ∈ m.stack, small vch
  altstack : ∀ vch ∈ m.altstack, small vch
  nChecks_le : m.nChecks ≤ K

/-- What the instructions put on the stack is small, the stack being of a limited depth. -/
structure SmallPushes (small : Bytes → Prop) (depth : ℕ) : Prop where
  of_length_le : ∀ {vch : Bytes}, vch.length ≤ 520 → small vch
  size : ∀ {vch : Bytes}, small vch → small (getvch vch.length)
  depth : ∀ {n : ℕ}, n ≤ depth → small (getvch n)

section Rules

variable {small : Bytes → Prop} {K r n : ℕ} {m : Machine} {α : Type}

theorem Room.mono {r' n' : ℕ} (h : Room small K r n m) (hr : r' ≤ r) (hn : n' ≤ n) :
  Room small K r' n' m
  := ⟨h.stack, h.altstack, h.nOpCount_le, by have := h.nChecks_le; omega, hn.trans h.le_length⟩

theorem Room.stopped {stop : Stop} (h : Room small K r n m) (hstop : stop ≠ .outOfRange) :
  Stopped small K stop m
  := ⟨hstop, h.stack, h.altstack, by have := h.nChecks_le; omega⟩

namespace Exec

variable {Q : α → Machine → Prop}

/-! ### Tests and reads -/

variable {f : Unit → Exec α}

/-- The rest after a test that may fail the script. -/
theorem ite_fail_bind
    {c : Prop} [Decidable c] {P : Machine → Prop} (hP : ∀ m, P m → Room small K r n m)
    (h : ¬c → Triple P (f ()) Q (Stopped small K)) :
  Triple P (if c then fail >>= f else f ()) Q (Stopped small K)
  := by
  apply Triple.of_ite
  · intro _ m hm
    exact (hP m hm).stopped (by decide)
  · exact h

theorem need_bind
    {k : ℕ} (h : Triple (Room small K r k) (f ()) Q (Stopped small K)) :
  Triple (Room small K r n) (need k >>= f) Q (Stopped small K)
  := by
  intro m hm
  simp only [need, bind_run, get_run]
  split_ifs with hlength
  · exact hm.stopped (by decide)
  · exact h m ⟨hm.stack, hm.altstack, hm.nOpCount_le, hm.nChecks_le, by omega⟩

variable {i : ℕ}

theorem stacktop_spec (h : i < n) :
  Triple (Room small K r n) (stacktop (i + 1))
    (fun vch m => small vch ∧ Room small K r n m) (Stopped small K)
  := by
  intro m hm
  have hlt : i < m.stack.length := h.trans_le hm.le_length
  simp only [stacktop, bind_run, get_run, List.getElem?_eq_getElem hlt, pure_run]
  exact ⟨hm.stack _ (List.getElem_mem hlt), hm⟩

theorem stacktop_bind
    {f : Bytes → Exec α} (hi : i < n)
    (h : ∀ vch, small vch → Triple (Room small K r n) (f vch) Q (Stopped small K)) :
  Triple (Room small K r n) (stacktop (i + 1) >>= f) Q (Stopped small K)
  := Triple.of_bind (stacktop_spec hi) (fun vch => Triple.of_and (h vch))

/-! ### Changes of the stack -/

theorem popstack_spec :
  Triple (Room small K r (n + 1)) popstack (fun _ => Room small K r n) (Stopped small K)
  := by
  intro m hm
  cases hstack : m.stack with
  | nil =>
    have hlength := hm.le_length
    rw [hstack] at hlength
    cases hlength
  | cons vch stack =>
    have hmem := hm.stack
    have hlength := hm.le_length
    rw [hstack] at hmem hlength
    simp only [popstack, bind_run, get_run, hstack, modify_run]
    exact ⟨fun vch' h => hmem vch' (List.mem_cons_of_mem _ h), hm.altstack, hm.nOpCount_le,
      hm.nChecks_le, Nat.le_of_succ_le_succ hlength⟩

theorem popstack_bind
    (h : Triple (Room small K r n) (f ()) Q (Stopped small K)) :
  Triple (Room small K r (n + 1)) (popstack >>= f) Q (Stopped small K)
  := Triple.of_bind popstack_spec (fun _ => h)

variable {vch : Bytes}

theorem push_spec (h : small vch) :
  Triple (Room small K r n) (push vch) (fun _ => Room small K r (n + 1)) (Stopped small K)
  := by
  apply Triple.of_modify
  intro m hm
  refine ⟨?_, hm.altstack, hm.nOpCount_le, hm.nChecks_le, Nat.succ_le_succ hm.le_length⟩
  intro vch' hvch'
  cases List.mem_cons.mp hvch' with
  | inl heq => exact heq ▸ h
  | inr hmem => exact hm.stack vch' hmem

theorem push_bind
    (hsmall : small vch) (h : Triple (Room small K r (n + 1)) (f ()) Q (Stopped small K)) :
  Triple (Room small K r n) (push vch >>= f) Q (Stopped small K)
  := Triple.of_bind (push_spec hsmall) (fun _ => h)

variable {j : ℕ}

theorem erase_spec (hi : i ≤ n) (hj : j ≤ i) :
  Triple (Room small K r n) (erase i j) (fun _ => Room small K r (n - (i - j))) (Stopped small K)
  := by
  intro m hm
  have hlength := hm.le_length
  simp only [erase, bind_run, get_run, if_neg (show ¬m.stack.length < i by omega), modify_run]
  refine ⟨?_, hm.altstack, hm.nOpCount_le, hm.nChecks_le, ?_⟩
  · intro vch hvch
    rcases List.mem_append.mp hvch with hvch | hvch
    · exact hm.stack vch (List.mem_of_mem_take hvch)
    · exact hm.stack vch (List.mem_of_mem_drop hvch)
  · simp only [List.length_append, List.length_take, List.length_drop]
    omega

theorem swap_spec (hi : i < n) (hj : j < n) :
  Triple (Room small K r n) (swap (i + 1) (j + 1)) (fun _ => Room small K r n) (Stopped small K)
  := by
  apply stacktop_bind hi
  intro vch1 h1
  apply stacktop_bind hj
  intro vch2 h2
  apply Triple.of_modify
  intro m hm
  refine ⟨?_, hm.altstack, hm.nOpCount_le, hm.nChecks_le, ?_⟩
  · intro vch hvch
    rcases List.mem_or_eq_of_mem_set hvch with hvch | rfl
    · rcases List.mem_or_eq_of_mem_set hvch with hvch | rfl
      · exact hm.stack vch hvch
      · exact h2
    · exact h1
  · simpa only [List.length_set] using hm.le_length

theorem insert_spec (hi : i ≤ n) (h : small vch) :
  Triple (Room small K r n) (insert i vch) (fun _ => Room small K r (n + 1)) (Stopped small K)
  := by
  intro m hm
  have hlength := hm.le_length
  simp only [insert, bind_run, get_run, if_neg (show ¬m.stack.length < i by omega), modify_run]
  refine ⟨?_, hm.altstack, hm.nOpCount_le, hm.nChecks_le, ?_⟩
  · intro vch' hvch
    rcases List.mem_append.mp hvch with hvch | hvch
    · exact hm.stack vch' (List.mem_of_mem_take hvch)
    · rcases List.mem_cons.mp hvch with rfl | hvch
      · exact h
      · exact hm.stack vch' (List.mem_of_mem_drop hvch)
  · simp only [List.length_append, List.length_take, List.length_drop, List.length_cons]
    omega

theorem popMany_spec {k : ℕ} :
  Triple (Room small K r (n + k)) (popMany k) (fun _ => Room small K r n) (Stopped small K)
  := by
  induction k with
  | zero => exact Triple.of_pure (fun m hm => hm)
  | succ k ih => exact popstack_bind ih

/-! ### Numbers and calls of `CheckSig` -/

theorem castToBigNum_bind
    {P : Machine → Prop} {f : ℤ → Exec α} (hP : ∀ m, P m → Room small K r n m)
    (h : ∀ bn, numberOf vch = some bn → Triple P (f bn) Q (Stopped small K)) :
  Triple P (castToBigNum vch >>= f) Q (Stopped small K)
  := by
  intro m hm
  rw [castToBigNum, bind_run]
  split_ifs with hlong
  · exact (hP m hm).stopped (by decide)
  · exact h _ (if_neg hlong) m hm

/-- The rest after more opcodes are counted. -/
theorem count_bind
    {k : ℕ} (h : Triple (Room small K r n) (f ()) Q (Stopped small K)) :
  Triple (Room small K r n)
    (modify (fun m => { m with nOpCount := m.nOpCount + k }) >>= fun _ =>
      get >>= fun m => if m.nOpCount > 201 then fail >>= f else f ())
    Q (Stopped small K)
  := by
  intro m hm
  simp only [bind_run, modify_run, get_run]
  split_ifs with hcount
  · exact ⟨by decide, hm.stack, hm.altstack, by have := hm.nChecks_le; simpa using by omega⟩
  · exact h _ ⟨hm.stack, hm.altstack, Nat.le_of_not_lt hcount, hm.nChecks_le, hm.le_length⟩

variable {check : Bytes → Bytes → CScript → Bool}

theorem callCheckSig_spec {vchSig vchPubKey : Bytes} {scriptCode : CScript} :
  Triple (Room small K (r + 1) n) (callCheckSig check vchSig vchPubKey scriptCode)
    (fun _ => Room small K r n) (Stopped small K)
  := by
  intro m hm
  have hchecks := hm.nChecks_le
  simp only [callCheckSig, bind_run, modify_run, pure_run]
  exact ⟨hm.stack, hm.altstack, hm.nOpCount_le, by simpa using by omega, hm.le_length⟩

theorem deleteSigs_spec {nSigsCount : ℕ} (h : i + nSigsCount ≤ n) (scriptCode : CScript) :
  Triple (Room small K r n) (deleteSigs (i + 1) nSigsCount scriptCode) (fun _ => Room small K r n)
    (Stopped small K)
  := by
  induction nSigsCount generalizing i scriptCode with
  | zero => exact Triple.of_pure (fun m hm => hm)
  | succ nSigsCount ih =>
    apply stacktop_bind (by omega)
    intro vchSig _
    exact ih (by omega) _

/-- The loop over the keys makes a call for every key at most. -/
theorem checkSigs_spec
    {nKeysCount nSigsCount : ℕ} (hi : i + nSigsCount ≤ n) (hj : j + nKeysCount ≤ n)
    (scriptCode : CScript) :
  Triple (Room small K (r + nKeysCount) n)
    (checkSigs check scriptCode nKeysCount nSigsCount (i + 1) (j + 1)) (fun _ => Room small K r n)
    (Stopped small K)
  := by
  induction nKeysCount generalizing nSigsCount i j with
  | zero =>
    cases nSigsCount with
    | zero => exact Triple.of_pure (fun m hm => hm)
    | succ nSigsCount => exact Triple.of_pure (fun m hm => hm)
  | succ nKeysCount ih =>
    cases nSigsCount with
    | zero => exact Triple.of_pure (fun m hm => hm.mono (Nat.le_add_right _ _) le_rfl)
    | succ nSigsCount =>
      apply stacktop_bind (by omega)
      intro vchSig _
      apply stacktop_bind (by omega)
      intro vchPubKey _
      apply Triple.of_bind (callCheckSig_spec (r := r + nKeysCount))
      intro fOk
      have hstop : Triple (Room small K (r + nKeysCount) n) (pure false : Exec Bool)
          (fun _ => Room small K r n) (Stopped small K) :=
        Triple.of_pure (fun m hm => hm.mono (Nat.le_add_right _ _) le_rfl)
      apply Triple.of_ite
      · intro _
        apply Triple.of_ite (fun _ => hstop)
        intro _
        exact ih (by omega) (by omega)
      · intro _
        apply Triple.of_ite (fun _ => hstop)
        intro _
        exact ih (by omega) (by omega)

/-- The number on top of a stack, where it is a number of keys, is at most `c`. -/
def KeysAtMost (c : ℕ) (stack : List Bytes) : Prop :=
  ∀ vch ∈ stack.head?, ∀ bn, numberOf vch = some bn → bn ≤ 20 → bn ≤ c

theorem keysTop_spec {c : ℕ} :
  Triple (fun m => Room small K r n m ∧ KeysAtMost c m.stack) (need 1 >>= fun _ => stacktop 1)
    (fun vch m => (∀ bn, numberOf vch = some bn → bn ≤ 20 → bn ≤ c) ∧ Room small K r 1 m)
    (Stopped small K)
  := by
  rintro m ⟨hm, hkeys⟩
  cases hstack : m.stack with
  | nil =>
    have hneed : need 1 m = .error .failed m := by
      simp only [need, bind_run, get_run, hstack, List.length_nil, Nat.zero_lt_one, if_true]
      rfl
    rw [bind_run, hneed]
    exact hm.stopped (by decide)
  | cons vch stack =>
    have hlength : 1 ≤ m.stack.length := by
      rw [hstack]
      exact Nat.le_add_left 1 _
    have htop : stacktop 1 m = .ok vch m := stacktop_run (show m.stack.drop 0 = _ from hstack)
    rw [bind_run, need_run hlength]
    simp only [htop]
    refine ⟨hkeys vch (by rw [hstack]; rfl), hm.stack, hm.altstack, hm.nOpCount_le, hm.nChecks_le,
      hlength⟩

theorem checkMultiSig_spec {c : ℕ} (hsmall : ∀ f, small (vchBool f)) :
  Triple (fun m => Room small K (r + c) n m ∧ KeysAtMost c m.stack) (checkMultiSig check)
    (fun _ => Room small K r 1) (Stopped small K)
  := by
  rw [checkMultiSig, ← bind_assoc]
  apply Triple.of_bind keysTop_spec
  intro vchKeys
  apply Triple.of_and
  intro hkeys
  apply castToBigNum_bind (fun _ hm => hm)
  intro nKeysCount hnumber
  apply ite_fail_bind (fun _ hm => hm)
  intro hnKeys
  obtain ⟨nKeys, rfl⟩ := Int.eq_ofNat_of_zero_le (show 0 ≤ nKeysCount by omega)
  have hle : nKeys ≤ c := by
    have := hkeys _ hnumber (by omega)
    omega
  dsimp only
  rw [Int.toNat_natCast]
  apply count_bind
  apply need_bind
  rw [show 2 + nKeys = (1 + nKeys) + 1 by omega]
  apply stacktop_bind (by omega)
  intro vchSigs _
  apply castToBigNum_bind (fun _ hm => hm)
  intro nSigsCount _
  apply ite_fail_bind (fun _ hm => hm)
  intro hnSigs
  obtain ⟨nSigs, rfl⟩ := Int.eq_ofNat_of_zero_le (show 0 ≤ nSigsCount by omega)
  rw [Int.toNat_natCast]
  apply need_bind
  apply Triple.of_read
  intro m _
  apply Triple.of_bind (deleteSigs_spec (by omega) _)
  intro scriptCode
  apply Triple.of_bind (Q := fun _ => Room small K r (1 + nKeys + 1 + 1 + nSigs))
  · intro m hm
    exact checkSigs_spec (i := 1 + nKeys + 1) (j := 1) (by omega) (by omega) scriptCode m
      (hm.mono (by omega) le_rfl)
  · intro fSuccess
    have hpop := @popMany_spec small K r 0 (1 + nKeys + 1 + 1 + nSigs)
    rw [Nat.zero_add] at hpop
    apply Triple.of_bind hpop
    intro _
    apply push_bind (hsmall fSuccess)
    exact Triple.of_pure (fun m hm => hm)

theorem checkSig_spec (hsmall : ∀ f, small (vchBool f)) :
  Triple (Room small K (r + 1) n) (checkSig check) (fun _ => Room small K r 1) (Stopped small K)
  := by
  apply need_bind
  apply stacktop_bind (by decide)
  intro vchSig _
  apply stacktop_bind (by decide)
  intro vchPubKey _
  apply Triple.of_read
  intro m _
  apply Triple.of_bind callCheckSig_spec
  intro fSuccess
  apply popstack_bind
  apply popstack_bind
  apply push_bind (hsmall fSuccess)
  exact Triple.of_pure (fun m hm => hm)

theorem equal_spec (hsmall : ∀ f, small (vchBool f)) :
  Triple (Room small K r n) equal (fun _ => Room small K r 1) (Stopped small K)
  := by
  apply need_bind
  apply stacktop_bind (by decide)
  intro vch1 _
  apply stacktop_bind (by decide)
  intro vch2 _
  apply popstack_bind
  apply popstack_bind
  apply push_bind (hsmall _)
  exact Triple.of_pure (fun m hm => hm)

theorem verifyTop_spec {fValue : Bool} :
  Triple (Room small K r 1) (verifyTop fValue) (fun _ => Room small K r 0) (Stopped small K)
  := by
  apply Triple.of_ite
  · intro _
    exact popstack_spec
  · intro _ m hm
    exact hm.stopped (by decide)

theorem pick_spec {fRoll : Bool} :
  Triple (Room small K r n) (pick fRoll) (fun _ => Room small K r 0) (Stopped small K)
  := by
  apply need_bind
  apply stacktop_bind (by decide)
  intro vchN _
  apply castToBigNum_bind (fun _ hm => hm)
  intro bn _
  apply popstack_bind
  apply Triple.of_get_bind
  intro s hs
  apply ite_fail_bind (fun m hm => hm.symm ▸ hs)
  intro hbn
  obtain ⟨i, rfl⟩ := Int.eq_ofNat_of_zero_le (show 0 ≤ bn by omega)
  -- the index was compared with the depth of the stack
  have hdeep : Room small K r (i + 1) s :=
    ⟨hs.stack, hs.altstack, hs.nOpCount_le, hs.nChecks_le, by omega⟩
  rw [Int.toNat_natCast]
  apply Triple.pre _ (fun m hm => hm.symm ▸ hdeep)
  apply stacktop_bind (Nat.lt_succ_self i)
  intro vch hvch
  cases fRoll with
  | false =>
    exact (push_spec hvch).post (fun _ _ hm => hm.mono le_rfl (Nat.zero_le _))
  | true =>
    apply Triple.of_bind (erase_spec le_rfl (Nat.le_succ i))
    intro _
    exact (push_spec hvch).post (fun _ _ hm => hm.mono le_rfl (Nat.zero_le _))

/-! ### The other stack -/

theorem toAltStack_spec (h : small vch) :
  Triple (Room small K r n) (modify (fun m => { m with altstack := vch :: m.altstack }))
    (fun _ => Room small K r n) (Stopped small K)
  := by
  apply Triple.of_modify
  intro m hm
  refine ⟨hm.stack, ?_, hm.nOpCount_le, hm.nChecks_le, hm.le_length⟩
  intro vch' hvch'
  cases List.mem_cons.mp hvch' with
  | inl heq => exact heq ▸ h
  | inr hmem => exact hm.altstack vch' hmem

/-- The test whether the other stack has an element, and the read of it. -/
theorem popAlt_bind
    {f : Bytes → Exec α}
    (h : ∀ vch, small vch → Triple (Room small K r n) (f vch) Q (Stopped small K)) :
  Triple (Room small K r n)
    (get >>= fun m => if m.altstack.length < 1 then (fail : Exec Unit) >>= fun _ => popAlt >>= f
      else popAlt >>= f)
    Q (Stopped small K)
  := by
  intro m hm
  simp only [bind_run, get_run]
  cases haltstack : m.altstack with
  | nil => exact hm.stopped (by decide)
  | cons vch altstack =>
    have hmem := hm.altstack
    rw [haltstack] at hmem
    have hpop : popAlt m = .ok vch { m with altstack } := by
      simp only [popAlt, bind_run, get_run, haltstack, modify_run, pure_run]
    rw [List.length_cons, if_neg (by omega), bind_run, hpop]
    exact h vch (hmem vch List.mem_cons_self) _ ⟨hm.stack,
      fun vch' h => hmem vch' (List.mem_cons_of_mem _ h), hm.nOpCount_le, hm.nChecks_le, hm.le_length⟩

/-! ### Conditions -/

theorem pushExec_spec {fValue : Bool} :
  Triple (Room small K r n) (pushExec fValue) (fun _ => Room small K r n) (Stopped small K)
  := Triple.of_modify (fun _ hm => ⟨hm.stack, hm.altstack, hm.nOpCount_le, hm.nChecks_le, hm.le_length⟩)

theorem branch_spec {fNot fExec : Bool} :
  Triple (Room small K r n) (branch fNot fExec) (fun _ => Room small K r 0) (Stopped small K)
  := by
  apply Triple.of_ite
  · intro _
    apply need_bind
    apply stacktop_bind (by decide)
    intro vch _
    apply popstack_bind
    exact pushExec_spec
  · intro _ m hm
    exact pushExec_spec m (hm.mono le_rfl (Nat.zero_le _))

/-- The innermost condition is there once one is known to be open. -/
theorem popExec_bind (h : Triple (Room small K r n) (f ()) Q (Stopped small K)) :
  Triple (fun m => Room small K r n m ∧ m.vfExec ≠ []) (popExec >>= f) Q (Stopped small K)
  := by
  rintro m ⟨hm, hopen⟩
  obtain ⟨fValue, vfExec, heq⟩ := List.exists_cons_of_ne_nil hopen
  simp only [popExec, bind_run, get_run, heq, modify_run]
  exact h _ ⟨hm.stack, hm.altstack, hm.nOpCount_le, hm.nChecks_le, hm.le_length⟩

theorem backExec_spec :
  Triple (fun m => Room small K r n m ∧ m.vfExec ≠ []) backExec
    (fun _ m => Room small K r n m ∧ m.vfExec ≠ []) (Stopped small K)
  := by
  rintro m ⟨hm, hopen⟩
  obtain ⟨fValue, vfExec, heq⟩ := List.exists_cons_of_ne_nil hopen
  have hback : backExec m = .ok fValue m := by
    simp only [backExec, bind_run, get_run, heq, pure_run]
  rw [hback]
  exact ⟨hm, hopen⟩

/-- The test whether a condition is open. -/
theorem openExec_bind
    (h : Triple (fun m => Room small K r n m ∧ m.vfExec ≠ []) (f ()) Q (Stopped small K)) :
  Triple (Room small K r n)
    (get >>= fun m => if m.vfExec.isEmpty = true then fail >>= f else f ()) Q (Stopped small K)
  := by
  intro m hm
  simp only [bind_run, get_run]
  split_ifs with hempty
  · exact hm.stopped (by decide)
  · exact h m ⟨hm, fun heq => hempty (List.isEmpty_iff.mpr heq)⟩

end Exec

end Rules

/-! ## The switch -/

section Switch

variable {crypto : Crypto} {hashes : ScriptHashes} {check : Bytes → Bytes → CScript → Bool}
variable {small : Bytes → Prop} {depth K r n : ℕ}

/-- The calls of `CheckSig` that an opcode makes at most, when the number of keys is at most `c`. -/
def Op.checksAtMost (c : ℕ) : Op → ℕ
  | .checkSig | .checkSigVerify => 1
  | .checkMultiSig | .checkMultiSigVerify => c
  | _ => 0

theorem SmallPushes.of_natAbs (h : SmallPushes small depth) {bn : ℤ} (hbn : bn.natAbs < 256 ^ 6) :
  small (getvch bn)
  := h.of_length_le ((length_getvch_le_of_natAbs hbn).trans (by decide))

theorem SmallPushes.vchBool (h : SmallPushes small depth) (f : Bool) :
  small (vchBool f)
  := by
  apply h.of_length_le
  cases f <;> decide

theorem HashOp.length_eval_le (op : HashOp) (vch : Bytes) :
  (op.eval crypto hashes vch).length ≤ 520
  := by
  cases op with
  | ripemd160 => exact (hashes.length_ripemd160 vch).trans_le (by decide)
  | sha1 => exact (hashes.length_sha1 vch).trans_le (by decide)
  | sha256 => exact (hashes.length_sha256 vch).trans_le (by decide)
  | hash160 | hash256 =>
    simp only [eval, serializeUint160, serializeUint256, length_toLE]
    decide

open Exec in
/-- Every case of the switch keeps within the stacks, and makes the calls that it is charged for. -/
theorem switch_spec
    (hsmall : SmallPushes small depth) {c : ℕ} (pc : CScript) (fExec : Bool) (op : Op)
    (hop : ∀ bn, op = .smallInteger bn → bn.natAbs ≤ 16) :
  Triple (fun m => Room small K (r + op.checksAtMost c) 0 m ∧ KeysAtMost c m.stack ∧ m.stack.length ≤ depth)
    (switch crypto hashes check pc fExec op) (fun _ => Room small K r 0) (Stopped small K)
  := by
  have hroom : ∀ m, Room small K (r + op.checksAtMost c) 0 m ∧ KeysAtMost c m.stack ∧ m.stack.length ≤ depth →
      Room small K r 0 m := fun m hm => hm.1.mono (Nat.le_add_right _ _) le_rfl
  have hkeep : ∀ {x : Exec Unit},
      Triple (Room small K r 0) x (fun _ => Room small K r 0) (Stopped small K) →
      Triple (fun m => Room small K (r + op.checksAtMost c) 0 m ∧ KeysAtMost c m.stack
        ∧ m.stack.length ≤ depth) x (fun _ => Room small K r 0) (Stopped small K) :=
    fun h => h.pre hroom
  have hpush : ∀ {n : ℕ} {vch : Bytes}, small vch →
      Triple (Room small K r n) (push vch) (fun _ => Room small K r 0) (Stopped small K) :=
    fun h => (push_spec h).post (fun _ _ hm => hm.mono le_rfl (Nat.zero_le _))
  have hpop : ∀ {n : ℕ},
      Triple (Room small K r (n + 1)) popstack (fun _ => Room small K r 0) (Stopped small K) :=
    popstack_spec.post (fun _ _ hm => hm.mono le_rfl (Nat.zero_le _))
  have hswap : ∀ {n i j : ℕ}, i < n → j < n →
      Triple (Room small K r n) (swap (i + 1) (j + 1)) (fun _ => Room small K r 0)
        (Stopped small K) :=
    fun hi hj => (swap_spec hi hj).post (fun _ _ hm => hm.mono le_rfl (Nat.zero_le _))
  have hbool := hsmall.vchBool
  cases op with
  | smallInteger bn =>
    apply hkeep
    apply hpush
    apply hsmall.of_natAbs
    have := hop bn rfl
    omega
  | nop => exact hkeep (Triple.of_pure (fun m hm => hm))
  | opIf => exact hkeep branch_spec
  | notIf => exact hkeep branch_spec
  | opElse =>
    apply hkeep
    apply openExec_bind
    apply Triple.of_bind backExec_spec
    intro fValue
    apply popExec_bind
    exact pushExec_spec
  | endIf =>
    apply hkeep
    apply openExec_bind
    rw [← bind_pure (popExec)]
    apply popExec_bind
    exact Triple.of_pure (fun m hm => hm)
  | verify =>
    apply hkeep
    apply need_bind
    apply stacktop_bind (by decide)
    intro vch _
    exact verifyTop_spec
  | opReturn => exact hkeep (fun m hm => hm.stopped (by decide))
  | toAltStack =>
    apply hkeep
    apply need_bind
    apply stacktop_bind (by decide)
    intro vch hvch
    apply Triple.of_bind (toAltStack_spec hvch)
    intro _
    exact hpop
  | fromAltStack =>
    apply hkeep
    apply popAlt_bind
    intro vch hvch
    exact hpush hvch
  | drop2 =>
    apply hkeep
    apply need_bind
    apply popstack_bind
    exact hpop
  | dup2 =>
    apply hkeep
    apply need_bind
    apply stacktop_bind (by decide)
    intro vch1 h1
    apply stacktop_bind (by decide)
    intro vch2 h2
    apply push_bind h1
    exact hpush h2
  | dup3 =>
    apply hkeep
    apply need_bind
    apply stacktop_bind (by decide)
    intro vch1 h1
    apply stacktop_bind (by decide)
    intro vch2 h2
    apply stacktop_bind (by decide)
    intro vch3 h3
    apply push_bind h1
    apply push_bind h2
    exact hpush h3
  | over2 =>
    apply hkeep
    apply need_bind
    apply stacktop_bind (by decide)
    intro vch1 h1
    apply stacktop_bind (by decide)
    intro vch2 h2
    apply push_bind h1
    exact hpush h2
  | rot2 =>
    apply hkeep
    apply need_bind
    apply stacktop_bind (by decide)
    intro vch1 h1
    apply stacktop_bind (by decide)
    intro vch2 h2
    apply Triple.of_bind (erase_spec (by decide) (by decide))
    intro _
    apply push_bind h1
    exact hpush h2
  | swap2 =>
    apply hkeep
    apply need_bind
    apply Triple.of_bind (swap_spec (by decide) (by decide))
    intro _
    exact hswap (by decide) (by decide)
  | ifDup =>
    apply hkeep
    apply need_bind
    apply stacktop_bind (by decide)
    intro vch hvch
    apply Triple.of_ite
    · intro _
      exact hpush hvch
    · intro _
      exact Triple.of_pure (fun m hm => hm.mono le_rfl (Nat.zero_le _))
  | depth =>
    apply Triple.of_read
    intro m hm
    exact hkeep (hpush (hsmall.depth hm.2.2))
  | drop =>
    apply hkeep
    apply need_bind
    exact hpop
  | dup =>
    apply hkeep
    apply need_bind
    apply stacktop_bind (by decide)
    intro vch hvch
    exact hpush hvch
  | nip =>
    apply hkeep
    apply need_bind
    exact (erase_spec (by decide) (by decide)).post (fun _ _ hm => hm.mono le_rfl (Nat.zero_le _))
  | «over» =>
    apply hkeep
    apply need_bind
    apply stacktop_bind (by decide)
    intro vch hvch
    exact hpush hvch
  | pick => exact hkeep pick_spec
  | roll => exact hkeep pick_spec
  | rot =>
    apply hkeep
    apply need_bind
    apply Triple.of_bind (swap_spec (by decide) (by decide))
    intro _
    exact hswap (by decide) (by decide)
  | swap =>
    apply hkeep
    apply need_bind
    exact hswap (by decide) (by decide)
  | tuck =>
    apply hkeep
    apply need_bind
    apply stacktop_bind (by decide)
    intro vch hvch
    exact (insert_spec (by decide) hvch).post (fun _ _ hm => hm.mono le_rfl (Nat.zero_le _))
  | size =>
    apply hkeep
    apply need_bind
    apply stacktop_bind (by decide)
    intro vch hvch
    exact hpush (hsmall.size hvch)
  | equal =>
    apply hkeep
    apply Triple.of_bind (equal_spec hbool)
    intro _
    exact Triple.of_pure (fun m hm => hm.mono le_rfl (Nat.zero_le _))
  | equalVerify =>
    apply hkeep
    apply Triple.of_bind (equal_spec hbool)
    intro _
    exact verifyTop_spec
  | unary op =>
    apply hkeep
    apply need_bind
    apply stacktop_bind (by decide)
    intro vch _
    apply castToBigNum_bind (fun _ hm => hm)
    intro bn hbn
    apply popstack_bind
    apply hpush
    apply hsmall.of_natAbs
    have hlt := natAbs_lt_of_numberOf hbn
    have hle := op.natAbs_eval_le bn
    omega
  | binary op =>
    apply hkeep
    apply need_bind
    apply stacktop_bind (by decide)
    intro vch1 _
    apply castToBigNum_bind (fun _ hm => hm)
    intro bn1 hbn1
    apply stacktop_bind (by decide)
    intro vch2 _
    apply castToBigNum_bind (fun _ hm => hm)
    intro bn2 hbn2
    apply popstack_bind
    apply popstack_bind
    apply push_bind
    · apply hsmall.of_natAbs
      have hlt1 := natAbs_lt_of_numberOf hbn1
      have hlt2 := natAbs_lt_of_numberOf hbn2
      have hle := op.natAbs_eval_le bn1 bn2
      omega
    · apply Triple.of_ite
      · intro _
        apply stacktop_bind (by decide)
        intro vch _
        exact verifyTop_spec
      · intro _
        exact Triple.of_pure (fun m hm => hm.mono le_rfl (Nat.zero_le _))
  | within =>
    apply hkeep
    apply need_bind
    apply stacktop_bind (by decide)
    intro vch1 _
    apply castToBigNum_bind (fun _ hm => hm)
    intro bn1 _
    apply stacktop_bind (by decide)
    intro vch2 _
    apply castToBigNum_bind (fun _ hm => hm)
    intro bn2 _
    apply stacktop_bind (by decide)
    intro vch3 _
    apply castToBigNum_bind (fun _ hm => hm)
    intro bn3 _
    apply popstack_bind
    apply popstack_bind
    apply popstack_bind
    exact hpush (hbool _)
  | hash op =>
    apply hkeep
    apply need_bind
    apply stacktop_bind (by decide)
    intro vch _
    apply popstack_bind
    exact hpush (hsmall.of_length_le (op.length_eval_le vch))
  | codeSeparator =>
    apply hkeep
    exact Triple.of_modify (fun m hm => ⟨hm.stack, hm.altstack, hm.nOpCount_le, hm.nChecks_le, hm.le_length⟩)
  | checkSig =>
    apply Triple.of_bind ((checkSig_spec hbool).pre (fun _ hm => hm.1))
    intro _
    exact Triple.of_pure (fun m hm => hm.mono le_rfl (Nat.zero_le _))
  | checkSigVerify =>
    apply Triple.of_bind ((checkSig_spec hbool).pre (fun _ hm => hm.1))
    intro _
    exact verifyTop_spec
  | checkMultiSig =>
    apply Triple.of_bind
      ((checkMultiSig_spec hbool).pre (fun _ hm => ⟨hm.1, hm.2.1⟩))
    intro _
    exact Triple.of_pure (fun m hm => hm.mono le_rfl (Nat.zero_le _))
  | checkMultiSigVerify =>
    apply Triple.of_bind
      ((checkMultiSig_spec hbool).pre (fun _ hm => ⟨hm.1, hm.2.1⟩))
    intro _
    exact verifyTop_spec
  | invalid => exact hkeep (fun m hm => hm.stopped (by decide))

end Switch

end CorgiCoin
