import CorgiCoin.SignSignature
import CorgiCoin.MultiSigRun

/-!
# Combining signatures

`CombineSignatures` merges two scripts that sign one input.  Of a multi-signature it pools the
signatures of both, finds the key of each by trying, and writes them in the order of the keys.  Behind a
script hash it takes the script off both stacks and puts it back.
-/

namespace CorgiCoin

open Std Codec Exec txnouttype

/-! ## The functions -/

/-- `PushAll` of a list of values, the first one first. -/
def pushAll (values : List Bytes) : CScript := values.flatMap pushData

section Combine

variable (crypto : Crypto) (ecdsa : Ecdsa) (txTo : CTransaction) (nIn : ℕ)

/-- The loops that match signatures to keys. -/
def matchSigs (check : Bytes → Bytes → Bool) (pubkeys : List Bytes) (allsigs : List Bytes) :
    ExtTreeMap Bytes Bytes :=
  allsigs.foldl (fun sigs sig =>
    match pubkeys.find? (fun pubkey => !sigs.contains pubkey && check sig pubkey) with
    | none => sigs
    | some pubkey => sigs.insert pubkey sig) ∅

/-- `CombineMultisig` -/
def combineMultisig (scriptPubKey : CScript) (vSolutions sigs1 sigs2 : List Bytes) : CScript :=
  let allsigs := (ExtTreeSet.ofList ((sigs1 ++ sigs2).filter (fun v => !v.isEmpty)) compare).toList
  let nSigsRequired := ((vSolutions.head?.getD []).head?.getD 0).toNat
  let pubkeys := vSolutions.tail.dropLast
  let sigs := matchSigs
    (fun sig pubkey => checkSig crypto ecdsa sig pubkey scriptPubKey txTo nIn 0) pubkeys allsigs
  let merged := (pubkeys.filterMap (fun pubkey => sigs[pubkey]?)).take nSigsRequired
  [0] ++ merged.flatMap pushData ++ List.replicate (nSigsRequired - merged.length) 0

/-- What `Solver` leaves in its arguments, also where it returns false: the numbers of a multi-signature
are tested after its type is set. -/
def solverLeaves (scriptPubKey : CScript) : txnouttype × List Bytes :=
  match solver scriptPubKey with
  | some found => found
  | none =>
    match matchTemplate [OP_SMALLINTEGER, OP_PUBKEYS, OP_SMALLINTEGER, OP_CHECKMULTISIG] scriptPubKey [] with
    | some vSolutions => (TX_MULTISIG, vSolutions)
    | none => (TX_NONSTANDARD, [])

/-- `CombineSignatures` of two stacks, top first. -/
def combineStacks : List Bytes → List Bytes → CScript → CScript
  | sigs1, sigs2, scriptPubKey =>
    match solverLeaves scriptPubKey with
    | (TX_NONSTANDARD, _) =>
      if sigs1.length ≥ sigs2.length then pushAll sigs1.reverse else pushAll sigs2.reverse
    | (TX_PUBKEY, _) | (TX_PUBKEYHASH, _) =>
      if (sigs1.getLast?.getD []).isEmpty then pushAll sigs2.reverse else pushAll sigs1.reverse
    | (TX_SCRIPTHASH, _) =>
      match sigs1 with
      | [] => pushAll sigs2.reverse
      | spk :: rest1 =>
        if spk.isEmpty then pushAll sigs2.reverse
        else
          match sigs2 with
          | [] => pushAll (spk :: rest1).reverse
          | spk2 :: rest2 =>
            if spk2.isEmpty then pushAll (spk :: rest1).reverse
            else combineStacks rest1 rest2 spk ++ pushData spk
    | (TX_MULTISIG, vSolutions) =>
      combineMultisig crypto ecdsa txTo nIn scriptPubKey vSolutions sigs1.reverse sigs2.reverse
    | (TX_NULL_DATA, _) => []

variable (hashes : ScriptHashes)

/-- `CTransaction()` -/
def CTransaction.blank : CTransaction := ⟨CTransaction.CURRENT_VERSION, [], [], 0⟩

/-- The stack that `EvalScript` leaves, also where it returns false; the checks are of an empty
transaction. -/
def stackLeft (scriptSig : CScript) : List Bytes :=
  if scriptSig.length > 10000 then []
  else
    match runScript crypto hashes
      (fun vchSig vchPubKey scriptCode =>
        checkSig crypto ecdsa vchSig vchPubKey scriptCode CTransaction.blank 0 0) [] scriptSig with
    | .error _ m => m.stack
    | .ok _ m => m.stack

/-- `CombineSignatures` of two scripts. -/
def combineSignatures (scriptPubKey scriptSig1 scriptSig2 : CScript) : CScript :=
  combineStacks crypto ecdsa txTo nIn (stackLeft crypto ecdsa hashes scriptSig1)
    (stackLeft crypto ecdsa hashes scriptSig2) scriptPubKey

end Combine

/-! ## Scripts of pushes -/

theorem pushAll_concat (values : List Bytes) (v : Bytes) :
  pushAll (values ++ [v]) = pushAll values ++ pushData v
  := by
  rw [pushAll, List.flatMap_append, List.flatMap_singleton]
  rfl

theorem instructions_pushAll {values : List Bytes} (h : ∀ v ∈ values, v.length < 2 ^ 32) :
  instructions (pushAll values) = (values.map (fun v => (pushOpcode v, v)), true)
  := by
  induction values with
  | nil => rfl
  | cons v values ih =>
    obtain ⟨hv, hvalues⟩ := List.forall_mem_cons.mp h
    have hpush : getOp (pushAll (v :: values)) = some (pushOpcode v, v, pushAll values) :=
      getOp_pushData hv _
    rw [instructions_cons hpush, ih hvalues]
    rfl

/-- Values that a script of pushes can carry: not too many, and none too large. -/
structure Pushable (values : List Bytes) : Prop where
  length_le : values.length ≤ 19
  size_le : ∀ v ∈ values, v.length ≤ 520

namespace Pushable

variable {values : List Bytes}

theorem instructions_eq (h : Pushable values) :
  instructions (pushAll values) = (values.map (fun v => (pushOpcode v, v)), true)
  := instructions_pushAll (fun v hv => Nat.lt_of_le_of_lt (h.size_le v hv) (by decide))

theorem script_length_le (h : Pushable values) :
  (pushAll values).length ≤ 10000
  := by
  have hlength := length_le_of_instructions h.instructions_eq (by
    intro op hop
    obtain ⟨v, hv, rfl⟩ := List.mem_map.mp hop
    exact h.size_le v hv)
  have hcount := h.length_le
  rw [List.length_map] at hlength
  omega

theorem isPushOnly (h : Pushable values) :
  CorgiCoin.isPushOnly (pushAll values) = true
  := by
  rw [CorgiCoin.isPushOnly, h.instructions_eq]
  simp only [Bool.true_and, List.all_map, List.all_eq_true, Function.comp_apply,
    decide_eq_true_eq]
  intro v _
  exact (pushOpcode_le v).trans (by decide)

theorem loop_run
    (h : Pushable values) {crypto : Crypto} {hashes : ScriptHashes}
    {check : Bytes → Bytes → CScript → Bool} :
  runScript crypto hashes check [] (pushAll values)
    = .ok () { stack := values.reverse, pbegincodehash := pushAll values }
  := by
  have hcount := h.length_le
  rw [runScript, EStateM.run, loop_pushes h.instructions_eq]
  · simp only [List.map_map, Function.comp_def, List.map_id', List.append_nil]
  · intro op hop
    obtain ⟨v, -, rfl⟩ := List.mem_map.mp hop
    apply pushOpcode_le
  · intro op hop
    obtain ⟨v, hv, rfl⟩ := List.mem_map.mp hop
    exact h.size_le v hv
  · rfl
  · simp only [List.length_nil, List.length_map]
    omega

theorem evalScript_eq
    (h : Pushable values) {crypto : Crypto} {ecdsa : Ecdsa} {hashes : ScriptHashes} {nHashType : Int32}
    {txTo : CTransaction} {nIn : ℕ} :
  evalScript crypto ecdsa hashes nHashType [] (pushAll values) txTo nIn = some values.reverse
  := by
  rw [evalScript, if_neg (Nat.not_lt.mpr h.script_length_le), h.loop_run]
  rfl

theorem stackLeft_eq
    (h : Pushable values) {crypto : Crypto} {ecdsa : Ecdsa} {hashes : ScriptHashes} :
  stackLeft crypto ecdsa hashes (pushAll values) = values.reverse
  := by
  rw [stackLeft, if_neg (Nat.not_lt.mpr h.script_length_le), h.loop_run]

end Pushable

/-! ## Matching signatures to keys -/

section Matching

variable {check : Bytes → Bytes → Bool} {pubkeys allsigs : List Bytes}

/-- A signature verifies under at most one key. -/
def OneKey (check : Bytes → Bytes → Bool) (pubkeys values : List Bytes) : Prop :=
  ∀ v ∈ values, ∀ key ∈ pubkeys, ∀ key' ∈ pubkeys, check v key = true → check v key' = true → key = key'

/-- The keys that a signature among the values is valid for. -/
def signedKeys (check : Bytes → Bytes → Bool) (pubkeys values : List Bytes) : List Bytes :=
  pubkeys.filter (fun key => values.any (fun v => check v key))

/-- What is matched to a key is valid for it. -/
theorem matchSigs_sound
    {key v : Bytes} (h : (matchSigs check pubkeys allsigs)[key]? = some v) :
  v ∈ allsigs ∧ check v key = true
  := by
  induction allsigs using List.reverseRecOn with
  | nil => simp [matchSigs] at h
  | append_singleton allsigs sig ih =>
    rw [matchSigs, List.foldl_append, List.foldl_cons, List.foldl_nil] at h
    change (match pubkeys.find? (fun pubkey => !(matchSigs check pubkeys allsigs).contains pubkey
        && check sig pubkey) with
      | none => matchSigs check pubkeys allsigs
      | some pubkey => (matchSigs check pubkeys allsigs).insert pubkey sig)[key]? = some v at h
    split at h
    · exact (ih h).imp_left (List.mem_append_left _)
    · rename_i pubkey hfind
      rw [TreeMap.getElem?_insert_ite] at h
      split_ifs at h with hkey
      · rw [← Option.some.inj h, ← hkey]
        have haccept := List.find?_some hfind
        rw [Bool.and_eq_true] at haccept
        exact ⟨List.mem_append_right _ List.mem_cons_self, haccept.2⟩
      · exact (ih h).imp_left (List.mem_append_left _)

/-- A key that some signature is valid for is matched. -/
theorem matchSigs_complete
    (hone : OneKey check pubkeys allsigs) {key v : Bytes} (hkey : key ∈ pubkeys) (hv : v ∈ allsigs)
    (hcheck : check v key = true) :
  ((matchSigs check pubkeys allsigs)[key]?).isSome
  := by
  induction allsigs using List.reverseRecOn with
  | nil => cases hv
  | append_singleton allsigs sig ih =>
    have hone' : OneKey check pubkeys allsigs := fun v hv => hone v (List.mem_append_left _ hv)
    rw [matchSigs, List.foldl_append, List.foldl_cons, List.foldl_nil]
    change ((match pubkeys.find? (fun pubkey => !(matchSigs check pubkeys allsigs).contains pubkey
        && check sig pubkey) with
      | none => matchSigs check pubkeys allsigs
      | some pubkey => (matchSigs check pubkeys allsigs).insert pubkey sig)[key]?).isSome
    have hinsert : ∀ pubkey, ((matchSigs check pubkeys allsigs)[key]?).isSome →
        (((matchSigs check pubkeys allsigs).insert pubkey sig)[key]?).isSome := by
      intro pubkey hsome
      rw [TreeMap.getElem?_insert_ite]
      split_ifs
      · rfl
      · exact hsome
    rcases List.mem_append.mp hv with hold | hnew
    · split
      · exact ih hone' hold
      · exact hinsert _ (ih hone' hold)
    · obtain rfl := List.mem_singleton.mp hnew
      split
      · rename_i hfind
        have hnone := List.find?_eq_none.mp hfind key hkey
        rw [hcheck, Bool.and_true, Bool.not_eq_true', Bool.not_eq_false,
          ExtTreeMap.contains_eq_isSome_getElem?] at hnone
        exact hnone
      · rename_i pubkey hfind
        have haccept := List.find?_some hfind
        rw [Bool.and_eq_true] at haccept
        rw [hone v hv pubkey (List.mem_of_find?_eq_some hfind) key hkey haccept.2 hcheck,
          TreeMap.getElem?_insert_ite, if_pos rfl]
        rfl

end Matching

/-! ## Merging multi-signatures -/

/-- What a partial function gives, beside the elements it is defined on. -/
theorem forall₂_filterMap {α β : Type} (f : α → Option β) (l : List α) :
  List.Forall₂ (fun a b => f a = some b) (l.filter (fun a => (f a).isSome)) (l.filterMap f)
  := by
  induction l with
  | nil => exact .nil
  | cons a l ih =>
    cases ha : f a with
    | none => rwa [List.filter_cons_of_neg (by simp [ha]), List.filterMap_cons_none ha]
    | some b =>
      rw [List.filter_cons_of_pos (by simp [ha]), List.filterMap_cons_some ha]
      exact .cons ha ih

theorem pushAll_replicate_nil (n : ℕ) :
  pushAll (List.replicate n []) = List.replicate n 0
  := by
  induction n with
  | zero => rfl
  | succ n ih =>
    rw [List.replicate_succ, List.replicate_succ, ← ih]
    rfl

/-- The merged script has valid signatures in the order of the keys and places for the missing ones.
Where a signature verifies under at most one key, it has one for each of the first keys that there are
signatures for. -/
theorem combineMultisig_eq
    (crypto : Crypto) (ecdsa : Ecdsa) (txTo : CTransaction) (nIn : ℕ) {script : CScript} {nSigs : ℕ}
    (keys sigs1 sigs2 : List Bytes) (vchKeys : Bytes) (hle : nSigs ≤ 16) :
  let check := fun sig key => checkSig crypto ecdsa sig key script txTo nIn 0
  ∃ found merged, combineMultisig crypto ecdsa txTo nIn script ([UInt8.ofNat nSigs] :: (keys ++ [vchKeys])) sigs1 sigs2
      = pushAll ([] :: (merged ++ List.replicate (nSigs - merged.length) []))
    ∧ found.Sublist keys ∧ merged.length ≤ nSigs
    ∧ List.Forall₂ (fun key v => v ∈ sigs1 ++ sigs2 ∧ check v key = true) found merged
    ∧ (OneKey check keys (sigs1 ++ sigs2) → found = (signedKeys check keys (sigs1 ++ sigs2)).take nSigs)
  := by
  intro check
  have hnil : ∀ key, check [] key = false := fun _ => rfl
  set allsigs := (ExtTreeSet.ofList ((sigs1 ++ sigs2).filter (fun v => !v.isEmpty)) compare).toList
    with hallsigs
  have hmem : ∀ v, v ∈ allsigs ↔ v ∈ sigs1 ++ sigs2 ∧ v ≠ [] := by
    intro v
    rw [hallsigs, ExtTreeSet.mem_toList, ExtTreeSet.mem_ofList, List.contains_iff_mem, List.mem_filter,
      Bool.not_eq_true', List.isEmpty_eq_false_iff]
  refine ⟨(keys.filter (fun key => ((matchSigs check keys allsigs)[key]?).isSome)).take nSigs,
    (keys.filterMap (fun key => (matchSigs check keys allsigs)[key]?)).take nSigs, ?_,
    (List.take_sublist _ _).trans List.filter_sublist, List.length_take_le _ _, ?_, ?_⟩
  · have hnumber : (UInt8.ofNat nSigs).toNat = nSigs := by
      rw [UInt8.toNat_ofNat', Nat.mod_eq_of_lt (by omega)]
    have hkeys : ([UInt8.ofNat nSigs] :: (keys ++ [vchKeys])).tail.dropLast = keys := by
      rw [List.tail_cons, List.dropLast_concat]
    rw [combineMultisig, hkeys, pushAll, List.flatMap_cons, List.flatMap_append]
    change _ = [0] ++ (_ ++ pushAll (List.replicate _ []))
    rw [pushAll_replicate_nil, ← List.append_assoc]
    simp only [List.head?_cons, Option.getD_some, hnumber]
    rfl
  · apply List.forall₂_take
    apply (forall₂_filterMap _ _).imp
    intro key v hv
    obtain ⟨hv, haccept⟩ := matchSigs_sound hv
    exact ⟨((hmem v).mp hv).1, haccept⟩
  · intro hone
    have hone' : OneKey check keys allsigs := fun v hv => hone v ((hmem v).mp hv).1
    congr 1
    apply List.filter_congr
    intro key hkey
    rw [Bool.eq_iff_iff, List.any_eq_true]
    constructor
    · intro hsome
      obtain ⟨v, hv⟩ := Option.isSome_iff_exists.mp hsome
      obtain ⟨hv, haccept⟩ := matchSigs_sound hv
      exact ⟨v, ((hmem v).mp hv).1, haccept⟩
    · rintro ⟨v, hv, haccept⟩
      apply matchSigs_complete hone' hkey _ haccept
      refine (hmem v).mpr ⟨hv, ?_⟩
      rintro rfl
      rw [hnil] at haccept
      cases haccept

end CorgiCoin
