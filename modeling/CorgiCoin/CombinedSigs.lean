import CorgiCoin.PartialSigs

/-!
# Merging partial signatures

A combination holds signatures of the keys that either script has, as far as the output asks for them.
By induction a tree of combinations is accepted just when its leaves together hold signatures of enough
keys, whatever its shape.
-/

namespace CorgiCoin

open Std Codec Exec txnouttype

namespace MultiSigOutput

variable {signing : Signing} {hashes : ScriptHashes} {out : MultiSigOutput signing hashes}
variable {crypto : Crypto} {txTo : CTransaction} {nIn : ℕ}

/-! ## Values that stand for others -/

section Values

variable {values values' all all' : List Bytes}

theorem mem_signed {key : Bytes} :
  key ∈ out.signed crypto txTo nIn values
    ↔ key ∈ out.keys ∧ ∃ v ∈ values, out.check crypto txTo nIn v key = true
  := by
  rw [signed, signedKeys, List.mem_filter, List.any_eq_true]

theorem nodup_signed :
  (out.signed crypto txTo nIn values).Nodup
  := out.nodup.filter _

theorem mem_signed_append {key : Bytes} :
  key ∈ out.signed crypto txTo nIn (values ++ values')
    ↔ key ∈ out.signed crypto txTo nIn values ∨ key ∈ out.signed crypto txTo nIn values'
  := by
  simp only [mem_signed, List.mem_append, or_and_right, exists_or, and_or_left]

theorem length_signed_le
    (h : out.signed crypto txTo nIn values ⊆ out.signed crypto txTo nIn all) :
  (out.signed crypto txTo nIn values).length ≤ (out.signed crypto txTo nIn all).length
  := (List.subperm_of_subset nodup_signed h).length_le

theorem length_signed_left (values values' : List Bytes) :
  (out.signed crypto txTo nIn values).length ≤ (out.signed crypto txTo nIn (values ++ values')).length
  := length_signed_le (fun _ hkey => mem_signed_append.mpr (.inl hkey))

theorem length_signed_right (values values' : List Bytes) :
  (out.signed crypto txTo nIn values').length ≤ (out.signed crypto txTo nIn (values ++ values')).length
  := length_signed_le (fun _ hkey => mem_signed_append.mpr (.inr hkey))

variable (out crypto txTo nIn) in
/-- Some values have signatures of the keys that others have signatures of, or of enough of them. -/
structure Keeps (values all : List Bytes) : Prop where
  subset : out.signed crypto txTo nIn values ⊆ out.signed crypto txTo nIn all
  enough : out.nSigs ≤ (out.signed crypto txTo nIn all).length →
    out.nSigs ≤ (out.signed crypto txTo nIn values).length
  every : (out.signed crypto txTo nIn all).length < out.nSigs →
    out.signed crypto txTo nIn all ⊆ out.signed crypto txTo nIn values

theorem Keeps.refl (values : List Bytes) :
  out.Keeps crypto txTo nIn values values
  := ⟨List.Subset.refl _, id, fun _ => List.Subset.refl _⟩

theorem Keeps.iff (h : out.Keeps crypto txTo nIn values all) :
  out.nSigs ≤ (out.signed crypto txTo nIn values).length ↔ out.nSigs ≤ (out.signed crypto txTo nIn all).length
  := ⟨fun hle => hle.trans (length_signed_le h.subset), h.enough⟩

theorem Keeps.trans
    (h : out.Keeps crypto txTo nIn values values') (h' : out.Keeps crypto txTo nIn values' all) :
  out.Keeps crypto txTo nIn values all
  := by
  constructor
  · exact List.Subset.trans h.subset h'.subset
  · intro hall
    exact h.enough (h'.enough hall)
  · intro hall
    have hfew := (length_signed_le h'.subset).trans_lt hall
    exact List.Subset.trans (h'.every hall) (h.every hfew)

theorem Keeps.append
    (h : out.Keeps crypto txTo nIn values all) (h' : out.Keeps crypto txTo nIn values' all') :
  out.Keeps crypto txTo nIn (values ++ values') (all ++ all')
  := by
  -- where neither has enough, nothing is lost
  have hevery : (out.signed crypto txTo nIn all).length < out.nSigs →
      (out.signed crypto txTo nIn all').length < out.nSigs →
      out.signed crypto txTo nIn (all ++ all') ⊆ out.signed crypto txTo nIn (values ++ values') := by
    intro hfew hfew' key hkey
    exact mem_signed_append.mpr ((mem_signed_append.mp hkey).imp (fun hkey => h.every hfew hkey)
      (fun hkey => h'.every hfew' hkey))
  constructor
  · intro key hkey
    exact mem_signed_append.mpr ((mem_signed_append.mp hkey).imp (fun hkey => h.subset hkey)
      (fun hkey => h'.subset hkey))
  · intro hall
    by_cases hfew : (out.signed crypto txTo nIn all).length < out.nSigs
    · by_cases hfew' : (out.signed crypto txTo nIn all').length < out.nSigs
      · exact hall.trans (length_signed_le (hevery hfew hfew'))
      · exact (h'.enough (Nat.le_of_not_lt hfew')).trans (length_signed_right _ _)
    · exact (h.enough (Nat.le_of_not_lt hfew)).trans (length_signed_left _ _)
  · intro hall
    exact hevery ((length_signed_left _ _).trans_lt hall)
      ((length_signed_right _ _).trans_lt hall)

/-- Signatures of the first keys, as many as the output asks for, stand for all. -/
theorem Keeps.of_take
    (h : List.Forall₂ (fun key v => v ∈ all ∧ out.check crypto txTo nIn v key = true)
      ((out.signed crypto txTo nIn all).take out.nSigs) values) :
  out.Keeps crypto txTo nIn values all
  := by
  obtain ⟨hlength, hget⟩ := List.forall₂_iff_get.mp h
  have hsigned : (out.signed crypto txTo nIn all).take out.nSigs ⊆ out.signed crypto txTo nIn values := by
    intro key hkey
    obtain ⟨i, hi, rfl⟩ := List.getElem_of_mem hkey
    apply mem_signed.mpr
    exact ⟨(mem_signed.mp (List.mem_of_mem_take hkey)).1, values[i], List.getElem_mem _,
      (hget i hi (hlength ▸ hi)).2⟩
  constructor
  · intro key hkey
    obtain ⟨hkey, v, hv, hcheck⟩ := mem_signed.mp hkey
    obtain ⟨i, hi, rfl⟩ := List.getElem_of_mem hv
    exact mem_signed.mpr ⟨hkey, _, (hget i (hlength ▸ hi) hi).1, hcheck⟩
  · intro hall
    have hle := (List.subperm_of_subset (nodup_signed.sublist (List.take_sublist _ _)) hsigned).length_le
    rwa [List.length_take, Nat.min_eq_left hall] at hle
  · intro hall
    rwa [List.take_of_length_le hall.le] at hsigned

end Values

/-! ## One combination -/

section Combination

variable {scriptSig1 scriptSig2 : CScript}

variable (out crypto txTo nIn) in
/-- Some values come from others, and where no value is a valid signature under two keys they stand for
them. -/
structure Merges (values all : List Bytes) : Prop where
  from_all : ∀ v ∈ values, v = [] ∨ v ∈ all
  keeps : out.SignsOnce crypto txTo nIn all → out.Keeps crypto txTo nIn values all

theorem Merges.refl (values : List Bytes) :
  out.Merges crypto txTo nIn values values
  := ⟨fun _ hv => .inr hv, fun _ => Keeps.refl values⟩

/-- Where no value is a valid signature under two keys, none of those that come from them is. -/
theorem Merges.signsOnce
    {values all : List Bytes} (h : out.Merges crypto txTo nIn values all)
    (hone : out.SignsOnce crypto txTo nIn all) :
  out.SignsOnce crypto txTo nIn values
  := by
  intro v hv key hkey key' hkey' hcheck
  rcases h.from_all v hv with rfl | hv
  · rw [check_nil] at hcheck
    cases hcheck
  · exact hone v hv key hkey key' hkey' hcheck

theorem Merges.trans
    {values mid all : List Bytes} (h : out.Merges crypto txTo nIn values mid)
    (h' : out.Merges crypto txTo nIn mid all) :
  out.Merges crypto txTo nIn values all
  := by
  constructor
  · intro v hv
    rcases h.from_all v hv with rfl | hv
    · exact .inl rfl
    · exact h'.from_all v hv
  · intro hone
    exact (h.keeps (h'.signsOnce hone)).trans (h'.keeps hone)

theorem Merges.append
    {values values' all all' : List Bytes} (h : out.Merges crypto txTo nIn values all)
    (h' : out.Merges crypto txTo nIn values' all') :
  out.Merges crypto txTo nIn (values ++ values') (all ++ all')
  := by
  constructor
  · intro v hv
    rcases List.mem_append.mp hv with hv | hv
    · exact (h.from_all v hv).imp_right (List.mem_append_left _)
    · exact (h'.from_all v hv).imp_right (List.mem_append_right _)
  · intro hone
    exact (h.keeps (fun v hv => hone v (List.mem_append_left _ hv))).append
      (h'.keeps (fun v hv => hone v (List.mem_append_right _ hv)))

variable (crypto txTo nIn) in
/-- Merging what two scripts hold gives a partial signature that stands for both. -/
theorem combineMultisig_merges
    (hlawful : signing.Lawful) (h1 : out.IsPartial crypto txTo nIn scriptSig1)
    (h2 : out.IsPartial crypto txTo nIn scriptSig2) (vchKeys : Bytes) :
  ∃ sigs nMissing, out.Partial crypto txTo nIn sigs nMissing
    ∧ combineMultisig crypto signing.toEcdsa txTo nIn out.script
        ([UInt8.ofNat out.nSigs] :: (out.keys ++ [vchKeys])) (out.held crypto scriptSig1)
        (out.held crypto scriptSig2)
      = pushAll (partialValues sigs nMissing)
    ∧ out.Merges crypto txTo nIn (partialValues sigs nMissing)
      (out.held crypto scriptSig1 ++ out.held crypto scriptSig2)
  := by
  have hsignature : ∀ v ∈ out.held crypto scriptSig1 ++ out.held crypto scriptSig2,
      v = [] ∨ IsSignature signing v := by
    intro v hv
    rcases List.mem_append.mp hv with hv | hv
    · exact h1.isSignature hlawful hv
    · exact h2.isSignature hlawful hv
  obtain ⟨found, merged, hmerged, hsub, hle, hforall, hfound⟩ := combineMultisig_eq crypto signing.toEcdsa txTo
    nIn out.keys (out.held crypto scriptSig1) (out.held crypto scriptSig2) vchKeys
    (out.isMultiSig.le_keys.trans out.isMultiSig.keys_le)
  obtain ⟨hlength, hget⟩ := List.forall₂_iff_get.mp hforall
  have hmem : ∀ v ∈ merged, v ∈ out.held crypto scriptSig1 ++ out.held crypto scriptSig2
      ∧ ∃ key, out.check crypto txTo nIn v key = true := by
    intro v hv
    obtain ⟨i, hi, rfl⟩ := List.getElem_of_mem hv
    obtain ⟨hv, hcheck⟩ := hget i (hlength ▸ hi) hi
    exact ⟨hv, _, hcheck⟩
  have hpartial : out.Partial crypto txTo nIn merged (out.nSigs - merged.length) := by
    refine ⟨?_, ?_, by omega⟩
    · intro v hv
      obtain ⟨hall, key, hcheck⟩ := hmem v hv
      rcases hsignature v hall with rfl | hsig
      · rw [check_nil] at hcheck
        cases hcheck
      · exact hsig
    · apply List.sublistForall₂_iff.mpr ⟨found, List.forall₂_iff_get.mpr ⟨hlength.symm, ?_⟩, hsub⟩
      intro i hi hi'
      exact (hget i hi' hi).2
  refine ⟨merged, out.nSigs - merged.length, hpartial, hmerged, ?_, ?_⟩
  · intro v hv
    rw [partialValues, List.mem_cons, List.mem_append] at hv
    rcases hv with rfl | hv | hv
    · exact .inl rfl
    · exact .inr (hmem v hv).1
    · exact .inl (List.eq_of_mem_replicate hv)
  · intro hone
    rw [hfound hone] at hforall
    have hkeeps : out.Keeps crypto txTo nIn merged
        (out.held crypto scriptSig1 ++ out.held crypto scriptSig2) := Keeps.of_take hforall
    constructor
    · rw [signed_partialValues]
      exact hkeeps.subset
    · rw [signed_partialValues]
      exact hkeeps.enough
    · rw [signed_partialValues]
      exact hkeeps.every

/-- Of a multi-signature the values of both stacks are merged. -/
theorem combineStacks_script (stack1 stack2 : List Bytes) :
  combineStacks crypto signing.toEcdsa txTo nIn stack1 stack2 out.script
    = combineMultisig crypto signing.toEcdsa txTo nIn out.script
      ([UInt8.ofNat out.nSigs] :: (out.keys ++ [[UInt8.ofNat out.keyOps.length]])) stack1.reverse
      stack2.reverse
  := by
  have hleaves : solverLeaves out.script = (TX_MULTISIG, [UInt8.ofNat out.nSigs]
      :: (out.keyOps.map Prod.snd ++ [[UInt8.ofNat out.keyOps.length]])) := by
    rw [solverLeaves, out.isMultiSig.solver_eq]
  rw [combineStacks.eq_def]
  dsimp only
  rw [hleaves]
  rfl

theorem stackLeft_nil :
  stackLeft crypto signing.toEcdsa hashes [] = []
  := rfl

variable (crypto) in
/-- What a partial signature pushes is the script again. -/
theorem IsPartial.pushAll_stackLeft
    (hlawful : signing.Lawful) (h : out.IsPartial crypto txTo nIn scriptSig1) :
  pushAll (stackLeft crypto signing.toEcdsa hashes scriptSig1).reverse = scriptSig1
  := by
  rcases h with rfl | ⟨sigs, nMissing, hmade, rfl⟩
  · rfl
  · rw [(hmade.pushable hlawful).stackLeft_eq, List.reverse_reverse]

theorem script_ne_nil :
  out.script.isEmpty = false
  := by
  cases hscript : out.script with
  | nil =>
    have hops := out.isMultiSig.ops
    rw [hscript] at hops
    cases hops
  | cons b script => rfl

variable (crypto) in
/-- Behind a hash the script is on top of the stack. -/
theorem stackLeft_behind
    (hlawful : signing.Lawful) (hhash : out.fScriptHash = true) {sigs : List Bytes} {nMissing : ℕ}
    (h : out.Partial crypto txTo nIn sigs nMissing) :
  stackLeft crypto signing.toEcdsa hashes (pushAll (partialValues sigs nMissing ++ out.behind))
    = out.script :: (partialValues sigs nMissing).reverse
  := by
  rw [(h.pushable hlawful).stackLeft_eq, List.reverse_append, behind, hhash, if_pos rfl,
    List.reverse_singleton, List.singleton_append]

variable (crypto txTo nIn) in
/-- A combination of partial signatures is one, and it stands for both. -/
theorem combine_merges
    (hlawful : signing.Lawful) (h1 : out.IsPartial crypto txTo nIn scriptSig1)
    (h2 : out.IsPartial crypto txTo nIn scriptSig2) :
  out.IsPartial crypto txTo nIn (out.combine crypto txTo nIn scriptSig1 scriptSig2)
    ∧ out.Merges crypto txTo nIn (out.held crypto (out.combine crypto txTo nIn scriptSig1 scriptSig2))
      (out.held crypto scriptSig1 ++ out.held crypto scriptSig2)
  := by
  obtain ⟨sigs, nMissing, hmade, hmerged, hmerges⟩ := combineMultisig_merges crypto txTo nIn
    hlawful h1 h2 [UInt8.ofNat out.keyOps.length]
  have hresult : ∀ scriptSig, scriptSig = pushAll (partialValues sigs nMissing ++ out.behind) →
      out.IsPartial crypto txTo nIn scriptSig ∧ out.Merges crypto txTo nIn (out.held crypto scriptSig)
        (out.held crypto scriptSig1 ++ out.held crypto scriptSig2) := by
    rintro scriptSig rfl
    rw [held_pushAll hlawful hmade]
    exact ⟨.inr ⟨sigs, nMissing, hmade, rfl⟩, hmerges⟩
  have hstack1 := h1.pushAll_stackLeft crypto hlawful
  have hstack2 := h2.pushAll_stackLeft crypto hlawful
  cases hhash : out.fScriptHash with
  | false =>
    apply hresult
    rw [combine, combineSignatures, scriptPubKey, hhash, if_neg Bool.false_ne_true, combineStacks_script,
      behind, hhash, if_neg Bool.false_ne_true, List.append_nil, ← hmerged, held, held, hhash]
    rfl
  | true =>
    have hleaves : solverLeaves out.scriptPubKey
        = (TX_SCRIPTHASH, [serializeUint160 (hashes.hash160 out.script)]) := by
      rw [solverLeaves, scriptPubKey, hhash, if_pos rfl, solver_scriptForScriptID]
    -- an empty script leaves the other one as it is
    rcases h1 with rfl | ⟨sigs1, nMissing1, hmade1, rfl⟩
    · have hcombine : out.combine crypto txTo nIn [] scriptSig2 = scriptSig2 := by
        rw [combine, combineSignatures, stackLeft_nil, combineStacks, hleaves]
        exact hstack2
      rw [hcombine, held_nil, List.nil_append]
      exact ⟨h2, Merges.refl _⟩
    · have hleft1 := stackLeft_behind crypto hlawful hhash hmade1
      rcases h2 with rfl | ⟨sigs2, nMissing2, hmade2, rfl⟩
      · have hcombine : out.combine crypto txTo nIn
            (pushAll (partialValues sigs1 nMissing1 ++ out.behind)) []
            = pushAll (partialValues sigs1 nMissing1 ++ out.behind) := by
          rw [hleft1] at hstack1
          rw [combine, combineSignatures, stackLeft_nil, hleft1, combineStacks.eq_def]
          dsimp only
          rw [hleaves]
          dsimp only
          rw [script_ne_nil]
          exact hstack1
        rw [hcombine, held_nil, List.append_nil]
        exact ⟨.inr ⟨sigs1, nMissing1, hmade1, rfl⟩, Merges.refl _⟩
      · apply hresult
        have hleft2 := stackLeft_behind crypto hlawful hhash hmade2
        rw [held_pushAll hlawful hmade1, held_pushAll hlawful hmade2] at hmerged
        rw [combine, combineSignatures, hleft1, hleft2, combineStacks.eq_def]
        dsimp only
        rw [hleaves]
        dsimp only
        rw [script_ne_nil, if_neg Bool.false_ne_true, if_neg Bool.false_ne_true, combineStacks_script,
          List.reverse_reverse, List.reverse_reverse, hmerged, behind, hhash, if_pos rfl, pushAll_concat]

theorem Produced.isPartial
    (hlawful : signing.Lawful) (hsound : out.Sound) {scriptSig : CScript}
    (h : out.Produced crypto txTo nIn scriptSig) :
  out.IsPartial crypto txTo nIn scriptSig
  := by
  induction h with
  | empty => exact .inl rfl
  | signed hkeystore htx hsign htxin =>
    exact isPartial_signSignature hlawful hkeystore hsound htx hsign htxin
  | combined _ _ ih1 ih2 => exact (combine_merges crypto txTo nIn hlawful ih1 ih2).1

end Combination

/-! ## Trees of combinations -/

variable (out crypto txTo nIn) in
/-- What repeated combinations make of the scripts they start from. -/
inductive Combination : List CScript → CScript → Prop where
  | leaf {scriptSig : CScript} : out.Produced crypto txTo nIn scriptSig → Combination [scriptSig] scriptSig
  | node {leaves1 leaves2 : List CScript} {scriptSig1 scriptSig2 : CScript} :
    Combination leaves1 scriptSig1 → Combination leaves2 scriptSig2 →
    Combination (leaves1 ++ leaves2) (out.combine crypto txTo nIn scriptSig1 scriptSig2)

/-- The end of a tree of combinations stands for its leaves. -/
theorem Combination.merges
    (hlawful : signing.Lawful) (hsound : out.Sound) {leaves : List CScript} {scriptSig : CScript}
    (h : out.Combination crypto txTo nIn leaves scriptSig) :
  out.IsPartial crypto txTo nIn scriptSig
    ∧ out.Merges crypto txTo nIn (out.held crypto scriptSig) (leaves.flatMap (out.held crypto))
  := by
  induction h with
  | leaf hproduced =>
    rw [List.flatMap_singleton]
    exact ⟨hproduced.isPartial hlawful hsound, Merges.refl _⟩
  | node _ _ ih1 ih2 =>
    obtain ⟨hmade, hmerges⟩ := combine_merges crypto txTo nIn hlawful ih1.1 ih2.1
    rw [List.flatMap_append]
    exact ⟨hmade, hmerges.trans (ih1.2.append ih2.2)⟩

/-- The end is accepted just when the leaves together hold signatures of enough keys. -/
theorem Combination.accepts_iff
    (hlawful : signing.Lawful) (hsound : out.Sound) {leaves : List CScript} {scriptSig : CScript}
    (h : out.Combination crypto txTo nIn leaves scriptSig)
    (hone : out.SignsOnce crypto txTo nIn (leaves.flatMap (out.held crypto))) :
  out.accepts crypto txTo nIn scriptSig = true
    ↔ out.nSigs ≤ (out.signed crypto txTo nIn (leaves.flatMap (out.held crypto))).length
  := by
  obtain ⟨hmade, hmerges⟩ := h.merges hlawful hsound
  rw [hmade.accepts_iff hlawful (hmerges.signsOnce hone), (hmerges.keeps hone).iff]

def pairKey (n : ℕ) : Bytes := 2 :: toBE32 n

/-- Keys that are their public keys, and signatures that hold the hash and the key. -/
def pairSigning : Signing where
  toEcdsa := sizedEcdsa
  getPubKey key := pairKey key.secret
  sign _ key hash := some (0x30 :: (serializeUint256 hash ++ toBE32 key.secret))

/-- A hash that two keys share with no other string. -/
def pairHash160 (vch : Bytes) : uint160 := if vch = pairKey 1 then 1 else if vch = pairKey 2 then 2 else 0

def pairHashes : ScriptHashes := { BurnPayload.sampleScriptHashes with hash160 := pairHash160 }

/-- The key store of one of the two. -/
def pairStore (n : ℕ) : CKeyStore where
  haveKey address := address == pairHash160 (pairKey n)
  getKey address := if address = pairHash160 (pairKey n) then some ⟨n, true⟩ else none
  getPubKey address := if address = pairHash160 (pairKey n) then some (pairKey n) else none
  mapScripts := ∅

def pairTx : CTransaction := ⟨1, [⟨⟨7, 0⟩, [], 0⟩], [], 0⟩

theorem pairSigning_lawful : pairSigning.Lawful where
  length_sign n key hash vchSig h := by
    rw [← Option.some.inj h, List.length_cons, List.length_append, length_toBE32, serializeUint256,
      length_toLE]
    decide
  head_sign n key hash vchSig h := by
    rw [← Option.some.inj h]
    rfl
  verify_sign n key hash vchSig h := by
    rw [← Option.some.inj h]
    simp [pairSigning, sizedEcdsa, pairKey, length_toBE32]

end MultiSigOutput

end CorgiCoin
