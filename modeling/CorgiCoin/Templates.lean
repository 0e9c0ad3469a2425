import CorgiCoin.CreateTransaction
import CorgiCoin.SigOpBound

/-!
# What the standard templates mean

`Solver` compares scripts with templates byte by byte.  It finds a type just where the instructions
of the script have the shape of the template, whatever the form of the pushes, and its solutions are
the data of that shape.  A script that pays to the hash of a public key is satisfied by a signature
and a key just when the key has the hash and `CheckSig` accepts the signature.
-/

namespace CorgiCoin

open Codec

/-! ## Instructions one by one -/

variable {script : CScript}

theorem instructions_eq_cons_iff
    {op : ℕ × Bytes} {ops : List (ℕ × Bytes)} {ok : Bool} :
  instructions script = (op :: ops, ok)
    ↔ ∃ pc, getOp script = some (op.1, op.2, pc) ∧ instructions pc = (ops, ok)
  := by
  constructor
  · intro h
    cases hop : getOp script with
    | none =>
      cases script with
      | nil => cases h
      | cons b rest =>
        rw [instructions, List.length_cons, parse, if_neg (by simp), hop] at h
        cases h
    | some read =>
      obtain ⟨opcode, vch, pc⟩ := read
      rw [instructions_cons hop, Prod.mk.injEq, List.cons.injEq] at h
      obtain ⟨⟨rfl, hops⟩, hok⟩ := h
      exact ⟨pc, rfl, Prod.ext hops hok⟩
  · rintro ⟨pc, hop, hrest⟩
    rw [instructions_cons hop, hrest]

theorem instructions_eq_nil_iff :
  instructions script = ([], true) ↔ script = []
  := by
  constructor
  · intro h
    cases script with
    | nil => rfl
    | cons b rest =>
      rw [instructions, List.length_cons, parse, if_neg (by simp)] at h
      cases hop : getOp (b :: rest) with
      | none =>
        rw [hop] at h
        cases h
      | some op =>
        rw [hop] at h
        cases h
  · rintro rfl
    rfl

variable {vch : Bytes} {pc : CScript} {opcode : ℕ}

/-- Only the opcodes for pushes come with data. -/
theorem vch_eq_nil_of_getOp
    (h : getOp script = some (opcode, vch, pc)) (hopcode : opcode = 0 ∨ OP_PUSHDATA4 < opcode) :
  vch = []
  := by
  cases script with
  | nil => cases h
  | cons b rest =>
    by_contra hvch
    obtain ⟨-, hle, hlength, -⟩ := getOp_push h hvch
    rcases hopcode with rfl | hlt
    · exact hvch (List.eq_nil_of_length_eq_zero (hlength (by decide)))
    · omega

theorem vch_eq_nil_of_mem
    {op : ℕ × Bytes} (h : op ∈ (instructions script).1) (hopcode : op.1 = 0 ∨ OP_PUSHDATA4 < op.1) :
  op.2 = []
  := by
  have hread : ∀ n script, op ∈ (parse n script).1 →
      ∃ script' pc, getOp script' = some (op.1, op.2, pc) := by
    intro n
    induction n with
    | zero =>
      intro script hmem
      cases hmem
    | succ n ih =>
      intro script hmem
      rw [parse] at hmem
      split_ifs at hmem
      · cases hmem
      · cases hop : getOp script with
        | none =>
          rw [hop] at hmem
          cases hmem
        | some read =>
          obtain ⟨opcode, vch, pc⟩ := read
          rw [hop] at hmem
          rcases List.mem_cons.mp hmem with rfl | hmem
          · exact ⟨script, pc, hop⟩
          · exact ih pc hmem
  obtain ⟨script', pc, hop⟩ := hread _ _ h
  exact vch_eq_nil_of_getOp hop hopcode

/-- A script of an instruction and more starts with its opcode. -/
theorem head?_of_getOp
    (h : getOp script = some (opcode, vch, pc)) :
  script.head?.map UInt8.toNat = some opcode
  := by
  cases script with
  | nil => cases h
  | cons b rest =>
    rw [getOp] at h
    dsimp only at h
    split_ifs at h
    all_goals
      simp only [Option.some.injEq, Prod.mk.injEq] at h
      rw [List.head?_cons, Option.map_some, h.1]

/-! ## Matching a template -/

variable {vSolutions found : List Bytes}

theorem matchTemplate_nil_iff :
  matchTemplate [] script vSolutions = some found
    ↔ instructions script = ([], true) ∧ vSolutions = found
  := by
  rw [instructions_eq_nil_iff, matchTemplate]
  split_ifs with hempty
  · rw [Option.some_inj]
    exact ⟨fun h => ⟨List.isEmpty_iff.mp hempty, h⟩, fun h => h.2⟩
  · exact ⟨fun h => (by cases h), fun h => absurd (List.isEmpty_iff.mpr h.1) hempty⟩

/-- A match of a template is a match of its first instruction and of the rest. -/
theorem matchTemplate_cons_iff
    {opcode2 : ℕ} {rest : List ℕ} (h : opcode2 ≠ OP_PUBKEYS) :
  matchTemplate (opcode2 :: rest) script vSolutions = some found
    ↔ ∃ opcode1 vch1 pc1 new, getOp script = some (opcode1, vch1, pc1)
      ∧ matchOp opcode1 vch1 opcode2 = some new
      ∧ matchTemplate rest pc1 (vSolutions ++ new) = some found
  := by
  rw [matchTemplate]
  cases hop : getOp script with
  | none => simp
  | some op =>
    obtain ⟨opcode1, vch1, pc1⟩ := op
    simp only [if_neg h]
    cases hmatch : matchOp opcode1 vch1 opcode2 with
    | none => simp [hmatch]
    | some new => simp [hmatch]

variable {new : List Bytes}

theorem matchOp_pubKey_iff :
  matchOp opcode vch OP_PUBKEY = some new ↔ isPubKeySize vch = true ∧ new = [vch]
  := by
  rw [matchOp, if_pos rfl]
  split_ifs with h
  · simp [h, eq_comm]
  · simp [h]

theorem matchOp_pubKeyHash_iff :
  matchOp opcode vch OP_PUBKEYHASH = some new ↔ vch.length = 20 ∧ new = [vch]
  := by
  rw [matchOp, if_neg (by decide), if_pos rfl]
  split_ifs with h
  · simp [h, eq_comm]
  · simp [h]

theorem matchOp_smallInteger_iff :
  matchOp opcode vch OP_SMALLINTEGER = some new
    ↔ (opcode = 0 ∨ (OP_1 ≤ opcode ∧ opcode ≤ OP_16))
      ∧ new = [[UInt8.ofNat (if opcode = 0 then 0 else decodeOP_N opcode)]]
  := by
  rw [matchOp, if_neg (by decide), if_neg (by decide), if_pos rfl]
  by_cases h : opcode = 0 ∨ (OP_1 ≤ opcode ∧ opcode ≤ OP_16)
  · rw [if_pos h, Option.some_inj, eq_comm, and_iff_right h]
  · rw [if_neg h]
    simp only [h, false_and, reduceCtorEq]

theorem matchOp_exact_iff
    {opcode2 : ℕ} (h : opcode2 < OP_SMALLINTEGER) :
  matchOp opcode vch opcode2 = some new ↔ opcode = opcode2 ∧ vch = [] ∧ new = []
  := by
  simp only [OP_SMALLINTEGER] at h
  have hkey : opcode2 ≠ OP_PUBKEY := by
    simp only [OP_PUBKEY]
    omega
  have hhash : opcode2 ≠ OP_PUBKEYHASH := by
    simp only [OP_PUBKEYHASH]
    omega
  have hsmall : opcode2 ≠ OP_SMALLINTEGER := by
    simp only [OP_SMALLINTEGER]
    omega
  rw [matchOp, if_neg hkey, if_neg hhash, if_neg hsmall]
  split_ifs with hne
  · simp only [false_iff]
    tauto
  · simp only [not_or, not_not] at hne
    simp [hne, eq_comm]

/-! ## The shapes of the types -/

/-- A push of a public key and `OP_CHECKSIG`. -/
theorem matchTemplate_pubKey_iff :
  matchTemplate [OP_PUBKEY, OP_CHECKSIG] script [] = some found
    ↔ ∃ opcode key, isPubKeySize key = true
      ∧ instructions script = ([(opcode, key), (OP_CHECKSIG, [])], true) ∧ found = [key]
  := by
  rw [matchTemplate_cons_iff (by decide)]
  constructor
  · rintro ⟨opcode, key, pc, new, hop, hmatch, hrest⟩
    obtain ⟨hsize, rfl⟩ := matchOp_pubKey_iff.mp hmatch
    obtain ⟨opcode', vch, pc', new', hop', hmatch', hend⟩ :=
      (matchTemplate_cons_iff (by decide)).mp hrest
    obtain ⟨rfl, rfl, rfl⟩ := (matchOp_exact_iff (by decide)).mp hmatch'
    obtain ⟨hnil, rfl⟩ := matchTemplate_nil_iff.mp hend
    refine ⟨opcode, key, hsize, ?_, rfl⟩
    exact instructions_eq_cons_iff.mpr ⟨pc, hop, instructions_eq_cons_iff.mpr ⟨pc', hop', hnil⟩⟩
  · rintro ⟨opcode, key, hsize, hops, rfl⟩
    obtain ⟨pc, hop, hops⟩ := instructions_eq_cons_iff.mp hops
    obtain ⟨pc', hop', hnil⟩ := instructions_eq_cons_iff.mp hops
    refine ⟨opcode, key, pc, _, hop, matchOp_pubKey_iff.mpr ⟨hsize, rfl⟩, ?_⟩
    refine (matchTemplate_cons_iff (by decide)).mpr
      ⟨_, _, pc', _, hop', (matchOp_exact_iff (by decide)).mpr ⟨rfl, rfl, rfl⟩, ?_⟩
    exact matchTemplate_nil_iff.mpr ⟨hnil, rfl⟩

/-- The instructions of a script that pays to a hash of a public key. -/
def pubKeyHashOps (opcode : ℕ) (hash : Bytes) : List (ℕ × Bytes) :=
  [(OP_DUP, []), (OP_HASH160, []), (opcode, hash), (OP_EQUALVERIFY, []), (OP_CHECKSIG, [])]

theorem matchTemplate_pubKeyHash_iff :
  matchTemplate [OP_DUP, OP_HASH160, OP_PUBKEYHASH, OP_EQUALVERIFY, OP_CHECKSIG] script [] = some found
    ↔ ∃ opcode hash, hash.length = 20 ∧ instructions script = (pubKeyHashOps opcode hash, true)
      ∧ found = [hash]
  := by
  rw [matchTemplate_cons_iff (by decide)]
  constructor
  · rintro ⟨_, _, pc1, _, hop1, hmatch1, hrest⟩
    obtain ⟨rfl, rfl, rfl⟩ := (matchOp_exact_iff (by decide)).mp hmatch1
    obtain ⟨_, _, pc2, _, hop2, hmatch2, hrest⟩ := (matchTemplate_cons_iff (by decide)).mp hrest
    obtain ⟨rfl, rfl, rfl⟩ := (matchOp_exact_iff (by decide)).mp hmatch2
    obtain ⟨opcode, hash, pc3, _, hop3, hmatch3, hrest⟩ :=
      (matchTemplate_cons_iff (by decide)).mp hrest
    obtain ⟨hlength, rfl⟩ := matchOp_pubKeyHash_iff.mp hmatch3
    obtain ⟨_, _, pc4, _, hop4, hmatch4, hrest⟩ := (matchTemplate_cons_iff (by decide)).mp hrest
    obtain ⟨rfl, rfl, rfl⟩ := (matchOp_exact_iff (by decide)).mp hmatch4
    obtain ⟨_, _, pc5, _, hop5, hmatch5, hrest⟩ := (matchTemplate_cons_iff (by decide)).mp hrest
    obtain ⟨rfl, rfl, rfl⟩ := (matchOp_exact_iff (by decide)).mp hmatch5
    obtain ⟨hnil, rfl⟩ := matchTemplate_nil_iff.mp hrest
    refine ⟨opcode, hash, hlength, ?_, rfl⟩
    exact instructions_eq_cons_iff.mpr ⟨pc1, hop1, instructions_eq_cons_iff.mpr ⟨pc2, hop2,
      instructions_eq_cons_iff.mpr ⟨pc3, hop3, instructions_eq_cons_iff.mpr ⟨pc4, hop4,
        instructions_eq_cons_iff.mpr ⟨pc5, hop5, hnil⟩⟩⟩⟩⟩
  · rintro ⟨opcode, hash, hlength, hops, rfl⟩
    obtain ⟨pc1, hop1, hops⟩ := instructions_eq_cons_iff.mp hops
    obtain ⟨pc2, hop2, hops⟩ := instructions_eq_cons_iff.mp hops
    obtain ⟨pc3, hop3, hops⟩ := instructions_eq_cons_iff.mp hops
    obtain ⟨pc4, hop4, hops⟩ := instructions_eq_cons_iff.mp hops
    obtain ⟨pc5, hop5, hnil⟩ := instructions_eq_cons_iff.mp hops
    have hexact : ∀ {opcode2 : ℕ}, opcode2 < OP_SMALLINTEGER →
        matchOp opcode2 [] opcode2 = some [] :=
      fun h => (matchOp_exact_iff h).mpr ⟨rfl, rfl, rfl⟩
    refine ⟨_, _, pc1, _, hop1, hexact (by decide), ?_⟩
    refine (matchTemplate_cons_iff (by decide)).mpr ⟨_, _, pc2, _, hop2, hexact (by decide), ?_⟩
    refine (matchTemplate_cons_iff (by decide)).mpr
      ⟨_, _, pc3, _, hop3, matchOp_pubKeyHash_iff.mpr ⟨hlength, rfl⟩, ?_⟩
    refine (matchTemplate_cons_iff (by decide)).mpr ⟨_, _, pc4, _, hop4, hexact (by decide), ?_⟩
    refine (matchTemplate_cons_iff (by decide)).mpr ⟨_, _, pc5, _, hop5, hexact (by decide), ?_⟩
    exact matchTemplate_nil_iff.mpr ⟨hnil, rfl⟩

/-! ## Keys in a row -/

/-- The loop over public keys takes pushes of the size of keys. -/
theorem takePubKeys_sound
    {fuel opcode' : ℕ} {vch' : Bytes} {pc' : CScript} (hfuel : pc.length < fuel)
    (h : takePubKeys fuel (opcode, vch, pc) vSolutions = ((opcode', vch', pc'), found))
    (hopcode : opcode' ≠ OP_INVALIDOPCODE) :
  ∃ keyOps : List (ℕ × Bytes), (∀ op ∈ keyOps, isPubKeySize op.2 = true)
    ∧ found = vSolutions ++ keyOps.map Prod.snd
    ∧ (opcode, vch) :: (instructions pc).1 = keyOps ++ (opcode', vch') :: (instructions pc').1
    ∧ (instructions pc).2 = (instructions pc').2
  := by
  induction fuel generalizing opcode vch pc vSolutions with
  | zero => omega
  | succ fuel ih =>
    rw [takePubKeys] at h
    split_ifs at h with hsize
    · cases hop : getOp pc with
      | none =>
        rw [hop] at h
        cases h
        exact absurd rfl hopcode
      | some op =>
        obtain ⟨opcode₁, vch₁, pc₁⟩ := op
        rw [hop] at h
        have hlt := (getOp_suffix hop).2
        obtain ⟨keyOps, hkeys, hfound, hops, hok⟩ := ih (by omega) h
        refine ⟨(opcode, vch) :: keyOps, List.forall_mem_cons.mpr ⟨hsize, hkeys⟩, ?_, ?_, ?_⟩
        · rw [hfound, List.map_cons, List.append_assoc]
          rfl
        · rw [instructions_cons hop, List.cons_append, hops]
        · rw [instructions_cons hop]
          exact hok
    · cases h
      exact ⟨[], nofun, (List.append_nil _).symm, rfl, rfl⟩

theorem takePubKeys_complete
    {keyOps tail : List (ℕ × Bytes)} {opcode' : ℕ} {vch' : Bytes}
    (hkeys : ∀ op ∈ keyOps, isPubKeySize op.2 = true) (hlast : isPubKeySize vch' = false)
    (hops : (opcode, vch) :: (instructions pc).1 = keyOps ++ (opcode', vch') :: tail) {fuel : ℕ}
    (hfuel : pc.length < fuel) (vSolutions : List Bytes) :
  ∃ pc', takePubKeys fuel (opcode, vch, pc) vSolutions
      = ((opcode', vch', pc'), vSolutions ++ keyOps.map Prod.snd)
    ∧ instructions pc' = (tail, (instructions pc).2)
  := by
  induction keyOps generalizing fuel opcode vch pc vSolutions with
  | nil =>
    rw [List.nil_append, List.cons.injEq, Prod.mk.injEq] at hops
    obtain ⟨⟨rfl, rfl⟩, htail⟩ := hops
    obtain ⟨fuel, rfl⟩ := Nat.exists_eq_add_of_lt (Nat.zero_lt_of_lt hfuel)
    refine ⟨pc, ?_, Prod.ext htail rfl⟩
    rw [Nat.zero_add, takePubKeys, hlast, if_neg Bool.false_ne_true, List.map_nil, List.append_nil]
  | cons op keyOps ih =>
    obtain ⟨hsize, hrestKeys⟩ := List.forall_mem_cons.mp hkeys
    rw [List.cons_append, List.cons.injEq] at hops
    obtain ⟨rfl, hops⟩ := hops
    obtain ⟨fuel, rfl⟩ := Nat.exists_eq_add_of_lt (Nat.zero_lt_of_lt hfuel)
    rw [Nat.zero_add] at hfuel ⊢
    -- another instruction follows, a key or the one after the keys
    have hcons : ∃ op ops, (instructions pc).1 = op :: ops := by
      cases keyOps with
      | nil => exact ⟨_, _, hops⟩
      | cons op ops => exact ⟨_, _, hops⟩
    obtain ⟨⟨opcode₁, vch₁⟩, ops, hread⟩ := hcons
    obtain ⟨pc₁, hop, hrest⟩ :=
      instructions_eq_cons_iff.mp (Prod.ext hread rfl : instructions pc = (_, (instructions pc).2))
    have hlt := (getOp_suffix hop).2
    have hops' : (opcode₁, vch₁) :: (instructions pc₁).1 = keyOps ++ (opcode', vch') :: tail := by
      rw [← hops, hread, hrest]
    obtain ⟨pc', htake, hend⟩ :=
      ih hrestKeys hops' (show pc₁.length < fuel by omega) (vSolutions ++ [vch])
    refine ⟨pc', ?_, ?_⟩
    · rw [takePubKeys, if_pos hsize, hop]
      dsimp only
      rw [htake, List.map_cons, List.append_assoc]
      rfl
    · rw [hend, hrest]

/-! ## Multi-signatures -/

/-- The opcodes that the template takes for a number. -/
def IsSmallInteger (opcode : ℕ) : Prop := opcode = 0 ∨ (OP_1 ≤ opcode ∧ opcode ≤ OP_16)

/-- The number that an opcode stands for in the solutions. -/
def smallInteger (opcode : ℕ) : UInt8 := UInt8.ofNat (if opcode = 0 then 0 else decodeOP_N opcode)

/-- A number comes without data. -/
theorem IsSmallInteger.noData (h : IsSmallInteger opcode) :
  opcode = 0 ∨ OP_PUSHDATA4 < opcode
  := by
  refine h.imp_right (fun hnumber => ?_)
  simp only [OP_1, OP_PUSHDATA4] at hnumber ⊢
  omega

theorem matchTemplate_multiSig_iff :
  matchTemplate [OP_SMALLINTEGER, OP_PUBKEYS, OP_SMALLINTEGER, OP_CHECKMULTISIG] script [] = some found
    ↔ ∃ opM opN keyOps, IsSmallInteger opM ∧ IsSmallInteger opN
      ∧ (∀ op ∈ keyOps, isPubKeySize op.2 = true)
      ∧ instructions script
        = ((opM, []) :: (keyOps ++ [(opN, []), (OP_CHECKMULTISIG, [])]), true)
      ∧ found = [smallInteger opM] :: (keyOps.map Prod.snd ++ [[smallInteger opN]])
  := by
  rw [matchTemplate_cons_iff (by decide)]
  constructor
  · rintro ⟨opM, vchM, pc, _, hop, hmatch, hrest⟩
    obtain ⟨hopM, rfl⟩ := matchOp_smallInteger_iff.mp hmatch
    obtain rfl := vch_eq_nil_of_getOp hop (IsSmallInteger.noData hopM)
    rw [matchTemplate] at hrest
    cases hop₁ : getOp pc with
    | none =>
      rw [hop₁] at hrest
      cases hrest
    | some op =>
      obtain ⟨opcode₁, vch₁, pc₁⟩ := op
      rw [hop₁] at hrest
      simp only [if_true] at hrest
      rcases htake : takePubKeys (pc₁.length + 1) (opcode₁, vch₁, pc₁)
        ([] ++ [[UInt8.ofNat (if opM = 0 then 0 else decodeOP_N opM)]]) with ⟨⟨opN, vchN, pc₂⟩, keys⟩
      rw [htake] at hrest
      dsimp only at hrest
      cases hmatchN : matchOp opN vchN OP_SMALLINTEGER with
      | none =>
        rw [hmatchN] at hrest
        cases hrest
      | some new =>
        rw [hmatchN] at hrest
        obtain ⟨hopN, rfl⟩ := matchOp_smallInteger_iff.mp hmatchN
        have hvalid : opN ≠ OP_INVALIDOPCODE := by
          rintro rfl
          rcases hopN with h | h
          · cases h
          · exact absurd h.2 (by decide)
        obtain ⟨keyOps, hkeys, hfound, hops, hok⟩ :=
          takePubKeys_sound (Nat.lt_succ_self _) htake hvalid
        obtain ⟨_, _, pc₃, _, hop₃, hmatch₃, hend⟩ :=
          (matchTemplate_cons_iff (by decide)).mp hrest
        obtain ⟨rfl, rfl, rfl⟩ := (matchOp_exact_iff (by decide)).mp hmatch₃
        obtain ⟨hnil, rfl⟩ := matchTemplate_nil_iff.mp hend
        have hpc : instructions pc
            = (keyOps ++ (opN, vchN) :: (instructions pc₂).1, (instructions pc₂).2) := by
          rw [instructions_cons hop₁, hops, hok]
        have hmem : (opN, vchN) ∈ (instructions pc).1 := by
          rw [hpc]
          exact List.mem_append_right _ List.mem_cons_self
        obtain rfl : vchN = [] := vch_eq_nil_of_mem hmem (IsSmallInteger.noData hopN)
        have hend : instructions pc₂ = ([(OP_CHECKMULTISIG, [])], true) :=
          instructions_eq_cons_iff.mpr ⟨pc₃, hop₃, hnil⟩
        refine ⟨opM, opN, keyOps, hopM, hopN, hkeys, ?_, ?_⟩
        · rw [instructions_cons hop, hpc, hend]
        · rw [hfound, List.nil_append, List.append_nil, List.append_assoc]
          rfl
  · rintro ⟨opM, opN, keyOps, hopM, hopN, hkeys, hops, rfl⟩
    obtain ⟨pc, hop, hpc⟩ := instructions_eq_cons_iff.mp hops
    refine ⟨opM, [], pc, _, hop, matchOp_smallInteger_iff.mpr ⟨hopM, rfl⟩, ?_⟩
    have hcons : ∃ op ops, keyOps ++ [(opN, []), (OP_CHECKMULTISIG, [])] = op :: ops := by
      cases keyOps with
      | nil => exact ⟨_, _, rfl⟩
      | cons op ops => exact ⟨_, _, rfl⟩
    obtain ⟨⟨opcode₁, vch₁⟩, ops, hread⟩ := hcons
    rw [hread] at hpc
    obtain ⟨pc₁, hop₁, hpc₁⟩ := instructions_eq_cons_iff.mp hpc
    have hrow : (opcode₁, vch₁) :: (instructions pc₁).1
        = keyOps ++ (opN, []) :: [(OP_CHECKMULTISIG, [])] := by
      rw [hread, hpc₁]
    obtain ⟨pc₂, htake, hpc₂⟩ := takePubKeys_complete hkeys rfl hrow (Nat.lt_succ_self _)
      ([] ++ [[UInt8.ofNat (if opM = 0 then 0 else decodeOP_N opM)]])
    rw [hpc₁] at hpc₂
    obtain ⟨pc₃, hop₃, hnil⟩ := instructions_eq_cons_iff.mp hpc₂
    rw [matchTemplate, hop₁]
    simp only [if_true]
    rw [htake]
    dsimp only
    rw [matchOp_smallInteger_iff.mpr ⟨hopN, rfl⟩]
    refine (matchTemplate_cons_iff (by decide)).mpr
      ⟨_, _, pc₃, _, hop₃, (matchOp_exact_iff (by decide)).mpr ⟨rfl, rfl, rfl⟩, ?_⟩
    refine matchTemplate_nil_iff.mpr ⟨hnil, ?_⟩
    rw [List.nil_append, List.append_nil, List.append_assoc]
    rfl

/-- The instructions of a multi-signature of `n` keys of which `m` sign. -/
def multiSigOps (m n : ℕ) (keyOps : List (ℕ × Bytes)) : List (ℕ × Bytes) :=
  (OP_1 - 1 + m, []) :: (keyOps ++ [(OP_1 - 1 + n, []), (OP_CHECKMULTISIG, [])])

/-! ## The types of scripts -/

/-- The scripts that are of a type for another reason than a template start in their own way. -/
theorem solver_eq_scan
    {ops : List (ℕ × Bytes)}
    (hops : instructions script = ((opcode, vch) :: ops, true)) (hreturn : opcode ≠ OP_RETURN)
    (hhash : opcode ≠ OP_HASH160) :
  solver script = scanTemplates script mTemplates
  := by
  obtain ⟨pc, hop, -⟩ := instructions_eq_cons_iff.mp hops
  have hhead := head?_of_getOp hop
  have hnotReturn : ¬(script.head? = some (UInt8.ofNat OP_RETURN) ∧ script.length ≤ 83) := by
    rintro ⟨h, -⟩
    rw [h] at hhead
    exact hreturn (Option.some.inj hhead).symm
  have hnotHash : ¬isPayToScriptHash script = true := by
    intro h
    obtain ⟨hash, -, hscript⟩ := eq_of_isPayToScriptHash h
    rw [hscript] at hhead
    exact hhash (Option.some.inj hhead).symm
  rw [solver, if_neg hnotReturn, if_neg hnotHash]

/-- The scan takes the first template that matches, and a multi-signature only with the right
numbers. -/
theorem scanTemplates_eq (script : CScript) :
  scanTemplates script mTemplates
    = match matchTemplate [OP_PUBKEY, OP_CHECKSIG] script [] with
      | some found => some (.TX_PUBKEY, found)
      | none =>
        match matchTemplate [OP_DUP, OP_HASH160, OP_PUBKEYHASH, OP_EQUALVERIFY, OP_CHECKSIG] script [] with
        | some found => some (.TX_PUBKEYHASH, found)
        | none =>
          match matchTemplate [OP_SMALLINTEGER, OP_PUBKEYS, OP_SMALLINTEGER, OP_CHECKMULTISIG] script []
            with
          | none => none
          | some found =>
            let m := ((found.head?.getD []).head?.getD 0).toNat
            let n := ((found.getLast?.getD []).head?.getD 0).toNat
            if m < 1 ∨ n < 1 ∨ m > n ∨ found.length - 2 ≠ n then none
            else some (.TX_MULTISIG, found)
  := by
  simp only [mTemplates, scanTemplates]
  cases matchTemplate [OP_PUBKEY, OP_CHECKSIG] script [] with
  | some found => rfl
  | none =>
    cases matchTemplate [OP_DUP, OP_HASH160, OP_PUBKEYHASH, OP_EQUALVERIFY, OP_CHECKSIG] script [] with
    | some found => rfl
    | none => rfl

/-- A script has a type of a template when the scan finds it. -/
theorem scan_of_solver
    {type : txnouttype} (h : solver script = some (type, found))
    (hnull : type ≠ .TX_NULL_DATA) (hhash : type ≠ .TX_SCRIPTHASH) :
  scanTemplates script mTemplates = some (type, found)
  := by
  rw [solver] at h
  split_ifs at h
  · cases h
    exact absurd rfl hnull
  · cases h
    exact absurd rfl hhash
  · exact h

theorem solver_pubKey_iff :
  solver script = some (.TX_PUBKEY, found)
    ↔ ∃ opcode key, isPubKeySize key = true
      ∧ instructions script = ([(opcode, key), (OP_CHECKSIG, [])], true) ∧ found = [key]
  := by
  rw [← matchTemplate_pubKey_iff]
  constructor
  · intro h
    have hscan := scan_of_solver h (by decide) (by decide)
    rw [scanTemplates_eq] at hscan
    cases hpub : matchTemplate [OP_PUBKEY, OP_CHECKSIG] script [] with
    | some found' =>
      rw [hpub] at hscan
      cases hscan
      rfl
    | none =>
      rw [hpub] at hscan
      dsimp only at hscan
      split at hscan
      · cases hscan
      · split at hscan
        · cases hscan
        · split_ifs at hscan
          cases hscan
  · intro h
    obtain ⟨opcode, key, hsize, hops, -⟩ := matchTemplate_pubKey_iff.mp h
    have hpush : opcode ≤ OP_PUSHDATA4 := by
      by_contra hlt
      obtain ⟨pc, hop, -⟩ := instructions_eq_cons_iff.mp hops
      obtain rfl := vch_eq_nil_of_getOp hop (.inr (Nat.lt_of_not_le hlt))
      cases hsize
    simp only [OP_PUSHDATA4] at hpush
    rw [solver_eq_scan hops (by simp only [OP_RETURN]; omega) (by simp only [OP_HASH160]; omega),
      scanTemplates_eq, h]

theorem solver_pubKeyHash_iff :
  solver script = some (.TX_PUBKEYHASH, found)
    ↔ ∃ opcode hash, hash.length = 20 ∧ instructions script = (pubKeyHashOps opcode hash, true)
      ∧ found = [hash]
  := by
  rw [← matchTemplate_pubKeyHash_iff]
  constructor
  · intro h
    have hscan := scan_of_solver h (by decide) (by decide)
    rw [scanTemplates_eq] at hscan
    dsimp only at hscan
    split at hscan
    · cases hscan
    · split at hscan
      · rename_i found' hmatch
        cases hscan
        exact hmatch
      · split at hscan
        · cases hscan
        · split_ifs at hscan
          cases hscan
  · intro h
    obtain ⟨opcode, hash, -, hops, -⟩ := matchTemplate_pubKeyHash_iff.mp h
    have hnone : matchTemplate [OP_PUBKEY, OP_CHECKSIG] script [] = none := by
      rw [Option.eq_none_iff_forall_ne_some]
      intro found' hmatch
      obtain ⟨opcode', key, -, hops', -⟩ := matchTemplate_pubKey_iff.mp hmatch
      rw [hops] at hops'
      cases hops'
    rw [solver_eq_scan hops (by decide) (by decide), scanTemplates_eq, hnone, h]

theorem solver_scriptHash_iff :
  solver script = some (.TX_SCRIPTHASH, found)
    ↔ ∃ hash : Bytes, hash.length = 20 ∧ script = [0xa9, 0x14] ++ (hash ++ [0x87]) ∧ found = [hash]
  := by
  have hform : ∀ hash : Bytes, hash.length = 20 →
      UInt8.ofNat OP_HASH160 :: (pushData hash ++ [UInt8.ofNat OP_EQUAL])
        = [0xa9, 0x14] ++ (hash ++ [0x87]) := by
    intro hash hlength
    rw [pushData, hlength, if_pos (by decide)]
    rfl
  constructor
  · intro h
    rw [solver] at h
    split_ifs at h with hreturn hhash
    · cases h
    · obtain ⟨hash, hlength, hscript⟩ := eq_of_isPayToScriptHash hhash
      rw [hform hash hlength] at hscript
      rw [Option.some_inj, Prod.mk.injEq, hscript] at h
      refine ⟨hash, hlength, hscript, ?_⟩
      rw [← h.2]
      exact congrArg (fun vch => [vch]) (List.take_left' hlength)
    · rw [scanTemplates_eq] at h
      dsimp only at h
      split at h
      · cases h
      · split at h
        · cases h
        · split at h
          · cases h
          · split_ifs at h
            cases h
  · rintro ⟨hash, hlength, rfl, rfl⟩
    have hhash : isPayToScriptHash ([0xa9, 0x14] ++ (hash ++ [0x87])) = true := by
      have hlast : (([0xa9, 0x14] ++ (hash ++ [0x87])).map UInt8.toNat)[22]? = some OP_EQUAL := by
        rw [List.getElem?_map, List.getElem?_append_right (by decide),
          List.getElem?_append_right (by rw [hlength]; decide), hlength]
        rfl
      have hsize : ([0xa9, 0x14] ++ (hash ++ [0x87])).length = 23 := by
        simp only [List.length_append, hlength, List.length_cons, List.length_nil]
      rw [isPayToScriptHash, hlast, hsize]
      rfl
    rw [solver, if_neg (by simp [OP_RETURN]), if_pos hhash]
    exact congrArg (fun vch => some (txnouttype.TX_SCRIPTHASH, [vch])) (List.take_left' hlength)

theorem smallInteger_toNat (h : IsSmallInteger opcode) :
  (smallInteger opcode).toNat = if opcode = 0 then 0 else decodeOP_N opcode
  := by
  rw [smallInteger, UInt8.toNat_ofNat', Nat.mod_eq_of_lt]
  split_ifs with hzero
  · decide
  · have hnumber := h.resolve_left hzero
    simp only [decodeOP_N, OP_1, OP_16] at hnumber ⊢
    omega

/-- A number from one to sixteen is that of one opcode. -/
theorem smallInteger_of_number {n : ℕ} (hpos : 1 ≤ n) (hle : n ≤ 16) :
  IsSmallInteger (OP_1 - 1 + n) ∧ smallInteger (OP_1 - 1 + n) = UInt8.ofNat n
  := by
  refine ⟨.inr ?_, ?_⟩
  · simp only [OP_1, OP_16]
    omega
  · have hne : ¬OP_1 - 1 + n = 0 := by
      simp only [OP_1]
      omega
    rw [smallInteger, if_neg hne, decodeOP_N, Nat.add_sub_cancel_left]

theorem number_of_smallInteger (h : IsSmallInteger opcode) (hpos : 1 ≤ (smallInteger opcode).toNat) :
  ∃ n, 1 ≤ n ∧ n ≤ 16 ∧ opcode = OP_1 - 1 + n ∧ (smallInteger opcode).toNat = n
  := by
  rw [smallInteger_toNat h] at hpos ⊢
  split_ifs at hpos ⊢ with hzero
  · cases hpos
  · have hnumber := h.resolve_left hzero
    simp only [decodeOP_N, OP_1, OP_16] at hnumber ⊢
    exact ⟨opcode - 0x50, by omega, by omega, by omega, by omega⟩

theorem solver_multiSig_iff :
  solver script = some (.TX_MULTISIG, found)
    ↔ ∃ m n keyOps, 1 ≤ m ∧ m ≤ n ∧ n ≤ 16 ∧ keyOps.length = n
      ∧ (∀ op ∈ keyOps, isPubKeySize op.2 = true)
      ∧ instructions script = (multiSigOps m n keyOps, true)
      ∧ found = [UInt8.ofNat m] :: (keyOps.map Prod.snd ++ [[UInt8.ofNat n]])
  := by
  have hhead : ∀ (a b : Bytes) (keys : List Bytes), (a :: (keys ++ [b])).head?.getD [] = a := fun _ _ _ => rfl
  have hlast : ∀ (a b : Bytes) (keys : List Bytes), (a :: (keys ++ [b])).getLast?.getD [] = b := by
    intro a b keys
    rw [← List.cons_append, List.getLast?_concat]
    rfl
  have hcount : ∀ (a b : Bytes) (keys : List Bytes), (a :: (keys ++ [b])).length - 2 = keys.length := by
    intro a b keys
    simp only [List.length_cons, List.length_append, List.length_nil]
    omega
  constructor
  · intro h
    have hscan := scan_of_solver h (by decide) (by decide)
    rw [scanTemplates_eq] at hscan
    dsimp only at hscan
    split at hscan
    · cases hscan
    · split at hscan
      · cases hscan
      · split at hscan
        · cases hscan
        · rename_i found' hmatch
          split_ifs at hscan with hnumbers
          obtain rfl : found' = found := congrArg Prod.snd (Option.some.inj hscan)
          obtain ⟨opM, opN, keyOps, hopM, hopN, hkeys, hops, rfl⟩ :=
            matchTemplate_multiSig_iff.mp hmatch
          rw [hhead, hlast, hcount, List.length_map] at hnumbers
          simp only [List.head?_cons, Option.getD_some, not_or, not_lt, not_not] at hnumbers
          obtain ⟨hm, hn, hle, hlength⟩ := hnumbers
          obtain ⟨m, hm₁, -, rfl, hm₂⟩ := number_of_smallInteger hopM hm
          obtain ⟨n, hn₁, hn₂, rfl, hn₃⟩ := number_of_smallInteger hopN hn
          rw [hm₂, hn₃] at hle
          rw [hn₃] at hlength
          refine ⟨m, n, keyOps, hm₁, hle, hn₂, hlength, hkeys, hops, ?_⟩
          rw [(smallInteger_of_number hm₁ (hle.trans hn₂)).2, (smallInteger_of_number hn₁ hn₂).2]
  · rintro ⟨m, n, keyOps, hm, hle, hn, hlength, hkeys, hops, rfl⟩
    obtain ⟨hopM, hnumM⟩ := smallInteger_of_number hm (hle.trans hn)
    obtain ⟨hopN, hnumN⟩ := smallInteger_of_number (hm.trans hle) hn
    have hmatch := matchTemplate_multiSig_iff.mpr ⟨_, _, keyOps, hopM, hopN, hkeys, hops, rfl⟩
    have hpub : matchTemplate [OP_PUBKEY, OP_CHECKSIG] script [] = none := by
      rw [Option.eq_none_iff_forall_ne_some]
      intro found' hmatch'
      obtain ⟨opcode, key, hsize, hops', -⟩ := matchTemplate_pubKey_iff.mp hmatch'
      rw [hops, multiSigOps, Prod.mk.injEq, List.cons.injEq, Prod.mk.injEq] at hops'
      rw [← hops'.1.1.2] at hsize
      cases hsize
    have hhash : matchTemplate [OP_DUP, OP_HASH160, OP_PUBKEYHASH, OP_EQUALVERIFY, OP_CHECKSIG]
        script [] = none := by
      rw [Option.eq_none_iff_forall_ne_some]
      intro found' hmatch'
      obtain ⟨opcode, hash, -, hops', -⟩ := matchTemplate_pubKeyHash_iff.mp hmatch'
      rw [hops, multiSigOps, pubKeyHashOps, Prod.mk.injEq, List.cons.injEq, Prod.mk.injEq] at hops'
      have hopcode := hops'.1.1.1
      simp only [OP_1, OP_DUP] at hopcode
      omega
    rw [solver_eq_scan hops (by simp only [OP_1, OP_RETURN]; omega)
      (by simp only [OP_1, OP_HASH160]; omega), scanTemplates_eq, hpub, hhash, hmatch]
    dsimp only
    rw [hhead, hlast, hcount, List.length_map, hlength, hnumM, hnumN]
    have htoNat : ∀ k : ℕ, k ≤ 16 → (UInt8.ofNat k).toNat = k := by
      intro k hk
      rw [UInt8.toNat_ofNat', Nat.mod_eq_of_lt (by omega)]
    simp only [List.head?_cons, Option.getD_some, htoNat m (hle.trans hn), htoNat n hn]
    rw [if_neg (by omega)]

end CorgiCoin
