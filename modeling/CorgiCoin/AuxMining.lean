import CorgiCoin.KeyPool
import CorgiCoin.Mining

/-!
# Merged mining and its keys

`createauxblock`, `getauxblock` and `submitauxblock` share the blocks that wait for a proof, but
each has a reservation of its own: the first for the block template, `getauxblock` for the key that
its blocks pay, and `submitauxblock` one that never holds a key.  `CheckWork` keeps the key of the
reservation it is given, whatever block it is given.
-/

namespace CorgiCoin

open Std Transition TreeMap CWallet

/-- `vtx[0].vout[0].scriptPubKey = scriptPubKey` -/
def CBlock.setScriptPubKey (block : CBlock) (scriptPubKey : CScript) : CBlock :=
  match block.vtx with
  | [] => block
  | coinbase :: vtx =>
    match coinbase.vout with
    | [] => block
    | txout :: vout =>
      { block with vtx := { coinbase with vout := { txout with scriptPubKey } :: vout } :: vtx }

/-- `vtx[0].vout[0].scriptPubKey` -/
def CBlock.scriptPubKey (block : CBlock) : Option CScript :=
  (block.vtx.head?.bind (·.vout.head?)).map (·.scriptPubKey)

/-- The state behind the calls, with the scripts that accepted blocks pay and the keys that
`getauxblock` has reserved, for specifications only. -/
structure AuxMining where
  pool : Reserving
  mapAuxBlocks : ExtTreeMap uint256 CBlock
  pindexPrevAux : Option CBlockIndex
  pindexBest : CBlockIndex
  nonce : ExtraNonce
  paid : List CScript
  reservedKeys : List CPubKey

/-- What `AuxMiningCreateBlock` finds: whether the node is connected and past its initial download,
whether `-mineraddress` is set, the transactions of the new block and the adjusted time, and what
`TopUpKeyPool` finds. -/
structure AuxTemplate where
  fReady : Bool
  fMinerAddress : Bool
  vtx : List CTransaction
  nAdjustedTime : ℤ
  nKeys : ℕ
  rands : ℕ → ValidKey

/-- A submitted proof, `none` where it cannot be read, with what `ProcessBlock` returns and the tip
after it. -/
structure AuxProof where
  hash : uint256
  auxpow : Option CAuxPow
  fProcessed : Bool
  pindexBest : CBlockIndex

namespace AuxMining

/-- The reservation of `AuxMiningCreateBlock`. -/
def CREATE : ℕ := 0
/-- The reservation of `submitauxblock`. -/
def SUBMIT : ℕ := 1
/-- The reservation of `getauxblock`. -/
def GET : ℕ := 2

variable (env : Env) (library : WalletLibrary) (s : AuxMining)

/-- `SetDestination` of the id of a key. -/
def payTo (vchPubKey : CPubKey) : CScript := scriptForKeyID (library.hash160 vchPubKey)

/-! ## Creating a block -/

/-- Pending blocks are dropped when the tip has moved. -/
def flush : AuxMining :=
  if s.pindexPrevAux ≠ some s.pindexBest then
    { s with mapAuxBlocks := ∅, pindexPrevAux := some s.pindexBest }
  else s

/-- The pool after `CreateNewBlock`, which needs a key unless `-mineraddress` is set. -/
def templatePool (template : AuxTemplate) : Reserving :=
  if template.fMinerAddress then s.pool
  else s.pool.step library (.getReservedKey CREATE template.nKeys template.rands)

/-- `CreateNewBlock` gets its key. -/
def templateKey (template : AuxTemplate) : Bool :=
  template.fMinerAddress || (s.pool.wallet.getReservedKey library (s.pool.reserved CREATE)
    template.nKeys (fun i => template.rands i)).2.2.isSome

/-- A template is made a block for merged mining that pays a script. -/
def auxBlock (block : CBlock) (scriptPubKey : CScript) : CBlock × ExtraNonce :=
  let (block, nonce) := incrementExtraNonce env.crypto block s.nonce
  let block := block.setScriptPubKey scriptPubKey
  let block := { block with nVersion := makeVersion CBlock.CURRENT_VERSION AUXPOW_CHAIN_ID true }
  ({ block with hashMerkleRoot := block.buildMerkleTree env.crypto }, nonce)

def auxMiningCreateBlock (scriptPubKey : CScript) (template : AuxTemplate) : AuxMining :=
  if !template.fReady || s.pindexBest.nHeight + 1 < getAuxPowForkHeight env.network then s
  else
    let s := s.flush
    let fKey := s.templateKey library template
    let s := { s with pool := s.templatePool library template }
    if !fKey then s
    else
      match fillHeader env s.pindexBest template.nAdjustedTime template.vtx with
      | none => s
      | some block =>
        let (block, nonce) := s.auxBlock env block scriptPubKey
        { s with mapAuxBlocks := s.mapAuxBlocks.insert (block.getHash env) block, nonce := nonce }

/-- `getauxblock` without arguments. -/
def getauxblock (template : AuxTemplate) : AuxMining :=
  let reservekey := s.pool.reserved GET
  let (_, reservekey', key) := s.pool.wallet.getReservedKey library reservekey template.nKeys
    (fun i => template.rands i)
  let s :=
    { s with
      pool := s.pool.step library (.getReservedKey GET template.nKeys template.rands)
      reservedKeys :=
        if reservekey.nIndex.isNone && reservekey'.nIndex.isSome && key.isSome then
          reservekey'.vchPubKey :: s.reservedKeys
        else s.reservedKeys }
  match key with
  | none => s
  | some vchPubKey => s.auxMiningCreateBlock env library (payTo library vchPubKey) template

/-! ## Submitting a proof -/

/-- The proof of work of `CheckWork`. -/
def meetsTarget (block : CBlock) : Bool :=
  let hash :=
    match block.auxpow with
    | some auxpow =>
      if block.isAuxPow then auxpow.parentBlock.getPoWHash env.crypto
      else block.toCPureBlockHeader.getPoWHash env.crypto
    | none => block.toCPureBlockHeader.getPoWHash env.crypto
  !(hash > getuint256 (setCompact block.nBits))

/-- The block of a submission for which `CheckWork` gets to `KeepKey`. -/
def checkedBlock (proof : AuxProof) : Option CBlock :=
  match s.mapAuxBlocks[proof.hash]?, proof.auxpow with
  | some block, some auxpow =>
    if !meetsTarget env { block with auxpow := some auxpow } then none
    else if block.hashPrevBlock ≠ s.pindexBest.getBlockHash then none
    else some block
  | _, _ => none

/-- `AuxMiningSubmitBlock` with one of the reservations. -/
def auxMiningSubmitBlock (i : ℕ) (proof : AuxProof) : AuxMining :=
  match s.checkedBlock env proof with
  | none => s
  | some block =>
    let s := { s with pool := s.pool.step library (.keepKey i), pindexBest := proof.pindexBest }
    if proof.fProcessed then
      { s with
        mapAuxBlocks := s.mapAuxBlocks.erase proof.hash
        paid := block.scriptPubKey.toList ++ s.paid }
    else s

/-! ## Runs -/

/-- The calls, a change of the tip, and other uses of the key pool. -/
inductive Call
  | createauxblock (scriptPubKey : CScript) (template : AuxTemplate)
  | getauxblock (template : AuxTemplate)
  | submitauxblock (proof : AuxProof)
  | getauxblockSubmit (proof : AuxProof)
  | tip (pindexBest : CBlockIndex)
  | pool (call : PoolCall)

def step : Call → AuxMining
  | .createauxblock scriptPubKey template => s.auxMiningCreateBlock env library scriptPubKey template
  | .getauxblock template => s.getauxblock env library template
  | .submitauxblock proof => s.auxMiningSubmitBlock env library SUBMIT proof
  | .getauxblockSubmit proof => s.auxMiningSubmitBlock env library GET proof
  | .tip pindexBest => { s with pindexBest := pindexBest }
  | .pool call => { s with pool := s.pool.step library call }

/-- The other uses of the pool have reservations of their own. -/
def Elsewhere : PoolCall → Prop
  | .getReservedKey i _ _ | .keepKey i | .returnKey i => GET < i
  | _ => True

/-- The condition on a proof submitted with one of the reservations: if it holds a key, the block
pays this key and is accepted; if it holds none, an accepted block pays no key that the wallet has
generated and not given away. -/
def ProperProof (i : ℕ) (proof : AuxProof) : Prop :=
  ∀ block, s.checkedBlock env proof = some block →
    match (s.pool.reserved i).nIndex with
    | some _ =>
      proof.fProcessed = true ∧ block.scriptPubKey = some (payTo library (s.pool.reserved i).vchPubKey)
    | none =>
      proof.fProcessed = true → ∀ vchPubKey ∈ generatedKeys library s.pool.wallet,
        vchPubKey ∉ s.pool.kept → block.scriptPubKey ≠ some (payTo library vchPubKey)

/-- A template takes no index that is reserved. -/
def ClearTemplate (pool : Reserving) (template : AuxTemplate) : Prop :=
  template.fMinerAddress = false →
    pool.Clear (.getReservedKey CREATE template.nKeys template.rands)

/-- The condition on a call. -/
def Proper (s : AuxMining) : Call → Prop
  | .createauxblock _ template => ClearTemplate s.pool template
  | .getauxblock template =>
    s.pool.Clear (.getReservedKey GET template.nKeys template.rands)
      ∧ ClearTemplate (s.pool.step library (.getReservedKey GET template.nKeys template.rands)) template
  | .submitauxblock proof => s.ProperProof env library SUBMIT proof
  | .getauxblockSubmit proof => s.ProperProof env library GET proof
  | .tip _ => True
  | .pool call => Elsewhere call ∧ s.pool.Clear call

/-- The keys that a call generates are new: no two keys have the same id, and no block has paid a key
before it was generated. -/
def NewKeys (s s' : AuxMining) : Prop :=
  ((generatedKeys library s'.pool.wallet).map library.hash160).Nodup
    ∧ ∀ vchPubKey ∈ generatedKeys library s'.pool.wallet,
      vchPubKey ∉ generatedKeys library s.pool.wallet → payTo library vchPubKey ∉ s.paid

/-! ## What calls on the pool leave alone -/

theorem payTo_injective {vchPubKey vchPubKey' : CPubKey}
    (h : payTo library vchPubKey = payTo library vchPubKey') :
  library.hash160 vchPubKey = library.hash160 vchPubKey'
  := by
  have hlength : ∀ id : uint160, (serializeUint160 id).length = 20 :=
    fun id => Codec.length_toLE 20 id.toNat
  have hpush : ∀ id : uint160, pushData (serializeUint160 id) = 20 :: serializeUint160 id := by
    intro id
    rw [pushData, hlength]
    rfl
  rw [payTo, payTo, scriptForKeyID, scriptForKeyID, hpush, hpush] at h
  have hbytes := List.append_cancel_left (List.append_cancel_right h)
  rw [List.cons.injEq] at hbytes
  have hvalue := congrArg Codec.ofLE hbytes.2
  rw [serializeUint160, serializeUint160, Codec.ofLE_toLE_of_lt (BitVec.isLt _),
    Codec.ofLE_toLE_of_lt (BitVec.isLt _)] at hvalue
  exact BitVec.eq_of_toNat_eq hvalue

/-- Two keys of a wallet that are paid by the same script are the same. -/
theorem eq_of_payTo {keys : List CPubKey} (hnodup : (keys.map library.hash160).Nodup)
    {vchPubKey vchPubKey' : CPubKey} (hmem : vchPubKey ∈ keys) (hmem' : vchPubKey' ∈ keys)
    (h : payTo library vchPubKey = payTo library vchPubKey') :
  vchPubKey = vchPubKey'
  := List.inj_on_of_nodup_map hnodup hmem hmem' (payTo_injective library h)

variable {library}

theorem kept_subset_step (pool : Reserving) (call : PoolCall) :
  pool.kept ⊆ (pool.step library call).kept
  := by
  cases call with
  | keepKey i =>
    change pool.kept ⊆ (match (pool.reserved i).nIndex with
      | some _ => (pool.reserved i).vchPubKey :: pool.kept
      | none => pool.kept)
    split
    · exact List.subset_cons_self _ _
    · exact List.Subset.refl _
  | getKeyFromPool fAllowReuse nKeys rands rand =>
    rw [Reserving.step]
    split
    · exact List.subset_cons_self _ _
    · exact List.Subset.refl _
  | _ => exact List.Subset.refl _

/-- A call is not on one of the reservations. -/
def Untouched (j : ℕ) : PoolCall → Prop
  | .getReservedKey i _ _ | .keepKey i | .returnKey i => j ≠ i
  | _ => True

variable {call : PoolCall}

/-- A call with one reservation leaves the others alone. -/
theorem reserved_step_of_untouched
    (pool : Reserving) {j : ℕ} (h : Untouched j call) :
  (pool.step library call).reserved j = pool.reserved j
  := by
  cases call with
  | getReservedKey i nKeys rands => exact Function.update_of_ne h _ _
  | keepKey i => exact Function.update_of_ne h _ _
  | returnKey i => exact Function.update_of_ne h _ _
  | getKeyFromPool fAllowReuse nKeys rands rand =>
    rw [Reserving.step]
    split
    · rfl
    · rfl
  | _ => rfl

/-! ## The invariant -/

/-- The keys of `getauxblock` are kept when a block has paid them, and all but the one it holds are
kept; no other key of the wallet was paid before it was given away. -/
structure Accounted (library : WalletLibrary) (s : AuxMining) : Prop where
  sound : s.pool.Sound library
  submit : (s.pool.reserved SUBMIT).nIndex = none
  unpaid : ∀ vchPubKey ∈ generatedKeys library s.pool.wallet, vchPubKey ∉ s.pool.kept →
    payTo library vchPubKey ∉ s.paid
  kept_paid : ∀ vchPubKey ∈ s.reservedKeys, vchPubKey ∈ s.pool.kept → payTo library vchPubKey ∈ s.paid
  current : ∀ vchPubKey ∈ s.reservedKeys, vchPubKey ∈ s.pool.kept
    ∨ ∃ nIndex, s.pool.reserved GET = ⟨some nIndex, vchPubKey⟩

variable {env : Env} {s : AuxMining}

/-- A key that is reserved was generated by the wallet and was not kept. -/
theorem generated_of_reserved
    {pool : Reserving} (h : pool.Sound library) {i nIndex : ℕ}
    (hi : (pool.reserved i).nIndex = some nIndex) :
  (pool.reserved i).vchPubKey ∈ generatedKeys library pool.wallet
    ∧ (pool.reserved i).vchPubKey ∉ pool.kept
  := by
  obtain ⟨vchPubKey, hpool, hkey, hnot, _⟩ := h.record nIndex (.inr ⟨i, hi⟩)
  rw [(h.held i nIndex hi).2, Option.some.injEq] at hpool
  rw [hpool]
  exact ⟨hkey.mem_generatedKeys, hnot⟩

/-- The pool changes, but not the reservations of `getauxblock` and `submitauxblock`. -/
theorem Accounted.of_pool
    (h : Accounted library s) {pool : Reserving} (hsound : pool.Sound library)
    (hkept : s.pool.kept ⊆ pool.kept) (hsubmit : (pool.reserved SUBMIT).nIndex = none)
    (hget : pool.reserved GET = s.pool.reserved GET)
    (hnew : ∀ vchPubKey ∈ generatedKeys library pool.wallet,
      vchPubKey ∉ generatedKeys library s.pool.wallet → payTo library vchPubKey ∉ s.paid) :
  Accounted library { s with pool := pool }
  := by
  refine ⟨hsound, hsubmit, ?_, ?_, ?_⟩
  · intro vchPubKey hmem hnot
    by_cases hold : vchPubKey ∈ generatedKeys library s.pool.wallet
    · exact h.unpaid vchPubKey hold (fun hmem => hnot (hkept hmem))
    · exact hnew vchPubKey hmem hold
  · intro vchPubKey hreserved hmem
    rcases h.current vchPubKey hreserved with hold | ⟨nIndex, hindex⟩
    · exact h.kept_paid vchPubKey hreserved hold
    · have hindex' : pool.reserved GET = ⟨some nIndex, vchPubKey⟩ := hget.trans hindex
      have hnot := (@generated_of_reserved library pool hsound GET nIndex (by rw [hindex'])).2
      rw [hindex'] at hnot
      exact absurd hmem hnot
  · intro vchPubKey hreserved
    rcases h.current vchPubKey hreserved with hold | ⟨nIndex, hindex⟩
    · exact .inl (hkept hold)
    · exact .inr ⟨nIndex, hget.trans hindex⟩

theorem nodup_generatedKeys {keys : List CPubKey} (h : (keys.map library.hash160).Nodup) :
  keys.Nodup
  := h.of_map _

/-- A use of the pool with another reservation. -/
theorem Accounted.poolCall
    (hlibrary : library.Lawful) (h : Accounted library s)
    (hsubmit : Untouched SUBMIT call) (hget : Untouched GET call) (hclear : s.pool.Clear call)
    (hnew : NewKeys library s { s with pool := s.pool.step library call }) :
  Accounted library { s with pool := s.pool.step library call }
  := by
  apply h.of_pool _ (kept_subset_step s.pool call) _ (reserved_step_of_untouched s.pool hget) hnew.2
  · exact h.sound.step hlibrary hclear (nodup_generatedKeys hnew.1)
  · rw [reserved_step_of_untouched s.pool hsubmit]
    exact h.submit

variable {template : AuxTemplate}

/-- `getauxblock` gets its key. -/
theorem Accounted.getKey
    (hlibrary : library.Lawful) (h : Accounted library s)
    {reservekey : CReserveKey} {key : Option CPubKey} {w : CWallet}
    (hresult : s.pool.wallet.getReservedKey library (s.pool.reserved GET) template.nKeys
      (fun i => template.rands i) = (w, reservekey, key))
    (hclear : s.pool.Clear (.getReservedKey GET template.nKeys template.rands))
    (hnew : NewKeys library s { s with
      pool := (s.pool.step library (.getReservedKey GET template.nKeys template.rands)) }) :
  Accounted library { s with
    pool := (s.pool.step library (.getReservedKey GET template.nKeys template.rands))
    reservedKeys :=
      if (s.pool.reserved GET).nIndex.isNone && reservekey.nIndex.isSome && key.isSome then
        reservekey.vchPubKey :: s.reservedKeys
      else s.reservedKeys }
  := by
  have hsound := h.sound.step hlibrary hclear (nodup_generatedKeys hnew.1)
  have hsubmit : Untouched SUBMIT (.getReservedKey GET template.nKeys template.rands) :=
    show SUBMIT ≠ GET from by decide
  have hpool : s.pool.step library (.getReservedKey GET template.nKeys template.rands)
      = ⟨w, Function.update s.pool.reserved GET reservekey, s.pool.kept⟩ := by
    rw [Reserving.step, hresult]
    rfl
  have hget : (s.pool.step library (.getReservedKey GET template.nKeys template.rands)).reserved GET
      = reservekey := by
    rw [hpool]
    change Function.update s.pool.reserved GET reservekey GET = reservekey
    rw [Function.update_self]
  cases hnIndex : (s.pool.reserved GET).nIndex with
  | some nIndex =>
    have hsame : reservekey = s.pool.reserved GET := by
      rw [getReservedKey, hnIndex] at hresult
      cases hresult
      rfl
    apply h.of_pool hsound (kept_subset_step s.pool _) _ (hget.trans hsame) hnew.2
    rw [reserved_step_of_untouched s.pool hsubmit]
    exact h.submit
  | none =>
    have hkept : ∀ vchPubKey ∈ s.reservedKeys, vchPubKey ∈ s.pool.kept := by
      intro vchPubKey hmem
      rcases h.current vchPubKey hmem with hold | ⟨nIndex, hindex⟩
      · exact hold
      · rw [hindex] at hnIndex
        cases hnIndex
    have hcases : ∀ vchPubKey ∈ (if (none : Option ℕ).isNone && reservekey.nIndex.isSome && key.isSome
        then reservekey.vchPubKey :: s.reservedKeys else s.reservedKeys),
        vchPubKey ∈ s.reservedKeys ∨ ∃ nIndex, reservekey = ⟨some nIndex, vchPubKey⟩ := by
      intro vchPubKey hmem
      split_ifs at hmem with hnewKey
      · rcases List.mem_cons.mp hmem with rfl | hmem
        · right
          simp only [Bool.and_eq_true] at hnewKey
          obtain ⟨nIndex, hindex⟩ := Option.isSome_iff_exists.mp hnewKey.1.2
          exact ⟨nIndex, by rw [← hindex]⟩
        · exact .inl hmem
      · exact .inl hmem
    refine ⟨hsound, ?_, ?_, ?_, ?_⟩
    · rw [reserved_step_of_untouched s.pool hsubmit]
      exact h.submit
    · intro vchPubKey hmem hnot
      by_cases hold : vchPubKey ∈ generatedKeys library s.pool.wallet
      · exact h.unpaid vchPubKey hold (fun hmem => hnot (kept_subset_step s.pool _ hmem))
      · exact hnew.2 vchPubKey hmem hold
    · intro vchPubKey hmem hin
      rcases hcases vchPubKey hmem with hold | ⟨nIndex, hindex⟩
      · exact h.kept_paid vchPubKey hold (hkept vchPubKey hold)
      · have hnot := (@generated_of_reserved library _ hsound GET nIndex (by rw [hget, hindex])).2
        rw [hget, hindex] at hnot
        exact absurd hin hnot
    · intro vchPubKey hmem
      rcases hcases vchPubKey hmem with hold | ⟨nIndex, hindex⟩
      · exact .inl (kept_subset_step s.pool _ (hkept vchPubKey hold))
      · exact .inr ⟨nIndex, hget.trans hindex⟩

/-! ## The calls -/

theorem Accounted.flush (h : Accounted library s) :
  Accounted library s.flush
  := by
  rw [AuxMining.flush]
  split_ifs
  · exact ⟨h.sound, h.submit, h.unpaid, h.kept_paid, h.current⟩
  · exact h

theorem pool_flush (s : AuxMining) :
  s.flush.pool = s.pool ∧ s.flush.paid = s.paid
  := by
  rw [AuxMining.flush]
  split_ifs
  · exact ⟨rfl, rfl⟩
  · exact ⟨rfl, rfl⟩

theorem Accounted.templatePool
    (hlibrary : library.Lawful) (h : Accounted library s) (hclear : ClearTemplate s.pool template)
    (hnew : NewKeys library s { s with pool := s.templatePool library template }) :
  Accounted library { s with pool := s.templatePool library template }
  := by
  rw [AuxMining.templatePool] at hnew ⊢
  split_ifs at hnew ⊢ with hminer
  · exact h
  · apply h.poolCall hlibrary _ _ (hclear (Bool.eq_false_iff.mpr hminer)) hnew
    · show SUBMIT ≠ CREATE
      decide
    · show GET ≠ CREATE
      decide

theorem Accounted.auxMiningCreateBlock
    (hlibrary : library.Lawful) (h : Accounted library s) {scriptPubKey : CScript}
    (hclear : ClearTemplate s.pool template)
    (hnew : NewKeys library s (s.auxMiningCreateBlock env library scriptPubKey template)) :
  Accounted library (s.auxMiningCreateBlock env library scriptPubKey template)
  := by
  obtain ⟨hpool, hpaid⟩ := pool_flush s
  have hflush : NewKeys library s { s.flush with pool := s.flush.templatePool library template } →
      Accounted library { s.flush with pool := s.flush.templatePool library template } := by
    intro hnew
    rw [NewKeys, ← hpool, ← hpaid] at hnew
    exact h.flush.templatePool hlibrary (by rw [hpool]; exact hclear) hnew
  rw [AuxMining.auxMiningCreateBlock] at hnew ⊢
  split_ifs at hnew ⊢
  · exact h
  · simp only at hnew ⊢
    split_ifs at hnew ⊢
    · exact hflush hnew
    · cases hfill : fillHeader env s.flush.pindexBest template.nAdjustedTime template.vtx with
      | none =>
        simp only [hfill] at hnew ⊢
        exact hflush hnew
      | some block =>
        simp only [hfill] at hnew ⊢
        have hcreated := hflush hnew
        exact ⟨hcreated.sound, hcreated.submit, hcreated.unpaid, hcreated.kept_paid, hcreated.current⟩

theorem generatedKeys_keepKey (pool : Reserving) (i : ℕ) :
  generatedKeys library (pool.step library (.keepKey i)).wallet = generatedKeys library pool.wallet
  := by
  change generatedKeys library (pool.wallet.keepReserved (pool.reserved i)).1 = _
  rw [keepReserved]
  split
  · rfl
  · rfl

variable {i : ℕ}

/-- A key is kept for a block that pays it and was accepted. -/
theorem Accounted.keepKey
    (hlibrary : library.Lawful) (h : Accounted library s) {nIndex : ℕ}
    (hi : (s.pool.reserved i).nIndex = some nIndex) (hget : i = GET)
    (hnodup : ((generatedKeys library s.pool.wallet).map library.hash160).Nodup) :
  Accounted library { s with
    pool := (s.pool.step library (.keepKey i))
    paid := payTo library (s.pool.reserved i).vchPubKey :: s.paid }
  := by
  have hwallet := @generatedKeys_keepKey library s.pool i
  obtain ⟨hgenerated, hnot⟩ := generated_of_reserved h.sound hi
  have hkept : (s.pool.step library (.keepKey i)).kept = (s.pool.reserved i).vchPubKey :: s.pool.kept := by
    change (match (s.pool.reserved i).nIndex with
      | some _ => (s.pool.reserved i).vchPubKey :: s.pool.kept
      | none => s.pool.kept) = _
    rw [hi]
  refine ⟨?_, ?_, ?_, ?_, ?_⟩
  · apply h.sound.step hlibrary (show s.pool.Clear (.keepKey i) from trivial)
    rw [hwallet]
    exact nodup_generatedKeys hnodup
  · have hother : Untouched SUBMIT (.keepKey i) := by
      change SUBMIT ≠ i
      rw [hget]
      decide
    rw [reserved_step_of_untouched s.pool hother]
    exact h.submit
  · intro vchPubKey hmem hnew
    rw [hwallet] at hmem
    rw [hkept, List.mem_cons, not_or] at hnew
    rw [List.mem_cons, not_or]
    refine ⟨?_, h.unpaid vchPubKey hmem hnew.2⟩
    intro heq
    exact hnew.1 (eq_of_payTo library hnodup hmem hgenerated heq)
  · intro vchPubKey hmem hin
    rw [hkept] at hin
    rcases List.mem_cons.mp hin with rfl | hin
    · exact List.mem_cons_self
    · exact List.mem_cons_of_mem _ (h.kept_paid vchPubKey hmem hin)
  · intro vchPubKey hmem
    left
    rw [hkept]
    rcases h.current vchPubKey hmem with hold | ⟨n, hindex⟩
    · exact List.mem_cons_of_mem _ hold
    · rw [hget, hindex]
      exact List.mem_cons_self

/-- A reservation without a key keeps nothing. -/
theorem Accounted.keepNothing
    (h : Accounted library s) (hi : (s.pool.reserved i).nIndex = none) (paid : List CScript)
    (hpaid : ∀ vchPubKey ∈ generatedKeys library s.pool.wallet, vchPubKey ∉ s.pool.kept →
      payTo library vchPubKey ∉ paid) :
  Accounted library { s with pool := (s.pool.step library (.keepKey i)), paid := paid ++ s.paid }
  := by
  have hpool : s.pool.step library (.keepKey i)
      = ⟨s.pool.wallet, Function.update s.pool.reserved i ⟨none, []⟩, s.pool.kept⟩ := by
    rw [Reserving.step, keepReserved, hi]
    rfl
  rw [hpool]
  refine ⟨h.sound.replace i [], ?_, ?_, ?_, ?_⟩
  · change (Function.update s.pool.reserved i ⟨none, []⟩ SUBMIT).nIndex = none
    rcases eq_or_ne SUBMIT i with rfl | hne
    · rw [Function.update_self]
    · rw [Function.update_of_ne hne]
      exact h.submit
  · intro vchPubKey hmem hnot
    rw [List.mem_append, not_or]
    exact ⟨hpaid vchPubKey hmem hnot, h.unpaid vchPubKey hmem hnot⟩
  · intro vchPubKey hmem hin
    exact List.mem_append_right _ (h.kept_paid vchPubKey hmem hin)
  · intro vchPubKey hmem
    rcases h.current vchPubKey hmem with hold | ⟨nIndex, hindex⟩
    · exact .inl hold
    · right
      have hne : GET ≠ i := by
        rintro rfl
        rw [hindex] at hi
        cases hi
      refine ⟨nIndex, ?_⟩
      change Function.update s.pool.reserved i ⟨none, []⟩ GET = _
      rw [Function.update_of_ne hne, hindex]

theorem Accounted.auxMiningSubmitBlock
    (hlibrary : library.Lawful) (h : Accounted library s) (hi : i = SUBMIT ∨ i = GET)
    {proof : AuxProof} (hproper : s.ProperProof env library i proof)
    (hnew : NewKeys library s (s.auxMiningSubmitBlock env library i proof)) :
  Accounted library (s.auxMiningSubmitBlock env library i proof)
  := by
  have hwallet := @generatedKeys_keepKey library s.pool i
  rw [AuxMining.auxMiningSubmitBlock] at hnew ⊢
  cases hchecked : s.checkedBlock env proof with
  | none => exact h
  | some block =>
    have hproof := hproper block hchecked
    simp only [hchecked] at hnew ⊢
    cases hnIndex : (s.pool.reserved i).nIndex with
    | none =>
      simp only [hnIndex] at hproof
      split_ifs at hnew ⊢ with hprocessed
      · have hkept := h.keepNothing hnIndex block.scriptPubKey.toList (by
          intro vchPubKey hmem hnot hin
          exact hproof hprocessed vchPubKey hmem hnot (Option.mem_toList.mp hin))
        exact ⟨hkept.sound, hkept.submit, hkept.unpaid, hkept.kept_paid, hkept.current⟩
      · have hkept := h.keepNothing hnIndex [] (fun _ _ _ hin => nomatch hin)
        exact ⟨hkept.sound, hkept.submit, hkept.unpaid, hkept.kept_paid, hkept.current⟩
    | some nIndex =>
      simp only [hnIndex] at hproof
      obtain ⟨hprocessed, hpays⟩ := hproof
      have hget : i = GET := by
        rcases hi with rfl | rfl
        · rw [h.submit] at hnIndex
          cases hnIndex
        · rfl
      simp only [hprocessed, if_true, hpays, Option.toList_some, List.singleton_append] at hnew ⊢
      have hnodup := hnew.1
      rw [hwallet] at hnodup
      have hkept := h.keepKey hlibrary hnIndex hget hnodup
      exact ⟨hkept.sound, hkept.submit, hkept.unpaid, hkept.kept_paid, hkept.current⟩

theorem generatedKeys_step (pool : Reserving) (call : PoolCall) :
  generatedKeys library pool.wallet <+: generatedKeys library (pool.step library call).wallet
  := (Reserving.vGenerated_step pool call).map _

theorem generatedKeys_auxMiningCreateBlock
    (s : AuxMining) (scriptPubKey : CScript) (template : AuxTemplate) :
  generatedKeys library s.pool.wallet
    <+: generatedKeys library (s.auxMiningCreateBlock env library scriptPubKey template).pool.wallet
  := by
  have htemplate : generatedKeys library s.pool.wallet
      <+: generatedKeys library (s.flush.templatePool library template).wallet := by
    rw [AuxMining.templatePool, (pool_flush s).1]
    split_ifs
    · exact List.prefix_refl _
    · exact generatedKeys_step s.pool _
  rw [AuxMining.auxMiningCreateBlock]
  split_ifs
  · exact List.prefix_refl _
  · simp only
    split_ifs
    · exact htemplate
    · split
      · exact htemplate
      · exact htemplate

/-- Keys that are new in two steps are new in each of them. -/
theorem NewKeys.split
    {s₁ s₂ : AuxMining} (h : NewKeys library s s₂) (hpaid : s₁.paid = s.paid)
    (hfirst : generatedKeys library s.pool.wallet <+: generatedKeys library s₁.pool.wallet)
    (hsecond : generatedKeys library s₁.pool.wallet <+: generatedKeys library s₂.pool.wallet) :
  NewKeys library s s₁ ∧ NewKeys library s₁ s₂
  := by
  refine ⟨⟨(hsecond.map _).sublist.nodup h.1, ?_⟩, h.1, ?_⟩
  · intro vchPubKey hmem hnot
    exact h.2 vchPubKey (hsecond.subset hmem) hnot
  · intro vchPubKey hmem hnot
    rw [hpaid]
    exact h.2 vchPubKey hmem (fun hold => hnot (hfirst.subset hold))

theorem Accounted.getauxblock
    (hlibrary : library.Lawful) (h : Accounted library s)
    (hclear : s.pool.Clear (.getReservedKey GET template.nKeys template.rands))
    (htemplate : ClearTemplate
      (s.pool.step library (.getReservedKey GET template.nKeys template.rands)) template)
    (hnew : NewKeys library s (s.getauxblock env library template)) :
  Accounted library (s.getauxblock env library template)
  := by
  rw [AuxMining.getauxblock] at hnew ⊢
  rcases hresult : s.pool.wallet.getReservedKey library (s.pool.reserved GET) template.nKeys
    (fun i => template.rands i) with ⟨w, reservekey, _ | vchPubKey⟩
  · simp only [hresult] at hnew ⊢
    exact h.getKey hlibrary hresult hclear hnew
  · simp only [hresult] at hnew ⊢
    obtain ⟨hreserve, hcreate⟩ := @NewKeys.split library s
      ⟨s.pool.step library (.getReservedKey GET template.nKeys template.rands), s.mapAuxBlocks,
        s.pindexPrevAux, s.pindexBest, s.nonce, s.paid, _⟩ _ hnew rfl (generatedKeys_step s.pool _)
      (generatedKeys_auxMiningCreateBlock _ _ template)
    exact (h.getKey hlibrary hresult hclear hreserve).auxMiningCreateBlock hlibrary htemplate hcreate

theorem untouched_of_elsewhere (h : Elsewhere call) :
  Untouched SUBMIT call ∧ Untouched GET call
  := by
  have hne : ∀ {i : ℕ}, GET < i → SUBMIT ≠ i ∧ GET ≠ i := by
    intro i hi
    exact ⟨(Nat.lt_trans (by decide) hi).ne, hi.ne⟩
  cases call with
  | getReservedKey i nKeys rands => exact hne h
  | keepKey i => exact hne h
  | returnKey i => exact hne h
  | _ => exact ⟨trivial, trivial⟩

theorem Accounted.step
    (hlibrary : library.Lawful) (h : Accounted library s) {call : Call}
    (hproper : s.Proper env library call) (hnew : NewKeys library s (s.step env library call)) :
  Accounted library (s.step env library call)
  := by
  cases call with
  | createauxblock scriptPubKey template => exact h.auxMiningCreateBlock hlibrary hproper hnew
  | getauxblock template => exact h.getauxblock hlibrary hproper.1 hproper.2 hnew
  | submitauxblock proof => exact h.auxMiningSubmitBlock hlibrary (.inl rfl) hproper hnew
  | getauxblockSubmit proof => exact h.auxMiningSubmitBlock hlibrary (.inr rfl) hproper hnew
  | tip pindexBest => exact ⟨h.sound, h.submit, h.unpaid, h.kept_paid, h.current⟩
  | pool call =>
    obtain ⟨hsubmit, hget⟩ := untouched_of_elsewhere hproper.1
    exact h.poolCall hlibrary hsubmit hget hproper.2 hnew

/-- A reservation that holds the key of the block. -/
theorem properProof_of_index
    {i nIndex : ℕ} {proof : AuxProof} (hindex : (s.pool.reserved i).nIndex = some nIndex)
    (hprocessed : proof.fProcessed = true)
    (hpays : (s.checkedBlock env proof).all (fun block =>
      block.scriptPubKey == some (payTo library (s.pool.reserved i).vchPubKey)) = true) :
  s.ProperProof env library i proof
  := by
  intro block hchecked
  rw [hchecked, Option.all_some, beq_iff_eq] at hpays
  rw [hindex]
  exact ⟨hprocessed, hpays⟩

/-- A process that has not mined yet: it has reserved no key. -/
structure Started (library : WalletLibrary) (s : AuxMining) : Prop where
  sound : s.pool.Sound library
  reserved : ∀ i, (s.pool.reserved i).nIndex = none
  reservedKeys : s.reservedKeys = []
  paid : s.paid = []

/-- As long as every submission that gets to `KeepKey` keeps the key that its accepted block pays, a
key that `getauxblock` has reserved is kept if and only if a block that pays it has been accepted,
and then it is neither in the pool nor reserved. -/
theorem kept_iff_paid
    (hlibrary : library.Lawful) (hs : Started library s) {calls : List Call}
    (hproper : Along (step env library) (Proper env library) s calls)
    (hnew : Along (step env library) (fun s call => NewKeys library s (s.step env library call))
      s calls) :
  let s' := run (step env library) s calls
  ∀ vchPubKey ∈ s'.reservedKeys,
    (vchPubKey ∈ s'.pool.kept ↔ payTo library vchPubKey ∈ s'.paid)
      ∧ (payTo library vchPubKey ∈ s'.paid → ∀ nIndex, Live s'.pool.wallet s'.pool.reserved nIndex →
        s'.pool.wallet.db.pool[nIndex]? ≠ some vchPubKey)
  := by
  intro s' vchPubKey hmem
  have hstart : Accounted library s := by
    refine ⟨hs.sound, hs.reserved SUBMIT, ?_, ?_, ?_⟩
    · intro vchPubKey _ _
      rw [hs.paid]
      exact List.not_mem_nil
    · rw [hs.reservedKeys]
      intro vchPubKey hmem
      cases hmem
    · rw [hs.reservedKeys]
      intro vchPubKey hmem
      cases hmem
  have h : Accounted library s' :=
    run_invariant (fun s call hok h => h.step hlibrary hok.1 hok.2) (hproper.and hnew) hstart
  have hkept : payTo library vchPubKey ∈ s'.paid → vchPubKey ∈ s'.pool.kept := by
    intro hpaid
    rcases h.current vchPubKey hmem with hold | ⟨nIndex, hindex⟩
    · exact hold
    · obtain ⟨hgenerated, hnot⟩ :=
        @generated_of_reserved library s'.pool h.sound GET nIndex (by rw [hindex])
      rw [hindex] at hgenerated hnot
      exact absurd hpaid (h.unpaid vchPubKey hgenerated hnot)
  refine ⟨⟨h.kept_paid vchPubKey hmem, hkept⟩, ?_⟩
  intro hpaid nIndex hlive hpool
  obtain ⟨vchPubKey', hpool', _, hnot, _⟩ := h.sound.record nIndex hlive
  rw [hpool, Option.some.injEq] at hpool'
  rw [← hpool'] at hnot
  exact hnot (hkept hpaid)

/-! ### A chain past the fork -/

/-- A block at a height. -/
def sampleEntry (n : ℕ) : BlockEntry where
  hash := BitVec.ofNat 256 (n + 1)
  pos := BlockPos.first
  nVersion := 1
  hashMerkleRoot := 0
  nTime := UInt32.ofNat (1000 + n)
  nBits := 0x207fffff
  nNonce := 0

/-- A chain of a height. -/
@[irreducible] def sampleChain : ℕ → CBlockIndex
  | 0 => .first (sampleEntry 0)
  | n + 1 => .next (sampleEntry (n + 1)) (sampleChain n)

/-- A block of a coinbase alone. -/
def sampleTemplate : AuxTemplate where
  fReady := true
  fMinerAddress := true
  vtx := [{ nVersion := 1, vin := [⟨⟨0, 0xffffffff⟩, [], 0xffffffff⟩], vout := [⟨5000, []⟩], nLockTime := 0 }]
  nAdjustedTime := 5000
  nKeys := 1
  rands := Reserving.sampleKeys 0

/-- A new wallet on the chain. -/
def sampleMining : AuxMining :=
  ⟨Reserving.start (new WalletDB.empty), ∅, none, sampleChain 200, ⟨0, 0⟩, [], []⟩

theorem started_sampleMining :
  Started sampleWalletLibrary sampleMining
  := ⟨Reserving.sound_start_new _, fun _ => rfl, rfl, rfl⟩

/-- A proof for the block that a state waits for. -/
def minedProof (s : AuxMining) (fProcessed : Bool) : AuxProof where
  hash := s.mapAuxBlocks.keys.headD 0
  auxpow := some (sampleProof 0)
  fProcessed := fProcessed
  pindexBest := sampleChain 201

/-- The state after `getauxblock`. -/
def sampleWork : AuxMining := sampleMining.getauxblock sampleEnv sampleWalletLibrary sampleTemplate

/-- `getauxblock` and a proof for its block that is accepted. -/
def sampleMined : List Call := [.getauxblock sampleTemplate, .getauxblockSubmit (minedProof sampleWork true)]

theorem proper_sampleMined :
  Along (step sampleEnv sampleWalletLibrary) (Proper sampleEnv sampleWalletLibrary) sampleMining
    sampleMined
  := by
  refine ⟨⟨fun _ _ i nIndex hi => (by cases hi), fun hminer => (by cases hminer)⟩, ?_, trivial⟩
  have hproof : sampleWork.ProperProof sampleEnv sampleWalletLibrary GET
      (minedProof sampleWork true) := by
    apply @properProof_of_index sampleWalletLibrary sampleEnv sampleWork GET 1
    · decide +kernel
    · rfl
    · decide +kernel
  exact hproof

theorem newKeys_sampleMined :
  Along (step sampleEnv sampleWalletLibrary)
    (fun s call => NewKeys sampleWalletLibrary s (s.step sampleEnv sampleWalletLibrary call))
    sampleMining sampleMined
  := by
  refine ⟨⟨by decide +kernel, ?_⟩, ⟨by decide +kernel, ?_⟩, trivial⟩
  · intro vchPubKey _ _
    exact List.not_mem_nil
  · intro vchPubKey _ _
    have hpaid : sampleWork.paid = [] := by decide +kernel
    change payTo sampleWalletLibrary vchPubKey ∉ sampleWork.paid
    rw [hpaid]
    exact List.not_mem_nil

theorem sampleMined_kept :
  let s' := run (step sampleEnv sampleWalletLibrary) sampleMining sampleMined
  s'.reservedKeys.length = 1 ∧ ∀ vchPubKey ∈ s'.reservedKeys,
    (vchPubKey ∈ s'.pool.kept ↔ payTo sampleWalletLibrary vchPubKey ∈ s'.paid)
  := by
  refine ⟨by decide +kernel, ?_⟩
  intro vchPubKey hmem
  exact (kept_iff_paid lawful_sampleWalletLibrary started_sampleMining proper_sampleMined
    newKeys_sampleMined vchPubKey hmem).1

/-- The state after `createauxblock` with a script of someone else. -/
def sampleCreated : AuxMining :=
  sampleMining.auxMiningCreateBlock sampleEnv sampleWalletLibrary [1, 2, 3] sampleTemplate

/-- A key is kept for a block that is then rejected, a key is kept for a block that pays another
script, and a key is not kept though its block was accepted. -/
theorem kept_not_iff_paid :
  Started sampleWalletLibrary sampleMining
    ∧ (∃ vchPubKey ∈ (run (step sampleEnv sampleWalletLibrary) sampleMining
          [.getauxblock sampleTemplate, .getauxblockSubmit (minedProof sampleWork false)]).reservedKeys,
        vchPubKey ∈ (run (step sampleEnv sampleWalletLibrary) sampleMining
          [.getauxblock sampleTemplate, .getauxblockSubmit (minedProof sampleWork false)]).pool.kept
        ∧ payTo sampleWalletLibrary vchPubKey ∉ (run (step sampleEnv sampleWalletLibrary) sampleMining
          [.getauxblock sampleTemplate, .getauxblockSubmit (minedProof sampleWork false)]).paid)
    ∧ (∃ vchPubKey ∈ (run (step sampleEnv sampleWalletLibrary) sampleMining
          [.createauxblock [1, 2, 3] sampleTemplate, .getauxblock sampleTemplate,
            .getauxblockSubmit (minedProof sampleCreated true)]).reservedKeys,
        vchPubKey ∈ (run (step sampleEnv sampleWalletLibrary) sampleMining
          [.createauxblock [1, 2, 3] sampleTemplate, .getauxblock sampleTemplate,
            .getauxblockSubmit (minedProof sampleCreated true)]).pool.kept
        ∧ payTo sampleWalletLibrary vchPubKey ∉ (run (step sampleEnv sampleWalletLibrary) sampleMining
          [.createauxblock [1, 2, 3] sampleTemplate, .getauxblock sampleTemplate,
            .getauxblockSubmit (minedProof sampleCreated true)]).paid)
    ∧ ∃ vchPubKey ∈ (run (step sampleEnv sampleWalletLibrary) sampleMining
          [.getauxblock sampleTemplate, .submitauxblock (minedProof sampleWork true)]).reservedKeys,
        vchPubKey ∉ (run (step sampleEnv sampleWalletLibrary) sampleMining
          [.getauxblock sampleTemplate, .submitauxblock (minedProof sampleWork true)]).pool.kept
        ∧ payTo sampleWalletLibrary vchPubKey ∈ (run (step sampleEnv sampleWalletLibrary) sampleMining
          [.getauxblock sampleTemplate, .submitauxblock (minedProof sampleWork true)]).paid
  := by
  refine ⟨started_sampleMining, ?_, ?_, ?_⟩
  · decide +kernel
  · decide +kernel
  · decide +kernel

end AuxMining

end CorgiCoin
