import CorgiCoin.Difficulty
import CorgiCoin.Mining
import CorgiCoin.Lib.Transition
import CorgiCoin.Lib.TreeMap

/-!
# The work that getwork and getworkex hand out

Both calls keep the template blocks they have made on the present tip, and remember for each unit
of work they hand out the template and the coinbase script, under the merkle root.  A submission
puts the script back into the template.  Everything else in the template is shared by all its
units.  A request whose pointer to the current template is null or dangling is `none`.
-/

namespace CorgiCoin

open Std Transition TreeMap

/-- The static variables of a call: the tip that the templates are for, the templates, the last one
being the current one, and the units handed out by their merkle root; and the units handed out, for
specifications only. -/
structure WorkCache where
  pindexPrev : Option CBlockIndex
  vNewBlock : List CBlock
  mapNewBlock : ExtTreeMap uint256 (ℕ × CScript)
  nonce : ExtraNonce
  handed : List CBlock

/-- What a request finds: whether the transactions have changed and a minute has passed, the
transactions that `CreateNewBlock` puts into a block, `none` where it throws, and the adjusted time
when it does and later. -/
structure WorkRequest where
  fRefresh : Bool
  vtx : Option (List CTransaction)
  nCreateTime : ℤ
  nAdjustedTime : ℤ

namespace WorkCache

variable (env : Env) (pindexBest : CBlockIndex) (s : WorkCache)

/-! ## Requests -/

/-- A request makes a new template. -/
def needsBlock (request : WorkRequest) : Bool := s.pindexPrev ≠ some pindexBest || request.fRefresh

/-- The templates of older tips are dropped. -/
def setTip : WorkCache :=
  if s.pindexPrev ≠ some pindexBest then
    { s with pindexPrev := some pindexBest, vNewBlock := [], mapNewBlock := ∅ }
  else s

/-- The templates after a request has made a new one where it has to; false where it throws. -/
def refresh (request : WorkRequest) : WorkCache × Bool :=
  if s.needsBlock pindexBest request then
    let s := s.setTip pindexBest
    match request.vtx.bind (fillHeader env pindexBest request.nCreateTime) with
    | none => (s, false)
    | some block => ({ s with vNewBlock := s.vNewBlock ++ [block] }, true)
  else (s, true)

/-- The rest of a request: the current template gets a new time and extra nonce, and the unit is
saved.  `pblock` points to the last template; where there is none, as `CreateNewBlock` has thrown
after the templates of an older tip were deleted, it is null or points to a deleted block, and using
it is `none`, like an assertion that fails. -/
def handOut (update : CBlock → Option CBlock) : Option WorkCache :=
  match s.vNewBlock.getLast?.bind update with
  | none => none
  | some block =>
    let (block, nonce) := incrementExtraNonce env.crypto { block with nNonce := 0 } s.nonce
    some { s with
      vNewBlock := s.vNewBlock.dropLast ++ [block]
      mapNewBlock := s.mapNewBlock.insert block.hashMerkleRoot (s.vNewBlock.length - 1, block.scriptSig)
      nonce := nonce
      handed := block :: s.handed }

/-- How `getwork` sets the time of a template. -/
def getworkTime (nAdjustedTime : ℤ) (block : CBlock) : Option CBlock :=
  block.updateTime env.network pindexBest nAdjustedTime

/-- How `getworkex` sets the time of a template. -/
def getworkexTime (nAdjustedTime : ℤ) (block : CBlock) : Option CBlock :=
  some { block with nTime := newBlockTime pindexBest nAdjustedTime }

/-- A request that sets the time of the current template in some way. -/
def request (request : WorkRequest) (update : CBlock → Option CBlock) : Option WorkCache :=
  match s.refresh env pindexBest request with
  | (s, false) => some s
  | (s, true) => s.handOut env update

/-- `getwork` without arguments. -/
def getworkRequest (request : WorkRequest) : Option WorkCache :=
  s.request env pindexBest request (getworkTime env pindexBest request.nAdjustedTime)

/-- `getworkex` without arguments. -/
def getworkexRequest (request : WorkRequest) : Option WorkCache :=
  s.request env pindexBest request (getworkexTime pindexBest request.nAdjustedTime)

/-! ## Submissions -/

/-- A submitted header with the coinbase of a template replaced: the state, and the block that
`CheckWork` is called with. -/
def submit (vchData : Bytes) (replace : CBlock → CScript → CBlock × Bool) : WorkCache × Option CBlock :=
  match parseHashData vchData with
  | none => (s, none)
  | some pdata =>
    match s.mapNewBlock[pdata.hashMerkleRoot]? with
    | none => (s, none)
    | some (i, scriptSig) =>
      match s.vNewBlock[i]? with
      | none => (s, none)
      | some block =>
        match replace { block with nTime := pdata.nTime, nNonce := pdata.nNonce } scriptSig with
        | (block, false) => ({ s with vNewBlock := s.vNewBlock.set i block }, none)
        | (block, true) =>
          let block := { block with hashMerkleRoot := block.buildMerkleTree env.crypto }
          ({ s with vNewBlock := s.vNewBlock.set i block }, some block)

/-- `getwork` with data. -/
def getworkSubmit (vchData : Bytes) : WorkCache × Option CBlock :=
  s.submit env vchData (fun block scriptSig => (block.setScriptSig scriptSig, true))

/-- `vtx[0] = tx` -/
def setCoinbase (block : CBlock) (tx : CTransaction) : CBlock :=
  { block with vtx := tx :: block.vtx.tail }

/-- `getworkex` with data and a coinbase, which is empty where the argument is missing.  Reading a
transaction that is cut short throws and leaves some part of it in the template. -/
def getworkexSubmit (vchData coinbase : Bytes) (partly : CTransaction) : WorkCache × Option CBlock :=
  s.submit env vchData (fun block scriptSig =>
    if coinbase.isEmpty then (block.setScriptSig scriptSig, true)
    else
      match CTransaction.unserialize.run coinbase with
      | none => (setCoinbase block partly, false)
      | some (tx, _) => (setCoinbase block tx, true))

/-! ## Runs -/

/-- Calls of `getwork`. -/
inductive GetWork
  | request (request : WorkRequest)
  | submit (vchData : Bytes)

/-- Calls of `getworkex`. -/
inductive GetWorkEx
  | request (request : WorkRequest)
  | submit (vchData coinbase : Bytes) (partly : CTransaction)

/-- A call of `getwork`; once the program has used a pointer that is not to a block there is no
further state. -/
def getwork (s : Option WorkCache) (call : GetWork) : Option WorkCache :=
  s.bind fun s =>
    match call with
    | .request request => s.getworkRequest env pindexBest request
    | .submit vchData => some (s.getworkSubmit env vchData).1

def getworkex (s : Option WorkCache) (call : GetWorkEx) : Option WorkCache :=
  s.bind fun s =>
    match call with
    | .request request => s.getworkexRequest env pindexBest request
    | .submit vchData coinbase partly => some (s.getworkexSubmit env vchData coinbase partly).1

/-- Two blocks have the header and the transactions of the same unit of work. -/
structure SameWork (block block' : CBlock) : Prop where
  nVersion : block'.nVersion = block.nVersion
  hashPrevBlock : block'.hashPrevBlock = block.hashPrevBlock
  nBits : block'.nBits = block.nBits
  auxpow : block'.auxpow = block.auxpow
  vtx : block'.vtx = block.vtx

/-- A new unit of work does not have the merkle root of another one. -/
def NewRoot (s s' : WorkCache) : Prop :=
  ∀ block ∈ s.handed, ∀ block', s'.handed = block' :: s.handed →
    block'.hashMerkleRoot = block.hashMerkleRoot → SameWork block block'

/-- A request that makes no template finds one. -/
def HasTemplate (s : WorkCache) (request : WorkRequest) : Prop :=
  s.needsBlock pindexBest request = false → s.vNewBlock ≠ []

/-- The condition on calls of `getwork`: a request that makes no template finds one, and leaves its
target as it is. -/
def SteadyWork (s : WorkCache) : GetWork → Prop
  | .request request => s.HasTemplate pindexBest request
      ∧ (∀ s' ∈ s.getworkRequest env pindexBest request, s.NewRoot s')
      ∧ (s.needsBlock pindexBest request = false → ∀ block block', s.vNewBlock.getLast? = some block →
        getworkTime env pindexBest request.nAdjustedTime block = some block' →
        block'.nBits = block.nBits)
  | .submit _ => True

/-- A coinbase is the one of a block but for its script. -/
def SameCoinbase (block : CBlock) (tx : CTransaction) : Prop :=
  ∃ scriptSig, (setCoinbase block tx).vtx = (block.setScriptSig scriptSig).vtx

/-- The condition on calls of `getworkex`: a request that makes no template finds one, and a
submitted coinbase can be read and is the one of the template but for its script. -/
def SteadyWorkEx (s : WorkCache) : GetWorkEx → Prop
  | .request request => s.HasTemplate pindexBest request
      ∧ ∀ s' ∈ s.getworkexRequest env pindexBest request, s.NewRoot s'
  | .submit vchData coinbase _ => coinbase ≠ [] → ∀ pdata i scriptSig block,
      parseHashData vchData = some pdata →
      s.mapNewBlock[pdata.hashMerkleRoot]? = some (i, scriptSig) → s.vNewBlock[i]? = some block →
      ∃ tx rest, CTransaction.unserialize.run coinbase = some (tx, rest) ∧ SameCoinbase block tx

variable {env pindexBest s} {s' : WorkCache}

/-! ## Templates that differ in the coinbase script -/

/-- A template after some of its units were handed out or submitted. -/
structure Alike (block block' : CBlock) : Prop where
  nVersion : block'.nVersion = block.nVersion
  hashPrevBlock : block'.hashPrevBlock = block.hashPrevBlock
  nBits : block'.nBits = block.nBits
  auxpow : block'.auxpow = block.auxpow
  vtx : ∀ scriptSig, (block'.setScriptSig scriptSig).vtx = (block.setScriptSig scriptSig).vtx

theorem Alike.refl (block : CBlock) : Alike block block := ⟨rfl, rfl, rfl, rfl, fun _ => rfl⟩

variable {block block' : CBlock}

theorem Alike.of_vtx
    (hnVersion : block'.nVersion = block.nVersion)
    (hhashPrevBlock : block'.hashPrevBlock = block.hashPrevBlock) (hnBits : block'.nBits = block.nBits)
    (hauxpow : block'.auxpow = block.auxpow)
    (hvtx : ∃ scriptSig, block'.vtx = (block.setScriptSig scriptSig).vtx) :
  Alike block block'
  := by
  refine ⟨hnVersion, hhashPrevBlock, hnBits, hauxpow, ?_⟩
  obtain ⟨scriptSig, hvtx⟩ := hvtx
  intro scriptSig'
  rw [CBlock.vtx_setScriptSig_of_vtx scriptSig' hvtx, CBlock.setScriptSig_setScriptSig]

/-- The saved script and the template give back a unit of work. -/
structure Saved (env : Env) (s : WorkCache) (block : CBlock) : Prop where
  entry : ∃ i scriptSig template, s.mapNewBlock[block.hashMerkleRoot]? = some (i, scriptSig)
    ∧ s.vNewBlock[i]? = some template
    ∧ SameWork block (template.setScriptSig scriptSig)
  hashMerkleRoot : block.hashMerkleRoot = block.buildMerkleTree env.crypto

theorem Alike.setScriptSig
    (h : Alike block block') (scriptSig : CScript) :
  SameWork (block.setScriptSig scriptSig) (block'.setScriptSig scriptSig)
  := by
  rw [CBlock.setScriptSig_eq block, CBlock.setScriptSig_eq block']
  exact ⟨h.nVersion, h.hashPrevBlock, h.nBits, h.auxpow, h.vtx scriptSig⟩

theorem SameWork.trans
    {block'' : CBlock} (h : SameWork block block') (h' : SameWork block' block'') :
  SameWork block block''
  := by
  constructor
  · exact h'.nVersion.trans h.nVersion
  · exact h'.hashPrevBlock.trans h.hashPrevBlock
  · exact h'.nBits.trans h.nBits
  · exact h'.auxpow.trans h.auxpow
  · exact h'.vtx.trans h.vtx

/-- A unit stays saved while its entry stays and the templates stay alike. -/
theorem Saved.of_alike
    {block : CBlock} (h : Saved env s block)
    (hmap : s'.mapNewBlock[block.hashMerkleRoot]? = s.mapNewBlock[block.hashMerkleRoot]?)
    (hblocks : ∀ (i : ℕ) template, s.vNewBlock[i]? = some template →
      ∃ template', s'.vNewBlock[i]? = some template' ∧ Alike template template') :
  Saved env s' block
  := by
  obtain ⟨i, scriptSig, template, hentry, hget, hsame⟩ := h.entry
  obtain ⟨template', hget', halike⟩ := hblocks i template hget
  exact ⟨⟨i, scriptSig, template', hmap.trans hentry, hget', hsame.trans (halike.setScriptSig _)⟩,
    h.hashMerkleRoot⟩

/-! ## Handing out a unit -/

/-- A unit that was just made: its root is the one of its transactions, and its script gives them
back. -/
theorem incrementExtraNonce_spec (crypto : Crypto) (block : CBlock) (nonce : ExtraNonce) :
  Alike block (incrementExtraNonce crypto block nonce).1
    ∧ SameWork (incrementExtraNonce crypto block nonce).1
      ((incrementExtraNonce crypto block nonce).1.setScriptSig
        (incrementExtraNonce crypto block nonce).1.scriptSig)
    ∧ (incrementExtraNonce crypto block nonce).1.hashMerkleRoot
      = (incrementExtraNonce crypto block nonce).1.buildMerkleTree crypto
  := by
  obtain ⟨scriptSig, hunit⟩ : ∃ scriptSig, (incrementExtraNonce crypto block nonce).1
      = { block.setScriptSig scriptSig with
          hashMerkleRoot := (block.setScriptSig scriptSig).buildMerkleTree crypto } := ⟨_, rfl⟩
  rw [hunit]
  refine ⟨?_, ?_, rfl⟩
  · rw [CBlock.setScriptSig_eq]
    exact Alike.of_vtx rfl rfl rfl rfl ⟨scriptSig, rfl⟩
  · rw [CBlock.setScriptSig_eq { block.setScriptSig scriptSig with hashMerkleRoot := _ }]
    refine ⟨rfl, rfl, rfl, rfl, ?_⟩
    have hvtx := congrArg CBlock.vtx (CBlock.setScriptSig_scriptSig block scriptSig)
    rw [← hvtx]
    exact CBlock.vtx_setScriptSig_of_vtx _ rfl

/-- A request on the last template, from the state before it made one. -/
theorem saved_handOut
    {s₀ : WorkCache} (hsaved : ∀ block ∈ s₀.handed, Saved env s₀ block)
    (hhanded : s.handed = s₀.handed) (hmap : s.mapNewBlock = s₀.mapNewBlock)
    {front : List CBlock} {template updated : CBlock} (hlast : s.vNewBlock = front ++ [template])
    {update : CBlock → Option CBlock} (hupdate : update template = some updated)
    (hblocks : ∀ (i : ℕ) old, s₀.vNewBlock[i]? = some old → front[i]? = some old
      ∨ i = front.length ∧ Alike old { updated with nNonce := 0 })
    (hroot : ∀ s' ∈ s.handOut env update, s₀.NewRoot s') :
  ∃ s', s.handOut env update = some s' ∧ s'.pindexPrev = s.pindexPrev
    ∧ ∀ block ∈ s'.handed, Saved env s' block
  := by
  obtain ⟨halike, hunit, hmerkle⟩ :=
    incrementExtraNonce_spec env.crypto { updated with nNonce := 0 } s.nonce
  have hout : s.handOut env update = some { s with
      vNewBlock := front ++ [(incrementExtraNonce env.crypto { updated with nNonce := 0 } s.nonce).1]
      mapNewBlock := (s.mapNewBlock.insert
        (incrementExtraNonce env.crypto { updated with nNonce := 0 } s.nonce).1.hashMerkleRoot
        (front.length, (incrementExtraNonce env.crypto { updated with nNonce := 0 } s.nonce).1.scriptSig))
      nonce := (incrementExtraNonce env.crypto { updated with nNonce := 0 } s.nonce).2
      handed := (incrementExtraNonce env.crypto { updated with nNonce := 0 } s.nonce).1 :: s.handed } := by
    rw [handOut, hlast, List.getLast?_concat, Option.bind_some, hupdate]
    simp only [List.dropLast_concat, List.length_append, List.length_singleton, Nat.add_sub_cancel]
  generalize incrementExtraNonce env.crypto { updated with nNonce := 0 } s.nonce = result
    at halike hunit hmerkle hout
  obtain ⟨unit, nonce⟩ := result
  have hroot := hroot _ hout
  refine ⟨_, hout, rfl, ?_⟩
  intro block hmem
  have hnew : ∀ block : CBlock, block.hashMerkleRoot = unit.hashMerkleRoot → SameWork block unit →
      block.hashMerkleRoot = block.buildMerkleTree env.crypto →
      Saved env { s with
        vNewBlock := front ++ [unit]
        mapNewBlock := (s.mapNewBlock.insert unit.hashMerkleRoot (front.length, unit.scriptSig))
        nonce := nonce
        handed := unit :: s.handed } block := by
    intro block hsame hwork hbuilt
    refine ⟨⟨front.length, unit.scriptSig, unit, ?_, ?_, hwork.trans hunit⟩, hbuilt⟩
    · rw [hsame, ExtTreeMap.getElem?_insert_self]
    · exact List.getElem?_concat_length
  rcases List.mem_cons.mp hmem with rfl | hmem
  · exact hnew block rfl ⟨rfl, rfl, rfl, rfl, rfl⟩ hmerkle
  · rw [hhanded] at hmem
    rcases eq_or_ne unit.hashMerkleRoot block.hashMerkleRoot with heq | hne
    · exact hnew block heq.symm (hroot block hmem unit (by rw [hhanded]) heq)
        (hsaved block hmem).hashMerkleRoot
    · apply (hsaved block hmem).of_alike
      · rw [getElem?_insert_of_ne hne, hmap]
      · intro i old hold
        rcases hblocks i old hold with hfront | ⟨rfl, holder⟩
        · refine ⟨old, ?_, Alike.refl old⟩
          rw [List.getElem?_append_left (List.getElem?_eq_some_iff.mp hfront).1]
          exact hfront
        · refine ⟨unit, List.getElem?_concat_length, ?_⟩
          exact ⟨halike.nVersion.trans holder.nVersion, halike.hashPrevBlock.trans holder.hashPrevBlock,
            halike.nBits.trans holder.nBits, halike.auxpow.trans holder.auxpow,
            fun scriptSig => (halike.vtx scriptSig).trans (holder.vtx scriptSig)⟩

/-- Every unit of the present tip is saved. -/
structure Good (env : Env) (pindexBest : CBlockIndex) (s : WorkCache) : Prop where
  saved : ∀ block ∈ s.handed, Saved env s block
  pindexPrev : s.handed ≠ [] → s.pindexPrev = some pindexBest

/-- Setting the time of a template changes its time and target only. -/
def KeepsWork (update : CBlock → Option CBlock) : Prop :=
  ∀ block block', update block = some block' → block'.nVersion = block.nVersion
    ∧ block'.hashPrevBlock = block.hashPrevBlock ∧ block'.auxpow = block.auxpow ∧ block'.vtx = block.vtx

variable {update : CBlock → Option CBlock}

/-- A request on a template that was there before. -/
theorem Good.handOut
    (h : Good env pindexBest s) (hkeeps : KeepsWork update)
    (htotal : ∀ block, ∃ block', update block = some block') (hlast : s.vNewBlock ≠ [])
    (hsteady : ∀ block block', s.vNewBlock.getLast? = some block → update block = some block' →
      block'.nBits = block.nBits)
    (htip : s.pindexPrev = some pindexBest) (hroot : ∀ s' ∈ s.handOut env update, s.NewRoot s') :
  ∃ s', s.handOut env update = some s' ∧ Good env pindexBest s'
  := by
  obtain ⟨template, htemplate⟩ : ∃ template, s.vNewBlock.getLast? = some template :=
    ⟨_, List.getLast?_eq_getLast_of_ne_nil hlast⟩
  obtain ⟨updated, hupdate⟩ := htotal template
  obtain ⟨front, hfront⟩ := List.getLast?_eq_some_iff.mp htemplate
  have hblocks : ∀ (i : ℕ) old, s.vNewBlock[i]? = some old → front[i]? = some old
      ∨ i = front.length ∧ Alike old { updated with nNonce := 0 } := by
    intro i old hold
    rw [hfront, List.getElem?_append] at hold
    split_ifs at hold with hi
    · exact .inl hold
    · rw [List.getElem?_singleton] at hold
      split_ifs at hold with hi'
      cases hold
      obtain ⟨hnVersion, hprev, hauxpow, hvtx⟩ := hkeeps template updated hupdate
      refine .inr ⟨by omega, hnVersion, hprev, hsteady template updated htemplate hupdate, hauxpow, ?_⟩
      intro scriptSig
      exact CBlock.vtx_setScriptSig_of_vtx scriptSig hvtx
  obtain ⟨s', hout, hprev, hsaved⟩ := saved_handOut h.saved rfl rfl hfront hupdate hblocks hroot
  exact ⟨s', hout, hsaved, fun _ => hprev.trans htip⟩

/-- A request on a template that it has just made. -/
theorem Good.handOut_new
    (h : Good env pindexBest s) (template : CBlock)
    (htotal : ∀ block, ∃ block', update block = some block') (htip : s.pindexPrev = some pindexBest)
    (hroot : ∀ s' ∈ WorkCache.handOut env { s with vNewBlock := s.vNewBlock ++ [template] } update,
      s.NewRoot s') :
  ∃ s', WorkCache.handOut env { s with vNewBlock := s.vNewBlock ++ [template] } update = some s'
    ∧ Good env pindexBest s'
  := by
  obtain ⟨updated, hupdate⟩ := htotal template
  obtain ⟨s', hout, hprev, hsaved⟩ :=
    @saved_handOut env { s with vNewBlock := s.vNewBlock ++ [template] } s h.saved rfl rfl
      s.vNewBlock template updated rfl update hupdate (fun _ _ hold => .inl hold) hroot
  exact ⟨s', hout, hsaved, fun _ => hprev.trans htip⟩

theorem Good.setTip (h : Good env pindexBest s) :
  Good env pindexBest (s.setTip pindexBest) ∧ (s.setTip pindexBest).pindexPrev = some pindexBest
    ∧ (s.setTip pindexBest).handed = s.handed
  := by
  rw [WorkCache.setTip]
  split_ifs with htip
  · have hnone : s.handed = [] := by
      by_contra hsome
      exact htip (h.pindexPrev hsome)
    refine ⟨⟨?_, fun _ => rfl⟩, rfl, rfl⟩
    rw [hnone]
    intro block hmem
    cases hmem
  · exact ⟨h, not_not.mp htip, rfl⟩

theorem Good.request
    {request : WorkRequest} (h : Good env pindexBest s)
    (hkeeps : KeepsWork update) (htotal : ∀ block, ∃ block', update block = some block')
    (htemplate : s.HasTemplate pindexBest request)
    (hsteady : s.needsBlock pindexBest request = false → ∀ block block',
      s.vNewBlock.getLast? = some block → update block = some block' → block'.nBits = block.nBits)
    (hroot : ∀ s' ∈ s.request env pindexBest request update, s.NewRoot s') :
  ∃ s', s.request env pindexBest request update = some s' ∧ Good env pindexBest s'
  := by
  rw [WorkCache.request, refresh] at hroot ⊢
  cases hneeds : s.needsBlock pindexBest request with
  | false =>
    have htip : s.pindexPrev = some pindexBest := by
      rw [needsBlock, Bool.or_eq_false_iff, decide_eq_false_iff_not, not_not] at hneeds
      exact hneeds.1
    simp only [hneeds, Bool.false_eq_true, if_false] at hroot ⊢
    exact h.handOut hkeeps htotal (htemplate hneeds) (hsteady hneeds) htip hroot
  | true =>
    obtain ⟨hset, htip, hhanded⟩ := h.setTip
    simp only [hneeds, if_true] at hroot ⊢
    cases hfill : request.vtx.bind (fillHeader env pindexBest request.nCreateTime) with
    | none => exact ⟨_, rfl, hset⟩
    | some template =>
      simp only [hfill] at hroot ⊢
      apply hset.handOut_new template htotal htip
      intro s' hout block hmem block' hnew
      rw [hhanded] at hmem
      exact hroot s' hout block hmem block' (by rw [hnew, hhanded])

/-! ## Submissions -/

/-- A submission of a unit changes its template only in the coinbase script. -/
theorem Good.submit
    {vchData : Bytes} {replace : CBlock → CScript → CBlock × Bool} (h : Good env pindexBest s)
    (halike : ∀ pdata i scriptSig block, parseHashData vchData = some pdata →
      s.mapNewBlock[pdata.hashMerkleRoot]? = some (i, scriptSig) → s.vNewBlock[i]? = some block →
      Alike block
        (replace { block with nTime := pdata.nTime, nNonce := pdata.nNonce } scriptSig).1) :
  Good env pindexBest (s.submit env vchData replace).1
  := by
  have hset : ∀ (i : ℕ) (block block' : CBlock), s.vNewBlock[i]? = some block → Alike block block' →
      Good env pindexBest { s with vNewBlock := s.vNewBlock.set i block' } := by
    intro i block block' hget hblock
    refine ⟨?_, h.pindexPrev⟩
    intro unit hmem
    apply @Saved.of_alike env s { s with vNewBlock := s.vNewBlock.set i block' } unit
      (h.saved unit hmem) rfl
    intro j old hold
    rcases eq_or_ne i j with rfl | hne
    · rw [hget, Option.some.injEq] at hold
      rw [← hold]
      refine ⟨block', ?_, hblock⟩
      exact List.getElem?_set_self (List.getElem?_eq_some_iff.mp hget).1
    · exact ⟨old, by rw [List.getElem?_set_ne hne]; exact hold, Alike.refl old⟩
  rw [WorkCache.submit]
  split
  · exact h
  · next pdata hparse =>
    split
    · exact h
    · next i scriptSig hentry =>
      split
      · exact h
      · next block hget =>
        have hblock := halike pdata i scriptSig block hparse hentry hget
        split
        · next block' hreplace =>
          rw [hreplace] at hblock
          exact hset i block block' hget hblock
        · next block' hreplace =>
          rw [hreplace] at hblock
          apply hset i block _ hget
          refine ⟨hblock.nVersion, hblock.hashPrevBlock, hblock.nBits, hblock.auxpow, ?_⟩
          intro scriptSig
          rw [← hblock.vtx scriptSig]
          exact CBlock.vtx_setScriptSig_of_vtx scriptSig rfl

theorem keepsWork_getworkTime (env : Env) (pindexBest : CBlockIndex) (nAdjustedTime : ℤ) :
  KeepsWork (getworkTime env pindexBest nAdjustedTime)
  := by
  intro block block' hupdate
  rw [getworkTime, CBlock.updateTime] at hupdate
  simp only at hupdate
  split_ifs at hupdate
  · obtain ⟨nBits, _, rfl⟩ := Option.map_eq_some_iff.mp hupdate
    exact ⟨rfl, rfl, rfl, rfl⟩
  · cases hupdate
    exact ⟨rfl, rfl, rfl, rfl⟩

theorem keepsWork_getworkexTime (pindexBest : CBlockIndex) (nAdjustedTime : ℤ) :
  KeepsWork (getworkexTime pindexBest nAdjustedTime)
  := by
  intro block block' hupdate
  cases hupdate
  exact ⟨rfl, rfl, rfl, rfl⟩

theorem exists_getworkTime (env : Env) (pindexBest : CBlockIndex) (nAdjustedTime : ℤ) (block : CBlock) :
  ∃ block', getworkTime env pindexBest nAdjustedTime block = some block'
  := by
  rw [getworkTime, CBlock.updateTime]
  simp only
  split_ifs
  · obtain ⟨nBits, hnBits⟩ :=
      exists_getNextWorkRequired env.network pindexBest (newBlockTime pindexBest nAdjustedTime)
    rw [hnBits]
    exact ⟨_, rfl⟩
  · exact ⟨_, rfl⟩

/-- Putting a script into a template with another time and nonce. -/
theorem alike_setScriptSig (block : CBlock) (nTime nNonce : UInt32) (scriptSig : CScript) :
  Alike block (CBlock.setScriptSig { block with nTime := nTime, nNonce := nNonce } scriptSig)
  := by
  rw [CBlock.setScriptSig_eq]
  exact Alike.of_vtx rfl rfl rfl rfl ⟨scriptSig, CBlock.vtx_setScriptSig_of_vtx scriptSig rfl⟩

theorem Good.getwork
    (h : Good env pindexBest s) {call : GetWork} (hsteady : s.SteadyWork env pindexBest call) :
  ∃ s', getwork env pindexBest (some s) call = some s' ∧ Good env pindexBest s'
  := by
  cases call with
  | request request =>
    exact h.request (keepsWork_getworkTime env pindexBest _) (exists_getworkTime env pindexBest _)
      hsteady.1 hsteady.2.2 hsteady.2.1
  | submit vchData =>
    refine ⟨_, rfl, ?_⟩
    apply h.submit
    intro pdata i scriptSig block _ _ _
    exact alike_setScriptSig block _ _ scriptSig

theorem Good.getworkex
    (h : Good env pindexBest s) {call : GetWorkEx} (hsteady : s.SteadyWorkEx env pindexBest call) :
  ∃ s', getworkex env pindexBest (some s) call = some s' ∧ Good env pindexBest s'
  := by
  cases call with
  | request request =>
    apply h.request (keepsWork_getworkexTime pindexBest _) (fun _ => ⟨_, rfl⟩) hsteady.1 _ hsteady.2
    intro _ block block' _ hupdate
    cases hupdate
    rfl
  | submit vchData coinbase partly =>
    refine ⟨_, rfl, ?_⟩
    apply h.submit
    intro pdata i scriptSig block hparse hentry hget
    split_ifs with hempty
    · exact alike_setScriptSig block _ _ scriptSig
    · have hsome : coinbase ≠ [] := by
        rintro rfl
        exact hempty rfl
      obtain ⟨tx, rest, hread, scriptSig', hvtx⟩ :=
        hsteady hsome pdata i scriptSig block hparse hentry hget
      simp only [hread]
      exact Alike.of_vtx rfl rfl rfl rfl ⟨scriptSig', hvtx⟩

/-- Calls that meet their condition keep every unit saved. -/
theorem Good.run
    {Call : Type} {step : Option WorkCache → Call → Option WorkCache} {ok : WorkCache → Call → Prop}
    (hstep : ∀ s call, Good env pindexBest s → ok s call →
      ∃ s', step (some s) call = some s' ∧ Good env pindexBest s')
    (h : Good env pindexBest s) {calls : List Call}
    (halong : Along step (fun s call => ∀ s₁ ∈ s, ok s₁ call) (some s) calls) :
  ∃ s', Transition.run step (some s) calls = some s' ∧ Good env pindexBest s'
  := by
  have hkeeps : ∀ (s : Option WorkCache) (call : Call), (∀ s₁ ∈ s, ok s₁ call) →
      (∃ s', s = some s' ∧ Good env pindexBest s') →
      ∃ s', step s call = some s' ∧ Good env pindexBest s' := by
    rintro _ call hok ⟨s₁, rfl, hs₁⟩
    exact hstep s₁ call hs₁ (hok s₁ rfl)
  exact run_invariant hkeeps halong ⟨s, rfl, h⟩

/-! ## What a submission rebuilds -/

/-- The data of a unit of work with another time and nonce. -/
def unitData (block : CBlock) (nTime nNonce : UInt32) : Bytes :=
  formatHashData { block.toCPureBlockHeader with nTime := nTime, nNonce := nNonce }

/-- A block of the same work with the merkle root of its transactions is the unit. -/
theorem eq_of_sameWork
    {block built : CBlock} (hroot : block.hashMerkleRoot = block.buildMerkleTree env.crypto)
    (hsame : SameWork block built) :
  { built with hashMerkleRoot := built.buildMerkleTree env.crypto }
    = { block with nTime := built.nTime, nNonce := built.nNonce }
  := by
  have hbuild : built.buildMerkleTree env.crypto = block.hashMerkleRoot := by
    rw [hroot, CBlock.buildMerkleTree, CBlock.buildMerkleTree, hsame.vtx]
  rw [hbuild]
  obtain ⟨⟨nVersion, hashPrevBlock, hashMerkleRoot, nTime, nBits, nNonce⟩, vtx, auxpow⟩ := built
  obtain ⟨hnVersion, hprev, hnBits, hauxpow, hvtx⟩ := hsame
  cases hnVersion
  cases hprev
  cases hnBits
  cases hauxpow
  cases hvtx
  rfl

/-- What `CheckWork` gets for a unit that was handed out. -/
theorem Good.submit_unit
    (h : Good env pindexBest s) (hmem : block ∈ s.handed) (nTime nNonce : UInt32)
    {replace : CBlock → CScript → CBlock × Bool}
    (hreplace : ∀ template scriptSig, SameWork block (template.setScriptSig scriptSig) →
      replace template scriptSig = ({ template with vtx := block.vtx }, true)) :
  (s.submit env (unitData block nTime nNonce) replace).2
    = some { block with nTime := nTime, nNonce := nNonce }
  := by
  obtain ⟨⟨i, scriptSig, template, hentry, hget, hsame⟩, hroot⟩ := h.saved block hmem
  have hsame' : SameWork block
      (CBlock.setScriptSig { template with nTime := nTime, nNonce := nNonce } scriptSig) :=
    hsame.trans ((alike_setScriptSig template nTime nNonce scriptSig).setScriptSig scriptSig |>.trans
      (by rw [CBlock.setScriptSig_setScriptSig]; exact ⟨rfl, rfl, rfl, rfl, rfl⟩))
  rw [WorkCache.submit, unitData, parseHashData_formatHashData]
  simp only [hentry, hget, hreplace _ scriptSig hsame', Option.some.injEq]
  rw [CBlock.setScriptSig_eq] at hsame
  exact @eq_of_sameWork env block { template with nTime := nTime, nNonce := nNonce, vtx := block.vtx }
    hroot ⟨hsame.nVersion, hsame.hashPrevBlock, hsame.nBits, hsame.auxpow, rfl⟩

theorem setScriptSig_of_sameWork
    {template : CBlock} {scriptSig : CScript} (h : SameWork block (template.setScriptSig scriptSig)) :
  template.setScriptSig scriptSig = { template with vtx := block.vtx }
  := by
  rw [← h.vtx]
  exact CBlock.setScriptSig_eq template scriptSig

theorem setCoinbase_of_sameWork
    {template : CBlock} {scriptSig : CScript} {tx : CTransaction} {vtx : List CTransaction}
    (h : SameWork block (template.setScriptSig scriptSig)) (hvtx : block.vtx = tx :: vtx) :
  setCoinbase template tx = { template with vtx := block.vtx }
  := by
  have htail : (template.setScriptSig scriptSig).vtx.tail = template.vtx.tail := by
    rw [CBlock.setScriptSig]
    split
    · rfl
    · next hold =>
      split
      · rfl
      · rw [hold, List.tail_cons, List.tail_cons]
  rw [h.vtx, hvtx, List.tail_cons] at htail
  rw [setCoinbase, ← htail, hvtx]

theorem serialize_ne_nil (tx : CTransaction) :
  tx.serialize ≠ []
  := by
  intro hnil
  have hlength := congrArg List.length hnil
  simp [CTransaction.serialize, serializeInt, serializeUInt] at hlength

/-- As long as the tip stays, there is a template for each request and the templates change in their
coinbase scripts only, a unit that was handed out is rebuilt as it was, whatever was requested and
submitted since. -/
theorem submit_rebuilds (hs : s.handed = []) :
  (∀ calls, Along (getwork env pindexBest) (fun s call => ∀ s₁ ∈ s, s₁.SteadyWork env pindexBest call)
        (some s) calls →
      ∃ s', run (getwork env pindexBest) (some s) calls = some s'
        ∧ ∀ block ∈ s'.handed, ∀ nTime nNonce,
          (s'.getworkSubmit env (unitData block nTime nNonce)).2
            = some { block with nTime := nTime, nNonce := nNonce })
    ∧ ∀ calls, Along (getworkex env pindexBest)
        (fun s call => ∀ s₁ ∈ s, s₁.SteadyWorkEx env pindexBest call) (some s) calls →
      ∃ s', run (getworkex env pindexBest) (some s) calls = some s'
        ∧ ∀ block ∈ s'.handed, ∀ nTime nNonce partly,
          (s'.getworkexSubmit env (unitData block nTime nNonce) [] partly).2
            = some { block with nTime := nTime, nNonce := nNonce }
          ∧ ∀ tx vtx, block.vtx = tx :: vtx → tx.Fits →
            (s'.getworkexSubmit env (unitData block nTime nNonce) tx.serialize partly).2
              = some { block with nTime := nTime, nNonce := nNonce }
  := by
  have hgood : Good env pindexBest s := by
    refine ⟨?_, fun hsome => absurd hs hsome⟩
    rw [hs]
    intro block hmem
    cases hmem
  constructor
  · intro calls halong
    obtain ⟨s', hrun, h⟩ := hgood.run (fun _ _ h hok => h.getwork hok) halong
    refine ⟨s', hrun, ?_⟩
    intro block hmem nTime nNonce
    apply h.submit_unit hmem
    intro template scriptSig hsame
    rw [setScriptSig_of_sameWork hsame]
  · intro calls halong
    obtain ⟨s', hrun, h⟩ := hgood.run (fun _ _ h hok => h.getworkex hok) halong
    refine ⟨s', hrun, ?_⟩
    intro block hmem nTime nNonce partly
    constructor
    · apply h.submit_unit hmem
      intro template scriptSig hsame
      rw [if_pos List.isEmpty_nil, setScriptSig_of_sameWork hsame]
    · intro tx vtx hvtx hfits
      apply h.submit_unit hmem
      intro template scriptSig hsame
      have hread := CTransaction.lawful.read_write tx hfits []
      rw [List.append_nil] at hread
      rw [if_neg (by rw [List.isEmpty_iff]; exact serialize_ne_nil tx)]
      simp only [hread, setCoinbase_of_sameWork hsame hvtx]

/-! ### Two units of one template -/

/-- A block that work is requested on top of. -/
def sampleTip : CBlockIndex :=
  .first
    { hash := 7
      pos := BlockPos.first
      nVersion := 1
      hashMerkleRoot := 0
      nTime := 1000000
      nBits := 0x1d00ffff
      nNonce := 0 }

/-- A coinbase before it has a script. -/
def sampleCoinbase : CTransaction where
  nVersion := 1
  vin := [⟨⟨0, 0xffffffff⟩, [], 0xffffffff⟩]
  vout := [⟨5000, [1, 2, 3]⟩]
  nLockTime := 0

/-- A request at a time. -/
def requestAt (nAdjustedTime : ℤ) : WorkRequest where
  fRefresh := false
  vtx := some [sampleCoinbase]
  nCreateTime := nAdjustedTime
  nAdjustedTime := nAdjustedTime

/-- A call before its first request. -/
def fresh : WorkCache := ⟨none, [], ∅, ⟨0, 0⟩, []⟩

/-- A node of the main network. -/
def mainEnv : Env := { sampleEnv with network := .main }

/-- A node of the test network. -/
def testEnv : Env := { sampleEnv with network := .test }

/-- Two requests, the second one when the test network allows the largest target. -/
def sampleWork : List GetWork := [.request (requestAt 1000100), .request (requestAt 1000200)]

theorem steady_sampleWork :
  Along (getwork mainEnv sampleTip) (fun s call => ∀ s₁ ∈ s, s₁.SteadyWork mainEnv sampleTip call)
    (some fresh) sampleWork
  := by
  have hnBits : ∀ (nAdjustedTime : ℤ) (block block' : CBlock),
      getworkTime mainEnv sampleTip nAdjustedTime block = some block' → block'.nBits = block.nBits := by
    intro nAdjustedTime block block' hupdate
    cases hupdate
    rfl
  refine ⟨?_, ?_, trivial⟩
  · rintro s₁ ⟨⟩
    refine ⟨fun hneeds => absurd hneeds (by decide), ?_, fun _ block block' _ => hnBits _ block block'⟩
    intro s' _ block hmem
    cases hmem
  · intro s₁ hs₁
    have htemplate : ∀ s ∈ getwork mainEnv sampleTip (some fresh) (.request (requestAt 1000100)),
        s.vNewBlock ≠ [] := by
      decide
    have hblock : ∀ s ∈ getwork mainEnv sampleTip (some fresh) (.request (requestAt 1000100)),
        ∀ s' ∈ s.getworkRequest mainEnv sampleTip (requestAt 1000200), ∀ block ∈ s.handed,
        ∀ block' ∈ s'.handed.head?, block'.hashMerkleRoot ≠ block.hashMerkleRoot := by
      decide +kernel
    refine ⟨fun _ => htemplate s₁ hs₁, ?_, fun _ block block' _ => hnBits _ block block'⟩
    intro s' hs' block hmem block' hout hroot
    exact absurd hroot (hblock s₁ hs₁ s' hs' block hmem block' (by rw [hout]; rfl))

theorem sampleWork_rebuilt :
  ∃ s block block', run (getwork mainEnv sampleTip) (some fresh) sampleWork = some s
    ∧ s.handed = [block', block]
    ∧ (s.getworkSubmit mainEnv (unitData block 1000300 7)).2
      = some { block with nTime := 1000300, nNonce := 7 }
  := by
  obtain ⟨s, hrun, hrebuilt⟩ :=
    (@submit_rebuilds mainEnv sampleTip fresh rfl).1 sampleWork steady_sampleWork
  have hlength : ∀ s ∈ run (getwork mainEnv sampleTip) (some fresh) sampleWork,
      s.handed.length = 2 := by
    decide
  obtain ⟨block', block, hhanded⟩ := List.length_eq_two.mp (hlength s hrun)
  refine ⟨s, block, block', hrun, hhanded, ?_⟩
  apply hrebuilt
  rw [hhanded]
  exact List.mem_cons_of_mem _ List.mem_cons_self

/-- A coinbase that pays someone else. -/
def otherCoinbase : CTransaction := { sampleCoinbase with vout := [⟨5000, [4]⟩] }

/-- A request, and a submission of its unit with another coinbase. -/
def otherWork : List GetWorkEx :=
  let handed := ((getworkex mainEnv sampleTip (some fresh) (.request (requestAt 1000100))).map
    WorkCache.handed).getD []
  [.request (requestAt 1000100),
    .submit (handed.flatMap (fun block => unitData block 1000100 0)) otherCoinbase.serialize
      otherCoinbase]

/-- On the test network a later request changes the target of a unit, and on any network a submitted
coinbase stays in the template. -/
theorem handedOut_not_rebuilt :
  (∃ s ∈ run (getwork testEnv sampleTip) (some fresh) sampleWork, ∃ block ∈ s.handed,
      (s.getworkSubmit testEnv (unitData block 1000300 7)).2
        ≠ some { block with nTime := 1000300, nNonce := 7 })
    ∧ ∃ s ∈ run (getworkex mainEnv sampleTip) (some fresh) otherWork, ∃ block ∈ s.handed,
      (s.getworkexSubmit mainEnv (unitData block 1000300 7) [] otherCoinbase).2
        ≠ some { block with nTime := 1000300, nNonce := 7 }
  := by
  constructor
  · decide +kernel
  · decide +kernel

end WorkCache

end CorgiCoin
