import CorgiCoin.Flags
import CorgiCoin.Tip

/-!
# The tip has the most work

When every indexed block connects and nothing fails outside, each operation leaves the tip at a
block with the most work among those that are not failed.  One thing can get in the way: blocks
that repeat a transaction of a block below them cannot always be disconnected, so the blocks
that an operation disconnects must not.
-/

namespace CorgiCoin

open Std

/-! ## The assumptions -/

/-- Blocks can be read, and every step of every database transaction works. -/
structure Io.Works (io : Io) : Prop where
  reads : ∀ hash, io.reads hash = true
  readsCandidate : io.readsCandidate = true
  begins : ∀ hash, io.begins hash = true
  beginsPostponed : ∀ hash, io.beginsPostponed hash = true
  writes : ∀ hash, io.writes hash = true
  commits : ∀ hash, io.commits hash = true
  beginsIndex : io.beginsIndex = true
  writesIndex : io.writesIndex = true
  commitsIndex : io.commitsIndex = true
  writesSet : io.writesSet = true

theorem Io.works_smooth (nTime : ℤ) : (Io.smooth nTime).Works
  := ⟨fun _ => rfl, rfl, fun _ => rfl, fun _ => rfl, fun _ => rfl, fun _ => rfl, rfl, rfl, rfl, rfl⟩

namespace Node

/-- Every indexed block but the first connects on the chain below it. -/
def AllConnect (env : Env) (io : Io) (node : Node) : Prop :=
  ∀ (hash : uint256) (pindex : CBlockIndex), node.mapBlockIndex[hash]? = some pindex →
    pindex.pprev ≠ none → ConnectsOn env node.files (io.nAdjustedTime pindex.getBlockHash) pindex

/-- What an operation on blocks gets from outside. -/
def Op.io? : Op → Option Io
  | .accept io _ => some io
  | .invalidate io _ => some io
  | .reconsider io _ => some io
  | .acceptTx _ _ _ => none
  | .removeTx _ => none

/-- Nothing fails outside during an operation, and every block indexed after it connects. -/
def OpSmooth (env : Env) (node : Node) (op : Op) : Prop :=
  ∀ io, op.io? = some io → io.Works ∧ (node.step env op).AllConnect env io

/-- The blocks disconnected in switching from one entry to another repeat no transaction. -/
def SwitchFresh (env : Env) (files : BlockFiles) (best pindexNew : CBlockIndex) : Prop :=
  DisconnectsFresh env files best (pindexNew.postpone best.bnChainWork).1

/-- The blocks that an operation disconnects repeat no transaction. -/
def OpFresh (env : Env) (node : Node) : Op → Prop
  | .accept io received => ∀ best files entry pprev, node.pindexBest = some best →
    Inserts env io node received files entry pprev → node.Overtakes files (.next entry pprev) →
    SwitchFresh env files best (.next entry pprev)
  | .invalidate _ hash => ∀ best target pindex, node.pindexBest = some best →
    node.mapBlockIndex[hash]? = some pindex →
    (node.markInvalidated pindex).rollTarget best = some target →
    DisconnectsFresh env node.files best target
      ∧ SwitchFresh env node.files target ((node.markInvalidated pindex).bestCandidate target)
  | .reconsider _ hash => ∀ best pindex, node.pindexBest = some best →
    node.mapBlockIndex[hash]? = some pindex →
    SwitchFresh env node.files best ((node.unmarkChain pindex).bestCandidate best)
  | .acceptTx _ _ _ => True
  | .removeTx _ => True

/-- The tip is not failed, and no block that is not failed has more work. -/
def MostWork (node : Node) : Prop :=
  ∃ best, node.pindexBest = some best ∧ node.fFailedChain best = false
    ∧ ∀ (hash : uint256) (pindex : CBlockIndex), node.mapBlockIndex[hash]? = some pindex →
      node.fFailedChain pindex = false → pindex.bnChainWork ≤ best.bnChainWork

section Succeeds

variable {env : Env} {io : Io} {node node' : Node} {best pindex pindexNew pfork p : CBlockIndex}
  {block : CBlock}

theorem AllConnect.of_sameStore
    (h : node'.AllConnect env io) (hsame : SameStore node node') :
  node.AllConnect env io
  := by
  intro hash pindex hget hpprev
  rw [← hsame.files]
  rw [← hsame.mapBlockIndex] at hget
  apply h hash pindex hget hpprev

/-! ## Switching succeeds -/

theorem readFromDisk_of_works
    (hworks : io.Works) (h : node.files.readFromDisk env pindex = some block) :
  node.readFromDisk env io pindex = some block
  := by
  rw [readFromDisk, hworks.reads, if_pos rfl, h]

/-- A branch whose blocks repeat no transaction can be disconnected. -/
theorem exists_foldlM_disconnectStep
    (state : CTxDB × List CTransaction) (hworks : io.Works)
    (hstored : ChainStored env node.files best) (hfork : pfork ∈ best.chain)
    (hfresh : ∀ p ∈ best.branch pfork, NotRepeating env node.files p)
    (hreplays : Replays env node.files best state.1.txIndex) :
  ∃ state', (best.branch pfork).foldlM (node.disconnectStep env io) state = some state'
  := by
  induction best generalizing state with
  | first entry =>
    obtain rfl := List.mem_singleton.mp hfork
    rw [CBlockIndex.branch_self]
    exact ⟨state, rfl⟩
  | next entry pprev ih =>
    by_cases heq : pfork = .next entry pprev
    · rw [heq, CBlockIndex.branch_self]
      exact ⟨state, rfl⟩
    · rw [CBlockIndex.branch_next heq] at hfresh ⊢
      obtain ⟨hfirst, hfresh⟩ := List.forall_mem_cons.mp hfresh
      obtain ⟨⟨block, hblock⟩, hchain⟩ := id hstored
      have hread := hblock.readFromDisk_eq
      obtain ⟨index, hundo, hbelow⟩ := hreplays.disconnectTxs hstored hread hfirst
      have hindex := CBlock.map_txIndex_disconnectBlock env state.1 (.next entry pprev) block
      rw [hundo] at hindex
      obtain ⟨txdb, hdisconnect, rfl⟩ := Option.map_eq_some_iff.mp hindex
      have hstep : node.disconnectStep env io state (.next entry pprev)
          = some (txdb, state.2 ++ block.vtx.filter (fun tx => !tx.isCoinBase)) := by
        simp [disconnectStep, readFromDisk_of_works hworks hread, hworks.writes, hdisconnect]
      rcases List.mem_cons.mp hfork with hcontra | hfork
      · exact absurd hcontra heq
      · rw [List.foldlM_cons, hstep]
        apply ih _ hchain hfork hfresh hbelow

/-- Ascending blocks that connect on the chains below them can be connected. -/
theorem exists_foldlM_connectStep
    {pindexes : List CBlockIndex} (state : CTxDB × List CTransaction) (hworks : io.Works)
    (hascends : p.Ascends pindexes)
    (hstored : ∀ q ∈ pindexes, ChainStored env node.files q)
    (hconnects : ∀ q ∈ pindexes, ConnectsOn env node.files (io.nAdjustedTime q.getBlockHash) q)
    (hreplays : Replays env node.files p state.1.txIndex) :
  ∃ state', pindexes.foldlM (node.connectStep env io) state = some state'
  := by
  induction pindexes generalizing p state with
  | nil => exact ⟨state, rfl⟩
  | cons q pindexes ih =>
    obtain ⟨hq, hstored⟩ := List.forall_mem_cons.mp hstored
    obtain ⟨hconnect, hconnects⟩ := List.forall_mem_cons.mp hconnects
    obtain ⟨hpprev, hascends⟩ := hascends
    obtain ⟨-, -, block, -, -, hread, -⟩ := id hconnect
    obtain ⟨txdb, hblock⟩ :=
      exists_connectBlock_of_connectsOn hconnect hpprev hreplays hq hread node.mempool.mapTx
    have hstep : node.connectStep env io state q = some (txdb, state.2 ++ block.vtx) := by
      simp [connectStep, readFromDisk_of_works hworks hread, hworks.writes, reader, hblock]
    rw [List.foldlM_cons, hstep]
    apply ih _ hascends hstored hconnects
    cases q with
    | first entry => cases hpprev
    | next entry pprev =>
      obtain rfl := Option.some.inj hpprev
      apply hreplays.connectBlock hq hread hblock

/-- Reorganizing succeeds. -/
theorem exists_reorganize
    (hworks : io.Works) (hall : node.AllConnect env io) (hindexed : node.Indexed env)
    (h : node.AtTip env best) (htip : node.TipIs best)
    (hbest : node.mapBlockIndex[best.getBlockHash]? = some best)
    (hnew : node.mapBlockIndex[pindexNew.getBlockHash]? = some pindexNew)
    (hfresh : DisconnectsFresh env node.files best pindexNew) :
  ∃ node', node.reorganize env io pindexNew = some node'
  := by
  -- both chains go down to the first block
  obtain ⟨genesis, hgenesis, hroot⟩ := hindexed.genesis_mem_chain hbest
  obtain ⟨genesis', hgenesis', hrootNew⟩ := hindexed.genesis_mem_chain hnew
  cases Option.some.inj (hgenesis.symm.trans hgenesis')
  obtain ⟨pfork, hfork, -⟩ := CBlockIndex.exists_findFork hroot hrootNew
  obtain ⟨hforkBest, hforkNew⟩ := CBlockIndex.mem_chain_of_findFork hfork
  have hstored := hindexed.chainStored hbest
  obtain ⟨⟨txdb, vResurrect⟩, hdisconnect⟩ := exists_foldlM_disconnectStep
    (node.txdb, []) hworks hstored hforkBest (hfresh pfork hfork) h.replays
  have hdown := foldlM_disconnectStep_replays hstored hforkBest (hfresh pfork hfork) h.replays
    hdisconnect
  have hbranch : ∀ q ∈ (pindexNew.branch pfork).reverse,
      node.mapBlockIndex[q.getBlockHash]? = some q ∧ q.pprev ≠ none := by
    intro q hmem
    rw [List.mem_reverse] at hmem
    refine ⟨hindexed.mem_chain hnew (CBlockIndex.mem_chain_of_mem_branch hmem), ?_⟩
    obtain ⟨entry, pprev, rfl⟩ := CBlockIndex.exists_next_of_mem_branch hforkNew hmem
    apply Option.some_ne_none
  obtain ⟨⟨txdb', vDelete⟩, hconnect⟩ := exists_foldlM_connectStep (txdb, []) hworks
    (CBlockIndex.ascends_branch hforkNew).1
    (fun q hmem => hindexed.chainStored (hbranch q hmem).1)
    (fun q hmem => hall _ q (hbranch q hmem).1 (hbranch q hmem).2) hdown
  rw [reorganize]
  simp only [htip.pindexBest, hfork, hdisconnect, hconnect, hworks.writes, hworks.commits,
    Option.bind_eq_bind, Option.bind_some, Bool.not_true, Bool.or_false, Bool.false_eq_true,
    if_false]
  exact ⟨_, rfl⟩

/-- `SetBestChain` succeeds. -/
theorem setBestChain_of_works
    (hworks : io.Works) (hall : node.AllConnect env io) (hindexed : node.Indexed env)
    (h : node.AtTip env best) (htip : node.TipIs best)
    (hbest : node.mapBlockIndex[best.getBlockHash]? = some best)
    (hnew : node.mapBlockIndex[pindexNew.getBlockHash]? = some pindexNew)
    (hpprev : pindexNew.pprev ≠ none)
    (hread : node.files.readFromDisk env pindexNew = some block)
    (hfresh : SwitchFresh env node.files best pindexNew) :
  (node.setBestChain env io block pindexNew).2 = true
  := by
  have hloaded : node.pindexGenesisBlock.isNone = false := by
    rw [Option.isNone_eq_false_iff, Option.isSome_iff_ne_none]
    apply hindexed.loaded
  rw [setBestChain]
  simp only [hloaded, hworks.begins, Bool.not_true, Bool.false_and, Bool.false_eq_true, if_false,
    beq_iff_eq]
  split_ifs with hextends hinner
  · rfl
  · -- the block is on top of the tip
    have hbelow := hindexed.pprev_of_hashPrevBlock htip hbest hnew hpprev hread hextends
    exact absurd (setBestChainInner_of_connectsOn h hbelow (hindexed.chainStored hnew) hread
      (hworks.writes _) (hworks.commits _) (hall _ _ hnew hpprev)) hinner
  · obtain ⟨hfirst, -⟩ := pindexNew.postpone_spec best.bnChainWork
    obtain ⟨mid, hmid⟩ := exists_reorganize hworks hall hindexed h htip hbest
      (hindexed.mem_chain hnew hfirst) hfresh
    simp only [htip.pindexBest, hmid]

/-- A switch whose blocks can be disconnected is fine. -/
theorem switchOk_of_works
    (hworks : io.Works) (hall : node.AllConnect env io) (hindexed : node.Indexed env)
    (hnew : node.mapBlockIndex[pindexNew.getBlockHash]? = some pindexNew)
    (hfresh : SwitchFresh env node.files best pindexNew) :
  SwitchOk env io node.files best pindexNew
  := by
  refine ⟨hfresh, ?_⟩
  intro p hmem
  obtain ⟨hfirst, hpostponed⟩ := pindexNew.postpone_spec best.bnChainWork
  rw [← hpostponed] at hmem
  obtain ⟨entry, pprev, rfl⟩ := CBlockIndex.exists_next_of_mem_branch hfirst hmem
  refine ⟨⟨hworks.reads _, hworks.beginsPostponed _, hworks.writes _, hworks.commits _⟩, ?_⟩
  apply hall _ _ (hindexed.mem_chain hnew (CBlockIndex.mem_chain_of_mem_branch hmem))
  apply Option.some_ne_none

/-- Activating the best chain leaves the tip with the most work. -/
theorem mostWork_activateBestValidChain
    (hworks : io.Works) (hall : node.AllConnect env io) (hindexed : node.Indexed env)
    (h : node.TipAgrees env) (hbest : node.pindexBest = some best)
    (hgood : node.fFailedChain best = false)
    (hfresh : SwitchFresh env node.files best (node.bestCandidate best)) :
  (node.activateBestValidChain env io).1.MostWork
  := by
  obtain ⟨best', hbestIndexed, htip, hat⟩ := h
  obtain rfl := Option.some.inj (htip.pindexBest.symm.trans hbest)
  obtain ⟨hfound, -, hmost⟩ := node.bestCandidate_spec best'
  have hcandidate := hindexed.bestCandidate hbestIndexed
  rw [activateBestValidChain]
  simp only [hbest, hworks.readsCandidate, if_true]
  split_ifs with hsame
  · rw [hsame] at hmost
    exact ⟨best', hbest, hgood, hmost⟩
  · obtain hcontra | ⟨-, -, hgoodCandidate, hmore⟩ := hfound
    · exact absurd hcontra hsame
    · obtain ⟨entry, pprev, hnext⟩ := hindexed.exists_next_of_lt hbestIndexed hcandidate hmore
      rw [hnext] at hcandidate hgoodCandidate hmost hfresh ⊢
      obtain ⟨-, block, hstored⟩ := hindexed.next _ _ _ hcandidate
      have hread := hstored.readFromDisk_eq
      simp only [hread]
      have htrue := setBestChain_of_works hworks hall hindexed hat htip hbestIndexed hcandidate
        (Option.some_ne_none _) hread hfresh
      obtain ⟨hstore, hflags, htipNew, -⟩ :=
        setBestChain_same io hindexed.loaded (getHash_of_readFromDisk hread)
      refine ⟨_, (htipNew htrue).pindexBest, ?_, ?_⟩
      · rw [fFailedChain, hflags.failed]
        apply hgoodCandidate
      · intro hash pindex hget hgoodPindex
        rw [hstore.mapBlockIndex] at hget
        rw [fFailedChain, hflags.failed] at hgoodPindex
        apply hmost hash pindex hget hgoodPindex

/-- Rolling back succeeds, and the tip is not failed after it. -/
theorem exists_rollBack
    (hworks : io.Works) (hall : node.AllConnect env io) (hindexed : node.Indexed env)
    (h : node.TipAgrees env) (hflags : node.FlagsOk)
    (hfresh : ∀ best target, node.pindexBest = some best → node.rollTarget best = some target →
      DisconnectsFresh env node.files best target) :
  ∃ rolled target, node.rollBack env io = some rolled ∧ rolled.pindexBest = some target
    ∧ rolled.fFailedChain target = false
  := by
  obtain ⟨best, hbest, htip, hat⟩ := h
  cases hfailed : node.fFailedChain best with
  | false =>
    refine ⟨node, best, ?_, htip.pindexBest, hfailed⟩
    simp [rollBack, htip.pindexBest, hfailed]
  | true =>
    -- the first block is never failed
    obtain ⟨entry, -, hroot⟩ := hindexed.genesis_mem_chain hbest
    have hfirst := hindexed.mem_chain hbest hroot
    have hgood : node.fFailedChain (.first entry) = false := by
      rw [hflags.exact _ _ hfirst]
      simp only [CBlockIndex.invalidatedIn, CBlockIndex.chain, List.any_cons, List.any_nil,
        Bool.or_false]
      apply hflags.genesis _ _ hfirst
    obtain ⟨target, hfind⟩ : ∃ target,
        best.chain.find? (fun pindex => !node.fFailedChain pindex) = some target := by
      rw [← Option.isSome_iff_exists, List.find?_isSome]
      exact ⟨_, hroot, by rw [hgood]; rfl⟩
    have htarget : node.rollTarget best = some target := by
      rw [rollTarget, hfailed, if_pos rfl, hfind]
    obtain ⟨mid, hmid⟩ := exists_reorganize hworks hall hindexed hat htip hbest
      (hindexed.mem_chain hbest (List.mem_of_find?_eq_some hfind))
      (hfresh best target htip.pindexBest htarget)
    refine ⟨mid.setTip target.getBlockHash target, target, ?_, rfl, ?_⟩
    · simp [rollBack, htip.pindexBest, hfailed, hfind, hworks.begins, hmid]
    · have htargetGood := List.find?_some hfind
      rw [Bool.not_eq_true'] at htargetGood
      change mid.fFailedChain target = false
      rw [fFailedChain, (reorganize_same hmid).2.failed]
      apply htargetGood

end Succeeds

/-! ## Runs -/

section Runs

variable {env : Env} {io : Io} {node : Node} {pindex : CBlockIndex}

theorem mem_chain_of_rollTarget
    {best target : CBlockIndex} (h : node.rollTarget best = some target) :
  target ∈ best.chain
  := by
  rw [rollTarget] at h
  split_ifs at h
  · apply List.mem_of_find?_eq_some h
  · obtain rfl := Option.some.inj h
    apply CBlockIndex.mem_chain_self

variable {op : Op}

/-- The switches of an operation are fine when everything works and the blocks it disconnects
repeat no transaction. -/
theorem opOk_of_smooth
    (hindexed : node.Indexed env) (hsmooth : node.OpSmooth env op) (hfresh : node.OpFresh env op) :
  node.OpOk env op
  := by
  cases op with
  | accept io received =>
    obtain ⟨hworks, hall⟩ := hsmooth io rfl
    intro best files entry pprev hbest hinserts hovertakes
    apply switchOk_of_works hworks (hall.of_sameStore hinserts.sameStore) hinserts.indexed
      (getElem?_insertEntry_self _ _)
    apply hfresh best files entry pprev hbest hinserts hovertakes
  | invalidate io hash =>
    obtain ⟨hworks, hall⟩ := hsmooth io rfl
    intro best target pindex hbest hpindex htarget
    obtain ⟨hroll, hswitch⟩ := hfresh best target pindex hbest hpindex htarget
    refine ⟨hroll, ?_⟩
    have hmarks : OnlyMarks node (node.markInvalidated pindex) :=
      onlyMarks_mk node _ _ node.txdb.vInvalidatedBlocks
    obtain ⟨best', htip, hbestIndexed⟩ := hindexed.tip
    obtain rfl := Option.some.inj (htip.pindexBest.symm.trans hbest)
    have htargetIndexed := hindexed.mem_chain hbestIndexed (mem_chain_of_rollTarget htarget)
    have hcandidate := (hindexed.of_onlyMarks hmarks).bestCandidate htargetIndexed
    simp only [step, hpindex] at hall
    apply switchOk_of_works hworks (hall.of_sameStore (invalidateBlock_store io hindexed pindex))
      hindexed hcandidate hswitch
  | reconsider io hash =>
    obtain ⟨hworks, hall⟩ := hsmooth io rfl
    intro best pindex hbest hpindex
    have hmarks : OnlyMarks node (node.unmarkChain pindex) :=
      onlyMarks_mk node _ _ node.txdb.vInvalidatedBlocks
    obtain ⟨best', htip, hbestIndexed⟩ := hindexed.tip
    obtain rfl := Option.some.inj (htip.pindexBest.symm.trans hbest)
    have hcandidate := (hindexed.of_onlyMarks hmarks).bestCandidate hbestIndexed
    simp only [step, hpindex] at hall
    apply switchOk_of_works hworks (hall.of_sameStore (reconsiderBlock_store io hindexed pindex))
      hindexed hcandidate (hfresh best' pindex hbest hpindex)
  | acceptTx tx fCheckInputs fRateLimited => trivial
  | removeTx tx => trivial

/-- The flags of the other entries stay when an entry is inserted. -/
theorem fFailedChain_insertEntry_of_ne
    (files : BlockFiles) {pindexNew p : CBlockIndex} (h : pindexNew.getBlockHash ≠ p.getBlockHash) :
  ((node.setFiles files).insertEntry pindexNew).fFailedChain p = node.fFailedChain p
  := by
  change ((node.setFiles files).setFlag node.failed pindexNew).contains p.getBlockHash = _
  rw [contains_setFlag, if_neg h]
  rfl

theorem MostWork.accept
    (h : node.MostWork) (hindexed : node.Indexed env) (hagrees : node.TipAgrees env)
    {received : ReceivedBlock} (hcheck : received.block.checkBlock env io.nCheckTime = true)
    (hsmooth : node.OpSmooth env (.accept io received))
    (hfresh : node.OpFresh env (.accept io received)) :
  (node.acceptBlock env io received.block).1.MostWork
  := by
  obtain ⟨hworks, hall⟩ := hsmooth io rfl
  obtain heq | ⟨files, entry, pprev, hinserts, halternatives⟩ :=
    accept_cases hindexed received hcheck
  · rw [heq]
    apply h
  · obtain ⟨best, hbest, hgood, hmost⟩ := h
    obtain ⟨best', hbestIndexed, htip, -⟩ := id hagrees
    obtain rfl := Option.some.inj (htip.pindexBest.symm.trans hbest)
    set pindexNew := CBlockIndex.next entry pprev with hpindexNew
    set inserted := (node.setFiles files).insertEntry pindexNew with hinserted
    have hne : ∀ (hash : uint256) (p : CBlockIndex), node.mapBlockIndex[hash]? = some p →
        pindexNew.getBlockHash ≠ p.getBlockHash := by
      intro hash p hget heq
      have hself := hindexed.self hget
      have hnew := hinserts.new
      rw [← heq] at hself
      exact Option.some_ne_none p (hself.symm.trans hnew)
    -- an entry of the new index is the new one or an old one with its old flag
    have hentries : ∀ (hash : uint256) (p : CBlockIndex), inserted.mapBlockIndex[hash]? = some p →
        inserted.fFailedChain p = false →
        p = pindexNew ∨ p.bnChainWork ≤ best'.bnChainWork := by
      intro hash p hget hgoodp
      change (node.mapBlockIndex.insert pindexNew.getBlockHash pindexNew)[hash]? = some p at hget
      rw [TreeMap.getElem?_insert_ite] at hget
      split_ifs at hget
      · left
        exact (Option.some.inj hget).symm
      · right
        rw [hinserted, fFailedChain_insertEntry_of_ne files (hne hash p hget)] at hgoodp
        apply hmost hash p hget hgoodp
    have hwork := htip.bnBestChainWork
    obtain ⟨hindex, -⟩ | ⟨hnot, heq⟩ | ⟨hovertakes, heq⟩ := halternatives
    · rw [hworks.beginsIndex, hworks.commitsIndex] at hindex
      cases hindex
    · rw [heq]
      refine ⟨best', hbest, ?_, ?_⟩
      · change inserted.fFailedChain best' = false
        rw [hinserted, fFailedChain_insertEntry_of_ne files (hne _ _ hbestIndexed)]
        apply hgood
      · intro hash p hget hgoodp
        rcases hentries hash p hget hgoodp with rfl | hle
        · by_contra hmore
          apply hnot
          refine ⟨?_, hgoodp⟩
          rw [hwork]
          omega
        · apply hle
    · rw [heq]
      have hwritten := hinserts.indexed.writeEntry io pindexNew
      obtain ⟨hstore, hflags, htipNew, -⟩ := setBestChain_same io hwritten.loaded hinserts.hash_eq
      obtain ⟨best, hbestWritten, htipWritten, hatWritten⟩ :=
        (hagrees.insertEntry hindexed hinserts).writeEntry io pindexNew
      obtain rfl := Option.some.inj (htip.pindexBest.symm.trans htipWritten.pindexBest)
      have hallWritten : (inserted.writeEntry io pindexNew).AllConnect env io := by
        have hstoreAfter := hinserts.sameStore
        apply hall.of_sameStore ⟨hstoreAfter.1, hstoreAfter.2, hstoreAfter.3⟩
      have htrue := setBestChain_of_works hworks hallWritten hwritten hatWritten htipWritten
        hbestWritten (getElem?_insertEntry_self _ _) (Option.some_ne_none _)
        hinserts.stored.readFromDisk_eq (hfresh best' files entry pprev hbest hinserts hovertakes)
      refine ⟨pindexNew, (htipNew htrue).pindexBest, ?_, ?_⟩
      · rw [fFailedChain, hflags.failed]
        apply hovertakes.2
      · intro hash p hget hgoodp
        rw [hstore.mapBlockIndex] at hget
        rw [fFailedChain, hflags.failed] at hgoodp
        have hmore := hovertakes.1
        rw [hwork] at hmore
        rcases hentries hash p hget hgoodp with rfl | hle
        · apply le_rfl
        · omega

theorem MostWork.invalidate
    (h : node.MostWork) (hindexed : node.Indexed env) (hagrees : node.TipAgrees env)
    (hflags : node.FlagsOk) {hash : uint256} (hpindex : node.mapBlockIndex[hash]? = some pindex)
    (hsmooth : node.OpSmooth env (.invalidate io hash))
    (hfresh : node.OpFresh env (.invalidate io hash)) :
  (node.invalidateBlock env io pindex).1.MostWork
  := by
  obtain ⟨hworks, hall⟩ := hsmooth io rfl
  simp only [step, hpindex] at hall
  replace hall := hall.of_sameStore (invalidateBlock_store io hindexed pindex)
  rw [Node.invalidateBlock]
  split
  · apply h
  · rename_i pprev hpprev
    set marked := (node.markInvalidated pindex).writeInvalidatedSet with hmarked
    have hmarks : OnlyMarks node marked := onlyMarks_mk node _ _ _
    have hmarkedIndexed := hindexed.of_onlyMarks hmarks
    have hmarkedAgrees := hagrees.of_onlyMarks hmarks
    have hmarkedFlags : marked.FlagsOk :=
      (hflags.markInvalidated hindexed hpindex hpprev).of_same rfl ⟨rfl, rfl⟩
    have hmarkedAll : marked.AllConnect env io := hall
    obtain ⟨best, -, htip, -⟩ := hagrees
    have hmarkedTip := hmarks.tip best htip
    have hrollFresh : ∀ best' target, marked.pindexBest = some best' →
        marked.rollTarget best' = some target → DisconnectsFresh env marked.files best' target := by
      intro best' target hbest' htarget
      apply (hfresh best' target pindex hbest' hpindex htarget).1
    obtain ⟨rolled, target, hrolled, htarget, hgood⟩ := exists_rollBack hworks hmarkedAll
      hmarkedIndexed hmarkedAgrees hmarkedFlags hrollFresh
    obtain ⟨hrolledAgrees, hrollTarget⟩ :=
      hmarkedAgrees.rollBack hmarkedIndexed hrollFresh hrolled
    obtain ⟨hstore, hsame⟩ := rollBack_same hrolled
    simp only [hworks.writesSet, Bool.not_true, Bool.false_eq_true, if_false, ← hmarked, hrolled]
    have hroll := hrollTarget best target hmarkedTip.pindexBest htarget
    have hrolledAll : rolled.AllConnect env io := by
      intro hash' p hget hp
      rw [hstore.mapBlockIndex] at hget
      rw [hstore.files]
      apply hmarkedAll hash' p hget hp
    apply mostWork_activateBestValidChain hworks hrolledAll (hmarkedIndexed.rollBack hrolled)
      hrolledAgrees htarget hgood
    rw [bestCandidate_congr hstore.mapBlockIndex hsame.failed, hstore.files]
    apply (hfresh best target pindex htip.pindexBest hpindex hroll).2

theorem MostWork.reconsider
    (h : node.MostWork) (hindexed : node.Indexed env) (hagrees : node.TipAgrees env)
    (hflags : node.FlagsOk) {hash : uint256} (hpindex : node.mapBlockIndex[hash]? = some pindex)
    (hsmooth : node.OpSmooth env (.reconsider io hash))
    (hfresh : node.OpFresh env (.reconsider io hash)) :
  (node.reconsiderBlock env io pindex).1.MostWork
  := by
  obtain ⟨hworks, hall⟩ := hsmooth io rfl
  simp only [step, hpindex] at hall
  replace hall := hall.of_sameStore (reconsiderBlock_store io hindexed pindex)
  obtain ⟨best, hbest, hgood, -⟩ := h
  obtain ⟨best', hbestIndexed, htip, -⟩ := id hagrees
  obtain rfl := Option.some.inj (htip.pindexBest.symm.trans hbest)
  have hmarks : OnlyMarks node (node.unmarkChain pindex).writeInvalidatedSet :=
    onlyMarks_mk node _ _ _
  rw [Node.reconsiderBlock]
  simp only [hworks.writesSet, Bool.not_true, Bool.false_eq_true, if_false]
  have hallMarked : (node.unmarkChain pindex).writeInvalidatedSet.AllConnect env io := hall
  apply mostWork_activateBestValidChain hworks hallMarked (hindexed.of_onlyMarks hmarks)
    (hagrees.of_onlyMarks hmarks) (hmarks.tip best' htip).pindexBest _
    (hfresh best' pindex hbest hpindex)
  -- the tip was not failed, and fewer blocks are invalidated now
  have hunmarked : (node.unmarkChain pindex).FlagsOk :=
    hindexed.flagsOk_of_subset hflags.genesis rfl (fun _ hcontains => contains_foldl_erase hcontains)
  change (node.unmarkChain pindex).fFailedChain best' = false
  rw [hunmarked.exact _ _ hbestIndexed]
  rw [hflags.exact _ _ hbestIndexed, CBlockIndex.invalidatedIn, List.any_eq_false] at hgood
  rw [CBlockIndex.invalidatedIn, List.any_eq_false]
  intro p hp hcontains
  exact hgood p hp (contains_foldl_erase hcontains)

theorem MostWork.step
    (h : node.MostWork) (hindexed : node.Indexed env) (hagrees : node.TipAgrees env)
    (hflags : node.FlagsOk) (hsmooth : node.OpSmooth env op) (hfresh : node.OpFresh env op) :
  (node.step env op).MostWork
  := by
  cases op with
  | accept io received =>
    rw [Node.step]
    split_ifs with hcheck
    · apply h.accept hindexed hagrees hcheck hsmooth hfresh
    · apply h
  | invalidate io hash =>
    simp only [Node.step]
    split
    · apply h
    · rename_i pindex hpindex
      apply h.invalidate hindexed hagrees hflags hpindex hsmooth hfresh
  | reconsider io hash =>
    simp only [Node.step]
    split
    · apply h
    · rename_i pindex hpindex
      apply h.reconsider hindexed hagrees hflags hpindex hsmooth hfresh
  | acceptTx tx fCheckInputs fRateLimited =>
    obtain ⟨mempool, heq⟩ := node.exists_acceptTx env tx fCheckInputs fRateLimited
    rw [Node.step, heq]
    apply h
  | removeTx tx => apply h

/-- What a smooth run keeps. -/
structure WorkInv (env : Env) (node : Node) : Prop where
  indexed : node.Indexed env
  agrees : node.TipAgrees env
  flags : node.FlagsOk
  mostWork : node.MostWork

theorem WorkInv.step
    (h : node.WorkInv env) (hsmooth : node.OpSmooth env op) (hfresh : node.OpFresh env op) :
  (node.step env op).WorkInv env
  := by
  constructor
  · apply h.indexed.step
  · apply h.agrees.step h.indexed op (opOk_of_smooth h.indexed hsmooth hfresh)
  · apply h.flags.step h.indexed
  · apply h.mostWork.step h.indexed h.agrees h.flags hsmooth hfresh

theorem Started.workInv
    {entry : BlockEntry} (h : Started env node entry) :
  node.WorkInv env
  := by
  refine ⟨h.indexed, h.tipAgrees, h.flagsOk, .first entry, h.tip.pindexBest, h.failed _, ?_⟩
  intro hash pindex hget _
  obtain ⟨-, rfl⟩ := (h.mapBlockIndex hash pindex).mp hget
  apply le_rfl

/-- After every run in which nothing fails outside, every indexed block connects and the blocks
disconnected repeat no transaction, the tip is not failed and has the most work among the blocks
that are not failed, and the flags are exact. -/
theorem tip_most_work
    (env : Env) (io : Io) (start : Node) (ops : List Op) (hload : load env io = some start)
    (hsmooth : Transition.Along (step env) (OpSmooth env) start ops)
    (hfresh : Transition.Along (step env) (OpFresh env) start ops) :
  (Transition.run (step env) start ops).MostWork
    ∧ (Transition.run (step env) start ops).FlagsExact
  := by
  obtain ⟨entry, hstarted⟩ := started_of_load hload
  have hinv : (Transition.run (step env) start ops).WorkInv env :=
    Transition.run_invariant (fun _ _ hok h => h.step hok.1 hok.2) (hsmooth.and hfresh)
      hstarted.workInv
  exact ⟨hinv.mostWork, hinv.flags.exact⟩

end Runs

/-! ### Extending the tip

A block that is accepted on top of the tip and becomes the tip connects, so runs of such blocks
meet the assumptions. -/

section Extend

variable {env : Env} {io : Io} {node node' : Node} {received : ReceivedBlock}

/-- Accept a block on top of the tip that becomes the tip. -/
def extendTip (env : Env) (io : Io) (node : Node) (received : ReceivedBlock) : Option Node :=
  let node' := node.step env (.accept io received)
  if received.block.hashPrevBlock = node.hashBestChain
      ∧ node'.hashBestChain = received.block.getHash env then some node'
  else none

/-- The tip and the database agree, and all blocks connect. -/
structure ExtendInv (env : Env) (io : Io) (node : Node) : Prop where
  indexed : node.Indexed env
  agrees : node.TipAgrees env
  allConnect : node.AllConnect env io

theorem SameStore.symm
    (h : SameStore node node') :
  SameStore node' node
  := ⟨h.1.symm, h.2.symm, h.3.symm⟩

variable {files : BlockFiles}

theorem connectsOn_mono
    {files' : BlockFiles} {t : ℤ} {pindex : CBlockIndex} (h : ConnectsOn env files t pindex)
    (hstored : ChainStored env files pindex) (hext : files.Extends files') :
  ConnectsOn env files' t pindex
  := by
  obtain ⟨pprev, index, block, hpprev, hreplays, hread, hsome⟩ := h
  cases pindex with
  | first entry => cases hpprev
  | next entry below =>
    obtain rfl := Option.some.inj hpprev
    obtain ⟨⟨block', hblock⟩, hchain⟩ := hstored
    obtain rfl : block' = block := Option.some.inj (hblock.readFromDisk_eq.symm.trans hread)
    refine ⟨below, index, block', rfl, hreplays.mono hchain hext,
      (hblock.mono hext).readFromDisk_eq, ?_⟩
    rw [← hblock.connectIndex_congr hext (hreplays.facts hchain).located]
    apply hsome

variable {entry : BlockEntry}

/-- A block on top of the tip has its entry on top of the entry of the tip. -/
theorem Inserts.pprev_eq
    {best pprev : CBlockIndex}
    (h : Inserts env io node received files entry pprev) (htip : node.TipIs best)
    (hbest : node.mapBlockIndex[best.getBlockHash]? = some best)
    (hextends : received.block.hashPrevBlock = node.hashBestChain) :
  pprev = best
  := by
  have hpprev := h.pprev_indexed
  rw [← h.stored.prev_eq, hextends, htip.hashBestChain, hbest] at hpprev
  exact (Option.some.inj hpprev).symm

/-- Putting a block on top of the tip disconnects nothing. -/
theorem opFresh_of_extends
    (hindexed : node.Indexed env) (hextends : received.block.hashPrevBlock = node.hashBestChain) :
  node.OpFresh env (.accept io received)
  := by
  intro best files entry pprev hbest hinserts _
  obtain ⟨best', htip, hbestIndexed⟩ := hindexed.tip
  obtain rfl := Option.some.inj (htip.pindexBest.symm.trans hbest)
  obtain rfl := hinserts.pprev_eq htip hbestIndexed hextends
  have hok : SwitchOk env io files pprev (.next entry pprev) := switchOk_of_pprev rfl
  apply hok.fresh

/-- The block of an entry put on top of the tip connects. -/
theorem connectsOn_of_extends
    {pprev : CBlockIndex}
    (h : node.ExtendInv env io) (hinserts : Inserts env io node received files entry pprev)
    (hextends : received.block.hashPrevBlock = node.hashBestChain)
    (hmoved : (((node.setFiles files).insertEntry (.next entry pprev)).writeEntry io
      (.next entry pprev)).setBestChain env io received.block (.next entry pprev) |>.1.hashBestChain
        ≠ node.hashBestChain) :
  ConnectsOn env files (io.nAdjustedTime entry.hash) (.next entry pprev)
  := by
  set pindexNew := CBlockIndex.next entry pprev with hpindexNew
  set written := ((node.setFiles files).insertEntry pindexNew).writeEntry io pindexNew
    with hwritten
  have hindexed : written.Indexed env := hinserts.indexed.writeEntry io pindexNew
  obtain ⟨best, -, htip, hat⟩ :=
    (h.agrees.insertEntry h.indexed hinserts).writeEntry io pindexNew
  obtain ⟨best', htip', hbest'⟩ := h.indexed.tip
  obtain rfl := Option.some.inj (htip'.pindexBest.symm.trans htip.pindexBest)
  obtain rfl := hinserts.pprev_eq htip' hbest' hextends
  obtain (heq | heq) | ⟨-, hinner, heq⟩ | ⟨-, -, -, hne, -⟩ :=
    setBestChain_cases env io hindexed.loaded received.block pindexNew
  · rw [heq] at hmoved
    exact absurd rfl hmoved
  · rw [heq] at hmoved
    exact absurd (((written.invalidChainFound_same pindexNew).2.2.2.2.2 pprev htip).hashBestChain.trans
      htip'.hashBestChain.symm) hmoved
  · obtain ⟨txdb, hconnect, -⟩ | hfalse | hfalse :=
      setBestChainInner_cases env io written received.block pindexNew
    · have hchain : ChainStored env files pprev := (hindexed.chainStored
        (hindexed.self (getElem?_insertEntry_self _ pindexNew))).2
      rw [hinserts.hash_eq] at hconnect
      have hcongr := hinserts.stored.connectBlock_congr (fun _ _ _ hholds => hholds)
        (hat.replays.facts hchain).located (io.nAdjustedTime entry.hash) written.mempool.mapTx ∅
      refine ⟨pprev, written.txdb.txIndex, received.block, rfl, hat.replays,
        hinserts.stored.readFromDisk_eq, ?_⟩
      have hindex := CBlock.connectIndex_of_connectBlock (hcongr.symm.trans hconnect)
      rw [hindex]
      rfl
    · rw [hfalse] at hinner
      cases hinner
    · rw [hfalse] at hinner
      cases hinner
  · exact absurd hextends hne

/-- Extending the tip keeps the assumptions. -/
theorem ExtendInv.extendTip
    (h : node.ExtendInv env io) (hworks : io.Works)
    (hextend : node.extendTip env io received = some node') :
  node' = node.step env (.accept io received) ∧ node.OpSmooth env (.accept io received)
    ∧ node.OpFresh env (.accept io received) ∧ node'.ExtendInv env io
  := by
  rw [Node.extendTip] at hextend
  split_ifs at hextend with hcondition
  obtain rfl := Option.some.inj hextend
  obtain ⟨hextends, hmoved⟩ := hcondition
  have hfresh : node.OpFresh env (.accept io received) := opFresh_of_extends h.indexed hextends
  have hall : (node.step env (.accept io received)).AllConnect env io := by
    by_cases hcheck : received.block.checkBlock env io.nCheckTime = true
    · obtain heq | ⟨files, entry, pprev, hinserts, halternatives⟩ :=
        accept_cases h.indexed received hcheck
      · rw [step, if_pos hcheck, heq]
        apply h.allConnect
      · -- the tip moves, because the new block was not indexed before
        have hne : (node.step env (.accept io received)).hashBestChain ≠ node.hashBestChain := by
          obtain ⟨best, htip, hbest⟩ := h.indexed.tip
          intro heq
          rw [hmoved, hinserts.hash_eq, htip.hashBestChain] at heq
          rw [← heq] at hbest
          exact Option.some_ne_none _ (hbest.symm.trans hinserts.new)
        have hstore := hinserts.sameStore
        rw [step, if_pos hcheck] at hne
        obtain ⟨-, heq⟩ | ⟨-, heq⟩ | ⟨-, heq⟩ := halternatives
        · rw [heq] at hne
          exact absurd rfl hne
        · rw [heq] at hne
          exact absurd rfl hne
        · rw [heq] at hne
          have hnew := connectsOn_of_extends h hinserts hextends hne
          apply AllConnect.of_sameStore _ hstore.symm
          intro hash pindex hget hpprev
          change (node.mapBlockIndex.insert entry.hash (.next entry pprev))[hash]? = some pindex
            at hget
          rw [TreeMap.getElem?_insert_ite] at hget
          split_ifs at hget
          · obtain rfl := Option.some.inj hget
            apply hnew
          · apply connectsOn_mono (h.allConnect hash pindex hget hpprev)
              (h.indexed.chainStored (h.indexed.self hget)) hinserts.files_extends
    · rw [step, if_neg hcheck]
      apply h.allConnect
  have hsmooth : node.OpSmooth env (.accept io received) := by
    intro io' hio
    obtain rfl := Option.some.inj hio
    exact ⟨hworks, hall⟩
  exact ⟨rfl, hsmooth, hfresh, h.indexed.step _,
    h.agrees.step h.indexed _ (opOk_of_smooth h.indexed hsmooth hfresh), hall⟩

/-- A run that extends the tip with one block after the other. -/
theorem ExtendInv.foldlM_extendTip
    {blocks : List ReceivedBlock} (h : node.ExtendInv env io) (hworks : io.Works)
    (hextend : blocks.foldlM (Node.extendTip env io) node = some node') :
  Transition.run (step env) node (blocks.map (.accept io)) = node'
    ∧ Transition.Along (step env) (OpSmooth env) node (blocks.map (.accept io))
    ∧ Transition.Along (step env) (OpFresh env) node (blocks.map (.accept io))
    ∧ node'.ExtendInv env io
  := by
  induction blocks generalizing node with
  | nil =>
    obtain rfl := Option.some.inj hextend
    exact ⟨rfl, trivial, trivial, h⟩
  | cons received blocks ih =>
    rw [List.foldlM_cons, Option.bind_eq_bind, Option.bind_eq_some_iff] at hextend
    obtain ⟨mid, hmid, hrest⟩ := hextend
    obtain ⟨rfl, hsmooth, hfresh, hinv⟩ := h.extendTip hworks hmid
    obtain ⟨hrun, hsmoothRest, hfreshRest, hinvRest⟩ := ih hinv hrest
    exact ⟨hrun, ⟨hsmooth, hsmoothRest⟩, ⟨hfresh, hfreshRest⟩, hinvRest⟩

theorem Started.extendInv
    (h : Started env node entry) (io : Io) :
  node.ExtendInv env io
  := by
  refine ⟨h.indexed, h.tipAgrees, ?_⟩
  intro hash pindex hget hpprev
  obtain ⟨-, rfl⟩ := (h.mapBlockIndex hash pindex).mp hget
  exact absurd rfl hpprev

/-- Invalidating a block is smooth when everything works. -/
theorem ExtendInv.opSmooth_invalidate
    (h : node.ExtendInv env io) (hworks : io.Works) (hash : uint256) :
  node.OpSmooth env (.invalidate io hash)
  := by
  intro io' hio
  obtain rfl := Option.some.inj hio
  refine ⟨hworks, ?_⟩
  simp only [step]
  split
  · apply h.allConnect
  · apply h.allConnect.of_sameStore (invalidateBlock_store io h.indexed _).symm

/-- Blocks are accepted, and then one is invalidated. -/
def extendOps (io : Io) (blocks : List ReceivedBlock) (hash : uint256) : List Op :=
  blocks.map (.accept io) ++ [.invalidate io hash]

/-- Extending the tip and then invalidating a block is smooth. -/
theorem ExtendInv.extendOps
    {blocks : List ReceivedBlock} (h : node.ExtendInv env io) (hworks : io.Works)
    (hextend : blocks.foldlM (Node.extendTip env io) node = some node') (hash : uint256) :
  Transition.run (step env) node (Node.extendOps io blocks hash)
      = node'.step env (.invalidate io hash)
    ∧ Transition.Along (step env) (OpSmooth env) node (Node.extendOps io blocks hash)
    ∧ (node'.OpFresh env (.invalidate io hash) →
      Transition.Along (step env) (OpFresh env) node (Node.extendOps io blocks hash))
  := by
  obtain ⟨hrun, hsmooth, hfresh, hinv⟩ := h.foldlM_extendTip hworks hextend
  rw [Node.extendOps, Transition.run_append, Transition.along_append, Transition.along_append, hrun]
  exact ⟨rfl, ⟨hsmooth, hinv.opSmooth_invalidate hworks hash, trivial⟩,
    fun hlast => ⟨hfresh, hlast, trivial⟩⟩

end Extend

variable {env : Env}

/-- Blocks of a chain as high as one repeat nothing: there is only the first block below. -/
theorem disconnectsFresh_of_nHeight
    {files : BlockFiles} {best pindexNew : CBlockIndex} (h : best.nHeight ≤ 1) :
  DisconnectsFresh env files best pindexNew
  := by
  intro pfork _ p hp block _ q hq block' hpprev
  have hle := CBlockIndex.nHeight_le_of_mem_chain (CBlockIndex.mem_chain_of_mem_branch hp)
  cases p with
  | first entry => cases hq
  | next entry pprev =>
    have hlow := CBlockIndex.nHeight_le_of_mem_chain hq
    cases q with
    | first entry' => exact absurd rfl hpprev
    | next entry' pprev' =>
      rw [CBlockIndex.nHeight] at hle hlow
      omega

/-- Invalidating a block of a chain as high as one disconnects no repeated transaction. -/
theorem opFresh_invalidate_of_nBestHeight
    {node : Node} (hindexed : node.Indexed env) (h : node.nBestHeight ≤ 1) (io : Io) (hash : uint256) :
  node.OpFresh env (.invalidate io hash)
  := by
  intro best target pindex hbest _ htarget
  obtain ⟨best', htip, -⟩ := hindexed.tip
  obtain rfl := Option.some.inj (htip.pindexBest.symm.trans hbest)
  have hheight : best'.nHeight ≤ 1 := by
    rw [htip.nBestHeight] at h
    omega
  have hlow := CBlockIndex.nHeight_le_of_mem_chain (mem_chain_of_rollTarget htarget)
  exact ⟨disconnectsFresh_of_nHeight hheight, disconnectsFresh_of_nHeight (hlow.trans hheight)⟩

/-- Accepting and invalidating the lower block leaves the node with the most work, at the first
block. -/
theorem lowBlock_most_work :
  ∃ start, load sampleEnv sampleIo = some start ∧
    let node := Transition.run (step sampleEnv) start
      (extendOps sampleIo [lowBlock] (lowBlock.block.getHash sampleEnv))
    node.nBestHeight = 0 ∧ node.MostWork ∧ node.FlagsExact
  := by
  have heval : (load sampleEnv sampleIo).bind (fun start =>
      ([lowBlock].foldlM (extendTip sampleEnv sampleIo) start).map (fun node => (node.nBestHeight,
        (node.step sampleEnv (.invalidate sampleIo (lowBlock.block.getHash sampleEnv))).nBestHeight)))
      = some (1, 0) := by
    decide +kernel
  obtain ⟨start, hload, hvalue⟩ := Option.bind_eq_some_iff.mp heval
  obtain ⟨mid, hextend, hheights⟩ := Option.map_eq_some_iff.mp hvalue
  obtain ⟨hmid, hend⟩ := Prod.mk.inj hheights
  obtain ⟨genesis, hstarted⟩ := started_of_load hload
  have hworks : sampleIo.Works := Io.works_smooth 1774999999
  have hinv := hstarted.extendInv sampleIo
  obtain ⟨hrun, hsmooth, hfresh⟩ :=
    hinv.extendOps hworks hextend (lowBlock.block.getHash sampleEnv)
  have hindexed := (hinv.foldlM_extendTip hworks hextend).2.2.2.indexed
  have hlast := opFresh_invalidate_of_nBestHeight hindexed hmid.le sampleIo
    (lowBlock.block.getHash sampleEnv)
  have hwork := tip_most_work sampleEnv sampleIo start
    (extendOps sampleIo [lowBlock] (lowBlock.block.getHash sampleEnv)) hload hsmooth (hfresh hlast)
  refine ⟨start, hload, ?_, hwork⟩
  rw [hrun]
  apply hend

/-! ### A repeated coinbase -/

/-- A block as a message brings it, when it is one a message can bring. -/
def receive (block : CBlock) : Option ReceivedBlock :=
  if h : block.Fits ∧ block.AuxPowPresent ∧ (block.bytes SER_NETWORK).length ≤ MAX_SIZE then
    some ⟨block, h.1, h.2.1, h.2.2⟩
  else none

/-- A number of blocks on top of each other, the first with the transactions of the `i`-th block
of the chain with a repeated coinbase. -/
def repeatingRow : ℕ → ℕ → uint256 → List CBlock
  | 0, _, _ => []
  | n + 1, i, hash =>
    let block := CBlock.assemble sampleEnv hash (UInt32.ofNat (1774996802 + 60 * i))
      (repeatingVtx i)
    block :: repeatingRow n (i + 1) (block.getHash sampleEnv)

/-- The blocks on top of the first one. -/
def repeatingBlocks : List ReceivedBlock :=
  (repeatingRow 32 1 (hashGenesisBlock sampleEnv)).filterMap receive

/-- Accept blocks on top of the tip, invalidate the last but one, and see whether the tip is
failed then. -/
def tipFailed (env : Env) (io : Io) (start : Node) (blocks : List ReceivedBlock) :
    Option Bool := do
  let node ← blocks.foldlM (extendTip env io) start
  let pindex ← node.pindexBest.bind CBlockIndex.pprev
  let node := node.step env (.invalidate io pindex.getBlockHash)
  let best ← node.pindexBest
  return node.fFailedChain best

theorem exists_of_tipFailed
    {io : Io} {blocks : List ReceivedBlock} (hworks : io.Works)
    (h : (load env io).bind (fun start => tipFailed env io start blocks) = some true) :
  ∃ start hash, load env io = some start
    ∧ Transition.Along (step env) (OpSmooth env) start (extendOps io blocks hash)
    ∧ ¬(Transition.run (step env) start (extendOps io blocks hash)).MostWork
  := by
  obtain ⟨start, hload, h⟩ := Option.bind_eq_some_iff.mp h
  simp only [tipFailed, Option.bind_eq_bind, Option.bind_eq_some_iff] at h
  obtain ⟨node, hextend, pindex, -, best, hbest, hfailed⟩ := h
  obtain ⟨genesis, hstarted⟩ := started_of_load hload
  obtain ⟨hrun, hsmooth, -⟩ :=
    (hstarted.extendInv io).extendOps hworks hextend pindex.getBlockHash
  refine ⟨start, pindex.getBlockHash, hload, hsmooth, ?_⟩
  rw [hrun]
  rintro ⟨best', hbest', hgood, -⟩
  obtain rfl := Option.some.inj (hbest.symm.trans hbest')
  rw [Option.some.inj hfailed] at hgood
  cases hgood

/-- Nothing fails outside and all blocks connect, but after the last block but one, which spends
the coinbase that the last one repeats, is invalidated, the chain is not rolled back: the tip is
failed. -/
theorem repeatingBlocks_tip_failed :
  ∃ start hash, load sampleEnv sampleIo = some start
    ∧ Transition.Along (step sampleEnv) (OpSmooth sampleEnv) start
      (extendOps sampleIo repeatingBlocks hash)
    ∧ ¬(Transition.run (step sampleEnv) start (extendOps sampleIo repeatingBlocks hash)).MostWork
  := by
  apply exists_of_tipFailed (Io.works_smooth 1774999999)
  decide +kernel

end Node

end CorgiCoin
