import CorgiCoin.NodeIndex

/-!
# The tip and the database

`SetBestChain` moves the tip in memory to the block it is called for, whether or not all blocks
on the way to it were connected.  `SwitchOk` is the condition under which they were: the blocks
postponed until after the reorganization can be read and connected, and the blocks
disconnected in it repeat no transaction of the blocks below them.  In a run all whose switches
meet it, the database has the hash of the tip and the index of its chain.
-/

namespace CorgiCoin

open Std

/-! ## Ascending entries -/

namespace CBlockIndex

/-- Entries on top of each other, the first on top of a given one. -/
def Ascends : CBlockIndex → List CBlockIndex → Prop
  | _, [] => True
  | p, q :: rest => q.pprev = some p ∧ Ascends q rest

theorem ascends_append
    {p q : CBlockIndex} {pindexes : List CBlockIndex} (h : Ascends p pindexes)
    (hq : q.pprev = some (pindexes.getLastD p)) :
  Ascends p (pindexes ++ [q])
  := by
  induction pindexes generalizing p with
  | nil => exact ⟨hq, trivial⟩
  | cons r rest ih =>
    rw [List.getLastD_cons] at hq
    exact ⟨h.1, ih h.2 hq⟩

/-- A branch read upwards leads from the fork to its end. -/
theorem ascends_branch
    {pfork pindex : CBlockIndex} (h : pfork ∈ pindex.chain) :
  Ascends pfork (pindex.branch pfork).reverse
    ∧ (pindex.branch pfork).reverse.getLastD pfork = pindex
  := by
  induction pindex with
  | first entry =>
    obtain rfl := List.mem_singleton.mp h
    rw [branch_self]
    exact ⟨trivial, rfl⟩
  | next entry pprev ih =>
    by_cases heq : pfork = next entry pprev
    · rw [heq, branch_self]
      exact ⟨trivial, rfl⟩
    · rcases List.mem_cons.mp h with hcontra | h
      · exact absurd hcontra heq
      · obtain ⟨hascends, hlast⟩ := ih h
        rw [branch_next heq, List.reverse_cons]
        constructor
        · apply ascends_append hascends
          rw [hlast]
          rfl
        · simp

end CBlockIndex

/-! ## The condition -/

/-- The block of an entry connects on top of the chain below it at a time. -/
def ConnectsOn (env : Env) (files : BlockFiles) (nAdjustedTime : ℤ) (pindex : CBlockIndex) : Prop :=
  ∃ pprev index block, pindex.pprev = some pprev ∧ Replays env files pprev index
    ∧ files.readFromDisk env pindex = some block
    ∧ (block.connectIndex env ⟨files.readTx, ∅⟩ nAdjustedTime index pindex).isSome = true

/-- The blocks disconnected in going from one entry to another repeat no transaction. -/
def DisconnectsFresh (env : Env) (files : BlockFiles) (best pindexNew : CBlockIndex) : Prop :=
  ∀ pfork, best.findFork pindexNew = some pfork → ∀ p ∈ best.branch pfork,
    NotRepeating env files p

/-- In switching from one entry to another, the blocks disconnected repeat no transaction, and
those postponed can be read and connected. -/
structure SwitchOk (env : Env) (io : Io) (files : BlockFiles) (best pindexNew : CBlockIndex) :
    Prop where
  fresh : DisconnectsFresh env files best (pindexNew.postpone best.bnChainWork).1
  postponed : ∀ p ∈ (pindexNew.postpone best.bnChainWork).2,
    (io.reads p.getBlockHash = true ∧ io.beginsPostponed p.getBlockHash = true
      ∧ io.writes p.getBlockHash = true ∧ io.commits p.getBlockHash = true)
    ∧ ConnectsOn env files (io.nAdjustedTime p.getBlockHash) p

namespace Node

/-- The database has the hash of an entry and the index of its chain. -/
structure AtTip (env : Env) (node : Node) (pindex : CBlockIndex) : Prop where
  hashBestChain : node.txdb.hashBestChain = some pindex.getBlockHash
  replays : Replays env node.files pindex node.txdb.txIndex

section Switch

variable {env : Env} {io : Io} {node node' : Node} {best pindexNew pfork p : CBlockIndex}
  {block : CBlock}

/-- Disconnecting a branch whose blocks repeat no transaction gives the index of the fork. -/
theorem foldlM_disconnectStep_replays
    {state state' : CTxDB × List CTransaction} (hstored : ChainStored env node.files best)
    (hfork : pfork ∈ best.chain)
    (hfresh : ∀ p ∈ best.branch pfork, NotRepeating env node.files p)
    (hreplays : Replays env node.files best state.1.txIndex)
    (h : (best.branch pfork).foldlM (node.disconnectStep env io) state = some state') :
  Replays env node.files pfork state'.1.txIndex
  := by
  induction best generalizing state with
  | first entry =>
    obtain rfl := List.mem_singleton.mp hfork
    rw [CBlockIndex.branch_self] at h
    obtain rfl := Option.some.inj h
    apply hreplays
  | next entry pprev ih =>
    by_cases heq : pfork = .next entry pprev
    · rw [heq, CBlockIndex.branch_self] at h
      obtain rfl := Option.some.inj h
      rw [heq]
      apply hreplays
    · rw [CBlockIndex.branch_next heq] at h hfresh
      obtain ⟨hfirst, hfresh⟩ := List.forall_mem_cons.mp hfresh
      rw [List.foldlM_cons, Option.bind_eq_bind, Option.bind_eq_some_iff] at h
      obtain ⟨mid, hstep, hrest⟩ := h
      obtain ⟨block, txdb, hread, hdisconnect, rfl⟩ := disconnectStep_eq_some hstep
      obtain ⟨index, hundo, hbelow⟩ := hreplays.disconnectTxs hstored hread hfirst
      have hindex := CBlock.map_txIndex_disconnectBlock env state.1 (.next entry pprev) block
      rw [hdisconnect, hundo, Option.map_some] at hindex
      rcases List.mem_cons.mp hfork with hcontra | hfork
      · exact absurd hcontra heq
      · apply ih hstored.2 hfork hfresh _ hrest
        rw [Option.some.inj hindex]
        apply hbelow

/-- Connecting ascending blocks gives the index of the last. -/
theorem foldlM_connectStep_replays
    {pindexes : List CBlockIndex} {state state' : CTxDB × List CTransaction}
    (hascends : p.Ascends pindexes)
    (hstored : ∀ q ∈ pindexes, ChainStored env node.files q)
    (hreplays : Replays env node.files p state.1.txIndex)
    (h : pindexes.foldlM (node.connectStep env io) state = some state') :
  Replays env node.files (pindexes.getLastD p) state'.1.txIndex
  := by
  induction pindexes generalizing p state with
  | nil =>
    obtain rfl := Option.some.inj h
    apply hreplays
  | cons q pindexes ih =>
    obtain ⟨hq, hstored⟩ := List.forall_mem_cons.mp hstored
    rw [List.foldlM_cons, Option.bind_eq_bind, Option.bind_eq_some_iff] at h
    obtain ⟨mid, hstep, hrest⟩ := h
    obtain ⟨block, txdb, hread, hconnect, rfl⟩ := connectStep_eq_some hstep
    obtain ⟨hpprev, hascends⟩ := hascends
    rw [List.getLastD_cons]
    apply ih hascends hstored _ hrest
    cases q with
    | first entry => cases hpprev
    | next entry pprev =>
      obtain rfl := Option.some.inj hpprev
      apply hreplays.connectBlock hq hread hconnect

/-- Reorganizing to an entry leaves the database at it. -/
theorem AtTip.reorganize
    (h : node.AtTip env best) (hbest : node.pindexBest = some best)
    (hstored : ChainStored env node.files best)
    (hstoredNew : ∀ q ∈ pindexNew.chain, ChainStored env node.files q)
    (hfresh : DisconnectsFresh env node.files best pindexNew)
    (hreorganize : node.reorganize env io pindexNew = some node') :
  node'.AtTip env pindexNew
  := by
  obtain ⟨best', pfork, txdb, vResurrect, txdb', vDelete, hbest', hfork, hdisconnect, hconnect,
    rfl⟩ := reorganize_eq_some hreorganize
  rw [hbest] at hbest'
  obtain rfl := Option.some.inj hbest'
  obtain ⟨hforkBest, hforkNew⟩ := CBlockIndex.mem_chain_of_findFork hfork
  have hdown : Replays env node.files pfork txdb.txIndex :=
    foldlM_disconnectStep_replays hstored hforkBest (hfresh pfork hfork) h.replays hdisconnect
  obtain ⟨hascends, hlast⟩ := CBlockIndex.ascends_branch hforkNew
  have hstoredBranch : ∀ q ∈ (pindexNew.branch pfork).reverse, ChainStored env node.files q :=
    fun q hmem => hstoredNew q (CBlockIndex.mem_chain_of_mem_branch (List.mem_reverse.mp hmem))
  have hup := foldlM_connectStep_replays hascends hstoredBranch hdown hconnect
  rw [hlast] at hup
  exact ⟨rfl, hup⟩

/-- Connecting the block of an entry on top of the entry the database is at. -/
theorem AtTip.setBestChainInner
    {pprev : CBlockIndex} (h : node.AtTip env pprev) (hpprev : p.pprev = some pprev)
    (hstored : ChainStored env node.files p)
    (hread : node.files.readFromDisk env p = some block)
    (hinner : (node.setBestChainInner env io block p).2 = true) :
  (node.setBestChainInner env io block p).1.AtTip env p
  := by
  obtain ⟨txdb, hconnect, heq⟩ | heq | heq := setBestChainInner_cases env io node block p
  · rw [heq]
    constructor
    · change some (block.getHash env) = some p.getBlockHash
      rw [getHash_of_readFromDisk hread]
    · cases p with
      | first entry => cases hpprev
      | next entry pprev' =>
        obtain rfl := Option.some.inj hpprev
        apply h.replays.connectBlock hstored hread hconnect
  · rw [heq] at hinner
    cases hinner
  · rw [heq] at hinner
    cases hinner

/-- A block that connects on the chain below it connects to a database with the index of that
chain, whatever is in the memory pool. -/
theorem exists_connectBlock_of_connectsOn
    {files : BlockFiles} {t : ℤ} {pprev : CBlockIndex} (h : ConnectsOn env files t p)
    (hpprev : p.pprev = some pprev) {txdb : CTxDB} (hreplays : Replays env files pprev txdb.txIndex)
    (hstored : ChainStored env files p) (hread : files.readFromDisk env p = some block)
    (mempool : ExtTreeMap uint256 CTransaction compare) :
  ∃ txdb', block.connectBlock env ⟨files.readTx, mempool⟩ t txdb p = some txdb'
  := by
  obtain ⟨pprev', index, block', hpprev', hreplays', hread', hsome⟩ := h
  obtain rfl : pprev' = pprev := Option.some.inj (hpprev'.symm.trans hpprev)
  obtain rfl : block' = block := Option.some.inj (hread'.symm.trans hread)
  obtain rfl : index = txdb.txIndex := hreplays'.unique hreplays
  rw [← CBlock.map_txIndex_connectBlock, Option.isSome_map] at hsome
  cases p with
  | first entry => cases hpprev
  | next entry pprev =>
    obtain rfl := Option.some.inj hpprev
    obtain ⟨⟨stored, hblock⟩, hchain⟩ := hstored
    obtain rfl : stored = block' := Option.some.inj (hblock.readFromDisk_eq.symm.trans hread)
    rw [hblock.connectBlock_congr (fun _ _ _ hholds => hholds) (hreplays.facts hchain).located _ ∅
      mempool] at hsome
    apply Option.isSome_iff_exists.mp hsome

/-- A block that connects on the chain below it is connected. -/
theorem setBestChainInner_of_connectsOn
    {pprev : CBlockIndex} (h : node.AtTip env pprev) (hpprev : p.pprev = some pprev)
    (hstored : ChainStored env node.files p)
    (hread : node.files.readFromDisk env p = some block)
    (hwrites : io.writes p.getBlockHash = true) (hcommits : io.commits p.getBlockHash = true)
    (hconnects : ConnectsOn env node.files (io.nAdjustedTime p.getBlockHash) p) :
  (node.setBestChainInner env io block p).2 = true
  := by
  obtain ⟨txdb, hconnect⟩ :=
    exists_connectBlock_of_connectsOn hconnects hpprev h.replays hstored hread node.mempool.mapTx
  have hhash := getHash_of_readFromDisk hread
  rw [setBestChainInner]
  simp only [hhash, hwrites, hcommits, if_true, reader, hconnect]

theorem setBestChainInner_pnext
    (h : (node.setBestChainInner env io block pindexNew).2 = true) :
  (node.setBestChainInner env io block pindexNew).1.pnext = linkNext node.pnext pindexNew
  := by
  obtain ⟨txdb, -, heq⟩ | heq | heq := setBestChainInner_cases env io node block pindexNew
  · rw [heq]
  · rw [heq] at h
    cases h
  · rw [heq] at h
    cases h

/-- Postponed blocks that can be read and connected are all connected, and all get their pointers. -/
theorem AtTip.connectPostponed
    (io : Io) {pindexes : List CBlockIndex} (h : node.AtTip env p) (hascends : p.Ascends pindexes)
    (hstored : ∀ q ∈ pindexes, ChainStored env node.files q)
    (hok : ∀ q ∈ pindexes,
      (io.reads q.getBlockHash = true ∧ io.beginsPostponed q.getBlockHash = true
        ∧ io.writes q.getBlockHash = true ∧ io.commits q.getBlockHash = true)
      ∧ ConnectsOn env node.files (io.nAdjustedTime q.getBlockHash) q) :
  (node.connectPostponed env io pindexes).AtTip env (pindexes.getLastD p)
    ∧ (node.connectPostponed env io pindexes).pnext = pindexes.foldl linkNext node.pnext
  := by
  induction pindexes generalizing node p with
  | nil => exact ⟨h, rfl⟩
  | cons q pindexes ih =>
    obtain ⟨⟨⟨hreads, hbegins, hwrites, hcommits⟩, hconnects⟩, hok⟩ := List.forall_mem_cons.mp hok
    obtain ⟨hq, hstored⟩ := List.forall_mem_cons.mp hstored
    obtain ⟨hpprev, hascends⟩ := hascends
    obtain ⟨-, -, block, -, -, hread, -⟩ := id hconnects
    have hinner := setBestChainInner_of_connectsOn h hpprev hq hread hwrites hcommits hconnects
    have hread' : node.readFromDisk env io q = some block := by
      rw [readFromDisk, hreads, if_pos rfl, hread]
    have hfiles := (setBestChainInner_same env io node block q).1.files
    rw [Node.connectPostponed, hread', List.getLastD_cons, List.foldl_cons,
      ← setBestChainInner_pnext hinner]
    simp only [hbegins, hinner, Bool.not_true, Bool.false_eq_true, if_false, if_true]
    apply ih (h.setBestChainInner hpprev hq hread hinner) hascends
    · rw [hfiles]
      apply hstored
    · rw [hfiles]
      apply hok

theorem AtTip.invalidChainFound
    (h : node.AtTip env best) (pindexNew : CBlockIndex) :
  (node.invalidChainFound pindexNew).AtTip env best
  := by
  obtain ⟨hstore, -, hindex, hhash, -, -⟩ := node.invalidChainFound_same pindexNew
  constructor
  · rw [hhash]
    apply h.hashBestChain
  · rw [hstore.files, hindex]
    apply h.replays

/-- `SetBestChain` keeps the database and the tip together when the switch is fine. -/
theorem AtTip.setBestChain
    (h : node.AtTip env best) (hindexed : node.Indexed env) (htip : node.TipIs best)
    (hbest : node.mapBlockIndex[best.getBlockHash]? = some best)
    (hnew : node.mapBlockIndex[pindexNew.getBlockHash]? = some pindexNew)
    (hpprev : pindexNew.pprev ≠ none)
    (hread : node.files.readFromDisk env pindexNew = some block)
    (hok : SwitchOk env io node.files best pindexNew) :
  ∃ best', (node.setBestChain env io block pindexNew).1.TipIs best'
    ∧ (node.setBestChain env io block pindexNew).1.AtTip env best'
    ∧ ((node.setBestChain env io block pindexNew).2 = true → best' = pindexNew)
  := by
  have hhash := getHash_of_readFromDisk hread
  obtain (heq | heq) | ⟨hextends, hinner, heq⟩ | ⟨best', mid, hbest', -, hreorganize, heq⟩ :=
    setBestChain_cases env io hindexed.loaded block pindexNew
  · rw [heq]
    exact ⟨best, htip, h, fun hcontra => absurd hcontra Bool.false_ne_true⟩
  · rw [heq]
    exact ⟨best, (node.invalidChainFound_same pindexNew).2.2.2.2.2 best htip,
      h.invalidChainFound pindexNew, fun hcontra => absurd hcontra Bool.false_ne_true⟩
  · -- the block is on top of the tip
    rw [heq, hhash]
    refine ⟨pindexNew, tipIs_setTip _ _, ?_, fun _ => rfl⟩
    have hbelow := hindexed.pprev_of_hashPrevBlock htip hbest hnew hpprev hread hextends
    have hdone := h.setBestChainInner hbelow (hindexed.chainStored hnew) hread hinner
    exact ⟨hdone.1, hdone.2⟩
  · -- a reorganization, and the postponed blocks after it
    rw [heq, hhash]
    refine ⟨pindexNew, tipIs_setTip _ _, ?_, fun _ => rfl⟩
    rw [htip.pindexBest] at hbest'
    obtain rfl := Option.some.inj hbest'
    obtain ⟨hfirst, hpostponed⟩ := pindexNew.postpone_spec best.bnChainWork
    have hstoredNew : ∀ q ∈ pindexNew.chain, ChainStored env node.files q :=
      fun q hmem => hindexed.chainStored (hindexed.mem_chain hnew hmem)
    have hmid := h.reorganize htip.pindexBest (hindexed.chainStored hbest)
      (fun q hmem => hstoredNew q (CBlockIndex.mem_chain_trans hmem hfirst)) hok.fresh hreorganize
    obtain ⟨hascends, hlast⟩ := CBlockIndex.ascends_branch hfirst
    rw [hpostponed] at hascends hlast
    have hfiles := (reorganize_same hreorganize).1.files
    have hdone := (hmid.connectPostponed io hascends ?_ ?_).1
    · rw [hlast] at hdone
      exact ⟨hdone.1, hdone.2⟩
    · intro q hmem
      rw [hfiles]
      rw [List.mem_reverse, ← hpostponed] at hmem
      apply hstoredNew q (CBlockIndex.mem_chain_of_mem_branch hmem)
    · intro q hmem
      rw [hfiles]
      apply hok.postponed q (List.mem_reverse.mp hmem)

end Switch

/-! ## Runs -/

/-- The tip in memory is an indexed entry, the database has its hash, and the index of the
database is what connecting the blocks from the first to the tip leaves. -/
def TipAgrees (env : Env) (node : Node) : Prop :=
  ∃ best, node.mapBlockIndex[best.getBlockHash]? = some best ∧ node.TipIs best
    ∧ node.AtTip env best

/-- The entry the chain is rolled back to: the tip, or the last block below it that is not
failed. -/
def rollTarget (node : Node) (best : CBlockIndex) : Option CBlockIndex :=
  if node.fFailedChain best then best.chain.find? (fun pindex => !node.fFailedChain pindex)
  else some best

/-- Every switch of the chain that an operation makes is fine. -/
def OpOk (env : Env) (node : Node) : Op → Prop
  | .accept io received => ∀ best files entry pprev, node.pindexBest = some best →
    Inserts env io node received files entry pprev → node.Overtakes files (.next entry pprev) →
    SwitchOk env io files best (.next entry pprev)
  | .invalidate io hash => ∀ best target pindex, node.pindexBest = some best →
    node.mapBlockIndex[hash]? = some pindex →
    (node.markInvalidated pindex).rollTarget best = some target →
    DisconnectsFresh env node.files best target
      ∧ SwitchOk env io node.files target ((node.markInvalidated pindex).bestCandidate target)
  | .reconsider io hash => ∀ best pindex, node.pindexBest = some best →
    node.mapBlockIndex[hash]? = some pindex →
    SwitchOk env io node.files best ((node.unmarkChain pindex).bestCandidate best)
  | .acceptTx _ _ _ => True
  | .removeTx _ => True

section Runs

variable {env : Env} {io : Io} {node node' : Node} {best pindexNew : CBlockIndex}

theorem AtTip.of_same
    (h : node.AtTip env best) (hfiles : node'.files = node.files)
    (hindex : node'.txdb.txIndex = node.txdb.txIndex)
    (hhash : node'.txdb.hashBestChain = node.txdb.hashBestChain) :
  node'.AtTip env best
  := by
  constructor
  · rw [hhash]
    apply h.hashBestChain
  · rw [hfiles, hindex]
    apply h.replays

theorem TipAgrees.of_onlyMarks
    (h : node.TipAgrees env) (hmarks : OnlyMarks node node') :
  node'.TipAgrees env
  := by
  obtain ⟨best, hbest, htip, hat⟩ := h
  refine ⟨best, ?_, hmarks.tip best htip,
    hat.of_same hmarks.store.files hmarks.txIndex hmarks.hashBestChain⟩
  rw [hmarks.store.mapBlockIndex]
  apply hbest

theorem TipAgrees.setMempool
    (h : node.TipAgrees env) (mempool : CTxMemPool) :
  { node with mempool }.TipAgrees env
  := by
  obtain ⟨best, hbest, htip, hat⟩ := h
  exact ⟨best, hbest, ⟨htip.1, htip.2, htip.3, htip.4⟩, hat.1, hat.2⟩

theorem rollTarget_congr
    (hfailed : node'.failed = node.failed) (best : CBlockIndex) :
  node'.rollTarget best = node.rollTarget best
  := by
  have hflag : node'.fFailedChain = node.fFailedChain := by
    funext p
    rw [fFailedChain, fFailedChain, hfailed]
  rw [rollTarget, rollTarget, hflag]

/-- Switching to an indexed block. -/
theorem TipAgrees.setBestChain
    (h : node.TipAgrees env) (hindexed : node.Indexed env) {block : CBlock}
    (hnew : node.mapBlockIndex[pindexNew.getBlockHash]? = some pindexNew)
    (hpprev : pindexNew.pprev ≠ none)
    (hread : node.files.readFromDisk env pindexNew = some block)
    (hok : ∀ best, node.pindexBest = some best → SwitchOk env io node.files best pindexNew) :
  (node.setBestChain env io block pindexNew).1.TipAgrees env
  := by
  obtain ⟨best, hbest, htip, hat⟩ := h
  obtain ⟨best', htip', hat', -⟩ := hat.setBestChain hindexed htip hbest hnew hpprev hread
    (hok best htip.pindexBest)
  obtain ⟨best'', htip'', hbest''⟩ :=
    (hindexed.setBestChain io (getHash_of_readFromDisk hread) hnew).tip
  obtain rfl : best'' = best' :=
    Option.some.inj (htip''.pindexBest.symm.trans htip'.pindexBest)
  exact ⟨best'', hbest'', htip', hat'⟩

theorem TipAgrees.activateBestValidChain
    (h : node.TipAgrees env) (hindexed : node.Indexed env)
    (hok : ∀ best, node.pindexBest = some best →
      SwitchOk env io node.files best (node.bestCandidate best)) :
  (node.activateBestValidChain env io).1.TipAgrees env
  := by
  obtain ⟨best, hbest, htip, -⟩ := id h
  obtain heq | ⟨block, hne, hread, heq⟩ := activateBestValidChain_cases env io htip.pindexBest
  · rw [heq]
    apply h
  · rw [heq]
    have hcandidate := hindexed.bestCandidate hbest
    apply h.setBestChain hindexed hcandidate _ hread
    · intro best' hbest'
      obtain rfl := Option.some.inj (htip.pindexBest.symm.trans hbest')
      apply hok best htip.pindexBest
    · obtain ⟨hsame | ⟨-, -, -, hmore⟩, -⟩ := node.bestCandidate_spec best
      · exact absurd hsame hne
      · obtain ⟨entry, pprev, heq⟩ := hindexed.exists_next_of_lt hbest hcandidate hmore
        rw [heq]
        apply Option.some_ne_none

/-- Rolling back to the last block that is not failed. -/
theorem TipAgrees.rollBack
    (h : node.TipAgrees env) (hindexed : node.Indexed env)
    (hok : ∀ best target, node.pindexBest = some best → node.rollTarget best = some target →
      DisconnectsFresh env node.files best target)
    (hroll : node.rollBack env io = some node') :
  node'.TipAgrees env
    ∧ ∀ best target, node.pindexBest = some best → node'.pindexBest = some target →
      node.rollTarget best = some target
  := by
  obtain ⟨best, hbest, htip, hat⟩ := id h
  obtain ⟨best', hbest', ⟨hgood, rfl⟩ | ⟨target, mid, hfailed, hfind, hmid, rfl⟩⟩ :=
    rollBack_cases hroll
  · refine ⟨h, ?_⟩
    intro best'' target hbest'' htarget
    obtain rfl := Option.some.inj (hbest''.symm.trans htarget)
    obtain rfl := Option.some.inj (hbest'.symm.trans hbest'')
    rw [rollTarget, hgood]
    rfl
  · obtain rfl := Option.some.inj (htip.pindexBest.symm.trans hbest')
    have htarget : node.rollTarget best = some target := by
      rw [rollTarget, hfailed, if_pos rfl, hfind]
    have hmem := List.mem_of_find?_eq_some hfind
    have hat' := hat.reorganize htip.pindexBest (hindexed.chainStored hbest)
      (fun q hq => hindexed.chainStored
        (hindexed.mem_chain hbest (CBlockIndex.mem_chain_trans hq hmem)))
      (hok best target htip.pindexBest htarget) hmid
    constructor
    · refine ⟨target, ?_, tipIs_setTip _ _, hat'.1, hat'.2⟩
      change mid.mapBlockIndex[target.getBlockHash]? = some target
      rw [(reorganize_same hmid).1.mapBlockIndex]
      apply hindexed.mem_chain hbest hmem
    · intro best' target' hbest' htarget'
      obtain rfl := Option.some.inj (htip.pindexBest.symm.trans hbest')
      obtain rfl := Option.some.inj htarget'
      apply htarget

theorem TipAgrees.insertEntry
    (h : node.TipAgrees env) (hindexed : node.Indexed env) {received : ReceivedBlock}
    {files : BlockFiles} {entry : BlockEntry} {pprev : CBlockIndex}
    (hinserts : Inserts env io node received files entry pprev) :
  ((node.setFiles files).insertEntry (.next entry pprev)).TipAgrees env
  := by
  obtain ⟨best, hbest, htip, hat⟩ := h
  obtain ⟨best', htip', hbest'⟩ := hinserts.indexed.tip
  obtain rfl := Option.some.inj (htip.pindexBest.symm.trans htip'.pindexBest)
  exact ⟨best, hbest', htip', hat.hashBestChain,
    hat.replays.mono (hindexed.chainStored hbest) hinserts.files_extends⟩

theorem TipAgrees.writeEntry
    (h : node.TipAgrees env) (io : Io) (pindexNew : CBlockIndex) :
  (node.writeEntry io pindexNew).TipAgrees env
  := by
  obtain ⟨best, hbest, htip, hat⟩ := h
  refine ⟨best, hbest, ⟨htip.1, htip.2, htip.3, htip.4⟩, hat.of_same rfl ?_ ?_⟩
  · rw [Node.writeEntry]
    split_ifs
    · rfl
    · rfl
  · rw [Node.writeEntry]
    split_ifs
    · rfl
    · rfl

theorem TipAgrees.accept
    (h : node.TipAgrees env) (hindexed : node.Indexed env) (received : ReceivedBlock)
    (hcheck : received.block.checkBlock env io.nCheckTime = true)
    (hok : node.OpOk env (.accept io received)) :
  (node.acceptBlock env io received.block).1.TipAgrees env
  := by
  obtain heq | ⟨files, entry, pprev, hinserts, halternatives⟩ :=
    accept_cases hindexed received hcheck
  · rw [heq]
    apply h
  · have hinserted := h.insertEntry hindexed hinserts
    have hwritten := hinserted.writeEntry io (.next entry pprev)
    obtain ⟨-, heq⟩ | ⟨-, heq⟩ | ⟨hovertakes, heq⟩ := halternatives
    · rw [heq]
      apply hinserted
    · rw [heq]
      apply hwritten
    · rw [heq]
      apply hwritten.setBestChain (hinserts.indexed.writeEntry io _)
        (getElem?_insertEntry_self _ _) (Option.some_ne_none _) hinserts.stored.readFromDisk_eq
      intro best' hbest'
      apply hok best' files entry pprev hbest' hinserts hovertakes

/-- After the marking and the rolling back of an invalidation, the switch to the best candidate is fine. -/
theorem TipAgrees.rolled
    {marked rolled : Node} {hash : uint256} {pindex : CBlockIndex} (h : node.TipAgrees env)
    (hindexed : node.Indexed env) (hok : node.OpOk env (.invalidate io hash))
    (hpindex : node.mapBlockIndex[hash]? = some pindex) (hmarks : OnlyMarks node marked)
    (hflags : SameFlags (node.markInvalidated pindex) marked)
    (hrolled : marked.rollBack env io = some rolled) :
  rolled.TipAgrees env
    ∧ ∀ target, rolled.pindexBest = some target →
      SwitchOk env io rolled.files target (rolled.bestCandidate target)
  := by
  have hfailed : ∀ best, marked.rollTarget best
      = (node.markInvalidated pindex).rollTarget best :=
    fun best => rollTarget_congr hflags.failed best
  have hfiles := hmarks.store.files
  obtain ⟨best, hbest, htip, -⟩ := id h
  have hmarkedBest := (hmarks.tip best htip).pindexBest
  have hmarked := hindexed.of_onlyMarks hmarks
  have hfresh : ∀ best' target, marked.pindexBest = some best' →
      marked.rollTarget best' = some target →
      DisconnectsFresh env marked.files best' target := by
    intro best' target hbest' htarget
    obtain rfl := Option.some.inj (hmarkedBest.symm.trans hbest')
    rw [hfailed] at htarget
    rw [hfiles]
    apply (hok best target pindex htip.pindexBest hpindex htarget).1
  obtain ⟨hrolledAgrees, htarget⟩ :=
    (h.of_onlyMarks hmarks).rollBack hmarked hfresh hrolled
  obtain ⟨hstore, hsame⟩ := rollBack_same hrolled
  have hmap : rolled.mapBlockIndex = (node.markInvalidated pindex).mapBlockIndex :=
    hstore.mapBlockIndex.trans hmarks.store.mapBlockIndex
  refine ⟨hrolledAgrees, ?_⟩
  intro target hrolledBest
  have hroll := htarget best target hmarkedBest hrolledBest
  rw [hfailed] at hroll
  rw [bestCandidate_congr hmap (hsame.failed.trans hflags.failed), hstore.files, hfiles]
  apply (hok best target pindex htip.pindexBest hpindex hroll).2

/-- An operation whose switches are fine keeps the tip and the database together. -/
theorem TipAgrees.step
    (h : node.TipAgrees env) (hindexed : node.Indexed env) (op : Op) (hok : node.OpOk env op) :
  (node.step env op).TipAgrees env
  := by
  cases op with
  | accept io received =>
    rw [Node.step]
    split_ifs with hcheck
    · apply h.accept hindexed received hcheck hok
    · apply h
  | invalidate io hash =>
    simp only [Node.step]
    split
    · apply h
    · rename_i pindex hpindex
      obtain ⟨marked, hmarks, heq | ⟨hflags, rolled, hrolled, heq⟩⟩ :=
        invalidateBlock_cases env io node pindex
      · rw [heq]
        apply h.of_onlyMarks hmarks
      · rw [heq]
        obtain ⟨hrolledAgrees, hswitch⟩ := h.rolled hindexed hok hpindex hmarks hflags hrolled
        exact hrolledAgrees.activateBestValidChain
          ((hindexed.of_onlyMarks hmarks).rollBack hrolled) hswitch
  | reconsider io hash =>
    simp only [Node.step]
    split
    · apply h
    · rename_i pindex hpindex
      obtain ⟨marked, hmarks, heq | ⟨hflags, heq⟩⟩ := reconsiderBlock_cases env io node pindex
      · rw [heq]
        apply h.of_onlyMarks hmarks
      · rw [heq]
        obtain ⟨best, hbest, htip, -⟩ := id h
        apply (h.of_onlyMarks hmarks).activateBestValidChain (hindexed.of_onlyMarks hmarks)
        intro best' hbest'
        obtain rfl := Option.some.inj ((hmarks.tip best htip).pindexBest.symm.trans hbest')
        have hmap : marked.mapBlockIndex = (node.unmarkChain pindex).mapBlockIndex :=
          hmarks.store.mapBlockIndex
        rw [bestCandidate_congr hmap hflags.failed, hmarks.store.files]
        apply hok best pindex htip.pindexBest hpindex
  | acceptTx tx fCheckInputs fRateLimited =>
    obtain ⟨mempool, heq⟩ := node.exists_acceptTx env tx fCheckInputs fRateLimited
    rw [Node.step, heq]
    apply h.setMempool
  | removeTx tx => apply h.setMempool

end Runs

theorem Started.tipAgrees
    {env : Env} {node : Node} {entry : BlockEntry} (h : Started env node entry) :
  node.TipAgrees env
  := by
  refine ⟨.first entry, (h.mapBlockIndex _ _).mpr ⟨rfl, rfl⟩, h.tip, h.hashBestChain, 0, ?_⟩
  rw [h.txIndex]
  rfl

/-- In every run all whose switches of the chain are fine, the tip in memory and the database
agree, and they agree after every further call of `SetBestChain` that returns true and whose
switch is fine. -/
theorem tip_agrees
    (env : Env) (io : Io) (start : Node) (ops : List Op) (hload : load env io = some start)
    (hok : Transition.Along (step env) (OpOk env) start ops) :
  let node := Transition.run (step env) start ops
  node.TipAgrees env
    ∧ ∀ (io' : Io) (best pindexNew : CBlockIndex) (block : CBlock),
      node.mapBlockIndex[pindexNew.getBlockHash]? = some pindexNew → pindexNew.pprev ≠ none →
      node.files.readFromDisk env pindexNew = some block → node.pindexBest = some best →
      SwitchOk env io' node.files best pindexNew →
      (node.setBestChain env io' block pindexNew).2 = true →
      (node.setBestChain env io' block pindexNew).1.TipAgrees env
        ∧ (node.setBestChain env io' block pindexNew).1.pindexBest = some pindexNew
  := by
  obtain ⟨entry, hstarted⟩ := started_of_load hload
  have hstep : ∀ (node : Node) (op : Op), node.OpOk env op →
      node.Indexed env ∧ node.TipAgrees env →
      (node.step env op).Indexed env ∧ (node.step env op).TipAgrees env :=
    fun node op hop h => ⟨h.1.step op, h.2.step h.1 op hop⟩
  obtain ⟨hindexed, hagrees⟩ :=
    Transition.run_invariant hstep hok ⟨hstarted.indexed, hstarted.tipAgrees⟩
  refine ⟨hagrees, ?_⟩
  intro io' best pindexNew block hnew hpprev hread hbest hswitch htrue
  constructor
  · apply hagrees.setBestChain hindexed hnew hpprev hread
    intro best' hbest'
    obtain rfl := Option.some.inj (hbest.symm.trans hbest')
    apply hswitch
  · obtain ⟨-, -, htip, -⟩ :=
      setBestChain_same io' hindexed.loaded (getHash_of_readFromDisk hread)
    apply (htip htrue).pindexBest

/-! ### A postponed block that does not connect -/

/-- Putting a block on top of the tip disconnects and postpones nothing. -/
theorem switchOk_of_pprev
    {env : Env} {io : Io} {files : BlockFiles} {best pindexNew : CBlockIndex}
    (h : pindexNew.pprev = some best) :
  SwitchOk env io files best pindexNew
  := by
  cases pindexNew with
  | first entry => cases h
  | next entry pprev =>
    obtain rfl := Option.some.inj h
    have hpostpone : (CBlockIndex.next entry pprev).postpone pprev.bnChainWork
        = (.next entry pprev, []) := by
      rw [CBlockIndex.postpone, if_neg (lt_irrefl _)]
    have hfork : pprev.findFork (.next entry pprev) = some pprev :=
      CBlockIndex.findFork_of_mem_chain (List.mem_cons_of_mem _ pprev.mem_chain_self)
    constructor
    · rw [hpostpone]
      intro pfork hpfork p hmem
      obtain rfl := Option.some.inj (hfork.symm.trans hpfork)
      rw [CBlockIndex.branch_self] at hmem
      cases hmem
    · rw [hpostpone]
      intro p hmem
      cases hmem

/-- A block on top of the first one. -/
theorem lowBlock_fits :
  (sampleChild (hashGenesisBlock sampleEnv) 1774996862 [1, 1] 1000).Fits
  := by decide

theorem lowBlock_present :
  (sampleChild (hashGenesisBlock sampleEnv) 1774996862 [1, 1] 1000).AuxPowPresent
  := by decide

theorem lowBlock_size_le :
  ((sampleChild (hashGenesisBlock sampleEnv) 1774996862 [1, 1] 1000).bytes SER_NETWORK).length ≤ MAX_SIZE
  := by decide +kernel

def lowBlock : ReceivedBlock where
  block := sampleChild (hashGenesisBlock sampleEnv) 1774996862 [1, 1] 1000
  fits := lowBlock_fits
  present := lowBlock_present
  size_le := lowBlock_size_le

/-- Accepting the lower block after the start switches the chain without a reorganization. -/
theorem along_lowBlock
    {start : Node} (hload : load sampleEnv sampleIo = some start) :
  Transition.Along (step sampleEnv) (OpOk sampleEnv) start [.accept sampleIo lowBlock]
  := by
  refine ⟨?_, trivial⟩
  intro best files entry pprev hbest hinserts _
  obtain ⟨genesis, hstarted⟩ := started_of_load hload
  obtain ⟨-, rfl⟩ := (hstarted.mapBlockIndex _ _).mp hinserts.pprev_indexed
  obtain rfl := Option.some.inj (hstarted.tip.pindexBest.symm.trans hbest)
  apply switchOk_of_pprev rfl

/-- A block on top of that, whose coinbase pays too much. -/
def greedyBlock : ReceivedBlock where
  block := sampleChild (lowBlock.block.getHash sampleEnv) 1774996922 [1, 2] 1000000000000000
  fits := by decide
  present := by decide
  size_le := by decide +kernel

/-- The lower block is accepted and invalidated, and the greedy one is accepted on top of it,
where it is not connected. -/
def greedyOps : List Op :=
  [ .accept sampleIo lowBlock,
    .invalidate sampleIo (lowBlock.block.getHash sampleEnv),
    .accept sampleIo greedyBlock ]

/-- Reconsidering the lower block switches to the greedy one: `SetBestChain` returns true with
the greedy block as the tip in memory and the lower block in the database. -/
theorem greedyOps_not_agrees :
  ∃ start, load sampleEnv sampleIo = some start ∧
    let node := Transition.run (step sampleEnv) start greedyOps
    ∃ pindex best block, node.mapBlockIndex[lowBlock.block.getHash sampleEnv]? = some pindex ∧
      let unmarked := (node.unmarkChain pindex).writeInvalidatedSet
      unmarked.pindexBest = some best
        ∧ unmarked.files.readFromDisk sampleEnv (unmarked.bestCandidate best) = some block
        ∧ node.reconsiderBlock sampleEnv sampleIo pindex
          = unmarked.setBestChain sampleEnv sampleIo block (unmarked.bestCandidate best)
        ∧ (unmarked.setBestChain sampleEnv sampleIo block (unmarked.bestCandidate best)).2 = true
        ∧ ¬(unmarked.setBestChain sampleEnv sampleIo block
            (unmarked.bestCandidate best)).1.TipAgrees sampleEnv
  := by
  have heval : (load sampleEnv sampleIo).map (fun start =>
      let node := Transition.run (step sampleEnv) start greedyOps
      node.mapBlockIndex[lowBlock.block.getHash sampleEnv]?.map (fun pindex =>
        let result := node.reconsiderBlock sampleEnv sampleIo pindex
        (result.2, result.1.hashBestChain == node.hashBestChain,
          result.1.txdb.hashBestChain == some result.1.hashBestChain)))
      = some (some (true, false, false)) := by
    decide +kernel
  obtain ⟨start, hload, hrun⟩ := Option.map_eq_some_iff.mp heval
  obtain ⟨pindex, hpindex, hresult⟩ := Option.map_eq_some_iff.mp hrun
  refine ⟨start, hload, ?_⟩
  have hindexed : (Transition.run (step sampleEnv) start greedyOps).Indexed sampleEnv :=
    indexed_run hload greedyOps
  generalize Transition.run (step sampleEnv) start greedyOps = node at hpindex hresult hindexed ⊢
  simp only [Prod.mk.injEq, beq_eq_false_iff_ne] at hresult
  obtain ⟨htrue, hmoved, hdiffers⟩ := hresult
  set unmarked := (node.unmarkChain pindex).writeInvalidatedSet with hunmarked
  have hreconsider : node.reconsiderBlock sampleEnv sampleIo pindex
      = unmarked.activateBestValidChain sampleEnv sampleIo := rfl
  have hmarks : OnlyMarks node unmarked := onlyMarks_mk node _ _ _
  obtain ⟨best, htip, -⟩ := hindexed.tip
  have htip' := hmarks.tip best htip
  obtain hsame | ⟨block, -, hread, heq⟩ :=
    activateBestValidChain_cases sampleEnv sampleIo htip'.pindexBest
  · rw [hreconsider, hsame, htip'.hashBestChain, htip.hashBestChain] at hmoved
    exact absurd rfl hmoved
  · rw [hreconsider, heq] at htrue hdiffers
    refine ⟨pindex, best, block, hpindex, htip'.pindexBest, hread, hreconsider.trans heq, htrue, ?_⟩
    rintro ⟨best', -, htipAfter, hat⟩
    rw [hat.hashBestChain, htipAfter.hashBestChain] at hdiffers
    exact hdiffers rfl

end Node

end CorgiCoin
