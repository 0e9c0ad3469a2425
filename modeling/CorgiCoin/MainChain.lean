import CorgiCoin.Headers
import CorgiCoin.Tip

/-!
# The pointers of the main chain

`IsInMainChain` asks whether a block has a `pnext` pointer or is the tip.  In every run the pointers lead
up the chain of the tip, so that what it takes for the main chain is a part of that chain.  It is all of
it as long as the switches of the chain connect the blocks they postpone: otherwise the tip is moved on
and the blocks that were not connected stay without a pointer.
-/

namespace CorgiCoin

open Std CBlockIndex

namespace Node

/-- The `pnext` pointers lead up the chain of a block, and when the switches of the chain were fine each
block of the chain but the last has one. -/
structure Links (fine : Prop) (pnext : ExtTreeMap uint256 CBlockIndex compare) (best : CBlockIndex) :
    Prop where
  up : ∀ (hash : uint256) (q : CBlockIndex), pnext[hash]? = some q →
    q ∈ best.chain ∧ q.pprev.map getBlockHash = some hash
  all : fine → ∀ q ∈ best.chain, ∀ p, q.pprev = some p → pnext[p.getBlockHash]? = some q

/-- The blocks of a chain have different hashes. -/
def Distinct (pindex : CBlockIndex) : Prop :=
  ∀ p ∈ pindex.chain, ∀ q ∈ pindex.chain, p.getBlockHash = q.getBlockHash → p = q

section Links

variable {fine : Prop} {pnext : ExtTreeMap uint256 CBlockIndex compare}
variable {p q best pfork pindexNew : CBlockIndex}

theorem Distinct.of_mem_chain (h : Distinct q) (hp : p ∈ q.chain) :
  Distinct p
  := fun _ hr _ hs => h _ (mem_chain_trans hr hp) _ (mem_chain_trans hs hp)

theorem Distinct.of_pprev (h : Distinct q) (hp : q.pprev = some p) :
  Distinct p
  := by
  cases q with
  | first entry => cases hp
  | next entry pprev =>
    obtain rfl := Option.some.inj hp
    apply h.of_mem_chain (List.mem_cons_of_mem _ (mem_chain_self _))

variable {r s : CBlockIndex}

/-- A block below another has a smaller height. -/
theorem nHeight_lt_of_pprev (hr : r ∈ p.chain) (hs : r.pprev = some s) :
  s.nHeight < p.nHeight
  := by
  have hle := nHeight_le_of_mem_chain hr
  cases r with
  | first entry => cases hs
  | next entry pprev =>
    obtain rfl := Option.some.inj hs
    rw [nHeight] at hle
    omega

theorem pprev_mem_chain (hr : r ∈ p.chain) (hs : r.pprev = some s) :
  s ∈ p.chain
  := by
  cases r with
  | first entry => cases hs
  | next entry pprev =>
    obtain rfl := Option.some.inj hs
    apply mem_chain_trans (List.mem_cons_of_mem _ (mem_chain_self _)) hr

theorem mem_chain_of_pprev (h : q.pprev = some p) :
  r ∈ q.chain ↔ r = q ∨ r ∈ p.chain
  := by
  cases q with
  | first entry => cases h
  | next entry pprev =>
    obtain rfl := Option.some.inj h
    rw [chain, List.mem_cons]

/-- Blocks below the end of a chain have other hashes than the end. -/
theorem getBlockHash_ne_of_pprev
    (h : Distinct p) (hr : r ∈ p.chain) (hs : r.pprev = some s) :
  s.getBlockHash ≠ p.getBlockHash
  := by
  intro heq
  have hsame := h s (pprev_mem_chain hr hs) p (mem_chain_self p) heq
  have hlt := nHeight_lt_of_pprev hr hs
  rw [hsame] at hlt
  exact lt_irrefl _ hlt

/-- Clearing the pointer to the last block takes it off the chain. -/
theorem Links.unlink
    (h : Links fine pnext q) (hdistinct : Distinct q) (hp : q.pprev = some p) :
  Links fine (unlinkNext pnext q) p
  := by
  have hmap : unlinkNext pnext q = pnext.erase p.getBlockHash := by
    rw [unlinkNext, hp]
  rw [hmap]
  constructor
  · intro hash r hget
    rw [TreeMap.getElem?_erase_ite] at hget
    split_ifs at hget with hne
    obtain ⟨hmem, hpprev⟩ := h.up hash r hget
    refine ⟨?_, hpprev⟩
    rcases (mem_chain_of_pprev hp).mp hmem with rfl | hmem
    · rw [hp] at hpprev
      exact absurd (Option.some.inj hpprev) hne
    · exact hmem
  · intro hfine r hr s hs
    rw [TreeMap.getElem?_erase_of_ne (getBlockHash_ne_of_pprev (hdistinct.of_pprev hp) hr hs).symm]
    exact h.all hfine r ((mem_chain_of_pprev hp).mpr (.inr hr)) s hs

/-- Pointing to a block on top of the chain puts it on the chain. -/
theorem Links.link
    (h : Links fine pnext p) (hdistinct : Distinct p) (hp : q.pprev = some p) :
  Links fine (linkNext pnext q) q
  := by
  have hmap : linkNext pnext q = pnext.insert p.getBlockHash q := by
    rw [linkNext, hp]
  rw [hmap]
  constructor
  · intro hash r hget
    rw [TreeMap.getElem?_insert_ite] at hget
    split_ifs at hget with heq
    · obtain rfl := Option.some.inj hget
      rw [hp, ← heq]
      exact ⟨mem_chain_self _, rfl⟩
    · obtain ⟨hmem, hpprev⟩ := h.up hash r hget
      exact ⟨(mem_chain_of_pprev hp).mpr (.inr hmem), hpprev⟩
  · intro hfine r hr s hs
    rcases (mem_chain_of_pprev hp).mp hr with rfl | hr
    · obtain rfl := Option.some.inj (hp.symm.trans hs)
      exact ExtTreeMap.getElem?_insert_self
    · rw [TreeMap.getElem?_insert_of_ne (getBlockHash_ne_of_pprev hdistinct hr hs).symm]
      exact h.all hfine r hr s hs

/-- Clearing the pointers of a branch goes back to the fork. -/
theorem Links.foldl_unlink
    (h : Links fine pnext best) (hdistinct : Distinct best) (hfork : pfork ∈ best.chain) :
  Links fine ((best.branch pfork).foldl unlinkNext pnext) pfork
  := by
  induction best generalizing pnext with
  | first entry =>
    obtain rfl := List.mem_singleton.mp hfork
    rw [branch_self]
    exact h
  | next entry pprev ih =>
    by_cases heq : pfork = next entry pprev
    · rw [heq, branch_self]
      exact h
    · rw [branch_next heq, List.foldl_cons]
      apply ih (h.unlink hdistinct rfl) (hdistinct.of_pprev rfl)
      exact (List.mem_cons.mp hfork).resolve_left heq

theorem mem_chain_of_ascends {pindexes : List CBlockIndex} (h : p.Ascends pindexes) :
  p ∈ (pindexes.getLastD p).chain
  := by
  induction pindexes generalizing p with
  | nil => exact mem_chain_self p
  | cons q rest ih =>
    rw [List.getLastD_cons]
    apply pprev_mem_chain (ih h.2) h.1

/-- Setting the pointers of a branch goes up to its end. -/
theorem Links.foldl_link
    {pindexes : List CBlockIndex} (h : Links fine pnext p) (hascends : p.Ascends pindexes)
    (hdistinct : Distinct (pindexes.getLastD p)) :
  Links fine (pindexes.foldl linkNext pnext) (pindexes.getLastD p)
  := by
  induction pindexes generalizing p pnext with
  | nil => exact h
  | cons q rest ih =>
    have hlast := mem_chain_of_ascends hascends
    rw [List.getLastD_cons] at hdistinct hlast ⊢
    rw [List.foldl_cons]
    exact ih (h.link (hdistinct.of_mem_chain hlast) hascends.1) hascends.2 hdistinct

/-- When not all pointers are claimed, the chain may be taken to go further. -/
theorem Links.mono (h : Links fine pnext p) (hfine : ¬fine) (hp : p ∈ q.chain) :
  Links fine pnext q
  := ⟨fun hash r hget => ⟨mem_chain_trans (h.up hash r hget).1 hp, (h.up hash r hget).2⟩,
    fun hcontra => absurd hcontra hfine⟩

end Links

/-! ## Switching the chain -/

section Switch

variable {env : Env} {io : Io} {node node' : Node} {fine : Prop} {block : CBlock}
variable {p best pindexNew : CBlockIndex}

theorem Indexed.distinct
    (h : node.Indexed env) (hp : node.mapBlockIndex[p.getBlockHash]? = some p) :
  Distinct p
  := by
  intro r hr s hs heq
  have hindexed := h.mem_chain hp hr
  rw [heq, h.mem_chain hp hs] at hindexed
  exact (Option.some.inj hindexed).symm

/-- What the state has of the main chain: the tip is an indexed block, and the pointers lead up to it. -/
def MainChain (fine : Prop) (node : Node) : Prop :=
  ∃ best, node.mapBlockIndex[best.getBlockHash]? = some best ∧ node.TipIs best
    ∧ Links fine node.pnext best

theorem invalidChainFound_pnext (node : Node) (pindexNew : CBlockIndex) :
  (node.invalidChainFound pindexNew).pnext = node.pnext
  := by
  rw [invalidChainFound]
  split_ifs
  · rfl
  · rfl

theorem setBestChainInner_pnext_of_false
    (h : (node.setBestChainInner env io block pindexNew).2 = false) :
  (node.setBestChainInner env io block pindexNew).1.pnext = node.pnext
  := by
  obtain ⟨txdb, -, heq⟩ | heq | heq := setBestChainInner_cases env io node block pindexNew
  · rw [heq] at h
    cases h
  · rw [heq]
  · rw [heq, invalidChainFound_pnext]

/-- `Reorganize` clears the pointers of the old branch and sets those of the new one. -/
theorem Links.reorganize
    (h : Links fine node.pnext best) (hindexed : node.Indexed env) (htip : node.pindexBest = some best)
    (hbest : node.mapBlockIndex[best.getBlockHash]? = some best)
    (hnew : node.mapBlockIndex[pindexNew.getBlockHash]? = some pindexNew)
    (hreorganize : node.reorganize env io pindexNew = some node') :
  Links fine node'.pnext pindexNew
  := by
  obtain ⟨best', pfork, txdb, vResurrect, txdb', vDelete, hbest', hfork, -, -, rfl⟩ :=
    reorganize_eq_some hreorganize
  obtain rfl := Option.some.inj (htip.symm.trans hbest')
  obtain ⟨hforkBest, hforkNew⟩ := mem_chain_of_findFork hfork
  obtain ⟨hascends, hlast⟩ := ascends_branch hforkNew
  have hunlinked := h.foldl_unlink (hindexed.distinct hbest) hforkBest
  have hlinked := hunlinked.foldl_link hascends (by rw [hlast]; exact hindexed.distinct hnew)
  rw [hlast] at hlinked
  exact hlinked

/-- The postponed blocks that are connected get their pointers, up to the first that is not. -/
theorem Links.connectPostponed
    {pindexes : List CBlockIndex} (h : Links fine node.pnext p) (hfine : ¬fine)
    (hascends : p.Ascends pindexes) (hdistinct : Distinct (pindexes.getLastD p)) :
  Links fine (node.connectPostponed env io pindexes).pnext (pindexes.getLastD p)
  := by
  induction pindexes generalizing p node with
  | nil => exact h
  | cons q rest ih =>
    have hlast := mem_chain_of_ascends hascends
    have hstop := h.mono hfine hlast
    rw [List.getLastD_cons] at hdistinct hlast hstop ⊢
    rw [Node.connectPostponed]
    split
    · exact hstop
    · rename_i block _
      simp only
      split_ifs with hbegin hinner
      · exact hstop
      · apply ih _ hascends.2 hdistinct
        rw [setBestChainInner_pnext hinner]
        exact h.link (hdistinct.of_mem_chain hlast) hascends.1
      · rw [setBestChainInner_pnext_of_false (Bool.eq_false_iff.mpr hinner)]
        exact hstop

/-- Switching to an indexed block keeps the pointers those of the chain of the tip; all of them, when the
switch is fine. -/
theorem MainChain.setBestChain
    (h : node.MainChain fine) (hindexed : node.Indexed env)
    (hnew : node.mapBlockIndex[pindexNew.getBlockHash]? = some pindexNew)
    (hpprev : pindexNew.pprev ≠ none)
    (hread : node.files.readFromDisk env pindexNew = some block)
    (hok : fine → node.TipAgrees env
      ∧ ∀ best, node.pindexBest = some best → SwitchOk env io node.files best pindexNew) :
  (node.setBestChain env io block pindexNew).1.MainChain fine
  := by
  obtain ⟨best, hbest, htip, hlinks⟩ := h
  have hhash := getHash_of_readFromDisk hread
  obtain (heq | heq) | ⟨hextends, hinner, heq⟩ | ⟨best', mid, hbest', -, hreorganize, heq⟩ :=
    setBestChain_cases env io hindexed.loaded block pindexNew
  · rw [heq]
    exact ⟨best, hbest, htip, hlinks⟩
  · rw [heq]
    obtain ⟨hstore, -, -, -, -, hsame⟩ := node.invalidChainFound_same pindexNew
    refine ⟨best, ?_, hsame best htip, ?_⟩
    · rw [hstore.mapBlockIndex]
      exact hbest
    · rw [invalidChainFound_pnext]
      exact hlinks
  · -- the block is on top of the tip
    have hbelow := hindexed.pprev_of_hashPrevBlock htip hbest hnew hpprev hread hextends
    rw [heq, hhash]
    refine ⟨pindexNew, ?_, tipIs_setTip _ _, ?_⟩
    · change (node.setBestChainInner env io block pindexNew).1.mapBlockIndex[_]? = _
      rw [(setBestChainInner_same env io node block pindexNew).1.mapBlockIndex]
      exact hnew
    · change Links fine (node.setBestChainInner env io block pindexNew).1.pnext pindexNew
      rw [setBestChainInner_pnext hinner]
      exact hlinks.link (hindexed.distinct hbest) hbelow
  · -- a reorganization, and the postponed blocks after it
    rw [htip.pindexBest] at hbest'
    obtain rfl := Option.some.inj hbest'
    obtain ⟨hfirst, hpostponed⟩ := pindexNew.postpone_spec best.bnChainWork
    obtain ⟨hascends, hlast⟩ := ascends_branch hfirst
    rw [hpostponed] at hascends hlast
    have hmid := hlinks.reorganize hindexed htip.pindexBest hbest (hindexed.mem_chain hnew hfirst)
      hreorganize
    have hsame := (reorganize_same hreorganize).1
    have hdistinct : Distinct ((pindexNew.postpone best.bnChainWork).2.reverse.getLastD
        (pindexNew.postpone best.bnChainWork).1) := by
      rw [hlast]
      exact hindexed.distinct hnew
    rw [heq, hhash]
    refine ⟨pindexNew, ?_, tipIs_setTip _ _, ?_⟩
    · change (mid.connectPostponed env io _).mapBlockIndex[_]? = _
      rw [(connectPostponed_same env io mid _).1.mapBlockIndex, hsame.mapBlockIndex]
      exact hnew
    · change Links fine (mid.connectPostponed env io _).pnext pindexNew
      by_cases hfine : fine
      · obtain ⟨⟨best', hbest', htip', hat⟩, hswitch⟩ := hok hfine
        obtain rfl := Option.some.inj (htip.pindexBest.symm.trans htip'.pindexBest)
        have hfineSwitch := hswitch best htip.pindexBest
        have hstoredNew : ∀ q ∈ pindexNew.chain, ChainStored env node.files q :=
          fun q hmem => hindexed.chainStored (hindexed.mem_chain hnew hmem)
        have hatMid := hat.reorganize htip.pindexBest (hindexed.chainStored hbest)
          (fun q hmem => hstoredNew q (mem_chain_trans hmem hfirst)) hfineSwitch.fresh hreorganize
        rw [(hatMid.connectPostponed io hascends ?_ ?_).2]
        · have hlinked := hmid.foldl_link hascends hdistinct
          rw [hlast] at hlinked
          exact hlinked
        · intro q hmem
          rw [hsame.files]
          rw [List.mem_reverse, ← hpostponed] at hmem
          exact hstoredNew q (mem_chain_of_mem_branch hmem)
        · intro q hmem
          rw [hsame.files]
          exact hfineSwitch.postponed q (List.mem_reverse.mp hmem)
      · have hlinked := @Links.connectPostponed env io mid fine _ _ hmid hfine hascends hdistinct
        rw [hlast] at hlinked
        exact hlinked

end Switch

/-! ## Runs -/

section Runs

variable {env : Env} {io : Io} {node node' : Node} {fine : Prop} {best pindexNew : CBlockIndex}

/-- What changes neither the index, the tip nor the pointers. -/
theorem MainChain.of_same
    (h : node.MainChain fine) (hmap : node'.mapBlockIndex = node.mapBlockIndex)
    (htips : ∀ best, node.TipIs best → node'.TipIs best) (hpnext : node'.pnext = node.pnext) :
  node'.MainChain fine
  := by
  obtain ⟨best, hbest, htip, hlinks⟩ := h
  refine ⟨best, ?_, htips best htip, ?_⟩
  · rw [hmap]
    exact hbest
  · rw [hpnext]
    exact hlinks

theorem MainChain.of_onlyMarks (h : node.MainChain fine) (hmarks : OnlyMarks node node') :
  node'.MainChain fine
  := h.of_same hmarks.store.mapBlockIndex hmarks.tip hmarks.pnext

theorem MainChain.activateBestValidChain
    (h : node.MainChain fine) (hindexed : node.Indexed env)
    (hok : fine → node.TipAgrees env ∧ ∀ best, node.pindexBest = some best →
      SwitchOk env io node.files best (node.bestCandidate best)) :
  (node.activateBestValidChain env io).1.MainChain fine
  := by
  obtain ⟨best, hbest, htip, -⟩ := id h
  obtain heq | ⟨block, hne, hread, heq⟩ := activateBestValidChain_cases env io htip.pindexBest
  · rw [heq]
    exact h
  · rw [heq]
    have hcandidate := hindexed.bestCandidate hbest
    apply h.setBestChain hindexed hcandidate _ hread
    · intro hfine
      refine ⟨(hok hfine).1, fun best' hbest' => ?_⟩
      obtain rfl := Option.some.inj (htip.pindexBest.symm.trans hbest')
      exact (hok hfine).2 best htip.pindexBest
    · obtain ⟨hsame | ⟨-, -, -, hmore⟩, -⟩ := node.bestCandidate_spec best
      · exact absurd hsame hne
      · obtain ⟨entry, pprev, heq⟩ := hindexed.exists_next_of_lt hbest hcandidate hmore
        rw [heq]
        apply Option.some_ne_none

/-- Rolling back reorganizes and postpones nothing. -/
theorem MainChain.rollBack
    (h : node.MainChain fine) (hindexed : node.Indexed env)
    (hroll : node.rollBack env io = some node') :
  node'.MainChain fine
  := by
  obtain ⟨best, hbest, htip, hlinks⟩ := id h
  obtain ⟨best', hbest', ⟨-, rfl⟩ | ⟨target, mid, -, hfind, hmid, rfl⟩⟩ := rollBack_cases hroll
  · exact h
  · obtain rfl := Option.some.inj (htip.pindexBest.symm.trans hbest')
    have htarget := hindexed.mem_chain hbest (List.mem_of_find?_eq_some hfind)
    have hlinked := hlinks.reorganize hindexed htip.pindexBest hbest htarget hmid
    refine ⟨target, ?_, tipIs_setTip _ _, hlinked⟩
    change mid.mapBlockIndex[target.getBlockHash]? = some target
    rw [(reorganize_same hmid).1.mapBlockIndex]
    exact htarget

variable {entry : BlockEntry}

theorem MainChain.insertEntry
    (h : node.MainChain fine) {received : ReceivedBlock} {files : BlockFiles}
    {pprev : CBlockIndex} (hinserts : Inserts env io node received files entry pprev) :
  ((node.setFiles files).insertEntry (.next entry pprev)).MainChain fine
  := by
  obtain ⟨best, -, htip, hlinks⟩ := h
  obtain ⟨best', htip', hbest'⟩ := hinserts.indexed.tip
  obtain rfl := Option.some.inj (htip.pindexBest.symm.trans htip'.pindexBest)
  exact ⟨best, hbest', htip', hlinks⟩

theorem MainChain.accept
    (h : node.MainChain fine) (hindexed : node.Indexed env) (received : ReceivedBlock)
    (hcheck : received.block.checkBlock env io.nCheckTime = true)
    (hok : fine → node.TipAgrees env ∧ node.OpOk env (.accept io received)) :
  (node.acceptBlock env io received.block).1.MainChain fine
  := by
  obtain heq | ⟨files, entry, pprev, hinserts, halternatives⟩ :=
    accept_cases hindexed received hcheck
  · rw [heq]
    exact h
  · have hinserted := h.insertEntry hinserts
    have hwritten : (((node.setFiles files).insertEntry (.next entry pprev)).writeEntry io
        (.next entry pprev)).MainChain fine :=
      hinserted.of_same rfl (fun _ htip => ⟨htip.1, htip.2, htip.3, htip.4⟩) rfl
    obtain ⟨-, heq⟩ | ⟨-, heq⟩ | ⟨hovertakes, heq⟩ := halternatives
    · rw [heq]
      exact hinserted
    · rw [heq]
      exact hwritten
    · rw [heq]
      apply hwritten.setBestChain (hinserts.indexed.writeEntry io _)
        (getElem?_insertEntry_self _ _) (Option.some_ne_none _) hinserts.stored.readFromDisk_eq
      intro hfine
      obtain ⟨hagrees, hop⟩ := hok hfine
      refine ⟨(hagrees.insertEntry hindexed hinserts).writeEntry io _, fun best' hbest' => ?_⟩
      exact hop best' files entry pprev hbest' hinserts hovertakes

/-- Every operation keeps the pointers those of the chain of the tip; all of them, when its switches are
fine. -/
theorem MainChain.step
    (h : node.MainChain fine) (hindexed : node.Indexed env) (op : Op)
    (hok : fine → node.TipAgrees env ∧ node.OpOk env op) :
  (node.step env op).MainChain fine
  := by
  cases op with
  | accept io received =>
    rw [Node.step]
    split_ifs with hcheck
    · exact h.accept hindexed received hcheck hok
    · exact h
  | invalidate io hash =>
    simp only [Node.step]
    split
    · exact h
    · rename_i pindex hpindex
      obtain ⟨marked, hmarks, heq | ⟨hflags, rolled, hrolled, heq⟩⟩ :=
        invalidateBlock_cases env io node pindex
      · rw [heq]
        exact h.of_onlyMarks hmarks
      · rw [heq]
        have hmarked := hindexed.of_onlyMarks hmarks
        apply ((h.of_onlyMarks hmarks).rollBack hmarked hrolled).activateBestValidChain
          (hmarked.rollBack hrolled)
        intro hfine
        obtain ⟨hagrees, hop⟩ := hok hfine
        exact hagrees.rolled hindexed hop hpindex hmarks hflags hrolled
  | reconsider io hash =>
    simp only [Node.step]
    split
    · exact h
    · rename_i pindex hpindex
      obtain ⟨marked, hmarks, heq | ⟨hflags, heq⟩⟩ := reconsiderBlock_cases env io node pindex
      · rw [heq]
        exact h.of_onlyMarks hmarks
      · rw [heq]
        apply (h.of_onlyMarks hmarks).activateBestValidChain (hindexed.of_onlyMarks hmarks)
        intro hfine
        obtain ⟨hagrees, hop⟩ := hok hfine
        obtain ⟨best, hbest, htip, -⟩ := id h
        refine ⟨hagrees.of_onlyMarks hmarks, fun best' hbest' => ?_⟩
        obtain rfl := Option.some.inj ((hmarks.tip best htip).pindexBest.symm.trans hbest')
        have hmap : marked.mapBlockIndex = (node.unmarkChain pindex).mapBlockIndex :=
          hmarks.store.mapBlockIndex
        rw [bestCandidate_congr hmap hflags.failed, hmarks.store.files]
        exact hop best pindex htip.pindexBest hpindex
  | acceptTx tx fCheckInputs fRateLimited =>
    obtain ⟨mempool, heq⟩ := node.exists_acceptTx env tx fCheckInputs fRateLimited
    rw [Node.step, heq]
    exact h.of_same rfl (fun _ htip => ⟨htip.1, htip.2, htip.3, htip.4⟩) rfl
  | removeTx tx => exact h.of_same rfl (fun _ htip => ⟨htip.1, htip.2, htip.3, htip.4⟩) rfl

theorem Started.mainChain (h : Started env node entry) (fine : Prop) :
  node.MainChain fine
  := by
  refine ⟨.first entry, (h.mapBlockIndex _ _).mpr ⟨rfl, rfl⟩, h.tip, ?_, ?_⟩
  · intro hash q hget
    rw [h.pnext, ExtTreeMap.getElem?_empty] at hget
    cases hget
  · intro _ q hq p hp
    obtain rfl := List.mem_singleton.mp hq
    cases hp

/-- In every run the pointers lead up to the tip, and they are all there when all switches of the chain
are fine. -/
theorem mainChain_run
    (h : load env io = some node) (ops : List Op)
    (hok : fine → Transition.Along (step env) (OpOk env) node ops) :
  (Transition.run (step env) node ops).MainChain fine
  := by
  obtain ⟨entry, hstarted⟩ := started_of_load h
  by_cases hfine : fine
  · have hstep : ∀ (node : Node) (op : Op), node.OpOk env op →
        node.Indexed env ∧ node.TipAgrees env ∧ node.MainChain fine →
        (node.step env op).Indexed env ∧ (node.step env op).TipAgrees env
          ∧ (node.step env op).MainChain fine :=
      fun node op hop h => ⟨h.1.step op, h.2.1.step h.1 op hop,
        h.2.2.step h.1 op (fun _ => ⟨h.2.1, hop⟩)⟩
    exact (Transition.run_invariant hstep (hok hfine)
      ⟨hstarted.indexed, hstarted.tipAgrees, hstarted.mainChain fine⟩).2.2
  · have hstep : ∀ (node : Node) (op : Op), True → node.Indexed env ∧ node.MainChain fine →
        (node.step env op).Indexed env ∧ (node.step env op).MainChain fine :=
      fun node op _ h => ⟨h.1.step op, h.2.step h.1 op (fun hcontra => absurd hcontra hfine)⟩
    exact (Transition.run_invariant hstep (Transition.along_of_forall_mem (fun _ _ _ => trivial) node)
      ⟨hstarted.indexed, hstarted.mainChain fine⟩).2

/-- The first block is the same, and no entry is taken out of the index. -/
structure Grows (node node' : Node) : Prop where
  genesis : node'.pindexGenesisBlock = node.pindexGenesisBlock
  keeps : ∀ (hash : uint256) (p : CBlockIndex), node.mapBlockIndex[hash]? = some p →
    node'.mapBlockIndex[hash]? = some p

theorem SameStore.grows (h : SameStore node node') :
  Grows node node'
  := ⟨h.pindexGenesisBlock, fun hash p hp => by rw [h.mapBlockIndex]; exact hp⟩

theorem Grows.trans {node'' : Node} (h : Grows node node') (h' : Grows node' node'') :
  Grows node node''
  := ⟨h'.genesis.trans h.genesis, fun hash p hp => h'.keeps hash p (h.keeps hash p hp)⟩

theorem Inserts.grows
    {received : ReceivedBlock} {files : BlockFiles} {pprev : CBlockIndex}
    (h : Inserts env io node received files entry pprev) :
  Grows node ((node.setFiles files).insertEntry (.next entry pprev))
  := by
  refine ⟨rfl, fun hash p hp => ?_⟩
  change (node.mapBlockIndex.insert entry.hash (.next entry pprev))[hash]? = some p
  rw [TreeMap.getElem?_insert_ite]
  split_ifs with heq
  · rw [← heq, h.new] at hp
    cases hp
  · exact hp

theorem Indexed.grows_step (h : node.Indexed env) (op : Op) :
  Grows node (node.step env op)
  := by
  cases op with
  | accept io received =>
    by_cases hcheck : received.block.checkBlock env io.nCheckTime = true
    · obtain heq | ⟨files, entry, pprev, hinserts, -⟩ := accept_cases h received hcheck
      · rw [Node.step, if_pos hcheck, heq]
        exact (SameStore.refl node).grows
      · exact hinserts.grows.trans hinserts.sameStore.grows
    · rw [Node.step, if_neg hcheck]
      exact (SameStore.refl node).grows
  | invalidate io hash =>
    simp only [Node.step]
    split
    · exact (SameStore.refl node).grows
    · exact (invalidateBlock_store io h _).grows
  | reconsider io hash =>
    simp only [Node.step]
    split
    · exact (SameStore.refl node).grows
    · exact (reconsiderBlock_store io h _).grows
  | acceptTx tx fCheckInputs fRateLimited =>
    obtain ⟨mempool, heq⟩ := node.exists_acceptTx env tx fCheckInputs fRateLimited
    rw [Node.step, heq]
    exact ⟨rfl, fun _ _ hp => hp⟩
  | removeTx tx => exact ⟨rfl, fun _ _ hp => hp⟩

theorem Indexed.grows_run (h : node.Indexed env) (ops : List Op) :
  (Transition.run (Node.step env) node ops).Indexed env
    ∧ Grows node (Transition.run (Node.step env) node ops)
  := by
  have hstep : ∀ (node' : Node) (op : Op), True → node'.Indexed env ∧ Grows node node' →
      (node'.step env op).Indexed env ∧ Grows node (node'.step env op) :=
    fun node' op _ h => ⟨h.1.step op, h.2.trans (h.1.grows_step op)⟩
  exact Transition.run_invariant hstep
    (Transition.along_of_forall_mem (fun _ _ _ => trivial) node) ⟨h, (SameStore.refl node).grows⟩

/-- The first block keeps its hash and stays in the index. -/
theorem genesis_run (h : load env io = some node) (ops : List Op) :
  ∃ entry, (Transition.run (step env) node ops).mapBlockIndex[hashGenesisBlock env]?
      = some (.first entry)
    ∧ (Transition.run (step env) node ops).pindexGenesisBlock = some (.first entry)
  := by
  obtain ⟨entry, hstarted⟩ := started_of_load h
  obtain ⟨-, hgrows⟩ := hstarted.indexed.grows_run ops
  refine ⟨entry, hgrows.keeps _ _ ((hstarted.mapBlockIndex _ _).mpr ⟨hstarted.hash_eq, rfl⟩), ?_⟩
  rw [hgrows.genesis]
  exact hstarted.pindexGenesisBlock

/-! ## Which blocks are on the main chain -/

/-- What `IsInMainChain` takes for the main chain is on the chain of the tip. -/
theorem mem_chain_of_isInMainChain
    {p : CBlockIndex} (h : node.MainChain fine) (hindexed : node.Indexed env)
    (hp : node.mapBlockIndex[p.getBlockHash]? = some p) (hbest : node.pindexBest = some best)
    (hmain : node.isInMainChain p = true) :
  p ∈ best.chain
  := by
  obtain ⟨best', hindexedBest, htip, hlinks⟩ := h
  obtain rfl := Option.some.inj (htip.pindexBest.symm.trans hbest)
  rw [isInMainChain, Bool.or_eq_true, beq_iff_eq, htip.pindexBest] at hmain
  rcases hmain with hnext | hsame
  · rw [ExtTreeMap.contains_iff_mem, ExtTreeMap.mem_iff_isSome_getElem?] at hnext
    obtain ⟨q, hq⟩ := Option.isSome_iff_exists.mp hnext
    obtain ⟨hmem, hpprev⟩ := hlinks.up _ q hq
    obtain ⟨r, hr, hhash⟩ := Option.map_eq_some_iff.mp hpprev
    have hmemr := pprev_mem_chain hmem hr
    have hindexedr := hindexed.mem_chain hindexedBest hmemr
    rw [hhash, hp] at hindexedr
    rw [Option.some.inj hindexedr]
    exact hmemr
  · rw [← Option.some.inj hsame]
    exact mem_chain_self _

/-- When all pointers are there, the blocks of the chain of the tip are on the main chain. -/
theorem isInMainChain_of_mem_chain
    {p : CBlockIndex} (h : node.MainChain fine) (hfine : fine) (hbest : node.pindexBest = some best)
    (hp : p ∈ best.chain) :
  node.isInMainChain p = true
  := by
  obtain ⟨best', -, htip, hlinks⟩ := h
  obtain rfl := Option.some.inj (htip.pindexBest.symm.trans hbest)
  rw [isInMainChain, Bool.or_eq_true, beq_iff_eq, htip.pindexBest]
  by_cases hlast : p = best'
  · rw [hlast]
    exact .inr rfl
  · left
    obtain ⟨q, hq, hpprev⟩ : ∃ q ∈ best'.chain, q.pprev = some p := by
      clear hlinks htip hbest
      induction best' with
      | first entry => exact absurd (List.mem_singleton.mp hp) hlast
      | next entry pprev ih =>
        have hbelow := (List.mem_cons.mp hp).resolve_left hlast
        by_cases heq : p = pprev
        · exact ⟨_, List.mem_cons_self, by rw [heq]; rfl⟩
        · obtain ⟨q, hq, hpprev⟩ := ih hbelow heq
          exact ⟨q, List.mem_cons_of_mem _ hq, hpprev⟩
    rw [ExtTreeMap.contains_iff_mem, ExtTreeMap.mem_iff_isSome_getElem?, hlinks.all hfine q hq p hpprev]
    rfl

end Runs

end Node

end CorgiCoin
