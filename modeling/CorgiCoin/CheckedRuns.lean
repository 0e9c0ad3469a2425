import CorgiCoin.Tip

/-!
# Switches that are checked

The condition on the switches of the chain is about all that can be read from the disk.  On a given node it
can be computed: what the blocks to disconnect repeat, and whether the postponed ones connect.
-/

namespace CorgiCoin

open Std

section Checks

variable (env : Env) (io : Io) (files : BlockFiles)

/-- The transactions of the block of an entry, if it can be read. -/
def readTxids (pindex : CBlockIndex) : List uint256 :=
  (files.readFromDisk env pindex).elim [] (·.txids env)

/-- The computed condition on the blocks to disconnect. -/
def checkFresh (best pindexNew : CBlockIndex) : Bool :=
  (best.findFork pindexNew).all (fun pfork => (best.branch pfork).all (fun pindex =>
    pindex.chain.tail.all (fun p =>
      p.pprev.isNone || (readTxids env files pindex).all (fun hash => !(readTxids env files p).contains hash))))

/-- The computed condition on a switch. -/
def checkSwitch (best pindexNew : CBlockIndex) : Bool :=
  let (pindexIntermediate, vpindexSecondary) := pindexNew.postpone best.bnChainWork
  checkFresh env files best pindexIntermediate
    && vpindexSecondary.all (fun p =>
      (io.reads p.getBlockHash && io.beginsPostponed p.getBlockHash && io.writes p.getBlockHash
        && io.commits p.getBlockHash)
      && p.pprev.isSome && (replay env files (io.nAdjustedTime p.getBlockHash) p).isSome)

variable {env io files}

theorem disconnectsFresh_of_check
    {best pindexNew : CBlockIndex} (h : checkFresh env files best pindexNew = true) :
  DisconnectsFresh env files best pindexNew
  := by
  intro pfork hfork pindex hpindex block hblock p hp block' hpprev hblock' hash hhash hhash'
  rw [checkFresh, hfork, Option.all_some, List.all_eq_true] at h
  have hp := List.all_eq_true.mp (h pindex hpindex) p hp
  rw [readTxids, readTxids, hblock, hblock', Bool.or_eq_true, Option.isNone_iff_eq_none] at hp
  have hnot := List.all_eq_true.mp (hp.resolve_left hpprev) hash hhash
  rw [Option.elim_some, List.contains_iff_mem.mpr hhash'] at hnot
  cases hnot

theorem connectsOn_of_replay
    {nAdjustedTime : ℤ} {pindex : CBlockIndex} (hpprev : pindex.pprev.isSome = true)
    (h : (replay env files nAdjustedTime pindex).isSome = true) :
  ConnectsOn env files nAdjustedTime pindex
  := by
  cases pindex with
  | first entry => cases hpprev
  | next entry pprev =>
    obtain ⟨index', hreplay⟩ := Option.isSome_iff_exists.mp h
    simp only [replay, Option.bind_eq_bind, Option.bind_eq_some_iff] at hreplay
    obtain ⟨index, hindex, block, hread, hconnect⟩ := hreplay
    exact ⟨pprev, index, block, rfl, ⟨_, hindex⟩, hread, Option.isSome_of_eq_some hconnect⟩

theorem switchOk_of_check
    {best pindexNew : CBlockIndex} (h : checkSwitch env io files best pindexNew = true) :
  SwitchOk env io files best pindexNew
  := by
  obtain ⟨hfresh, hpostponed⟩ := Bool.and_eq_true_iff.mp h
  constructor
  · apply disconnectsFresh_of_check hfresh
  · intro p hp
    have hchecked := List.all_eq_true.mp hpostponed p hp
    simp only [Bool.and_eq_true] at hchecked
    obtain ⟨⟨⟨⟨⟨hreads, hbegins⟩, hwrites⟩, hcommits⟩, hpprev⟩, hreplay⟩ := hchecked
    exact ⟨⟨hreads, hbegins, hwrites, hcommits⟩, connectsOn_of_replay hpprev hreplay⟩

end Checks

namespace Node

/-- The computed condition on an operation: blocks are accepted on the tip, and the switches of the others
are checked. -/
def Checked (env : Env) (node : Node) : Op → Prop
  | .accept _ received => received.block.hashPrevBlock = node.hashBestChain
  | .invalidate io hash => ∀ best ∈ node.pindexBest, ∀ pindex ∈ node.mapBlockIndex[hash]?,
    ∀ target ∈ (node.markInvalidated pindex).rollTarget best,
      checkFresh env node.files best target
        && checkSwitch env io node.files target ((node.markInvalidated pindex).bestCandidate target)
  | .reconsider io hash => ∀ best ∈ node.pindexBest, ∀ pindex ∈ node.mapBlockIndex[hash]?,
    checkSwitch env io node.files best ((node.unmarkChain pindex).bestCandidate best)
  | _ => True

instance (env : Env) (node : Node) : (op : Op) → Decidable (node.Checked env op)
  | .accept _ _ => inferInstanceAs (Decidable (_ = _))
  | .invalidate _ _ => inferInstanceAs (Decidable (∀ best ∈ node.pindexBest, _))
  | .reconsider _ _ => inferInstanceAs (Decidable (∀ best ∈ node.pindexBest, _))
  | .acceptTx _ _ _ | .removeTx _ => isTrue trivial

variable {env : Env} {node : Node}

/-- Accepting a block on top of the tip switches the chain without a reorganization. -/
theorem opOk_next
    {best : CBlockIndex} (htip : node.TipIs best)
    (hbest : node.mapBlockIndex[best.getBlockHash]? = some best) (io : Io) {received : ReceivedBlock}
    (hprev : received.block.hashPrevBlock = node.hashBestChain) :
  node.OpOk env (.accept io received)
  := by
  intro best' files entry pprev hbest' hinserts _
  have hindexed := hinserts.pprev_indexed
  rw [← hinserts.stored.prev_eq, hprev, htip.hashBestChain, hbest] at hindexed
  obtain rfl := Option.some.inj hindexed
  obtain rfl := Option.some.inj (htip.pindexBest.symm.trans hbest')
  apply switchOk_of_pprev rfl

theorem Checked.opOk
    (hindexed : node.Indexed env) {op : Op} (h : node.Checked env op) :
  node.OpOk env op
  := by
  cases op with
  | accept io received =>
    obtain ⟨best, htip, hbest⟩ := hindexed.tip
    exact opOk_next htip hbest io h
  | invalidate io hash =>
    intro best target pindex hbest hpindex htarget
    obtain ⟨hfresh, hswitch⟩ := Bool.and_eq_true_iff.mp (h best hbest pindex hpindex target htarget)
    exact ⟨disconnectsFresh_of_check hfresh, switchOk_of_check hswitch⟩
  | reconsider io hash =>
    intro best pindex hbest hpindex
    exact switchOk_of_check (h best hbest pindex hpindex)
  | acceptTx | removeTx => trivial

/-- The switches of a checked run are fine. -/
theorem along_of_checked
    {io : Io} {start : Node} {ops : List Op} (hload : load env io = some start)
    (h : Transition.Along (step env) (Checked env) start ops) :
  Transition.Along (step env) (OpOk env) start ops
  := Transition.Along.of_invariant (fun _ op _ hindexed => hindexed.step op)
    (fun _ _ hop hindexed => hop.opOk hindexed) h (indexed_run hload [])

/-! ## A reorganization with a postponed block -/

/-- Two blocks on top of the lower one. -/
def middleBlock : ReceivedBlock where
  block := sampleChild (lowBlock.block.getHash sampleEnv) 1774996922 [1, 2] 1000
  fits := by decide
  present := by decide
  size_le := by decide +kernel

def topBlock : ReceivedBlock where
  block := sampleChild (middleBlock.block.getHash sampleEnv) 1774996982 [1, 3] 1000
  fits := by decide
  present := by decide
  size_le := by decide +kernel

/-- A block beside the lower one. -/
def sideBlock : ReceivedBlock where
  block := sampleChild (hashGenesisBlock sampleEnv) 1774996863 [1, 4] 1000
  fits := by decide
  present := by decide
  size_le := by decide +kernel

/-- The lower block is invalidated with the two on top of it, the side block takes its place, and the lower
one is reconsidered: the chain is reorganized to the middle block, and the top one is postponed. -/
def returnOps : List Op :=
  [ .accept sampleIo lowBlock,
    .accept sampleIo middleBlock,
    .accept sampleIo topBlock,
    .invalidate sampleIo (lowBlock.block.getHash sampleEnv),
    .accept sampleIo sideBlock,
    .reconsider sampleIo (lowBlock.block.getHash sampleEnv) ]

theorem returnOps_checked :
  ∃ start, load sampleEnv sampleIo = some start
    ∧ Transition.Along (step sampleEnv) (OpOk sampleEnv) start returnOps
    ∧ (Transition.run (step sampleEnv) start (returnOps.take 5)).hashBestChain
      = sideBlock.block.getHash sampleEnv
    ∧ (Transition.run (step sampleEnv) start returnOps).hashBestChain = topBlock.block.getHash sampleEnv
  := by
  have heval : (load sampleEnv sampleIo).map (fun start =>
      decide (Transition.Along (step sampleEnv) (Checked sampleEnv) start returnOps
        ∧ (Transition.run (step sampleEnv) start (returnOps.take 5)).hashBestChain
          = sideBlock.block.getHash sampleEnv
        ∧ (Transition.run (step sampleEnv) start returnOps).hashBestChain
          = topBlock.block.getHash sampleEnv)) = some true := by
    decide +kernel
  obtain ⟨start, hload, hdecided⟩ := Option.map_eq_some_iff.mp heval
  obtain ⟨hchecked, hside, htop⟩ := of_decide_eq_true hdecided
  exact ⟨start, hload, along_of_checked hload hchecked, hside, htop⟩

/-- The node that comes back to the lower block has the top one in memory and in the database. -/
theorem returnOps_tip_agrees :
  ∃ start, load sampleEnv sampleIo = some start ∧
    let node := Transition.run (step sampleEnv) start returnOps
    node.hashBestChain = topBlock.block.getHash sampleEnv ∧ node.TipAgrees sampleEnv
  := by
  obtain ⟨start, hload, halong, -, htop⟩ := returnOps_checked
  exact ⟨start, hload, htop, (tip_agrees sampleEnv sampleIo start returnOps hload halong).1⟩

end Node

end CorgiCoin
