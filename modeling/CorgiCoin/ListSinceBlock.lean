import CorgiCoin.ListTransactions
import CorgiCoin.Locator

/-!
# Listing transactions since a block

`listsinceblock` finds the last block of the main chain below the block it is given with the locator of
that block, and lists the wallet transactions that are not as deep as the block it found.  So it leaves
out a transaction only if that is confirmed in the given block or below it, whichever branch the block
is on and whatever happened to the chain since.
-/

namespace CorgiCoin

open Std CBlockIndex

/-! ## The depth of a transaction -/

namespace Node

/-- `CMerkleTx::GetDepthInMainChain`, the flag `fMerkleVerified` given. -/
def getDepthInMainChain (env : Env) (node : Node) (fMerkleVerified : Bool) (tx : CMerkleTx) : ℤ :=
  if tx.hashBlock = 0 ∨ tx.nIndex = -1 then 0
  else
    match node.mapBlockIndex[tx.hashBlock]? with
    | none => 0
    | some pindex =>
      if !node.isInMainChain pindex then 0
      else if !fMerkleVerified && checkMerkleBranch env.crypto (tx.getHash env.crypto) tx.vMerkleBranch
          tx.nIndex != pindex.entry.hashMerkleRoot then 0
      else
        match node.pindexBest with
        | none => 0
        | some pindexBest => (pindexBest.nHeight : ℤ) - pindex.nHeight + 1

/-- The node as the wallet sees it.  The flags that say which transactions have been verified are given. -/
def chainView (env : Env) (node : Node) (nAdjustedTime : ℤ) (fMerkleVerified : CMerkleTx → Bool) :
    ChainView where
  nBestHeight := node.nBestHeight
  nAdjustedTime := nAdjustedTime
  depth tx := node.getDepthInMainChain env (fMerkleVerified tx) tx

/-! ## listsinceblock -/

/-- The block that `lastblock` names when more than one confirmation is asked for. -/
def blockAt (target_height : ℤ) (pindexBest : CBlockIndex) : Option CBlockIndex :=
  pindexBest.chain.find? (fun block => !decide ((block.nHeight : ℤ) > target_height))

/-- `lastblock` -/
def lastBlock (node : Node) (target_confirms : ℤ) : uint256 :=
  if target_confirms = 1 then node.hashBestChain
  else
    ((node.pindexBest.bind (fun pindexBest =>
      blockAt (pindexBest.nHeight + 1 - target_confirms) pindexBest)).map getBlockHash).getD 0

end Node

namespace ListWallet

variable (hash160 : Bytes → uint160) (w : ListWallet) (env : Env) (node : Node) (view : ChainView)

/-- The loop over the wallet. -/
def listSinceDepth (depth : ℤ) : List CListedTx → Option (List Object)
  | [] => some []
  | tx :: txs => do
    let entries ← (if depth = -1 ∨ view.depth tx.toCMerkleTx < depth then
      w.listTransactions env.crypto hash160 view "*" 0 true tx else some [])
    let transactions ← listSinceDepth depth txs
    return entries ++ transactions

/-- `listsinceblock`: the transactions and `lastblock`; `none` where it throws an exception. -/
def listsinceblock (blockId : Option uint256) (target_confirms : Option Int32) :
    Option (List Object × uint256) :=
  let pindex := blockId.bind (fun blockId => node.locatorGetBlockIndex (node.locatorOfHash env blockId))
  let target_confirms := (target_confirms.map Int32.toInt).getD 1
  if target_confirms < 1 then none
  else do
    let depth :=
      match pindex with
      | none => -1
      | some pindex => 1 + node.nBestHeight - pindex.nHeight
    let transactions ← w.listSinceDepth hash160 env view depth (w.mapListed.toList.map Prod.snd)
    return (transactions, node.lastBlock target_confirms)

end ListWallet

/-! ## What the locator finds in a node's own index -/

theorem mem_setLoop
    {turns nStep : ℕ} {vHave : List uint256} {p : CBlockIndex} {o : Option CBlockIndex} {hash : uint256}
    (ho : ∀ q, o = some q → q ∈ p.chain) (h : hash ∈ setLoop turns nStep vHave o) :
  hash ∈ vHave ∨ ∃ a ∈ p.chain, a.getBlockHash = hash
  := by
  induction turns generalizing nStep vHave o with
  | zero => exact .inl h
  | succ turns ih =>
    cases o with
    | none => exact .inl h
    | some q =>
      rw [setLoop] at h
      have hq := ho q rfl
      have hnext : ∀ r, stepBack nStep (some q) = some r → r ∈ p.chain := by
        intro r hr
        rw [stepBack_eq] at hr
        exact mem_chain_trans (List.mem_of_getElem? hr) hq
      rcases ih hnext h with hmem | hfound
      · rcases List.mem_append.mp hmem with hmem | hmem
        · exact .inl hmem
        · obtain rfl := List.mem_singleton.mp hmem
          exact .inr ⟨q, hq, rfl⟩
      · exact .inr hfound

namespace Node

section Since

variable {env : Env} {node : Node} {fine : Prop} {p best pindex : CBlockIndex}

/-- The block that is found for the hash of an indexed block is below that block and the tip. -/
theorem locatorOfHash_spec
    (hindexed : node.Indexed env) (hmain : node.MainChain fine)
    (hgenesis : ∃ entry, node.mapBlockIndex[hashGenesisBlock env]? = some (.first entry)
      ∧ node.pindexGenesisBlock = some (.first entry))
    (hpindex : node.mapBlockIndex[pindex.getBlockHash]? = some pindex)
    (hbest : node.pindexBest = some best) :
  ∃ p, node.locatorGetBlockIndex (node.locatorOfHash env pindex.getBlockHash) = some p
    ∧ p ∈ pindex.chain ∧ p ∈ best.chain
  := by
  obtain ⟨best', htip, hindexedBest⟩ := hindexed.tip
  obtain rfl := Option.some.inj (htip.pindexBest.symm.trans hbest)
  obtain ⟨entry, hget, hfirst⟩ := hgenesis
  have hbelow : ∀ q : CBlockIndex, node.mapBlockIndex[q.getBlockHash]? = some q → CBlockIndex.first entry ∈ q.chain := by
    intro q hq
    obtain ⟨genesis, hgenesis, hmem⟩ := hindexed.genesis_mem_chain hq
    rw [Option.some.inj (hfirst.symm.trans hgenesis)]
    exact hmem
  rw [locatorOfHash, hpindex, locatorGetBlockIndex]
  cases hfound : (locatorSet env pindex).findSome?
      (fun hash => node.mapBlockIndex[hash]?.filter node.isInMainChain) with
  | none =>
    refine ⟨.first entry, hfirst, hbelow _ hpindex, hbelow _ hindexedBest⟩
  | some p =>
    refine ⟨p, rfl, ?_⟩
    obtain ⟨hash, hmem, hp⟩ := List.exists_of_findSome?_eq_some hfound
    obtain ⟨hgetp, hin⟩ := Option.filter_eq_some_iff.mp hp
    have hkey := hindexed.key _ _ hgetp
    have hself : node.mapBlockIndex[p.getBlockHash]? = some p := by
      rw [hkey]
      exact hgetp
    refine ⟨?_, mem_chain_of_isInMainChain hmain hindexed hself hbest hin⟩
    rcases List.mem_append.mp hmem with hwalk | hlast
    · have hstart : ∀ q, some pindex = some q → q ∈ pindex.chain := by
        intro q hq
        rw [← Option.some.inj hq]
        exact mem_chain_self _
      rcases mem_setLoop hstart hwalk with hcontra | ⟨a, ha, hhash⟩
      · cases hcontra
      · have hgeta := hindexed.mem_chain hpindex ha
        rw [hhash, hgetp] at hgeta
        rw [Option.some.inj hgeta]
        exact ha
    · rw [List.mem_singleton.mp hlast, hget] at hgetp
      rw [← Option.some.inj hgetp]
      exact hbelow _ hpindex

/-- A transaction is confirmed in a block when it has the hash of the block and a branch to its root. -/
structure ConfirmedIn (env : Env) (fMerkleVerified : CMerkleTx → Bool) (p : CBlockIndex) (tx : CMerkleTx) :
    Prop where
  hashBlock : tx.hashBlock = p.getBlockHash
  hashBlock_ne : tx.hashBlock ≠ 0
  nIndex_ne : tx.nIndex ≠ -1
  verified : fMerkleVerified tx = true
    ∨ checkMerkleBranch env.crypto (tx.getHash env.crypto) tx.vMerkleBranch tx.nIndex
      = p.entry.hashMerkleRoot

/-- A transaction is confirmed in a block or below it. -/
def ConfirmedUnder (env : Env) (fMerkleVerified : CMerkleTx → Bool) (pindex : CBlockIndex) (tx : CMerkleTx) :
    Prop :=
  ∃ p ∈ pindex.chain, ConfirmedIn env fMerkleVerified p tx

/-- What is deep is confirmed in a block of the main chain. -/
theorem confirmedIn_of_depth
    {fMerkleVerified : CMerkleTx → Bool} {tx : CMerkleTx} (hindexed : node.Indexed env)
    (hmain : node.MainChain fine) (hbest : node.pindexBest = some best)
    (hdepth : 0 < node.getDepthInMainChain env (fMerkleVerified tx) tx) :
  ∃ p ∈ best.chain, ConfirmedIn env fMerkleVerified p tx
    ∧ node.getDepthInMainChain env (fMerkleVerified tx) tx = (best.nHeight : ℤ) - p.nHeight + 1
  := by
  rw [getDepthInMainChain] at hdepth ⊢
  split_ifs at hdepth ⊢ with hnull
  · exact absurd hdepth (lt_irrefl _)
  · rw [not_or] at hnull
    cases hget : node.mapBlockIndex[tx.hashBlock]? with
    | none =>
      rw [hget] at hdepth
      exact absurd hdepth (lt_irrefl _)
    | some p =>
      rw [hget] at hdepth
      have hkey := hindexed.key _ _ hget
      have hself : node.mapBlockIndex[p.getBlockHash]? = some p := by
        rw [hkey]
        exact hget
      dsimp only at hdepth ⊢
      split_ifs at hdepth ⊢ with hin hroot
      · exact absurd hdepth (lt_irrefl _)
      · exact absurd hdepth (lt_irrefl _)
      · rw [Bool.not_eq_true', Bool.not_eq_false] at hin
        refine ⟨p, mem_chain_of_isInMainChain hmain hindexed hself hbest hin,
          ⟨hkey.symm, hnull.1, hnull.2, ?_⟩, by rw [hbest]⟩
        rw [Bool.and_eq_true, not_and_or, Bool.not_eq_true', Bool.not_eq_false] at hroot
        refine hroot.imp_right (fun hsame => ?_)
        rwa [bne_iff_ne, ne_eq, not_not] at hsame

end Since

end Node

namespace ListWallet

open Node

section Since

variable {hash160 : Bytes → uint160} {w : ListWallet} {env : Env} {node : Node} {view : ChainView}
variable {fine : Prop} {pindex : CBlockIndex}

/-- The transactions that are not deep enough are listed. -/
theorem listSinceDepth_contains
    {depth : ℤ} {txs : List CListedTx} {transactions : List Object} {tx : CListedTx}
    (h : w.listSinceDepth hash160 env view depth txs = some transactions) (htx : tx ∈ txs)
    (hdepth : view.depth tx.toCMerkleTx < depth) :
  ∃ entries, w.listTransactions env.crypto hash160 view "*" 0 true tx = some entries
    ∧ entries <:+: transactions
  := by
  induction txs generalizing transactions with
  | nil => cases htx
  | cons first txs ih =>
    rw [listSinceDepth] at h
    obtain ⟨entries, hentries, h⟩ := Option.bind_eq_some_iff.mp h
    obtain ⟨rest, hrest, h⟩ := Option.bind_eq_some_iff.mp h
    obtain rfl := Option.some.inj h
    rcases List.mem_cons.mp htx with rfl | htx
    · rw [if_pos (.inr hdepth)] at hentries
      exact ⟨entries, hentries, (List.prefix_append _ _).isInfix⟩
    · obtain ⟨entries', hentries', hinfix⟩ := ih hrest htx
      exact ⟨entries', hentries', hinfix.trans (List.suffix_append _ _).isInfix⟩

/-- The entries of every wallet transaction are listed, but for those that are confirmed. -/
def ListsAll (hash160 : Bytes → uint160) (w : ListWallet) (env : Env) (view : ChainView)
    (confirmed : CMerkleTx → Prop) (transactions : List Object) : Prop :=
  ∀ (hash : uint256) (wtx : CListedTx), w.mapListed[hash]? = some wtx → ¬confirmed wtx.toCMerkleTx →
    ∃ entries, w.listTransactions env.crypto hash160 view "*" 0 true wtx = some entries
      ∧ entries <:+: transactions

theorem mem_listed {hash : uint256} {wtx : CListedTx} (h : w.mapListed[hash]? = some wtx) :
  wtx ∈ w.mapListed.toList.map Prod.snd
  := List.mem_map.mpr ⟨(hash, wtx), ExtTreeMap.mem_toList_iff_getElem?_eq_some.mpr h, rfl⟩

/-- With a block below the given one and the tip, nothing is left out that is not confirmed below the
given one. -/
theorem listsAll_of_found
    {p best : CBlockIndex} {nAdjustedTime : ℤ} {fMerkleVerified : CMerkleTx → Bool}
    {blockId : uint256} {target_confirms : Option Int32} {answer : List Object × uint256}
    (hindexed : node.Indexed env) (hmain : node.MainChain fine) (hbest : node.pindexBest = some best)
    (hfound : node.locatorGetBlockIndex (node.locatorOfHash env blockId) = some p)
    (hpindex : p ∈ pindex.chain) (hp : p ∈ best.chain)
    (h : w.listsinceblock hash160 env node (node.chainView env nAdjustedTime fMerkleVerified)
      (some blockId) target_confirms = some answer) :
  w.ListsAll hash160 env (node.chainView env nAdjustedTime fMerkleVerified)
    (ConfirmedUnder env fMerkleVerified pindex) answer.1
  := by
  obtain ⟨best', -, htip, -⟩ := id hmain
  obtain rfl := Option.some.inj (htip.pindexBest.symm.trans hbest)
  rw [listsinceblock, Option.bind_some, hfound] at h
  dsimp only at h
  split_ifs at h
  obtain ⟨transactions, htransactions, h⟩ := Option.bind_eq_some_iff.mp h
  obtain rfl := Option.some.inj h
  intro hash wtx hget hnot
  apply listSinceDepth_contains htransactions (mem_listed hget)
  by_contra hdeep
  rw [Int.not_lt, htip.nBestHeight] at hdeep
  change _ ≤ node.getDepthInMainChain env (fMerkleVerified wtx.toCMerkleTx) wtx.toCMerkleTx at hdeep
  have hheight := nHeight_le_of_mem_chain hp
  obtain ⟨q, hq, hconfirmed, hdepth⟩ :=
    confirmedIn_of_depth hindexed hmain hbest (by omega : 0 < node.getDepthInMainChain env
      (fMerkleVerified wtx.toCMerkleTx) wtx.toCMerkleTx)
  apply hnot
  refine ⟨q, mem_chain_trans ?_ hpindex, hconfirmed⟩
  -- the deeper one of two blocks of the main chain is below the other
  rcases mem_chain_or_mem_chain hq hp with hbelow | habove
  · exact hbelow
  · have hle := nHeight_le_of_mem_chain habove
    rw [eq_of_mem_chain_of_nHeight habove (by omega)]
    exact mem_chain_self _

/-- `lastblock` names an indexed block, or none. -/
theorem lastBlock_spec
    (hindexed : node.Indexed env) (target_confirms : ℤ) :
  node.lastBlock target_confirms = 0
    ∨ ∃ p, node.mapBlockIndex[node.lastBlock target_confirms]? = some p
  := by
  obtain ⟨best, htip, hbest⟩ := hindexed.tip
  rw [lastBlock, htip.pindexBest, htip.hashBestChain, Option.bind_some]
  split_ifs
  · exact .inr ⟨best, hbest⟩
  · cases hblock : blockAt (best.nHeight + 1 - target_confirms) best with
    | none => exact .inl rfl
    | some p => exact .inr ⟨p, hindexed.mem_chain hbest (List.mem_of_find?_eq_some hblock)⟩

/-- In every state that can be reached, the entries of every wallet transaction that is not confirmed in
the given block or below it are listed; and with the `lastblock` of an earlier answer, whatever happened
since, the entries of every transaction that is not confirmed in the block of that hash or below it.
Where the earlier answer named no block, the first block stands for it. -/
theorem listsinceblock_complete
    (env : Env) (io : Io) (start : Node) (ops : List Node.Op) (hload : load env io = some start)
    (hash160 : Bytes → uint160) (w : ListWallet) (nAdjustedTime : ℤ)
    (fMerkleVerified : CMerkleTx → Bool) (target_confirms : Option Int32) :
  (∀ (pindex : CBlockIndex) answer,
    (Transition.run (step env) start ops).mapBlockIndex[pindex.getBlockHash]? = some pindex →
    w.listsinceblock hash160 env (Transition.run (step env) start ops)
      ((Transition.run (step env) start ops).chainView env nAdjustedTime fMerkleVerified)
      (some pindex.getBlockHash) target_confirms = some answer →
    w.ListsAll hash160 env
      ((Transition.run (step env) start ops).chainView env nAdjustedTime fMerkleVerified)
      (ConfirmedUnder env fMerkleVerified pindex) answer.1)
  ∧ ∀ (w₀ : ListWallet) view₀ blockId₀ target_confirms₀ answer₀ (ops' : List Node.Op) answer,
    w₀.listsinceblock hash160 env (Transition.run (step env) start ops) view₀ blockId₀ target_confirms₀
      = some answer₀ →
    w.listsinceblock hash160 env (Transition.run (step env) start (ops ++ ops'))
      ((Transition.run (step env) start (ops ++ ops')).chainView env nAdjustedTime fMerkleVerified)
      (some answer₀.2) target_confirms = some answer →
    ∃ pindex,
      ((Transition.run (step env) start (ops ++ ops')).mapBlockIndex[answer₀.2]? = some pindex
        ∨ (answer₀.2 = 0
          ∧ (Transition.run (step env) start (ops ++ ops')).pindexGenesisBlock = some pindex))
      ∧ w.ListsAll hash160 env
        ((Transition.run (step env) start (ops ++ ops')).chainView env nAdjustedTime fMerkleVerified)
        (ConfirmedUnder env fMerkleVerified pindex) answer.1
  := by
  have hmain : ∀ ops, (Transition.run (step env) start ops).MainChain False :=
    fun ops => mainChain_run hload ops (fun hcontra => hcontra.elim)
  have hknown : ∀ (ops : List Node.Op) (pindex : CBlockIndex) answer,
      (Transition.run (step env) start ops).mapBlockIndex[pindex.getBlockHash]? = some pindex →
      w.listsinceblock hash160 env (Transition.run (step env) start ops)
        ((Transition.run (step env) start ops).chainView env nAdjustedTime fMerkleVerified)
        (some pindex.getBlockHash) target_confirms = some answer →
      w.ListsAll hash160 env
        ((Transition.run (step env) start ops).chainView env nAdjustedTime fMerkleVerified)
        (ConfirmedUnder env fMerkleVerified pindex) answer.1 := by
    intro ops pindex answer hpindex h
    have hindexed := indexed_run hload ops
    obtain ⟨best, htip, -⟩ := hindexed.tip
    obtain ⟨p, hfound, hbelow, hp⟩ := locatorOfHash_spec hindexed (hmain ops) (genesis_run hload ops)
      hpindex htip.pindexBest
    exact listsAll_of_found hindexed (hmain ops) htip.pindexBest hfound hbelow hp h
  refine ⟨hknown ops, ?_⟩
  intro w₀ view₀ blockId₀ target_confirms₀ answer₀ ops' answer h₀ h
  have hindexed := indexed_run hload (ops ++ ops')
  have hgrows : Grows (Transition.run (step env) start ops)
      (Transition.run (step env) start (ops ++ ops')) := by
    rw [Transition.run_append]
    exact ((indexed_run hload ops).grows_run ops').2
  have hlast : answer₀.2 = 0
      ∨ ∃ p, (Transition.run (step env) start ops).mapBlockIndex[answer₀.2]? = some p := by
    rw [listsinceblock] at h₀
    dsimp only at h₀
    split_ifs at h₀
    obtain ⟨transactions, -, h₀⟩ := Option.bind_eq_some_iff.mp h₀
    obtain rfl := Option.some.inj h₀
    exact lastBlock_spec (indexed_run hload ops) _
  cases hget : (Transition.run (step env) start (ops ++ ops')).mapBlockIndex[answer₀.2]? with
  | some pindex =>
    have hkey := hindexed.key _ _ hget
    rw [← hkey] at hget h
    exact ⟨pindex, .inl rfl, hknown (ops ++ ops') pindex answer hget h⟩
  | none =>
    have hzero : answer₀.2 = 0 := by
      refine hlast.resolve_right ?_
      rintro ⟨p, hp⟩
      rw [hgrows.keeps _ _ hp] at hget
      cases hget
    obtain ⟨best, htip, hbest⟩ := hindexed.tip
    obtain ⟨genesis, hgenesis, hmem⟩ := hindexed.genesis_mem_chain hbest
    refine ⟨.first genesis, .inr ⟨hzero, hgenesis⟩, ?_⟩
    have hfound : (Transition.run (step env) start (ops ++ ops')).locatorGetBlockIndex
        ((Transition.run (step env) start (ops ++ ops')).locatorOfHash env answer₀.2)
          = some (.first genesis) := by
      rw [locatorOfHash, hget, locatorGetBlockIndex, List.findSome?_nil, Option.none_or, hgenesis]
    exact listsAll_of_found hindexed (hmain _) htip.pindexBest hfound (mem_chain_self _) hmem h

end Since

/-- A payment that is confirmed in the top block. -/
def confirmedTx : CWalletTx :=
  { TxWallet.sampleTx ⟨3, 0⟩ 0 0 with hashBlock := topBlock.block.getHash sampleEnv, nIndex := 0 }

/-- A wallet with that payment and one that is not confirmed. -/
def waitingWallet : ListWallet where
  keystore := TxWallet.sampleKeyStore
  mapWallet := ((∅ : ExtTreeMap uint256 CWalletTx).insert 1 (TxWallet.sampleTx ⟨2, 0⟩ 0 0)).insert 4 confirmedTx
  mapAddressBook := ∅
  acentries := []
  mapListed := ((∅ : ExtTreeMap uint256 CListedTx).insert 1
    ⟨TxWallet.sampleTx ⟨2, 0⟩ 0 0, 7, [("comment", "rent")]⟩).insert 4 ⟨confirmedTx, 8, []⟩
  listedEntries := []
  mapWallet_eq hash := by
    rw [TreeMap.getElem?_insert_ite, TreeMap.getElem?_insert_ite, TreeMap.getElem?_insert_ite,
      TreeMap.getElem?_insert_ite]
    split_ifs
    · rfl
    · rfl
    · rfl
  acentries_eq := rfl

/-- Both payments are listed since the side block, which is not on the main chain. -/
theorem waitingWallet_complete :
  ∃ start pindex answer, load sampleEnv sampleIo = some start
    ∧ (Transition.run (step sampleEnv) start returnOps).mapBlockIndex[sideBlock.block.getHash sampleEnv]?
      = some pindex
    ∧ waitingWallet.listsinceblock (fun _ => 5) sampleEnv (Transition.run (step sampleEnv) start returnOps)
      ((Transition.run (step sampleEnv) start returnOps).chainView sampleEnv 0 (fun _ => true))
      (some pindex.getBlockHash) none = some answer
    ∧ answer.1.length = 2
    ∧ waitingWallet.ListsAll (fun _ => 5) sampleEnv
      ((Transition.run (step sampleEnv) start returnOps).chainView sampleEnv 0 (fun _ => true))
      (ConfirmedUnder sampleEnv (fun _ => true) pindex) answer.1
  := by
  have heval : (load sampleEnv sampleIo).bind (fun start =>
      let node := Transition.run (step sampleEnv) start returnOps
      node.mapBlockIndex[sideBlock.block.getHash sampleEnv]?.bind (fun pindex =>
        (waitingWallet.listsinceblock (fun _ => 5) sampleEnv node
          (node.chainView sampleEnv 0 (fun _ => true)) (some pindex.getBlockHash) none).map
          (fun answer => answer.1.length))) = some 2 := by
    decide +kernel
  obtain ⟨start, hload, hrun⟩ := Option.bind_eq_some_iff.mp heval
  obtain ⟨pindex, hpindex, hlisted⟩ := Option.bind_eq_some_iff.mp hrun
  obtain ⟨answer, hanswer, hlength⟩ := Option.map_eq_some_iff.mp hlisted
  have hkey := (indexed_run hload returnOps).key _ _ hpindex
  have hindexed := hpindex
  rw [← hkey] at hindexed
  exact ⟨start, pindex, answer, hload, hpindex, hanswer, hlength,
    (listsinceblock_complete sampleEnv sampleIo start returnOps hload (fun _ => 5) waitingWallet 0
      (fun _ => true) none).1 pindex answer hindexed hanswer⟩

end ListWallet

end CorgiCoin
