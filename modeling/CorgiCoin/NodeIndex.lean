import CorgiCoin.Node
import CorgiCoin.Replay
import CorgiCoin.Lib.Transition

/-!
# The block index of a node

What every operation keeps, whatever goes wrong: the block index is closed under `pprev`, its
blocks are in the block files, and the globals of the tip belong to one entry of it.  The
functions that switch the chain are described by what they leave alone, `SameStore` and
`SameFlags`, and by the tip they set.
-/

namespace CorgiCoin

open Std

/-! ## Chains of entries -/

namespace CBlockIndex

variable {p q pfork pindex : CBlockIndex}

theorem mem_chain_of_descend
    {nHeight : ℕ} (h : descend nHeight p = some q) :
  q ∈ p.chain
  := by
  induction p with
  | first entry =>
    obtain rfl := Option.some.inj h
    apply mem_chain_self
  | next entry pprev ih =>
    rw [descend] at h
    split_ifs at h
    · apply List.mem_cons_of_mem _ (ih h)
    · obtain rfl := Option.some.inj h
      apply mem_chain_self

/-- The fork is on both chains. -/
theorem mem_chain_of_findFork
    (h : findFork p q = some pfork) :
  pfork ∈ p.chain ∧ pfork ∈ q.chain
  := by
  induction p generalizing q with
  | first entry =>
    rw [findFork] at h
    split_ifs at h with heq
    · obtain rfl := Option.some.inj h
      rw [heq]
      exact ⟨mem_chain_self _, mem_chain_self _⟩
    · obtain ⟨r, hr, h⟩ := Option.bind_eq_some_iff.mp h
      split_ifs at h with heq
      obtain rfl := Option.some.inj h
      exact ⟨heq ▸ mem_chain_self _, mem_chain_of_descend hr⟩
  | next entry pprev ih =>
    rw [findFork] at h
    split_ifs at h with heq
    · obtain rfl := Option.some.inj h
      rw [heq]
      exact ⟨mem_chain_self _, mem_chain_self _⟩
    · obtain ⟨r, hr, h⟩ := Option.bind_eq_some_iff.mp h
      split_ifs at h with heq
      · obtain rfl := Option.some.inj h
        exact ⟨heq ▸ mem_chain_self _, mem_chain_of_descend hr⟩
      · obtain ⟨hp, hq⟩ := ih h
        exact ⟨List.mem_cons_of_mem _ hp, mem_chain_trans hq (mem_chain_of_descend hr)⟩

/-- Walking down stops at the highest entry of the chain that is not too high. -/
theorem descend_spec (nHeight : ℕ) (p : CBlockIndex) :
  ∃ q, descend nHeight p = some q ∧ q.nHeight ≤ nHeight
    ∧ ∀ r ∈ p.chain, r.nHeight ≤ nHeight → r ∈ q.chain
  := by
  induction p with
  | first entry => exact ⟨_, rfl, Nat.zero_le _, fun r hr _ => hr⟩
  | next entry pprev ih =>
    rw [descend]
    split_ifs with hhigh
    · obtain ⟨q, hq, hle, hmem⟩ := ih
      refine ⟨q, hq, hle, ?_⟩
      intro r hr hlow
      rcases List.mem_cons.mp hr with rfl | hr
      · omega
      · apply hmem r hr hlow
    · exact ⟨_, rfl, Nat.not_lt.mp hhigh, fun r hr _ => hr⟩

/-- Chains that share an entry fork, and not below it. -/
theorem exists_findFork
    {r : CBlockIndex} (hp : r ∈ p.chain) (hq : r ∈ q.chain) :
  ∃ pfork, findFork p q = some pfork ∧ r ∈ pfork.chain
  := by
  induction p generalizing q with
  | first entry =>
    obtain rfl := List.mem_singleton.mp hp
    obtain ⟨s, hs, hle, hmem⟩ := descend_spec 0 q
    have hbelow := hmem _ hq le_rfl
    have heq : first entry = s := eq_of_mem_chain_of_nHeight hbelow (Nat.le_zero.mp hle).symm
    rw [findFork]
    split_ifs
    · exact ⟨q, rfl, hq⟩
    · exact ⟨s, by simp [hs, heq], hbelow⟩
  | next entry pprev ih =>
    obtain ⟨s, hs, hle, hmem⟩ := descend_spec (next entry pprev).nHeight q
    have hbelow := hmem r hq (nHeight_le_of_mem_chain hp)
    rw [findFork]
    split_ifs with hsame
    · exact ⟨q, rfl, hq⟩
    · simp only [hs, Option.bind_eq_bind, Option.bind_some]
      split_ifs with heq
      · exact ⟨s, rfl, hbelow⟩
      · rcases List.mem_cons.mp hp with rfl | hp
        · have hge := nHeight_le_of_mem_chain hbelow
          exact absurd (eq_of_mem_chain_of_nHeight hbelow (Nat.le_antisymm hge hle)) heq
        · apply ih hp hbelow

/-- An entry on the chain of another is where their chains fork. -/
theorem findFork_of_mem_chain
    (h : p ∈ q.chain) :
  findFork p q = some p
  := by
  obtain ⟨pfork, hfork, hmem⟩ := exists_findFork p.mem_chain_self h
  have hback := (mem_chain_of_findFork hfork).1
  have hheight := Nat.le_antisymm (nHeight_le_of_mem_chain hback) (nHeight_le_of_mem_chain hmem)
  rw [hfork, eq_of_mem_chain_of_nHeight hback hheight]

theorem getBlockWork_nonneg (pindex : CBlockIndex) :
  0 ≤ pindex.getBlockWork
  := by
  rw [getBlockWork]
  split_ifs with hle
  · apply le_rfl
  · apply Int.ediv_nonneg
    · decide
    · omega

/-- Chains gather work. -/
theorem bnChainWork_le_of_mem_chain
    (h : p ∈ q.chain) :
  p.bnChainWork ≤ q.bnChainWork
  := by
  induction q with
  | first entry =>
    obtain rfl := List.mem_singleton.mp h
    apply le_rfl
  | next entry pprev ih =>
    rcases List.mem_cons.mp h with rfl | h
    · apply le_rfl
    · rw [bnChainWork]
      have hwork := (next entry pprev).getBlockWork_nonneg
      have hle := ih h
      omega

theorem branch_self (pindex : CBlockIndex) :
  pindex.branch pindex = []
  := by
  cases pindex <;> simp [branch, chain]

theorem branch_next
    {entry : BlockEntry} {pprev : CBlockIndex} (h : pfork ≠ next entry pprev) :
  (next entry pprev).branch pfork = next entry pprev :: pprev.branch pfork
  := by
  rw [branch, chain, List.takeWhile_cons, if_pos]
  · rfl
  · simpa using h.symm

theorem mem_chain_of_mem_branch
    (h : p ∈ pindex.branch pfork) :
  p ∈ pindex.chain
  := List.takeWhile_subset _ h

/-- A branch down to an entry of the chain does not reach the first block. -/
theorem exists_next_of_mem_branch
    (hfork : pfork ∈ pindex.chain) (h : p ∈ pindex.branch pfork) :
  ∃ entry pprev, p = next entry pprev
  := by
  induction pindex with
  | first entry =>
    obtain rfl := List.mem_singleton.mp hfork
    rw [branch_self] at h
    cases h
  | next entry pprev ih =>
    by_cases heq : pfork = next entry pprev
    · rw [heq, branch_self] at h
      cases h
    · rw [branch_next heq] at h
      rcases List.mem_cons.mp h with rfl | h
      · exact ⟨entry, pprev, rfl⟩
      · rcases List.mem_cons.mp hfork with hcontra | hfork
        · exact absurd hcontra heq
        · apply ih hfork h

/-- Postponing goes down the chain: the first block and the postponed ones on top of it. -/
theorem postpone_spec (bnBestWork : ℤ) (pindex : CBlockIndex) :
  (postpone bnBestWork pindex).1 ∈ pindex.chain
    ∧ pindex.branch (postpone bnBestWork pindex).1 = (postpone bnBestWork pindex).2
  := by
  induction pindex with
  | first entry => exact ⟨mem_chain_self _, branch_self _⟩
  | next entry pprev ih =>
    rw [postpone]
    split_ifs
    · refine ⟨List.mem_cons_of_mem _ ih.1, ?_⟩
      rw [branch_next, ih.2]
      rintro heq
      have hle := nHeight_le_of_mem_chain ih.1
      rw [heq, nHeight] at hle
      omega
    · exact ⟨mem_chain_self _, branch_self _⟩

end CBlockIndex

namespace Node

variable {env : Env} {io : Io} {node node' node'' : Node} {block : CBlock}
  {pindex pindexNew best : CBlockIndex}

/-! ## What is left alone -/

/-- The block index and the block files are the same. -/
structure SameStore (node node' : Node) : Prop where
  mapBlockIndex : node'.mapBlockIndex = node.mapBlockIndex
  files : node'.files = node.files
  pindexGenesisBlock : node'.pindexGenesisBlock = node.pindexGenesisBlock

/-- The invalidated blocks and the flags are the same. -/
structure SameFlags (node node' : Node) : Prop where
  failed : node'.failed = node.failed
  setInvalidatedBlocks : node'.setInvalidatedBlocks = node.setInvalidatedBlocks

theorem SameStore.refl (node : Node) : SameStore node node
  := ⟨rfl, rfl, rfl⟩

theorem SameStore.trans
    (h : SameStore node node') (h' : SameStore node' node'') :
  SameStore node node''
  := ⟨h'.1.trans h.1, h'.2.trans h.2, h'.3.trans h.3⟩

theorem SameFlags.refl (node : Node) : SameFlags node node
  := ⟨rfl, rfl⟩

theorem SameFlags.trans
    (h : SameFlags node node') (h' : SameFlags node' node'') :
  SameFlags node node''
  := ⟨h'.1.trans h.1, h'.2.trans h.2⟩

/-- The globals of the tip are those of an entry. -/
structure TipIs (node : Node) (best : CBlockIndex) : Prop where
  pindexBest : node.pindexBest = some best
  hashBestChain : node.hashBestChain = best.getBlockHash
  nBestHeight : node.nBestHeight = best.nHeight
  bnBestChainWork : node.bnBestChainWork = best.bnChainWork

theorem tipIs_setTip (node : Node) (pindexNew : CBlockIndex) :
  (node.setTip pindexNew.getBlockHash pindexNew).TipIs pindexNew
  := ⟨rfl, rfl, rfl, rfl⟩

/-- What `InvalidChainFound` leaves alone, which is all but the work of invalid chains. -/
theorem invalidChainFound_same (node : Node) (pindexNew : CBlockIndex) :
  SameStore node (node.invalidChainFound pindexNew)
    ∧ SameFlags node (node.invalidChainFound pindexNew)
    ∧ (node.invalidChainFound pindexNew).txdb.txIndex = node.txdb.txIndex
    ∧ (node.invalidChainFound pindexNew).txdb.hashBestChain = node.txdb.hashBestChain
    ∧ (node.invalidChainFound pindexNew).mempool = node.mempool
    ∧ ∀ best, node.TipIs best → (node.invalidChainFound pindexNew).TipIs best
  := by
  rw [invalidChainFound]
  split_ifs
  · exact ⟨⟨rfl, rfl, rfl⟩, ⟨rfl, rfl⟩, rfl, rfl, rfl, fun _ h => ⟨h.1, h.2, h.3, h.4⟩⟩
  · exact ⟨.refl _, .refl _, rfl, rfl, rfl, fun _ h => h⟩

/-! ## What switching the chain does -/

theorem readFromDisk_eq_some
    (h : node.readFromDisk env io pindex = some block) :
  node.files.readFromDisk env pindex = some block
  := by
  rw [readFromDisk] at h
  split_ifs at h
  apply h

/-- What a step of the disconnecting loop does when it succeeds. -/
theorem disconnectStep_eq_some
    {state state' : CTxDB × List CTransaction}
    (h : node.disconnectStep env io state pindex = some state') :
  ∃ block txdb, node.files.readFromDisk env pindex = some block
    ∧ block.disconnectBlock env state.1 pindex = some txdb
    ∧ state' = (txdb, state.2 ++ block.vtx.filter (fun tx => !tx.isCoinBase))
  := by
  simp only [disconnectStep, Option.bind_eq_bind, Option.bind_eq_some_iff] at h
  obtain ⟨block, hread, h⟩ := h
  split_ifs at h
  obtain ⟨txdb, hdisconnect, h⟩ := Option.bind_eq_some_iff.mp h
  exact ⟨block, txdb, readFromDisk_eq_some hread, hdisconnect, (Option.some.inj h).symm⟩

/-- What a step of the connecting loop does when it succeeds. -/
theorem connectStep_eq_some
    {state state' : CTxDB × List CTransaction}
    (h : node.connectStep env io state pindex = some state') :
  ∃ block txdb, node.files.readFromDisk env pindex = some block
    ∧ block.connectBlock env node.reader (io.nAdjustedTime pindex.getBlockHash) state.1 pindex
      = some txdb
    ∧ state' = (txdb, state.2 ++ block.vtx)
  := by
  simp only [connectStep, Option.bind_eq_bind, Option.bind_eq_some_iff] at h
  obtain ⟨block, hread, h⟩ := h
  split_ifs at h
  obtain ⟨txdb, hconnect, h⟩ := Option.bind_eq_some_iff.mp h
  exact ⟨block, txdb, readFromDisk_eq_some hread, hconnect, (Option.some.inj h).symm⟩

/-- What `Reorganize` does when it succeeds. -/
theorem reorganize_eq_some
    (h : node.reorganize env io pindexNew = some node') :
  ∃ best pfork txdb vResurrect txdb' vDelete, node.pindexBest = some best
    ∧ best.findFork pindexNew = some pfork
    ∧ (best.branch pfork).foldlM (node.disconnectStep env io) (node.txdb, [])
      = some (txdb, vResurrect)
    ∧ (pindexNew.branch pfork).reverse.foldlM (node.connectStep env io) (txdb, [])
      = some (txdb', vDelete)
    ∧ node' = { node with
        txdb := txdb'.writeHashBestChain pindexNew.getBlockHash
        pnext := (pindexNew.branch pfork).reverse.foldl linkNext
          ((best.branch pfork).foldl unlinkNext node.pnext)
        mempool := vDelete.foldl (CTxMemPool.remove env)
          (vResurrect.foldl (resurrect env node.files.readTx
            (txdb'.writeHashBestChain pindexNew.getBlockHash).txIndex best) node.mempool) }
  := by
  simp only [reorganize, Option.bind_eq_bind, Option.bind_eq_some_iff] at h
  obtain ⟨best, hbest, pfork, hfork, ⟨txdb, vResurrect⟩, hdisconnect, ⟨txdb', vDelete⟩,
    hconnect, h⟩ := h
  split_ifs at h
  obtain rfl := Option.some.inj h
  exact ⟨best, pfork, txdb, vResurrect, txdb', vDelete, hbest, hfork, hdisconnect, hconnect, rfl⟩

theorem reorganize_same
    (h : node.reorganize env io pindexNew = some node') :
  SameStore node node' ∧ SameFlags node node'
  := by
  obtain ⟨best, pfork, txdb, vResurrect, txdb', vDelete, -, -, -, -, rfl⟩ := reorganize_eq_some h
  exact ⟨⟨rfl, rfl, rfl⟩, ⟨rfl, rfl⟩⟩

/-- What `SetBestChainInner` does: it connects the block and commits, or it changes at most the
work of invalid chains. -/
theorem setBestChainInner_cases
    (env : Env) (io : Io) (node : Node) (block : CBlock) (pindexNew : CBlockIndex) :
  (∃ txdb, block.connectBlock env node.reader (io.nAdjustedTime (block.getHash env)) node.txdb
        pindexNew = some txdb
      ∧ node.setBestChainInner env io block pindexNew
        = ({ node with
            txdb := txdb.writeHashBestChain (block.getHash env)
            pnext := linkNext node.pnext pindexNew
            mempool := block.vtx.foldl (CTxMemPool.remove env) node.mempool }, true))
    ∨ node.setBestChainInner env io block pindexNew = (node, false)
    ∨ node.setBestChainInner env io block pindexNew = (node.invalidChainFound pindexNew, false)
  := by
  rw [setBestChainInner]
  split
  · right
    right
    rfl
  · rename_i txdb hconnect
    split_ifs at hconnect
    split_ifs
    · left
      exact ⟨txdb, hconnect, rfl⟩
    · right
      left
      rfl

theorem setBestChainInner_same
    (env : Env) (io : Io) (node : Node) (block : CBlock) (pindexNew : CBlockIndex) :
  SameStore node (node.setBestChainInner env io block pindexNew).1
    ∧ SameFlags node (node.setBestChainInner env io block pindexNew).1
    ∧ ∀ best, node.TipIs best → (node.setBestChainInner env io block pindexNew).1.TipIs best
  := by
  obtain ⟨txdb, -, heq⟩ | heq | heq :=
    setBestChainInner_cases env io node block pindexNew
  · rw [heq]
    exact ⟨⟨rfl, rfl, rfl⟩, ⟨rfl, rfl⟩, fun _ h => ⟨h.1, h.2, h.3, h.4⟩⟩
  · rw [heq]
    exact ⟨.refl _, .refl _, fun _ h => h⟩
  · rw [heq]
    obtain ⟨hstore, hflags, -, -, -, htip⟩ := node.invalidChainFound_same pindexNew
    exact ⟨hstore, hflags, htip⟩

theorem connectPostponed_same (env : Env) (io : Io) (node : Node) (pindexes : List CBlockIndex) :
  SameStore node (node.connectPostponed env io pindexes)
    ∧ SameFlags node (node.connectPostponed env io pindexes)
  := by
  induction pindexes generalizing node with
  | nil => exact ⟨.refl _, .refl _⟩
  | cons pindex rest ih =>
    rw [connectPostponed]
    split
    · exact ⟨.refl _, .refl _⟩
    · rename_i block _
      obtain ⟨hstore, hflags, -⟩ :=
        setBestChainInner_same env io node block pindex
      simp only
      split_ifs
      · exact ⟨.refl _, .refl _⟩
      · obtain ⟨hstore', hflags'⟩ := ih (node.setBestChainInner env io block pindex).1
        exact ⟨hstore.trans hstore', hflags.trans hflags'⟩
      · exact ⟨hstore, hflags⟩

/-- What `SetBestChain` does once the first block is loaded: it fails and changes at most the
work of invalid chains, extends the best chain, or reorganizes. -/
theorem setBestChain_cases
    (env : Env) (io : Io) (hgenesis : node.pindexGenesisBlock ≠ none) (block : CBlock) (pindexNew : CBlockIndex) :
  (node.setBestChain env io block pindexNew = (node, false)
      ∨ node.setBestChain env io block pindexNew = (node.invalidChainFound pindexNew, false))
    ∨ (block.hashPrevBlock = node.hashBestChain
      ∧ (node.setBestChainInner env io block pindexNew).2 = true
      ∧ node.setBestChain env io block pindexNew
        = ((node.setBestChainInner env io block pindexNew).1.setTip (block.getHash env) pindexNew,
            true))
    ∨ ∃ best mid, node.pindexBest = some best ∧ block.hashPrevBlock ≠ node.hashBestChain
      ∧ node.reorganize env io (pindexNew.postpone best.bnChainWork).1 = some mid
      ∧ node.setBestChain env io block pindexNew
        = ((mid.connectPostponed env io (pindexNew.postpone best.bnChainWork).2.reverse).setTip
            (block.getHash env) pindexNew, true)
  := by
  have hloaded : node.pindexGenesisBlock.isNone = false := by
    rw [Option.isNone_eq_false_iff, Option.isSome_iff_ne_none]
    apply hgenesis
  rw [setBestChain]
  simp only [hloaded, Bool.false_and, Bool.false_eq_true, if_false, beq_iff_eq]
  split_ifs with hbegin hextends hinner
  · left
    left
    rfl
  · right
    left
    exact ⟨hextends, hinner, rfl⟩
  · left
    obtain ⟨txdb, -, heq⟩ | heq | heq :=
      setBestChainInner_cases env io node block pindexNew
    · rw [heq] at hinner
      exact absurd rfl hinner
    · left
      rw [heq]
    · right
      rw [heq]
  · cases hbest : node.pindexBest with
    | none =>
      left
      left
      rfl
    | some best =>
      cases hreorganize : node.reorganize env io (pindexNew.postpone best.bnChainWork).1 with
      | none =>
        left
        right
        simp only [hreorganize]
      | some mid =>
        right
        right
        refine ⟨best, mid, rfl, hextends, hreorganize, ?_⟩
        simp only [hreorganize]

/-- `SetBestChain` leaves the index and the flags alone, and sets the tip when it succeeds. -/
theorem setBestChain_same
    (io : Io) (hgenesis : node.pindexGenesisBlock ≠ none)
    (hhash : block.getHash env = pindexNew.getBlockHash) :
  SameStore node (node.setBestChain env io block pindexNew).1
    ∧ SameFlags node (node.setBestChain env io block pindexNew).1
    ∧ ((node.setBestChain env io block pindexNew).2 = true →
      (node.setBestChain env io block pindexNew).1.TipIs pindexNew)
    ∧ ((node.setBestChain env io block pindexNew).2 = false → ∀ best, node.TipIs best →
      (node.setBestChain env io block pindexNew).1.TipIs best)
  := by
  obtain (heq | heq) | ⟨-, -, heq⟩ | ⟨best, mid, -, -, hreorganize, heq⟩ :=
    setBestChain_cases env io hgenesis block pindexNew
  · rw [heq]
    exact ⟨.refl _, .refl _, fun h => absurd h Bool.false_ne_true, fun _ _ h => h⟩
  · rw [heq]
    obtain ⟨hstore, hflags, -, -, -, htip⟩ := node.invalidChainFound_same pindexNew
    exact ⟨hstore, hflags, fun h => absurd h Bool.false_ne_true, fun _ => htip⟩
  · rw [heq, hhash]
    obtain ⟨hstore, hflags, -⟩ :=
      setBestChainInner_same env io node block pindexNew
    exact ⟨⟨hstore.1, hstore.2, hstore.3⟩, ⟨hflags.1, hflags.2⟩, fun _ => tipIs_setTip _ _,
      fun h => absurd h.symm Bool.false_ne_true⟩
  · rw [heq, hhash]
    obtain ⟨hstore, hflags⟩ := reorganize_same hreorganize
    obtain ⟨hstore', hflags'⟩ := connectPostponed_same env io mid
      (pindexNew.postpone best.bnChainWork).2.reverse
    have hstore'' := hstore.trans hstore'
    have hflags'' := hflags.trans hflags'
    exact ⟨⟨hstore''.1, hstore''.2, hstore''.3⟩, ⟨hflags''.1, hflags''.2⟩,
      fun _ => tipIs_setTip _ _, fun h => absurd h.symm Bool.false_ne_true⟩

/-! ## The invariant -/

/-- The block index is closed under `pprev` and in the block files, and the tip is an entry of
it. -/
structure Indexed (env : Env) (node : Node) : Prop where
  key : ∀ (hash : uint256) (pindex : CBlockIndex), node.mapBlockIndex[hash]? = some pindex →
    pindex.getBlockHash = hash
  first : ∀ (hash : uint256) (entry : BlockEntry),
    node.mapBlockIndex[hash]? = some (.first entry) → node.pindexGenesisBlock = some (.first entry)
  next : ∀ (hash : uint256) (entry : BlockEntry) (pprev : CBlockIndex),
    node.mapBlockIndex[hash]? = some (.next entry pprev) →
    node.mapBlockIndex[pprev.getBlockHash]? = some pprev
      ∧ ∃ block, Stored env node.files pprev entry block
  loaded : node.pindexGenesisBlock ≠ none
  tip : ∃ best, node.TipIs best ∧ node.mapBlockIndex[best.getBlockHash]? = some best

section Indexed

variable {p : CBlockIndex}

/-- Entries below an indexed one are indexed. -/
theorem Indexed.mem_chain
    (h : node.Indexed env) (hindexed : node.mapBlockIndex[pindex.getBlockHash]? = some pindex)
    (hp : p ∈ pindex.chain) :
  node.mapBlockIndex[p.getBlockHash]? = some p
  := by
  induction pindex with
  | first entry =>
    obtain rfl := List.mem_singleton.mp hp
    apply hindexed
  | next entry pprev ih =>
    rcases List.mem_cons.mp hp with rfl | hp
    · apply hindexed
    · apply ih (h.next _ _ _ hindexed).1 hp

theorem Indexed.chainStored
    (h : node.Indexed env) (hindexed : node.mapBlockIndex[pindex.getBlockHash]? = some pindex) :
  ChainStored env node.files pindex
  := by
  induction pindex with
  | first entry => trivial
  | next entry pprev ih =>
    obtain ⟨hpprev, hstored⟩ := h.next _ _ _ hindexed
    exact ⟨hstored, ih hpprev⟩

theorem Indexed.of_sameStore
    (h : node.Indexed env) (hsame : SameStore node node')
    (htip : ∃ best, node'.TipIs best ∧ node.mapBlockIndex[best.getBlockHash]? = some best) :
  node'.Indexed env
  := by
  constructor
  · rw [hsame.mapBlockIndex]
    apply h.key
  · rw [hsame.mapBlockIndex, hsame.pindexGenesisBlock]
    apply h.first
  · rw [hsame.mapBlockIndex, hsame.files]
    apply h.next
  · rw [hsame.pindexGenesisBlock]
    apply h.loaded
  · rw [hsame.mapBlockIndex]
    apply htip

/-- Switching to an indexed block keeps the index. -/
theorem Indexed.setBestChain
    (h : node.Indexed env) (io : Io) (hhash : block.getHash env = pindexNew.getBlockHash)
    (hindexed : node.mapBlockIndex[pindexNew.getBlockHash]? = some pindexNew) :
  (node.setBestChain env io block pindexNew).1.Indexed env
  := by
  obtain ⟨hstore, -, htrue, hfalse⟩ := setBestChain_same io h.loaded hhash
  apply h.of_sameStore hstore
  cases hok : (node.setBestChain env io block pindexNew).2 with
  | true => exact ⟨pindexNew, htrue hok, hindexed⟩
  | false =>
    obtain ⟨best, htip, hbest⟩ := h.tip
    exact ⟨best, hfalse hok best htip, hbest⟩

/-- What rolling back does when it succeeds. -/
theorem rollBack_cases
    (h : node.rollBack env io = some node') :
  ∃ best, node.pindexBest = some best
    ∧ ((node.fFailedChain best = false ∧ node' = node)
      ∨ ∃ pindexNew mid, node.fFailedChain best = true
        ∧ best.chain.find? (fun pindex => !node.fFailedChain pindex) = some pindexNew
        ∧ node.reorganize env io pindexNew = some mid
        ∧ node' = mid.setTip pindexNew.getBlockHash pindexNew)
  := by
  simp only [rollBack, Option.bind_eq_bind, Option.bind_eq_some_iff] at h
  obtain ⟨best, hbest, h⟩ := h
  refine ⟨best, hbest, ?_⟩
  split_ifs at h with hfailed
  · left
    obtain rfl := Option.some.inj h
    exact ⟨by simpa using hfailed, rfl⟩
  · right
    obtain ⟨pindexNew, hfind, h⟩ := Option.bind_eq_some_iff.mp h
    split_ifs at h
    obtain ⟨mid, hmid, h⟩ := Option.bind_eq_some_iff.mp h
    obtain rfl := Option.some.inj h
    exact ⟨pindexNew, mid, by simpa using hfailed, hfind, hmid, rfl⟩

theorem rollBack_same
    (h : node.rollBack env io = some node') :
  SameStore node node' ∧ SameFlags node node'
  := by
  obtain ⟨best, -, ⟨-, rfl⟩ | ⟨pindexNew, mid, -, -, hmid, rfl⟩⟩ := rollBack_cases h
  · exact ⟨.refl _, .refl _⟩
  · obtain ⟨hstore, hflags⟩ := reorganize_same hmid
    exact ⟨⟨hstore.1, hstore.2, hstore.3⟩, ⟨hflags.1, hflags.2⟩⟩

theorem Indexed.rollBack
    (h : node.Indexed env) (hroll : node.rollBack env io = some node') :
  node'.Indexed env
  := by
  obtain ⟨best, htip, hbest⟩ := h.tip
  obtain ⟨best', hbest', ⟨-, rfl⟩ | ⟨pindexNew, mid, -, hfind, hmid, rfl⟩⟩ := rollBack_cases hroll
  · apply h
  · apply h.of_sameStore (rollBack_same hroll).1
    refine ⟨pindexNew, tipIs_setTip _ _, h.mem_chain hbest ?_⟩
    rw [htip.pindexBest] at hbest'
    obtain rfl := Option.some.inj hbest'
    apply List.mem_of_find?_eq_some hfind

theorem mem_entries_iff
    {node : Node} {pindex : CBlockIndex} :
  pindex ∈ node.mapBlockIndex.toList.map Prod.snd
    ↔ ∃ hash : uint256, node.mapBlockIndex[hash]? = some pindex
  := by
  rw [List.mem_map]
  constructor
  · rintro ⟨⟨hash, pindex'⟩, hmem, rfl⟩
    exact ⟨hash, ExtTreeMap.mem_toList_iff_getElem?_eq_some.mp hmem⟩
  · rintro ⟨hash, hget⟩
    exact ⟨(hash, pindex), ExtTreeMap.mem_toList_iff_getElem?_eq_some.mpr hget, rfl⟩

theorem foldl_betterCandidate
    (node : Node) (entries : List CBlockIndex) (start : CBlockIndex) :
  (entries.foldl node.betterCandidate start = start
      ∨ entries.foldl node.betterCandidate start ∈ entries
        ∧ node.fFailedChain (entries.foldl node.betterCandidate start) = false
        ∧ start.bnChainWork < (entries.foldl node.betterCandidate start).bnChainWork)
    ∧ start.bnChainWork ≤ (entries.foldl node.betterCandidate start).bnChainWork
    ∧ ∀ pindex ∈ entries, node.fFailedChain pindex = false →
      pindex.bnChainWork ≤ (entries.foldl node.betterCandidate start).bnChainWork
  := by
  induction entries generalizing start with
  | nil => exact ⟨.inl rfl, le_rfl, fun _ hmem => absurd hmem List.not_mem_nil⟩
  | cons pindex entries ih =>
    rw [List.foldl_cons, betterCandidate]
    split_ifs with hbetter
    · rw [Bool.and_eq_true, Bool.not_eq_true', decide_eq_true_eq] at hbetter
      obtain ⟨hfound, hle, hall⟩ := ih pindex
      refine ⟨?_, hbetter.2.le.trans hle, List.forall_mem_cons.mpr ⟨fun _ => hle, hall⟩⟩
      right
      rcases hfound with heq | ⟨hmem, hgood, hmore⟩
      · rw [heq]
        exact ⟨List.mem_cons_self, hbetter⟩
      · exact ⟨List.mem_cons_of_mem _ hmem, hgood, hbetter.2.trans hmore⟩
    · obtain ⟨hfound, hle, hall⟩ := ih start
      refine ⟨?_, hle, List.forall_mem_cons.mpr ⟨?_, hall⟩⟩
      · exact hfound.imp_right (fun hmem => ⟨List.mem_cons_of_mem _ hmem.1, hmem.2⟩)
      · intro hgood
        rw [hgood, Bool.not_false, Bool.true_and, decide_eq_true_eq] at hbetter
        apply (Int.not_lt.mp hbetter).trans hle

/-- The candidate is the tip or an entry with more work that is not failed, and no entry that is
not failed has more work than the candidate. -/
theorem bestCandidate_spec (node : Node) (best : CBlockIndex) :
  (node.bestCandidate best = best
      ∨ ∃ hash : uint256, node.mapBlockIndex[hash]? = some (node.bestCandidate best)
        ∧ node.fFailedChain (node.bestCandidate best) = false
        ∧ best.bnChainWork < (node.bestCandidate best).bnChainWork)
    ∧ best.bnChainWork ≤ (node.bestCandidate best).bnChainWork
    ∧ ∀ (hash : uint256) (pindex : CBlockIndex), node.mapBlockIndex[hash]? = some pindex →
      node.fFailedChain pindex = false →
      pindex.bnChainWork ≤ (node.bestCandidate best).bnChainWork
  := by
  obtain ⟨hfound, hle, hall⟩ :=
    node.foldl_betterCandidate (node.mapBlockIndex.toList.map Prod.snd) best
  refine ⟨?_, hle, ?_⟩
  · rcases hfound with heq | ⟨hmem, hgood⟩
    · left
      apply heq
    · right
      obtain ⟨hash, hget⟩ := mem_entries_iff.mp hmem
      exact ⟨hash, hget, hgood⟩
  · intro hash pindex hget hgood
    apply hall pindex (mem_entries_iff.mpr ⟨hash, hget⟩) hgood

/-- The candidate depends on the index and the flags. -/
theorem bestCandidate_congr
    (hmap : node'.mapBlockIndex = node.mapBlockIndex) (hfailed : node'.failed = node.failed)
    (best : CBlockIndex) :
  node'.bestCandidate best = node.bestCandidate best
  := by
  have hbetter : node'.betterCandidate = node.betterCandidate := by
    funext p q
    rw [betterCandidate, betterCandidate, fFailedChain, fFailedChain, hfailed]
  rw [bestCandidate, bestCandidate, hmap, hbetter]

/-- What activating the best chain does: nothing, or it switches to the candidate. -/
theorem activateBestValidChain_cases
    (env : Env) (io : Io) (hbest : node.pindexBest = some best) :
  ((node.activateBestValidChain env io).1 = node)
    ∨ ∃ block, node.bestCandidate best ≠ best
      ∧ node.files.readFromDisk env (node.bestCandidate best) = some block
      ∧ node.activateBestValidChain env io
        = node.setBestChain env io block (node.bestCandidate best)
  := by
  rw [activateBestValidChain]
  simp only [hbest]
  split_ifs with hsame hread
  · left
    rfl
  · cases hblock : node.files.readFromDisk env (node.bestCandidate best) with
    | none =>
      left
      rfl
    | some block =>
      right
      exact ⟨block, hsame, rfl, rfl⟩
  · left
    rfl

variable {files : BlockFiles}

theorem getHash_of_readFromDisk
    (h : files.readFromDisk env pindex = some block) :
  block.getHash env = pindex.getBlockHash
  := by
  simp only [BlockFiles.readFromDisk, Option.bind_eq_bind, Option.bind_eq_some_iff] at h
  obtain ⟨block', -, h⟩ := h
  split_ifs at h with hhash
  obtain rfl := Option.some.inj h
  simpa using hhash

/-- An entry of the index that is found is found under its own hash. -/
theorem Indexed.self
    (h : node.Indexed env) {hash : uint256} (hget : node.mapBlockIndex[hash]? = some pindex) :
  node.mapBlockIndex[pindex.getBlockHash]? = some pindex
  := by
  rw [h.key hash pindex hget, hget]

theorem Indexed.bestCandidate
    (h : node.Indexed env) (hbest : node.mapBlockIndex[best.getBlockHash]? = some best) :
  node.mapBlockIndex[(node.bestCandidate best).getBlockHash]? = some (node.bestCandidate best)
  := by
  obtain ⟨heq | ⟨hash, hget, -, -⟩, -⟩ := node.bestCandidate_spec best
  · rw [heq, hbest]
  · apply h.self hget

theorem Indexed.activateBestValidChain
    (h : node.Indexed env) :
  (node.activateBestValidChain env io).1.Indexed env
  := by
  obtain ⟨best, htip, hbest⟩ := h.tip
  obtain heq | ⟨block, -, hread, heq⟩ :=
    activateBestValidChain_cases env io htip.pindexBest
  · rw [heq]
    apply h
  · rw [heq]
    apply h.setBestChain io (getHash_of_readFromDisk hread) (h.bestCandidate hbest)

/-- The first block is on the chain of every entry. -/
theorem Indexed.genesis_mem_chain
    (h : node.Indexed env) (hindexed : node.mapBlockIndex[pindex.getBlockHash]? = some pindex) :
  ∃ genesis, node.pindexGenesisBlock = some (.first genesis) ∧ .first genesis ∈ pindex.chain
  := by
  induction pindex with
  | first entry => exact ⟨_, h.first _ _ hindexed, CBlockIndex.mem_chain_self _⟩
  | next entry pprev ih =>
    obtain ⟨genesis, hgenesis, hmem⟩ := ih (h.next _ _ _ hindexed).1
    exact ⟨genesis, hgenesis, List.mem_cons_of_mem _ hmem⟩

/-- An entry with more work than an indexed one is not the first block. -/
theorem Indexed.exists_next_of_lt
    (h : node.Indexed env) (hbest : node.mapBlockIndex[best.getBlockHash]? = some best)
    (hindexed : node.mapBlockIndex[pindex.getBlockHash]? = some pindex)
    (hlt : best.bnChainWork < pindex.bnChainWork) :
  ∃ entry pprev, pindex = .next entry pprev
  := by
  cases pindex with
  | first entry =>
    obtain ⟨genesis, hgenesis, hmem⟩ := h.genesis_mem_chain hbest
    rw [h.first _ _ hindexed] at hgenesis
    cases Option.some.inj hgenesis
    have hle := CBlockIndex.bnChainWork_le_of_mem_chain hmem
    omega
  | next entry pprev => exact ⟨entry, pprev, rfl⟩

/-- A stored block on top of the tip has the entry of the tip below its own. -/
theorem Indexed.pprev_of_hashPrevBlock
    (h : node.Indexed env) (htip : node.TipIs best)
    (hbest : node.mapBlockIndex[best.getBlockHash]? = some best)
    (hindexed : node.mapBlockIndex[pindex.getBlockHash]? = some pindex) (hpprev : pindex.pprev ≠ none)
    (hread : node.files.readFromDisk env pindex = some block)
    (hextends : block.hashPrevBlock = node.hashBestChain) :
  pindex.pprev = some best
  := by
  cases pindex with
  | first entry => exact absurd rfl hpprev
  | next entry pprev =>
    obtain ⟨hpprevIndexed, block', hstored⟩ := h.next _ _ _ hindexed
    obtain rfl : block' = block := Option.some.inj (hstored.readFromDisk_eq.symm.trans hread)
    rw [hstored.prev_eq, htip.hashBestChain] at hextends
    rw [hextends, hbest] at hpprevIndexed
    exact hpprevIndexed.symm

/-- Nothing but the invalidated blocks and the flags changed. -/
structure OnlyMarks (node node' : Node) : Prop where
  store : SameStore node node'
  tip : ∀ best, node.TipIs best → node'.TipIs best
  txIndex : node'.txdb.txIndex = node.txdb.txIndex
  hashBestChain : node'.txdb.hashBestChain = node.txdb.hashBestChain
  mempool : node'.mempool = node.mempool
  pnext : node'.pnext = node.pnext

theorem onlyMarks_mk
    (node : Node) (failed set : ExtTreeMap uint256 Unit compare) (hashes : List uint256) :
  OnlyMarks node { node with
    failed := failed
    setInvalidatedBlocks := set
    txdb := { node.txdb with vInvalidatedBlocks := hashes } }
  := ⟨⟨rfl, rfl, rfl⟩, fun _ h => ⟨h.1, h.2, h.3, h.4⟩, rfl, rfl, rfl, rfl⟩

/-- What `InvalidateBlock` does: it changes marks, and may then roll back and activate the best
chain. -/
theorem invalidateBlock_cases (env : Env) (io : Io) (node : Node) (pindex : CBlockIndex) :
  ∃ marked, OnlyMarks node marked
    ∧ ((node.invalidateBlock env io pindex).1 = marked
      ∨ (SameFlags (node.markInvalidated pindex) marked
        ∧ ∃ rolled, marked.rollBack env io = some rolled
          ∧ (node.invalidateBlock env io pindex).1 = (rolled.activateBestValidChain env io).1))
  := by
  rw [invalidateBlock]
  split
  · exact ⟨node, onlyMarks_mk node node.failed node.setInvalidatedBlocks
      node.txdb.vInvalidatedBlocks, .inl rfl⟩
  · simp only
    split_ifs
    · exact ⟨_, onlyMarks_mk node _ _ node.txdb.vInvalidatedBlocks, .inl rfl⟩
    · exact ⟨_, onlyMarks_mk node _ _ node.txdb.vInvalidatedBlocks, .inl rfl⟩
    · refine ⟨(node.markInvalidated pindex).writeInvalidatedSet, onlyMarks_mk node _ _ _, ?_⟩
      split
      · left
        rfl
      · rename_i rolled hrolled
        right
        exact ⟨⟨rfl, rfl⟩, rolled, hrolled, rfl⟩

/-- What `ReconsiderBlock` does: it changes marks, and may then activate the best chain. -/
theorem reconsiderBlock_cases (env : Env) (io : Io) (node : Node) (pindex : CBlockIndex) :
  ∃ marked, OnlyMarks node marked
    ∧ ((node.reconsiderBlock env io pindex).1 = marked
      ∨ (SameFlags (node.unmarkChain pindex) marked
        ∧ (node.reconsiderBlock env io pindex).1 = (marked.activateBestValidChain env io).1))
  := by
  rw [reconsiderBlock]
  split_ifs
  · exact ⟨_, onlyMarks_mk node _ _ node.txdb.vInvalidatedBlocks, .inl rfl⟩
  · exact ⟨(node.unmarkChain pindex).writeInvalidatedSet, onlyMarks_mk node _ _ _,
      .inr ⟨⟨rfl, rfl⟩, rfl⟩⟩

theorem Indexed.of_onlyMarks
    (h : node.Indexed env) (hmarks : OnlyMarks node node') :
  node'.Indexed env
  := by
  obtain ⟨best, hbest, hindexed⟩ := h.tip
  exact h.of_sameStore hmarks.store ⟨best, hmarks.tip best hbest, hindexed⟩

theorem Indexed.invalidateBlock
    (h : node.Indexed env) :
  (node.invalidateBlock env io pindex).1.Indexed env
  := by
  obtain ⟨marked, hmarks, heq | ⟨-, rolled, hrolled, heq⟩⟩ :=
    invalidateBlock_cases env io node pindex
  · rw [heq]
    apply h.of_onlyMarks hmarks
  · rw [heq]
    apply ((h.of_onlyMarks hmarks).rollBack hrolled).activateBestValidChain

theorem Indexed.reconsiderBlock
    (h : node.Indexed env) :
  (node.reconsiderBlock env io pindex).1.Indexed env
  := by
  obtain ⟨marked, hmarks, heq | ⟨-, heq⟩⟩ := reconsiderBlock_cases env io node pindex
  · rw [heq]
    apply h.of_onlyMarks hmarks
  · rw [heq]
    apply (h.of_onlyMarks hmarks).activateBestValidChain

theorem activateBestValidChain_same
    (io : Io) (h : node.Indexed env) :
  SameStore node (node.activateBestValidChain env io).1
    ∧ SameFlags node (node.activateBestValidChain env io).1
  := by
  obtain ⟨best, htip, -⟩ := h.tip
  obtain heq | ⟨block, -, hread, heq⟩ := activateBestValidChain_cases env io htip.pindexBest
  · rw [heq]
    exact ⟨.refl _, .refl _⟩
  · rw [heq]
    obtain ⟨hstore, hflags, -⟩ := setBestChain_same io h.loaded (getHash_of_readFromDisk hread)
    exact ⟨hstore, hflags⟩

theorem invalidateBlock_store
    (io : Io) (h : node.Indexed env) (pindex : CBlockIndex) :
  SameStore node (node.invalidateBlock env io pindex).1
  := by
  obtain ⟨marked, hmarks, heq | ⟨-, rolled, hrolled, heq⟩⟩ :=
    invalidateBlock_cases env io node pindex
  · rw [heq]
    apply hmarks.store
  · rw [heq]
    have hrolledIndexed := (h.of_onlyMarks hmarks).rollBack hrolled
    exact (hmarks.store.trans (rollBack_same hrolled).1).trans
      (activateBestValidChain_same io hrolledIndexed).1

theorem reconsiderBlock_store
    (io : Io) (h : node.Indexed env) (pindex : CBlockIndex) :
  SameStore node (node.reconsiderBlock env io pindex).1
  := by
  obtain ⟨marked, hmarks, heq | ⟨-, heq⟩⟩ := reconsiderBlock_cases env io node pindex
  · rw [heq]
    apply hmarks.store
  · rw [heq]
    exact hmarks.store.trans (activateBestValidChain_same io (h.of_onlyMarks hmarks)).1

/-! ## Accepting blocks -/

variable {entry : BlockEntry} {pprev : CBlockIndex}

/-- The block index with a new entry on top of an indexed one. -/
theorem Indexed.insertEntry
    (h : node.Indexed env) (hext : node.files.Extends files)
    (hpprev : node.mapBlockIndex[pprev.getBlockHash]? = some pprev)
    (hnew : node.mapBlockIndex[entry.hash]? = none) (hstored : Stored env files pprev entry block) :
  ((node.setFiles files).insertEntry (.next entry pprev)).Indexed env
  := by
  have hold : ∀ (hash : uint256) (pindex : CBlockIndex),
      (node.mapBlockIndex.insert entry.hash (.next entry pprev))[hash]? = some pindex →
      (entry.hash = hash ∧ pindex = .next entry pprev)
        ∨ node.mapBlockIndex[hash]? = some pindex := by
    intro hash pindex hget
    rw [TreeMap.getElem?_insert_ite] at hget
    split_ifs at hget with hhash
    · left
      exact ⟨hhash, (Option.some.inj hget).symm⟩
    · right
      apply hget
  have hkeep : ∀ pindex : CBlockIndex, node.mapBlockIndex[pindex.getBlockHash]? = some pindex →
      (node.mapBlockIndex.insert entry.hash (.next entry pprev))[pindex.getBlockHash]?
        = some pindex := by
    intro pindex hget
    rw [TreeMap.getElem?_insert_of_ne, hget]
    intro heq
    rw [← heq, hnew] at hget
    cases hget
  constructor
  · intro hash pindex hget
    rcases hold hash pindex hget with ⟨hhash, rfl⟩ | hget
    · apply hhash
    · apply h.key hash pindex hget
  · intro hash first hget
    rcases hold hash _ hget with ⟨-, hcontra⟩ | hget
    · cases hcontra
    · apply h.first hash first hget
  · intro hash entry' pprev' hget
    rcases hold hash _ hget with ⟨-, heq⟩ | hget
    · obtain ⟨rfl, rfl⟩ := CBlockIndex.next.inj heq
      exact ⟨hkeep _ hpprev, block, hstored⟩
    · obtain ⟨hpprev', block', hstored'⟩ := h.next hash entry' pprev' hget
      exact ⟨hkeep _ hpprev', block', hstored'.mono hext⟩
  · apply h.loaded
  · obtain ⟨best, htip, hbest⟩ := h.tip
    exact ⟨best, ⟨htip.1, htip.2, htip.3, htip.4⟩, hkeep best hbest⟩

/-- The entry of a block stored at a place. -/
def blockEntry (env : Env) (block : CBlock) (pos : BlockPos) : BlockEntry :=
  ⟨block.getHash env, pos, block.nVersion, block.hashMerkleRoot, block.nTime, block.nBits,
    block.nNonce⟩

/-- What `AddToBlockIndex` does with a block that is not in the index and whose previous block
is. -/
theorem addToBlockIndex_cases
    (io : Io) (pos : BlockPos) {pprev : CBlockIndex} (hnew : node.mapBlockIndex[block.getHash env]? = none)
    (hpprev : node.mapBlockIndex[block.hashPrevBlock]? = some pprev) :
  ((!io.beginsIndex || !io.commitsIndex) = true
      ∧ node.addToBlockIndex env io block pos
        = (node.insertEntry (.next (blockEntry env block pos) pprev), false))
    ∨ (node.addToBlockIndex env io block pos
        = ((node.insertEntry (.next (blockEntry env block pos) pprev)).writeEntry io
            (.next (blockEntry env block pos) pprev), true)
      ∧ ¬((CBlockIndex.next (blockEntry env block pos) pprev).bnChainWork > node.bnBestChainWork
        ∧ (node.insertEntry (.next (blockEntry env block pos) pprev)).fFailedChain
          (.next (blockEntry env block pos) pprev) = false))
    ∨ ((CBlockIndex.next (blockEntry env block pos) pprev).bnChainWork > node.bnBestChainWork
      ∧ (node.insertEntry (.next (blockEntry env block pos) pprev)).fFailedChain
        (.next (blockEntry env block pos) pprev) = false
      ∧ node.addToBlockIndex env io block pos
        = ((node.insertEntry (.next (blockEntry env block pos) pprev)).writeEntry io
            (.next (blockEntry env block pos) pprev)).setBestChain env io block
              (.next (blockEntry env block pos) pprev))
  := by
  have hcontains : node.mapBlockIndex.contains (block.getHash env) = false := by
    rw [← Bool.not_eq_true, ExtTreeMap.contains_iff_mem, ExtTreeMap.mem_iff_isSome_getElem?, hnew]
    simp
  have hentry : node.newEntry env block pos = .next (blockEntry env block pos) pprev := by
    rw [newEntry]
    simp only [hpprev]
    rfl
  rw [addToBlockIndex]
  simp only [hcontains, hentry, Bool.false_eq_true, if_false]
  split_ifs with hindex hbetter
  · left
    exact ⟨hindex, rfl⟩
  · right
    right
    rw [Bool.and_eq_true, decide_eq_true_eq, Bool.not_eq_true'] at hbetter
    exact ⟨hbetter.1, hbetter.2, rfl⟩
  · right
    left
    refine ⟨rfl, ?_⟩
    rw [Bool.and_eq_true, decide_eq_true_eq, Bool.not_eq_true'] at hbetter
    apply hbetter

/-- What `AcceptBlock` does: nothing, or it writes the block, adds an entry on top of an indexed
one, and may then write the entry and switch to it. -/
theorem acceptBlock_cases (env : Env) (io : Io) (node : Node) (block : CBlock) :
  (node.acceptBlock env io block).1 = node
    ∨ ∃ pprev files pos, node.mapBlockIndex[block.hashPrevBlock]? = some pprev
      ∧ node.mapBlockIndex[block.getHash env]? = none
      ∧ node.contextualCheck env io block pprev = true ∧ io.fDiskSpace = true
      ∧ node.files.writeToDisk env.network block = some (files, pos)
      ∧ node.acceptBlock env io block = (node.setFiles files).addToBlockIndex env io block pos
  := by
  rw [acceptBlock]
  split_ifs with hcontains hspace
  · left
    rfl
  · split
    · left
      rfl
    · rename_i pprev hpprev
      split_ifs with hcheck
      · left
        rfl
      · split
        · left
          rfl
        · rename_i files pos hwrite
          right
          refine ⟨pprev, files, pos, hpprev, ?_, by simpa using hcheck, hspace, hwrite, rfl⟩
          apply ExtTreeMap.getElem?_eq_none_of_contains_eq_false
          apply Bool.eq_false_of_not_eq_true hcontains
  · left
    split
    · rfl
    · split_ifs
      · rfl
      · rfl

variable {received : ReceivedBlock}

/-- A block written to disk is stored under its entry. -/
theorem stored_of_writeToDisk
    {files' : BlockFiles} {pos : BlockPos}
    (hwork : checkAuxProofOfWork env received.block received.block.nBits = true)
    (hprev : received.block.hashPrevBlock = pprev.getBlockHash)
    (hwrite : files.writeToDisk env.network received.block = some (files', pos)) :
  files.Extends files' ∧ Stored env files' pprev (blockEntry env received.block pos) received.block
  := by
  obtain ⟨hext, hholds, hlt⟩ := BlockFiles.writeToDisk_eq_some received.present hwrite
  have hsize : (received.block.bytes SER_DISK).length ≤ MAX_SIZE := received.size_le
  have hmax : MAX_SIZE = 0x02000000 := rfl
  refine ⟨hext, received.fits, received.present, rfl, hprev, hwork, hholds, ?_⟩
  change pos.nBlockPos.toNat + (received.block.bytes SER_DISK).length < 2 ^ 32
  omega

/-- A received block passes all checks and is written to disk, and it has an entry to insert on
top of an indexed one. -/
structure Inserts (env : Env) (io : Io) (node : Node) (received : ReceivedBlock)
    (files : BlockFiles) (entry : BlockEntry) (pprev : CBlockIndex) : Prop where
  checked : received.block.checkBlock env io.nCheckTime = true
  space : io.fDiskSpace = true
  written : node.files.writeToDisk env.network received.block = some (files, entry.pos)
  files_extends : node.files.Extends files
  stored : Stored env files pprev entry received.block
  context : node.contextualCheck env io received.block pprev = true
  pprev_indexed : node.mapBlockIndex[pprev.getBlockHash]? = some pprev
  new : node.mapBlockIndex[entry.hash]? = none
  entry_eq : entry = blockEntry env received.block entry.pos
  indexed : ((node.setFiles files).insertEntry (.next entry pprev)).Indexed env

theorem Inserts.hash_eq
    (h : Inserts env io node received files entry pprev) :
  received.block.getHash env = (CBlockIndex.next entry pprev).getBlockHash
  := h.stored.hash_eq

/-- A received block that passes all checks is inserted. -/
theorem Indexed.inserts
    (h : node.Indexed env) {pos : BlockPos}
    (hcheck : received.block.checkBlock env io.nCheckTime = true) (hspace : io.fDiskSpace = true)
    (hpprev : node.mapBlockIndex[received.block.hashPrevBlock]? = some pprev)
    (hnew : node.mapBlockIndex[received.block.getHash env]? = none)
    (hcontext : node.contextualCheck env io received.block pprev = true)
    (hwrite : node.files.writeToDisk env.network received.block = some (files, pos)) :
  Inserts env io node received files (blockEntry env received.block pos) pprev
  := by
  have hprev := (h.key _ _ hpprev).symm
  have hwork := (CBlock.checked_of_checkBlock hcheck).work
  obtain ⟨hext, hstored⟩ := stored_of_writeToDisk hwork hprev hwrite
  have hself := h.self hpprev
  exact ⟨hcheck, hspace, hwrite, hext, hstored, hcontext, hself, hnew, rfl,
    h.insertEntry hext hself hnew hstored⟩

/-- The new entry is to become the tip. -/
def Overtakes (node : Node) (files : BlockFiles) (pindexNew : CBlockIndex) : Prop :=
  pindexNew.bnChainWork > node.bnBestChainWork
    ∧ ((node.setFiles files).insertEntry pindexNew).fFailedChain pindexNew = false

/-- What accepting a received block does: nothing, or it inserts an entry, and may then write
the entry and switch to it. -/
theorem accept_cases
    (h : node.Indexed env) (received : ReceivedBlock)
    (hcheck : received.block.checkBlock env io.nCheckTime = true) :
  (node.acceptBlock env io received.block).1 = node
    ∨ ∃ files entry pprev, Inserts env io node received files entry pprev
      ∧ (((!io.beginsIndex || !io.commitsIndex) = true
          ∧ node.acceptBlock env io received.block
            = ((node.setFiles files).insertEntry (.next entry pprev), false))
        ∨ (¬node.Overtakes files (.next entry pprev)
          ∧ node.acceptBlock env io received.block
            = (((node.setFiles files).insertEntry (.next entry pprev)).writeEntry io
                (.next entry pprev), true))
        ∨ (node.Overtakes files (.next entry pprev)
          ∧ node.acceptBlock env io received.block
            = (((node.setFiles files).insertEntry (.next entry pprev)).writeEntry io
                (.next entry pprev)).setBestChain env io received.block (.next entry pprev)))
  := by
  obtain heq | ⟨pprev, files, pos, hpprev, hnew, hcontext, hspace, hwrite, heq⟩ :=
    acceptBlock_cases env io node received.block
  · left
    apply heq
  · right
    refine ⟨files, blockEntry env received.block pos, pprev,
      h.inserts hcheck hspace hpprev hnew hcontext hwrite, ?_⟩
    rw [heq]
    have hnew' : (node.setFiles files).mapBlockIndex[received.block.getHash env]? = none := hnew
    have hpprev' : (node.setFiles files).mapBlockIndex[received.block.hashPrevBlock]? = some pprev :=
      hpprev
    obtain ⟨hindex, hadd⟩ | ⟨hadd, hnot⟩ | ⟨hwork, hgood, hadd⟩ := addToBlockIndex_cases io pos hnew' hpprev'
    · left
      exact ⟨hindex, hadd⟩
    · right
      left
      exact ⟨hnot, hadd⟩
    · right
      right
      exact ⟨⟨hwork, hgood⟩, hadd⟩

theorem Indexed.writeEntry
    (h : node.Indexed env) (io : Io) (pindexNew : CBlockIndex) :
  (node.writeEntry io pindexNew).Indexed env
  := by
  obtain ⟨best, htip, hbest⟩ := h.tip
  exact h.of_sameStore ⟨rfl, rfl, rfl⟩ ⟨best, ⟨htip.1, htip.2, htip.3, htip.4⟩, hbest⟩

/-- After a received block is inserted, its entry and its file stay. -/
theorem Inserts.sameStore
    (h : Inserts env io node received files entry pprev) :
  SameStore ((node.setFiles files).insertEntry (.next entry pprev))
    (node.step env (.accept io received))
  := by
  have hentry := h.entry_eq
  have hnew : node.mapBlockIndex[received.block.getHash env]? = none := by
    rw [h.stored.hash_eq]
    apply h.new
  have hcontains : node.mapBlockIndex.contains (received.block.getHash env) = false := by
    rw [← Bool.not_eq_true, ExtTreeMap.contains_iff_mem, ExtTreeMap.mem_iff_isSome_getElem?, hnew]
    simp
  have hpprev : node.mapBlockIndex[received.block.hashPrevBlock]? = some pprev := by
    rw [h.stored.prev_eq]
    apply h.pprev_indexed
  have haccept : node.acceptBlock env io received.block
      = (node.setFiles files).addToBlockIndex env io received.block entry.pos := by
    rw [acceptBlock]
    simp only [hcontains, hpprev, h.context, h.space, h.written, Bool.false_eq_true, if_false,
      Bool.not_true, if_true]
  rw [step, if_pos h.checked, haccept]
  have hnew' : (node.setFiles files).mapBlockIndex[received.block.getHash env]? = none := hnew
  have hpprev' : (node.setFiles files).mapBlockIndex[received.block.hashPrevBlock]? = some pprev :=
    hpprev
  have hcases := addToBlockIndex_cases io entry.pos hnew' hpprev'
  rw [← hentry] at hcases
  obtain ⟨-, heq⟩ | ⟨heq, -⟩ | ⟨-, -, heq⟩ := hcases
  · rw [heq]
    apply SameStore.refl
  · rw [heq]
    exact ⟨rfl, rfl, rfl⟩
  · rw [heq]
    obtain ⟨hstore, -⟩ := setBestChain_same io (h.indexed.writeEntry io (.next entry pprev)).loaded
      h.hash_eq
    exact ⟨hstore.1, hstore.2, hstore.3⟩

theorem getElem?_insertEntry_self (node : Node) (pindexNew : CBlockIndex) :
  (node.insertEntry pindexNew).mapBlockIndex[pindexNew.getBlockHash]? = some pindexNew
  := ExtTreeMap.getElem?_insert_self

theorem Indexed.accept
    (h : node.Indexed env) (received : ReceivedBlock)
    (hcheck : received.block.checkBlock env io.nCheckTime = true) :
  (node.acceptBlock env io received.block).1.Indexed env
  := by
  obtain heq | ⟨files, entry, pprev, hinserts, ⟨-, heq⟩ | ⟨-, heq⟩ | ⟨-, heq⟩⟩ :=
    accept_cases h received hcheck
  · rw [heq]
    apply h
  · rw [heq]
    apply hinserts.indexed
  · rw [heq]
    apply hinserts.indexed.writeEntry
  · rw [heq]
    apply (hinserts.indexed.writeEntry io _).setBestChain io hinserts.hash_eq
    apply getElem?_insertEntry_self

/-- The memory pool does not matter to the index. -/
theorem Indexed.setMempool
    (h : node.Indexed env) (mempool : CTxMemPool) :
  { node with mempool }.Indexed env
  := by
  obtain ⟨best, htip, hbest⟩ := h.tip
  exact h.of_sameStore ⟨rfl, rfl, rfl⟩ ⟨best, ⟨htip.1, htip.2, htip.3, htip.4⟩, hbest⟩

/-- Offering a transaction changes the memory pool alone. -/
theorem exists_acceptTx
    (env : Env) (node : Node) (tx : CTransaction) (fCheckInputs fRateLimited : Bool) :
  ∃ mempool, node.acceptTx env tx fCheckInputs fRateLimited = { node with mempool }
  := by
  rw [acceptTx]
  split
  · exact ⟨node.mempool, rfl⟩
  · exact ⟨_, rfl⟩

theorem Indexed.step
    (h : node.Indexed env) (op : Op) :
  (node.step env op).Indexed env
  := by
  cases op with
  | accept io received =>
    rw [Node.step]
    split_ifs with hcheck
    · apply h.accept received hcheck
    · apply h
  | invalidate io hash =>
    simp only [Node.step]
    split
    · apply h
    · apply h.invalidateBlock
  | reconsider io hash =>
    simp only [Node.step]
    split
    · apply h
    · apply h.reconsiderBlock
  | acceptTx tx fCheckInputs fRateLimited =>
    obtain ⟨mempool, heq⟩ := node.exists_acceptTx env tx fCheckInputs fRateLimited
    rw [Node.step, heq]
    apply h.setMempool
  | removeTx tx => apply h.setMempool

end Indexed

/-! ## Starting -/

/-- The first block has work on every network. -/
theorem bnChainWork_genesis_pos (pos : BlockPos) :
  0 < (CBlockIndex.first (blockEntry env (genesisBlock env) pos)).bnChainWork
  := by
  have hbits : (genesisBlock env).nBits = 0x1e0ffff0 ∨ (genesisBlock env).nBits = 0x1f00ffff
      ∨ (genesisBlock env).nBits = 0x207fffff := by
    cases hnetwork : env.network with
    | main => exact .inl (by rw [genesisBlock, hnetwork])
    | test => exact .inr (.inl (by rw [genesisBlock, hnetwork]))
    | regtest => exact .inr (.inr (by rw [genesisBlock, hnetwork]))
  have hwork : ∀ nBits : UInt32, nBits = 0x1e0ffff0 ∨ nBits = 0x1f00ffff ∨ nBits = 0x207fffff →
      0 < (if setCompact nBits ≤ 0 then 0 else 2 ^ 256 / (setCompact nBits + 1)) := by
    rintro nBits (rfl | rfl | rfl)
    all_goals decide
  exact hwork _ hbits

/-- A node that has just loaded the first block. -/
structure Started (env : Env) (node : Node) (entry : BlockEntry) : Prop where
  mapBlockIndex : ∀ (hash : uint256) (pindex : CBlockIndex),
    node.mapBlockIndex[hash]? = some pindex ↔ entry.hash = hash ∧ .first entry = pindex
  pindexGenesisBlock : node.pindexGenesisBlock = some (.first entry)
  tip : node.TipIs (.first entry)
  hash_eq : entry.hash = hashGenesisBlock env
  nVersion_eq : entry.nVersion = 1
  pnext : node.pnext = ∅
  failed : ∀ hash : uint256, node.failed.contains hash = false
  setInvalidatedBlocks : node.setInvalidatedBlocks = ∅
  txIndex : node.txdb.txIndex = ∅
  hashBestChain : node.txdb.hashBestChain = some entry.hash
  mempool : node.mempool = CTxMemPool.empty

theorem started_of_load
    (h : load env io = some node) :
  ∃ entry, Started env node entry
  := by
  simp only [load, Option.bind_eq_bind, Option.bind_eq_some_iff] at h
  obtain ⟨⟨files, pos⟩, -, h⟩ := h
  split_ifs at h with hok
  obtain rfl := Option.some.inj h
  set pindexNew := CBlockIndex.first (blockEntry env (genesisBlock env) pos) with hpindexNew
  have hcontains : (empty.setFiles files).mapBlockIndex.contains ((genesisBlock env).getHash env)
      = false := ExtTreeMap.contains_empty
  have hentry : (empty.setFiles files).newEntry env (genesisBlock env) pos = pindexNew := by
    rw [newEntry]
    simp only [setFiles, empty, ExtTreeMap.getElem?_empty]
    rfl
  have hflag : ∀ hash : uint256, ((empty.setFiles files).insertEntry pindexNew).failed.contains hash
      = false := by
    intro hash
    simp [insertEntry, setFlag, failedFlag, setFiles, empty, hpindexNew, CBlockIndex.pprev]
  have hbetter : (decide (pindexNew.bnChainWork
        > (((empty.setFiles files).insertEntry pindexNew).writeEntry io pindexNew).bnBestChainWork)
      && !(((empty.setFiles files).insertEntry pindexNew).writeEntry io pindexNew).fFailedChain
        pindexNew) = true := by
    rw [Bool.and_eq_true, decide_eq_true_eq, Bool.not_eq_true']
    exact ⟨bnChainWork_genesis_pos pos, hflag _⟩
  have hgenesis : ((((empty.setFiles files).insertEntry pindexNew).writeEntry io
      pindexNew).pindexGenesisBlock.isNone
      && (genesisBlock env).getHash env == hashGenesisBlock env) = true := by
    rw [hashGenesisBlock, beq_self_eq_true]
    rfl
  rw [addToBlockIndex] at hok ⊢
  simp only [hcontains, hentry, Bool.false_eq_true, if_false, hbetter, if_true, setBestChain,
    hgenesis] at hok ⊢
  split_ifs at hok ⊢
  refine ⟨blockEntry env (genesisBlock env) pos, ?_, rfl, ⟨rfl, rfl, rfl, rfl⟩, rfl, rfl, rfl,
    hflag, rfl, ?_, rfl, rfl⟩
  · intro hash pindex
    change (ExtTreeMap.insert ∅ ((genesisBlock env).getHash env) pindexNew)[hash]? = some pindex
      ↔ _
    rw [TreeMap.getElem?_insert_ite]
    split_ifs with heq
    · simp [blockEntry, heq, hpindexNew]
    · simp [blockEntry, heq]
  · simp only [setTip, writeEntry, CTxDB.writeHashBestChain]
    split_ifs
    · rfl
    · rfl

/-- A node that has just loaded the first block has it in the index and nothing else. -/
theorem Started.indexed
    {entry : BlockEntry} (h : Started env node entry) :
  node.Indexed env
  := by
  constructor
  · intro hash pindex hget
    obtain ⟨hhash, rfl⟩ := (h.mapBlockIndex hash pindex).mp hget
    apply hhash
  · intro hash entry' hget
    obtain ⟨-, heq⟩ := (h.mapBlockIndex hash _).mp hget
    rw [← heq, h.pindexGenesisBlock]
  · intro hash entry' pprev hget
    obtain ⟨-, heq⟩ := (h.mapBlockIndex hash _).mp hget
    cases heq
  · rw [h.pindexGenesisBlock]
    apply Option.some_ne_none
  · exact ⟨.first entry, h.tip, (h.mapBlockIndex _ _).mpr ⟨rfl, rfl⟩⟩

/-- Every run keeps the index. -/
theorem indexed_run
    (h : load env io = some node) (ops : List Op) :
  (Transition.run (step env) node ops).Indexed env
  := by
  obtain ⟨entry, hstarted⟩ := started_of_load h
  apply Transition.run_invariant (fun _ op _ hindexed => hindexed.step op)
    (Transition.along_of_forall_mem (fun _ _ _ => trivial) node) hstarted.indexed

end Node

end CorgiCoin
