import CorgiCoin.CheckedRuns
import CorgiCoin.MainChain

/-!
# Block locators

A locator has the hashes of ancestors of a block: those of the first dozen, and then the distance to
the next one doubles.  A node that is sent a locator looks for the first of them that is on its main
chain.  If the two chains fork at a distance from the block, it finds a block of the common part that is
at most twice as far.
-/

namespace CorgiCoin

open Std CBlockIndex

/-! ## Making a locator -/

/-- The inner loop of `CBlockLocator::Set`: so many blocks back, or off the chain. -/
def stepBack : ℕ → Option CBlockIndex → Option CBlockIndex
  | 0, pindex => pindex
  | i + 1, pindex =>
    match pindex with
    | none => none
    | some pindex => stepBack i pindex.pprev

/-- The loop of `CBlockLocator::Set`.  Every turn goes a block back at least, so that a number of turns
above the height is enough.  The step leaves the range of an `int` only when the walk is over. -/
def setLoop : ℕ → ℕ → List uint256 → Option CBlockIndex → List uint256
  | 0, _, vHave, _ => vHave
  | turns + 1, nStep, vHave, pindex =>
    match pindex with
    | none => vHave
    | some p =>
      let vHave := vHave ++ [p.getBlockHash]
      setLoop turns (if vHave.length > 10 then nStep * 2 else nStep) vHave (stepBack nStep (some p))

/-- `CBlockLocator::Set` -/
def locatorSet (env : Env) (pindex : CBlockIndex) : List uint256 :=
  setLoop (pindex.nHeight + 1) 1 [] (some pindex) ++ [hashGenesisBlock env]

/-- The constructor of a `CBlockLocator` from the hash of a block. -/
def Node.locatorOfHash (env : Env) (node : Node) (hashBlock : uint256) : List uint256 :=
  match node.mapBlockIndex[hashBlock]? with
  | none => []
  | some pindex => locatorSet env pindex

/-! ## The distances of a locator -/

/-- How far an entry of a locator is behind the block. -/
def locatorDistance : ℕ → ℕ
  | 0 => 0
  | k + 1 => locatorDistance k + 2 ^ (k - 10)

/-- The steps are no larger than the way that is behind them. -/
theorem step_le_locatorDistance (k : ℕ) :
  2 ^ (k - 10) ≤ locatorDistance k + 1
  := by
  induction k with
  | zero => decide
  | succ k ih =>
    rw [locatorDistance]
    by_cases hk : k < 10
    · rw [Nat.sub_eq_zero_of_le (by omega)]
      exact Nat.succ_pos _
    · rw [Nat.succ_sub (by omega), pow_succ]
      omega

/-- No entry is more than twice as far as any distance that the entry before it falls short of. -/
theorem locatorDistance_le {k d : ℕ} (h : locatorDistance k < d) :
  locatorDistance (k + 1) ≤ 2 * d
  := by
  have hstep := step_le_locatorDistance k
  rw [locatorDistance]
  omega

theorem le_locatorDistance (k : ℕ) :
  locatorDistance k < locatorDistance (k + 1)
  := by
  rw [locatorDistance]
  exact Nat.lt_add_of_pos_right (Nat.two_pow_pos _)

/-! ## The walk -/

theorem stepBack_eq (i : ℕ) (p : CBlockIndex) :
  stepBack i (some p) = p.chain[i]?
  := by
  induction i generalizing p with
  | zero => cases p <;> rfl
  | succ i ih =>
    rw [stepBack]
    cases p with
    | first entry =>
      rw [pprev, chain, List.getElem?_cons_succ, List.getElem?_nil]
      cases i <;> rfl
    | next entry pprev =>
      rw [CBlockIndex.pprev, chain, List.getElem?_cons_succ]
      exact ih pprev

variable {q p : CBlockIndex}

/-- The chain of an ancestor is the rest of the chain. -/
theorem chain_eq_drop {i : ℕ} (h : p.chain[i]? = some q) :
  q.chain = p.chain.drop i
  := by
  induction p generalizing i with
  | first entry =>
    cases i with
    | zero =>
      obtain rfl := Option.some.inj h
      rfl
    | succ i => cases h
  | next entry pprev ih =>
    cases i with
    | zero =>
      obtain rfl := Option.some.inj h
      rfl
    | succ i =>
      rw [chain, List.getElem?_cons_succ] at h
      rw [chain, List.drop_succ_cons]
      exact ih h

theorem stepBack_of_getElem? {i j : ℕ} (h : p.chain[i]? = some q) :
  stepBack j (some q) = p.chain[i + j]?
  := by
  rw [stepBack_eq, chain_eq_drop h, List.getElem?_drop]

theorem prefix_setLoop (turns nStep : ℕ) (vHave : List uint256) (pindex : Option CBlockIndex) :
  vHave <+: setLoop turns nStep vHave pindex
  := by
  induction turns generalizing nStep vHave pindex with
  | zero => exact List.prefix_refl _
  | succ turns ih =>
    cases pindex with
    | none => exact List.prefix_refl _
    | some p =>
      rw [setLoop]
      exact (List.prefix_append _ _).trans (ih _ _ _)

/-- The walk from the `k`-th entry on finds, if anything, something at the right distance. -/
theorem findSome?_setLoop
    {α : Type} {f : uint256 → Option α} {d : ℕ}
    (hnear : ∀ e a, e < d → p.chain[e]? = some a → f a.getBlockHash = none)
    (hfar : ∀ e a, d ≤ e → p.chain[e]? = some a → (f a.getBlockHash).isSome = true)
    {turns : ℕ} {vHave : List uint256} (hturns : p.nHeight < turns + locatorDistance vHave.length)
    (hdistance : locatorDistance vHave.length ≤ 2 * d) (hnone : vHave.findSome? f = none) :
  ((setLoop turns (2 ^ (vHave.length - 10)) vHave p.chain[locatorDistance vHave.length]?).findSome? f
      = none ∧ p.nHeight < 2 * d)
    ∨ ∃ e a x, d ≤ e ∧ e ≤ 2 * d ∧ p.chain[e]? = some a ∧ f a.getBlockHash = some x
      ∧ (setLoop turns (2 ^ (vHave.length - 10)) vHave
        p.chain[locatorDistance vHave.length]?).findSome? f = some x
  := by
  induction turns generalizing vHave with
  | zero =>
    left
    rw [setLoop]
    exact ⟨hnone, by omega⟩
  | succ turns ih =>
    cases ha : p.chain[locatorDistance vHave.length]? with
    | none =>
      left
      rw [setLoop]
      rw [List.getElem?_eq_none_iff, length_chain] at ha
      exact ⟨hnone, by omega⟩
    | some a =>
      rw [setLoop]
      have hlength : (vHave ++ [a.getBlockHash]).length = vHave.length + 1 := List.length_append
      have hstep : (if (vHave ++ [a.getBlockHash]).length > 10 then 2 ^ (vHave.length - 10) * 2
          else 2 ^ (vHave.length - 10)) = 2 ^ ((vHave ++ [a.getBlockHash]).length - 10) := by
        rw [hlength]
        split_ifs with hlong
        · rw [← pow_succ]
          congr 1
          omega
        · congr 1
          omega
      have hnext : stepBack (2 ^ (vHave.length - 10)) (some a)
          = p.chain[locatorDistance (vHave ++ [a.getBlockHash]).length]? := by
        rw [stepBack_of_getElem? ha, hlength, locatorDistance]
      rw [hstep, hnext]
      by_cases hlt : locatorDistance vHave.length < d
      · apply ih
        · rw [hlength]
          have hmore := le_locatorDistance vHave.length
          omega
        · rw [hlength]
          exact locatorDistance_le hlt
        · rw [List.findSome?_append, hnone, List.findSome?_singleton, hnear _ _ hlt ha]
          rfl
      · right
        have hge := Nat.le_of_not_lt hlt
        obtain ⟨x, hx⟩ := Option.isSome_iff_exists.mp (hfar _ _ hge ha)
        refine ⟨_, a, x, hge, hdistance, ha, hx, ?_⟩
        obtain ⟨rest, hrest⟩ := prefix_setLoop turns (2 ^ ((vHave ++ [a.getBlockHash]).length - 10))
          (vHave ++ [a.getBlockHash]) p.chain[locatorDistance (vHave ++ [a.getBlockHash]).length]?
        rw [← hrest, List.findSome?_append, List.findSome?_append, hnone, List.findSome?_singleton, hx]
        rfl

/-! ## Trees of blocks -/

/-- A tree of blocks: the hash of the block before the block with a hash. -/
structure BlockTree where
  hashPrev : uint256 → Option uint256

/-- An entry and those below it are blocks of a tree. -/
def CBlockIndex.InTree (tree : BlockTree) : CBlockIndex → Prop
  | .first entry => tree.hashPrev entry.hash = none
  | .next entry pprev => tree.hashPrev entry.hash = some pprev.getBlockHash ∧ pprev.InTree tree

theorem CBlockIndex.InTree.of_mem_chain
    {tree : BlockTree} (h : p.InTree tree) (hq : q ∈ p.chain) :
  q.InTree tree
  := by
  induction p with
  | first entry =>
    obtain rfl := List.mem_singleton.mp hq
    exact h
  | next entry pprev ih =>
    rcases List.mem_cons.mp hq with rfl | hq
    · exact h
    · exact ih h.2 hq

/-- The entries that two nodes have of a block have the same hashes below them. -/
theorem map_getBlockHash_chain
    {tree : BlockTree} (hp : p.InTree tree) (hq : q.InTree tree) (h : p.getBlockHash = q.getBlockHash) :
  p.chain.map getBlockHash = q.chain.map getBlockHash
  := by
  induction p generalizing q with
  | first entry =>
    change entry.hash = q.entry.hash at h
    cases q with
    | first entry' => exact congrArg (fun hash => [hash]) h
    | next entry' pprev' =>
      have hprev := hq.1
      rw [← (show entry.hash = entry'.hash from h), show tree.hashPrev entry.hash = none from hp] at hprev
      cases hprev
  | next entry pprev ih =>
    cases q with
    | first entry' =>
      have hprev := hp.1
      rw [show entry.hash = entry'.hash from h, show tree.hashPrev entry'.hash = none from hq] at hprev
      cases hprev
    | next entry' pprev' =>
      have hprev := hp.1
      rw [show entry.hash = entry'.hash from h, hq.1] at hprev
      rw [chain, chain, List.map_cons, List.map_cons, h, ih hp.2 hq.2 (Option.some.inj hprev).symm]

namespace Node

/-- The tree of the blocks in the index of a node. -/
def tree (node : Node) : BlockTree where
  hashPrev hash := node.mapBlockIndex[hash]?.bind (fun p => p.pprev.map getBlockHash)

theorem Indexed.inTree
    {env : Env} {node : Node} {p : CBlockIndex} (h : node.Indexed env)
    (hp : node.mapBlockIndex[p.getBlockHash]? = some p) :
  p.InTree node.tree
  := by
  induction p with
  | first entry =>
    change node.mapBlockIndex[entry.hash]?.bind _ = none
    rw [show node.mapBlockIndex[entry.hash]? = some (CBlockIndex.first entry) from hp]
    rfl
  | next entry pprev ih =>
    refine ⟨?_, ih (h.next _ _ _ hp).1⟩
    change node.mapBlockIndex[entry.hash]?.bind _ = _
    rw [show node.mapBlockIndex[entry.hash]? = some (CBlockIndex.next entry pprev) from hp]
    rfl

/-! ## Finding the fork -/

/-- The node has a block with the hash of another on its main chain. -/
def OnMainChain (node : Node) (p : CBlockIndex) : Prop :=
  ∃ best, node.pindexBest = some best ∧ ∃ q ∈ best.chain, q.getBlockHash = p.getBlockHash

/-- If the main chain of the node has the ancestor of a block at a distance, but none that is nearer, then
the locator of the block leads it to an ancestor of the block on its main chain that is at most twice as
far, or to the first block, when that is less than twice as far. -/
def FindsFork (env : Env) (node : Node) (pindex : CBlockIndex) : Prop :=
  ∀ (d : ℕ) (a : CBlockIndex), pindex.chain[d]? = some a → node.OnMainChain a →
    (∀ (e : ℕ) (b : CBlockIndex), e < d → pindex.chain[e]? = some b → ¬node.OnMainChain b) →
    ∃ p best, node.locatorGetBlockIndex (locatorSet env pindex) = some p
      ∧ node.pindexBest = some best ∧ p ∈ best.chain
      ∧ ((∃ (e : ℕ) (b : CBlockIndex), d ≤ e ∧ e ≤ 2 * d ∧ pindex.chain[e]? = some b
          ∧ p.getBlockHash = b.getBlockHash)
        ∨ (node.pindexGenesisBlock = some p ∧ pindex.nHeight < 2 * d))

section Fork

variable {env : Env} {node : Node} {tree : BlockTree} {p a b best pindex : CBlockIndex} {d e : ℕ}

/-- Ancestors of a block on the main chain are on the main chain. -/
theorem OnMainChain.of_le
    (h : node.OnMainChain a) (htree : ∀ (hash : uint256) (p : CBlockIndex),
      node.mapBlockIndex[hash]? = some p → p.InTree tree)
    (hindexed : node.Indexed env) (hpindex : pindex.InTree tree) (ha : pindex.chain[d]? = some a)
    (hb : pindex.chain[e]? = some b) (hle : d ≤ e) :
  node.OnMainChain b
  := by
  obtain ⟨best, hbest, q, hq, hhash⟩ := h
  obtain ⟨best', htip, hindexedBest⟩ := hindexed.tip
  obtain rfl := Option.some.inj (htip.pindexBest.symm.trans hbest)
  have hqTree := htree _ _ (hindexed.mem_chain hindexedBest hq)
  have haTree := hpindex.of_mem_chain (List.mem_of_getElem? ha)
  have hbelow : (a.chain.map getBlockHash)[e - d]? = some b.getBlockHash := by
    rw [List.getElem?_map, chain_eq_drop ha, List.getElem?_drop, Nat.add_sub_cancel' hle, hb]
    rfl
  rw [← map_getBlockHash_chain hqTree haTree hhash] at hbelow
  obtain ⟨r, hr, hsame⟩ := List.mem_map.mp (List.mem_of_getElem? hbelow)
  exact ⟨best', hbest, r, mem_chain_trans hr hq, hsame⟩

/-- With all pointers of the main chain in place, the fork is found. -/
theorem findsFork_of_mainChain
    (hindexed : node.Indexed env) (hmain : node.MainChain True)
    (hgenesis : ∃ entry, node.mapBlockIndex[hashGenesisBlock env]? = some (.first entry)
      ∧ node.pindexGenesisBlock = some (.first entry))
    (htree : ∀ (hash : uint256) (p : CBlockIndex), node.mapBlockIndex[hash]? = some p →
      p.InTree tree)
    (hpindex : pindex.InTree tree) :
  node.FindsFork env pindex
  := by
  intro d a ha hon hnot
  obtain ⟨best, hbest, -⟩ := id hon
  obtain ⟨best', htip, hindexedBest⟩ := hindexed.tip
  obtain rfl := Option.some.inj (htip.pindexBest.symm.trans hbest)
  set find := fun hash : uint256 => node.mapBlockIndex[hash]?.filter node.isInMainChain with hfind
  -- what is found is on the main chain
  have hfound : ∀ {hash : uint256} {p : CBlockIndex}, find hash = some p →
      p.getBlockHash = hash ∧ p ∈ best'.chain := by
    intro hash p hp
    obtain ⟨hget, hin⟩ := Option.filter_eq_some_iff.mp hp
    have hkey := hindexed.key _ _ hget
    rw [← hkey] at hget
    exact ⟨hkey, mem_chain_of_isInMainChain hmain hindexed hget hbest hin⟩
  have hnear : ∀ e b, e < d → pindex.chain[e]? = some b → find b.getBlockHash = none := by
    intro e b he hb
    rw [Option.eq_none_iff_forall_ne_some]
    intro p hp
    obtain ⟨hkey, hmem⟩ := hfound hp
    exact hnot e b he hb ⟨best', hbest, p, hmem, hkey⟩
  have hfar : ∀ e b, d ≤ e → pindex.chain[e]? = some b → (find b.getBlockHash).isSome = true := by
    intro e b he hb
    obtain ⟨best'', hbest'', q, hq, hhash⟩ := hon.of_le htree hindexed hpindex ha hb he
    obtain rfl := Option.some.inj (hbest.symm.trans hbest'')
    have hget := hindexed.mem_chain hindexedBest hq
    have hin := isInMainChain_of_mem_chain hmain trivial hbest hq
    rw [hfind, ← hhash]
    dsimp only
    rw [hget, Option.filter_some, if_pos hin]
    rfl
  have hwalk := @findSome?_setLoop pindex _ find d hnear hfar (pindex.nHeight + 1) []
    (Nat.lt_succ_self _) (Nat.zero_le _) rfl
  have hself : pindex.chain[locatorDistance ([] : List uint256).length]? = some pindex := by
    cases pindex <;> rfl
  rw [hself] at hwalk
  rw [locatorGetBlockIndex, locatorSet, List.findSome?_append, List.findSome?_singleton]
  rcases hwalk with ⟨hnone, hshort⟩ | ⟨e, b, p, hle, htwice, hb, hp, hsome⟩
  · -- the walk went off the chain, and the first block is left
    obtain ⟨entry, hget, hfirst⟩ := hgenesis
    have hmem : CBlockIndex.first entry ∈ best'.chain := by
      obtain ⟨genesis, hgenesis, hmem⟩ := hindexed.genesis_mem_chain hindexedBest
      rw [Option.some.inj (hfirst.symm.trans hgenesis)]
      exact hmem
    refine ⟨.first entry, best', ?_, hbest, hmem, .inr ⟨hfirst, hshort⟩⟩
    change (((setLoop (pindex.nHeight + 1) 1 [] (some pindex)).findSome? find).or _).or _ = _
    rw [show (setLoop (pindex.nHeight + 1) 1 [] (some pindex)).findSome? find = none from hnone,
      Option.none_or, hfirst, hget, Option.filter_some]
    split_ifs
    · rfl
    · rfl
  · obtain ⟨hkey, hmem⟩ := hfound hp
    refine ⟨p, best', ?_, hbest, hmem, .inl ⟨e, b, hle, htwice, hb, hkey⟩⟩
    change (((setLoop (pindex.nHeight + 1) 1 [] (some pindex)).findSome? find).or _).or _ = _
    rw [show (setLoop (pindex.nHeight + 1) 1 [] (some pindex)).findSome? find = some p from hsome]
    rfl

end Fork

/-- In every run all whose switches of the chain are fine, the locator of every block of a tree that has the
blocks of the node leads to the fork. -/
theorem locator_finds_fork
    (env : Env) (io : Io) (start : Node) (ops : List Op) (hload : load env io = some start)
    (hok : Transition.Along (step env) (OpOk env) start ops) (tree : BlockTree)
    (htree : ∀ (hash : uint256) (p : CBlockIndex),
      (Transition.run (step env) start ops).mapBlockIndex[hash]? = some p → p.InTree tree)
    (pindex : CBlockIndex) (hpindex : pindex.InTree tree) :
  (Transition.run (step env) start ops).FindsFork env pindex
  := findsFork_of_mainChain (indexed_run hload ops) (mainChain_run hload ops (fun _ => hok))
    (genesis_run hload ops) htree hpindex

/-- The node that has come back to the lower block has left the branch of the side block, whose locator leads
to the fork. -/
theorem returnOps_findsFork :
  ∃ start best pindex, load sampleEnv sampleIo = some start
    ∧ (Transition.run (step sampleEnv) start returnOps).pindexBest = some best
    ∧ (Transition.run (step sampleEnv) start returnOps).mapBlockIndex[sideBlock.block.getHash sampleEnv]?
      = some pindex
    ∧ pindex ∉ best.chain ∧ (Transition.run (step sampleEnv) start returnOps).FindsFork sampleEnv pindex
  := by
  have heval : (load sampleEnv sampleIo).map (fun start =>
      let node := Transition.run (step sampleEnv) start returnOps
      node.mapBlockIndex[sideBlock.block.getHash sampleEnv]?.map (fun pindex =>
        decide (∀ best ∈ node.pindexBest, pindex ∉ best.chain))) = some (some true) := by
    decide +kernel
  obtain ⟨start, hload, hrun⟩ := Option.map_eq_some_iff.mp heval
  obtain ⟨pindex, hpindex, hleft⟩ := Option.map_eq_some_iff.mp hrun
  obtain ⟨start', hload', halong, -⟩ := returnOps_checked
  obtain rfl := Option.some.inj (hload.symm.trans hload')
  have hindexed := indexed_run hload returnOps
  have hkeyed : ∀ {hash : uint256} {p : CBlockIndex},
      (Transition.run (step sampleEnv) start returnOps).mapBlockIndex[hash]? = some p →
      p.InTree (Transition.run (step sampleEnv) start returnOps).tree := by
    intro hash p hp
    rw [← hindexed.key hash p hp] at hp
    exact hindexed.inTree hp
  obtain ⟨best, htip, -⟩ := hindexed.tip
  refine ⟨start, best, pindex, hload, htip.pindexBest, hpindex, of_decide_eq_true hleft best htip.pindexBest, ?_⟩
  exact locator_finds_fork sampleEnv sampleIo start returnOps hload halong _ (fun _ _ => hkeyed) pindex
    (hkeyed hpindex)

/-! ### A block that was not connected -/

/-- A block on top of the middle one that pays too much. -/
def upperBlock : ReceivedBlock where
  block := sampleChild (middleBlock.block.getHash sampleEnv) 1774996982 [1, 3] 1000000000000000
  fits := by decide
  present := by decide
  size_le := by decide +kernel

/-- The middle block is invalidated, the upper one accepted, and the middle one reconsidered. -/
def upperOps : List Op :=
  [ .accept sampleIo lowBlock,
    .accept sampleIo middleBlock,
    .invalidate sampleIo (middleBlock.block.getHash sampleEnv),
    .accept sampleIo upperBlock,
    .reconsider sampleIo (middleBlock.block.getHash sampleEnv) ]

/-- What the locator of the middle block finds. -/
def findMiddle (node : Node) : Option (Bool × Option uint256) :=
  node.mapBlockIndex[middleBlock.block.getHash sampleEnv]?.bind (fun pindex =>
    node.pindexBest.map (fun best => (best.chain.contains pindex,
      (node.locatorGetBlockIndex (locatorSet sampleEnv pindex)).map getBlockHash)))

/-- The tip is the upper block, and the locator of the middle block, which is on its chain, leads to the
lower one. -/
theorem upperOps_not_findsFork :
  ∃ start pindex, load sampleEnv sampleIo = some start
    ∧ (Transition.run (step sampleEnv) start upperOps).mapBlockIndex[
      middleBlock.block.getHash sampleEnv]? = some pindex
    ∧ ¬(Transition.run (step sampleEnv) start upperOps).FindsFork sampleEnv pindex
  := by
  have heval : (load sampleEnv sampleIo).map (fun start =>
      (Transition.run (step sampleEnv) start upperOps).findMiddle)
      = some (some (true, some (lowBlock.block.getHash sampleEnv))) := by
    decide +kernel
  obtain ⟨start, hload, hfind⟩ := Option.map_eq_some_iff.mp heval
  obtain ⟨pindex, hpindex, hfind⟩ := Option.bind_eq_some_iff.mp hfind
  obtain ⟨best, hbest, hfind⟩ := Option.map_eq_some_iff.mp hfind
  obtain ⟨hmem, hfound⟩ := Prod.mk.inj hfind
  refine ⟨start, pindex, hload, hpindex, ?_⟩
  intro hfork
  have hself : pindex.chain[0]? = some pindex := by
    cases pindex <;> rfl
  obtain ⟨p, best', hp, -, -, ⟨e, b, -, hzero, hb, hhash⟩ | ⟨-, hshort⟩⟩ := hfork 0 pindex hself
    ⟨best, hbest, pindex, List.contains_iff_mem.mp hmem, rfl⟩ (fun e b he => absurd he e.not_lt_zero)
  · rw [hp] at hfound
    obtain rfl := Nat.le_zero.mp hzero
    obtain rfl := Option.some.inj (hself.symm.trans hb)
    have hkey := (indexed_run hload upperOps).key _ _ hpindex
    rw [hkey] at hhash
    have hlow := Option.some.inj hfound
    rw [hhash] at hlow
    exact absurd hlow (by decide +kernel)
  · exact absurd hshort (Nat.not_lt_zero _)

end Node

end CorgiCoin
