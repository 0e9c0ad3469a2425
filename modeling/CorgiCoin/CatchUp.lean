import CorgiCoin.BlockSync
import Mathlib.Data.List.Induction

/-!
# A node that lacks blocks

The chain of a client is the lower part of the chain of a server, and when the client is handed the blocks
that it lacks, in their order, it accepts each of them as its new tip.  What the block index of the client is
after some of the blocks, and how the server finds the others.
-/

namespace CorgiCoin

open Std CBlockIndex

def ReceivedBlock.hash (env : Env) (b : ReceivedBlock) : uint256 := b.block.getHash env

def ReceivedBlock.onHeap (b : ReceivedBlock) : HeapBlock :=
  ⟨b.block, fun hversion => b.present.trans hversion⟩

namespace Node

variable (env : Env) (outside : Outside)

/-- The node accepts a block as its new tip. -/
structure Takes (node : Node) (b : ReceivedBlock) : Prop where
  checked : b.block.checkBlock env (outside.io (b.hash env)).nCheckTime = true
  accepted : (node.acceptBlock env (outside.io (b.hash env)) b.block).2 = true
  tip : (node.acceptBlock env (outside.io (b.hash env)) b.block).1.hashBestChain = b.hash env

/-- A node after blocks. -/
def catchUp (node : Node) (blocks : List ReceivedBlock) : Node :=
  Transition.run (step env) node (blocks.map (fun b => .accept (outside.io (b.hash env)) b))

theorem catchUp_concat (node : Node) (pre : List ReceivedBlock) (b : ReceivedBlock) :
  node.catchUp env outside (pre ++ [b])
    = (node.catchUp env outside pre).step env (.accept (outside.io (b.hash env)) b)
  := by
  rw [catchUp, List.map_append, Transition.run_append]
  rfl

variable {env outside}

variable {b : ReceivedBlock}

theorem step_of_takes
    {node : Node} (h : node.Takes env outside b) :
  node.step env (.accept (outside.io (b.hash env)) b)
    = (node.acceptBlock env (outside.io (b.hash env)) b.block).1
  := by
  rw [step, if_pos h.checked]

/-- A block that is in the index is not accepted. -/
theorem Takes.new
    {node : Node} (h : node.Takes env outside b) :
  node.mapBlockIndex.contains (b.hash env) = false
  := by
  rw [← Bool.not_eq_true]
  intro hcontains
  have hsame : node.mapBlockIndex.contains (b.block.getHash env) = true := hcontains
  have haccepted := h.accepted
  rw [acceptBlock, if_pos hsame] at haccepted
  cases haccepted

/-- A block that is accepted as the new tip and names the old one is put on top of it. -/
theorem tip_of_takes
    {node : Node} {p : CBlockIndex} (h : node.Takes env outside b) (hindexed : node.Indexed env)
    (htip : node.TipIs p) (hp : node.mapBlockIndex[p.getBlockHash]? = some p)
    (hprev : b.block.hashPrevBlock = p.getBlockHash) :
  ∃ entry, (node.step env (.accept (outside.io (b.hash env)) b)).TipIs (.next entry p)
    ∧ entry.hash = b.hash env
    ∧ (node.step env (.accept (outside.io (b.hash env)) b)).mapBlockIndex
      = node.mapBlockIndex.insert (b.hash env) (.next entry p)
  := by
  rw [step_of_takes h]
  have haccepted := h.accepted
  have hnewTip := h.tip
  have hnew := h.new
  obtain heq | ⟨files, entry, pprev, hinserts, hcase⟩ := accept_cases hindexed b h.checked
  · rw [heq, htip.hashBestChain] at hnewTip
    rw [← hnewTip, ExtTreeMap.contains_eq_isSome_getElem?, hp] at hnew
    cases hnew
  · have hhash : b.hash env = entry.hash := hinserts.hash_eq
    have hbelow : pprev = p := by
      have hindexedPrev := hinserts.pprev_indexed
      rw [← hinserts.stored.prev_eq, hprev, hp] at hindexedPrev
      exact (Option.some.inj hindexedPrev).symm
    obtain rfl := hbelow
    have hnotTip : pprev.getBlockHash ≠ b.hash env := by
      rintro heq
      rw [← heq, ExtTreeMap.contains_eq_isSome_getElem?, hp] at hnew
      cases hnew
    rcases hcase with ⟨-, heq⟩ | ⟨-, heq⟩ | ⟨-, heq⟩
    · rw [heq] at haccepted
      cases haccepted
    · rw [heq] at hnewTip
      exact absurd (htip.hashBestChain.symm.trans hnewTip) hnotTip
    · rw [heq] at haccepted ⊢
      have hloaded := (hinserts.indexed.writeEntry (outside.io (b.hash env)) (.next entry pprev)).loaded
      obtain ⟨hstore, -, hswitched, -⟩ := setBestChain_same (outside.io (b.hash env)) hloaded hinserts.hash_eq
      refine ⟨entry, hswitched haccepted, hhash.symm, ?_⟩
      rw [hstore.mapBlockIndex, hhash]
      rfl

/-! ## The blocks that are missing -/

/-- The client lacks blocks of the chain of the server, which the server has on disk. -/
structure Behind (env : Env) (outside : Outside) (client server : Node) (blocks : List ReceivedBlock) : Prop where
  client_indexed : client.Indexed env
  client_links : client.MainChain False
  server_indexed : server.Indexed env
  server_main : server.MainChain True
  chain : ∃ tip best, client.pindexBest = some tip ∧ server.pindexBest = some best
    ∧ best.chain.map getBlockHash = (blocks.map (·.hash env)).reverse ++ tip.chain.map getBlockHash
  stored : ∀ b ∈ blocks, ∀ p, server.mapBlockIndex[b.hash env]? = some p →
    server.files.readFromDisk env p = some b.block
  takes : ∀ pre b post, blocks = pre ++ b :: post → (client.catchUp env outside pre).Takes env outside b
  extra : ∀ pre b, blocks = pre ++ [b] → ∀ pre' post, pre = pre' ++ post →
    (client.catchUp env outside pre').extraChecks env b.block = true
  nonzero : ∀ b ∈ blocks, b.hash env ≠ 0

/-- The hashes of the chain of the client after some of the blocks, the tip first. -/
def chainHashes (env : Env) (client : Node) (pre : List ReceivedBlock) : List uint256 :=
  (pre.map (·.hash env)).reverse ++ ((client.pindexBest.map (fun tip => tip.chain.map getBlockHash)).getD [])

/-- An entry that is in a chain, with the hashes below it. -/
theorem exists_chain_entry
    {best : CBlockIndex} {above below : List uint256} {hash hash' : uint256}
    (h : best.chain.map getBlockHash = above ++ hash :: hash' :: below) :
  ∃ entry p, CBlockIndex.next entry p ∈ best.chain ∧ entry.hash = hash ∧ p.getBlockHash = hash'
    ∧ p.chain.map getBlockHash = hash' :: below
  := by
  have hat : (best.chain.map getBlockHash)[above.length]? = some hash := by
    rw [h, List.getElem?_append_right le_rfl, Nat.sub_self]
    rfl
  rw [List.getElem?_map] at hat
  obtain ⟨q, hq, hhash⟩ := Option.map_eq_some_iff.mp hat
  have hchain : q.chain.map getBlockHash = hash :: hash' :: below := by
    rw [chain_eq_drop hq, List.map_drop, h, List.drop_left]
  cases q with
  | first entry => cases hchain
  | next entry p =>
    have htail : p.chain.map getBlockHash = hash' :: below := (List.cons.inj hchain).2
    refine ⟨entry, p, List.mem_of_getElem? hq, hhash, ?_, htail⟩
    cases p <;> exact (List.cons.inj htail).1

namespace Behind

variable {client server : Node} {blocks pre post : List ReceivedBlock} {b : ReceivedBlock}

theorem chain_eq (h : Behind env outside client server blocks) :
  ∃ best, server.pindexBest = some best ∧ best.chain.map getBlockHash = chainHashes env client blocks
  := by
  obtain ⟨tip, best, htip, hbest, hchain⟩ := h.chain
  refine ⟨best, hbest, ?_⟩
  rw [hchain, chainHashes, htip]
  rfl

theorem exists_chainHashes (h : Behind env outside client server blocks) (pre : List ReceivedBlock) :
  ∃ hash below, chainHashes env client pre = hash :: below
  := by
  obtain ⟨tip, best, htip, -, -⟩ := h.chain
  rw [chainHashes, htip]
  cases hpre : (pre.map (·.hash env)).reverse with
  | nil =>
    cases tip with
    | first entry => exact ⟨_, _, rfl⟩
    | next entry p => exact ⟨_, _, rfl⟩
  | cons hash rest => exact ⟨hash, _, rfl⟩

theorem chainHashes_concat (env : Env) (client : Node) (pre : List ReceivedBlock) (b : ReceivedBlock) :
  chainHashes env client (pre ++ [b]) = b.hash env :: chainHashes env client pre
  := by
  rw [chainHashes, List.map_append, List.reverse_append]
  rfl

theorem chainHashes_append (env : Env) (client : Node) (pre post : List ReceivedBlock) :
  chainHashes env client (pre ++ post) = (post.map (·.hash env)).reverse ++ chainHashes env client pre
  := by
  rw [chainHashes, chainHashes, List.map_append, List.reverse_append, List.append_assoc]

/-- The server has a missing block on top of the one before it. -/
theorem exists_entry
    (h : Behind env outside client server blocks) (hblocks : blocks = pre ++ b :: post) :
  ∃ entry p best, server.pindexBest = some best ∧ CBlockIndex.next entry p ∈ best.chain
    ∧ entry.hash = b.hash env ∧ p.chain.map getBlockHash = chainHashes env client pre
    ∧ (chainHashes env client pre).head? = some p.getBlockHash
    ∧ server.mapBlockIndex[b.hash env]? = some (.next entry p)
  := by
  obtain ⟨best, hbest, hchain⟩ := h.chain_eq
  obtain ⟨hash', below, hhashes⟩ := h.exists_chainHashes pre
  rw [hblocks, List.append_cons, chainHashes_append, chainHashes_concat, hhashes] at hchain
  obtain ⟨entry, p, hmem, hhash, hp, hbelow⟩ := exists_chain_entry hchain
  refine ⟨entry, p, best, hbest, hmem, hhash, ?_, ?_, ?_⟩
  · rw [hbelow, hhashes]
  · rw [hhashes, hp]
    rfl
  · obtain ⟨best', htip, hindexed⟩ := h.server_indexed.tip
    obtain rfl := Option.some.inj (htip.pindexBest.symm.trans hbest)
    rw [← hhash]
    exact h.server_indexed.mem_chain hindexed hmem

/-- A missing block names the one before it. -/
theorem hashPrevBlock_eq
    (h : Behind env outside client server blocks) (hblocks : blocks = pre ++ b :: post) :
  (chainHashes env client pre).head? = some b.block.hashPrevBlock
  := by
  obtain ⟨entry, p, best, -, -, -, -, hhead, hindexed⟩ := h.exists_entry hblocks
  obtain ⟨-, block, hstored⟩ := h.server_indexed.next _ _ _ hindexed
  have hmem : b ∈ blocks := by
    rw [hblocks]
    exact List.mem_append_right _ List.mem_cons_self
  have hread := h.stored b hmem _ hindexed
  rw [hstored.readFromDisk_eq] at hread
  rw [← Option.some.inj hread, hstored.prev_eq]
  exact hhead

/-- What the client is after some of the blocks. -/
structure CaughtUp (env : Env) (client : Node) (pre : List ReceivedBlock) (node : Node) (p : CBlockIndex) :
    Prop where
  indexed : node.Indexed env
  links : node.MainChain False
  tip : node.TipIs p
  tip_indexed : node.mapBlockIndex[p.getBlockHash]? = some p
  chain_eq : p.chain.map getBlockHash = chainHashes env client pre

variable {p : CBlockIndex} {node : Node}

theorem CaughtUp.head
    (h : CaughtUp env client pre node p) :
  (chainHashes env client pre).head? = some p.getBlockHash
  := by
  rw [← h.chain_eq]
  cases p <;> rfl

theorem caughtUp
    (h : Behind env outside client server blocks) (pre post : List ReceivedBlock) (hblocks : blocks = pre ++ post) :
  ∃ p, CaughtUp env client pre (client.catchUp env outside pre) p
  := by
  induction pre using List.reverseRecOn generalizing post with
  | nil =>
    obtain ⟨tip, -, htip, -, -⟩ := h.chain
    obtain ⟨tip', htipIs, hindexed⟩ := h.client_indexed.tip
    obtain rfl := Option.some.inj (htipIs.pindexBest.symm.trans htip)
    refine ⟨tip', h.client_indexed, h.client_links, htipIs, hindexed, ?_⟩
    rw [chainHashes, htip]
    rfl
  | append_singleton pre b ih =>
    rw [← List.append_cons] at hblocks
    obtain ⟨p, hp⟩ := ih (b :: post) hblocks
    have htakes := h.takes pre b post hblocks
    have hprev : b.block.hashPrevBlock = p.getBlockHash := by
      have hhead := h.hashPrevBlock_eq hblocks
      rw [hp.head] at hhead
      exact (Option.some.inj hhead).symm
    obtain ⟨entry, htip, hhash, hmap⟩ := tip_of_takes htakes hp.indexed hp.tip hp.tip_indexed hprev
    rw [catchUp_concat]
    refine ⟨.next entry p, hp.indexed.step _, hp.links.step hp.indexed _ False.elim, htip, ?_, ?_⟩
    · rw [hmap, ← hhash]
      exact ExtTreeMap.getElem?_insert_self
    · rw [chainHashes_concat, ← hp.chain_eq, ← hhash]
      rfl

/-! ## Which blocks the client has -/

theorem nodup_of_distinct (h : Distinct p) :
  (p.chain.map getBlockHash).Nodup
  := by
  induction p with
  | first entry => exact List.nodup_singleton _
  | next entry pprev ih =>
    have hbelow : Distinct pprev := h.of_pprev rfl
    apply List.nodup_cons.mpr ⟨?_, ih hbelow⟩
    intro hmem
    obtain ⟨r, hr, hhash⟩ := List.mem_map.mp hmem
    have hself := h r (List.mem_cons_of_mem _ hr) _ (mem_chain_self _) hhash
    have hle := nHeight_le_of_mem_chain hr
    rw [hself, nHeight] at hle
    omega

/-- The hashes of the chain are different, and the server has all of them. -/
theorem nodup_chainHashes (h : Behind env outside client server blocks) :
  (chainHashes env client blocks).Nodup
    ∧ ∀ hash ∈ chainHashes env client blocks, server.mapBlockIndex.contains hash = true
  := by
  obtain ⟨best, hbest, hchain⟩ := h.chain_eq
  obtain ⟨best', htip, hindexed⟩ := h.server_indexed.tip
  obtain rfl := Option.some.inj (htip.pindexBest.symm.trans hbest)
  rw [← hchain]
  refine ⟨nodup_of_distinct (h.server_indexed.distinct hindexed), ?_⟩
  intro hash hmem
  obtain ⟨q, hq, rfl⟩ := List.mem_map.mp hmem
  rw [ExtTreeMap.contains_eq_isSome_getElem?, h.server_indexed.mem_chain hindexed hq]
  rfl

variable {hash : uint256}

/-- Blocks only come to the index. -/
theorem grows_catchUp
    (h : Behind env outside client server blocks) {pre mid post : List ReceivedBlock}
    (hblocks : blocks = pre ++ (mid ++ post)) :
  Grows (client.catchUp env outside pre) (client.catchUp env outside (pre ++ mid))
  := by
  obtain ⟨p, hp⟩ := h.caughtUp pre (mid ++ post) hblocks
  rw [catchUp, catchUp, List.map_append, Transition.run_append]
  exact (hp.indexed.grows_run _).2

/-- The client does not have a block before it is its turn. -/
theorem not_contains
    (h : Behind env outside client server blocks) (hblocks : blocks = pre ++ post) (hb : b ∈ post) :
  (client.catchUp env outside pre).mapBlockIndex.contains (b.hash env) = false
  := by
  obtain ⟨mid, rest, rfl⟩ := List.append_of_mem hb
  have hnew := (h.takes (pre ++ mid) b rest (by rw [hblocks, List.append_assoc])).new
  rw [← Bool.not_eq_true] at hnew ⊢
  intro hcontains
  apply hnew
  rw [ExtTreeMap.contains_eq_isSome_getElem?] at hcontains ⊢
  obtain ⟨q, hq⟩ := Option.isSome_iff_exists.mp hcontains
  rw [(h.grows_catchUp hblocks).keeps _ _ hq]
  rfl

/-! ## How the server finds the others -/

/-- The locator of a tip of the client leads the server to the block. -/
theorem locatorGetBlockIndex_tip
    (h : Behind env outside client server blocks) (hblocks : blocks = pre ++ post)
    (hp : CaughtUp env client pre node p) :
  ∃ q, server.locatorGetBlockIndex (locatorSet env p) = some q ∧ q.getBlockHash = p.getBlockHash
  := by
  obtain ⟨best, hbest, hchain⟩ := h.chain_eq
  obtain ⟨best', htip, hindexed⟩ := h.server_indexed.tip
  obtain rfl := Option.some.inj (htip.pindexBest.symm.trans hbest)
  have hmem : p.getBlockHash ∈ best'.chain.map getBlockHash := by
    rw [hchain, hblocks, chainHashes_append]
    exact List.mem_append_right _ (List.mem_of_mem_head? hp.head)
  obtain ⟨q, hq, hhash⟩ := List.mem_map.mp hmem
  have hget := h.server_indexed.mem_chain hindexed hq
  have hmain := isInMainChain_of_mem_chain h.server_main trivial hbest hq
  have hset : ∃ rest, locatorSet env p = p.getBlockHash :: rest := by
    obtain ⟨rest, hrest⟩ := prefix_setLoop p.nHeight (if ([p.getBlockHash].length > 10) then 1 * 2 else 1)
      [p.getBlockHash] (stepBack 1 (some p))
    refine ⟨rest ++ [hashGenesisBlock env], ?_⟩
    rw [locatorSet, setLoop]
    dsimp only [List.nil_append]
    rw [← hrest]
    rfl
  obtain ⟨rest, hrest⟩ := hset
  refine ⟨q, ?_, hhash⟩
  rw [locatorGetBlockIndex, hrest, List.findSome?_cons, ← hhash, hget, Option.filter_some, if_pos hmain]
  rfl

/-- The pointer of the server from a tip of the client leads to the next of the missing blocks. -/
theorem pnext_eq_some
    (h : Behind env outside client server blocks) (hblocks : blocks = pre ++ b :: post)
    (hhash : (chainHashes env client pre).head? = some hash) :
  ∃ q, server.pnext[hash]? = some q ∧ q.getBlockHash = b.hash env
  := by
  obtain ⟨entry, p, best, hbest, hmem, hentry, -, hhead, -⟩ := h.exists_entry hblocks
  obtain ⟨best', -, htip, hlinks⟩ := h.server_main
  obtain rfl := Option.some.inj (htip.pindexBest.symm.trans hbest)
  refine ⟨.next entry p, ?_, hentry⟩
  rw [← Option.some.inj (hhead.symm.trans hhash)]
  exact hlinks.all trivial _ hmem _ rfl

/-- There is no pointer from the tip of the server. -/
theorem pnext_eq_none
    (h : Behind env outside client server blocks)
    (hhash : (chainHashes env client blocks).head? = some hash) :
  server.pnext[hash]? = none
  := by
  obtain ⟨best, hbest, hchain⟩ := h.chain_eq
  obtain ⟨best', hindexed, htip, hlinks⟩ := h.server_main
  obtain rfl := Option.some.inj (htip.pindexBest.symm.trans hbest)
  have hself : best'.getBlockHash = hash := by
    rw [← hchain] at hhash
    cases best' <;> exact Option.some.inj hhash
  rw [Option.eq_none_iff_forall_ne_some]
  intro q hq
  obtain ⟨hmem, hpprev⟩ := hlinks.up _ _ hq
  obtain ⟨r, hr, hrhash⟩ := Option.map_eq_some_iff.mp hpprev
  rw [← hself] at hrhash
  exact getBlockHash_ne_of_pprev (h.server_indexed.distinct hindexed) hmem hr hrhash

/-- The pointers of the client lead to blocks of its chain. -/
theorem CaughtUp.pnext_mem
    {q : CBlockIndex} (h : CaughtUp env client pre node p) (hq : node.pnext[hash]? = some q) :
  q.getBlockHash ∈ chainHashes env client pre
  := by
  obtain ⟨best, -, htip, hlinks⟩ := h.links
  obtain rfl := Option.some.inj (htip.pindexBest.symm.trans h.tip.pindexBest)
  rw [← h.chain_eq]
  exact List.mem_map_of_mem (hlinks.up _ _ hq).1

end Behind

end Node

end CorgiCoin
