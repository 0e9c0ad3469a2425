import CorgiCoin.NodeIndex

/-!
# The flags of failed chains

`UpdateFailedChainFlags` recomputes the flag of every block, and `AddToBlockIndex` gives a new
block its flag from the block before it.  Between them the flags stay exact in every run,
whatever else goes wrong: a block is failed when it or a block below it is invalidated.
-/

namespace CorgiCoin

open Std

/-- The block of an entry, or a block below it, is in a set of invalidated blocks. -/
def CBlockIndex.invalidatedIn (set : ExtTreeMap uint256 Unit compare) (pindex : CBlockIndex) :
    Bool :=
  pindex.chain.any (fun p => set.contains p.getBlockHash)

namespace Node

/-- Every indexed block is failed exactly when it or a block below it is invalidated. -/
def FlagsExact (node : Node) : Prop :=
  ∀ (hash : uint256) (pindex : CBlockIndex), node.mapBlockIndex[hash]? = some pindex →
    node.fFailedChain pindex = pindex.invalidatedIn node.setInvalidatedBlocks

/-- The first block is not invalidated. -/
def GenesisValid (node : Node) : Prop :=
  ∀ (hash : uint256) (entry : BlockEntry), node.mapBlockIndex[hash]? = some (.first entry) →
    node.setInvalidatedBlocks.contains entry.hash = false

section Flags

variable {env : Env} {io : Io} {node node' : Node} {pindex pprev : CBlockIndex}
  {failed : ExtTreeMap uint256 Unit compare}

/-! ## Setting flags -/

theorem contains_setFlag
    (node : Node) (failed : ExtTreeMap uint256 Unit compare) (pindex : CBlockIndex)
    (hash : uint256) :
  (node.setFlag failed pindex).contains hash
    = if pindex.getBlockHash = hash then node.failedFlag failed pindex else failed.contains hash
  := by
  rw [setFlag]
  by_cases heq : pindex.getBlockHash = hash
  · rw [if_pos heq, heq]
    split_ifs with hflag
    · rw [hflag]
      apply ExtTreeMap.contains_insert_self
    · rw [Bool.eq_false_of_not_eq_true hflag]
      simp
  · rw [if_neg heq]
    have hcompare : (compare pindex.getBlockHash hash == .eq) = false := by
      rw [beq_eq_false_iff_ne]
      exact fun hcontra => heq (LawfulEqCmp.eq_of_compare hcontra)
    split_ifs
    · rw [ExtTreeMap.contains_insert, hcompare, Bool.false_or]
    · rw [ExtTreeMap.contains_erase, bne, hcompare, Bool.not_false, Bool.true_and]

/-- The flag of a block is exact when that of the block before it is. -/
theorem failedFlag_eq_invalidatedIn
    (h : ∀ pprev, pindex.pprev = some pprev →
      failed.contains pprev.getBlockHash = pprev.invalidatedIn node.setInvalidatedBlocks) :
  node.failedFlag failed pindex = pindex.invalidatedIn node.setInvalidatedBlocks
  := by
  cases pindex with
  | first entry => simp [failedFlag, CBlockIndex.invalidatedIn, CBlockIndex.chain, CBlockIndex.pprev]
  | next entry pprev =>
    have hpprev := h pprev rfl
    simp only [failedFlag, CBlockIndex.pprev, hpprev]
    rfl

/-- Setting the flags of entries in the order of their heights makes them all exact. -/
theorem contains_foldl_setFlag
    {entries : List CBlockIndex} (failed : ExtTreeMap uint256 Unit compare)
    (hsorted : entries.Pairwise (fun p q => p.nHeight ≤ q.nHeight))
    (hclosed : ∀ p ∈ entries, ∀ pprev, p.pprev = some pprev → pprev ∈ entries)
    (hkeys : ∀ p ∈ entries, ∀ q ∈ entries, p.getBlockHash = q.getBlockHash → p = q) :
  ∀ p ∈ entries, (entries.foldl node.setFlag failed).contains p.getBlockHash
    = p.invalidatedIn node.setInvalidatedBlocks
  := by
  induction entries using List.reverseRecOn with
  | nil => exact fun p hp => absurd hp List.not_mem_nil
  | append_singleton entries last ih =>
    obtain ⟨hsorted, -, hlow⟩ := List.pairwise_append.mp hsorted
    have hheight : ∀ p pprev : CBlockIndex, p.pprev = some pprev → pprev.nHeight < p.nHeight := by
      rintro (entry | ⟨entry, below⟩) pprev hpprev
      · cases hpprev
      · obtain rfl := Option.some.inj hpprev
        apply Nat.lt_succ_self
    -- no entry stands before the one below it
    have hbefore : ∀ p ∈ entries ++ [last], ∀ pprev, p.pprev = some pprev → pprev ∈ entries := by
      intro p hp pprev hpprev
      rcases List.mem_append.mp (hclosed p hp pprev hpprev) with hmem | hmem
      · apply hmem
      · obtain rfl := List.mem_singleton.mp hmem
        have hlt := hheight p pprev hpprev
        rcases List.mem_append.mp hp with hp | hp
        · have hle := hlow p hp pprev List.mem_cons_self
          omega
        · obtain rfl := List.mem_singleton.mp hp
          omega
    have hexact := ih hsorted
      (fun p hp => hbefore p (List.mem_append_left _ hp))
      (fun p hp q hq => hkeys p (List.mem_append_left _ hp) q (List.mem_append_left _ hq))
    have hlast : last ∈ entries ++ [last] := List.mem_append_right _ List.mem_cons_self
    intro p hp
    rw [List.foldl_append, List.foldl_cons, List.foldl_nil, contains_setFlag]
    split_ifs with heq
    · obtain rfl := hkeys last hlast p hp heq
      apply failedFlag_eq_invalidatedIn
      intro pprev hpprev
      apply hexact pprev (hbefore last hlast pprev hpprev)
    · rcases List.mem_append.mp hp with hp | hp
      · apply hexact p hp
      · obtain rfl := List.mem_singleton.mp hp
        exact absurd rfl heq

theorem mem_sortedByHeight_iff :
  pindex ∈ node.sortedByHeight ↔ ∃ hash : uint256, node.mapBlockIndex[hash]? = some pindex
  := by
  rw [sortedByHeight, List.mem_insertionSort, mem_entries_iff]

/-- The entries of the index are filed under their hashes, with the entries below them. -/
structure Keyed (node : Node) : Prop where
  self : ∀ (hash : uint256) (pindex : CBlockIndex), node.mapBlockIndex[hash]? = some pindex →
    node.mapBlockIndex[pindex.getBlockHash]? = some pindex
  pprev : ∀ (hash : uint256) (entry : BlockEntry) (pprev : CBlockIndex),
    node.mapBlockIndex[hash]? = some (.next entry pprev) →
    node.mapBlockIndex[pprev.getBlockHash]? = some pprev

theorem Indexed.keyed (h : node.Indexed env) : node.Keyed where
  self _ _ hget := h.self hget
  pprev _ _ _ hget := (h.next _ _ _ hget).1

/-- Updating the flags makes them exact. -/
theorem Keyed.flagsExact
    (h : node.Keyed) (hmap : node'.mapBlockIndex = node.mapBlockIndex) :
  node'.updateFailedChainFlags.FlagsExact
  := by
  intro hash pindex hget
  have hmem : ∀ p, p ∈ node'.sortedByHeight → node.mapBlockIndex[p.getBlockHash]? = some p := by
    intro p hp
    obtain ⟨hash, hget⟩ := mem_sortedByHeight_iff.mp hp
    rw [hmap] at hget
    apply h.self hash p hget
  have hsorted : node'.sortedByHeight.Pairwise (fun p q => p.nHeight ≤ q.nHeight) := by
    have htotal : Std.Total (fun p q : CBlockIndex => p.nHeight ≤ q.nHeight) :=
      ⟨fun p q => Nat.le_total _ _⟩
    have htrans : IsTrans CBlockIndex (fun p q => p.nHeight ≤ q.nHeight) :=
      ⟨fun p q r => Nat.le_trans⟩
    apply List.pairwise_insertionSort
  apply contains_foldl_setFlag node'.failed hsorted
  · intro p hp pprev hpprev
    cases p with
    | first entry => cases hpprev
    | next entry below =>
      obtain rfl := Option.some.inj hpprev
      rw [mem_sortedByHeight_iff, hmap]
      exact ⟨_, h.pprev _ _ _ (hmem _ hp)⟩
  · intro p hp q hq heq
    have hget := hmem p hp
    rw [heq, hmem q hq] at hget
    exact (Option.some.inj hget).symm
  · apply mem_sortedByHeight_iff.mpr ⟨hash, hget⟩

theorem Indexed.flagsExact
    (h : node.Indexed env) (hmap : node'.mapBlockIndex = node.mapBlockIndex) :
  node'.updateFailedChainFlags.FlagsExact
  := h.keyed.flagsExact hmap

/-! ## What keeps the flags exact -/

/-- The flags are exact, and the first block is not invalidated. -/
structure FlagsOk (node : Node) : Prop where
  exact : node.FlagsExact
  genesis : node.GenesisValid

theorem FlagsOk.of_same
    (h : node.FlagsOk) (hmap : node'.mapBlockIndex = node.mapBlockIndex)
    (hflags : SameFlags node node') :
  node'.FlagsOk
  := by
  constructor
  · intro hash pindex hget
    rw [hmap] at hget
    rw [fFailedChain, hflags.failed, hflags.setInvalidatedBlocks]
    apply h.exact hash pindex hget
  · intro hash entry hget
    rw [hmap] at hget
    rw [hflags.setInvalidatedBlocks]
    apply h.genesis hash entry hget

/-- Marking a block that is not the first. -/
theorem FlagsOk.markInvalidated
    (h : node.FlagsOk) (hindexed : node.Indexed env) {hash : uint256}
    (hget : node.mapBlockIndex[hash]? = some pindex) (hpprev : pindex.pprev = some pprev) :
  (node.markInvalidated pindex).FlagsOk
  := by
  constructor
  · apply Indexed.flagsExact hindexed
    rfl
  · intro hash' entry hget'
    change (node.setInvalidatedBlocks.insert pindex.getBlockHash ()).contains entry.hash = false
    have hfirst : node.mapBlockIndex[entry.hash]? = some (.first entry) := hindexed.self hget'
    rw [ExtTreeMap.contains_insert, h.genesis _ _ hfirst, Bool.or_false, beq_eq_false_iff_ne]
    intro hcontra
    have hself := hindexed.self hget
    rw [LawfulEqCmp.eq_of_compare hcontra, hfirst] at hself
    rw [← Option.some.inj hself] at hpprev
    cases hpprev

/-- Taking marks back. -/
theorem Indexed.flagsOk_of_subset
    (hindexed : node.Indexed env) (h : node.GenesisValid)
    (hmap : node'.mapBlockIndex = node.mapBlockIndex)
    (hset : ∀ hash, node'.setInvalidatedBlocks.contains hash = true →
      node.setInvalidatedBlocks.contains hash = true) :
  node'.updateFailedChainFlags.FlagsOk
  := by
  constructor
  · apply hindexed.flagsExact hmap
  · intro hash entry hget
    have hget' : node.mapBlockIndex[hash]? = some (.first entry) := by
      rw [← hmap]
      apply hget
    rw [← Bool.not_eq_true]
    intro hcontra
    have hmarked := hset entry.hash hcontra
    rw [h hash entry hget'] at hmarked
    cases hmarked

theorem contains_foldl_erase
    {entries : List CBlockIndex} {set : ExtTreeMap uint256 Unit compare} {hash : uint256}
    (h : (entries.foldl (fun set (p : CBlockIndex) => set.erase p.getBlockHash) set).contains hash
      = true) :
  set.contains hash = true
  := by
  induction entries generalizing set with
  | nil => apply h
  | cons p entries ih =>
    have hrest := ih h
    rw [ExtTreeMap.contains_erase, Bool.and_eq_true] at hrest
    apply hrest.2

theorem FlagsOk.invalidateBlock
    (h : node.FlagsOk) (hindexed : node.Indexed env) {hash : uint256}
    (hget : node.mapBlockIndex[hash]? = some pindex) :
  (node.invalidateBlock env io pindex).1.FlagsOk
  := by
  rw [Node.invalidateBlock]
  split
  · apply h
  · rename_i pprev hpprev
    have hmarked := h.markInvalidated hindexed hget hpprev
    have hmarks : OnlyMarks node (node.markInvalidated pindex).writeInvalidatedSet :=
      onlyMarks_mk node _ _ _
    have hset : ∀ hash', (((node.markInvalidated pindex).setInvalidatedBlocks).erase
        pindex.getBlockHash).contains hash' = true →
        (node.markInvalidated pindex).setInvalidatedBlocks.contains hash' = true := by
      intro hash' hcontains
      rw [ExtTreeMap.contains_erase, Bool.and_eq_true] at hcontains
      apply hcontains.2
    have hmarkedIndexed : (node.markInvalidated pindex).Indexed env :=
      hindexed.of_onlyMarks (onlyMarks_mk node _ _ node.txdb.vInvalidatedBlocks)
    simp only
    split_ifs
    · apply hmarkedIndexed.flagsOk_of_subset hmarked.genesis rfl (fun _ hcontains => hcontains)
    · apply Indexed.flagsOk_of_subset hmarkedIndexed hmarked.genesis
      · rfl
      · apply hset
    · have hwritten : (node.markInvalidated pindex).writeInvalidatedSet.FlagsOk :=
        hmarked.of_same rfl ⟨rfl, rfl⟩
      split
      · apply hwritten
      · rename_i rolled hrolled
        obtain ⟨hstore, hflags⟩ := rollBack_same hrolled
        obtain ⟨hstore', hflags'⟩ := activateBestValidChain_same io
          ((hindexed.of_onlyMarks hmarks).rollBack hrolled)
        apply hwritten.of_same (hstore.trans hstore').mapBlockIndex (hflags.trans hflags')

theorem FlagsOk.reconsiderBlock
    (h : node.FlagsOk) (hindexed : node.Indexed env) (pindex : CBlockIndex) :
  (node.reconsiderBlock env io pindex).1.FlagsOk
  := by
  have hunmarked : (node.unmarkChain pindex).FlagsOk :=
    hindexed.flagsOk_of_subset h.genesis rfl (fun _ hcontains => contains_foldl_erase hcontains)
  rw [Node.reconsiderBlock]
  split_ifs
  · apply hunmarked
  · have hmarks : OnlyMarks node (node.unmarkChain pindex).writeInvalidatedSet :=
      onlyMarks_mk node _ _ _
    obtain ⟨hstore, hflags⟩ := activateBestValidChain_same io (hindexed.of_onlyMarks hmarks)
    apply hunmarked.of_same hstore.mapBlockIndex ⟨hflags.failed, hflags.setInvalidatedBlocks⟩

/-- A new entry gets its flag from the entry below it. -/
theorem FlagsOk.insertEntry
    (h : node.FlagsOk) (files : BlockFiles) (entry : BlockEntry)
    (hpprev : node.mapBlockIndex[pprev.getBlockHash]? = some pprev)
    (hindexed : node.Indexed env) :
  ((node.setFiles files).insertEntry (.next entry pprev)).FlagsOk
  := by
  have hgenesis : ((node.setFiles files).insertEntry (.next entry pprev)).GenesisValid := by
    intro hash first hget
    change (node.mapBlockIndex.insert entry.hash (.next entry pprev))[hash]? = some (.first first)
      at hget
    rw [TreeMap.getElem?_insert_ite] at hget
    split_ifs at hget
    · cases Option.some.inj hget
    · apply h.genesis hash first hget
  refine ⟨?_, hgenesis⟩
  intro hash pindex hget
  change (node.mapBlockIndex.insert entry.hash (.next entry pprev))[hash]? = some pindex at hget
  change ((node.setFiles files).setFlag node.failed (.next entry pprev)).contains
    pindex.getBlockHash = pindex.invalidatedIn node.setInvalidatedBlocks
  rw [contains_setFlag]
  rw [TreeMap.getElem?_insert_ite] at hget
  split_ifs at hget with hhash
  · obtain rfl := Option.some.inj hget
    rw [if_pos rfl]
    apply failedFlag_eq_invalidatedIn
    intro below hbelow
    obtain rfl := Option.some.inj hbelow
    apply h.exact _ _ hpprev
  · have hne : (CBlockIndex.next entry pprev).getBlockHash ≠ pindex.getBlockHash := by
      rw [hindexed.key hash pindex hget]
      apply hhash
    rw [if_neg hne]
    apply h.exact hash pindex hget

theorem FlagsOk.accept
    (h : node.FlagsOk) (hindexed : node.Indexed env) (received : ReceivedBlock)
    (hcheck : received.block.checkBlock env io.nCheckTime = true) :
  (node.acceptBlock env io received.block).1.FlagsOk
  := by
  obtain heq | ⟨files, entry, pprev, hinserts, halternatives⟩ :=
    accept_cases hindexed received hcheck
  · rw [heq]
    apply h
  · have hinserted := h.insertEntry files entry hinserts.pprev_indexed hindexed
    have hwritten : (((node.setFiles files).insertEntry (.next entry pprev)).writeEntry io
        (.next entry pprev)).FlagsOk := hinserted.of_same rfl ⟨rfl, rfl⟩
    obtain ⟨-, heq⟩ | ⟨-, heq⟩ | ⟨-, heq⟩ := halternatives
    · rw [heq]
      apply hinserted
    · rw [heq]
      apply hwritten
    · rw [heq]
      obtain ⟨hstore, hflags, -⟩ := setBestChain_same io
        (hinserts.indexed.writeEntry io (.next entry pprev)).loaded hinserts.hash_eq
      apply hwritten.of_same hstore.mapBlockIndex hflags

/-- Every operation keeps the flags exact. -/
theorem FlagsOk.step
    (h : node.FlagsOk) (hindexed : node.Indexed env) (op : Op) :
  (node.step env op).FlagsOk
  := by
  cases op with
  | accept io received =>
    rw [Node.step]
    split_ifs with hcheck
    · apply h.accept hindexed received hcheck
    · apply h
  | invalidate io hash =>
    simp only [Node.step]
    split
    · apply h
    · rename_i pindex hpindex
      apply h.invalidateBlock hindexed hpindex
  | reconsider io hash =>
    simp only [Node.step]
    split
    · apply h
    · apply h.reconsiderBlock hindexed
  | acceptTx tx fCheckInputs fRateLimited =>
    obtain ⟨mempool, heq⟩ := node.exists_acceptTx env tx fCheckInputs fRateLimited
    rw [Node.step, heq]
    exact h.of_same rfl ⟨rfl, rfl⟩
  | removeTx tx => exact h.of_same rfl ⟨rfl, rfl⟩

theorem Started.flagsOk
    {entry : BlockEntry} (h : Started env node entry) :
  node.FlagsOk
  := by
  constructor
  · intro hash pindex hget
    obtain ⟨-, rfl⟩ := (h.mapBlockIndex hash pindex).mp hget
    rw [fFailedChain, h.failed, CBlockIndex.invalidatedIn, h.setInvalidatedBlocks]
    simp [CBlockIndex.chain]
  · intro hash first _
    rw [h.setInvalidatedBlocks]
    apply ExtTreeMap.contains_empty

end Flags

end Node

end CorgiCoin
