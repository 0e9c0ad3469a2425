import CorgiCoin.ExplorerTables

/-!
# The explorer unwinds blocks

Rewinding a block after indexing it gives the tables back, whatever they hold: the rows that the block
wrote are found through its height, and the spends it marked through its transactions.  It takes a block
that is new to the tables, as a row in the place of the block is lost.
-/

namespace CorgiCoin.Explorer

/-! ## Blocks that are new to the tables -/

/-- No row of the tables names one of the transactions. -/
structure NewTxs (tables : Tables) (txids : List uint256) : Prop where
  txs : ∀ r ∈ tables.txs, r.txid ∉ txids
  outputs : ∀ r ∈ tables.outputs, r.txid ∉ txids ∧ ∀ txid ∈ txids, r.spentTxid ≠ some txid
  burns : ∀ r ∈ tables.burns, r.txid ∉ txids

/-- The outputs that the transactions spend are unspent, those of them that are stored.  An output that
is created in the block is not stored before it. -/
def SpendsUnspent (data : NodeData) (tables : Tables) (txids : List uint256) : Prop :=
  ∀ r ∈ tables.outputs, (r.txid, r.n) ∈ spendsOf data txids → r.spentTxid = none

/-- Neither the height of a block nor its hash is stored, and no transaction has that height. -/
structure NewPlace (tables : Tables) (hash : uint256) (height : ℕ) : Prop where
  blocks : ∀ r ∈ tables.blocks, r.height ≠ height ∧ r.hash ≠ hash
  txs : ∀ r ∈ tables.txs, r.height ≠ height

/-- A block, given by its hash and its height, that can be unwound. -/
structure Unwindable (data : NodeData) (tables : Tables) (block : uint256 × ℕ) : Prop where
  newTxs : NewTxs tables (data.getblock block.1).tx
  spendsUnspent : SpendsUnspent data tables (data.getblock block.1).tx
  newPlace : NewPlace tables block.1 block.2

/-- Each block can be unwound in the tables that the blocks before it leave. -/
def AllUnwindable (data : NodeData) (times : uint256 → uint256 → Option ℤ) :
    Tables → List (uint256 × ℕ) → Prop
  | _, [] => True
  | tables, block :: blocks =>
    Unwindable data tables block ∧ AllUnwindable data times (indexBlock data times tables block) blocks

/-! ## Unwinding -/

variable {data : NodeData} {times : uint256 → uint256 → Option ℤ} {tables : Tables}

theorem Unwindable.free
    {block : uint256 × ℕ} (h : Unwindable data tables block) :
  Free tables block.2 (data.getblock block.1).tx (spendsOf data (data.getblock block.1).tx)
  := by
  constructor
  · intro r hr
    exact ⟨h.newPlace.txs r hr, h.newTxs.txs r hr⟩
  · intro r hr
    obtain ⟨htxid, hspent⟩ := h.newTxs.outputs r hr
    exact ⟨htxid, hspent, h.spendsUnspent r hr⟩
  · exact h.newTxs.burns

/-- The row of a new block is written over no other, and is the one that is deleted. -/
theorem Unwindable.blocks
    {block : uint256 × ℕ} (h : Unwindable data tables block) :
  ((indexBlock data times tables block).rewindBlock block.2).blocks = tables.blocks
  := by
  have hkept : tables.blocks.filter (fun r =>
      r.height ≠ block.2 ∧ r.hash ≠ (blockRow block.2 (data.getblock block.1)).hash)
        = tables.blocks := by
    apply List.filter_eq_self.mpr
    intro r hr
    obtain ⟨hheight, hhash⟩ := h.newPlace.blocks r hr
    have hrow : (blockRow block.2 (data.getblock block.1)).hash = block.1 := data.hash_getblock _
    rw [hrow]
    exact decide_eq_true ⟨hheight, hhash⟩
  have hother : tables.blocks.filter (fun r => r.height ≠ block.2) = tables.blocks := by
    apply List.filter_eq_self.mpr
    intro r hr
    exact decide_eq_true (h.newPlace.blocks r hr).1
  rw [Tables.rewindBlock, foldl_rewindTx]
  dsimp only
  rw [blocks_indexBlock, Tables.replaceBlock]
  dsimp only
  have hheight : (blockRow block.2 (data.getblock block.1)).height = block.2 := rfl
  rw [hheight, hkept, List.filter_cons, if_neg (by simp [hheight]), hother]

theorem Unwindable.rewindBlock_eq
    {block : uint256 × ℕ} (h : Unwindable data tables block) :
  (indexBlock data times tables block).rewindBlock block.2 = tables
  := rewindBlock_indexBlock h.free h.blocks

/-- Rewinding a block that is new to the tables undoes indexing it, and rewinding several from the last
one down undoes indexing them in order, whatever `time` the transactions are read with. -/
theorem unwind_restores (data : NodeData) (times : uint256 → uint256 → Option ℤ) :
  (∀ tables block, Unwindable data tables block →
      (indexBlock data times tables block).rewindBlock block.2 = tables)
    ∧ ∀ blocks tables, AllUnwindable data times tables blocks →
      blocks.reverse.foldl (fun tables block => tables.rewindBlock block.2)
        (blocks.foldl (indexBlock data times) tables) = tables
  := by
  refine ⟨fun _ _ h => h.rewindBlock_eq, ?_⟩
  intro blocks
  induction blocks with
  | nil =>
    intro tables _
    rfl
  | cons block blocks ih =>
    intro tables h
    obtain ⟨hblock, hblocks⟩ := h
    rw [List.foldl_cons, List.reverse_cons, List.foldl_append, ih _ hblocks, List.foldl_cons,
      List.foldl_nil, hblock.rewindBlock_eq]

/-- A node whose block 1 spends the output of block 0 and, in the same block, what it gets for it. -/
def spendingData : NodeData where
  genesis := 0
  prev := fun _ => 0
  getblock := fun hash =>
    ⟨hash, 0, "", "", 0, if hash = 1 then [101, 201, 202] else [hash + 100]⟩
  hash_getblock := fun _ => rfl
  tx := fun txid =>
    if txid = 201 then some ⟨[⟨false, 100, 0⟩], [⟨0, none, 50, []⟩]⟩
    else if txid = 202 then some ⟨[⟨false, 201, 0⟩], [⟨0, none, 50, ['6', 'a']⟩]⟩
    else some ⟨[⟨true, 0, 0⟩], [⟨0, none, 50, []⟩]⟩
  decodeburn := fun _ => none

/-- The tables with block 0. -/
def belowSpending : Tables :=
  ⟨[⟨0, 0, 0, "", "", 0, 1⟩], [⟨100, 0, 0, 0, true⟩], [⟨100, 0, none, 50, none⟩], []⟩

theorem unwind_restores_spending :
  (indexBlock spendingData (blockTimes spendingData) belowSpending (1, 1)).rewindBlock 1 = belowSpending
    ∧ ([(1, 1)].foldl (indexBlock spendingData (blockTimes spendingData)) belowSpending).rewindBlock 1 = belowSpending
  := by
  have hunwindable : Unwindable spendingData belowSpending (1, 1) := by
    refine ⟨⟨?_, ?_, ?_⟩, ?_, ?_, ?_⟩
    · decide
    · intro r hr
      obtain rfl := List.mem_singleton.mp hr
      exact ⟨by decide, fun txid _ => (Option.some_ne_none txid).symm⟩
    · decide
    · intro r hr _
      obtain rfl := List.mem_singleton.mp hr
      rfl
    · decide
    · decide
  obtain ⟨hone, hmany⟩ := unwind_restores spendingData (blockTimes spendingData)
  exact ⟨hone _ _ hunwindable, hmany [(1, 1)] _ ⟨hunwindable, trivial⟩⟩

/-- The row of another block at the height is lost. -/
theorem unwind_loses :
  ¬∀ (data : NodeData) (times : uint256 → uint256 → Option ℤ) (tables : Tables) (hash : uint256) (height : ℕ),
    NewTxs tables (data.getblock hash).tx → SpendsUnspent data tables (data.getblock hash).tx →
    (indexBlock data times tables (hash, height)).rewindBlock height = tables
  := by
  intro hall
  have hlost := hall spendingData (blockTimes spendingData) ⟨[⟨1, 7, 0, "", "", 0, 1⟩], [], [], []⟩ 2 1
    ⟨by decide, by decide, by decide⟩ (fun r hr => absurd hr List.not_mem_nil)
  have hblocks := congrArg (fun tables : Tables => tables.blocks.length) hlost
  revert hblocks
  decide

end CorgiCoin.Explorer
