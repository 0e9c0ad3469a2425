import Mathlib.Data.List.Induction
import CorgiCoin.ExplorerChain

/-!
# The explorer stores whole blocks

Between two blocks the tables are those of an uninterrupted indexing of the stored blocks, as long
as no call about a transaction or a burn fails, the transactions of a block are read while the node
has them in that block, and a block is rewound only while what it holds and spends is in no other
stored block.  Rewinding the topmost block undoes the indexing of it.
-/

namespace CorgiCoin.Explorer

open Transition

variable {data : NodeData}

/-! ## What a block holds and spends -/

/-- The transactions of some blocks. -/
def txidsOf (data : NodeData) (hashes : List uint256) : List uint256 :=
  hashes.flatMap (fun hash => (data.getblock hash).tx)

/-- The outputs that a transaction spends. -/
def Tx.spends (tx : Tx) : List (uint256 × ℕ) :=
  if !tx.isCoinbase then tx.vin.map (fun vin => (vin.txid, vin.vout)) else []

/-- The outputs that some transactions spend. -/
def spendsOf (data : NodeData) (txids : List uint256) : List (uint256 × ℕ) :=
  txids.flatMap (fun txid => ((data.tx txid).map Tx.spends).getD [])

/-- No transaction of a block is in one of some other blocks, and no output that it spends is spent
there. -/
def Separate (data : NodeData) (hashes : List uint256) (hash : uint256) : Prop :=
  (∀ txid ∈ (data.getblock hash).tx, txid ∉ txidsOf data hashes)
    ∧ ∀ out ∈ spendsOf data (data.getblock hash).tx, out ∉ spendsOf data (txidsOf data hashes)

instance (hashes : List uint256) (hash : uint256) : Decidable (Separate data hashes hash) :=
  @instDecidableAnd _ _ (List.decidableBAll _ _) (List.decidableBAll _ _)

/-! ## Rewinding -/

/-- What rewinding some transactions does to the row of an output. -/
def OutputRow.rewind (txids : List uint256) (row : OutputRow) : Option OutputRow :=
  if row.txid ∈ txids then none
  else if ∃ txid ∈ txids, row.spentTxid = some txid then some { row with spentTxid := none }
  else some row

theorem rewind_cons (txid : uint256) (txids : List uint256) (row : OutputRow) :
  row.rewind (txid :: txids) = (row.rewind [txid]).bind (OutputRow.rewind txids)
  := by
  by_cases htxid : row.txid = txid
  · simp [OutputRow.rewind, htxid]
  · by_cases hspent : row.spentTxid = some txid
    · simp [OutputRow.rewind, htxid, hspent]
    · simp [OutputRow.rewind, htxid, hspent]

theorem rewindTx_eq (tables : Tables) (txid : uint256) :
  tables.rewindTx txid
    = { tables with
        outputs := tables.outputs.filterMap (OutputRow.rewind [txid])
        burns := tables.burns.filter (fun r => r.txid ∉ [txid]) }
  := by
  have houtputs : (tables.outputs.map (fun r =>
      if r.spentTxid = some txid then { r with spentTxid := none } else r)).filter
        (fun r => r.txid ≠ txid) = tables.outputs.filterMap (OutputRow.rewind [txid]) := by
    rw [← List.filterMap_eq_filter, List.filterMap_map]
    apply List.filterMap_congr
    intro row _
    by_cases htxid : row.txid = txid
    · by_cases hspent : row.spentTxid = some txid
      · simp [OutputRow.rewind, htxid, hspent, Option.guard]
      · simp [OutputRow.rewind, htxid, hspent, Option.guard]
    · by_cases hspent : row.spentTxid = some txid
      · simp [OutputRow.rewind, htxid, hspent, Option.guard]
      · simp [OutputRow.rewind, htxid, hspent, Option.guard]
  rw [Tables.rewindTx, houtputs]
  simp only [ne_eq, List.mem_singleton]

/-- Rewinding transactions one after the other. -/
theorem foldl_rewindTx (txids : List uint256) (tables : Tables) :
  txids.foldl Tables.rewindTx tables
    = { tables with
        outputs := tables.outputs.filterMap (OutputRow.rewind txids)
        burns := tables.burns.filter (fun r => r.txid ∉ txids) }
  := by
  induction txids generalizing tables with
  | nil =>
    have hrewind : OutputRow.rewind [] = some := by
      funext row
      simp [OutputRow.rewind]
    rw [hrewind, List.filterMap_some]
    simp
  | cons txid txids ih =>
    rw [List.foldl_cons, ih, rewindTx_eq]
    simp only [List.filterMap_filterMap, List.filter_filter]
    congr 1
    · apply List.filterMap_congr
      intro row _
      exact (rewind_cons txid txids row).symm
    · apply List.filter_congr
      intro row _
      simp [Bool.and_comm]

/-- The tables while a block is written: without the rows of its transactions they are the tables
below it.  The transactions in `done` have a row. -/
structure Grown (base : Tables) (height : ℕ) (txids done : List uint256) (tables : Tables) :
    Prop where
  txs : tables.txs.filter (fun r => r.height ≠ height) = base.txs
  own : ∀ r ∈ tables.txs, r.height = height → r.txid ∈ txids
  written : ∀ txid ∈ done, ∃ r ∈ tables.txs, r.txid = txid ∧ r.height = height
  outputs : tables.outputs.filterMap (OutputRow.rewind txids) = base.outputs
  burns : tables.burns.filter (fun r => r.txid ∉ txids) = base.burns

/-- What the tables below a block are free of. -/
structure Free (base : Tables) (height : ℕ) (txids : List uint256) (spends : List (uint256 × ℕ)) :
    Prop where
  txs : ∀ r ∈ base.txs, r.height ≠ height ∧ r.txid ∉ txids
  outputs : ∀ r ∈ base.outputs, r.txid ∉ txids ∧ (∀ txid ∈ txids, r.spentTxid ≠ some txid)
    ∧ ((r.txid, r.n) ∈ spends → r.spentTxid = none)
  burns : ∀ r ∈ base.burns, r.txid ∉ txids

variable {base tables : Tables} {height : ℕ} {txids done : List uint256}
  {spends : List (uint256 × ℕ)}

theorem Free.grown
    (h : Free base height txids spends) (row : BlockRow) :
  Grown base height txids [] (base.replaceBlock row)
  := by
  constructor
  · apply List.filter_eq_self.mpr
    intro r hmem
    exact decide_eq_true (h.txs r hmem).1
  · intro r hmem heq
    exact absurd heq (h.txs r hmem).1
  · intro txid hmem
    cases hmem
  · have hrewind : ∀ r ∈ base.outputs, OutputRow.rewind txids r = some r := by
      intro r hmem
      have hspent : ¬∃ txid ∈ txids, r.spentTxid = some txid := by
        rintro ⟨txid, htxid, heq⟩
        exact (h.outputs r hmem).2.1 txid htxid heq
      rw [OutputRow.rewind, if_neg (h.outputs r hmem).1, if_neg hspent]
    calc base.outputs.filterMap (OutputRow.rewind txids)
      _ = base.outputs.filterMap some := List.filterMap_congr hrewind
      _ = base.outputs := List.filterMap_some
  · apply List.filter_eq_self.mpr
    intro r hmem
    exact decide_eq_true (h.burns r hmem)

theorem Grown.replaceTx
    (h : Grown base height txids done tables) (hfree : Free base height txids spends) (row : TxRow)
    (hrow : row.height = height) (htxid : row.txid ∈ txids) :
  Grown base height txids (done ++ [row.txid]) (tables.replaceTx row)
  := by
  constructor
  · rw [Tables.replaceTx, List.filter_cons, if_neg (by simp [hrow]), List.filter_filter, ← h.txs]
    apply List.filter_congr
    intro r hmem
    -- a row of another height is one of the tables below, with another transaction
    by_cases hheight : r.height = height
    · simp [hheight]
    · have hbase : r ∈ base.txs := by
        rw [← h.txs]
        exact List.mem_filter.mpr ⟨hmem, decide_eq_true hheight⟩
      have hne : r.txid ≠ row.txid := by
        intro heq
        apply (hfree.txs r hbase).2
        rw [heq]
        exact htxid
      simp [hheight, hne]
  · intro r hmem hheight
    rcases List.mem_cons.mp hmem with rfl | hmem
    · exact htxid
    · exact h.own r (List.mem_filter.mp hmem).1 hheight
  · intro txid hmem
    by_cases heq : txid = row.txid
    · exact ⟨row, List.mem_cons_self, heq.symm, hrow⟩
    · have hdone : txid ∈ done := by
        rcases List.mem_append.mp hmem with hmem | hmem
        · exact hmem
        · exact absurd (List.mem_singleton.mp hmem) heq
      obtain ⟨r, hr, hrtxid, hrheight⟩ := h.written txid hdone
      refine ⟨r, List.mem_cons_of_mem _ (List.mem_filter.mpr ⟨hr, ?_⟩), hrtxid, hrheight⟩
      rw [hrtxid]
      exact decide_eq_true heq
  · exact h.outputs
  · exact h.burns

theorem Grown.replaceOutput
    (h : Grown base height txids done tables) {row : OutputRow} (htxid : row.txid ∈ txids) :
  Grown base height txids done (tables.replaceOutput row)
  := by
  refine ⟨h.txs, h.own, h.written, ?_, h.burns⟩
  have hrow : OutputRow.rewind txids row = none := by
    rw [OutputRow.rewind, if_pos htxid]
  rw [Tables.replaceOutput, List.filterMap_cons_none hrow, List.filterMap_filter, ← h.outputs]
  apply List.filterMap_congr
  intro r _
  by_cases heq : r.txid = row.txid ∧ r.n = row.n
  · rw [OutputRow.rewind, heq.1, if_pos htxid]
    simp
  · simp [heq]

theorem Grown.replaceBurn
    (h : Grown base height txids done tables) {row : BurnRow} (htxid : row.txid ∈ txids) :
  Grown base height txids done (tables.replaceBurn row)
  := by
  refine ⟨h.txs, h.own, h.written, h.outputs, ?_⟩
  rw [Tables.replaceBurn, List.filter_cons, if_neg (by simp [htxid]), List.filter_filter, ← h.burns]
  apply List.filter_congr
  intro r _
  by_cases heq : r.txid = row.txid ∧ r.n = row.n
  · simp [heq, htxid]
  · simp [heq]

variable {txid : uint256}

theorem Grown.spend
    (h : Grown base height txids done tables) (hfree : Free base height txids spends)
    (htxid : txid ∈ txids) {vin : Vin} (hvin : (vin.txid, vin.vout) ∈ spends) :
  Grown base height txids done (tables.spend txid vin)
  := by
  refine ⟨h.txs, h.own, h.written, ?_, h.burns⟩
  rw [Tables.spend, List.filterMap_map, ← h.outputs]
  apply List.filterMap_congr
  intro r hmem
  rw [Function.comp_apply]
  split_ifs with heq
  · by_cases hr : r.txid ∈ txids
    · simp only [OutputRow.rewind, if_pos hr]
    · -- the row below is unspent, and spent here it is rewound to the same row
      have hset : OutputRow.rewind txids { r with spentTxid := some txid }
          = some { r with spentTxid := none } := by
        have hex : ∃ t ∈ txids, some txid = some t := ⟨txid, htxid, rfl⟩
        simp only [OutputRow.rewind, if_neg hr, if_pos hex]
      rw [hset, OutputRow.rewind, if_neg hr]
      split_ifs with hspent
      · rfl
      · have hrewind : OutputRow.rewind txids r = some r := by
          rw [OutputRow.rewind, if_neg hr, if_neg hspent]
        have hbase : r ∈ base.outputs := by
          rw [← h.outputs]
          exact List.mem_filterMap.mpr ⟨r, hmem, hrewind⟩
        have hnone := (hfree.outputs r hbase).2.2 (by rw [heq.1, heq.2]; exact hvin)
        rw [← hnone]
  · rfl

theorem grown_writeTx
    (h : Grown base height txids done tables) (hfree : Free base height txids spends) (blk : Block)
    (idx : ℕ) (htxid : txid ∈ txids) {tx : Tx} (hspends : tx.spends ⊆ spends) (time : Option ℤ) :
  Grown base height txids (done ++ [txid]) (writeTx tables height blk idx txid tx time)
  := by
  have hspend : ∀ (vins : List Vin) {tables : Tables},
      (∀ vin ∈ vins, (vin.txid, vin.vout) ∈ spends) →
      Grown base height txids (done ++ [txid]) tables →
      Grown base height txids (done ++ [txid])
        (vins.foldl (fun tables vin => tables.spend txid vin) tables) := by
    intro vins
    induction vins with
    | nil => exact fun _ h => h
    | cons vin vins ih =>
      intro tables hvins h
      obtain ⟨hvin, hvins⟩ := List.forall_mem_cons.mp hvins
      exact ih hvins (h.spend hfree htxid hvin)
  rw [writeTx]
  split_ifs with hcoinbase
  · apply hspend
    · intro vin hvin
      apply hspends
      rw [Tx.spends, if_pos hcoinbase]
      exact List.mem_map.mpr ⟨vin, hvin, rfl⟩
    · exact h.replaceTx hfree ⟨txid, _, _, _, _⟩ rfl htxid
  · exact h.replaceTx hfree ⟨txid, _, _, _, _⟩ rfl htxid

theorem grown_indexOutputs
    (h : Grown base height txids done tables) (htxid : txid ∈ txids) (vouts : List Vout) :
  Grown base height txids done (vouts.foldl (indexOutput data height txid) tables)
  := by
  induction vouts generalizing tables with
  | nil => exact h
  | cons vout vouts ih =>
    apply ih
    rw [indexOutput]
    split_ifs
    · exact (h.replaceOutput htxid).replaceBurn htxid
    · exact h.replaceOutput htxid

theorem grown_indexTx
    (times : uint256 → Option ℤ) (h : Grown base height txids done tables) (hfree : Free base height txids spends) (blk : Block)
    (idx : ℕ) (htxid : txid ∈ txids) (hspends : spendsOf data [txid] ⊆ spends) :
  Grown base height txids (done ++ [txid]) (indexTx data times height blk tables (txid, idx))
  := by
  rw [indexTx]
  cases htx : data.tx txid with
  | none => exact h.replaceTx hfree ⟨txid, _, _, _, _⟩ rfl htxid
  | some tx =>
    apply grown_indexOutputs _ htxid
    apply grown_writeTx h hfree blk idx htxid _ (times txid)
    simpa [spendsOf, htx] using hspends

theorem grown_indexTxs
    (times : uint256 → Option ℤ) (h : Grown base height txids done tables) (hfree : Free base height txids spends) (blk : Block)
    (idx : ℕ) {rest : List uint256} (hrest : rest ⊆ txids) (hspends : spendsOf data rest ⊆ spends) :
  Grown base height txids (done ++ rest) ((rest.zipIdx idx).foldl (indexTx data times height blk) tables)
  := by
  induction rest generalizing tables done idx with
  | nil =>
    rw [List.append_nil]
    exact h
  | cons txid rest ih =>
    obtain ⟨htxid, hrest⟩ := List.cons_subset.mp hrest
    have hone : spendsOf data [txid] ⊆ spends := by
      intro out hout
      apply hspends
      simpa [spendsOf] using Or.inl (by simpa [spendsOf] using hout)
    have hmore : spendsOf data rest ⊆ spends := by
      intro out hout
      apply hspends
      simpa [spendsOf] using Or.inr (by simpa [spendsOf] using hout)
    rw [List.zipIdx_cons, List.foldl_cons, List.append_cons]
    exact ih (grown_indexTx times h hfree blk idx htxid hone) (idx + 1) hrest hmore

variable {hash : uint256}

/-- Rewinding the topmost block undoes its indexing. -/
theorem rewindBlock_indexBlock
    {times : uint256 → uint256 → Option ℤ} (hfree : Free base height (data.getblock hash).tx
      (spendsOf data (data.getblock hash).tx))
    (hblocks : ((indexBlock data times base (hash, height)).rewindBlock height).blocks = base.blocks) :
  (indexBlock data times base (hash, height)).rewindBlock height = base
  := by
  have hgrown : Grown base height (data.getblock hash).tx (data.getblock hash).tx
      (indexBlock data times base (hash, height)) :=
    grown_indexTxs (times hash) (hfree.grown (blockRow height (data.getblock hash))) hfree
      (data.getblock hash) 0
      (List.Subset.refl _) (List.Subset.refl _)
  -- the rows at the height are those of the transactions of the block
  have hmem : ∀ txid, txid ∈ ((indexBlock data times base (hash, height)).txs.filter
      (fun r => r.height = height)).map (·.txid) ↔ txid ∈ (data.getblock hash).tx := by
    intro txid
    constructor
    · intro hmem
      obtain ⟨r, hr, rfl⟩ := List.mem_map.mp hmem
      obtain ⟨hr, hheight⟩ := List.mem_filter.mp hr
      exact hgrown.own r hr (of_decide_eq_true hheight)
    · intro hmem
      obtain ⟨r, hr, htxid, hheight⟩ := hgrown.written txid hmem
      exact List.mem_map.mpr ⟨r, List.mem_filter.mpr ⟨hr, decide_eq_true hheight⟩, htxid⟩
  have hrewind : ∀ r, OutputRow.rewind (((indexBlock data times base (hash, height)).txs.filter
      (fun r => r.height = height)).map (·.txid)) r
        = OutputRow.rewind (data.getblock hash).tx r := by
    intro r
    simp only [OutputRow.rewind, hmem]
  have hburns : (indexBlock data times base (hash, height)).burns.filter (fun r =>
      r.txid ∉ ((indexBlock data times base (hash, height)).txs.filter
        (fun r => r.height = height)).map (·.txid)) = base.burns := by
    rw [← hgrown.burns]
    apply List.filter_congr
    intro r _
    simp only [hmem]
  have houtputs : (indexBlock data times base (hash, height)).outputs.filterMap
      (OutputRow.rewind (((indexBlock data times base (hash, height)).txs.filter
        (fun r => r.height = height)).map (·.txid))) = base.outputs := by
    rw [← hgrown.outputs]
    exact List.filterMap_congr (fun r _ => hrewind r)
  rw [Tables.rewindBlock, foldl_rewindTx] at hblocks ⊢
  simp only [hburns, houtputs, hgrown.txs] at hblocks ⊢
  rw [hblocks]

/-! ## What an indexing stores -/

/-- The rows of the tables are about some transactions, at heights below some height, and the spends
among some outputs. -/
structure Within (height : ℕ) (txids : List uint256) (spends : List (uint256 × ℕ))
    (tables : Tables) : Prop where
  txs : ∀ r ∈ tables.txs, r.height < height ∧ r.txid ∈ txids
  outputs : ∀ r ∈ tables.outputs, r.txid ∈ txids
    ∧ ∀ txid, r.spentTxid = some txid → txid ∈ txids ∧ (r.txid, r.n) ∈ spends
  burns : ∀ r ∈ tables.burns, r.txid ∈ txids

theorem Within.mono
    {height' : ℕ} {txids' : List uint256} {spends' : List (uint256 × ℕ)}
    (h : Within height txids spends tables) (hheight : height ≤ height') (htxids : txids ⊆ txids')
    (hspends : spends ⊆ spends') :
  Within height' txids' spends' tables
  := by
  constructor
  · intro r hr
    obtain ⟨hlt, htxid⟩ := h.txs r hr
    exact ⟨by omega, htxids htxid⟩
  · intro r hr
    obtain ⟨htxid, hspent⟩ := h.outputs r hr
    exact ⟨htxids htxid, fun t ht => ⟨htxids (hspent t ht).1, hspends (hspent t ht).2⟩⟩
  · exact fun r hr => htxids (h.burns r hr)

theorem within_indexTx
    (times : uint256 → Option ℤ) (h : Within (height + 1) txids spends tables) (blk : Block) (idx : ℕ)
    (htxid : txid ∈ txids) (hspends : spendsOf data [txid] ⊆ spends) :
  Within (height + 1) txids spends (indexTx data times height blk tables (txid, idx))
  := by
  have htx : ∀ (time : ℤ) (fCoinbase : Bool),
      Within (height + 1) txids spends (tables.replaceTx ⟨txid, height, idx, time, fCoinbase⟩) := by
    intro time fCoinbase
    refine ⟨?_, h.outputs, h.burns⟩
    intro r hr
    rcases List.mem_cons.mp hr with rfl | hr
    · exact ⟨Nat.lt_succ_self height, htxid⟩
    · exact h.txs r (List.mem_filter.mp hr).1
  have hspend : ∀ (vins : List Vin) {tables : Tables},
      (∀ vin ∈ vins, (vin.txid, vin.vout) ∈ spends) → Within (height + 1) txids spends tables →
      Within (height + 1) txids spends
        (vins.foldl (fun tables vin => tables.spend txid vin) tables) := by
    intro vins
    induction vins with
    | nil => exact fun _ h => h
    | cons vin vins ih =>
      intro tables hvins h
      obtain ⟨hvin, hvins⟩ := List.forall_mem_cons.mp hvins
      apply ih hvins
      refine ⟨h.txs, ?_, h.burns⟩
      intro r hr
      obtain ⟨r', hr', rfl⟩ := List.mem_map.mp hr
      split_ifs with heq
      · refine ⟨(h.outputs r' hr').1, fun t ht => ?_⟩
        cases ht
        refine ⟨htxid, ?_⟩
        simp only [heq.1, heq.2]
        exact hvin
      · exact h.outputs r' hr'
  have houtputs : ∀ (vouts : List Vout) {tables : Tables}, Within (height + 1) txids spends tables →
      Within (height + 1) txids spends (vouts.foldl (indexOutput data height txid) tables) := by
    intro vouts
    induction vouts with
    | nil => exact fun h => h
    | cons vout vouts ih =>
      intro tables h
      apply ih
      have houtput : Within (height + 1) txids spends (writeOutput tables txid vout) := by
        refine ⟨h.txs, ?_, h.burns⟩
        intro r hr
        rcases List.mem_cons.mp hr with rfl | hr
        · exact ⟨htxid, nofun⟩
        · exact h.outputs r (List.mem_filter.mp hr).1
      rw [indexOutput]
      split_ifs
      · refine ⟨houtput.txs, houtput.outputs, ?_⟩
        intro r hr
        rcases List.mem_cons.mp hr with rfl | hr
        · exact htxid
        · exact houtput.burns r (List.mem_filter.mp hr).1
      · exact houtput
  rw [indexTx]
  cases hget : data.tx txid with
  | none => exact htx _ _
  | some tx =>
    apply houtputs
    rw [writeTx]
    split_ifs with hcoinbase
    · apply hspend _ _ (htx _ _)
      intro vin hvin
      apply hspends
      simp only [spendsOf, List.flatMap_cons, List.flatMap_nil, List.append_nil, hget,
        Option.map_some, Option.getD_some, Tx.spends, if_pos hcoinbase]
      exact List.mem_map.mpr ⟨vin, hvin, rfl⟩
    · exact htx _ _

theorem spendsOf_subset {txids txids' : List uint256} (h : txids ⊆ txids') :
  spendsOf data txids ⊆ spendsOf data txids'
  := by
  intro out hout
  obtain ⟨txid, hmem, hout⟩ := List.mem_flatMap.mp hout
  exact List.mem_flatMap.mpr ⟨txid, h hmem, hout⟩

theorem within_indexTxs
    (times : uint256 → Option ℤ) (blk : Block) (rest : List uint256) (idx : ℕ) (hrest : rest ⊆ txids)
    (h : Within (height + 1) txids (spendsOf data txids) tables) :
  Within (height + 1) txids (spendsOf data txids)
    ((rest.zipIdx idx).foldl (indexTx data times height blk) tables)
  := by
  induction rest generalizing tables idx with
  | nil => exact h
  | cons txid rest ih =>
    obtain ⟨htxid, hrest⟩ := List.cons_subset.mp hrest
    rw [List.zipIdx_cons, List.foldl_cons]
    apply ih (idx + 1) hrest
    apply within_indexTx times h blk idx htxid
    apply spendsOf_subset
    exact List.cons_subset.mpr ⟨htxid, List.nil_subset _⟩

theorem indexAll_append (hashes : List uint256) (hash : uint256) :
  indexAll data (hashes ++ [hash])
    = indexBlock data (blockTimes data) (indexAll data hashes) (hash, hashes.length)
  := by
  rw [indexAll, List.zipIdx_append, List.foldl_append, indexAll]
  simp

theorem within_indexAll (data : NodeData) (hashes : List uint256) :
  Within hashes.length (txidsOf data hashes) (spendsOf data (txidsOf data hashes))
    (indexAll data hashes)
  := by
  induction hashes using List.reverseRecOn with
  | nil => exact ⟨nofun, nofun, nofun⟩
  | append_singleton hashes hash ih =>
    have htxids : txidsOf data (hashes ++ [hash])
        = txidsOf data hashes ++ (data.getblock hash).tx := by
      simp [txidsOf]
    have hbelow : txidsOf data hashes ⊆ txidsOf data (hashes ++ [hash]) := by
      rw [htxids]
      exact List.subset_append_left _ _
    rw [indexAll_append, indexBlock, List.length_append, List.length_singleton]
    apply within_indexTxs
    · rw [htxids]
      exact List.subset_append_right _ _
    · have hmono := ih.mono (Nat.le_succ hashes.length) hbelow (spendsOf_subset hbelow)
      exact ⟨hmono.txs, hmono.outputs, hmono.burns⟩

theorem blocks_indexBlock
    (times : uint256 → uint256 → Option ℤ) (tables : Tables) (hash : uint256) (height : ℕ) :
  (indexBlock data times tables (hash, height)).blocks
    = (tables.replaceBlock (blockRow height (data.getblock hash))).blocks
  := by
  have houtputs : ∀ (txid : uint256) (vouts : List Vout) (tables : Tables),
      (vouts.foldl (indexOutput data height txid) tables).blocks = tables.blocks := by
    intro txid vouts
    induction vouts with
    | nil => exact fun _ => rfl
    | cons vout vouts ih =>
      intro tables
      rw [List.foldl_cons, ih, indexOutput]
      split_ifs
      · rfl
      · rfl
  have htx : ∀ (tables : Tables) (tx : uint256 × ℕ),
      (indexTx data (times hash) height (data.getblock hash) tables tx).blocks = tables.blocks := by
    intro tables tx
    rw [indexTx]
    split
    · rfl
    · rw [houtputs, blocks_writeTx]
  have htxs : ∀ (txs : List (uint256 × ℕ)) (tables : Tables),
      (txs.foldl (indexTx data (times hash) height (data.getblock hash)) tables).blocks = tables.blocks := by
    intro txs
    induction txs with
    | nil => exact fun _ => rfl
    | cons tx txs ih =>
      intro tables
      rw [List.foldl_cons, ih, htx]
  exact htxs _ _

variable {hashes : List uint256}

/-- The table of blocks after an indexing of blocks with different hashes. -/
theorem blocks_indexAll (data : NodeData) (hnodup : hashes.Nodup) :
  Ordered (indexAll data hashes).blocks ∧ stored (indexAll data hashes).blocks = hashes
  := by
  induction hashes using List.reverseRecOn with
  | nil => exact ⟨rfl, rfl⟩
  | append_singleton hashes hash ih =>
    obtain ⟨hordered, hstored⟩ := ih (List.Nodup.of_append_left hnodup)
    have hlength : (indexAll data hashes).blocks.length = hashes.length := by
      rw [← length_stored, hstored]
    have hnew : hash ∉ hashes := by
      intro hmem
      exact (List.nodup_append.mp hnodup).2.2 hash hmem hash (List.mem_singleton_self hash) rfl
    have hhash : (blockRow hashes.length (data.getblock hash)).hash = hash := data.hash_getblock hash
    have hreplace := hordered.replaceBlock (indexAll data hashes)
      (blockRow hashes.length (data.getblock hash)) hlength.symm (by
        rw [hhash, hstored]
        exact hnew)
    rw [indexAll_append, blocks_indexBlock, hreplace, ordered_cons, stored_cons, hstored, hhash]
    exact ⟨⟨hlength.symm, hordered⟩, rfl⟩

/-- Rewinding the topmost block of an indexing leaves the indexing of the blocks below it. -/
theorem rewindBlock_indexAll
    (hnodup : (hashes ++ [hash]).Nodup) (hseparate : Separate data hashes hash) :
  (indexAll data (hashes ++ [hash])).rewindBlock hashes.length = indexAll data hashes
  := by
  have hwithin := within_indexAll data hashes
  have hfree : Free (indexAll data hashes) hashes.length (data.getblock hash).tx
      (spendsOf data (data.getblock hash).tx) := by
    constructor
    · intro r hr
      obtain ⟨hlt, htxid⟩ := hwithin.txs r hr
      exact ⟨by omega, fun hmem => hseparate.1 _ hmem htxid⟩
    · intro r hr
      obtain ⟨htxid, hspent⟩ := hwithin.outputs r hr
      refine ⟨fun hmem => hseparate.1 _ hmem htxid, ?_, ?_⟩
      · intro txid hmem heq
        exact hseparate.1 txid hmem (hspent txid heq).1
      · intro hout
        cases heq : r.spentTxid with
        | none => rfl
        | some txid => exact absurd (hspent txid heq).2 (hseparate.2 _ hout)
    · exact fun r hr hmem => hseparate.1 _ hmem (hwithin.burns r hr)
  obtain ⟨hordered, hstored⟩ := blocks_indexAll data (List.Nodup.of_append_left hnodup)
  have hlength : (indexAll data hashes).blocks.length = hashes.length := by
    rw [← length_stored, hstored]
  have hordered' := (blocks_indexAll data hnodup).1
  have hblocks : (indexAll data (hashes ++ [hash])).blocks
      = blockRow hashes.length (data.getblock hash) :: (indexAll data hashes).blocks := by
    rw [indexAll_append, blocks_indexBlock]
    apply hordered.replaceBlock _ _ hlength.symm
    rw [hstored]
    intro hmem
    have heq : (blockRow hashes.length (data.getblock hash)).hash = hash := data.hash_getblock hash
    rw [heq] at hmem
    exact (List.nodup_append.mp hnodup).2.2 hash hmem hash (List.mem_singleton_self hash) rfl
  have hrewound := hordered'
  rw [hblocks] at hrewound
  have hbelow := hrewound.rewindBlock (indexAll data (hashes ++ [hash])) hblocks
  rw [indexAll_append] at hbelow ⊢
  exact rewindBlock_indexBlock hfree hbelow

/-! ## Blocks at their heights -/

/-- A block has one height, whatever the chain. -/
theorem Chain.height_unique
    (chain chain' : Chain data) {i j : ℕ} (hi : chain.hashes[i]? = some hash)
    (hj : chain'.hashes[j]? = some hash) :
  i = j
  := by
  have hgenesis : ∀ (chain : Chain data) (i : ℕ), chain.hashes[i]? = some data.genesis → i = 0 := by
    intro chain i hi
    have hzero : chain.hashes[0]? = some data.genesis := by
      rw [← List.head?_eq_getElem?, chain.head]
    obtain ⟨hilt, hget⟩ := List.getElem?_eq_some_iff.mp hi
    obtain ⟨hlt, hget'⟩ := List.getElem?_eq_some_iff.mp hzero
    exact (List.Nodup.getElem_inj_iff chain.nodup).mp (hget.trans hget'.symm)
  have hhead : ∀ (chain : Chain data) {hash : uint256}, chain.hashes[0]? = some hash →
      hash = data.genesis := by
    intro chain hash h
    rw [← List.head?_eq_getElem?, chain.head] at h
    exact (Option.some.inj h).symm
  induction i generalizing j hash with
  | zero =>
    rw [hhead chain hi] at hj
    exact (hgenesis chain' j hj).symm
  | succ i ih =>
    cases j with
    | zero =>
      rw [hhead chain' hj] at hi
      exact hgenesis chain (i + 1) hi
    | succ j =>
      -- the blocks before it are the same
      obtain ⟨hilt, _⟩ := List.getElem?_eq_some_iff.mp hi
      obtain ⟨hjlt, _⟩ := List.getElem?_eq_some_iff.mp hj
      have ha := List.getElem?_eq_getElem (Nat.lt_of_succ_lt hilt)
      have hb := List.getElem?_eq_getElem (Nat.lt_of_succ_lt hjlt)
      have hprev := chain.linked i _ hash ha hi
      have hprev' := chain'.linked j _ hash hb hj
      rw [← hprev] at ha
      rw [← hprev'] at hb
      rw [ih ha hb]

/-- Each block has been on a main chain of the node, at its height. -/
def Placed (data : NodeData) (hashes : List uint256) : Prop :=
  ∀ (i : ℕ) (hash : uint256), hashes[i]? = some hash → ∃ chain : Chain data, chain.hashes[i]? = some hash

theorem Placed.nodup (h : Placed data hashes) :
  hashes.Nodup
  := by
  rw [List.nodup_iff_getElem?_ne_getElem?]
  intro i j hij hj heq
  have hget := List.getElem?_eq_getElem hj
  obtain ⟨chain, hchain⟩ := h j _ hget
  obtain ⟨chain', hchain'⟩ := h i _ (heq.trans hget)
  have hsame := chain'.height_unique chain hchain' hchain
  omega

theorem Placed.append
    (h : Placed data hashes) (chain : Chain data) (hhash : chain.hashes[hashes.length]? = some hash) :
  Placed data (hashes ++ [hash])
  := by
  intro i x hx
  by_cases hi : i < hashes.length
  · rw [List.getElem?_append_left hi] at hx
    exact h i x hx
  · have hlt := (List.getElem?_eq_some_iff.mp hx).1
    rw [List.length_append, List.length_singleton] at hlt
    have hlast : i = hashes.length := by omega
    rw [hlast, List.getElem?_append_right (le_refl _), Nat.sub_self, List.getElem?_cons_zero] at hx
    cases hx
    rw [hlast]
    exact ⟨chain, hhash⟩

theorem Placed.of_append (h : Placed data (hashes ++ [hash])) :
  Placed data hashes
  := by
  intro i x hx
  apply h i x
  rw [List.getElem?_append_left (List.getElem?_eq_some_iff.mp hx).1]
  exact hx

/-! ## A pass -/

/-- What a call of `getrawtransaction` finds. -/
def found (chain : Chain data) (mempool : List uint256) (answer : Rpc) (txid : uint256) :
    Option (Tx × Option ℤ) :=
  if answer = .result then chain.getrawtransaction mempool txid else none

/-- The condition on the call that a pass makes next.  A block is rewound only while what it holds
and spends is in no other stored block; a transaction is not found only if it is the coinbase of the
genesis block, and the `time` it is found with, if any, is that of the block; a call about a burn
fails only where the node has no answer to it. -/
def Pc.Careful (chain : Chain data) (mempool : List uint256) (blocks : List BlockRow) (answer : Rpc) :
    Pc → Prop
  | .checking _ row =>
    answer = .result → row.height < chain.hashes.length →
      chain.hashes[row.height]? ≠ some row.hash → Separate data (stored blocks.tail) row.hash
  | .reading _ _ blk _ txid _ =>
    answer ≠ .exception ∧ (found chain mempool answer txid = none → data.tx txid = none)
      ∧ ∀ raw ∈ found chain mempool answer txid, raw.2.getD blk.time = blk.time
  | .burning _ _ _ _ _ vout _ _ => answer ≠ .result → data.decodeburn vout.hex = none
  | _ => True

instance (chain : Chain data) (mempool : List uint256) (blocks : List BlockRow) (answer : Rpc) :
    (pc : Pc) → Decidable (pc.Careful chain mempool blocks answer)
  | .idle => isTrue trivial
  | .checking _ row =>
    inferInstanceAs (Decidable (answer = .result → row.height < chain.hashes.length →
      chain.hashes[row.height]? ≠ some row.hash → Separate data (stored blocks.tail) row.hash))
  | .hashing .. => isTrue trivial
  | .fetching .. => isTrue trivial
  | .reading _ _ blk _ txid _ =>
    inferInstanceAs (Decidable (answer ≠ .exception
      ∧ (found chain mempool answer txid = none → data.tx txid = none)
      ∧ ∀ raw ∈ found chain mempool answer txid, raw.2.getD blk.time = blk.time))
  | .burning _ _ _ _ _ vout _ _ =>
    inferInstanceAs (Decidable (answer ≠ .result → data.decodeburn vout.hex = none))

def Careful (s : State data) : Event data → Prop
  | .node _ => True
  | .mempool _ => True
  | .rpc answer => s.pc.Careful s.chain s.mempool s.tables.blocks answer

instance (s : State data) : (event : Event data) → Decidable (Careful s event)
  | .node _ => isTrue trivial
  | .mempool _ => isTrue trivial
  | .rpc answer => inferInstanceAs (Decidable (s.pc.Careful s.chain s.mempool s.tables.blocks answer))

/-- What holds where a pass is: once the block under way is written, the tables are those of an
indexing of some blocks. -/
def Whole (data : NodeData) (hashes : List uint256) (tables : Tables) : Pc → Prop
  | .idle => tables = indexAll data hashes
  | .checking _ row => tables = indexAll data hashes ∧ tables.blocks.head? = some row
  | .hashing _ h => tables = indexAll data hashes ∧ h = hashes.length
  | .fetching _ h bhash =>
    tables = indexAll data hashes ∧ h = hashes.length ∧ Placed data (hashes ++ [bhash])
  | .reading _ h blk idx txid txids =>
    ((txid :: txids).zipIdx idx).foldl (indexTx data (fun _ => some blk.time) h blk) tables = indexAll data hashes
      ∧ h + 1 = hashes.length
  | .burning _ h blk idx txid vout vouts txids =>
    (txids.zipIdx (idx + 1)).foldl (indexTx data (fun _ => some blk.time) h blk)
        (vouts.foldl (indexOutput data h txid)
          (writeBurn tables h txid vout (data.decodeburn vout.hex))) = indexAll data hashes
      ∧ h + 1 = hashes.length

variable {tip : ℕ}

theorem whole_indexNext
    (htables : tables = indexAll data hashes) {h : ℕ} (hh : h = hashes.length) :
  Whole data hashes tables (indexNext tip h)
  := by
  rw [indexNext]
  split_ifs
  · exact ⟨htables, hh⟩
  · exact htables

variable {idx : ℕ} {blk : Block}

theorem whole_readNext
    {h : ℕ} {txids : List uint256}
    (hrest : (txids.zipIdx idx).foldl (indexTx data (fun _ => some blk.time) h blk) tables = indexAll data hashes)
    (hh : h + 1 = hashes.length) :
  Whole data hashes tables (readNext tip h blk idx txids)
  := by
  cases txids with
  | nil => exact whole_indexNext hrest hh
  | cons txid txids => exact ⟨hrest, hh⟩

/-- The loop over the outputs, up to the next burn. -/
theorem foldl_indexOutput (h : ℕ) (txid : uint256) (tables : Tables) (vouts : List Vout) :
  vouts.foldl (indexOutput data h txid) tables
    = match writeOutputs txid tables vouts with
      | (tables', none) => tables'
      | (tables', some (vout, vouts')) =>
        vouts'.foldl (indexOutput data h txid)
          (writeBurn tables' h txid vout (data.decodeburn vout.hex))
  := by
  induction vouts generalizing tables with
  | nil => rfl
  | cons vout vouts ih =>
    rw [List.foldl_cons, indexOutput, writeOutputs]
    split_ifs with hburn
    · rfl
    · exact ih (writeOutput tables txid vout)

theorem whole_outputsNext
    {h : ℕ} {txids : List uint256} {vouts : List Vout}
    (hrest : (txids.zipIdx (idx + 1)).foldl (indexTx data (fun _ => some blk.time) h blk)
      (vouts.foldl (indexOutput data h txid) tables) = indexAll data hashes)
    (hh : h + 1 = hashes.length) :
  Whole data hashes (outputsNext tip h blk idx txid txids tables vouts).1
    (outputsNext tip h blk idx txid txids tables vouts).2
  := by
  rw [foldl_indexOutput] at hrest
  rw [outputsNext]
  rcases hwrite : writeOutputs txid tables vouts with ⟨tables', _ | ⟨vout, vouts'⟩⟩
  · rw [hwrite] at hrest
    exact whole_readNext hrest hh
  · rw [hwrite] at hrest
    exact ⟨hrest, hh⟩

theorem whole_checkNext
    (hplaced : Placed data hashes) (htables : tables = indexAll data hashes) (tip : ℕ) :
  Whole data hashes tables (checkNext tip tables)
  := by
  obtain ⟨hordered, hstored⟩ := blocks_indexAll data hplaced.nodup
  rw [← htables] at hordered hstored
  rw [checkNext, hordered.top_eq]
  cases hblocks : tables.blocks with
  | nil =>
    apply whole_indexNext htables
    rw [← hstored, hblocks]
    rfl
  | cons row blocks =>
    refine ⟨htables, ?_⟩
    rw [hblocks]
    rfl

/-- The invariant of the explorer: the tables are, or are about to be, those of an indexing. -/
def Indexed (data : NodeData) (tables : Tables) (pc : Pc) : Prop :=
  ∃ hashes, Placed data hashes ∧ Whole data hashes tables pc

variable {chain : Chain data} {mempool : List uint256} {answer : Rpc}

theorem indexed_checking
    (hplaced : Placed data hashes)
    {row : BlockRow} (hwhole : Whole data hashes tables (.checking tip row))
    (hok : (Pc.checking tip row).Careful chain mempool tables.blocks answer) :
  Indexed data (perform chain mempool tables answer (.checking tip row)).1
    (perform chain mempool tables answer (.checking tip row)).2
  := by
  obtain ⟨htables, hhead⟩ := hwhole
  obtain ⟨hordered, hstored⟩ := blocks_indexAll data hplaced.nodup
  rw [← htables] at hordered hstored
  obtain ⟨blocks, hblocks⟩ : ∃ blocks, tables.blocks = row :: blocks := List.head?_eq_some_iff.mp hhead
  rw [hblocks] at hordered hstored
  rw [stored_cons] at hstored
  have hheight : row.height = (stored blocks).length := by
    rw [hordered.height_head, length_stored]
  simp only [perform]
  split_ifs with hanswer
  · exact ⟨hashes, hplaced, htables⟩
  · cases hhash : chain.hashes[row.height]? with
    | none => exact ⟨hashes, hplaced, htables⟩
    | some hash =>
      by_cases hne : hash = row.hash
      · simp only [hne, ne_eq, not_true_eq_false, if_false]
        refine ⟨hashes, hplaced, whole_indexNext htables ?_⟩
        rw [← hstored, List.length_append, List.length_singleton, hheight]
      · -- the block is rewound
        simp only [ne_eq, hne, not_false_eq_true, if_true]
        have hseparate := hok (not_not.mp hanswer) (List.getElem?_eq_some_iff.mp hhash).1 (by
          rw [hhash]
          exact fun heq => hne (Option.some.inj heq))
        rw [hblocks, List.tail_cons] at hseparate
        rw [← hstored] at hplaced htables
        have hrewound := rewindBlock_indexAll hplaced.nodup hseparate
        rw [← htables, ← hheight] at hrewound
        exact ⟨stored blocks, hplaced.of_append,
          whole_checkNext hplaced.of_append hrewound tip⟩

theorem indexed_fetching
    (hplaced : Placed data hashes) {h : ℕ}
    {bhash : uint256} (hwhole : Whole data hashes tables (.fetching tip h bhash)) :
  Indexed data (perform chain mempool tables answer (.fetching tip h bhash)).1
    (perform chain mempool tables answer (.fetching tip h bhash)).2
  := by
  obtain ⟨htables, hh, hplaced'⟩ := hwhole
  simp only [perform]
  split_ifs with hanswer
  · exact ⟨hashes, hplaced, htables⟩
  · refine ⟨hashes ++ [bhash], hplaced', ?_⟩
    apply whole_readNext
    · rw [indexAll_append, indexBlock, ← htables, ← hh]
      rfl
    · rw [List.length_append, List.length_singleton, hh]

/-- The node answers with the transaction that has the hash. -/
theorem tx_of_found
    {raw : Tx × Option ℤ} (h : found chain mempool answer txid = some raw) :
  data.tx txid = some raw.1
  := by
  rw [found, Chain.getrawtransaction] at h
  split_ifs at h
  · obtain ⟨tx, htx, rfl⟩ := Option.map_eq_some_iff.mp h
    exact htx
  · obtain ⟨hash, -, h⟩ := Option.bind_eq_some_iff.mp h
    obtain ⟨tx, htx, rfl⟩ := Option.map_eq_some_iff.mp h
    exact htx

theorem writeTx_of_time
    {time : Option ℤ} (h : time.getD blk.time = blk.time) (tables : Tables)
    (height idx : ℕ) (txid : uint256) (tx : Tx) :
  writeTx tables height blk idx txid tx time = writeTx tables height blk idx txid tx (some blk.time)
  := by
  rw [writeTx, writeTx, h, Option.getD_some]

theorem indexed_reading
    (hplaced : Placed data hashes) {h : ℕ} {txids : List uint256}
    (hwhole : Whole data hashes tables (.reading tip h blk idx txid txids))
    (hok : (Pc.reading tip h blk idx txid txids).Careful chain mempool tables.blocks answer) :
  Indexed data (perform chain mempool tables answer (.reading tip h blk idx txid txids)).1
    (perform chain mempool tables answer (.reading tip h blk idx txid txids)).2
  := by
  obtain ⟨hexception, hnone, htime⟩ := hok
  obtain ⟨hrest, hh⟩ := hwhole
  rw [List.zipIdx_cons, List.foldl_cons] at hrest
  refine ⟨hashes, hplaced, ?_⟩
  simp only [perform, if_neg hexception]
  rw [← found]
  cases hfound : found chain mempool answer txid with
  | none =>
    simp only [indexTx, hnone hfound] at hrest
    exact whole_readNext hrest hh
  | some raw =>
    have htx := tx_of_found hfound
    simp only [indexTx, htx] at hrest
    rw [← writeTx_of_time (htime raw hfound)] at hrest
    exact whole_outputsNext hrest hh

theorem indexed_burning
    (hplaced : Placed data hashes) {h : ℕ} {vout : Vout} {vouts : List Vout} {txids : List uint256}
    (hwhole : Whole data hashes tables (.burning tip h blk idx txid vout vouts txids))
    (hok : (Pc.burning tip h blk idx txid vout vouts txids).Careful chain mempool tables.blocks answer) :
  Indexed data (perform chain mempool tables answer (.burning tip h blk idx txid vout vouts txids)).1
    (perform chain mempool tables answer (.burning tip h blk idx txid vout vouts txids)).2
  := by
  obtain ⟨hrest, hh⟩ := hwhole
  have hanswer : (if answer = .result then data.decodeburn vout.hex else none)
      = data.decodeburn vout.hex := by
    split_ifs with hanswer
    · rfl
    · rw [hok hanswer]
  refine ⟨hashes, hplaced, ?_⟩
  simp only [perform, hanswer]
  exact whole_outputsNext hrest hh

/-- What a call keeps, whatever it answers. -/
theorem indexed_perform
    {pc : Pc} (h : Indexed data tables pc) (hok : pc.Careful chain mempool tables.blocks answer) :
  Indexed data (perform chain mempool tables answer pc).1 (perform chain mempool tables answer pc).2
  := by
  obtain ⟨hashes, hplaced, hwhole⟩ := h
  cases pc with
  | idle =>
    simp only [perform]
    split_ifs
    · exact ⟨hashes, hplaced, hwhole⟩
    · exact ⟨hashes, hplaced, whole_checkNext hplaced hwhole chain.height⟩
  | checking tip row => exact indexed_checking hplaced hwhole hok
  | hashing tip h =>
    obtain ⟨htables, hh⟩ := hwhole
    simp only [perform]
    split_ifs
    · exact ⟨hashes, hplaced, htables⟩
    · cases hhash : chain.hashes[h]? with
      | none => exact ⟨hashes, hplaced, htables⟩
      | some bhash =>
        rw [hh] at hhash
        exact ⟨hashes, hplaced, htables, hh, hplaced.append chain hhash⟩
  | fetching tip h bhash => exact indexed_fetching hplaced hwhole
  | reading tip h blk idx txid txids => exact indexed_reading hplaced hwhole hok
  | burning tip h blk idx txid vout vouts txids => exact indexed_burning hplaced hwhole hok

/-! ## Every run -/

/-- The invariant of a run. -/
structure Invariant (s : State data) : Prop where
  indexed : Indexed data s.tables s.pc
  ended : s.fEnded = true → s.pc = .idle

theorem invariant_step {s : State data} (h : Invariant s) {event : Event data}
    (hok : Careful s event) :
  Invariant (step s event)
  := by
  cases event with
  | node chain => exact ⟨h.indexed, nofun⟩
  | mempool txids => exact ⟨h.indexed, nofun⟩
  | rpc answer => exact ⟨indexed_perform h.indexed hok, fun hended => of_decide_eq_true hended⟩

/-- In every run whose calls meet the condition, a pass that ends leaves the tables of an
uninterrupted indexing of the blocks in the table of blocks. -/
theorem tables_eq_indexAll
    (chain : Chain data) (events : List (Event data))
    (hcareful : Along step Careful (init chain) events)
    (hended : (run step (init chain) events).fEnded = true) :
  (run step (init chain) events).tables
    = indexAll data (stored (run step (init chain) events).tables.blocks)
  := by
  have hstep : ∀ (s : State data) (event : Event data), Careful s event → Invariant s →
      Invariant (step s event) := fun s event hok h => invariant_step h hok
  have hinit : Invariant (init chain) := ⟨⟨[], nofun, rfl⟩, nofun⟩
  have hinv := run_invariant hstep hcareful hinit
  obtain ⟨hashes, hplaced, hwhole⟩ := hinv.indexed
  rw [hinv.ended hended] at hwhole
  have htables : (run step (init chain) events).tables = indexAll data hashes := hwhole
  rw [htables, (blocks_indexAll data hplaced.nodup).2]

/-- A pass that fails at a block, the reorganisation, and a pass that rewinds what was stored. -/
def sampleFailures : List (Event sampleData) :=
  List.replicate 7 (.rpc .result) ++ [.rpc .exception, .node sampleFork]
    ++ List.replicate 12 (.rpc .result)

theorem sampleFailures_whole :
  (run step (init sampleChain) sampleFailures).tables
    = indexAll sampleData (stored (run step (init sampleChain) sampleFailures).tables.blocks)
  := by
  apply tables_eq_indexAll
  · decide
  · decide

/-- The transaction of the block at height one cannot be read in the first pass. -/
def sampleGap : List (Event sampleData) :=
  List.replicate 6 (.rpc .result) ++ [.rpc .exception] ++ List.replicate 5 (.rpc .result)

/-- The second pass has no failure, and the transaction is still missing. -/
theorem sampleGap_not_whole :
  (run step (init sampleChain) sampleGap).fEnded = true
    ∧ (run step (init sampleChain) sampleGap).fFailed = false
    ∧ (run step (init sampleChain) sampleGap).tables
      ≠ indexAll sampleData (stored (run step (init sampleChain) sampleGap).tables.blocks)
  := by
  refine ⟨?_, ?_, ?_⟩
  · decide
  · decide
  · have hstored : stored (run step (init sampleChain) sampleGap).tables.blocks = [0, 1, 2] := by
      decide
    have htxs : (run step (init sampleChain) sampleGap).tables.txs.length = 2 := by decide
    have hall : (indexAll sampleData [0, 1, 2]).txs.length = 3 := by decide
    intro heq
    rw [hstored] at heq
    rw [heq, hall] at htxs
    cases htxs

end CorgiCoin.Explorer
