import Mathlib.Data.List.Nodup
import CorgiCoin.Explorer

/-!
# The explorer follows one chain

A pass that no change of the chain and no failed call interrupts leaves the hashes of the node's
main chain in the table of blocks, as long as no reorganisation disconnects the topmost stored block
while a pass writes on top of it, or leaves the node with a chain shorter than the table.
-/

namespace CorgiCoin.Explorer

open Transition

variable {data : NodeData}

/-- The table holds the hash of the main chain at every height up to the tip. -/
def Synced (s : State data) : Prop :=
  ∀ h hash, s.chain.hashes[h]? = some hash →
    (s.tables.blocks.find? (fun row => row.height = h)).map (·.hash) = some hash

/-- The condition on the call that a pass makes next: a height is asked for only while the block
stored below it is on the main chain, and the topmost stored block is checked only against a chain
that reaches its height. -/
def Pc.Unbroken (chain : Chain data) (blocks : List BlockRow) : Pc → Prop
  | .checking _ row => row.height < chain.hashes.length
  | .hashing _ h =>
    h = 0 ∨ ∃ row ∈ blocks, row.height + 1 = h ∧ chain.hashes[row.height]? = some row.hash
  | _ => True

instance (chain : Chain data) (blocks : List BlockRow) : (pc : Pc) →
    Decidable (pc.Unbroken chain blocks)
  | .idle => isTrue trivial
  | .checking _ row => inferInstanceAs (Decidable (row.height < chain.hashes.length))
  | .hashing _ h =>
    inferInstanceAs (Decidable (h = 0 ∨ ∃ row ∈ blocks, row.height + 1 = h
      ∧ chain.hashes[row.height]? = some row.hash))
  | .fetching .. => isTrue trivial
  | .reading .. => isTrue trivial
  | .burning .. => isTrue trivial

/-- The calls that are answered meet the condition. -/
def Unbroken (s : State data) : Event data → Prop
  | .node _ => True
  | .mempool _ => True
  | .rpc answer => answer = .result → s.pc.Unbroken s.chain s.tables.blocks

instance (s : State data) : (event : Event data) → Decidable (Unbroken s event)
  | .node _ => isTrue trivial
  | .mempool _ => isTrue trivial
  | .rpc answer =>
    inferInstanceAs (Decidable (answer = .result → s.pc.Unbroken s.chain s.tables.blocks))

/-! ## The stored blocks -/

/-- The stored hashes by height. -/
def stored (blocks : List BlockRow) : List uint256 := (blocks.map (·.hash)).reverse

/-- The table holds one block at each height below some height, the topmost first. -/
def Ordered (blocks : List BlockRow) : Prop :=
  blocks.map (·.height) = (List.range blocks.length).reverse

/-- The table holds a chain of blocks, each on top of the one below. -/
structure Stored (data : NodeData) (blocks : List BlockRow) : Prop where
  ordered : Ordered blocks
  linked : ∀ i a b, (stored blocks)[i]? = some a → (stored blocks)[i + 1]? = some b → data.prev b = a

theorem length_stored (blocks : List BlockRow) : (stored blocks).length = blocks.length := by
  rw [stored, List.length_reverse, List.length_map]

theorem stored_nil : Stored data [] := ⟨rfl, fun i a b h => by simp [stored] at h⟩

theorem stored_cons (row : BlockRow) (blocks : List BlockRow) :
  stored (row :: blocks) = stored blocks ++ [row.hash]
  := by
  rw [stored, List.map_cons, List.reverse_cons, stored]

variable {row : BlockRow} {blocks : List BlockRow}

theorem ordered_cons :
  Ordered (row :: blocks) ↔ row.height = blocks.length ∧ Ordered blocks
  := by
  rw [Ordered, Ordered, List.length_cons, List.range_succ, List.reverse_append,
    List.reverse_singleton, List.map_cons, List.singleton_append, List.cons_eq_cons]

theorem Ordered.height_head (h : Ordered (row :: blocks)) :
  row.height = blocks.length
  := (ordered_cons.mp h).1

theorem Ordered.tail (h : Ordered (row :: blocks)) :
  Ordered blocks
  := (ordered_cons.mp h).2

/-- Every stored block has a height below the number of blocks. -/
theorem Ordered.height_lt
    (h : Ordered blocks) (hmem : row ∈ blocks) :
  row.height < blocks.length
  := by
  have hheight : row.height ∈ blocks.map (·.height) := List.mem_map_of_mem hmem
  rw [h, List.mem_reverse, List.mem_range] at hheight
  exact hheight

theorem Stored.tail (h : Stored data (row :: blocks)) :
  Stored data blocks
  := by
  refine ⟨h.ordered.tail, ?_⟩
  intro i a b ha hb
  apply h.linked i a b
  · rw [stored_cons, List.getElem?_append_left (List.getElem?_eq_some_iff.mp ha).1, ha]
  · rw [stored_cons, List.getElem?_append_left (List.getElem?_eq_some_iff.mp hb).1, hb]

theorem Stored.cons
    (h : Stored data blocks) (hheight : row.height = blocks.length)
    (hlinked : ∀ a, (stored blocks)[row.height - 1]? = some a → 0 < row.height →
      data.prev row.hash = a) :
  Stored data (row :: blocks)
  := by
  constructor
  · exact ordered_cons.mpr ⟨hheight, h.ordered⟩
  · intro i a b ha hb
    rw [stored_cons] at ha hb
    have hi : i + 1 < (stored blocks ++ [row.hash]).length := (List.getElem?_eq_some_iff.mp hb).1
    rw [List.length_append, List.length_singleton, length_stored] at hi
    rw [List.getElem?_append_left (by rw [length_stored]; omega)] at ha
    by_cases hlast : i + 1 = blocks.length
    · rw [List.getElem?_append_right (by rw [length_stored]; omega), length_stored] at hb
      have hzero : i + 1 - blocks.length = 0 := by omega
      rw [hzero, List.getElem?_cons_zero] at hb
      cases hb
      apply hlinked a
      · rw [hheight, ← hlast]
        exact ha
      · omega
    · rw [List.getElem?_append_left (by rw [length_stored]; omega)] at hb
      exact h.linked i a b ha hb

variable {tables : Tables}

/-- The topmost row is the first. -/
theorem Ordered.top_eq (h : Ordered tables.blocks) :
  tables.top = tables.blocks.head?
  := by
  have hstay : ∀ (rows : List BlockRow) (b : BlockRow), (∀ row ∈ rows, row.height < b.height) →
      ({ tables with blocks := b :: rows } : Tables).top = some b := by
    intro rows b hrows
    induction rows with
    | nil => rfl
    | cons row rows ih =>
      obtain ⟨hlt, hrows⟩ := List.forall_mem_cons.mp hrows
      have hnot : ¬b.height < row.height := by omega
      have hrest := ih hrows
      simp only [Tables.top, List.foldl_cons, if_neg hnot] at hrest ⊢
      exact hrest
  cases hblocks : tables.blocks with
  | nil =>
    rw [Tables.top, hblocks]
    rfl
  | cons row rows =>
    rw [hblocks] at h
    have hsame : tables.top = ({ tables with blocks := row :: rows } : Tables).top := by
      rw [Tables.top, hblocks]
      rfl
    rw [hsame, List.head?_cons]
    apply hstay
    intro row' hmem
    rw [h.height_head]
    exact h.tail.height_lt hmem

/-- A stored chain whose topmost block is on the main chain is the main chain up to there. -/
theorem Stored.eq_take
    (h : Stored data blocks) (chain : Chain data)
    (htop : ∀ row, blocks.head? = some row → chain.hashes[row.height]? = some row.hash) :
  stored blocks = chain.hashes.take blocks.length
  := by
  induction blocks with
  | nil => rfl
  | cons row blocks ih =>
    have hrow := htop row rfl
    rw [h.ordered.height_head] at hrow
    have hlt := (List.getElem?_eq_some_iff.mp hrow).1
    have htail : stored blocks = chain.hashes.take blocks.length := by
      apply ih h.tail
      intro row' hrow'
      cases blocks with
      | nil => cases hrow'
      | cons r rows =>
        cases hrow'
        have hheight : row'.height = rows.length := h.ordered.tail.height_head
        -- the block below is the one before, in the table and on the chain
        obtain ⟨a, ha⟩ : ∃ a, chain.hashes[rows.length]? = some a :=
          ⟨_, List.getElem?_eq_getElem (by rw [List.length_cons] at hlt; omega)⟩
        have hchain := chain.linked rows.length a row.hash ha hrow
        have hstored := h.linked rows.length row'.hash row.hash (by
          rw [stored_cons, stored_cons, List.append_assoc, List.getElem?_append_right (by
            rw [length_stored]), length_stored, Nat.sub_self]
          rfl) (by
          rw [stored_cons, List.getElem?_append_right (by
            rw [length_stored, List.length_cons]), length_stored, List.length_cons, Nat.sub_self]
          rfl)
        rw [hheight, ha, ← hchain, hstored]
    rw [stored_cons, htail, List.length_cons, List.take_add_one, hrow]
    rfl

/-! ## What is written to the table of blocks -/

section Blocks

variable (tables : Tables)

theorem blocks_writeTx
    (height : ℕ) (blk : Block) (idx : ℕ) (txid : uint256) (tx : Tx) (time : Option ℤ) :
  (writeTx tables height blk idx txid tx time).blocks = tables.blocks
  := by
  have hspend : ∀ (vins : List Vin) (tables : Tables),
      (vins.foldl (fun tables vin => tables.spend txid vin) tables).blocks = tables.blocks := by
    intro vins
    induction vins with
    | nil => exact fun _ => rfl
    | cons vin vins ih => exact fun tables => ih (tables.spend txid vin)
  rw [writeTx]
  split_ifs
  · exact hspend _ _
  · rfl

theorem blocks_writeOutputs (txid : uint256) (vouts : List Vout) :
  (writeOutputs txid tables vouts).1.blocks = tables.blocks
  := by
  induction vouts generalizing tables with
  | nil => rfl
  | cons vout vouts ih =>
    rw [writeOutputs]
    split_ifs
    · rfl
    · exact ih (writeOutput tables txid vout)

theorem blocks_rewindBlock (height : ℕ) :
  (tables.rewindBlock height).blocks = tables.blocks.filter (fun row => row.height ≠ height)
  := by
  have hrewind : ∀ (txids : List uint256) (tables : Tables),
      (txids.foldl Tables.rewindTx tables).blocks = tables.blocks := by
    intro txids
    induction txids with
    | nil => exact fun _ => rfl
    | cons txid txids ih => exact fun tables => ih (tables.rewindTx txid)
  rw [Tables.rewindBlock, hrewind]

/-- Rewinding the topmost block takes it off the table. -/
theorem Ordered.rewindBlock
    {row : BlockRow} {blocks : List BlockRow} (h : Ordered (row :: blocks))
    (hblocks : tables.blocks = row :: blocks) :
  (tables.rewindBlock row.height).blocks = blocks
  := by
  rw [blocks_rewindBlock, hblocks, List.filter_cons, if_neg (by simp), List.filter_eq_self]
  intro row' hmem
  have hlt := h.tail.height_lt hmem
  rw [h.height_head]
  exact decide_eq_true (by omega)

/-- A block on top of the table with a new hash replaces none. -/
theorem Ordered.replaceBlock
    (h : Ordered tables.blocks) (row : BlockRow) (hheight : row.height = tables.blocks.length)
    (hhash : row.hash ∉ stored tables.blocks) :
  (tables.replaceBlock row).blocks = row :: tables.blocks
  := by
  have hfilter : tables.blocks.filter (fun r => r.height ≠ row.height ∧ r.hash ≠ row.hash)
      = tables.blocks := by
    rw [List.filter_eq_self]
    intro r hmem
    have hlt := h.height_lt hmem
    refine decide_eq_true ⟨by omega, ?_⟩
    intro heq
    apply hhash
    rw [← heq, stored, List.mem_reverse]
    exact List.mem_map_of_mem hmem
  rw [Tables.replaceBlock, hfilter]

end Blocks

/-! ## A pass -/

/-- What holds of the table of blocks where a pass is. -/
def Located (data : NodeData) (blocks : List BlockRow) : Pc → Prop
  | .idle => True
  | .checking _ row => blocks.head? = some row
  | .hashing _ h => h = blocks.length
  | .fetching _ h bhash =>
    h = blocks.length ∧ bhash ∉ stored blocks
      ∧ ∀ a, (stored blocks)[h - 1]? = some a → 0 < h → data.prev bhash = a
  | .reading _ h _ _ _ _ => h + 1 = blocks.length
  | .burning _ h _ _ _ _ _ _ => h + 1 = blocks.length

/-- What holds where a pass is that nothing has interrupted. -/
def Following (chain : Chain data) (blocks : List BlockRow) : Pc → Prop
  | .idle => stored blocks = chain.hashes
  | .checking tip _ => tip = chain.height
  | .hashing tip h => tip = chain.height ∧ h ≤ tip ∧ stored blocks = chain.hashes.take h
  | .fetching tip h bhash =>
    tip = chain.height ∧ h ≤ tip ∧ stored blocks = chain.hashes.take h
      ∧ chain.hashes[h]? = some bhash
  | .reading tip h _ _ _ _ =>
    tip = chain.height ∧ h ≤ tip ∧ stored blocks = chain.hashes.take (h + 1)
  | .burning tip h _ _ _ _ _ _ =>
    tip = chain.height ∧ h ≤ tip ∧ stored blocks = chain.hashes.take (h + 1)

/-- The invariant of the explorer. -/
structure Inv (s : State data) : Prop where
  stored : Stored data s.tables.blocks
  located : Located data s.tables.blocks s.pc
  following : s.fChanged = false → s.fFailed = false → s.pc ≠ .idle ∨ s.fEnded = true →
    Following s.chain s.tables.blocks s.pc
  ended : s.fEnded = true → s.pc = .idle

theorem length_pos (chain : Chain data) : 0 < chain.hashes.length := by
  apply List.length_pos_of_ne_nil
  intro hnil
  have hhead := chain.head
  rw [hnil] at hhead
  cases hhead

variable {tip : ℕ}

/-- The loop over the heights goes on from a table that follows the chain up to its height. -/
theorem located_indexNext {h : ℕ} (hh : h = blocks.length) :
  Located data blocks (indexNext tip h)
  := by
  rw [indexNext]
  split_ifs
  · exact hh
  · trivial

variable {chain : Chain data}

theorem following_indexNext
    {h : ℕ} (htip : tip = chain.height)
    (hh : h = blocks.length) (htake : CorgiCoin.Explorer.stored blocks = chain.hashes.take h) :
  Following chain blocks (indexNext tip h)
  := by
  rw [indexNext]
  split_ifs with hle
  · exact ⟨htip, hle, htake⟩
  · rw [Following, htake, List.take_of_length_le]
    rw [htip, Chain.height] at hle
    have hpos := length_pos chain
    omega

theorem located_readNext
    {h : ℕ} (hh : h + 1 = blocks.length) (blk : Block) (idx : ℕ) (txids : List uint256) :
  Located data blocks (readNext tip h blk idx txids)
  := by
  cases txids with
  | nil => exact located_indexNext hh
  | cons txid txids => exact hh

theorem following_readNext
    {h : ℕ} (htip : tip = chain.height) (hle : h ≤ tip) (hh : h + 1 = blocks.length)
    (htake : CorgiCoin.Explorer.stored blocks = chain.hashes.take (h + 1)) (blk : Block) (idx : ℕ)
    (txids : List uint256) :
  Following chain blocks (readNext tip h blk idx txids)
  := by
  cases txids with
  | nil => exact following_indexNext htip hh htake
  | cons txid txids => exact ⟨htip, hle, htake⟩

theorem blocks_outputsNext
    (tip h : ℕ) (blk : Block) (idx : ℕ) (txid : uint256) (txids : List uint256) (tables : Tables)
    (vouts : List Vout) :
  (outputsNext tip h blk idx txid txids tables vouts).1.blocks = tables.blocks
  := by
  have hblocks := blocks_writeOutputs tables txid vouts
  rw [outputsNext]
  rcases hwrite : writeOutputs txid tables vouts with ⟨tables', _ | ⟨vout, vouts'⟩⟩
  · rw [hwrite] at hblocks
    exact hblocks
  · rw [hwrite] at hblocks
    exact hblocks

theorem located_outputsNext
    {h : ℕ} (hh : h + 1 = blocks.length) (blk : Block) (idx : ℕ)
    (txid : uint256) (txids : List uint256) (tables : Tables) (vouts : List Vout) :
  Located data blocks (outputsNext tip h blk idx txid txids tables vouts).2
  := by
  rw [outputsNext]
  rcases writeOutputs txid tables vouts with ⟨tables', _ | ⟨vout, vouts'⟩⟩
  · exact located_readNext hh blk (idx + 1) txids
  · exact hh

theorem following_outputsNext
    {h : ℕ} (htip : tip = chain.height) (hle : h ≤ tip) (hh : h + 1 = blocks.length)
    (htake : CorgiCoin.Explorer.stored blocks = chain.hashes.take (h + 1)) (blk : Block) (idx : ℕ)
    (txid : uint256) (txids : List uint256) (tables : Tables) (vouts : List Vout) :
  Following chain blocks (outputsNext tip h blk idx txid txids tables vouts).2
  := by
  rw [outputsNext]
  rcases writeOutputs txid tables vouts with ⟨tables', _ | ⟨vout, vouts'⟩⟩
  · exact following_readNext htip hle hh htake blk (idx + 1) txids
  · exact ⟨htip, hle, htake⟩

theorem located_checkNext (h : Stored data tables.blocks) (tip : ℕ) :
  Located data tables.blocks (checkNext tip tables)
  := by
  rw [checkNext, h.ordered.top_eq]
  cases hblocks : tables.blocks with
  | nil => exact located_indexNext rfl
  | cons row blocks => rfl

theorem following_checkNext
    (h : Stored data tables.blocks) :
  Following chain tables.blocks (checkNext chain.height tables)
  := by
  rw [checkNext, h.ordered.top_eq]
  cases hblocks : tables.blocks with
  | nil => exact following_indexNext rfl rfl rfl
  | cons row blocks => rfl

/-- What a call and what follows it up to the next one keeps. -/
structure Kept (chain : Chain data) (tables : Tables) (pc : Pc) (fFollowing : Prop) : Prop where
  stored : Stored data tables.blocks
  located : Located data tables.blocks pc
  following : fFollowing → Following chain tables.blocks pc

theorem Kept.imp
    {pc : Pc} {P Q : Prop} (h : Kept chain tables pc P) (hPQ : Q → P) :
  Kept chain tables pc Q
  := ⟨h.stored, h.located, fun hQ => h.following (hPQ hQ)⟩

variable {mempool : List uint256}

theorem kept_checking
    (h : Stored data tables.blocks) (hlocated : tables.blocks.head? = some row)
    (hok : row.height < chain.hashes.length) :
  Kept chain (perform chain mempool tables .result (.checking tip row)).1
    (perform chain mempool tables .result (.checking tip row)).2 (tip = chain.height)
  := by
  obtain ⟨blocks, hblocks⟩ : ∃ blocks, tables.blocks = row :: blocks := by
    cases hblocks : tables.blocks with
    | nil =>
      rw [hblocks] at hlocated
      cases hlocated
    | cons r blocks =>
      rw [hblocks] at hlocated
      cases hlocated
      exact ⟨blocks, rfl⟩
  have hstored := h
  rw [hblocks] at hstored
  simp only [perform, ne_eq, not_true_eq_false, if_false, List.getElem?_eq_getElem hok]
  split_ifs with heq
  · have hheight : row.height + 1 = tables.blocks.length := by
      rw [hblocks, List.length_cons, hstored.ordered.height_head]
    refine ⟨h, located_indexNext hheight, ?_⟩
    intro htip
    apply following_indexNext htip hheight
    rw [hheight]
    apply h.eq_take chain
    intro row' hrow'
    cases hlocated.symm.trans hrow'
    rw [List.getElem?_eq_getElem hok, heq]
  · have hrewound : Stored data (tables.rewindBlock row.height).blocks := by
      rw [hstored.ordered.rewindBlock tables hblocks]
      exact hstored.tail
    refine ⟨hrewound, located_checkNext hrewound tip, ?_⟩
    rintro rfl
    exact following_checkNext hrewound

variable {height : ℕ}

theorem kept_hashing
    (h : Stored data tables.blocks) (hlocated : height = tables.blocks.length)
    (hok : height = 0 ∨ ∃ row ∈ tables.blocks, row.height + 1 = height
      ∧ chain.hashes[row.height]? = some row.hash) :
  Kept chain (perform chain mempool tables .result (.hashing tip height)).1
    (perform chain mempool tables .result (.hashing tip height)).2
    (Following chain tables.blocks (.hashing tip height))
  := by
  -- the stored blocks are those of the chain below the height
  have htake : stored tables.blocks = chain.hashes.take height := by
    rw [hlocated]
    apply h.eq_take chain
    intro row hrow
    cases hblocks : tables.blocks with
    | nil =>
      rw [hblocks] at hrow
      cases hrow
    | cons r blocks =>
      rw [hblocks] at hrow h hlocated hok
      cases hrow
      rcases hok with hzero | ⟨row', hmem, hheight, hhash⟩
      · rw [hlocated, List.length_cons] at hzero
        cases hzero
      · have hsame : row' = row := by
          rcases List.mem_cons.mp hmem with hmem | hmem
          · exact hmem
          · have hlt := h.ordered.tail.height_lt hmem
            rw [List.length_cons] at hlocated
            omega
        rw [← hsame]
        exact hhash
  simp only [perform, ne_eq, not_true_eq_false, if_false]
  cases hhash : chain.hashes[height]? with
  | none =>
    refine ⟨h, trivial, ?_⟩
    rintro ⟨htip, hle, _⟩
    have hlt : height < chain.hashes.length := by
      have hpos := length_pos chain
      rw [htip, Chain.height] at hle
      omega
    rw [List.getElem?_eq_getElem hlt] at hhash
    cases hhash
  | some bhash =>
    refine ⟨h, ⟨hlocated, ?_, ?_⟩, ?_⟩
    · rw [htake]
      intro hmem
      obtain ⟨i, hi, heq⟩ := List.getElem_of_mem hmem
      rw [List.getElem_take] at heq
      have hlt := (List.getElem?_eq_some_iff.mp hhash).1
      have hget := (List.getElem?_eq_some_iff.mp hhash).2
      rw [List.length_take] at hi
      have hij := (List.Nodup.getElem_inj_iff chain.nodup).mp (heq.trans hget.symm)
      omega
    · intro a ha hpos
      rw [htake, List.getElem?_take_of_lt (by omega)] at ha
      have hsucc : height - 1 + 1 = height := by omega
      apply chain.linked (height - 1) a bhash ha
      rw [hsucc]
      exact hhash
    · rintro ⟨htip, hle, _⟩
      exact ⟨htip, hle, htake, hhash⟩

theorem kept_fetching
    (h : Stored data tables.blocks)
    {bhash : uint256} (hlocated : Located data tables.blocks (.fetching tip height bhash)) :
  Kept chain (perform chain mempool tables .result (.fetching tip height bhash)).1
    (perform chain mempool tables .result (.fetching tip height bhash)).2
    (Following chain tables.blocks (.fetching tip height bhash))
  := by
  obtain ⟨hheight, hnew, hlinked⟩ := hlocated
  have hhash : (blockRow height (data.getblock bhash)).hash = bhash := data.hash_getblock bhash
  have hreplace : (tables.replaceBlock (blockRow height (data.getblock bhash))).blocks
      = blockRow height (data.getblock bhash) :: tables.blocks := by
    apply h.ordered.replaceBlock tables _ hheight
    rw [hhash]
    exact hnew
  have hlength : height + 1
      = (tables.replaceBlock (blockRow height (data.getblock bhash))).blocks.length := by
    rw [hreplace, List.length_cons, hheight]
  have hstored : Stored data (tables.replaceBlock (blockRow height (data.getblock bhash))).blocks := by
    rw [hreplace]
    apply h.cons hheight
    intro a ha hpos
    rw [hhash]
    exact hlinked a ha hpos
  simp only [perform, ne_eq, not_true_eq_false, if_false]
  refine ⟨hstored, located_readNext hlength _ 0 _, ?_⟩
  rintro ⟨htip, hle, htake, hget⟩
  apply following_readNext htip hle hlength
  rw [hreplace, stored_cons, hhash, htake, List.take_add_one, hget]
  rfl

/-- The calls for the transactions and the burns of a block leave the table of blocks alone. -/
theorem kept_outputsNext
    {tables' : Tables} (h : Stored data tables.blocks) (hblocks : tables'.blocks = tables.blocks)
    (hlocated : height + 1 = tables.blocks.length) (blk : Block) (idx : ℕ) (txid : uint256)
    (txids : List uint256) (vouts : List Vout) :
  Kept chain (outputsNext tip height blk idx txid txids tables' vouts).1
    (outputsNext tip height blk idx txid txids tables' vouts).2
    (tip = chain.height ∧ height ≤ tip
      ∧ stored tables.blocks = chain.hashes.take (height + 1))
  := by
  have hsame : (outputsNext tip height blk idx txid txids tables' vouts).1.blocks = tables.blocks := by
    rw [blocks_outputsNext, hblocks]
  constructor
  · rw [hsame]
    exact h
  · rw [hsame]
    exact located_outputsNext hlocated blk idx txid txids tables' vouts
  · rintro ⟨htip, hle, htake⟩
    rw [hsame]
    exact following_outputsNext htip hle hlocated htake blk idx txid txids tables' vouts

variable {txid : uint256}

theorem kept_reading
    (h : Stored data tables.blocks) {answer : Rpc} {blk : Block} {idx : ℕ} {txids : List uint256}
    (hlocated : height + 1 = tables.blocks.length) (hanswer : answer ≠ .exception) :
  Kept chain (perform chain mempool tables answer (.reading tip height blk idx txid txids)).1
    (perform chain mempool tables answer (.reading tip height blk idx txid txids)).2
    (Following chain tables.blocks (.reading tip height blk idx txid txids))
  := by
  simp only [perform, if_neg hanswer]
  split
  · refine ⟨h, located_readNext hlocated blk (idx + 1) txids, ?_⟩
    rintro ⟨htip, hle, htake⟩
    exact following_readNext htip hle hlocated htake blk (idx + 1) txids
  · next tx time _ =>
    exact kept_outputsNext h (blocks_writeTx tables height blk idx txid tx time) hlocated blk idx txid
      txids tx.vout

theorem kept_burning
    (h : Stored data tables.blocks) (answer : Rpc)
    {blk : Block} {idx : ℕ} {vout : Vout} {vouts : List Vout}
    {txids : List uint256} (hlocated : height + 1 = tables.blocks.length) :
  Kept chain (perform chain mempool tables answer (.burning tip height blk idx txid vout vouts txids)).1
    (perform chain mempool tables answer (.burning tip height blk idx txid vout vouts txids)).2
    (Following chain tables.blocks (.burning tip height blk idx txid vout vouts txids))
  := by
  apply kept_outputsNext h _ hlocated blk idx txid txids vouts
  rfl

/-- Where a call fails that is not one about a transaction or a burn, the pass ends. -/
theorem kept_idle
    (h : Stored data tables.blocks) {fFollowing : Prop} (hnot : ¬fFollowing) :
  Kept chain tables .idle fFollowing
  := ⟨h, trivial, fun hfollowing => absurd hfollowing hnot⟩

/-- What a call keeps, whatever it answers. -/
theorem kept_perform
    {s : State data} (h : Inv s) {answer : Rpc} (hok : Unbroken s (.rpc answer)) :
  Kept s.chain (perform s.chain s.mempool s.tables answer s.pc).1 (perform s.chain s.mempool s.tables answer s.pc).2
    (answer = .result ∧ (s.pc ≠ .idle → s.fChanged = false ∧ s.fFailed = false))
  := by
  have hfollowing : s.pc ≠ .idle → (s.pc ≠ .idle → s.fChanged = false ∧ s.fFailed = false) →
      Following s.chain s.tables.blocks s.pc := by
    intro hpc hquiet
    exact h.following (hquiet hpc).1 (hquiet hpc).2 (.inl hpc)
  have hlocated := h.located
  simp only [Unbroken] at hok
  cases hpc : s.pc with
  | idle =>
    simp only [perform]
    split_ifs with hanswer
    · exact kept_idle h.stored (fun hq => hanswer hq.1)
    · exact ⟨h.stored, located_checkNext h.stored _, fun _ => following_checkNext h.stored⟩
  | checking tip row =>
    rw [hpc] at hok hlocated hfollowing
    by_cases hanswer : answer = .result
    · rw [hanswer]
      apply (kept_checking h.stored hlocated (hok hanswer)).imp
      exact fun hq => hfollowing nofun hq.2
    · simp only [perform, if_pos hanswer]
      exact kept_idle h.stored (fun hq => hanswer hq.1)
  | hashing tip height =>
    rw [hpc] at hok hlocated hfollowing
    by_cases hanswer : answer = .result
    · rw [hanswer]
      apply (kept_hashing h.stored hlocated (hok hanswer)).imp
      exact fun hq => hfollowing nofun hq.2
    · simp only [perform, if_pos hanswer]
      exact kept_idle h.stored (fun hq => hanswer hq.1)
  | fetching tip height bhash =>
    rw [hpc] at hlocated hfollowing
    by_cases hanswer : answer = .result
    · rw [hanswer]
      apply (kept_fetching h.stored hlocated).imp
      exact fun hq => hfollowing nofun hq.2
    · simp only [perform, if_pos hanswer]
      exact kept_idle h.stored (fun hq => hanswer hq.1)
  | reading tip height blk idx txid txids =>
    rw [hpc] at hlocated hfollowing
    by_cases hanswer : answer = .exception
    · simp only [perform, if_pos hanswer]
      apply kept_idle h.stored
      rintro ⟨rfl, _⟩
      cases hanswer
    · apply (kept_reading h.stored hlocated hanswer).imp
      exact fun hq => hfollowing nofun hq.2
  | burning tip height blk idx txid vout vouts txids =>
    rw [hpc] at hlocated hfollowing
    apply (kept_burning h.stored answer hlocated).imp
    exact fun hq => hfollowing nofun hq.2

/-! ## Every run -/

theorem inv_init (chain : Chain data) : Inv (init chain) where
  stored := stored_nil
  located := trivial
  following := by
    rintro - - (hpc | hended)
    · exact absurd rfl hpc
    · cases hended
  ended := nofun

theorem inv_step {s : State data} (h : Inv s) {event : Event data} (hok : Unbroken s event) :
  Inv (step s event)
  := by
  cases event with
  | node chain => exact ⟨h.stored, h.located, nofun, nofun⟩
  | mempool txids =>
    refine ⟨h.stored, h.located, ?_, nofun⟩
    rintro hchanged hfailed (hpc | hended)
    · exact h.following hchanged hfailed (.inl hpc)
    · cases hended
  | rpc answer =>
    have hkept := kept_perform h hok
    refine ⟨hkept.stored, hkept.located, ?_, fun hended => of_decide_eq_true hended⟩
    intro hchanged hfailed _
    apply hkept.following
    simp only [step, Bool.or_eq_false_iff, decide_eq_false_iff_not, not_not] at hchanged hfailed
    refine ⟨hfailed.2, fun hpc => ?_⟩
    rw [if_neg hpc] at hchanged hfailed
    exact ⟨hchanged, hfailed.1⟩

/-- A table that holds the hashes of the chain by height gives each at its height. -/
theorem Ordered.find?_height
    (h : Ordered blocks) {i : ℕ} {hash : uint256} (hget : (stored blocks)[i]? = some hash) :
  (blocks.find? (fun row => row.height = i)).map (·.hash) = some hash
  := by
  induction blocks with
  | nil => cases hget
  | cons row blocks ih =>
    rw [stored_cons] at hget
    by_cases hi : i = blocks.length
    · rw [hi, List.getElem?_append_right (by rw [length_stored]), length_stored, Nat.sub_self,
        List.getElem?_cons_zero] at hget
      rw [List.find?_cons_of_pos (by simp [h.height_head, hi]), Option.map_some, hget]
    · have hlt := (List.getElem?_eq_some_iff.mp hget).1
      rw [List.length_append, List.length_singleton, length_stored] at hlt
      rw [List.getElem?_append_left (by rw [length_stored]; omega)] at hget
      rw [List.find?_cons_of_neg (by simp [h.height_head]; omega)]
      exact ih h.tail hget

/-- In every run in which no block is asked for above one that the chain has left, a pass without a
change of the chain and without a failed call ends with the main chain in the table. -/
theorem synced_of_unbroken
    (chain : Chain data) (events : List (Event data))
    (hunbroken : Along step Unbroken (init chain) events)
    (hended : (run step (init chain) events).fEnded = true)
    (hchanged : (run step (init chain) events).fChanged = false)
    (hfailed : (run step (init chain) events).fFailed = false) :
  Synced (run step (init chain) events)
  := by
  have hstep : ∀ (s : State data) (event : Event data), Unbroken s event → Inv s →
      Inv (step s event) := fun s event hok h => inv_step h hok
  have hinv := run_invariant hstep hunbroken (inv_init chain)
  have hfollowing := hinv.following hchanged hfailed (.inr hended)
  rw [hinv.ended hended, Following] at hfollowing
  intro h hash hget
  apply hinv.stored.ordered.find?_height
  rw [hfollowing]
  exact hget

/-! ## Two forks -/

/-- Two branches above the genesis block, each block with a coinbase. -/
def sampleData : NodeData where
  genesis := 0
  prev := fun hash => if hash = 1 ∨ hash = 11 then 0 else hash - 1
  getblock := fun hash => ⟨hash, hash.toNat, "", "", 0, [hash + 100]⟩
  hash_getblock := fun _ => rfl
  tx := fun txid =>
    if txid = 100 then none else some ⟨[⟨true, 0, 0⟩], [⟨0, none, 50, []⟩]⟩
  decodeburn := fun _ => none

/-- The index of a chain in which each block holds one transaction. -/
def sampleIndex (hashes : List uint256) (txid : uint256) : Option uint256 :=
  if txid - 100 ∈ hashes then some (txid - 100) else none

theorem mem_sampleIndex
    {hashes : List uint256} {hash : uint256} (h : sampleIndex hashes txid = some hash) :
  hash ∈ hashes ∧ txid ∈ (sampleData.getblock hash).tx
  := by
  rw [sampleIndex] at h
  split_ifs at h with hmem
  cases h
  refine ⟨hmem, List.mem_singleton.mpr ?_⟩
  exact (BitVec.sub_add_cancel txid 100).symm

def sampleChain : Chain sampleData where
  hashes := [0, 1, 2]
  head := rfl
  linked := by
    intro i a b ha hb
    rcases i with _ | _ | _ | i <;> cases ha <;> cases hb <;> decide
  nodup := by decide
  txIndex := sampleIndex _
  mem_txIndex _ _ := mem_sampleIndex

/-- The branch that the node reorganises to. -/
def sampleFork : Chain sampleData where
  hashes := [0, 11, 12, 13]
  head := rfl
  linked := by
    intro i a b ha hb
    rcases i with _ | _ | _ | _ | i <;> cases ha <;> cases hb <;> decide
  nodup := by decide
  txIndex := sampleIndex _
  mem_txIndex _ _ := mem_sampleIndex

/-- A pass over the first branch, the reorganisation, and a pass that rewinds. -/
def sampleReorg : List (Event sampleData) :=
  List.replicate 10 (.rpc .result) ++ [.node sampleFork] ++ List.replicate 13 (.rpc .result)

/-- The reorganisation between two passes is followed. -/
theorem sampleReorg_synced :
  Synced (run step (init sampleChain) sampleReorg)
  := by
  apply synced_of_unbroken
  · decide
  · decide
  · decide
  · decide

/-- The reorganisation while the first pass is under way, and a second pass without one. -/
def sampleRace : List (Event sampleData) :=
  List.replicate 7 (.rpc .result) ++ [.node sampleFork] ++ List.replicate 8 (.rpc .result)

/-- The second pass is quiet and without a failure, and the table still holds the block that the
first branch has at height one. -/
theorem sampleRace_not_synced :
  (run step (init sampleChain) sampleRace).fEnded = true
    ∧ (run step (init sampleChain) sampleRace).fChanged = false
    ∧ (run step (init sampleChain) sampleRace).fFailed = false
    ∧ ¬Synced (run step (init sampleChain) sampleRace)
  := by
  refine ⟨?_, ?_, ?_, ?_⟩
  · decide
  · decide
  · decide
  · intro hsynced
    have hone := hsynced 1 11 (by decide)
    have htable : ((run step (init sampleChain) sampleRace).tables.blocks.find?
        (fun row => row.height = 1)).map (·.hash) = some 1 := by decide
    rw [htable] at hone
    revert hone
    decide

end CorgiCoin.Explorer
