import CorgiCoin.BlockFile

/-!
# Supply

The value of the unspent outputs of an index, over the integers, and what a block does to it.
A transaction takes the values of the outputs it spends away and adds those of its own, so a
block adds what its coinbase pays and takes its fees away; the coinbase pays at most the
subsidy and the fees, and where the 64-bit tally of the fees wraps, it wraps downwards.
-/

namespace CorgiCoin

open Std

/-! ## Unspent outputs -/

/-- The value of the outputs whose mark is null. -/
def unspentSum : List CDiskTxPos → List CTxOut → ℤ
  | pos :: vSpent, txout :: vout =>
    (if pos.isNull then txout.nValue.toInt else 0) + unspentSum vSpent vout
  | _, _ => 0

/-- The value of the unspent outputs of an entry. -/
def unspentValue (disk : CDiskTxPos → Option CTransaction) (txindex : CTxIndex) : ℤ :=
  (disk txindex.pos).elim 0 (fun tx => unspentSum txindex.vSpent tx.vout)

/-- The value of the unspent outputs of an index. -/
def totalUnspent (disk : CDiskTxPos → Option CTransaction) (index : TxIndexMap) : ℤ :=
  TreeMap.sum (fun _ txindex => unspentValue disk txindex) index

/-- No entry of the index stands for a transaction of the memory pool, and the unspent outputs
are in the money range. -/
structure MoneyState (disk : CDiskTxPos → Option CTransaction) (index : TxIndexMap) : Prop where
  not_pool : ∀ (hash : uint256) (txindex : CTxIndex), index[hash]? = some txindex →
    txindex.pos ≠ CDiskTxPos.pool
  moneyRange : ∀ (hash : uint256) (txindex : CTxIndex) tx (n : ℕ) pos txout,
    index[hash]? = some txindex → disk txindex.pos = some tx →
    txindex.vSpent[n]? = some pos → pos.isNull = true → tx.vout[n]? = some txout →
    moneyRange txout.nValue = true

theorem unspentSum_nonneg
    {vSpent : List CDiskTxPos} {vout : List CTxOut}
    (h : ∀ (n : ℕ) pos txout, vSpent[n]? = some pos → pos.isNull = true → vout[n]? = some txout →
      moneyRange txout.nValue = true) :
  0 ≤ unspentSum vSpent vout
  := by
  induction vSpent generalizing vout with
  | nil => rfl
  | cons pos vSpent ih =>
    cases vout with
    | nil => rfl
    | cons txout vout =>
      have hrest : 0 ≤ unspentSum vSpent vout := by
        apply ih
        intro n pos' txout' hpos hnull hout
        apply h (n + 1) pos' txout' hpos hnull hout
      rw [unspentSum]
      split_ifs with hnull
      · have hrange := (moneyRange_iff _).mp (h 0 pos txout rfl hnull rfl)
        omega
      · omega

/-- Marking an unspent output takes its value away. -/
theorem unspentSum_set
    {vSpent : List CDiskTxPos} {vout : List CTxOut} {n : ℕ} {p pos : CDiskTxPos}
    {txout : CTxOut} (hp : vSpent[n]? = some p) (hnull : p.isNull = true)
    (hout : vout[n]? = some txout) (hpos : pos.isNull = false) :
  unspentSum (vSpent.set n pos) vout = unspentSum vSpent vout - txout.nValue.toInt
  := by
  induction vSpent generalizing vout n with
  | nil => cases hp
  | cons q vSpent ih =>
    cases vout with
    | nil => cases hout
    | cons txout' vout =>
      cases n with
      | zero =>
        obtain rfl := Option.some.inj hp
        obtain rfl := Option.some.inj hout
        rw [List.set_cons_zero, unspentSum, unspentSum, hpos, hnull]
        simp
      | succ n =>
        rw [List.set_cons_succ, unspentSum, unspentSum, ih hp hout]
        ring

theorem unspentSum_unspent (vout : List CTxOut) :
  unspentSum (List.replicate vout.length CDiskTxPos.null) vout
    = sumValues (vout.map CTxOut.nValue)
  := by
  induction vout with
  | nil => rfl
  | cons txout vout ih =>
    rw [List.length_cons, List.replicate_succ, unspentSum, ih, List.map_cons]
    simp [sumValues]

/-! ## Spending -/

section Spending

variable {reader : TxReader} {index : TxIndexMap}

/-- Outside the memory pool the transaction of an entry is read from disk. -/
theorem MoneyState.readPrev_eq
    (h : MoneyState reader.disk index) {hash : uint256} {txindex : CTxIndex}
    (hget : index[hash]? = some txindex) :
  reader.readPrev hash txindex = reader.disk txindex.pos
  := by
  rw [TxReader.readPrev, if_neg (h.not_pool hash txindex hget)]

variable {pos : CDiskTxPos}

theorem MoneyState.setSlot
    (h : MoneyState reader.disk index) (hpos : pos.isNull = false) (o : COutPoint) :
  MoneyState reader.disk (setSlot pos index o)
  := by
  constructor
  · intro hash txindex hget
    rw [getElem?_setSlot] at hget
    split_ifs at hget with hhash
    · obtain ⟨txindexOld, hold, rfl⟩ := Option.map_eq_some_iff.mp hget
      apply h.not_pool hash txindexOld hold
    · apply h.not_pool hash txindex hget
  · intro hash txindex tx n p txout hget hread hslot hnull hout
    rw [getElem?_setSlot] at hget
    split_ifs at hget with hhash
    · obtain ⟨txindexOld, hold, rfl⟩ := Option.map_eq_some_iff.mp hget
      rw [List.getElem?_set] at hslot
      split_ifs at hslot with hn
      · rw [← Option.some.inj hslot, hpos] at hnull
        cases hnull
      · apply h.moneyRange hash txindexOld tx n p txout hold hread hslot hnull hout
    · apply h.moneyRange hash txindex tx n p txout hget hread hslot hnull hout

theorem MoneyState.setSlots
    (h : MoneyState reader.disk index) (hpos : pos.isNull = false) (os : List COutPoint) :
  MoneyState reader.disk (setSlots pos index os)
  := by
  induction os generalizing index with
  | nil => apply h
  | cons o os ih => apply ih (h.setSlot hpos o)

/-- Marks do not change what an input is worth. -/
theorem inputValue_setSlot
    (pos : CDiskTxPos) (o o' : COutPoint) :
  inputValue reader (CorgiCoin.setSlot pos index o) o' = inputValue reader index o'
  := by
  rw [inputValue, inputValue, prevOf_setSlot]
  split_ifs
  · cases prevOf reader index o'.hash <;> rfl
  · rfl

/-- An input whose previous transaction is there and whose output is not spent. -/
def Spendable (reader : TxReader) (index : TxIndexMap) (o : COutPoint) : Prop :=
  ∃ txindex txPrev txout pos, prevOf reader index o.hash = some (txindex, txPrev)
    ∧ txPrev.vout[o.n.toNat]? = some txout ∧ txindex.vSpent[o.n.toNat]? = some pos
    ∧ pos.isNull = true

theorem spendable_setSlot
    {o o' : COutPoint} (hne : o ≠ o') (h : Spendable reader index o') :
  Spendable reader (CorgiCoin.setSlot pos index o) o'
  := by
  obtain ⟨txindex, txPrev, txout, p, hprev, hout, hslot, hnull⟩ := h
  rw [Spendable, prevOf_setSlot]
  split_ifs with hhash
  · refine ⟨_, txPrev, txout, p, Option.map_eq_some_iff.mpr ⟨_, hprev, rfl⟩, hout, ?_, hnull⟩
    rw [List.getElem?_set_ne (COutPoint.toNat_n_ne hne hhash), hslot]
  · exact ⟨txindex, txPrev, txout, p, hprev, hout, hslot, hnull⟩

/-- Spending one output takes its value away from the total. -/
theorem totalUnspent_setSlot
    (h : MoneyState reader.disk index) (hpos : pos.isNull = false)
    {o : COutPoint} (hspend : Spendable reader index o) :
  totalUnspent reader.disk (setSlot pos index o)
    = totalUnspent reader.disk index - inputValue reader index o
  := by
  obtain ⟨txindex, txPrev, txout, p, hprev, hout, hslot, hnull⟩ := hspend
  have hvalue : inputValue reader index o = txout.nValue.toInt := by
    rw [inputValue, hprev]
    simp [hout]
  obtain ⟨hget, hread⟩ := prevOf_eq_some_iff.mp hprev
  rw [h.readPrev_eq hget] at hread
  rw [setSlot_of_getElem? pos hget, totalUnspent, TreeMap.sum_insert, hget, Option.elim_some,
    unspentValue, unspentValue, hread, Option.elim_some, Option.elim_some,
    unspentSum_set hslot hnull hout hpos, hvalue, totalUnspent]
  ring

/-- Spending different outputs takes their values away. -/
theorem totalUnspent_setSlots
    (h : MoneyState reader.disk index) (hpos : pos.isNull = false)
    {os : List COutPoint} (hnodup : os.Nodup) (hspend : ∀ o ∈ os, Spendable reader index o) :
  totalUnspent reader.disk (setSlots pos index os)
    = totalUnspent reader.disk index - (os.map (inputValue reader index)).sum
  := by
  induction os generalizing index with
  | nil => simp [CorgiCoin.setSlots]
  | cons o os ih =>
    rw [List.nodup_cons] at hnodup
    obtain ⟨hfirst, hrest⟩ := List.forall_mem_cons.mp hspend
    have hrest' : ∀ o' ∈ os, Spendable reader (CorgiCoin.setSlot pos index o) o' := by
      intro o' hmem
      apply spendable_setSlot _ (hrest o' hmem)
      rintro rfl
      exact hnodup.1 hmem
    have hvalues : os.map (inputValue reader (CorgiCoin.setSlot pos index o))
        = os.map (inputValue reader index) :=
      List.map_congr_left (fun o' _ => inputValue_setSlot pos o o')
    rw [setSlots_cons, ih (h.setSlot hpos o) hnodup.2 hrest', totalUnspent_setSlot h hpos hfirst,
      List.map_cons, List.sum_cons, hvalues]
    ring

end Spending

/-! ## A transaction -/

section Transaction

variable {env : Env} {reader : TxReader} {fStrict : Bool} {pindex : CBlockIndex}
  {index : TxIndexMap}

/-- The inputs of a transaction that connects spend outputs that are there. -/
theorem TxConnects.spendable_prevouts
    {tx : CTransaction} {nValueIn nValueOut : Int64}
    (h : TxConnects env reader fStrict pindex index tx nValueIn nValueOut) :
  ∀ o ∈ tx.vin.map CTxIn.prevout, Spendable reader index o
  := by
  intro o ho
  obtain ⟨txin, hmem, rfl⟩ := List.mem_map.mp ho
  obtain ⟨prev, hprev, hout, -⟩ := h.found txin hmem
  obtain ⟨i, hi⟩ := List.getElem?_of_mem hmem
  have hi : (txin, i) ∈ tx.vin.zipIdx := List.mk_mem_zipIdx_iff_getElem?.mpr hi
  obtain ⟨prev', pos, hprev', hslot, hnull, -⟩ := h.spendable _ hi
  obtain rfl : prev' = prev := Option.some.inj (hprev'.symm.trans hprev)
  exact ⟨prev'.1, prev'.2, _, pos, hprev, List.getElem?_eq_getElem hout, hslot, hnull⟩

/-- Adding a transaction keeps the unspent outputs in the money range. -/
theorem MoneyState.addTx
    (env : Env) (h : MoneyState reader.disk index) {placed : CDiskTxPos × CTransaction}
    (hpos : placed.1.isNull = false) (hpool : placed.1 ≠ CDiskTxPos.pool)
    (hchecked : placed.2.Checked) (hread : reader.disk placed.1 = some placed.2) :
  MoneyState reader.disk (addTx env index placed)
  := by
  have hslots := h.setSlots hpos placed.2.prevouts
  constructor
  · intro hash txindex hget
    rw [CorgiCoin.addTx, TreeMap.getElem?_insert_ite] at hget
    split_ifs at hget
    · rw [← Option.some.inj hget]
      apply hpool
    · apply hslots.not_pool hash txindex hget
  · intro hash txindex tx n p txout hget hdisk hslot hnull hout
    rw [CorgiCoin.addTx, TreeMap.getElem?_insert_ite] at hget
    split_ifs at hget
    · obtain rfl := Option.some.inj hget
      obtain rfl : placed.2 = tx := Option.some.inj (hread.symm.trans hdisk)
      obtain ⟨nValueOut, hvalue⟩ := hchecked.getValueOut_isSome
      apply (CTransaction.getValueOut_eq_some hvalue).1
      apply List.mem_of_getElem? hout
    · apply hslots.moneyRange hash txindex tx n p txout hget hdisk hslot hnull hout

/-- Adding a transaction takes away at least what it spends and adds what it pays. -/
theorem totalUnspent_addTx_le
    (h : MoneyState reader.disk index) {placed : CDiskTxPos × CTransaction}
    (hpos : placed.1.isNull = false) (hchecked : placed.2.Checked)
    (hread : reader.disk placed.1 = some placed.2)
    (hconnects : placed.2.isCoinBase = false → ∃ nValueIn nValueOut,
      TxConnects env reader fStrict pindex index placed.2 nValueIn nValueOut) :
  totalUnspent reader.disk (addTx env index placed)
    ≤ totalUnspent reader.disk index - (placed.2.prevouts.map (inputValue reader index)).sum
      + placed.2.valueOut
  := by
  have hspends : placed.2.prevouts.Nodup
      ∧ ∀ o ∈ placed.2.prevouts, Spendable reader index o := by
    rw [CTransaction.prevouts]
    split_ifs with hcoinbase
    · exact ⟨List.nodup_nil, fun _ hmem => absurd hmem List.not_mem_nil⟩
    · obtain ⟨nValueIn, nValueOut, hconnects⟩ :=
        hconnects (Bool.eq_false_of_not_eq_true hcoinbase)
      exact ⟨hchecked.nodup, hconnects.spendable_prevouts⟩
  have hslots := totalUnspent_setSlots h hpos hspends.1 hspends.2
  have hstate := h.setSlots hpos placed.2.prevouts
  -- an entry that is overwritten held no negative value
  have hold : 0 ≤ ((setSlots placed.1 index placed.2.prevouts)[placed.2.getHash env.crypto]?).elim
      0 (fun txindex => unspentValue reader.disk txindex) := by
    cases hget : (setSlots placed.1 index placed.2.prevouts)[placed.2.getHash env.crypto]? with
    | none => rfl
    | some txindex =>
      rw [Option.elim_some, unspentValue]
      cases hdisk : reader.disk txindex.pos with
      | none => rfl
      | some tx =>
        apply unspentSum_nonneg
        intro n p txout hslot hnull hout
        apply hstate.moneyRange _ txindex tx n p txout hget hdisk hslot hnull hout
  have hnew : unspentValue reader.disk (CTxIndex.unspent placed.1 placed.2.vout.length)
      = placed.2.valueOut := by
    rw [unspentValue, CTxIndex.unspent, hread, Option.elim_some, unspentSum_unspent]
    rfl
  rw [addTx, totalUnspent, TreeMap.sum_insert, ← totalUnspent, hslots, hnew]
  omega

end Transaction

/-! ## A block -/

section Block

variable {env : Env} {reader : TxReader} {fStrict : Bool} {pindex : CBlockIndex}

/-- The value the coinbases among the transactions pay. -/
def coinbaseValue (placed : List (CDiskTxPos × CTransaction)) : ℤ :=
  (placed.map (fun p => if p.2.isCoinBase then p.2.valueOut else 0)).sum

/-- Transactions that connect change the total by what coinbases pay less the fees. -/
theorem totalUnspent_foldl_addTx_le
    {placed : List (CDiskTxPos × CTransaction)} {index : TxIndexMap}
    (h : MoneyState reader.disk index)
    (hplaced : ∀ p ∈ placed, p.1.isNull = false ∧ p.1 ≠ CDiskTxPos.pool ∧ p.2.Checked
      ∧ reader.disk p.1 = some p.2)
    (hconnects : TxsConnect env reader fStrict pindex index placed) :
  totalUnspent reader.disk (placed.foldl (addTx env) index)
      ≤ totalUnspent reader.disk index + coinbaseValue placed - totalFees env reader index placed
    ∧ 0 ≤ totalFees env reader index placed
    ∧ MoneyState reader.disk (placed.foldl (addTx env) index)
  := by
  induction placed generalizing index with
  | nil => simp [coinbaseValue, totalFees, h]
  | cons p placed ih =>
    obtain ⟨⟨hpos, hpool, hchecked, hread⟩, hplaced⟩ := List.forall_mem_cons.mp hplaced
    obtain ⟨hfirst, hrest⟩ := hconnects
    have hstep := totalUnspent_addTx_le h hpos hchecked hread hfirst
    obtain ⟨htotal, hfees, hstate⟩ :=
      ih (h.addTx env hpos hpool hchecked hread) hplaced hrest
    have hfee : totalUnspent reader.disk (addTx env index p)
          ≤ totalUnspent reader.disk index
            + (if p.2.isCoinBase then p.2.valueOut else 0) - txFee reader index p.2
        ∧ 0 ≤ txFee reader index p.2 := by
      cases hcoinbase : p.2.isCoinBase with
      | true =>
        rw [CTransaction.prevouts, hcoinbase] at hstep
        simp only [txFee, hcoinbase, if_true, List.map_nil, List.sum_nil] at hstep ⊢
        omega
      | false =>
        obtain ⟨nValueIn, nValueOut, hconnects⟩ := hfirst hcoinbase
        have hnonneg := (hconnects.toInt_fee hcoinbase).2
        refine ⟨?_, hnonneg⟩
        simp only [txFee, hcoinbase, Bool.false_eq_true, if_false]
        omega
    rw [List.foldl_cons, totalFees, coinbaseValue, List.map_cons, List.sum_cons, ← coinbaseValue]
    refine ⟨by omega, by omega, hstate⟩

/-- Of a checked block only the first transaction is a coinbase. -/
theorem coinbaseValue_placed
    {block : CBlock} (hchecked : block.Checked env) (pos : BlockPos) {coinbase : CTransaction}
    (hhead : block.vtx.head? = some coinbase) :
  coinbaseValue (block.placed pos) = coinbase.valueOut
  := by
  obtain ⟨tx, rest, hvtx, htx, hothers⟩ := hchecked.exists_coinbase
  rw [hvtx] at hhead
  obtain rfl := Option.some.inj hhead
  have hzero : ∀ n, coinbaseValue (txPositions pos n rest) = 0 := by
    intro n
    apply List.sum_eq_zero
    intro x hx
    obtain ⟨p, hp, rfl⟩ := List.mem_map.mp hx
    rw [if_neg]
    rw [hothers p.2 (mem_txPositions hp).1]
    decide
  rw [CBlock.placed, hvtx, txPositions, coinbaseValue, List.map_cons, List.sum_cons,
    ← coinbaseValue, hzero, if_pos htx, add_zero]

/-- A 64-bit sum of amounts that are not negative is no more than their sum. -/
theorem toInt_add_ofInt_le
    {a : Int64} {b : ℤ} (ha : 0 ≤ a.toInt) (hb : 0 ≤ b) :
  (a + Int64.ofInt b).toInt ≤ a.toInt + b
  := by
  have hsize : Int64.size = 2 ^ 64 := rfl
  rw [Int64.toInt_add, Int64.toInt_ofInt, hsize, Int.add_bmod_bmod, Int.bmod_def]
  omega

/-- A block that `ConnectBlock` accepts on an index whose unspent outputs are amounts adds at
most its subsidy to their total, when its transactions are on disk where they are indexed. -/
theorem supply_conserved
    (env : Env) (reader : TxReader) (nAdjustedTime : ℤ) (txdb txdb' : CTxDB)
    (pindex : CBlockIndex) (block : CBlock)
    (hstate : MoneyState reader.disk txdb.txIndex)
    (hstored : block.StoredAt reader.disk pindex.entry.pos)
    (h : block.connectBlock env reader nAdjustedTime txdb pindex = some txdb') :
  totalUnspent reader.disk txdb'.txIndex
      ≤ totalUnspent reader.disk txdb.txIndex
        + (getBlockValue pindex.nHeight 0 pindex.prevHash).toInt
    ∧ MoneyState reader.disk txdb'.txIndex
  := by
  have hconnects := CBlock.connectBlock_eq_some h
  have hplaced : ∀ p ∈ block.placed pindex.entry.pos, p.1.isNull = false
      ∧ p.1 ≠ CDiskTxPos.pool ∧ p.2.Checked ∧ reader.disk p.1 = some p.2 := by
    intro p hmem
    obtain ⟨htx, n, hpos⟩ := mem_txPositions hmem
    rw [hpos, ← hpos]
    refine ⟨?_, ?_, ?_, hstored p hmem⟩
    · rw [hpos]
      apply BlockPos.isNull_txPos
    · rw [hpos]
      apply BlockPos.txPos_ne_pool
    · apply CTransaction.checked_of_checkTransaction (hconnects.checked.checkTransaction _ htx)
  obtain ⟨htotal, hfees, hstate'⟩ :=
    totalUnspent_foldl_addTx_le hstate hplaced hconnects.txsConnect
  obtain ⟨coinbase, nValueOut, hhead, hout, hreward⟩ := hconnects.reward
  rw [coinbaseValue_placed hconnects.checked _ hhead] at htotal
  have hvalue := (CTransaction.getValueOut_eq_some hout).2.2
  have hwrap := toInt_add_ofInt_le
    (getBlockValue_bounds pindex.nHeight pindex.prevHash).1 hfees
  rw [getBlockValue_eq_add, Int64.le_iff_toInt_le] at hreward
  rw [hconnects.txIndex_eq]
  refine ⟨by omega, hstate'⟩

end Block

/-- A coinbase in a block that is not among the last ones. -/
def matureCoinbase : CDiskTxPos × CTransaction := (⟨2, 8, 89⟩, sampleCoinbase [1, 7] 5000)

/-- A database with one unspent output. -/
def matureDB : CTxDB := { CTxDB.empty with txIndex := addTx sampleEnv ∅ matureCoinbase }

/-- A block that spends the mature coinbase and then the output of the spending transaction. -/
def spendingBlock : CBlock :=
  let first := sampleSpend (matureCoinbase.2.getHash sampleCrypto) 4000
  CBlock.assemble sampleEnv 0 1774997000
    [sampleCoinbase [1, 2] 5000, first, sampleSpend (first.getHash sampleCrypto) 3500]

/-- The disk with the mature coinbase and the spending block. -/
def spendingReader : TxReader where
  disk pos := (matureCoinbase :: spendingBlock.placed firstPos).lookup pos
  mempool := ∅

theorem moneyState_empty (disk : CDiskTxPos → Option CTransaction) :
  MoneyState disk ∅
  := by
  constructor
  · intro hash txindex hget
    rw [ExtTreeMap.getElem?_empty] at hget
    cases hget
  · intro hash txindex tx n pos txout hget
    rw [ExtTreeMap.getElem?_empty] at hget
    cases hget

theorem spendingBlock_supply_conserved :
  ∃ txdb', spendingBlock.connectBlock sampleEnv spendingReader 1774997000 matureDB
      (sampleEntry sampleEnv firstPos spendingBlock) = some txdb'
    ∧ totalUnspent spendingReader.disk txdb'.txIndex
      ≤ totalUnspent spendingReader.disk matureDB.txIndex
        + (getBlockValue 1 0 spendingBlock.hashPrevBlock).toInt
  := by
  have hsome : (spendingBlock.connectBlock sampleEnv spendingReader 1774997000 matureDB
      (sampleEntry sampleEnv firstPos spendingBlock)).isSome = true := by decide +kernel
  obtain ⟨txdb', hconnect⟩ := Option.isSome_iff_exists.mp hsome
  have hchecked : matureCoinbase.2.Checked :=
    CTransaction.checked_of_checkTransaction (by decide)
  have hstate : MoneyState spendingReader.disk matureDB.txIndex :=
    (moneyState_empty _).addTx _ (by decide) (by decide) hchecked (by decide)
  have hstored : spendingBlock.StoredAt spendingReader.disk firstPos := by
    intro placed hmem
    revert placed
    decide +kernel
  refine ⟨txdb', hconnect, ?_⟩
  exact (supply_conserved sampleEnv spendingReader 1774997000 matureDB txdb'
    (sampleEntry sampleEnv firstPos spendingBlock) spendingBlock hstate hstored hconnect).1

end CorgiCoin
