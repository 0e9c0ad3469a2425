import CorgiCoin.MemPool

/-!
# The fees that are demanded

`GetMinFee` over the integers: a fee for each started kilobyte, which is left out in the free area,
and the same for each small output.  A transaction that nearly fills a block pays a multiple.
-/

namespace CorgiCoin

/-- The number of outputs that are below a coin. -/
def CTransaction.dustOutputs (tx : CTransaction) : ℕ :=
  tx.vout.countP (fun txout => decide (txout.nValue < COIN))

/-- The fee for the kilobytes that were started and for the small outputs. -/
def sizeFee (fFree : Bool) (nBytes nDust : ℕ) : ℤ :=
  (if fFree then 0 else ((1 + nBytes / 1000 : ℕ) : ℤ) * 100000000) + nDust * 100000000

theorem sizeFee_nonneg (fFree : Bool) (nBytes nDust : ℕ) : 0 ≤ sizeFee fFree nBytes nDust := by
  rw [sizeFee]
  split_ifs <;> omega

/-- A larger size costs no less. -/
theorem sizeFee_le
    {fFree fFree' : Bool} {nBytes nBytes' : ℕ} (nDust : ℕ) (hfree : fFree' = true → fFree = true)
    (h : nBytes ≤ nBytes') :
  sizeFee fFree nBytes nDust ≤ sizeFee fFree' nBytes' nDust
  := by
  have hdiv : nBytes / 1000 ≤ nBytes' / 1000 := Nat.div_le_div_right h
  rw [sizeFee, sizeFee]
  cases fFree' with
  | true =>
    rw [hfree rfl, if_pos rfl, if_pos rfl]
  | false =>
    rw [if_neg Bool.false_ne_true]
    split_ifs <;> omega

theorem foldl_dust
    (vout : List CTxOut) {nMinFee : Int64} (hlow : 0 ≤ nMinFee.toInt)
    (hhigh : nMinFee.toInt + vout.length * 100000000 < 2 ^ 63) :
  (vout.foldl (fun nMinFee txout => if txout.nValue < COIN then nMinFee + MIN_TX_FEE else nMinFee)
      nMinFee).toInt
    = nMinFee.toInt + (vout.countP (fun txout => decide (txout.nValue < COIN)) : ℕ) * 100000000
  := by
  have hfee : MIN_TX_FEE.toInt = 100000000 := by decide
  induction vout generalizing nMinFee with
  | nil => simp
  | cons txout vout ih =>
    rw [List.length_cons] at hhigh
    push_cast at hhigh
    rw [List.foldl_cons, List.countP_cons]
    by_cases hdust : txout.nValue < COIN
    · have hadd : (nMinFee + MIN_TX_FEE).toInt = nMinFee.toInt + 100000000 := by
        rw [Int64.toInt_add, hfee, Int.bmod_def]
        omega
      rw [if_pos hdust, ih (by omega) (by omega), hadd, if_pos (decide_eq_true hdust)]
      push_cast
      ring
    · rw [if_neg hdust, ih (by omega) (by omega), if_neg (by simpa using hdust), Nat.add_zero]

/-- The fee of the bytes alone. -/
theorem toInt_bytesFee {nBytes : ℕ} (fFree : Bool) (hbytes : nBytes < 2 ^ 32) :
  (if fFree then (0 : Int64) else (1 + Int64.ofNat (nBytes / 1000)) * MIN_TX_FEE).toInt
    = if fFree then 0 else ((1 + nBytes / 1000 : ℕ) : ℤ) * 100000000
  := by
  cases fFree with
  | true => rfl
  | false =>
    rw [if_neg Bool.false_ne_true, if_neg Bool.false_ne_true, Int64.toInt_mul, Int64.toInt_add,
      Int64.toInt_ofNat_of_lt (by omega)]
    have hone : (1 : Int64).toInt = 1 := by decide
    have hfee : MIN_TX_FEE.toInt = 100000000 := by decide
    rw [hone, hfee, Int.bmod_def, Int.bmod_def]
    push_cast
    omega

/-- The fee before the block approaches full. -/
theorem toInt_sizeFee
    {tx : CTransaction} {nBytes : ℕ} (fFree : Bool) (hbytes : nBytes < 2 ^ 32)
    (hvout : tx.vout.length < 9 * 10 ^ 10) :
  (tx.vout.foldl (fun nMinFee txout => if txout.nValue < COIN then nMinFee + MIN_TX_FEE else nMinFee)
      (if fFree then 0 else (1 + Int64.ofNat (nBytes / 1000)) * MIN_TX_FEE)).toInt
    = sizeFee fFree nBytes tx.dustOutputs
  := by
  have hstart := toInt_bytesFee fFree hbytes
  rw [foldl_dust, hstart, sizeFee, CTransaction.dustOutputs]
  · rw [hstart]
    split_ifs <;> omega
  · rw [hstart]
    clear hstart
    split_ifs <;> omega

theorem baseFee_eq (mode : GetMinFeeMode) :
  (if mode = .relay then MIN_RELAY_TX_FEE else MIN_TX_FEE) = MIN_TX_FEE
  := by
  split_ifs <;> rfl

theorem toInt_cut_of_nonneg {nMinFee : Int64} (h : 0 ≤ nMinFee.toInt) :
  (if moneyRange nMinFee then nMinFee else MAX_MONEY).toInt = min nMinFee.toInt (10 ^ 18)
  := by
  have hmax : MAX_MONEY.toInt = 10 ^ 18 := by decide
  split_ifs with hrange
  · rw [moneyRange_iff] at hrange
    omega
  · rw [moneyRange_iff] at hrange
    omega

/-- The fee of a transaction in the first half of a block, or outside of one: an amount in any case. -/
theorem toInt_getMinFee_cut
    {tx : CTransaction} {nBlockSize : UInt32} {fAllowFree : Bool} {mode : GetMinFeeMode}
    (hvout : tx.vout.length < 9 * 10 ^ 10)
    (hsmall : ¬(nBlockSize ≠ 1 ∧ nBlockSize + tx.getSerializeSize ≥ MAX_BLOCK_SIZE_GEN / 2)) :
  (tx.getMinFee nBlockSize fAllowFree mode).toInt
    = min (sizeFee (fAllowFree && (if nBlockSize = 1 then decide (tx.getSerializeSize < 10000)
        else decide (nBlockSize + tx.getSerializeSize < 27000)))
      tx.getSerializeSize.toNat tx.dustOutputs) (10 ^ 18)
  := by
  rw [CTransaction.getMinFee]
  simp only [baseFee_eq]
  rw [if_neg hsmall]
  have hfee := @toInt_sizeFee tx _ (fAllowFree && (if nBlockSize = 1 then
    decide (tx.getSerializeSize < 10000) else decide (nBlockSize + tx.getSerializeSize < 27000)))
    tx.getSerializeSize.toNat_lt hvout
  rw [toInt_cut_of_nonneg (by rw [hfee]; exact sizeFee_nonneg _ _ _), hfee]

theorem toInt_getMinFee
    {tx : CTransaction} {nBlockSize : UInt32} {fAllowFree : Bool} {mode : GetMinFeeMode}
    (hvout : tx.vout.length < 2 ^ 32)
    (hsmall : ¬(nBlockSize ≠ 1 ∧ nBlockSize + tx.getSerializeSize ≥ MAX_BLOCK_SIZE_GEN / 2)) :
  (tx.getMinFee nBlockSize fAllowFree mode).toInt
    = sizeFee (fAllowFree && (if nBlockSize = 1 then decide (tx.getSerializeSize < 10000)
        else decide (nBlockSize + tx.getSerializeSize < 27000)))
      tx.getSerializeSize.toNat tx.dustOutputs
  := by
  have hbytes := tx.getSerializeSize.toNat_lt
  have hdust : tx.dustOutputs ≤ tx.vout.length := List.countP_le_length
  rw [toInt_getMinFee_cut (by omega) hsmall, min_eq_left]
  rw [sizeFee]
  split_ifs <;> omega

/-! ## Relaying -/

/-- The fee that is demanded before a transaction of the given size is relayed. -/
def relayFee (nBytes nDust : ℕ) : ℤ :=
  let nNewBlockSize := 1000 + nBytes
  if 500000 ≤ nNewBlockSize then 10 ^ 18
  else
    let nMinFee := sizeFee (decide (nNewBlockSize < 27000)) nBytes nDust
    if 250000 ≤ nNewBlockSize then nMinFee * (500000 / (500000 - nNewBlockSize) : ℕ) else nMinFee

/-- A multiple of the fee that is still an amount. -/
theorem toInt_mul_of_moneyRange
    {nMinFee : Int64} {nFactor : ℕ} (hnonneg : 0 ≤ nMinFee.toInt)
    (hfactor : nFactor < 2 ^ 63) (hproduct : nMinFee.toInt * nFactor ≤ 10 ^ 18) :
  (if moneyRange (nMinFee * Int64.ofNat nFactor) then nMinFee * Int64.ofNat nFactor
    else MAX_MONEY).toInt = nMinFee.toInt * nFactor
  := by
  have hlow : 0 ≤ nMinFee.toInt * nFactor := Int.mul_nonneg hnonneg (Int.natCast_nonneg _)
  have hmul : (nMinFee * Int64.ofNat nFactor).toInt = nMinFee.toInt * nFactor := by
    rw [Int64.toInt_mul, Int64.toInt_ofNat_of_lt hfactor, Int.bmod_def]
    omega
  rw [if_pos, hmul]
  rw [moneyRange_iff, hmul]
  exact ⟨hlow, hproduct⟩

theorem toInt_getMinFee_relay
    {tx : CTransaction} {nBytes : ℕ} (hsize : tx.getSerializeSize = UInt32.ofNat nBytes)
    (hbytes : nBytes < 2 ^ 32 - 1000) (hvout : tx.vout.length < 1000) :
  (tx.getMinFee 1000 true .relay).toInt = relayFee nBytes tx.dustOutputs
  := by
  have hnat : tx.getSerializeSize.toNat = nBytes := by
    rw [hsize, UInt32.toNat_ofNat']
    omega
  have hnew : (1000 + tx.getSerializeSize).toNat = 1000 + nBytes := by
    rw [UInt32.toNat_add, hnat]
    change (1000 + nBytes) % 2 ^ 32 = _
    omega
  have hgen : MAX_BLOCK_SIZE_GEN.toNat = 500000 := by decide
  have hhalf : (MAX_BLOCK_SIZE_GEN / 2).toNat = 250000 := by decide
  have hfree : decide (1000 + tx.getSerializeSize < 27000) = decide (1000 + nBytes < 27000) := by
    rw [decide_eq_decide, UInt32.lt_iff_toNat_lt, hnew]
    rfl
  have hcrowded : 1000 + tx.getSerializeSize ≥ MAX_BLOCK_SIZE_GEN / 2 ↔ 250000 ≤ 1000 + nBytes := by
    rw [ge_iff_le, UInt32.le_iff_toNat_le, hhalf, hnew]
  have hover : 1000 + tx.getSerializeSize ≥ MAX_BLOCK_SIZE_GEN ↔ 500000 ≤ 1000 + nBytes := by
    rw [ge_iff_le, UInt32.le_iff_toNat_le, hgen, hnew]
  have hdust : tx.dustOutputs ≤ tx.vout.length := List.countP_le_length
  rw [relayFee]
  by_cases hsmall : 250000 ≤ 1000 + nBytes
  · rw [CTransaction.getMinFee]
    simp only [if_true, MIN_RELAY_TX_FEE]
    rw [if_pos ⟨by decide, hcrowded.mpr hsmall⟩]
    by_cases hfull : 500000 ≤ 1000 + nBytes
    · rw [if_pos (hover.mpr hfull), if_pos hfull]
      decide
    · have hfactor : (MAX_BLOCK_SIZE_GEN / (MAX_BLOCK_SIZE_GEN - (1000 + tx.getSerializeSize))).toNat
          = 500000 / (500000 - (1000 + nBytes)) := by
        rw [UInt32.toNat_div, UInt32.toNat_sub_of_le, hgen, hnew]
        rw [UInt32.le_iff_toNat_le, hgen, hnew]
        omega
      have hfree' : decide (1000 + nBytes < 27000) = false := by
        rw [decide_eq_false_iff_not]
        omega
      have hfee := @toInt_sizeFee tx nBytes false (by omega) (by omega)
      have hcount : 500000 / (500000 - (1000 + nBytes)) ≤ 500000 := Nat.div_le_self _ _
      have hbase : sizeFee false nBytes tx.dustOutputs ≤ 150000000000 := by
        rw [sizeFee, if_neg Bool.false_ne_true]
        omega
      have hnonneg := sizeFee_nonneg false nBytes tx.dustOutputs
      have hproduct : sizeFee false nBytes tx.dustOutputs
          * (500000 / (500000 - (1000 + nBytes)) : ℕ) ≤ 150000000000 * 500000 :=
        Int.mul_le_mul hbase (by omega) (Int.natCast_nonneg _) (by decide)
      have hone : ¬(1000 : UInt32) = 1 := by decide
      rw [if_neg (mt hover.mp hfull), if_neg hfull, if_pos hsmall, hfactor, hnat, if_neg hone,
        Bool.true_and, hfree, hfree', toInt_mul_of_moneyRange, hfee]
      · rw [hfee]
        exact hnonneg
      · omega
      · rw [hfee]
        exact hproduct.trans (by decide)
  · have hfull : ¬500000 ≤ 1000 + nBytes := by omega
    have hone : ¬(1000 : UInt32) = 1 := by decide
    rw [toInt_getMinFee (by omega) (fun h => hsmall (hcrowded.mp h.2)), if_neg hone, Bool.true_and,
      hfree, hnat, if_neg hfull, if_neg hsmall]

theorem relayFee_mono {nBytes nBytes' nDust : ℕ} (h : nBytes ≤ nBytes') (hdust : nDust < 1000) :
  relayFee nBytes nDust ≤ relayFee nBytes' nDust
  := by
  have hsize : sizeFee (decide (1000 + nBytes < 27000)) nBytes nDust
      ≤ sizeFee (decide (1000 + nBytes' < 27000)) nBytes' nDust := by
    apply sizeFee_le nDust _ h
    intro hfree
    rw [decide_eq_true_iff] at hfree ⊢
    omega
  have hnonneg := sizeFee_nonneg (decide (1000 + nBytes < 27000)) nBytes nDust
  rw [relayFee, relayFee]
  by_cases hfull' : 500000 ≤ 1000 + nBytes'
  · rw [if_pos hfull']
    by_cases hfull : 500000 ≤ 1000 + nBytes
    · rw [if_pos hfull]
    · -- the largest multiple is less than the largest amount
      have hbase : sizeFee (decide (1000 + nBytes < 27000)) nBytes nDust ≤ 150000000000 := by
        rw [sizeFee]
        split_ifs <;> omega
      have hcount : 500000 / (500000 - (1000 + nBytes)) ≤ 500000 := Nat.div_le_self _ _
      have hproduct : sizeFee (decide (1000 + nBytes < 27000)) nBytes nDust
          * (500000 / (500000 - (1000 + nBytes)) : ℕ) ≤ 150000000000 * 500000 :=
        Int.mul_le_mul hbase (by omega) (Int.natCast_nonneg _) (by decide)
      rw [if_neg hfull]
      split_ifs
      · exact hproduct.trans (by decide)
      · exact hbase.trans (by decide)
  · rw [if_neg hfull', if_neg (by omega)]
    by_cases hsmall : 250000 ≤ 1000 + nBytes
    · rw [if_pos hsmall, if_pos (by omega)]
      have hfactor : 500000 / (500000 - (1000 + nBytes)) ≤ 500000 / (500000 - (1000 + nBytes')) :=
        Nat.div_le_div_left (by omega) (by omega)
      exact Int.mul_le_mul hsize (by omega) (Int.natCast_nonneg _) (hnonneg.trans hsize)
    · rw [if_neg hsmall]
      split_ifs with hsmall'
      · have hfactor : 1 ≤ 500000 / (500000 - (1000 + nBytes')) :=
          (Nat.one_le_div_iff (by omega)).mpr (by omega)
        calc sizeFee (decide (1000 + nBytes < 27000)) nBytes nDust
            ≤ sizeFee (decide (1000 + nBytes' < 27000)) nBytes' nDust * 1 := by rwa [mul_one]
          _ ≤ _ := Int.mul_le_mul_of_nonneg_left (by exact_mod_cast hfactor) (hnonneg.trans hsize)
      · exact hsize

end CorgiCoin
