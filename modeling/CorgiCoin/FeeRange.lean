import CorgiCoin.MinFee

/-!
# The range of the fees

`GetMinFee` with every step checked: in a transaction no larger than a block the fee of the bytes and
of the small outputs, times the factor of a nearly full block, still fits 64 bits.  The fee is an
amount, and in a fuller block it is no lower.
-/

namespace CorgiCoin

/-! ## Checked arithmetic -/

/-- A number, where it fits 64 bits. -/
def inInt64 (n : ℤ) : Option Int64 := if -2 ^ 63 ≤ n ∧ n < 2 ^ 63 then some (Int64.ofInt n) else none

/-- `a + b`, where it does not overflow. -/
def checkedAdd (a b : Int64) : Option Int64 := inInt64 (a.toInt + b.toInt)

/-- `a * b`, where it does not overflow. -/
def checkedMul (a b : Int64) : Option Int64 := inInt64 (a.toInt * b.toInt)

/-- `a / b`, where `b` is not zero. -/
def checkedDiv (a b : UInt32) : Option UInt32 := if b = 0 then none else some (a / b)

theorem checkedAdd_eq {a b : Int64} (hlow : -2 ^ 63 ≤ a.toInt + b.toInt) (hhigh : a.toInt + b.toInt < 2 ^ 63) :
  checkedAdd a b = some (a + b)
  := by
  rw [checkedAdd, inInt64, if_pos ⟨hlow, hhigh⟩, Int64.ofInt_add, Int64.ofInt_toInt, Int64.ofInt_toInt]

theorem checkedMul_eq {a b : Int64} (hlow : -2 ^ 63 ≤ a.toInt * b.toInt) (hhigh : a.toInt * b.toInt < 2 ^ 63) :
  checkedMul a b = some (a * b)
  := by
  rw [checkedMul, inInt64, if_pos ⟨hlow, hhigh⟩, Int64.ofInt_mul, Int64.ofInt_toInt, Int64.ofInt_toInt]

namespace CTransaction

/-- `GetMinFee`; `none` where a 64-bit operation overflows or a division is by zero. -/
def getMinFeeChecked (tx : CTransaction) (nBlockSize : UInt32) (fAllowFree : Bool)
    (mode : GetMinFeeMode) : Option Int64 := do
  let nBaseFee := if mode = .relay then MIN_RELAY_TX_FEE else MIN_TX_FEE
  let nBytes := tx.getSerializeSize
  let nNewBlockSize := nBlockSize + nBytes
  let nThousands ← checkedAdd 1 (Int64.ofNat (nBytes.toNat / 1000))
  let nMinFee ← checkedMul nThousands nBaseFee
  let fFree := fAllowFree
    && (if nBlockSize = 1 then decide (nBytes < 10000) else decide (nNewBlockSize < 27000))
  let nMinFee := if fFree then 0 else nMinFee
  let nMinFee ← tx.vout.foldlM (fun nMinFee txout =>
    if txout.nValue < COIN then checkedAdd nMinFee nBaseFee else some nMinFee) nMinFee
  let clamp (nMinFee : Int64) : Int64 := if moneyRange nMinFee then nMinFee else MAX_MONEY
  if nBlockSize ≠ 1 ∧ nNewBlockSize ≥ MAX_BLOCK_SIZE_GEN / 2 then
    if nNewBlockSize ≥ MAX_BLOCK_SIZE_GEN then some MAX_MONEY
    else do
      let nFactor ← checkedDiv MAX_BLOCK_SIZE_GEN (MAX_BLOCK_SIZE_GEN - nNewBlockSize)
      let nMinFee ← checkedMul nMinFee (Int64.ofNat nFactor.toNat)
      some (clamp nMinFee)
  else some (clamp nMinFee)

/-! ## The size of a transaction -/

theorem length_vout_le (tx : CTransaction) : 9 * tx.vout.length ≤ tx.serialize.length
  := by
  have hcompact : ∀ n, 1 ≤ (writeCompactSize n).length := by
    intro n
    rw [writeCompactSize]
    split_ifs <;> simp only [List.length_cons, Codec.length_toLE] <;> omega
  have hout : ∀ txout : CTxOut, 9 ≤ txout.serialize.length := by
    intro txout
    have hlength := hcompact txout.scriptPubKey.length
    rw [CTxOut.serialize, serializeBytes, serializeInt64]
    simp only [List.length_append, Codec.length_toLE]
    omega
  have hle := mul_length_le_serializeVector hout tx.vout
  simp only [serialize, List.length_append]
  omega

theorem toNat_getSerializeSize {tx : CTransaction} (hsize : tx.serialize.length < 2 ^ 32) :
  tx.getSerializeSize.toNat = tx.serialize.length
  := by
  rw [lawful.size_eq, UInt32.toNat_ofNat', Nat.mod_eq_of_lt hsize]

theorem dustOutputs_le (tx : CTransaction) : tx.dustOutputs ≤ tx.vout.length := List.countP_le_length

/-! ## No operation overflows -/

theorem foldlM_dust
    (vout : List CTxOut) {nMinFee : Int64} (hlow : 0 ≤ nMinFee.toInt)
    (hhigh : nMinFee.toInt + vout.length * 100000000 < 2 ^ 63) :
  vout.foldlM (fun nMinFee txout =>
      if txout.nValue < COIN then checkedAdd nMinFee MIN_TX_FEE else some nMinFee) nMinFee
    = some (vout.foldl (fun nMinFee txout =>
      if txout.nValue < COIN then nMinFee + MIN_TX_FEE else nMinFee) nMinFee)
  := by
  have hfee : MIN_TX_FEE.toInt = 100000000 := by decide
  induction vout generalizing nMinFee with
  | nil => rfl
  | cons txout vout ih =>
    rw [List.length_cons] at hhigh
    push_cast at hhigh
    rw [List.foldlM_cons, List.foldl_cons]
    split_ifs with hdust
    · have hadd : (nMinFee + MIN_TX_FEE).toInt = nMinFee.toInt + 100000000 := by
        rw [Int64.toInt_add, hfee, Int.bmod_def]
        omega
      rw [checkedAdd_eq (by omega) (by omega), Option.bind_eq_bind, Option.bind_some,
        ih (by omega) (by omega)]
    · rw [Option.bind_eq_bind, Option.bind_some, ih (by omega) (by omega)]

/-- The fee of the bytes is computed without overflow. -/
theorem checked_thousands {nBytes : ℕ} (h : nBytes < 2 ^ 32) :
  (checkedAdd 1 (Int64.ofNat (nBytes / 1000))).bind (fun nThousands => checkedMul nThousands MIN_TX_FEE)
    = some ((1 + Int64.ofNat (nBytes / 1000)) * MIN_TX_FEE)
  := by
  have hone : (1 : Int64).toInt = 1 := by decide
  have hfee : MIN_TX_FEE.toInt = 100000000 := by decide
  have hthousands : (Int64.ofNat (nBytes / 1000)).toInt = (nBytes / 1000 : ℕ) :=
    Int64.toInt_ofNat_of_lt (by omega)
  have hadd : (1 + Int64.ofNat (nBytes / 1000)).toInt = 1 + (nBytes / 1000 : ℕ) := by
    rw [Int64.toInt_add, hone, hthousands, Int.bmod_def]
    omega
  rw [checkedAdd_eq, Option.bind_some, checkedMul_eq]
  · rw [hadd, hfee]
    omega
  · rw [hadd, hfee]
    omega
  · rw [hone, hthousands]
    omega
  · rw [hone, hthousands]
    omega

/-- The fee of a transaction that fills a block nearly, times the factor for it, fits 64 bits. -/
theorem sizeFee_mul_lt {nNew nBytes nDust : ℕ} (fFree : Bool)
    (hnew : nNew < 500000) (hbytes : nBytes ≤ nNew) (hdust : 9 * nDust ≤ nBytes) :
  sizeFee fFree nBytes nDust * (500000 / (500000 - nNew) : ℕ) < 2 ^ 63
  := by
  have hbase : sizeFee fFree nBytes nDust ≤ 5605500000000 := by
    rw [sizeFee]
    split_ifs <;> omega
  have hfactor : ((500000 / (500000 - nNew) : ℕ) : ℤ) ≤ 500000 :=
    Int.ofNat_le.mpr (Nat.div_le_self _ _)
  have hproduct : sizeFee fFree nBytes nDust * (500000 / (500000 - nNew) : ℕ)
      ≤ 5605500000000 * 500000 :=
    Int.mul_le_mul hbase hfactor (Int.natCast_nonneg _) (by decide)
  exact lt_of_le_of_lt hproduct (by decide)

/-! ## The fee over the integers -/

/-- The fee in a block that the transaction is not the first one of. -/
def blockFee (fAllowFree : Bool) (nBlockSize nBytes nDust : ℕ) : ℤ :=
  let nNewBlockSize := nBlockSize + nBytes
  if 500000 ≤ nNewBlockSize then 10 ^ 18
  else
    let nMinFee := sizeFee (fAllowFree && decide (nNewBlockSize < 27000)) nBytes nDust
    min (if 250000 ≤ nNewBlockSize then nMinFee * (500000 / (500000 - nNewBlockSize) : ℕ)
      else nMinFee) (10 ^ 18)

/-- In a fuller block the fee is no lower. -/
theorem blockFee_mono (fAllowFree : Bool) {nBlockSize nBlockSize' : ℕ} (nBytes nDust : ℕ)
    (h : nBlockSize ≤ nBlockSize') :
  blockFee fAllowFree nBlockSize nBytes nDust ≤ blockFee fAllowFree nBlockSize' nBytes nDust
  := by
  rw [blockFee, blockFee]
  by_cases hfull' : 500000 ≤ nBlockSize' + nBytes
  · rw [if_pos hfull']
    split_ifs
    · exact le_rfl
    · exact min_le_right _ _
    · exact min_le_right _ _
  · have hfull : ¬500000 ≤ nBlockSize + nBytes := by omega
    rw [if_neg hfull', if_neg hfull]
    apply min_le_min_right
    have hsize : sizeFee (fAllowFree && decide (nBlockSize + nBytes < 27000)) nBytes nDust
        ≤ sizeFee (fAllowFree && decide (nBlockSize' + nBytes < 27000)) nBytes nDust := by
      apply sizeFee_le nDust _ le_rfl
      rw [Bool.and_eq_true, Bool.and_eq_true, decide_eq_true_iff, decide_eq_true_iff]
      rintro ⟨hallow, hfree⟩
      exact ⟨hallow, by omega⟩
    have hnonneg := sizeFee_nonneg (fAllowFree && decide (nBlockSize + nBytes < 27000)) nBytes nDust
    by_cases hcrowded : 250000 ≤ nBlockSize + nBytes
    · have hfactor : 500000 / (500000 - (nBlockSize + nBytes))
          ≤ 500000 / (500000 - (nBlockSize' + nBytes)) := Nat.div_le_div_left (by omega) (by omega)
      rw [if_pos hcrowded, if_pos (by omega)]
      exact Int.mul_le_mul hsize (by omega) (Int.natCast_nonneg _) (hnonneg.trans hsize)
    · rw [if_neg hcrowded]
      split_ifs with hcrowded'
      · have hfactor : 1 ≤ 500000 / (500000 - (nBlockSize' + nBytes)) :=
          (Nat.one_le_div_iff (by omega)).mpr (by omega)
        have hmul := Int.mul_le_mul_of_nonneg_left (Int.ofNat_le.mpr hfactor) (hnonneg.trans hsize)
        rw [Nat.cast_one, mul_one] at hmul
        exact hsize.trans hmul
      · exact hsize

theorem toInt_clamp {nMinFee : Int64} (h : 0 ≤ nMinFee.toInt) :
  (if moneyRange nMinFee then nMinFee else MAX_MONEY).toInt = min nMinFee.toInt (10 ^ 18)
  := by
  have hmax : MAX_MONEY.toInt = 10 ^ 18 := by decide
  have hrange := moneyRange_iff nMinFee
  split_ifs with hmoney
  · rw [min_eq_left (hrange.mp hmoney).2]
  · rw [hmax, min_eq_right]
    by_contra hless
    exact hmoney (hrange.mpr ⟨h, by omega⟩)

theorem moneyRange_clamp (nMinFee : Int64) :
  moneyRange (if moneyRange nMinFee then nMinFee else MAX_MONEY) = true
  := by
  split_ifs with hmoney
  · exact hmoney
  · decide

theorem moneyRange_getMinFee
    (tx : CTransaction) (nBlockSize : UInt32) (fAllowFree : Bool) (mode : GetMinFeeMode) :
  moneyRange (tx.getMinFee nBlockSize fAllowFree mode) = true
  := by
  rw [getMinFee]
  simp only [baseFee_eq]
  generalize tx.vout.foldl _ _ = nMinFee
  by_cases hcrowded : nBlockSize ≠ 1 ∧ nBlockSize + tx.getSerializeSize ≥ MAX_BLOCK_SIZE_GEN / 2
  · rw [if_pos hcrowded]
    by_cases hfull : nBlockSize + tx.getSerializeSize ≥ MAX_BLOCK_SIZE_GEN
    · rw [if_pos hfull]
      decide
    · rw [if_neg hfull]
      apply moneyRange_clamp
  · rw [if_neg hcrowded]
    apply moneyRange_clamp

/-! ## A transaction in a block -/

/-- The sizes of a transaction and of the block before it, without overflow of 32 bits. -/
structure InBlock (tx : CTransaction) (nBlockSize : UInt32) : Prop where
  size : tx.serialize.length ≤ 1000000
  block : nBlockSize.toNat < 1000000

section InBlock

variable {tx : CTransaction} {nBlockSize : UInt32}

theorem InBlock.toNat_size (h : InBlock tx nBlockSize) :
  tx.getSerializeSize.toNat = tx.serialize.length
  := by
  have hsize := h.size
  apply toNat_getSerializeSize
  omega

theorem InBlock.toNat_new (h : InBlock tx nBlockSize) :
  (nBlockSize + tx.getSerializeSize).toNat = nBlockSize.toNat + tx.serialize.length
  := by
  have hsize := h.size
  have hblock := h.block
  rw [UInt32.toNat_add, h.toNat_size]
  omega

theorem InBlock.full_iff (h : InBlock tx nBlockSize) :
  nBlockSize + tx.getSerializeSize ≥ MAX_BLOCK_SIZE_GEN
    ↔ 500000 ≤ nBlockSize.toNat + tx.serialize.length
  := by
  have hgen : MAX_BLOCK_SIZE_GEN.toNat = 500000 := by decide
  rw [ge_iff_le, UInt32.le_iff_toNat_le, hgen, h.toNat_new]

theorem InBlock.crowded_iff (h : InBlock tx nBlockSize) :
  nBlockSize + tx.getSerializeSize ≥ MAX_BLOCK_SIZE_GEN / 2
    ↔ 250000 ≤ nBlockSize.toNat + tx.serialize.length
  := by
  have hhalf : (MAX_BLOCK_SIZE_GEN / 2).toNat = 250000 := by decide
  rw [ge_iff_le, UInt32.le_iff_toNat_le, hhalf, h.toNat_new]

theorem InBlock.free_eq (h : InBlock tx nBlockSize) :
  decide (nBlockSize + tx.getSerializeSize < 27000)
    = decide (nBlockSize.toNat + tx.serialize.length < 27000)
  := by
  rw [decide_eq_decide, UInt32.lt_iff_toNat_lt, h.toNat_new]
  rfl

theorem InBlock.toNat_room (h : InBlock tx nBlockSize)
    (hroom : ¬500000 ≤ nBlockSize.toNat + tx.serialize.length) :
  (MAX_BLOCK_SIZE_GEN - (nBlockSize + tx.getSerializeSize)).toNat
    = 500000 - (nBlockSize.toNat + tx.serialize.length)
  := by
  have hgen : MAX_BLOCK_SIZE_GEN.toNat = 500000 := by decide
  rw [UInt32.toNat_sub_of_le, hgen, h.toNat_new]
  rw [UInt32.le_iff_toNat_le, hgen, h.toNat_new]
  omega

/-- The factor for a nearly full block. -/
theorem InBlock.toNat_factor (h : InBlock tx nBlockSize)
    (hroom : ¬500000 ≤ nBlockSize.toNat + tx.serialize.length) :
  checkedDiv MAX_BLOCK_SIZE_GEN (MAX_BLOCK_SIZE_GEN - (nBlockSize + tx.getSerializeSize))
      = some (MAX_BLOCK_SIZE_GEN / (MAX_BLOCK_SIZE_GEN - (nBlockSize + tx.getSerializeSize)))
    ∧ (MAX_BLOCK_SIZE_GEN / (MAX_BLOCK_SIZE_GEN - (nBlockSize + tx.getSerializeSize))).toNat
      = 500000 / (500000 - (nBlockSize.toNat + tx.serialize.length))
  := by
  have hgen : MAX_BLOCK_SIZE_GEN.toNat = 500000 := by decide
  constructor
  · rw [checkedDiv, if_neg]
    intro hzero
    have hnat := h.toNat_room hroom
    rw [hzero] at hnat
    have hcast : (0 : UInt32).toNat = 0 := rfl
    omega
  · rw [UInt32.toNat_div, hgen, h.toNat_room hroom]

theorem InBlock.length_vout_lt (h : InBlock tx nBlockSize) : tx.vout.length < 9 * 10 ^ 10
  := by
  have hle := tx.length_vout_le
  have hsize := h.size
  omega

theorem InBlock.toInt_sizeFee (h : InBlock tx nBlockSize) (fFree : Bool) :
  (tx.vout.foldl (fun nMinFee txout => if txout.nValue < COIN then nMinFee + MIN_TX_FEE else nMinFee)
      (if fFree then 0 else
        (1 + Int64.ofNat (tx.getSerializeSize.toNat / 1000)) * MIN_TX_FEE)).toInt
    = sizeFee fFree tx.serialize.length tx.dustOutputs
  := by
  rw [CorgiCoin.toInt_sizeFee fFree (UInt32.toNat_lt _) h.length_vout_lt, h.toNat_size]

/-- No 64-bit operation of `GetMinFee` overflows, and none divides by zero. -/
theorem InBlock.getMinFeeChecked_eq
    (h : InBlock tx nBlockSize) (fAllowFree : Bool) (mode : GetMinFeeMode) :
  tx.getMinFeeChecked nBlockSize fAllowFree mode = some (tx.getMinFee nBlockSize fAllowFree mode)
  := by
  have hsize := h.size
  have hvout := tx.length_vout_le
  have hbytes := tx.getSerializeSize.toNat_lt
  rw [getMinFeeChecked, getMinFee]
  simp only [baseFee_eq, Option.bind_eq_bind]
  rw [← Option.bind_assoc, checked_thousands hbytes, Option.bind_some]
  generalize (fAllowFree && (if nBlockSize = 1 then decide (tx.getSerializeSize < 10000)
    else decide (nBlockSize + tx.getSerializeSize < 27000))) = fFree
  have hstart := toInt_bytesFee fFree hbytes
  rw [h.toNat_size] at hstart
  rw [foldlM_dust, Option.bind_some]
  · have hfee := h.toInt_sizeFee fFree
    have hnonneg := sizeFee_nonneg fFree tx.serialize.length tx.dustOutputs
    rw [← hfee] at hnonneg
    generalize tx.vout.foldl _ _ = nMinFee at hfee hnonneg ⊢
    by_cases hcrowded : nBlockSize ≠ 1 ∧ nBlockSize + tx.getSerializeSize ≥ MAX_BLOCK_SIZE_GEN / 2
    · rw [if_pos hcrowded, if_pos hcrowded]
      by_cases hfull : nBlockSize + tx.getSerializeSize ≥ MAX_BLOCK_SIZE_GEN
      · rw [if_pos hfull, if_pos hfull]
      · rw [if_neg hfull, if_neg hfull]
        rw [h.full_iff] at hfull
        obtain ⟨hdiv, hfactor⟩ := h.toNat_factor hfull
        have hdust := tx.dustOutputs_le
        have hproduct := sizeFee_mul_lt fFree (Nat.not_le.mp hfull) (Nat.le_add_left _ _)
          (show 9 * tx.dustOutputs ≤ tx.serialize.length by omega)
        have hcast : (Int64.ofNat (500000 / (500000 - (nBlockSize.toNat + tx.serialize.length)))).toInt
            = (500000 / (500000 - (nBlockSize.toNat + tx.serialize.length)) : ℕ) := by
          apply Int64.toInt_ofNat_of_lt
          exact lt_of_le_of_lt (Nat.div_le_self _ _) (by decide)
        rw [hdiv, Option.bind_some, hfactor, checkedMul_eq, Option.bind_some]
        · rw [hcast]
          exact le_trans (by decide) (Int.mul_nonneg hnonneg (Int.natCast_nonneg _))
        · rw [hcast, hfee]
          exact hproduct
    · rw [if_neg hcrowded, if_neg hcrowded]
  · rw [h.toNat_size, hstart]
    split_ifs <;> omega
  · rw [h.toNat_size, hstart]
    split_ifs <;> omega

/-- The fee of a transaction that is not the first one of a block. -/
theorem InBlock.toInt_getMinFee
    (h : InBlock tx nBlockSize) (hne : nBlockSize ≠ 1) (fAllowFree : Bool) (mode : GetMinFeeMode) :
  (tx.getMinFee nBlockSize fAllowFree mode).toInt
    = blockFee fAllowFree nBlockSize.toNat tx.serialize.length tx.dustOutputs
  := by
  have hvout := tx.length_vout_le
  have hdust := tx.dustOutputs_le
  rw [getMinFee, blockFee]
  simp only [baseFee_eq]
  rw [if_neg hne, h.free_eq]
  generalize (fAllowFree && decide (nBlockSize.toNat + tx.serialize.length < 27000)) = fFree
  have hfee := h.toInt_sizeFee fFree
  have hnonneg := sizeFee_nonneg fFree tx.serialize.length tx.dustOutputs
  by_cases hfull : 500000 ≤ nBlockSize.toNat + tx.serialize.length
  · rw [if_pos ⟨hne, h.crowded_iff.mpr (by omega)⟩, if_pos (h.full_iff.mpr hfull), if_pos hfull]
    decide
  · rw [if_neg hfull]
    by_cases hcrowded : 250000 ≤ nBlockSize.toNat + tx.serialize.length
    · have hproduct := sizeFee_mul_lt fFree (Nat.not_le.mp hfull) (Nat.le_add_left _ _)
        (show 9 * tx.dustOutputs ≤ tx.serialize.length by omega)
      have hlow := Int.mul_nonneg hnonneg (Int.natCast_nonneg
        (500000 / (500000 - (nBlockSize.toNat + tx.serialize.length))))
      rw [if_pos ⟨hne, h.crowded_iff.mpr hcrowded⟩, if_neg (mt h.full_iff.mp hfull), if_pos hcrowded,
        (h.toNat_factor hfull).2]
      have hmul : (tx.vout.foldl
            (fun nMinFee txout => if txout.nValue < COIN then nMinFee + MIN_TX_FEE else nMinFee)
            (if fFree then 0 else
              (1 + Int64.ofNat (tx.getSerializeSize.toNat / 1000)) * MIN_TX_FEE)
          * Int64.ofNat (500000 / (500000 - (nBlockSize.toNat + tx.serialize.length)))).toInt
          = sizeFee fFree tx.serialize.length tx.dustOutputs
            * (500000 / (500000 - (nBlockSize.toNat + tx.serialize.length)) : ℕ) := by
        have hcast : 500000 / (500000 - (nBlockSize.toNat + tx.serialize.length)) < 2 ^ 63 :=
          lt_of_le_of_lt (Nat.div_le_self _ _) (by decide)
        rw [Int64.toInt_mul, hfee, Int64.toInt_ofNat_of_lt hcast, Int.bmod_def]
        omega
      rw [toInt_clamp, hmul]
      rw [hmul]
      exact hlow
    · rw [if_neg (fun hboth => hcrowded (h.crowded_iff.mp hboth.2)), if_neg hcrowded, toInt_clamp,
        hfee]
      rw [hfee]
      exact hnonneg

end InBlock

/-- The fee of a transaction that fits a block is computed without overflow and is an amount, and it is
no lower in a fuller block. -/
theorem getMinFee_inRange (tx : CTransaction) (hsize : tx.serialize.length ≤ MAX_BLOCK_SIZE.toNat) :
  (∀ (nBlockSize : UInt32) (fAllowFree : Bool) (mode : GetMinFeeMode), nBlockSize < MAX_BLOCK_SIZE →
      tx.getMinFeeChecked nBlockSize fAllowFree mode = some (tx.getMinFee nBlockSize fAllowFree mode)
        ∧ moneyRange (tx.getMinFee nBlockSize fAllowFree mode) = true)
    ∧ ∀ (nBlockSize nBlockSize' : UInt32) (fAllowFree : Bool) (mode : GetMinFeeMode),
      nBlockSize ≠ 1 → nBlockSize' ≠ 1 → nBlockSize ≤ nBlockSize' → nBlockSize' < MAX_BLOCK_SIZE →
      tx.getMinFee nBlockSize fAllowFree mode ≤ tx.getMinFee nBlockSize' fAllowFree mode
  := by
  have hlimit : ∀ nBlockSize : UInt32, nBlockSize < MAX_BLOCK_SIZE → InBlock tx nBlockSize := by
    intro nBlockSize hblock
    rw [UInt32.lt_iff_toNat_lt] at hblock
    exact ⟨hsize, hblock⟩
  constructor
  · intro nBlockSize fAllowFree mode hblock
    exact ⟨(hlimit nBlockSize hblock).getMinFeeChecked_eq fAllowFree mode,
      moneyRange_getMinFee tx nBlockSize fAllowFree mode⟩
  · intro nBlockSize nBlockSize' fAllowFree mode hne hne' hle hblock'
    have hblock : nBlockSize < MAX_BLOCK_SIZE := UInt32.lt_of_le_of_lt hle hblock'
    rw [Int64.le_iff_toInt_le, (hlimit nBlockSize hblock).toInt_getMinFee hne,
      (hlimit nBlockSize' hblock').toInt_getMinFee hne']
    apply blockFee_mono
    exact UInt32.le_iff_toNat_le.mp hle

/-- A transaction with an output that is below a coin. -/
def dustSpend : CTransaction := ⟨1, [⟨⟨7, 0⟩, [0x51], 0xffffffff⟩], [⟨5000, [0x51]⟩], 0⟩

theorem getMinFee_inRange_dustSpend :
  dustSpend.getMinFeeChecked 499000 true .send = some (dustSpend.getMinFee 499000 true .send)
    ∧ moneyRange (dustSpend.getMinFee 499000 true .send) = true
    ∧ dustSpend.getMinFee 1000 true .send ≤ dustSpend.getMinFee 499000 true .send
  := by
  have hsize : dustSpend.serialize.length ≤ MAX_BLOCK_SIZE.toNat := by decide
  obtain ⟨hrange, hmono⟩ := dustSpend.getMinFee_inRange hsize
  obtain ⟨hchecked, hmoney⟩ := hrange 499000 true .send (by decide)
  exact ⟨hchecked, hmoney, hmono 1000 499000 true .send (by decide) (by decide) (by decide) (by decide)⟩

end CTransaction

end CorgiCoin
