import CorgiCoin.Script
import Mathlib.Algebra.Order.BigOperators.Group.List

/-!
# Amounts

Amounts are 64-bit integers in units of `10⁻⁸` coins.  `addMoney` is the step every tally of
amounts in the program is made of; on a tally that stays in `MoneyRange` the machine sum is the
sum of the integers.  `CheckTransaction` and the block subsidy follow.
-/

namespace CorgiCoin

def COIN : Int64 := 100000000
def MAX_MONEY : Int64 := 10000000000 * COIN
def MAX_BLOCK_SIZE : UInt32 := 1000000
def MAX_BLOCK_SIZE_GEN : UInt32 := MAX_BLOCK_SIZE / 2
def MAX_BLOCK_SIGOPS : UInt32 := MAX_BLOCK_SIZE / 50
def FLAT_BLOCK_REWARD : Int64 := 10000 * COIN

def moneyRange (nValue : Int64) : Bool := decide (0 ≤ nValue) && decide (nValue ≤ MAX_MONEY)

theorem moneyRange_iff (nValue : Int64) :
  moneyRange nValue = true ↔ 0 ≤ nValue.toInt ∧ nValue.toInt ≤ 10 ^ 18
  := by
  rw [moneyRange, Bool.and_eq_true, decide_eq_true_iff, decide_eq_true_iff,
    Int64.le_iff_toInt_le, Int64.le_iff_toInt_le]
  rfl

/-! ## Tallies -/

/-- Add an amount to a tally, both the amount and the new tally being checked. -/
def addMoney (nTotal nValue : Int64) : Option Int64 :=
  let nTotal := nTotal + nValue
  if !moneyRange nValue || !moneyRange nTotal then none else some nTotal

/-- Inside the money range addition does not wrap. -/
theorem toInt_add_of_moneyRange
    {a b : Int64} (ha : moneyRange a = true) (hb : moneyRange b = true) :
  (a + b).toInt = a.toInt + b.toInt
  := by
  rw [moneyRange_iff] at ha hb
  rw [Int64.toInt_add, Int.bmod_def]
  omega

theorem toInt_sub_of_moneyRange
    {a b : Int64} (ha : moneyRange a = true) (hb : moneyRange b = true) :
  (a - b).toInt = a.toInt - b.toInt
  := by
  rw [moneyRange_iff] at ha hb
  rw [Int64.toInt_sub, Int.bmod_def]
  omega

/-- A tally step that succeeds adds the integers and stays in range. -/
theorem addMoney_eq_some
    {nTotal nValue nNew : Int64} (htotal : moneyRange nTotal = true)
    (h : addMoney nTotal nValue = some nNew) :
  moneyRange nValue = true ∧ moneyRange nNew = true
    ∧ nNew.toInt = nTotal.toInt + nValue.toInt
  := by
  rw [addMoney] at h
  split at h
  · cases h
  · rename_i hrange
    rw [Bool.or_eq_true, not_or, Bool.not_eq_true', Bool.not_eq_true', Bool.not_eq_false,
      Bool.not_eq_false] at hrange
    obtain rfl := Option.some.inj h
    refine ⟨hrange.1, hrange.2, ?_⟩
    apply toInt_add_of_moneyRange htotal hrange.1

theorem moneyRange_zero :
  moneyRange 0 = true
  := by decide

/-- The sum of a list of amounts over the integers. -/
def sumValues (values : List Int64) : ℤ := (values.map Int64.toInt).sum

/-- A tally that goes through is the sum of the integers. -/
theorem foldlM_addMoney_eq_some
    {values : List Int64} {nStart nTotal : Int64} (hstart : moneyRange nStart = true)
    (h : values.foldlM addMoney nStart = some nTotal) :
  (∀ nValue ∈ values, moneyRange nValue = true) ∧ moneyRange nTotal = true
    ∧ nTotal.toInt = nStart.toInt + sumValues values
  := by
  induction values generalizing nStart with
  | nil =>
    obtain rfl := Option.some.inj h
    refine ⟨fun _ hmem => absurd hmem List.not_mem_nil, hstart, ?_⟩
    simp [sumValues]
  | cons nValue values ih =>
    rw [List.foldlM_cons, Option.bind_eq_bind, Option.bind_eq_some_iff] at h
    obtain ⟨nNext, hnext, hrest⟩ := h
    obtain ⟨hvalue, hnew, hsum⟩ := addMoney_eq_some hstart hnext
    obtain ⟨hall, htotal, hrestsum⟩ := ih hnew hrest
    refine ⟨List.forall_mem_cons.mpr ⟨hvalue, hall⟩, htotal, ?_⟩
    rw [hrestsum, hsum, sumValues, sumValues, List.map_cons, List.sum_cons, add_assoc]

/-! ## Outputs of a transaction -/

/-- `CTransaction::GetValueOut`, `none` where the source throws. -/
def CTransaction.getValueOut (tx : CTransaction) : Option Int64 :=
  (tx.vout.map CTxOut.nValue).foldlM addMoney 0

/-- The value of the outputs over the integers. -/
def CTransaction.valueOut (tx : CTransaction) : ℤ := sumValues (tx.vout.map CTxOut.nValue)

/-- `GetValueOut` returns the value of the outputs, each of them in range. -/
theorem CTransaction.getValueOut_eq_some
    {tx : CTransaction} {nValueOut : Int64} (h : tx.getValueOut = some nValueOut) :
  (∀ txout ∈ tx.vout, moneyRange txout.nValue = true) ∧ moneyRange nValueOut = true
    ∧ nValueOut.toInt = tx.valueOut
  := by
  obtain ⟨hall, htotal, hsum⟩ := foldlM_addMoney_eq_some moneyRange_zero h
  refine ⟨?_, htotal, ?_⟩
  · intro txout hmem
    apply hall _ (List.mem_map_of_mem hmem)
  · rw [hsum, valueOut]
    apply zero_add

/-! ## Checks that need no context -/

/-- The loop of `CheckTransaction` over the outputs. -/
def checkValuesOut : Int64 → List CTxOut → Bool
  | _, [] => true
  | nValueOut, txout :: vout =>
    if txout.nValue < 0 then false
    else if txout.nValue > MAX_MONEY then false
    else
      let nValueOut := nValueOut + txout.nValue
      if !moneyRange nValueOut then false else checkValuesOut nValueOut vout

/-- The loop of `CheckTransaction` over the inputs, which no outpoint may pass twice. -/
def checkDistinctInputs : List COutPoint → List CTxIn → Bool
  | _, [] => true
  | vInOutPoints, txin :: vin =>
    if txin.prevout ∈ vInOutPoints then false
    else checkDistinctInputs (txin.prevout :: vInOutPoints) vin

namespace CTransaction

def checkTransaction (tx : CTransaction) : Bool :=
  if tx.vin.isEmpty then false
  else if tx.vout.isEmpty then false
  else if tx.getSerializeSize > MAX_BLOCK_SIZE then false
  else if !checkValuesOut 0 tx.vout then false
  else if !checkDistinctInputs [] tx.vin then false
  else if tx.isCoinBase then
    let nSize := ((tx.vin.head?.map CTxIn.scriptSig).getD []).length
    !(nSize < 2 || nSize > 100)
  else tx.vin.all (fun txin => !txin.prevout.isNull)

end CTransaction

/-- The output loop of `CheckTransaction` is the tally of `GetValueOut`. -/
theorem checkValuesOut_eq
    (nValueOut : Int64) (vout : List CTxOut) :
  checkValuesOut nValueOut vout = ((vout.map CTxOut.nValue).foldlM addMoney nValueOut).isSome
  := by
  induction vout generalizing nValueOut with
  | nil => rfl
  | cons txout vout ih =>
    have hvalue : moneyRange txout.nValue
        = (!decide (txout.nValue < 0) && !decide (txout.nValue > MAX_MONEY)) := by
      simp only [moneyRange, ← decide_not, Int64.not_lt, gt_iff_lt]
    rw [checkValuesOut, List.map_cons, List.foldlM_cons, addMoney, hvalue]
    by_cases hneg : txout.nValue < 0
    · simp [hneg]
    · by_cases hbig : txout.nValue > MAX_MONEY
      · simp [hbig]
      · cases hsum : moneyRange (nValueOut + txout.nValue) with
        | false => simp [hneg, hbig, hsum]
        | true => simp [hneg, hbig, hsum, ih]

theorem checkDistinctInputs_iff
    (vInOutPoints : List COutPoint) (vin : List CTxIn) :
  checkDistinctInputs vInOutPoints vin = true
    ↔ (vin.map CTxIn.prevout).Nodup
      ∧ ∀ o ∈ vin.map CTxIn.prevout, o ∉ vInOutPoints
  := by
  induction vin generalizing vInOutPoints with
  | nil => simp [checkDistinctInputs]
  | cons txin vin ih =>
    rw [checkDistinctInputs, List.map_cons, List.nodup_cons, List.forall_mem_cons]
    split_ifs with hmem
    · simp [hmem]
    · rw [ih]
      simp only [List.mem_cons, not_or]
      constructor
      · intro h
        refine ⟨⟨fun hin => (h.2 _ hin).1 rfl, h.1⟩, hmem, fun o ho => (h.2 o ho).2⟩
      · intro h
        refine ⟨h.1.2, fun o ho => ⟨?_, h.2.2 o ho⟩⟩
        rintro rfl
        exact h.1.1 ho

namespace CTransaction

/-- What a transaction that passed `CheckTransaction` is known to satisfy. -/
structure Checked (tx : CTransaction) : Prop where
  vin_ne_nil : tx.vin ≠ []
  vout_ne_nil : tx.vout ≠ []
  size_le : tx.getSerializeSize ≤ MAX_BLOCK_SIZE
  getValueOut_isSome : ∃ nValueOut, tx.getValueOut = some nValueOut
  nodup : (tx.vin.map CTxIn.prevout).Nodup
  not_isNull : tx.isCoinBase = false → ∀ txin ∈ tx.vin, txin.prevout.isNull = false

theorem checked_of_checkTransaction
    {tx : CTransaction} (h : tx.checkTransaction = true) :
  tx.Checked
  := by
  rw [checkTransaction] at h
  split_ifs at h with hvin hvout hsize hvalue hdistinct hcoinbase
  all_goals
    rw [checkValuesOut_eq, Bool.not_eq_true', Bool.not_eq_false] at hvalue
    rw [Bool.not_eq_true', Bool.not_eq_false, checkDistinctInputs_iff] at hdistinct
    constructor
    · simpa using hvin
    · simpa using hvout
    · exact UInt32.not_lt.mp hsize
    · exact Option.isSome_iff_exists.mp hvalue
    · exact hdistinct.1
    · intro hnot txin hmem
      simp_all

end CTransaction

/-! ## The subsidy -/

/-- The `i`-th word of the state of `std::mt19937` seeded with `s`. -/
def mtState (s : ℕ) : ℕ → ℕ
  | 0 => s % 2 ^ 32
  | i + 1 =>
    let x := mtState s i
    (1812433253 * (x ^^^ (x >>> 30)) + (i + 1)) % 2 ^ 32

/-- The first number `std::mt19937` returns: the first word is twisted with the second and the
398th, then tempered. -/
def mtFirst (s : ℕ) : ℕ :=
  let y := (mtState s 0 &&& 0x80000000) ||| (mtState s 1 &&& 0x7fffffff)
  let x := mtState s 397 ^^^ (y >>> 1) ^^^ (if y % 2 = 1 then 0x9908b0df else 0)
  let x := x ^^^ (x >>> 11)
  let x := x ^^^ ((x <<< 7) &&& 0x9d2c5680)
  let x := x ^^^ ((x <<< 15) &&& 0xefc60000)
  x ^^^ (x >>> 18)

def generateMTRandom (s range : ℕ) : ℕ := 1 + mtFirst s % range

/-- The digits of `uint256::ToString`, most significant first. -/
def hexDigits (hash : uint256) : List ℕ :=
  (List.range 64).map (fun i => hash.toNat / 16 ^ (63 - i) % 16)

/-- `hex2long` of `ToString().substr(pos, len)`. -/
def hexSeed (hash : uint256) (pos len : ℕ) : ℕ :=
  (((hexDigits hash).drop pos).take len).foldl (fun ret digit => ret * 16 + digit) 0

/-- `GetBlockValue`: a pseudo-random subsidy drawn from the hash of the block before, in a
range that halves every 100000 blocks, and a flat one in the end. -/
def getBlockValue (nHeight : ℕ) (nFees : Int64) (prevHash : uint256) : Int64 :=
  let rand (pos range : ℕ) := generateMTRandom (hexSeed prevHash pos 7) range
  let nSubsidy :=
    if nHeight < 100000 then Int64.ofNat (1 + rand 7 999999) * COIN
    else if nHeight < 200000 then Int64.ofNat (1 + rand 7 499999) * COIN
    else if nHeight < 300000 then Int64.ofNat (1 + rand 6 249999) * COIN
    else if nHeight < 400000 then Int64.ofNat (1 + rand 7 124999) * COIN
    else if nHeight < 500000 then Int64.ofNat (1 + rand 7 62499) * COIN
    else if nHeight < 600000 then Int64.ofNat (1 + rand 6 31249) * COIN
    else FLAT_BLOCK_REWARD
  nSubsidy + nFees

/-- Fees are added to the subsidy in 64-bit arithmetic. -/
theorem getBlockValue_eq_add
    (nHeight : ℕ) (nFees : Int64) (prevHash : uint256) :
  getBlockValue nHeight nFees prevHash = getBlockValue nHeight 0 prevHash + nFees
  := by
  rw [getBlockValue, getBlockValue, Int64.add_zero]

theorem toInt_coins
    {range : ℕ} (hpos : 0 < range) (hrange : range < 1000000) (s : ℕ) :
  0 ≤ (Int64.ofNat (1 + generateMTRandom s range) * COIN).toInt
    ∧ (Int64.ofNat (1 + generateMTRandom s range) * COIN).toInt ≤ 10 ^ 14
  := by
  have hlt : mtFirst s % range < range := Nat.mod_lt _ hpos
  have hofNat : (Int64.ofNat (1 + generateMTRandom s range)).toInt
      = ((1 + generateMTRandom s range : ℕ) : ℤ) := by
    apply Int64.toInt_ofNat_of_lt
    rw [generateMTRandom]
    omega
  have hcoin : COIN.toInt = 100000000 := rfl
  rw [Int64.toInt_mul, hofNat, hcoin, generateMTRandom, Int.bmod_eq_of_le (by omega) (by omega)]
  omega

/-- The subsidy alone is an amount. -/
theorem getBlockValue_bounds
    (nHeight : ℕ) (prevHash : uint256) :
  0 ≤ (getBlockValue nHeight 0 prevHash).toInt
    ∧ (getBlockValue nHeight 0 prevHash).toInt ≤ 10 ^ 14
  := by
  rw [getBlockValue, Int64.add_zero]
  split_ifs
  case neg => decide
  all_goals
    apply toInt_coins
    · decide
    · decide

end CorgiCoin
