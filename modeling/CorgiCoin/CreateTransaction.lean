import CorgiCoin.AvailableCoins
import CorgiCoin.MinFee
import CorgiCoin.SignatureHash
import Mathlib.Algebra.Order.Ring.Abs

/-!
# Payments of the wallet

`CreateTransaction` chooses coins for the payments and the fee, pays the change back, signs, and starts
again with a larger fee when the transaction turns out to cost more than was assumed.  The fee grows in
each round, so that the loop ends.  The sums are those of the source as long as the payments and the
largest fee that a round can demand are below the largest integer; the check for a negative sum leaves
the fee out.
-/

namespace CorgiCoin

open Std

/-- `CScript::SetDestination` of a script. -/
def scriptForScriptID (scriptID : uint160) : CScript :=
  [UInt8.ofNat OP_HASH160] ++ pushData (serializeUint160 scriptID) ++ [UInt8.ofNat OP_EQUAL]

/-- `CScript::SetDestination` -/
def setDestination : CTxDestination → CScript
  | .CNoDestination => []
  | .CKeyID keyID => scriptForKeyID keyID
  | .CScriptID scriptID => scriptForScriptID scriptID

def CTransaction.setScriptSig (tx : CTransaction) (nIn : ℕ) (scriptSig : CScript) : CTransaction :=
  { tx with vin := tx.vin.modify nIn (fun txin => { txin with scriptSig }) }

namespace CoinWallet

/-- What a round does not decide itself: chance, the order of the set, the key that is reserved for
the change, the outcome of the priority and the signatures. -/
structure RoundChance where
  coins : SelectCoinsChance
  order : List COutPoint → List COutPoint
  order_perm : ∀ setCoins, (order setCoins).Perm setCoins
  /-- `GetRandInt` -/
  position : ℕ → ℕ
  position_lt : ∀ nMax, 0 < nMax → position nMax < nMax
  keyID : uint160
  fAllowFree : Bool
  signature : CTransaction → ℕ → Option CScript

/-- The loop that signs the inputs, from an input on. -/
def signInputs (signature : CTransaction → ℕ → Option CScript) :
    ℕ → ℕ → CTransaction → Option CTransaction
  | 0, _, tx => some tx
  | n + 1, nIn, tx =>
    match signature tx nIn with
    | none => none
    | some scriptSig => signInputs signature n (nIn + 1) (tx.setScriptSig nIn scriptSig)

/-- The change that is moved to the fee while the fee is below `MIN_TX_FEE`. -/
def moveToFee (nFeeRet nChange : Int64) : Int64 :=
  if nFeeRet < MIN_TX_FEE ∧ nChange > 0 ∧ nChange < COIN then min nChange (MIN_TX_FEE - nFeeRet) else 0

/-- The script that the change is paid to. -/
def changeScript (chance : RoundChance) (coinControl : Option CCoinControl) : CScript :=
  match coinControl with
  | none => scriptForKeyID chance.keyID
  | some coinControl =>
    if coinControl.hasCustomChange then setDestination coinControl.destChange
    else scriptForKeyID chance.keyID

/-- The payments, with the change at a random position. -/
def outputs (chance : RoundChance) (coinControl : Option CCoinControl)
    (vecSend : List (CScript × Int64)) (nChange : Int64) : List CTxOut :=
  let vout := vecSend.map (fun s => ⟨s.2, s.1⟩)
  if nChange > 0 then
    vout.insertIdx (chance.position vout.length) ⟨nChange, changeScript chance coinControl⟩
  else vout

variable (crypto : Crypto) (hash160 : Bytes → uint160) (w : CoinWallet) (view : ChainView)
variable (coinControl : Option CCoinControl) (vecSend : List (CScript × Int64))

/-- A round that selects coins and signs: the transaction that it makes, and the fee that it includes. -/
structure Round (chance : RoundChance) (nValue nFeeRet : Int64) (r : Selection) (tx : CTransaction)
    (nFee : Int64) : Prop where
  selects : w.selectCoins crypto hash160 view chance.coins (nValue + nFeeRet) coinControl
    = some (true, r)
  vin : tx.vin.map CTxIn.prevout = chance.order r.setCoinsRet
  vout : tx.vout = outputs chance coinControl vecSend
    (r.nValueRet - nValue - nFeeRet - moveToFee nFeeRet (r.nValueRet - nValue - nFeeRet))
  fee : nFee = nFeeRet + moveToFee nFeeRet (r.nValueRet - nValue - nFeeRet)
  size_lt : tx.getSerializeSize < 100000

/-- The sum of the amounts of payments. -/
def sumPayees (vecSend : List (CScript × Int64)) : ℤ := sumValues (vecSend.map Prod.snd)

theorem map_prevout_setScriptSig (tx : CTransaction) (nIn : ℕ) (scriptSig : CScript) :
  (tx.setScriptSig nIn scriptSig).vin.map CTxIn.prevout = tx.vin.map CTxIn.prevout
  := by
  apply List.ext_getElem?
  intro i
  rw [CTransaction.setScriptSig, List.getElem?_map, List.getElem?_map, List.getElem?_modify,
    Option.map_eq_map, Option.map_map]
  apply congrArg (fun f => Option.map f tx.vin[i]?)
  funext txin
  by_cases h : nIn = i
  · rw [Function.comp_apply, if_pos h]
  · rw [Function.comp_apply, if_neg h]

section Rounds

variable {crypto : Crypto} {hash160 : Bytes → uint160} {w : CoinWallet} {view : ChainView}
variable {coinControl : Option CCoinControl} {vecSend : List (CScript × Int64)}
variable {chance : RoundChance} {wtxNew : CTransaction} {nValue nFeeRet : Int64}

/-- What is moved is part of the change, and the fee with it fits. -/
theorem moveToFee_spec {nChange : Int64} (hlow : -2 ^ 57 ≤ nFeeRet.toInt) (hnonneg : 0 ≤ nChange.toInt) :
  0 ≤ (moveToFee nFeeRet nChange).toInt ∧ (moveToFee nFeeRet nChange).toInt ≤ nChange.toInt
    ∧ (nFeeRet + moveToFee nFeeRet nChange).toInt
      = nFeeRet.toInt + (moveToFee nFeeRet nChange).toInt
  := by
  have hzero : (0 : Int64).toInt = 0 := rfl
  rw [moveToFee]
  by_cases hmove : nFeeRet < MIN_TX_FEE ∧ nChange > 0 ∧ nChange < COIN
  · rw [if_pos hmove]
    obtain ⟨hfee, -, -⟩ := hmove
    have hmin : MIN_TX_FEE.toInt = 100000000 := by decide
    rw [Int64.lt_iff_toInt_lt, hmin] at hfee
    have hdiff : (MIN_TX_FEE - nFeeRet).toInt = 100000000 - nFeeRet.toInt := by
      rw [toInt_sub_of_lt (by rw [hmin]; omega) (by rw [hmin]; omega), hmin]
    have hcases : min nChange (MIN_TX_FEE - nFeeRet)
        = if nChange ≤ MIN_TX_FEE - nFeeRet then nChange else MIN_TX_FEE - nFeeRet := rfl
    rw [hcases]
    by_cases hle : nChange ≤ MIN_TX_FEE - nFeeRet
    · rw [if_pos hle]
      rw [Int64.le_iff_toInt_le, hdiff] at hle
      refine ⟨hnonneg, Int.le_refl _, toInt_add_of_lt (by omega) (by omega)⟩
    · rw [if_neg hle]
      rw [Int64.le_iff_toInt_le, hdiff] at hle
      rw [toInt_add_of_lt (by rw [hdiff]; omega) (by rw [hdiff]; omega), hdiff]
      omega
  · rw [if_neg hmove, Int64.add_zero, hzero]
    exact ⟨Int.le_refl _, hnonneg, (Int.add_zero _).symm⟩

/-- The payments in order, with at most one output more, which pays the change. -/
theorem outputs_cases (hsend : vecSend ≠ []) (nChange : Int64) :
  let payees : List CTxOut := vecSend.map (fun s => ⟨s.2, s.1⟩)
  (nChange ≤ 0 ∧ outputs chance coinControl vecSend nChange = payees)
    ∨ 0 < nChange ∧ ∃ i < payees.length, outputs chance coinControl vecSend nChange
      = payees.insertIdx i ⟨nChange, changeScript chance coinControl⟩
  := by
  intro payees
  rw [outputs]
  by_cases hchange : nChange > 0
  · right
    refine ⟨hchange, chance.position payees.length, ?_, if_pos hchange⟩
    apply chance.position_lt
    rw [List.length_map]
    exact List.length_pos_of_ne_nil hsend
  · left
    exact ⟨Int64.not_lt.mp hchange, if_neg hchange⟩

theorem sumValues_outputs
    (hsend : vecSend ≠ []) {nChange : Int64} (hnonneg : 0 ≤ nChange.toInt) :
  sumValues ((outputs chance coinControl vecSend nChange).map CTxOut.nValue)
    = sumPayees vecSend + nChange.toInt
  := by
  have hpayees : (vecSend.map (fun s => (⟨s.2, s.1⟩ : CTxOut))).map CTxOut.nValue
      = vecSend.map Prod.snd := by
    rw [List.map_map]
    rfl
  obtain ⟨hzero, hout⟩ | ⟨-, i, hi, hout⟩ :=
    @outputs_cases coinControl vecSend chance hsend nChange
  · have hchange : nChange.toInt = 0 := Int.le_antisymm (Int64.le_iff_toInt_le.mp hzero) hnonneg
    rw [hout, hpayees, hchange, Int.add_zero]
    rfl
  · have hperm := (List.perm_insertIdx (⟨nChange, changeScript chance coinControl⟩ : CTxOut)
      (vecSend.map (fun s => (⟨s.2, s.1⟩ : CTxOut))) hi.le).map CTxOut.nValue
    rw [hout, sumValues, ((hperm.map Int64.toInt).sum_eq), List.map_cons, hpayees, List.map_cons,
      List.sum_cons, sumPayees, sumValues]
    ring

/-! ## Fees -/

/-- No sum of the source overflows, as long as the payments and the fee are at most a bound. -/
structure Fits (crypto : Crypto) (hash160 : Bytes → uint160) (w : CoinWallet) (view : ChainView)
    (coinControl : Option CCoinControl) (vecSend : List (CScript × Int64)) (nMost : ℤ) : Prop where
  sum_lt : ∀ vCoins, w.availableCoins crypto hash160 view true coinControl = some vCoins →
    sumCoins (countedCoins coinControl (nMost + 1000000) vCoins) < 2 ^ 63
  target_nonneg : 0 ≤ sumPayees vecSend + w.nTransactionFee.toInt
  target_lt : nMost + 1000000 < 2 ^ 63
  fee_lt : |w.nTransactionFee.toInt| * 100 < 2 ^ 63
  length_lt : vecSend.length + 1 < 9 * 10 ^ 10

/-- A fee that can be added to the payments. -/
structure FeeFits (vecSend : List (CScript × Int64)) (nMost : ℤ) (nFeeRet : Int64) : Prop where
  low : -2 ^ 57 ≤ nFeeRet.toInt
  nonneg : 0 ≤ sumPayees vecSend + nFeeRet.toInt
  le_most : sumPayees vecSend + nFeeRet.toInt ≤ nMost

/-- What a round selects, and its change and fee as integers. -/
structure RoundSums (vCoins : List COutput) (r : Selection) (tx : CTransaction) (nFee : Int64)
    (selected : List COutput) : Prop where
  available : w.availableCoins crypto hash160 view true coinControl = some vCoins
  returned : Returned vCoins r selected
  all_selected : coinsSelected coinControl = true → selected = vCoins
  balanced : sumCoins selected = sumValues (tx.vout.map CTxOut.nValue) + nFee.toInt
  target_le : sumPayees vecSend + nFeeRet.toInt ≤ sumCoins selected

variable {r : Selection} {tx : CTransaction} {nFee : Int64} {nMost : ℤ}

theorem Round.sums
    (hround : w.Round crypto hash160 view coinControl vecSend chance nValue nFeeRet r tx nFee)
    (hfits : Fits crypto hash160 w view coinControl vecSend nMost) (hsend : vecSend ≠ [])
    (hnonneg : 0 ≤ nValue.toInt) (htotal : nValue.toInt = sumPayees vecSend)
    (hfee : FeeFits vecSend nMost nFeeRet) :
  ∃ vCoins selected, @RoundSums crypto hash160 w view coinControl vecSend nFeeRet vCoins r tx nFee
    selected
  := by
  obtain ⟨hlow, htargetNonneg, hmost⟩ := hfee
  have hmostLt := hfits.target_lt
  have htarget : (nValue + nFeeRet).toInt = sumPayees vecSend + nFeeRet.toInt := by
    rw [toInt_add_of_lt (by omega) (by omega), htotal]
  obtain ⟨vCoins, havailable⟩ : ∃ vCoins,
      w.availableCoins crypto hash160 view true coinControl = some vCoins := by
    have hselects := hround.selects
    rw [selectCoins] at hselects
    cases h : w.availableCoins crypto hash160 view true coinControl with
    | none =>
      rw [h] at hselects
      cases hselects
    | some vCoins => exact ⟨vCoins, rfl⟩
  have hvalues := (values_availableCoins havailable).2
  have hsum := (sumCoins_countedCoins_mono (show (nValue + nFeeRet).toInt + 1000000 ≤ nMost + 1000000 by
    omega) (fun coin hmem => (hvalues coin hmem).1)).trans_lt (hfits.sum_lt vCoins havailable)
  obtain ⟨selected, hselected⟩ :=
    selectCoins_spec havailable hsum (by omega) (by omega) hround.selects
  have hvalue := hselected.returned.sum
  have hvalueLt := Int64.toInt_lt r.nValueRet
  have hnValueLt := Int64.toInt_lt nValue
  have hreach := Int64.le_iff_toInt_le.mp hselected.target_le
  rw [htarget, hvalue] at hreach
  -- the change is what the coins leave
  have hchange : (r.nValueRet - nValue - nFeeRet).toInt
      = sumCoins selected - sumPayees vecSend - nFeeRet.toInt := by
    have hfirst : (r.nValueRet - nValue).toInt = sumCoins selected - sumPayees vecSend := by
      rw [Int64.toInt_sub, hvalue, htotal, Int.bmod_def]
      omega
    rw [toInt_sub_of_lt (by rw [hfirst]; omega) (by rw [hfirst]; omega), hfirst]
  have hchangeNonneg : 0 ≤ (r.nValueRet - nValue - nFeeRet).toInt := by
    rw [hchange]
    omega
  obtain ⟨hmoveLow, hmoveHigh, hfeeSum⟩ := moveToFee_spec hlow hchangeNonneg
  have hrest : (r.nValueRet - nValue - nFeeRet
      - moveToFee nFeeRet (r.nValueRet - nValue - nFeeRet)).toInt
      = (r.nValueRet - nValue - nFeeRet).toInt
        - (moveToFee nFeeRet (r.nValueRet - nValue - nFeeRet)).toInt :=
    toInt_sub_of_lt (by omega) (by omega)
  refine ⟨vCoins, selected, havailable, hselected.returned, hselected.all_selected, ?_, hreach⟩
  rw [hround.vout, sumValues_outputs hsend (by omega), hround.fee, hfeeSum, hrest, hchange]
  ring

end Rounds

/-! ## Payments -/

/-- A key store that has every key. -/
def sampleKeyStore : CKeyStore where
  haveKey _ := true
  getKey _ := none
  getPubKey _ := none
  mapScripts := ∅

def sampleView : ChainView where
  nBestHeight := 100
  nAdjustedTime := 1700000000
  depth _ := 10

def emptyWallet : CoinWallet where
  keystore := sampleKeyStore
  mapWallet := ∅
  mapAddressBook := ∅
  acentries := []
  setLockedCoins := ∅
  nTransactionFee := 100000000
  nMinimumInputValue := 1000000
  vout_checked := by
    intro hash wtx h
    rw [ExtTreeMap.getElem?_empty] at h
    cases h

end CoinWallet

end CorgiCoin
