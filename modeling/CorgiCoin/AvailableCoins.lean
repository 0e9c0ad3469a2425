import CorgiCoin.WalletTx
import CorgiCoin.CoinSelection

/-!
# The coins of the wallet

`AvailableCoins` goes through the wallet and lists the outputs that can be spent: those of transactions
that are final, confirmed and mature, which are the wallet's own, unspent, not locked and not too
small, and among these the selected ones if there are any.  `SelectCoins` spends the coins that the user
selected, or lets the selection choose, with lower and lower demands on their depth.
-/

namespace CorgiCoin

open Std

/-- What the user chose: the inputs, if there are any, and where the change goes. -/
structure CCoinControl where
  destChange : CTxDestination
  setSelected : ExtTreeSet COutPoint

namespace CCoinControl

def hasSelected (coinControl : CCoinControl) : Bool := !coinControl.setSelected.isEmpty

def hasCustomChange (coinControl : CCoinControl) : Bool := coinControl.destChange ≠ .CNoDestination

def isSelected (coinControl : CCoinControl) (output : COutPoint) : Bool :=
  coinControl.setSelected.contains output

end CCoinControl

/-- Whether inputs were selected, also where there is no coin control. -/
def coinsSelected (coinControl : Option CCoinControl) : Bool :=
  coinControl.any CCoinControl.hasSelected

/-- A wallet with what is spent from it: the locked coins, the fee per kilobyte and the least value of
an input.  A transaction comes into the wallet after its values were checked. -/
structure CoinWallet extends TxWallet where
  setLockedCoins : ExtTreeSet COutPoint
  nTransactionFee : Int64
  nMinimumInputValue : Int64
  vout_checked : ∀ (hash : uint256) (wtx : CWalletTx), mapWallet[hash]? = some wtx →
    wtx.vout.length < 2 ^ 32 ∧ ∀ txout ∈ wtx.vout, moneyRange txout.nValue = true

/-- `CWalletTx::IsSpent` of an output that there is. -/
def CWalletTx.isSpent (wtx : CWalletTx) (nOut : ℕ) : Bool := wtx.vfSpent[nOut]?.getD false

namespace CoinWallet

variable (crypto : Crypto) (hash160 : Bytes → uint160) (w : CoinWallet) (view : ChainView)

/-! ## Confirmed transactions -/

/-- The work queue of `IsConfirmed`, for a number of steps; `none` where an exception is thrown. -/
def confirmedQueue (mapPrev : uint256 → Option CMerkleTx) : ℕ → List CMerkleTx → Option Bool
  | 0, _ => none
  | _ + 1, [] => some true
  | steps + 1, ptx :: vWorkQueue =>
    if !view.isFinal ptx.toCTransaction then some false
    else if view.depth ptx ≥ 1 then confirmedQueue mapPrev steps vWorkQueue
    else
      match w.getDebit hash160 ptx.toCTransaction with
      | none => none
      | some nDebit =>
        if !decide (nDebit > 0) then some false
        else
          match ptx.vin.mapM (fun txin => mapPrev txin.prevout.hash) with
          | none => some false
          | some prevs => confirmedQueue mapPrev steps (vWorkQueue ++ prevs)

/-- More steps than there are chains of inputs through the supporting transactions.  A queue that goes
on follows a chain that names a transaction twice, and there the source does not return. -/
def queueSteps (wtx : CWalletTx) : ℕ :=
  let width := (wtx.toCMerkleTx :: wtx.vtxPrev).foldl (fun n tx => max n tx.vin.length) 0
  (width + 2) ^ (wtx.vtxPrev.length + 1)

/-- `CWalletTx::IsConfirmed` -/
def isConfirmed (wtx : CWalletTx) : Option Bool :=
  if !view.isFinal wtx.toCTransaction then some false
  else if view.depth wtx.toCMerkleTx ≥ 1 then some true
  else
    match w.getTxDebit hash160 wtx with
    | none => none
    | some nDebit =>
      if !decide (nDebit > 0) then some false
      else
        -- of transactions with one hash the last one stays in the map
        w.confirmedQueue hash160 view
          (fun hash => wtx.vtxPrev.reverse.find? (fun tx => tx.getHash crypto == hash))
          (queueSteps wtx) [wtx.toCMerkleTx]

/-! ## Available coins -/

/-- The condition on an output of a transaction that can be spent. -/
def isAvailable (coinControl : Option CCoinControl) (hash : uint256) (wtx : CWalletTx)
    (txout : CTxOut) (i : ℕ) : Bool :=
  let output : COutPoint := ⟨hash, UInt32.ofNat i⟩
  !wtx.isSpent i && w.isMine hash160 txout && decide (txout.nValue ≥ w.nMinimumInputValue)
    && !w.setLockedCoins.contains output
    && coinControl.all (fun coinControl => !coinControl.hasSelected || coinControl.isSelected output)

/-- The coins of a transaction whose outputs can be spent.  Where `IsFromMe` throws an exception the
flag is false; a selection that asks for it does not return then. -/
def coinsOf (coinControl : Option CCoinControl) (hash : uint256) (wtx : CWalletTx) : List COutput :=
  (wtx.vout.zipIdx.filter (fun p => w.isAvailable hash160 coinControl hash wtx p.1 p.2)).map
    (fun p => {
      prevout := ⟨hash, UInt32.ofNat p.2⟩
      nValue := p.1.nValue
      nDepth := view.depth wtx.toCMerkleTx
      fFromMe := (w.getTxDebit hash160 wtx).any (fun nDebit => decide (nDebit > 0)) })

/-- Whether the outputs of a transaction can be spent at all. -/
def isSpendable (fOnlyConfirmed : Bool) (wtx : CWalletTx) : Option Bool :=
  if !view.isFinal wtx.toCTransaction then some false
  else
    match (if fOnlyConfirmed then w.isConfirmed crypto hash160 view wtx else some true) with
    | none => none
    | some fConfirmed =>
      some (fConfirmed
        && !(wtx.isCoinBase && decide (view.blocksToMaturity wtx.toCMerkleTx > 0)))

/-- The loop over the wallet. -/
def availableCoinsLoop (fOnlyConfirmed : Bool) (coinControl : Option CCoinControl) :
    List (uint256 × CWalletTx) → Option (List COutput)
  | [] => some []
  | (hash, wtx) :: items =>
    match w.isSpendable crypto hash160 view fOnlyConfirmed wtx with
    | none => none
    | some fSpendable =>
      match availableCoinsLoop fOnlyConfirmed coinControl items with
      | none => none
      | some vCoins =>
        some ((if fSpendable then w.coinsOf hash160 view coinControl hash wtx else []) ++ vCoins)

/-- `CWallet::AvailableCoins` -/
def availableCoins (fOnlyConfirmed : Bool) (coinControl : Option CCoinControl) :
    Option (List COutput) :=
  w.availableCoinsLoop crypto hash160 view fOnlyConfirmed coinControl w.mapWallet.toList

/-! ## Selection -/

/-- What chance decides in the three selections. -/
structure SelectCoinsChance where
  deep : SelectionChance
  confirmed : SelectionChance
  unconfirmed : SelectionChance

/-- `CWallet::SelectCoins` -/
def selectCoins (chance : SelectCoinsChance) (nTargetValue : Int64)
    (coinControl : Option CCoinControl) : Option (Bool × Selection) :=
  match w.availableCoins crypto hash160 view true coinControl with
  | none => none
  | some vCoins =>
    if coinsSelected coinControl then
      let r := Selection.insertAll vCoins
      some (!r.setCoinsRet.isEmpty && decide (r.nValueRet ≥ nTargetValue), r)
    else
      let r := selectCoinsMinConf chance.deep nTargetValue 1 6 vCoins
      if r.1 then some r
      else
        let r := selectCoinsMinConf chance.confirmed nTargetValue 1 1 vCoins
        if r.1 then some r
        else some (selectCoinsMinConf chance.unconfirmed nTargetValue 0 1 vCoins)

/-! ## What can be spent -/

variable {crypto hash160 w view}

variable {fOnlyConfirmed : Bool} {coinControl : Option CCoinControl} {coin : COutput}
variable {vCoins : List COutput}

theorem mem_availableCoinsLoop
    {items : List (uint256 × CWalletTx)}
    (h : w.availableCoinsLoop crypto hash160 view fOnlyConfirmed coinControl items = some vCoins)
    :
  coin ∈ vCoins ↔ ∃ hash wtx, (hash, wtx) ∈ items
    ∧ w.isSpendable crypto hash160 view fOnlyConfirmed wtx = some true
    ∧ coin ∈ w.coinsOf hash160 view coinControl hash wtx
  := by
  induction items generalizing vCoins with
  | nil =>
    obtain rfl := Option.some.inj h
    simp
  | cons item items ih =>
    obtain ⟨hash, wtx⟩ := item
    rw [availableCoinsLoop] at h
    cases hspendable : w.isSpendable crypto hash160 view fOnlyConfirmed wtx with
    | none =>
      rw [hspendable] at h
      cases h
    | some fSpendable =>
      cases hrest : w.availableCoinsLoop crypto hash160 view fOnlyConfirmed coinControl items with
      | none =>
        rw [hspendable, hrest] at h
        cases h
      | some rest =>
        rw [hspendable, hrest] at h
        obtain rfl := Option.some.inj h
        rw [List.mem_append, ih hrest]
        constructor
        · rintro (hmem | ⟨hash', wtx', hmem, hrest'⟩)
          · cases fSpendable with
            | false => exact absurd hmem List.not_mem_nil
            | true => exact ⟨hash, wtx, List.mem_cons_self, hspendable, hmem⟩
          · exact ⟨hash', wtx', List.mem_cons_of_mem _ hmem, hrest'⟩
        · rintro ⟨hash', wtx', hmem, hspendable', hcoin⟩
          cases hmem with
          | head =>
            left
            obtain rfl := Option.some.inj (hspendable.symm.trans hspendable')
            exact hcoin
          | tail _ hmem => exact .inr ⟨hash', wtx', hmem, hspendable', hcoin⟩

variable {wtx : CWalletTx}

theorem mem_coinsOf
    {hash : uint256} (hlength : wtx.vout.length < 2 ^ 32)
    (h : coin ∈ w.coinsOf hash160 view coinControl hash wtx) :
  coin.prevout.hash = hash ∧ ∃ txout, wtx.vout[coin.prevout.n.toNat]? = some txout
    ∧ coin.nValue = txout.nValue
    ∧ w.isAvailable hash160 coinControl hash wtx txout coin.prevout.n.toNat = true
  := by
  obtain ⟨⟨txout, i⟩, hmem, rfl⟩ := List.mem_map.mp h
  obtain ⟨hindex, havailable⟩ := List.mem_filter.mp hmem
  have houtput : wtx.vout[i]? = some txout := List.mk_mem_zipIdx_iff_getElem?.mp hindex
  obtain ⟨hlt, -⟩ := List.getElem?_eq_some_iff.mp houtput
  have hnat : (UInt32.ofNat i).toNat = i := by
    rw [UInt32.toNat_ofNat']
    exact Nat.mod_eq_of_lt (hlt.trans hlength)
  refine ⟨rfl, txout, ?_, rfl, ?_⟩
  · simp only [hnat]
    exact houtput
  · simp only [hnat]
    exact havailable

theorem nodup_coinsOf
    {hash : uint256} (hlength : wtx.vout.length < 2 ^ 32) :
  ((w.coinsOf hash160 view coinControl hash wtx).map COutput.prevout).Nodup
  := by
  rw [coinsOf, List.map_map]
  have hindices : ((wtx.vout.zipIdx.filter
      (fun p => w.isAvailable hash160 coinControl hash wtx p.1 p.2)).map Prod.snd).Nodup := by
    apply (List.filter_sublist.map Prod.snd).nodup
    rw [List.zipIdx_map_snd]
    exact List.nodup_range'
  have hsplit : (COutput.prevout ∘ fun p : CTxOut × ℕ => ({
      prevout := ⟨hash, UInt32.ofNat p.2⟩
      nValue := p.1.nValue
      nDepth := view.depth wtx.toCMerkleTx
      fFromMe := (w.getTxDebit hash160 wtx).any (fun nDebit => decide (nDebit > 0)) } : COutput))
      = (fun i => ⟨hash, UInt32.ofNat i⟩) ∘ Prod.snd := rfl
  rw [hsplit, ← List.map_map]
  apply List.Nodup.map_on _ hindices
  intro i hi j hj heq
  have hlt : ∀ i, i ∈ (wtx.vout.zipIdx.filter
      (fun p => w.isAvailable hash160 coinControl hash wtx p.1 p.2)).map Prod.snd →
      i < 2 ^ 32 := by
    intro i hi
    obtain ⟨⟨txout, i⟩, hmem, rfl⟩ := List.mem_map.mp hi
    have houtput := List.mk_mem_zipIdx_iff_getElem?.mp (List.mem_filter.mp hmem).1
    exact (List.getElem?_eq_some_iff.mp houtput).1.trans hlength
  have hnat := congrArg UInt32.toNat (COutPoint.mk.inj heq).2
  rwa [UInt32.toNat_ofNat', UInt32.toNat_ofNat', Nat.mod_eq_of_lt (hlt i hi),
    Nat.mod_eq_of_lt (hlt j hj)] at hnat

theorem nodup_availableCoinsLoop
    {items : List (uint256 × CWalletTx)}
    (h : w.availableCoinsLoop crypto hash160 view fOnlyConfirmed coinControl items = some vCoins)
    (hlength : ∀ item ∈ items, item.2.vout.length < 2 ^ 32)
    (hkeys : items.Pairwise (fun item item' => item.1 ≠ item'.1)) :
  (vCoins.map COutput.prevout).Nodup
  := by
  induction items generalizing vCoins with
  | nil =>
    obtain rfl := Option.some.inj h
    exact List.nodup_nil
  | cons item items ih =>
    obtain ⟨hash, wtx⟩ := item
    obtain ⟨hfirst, hothers⟩ := List.forall_mem_cons.mp hlength
    obtain ⟨hkey, hpairs⟩ := List.pairwise_cons.mp hkeys
    rw [availableCoinsLoop] at h
    cases hspendable : w.isSpendable crypto hash160 view fOnlyConfirmed wtx with
    | none =>
      rw [hspendable] at h
      cases h
    | some fSpendable =>
      cases hrest : w.availableCoinsLoop crypto hash160 view fOnlyConfirmed coinControl items with
      | none =>
        rw [hspendable, hrest] at h
        cases h
      | some rest =>
        rw [hspendable, hrest] at h
        obtain rfl := Option.some.inj h
        rw [List.map_append]
        apply List.Nodup.append _ (ih hrest hothers hpairs)
        · -- coins of different transactions are different outputs
          intro o hmem hmem'
          obtain ⟨coin, hcoin, rfl⟩ := List.mem_map.mp hmem
          obtain ⟨coin', hcoin', heq⟩ := List.mem_map.mp hmem'
          obtain ⟨hash', wtx', hitem, -, hcoin'⟩ := (mem_availableCoinsLoop hrest).mp hcoin'
          cases fSpendable with
          | false => exact absurd hcoin List.not_mem_nil
          | true =>
            have hhash := (mem_coinsOf hfirst hcoin).1
            have hhash' := (mem_coinsOf (hothers _ hitem) hcoin').1
            apply hkey _ hitem
            rw [← hhash, ← hhash', heq]
        · cases fSpendable with
          | false => exact List.nodup_nil
          | true => exact nodup_coinsOf hfirst

/-- The available coins are of distinct outputs, and their values are amounts. -/
theorem values_availableCoins
    (h : w.availableCoins crypto hash160 view fOnlyConfirmed coinControl = some vCoins) :
  (vCoins.map COutput.prevout).Nodup
    ∧ ∀ coin ∈ vCoins, 0 ≤ coin.nValue.toInt ∧ coin.nValue.toInt ≤ 10 ^ 18
  := by
  have hitems : ∀ item ∈ w.mapWallet.toList, w.mapWallet[item.1]? = some item.2 :=
    fun item hmem => ExtTreeMap.mem_toList_iff_getElem?_eq_some.mp hmem
  constructor
  · apply nodup_availableCoinsLoop h
    · exact fun item hmem => (w.vout_checked _ _ (hitems item hmem)).1
    · apply List.Pairwise.imp _ ExtTreeMap.distinct_keys_toList
      intro item item' hne heq
      apply hne
      rw [heq]
      exact Std.ReflCmp.compare_self
  · intro coin hmem
    obtain ⟨hash, wtx, hitem, -, hcoin⟩ := (mem_availableCoinsLoop h).mp hmem
    obtain ⟨hlength, hvalues⟩ := w.vout_checked _ _ (hitems _ hitem)
    obtain ⟨-, txout, houtput, hvalue, -⟩ := mem_coinsOf hlength hcoin
    rw [hvalue]
    exact (moneyRange_iff _).mp (hvalues txout (List.mem_of_getElem? houtput))

/-- The coins whose values a selection may add up for targets below a bound: the selected ones where
coins are, and else those below the bound. -/
def countedCoins (coinControl : Option CCoinControl) (bound : ℤ) (vCoins : List COutput) :
    List COutput :=
  vCoins.filter (fun coin => coinsSelected coinControl || decide (coin.nValue.toInt < bound))

theorem sumCoins_countedCoins_mono
    {bound bound' : ℤ} (hle : bound ≤ bound') (hnonneg : ∀ coin ∈ vCoins, 0 ≤ coin.nValue.toInt) :
  sumCoins (countedCoins coinControl bound vCoins)
    ≤ sumCoins (countedCoins coinControl bound' vCoins)
  := by
  apply sumCoins_le_of_subperm (List.Sublist.subperm _)
    (fun coin hmem => hnonneg coin (List.mem_of_mem_filter hmem))
  apply List.monotone_filter_right
  intro coin hcoin
  rw [Bool.or_eq_true, decide_eq_true_iff] at hcoin ⊢
  exact hcoin.imp_right (fun hlt => hlt.trans_le hle)

/-! ## What is selected -/

/-- Coins of the wallet that reach the target, and all of the selected ones where coins are. -/
structure SelectsCoins (vCoins : List COutput) (coinControl : Option CCoinControl)
    (nTargetValue : Int64) (r : Selection) (selected : List COutput) : Prop where
  returned : Returned vCoins r selected
  target_le : nTargetValue ≤ r.nValueRet
  all_selected : coinsSelected coinControl = true → selected = vCoins

theorem selectCoinsMinConf_selectsCoins
    (chance : SelectionChance) {vCoins : List COutput} {coinControl : Option CCoinControl}
    {nTargetValue : Int64} {nConfMine nConfTheirs : ℤ}
    (hcoins : SelectableCoins nTargetValue vCoins)
    (htarget : nTargetValue.toInt + 1000000 < 2 ^ 63) (hno : coinsSelected coinControl = false)
    (hfound : (selectCoinsMinConf chance nTargetValue nConfMine nConfTheirs vCoins).1 = true) :
  ∃ selected, SelectsCoins vCoins coinControl nTargetValue
    (selectCoinsMinConf chance nTargetValue nConfMine nConfTheirs vCoins).2 selected
  := by
  obtain ⟨selected, hreturned⟩ :=
    selectCoinsMinConf_returned chance nConfMine nConfTheirs hcoins hfound
  refine ⟨selected, hreturned.of_filter, ?_, fun h => absurd h (by rw [hno]; exact Bool.false_ne_true)⟩
  by_cases hpos : 0 < nTargetValue.toInt
  · exact (selectCoinsMinConf_selects chance nConfMine nConfTheirs hcoins hpos htarget).target_le
      hfound
  · -- no sum of coins is negative
    have hnonneg := sumCoins_nonneg (fun coin hmem =>
      hcoins.nonneg coin (hreturned.of_filter.subperm.subset hmem))
    rw [Int64.le_iff_toInt_le, hreturned.sum]
    omega

theorem selectCoins_spec
    {chance : SelectCoinsChance} {nTargetValue : Int64} {r : Selection}
    (h : w.availableCoins crypto hash160 view true coinControl = some vCoins)
    (hsum : sumCoins (countedCoins coinControl (nTargetValue.toInt + 1000000) vCoins) < 2 ^ 63)
    (hnonneg : 0 ≤ nTargetValue.toInt) (htarget : nTargetValue.toInt + 1000000 < 2 ^ 63)
    (hfound : w.selectCoins crypto hash160 view chance nTargetValue coinControl = some (true, r)) :
  ∃ selected, SelectsCoins vCoins coinControl nTargetValue r selected
  := by
  obtain ⟨hnodup, hvalues⟩ := values_availableCoins h
  rw [selectCoins, h] at hfound
  simp only at hfound
  cases hselected : coinsSelected coinControl with
  | true =>
    rw [hselected, if_pos rfl, Option.some.injEq, Prod.mk.injEq, Bool.and_eq_true,
      decide_eq_true_iff] at hfound
    obtain ⟨⟨-, hreach⟩, rfl⟩ := hfound
    rw [countedCoins, hselected, List.filter_eq_self.mpr (fun _ _ => by rw [Bool.true_or])] at hsum
    exact ⟨vCoins, returned_insertAll (List.Subperm.refl vCoins) hnodup
      (fun coin hmem => (hvalues coin hmem).1) hsum, hreach, fun _ => rfl⟩
  | false =>
    rw [hselected, if_neg Bool.false_ne_true] at hfound
    have hcent : (nTargetValue + CENT).toInt = nTargetValue.toInt + 1000000 := by
      rw [toInt_add_of_lt (by rw [toInt_CENT]; omega) (by rw [toInt_CENT]; omega), toInt_CENT]
    have hcoins : SelectableCoins nTargetValue vCoins := by
      refine ⟨hnodup, fun coin hmem => (hvalues coin hmem).1, fun coin hmem => ?_, ?_⟩
      · have hle := (hvalues coin hmem).2
        omega
      · simp only [countedCoins, hselected, Bool.false_or, ← hcent, ← Int64.lt_iff_toInt_lt] at hsum
        exact hsum
    have hfinish : ∀ {chance : SelectionChance} {nConfMine nConfTheirs : ℤ},
        some (selectCoinsMinConf chance nTargetValue nConfMine nConfTheirs vCoins) = some (true, r) →
        ∃ selected, SelectsCoins vCoins coinControl nTargetValue r selected := by
      intro chance nConfMine nConfTheirs heq
      have hpair := Option.some.inj heq
      have hresult := @selectCoinsMinConf_selectsCoins chance vCoins coinControl nTargetValue
        nConfMine nConfTheirs hcoins htarget hselected (by rw [hpair])
      rwa [hpair] at hresult
    split_ifs at hfound
    · exact hfinish hfound
    · exact hfinish hfound
    · exact hfinish hfound

end CoinWallet

end CorgiCoin
