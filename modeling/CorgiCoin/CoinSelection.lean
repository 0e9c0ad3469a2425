import CorgiCoin.Money
import Mathlib.Data.List.Sort

/-!
# Coin selection

`SelectCoinsMinConf` looks for coins that add up to a target: one coin of exactly the target, all
the coins below it, the smallest coin above it, or a subset that `ApproximateBestSubset` finds with
random bits.  Whatever the bits, the subset the search reports adds up to the total it reports, so
that the coins that are returned add up to the value that is returned.
-/

namespace CorgiCoin

@[irreducible] def CENT : Int64 := 1000000

/-- A sum of two integers in a range that is far from overflow. -/
theorem toInt_add_of_lt
    {a b : Int64} (hlow : -2 ^ 62 ≤ a.toInt + b.toInt) (hhigh : a.toInt + b.toInt < 2 ^ 63) :
  (a + b).toInt = a.toInt + b.toInt
  := by
  rw [Int64.toInt_add, Int.bmod_def]
  omega

theorem toInt_sub_of_lt
    {a b : Int64} (hlow : -2 ^ 62 ≤ a.toInt - b.toInt) (hhigh : a.toInt - b.toInt < 2 ^ 63) :
  (a - b).toInt = a.toInt - b.toInt
  := by
  rw [Int64.toInt_sub, Int.bmod_def]
  omega

/-! ## The search -/

/-- The variables of `ApproximateBestSubset`. -/
structure SubsetSearch where
  nTotal : Int64
  vfIncluded : List Bool
  fReachedTarget : Bool
  nBest : Int64
  vfBest : List Bool

namespace SubsetSearch

variable (vValue : List Int64) (nTargetValue : Int64)

/-- The body of the innermost loop, for the value at a position that is chosen or not. -/
def visit (fChosen : Bool) (i : ℕ) (s : SubsetSearch) : SubsetSearch :=
  if !fChosen then s
  else
    let value := vValue[i]?.getD 0
    let nTotal := s.nTotal + value
    let vfIncluded := s.vfIncluded.set i true
    if nTotal ≥ nTargetValue then
      let s := if nTotal < s.nBest then { s with nBest := nTotal, vfBest := vfIncluded } else s
      { s with nTotal := nTotal - value, vfIncluded := vfIncluded.set i false, fReachedTarget := true }
    else { s with nTotal, vfIncluded }

/-- A pass over the values: the first one chooses with random bits, the second one what is not yet
included. -/
def pass (nPass : ℕ) (bits : ℕ → Bool) (s : SubsetSearch) : SubsetSearch :=
  (List.range vValue.length).foldl
    (fun s i => visit vValue nTargetValue
      (if nPass = 0 then bits i else !s.vfIncluded[i]?.getD true) i s)
    s

/-- A turn of the outer loop. -/
def repetition (bits : ℕ → Bool) (s : SubsetSearch) : SubsetSearch :=
  let s := { s with
    nTotal := 0, vfIncluded := List.replicate vValue.length false, fReachedTarget := false }
  let s := pass vValue nTargetValue 0 bits s
  if s.fReachedTarget then s else pass vValue nTargetValue 1 bits s

/-- The outer loop, with the number of turns left. -/
def repetitions (bits : ℕ → ℕ → Bool) : ℕ → SubsetSearch → SubsetSearch
  | 0, s => s
  | n + 1, s =>
    if s.nBest = nTargetValue then s
    else repetitions bits n (repetition vValue nTargetValue (bits n) s)

end SubsetSearch

/-- `ApproximateBestSubset` with the outcomes of the random bits. -/
def approximateBestSubset (vValue : List Int64) (nTotalLower nTargetValue : Int64)
    (bits : ℕ → ℕ → Bool) (iterations : ℕ) : List Bool × Int64 :=
  let s := SubsetSearch.repetitions vValue nTargetValue bits iterations
    { nTotal := 0, vfIncluded := [], fReachedTarget := false, nBest := nTotalLower,
      vfBest := List.replicate vValue.length true }
  (s.vfBest, s.nBest)

/-! ## What the search reports -/

/-- The sum of the values that are flagged. -/
def subsetSum : List Int64 → List Bool → ℤ
  | value :: vValue, flag :: flags => (if flag then value.toInt else 0) + subsetSum vValue flags
  | _, _ => 0

variable {vValue : List Int64}

theorem subsetSum_set_true
    {flags : List Bool} {i : ℕ} {value : Int64}
    (hvalue : vValue[i]? = some value) (hflag : flags[i]? = some false) :
  subsetSum vValue (flags.set i true) = subsetSum vValue flags + value.toInt
  := by
  induction vValue generalizing flags i with
  | nil => cases hvalue
  | cons first vValue ih =>
    cases flags with
    | nil => cases hflag
    | cons flag flags =>
      cases i with
      | zero =>
        obtain rfl : first = value := Option.some.inj hvalue
        obtain rfl : flag = false := Option.some.inj hflag
        rw [List.set_cons_zero, subsetSum, subsetSum, if_pos rfl, if_neg Bool.false_ne_true]
        ring
      | succ i =>
        rw [List.set_cons_succ, subsetSum, subsetSum, ih hvalue hflag]
        ring

theorem subsetSum_bounds
    (h : ∀ value ∈ vValue, 0 ≤ value.toInt) (flags : List Bool) :
  0 ≤ subsetSum vValue flags ∧ subsetSum vValue flags ≤ sumValues vValue
  := by
  induction vValue generalizing flags with
  | nil => exact ⟨le_rfl, le_rfl⟩
  | cons value vValue ih =>
    obtain ⟨hfirst, hrest⟩ := List.forall_mem_cons.mp h
    rw [sumValues, List.map_cons, List.sum_cons]
    cases flags with
    | nil =>
      have hempty := (ih hrest []).2
      have hnil : subsetSum vValue [] = 0 := by
        cases vValue with
        | nil => rfl
        | cons _ _ => rfl
      rw [hnil, sumValues] at hempty
      rw [subsetSum]
      · constructor
        · exact le_rfl
        · omega
      · intro _ _ _ _ _ heq
        cases heq
    | cons flag flags =>
      obtain ⟨hlow, hhigh⟩ := ih hrest flags
      rw [sumValues] at hhigh
      rw [subsetSum]
      split_ifs
      · omega
      · omega

theorem subsetSum_replicate_true (vValue : List Int64) :
  subsetSum vValue (List.replicate vValue.length true) = sumValues vValue
  := by
  induction vValue with
  | nil => rfl
  | cons value vValue ih =>
    rw [List.length_cons, List.replicate_succ, subsetSum, if_pos rfl, ih]
    rfl

theorem subsetSum_replicate_false (vValue : List Int64) :
  subsetSum vValue (List.replicate vValue.length false) = 0
  := by
  induction vValue with
  | nil => rfl
  | cons value vValue ih =>
    rw [List.length_cons, List.replicate_succ, subsetSum, if_neg Bool.false_ne_true, ih]
    rfl

namespace SubsetSearch

variable {vValue : List Int64} {nTargetValue : Int64}

/-- The totals are those of the flags, and the best total reaches the target. -/
structure Consistent (vValue : List Int64) (nTargetValue : Int64) (s : SubsetSearch) : Prop where
  length_included : s.vfIncluded.length = vValue.length
  total : s.nTotal.toInt = subsetSum vValue s.vfIncluded
  best : s.nBest.toInt = subsetSum vValue s.vfBest
  target_le : nTargetValue ≤ s.nBest

variable {s : SubsetSearch}

/-- A visit keeps the totals right when it chooses values that are not included, and changes no
flag at another position. -/
theorem Consistent.visit
    (h : Consistent vValue nTargetValue s) (hvalues : ∀ value ∈ vValue, 0 ≤ value.toInt)
    (hsum : sumValues vValue < 2 ^ 63) {fChosen : Bool} {i : ℕ}
    (hchosen : fChosen = true → s.vfIncluded[i]? = some false) :
  Consistent vValue nTargetValue (s.visit vValue nTargetValue fChosen i)
    ∧ ∀ j, j ≠ i → (s.visit vValue nTargetValue fChosen i).vfIncluded[j]? = s.vfIncluded[j]?
  := by
  cases fChosen with
  | false => exact ⟨h, fun _ _ => rfl⟩
  | true =>
    have hflag := hchosen rfl
    obtain ⟨hlt, hfalse⟩ := List.getElem?_eq_some_iff.mp hflag
    obtain ⟨value, hvalue⟩ : ∃ value, vValue[i]? = some value :=
      ⟨_, List.getElem?_eq_getElem (h.length_included ▸ hlt)⟩
    have hset := subsetSum_set_true hvalue hflag
    obtain ⟨-, hhigh⟩ := subsetSum_bounds hvalues (s.vfIncluded.set i true)
    obtain ⟨hlow, -⟩ := subsetSum_bounds hvalues s.vfIncluded
    have hnonneg := hvalues value (List.mem_of_getElem? hvalue)
    have htotal : (s.nTotal + value).toInt = subsetSum vValue (s.vfIncluded.set i true) := by
      rw [toInt_add_of_lt, h.total, hset]
      · rw [h.total]
        omega
      · rw [h.total]
        omega
    have hback : s.nTotal + value - value = s.nTotal := Int64.add_sub_cancel _ _
    have hunset : (s.vfIncluded.set i true).set i false = s.vfIncluded := by
      rw [List.set_set, ← hfalse]
      exact List.set_getElem_self hlt
    have hothers : ∀ j, j ≠ i → (s.vfIncluded.set i true)[j]? = s.vfIncluded[j]? :=
      fun j hj => List.getElem?_set_ne hj.symm
    rw [SubsetSearch.visit, Bool.not_true, if_neg Bool.false_ne_true]
    simp only [hvalue, Option.getD_some, hback, hunset]
    by_cases hreached : s.nTotal + value ≥ nTargetValue
    · rw [if_pos hreached]
      by_cases hbetter : s.nTotal + value < s.nBest
      · rw [if_pos hbetter]
        exact ⟨⟨h.length_included, h.total, htotal, hreached⟩, fun _ _ => rfl⟩
      · rw [if_neg hbetter]
        exact ⟨⟨h.length_included, h.total, h.best, h.target_le⟩, fun _ _ => rfl⟩
    · rw [if_neg hreached]
      refine ⟨⟨?_, htotal, h.best, h.target_le⟩, hothers⟩
      rw [List.length_set, h.length_included]

/-- A pass keeps the totals right: the first one visits each position once, from no flags. -/
theorem Consistent.pass
    {s : SubsetSearch} (h : Consistent vValue nTargetValue s) (hvalues : ∀ value ∈ vValue, 0 ≤ value.toInt)
    (hsum : sumValues vValue < 2 ^ 63) {nPass : ℕ} (bits : ℕ → Bool)
    (hempty : nPass = 0 → ∀ i < vValue.length, s.vfIncluded[i]? = some false) :
  Consistent vValue nTargetValue (s.pass vValue nTargetValue nPass bits)
  := by
  have hprefixes : ∀ m ≤ vValue.length,
      let s' := (List.range m).foldl
        (fun s i => SubsetSearch.visit vValue nTargetValue
          (if nPass = 0 then bits i else !s.vfIncluded[i]?.getD true) i s) s
      Consistent vValue nTargetValue s'
        ∧ (nPass = 0 → ∀ i, m ≤ i → i < vValue.length → s'.vfIncluded[i]? = some false) := by
    intro m hm
    induction m with
    | zero => exact ⟨h, fun hpass i _ hi => hempty hpass i hi⟩
    | succ m ih =>
      obtain ⟨hcons, hrest⟩ := ih (Nat.le_of_succ_le hm)
      rw [List.range_succ, List.foldl_append]
      generalize (List.range m).foldl
        (fun s i => SubsetSearch.visit vValue nTargetValue
          (if nPass = 0 then bits i else !s.vfIncluded[i]?.getD true) i s) s = s' at hcons hrest
      have hchosen : (if nPass = 0 then bits m else !s'.vfIncluded[m]?.getD true) = true →
          s'.vfIncluded[m]? = some false := by
        intro hchoice
        by_cases hpass : nPass = 0
        · exact hrest hpass m le_rfl hm
        · rw [if_neg hpass] at hchoice
          cases hflag : s'.vfIncluded[m]? with
          | none =>
            rw [hflag] at hchoice
            cases hchoice
          | some flag =>
            rw [hflag] at hchoice
            cases flag with
            | false => rfl
            | true => cases hchoice
      obtain ⟨hvisit, hothers⟩ := hcons.visit hvalues hsum hchosen
      refine ⟨hvisit, ?_⟩
      intro hpass i hi hlt
      exact (hothers i (by omega)).trans (hrest hpass i (by omega) hlt)
  exact (hprefixes vValue.length le_rfl).1

theorem Consistent.repetition
    (hbest : s.nBest.toInt = subsetSum vValue s.vfBest)
    (htarget : nTargetValue ≤ s.nBest) (hvalues : ∀ value ∈ vValue, 0 ≤ value.toInt)
    (hsum : sumValues vValue < 2 ^ 63) (bits : ℕ → Bool) :
  Consistent vValue nTargetValue (s.repetition vValue nTargetValue bits)
  := by
  have hstart : Consistent vValue nTargetValue { s with
      nTotal := 0, vfIncluded := List.replicate vValue.length false, fReachedTarget := false } :=
    ⟨List.length_replicate, (subsetSum_replicate_false vValue).symm, hbest, htarget⟩
  have hempty : ∀ i < vValue.length, (List.replicate vValue.length false)[i]? = some false := by
    intro i hi
    rw [List.getElem?_replicate, if_pos hi]
  have hfirst := @Consistent.pass _ _ _ hstart hvalues hsum 0 bits (fun _ => hempty)
  rw [SubsetSearch.repetition]
  split_ifs
  · exact hfirst
  · exact hfirst.pass hvalues hsum bits (fun hpass => absurd hpass (by decide))

theorem repetitions_best
    (bits : ℕ → ℕ → Bool) (n : ℕ) (hbest : s.nBest.toInt = subsetSum vValue s.vfBest)
    (htarget : nTargetValue ≤ s.nBest) (hvalues : ∀ value ∈ vValue, 0 ≤ value.toInt)
    (hsum : sumValues vValue < 2 ^ 63) :
  let s' := s.repetitions vValue nTargetValue bits n
  s'.nBest.toInt = subsetSum vValue s'.vfBest ∧ nTargetValue ≤ s'.nBest
  := by
  induction n generalizing s with
  | zero => exact ⟨hbest, htarget⟩
  | succ n ih =>
    rw [SubsetSearch.repetitions]
    split_ifs
    · exact ⟨hbest, htarget⟩
    · have hturn := Consistent.repetition hbest htarget hvalues hsum (bits n)
      exact ih hturn.best hturn.target_le

end SubsetSearch

variable {nTargetValue : Int64}

/-- Whatever the random bits, the best total is the sum of the best subset, and it reaches the
target if all values together do. -/
theorem approximateBestSubset_best
    {nTotalLower : Int64} (bits : ℕ → ℕ → Bool) (iterations : ℕ)
    (hvalues : ∀ value ∈ vValue, 0 ≤ value.toInt) (hsum : sumValues vValue < 2 ^ 63)
    (htotal : nTotalLower.toInt = sumValues vValue) (htarget : nTargetValue ≤ nTotalLower) :
  let r := approximateBestSubset vValue nTotalLower nTargetValue bits iterations
  r.2.toInt = subsetSum vValue r.1 ∧ nTargetValue ≤ r.2
  := by
  apply SubsetSearch.repetitions_best bits iterations _ htarget hvalues hsum
  rw [subsetSum_replicate_true, htotal]

/-! ## Selection -/

/-- An output of the wallet as the selection sees it: which output it is, its value, its depth, and
whether its transaction is from the wallet itself. -/
structure COutput where
  prevout : COutPoint
  nValue : Int64
  nDepth : ℤ
  fFromMe : Bool
  deriving DecidableEq, Repr

/-- What chance decides in a call: the order of the coins, the order of coins of one value, and the
random bits of the two searches. -/
structure SelectionChance where
  shuffle : List COutput → List COutput
  shuffle_perm : ∀ vCoins, (shuffle vCoins).Perm vCoins
  sort : List COutput → List COutput
  sort_perm : ∀ vValue, (sort vValue).Perm vValue
  sort_pairwise : ∀ vValue, (sort vValue).Pairwise (fun coin coin' => coin'.nValue ≤ coin.nValue)
  bits : ℕ → ℕ → Bool
  bitsAgain : ℕ → ℕ → Bool

/-- What a selection returns: the coins and their value. -/
structure Selection where
  setCoinsRet : List COutPoint
  nValueRet : Int64
  deriving DecidableEq, Repr

namespace Selection

def empty : Selection := ⟨[], 0⟩

def insert (r : Selection) (coin : COutput) : Selection :=
  ⟨r.setCoinsRet.insert coin.prevout, r.nValueRet + coin.nValue⟩

def insertAll (coins : List COutput) : Selection := coins.foldl insert empty

end Selection

/-- The coins that are at least as large as the target, of which the lowest is kept, and the smaller
ones. -/
structure Split where
  coinLowestLarger : Option COutput
  vValue : List COutput
  nTotalLower : Int64

/-- `coinLowestLarger.first` -/
def Split.lowestLarger (s : Split) : Int64 :=
  (s.coinLowestLarger.map COutput.nValue).getD Int64.maxValue

/-- A coin that meets the thresholds. -/
def COutput.eligible (nConfMine nConfTheirs : ℤ) (output : COutput) : Bool :=
  !decide (output.nDepth < if output.fFromMe then nConfMine else nConfTheirs)

/-- The loop over the coins, which ends at a coin of exactly the target. -/
def splitCoins (nTargetValue : Int64) (nConfMine nConfTheirs : ℤ) :
    List COutput → Split → COutput ⊕ Split
  | [], s => .inr s
  | output :: vCoins, s =>
    if !output.eligible nConfMine nConfTheirs then
      splitCoins nTargetValue nConfMine nConfTheirs vCoins s
    else if output.nValue = nTargetValue then .inl output
    else if output.nValue < nTargetValue + CENT then
      splitCoins nTargetValue nConfMine nConfTheirs vCoins
        { s with vValue := s.vValue ++ [output], nTotalLower := s.nTotalLower + output.nValue }
    else if output.nValue < s.lowestLarger then
      splitCoins nTargetValue nConfMine nConfTheirs vCoins { s with coinLowestLarger := some output }
    else splitCoins nTargetValue nConfMine nConfTheirs vCoins s

/-- The coins that are flagged. -/
def flagged (vValue : List COutput) (flags : List Bool) : List COutput :=
  ((vValue.zip flags).filter Prod.snd).map Prod.fst

/-- The part of `CWallet::SelectCoinsMinConf` after the loop. -/
def selectFromSplit (chance : SelectionChance) (nTargetValue : Int64) (s : Split) :
    Bool × Selection :=
  if s.nTotalLower = nTargetValue then (true, .insertAll s.vValue)
  else if s.nTotalLower < nTargetValue then
    match s.coinLowestLarger with
    | none => (false, .empty)
    | some coin => (true, .insertAll [coin])
  else
    let vValue := chance.sort s.vValue
    let values := vValue.map COutput.nValue
    let best := approximateBestSubset values s.nTotalLower nTargetValue chance.bits 1000
    let best :=
      if best.2 ≠ nTargetValue ∧ s.nTotalLower ≥ nTargetValue + CENT then
        approximateBestSubset values s.nTotalLower (nTargetValue + CENT) chance.bitsAgain 1000
      else best
    let subset := Selection.insertAll (flagged vValue best.1)
    match s.coinLowestLarger with
    | none => (true, subset)
    | some coin =>
      if (best.2 ≠ nTargetValue ∧ best.2 < nTargetValue + CENT) ∨ coin.nValue ≤ best.2 then
        (true, .insertAll [coin])
      else (true, subset)

/-- `CWallet::SelectCoinsMinConf` -/
def selectCoinsMinConf (chance : SelectionChance) (nTargetValue : Int64)
    (nConfMine nConfTheirs : ℤ) (vCoins : List COutput) : Bool × Selection :=
  match splitCoins nTargetValue nConfMine nConfTheirs (chance.shuffle vCoins) ⟨none, [], 0⟩ with
  | .inl coin => (true, .insertAll [coin])
  | .inr s => selectFromSplit chance nTargetValue s

/-! ## What is selected -/

/-- The sum of the values of coins. -/
def sumCoins (coins : List COutput) : ℤ := sumValues (coins.map COutput.nValue)

@[simp]
theorem sumCoins_nil : sumCoins [] = 0 := rfl

@[simp]
theorem sumCoins_cons (coin : COutput) (coins : List COutput) :
  sumCoins (coin :: coins) = coin.nValue.toInt + sumCoins coins
  := rfl

@[simp]
theorem sumCoins_append (coins coins' : List COutput) :
  sumCoins (coins ++ coins') = sumCoins coins + sumCoins coins'
  := by
  simp [sumCoins, sumValues]

theorem sumCoins_nonneg {coins : List COutput} (h : ∀ coin ∈ coins, 0 ≤ coin.nValue.toInt) :
  0 ≤ sumCoins coins
  := by
  induction coins with
  | nil => exact le_rfl
  | cons coin coins ih =>
    obtain ⟨hfirst, hrest⟩ := List.forall_mem_cons.mp h
    exact Int.add_nonneg hfirst (ih hrest)

variable {coins : List COutput}

theorem sumCoins_perm {coins' : List COutput} (h : coins.Perm coins') :
  sumCoins coins = sumCoins coins'
  := ((h.map COutput.nValue).map Int64.toInt).sum_eq

theorem sumCoins_le_of_subperm
    {coins' : List COutput} (h : coins.Subperm coins')
    (hnonneg : ∀ coin ∈ coins', 0 ≤ coin.nValue.toInt) :
  sumCoins coins ≤ sumCoins coins'
  := by
  obtain ⟨sublist, hsame, hsublist⟩ := h
  obtain ⟨rest, hperm⟩ := hsublist.exists_perm_append
  rw [sumCoins_perm hperm, sumCoins_append, sumCoins_perm hsame]
  have hrest := @sumCoins_nonneg rest (fun coin hmem =>
    hnonneg coin (hperm.symm.subset (List.mem_append_right _ hmem)))
  omega

theorem le_sumCoins_of_mem
    {coin : COutput} (hmem : coin ∈ coins) (hnonneg : ∀ coin ∈ coins, 0 ≤ coin.nValue.toInt) :
  coin.nValue.toInt ≤ sumCoins coins
  := by
  have hle := sumCoins_le_of_subperm (List.singleton_subperm_iff.mpr hmem) hnonneg
  rwa [sumCoins_cons, sumCoins_nil, Int.add_zero] at hle

theorem foldl_insert
    {coins : List COutput} {r : Selection} (hnodup : (r.setCoinsRet ++ coins.map COutput.prevout).Nodup)
    (hnonneg : ∀ coin ∈ coins, 0 ≤ coin.nValue.toInt) (hlow : 0 ≤ r.nValueRet.toInt)
    (hhigh : r.nValueRet.toInt + sumCoins coins < 2 ^ 63) :
  (coins.foldl Selection.insert r).setCoinsRet.Perm (r.setCoinsRet ++ coins.map COutput.prevout)
    ∧ (coins.foldl Selection.insert r).nValueRet.toInt = r.nValueRet.toInt + sumCoins coins
  := by
  induction coins generalizing r with
  | nil => exact ⟨by simp, by simp⟩
  | cons coin coins ih =>
    obtain ⟨hfirst, hrest⟩ := List.forall_mem_cons.mp hnonneg
    have htail := sumCoins_nonneg hrest
    rw [sumCoins_cons] at hhigh
    rw [List.map_cons] at hnodup
    have hmiddle : (r.setCoinsRet ++ coin.prevout :: coins.map COutput.prevout).Perm
        (coin.prevout :: (r.setCoinsRet ++ coins.map COutput.prevout)) := List.perm_middle
    have hnot : coin.prevout ∉ r.setCoinsRet := by
      intro hmem
      exact (List.nodup_cons.mp (hmiddle.nodup_iff.mp hnodup)).1 (List.mem_append_left _ hmem)
    have hset : (r.insert coin).setCoinsRet = coin.prevout :: r.setCoinsRet :=
      List.insert_of_not_mem hnot
    have hvalue : (r.insert coin).nValueRet.toInt = r.nValueRet.toInt + coin.nValue.toInt :=
      toInt_add_of_lt (by omega) (by omega)
    obtain ⟨hperm, hsum⟩ := @ih (r.insert coin)
      (by rw [hset]; exact hmiddle.nodup_iff.mp hnodup) hrest (by omega) (by omega)
    rw [List.foldl_cons]
    constructor
    · rw [hset] at hperm
      exact hperm.trans hmiddle.symm
    · rw [hsum, hvalue, sumCoins_cons]
      ring

/-- Coins that can be returned: some of those that meet the thresholds. -/
structure Returned (eligible : List COutput) (r : Selection) (selected : List COutput) : Prop where
  subperm : selected.Subperm eligible
  perm : r.setCoinsRet.Perm (selected.map COutput.prevout)
  nodup : r.setCoinsRet.Nodup
  sum : r.nValueRet.toInt = sumCoins selected

variable {eligible selected : List COutput}

theorem returned_insertAll
    (hsubperm : selected.Subperm eligible) (hnodup : (eligible.map COutput.prevout).Nodup)
    (hnonneg : ∀ coin ∈ eligible, 0 ≤ coin.nValue.toInt) (hsum : sumCoins selected < 2 ^ 63) :
  Returned eligible (.insertAll selected) selected
  := by
  have hnodup' : (selected.map COutput.prevout).Nodup := by
    obtain ⟨sublist, hsame, hsublist⟩ := hsubperm
    exact (hsame.map COutput.prevout).nodup_iff.mp ((hsublist.map COutput.prevout).nodup hnodup)
  have hnonneg' : ∀ coin ∈ selected, 0 ≤ coin.nValue.toInt :=
    fun coin hmem => hnonneg coin (hsubperm.subset hmem)
  have hzero : Selection.empty.nValueRet.toInt = 0 := rfl
  obtain ⟨hperm, hvalue⟩ := @foldl_insert selected .empty hnodup' hnonneg' le_rfl (by omega)
  refine ⟨hsubperm, hperm, hperm.nodup_iff.mpr hnodup', ?_⟩
  rw [Selection.insertAll, hvalue, hzero, Int.zero_add]

/-- What the loop over the coins leaves: the smaller ones with their total, and the lowest of the
larger ones if there are any. -/
structure IsSplit (coins : List COutput) (nTargetValue : Int64) (s : Split) : Prop where
  vValue : s.vValue = coins.filter (fun coin => coin.nValue < nTargetValue + CENT)
  total : s.nTotalLower.toInt = sumCoins s.vValue
  not_target : ∀ coin ∈ coins, coin.nValue ≠ nTargetValue
  larger_mem : ∀ coin ∈ s.coinLowestLarger, coin ∈ coins ∧ ¬coin.nValue < nTargetValue + CENT
  exists_larger : ∀ coin ∈ coins, ¬coin.nValue < nTargetValue + CENT →
    s.coinLowestLarger.isSome = true

/-- The loop goes on over the coins after those it has split. -/
theorem splitCoins_spec
    {nTargetValue : Int64} {nConfMine nConfTheirs : ℤ} {vCoins before : List COutput} {s : Split}
    (h : IsSplit before nTargetValue s) (hnonneg : ∀ coin ∈ before ++ vCoins, 0 ≤ coin.nValue.toInt)
    (hmax : ∀ coin ∈ vCoins, coin.nValue.toInt < 2 ^ 63 - 1)
    (hsum : sumCoins ((before ++ vCoins).filter (fun coin => coin.nValue < nTargetValue + CENT))
      < 2 ^ 63) :
  match splitCoins nTargetValue nConfMine nConfTheirs vCoins s with
  | .inl coin => coin ∈ vCoins.filter (COutput.eligible nConfMine nConfTheirs)
      ∧ coin.nValue = nTargetValue
  | .inr s' =>
    IsSplit (before ++ vCoins.filter (COutput.eligible nConfMine nConfTheirs)) nTargetValue s'
  := by
  induction vCoins generalizing before s with
  | nil =>
    rw [List.filter_nil, List.append_nil]
    exact h
  | cons output vCoins ih =>
    have hassoc : before ++ output :: vCoins = (before ++ [output]) ++ vCoins := by simp
    obtain ⟨hmaxFirst, hmax⟩ := List.forall_mem_cons.mp hmax
    cases helig : output.eligible nConfMine nConfTheirs with
    | false =>
      have hperm : (before ++ output :: vCoins).Perm (output :: (before ++ vCoins)) :=
        List.perm_middle
      have hless := sumCoins_le_of_subperm
        ((List.sublist_append_right [output] (before ++ vCoins)).filter
          (fun coin => decide (coin.nValue < nTargetValue + CENT))).subperm (fun coin hmem =>
            hnonneg coin (hperm.symm.subset (List.mem_of_mem_filter hmem)))
      rw [sumCoins_perm (hperm.filter _)] at hsum
      have hrest := @ih before s h (fun coin hmem =>
        hnonneg coin (hperm.symm.subset (List.mem_cons_of_mem _ hmem))) hmax (hless.trans_lt hsum)
      rw [splitCoins, helig, Bool.not_false, if_pos rfl, List.filter_cons_of_neg (by simp [helig])]
      exact hrest
    | true =>
      rw [splitCoins, helig, Bool.not_true, if_neg Bool.false_ne_true,
        List.filter_cons_of_pos helig]
      by_cases htarget : output.nValue = nTargetValue
      · rw [if_pos htarget]
        exact ⟨List.mem_cons_self, htarget⟩
      · -- the coin joins those that were split before
        have hnext : ∀ s', IsSplit (before ++ [output]) nTargetValue s' →
            match splitCoins nTargetValue nConfMine nConfTheirs vCoins s' with
            | .inl coin => coin ∈ output :: vCoins.filter (COutput.eligible nConfMine nConfTheirs)
                ∧ coin.nValue = nTargetValue
            | .inr s' => IsSplit
                (before ++ output :: vCoins.filter (COutput.eligible nConfMine nConfTheirs))
                nTargetValue s' := by
          intro s' hs'
          have hrest := ih hs' (hassoc ▸ hnonneg) hmax (hassoc ▸ hsum)
          cases hsplit : splitCoins nTargetValue nConfMine nConfTheirs vCoins s' with
          | inl coin =>
            rw [hsplit] at hrest
            exact ⟨List.mem_cons_of_mem _ hrest.1, hrest.2⟩
          | inr s'' =>
            rw [hsplit, List.append_assoc, List.singleton_append] at hrest
            exact hrest
        have hnot : ∀ coin ∈ before ++ [output], coin.nValue ≠ nTargetValue := by
          intro coin hmem
          rcases List.mem_append.mp hmem with hmem | hmem
          · exact h.not_target coin hmem
          · obtain rfl := List.mem_singleton.mp hmem
            exact htarget
        rw [if_neg htarget]
        by_cases hlower : output.nValue < nTargetValue + CENT
        · rw [if_pos hlower]
          apply hnext
          have hfilter : (before ++ [output]).filter
              (fun coin => decide (coin.nValue < nTargetValue + CENT)) = s.vValue ++ [output] := by
            rw [List.filter_append, ← h.vValue, List.filter_cons_of_pos (by simpa using hlower),
              List.filter_nil]
          refine ⟨hfilter.symm, ?_, hnot, ?_, ?_⟩
          · have hlow : 0 ≤ sumCoins s.vValue := by
              rw [h.vValue]
              exact sumCoins_nonneg (fun coin hmem =>
                hnonneg coin (List.mem_append_left _ (List.mem_of_mem_filter hmem)))
            have hfirst := hnonneg output (List.mem_append_right _ List.mem_cons_self)
            have hrest := @sumCoins_nonneg
              (vCoins.filter (fun coin => decide (coin.nValue < nTargetValue + CENT)))
              (fun coin hmem => hnonneg coin (List.mem_append_right _
                (List.mem_cons_of_mem _ (List.mem_of_mem_filter hmem))))
            rw [hassoc, List.filter_append, hfilter, sumCoins_append, sumCoins_append, sumCoins_cons,
              sumCoins_nil] at hsum
            simp only
            rw [toInt_add_of_lt (by rw [h.total]; omega) (by rw [h.total]; omega), h.total,
              sumCoins_append, sumCoins_cons, sumCoins_nil, Int.add_zero]
          · intro coin hcoin
            obtain ⟨hmem, hlarger⟩ := h.larger_mem coin hcoin
            exact ⟨List.mem_append_left _ hmem, hlarger⟩
          · intro coin hmem hlarger
            rcases List.mem_append.mp hmem with hmem | hmem
            · exact h.exists_larger coin hmem hlarger
            · obtain rfl := List.mem_singleton.mp hmem
              exact absurd hlower hlarger
        · rw [if_neg hlower]
          have hfilter : (before ++ [output]).filter
              (fun coin => decide (coin.nValue < nTargetValue + CENT)) = s.vValue := by
            rw [List.filter_append, ← h.vValue, List.filter_cons_of_neg (by simpa using hlower),
              List.filter_nil, List.append_nil]
          by_cases hlowest : output.nValue < s.lowestLarger
          · rw [if_pos hlowest]
            apply hnext
            refine ⟨hfilter.symm, h.total, hnot, ?_, fun _ _ _ => rfl⟩
            intro coin hcoin
            obtain rfl := Option.some.inj hcoin
            exact ⟨List.mem_append_right _ List.mem_cons_self, hlower⟩
          · rw [if_neg hlowest]
            apply hnext
            refine ⟨hfilter.symm, h.total, hnot, ?_, ?_⟩
            · intro coin hcoin
              obtain ⟨hmem, hlarger⟩ := h.larger_mem coin hcoin
              exact ⟨List.mem_append_left _ hmem, hlarger⟩
            · -- a value below the largest integer is passed over for a kept coin only
              intro coin _ _
              cases hkept : s.coinLowestLarger with
              | some _ => rfl
              | none =>
                have hlargest : s.lowestLarger = Int64.maxValue := by
                  rw [Split.lowestLarger, hkept]
                  rfl
                rw [hlargest, Int64.lt_iff_toInt_lt] at hlowest
                have hmaxInt : Int64.maxValue.toInt = 2 ^ 63 - 1 := by decide
                omega

/-- The flagged coins are some of the coins, and add up to the sum of the flagged values. -/
theorem flagged_spec (vValue : List COutput) (flags : List Bool) :
  (flagged vValue flags).Sublist vValue
    ∧ sumCoins (flagged vValue flags) = subsetSum (vValue.map COutput.nValue) flags
  := by
  induction vValue generalizing flags with
  | nil => exact ⟨List.Sublist.refl _, rfl⟩
  | cons coin vValue ih =>
    cases flags with
    | nil => exact ⟨List.nil_sublist _, rfl⟩
    | cons flag flags =>
      obtain ⟨hsublist, hsum⟩ := ih flags
      cases flag with
      | false =>
        refine ⟨hsublist.cons coin, ?_⟩
        rw [List.map_cons, subsetSum, if_neg Bool.false_ne_true, Int.zero_add]
        exact hsum
      | true =>
        refine ⟨hsublist.cons_cons coin, ?_⟩
        rw [List.map_cons, subsetSum, if_pos rfl, ← hsum]
        rfl

/-- The search over the smaller coins: what it reports adds up and reaches the target, also when it
was repeated for more. -/
theorem best_spec
    {vValue : List COutput} {nTotalLower nTargetValue : Int64} {bits bitsAgain : ℕ → ℕ → Bool}
    (hvalues : ∀ coin ∈ vValue, 0 ≤ coin.nValue.toInt) (hsum : sumCoins vValue < 2 ^ 63)
    (htotal : nTotalLower.toInt = sumCoins vValue) (htarget : nTargetValue ≤ nTotalLower)
    (hcent : nTargetValue ≤ nTargetValue + CENT) :
  let values := vValue.map COutput.nValue
  let best := approximateBestSubset values nTotalLower nTargetValue bits 1000
  let best :=
    if best.2 ≠ nTargetValue ∧ nTotalLower ≥ nTargetValue + CENT then
      approximateBestSubset values nTotalLower (nTargetValue + CENT) bitsAgain 1000
    else best
  best.2.toInt = sumCoins (flagged vValue best.1) ∧ nTargetValue ≤ best.2
  := by
  intro values best best'
  have hnonneg : ∀ value ∈ values, 0 ≤ value.toInt := by
    intro value hmem
    obtain ⟨coin, hcoin, rfl⟩ := List.mem_map.mp hmem
    exact hvalues coin hcoin
  rw [(flagged_spec vValue best'.1).2]
  by_cases hagain : best.2 ≠ nTargetValue ∧ nTotalLower ≥ nTargetValue + CENT
  · have hbest : best' = approximateBestSubset values nTotalLower (nTargetValue + CENT) bitsAgain
        1000 := if_pos hagain
    obtain ⟨hadds, hreach⟩ :=
      approximateBestSubset_best bitsAgain 1000 hnonneg hsum htotal hagain.2
    rw [hbest]
    exact ⟨hadds, Int64.le_trans hcent hreach⟩
  · have hbest : best' = best := if_neg hagain
    rw [hbest]
    exact approximateBestSubset_best bits 1000 hnonneg hsum htotal htarget

/-- Coins of distinct outputs, as `AvailableCoins` lists them: no value is negative, and the sum of the
values is far from overflow. -/
structure SpendableCoins (vCoins : List COutput) : Prop where
  nodup : (vCoins.map COutput.prevout).Nodup
  nonneg : ∀ coin ∈ vCoins, 0 ≤ coin.nValue.toInt
  sum_lt : sumCoins vCoins < 2 ^ 62

/-- Coins of distinct outputs for a target: no value is negative or the largest integer, and the values
below the target and a cent have a sum that fits. -/
structure SelectableCoins (nTargetValue : Int64) (vCoins : List COutput) : Prop where
  nodup : (vCoins.map COutput.prevout).Nodup
  nonneg : ∀ coin ∈ vCoins, 0 ≤ coin.nValue.toInt
  lt_max : ∀ coin ∈ vCoins, coin.nValue.toInt < 2 ^ 63 - 1
  lower_lt : sumCoins (vCoins.filter (fun coin => coin.nValue < nTargetValue + CENT)) < 2 ^ 63

variable {vCoins : List COutput}

theorem SpendableCoins.selectable (h : SpendableCoins vCoins)
    (nTargetValue : Int64) :
  SelectableCoins nTargetValue vCoins
  := by
  have hsum := h.sum_lt
  refine ⟨h.nodup, h.nonneg, fun coin hmem => ?_, ?_⟩
  · have hle := le_sumCoins_of_mem hmem h.nonneg
    omega
  · have hle := sumCoins_le_of_subperm (@List.filter_sublist _
      (fun coin => decide (coin.nValue < nTargetValue + CENT)) vCoins).subperm h.nonneg
    omega

theorem SelectableCoins.filter
    (h : SelectableCoins nTargetValue vCoins) (p : COutput → Bool) :
  SelectableCoins nTargetValue (vCoins.filter p)
  := by
  refine ⟨(List.filter_sublist.map _).nodup h.nodup,
    fun coin hmem => h.nonneg coin (List.mem_of_mem_filter hmem),
    fun coin hmem => h.lt_max coin (List.mem_of_mem_filter hmem), lt_of_le_of_lt ?_ h.lower_lt⟩
  exact sumCoins_le_of_subperm (List.filter_sublist.filter _).subperm
    (fun coin hmem => h.nonneg coin (List.mem_of_mem_filter hmem))

theorem SelectableCoins.perm {vCoins' : List COutput}
    (h : SelectableCoins nTargetValue vCoins) (hperm : vCoins'.Perm vCoins) :
  SelectableCoins nTargetValue vCoins'
  := by
  refine ⟨(hperm.map _).nodup_iff.mpr h.nodup, fun coin hmem => h.nonneg coin (hperm.subset hmem),
    fun coin hmem => h.lt_max coin (hperm.subset hmem), ?_⟩
  rw [sumCoins_perm (hperm.filter _)]
  exact h.lower_lt

theorem IsSplit.lower_lt {s : Split}
    (h : IsSplit coins nTargetValue s) (hcoins : SelectableCoins nTargetValue coins) :
  sumCoins s.vValue < 2 ^ 63
  := by
  rw [h.vValue]
  exact hcoins.lower_lt

theorem sumCoins_singleton_lt (coin : COutput) : sumCoins [coin] < 2 ^ 63 := by
  rw [sumCoins_cons, sumCoins_nil, Int.add_zero]
  exact Int64.toInt_lt _

/-- What a selection from coins that meet the thresholds has to fulfil. -/
structure Selects (eligible : List COutput) (nTargetValue : Int64) (r : Bool × Selection) : Prop where
  found_iff : r.1 = true ↔ nTargetValue.toInt ≤ sumCoins eligible
  exists_returned : r.1 = true → ∃ selected, Returned eligible r.2 selected
  target_le : r.1 = true → nTargetValue ≤ r.2.nValueRet
  exact_coin : r.1 = true → (∃ coin ∈ eligible, coin.nValue = nTargetValue) →
    r.2.nValueRet = nTargetValue
  exact_lower : r.1 = true →
    sumCoins (eligible.filter (fun coin => coin.nValue < nTargetValue + CENT))
      = nTargetValue.toInt →
    r.2.nValueRet = nTargetValue

theorem Returned.perm_eligible
    {eligible' : List COutput} {r : Selection} (h : Returned eligible r selected)
    (hperm : eligible.Perm eligible') :
  Returned eligible' r selected
  := ⟨h.subperm.trans hperm.subperm, h.perm, h.nodup, h.sum⟩

theorem Returned.of_filter
    {p : COutput → Bool} {r : Selection} (h : Returned (vCoins.filter p) r selected) :
  Returned vCoins r selected
  := ⟨h.subperm.trans List.filter_sublist.subperm, h.perm, h.nodup, h.sum⟩

theorem Selects.perm
    {eligible' : List COutput} {r : Bool × Selection}
    (h : Selects eligible nTargetValue r) (hperm : eligible.Perm eligible') :
  Selects eligible' nTargetValue r
  := by
  constructor
  · rw [← sumCoins_perm hperm]
    exact h.found_iff
  · intro hfound
    obtain ⟨selected, hreturned⟩ := h.exists_returned hfound
    exact ⟨selected, hreturned.perm_eligible hperm⟩
  · exact h.target_le
  · rintro hfound ⟨coin, hmem, hvalue⟩
    exact h.exact_coin hfound ⟨coin, hperm.symm.subset hmem, hvalue⟩
  · intro hfound hsum
    rw [← sumCoins_perm (hperm.filter _)] at hsum
    exact h.exact_lower hfound hsum

/-- A selection that returns coins which reach the target. -/
theorem selects_of_returned
    (hcoins : SelectableCoins nTargetValue eligible) (hsubperm : selected.Subperm eligible)
    (hsum : sumCoins selected < 2 ^ 63) (hreach : nTargetValue.toInt ≤ sumCoins selected)
    (hcoin : (∃ coin ∈ eligible, coin.nValue = nTargetValue) →
      sumCoins selected = nTargetValue.toInt)
    (hlower : sumCoins (eligible.filter (fun coin => coin.nValue < nTargetValue + CENT))
      = nTargetValue.toInt → sumCoins selected = nTargetValue.toInt) :
  Selects eligible nTargetValue (true, .insertAll selected)
  := by
  have hreturned := returned_insertAll hsubperm hcoins.nodup hcoins.nonneg hsum
  have hexact : sumCoins selected = nTargetValue.toInt →
      (Selection.insertAll selected).nValueRet = nTargetValue := by
    intro hsum
    rw [← Int64.toInt_inj, hreturned.sum, hsum]
  constructor
  · exact iff_of_true rfl (hreach.trans (sumCoins_le_of_subperm hsubperm hcoins.nonneg))
  · exact fun _ => ⟨selected, hreturned⟩
  · intro _
    rw [Int64.le_iff_toInt_le, hreturned.sum]
    exact hreach
  · exact fun _ h => hexact (hcoin h)
  · exact fun _ h => hexact (hlower h)

theorem toInt_CENT : CENT.toInt = 1000000 := by
  rw [CENT]
  decide

/-- The choice between the smaller coins and the larger one. -/
theorem selectFromSplit_spec
    (chance : SelectionChance) {s : Split}
    (hcoins : SelectableCoins nTargetValue eligible) (hsplit : IsSplit eligible nTargetValue s)
    (hpos : 0 < nTargetValue.toInt) (htarget : nTargetValue.toInt + 1000000 < 2 ^ 63) :
  Selects eligible nTargetValue (selectFromSplit chance nTargetValue s)
  := by
  have hcent : (nTargetValue + CENT).toInt = nTargetValue.toInt + 1000000 := by
    rw [toInt_add_of_lt (by rw [toInt_CENT]; omega) (by rw [toInt_CENT]; omega), toInt_CENT]
  have hlower : s.vValue.Subperm eligible := by
    rw [hsplit.vValue]
    exact List.filter_sublist.subperm
  have hlowerSum := hsplit.lower_lt hcoins
  have hno : ¬∃ coin ∈ eligible, coin.nValue = nTargetValue := by
    rintro ⟨coin, hmem, hvalue⟩
    exact hsplit.not_target coin hmem hvalue
  have htotal := hsplit.total
  -- a larger coin reaches the target alone
  have hlarger : ∀ coin ∈ s.coinLowestLarger, sumCoins s.vValue ≠ nTargetValue.toInt →
      Selects eligible nTargetValue (true, .insertAll [coin]) := by
    intro coin hcoin hne
    obtain ⟨hmem, hvalue⟩ := hsplit.larger_mem coin hcoin
    rw [Int64.lt_iff_toInt_lt, hcent] at hvalue
    apply selects_of_returned hcoins (List.singleton_subperm_iff.mpr hmem)
      (sumCoins_singleton_lt coin)
    · rw [sumCoins_cons, sumCoins_nil]
      omega
    · exact fun h => absurd h hno
    · intro hsum
      rw [← hsplit.vValue] at hsum
      exact absurd hsum hne
  rw [selectFromSplit]
  by_cases hexact : s.nTotalLower = nTargetValue
  · rw [if_pos hexact]
    rw [hexact] at htotal
    exact selects_of_returned hcoins hlower hlowerSum htotal.le (fun h => absurd h hno)
      (fun _ => htotal.symm)
  · rw [if_neg hexact]
    have hne : sumCoins s.vValue ≠ nTargetValue.toInt := by
      rw [← htotal]
      exact fun h => hexact (Int64.toInt_inj.mp h)
    by_cases hless : s.nTotalLower < nTargetValue
    · rw [if_pos hless]
      cases hkept : s.coinLowestLarger with
      | some coin => exact hlarger coin hkept hne
      | none =>
        -- all coins are smaller ones, and they do not reach the target
        have hall : eligible.filter (fun coin => coin.nValue < nTargetValue + CENT) = eligible := by
          apply List.filter_eq_self.mpr
          intro coin hmem
          by_contra hnot
          have hkeeps := hsplit.exists_larger coin hmem (by simpa using hnot)
          rw [hkept] at hkeeps
          cases hkeeps
        have hsum : sumCoins eligible < nTargetValue.toInt := by
          rw [← hall, ← hsplit.vValue, ← htotal]
          exact Int64.lt_iff_toInt_lt.mp hless
        refine ⟨iff_of_false Bool.false_ne_true (not_le.mpr hsum), ?_, ?_, ?_, ?_⟩ <;>
          exact fun h => absurd h Bool.false_ne_true
    · rw [if_neg hless]
      have hreach : nTargetValue ≤ s.nTotalLower := Int64.not_lt.mp hless
      have hsorted : SelectableCoins nTargetValue (chance.sort s.vValue) :=
        (hsplit.vValue ▸ hcoins.filter _).perm (chance.sort_perm s.vValue)
      have hsortedTotal : s.nTotalLower.toInt = sumCoins (chance.sort s.vValue) := by
        rw [htotal, sumCoins_perm (chance.sort_perm s.vValue)]
      obtain ⟨hbest, hbestTarget⟩ := @best_spec _ _ _ chance.bits chance.bitsAgain hsorted.nonneg
        (by rw [← hsortedTotal, htotal]; exact hlowerSum) hsortedTotal hreach (by rw [Int64.le_iff_toInt_le, hcent]; omega)
      simp only at hbest hbestTarget ⊢
      generalize (if (approximateBestSubset ((chance.sort s.vValue).map COutput.nValue) s.nTotalLower
          nTargetValue chance.bits 1000).2 ≠ nTargetValue ∧ s.nTotalLower ≥ nTargetValue + CENT then
          approximateBestSubset ((chance.sort s.vValue).map COutput.nValue) s.nTotalLower
            (nTargetValue + CENT) chance.bitsAgain 1000
        else approximateBestSubset ((chance.sort s.vValue).map COutput.nValue) s.nTotalLower
          nTargetValue chance.bits 1000) = best at hbest hbestTarget ⊢
      have hsubset : Selects eligible nTargetValue
          (true, .insertAll (flagged (chance.sort s.vValue) best.1)) := by
        apply selects_of_returned hcoins
        · exact ((flagged_spec _ best.1).1.subperm.trans (chance.sort_perm s.vValue).subperm).trans
            hlower
        · rw [← hbest]
          exact Int64.toInt_lt _
        · rw [← hbest]
          exact Int64.le_iff_toInt_le.mp hbestTarget
        · exact fun h => absurd h hno
        · intro hsum
          rw [← hsplit.vValue] at hsum
          exact absurd hsum hne
      cases hkept : s.coinLowestLarger with
      | none => exact hsubset
      | some coin =>
        simp only
        split_ifs
        · exact hlarger coin hkept hne
        · exact hsubset

/-- The selection up to the choice: the coins in the shuffled order, and either a coin of exactly the
target or the split of all of them. -/
theorem selectCoinsMinConf_cases
    (chance : SelectionChance) (nTargetValue : Int64)
    (nConfMine nConfTheirs : ℤ) (hcoins : SelectableCoins nTargetValue vCoins) :
  let eligible := (chance.shuffle vCoins).filter (COutput.eligible nConfMine nConfTheirs)
  let r := selectCoinsMinConf chance nTargetValue nConfMine nConfTheirs vCoins
  (∃ coin ∈ eligible, coin.nValue = nTargetValue ∧ r = (true, .insertAll [coin]))
    ∨ ∃ s, IsSplit eligible nTargetValue s ∧ r = selectFromSplit chance nTargetValue s
  := by
  have hshuffled := hcoins.perm (chance.shuffle_perm vCoins)
  have hstart : IsSplit [] nTargetValue ⟨none, [], 0⟩ :=
    ⟨rfl, rfl, fun _ h => absurd h List.not_mem_nil, fun _ h => absurd h (Option.not_mem_none _),
      fun _ h => absurd h List.not_mem_nil⟩
  have hsplit := @splitCoins_spec nTargetValue nConfMine nConfTheirs (chance.shuffle vCoins) []
    ⟨none, [], 0⟩ hstart hshuffled.nonneg hshuffled.lt_max
    hshuffled.lower_lt
  intro eligible r
  cases hresult : splitCoins nTargetValue nConfMine nConfTheirs (chance.shuffle vCoins)
      ⟨none, [], 0⟩ with
  | inl coin =>
    rw [hresult] at hsplit
    left
    refine ⟨coin, hsplit.1, hsplit.2, ?_⟩
    simp only [r, selectCoinsMinConf, hresult]
  | inr s =>
    rw [hresult] at hsplit
    right
    refine ⟨s, hsplit, ?_⟩
    simp only [r, selectCoinsMinConf, hresult]

theorem eligible_perm
    (chance : SelectionChance) (vCoins : List COutput) (nConfMine nConfTheirs : ℤ) :
  ((chance.shuffle vCoins).filter (COutput.eligible nConfMine nConfTheirs)).Perm
    (vCoins.filter (COutput.eligible nConfMine nConfTheirs))
  := (chance.shuffle_perm vCoins).filter _

/-- What is selected, as long as the target and a cent more are integers of the source. -/
theorem selectCoinsMinConf_selects
    (chance : SelectionChance)
    (nConfMine nConfTheirs : ℤ) (hcoins : SelectableCoins nTargetValue vCoins)
    (hpos : 0 < nTargetValue.toInt) (htarget : nTargetValue.toInt + 1000000 < 2 ^ 63) :
  Selects (vCoins.filter (COutput.eligible nConfMine nConfTheirs)) nTargetValue
    (selectCoinsMinConf chance nTargetValue nConfMine nConfTheirs vCoins)
  := by
  have helig := (hcoins.perm (chance.shuffle_perm vCoins)).filter
    (COutput.eligible nConfMine nConfTheirs)
  apply Selects.perm _ (eligible_perm chance vCoins nConfMine nConfTheirs)
  obtain ⟨coin, hmem, hvalue, hr⟩ | ⟨s, hsplit, hr⟩ :=
    selectCoinsMinConf_cases chance nTargetValue nConfMine nConfTheirs hcoins
  · have hsum : sumCoins [coin] = nTargetValue.toInt := by
      rw [sumCoins_cons, sumCoins_nil, Int.add_zero, hvalue]
    rw [hr]
    exact selects_of_returned helig (List.singleton_subperm_iff.mpr hmem) (sumCoins_singleton_lt coin)
      hsum.ge (fun _ => hsum) (fun _ => hsum)
  · rw [hr]
    exact selectFromSplit_spec chance helig hsplit hpos htarget

/-- Whatever the target, a selection that is found returns coins that meet the thresholds. -/
theorem selectFromSplit_returned
    (chance : SelectionChance) {s : Split}
    (hcoins : SelectableCoins nTargetValue eligible) (hsplit : IsSplit eligible nTargetValue s)
    (hfound : (selectFromSplit chance nTargetValue s).1 = true) :
  ∃ selected, Returned eligible (selectFromSplit chance nTargetValue s).2 selected
  := by
  have hlower : s.vValue.Subperm eligible := by
    rw [hsplit.vValue]
    exact List.filter_sublist.subperm
  have hreturned : ∀ selected : List COutput, selected.Subperm eligible → sumCoins selected < 2 ^ 63 →
      ∃ selected', Returned eligible (.insertAll selected) selected' :=
    fun selected h hsum => ⟨selected, returned_insertAll h hcoins.nodup hcoins.nonneg hsum⟩
  have hlowerSum := hsplit.lower_lt hcoins
  have hlarger : ∀ coin ∈ s.coinLowestLarger,
      ∃ selected, Returned eligible (.insertAll [coin]) selected :=
    fun coin hcoin => hreturned _ (List.singleton_subperm_iff.mpr (hsplit.larger_mem coin hcoin).1)
      (sumCoins_singleton_lt coin)
  have hflagged : ∀ flags, ∃ selected,
      Returned eligible (.insertAll (flagged (chance.sort s.vValue) flags)) selected := by
    intro flags
    have hsmaller := (flagged_spec (chance.sort s.vValue) flags).1.subperm.trans
      (chance.sort_perm s.vValue).subperm
    exact hreturned _ (hsmaller.trans hlower) (lt_of_le_of_lt (sumCoins_le_of_subperm hsmaller
      (fun coin hmem => hcoins.nonneg coin (hlower.subset hmem))) hlowerSum)
  rw [selectFromSplit] at hfound ⊢
  by_cases hexact : s.nTotalLower = nTargetValue
  · rw [if_pos hexact]
    exact hreturned _ hlower hlowerSum
  · rw [if_neg hexact] at hfound ⊢
    by_cases hless : s.nTotalLower < nTargetValue
    · rw [if_pos hless] at hfound ⊢
      cases hkept : s.coinLowestLarger with
      | none =>
        rw [hkept] at hfound
        cases hfound
      | some coin => exact hlarger coin hkept
    · rw [if_neg hless]
      cases hkept : s.coinLowestLarger with
      | none => exact hflagged _
      | some coin =>
        simp only
        split_ifs
        · exact hlarger coin hkept
        · exact hflagged _
        · exact hlarger coin hkept
        · exact hflagged _

theorem selectCoinsMinConf_returned
    (chance : SelectionChance)
    (nConfMine nConfTheirs : ℤ) (hcoins : SelectableCoins nTargetValue vCoins)
    (hfound : (selectCoinsMinConf chance nTargetValue nConfMine nConfTheirs vCoins).1 = true) :
  ∃ selected, Returned (vCoins.filter (COutput.eligible nConfMine nConfTheirs))
    (selectCoinsMinConf chance nTargetValue nConfMine nConfTheirs vCoins).2 selected
  := by
  have helig := (hcoins.perm (chance.shuffle_perm vCoins)).filter
    (COutput.eligible nConfMine nConfTheirs)
  have hperm := eligible_perm chance vCoins nConfMine nConfTheirs
  obtain ⟨coin, hmem, -, hr⟩ | ⟨s, hsplit, hr⟩ :=
    selectCoinsMinConf_cases chance nTargetValue nConfMine nConfTheirs hcoins
  · have hreturned := returned_insertAll (List.singleton_subperm_iff.mpr hmem) helig.nodup
      helig.nonneg (sumCoins_singleton_lt coin)
    rw [hr]
    exact ⟨[coin], hreturned.perm_eligible hperm⟩
  · rw [hr] at hfound ⊢
    obtain ⟨selected, hreturned⟩ := selectFromSplit_returned chance helig hsplit hfound
    exact ⟨selected, hreturned.perm_eligible hperm⟩

/-- The selection finds coins exactly when those that meet the thresholds reach the target, and what
it finds adds up to the value it returns, which reaches the target and is the target where one coin
or the smaller coins together are. -/
theorem selectCoinsMinConf_spec
    (chance : SelectionChance) {vCoins : List COutput} {nTargetValue : Int64}
    (nConfMine nConfTheirs : ℤ) (hcoins : SpendableCoins vCoins) (hpos : 0 < nTargetValue.toInt)
    (htarget : nTargetValue.toInt < 2 ^ 62) :
  Selects (vCoins.filter (COutput.eligible nConfMine nConfTheirs)) nTargetValue
    (selectCoinsMinConf chance nTargetValue nConfMine nConfTheirs vCoins)
  := selectCoinsMinConf_selects chance nConfMine nConfTheirs (hcoins.selectable nTargetValue) hpos
    (by omega)

/-! A call in which the coins stay in order and the bits alternate. -/

instance : Std.Total (fun coin coin' : COutput => coin'.nValue ≤ coin.nValue) :=
  ⟨fun coin coin' => Int64.le_total coin'.nValue coin.nValue⟩

instance : IsTrans COutput (fun coin coin' => coin'.nValue ≤ coin.nValue) :=
  ⟨fun _ _ _ h h' => Int64.le_trans h' h⟩

def sampleChance : SelectionChance where
  shuffle vCoins := vCoins
  shuffle_perm _ := List.Perm.refl _
  sort vValue := vValue.insertionSort (fun coin coin' => coin'.nValue ≤ coin.nValue)
  sort_perm _ := List.perm_insertionSort _ _
  sort_pairwise _ := List.pairwise_insertionSort _ _
  bits nRep i := (nRep + i) % 2 == 0
  bitsAgain nRep i := (nRep + i) % 2 == 0

/-- Three coins of five, three and two, of which the last is not deep enough. -/
def sampleCoins : List COutput :=
  [⟨⟨7, 0⟩, 500000000, 10, true⟩, ⟨⟨8, 1⟩, 300000000, 10, false⟩, ⟨⟨9, 0⟩, 200000000, 1, false⟩]

theorem sampleCoins_selected :
  (selectCoinsMinConf sampleChance 700000000 1 6 sampleCoins).1 = true
    ∧ Selects (sampleCoins.filter (COutput.eligible 1 6)) 700000000
      (selectCoinsMinConf sampleChance 700000000 1 6 sampleCoins)
  := by
  have hcoins : SpendableCoins sampleCoins := ⟨by decide, by decide, by decide⟩
  have hselects := @selectCoinsMinConf_spec sampleChance sampleCoins 700000000 1 6 hcoins
    (by decide) (by decide)
  exact ⟨hselects.found_iff.mpr (by decide), hselects⟩

end CorgiCoin
