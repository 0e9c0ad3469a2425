import CorgiCoin.Accounts

/-!
# Listing transactions

`listtransactions` puts the transactions of the wallet and the accounting entries in the order of their
times and lists them from the newest on until there are enough entries for the page that is asked for.
The page is then cut out with iterators.  It is the right one as long as the two arguments do not add up
to more than an `int` holds.
-/

namespace CorgiCoin

open Std

/-! ## Entries -/

/-- A value in an entry: an amount stands for what `ValueFromAmount` makes of it, a hash for its
hexadecimal digits, and a destination for the text of its address. -/
inductive Value where
  | str (s : String)
  | int (n : ℤ)
  | amount (n : Int64)
  | hash (h : uint256)
  | address (d : CTxDestination)
  deriving DecidableEq

/-- A JSON object. -/
abbrev Object := List (String × Value)

/-- A wallet transaction with the members that are listed. -/
structure CListedTx extends CWalletTx where
  nTimeReceived : UInt32
  /-- in the order of its keys -/
  mapValue : List (String × String)

/-- An accounting entry with the members that are listed. -/
structure CListedEntry extends CAccountingEntry where
  nTime : Int64
  strOtherAccount : String
  strComment : String

/-- A wallet with what is listed of it. -/
structure ListWallet extends TxWallet where
  mapListed : ExtTreeMap uint256 CListedTx
  listedEntries : List CListedEntry
  mapWallet_eq : ∀ hash : uint256, mapWallet[hash]? = mapListed[hash]?.map CListedTx.toCWalletTx
  acentries_eq : acentries = listedEntries.map CListedEntry.toCAccountingEntry

/-- `GetTxTime` -/
def CListedTx.getTxTime (wtx : CListedTx) : ℤ := wtx.nTimeReceived.toNat

namespace ListWallet

open TxWallet

variable (crypto : Crypto) (hash160 : Bytes → uint160) (w : ListWallet) (view : ChainView)

/-- `WalletTxToJSON` -/
def walletTxToJSON (wtx : CListedTx) : Object :=
  let confirms := view.depth wtx.toCMerkleTx
  [("confirmations", .int confirms)]
    ++ (if confirms ≠ 0 then
      [("blockhash", .hash wtx.hashBlock), ("blockindex", .int wtx.nIndex.toInt)] else [])
    ++ [("txid", .hash (wtx.getHash crypto)), ("time", .int wtx.getTxTime)]
    ++ wtx.mapValue.map (fun item => (item.1, .str item.2))

/-- `ListTransactions`: the entries that are added; `none` where `GetAmounts` throws an exception. -/
def listTransactions (strAccount : String) (nMinDepth : ℤ) (fLong : Bool) (wtx : CListedTx) :
    Option (List Object) := do
  let amounts ← w.getAmounts hash160 view wtx.toCWalletTx
  let fAllAccounts := strAccount == "*"
  let long : Object := if fLong then walletTxToJSON crypto view wtx else []
  -- generated blocks assigned to account ""
  let generated : List Object :=
    if amounts.nGeneratedMature + amounts.nGeneratedImmature ≠ 0 ∧ (fAllAccounts ∨ strAccount = "") then
      [[("account", .str "")]
        ++ (if amounts.nGeneratedImmature ≠ 0 then
          [("category", .str (if view.depth wtx.toCMerkleTx ≠ 0 then "immature" else "orphan")),
            ("amount", .amount amounts.nGeneratedImmature)]
        else [("category", .str "generate"), ("amount", .amount amounts.nGeneratedMature)])
        ++ long]
    else []
  let sent : List Object :=
    if (amounts.listSent ≠ [] ∨ amounts.nFee ≠ 0)
        ∧ (fAllAccounts ∨ strAccount = amounts.strSentAccount) then
      amounts.listSent.map (fun s =>
        [("account", .str amounts.strSentAccount), ("address", .address s.1), ("category", .str "send"),
          ("amount", .amount (-s.2)), ("fee", .amount (-amounts.nFee))] ++ long)
    else []
  let received : List Object :=
    if amounts.listReceived.length > 0 ∧ view.depth wtx.toCMerkleTx ≥ nMinDepth then
      (amounts.listReceived.filter (fun r => fAllAccounts || w.accountOf r.1 == strAccount)).map (fun r =>
        [("account", .str (w.accountOf r.1)), ("address", .address r.1), ("category", .str "receive"),
          ("amount", .amount r.2)] ++ long)
    else []
  return generated ++ sent ++ received

/-- `AcentryToJSON` -/
def acentryToJSON (strAccount : String) (acentry : CListedEntry) : List Object :=
  if strAccount = "*" ∨ acentry.strAccount = strAccount then
    [[("account", .str acentry.strAccount), ("category", .str "move"),
      ("time", .int acentry.nTime.toInt), ("amount", .amount acentry.nCreditDebit),
      ("otheraccount", .str acentry.strOtherAccount), ("comment", .str acentry.strComment)]]
  else []

/-! ## Items by time -/

/-- A `TxPair`, of which one pointer is null. -/
inductive TxItem where
  | tx (wtx : CListedTx)
  | acentry (acentry : CListedEntry)

def TxItem.time : TxItem → ℤ
  | .tx wtx => wtx.getTxTime
  | .acentry entry => entry.nTime.toInt

/-- `insert` of a `multimap`: behind the items with the same time. -/
def insertItem (item : TxItem) : List TxItem → List TxItem
  | [] => [item]
  | first :: items =>
    if item.time < first.time then item :: first :: items else first :: insertItem item items

/-- `ListAccountCreditDebit` -/
def listAccountCreditDebit (strAccount : String) : List CListedEntry :=
  w.listedEntries.filter (fun acentry => strAccount == "*" || acentry.strAccount == strAccount)

/-- The items in the order in which they are inserted. -/
def items (strAccount : String) : List TxItem :=
  (w.mapListed.toList.map Prod.snd).map .tx ++ (w.listAccountCreditDebit strAccount).map .acentry

/-- `txByTime` -/
def txByTime (strAccount : String) : List TxItem :=
  (w.items strAccount).foldl (fun items item => insertItem item items) []

/-- The entries of an item. -/
def entriesOf (strAccount : String) : TxItem → Option (List Object)
  | .tx wtx => w.listTransactions crypto hash160 view strAccount 0 true wtx
  | .acentry entry => some (acentryToJSON strAccount entry)

/-! ## listtransactions -/

/-- A sum of integers, which is not defined where it leaves their range. -/
def addInt (a b : Int32) : Option Int32 :=
  if -2 ^ 31 ≤ a.toInt + b.toInt ∧ a.toInt + b.toInt < 2 ^ 31 then some (a + b) else none

/-- The loop that goes backwards until there are enough entries. -/
def collect (strAccount : String) (nCount nFrom : Int32) : List TxItem → List Object →
    Option (List Object)
  | [], ret => some ret
  | item :: items, ret => do
    let entries ← w.entriesOf crypto hash160 view strAccount item
    let ret := ret ++ entries
    let nWanted ← addInt nCount nFrom
    if Int32.ofNat ret.length ≥ nWanted then some ret else collect strAccount nCount nFrom items ret

/-- What is left between the two iterators, when these are in the array. -/
def cut (ret : List Object) (first last : Int32) : Option (List Object) :=
  if 0 ≤ first.toInt ∧ first.toInt ≤ last.toInt ∧ last.toInt ≤ ret.length then
    some ((ret.take last.toInt.toNat).drop first.toInt.toNat)
  else none

/-- The page of the entries that were collected. -/
def page (ret : List Object) (nCount nFrom : Int32) : Option (List Object) := do
  let nFrom := if nFrom > Int32.ofNat ret.length then Int32.ofNat ret.length else nFrom
  let nCount := if (← addInt nFrom nCount) > Int32.ofNat ret.length then
    Int32.ofInt (ret.length - nFrom.toInt) else nCount
  let ret ← cut ret nFrom (← addInt nFrom nCount)
  return ret.reverse

/-- `listtransactions`; `none` where it throws an exception or its behaviour is not defined. -/
def listtransactions (strAccount : String) (nCount nFrom : Int32) : Option (List Object) :=
  if nCount < 0 then none
  else if nFrom < 0 then none
  else do
    let ret ← w.collect crypto hash160 view strAccount nCount nFrom (w.txByTime strAccount).reverse []
    page ret nCount nFrom

/-! ## The list that the pages are of -/

/-- The entries of all items, from the newest on. -/
def fullList (strAccount : String) : Option (List Object) :=
  ((w.txByTime strAccount).reverse.mapM (w.entriesOf crypto hash160 view strAccount)).map List.flatten

/-! ## Items in order -/

theorem insertItem_perm (item : TxItem) (items : List TxItem) :
  (insertItem item items).Perm (item :: items)
  := by
  induction items with
  | nil => exact .refl _
  | cons first items ih =>
    rw [insertItem]
    split_ifs
    · exact .refl _
    · exact (ih.cons first).trans (.swap item first items)

theorem insertItem_sorted
    (item : TxItem) {items : List TxItem} (h : items.Pairwise (fun a b => a.time ≤ b.time)) :
  (insertItem item items).Pairwise (fun a b => a.time ≤ b.time)
  := by
  induction items with
  | nil => exact List.pairwise_singleton _ _
  | cons first items ih =>
    obtain ⟨hfirst, hitems⟩ := List.pairwise_cons.mp h
    rw [insertItem]
    split_ifs with hlt
    · refine List.pairwise_cons.mpr ⟨?_, h⟩
      intro b hb
      rcases List.mem_cons.mp hb with rfl | hb
      · exact hlt.le
      · exact hlt.le.trans (hfirst b hb)
    · refine List.pairwise_cons.mpr ⟨?_, ih hitems⟩
      intro b hb
      rcases List.mem_cons.mp ((insertItem_perm item items).mem_iff.mp hb) with rfl | hb
      · exact Int.not_lt.mp hlt
      · exact hfirst b hb

/-- The items by time are all items, and none comes before one that is older. -/
theorem txByTime_spec (strAccount : String) :
  (w.txByTime strAccount).Perm (w.items strAccount)
    ∧ (w.txByTime strAccount).Pairwise (fun a b => a.time ≤ b.time)
  := by
  have hfold : ∀ (items inserted : List TxItem), inserted.Pairwise (fun a b => a.time ≤ b.time) →
      (items.foldl (fun items item => insertItem item items) inserted).Perm (inserted ++ items)
        ∧ (items.foldl (fun items item => insertItem item items) inserted).Pairwise
          (fun a b => a.time ≤ b.time) := by
    intro items
    induction items with
    | nil =>
      intro inserted h
      rw [List.append_nil]
      exact ⟨.refl _, h⟩
    | cons item items ih =>
      intro inserted h
      obtain ⟨hperm, hsorted⟩ := ih (insertItem item inserted) (insertItem_sorted item h)
      refine ⟨hperm.trans ?_, hsorted⟩
      exact ((insertItem_perm item inserted).append_right items).trans List.perm_middle.symm
  exact hfold (w.items strAccount) [] .nil

/-! ## Sums -/

theorem addInt_eq_some
    {a b : Int32} (hlow : -2 ^ 31 ≤ a.toInt + b.toInt) (hhigh : a.toInt + b.toInt < 2 ^ 31) :
  addInt a b = some (a + b) ∧ (a + b).toInt = a.toInt + b.toInt
  := by
  refine ⟨if_pos ⟨hlow, hhigh⟩, ?_⟩
  rw [Int32.toInt_add, Int.bmod_eq_of_le (by omega) (by omega)]

theorem addInt_eq_none
    {a b : Int32} (h : 2 ^ 31 ≤ a.toInt + b.toInt) :
  addInt a b = none
  := if_neg (fun hrange => by omega)

/-! ## Pages -/

variable {strAccount : String} {nCount nFrom : Int32}

/-- The loop collects a beginning of the list that is all of it or long enough. -/
theorem collect_spec
    {items : List TxItem} {ret : List Object} {entries : List (List Object)} {nWanted : Int32}
    (hsum : addInt nCount nFrom = some nWanted)
    (hentries : items.mapM (w.entriesOf crypto hash160 view strAccount) = some entries)
    (hlength : (ret ++ entries.flatten).length < 2 ^ 31) :
  ∃ ret', w.collect crypto hash160 view strAccount nCount nFrom items ret = some ret'
    ∧ ret' <+: ret ++ entries.flatten
    ∧ (ret' = ret ++ entries.flatten ∨ nWanted.toInt ≤ ret'.length)
  := by
  induction items generalizing ret entries with
  | nil =>
    rw [List.mapM_nil] at hentries
    obtain rfl := Option.some.inj hentries
    rw [List.flatten_nil, List.append_nil]
    exact ⟨ret, rfl, List.prefix_refl _, .inl rfl⟩
  | cons item items ih =>
    rw [List.mapM_cons] at hentries
    obtain ⟨first, hfirst, hentries⟩ := Option.bind_eq_some_iff.mp hentries
    obtain ⟨rest, hrest, hentries⟩ := Option.bind_eq_some_iff.mp hentries
    obtain rfl := Option.some.inj hentries
    rw [List.flatten_cons, ← List.append_assoc] at hlength ⊢
    simp only [collect, hfirst, hsum, Option.bind_eq_bind, Option.bind_some]
    split_ifs with henough
    · refine ⟨_, rfl, List.prefix_append _ _, .inr ?_⟩
      rw [List.length_append] at hlength
      rwa [ge_iff_le, Int32.le_iff_toInt_le, Int32.toInt_ofNat_of_lt (by omega)] at henough
    · exact ih hrest hlength

variable {c n : ℕ} {ret : List Object}

/-- What is between two iterators in the array. -/
theorem cut_eq
    {first last : Int32} (hfirst : first.toInt = n)
    (hlast : last.toInt = n + c) (hle : n + c ≤ ret.length) :
  cut ret first last = some ((ret.drop n).take c)
  := by
  rw [cut, if_pos (by omega), hfirst, hlast, Int.toNat_natCast, List.take_drop]
  rfl

/-- The iterators cut the page out of what was collected. -/
theorem page_eq
    (hlength : ret.length < 2 ^ 31) (hcount : nCount.toInt = c)
    (hfrom : nFrom.toInt = n) (hsum : c + n < 2 ^ 31) :
  page ret nCount nFrom = some ((ret.drop n).take c).reverse
  := by
  have hsize : (Int32.ofNat ret.length).toInt = ret.length := Int32.toInt_ofNat_of_lt hlength
  rw [page]
  by_cases hbeyond : ret.length < n
  · -- the page is behind the end
    have hgt : nFrom > Int32.ofNat ret.length := by
      rw [gt_iff_lt, Int32.lt_iff_toInt_lt, hsize, hfrom]
      omega
    have hnone : (ret.drop n).take c = (ret.drop ret.length).take 0 := by
      rw [List.drop_of_length_le hbeyond.le, List.drop_length, List.take_nil]
      rfl
    obtain ⟨hadd, htotal⟩ := @addInt_eq_some (Int32.ofNat ret.length) nCount (by omega) (by omega)
    simp only [if_pos hgt, hadd, Option.bind_eq_bind, Option.bind_some, hsize, sub_self]
    have hzero : (if Int32.ofNat ret.length + nCount > Int32.ofNat ret.length then Int32.ofInt 0
        else nCount).toInt = 0 := by
      split_ifs with hmore
      · rfl
      · rw [gt_iff_lt, Int32.lt_iff_toInt_lt, htotal] at hmore
        omega
    obtain ⟨hadd', htotal'⟩ := @addInt_eq_some (Int32.ofNat ret.length) (if Int32.ofNat ret.length + nCount
      > Int32.ofNat ret.length then Int32.ofInt 0 else nCount) (by omega) (by omega)
    rw [hadd', Option.bind_some, cut_eq (c := 0) hsize (by omega) (by omega), hnone]
    rfl
  · have hnot : ¬nFrom > Int32.ofNat ret.length := by
      rw [gt_iff_lt, Int32.lt_iff_toInt_lt, hsize, hfrom]
      omega
    obtain ⟨hadd, htotal⟩ := @addInt_eq_some nFrom nCount (by omega) (by omega)
    simp only [if_neg hnot, hadd, Option.bind_eq_bind, Option.bind_some]
    -- the page ends with the array at the latest
    have hrest : (if nFrom + nCount > Int32.ofNat ret.length then
        Int32.ofInt (ret.length - nFrom.toInt) else nCount).toInt = (min c (ret.length - n) : ℕ) := by
      split_ifs with hmore
      · rw [gt_iff_lt, Int32.lt_iff_toInt_lt, htotal, hsize] at hmore
        rw [Int32.toInt_ofInt_of_le (by omega) (by omega)]
        omega
      · rw [gt_iff_lt, Int32.lt_iff_toInt_lt, htotal, hsize] at hmore
        omega
    obtain ⟨hadd', htotal'⟩ := @addInt_eq_some nFrom (if nFrom + nCount > Int32.ofNat ret.length then
      Int32.ofInt (ret.length - nFrom.toInt) else nCount) (by omega) (by omega)
    rw [hadd', Option.bind_some, cut_eq (c := min c (ret.length - n)) hfrom (by omega) (by omega),
      ← List.length_drop, ← List.take_eq_take_min]
    rfl

/-- Of the entries that were collected the page is the same as of the whole list. -/
theorem take_drop_of_prefix
    {list : List Object} (hpage : ret <+: list) (henough : ret = list ∨ c + n ≤ ret.length) :
  (ret.drop n).take c = (list.drop n).take c
  := by
  rcases henough with rfl | hle
  · rfl
  · obtain ⟨rest, rfl⟩ := hpage
    rw [List.drop_append_of_le_length (by omega), List.take_append_of_le_length]
    rw [List.length_drop]
    omega

/-- The pages are those of the list as long as the arguments add up to an `int`. -/
theorem listtransactions_eq
    {L : List Object} (hlist : w.fullList crypto hash160 view strAccount = some L)
    (hlength : L.length < 2 ^ 31) (hcount : nCount.toInt = c) (hfrom : nFrom.toInt = n)
    (hsum : c + n < 2 ^ 31) :
  w.listtransactions crypto hash160 view strAccount nCount nFrom
    = some ((L.drop n).take c).reverse
  := by
  obtain ⟨entries, hentries, rfl⟩ := Option.map_eq_some_iff.mp hlist
  obtain ⟨hadd, htotal⟩ := @addInt_eq_some nCount nFrom (by omega) (by omega)
  obtain ⟨ret, hret, hpage, henough⟩ :=
    @collect_spec crypto hash160 w view strAccount nCount nFrom _ [] _ _ hadd hentries
      (by rwa [List.nil_append])
  rw [List.nil_append] at hpage henough
  have hshort := hpage.length_le
  rw [listtransactions, if_neg (by rw [Int32.lt_iff_toInt_lt, hcount]; simp),
    if_neg (by rw [Int32.lt_iff_toInt_lt, hfrom]; simp), hret]
  change page ret nCount nFrom = _
  rw [page_eq (by omega) hcount hfrom hsum, take_drop_of_prefix hpage]
  rw [htotal, hcount, hfrom] at henough
  exact_mod_cast henough

/-- A sum that does not fit is not defined, and it is taken as soon as there is an item. -/
theorem listtransactions_eq_none
    (hitems : w.txByTime strAccount ≠ []) (hsum : 2 ^ 31 ≤ nCount.toInt + nFrom.toInt) :
  w.listtransactions crypto hash160 view strAccount nCount nFrom = none
  := by
  have hcollect : ∀ items ret, items ≠ [] →
      w.collect crypto hash160 view strAccount nCount nFrom items ret = none := by
    intro items ret hne
    cases items with
    | nil => exact absurd rfl hne
    | cons item items =>
      rw [collect]
      cases w.entriesOf crypto hash160 view strAccount item with
      | none => rfl
      | some entries =>
        rw [addInt_eq_none hsum]
        rfl
  rw [listtransactions, hcollect _ _ (by rwa [ne_eq, List.reverse_eq_nil_iff])]
  split_ifs <;> rfl

/-- Without items nothing is added up before `nFrom` is cut down to the end of the array. -/
theorem listtransactions_of_no_items
    (hitems : w.txByTime strAccount = []) (hcount : nCount.toInt = c) (hfrom : nFrom.toInt = n) :
  w.listtransactions crypto hash160 view strAccount nCount nFrom = some []
  := by
  have hzero : (if nFrom > Int32.ofNat 0 then Int32.ofNat 0 else nFrom) = 0 := by
    split_ifs with hpos
    · rfl
    · rw [gt_iff_lt, Int32.lt_iff_toInt_lt, hfrom] at hpos
      apply Int32.toInt_inj.mp
      rw [hfrom]
      change ¬(0 : ℤ) < n at hpos
      change (n : ℤ) = 0
      omega
  have hpage : page [] nCount nFrom = page [] nCount 0 := by
    rw [page, page, List.length_nil, hzero]
    rfl
  have hlt := nCount.toInt_lt
  rw [listtransactions, if_neg (by rw [Int32.lt_iff_toInt_lt, hcount]; simp),
    if_neg (by rw [Int32.lt_iff_toInt_lt, hfrom]; simp), hitems]
  change page [] nCount nFrom = _
  have hshort : ([] : List Object).length < 2 ^ 31 := Nat.two_pow_pos 31
  rw [hpage, page_eq (n := 0) hshort hcount rfl (by omega), List.drop_nil, List.take_nil]
  rfl

/-- The items are all there from the oldest to the newest, and a page is the reverse of the part of the
list that is asked for, just when the arguments add up to an `int` or there is nothing to list. -/
theorem listtransactions_iff
    (strAccount : String) {L : List Object}
    (hlist : w.fullList crypto hash160 view strAccount = some L) (hlength : L.length < 2 ^ 31)
    (nCount nFrom : Int32) (hcount : 0 ≤ nCount.toInt) (hfrom : 0 ≤ nFrom.toInt) :
  ((w.txByTime strAccount).Perm (w.items strAccount)
      ∧ (w.txByTime strAccount).Pairwise (fun a b => a.time ≤ b.time))
    ∧ (w.listtransactions crypto hash160 view strAccount nCount nFrom
        = some ((L.drop nFrom.toInt.toNat).take nCount.toInt.toNat).reverse
      ↔ w.items strAccount = [] ∨ nCount.toInt + nFrom.toInt < 2 ^ 31)
  := by
  refine ⟨w.txByTime_spec strAccount, ?_⟩
  have hnil : w.txByTime strAccount = [] ↔ w.items strAccount = [] := by
    have hperm := (w.txByTime_spec strAccount).1
    constructor
    · intro h
      rw [h] at hperm
      exact hperm.symm.eq_nil
    · intro h
      rw [h] at hperm
      exact hperm.eq_nil
  obtain ⟨c, hc⟩ := Int.eq_ofNat_of_zero_le hcount
  obtain ⟨n, hn⟩ := Int.eq_ofNat_of_zero_le hfrom
  constructor
  · intro h
    by_contra hcontra
    rw [not_or, Int.not_lt, ← hnil] at hcontra
    rw [w.listtransactions_eq_none crypto hash160 view hcontra.1 hcontra.2] at h
    cases h
  · rintro (hitems | hsum)
    · rw [← hnil] at hitems
      have hempty : L = [] := by
        rw [fullList, hitems] at hlist
        exact (Option.some.inj hlist).symm
      rw [w.listtransactions_of_no_items crypto hash160 view hitems hc hn, hempty, List.drop_nil,
        List.take_nil]
      rfl
    · rw [w.listtransactions_eq crypto hash160 view hlist hlength hc hn (by omega), hc, hn]
      rfl

/-- A wallet with three moves between accounts. -/
def sampleListWallet : ListWallet where
  keystore := sampleKeyStore
  mapWallet := ∅
  mapAddressBook := ∅
  acentries := [⟨"savings", 3⟩, ⟨"savings", 5⟩, ⟨"savings", 4⟩]
  mapListed := ∅
  listedEntries := [⟨⟨"savings", 3⟩, 7, "", ""⟩, ⟨⟨"savings", 5⟩, 9, "", ""⟩, ⟨⟨"savings", 4⟩, 8, "", ""⟩]
  mapWallet_eq _ := rfl
  acentries_eq := rfl

/-- The entry of a move. -/
def sampleMove (nTime : ℤ) (nCreditDebit : Int64) : Object :=
  [("account", .str "savings"), ("category", .str "move"), ("time", .int nTime), ("amount", .amount nCreditDebit),
    ("otheraccount", .str ""), ("comment", .str "")]

theorem sampleListWallet_fullList :
  sampleListWallet.fullList sampleCrypto (fun _ => 5) sampleView "*"
    = some [sampleMove 9 5, sampleMove 8 4, sampleMove 7 3]
  := by decide

/-- Two pages of two entries. -/
theorem listtransactions_sampleMoves :
  sampleListWallet.listtransactions sampleCrypto (fun _ => 5) sampleView "*" 2 0
      = some [sampleMove 8 4, sampleMove 9 5]
    ∧ sampleListWallet.listtransactions sampleCrypto (fun _ => 5) sampleView "*" 2 2 = some [sampleMove 7 3]
  := by
  have hpage : ∀ nFrom : Int32, 0 ≤ nFrom.toInt → (2 : Int32).toInt + nFrom.toInt < 2 ^ 31 → _ :=
    fun nFrom hfrom hsum => (sampleListWallet.listtransactions_iff sampleCrypto (fun _ => 5) sampleView "*"
      sampleListWallet_fullList (by decide) 2 nFrom (by decide) hfrom).2.mpr (.inr hsum)
  exact ⟨hpage 0 (by decide) (by decide), hpage 2 (by decide) (by decide)⟩

/-- The largest count and the second entry on. -/
theorem listtransactions_overflow :
  sampleListWallet.fullList sampleCrypto (fun _ => 5) sampleView "*"
      = some [sampleMove 9 5, sampleMove 8 4, sampleMove 7 3]
    ∧ sampleListWallet.listtransactions sampleCrypto (fun _ => 5) sampleView "*" 2147483647 1
      ≠ some (([sampleMove 9 5, sampleMove 8 4, sampleMove 7 3].drop 1).take 2147483647).reverse
  := ⟨sampleListWallet_fullList, by decide⟩

end ListWallet

end CorgiCoin
