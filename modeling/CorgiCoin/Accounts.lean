import CorgiCoin.WalletTx

/-!
# Balances of accounts

`listaccounts` goes through the wallet once and books every amount on its account; `getbalance` of an
account goes through the wallet and picks what belongs to the account.  `listaccounts` also books
transactions that are not final, and does not book the generation of a block below the minimum depth,
which `getbalance` counts.  A transaction is settled when it meets neither difference.
-/

namespace CorgiCoin

open Std

namespace TxWallet

variable (hash160 : Bytes → uint160) (w : TxWallet) (view : ChainView)

/-! ## getbalance -/

/-- What `GetAccountAmounts` returns. -/
structure AccountAmounts where
  nGenerated : Int64
  nReceived : Int64
  nSent : Int64
  nFee : Int64

/-- The account of an address that is paid to. -/
def accountOf (address : CTxDestination) : String := w.mapAddressBook[address]?.getD ""

/-- The sum of the amounts of entries. -/
def total (entries : List (CTxDestination × Int64)) : Int64 :=
  entries.foldl (fun n r => n + r.2) 0

/-- `CWalletTx::GetAccountAmounts` -/
def getAccountAmounts (strAccount : String) (wtx : CWalletTx) : Option AccountAmounts := do
  let amounts ← w.getAmounts hash160 view wtx
  let nReceived := amounts.listReceived.foldl (fun n r =>
    match w.mapAddressBook[r.1]? with
    | some label => if label = strAccount then n + r.2 else n
    | none => if strAccount.isEmpty then n + r.2 else n) 0
  return {
    nGenerated := if strAccount = "" then amounts.nGeneratedMature else 0
    nReceived
    nSent := if strAccount = amounts.strSentAccount then total amounts.listSent else 0
    nFee := if strAccount = amounts.strSentAccount then amounts.nFee else 0 }

/-- `ListAccountCreditDebit` -/
def listAccountCreditDebit (strAccount : String) : List CAccountingEntry :=
  w.acentries.filter (fun acentry => strAccount == "*" || acentry.strAccount == strAccount)

/-- `GetAccountCreditDebit` -/
def getAccountCreditDebit (strAccount : String) : Int64 :=
  (w.listAccountCreditDebit strAccount).foldl (fun n entry => n + entry.nCreditDebit) 0

/-- The turn of the loop of `GetAccountBalance`. -/
def countTx (strAccount : String) (nMinDepth : ℤ) (nBalance : Int64) (wtx : CWalletTx) :
    Option Int64 :=
  if !view.isFinal wtx.toCTransaction then some nBalance
  else do
    let amounts ← w.getAccountAmounts hash160 view strAccount wtx
    let nBalance :=
      if amounts.nReceived ≠ 0 ∧ view.depth wtx.toCMerkleTx ≥ nMinDepth then
        nBalance + amounts.nReceived
      else nBalance
    return nBalance + (amounts.nGenerated - amounts.nSent - amounts.nFee)

/-- The transactions of the wallet in the order of their hashes. -/
def transactions : List CWalletTx := w.mapWallet.toList.map Prod.snd

def getAccountBalance (strAccount : String) (nMinDepth : ℤ) : Option Int64 := do
  let nBalance ← w.transactions.foldlM (w.countTx hash160 view strAccount nMinDepth) 0
  return nBalance + w.getAccountCreditDebit strAccount

/-! ## listaccounts -/

/-- The balances of accounts that are listed. -/
abbrev Balances := ExtTreeMap String Int64

/-- `mapAccountBalances[strAccount] += nAmount` -/
def book (strAccount : String) (nAmount : Int64) (balances : Balances) : Balances :=
  balances.insert strAccount (balances.getD strAccount 0 + nAmount)

/-- The turn of the loop of `listaccounts` over the transactions. -/
def bookTx (nMinDepth : ℤ) (balances : Balances) (wtx : CWalletTx) : Option Balances := do
  let amounts ← w.getAmounts hash160 view wtx
  let balances := book amounts.strSentAccount (-amounts.nFee) balances
  let balances :=
    amounts.listSent.foldl (fun balances s => book amounts.strSentAccount (-s.2) balances) balances
  if view.depth wtx.toCMerkleTx ≥ nMinDepth then
    let balances := book "" amounts.nGeneratedMature balances
    return amounts.listReceived.foldl (fun balances r =>
      match w.mapAddressBook[r.1]? with
      | some account => book account r.2 balances
      | none => book "" r.2 balances) balances
  else return balances

/-- The accounts of the address book that have an address of the wallet, at zero. -/
def ownAccounts : Balances :=
  w.mapAddressBook.toList.foldl (fun balances entry =>
    if isMineDestination w.keystore entry.1 then balances.insert entry.2 0 else balances) ∅

def listAccounts (nMinDepth : ℤ) : Option Balances := do
  let balances ← w.transactions.foldlM (w.bookTx hash160 view nMinDepth) w.ownAccounts
  return (w.listAccountCreditDebit "*").foldl
    (fun balances entry => book entry.strAccount entry.nCreditDebit balances) balances

/-! ## What each of them makes of a transaction -/

/-- What a transaction paid to the addresses of an account. -/
def received (strAccount : String) (amounts : Amounts) : Int64 :=
  ((amounts.listReceived.filter (fun r => w.accountOf r.1 = strAccount)).map Prod.snd).sum

/-- What `listaccounts` books on an account for a transaction. -/
def booked (strAccount : String) (nMinDepth : ℤ) (wtx : CWalletTx) : Int64 :=
  match w.getAmounts hash160 view wtx with
  | none => 0
  | some amounts =>
    (if amounts.strSentAccount = strAccount then -amounts.nFee - (amounts.listSent.map Prod.snd).sum
      else 0)
    + (if view.depth wtx.toCMerkleTx ≥ nMinDepth then
        (if "" = strAccount then amounts.nGeneratedMature else 0) + w.received strAccount amounts
      else 0)

/-- The generation that `listaccounts` leaves out, as its block is not deep enough. -/
def leftOut (strAccount : String) (nMinDepth : ℤ) (wtx : CWalletTx) : Int64 :=
  match w.getAmounts hash160 view wtx with
  | none => 0
  | some amounts =>
    if view.depth wtx.toCMerkleTx ≥ nMinDepth then 0
    else if "" = strAccount then amounts.nGeneratedMature else 0

/-- What `listaccounts` books on an account for a transaction over what `getbalance` counts. -/
def gap (strAccount : String) (nMinDepth : ℤ) (wtx : CWalletTx) : Int64 :=
  if view.isFinal wtx.toCTransaction then -w.leftOut hash160 view strAccount nMinDepth wtx
  else w.booked hash160 view strAccount nMinDepth wtx

variable {α : Type}

theorem foldl_add_eq_sum (f : α → Int64) (l : List α) (n : Int64) :
  l.foldl (fun n r => n + f r) n = n + (l.map f).sum
  := by
  induction l generalizing n with
  | nil => simp
  | cons r l ih =>
    rw [List.foldl_cons, ih, List.map_cons, List.sum_cons, Int64.add_assoc]

theorem foldl_ite_eq_sum (p : α → Prop) [DecidablePred p] (f : α → Int64) (l : List α)
    (n : Int64) :
  l.foldl (fun n r => if p r then n + f r else n) n = n + ((l.filter p).map f).sum
  := by
  induction l generalizing n with
  | nil => simp
  | cons r l ih =>
    rw [List.foldl_cons, ih]
    by_cases hr : p r
    · rw [if_pos hr, List.filter_cons_of_pos (by simpa using hr), List.map_cons, List.sum_cons,
        Int64.add_assoc]
    · rw [if_neg hr, List.filter_cons_of_neg (by simpa using hr)]

theorem getD_book (strAccount strAccount' : String) (nAmount : Int64) (balances : Balances) :
  (book strAccount nAmount balances).getD strAccount' 0 =
    balances.getD strAccount' 0 + if strAccount = strAccount' then nAmount else 0
  := by
  rw [book, ExtTreeMap.getD_insert]
  by_cases heq : strAccount = strAccount'
  · subst heq
    simp
  · simp [heq]

theorem getD_foldl_book (account : α → String) (amount : α → Int64) (l : List α)
    (balances : Balances) (strAccount : String) :
  (l.foldl (fun balances r => book (account r) (amount r) balances) balances).getD strAccount 0 =
    balances.getD strAccount 0 + ((l.filter (fun r => account r = strAccount)).map amount).sum
  := by
  induction l generalizing balances with
  | nil => simp
  | cons r l ih =>
    rw [List.foldl_cons, ih, getD_book]
    by_cases hr : account r = strAccount
    · rw [if_pos hr, List.filter_cons_of_pos (by simpa using hr), List.map_cons, List.sum_cons,
        Int64.add_assoc]
    · rw [if_neg hr, List.filter_cons_of_neg (by simpa using hr), Int64.add_zero]

variable {nMinDepth : ℤ} {balances : Balances} {wtx : CWalletTx}

/-- `listaccounts` books on each account what a transaction does to it. -/
theorem getD_bookTx {balances' : Balances}
    (h : w.bookTx hash160 view nMinDepth balances wtx = some balances') (strAccount : String) :
  balances'.getD strAccount 0 =
    balances.getD strAccount 0 + w.booked hash160 view strAccount nMinDepth wtx
  := by
  rw [bookTx] at h
  obtain ⟨amounts, hamounts, h⟩ := Option.bind_eq_some_iff.mp h
  -- an address that is paid to is booked on its account
  have hreceived : (fun (balances : Balances) (r : CTxDestination × Int64) =>
      match w.mapAddressBook[r.1]? with
      | some account => book account r.2 balances
      | none => book "" r.2 balances)
      = fun balances r => book (w.accountOf r.1) r.2 balances := by
    funext balances r
    rw [accountOf]
    cases w.mapAddressBook[r.1]? <;> rfl
  have hsent : (amounts.listSent.map (fun s => -s.2)).sum = -(amounts.listSent.map Prod.snd).sum := by
    induction amounts.listSent with
    | nil => rfl
    | cons s l ih =>
      rw [List.map_cons, List.sum_cons, List.map_cons, List.sum_cons, ih]
      grind
  have hfilter : (amounts.listSent.filter (fun _ => amounts.strSentAccount = strAccount)) =
      if amounts.strSentAccount = strAccount then amounts.listSent else [] := by
    split_ifs with heq <;> simp [heq]
  rw [booked, hamounts]
  dsimp only
  rw [hreceived] at h
  split_ifs at h with hdepth
  all_goals
    simp only [Option.pure_def, Option.some.injEq] at h
    subst h
  · rw [getD_foldl_book, getD_book, getD_foldl_book, getD_book, hfilter, ← received, if_pos hdepth]
    split_ifs
    all_goals
      simp only [hsent, List.map_nil, List.sum_nil]
      grind
  · rw [getD_foldl_book, getD_book, hfilter, if_neg hdepth]
    split_ifs
    all_goals
      simp only [hsent, List.map_nil, List.sum_nil]
      grind

theorem total_eq (entries : List (CTxDestination × Int64)) :
  total entries = (entries.map Prod.snd).sum
  := by
  rw [total, foldl_add_eq_sum, Int64.zero_add]

variable {strAccount : String} {amounts : Amounts}

theorem getAccountAmounts_eq
    (h : w.getAmounts hash160 view wtx = some amounts) :
  w.getAccountAmounts hash160 view strAccount wtx = some {
    nGenerated := if strAccount = "" then amounts.nGeneratedMature else 0
    nReceived := w.received strAccount amounts
    nSent := if strAccount = amounts.strSentAccount then (amounts.listSent.map Prod.snd).sum else 0
    nFee := if strAccount = amounts.strSentAccount then amounts.nFee else 0 }
  := by
  have hfold : amounts.listReceived.foldl (fun (n : Int64) (r : CTxDestination × Int64) =>
      match w.mapAddressBook[r.1]? with
      | some label => if label = strAccount then n + r.2 else n
      | none => if strAccount.isEmpty then n + r.2 else n) 0 = w.received strAccount amounts := by
    have hpick : (fun (n : Int64) (r : CTxDestination × Int64) =>
        match w.mapAddressBook[r.1]? with
        | some label => if label = strAccount then n + r.2 else n
        | none => if strAccount.isEmpty then n + r.2 else n)
        = fun n r => if w.accountOf r.1 = strAccount then n + r.2 else n := by
      funext n r
      rw [accountOf]
      cases w.mapAddressBook[r.1]? with
      | some label => rfl
      | none =>
        by_cases hempty : strAccount = ""
        · subst hempty
          rfl
        · have hne : "" ≠ strAccount := fun heq => hempty heq.symm
          simp [hempty, hne]
    rw [hpick, foldl_ite_eq_sum, Int64.zero_add]
    rfl
  rw [getAccountAmounts, h]
  simp only [Option.bind_eq_bind, Option.bind_some, Option.pure_def, total_eq]
  rw [hfold]

/-- `getbalance` counts what `listaccounts` books, up to the gap. -/
theorem countTx_eq {nBalance : Int64}
    (h : w.getAmounts hash160 view wtx = some amounts) :
  w.countTx hash160 view strAccount nMinDepth nBalance wtx =
    some (nBalance + (w.booked hash160 view strAccount nMinDepth wtx
      - w.gap hash160 view strAccount nMinDepth wtx))
  := by
  rw [countTx, gap]
  cases hfinal : view.isFinal wtx.toCTransaction with
  | false =>
    simp only [Bool.not_false, Bool.false_eq_true, if_true, if_false, Option.some.injEq]
    grind
  | true =>
    rw [getAccountAmounts_eq hash160 w view h]
    simp only [Bool.not_true, Bool.false_eq_true, if_false, if_true, Option.bind_eq_bind,
      Option.bind_some, Option.pure_def, Option.some.injEq, booked, leftOut, h]
    split_ifs <;> grind

/-! ## What they make of the wallet -/

theorem foldlM_bookTx {txs : List CWalletTx} {balances' : Balances}
    (h : txs.foldlM (w.bookTx hash160 view nMinDepth) balances = some balances') :
  (∀ wtx ∈ txs, ∃ amounts, w.getAmounts hash160 view wtx = some amounts) ∧
    ∀ strAccount, balances'.getD strAccount 0 =
      balances.getD strAccount 0 + (txs.map (w.booked hash160 view strAccount nMinDepth)).sum
  := by
  induction txs generalizing balances with
  | nil =>
    rw [List.foldlM_nil] at h
    simp only [Option.pure_def, Option.some.injEq] at h
    subst h
    exact ⟨by simp, by simp⟩
  | cons wtx txs ih =>
    rw [List.foldlM_cons] at h
    obtain ⟨balances₁, hbook, h⟩ := Option.bind_eq_some_iff.mp h
    obtain ⟨hall, hsum⟩ := ih h
    refine ⟨?_, fun strAccount => ?_⟩
    · intro wtx' hmem
      rcases List.mem_cons.mp hmem with rfl | hmem
      · rw [bookTx] at hbook
        obtain ⟨amounts, hamounts, -⟩ := Option.bind_eq_some_iff.mp hbook
        exact ⟨amounts, hamounts⟩
      · exact hall wtx' hmem
    · rw [hsum, w.getD_bookTx hash160 view hbook, List.map_cons, List.sum_cons, Int64.add_assoc]

/-- What `getbalance` counts for the wallet is what `listaccounts` books, up to the gaps. -/
theorem foldlM_countTx {nMinDepth : ℤ} {strAccount : String} {txs : List CWalletTx} {nBalance : Int64}
    (hall : ∀ wtx ∈ txs, ∃ amounts, w.getAmounts hash160 view wtx = some amounts) :
  ∃ nBalance', txs.foldlM (w.countTx hash160 view strAccount nMinDepth) nBalance = some nBalance' ∧
    nBalance' + (txs.map (w.gap hash160 view strAccount nMinDepth)).sum =
      nBalance + (txs.map (w.booked hash160 view strAccount nMinDepth)).sum
  := by
  induction txs generalizing nBalance with
  | nil => exact ⟨nBalance, rfl, by simp⟩
  | cons wtx txs ih =>
    obtain ⟨amounts, hamounts⟩ := hall wtx (List.mem_cons_self ..)
    obtain ⟨nBalance', hfold, hsum⟩ := @ih (nBalance + (w.booked hash160 view strAccount nMinDepth wtx
        - w.gap hash160 view strAccount nMinDepth wtx))
      (fun wtx' hmem => hall wtx' (List.mem_cons_of_mem wtx hmem))
    refine ⟨nBalance', ?_, ?_⟩
    · rw [List.foldlM_cons, w.countTx_eq hash160 view hamounts]
      exact hfold
    · rw [List.map_cons, List.sum_cons, List.map_cons, List.sum_cons]
      grind

theorem getD_ownAccounts (strAccount : String) : w.ownAccounts.getD strAccount 0 = 0 := by
  rw [ownAccounts]
  have hfold : ∀ (entries : List (CTxDestination × String)) (balances : Balances),
      balances.getD strAccount 0 = 0 →
      (entries.foldl (fun balances entry =>
        if isMineDestination w.keystore entry.1 then balances.insert entry.2 0 else balances)
        balances).getD strAccount 0 = 0 := by
    intro entries
    induction entries with
    | nil => exact fun balances h => h
    | cons entry entries ih =>
      intro balances h
      rw [List.foldl_cons]
      apply ih
      split_ifs
      · rw [ExtTreeMap.getD_insert]
        split_ifs
        · rfl
        · exact h
      · exact h
  exact hfold _ ∅ (by simp)

/-- The accounting entries count the same for both. -/
theorem sum_acentries (h : strAccount ≠ "*") :
  (((w.listAccountCreditDebit "*").filter (fun entry => entry.strAccount = strAccount)).map
    CAccountingEntry.nCreditDebit).sum = w.getAccountCreditDebit strAccount
  := by
  rw [getAccountCreditDebit, foldl_add_eq_sum, Int64.zero_add, listAccountCreditDebit,
    listAccountCreditDebit, List.filter_filter]
  congr 2
  apply List.filter_congr
  intro entry _
  apply Bool.eq_iff_iff.mpr
  simp [h]

/-- The balance that is listed for an account is the one that `getbalance` counts, up to the gaps of
the transactions. -/
theorem getD_listAccounts
    (h : w.listAccounts hash160 view nMinDepth = some balances) (hname : strAccount ≠ "*") :
  ∃ nBalance, w.getAccountBalance hash160 view strAccount nMinDepth = some nBalance ∧
    nBalance + (w.transactions.map (w.gap hash160 view strAccount nMinDepth)).sum =
      balances.getD strAccount 0
  := by
  rw [listAccounts] at h
  obtain ⟨balances₁, hfold, h⟩ := Option.bind_eq_some_iff.mp h
  simp only [Option.pure_def, Option.some.injEq] at h
  obtain ⟨hall, hsum⟩ := w.foldlM_bookTx hash160 view hfold
  obtain ⟨nBalance, hcount, hbalance⟩ :=
    @foldlM_countTx hash160 w view nMinDepth strAccount w.transactions 0 hall
  refine ⟨nBalance + w.getAccountCreditDebit strAccount, ?_, ?_⟩
  · rw [getAccountBalance, hcount]
    rfl
  · rw [← h, getD_foldl_book, hsum, getD_ownAccounts, sum_acentries w hname]
    grind

/-! ## Settled transactions -/

/-- What a payment does to an account, from its outputs: what the wallet spends in it comes back as
change or leaves the account it is sent from, and at the minimum depth the rest that is paid to the
wallet goes to the accounts of the addresses. -/
def moved (strAccount : String) (nMinDepth : ℤ) (nDebit : Int64) (wtx : CWalletTx) : Int64 :=
  let isChange := fun txout => decide (nDebit > 0) && w.isChange hash160 txout
  let toAccount := fun txout => w.isMine hash160 txout
    && w.accountOf ((extractDestination hash160 txout.scriptPubKey).getD .CNoDestination) == strAccount
  (if nDebit > 0 ∧ wtx.strFromAccount = strAccount then
      ((wtx.vout.filter isChange).map CTxOut.nValue).sum - nDebit
    else 0)
  + (if view.depth wtx.toCMerkleTx ≥ nMinDepth then
      ((wtx.vout.filter (fun txout => !isChange txout && toAccount txout)).map CTxOut.nValue).sum
    else 0)

/-- Both commands count the transaction, or neither does: a mature coinbase that generates something
is final just when it has the minimum depth, and a payment is final, or moves nothing. -/
def Settled (nMinDepth : ℤ) (wtx : CWalletTx) : Prop :=
  if wtx.isCoinBase then
    view.blocksToMaturity wtx.toCMerkleTx = 0 → w.getTxCredit hash160 view wtx ≠ some 0 →
      (view.isFinal wtx.toCTransaction = true ↔ view.depth wtx.toCMerkleTx ≥ nMinDepth)
  else
    view.isFinal wtx.toCTransaction = true ∨
      ∀ nDebit, w.getTxDebit hash160 wtx = some nDebit →
        ∀ strAccount, strAccount ≠ "*" → w.moved hash160 view strAccount nMinDepth nDebit wtx = 0

theorem sum_filter_add_sum_filter_not (p : CTxOut → Bool) (vout : List CTxOut) :
  ((vout.filter p).map CTxOut.nValue).sum + ((vout.filter (fun txout => !p txout)).map CTxOut.nValue).sum
    = (vout.map CTxOut.nValue).sum
  := by
  induction vout with
  | nil => rfl
  | cons txout vout ih =>
    rw [List.map_cons, List.sum_cons, ← ih]
    cases hp : p txout with
    | true =>
      rw [List.filter_cons_of_pos hp, List.filter_cons_of_neg (by simp [hp]), List.map_cons,
        List.sum_cons]
      grind
    | false =>
      rw [List.filter_cons_of_neg (by simp [hp]), List.filter_cons_of_pos (by simp [hp]),
        List.map_cons, List.sum_cons]
      grind

theorem foldlM_addMoney_sum {values : List Int64} {nStart nTotal : Int64}
    (h : values.foldlM addMoney nStart = some nTotal) :
  nTotal = nStart + values.sum
  := by
  induction values generalizing nStart with
  | nil =>
    cases h
    simp
  | cons nValue values ih =>
    rw [List.foldlM_cons] at h
    obtain ⟨nNext, hnext, h⟩ := Option.bind_eq_some_iff.mp h
    rw [addMoney] at hnext
    split_ifs at hnext
    cases hnext
    rw [ih h, List.sum_cons, Int64.add_assoc]

/-- What `listaccounts` books for a payment is what it moves. -/
theorem booked_eq_moved {strAccount : String} {nMinDepth : ℤ} {wtx : CWalletTx} {amounts : Amounts}
    (hcoinbase : wtx.isCoinBase = false) (h : w.getAmounts hash160 view wtx = some amounts) :
  ∃ nDebit, w.getTxDebit hash160 wtx = some nDebit ∧
    w.booked hash160 view strAccount nMinDepth wtx = w.moved hash160 view strAccount nMinDepth nDebit wtx
  := by
  rw [booked, h]
  rw [getAmounts, hcoinbase] at h
  obtain ⟨nDebit, hdebit, h⟩ := Option.bind_eq_some_iff.mp h
  obtain ⟨nFee, hfee, h⟩ := Option.bind_eq_some_iff.mp h
  simp only [Option.pure_def, Option.some.injEq] at h
  subst h
  refine ⟨nDebit, hdebit, ?_⟩
  have hsent : ∀ vout : List CTxOut, ((vout.map (fun txout =>
      ((extractDestination hash160 txout.scriptPubKey).getD .CNoDestination, txout.nValue))).map
        Prod.snd) = vout.map CTxOut.nValue := fun vout => List.map_map
  have hreceived : ∀ vout : List CTxOut, (((vout.map (fun txout =>
      ((extractDestination hash160 txout.scriptPubKey).getD .CNoDestination, txout.nValue))).filter
        (fun r => w.accountOf r.1 = strAccount)).map Prod.snd)
      = (vout.filter (fun txout => w.accountOf
          ((extractDestination hash160 txout.scriptPubKey).getD .CNoDestination) == strAccount)).map
          CTxOut.nValue := by
    intro vout
    rw [List.filter_map, List.map_map]
    rfl
  simp only [received, hreceived, List.filter_filter, moved]
  congr 1
  · by_cases hpos : nDebit > 0
    · rw [feeOf, if_pos hpos] at hfee
      obtain ⟨nValueOut, hout, rfl⟩ := Option.map_eq_some_iff.mp hfee
      have htotal := foldlM_addMoney_sum hout
      have hsplit := sum_filter_add_sum_filter_not
        (fun txout => decide (nDebit > 0) && w.isChange hash160 txout) wtx.vout
      simp only [hpos, if_true, true_and, hsent]
      split_ifs
      · grind
      · rfl
    · rw [feeOf, if_neg hpos] at hfee
      cases hfee
      simp [hpos]
  · have hpaid : wtx.vout.filter (fun txout =>
        w.accountOf ((extractDestination hash160 txout.scriptPubKey).getD .CNoDestination) == strAccount
          && (w.isMine hash160 txout && !(decide (nDebit > 0) && w.isChange hash160 txout)))
        = wtx.vout.filter (fun txout => !(decide (nDebit > 0) && w.isChange hash160 txout)
          && (w.isMine hash160 txout
            && w.accountOf ((extractDestination hash160 txout.scriptPubKey).getD .CNoDestination)
              == strAccount)) := by
      apply List.filter_congr
      intro txout _
      ac_rfl
    rw [hpaid]
    split_ifs <;> simp

/-- A transaction is settled just when there is no gap in any account. -/
theorem settled_iff
    (h : w.getAmounts hash160 view wtx = some amounts) :
  w.Settled hash160 view nMinDepth wtx ↔
    ∀ strAccount, strAccount ≠ "*" → w.gap hash160 view strAccount nMinDepth wtx = 0
  := by
  have hamounts := h
  have hmaturity : 0 ≤ view.blocksToMaturity wtx.toCMerkleTx := by
    rw [ChainView.blocksToMaturity]
    split_ifs
    · exact Int.le_refl 0
    · exact le_max_left ..
  cases hcoinbase : wtx.isCoinBase with
  | true =>
    rw [Settled, if_pos hcoinbase]
    rw [getAmounts, if_pos hcoinbase] at h
    split_ifs at h with himmature
    · obtain ⟨n, -, h⟩ := Option.bind_eq_some_iff.mp h
      simp only [Option.pure_def, Option.some.injEq] at h
      refine ⟨fun _ strAccount _ => ?_, fun _ hmature => absurd hmature (by omega)⟩
      rw [gap, leftOut, booked, hamounts, ← h]
      simp [received]
    · obtain ⟨nCredit, hcredit, h⟩ := Option.bind_eq_some_iff.mp h
      simp only [Option.pure_def, Option.some.injEq] at h
      have hmature : view.blocksToMaturity wtx.toCMerkleTx = 0 := by omega
      have hgap : ∀ strAccount, w.gap hash160 view strAccount nMinDepth wtx =
          if "" = strAccount then
            if view.isFinal wtx.toCTransaction then
              if view.depth wtx.toCMerkleTx ≥ nMinDepth then 0 else -nCredit
            else if view.depth wtx.toCMerkleTx ≥ nMinDepth then nCredit else 0
          else 0 := by
        intro strAccount
        rw [gap, leftOut, booked, hamounts, ← h]
        simp only [received, List.filter_nil, List.map_nil, List.sum_nil]
        split_ifs <;> grind
      simp only [hgap, hcredit, hmature, Option.some.injEq, ne_eq, true_implies]
      constructor
      · intro hsettled strAccount _
        split_ifs <;> grind
      · intro hall hne
        have hgenerated := hall "" (by decide)
        rw [if_pos rfl] at hgenerated
        split_ifs at hgenerated <;> grind
  | false =>
    rw [Settled, if_neg (by simp [hcoinbase])]
    cases hfinal : view.isFinal wtx.toCTransaction with
    | true =>
      have hmature : amounts.nGeneratedMature = 0 := by
        rw [getAmounts, if_neg (by simp [hcoinbase])] at h
        obtain ⟨nDebit, -, h⟩ := Option.bind_eq_some_iff.mp h
        obtain ⟨nFee, -, h⟩ := Option.bind_eq_some_iff.mp h
        simp only [Option.pure_def, Option.some.injEq] at h
        rw [← h]
      refine ⟨fun _ strAccount _ => ?_, fun _ => Or.inl rfl⟩
      rw [gap, hfinal, leftOut, hamounts]
      simp [hmature]
    | false =>
      have hbooked := fun strAccount =>
        @booked_eq_moved hash160 w view strAccount nMinDepth wtx amounts hcoinbase h
      simp only [gap, hfinal, Bool.false_eq_true, false_or, if_false]
      constructor
      · intro hmoved strAccount hname
        obtain ⟨nDebit, hdebit, hbooks⟩ := hbooked strAccount
        rw [hbooks, hmoved nDebit hdebit strAccount hname]
      · intro hall nDebit hdebit strAccount hname
        obtain ⟨nDebit', hdebit', hbooks⟩ := hbooked strAccount
        cases hdebit.symm.trans hdebit'
        rw [← hbooks, hall strAccount hname]

/-! ## The account views -/

/-- Each account is listed with the balance that `getbalance` has for it, and one that is not listed
has none. -/
def ViewsAgree (nMinDepth : ℤ) (balances : Balances) : Prop :=
  ∀ strAccount, strAccount ≠ "*" →
    (∀ nBalance, balances[strAccount]? = some nBalance →
      w.getAccountBalance hash160 view strAccount nMinDepth = some nBalance) ∧
    (balances[strAccount]? = none →
      w.getAccountBalance hash160 view strAccount nMinDepth = some 0)

/-- The views agree just when the gaps cancel out in each account. -/
theorem viewsAgree_iff_sum
    (h : w.listAccounts hash160 view nMinDepth = some balances) :
  w.ViewsAgree hash160 view nMinDepth balances ↔
    ∀ strAccount, strAccount ≠ "*" →
      (w.transactions.map (w.gap hash160 view strAccount nMinDepth)).sum = 0
  := by
  rw [ViewsAgree]
  refine forall_congr' fun strAccount => forall_congr' fun hname => ?_
  obtain ⟨nBalance, hcount, hbalance⟩ := w.getD_listAccounts hash160 view h hname
  rw [hcount, ExtTreeMap.getD_eq_getD_getElem?] at *
  cases hlisted : balances[strAccount]? with
  | none =>
    rw [hlisted, Option.getD_none] at hbalance
    simp only [Option.some.injEq, reduceCtorEq, false_implies, implies_true, true_and, forall_const]
    constructor <;> grind
  | some nListed =>
    rw [hlisted, Option.getD_some] at hbalance
    simp only [Option.some.injEq, forall_eq', reduceCtorEq, false_implies, and_true]
    constructor <;> grind

theorem getAmounts_of_listAccounts
    (h : w.listAccounts hash160 view nMinDepth = some balances) :
  ∀ wtx ∈ w.transactions, ∃ amounts, w.getAmounts hash160 view wtx = some amounts
  := by
  rw [listAccounts] at h
  obtain ⟨balances₁, hfold, -⟩ := Option.bind_eq_some_iff.mp h
  exact (w.foldlM_bookTx hash160 view hfold).1

theorem sum_eq_zero {values : List Int64} (h : ∀ n ∈ values, n = 0) : values.sum = 0 := by
  induction values with
  | nil => rfl
  | cons n values ih =>
    obtain ⟨hn, hvalues⟩ := List.forall_mem_cons.mp h
    rw [List.sum_cons, hn, ih hvalues, Int64.add_zero]

/-- The views agree when all transactions are settled, and beside settled transactions one that is
not settled makes them differ. -/
theorem viewsAgree_iff {nMinDepth : ℤ} {balances : Balances}
    (h : w.listAccounts hash160 view nMinDepth = some balances) :
  ((∀ wtx ∈ w.transactions, w.Settled hash160 view nMinDepth wtx) →
      w.ViewsAgree hash160 view nMinDepth balances)
    ∧ ∀ before wtx after, w.transactions = before ++ wtx :: after →
      (∀ other ∈ before ++ after, w.Settled hash160 view nMinDepth other) →
        (w.ViewsAgree hash160 view nMinDepth balances ↔ w.Settled hash160 view nMinDepth wtx)
  := by
  have hamounts := w.getAmounts_of_listAccounts hash160 view h
  have hzero : ∀ txs ⊆ w.transactions, (∀ other ∈ txs, w.Settled hash160 view nMinDepth other) →
      ∀ strAccount, strAccount ≠ "*" →
        (txs.map (w.gap hash160 view strAccount nMinDepth)).sum = 0 := by
    intro txs hsub hsettled strAccount hname
    apply sum_eq_zero
    intro n hn
    obtain ⟨other, hother, rfl⟩ := List.mem_map.mp hn
    obtain ⟨amounts, hamount⟩ := hamounts other (hsub hother)
    exact (w.settled_iff hash160 view hamount).mp (hsettled other hother) strAccount hname
  rw [w.viewsAgree_iff_sum hash160 view h]
  refine ⟨fun hsettled => hzero _ (List.Subset.refl _) hsettled, ?_⟩
  intro before wtx after htxs hothers
  have hmem : wtx ∈ w.transactions := by
    rw [htxs]
    exact List.mem_append_right before (List.mem_cons_self ..)
  obtain ⟨amounts, hamount⟩ := hamounts wtx hmem
  rw [w.settled_iff hash160 view hamount]
  refine forall_congr' fun strAccount => forall_congr' fun hname => ?_
  have hbefore := hzero before (htxs ▸ List.subset_append_left before _)
    (fun other hother => hothers other (List.mem_append_left after hother)) strAccount hname
  have hafter := hzero after
    (htxs ▸ fun other hother => List.mem_append_right before (List.mem_cons_of_mem wtx hother))
    (fun other hother => hothers other (List.mem_append_right before hother)) strAccount hname
  rw [htxs, List.map_append, List.map_cons, List.sum_append, List.sum_cons, hbefore, hafter,
    Int64.add_zero, Int64.zero_add]

/-! ## Wallets where they differ -/

/-- A key store that has one key. -/
def sampleKeyStore : CKeyStore where
  haveKey keyID := keyID == 5
  getKey _ := none
  getPubKey _ := none
  mapScripts := ∅

def sampleTx (prevout : COutPoint) (nLockTime nSequence : UInt32) : CWalletTx where
  nVersion := 1
  vin := [{ prevout, scriptSig := [], nSequence }]
  vout := [{ nValue := 10, scriptPubKey := scriptForKeyID 5 }]
  nLockTime := nLockTime
  hashBlock := 0
  vMerkleBranch := []
  nIndex := -1
  vtxPrev := []
  strFromAccount := ""
  vfSpent := []
  debitCached := none
  creditCached := none
  availableCreditCached := none
  changeCached := none

/-- A wallet with one transaction. -/
def sampleTxWallet (wtx : CWalletTx) : TxWallet where
  keystore := sampleKeyStore
  mapWallet := (∅ : ExtTreeMap uint256 CWalletTx).insert 1 wtx
  mapAddressBook := (∅ : ExtTreeMap CTxDestination String).insert (.CKeyID 5) "savings"
  acentries := [{ strAccount := "savings", nCreditDebit := 3 }]

/-- A chain in which coinbases are sixty blocks deep and payments are not confirmed. -/
def sampleView : ChainView where
  nBestHeight := 100
  nAdjustedTime := 0
  depth tx := if tx.isCoinBase then 60 else 0

/-- The generation of a block that is mature but not as deep as is asked for. -/
def sampleGenerated : TxWallet := sampleTxWallet (sampleTx COutPoint.null 0 0xffffffff)

/-- A payment that waits for a later block. -/
def sampleWaiting : TxWallet := sampleTxWallet (sampleTx ⟨2, 0⟩ 1000 0)

/-- A wallet with a coinbase, and with a payment that waits for a later block. -/
def sampleSettled : TxWallet :=
  { sampleGenerated with
    mapWallet := sampleGenerated.mapWallet.insert 2 (sampleTx ⟨3, 0⟩ 1000 0) }

theorem sampleSettled_agrees :
  ∃ balances, sampleSettled.listAccounts (fun _ => 5) sampleView 50 = some balances ∧
    sampleSettled.ViewsAgree (fun _ => 5) sampleView 50 balances
  := by
  have hlist : (sampleSettled.listAccounts (fun _ => 5) sampleView 50).isSome = true := by
    decide
  obtain ⟨balances, hbalances⟩ := Option.isSome_iff_exists.mp hlist
  have htxs : sampleSettled.transactions =
      [sampleTx COutPoint.null 0 0xffffffff, sampleTx ⟨3, 0⟩ 1000 0] := rfl
  refine ⟨balances, hbalances, (viewsAgree_iff _ _ _ hbalances).1 ?_⟩
  rw [htxs]
  intro wtx hmem
  rcases List.mem_pair.mp hmem with rfl | rfl
  · rw [Settled, if_pos (by decide)]
    exact fun _ _ => by decide
  · rw [Settled, if_neg (by decide)]
    right
    intro nDebit hdebit strAccount _
    have hnone : sampleSettled.getTxDebit (fun _ => 5) (sampleTx ⟨3, 0⟩ 1000 0) = some 0 := by
      decide
    cases hdebit.symm.trans hnone
    rw [moved, if_neg (fun h => absurd h.1 (by decide)), if_neg (by decide)]
    rfl

/-- `listaccounts` books a payment that is not final, and does not list generation that `getbalance`
counts. -/
theorem views_differ :
  ((sampleWaiting.listAccounts (fun _ => 5) sampleView 0).map (fun balances => balances["savings"]?)
      = some (some 13) ∧
    sampleWaiting.getAccountBalance (fun _ => 5) sampleView "savings" 0 = some 3) ∧
  ((sampleGenerated.listAccounts (fun _ => 5) sampleView 100).map (fun balances => balances[""]?)
      = some (some 0) ∧
    sampleGenerated.getAccountBalance (fun _ => 5) sampleView "" 100 = some 10)
  := by
  decide

end TxWallet

end CorgiCoin
