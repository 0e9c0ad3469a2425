import CorgiCoin.Standard
import CorgiCoin.MemPool

/-!
# Transactions of the wallet

What the wallet counts of its transactions: the debit of the inputs that spend its own outputs, the
credit of the outputs that are its own, the change among these, and the amounts sent and received that
the accounts are made of.  The totals are cached with each transaction.  A total that is out of range
makes the source throw an exception, and is `none` here.
-/

namespace CorgiCoin

open Std Codec

/-! ## The wallet -/

/-- A wallet transaction.  A cached total is `none` while its flag is not set. -/
structure CWalletTx extends CMerkleTx where
  vtxPrev : List CMerkleTx
  strFromAccount : String
  /-- which outputs are already spent -/
  vfSpent : List Bool
  debitCached : Option Int64
  creditCached : Option Int64
  availableCreditCached : Option Int64
  changeCached : Option Int64

/-- An internal transfer between accounts. -/
structure CAccountingEntry where
  strAccount : String
  nCreditDebit : Int64
  deriving DecidableEq

/-- The part of a wallet that its transactions are seen through. -/
structure TxWallet where
  keystore : CKeyStore
  mapWallet : ExtTreeMap uint256 CWalletTx
  mapAddressBook : ExtTreeMap CTxDestination String
  /-- The accounting entries of the database. -/
  acentries : List CAccountingEntry

/-- What the wallet asks of the chain. -/
structure ChainView where
  nBestHeight : ℤ
  nAdjustedTime : ℤ
  /-- `GetDepthInMainChain` -/
  depth : CMerkleTx → ℤ

namespace ChainView

variable (view : ChainView)

/-- `IsFinal()` -/
def isFinal (tx : CTransaction) : Bool := tx.isFinal view.nBestHeight view.nAdjustedTime 0 0

/-- `GetBlocksToMaturity` -/
def blocksToMaturity (tx : CMerkleTx) : ℤ :=
  if !tx.isCoinBase then 0 else max 0 (COINBASE_MATURITY + 20 - view.depth tx)

end ChainView

/-- What `GetAmounts` returns. -/
structure Amounts where
  nGeneratedImmature : Int64 := 0
  nGeneratedMature : Int64 := 0
  listReceived : List (CTxDestination × Int64) := []
  listSent : List (CTxDestination × Int64) := []
  nFee : Int64 := 0
  strSentAccount : String

namespace TxWallet

variable (hash160 : Bytes → uint160) (w : TxWallet) (view : ChainView)

/-! ## Outputs and inputs -/

/-- `IsMine` of an output. -/
def isMine (txout : CTxOut) : Bool := CorgiCoin.isMine hash160 w.keystore txout.scriptPubKey

/-- A payment to an address that is mine but is not in the address book. -/
def isChange (txout : CTxOut) : Bool :=
  match extractDestination hash160 txout.scriptPubKey with
  | none => false
  | some address => isMineDestination w.keystore address && !w.mapAddressBook.contains address

/-- `GetDebit` of an input. -/
def getDebitOf (txin : CTxIn) : Int64 :=
  match w.mapWallet[txin.prevout.hash]? with
  | none => 0
  | some prev =>
    match prev.vout[txin.prevout.n.toNat]? with
    | none => 0
    | some txout => if w.isMine hash160 txout then txout.nValue else 0

/-- `GetCredit` of an output. -/
def getCreditOf (txout : CTxOut) : Option Int64 :=
  if !moneyRange txout.nValue then none
  else some (if w.isMine hash160 txout then txout.nValue else 0)

/-- A total that is checked after each term. -/
def tally (nTotal nValue : Int64) : Option Int64 :=
  if !moneyRange (nTotal + nValue) then none else some (nTotal + nValue)

/-- `GetDebit` of a transaction. -/
def getDebit (tx : CTransaction) : Option Int64 :=
  tx.vin.foldlM (fun nDebit txin => tally nDebit (w.getDebitOf hash160 txin)) 0

/-- `GetCredit` of a transaction. -/
def getCredit (tx : CTransaction) : Option Int64 :=
  tx.vout.foldlM (fun nCredit txout => do tally nCredit (← w.getCreditOf hash160 txout)) 0

/-! ## Cached totals -/

/-- `CWalletTx::GetDebit` -/
def getTxDebit (wtx : CWalletTx) : Option Int64 :=
  if wtx.vin.isEmpty then some 0
  else
    match wtx.debitCached with
    | some nDebitCached => some nDebitCached
    | none => w.getDebit hash160 wtx.toCTransaction

/-- `CWalletTx::GetCredit` -/
def getTxCredit (wtx : CWalletTx) : Option Int64 :=
  if wtx.isCoinBase && 0 < view.blocksToMaturity wtx.toCMerkleTx then some 0
  else
    match wtx.creditCached with
    | some nCreditCached => some nCreditCached
    | none => w.getCredit hash160 wtx.toCTransaction

/-! ## Amounts -/

/-- The fee of a transaction that was sent. -/
def feeOf (nDebit : Int64) (wtx : CWalletTx) : Option Int64 :=
  if nDebit > 0 then (wtx.getValueOut).map (nDebit - ·) else some 0

/-- `CWalletTx::GetAmounts` -/
def getAmounts (wtx : CWalletTx) : Option Amounts :=
  if wtx.isCoinBase then
    if view.blocksToMaturity wtx.toCMerkleTx > 0 then do
      let nGeneratedImmature ← w.getCredit hash160 wtx.toCTransaction
      return { nGeneratedImmature, strSentAccount := wtx.strFromAccount }
    else do
      let nGeneratedMature ← w.getTxCredit hash160 view wtx
      return { nGeneratedMature, strSentAccount := wtx.strFromAccount }
  else do
    let nDebit ← w.getTxDebit hash160 wtx
    let nFee ← feeOf nDebit wtx
    -- an output of an unknown type has no destination; change is not reported
    let reported := wtx.vout.filter (fun txout => !(decide (nDebit > 0) && w.isChange hash160 txout))
    let entry := fun txout : CTxOut =>
      ((extractDestination hash160 txout.scriptPubKey).getD .CNoDestination, txout.nValue)
    return {
      nFee
      listSent := if nDebit > 0 then reported.map entry else []
      listReceived := (reported.filter (w.isMine hash160)).map entry
      strSentAccount := wtx.strFromAccount }

end TxWallet

end CorgiCoin
