import CorgiCoin.Serialize
import CorgiCoin.Lib.Transition

/-!
# The block explorer

The indexer of the explorer: the tables it keeps, and a pass of `Indexer.sync` as a machine that
makes one RPC call at a time.  Between two calls the node may change its chain, and a call may fail.
The tables are what the connection of the indexer sees, committed or not.
-/

namespace CorgiCoin.Explorer

/-! ## The node -/

structure Vin where
  coinbase : Bool
  txid : uint256
  vout : ℕ
  deriving DecidableEq

/-- An output, with the first of its addresses and its value in units. -/
structure Vout where
  n : ℕ
  address : Option String
  value : ℤ
  hex : List Char
  deriving DecidableEq

structure Tx where
  vin : List Vin
  vout : List Vout
  deriving DecidableEq

structure Block where
  hash : uint256
  time : ℤ
  bits : String
  difficulty : String
  size : ℕ
  tx : List uint256
  deriving DecidableEq

/-- What the node answers about blocks, transactions and burns whatever its chain is. -/
structure NodeData where
  genesis : uint256
  /-- The hash of the block before a block. -/
  prev : uint256 → uint256
  getblock : uint256 → Block
  hash_getblock : ∀ hash, (getblock hash).hash = hash
  /-- The transaction with a hash, `none` for the coinbase of the genesis block, which is not in the
  index. -/
  tx : uint256 → Option Tx
  /-- The partner and the address of a burn that can be decoded. -/
  decodeburn : List Char → Option (Option String × Option String)

/-- The hashes of a main chain, from the genesis block on, and the index of its transactions. -/
structure Chain (data : NodeData) where
  hashes : List uint256
  head : hashes.head? = some data.genesis
  linked : ∀ i a b, hashes[i]? = some a → hashes[i + 1]? = some b → data.prev b = a
  nodup : hashes.Nodup
  /-- The block that the index has a transaction in. -/
  txIndex : uint256 → Option uint256
  mem_txIndex : ∀ txid hash, txIndex txid = some hash → hash ∈ hashes ∧ txid ∈ (data.getblock hash).tx

/-- `getblockcount` -/
def Chain.height {data : NodeData} (chain : Chain data) : ℕ := chain.hashes.length - 1

/-- `getrawtransaction`: the transaction, and the `time` of the block that holds it.  A transaction in
the memory pool has no `time`; one that is neither there nor in the index is not found. -/
def Chain.getrawtransaction {data : NodeData} (chain : Chain data) (mempool : List uint256)
    (txid : uint256) : Option (Tx × Option ℤ) :=
  if txid ∈ mempool then (data.tx txid).map (fun tx => (tx, none))
  else
    (chain.txIndex txid).bind fun hash =>
      (data.tx txid).map (fun tx => (tx, some (data.getblock hash).time))

/-- How a call ends: with what the node answers, with an error response (`RuntimeError`), or with
another exception. -/
inductive Rpc
  | result
  | error
  | exception
  deriving DecidableEq

/-! ## The tables -/

structure BlockRow where
  height : ℕ
  hash : uint256
  time : ℤ
  bits : String
  difficulty : String
  size : ℕ
  txcount : ℕ
  deriving DecidableEq

structure TxRow where
  txid : uint256
  height : ℕ
  idx : ℕ
  time : ℤ
  isCoinbase : Bool
  deriving DecidableEq

structure OutputRow where
  txid : uint256
  n : ℕ
  address : Option String
  value : ℤ
  spentTxid : Option uint256
  deriving DecidableEq

structure BurnRow where
  txid : uint256
  n : ℕ
  height : ℕ
  value : ℤ
  scriptHex : List Char
  partner : Option String
  solAddress : Option String
  deriving DecidableEq

structure Tables where
  blocks : List BlockRow
  txs : List TxRow
  outputs : List OutputRow
  burns : List BurnRow
  deriving DecidableEq

namespace Tables

def empty : Tables := ⟨[], [], [], []⟩

/-- `INSERT OR REPLACE INTO blocks`: the height and the hash are unique. -/
def replaceBlock (tables : Tables) (row : BlockRow) : Tables :=
  { tables with
    blocks := row :: tables.blocks.filter (fun r => r.height ≠ row.height ∧ r.hash ≠ row.hash) }

def replaceTx (tables : Tables) (row : TxRow) : Tables :=
  { tables with txs := row :: tables.txs.filter (fun r => r.txid ≠ row.txid) }

def replaceOutput (tables : Tables) (row : OutputRow) : Tables :=
  { tables with
    outputs := row :: tables.outputs.filter (fun r => ¬(r.txid = row.txid ∧ r.n = row.n)) }

def replaceBurn (tables : Tables) (row : BurnRow) : Tables :=
  { tables with burns := row :: tables.burns.filter (fun r => ¬(r.txid = row.txid ∧ r.n = row.n)) }

/-- `UPDATE outputs SET spent_txid=? WHERE txid=? AND n=?` -/
def spend (tables : Tables) (txid : uint256) (vin : Vin) : Tables :=
  { tables with
    outputs := tables.outputs.map (fun r =>
      if r.txid = vin.txid ∧ r.n = vin.vout then { r with spentTxid := some txid } else r) }

/-- `SELECT height, hash FROM blocks ORDER BY height DESC LIMIT 1` -/
def top (tables : Tables) : Option BlockRow :=
  tables.blocks.foldl
    (fun best row =>
      match best with
      | none => some row
      | some b => if b.height < row.height then some row else some b) none

def rewindTx (tables : Tables) (txid : uint256) : Tables :=
  { tables with
    outputs := (tables.outputs.map (fun r =>
      if r.spentTxid = some txid then { r with spentTxid := none } else r)).filter
        (fun r => r.txid ≠ txid)
    burns := tables.burns.filter (fun r => r.txid ≠ txid) }

def rewindBlock (tables : Tables) (height : ℕ) : Tables :=
  let txids := (tables.txs.filter (fun r => r.height = height)).map (·.txid)
  let tables := txids.foldl rewindTx tables
  { tables with
    txs := tables.txs.filter (fun r => r.height ≠ height)
    blocks := tables.blocks.filter (fun r => r.height ≠ height) }

end Tables

/-! ## Writing a block -/

/-- The row of a block. -/
def blockRow (height : ℕ) (blk : Block) : BlockRow :=
  ⟨height, blk.hash, blk.time, blk.bits, blk.difficulty, blk.size, blk.tx.length⟩

def Tx.isCoinbase (tx : Tx) : Bool := (tx.vin.head?.map (·.coinbase)).getD false

/-- A transaction that `getrawtransaction` does not find. -/
def writeUnknownTx (tables : Tables) (height : ℕ) (blk : Block) (idx : ℕ) (txid : uint256) :
    Tables :=
  tables.replaceTx ⟨txid, height, idx, blk.time, true⟩

/-- The row of a transaction, and its spends. -/
def writeTx (tables : Tables) (height : ℕ) (blk : Block) (idx : ℕ) (txid : uint256) (tx : Tx)
    (time : Option ℤ) : Tables :=
  let tables := tables.replaceTx ⟨txid, height, idx, time.getD blk.time, tx.isCoinbase⟩
  if !tx.isCoinbase then tx.vin.foldl (fun tables vin => tables.spend txid vin) tables else tables

def writeOutput (tables : Tables) (txid : uint256) (vout : Vout) : Tables :=
  tables.replaceOutput ⟨txid, vout.n, vout.address, vout.value, none⟩

/-- An output whose script starts with `OP_RETURN`. -/
def Vout.isBurn (vout : Vout) : Bool := vout.hex.take 2 == ['6', 'a']

/-- The row of a burn; a burn that cannot be decoded has no partner and no address. -/
def writeBurn (tables : Tables) (height : ℕ) (txid : uint256) (vout : Vout)
    (decoded : Option (Option String × Option String)) : Tables :=
  let (partner, solAddress) := decoded.getD (none, none)
  tables.replaceBurn ⟨txid, vout.n, height, vout.value, vout.hex, partner, solAddress⟩

/-- The loop over the outputs of a transaction, up to the next call of `decodeburn`: the burn it is
for, and the outputs after it. -/
def writeOutputs (txid : uint256) : Tables → List Vout → Tables × Option (Vout × List Vout)
  | tables, [] => (tables, none)
  | tables, vout :: vouts =>
    let tables := writeOutput tables txid vout
    if vout.isBurn then (tables, some (vout, vouts)) else writeOutputs txid tables vouts

/-! ## A pass -/

/-- The call that a pass makes next.  The pass that starts at `idle` keeps the height of the tip it
was told. -/
inductive Pc
  /-- `getblockcount`, the first call of a pass -/
  | idle
  /-- `getblockhash` of the topmost stored block -/
  | checking (tip : ℕ) (row : BlockRow)
  /-- `getblockhash` of the height to index -/
  | hashing (tip h : ℕ)
  /-- `getblock` -/
  | fetching (tip h : ℕ) (bhash : uint256)
  /-- `getrawtransaction` of the transaction at position `idx` -/
  | reading (tip h : ℕ) (blk : Block) (idx : ℕ) (txid : uint256) (txids : List uint256)
  /-- `decodeburn` of an output of that transaction -/
  | burning (tip h : ℕ) (blk : Block) (idx : ℕ) (txid : uint256) (vout : Vout) (vouts : List Vout)
      (txids : List uint256)
  deriving DecidableEq

/-- The loop over the heights, at height `h`. -/
def indexNext (tip h : ℕ) : Pc := if h ≤ tip then .hashing tip h else .idle

/-- The loop over the transactions of a block, at position `idx`. -/
def readNext (tip h : ℕ) (blk : Block) (idx : ℕ) : List uint256 → Pc
  | [] => indexNext tip (h + 1)
  | txid :: txids => .reading tip h blk idx txid txids

/-- The loop over the outputs of a transaction. -/
def outputsNext (tip h : ℕ) (blk : Block) (idx : ℕ) (txid : uint256) (txids : List uint256)
    (tables : Tables) (vouts : List Vout) : Tables × Pc :=
  match writeOutputs txid tables vouts with
  | (tables, none) => (tables, readNext tip h blk (idx + 1) txids)
  | (tables, some (vout, vouts)) => (tables, .burning tip h blk idx txid vout vouts txids)

/-- The reorg check, at the topmost stored block. -/
def checkNext (tip : ℕ) (tables : Tables) : Pc :=
  match tables.top with
  | none => indexNext tip 0
  | some row => .checking tip row

/-- Make a call and run on to the next one; an exception ends the pass. -/
def perform {data : NodeData} (chain : Chain data) (mempool : List uint256) (tables : Tables)
    (answer : Rpc) : Pc → Tables × Pc
  | .idle =>
    if answer ≠ .result then (tables, .idle) else (tables, checkNext chain.height tables)
  | .checking tip row =>
    if answer ≠ .result then (tables, .idle)
    else
      match chain.hashes[row.height]? with
      | none => (tables, .idle)
      | some hash =>
        if hash ≠ row.hash then
          let tables := tables.rewindBlock row.height
          (tables, checkNext tip tables)
        else (tables, indexNext tip (row.height + 1))
  | .hashing tip h =>
    if answer ≠ .result then (tables, .idle)
    else
      match chain.hashes[h]? with
      | none => (tables, .idle)
      | some bhash => (tables, .fetching tip h bhash)
  | .fetching tip h bhash =>
    if answer ≠ .result then (tables, .idle)
    else
      let blk := data.getblock bhash
      (tables.replaceBlock (blockRow h blk), readNext tip h blk 0 blk.tx)
  | .reading tip h blk idx txid txids =>
    if answer = .exception then (tables, .idle)
    else
      match if answer = .result then chain.getrawtransaction mempool txid else none with
      | none => (writeUnknownTx tables h blk idx txid, readNext tip h blk (idx + 1) txids)
      | some (tx, time) =>
        outputsNext tip h blk idx txid txids (writeTx tables h blk idx txid tx time) tx.vout
  | .burning tip h blk idx txid vout vouts txids =>
    let decoded := if answer = .result then data.decodeburn vout.hex else none
    outputsNext tip h blk idx txid txids (writeBurn tables h txid vout decoded) vouts

/-! ## Runs -/

/-- The node, the tables and the pass that is under way, and for the last pass whether the chain
changed and whether a call failed since it started. -/
structure State (data : NodeData) where
  chain : Chain data
  /-- The transactions in the memory pool of the node. -/
  mempool : List uint256
  tables : Tables
  pc : Pc
  fChanged : Bool
  fFailed : Bool
  /-- The last step ended a pass. -/
  fEnded : Bool

/-- The node changes its chain or its memory pool, or the indexer makes its next call. -/
inductive Event (data : NodeData)
  | node (chain : Chain data)
  | mempool (txids : List uint256)
  | rpc (answer : Rpc)

def step {data : NodeData} (s : State data) : Event data → State data
  | .node chain => { s with chain := chain, fChanged := true, fEnded := false }
  | .mempool txids => { s with mempool := txids, fEnded := false }
  | .rpc answer =>
    let (tables, pc) := perform s.chain s.mempool s.tables answer s.pc
    { chain := s.chain
      mempool := s.mempool
      tables := tables
      pc := pc
      fChanged := if s.pc = .idle then false else s.fChanged
      fFailed := (if s.pc = .idle then false else s.fFailed) || answer ≠ .result
      fEnded := pc = .idle }

/-- Before the first pass, with empty tables. -/
def init {data : NodeData} (chain : Chain data) : State data where
  chain := chain
  mempool := []
  tables := .empty
  pc := .idle
  fChanged := false
  fFailed := false
  fEnded := false

/-! ## Uninterrupted indexing -/

/-- What is stored for an output when no call fails. -/
def indexOutput (data : NodeData) (height : ℕ) (txid : uint256) (tables : Tables) (vout : Vout) :
    Tables :=
  let tables := writeOutput tables txid vout
  if vout.isBurn then writeBurn tables height txid vout (data.decodeburn vout.hex) else tables

/-- What is stored for a transaction when no call fails and `getrawtransaction` answers with some
`time`. -/
def indexTx (data : NodeData) (times : uint256 → Option ℤ) (height : ℕ) (blk : Block)
    (tables : Tables) (tx : uint256 × ℕ) : Tables :=
  match data.tx tx.1 with
  | none => writeUnknownTx tables height blk tx.2 tx.1
  | some t =>
    t.vout.foldl (indexOutput data height tx.1)
      (writeTx tables height blk tx.2 tx.1 t (times tx.1))

/-- What is stored for a block when no call fails. -/
def indexBlock (data : NodeData) (times : uint256 → uint256 → Option ℤ) (tables : Tables)
    (block : uint256 × ℕ) : Tables :=
  let blk := data.getblock block.1
  (blk.tx.zipIdx).foldl (indexTx data (times block.1) block.2 blk)
    (tables.replaceBlock (blockRow block.2 blk))

/-- The answers of a node that has the block on its main chain and in its index: the `time` of a
transaction is that of the block. -/
def blockTimes (data : NodeData) (hash _txid : uint256) : Option ℤ := some (data.getblock hash).time

/-- The tables that an uninterrupted indexing of some blocks stores. -/
def indexAll (data : NodeData) (hashes : List uint256) : Tables :=
  hashes.zipIdx.foldl (indexBlock data (blockTimes data)) .empty

end CorgiCoin.Explorer
