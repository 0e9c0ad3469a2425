import CorgiCoin.Script
import CorgiCoin.Lib.Transition
import CorgiCoin.Lib.TreeMap

/-!
# The burn bridge

The bridge follows the blocks of a node, and for each burn output it sends a reward from the
treasury of the partner that the output names.  What it has done it keeps in `state.json`, an entry
for each transaction.  An operator reconciles entries that are stuck with commands that read the
file, change one entry and write the file back.

The daemon is a machine: each step makes one call to the node, or one save of the file, or one call
of `send_reward`.  A crash or a command can fall between any two steps.
-/

namespace CorgiCoin

open Std Codec Transition

/-! ## Burn payloads -/

namespace BurnPayload

def MAGIC : Bytes := [0x53, 0x4f, 0x4c]

def MAGIC_LEN : ℕ := 3
def PARTNER_LEN : ℕ := 4
def SOL_DEST_LEN : ℕ := 32
def PAYLOAD_LEN : ℕ := MAGIC_LEN + PARTNER_LEN + SOL_DEST_LEN

def isValidPartnerTag (tag : Bytes) : Bool :=
  if tag.length ≠ PARTNER_LEN then false
  else tag.all (fun uc => !(decide (uc < 0x21) || decide (uc > 0x7e)))

/-- The partner tag and the destination of a payload. -/
structure Decoded where
  partner : Bytes
  solDest : Bytes
  deriving DecidableEq

def decodePayload (payload : Bytes) : Option Decoded :=
  if payload.length ≠ PAYLOAD_LEN then none
  else if payload.take MAGIC_LEN ≠ MAGIC then none
  else
    let partner := (payload.drop MAGIC_LEN).take PARTNER_LEN
    if !isValidPartnerTag partner then none
    else some ⟨partner, payload.drop (MAGIC_LEN + PARTNER_LEN)⟩

def decodeScript (script : CScript) : Option Decoded :=
  if script.head? ≠ some (UInt8.ofNat OP_RETURN) then none
  else
    match getOp script with
    | none => none
    | some (opcode, _, pc) =>
      if opcode ≠ OP_RETURN then none
      else
        match getOp pc with
        | none => none
        | some (_, vch, _) => decodePayload vch

end BurnPayload

namespace Bridge

open BurnPayload

-- the decimal numbers of amounts and rewards
variable {D : Type} [Mul D] [ToString D]

/-! ## The node -/

structure Vout (D : Type) where
  scriptPubKey : CScript
  value : D

/-- The chain as the node tells it, below the confirmation depth. -/
structure Chain (D : Type) where
  /-- The transactions of the block of a height. -/
  block : ℕ → List uint256
  vout : uint256 → List (Vout D)
  /-- The first block burns nothing. -/
  genesis : ∀ txid ∈ block 0, ∀ output ∈ vout txid, decodeScript output.scriptPubKey = none

/-- How a call to the node ends: with its result, with an error response (`RuntimeError`), or with
another exception. -/
inductive Rpc
  | result
  | error
  | exception
  deriving DecidableEq

structure Partner (D : Type) where
  tag : Bytes
  rewardRatio : D
  /-- `int(reward_tokens * Decimal(10) ** decimals)` -/
  rawAmount : D → ℤ

/-! ## The state -/

inductive Status
  | pending
  | dispatchError
  | dispatched
  | skippedUnknownPartner
  deriving DecidableEq

/-- An entry of `processed`.  The number of the output is not in the file; no function reads it. -/
structure Entry (D : Type) where
  status : Status
  partner : Bytes
  height : ℕ
  amountCorg : D
  reward : Option D := none
  solDest : Option Bytes := none
  error : Option String := none
  solSig : Option String := none
  vout : ℕ
  deriving DecidableEq

structure State (D : Type) where
  lastHeight : ℕ
  processed : ExtTreeMap uint256 (Entry D) compare

namespace State

/-- The state where there is no file. -/
def empty : State D := ⟨0, ∅⟩

def alreadyProcessed (state : State D) (txid : uint256) : Bool := state.processed.contains txid

def record (state : State D) (txid : uint256) (entry : Entry D) : State D :=
  { state with processed := state.processed.insert txid entry }

end State

/-! ## Burns -/

structure Burn (D : Type) where
  txid : uint256
  height : ℕ
  partner : Bytes
  solDest : Bytes
  amountCorg : D
  /-- The number of the output, which the source does not keep. -/
  vout : ℕ

/-- The loop of `extract_burns` over the outputs from the given one on.  An error response to
`decodeburn` is read as its answer that the output is no burn. -/
def scanOutputs (txid : uint256) (height : ℕ) (decodeburn : ℕ → Rpc) :
    ℕ → List (Vout D) → Option (List (Burn D))
  | _, [] => some []
  | n, vout :: rest =>
    match decodeburn n with
    | .exception => none
    | .error => scanOutputs txid height decodeburn (n + 1) rest
    | .result =>
      match decodeScript vout.scriptPubKey with
      | none => scanOutputs txid height decodeburn (n + 1) rest
      | some decoded =>
        (scanOutputs txid height decodeburn (n + 1) rest).map
          (⟨txid, height, decoded.partner, decoded.solDest, vout.value, n⟩ :: ·)

/-- `extract_burns`; `none` where an exception leaves it. -/
def extractBurns (chain : Chain D) (txid : uint256) (height : ℕ) (getrawtransaction : Rpc)
    (decodeburn : ℕ → Rpc) : Option (List (Burn D)) :=
  if getrawtransaction ≠ .result then none
  else scanOutputs txid height decodeburn 0 (chain.vout txid)

/-- The entry of a burn of an unknown partner. -/
def Burn.skippedEntry (burn : Burn D) : Entry D where
  status := .skippedUnknownPartner
  partner := burn.partner
  height := burn.height
  amountCorg := burn.amountCorg
  vout := burn.vout

/-- `base_entry`, with a status. -/
def Burn.baseEntry (burn : Burn D) (partner : Partner D) (status : Status) : Entry D where
  status := status
  partner := partner.tag
  height := burn.height
  amountCorg := burn.amountCorg
  reward := some (burn.amountCorg * partner.rewardRatio)
  solDest := some burn.solDest
  vout := burn.vout

/-- The entry after `send_reward` has returned or raised. -/
def Burn.resultEntry (burn : Burn D) (partner : Partner D) : Except String String → Entry D
  | .error e => { burn.baseEntry partner .dispatchError with error := some e }
  | .ok solSig => { burn.baseEntry partner .dispatched with solSig := some solSig }

/-! ## The daemon -/

/-- Where the daemon is.  In the loop over a block it has the height, the safe tip, the
transactions to come and the burns to come of the transaction at hand. -/
inductive Pc (D : Type)
  /-- Between two ticks. -/
  | idle
  /-- Before the block of the height is asked for. -/
  | fetch (height : ℕ) (safeTip : ℤ)
  | txs (height : ℕ) (safeTip : ℤ) (todo : List uint256)
  | burns (height : ℕ) (safeTip : ℤ) (todo : List uint256) (burns : List (Burn D))
  /-- After `pending` is saved, before `send_reward`. -/
  | send (height : ℕ) (safeTip : ℤ) (todo : List uint256) (burns : List (Burn D))
      (burn : Burn D) (partner : Partner D)
  /-- After `send_reward`, before its result is saved. -/
  | sent (height : ℕ) (safeTip : ℤ) (todo : List uint256) (burns : List (Burn D))
      (burn : Burn D) (partner : Partner D) (result : Except String String)

/-- What the calls of the daemon's next step meet. -/
structure Answers where
  /-- The block count of the node. -/
  tip : ℤ
  /-- How `getblockcount`, `getblockhash` and `getblock`, or `getrawtransaction` end. -/
  rpc : Rpc
  /-- How `decodeburn` ends for each output. -/
  decodeburn : ℕ → Rpc
  /-- Whether the transfer that `send_reward` submits lands. -/
  lands : Bool
  /-- The signature that `send_reward` returns, or the exception it raises. -/
  sendReward : Except String String

/-- What a step of the daemon does besides going on: it saves an entry, saves a height, or lands a
reward for an output. -/
inductive Effect (D : Type)
  | none
  | save (txid : uint256) (entry : Entry D)
  | saveHeight (height : ℕ)
  | land (txid : uint256) (vout : ℕ)

structure Daemon (D : Type) where
  /-- `partners.json`, read at the start. -/
  partners : Bytes → Option (Partner D)
  state : State D
  pc : Pc D

/-- One step of `tick` and `process_burn`.  An exception ends the tick; the state in memory
stays. -/
def Daemon.next (chain : Chain D) (confirmations : ℤ) (daemon : Daemon D) (answers : Answers) :
    Effect D × Pc D :=
  match daemon.pc with
  | .idle =>
    if answers.rpc ≠ .result then (.none, .idle)
    else
      let safeTip := answers.tip - confirmations
      if safeTip ≤ daemon.state.lastHeight then (.none, .idle)
      else (.none, .fetch (daemon.state.lastHeight + 1) safeTip)
  | .fetch height safeTip =>
    if answers.rpc ≠ .result then (.none, .idle)
    else (.none, .txs height safeTip (chain.block height))
  | .txs height safeTip [] =>
    (.saveHeight height, if (height : ℤ) + 1 ≤ safeTip then .fetch (height + 1) safeTip else .idle)
  | .txs height safeTip (txid :: todo) =>
    if daemon.state.alreadyProcessed txid then (.none, .txs height safeTip todo)
    else
      match extractBurns chain txid height answers.rpc answers.decodeburn with
      | none => (.none, .idle)
      | some burns => (.none, .burns height safeTip todo burns)
  | .burns height safeTip todo [] => (.none, .txs height safeTip todo)
  | .burns height safeTip todo (burn :: burns) =>
    match daemon.partners burn.partner with
    | none => (.save burn.txid burn.skippedEntry, .burns height safeTip todo burns)
    | some partner =>
      (.save burn.txid (burn.baseEntry partner .pending),
        .send height safeTip todo burns burn partner)
  | .send height safeTip todo burns burn partner =>
    let reward := burn.amountCorg * partner.rewardRatio
    if partner.rawAmount reward ≤ 0 then
      (.none, .sent height safeTip todo burns burn partner
        (.error ("reward amount rounds to zero: " ++ toString reward)))
    else
      (if answers.lands then .land burn.txid burn.vout else .none,
        .sent height safeTip todo burns burn partner answers.sendReward)
  | .sent height safeTip todo burns burn partner result =>
    (.save burn.txid (burn.resultEntry partner result), .burns height safeTip todo burns)

/-! ## The commands -/

def RECONCILABLE_STATUSES : List Status := [.pending, .dispatchError]

/-- `reconcile_mark_dispatched`; `none` where it refuses. -/
def reconcileMarkDispatched (state : State D) (txid : uint256) (solSig : String) :
    Option (State D) :=
  match state.processed[txid]? with
  | none => none
  | some entry =>
    if entry.status = .dispatched then none
    else if entry.status ∉ RECONCILABLE_STATUSES then none
    else
      some (state.record txid
        { entry with error := none, status := .dispatched, solSig := some solSig })

/-- `reconcile_reset`; `none` where it refuses. -/
def reconcileReset (state : State D) (txid : uint256) : Option (State D) :=
  match state.processed[txid]? with
  | none => none
  | some entry =>
    if entry.status = .dispatched then none
    else if entry.status ∉ RECONCILABLE_STATUSES then none
    else
      some
        { processed := state.processed.erase txid
          lastHeight :=
            if state.lastHeight ≥ entry.height then max 0 (entry.height - 1)
            else state.lastHeight }

inductive Command
  | markDispatched (txid : uint256) (solSig : String)
  | reset (txid : uint256)

def Command.txid : Command → uint256
  | .markDispatched txid _ => txid
  | .reset txid => txid

def Command.reconcile (state : State D) : Command → Option (State D)
  | .markDispatched txid solSig => reconcileMarkDispatched state txid solSig
  | .reset txid => reconcileReset state txid

/-! ## The system -/

/-- The saved file, the daemon while it runs, the commands that have read the file and not yet saved,
and the outputs that rewards have landed for, the last one first. -/
structure Sys (D : Type) where
  file : State D
  daemon : Option (Daemon D)
  commands : List (Command × State D)
  landed : List (uint256 × ℕ)

def Sys.init : Sys D := ⟨.empty, none, [], []⟩

inductive Event (D : Type)
  /-- The daemon starts, or starts again, with a registry of partners. -/
  | start (partners : Bytes → Option (Partner D))
  /-- The daemon stops, wherever it is. -/
  | crash
  | advance (answers : Answers)
  /-- A command reads the file. -/
  | load (command : Command)
  /-- One of the commands saves, unless it refuses. -/
  | save (i : ℕ)

/-- The system after the daemon has made a step of the given effect. -/
def Sys.apply (sys : Sys D) (daemon : Daemon D) (pc : Pc D) : Effect D → Sys D
  | .none => { sys with daemon := some { daemon with pc } }
  | .save txid entry =>
    let state := daemon.state.record txid entry
    { sys with file := state, daemon := some { daemon with state, pc } }
  | .saveHeight height =>
    let state := { daemon.state with lastHeight := height }
    { sys with file := state, daemon := some { daemon with state, pc } }
  | .land txid vout =>
    { sys with landed := (txid, vout) :: sys.landed, daemon := some { daemon with pc } }

/-- The loads and the saves of the file are atomic. -/
def Sys.step (chain : Chain D) (confirmations : ℤ) (sys : Sys D) : Event D → Sys D
  | .start partners => { sys with daemon := some ⟨partners, sys.file, .idle⟩ }
  | .crash => { sys with daemon := none }
  | .advance answers =>
    match sys.daemon with
    | none => sys
    | some daemon =>
      let next := daemon.next chain confirmations answers
      sys.apply daemon next.2 next.1
  | .load command => { sys with commands := sys.commands ++ [(command, sys.file)] }
  | .save i =>
    match sys.commands[i]? with
    | none => sys
    | some (command, state) =>
      let commands := sys.commands.eraseIdx i
      match command.reconcile state with
      | none => { sys with commands }
      | some file => { sys with file, commands }

end Bridge

end CorgiCoin
