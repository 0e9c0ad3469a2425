import CorgiCoin.Locator
import CorgiCoin.MinWork
import CorgiCoin.OrphanBlocks
import CorgiCoin.Requests

/-!
# Block messages between two nodes

What two connected nodes do with the messages that are about blocks: `ProcessMessage` for `getblocks`, `inv`,
`getdata` and `block`, with `ProcessBlock` behind it, and `SendMessages`.  Messages travel in a queue for each
direction, and in every step one node takes a message from its queue or sends what it has to send.
-/

namespace CorgiCoin

open Std

inductive BlockMessage where
  | getblocks (vHave : List uint256) (hashStop : uint256)
  | inv (vInv : List CInv)
  | getdata (vInv : List CInv)
  | block (pblock : HeapBlock)

/-- A node with one peer: its blocks, the pool of orphans with the memory its pointers lead to, and what
the `CNode` of the peer holds. -/
structure Endpoint where
  node : Node
  orphans : OrphanBlocks
  heap : BlockPtr → HeapBlock
  nextPtr : BlockPtr
  requests : RequestState
  announcer : Announcer
  hashContinue : uint256
  pindexLastGetBlocksBegin : Option CBlockIndex
  hashLastGetBlocksEnd : uint256
  nStartingHeight : ℤ

/-- What is decided outside of the modelled code. -/
structure Outside where
  /-- What a call gets from outside when the block with a hash is processed. -/
  io : uint256 → Io
  /-- What a read of the block with a hash leaves when it fails. -/
  failedRead : uint256 → HeapBlock

def MAX_ORPHAN_BLOCKS : UInt32 := 750

def MAX_ORPHAN_BLOCKS_BYTES : UInt32 := 32 * MAX_BLOCK_SIZE

/-- A block in memory.  What was read from a file or a message has the proof that its version asks for. -/
def CBlock.onHeap (block : CBlock) : Option HeapBlock :=
  if h : isAuxPowVersion block.nVersion = true → block.auxpow.isSome = true then some ⟨block, h⟩ else none

/-- `Checkpoints::GetLastCheckpoint`: the first block of the main network is the only checkpoint. -/
def Node.getLastCheckpoint (env : Env) (node : Node) : Option CBlockIndex :=
  if env.network.fTestNet then none else node.mapBlockIndex[hashGenesisBlock env]?

/-- The checks of `ProcessBlock` against blocks that fill up memory. -/
def Node.extraChecks (env : Env) (node : Node) (block : CBlock) : Bool :=
  match node.getLastCheckpoint env with
  | none => true
  | some pcheckpoint =>
    if block.hashPrevBlock == node.hashBestChain then true
    else
      let deltaTime := block.getBlockTime - pcheckpoint.getBlockTime
      if deltaTime < 0 then false
      else decide (setCompact block.nBits ≤ setCompact (computeMinWork env.network pcheckpoint.entry.nBits deltaTime))

/-- The constructor of a `CBlockLocator` from a pointer. -/
def locatorOf (env : Env) : Option CBlockIndex → List uint256
  | none => [hashGenesisBlock env]
  | some pindex => locatorSet env pindex

namespace Endpoint

variable (env : Env) (outside : Outside) (rand : ℕ → uint256)

/-- `make_shared` of a copy of a block. -/
def makeShared (self : Endpoint) (block : HeapBlock) : Endpoint × BlockPtr :=
  ({ self with heap := Function.update self.heap self.nextPtr block, nextPtr := self.nextPtr + 1 }, self.nextPtr)

/-- `CNode::AddInventoryKnown` -/
def addInventoryKnown (self : Endpoint) (inv : CInv) : Endpoint :=
  { self with announcer := self.announcer.addInventoryKnown inv }

/-- `CNode::PushInventory` -/
def pushInventory (self : Endpoint) (inv : CInv) : Endpoint :=
  { self with announcer := self.announcer.pushInventory inv }

/-- `AskFor` the peer. -/
def askFor (self : Endpoint) (inv : CInv) (nTime : ℤ) : Endpoint :=
  { self with requests := self.requests.askFor 0 inv nTime }

/-- What was received is erased from `mapAlreadyAskedFor`. -/
def eraseAsked (self : Endpoint) (inv : CInv) : Endpoint :=
  { self with requests := (self.requests.step (.received inv)).1 }

/-- `AlreadyHave`, where no transaction is an orphan. -/
def alreadyHave (self : Endpoint) (inv : CInv) : Bool :=
  if inv.type = CInv.TX then
    self.node.mempool.mapTx.contains inv.hash || self.node.txdb.txIndex.contains inv.hash
  else if inv.type = CInv.BLOCK then
    self.node.mapBlockIndex.contains inv.hash || self.orphans.mapOrphanBlocks.contains inv.hash
  else true

/-- `CNode::PushGetBlocks` -/
def pushGetBlocks (self : Endpoint) (pindexBegin : Option CBlockIndex) (hashEnd : uint256) :
    Endpoint × List BlockMessage :=
  if pindexBegin = self.pindexLastGetBlocksBegin ∧ hashEnd = self.hashLastGetBlocksEnd then (self, [])
  else
    ({ self with pindexLastGetBlocksBegin := pindexBegin, hashLastGetBlocksEnd := hashEnd },
      [.getblocks (locatorOf env pindexBegin) hashEnd])

/-! ### Processing a block -/

/-- The loop of `GetOrphanRoot`.  It visits no orphan twice, so that their number is enough. -/
def orphanRootLoop (self : Endpoint) : ℕ → HeapBlock → HeapBlock
  | 0, pblock => pblock
  | fuel + 1, pblock =>
    match self.orphans.mapOrphanBlocks[pblock.hashPrevBlock]? with
    | none => pblock
    | some ptr => orphanRootLoop self fuel (self.heap ptr)

def getOrphanRoot (self : Endpoint) (ptr : BlockPtr) : uint256 :=
  (self.orphanRootLoop self.orphans.mapOrphanBlocks.size (self.heap ptr)).toCBlock.getHash env

/-- Put a copy of a block into the pool of orphans, and make the pool fit its limits. -/
def holdOrphan (self : Endpoint) (pblock : HeapBlock) : Endpoint × BlockPtr :=
  let (self, pblock2) := self.makeShared pblock
  let orphans := self.orphans.addOrphanBlock env.crypto self.heap pblock2
  let orphans := (orphans.limitOrphanBlocks self.heap MAX_ORPHAN_BLOCKS MAX_ORPHAN_BLOCKS_BYTES rand).2
  ({ self with orphans }, pblock2)

/-- `CBlock::AcceptBlock`, with the announcement of a new tip to the peer. -/
def acceptBlock (self : Endpoint) (pblock : HeapBlock) : Endpoint × Bool :=
  let hash := pblock.toCBlock.getHash env
  let (node, fAccepted) := self.node.acceptBlock env (outside.io hash) pblock.toCBlock
  let self := { self with node }
  let nBlockEstimate := 0
  if fAccepted && node.hashBestChain == hash
      && node.nBestHeight > (if self.nStartingHeight ≠ -1 then self.nStartingHeight - 2000 else nBlockEstimate) then
    (self.pushInventory ⟨CInv.BLOCK, hash⟩, fAccepted)
  else (self, fAccepted)

/-- The body of the loop of `ProcessBlock` over the orphans of a block: the node, and the hashes that it
puts into the queue. -/
def acceptOrphan (state : Endpoint × List uint256) (ptr : BlockPtr) : Endpoint × List uint256 :=
  let (self, fAccepted) := state.1.acceptBlock env outside (state.1.heap ptr)
  (self, if fAccepted then state.2 ++ [(state.1.heap ptr).toCBlock.getHash env] else state.2)

/-- The loop of `ProcessBlock` over `vWorkQueue`.  Each turn but the first is one of an orphan that was
taken out of the pool. -/
def orphanLoop : ℕ → List uint256 → Endpoint → Endpoint
  | 0, _, self => self
  | _ + 1, [], self => self
  | fuel + 1, hashPrev :: vWorkQueue, self =>
    let (vTaken, orphans) := self.orphans.takeOrphanBlocksByPrev env.crypto self.heap hashPrev
    let (self, hashes) := vTaken.foldl (acceptOrphan env outside) ({ self with orphans }, [])
    orphanLoop fuel (vWorkQueue ++ hashes) self

/-- `ProcessBlock` of a block from the peer: the node after it, the messages, and what it returns. -/
def processBlock (self : Endpoint) (pblock : HeapBlock) : Endpoint × List BlockMessage × Bool :=
  let hash := pblock.toCBlock.getHash env
  if self.node.mapBlockIndex.contains hash then (self, [], false)
  else if self.orphans.mapOrphanBlocks.contains hash then (self, [], false)
  else if !pblock.toCBlock.checkBlock env (outside.io hash).nCheckTime then (self, [], false)
  else if !self.node.extraChecks env pblock.toCBlock then (self, [], false)
  else if !self.node.mapBlockIndex.contains pblock.hashPrevBlock then
    let (self, pblock2) := self.holdOrphan env rand pblock
    let (self, messages) := self.pushGetBlocks env self.node.pindexBest (self.getOrphanRoot env pblock2)
    (self, messages, true)
  else
    let (self, fAccepted) := self.acceptBlock env outside pblock
    if !fAccepted then (self, [], false)
    else (orphanLoop env outside (self.orphans.mapOrphanBlocksByPrev.length + 1) [hash] self, [], true)

/-! ### Processing a message -/

/-- `nLastBlock`: the last block in an inventory. -/
def nLastBlock (vInv : List CInv) : Option ℕ :=
  (vInv.zipIdx.reverse.find? (fun entry => entry.1.type == CInv.BLOCK)).map Prod.snd

/-- The body of the loop over an inventory. -/
def invStep (nLastBlock : Option ℕ) (nTime : ℤ) (state : Endpoint × List BlockMessage) (entry : CInv × ℕ) :
    Endpoint × List BlockMessage :=
  let (inv, nInv) := entry
  let self := state.1.addInventoryKnown inv
  if !self.alreadyHave inv then (self.askFor inv nTime, state.2)
  else
    match self.orphans.mapOrphanBlocks[inv.hash]?.filter (fun _ => inv.type == CInv.BLOCK) with
    | some ptr =>
      let (self, messages) := self.pushGetBlocks env self.node.pindexBest (self.getOrphanRoot env ptr)
      (self, state.2 ++ messages)
    | none =>
      if some nInv = nLastBlock then
        let (self, messages) := self.pushGetBlocks env self.node.mapBlockIndex[inv.hash]? 0
        (self, state.2 ++ messages)
      else (self, state.2)

def processInv (self : Endpoint) (vInv : List CInv) (nTime : ℤ) : Endpoint × List BlockMessage :=
  if vInv.length > 50000 then (self, [])
  else vInv.zipIdx.foldl (invStep env (nLastBlock vInv) nTime) (self, [])

/-- The block of an entry, read from disk to be sent. -/
def blockToSend (self : Endpoint) (pindex : CBlockIndex) : HeapBlock :=
  ((self.node.files.readFromDisk env pindex).bind CBlock.onHeap).getD (outside.failedRead pindex.getBlockHash)

/-- The body of the loop over what the peer asks for.  Transactions are left out. -/
def getDataStep (state : Endpoint × List BlockMessage) (inv : CInv) : Endpoint × List BlockMessage :=
  if inv.type = CInv.BLOCK then
    match state.1.node.mapBlockIndex[inv.hash]? with
    | none => state
    | some pindex =>
      let messages := state.2 ++ [.block (state.1.blockToSend env outside pindex)]
      if inv.hash = state.1.hashContinue then
        ({ state.1 with hashContinue := 0 }, messages ++ [.inv [⟨CInv.BLOCK, state.1.node.hashBestChain⟩]])
      else (state.1, messages)
  else state

def processGetData (self : Endpoint) (vInv : List CInv) : Endpoint × List BlockMessage :=
  if vInv.length > 50000 then (self, [])
  else vInv.foldl (getDataStep env outside) (self, [])

/-- The loop that announces the blocks after one of the main chain; the first argument is `nLimit`. -/
def getBlocksLoop (hashStop : uint256) : ℕ → Option CBlockIndex → Endpoint → Endpoint
  | _, none, self => self
  | 0, some _, self => self
  | nLimit + 1, some pindex, self =>
    if pindex.getBlockHash = hashStop then self
    else
      let self := self.pushInventory ⟨CInv.BLOCK, pindex.getBlockHash⟩
      if nLimit ≤ 0 then { self with hashContinue := pindex.getBlockHash }
      else getBlocksLoop hashStop nLimit self.node.pnext[pindex.getBlockHash]? self

def processGetBlocks (self : Endpoint) (vHave : List uint256) (hashStop : uint256) : Endpoint :=
  let pindex := (self.node.locatorGetBlockIndex vHave).bind (fun p => self.node.pnext[p.getBlockHash]?)
  getBlocksLoop hashStop 500 pindex self

/-- `ProcessMessage` for a message about blocks: the node after it, and what it pushes. -/
def processMessage (nTime : ℤ) (self : Endpoint) : BlockMessage → Endpoint × List BlockMessage
  | .getblocks vHave hashStop => (self.processGetBlocks vHave hashStop, [])
  | .inv vInv => self.processInv env vInv nTime
  | .getdata vInv => self.processGetData env outside vInv
  | .block pblock =>
    let inv : CInv := ⟨CInv.BLOCK, pblock.toCBlock.getHash env⟩
    let (self, messages, fProcessed) := (self.addInventoryKnown inv).processBlock env outside rand pblock
    (if fProcessed then self.eraseAsked inv else self, messages)

/-- `SendMessages`: announcements, then requests. -/
def sendMessages (context : TrickleContext) (fSendTrickle : Bool) (nTime : ℤ) (self : Endpoint) :
    Endpoint × List BlockMessage :=
  let (announcer, invs) := Announcer.sendInventory context fSendTrickle self.announcer
  let (requests, served) := self.requests.sendGetData 0 nTime self.alreadyHave
  ({ self with announcer, requests }, invs.map .inv ++ served.messages.map .getdata)

/-- A node whose peer, of a height, has just connected. -/
def connected (node : Node) (heap : BlockPtr → HeapBlock) (nMaxSize : ℕ) (nStartingHeight : ℤ) : Endpoint where
  node := node
  orphans := OrphanBlocks.empty
  heap := heap
  nextPtr := 0
  requests := RequestState.initial
  announcer := Announcer.connected nMaxSize
  hashContinue := 0
  pindexLastGetBlocksBegin := none
  hashLastGetBlocksEnd := 0
  nStartingHeight := nStartingHeight

end Endpoint

/-! ## The two nodes -/

/-- The node that lacks blocks is the client, its peer the server. -/
inductive Side where
  | client
  | server
  deriving DecidableEq

/-- Two nodes, and the messages on their way. -/
structure BlockSync where
  client : Endpoint
  server : Endpoint
  toClient : List BlockMessage
  toServer : List BlockMessage

namespace BlockSync

inductive Action where
  /-- A node processes the next message, with random hashes and at a time. -/
  | receive (side : Side) (rand : ℕ → uint256) (nTime : ℤ)
  | send (side : Side) (context : TrickleContext) (fSendTrickle : Bool) (nTime : ℤ)

variable (env : Env) (outside : Outside)

def step (s : BlockSync) : Action → BlockSync
  | .receive .client rand nTime =>
    match s.toClient with
    | [] => s
    | message :: toClient =>
      let (client, messages) := s.client.processMessage env outside rand nTime message
      { s with client, toClient, toServer := s.toServer ++ messages }
  | .receive .server rand nTime =>
    match s.toServer with
    | [] => s
    | message :: toServer =>
      let (server, messages) := s.server.processMessage env outside rand nTime message
      { s with server, toServer, toClient := s.toClient ++ messages }
  | .send .client context fSendTrickle nTime =>
    let (client, messages) := s.client.sendMessages context fSendTrickle nTime
    { s with client, toServer := s.toServer ++ messages }
  | .send .server context fSendTrickle nTime =>
    let (server, messages) := s.server.sendMessages context fSendTrickle nTime
    { s with server, toClient := s.toClient ++ messages }

/-- Both sides have processed `version`, where the client asks for blocks, and the server may. -/
def connect (client server : Endpoint) (fServerAsks : Bool) : BlockSync :=
  let (client, toServer) := client.pushGetBlocks env client.node.pindexBest 0
  let (server, toClient) :=
    if fServerAsks then server.pushGetBlocks env server.node.pindexBest 0 else (server, [])
  { client, server, toClient, toServer }

end BlockSync

end CorgiCoin
