import CorgiCoin.SyncOutlook

/-!
# Phases of a download

The client that lacks blocks of the chain of the server asks for them in batches until it has all of them.
What a phase of this is, and how the message or the step that a phase waits for leads to the next one.
-/

namespace CorgiCoin

open Endpoint

namespace BlockSync

/-! ## Phases -/

/-- What the nodes are about. -/
inductive Errand where
  /-- The client has asked what follows its tip. -/
  | asking
  /-- The server is to announce a batch of blocks, and its tip later when there are more. -/
  | announcing (batch : List ReceivedBlock) (more : Bool)
  | announced (batch : List ReceivedBlock) (more : Bool)
  /-- Blocks on their way, blocks that the client has asked for, and blocks that it is to ask for. -/
  | fetching (flight : List ReceivedBlock) (requested : List (List ReceivedBlock)) (queued : List ReceivedBlock)
      (more : Bool) (nDue : ℤ)
  /-- The tip of the server is announced after the last blocks of the batch. -/
  | trailing (flight : List ReceivedBlock)
  /-- The client is to ask for the tip of the server, has asked for it, or is sent it. -/
  | tipQueued (nDue : ℤ)
  | tipRequested
  | tipSent
  | finished

/-- The blocks in progress. -/
def Errand.blocks : Errand → List ReceivedBlock
  | .announcing batch _ => batch
  | .announced batch _ => batch
  | .fetching flight requested queued _ _ => flight ++ (requested.flatten ++ queued)
  | .trailing flight => flight
  | _ => []

/-- The blocks that the client has accepted, those in progress, the rest, and the tip of the server when it
comes out of turn. -/
structure Phase where
  done : List ReceivedBlock
  errand : Errand
  rest : List ReceivedBlock
  held : Option ReceivedBlock

def Errand.Ok (rest : List ReceivedBlock) (held : Option ReceivedBlock) : Errand → Prop
  | .asking => True
  | .announcing batch more => batch ≠ [] ∧ batch.length ≤ 500 ∧ (more = false → rest = [])
  | .announced batch more => batch ≠ [] ∧ batch.length ≤ 500 ∧ (more = false → rest = [])
  | .fetching flight requested queued more _ => flight ++ (requested.flatten ++ queued) ≠ []
    ∧ (∀ chunk ∈ requested, chunk ≠ [] ∧ chunk.length ≤ 1000) ∧ (more = true → requested.flatten ++ queued ≠ [])
    ∧ (more = false → rest = [])
  | .trailing _ => True
  | .tipQueued _ => held ≠ none
  | .tipRequested => held ≠ none
  | .tipSent => held ≠ none
  | .finished => rest = [] ∧ held = none

structure Phase.Ok (blocks : List ReceivedBlock) (phase : Phase) : Prop where
  blocks_eq : blocks = phase.done ++ (phase.errand.blocks ++ (phase.rest ++ phase.held.toList))
  out_of_turn : phase.held ≠ none → phase.errand.blocks ++ phase.rest ≠ []
  errand : phase.errand.Ok phase.rest phase.held

/-- The block after which the server announces its tip. -/
def continueHash (env : Env) (more : Bool) (batch : List ReceivedBlock) : uint256 :=
  if more then (batch.getLast?.map (·.hash env)).getD 0 else 0

/-- The outlook of a phase. -/
def Phase.outlook (env : Env) (outside : Outside) (client server : Node) (phase : Phase) : Outlook :=
  let o : Outlook := {
    done := phase.done, pool := phase.held, queue := [], nDue := 0, unasked := phase.rest, moved := False
    todo := [], hashContinue := 0, unannounced := phase.rest, requests := [], offers := [] }
  match phase.errand with
  | .asking =>
    { o with requests := [.getblocks (locatorOf env (client.catchUp env outside phase.done).pindexBest)
               ((phase.held.map (·.hash env)).getD 0)] }
  | .announcing batch more =>
    { o with unasked := batch ++ phase.rest, todo := batch, hashContinue := continueHash env more batch
             unannounced := batch ++ phase.rest }
  | .announced batch more =>
    { o with unasked := batch ++ phase.rest, hashContinue := continueHash env more batch
             offers := [.inv (batch.map (blockInv env))] }
  | .fetching flight requested queued more nDue =>
    { o with queue := queued, nDue, hashContinue := continueHash env more (requested.flatten ++ queued)
             requests := requested.map (fun chunk => .getdata (chunk.map (blockInv env)))
             offers := flight.map (fun b => .block b.onHeap) }
  | .trailing flight =>
    { o with moved := flight = []
             offers := flight.map (fun b => .block b.onHeap) ++ [.inv [⟨CInv.BLOCK, server.hashBestChain⟩]] }
  | .tipQueued nDue => { o with pool := none, queue := phase.held.toList, nDue, moved := True }
  | .tipRequested =>
    { o with pool := none, moved := True, requests := [.getdata (phase.held.toList.map (blockInv env))] }
  | .tipSent => { o with pool := none, moved := True, offers := phase.held.toList.map (fun b => .block b.onHeap) }
  | .finished => o

/-- What is left to do, with so many blocks in the rest. -/
def Errand.work (rest : ℕ) : Errand → ℕ
  | .asking => 10 * rest + 1
  | .announcing batch _ => 10 * rest + (6 * batch.length + 3)
  | .announced batch _ => 10 * rest + (5 * batch.length + 3)
  | .fetching flight requested queued _ _ =>
    10 * rest + (4 * queued.length + 3 * requested.flatten.length + 2 * flight.length + 3)
  | .trailing flight => 10 * rest + (2 * flight.length + 2)
  | .tipQueued _ => 10 * rest + 4
  | .tipRequested => 10 * rest + 3
  | .tipSent => 10 * rest + 2
  | .finished => 0

def Phase.work (phase : Phase) : ℕ := phase.errand.work phase.rest.length

section Phases

variable {env : Env} {outside : Outside} {client server : Node} {blocks : List ReceivedBlock} {phase : Phase}
variable {s : BlockSync}

/-- A state is in a phase. -/
structure Describes (env : Env) (outside : Outside) (client server : Node) (blocks : List ReceivedBlock)
    (phase : Phase) (s : BlockSync) : Prop where
  ok : phase.Ok blocks
  shows : Shows env outside client server (phase.outlook env outside client server) s

/-- A state has left a phase for a later one. -/
def Leaves (env : Env) (outside : Outside) (client server : Node) (blocks : List ReceivedBlock) (phase : Phase)
    (s : BlockSync) : Prop :=
  ∃ phase', Describes env outside client server blocks phase' s ∧ phase'.work < phase.work
    ∧ ∃ more, phase'.done = phase.done ++ more

/-! ## Blocks of a phase are different -/

theorem Phase.Ok.nodup_all
    (hbehind : Node.Behind env outside client server blocks) (h : phase.Ok blocks) :
  ((phase.errand.blocks ++ phase.rest ++ phase.held.toList).map (·.hash env)).Nodup
  := by
  have hnodup := hbehind.nodup_hashes
  rw [h.blocks_eq, List.map_append] at hnodup
  rw [List.append_assoc]
  exact hnodup.of_append_right

theorem Phase.Ok.nodup
    (hbehind : Node.Behind env outside client server blocks) (h : phase.Ok blocks) :
  ((phase.errand.blocks ++ phase.rest).map (·.hash env)).Nodup
  := by
  have hnodup := h.nodup_all hbehind
  rw [List.map_append] at hnodup
  exact hnodup.of_append_left

theorem Phase.Ok.held_ne
    (hbehind : Node.Behind env outside client server blocks) (h : phase.Ok blocks) {b tip : ReceivedBlock}
    (hb : b ∈ phase.errand.blocks ++ phase.rest) (htip : phase.held = some tip) :
  tip.hash env ≠ b.hash env
  := by
  have hnodup := h.nodup_all hbehind
  rw [List.map_append, htip] at hnodup
  intro heq
  exact (List.nodup_append.mp hnodup).2.2 _ (List.mem_map_of_mem hb) _
    (List.mem_map_of_mem (List.mem_singleton_self _)) heq.symm

/-- Less may be said about a client. -/
theorem Shows.weaken
    {o : Outlook} (h : Shows env outside client server o s) {nDue : ℤ} {unasked unannounced : List ReceivedBlock}
    {moved : Prop} (hdue : o.queue = [] ∨ o.nDue ≤ nDue) (hunasked : ∀ b ∈ unasked, b ∈ o.unasked)
    (hmoved : moved → o.moved) (hunannounced : ∀ b ∈ unannounced, b ∈ o.unannounced) :
  Shows env outside client server { o with nDue, unasked, moved, unannounced } s
  := by
  obtain ⟨hclient, hserver, hrequests, hoffers, hfrom, hto⟩ := h
  obtain ⟨hnode, hpool, hordered, hqueue, hdueOld, hfresh, hold, hlast⟩ := hclient
  refine ⟨⟨hnode, hpool, hordered, hqueue, ?_, fun b hb => hfresh b (hunasked b hb), hold, ?_⟩,
    ⟨hserver.node, hserver.orphans, hserver.queue, hserver.todo_eq, hserver.continue_eq,
      fun b hb => hserver.unknown b (hunannounced b hb)⟩, hrequests, hoffers, hfrom, hto⟩
  · intro entry hentry
    rcases hdue with hnil | hle
    · rw [hnil] at hqueue
      rw [List.map_eq_nil_iff.mp hqueue] at hentry
      exact absurd hentry List.not_mem_nil
    · exact (hdueOld entry hentry).trans hle
  · obtain ⟨base, more, p, hdone, hmore, hp⟩ := hlast
    exact ⟨base, more, p, hdone, fun h => hmore (hmoved h), hp⟩

variable {o : Outlook} {message : BlockMessage} {toServer : List BlockMessage}

/-- The first of the messages that matter is the first request. -/
theorem Shows.next_request
    (h : Shows env outside client server o s)
    (hnext : s.toServer = message :: toServer) (hmain : message.isRequest = true) :
  o.requests = message :: toServer.filter BlockMessage.isRequest
  := by
  rw [← h.requests, hnext, List.filter_cons, if_pos hmain]

variable {toClient : List BlockMessage}

theorem Shows.next_offer
    (h : Shows env outside client server o s)
    (hnext : s.toClient = message :: toClient) (hmain : message.isOffer = true) :
  o.offers = message :: toClient.filter BlockMessage.isOffer
  := by
  rw [← h.offers, hnext, List.filter_cons, if_pos hmain]

theorem continueHash_concat (env : Env) (init : List ReceivedBlock) (last : ReceivedBlock) :
  continueHash env true (init ++ [last]) = last.hash env
  := by
  rw [continueHash, if_pos rfl, List.getLast?_concat]
  rfl

/-! ## Leaving a phase -/

theorem leaves_same_done
    (phase' : Phase) (hdone : phase'.done = phase.done) (h : Describes env outside client server blocks phase' s)
    (hwork : phase'.work < phase.work) :
  Leaves env outside client server blocks phase s
  := by
  refine ⟨phase', h, hwork, [], ?_⟩
  rw [hdone, List.append_nil]

variable {done rest : List ReceivedBlock} {held : Option ReceivedBlock} {s' : BlockSync}

/-- The client has asked what follows its tip. -/
theorem leaves_for_asking
    {p : CBlockIndex}
    (hp : Node.Behind.CaughtUp env client done (client.catchUp env outside done) p) (hdone : phase.done = done)
    (hwork : 10 * rest.length + 1 < phase.work) (hblocks : blocks = done ++ (rest ++ held.toList))
    (hturn : held ≠ none → rest ≠ [])
    (hshows : Shows env outside client server
      { done, pool := held, queue := [], nDue := 0, unasked := rest, moved := False, todo := [], hashContinue := 0
        unannounced := rest
        requests := [.getblocks (locatorOf env (some p)) ((held.map (·.hash env)).getD 0)], offers := [] } s') :
  Leaves env outside client server blocks phase s'
  := by
  refine leaves_same_done ⟨done, .asking, rest, held⟩ hdone.symm ⟨⟨hblocks, hturn, trivial⟩, ?_⟩ hwork
  rw [Phase.outlook]
  dsimp only
  rw [hp.tip.pindexBest]
  exact hshows

/-- The server is asked what follows the tip of the client. -/
theorem leaves_asking
    (hbehind : Node.Behind env outside client server blocks)
    (h : Describes env outside client server blocks ⟨done, .asking, rest, held⟩ s)
    (hnext : s.toServer = message :: toServer)
    (hmain : message.isRequest = true) (rand : ℕ → uint256) (nTime : ℤ) :
  Leaves env outside client server blocks ⟨done, .asking, rest, held⟩
    (step env outside s (.receive .server rand nTime))
  := by
  obtain ⟨hok, hshows⟩ := h
  have hblocks : blocks = done ++ (rest ++ held.toList) := hok.blocks_eq
  obtain ⟨hmessage, hrequests⟩ := List.cons.inj (hshows.next_request hnext hmain)
  obtain ⟨p, hp⟩ := hbehind.caughtUp done _ hblocks
  rw [hp.tip.pindexBest] at hmessage
  obtain ⟨batch, rest, hashContinue, rfl, hle, hserver, hmore, hne⟩ :=
    processGetBlocks_server hbehind hblocks hp hshows.serverIs
  have hreceived := @Shows.server_receives _ _ _ _ _ _ hshows _ _ hnext rand nTime batch (batch ++ rest) hashContinue
    [] [] [] (by rw [← hmessage]; exact hserver) (by rw [← hmessage]; rfl) rfl
    (fun _ hm => absurd hm List.not_mem_nil) hrequests.symm
  obtain ⟨more, rfl, hall⟩ : ∃ more, hashContinue = continueHash env more batch ∧ (more = false → rest = []) := by
    rcases hmore with ⟨rfl, rfl⟩ | ⟨init, last, rfl, rfl⟩
    · exact ⟨false, rfl, fun _ => rfl⟩
    · exact ⟨true, (continueHash_concat env init last).symm, fun hfalse => absurd hfalse (by decide)⟩
  by_cases hbatch : batch = []
  · have hnone : batch ++ rest = [] := by
      by_contra hnone
      exact hne hnone hbatch
    obtain ⟨rfl, rfl⟩ := List.append_eq_nil_iff.mp hnone
    have hheld : held = none := by
      by_contra hheld
      exact hok.out_of_turn hheld rfl
    subst hheld
    have hzero : continueHash env more [] = 0 := by
      rw [continueHash]
      split_ifs <;> rfl
    rw [hzero] at hreceived
    exact leaves_same_done ⟨done, .finished, [], none⟩ rfl
      ⟨⟨hblocks, fun hnone => absurd rfl hnone, rfl, rfl⟩, hreceived⟩ Nat.zero_lt_one
  · refine leaves_same_done ⟨done, .announcing batch more, rest, held⟩ rfl ⟨⟨?_, ?_, hbatch, hle, hall⟩, hreceived⟩ ?_
    · rw [hblocks, List.append_assoc]
      rfl
    · intro _ hnil
      exact hbatch (List.append_eq_nil_iff.mp hnil).1
    · have hpos := List.length_pos_iff.mpr hbatch
      simp only [Phase.work, Errand.work, List.length_append]
      omega

variable {batch : List ReceivedBlock} {more : Bool}

/-- The server announces a batch. -/
theorem leaves_announcing
    (hbehind : Node.Behind env outside client server blocks)
    (h : Describes env outside client server blocks ⟨done, .announcing batch more, rest, held⟩ s)
    (context : TrickleContext) (fSendTrickle : Bool) (nTime : ℤ) :
  Leaves env outside client server blocks ⟨done, .announcing batch more, rest, held⟩
    (step env outside s (.send .server context fSendTrickle nTime))
  := by
  obtain ⟨hok, hshows⟩ := h
  obtain ⟨hblocks, hturn, hbatch, hle, hall⟩ := id hok
  have hnodup : ((batch ++ rest).map (·.hash env)).Nodup := hok.nodup hbehind
  obtain ⟨hsent, -, -⟩ := hshows.server_sends rfl hnodup (lt_of_le_of_lt hle (by decide)) context fSendTrickle nTime
  have htodo : ((Phase.outlook env outside client server ⟨done, .announcing batch more, rest, held⟩).todo = [])
      = False := eq_false hbatch
  simp only [htodo, if_false] at hsent
  refine leaves_same_done ⟨done, .announced batch more, rest, held⟩ rfl
    ⟨⟨hblocks, hturn, hbatch, hle, hall⟩, hsent⟩ ?_
  have hpos := List.length_pos_iff.mpr hbatch
  simp only [Phase.work, Errand.work]
  omega

/-- The client is told of a batch. -/
theorem leaves_announced
    (hbehind : Node.Behind env outside client server blocks)
    (h : Describes env outside client server blocks ⟨done, .announced batch more, rest, held⟩ s)
    (hnext : s.toClient = message :: toClient)
    (hmain : message.isOffer = true) (rand : ℕ → uint256) (nTime : ℤ) :
  Leaves env outside client server blocks ⟨done, .announced batch more, rest, held⟩
    (step env outside s (.receive .client rand nTime))
  := by
  obtain ⟨hok, hshows⟩ := h
  obtain ⟨hblocks, hturn, hbatch, hle, hall⟩ := id hok
  obtain ⟨hmessage, hoffers⟩ := List.cons.inj (hshows.next_offer hnext hmain)
  have hnodup : ((batch ++ rest).map (·.hash env)).Nodup := hok.nodup hbehind
  have hheld : ∀ b ∈ batch, ∀ tip, held = some tip → tip.hash env ≠ b.hash env :=
    fun b hb tip htip => hok.held_ne hbehind (List.mem_append_left _ hb) htip
  obtain ⟨nDue, hclient, hmessages⟩ := processInv_batch hbehind hblocks (fun b hb => List.mem_append_left _ hb)
    (hle.trans (by decide)) hnodup hheld nTime hshows.clientIs
  have hreceived := @Shows.client_answers _ _ _ _ _ _ hshows _ _ hnext rand nTime held batch rest rest
    nDue False [] [] (by rw [← hmessage]; exact hclient) (by rw [← hmessage]; exact hmessages)
    (fun _ hm => absurd hm List.not_mem_nil) (fun _ hb => hb) hoffers.symm
  refine leaves_same_done ⟨done, .fetching [] [] batch more nDue, rest, held⟩ rfl ⟨⟨hblocks, hturn, hbatch,
    fun _ hchunk => absurd hchunk List.not_mem_nil, fun _ => hbatch, hall⟩, hreceived⟩ ?_
  have hpos := List.length_pos_iff.mpr hbatch
  simp only [Phase.work, Errand.work, List.length_nil, List.flatten_nil]
  omega

/-- The block after which the server announces its tip is the last one. -/
theorem continueHash_append
    (env : Env) (more : Bool) (chunk : List ReceivedBlock) (h : more = true → batch ≠ []) :
  continueHash env more (chunk ++ batch) = continueHash env more batch
  := by
  rw [continueHash, continueHash]
  split_ifs with hmore
  · rw [List.getLast?_append_of_ne_nil _ (h hmore)]
  · rfl

variable {b : ReceivedBlock} {chunk : List ReceivedBlock}

/-- A block that is not among the last ones is not followed by the tip. -/
theorem ne_continueHash
    (hbehind : Node.Behind env outside client server blocks)
    (hnodup : ((chunk ++ batch).map (·.hash env)).Nodup) (h : more = true → batch ≠ [])
    (hb : b ∈ chunk) (hmem : b ∈ blocks) :
  b.hash env ≠ continueHash env more batch
  := by
  rw [continueHash]
  split_ifs with hmore
  · obtain ⟨init, last, rfl⟩ := (List.eq_nil_or_concat' batch).resolve_left (h hmore)
    rw [List.getLast?_concat]
    rw [List.map_append] at hnodup
    exact fun heq => (List.nodup_append.mp hnodup).2.2 _ (List.mem_map_of_mem hb) _
      (List.mem_map_of_mem (List.mem_append_right _ (List.mem_singleton_self _))) heq
  · exact hbehind.nonzero b hmem

variable {requested : List (List ReceivedBlock)}

theorem eq_nil_of_flatten
    (hchunks : ∀ chunk ∈ requested, chunk ≠ [] ∧ chunk.length ≤ 1000) (h : requested.flatten = []) :
  requested = []
  := by
  cases requested with
  | nil => rfl
  | cons chunk requested =>
    rw [List.flatten_cons] at h
    exact absurd (List.append_eq_nil_iff.mp h).1 (hchunks chunk List.mem_cons_self).1

theorem isOffer_of_mem_blocks :
  ∀ message ∈ chunk.map (fun b => BlockMessage.block b.onHeap), message.isOffer = true
  := by
  intro message hmessage
  obtain ⟨b, -, rfl⟩ := List.mem_map.mp hmessage
  rfl

/-- The server sends the blocks that it is asked for, and its tip after one of them. -/
theorem Shows.server_sends_blocks
    (hbehind : Node.Behind env outside client server blocks) (h : Shows env outside client server o s)
    (hnext : s.toServer = .getdata (chunk.map (blockInv env)) :: toServer) (hmem : ∀ b ∈ chunk, b ∈ blocks)
    (hshort : chunk.length ≤ 1000) (rand : ℕ → uint256) (nTime : ℤ) :
  let sent : List BlockMessage := chunk.map (fun b => .block b.onHeap)
  let requests := toServer.filter BlockMessage.isRequest
  ((∀ b ∈ chunk, b.hash env ≠ o.hashContinue) →
      Shows env outside client server { o with requests, offers := o.offers ++ sent }
        (step env outside s (.receive .server rand nTime)))
    ∧ ∀ init last, chunk = init ++ [last] → last.hash env = o.hashContinue →
      (∀ b ∈ init, b.hash env ≠ o.hashContinue) →
      Shows env outside client server
        { o with hashContinue := 0, requests,
                 offers := o.offers ++ (sent ++ [.inv [⟨CInv.BLOCK, server.hashBestChain⟩]]) }
        (step env outside s (.receive .server rand nTime))
  := by
  intro sent requests
  obtain ⟨hothers, hlast⟩ := processGetData_server hbehind hmem hshort h.serverIs
  have hserver := h.serverIs
  have hreceives : ∀ {hashContinue : uint256} {self : Endpoint} {messages : List BlockMessage},
      ServerIs env server (o.todo.map (blockInv env)) hashContinue o.unannounced self →
      (∀ message ∈ messages, message.isOffer = true) →
      s.server.processGetData env outside (chunk.map (blockInv env)) = (self, messages) →
      Shows env outside client server { o with hashContinue, requests, offers := o.offers ++ messages }
        (step env outside s (.receive .server rand nTime)) := by
    intro hashContinue self messages hself hoffers hprocess
    apply h.server_receives hnext ?_ (congrArg Prod.snd hprocess) (List.filter_eq_self.mpr hoffers) ?_ rfl
    · change ServerIs _ _ _ _ _ (s.server.processGetData env outside _).1
      rw [hprocess]
      exact hself
    · intro message hmessage hnot
      rw [hoffers message hmessage] at hnot
      cases hnot
  constructor
  · intro hne
    exact hreceives hserver isOffer_of_mem_blocks (hothers hne)
  · intro init last hchunk heq hne
    apply hreceives _ _ (hlast init last hchunk heq hne)
    · exact ⟨hserver.node, hserver.orphans, hserver.queue, hserver.todo_eq, rfl, hserver.unknown⟩
    · intro message hmessage
      rcases List.mem_append.mp hmessage with hmessage | hmessage
      · exact isOffer_of_mem_blocks message hmessage
      · rw [List.mem_singleton.mp hmessage]
        rfl

variable {flight queued : List ReceivedBlock} {nDue : ℤ}

/-- The server is asked for blocks. -/
theorem leaves_fetching_server
    (hbehind : Node.Behind env outside client server blocks)
    (h : Describes env outside client server blocks ⟨done, .fetching flight requested queued more nDue, rest, held⟩ s)
    (hnext : s.toServer = message :: toServer)
    (hmain : message.isRequest = true) (rand : ℕ → uint256) (nTime : ℤ) :
  Leaves env outside client server blocks ⟨done, .fetching flight requested queued more nDue, rest, held⟩
    (step env outside s (.receive .server rand nTime))
  := by
  obtain ⟨hok, hshows⟩ := h
  obtain ⟨hblocks, hturn, hsome, hchunks, hpending, hall⟩ := id hok
  cases requested with
  | nil => cases hshows.next_request hnext hmain
  | cons chunk requested =>
    obtain ⟨hmessage, hrequests⟩ := List.cons.inj (hshows.next_request hnext hmain)
    obtain ⟨⟨hne, hshort⟩, hothers⟩ := List.forall_mem_cons.mp hchunks
    rw [← hmessage] at hnext
    have hlength := List.length_pos_iff.mpr hne
    have hnodup : ((chunk ++ (requested.flatten ++ queued)).map (·.hash env)).Nodup := by
      have hwhole := hok.nodup hbehind
      rw [List.map_append] at hwhole
      have hinside := hwhole.of_append_left
      rw [Errand.blocks, List.map_append] at hinside
      rw [← List.append_assoc]
      exact hinside.of_append_right
    have hmem : ∀ b ∈ chunk, b ∈ blocks := by
      intro b hb
      rw [hblocks]
      simp [Errand.blocks, hb]
    obtain ⟨hbefore, hlast⟩ := hshows.server_sends_blocks hbehind hnext hmem hshort rand nTime
    have hcontinue : (Phase.outlook env outside client server
        ⟨done, .fetching flight (chunk :: requested) queued more nDue, rest, held⟩).hashContinue
        = continueHash env more (chunk ++ (requested.flatten ++ queued)) := by
      rw [← List.append_assoc]
      rfl
    have hflight : flight ++ ((chunk :: requested).flatten ++ queued)
        = (flight ++ chunk) ++ (requested.flatten ++ queued) := by
      rw [List.flatten_cons, List.append_assoc, List.append_assoc]
    have hnotNil : flight ++ chunk ≠ [] := List.append_ne_nil_of_right_ne_nil _ hne
    rw [hcontinue, ← hrequests] at hbefore hlast
    by_cases hend : more = true ∧ requested.flatten ++ queued = []
    · -- The last block of the batch is asked for.
      obtain ⟨rfl, hnil⟩ := hend
      obtain ⟨hflatten, rfl⟩ := List.append_eq_nil_iff.mp hnil
      obtain rfl := eq_nil_of_flatten hothers hflatten
      obtain ⟨init, last, rfl⟩ := (List.eq_nil_or_concat' chunk).resolve_left hne
      rw [hnil, List.append_nil] at hlast hnodup
      rw [continueHash_concat] at hlast
      have hshown := hlast init last rfl rfl (fun b hb heq => by
        rw [List.map_append] at hnodup
        exact (List.nodup_append.mp hnodup).2.2 _ (List.mem_map_of_mem hb) _
          (List.mem_map_of_mem (List.mem_singleton_self _)) heq)
      have hweak := @Shows.weaken _ _ _ _ _ _ hshown 0 rest rest (flight ++ (init ++ [last]) = []) (.inl rfl)
        (fun _ hb => hb) (fun hnone => hnotNil hnone) (fun _ hb => hb)
      refine leaves_same_done ⟨done, .trailing (flight ++ (init ++ [last])), rest, held⟩ rfl
        ⟨⟨?_, ?_, trivial⟩, ?_⟩ ?_
      · rw [hblocks, Errand.blocks, hflight, hnil, List.append_nil]
        rfl
      · exact fun _ => List.append_ne_nil_of_left_ne_nil hnotNil _
      · convert hweak using 1
        simp only [Phase.outlook, List.map_append, List.append_assoc, List.map_nil]
      · simp only [Phase.work, Errand.work, List.length_append, List.flatten_cons, List.length_cons, List.length_nil,
          List.flatten_nil]
        omega
    · have hcont : more = true → requested.flatten ++ queued ≠ [] := fun hmore hnil => hend ⟨hmore, hnil⟩
      rw [continueHash_append env more chunk hcont] at hbefore
      have hshown := hbefore (fun b hb => ne_continueHash hbehind hnodup hcont hb (hmem b hb))
      refine leaves_same_done ⟨done, .fetching (flight ++ chunk) requested queued more nDue, rest, held⟩ rfl
        ⟨⟨?_, ?_, ?_, hothers, hcont, hall⟩, ?_⟩ ?_
      · rw [hblocks, Errand.blocks, hflight]
        rfl
      · exact fun _ => List.append_ne_nil_of_left_ne_nil (List.append_ne_nil_of_left_ne_nil hnotNil _) _
      · exact List.append_ne_nil_of_left_ne_nil hnotNil _
      · convert hshown using 1
        simp only [Phase.outlook, List.map_append, List.flatten_cons, List.append_assoc,
          continueHash_append env more chunk hcont]
      · simp only [Phase.work, Errand.work, List.length_append, List.flatten_cons]
        omega

/-- The server is asked for its tip. -/
theorem leaves_tipRequested
    (hbehind : Node.Behind env outside client server blocks)
    (h : Describes env outside client server blocks ⟨done, .tipRequested, rest, held⟩ s)
    (hnext : s.toServer = message :: toServer)
    (hmain : message.isRequest = true) (rand : ℕ → uint256) (nTime : ℤ) :
  Leaves env outside client server blocks ⟨done, .tipRequested, rest, held⟩
    (step env outside s (.receive .server rand nTime))
  := by
  obtain ⟨⟨hblocks, hturn, hheld⟩, hshows⟩ := h
  obtain ⟨hmessage, hrequests⟩ := List.cons.inj (hshows.next_request hnext hmain)
  rw [← hmessage] at hnext
  have hmem : ∀ b ∈ held.toList, b ∈ blocks := by
    intro b hb
    rw [hblocks]
    exact List.mem_append_right _ (List.mem_append_right _ (List.mem_append_right _ hb))
  have hshort : held.toList.length ≤ 1000 := by
    cases held <;> simp
  obtain ⟨hbefore, -⟩ := hshows.server_sends_blocks hbehind hnext hmem hshort rand nTime
  rw [← hrequests] at hbefore
  have hshown := hbefore (fun b hb => hbehind.nonzero b (hmem b hb))
  exact leaves_same_done ⟨done, .tipSent, rest, held⟩ rfl ⟨⟨hblocks, hturn, hheld⟩, hshown⟩ (Nat.lt_succ_self _)

/-- The client takes a block that it is sent, and the tip after it when that is the orphan that waits for the
block. -/
theorem Shows.client_takes
    (hbehind : Node.Behind env outside client server blocks) (h : Shows env outside client server o s)
    {later : List ReceivedBlock} (hblocks : blocks = o.done ++ b :: (later ++ o.pool.toList))
    (hnext : s.toClient = .block b.onHeap :: toClient) (rand : ℕ → uint256) (nTime : ℤ) :
  let offers := toClient.filter BlockMessage.isOffer
  (later = [] → ∀ tip, o.pool = some tip →
      Shows env outside client server { o with done := blocks, pool := none, moved := True, offers }
        (step env outside s (.receive .client rand nTime)))
    ∧ ((o.pool ≠ none → later ≠ []) →
      Shows env outside client server { o with done := o.done ++ [b], moved := True, offers }
        (step env outside s (.receive .client rand nTime)))
  := by
  intro offers
  have hnodup := hbehind.nodup_hashes
  rw [hblocks, List.map_append, List.map_cons] at hnodup
  obtain ⟨hnot, -⟩ := List.nodup_cons.mp hnodup.of_append_right
  have hne : ∀ tip, o.pool = some tip → tip.hash env ≠ b.hash env := by
    intro tip htip heq
    apply hnot
    rw [htip, ← heq]
    exact List.mem_map_of_mem (List.mem_append_right _ (List.mem_singleton_self _))
  constructor
  · rintro rfl tip htip
    rw [htip, List.nil_append] at hblocks
    have hclient := h.clientIs
    rw [Outlook.Client, htip] at hclient
    have hprev : tip.block.hashPrevBlock = b.hash env := hbehind.hashPrevBlock_eq_hash hblocks
    obtain ⟨htakes, hmessages⟩ :=
      processMessage_before_held hbehind hblocks hclient (hne tip htip) hprev rand nTime
    have hdone : blocks = o.done ++ [b, tip] := hblocks
    rw [hdone] at htakes ⊢
    have hreceived := h.client_receives hnext htakes hmessages (fun _ hm => absurd hm List.not_mem_nil)
      (fun _ hb => hb) rfl
    rw [List.append_nil] at hreceived
    exact hreceived
  · intro hlater
    have hheld : ∀ tip, o.pool = some tip → tip.hash env ≠ b.hash env ∧ tip.block.hashPrevBlock ≠ b.hash env := by
      intro tip htip
      refine ⟨hne tip htip, ?_⟩
      have hsome : later ≠ [] := hlater (by rw [htip]; simp)
      obtain ⟨init, last, rfl⟩ := (List.eq_nil_or_concat' later).resolve_left hsome
      have hlast : blocks = (o.done ++ b :: init) ++ last :: tip :: [] := by
        rw [hblocks, htip]
        simp
      rw [hbehind.hashPrevBlock_eq_hash hlast]
      intro heq
      apply hnot
      rw [← heq]
      exact List.mem_map_of_mem (by simp)
    obtain ⟨htakes, hmessages⟩ := processMessage_next hbehind hblocks h.clientIs hheld rand nTime
    have hreceived := h.client_receives hnext htakes hmessages (fun _ hm => absurd hm List.not_mem_nil)
      (fun _ hb => hb) rfl
    rw [List.append_nil] at hreceived
    exact hreceived

/-- The client is sent a block that it asked for. -/
theorem leaves_fetching_client
    (hbehind : Node.Behind env outside client server blocks)
    (h : Describes env outside client server blocks ⟨done, .fetching flight requested queued more nDue, rest, held⟩ s)
    (hnext : s.toClient = message :: toClient)
    (hmain : message.isOffer = true) (rand : ℕ → uint256) (nTime : ℤ) :
  Leaves env outside client server blocks ⟨done, .fetching flight requested queued more nDue, rest, held⟩
    (step env outside s (.receive .client rand nTime))
  := by
  obtain ⟨⟨hblocks, hturn, hsome, hchunks, hpending, hall⟩, hshows⟩ := h
  cases flight with
  | nil => cases hshows.next_offer hnext hmain
  | cons b flight =>
    obtain ⟨hmessage, hoffers⟩ := List.cons.inj (hshows.next_offer hnext hmain)
    rw [← hmessage] at hnext
    have hsplit : blocks = done ++ b :: ((flight ++ (requested.flatten ++ queued) ++ rest) ++ held.toList) := by
      rw [hblocks]
      simp [Errand.blocks]
    obtain ⟨hlast, hothers⟩ := hshows.client_takes hbehind hsplit hnext rand nTime
    rw [← hoffers] at hlast hothers
    by_cases hend : flight ++ (requested.flatten ++ queued) = []
    · -- It is the last block that the server has announced, and all others are there.
      obtain ⟨rfl, hnil⟩ := List.append_eq_nil_iff.mp hend
      have hmore : more = false := by
        rw [← Bool.not_eq_true]
        exact fun hmore => hpending hmore hnil
      obtain rfl : rest = [] := hall hmore
      obtain ⟨hflatten, rfl⟩ := List.append_eq_nil_iff.mp hnil
      obtain rfl := eq_nil_of_flatten hchunks hflatten
      subst hmore
      cases held with
      | none =>
        have hshown := hothers (fun hnone => absurd rfl hnone)
        have hweak := @Shows.weaken _ _ _ _ _ _ hshown 0 [] [] False (.inl rfl) (fun _ hb => hb) False.elim
          (fun _ hb => hb)
        refine ⟨⟨done ++ [b], .finished, [], none⟩,
          ⟨⟨?_, fun hnone => absurd rfl hnone, rfl, rfl⟩, hweak⟩, ?_, [b], rfl⟩
        · rw [hsplit]
          simp [Errand.blocks]
        · exact Nat.succ_pos _
      | some tip =>
        have hshown := hlast rfl tip rfl
        have hweak := @Shows.weaken _ _ _ _ _ _ hshown 0 [] [] False (.inl rfl) (fun _ hb => hb) False.elim
          (fun _ hb => hb)
        refine ⟨⟨blocks, .finished, [], none⟩,
          ⟨⟨?_, fun hnone => absurd rfl hnone, rfl, rfl⟩, hweak⟩, ?_, [b, tip], hsplit⟩
        · simp [Errand.blocks]
        · exact Nat.succ_pos _
    · have hshown := hothers (fun _ => List.append_ne_nil_of_left_ne_nil hend _)
      have hweak := @Shows.weaken _ _ _ _ _ _ hshown nDue rest rest False (.inr le_rfl) (fun _ hb => hb) False.elim
        (fun _ hb => hb)
      refine ⟨⟨done ++ [b], .fetching flight requested queued more nDue, rest, held⟩,
        ⟨⟨?_, ?_, hend, hchunks, hpending, hall⟩, hweak⟩, ?_, [b], rfl⟩
      · rw [hsplit]
        simp [Errand.blocks]
      · exact fun _ => List.append_ne_nil_of_left_ne_nil hend _
      · simp only [Phase.work, Errand.work, List.length_cons]
        omega

/-- The hash of the tip of the server. -/
theorem head_hashBestChain (hbehind : Node.Behind env outside client server blocks) :
  (Node.chainHashes env client blocks).head? = some server.hashBestChain
  := by
  obtain ⟨best, hbest, hchain⟩ := hbehind.chain_eq
  obtain ⟨tip, htip, -⟩ := hbehind.server_indexed.tip
  obtain rfl := Option.some.inj (htip.pindexBest.symm.trans hbest)
  rw [← hchain, htip.hashBestChain]
  cases tip <;> rfl

theorem hashBestChain_eq
    (hbehind : Node.Behind env outside client server blocks) {pre : List ReceivedBlock} {tip : ReceivedBlock}
    (hblocks : blocks = pre ++ [tip]) :
  server.hashBestChain = tip.hash env
  := by
  have hhead := head_hashBestChain hbehind
  rw [hblocks, Node.Behind.chainHashes_concat] at hhead
  exact (Option.some.inj hhead).symm

/-- The client is sent a block, and the tip is to come. -/
theorem leaves_trailing_block
    (hbehind : Node.Behind env outside client server blocks)
    (h : Describes env outside client server blocks ⟨done, .trailing (b :: flight), rest, held⟩ s)
    (hnext : s.toClient = message :: toClient)
    (hmain : message.isOffer = true) (rand : ℕ → uint256) (nTime : ℤ) :
  Leaves env outside client server blocks ⟨done, .trailing (b :: flight), rest, held⟩
    (step env outside s (.receive .client rand nTime))
  := by
  obtain ⟨⟨hblocks, hturn, -⟩, hshows⟩ := h
  obtain ⟨hmessage, hoffers⟩ := List.cons.inj (hshows.next_offer hnext hmain)
  rw [← hmessage] at hnext
  have hsplit : blocks = done ++ b :: ((flight ++ rest) ++ held.toList) := by
    rw [hblocks]
    simp [Errand.blocks]
  obtain ⟨hlast, hothers⟩ := hshows.client_takes hbehind hsplit hnext rand nTime
  rw [← hoffers] at hlast hothers
  by_cases hend : flight ++ rest = [] ∧ held ≠ none
  · obtain ⟨hnil, hheld⟩ := hend
    obtain ⟨rfl, rfl⟩ := List.append_eq_nil_iff.mp hnil
    obtain ⟨tip, rfl⟩ := Option.ne_none_iff_exists'.mp hheld
    have hshown := hlast rfl tip rfl
    have hweak := @Shows.weaken _ _ _ _ _ _ hshown 0 [] [] ([] = ([] : List ReceivedBlock)) (.inl rfl)
      (fun _ hb => hb) (fun _ => trivial) (fun _ hb => hb)
    refine ⟨⟨blocks, .trailing [], [], none⟩,
      ⟨⟨?_, fun hnone => absurd rfl hnone, trivial⟩, hweak⟩, ?_, [b, tip], hsplit⟩
    · simp [Errand.blocks]
    · simp only [Phase.work, Errand.work, List.length_cons, List.length_nil]
      omega
  · have hlater : held ≠ none → flight ++ rest ≠ [] := fun hheld hnil => hend ⟨hnil, hheld⟩
    have hshown := hothers hlater
    have hweak := @Shows.weaken _ _ _ _ _ _ hshown 0 rest rest (flight = []) (.inl rfl) (fun _ hb => hb)
      (fun _ => trivial) (fun _ hb => hb)
    refine ⟨⟨done ++ [b], .trailing flight, rest, held⟩, ⟨⟨?_, hlater, trivial⟩, hweak⟩, ?_, [b], rfl⟩
    · rw [hsplit]
      simp [Errand.blocks]
    · simp only [Phase.work, Errand.work, List.length_cons]
      omega

/-- The tip of the server is announced. -/
theorem leaves_trailing
    (hbehind : Node.Behind env outside client server blocks)
    (h : Describes env outside client server blocks ⟨done, .trailing [], rest, held⟩ s)
    (hnext : s.toClient = message :: toClient)
    (hmain : message.isOffer = true) (rand : ℕ → uint256) (nTime : ℤ) :
  Leaves env outside client server blocks ⟨done, .trailing [], rest, held⟩
    (step env outside s (.receive .client rand nTime))
  := by
  obtain ⟨⟨hblocks, hturn, -⟩, hshows⟩ := h
  obtain ⟨hmessage, hoffers⟩ := List.cons.inj (hshows.next_offer hnext hmain)
  have hsplit : blocks = done ++ (rest ++ held.toList) := hblocks
  obtain ⟨p, hp⟩ := hbehind.caughtUp done _ hsplit
  cases held with
  | some tip =>
    -- The client holds the tip, and asks what leads to it.
    have hlast : blocks = (done ++ rest) ++ [tip] := by
      rw [hsplit, List.append_assoc]
      rfl
    have hprev := hbehind.hashPrevBlock_ne hlast (List.mem_singleton_self tip)
    rw [hashBestChain_eq hbehind hlast] at hmessage
    obtain ⟨hclient, hmessages⟩ := processInv_held hbehind hsplit nTime hshows.clientIs rfl hprev hp
    have hreceived := @Shows.client_answers _ _ _ _ _ _ hshows _ _ hnext rand nTime (some tip) [] rest rest 0
      False [.getblocks (locatorOf env (some p)) (tip.hash env)] [] (by rw [← hmessage]; exact hclient)
      (by rw [← hmessage]; exact hmessages) (List.forall_mem_singleton.mpr rfl) (fun _ hb => hb) hoffers.symm
    exact leaves_for_asking hp rfl (Nat.lt_succ_self _) hblocks hturn hreceived
  | none =>
    rcases List.eq_nil_or_concat' rest with rfl | ⟨mid, tip, rfl⟩
    · -- The client has the tip already.
      have hall : blocks = done := by
        rw [hsplit]
        exact List.append_nil _
      subst hall
      have htip : server.hashBestChain = p.getBlockHash :=
        Option.some.inj ((head_hashBestChain hbehind).symm.trans hp.head)
      rw [htip] at hmessage
      obtain ⟨hclient, hmessages⟩ := processInv_tip hbehind nTime hshows.clientIs rfl hp
      have hreceived := @Shows.client_answers _ _ _ _ _ _ hshows _ _ hnext rand nTime none [] [] [] 0 False
        [.getblocks (locatorOf env (some p)) 0] [] (by rw [← hmessage]; exact hclient)
        (by rw [← hmessage]; exact hmessages) (List.forall_mem_singleton.mpr rfl) (fun _ hb => hb) hoffers.symm
      exact leaves_for_asking hp rfl (Nat.lt_succ_self _) hsplit (fun hnone => absurd rfl hnone) hreceived
    · -- The client does not have the tip, and is to ask for it.
      have hlast : blocks = (done ++ mid) ++ [tip] := by
        rw [hsplit, Option.toList_none, List.append_nil, List.append_assoc]
      rw [hashBestChain_eq hbehind hlast] at hmessage
      have hnodup : (([tip] ++ mid).map (·.hash env)).Nodup := by
        have hwhole := hbehind.nodup_hashes
        rw [hlast, List.append_assoc, List.map_append, List.map_append] at hwhole
        rw [List.map_append]
        exact (List.perm_append_comm.nodup_iff).mp hwhole.of_append_right
      have hweak := @Shows.weaken _ _ _ _ _ _ hshows 0 ([tip] ++ mid) mid True (.inl rfl)
        (fun b hb => (List.perm_append_comm.mem_iff).mp hb) (fun _ => rfl)
        (fun b hb => List.mem_append_left _ hb)
      have hfree : ∀ b ∈ [tip], ∀ tip', (none : Option ReceivedBlock) = some tip' → tip'.hash env ≠ b.hash env :=
        fun _ _ _ hnone => absurd hnone (by simp)
      obtain ⟨nDue, hclient, hmessages⟩ := processInv_batch hbehind hsplit
        (fun b hb => List.mem_append_left _ (List.mem_append_right _ hb)) (by simp) hnodup hfree nTime hweak.clientIs
      have hreceived := @Shows.client_answers _ _ _ _ _ _ hweak _ _ hnext rand nTime none [tip] mid mid nDue True
        [] [] (by rw [← hmessage]; exact hclient) (by rw [← hmessage]; exact hmessages)
        (fun _ hm => absurd hm List.not_mem_nil) (fun _ hb => hb) hoffers.symm
      by_cases hmid : mid = []
      · subst hmid
        have hshown := @Shows.weaken _ _ _ _ _ _ hreceived nDue [] [] False (.inr le_rfl) (fun _ hb => hb) False.elim
          (fun _ hb => hb)
        refine leaves_same_done ⟨done, .fetching [] [] [tip] false nDue, [], none⟩ rfl
          ⟨⟨hblocks, fun hnone => absurd rfl hnone, List.cons_ne_nil _ _,
            fun _ hchunk => absurd hchunk List.not_mem_nil, fun _ => List.cons_ne_nil _ _, fun _ => rfl⟩, hshown⟩ ?_
        simp [Phase.work, Errand.work]
      · refine leaves_same_done ⟨done, .tipQueued nDue, mid, some tip⟩ rfl
          ⟨⟨?_, fun _ => hmid, Option.some_ne_none tip⟩, hreceived⟩ ?_
        · rw [hlast, List.append_assoc]
          rfl
        · simp only [Phase.work, Errand.work, List.length_append, List.length_cons, List.length_nil]
          omega

/-- The client is sent the tip before other blocks. -/
theorem leaves_tipSent
    (hbehind : Node.Behind env outside client server blocks)
    (h : Describes env outside client server blocks ⟨done, .tipSent, rest, held⟩ s)
    (hnext : s.toClient = message :: toClient)
    (hmain : message.isOffer = true) (rand : ℕ → uint256) (nTime : ℤ) :
  Leaves env outside client server blocks ⟨done, .tipSent, rest, held⟩
    (step env outside s (.receive .client rand nTime))
  := by
  obtain ⟨⟨hblocks, hturn, hheld⟩, hshows⟩ := h
  obtain ⟨tip, rfl⟩ := Option.ne_none_iff_exists'.mp hheld
  obtain ⟨hmessage, hoffers⟩ := List.cons.inj (hshows.next_offer hnext hmain)
  have hsplit : blocks = done ++ (rest ++ [tip]) := hblocks
  have hrest : rest ≠ [] := hturn hheld
  have hlast : blocks = (done ++ rest) ++ [tip] := by
    rw [hsplit, List.append_assoc]
  have hprev := hbehind.hashPrevBlock_ne hlast (List.mem_singleton_self tip)
  have hmissing : (client.catchUp env outside done).mapBlockIndex.contains tip.block.hashPrevBlock = false := by
    obtain ⟨init, last, rfl⟩ := (List.eq_nil_or_concat' rest).resolve_left hrest
    have hbefore : blocks = (done ++ init) ++ last :: tip :: [] := by
      rw [hsplit]
      simp
    rw [hbehind.hashPrevBlock_eq_hash hbefore]
    exact hbehind.not_contains hsplit (by simp)
  obtain ⟨p, hp⟩ := hbehind.caughtUp done _ hsplit
  obtain ⟨hclient, hmessages⟩ :=
    processMessage_tip hbehind hsplit hshows.clientIs trivial hprev hmissing hp rand nTime
  have hreceived := @Shows.client_answers _ _ _ _ _ _ hshows _ _ hnext rand nTime (some tip) [] rest rest 0 False
    [.getblocks (locatorOf env (some p)) (tip.hash env)] [] (by rw [← hmessage]; exact hclient)
    (by rw [← hmessage]; exact hmessages) (List.forall_mem_singleton.mpr rfl) (fun _ hb => hb) hoffers.symm
  exact leaves_for_asking hp rfl (Nat.lt_succ_self _) hblocks hturn hreceived

/-! ## The client sends -/

/-- The client asks for some of what it is to ask for. -/
theorem leaves_fetching_sends
    {left : List ReceivedBlock} {asked : List (List ReceivedBlock)}
    (hok : Phase.Ok blocks ⟨done, .fetching flight requested queued more nDue, rest, held⟩)
    (hqueued : queued = asked.flatten ++ left) (hchunks : ∀ chunk ∈ asked, chunk ≠ [] ∧ chunk.length ≤ 1000)
    (hasked : asked ≠ [])
    (hshows : Shows env outside client server
      { Phase.outlook env outside client server ⟨done, .fetching flight requested queued more nDue, rest, held⟩ with
        queue := left
        requests := (requested ++ asked).map (fun chunk => .getdata (chunk.map (blockInv env))) } s') :
  Leaves env outside client server blocks ⟨done, .fetching flight requested queued more nDue, rest, held⟩ s'
  := by
  obtain ⟨hblocks, hturn, hsome, hold, hpending, hall⟩ := hok
  have hflatten : (requested ++ asked).flatten ++ left = requested.flatten ++ queued := by
    rw [hqueued, List.flatten_append, List.append_assoc]
  have hnotNil : asked.flatten ≠ [] := fun hnil => hasked (eq_nil_of_flatten hchunks hnil)
  have hpos := List.length_pos_iff.mpr hnotNil
  refine leaves_same_done ⟨done, .fetching flight (requested ++ asked) left more nDue, rest, held⟩ rfl
    ⟨⟨?_, ?_, ?_, ?_, ?_, hall⟩, ?_⟩ ?_
  · rw [hblocks, Errand.blocks, Errand.blocks, hflatten]
  · rw [Errand.blocks, hflatten]
    exact hturn
  · rw [hflatten]
    exact hsome
  · intro chunk hchunk
    rcases List.mem_append.mp hchunk with hchunk | hchunk
    · exact hold chunk hchunk
    · exact hchunks chunk hchunk
  · rw [hflatten]
    exact hpending
  · convert hshows using 1
    simp only [Phase.outlook, hflatten]
  · simp only [Phase.work, Errand.work, hqueued, List.flatten_append, List.length_append]
    omega

/-- The client asks for the tip. -/
theorem leaves_tipQueued
    {asked : List (List ReceivedBlock)}
    {left : List ReceivedBlock} (hok : Phase.Ok blocks ⟨done, .tipQueued nDue, rest, held⟩)
    (hqueued : held.toList = asked.flatten ++ left) (hchunks : ∀ chunk ∈ asked, chunk ≠ [] ∧ chunk.length ≤ 1000)
    (hasked : asked ≠ [])
    (hshows : Shows env outside client server
      { Phase.outlook env outside client server ⟨done, .tipQueued nDue, rest, held⟩ with
        queue := left, requests := asked.map (fun chunk => .getdata (chunk.map (blockInv env))) } s') :
  Leaves env outside client server blocks ⟨done, .tipQueued nDue, rest, held⟩ s'
  := by
  obtain ⟨hblocks, hturn, hheld⟩ := hok
  obtain ⟨tip, rfl⟩ := Option.ne_none_iff_exists'.mp hheld
  cases asked with
  | nil => exact absurd rfl hasked
  | cons chunk asked =>
    obtain ⟨⟨hne, -⟩, hothers⟩ := List.forall_mem_cons.mp hchunks
    rw [List.flatten_cons, List.append_assoc] at hqueued
    cases chunk with
    | nil => exact absurd rfl hne
    | cons b chunk =>
      obtain ⟨rfl, htail⟩ := List.cons.inj hqueued
      obtain ⟨rfl, hrest⟩ := List.append_eq_nil_iff.mp htail.symm
      obtain ⟨hflatten, rfl⟩ := List.append_eq_nil_iff.mp hrest
      obtain rfl := eq_nil_of_flatten hothers hflatten
      have hweak := @Shows.weaken _ _ _ _ _ _ hshows 0 rest rest True (.inl rfl) (fun _ hb => hb) (fun _ => trivial)
        (fun _ hb => hb)
      exact leaves_same_done ⟨done, .tipRequested, rest, some tip⟩ rfl ⟨⟨hblocks, hturn, hheld⟩, hweak⟩
        (Nat.lt_succ_self _)

end Phases

end BlockSync

end CorgiCoin
