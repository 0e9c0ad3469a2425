import CorgiCoin.SyncClient

/-!
# What goes on between the two nodes

An outlook says what the client and the server still have to do, and which of the messages on their way take
part in it.  The others change nothing, and nor does a node that has nothing to send.
-/

namespace CorgiCoin

open Endpoint

/-! ## Facts about the missing blocks -/

namespace Node.Behind

variable {env : Env} {outside : Outside} {client server : Node} {blocks pre post : List ReceivedBlock}

theorem nodup_hashes (h : Node.Behind env outside client server blocks) :
  (blocks.map (·.hash env)).Nodup
  := by
  have hnodup := h.nodup_chainHashes.1
  rw [Node.chainHashes] at hnodup
  exact List.nodup_reverse.mp hnodup.of_append_left

variable {b : ReceivedBlock}

/-- A block of the rest is not on the chain of the client. -/
theorem not_mem_chainHashes
    (h : Node.Behind env outside client server blocks) (hblocks : blocks = pre ++ post)
    (hb : b ∈ post) :
  b.hash env ∉ Node.chainHashes env client pre
  := by
  have hnodup := h.nodup_chainHashes.1
  rw [hblocks, chainHashes_append] at hnodup
  intro hmem
  exact (List.nodup_append.mp hnodup).2.2 _ (List.mem_reverse.mpr (List.mem_map_of_mem hb)) _ hmem rfl

/-- Each block names the one before it. -/
theorem hashPrevBlock_eq_hash
    (h : Node.Behind env outside client server blocks) {b' : ReceivedBlock}
    (hblocks : blocks = pre ++ b :: b' :: post) :
  b'.block.hashPrevBlock = b.hash env
  := by
  rw [List.append_cons] at hblocks
  have hhead := h.hashPrevBlock_eq hblocks
  rw [chainHashes_concat] at hhead
  exact (Option.some.inj hhead).symm

/-- A block does not name a block that is not before it. -/
theorem hashPrevBlock_ne
    (h : Node.Behind env outside client server blocks) {b' : ReceivedBlock} (hblocks : blocks = pre ++ b :: post)
    (hb' : b' ∈ b :: post) :
  b.block.hashPrevBlock ≠ b'.hash env
  := by
  have hhead := List.mem_of_mem_head? (h.hashPrevBlock_eq hblocks)
  intro heq
  rw [heq] at hhead
  exact h.not_mem_chainHashes hblocks hb' hhead

end Node.Behind

/-! ## Queues of messages -/

/-- How many messages are before the first of those that matter. -/
def ahead (matters : BlockMessage → Bool) (queue : List BlockMessage) : ℕ :=
  (queue.takeWhile (fun message => !matters message)).length

theorem ahead_cons
    {matters : BlockMessage → Bool} {message : BlockMessage} (h : matters message = false)
    (queue : List BlockMessage) :
  ahead matters (message :: queue) = ahead matters queue + 1
  := by
  rw [ahead, List.takeWhile_cons, h]
  rfl

/-- What comes behind a message that matters does not delay it. -/
theorem ahead_append {matters : BlockMessage → Bool} {queue : List BlockMessage} (h : queue.filter matters ≠ [])
    (messages : List BlockMessage) :
  ahead matters (queue ++ messages) = ahead matters queue
  := by
  induction queue with
  | nil => exact absurd rfl h
  | cons message queue ih =>
    cases hmatters : matters message with
    | true => simp [ahead, hmatters]
    | false =>
      rw [List.filter_cons, hmatters, if_neg Bool.false_ne_true] at h
      rw [List.cons_append, ahead_cons hmatters, ahead_cons hmatters, ih h]

namespace BlockSync

/-- What the two nodes still have to do, and the messages that matter. -/
structure Outlook where
  done : List ReceivedBlock
  /-- The orphan of the client. -/
  pool : Option ReceivedBlock
  /-- What the client is to ask for, the last of it at a time. -/
  queue : List ReceivedBlock
  nDue : ℤ
  /-- What the client did not ask for. -/
  unasked : List ReceivedBlock
  /-- The tip of the client is another one since it asked what follows the tip. -/
  moved : Prop
  /-- What the server is to announce. -/
  todo : List ReceivedBlock
  hashContinue : uint256
  unannounced : List ReceivedBlock
  requests : List BlockMessage
  offers : List BlockMessage

variable (env : Env) (outside : Outside) (client server : Node)

/-- The client of an outlook. -/
def Outlook.Client (o : Outlook) (e : Endpoint) : Prop :=
  ClientIs env outside client o.done o.pool (o.queue.map (blockInv env)) o.nDue o.unasked o.moved e

/-- The server of an outlook. -/
def Outlook.Server (o : Outlook) (e : Endpoint) : Prop :=
  ServerIs env server (o.todo.map (blockInv env)) o.hashContinue o.unannounced e

/-- A message to the server that does not matter announces what the client has. -/
def OldNews (done : List ReceivedBlock) (message : BlockMessage) : Prop :=
  message.isRequest = false → ∃ vInv, message = .inv vInv ∧ ∀ inv ∈ vInv, OldInv env client done inv

/-- A state has an outlook. -/
structure Shows (o : Outlook) (s : BlockSync) : Prop where
  clientIs : o.Client env outside client s.client
  serverIs : o.Server env server s.server
  requests : s.toServer.filter BlockMessage.isRequest = o.requests
  offers : s.toClient.filter BlockMessage.isOffer = o.offers
  fromClient : ∀ message ∈ s.toServer, OldNews env client o.done message
  fromServer : ∀ message ∈ s.toClient, message.isOffer = false → message.isGetBlocks = true

variable {env outside client server} {blocks done post : List ReceivedBlock} {o : Outlook} {s : BlockSync}

variable {message : BlockMessage}

theorem OldNews.of_isRequest (h : message.isRequest = true) :
  OldNews env client done message
  := by
  intro hnot
  rw [h] at hnot
  cases hnot

theorem OldNews.append (h : OldNews env client done message) (more : List ReceivedBlock) :
  OldNews env client (done ++ more) message
  := by
  intro hnot
  obtain ⟨vInv, rfl, hold⟩ := h hnot
  refine ⟨vInv, rfl, fun inv hinv => ⟨(hold inv hinv).1, ?_⟩⟩
  rw [Node.Behind.chainHashes_append]
  exact List.mem_append_right _ (hold inv hinv).2

theorem isOffer_of_isGetBlocks (h : message.isGetBlocks = true) : message.isOffer = false
  := by
  cases message with
  | getblocks vHave hashStop => rfl
  | inv vInv => cases h
  | getdata vInv => cases h
  | block pblock => cases h

theorem filter_isOffer_getBlocks
    {messages : List BlockMessage} (h : ∀ message ∈ messages, message.isGetBlocks = true) :
  messages.filter BlockMessage.isOffer = []
  := by
  apply List.filter_eq_nil_iff.mpr
  intro message hmessage
  rw [isOffer_of_isGetBlocks (h message hmessage)]
  exact Bool.false_ne_true

/-! ## Receiving -/

/-- The client takes a message from its queue. -/
theorem Shows.client_receives
    (h : Shows env outside client server o s) {toClient : List BlockMessage}
    (hnext : s.toClient = message :: toClient) {rand : ℕ → uint256} {nTime : ℤ} {more : List ReceivedBlock}
    {pool : Option ReceivedBlock} {queue unasked unannounced : List ReceivedBlock} {nDue : ℤ} {moved : Prop}
    {messages offers : List BlockMessage}
    (hclient : ClientIs env outside client (o.done ++ more) pool (queue.map (blockInv env)) nDue unasked moved
      (s.client.processMessage env outside rand nTime message).1)
    (hmessages : (s.client.processMessage env outside rand nTime message).2 = messages)
    (hrequests : ∀ message ∈ messages, message.isRequest = true)
    (hunannounced : ∀ b ∈ unannounced, b ∈ o.unannounced)
    (hoffers : toClient.filter BlockMessage.isOffer = offers) :
  Shows env outside client server
    { o with done := o.done ++ more, pool, queue, nDue, unasked, moved, unannounced,
             requests := o.requests ++ messages, offers }
    (step env outside s (.receive .client rand nTime))
  := by
  subst hmessages
  rw [step, hnext]
  refine ⟨hclient, ?_, ?_, hoffers, ?_, ?_⟩
  · exact ⟨h.serverIs.node, h.serverIs.orphans, h.serverIs.queue, h.serverIs.todo_eq, h.serverIs.continue_eq,
      fun b hb => h.serverIs.unknown b (hunannounced b hb)⟩
  · dsimp only
    rw [List.filter_append, h.requests, List.filter_eq_self.mpr hrequests]
  · intro m hm
    rcases List.mem_append.mp hm with hm | hm
    · exact (h.fromClient m hm).append more
    · exact .of_isRequest (hrequests m hm)
  · intro m hm
    apply h.fromServer
    rw [hnext]
    exact List.mem_cons_of_mem _ hm

/-- The client takes a message from its queue, and no block. -/
theorem Shows.client_answers
    (h : Shows env outside client server o s) {message : BlockMessage} {toClient : List BlockMessage}
    (hnext : s.toClient = message :: toClient) {rand : ℕ → uint256} {nTime : ℤ} {pool : Option ReceivedBlock}
    {queue unasked unannounced : List ReceivedBlock} {nDue : ℤ} {moved : Prop} {messages offers : List BlockMessage}
    (hclient : ClientIs env outside client o.done pool (queue.map (blockInv env)) nDue unasked moved
      (s.client.processMessage env outside rand nTime message).1)
    (hmessages : (s.client.processMessage env outside rand nTime message).2 = messages)
    (hrequests : ∀ message ∈ messages, message.isRequest = true)
    (hunannounced : ∀ b ∈ unannounced, b ∈ o.unannounced)
    (hoffers : toClient.filter BlockMessage.isOffer = offers) :
  Shows env outside client server
    { o with pool, queue, nDue, unasked, moved, unannounced, requests := o.requests ++ messages, offers }
    (step env outside s (.receive .client rand nTime))
  := by
  have hsame : o.done ++ [] = o.done := List.append_nil _
  rw [← hsame] at hclient
  have hreceived := h.client_receives hnext hclient hmessages hrequests hunannounced hoffers
  rw [hsame] at hreceived
  exact hreceived

/-- The server takes a message from its queue. -/
theorem Shows.server_receives
    (h : Shows env outside client server o s) {message : BlockMessage} {toServer : List BlockMessage}
    (hnext : s.toServer = message :: toServer) {rand : ℕ → uint256} {nTime : ℤ}
    {todo unannounced : List ReceivedBlock} {hashContinue : uint256} {requests offers messages : List BlockMessage}
    (hserver : ServerIs env server (todo.map (blockInv env)) hashContinue unannounced
      (s.server.processMessage env outside rand nTime message).1)
    (hmessages : (s.server.processMessage env outside rand nTime message).2 = messages)
    (hoffers : messages.filter BlockMessage.isOffer = offers)
    (hgetBlocks : ∀ message ∈ messages, message.isOffer = false → message.isGetBlocks = true)
    (hrequests : toServer.filter BlockMessage.isRequest = requests) :
  Shows env outside client server
    { o with todo, hashContinue, unannounced, requests, offers := o.offers ++ offers }
    (step env outside s (.receive .server rand nTime))
  := by
  subst hmessages
  rw [step, hnext]
  refine ⟨h.clientIs, hserver, hrequests, ?_, ?_, ?_⟩
  · dsimp only
    rw [List.filter_append, h.offers, hoffers]
  · intro m hm
    apply h.fromClient
    rw [hnext]
    exact List.mem_cons_of_mem _ hm
  · intro m hm
    rcases List.mem_append.mp hm with hm | hm
    · exact h.fromServer m hm
    · exact hgetBlocks m hm

/-- The server asks the client, which has nothing new for it. -/
theorem Shows.client_noise
    (hbehind : Node.Behind env outside client server blocks) (hblocks : blocks = o.done ++ post)
    (h : Shows env outside client server o s) {toClient : List BlockMessage}
    (hnext : s.toClient = message :: toClient) (hnoise : message.isOffer = false) (rand : ℕ → uint256) (nTime : ℤ) :
  Shows env outside client server o (step env outside s (.receive .client rand nTime))
    ∧ (step env outside s (.receive .client rand nTime)).toServer = s.toServer
    ∧ (step env outside s (.receive .client rand nTime)).toClient = toClient
  := by
  have hgetBlocks := h.fromServer message (by rw [hnext]; exact List.mem_cons_self) hnoise
  cases message with
  | getblocks vHave hashStop =>
    have hoffers := h.offers
    rw [hnext, List.filter_cons, hnoise, if_neg Bool.false_ne_true] at hoffers
    have hclient := processGetBlocks_client hbehind hblocks h.clientIs vHave hashStop
    have hnone : (s.client.processMessage env outside rand nTime (.getblocks vHave hashStop)).2 = [] := rfl
    have hshows := @Shows.client_answers _ _ _ _ _ _ h _ _ hnext rand nTime _ _ _ _ _ _ _ _ hclient hnone
      (fun _ hm => absurd hm List.not_mem_nil) (fun _ hb => hb) hoffers
    rw [List.append_nil] at hshows
    refine ⟨hshows, ?_, ?_⟩
    · rw [step, hnext]
      exact List.append_nil _
    · rw [step, hnext]
  | inv vInv => cases hgetBlocks
  | getdata vInv => cases hgetBlocks
  | block pblock => cases hgetBlocks

/-- The client announces what the server has, which may then ask. -/
theorem Shows.server_noise
    (hbehind : Node.Behind env outside client server blocks) (hblocks : blocks = o.done ++ post)
    (hunannounced : ∀ b ∈ o.unannounced, b ∈ post) (h : Shows env outside client server o s)
    {toServer : List BlockMessage} (hnext : s.toServer = message :: toServer) (hnoise : message.isRequest = false)
    (rand : ℕ → uint256) (nTime : ℤ) :
  Shows env outside client server o (step env outside s (.receive .server rand nTime))
    ∧ (step env outside s (.receive .server rand nTime)).toServer = toServer
    ∧ ∃ messages, (step env outside s (.receive .server rand nTime)).toClient = s.toClient ++ messages
  := by
  obtain ⟨vInv, rfl, hold⟩ := h.fromClient message (by rw [hnext]; exact List.mem_cons_self) hnoise
  have hrequests := h.requests
  rw [hnext, List.filter_cons, hnoise, if_neg Bool.false_ne_true] at hrequests
  have hnew : ∀ b ∈ o.unannounced, b.hash env ∉ Node.chainHashes env client o.done :=
    fun b hb => hbehind.not_mem_chainHashes hblocks (hunannounced b hb)
  obtain ⟨hserver, hgetBlocks⟩ := processInv_server hbehind hblocks hnew hold nTime h.serverIs
  have hshows := @Shows.server_receives _ _ _ _ _ _ h _ _ hnext rand nTime _ _ _ _ _ _ hserver rfl
    (filter_isOffer_getBlocks hgetBlocks) (fun m hm _ => hgetBlocks m hm) hrequests
  rw [List.append_nil] at hshows
  refine ⟨hshows, ?_, ?_⟩
  · rw [step, hnext]
  · rw [step, hnext]
    exact ⟨_, rfl⟩

/-! ## Sending -/

/-- The server announces what it has to announce. -/
theorem Shows.server_sends
    (h : Shows env outside client server o s) {rest : List ReceivedBlock} (hsplit : o.unannounced = o.todo ++ rest)
    (hnodup : (o.unannounced.map (·.hash env)).Nodup) (hshort : o.todo.length < 1000) (context : TrickleContext)
    (fSendTrickle : Bool) (nTime : ℤ) :
  Shows env outside client server
      { o with todo := [], unannounced := rest,
               offers := o.offers ++ if o.todo = [] then [] else [.inv (o.todo.map (blockInv env))] }
      (step env outside s (.send .server context fSendTrickle nTime))
    ∧ (step env outside s (.send .server context fSendTrickle nTime)).toServer = s.toServer
    ∧ ∃ messages, (step env outside s (.send .server context fSendTrickle nTime)).toClient = s.toClient ++ messages
  := by
  obtain ⟨hserver, hmessages⟩ :=
    sendMessages_server h.serverIs rfl hsplit hnodup hshort context fSendTrickle nTime
  refine ⟨⟨h.clientIs, hserver, h.requests, ?_, h.fromClient, ?_⟩, rfl, _, rfl⟩
  · change (s.toClient ++ (s.server.sendMessages context fSendTrickle nTime).2).filter BlockMessage.isOffer = _
    rw [List.filter_append, h.offers, hmessages]
    split_ifs <;> rfl
  · intro m hm hnoise
    have hsent : m ∈ s.toClient ++ (s.server.sendMessages context fSendTrickle nTime).2 := hm
    rw [hmessages] at hsent
    rcases List.mem_append.mp hsent with hm | hm
    · exact h.fromServer m hm hnoise
    · split_ifs at hm
      · exact absurd hm List.not_mem_nil
      · rw [List.mem_singleton.mp hm] at hnoise
        cases hnoise

/-- Chunks of a list that is an image are images of chunks. -/
theorem exists_chunks {α β : Type} (f : α → β) {l : List α} {chunks : List (List β)} (h : l.map f = chunks.flatten) :
  ∃ parts : List (List α), parts.flatten = l ∧ chunks = parts.map (List.map f)
  := by
  induction chunks generalizing l with
  | nil => exact ⟨[], (List.map_eq_nil_iff.mp h).symm, rfl⟩
  | cons chunk chunks ih =>
    rw [List.flatten_cons] at h
    obtain ⟨l₁, l₂, rfl, rfl, hrest⟩ := List.map_eq_append_iff.mp h
    obtain ⟨parts, rfl, rfl⟩ := ih hrest
    exact ⟨l₁ :: parts, rfl, rfl⟩

/-- The client asks for what is due. -/
theorem Shows.client_sends
    (hbehind : Node.Behind env outside client server blocks) (hblocks : blocks = o.done ++ post)
    (hqueue : ∀ b ∈ o.queue, b ∈ post ∧ ∀ tip, o.pool = some tip → tip.hash env ≠ b.hash env)
    (hunasked : ∀ b ∈ o.queue, ∀ b' ∈ o.unasked, b.hash env ≠ b'.hash env) (h : Shows env outside client server o s)
    (context : TrickleContext) (fSendTrickle : Bool) (nTime : ℤ) :
  ∃ (asked : List (List ReceivedBlock)) (left : List ReceivedBlock), o.queue = asked.flatten ++ left
    ∧ (∀ chunk ∈ asked, chunk ≠ [] ∧ chunk.length ≤ 1000)
    ∧ Shows env outside client server
        { o with queue := left
                 requests := o.requests ++ asked.map (fun chunk => .getdata (chunk.map (blockInv env))) }
        (step env outside s (.send .client context fSendTrickle nTime))
    ∧ (o.nDue ≤ nTime * 1000000 → left = [])
    ∧ (step env outside s (.send .client context fSendTrickle nTime)).toClient = s.toClient
    ∧ ∃ messages, (step env outside s (.send .client context fSendTrickle nTime)).toServer = s.toServer ++ messages
  := by
  have hhave : ∀ inv ∈ o.queue.map (blockInv env), s.client.alreadyHave inv = false := by
    intro inv hinv
    obtain ⟨b, hb, rfl⟩ := List.mem_map.mp hinv
    exact alreadyHave_new hbehind hblocks (hqueue b hb).1 h.clientIs (hqueue b hb).2
  have hother : ∀ inv ∈ o.queue.map (blockInv env), ∀ b ∈ o.unasked, inv ≠ blockInv env b := by
    intro inv hinv b' hb'
    obtain ⟨b, hb, rfl⟩ := List.mem_map.mp hinv
    exact fun heq => hunasked b hb b' hb' (congrArg CInv.hash heq)
  obtain ⟨due, left, chunks, hsplit, hdue, hchunks, hclient, hmessages, hnoise, hempty⟩ :=
    sendMessages_client h.clientIs hhave hother context fSendTrickle nTime
  obtain ⟨queued, left, hqueueEq, rfl, rfl⟩ := List.map_eq_append_iff.mp hsplit
  obtain ⟨asked, rfl, rfl⟩ := exists_chunks (blockInv env) hdue.symm
  refine ⟨asked, left, hqueueEq, ?_, ⟨hclient, h.serverIs, ?_, h.offers, ?_, h.fromServer⟩, ?_, rfl, _, rfl⟩
  · intro chunk hchunk
    obtain ⟨hne, hle⟩ := hchunks _ (List.mem_map_of_mem hchunk)
    rw [List.length_map] at hle
    exact ⟨fun heq => hne (by rw [heq]; rfl), hle⟩
  · change (s.toServer ++ (s.client.sendMessages context fSendTrickle nTime).2).filter BlockMessage.isRequest = _
    rw [List.filter_append, h.requests, hmessages, List.map_map]
    rfl
  · intro m hm
    have hsent : m ∈ s.toServer ++ (s.client.sendMessages context fSendTrickle nTime).2 := hm
    rcases List.mem_append.mp hsent with hm | hm
    · exact h.fromClient m hm
    · exact fun hnot => hnoise m hm hnot
  · exact fun hle => List.map_eq_nil_iff.mp (hempty hle)

end BlockSync

end CorgiCoin
