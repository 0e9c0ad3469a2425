import CorgiCoin.Lib.FairRuns
import CorgiCoin.SyncPhases
import Mathlib.Data.Prod.Lex

/-!
# The download of blocks

Each state of a run of the two nodes is in a phase, and each step leads to a later one, or brings the message
that the phase waits for nearer, or is not one that the phase waits for.  When both nodes go on receiving and
sending, the client ends up with the tip of the server.
-/

namespace CorgiCoin

open Endpoint

namespace BlockSync

section Phases

variable {env : Env} {outside : Outside} {client server : Node} {blocks : List ReceivedBlock} {phase : Phase}
variable {s : BlockSync}

/-! ## Which step is to come -/

/-- Who is to do what for a phase to end. -/
inductive Helper where
  | clientReceives
  | serverReceives
  /-- The client sends once all that it is to ask for is due. -/
  | clientSends (nDue : ℤ)
  | serverSends
  | none

def Errand.helper : Errand → Helper
  | .asking => .serverReceives
  | .announcing _ _ => .serverSends
  | .announced _ _ => .clientReceives
  | .fetching (_ :: _) _ _ _ _ => .clientReceives
  | .fetching [] (_ :: _) _ _ _ => .serverReceives
  | .fetching [] [] _ _ nDue => .clientSends nDue
  | .trailing _ => .clientReceives
  | .tipQueued nDue => .clientSends nDue
  | .tipRequested => .serverReceives
  | .tipSent => .clientReceives
  | .finished => .none

def Helper.Helps : Helper → Action → Prop
  | .clientReceives, .receive .client _ _ => True
  | .serverReceives, .receive .server _ _ => True
  | .clientSends nDue, .send .client _ _ nTime => nDue ≤ nTime * 1000000
  | .serverSends, .send .server _ _ _ => True
  | _, _ => False

section Helper

variable {helper : Helper} {rand : ℕ → uint256} {context : TrickleContext} {fSendTrickle : Bool} {nTime : ℤ}

@[simp] theorem helps_receive_client : helper.Helps (.receive .client rand nTime) ↔ helper = .clientReceives
  := by
  cases helper <;> simp [Helper.Helps]

@[simp] theorem helps_receive_server : helper.Helps (.receive .server rand nTime) ↔ helper = .serverReceives
  := by
  cases helper <;> simp [Helper.Helps]

@[simp] theorem helps_send_client :
  helper.Helps (.send .client context fSendTrickle nTime)
    ↔ ∃ nDue, helper = .clientSends nDue ∧ nDue ≤ nTime * 1000000
  := by
  cases helper <;> simp [Helper.Helps]

@[simp] theorem helps_send_server : helper.Helps (.send .server context fSendTrickle nTime) ↔ helper = .serverSends
  := by
  cases helper <;> simp [Helper.Helps]

end Helper

/-- How many messages are before the one that ends the phase. -/
def Helper.distance (s : BlockSync) : Helper → ℕ
  | .clientReceives => ahead BlockMessage.isOffer s.toClient
  | .serverReceives => ahead BlockMessage.isRequest s.toServer
  | _ => 0

theorem Helper.distance_eq
    {helper : Helper} {s s' : BlockSync}
    (hclient : helper = .clientReceives →
      ahead BlockMessage.isOffer s'.toClient = ahead BlockMessage.isOffer s.toClient)
    (hserver : helper = .serverReceives →
      ahead BlockMessage.isRequest s'.toServer = ahead BlockMessage.isRequest s.toServer) :
  helper.distance s' = helper.distance s
  := by
  cases helper with
  | clientReceives => exact hclient rfl
  | serverReceives => exact hserver rfl
  | clientSends nDue => rfl
  | serverSends => rfl
  | none => rfl

def rank (phase : Phase) (s : BlockSync) : ℕ ×ₗ ℕ := toLex (phase.work, phase.errand.helper.distance s)

def Helps (phase : Phase) (a : Action) : Prop := phase.errand.helper.Helps a

/-- The client is to receive an offer only if there is one. -/
theorem Phase.Ok.offers_ne_nil (h : phase.Ok blocks) (hhelper : phase.errand.helper = .clientReceives) :
  (phase.outlook env outside client server).offers ≠ []
  := by
  obtain ⟨done, errand, rest, held⟩ := phase
  obtain ⟨-, -, herrand⟩ := h
  cases errand with
  | announced batch more => exact List.cons_ne_nil _ _
  | fetching flight requested queued more nDue =>
    cases flight with
    | nil => cases requested <;> cases hhelper
    | cons b flight => exact List.cons_ne_nil _ _
  | trailing flight => exact List.append_ne_nil_of_right_ne_nil _ (List.cons_ne_nil _ _)
  | tipSent =>
    obtain ⟨tip, rfl⟩ := Option.ne_none_iff_exists'.mp herrand
    exact List.cons_ne_nil _ _
  | _ => cases hhelper

theorem Phase.requests_ne_nil (hhelper : phase.errand.helper = .serverReceives) :
  (phase.outlook env outside client server).requests ≠ []
  := by
  obtain ⟨done, errand, rest, held⟩ := phase
  cases errand with
  | asking => exact List.cons_ne_nil _ _
  | fetching flight requested queued more nDue =>
    cases flight with
    | nil =>
      cases requested with
      | nil => cases hhelper
      | cons chunk requested => exact List.cons_ne_nil _ _
    | cons b flight => cases hhelper
  | tipRequested => exact List.cons_ne_nil _ _
  | _ => cases hhelper

/-- What is to be asked for when the client is to ask. -/
theorem Phase.Ok.queue_of_clientSends
    {nDue : ℤ} (h : phase.Ok blocks) (hhelper : phase.errand.helper = .clientSends nDue) :
  (phase.outlook env outside client server).queue ≠ [] ∧ (phase.outlook env outside client server).nDue = nDue
  := by
  obtain ⟨done, errand, rest, held⟩ := phase
  obtain ⟨-, -, herrand⟩ := h
  cases errand with
  | fetching flight requested queued more nDue' =>
    cases flight with
    | nil =>
      cases requested with
      | nil =>
        obtain rfl := Helper.clientSends.inj hhelper
        exact ⟨herrand.1, rfl⟩
      | cons chunk requested => cases hhelper
    | cons b flight => cases hhelper
  | tipQueued nDue' =>
    obtain rfl := Helper.clientSends.inj hhelper
    obtain ⟨tip, rfl⟩ := Option.ne_none_iff_exists'.mp herrand
    exact ⟨List.cons_ne_nil _ _, rfl⟩
  | _ => cases hhelper

/-! ## The steps of a run -/

/-- After a step, the state is in the same phase or has left it, and the rank is lower or the step did not help. -/
def Goes (env : Env) (outside : Outside) (client server : Node) (blocks : List ReceivedBlock) (phase : Phase)
    (s : BlockSync) (a : Action) (phase' : Phase) (s' : BlockSync) : Prop :=
  Describes env outside client server blocks phase' s' ∧ Transition.Advances rank Helps phase s a phase' s'
    ∧ ∃ more, phase'.done = phase.done ++ more

theorem Leaves.goes
    {s' : BlockSync} (h : Leaves env outside client server blocks phase s') (a : Action) :
  ∃ phase', Goes env outside client server blocks phase s a phase' s'
  := by
  obtain ⟨phase', hdescribes, hlt, hmore⟩ := h
  exact ⟨phase', hdescribes, .inl (Prod.Lex.toLex_lt_toLex.mpr (.inl hlt)), hmore⟩

/-- The phase stays, and the message to wait for is nearer or as far. -/
theorem goes_same
    {s' : BlockSync} {a : Action} (hok : phase.Ok blocks)
    (hshows : Shows env outside client server (phase.outlook env outside client server) s')
    (h : phase.errand.helper.distance s' < phase.errand.helper.distance s
      ∨ phase.errand.helper.distance s' = phase.errand.helper.distance s ∧ ¬Helps phase a) :
  ∃ phase', Goes env outside client server blocks phase s a phase' s'
  := by
  refine ⟨phase, ⟨hok, hshows⟩, ?_, [], (List.append_nil _).symm⟩
  rcases h with hlt | ⟨heq, hnot⟩
  · exact .inl (Prod.Lex.toLex_lt_toLex.mpr (.inr ⟨rfl, hlt⟩))
  · exact .inr ⟨rfl, by rw [rank, rank, heq], hnot⟩

/-- What is not yet announced is not yet accepted. -/
theorem Phase.Ok.unannounced (h : phase.Ok blocks) :
  ∃ post, blocks = (phase.outlook env outside client server).done ++ post
    ∧ ∀ b ∈ (phase.outlook env outside client server).unannounced, b ∈ post
  := by
  obtain ⟨done, errand, rest, held⟩ := phase
  refine ⟨errand.blocks ++ (rest ++ held.toList), ?_, ?_⟩
  · have hdone : (Phase.outlook env outside client server ⟨done, errand, rest, held⟩).done = done := by
      cases errand <;> rfl
    rw [hdone]
    exact h.blocks_eq
  · rw [← List.append_assoc]
    intro b hb
    apply List.mem_append_left
    cases errand with
    | announcing batch more => exact hb
    | _ => exact List.mem_append_right _ hb

/-- Messages behind the offer that the client is to receive do not delay it. -/
theorem Describes.ahead_offers
    {s' : BlockSync} {messages : List BlockMessage} (h : Describes env outside client server blocks phase s)
    (hhelper : phase.errand.helper = .clientReceives) (htoClient : s'.toClient = s.toClient ++ messages) :
  ahead BlockMessage.isOffer s'.toClient = ahead BlockMessage.isOffer s.toClient
  := by
  rw [htoClient]
  apply ahead_append
  rw [h.shows.offers]
  exact h.ok.offers_ne_nil hhelper

theorem Describes.ahead_requests
    {s' : BlockSync} {messages : List BlockMessage} (h : Describes env outside client server blocks phase s)
    (hhelper : phase.errand.helper = .serverReceives) (htoServer : s'.toServer = s.toServer ++ messages) :
  ahead BlockMessage.isRequest s'.toServer = ahead BlockMessage.isRequest s.toServer
  := by
  rw [htoServer]
  apply ahead_append
  rw [h.shows.requests]
  exact Phase.requests_ne_nil hhelper

/-- The client receives a message. -/
theorem goes_client_receives
    (hbehind : Node.Behind env outside client server blocks) (h : Describes env outside client server blocks phase s)
    (rand : ℕ → uint256) (nTime : ℤ) :
  ∃ phase', Goes env outside client server blocks phase s (.receive .client rand nTime) phase'
    (step env outside s (.receive .client rand nTime))
  := by
  cases hnext : s.toClient with
  | nil =>
    have hsame : step env outside s (.receive .client rand nTime) = s := by
      rw [step, hnext]
    rw [hsame]
    apply goes_same h.ok h.shows
    right
    refine ⟨rfl, ?_⟩
    intro hhelps
    apply h.ok.offers_ne_nil (helps_receive_client.mp hhelps)
    rw [← h.shows.offers, hnext]
    rfl
  | cons message toClient =>
    cases hmain : message.isOffer with
    | false =>
      obtain ⟨post, hblocks, -⟩ := @Phase.Ok.unannounced env outside client server _ _ h.ok
      obtain ⟨hshows, htoServer, htoClient⟩ := h.shows.client_noise hbehind hblocks hnext hmain rand nTime
      apply goes_same h.ok hshows
      by_cases hhelper : phase.errand.helper = .clientReceives
      · left
        rw [hhelper, Helper.distance, Helper.distance, htoClient, hnext, ahead_cons hmain]
        exact Nat.lt_succ_self _
      · right
        refine ⟨Helper.distance_eq (fun heq => absurd heq hhelper) (fun _ => by rw [htoServer]), ?_⟩
        exact fun hhelps => hhelper (helps_receive_client.mp hhelps)
    | true =>
      obtain ⟨done, errand, rest, held⟩ := phase
      apply Leaves.goes
      cases errand with
      | announced batch more => exact leaves_announced hbehind h hnext hmain rand nTime
      | fetching flight requested queued more nDue => exact leaves_fetching_client hbehind h hnext hmain rand nTime
      | trailing flight =>
        cases flight with
        | nil => exact leaves_trailing hbehind h hnext hmain rand nTime
        | cons b flight => exact leaves_trailing_block hbehind h hnext hmain rand nTime
      | tipSent => exact leaves_tipSent hbehind h hnext hmain rand nTime
      | _ => cases h.shows.next_offer hnext hmain

/-- The server receives a message. -/
theorem goes_server_receives
    (hbehind : Node.Behind env outside client server blocks) (h : Describes env outside client server blocks phase s)
    (rand : ℕ → uint256) (nTime : ℤ) :
  ∃ phase', Goes env outside client server blocks phase s (.receive .server rand nTime) phase'
    (step env outside s (.receive .server rand nTime))
  := by
  cases hnext : s.toServer with
  | nil =>
    have hsame : step env outside s (.receive .server rand nTime) = s := by
      rw [step, hnext]
    rw [hsame]
    apply goes_same h.ok h.shows
    right
    refine ⟨rfl, ?_⟩
    intro hhelps
    apply @Phase.requests_ne_nil env outside client server _ (helps_receive_server.mp hhelps)
    rw [← h.shows.requests, hnext]
    rfl
  | cons message toServer =>
    cases hmain : message.isRequest with
    | false =>
      obtain ⟨post, hblocks, hunannounced⟩ := @Phase.Ok.unannounced env outside client server _ _ h.ok
      obtain ⟨hshows, htoServer, messages, htoClient⟩ :=
        h.shows.server_noise hbehind hblocks hunannounced hnext hmain rand nTime
      apply goes_same h.ok hshows
      by_cases hhelper : phase.errand.helper = .serverReceives
      · left
        rw [hhelper, Helper.distance, Helper.distance, htoServer, hnext, ahead_cons hmain]
        exact Nat.lt_succ_self _
      · right
        refine ⟨Helper.distance_eq ?_ (fun heq => absurd heq hhelper), ?_⟩
        · exact fun heq => h.ahead_offers heq htoClient
        · exact fun hhelps => hhelper (helps_receive_server.mp hhelps)
    | true =>
      obtain ⟨done, errand, rest, held⟩ := phase
      apply Leaves.goes
      cases errand with
      | asking => exact leaves_asking hbehind h hnext hmain rand nTime
      | fetching flight requested queued more nDue => exact leaves_fetching_server hbehind h hnext hmain rand nTime
      | tipRequested => exact leaves_tipRequested hbehind h hnext hmain rand nTime
      | _ => cases h.shows.next_request hnext hmain

/-- The server has nothing to announce. -/
theorem goes_server_quiet
    (hbehind : Node.Behind env outside client server blocks) (h : Describes env outside client server blocks phase s)
    (htodo : (phase.outlook env outside client server).todo = []) (hhelper : phase.errand.helper ≠ .serverSends)
    (context : TrickleContext) (fSendTrickle : Bool) (nTime : ℤ) :
  ∃ phase', Goes env outside client server blocks phase s (.send .server context fSendTrickle nTime) phase'
    (step env outside s (.send .server context fSendTrickle nTime))
  := by
  obtain ⟨post, hblocks, hunannounced⟩ := @Phase.Ok.unannounced env outside client server _ _ h.ok
  have hshort : (phase.outlook env outside client server).todo.length < 1000 := by
    rw [htodo]
    decide
  have hnodup : ((phase.outlook env outside client server).unannounced.map (·.hash env)).Nodup := by
    obtain ⟨done, errand, rest, held⟩ := phase
    have hwhole := h.ok.nodup hbehind
    rw [List.map_append] at hwhole
    cases errand with
    | announcing batch more => exact absurd rfl hhelper
    | _ => exact hwhole.of_append_right
  have hsplit : (phase.outlook env outside client server).unannounced
      = (phase.outlook env outside client server).todo ++ (phase.outlook env outside client server).unannounced := by
    rw [htodo, List.nil_append]
  obtain ⟨hsent, htoServer, messages, htoClient⟩ :=
    h.shows.server_sends hsplit hnodup hshort context fSendTrickle nTime
  rw [if_pos htodo, List.append_nil] at hsent
  have hshows : Shows env outside client server (phase.outlook env outside client server)
      (step env outside s (.send .server context fSendTrickle nTime)) := by
    convert hsent using 1
    rw [← htodo]
  apply goes_same h.ok hshows
  right
  refine ⟨Helper.distance_eq ?_ (fun _ => by rw [htoServer]), ?_⟩
  · exact fun heq => h.ahead_offers heq htoClient
  · exact fun hhelps => hhelper (helps_send_server.mp hhelps)

theorem goes_server_sends
    (hbehind : Node.Behind env outside client server blocks) (h : Describes env outside client server blocks phase s)
    (context : TrickleContext) (fSendTrickle : Bool) (nTime : ℤ) :
  ∃ phase', Goes env outside client server blocks phase s (.send .server context fSendTrickle nTime) phase'
    (step env outside s (.send .server context fSendTrickle nTime))
  := by
  obtain ⟨done, errand, rest, held⟩ := phase
  cases errand with
  | announcing batch more => exact (leaves_announcing hbehind h context fSendTrickle nTime).goes _
  | fetching flight requested queued more nDue =>
    apply goes_server_quiet hbehind h rfl
    cases flight with
    | nil => cases requested <;> exact fun hcontra => by cases hcontra
    | cons b flight => exact fun hcontra => by cases hcontra
  | _ => exact goes_server_quiet hbehind h rfl (fun hcontra => by cases hcontra) context fSendTrickle nTime

/-- What the client is to ask for is missing, and is not on its way. -/
theorem Phase.Ok.queue
    (hbehind : Node.Behind env outside client server blocks) (h : phase.Ok blocks) :
  let o := phase.outlook env outside client server
  ∃ post, blocks = o.done ++ post ∧ (∀ b ∈ o.queue, b ∈ post ∧ ∀ tip, o.pool = some tip → tip.hash env ≠ b.hash env)
    ∧ ∀ b ∈ o.queue, ∀ b' ∈ o.unasked, b.hash env ≠ b'.hash env
  := by
  intro o
  obtain ⟨done, errand, rest, held⟩ := phase
  have hnodup := h.nodup_all hbehind
  have hheld := fun b tip hb htip => @Phase.Ok.held_ne _ _ _ _ _ _ hbehind h b tip hb htip
  refine ⟨errand.blocks ++ (rest ++ held.toList), ?_, ?_⟩
  · have hdone : o.done = done := by
      cases errand <;> rfl
    rw [hdone]
    exact h.blocks_eq
  · cases errand with
    | fetching flight requested queued more nDue =>
      have hmem : ∀ b ∈ queued, b ∈ (Errand.fetching flight requested queued more nDue).blocks :=
        fun b hb => List.mem_append_right _ (List.mem_append_right _ hb)
      refine ⟨?_, ?_⟩
      · intro b hb
        exact ⟨List.mem_append_left _ (hmem b hb),
          fun tip htip => hheld b tip (List.mem_append_left _ (hmem b hb)) htip⟩
      · intro b hb b' hb'
        rw [List.map_append, List.map_append] at hnodup
        exact (List.nodup_append.mp hnodup.of_append_left).2.2 _ (List.mem_map_of_mem (hmem b hb)) _
          (List.mem_map_of_mem hb')
    | tipQueued nDue =>
      refine ⟨?_, ?_⟩
      · intro b hb
        exact ⟨List.mem_append_right _ (List.mem_append_right _ hb),
          fun tip hnone => absurd hnone (Option.some_ne_none tip).symm⟩
      · intro b hb b' hb'
        rw [List.map_append] at hnodup
        intro heq
        exact (List.nodup_append.mp hnodup).2.2 _ (List.mem_map_of_mem (List.mem_append_right _ hb')) _
          (List.mem_map_of_mem hb) heq.symm
    | _ => exact ⟨fun b hb => absurd hb List.not_mem_nil, fun b hb => absurd hb List.not_mem_nil⟩

theorem goes_client_sends
    (hbehind : Node.Behind env outside client server blocks) (h : Describes env outside client server blocks phase s)
    (context : TrickleContext) (fSendTrickle : Bool) (nTime : ℤ) :
  ∃ phase', Goes env outside client server blocks phase s (.send .client context fSendTrickle nTime) phase'
    (step env outside s (.send .client context fSendTrickle nTime))
  := by
  obtain ⟨post, hblocks, hqueue, hunasked⟩ := @Phase.Ok.queue env outside client server _ _ hbehind h.ok
  obtain ⟨asked, left, hsplit, hchunks, hshows, hdue, htoClient, messages, htoServer⟩ :=
    h.shows.client_sends hbehind hblocks hqueue hunasked context fSendTrickle nTime
  by_cases hasked : asked = []
  · subst hasked
    have hleft : left = (phase.outlook env outside client server).queue := hsplit.symm
    rw [hleft, List.map_nil, List.append_nil] at hshows
    apply goes_same h.ok hshows
    right
    refine ⟨Helper.distance_eq (fun _ => by rw [htoClient]) (fun heq => h.ahead_requests heq htoServer), ?_⟩
    intro hhelps
    obtain ⟨nDue, hhelper, hle⟩ := helps_send_client.mp hhelps
    obtain ⟨hne, hnDue⟩ := @Phase.Ok.queue_of_clientSends env outside client server _ _ _ h.ok hhelper
    rw [hnDue] at hdue
    exact hne (hleft.symm.trans (hdue hle))
  · have hnotNil : asked.flatten ≠ [] := fun hnil => hasked (eq_nil_of_flatten hchunks hnil)
    have hsome : (phase.outlook env outside client server).queue ≠ [] := by
      rw [hsplit]
      exact List.append_ne_nil_of_left_ne_nil hnotNil _
    obtain ⟨done, errand, rest, held⟩ := phase
    apply Leaves.goes
    cases errand with
    | fetching flight requested queued more nDue =>
      apply leaves_fetching_sends h.ok hsplit hchunks hasked
      rw [List.map_append]
      exact hshows
    | tipQueued nDue => exact leaves_tipQueued h.ok hsplit hchunks hasked hshows
    | _ => exact absurd rfl hsome

/-- Each step of the two nodes. -/
theorem goes_step
    (hbehind : Node.Behind env outside client server blocks) (phase : Phase) (s : BlockSync) (a : Action)
    (h : Describes env outside client server blocks phase s) :
  ∃ phase', Goes env outside client server blocks phase s a phase' (step env outside s a)
  := by
  cases a with
  | receive side rand nTime =>
    cases side with
    | client => exact goes_client_receives hbehind h rand nTime
    | server => exact goes_server_receives hbehind h rand nTime
  | send side context fSendTrickle nTime =>
    cases side with
    | client => exact goes_client_sends hbehind h context fSendTrickle nTime
    | server => exact goes_server_sends hbehind h context fSendTrickle nTime

/-! ## Whole runs -/

/-- Both nodes go on receiving, the server goes on sending, and the client sends at ever later times. -/
structure Fair (schedule : ℕ → Action) : Prop where
  receives : ∀ side n, ∃ m, n ≤ m ∧ ∃ rand nTime, schedule m = .receive side rand nTime
  server_sends : ∀ n, ∃ m, n ≤ m ∧ ∃ context fSendTrickle nTime, schedule m = .send .server context fSendTrickle nTime
  client_sends : ∀ n t, ∃ m, n ≤ m ∧ ∃ context fSendTrickle nTime, t ≤ nTime
    ∧ schedule m = .send .client context fSendTrickle nTime

def Phase.Final (phase : Phase) : Prop := phase.errand = .finished

/-- Under a fair schedule each phase gets its help. -/
theorem Fair.helps
    {schedule : ℕ → Action} (h : Fair schedule) (phase : Phase) (n : ℕ) (hfinal : ¬phase.Final) :
  ∃ m, n ≤ m ∧ Helps phase (schedule m)
  := by
  cases hhelper : phase.errand.helper with
  | clientReceives =>
    obtain ⟨m, hle, rand, nTime, heq⟩ := h.receives .client n
    refine ⟨m, hle, ?_⟩
    rw [heq]
    exact helps_receive_client.mpr hhelper
  | serverReceives =>
    obtain ⟨m, hle, rand, nTime, heq⟩ := h.receives .server n
    refine ⟨m, hle, ?_⟩
    rw [heq]
    exact helps_receive_server.mpr hhelper
  | clientSends nDue =>
    obtain ⟨m, hle, context, fSendTrickle, nTime, hlate, heq⟩ := h.client_sends n |nDue|
    refine ⟨m, hle, ?_⟩
    rw [heq]
    apply helps_send_client.mpr ⟨nDue, hhelper, ?_⟩
    have hdue := le_abs_self nDue
    have hpos := abs_nonneg nDue
    omega
  | serverSends =>
    obtain ⟨m, hle, context, fSendTrickle, nTime, heq⟩ := h.server_sends n
    refine ⟨m, hle, ?_⟩
    rw [heq]
    exact helps_send_server.mpr hhelper
  | none =>
    exfalso
    apply hfinal
    obtain ⟨done, errand, rest, held⟩ := phase
    cases errand with
    | finished => rfl
    | fetching flight requested queued more nDue =>
      cases flight with
      | nil => cases requested <;> cases hhelper
      | cons b flight => cases hhelper
    | _ => cases hhelper

/-- A finished download has nothing left to do. -/
theorem not_lt_rank_of_final (phase : Phase) (s : BlockSync) (w : ℕ ×ₗ ℕ) (hfinal : phase.Final) :
  ¬w < rank phase s
  := by
  obtain ⟨done, errand, rest, held⟩ := phase
  obtain rfl : errand = .finished := hfinal
  intro hlt
  rcases Prod.Lex.toLex_lt_toLex.mp hlt with hlt | ⟨-, hlt⟩
  · exact Nat.not_lt_zero _ hlt
  · exact Nat.not_lt_zero _ hlt

/-- The client asks when the two nodes connect. -/
theorem describes_connect
    (hbehind : Node.Behind env outside client server blocks) (clientHeap serverHeap : BlockPtr → HeapBlock)
    (clientSize serverSize : ℕ) (clientHeight serverHeight : ℤ) (fServerAsks : Bool) :
  Describes env outside client server blocks ⟨[], .asking, blocks, none⟩
    (connect env (connected client clientHeap clientSize serverHeight)
      (connected server serverHeap serverSize clientHeight) fServerAsks)
  := by
  obtain ⟨p, hp⟩ := hbehind.caughtUp [] blocks rfl
  have hbest : client.pindexBest = some p := hp.tip.pindexBest
  have hasks : (connected client clientHeap clientSize serverHeight).pushGetBlocks env client.pindexBest 0
      = ({ connected client clientHeap clientSize serverHeight with
            pindexLastGetBlocksBegin := some p, hashLastGetBlocksEnd := 0 },
          [.getblocks (locatorOf env (some p)) 0]) := by
    rw [hbest, pushGetBlocks, if_neg]
    exact fun hsame => absurd hsame.1 (by simp [connected])
  have hserver : ∀ self : Endpoint, self.node = server → self.orphans = OrphanBlocks.empty →
      self.requests = RequestState.initial → self.announcer = Announcer.connected serverSize → self.hashContinue = 0 →
      ServerIs env server [] 0 blocks self := by
    intro self hnode horphans hrequests hannouncer hcontinue
    refine ⟨hnode, ?_, ?_, ?_, hcontinue, ?_⟩
    · intro hash
      rw [horphans]
      exact Std.ExtTreeMap.getElem?_empty
    · rw [hrequests]
      rfl
    · rw [hannouncer]
      rfl
    · intro b _
      rw [hannouncer, Announcer.connected, mruset.ofSize_eq]
      have hempty : (∅ : Std.ExtTreeSet CInv CInv.cmp).contains (blockInv env b) = false :=
        Std.ExtTreeSet.contains_empty
      exact hempty
  have hclient : (Phase.outlook env outside client server ⟨[], .asking, blocks, none⟩).Client env outside client
      { connected client clientHeap clientSize serverHeight with
        pindexLastGetBlocksBegin := some p, hashLastGetBlocksEnd := 0 } := by
    refine ⟨rfl, ⟨rfl, rfl, rfl⟩, fun entry hentry => absurd hentry List.not_mem_nil, rfl,
      fun entry hentry => absurd hentry List.not_mem_nil, ?_, fun inv hinv => absurd hinv List.not_mem_nil, ?_⟩
    · exact fun b _ => Std.ExtTreeMap.getElem?_empty
    · exact ⟨[], [], p, rfl, False.elim, hp, rfl⟩
  have hrequests : (Phase.outlook env outside client server ⟨[], .asking, blocks, none⟩).requests
      = [.getblocks (locatorOf env (some p)) 0] := by
    rw [Phase.outlook]
    dsimp only
    rw [hp.tip.pindexBest]
    rfl
  refine ⟨⟨?_, fun hnone => absurd rfl hnone, trivial⟩, ?_⟩
  · exact (List.append_nil _).symm
  · rw [connect]
    have hnode : (connected client clientHeap clientSize serverHeight).node.pindexBest = client.pindexBest := rfl
    rw [hnode, hasks]
    dsimp only
    cases fServerAsks with
    | false =>
      refine ⟨hclient, hserver _ rfl rfl rfl rfl rfl, ?_, rfl, ?_, fun m hm => absurd hm List.not_mem_nil⟩
      · rw [hrequests]
        rfl
      · exact List.forall_mem_singleton.mpr (.of_isRequest rfl)
    | true =>
      refine ⟨hclient, ?_, ?_, ?_, ?_, ?_⟩
      · dsimp only
        rw [if_pos rfl, pushGetBlocks_fst]
        exact hserver _ rfl rfl rfl rfl rfl
      · rw [hrequests]
        rfl
      · exact filter_isOffer_getBlocks isGetBlocks_of_mem_pushGetBlocks
      · exact List.forall_mem_singleton.mpr (.of_isRequest rfl)
      · exact fun m hm _ => isGetBlocks_of_mem_pushGetBlocks m hm

/-- What the client has in a phase. -/
theorem Describes.node (h : Describes env outside client server blocks phase s) :
  s.client.node = client.catchUp env outside phase.done ∧ s.server.node = server
    ∧ phase.done = blocks.take phase.done.length
  := by
  obtain ⟨done, errand, rest, held⟩ := phase
  have hclient := h.shows.clientIs.node
  have hdone : (Phase.outlook env outside client server ⟨done, errand, rest, held⟩).done = done := by
    cases errand <;> rfl
  rw [hdone] at hclient
  refine ⟨hclient, h.shows.serverIs.node, ?_⟩
  rw [h.ok.blocks_eq, List.take_left]

theorem Phase.Ok.done_eq (h : phase.Ok blocks) (hfinal : phase.Final) : phase.done = blocks
  := by
  obtain ⟨done, errand, rest, held⟩ := phase
  obtain rfl : errand = .finished := hfinal
  obtain ⟨hblocks, -, rfl, rfl⟩ := h
  rw [hblocks]
  exact (List.append_nil _).symm

/-- **The download of blocks**: whatever the order of the steps, the client has accepted the first of the
missing blocks, and never goes back.  When both nodes go on, it ends up with all of them, and with the tip of
the server. -/
theorem blocks_downloaded
    (hbehind : Node.Behind env outside client server blocks) (clientHeap serverHeap : BlockPtr → HeapBlock)
    (clientSize serverSize : ℕ) (clientHeight serverHeight : ℤ) (fServerAsks : Bool) (schedule : ℕ → Action) :
  let s := connect env (connected client clientHeap clientSize serverHeight)
    (connected server serverHeap serverSize clientHeight) fServerAsks
  let state := Transition.stateAt (step env outside) s schedule
  (∃ count : ℕ → ℕ, Monotone count ∧ ∀ n,
      (state n).client.node = client.catchUp env outside (blocks.take (count n)) ∧ (state n).server.node = server)
    ∧ (Fair schedule → ∃ n, ∀ m, n ≤ m →
      (state m).client.node = client.catchUp env outside blocks
        ∧ (state m).client.node.hashBestChain = server.hashBestChain)
  := by
  intro s state
  obtain ⟨f, -, hf⟩ := Transition.exists_descriptions (goes_step hbehind)
    (describes_connect hbehind clientHeap serverHeap clientSize serverSize clientHeight serverHeight fServerAsks)
    schedule
  constructor
  · refine ⟨fun n => (f n).done.length, ?_, ?_⟩
    · apply monotone_nat_of_le_succ
      intro n
      obtain ⟨more, hmore⟩ := (hf n).2.2
      rw [hmore, List.length_append]
      exact Nat.le_add_right _ _
    · intro n
      obtain ⟨hclient, hserver, htake⟩ := (hf n).1.node
      rw [← htake]
      exact ⟨hclient, hserver⟩
  · intro hfair
    obtain ⟨n, hn⟩ := Transition.eventually_final (fun n => (hf n).2.1) hfair.helps not_lt_rank_of_final
    refine ⟨n, ?_⟩
    intro m hm
    obtain ⟨hclient, -, -⟩ := (hf m).1.node
    rw [(hf m).1.ok.done_eq (hn m hm)] at hclient
    refine ⟨hclient, ?_⟩
    obtain ⟨p, hp⟩ := hbehind.caughtUp blocks [] (List.append_nil _).symm
    rw [hclient, hp.tip.hashBestChain]
    exact Option.some.inj (hp.head.symm.trans (head_hashBestChain hbehind))

end Phases

/-! ## Two blocks to download -/

def sampleOutside : Outside where
  io := fun _ => Node.sampleIo
  failedRead := fun _ => Node.lowBlock.onHeap

def sampleBlocks : List ReceivedBlock := [Node.lowBlock, Node.middleBlock]

def sampleTrickle : TrickleContext := ⟨sampleCrypto, 0, fun _ => false⟩

/-- The sides take turns, and the clock goes on. -/
def takeTurns (n : ℕ) : Action :=
  match n % 4 with
  | 0 => .receive .server (fun _ => 0) n
  | 1 => .send .server sampleTrickle true n
  | 2 => .receive .client (fun _ => 0) n
  | _ => .send .client sampleTrickle true n

theorem fair_takeTurns : Fair takeTurns
  := by
  have hturn : ∀ n k, k < 4 → (4 * n + k) % 4 = k := by
    intro n k hk
    omega
  refine ⟨?_, ?_, ?_⟩
  · intro side n
    cases side with
    | client =>
      refine ⟨4 * n + 2, by omega, fun _ => 0, (4 * n + 2 : ℕ), ?_⟩
      rw [takeTurns, hturn n 2 (by decide)]
      rfl
    | server =>
      refine ⟨4 * n + 0, by omega, fun _ => 0, (4 * n + 0 : ℕ), ?_⟩
      rw [takeTurns, hturn n 0 (by decide)]
      rfl
  · intro n
    refine ⟨4 * n + 1, by omega, sampleTrickle, true, (4 * n + 1 : ℕ), ?_⟩
    rw [takeTurns, hturn n 1 (by decide)]
    rfl
  · intro n t
    refine ⟨4 * (n + t.toNat) + 3, by omega, sampleTrickle, true, (4 * (n + t.toNat) + 3 : ℕ), by omega, ?_⟩
    rw [takeTurns, hturn _ 3 (by decide)]
    rfl

/-- What is to be evaluated of a client and a server that has two blocks more. -/
def sampleChecks (start : Node) : Bool :=
  let node (blocks : List ReceivedBlock) := start.catchUp sampleEnv sampleOutside blocks
  let takes (node : Node) (b : ReceivedBlock) : Bool :=
    let io := sampleOutside.io (b.hash sampleEnv)
    b.block.checkBlock sampleEnv io.nCheckTime && (node.acceptBlock sampleEnv io b.block).2
      && (node.acceptBlock sampleEnv io b.block).1.hashBestChain == b.hash sampleEnv
  let stored (b : ReceivedBlock) : Bool :=
    match (node sampleBlocks).mapBlockIndex[b.hash sampleEnv]? with
    | none => true
    | some p => (node sampleBlocks).files.readFromDisk sampleEnv p == some b.block
  let hashes (node : Node) : List uint256 :=
    (node.pindexBest.map (fun best => best.chain.map CBlockIndex.getBlockHash)).getD []
  takes (node []) Node.lowBlock && takes (node [Node.lowBlock]) Node.middleBlock
    && (node []).extraChecks sampleEnv Node.middleBlock.block
    && (node [Node.lowBlock]).extraChecks sampleEnv Node.middleBlock.block
    && stored Node.lowBlock && stored Node.middleBlock
    && hashes (node sampleBlocks) == (sampleBlocks.map (·.hash sampleEnv)).reverse ++ hashes (node [])

theorem sampleChecks_load : (Node.load sampleEnv Node.sampleIo).map sampleChecks = some true
  := by decide +kernel

theorem sample_behind
    {start : Node} (hload : Node.load sampleEnv Node.sampleIo = some start) :
  Node.Behind sampleEnv sampleOutside start (start.catchUp sampleEnv sampleOutside sampleBlocks) sampleBlocks
  := by
  have hchecks : sampleChecks start = true := by
    have heval := sampleChecks_load
    rw [hload] at heval
    exact Option.some.inj heval
  rw [sampleChecks] at hchecks
  simp only [Bool.and_eq_true, beq_iff_eq] at hchecks
  obtain ⟨⟨⟨⟨⟨⟨hlow, hmiddle⟩, hearly⟩, hlate⟩, hlowStored⟩, hmiddleStored⟩, hhashes⟩ := hchecks
  have hlowTakes : (start.catchUp sampleEnv sampleOutside []).Takes sampleEnv sampleOutside Node.lowBlock :=
    ⟨hlow.1.1, hlow.1.2, hlow.2⟩
  have hmiddleTakes : (start.catchUp sampleEnv sampleOutside [Node.lowBlock]).Takes sampleEnv sampleOutside
      Node.middleBlock := ⟨hmiddle.1.1, hmiddle.1.2, hmiddle.2⟩
  have hindexed : ∀ pre, (start.catchUp sampleEnv sampleOutside pre).Indexed sampleEnv :=
    fun pre => Node.indexed_run hload _
  have hconcat := Node.catchUp_concat sampleEnv sampleOutside start [] Node.lowBlock
  have hnext : ((start.catchUp sampleEnv sampleOutside []).step sampleEnv
      (.accept (sampleOutside.io (Node.lowBlock.hash sampleEnv)) Node.lowBlock)).hashBestChain
      = Node.lowBlock.hash sampleEnv := by
    rw [Node.step_of_takes hlowTakes]
    exact hlowTakes.tip
  have hsecond : ((start.catchUp sampleEnv sampleOutside []).step sampleEnv
      (.accept (sampleOutside.io (Node.lowBlock.hash sampleEnv)) Node.lowBlock)).OpOk sampleEnv
      (.accept (sampleOutside.io (Node.middleBlock.hash sampleEnv)) Node.middleBlock) := by
    obtain ⟨best, htip, hbest⟩ := (hindexed ([] ++ [Node.lowBlock])).tip
    rw [hconcat] at htip hbest
    apply Node.opOk_next htip hbest
    rw [hnext, Node.middleBlock]
    rfl
  have halong : Transition.Along (Node.step sampleEnv) (Node.OpOk sampleEnv) start
      (sampleBlocks.map (fun b => .accept (sampleOutside.io (b.hash sampleEnv)) b)) :=
    ⟨(Node.along_lowBlock hload).1, hsecond, trivial⟩
  refine ⟨hindexed [], Node.mainChain_run hload [] False.elim, hindexed sampleBlocks,
    Node.mainChain_run hload _ (fun _ => halong), ?_, ?_, ?_, ?_, ?_⟩
  · obtain ⟨tip, htip, -⟩ := (hindexed []).tip
    obtain ⟨best, hbest, -⟩ := (hindexed sampleBlocks).tip
    rw [hbest.pindexBest, htip.pindexBest] at hhashes
    exact ⟨tip, best, htip.pindexBest, hbest.pindexBest, hhashes⟩
  · intro b hb p hp
    rcases List.mem_pair.mp hb with rfl | rfl
    · rw [hp] at hlowStored
      exact beq_iff_eq.mp hlowStored
    · rw [hp] at hmiddleStored
      exact beq_iff_eq.mp hmiddleStored
  · intro pre b post hblocks
    rcases pre with - | ⟨b₁, - | ⟨b₂, pre⟩⟩
    · obtain ⟨rfl, -⟩ := List.cons.inj hblocks
      exact hlowTakes
    · obtain ⟨rfl, hrest⟩ := List.cons.inj hblocks
      obtain ⟨rfl, -⟩ := List.cons.inj hrest
      exact hmiddleTakes
    · exact absurd (congrArg List.length hblocks) (by simp [sampleBlocks])
  · intro pre b hblocks pre' post hpre
    have hpair : [Node.lowBlock] ++ [Node.middleBlock] = pre ++ [b] := hblocks
    obtain ⟨rfl, hlast⟩ := List.append_inj' hpair rfl
    obtain ⟨rfl, -⟩ := List.cons.inj hlast
    rcases pre' with - | ⟨b₁, pre'⟩
    · exact hearly
    · obtain ⟨rfl, hnil⟩ := List.cons.inj hpre
      obtain ⟨rfl, -⟩ := List.append_eq_nil_iff.mp hnil.symm
      exact hlate
  · intro b hb
    rcases List.mem_pair.mp hb with rfl | rfl
    · decide +kernel
    · decide +kernel

/-- A node that has just started downloads two blocks. -/
theorem sample_downloaded :
  ∃ start, Node.load sampleEnv Node.sampleIo = some start ∧
    let server := start.catchUp sampleEnv sampleOutside sampleBlocks
    let s := connect sampleEnv (connected start (fun _ => Node.lowBlock.onHeap) 1000 2)
      (connected server (fun _ => Node.lowBlock.onHeap) 1000 0) true
    ∃ n, ∀ m, n ≤ m →
      (Transition.stateAt (step sampleEnv sampleOutside) s takeTurns m).client.node.hashBestChain
        = server.hashBestChain
  := by
  obtain ⟨start, hload⟩ := Option.isSome_iff_exists.mp
    (show (Node.load sampleEnv Node.sampleIo).isSome = true by decide +kernel)
  refine ⟨start, hload, ?_⟩
  obtain ⟨n, hn⟩ := (blocks_downloaded (sample_behind hload) (fun _ => Node.lowBlock.onHeap)
    (fun _ => Node.lowBlock.onHeap) 1000 1000 0 2 true takeTurns).2 fair_takeTurns
  exact ⟨n, fun m hm => (hn m hm).2⟩

end BlockSync

end CorgiCoin
