import CorgiCoin.CatchUp

/-!
# What the server does

The steps of the node that has the blocks while another node downloads them: it announces what follows the
tip of the other, sends what it is asked for, and announces its tip after the last block of a batch.
-/

namespace CorgiCoin

open Std

/-! ## Announcements -/

namespace Announcer

theorem contains_insert {m : mruset CInv CInv.cmp} {x y : CInv} (h : (m.insert x).1.set.contains y = true) :
  m.set.contains y = true ∨ y = x
  := by
  have hinsert : ∀ set : ExtTreeSet CInv CInv.cmp, (set.insert x).contains y = true →
      set.contains y = true ∨ y = x := by
    intro set hset
    rw [ExtTreeSet.contains_insert, Bool.or_eq_true, beq_iff_eq, LawfulEqCmp.compare_eq_iff_eq] at hset
    exact hset.symm.imp_right Eq.symm
  rw [mruset.insert] at h
  by_cases hin : m.set.contains x = true
  · rw [if_pos hin] at h
    exact .inl h
  · rw [if_neg hin] at h
    cases hqueue : m.queue with
    | nil =>
      rw [hqueue] at h
      exact hinsert _ h
    | cons front queue =>
      rw [hqueue] at h
      dsimp only at h
      split_ifs at h
      · rw [ExtTreeSet.contains_erase, Bool.and_eq_true] at h
        exact hinsert _ h.2
      · exact hinsert _ h

theorem insert_new {m : mruset CInv CInv.cmp} {x : CInv} (h : m.set.contains x = false) :
  (m.insert x).2 = true
  := by
  rw [mruset.insert, if_neg (by rw [h]; exact Bool.false_ne_true)]
  split
  · split_ifs <;> rfl
  · rfl

/-- Entries that are not known and do not wait are announced in one message. -/
theorem announceLoop_all
    {wait : CInv → Bool} {invs : List CInv} {known : mruset CInv CInv.cmp} {vInv : List CInv} (vInvWait : List CInv)
    (hwait : ∀ inv ∈ invs, wait inv = false) (hnew : ∀ inv ∈ invs, known.set.contains inv = false)
    (hnodup : invs.Nodup) (hshort : vInv.length + invs.length < 1000) :
  ∃ known', announceLoop wait invs known vInv vInvWait = (known', vInv ++ invs, vInvWait, [])
    ∧ ∀ inv, known'.set.contains inv = true → known.set.contains inv = true ∨ inv ∈ invs
  := by
  induction invs generalizing known vInv with
  | nil =>
    refine ⟨known, ?_, fun _ h => .inl h⟩
    rw [announceLoop, List.append_nil]
  | cons inv invs ih =>
    obtain ⟨hfirst, hwaits⟩ := List.forall_mem_cons.mp hwait
    obtain ⟨hunknown, hunknowns⟩ := List.forall_mem_cons.mp hnew
    obtain ⟨hnot, hrest⟩ := List.nodup_cons.mp hnodup
    rw [List.length_cons] at hshort
    have hnew' : ∀ inv' ∈ invs, (known.insert inv).1.set.contains inv' = false := by
      intro inv' hinv'
      rw [← Bool.not_eq_true]
      intro hcontains
      rcases contains_insert hcontains with hcontains | rfl
      · rw [hunknowns inv' hinv'] at hcontains
        cases hcontains
      · exact hnot hinv'
    have hshort' : (vInv ++ [inv]).length + invs.length < 1000 := by
      rw [List.length_append, List.length_singleton]
      omega
    obtain ⟨known', hloop, hknown⟩ := ih hwaits hnew' hrest hshort'
    refine ⟨known', ?_, ?_⟩
    · have hfresh := insert_new hunknown
      rw [announceLoop, if_neg (by rw [hunknown]; exact Bool.false_ne_true),
        if_neg (by rw [hfirst]; exact Bool.false_ne_true)]
      rcases hinsert : known.insert inv with ⟨known'', fNew⟩
      rw [hinsert] at hfresh hloop
      dsimp only at hfresh hloop ⊢
      rw [if_pos hfresh, if_neg (by rw [List.length_append, List.length_singleton]; omega), hloop,
        List.append_assoc, List.singleton_append]
    · intro inv' hinv'
      rcases hknown inv' hinv' with hin | hin
      · rcases contains_insert hin with hin | rfl
        · exact .inl hin
        · exact .inr List.mem_cons_self
      · exact .inr (List.mem_cons_of_mem _ hin)

/-- What is announced, and what waits, was to be announced. -/
theorem announceLoop_subset
    (wait : CInv → Bool) (invs : List CInv) (known : mruset CInv CInv.cmp) (vInv vInvWait : List CInv)
    {P : CInv → Prop} (hinvs : ∀ inv ∈ invs, P inv) (hInv : ∀ inv ∈ vInv, P inv) (hWait : ∀ inv ∈ vInvWait, P inv) :
  let result := announceLoop wait invs known vInv vInvWait
  (∀ inv ∈ result.2.1, P inv) ∧ (∀ inv ∈ result.2.2.1, P inv) ∧ ∀ message ∈ result.2.2.2, ∀ inv ∈ message, P inv
  := by
  induction invs generalizing known vInv vInvWait with
  | nil => exact ⟨hInv, hWait, fun _ h => absurd h List.not_mem_nil⟩
  | cons inv invs ih =>
    obtain ⟨hfirst, hrest⟩ := List.forall_mem_cons.mp hinvs
    have hconcat : ∀ {l : List CInv}, (∀ inv ∈ l, P inv) → ∀ inv' ∈ l ++ [inv], P inv' := by
      intro l hl inv' hinv'
      rcases List.mem_append.mp hinv' with hinv' | hinv'
      · exact hl inv' hinv'
      · rw [List.mem_singleton.mp hinv']
        exact hfirst
    rw [announceLoop]
    split_ifs
    · exact ih known vInv vInvWait hrest hInv hWait
    · exact ih known vInv (vInvWait ++ [inv]) hrest hInv (hconcat hWait)
    · rcases known.insert inv with ⟨known', fNew⟩
      dsimp only
      split_ifs
      · obtain ⟨hleft, hwaits, hsent⟩ := ih known' [] vInvWait hrest (fun _ h => absurd h List.not_mem_nil) hWait
        refine ⟨hleft, hwaits, ?_⟩
        exact List.forall_mem_cons.mpr ⟨hconcat hInv, hsent⟩
      · exact ih known' (vInv ++ [inv]) vInvWait hrest (hconcat hInv) hWait
      · exact ih known' vInv vInvWait hrest hInv hWait

theorem wait_block (context : TrickleContext) (fSendTrickle : Bool) {inv : CInv} (h : inv.type = CInv.BLOCK) :
  context.wait fSendTrickle inv = false
  := by
  rw [TrickleContext.wait, if_neg]
  rw [h]
  exact fun hcontra => absurd hcontra.1 (by decide)

/-- Blocks that are not known are announced in one message. -/
theorem sendInventory_all
    (context : TrickleContext) (fSendTrickle : Bool) {node : Announcer}
    (hblocks : ∀ inv ∈ node.vInventoryToSend, inv.type = CInv.BLOCK)
    (hnew : ∀ inv ∈ node.vInventoryToSend, node.setInventoryKnown.set.contains inv = false)
    (hnodup : node.vInventoryToSend.Nodup) (hshort : node.vInventoryToSend.length < 1000) :
  ∃ known, sendInventory context fSendTrickle node
      = (⟨known, []⟩, if node.vInventoryToSend = [] then [] else [node.vInventoryToSend])
    ∧ ∀ inv, known.set.contains inv = true →
      node.setInventoryKnown.set.contains inv = true ∨ inv ∈ node.vInventoryToSend
  := by
  have hshort' : ([] : List CInv).length + node.vInventoryToSend.length < 1000 := by
    rw [List.length_nil]
    omega
  have hwait : ∀ inv ∈ node.vInventoryToSend, context.wait fSendTrickle inv = false :=
    fun inv hinv => wait_block context fSendTrickle (hblocks inv hinv)
  obtain ⟨known, hloop, hknown⟩ := announceLoop_all [] hwait hnew hnodup hshort'
  refine ⟨known, ?_, hknown⟩
  rw [sendInventory, hloop]
  cases node.vInventoryToSend with
  | nil => rfl
  | cons inv invs => rfl

theorem sendInventory_subset
    (context : TrickleContext) (fSendTrickle : Bool) {node : Announcer} {P : CInv → Prop}
    (h : ∀ inv ∈ node.vInventoryToSend, P inv) :
  (∀ inv ∈ (sendInventory context fSendTrickle node).1.vInventoryToSend, P inv)
    ∧ ∀ message ∈ (sendInventory context fSendTrickle node).2, ∀ inv ∈ message, P inv
  := by
  obtain ⟨hleft, hwaits, hsent⟩ := announceLoop_subset (context.wait fSendTrickle) node.vInventoryToSend
    node.setInventoryKnown [] [] h (fun _ h => absurd h List.not_mem_nil) (fun _ h => absurd h List.not_mem_nil)
  refine ⟨hwaits, ?_⟩
  rw [sendInventory]
  dsimp only
  split_ifs
  · exact hsent
  · intro message hmessage
    rcases List.mem_append.mp hmessage with hmessage | hmessage
    · exact hsent message hmessage
    · rw [List.mem_singleton.mp hmessage]
      exact hleft

end Announcer

/-! ## Blocks and their hashes -/

/-- The entry of an inventory for a block. -/
def blockInv (env : Env) (b : ReceivedBlock) : CInv := ⟨CInv.BLOCK, b.hash env⟩

/-- An entry for a block that the client has on its chain after some of the blocks. -/
def OldInv (env : Env) (client : Node) (done : List ReceivedBlock) (inv : CInv) : Prop :=
  inv.type = CInv.BLOCK ∧ inv.hash ∈ Node.chainHashes env client done

theorem OldInv.concat
    {env : Env} {client : Node} {done : List ReceivedBlock} {inv : CInv} (h : OldInv env client done inv)
    (b : ReceivedBlock) :
  OldInv env client (done ++ [b]) inv
  := by
  refine ⟨h.1, ?_⟩
  rw [Node.Behind.chainHashes_concat]
  exact List.mem_cons_of_mem _ h.2

theorem oldInv_last (env : Env) (client : Node) (done : List ReceivedBlock) (b : ReceivedBlock) :
  OldInv env client (done ++ [b]) (blockInv env b)
  := by
  refine ⟨rfl, ?_⟩
  rw [Node.Behind.chainHashes_concat]
  exact List.mem_cons_self

theorem onHeap_block (b : ReceivedBlock) : CBlock.onHeap b.block = some b.onHeap
  := by
  have hproof : isAuxPowVersion b.block.nVersion = true → b.block.auxpow.isSome = true := b.onHeap.proof_present
  rw [CBlock.onHeap, dif_pos hproof]
  rfl

namespace BlockMessage

/-- The messages that ask for something. -/
def isRequest : BlockMessage → Bool
  | getblocks _ _ | getdata _ => true
  | inv _ | block _ => false

def isGetBlocks : BlockMessage → Bool
  | getblocks _ _ => true
  | inv _ | getdata _ | block _ => false

/-- The messages that offer or bring something. -/
def isOffer : BlockMessage → Bool
  | inv _ | block _ => true
  | getblocks _ _ | getdata _ => false

end BlockMessage

namespace Endpoint

section Server

variable {env : Env} {outside : Outside} {client server : Node} {blocks : List ReceivedBlock}
variable {todo : List CInv} {hashContinue : uint256} {unannounced : List ReceivedBlock} {self : Endpoint}

/-- The server has announcements to make, is to announce its tip after a block, and has not announced
other blocks.  It asks for nothing. -/
structure ServerIs (env : Env) (server : Node) (todo : List CInv) (hashContinue : uint256)
    (unannounced : List ReceivedBlock) (e : Endpoint) : Prop where
  node : e.node = server
  orphans : ∀ hash : uint256, e.orphans.mapOrphanBlocks[hash]? = none
  queue : e.requests.mapAskFor 0 = []
  todo_eq : e.announcer.vInventoryToSend = todo
  continue_eq : e.hashContinue = hashContinue
  unknown : ∀ b ∈ unannounced, e.announcer.setInventoryKnown.set.contains (blockInv env b) = false

/-- A block that was not announced is added to the announcements. -/
theorem ServerIs.pushInventory
    (h : ServerIs env server todo hashContinue unannounced self) {b : ReceivedBlock} (hb : b ∈ unannounced) :
  ServerIs env server (todo ++ [blockInv env b]) hashContinue unannounced (self.pushInventory (blockInv env b))
  := by
  have hpush : self.announcer.pushInventory (blockInv env b) = { self.announcer with
      vInventoryToSend := self.announcer.vInventoryToSend ++ [blockInv env b] } := by
    rw [Announcer.pushInventory, if_neg]
    rw [h.unknown b hb]
    exact Bool.false_ne_true
  rw [Endpoint.pushInventory, hpush]
  exact ⟨h.node, h.orphans, h.queue, congrArg (· ++ _) h.todo_eq, h.continue_eq, h.unknown⟩

theorem pushInventory_subset
    {announcer : Announcer} {inv : CInv} {P : CInv → Prop} (h : ∀ inv ∈ announcer.vInventoryToSend, P inv)
    (hinv : P inv) :
  ∀ inv' ∈ (announcer.pushInventory inv).vInventoryToSend, P inv'
  := by
  rw [Announcer.pushInventory]
  split_ifs
  · exact h
  · intro inv' hinv'
    rcases List.mem_append.mp hinv' with hinv' | hinv'
    · exact h inv' hinv'
    · rw [List.mem_singleton.mp hinv']
      exact hinv

/-- The walk ends at the tip, or at the block to stop at. -/
theorem getBlocksLoop_end
    (hbehind : Node.Behind env outside client server blocks) {hashStop : uint256} (nLimit : ℕ)
    {pre suffix : List ReceivedBlock} {hash : uint256} (hblocks : blocks = pre ++ suffix)
    (hhash : (Node.chainHashes env client pre).head? = some hash)
    (hsuffix : ∀ b, suffix.head? = some b → b.hash env = hashStop) (self : Endpoint) :
  getBlocksLoop hashStop (nLimit + 1) server.pnext[hash]? self = self
  := by
  cases suffix with
  | nil =>
    rw [List.append_nil] at hblocks
    subst hblocks
    rw [hbehind.pnext_eq_none hhash, getBlocksLoop]
  | cons b suffix =>
    obtain ⟨q, hq, hqhash⟩ := hbehind.pnext_eq_some hblocks hhash
    rw [hq, getBlocksLoop, if_pos (hqhash.trans (hsuffix b rfl))]

/-- The walk of `getblocks` up the main chain of the server announces the missing blocks, up to the limit or
the block to stop at. -/
theorem getBlocksLoop_server
    (hbehind : Node.Behind env outside client server blocks) {hashStop : uint256} (nLimit : ℕ)
    {pre mid suffix : List ReceivedBlock} {hash : uint256} (hblocks : blocks = pre ++ (mid ++ suffix))
    (hhash : (Node.chainHashes env client pre).head? = some hash) (hstop : ∀ b ∈ mid, b.hash env ≠ hashStop)
    (hsuffix : ∀ b, suffix.head? = some b → b.hash env = hashStop)
    (hself : ServerIs env server todo 0 unannounced self) (hmid : ∀ b ∈ mid, b ∈ unannounced) :
  ∃ batch rest hashContinue, mid = batch ++ rest ∧ batch.length ≤ nLimit + 1
    ∧ ServerIs env server (todo ++ batch.map (blockInv env)) hashContinue unannounced
      (getBlocksLoop hashStop (nLimit + 1) server.pnext[hash]? self)
    ∧ (hashContinue = 0 ∧ rest = []
      ∨ ∃ init last, batch = init ++ [last] ∧ hashContinue = last.hash env)
    ∧ (mid ≠ [] → batch ≠ [])
  := by
  induction mid generalizing nLimit pre hash todo self with
  | nil =>
    refine ⟨[], [], 0, rfl, Nat.zero_le _, ?_, .inl ⟨rfl, rfl⟩, fun h => absurd rfl h⟩
    rw [getBlocksLoop_end hbehind nLimit hblocks hhash hsuffix, List.map_nil, List.append_nil]
    exact hself
  | cons b mid ih =>
    obtain ⟨hfirst, hrest⟩ := List.forall_mem_cons.mp hstop
    obtain ⟨hunknown, hunknowns⟩ := List.forall_mem_cons.mp hmid
    obtain ⟨q, hq, hqhash⟩ := hbehind.pnext_eq_some hblocks hhash
    have hnext := hself.pushInventory hunknown
    rw [hq, getBlocksLoop, if_neg (by rw [hqhash]; exact hfirst), hqhash]
    dsimp only
    cases nLimit with
    | zero =>
      refine ⟨[b], mid, b.hash env, rfl, le_rfl, ?_, .inr ⟨[], b, rfl, rfl⟩, fun _ => List.cons_ne_nil _ _⟩
      rw [if_pos le_rfl]
      exact ⟨hnext.node, hnext.orphans, hnext.queue, hnext.todo_eq, rfl, hnext.unknown⟩
    | succ nLimit =>
      have hhead : (Node.chainHashes env client (pre ++ [b])).head? = some (b.hash env) := by
        rw [Node.Behind.chainHashes_concat]
        rfl
      obtain ⟨batch, rest, hashContinue, hmidEq, hle, hserver, hmore, -⟩ :=
        ih nLimit (by rw [hblocks, List.append_assoc]; rfl) hhead hrest hnext hunknowns
      refine ⟨b :: batch, rest, hashContinue, congrArg (b :: ·) hmidEq, ?_, ?_, ?_, fun _ => List.cons_ne_nil _ _⟩
      · rw [List.length_cons]
        omega
      · have hpnext : (self.pushInventory (blockInv env b)).node.pnext[b.hash env]? = server.pnext[b.hash env]? := by
          rw [hnext.node]
        change ServerIs _ _ _ _ _ (if nLimit + 1 ≤ 0 then _ else getBlocksLoop hashStop (nLimit + 1)
          (self.pushInventory (blockInv env b)).node.pnext[b.hash env]? (self.pushInventory (blockInv env b)))
        rw [if_neg (Nat.not_succ_le_zero nLimit), hpnext, List.map_cons, List.append_cons]
        exact hserver
      · rcases hmore with hmore | ⟨init, last, rfl, hlast⟩
        · exact .inl hmore
        · exact .inr ⟨b :: init, last, rfl, hlast⟩

/-- The server is asked for what follows a tip of the client, up to the block that the client has already. -/
theorem processGetBlocks_server
    (hbehind : Node.Behind env outside client server blocks) {pre mid : List ReceivedBlock}
    {held : Option ReceivedBlock} {p : CBlockIndex} {node : Node} (hblocks : blocks = pre ++ (mid ++ held.toList))
    (hp : Node.Behind.CaughtUp env client pre node p) (hself : ServerIs env server [] 0 mid self) :
  ∃ batch rest hashContinue, mid = batch ++ rest ∧ batch.length ≤ 500
    ∧ ServerIs env server (batch.map (blockInv env)) hashContinue mid
      (self.processGetBlocks (locatorOf env (some p)) ((held.map (·.hash env)).getD 0))
    ∧ (hashContinue = 0 ∧ rest = []
      ∨ ∃ init last, batch = init ++ [last] ∧ hashContinue = last.hash env)
    ∧ (mid ≠ [] → batch ≠ [])
  := by
  obtain ⟨q, hfind, hq⟩ := hbehind.locatorGetBlockIndex_tip hblocks hp
  have hnodup := hbehind.nodup_chainHashes.1
  have hstop : ∀ b ∈ mid, b.hash env ≠ (held.map (·.hash env)).getD 0 := by
    intro b hb
    cases held with
    | none =>
      apply hbehind.nonzero b
      rw [hblocks]
      exact List.mem_append_right _ (List.mem_append_left _ hb)
    | some tip =>
      rw [hblocks, ← List.append_assoc, Option.toList_some, Node.Behind.chainHashes_concat] at hnodup
      intro heq
      apply (List.nodup_cons.mp hnodup).1
      rw [show tip.hash env = b.hash env from heq.symm, Node.Behind.chainHashes_append]
      exact List.mem_append_left _ (List.mem_reverse.mpr (List.mem_map_of_mem hb))
  have hsuffix : ∀ b, held.toList.head? = some b → b.hash env = (held.map (·.hash env)).getD 0 := by
    intro b hb
    cases held with
    | none => cases hb
    | some tip =>
      obtain rfl := Option.some.inj hb
      rfl
  have hloop := getBlocksLoop_server hbehind 499 hblocks hp.head hstop hsuffix hself (fun _ hb => hb)
  rw [processGetBlocks, locatorOf, hself.node, hfind, Option.bind_some, hq]
  exact hloop

theorem pushGetBlocks_fst (env : Env) (self : Endpoint) (pindexBegin : Option CBlockIndex) (hashEnd : uint256) :
  (self.pushGetBlocks env pindexBegin hashEnd).1
    = { self with pindexLastGetBlocksBegin := pindexBegin, hashLastGetBlocksEnd := hashEnd }
  := by
  rw [pushGetBlocks]
  split_ifs with hsame
  · rw [hsame.1, hsame.2]
  · rfl

theorem isGetBlocks_of_mem_pushGetBlocks {pindexBegin : Option CBlockIndex} {hashEnd : uint256} :
  ∀ message ∈ (self.pushGetBlocks env pindexBegin hashEnd).2, message.isGetBlocks = true
  := by
  rw [pushGetBlocks]
  split_ifs
  · exact fun _ h => absurd h List.not_mem_nil
  · exact List.forall_mem_singleton.mpr rfl

/-- What the client announces is not new to the server, which may ask what follows. -/
theorem invStep_server
    (hbehind : Node.Behind env outside client server blocks) {pre post : List ReceivedBlock}
    (hblocks : blocks = pre ++ post) (hnew : ∀ b ∈ unannounced, b.hash env ∉ Node.chainHashes env client pre)
    {last : Option ℕ} {nTime : ℤ} {state : Endpoint × List BlockMessage} {entry : CInv × ℕ}
    (hold : OldInv env client pre entry.1) (hself : ServerIs env server todo hashContinue unannounced state.1)
    (hmessages : ∀ message ∈ state.2, message.isGetBlocks = true) :
  ServerIs env server todo hashContinue unannounced (invStep env last nTime state entry).1
    ∧ ∀ message ∈ (invStep env last nTime state entry).2, message.isGetBlocks = true
  := by
  obtain ⟨⟨type, hash⟩, nInv⟩ := entry
  obtain ⟨rfl, hmem⟩ := id hold
  have hhas : server.mapBlockIndex.contains hash = true := by
    apply hbehind.nodup_chainHashes.2
    rw [hblocks, Node.Behind.chainHashes_append]
    exact List.mem_append_right _ hmem
  have hknown : ServerIs env server todo hashContinue unannounced
      (state.1.addInventoryKnown ⟨CInv.BLOCK, hash⟩) := by
    refine ⟨hself.node, hself.orphans, hself.queue, hself.todo_eq, hself.continue_eq, ?_⟩
    intro b hb
    rw [← Bool.not_eq_true]
    intro hcontains
    rcases Announcer.contains_insert hcontains with hcontains | heq
    · rw [hself.unknown b hb] at hcontains
      cases hcontains
    · have hsame : b.hash env = hash := congrArg CInv.hash heq
      exact hnew b hb (hsame ▸ hmem)
  have halready : (state.1.addInventoryKnown ⟨CInv.BLOCK, hash⟩).alreadyHave ⟨CInv.BLOCK, hash⟩ = true := by
    rw [alreadyHave, if_neg (by change ¬CInv.BLOCK = CInv.TX; decide), if_pos rfl, hknown.node]
    dsimp only
    rw [hhas, Bool.true_or]
  rw [invStep]
  dsimp only
  rw [halready, if_neg (by decide), hknown.orphans, Option.filter_none]
  dsimp only
  split_ifs
  · refine ⟨?_, ?_⟩
    · rw [pushGetBlocks_fst]
      exact ⟨hknown.node, hknown.orphans, hknown.queue, hknown.todo_eq, hknown.continue_eq, hknown.unknown⟩
    · intro message hmessage
      rcases List.mem_append.mp hmessage with hmessage | hmessage
      · exact hmessages message hmessage
      · exact isGetBlocks_of_mem_pushGetBlocks message hmessage
  · exact ⟨hknown, hmessages⟩

theorem processInv_server
    (hbehind : Node.Behind env outside client server blocks) {pre post : List ReceivedBlock}
    (hblocks : blocks = pre ++ post) (hnew : ∀ b ∈ unannounced, b.hash env ∉ Node.chainHashes env client pre)
    {vInv : List CInv} (hold : ∀ inv ∈ vInv, OldInv env client pre inv) (nTime : ℤ)
    (hself : ServerIs env server todo hashContinue unannounced self) :
  ServerIs env server todo hashContinue unannounced (self.processInv env vInv nTime).1
    ∧ ∀ message ∈ (self.processInv env vInv nTime).2, message.isGetBlocks = true
  := by
  rw [processInv]
  split_ifs
  · exact ⟨hself, fun _ h => absurd h List.not_mem_nil⟩
  · have hfold : ∀ (entries : List (CInv × ℕ)) (state : Endpoint × List BlockMessage),
        (∀ entry ∈ entries, OldInv env client pre entry.1) →
        ServerIs env server todo hashContinue unannounced state.1
          ∧ (∀ message ∈ state.2, message.isGetBlocks = true) →
        ServerIs env server todo hashContinue unannounced
            (entries.foldl (invStep env (nLastBlock vInv) nTime) state).1
          ∧ ∀ message ∈ (entries.foldl (invStep env (nLastBlock vInv) nTime) state).2,
            message.isGetBlocks = true := by
      intro entries
      induction entries with
      | nil => exact fun _ _ h => h
      | cons entry entries ih =>
        intro state hentries hstate
        obtain ⟨hfirst, hrest⟩ := List.forall_mem_cons.mp hentries
        exact ih _ hrest (invStep_server hbehind hblocks hnew hfirst hstate.1 hstate.2)
    apply hfold _ _ _ ⟨hself, fun _ h => absurd h List.not_mem_nil⟩
    intro entry hentry
    exact hold _ (List.fst_mem_of_mem_zipIdx hentry)

/-- The server sends a block that it is asked for, and its tip when it is to announce that after the block. -/
theorem getDataStep_server
    (hbehind : Node.Behind env outside client server blocks) {b : ReceivedBlock} (hb : b ∈ blocks)
    (hself : ServerIs env server todo hashContinue unannounced self) (messages : List BlockMessage) :
  getDataStep env outside (self, messages) (blockInv env b)
    = if b.hash env = hashContinue then
        ({ self with hashContinue := 0 },
          messages ++ [.block b.onHeap] ++ [.inv [⟨CInv.BLOCK, server.hashBestChain⟩]])
      else (self, messages ++ [.block b.onHeap])
  := by
  obtain ⟨pre, post, hblocks⟩ := List.append_of_mem hb
  obtain ⟨entry, p, best, -, -, -, -, -, hindexed⟩ := hbehind.exists_entry hblocks
  have hread := hbehind.stored b hb _ hindexed
  have hsend : self.blockToSend env outside (.next entry p) = b.onHeap := by
    rw [blockToSend, hself.node, hread, Option.bind_some, onHeap_block]
    rfl
  rw [getDataStep, if_pos (by rfl)]
  dsimp only [blockInv]
  rw [hself.node, hindexed]
  dsimp only
  rw [hsend, hself.continue_eq]
  by_cases hlast : b.hash env = hashContinue
  · rw [if_pos hlast]
    exact if_pos hlast
  · rw [if_neg hlast]
    exact if_neg hlast

theorem processGetData_server
    (hbehind : Node.Behind env outside client server blocks) {asked : List ReceivedBlock}
    (hasked : ∀ b ∈ asked, b ∈ blocks) (hshort : asked.length ≤ 1000)
    (hself : ServerIs env server todo hashContinue unannounced self) :
  ((∀ b ∈ asked, b.hash env ≠ hashContinue) →
      self.processGetData env outside (asked.map (blockInv env)) = (self, asked.map (fun b => .block b.onHeap)))
    ∧ ∀ init last, asked = init ++ [last] → last.hash env = hashContinue →
      (∀ b ∈ init, b.hash env ≠ hashContinue) →
      self.processGetData env outside (asked.map (blockInv env))
        = ({ self with hashContinue := 0 },
          asked.map (fun b => .block b.onHeap) ++ [.inv [⟨CInv.BLOCK, server.hashBestChain⟩]])
  := by
  have hfold : ∀ (asked : List ReceivedBlock) (messages : List BlockMessage), (∀ b ∈ asked, b ∈ blocks) →
      (∀ b ∈ asked, b.hash env ≠ hashContinue) →
      (asked.map (blockInv env)).foldl (getDataStep env outside) (self, messages)
        = (self, messages ++ asked.map (fun b => .block b.onHeap)) := by
    intro asked
    induction asked with
    | nil =>
      intro messages _ _
      rw [List.map_nil, List.map_nil, List.append_nil]
      rfl
    | cons b asked ih =>
      intro messages hmem hne
      obtain ⟨hfirst, hrest⟩ := List.forall_mem_cons.mp hmem
      obtain ⟨hnot, hnots⟩ := List.forall_mem_cons.mp hne
      rw [List.map_cons, List.foldl_cons, getDataStep_server hbehind hfirst hself, if_neg hnot,
        ih _ hrest hnots, List.map_cons, List.append_assoc]
      rfl
  have hlength : ¬(asked.map (blockInv env)).length > 50000 := by
    rw [List.length_map]
    omega
  constructor
  · intro hne
    rw [processGetData, if_neg hlength, hfold asked [] hasked hne]
    rfl
  · rintro init last rfl hlast hne
    rw [processGetData, if_neg hlength, List.map_append, List.foldl_append,
      hfold init [] (fun b hb => hasked b (List.mem_append_left _ hb)) hne, List.map_singleton, List.foldl_cons,
      List.foldl_nil, getDataStep_server hbehind (hasked last (List.mem_append_right _ (List.mem_singleton_self _)))
        hself, if_pos hlast, List.map_append]
    rfl

/-- The server announces what it has to announce, and asks for nothing. -/
theorem sendMessages_server
    (hself : ServerIs env server todo hashContinue unannounced self) {batch rest : List ReceivedBlock}
    (htodo : todo = batch.map (blockInv env)) (hsplit : unannounced = batch ++ rest)
    (hnodup : (unannounced.map (·.hash env)).Nodup) (hshort : batch.length < 1000) (context : TrickleContext)
    (fSendTrickle : Bool) (nTime : ℤ) :
  ServerIs env server [] hashContinue rest (self.sendMessages context fSendTrickle nTime).1
    ∧ (self.sendMessages context fSendTrickle nTime).2 = if batch = [] then [] else [.inv (batch.map (blockInv env))]
  := by
  have htodo' := hself.todo_eq.trans htodo
  have hdistinct : (batch.map (blockInv env)).Nodup := by
    rw [hsplit, List.map_append] at hnodup
    apply List.Nodup.of_map CInv.hash
    rw [List.map_map]
    exact hnodup.of_append_left
  obtain ⟨known, hsend, hknown⟩ := @Announcer.sendInventory_all context fSendTrickle self.announcer
    (by
      rw [htodo']
      intro inv hinv
      obtain ⟨b, -, rfl⟩ := List.mem_map.mp hinv
      rfl)
    (by
      rw [htodo']
      intro inv hinv
      obtain ⟨b, hb, rfl⟩ := List.mem_map.mp hinv
      exact hself.unknown b (by rw [hsplit]; exact List.mem_append_left _ hb))
    (by rw [htodo']; exact hdistinct)
    (by rw [htodo', List.length_map]; exact hshort)
  have hnone : self.requests.sendGetData 0 nTime self.alreadyHave
      = ({ self.requests with mapAskFor := Function.update self.requests.mapAskFor 0 [] }, ⟨[], []⟩) := by
    rw [RequestState.sendGetData, hself.queue]
    rfl
  rw [sendMessages, hsend, hnone, htodo']
  dsimp only
  refine ⟨⟨hself.node, hself.orphans, ?_, rfl, hself.continue_eq, ?_⟩, ?_⟩
  · simp only [Function.update_self]
  · intro b hb
    rw [← Bool.not_eq_true]
    intro hcontains
    rcases hknown _ hcontains with hcontains | hmem
    · rw [hself.unknown b (by rw [hsplit]; exact List.mem_append_right _ hb)] at hcontains
      cases hcontains
    · rw [htodo'] at hmem
      obtain ⟨b', hb', heq⟩ := List.mem_map.mp hmem
      rw [hsplit, List.map_append] at hnodup
      have hdisjoint := List.disjoint_of_nodup_append hnodup
      apply hdisjoint (List.mem_map_of_mem hb')
      rw [show b'.hash env = b.hash env from congrArg CInv.hash heq]
      exact List.mem_map_of_mem hb
  · cases batch with
    | nil => rfl
    | cons b batch => rfl

end Server

end Endpoint

end CorgiCoin
