import CorgiCoin.SyncServer
import Mathlib.Data.List.TakeWhile

/-!
# What the client does

The steps of the node that lacks blocks: it asks for what is announced and new, accepts the blocks in their
order, keeps the tip of the server as an orphan when that comes too early, and asks what follows its own tip.
-/

namespace CorgiCoin

open Std

/-! ## Requests -/

namespace RequestState

/-- No request is later than one that is made next. -/
def Ordered (s : RequestState) : Prop := ∀ entry ∈ s.mapAskFor 0, entry.1 ≤ max (2 * 60 * 1000000) s.nLastTime

theorem insertAsk_last {nRequestTime : ℤ} {inv : CInv} {queue : List (ℤ × CInv)}
    (h : ∀ entry ∈ queue, entry.1 ≤ nRequestTime) :
  insertAsk nRequestTime inv queue = queue ++ [(nRequestTime, inv)]
  := by
  induction queue with
  | nil => rfl
  | cons entry queue ih =>
    obtain ⟨hfirst, hrest⟩ := List.forall_mem_cons.mp h
    rw [insertAsk, if_pos hfirst, ih hrest]
    rfl

/-- What was not asked for before goes to the end of the queue. -/
theorem askFor_new
    {s : RequestState} (h : s.Ordered) {inv : CInv} (hnew : s.mapAlreadyAskedFor[inv]? = none) (nTime : ℤ) :
  (s.askFor 0 inv nTime).Ordered
    ∧ ((s.askFor 0 inv nTime).mapAskFor 0).map Prod.snd = (s.mapAskFor 0).map Prod.snd ++ [inv]
    ∧ ∀ inv', inv' ≠ inv → (s.askFor 0 inv nTime).mapAlreadyAskedFor[inv']? = s.mapAlreadyAskedFor[inv']?
  := by
  have htime : s.requestTime inv nTime = max (2 * 60 * 1000000) (s.timeIndex nTime) := by
    rw [requestTime, hnew, Option.getD_none, zero_add]
  have hlater : s.nLastTime ≤ s.timeIndex nTime := by
    rw [timeIndex]
    omega
  have hqueue : (s.askFor 0 inv nTime).mapAskFor 0 = s.mapAskFor 0 ++ [(s.requestTime inv nTime, inv)] := by
    rw [askFor]
    dsimp only
    rw [Function.update_self]
    apply insertAsk_last
    intro entry hentry
    have hle := h entry hentry
    rw [htime]
    omega
  refine ⟨?_, ?_, ?_⟩
  · intro entry hentry
    rw [hqueue] at hentry
    change entry.1 ≤ max _ (s.timeIndex nTime)
    rcases List.mem_append.mp hentry with hentry | hentry
    · have hle := h entry hentry
      omega
    · rw [List.mem_singleton.mp hentry]
      exact htime.le
  · rw [hqueue, List.map_append]
    rfl
  · intro inv' hne
    change (s.mapAlreadyAskedFor.insert inv _)[inv']? = _
    rw [ExtTreeMap.getElem?_insert, if_neg]
    rw [LawfulEqCmp.compare_eq_iff_eq]
    exact fun heq => hne heq.symm

/-- When the node has none of what it asks for, all that is due is sent. -/
theorem sendGetData_none
    {s : RequestState} (h : s.Ordered) {fHave : CInv → Bool}
    (hnone : ∀ entry ∈ s.mapAskFor 0, fHave entry.2 = false) (nTime : ℤ) :
  let due := ((s.mapAskFor 0).takeWhile (fun entry => entry.1 ≤ nTime * 1000000)).map Prod.snd
  let result := s.sendGetData 0 nTime fHave
  result.1.Ordered ∧ (s.mapAskFor 0).map Prod.snd = due ++ (result.1.mapAskFor 0).map Prod.snd
    ∧ result.2.messages.flatten = due
    ∧ (∀ message ∈ result.2.messages, message ≠ [] ∧ message.length ≤ 1000)
    ∧ (∀ inv, inv ∉ due → result.1.mapAlreadyAskedFor[inv]? = s.mapAlreadyAskedFor[inv]?)
    ∧ (∀ entry ∈ result.1.mapAskFor 0, entry ∈ s.mapAskFor 0)
    ∧ ((∀ entry ∈ s.mapAskFor 0, entry.1 ≤ nTime * 1000000) → result.1.mapAskFor 0 = [])
  := by
  intro due result
  obtain ⟨hqueue, hsent, -, hsize, hasked⟩ := sendGetData_spec s 0 nTime fHave
  have hleft : result.1.mapAskFor 0 = (s.mapAskFor 0).dropWhile (fun entry => entry.1 ≤ nTime * 1000000) := by
    rw [hqueue, Function.update_self]
  have hsubset : ∀ entry ∈ result.1.mapAskFor 0, entry ∈ s.mapAskFor 0 := by
    intro entry hentry
    rw [hleft] at hentry
    exact (List.dropWhile_suffix _).subset hentry
  have hall : due.filter (fun inv => !fHave inv) = due := by
    apply List.filter_eq_self.mpr
    intro inv hinv
    obtain ⟨entry, hentry, rfl⟩ := List.mem_map.mp hinv
    rw [hnone entry (List.takeWhile_subset _ hentry)]
    rfl
  rw [hall] at hsent
  refine ⟨fun entry hentry => h entry (hsubset entry hentry), ?_, hsent, ?_, ?_, hsubset, ?_⟩
  · rw [hleft, ← List.map_append, List.takeWhile_append_dropWhile]
  · intro message hmessage
    obtain ⟨hpos, hle⟩ := hsize message hmessage
    exact ⟨List.ne_nil_of_length_pos hpos, hle⟩
  · intro inv hinv
    rw [hasked, if_neg]
    rw [hsent]
    exact hinv
  · intro hdue
    rw [hleft]
    apply List.dropWhile_eq_nil_iff.mpr
    exact fun entry hentry => decide_eq_true (hdue entry hentry)

end RequestState

/-! ## The pool of orphans -/

namespace Endpoint

/-- The pool of orphans is empty, or it holds one block. -/
def Pool (env : Env) (orphans : OrphanBlocks) (heap : BlockPtr → HeapBlock) : Option ReceivedBlock → Prop
  | none => orphans.mapOrphanBlocks = ∅ ∧ orphans.mapOrphanBlocksByPrev = [] ∧ orphans.nOrphanBlockBytes = 0
  | some b => ∃ ptr, orphans.mapOrphanBlocks = (∅ : ExtTreeMap uint256 BlockPtr compare).insert (b.hash env) ptr
    ∧ orphans.mapOrphanBlocksByPrev = [(b.block.hashPrevBlock, ptr)]
    ∧ orphans.nOrphanBlockBytes = (orphanBlockSize b.onHeap).toUInt64 ∧ heap ptr = b.onHeap

section Pool

variable {env : Env} {orphans : OrphanBlocks} {heap : BlockPtr → HeapBlock} {b : ReceivedBlock}

theorem Pool.contains_iff {held : Option ReceivedBlock} (h : Pool env orphans heap held) (hash : uint256) :
  orphans.mapOrphanBlocks.contains hash = true ↔ ∃ b, held = some b ∧ b.hash env = hash
  := by
  cases held with
  | none =>
    rw [h.1]
    simp
  | some b =>
    obtain ⟨ptr, hmap, -⟩ := h
    rw [hmap, ExtTreeMap.contains_insert]
    simp

/-- A block that passed its checks is small enough for the pool. -/
theorem orphanBlockSize_le {nAdjustedTime : ℤ} (h : b.block.checkBlock env nAdjustedTime = true) :
  orphanBlockSize b.onHeap ≤ MAX_BLOCK_SIZE
  := by
  rw [CBlock.checkBlock] at h
  split at h
  · cases h
  · cases h
  · rename_i coinbase rest nSize hvtx hsize
    split_ifs at h with hlimits
    have hle : nSize ≤ MAX_BLOCK_SIZE := by
      rw [Bool.or_eq_true, decide_eq_true_eq, decide_eq_true_eq] at hlimits
      exact UInt32.not_lt.mp (fun hgt => hlimits (.inr hgt))
    have hget : orphanBlockSize b.onHeap = nSize := by
      apply Option.some.inj
      rw [orphanBlockSize, Option.some_get]
      exact hsize
    rw [hget]
    exact hle

/-- An orphan goes to an empty pool, which is within its limits then. -/
theorem Pool.add
    (h : Pool env orphans heap none) {nAdjustedTime : ℤ} (hcheck : b.block.checkBlock env nAdjustedTime = true)
    {ptr : BlockPtr} (hptr : heap ptr = b.onHeap) (rand : ℕ → uint256) :
  Pool env
    ((orphans.addOrphanBlock env.crypto heap ptr).limitOrphanBlocks heap MAX_ORPHAN_BLOCKS MAX_ORPHAN_BLOCKS_BYTES
      rand).2 heap (some b)
  := by
  obtain ⟨hmap, hprev, hbytes⟩ := h
  have hhash : OrphanBlocks.hashOf env.crypto heap ptr = b.hash env := by
    rw [OrphanBlocks.hashOf, hptr]
    rfl
  have hadd : orphans.addOrphanBlock env.crypto heap ptr = { orphans with
      mapOrphanBlocks := (∅ : ExtTreeMap uint256 BlockPtr compare).insert (b.hash env) ptr
      mapOrphanBlocksByPrev := [(b.block.hashPrevBlock, ptr)]
      nOrphanBlockBytes := (orphanBlockSize b.onHeap).toUInt64 } := by
    rw [OrphanBlocks.addOrphanBlock, hhash, hmap, hprev, hbytes, if_neg (by simp), OrphanBlocks.hashPrevOf,
      OrphanBlocks.orphanSize, hptr, UInt64.zero_add, List.nil_append]
    rfl
  have hlimit : OrphanBlocks.overLimit (orphans.addOrphanBlock env.crypto heap ptr) MAX_ORPHAN_BLOCKS
      MAX_ORPHAN_BLOCKS_BYTES = false := by
    have hsize := orphanBlockSize_le hcheck
    rw [hadd, OrphanBlocks.overLimit, ExtTreeMap.size_insert]
    have hmax : MAX_BLOCK_SIZE.toNat = 1000000 := by decide
    have hbound : MAX_ORPHAN_BLOCKS_BYTES.toUInt64.toNat = 32000000 := by decide
    have hblocks : MAX_ORPHAN_BLOCKS.toNat = 750 := by decide
    rw [UInt32.le_iff_toNat_le, hmax] at hsize
    rw [Bool.or_eq_false_iff, decide_eq_false_iff_not, decide_eq_false_iff_not, hblocks, UInt64.lt_iff_toNat_lt,
      hbound]
    refine ⟨?_, ?_⟩
    · simp
    · change ¬32000000 < (orphanBlockSize b.onHeap).toUInt64.toNat
      rw [UInt32.toNat_toUInt64]
      omega
  have hloop : (orphans.addOrphanBlock env.crypto heap ptr).limitOrphanBlocks heap MAX_ORPHAN_BLOCKS
      MAX_ORPHAN_BLOCKS_BYTES rand = (UInt32.ofNat 0, orphans.addOrphanBlock env.crypto heap ptr) := by
    rw [OrphanBlocks.limitOrphanBlocks]
    cases (orphans.addOrphanBlock env.crypto heap ptr).mapOrphanBlocks.size with
    | zero => rfl
    | succ n => rw [OrphanBlocks.limitLoop, hlimit, Bool.and_false, if_neg Bool.false_ne_true]
  rw [hloop, hadd]
  exact ⟨ptr, rfl, rfl, rfl, hptr⟩

/-- No orphan waits for the block with a hash. -/
theorem take_other
    {held : Option ReceivedBlock} (h : Pool env orphans heap held) {hashPrev : uint256}
    (hother : ∀ b, held = some b → b.block.hashPrevBlock ≠ hashPrev) :
  orphans.takeOrphanBlocksByPrev env.crypto heap hashPrev = ([], orphans)
  := by
  have hwait : ∀ entry ∈ orphans.mapOrphanBlocksByPrev, entry.1 ≠ hashPrev := by
    cases held with
    | none =>
      rw [h.2.1]
      exact fun _ hentry => absurd hentry List.not_mem_nil
    | some b =>
      obtain ⟨ptr, -, hprev, -⟩ := h
      rw [hprev]
      exact List.forall_mem_singleton.mpr (hother b rfl)
  have hrange : orphans.equalRange hashPrev = [] := by
    rw [OrphanBlocks.equalRange, List.filter_eq_nil_iff.mpr, List.map_nil]
    exact fun entry hentry heq => hwait entry hentry (beq_iff_eq.mp heq)
  have hleft : orphans.mapOrphanBlocksByPrev.filter (·.1 != hashPrev) = orphans.mapOrphanBlocksByPrev := by
    apply List.filter_eq_self.mpr
    exact fun entry hentry => bne_iff_ne.mpr (hwait entry hentry)
  rw [OrphanBlocks.takeOrphanBlocksByPrev, hrange]
  dsimp only [List.foldl_nil]
  rw [hleft]

/-- The orphan leaves the pool when the block that it waits for has come. -/
theorem take_held (h : Pool env orphans heap (some b)) :
  ∃ ptr orphans', orphans.takeOrphanBlocksByPrev env.crypto heap b.block.hashPrevBlock = ([ptr], orphans')
    ∧ heap ptr = b.onHeap ∧ Pool env orphans' heap none
  := by
  obtain ⟨ptr, hmap, hprev, hbytes, hptr⟩ := h
  have hhash : OrphanBlocks.hashOf env.crypto heap ptr = b.hash env := by
    rw [OrphanBlocks.hashOf, hptr]
    rfl
  have hrange : orphans.equalRange b.block.hashPrevBlock = [ptr] := by
    rw [OrphanBlocks.equalRange, hprev]
    simp
  have htake : orphans.takeOne env.crypto heap ptr = OrphanBlocks.subBytes heap
      { orphans with mapOrphanBlocks := orphans.mapOrphanBlocks.erase (b.hash env) } ptr := by
    rw [OrphanBlocks.takeOne, hhash, if_pos]
    rw [hmap, ExtTreeMap.contains_insert_self]
  refine ⟨ptr, (orphans.takeOrphanBlocksByPrev env.crypto heap b.block.hashPrevBlock).2, ?_, hptr, ?_⟩
  · rw [OrphanBlocks.takeOrphanBlocksByPrev, hrange]
  · rw [OrphanBlocks.takeOrphanBlocksByPrev, hrange, List.foldl_cons, List.foldl_nil, htake]
    refine ⟨?_, ?_, ?_⟩
    · change orphans.mapOrphanBlocks.erase (b.hash env) = ∅
      rw [hmap, TreeMap.erase_insert]
      simp
    · change orphans.mapOrphanBlocksByPrev.filter _ = []
      rw [hprev]
      simp
    · change orphans.nOrphanBlockBytes - (OrphanBlocks.orphanSize heap ptr).toUInt64 = 0
      rw [hbytes, OrphanBlocks.orphanSize, hptr, UInt64.sub_self]

end Pool

end Endpoint

/-! ## The client -/

namespace Endpoint

/-- The client has accepted blocks and may hold a later one as an orphan.  It is to ask for the blocks of a
queue, the last of them at a time, and was not told of some others.  Since it asked what follows its tip, it
may have moved on. -/
structure ClientIs (env : Env) (outside : Outside) (client : Node) (done : List ReceivedBlock)
    (held : Option ReceivedBlock) (queue : List CInv) (nDue : ℤ) (unasked : List ReceivedBlock) (moved : Prop)
    (e : Endpoint) : Prop where
  node : e.node = client.catchUp env outside done
  pool : Pool env e.orphans e.heap held
  ordered : e.requests.Ordered
  queue_eq : (e.requests.mapAskFor 0).map Prod.snd = queue
  due : ∀ entry ∈ e.requests.mapAskFor 0, entry.1 ≤ nDue
  fresh : ∀ b ∈ unasked, e.requests.mapAlreadyAskedFor[blockInv env b]? = none
  old : ∀ inv ∈ e.announcer.vInventoryToSend, OldInv env client done inv
  last : ∃ base rest p, done = base ++ rest ∧ (moved → rest ≠ [])
    ∧ Node.Behind.CaughtUp env client base (client.catchUp env outside base) p ∧ e.pindexLastGetBlocksBegin = some p

section Client

variable {env : Env} {outside : Outside} {client server : Node} {blocks done post : List ReceivedBlock}
variable {held : Option ReceivedBlock} {queue : List CInv} {nDue : ℤ} {unasked : List ReceivedBlock} {moved : Prop}
variable {self : Endpoint} {b tip : ReceivedBlock}

/-- What the peer knows does not matter to the client. -/
theorem ClientIs.addInventoryKnown
    (h : ClientIs env outside client done held queue nDue unasked moved self) (inv : CInv) :
  ClientIs env outside client done held queue nDue unasked moved (self.addInventoryKnown inv)
  := ⟨h.node, h.pool, h.ordered, h.queue_eq, h.due, h.fresh, h.old, h.last⟩

/-- Announcements do not matter to the client, as long as they are old. -/
theorem ClientIs.pushInventory
    (h : ClientIs env outside client done held queue nDue unasked moved self) {inv : CInv}
    (hold : OldInv env client done inv) :
  ClientIs env outside client done held queue nDue unasked moved (self.pushInventory inv)
  := ⟨h.node, h.pool, h.ordered, h.queue_eq, h.due, h.fresh, pushInventory_subset h.old hold, h.last⟩

theorem ClientIs.eraseAsked
    (h : ClientIs env outside client done held queue nDue unasked moved self) (inv : CInv) :
  ClientIs env outside client done held queue nDue unasked moved (self.eraseAsked inv)
  := by
  refine ⟨h.node, h.pool, h.ordered, h.queue_eq, h.due, ?_, h.old, h.last⟩
  intro b hb
  change (self.requests.mapAlreadyAskedFor.erase inv)[blockInv env b]? = none
  rw [ExtTreeMap.getElem?_erase, h.fresh b hb, ite_self]

theorem ClientIs.setOrphans
    (h : ClientIs env outside client done held queue nDue unasked moved self) {orphans : OrphanBlocks}
    {held' : Option ReceivedBlock} (hpool : Pool env orphans self.heap held') :
  ClientIs env outside client done held' queue nDue unasked moved { self with orphans }
  := ⟨h.node, hpool, h.ordered, h.queue_eq, h.due, h.fresh, h.old, h.last⟩

variable {p : CBlockIndex}

/-- The walk of `getblocks` up the main chain of the client announces old blocks. -/
theorem getBlocksLoop_client
    (hp : Node.Behind.CaughtUp env client done (client.catchUp env outside done) p)
    (hashStop : uint256) (nLimit : ℕ) (pindex : Option CBlockIndex)
    (hpindex : ∀ q, pindex = some q → q.getBlockHash ∈ Node.chainHashes env client done)
    (h : ClientIs env outside client done held queue nDue unasked moved self) :
  ClientIs env outside client done held queue nDue unasked moved (getBlocksLoop hashStop nLimit pindex self)
  := by
  induction nLimit generalizing pindex self with
  | zero => cases pindex <;> exact h
  | succ nLimit ih =>
    cases pindex with
    | none => exact h
    | some q =>
      have hold : OldInv env client done ⟨CInv.BLOCK, q.getBlockHash⟩ := ⟨rfl, hpindex q rfl⟩
      have hpushed := h.pushInventory hold
      rw [getBlocksLoop]
      split_ifs
      · exact h
      · exact ⟨hpushed.node, hpushed.pool, hpushed.ordered, hpushed.queue_eq, hpushed.due, hpushed.fresh,
          hpushed.old, hpushed.last⟩
      · apply ih _ _ hpushed
        intro r hr
        rw [hpushed.node] at hr
        exact hp.pnext_mem hr

/-- The client answers `getblocks` with announcements alone. -/
theorem processGetBlocks_client
    (hbehind : Node.Behind env outside client server blocks) (hblocks : blocks = done ++ post)
    (h : ClientIs env outside client done held queue nDue unasked moved self) (vHave : List uint256)
    (hashStop : uint256) :
  ClientIs env outside client done held queue nDue unasked moved (self.processGetBlocks vHave hashStop)
  := by
  obtain ⟨p, hp⟩ := hbehind.caughtUp done post hblocks
  apply getBlocksLoop_client hp hashStop 500 _ _ h
  intro q hq
  obtain ⟨r, -, hr⟩ := Option.bind_eq_some_iff.mp hq
  rw [h.node] at hr
  exact hp.pnext_mem hr

/-! ### Asking for what follows the tip -/

/-- Since the client asked, its tip is another one. -/
theorem ClientIs.last_ne
    (hbehind : Node.Behind env outside client server blocks) (hblocks : blocks = done ++ post)
    (h : ClientIs env outside client done held queue nDue unasked moved self) (hmoved : moved)
    (hp : Node.Behind.CaughtUp env client done (client.catchUp env outside done) p) :
  some p ≠ self.pindexLastGetBlocksBegin
  := by
  obtain ⟨base, rest, q, rfl, hrest, hq, hlast⟩ := h.last
  rw [hlast]
  intro heq
  obtain rfl := Option.some.inj heq
  have hnodup := hbehind.nodup_chainHashes.1
  have hhead := hp.head
  rw [hblocks, Node.Behind.chainHashes_append] at hnodup
  have hwhole := (List.nodup_append.mp hnodup).2.1
  rw [Node.Behind.chainHashes_append] at hwhole hhead
  have hne : (rest.map (·.hash env)).reverse ≠ [] := by
    simpa using hrest hmoved
  rw [List.head?_append_of_ne_nil _ hne] at hhead
  exact (List.nodup_append.mp hwhole).2.2 _ (List.mem_of_mem_head? hhead) _ (List.mem_of_mem_head? hq.head) rfl

/-- The client asks what follows its tip, up to a block. -/
theorem pushGetBlocks_client
    (hbehind : Node.Behind env outside client server blocks) (hblocks : blocks = done ++ post)
    (h : ClientIs env outside client done held queue nDue unasked moved self) (hmoved : moved)
    (hp : Node.Behind.CaughtUp env client done (client.catchUp env outside done) p) (hashEnd : uint256) :
  ClientIs env outside client done held queue nDue unasked False (self.pushGetBlocks env (some p) hashEnd).1
    ∧ (self.pushGetBlocks env (some p) hashEnd).2 = [.getblocks (locatorOf env (some p)) hashEnd]
  := by
  have hne := h.last_ne hbehind hblocks hmoved hp
  constructor
  · rw [pushGetBlocks_fst]
    refine ⟨h.node, h.pool, h.ordered, h.queue_eq, h.due, h.fresh, h.old, done, [], p, ?_, False.elim, hp, rfl⟩
    rw [List.append_nil]
  · rw [pushGetBlocks, if_neg (fun hsame => hne hsame.1)]

/-- An orphan whose block before is not an orphan is the root. -/
theorem getOrphanRoot_eq
    (hpool : Pool env self.orphans self.heap (some b)) (hprev : b.block.hashPrevBlock ≠ b.hash env) {ptr : BlockPtr}
    (hptr : self.heap ptr = b.onHeap) :
  self.getOrphanRoot env ptr = b.hash env
  := by
  obtain ⟨ptr', hmap, -⟩ := hpool
  have hloop : self.orphanRootLoop self.orphans.mapOrphanBlocks.size b.onHeap = b.onHeap := by
    cases self.orphans.mapOrphanBlocks.size with
    | zero => rfl
    | succ n =>
      have hnone : self.orphans.mapOrphanBlocks[b.onHeap.hashPrevBlock]? = none := by
        rw [hmap, ExtTreeMap.getElem?_insert, if_neg, ExtTreeMap.getElem?_empty]
        rw [LawfulEqCmp.compare_eq_iff_eq]
        exact fun heq => hprev heq.symm
      rw [orphanRootLoop, hnone]
  rw [getOrphanRoot, hptr, hloop]
  rfl

/-! ### What is announced -/

/-- The client does not have a block of the rest, unless it holds that as an orphan. -/
theorem alreadyHave_new
    (hbehind : Node.Behind env outside client server blocks) (hblocks : blocks = done ++ post) (hb : b ∈ post)
    (h : ClientIs env outside client done held queue nDue unasked moved self)
    (hheld : ∀ tip, held = some tip → tip.hash env ≠ b.hash env) :
  self.alreadyHave (blockInv env b) = false
  := by
  have horphan : self.orphans.mapOrphanBlocks.contains (b.hash env) = false := by
    rw [← Bool.not_eq_true]
    intro hcontains
    obtain ⟨tip, htip, hhash⟩ := (h.pool.contains_iff _).mp hcontains
    exact hheld tip htip hhash
  rw [alreadyHave, if_neg (by change ¬CInv.BLOCK = CInv.TX; decide), if_pos (by rfl)]
  change (self.node.mapBlockIndex.contains (b.hash env) || self.orphans.mapOrphanBlocks.contains (b.hash env)) = false
  rw [horphan, h.node, hbehind.not_contains hblocks hb]
  rfl

/-- A block that is new is asked for. -/
theorem invStep_new
    (hbehind : Node.Behind env outside client server blocks) (hblocks : blocks = done ++ post) (hb : b ∈ post)
    (last : Option ℕ) (nTime : ℤ) {state : Endpoint × List BlockMessage} (n : ℕ)
    (h : ClientIs env outside client done held queue nDue (b :: unasked) moved state.1)
    (hheld : ∀ tip, held = some tip → tip.hash env ≠ b.hash env) (hne : ∀ b' ∈ unasked, b'.hash env ≠ b.hash env) :
  ∃ nDue', ClientIs env outside client done held (queue ++ [blockInv env b]) nDue' unasked moved
      (invStep env last nTime state (blockInv env b, n)).1
    ∧ (invStep env last nTime state (blockInv env b, n)).2 = state.2
  := by
  have hknown := h.addInventoryKnown (blockInv env b)
  have hhave := alreadyHave_new hbehind hblocks hb hknown hheld
  obtain ⟨hordered, hqueue, hasked⟩ := RequestState.askFor_new h.ordered (h.fresh b List.mem_cons_self) nTime
  have hstep : invStep env last nTime state (blockInv env b, n)
      = ((state.1.addInventoryKnown (blockInv env b)).askFor (blockInv env b) nTime, state.2) := by
    rw [invStep]
    dsimp only
    rw [hhave]
    rfl
  rw [hstep]
  refine ⟨_, ⟨h.node, h.pool, hordered, ?_, hordered, ?_, h.old, h.last⟩, rfl⟩
  · rw [← h.queue_eq]
    exact hqueue
  · intro b' hb'
    change (state.1.requests.askFor 0 (blockInv env b) nTime).mapAlreadyAskedFor[blockInv env b']? = none
    rw [hasked _ (fun heq => hne b' hb' (congrArg CInv.hash heq))]
    exact h.fresh b' (List.mem_cons_of_mem _ hb')

/-- The client asks for the blocks of a batch. -/
theorem processInv_batch
    (hbehind : Node.Behind env outside client server blocks) (hblocks : blocks = done ++ post)
    {batch : List ReceivedBlock} (hbatch : ∀ b ∈ batch, b ∈ post) (hshort : batch.length ≤ 50000)
    (hnodup : ((batch ++ unasked).map (·.hash env)).Nodup)
    (hheld : ∀ b ∈ batch, ∀ tip, held = some tip → tip.hash env ≠ b.hash env) (nTime : ℤ)
    (h : ClientIs env outside client done held queue nDue (batch ++ unasked) moved self) :
  ∃ nDue', ClientIs env outside client done held (queue ++ batch.map (blockInv env)) nDue' unasked moved
      (self.processInv env (batch.map (blockInv env)) nTime).1
    ∧ (self.processInv env (batch.map (blockInv env)) nTime).2 = []
  := by
  have hfold : ∀ (last : Option ℕ) (batch : List ReceivedBlock) (n : ℕ) (queue : List CInv) (nDue : ℤ)
      (state : Endpoint × List BlockMessage), (∀ b ∈ batch, b ∈ post) →
      ((batch ++ unasked).map (·.hash env)).Nodup →
      (∀ b ∈ batch, ∀ tip, held = some tip → tip.hash env ≠ b.hash env) →
      ClientIs env outside client done held queue nDue (batch ++ unasked) moved state.1 →
      ∃ nDue', ClientIs env outside client done held (queue ++ batch.map (blockInv env)) nDue' unasked moved
          (((batch.map (blockInv env)).zipIdx n).foldl (invStep env last nTime) state).1
        ∧ (((batch.map (blockInv env)).zipIdx n).foldl (invStep env last nTime) state).2 = state.2 := by
    intro last batch
    induction batch with
    | nil =>
      intro n queue nDue state _ _ _ h
      refine ⟨nDue, ?_, rfl⟩
      rw [List.map_nil, List.append_nil]
      exact h
    | cons b batch ih =>
      intro n queue nDue state hbatch hnodup hheld h
      obtain ⟨hfirst, hrest⟩ := List.forall_mem_cons.mp hbatch
      obtain ⟨hfirstHeld, hrestHeld⟩ := List.forall_mem_cons.mp hheld
      rw [List.cons_append, List.map_cons] at hnodup
      obtain ⟨hnot, hnodup⟩ := List.nodup_cons.mp hnodup
      have hne : ∀ b' ∈ batch ++ unasked, b'.hash env ≠ b.hash env := by
        intro b' hb' heq
        exact hnot (heq ▸ List.mem_map_of_mem hb')
      obtain ⟨nDue', hstep, hmessages⟩ :=
        invStep_new hbehind hblocks hfirst last nTime n h hfirstHeld hne
      obtain ⟨nDue'', hrun, hnone⟩ := ih (n + 1) _ _ _ hrest hnodup hrestHeld hstep
      refine ⟨nDue'', ?_, ?_⟩
      · rw [List.map_cons, List.zipIdx_cons, List.foldl_cons, List.append_cons]
        exact hrun
      · rw [List.map_cons, List.zipIdx_cons, List.foldl_cons]
        exact hnone.trans hmessages
  rw [processInv, if_neg (by rw [List.length_map]; omega)]
  exact hfold _ batch 0 queue nDue (self, []) hbatch hnodup hheld h

theorem processInv_singleton (self : Endpoint) (hash : uint256) (nTime : ℤ) :
  self.processInv env [⟨CInv.BLOCK, hash⟩] nTime = invStep env (some 0) nTime (self, []) (⟨CInv.BLOCK, hash⟩, 0)
  := rfl

/-- The client has the tip of the server that is announced, and asks what follows it. -/
theorem processInv_tip
    (hbehind : Node.Behind env outside client server blocks) (nTime : ℤ)
    (h : ClientIs env outside client blocks none queue nDue unasked moved self) (hmoved : moved)
    (hp : Node.Behind.CaughtUp env client blocks (client.catchUp env outside blocks) p) :
  ClientIs env outside client blocks none queue nDue unasked False
      (self.processInv env [⟨CInv.BLOCK, p.getBlockHash⟩] nTime).1
    ∧ (self.processInv env [⟨CInv.BLOCK, p.getBlockHash⟩] nTime).2 = [.getblocks (locatorOf env (some p)) 0]
  := by
  have hknown := h.addInventoryKnown ⟨CInv.BLOCK, p.getBlockHash⟩
  have hget : (self.addInventoryKnown ⟨CInv.BLOCK, p.getBlockHash⟩).node.mapBlockIndex[p.getBlockHash]? = some p := by
    rw [hknown.node]
    exact hp.tip_indexed
  have hhave : (self.addInventoryKnown ⟨CInv.BLOCK, p.getBlockHash⟩).alreadyHave ⟨CInv.BLOCK, p.getBlockHash⟩
      = true := by
    rw [alreadyHave, if_neg (by change ¬CInv.BLOCK = CInv.TX; decide), if_pos rfl,
      ExtTreeMap.contains_eq_isSome_getElem?, hget, Option.isSome_some, Bool.true_or]
  have hnone : (self.addInventoryKnown ⟨CInv.BLOCK, p.getBlockHash⟩).orphans.mapOrphanBlocks[p.getBlockHash]?
      = none := by
    rw [hknown.pool.1]
    exact ExtTreeMap.getElem?_empty
  rw [processInv_singleton, invStep]
  dsimp only
  rw [hhave, if_neg (by decide), hnone, Option.filter_none]
  dsimp only
  rw [if_pos rfl, hget, List.nil_append]
  exact pushGetBlocks_client hbehind (List.append_nil _).symm hknown hmoved hp 0

/-- The client holds the tip of the server that is announced, and asks what leads to it. -/
theorem processInv_held
    (hbehind : Node.Behind env outside client server blocks) (hblocks : blocks = done ++ post) (nTime : ℤ)
    (h : ClientIs env outside client done (some tip) queue nDue unasked moved self) (hmoved : moved)
    (hprev : tip.block.hashPrevBlock ≠ tip.hash env)
    (hp : Node.Behind.CaughtUp env client done (client.catchUp env outside done) p) :
  ClientIs env outside client done (some tip) queue nDue unasked False
      (self.processInv env [blockInv env tip] nTime).1
    ∧ (self.processInv env [blockInv env tip] nTime).2 = [.getblocks (locatorOf env (some p)) (tip.hash env)]
  := by
  have hknown := h.addInventoryKnown (blockInv env tip)
  obtain ⟨ptr, hmap, -, -, hptr⟩ := id hknown.pool
  have hcontains := (hknown.pool.contains_iff (tip.hash env)).mpr ⟨tip, rfl, rfl⟩
  have hhave : (self.addInventoryKnown (blockInv env tip)).alreadyHave (blockInv env tip) = true := by
    rw [alreadyHave, if_neg (by change ¬CInv.BLOCK = CInv.TX; decide), if_pos (by rfl)]
    change (_ || (self.addInventoryKnown (blockInv env tip)).orphans.mapOrphanBlocks.contains (tip.hash env)) = true
    rw [hcontains, Bool.or_true]
  have hget : (self.addInventoryKnown (blockInv env tip)).orphans.mapOrphanBlocks[tip.hash env]? = some ptr := by
    rw [hmap]
    exact ExtTreeMap.getElem?_insert_self
  have hroot := getOrphanRoot_eq hknown.pool hprev hptr
  have hbest : (self.addInventoryKnown (blockInv env tip)).node.pindexBest = some p := by
    rw [hknown.node]
    exact hp.tip.pindexBest
  change ClientIs _ _ _ _ _ _ _ _ _ (invStep env (some 0) nTime (self, []) (blockInv env tip, 0)).1
    ∧ (invStep env (some 0) nTime (self, []) (blockInv env tip, 0)).2 = _
  rw [invStep]
  dsimp only
  rw [hhave, if_neg (by decide), show (blockInv env tip).hash = tip.hash env from rfl, hget, Option.filter_some,
    if_pos (by rfl)]
  dsimp only
  rw [hroot, hbest, List.nil_append]
  exact pushGetBlocks_client hbehind hblocks hknown hmoved hp (tip.hash env)

/-! ### Receiving a block -/

/-- The client accepts the next block. -/
theorem acceptBlock_next
    (hbehind : Node.Behind env outside client server blocks) (hblocks : blocks = done ++ b :: post)
    (h : ClientIs env outside client done held queue nDue unasked moved self) :
  (self.acceptBlock env outside b.onHeap).2 = true
    ∧ ClientIs env outside client (done ++ [b]) held queue nDue unasked True (self.acceptBlock env outside b.onHeap).1
    ∧ (self.acceptBlock env outside b.onHeap).1.orphans = self.orphans
  := by
  have htakes := hbehind.takes done b post hblocks
  have haccept : self.node.acceptBlock env (outside.io (b.onHeap.toCBlock.getHash env)) b.onHeap.toCBlock
      = (client.catchUp env outside (done ++ [b]), true) := by
    rw [h.node, Node.catchUp_concat, Node.step_of_takes htakes]
    exact Prod.ext rfl htakes.accepted
  have hnext : ClientIs env outside client (done ++ [b]) held queue nDue unasked True
      { self with node := client.catchUp env outside (done ++ [b]) } := by
    obtain ⟨base, rest, p, rfl, -, hp, hlast⟩ := h.last
    exact ⟨rfl, h.pool, h.ordered, h.queue_eq, h.due, h.fresh, fun inv hinv => (h.old inv hinv).concat b, base,
      rest ++ [b], p, List.append_assoc _ _ _, fun _ => List.append_ne_nil_of_right_ne_nil _ (List.cons_ne_nil _ _),
      hp, hlast⟩
  rw [acceptBlock]
  dsimp only
  rw [haccept]
  dsimp only
  split_ifs
  · exact ⟨rfl, hnext.pushInventory (oldInv_last env client done b), rfl⟩
  · exact ⟨rfl, hnext, rfl⟩
  · exact ⟨rfl, hnext.pushInventory (oldInv_last env client done b), rfl⟩
  · exact ⟨rfl, hnext, rfl⟩

/-- The checks of a block that comes when its turn is. -/
theorem extraChecks_next
    (hbehind : Node.Behind env outside client server blocks) (hblocks : blocks = done ++ b :: post) :
  (client.catchUp env outside done).extraChecks env b.block = true
    ∧ (client.catchUp env outside done).mapBlockIndex.contains b.block.hashPrevBlock = true
  := by
  obtain ⟨p, hp⟩ := hbehind.caughtUp done (b :: post) hblocks
  have hprev : b.block.hashPrevBlock = p.getBlockHash := by
    have hhead := hbehind.hashPrevBlock_eq hblocks
    rw [hp.head] at hhead
    exact (Option.some.inj hhead).symm
  constructor
  · rw [Node.extraChecks]
    split
    · rfl
    · rw [hp.tip.hashBestChain, hprev, beq_self_eq_true, if_pos rfl]
  · rw [hprev, ExtTreeMap.contains_eq_isSome_getElem?, hp.tip_indexed]
    rfl

/-- When no orphan waits for a block, the work ends with it. -/
theorem orphanLoop_other
    (fuel : ℕ) (hpool : Pool env self.orphans self.heap held) {hash : uint256}
    (hother : ∀ b, held = some b → b.block.hashPrevBlock ≠ hash) :
  orphanLoop env outside (fuel + 1) [hash] self = self
  := by
  rw [orphanLoop, take_other hpool hother]
  cases fuel <;> rfl

/-- The orphan that waits for a block is accepted after it. -/
theorem orphanLoop_held
    (hbehind : Node.Behind env outside client server blocks) (hblocks : blocks = done ++ [tip])
    (h : ClientIs env outside client done (some tip) queue nDue unasked moved self) :
  ClientIs env outside client blocks none queue nDue unasked True
    (orphanLoop env outside 2 [tip.block.hashPrevBlock] self)
  := by
  obtain ⟨ptr, orphans, htake, hptr, hempty⟩ := take_held h.pool
  obtain ⟨haccepted, hnext, -⟩ := acceptBlock_next hbehind hblocks (h.setOrphans hempty)
  rw [← hblocks] at hnext
  rw [orphanLoop, htake]
  dsimp only [List.foldl_cons, List.foldl_nil, acceptOrphan]
  rw [hptr, haccepted]
  rw [if_pos rfl, List.nil_append, List.nil_append, orphanLoop_other 0 hnext.pool (fun _ h => absurd h (by simp))]
  exact hnext

/-- `ProcessBlock` of the next block goes on to the orphans that wait for it. -/
theorem processBlock_next
    (hbehind : Node.Behind env outside client server blocks) (hblocks : blocks = done ++ b :: post)
    (h : ClientIs env outside client done held queue nDue unasked moved self)
    (hheld : ∀ tip, held = some tip → tip.hash env ≠ b.hash env) (rand : ℕ → uint256) :
  self.processBlock env outside rand b.onHeap
    = (orphanLoop env outside (self.orphans.mapOrphanBlocksByPrev.length + 1) [b.hash env]
        (self.acceptBlock env outside b.onHeap).1, [], true)
  := by
  obtain ⟨hextra, hcontains⟩ := extraChecks_next hbehind hblocks
  obtain ⟨haccepted, -, horphans⟩ := acceptBlock_next hbehind hblocks h
  have hhave := alreadyHave_new hbehind hblocks List.mem_cons_self h hheld
  rw [alreadyHave, if_neg (by change ¬CInv.BLOCK = CInv.TX; decide), if_pos (by rfl), Bool.or_eq_false_iff] at hhave
  have hcheck : b.onHeap.toCBlock.checkBlock env (outside.io (b.onHeap.toCBlock.getHash env)).nCheckTime = true :=
    (hbehind.takes done b post hblocks).checked
  rw [← h.node] at hextra hcontains
  have hnew : self.node.mapBlockIndex.contains (b.onHeap.toCBlock.getHash env) = false := hhave.1
  have hnotHeld : self.orphans.mapOrphanBlocks.contains (b.onHeap.toCBlock.getHash env) = false := hhave.2
  have hextra' : self.node.extraChecks env b.onHeap.toCBlock = true := hextra
  have hprev : self.node.mapBlockIndex.contains b.onHeap.hashPrevBlock = true := hcontains
  rw [processBlock]
  dsimp only
  rw [hnew, if_neg Bool.false_ne_true, hnotHeld, if_neg Bool.false_ne_true, hcheck, if_neg (by decide), hextra',
    if_neg (by decide), hprev, if_neg (by decide), haccepted, if_neg (by decide), horphans]
  rfl

theorem processMessage_block (rand : ℕ → uint256) (nTime : ℤ) (self : Endpoint) (b : ReceivedBlock) :
  let result := (self.addInventoryKnown (blockInv env b)).processBlock env outside rand b.onHeap
  self.processMessage env outside rand nTime (.block b.onHeap)
    = (if result.2.2 then result.1.eraseAsked (blockInv env b) else result.1, result.2.1)
  := rfl

/-- What the client does with the next block, when its orphan does not wait for it. -/
theorem processMessage_next
    (hbehind : Node.Behind env outside client server blocks) (hblocks : blocks = done ++ b :: post)
    (h : ClientIs env outside client done held queue nDue unasked moved self)
    (hheld : ∀ tip, held = some tip → tip.hash env ≠ b.hash env ∧ tip.block.hashPrevBlock ≠ b.hash env)
    (rand : ℕ → uint256) (nTime : ℤ) :
  ClientIs env outside client (done ++ [b]) held queue nDue unasked True
      (self.processMessage env outside rand nTime (.block b.onHeap)).1
    ∧ (self.processMessage env outside rand nTime (.block b.onHeap)).2 = []
  := by
  have hknown := h.addInventoryKnown (blockInv env b)
  have hprocess := processBlock_next hbehind hblocks hknown (fun tip htip => (hheld tip htip).1) rand
  obtain ⟨-, hnext, -⟩ := acceptBlock_next hbehind hblocks hknown
  rw [orphanLoop_other _ hnext.pool (fun tip htip => (hheld tip htip).2)] at hprocess
  rw [processMessage_block, hprocess, if_pos rfl]
  exact ⟨hnext.eraseAsked _, rfl⟩

/-- What the client does with the block that its orphan waits for. -/
theorem processMessage_before_held
    (hbehind : Node.Behind env outside client server blocks) (hblocks : blocks = done ++ [b, tip])
    (h : ClientIs env outside client done (some tip) queue nDue unasked moved self)
    (hne : tip.hash env ≠ b.hash env) (hprev : tip.block.hashPrevBlock = b.hash env)
    (rand : ℕ → uint256) (nTime : ℤ) :
  ClientIs env outside client blocks none queue nDue unasked True
      (self.processMessage env outside rand nTime (.block b.onHeap)).1
    ∧ (self.processMessage env outside rand nTime (.block b.onHeap)).2 = []
  := by
  have hknown := h.addInventoryKnown (blockInv env b)
  have hheld : ∀ tip', some tip = some tip' → tip'.hash env ≠ b.hash env := by
    rintro tip' heq
    obtain rfl := Option.some.inj heq
    exact hne
  have hprocess := processBlock_next hbehind hblocks hknown hheld rand
  obtain ⟨-, hnext, -⟩ := acceptBlock_next hbehind hblocks hknown
  have hlength : (self.addInventoryKnown (blockInv env b)).orphans.mapOrphanBlocksByPrev.length + 1 = 2 := by
    obtain ⟨ptr, -, hfiled, -⟩ := hknown.pool
    rw [hfiled]
    rfl
  have hsplit : blocks = (done ++ [b]) ++ [tip] := by
    rw [hblocks, List.append_assoc]
    rfl
  have hall := orphanLoop_held hbehind hsplit hnext
  rw [hprev] at hall
  rw [hlength] at hprocess
  rw [processMessage_block, hprocess, if_pos rfl]
  exact ⟨hall.eraseAsked _, rfl⟩

/-- A block is held as an orphan. -/
theorem ClientIs.holdOrphan
    (h : ClientIs env outside client done none queue nDue unasked moved self) {nAdjustedTime : ℤ}
    (hcheck : b.block.checkBlock env nAdjustedTime = true) (rand : ℕ → uint256) :
  ClientIs env outside client done (some b) queue nDue unasked moved (self.holdOrphan env rand b.onHeap).1
    ∧ (self.holdOrphan env rand b.onHeap).1.heap (self.holdOrphan env rand b.onHeap).2 = b.onHeap
  := by
  have hptr : (self.makeShared b.onHeap).1.heap (self.makeShared b.onHeap).2 = b.onHeap := Function.update_self _ _ _
  have hpool : Pool env (self.makeShared b.onHeap).1.orphans (self.makeShared b.onHeap).1.heap none := h.pool
  exact ⟨⟨h.node, hpool.add hcheck hptr rand, h.ordered, h.queue_eq, h.due, h.fresh, h.old, h.last⟩, hptr⟩

/-- The tip of the server is an orphan when it comes before other missing blocks, and the client asks what
leads to it. -/
theorem processMessage_tip
    (hbehind : Node.Behind env outside client server blocks) {mid : List ReceivedBlock}
    (hblocks : blocks = done ++ (mid ++ [tip]))
    (h : ClientIs env outside client done none queue nDue unasked moved self) (hmoved : moved)
    (hprev : tip.block.hashPrevBlock ≠ tip.hash env)
    (hmissing : (client.catchUp env outside done).mapBlockIndex.contains tip.block.hashPrevBlock = false)
    (hp : Node.Behind.CaughtUp env client done (client.catchUp env outside done) p)
    (rand : ℕ → uint256) (nTime : ℤ) :
  ClientIs env outside client done (some tip) queue nDue unasked False
      (self.processMessage env outside rand nTime (.block tip.onHeap)).1
    ∧ (self.processMessage env outside rand nTime (.block tip.onHeap)).2
      = [.getblocks (locatorOf env (some p)) (tip.hash env)]
  := by
  have hknown := h.addInventoryKnown (blockInv env tip)
  have hhave := alreadyHave_new hbehind hblocks (List.mem_append_right _ (List.mem_singleton_self _)) hknown
    (fun _ hnone => absurd hnone (by simp))
  rw [alreadyHave, if_neg (by change ¬CInv.BLOCK = CInv.TX; decide), if_pos (by rfl), Bool.or_eq_false_iff] at hhave
  have hlast : blocks = (done ++ mid) ++ [tip] := by
    rw [hblocks, List.append_assoc]
  have hcheck : tip.onHeap.toCBlock.checkBlock env (outside.io (tip.onHeap.toCBlock.getHash env)).nCheckTime = true :=
    (hbehind.takes (done ++ mid) tip [] hlast).checked
  have hnew : (self.addInventoryKnown (blockInv env tip)).node.mapBlockIndex.contains
      (tip.onHeap.toCBlock.getHash env) = false := hhave.1
  have hnotHeld : (self.addInventoryKnown (blockInv env tip)).orphans.mapOrphanBlocks.contains
      (tip.onHeap.toCBlock.getHash env) = false := hhave.2
  have hextra : (self.addInventoryKnown (blockInv env tip)).node.extraChecks env tip.onHeap.toCBlock = true := by
    rw [hknown.node]
    exact hbehind.extra (done ++ mid) tip hlast done mid rfl
  have hmissing' : (self.addInventoryKnown (blockInv env tip)).node.mapBlockIndex.contains
      tip.onHeap.hashPrevBlock = false := by
    rw [hknown.node]
    exact hmissing
  obtain ⟨hheld, hptr⟩ := hknown.holdOrphan hcheck rand
  have hroot := getOrphanRoot_eq hheld.pool hprev hptr
  have hbest : ((self.addInventoryKnown (blockInv env tip)).holdOrphan env rand tip.onHeap).1.node.pindexBest
      = some p := by
    rw [hheld.node]
    exact hp.tip.pindexBest
  obtain ⟨hclient, hmessages⟩ := pushGetBlocks_client hbehind hblocks hheld hmoved hp (tip.hash env)
  have hprocess : (self.addInventoryKnown (blockInv env tip)).processBlock env outside rand tip.onHeap
      = ((((self.addInventoryKnown (blockInv env tip)).holdOrphan env rand tip.onHeap).1.pushGetBlocks env (some p)
        (tip.hash env)).1, [.getblocks (locatorOf env (some p)) (tip.hash env)], true) := by
    rw [processBlock]
    dsimp only
    rw [hnew, if_neg Bool.false_ne_true, hnotHeld, if_neg Bool.false_ne_true, hcheck, if_neg (by decide), hextra,
      if_neg (by decide), hmissing', if_pos (by decide), hroot, hbest, hmessages]
  rw [processMessage_block, hprocess, if_pos rfl]
  exact ⟨hclient.eraseAsked _, rfl⟩

/-! ### Sending -/

/-- The client asks for what is due of its queue; all else that it sends announces old blocks. -/
theorem sendMessages_client
    (h : ClientIs env outside client done held queue nDue unasked moved self)
    (hhave : ∀ inv ∈ queue, self.alreadyHave inv = false)
    (hqueue : ∀ inv ∈ queue, ∀ b ∈ unasked, inv ≠ blockInv env b) (context : TrickleContext)
    (fSendTrickle : Bool) (nTime : ℤ) :
  ∃ (due left : List CInv) (chunks : List (List CInv)), queue = due ++ left ∧ chunks.flatten = due
    ∧ (∀ chunk ∈ chunks, chunk ≠ [] ∧ chunk.length ≤ 1000)
    ∧ ClientIs env outside client done held left nDue unasked moved (self.sendMessages context fSendTrickle nTime).1
    ∧ (self.sendMessages context fSendTrickle nTime).2.filter BlockMessage.isRequest = chunks.map .getdata
    ∧ (∀ message ∈ (self.sendMessages context fSendTrickle nTime).2, message.isRequest = false →
      ∃ vInv, message = .inv vInv ∧ ∀ inv ∈ vInv, OldInv env client done inv)
    ∧ (nDue ≤ nTime * 1000000 → left = [])
  := by
  have hnone : ∀ entry ∈ self.requests.mapAskFor 0, self.alreadyHave entry.2 = false := by
    intro entry hentry
    apply hhave
    rw [← h.queue_eq]
    exact List.mem_map_of_mem hentry
  obtain ⟨hordered, hsplit, hsent, hchunks, hasked, hsubset, hempty⟩ :=
    RequestState.sendGetData_none h.ordered hnone nTime
  obtain ⟨hold, hannounced⟩ := Announcer.sendInventory_subset context fSendTrickle h.old
  rw [h.queue_eq] at hsplit
  refine ⟨_, _, _, hsplit, hsent, hchunks, ?_, ?_, ?_, ?_⟩
  · refine ⟨h.node, h.pool, hordered, rfl, fun entry hentry => h.due entry (hsubset entry hentry), ?_, hold, h.last⟩
    intro b hb
    refine (hasked _ ?_).trans (h.fresh b hb)
    intro hmem
    exact hqueue _ (by rw [hsplit]; exact List.mem_append_left _ hmem) b hb rfl
  · change List.filter BlockMessage.isRequest (List.map BlockMessage.inv _ ++ List.map BlockMessage.getdata _) = _
    have hinvs : ∀ invs : List (List CInv), (invs.map BlockMessage.inv).filter BlockMessage.isRequest = [] := by
      intro invs
      apply List.filter_eq_nil_iff.mpr
      intro message hmessage
      obtain ⟨vInv, -, rfl⟩ := List.mem_map.mp hmessage
      exact Bool.false_ne_true
    have hgetdata : ∀ chunks : List (List CInv),
        (chunks.map BlockMessage.getdata).filter BlockMessage.isRequest = chunks.map BlockMessage.getdata := by
      intro chunks
      apply List.filter_eq_self.mpr
      intro message hmessage
      obtain ⟨vInv, -, rfl⟩ := List.mem_map.mp hmessage
      rfl
    rw [List.filter_append, hinvs, hgetdata, List.nil_append]
    rfl
  · intro message hmessage hoffer
    rcases List.mem_append.mp hmessage with hmessage | hmessage
    · obtain ⟨vInv, hvInv, rfl⟩ := List.mem_map.mp hmessage
      exact ⟨vInv, rfl, hannounced vInv hvInv⟩
    · obtain ⟨vInv, -, rfl⟩ := List.mem_map.mp hmessage
      cases hoffer
  · intro hdue
    have hnil := hempty (fun entry hentry => (h.due entry hentry).trans hdue)
    exact List.map_eq_nil_iff.mpr hnil

end Client

end Endpoint

end CorgiCoin
