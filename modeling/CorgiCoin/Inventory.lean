import CorgiCoin.SignatureHash
import CorgiCoin.Lib.RecentWindow

/-!
# Announcing inventory

A node tells each peer which transactions and blocks it has, and remembers in a set of limited size what
the peer knows.  What is queued for a peer is announced sooner or later, in messages that the peer does
not reject, and not again before as many other entries as the set holds have come between.
-/

namespace CorgiCoin

open Std Lib

/-! ## Sets that keep the most recent elements -/

/-- `mruset` -/
structure mruset (T : Type) (cmp : T → T → Ordering) where
  set : ExtTreeSet T cmp
  queue : List T
  nMaxSize : ℕ

namespace mruset

variable {T : Type} {cmp : T → T → Ordering} [TransCmp cmp]

/-- `insert`, and whether the element is new. -/
def insert (m : mruset T cmp) (x : T) : mruset T cmp × Bool :=
  if m.set.contains x then (m, false)
  else
    let set := m.set.insert x
    match m.queue with
    | front :: queue =>
      if m.nMaxSize ≠ 0 ∧ m.queue.length = m.nMaxSize then
        ({ m with set := set.erase front, queue := queue ++ [x] }, true)
      else ({ m with set, queue := m.queue ++ [x] }, true)
    | [] => ({ m with set, queue := [x] }, true)

/-- `max_size` of a number: the oldest elements go until the others fit. -/
def maxSize (m : mruset T cmp) (s : ℕ) : mruset T cmp :=
  let n := if s ≠ 0 then m.queue.length - s else 0
  { set := (m.queue.take n).foldl (fun set x => set.erase x) m.set
    queue := m.queue.drop n
    nMaxSize := s }

/-- An empty set of a size. -/
def ofSize (s : ℕ) : mruset T cmp := maxSize ⟨∅, [], 0⟩ s

/-- The set holds what the queue holds. -/
def Wf (m : mruset T cmp) : Prop := ∀ x, x ∈ m.set ↔ x ∈ m.queue

theorem ofSize_eq (s : ℕ) :
  (ofSize s : mruset T cmp) = ⟨∅, [], s⟩
  := by
  have hnone : (if s ≠ 0 then (0 : ℕ) - s else 0) = 0 := by
    split_ifs
    · exact Nat.zero_sub s
    · rfl
  rw [ofSize, maxSize]
  dsimp only [List.length_nil]
  rw [hnone]
  rfl

variable [LawfulEqCmp cmp] [DecidableEq T]

/-- Inserting moves the window on. -/
theorem insert_spec {m : mruset T cmp} (h : m.Wf) (hnodup : m.queue.Nodup) (x : T) :
  (m.insert x).1.Wf ∧ (m.insert x).1.queue = RecentWindow.push m.nMaxSize m.queue x
    ∧ (m.insert x).1.nMaxSize = m.nMaxSize ∧ ((m.insert x).2 = true ↔ x ∉ m.queue)
  := by
  have hmem : m.set.contains x = true ↔ x ∈ m.queue := ExtTreeSet.contains_iff_mem.trans (h x)
  have hcmp : ∀ a b : T, cmp a b = .eq ↔ a = b := fun a b => LawfulEqCmp.compare_eq_iff_eq
  rw [insert, RecentWindow.push]
  by_cases hin : x ∈ m.queue
  · rw [if_pos (hmem.mpr hin), if_pos hin]
    exact ⟨h, rfl, rfl, by simp [hin]⟩
  · rw [if_neg (fun hset => hin (hmem.mp hset)), if_neg hin]
    cases hqueue : m.queue with
    | nil =>
      dsimp only
      rw [hqueue] at hin
      refine ⟨?_, ?_, rfl, by simp⟩
      · intro y
        rw [ExtTreeSet.mem_insert, hcmp, h y, hqueue]
        simp [eq_comm]
      · split_ifs <;> rfl
    | cons front queue =>
      rw [hqueue] at hin hnodup
      dsimp only
      split_ifs with hfull
      · refine ⟨?_, rfl, rfl, by simp [hin]⟩
        intro y
        have hfront : front ∉ queue := (List.nodup_cons.mp hnodup).1
        rw [ExtTreeSet.mem_erase, Ne, hcmp, ExtTreeSet.mem_insert, hcmp, h y, hqueue]
        simp only [List.mem_cons, List.mem_append, List.not_mem_nil, or_false] at hin ⊢
        constructor
        · rintro ⟨hne, rfl | rfl | hy⟩
          · exact .inr rfl
          · exact absurd rfl hne
          · exact .inl hy
        · rintro (hy | rfl)
          · exact ⟨fun heq => hfront (heq ▸ hy), .inr (.inr hy)⟩
          · exact ⟨fun heq => hin (.inl heq.symm), .inl rfl⟩
      · refine ⟨?_, rfl, rfl, by simp [hin]⟩
        intro y
        rw [ExtTreeSet.mem_insert, hcmp, h y, hqueue]
        simp only [List.mem_cons, List.mem_append, List.not_mem_nil, or_false]
        tauto

end mruset

/-! ## Inventory -/

structure CInv where
  type : Int32
  hash : uint256
  deriving DecidableEq

namespace CInv

/-- `MsgType::Tx` -/
def TX : Int32 := 1

/-- `MsgType::Block` -/
def BLOCK : Int32 := 2

/-- `operator<` -/
def cmp : CInv → CInv → Ordering :=
  compareLex (compareOn (fun inv => inv.type.toInt)) (compareOn (fun inv => inv.hash))

instance : TransCmp cmp := inferInstanceAs (TransCmp (compareLex _ _))

instance : LawfulEqCmp cmp where
  eq_of_compare {a b} h := by
    obtain ⟨htype, hhash⟩ := compareLex_eq_eq.mp h
    obtain ⟨atype, ahash⟩ := a
    obtain ⟨btype, bhash⟩ := b
    congr 1
    · exact Int32.toInt_inj.mp (LawfulEqOrd.eq_of_compare htype)
    · exact LawfulEqOrd.eq_of_compare hhash

end CInv

/-- What a `CNode` holds for announcements. -/
structure Announcer where
  setInventoryKnown : mruset CInv CInv.cmp
  vInventoryToSend : List CInv

/-- What the node knows when it decides which transactions wait. -/
structure TrickleContext where
  crypto : Crypto
  hashSalt : uint256
  /-- Whether `GetTransaction` finds a transaction of the wallet's own. -/
  fFromMe : uint256 → Bool

/-- Whether an entry waits: a transaction of the wallet, and three of four others, until the trickle. -/
def TrickleContext.wait (context : TrickleContext) (fSendTrickle : Bool) (inv : CInv) : Bool :=
  if inv.type = CInv.TX ∧ !fSendTrickle then
    let hashRand := context.crypto.hash (serializeUint256 (inv.hash ^^^ context.hashSalt))
    hashRand &&& 3 != 0 || context.fFromMe inv.hash
  else false

namespace Announcer

/-- The inventory of a peer that has connected. -/
def connected (nMaxSize : ℕ) : Announcer := ⟨.ofSize nMaxSize, []⟩

def addInventoryKnown (node : Announcer) (inv : CInv) : Announcer :=
  { node with setInventoryKnown := (node.setInventoryKnown.insert inv).1 }

def pushInventory (node : Announcer) (inv : CInv) : Announcer :=
  if node.setInventoryKnown.set.contains inv then node
  else { node with vInventoryToSend := node.vInventoryToSend ++ [inv] }

/-- The loop over the entries to announce, `vInv` and `vInvWait` given: the set, `vInv` and `vInvWait`
after it, and the messages that it sends. -/
def announceLoop (wait : CInv → Bool) :
    List CInv → mruset CInv CInv.cmp → List CInv → List CInv →
      mruset CInv CInv.cmp × List CInv × List CInv × List (List CInv)
  | [], known, vInv, vInvWait => (known, vInv, vInvWait, [])
  | inv :: invs, known, vInv, vInvWait =>
    if known.set.contains inv then announceLoop wait invs known vInv vInvWait
    else if wait inv then announceLoop wait invs known vInv (vInvWait ++ [inv])
    else
      let (known, fNew) := known.insert inv
      if fNew then
        let vInv := vInv ++ [inv]
        if vInv.length ≥ 1000 then
          let (known, vInvLeft, vInvWait, messages) := announceLoop wait invs known [] vInvWait
          (known, vInvLeft, vInvWait, vInv :: messages)
        else announceLoop wait invs known vInv vInvWait
      else announceLoop wait invs known vInv vInvWait

/-- The announcements of `SendMessages`: the peer after them, and the `inv` messages. -/
def sendInventory (context : TrickleContext) (fSendTrickle : Bool) (node : Announcer) :
    Announcer × List (List CInv) :=
  let (known, vInv, vInvWait, messages) :=
    announceLoop (context.wait fSendTrickle) node.vInventoryToSend node.setInventoryKnown [] []
  (⟨known, vInvWait⟩, if vInv.isEmpty then messages else messages ++ [vInv])

/-- A call on the inventory of a peer. -/
inductive Op where
  | pushInventory (inv : CInv)
  | addInventoryKnown (inv : CInv)
  | sendMessages (context : TrickleContext) (fSendTrickle : Bool)

def step (node : Announcer) : Op → Announcer × List (List CInv)
  | .pushInventory inv => (node.pushInventory inv, [])
  | .addInventoryKnown inv => (node.addInventoryKnown inv, [])
  | .sendMessages context fSendTrickle => node.sendInventory context fSendTrickle

/-- The peer after a run of calls, and the messages that it was sent. -/
def run (node : Announcer) : List Op → Announcer × List (List CInv)
  | [] => (node, [])
  | op :: ops =>
    let (node, messages) := node.step op
    let (node, messages') := node.run ops
    (node, messages ++ messages')

/-- What passes between a node and a peer: an entry that the peer told, or one that the peer is sent. -/
inductive Exchange where
  | told (inv : CInv)
  | announced (inv : CInv)

def Exchange.inv : Exchange → CInv
  | .told inv => inv
  | .announced inv => inv

def Exchange.announced? : Exchange → Option CInv
  | .told _ => none
  | .announced inv => some inv

/-- What passes between the node and the peer in a call. -/
def exchanged (node : Announcer) : Op → List Exchange
  | .pushInventory _ => []
  | .addInventoryKnown inv => [.told inv]
  | .sendMessages context fSendTrickle => (node.sendInventory context fSendTrickle).2.flatten.map .announced

/-- What passes between the node and the peer in a run of calls. -/
def talk (node : Announcer) : List Op → List Exchange
  | [] => []
  | op :: ops => node.exchanged op ++ (node.step op).1.talk ops

/-- The entries of a talk that enter a set of a size: all but those that are in the set already. -/
def history (nMaxSize : ℕ) (talk : List Exchange) : List CInv :=
  RecentWindow.entered nMaxSize [] (talk.map Exchange.inv)

/-! ## What is announced -/

/-- The set is the window of the entries that were offered. -/
structure Remembers (node : Announcer) (nMaxSize : ℕ) (offered : List CInv) : Prop where
  wf : node.setInventoryKnown.Wf
  size : node.setInventoryKnown.nMaxSize = nMaxSize
  queue_eq : node.setInventoryKnown.queue = RecentWindow.offer nMaxSize [] offered

section Loop

variable {nMaxSize : ℕ} {offered : List CInv} {known : mruset CInv CInv.cmp}

theorem Remembers.nodup {node : Announcer} (h : Remembers node nMaxSize offered) :
  node.setInventoryKnown.queue.Nodup
  := by
  rw [h.queue_eq]
  exact (RecentWindow.recent_offer offered).nodup

theorem Remembers.contains_iff {node : Announcer} (h : Remembers node nMaxSize offered) {inv : CInv} :
  node.setInventoryKnown.set.contains inv = true ↔ inv ∈ RecentWindow.offer nMaxSize [] offered
  := by
  rw [← h.queue_eq, ← h.wf inv]
  exact ExtTreeSet.contains_iff_mem

end Loop

/-! ## Runs -/

/-- What the peer is sent is not in the set when it is sent. -/
def Fresh (nMaxSize : ℕ) (talk : List Exchange) : Prop :=
  ∀ before inv after, talk = before ++ .announced inv :: after →
    inv ∉ RecentWindow.offer nMaxSize [] (before.map Exchange.inv)

/-- What holds of a peer after a run of calls, what passed between it and the node given. -/
structure Announced (nMaxSize : ℕ) (ops : List Op) (talk : List Exchange) (node : Announcer)
    (messages : List (List CInv)) : Prop where
  remembers : node.Remembers nMaxSize (talk.map Exchange.inv)
  fresh : Fresh nMaxSize talk
  announced : talk.filterMap Exchange.announced? = messages.flatten
  told : ∀ inv, .told inv ∈ talk ↔ .addInventoryKnown inv ∈ ops
  size : ∀ message ∈ messages, 1 ≤ message.length ∧ message.length ≤ 1000
  pushed : ∀ inv, .pushInventory inv ∈ ops → inv ∈ talk.map Exchange.inv ∨ inv ∈ node.vInventoryToSend

section Fresh

variable {nMaxSize : ℕ} {talk : List Exchange}

end Fresh

end Announcer

end CorgiCoin
