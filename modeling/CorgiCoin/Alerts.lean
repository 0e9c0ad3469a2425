import CorgiCoin.SignRawTransaction
import Mathlib.Data.Fintype.Card

/-!
# Alerts

An alert is signed with the key of the project, holds for a time and can cancel others.  A node keeps the
alerts that it has accepted and that none of them has cancelled.  Where alerts cancel each other in an
orderly way, two nodes that have got the same alerts, in whatever order and however often, hold the same
ones in effect.
-/

namespace CorgiCoin

open Std Codec

/-! ## Alerts on the wire -/

/-- `CUnsignedAlert`; of the sets only the elements matter. -/
structure CUnsignedAlert where
  nVersion : Int32
  nRelayUntil : Int64
  nExpiration : Int64
  nID : Int32
  nCancel : Int32
  setCancel : List Int32
  nMinVer : Int32
  nMaxVer : Int32
  setSubVer : List Bytes
  nPriority : Int32
  strComment : Bytes
  strStatusBar : Bytes
  strReserved : Bytes
  deriving DecidableEq

/-- `Unserialize` of a set. -/
def unserializeSet {α : Type} (read : Reader α) : Reader (List α) := do
  let nSize ← readCompactSize
  readMany read nSize

def CUnsignedAlert.unserialize : Reader CUnsignedAlert := do
  let nVersion ← unserializeInt
  let nRelayUntil ← unserializeInt64
  let nExpiration ← unserializeInt64
  let nID ← unserializeInt
  let nCancel ← unserializeInt
  let setCancel ← unserializeSet unserializeInt
  let nMinVer ← unserializeInt
  let nMaxVer ← unserializeInt
  let setSubVer ← unserializeSet unserializeBytes
  let nPriority ← unserializeInt
  let strComment ← unserializeBytes
  let strStatusBar ← unserializeBytes
  let strReserved ← unserializeBytes
  return { nVersion, nRelayUntil, nExpiration, nID, nCancel, setCancel, nMinVer, nMaxVer, setSubVer,
           nPriority, strComment, strStatusBar, strReserved }

/-- `CAlert` -/
structure CAlert extends CUnsignedAlert where
  vchMsg : Bytes
  vchSig : Bytes
  deriving DecidableEq

/-- The public key that alerts are signed with. -/
def alertPubKey : Bytes :=
  parseHex ("040184710fa689ad5023690c80f3a49c8f13f8d45b8c857fbcbc8bc4a8e4d3eb4b10f4d4604fa08dce601aaf0f"
    ++ "470216fe1b51850b4acf21b179c45070ac7b03a9").toList

namespace CAlert

def getHash (crypto : Crypto) (alert : CAlert) : uint256 :=
  crypto.hash (serializeBytes alert.vchMsg ++ serializeBytes alert.vchSig)

def isInEffect (nAdjustedTime : Int64) (alert : CAlert) : Bool := nAdjustedTime < alert.nExpiration

/-- Whether the numbers of an alert are among those that another one cancels. -/
def names (alert other : CAlert) : Bool := other.nID ≤ alert.nCancel || alert.setCancel.contains other.nID

def cancels (nAdjustedTime : Int64) (alert other : CAlert) : Bool :=
  alert.isInEffect nAdjustedTime && alert.names other

/-- `CheckSignature`: the alert that a message holds; `none` also where the message cannot be read, which
throws. -/
def checkSignature (crypto : Crypto) (ecdsa : Ecdsa) (vchMsg vchSig : Bytes) : Option CAlert :=
  if !ecdsa.setPubKey alertPubKey then none
  else if !ecdsa.verify alertPubKey (crypto.hash vchMsg) vchSig then none
  else (CUnsignedAlert.unserialize.run vchMsg).map (fun result => { result.1 with vchMsg, vchSig })

/-- The alerts that an alert that is in effect leaves in the map. -/
def keep (nAdjustedTime : Int64) (alert : CAlert) (mapAlerts : ExtTreeMap uint256 CAlert) :
    ExtTreeMap uint256 CAlert :=
  mapAlerts.filter (fun _ other => !alert.cancels nAdjustedTime other && other.isInEffect nAdjustedTime)

/-- `ProcessAlert`: the map after it, and whether the alert is accepted. -/
def processAlert (crypto : Crypto) (ecdsa : Ecdsa) (nAdjustedTime : Int64)
    (mapAlerts : ExtTreeMap uint256 CAlert) (vchMsg vchSig : Bytes) : ExtTreeMap uint256 CAlert × Bool :=
  match checkSignature crypto ecdsa vchMsg vchSig with
  | none => (mapAlerts, false)
  | some alert =>
    if !alert.isInEffect nAdjustedTime then (mapAlerts, false)
    else
      let kept := alert.keep nAdjustedTime mapAlerts
      if kept.toList.any (fun item => item.2.cancels nAdjustedTime alert) then (kept, false)
      else (kept.insertIfNew (alert.getHash crypto) alert, true)

/-- An `alert` message, and the time when it comes. -/
structure Message where
  nAdjustedTime : Int64
  vchMsg : Bytes
  vchSig : Bytes

/-- The map after messages. -/
def processAll (crypto : Crypto) (ecdsa : Ecdsa) (mapAlerts : ExtTreeMap uint256 CAlert)
    (messages : List Message) : ExtTreeMap uint256 CAlert :=
  messages.foldl (fun mapAlerts message =>
    (processAlert crypto ecdsa message.nAdjustedTime mapAlerts message.vchMsg message.vchSig).1) mapAlerts

/-- The alerts of messages that are signed and in effect when they come. -/
def received (crypto : Crypto) (ecdsa : Ecdsa) (messages : List Message) : List CAlert :=
  messages.filterMap (fun message =>
    (checkSignature crypto ecdsa message.vchMsg message.vchSig).filter (isInEffect message.nAdjustedTime))

/-! ## Alerts that cancel each other -/

/-- Alerts whose numbers are given out in an orderly way: what cancels an alert cancels also what that one
cancels, none cancels itself, and none is cancelled for a part of its time only.  Their hashes are
different. -/
structure Orderly (crypto : Crypto) (alerts : List CAlert) : Prop where
  trans : ∀ a ∈ alerts, ∀ b ∈ alerts, ∀ c ∈ alerts, c.names b = true → b.names a = true →
    c.names a = true
  irrefl : ∀ a ∈ alerts, a.names a = false
  outlives : ∀ a ∈ alerts, ∀ b ∈ alerts, b.names a = true → a.nExpiration ≤ b.nExpiration
  hash : ∀ a ∈ alerts, ∀ b ∈ alerts, a.getHash crypto = b.getHash crypto → a = b

variable {crypto : Crypto} {ecdsa : Ecdsa} {alerts : List CAlert} {mapAlerts : ExtTreeMap uint256 CAlert}

/-- A cancelled alert is cancelled by one that is not cancelled. -/
theorem Orderly.exists_uncancelled
    (h : Orderly crypto alerts) {a b : CAlert} (ha : a ∈ alerts) (hb : b ∈ alerts) (hcancel : b.names a = true) :
  ∃ c ∈ alerts, c.names a = true ∧ ∀ d ∈ alerts, d.names c = false
  := by
  let above : {x // x ∈ alerts} → {x // x ∈ alerts} → Prop := fun x y => x.1.names y.1 = true
  have htrans : IsTrans _ above := ⟨fun x y z hxy hyz => h.trans _ z.2 _ y.2 _ x.2 hxy hyz⟩
  have hirrefl : Std.Irrefl above := ⟨fun x hx => by
    have hfalse := h.irrefl x.1 x.2
    rw [show x.1.names x.1 = true from hx] at hfalse
    cases hfalse⟩
  have hwf : WellFounded above := Finite.wellFounded_of_trans_of_irrefl above
  obtain ⟨c, hc, hmin⟩ := hwf.has_min {x | x.1.names a = true} ⟨⟨b, hb⟩, hcancel⟩
  refine ⟨c.1, c.2, hc, ?_⟩
  intro d hd
  rw [Bool.eq_false_iff]
  intro hnames
  exact hmin ⟨d, hd⟩ (h.trans a ha c.1 c.2 d hd hnames hc) hnames

/-- The map holds alerts that were received, under their hashes, and of those in effect just those that
none cancels. -/
structure Holds (crypto : Crypto) (nAdjustedTime : Int64) (alerts : List CAlert)
    (mapAlerts : ExtTreeMap uint256 CAlert) : Prop where
  mem : ∀ hash alert, mapAlerts[hash]? = some alert → alert ∈ alerts ∧ alert.getHash crypto = hash
  held : ∀ alert ∈ alerts, alert.isInEffect nAdjustedTime = true →
    (mapAlerts[alert.getHash crypto]? = some alert ↔ ∀ other ∈ alerts, other.names alert = false)

theorem isInEffect_of_le {nAdjustedTime nTime : Int64} (hle : nAdjustedTime ≤ nTime) {alert : CAlert}
    (h : alert.isInEffect nTime = true) :
  alert.isInEffect nAdjustedTime = true
  := by
  rw [isInEffect, decide_eq_true_eq, Int64.lt_iff_toInt_lt] at h ⊢
  rw [Int64.le_iff_toInt_le] at hle
  omega

theorem Holds.later
    {nAdjustedTime nTime : Int64} (h : Holds crypto nAdjustedTime alerts mapAlerts) (hle : nAdjustedTime ≤ nTime) :
  Holds crypto nTime alerts mapAlerts
  where
  mem := h.mem
  held alert halert heffect := h.held alert halert (isInEffect_of_le hle heffect)

theorem Orderly.mono {alerts' : List CAlert} (h : Orderly crypto alerts) (hsub : alerts' ⊆ alerts) :
  Orderly crypto alerts'
  where
  trans a ha b hb c hc := h.trans a (hsub ha) b (hsub hb) c (hsub hc)
  irrefl a ha := h.irrefl a (hsub ha)
  outlives a ha b hb := h.outlives a (hsub ha) b (hsub hb)
  hash a ha b hb := h.hash a (hsub ha) b (hsub hb)

/-! ## Processing alerts -/

section Process

variable {nAdjustedTime : Int64} {alert : CAlert}

theorem getElem?_keep (alert : CAlert) (mapAlerts : ExtTreeMap uint256 CAlert) (hash : uint256) :
  (alert.keep nAdjustedTime mapAlerts)[hash]? = mapAlerts[hash]?.filter (fun other =>
    !alert.cancels nAdjustedTime other && other.isInEffect nAdjustedTime)
  := by
  rw [keep, ExtTreeMap.getElem?_filter']

/-- Of what is in effect, the alerts that the new one does not name are kept. -/
theorem getElem?_keep_iff
    (heffect : alert.isInEffect nAdjustedTime = true) {other : CAlert}
    (hother : other.isInEffect nAdjustedTime = true) (hash : uint256) :
  (alert.keep nAdjustedTime mapAlerts)[hash]? = some other
    ↔ mapAlerts[hash]? = some other ∧ alert.names other = false
  := by
  rw [getElem?_keep, Option.filter_eq_some_iff, cancels, heffect, hother, Bool.true_and, Bool.and_true,
    Bool.not_eq_true']

/-- What is kept is of the map. -/
theorem getElem?_of_keep
    {hash : uint256} {other : CAlert} (h : (alert.keep nAdjustedTime mapAlerts)[hash]? = some other) :
  mapAlerts[hash]? = some other
  := by
  rw [getElem?_keep, Option.filter_eq_some_iff] at h
  exact h.1

/-- What a signed alert that is in effect makes of the map. -/
def accept (crypto : Crypto) (nAdjustedTime : Int64) (mapAlerts : ExtTreeMap uint256 CAlert) (alert : CAlert) :
    ExtTreeMap uint256 CAlert :=
  let kept := alert.keep nAdjustedTime mapAlerts
  if kept.toList.any (fun item => item.2.cancels nAdjustedTime alert) then kept
  else kept.insertIfNew (alert.getHash crypto) alert

theorem processAlert_eq
    (mapAlerts : ExtTreeMap uint256 CAlert) (vchMsg vchSig : Bytes) :
  (processAlert crypto ecdsa nAdjustedTime mapAlerts vchMsg vchSig).1
    = ((checkSignature crypto ecdsa vchMsg vchSig).filter (isInEffect nAdjustedTime)).elim mapAlerts
      (accept crypto nAdjustedTime mapAlerts)
  := by
  rw [processAlert]
  cases checkSignature crypto ecdsa vchMsg vchSig with
  | none => rfl
  | some alert =>
    dsimp only
    cases heffect : alert.isInEffect nAdjustedTime with
    | false =>
      rw [if_pos (by rfl), Option.filter_some, heffect]
      rfl
    | true =>
      rw [if_neg (by decide), Option.filter_some, heffect, if_pos rfl, Option.elim_some, accept]
      split_ifs
      · rfl
      · rfl

/-- An alert that is received keeps the map as it should be. -/
theorem Holds.accept
    (h : Holds crypto nAdjustedTime alerts mapAlerts) (horderly : Orderly crypto (alerts ++ [alert]))
    (heffect : alert.isInEffect nAdjustedTime = true) :
  Holds crypto nAdjustedTime (alerts ++ [alert]) (accept crypto nAdjustedTime mapAlerts alert)
  := by
  have hlast : alert ∈ alerts ++ [alert] := List.mem_append_right _ (List.mem_singleton_self alert)
  have hall : ∀ other : CAlert,
      (∀ a ∈ alerts ++ [alert], a.names other = false)
        ↔ (∀ a ∈ alerts, a.names other = false) ∧ alert.names other = false := by
    intro other
    simp only [List.mem_append, List.mem_singleton, or_imp, forall_and, forall_eq]
  have hkept : ∀ other ∈ alerts, other.isInEffect nAdjustedTime = true →
      ((alert.keep nAdjustedTime mapAlerts)[other.getHash crypto]? = some other
        ↔ ∀ a ∈ alerts ++ [alert], a.names other = false) := by
    intro other hother hin
    rw [getElem?_keep_iff heffect hin, h.held other hother hin, hall]
  have hmem : ∀ hash other, (alert.keep nAdjustedTime mapAlerts)[hash]? = some other →
      other ∈ alerts ∧ other.getHash crypto = hash :=
    fun hash other hget => h.mem hash other (getElem?_of_keep hget)
  rw [CAlert.accept]
  split_ifs with hany
  · obtain ⟨⟨hash, canceller⟩, hitem, hcancels⟩ := List.any_eq_true.mp hany
    obtain ⟨hcanceller, -⟩ := hmem hash canceller (ExtTreeMap.mem_toList_iff_getElem?_eq_some.mp hitem)
    obtain ⟨-, hnames⟩ := Bool.and_eq_true_iff.mp hcancels
    constructor
    · intro hash other hget
      obtain ⟨hother, hhash⟩ := hmem hash other hget
      exact ⟨List.mem_append_left _ hother, hhash⟩
    · intro other hother hin
      rcases List.mem_append.mp hother with hother | hother
      · exact hkept other hother hin
      · obtain rfl := List.mem_singleton.mp hother
        have hcancelled : ¬∀ a ∈ alerts ++ [other], a.names other = false := by
          intro hnone
          rw [hnone canceller (List.mem_append_left _ hcanceller)] at hnames
          cases hnames
        apply iff_of_false _ hcancelled
        intro hget
        obtain ⟨hold, -⟩ := hmem _ _ hget
        exact hcancelled ((hkept other hold hin).mp hget)
  · have hfound : ((alert.keep nAdjustedTime mapAlerts).insertIfNew (alert.getHash crypto) alert)[
        alert.getHash crypto]? = some alert := by
      rw [ExtTreeMap.getElem?_insertIfNew]
      split_ifs with hnew
      · rfl
      · have hin : alert.getHash crypto ∈ alert.keep nAdjustedTime mapAlerts := by
          by_contra hnot
          exact hnew ⟨Std.ReflCmp.compare_self, hnot⟩
        obtain ⟨other, hother⟩ := Option.isSome_iff_exists.mp (ExtTreeMap.mem_iff_isSome_getElem?.mp hin)
        obtain ⟨hmem, hhash⟩ := hmem _ _ hother
        rw [hother, horderly.hash other (List.mem_append_left _ hmem) alert hlast hhash]
    have hothers : ∀ hash, hash ≠ alert.getHash crypto →
        ((alert.keep nAdjustedTime mapAlerts).insertIfNew (alert.getHash crypto) alert)[hash]?
          = (alert.keep nAdjustedTime mapAlerts)[hash]? := by
      intro hash hne
      rw [ExtTreeMap.getElem?_insertIfNew, if_neg]
      rintro ⟨hsame, -⟩
      exact hne (LawfulEqCmp.eq_of_compare hsame).symm
    constructor
    · intro hash other hget
      rcases eq_or_ne hash (alert.getHash crypto) with rfl | hne
      · rw [hfound, Option.some_inj] at hget
        rw [← hget]
        exact ⟨hlast, rfl⟩
      · rw [hothers hash hne] at hget
        obtain ⟨hother, hhash⟩ := hmem hash other hget
        exact ⟨List.mem_append_left _ hother, hhash⟩
    · intro other hother hin
      rcases eq_or_ne other alert with rfl | hne
      · apply iff_of_true hfound
        intro a ha
        rw [Bool.eq_false_iff]
        intro hnames
        obtain ⟨c, hc, hcnames, hcfree⟩ := horderly.exists_uncancelled hlast ha hnames
        have hold : c ∈ alerts := by
          rcases List.mem_append.mp hc with hc | hc
          · exact hc
          · rw [List.mem_singleton.mp hc, horderly.irrefl other hlast] at hcnames
            cases hcnames
        have hcin : c.isInEffect nAdjustedTime = true := by
          have hle := horderly.outlives other hlast c hc hcnames
          rw [isInEffect, decide_eq_true_eq, Int64.lt_iff_toInt_lt] at heffect ⊢
          rw [Int64.le_iff_toInt_le] at hle
          omega
        apply hany
        rw [List.any_eq_true]
        have hkeep := (hkept c hold hcin).mpr hcfree
        refine ⟨(c.getHash crypto, c), ExtTreeMap.mem_toList_iff_getElem?_eq_some.mpr hkeep, ?_⟩
        rw [cancels, hcin, hcnames]
        rfl
      · have hold : other ∈ alerts := by
          rcases List.mem_append.mp hother with hother | hother
          · exact hother
          · exact absurd (List.mem_singleton.mp hother) hne
        have hhash : other.getHash crypto ≠ alert.getHash crypto :=
          fun hsame => hne (horderly.hash other hother alert hlast hsame)
        rw [hothers _ hhash]
        exact hkept other hold hin

end Process

/-! ## Runs -/

theorem holds_empty (nAdjustedTime : Int64) :
  Holds crypto nAdjustedTime [] ∅
  where
  mem hash alert h := by
    rw [ExtTreeMap.getElem?_empty] at h
    cases h
  held alert h := absurd h List.not_mem_nil

/-- Messages that come in the order of their times keep the map as it should be. -/
theorem Holds.processAll
    {nAdjustedTime nTime : Int64} (h : Holds crypto nAdjustedTime alerts mapAlerts) (messages : List Message)
    (horder : (nAdjustedTime :: messages.map Message.nAdjustedTime ++ [nTime]).Pairwise (· ≤ ·))
    (horderly : Orderly crypto (alerts ++ received crypto ecdsa messages)) :
  Holds crypto nTime (alerts ++ received crypto ecdsa messages) (processAll crypto ecdsa mapAlerts messages)
  := by
  induction messages generalizing nAdjustedTime alerts mapAlerts with
  | nil =>
    have hle : nAdjustedTime ≤ nTime := by simpa using horder
    rw [received, List.filterMap_nil, List.append_nil]
    exact h.later hle
  | cons message messages ih =>
    obtain ⟨hfirst, hrest⟩ := List.pairwise_cons.mp horder
    have hle : nAdjustedTime ≤ message.nAdjustedTime := hfirst _ (by simp)
    have hnow := h.later hle
    rw [CAlert.processAll, List.foldl_cons, processAlert_eq]
    rw [received, List.filterMap_cons] at horderly ⊢
    cases hreceived : (checkSignature crypto ecdsa message.vchMsg message.vchSig).filter
        (isInEffect message.nAdjustedTime) with
    | none =>
      rw [hreceived] at horderly
      exact ih hnow hrest horderly
    | some alert =>
      rw [hreceived] at horderly
      dsimp only at horderly ⊢
      rw [Option.elim_some]
      have heffect : alert.isInEffect message.nAdjustedTime = true := (Option.filter_eq_some_iff.mp hreceived).2
      rw [List.append_cons] at horderly ⊢
      exact ih (hnow.accept (horderly.mono (List.subset_append_left _ _)) heffect) hrest horderly

/-- Two nodes that received the same alerts, each in its own order and however often, hold the same of them
that are in effect: those that no other one cancels. -/
theorem alerts_converge
    (crypto : Crypto) (ecdsa : Ecdsa) {messages messages' : List Message} {nTime : Int64}
    (horder : (messages.map Message.nAdjustedTime ++ [nTime]).Pairwise (· ≤ ·))
    (horder' : (messages'.map Message.nAdjustedTime ++ [nTime]).Pairwise (· ≤ ·))
    (hsame : ∀ alert, alert ∈ received crypto ecdsa messages ↔ alert ∈ received crypto ecdsa messages')
    (horderly : Orderly crypto (received crypto ecdsa messages))
    {alert : CAlert} (heffect : alert.isInEffect nTime = true) (hash : uint256) :
  ((processAll crypto ecdsa ∅ messages)[hash]? = some alert
    ↔ (processAll crypto ecdsa ∅ messages')[hash]? = some alert)
  ∧ ((processAll crypto ecdsa ∅ messages)[hash]? = some alert
    ↔ alert ∈ received crypto ecdsa messages ∧ alert.getHash crypto = hash
      ∧ ∀ other ∈ received crypto ecdsa messages, other.names alert = false)
  := by
  have hchar : ∀ {messages : List Message}, (messages.map Message.nAdjustedTime ++ [nTime]).Pairwise (· ≤ ·) →
      Orderly crypto (received crypto ecdsa messages) →
      ((processAll crypto ecdsa ∅ messages)[hash]? = some alert
        ↔ alert ∈ received crypto ecdsa messages ∧ alert.getHash crypto = hash
          ∧ ∀ other ∈ received crypto ecdsa messages, other.names alert = false) := by
    intro messages horder horderly
    have hholds : Holds crypto nTime (received crypto ecdsa messages) (processAll crypto ecdsa ∅ messages) := by
      cases hmessages : messages with
      | nil => exact holds_empty nTime
      | cons message rest =>
        have hstart : (message.nAdjustedTime :: messages.map Message.nAdjustedTime ++ [nTime]).Pairwise
            (· ≤ ·) := by
          apply List.pairwise_cons.mpr ⟨?_, horder⟩
          rw [hmessages] at horder ⊢
          intro nLater hlater
          rcases List.mem_cons.mp hlater with rfl | hlater
          · exact Int64.le_refl _
          · exact (List.pairwise_cons.mp horder).1 nLater hlater
        have hrun := (holds_empty message.nAdjustedTime).processAll messages hstart (by rwa [List.nil_append])
        rw [List.nil_append] at hrun
        rw [← hmessages]
        exact hrun
    constructor
    · intro hget
      obtain ⟨hmem, hhash⟩ := hholds.mem hash alert hget
      rw [← hhash] at hget
      exact ⟨hmem, hhash, (hholds.held alert hmem heffect).mp hget⟩
    · rintro ⟨hmem, rfl, hfree⟩
      exact (hholds.held alert hmem heffect).mpr hfree
  have hfirst := hchar horder horderly
  have hsecond := hchar horder' (horderly.mono (fun a ha => (hsame a).mpr ha))
  refine ⟨?_, hfirst⟩
  rw [hfirst, hsecond]
  simp only [hsame]

/-! ## Two alerts -/

/-- An alert that holds until 1000. -/
def sampleMsg (nID nCancel : ℕ) : Bytes :=
  toLE 4 1 ++ toLE 8 100 ++ toLE 8 1000 ++ toLE 4 nID ++ toLE 4 nCancel ++ [0] ++ toLE 4 0 ++ toLE 4 99999
    ++ [0] ++ toLE 4 1 ++ [0, 0, 0]

def sampleAlert (nID nCancel : ℕ) : CAlert :=
  { nVersion := 1, nRelayUntil := 100, nExpiration := 1000, nID := Int32.ofNat nID
    nCancel := Int32.ofNat nCancel, setCancel := [], nMinVer := 0, nMaxVer := 99999, setSubVer := []
    nPriority := 1, strComment := [], strStatusBar := [], strReserved := []
    vchMsg := sampleMsg nID nCancel, vchSig := [] }

def anySignature : Ecdsa := ⟨fun _ => true, fun _ _ _ => true⟩

/-- The second alert cancels the first one, whichever comes first. -/
theorem sampleAlert_converge :
  (processAll sampleCrypto anySignature ∅ [⟨10, sampleMsg 1 0, []⟩, ⟨20, sampleMsg 2 1, []⟩])[
      (sampleAlert 1 0).getHash sampleCrypto]? ≠ some (sampleAlert 1 0)
    ∧ (processAll sampleCrypto anySignature ∅ [⟨10, sampleMsg 2 1, []⟩, ⟨20, sampleMsg 1 0, []⟩])[
      (sampleAlert 1 0).getHash sampleCrypto]? ≠ some (sampleAlert 1 0)
  := by
  have hfirst : received sampleCrypto anySignature [⟨10, sampleMsg 1 0, []⟩, ⟨20, sampleMsg 2 1, []⟩]
      = [sampleAlert 1 0, sampleAlert 2 1] := by
    decide
  have hsecond : received sampleCrypto anySignature [⟨10, sampleMsg 2 1, []⟩, ⟨20, sampleMsg 1 0, []⟩]
      = [sampleAlert 2 1, sampleAlert 1 0] := by
    decide
  have hsame : ∀ alert,
      alert ∈ [sampleAlert 1 0, sampleAlert 2 1] ↔ alert ∈ [sampleAlert 2 1, sampleAlert 1 0] := by
    intro alert
    rw [List.mem_pair, List.mem_pair, or_comm]
  have horderly : Orderly sampleCrypto [sampleAlert 1 0, sampleAlert 2 1] := by
    constructor
    · decide
    · decide
    · decide
    · decide +kernel
  obtain ⟨hboth, hchar⟩ := @alerts_converge sampleCrypto anySignature
    [⟨10, sampleMsg 1 0, []⟩, ⟨20, sampleMsg 2 1, []⟩] [⟨10, sampleMsg 2 1, []⟩, ⟨20, sampleMsg 1 0, []⟩] 30
    (by decide) (by decide) (by rwa [hfirst, hsecond]) (by rwa [hfirst]) (sampleAlert 1 0) (by decide)
    ((sampleAlert 1 0).getHash sampleCrypto)
  have hcancelled : ¬∀ other ∈ [sampleAlert 1 0, sampleAlert 2 1], other.names (sampleAlert 1 0) = false := by
    decide
  rw [hfirst] at hchar
  have hnot := fun h => hcancelled (hchar.mp h).2.2
  exact ⟨hnot, fun h => hnot (hboth.mpr h)⟩

end CAlert

end CorgiCoin
