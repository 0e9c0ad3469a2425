import CorgiCoin.Bridge
import Mathlib.Data.List.Nodup

/-!
# Steps of the burn bridge

What `extract_burns` makes of a transaction, everything that a step of the daemon can do, and what a
reconcile command makes of the file.
-/

namespace CorgiCoin.Bridge

open Std Codec Transition BurnPayload

set_option linter.unusedSectionVars false

variable {D : Type} {chain : Chain D}

/-! ## The burns of a transaction -/

/-- The value and the payload of an output that burns. -/
def Chain.burn? (chain : Chain D) (txid : uint256) (n : ℕ) : Option (D × Decoded) :=
  (chain.vout txid)[n]?.bind
    (fun vout => (decodeScript vout.scriptPubKey).map (fun decoded => (vout.value, decoded)))

variable {n : ℕ} {txid : uint256}

theorem Chain.lt_of_isSome_burn?
    (h : (chain.burn? txid n).isSome) :
  n < (chain.vout txid).length
  := by
  obtain ⟨burn, hburn⟩ := Option.isSome_iff_exists.mp h
  obtain ⟨vout, hvout, -⟩ := Option.bind_eq_some_iff.mp hburn
  exact (List.getElem?_eq_some_iff.mp hvout).1

/-- A transaction has one burn output at most. -/
def Chain.SingleBurn (chain : Chain D) (txid : uint256) : Prop :=
  ∀ n m, (chain.burn? txid n).isSome → (chain.burn? txid m).isSome → n = m

/-- The burn that `extract_burns` makes of an output, unless its call of `decodeburn` fails. -/
def burnOf (txid : uint256) (height : ℕ) (decodeburn : ℕ → Rpc) (output : Vout D × ℕ) :
    Option (Burn D) :=
  if decodeburn output.2 = .result then
    (decodeScript output.1.scriptPubKey).map (fun decoded =>
      ⟨txid, height, decoded.partner, decoded.solDest, output.1.value, output.2⟩)
  else none

variable {height : ℕ} {decodeburn : ℕ → Rpc} {burns : List (Burn D)}

theorem scanOutputs_eq
    {vouts : List (Vout D)} (h : scanOutputs txid height decodeburn n vouts = some burns) :
  burns = (vouts.zipIdx n).filterMap (burnOf txid height decodeburn)
  := by
  induction vouts generalizing n burns with
  | nil =>
    rw [scanOutputs, Option.some.injEq] at h
    rw [← h]
    rfl
  | cons vout vouts ih =>
    rw [List.zipIdx_cons, List.filterMap_cons]
    rw [scanOutputs] at h
    cases hrpc : decodeburn n with
    | exception => simp [hrpc] at h
    | error =>
      simp only [hrpc] at h
      simp [burnOf, hrpc, ih h]
    | result =>
      simp only [hrpc] at h
      cases hscript : decodeScript vout.scriptPubKey with
      | none =>
        simp only [hscript] at h
        simp [burnOf, hrpc, hscript, ih h]
      | some decoded =>
        simp only [hscript, Option.map_eq_some_iff] at h
        obtain ⟨rest, hrest, rfl⟩ := h
        simp [burnOf, hrpc, hscript, ih hrest]

variable {rpc : Rpc}

/-- The burns that are extracted are those outputs that burn and whose `decodeburn` is answered. -/
theorem mem_extractBurns
    (h : extractBurns chain txid height rpc decodeburn = some burns) (burn : Burn D) :
  burn ∈ burns ↔ decodeburn burn.vout = .result ∧ burn.txid = txid ∧ burn.height = height
    ∧ chain.burn? txid burn.vout = some (burn.amountCorg, ⟨burn.partner, burn.solDest⟩)
  := by
  rw [extractBurns] at h
  split_ifs at h
  rw [scanOutputs_eq h, List.mem_filterMap]
  constructor
  · rintro ⟨⟨vout, n⟩, hmem, hburn⟩
    rw [List.mem_zipIdx_iff_getElem?] at hmem
    rw [burnOf] at hburn
    split_ifs at hburn with hrpc
    obtain ⟨decoded, hdecoded, rfl⟩ := Option.map_eq_some_iff.mp hburn
    refine ⟨hrpc, rfl, rfl, ?_⟩
    simp only at hmem hdecoded
    simp [Chain.burn?, hmem, hdecoded]
  · rintro ⟨hrpc, rfl, rfl, hburn⟩
    rw [Chain.burn?, Option.bind_eq_some_iff] at hburn
    obtain ⟨vout, hvout, hburn⟩ := hburn
    obtain ⟨decoded, hdecoded, heq⟩ := Option.map_eq_some_iff.mp hburn
    obtain ⟨hvalue, rfl⟩ := Prod.mk.injEq .. ▸ heq
    refine ⟨(vout, burn.vout), List.mem_zipIdx_iff_getElem?.mpr hvout, ?_⟩
    rw [burnOf, if_pos hrpc, hdecoded, Option.map_some, hvalue]

/-- Where no exception leaves `extract_burns`, none came from `decodeburn`. -/
theorem scanOutputs_answers
    {vouts : List (Vout D)} (h : scanOutputs txid height decodeburn n vouts = some burns)
    {i : ℕ} (hi : i < vouts.length) :
  decodeburn (n + i) ≠ .exception
  := by
  induction vouts generalizing n burns i with
  | nil => cases hi
  | cons vout vouts ih =>
    rw [scanOutputs] at h
    have hrest : ∃ rest, scanOutputs txid height decodeburn (n + 1) vouts = some rest := by
      cases hrpc : decodeburn n with
      | exception => simp [hrpc] at h
      | error =>
        simp only [hrpc] at h
        exact ⟨burns, h⟩
      | result =>
        simp only [hrpc] at h
        split at h
        · exact ⟨burns, h⟩
        · obtain ⟨rest, hrest, -⟩ := Option.map_eq_some_iff.mp h
          exact ⟨rest, hrest⟩
    obtain ⟨rest, hrest⟩ := hrest
    cases i with
    | zero =>
      intro hrpc
      rw [Nat.add_zero] at hrpc
      simp [hrpc] at h
    | succ i =>
      rw [Nat.add_comm i 1, ← Nat.add_assoc]
      apply ih hrest
      simpa using hi

/-- A burn output whose `decodeburn` does not fail with an error response is extracted. -/
theorem exists_mem_extractBurns
    (h : extractBurns chain txid height rpc decodeburn = some burns) {amount : D}
    {decoded : Decoded} (hburn : chain.burn? txid n = some (amount, decoded))
    (hanswer : decodeburn n ≠ .error) :
  ⟨txid, height, decoded.partner, decoded.solDest, amount, n⟩ ∈ burns
  := by
  rw [mem_extractBurns h]
  refine ⟨?_, rfl, rfl, hburn⟩
  have hlt : n < (chain.vout txid).length := by
    apply Chain.lt_of_isSome_burn?
    rw [hburn]
    rfl
  rw [extractBurns] at h
  split_ifs at h
  have hexception := scanOutputs_answers h hlt
  rw [Nat.zero_add] at hexception
  cases hrpc : decodeburn n with
  | result => rfl
  | error => exact absurd hrpc hanswer
  | exception => exact absurd hrpc hexception

/-- An output of the chain. -/
def Burn.output (burn : Burn D) : uint256 × ℕ := (burn.txid, burn.vout)

theorem nodup_extractBurns
    (h : extractBurns chain txid height rpc decodeburn = some burns) :
  (burns.map Burn.output).Nodup
  := by
  rw [extractBurns] at h
  split_ifs at h
  rw [scanOutputs_eq h, List.Nodup, List.pairwise_map, List.pairwise_filterMap]
  have hindices : (((chain.vout txid).zipIdx).map Prod.snd).Nodup := by
    rw [List.zipIdx_map_snd]
    exact List.nodup_range'
  apply (List.pairwise_map.mp hindices).imp
  intro output output' hne burn hburn burn' hburn' heq
  apply hne
  rw [burnOf] at hburn hburn'
  split_ifs at hburn hburn'
  obtain ⟨decoded, -, rfl⟩ := Option.map_eq_some_iff.mp hburn
  obtain ⟨decoded', -, rfl⟩ := Option.map_eq_some_iff.mp hburn'
  exact (Prod.mk.injEq .. ▸ heq).2

theorem extractBurns_tail
    {burn : Burn D} {rest : List (Burn D)} (hsingle : chain.SingleBurn txid)
    (h : extractBurns chain txid height rpc decodeburn = some (burn :: rest)) :
  rest = []
  := by
  have hburn : ∀ burn' ∈ burn :: rest, burn'.txid = txid ∧ (chain.burn? txid burn'.vout).isSome := by
    intro burn' hmem
    obtain ⟨-, htxid, -, hburn⟩ := (mem_extractBurns h burn').mp hmem
    exact ⟨htxid, Option.isSome_of_eq_some hburn⟩
  obtain ⟨htxid, hsome⟩ := hburn burn List.mem_cons_self
  rw [List.eq_nil_iff_forall_not_mem]
  intro burn' hmem
  obtain ⟨htxid', hsome'⟩ := hburn burn' (List.mem_cons_of_mem _ hmem)
  have hnodup := nodup_extractBurns h
  rw [List.map_cons, List.nodup_cons] at hnodup
  apply hnodup.1
  refine List.mem_map.mpr ⟨burn', hmem, ?_⟩
  rw [Burn.output, Burn.output, htxid, htxid', hsingle _ _ hsome' hsome]

/-! ## Steps of the daemon -/

variable [Mul D] [ToString D] {confirmations : ℤ}

/-- What a step of the daemon can do. -/
inductive Daemon.Steps (chain : Chain D) (daemon : Daemon D) (answers : Answers) :
    Effect D × Pc D → Prop
  /-- There is nothing to do, or an exception ends the tick. -/
  | rest : Steps chain daemon answers (.none, .idle)
  | tick (safeTip : ℤ) (hpc : daemon.pc = .idle) :
      Steps chain daemon answers (.none, .fetch (daemon.state.lastHeight + 1) safeTip)
  | block {height : ℕ} {safeTip : ℤ} (hpc : daemon.pc = .fetch height safeTip) :
      Steps chain daemon answers (.none, .txs height safeTip (chain.block height))
  | blockDone {height : ℕ} {safeTip : ℤ} (hpc : daemon.pc = .txs height safeTip [])
      {pc : Pc D} (hnext : pc = .fetch (height + 1) safeTip ∨ pc = .idle) :
      Steps chain daemon answers (.saveHeight height, pc)
  | skip {height : ℕ} {safeTip : ℤ} {txid : uint256} {todo : List uint256}
      (hpc : daemon.pc = .txs height safeTip (txid :: todo))
      (hprocessed : daemon.state.processed.contains txid = true) :
      Steps chain daemon answers (.none, .txs height safeTip todo)
  | extract {height : ℕ} {safeTip : ℤ} {txid : uint256} {todo : List uint256}
      (hpc : daemon.pc = .txs height safeTip (txid :: todo))
      (hprocessed : daemon.state.processed.contains txid = false) {burns : List (Burn D)}
      (hburns : extractBurns chain txid height answers.rpc answers.decodeburn = some burns) :
      Steps chain daemon answers (.none, .burns height safeTip todo burns)
  | txDone {height : ℕ} {safeTip : ℤ} {todo : List uint256}
      (hpc : daemon.pc = .burns height safeTip todo []) :
      Steps chain daemon answers (.none, .txs height safeTip todo)
  | unknown {height : ℕ} {safeTip : ℤ} {todo : List uint256} {burn : Burn D}
      {burns : List (Burn D)} (hpc : daemon.pc = .burns height safeTip todo (burn :: burns))
      (hpartner : daemon.partners burn.partner = none) :
      Steps chain daemon answers
        (.save burn.txid burn.skippedEntry, .burns height safeTip todo burns)
  | pending {height : ℕ} {safeTip : ℤ} {todo : List uint256} {burn : Burn D}
      {burns : List (Burn D)} (hpc : daemon.pc = .burns height safeTip todo (burn :: burns))
      {partner : Partner D} (hpartner : daemon.partners burn.partner = some partner) :
      Steps chain daemon answers (.save burn.txid (burn.baseEntry partner .pending),
        .send height safeTip todo burns burn partner)
  | send {height : ℕ} {safeTip : ℤ} {todo : List uint256} {burns : List (Burn D)}
      {burn : Burn D} {partner : Partner D}
      (hpc : daemon.pc = .send height safeTip todo burns burn partner) {effect : Effect D}
      (heffect : effect = .none ∨ effect = .land burn.txid burn.vout)
      (result : Except String String) :
      Steps chain daemon answers (effect, .sent height safeTip todo burns burn partner result)
  | sent {height : ℕ} {safeTip : ℤ} {todo : List uint256} {burns : List (Burn D)}
      {burn : Burn D} {partner : Partner D} {result : Except String String}
      (hpc : daemon.pc = .sent height safeTip todo burns burn partner result) :
      Steps chain daemon answers
        (.save burn.txid (burn.resultEntry partner result), .burns height safeTip todo burns)

theorem Daemon.next_steps (daemon : Daemon D) (answers : Answers) :
  daemon.Steps chain answers (daemon.next chain confirmations answers)
  := by
  rw [Daemon.next]
  split
  case h_1 hpc =>
    dsimp only
    split_ifs
    · apply Steps.rest
    · apply Steps.rest
    · apply Steps.tick _ hpc
  case h_2 height safeTip hpc =>
    split_ifs
    · apply Steps.rest
    · apply Steps.block hpc
  case h_3 height safeTip hpc =>
    apply Steps.blockDone hpc
    split_ifs
    · exact .inl rfl
    · exact .inr rfl
  case h_4 height safeTip txid todo hpc =>
    split_ifs with hprocessed
    · apply Steps.skip hpc hprocessed
    · rw [State.alreadyProcessed, Bool.not_eq_true] at hprocessed
      split
      · apply Steps.rest
      · next hburns => apply Steps.extract hpc hprocessed hburns
  case h_5 hpc => apply Steps.txDone hpc
  case h_6 height safeTip todo burn burns hpc =>
    split
    · next hpartner => apply Steps.unknown hpc hpartner
    · next hpartner => apply Steps.pending hpc hpartner
  case h_7 hpc =>
    dsimp only
    split_ifs
    · apply Steps.send hpc (.inl rfl)
    · apply Steps.send hpc (.inr rfl)
    · apply Steps.send hpc (.inl rfl)
  case h_8 hpc => apply Steps.sent hpc

/-- The transaction that the daemon is about to extract the burns of. -/
def Daemon.extracting (daemon : Daemon D) : Option uint256 :=
  match daemon.pc with
  | .txs _ _ (txid :: _) => if daemon.state.alreadyProcessed txid then none else some txid
  | _ => none

/-! ## Commands -/

/-- What a command that does not refuse makes of the file. -/
theorem reconcile_cases
    {state state' : State D} {command : Command} (h : command.reconcile state = some state') :
  ∃ entry, state.processed[command.txid]? = some entry ∧ entry.status ∈ RECONCILABLE_STATUSES
    ∧ ((∃ solSig, command = .markDispatched command.txid solSig ∧ state' = state.record command.txid
          { entry with error := none, status := .dispatched, solSig := some solSig })
      ∨ (command = .reset command.txid
        ∧ state'.processed = state.processed.erase command.txid))
  := by
  cases command with
  | markDispatched txid solSig =>
    rw [Command.reconcile, reconcileMarkDispatched] at h
    cases hentry : state.processed[txid]? with
    | none =>
      rw [hentry] at h
      cases h
    | some entry =>
      rw [hentry] at h
      dsimp only at h
      split_ifs at h with _ hstatus
      exact ⟨entry, hentry, hstatus, .inl ⟨solSig, rfl, (Option.some.inj h).symm⟩⟩
  | reset txid =>
    rw [Command.reconcile, reconcileReset] at h
    cases hentry : state.processed[txid]? with
    | none =>
      rw [hentry] at h
      cases h
    | some entry =>
      rw [hentry] at h
      dsimp only at h
      split_ifs at h with _ hstatus
      · refine ⟨entry, hentry, hstatus, .inr ⟨rfl, ?_⟩⟩
        rw [← Option.some.inj h]
        rfl
      · refine ⟨entry, hentry, hstatus, .inr ⟨rfl, ?_⟩⟩
        rw [← Option.some.inj h]
        rfl

/-! ## A chain with one transaction -/

def corgTag : Bytes := [0x43, 0x4f, 0x52, 0x47]

/-- A burn for a partner, to a fixed destination. -/
def burnScript (tag : Bytes) : CScript :=
  [UInt8.ofNat OP_RETURN, 39] ++ MAGIC ++ tag ++ List.replicate 32 1

/-- A chain whose block of height 1 has one transaction, with the given outputs. -/
def chainOf (outputs : List (Vout ℕ)) : Chain ℕ where
  block height := if height = 1 then [7] else []
  vout txid := if txid = 7 then outputs else []
  genesis := by
    intro txid hmem
    cases hmem

def corgPartners (tag : Bytes) : Option (Partner ℕ) :=
  if tag = corgTag then some ⟨corgTag, 1, fun reward => reward⟩ else none

/-- A step of the daemon for which every call to the node returns, with one block over the
first. -/
def stepWith (lands : Bool) (sendReward : Except String String) : Event ℕ :=
  .advance ⟨1, .result, fun _ => .result, lands, sendReward⟩

/-- The steps of the daemon from the start of a tick to the burns of the first transaction. -/
def toBurns : List (Event ℕ) :=
  List.replicate 3 (stepWith false (.ok ""))

/-- The steps of a burn: `pending` is saved, `send_reward` is called, its result is saved. -/
def payBurn (lands : Bool) (sendReward : Except String String) : List (Event ℕ) :=
  List.replicate 3 (stepWith lands sendReward)

def twoBurns : Chain ℕ := chainOf [⟨burnScript corgTag, 5⟩, ⟨burnScript corgTag, 3⟩]

end CorgiCoin.Bridge
