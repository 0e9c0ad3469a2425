import CorgiCoin.BridgeSteps

/-!
# Paying at most once

For which runs of the daemon and the reconcile commands, with crashes and restarts at any point, no
burn output is paid twice.
-/

namespace CorgiCoin.Bridge

open Std Codec Transition BurnPayload

set_option linter.unusedSectionVars false

variable {D : Type} {chain : Chain D} [Mul D] [ToString D] {confirmations : ℤ}

/-- The outputs whose reward the daemon is still to send, of the transaction at hand. -/
def Pc.toPay : Pc D → List (uint256 × ℕ)
  | .burns _ _ _ rest => rest.map Burn.output
  | .send _ _ _ rest burn _ => burn.output :: rest.map Burn.output
  | .sent _ _ _ rest _ _ _ => rest.map Burn.output
  | _ => []

/-- The transaction a reward is about to be sent for. -/
def Pc.sending : Pc D → Option uint256
  | .send _ _ _ _ burn _ => some burn.txid
  | _ => none

/-- The commands run while the daemon is stopped. -/
def WhileStopped (sys : Sys D) : Event D → Prop
  | .start _ => sys.commands.isEmpty
  | .load _ => sys.daemon.isNone
  | _ => True

instance (sys : Sys D) : (event : Event D) → Decidable (WhileStopped sys event)
  | .start _ => inferInstanceAs (Decidable (sys.commands.isEmpty = true))
  | .load _ => inferInstanceAs (Decidable (sys.daemon.isNone = true))
  | .crash | .advance _ | .save _ => isTrue trivial

/-- What is asked of a reset that is about to be saved. -/
def OfReset (ok : uint256 → State D → Prop) (sys : Sys D) : Event D → Prop
  | .save i =>
    match sys.commands[i]? with
    | some (.reset txid, state) => ok txid state
    | _ => True
  | _ => True

instance (ok : uint256 → State D → Prop) [∀ txid state, Decidable (ok txid state)] (sys : Sys D) :
    (event : Event D) → Decidable (OfReset ok sys event)
  | .save i =>
    match h : sys.commands[i]? with
    | some (.reset txid, state) => decidable_of_iff (ok txid state) (by simp [OfReset, h])
    | some (.markDispatched _ _, _) => isTrue (by simp [OfReset, h])
    | none => isTrue (by simp [OfReset, h])
  | .start _ | .load _ | .crash | .advance _ => isTrue trivial

/-- A reset is of a transaction that no reward has landed for. -/
def ResetsUnpaid (sys : Sys D) : Event D → Prop :=
  OfReset (fun txid _ => ∀ output ∈ sys.landed, output.1 ≠ txid) sys

instance (sys : Sys D) (event : Event D) : Decidable (ResetsUnpaid sys event) :=
  inferInstanceAs (Decidable (OfReset _ sys event))

/-- A reset is of an entry whose own reward has not landed. -/
def ResetsUnlandedEntry (sys : Sys D) : Event D → Prop :=
  OfReset (fun txid state =>
    ∀ entry ∈ state.processed[txid]?, (txid, entry.vout) ∉ sys.landed) sys

instance (sys : Sys D) (event : Event D) : Decidable (ResetsUnlandedEntry sys event) :=
  inferInstanceAs (Decidable (OfReset _ sys event))

/-- What a running daemon and the file have to do with the rewards that have landed. -/
structure Daemon.Unpaid (sys : Sys D) (daemon : Daemon D) : Prop where
  alone : sys.commands = []
  state : daemon.state = sys.file
  nodup : daemon.pc.toPay.Nodup
  unpaid : ∀ output ∈ daemon.pc.toPay, output ∉ sys.landed
  sending : ∀ txid, daemon.pc.sending = some txid → sys.file.processed.contains txid = true

/-- No output has been paid twice, the transaction of a paid output has an entry, which the waiting
commands have read, and the outputs that the daemon is to pay are not paid. -/
structure PaidOnce (sys : Sys D) : Prop where
  nodup : sys.landed.Nodup
  recorded : ∀ output ∈ sys.landed, sys.file.processed.contains output.1 = true
  daemon : ∀ daemon, sys.daemon = some daemon → daemon.Unpaid sys
  commands : ∀ loaded ∈ sys.commands, ∀ output ∈ sys.landed, loaded.2.processed.contains output.1 = true

variable {state : State D}

theorem contains_record
    {txid : uint256} {entry : Entry D} {txid' : uint256} (h : state.processed.contains txid' = true) :
  (state.record txid entry).processed.contains txid' = true
  := by
  rw [State.record, ExtTreeMap.contains_insert, h, Bool.or_true]

variable {sys : Sys D} {daemon : Daemon D}

/-- Saving a state that keeps the entries, with nothing new to pay, keeps what is paid in order. -/
theorem PaidOnce.save
    (h : PaidOnce sys) (hdaemon : sys.daemon = some daemon) {pc : Pc D}
    (hstate : ∀ txid, daemon.state.processed.contains txid = true →
      state.processed.contains txid = true)
    (hpay : pc.toPay.Sublist daemon.pc.toPay)
    (hsending : ∀ txid, pc.sending = some txid → state.processed.contains txid = true) :
  PaidOnce { sys with file := state, daemon := some { daemon with state, pc } }
  := by
  have hold := h.daemon daemon hdaemon
  rw [hold.state] at hstate
  refine ⟨h.nodup, fun output hmem => hstate _ (h.recorded output hmem), ?_, ?_⟩
  · rintro daemon' ⟨⟩
    refine ⟨hold.alone, rfl, hold.nodup.sublist hpay, ?_, hsending⟩
    intro output hmem
    apply hold.unpaid output (hpay.subset hmem)
  · rw [hold.alone]
    exact fun loaded hmem => absurd hmem List.not_mem_nil

theorem PaidOnce.goto
    (h : PaidOnce sys) (hdaemon : sys.daemon = some daemon)
    {pc : Pc D} (hpay : pc.toPay.Sublist daemon.pc.toPay) (hsending : pc.sending = none) :
  PaidOnce (sys.apply daemon pc .none)
  := by
  have hsave := h.save hdaemon (fun _ => id) hpay (by
    intro txid hsome
    rw [hsending] at hsome
    cases hsome)
  rw [(h.daemon daemon hdaemon).state] at hsave
  rw [Sys.apply]
  convert hsave using 3
  rw [← (h.daemon daemon hdaemon).state]

/-- A step of the daemon keeps what is paid in order. -/
theorem PaidOnce.apply
    (h : PaidOnce sys) (hdaemon : sys.daemon = some daemon)
    {answers : Answers} {next : Effect D × Pc D} (hnext : daemon.Steps chain answers next) :
  PaidOnce (sys.apply daemon next.2 next.1)
  := by
  have hold := h.daemon daemon hdaemon
  cases hnext with
  | rest => exact h.goto hdaemon (List.nil_sublist _) rfl
  | tick safeTip hpc => exact h.goto hdaemon (List.nil_sublist _) rfl
  | block hpc => exact h.goto hdaemon (List.nil_sublist _) rfl
  | blockDone hpc hnext =>
    refine h.save hdaemon ?_ ?_ ?_
    · exact fun _ => id
    · obtain rfl | rfl := hnext
      · apply List.nil_sublist
      · apply List.nil_sublist
    · obtain rfl | rfl := hnext
      · rintro txid ⟨⟩
      · rintro txid ⟨⟩
  | skip hpc hprocessed => exact h.goto hdaemon (List.nil_sublist _) rfl
  | @extract height safeTip txid todo hpc hprocessed burns hburns =>
    refine ⟨h.nodup, h.recorded, ?_, h.commands⟩
    rintro daemon' ⟨⟩
    refine ⟨hold.alone, hold.state, nodup_extractBurns hburns, ?_, ?_⟩
    · intro output hmem hlanded
      -- a reward that landed for the transaction would have left an entry
      obtain ⟨burn, hburn, rfl⟩ := List.mem_map.mp hmem
      have hrecorded := h.recorded _ hlanded
      rw [Burn.output, ((mem_extractBurns hburns burn).mp hburn).2.1, ← hold.state,
        hprocessed] at hrecorded
      cases hrecorded
    · rintro txid ⟨⟩
  | txDone hpc => exact h.goto hdaemon (List.nil_sublist _) rfl
  | unknown hpc hpartner =>
    refine h.save hdaemon (fun _ => contains_record) ?_ ?_
    · rw [hpc]
      apply List.sublist_cons_self
    · rintro txid ⟨⟩
  | pending hpc hpartner =>
    refine h.save hdaemon (fun _ => contains_record) ?_ ?_
    · rw [hpc]
      apply List.Sublist.refl
    · rintro txid ⟨⟩
      apply ExtTreeMap.contains_insert_self
  | @send height safeTip todo burns burn partner hpc effect heffect result =>
    have hunpaid := hold.unpaid
    have hnodup := hold.nodup
    rw [hpc] at hunpaid hnodup
    obtain rfl | rfl := heffect
    · refine h.goto hdaemon ?_ rfl
      rw [hpc]
      apply List.sublist_cons_self
    · have hrest := List.nodup_cons.mp hnodup
      refine ⟨List.nodup_cons.mpr ⟨hunpaid _ List.mem_cons_self, h.nodup⟩, ?_, ?_, ?_⟩
      · intro output hmem
        obtain rfl | hmem := List.mem_cons.mp hmem
        · apply hold.sending burn.txid
          rw [hpc]
          rfl
        · apply h.recorded output hmem
      · rintro daemon' ⟨⟩
        refine ⟨hold.alone, hold.state, hrest.2, ?_, ?_⟩
        · intro output hmem hlanded
          obtain rfl | hlanded := List.mem_cons.mp hlanded
          · exact hrest.1 hmem
          · exact hunpaid output (List.mem_cons_of_mem _ hmem) hlanded
        · rintro txid ⟨⟩
      · intro loaded hmem
        have hmem : loaded ∈ sys.commands := hmem
        rw [hold.alone] at hmem
        cases hmem
  | sent hpc =>
    refine h.save hdaemon (fun _ => contains_record) ?_ ?_
    · rw [hpc]
      apply List.Sublist.refl
    · rintro txid ⟨⟩

/-- A command that saves keeps what is paid in order, if it resets no transaction that is paid. -/
theorem PaidOnce.reconcile
    (h : PaidOnce sys) {i : ℕ} {command : Command} {state' : State D}
    (hcommand : sys.commands[i]? = some (command, state))
    (hreset : ResetsUnpaid sys (.save i)) (hsave : command.reconcile state = some state') :
  PaidOnce { sys with file := state', commands := sys.commands.eraseIdx i }
  := by
  refine ⟨h.nodup, ?_, ?_, fun loaded hmem => h.commands loaded (List.mem_of_mem_eraseIdx hmem)⟩
  · intro output hmem
    have hrecorded := h.commands _ (List.mem_of_getElem? hcommand) output hmem
    obtain ⟨entry, -, -, ⟨solSig, -, rfl⟩ | ⟨heq, herase⟩⟩ := reconcile_cases hsave
    · apply contains_record hrecorded
    · rw [ResetsUnpaid, OfReset, hcommand, heq] at hreset
      have hne := (hreset output hmem).symm
      rw [herase, ExtTreeMap.contains_erase, hrecorded, Bool.and_true]
      simpa using hne
  · intro daemon hdaemon
    rw [(h.daemon daemon hdaemon).alone] at hcommand
    cases hcommand

theorem PaidOnce.step
    (h : PaidOnce sys) {event : Event D} (hstopped : WhileStopped sys event)
    (hreset : ResetsUnpaid sys event) :
  PaidOnce (sys.step chain confirmations event)
  := by
  cases event with
  | start partners =>
    have hnone : sys.commands = [] := List.isEmpty_iff.mp hstopped
    refine ⟨h.nodup, h.recorded, ?_, h.commands⟩
    rintro daemon ⟨⟩
    refine ⟨hnone, rfl, List.nodup_nil, ?_, ?_⟩
    · rintro output ⟨⟩
    · rintro txid ⟨⟩
  | crash =>
    refine ⟨h.nodup, h.recorded, ?_, h.commands⟩
    rintro daemon ⟨⟩
  | advance answers =>
    rw [Sys.step]
    cases hdaemon : sys.daemon with
    | none => apply h
    | some daemon => apply h.apply hdaemon (daemon.next_steps answers)
  | load command =>
    have hnone : sys.daemon = none := Option.isNone_iff_eq_none.mp hstopped
    refine ⟨h.nodup, h.recorded, ?_, ?_⟩
    · intro daemon hdaemon
      have hdaemon : sys.daemon = some daemon := hdaemon
      rw [hnone] at hdaemon
      cases hdaemon
    · intro loaded hmem output houtput
      rcases List.mem_append.mp hmem with hmem | hmem
      · exact h.commands loaded hmem output houtput
      · rw [List.mem_singleton.mp hmem]
        exact h.recorded output houtput
  | save i =>
    rw [Sys.step]
    cases hcommand : sys.commands[i]? with
    | none => apply h
    | some loaded =>
      obtain ⟨command, state⟩ := loaded
      dsimp only
      cases hsave : command.reconcile state with
      | none =>
        refine ⟨h.nodup, h.recorded, ?_, fun loaded hmem => h.commands loaded (List.mem_of_mem_eraseIdx hmem)⟩
        intro daemon hdaemon
        rw [(h.daemon daemon hdaemon).alone] at hcommand
        cases hcommand
      | some state' => apply h.reconcile hcommand hreset hsave

theorem paidOnce_init : PaidOnce (Sys.init : Sys D) := by
  refine ⟨List.nodup_nil, ?_, ?_, ?_⟩
  · rintro output ⟨⟩
  · rintro daemon ⟨⟩
  · exact fun loaded hmem => absurd hmem List.not_mem_nil

/-- In a run whose commands run while the daemon is stopped, and whose resets are of transactions
that no reward has landed for, no output is paid twice. -/
theorem landed_at_most_once
    (chain : Chain D) (confirmations : ℤ) {events : List (Event D)}
    (hstopped : Along (Sys.step chain confirmations) WhileStopped .init events)
    (hreset : Along (Sys.step chain confirmations) ResetsUnpaid .init events)
    (output : uint256 × ℕ) :
  (run (Sys.step chain confirmations) .init events).landed.count output ≤ 1
  := by
  have hstep : ∀ (sys : Sys D) event, WhileStopped sys event ∧ ResetsUnpaid sys event →
      PaidOnce sys → PaidOnce (sys.step chain confirmations event) :=
    fun sys event hok h => h.step hok.1 hok.2
  have hpaid := run_invariant hstep (hstopped.and hreset) paidOnce_init
  apply List.nodup_iff_count_le_one.mp hpaid.nodup

/-- The first output is paid and the second is not; its entry is reset, and the first output is
paid again. -/
def payTwice : List (Event ℕ) :=
  [.start corgPartners] ++ toBurns ++ payBurn true (.ok "sig1") ++ payBurn false (.error "timeout")
    ++ [.crash, .load (.reset 7), .save 0, .start corgPartners] ++ toBurns ++ payBurn true (.ok "sig2")

/-- With two burns in one transaction an output is paid twice, though each reset is of an entry
whose own reward has not landed. -/
theorem payTwice_lands_twice :
  Along (Sys.step twoBurns 0) WhileStopped .init payTwice
    ∧ Along (Sys.step twoBurns 0) ResetsUnlandedEntry .init payTwice
    ∧ (run (Sys.step twoBurns 0) .init payTwice).landed.count (7, 0) = 2
  := by
  decide

/-- A burn whose reward does not land, is reset and is paid once. -/
def payAfterReset : List (Event ℕ) :=
  [.start corgPartners] ++ toBurns ++ payBurn false (.error "timeout")
    ++ [.crash, .load (.reset 7), .save 0, .start corgPartners] ++ toBurns ++ payBurn true (.ok "sig")

theorem payAfterReset_lands_once :
  (run (Sys.step (chainOf [⟨burnScript corgTag, 5⟩]) 0) .init payAfterReset).landed = [(7, 0)]
    ∧ (run (Sys.step (chainOf [⟨burnScript corgTag, 5⟩]) 0) .init payAfterReset).landed.count (7, 0)
      ≤ 1
  := ⟨by decide,
    landed_at_most_once _ _ (by decide) (by decide) _⟩

end CorgiCoin.Bridge
