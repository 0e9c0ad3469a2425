import CorgiCoin.BridgeSteps

/-!
# Losing no status change

For which interleavings of the daemon's saves with those of the reconcile commands no saved change
of status is lost.
-/

namespace CorgiCoin.Bridge

open Std Codec Transition BurnPayload

set_option linter.unusedSectionVars false

variable {D : Type} {chain : Chain D} [Mul D] [ToString D] {confirmations : ℤ}

def State.status (state : State D) (txid : uint256) : Option Status :=
  state.processed[txid]?.map Entry.status

/-- The changes of status that the daemon and the commands make. -/
inductive Follows : Option Status → Option Status → Prop
  | pending : Follows none (some .pending)
  | skipped : Follows none (some .skippedUnknownPartner)
  | dispatchError : Follows (some .pending) (some .dispatchError)
  | dispatched {status : Status} (h : status ∈ RECONCILABLE_STATUSES) :
      Follows (some status) (some .dispatched)
  | reset {status : Status} (h : status ∈ RECONCILABLE_STATUSES) : Follows (some status) none

/-- The transaction of the entry that an effect saves. -/
def Effect.subject : Effect D → Option uint256
  | .save txid _ => some txid
  | _ => Option.none

def Effect.saves : Effect D → Bool
  | .save _ _ | .saveHeight _ => true
  | _ => false

/-- The transaction whose entry a step saves. -/
def Event.subject (chain : Chain D) (confirmations : ℤ) (sys : Sys D) : Event D → Option uint256
  | .advance answers =>
    sys.daemon.bind (fun daemon => (daemon.next chain confirmations answers).1.subject)
  | .save i => sys.commands[i]?.map (fun loaded => loaded.1.txid)
  | _ => none

/-- A step leaves the saved entries of other transactions, and moves that of its own one step on. -/
def KeepsChanges (chain : Chain D) (confirmations : ℤ) (sys : Sys D) (event : Event D) : Prop :=
  ∀ txid, (sys.step chain confirmations event).file.processed[txid]? = sys.file.processed[txid]?
    ∨ (event.subject chain confirmations sys = some txid
      ∧ Follows (sys.file.status txid) ((sys.step chain confirmations event).file.status txid))

/-- A process that is about to save holds the entries that the file holds: no other process has
saved since it read or wrote the file. -/
def SavesCurrent (chain : Chain D) (confirmations : ℤ) (sys : Sys D) : Event D → Prop
  | .advance answers => ∀ daemon ∈ sys.daemon,
      (daemon.next chain confirmations answers).1.saves →
        daemon.state.processed = sys.file.processed
  | .save i => ∀ loaded ∈ sys.commands[i]?, (loaded.1.reconcile loaded.2).isSome →
      loaded.2.processed = sys.file.processed
  | _ => True

instance [DecidableEq D] (sys : Sys D) :
    (event : Event D) → Decidable (SavesCurrent chain confirmations sys event)
  | .advance _ => Option.decidableForallMem sys.daemon
  | .save i => Option.decidableForallMem sys.commands[i]?
  | .start _ | .load _ | .crash => isTrue trivial

/-- The transactions that burns are extracted from have one burn output at most. -/
def ExtractsSingle (chain : Chain D) (sys : Sys D) : Event D → Prop
  | .advance _ => ∀ daemon ∈ sys.daemon, ∀ txid ∈ daemon.extracting, chain.SingleBurn txid
  | _ => True

/-- The entry in memory that the next save replaces is the one the save goes on from. -/
def Pc.Ready (state : State D) : Pc D → Prop
  | .burns _ _ _ (burn :: rest) => rest = [] ∧ state.status burn.txid = none
  | .send _ _ _ rest burn _ => rest = [] ∧ state.status burn.txid = some .pending
  | .sent _ _ _ rest burn _ _ => rest = [] ∧ state.status burn.txid = some .pending
  | _ => True

def Ready (sys : Sys D) : Prop :=
  ∀ daemon, sys.daemon = some daemon → daemon.pc.Ready daemon.state

theorem State.status_record_self (state : State D) (txid : uint256) (entry : Entry D) :
  (state.record txid entry).status txid = some entry.status
  := by
  rw [State.status, State.record, ExtTreeMap.getElem?_insert_self, Option.map_some]

variable {sys : Sys D}

theorem Ready.apply
    {daemon : Daemon D} (h : daemon.pc.Ready daemon.state) {answers : Answers}
    {next : Effect D × Pc D} (hnext : daemon.Steps chain answers next)
    (hsingle : ∀ txid ∈ daemon.extracting, chain.SingleBurn txid) :
  Ready (sys.apply daemon next.2 next.1)
  := by
  rintro daemon' hdaemon'
  cases hnext with
  | rest | tick | block | skip | txDone =>
    obtain rfl := Option.some.inj hdaemon'
    trivial
  | blockDone hpc hnext =>
    obtain rfl := Option.some.inj hdaemon'
    obtain rfl | rfl := hnext
    · trivial
    · trivial
  | @extract height safeTip txid todo hpc hprocessed burns hburns =>
    obtain rfl := Option.some.inj hdaemon'
    cases burns with
    | nil => trivial
    | cons burn rest =>
      have hextracting : daemon.extracting = some txid := by
        rw [Daemon.extracting, hpc]
        simp [State.alreadyProcessed, hprocessed]
      refine ⟨extractBurns_tail (hsingle txid hextracting) hburns, ?_⟩
      rw [((mem_extractBurns hburns burn).mp List.mem_cons_self).2.1, State.status,
        ExtTreeMap.getElem?_eq_none_of_contains_eq_false hprocessed, Option.map_none]
  | unknown hpc hpartner =>
    obtain rfl := Option.some.inj hdaemon'
    rw [hpc] at h
    rw [h.1]
    trivial
  | pending hpc hpartner =>
    obtain rfl := Option.some.inj hdaemon'
    rw [hpc] at h
    exact ⟨h.1, State.status_record_self _ _ _⟩
  | @send height safeTip todo burns burn partner hpc effect heffect result =>
    rw [hpc] at h
    obtain rfl | rfl := heffect
    · obtain rfl := Option.some.inj hdaemon'
      exact h
    · obtain rfl := Option.some.inj hdaemon'
      exact h
  | sent hpc =>
    obtain rfl := Option.some.inj hdaemon'
    rw [hpc] at h
    rw [h.1]
    trivial

variable {event : Event D}

theorem Ready.step
    (h : Ready sys) (hsingle : ExtractsSingle chain sys event) :
  Ready (sys.step chain confirmations event)
  := by
  cases event with
  | start partners =>
    rintro daemon ⟨⟩
    trivial
  | crash => rintro daemon ⟨⟩
  | advance answers =>
    rw [Sys.step]
    cases hdaemon : sys.daemon with
    | none => apply h
    | some daemon =>
      exact Ready.apply (h daemon hdaemon) (daemon.next_steps answers) (hsingle daemon hdaemon)
  | load command => apply h
  | save i =>
    rw [Sys.step]
    cases hcommand : sys.commands[i]? with
    | none => apply h
    | some loaded =>
      dsimp only
      cases hsave : loaded.1.reconcile loaded.2 with
      | none => apply h
      | some state' => apply h

theorem changes_record
    {state file : State D} (hcurrent : state.processed = file.processed) {txid : uint256}
    {entry : Entry D} (hfollows : Follows (state.status txid) (some entry.status))
    (txid' : uint256) :
  (state.record txid entry).processed[txid']? = file.processed[txid']?
    ∨ (some txid = some txid'
      ∧ Follows (file.status txid') ((state.record txid entry).status txid'))
  := by
  by_cases heq : txid = txid'
  · subst heq
    right
    refine ⟨rfl, ?_⟩
    rw [State.status_record_self, State.status, ← hcurrent]
    apply hfollows
  · left
    rw [State.record, TreeMap.getElem?_insert_of_ne heq, hcurrent]

/-- A step of the daemon whose copy is that of the file keeps the changes of status. -/
theorem changes_apply
    {daemon : Daemon D} (h : daemon.pc.Ready daemon.state) {answers : Answers}
    {next : Effect D × Pc D} (hnext : daemon.Steps chain answers next)
    (hcurrent : next.1.saves → daemon.state.processed = sys.file.processed) (txid : uint256) :
  (sys.apply daemon next.2 next.1).file.processed[txid]? = sys.file.processed[txid]?
    ∨ (next.1.subject = some txid
      ∧ Follows (sys.file.status txid) ((sys.apply daemon next.2 next.1).file.status txid))
  := by
  cases hnext with
  | rest | tick | block | skip | extract | txDone => exact .inl rfl
  | blockDone hpc hnext =>
    left
    rw [← hcurrent rfl]
    rfl
  | unknown hpc hpartner =>
    rw [hpc] at h
    apply changes_record (hcurrent rfl)
    rw [h.2]
    apply Follows.skipped
  | pending hpc hpartner =>
    rw [hpc] at h
    apply changes_record (hcurrent rfl)
    rw [h.2]
    apply Follows.pending
  | send hpc heffect result =>
    left
    obtain rfl | rfl := heffect
    · rfl
    · rfl
  | @sent height safeTip todo burns burn partner result hpc =>
    rw [hpc] at h
    apply changes_record (hcurrent rfl)
    rw [h.2]
    cases result with
    | error e => apply Follows.dispatchError
    | ok solSig => apply Follows.dispatched List.mem_cons_self

/-- A command whose copy is that of the file keeps the changes of status. -/
theorem changes_reconcile
    {state state' file : State D} (hcurrent : state.processed = file.processed)
    {command : Command} (h : command.reconcile state = some state') (txid : uint256) :
  state'.processed[txid]? = file.processed[txid]?
    ∨ (some command.txid = some txid ∧ Follows (file.status txid) (state'.status txid))
  := by
  obtain ⟨entry, hentry, hstatus, ⟨solSig, -, rfl⟩ | ⟨-, herase⟩⟩ := reconcile_cases h
  · apply changes_record hcurrent
    rw [State.status, hentry, Option.map_some]
    apply Follows.dispatched hstatus
  · by_cases heq : command.txid = txid
    · subst heq
      right
      refine ⟨rfl, ?_⟩
      rw [State.status, State.status, herase, ← hcurrent, hentry, ExtTreeMap.getElem?_erase_self]
      apply Follows.reset hstatus
    · left
      rw [herase, TreeMap.getElem?_erase_of_ne heq, hcurrent]

theorem Ready.keepsChanges
    (h : Ready sys) (hcurrent : SavesCurrent chain confirmations sys event) :
  KeepsChanges chain confirmations sys event
  := by
  intro txid
  cases event with
  | start | crash | load => exact .inl rfl
  | advance answers =>
    rw [Sys.step, Event.subject]
    cases hdaemon : sys.daemon with
    | none => exact .inl rfl
    | some daemon =>
      exact changes_apply (h daemon hdaemon) (daemon.next_steps answers)
        (hcurrent daemon hdaemon) txid
  | save i =>
    rw [Sys.step, Event.subject]
    cases hcommand : sys.commands[i]? with
    | none => exact .inl rfl
    | some loaded =>
      dsimp only
      cases hsave : loaded.1.reconcile loaded.2 with
      | none => exact .inl rfl
      | some state' =>
        exact changes_reconcile (hcurrent loaded hcommand (Option.isSome_of_eq_some hsave)) hsave txid

theorem not_follows_dispatched
    {status : Option Status} :
  ¬Follows (some .dispatched) status
  := by
  intro h
  cases h with
  | dispatched hmem => exact absurd hmem (by decide)
  | reset hmem => exact absurd hmem (by decide)

/-- A kept change leaves an entry that is saved as dispatched. -/
theorem KeepsChanges.dispatched
    (h : KeepsChanges chain confirmations sys event)
    {txid : uint256} {entry : Entry D} (hstatus : entry.status = .dispatched)
    (hentry : sys.file.processed[txid]? = some entry) :
  (sys.step chain confirmations event).file.processed[txid]? = some entry
  := by
  obtain heq | ⟨-, hfollows⟩ := h txid
  · rw [heq, hentry]
  · rw [State.status, hentry, Option.map_some, hstatus] at hfollows
    exact absurd hfollows not_follows_dispatched

/-- In a run in which every process saves what it has read last, and no transaction has two burns,
no saved change of status is lost; an entry that is saved as dispatched stays in the file. -/
theorem changes_kept
    (chain : Chain D) (confirmations : ℤ) {events : List (Event D)}
    (hsingle : Along (Sys.step chain confirmations) (ExtractsSingle chain) .init events)
    (hcurrent : Along (Sys.step chain confirmations) (SavesCurrent chain confirmations) .init
      events) :
  Along (Sys.step chain confirmations) (KeepsChanges chain confirmations) .init events
    ∧ ∀ i j, i ≤ j → ∀ (txid : uint256) (entry : Entry D), entry.status = .dispatched →
      (run (Sys.step chain confirmations) .init (events.take i)).file.processed[txid]?
        = some entry →
      (run (Sys.step chain confirmations) .init (events.take j)).file.processed[txid]?
        = some entry
  := by
  have hready : Ready (Sys.init : Sys D) := by rintro daemon ⟨⟩
  have hkeeps : Along (Sys.step chain confirmations) (KeepsChanges chain confirmations) .init
      events := by
    refine Along.of_invariant ?_ ?_ (hsingle.and hcurrent) hready
    · exact fun sys event hok h => h.step hok.1
    · exact fun sys event hok h => h.keepsChanges hok.2
  refine ⟨hkeeps, ?_⟩
  intro i j hij txid entry hstatus hentry
  have hstep : ∀ (sys : Sys D) event, KeepsChanges chain confirmations sys event →
      sys.file.processed[txid]? = some entry →
      (sys.step chain confirmations event).file.processed[txid]? = some entry :=
    fun sys event hkeep => hkeep.dispatched hstatus
  exact run_take_of_le hstep hkeeps hij hentry

/-- The entry of a failed reward is marked as dispatched while the daemon runs, and the daemon goes
on to the end of the block. -/
def markWhileRunning : List (Event ℕ) :=
  [.start corgPartners] ++ toBurns ++ payBurn false (.error "timeout")
    ++ [.load (.markDispatched 7 "sig"), .save 0] ++ List.replicate 2 (stepWith false (.ok ""))

/-- The daemon's save of the height undoes the mark. -/
theorem markWhileRunning_lost :
  (run (Sys.step (chainOf [⟨burnScript corgTag, 5⟩]) 0) .init
      (markWhileRunning.take 9)).file.status 7 = some .dispatched
    ∧ (run (Sys.step (chainOf [⟨burnScript corgTag, 5⟩]) 0) .init markWhileRunning).file.status 7
      = some .dispatchError
  := by
  decide

/-- The entry is marked while the daemon runs, and the daemon stops before it saves again. -/
def markBeforeCrash : List (Event ℕ) :=
  [.start corgPartners] ++ toBurns ++ payBurn false (.error "timeout")
    ++ [.load (.markDispatched 7 "sig"), .save 0, .crash, .start corgPartners]
    ++ List.replicate 4 (stepWith false (.ok ""))

theorem singleBurn_chainOf (vout : Vout ℕ) (txid : uint256) :
  (chainOf [vout]).SingleBurn txid
  := by
  have hzero : ∀ n, ((chainOf [vout]).burn? txid n).isSome → n = 0 := by
    intro n hsome
    have hlt := Chain.lt_of_isSome_burn? hsome
    dsimp only [chainOf] at hlt
    split_ifs at hlt
    · simpa using hlt
    · cases hlt
  intro n m hn hm
  rw [hzero n hn, hzero m hm]

theorem markBeforeCrash_kept :
  ∃ entry : Entry ℕ, entry.status = .dispatched
    ∧ (run (Sys.step (chainOf [⟨burnScript corgTag, 5⟩]) 0) .init
      (markBeforeCrash.take 9)).file.processed[(7 : uint256)]? = some entry
    ∧ (run (Sys.step (chainOf [⟨burnScript corgTag, 5⟩]) 0) .init
      (markBeforeCrash.take 15)).file.processed[(7 : uint256)]? = some entry
    ∧ (run (Sys.step (chainOf [⟨burnScript corgTag, 5⟩]) 0) .init
      (markBeforeCrash.take 15)).file.lastHeight = 1
  := by
  have hsingle : Along (Sys.step (chainOf [⟨burnScript corgTag, 5⟩]) 0)
      (ExtractsSingle (chainOf [⟨burnScript corgTag, 5⟩])) .init markBeforeCrash := by
    apply along_of_forall_mem
    intro event _ sys
    cases event with
    | advance answers => exact fun daemon _ txid _ => singleBurn_chainOf _ txid
    | _ => trivial
  have hkept := (changes_kept (chainOf [⟨burnScript corgTag, 5⟩]) 0 hsingle (by decide)).2
  refine ⟨⟨.dispatched, corgTag, 1, 5, some 5, some (List.replicate 32 1), none, some "sig", 0⟩,
    rfl, ?_, hkept 9 15 (by decide) 7 _ rfl ?_, ?_⟩
  · decide
  · decide
  · decide

end CorgiCoin.Bridge
