import CorgiCoin.BridgeSteps

/-!
# Losing no burn

For which runs of the daemon, with crashes, restarts and errors of the node at any point, every burn
output of the blocks up to the saved height has its entry.
-/

namespace CorgiCoin.Bridge

open Std Codec Transition BurnPayload

set_option linter.unusedSectionVars false

variable {D : Type} {chain : Chain D} [Mul D] [ToString D] {confirmations : ℤ}

/-- An entry is that of an output: it has its value and its destination. -/
def Entry.IsOf (entry : Entry D) (n : ℕ) (amount : D) (decoded : Decoded) : Prop :=
  entry.vout = n ∧ entry.amountCorg = amount ∧ entry.solDest = some decoded.solDest

/-- Every burn output of a transaction has its entry. -/
def State.Recorded (chain : Chain D) (state : State D) (txid : uint256) : Prop :=
  ∀ n amount decoded, chain.burn? txid n = some (amount, decoded) →
    ∃ entry, state.processed[txid]? = some entry ∧ entry.IsOf n amount decoded

/-- Every burn output of the blocks up to the saved height has its entry. -/
def State.Complete (chain : Chain D) (state : State D) : Prop :=
  ∀ height ≤ state.lastHeight, ∀ txid ∈ chain.block height, state.Recorded chain txid

/-- The runs without reconcile commands. -/
def NoCommand : Event D → Prop
  | .load _ | .save _ => False
  | _ => True

/-- The burn outputs of a transaction are one at most, it is for a registered partner, and its
`decodeburn` does not fail with an error response. -/
structure Extractable (chain : Chain D) (daemon : Daemon D) (decodeburn : ℕ → Rpc)
    (txid : uint256) : Prop where
  single : chain.SingleBurn txid
  registered : ∀ n amount decoded, chain.burn? txid n = some (amount, decoded) →
    (daemon.partners decoded.partner).isSome
  answered : ∀ n, (chain.burn? txid n).isSome → decodeburn n ≠ .error

variable {daemon : Daemon D} {txid : uint256}

theorem extractable_iff
    {decodeburn : ℕ → Rpc} :
  Extractable chain daemon decodeburn txid ↔
    ∀ n < (chain.vout txid).length, ∀ burn ∈ chain.burn? txid n,
      (∀ m < (chain.vout txid).length, (chain.burn? txid m).isSome → n = m)
        ∧ (daemon.partners burn.2.partner).isSome ∧ decodeburn n ≠ .error
  := by
  constructor
  · rintro h n - burn hburn
    have hsome : (chain.burn? txid n).isSome := Option.isSome_of_eq_some hburn
    refine ⟨fun m _ hm => h.single n m hsome hm, ?_, h.answered n hsome⟩
    exact h.registered n burn.1 burn.2 hburn
  · intro h
    refine ⟨?_, ?_, ?_⟩
    · intro n m hn hm
      obtain ⟨burn, hburn⟩ := Option.isSome_iff_exists.mp hn
      exact (h n (Chain.lt_of_isSome_burn? hn) burn hburn).1 m (Chain.lt_of_isSome_burn? hm) hm
    · intro n amount decoded hburn
      have hsome : (chain.burn? txid n).isSome := Option.isSome_of_eq_some hburn
      exact (h n (Chain.lt_of_isSome_burn? hsome) _ hburn).2.1
    · intro n hn
      obtain ⟨burn, hburn⟩ := Option.isSome_iff_exists.mp hn
      exact (h n (Chain.lt_of_isSome_burn? hn) burn hburn).2.2

instance (daemon : Daemon D) (decodeburn : ℕ → Rpc) (txid : uint256) :
    Decidable (Extractable chain daemon decodeburn txid) :=
  decidable_of_iff' _ extractable_iff

/-- Each transaction is extractable when the daemon comes to it. -/
def ExtractsBurns (chain : Chain D) (sys : Sys D) : Event D → Prop
  | .advance answers => ∀ daemon ∈ sys.daemon, ∀ txid ∈ daemon.extracting,
      Extractable chain daemon answers.decodeburn txid
  | _ => True

instance (sys : Sys D) : (event : Event D) → Decidable (ExtractsBurns chain sys event)
  | .advance answers =>
    have (daemon : Daemon D) : Decidable (∀ txid ∈ daemon.extracting,
        Extractable chain daemon answers.decodeburn txid) :=
      Option.decidableForallMem daemon.extracting
    Option.decidableForallMem sys.daemon
  | .start _ | .load _ | .crash | .save _ => isTrue trivial

/-- A burn stands for every burn output of its transaction. -/
def Burn.Sole (chain : Chain D) (burn : Burn D) : Prop :=
  ∀ n amount decoded, chain.burn? burn.txid n = some (amount, decoded) →
    burn.vout = n ∧ burn.amountCorg = amount ∧ burn.solDest = decoded.solDest

/-- The transactions of the block of a height that are not to come, nor excepted, have their
entries. -/
def State.Scanned (chain : Chain D) (state : State D) (height : ℕ) (todo : List uint256)
    (except : Option uint256) : Prop :=
  height = state.lastHeight + 1 ∧
    ∀ txid ∈ chain.block height, txid ∉ todo → some txid ≠ except → state.Recorded chain txid

/-- What has been scanned where the daemon is. -/
def Pc.Scanned (chain : Chain D) (daemon : Daemon D) : Pc D → Prop
  | .idle => True
  | .fetch height _ => height = daemon.state.lastHeight + 1
  | .txs height _ todo => daemon.state.Scanned chain height todo none
  | .burns height _ todo [] => daemon.state.Scanned chain height todo none
  | .burns height _ todo (burn :: rest) =>
    rest = [] ∧ burn.Sole chain ∧ (daemon.partners burn.partner).isSome
      ∧ daemon.state.Scanned chain height todo (some burn.txid)
  | .send height _ todo rest burn _ =>
    rest = [] ∧ burn.Sole chain ∧ daemon.state.Scanned chain height todo none
  | .sent height _ todo rest burn _ _ =>
    rest = [] ∧ burn.Sole chain ∧ daemon.state.Scanned chain height todo none

/-- No burn of the scanned blocks is lost. -/
structure NoneLost (chain : Chain D) (sys : Sys D) : Prop where
  recorded : ∀ txid, sys.file.processed.contains txid = true → sys.file.Recorded chain txid
  complete : sys.file.Complete chain
  state : ∀ daemon, sys.daemon = some daemon → daemon.state = sys.file
  scanned : ∀ daemon, sys.daemon = some daemon → daemon.pc.Scanned chain daemon

variable {state : State D} {burn : Burn D} {entry : Entry D}

/-- Recording an entry of the sole burn of a transaction records the transaction. -/
theorem State.recorded_record_self
    (hsole : burn.Sole chain)
    (hentry : entry.IsOf burn.vout burn.amountCorg ⟨burn.partner, burn.solDest⟩) :
  (state.record burn.txid entry).Recorded chain burn.txid
  := by
  intro n amount decoded hburn
  obtain ⟨rfl, rfl, hdest⟩ := hsole n amount decoded hburn
  refine ⟨entry, ExtTreeMap.getElem?_insert_self, hentry.1, hentry.2.1, ?_⟩
  rw [hentry.2.2, hdest]

theorem State.Recorded.record
    (h : state.Recorded chain txid) (hsole : burn.Sole chain)
    (hentry : entry.IsOf burn.vout burn.amountCorg ⟨burn.partner, burn.solDest⟩) :
  (state.record burn.txid entry).Recorded chain txid
  := by
  by_cases heq : burn.txid = txid
  · subst heq
    apply State.recorded_record_self hsole hentry
  · intro n amount decoded hburn
    obtain ⟨entry', hget, hof⟩ := h n amount decoded hburn
    refine ⟨entry', ?_, hof⟩
    rw [State.record, TreeMap.getElem?_insert_of_ne heq, hget]

variable {sys : Sys D}

theorem NoneLost.goto
    (h : NoneLost chain sys) (hdaemon : sys.daemon = some daemon)
    (landed : List (uint256 × ℕ)) {pc : Pc D} (hpc : pc.Scanned chain { daemon with pc }) :
  NoneLost chain { sys with landed, daemon := some { daemon with pc } }
  := by
  refine ⟨h.recorded, h.complete, ?_, ?_⟩
  · rintro daemon' ⟨⟩
    apply h.state daemon hdaemon
  · rintro daemon' ⟨⟩
    apply hpc

theorem NoneLost.save
    (h : NoneLost chain sys) (hdaemon : sys.daemon = some daemon) (hsole : burn.Sole chain)
    (hentry : entry.IsOf burn.vout burn.amountCorg ⟨burn.partner, burn.solDest⟩) {pc : Pc D}
    (hpc : pc.Scanned chain { daemon with state := daemon.state.record burn.txid entry, pc }) :
  NoneLost chain (sys.apply daemon pc (.save burn.txid entry))
  := by
  have hstate := h.state daemon hdaemon
  refine ⟨?_, ?_, ?_, ?_⟩
  · intro txid hcontains
    change (daemon.state.record burn.txid entry).Recorded chain txid
    by_cases heq : burn.txid = txid
    · subst heq
      apply State.recorded_record_self hsole hentry
    · apply State.Recorded.record _ hsole hentry
      rw [hstate]
      apply h.recorded
      have hcontains : (daemon.state.record burn.txid entry).processed.contains txid = true :=
        hcontains
      rw [State.record, ExtTreeMap.contains_insert, hstate] at hcontains
      simpa [heq] using hcontains
  · intro height hheight txid hmem
    apply State.Recorded.record _ hsole hentry
    rw [hstate]
    apply h.complete height _ txid hmem
    rw [← hstate]
    apply hheight
  · rintro daemon' ⟨⟩
    rfl
  · rintro daemon' ⟨⟩
    apply hpc

/-- After the burns of an extractable transaction are extracted, what is scanned is in order. -/
theorem scanned_extract
    {height : ℕ} {safeTip : ℤ} {todo : List uint256}
    (hscanned : daemon.state.Scanned chain height (txid :: todo) none) {rpc : Rpc}
    {decodeburn : ℕ → Rpc} (hextractable : Extractable chain daemon decodeburn txid)
    {burns : List (Burn D)} (hburns : extractBurns chain txid height rpc decodeburn = some burns) :
  (Pc.burns height safeTip todo burns).Scanned chain
    { daemon with pc := .burns height safeTip todo burns }
  := by
  have hothers : ∀ txid' ∈ chain.block height, txid' ∉ todo → txid' ≠ txid →
      daemon.state.Recorded chain txid' := by
    intro txid' hmem hnot hne
    apply hscanned.2 txid' hmem _ nofun
    rw [List.mem_cons, not_or]
    exact ⟨hne, hnot⟩
  have hall : ∀ n amount decoded, chain.burn? txid n = some (amount, decoded) →
      ⟨txid, height, decoded.partner, decoded.solDest, amount, n⟩ ∈ burns := by
    intro n amount decoded hsome
    apply exists_mem_extractBurns hburns hsome
    apply hextractable.answered
    rw [hsome]
    rfl
  cases burns with
  | nil =>
    refine ⟨hscanned.1, fun txid' hmem hnot _ => ?_⟩
    by_cases heq : txid' = txid
    · subst heq
      intro n amount decoded hsome
      cases hall n amount decoded hsome
    · apply hothers txid' hmem hnot heq
  | cons burn rest =>
    obtain ⟨-, htxid, -, hself⟩ := (mem_extractBurns hburns burn).mp List.mem_cons_self
    have hsingle : ∀ n, (chain.burn? txid n).isSome → burn.vout = n := by
      intro n hsome
      apply hextractable.single _ _ _ hsome
      rw [hself]
      rfl
    refine ⟨extractBurns_tail hextractable.single hburns, ?_, ?_, hscanned.1, ?_⟩
    · intro n amount decoded hsome
      rw [htxid] at hsome
      have hn : burn.vout = n := by
        apply hsingle
        rw [hsome]
        rfl
      subst hn
      rw [hself, Option.some.injEq, Prod.mk.injEq] at hsome
      obtain ⟨hamount, rfl⟩ := hsome
      exact ⟨rfl, hamount, rfl⟩
    · exact hextractable.registered _ _ _ hself
    · intro txid' hmem hnot hne
      apply hothers txid' hmem hnot
      intro heq
      apply hne
      rw [heq, htxid]

theorem State.Scanned.record
    {height : ℕ} {todo : List uint256}
    (h : state.Scanned chain height todo (some burn.txid)) (hsole : burn.Sole chain)
    (hentry : entry.IsOf burn.vout burn.amountCorg ⟨burn.partner, burn.solDest⟩) :
  (state.record burn.txid entry).Scanned chain height todo none
  := by
  refine ⟨h.1, fun txid hmem hnot _ => ?_⟩
  by_cases heq : txid = burn.txid
  · subst heq
    apply State.recorded_record_self hsole hentry
  · apply State.Recorded.record _ hsole hentry
    apply h.2 txid hmem hnot
    simpa using heq

theorem State.Scanned.weaken
    {state : State D} {height : ℕ} {todo : List uint256}
    (h : state.Scanned chain height todo none) (except : Option uint256) :
  state.Scanned chain height todo except
  := ⟨h.1, fun txid hmem hnot _ => h.2 txid hmem hnot nofun⟩

theorem isOf_baseEntry (burn : Burn D) (partner : Partner D) (status : Status) :
  (burn.baseEntry partner status).IsOf burn.vout burn.amountCorg ⟨burn.partner, burn.solDest⟩
  := ⟨rfl, rfl, rfl⟩

theorem isOf_resultEntry
    (burn : Burn D) (partner : Partner D) (result : Except String String) :
  (burn.resultEntry partner result).IsOf burn.vout burn.amountCorg ⟨burn.partner, burn.solDest⟩
  := by
  cases result with
  | error e => apply isOf_baseEntry burn partner .dispatchError
  | ok solSig => apply isOf_baseEntry burn partner .dispatched

/-- A step of the daemon loses no burn, if the transaction it may extract is extractable. -/
theorem NoneLost.apply
    (h : NoneLost chain sys) (hdaemon : sys.daemon = some daemon)
    {answers : Answers} {next : Effect D × Pc D} (hnext : daemon.Steps chain answers next)
    (hextract : ∀ txid ∈ daemon.extracting, Extractable chain daemon answers.decodeburn txid) :
  NoneLost chain (sys.apply daemon next.2 next.1)
  := by
  have hscanned := h.scanned daemon hdaemon
  have hstate := h.state daemon hdaemon
  cases hnext with
  | rest =>
    apply h.goto hdaemon sys.landed
    trivial
  | tick safeTip hpc =>
    apply h.goto hdaemon sys.landed
    rfl
  | block hpc =>
    rw [hpc] at hscanned
    apply h.goto hdaemon sys.landed
    refine ⟨hscanned, ?_⟩
    intro txid hmem hnot
    exact absurd hmem hnot
  | @blockDone height safeTip hpc pc hnext =>
    rw [hpc] at hscanned
    refine ⟨?_, ?_, ?_, ?_⟩
    · intro txid hcontains
      have hold := h.recorded txid
      rw [← hstate] at hold
      apply hold hcontains
    · intro height' hheight txid hmem
      obtain hlt | rfl := Nat.lt_or_eq_of_le hheight
      · have hle : height' ≤ sys.file.lastHeight := by
          rw [← hstate, ← Nat.lt_add_one_iff, ← hscanned.1]
          apply hlt
        have hold := h.complete height' hle txid hmem
        rw [← hstate] at hold
        apply hold
      · apply hscanned.2 txid hmem List.not_mem_nil nofun
    · rintro daemon' ⟨⟩
      rfl
    · rintro daemon' ⟨⟩
      obtain rfl | rfl := hnext
      · rfl
      · trivial
  | @skip height safeTip txid todo hpc hprocessed =>
    rw [hpc] at hscanned
    apply h.goto hdaemon sys.landed
    refine ⟨hscanned.1, ?_⟩
    intro txid' hmem hnot _
    by_cases heq : txid' = txid
    · subst heq
      have hrecorded := h.recorded txid'
      rw [← hstate] at hrecorded
      apply hrecorded hprocessed
    · apply hscanned.2 txid' hmem _ nofun
      rw [List.mem_cons, not_or]
      exact ⟨heq, hnot⟩
  | @extract height safeTip txid todo hpc hprocessed burns hburns =>
    rw [hpc] at hscanned
    apply h.goto hdaemon sys.landed
    apply scanned_extract hscanned _ hburns
    apply hextract
    rw [Daemon.extracting, hpc]
    simp [State.alreadyProcessed, hprocessed]
  | txDone hpc =>
    rw [hpc] at hscanned
    apply h.goto hdaemon sys.landed hscanned
  | unknown hpc hpartner =>
    rw [hpc] at hscanned
    rw [Pc.Scanned, hpartner] at hscanned
    exact absurd hscanned.2.2.1 Bool.false_ne_true
  | pending hpc hpartner =>
    rw [hpc] at hscanned
    obtain ⟨hrest, hsole, -, hscanned⟩ := hscanned
    apply h.save hdaemon hsole (isOf_baseEntry _ _ _)
    exact ⟨hrest, hsole, hscanned.record hsole (isOf_baseEntry _ _ _)⟩
  | @send height safeTip todo burns burn partner hpc effect heffect result =>
    rw [hpc] at hscanned
    obtain rfl | rfl := heffect
    · apply h.goto hdaemon sys.landed hscanned
    · apply h.goto hdaemon _ hscanned
  | sent hpc =>
    rw [hpc] at hscanned
    obtain ⟨rfl, hsole, hscanned⟩ := hscanned
    apply h.save hdaemon hsole (isOf_resultEntry _ _ _)
    exact (hscanned.weaken _).record hsole (isOf_resultEntry _ _ _)

theorem NoneLost.step
    (h : NoneLost chain sys) {event : Event D} (hcommand : NoCommand event)
    (hextract : ExtractsBurns chain sys event) :
  NoneLost chain (sys.step chain confirmations event)
  := by
  cases event with
  | start partners =>
    refine ⟨h.recorded, h.complete, ?_, ?_⟩
    · rintro daemon ⟨⟩
      rfl
    · rintro daemon ⟨⟩
      trivial
  | crash =>
    refine ⟨h.recorded, h.complete, ?_, ?_⟩
    · rintro daemon ⟨⟩
    · rintro daemon ⟨⟩
  | advance answers =>
    rw [Sys.step]
    cases hdaemon : sys.daemon with
    | none => apply h
    | some daemon =>
      apply h.apply hdaemon (daemon.next_steps answers)
      apply hextract daemon hdaemon
  | load command => exact hcommand.elim
  | save i => exact hcommand.elim

theorem noneLost_init (chain : Chain D) : NoneLost chain .init := by
  refine ⟨?_, ?_, ?_, ?_⟩
  · intro txid hcontains
    have hempty : (∅ : ExtTreeMap uint256 (Entry D) compare).contains txid = true := hcontains
    rw [ExtTreeMap.contains_empty] at hempty
    cases hempty
  · intro height hheight txid hmem n amount decoded hburn
    obtain rfl := Nat.le_zero.mp hheight
    rw [Chain.burn?] at hburn
    obtain ⟨vout, hvout, hburn⟩ := Option.bind_eq_some_iff.mp hburn
    rw [chain.genesis txid hmem vout (List.mem_of_getElem? hvout)] at hburn
    cases hburn
  · rintro daemon ⟨⟩
  · rintro daemon ⟨⟩

/-- In a run without commands in which each transaction is extractable when the daemon comes to it,
every burn output of the blocks up to the saved height has its entry. -/
theorem file_complete
    (chain : Chain D) (confirmations : ℤ) {events : List (Event D)}
    (hcommand : ∀ event ∈ events, NoCommand event)
    (hextract : Along (Sys.step chain confirmations) (ExtractsBurns chain) .init events) :
  (run (Sys.step chain confirmations) .init events).file.Complete chain
  := by
  have hstep : ∀ (sys : Sys D) event, NoCommand event ∧ ExtractsBurns chain sys event →
      NoneLost chain sys → NoneLost chain (sys.step chain confirmations event) :=
    fun sys event hok h => h.step hok.1 hok.2
  have halong : Along (Sys.step chain confirmations) (fun _ => NoCommand) .init events :=
    along_of_forall_mem (fun event hmem _ => hcommand event hmem) _
  exact (run_invariant hstep (halong.and hextract) (noneLost_init chain)).complete

/-- The two burns of a transaction are extracted and paid, and their block is done. -/
def scanTwo : List (Event ℕ) :=
  [.start corgPartners] ++ toBurns ++ payBurn true (.ok "sig1") ++ payBurn true (.ok "sig2")
    ++ List.replicate 2 (stepWith false (.ok ""))

/-- With two burns in one transaction the entry of the first is lost. -/
theorem scanTwo_incomplete :
  (∀ event ∈ scanTwo, NoCommand event)
    ∧ ¬(run (Sys.step twoBurns 0) .init scanTwo).file.Complete twoBurns
  := by
  refine ⟨by simp [scanTwo, toBurns, payBurn, stepWith, NoCommand], ?_⟩
  intro hcomplete
  have hburn : twoBurns.burn? 7 0 = some (5, ⟨corgTag, List.replicate 32 1⟩) := by
    decide
  obtain ⟨entry, hentry, hvout, -⟩ :=
    hcomplete 1 (by decide) 7 List.mem_cons_self 0 5 _ hburn
  have hlast : (run (Sys.step twoBurns 0) .init scanTwo).file.processed[(7 : uint256)]?.map
      Entry.vout = some 1 := by
    decide
  rw [hentry, Option.map_some, hvout] at hlast
  cases hlast

/-- A block whose first transaction has a burn that fails to be sent, with an error of the node and
a crash on the way. -/
def scanOne : List (Event ℕ) :=
  [.start corgPartners, stepWith false (.ok ""),
    .advance ⟨1, .error, fun _ => .result, false, .ok ""⟩]
    ++ toBurns ++ payBurn false (.error "timeout") ++ [.crash, .start corgPartners]
    ++ List.replicate 4 (stepWith false (.ok ""))

theorem scanOne_complete :
  (run (Sys.step (chainOf [⟨burnScript corgTag, 5⟩]) 0) .init scanOne).file.lastHeight = 1
    ∧ (run (Sys.step (chainOf [⟨burnScript corgTag, 5⟩]) 0) .init scanOne).file.Complete
      (chainOf [⟨burnScript corgTag, 5⟩])
  := ⟨by decide,
    file_complete _ _ (by simp [scanOne, toBurns, payBurn, stepWith, NoCommand]) (by decide)⟩

end CorgiCoin.Bridge
