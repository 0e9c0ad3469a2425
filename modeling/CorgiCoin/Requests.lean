import CorgiCoin.Inventory

/-!
# Requests for data

What a peer announces and the node does not have is asked for.  `AskFor` puts it in the queue of the peer
under the time when the request may be sent, and `SendMessages` sends what is due.  The times of all peers
come from one map, so that a second peer is asked two minutes later than the first.
-/

namespace CorgiCoin

open Std

/-- What the requests of all peers use: the map that they share, the last time index that was used, and
the queues by peer. -/
structure RequestState where
  mapAlreadyAskedFor : ExtTreeMap CInv ℤ CInv.cmp
  nLastTime : ℤ
  mapAskFor : ℕ → List (ℤ × CInv)

/-- What `SendMessages` made of the entries that were due: `getdata` messages, and those that the node had
by then. -/
structure Served where
  messages : List (List CInv)
  had : List CInv

namespace RequestState

/-- No request was made yet. -/
def initial : RequestState := ⟨∅, 0, fun _ => []⟩

/-- `insert` of a multimap: behind the entries with the same key. -/
def insertAsk (nRequestTime : ℤ) (inv : CInv) : List (ℤ × CInv) → List (ℤ × CInv)
  | [] => [(nRequestTime, inv)]
  | entry :: queue =>
    if entry.1 ≤ nRequestTime then entry :: insertAsk nRequestTime inv queue
    else (nRequestTime, inv) :: entry :: queue

/-- The time index of a call of `AskFor` at a time. -/
def timeIndex (s : RequestState) (nTime : ℤ) : ℤ := max ((nTime - 1) * 1000000) (s.nLastTime + 1)

/-- The time that `AskFor` gives a request. -/
def requestTime (s : RequestState) (inv : CInv) (nTime : ℤ) : ℤ :=
  max (s.mapAlreadyAskedFor[inv]?.getD 0 + 2 * 60 * 1000000) (s.timeIndex nTime)

def askFor (s : RequestState) (peer : ℕ) (inv : CInv) (nTime : ℤ) : RequestState :=
  let nRequestTime := s.requestTime inv nTime
  { mapAlreadyAskedFor := s.mapAlreadyAskedFor.insert inv nRequestTime
    nLastTime := s.timeIndex nTime
    mapAskFor := Function.update s.mapAskFor peer (insertAsk nRequestTime inv (s.mapAskFor peer)) }

/-- The loop of `SendMessages` over what is due, `vGetData` given: what is left in the queue, the map,
`vGetData`, and what the loop sent. -/
def getDataLoop (nNow : ℤ) (fHave : CInv → Bool) :
    List (ℤ × CInv) → ExtTreeMap CInv ℤ CInv.cmp → List CInv →
      List (ℤ × CInv) × ExtTreeMap CInv ℤ CInv.cmp × List CInv × Served
  | [], asked, vGetData => ([], asked, vGetData, ⟨[], []⟩)
  | (nRequestTime, inv) :: queue, asked, vGetData =>
    if nRequestTime ≤ nNow then
      if !fHave inv then
        let vGetData := vGetData ++ [inv]
        if vGetData.length ≥ 1000 then
          let (queue, asked, vGetDataLeft, served) := getDataLoop nNow fHave queue (asked.insert inv nNow) []
          (queue, asked, vGetDataLeft, { served with messages := vGetData :: served.messages })
        else getDataLoop nNow fHave queue (asked.insert inv nNow) vGetData
      else
        let (queue, asked, vGetData, served) := getDataLoop nNow fHave queue asked vGetData
        (queue, asked, vGetData, { served with had := inv :: served.had })
    else ((nRequestTime, inv) :: queue, asked, vGetData, ⟨[], []⟩)

/-- The requests of `SendMessages`, with what `AlreadyHave` says at the time. -/
def sendGetData (s : RequestState) (peer : ℕ) (nTime : ℤ) (fHave : CInv → Bool) : RequestState × Served :=
  let (queue, asked, vGetData, served) :=
    getDataLoop (nTime * 1000000) fHave (s.mapAskFor peer) s.mapAlreadyAskedFor []
  ({ s with mapAlreadyAskedFor := asked, mapAskFor := Function.update s.mapAskFor peer queue },
    if vGetData.isEmpty then served else { served with messages := served.messages ++ [vGetData] })

/-- What happens to the requests. -/
inductive Op where
  | askFor (peer : ℕ) (inv : CInv) (nTime : ℤ)
  /-- A transaction or a block is received. -/
  | received (inv : CInv)
  | sendMessages (peer : ℕ) (nTime : ℤ) (fHave : CInv → Bool)

/-- A step, with what was served and to whom. -/
def step (s : RequestState) : Op → RequestState × List (ℕ × Served)
  | .askFor peer inv nTime => (s.askFor peer inv nTime, [])
  | .received inv => ({ s with mapAlreadyAskedFor := s.mapAlreadyAskedFor.erase inv }, [])
  | .sendMessages peer nTime fHave =>
    let (s, served) := s.sendGetData peer nTime fHave
    (s, [(peer, served)])

def run (s : RequestState) : List Op → RequestState × List (ℕ × Served)
  | [] => (s, [])
  | op :: ops =>
    let (s, served) := s.step op
    let (s, served') := s.run ops
    (s, served ++ served')

/-! ## Queues -/

/-- A queue in the order of the times. -/
def Sorted (queue : List (ℤ × CInv)) : Prop := queue.Pairwise (fun a b => a.1 ≤ b.1)

theorem insertAsk_perm (nRequestTime : ℤ) (inv : CInv) (queue : List (ℤ × CInv)) :
  (insertAsk nRequestTime inv queue).Perm ((nRequestTime, inv) :: queue)
  := by
  induction queue with
  | nil => exact List.Perm.refl _
  | cons entry queue ih =>
    rw [insertAsk]
    split_ifs
    · exact (ih.cons entry).trans (List.Perm.swap _ _ _)
    · exact List.Perm.refl _

theorem Sorted.insertAsk
    {nRequestTime : ℤ} {inv : CInv} {queue : List (ℤ × CInv)} (h : Sorted queue) :
  Sorted (insertAsk nRequestTime inv queue)
  := by
  induction queue with
  | nil => exact List.pairwise_singleton _ _
  | cons entry queue ih =>
    obtain ⟨hentry, hqueue⟩ := List.pairwise_cons.mp h
    rw [RequestState.insertAsk]
    split_ifs with hle
    · apply List.pairwise_cons.mpr ⟨?_, ih hqueue⟩
      intro other hother
      rcases List.mem_cons.mp ((insertAsk_perm _ _ _).subset hother) with rfl | hother
      · exact hle
      · exact hentry other hother
    · apply List.pairwise_cons.mpr ⟨?_, h⟩
      intro other hother
      rcases List.mem_cons.mp hother with rfl | hother
      · omega
      · have hlater := hentry other hother
        omega

/-- What the loop does to the entries that are due: each is sent or the node has it, in their order; the
others stay.  The time of a request that is sent is the time it was sent at. -/
structure Sent (nNow : ℤ) (fHave : CInv → Bool) (queue : List (ℤ × CInv))
    (asked : ExtTreeMap CInv ℤ CInv.cmp) (vGetData : List CInv)
    (result : List (ℤ × CInv) × ExtTreeMap CInv ℤ CInv.cmp × List CInv × Served) : Prop where
  queue_eq : result.1 = queue.dropWhile (fun entry => entry.1 ≤ nNow)
  sent_eq : result.2.2.2.messages.flatten ++ result.2.2.1
    = vGetData ++ ((queue.takeWhile (fun entry => entry.1 ≤ nNow)).map Prod.snd).filter (fun inv => !fHave inv)
  had_eq : result.2.2.2.had = ((queue.takeWhile (fun entry => entry.1 ≤ nNow)).map Prod.snd).filter fHave
  size : ∀ message ∈ result.2.2.2.messages, message.length = 1000
  short : result.2.2.1.length < 1000
  asked_eq : ∀ inv, result.2.1[inv]? =
    if inv ∈ ((queue.takeWhile (fun entry => entry.1 ≤ nNow)).map Prod.snd).filter (fun inv => !fHave inv)
    then some nNow else asked[inv]?

theorem sent_getDataLoop
    (nNow : ℤ) (fHave : CInv → Bool) (queue : List (ℤ × CInv)) (asked : ExtTreeMap CInv ℤ CInv.cmp)
    {vGetData : List CInv} (hshort : vGetData.length < 1000) :
  Sent nNow fHave queue asked vGetData (getDataLoop nNow fHave queue asked vGetData)
  := by
  have hinsert : ∀ (asked : ExtTreeMap CInv ℤ CInv.cmp) (inv inv' : CInv),
      (asked.insert inv nNow)[inv']? = if inv = inv' then some nNow else asked[inv']? := by
    intro asked inv inv'
    rw [ExtTreeMap.getElem?_insert]
    simp only [LawfulEqCmp.compare_eq_iff_eq]
  induction queue generalizing asked vGetData with
  | nil => exact ⟨rfl, (List.append_nil _).symm, rfl, fun _ h => absurd h List.not_mem_nil, hshort, fun _ => rfl⟩
  | cons entry queue ih =>
    obtain ⟨nRequestTime, inv⟩ := entry
    rw [getDataLoop]
    by_cases hdue : nRequestTime ≤ nNow
    · rw [if_pos hdue]
      have htake : ((nRequestTime, inv) :: queue).takeWhile (fun entry => decide (entry.1 ≤ nNow))
          = (nRequestTime, inv) :: queue.takeWhile (fun entry => decide (entry.1 ≤ nNow)) :=
        List.takeWhile_cons_of_pos (decide_eq_true hdue)
      have hdrop : ((nRequestTime, inv) :: queue).dropWhile (fun entry => decide (entry.1 ≤ nNow))
          = queue.dropWhile (fun entry => decide (entry.1 ≤ nNow)) :=
        List.dropWhile_cons_of_pos (decide_eq_true hdue)
      cases hhave : fHave inv with
      | true =>
        have h := ih asked hshort
        rw [if_neg (by simp)]
        constructor
        · rw [hdrop]
          exact h.queue_eq
        · rw [htake, List.map_cons, List.filter_cons_of_neg (by simp [hhave])]
          exact h.sent_eq
        · rw [htake, List.map_cons, List.filter_cons_of_pos hhave]
          exact congrArg (inv :: ·) h.had_eq
        · exact h.size
        · exact h.short
        · rw [htake, List.map_cons, List.filter_cons_of_neg (by simp [hhave])]
          exact h.asked_eq
      | false =>
        rw [if_pos (by rfl)]
        have hasked : ∀ inv' (sent : List CInv),
            (if inv' ∈ sent then some nNow else (asked.insert inv nNow)[inv']?)
              = if inv' ∈ inv :: sent then some nNow else asked[inv']? := by
          intro inv' sent
          rw [hinsert]
          by_cases hmem : inv' ∈ sent
          · rw [if_pos hmem, if_pos (List.mem_cons_of_mem _ hmem)]
          · rw [if_neg hmem]
            simp only [List.mem_cons, hmem, or_false, eq_comm]
        dsimp only
        split_ifs with hlong
        · have hempty : ([] : List CInv).length < 1000 := Nat.zero_lt_succ 999
          have h := ih (asked.insert inv nNow) hempty
          constructor
          · rw [hdrop]
            exact h.queue_eq
          · rw [htake, List.map_cons, List.filter_cons_of_pos (by simp [hhave]), List.flatten_cons,
              List.append_assoc, h.sent_eq]
            simp only [List.append_assoc, List.nil_append, List.cons_append]
          · rw [htake, List.map_cons, List.filter_cons_of_neg (by simp [hhave])]
            exact h.had_eq
          · rintro message (_ | ⟨_, hmessage⟩)
            · rw [List.length_append, List.length_singleton] at hlong ⊢
              omega
            · exact h.size message hmessage
          · exact h.short
          · intro inv'
            rw [htake, List.map_cons, List.filter_cons_of_pos (by simp [hhave]), ← hasked]
            exact h.asked_eq inv'
        · have h := ih (asked.insert inv nNow) (Nat.lt_of_not_le hlong)
          constructor
          · rw [hdrop]
            exact h.queue_eq
          · rw [htake, List.map_cons, List.filter_cons_of_pos (by simp [hhave]), h.sent_eq]
            simp only [List.append_assoc, List.nil_append, List.cons_append]
          · rw [htake, List.map_cons, List.filter_cons_of_neg (by simp [hhave])]
            exact h.had_eq
          · exact h.size
          · exact h.short
          · intro inv'
            rw [htake, List.map_cons, List.filter_cons_of_pos (by simp [hhave]), ← hasked]
            exact h.asked_eq inv'
    · rw [if_neg hdue]
      have htake : ((nRequestTime, inv) :: queue).takeWhile (fun entry => decide (entry.1 ≤ nNow)) = [] :=
        List.takeWhile_cons_of_neg (by simpa using hdue)
      have hdrop : ((nRequestTime, inv) :: queue).dropWhile (fun entry => decide (entry.1 ≤ nNow))
          = (nRequestTime, inv) :: queue :=
        List.dropWhile_cons_of_neg (by simpa using hdue)
      constructor
      · rw [hdrop]
      · rw [htake]
        exact (List.append_nil _).symm
      · rw [htake]
        rfl
      · exact fun _ h => absurd h List.not_mem_nil
      · exact hshort
      · intro inv'
        rw [htake]
        rfl

/-- The requests of one `SendMessages`: the entries that are due, in their order. -/
theorem sendGetData_spec (s : RequestState) (peer : ℕ) (nTime : ℤ) (fHave : CInv → Bool) :
  let due := ((s.mapAskFor peer).takeWhile (fun entry => entry.1 ≤ nTime * 1000000)).map Prod.snd
  let result := s.sendGetData peer nTime fHave
  result.1.mapAskFor
      = Function.update s.mapAskFor peer ((s.mapAskFor peer).dropWhile (fun entry => entry.1 ≤ nTime * 1000000))
    ∧ result.2.messages.flatten = due.filter (fun inv => !fHave inv) ∧ result.2.had = due.filter fHave
    ∧ (∀ message ∈ result.2.messages, 1 ≤ message.length ∧ message.length ≤ 1000)
    ∧ ∀ inv, result.1.mapAlreadyAskedFor[inv]?
      = if inv ∈ result.2.messages.flatten then some (nTime * 1000000) else s.mapAlreadyAskedFor[inv]?
  := by
  have hempty : ([] : List CInv).length < 1000 := Nat.zero_lt_succ 999
  have hloop := sent_getDataLoop (nTime * 1000000) fHave (s.mapAskFor peer) s.mapAlreadyAskedFor hempty
  rw [sendGetData]
  rcases hresult : getDataLoop (nTime * 1000000) fHave (s.mapAskFor peer) s.mapAlreadyAskedFor [] with
    ⟨queue, asked, vGetData, served⟩
  rw [hresult] at hloop
  obtain ⟨hqueue, hsent, hhad, hsize, hshort, hasked⟩ := hloop
  dsimp only at hqueue hsent hhad hsize hshort hasked ⊢
  rw [List.nil_append] at hsent
  have hflatten : (if vGetData.isEmpty = true then served
      else { served with messages := served.messages ++ [vGetData] }).messages.flatten
        = served.messages.flatten ++ vGetData := by
    cases vGetData with
    | nil => exact (List.append_nil _).symm
    | cons inv vGetData =>
      rw [List.isEmpty_cons, if_neg Bool.false_ne_true, List.flatten_append, List.flatten_singleton]
  refine ⟨by rw [hqueue], hflatten.trans hsent, ?_, ?_, ?_⟩
  · split_ifs
    · exact hhad
    · exact hhad
  · intro message hmessage
    have hcase : message ∈ served.messages ∨ message = vGetData ∧ vGetData ≠ [] := by
      split_ifs at hmessage with hnil
      · exact .inl hmessage
      · rcases List.mem_append.mp hmessage with hmessage | hmessage
        · exact .inl hmessage
        · exact .inr ⟨List.mem_singleton.mp hmessage, fun heq => hnil (by rw [heq]; rfl)⟩
    rcases hcase with hmessage | ⟨rfl, hne⟩
    · rw [hsize message hmessage]
      omega
    · have hpos := List.length_pos_of_ne_nil hne
      omega
  · intro inv
    rw [hasked, hflatten, hsent]

/-! ## Runs -/

/-- The entries that were sent to a peer. -/
def sentTo (peer : ℕ) (served : List (ℕ × Served)) : List CInv :=
  (served.filter (fun entry => entry.1 == peer)).flatMap (fun entry => entry.2.messages.flatten)

/-- The entries that were not sent to a peer any more, as the node had them by then. -/
def hadFor (peer : ℕ) (served : List (ℕ × Served)) : List CInv :=
  (served.filter (fun entry => entry.1 == peer)).flatMap (fun entry => entry.2.had)

/-- The entries that a peer was to be asked for. -/
def askedOf (peer : ℕ) : List Op → List CInv
  | [] => []
  | .askFor peer' inv _ :: ops => if peer' = peer then inv :: askedOf peer ops else askedOf peer ops
  | .received _ :: ops => askedOf peer ops
  | .sendMessages _ _ _ :: ops => askedOf peer ops

theorem sentTo_append (peer : ℕ) (served served' : List (ℕ × Served)) :
  sentTo peer (served ++ served') = sentTo peer served ++ sentTo peer served'
  := by
  rw [sentTo, List.filter_append, List.flatMap_append]
  rfl

theorem hadFor_append (peer : ℕ) (served served' : List (ℕ × Served)) :
  hadFor peer (served ++ served') = hadFor peer served ++ hadFor peer served'
  := by
  rw [hadFor, List.filter_append, List.flatMap_append]
  rfl

theorem count_filter_add_count_filter (p : CInv → Bool) (l : List CInv) (inv : CInv) :
  (l.filter (fun inv => !p inv)).count inv + (l.filter p).count inv = l.count inv
  := by
  induction l with
  | nil => rfl
  | cons a l ih =>
    cases hp : p a with
    | true =>
      rw [List.filter_cons_of_neg (by simp [hp]), List.filter_cons_of_pos hp, List.count_cons, List.count_cons]
      omega
    | false =>
      rw [List.filter_cons_of_pos (by simp [hp]), List.filter_cons_of_neg (by simp [hp]), List.count_cons,
        List.count_cons]
      omega

/-- What waits in the queue of a peer, with what a run serves of it and what it asks for. -/
theorem run_conserves (s : RequestState) (ops : List Op) (peer : ℕ) (inv : CInv) :
  ((s.mapAskFor peer).map Prod.snd).count inv + (askedOf peer ops).count inv
    = (((s.run ops).1.mapAskFor peer).map Prod.snd).count inv + (sentTo peer (s.run ops).2).count inv
      + (hadFor peer (s.run ops).2).count inv
  := by
  induction ops generalizing s with
  | nil => rfl
  | cons op ops ih =>
    have hrun : s.run (op :: ops) = (((s.step op).1.run ops).1, (s.step op).2 ++ ((s.step op).1.run ops).2) := rfl
    have hnext := ih (s.step op).1
    rw [hrun]
    dsimp only
    rw [sentTo_append, hadFor_append, List.count_append, List.count_append]
    cases op with
    | askFor peer' inv' nTime =>
      have hserved : (s.step (.askFor peer' inv' nTime)).2 = [] := rfl
      have hqueue : (s.step (.askFor peer' inv' nTime)).1.mapAskFor = Function.update s.mapAskFor peer'
          (insertAsk (s.requestTime inv' nTime) inv' (s.mapAskFor peer')) := rfl
      rw [hserved]
      rw [hqueue] at hnext
      rw [askedOf]
      by_cases hpeer : peer' = peer
      · subst hpeer
        rw [Function.update_self] at hnext
        rw [if_pos rfl, List.count_cons]
        have hcount := ((insertAsk_perm (s.requestTime inv' nTime) inv' (s.mapAskFor peer')).map
          Prod.snd).count_eq inv
        rw [List.map_cons, List.count_cons] at hcount
        dsimp only at hcount
        simp only [sentTo, hadFor, List.filter_nil, List.flatMap_nil, List.count_nil] at hnext ⊢
        omega
      · rw [Function.update_of_ne (Ne.symm hpeer)] at hnext
        rw [if_neg hpeer]
        simp only [sentTo, hadFor, List.filter_nil, List.flatMap_nil, List.count_nil] at hnext ⊢
        omega
    | received inv' =>
      have hqueue : (s.step (.received inv')).1.mapAskFor = s.mapAskFor := rfl
      have hserved : (s.step (.received inv')).2 = [] := rfl
      rw [hserved]
      rw [hqueue] at hnext
      rw [askedOf]
      simp only [sentTo, hadFor, List.filter_nil, List.flatMap_nil, List.count_nil] at hnext ⊢
      omega
    | sendMessages peer' nTime fHave =>
      obtain ⟨hqueue, hsent, hhad, -, -⟩ := s.sendGetData_spec peer' nTime fHave
      have hserved : (s.step (.sendMessages peer' nTime fHave)).2
          = [(peer', (s.sendGetData peer' nTime fHave).2)] := rfl
      have hstate : (s.step (.sendMessages peer' nTime fHave)).1.mapAskFor
          = (s.sendGetData peer' nTime fHave).1.mapAskFor := rfl
      rw [hserved]
      rw [hstate, hqueue] at hnext
      rw [askedOf]
      by_cases hpeer : peer' = peer
      · subst hpeer
        rw [Function.update_self] at hnext
        have hsplit := count_filter_add_count_filter fHave
          (((s.mapAskFor peer').takeWhile (fun entry => entry.1 ≤ nTime * 1000000)).map Prod.snd) inv
        have hwhole : ((s.mapAskFor peer').map Prod.snd).count inv
            = (((s.mapAskFor peer').takeWhile (fun entry => entry.1 ≤ nTime * 1000000)).map Prod.snd).count inv
              + (((s.mapAskFor peer').dropWhile (fun entry => entry.1 ≤ nTime * 1000000)).map Prod.snd).count inv := by
          rw [← List.count_append, ← List.map_append, List.takeWhile_append_dropWhile]
        have hsentTo : sentTo peer' [(peer', (s.sendGetData peer' nTime fHave).2)]
            = (s.sendGetData peer' nTime fHave).2.messages.flatten := by
          simp [sentTo]
        have hhadFor : hadFor peer' [(peer', (s.sendGetData peer' nTime fHave).2)]
            = (s.sendGetData peer' nTime fHave).2.had := by
          simp [hadFor]
        rw [hsentTo, hhadFor, hsent, hhad]
        omega
      · rw [Function.update_of_ne (Ne.symm hpeer)] at hnext
        have hnone : [(peer', (s.sendGetData peer' nTime fHave).2)].filter (fun entry => entry.1 == peer) = [] := by
          simp [hpeer]
        rw [sentTo, hadFor, hnone]
        simp only [List.flatMap_nil, List.count_nil]
        omega

/-- Two requests for the same entry, whichever peers they are for: the time of an entry only grows while it
is not received and not sent. -/
theorem le_getD_run
    {s : RequestState} {inv : CInv} {nRequestTime : ℤ} {ops : List Op}
    (h : nRequestTime ≤ s.mapAlreadyAskedFor[inv]?.getD 0) (hreceived : .received inv ∉ ops)
    (hsent : ∀ peer, inv ∉ sentTo peer (s.run ops).2) :
  nRequestTime ≤ (s.run ops).1.mapAlreadyAskedFor[inv]?.getD 0
  := by
  induction ops generalizing s with
  | nil => exact h
  | cons op ops ih =>
    obtain ⟨hop, hreceived⟩ := not_or.mp (fun h => hreceived (List.mem_cons.mpr h))
    have hrun : s.run (op :: ops) = (((s.step op).1.run ops).1, (s.step op).2 ++ ((s.step op).1.run ops).2) := rfl
    rw [hrun] at hsent ⊢
    dsimp only at hsent ⊢
    have hfirst : ∀ peer, inv ∉ sentTo peer (s.step op).2 := by
      intro peer hmem
      apply hsent peer
      rw [sentTo_append]
      exact List.mem_append_left _ hmem
    apply ih _ hreceived
    · intro peer hmem
      apply hsent peer
      rw [sentTo_append]
      exact List.mem_append_right _ hmem
    · cases op with
      | askFor peer inv' nTime =>
        change _ ≤ (s.mapAlreadyAskedFor.insert inv' (s.requestTime inv' nTime))[inv]?.getD 0
        rw [ExtTreeMap.getElem?_insert]
        split_ifs with hsame
        · rw [Option.getD_some, LawfulEqCmp.eq_of_compare hsame, requestTime]
          have hle := le_max_left (s.mapAlreadyAskedFor[inv]?.getD 0 + 2 * 60 * 1000000) (s.timeIndex nTime)
          omega
        · exact h
      | received inv' =>
        change _ ≤ (s.mapAlreadyAskedFor.erase inv')[inv]?.getD 0
        rw [ExtTreeMap.getElem?_erase, if_neg]
        · exact h
        · intro hsame
          rw [LawfulEqCmp.eq_of_compare hsame] at hop
          exact hop rfl
      | sendMessages peer nTime fHave =>
        obtain ⟨-, -, -, -, hasked⟩ := s.sendGetData_spec peer nTime fHave
        change _ ≤ (s.sendGetData peer nTime fHave).1.mapAlreadyAskedFor[inv]?.getD 0
        rw [hasked, if_neg]
        · exact h
        · intro hmem
          apply hfirst peer
          have hserved : (s.step (.sendMessages peer nTime fHave)).2
              = [(peer, (s.sendGetData peer nTime fHave).2)] := rfl
          rw [hserved, sentTo]
          simpa using hmem

/-- Of a queue in order, what is due is its front. -/
theorem Sorted.takeWhile_eq {queue : List (ℤ × CInv)} (h : Sorted queue) (nNow : ℤ) :
  queue.takeWhile (fun entry => entry.1 ≤ nNow) = queue.filter (fun entry => entry.1 ≤ nNow)
    ∧ ∀ entry ∈ queue.dropWhile (fun entry => entry.1 ≤ nNow), nNow < entry.1
  := by
  induction queue with
  | nil => exact ⟨rfl, fun _ h => absurd h List.not_mem_nil⟩
  | cons entry queue ih =>
    obtain ⟨hentry, hqueue⟩ := List.pairwise_cons.mp h
    obtain ⟨htake, hdrop⟩ := ih hqueue
    by_cases hdue : entry.1 ≤ nNow
    · simp only [List.takeWhile_cons, List.dropWhile_cons, List.filter_cons, hdue, decide_true, if_true, htake,
        true_and]
      exact hdrop
    · simp only [List.takeWhile_cons, List.dropWhile_cons, List.filter_cons, hdue, decide_false,
        Bool.false_eq_true, if_false]
      have hall : ∀ other ∈ queue, nNow < other.1 := by
        intro other hother
        have hlater := hentry other hother
        omega
      constructor
      · symm
        apply List.filter_eq_nil_iff.mpr
        intro other hother
        have hlater := hall other hother
        simpa using hlater
      · intro other hother
        rcases List.mem_cons.mp hother with rfl | hother
        · exact Int.not_le.mp hdue
        · exact hall other hother

theorem sorted_run {s : RequestState} (h : ∀ peer, Sorted (s.mapAskFor peer)) (ops : List Op) (peer : ℕ) :
  Sorted ((s.run ops).1.mapAskFor peer)
  := by
  induction ops generalizing s with
  | nil => exact h peer
  | cons op ops ih =>
    have hstep : ∀ peer, Sorted ((s.step op).1.mapAskFor peer) := by
      intro peer
      cases op with
      | askFor peer' inv nTime =>
        change Sorted (Function.update s.mapAskFor peer' _ peer)
        rcases eq_or_ne peer peer' with rfl | hne
        · rw [Function.update_self]
          exact (h peer).insertAsk
        · rw [Function.update_of_ne hne]
          exact h peer
      | received inv => exact h peer
      | sendMessages peer' nTime fHave =>
        obtain ⟨hqueue, -⟩ := s.sendGetData_spec peer' nTime fHave
        change Sorted ((s.sendGetData peer' nTime fHave).1.mapAskFor peer)
        rw [hqueue]
        rcases eq_or_ne peer peer' with rfl | hne
        · rw [Function.update_self]
          exact (h peer).sublist (List.dropWhile_sublist _)
        · rw [Function.update_of_ne hne]
          exact h peer
    exact ih hstep

/-- Whatever is asked for, received and sent, in whatever order and for whatever peers: each call of
`AskFor` is one entry in the queue of its peer, which waits, is sent once, or is dropped since the node has
it, and the queues are in the order of the times.  `SendMessages` sends what is due and nothing else, in
messages of one to 1000 entries; and while an entry is neither received nor sent, each further request for
it, of whatever peer, is two minutes later. -/
theorem requests_served (ops : List Op) :
  (∀ peer inv, (askedOf peer ops).count inv
    = (((initial.run ops).1.mapAskFor peer).map Prod.snd).count inv
      + (sentTo peer (initial.run ops).2).count inv + (hadFor peer (initial.run ops).2).count inv)
  ∧ (∀ peer, Sorted ((initial.run ops).1.mapAskFor peer))
  ∧ (∀ peer nTime fHave,
    let due := ((initial.run ops).1.mapAskFor peer).filter (fun entry => entry.1 ≤ nTime * 1000000)
    let result := (initial.run ops).1.sendGetData peer nTime fHave
    result.2.messages.flatten = (due.map Prod.snd).filter (fun inv => !fHave inv)
      ∧ (∀ message ∈ result.2.messages, 1 ≤ message.length ∧ message.length ≤ 1000)
      ∧ ∀ entry ∈ result.1.mapAskFor peer, nTime * 1000000 < entry.1)
  ∧ ∀ peer inv nTime between nTime', .received inv ∉ between →
    (∀ peer', inv ∉ sentTo peer' (((initial.run ops).1.askFor peer inv nTime).run between).2) →
    (initial.run ops).1.requestTime inv nTime + 2 * 60 * 1000000
      ≤ (((initial.run ops).1.askFor peer inv nTime).run between).1.requestTime inv nTime'
  := by
  have hsorted : ∀ peer, Sorted ((initial.run ops).1.mapAskFor peer) :=
    @sorted_run initial (fun _ => List.Pairwise.nil) ops
  refine ⟨?_, hsorted, ?_, ?_⟩
  · intro peer inv
    have hrun := run_conserves initial ops peer inv
    have hnone : ((initial.mapAskFor peer).map Prod.snd).count inv = 0 := rfl
    rwa [hnone, Nat.zero_add] at hrun
  · intro peer nTime fHave
    obtain ⟨htake, hlater⟩ := (hsorted peer).takeWhile_eq (nTime * 1000000)
    obtain ⟨hqueue, hsent, -, hsize, -⟩ := (initial.run ops).1.sendGetData_spec peer nTime fHave
    rw [htake] at hsent
    refine ⟨hsent, hsize, ?_⟩
    rw [hqueue, Function.update_self]
    exact hlater
  · intro peer inv nTime between nTime' hreceived hsent
    have hasked : (initial.run ops).1.requestTime inv nTime
        ≤ ((initial.run ops).1.askFor peer inv nTime).mapAlreadyAskedFor[inv]?.getD 0 := by
      change _ ≤ ((initial.run ops).1.mapAlreadyAskedFor.insert inv _)[inv]?.getD 0
      rw [ExtTreeMap.getElem?_insert_self]
      exact le_rfl
    have hle := le_getD_run hasked hreceived hsent
    apply le_max_of_le_left
    omega

end RequestState

end CorgiCoin
