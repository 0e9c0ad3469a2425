import CorgiCoin.NetAddr
import CorgiCoin.Lib.Transition
import CorgiCoin.Lib.TreeMap

/-!
# The ban list and its file

The banned addresses are kept under a lock, with a flag that says whether `banlist.dat` is behind
them.  `DumpBanlist` takes the lock several times: to look at the flag, to take a copy of the
list, to clear the flag and, when the write of the file fails, to set it again.  Any other
change of the list, and any other dump, may fall between two of these steps.
-/

namespace CorgiCoin

open Std Transition

/-- The order of `memcmp`. -/
abbrev cmpNetAddr : CNetAddr → CNetAddr → Ordering := compareOn CNetAddr.ip

instance : LawfulEqCmp cmpNetAddr where
  compare_self := ReflCmp.compare_self
  eq_of_compare := by
    intro a b h
    have hip : a.ip = b.ip := LawfulEqCmp.eq_of_compare h
    cases a
    cases b
    cases hip
    rfl

/-- Addresses with the time their ban ends. -/
abbrev BanMap := ExtTreeMap CNetAddr ℤ cmpNetAddr

/-- Where a call of `DumpBanlist` stands, with the copy it has taken. -/
inductive Dump where
  /-- it has found the flag set -/
  | dirty
  /-- it has its copy -/
  | copied (banMap : BanMap)
  /-- it has cleared the flag -/
  | cleared (banMap : BanMap)
  /-- its write has failed -/
  | failed (banMap : BanMap)

/-- The copy a dump holds. -/
def Dump.banMap? : Dump → Option BanMap
  | .dirty => none
  | .copied banMap | .cleared banMap | .failed banMap => some banMap

/-- The banned addresses, the content of `banlist.dat`, empty when the file is missing, and the
dumps that are in progress. -/
structure BanList where
  setBanned : BanMap
  fBanlistDirty : Bool
  banlist : BanMap
  dumps : List Dump

namespace BanList

variable (s : BanList)

/-! ## The calls -/

def clearBanned : BanList := { s with setBanned := ∅, fBanlistDirty := true }

def ban (ip : CNetAddr) (nBanUntil : ℤ) (fOverwrite : Bool) : BanList :=
  let t := s.setBanned[ip]?.getD 0
  { s with
    setBanned := s.setBanned.insert ip (if fOverwrite || t < nBanUntil then nBanUntil else t)
    fBanlistDirty := true }

def unban (ip : CNetAddr) : BanList :=
  if ip ∈ s.setBanned then
    { s with setBanned := s.setBanned.erase ip, fBanlistDirty := true }
  else s

/-- The loop of `GetBanned` over the entries it visits. -/
def sweep (nNow : ℤ) (entries : List (CNetAddr × ℤ)) (banned : BanMap × Bool) : BanMap × Bool :=
  entries.foldl (fun (setBanned, fBanlistDirty) (ip, t) =>
    if t ≤ nNow then (setBanned.erase ip, true) else (setBanned, fBanlistDirty)) banned

/-- `GetBanned`: drops the expired entries; the copy it gives is `setBanned` after it. -/
def getBanned (nNow : ℤ) : BanList :=
  let (setBanned, fBanlistDirty) := sweep nNow s.setBanned.toList (s.setBanned, s.fBanlistDirty)
  { s with setBanned, fBanlistDirty }

/-- `SetBanned`: replaces the list by one that was read. -/
def setBannedTo (banMap : BanMap) : BanList :=
  { s with setBanned := banMap, fBanlistDirty := false }

/-- The process stops and starts again: `LoadBanlist`, before any other thread runs. -/
def restart (nNow : ℤ) : BanList :=
  ({ s with setBanned := ∅, fBanlistDirty := false, dumps := [] } : BanList).setBannedTo s.banlist
    |>.getBanned nNow

/-! ## The dump -/

/-- `DumpBanlist` up to the look at the flag. -/
def beginDump : BanList :=
  if s.fBanlistDirty then { s with dumps := .dirty :: s.dumps } else s

/-- The next step of the `i`th dump, at some time and with a write that succeeds or not. -/
def stepDump (i : ℕ) (nNow : ℤ) (fWritten : Bool) : BanList :=
  match s.dumps[i]? with
  | none => s
  | some .dirty =>
    let s' := s.getBanned nNow
    { s' with dumps := s'.dumps.set i (.copied s'.setBanned) }
  | some (.copied banMap) =>
    { s with fBanlistDirty := false, dumps := s.dumps.set i (.cleared banMap) }
  | some (.cleared banMap) =>
    if fWritten then { s with banlist := banMap, dumps := s.dumps.eraseIdx i }
    else { s with dumps := s.dumps.set i (.failed banMap) }
  | some (.failed _) => { s with fBanlistDirty := true, dumps := s.dumps.eraseIdx i }

/-! ## Runs -/

/-- What a thread does while it holds the lock, the writes of the file, and a restart. -/
inductive Action where
  | clearBanned
  | ban (ip : CNetAddr) (nBanUntil : ℤ) (fOverwrite : Bool)
  | unban (ip : CNetAddr)
  | getBanned (nNow : ℤ)
  | beginDump
  | stepDump (i : ℕ) (nNow : ℤ) (fWritten : Bool)
  | restart (nNow : ℤ)

def step : Action → BanList
  | .clearBanned => s.clearBanned
  | .ban ip nBanUntil fOverwrite => s.ban ip nBanUntil fOverwrite
  | .unban ip => s.unban ip
  | .getBanned nNow => s.getBanned nNow
  | .beginDump => s.beginDump
  | .stepDump i nNow fWritten => s.stepDump i nNow fWritten
  | .restart nNow => s.restart nNow

/-- The state of a process that has read the file it finds. -/
def load (banlist : BanMap) (nNow : ℤ) : BanList :=
  restart { setBanned := ∅, fBanlistDirty := false, banlist, dumps := [] } nNow

/-- Two lists have the same bans that have not expired. -/
def SameBans (nNow : ℤ) (banMap banMap' : BanMap) : Prop :=
  ∀ (ip : CNetAddr) (t : ℤ), nNow < t → (banMap[ip]? = some t ↔ banMap'[ip]? = some t)

/-- No dump is between its copy and the clearing of the flag. -/
def NoneCopied : Prop := ∀ banMap, Dump.copied banMap ∉ s.dumps

/-- The condition on an action: the list does not change between a dump's copy and its clearing of
the flag, and no dump takes a copy while another one holds a different copy. -/
def Ordered (s : BanList) (action : Action) : Prop :=
  match action with
  | .stepDump i nNow _ => s.dumps[i]? = some .dirty →
      ∀ dump ∈ s.dumps, ∀ banMap, dump.banMap? = some banMap → banMap = (s.getBanned nNow).setBanned
  | .restart _ => True
  | action => (s.step action).setBanned = s.setBanned ∨ s.NoneCopied

variable {s}

/-! ## What a sweep drops -/

theorem sweep_cons
    (nNow : ℤ) (entry : CNetAddr × ℤ) (entries : List (CNetAddr × ℤ)) (banned : BanMap × Bool) :
  sweep nNow (entry :: entries) banned
    = sweep nNow entries (if entry.2 ≤ nNow then (banned.1.erase entry.1, true) else banned)
  := rfl

/-- A sweep that leaves the flag alone has dropped nothing. -/
theorem sweep_eq_or_dirty (nNow : ℤ) (entries : List (CNetAddr × ℤ)) (banned : BanMap × Bool) :
  sweep nNow entries banned = banned ∨ (sweep nNow entries banned).2 = true
  := by
  induction entries generalizing banned with
  | nil => left; rfl
  | cons entry entries ih =>
    rw [sweep_cons]
    split_ifs with hexpired
    · right
      rcases ih (banned.1.erase entry.1, true) with hsame | hdirty
      · rw [hsame]
      · exact hdirty
    · exact ih banned

theorem getBanned_cases (nNow : ℤ) :
  ((s.getBanned nNow).setBanned = s.setBanned ∧ (s.getBanned nNow).fBanlistDirty = s.fBanlistDirty)
    ∨ (s.getBanned nNow).fBanlistDirty = true
  := by
  rcases sweep_eq_or_dirty nNow s.setBanned.toList (s.setBanned, s.fBanlistDirty) with hsame | hdirty
  · left
    exact ⟨congrArg Prod.fst hsame, congrArg Prod.snd hsame⟩
  · right
    exact hdirty

variable {nNow : ℤ}

/-- A sweep keeps the bans that have not expired. -/
theorem getElem?_sweep
    {entries : List (CNetAddr × ℤ)} {banned : BanMap × Bool}
    (hentries : ∀ entry ∈ entries, entry.2 ≤ nNow → ∀ t, nNow < t → banned.1[entry.1]? ≠ some t)
    (ip : CNetAddr) {t : ℤ} (ht : nNow < t) :
  (sweep nNow entries banned).1[ip]? = some t ↔ banned.1[ip]? = some t
  := by
  induction entries generalizing banned with
  | nil => rfl
  | cons entry entries ih =>
    have hrest : ∀ entry ∈ entries, entry.2 ≤ nNow → ∀ t, nNow < t → banned.1[entry.1]? ≠ some t :=
      fun entry hmem => hentries entry (List.mem_cons_of_mem _ hmem)
    rw [sweep_cons]
    split_ifs with hexpired
    · have hother := hentries entry List.mem_cons_self hexpired
      rw [ih]
      · rw [TreeMap.getElem?_erase_ite]
        split_ifs with hip
        · rw [← hip]
          exact iff_of_false (by simp) (hother t ht)
        · rfl
      · intro other hmem hold t' ht'
        rw [TreeMap.getElem?_erase_ite]
        split_ifs with hip
        · simp
        · exact hrest other hmem hold t' ht'
    · exact ih hrest

theorem sameBans_getBanned (s : BanList) (nNow : ℤ) :
  SameBans nNow (s.getBanned nNow).setBanned s.setBanned
  := by
  intro ip t ht
  apply getElem?_sweep _ ip ht
  intro entry hmem hold t' ht'
  rw [ExtTreeMap.mem_toList_iff_getElem?_eq_some.mp hmem]
  intro heq
  cases heq
  omega

/-! ## What the dumps hold -/

/-- The copies that dumps hold are one copy, which is the present list unless the flag is set, and
a list that is not behind the flag is in the file or on its way there. -/
structure Kept (s : BanList) : Prop where
  same : ∀ dump ∈ s.dumps, ∀ dump' ∈ s.dumps, ∀ banMap banMap', dump.banMap? = some banMap →
    dump'.banMap? = some banMap' → banMap = banMap'
  copied : ∀ banMap, Dump.copied banMap ∈ s.dumps → banMap = s.setBanned
  held : s.fBanlistDirty = false → ∀ dump ∈ s.dumps, ∀ banMap, dump.banMap? = some banMap →
    banMap = s.setBanned
  written : s.fBanlistDirty = false →
    s.banlist = s.setBanned ∨ ∃ dump ∈ s.dumps, dump.banMap?.isSome

/-- A change of the list that sets the flag. -/
theorem Kept.of_dirty
    {setBanned : BanMap} (h : Kept s) (hchange : setBanned = s.setBanned ∨ s.NoneCopied) :
  Kept { s with setBanned, fBanlistDirty := true }
  := by
  refine ⟨h.same, ?_, ?_, ?_⟩
  · intro banMap hmem
    rcases hchange with hsame | hnone
    · exact (h.copied banMap hmem).trans hsame.symm
    · exact absurd hmem (hnone banMap)
  · intro hclean
    cases hclean
  · intro hclean
    cases hclean

theorem Kept.getBanned
    (h : Kept s) (hchange : (s.getBanned nNow).setBanned = s.setBanned ∨ s.NoneCopied) :
  Kept (s.getBanned nNow)
  := by
  rcases getBanned_cases nNow with ⟨hsame, hdirty⟩ | hdirty
  · have heq : s.getBanned nNow = s := by
      change { s with
        setBanned := (s.getBanned nNow).setBanned
        fBanlistDirty := (s.getBanned nNow).fBanlistDirty } = s
      rw [hsame, hdirty]
    rw [heq]
    exact h
  · have hset := h.of_dirty hchange
    rw [← hdirty] at hset
    exact hset

theorem Kept.beginDump (h : Kept s) :
  Kept s.beginDump
  := by
  rw [BanList.beginDump]
  split_ifs with hdirty
  · have hdump : ∀ dump ∈ Dump.dirty :: s.dumps, ∀ banMap, dump.banMap? = some banMap →
        dump ∈ s.dumps := by
      intro dump hmem banMap hsome
      rcases List.mem_cons.mp hmem with rfl | hmem
      · cases hsome
      · exact hmem
    refine ⟨?_, ?_, fun hclean => ?_, fun hclean => ?_⟩
    · intro dump hmem dump' hmem' banMap banMap' hsome hsome'
      exact h.same dump (hdump dump hmem banMap hsome) dump' (hdump dump' hmem' banMap' hsome')
        banMap banMap' hsome hsome'
    · intro banMap hmem
      exact h.copied banMap (hdump _ hmem banMap rfl)
    · exact absurd hdirty (by rw [hclean]; exact Bool.false_ne_true)
    · exact absurd hdirty (by rw [hclean]; exact Bool.false_ne_true)
  · exact h

variable {i : ℕ}

/-- The dumps after one of them has changed from holding a copy to holding the same copy. -/
theorem Kept.set
    {old : Dump} (h : Kept s) (hget : s.dumps[i]? = some old) (new : Dump)
    (hbanMap : new.banMap? = old.banMap?) (hcopied : ∀ banMap, new ≠ .copied banMap) :
  Kept { s with dumps := s.dumps.set i new }
  := by
  have hold : old ∈ s.dumps := List.mem_of_getElem? hget
  have hdump : ∀ dump ∈ s.dumps.set i new, ∃ dump' ∈ s.dumps, dump'.banMap? = dump.banMap? := by
    intro dump hmem
    rcases List.mem_or_eq_of_mem_set hmem with hmem | rfl
    · exact ⟨dump, hmem, rfl⟩
    · exact ⟨old, hold, hbanMap.symm⟩
  refine ⟨?_, ?_, ?_, ?_⟩
  · intro dump hmem dump' hmem' banMap banMap' hsome hsome'
    obtain ⟨e, he, heq⟩ := hdump dump hmem
    obtain ⟨e', he', heq'⟩ := hdump dump' hmem'
    exact h.same e he e' he' banMap banMap' (heq.trans hsome) (heq'.trans hsome')
  · intro banMap hmem
    rcases List.mem_or_eq_of_mem_set hmem with hmem | heq
    · exact h.copied banMap hmem
    · exact absurd heq.symm (hcopied banMap)
  · intro hclean dump hmem banMap hsome
    obtain ⟨e, he, heq⟩ := hdump dump hmem
    exact h.held hclean e he banMap (heq.trans hsome)
  · intro hclean
    rcases h.written hclean with hfile | ⟨dump, hmem, hsome⟩
    · exact .inl hfile
    · right
      obtain ⟨j, hj⟩ := List.mem_iff_getElem?.mp hmem
      rcases eq_or_ne i j with rfl | hne
      · rw [hget] at hj
        cases hj
        refine ⟨new, ?_, by rw [hbanMap]; exact hsome⟩
        exact List.mem_set (List.getElem?_eq_some_iff.mp hget).1 new
      · refine ⟨dump, ?_, hsome⟩
        apply List.mem_of_getElem?
        rw [List.getElem?_set_ne hne, hj]

/-- A dump takes its copy. -/
theorem kept_copy
    (hget : s.dumps[i]? = some .dirty)
    (hcopies : ∀ dump ∈ s.dumps, ∀ banMap, dump.banMap? = some banMap →
      banMap = (s.getBanned nNow).setBanned) :
  Kept { s.getBanned nNow with dumps := s.dumps.set i (.copied (s.getBanned nNow).setBanned) }
  := by
  have hdump : ∀ dump ∈ s.dumps.set i (.copied (s.getBanned nNow).setBanned), ∀ banMap,
      dump.banMap? = some banMap → banMap = (s.getBanned nNow).setBanned := by
    intro dump hmem banMap hsome
    rcases List.mem_or_eq_of_mem_set hmem with hmem | rfl
    · exact hcopies dump hmem banMap hsome
    · exact (Option.some.inj hsome).symm
  refine ⟨?_, ?_, ?_, ?_⟩
  · intro dump hmem dump' hmem' banMap banMap' hsome hsome'
    exact (hdump dump hmem banMap hsome).trans (hdump dump' hmem' banMap' hsome').symm
  · intro banMap hmem
    exact hdump _ hmem banMap rfl
  · intro _
    exact hdump
  · intro _
    right
    exact ⟨_, List.mem_set (List.getElem?_eq_some_iff.mp hget).1 _, rfl⟩

/-- A dump clears the flag. -/
theorem Kept.clear
    {banMap : BanMap} (h : Kept s) (hget : s.dumps[i]? = some (.copied banMap)) :
  Kept { s with fBanlistDirty := false }
  := by
  have hmem := List.mem_of_getElem? hget
  refine ⟨h.same, h.copied, ?_, ?_⟩
  · intro _ dump hdump banMap' hsome
    rw [h.same dump hdump _ hmem banMap' banMap hsome rfl]
    exact h.copied banMap hmem
  · intro _
    right
    exact ⟨_, hmem, rfl⟩

/-- A dump ends: its write has succeeded, or it has set the flag again. -/
theorem Kept.finish
    {banlist : BanMap} {fBanlistDirty : Bool} (h : Kept s)
    (hflag : fBanlistDirty = false → s.fBanlistDirty = false)
    (hfile : fBanlistDirty = false → banlist = s.setBanned) :
  Kept { s with banlist, fBanlistDirty, dumps := s.dumps.eraseIdx i }
  := by
  have hdump : ∀ dump ∈ s.dumps.eraseIdx i, dump ∈ s.dumps :=
    fun dump => List.mem_of_mem_eraseIdx
  refine ⟨?_, ?_, ?_, ?_⟩
  · intro dump hmem dump' hmem'
    exact h.same dump (hdump dump hmem) dump' (hdump dump' hmem')
  · intro banMap hmem
    exact h.copied banMap (hdump _ hmem)
  · intro hclean dump hmem
    exact h.held (hflag hclean) dump (hdump dump hmem)
  · intro hclean
    left
    exact hfile hclean

theorem Kept.stepDump
    {fWritten : Bool} (h : Kept s) (hordered : s.Ordered (.stepDump i nNow fWritten)) :
  Kept (s.stepDump i nNow fWritten)
  := by
  rw [BanList.stepDump]
  split
  · exact h
  · next hget => exact kept_copy hget (hordered hget)
  · next banMap hget =>
    apply (h.clear hget).set hget (.cleared banMap) rfl
    intro banMap' heq
    cases heq
  · next banMap hget =>
    split_ifs
    · apply h.finish id
      intro hclean
      exact h.held hclean _ (List.mem_of_getElem? hget) banMap rfl
    · apply h.set hget (.failed banMap) rfl
      intro banMap' heq
      cases heq
  · next banMap hget =>
    apply h.finish
    · intro hclean
      cases hclean
    · intro hclean
      cases hclean

theorem kept_restart (s : BanList) (nNow : ℤ) :
  Kept (s.restart nNow)
  := by
  apply Kept.getBanned
  · refine ⟨?_, ?_, ?_, fun _ => .inl rfl⟩
    · intro dump hmem
      cases hmem
    · intro banMap hmem
      cases hmem
    · intro _ dump hmem
      cases hmem
  · right
    intro banMap hmem
    cases hmem

theorem Kept.step (h : Kept s) {action : Action} (hordered : s.Ordered action) :
  Kept (s.step action)
  := by
  cases action with
  | clearBanned => exact h.of_dirty hordered
  | ban ip nBanUntil fOverwrite => exact h.of_dirty hordered
  | unban ip =>
    simp only [Ordered, BanList.step, BanList.unban] at hordered ⊢
    split_ifs at hordered ⊢
    · exact h.of_dirty hordered
    · exact h
  | getBanned nNow => exact h.getBanned hordered
  | beginDump => exact h.beginDump
  | stepDump i nNow fWritten => exact h.stepDump hordered
  | restart nNow => exact kept_restart s nNow

/-- While no dump is in progress and the flag is clear, the file has the bans of the list, and so
has the list of a process that starts with the file. -/
theorem sameBans_of_run
    {banlist : BanMap} {nStart : ℤ} {actions : List Action}
    (halong : Along step Ordered (load banlist nStart) actions)
    (hdumps : (run step (load banlist nStart) actions).dumps = [])
    (hclean : (run step (load banlist nStart) actions).fBanlistDirty = false) (nNow : ℤ) :
  SameBans nNow (run step (load banlist nStart) actions).banlist
      (run step (load banlist nStart) actions).setBanned
    ∧ SameBans nNow ((run step (load banlist nStart) actions).restart nNow).setBanned
      (run step (load banlist nStart) actions).setBanned
  := by
  have hkept : Kept (run step (load banlist nStart) actions) :=
    run_invariant (fun s action hordered h => h.step hordered) halong (kept_restart _ nStart)
  rcases hkept.written hclean with hfile | ⟨dump, hmem, -⟩
  · constructor
    · rw [hfile]
      intro ip t ht
      rfl
    · rw [← hfile]
      exact sameBans_getBanned _ nNow
  · rw [hdumps] at hmem
    cases hmem

/-- A ban and a dump of it. -/
def sampleDump (ip : CNetAddr) : List Action :=
  [.ban ip 1000 true, .beginDump, .stepDump 0 1 true, .stepDump 0 1 true, .stepDump 0 1 true]

/-- An address. -/
def sampleAddr (n : UInt8) : CNetAddr := ⟨List.replicate 15 0 ++ [n], rfl⟩

theorem sampleDump_sameBans :
  SameBans 1 (run step (load ∅ 0) (sampleDump (sampleAddr 1))).banlist
      (run step (load ∅ 0) (sampleDump (sampleAddr 1))).setBanned
    ∧ SameBans 1 ((run step (load ∅ 0) (sampleDump (sampleAddr 1))).restart 1).setBanned
      (run step (load ∅ 0) (sampleDump (sampleAddr 1))).setBanned
  := by
  have hnone : ∀ s : BanList, s.dumps = [] → s.NoneCopied := by
    intro s hdumps banMap hmem
    rw [hdumps] at hmem
    cases hmem
  apply sameBans_of_run
  · refine ⟨.inr (hnone _ rfl), .inr (hnone _ rfl), ?_, ?_, ?_, trivial⟩
    · intro _ dump hmem banMap hsome
      rw [List.mem_singleton.mp hmem] at hsome
      cases hsome
    · intro hget
      cases hget
    · intro hget
      cases hget
  · rfl
  · rfl

/-- An address is banned between the copy of a dump and the clearing of the flag. -/
theorem secondBan_lost :
  ∃ actions, (run step (load ∅ 0) actions).dumps = []
    ∧ (run step (load ∅ 0) actions).fBanlistDirty = false
    ∧ ¬SameBans 1 (run step (load ∅ 0) actions).banlist (run step (load ∅ 0) actions).setBanned
  := by
  refine ⟨[.ban (sampleAddr 1) 1000 true, .beginDump, .stepDump 0 1 true,
    .ban (sampleAddr 2) 1000 true, .stepDump 0 1 true, .stepDump 0 1 true], rfl, rfl, ?_⟩
  intro hsame
  have hlost := hsame (sampleAddr 2) 1000 (by decide)
  revert hlost
  decide

end BanList

end CorgiCoin
