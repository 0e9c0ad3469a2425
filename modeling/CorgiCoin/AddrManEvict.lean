import CorgiCoin.AddrManCheck
import CorgiCoin.Lib.Shuffle

/-!
# Evicting an address that was tried

`SelectTried` shuffles the first places of a tried bucket and looks at what it draws.  It returns
the position that the stalest entry was drawn from, which is where the shuffle has put another
entry, unless the entry was drawn from its own place.
-/

namespace CorgiCoin.CAddrMan

variable (man : CAddrMan) (rand : ℕ → ℕ) (vTried : List ℕ)

/-- The position that a round draws. -/
def drawnPos (i : ℕ) : ℕ := getRandInt (rand i) (vTried.length - i) + i

/-- The entry that a round looks at. -/
def inspectedAt (i : ℕ) : Option ℕ := vTried[Shuffle.drawn (drawnPos rand vTried) i]?

/-- The entries that `SelectTried` looks at. -/
def inspected : List ℕ :=
  (List.range ADDRMAN_TRIED_ENTRIES_INSPECT_ON_EVICT).filterMap (inspectedAt rand vTried)

/-- `mapInfo[nId].nLastSuccess` -/
def lastSuccess (nId : ℕ) : ℤ := ((man.mapInfo nId).map (·.nLastSuccess)).getD 0

/-- The last success of the entry that a round looks at. -/
def lastSuccessAt (i : ℕ) : ℤ := ((inspectedAt rand vTried i).map man.lastSuccess).getD 0

/-- The first of `k` rounds whose entry has the smallest last success. -/
def IsStalest (k m : ℕ) : Prop :=
  m < k ∧ (∀ i < k, man.lastSuccessAt rand vTried m ≤ man.lastSuccessAt rand vTried i)
    ∧ ∀ i < m, man.lastSuccessAt rand vTried m < man.lastSuccessAt rand vTried i

/-- `SelectTried` returns the position of an entry that it looked at, with the smallest last
success among those, and the bucket holds the same ids as before. -/
def EvictsStalest (b : TriedBucket) : Prop :=
  ∃ vTried nPos, man.selectTried b rand = some (man.setTried b vTried, nPos)
    ∧ vTried.Perm (man.vvTried b)
    ∧ ∃ nId, vTried[nPos]? = some nId ∧ nId ∈ inspected rand (man.vvTried b)
      ∧ ∀ other ∈ inspected rand (man.vvTried b), man.lastSuccess nId ≤ man.lastSuccess other

/-- The round that draws the stalest entry draws it from one of the first places, and what is
drawn for that place is as stale. -/
def DrawsStalestInPlace : Prop :=
  ∀ m, man.IsStalest rand vTried ADDRMAN_TRIED_ENTRIES_INSPECT_ON_EVICT m →
    drawnPos rand vTried m < ADDRMAN_TRIED_ENTRIES_INSPECT_ON_EVICT
      ∧ man.lastSuccessAt rand vTried (drawnPos rand vTried m)
        = man.lastSuccessAt rand vTried m

/-- A full bucket of distinct entries. -/
structure FullBucket (b : TriedBucket) : Prop where
  length_eq : (man.vvTried b).length = ADDRMAN_TRIED_BUCKET_SIZE
  nodup : (man.vvTried b).Nodup
  known : ∀ nId ∈ man.vvTried b, ∃ info, man.mapInfo nId = some info

variable {man rand vTried}

/-! ## The stalest of the entries -/

theorem isStalest_one : man.IsStalest rand vTried 1 0
  := by
  refine ⟨Nat.one_pos, ?_, ?_⟩
  · intro i hi
    rw [Nat.lt_one_iff.mp hi]
  · intro i hi
    cases hi

theorem IsStalest.succ_of_lt
    {k m : ℕ} (h : man.IsStalest rand vTried k m)
    (hlt : man.lastSuccessAt rand vTried k < man.lastSuccessAt rand vTried m) :
  man.IsStalest rand vTried (k + 1) k
  := by
  obtain ⟨_, hle, _⟩ := h
  refine ⟨Nat.lt_succ_self k, ?_, fun i hi => hlt.trans_le (hle i hi)⟩
  intro i hi
  rcases Nat.lt_succ_iff_lt_or_eq.mp hi with hi | rfl
  · apply (hlt.trans_le (hle i hi)).le
  · apply le_refl

theorem IsStalest.succ_of_not_lt
    {k m : ℕ} (h : man.IsStalest rand vTried k m)
    (hlt : ¬man.lastSuccessAt rand vTried k < man.lastSuccessAt rand vTried m) :
  man.IsStalest rand vTried (k + 1) m
  := by
  obtain ⟨hm, hle, hfirst⟩ := h
  refine ⟨Nat.lt_succ_of_lt hm, ?_, hfirst⟩
  intro i hi
  rcases Nat.lt_succ_iff_lt_or_eq.mp hi with hi | rfl
  · apply hle i hi
  · apply not_lt.mp hlt

theorem IsStalest.unique
    {k m m' : ℕ} (h : man.IsStalest rand vTried k m) (h' : man.IsStalest rand vTried k m') :
  m = m'
  := by
  rcases Nat.lt_trichotomy m m' with hlt | heq | hlt
  · apply absurd (h.2.1 m' h'.1) (not_le.mpr (h'.2.2 m hlt))
  · apply heq
  · apply absurd (h'.2.1 m h.1) (not_le.mpr (h.2.2 m' hlt))

/-! ## The loop -/

/-- What the loop remembers after `i` rounds. -/
def Remembers (man : CAddrMan) (rand : ℕ → ℕ) (vTried : List ℕ) (i : ℕ)
    (oldest : Option (ℕ × ℕ)) : Prop :=
  ∃ m nId, man.IsStalest rand vTried i m ∧ inspectedAt rand vTried m = some nId
    ∧ oldest = some (nId, drawnPos rand vTried m)

theorem le_drawnPos (i : ℕ) : i ≤ drawnPos rand vTried i := Nat.le_add_left _ _

theorem drawnPos_lt {i : ℕ} (h : i < vTried.length) : drawnPos rand vTried i < vTried.length
  := by
  rw [drawnPos, getRandInt, if_neg (by omega)]
  have hlt := Nat.mod_lt (rand i) (show vTried.length - i > 0 by omega)
  omega

theorem lastSuccessAt_of_some {i nId : ℕ} (h : inspectedAt rand vTried i = some nId) :
  man.lastSuccessAt rand vTried i = man.lastSuccess nId
  := by rw [lastSuccessAt, h, Option.map_some, Option.getD_some]

theorem lastSuccessAt_eq
    {i nId : ℕ} {info : CAddrInfo} (h : inspectedAt rand vTried i = some nId)
    (hinfo : man.mapInfo nId = some info) :
  man.lastSuccessAt rand vTried i = info.nLastSuccess
  := by
  rw [lastSuccessAt_of_some h, lastSuccess, hinfo, Option.map_some, Option.getD_some]

/-- One round of the loop: it remembers its entry when that is the first one, or staler than the
one remembered. -/
theorem selectTriedLoop_succ
    (hknown : ∀ nId ∈ vTried, ∃ info, man.mapInfo nId = some info) {k i : ℕ}
    (hi : i < vTried.length) {oldest : Option (ℕ × ℕ)}
    (holdest : i = 0 ∧ oldest = none ∨ man.Remembers rand vTried i oldest) :
  ∃ oldest', man.Remembers rand vTried (i + 1) oldest'
    ∧ man.selectTriedLoop rand (k + 1) i (Shuffle.shuffle (drawnPos rand vTried) vTried i) oldest
      = man.selectTriedLoop rand k (i + 1)
        (Shuffle.shuffle (drawnPos rand vTried) vTried (i + 1)) oldest'
  := by
  have hlength := Shuffle.length_shuffle (p := drawnPos rand vTried) vTried i
  have hi' : i < (Shuffle.shuffle (drawnPos rand vTried) vTried i).length := by rwa [hlength]
  have hpos : drawnPos rand vTried i < (Shuffle.shuffle (drawnPos rand vTried) vTried i).length :=
    by rw [hlength]; apply drawnPos_lt hi
  have hdrawn : inspectedAt rand vTried i
      = some (Shuffle.shuffle (drawnPos rand vTried) vTried i)[drawnPos rand vTried i] := by
    rw [← List.getElem?_eq_getElem hpos, Shuffle.getElem?_shuffle hi.le
      (fun j hj => drawnPos_lt (hj.trans hi))]
    rfl
  obtain ⟨info, hinfo⟩ := hknown _ (List.mem_of_getElem? hdrawn)
  have hlast := lastSuccessAt_eq hdrawn hinfo
  have hswap := Shuffle.swapAt_eq hi' hpos
  have hround : getRandInt (rand i)
      ((Shuffle.shuffle (drawnPos rand vTried) vTried i).length - i) + i
        = drawnPos rand vTried i := by rw [hlength]; rfl
  rw [selectTriedLoop, if_pos hi', Shuffle.shuffle]
  simp only [hround, List.getElem?_eq_getElem hpos, List.getElem?_eq_getElem hi', hinfo,
    Option.bind_eq_bind, Option.bind_some, ← hswap]
  rcases holdest with ⟨rfl, rfl⟩ | ⟨m, nOldest, hstalest, hinspected, rfl⟩
  · refine ⟨_, ⟨0, _, isStalest_one, hdrawn, rfl⟩, rfl⟩
  · obtain ⟨infoOldest, hinfoOldest⟩ := hknown _ (List.mem_of_getElem? hinspected)
    have hlastOldest := lastSuccessAt_eq hinspected hinfoOldest
    simp only [hinfoOldest, Option.bind_some]
    split_ifs with hlt
    · rw [← hlast, ← hlastOldest] at hlt
      refine ⟨_, ⟨i, _, hstalest.succ_of_lt hlt, hdrawn, rfl⟩, rfl⟩
    · rw [← hlast, ← hlastOldest] at hlt
      refine ⟨_, ⟨m, nOldest, hstalest.succ_of_not_lt hlt, hinspected, rfl⟩, rfl⟩

/-- The loop remembers the stalest of the entries that it looks at. -/
theorem selectTriedLoop_eq
    (hknown : ∀ nId ∈ vTried, ∃ info, man.mapInfo nId = some info) {k i : ℕ}
    (hk : i + k ≤ vTried.length) (hpos : 0 < i + k) {oldest : Option (ℕ × ℕ)}
    (holdest : i = 0 ∧ oldest = none ∨ man.Remembers rand vTried i oldest) :
  ∃ oldest', man.Remembers rand vTried (i + k) oldest'
    ∧ man.selectTriedLoop rand k i (Shuffle.shuffle (drawnPos rand vTried) vTried i) oldest
      = some (Shuffle.shuffle (drawnPos rand vTried) vTried (i + k), oldest')
  := by
  induction k generalizing i oldest with
  | zero =>
    rcases holdest with ⟨rfl, _⟩ | holdest
    · cases hpos
    · exact ⟨oldest, holdest, rfl⟩
  | succ k ih =>
    obtain ⟨oldest', holdest', hround⟩ :=
      selectTriedLoop_succ hknown (k := k) (show i < vTried.length by omega) holdest
    rw [hround, show i + (k + 1) = i + 1 + k by omega]
    apply ih (by omega) (by omega) (Or.inr holdest')

/-- `SelectTried` of a full bucket: the bucket is shuffled, and the position is the one that the
stalest entry was drawn from. -/
theorem FullBucket.selectTried {b : TriedBucket} (h : man.FullBucket b) (rand : ℕ → ℕ) :
  ∃ m, man.IsStalest rand (man.vvTried b) ADDRMAN_TRIED_ENTRIES_INSPECT_ON_EVICT m
    ∧ man.selectTried b rand
      = some (man.setTried b (Shuffle.shuffle (drawnPos rand (man.vvTried b)) (man.vvTried b)
          ADDRMAN_TRIED_ENTRIES_INSPECT_ON_EVICT), drawnPos rand (man.vvTried b) m)
  := by
  have hlength : ADDRMAN_TRIED_ENTRIES_INSPECT_ON_EVICT ≤ (man.vvTried b).length := by
    rw [h.length_eq]
    decide
  obtain ⟨_, ⟨m, nId, hstalest, _, rfl⟩, hloop⟩ := @selectTriedLoop_eq man rand (man.vvTried b)
    h.known ADDRMAN_TRIED_ENTRIES_INSPECT_ON_EVICT 0 (by rwa [Nat.zero_add]) (by decide) none
    (Or.inl ⟨rfl, rfl⟩)
  rw [Nat.zero_add] at hstalest hloop
  rw [Shuffle.shuffle] at hloop
  use m, hstalest
  rw [CAddrMan.selectTried, hloop]
  rfl

/-! ## What is evicted -/

theorem mem_inspected {nId : ℕ} :
  nId ∈ inspected rand vTried
    ↔ ∃ i < ADDRMAN_TRIED_ENTRIES_INSPECT_ON_EVICT, inspectedAt rand vTried i = some nId
  := by simp only [inspected, List.mem_filterMap, List.mem_range]

/-- Entries of a full bucket are at one position each. -/
theorem FullBucket.pos_eq
    {b : TriedBucket} (h : man.FullBucket b) {i j nId : ℕ} (hi : (man.vvTried b)[i]? = some nId)
    (hj : (man.vvTried b)[j]? = some nId) :
  i = j
  := by
  obtain ⟨hlt, _⟩ := List.getElem?_eq_some_iff.mp hi
  apply (List.getElem?_inj hlt h.nodup).mp (hi.trans hj.symm)

/-- The position returned holds an entry looked at with the smallest last success exactly when the
stalest entry was drawn from one of the first places, and for that place one as stale. -/
theorem evictsStalest_iff {b : TriedBucket} (h : man.FullBucket b) (rand : ℕ → ℕ) :
  man.EvictsStalest rand b ↔ man.DrawsStalestInPlace rand (man.vvTried b)
  := by
  obtain ⟨m, hm, hselect⟩ := h.selectTried rand
  obtain ⟨hmlt, hmle, _⟩ := id hm
  have hfour : ADDRMAN_TRIED_ENTRIES_INSPECT_ON_EVICT ≤ (man.vvTried b).length := by
    rw [h.length_eq]
    decide
  have hplace := Shuffle.getElem?_shuffle hfour
    (fun i hi => @drawnPos_lt rand _ i (hi.trans_le hfour))
  have hfirst : ∀ i < ADDRMAN_TRIED_ENTRIES_INSPECT_ON_EVICT,
      (Shuffle.shuffle (drawnPos rand (man.vvTried b)) (man.vvTried b)
        ADDRMAN_TRIED_ENTRIES_INSPECT_ON_EVICT)[i]? = inspectedAt rand (man.vvTried b) i := by
    intro i hi
    rw [hplace, Shuffle.origin_of_lt le_drawnPos hi]
    rfl
  have hsome : ∀ i < ADDRMAN_TRIED_ENTRIES_INSPECT_ON_EVICT,
      ∃ nId, inspectedAt rand (man.vvTried b) i = some nId := by
    intro i hi
    have hlt : i < (Shuffle.shuffle (drawnPos rand (man.vvTried b)) (man.vvTried b)
        ADDRMAN_TRIED_ENTRIES_INSPECT_ON_EVICT).length := by
      rw [Shuffle.length_shuffle]
      apply hi.trans_le hfour
    exact ⟨_, (hfirst i hi).symm.trans (List.getElem?_eq_getElem hlt)⟩
  constructor
  · rintro ⟨vTried, nPos, hresult, _, nId, hnId, hmem, hle⟩ m' hm'
    rw [hm'.unique hm]
    rw [hselect, Option.some.injEq, Prod.mk.injEq] at hresult
    obtain ⟨htables, rfl⟩ := hresult
    have hvTried := congrFun (congrArg CAddrMan.vvTried htables) b
    simp only [CAddrMan.setTried, Function.update_self] at hvTried
    obtain ⟨i, hi, hinspected⟩ := mem_inspected.mp hmem
    have hlt : drawnPos rand (man.vvTried b) m < ADDRMAN_TRIED_ENTRIES_INSPECT_ON_EVICT := by
      by_contra hge
      rw [← hvTried, hplace] at hnId
      apply Shuffle.origin_ne_drawn le_drawnPos hi (not_lt.mp hge) (h.pos_eq hnId hinspected)
    have hdrawn : inspectedAt rand (man.vvTried b) (drawnPos rand (man.vvTried b) m)
        = some nId := by
      rw [← hfirst _ hlt, hvTried, hnId]
    obtain ⟨nOldest, hOldest⟩ := hsome m hmlt
    refine ⟨hlt, le_antisymm ?_ (hmle _ hlt)⟩
    rw [lastSuccessAt_of_some hdrawn, lastSuccessAt_of_some hOldest]
    apply hle nOldest (mem_inspected.mpr ⟨m, hmlt, hOldest⟩)
  · intro hdraws
    obtain ⟨hlt, heq⟩ := hdraws m hm
    obtain ⟨nId, hnId⟩ := hsome _ hlt
    refine ⟨_, _, hselect, Shuffle.shuffle_perm _ _, nId, (hfirst _ hlt).trans hnId,
      mem_inspected.mpr ⟨_, hlt, hnId⟩, ?_⟩
    intro other hother
    obtain ⟨i, hi, hinspected⟩ := mem_inspected.mp hother
    rw [← lastSuccessAt_of_some hnId, ← lastSuccessAt_of_some hinspected, heq]
    apply hmle i hi

/-- The entry of the address `1.2.3.id`, with a time of last success that falls with the id. -/
def staleInfo (nId : ℕ) : CAddrInfo where
  ip := pchIPv4 ++ [1, 2, 3, UInt8.ofNat nId]
  length_ip := rfl
  port := 22556
  nServices := 1
  nTime := 1400000000
  nLastTry := 1400000000
  source := ⟨pchIPv4 ++ [1, 2, 3, 4], rfl⟩
  nLastSuccess := 1400000000 - nId
  nAttempts := 0
  nRefCount := 0
  fInTried := true
  nRandomPos := nId

def firstBucket : TriedBucket := ⟨0, Nat.succ_pos 63⟩

/-- A manager of 64 entries, which fill the first tried bucket. -/
def fullMan : CAddrMan where
  nKey := []
  nIdCount := 64
  mapInfo nId := if nId < 64 then some (staleInfo nId) else none
  mapAddr addr := (List.range 64).find? fun nId => (staleInfo nId).toCNetAddr = addr
  vRandom := List.range 64
  nTried := 64
  vvTried b := if b = firstBucket then List.range 64 else []
  nNew := 0
  vvNew _ := ∅

theorem fullMan_fullBucket : fullMan.FullBucket firstBucket
  := by
  refine ⟨rfl, List.nodup_range, ?_⟩
  intro nId hnId
  exact ⟨staleInfo nId, if_pos (List.mem_range.mp hnId)⟩

/-- Where every round draws the entry in its own place, the stalest of the first four is returned. -/
theorem fullMan_evictsStalest :
  fullMan.EvictsStalest (fun _ => 0) firstBucket
  := by
  apply (evictsStalest_iff fullMan_fullBucket (fun _ => 0)).mpr
  intro m hm
  have hdrawn : drawnPos (fun _ => 0) (fullMan.vvTried firstBucket) m = m := by
    rw [drawnPos, getRandInt]
    simp
  rw [hdrawn]
  exact ⟨hm.1, rfl⟩

/-- The first round draws the stalest entry from the end of the bucket; what it returns is the
position where the shuffle has put the entry with the latest success. -/
theorem not_evictsStalest :
  ¬∀ (man : CAddrMan) (b : TriedBucket) (rand : ℕ → ℕ), man.FullBucket b →
    man.EvictsStalest rand b
  := by
  intro h
  obtain ⟨vTried, nPos, hselect, _, nId, hnId, hmem, _⟩ :=
    h fullMan firstBucket (fun i => if i = 0 then 63 else 0) fullMan_fullBucket
  have hevicted : (fullMan.selectTried firstBucket (fun i => if i = 0 then 63 else 0)).bind
      (fun result => (result.1.vvTried firstBucket)[result.2]?) = some 0 := by decide
  rw [hselect, Option.bind_some, CAddrMan.setTried] at hevicted
  simp only [Function.update_self] at hevicted
  rw [hevicted, Option.some.injEq] at hnId
  rw [← hnId] at hmem
  revert hmem
  decide

end CorgiCoin.CAddrMan
