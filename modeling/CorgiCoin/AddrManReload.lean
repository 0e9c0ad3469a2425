import CorgiCoin.AddrManFile
import CorgiCoin.AddrManCheck
import Mathlib.Algebra.Order.BigOperators.Group.Finset

/-!
# Reading the file of the address manager

What the address manager writes is read back as the same tables: the ids are others, the entries,
their buckets and their counts of references are the same, and no entry is lost.
-/

namespace CorgiCoin

open Codec

namespace CAddrMan

/-! ## What is written -/

/-- The entries with references, in the order that they are written in. -/
def newItems (items : List (ℕ × CAddrInfo)) : List (ℕ × CAddrInfo) :=
  items.filter (fun item => item.2.nRefCount ≠ 0)

/-- The entries that are in the tried table. -/
def triedItems (items : List (ℕ × CAddrInfo)) : List (ℕ × CAddrInfo) :=
  items.filter (fun item => item.2.fInTried)

/-- The bytes of an entry. -/
def serializeItem (item : ℕ × CAddrInfo) : Bytes := item.2.serialize nFileVersion

/-- When `nNew` counts the entries with references, they are all written, and numbered in the order
they are written in. -/
theorem serializeNew_eq
    (man : CAddrMan) (items : List (ℕ × CAddrInfo)) (nIds : ℕ) (mapUnkIds : ℕ → ℕ)
    (hcount : man.nNew = nIds + (newItems items).length) (hnodup : (items.map Prod.fst).Nodup) :
  ∃ mapUnkIds', man.serializeNew items nIds mapUnkIds
      = ((newItems items).flatMap serializeItem, mapUnkIds')
    ∧ (∀ k item, (newItems items)[k]? = some item → mapUnkIds' item.1 = nIds + k)
    ∧ ∀ id, id ∉ items.map Prod.fst → mapUnkIds' id = mapUnkIds id
  := by
  induction items generalizing nIds mapUnkIds with
  | nil => exact ⟨mapUnkIds, rfl, by simp [newItems], fun _ _ => rfl⟩
  | cons item items ih =>
    obtain ⟨id, info⟩ := item
    rw [List.map_cons, List.nodup_cons] at hnodup
    rw [serializeNew]
    by_cases hdone : (nIds : ℤ) = man.nNew
    · have hnil : newItems ((id, info) :: items) = [] := by
        rw [← List.length_eq_zero_iff]
        omega
      rw [if_pos hdone, hnil]
      exact ⟨mapUnkIds, rfl, by simp, fun _ _ => rfl⟩
    · rw [if_neg hdone]
      by_cases href : info.nRefCount ≠ 0
      · have hcons : newItems ((id, info) :: items) = (id, info) :: newItems items := by
          simp [newItems, href]
        rw [hcons, List.length_cons] at hcount
        obtain ⟨mapUnkIds', heq, hnumber, hother⟩ := ih (nIds + 1) (Function.update mapUnkIds id nIds)
          (by push_cast at hcount ⊢; omega) hnodup.2
        refine ⟨mapUnkIds', ?_, ?_, ?_⟩
        · rw [hcons]
          simp only [if_pos href, heq]
          rfl
        · intro k item hitem
          rw [hcons] at hitem
          cases k with
          | zero =>
            cases hitem
            rw [hother id hnodup.1, Function.update_self, Nat.add_zero]
          | succ k =>
            rw [List.getElem?_cons_succ] at hitem
            rw [hnumber k item hitem]
            omega
        · intro x hx
          rw [List.map_cons, List.mem_cons, not_or] at hx
          rw [hother x hx.2, Function.update_of_ne hx.1]
      · have hskip : newItems ((id, info) :: items) = newItems items := by
          simp [newItems, not_not.mp href]
        rw [hskip] at hcount ⊢
        obtain ⟨mapUnkIds', heq, hnumber, hother⟩ := ih nIds (Function.update mapUnkIds id nIds)
          hcount hnodup.2
        refine ⟨mapUnkIds', ?_, hnumber, ?_⟩
        · simp only [if_neg href, heq]
        · intro x hx
          rw [List.map_cons, List.mem_cons, not_or] at hx
          rw [hother x hx.2, Function.update_of_ne hx.1]

/-- When `nTried` counts the entries of the tried table, they are all written. -/
theorem serializeTried_eq
    (man : CAddrMan) (items : List (ℕ × CAddrInfo)) (nIds : ℕ)
    (hcount : man.nTried = nIds + (triedItems items).length) :
  man.serializeTried items nIds = (triedItems items).flatMap serializeItem
  := by
  induction items generalizing nIds with
  | nil => rfl
  | cons item items ih =>
    obtain ⟨id, info⟩ := item
    rw [serializeTried]
    by_cases hdone : (nIds : ℤ) = man.nTried
    · have hnil : triedItems ((id, info) :: items) = [] := by
        rw [← List.length_eq_zero_iff]
        omega
      rw [if_pos hdone, hnil]
      rfl
    · rw [if_neg hdone]
      by_cases htried : info.fInTried = true
      · have hcons : triedItems ((id, info) :: items) = (id, info) :: triedItems items := by
          simp [triedItems, htried]
        rw [hcons, List.length_cons] at hcount
        rw [if_pos htried, hcons, ih (nIds + 1) (by push_cast at hcount ⊢; omega)]
        rfl
      · have hskip : triedItems ((id, info) :: items) = triedItems items := by
          simp [triedItems, htried]
        rw [hskip] at hcount ⊢
        rw [if_neg htried, ih nIds hcount]

/-! ## The conditions of `Check_` -/

/-- The conditions of `Check_` on a manager with the given entries, and the limits on the sizes of
the buckets.  An address that `mapAddr` does not have stands for the id 0. -/
structure Checked (man : CAddrMan) (items : List (ℕ × CAddrInfo)) : Prop where
  listed : man.Items items
  length_vRandom : (man.vRandom.length : ℤ) = man.nTried + man.nNew
  mapAddr : ∀ id info, man.mapInfo id = some info → (man.mapAddr info.toCNetAddr).getD 0 = id
  randomPos : ∀ id info, man.mapInfo id = some info →
    ∃ pos : ℕ, info.nRandomPos = pos ∧ man.vRandom[pos]? = some id
  nTried_eq : man.nTried = (triedItems items).length
  nNew_eq : man.nNew = (items.filter (fun item => !item.2.fInTried)).length
  placed : man.Placed 0

section Items

variable {man : CAddrMan} {items : List (ℕ × CAddrInfo)}

theorem Items.nodup (h : man.Items items) : (items.map Prod.fst).Nodup :=
  h.sorted.imp (fun hlt => Nat.ne_of_lt hlt)

/-- The entries whose information says that they are tried, or that they are new, are as many as
the ids that do. -/
theorem Items.card_idsWith
    (h : man.Items items) (hindexed : man.Indexed) (fInTried : Bool) :
  (man.idsWith fInTried).card = (items.filter (fun item => item.2.fInTried = fInTried)).length
  := by
  have hids : man.idsWith fInTried
      = ((items.filter (fun item => item.2.fInTried = fInTried)).map Prod.fst).toFinset := by
    ext id
    rw [idsWith, Finset.mem_filter, List.mem_toFinset, hindexed.mem_vRandom, List.mem_toFinset,
      List.mem_map]
    constructor
    · rintro ⟨⟨info, hinfo⟩, htried⟩
      rw [isTried_eq hinfo] at htried
      refine ⟨(id, info), ?_, rfl⟩
      rw [List.mem_filter, h.mem]
      exact ⟨hinfo, decide_eq_true htried⟩
    · rintro ⟨⟨id', info⟩, hitem, rfl⟩
      rw [List.mem_filter, h.mem] at hitem
      refine ⟨⟨info, hitem.1⟩, ?_⟩
      rw [isTried_eq hitem.1]
      exact of_decide_eq_true hitem.2
  have hnodup : ((items.filter (fun item => item.2.fInTried = fInTried)).map Prod.fst).Nodup :=
    h.nodup.sublist (List.filter_sublist.map _)
  rw [hids, List.toFinset_card_of_nodup hnodup, List.length_map]

/-- The tables of a consistent manager pass `Check_`. -/
theorem Consistent.checked (h : man.Consistent) (hitems : man.Items items) :
  man.Checked items
  := by
  refine ⟨hitems, h.length_vRandom, ?_, h.indexed.randomPos, ?_, ?_, h.placed⟩
  · intro id info hinfo
    rw [h.indexed.mapAddr_of_mapInfo id info hinfo]
    rfl
  · rw [h.counted.nTried_eq, hitems.card_idsWith h.indexed]
    simp [triedItems]
  · rw [h.counted.nNew_eq, hitems.card_idsWith h.indexed]
    simp

/-- The ids in use are below `nIdCount`, and so there are finitely many. -/
theorem Indexed.items_range (h : man.Indexed) :
  man.Items ((List.range man.nIdCount).filterMap (fun id => (man.mapInfo id).map (fun i => (id, i))))
  := by
  constructor
  · rw [List.pairwise_map, List.pairwise_filterMap]
    apply List.pairwise_lt_range.imp
    intro id id' hlt item hitem item' hitem'
    obtain ⟨info, _, rfl⟩ := Option.map_eq_some_iff.mp hitem
    obtain ⟨info', _, rfl⟩ := Option.map_eq_some_iff.mp hitem'
    exact hlt
  · intro id info
    rw [List.mem_filterMap]
    constructor
    · rintro ⟨id', _, hitem⟩
      obtain ⟨info', hinfo, heq⟩ := Option.map_eq_some_iff.mp hitem
      cases heq
      exact hinfo
    · intro hinfo
      refine ⟨id, List.mem_range.mpr (h.lt_nIdCount id info hinfo), ?_⟩
      rw [hinfo]
      rfl

end Items

/-! ## The order of the file -/

/-- The entries in the order of the file: the reader numbers them by their positions. -/
def order (items : List (ℕ × CAddrInfo)) : List (ℕ × CAddrInfo) :=
  newItems items ++ triedItems items

/-- The id that an entry has after it is read. -/
def number (items : List (ℕ × CAddrInfo)) (id : ℕ) : ℕ :=
  ((order items).map Prod.fst).idxOf id

section Order

variable {man : CAddrMan} {items : List (ℕ × CAddrInfo)}

theorem Checked.newItems_eq (h : man.Checked items) :
  newItems items = items.filter (fun item => !item.2.fInTried)
  := by
  apply List.filter_congr
  rintro ⟨id, info⟩ hitem
  have hinfo := (h.listed.mem id info).mp hitem
  cases htried : info.fInTried with
  | true => simp [(h.placed.tried id info hinfo htried).1]
  | false =>
    have hpos := (h.placed.new id info hinfo htried).2.1
    simp only [ne_eq, decide_not, Bool.not_false, Bool.not_eq_true', decide_eq_false_iff_not]
    omega

theorem Checked.order_perm (h : man.Checked items) : (order items).Perm items := by
  rw [order, h.newItems_eq]
  exact List.perm_append_comm.trans (List.filter_append_perm _ items)

theorem Checked.mem_order (h : man.Checked items) (id : ℕ) (info : CAddrInfo) :
  (id, info) ∈ order items ↔ man.mapInfo id = some info
  := by
  rw [h.order_perm.mem_iff, h.listed.mem]

variable {n : ℕ} {item : ℕ × CAddrInfo}

theorem Checked.mapInfo_of_getElem?
    (h : man.Checked items) (hitem : (order items)[n]? = some item) :
  man.mapInfo item.1 = some item.2
  := (h.mem_order _ _).mp (List.mem_of_getElem? hitem)

theorem Checked.nodup_order (h : man.Checked items) : ((order items).map Prod.fst).Nodup :=
  (h.order_perm.map Prod.fst).nodup_iff.mpr h.listed.nodup

theorem Checked.number_eq
    (h : man.Checked items) (hitem : (order items)[n]? = some item) :
  number items item.1 = n
  := by
  obtain ⟨hlt, hget⟩ := List.getElem?_eq_some_iff.mp hitem
  have hmap : n < ((order items).map Prod.fst).length := by
    rw [List.length_map]
    exact hlt
  have hid : ((order items).map Prod.fst)[n] = item.1 := by
    rw [List.getElem_map, hget]
  rw [number, ← hid, h.nodup_order.idxOf_getElem]

/-- Every entry is at the position of its number. -/
theorem Checked.getElem?_number
    (h : man.Checked items) {id : ℕ} {info : CAddrInfo} (hinfo : man.mapInfo id = some info) :
  (order items)[number items id]? = some (id, info)
  := by
  obtain ⟨n, hn⟩ := List.mem_iff_getElem?.mp ((h.mem_order id info).mpr hinfo)
  rw [h.number_eq hn, hn]

/-- Different entries have different addresses. -/
theorem Checked.address_inj
    (h : man.Checked items) {n' : ℕ} {item' : ℕ × CAddrInfo}
    (hitem : (order items)[n]? = some item) (hitem' : (order items)[n']? = some item')
    (haddr : item.2.toCNetAddr = item'.2.toCNetAddr) :
  n = n'
  := by
  have hid := h.mapAddr _ _ (h.mapInfo_of_getElem? hitem)
  have hid' := h.mapAddr _ _ (h.mapInfo_of_getElem? hitem')
  rw [haddr, hid'] at hid
  rw [← h.number_eq hitem, ← h.number_eq hitem', hid]

end Order

/-! ## Reading the entries -/

/-- The information of an entry that is read as the `n`-th one, before its buckets are. -/
def bare (info : CAddrInfo) (n : ℕ) : CAddrInfo :=
  { info with nLastTry := 0, nRefCount := 0, nRandomPos := n }

/-- An entry is in a tried bucket, by what it is. -/
def inTriedBucket (crypto : Crypto) (nKey : Bytes) (b : TriedBucket) (item : ℕ × CAddrInfo) :
    Bool :=
  item.2.fInTried && item.2.getTriedBucket crypto nKey = b

/-- The positions in a list of the elements with a property. -/
def positions {α : Type} (P : α → Bool) (l : List α) : List ℕ :=
  (List.range l.length).filter (fun n => l[n]?.any P)

variable {α : Type}

theorem positions_append_singleton (P : α → Bool) (l : List α) (a : α) :
  positions P (l ++ [a]) = positions P l ++ if P a then [l.length] else []
  := by
  have hold : (List.range l.length).filter (fun n => (l ++ [a])[n]?.any P) = positions P l := by
    apply List.filter_congr
    intro n hn
    rw [List.getElem?_append_left (List.mem_range.mp hn)]
  rw [positions, List.length_append, List.length_singleton, List.range_succ, List.filter_append,
    hold, List.filter_singleton, List.getElem?_concat_length, Option.any_some]
  cases P a <;> rfl

theorem length_positions (P : α → Bool) (l : List α) :
  (positions P l).length = (l.filter P).length
  := by
  induction l using List.reverseRecOn with
  | nil => rfl
  | append_singleton l a ih =>
    rw [positions_append_singleton, List.length_append, ih, List.filter_append, List.length_append,
      List.filter_singleton]
    cases P a <;> rfl

theorem mem_positions (P : α → Bool) (l : List α) (n : ℕ) :
  n ∈ positions P l ↔ ∃ a, l[n]? = some a ∧ P a = true
  := by
  rw [positions, List.mem_filter, List.mem_range, Option.any_eq_true]
  constructor
  · rintro ⟨_, a, hget, ha⟩
    exact ⟨a, hget, ha⟩
  · rintro ⟨a, hget, ha⟩
    obtain ⟨hlt, _⟩ := List.getElem?_eq_some_iff.mp hget
    exact ⟨hlt, a, hget, ha⟩

/-- What the reader holds of the manager `man` when it has read the entries `pre`, and no bucket. -/
structure Loaded (crypto : Crypto) (man : CAddrMan) (pre : List (ℕ × CAddrInfo)) (am : CAddrMan) :
    Prop where
  nKey : am.nKey = man.nKey
  nTried : am.nTried = man.nTried
  nNew : am.nNew = man.nNew
  vRandom : am.vRandom = List.range pre.length
  mapInfo : ∀ n, am.mapInfo n = pre[n]?.map (fun item => bare item.2 n)
  mapAddr : ∀ addr n, am.mapAddr addr = some n ↔
    ∃ item, pre[n]? = some item ∧ item.2.toCNetAddr = addr
  vvTried : ∀ b, am.vvTried b = positions (inTriedBucket crypto man.nKey b) pre
  vvNew : ∀ b, am.vvNew b = ∅

section Loaded

variable {crypto : Crypto} {man : CAddrMan} {pre : List (ℕ × CAddrInfo)} {am am' : CAddrMan}

/-- One more entry, with an address of its own. -/
theorem Loaded.append
    (h : Loaded crypto man pre am) {item : ℕ × CAddrInfo}
    (hfresh : ∀ (n : ℕ) (item' : ℕ × CAddrInfo), pre[n]? = some item' →
      item'.2.toCNetAddr ≠ item.2.toCNetAddr)
    (hnKey : am'.nKey = am.nKey) (hnTried : am'.nTried = am.nTried) (hnNew : am'.nNew = am.nNew)
    (hvRandom : am'.vRandom = am.vRandom ++ [pre.length])
    (hmapInfo : am'.mapInfo = Function.update am.mapInfo pre.length (some (bare item.2 pre.length)))
    (hmapAddr : am'.mapAddr = Function.update am.mapAddr item.2.toCNetAddr (some pre.length))
    (hvvTried : ∀ b, am'.vvTried b
      = am.vvTried b ++ if inTriedBucket crypto man.nKey b item then [pre.length] else [])
    (hvvNew : am'.vvNew = am.vvNew) :
  Loaded crypto man (pre ++ [item]) am'
  := by
  have hget : ∀ n, n ≠ pre.length → (pre ++ [item])[n]? = pre[n]? := by
    intro n hn
    rcases Nat.lt_or_gt_of_ne hn with hlt | hgt
    · rw [List.getElem?_append_left hlt]
    · rw [List.getElem?_eq_none (by rw [List.length_append, List.length_singleton]; omega),
        List.getElem?_eq_none (by omega)]
  constructor
  · rw [hnKey, h.nKey]
  · rw [hnTried, h.nTried]
  · rw [hnNew, h.nNew]
  · rw [hvRandom, h.vRandom, List.length_append, List.length_singleton, List.range_succ]
  · intro n
    rw [hmapInfo]
    by_cases hn : n = pre.length
    · subst hn
      rw [Function.update_self, List.getElem?_concat_length]
      rfl
    · rw [Function.update_of_ne hn, h.mapInfo, hget n hn]
  · intro addr n
    rw [hmapAddr]
    by_cases haddr : addr = item.2.toCNetAddr
    · subst haddr
      rw [Function.update_self]
      constructor
      · intro heq
        cases heq
        exact ⟨item, List.getElem?_concat_length, rfl⟩
      · rintro ⟨item', hitem', heq⟩
        by_cases hn : n = pre.length
        · rw [hn]
        · rw [hget n hn] at hitem'
          exact absurd heq (hfresh n item' hitem')
    · rw [Function.update_of_ne haddr, h.mapAddr]
      constructor
      · rintro ⟨item', hitem', heq⟩
        obtain ⟨hlt, _⟩ := List.getElem?_eq_some_iff.mp hitem'
        exact ⟨item', by rw [hget n (Nat.ne_of_lt hlt), hitem'], heq⟩
      · rintro ⟨item', hitem', heq⟩
        by_cases hn : n = pre.length
        · subst hn
          rw [List.getElem?_concat_length] at hitem'
          cases hitem'
          exact absurd heq.symm haddr
        · rw [hget n hn] at hitem'
          exact ⟨item', hitem', heq⟩
  · intro b
    rw [hvvTried, h.vvTried, positions_append_singleton]
  · rw [hvvNew]
    exact h.vvNew

theorem loaded_nil (nKey : Bytes) (nNew nTried : ℤ) (hnKey : nKey = man.nKey)
    (hnNew : nNew = man.nNew) (hnTried : nTried = man.nTried) :
  Loaded crypto man [] { empty nKey with nNew := nNew, nTried := nTried }
  := by
  subst hnKey hnNew hnTried
  exact ⟨rfl, rfl, rfl, rfl, fun _ => rfl, by simp [empty], fun _ => rfl, fun _ => rfl⟩

/-- The count of ids is set apart from the loops. -/
theorem Loaded.setIdCount (h : Loaded crypto man pre am) (nIdCount : ℕ) :
  Loaded crypto man pre { am with nIdCount := nIdCount }
  := ⟨h.nKey, h.nTried, h.nNew, h.vRandom, h.mapInfo, h.mapAddr, h.vvTried, h.vvNew⟩

end Loaded

/-- The tried entries are in the buckets that `GetTriedBucket` computes for them. -/
def InOwnBuckets (crypto : Crypto) (man : CAddrMan) : Prop :=
  ∀ b id info, id ∈ man.vvTried b → man.mapInfo id = some info →
    info.getTriedBucket crypto man.nKey = b

/-- The values of a manager are those of their types: numbers in range, and a key that a vector of
bytes can be read back as. -/
structure Storable (man : CAddrMan) : Prop where
  length_nKey : man.nKey.length ≤ MAX_SIZE
  info : ∀ id info, man.mapInfo id = some info → info.Storable

section Reading

variable {crypto : Crypto} {man : CAddrMan} {items : List (ℕ × CAddrInfo)}

variable {item : ℕ × CAddrInfo} {pre : List (ℕ × CAddrInfo)}

/-- The entries before a position have other addresses than the entry there. -/
theorem Checked.fresh
    (h : man.Checked items) {post : List (ℕ × CAddrInfo)}
    (horder : order items = pre ++ item :: post) (n : ℕ) (item' : ℕ × CAddrInfo)
    (hitem' : pre[n]? = some item') :
  item'.2.toCNetAddr ≠ item.2.toCNetAddr
  := by
  intro haddr
  obtain ⟨hlt, _⟩ := List.getElem?_eq_some_iff.mp hitem'
  have hold : (order items)[n]? = some item' := by
    rw [horder, List.getElem?_append_left hlt, hitem']
  have hnew : (order items)[pre.length]? = some item := by
    rw [horder, List.getElem?_append_right (Nat.le_refl _), Nat.sub_self]
    rfl
  exact absurd (h.address_inj hold hnew haddr) (Nat.ne_of_lt hlt)

/-- As many entries belong to a tried bucket as it holds. -/
theorem Checked.length_filter_le
    (h : man.Checked items) (hown : InOwnBuckets crypto man) (b : TriedBucket) :
  ((order items).filter (inTriedBucket crypto man.nKey b)).length ≤ ADDRMAN_TRIED_BUCKET_SIZE
  := by
  have hnodup : (((order items).filter (inTriedBucket crypto man.nKey b)).map Prod.fst).Nodup :=
    h.nodup_order.sublist (List.filter_sublist.map _)
  have hsubset : ((order items).filter (inTriedBucket crypto man.nKey b)).map Prod.fst
      ⊆ man.vvTried b := by
    intro id hid
    rw [List.mem_map] at hid
    obtain ⟨⟨id', info⟩, hitem, rfl⟩ := hid
    rw [List.mem_filter, h.mem_order, inTriedBucket, Bool.and_eq_true, decide_eq_true_iff] at hitem
    obtain ⟨hinfo, htried, hb⟩ := hitem
    obtain ⟨_, _, _, b', hb'⟩ := h.placed.tried id' info hinfo htried
    rw [← hb, hown b' id' info hb' hinfo]
    exact hb'
  have hle := (List.subperm_of_subset hnodup hsubset).length_le
  rw [List.length_map] at hle
  exact hle.trans (h.placed.length_tried b)

/-- There is room in the bucket of the next tried entry. -/
theorem Checked.room
    (h : man.Checked items) (hown : InOwnBuckets crypto man) {post : List (ℕ × CAddrInfo)}
    (horder : order items = pre ++ item :: post) {b : TriedBucket}
    (hitem : inTriedBucket crypto man.nKey b item = true) :
  (positions (inTriedBucket crypto man.nKey b) pre).length < ADDRMAN_TRIED_BUCKET_SIZE
  := by
  have hle := h.length_filter_le hown b
  rw [horder, List.filter_append, List.filter_cons_of_pos hitem, List.length_append,
    List.length_cons] at hle
  rw [length_positions]
  omega

/-- Reading a new entry. -/
theorem Loaded.unserializeNew
    {am : CAddrMan} (h : Loaded crypto man pre am)
    (hfresh : ∀ (n : ℕ) (item' : ℕ × CAddrInfo), pre[n]? = some item' →
      item'.2.toCNetAddr ≠ item.2.toCNetAddr)
    (hstorable : item.2.Storable) (hnew : item.2.fInTried = false) (rest : Bytes) :
  ∃ am', (CAddrMan.unserializeNew crypto (Int32.ofNat ADDRMAN_NEW_BUCKET_COUNT) pre.length am).run
      (serializeItem item ++ rest) = some (am', rest)
    ∧ Loaded crypto man (pre ++ [item]) am'
  := by
  have hlength : am.vRandom.length = pre.length := by
    rw [h.vRandom, List.length_range]
  rw [CAddrMan.unserializeNew, serializeItem,
    run_bind_of_run (CAddrInfo.unserialize_serialize _ hstorable rest), if_neg (by simp)]
  refine ⟨_, rfl, h.append hfresh rfl rfl rfl rfl ?_ rfl ?_ rfl⟩
  · rw [bare, hnew, hlength]
    rfl
  · intro b
    rw [inTriedBucket, hnew, Bool.false_and, if_neg Bool.false_ne_true, List.append_nil]
    rfl

/-- Reading a tried entry, while its bucket has room. -/
theorem Loaded.unserializeTried
    {am : CAddrMan} (h : Loaded crypto man pre am)
    (hfresh : ∀ (n : ℕ) (item' : ℕ × CAddrInfo), pre[n]? = some item' →
      item'.2.toCNetAddr ≠ item.2.toCNetAddr)
    (hstorable : item.2.Storable) (htried : item.2.fInTried = true)
    (hroom : (positions (inTriedBucket crypto man.nKey
      (item.2.getTriedBucket crypto man.nKey)) pre).length < ADDRMAN_TRIED_BUCKET_SIZE)
    (hnIdCount : am.nIdCount = pre.length) (n : ℕ) (rest : Bytes) :
  ∃ am', (CAddrMan.unserializeTried crypto n (am, 0)).run (serializeItem item ++ rest)
      = some ((am', 0), rest)
    ∧ Loaded crypto man (pre ++ [item]) am' ∧ am'.nIdCount = (pre ++ [item]).length
  := by
  have hlength : am.vRandom.length = pre.length := by
    rw [h.vRandom, List.length_range]
  have hbucket : CAddrInfo.getTriedBucket crypto
      { item.2 with nLastTry := 0, nRefCount := 0, fInTried := false, nRandomPos := -1 } am.nKey
      = item.2.getTriedBucket crypto man.nKey := by
    rw [h.nKey]
    rfl
  have hplace : (am.vvTried (item.2.getTriedBucket crypto man.nKey)).length
      < ADDRMAN_TRIED_BUCKET_SIZE := by
    rw [h.vvTried]
    exact hroom
  rw [CAddrMan.unserializeTried, serializeItem,
    run_bind_of_run (CAddrInfo.unserialize_serialize _ hstorable rest)]
  simp only [hbucket, if_pos hplace]
  refine ⟨_, rfl, h.append hfresh rfl rfl rfl ?_ ?_ ?_ ?_ rfl, ?_⟩
  · rw [hnIdCount]
  · rw [hnIdCount, bare, htried, hlength]
  · rw [hnIdCount]
  · intro b
    rw [inTriedBucket, htried, Bool.true_and, hnIdCount]
    dsimp only
    by_cases hb : b = item.2.getTriedBucket crypto man.nKey
    · subst hb
      rw [Function.update_self, if_pos (decide_eq_true rfl)]
    · rw [Function.update_of_ne hb, if_neg (by simpa using Ne.symm hb), List.append_nil]
  · rw [hnIdCount, List.length_append, List.length_singleton]

end Reading

/-! ## Sizes -/

section Sizes

variable {man : CAddrMan} {items : List (ℕ × CAddrInfo)}

/-- The ids of some entries are no more than there are places in some buckets. -/
theorem Checked.length_le
    (h : man.Checked items) {part : List (ℕ × CAddrInfo)} (hpart : List.Sublist part items)
    {n k : ℕ} (table : Fin n → Finset ℕ) (hcard : ∀ b, (table b).card ≤ k)
    (hplace : ∀ item ∈ part, ∃ b, item.1 ∈ table b) :
  part.length ≤ n * k
  := by
  have hnodup : (part.map Prod.fst).Nodup := h.listed.nodup.sublist (hpart.map _)
  have hsubset : (part.map Prod.fst).toFinset ⊆ Finset.univ.biUnion table := by
    intro id hid
    rw [List.mem_toFinset, List.mem_map] at hid
    obtain ⟨item, hitem, rfl⟩ := hid
    obtain ⟨b, hb⟩ := hplace item hitem
    exact Finset.mem_biUnion.mpr ⟨b, Finset.mem_univ b, hb⟩
  calc part.length = (part.map Prod.fst).toFinset.card := by
        rw [List.toFinset_card_of_nodup hnodup, List.length_map]
    _ ≤ (Finset.univ.biUnion table).card := Finset.card_le_card hsubset
    _ ≤ (Finset.univ : Finset (Fin n)).card * k :=
        Finset.card_biUnion_le_card_mul _ _ _ (fun b _ => hcard b)
    _ = n * k := by rw [Finset.card_univ, Fintype.card_fin]

/-- The tried table is not larger than its buckets. -/
theorem Checked.length_triedItems_le (h : man.Checked items) :
  (triedItems items).length ≤ ADDRMAN_TRIED_BUCKET_COUNT * ADDRMAN_TRIED_BUCKET_SIZE
  := by
  apply h.length_le List.filter_sublist (fun b => (man.vvTried b).toFinset)
  · intro b
    exact (List.toFinset_card_le _).trans (h.placed.length_tried b)
  · rintro ⟨id, info⟩ hitem
    obtain ⟨hmem, htried⟩ := List.mem_filter.mp hitem
    have hinfo := (h.listed.mem id info).mp hmem
    obtain ⟨_, _, _, b, hb⟩ := h.placed.tried id info hinfo htried
    exact ⟨b, List.mem_toFinset.mpr hb⟩

/-- The new table is not larger than its buckets. -/
theorem Checked.length_newItems_le (h : man.Checked items) :
  (newItems items).length ≤ ADDRMAN_NEW_BUCKET_COUNT * ADDRMAN_NEW_BUCKET_SIZE
  := by
  apply h.length_le List.filter_sublist man.vvNew h.placed.card_new
  rintro ⟨id, info⟩ hitem
  have hmem : (id, info) ∈ items.filter (fun item => !item.2.fInTried) := by
    rw [← h.newItems_eq]
    exact hitem
  rw [List.mem_filter, h.listed.mem, Bool.not_eq_true'] at hmem
  obtain ⟨heq, hpos, _⟩ := h.placed.new id info hmem.1 hmem.2
  rw [Pi.zero_apply, add_zero] at heq
  have hcard : 0 < (man.newBuckets id).card := by omega
  obtain ⟨b, hb⟩ := Finset.card_pos.mp hcard
  exact ⟨b, (Finset.mem_filter.mp hb).2⟩

/-- The counters, and the new ids, fit in an `int`. -/
theorem Checked.length_order_lt (h : man.Checked items) : (order items).length < 2 ^ 31 := by
  have hnew := h.length_newItems_le
  have htried := h.length_triedItems_le
  have hsizes : ADDRMAN_NEW_BUCKET_COUNT * ADDRMAN_NEW_BUCKET_SIZE
      + ADDRMAN_TRIED_BUCKET_COUNT * ADDRMAN_TRIED_BUCKET_SIZE < 2 ^ 31 := by decide
  rw [order, List.length_append]
  omega

end Sizes

/-! ## Reading the buckets -/

/-- What the reader holds of the manager `man` when it has put the ids of `table` into the new
buckets. -/
structure Linked (crypto : Crypto) (man : CAddrMan) (items : List (ℕ × CAddrInfo))
    (table : NewBucket → Finset ℕ) (am : CAddrMan) : Prop where
  nKey : am.nKey = man.nKey
  nIdCount : am.nIdCount = (order items).length
  nTried : am.nTried = man.nTried
  nNew : am.nNew = man.nNew
  vRandom : am.vRandom = List.range (order items).length
  mapInfo : ∀ n, am.mapInfo n = (order items)[n]?.map (fun item =>
    { bare item.2 n with nRefCount := (Finset.univ.filter (fun b => item.1 ∈ table b)).card })
  mapAddr : ∀ addr n, am.mapAddr addr = some n ↔
    ∃ item, (order items)[n]? = some item ∧ item.2.toCNetAddr = addr
  vvTried : ∀ b, am.vvTried b = positions (inTriedBucket crypto man.nKey b) (order items)
  vvNew : ∀ b, am.vvNew b = (table b).image (number items)

section Linking

variable {crypto : Crypto} {man : CAddrMan} {items : List (ℕ × CAddrInfo)}
variable {table : NewBucket → Finset ℕ} {am : CAddrMan}

theorem Loaded.linked
    (h : Loaded crypto man (order items) am) (hnIdCount : am.nIdCount = (order items).length) :
  Linked crypto man items (fun _ => ∅) am
  := by
  refine ⟨h.nKey, hnIdCount, h.nTried, h.nNew, h.vRandom, ?_, h.mapAddr, h.vvTried, ?_⟩
  · intro n
    rw [h.mapInfo]
    simp [bare]
  · intro b
    rw [h.vvNew, Finset.image_empty]

variable {b : NewBucket} {id : ℕ}

/-- One more place of an entry counts for that entry alone. -/
theorem card_insert_place
    (hid : id ∉ table b) (id' : ℕ) :
  (Finset.univ.filter
      (fun b' => id' ∈ Function.update table b (insert id (table b)) b')).card
    = (Finset.univ.filter (fun b' => id' ∈ table b')).card + if id' = id then 1 else 0
  := by
  by_cases heq : id' = id
  · subst heq
    have hfilter : Finset.univ.filter
        (fun b' => id' ∈ Function.update table b (insert id' (table b)) b')
        = insert b (Finset.univ.filter (fun b' => id' ∈ table b')) := by
      ext b'
      by_cases hb : b' = b
      · subst hb
        simp
      · simp [hb]
    rw [hfilter, Finset.card_insert_of_notMem (by simpa using hid), if_pos rfl]
  · have hfilter : Finset.univ.filter
        (fun b' => id' ∈ Function.update table b (insert id (table b)) b')
        = Finset.univ.filter (fun b' => id' ∈ table b') := by
      ext b'
      by_cases hb : b' = b
      · subst hb
        simp [heq]
      · simp [hb]
    rw [hfilter, if_neg heq, add_zero]

/-- An entry with a place to come has been counted less often than it has places. -/
theorem Placed.count_lt
    (h : man.Placed 0) {info : CAddrInfo}
    (hinfo : man.mapInfo id = some info) (hmem : id ∈ man.vvNew b) (hid : id ∉ table b)
    (hsub : ∀ b, table b ⊆ man.vvNew b) :
  ((Finset.univ.filter (fun b' => id ∈ table b')).card : ℤ) < ADDRMAN_NEW_BUCKETS_PER_ADDRESS
  := by
  obtain ⟨info', hinfo', hnew⟩ := h.mem_new b id hmem
  cases hinfo.symm.trans hinfo'
  obtain ⟨heq, _, hle⟩ := h.new id info hinfo hnew
  have hlt : (Finset.univ.filter (fun b' => id ∈ table b')).card < (man.newBuckets id).card := by
    apply Finset.card_lt_card
    rw [Finset.ssubset_iff_of_subset]
    · exact ⟨b, Finset.mem_filter.mpr ⟨Finset.mem_univ b, hmem⟩, by simpa using hid⟩
    · intro b' hb'
      rw [Finset.mem_filter] at hb'
      exact Finset.mem_filter.mpr ⟨Finset.mem_univ b', hsub b' hb'.2⟩
  rw [Pi.zero_apply, add_zero] at heq
  omega

/-- Reading the number of an entry that is in a new bucket. -/
theorem Linked.unserializeIndex
    (h : Linked crypto man items table am) (hchecked : man.Checked items)
    (hmem : id ∈ man.vvNew b) (hid : id ∉ table b) (hsub : ∀ b, table b ⊆ man.vvNew b) (n : ℕ)
    (rest : Bytes) :
  ∃ am', (CAddrMan.unserializeIndex (Int32.ofNat ADDRMAN_NEW_BUCKET_COUNT) b n am).run
      (serializeInt (Int32.ofNat (number items id)) ++ rest) = some (am', rest)
    ∧ Linked crypto man items (Function.update table b (insert id (table b))) am'
  := by
  obtain ⟨info, hinfo, hnew⟩ := hchecked.placed.mem_new b id hmem
  have hget := hchecked.getElem?_number hinfo
  obtain ⟨hlt, _⟩ := List.getElem?_eq_some_iff.mp hget
  have hint : (Int32.ofNat (number items id)).toInt = number items id := by
    have hbound := hchecked.length_order_lt
    exact Int32.toInt_ofNat_of_lt (by omega)
  have hcount := hchecked.placed.count_lt hinfo hmem hid hsub
  have hlookup := h.mapInfo (number items id)
  rw [hget, Option.map_some] at hlookup
  rw [CAddrMan.unserializeIndex, run_bind_of_run (int_lawful.read_write _ trivial rest), hint]
  simp only [Int.toNat_natCast, hlookup, Option.getD_some, hcount, and_self, if_true]
  rw [if_neg (by omega)]
  refine ⟨_, rfl, h.nKey, h.nIdCount, h.nTried, h.nNew, h.vRandom, ?_, h.mapAddr, h.vvTried, ?_⟩
  · intro k
    by_cases hk : k = number items id
    · subst hk
      rw [hget, Option.map_some, card_insert_place hid, if_pos rfl]
      apply mapInfo_setInfo_self
    · have hother : ∀ info' vNew,
          ((am.setInfo (number items id) info').setNew b vNew).mapInfo k = am.mapInfo k :=
        fun info' _ => mapInfo_setInfo_of_ne am info' hk
      rw [hother, h.mapInfo]
      cases hitem : (order items)[k]? with
      | none => rfl
      | some item =>
        have hne : item.1 ≠ id := by
          rintro rfl
          exact hk (hchecked.number_eq hitem).symm
        rw [Option.map_some, Option.map_some, card_insert_place hid, if_neg hne, add_zero]
  · intro b'
    by_cases hb : b' = b
    · subst hb
      rw [Function.update_self, Finset.image_insert, ← h.vvNew]
      apply Function.update_self
    · rw [Function.update_of_ne hb, ← h.vvNew]
      apply Function.update_of_ne hb

/-- Reading the numbers of the entries of a new bucket. -/
theorem Linked.unserializeIndices
    (h : Linked crypto man items table am) (hchecked : man.Checked items)
    (hsub : ∀ b, table b ⊆ man.vvNew b) (hempty : table b = ∅) {ids : List ℕ} (hnodup : ids.Nodup)
    (hids : ∀ id ∈ ids, id ∈ man.vvNew b) (rest : Bytes) :
  ∃ am', (forRange (CAddrMan.unserializeIndex (Int32.ofNat ADDRMAN_NEW_BUCKET_COUNT) b)
      ids.length 0 am).run
      (ids.flatMap (fun id => serializeInt (Int32.ofNat (number items id))) ++ rest)
        = some (am', rest)
    ∧ Linked crypto man items (Function.update table b ids.toFinset) am'
  := by
  have hstart : Linked crypto man items (Function.update table b ([] : List ℕ).toFinset) am := by
    rw [List.toFinset_nil, ← hempty, Function.update_eq_self]
    exact h
  refine forRange_flatMap
    (fun pre am => Linked crypto man items (Function.update table b pre.toFinset) am)
    ?_ hstart rest
  intro pre id post am hsplit hlinked rest
  have hid : id ∉ pre.toFinset := by
    rw [hsplit, List.nodup_append] at hnodup
    rw [List.mem_toFinset]
    intro hmem
    exact hnodup.2.2 id hmem id List.mem_cons_self rfl
  have hsub' : ∀ b', Function.update table b pre.toFinset b' ⊆ man.vvNew b' := by
    intro b'
    by_cases hb : b' = b
    · subst hb
      rw [Function.update_self]
      intro id' hid'
      apply hids
      rw [hsplit]
      exact List.mem_append_left _ (List.mem_toFinset.mp hid')
    · rw [Function.update_of_ne hb]
      exact hsub b'
  obtain ⟨am', hrun, hlinked'⟩ := hlinked.unserializeIndex hchecked
    (hids id (by rw [hsplit]; simp)) (by rw [Function.update_self]; exact hid) hsub' pre.length rest
  refine ⟨am', hrun, ?_⟩
  rw [Function.update_self, Function.update_idem] at hlinked'
  rw [List.toFinset_append, Finset.union_comm]
  exact hlinked'

/-- The new buckets with numbers below `k`. -/
def bucketsBelow (man : CAddrMan) (k : ℕ) (b : NewBucket) : Finset ℕ :=
  if b.val < k then man.vvNew b else ∅

theorem update_bucketsBelow (man : CAddrMan) {k : ℕ} (hk : k < ADDRMAN_NEW_BUCKET_COUNT) :
  Function.update (man.bucketsBelow k) ⟨k, hk⟩ (man.vvNew ⟨k, hk⟩) = man.bucketsBelow (k + 1)
  := by
  funext b
  by_cases hb : b = ⟨k, hk⟩
  · subst hb
    rw [Function.update_self, bucketsBelow, if_pos (Nat.lt_succ_self k)]
  · have hne : b.val ≠ k := fun heq => hb (Fin.ext heq)
    rw [Function.update_of_ne hb, bucketsBelow, bucketsBelow]
    exact if_congr (by omega) rfl rfl

/-- Reading a new bucket. -/
theorem Linked.unserializeBucket
    {k : ℕ} (h : Linked crypto man items (man.bucketsBelow k) am) (hchecked : man.Checked items)
    (hk : k < ADDRMAN_NEW_BUCKET_COUNT) (rest : Bytes) :
  ∃ am', (CAddrMan.unserializeBucket (Int32.ofNat ADDRMAN_NEW_BUCKET_COUNT) k am).run
      (serializeBucket (number items) (man.vvNew ⟨k, hk⟩) ++ rest) = some (am', rest)
    ∧ Linked crypto man items (man.bucketsBelow (k + 1)) am'
  := by
  have hmod : (⟨k % ADDRMAN_NEW_BUCKET_COUNT, mod_newBucketCount_lt k⟩ : NewBucket) = ⟨k, hk⟩ :=
    Fin.ext (Nat.mod_eq_of_lt hk)
  have hsize : (Int32.ofNat ((man.vvNew ⟨k, hk⟩).sort (· ≤ ·)).length).toInt
      = ((man.vvNew ⟨k, hk⟩).sort (· ≤ ·)).length := by
    have hcard := hchecked.placed.card_new ⟨k, hk⟩
    rw [← Finset.length_sort (· ≤ ·)] at hcard
    have hsmall : ADDRMAN_NEW_BUCKET_SIZE < 2 ^ 31 := by decide
    exact Int32.toInt_ofNat_of_lt (by omega)
  have hsub : ∀ b, man.bucketsBelow k b ⊆ man.vvNew b := by
    intro b
    rw [bucketsBelow]
    split_ifs
    · exact Finset.Subset.refl _
    · exact Finset.empty_subset _
  have hempty : man.bucketsBelow k ⟨k, hk⟩ = ∅ := by
    rw [bucketsBelow, if_neg (Nat.lt_irrefl k)]
  obtain ⟨am', hrun, hlinked⟩ := h.unserializeIndices hchecked hsub hempty
    (Finset.sort_nodup (man.vvNew ⟨k, hk⟩) (· ≤ ·))
    (fun id hid => (Finset.mem_sort (· ≤ ·)).mp hid) rest
  rw [Finset.sort_toFinset, update_bucketsBelow] at hlinked
  refine ⟨am', ?_, hlinked⟩
  rw [CAddrMan.unserializeBucket, serializeBucket, List.append_assoc,
    run_bind_of_run (int_lawful.read_write _ trivial _), hsize, Int.toNat_natCast]
  simp only [hmod]
  exact hrun

end Linking

/-! ## Reading what was written -/

section Reading

variable {crypto : Crypto} {man : CAddrMan} {items : List (ℕ × CAddrInfo)}

variable {am : CAddrMan}

/-- Reading the new entries. -/
theorem Checked.unserializeNew_run
    (h : man.Checked items) (hstorable : man.Storable) (ham : Loaded crypto man [] am) (rest : Bytes) :
  ∃ am', (forRange (CAddrMan.unserializeNew crypto (Int32.ofNat ADDRMAN_NEW_BUCKET_COUNT))
      (newItems items).length 0 am).run ((newItems items).flatMap serializeItem ++ rest)
        = some (am', rest)
    ∧ Loaded crypto man (newItems items) am'
  := by
  refine forRange_flatMap (Loaded crypto man) ?_ ham rest
  intro pre item post am hsplit hloaded rest
  have horder : order items = pre ++ item :: (post ++ triedItems items) := by
    rw [order, hsplit, List.append_assoc]
    rfl
  have hmem : item ∈ items.filter (fun item => !item.2.fInTried) := by
    rw [← h.newItems_eq, hsplit]
    simp
  rw [List.mem_filter, Bool.not_eq_true'] at hmem
  exact hloaded.unserializeNew (h.fresh horder)
    (hstorable.info item.1 item.2 ((h.listed.mem _ _).mp hmem.1)) hmem.2 rest

/-- Reading the tried entries: none is lost. -/
theorem Checked.unserializeTried_run
    (h : man.Checked items) (hstorable : man.Storable) (hown : InOwnBuckets crypto man)
    (ham : Loaded crypto man (newItems items) am)
    (hnIdCount : am.nIdCount = (newItems items).length) (rest : Bytes) :
  ∃ am', (forRange (CAddrMan.unserializeTried crypto) (triedItems items).length 0 (am, 0)).run
      ((triedItems items).flatMap serializeItem ++ rest) = some ((am', 0), rest)
    ∧ Loaded crypto man (order items) am' ∧ am'.nIdCount = (order items).length
  := by
  let Inv (pre : List (ℕ × CAddrInfo)) (s : CAddrMan × ℕ) : Prop :=
    Loaded crypto man (newItems items ++ pre) s.1
      ∧ s.1.nIdCount = (newItems items ++ pre).length ∧ s.2 = 0
  have hstart : Inv [] (am, 0) := by
    refine ⟨?_, ?_, rfl⟩
    · rw [List.append_nil]
      exact ham
    · rw [List.append_nil]
      exact hnIdCount
  have hstep : ∀ pre item post s, triedItems items = pre ++ item :: post → Inv pre s → ∀ rest,
      ∃ s', (CAddrMan.unserializeTried crypto pre.length s).run (serializeItem item ++ rest)
        = some (s', rest) ∧ Inv (pre ++ [item]) s' := by
    rintro pre item post ⟨am, nLost⟩ hsplit ⟨hloaded, hcount, rfl⟩ rest
    have horder : order items = (newItems items ++ pre) ++ item :: post := by
      rw [order, hsplit, List.append_assoc]
    have hmem : item ∈ triedItems items := by
      rw [hsplit]
      simp
    obtain ⟨hitem, htried⟩ := List.mem_filter.mp hmem
    have hinfo := (h.listed.mem _ _).mp hitem
    have hplace : inTriedBucket crypto man.nKey (item.2.getTriedBucket crypto man.nKey) item
        = true := by
      rw [inTriedBucket, htried, Bool.true_and, decide_eq_true_iff]
    obtain ⟨am', hrun, hloaded', hcount'⟩ := hloaded.unserializeTried (h.fresh horder)
      (hstorable.info _ _ hinfo) htried (h.room hown horder hplace) hcount pre.length rest
    refine ⟨(am', 0), hrun, ?_, ?_, rfl⟩
    · rw [← List.append_assoc]
      exact hloaded'
    · rw [← List.append_assoc]
      exact hcount'
  obtain ⟨⟨am', nLost⟩, hrun, hloaded, hcount, rfl⟩ := forRange_flatMap Inv hstep hstart rest
  exact ⟨am', hrun, hloaded, hcount⟩

/-- Reading the new buckets. -/
theorem Checked.unserializeBucket_run
    (h : man.Checked items) (ham : Linked crypto man items (fun _ => ∅) am) (rest : Bytes) :
  ∃ am', (forRange (CAddrMan.unserializeBucket (Int32.ofNat ADDRMAN_NEW_BUCKET_COUNT))
      ADDRMAN_NEW_BUCKET_COUNT 0 am).run
      ((List.finRange ADDRMAN_NEW_BUCKET_COUNT).flatMap
        (fun b => serializeBucket (number items) (man.vvNew b)) ++ rest) = some (am', rest)
    ∧ Linked crypto man items man.vvNew am'
  := by
  have hstart : Linked crypto man items (man.bucketsBelow ([] : List NewBucket).length) am := by
    have hempty : man.bucketsBelow ([] : List NewBucket).length = fun _ => ∅ := by
      funext b
      rw [bucketsBelow, if_neg (by simp)]
    rw [hempty]
    exact ham
  have hstep : ∀ (pre : List NewBucket) (b : NewBucket) (post : List NewBucket) (am : CAddrMan),
      List.finRange ADDRMAN_NEW_BUCKET_COUNT = pre ++ b :: post →
      Linked crypto man items (man.bucketsBelow pre.length) am → ∀ rest,
      ∃ am', (CAddrMan.unserializeBucket (Int32.ofNat ADDRMAN_NEW_BUCKET_COUNT) pre.length am).run
          (serializeBucket (number items) (man.vvNew b) ++ rest) = some (am', rest)
        ∧ Linked crypto man items (man.bucketsBelow (pre ++ [b]).length) am' := by
    intro pre b post am hsplit hlinked rest
    have hget : (List.finRange ADDRMAN_NEW_BUCKET_COUNT)[pre.length]? = some b := by
      rw [hsplit, List.getElem?_append_right (Nat.le_refl _), Nat.sub_self]
      rfl
    obtain ⟨hlt, hb⟩ := List.getElem?_eq_some_iff.mp hget
    rw [List.length_finRange] at hlt
    have hval : b = ⟨pre.length, hlt⟩ := by
      rw [← hb, List.getElem_finRange]
      rfl
    subst hval
    rw [List.length_append, List.length_singleton]
    exact hlinked.unserializeBucket h hlt rest
  obtain ⟨am', hrun, hlinked⟩ := forRange_flatMap
    (fun pre am => Linked crypto man items (man.bucketsBelow pre.length) am) hstep hstart rest
  rw [List.length_finRange] at hrun hlinked
  refine ⟨am', hrun, ?_⟩
  have hall : man.bucketsBelow ADDRMAN_NEW_BUCKET_COUNT = man.vvNew := by
    funext b
    rw [bucketsBelow, if_pos b.isLt]
  rw [← hall]
  exact hlinked

/-- The numbers that the writer uses are the positions of the entries. -/
theorem Checked.serialize_eq (h : man.Checked items) :
  man.serialize items
    = [UInt8.ofNat 0] ++ serializeBytes man.nKey ++ serializeInt (Int32.ofInt man.nNew)
      ++ serializeInt (Int32.ofInt man.nTried)
      ++ serializeInt (Int32.ofNat ADDRMAN_NEW_BUCKET_COUNT)
      ++ (newItems items).flatMap serializeItem ++ (triedItems items).flatMap serializeItem
      ++ (List.finRange ADDRMAN_NEW_BUCKET_COUNT).flatMap
        (fun b => serializeBucket (number items) (man.vvNew b))
  := by
  have hnNew : man.nNew = (0 : ℕ) + (newItems items).length := by
    rw [h.nNew_eq, h.newItems_eq, Nat.cast_zero, zero_add]
  have hnTried : man.nTried = (0 : ℕ) + (triedItems items).length := by
    rw [h.nTried_eq, Nat.cast_zero, zero_add]
  obtain ⟨mapUnkIds, heq, hnumber, _⟩ :=
    serializeNew_eq man items 0 (fun _ => 0) hnNew h.listed.nodup
  have hindex : ∀ b, ∀ id ∈ man.vvNew b, mapUnkIds id = number items id := by
    intro b id hid
    obtain ⟨info, hinfo, hnew⟩ := h.placed.mem_new b id hid
    have hmem : (id, info) ∈ newItems items := by
      rw [h.newItems_eq, List.mem_filter, h.listed.mem]
      exact ⟨hinfo, by rw [hnew]; rfl⟩
    obtain ⟨k, hk⟩ := List.mem_iff_getElem?.mp hmem
    obtain ⟨hlt, _⟩ := List.getElem?_eq_some_iff.mp hk
    have horder : (order items)[k]? = some (id, info) := by
      rw [order, List.getElem?_append_left hlt, hk]
    rw [hnumber k (id, info) hk, h.number_eq horder, Nat.zero_add]
  have hbucket : ∀ b,
      serializeBucket mapUnkIds (man.vvNew b) = serializeBucket (number items) (man.vvNew b) := by
    intro b
    rw [serializeBucket, serializeBucket, List.flatMap_congr]
    intro id hid
    rw [hindex b id ((Finset.mem_sort (· ≤ ·)).mp hid)]
  rw [serialize, heq, serializeTried_eq man items 0 hnTried]
  simp only [hbucket]

/-- The reader takes what the writer wrote, and ends with all entries in their buckets. -/
theorem Checked.unserialize_run
    (h : man.Checked items) (hstorable : man.Storable) (hown : InOwnBuckets crypto man)
    (rest : Bytes) :
  ∃ am, (CAddrMan.unserialize crypto).run (man.serialize items ++ rest) = some (am, rest)
    ∧ Linked crypto man items man.vvNew am
  := by
  have hbound := h.length_order_lt
  rw [order, List.length_append] at hbound
  have hnNew : (Int32.ofInt man.nNew).toInt = (newItems items).length := by
    rw [h.nNew_eq, ← h.newItems_eq]
    exact Int32.toInt_ofInt_of_le (by omega) (by omega)
  have hnTried : (Int32.ofInt man.nTried).toInt = (triedItems items).length := by
    rw [h.nTried_eq]
    exact Int32.toInt_ofInt_of_le (by omega) (by omega)
  have hnUBuckets : (Int32.ofNat ADDRMAN_NEW_BUCKET_COUNT).toInt.toNat = ADDRMAN_NEW_BUCKET_COUNT := by
    decide
  have hversion : ∀ bytes : Bytes, (readLE 1).run ([UInt8.ofNat 0] ++ bytes) = some (0, bytes) :=
    readLE_toLE (by decide)
  have hstart : Loaded crypto man []
      { empty man.nKey with nNew := (newItems items).length, nTried := (triedItems items).length } :=
    loaded_nil man.nKey _ _ rfl (by rw [h.nNew_eq, h.newItems_eq]) h.nTried_eq.symm
  obtain ⟨am, hnew, hloaded⟩ := h.unserializeNew_run hstorable hstart
    ((triedItems items).flatMap serializeItem ++ ((List.finRange ADDRMAN_NEW_BUCKET_COUNT).flatMap
      (fun b => serializeBucket (number items) (man.vvNew b)) ++ rest))
  obtain ⟨am', htried, hloaded', hcount⟩ := h.unserializeTried_run hstorable hown
    (hloaded.setIdCount (newItems items).length) rfl ((List.finRange ADDRMAN_NEW_BUCKET_COUNT).flatMap
      (fun b => serializeBucket (number items) (man.vvNew b)) ++ rest)
  obtain ⟨am'', hbuckets, hlinked⟩ := h.unserializeBucket_run (hloaded'.linked hcount) rest
  refine ⟨am'', ?_, hlinked⟩
  have hlost : { am' with nTried := am'.nTried - (0 : ℕ) } = am' := by
    rw [Nat.cast_zero, sub_zero]
  rw [h.serialize_eq, CAddrMan.unserialize]
  simp only [List.append_assoc]
  rw [run_bind_of_run (hversion _),
    run_bind_of_run (bytes_lawful.read_write _ hstorable.length_nKey _),
    run_bind_of_run (int_lawful.read_write _ trivial _),
    run_bind_of_run (int_lawful.read_write _ trivial _),
    run_bind_of_run (int_lawful.read_write _ trivial _), hnNew, hnTried, hnUBuckets,
    Int.toNat_natCast, Int.toNat_natCast, run_bind_of_run hnew, run_bind_of_run htried]
  dsimp only
  rw [hlost]
  exact hbuckets

end Reading

/-! ## The same tables -/

/-- `man'` has the entries of `man` under the ids that `number` gives: in the same buckets, with
the same information but for the time of the last try, which is in memory only, and the position in
the random order. -/
structure Renumbered (number : ℕ → ℕ) (man man' : CAddrMan) : Prop where
  nKey : man'.nKey = man.nKey
  nTried : man'.nTried = man.nTried
  nNew : man'.nNew = man.nNew
  injective : ∀ id id' info info', man.mapInfo id = some info → man.mapInfo id' = some info' →
    number id = number id' → id = id'
  mapInfo : ∀ id info, man.mapInfo id = some info → ∃ pos,
    man'.mapInfo (number id) = some { info with nLastTry := 0, nRandomPos := pos }
  mapInfo_some : ∀ n info', man'.mapInfo n = some info' →
    ∃ id info, man.mapInfo id = some info ∧ number id = n
  vvTried : ∀ id info b, man.mapInfo id = some info →
    (number id ∈ man'.vvTried b ↔ id ∈ man.vvTried b)
  vvNew : ∀ id info b, man.mapInfo id = some info → (number id ∈ man'.vvNew b ↔ id ∈ man.vvNew b)

section Tables

variable {crypto : Crypto} {man am : CAddrMan} {items : List (ℕ × CAddrInfo)}

/-- All references of an entry are counted again. -/
theorem Linked.mapInfo_eq
    (h : Linked crypto man items man.vvNew am) (hchecked : man.Checked items) (n : ℕ) :
  am.mapInfo n = (order items)[n]?.map (fun item =>
    { item.2 with nLastTry := 0, nRandomPos := n })
  := by
  rw [h.mapInfo]
  cases hitem : (order items)[n]? with
  | none => rfl
  | some item =>
    have hinfo := hchecked.mapInfo_of_getElem? hitem
    have hcount : ((Finset.univ.filter (fun b => item.1 ∈ man.vvNew b)).card : ℤ)
        = item.2.nRefCount := by
      cases htried : item.2.fInTried with
      | true =>
        have hnone : Finset.univ.filter (fun b => item.1 ∈ man.vvNew b) = ∅ := by
          rw [Finset.filter_eq_empty_iff]
          intro b _ hmem
          obtain ⟨info, hinfo', hnew⟩ := hchecked.placed.mem_new b _ hmem
          cases hinfo.symm.trans hinfo'
          rw [htried] at hnew
          cases hnew
        rw [hnone, (hchecked.placed.tried _ _ hinfo htried).1]
        rfl
      | false =>
        have heq := (hchecked.placed.new _ _ hinfo htried).1
        rw [Pi.zero_apply, add_zero] at heq
        exact heq.symm
    rw [Option.map_some, Option.map_some, hcount]
    rfl

variable {id : ℕ} {info : CAddrInfo}

/-- An entry is read back under its number. -/
theorem Linked.mapInfo_number
    (h : Linked crypto man items man.vvNew am) (hchecked : man.Checked items)
    (hinfo : man.mapInfo id = some info) :
  am.mapInfo (number items id)
    = some { info with nLastTry := 0, nRandomPos := number items id }
  := by
  rw [h.mapInfo_eq hchecked, hchecked.getElem?_number hinfo]
  rfl

/-- Only entries are read. -/
theorem Linked.exists_item
    (h : Linked crypto man items man.vvNew am) (hchecked : man.Checked items) {n : ℕ}
    {info' : CAddrInfo} (hinfo' : am.mapInfo n = some info') :
  ∃ id info, man.mapInfo id = some info ∧ number items id = n
    ∧ info' = { info with nLastTry := 0, nRandomPos := n }
  := by
  rw [h.mapInfo_eq hchecked] at hinfo'
  obtain ⟨item, hitem, rfl⟩ := Option.map_eq_some_iff.mp hinfo'
  exact ⟨item.1, item.2, hchecked.mapInfo_of_getElem? hitem, hchecked.number_eq hitem, rfl⟩

theorem Checked.number_inj
    (h : man.Checked items) {id' : ℕ} {info' : CAddrInfo}
    (hinfo : man.mapInfo id = some info) (hinfo' : man.mapInfo id' = some info')
    (heq : number items id = number items id') :
  id = id'
  := by
  have hget := h.getElem?_number hinfo
  rw [heq, h.getElem?_number hinfo'] at hget
  cases hget
  rfl

/-- An entry is in the tried bucket it was in. -/
theorem Linked.mem_vvTried
    (h : Linked crypto man items man.vvNew am) (hchecked : man.Checked items)
    (hown : InOwnBuckets crypto man) (b : TriedBucket) (hinfo : man.mapInfo id = some info) :
  number items id ∈ am.vvTried b ↔ id ∈ man.vvTried b
  := by
  rw [h.vvTried, mem_positions, hchecked.getElem?_number hinfo]
  simp only [Option.some.injEq, exists_eq_left', inTriedBucket, Bool.and_eq_true,
    decide_eq_true_iff]
  constructor
  · rintro ⟨htried, rfl⟩
    obtain ⟨_, _, _, b', hb'⟩ := hchecked.placed.tried id info hinfo htried
    rw [hown b' id info hb' hinfo]
    exact hb'
  · intro hmem
    obtain ⟨info', hinfo', htried⟩ := hchecked.placed.mem_tried b id hmem
    cases hinfo.symm.trans hinfo'
    exact ⟨htried, hown b id info hmem hinfo⟩

/-- An entry is in the new buckets it was in. -/
theorem Linked.mem_vvNew
    (h : Linked crypto man items man.vvNew am) (hchecked : man.Checked items)
    (b : NewBucket) (hinfo : man.mapInfo id = some info) :
  number items id ∈ am.vvNew b ↔ id ∈ man.vvNew b
  := by
  rw [h.vvNew, Finset.mem_image]
  constructor
  · rintro ⟨id', hid', heq⟩
    obtain ⟨info', hinfo', _⟩ := hchecked.placed.mem_new b id' hid'
    rw [← hchecked.number_inj hinfo' hinfo heq]
    exact hid'
  · intro hmem
    exact ⟨id, hmem, rfl⟩

theorem Linked.renumbered
    (h : Linked crypto man items man.vvNew am) (hchecked : man.Checked items)
    (hown : InOwnBuckets crypto man) :
  Renumbered (number items) man am
  := by
  refine ⟨h.nKey, h.nTried, h.nNew, ?_, ?_, ?_, ?_, ?_⟩
  · intro id id' info info' hinfo hinfo'
    apply hchecked.number_inj hinfo hinfo'
  · intro id info hinfo
    exact ⟨_, h.mapInfo_number hchecked hinfo⟩
  · intro n info' hinfo'
    obtain ⟨id, info, hinfo, hnumber, _⟩ := h.exists_item hchecked hinfo'
    exact ⟨id, info, hinfo, hnumber⟩
  · intro id info b hinfo
    apply h.mem_vvTried hchecked hown b hinfo
  · intro id info b hinfo
    apply h.mem_vvNew hchecked b hinfo

theorem Linked.indexed
    (h : Linked crypto man items man.vvNew am) (hchecked : man.Checked items) :
  am.Indexed
  := by
  have hsome : ∀ n, (∃ info, am.mapInfo n = some info) ↔ n < (order items).length := by
    intro n
    rw [h.mapInfo_eq hchecked]
    constructor
    · rintro ⟨info, hinfo⟩
      obtain ⟨item, hitem, _⟩ := Option.map_eq_some_iff.mp hinfo
      exact (List.getElem?_eq_some_iff.mp hitem).1
    · intro hlt
      rw [List.getElem?_eq_getElem hlt]
      exact ⟨_, rfl⟩
  constructor
  · rw [h.vRandom]
    exact List.nodup_range
  · intro n
    rw [h.vRandom, List.mem_range, hsome]
  · intro n info hinfo
    have hlt := (hsome n).mp ⟨info, hinfo⟩
    obtain ⟨_, _, _, _, rfl⟩ := h.exists_item hchecked hinfo
    refine ⟨n, rfl, ?_⟩
    rw [h.vRandom, List.getElem?_range hlt]
  · intro n info hinfo
    rw [h.mapInfo_eq hchecked] at hinfo
    obtain ⟨item, hitem, rfl⟩ := Option.map_eq_some_iff.mp hinfo
    exact (h.mapAddr _ n).mpr ⟨item, hitem, rfl⟩
  · intro addr n haddr
    obtain ⟨item, hitem, rfl⟩ := (h.mapAddr addr n).mp haddr
    refine ⟨{ item.2 with nLastTry := 0, nRandomPos := n }, ?_, rfl⟩
    rw [h.mapInfo_eq hchecked, hitem]
    rfl
  · intro n info hinfo
    rw [h.nIdCount]
    exact (hsome n).mp ⟨info, hinfo⟩

theorem Linked.placed
    (h : Linked crypto man items man.vvNew am) (hchecked : man.Checked items)
    (hown : InOwnBuckets crypto man) :
  am.Placed 0
  := by
  have hbuckets : ∀ id info, man.mapInfo id = some info →
      am.newBuckets (number items id) = man.newBuckets id := by
    intro id info hinfo
    apply Finset.filter_congr
    intro b _
    apply h.mem_vvNew hchecked b hinfo
  have htriedAt : ∀ b n, n ∈ am.vvTried b ↔ ∃ item, (order items)[n]? = some item
      ∧ inTriedBucket crypto man.nKey b item = true := by
    intro b n
    rw [h.vvTried, mem_positions]
  constructor
  · intro n info' hinfo' htried
    obtain ⟨id, info, hinfo, rfl, rfl⟩ := h.exists_item hchecked hinfo'
    obtain ⟨href, hsuccess, hpending, b, hb⟩ := hchecked.placed.tried id info hinfo htried
    exact ⟨href, hsuccess, rfl, b, (h.mem_vvTried hchecked hown b hinfo).mpr hb⟩
  · intro n info' hinfo' hnew
    obtain ⟨id, info, hinfo, rfl, rfl⟩ := h.exists_item hchecked hinfo'
    rw [hbuckets id info hinfo]
    exact hchecked.placed.new id info hinfo hnew
  · intro n info' hinfo'
    obtain ⟨id, info, hinfo, rfl, rfl⟩ := h.exists_item hchecked hinfo'
    exact ⟨Int.le_refl 0, (hchecked.placed.times id info hinfo).2⟩
  · intro b n hmem
    obtain ⟨item, hitem, hplace⟩ := (htriedAt b n).mp hmem
    rw [inTriedBucket, Bool.and_eq_true] at hplace
    refine ⟨{ item.2 with nLastTry := 0, nRandomPos := n }, ?_, hplace.1⟩
    rw [h.mapInfo_eq hchecked, hitem]
    rfl
  · intro b n hmem
    rw [h.vvNew, Finset.mem_image] at hmem
    obtain ⟨id, hid, rfl⟩ := hmem
    obtain ⟨info, hinfo, hnew⟩ := hchecked.placed.mem_new b id hid
    exact ⟨_, h.mapInfo_number hchecked hinfo, hnew⟩
  · intro b
    rw [h.vvTried]
    exact List.nodup_range.filter _
  · intro b b' n hmem hmem'
    obtain ⟨item, hitem, hplace⟩ := (htriedAt b n).mp hmem
    obtain ⟨item', hitem', hplace'⟩ := (htriedAt b' n).mp hmem'
    cases hitem.symm.trans hitem'
    rw [inTriedBucket, Bool.and_eq_true, decide_eq_true_iff] at hplace hplace'
    rw [← hplace.2, ← hplace'.2]
  · intro b
    rw [h.vvTried, length_positions]
    exact hchecked.length_filter_le hown b
  · intro b
    rw [h.vvNew]
    exact Finset.card_image_le.trans (hchecked.placed.card_new b)

theorem Linked.counted
    (h : Linked crypto man items man.vvNew am) (hchecked : man.Checked items) :
  am.Counted
  := by
  have hcard : ∀ fInTried, (am.idsWith fInTried).card
      = (items.filter (fun item => item.2.fInTried = fInTried)).length := by
    intro fInTried
    have hids : am.idsWith fInTried
        = (positions (fun item => item.2.fInTried = fInTried) (order items)).toFinset := by
      ext n
      rw [idsWith, Finset.mem_filter, List.mem_toFinset, List.mem_toFinset, mem_positions,
        h.vRandom, List.mem_range, isTried, h.mapInfo_eq hchecked]
      constructor
      · rintro ⟨hlt, htried⟩
        rw [List.getElem?_eq_getElem hlt] at htried ⊢
        exact ⟨_, rfl, decide_eq_true htried⟩
      · rintro ⟨item, hitem, htried⟩
        refine ⟨(List.getElem?_eq_some_iff.mp hitem).1, ?_⟩
        rw [hitem]
        exact of_decide_eq_true htried
    have hnodup : (positions (fun item : ℕ × CAddrInfo => item.2.fInTried = fInTried)
        (order items)).Nodup :=
      List.nodup_range.filter _
    rw [hids, List.toFinset_card_of_nodup hnodup, length_positions,
      (hchecked.order_perm.filter _).length_eq]
  constructor
  · rw [h.nTried, hchecked.nTried_eq, hcard]
    simp [triedItems]
  · rw [h.nNew, hchecked.nNew_eq, hcard]
    simp

/-- A manager that passes `Check_`, with its tried entries in the buckets that `GetTriedBucket`
computes, is read back from its file: with the same key, entries and buckets, nothing lost, and
passing `Check_` again. -/
theorem unserialize_renumbered
    (hchecked : man.Checked items) (hown : InOwnBuckets crypto man) (hstorable : man.Storable)
    (rest : Bytes) :
  ∃ man', (unserialize crypto).run (man.serialize items ++ rest) = some (man', rest)
    ∧ Renumbered (number items) man man' ∧ man'.Consistent ∧ InOwnBuckets crypto man'
    ∧ ∃ items', man'.Checked items'
  := by
  obtain ⟨man', hrun, hlinked⟩ := hchecked.unserialize_run hstorable hown rest
  have hconsistent : man'.Consistent :=
    ⟨hlinked.indexed hchecked, hlinked.placed hchecked hown, hlinked.counted hchecked⟩
  have hown' : InOwnBuckets crypto man' := by
    intro b n info' hmem hinfo'
    obtain ⟨id, info, hinfo, rfl, rfl⟩ := hlinked.exists_item hchecked hinfo'
    rw [hlinked.nKey]
    exact hown b id info ((hlinked.mem_vvTried hchecked hown b hinfo).mp hmem) hinfo
  exact ⟨man', hrun, hlinked.renumbered hchecked hown, hconsistent, hown',
    _, hconsistent.checked hconsistent.indexed.items_range⟩

end Tables

/-! ## A small manager -/

def sampleTriedInfo : CAddrInfo :=
  { CAddrInfo.make sampleAddress sampleAddress.toCNetAddr with
    nLastSuccess := 1400000701
    fInTried := true
    nRandomPos := 1 }

def sampleNewInfo : CAddrInfo :=
  { CAddrInfo.make { sampleAddress with ip := pchIPv4 ++ [8, 8, 4, 4], length_ip := rfl }
      sampleAddress.toCNetAddr with
    nRefCount := 2
    nRandomPos := 0 }

def sampleItems : List (ℕ × CAddrInfo) := [(0, sampleTriedInfo), (5, sampleNewInfo)]

def sampleNewBucket (k : ℕ) : NewBucket := ⟨k % ADDRMAN_NEW_BUCKET_COUNT, Nat.mod_lt _ (by decide)⟩

/-- A manager of a tried entry, in the bucket `b`, and of a new entry, in two buckets. -/
def sampleTables (b : TriedBucket) : CAddrMan where
  nKey := []
  nIdCount := 6
  mapInfo id := if id = 0 then some sampleTriedInfo else if id = 5 then some sampleNewInfo else none
  mapAddr addr :=
    if addr = sampleTriedInfo.toCNetAddr then some 0
    else if addr = sampleNewInfo.toCNetAddr then some 5
    else none
  vRandom := [5, 0]
  nTried := 1
  vvTried b' := if b' = b then [0] else []
  nNew := 1
  vvNew b' := if b' = sampleNewBucket 3 ∨ b' = sampleNewBucket 7 then {5} else ∅

/-- The entries of the small manager. -/
theorem mapInfo_sampleTables (b : TriedBucket) (id : ℕ) (info : CAddrInfo) :
  (sampleTables b).mapInfo id = some info ↔
    (id = 0 ∧ info = sampleTriedInfo) ∨ (id = 5 ∧ info = sampleNewInfo)
  := by
  by_cases h0 : id = 0
  · subst h0
    simp [sampleTables, eq_comm]
  · by_cases h5 : id = 5
    · subst h5
      simp [sampleTables, eq_comm]
    · simp [sampleTables, h0, h5]

theorem newBuckets_sampleTables (b : TriedBucket) :
  (sampleTables b).newBuckets 5 = {sampleNewBucket 3, sampleNewBucket 7}
  := by
  ext b'
  rw [newBuckets, Finset.mem_filter, Finset.mem_insert, Finset.mem_singleton]
  simp only [Finset.mem_univ, true_and, sampleTables]
  split_ifs with hb
  · exact iff_of_true (Finset.mem_singleton_self 5) hb
  · exact iff_of_false (Finset.notMem_empty 5) hb

theorem sampleTables_checked (b : TriedBucket) : (sampleTables b).Checked sampleItems := by
  have hcases := mapInfo_sampleTables b
  refine ⟨⟨by decide, ?_⟩, rfl, ?_, ?_, rfl, rfl, ?_⟩
  · intro id info
    rw [hcases]
    simp [sampleItems]
  · intro id info hinfo
    rcases (hcases id info).mp hinfo with ⟨rfl, rfl⟩ | ⟨rfl, rfl⟩
    · rfl
    · rfl
  · intro id info hinfo
    rcases (hcases id info).mp hinfo with ⟨rfl, rfl⟩ | ⟨rfl, rfl⟩
    · exact ⟨1, rfl, rfl⟩
    · exact ⟨0, rfl, rfl⟩
  · constructor
    · intro id info hinfo htried
      rcases (hcases id info).mp hinfo with ⟨rfl, rfl⟩ | ⟨rfl, rfl⟩
      · exact ⟨rfl, by decide, rfl, b, by simp [sampleTables]⟩
      · cases htried
    · intro id info hinfo hnew
      rcases (hcases id info).mp hinfo with ⟨rfl, rfl⟩ | ⟨rfl, rfl⟩
      · cases hnew
      · rw [newBuckets_sampleTables]
        exact ⟨rfl, by decide, by decide⟩
    · intro id info hinfo
      rcases (hcases id info).mp hinfo with ⟨rfl, rfl⟩ | ⟨rfl, rfl⟩
      · exact ⟨by decide, by decide⟩
      · exact ⟨by decide, by decide⟩
    · intro b' id hmem
      have hid : id = 0 := by
        simp only [sampleTables] at hmem
        split_ifs at hmem
        · exact List.mem_singleton.mp hmem
        · cases hmem
      exact ⟨sampleTriedInfo, (hcases id _).mpr (Or.inl ⟨hid, rfl⟩), rfl⟩
    · intro b' id hmem
      have hid : id = 5 := by
        simp only [sampleTables] at hmem
        split_ifs at hmem
        · exact Finset.mem_singleton.mp hmem
        · cases hmem
      exact ⟨sampleNewInfo, (hcases id _).mpr (Or.inr ⟨hid, rfl⟩), rfl⟩
    · intro b'
      simp only [sampleTables]
      split_ifs <;> simp
    · intro b' b'' id hmem hmem'
      simp only [sampleTables] at hmem hmem'
      split_ifs at hmem with hb'
      · split_ifs at hmem' with hb''
        · rw [hb', hb'']
        · cases hmem'
      · cases hmem
    · intro b'
      simp only [sampleTables]
      split_ifs <;> decide
    · intro b'
      simp only [sampleTables]
      split_ifs <;> decide

theorem sampleTables_storable (b : TriedBucket) : (sampleTables b).Storable := by
  refine ⟨Nat.zero_le _, ?_⟩
  intro id info hinfo
  rcases (mapInfo_sampleTables b id info).mp hinfo with ⟨_, rfl⟩ | ⟨_, rfl⟩
  · exact ⟨by decide, by decide⟩
  · exact ⟨by decide, by decide⟩

/-- The bucket that the tried entry of the small manager belongs to. -/
def sampleBucket : TriedBucket := sampleTriedInfo.getTriedBucket sampleCrypto []

def sampleOtherBucket : TriedBucket :=
  ⟨(sampleBucket.val + 1) % ADDRMAN_TRIED_BUCKET_COUNT, Nat.mod_lt _ (by decide)⟩

theorem sampleTables_inOwnBuckets : InOwnBuckets sampleCrypto (sampleTables sampleBucket) := by
  intro b id info hmem hinfo
  rcases (mapInfo_sampleTables sampleBucket id info).mp hinfo with ⟨_, rfl⟩ | ⟨rfl, _⟩
  · simp only [sampleTables] at hmem
    split_ifs at hmem with hb
    · exact hb.symm
    · cases hmem
  · obtain ⟨info', hinfo', htried⟩ := (sampleTables_checked sampleBucket).placed.mem_tried b 5 hmem
    cases hinfo.symm.trans hinfo'
    rcases (mapInfo_sampleTables sampleBucket 5 info).mp hinfo with ⟨h, _⟩ | ⟨_, rfl⟩
    · cases h
    · cases htried

theorem sampleTables_read_back :
  ∃ man', (unserialize sampleCrypto).run ((sampleTables sampleBucket).serialize sampleItems ++ [])
      = some (man', [])
    ∧ Renumbered (number sampleItems) (sampleTables sampleBucket) man' ∧ man'.Consistent
    ∧ InOwnBuckets sampleCrypto man' ∧ ∃ items', man'.Checked items'
  := unserialize_renumbered (sampleTables_checked sampleBucket) sampleTables_inOwnBuckets
    (sampleTables_storable sampleBucket) []

/-- A tried entry in another bucket passes `Check_`, and is read back into the bucket that
`GetTriedBucket` computes. -/
theorem misplaced_moved :
  (sampleTables sampleOtherBucket).Checked sampleItems ∧ (sampleTables sampleOtherBucket).Storable
    ∧ ¬∃ man' number,
      (unserialize sampleCrypto).run ((sampleTables sampleOtherBucket).serialize sampleItems)
        = some (man', [])
      ∧ Renumbered number (sampleTables sampleOtherBucket) man'
  := by
  refine ⟨sampleTables_checked _, sampleTables_storable _, ?_⟩
  rintro ⟨man', number', hrun, hrenumbered⟩
  -- the file does not say which bucket the entry is in
  have hchecked := sampleTables_checked sampleBucket
  have hsame : (sampleTables sampleOtherBucket).serialize sampleItems
      = (sampleTables sampleBucket).serialize sampleItems := rfl
  obtain ⟨am, hread, hlinked⟩ := hchecked.unserialize_run (sampleTables_storable sampleBucket)
    sampleTables_inOwnBuckets []
  rw [List.append_nil, ← hsame, hrun] at hread
  cases hread
  have hinfo : ∀ b, (sampleTables b).mapInfo 0 = some sampleTriedInfo :=
    fun b => (mapInfo_sampleTables b 0 _).mpr (Or.inl ⟨rfl, rfl⟩)
  obtain ⟨pos, hpos⟩ := hrenumbered.mapInfo 0 _ (hinfo _)
  have hmem : number' 0 ∈ man'.vvTried sampleOtherBucket := by
    rw [hrenumbered.vvTried 0 _ _ (hinfo _)]
    simp [sampleTables]
  obtain ⟨id, info, hid, hnumber, heq⟩ := hlinked.exists_item hchecked hpos
  have hzero : id = 0 := by
    rcases (mapInfo_sampleTables sampleBucket id info).mp hid with ⟨h, _⟩ | ⟨_, rfl⟩
    · exact h
    · have htried := congrArg CAddrInfo.fInTried heq
      cases htried
  subst hzero
  have hmem' : number' 0 ∈ man'.vvTried sampleBucket := by
    rw [← hnumber, hlinked.mem_vvTried hchecked sampleTables_inOwnBuckets sampleBucket (hinfo _)]
    simp [sampleTables]
  have hbucket := (hlinked.placed hchecked sampleTables_inOwnBuckets).tried_unique _ _ _ hmem hmem'
  have hval : (sampleBucket.val + 1) % ADDRMAN_TRIED_BUCKET_COUNT = sampleBucket.val :=
    congrArg Fin.val hbucket
  have hlt := sampleBucket.isLt
  unfold ADDRMAN_TRIED_BUCKET_COUNT at hval hlt
  omega

end CAddrMan

end CorgiCoin
