import CorgiCoin.WalletKeys

/-!
# Reservations of keys

A `CReserveKey` takes a key out of the pool of a wallet and either keeps it, which erases its record,
or returns its index to the pool.  Between the two the index is nowhere but in the object, and
`TopUpKeyPool` and `NewKeyPool`, which look at the pool alone, may give it to another key.
-/

namespace CorgiCoin

open Std Transition TreeMap

/-- `CPubKey::IsValid` -/
def CPubKey.isValid (vchPubKey : CPubKey) : Bool := vchPubKey.length == 33 || vchPubKey.length == 65

/-- A reservation; the index `-1` is `none`. -/
structure CReserveKey where
  nIndex : Option ℕ
  vchPubKey : CPubKey

namespace CWallet

variable (library : WalletLibrary)

/-- The index that `ReserveKeyFromKeyPool` has set when it returns or throws. -/
def reservedIndex (w : CWallet) (nKeys : ℕ) (rands : ℕ → CKey) : Option ℕ :=
  if !w.isLocked then
    match w.topUpKeyPool library nKeys rands with
    | (_, false) => none
    | (w, true) => w.setKeyPool.toList.head?
  else w.setKeyPool.toList.head?

/-- `CReserveKey::GetReservedKey`; `none` where it throws or an assertion fails. -/
def getReservedKey (w : CWallet) (reservekey : CReserveKey) (nKeys : ℕ) (rands : ℕ → CKey) :
    CWallet × CReserveKey × Option CPubKey :=
  match reservekey.nIndex with
  | some _ => (w, reservekey, some reservekey.vchPubKey)
  | none =>
    match w.reserveKeyFromKeyPool library nKeys rands with
    | (w', .key nIndex vchPubKey) => (w', ⟨some nIndex, vchPubKey⟩, some vchPubKey)
    | (w', .empty) =>
      (w', ⟨none, w'.vchDefaultKey⟩,
        if CPubKey.isValid w'.vchDefaultKey then some w'.vchDefaultKey else none)
    | (w', .exception) => (w', { reservekey with nIndex := w.reservedIndex library nKeys rands }, none)

/-- `CReserveKey::KeepKey` -/
def keepReserved (w : CWallet) (reservekey : CReserveKey) : CWallet × CReserveKey :=
  match reservekey.nIndex with
  | some nIndex => (w.keepKey nIndex, ⟨none, []⟩)
  | none => (w, ⟨none, []⟩)

/-- `CReserveKey::ReturnKey` -/
def returnReserved (w : CWallet) (reservekey : CReserveKey) : CWallet × CReserveKey :=
  match reservekey.nIndex with
  | some nIndex => (w.returnKey nIndex, ⟨none, []⟩)
  | none => (w, ⟨none, []⟩)

/-- What `GetKeyFromPool` returns: nothing, the default key, or a key that was kept or is new. -/
inductive FromPool
  | failed
  | reused (vchPubKey : CPubKey)
  | key (vchPubKey : CPubKey)

/-- `GetKeyFromPool`, where `rand` is the key that `MakeNewKey` makes for an empty pool; it fails
where it returns false or throws. -/
def getKeyFromPool (w : CWallet) (fAllowReuse : Bool) (nKeys : ℕ) (rands : ℕ → CKey) (rand : CKey) :
    CWallet × FromPool :=
  match w.reserveKeyFromKeyPool library nKeys rands with
  | (w, .exception) => (w, .failed)
  | (w, .empty) =>
    if fAllowReuse && CPubKey.isValid w.vchDefaultKey then (w, .reused w.vchDefaultKey)
    else if w.isLocked then (w, .failed)
    else
      match w.generateNewKey library rand with
      | (w, none) => (w, .failed)
      | (w, some vchPubKey) => (w, .key vchPubKey)
  | (w, .key nIndex vchPubKey) => (w.keepKey nIndex, .key vchPubKey)

/-! ## Runs -/

/-- A wallet, its reservation objects, and the keys that were kept, for specifications only. -/
structure Reserving where
  wallet : CWallet
  reserved : ℕ → CReserveKey
  kept : List CPubKey

/-- The calls on the pool.  The keys that `MakeNewKey` makes are inputs, and so is `-keypool`. -/
inductive PoolCall
  | getReservedKey (i : ℕ) (nKeys : ℕ) (rands : ℕ → ValidKey)
  | keepKey (i : ℕ)
  | returnKey (i : ℕ)
  | getKeyFromPool (fAllowReuse : Bool) (nKeys : ℕ) (rands : ℕ → ValidKey) (rand : ValidKey)
  | topUpKeyPool (nKeys : ℕ) (rands : ℕ → ValidKey)
  | newKeyPool (nKeys : ℕ) (rands : ℕ → ValidKey)
  | lock
  | unlock (strWalletPassphrase : Bytes)

namespace Reserving

/-- The state after a call on one of the reservations. -/
def setReserved (s : Reserving) (i : ℕ) (result : CWallet × CReserveKey) (kept : List CPubKey) :
    Reserving where
  wallet := result.1
  reserved := Function.update s.reserved i result.2
  kept := kept

def step (s : Reserving) : PoolCall → Reserving
  | .getReservedKey i nKeys rands =>
    let (w, reservekey, _) :=
      s.wallet.getReservedKey library (s.reserved i) nKeys (fun i => rands i)
    s.setReserved i (w, reservekey) s.kept
  | .keepKey i =>
    s.setReserved i (s.wallet.keepReserved (s.reserved i))
      (match (s.reserved i).nIndex with
        | some _ => (s.reserved i).vchPubKey :: s.kept
        | none => s.kept)
  | .returnKey i => s.setReserved i (s.wallet.returnReserved (s.reserved i)) s.kept
  | .getKeyFromPool fAllowReuse nKeys rands rand =>
    match s.wallet.getKeyFromPool library fAllowReuse nKeys (fun i => rands i) rand with
    | (w, .key vchPubKey) => { s with wallet := w, kept := vchPubKey :: s.kept }
    | (w, _) => { s with wallet := w }
  | .topUpKeyPool nKeys rands =>
    { s with wallet := (s.wallet.topUpKeyPool library nKeys (fun i => rands i)).1 }
  | .newKeyPool nKeys rands =>
    { s with wallet := (s.wallet.newKeyPool library nKeys (fun i => rands i)).1 }
  | .lock => { s with wallet := s.wallet.lock }
  | .unlock strWalletPassphrase => { s with wallet := (s.wallet.unlock library strWalletPassphrase).1 }

/-- No reservation holds an index of a range. -/
def Unreserved (s : Reserving) (nFirst n : ℕ) : Prop :=
  ∀ i nIndex, (s.reserved i).nIndex = some nIndex → ¬(nFirst ≤ nIndex ∧ nIndex < nFirst + n)

/-- `TopUpKeyPool` writes no index that is reserved. -/
def TopUpClear (s : Reserving) (nKeys : ℕ) : Prop :=
  s.wallet.isLocked = false →
    s.Unreserved s.wallet.nEnd (topUpSize nKeys - s.wallet.setKeyPool.size)

/-- The condition on a call: it writes no new key at an index that is reserved. -/
def Clear (s : Reserving) : PoolCall → Prop
  | .getReservedKey i nKeys _ => (s.reserved i).nIndex = none → s.TopUpClear nKeys
  | .getKeyFromPool _ nKeys _ _ => s.TopUpClear nKeys
  | .topUpKeyPool nKeys _ => s.TopUpClear nKeys
  | .newKeyPool nKeys _ => s.wallet.isLocked = false → s.Unreserved 1 nKeys
  | _ => True

end Reserving

/-! ## What is in the pool -/

variable {library} {w w' : CWallet} {reserved : ℕ → CReserveKey} {kept : List CPubKey}

/-- An index that is in the pool or reserved. -/
def Live (w : CWallet) (reserved : ℕ → CReserveKey) (nIndex : ℕ) : Prop :=
  nIndex ∈ w.setKeyPool ∨ ∃ i, (reserved i).nIndex = some nIndex

/-- A key of the wallet that it has generated, by its public key. -/
def Generated (library : WalletLibrary) (w : CWallet) (vchPubKey : CPubKey) : Prop :=
  ∃ key, key ∈ w.vGenerated ∧ key ∈ w.vAdded ∧ vchPubKey = key.getPubKey library.toKeyLibrary

/-- The public keys of the keys that a wallet has generated. -/
def generatedKeys (library : WalletLibrary) (w : CWallet) : List CPubKey :=
  w.vGenerated.map (·.getPubKey library.toKeyLibrary)

/-- The pool of a wallet with its reservations: every index that is in the pool or reserved has a
record with a key of its own, and no kept key is among them. -/
structure Pooled (library : WalletLibrary) (w : CWallet) (reserved : ℕ → CReserveKey)
    (kept : List CPubKey) : Prop where
  holds : Holds library w
  record : ∀ nIndex, Live w reserved nIndex →
    ∃ vchPubKey, w.db.pool[nIndex]? = some vchPubKey ∧ Generated library w vchPubKey
      ∧ vchPubKey ∉ kept ∧ vchPubKey ≠ w.vchDefaultKey
  injective : ∀ nIndex nIndex', Live w reserved nIndex → Live w reserved nIndex' →
    w.db.pool[nIndex]? = w.db.pool[nIndex']? → nIndex = nIndex'
  held : ∀ i nIndex, (reserved i).nIndex = some nIndex →
    nIndex ∉ w.setKeyPool ∧ w.db.pool[nIndex]? = some (reserved i).vchPubKey
  apart : ∀ i j nIndex, (reserved i).nIndex = some nIndex → (reserved j).nIndex = some nIndex → i = j
  kept_nodup : kept.Nodup
  kept_generated : ∀ vchPubKey ∈ kept, Generated library w vchPubKey ∧ vchPubKey ≠ w.vchDefaultKey
  default : w.vchDefaultKey = [] ∨ w.vchDefaultKey ∈ generatedKeys library w

/-- The pool is as it was, and no key is forgotten. -/
structure Grown (w w' : CWallet) : Prop where
  vAdded : w.vAdded ⊆ w'.vAdded
  vGenerated : w.vGenerated <+: w'.vGenerated
  setKeyPool : w'.setKeyPool = w.setKeyPool
  vchDefaultKey : w'.vchDefaultKey = w.vchDefaultKey
  pool : w'.db.pool = w.db.pool

theorem Grown.refl (w : CWallet) :
  Grown w w
  := ⟨List.Subset.refl _, List.prefix_refl _, rfl, rfl, rfl⟩

theorem Grown.trans {w₁ w₂ w₃ : CWallet} (h : Grown w₁ w₂) (h' : Grown w₂ w₃) :
  Grown w₁ w₃
  := by
  constructor
  · exact List.Subset.trans h.vAdded h'.vAdded
  · exact h.vGenerated.trans h'.vGenerated
  · exact h'.setKeyPool.trans h.setKeyPool
  · exact h'.vchDefaultKey.trans h.vchDefaultKey
  · exact h'.pool.trans h.pool

theorem OnlyKeys.grown (h : OnlyKeys w w') :
  Grown w w'
  := ⟨h.vAdded, h.vGenerated ▸ List.prefix_refl _, h.setKeyPool, h.vchDefaultKey, h.pool⟩

theorem grown_decryptHDSeed (w : CWallet) (vMasterKeyIn : Bytes) :
  Grown w (w.decryptHDSeed library vMasterKeyIn)
  := by
  rw [decryptHDSeed]
  split_ifs
  · exact Grown.refl w
  · split
    · exact Grown.refl w
    · split_ifs
      · exact Grown.refl w
      · exact ⟨List.Subset.refl _, List.prefix_refl _, rfl, rfl, rfl⟩

theorem grown_unlockLoop
    (w : CWallet) (strWalletPassphrase : Bytes) (kMasterKeys : List (ℕ × CMasterKey)) :
  Grown w (w.unlockLoop library strWalletPassphrase kMasterKeys).1
  := by
  induction kMasterKeys generalizing w with
  | nil => exact Grown.refl w
  | cons item kMasterKeys ih =>
    obtain ⟨nID, kMasterKey⟩ := item
    have hunlock := (@onlyKeys_unlockWithMasterKey library w strWalletPassphrase kMasterKey).grown
    rw [unlockLoop]
    rcases hresult : w.unlockWithMasterKey library strWalletPassphrase kMasterKey
      with ⟨w', _ | vMasterKey⟩
    · rw [hresult] at hunlock
      exact hunlock.trans (ih w')
    · rw [hresult] at hunlock
      exact hunlock.trans (grown_decryptHDSeed w' vMasterKey)

theorem grown_unlock (w : CWallet) (strWalletPassphrase : Bytes) :
  Grown w (w.unlock library strWalletPassphrase).1
  := by
  rw [unlock]
  split_ifs
  · exact Grown.refl w
  · apply grown_unlockLoop

theorem mem_vAdded_addKey {key : CKey} (h : w.addKey library key = (w', true)) :
  key ∈ w'.vAdded
  := by
  rw [addKey] at h
  simp only at h
  split_ifs at h with hplain hlocked
  · split at h
    · cases h
    · cases h
      exact List.mem_cons_self
  · cases h
  · split at h
    · cases h
    · next vchCryptedSecret _ =>
      have honly := @onlyKeys_addCryptedKey library { w with vAdded := key :: w.vAdded }
        (key.getPubKey library.toKeyLibrary) vchCryptedSecret
      rw [h] at honly
      exact honly.vAdded List.mem_cons_self

/-- A generated key is the last one and a key of the wallet. -/
theorem generateNewKey_spec (w : CWallet) (rand : CKey) :
  Grown w (w.generateNewKey library rand).1
    ∧ ∀ vchPubKey, (w.generateNewKey library rand).2 = some vchPubKey →
      ∃ key, key ∈ (w.generateNewKey library rand).1.vAdded
        ∧ (w.generateNewKey library rand).1.vGenerated = w.vGenerated ++ [key]
        ∧ vchPubKey = key.getPubKey library.toKeyLibrary
  := by
  rcases @generateNewKey_cases library w rand with ⟨honly, hnone⟩ | ⟨key, w', _, hadd, hresult⟩
  · refine ⟨honly.grown, ?_⟩
    intro vchPubKey hsome
    rw [hnone] at hsome
    cases hsome
  · have honly := @onlyKeys_addKey library w key
    rw [hadd] at honly
    have hcount : Grown w' (w'.countKey (w.fHDEnabled && !w.isLocked) key) := by
      cases w.fHDEnabled && !w.isLocked with
      | true => exact ⟨List.Subset.refl _, List.prefix_append _ _, rfl, rfl, rfl⟩
      | false => exact ⟨List.Subset.refl _, List.prefix_append _ _, rfl, rfl, rfl⟩
    rw [hresult]
    refine ⟨honly.grown.trans hcount, ?_⟩
    intro vchPubKey hsome
    refine ⟨key, hcount.vAdded (mem_vAdded_addKey hadd), ?_, (Option.some.inj hsome).symm⟩
    rw [← honly.vGenerated]
    rfl

theorem Generated.mem_generatedKeys {vchPubKey : CPubKey} (h : Generated library w vchPubKey) :
  vchPubKey ∈ generatedKeys library w
  := by
  obtain ⟨key, hkey, _, rfl⟩ := h
  exact List.mem_map_of_mem hkey

theorem Grown.generated {vchPubKey : CPubKey} (h : Grown w w') (hkey : Generated library w vchPubKey) :
  Generated library w' vchPubKey
  := by
  obtain ⟨key, hgenerated, hadded, heq⟩ := hkey
  exact ⟨key, h.vGenerated.subset hgenerated, h.vAdded hadded, heq⟩

theorem Grown.generatedKeys (h : Grown w w') :
  w.generatedKeys library <+: w'.generatedKeys library
  := h.vGenerated.map _

/-- A key that was just generated is none of the keys generated before. -/
theorem not_mem_of_generated
    {key : CKey} (hgenerated : w'.vGenerated = w.vGenerated ++ [key])
    (hnodup : (generatedKeys library w').Nodup) :
  key.getPubKey library.toKeyLibrary ∉ generatedKeys library w
  := by
  rw [generatedKeys, hgenerated, List.map_append, List.nodup_append] at hnodup
  intro hmem
  exact hnodup.2.2 _ hmem _ List.mem_cons_self rfl

namespace Pooled

theorem grown
    (h : Pooled library w reserved kept) (hgrown : Grown w w') (hholds : Holds library w') :
  Pooled library w' reserved kept
  := by
  have hlive : ∀ nIndex, Live w' reserved nIndex ↔ Live w reserved nIndex := by
    intro nIndex
    rw [Live, hgrown.setKeyPool, Live]
  refine ⟨hholds, ?_, ?_, ?_, h.apart, h.kept_nodup, ?_, ?_⟩
  · intro nIndex hindex
    obtain ⟨vchPubKey, hpool, hkey, hkept, hdefault⟩ := h.record nIndex ((hlive nIndex).mp hindex)
    refine ⟨vchPubKey, by rw [hgrown.pool]; exact hpool, hgrown.generated hkey, hkept, ?_⟩
    rw [hgrown.vchDefaultKey]
    exact hdefault
  · intro nIndex nIndex' hindex hindex' hpool
    rw [hgrown.pool] at hpool
    exact h.injective nIndex nIndex' ((hlive _).mp hindex) ((hlive _).mp hindex') hpool
  · intro i nIndex hnIndex
    rw [hgrown.setKeyPool, hgrown.pool]
    exact h.held i nIndex hnIndex
  · intro vchPubKey hmem
    rw [hgrown.vchDefaultKey]
    exact ⟨hgrown.generated (h.kept_generated vchPubKey hmem).1,
      (h.kept_generated vchPubKey hmem).2⟩
  · rw [hgrown.vchDefaultKey]
    exact h.default.imp id (fun hmem => hgrown.generatedKeys.subset hmem)

/-- A key that was just generated is not in the pool, is not reserved, was not kept and is not the
default key. -/
theorem fresh
    (hlibrary : library.Lawful) (h : Pooled library w reserved kept) (hholds : Holds library w') {key : CKey} (hadded : key ∈ w'.vAdded)
    (hgenerated : w'.vGenerated = w.vGenerated ++ [key])
    (hnodup : (generatedKeys library w').Nodup) :
  (∀ nIndex, Live w reserved nIndex → w.db.pool[nIndex]? ≠ some (key.getPubKey library.toKeyLibrary))
    ∧ key.getPubKey library.toKeyLibrary ∉ kept
    ∧ key.getPubKey library.toKeyLibrary ≠ w.vchDefaultKey
    ∧ Generated library w' (key.getPubKey library.toKeyLibrary)
  := by
  have hnew := not_mem_of_generated hgenerated hnodup
  refine ⟨?_, ?_, ?_, ?_⟩
  · intro nIndex hindex hpool
    obtain ⟨vchPubKey, hpool', hkey, _⟩ := h.record nIndex hindex
    rw [hpool', Option.some.injEq] at hpool
    rw [hpool] at hkey
    exact hnew hkey.mem_generatedKeys
  · intro hmem
    exact hnew (h.kept_generated _ hmem).1.mem_generatedKeys
  · intro heq
    rcases h.default with hempty | hmem
    · obtain ⟨M, hholding⟩ := hholds
      have hlength := hlibrary.length_publicKey key (hholding.sound.valid key hadded)
      rw [heq, hempty] at hlength
      revert hlength
      cases key.fCompressed <;> decide
    · rw [← heq] at hmem
      exact hnew hmem
  · refine ⟨key, ?_, hadded, rfl⟩
    rw [hgenerated]
    exact List.mem_append_right _ List.mem_cons_self

/-- A key of the wallet is put at an index that is neither in the pool nor reserved. -/
theorem insert
    (h : Pooled library w reserved kept) {nIndex : ℕ} {vchPubKey : CPubKey}
    (hfree : ¬Live w reserved nIndex)
    (hpool : ∀ nIndex, Live w reserved nIndex → w.db.pool[nIndex]? ≠ some vchPubKey)
    (hkept : vchPubKey ∉ kept) (hdefault : vchPubKey ≠ w.vchDefaultKey)
    (hgenerated : Generated library w vchPubKey) :
  Pooled library
    { w with
      setKeyPool := w.setKeyPool.insert nIndex
      db := { w.db with pool := w.db.pool.insert nIndex vchPubKey } } reserved kept
  := by
  have hlive : ∀ n, Live { w with
      setKeyPool := w.setKeyPool.insert nIndex
      db := { w.db with pool := w.db.pool.insert nIndex vchPubKey } } reserved n →
      nIndex = n ∨ nIndex ≠ n ∧ Live w reserved n := by
    intro n hn
    rcases eq_or_ne nIndex n with heq | hne
    · exact .inl heq
    · rcases hn with hmem | hreserved
      · rw [ExtTreeSet.mem_insert, Std.compare_eq_iff_eq] at hmem
        exact .inr ⟨hne, .inl (hmem.resolve_left hne)⟩
      · exact .inr ⟨hne, .inr hreserved⟩
  refine ⟨?_, ?_, ?_, ?_, h.apart, h.kept_nodup, h.kept_generated, h.default⟩
  · obtain ⟨M, hholding⟩ := h.holds
    exact ⟨M, (poolStable_holding library M).pool _ _ hholding⟩
  · intro n hn
    rcases hlive n hn with rfl | ⟨hne, hn⟩
    · exact ⟨vchPubKey, ExtTreeMap.getElem?_insert_self, hgenerated, hkept, hdefault⟩
    · simp only [getElem?_insert_of_ne hne]
      exact h.record n hn
  · intro n n' hn hn' heq
    rcases hlive n hn with rfl | ⟨hne, hn⟩
    · rcases hlive n' hn' with rfl | ⟨hne', hn'⟩
      · rfl
      · rw [ExtTreeMap.getElem?_insert_self, getElem?_insert_of_ne hne'] at heq
        exact absurd heq.symm (hpool n' hn')
    · rcases hlive n' hn' with rfl | ⟨hne', hn'⟩
      · rw [ExtTreeMap.getElem?_insert_self, getElem?_insert_of_ne hne] at heq
        exact absurd heq (hpool n hn)
      · rw [getElem?_insert_of_ne hne, getElem?_insert_of_ne hne'] at heq
        exact h.injective n n' hn hn' heq
  · intro i n hn
    have hne : nIndex ≠ n := by
      rintro rfl
      exact hfree (.inr ⟨i, hn⟩)
    rw [ExtTreeSet.mem_insert, Std.compare_eq_iff_eq, getElem?_insert_of_ne hne]
    exact ⟨not_or.mpr ⟨hne, (h.held i n hn).1⟩, (h.held i n hn).2⟩

/-- A new key at an index that is neither in the pool nor reserved. -/
theorem addPoolKey
    (hlibrary : library.Lawful) (h : Pooled library w reserved kept) {nIndex : ℕ} {rand : CKey}
    (hrand : rand.Valid) (hfree : ¬Live w reserved nIndex)
    (hnodup : (generatedKeys library (w.addPoolKey library nIndex rand).1).Nodup) :
  Pooled library (w.addPoolKey library nIndex rand).1 reserved kept
  := by
  obtain ⟨hgrown, hkey⟩ := @generateNewKey_spec library w rand
  have hholds : Holds library (w.generateNewKey library rand).1 := by
    obtain ⟨M, hholding⟩ := h.holds
    exact ⟨M, hholding.generateNewKey hrand⟩
  rw [CWallet.addPoolKey] at hnodup ⊢
  rcases hresult : w.generateNewKey library rand with ⟨w', _ | vchPubKey⟩
  · rw [hresult] at hgrown hholds
    exact h.grown hgrown hholds
  · rw [hresult] at hgrown hholds hkey hnodup
    obtain ⟨key, hadded, hgenerated, rfl⟩ := hkey vchPubKey rfl
    obtain ⟨hpool, hkept, hdefault, hnew⟩ := h.fresh hlibrary hholds hadded hgenerated hnodup
    have hlive : ∀ n, Live w' reserved n → Live w reserved n := by
      intro n hn
      rw [Live, hgrown.setKeyPool] at hn
      exact hn
    apply (h.grown hgrown hholds).insert (fun hn => hfree (hlive nIndex hn))
    · intro n hn
      rw [hgrown.pool]
      exact hpool n (hlive n hn)
    · exact hkept
    · rw [hgrown.vchDefaultKey]
      exact hdefault
    · exact hnew

end Pooled

/-! ## Filling the pool -/

theorem lt_nEnd {nIndex : ℕ} (h : nIndex ∈ w.setKeyPool) :
  nIndex < w.nEnd
  := by
  rw [nEnd, ← ExtTreeSet.max?_eq_getLast?_toList]
  split
  · next hmax =>
    rw [ExtTreeSet.max?_eq_none_iff] at hmax
    rw [hmax] at h
    cases ExtTreeSet.not_mem_empty h
  · next nLast hmax =>
    have hle := (ExtTreeSet.max?_eq_some_iff_mem_and_forall.mp hmax).2 nIndex h
    rw [Nat.isLE_compare] at hle
    exact Nat.lt_succ_of_le hle

theorem nEnd_insert (pool : ExtTreeMap ℕ CPubKey) :
  nEnd { w with setKeyPool := w.setKeyPool.insert w.nEnd, db := { w.db with pool := pool } } = w.nEnd + 1
  := by
  have hmax : (w.setKeyPool.insert w.nEnd).max? = some w.nEnd := by
    rw [ExtTreeSet.max?_eq_some_iff_mem_and_forall]
    refine ⟨ExtTreeSet.mem_insert_self, ?_⟩
    intro nIndex hmem
    rw [Nat.isLE_compare]
    rw [ExtTreeSet.mem_insert, Std.compare_eq_iff_eq] at hmem
    rcases hmem with heq | hmem
    · exact heq.ge
    · exact (lt_nEnd hmem).le
  rw [ExtTreeSet.max?_eq_getLast?_toList] at hmax
  rw [nEnd]
  simp only [hmax]

/-- The pool after a key was added to it. -/
theorem setKeyPool_addPoolKey
    {nIndex : ℕ} {rand : CKey} (h : w.addPoolKey library nIndex rand = (w', true)) :
  w'.setKeyPool = w.setKeyPool.insert nIndex
  := by
  have hgrown := (@generateNewKey_spec library w rand).1
  rw [addPoolKey] at h
  rcases hresult : w.generateNewKey library rand with ⟨w₁, _ | vchPubKey⟩
  · rw [hresult] at h
    cases h
  · rw [hresult] at h hgrown
    cases h
    have hset : w₁.setKeyPool = w.setKeyPool := hgrown.setKeyPool
    exact congrArg (·.insert nIndex) hset

theorem poolStable_generatedKeys (library : WalletLibrary) (keys : List CKey) :
  PoolStable library (fun _ => True) (fun w => keys <+: w.vGenerated)
  := by
  constructor
  · intro w rand _ hkeys
    exact hkeys.trans (generateNewKey_spec w rand).1.vGenerated
  · intro w setKeyPool pool hkeys
    exact hkeys

/-- The keys are pairwise distinct now if they are later. -/
theorem nodup_of_initial
    (h : w.vGenerated <+: w'.vGenerated) (hnodup : (generatedKeys library w').Nodup) :
  (generatedKeys library w).Nodup
  := (h.map _).sublist.nodup hnodup

namespace Pooled

variable {n i : ℕ} {rands : ℕ → CKey}

theorem newPoolLoop
    (hlibrary : library.Lawful) (hrands : ∀ i, (rands i).Valid)
    (h : Pooled library w reserved kept) (hpool : ∀ nIndex ∈ w.setKeyPool, nIndex ≤ i)
    (hreserved : ∀ j nIndex, (reserved j).nIndex = some nIndex → ¬(i < nIndex ∧ nIndex ≤ i + n))
    (hnodup : (generatedKeys library (newPoolLoop library rands n i w).1).Nodup) :
  Pooled library (newPoolLoop library rands n i w).1 reserved kept
  := by
  induction n generalizing w i with
  | zero => exact h
  | succ n ih =>
    have hfree : ¬Live w reserved (i + 1) := by
      rintro (hmem | ⟨j, hj⟩)
      · exact absurd (hpool _ hmem) (by omega)
      · exact hreserved j (i + 1) hj (by omega)
    have hadd := h.addPoolKey hlibrary (hrands i) hfree
    rw [CWallet.newPoolLoop] at hnodup ⊢
    rcases hresult : w.addPoolKey library (i + 1) (rands i) with ⟨w', _ | _⟩
    · rw [hresult] at hadd hnodup
      exact hadd hnodup
    · rw [hresult] at hadd hnodup
      simp only at hadd hnodup ⊢
      apply ih (hadd (nodup_of_initial _ hnodup))
      · intro nIndex hmem
        rw [setKeyPool_addPoolKey hresult, ExtTreeSet.mem_insert, Std.compare_eq_iff_eq] at hmem
        rcases hmem with heq | hmem
        · exact heq.ge
        · exact (hpool nIndex hmem).trans (Nat.le_succ i)
      · intro j nIndex hj hrange
        exact hreserved j nIndex hj (by omega)
      · exact hnodup
      · exact (poolStable_generatedKeys library _).newPoolLoop (fun _ => trivial) n (i + 1)
          (List.prefix_refl _)

theorem topUpLoop
    (hlibrary : library.Lawful) (hrands : ∀ i, (rands i).Valid) {nSize : ℕ}
    (h : Pooled library w reserved kept)
    (hreserved : ∀ j nIndex, (reserved j).nIndex = some nIndex →
      ¬(w.nEnd ≤ nIndex ∧ nIndex < w.nEnd + n))
    (hnodup : (generatedKeys library (topUpLoop library rands nSize n i w).1).Nodup) :
  Pooled library (topUpLoop library rands nSize n i w).1 reserved kept
  := by
  induction n generalizing w i with
  | zero => exact h
  | succ n ih =>
    have hfree : ¬Live w reserved w.nEnd := by
      rintro (hmem | ⟨j, hj⟩)
      · exact (lt_nEnd hmem).false
      · exact hreserved j w.nEnd hj (by omega)
    have hadd := h.addPoolKey hlibrary (hrands i) hfree
    rw [CWallet.topUpLoop] at hnodup ⊢
    split_ifs at hnodup ⊢
    · rcases hresult : w.addPoolKey library w.nEnd (rands i) with ⟨w', _ | _⟩
      · rw [hresult] at hadd hnodup
        exact hadd hnodup
      · rw [hresult] at hadd hnodup
        simp only at hadd hnodup ⊢
        have hnEnd : w'.nEnd = w.nEnd + 1 := by
          rw [← @nEnd_insert w w.db.pool, nEnd, nEnd, setKeyPool_addPoolKey hresult]
        apply ih (hadd (nodup_of_initial _ hnodup))
        · intro j nIndex hj hrange
          exact hreserved j nIndex hj (by omega)
        · exact hnodup
        · exact (poolStable_generatedKeys library _).topUpLoop (fun _ => trivial) nSize n (i + 1)
            (List.prefix_refl _)
    · exact h

/-- Indices leave the pool or change between the pool and the reservations. -/
theorem change
    (h : Pooled library w reserved kept) (setKeyPool : ExtTreeSet ℕ) (pool : ExtTreeMap ℕ CPubKey)
    {reserved' : ℕ → CReserveKey} {kept' : List CPubKey}
    (hlive : ∀ nIndex, nIndex ∈ setKeyPool ∨ (∃ i, (reserved' i).nIndex = some nIndex) →
      Live w reserved nIndex ∧ pool[nIndex]? = w.db.pool[nIndex]?
        ∧ ∀ vchPubKey ∈ kept', w.db.pool[nIndex]? = some vchPubKey → vchPubKey ∈ kept)
    (hheld : ∀ i nIndex, (reserved' i).nIndex = some nIndex →
      nIndex ∉ setKeyPool ∧ w.db.pool[nIndex]? = some (reserved' i).vchPubKey)
    (hapart : ∀ i j nIndex, (reserved' i).nIndex = some nIndex → (reserved' j).nIndex = some nIndex →
      i = j)
    (hkept : kept'.Nodup ∧ ∀ vchPubKey ∈ kept', Generated library w vchPubKey
      ∧ vchPubKey ≠ w.vchDefaultKey) :
  Pooled library { w with setKeyPool := setKeyPool, db := { w.db with pool := pool } } reserved' kept'
  := by
  refine ⟨?_, ?_, ?_, ?_, hapart, hkept.1, hkept.2, h.default⟩
  · obtain ⟨M, hholding⟩ := h.holds
    exact ⟨M, (poolStable_holding library M).pool _ _ hholding⟩
  · intro nIndex hindex
    obtain ⟨hold, heq, hnew⟩ := hlive nIndex hindex
    obtain ⟨vchPubKey, hpool, hkey, hnot, hdefault⟩ := h.record nIndex hold
    refine ⟨vchPubKey, heq.trans hpool, hkey, ?_, hdefault⟩
    intro hmem
    exact hnot (hnew vchPubKey hmem hpool)
  · intro nIndex nIndex' hindex hindex' hsame
    obtain ⟨hold, heq, _⟩ := hlive nIndex hindex
    obtain ⟨hold', heq', _⟩ := hlive nIndex' hindex'
    exact h.injective nIndex nIndex' hold hold' (heq.symm.trans (hsame.trans heq'))
  · intro i nIndex hi
    exact ⟨(hheld i nIndex hi).1, (hlive nIndex (.inr ⟨i, hi⟩)).2.1.trans (hheld i nIndex hi).2⟩

/-- The kept keys stay as they are. -/
theorem kept_spec (h : Pooled library w reserved kept) :
  kept.Nodup ∧ ∀ vchPubKey ∈ kept, Generated library w vchPubKey ∧ vchPubKey ≠ w.vchDefaultKey
  := ⟨h.kept_nodup, h.kept_generated⟩

/-- `NewKeyPool` drops the pool, but not the records of reserved indices. -/
theorem emptyPool (h : Pooled library w reserved kept) :
  Pooled library w.emptyPool reserved kept
  := by
  apply h.change ∅
  · rintro nIndex (hmem | ⟨i, hi⟩)
    · cases ExtTreeSet.not_mem_empty hmem
    · obtain ⟨hnot, hrecord⟩ := h.held i nIndex hi
      refine ⟨.inr ⟨i, hi⟩, ?_, fun _ hmem _ => hmem⟩
      rw [ExtTreeMap.getElem?_filter', hrecord]
      simp [hnot]
  · intro i nIndex hi
    exact ⟨ExtTreeSet.not_mem_empty, (h.held i nIndex hi).2⟩
  · exact h.apart
  · exact h.kept_spec

theorem newKeyPool
    (hlibrary : library.Lawful) {rands : ℕ → CKey} (hrands : ∀ i, (rands i).Valid) {nKeys : ℕ}
    (h : Pooled library w reserved kept)
    (hreserved : w.isLocked = false → ∀ j nIndex, (reserved j).nIndex = some nIndex →
      ¬(1 ≤ nIndex ∧ nIndex < 1 + nKeys))
    (hnodup : (generatedKeys library (w.newKeyPool library nKeys rands).1).Nodup) :
  Pooled library (w.newKeyPool library nKeys rands).1 reserved kept
  := by
  rw [newKeyPool_eq] at hnodup ⊢
  split_ifs at hnodup ⊢ with hlocked
  · exact h.emptyPool
  · apply h.emptyPool.newPoolLoop hlibrary hrands
    · intro nIndex hmem
      cases ExtTreeSet.not_mem_empty hmem
    · intro j nIndex hj hrange
      exact hreserved (Bool.eq_false_iff.mpr hlocked) j nIndex hj (by omega)
    · exact hnodup

variable {nKeys : ℕ}

theorem topUpKeyPool
    (hlibrary : library.Lawful) (hrands : ∀ i, (rands i).Valid) (h : Pooled library w reserved kept)
    (hreserved : w.isLocked = false → ∀ j nIndex, (reserved j).nIndex = some nIndex →
      ¬(w.nEnd ≤ nIndex ∧ nIndex < w.nEnd + (topUpSize nKeys - w.setKeyPool.size)))
    (hnodup : (generatedKeys library (w.topUpKeyPool library nKeys rands).1).Nodup) :
  Pooled library (w.topUpKeyPool library nKeys rands).1 reserved kept
  := by
  rw [CWallet.topUpKeyPool] at hnodup ⊢
  split_ifs at hnodup ⊢ with hlocked
  · exact h
  · exact h.topUpLoop hlibrary hrands (hreserved (Bool.eq_false_iff.mpr hlocked)) hnodup

/-! ## Taking a key out of the pool -/

variable {vchPubKey : CPubKey}

theorem haveKey (h : Holds library w) (hkey : Generated library w vchPubKey) :
  w.haveKey (library.hash160 vchPubKey) = true
  := by
  obtain ⟨M, hholding⟩ := h
  obtain ⟨key, _, hadded, rfl⟩ := hkey
  rw [CWallet.haveKey, Bool.or_eq_true]
  cases hcrypto : w.fUseCrypto with
  | false =>
    left
    exact hholding.complete.plain hcrypto key hadded
  | true =>
    exact hholding.complete.crypted hcrypto key hadded

/-- The index that is taken is no longer in the pool, and the key is one of the wallet's. -/
theorem takeKey (h : Pooled library w reserved kept) :
  (w.takeKey library = (w, .empty)) ∨ ∃ nIndex vchPubKey, nIndex ∈ w.setKeyPool
    ∧ w.db.pool[nIndex]? = some vchPubKey
    ∧ w.takeKey library
      = ({ w with setKeyPool := w.setKeyPool.erase nIndex }, .key nIndex vchPubKey)
  := by
  rw [CWallet.takeKey]
  split
  · exact .inl rfl
  · next nIndex hmin =>
    rw [← ExtTreeSet.min?_eq_head?_toList] at hmin
    have hmem := (ExtTreeSet.min?_eq_some_iff_mem_and_forall.mp hmin).1
    obtain ⟨vchPubKey, hpool, hkey, _⟩ := h.record nIndex (.inl hmem)
    have hhave : CWallet.haveKey { w with setKeyPool := w.setKeyPool.erase nIndex }
        (library.hash160 vchPubKey) = true := by
      change w.haveKey (library.hash160 vchPubKey) = true
      exact haveKey h.holds hkey
    simp only [hpool, hhave, Bool.not_true, Bool.false_eq_true, if_false]
    exact .inr ⟨nIndex, vchPubKey, hmem, hpool, rfl⟩

variable {nIndex : ℕ}

/-- An index of the pool is not reserved. -/
theorem ne_of_reserved
    (h : Pooled library w reserved kept) (hi : (reserved i).nIndex = some n)
    (hmem : nIndex ∈ w.setKeyPool) :
  n ≠ nIndex
  := by
  rintro rfl
  exact (h.held i n hi).1 hmem

/-- A key of the pool is reserved. -/
theorem reserve
    (h : Pooled library w reserved kept) (i : ℕ)
    (hmem : nIndex ∈ w.setKeyPool) (hpool : w.db.pool[nIndex]? = some vchPubKey) :
  Pooled library { w with setKeyPool := w.setKeyPool.erase nIndex }
    (Function.update reserved i ⟨some nIndex, vchPubKey⟩) kept
  := by
  apply h.change (w.setKeyPool.erase nIndex) w.db.pool
  · rintro n (hn | ⟨j, hj⟩)
    · rw [ExtTreeSet.mem_erase] at hn
      exact ⟨.inl hn.2, rfl, fun _ hmem _ => hmem⟩
    · refine ⟨?_, rfl, fun _ hmem _ => hmem⟩
      rcases eq_or_ne j i with rfl | hne
      · rw [Function.update_self, Option.some.injEq] at hj
        rw [← hj]
        exact .inl hmem
      · rw [Function.update_of_ne hne] at hj
        exact .inr ⟨j, hj⟩
  · intro j n hj
    rcases eq_or_ne j i with rfl | hne
    · rw [Function.update_self, Option.some.injEq] at hj
      rw [Function.update_self, ← hj, ExtTreeSet.mem_erase]
      exact ⟨fun hn => hn.1 Std.ReflCmp.compare_self, hpool⟩
    · rw [Function.update_of_ne hne] at hj ⊢
      rw [ExtTreeSet.mem_erase]
      exact ⟨fun hn => (h.held j n hj).1 hn.2, (h.held j n hj).2⟩
  · intro j j' n hj hj'
    rcases eq_or_ne j i with rfl | hne
    · rcases eq_or_ne j' j with rfl | hne'
      · rfl
      · rw [Function.update_self, Option.some.injEq] at hj
        rw [Function.update_of_ne hne'] at hj'
        exact absurd hj.symm (h.ne_of_reserved hj' hmem)
    · rcases eq_or_ne j' i with rfl | hne'
      · rw [Function.update_self, Option.some.injEq] at hj'
        rw [Function.update_of_ne hne] at hj
        exact absurd hj'.symm (h.ne_of_reserved hj hmem)
      · rw [Function.update_of_ne hne] at hj
        rw [Function.update_of_ne hne'] at hj'
        exact h.apart j j' n hj hj'
  · exact h.kept_spec

/-- A reservation that is dropped leaves the others. -/
theorem update_none {j : ℕ}
    (hj : (Function.update reserved i ⟨none, vchPubKey⟩ j).nIndex = some n) :
  j ≠ i ∧ Function.update reserved i ⟨none, vchPubKey⟩ j = reserved j ∧ (reserved j).nIndex = some n
  := by
  rcases eq_or_ne j i with rfl | hne
  · rw [Function.update_self] at hj
    cases hj
  · rw [Function.update_of_ne hne] at hj ⊢
    exact ⟨hne, rfl, hj⟩

/-- The public key of an index of the pool or a reservation is kept, and the index is gone. -/
theorem keep
    (h : Pooled library w reserved kept) {setKeyPool : ExtTreeSet ℕ} {reserved' : ℕ → CReserveKey}
    (hindex : Live w reserved nIndex) (hpool : w.db.pool[nIndex]? = some vchPubKey)
    (hset : ∀ n ∈ setKeyPool, n ∈ w.setKeyPool ∧ n ≠ nIndex)
    (hreserved : ∀ i n, (reserved' i).nIndex = some n → n ≠ nIndex ∧ reserved' i = reserved i) :
  Pooled library
    { w with
      setKeyPool := setKeyPool
      db := { w.db with pool := w.db.pool.erase nIndex } } reserved' (vchPubKey :: kept)
  := by
  obtain ⟨vchPubKey', hpool', hkey, hnot, hdefault⟩ := h.record nIndex hindex
  obtain rfl : vchPubKey = vchPubKey' := Option.some.inj (hpool.symm.trans hpool')
  have hold : ∀ i n, (reserved' i).nIndex = some n → (reserved i).nIndex = some n := by
    intro i n hi
    rw [← (hreserved i n hi).2]
    exact hi
  apply h.change
  · intro n hn
    obtain ⟨hlive, hne⟩ : Live w reserved n ∧ n ≠ nIndex := by
      rcases hn with hmem | ⟨i, hi⟩
      · exact ⟨.inl (hset n hmem).1, (hset n hmem).2⟩
      · exact ⟨.inr ⟨i, hold i n hi⟩, (hreserved i n hi).1⟩
    refine ⟨hlive, getElem?_erase_of_ne hne.symm, ?_⟩
    intro other hmem hother
    rcases List.mem_cons.mp hmem with rfl | hmem
    · exact absurd (h.injective n nIndex hlive hindex (hother.trans hpool.symm)) hne
    · exact hmem
  · intro i n hi
    rw [(hreserved i n hi).2]
    exact ⟨fun hmem => (h.held i n (hold i n hi)).1 (hset n hmem).1, (h.held i n (hold i n hi)).2⟩
  · intro i j n hi hj
    exact h.apart i j n (hold i n hi) (hold j n hj)
  · refine ⟨List.nodup_cons.mpr ⟨hnot, h.kept_nodup⟩, ?_⟩
    intro other hmem
    rcases List.mem_cons.mp hmem with rfl | hmem
    · exact ⟨hkey, hdefault⟩
    · exact h.kept_generated other hmem

/-- A reservation is replaced by one without an index. -/
theorem replace (h : Pooled library w reserved kept) (i : ℕ) (vchPubKey : CPubKey) :
  Pooled library w (Function.update reserved i ⟨none, vchPubKey⟩) kept
  := by
  apply h.change w.setKeyPool w.db.pool
  · rintro n (hmem | ⟨j, hj⟩)
    · exact ⟨.inl hmem, rfl, fun _ hmem _ => hmem⟩
    · exact ⟨.inr ⟨j, (update_none hj).2.2⟩, rfl, fun _ hmem _ => hmem⟩
  · intro j n hj
    rw [(update_none hj).2.1]
    exact h.held j n (update_none hj).2.2
  · intro j j' n hj hj'
    exact h.apart j j' n (update_none hj).2.2 (update_none hj').2.2
  · exact h.kept_spec

theorem keepReserved (h : Pooled library w reserved kept) (i : ℕ) :
  Pooled library (w.keepReserved (reserved i)).1
    (Function.update reserved i (w.keepReserved (reserved i)).2)
    (match (reserved i).nIndex with
      | some _ => (reserved i).vchPubKey :: kept
      | none => kept)
  := by
  rw [CWallet.keepReserved]
  cases hnIndex : (reserved i).nIndex with
  | none => exact h.replace i []
  | some nIndex =>
    obtain ⟨hnot, hpool⟩ := h.held i nIndex hnIndex
    apply h.keep (.inr ⟨i, hnIndex⟩) hpool
    · intro n hmem
      exact ⟨hmem, fun heq => hnot (heq ▸ hmem)⟩
    · intro j n hj
      obtain ⟨hne, heq, hold⟩ := update_none hj
      refine ⟨?_, heq⟩
      rintro rfl
      exact hne (h.apart j i n hold hnIndex)

theorem returnReserved (h : Pooled library w reserved kept) (i : ℕ) :
  Pooled library (w.returnReserved (reserved i)).1
    (Function.update reserved i (w.returnReserved (reserved i)).2) kept
  := by
  rw [CWallet.returnReserved]
  cases hnIndex : (reserved i).nIndex with
  | none => exact h.replace i []
  | some nIndex =>
    apply h.change (w.setKeyPool.insert nIndex) w.db.pool
    · rintro n (hmem | ⟨j, hj⟩)
      · rw [ExtTreeSet.mem_insert, Std.compare_eq_iff_eq] at hmem
        refine ⟨?_, rfl, fun _ hmem _ => hmem⟩
        rcases hmem with rfl | hmem
        · exact .inr ⟨i, hnIndex⟩
        · exact .inl hmem
      · exact ⟨.inr ⟨j, (update_none hj).2.2⟩, rfl, fun _ hmem _ => hmem⟩
    · intro j n hj
      obtain ⟨hne, heq, hold⟩ := update_none hj
      rw [heq, ExtTreeSet.mem_insert, Std.compare_eq_iff_eq]
      refine ⟨?_, (h.held j n hold).2⟩
      rintro (rfl | hmem)
      · exact hne (h.apart j i nIndex hold hnIndex)
      · exact (h.held j n hold).1 hmem
    · intro j j' n hj hj'
      exact h.apart j j' n (update_none hj).2.2 (update_none hj').2.2
    · exact h.kept_spec

theorem vGenerated_takeKey (w : CWallet) :
  (w.takeKey library).1.vGenerated = w.vGenerated
  := by
  rw [CWallet.takeKey]
  split
  · rfl
  · simp only
    split
    · rfl
    · split_ifs
      · rfl
      · rfl

theorem vGenerated_reserveKeyFromKeyPool (w : CWallet) (nKeys : ℕ) (rands : ℕ → CKey) :
  w.vGenerated <+: (w.reserveKeyFromKeyPool library nKeys rands).1.vGenerated
  := by
  have htop : w.vGenerated <+: (w.topUpKeyPool library nKeys rands).1.vGenerated :=
    (poolStable_generatedKeys library w.vGenerated).topUpKeyPool (fun _ => trivial) nKeys
      (List.prefix_refl _)
  rw [CWallet.reserveKeyFromKeyPool]
  split_ifs
  · rcases hresult : w.topUpKeyPool library nKeys rands with ⟨w', _ | _⟩
    · rw [hresult] at htop
      exact htop
    · rw [hresult] at htop
      simp only [vGenerated_takeKey]
      exact htop
  · exact ⟨[], by rw [vGenerated_takeKey, List.append_nil]⟩

/-- `ReserveKeyFromKeyPool` throws while it tops up the pool, or finds the pool empty, or takes an
index out of it. -/
theorem reserveKeyFromKeyPool
    (hlibrary : library.Lawful) (hrands : ∀ i, (rands i).Valid) (h : Pooled library w reserved kept)
    (hreserved : w.isLocked = false → ∀ j nIndex, (reserved j).nIndex = some nIndex →
      ¬(w.nEnd ≤ nIndex ∧ nIndex < w.nEnd + (topUpSize nKeys - w.setKeyPool.size)))
    (hnodup : (generatedKeys library (w.reserveKeyFromKeyPool library nKeys rands).1).Nodup) :
  ∃ w', Pooled library w' reserved kept ∧ (w.reserveKeyFromKeyPool library nKeys rands = (w', .exception)
      ∧ w.reservedIndex library nKeys rands = none
    ∨ w.reserveKeyFromKeyPool library nKeys rands = (w', .empty)
    ∨ ∃ nIndex vchPubKey, nIndex ∈ w'.setKeyPool ∧ w'.db.pool[nIndex]? = some vchPubKey
      ∧ w.reserveKeyFromKeyPool library nKeys rands
        = ({ w' with setKeyPool := w'.setKeyPool.erase nIndex }, .key nIndex vchPubKey))
  := by
  have htop := h.topUpKeyPool hlibrary hrands hreserved
  rw [CWallet.reserveKeyFromKeyPool] at hnodup ⊢
  rw [reservedIndex]
  split_ifs at hnodup ⊢ with hlocked
  · rcases hresult : w.topUpKeyPool library nKeys rands with ⟨w', _ | _⟩
    · rw [hresult] at hnodup htop
      exact ⟨w', htop hnodup, .inl ⟨rfl, rfl⟩⟩
    · rw [hresult] at hnodup htop
      simp only [generatedKeys, vGenerated_takeKey] at hnodup htop ⊢
      refine ⟨w', htop hnodup, ?_⟩
      right
      exact (htop hnodup).takeKey
  · refine ⟨w, h, ?_⟩
    right
    exact h.takeKey

theorem getReservedKey
    (hlibrary : library.Lawful) (hrands : ∀ i, (rands i).Valid) (h : Pooled library w reserved kept)
    (hreserved : (reserved i).nIndex = none → w.isLocked = false →
      ∀ j nIndex, (reserved j).nIndex = some nIndex →
      ¬(w.nEnd ≤ nIndex ∧ nIndex < w.nEnd + (topUpSize nKeys - w.setKeyPool.size)))
    (hnodup : (generatedKeys library
      (w.getReservedKey library (reserved i) nKeys rands).1).Nodup) :
  Pooled library (w.getReservedKey library (reserved i) nKeys rands).1
    (Function.update reserved i (w.getReservedKey library (reserved i) nKeys rands).2.1) kept
  := by
  rw [CWallet.getReservedKey] at hnodup ⊢
  cases hnIndex : (reserved i).nIndex with
  | some nIndex =>
    simp only [Function.update_eq_self]
    exact h
  | none =>
    simp only [hnIndex] at hnodup
    have hreserve := h.reserveKeyFromKeyPool hlibrary hrands (hreserved hnIndex)
    rcases hresult : w.reserveKeyFromKeyPool library nKeys rands with ⟨w₁, result⟩
    have hnodup₁ : (generatedKeys library w₁).Nodup := by
      rw [hresult] at hnodup
      cases result with
      | empty => exact hnodup
      | key nIndex vchPubKey => exact hnodup
      | exception => exact hnodup
    rw [hresult] at hreserve
    obtain ⟨w', h', ⟨heq, hindex⟩ | heq | ⟨nIndex, vchPubKey, hmem, hpool, heq⟩⟩ := hreserve hnodup₁
    · cases heq
      simp only [hindex]
      exact h'.replace i _
    · cases heq
      exact h'.replace i _
    · cases heq
      exact h'.reserve i hmem hpool

/-- A new key that is handed out at once. -/
theorem generateNewKey
    (hlibrary : library.Lawful) {rand : CKey} (hrand : rand.Valid) (h : Pooled library w reserved kept)
    (hnodup : (generatedKeys library (w.generateNewKey library rand).1).Nodup) :
  Pooled library (w.generateNewKey library rand).1 reserved
    (match (w.generateNewKey library rand).2 with
      | some vchPubKey => vchPubKey :: kept
      | none => kept)
  := by
  obtain ⟨hgrown, hkey⟩ := @generateNewKey_spec library w rand
  have hholds : Holds library (w.generateNewKey library rand).1 := by
    obtain ⟨M, hholding⟩ := h.holds
    exact ⟨M, hholding.generateNewKey hrand⟩
  have hlater := h.grown hgrown hholds
  rcases hresult : w.generateNewKey library rand with ⟨w', _ | vchPubKey⟩
  · rw [hresult] at hlater
    exact hlater
  · rw [hresult] at hgrown hholds hkey hnodup hlater
    obtain ⟨key, hadded, hgenerated, rfl⟩ := hkey vchPubKey rfl
    obtain ⟨hpool, hnot, hdefault, hnew⟩ := h.fresh hlibrary hholds hadded hgenerated hnodup
    apply hlater.change w'.setKeyPool w'.db.pool
    · intro nIndex hindex
      refine ⟨hindex, rfl, ?_⟩
      intro other hmem hother
      rcases List.mem_cons.mp hmem with rfl | hmem
      · rw [hgrown.setKeyPool] at hindex
        rw [hgrown.pool] at hother
        exact absurd hother (hpool nIndex hindex)
      · exact hmem
    · exact hlater.held
    · exact hlater.apart
    · refine ⟨List.nodup_cons.mpr ⟨hnot, h.kept_nodup⟩, ?_⟩
      intro other hmem
      rcases List.mem_cons.mp hmem with rfl | hmem
      · rw [hgrown.vchDefaultKey]
        exact ⟨hnew, hdefault⟩
      · exact hlater.kept_generated other hmem

/-- The key that `GetKeyFromPool` hands out counts as kept. -/
theorem getKeyFromPool
    (hlibrary : library.Lawful) (hrands : ∀ i, (rands i).Valid) {rand : CKey}
    (hrand : rand.Valid) (fAllowReuse : Bool) (h : Pooled library w reserved kept)
    (hreserved : w.isLocked = false → ∀ j nIndex, (reserved j).nIndex = some nIndex →
      ¬(w.nEnd ≤ nIndex ∧ nIndex < w.nEnd + (topUpSize nKeys - w.setKeyPool.size)))
    (hnodup : (generatedKeys library
      (w.getKeyFromPool library fAllowReuse nKeys rands rand).1).Nodup) :
  Pooled library (w.getKeyFromPool library fAllowReuse nKeys rands rand).1 reserved
    (match (w.getKeyFromPool library fAllowReuse nKeys rands rand).2 with
      | .key vchPubKey => vchPubKey :: kept
      | _ => kept)
  := by
  have hreserve := h.reserveKeyFromKeyPool hlibrary hrands hreserved
  rw [CWallet.getKeyFromPool] at hnodup ⊢
  rcases hresult : w.reserveKeyFromKeyPool library nKeys rands with ⟨w₁, _ | ⟨nIndex, vchPubKey⟩ | _⟩
  · rw [hresult] at hnodup hreserve
    simp only at hnodup ⊢
    have hnodup₁ : (generatedKeys library w₁).Nodup := by
      split_ifs at hnodup
      · exact hnodup
      · exact hnodup
      · have hprefix := (@generateNewKey_spec library w₁ rand).1.vGenerated
        rcases hnew : w₁.generateNewKey library rand with ⟨w₂, _ | vchPubKey⟩
        · rw [hnew] at hnodup hprefix
          exact nodup_of_initial hprefix hnodup
        · rw [hnew] at hnodup hprefix
          exact nodup_of_initial hprefix hnodup
    have h₁ : Pooled library w₁ reserved kept := by
      obtain ⟨w', h', ⟨heq, _⟩ | heq | ⟨_, _, _, _, heq⟩⟩ := hreserve hnodup₁
      · cases heq
      · cases heq
        exact h'
      · cases heq
    split_ifs at hnodup ⊢
    · exact h₁
    · exact h₁
    · have hkeep := h₁.generateNewKey hlibrary hrand
      rcases hnew : w₁.generateNewKey library rand with ⟨w₂, _ | vchPubKey⟩
      · rw [hnew] at hnodup hkeep
        exact hkeep hnodup
      · rw [hnew] at hnodup hkeep
        exact hkeep hnodup
  · rw [hresult] at hnodup hreserve
    obtain ⟨w', h', ⟨heq, _⟩ | heq | ⟨nIndex', vchPubKey', hmem, hpool, heq⟩⟩ := hreserve hnodup
    · cases heq
    · cases heq
    · cases heq
      apply h'.keep (.inl hmem) hpool
      · intro n hn
        rw [ExtTreeSet.mem_erase] at hn
        exact ⟨hn.2, fun heq => hn.1 (heq ▸ Std.ReflCmp.compare_self)⟩
      · intro i n hi
        exact ⟨h'.ne_of_reserved hi hmem, rfl⟩
  · rw [hresult] at hnodup hreserve
    obtain ⟨w', h', ⟨heq, _⟩ | heq | ⟨_, _, _, _, heq⟩⟩ := hreserve hnodup
    · cases heq
      exact h'
    · cases heq
    · cases heq

end Pooled

/-! ## Runs -/

namespace Reserving

variable {s : Reserving}

/-- The state of the pool, its reservations and the kept keys is sound. -/
def Sound (library : WalletLibrary) (s : Reserving) : Prop :=
  Pooled library s.wallet s.reserved s.kept

theorem vGenerated_getReservedKey
    (w : CWallet) (reservekey : CReserveKey) (nKeys : ℕ) (rands : ℕ → CKey) :
  w.vGenerated <+: (w.getReservedKey library reservekey nKeys rands).1.vGenerated
  := by
  have hreserve := @Pooled.vGenerated_reserveKeyFromKeyPool library w nKeys rands
  rw [getReservedKey]
  split
  · exact List.prefix_refl _
  · split
    · next hresult => rw [hresult] at hreserve; exact hreserve
    · next hresult => rw [hresult] at hreserve; exact hreserve
    · next hresult => rw [hresult] at hreserve; exact hreserve

theorem vGenerated_getKeyFromPool
    (w : CWallet) (fAllowReuse : Bool) (nKeys : ℕ) (rands : ℕ → CKey) (rand : CKey) :
  w.vGenerated <+: (w.getKeyFromPool library fAllowReuse nKeys rands rand).1.vGenerated
  := by
  have hreserve := @Pooled.vGenerated_reserveKeyFromKeyPool library w nKeys rands
  rw [getKeyFromPool]
  split
  · next hresult => rw [hresult] at hreserve; exact hreserve
  · next w₁ hresult =>
    rw [hresult] at hreserve
    have hgenerate := (@generateNewKey_spec library w₁ rand).1.vGenerated
    split_ifs
    · exact hreserve
    · exact hreserve
    · split
      · next hnew => rw [hnew] at hgenerate; exact hreserve.trans hgenerate
      · next hnew => rw [hnew] at hgenerate; exact hreserve.trans hgenerate
  · next hresult => rw [hresult] at hreserve; exact hreserve

theorem vGenerated_step (s : Reserving) (call : PoolCall) :
  s.wallet.vGenerated <+: (s.step library call).wallet.vGenerated
  := by
  cases call with
  | getReservedKey i nKeys rands => apply vGenerated_getReservedKey
  | keepKey i =>
    change s.wallet.vGenerated <+: (s.wallet.keepReserved (s.reserved i)).1.vGenerated
    rw [keepReserved]
    split
    · exact List.prefix_refl _
    · exact List.prefix_refl _
  | returnKey i =>
    change s.wallet.vGenerated <+: (s.wallet.returnReserved (s.reserved i)).1.vGenerated
    rw [returnReserved]
    split
    · exact List.prefix_refl _
    · exact List.prefix_refl _
  | getKeyFromPool fAllowReuse nKeys rands rand =>
    have hget := @vGenerated_getKeyFromPool library s.wallet fAllowReuse nKeys (fun i => rands i) rand
    rw [Reserving.step]
    split
    · next hresult => rw [hresult] at hget; exact hget
    · next hresult => rw [hresult] at hget; exact hget
  | topUpKeyPool nKeys rands =>
    exact (poolStable_generatedKeys library _).topUpKeyPool (fun _ => trivial) nKeys
      (List.prefix_refl _)
  | newKeyPool nKeys rands =>
    exact (poolStable_generatedKeys library _).newKeyPool (fun _ => trivial) nKeys
      (List.prefix_refl _)
  | lock => exact (onlyKeys_lock s.wallet).grown.vGenerated
  | unlock strWalletPassphrase => exact (grown_unlock s.wallet strWalletPassphrase).vGenerated

theorem vGenerated_run (s : Reserving) (calls : List PoolCall) :
  s.wallet.vGenerated <+: (run (step library) s calls).wallet.vGenerated
  := by
  induction calls generalizing s with
  | nil => exact List.prefix_refl _
  | cons call calls ih => exact (vGenerated_step s call).trans (ih (s.step library call))

theorem Sound.step
    (hlibrary : library.Lawful) (h : s.Sound library) {call : PoolCall} (hclear : s.Clear call)
    (hnodup : (generatedKeys library (s.step library call).wallet).Nodup) :
  (s.step library call).Sound library
  := by
  cases call with
  | getReservedKey i nKeys rands =>
    exact h.getReservedKey hlibrary (fun i => (rands i).2) hclear hnodup
  | keepKey i => exact h.keepReserved i
  | returnKey i => exact h.returnReserved i
  | getKeyFromPool fAllowReuse nKeys rands rand =>
    have hget := h.getKeyFromPool hlibrary (fun i => (rands i).2) rand.2 fAllowReuse hclear
    rw [Reserving.step] at hnodup ⊢
    rcases hresult : s.wallet.getKeyFromPool library fAllowReuse nKeys (fun i => rands i) rand
      with ⟨w', _ | vchPubKey | vchPubKey⟩
    · rw [hresult] at hget hnodup
      exact hget hnodup
    · rw [hresult] at hget hnodup
      exact hget hnodup
    · rw [hresult] at hget hnodup
      exact hget hnodup
  | topUpKeyPool nKeys rands =>
    exact h.topUpKeyPool hlibrary (fun i => (rands i).2) hclear hnodup
  | newKeyPool nKeys rands =>
    exact h.newKeyPool hlibrary (fun i => (rands i).2) hclear hnodup
  | lock =>
    apply h.grown (onlyKeys_lock s.wallet).grown
    obtain ⟨M, hholding⟩ := h.holds
    exact ⟨M, hholding.lock⟩
  | unlock strWalletPassphrase =>
    exact h.grown (grown_unlock s.wallet strWalletPassphrase)
      (holds_unlock hlibrary strWalletPassphrase h.holds)

/-- A wallet before any reservation. -/
def start (w : CWallet) : Reserving := ⟨w, fun _ => ⟨none, []⟩, []⟩

theorem sound_run
    (hlibrary : library.Lawful) (h : s.Sound library) {calls : List PoolCall}
    (halong : Along (step library) Clear s calls)
    (hnodup : (generatedKeys library (run (step library) s calls).wallet).Nodup) :
  (run (step library) s calls).Sound library
  := by
  induction calls generalizing s with
  | nil => exact h
  | cons call calls ih =>
    apply ih _ halong.2 hnodup
    exact h.step hlibrary halong.1 (nodup_of_initial (vGenerated_run _ calls) hnodup)

/-- As long as no new key is written at an index that is reserved, reservations hold different
indices and keys, a kept key is not handed out again, and every index of the pool has a record with
a key of the wallet, so that taking a key out of the pool does not throw. -/
theorem pool_of_run
    (hlibrary : library.Lawful) (hw : (start w).Sound library) {calls : List PoolCall}
    (halong : Along (step library) Clear (start w) calls)
    (hnodup : (generatedKeys library
      (Transition.run (step library) (start w) calls).wallet).Nodup) :
  let s := Transition.run (step library) (start w) calls
  (∀ i j nIndex nIndex', i ≠ j → (s.reserved i).nIndex = some nIndex →
      (s.reserved j).nIndex = some nIndex' →
      nIndex ≠ nIndex' ∧ (s.reserved i).vchPubKey ≠ (s.reserved j).vchPubKey)
    ∧ s.kept.Nodup
    ∧ (∀ i nIndex, (s.reserved i).nIndex = some nIndex → (s.reserved i).vchPubKey ∉ s.kept)
    ∧ s.wallet.vchDefaultKey ∉ s.kept
    ∧ (∀ nIndex ∈ s.wallet.setKeyPool, ∃ vchPubKey, s.wallet.db.pool[nIndex]? = some vchPubKey
      ∧ s.wallet.haveKey (library.hash160 vchPubKey) = true ∧ vchPubKey ∉ s.kept)
    ∧ (s.wallet.takeKey library).2 ≠ .exception
  := by
  intro s
  have h : s.Sound library := sound_run hlibrary hw halong hnodup
  refine ⟨?_, h.kept_nodup, ?_, ?_, ?_, ?_⟩
  · intro i j nIndex nIndex' hne hi hj
    have hindex : nIndex ≠ nIndex' := by
      rintro rfl
      exact hne (h.apart i j nIndex hi hj)
    refine ⟨hindex, ?_⟩
    intro hkey
    apply hindex
    apply h.injective nIndex nIndex' (.inr ⟨i, hi⟩) (.inr ⟨j, hj⟩)
    rw [(h.held i nIndex hi).2, (h.held j nIndex' hj).2, hkey]
  · intro i nIndex hi
    obtain ⟨vchPubKey, hpool, _, hnot, _⟩ := h.record nIndex (.inr ⟨i, hi⟩)
    rw [(h.held i nIndex hi).2, Option.some.injEq] at hpool
    rw [hpool]
    exact hnot
  · intro hmem
    exact (h.kept_generated _ hmem).2 rfl
  · intro nIndex hmem
    obtain ⟨vchPubKey, hpool, hkey, hnot, _⟩ := h.record nIndex (.inl hmem)
    exact ⟨vchPubKey, hpool, Pooled.haveKey h.holds hkey, hnot⟩
  · rcases h.takeKey with heq | ⟨nIndex, vchPubKey, _, _, heq⟩
    · rw [heq]
      intro hexception
      cases hexception
    · rw [heq]
      intro hexception
      cases hexception

/-! ### A new wallet -/

theorem holds_new (library : WalletLibrary) :
  Holds library (new WalletDB.empty)
  := by
  have hnone : ∀ {α : Type} (vchPubKey : Bytes), (∅ : ExtTreeMap Bytes α)[vchPubKey]? = none :=
    fun _ => ExtTreeMap.getElem?_empty
  refine ⟨List.replicate 32 0, (loading_new library _ [] WalletDB.empty).kept rfl nofun ⟨?_, ?_, ?_⟩
    nofun nofun ?_⟩
  · intro vchPubKey secret hget
    cases (hnone vchPubKey).symm.trans hget
  · intro vchPubKey secret hget
    cases (hnone vchPubKey).symm.trans hget
  · intro vchPubKey vchCryptedSecret hget
    cases (hnone vchPubKey).symm.trans hget
  · intro vchPubKey hmem
    cases ExtTreeMap.not_mem_empty hmem

theorem sound_start_new (library : WalletLibrary) :
  (start (new WalletDB.empty)).Sound library
  := by
  have hindex : ∀ nIndex, ¬Live (new WalletDB.empty) (start (new WalletDB.empty)).reserved nIndex := by
    rintro nIndex (hmem | ⟨i, hi⟩)
    · cases ExtTreeSet.not_mem_empty hmem
    · cases hi
  refine ⟨holds_new library, ?_, ?_, nofun, nofun, List.nodup_nil, nofun, .inl rfl⟩
  · intro nIndex h
    exact absurd h (hindex nIndex)
  · intro nIndex nIndex' h
    exact absurd h (hindex nIndex)

/-- Keys for a wallet to generate. -/
def sampleKeys (nFirst : ℕ) (i : ℕ) : ValidKey :=
  ⟨⟨(nFirst + i) % 1000 + 1, true⟩, by
    have hlt := Nat.mod_lt (nFirst + i) (show 1000 > 0 by decide)
    simp only [CKey.Valid, SECP256K1_ORDER]
    rw [@Nat.mod_eq_of_lt ((nFirst + i) % 1000 + 1) _ (by omega)]
    omega⟩

/-- A key is reserved and kept, and a key is taken out of the pool. -/
def sampleCalls : List PoolCall :=
  [.getReservedKey 0 1 (sampleKeys 0), .keepKey 0,
    .getKeyFromPool false 1 (sampleKeys 10) (sampleKeys 20 0)]

theorem clear_sampleCalls :
  Along (step sampleWalletLibrary) Clear (start (new WalletDB.empty)) sampleCalls
  := by
  refine ⟨fun _ _ i nIndex hi => (by cases hi), trivial, ?_, trivial⟩
  intro _ i nIndex hi
  exfalso
  simp only [Reserving.step, setReserved] at hi
  rcases eq_or_ne i 0 with rfl | hne
  · rw [Function.update_self, keepReserved] at hi
    split at hi
    · cases hi
    · cases hi
  · rw [Function.update_of_ne hne, Function.update_of_ne hne] at hi
    cases hi

theorem sampleCalls_pool :
  (run (step sampleWalletLibrary) (start (new WalletDB.empty)) sampleCalls).kept.Nodup
    ∧ (run (step sampleWalletLibrary) (start (new WalletDB.empty)) sampleCalls).kept.length = 2
  := by
  have hpool := pool_of_run lawful_sampleWalletLibrary (sound_start_new _) clear_sampleCalls
    (by decide)
  exact ⟨hpool.2.1, by decide⟩

/-- The pool is made anew while a key is reserved. -/
theorem sameIndex_of_newKeyPool :
  (start (new WalletDB.empty)).Sound sampleWalletLibrary
    ∧ ∃ calls, (generatedKeys sampleWalletLibrary
      (run (step sampleWalletLibrary) (start (new WalletDB.empty)) calls).wallet).Nodup
      ∧ ∃ i j nIndex, i ≠ j
        ∧ ((run (step sampleWalletLibrary) (start (new WalletDB.empty)) calls).reserved i).nIndex
          = some nIndex
        ∧ ((run (step sampleWalletLibrary) (start (new WalletDB.empty)) calls).reserved j).nIndex
          = some nIndex
  := by
  refine ⟨sound_start_new _, [.getReservedKey 0 1 (sampleKeys 0), .newKeyPool 1 (sampleKeys 10),
    .getReservedKey 1 1 (sampleKeys 20)], ?_, 0, 1, 1, by decide, ?_, ?_⟩
  · decide +kernel
  · decide
  · decide +kernel

end Reserving

end CWallet

end CorgiCoin
