import CorgiCoin.WalletKeys

/-!
# Which passphrases unlock a wallet

A passphrase unlocks a wallet when it opens one of the stored master keys, in one of the ways of
deriving a key, to a master key that the key store takes.  The key store takes the one that its keys
are encrypted with, or any where there is no crypted key.
-/

namespace CorgiCoin

open Std Codec Transition TreeMap

namespace CWallet

variable (library : WalletLibrary)

/-! ## What is opened -/

/-- The key store takes a master key. -/
def accepts (w : CWallet) (vMasterKey : Bytes) : Bool :=
  w.setCrypted.2 && w.mapCryptedKeys.toList.head?.all fun entry =>
    opensKey library vMasterKey entry.2.1 entry.2.2

/-- The master key that a passphrase opens in one of some ways, if the key store takes it. -/
def openedBy (w : CWallet) (strWalletPassphrase : Bytes) (kMasterKey : CMasterKey)
    (nMethods : List ℕ) : Option Bytes :=
  nMethods.findSome? fun nMethod =>
    (openMasterKey library strWalletPassphrase kMasterKey nMethod).filter (w.accepts library)

/-- The first master key of a list that is opened, each in some ways, with its record. -/
def openedFrom (w : CWallet) (strWalletPassphrase : Bytes) (ways : ℕ × CMasterKey → List ℕ)
    (kMasterKeys : List (ℕ × CMasterKey)) : Option ((ℕ × CMasterKey) × Bytes) :=
  kMasterKeys.findSome? fun item =>
    (w.openedBy library strWalletPassphrase item.2 (ways item)).map fun vMasterKey =>
      (item, vMasterKey)

/-- The wallet with a master key, which encrypts the keys that are left. -/
def withMasterKey (w : CWallet) (vMasterKey : Bytes) : CWallet :=
  { w with vMasterKey := vMasterKey }.encryptLeftoverPlaintextKeys library

/-- A passphrase unlocks the wallet once it is locked. -/
def unlocks (w : CWallet) (strWalletPassphrase : Bytes) : Bool :=
  (w.lock.unlock library strWalletPassphrase).2

variable {library} {w : CWallet}

theorem setCrypted_of_fUseCrypto (h : w.fUseCrypto = true) : w.setCrypted = (w, true) := by
  rw [setCrypted, if_pos h]

theorem lock_of_fUseCrypto (h : w.fUseCrypto = true) : w.lock = { w with vMasterKey := [] } := by
  rw [lock, setCrypted_of_fUseCrypto h]

/-- A wallet with plaintext keys cannot be locked. -/
theorem lock_of_keys (h : w.fUseCrypto = false) (hkeys : w.mapKeys.isEmpty = false) :
  w.lock = w ∧ w.setCrypted = (w, false)
  := by
  have hset : w.setCrypted = (w, false) := by
    rw [setCrypted, h, if_neg Bool.false_ne_true, hkeys]
    rfl
  rw [lock, hset]
  exact ⟨rfl, rfl⟩

/-- A wallet without keys is an encrypted one once it is locked. -/
theorem lock_of_no_keys (h : w.fUseCrypto = false) (hkeys : w.mapKeys.isEmpty = true) :
  w.lock = { w with fUseCrypto := true, vMasterKey := [] }
  := by
  have hset : w.setCrypted = ({ w with fUseCrypto := true }, true) := by
    rw [setCrypted, h, if_neg Bool.false_ne_true, hkeys]
    rfl
  rw [lock, hset]

/-- Locking a wallet again does not change whether it is encrypted. -/
theorem setCrypted_lock (w : CWallet) : w.lock.setCrypted.1 = w.lock
  := by
  cases hcrypto : w.fUseCrypto with
  | true =>
    have hset := @setCrypted_of_fUseCrypto { w with vMasterKey := [] } hcrypto
    rw [lock_of_fUseCrypto hcrypto, hset]
  | false =>
    cases hkeys : w.mapKeys.isEmpty with
    | true =>
      have hset := @setCrypted_of_fUseCrypto { w with fUseCrypto := true, vMasterKey := [] } rfl
      rw [lock_of_no_keys hcrypto hkeys, hset]
    | false =>
      obtain ⟨hlock, hset⟩ := lock_of_keys hcrypto hkeys
      rw [hlock, hset]

theorem unlockStore_eq (hset : w.setCrypted.1 = w) (v : Bytes) :
  w.unlockStore library v
    = (if w.accepts library v then { w with vMasterKey := v } else w, w.accepts library v)
  := by
  rcases hcrypted : w.setCrypted with ⟨w', _ | _⟩
  · rw [hcrypted] at hset
    subst hset
    rw [accepts, unlockStore, hcrypted]
    rfl
  · rw [hcrypted] at hset
    subst hset
    rw [accepts, unlockStore, hcrypted, Bool.true_and]
    dsimp only
    split
    · next hhead =>
      rw [hhead]
      rfl
    · next id vchPubKey vchCryptedSecret hhead =>
      rw [hhead, Option.all_some]
      cases opensKey library v vchPubKey vchCryptedSecret with
      | false => rfl
      | true => rfl

theorem openedBy_cons
    (strWalletPassphrase : Bytes) (kMasterKey : CMasterKey) (nMethod : ℕ) (nMethods : List ℕ) :
  w.openedBy library strWalletPassphrase kMasterKey (nMethod :: nMethods)
    = ((openMasterKey library strWalletPassphrase kMasterKey nMethod).filter (w.accepts library)).or
      (w.openedBy library strWalletPassphrase kMasterKey nMethods)
  := by
  rw [openedBy, List.findSome?_cons, openedBy]
  cases (openMasterKey library strWalletPassphrase kMasterKey nMethod).filter (w.accepts library) with
  | none => rfl
  | some v => rfl

theorem unlockWithMethods_eq
    (hset : w.setCrypted.1 = w) (strWalletPassphrase : Bytes) (kMasterKey : CMasterKey)
    (nMethods : List ℕ) :
  w.unlockWithMethods library strWalletPassphrase kMasterKey nMethods
    = (w.openedBy library strWalletPassphrase kMasterKey nMethods).elim (w, none)
      (fun v => (w.withMasterKey library v, some v))
  := by
  induction nMethods with
  | nil => rfl
  | cons nMethod nMethods ih =>
    rw [unlockWithMethods, openedBy_cons]
    cases openMasterKey library strWalletPassphrase kMasterKey nMethod with
    | none => exact ih
    | some v =>
      dsimp only
      rw [unlockStore_eq hset, Option.filter_some]
      cases w.accepts library v with
      | false => exact ih
      | true => rfl

theorem openedFrom_cons
    (strWalletPassphrase : Bytes) (ways : ℕ × CMasterKey → List ℕ) (item : ℕ × CMasterKey)
    (kMasterKeys : List (ℕ × CMasterKey)) :
  w.openedFrom library strWalletPassphrase ways (item :: kMasterKeys)
    = ((w.openedBy library strWalletPassphrase item.2 (ways item)).map fun v => (item, v)).or
      (w.openedFrom library strWalletPassphrase ways kMasterKeys)
  := by
  rw [openedFrom, List.findSome?_cons, openedFrom]
  cases (w.openedBy library strWalletPassphrase item.2 (ways item)).map fun v => (item, v) with
  | none => rfl
  | some result => rfl

theorem unlockLoop_eq
    (hset : w.setCrypted.1 = w) (strWalletPassphrase : Bytes) (kMasterKeys : List (ℕ × CMasterKey)) :
  w.unlockLoop library strWalletPassphrase kMasterKeys
    = (w.openedFrom library strWalletPassphrase (fun item => methods item.2) kMasterKeys).elim
      (w, false) (fun result => ((w.withMasterKey library result.2).decryptHDSeed library result.2, true))
  := by
  induction kMasterKeys with
  | nil => rfl
  | cons item kMasterKeys ih =>
    rw [unlockLoop, unlockWithMasterKey, unlockWithMethods_eq hset, openedFrom_cons]
    cases w.openedBy library strWalletPassphrase item.2 (methods item.2) with
    | none => exact ih
    | some v => rfl

theorem openedFrom_eq_some
    {strWalletPassphrase : Bytes} {ways : ℕ × CMasterKey → List ℕ}
    {kMasterKeys : List (ℕ × CMasterKey)} {item : ℕ × CMasterKey} {v : Bytes}
    (h : w.openedFrom library strWalletPassphrase ways kMasterKeys = some (item, v)) :
  item ∈ kMasterKeys ∧ ∃ nMethod ∈ ways item,
    openMasterKey library strWalletPassphrase item.2 nMethod = some v ∧ w.accepts library v = true
  := by
  obtain ⟨item', hitem, h⟩ := List.exists_of_findSome?_eq_some h
  obtain ⟨v', hopened, heq⟩ := Option.map_eq_some_iff.mp h
  cases heq
  obtain ⟨nMethod, hmethod, hfilter⟩ := List.exists_of_findSome?_eq_some hopened
  obtain ⟨hopen, haccepts⟩ := Option.filter_eq_some_iff.mp hfilter
  exact ⟨hitem, nMethod, hmethod, hopen, haccepts⟩

theorem isSome_openedFrom_iff
    {strWalletPassphrase : Bytes} {ways : ℕ × CMasterKey → List ℕ}
    {kMasterKeys : List (ℕ × CMasterKey)} :
  (w.openedFrom library strWalletPassphrase ways kMasterKeys).isSome = true
    ↔ ∃ item ∈ kMasterKeys, ∃ nMethod ∈ ways item, ∃ v,
        openMasterKey library strWalletPassphrase item.2 nMethod = some v
          ∧ w.accepts library v = true
  := by
  constructor
  · intro h
    obtain ⟨⟨item, v⟩, hopened⟩ := Option.isSome_iff_exists.mp h
    obtain ⟨hitem, nMethod, hmethod, hopen⟩ := openedFrom_eq_some hopened
    exact ⟨item, hitem, nMethod, hmethod, v, hopen⟩
  · rintro ⟨item, hitem, nMethod, hmethod, v, hopen, haccepts⟩
    apply List.findSome?_isSome_iff.mpr
    refine ⟨item, hitem, ?_⟩
    rw [Option.isSome_map]
    apply List.findSome?_isSome_iff.mpr
    refine ⟨nMethod, hmethod, ?_⟩
    rw [hopen, Option.filter_some, if_pos haccepts]
    rfl

/-- A wallet that can be locked is unlocked by the passphrases that open one of its master keys. -/
theorem unlocks_iff (hlocked : w.lock.isLocked = true) {strWalletPassphrase : Bytes} :
  w.unlocks library strWalletPassphrase = true
    ↔ ∃ item ∈ w.lock.mapMasterKeys.toList, ∃ nMethod ∈ methods item.2, ∃ v,
        openMasterKey library strWalletPassphrase item.2 nMethod = some v
          ∧ w.lock.accepts library v = true
  := by
  rw [unlocks, unlock, hlocked, Bool.not_true, if_neg Bool.false_ne_true,
    unlockLoop_eq (setCrypted_lock w), ← isSome_openedFrom_iff]
  cases w.lock.openedFrom library strWalletPassphrase (fun item => methods item.2)
    w.lock.mapMasterKeys.toList with
  | none => simp
  | some result => simp

/-! ## The master keys and their records -/

/-- The master keys and their records are the same. -/
structure SameMasterKeys (w w' : CWallet) : Prop where
  mapMasterKeys : w'.mapMasterKeys = w.mapMasterKeys
  mkey : w'.db.mkey = w.db.mkey

theorem SameMasterKeys.refl (w : CWallet) : SameMasterKeys w w := ⟨rfl, rfl⟩

theorem SameMasterKeys.trans {w w' w'' : CWallet} (h : SameMasterKeys w w')
    (h' : SameMasterKeys w' w'') :
  SameMasterKeys w w''
  := ⟨h'.mapMasterKeys.trans h.mapMasterKeys, h'.mkey.trans h.mkey⟩

theorem sameMasterKeys_setCrypted (w : CWallet) : SameMasterKeys w w.setCrypted.1
  := by
  rw [setCrypted]
  split_ifs
  · apply SameMasterKeys.refl
  · apply SameMasterKeys.refl
  · exact ⟨rfl, rfl⟩

theorem sameMasterKeys_lock (w : CWallet) : SameMasterKeys w w.lock
  := by
  have hset := sameMasterKeys_setCrypted w
  rw [lock]
  rcases hcrypted : w.setCrypted with ⟨w', _ | _⟩
  · rw [hcrypted] at hset
    apply hset
  · rw [hcrypted] at hset
    exact ⟨hset.mapMasterKeys, hset.mkey⟩

theorem mkey_writeCryptedKey {db db' : WalletDB} {vchPubKey : CPubKey} {vchCryptedSecret : Bytes}
    (h : db.writeCryptedKey vchPubKey vchCryptedSecret = some db') :
  db'.mkey = db.mkey
  := by
  rw [WalletDB.writeCryptedKey] at h
  split_ifs at h
  cases h
  rfl

theorem sameMasterKeys_addCryptedKey (w : CWallet) (vchPubKey vchCryptedSecret : Bytes) :
  SameMasterKeys w (w.addCryptedKey library vchPubKey vchCryptedSecret).1
  := by
  have hset := sameMasterKeys_setCrypted w
  rw [addCryptedKey, addCryptedKeyToStore]
  rcases hcrypted : w.setCrypted with ⟨w', _ | _⟩
  · rw [hcrypted] at hset
    apply hset
  · rw [hcrypted] at hset
    dsimp only
    split
    · exact ⟨hset.mapMasterKeys, hset.mkey⟩
    · next db hwrite => exact ⟨hset.mapMasterKeys, (mkey_writeCryptedKey hwrite).trans hset.mkey⟩

theorem sameMasterKeys_addKey (w : CWallet) (key : CKey) :
  SameMasterKeys w (w.addKey library key).1
  := by
  rw [addKey]
  dsimp only
  split_ifs
  · split
    · exact ⟨rfl, rfl⟩
    · next db hwrite =>
      rw [WalletDB.writeKey] at hwrite
      split_ifs at hwrite
      cases hwrite
      exact ⟨rfl, rfl⟩
  · apply SameMasterKeys.refl
  · split
    · apply SameMasterKeys.refl
    · next vchCryptedSecret _ =>
      have hadd := @sameMasterKeys_addCryptedKey library { w with vAdded := key :: w.vAdded }
        (key.getPubKey library.toKeyLibrary) vchCryptedSecret
      exact ⟨hadd.mapMasterKeys, hadd.mkey⟩

theorem sameMasterKeys_encryptLeftoverKeys (items : List (CKeyID × CKey)) (w : CWallet) :
  SameMasterKeys w (items.foldl (encryptLeftoverKey library) w)
  := by
  induction items generalizing w with
  | nil => apply SameMasterKeys.refl
  | cons item items ih =>
    apply SameMasterKeys.trans _ (ih _)
    have hadd := @sameMasterKeys_addKey library w item.2
    rw [encryptLeftoverKey]
    rcases haddKey : w.addKey library item.2 with ⟨w', _ | _⟩
    · rw [haddKey] at hadd
      exact ⟨hadd.mapMasterKeys, hadd.mkey⟩
    · rw [haddKey] at hadd
      exact hadd

theorem sameMasterKeys_withMasterKey (w : CWallet) (v : Bytes) :
  SameMasterKeys w (w.withMasterKey library v)
  := by
  rw [withMasterKey, encryptLeftoverPlaintextKeys]
  split_ifs
  · exact ⟨rfl, rfl⟩
  · have hkeys := @sameMasterKeys_encryptLeftoverKeys library w.mapUnencryptedKeys.toList
      { w with vMasterKey := v, mapUnencryptedKeys := ∅ }
    exact ⟨hkeys.mapMasterKeys, hkeys.mkey⟩

/-! ### Loading -/

theorem loadKeyRecords_same
    {records : List (CPubKey × ℕ)} {w w' : CWallet}
    (h : records.foldlM (loadKeyRecord library) w = some w') :
  w'.fUseCrypto = w.fUseCrypto ∧ w'.mapMasterKeys = w.mapMasterKeys
  := by
  induction records generalizing w with
  | nil =>
    cases h
    exact ⟨rfl, rfl⟩
  | cons record records ih =>
    rw [List.foldlM_cons] at h
    obtain ⟨w₁, hload, h⟩ := Option.bind_eq_some_iff.mp h
    rw [(ih h).1, (ih h).2]
    rw [loadKeyRecord] at hload
    split_ifs at hload
    cases hload
    rw [loadKey]
    split_ifs
    · exact ⟨rfl, rfl⟩
    · exact ⟨rfl, rfl⟩

theorem mapMasterKeys_loadHD (w : CWallet) (db : WalletDB) :
  (loadHD library w db).mapMasterKeys = w.mapMasterKeys
  := by
  rw [loadHD]
  cases db.hdchain <;> cases db.hdseedid <;> cases db.hdmnemonic <;> cases db.chdmnemonic <;> rfl

theorem mapMasterKeys_load {db : WalletDB} {w : CWallet} (h : load library db = some w) :
  w.mapMasterKeys = db.mkey
  := by
  simp only [load, Option.bind_eq_bind, Option.bind_eq_some_iff, Option.pure_def,
    Option.some.injEq] at h
  obtain ⟨w₁, _, w₂, _, w₃, hwkey, rfl⟩ := h
  rw [mapMasterKeys_loadHD, (loadKeyRecords_same hwkey).2]

/-! ## What a wallet that holds its keys takes -/

section Holding

variable {M : Bytes}

theorem mapMasterKeys_reload (hlibrary : library.Lawful) (h : Holding library M w) :
  (w.reload library).mapMasterKeys = w.db.mkey
  := by
  obtain ⟨w', hload, _, _⟩ := load_spec hlibrary h.sound.length h.sound.valid h.sound.disk
    h.complete.records
  rw [reload, hload]
  apply mapMasterKeys_load hload

/-- The key store takes the master key of its keys. -/
theorem opensKey_crypted
    (hlibrary : library.Lawful) (hlength : M.length = WALLET_CRYPTO_KEY_SIZE) {key : CKey}
    (hvalid : key.Valid) :
  opensKey library M (key.getPubKey library.toKeyLibrary) (crypted library M key) = true
  := by
  rw [opensKey, decryptSecret_crypted hlibrary hlength]
  dsimp only
  rw [if_neg (not_not_intro (length_getSecret key)), key?_setPubKey_setSecret hlibrary hvalid]
  simp

theorem accepts_iff
    (hlibrary : library.Lawful) (h : Holding library M w) (hcrypto : w.fUseCrypto = true) (v : Bytes) :
  w.accepts library v = true ↔ v = M ∨ w.mapCryptedKeys = ∅
  := by
  rw [accepts, setCrypted_of_fUseCrypto hcrypto, Bool.true_and]
  cases hhead : w.mapCryptedKeys.toList.head? with
  | none =>
    rw [List.head?_eq_none_iff, ExtTreeMap.toList_eq_nil_iff] at hhead
    exact iff_of_true rfl (.inr hhead)
  | some entry =>
    obtain ⟨id, vchPubKey, vchCryptedSecret⟩ := entry
    have hmem := List.mem_of_head? hhead
    have hget := ExtTreeMap.mem_toList_iff_getElem?_eq_some.mp hmem
    obtain ⟨key, hkey, _, rfl, rfl⟩ := h.sound.memory.crypted _ _ _ hget
    have hvalid := h.sound.valid key hkey
    rw [Option.all_some]
    constructor
    · intro hopens
      exact .inl (eq_of_opensKey hlibrary hvalid h.sound.length hopens)
    · rintro (rfl | hempty)
      · apply opensKey_crypted hlibrary h.sound.length hvalid
      · rw [hempty] at hmem
        simp at hmem

/-- A wallet with the master key that its key store takes has all its keys encrypted with it. -/
theorem holding_withMasterKey
    (h : Holding library M w) (hcrypto : w.fUseCrypto = true) {v : Bytes}
    (hlength : v.length = WALLET_CRYPTO_KEY_SIZE) (hv : v = M ∨ w.mapCryptedKeys = ∅) :
  Holding library v (w.withMasterKey library v)
    ∧ (w.withMasterKey library v).fUseCrypto = true
    ∧ (w.withMasterKey library v).vMasterKey = v
    ∧ ∀ key, key ∈ (w.withMasterKey library v).vAdded → key ∈ w.vAdded
  := by
  have hunlocked : Unlocked library v w.vAdded { w with vMasterKey := v } :=
    ⟨h.sound.setMasterKey hcrypto hlength hv, hcrypto, rfl⟩
  obtain ⟨hholding, huse, hmaster⟩ :=
    holding_encryptLeftoverPlaintextKeys (w := { w with vMasterKey := v }) hunlocked
      (h.complete.crypted hcrypto) h.complete.records (h.complete.closed hcrypto)
  refine ⟨hholding, huse, hmaster, ?_⟩
  intro key
  apply (mem_vAdded_encryptLeftoverPlaintextKeys hunlocked key).mp

end Holding

end CWallet

end CorgiCoin
