import CorgiCoin.WalletKeys

/-!
# The keys of the HD seed

Once the seed of a wallet is set, every key that the wallet generates is the next child of the seed:
through refills and rebuilds of the key pool, encryption, locking, unlocking and restarts.  The
counter of the children is the one in the database.
-/

namespace CorgiCoin

open Std Transition TreeMap

/-- A phrase decrypted with a wrong key is not taken for one, which is what `DecryptHDSeed` relies
on. -/
def WalletLibrary.PhraseSafe (library : WalletLibrary) : Prop :=
  ∀ (vMasterKey vMasterKey' iv mnemonic mnemonic' : Bytes),
    vMasterKey.length = WALLET_CRYPTO_KEY_SIZE → vMasterKey'.length = WALLET_CRYPTO_KEY_SIZE →
    library.decrypt (vMasterKey', iv) (library.encrypt (vMasterKey, iv) mnemonic) = some mnemonic' →
    library.checkMnemonic mnemonic' = true → mnemonic' = mnemonic

namespace CWallet

/-! ## Calls that do not set the seed -/

/-- The call does not set the seed. -/
def Call.KeepsSeed : Call → Prop
  | .setHDSeedFromMnemonic _ => False
  | _ => True

/-- What is kept by changes of the keys and the pool, by generating keys, by encrypting and
decrypting the phrase and by restarts. -/
structure SeedStable (library : WalletLibrary) (P : CWallet → Prop) : Prop where
  onlyKeys : ∀ {w w' : CWallet}, OnlyKeys w w' → P w → P w'
  pool : PoolStable library (fun _ => True) P
  decrypt : ∀ {w : CWallet} (vMasterKeyIn : Bytes), P w → P (w.decryptHDSeed library vMasterKeyIn)
  encrypt : ∀ {w w' : CWallet} {vMasterKey : Bytes}, vMasterKey.length = WALLET_CRYPTO_KEY_SIZE →
    w.encryptHDSeed library vMasterKey = some w' → P w → P w'
  reload : ∀ {w : CWallet}, P w → P (w.reload library)

namespace SeedStable

variable {library : WalletLibrary} {P : CWallet → Prop} {w : CWallet}

theorem unlockLoop
    (h : SeedStable library P) (strWalletPassphrase : Bytes) (kMasterKeys : List (ℕ × CMasterKey))
    (hw : P w) :
  P (w.unlockLoop library strWalletPassphrase kMasterKeys).1
  := by
  induction kMasterKeys generalizing w with
  | nil => exact hw
  | cons item kMasterKeys ih =>
    obtain ⟨nID, kMasterKey⟩ := item
    have hunlock := h.onlyKeys
      (@onlyKeys_unlockWithMasterKey library w strWalletPassphrase kMasterKey) hw
    rw [CWallet.unlockLoop]
    rcases hresult : w.unlockWithMasterKey library strWalletPassphrase kMasterKey
      with ⟨w', _ | vMasterKey⟩
    · rw [hresult] at hunlock
      exact ih hunlock
    · rw [hresult] at hunlock
      exact h.decrypt vMasterKey hunlock

theorem unlock (h : SeedStable library P) (strWalletPassphrase : Bytes) (hw : P w) :
  P (w.unlock library strWalletPassphrase).1
  := by
  rw [CWallet.unlock]
  split_ifs
  · exact hw
  · exact h.unlockLoop strWalletPassphrase _ hw

theorem rebuildPool
    (h : SeedStable library P) (strWalletPassphrase : Bytes) (nKeys : ℕ) (rands : ℕ → CKey)
    (hw : P w) :
  P (w.rebuildPool library strWalletPassphrase nKeys rands)
  := by
  have hunlock := h.unlock strWalletPassphrase (h.onlyKeys (onlyKeys_lock w) hw)
  have hpool := @PoolStable.newKeyPool library _ P _ rands h.pool (fun _ => trivial) nKeys hunlock
  exact rebuildPool_of w (fun w' => h.onlyKeys (onlyKeys_lock w')) hpool

theorem encryptWallet
    (h : SeedStable library P) (strWalletPassphrase : Bytes) (input : EncryptInput) (nKeys : ℕ)
    (rands : ℕ → CKey) (hw : P w) :
  P (w.encryptWallet library strWalletPassphrase input nKeys rands)
  := by
  rw [CWallet.encryptWallet]
  split_ifs
  · exact hw
  · cases hsecrets : w.encryptSecrets library strWalletPassphrase input with
    | none => exact h.reload hw
    | some w' =>
      obtain ⟨w₁, honly, hseed⟩ := encryptSecrets_cases hsecrets
      have hencrypted := h.encrypt input.length_vMasterKey hseed (h.onlyKeys honly hw)
      exact h.rebuildPool strWalletPassphrase nKeys rands hencrypted

/-- Every call that does not set the seed keeps what is stable. -/
theorem step (h : SeedStable library P) {call : Call} (hcall : call.KeepsSeed) (hw : P w) :
  P (w.step library call)
  := by
  cases call with
  | addKey key => exact h.onlyKeys (onlyKeys_addKey w key) hw
  | generateNewKey rand => exact h.pool.generate trivial hw
  | newKeyPool nKeys rands => exact h.pool.newKeyPool (fun _ => trivial) nKeys hw
  | topUpKeyPool nKeys rands => exact h.pool.topUpKeyPool (fun _ => trivial) nKeys hw
  | encryptWallet strWalletPassphrase input nKeys rands =>
    exact h.encryptWallet strWalletPassphrase input nKeys _ hw
  | lock => exact h.onlyKeys (onlyKeys_lock w) hw
  | unlock strWalletPassphrase => exact h.unlock strWalletPassphrase hw
  | changeWalletPassphrase strOldWalletPassphrase strNewWalletPassphrase nDeriveIterations =>
    exact h.onlyKeys (onlyKeys_changeWalletPassphrase w _ _ _) hw
  | setHDSeedFromMnemonic mnemonic => exact absurd hcall not_false
  | encryptLeftoverPlaintextKeys => exact h.onlyKeys (onlyKeys_encryptLeftoverPlaintextKeys w) hw
  | reload => exact h.reload hw

theorem run
    (h : SeedStable library P) {calls : List Call} (hcalls : ∀ call ∈ calls, call.KeepsSeed)
    (hw : P w) :
  P (run (CWallet.step library) w calls)
  := by
  induction calls generalizing w with
  | nil => exact hw
  | cons call calls ih =>
    obtain ⟨hcall, hcalls⟩ := List.forall_mem_cons.mp hcalls
    exact ih hcalls (h.step hcall hw)

end SeedStable

/-! ## Loading the seed -/

/-- The HD state of a wallet object before the records about the seed are loaded. -/
structure Unseeded (db : WalletDB) (w : CWallet) : Prop where
  fHDEnabled : w.fHDEnabled = false
  hdMasterKey : w.hdMasterKey = none
  nHDExternalIndex : w.nHDExternalIndex = 0
  strHDMnemonic : w.strHDMnemonic = []
  hdSeedId : w.hdSeedId = 0
  vchCryptedHDMnemonic : w.vchCryptedHDMnemonic = []
  db : w.db = db

variable {library : WalletLibrary} {db : WalletDB} {w w' : CWallet}

theorem Unseeded.of_same (h : Unseeded db w) (honly : OnlyKeys w w') (hdb : w'.db = w.db) :
  Unseeded db w'
  := ⟨honly.fHDEnabled.trans h.fHDEnabled, honly.hdMasterKey.trans h.hdMasterKey,
    honly.nHDExternalIndex.trans h.nHDExternalIndex, honly.strHDMnemonic.trans h.strHDMnemonic,
    honly.hdSeedId.trans h.hdSeedId, honly.vchCryptedHDMnemonic.trans h.vchCryptedHDMnemonic,
    hdb.trans h.db⟩

theorem Unseeded.loadKeyRecords
    {records : List (CPubKey × ℕ)} (hload : records.foldlM (loadKeyRecord library) w = some w')
    (h : Unseeded db w) :
  Unseeded db w'
  := by
  induction records generalizing w with
  | nil =>
    cases hload
    exact h
  | cons record records ih =>
    rw [List.foldlM_cons] at hload
    obtain ⟨w₁, hfirst, hrest⟩ := Option.bind_eq_some_iff.mp hload
    apply ih hrest
    rw [loadKeyRecord] at hfirst
    split_ifs at hfirst
    cases hfirst
    rw [loadKey]
    split_ifs
    · exact h.of_same (OnlyKeys.of_update w (List.Subset.refl _)) rfl
    · exact h.of_same (OnlyKeys.of_update w (List.Subset.refl _)) rfl

theorem Unseeded.loadCryptedRecords
    {records : List (CPubKey × Bytes)} (hload : records.foldlM (loadCryptedKey library) w = some w')
    (h : Unseeded db w) :
  Unseeded db w'
  := by
  induction records generalizing w with
  | nil =>
    cases hload
    exact h
  | cons record records ih =>
    rw [List.foldlM_cons] at hload
    obtain ⟨w₁, hfirst, hrest⟩ := Option.bind_eq_some_iff.mp hload
    apply ih hrest
    have haside : Unseeded db w.putAside := by
      rw [putAside]
      split_ifs
      · exact h.of_same (OnlyKeys.of_update w (List.Subset.refl _)) rfl
      · exact h
    have hset : Unseeded db w.putAside.setCrypted.1 :=
      haside.of_same (onlyKeys_setCrypted _) (setCrypted_maps w.putAside).2.2.2.1
    rw [loadCryptedKey, addCryptedKeyToStore] at hfirst
    rcases hcrypted : w.putAside.setCrypted with ⟨w₂, _ | _⟩
    · rw [hcrypted] at hfirst
      cases hfirst
    · rw [hcrypted] at hfirst hset
      cases hfirst
      exact hset.of_same (OnlyKeys.of_update w₂ (List.Subset.refl _)) rfl

/-- The records about the seed are loaded into a wallet without one. -/
theorem load_seed (hload : load library db = some w) :
  ∃ w₁, Unseeded db w₁ ∧ w = loadHD library w₁ db
  := by
  simp only [load, Option.bind_eq_bind, Option.bind_eq_some_iff] at hload
  obtain ⟨w₁, hkeys, w₂, hcrypted, w₃, hwkeys, hlast⟩ := hload
  cases hlast
  have hnew : Unseeded db (new db) := ⟨rfl, rfl, rfl, rfl, rfl, rfl, rfl⟩
  have h₂ := (hnew.loadKeyRecords hkeys).loadCryptedRecords hcrypted
  have h₃ : Unseeded db w₃ := by
    apply Unseeded.loadKeyRecords hwkeys
    exact ⟨h₂.fHDEnabled, h₂.hdMasterKey, h₂.nHDExternalIndex, h₂.strHDMnemonic, h₂.hdSeedId,
      h₂.vchCryptedHDMnemonic, h₂.db⟩
  exact ⟨{ w₃ with vchDefaultKey := db.defaultkey }, ⟨h₃.fHDEnabled, h₃.hdMasterKey,
    h₃.nHDExternalIndex, h₃.strHDMnemonic, h₃.hdSeedId, h₃.vchCryptedHDMnemonic, h₃.db⟩, rfl⟩

/-- The HD state after the records about the seed are loaded. -/
structure SeedLoaded (library : WalletLibrary) (db : WalletDB) (w : CWallet) : Prop where
  fHDEnabled : w.fHDEnabled = (db.hdseedid.isSome || db.hdmnemonic.isSome || db.chdmnemonic.isSome)
  hdMasterKey : w.hdMasterKey = db.hdmnemonic.map (hdMaster library)
  nHDExternalIndex : w.nHDExternalIndex = db.hdchain.getD 0
  strHDMnemonic : w.strHDMnemonic = db.hdmnemonic.getD []
  hdSeedId : w.hdSeedId = (db.hdmnemonic.map (hdSeedOf library)).getD (db.hdseedid.getD 0)
  vchCryptedHDMnemonic : w.vchCryptedHDMnemonic = db.chdmnemonic.getD []
  db : w.db = db

theorem seedLoaded_of_load (hload : load library db = some w) :
  SeedLoaded library db w
  := by
  obtain ⟨w₁, h, rfl⟩ := load_seed hload
  rw [loadHD]
  rcases hchain : db.hdchain with _ | nExternalIndex <;> rcases hid : db.hdseedid with _ | id <;>
    rcases hplain : db.hdmnemonic with _ | mnemonic <;> rcases hct : db.chdmnemonic with _ | ct <;>
    constructor <;> simp [hchain, hid, hplain, hct, h.fHDEnabled, h.hdMasterKey, h.nHDExternalIndex,
      h.strHDMnemonic, h.hdSeedId, h.vchCryptedHDMnemonic, h.db, loadHDMnemonic]

/-! ## The children of a seed -/

/-- A phrase encrypted with some master key. -/
def CryptedPhrase (library : WalletLibrary) (mnemonic ct : Bytes) : Prop :=
  ∃ vMasterKey : Bytes, vMasterKey.length = WALLET_CRYPTO_KEY_SIZE
    ∧ ct = library.encrypt
      (vMasterKey, serializeUint256 (hdSeedIV (hdSeedOf library mnemonic))) mnemonic

/-- The child of a phrase that is generated as the `i`-th key. -/
def childOf (library : WalletLibrary) (mnemonic : Bytes) (i : ℕ) : Option CKey :=
  deriveHDChild library.toKeyLibrary (hdMaster library mnemonic) (UInt32.ofNat i)

/-- The wallet, after its seed was set to a phrase, has generated some children of the phrase. -/
structure Seeded (library : WalletLibrary) (mnemonic : Bytes) (before keys : List CKey) (w : CWallet) :
    Prop where
  fHDEnabled : w.fHDEnabled = true
  hdMasterKey : w.hdMasterKey = none ∨ w.hdMasterKey = some (hdMaster library mnemonic)
  strHDMnemonic : w.strHDMnemonic = [] ∨ w.strHDMnemonic = mnemonic
  hdSeedId : w.hdSeedId = hdSeedOf library mnemonic
  vchCryptedHDMnemonic : w.vchCryptedHDMnemonic = []
    ∨ CryptedPhrase library mnemonic w.vchCryptedHDMnemonic
  hdseedid : w.db.hdseedid = some (hdSeedOf library mnemonic)
  hdmnemonic : w.db.hdmnemonic = none ∨ w.db.hdmnemonic = some mnemonic
  chdmnemonic : ∀ ct ∈ w.db.chdmnemonic, CryptedPhrase library mnemonic ct
  vGenerated : w.vGenerated = before ++ keys
  children : keys.map some = (List.range keys.length).map (childOf library mnemonic)
  nHDExternalIndex : w.nHDExternalIndex = UInt32.ofNat keys.length
  hdchain : w.db.hdchain = some (UInt32.ofNat keys.length)

variable {mnemonic : Bytes} {before keys : List CKey}

theorem Seeded.of_onlyKeys (h : Seeded library mnemonic before keys w) (honly : OnlyKeys w w') :
  Seeded library mnemonic before keys w'
  := by
  constructor
  · exact honly.fHDEnabled.trans h.fHDEnabled
  · rw [honly.hdMasterKey]
    exact h.hdMasterKey
  · rw [honly.strHDMnemonic]
    exact h.strHDMnemonic
  · exact honly.hdSeedId.trans h.hdSeedId
  · rw [honly.vchCryptedHDMnemonic]
    exact h.vchCryptedHDMnemonic
  · exact honly.hdseedid.trans h.hdseedid
  · rw [honly.hdmnemonic]
    exact h.hdmnemonic
  · rw [honly.chdmnemonic]
    exact h.chdmnemonic
  · exact honly.vGenerated.trans h.vGenerated
  · exact h.children
  · exact honly.nHDExternalIndex.trans h.nHDExternalIndex
  · exact honly.hdchain.trans h.hdchain

/-- The phrase comes back into memory. -/
theorem Seeded.loadHDMnemonic (h : Seeded library mnemonic before keys w) :
  Seeded library mnemonic before keys (w.loadHDMnemonic library mnemonic)
  := ⟨rfl, .inr rfl, .inr rfl, rfl, h.vchCryptedHDMnemonic, h.hdseedid, h.hdmnemonic, h.chdmnemonic,
    h.vGenerated, h.children, h.nHDExternalIndex, h.hdchain⟩

theorem Seeded.decryptHDSeed
    (hsafe : library.PhraseSafe) (h : Seeded library mnemonic before keys w) (vMasterKeyIn : Bytes) :
  Seeded library mnemonic before keys (w.decryptHDSeed library vMasterKeyIn)
  := by
  rw [CWallet.decryptHDSeed]
  split_ifs with hempty
  · exact h
  · split
    · exact h
    · rename_i mnemonic' hdecrypt
      split_ifs with hcheck
      · exact h
      · rw [Bool.not_eq_true', Bool.not_eq_false] at hcheck
        rw [decryptSecret, h.hdSeedId] at hdecrypt
        split_ifs at hdecrypt with hlength
        rcases h.vchCryptedHDMnemonic with hnone | ⟨vMasterKey, hlength', hct⟩
        · rw [hnone] at hempty
          exact absurd rfl hempty
        · rw [hct] at hdecrypt
          rw [hsafe vMasterKey vMasterKeyIn _ mnemonic mnemonic' hlength' (not_not.mp hlength) hdecrypt
            hcheck]
          exact h.loadHDMnemonic

theorem Seeded.encryptHDSeed
    {vMasterKey : Bytes} (hlength : vMasterKey.length = WALLET_CRYPTO_KEY_SIZE)
    (hencrypt : w.encryptHDSeed library vMasterKey = some w')
    (h : Seeded library mnemonic before keys w) :
  Seeded library mnemonic before keys w'
  := by
  rw [CWallet.encryptHDSeed] at hencrypt
  split_ifs at hencrypt with hphrase
  · rw [encryptSecret, if_neg (not_not.mpr hlength), h.hdSeedId] at hencrypt
    cases hencrypt
    have hmnemonic : w.strHDMnemonic = mnemonic := by
      apply h.strHDMnemonic.resolve_left
      intro hnone
      rw [hnone, Bool.and_eq_true] at hphrase
      cases hphrase.2
    have hct : CryptedPhrase library mnemonic (library.encrypt
        (vMasterKey, serializeUint256 (hdSeedIV (hdSeedOf library mnemonic))) w.strHDMnemonic) := by
      rw [hmnemonic]
      exact ⟨vMasterKey, hlength, rfl⟩
    refine ⟨h.fHDEnabled, h.hdMasterKey, h.strHDMnemonic, rfl, .inr hct, h.hdseedid, .inl rfl, ?_,
       h.vGenerated, h.children, h.nHDExternalIndex, h.hdchain⟩
    intro ct hmem
    cases hmem
    exact hct
  · cases hencrypt
    exact h

theorem Seeded.reload (h : Seeded library mnemonic before keys w) :
  Seeded library mnemonic before keys (w.reload library)
  := by
  rw [CWallet.reload]
  cases hload : load library w.db with
  | none => exact h
  | some w' =>
    have hloaded := seedLoaded_of_load hload
    refine ⟨?_, ?_, ?_, ?_, ?_, ?_, ?_, ?_, h.vGenerated, h.children, ?_, ?_⟩
    · rw [hloaded.fHDEnabled, h.hdseedid]
      rfl
    · rw [hloaded.hdMasterKey]
      rcases h.hdmnemonic with hrecord | hrecord
      · exact .inl (by rw [hrecord, Option.map_none])
      · exact .inr (by rw [hrecord, Option.map_some])
    · rw [hloaded.strHDMnemonic]
      rcases h.hdmnemonic with hrecord | hrecord
      · exact .inl (by rw [hrecord, Option.getD_none])
      · exact .inr (by rw [hrecord, Option.getD_some])
    · rw [hloaded.hdSeedId, h.hdseedid]
      rcases h.hdmnemonic with hrecord | hrecord
      · rw [hrecord]
        rfl
      · rw [hrecord]
        rfl
    · rw [hloaded.vchCryptedHDMnemonic]
      cases hct : w.db.chdmnemonic with
      | none => exact .inl rfl
      | some ct => exact .inr (h.chdmnemonic ct hct)
    · rw [hloaded.db]
      exact h.hdseedid
    · rw [hloaded.db]
      exact h.hdmnemonic
    · rw [hloaded.db]
      exact h.chdmnemonic
    · rw [hloaded.nHDExternalIndex, h.hdchain, Option.getD_some]
    · rw [hloaded.db]
      exact h.hdchain

theorem Seeded.generateNewKey (h : Seeded library mnemonic before keys w) (rand : CKey) :
  ∃ keys', Seeded library mnemonic before keys' (w.generateNewKey library rand).1
  := by
  rcases @generateNewKey_cases library w rand with ⟨honly, -⟩ | ⟨key, w', hnext, hadd, hresult⟩
  · exact ⟨keys, h.of_onlyKeys honly⟩
  · have honly := @onlyKeys_addKey library w key
    rw [hadd] at honly
    have h' := h.of_onlyKeys honly
    -- the other branch is for wallets without a seed, since nothing is added to a locked wallet
    have hlocked : w.isLocked = false := by
      by_contra hlocked
      rw [Bool.not_eq_false] at hlocked
      rw [addKey_locked hlocked] at hadd
      cases hadd
    have hhd : (w.fHDEnabled && !w.isLocked) = true := by rw [h.fHDEnabled, hlocked]; rfl
    have hchild : childOf library mnemonic keys.length = some key := by
      rw [nextKey, if_pos hhd] at hnext
      rcases h.hdMasterKey with hnone | hmaster
      · rw [hnone] at hnext
        cases hnext
      · rw [hmaster, h.nHDExternalIndex] at hnext
        exact hnext
    rw [hresult, hhd]
    refine ⟨keys ++ [key], h'.fHDEnabled, h'.hdMasterKey, h'.strHDMnemonic, h'.hdSeedId,
      h'.vchCryptedHDMnemonic, h'.hdseedid, h'.hdmnemonic, h'.chdmnemonic, ?_, ?_, ?_, ?_⟩
    · have hgenerated : w'.vGenerated = before ++ keys := h'.vGenerated
      rw [countKey, ← List.append_assoc, ← hgenerated]
    · rw [List.map_append, List.length_append, List.length_singleton, List.range_succ,
        List.map_append, h.children, List.map_singleton, List.map_singleton, hchild]
    · rw [List.length_append, List.length_singleton, UInt32.ofNat_add, ← h'.nHDExternalIndex]
      rfl
    · rw [List.length_append, List.length_singleton, UInt32.ofNat_add, ← h'.nHDExternalIndex]
      rfl

/-- Whatever is done to a wallet with a seed, it has generated children of the seed only. -/
theorem seedStable_seeded (hsafe : library.PhraseSafe) (mnemonic : Bytes) (before : List CKey) :
  SeedStable library (fun w => ∃ keys, Seeded library mnemonic before keys w)
  := by
  refine ⟨?_, ⟨?_, ?_⟩, ?_, ?_, ?_⟩
  · rintro w w' honly ⟨keys, h⟩
    exact ⟨keys, h.of_onlyKeys honly⟩
  · rintro w rand - ⟨keys, h⟩
    exact h.generateNewKey rand
  · rintro w setKeyPool pool ⟨keys, h⟩
    exact ⟨keys, h.fHDEnabled, h.hdMasterKey, h.strHDMnemonic, h.hdSeedId, h.vchCryptedHDMnemonic,
      h.hdseedid, h.hdmnemonic, h.chdmnemonic, h.vGenerated, h.children, h.nHDExternalIndex,
      h.hdchain⟩
  · rintro w vMasterKeyIn ⟨keys, h⟩
    exact ⟨keys, h.decryptHDSeed hsafe vMasterKeyIn⟩
  · rintro w w' vMasterKey hlength hencrypt ⟨keys, h⟩
    exact ⟨keys, h.encryptHDSeed hlength hencrypt⟩
  · rintro w ⟨keys, h⟩
    exact ⟨keys, h.reload⟩

/-- A wallet that does not have an encrypted seed. -/
structure NoCryptedSeed (w : CWallet) : Prop where
  vchCryptedHDMnemonic : w.vchCryptedHDMnemonic = []
  chdmnemonic : w.db.chdmnemonic = none

theorem seeded_setHDSeedFromMnemonic
    (h : NoCryptedSeed w) (hset : w.setHDSeedFromMnemonic library mnemonic = (w', true)) :
  Seeded library mnemonic w.vGenerated [] w'
  := by
  rw [setHDSeedFromMnemonic] at hset
  split_ifs at hset with hcheck hlocked
  · cases hset
  · cases hset
  · rw [writeHDSeed] at hset
    split_ifs at hset with hcrypto
    · rw [encryptSecret] at hset
      split_ifs at hset with hlength
      · cases hset
      · cases hset
        have hct : CryptedPhrase library mnemonic (library.encrypt
            (w.vMasterKey, serializeUint256 (hdSeedIV (hdSeedOf library mnemonic))) mnemonic) :=
          ⟨w.vMasterKey, not_not.mp hlength, rfl⟩
        refine ⟨rfl, .inr rfl, .inr rfl, rfl, .inr hct, rfl, .inl rfl, ?_,
          (List.append_nil _).symm, rfl, rfl, rfl⟩
        intro ct hmem
        cases hmem
        exact hct
    · cases hset
      refine ⟨rfl, .inr rfl, .inr rfl, rfl, .inl h.vchCryptedHDMnemonic, rfl, .inr rfl, ?_,
        (List.append_nil _).symm, rfl, rfl, rfl⟩
      intro ct hmem
      have hnone : (startHDSeed library w mnemonic).db.chdmnemonic = none := h.chdmnemonic
      rw [hnone] at hmem
      cases hmem

/-- Children of one phrase are the same keys. -/
theorem eq_of_children
    {keys keys' : List CKey}
    (h : keys.map some = (List.range keys.length).map (childOf library mnemonic))
    (h' : keys'.map some = (List.range keys'.length).map (childOf library mnemonic))
    (hlength : keys'.length = keys.length) :
  keys' = keys
  := by
  rw [hlength, ← h] at h'
  exact List.map_injective_iff.mpr (Option.some_injective CKey) h'

/-- The keys that a wallet generates after its seed is set are the children of the seed in their
order, as long as the counter does not run over; any other wallet with the same phrase that
generates as many keys generates the same ones. -/
theorem generated_eq_children
    (hsafe : library.PhraseSafe) (h : NoCryptedSeed w)
    (hset : w.setHDSeedFromMnemonic library mnemonic = (w', true)) {calls : List Call}
    (hcalls : ∀ call ∈ calls, call.KeepsSeed)
    (hfew : (run (step library) w' calls).vGenerated.length < w.vGenerated.length + 2 ^ 32) :
  ∃ keys, (run (step library) w' calls).vGenerated = w.vGenerated ++ keys
    ∧ keys.map some
      = (List.range (run (step library) w' calls).nHDExternalIndex.toNat).map
        (fun i => deriveHDChild library.toKeyLibrary (hdMaster library mnemonic) (UInt32.ofNat i))
    ∧ (run (step library) w' calls).db.hdchain
      = some (run (step library) w' calls).nHDExternalIndex
    ∧ ∀ (restored restored' : CWallet) (calls' : List Call), NoCryptedSeed restored →
        restored.setHDSeedFromMnemonic library mnemonic = (restored', true) →
        (∀ call ∈ calls', call.KeepsSeed) →
        (run (step library) restored' calls').vGenerated.length
          = restored.vGenerated.length + keys.length →
        (run (step library) restored' calls').vGenerated = restored.vGenerated ++ keys
  := by
  have hrun : ∀ (start start' : CWallet) (calls : List Call), NoCryptedSeed start →
      start.setHDSeedFromMnemonic library mnemonic = (start', true) →
      (∀ call ∈ calls, call.KeepsSeed) →
      ∃ keys, Seeded library mnemonic start.vGenerated keys (run (step library) start' calls) := by
    intro start start' calls hstart hset hcalls
    exact (seedStable_seeded hsafe mnemonic start.vGenerated).run hcalls
      ⟨[], seeded_setHDSeedFromMnemonic hstart hset⟩
  obtain ⟨keys, hseeded⟩ := hrun w w' calls h hset hcalls
  have hlength : keys.length < 2 ^ 32 := by
    rw [hseeded.vGenerated, List.length_append] at hfew
    omega
  refine ⟨keys, hseeded.vGenerated, ?_, ?_, ?_⟩
  · rw [hseeded.nHDExternalIndex, UInt32.toNat_ofNat', Nat.mod_eq_of_lt hlength]
    exact hseeded.children
  · rw [hseeded.hdchain, hseeded.nHDExternalIndex]
  · intro restored restored' calls' hrestored hset' hcalls' hmany
    obtain ⟨keys', hseeded'⟩ := hrun restored restored' calls' hrestored hset' hcalls'
    rw [hseeded'.vGenerated, List.length_append] at hmany
    rw [hseeded'.vGenerated, eq_of_children hseeded.children hseeded'.children (by omega)]

/-! ### A counter that runs over -/

theorem phraseSafe_sampleWalletLibrary :
  sampleWalletLibrary.PhraseSafe
  := by
  intro vMasterKey vMasterKey' iv mnemonic mnemonic' hlength hlength' hdecrypt _
  simp only [sampleWalletLibrary, List.isPrefixOf_iff_prefix] at hdecrypt
  split_ifs at hdecrypt with hprefix
  have hmaster : vMasterKey' = vMasterKey :=
    (List.prefix_of_prefix_length_le hprefix (List.prefix_append vMasterKey mnemonic)
      (hlength'.trans hlength.symm).le).eq_of_length (hlength'.trans hlength.symm)
  rw [hmaster, List.drop_left] at hdecrypt
  exact (Option.some.inj hdecrypt).symm

/-- The key above the children of a master key. -/
def externalKey (library : KeyLibrary) (master : CExtKey) : Option CExtKey := do
  let a ← master.derive library (44 ||| BIP32_HARDENED)
  let b ← a.derive library (HD_COIN_TYPE ||| BIP32_HARDENED)
  let c ← b.derive library (0 ||| BIP32_HARDENED)
  c.derive library 0

theorem deriveHDChild_eq (library : KeyLibrary) (master : CExtKey) (nIndex : UInt32) :
  deriveHDChild library master nIndex
    = (externalKey library master).bind fun external => (external.derive library nIndex).map (·.key)
  := by
  simp only [deriveHDChild, externalKey, Option.bind_eq_bind, Option.bind_assoc, Option.pure_def,
    Option.map_eq_bind, Function.comp_def]

/-- The children of the phrase `1`. -/
def sampleChild (i : ℕ) : CKey := ⟨6442451094 + i, true⟩

theorem ofBE_writeBE32 (x : UInt32) :
  ofBE (writeBE32 x) = x.toNat
  := by
  have hx := x.toNat_lt
  simp only [ofBE, writeBE32, List.reverse_cons, List.reverse_nil, List.nil_append, List.cons_append,
    Codec.ofLE, UInt32.toNat_toUInt8, UInt32.toNat_shiftRight, UInt32.reduceToNat, Nat.reduceMod,
    Nat.shiftRight_eq_div_pow]
  omega

theorem hmacSha512_sample (key front : Bytes) (x : UInt32) :
  sampleWalletLibrary.hmacSha512 key (front ++ writeBE32 x)
    = toBE32 (x.toNat + 1) ++ List.replicate 32 0
  := by
  have hlast : (front ++ writeBE32 x).drop ((front ++ writeBE32 x).length - 4) = writeBE32 x := by
    rw [List.length_append, writeBE32]
    exact List.drop_left
  simp only [sampleWalletLibrary, hlast, ofBE_writeBE32]

theorem derive_sampleExternal
    {external : CExtKey} (hkey : external.key = ⟨6442451093, true⟩) (x : UInt32) :
  (external.derive sampleWalletLibrary.toKeyLibrary x).map (·.key) = some (sampleChild x.toNat)
  := by
  have hx := x.toNat_lt
  have hlength : (external.key.getPubKey sampleWalletLibrary.toKeyLibrary).length = 33 := by
    rw [hkey]
    decide
  have hsecret : ofBE external.key.getSecret = 6442451093 := by
    rw [hkey]
    decide
  have hil : ofBE (toBE32 (x.toNat + 1)) = x.toNat + 1 := ofBE_toBE32 (by omega)
  have hsum : (x.toNat + 1 + 6442451093) % SECP256K1_ORDER = 6442451094 + x.toNat := by
    rw [SECP256K1_ORDER, Nat.mod_eq_of_lt (by omega)]
    omega
  have hsmall : ¬x.toNat + 1 ≥ SECP256K1_ORDER := by
    rw [SECP256K1_ORDER]
    omega
  have hchild : ofBE (toBE32 (6442451094 + x.toNat)) = 6442451094 + x.toNat :=
    ofBE_toBE32 (by omega)
  simp only [CExtKey.derive, hlength, bne_self_eq_false, Bool.and_false, Bool.false_eq_true, if_false,
    hmacSha512_sample, List.take_left' (length_toBE32 _), hil, hsecret, hsmall, hsum]
  rw [if_neg (by omega), Option.map_some, CKey.setSecret, hchild, sampleChild]

theorem childOf_sample {i : ℕ} (h : i < 2 ^ 32) :
  childOf sampleWalletLibrary [1] i = some (sampleChild i)
  := by
  have hexternal : (externalKey sampleWalletLibrary.toKeyLibrary
      (hdMaster sampleWalletLibrary [1])).map (·.key) = some ⟨6442451093, true⟩ := by decide
  obtain ⟨external, hsome, hkey⟩ := Option.map_eq_some_iff.mp hexternal
  have hchild := derive_sampleExternal hkey (UInt32.ofNat i)
  rw [childOf, deriveHDChild_eq, hsome, Option.bind_some, hchild, UInt32.toNat_ofNat',
    Nat.mod_eq_of_lt h]

theorem getPubKey_sampleChild_injective {i j : ℕ} (hi : i < 2 ^ 32) (hj : j < 2 ^ 32)
    (h : (sampleChild i).getPubKey sampleWalletLibrary.toKeyLibrary
      = (sampleChild j).getPubKey sampleWalletLibrary.toKeyLibrary) :
  i = j
  := by
  have hbytes : toBE32 (6442451094 + i) = toBE32 (6442451094 + j) := by
    simpa [sampleChild, CKey.getPubKey, sampleWalletLibrary] using h
  have hvalue := congrArg ofBE hbytes
  rw [ofBE_toBE32 (by omega), ofBE_toBE32 (by omega)] at hvalue
  omega

/-- A wallet that is not encrypted and has generated the first children. -/
structure Counting (n : ℕ) (w : CWallet) : Prop where
  fUseCrypto : w.fUseCrypto = false
  fHDEnabled : w.fHDEnabled = true
  hdMasterKey : w.hdMasterKey = some (hdMaster sampleWalletLibrary [1])
  nHDExternalIndex : w.nHDExternalIndex = UInt32.ofNat n
  length : w.vGenerated.length = n
  key : ∀ vchPubKey : CPubKey, vchPubKey ∈ w.db.key →
    ∃ i < n, vchPubKey = (sampleChild i).getPubKey sampleWalletLibrary.toKeyLibrary

theorem Counting.generateNewKey {n : ℕ} (hn : n < 2 ^ 32) (h : Counting n w) (rand : CKey) :
  Counting (n + 1) (w.generateNewKey sampleWalletLibrary rand).1
  := by
  have hnext : w.hdMasterKey.bind (fun master =>
      deriveHDChild sampleWalletLibrary.toKeyLibrary master w.nHDExternalIndex)
      = some (sampleChild n) := by
    rw [h.hdMasterKey, h.nHDExternalIndex]
    exact childOf_sample hn
  have hlocked : (w.fHDEnabled && !w.isLocked) = true := by
    rw [h.fHDEnabled, isLocked, h.fUseCrypto]
    rfl
  have hfree : w.db.key.contains
      ((sampleChild n).getPubKey sampleWalletLibrary.toKeyLibrary) = false := by
    by_contra hmem
    rw [Bool.not_eq_false] at hmem
    obtain ⟨i, hi, heq⟩ := h.key _ hmem
    have hsame := getPubKey_sampleChild_injective hn (by omega) heq
    omega
  have hwrite : w.db.writeKey ((sampleChild n).getPubKey sampleWalletLibrary.toKeyLibrary)
      (sampleChild n).secret = some { w.db with
        key := (w.db.key.insert ((sampleChild n).getPubKey sampleWalletLibrary.toKeyLibrary)
          (sampleChild n).secret) } := by
    rw [WalletDB.writeKey, hfree, if_neg Bool.false_ne_true]
  rw [CWallet.generateNewKey, if_pos hlocked, hnext]
  simp only [addKey_plain_eq h.fUseCrypto, hwrite]
  refine ⟨h.fUseCrypto, h.fHDEnabled, h.hdMasterKey, ?_, ?_, ?_⟩
  · rw [UInt32.ofNat_add, ← h.nHDExternalIndex]
    rfl
  · rw [List.length_append, List.length_singleton, ← h.length]
  · intro vchPubKey hmem
    rcases mem_insert_iff.mp hmem with heq | hmem
    · exact ⟨n, Nat.lt_succ_self n, heq.symm⟩
    · obtain ⟨i, hi, heq⟩ := h.key vchPubKey hmem
      exact ⟨i, by omega, heq⟩

theorem Counting.run {n : ℕ} (hn : n ≤ 2 ^ 32) (h : Counting 0 w) (rand : ValidKey) :
  Counting n (Transition.run (step sampleWalletLibrary) w
    (List.replicate n (.generateNewKey rand)))
  := by
  induction n with
  | zero => exact h
  | succ n ih =>
    rw [List.replicate_succ', run_append]
    exact (ih (by omega)).generateNewKey (by omega) rand.1

/-- A new wallet with the phrase `1`. -/
theorem exists_counting :
  ∃ w', (new WalletDB.empty).setHDSeedFromMnemonic sampleWalletLibrary [1] = (w', true)
    ∧ Counting 0 w'
  := by
  refine ⟨_, rfl, rfl, rfl, rfl, rfl, rfl, ?_⟩
  intro vchPubKey hmem
  exact absurd hmem ExtTreeMap.not_mem_empty

/-- The key that a wallet without a seed would generate. -/
def sampleRand : ValidKey := ⟨⟨1, true⟩, by decide, by decide⟩

theorem keepsSeed_replicate (n : ℕ) :
  ∀ call ∈ List.replicate n (Call.generateNewKey sampleRand), Call.KeepsSeed call
  := by
  intro call hmem
  rw [List.eq_of_mem_replicate hmem]
  trivial

theorem firstChildren_generated :
  ∃ w' keys, (new WalletDB.empty).setHDSeedFromMnemonic sampleWalletLibrary [1] = (w', true)
    ∧ (Transition.run (step sampleWalletLibrary) w'
      (List.replicate 3 (.generateNewKey sampleRand))).vGenerated = keys
    ∧ keys.map some = (List.range 3).map (fun i =>
        deriveHDChild sampleWalletLibrary.toKeyLibrary (hdMaster sampleWalletLibrary [1])
          (UInt32.ofNat i))
  := by
  obtain ⟨w', hset, hcounting⟩ := exists_counting
  have hthree := @Counting.run w' 3 (by decide) hcounting sampleRand
  have hfew : (Transition.run (step sampleWalletLibrary) w'
      (List.replicate 3 (.generateNewKey sampleRand))).vGenerated.length
      < (new WalletDB.empty).vGenerated.length + 2 ^ 32 := by
    rw [hthree.length]
    decide
  obtain ⟨keys, hgenerated, hchildren, -⟩ := generated_eq_children phraseSafe_sampleWalletLibrary
    ⟨rfl, rfl⟩ hset (keepsSeed_replicate 3) hfew
  refine ⟨w', keys, hset, hgenerated, ?_⟩
  rw [hchildren, hthree.nHDExternalIndex]
  rfl

/-- After as many keys as there are indices the counter is back at zero, with all of them
generated. -/
theorem fullCounter_not_children :
  ∃ w' calls, (new WalletDB.empty).setHDSeedFromMnemonic sampleWalletLibrary [1] = (w', true)
    ∧ NoCryptedSeed (new WalletDB.empty) ∧ (∀ call ∈ calls, Call.KeepsSeed call)
    ∧ ¬∀ key, key ∈ (Transition.run (step sampleWalletLibrary) w' calls).vGenerated
      ↔ ∃ i < (Transition.run (step sampleWalletLibrary) w' calls).nHDExternalIndex.toNat,
        deriveHDChild sampleWalletLibrary.toKeyLibrary (hdMaster sampleWalletLibrary [1])
          (UInt32.ofNat i) = some key
  := by
  obtain ⟨w', hset, hcounting⟩ := exists_counting
  have hfull := @Counting.run w' (2 ^ 32) le_rfl hcounting sampleRand
  refine ⟨w', List.replicate (2 ^ 32) (.generateNewKey sampleRand), hset, ⟨rfl, rfl⟩,
    keepsSeed_replicate _, ?_⟩
  · intro hall
    generalize Transition.run (step sampleWalletLibrary) w' _ = w at hfull hall
    obtain ⟨key, hkey⟩ : ∃ key, key ∈ w.vGenerated := by
      apply List.exists_mem_of_length_pos
      rw [hfull.length]
      exact Nat.pow_pos (by decide)
    obtain ⟨i, hi, -⟩ := (hall key).mp hkey
    rw [hfull.nHDExternalIndex, UInt32.toNat_ofNat', Nat.mod_self] at hi
    exact Nat.not_lt_zero i hi

end CWallet

end CorgiCoin
