import CorgiCoin.KeyPool
import CorgiCoin.Unlocking
import CorgiCoin.WalletSeed

/-!
# The seed of a locked wallet

`Lock` forgets the master key of a wallet.  The phrase of its seed stays where it is, so that a wallet
which is locked while it holds one is a locked wallet that holds it.
-/

namespace CorgiCoin

open Std Transition TreeMap

/-- No phrase is empty, and nothing is encrypted to nothing. -/
structure WalletLibrary.SeedLawful (library : WalletLibrary) : Prop where
  checkMnemonic_nil : library.checkMnemonic [] = false
  encrypt_ne_nil : ∀ vMasterKey iv plaintext : Bytes, vMasterKey.length = WALLET_CRYPTO_KEY_SIZE →
    library.encrypt (vMasterKey, iv) plaintext ≠ []

namespace CWallet

variable (library : WalletLibrary)

/-- Nothing of the seed is in memory. -/
structure NoSecret (w : CWallet) : Prop where
  strHDMnemonic : w.strHDMnemonic = []
  hdMasterKey : w.hdMasterKey = none

/-- The wallet is not encrypted, and its plaintext keys keep it from being locked. -/
def StaysOpen (w : CWallet) : Prop := w.fUseCrypto = false ∧ w.mapKeys.isEmpty = false

/-- The call does not lock the wallet with a phrase in memory. -/
def Call.SparesSecret (w : CWallet) : Call → Prop
  | .lock => w.NoSecret ∨ w.StaysOpen
  | .changeWalletPassphrase strOldWalletPassphrase _ _ =>
    w.NoSecret ∨ w.StaysOpen ∨ w.fUseCrypto = true ∧ (w.openedFrom library strOldWalletPassphrase
      (fun item => methods item.2) w.mapMasterKeys.toList).isSome = true
  | .encryptWallet _ _ _ _ => w.fUseCrypto = true ∨ w.NoSecret ∧ w.NoCryptedSeed
  | _ => True

/-- The call does not set a seed. -/
def Call.SetsNoSeed (w : CWallet) : Call → Prop
  | .setHDSeedFromMnemonic mnemonic => (w.setHDSeedFromMnemonic library mnemonic).2 = false
  | _ => True

variable {library} {w w' : CWallet} {M : Bytes}

/-! ## Calls that do not lock -/

/-- The wallet is as encrypted and as locked as before, and has all its crypted keys. -/
structure SameLock (w w' : CWallet) : Prop where
  fUseCrypto : w'.fUseCrypto = w.fUseCrypto
  vMasterKey : w'.vMasterKey = w.vMasterKey
  mono : ∀ id, id ∈ w.mapCryptedKeys → id ∈ w'.mapCryptedKeys

theorem SameLock.refl (w : CWallet) : SameLock w w := ⟨rfl, rfl, fun _ hmem => hmem⟩

theorem SameLock.trans {w'' : CWallet} (h : SameLock w w') (h' : SameLock w' w'') : SameLock w w''
  := ⟨h'.fUseCrypto.trans h.fUseCrypto, h'.vMasterKey.trans h.vMasterKey,
    fun id hmem => h'.mono id (h.mono id hmem)⟩

theorem SameLock.isLocked (h : SameLock w w') : w'.isLocked = w.isLocked
  := by rw [CWallet.isLocked, CWallet.isLocked, h.fUseCrypto, h.vMasterKey]

theorem sameLock_addKey (w : CWallet) (key : CKey) : SameLock w (w.addKey library key).1
  := by
  simp only [addKey]
  split_ifs with hplain hlocked
  · cases w.db.writeKey (key.getPubKey library.toKeyLibrary) key.secret with
    | none => exact ⟨rfl, rfl, fun _ hmem => hmem⟩
    | some db => exact ⟨rfl, rfl, fun _ hmem => hmem⟩
  · apply SameLock.refl
  · split
    · apply SameLock.refl
    · next vchCryptedSecret _ =>
      rw [Bool.not_eq_true', Bool.not_eq_false] at hplain
      obtain ⟨_, huse, hmaster, _, _, hmap⟩ :=
        @addCryptedKey_maps library { w with vAdded := key :: w.vAdded } hplain
          (key.getPubKey library.toKeyLibrary) vchCryptedSecret
      refine ⟨huse.trans hplain.symm, hmaster, ?_⟩
      intro id hmem
      rw [hmap]
      exact mem_insert_iff.mpr (.inr hmem)

theorem sameLock_encryptLeftoverKey (w : CWallet) (item : CKeyID × CKey) :
  SameLock w (w.encryptLeftoverKey library item)
  := by
  have hadd := @sameLock_addKey library w item.2
  rw [encryptLeftoverKey]
  rcases hresult : w.addKey library item.2 with ⟨w', _ | _⟩
  · rw [hresult] at hadd
    exact ⟨hadd.fUseCrypto, hadd.vMasterKey, hadd.mono⟩
  · rw [hresult] at hadd
    exact hadd

theorem sameLock_encryptLeftoverKeys (items : List (CKeyID × CKey)) (w : CWallet) :
  SameLock w (items.foldl (encryptLeftoverKey library) w)
  := by
  induction items generalizing w with
  | nil => apply SameLock.refl
  | cons item items ih => exact (sameLock_encryptLeftoverKey w item).trans (ih _)

theorem sameLock_encryptLeftoverPlaintextKeys (w : CWallet) :
  SameLock w (w.encryptLeftoverPlaintextKeys library)
  := by
  rw [encryptLeftoverPlaintextKeys]
  split_ifs
  · apply SameLock.refl
  · obtain ⟨huse, hmaster, hmono⟩ :=
      @sameLock_encryptLeftoverKeys library w.mapUnencryptedKeys.toList { w with mapUnencryptedKeys := ∅ }
    exact ⟨huse, hmaster, hmono⟩

theorem sameLock_generateNewKey (w : CWallet) (rand : CKey) :
  SameLock w (w.generateNewKey library rand).1
  := by
  rw [generateNewKey]
  split_ifs
  · cases hderive : w.hdMasterKey.bind
        (fun master => deriveHDChild library.toKeyLibrary master w.nHDExternalIndex) with
    | none => apply SameLock.refl
    | some key =>
      have hadd := @sameLock_addKey library w key
      simp only
      rcases hresult : w.addKey library key with ⟨w', _ | _⟩
      · rw [hresult] at hadd
        exact hadd
      · rw [hresult] at hadd
        exact ⟨hadd.fUseCrypto, hadd.vMasterKey, hadd.mono⟩
  · have hadd := @sameLock_addKey library w rand
    rcases hresult : w.addKey library rand with ⟨w', _ | _⟩
    · rw [hresult] at hadd
      exact hadd
    · rw [hresult] at hadd
      exact ⟨hadd.fUseCrypto, hadd.vMasterKey, hadd.mono⟩

theorem sameLock_pool (w : CWallet) (setKeyPool : ExtTreeSet ℕ) (pool : ExtTreeMap ℕ CPubKey) :
  SameLock w { w with setKeyPool := setKeyPool, db := { w.db with pool := pool } }
  := ⟨rfl, rfl, fun _ hmem => hmem⟩

/-! ## Calls that leave the seed -/

/-- The seed and its records are the same. -/
structure SameSeed (w w' : CWallet) : Prop where
  fHDEnabled : w'.fHDEnabled = w.fHDEnabled
  hdMasterKey : w'.hdMasterKey = w.hdMasterKey
  strHDMnemonic : w'.strHDMnemonic = w.strHDMnemonic
  hdSeedId : w'.hdSeedId = w.hdSeedId
  vchCryptedHDMnemonic : w'.vchCryptedHDMnemonic = w.vchCryptedHDMnemonic
  hdseedid : w'.db.hdseedid = w.db.hdseedid
  hdmnemonic : w'.db.hdmnemonic = w.db.hdmnemonic
  chdmnemonic : w'.db.chdmnemonic = w.db.chdmnemonic

theorem OnlyKeys.sameSeed (h : OnlyKeys w w') : SameSeed w w'
  := ⟨h.fHDEnabled, h.hdMasterKey, h.strHDMnemonic, h.hdSeedId, h.vchCryptedHDMnemonic, h.hdseedid,
    h.hdmnemonic, h.chdmnemonic⟩

theorem sameSeed_generateNewKey (w : CWallet) (rand : CKey) :
  SameSeed w (w.generateNewKey library rand).1
  := by
  rcases @generateNewKey_cases library w rand with ⟨honly, _⟩ | ⟨key, w', _, hadd, hresult⟩
  · exact honly.sameSeed
  · have honly := @onlyKeys_addKey library w key
    rw [hadd] at honly
    have hseed := honly.sameSeed
    rw [hresult, countKey]
    split_ifs
    · exact ⟨hseed.fHDEnabled, hseed.hdMasterKey, hseed.strHDMnemonic, hseed.hdSeedId,
        hseed.vchCryptedHDMnemonic, hseed.hdseedid, hseed.hdmnemonic, hseed.chdmnemonic⟩
    · exact ⟨hseed.fHDEnabled, hseed.hdMasterKey, hseed.strHDMnemonic, hseed.hdSeedId,
        hseed.vchCryptedHDMnemonic, hseed.hdseedid, hseed.hdmnemonic, hseed.chdmnemonic⟩

theorem sameSeed_pool (w : CWallet) (setKeyPool : ExtTreeSet ℕ) (pool : ExtTreeMap ℕ CPubKey) :
  SameSeed w { w with setKeyPool := setKeyPool, db := { w.db with pool := pool } }
  := ⟨rfl, rfl, rfl, rfl, rfl, rfl, rfl, rfl⟩

theorem NoSecret.of_sameSeed (h : w.NoSecret) (hseed : SameSeed w w') : w'.NoSecret
  := ⟨hseed.strHDMnemonic.trans h.strHDMnemonic, hseed.hdMasterKey.trans h.hdMasterKey⟩

/-! ## What a locked wallet holds -/

/-- A locked wallet holds nothing of the seed, and a wallet with a plaintext phrase on disk is not
encrypted and holds the phrase. -/
structure Guarded (w : CWallet) : Prop where
  locked : w.isLocked = true → w.NoSecret
  plain : w.db.hdmnemonic.isSome = true → w.fUseCrypto = false ∧ w.hdMasterKey.isSome = true

theorem Guarded.of_noSecret (h : w.NoSecret) (hplain : w.db.hdmnemonic = none) : w.Guarded
  := by
  refine ⟨fun _ => h, ?_⟩
  intro hsome
  rw [hplain] at hsome
  cases hsome

theorem Guarded.of_open (h : w.isLocked = false) (hplain : w.db.hdmnemonic = none) : w.Guarded
  := by
  constructor
  · intro hlocked
    rw [h] at hlocked
    cases hlocked
  · intro hsome
    rw [hplain] at hsome
    cases hsome

theorem Guarded.hdmnemonic (h : w.Guarded) (hsecret : w.NoSecret) : w.db.hdmnemonic = none
  := by
  cases hphrase : w.db.hdmnemonic with
  | none => rfl
  | some mnemonic =>
    have hmaster := (h.plain (by rw [hphrase, Option.isSome_some])).2
    rw [hsecret.hdMasterKey] at hmaster
    cases hmaster

theorem Guarded.hdmnemonic_of_fUseCrypto (h : w.Guarded) (hcrypto : w.fUseCrypto = true) :
  w.db.hdmnemonic = none
  := by
  cases hphrase : w.db.hdmnemonic with
  | none => rfl
  | some mnemonic =>
    have hplain := (h.plain (by rw [hphrase, Option.isSome_some])).1
    rw [hcrypto] at hplain
    cases hplain

theorem Guarded.of_same (h : w.Guarded) (hseed : SameSeed w w') (hlock : SameLock w w') : w'.Guarded
  := by
  constructor
  · intro hlocked
    exact (h.locked (hlock.isLocked.symm.trans hlocked)).of_sameSeed hseed
  · rw [hlock.fUseCrypto, hseed.hdMasterKey, hseed.hdmnemonic]
    exact h.plain

/-- A change of a wallet that holds nothing of a seed. -/
theorem Guarded.of_sameSeed (h : w.Guarded) (hsecret : w.NoSecret) (hseed : SameSeed w w') : w'.Guarded
  := Guarded.of_noSecret (hsecret.of_sameSeed hseed) (hseed.hdmnemonic.trans (h.hdmnemonic hsecret))

theorem poolStable_guarded (library : WalletLibrary) : PoolStable library (fun _ => True) Guarded
  := by
  constructor
  · intro w rand _ h
    exact h.of_same (sameSeed_generateNewKey w rand) (sameLock_generateNewKey w rand)
  · intro w setKeyPool pool h
    exact h.of_same (sameSeed_pool w setKeyPool pool) (sameLock_pool w setKeyPool pool)

theorem Guarded.setHDSeedFromMnemonic (h : w.Guarded) (mnemonic : Bytes) :
  (w.setHDSeedFromMnemonic library mnemonic).1.Guarded
  := by
  rw [CWallet.setHDSeedFromMnemonic]
  split_ifs with _ hlocked
  · exact h
  · exact h
  · rw [Bool.and_eq_true, not_and, Bool.not_eq_true] at hlocked
    rw [writeHDSeed]
    split_ifs with hcrypto
    · -- the wallet is encrypted and unlocked, and has no plaintext phrase on disk
      have hrecord := h.hdmnemonic_of_fUseCrypto hcrypto
      split
      · apply Guarded.of_open
        · exact hlocked hcrypto
        · exact hrecord
      · apply Guarded.of_open
        · exact hlocked hcrypto
        · rfl
    · rw [Bool.not_eq_true] at hcrypto
      have hplain : w.fUseCrypto = false := hcrypto
      constructor
      · intro hlocked'
        rw [isLocked, Bool.and_eq_true] at hlocked'
        exact absurd (hplain.symm.trans hlocked'.1) Bool.false_ne_true
      · exact fun _ => ⟨hplain, rfl⟩

/-! ## Locking and unlocking -/

theorem Guarded.lock (h : w.Guarded) (hspares : w.NoSecret ∨ w.StaysOpen) : w.lock.Guarded
  := by
  rcases hspares with hsecret | ⟨hcrypto, hkeys⟩
  · exact h.of_sameSeed hsecret (onlyKeys_lock w).sameSeed
  · rw [(lock_of_keys hcrypto hkeys).1]
    exact h

/-- The wallet once a passphrase has opened a master key. -/
theorem isLocked_withMasterKey
    (hcrypto : w.fUseCrypto = true) {strWalletPassphrase v : Bytes}
    {ways : ℕ × CMasterKey → List ℕ} {kMasterKeys : List (ℕ × CMasterKey)} {item : ℕ × CMasterKey}
    (h : w.openedFrom library strWalletPassphrase ways kMasterKeys = some (item, v)) :
  (w.withMasterKey library v).fUseCrypto = true ∧ (w.withMasterKey library v).isLocked = false
  := by
  obtain ⟨_, _, _, hopen, _⟩ := openedFrom_eq_some h
  have hlength := length_of_openMasterKey hopen
  obtain ⟨huse, hmaster, _⟩ := @sameLock_encryptLeftoverPlaintextKeys library { w with vMasterKey := v }
  have huse' : (w.withMasterKey library v).fUseCrypto = true := huse.trans hcrypto
  refine ⟨huse', ?_⟩
  rw [isLocked_eq_false]
  intro _ hempty
  have hmaster' : (w.withMasterKey library v).vMasterKey = v := hmaster
  rw [← hmaster', hempty] at hlength
  cases hlength

theorem onlyKeys_withMasterKey (w : CWallet) (v : Bytes) : OnlyKeys w (w.withMasterKey library v)
  := (OnlyKeys.of_update w (List.Subset.refl _)).trans
    (onlyKeys_encryptLeftoverPlaintextKeys { w with vMasterKey := v })

theorem decryptHDSeed_hdmnemonic (w : CWallet) (vMasterKeyIn : Bytes) :
  (w.decryptHDSeed library vMasterKeyIn).db.hdmnemonic = w.db.hdmnemonic
  := by
  rw [decryptHDSeed]
  split_ifs
  · rfl
  · split
    · rfl
    · split_ifs
      · rfl
      · rfl

theorem Guarded.unlock (h : w.Guarded) (strWalletPassphrase : Bytes) :
  (w.unlock library strWalletPassphrase).1.Guarded
  := by
  rw [CWallet.unlock]
  split_ifs with hlocked
  · exact h
  · rw [Bool.not_eq_true', Bool.not_eq_false, isLocked, Bool.and_eq_true] at hlocked
    have hset := setCrypted_of_fUseCrypto hlocked.1
    rw [unlockLoop_eq (by rw [hset])]
    cases hopened : w.openedFrom library strWalletPassphrase (fun item => methods item.2)
        w.mapMasterKeys.toList with
    | none => exact h
    | some result =>
      obtain ⟨item, v⟩ := result
      obtain ⟨huse, hopen⟩ := isLocked_withMasterKey hlocked.1 hopened
      constructor
      · intro hlocked'
        rw [Option.elim_some, (sameKeys_decryptHDSeed _ _).isLocked, hopen] at hlocked'
        cases hlocked'
      · rw [Option.elim_some, decryptHDSeed_hdmnemonic, (onlyKeys_withMasterKey w v).hdmnemonic,
          h.hdmnemonic_of_fUseCrypto hlocked.1]
        intro hsome
        cases hsome

theorem openedFrom_lock
    (hcrypto : w.fUseCrypto = true) (strWalletPassphrase : Bytes) (ways : ℕ × CMasterKey → List ℕ)
    (kMasterKeys : List (ℕ × CMasterKey)) :
  w.lock.openedFrom library strWalletPassphrase ways kMasterKeys
    = w.openedFrom library strWalletPassphrase ways kMasterKeys
  := by
  have haccepts : w.lock.accepts library = w.accepts library := by
    funext v
    rw [lock_of_fUseCrypto hcrypto, accepts, accepts, setCrypted_of_fUseCrypto hcrypto,
      @setCrypted_of_fUseCrypto { w with vMasterKey := [] } hcrypto]
  simp only [openedFrom, openedBy, haccepts]

/-- The loop over the master keys unlocks the wallet with the first one that the passphrase opens. -/
theorem changePassphraseLoop_cases
    (hset : w.setCrypted.1 = w) (fWasLocked : Bool) (strOldWalletPassphrase strNewWalletPassphrase : Bytes)
    (nDeriveIterations : ℕ) (kMasterKeys : List (ℕ × CMasterKey)) :
  let result := w.changePassphraseLoop library fWasLocked strOldWalletPassphrase strNewWalletPassphrase
    nDeriveIterations kMasterKeys
  let opened := w.openedFrom library strOldWalletPassphrase (fun item => methods item.2) kMasterKeys
  opened = none ∧ result.1 = w
    ∨ ∃ item v w', opened = some (item, v) ∧ SameKeys (w.withMasterKey library v) w'
      ∧ OnlyKeys (w.withMasterKey library v) w'
      ∧ (result.1 = w' ∨ fWasLocked = true ∧ result.1 = w'.lock)
  := by
  induction kMasterKeys with
  | nil => exact .inl ⟨rfl, rfl⟩
  | cons item kMasterKeys ih =>
    simp only [changePassphraseLoop, unlockWithMasterKey, unlockWithMethods_eq hset, openedFrom_cons]
    cases w.openedBy library strOldWalletPassphrase item.2 (methods item.2) with
    | none => exact ih
    | some v =>
      right
      have hsame := @sameKeys_reencrypt library (w.withMasterKey library v) item.1
        { item.2 with
          nDerivationMethod := WALLET_DERIVATION_BYTESTOKEY_SHA512
          nDeriveIterations := max nDeriveIterations 25000 } v strNewWalletPassphrase
      have honly := @onlyKeys_reencrypt library (w.withMasterKey library v) item.1
        { item.2 with
          nDerivationMethod := WALLET_DERIVATION_BYTESTOKEY_SHA512
          nDeriveIterations := max nDeriveIterations 25000 } v strNewWalletPassphrase
      simp only [Option.elim_some]
      rcases hre : (w.withMasterKey library v).reencrypt library item.1
        { item.2 with
          nDerivationMethod := WALLET_DERIVATION_BYTESTOKEY_SHA512
          nDeriveIterations := max nDeriveIterations 25000 } v strNewWalletPassphrase
        with ⟨w', _ | _⟩
      · rw [hre] at hsame honly
        exact ⟨item, v, w', rfl, hsame, honly, .inl rfl⟩
      · rw [hre] at hsame honly
        refine ⟨item, v, w', rfl, hsame, honly, ?_⟩
        cases fWasLocked with
        | false => exact .inl rfl
        | true => exact .inr ⟨rfl, rfl⟩

theorem Guarded.changeWalletPassphrase
    (h : w.Guarded) {strOldWalletPassphrase : Bytes}
    (hspares : w.NoSecret ∨ w.StaysOpen ∨ w.fUseCrypto = true
      ∧ (w.openedFrom library strOldWalletPassphrase (fun item => methods item.2)
        w.mapMasterKeys.toList).isSome = true)
    (strNewWalletPassphrase : Bytes) (nDeriveIterations : ℕ) :
  (w.changeWalletPassphrase library strOldWalletPassphrase strNewWalletPassphrase
    nDeriveIterations).1.Guarded
  := by
  have honly := @onlyKeys_changeWalletPassphrase library w strOldWalletPassphrase strNewWalletPassphrase
    nDeriveIterations
  have hcases := @changePassphraseLoop_cases library _ (setCrypted_lock w) w.isLocked
    strOldWalletPassphrase strNewWalletPassphrase nDeriveIterations w.lock.mapMasterKeys.toList
  rcases hspares with hsecret | ⟨hcrypto, hkeys⟩ | ⟨hcrypto, hopens⟩
  · exact h.of_sameSeed hsecret honly.sameSeed
  · obtain ⟨hlock, hset⟩ := lock_of_keys hcrypto hkeys
    rcases hcases with ⟨_, hsame⟩ | ⟨item, v, w', hopened, _⟩
    · rw [CWallet.changeWalletPassphrase, hsame, hlock]
      exact h
    · obtain ⟨_, _, _, _, haccepts⟩ := openedFrom_eq_some hopened
      rw [hlock, accepts, hset] at haccepts
      cases haccepts
  · cases hlocked : w.isLocked with
    | true => exact h.of_sameSeed (h.locked hlocked) honly.sameSeed
    | false =>
      apply Guarded.of_open
      · rcases hcases with ⟨hnone, _⟩ | ⟨item, v, w', hopened, hsame, _, hresult | ⟨htrue, _⟩⟩
        · rw [openedFrom_lock hcrypto, (sameMasterKeys_lock w).mapMasterKeys] at hnone
          rw [hnone] at hopens
          cases hopens
        · have hlock : w.lock.fUseCrypto = true := by
            rw [lock_of_fUseCrypto hcrypto]
            exact hcrypto
          rw [CWallet.changeWalletPassphrase, hresult, hsame.isLocked]
          exact (isLocked_withMasterKey hlock hopened).2
        · rw [hlocked] at htrue
          cases htrue
      · rw [honly.hdmnemonic]
        exact h.hdmnemonic_of_fUseCrypto hcrypto

/-! ## Encryption -/

/-- Nothing of a seed is in memory or on disk. -/
structure Seedless (w : CWallet) : Prop where
  secret : w.NoSecret
  crypted : w.NoCryptedSeed
  hdmnemonic : w.db.hdmnemonic = none

theorem Seedless.of_sameSeed (h : w.Seedless) (hseed : SameSeed w w') : w'.Seedless
  := by
  refine ⟨h.secret.of_sameSeed hseed, ⟨?_, ?_⟩, hseed.hdmnemonic.trans h.hdmnemonic⟩
  · exact hseed.vchCryptedHDMnemonic.trans h.crypted.vchCryptedHDMnemonic
  · exact hseed.chdmnemonic.trans h.crypted.chdmnemonic

/-- A wallet without a seed gets none but by setting one. -/
theorem seedStable_seedless (library : WalletLibrary) : SeedStable library Seedless
  := by
  constructor
  · intro w w' honly h
    exact h.of_sameSeed honly.sameSeed
  · constructor
    · intro w rand _ h
      exact h.of_sameSeed (sameSeed_generateNewKey w rand)
    · intro w setKeyPool pool h
      exact h.of_sameSeed (sameSeed_pool w setKeyPool pool)
  · intro w vMasterKeyIn h
    rw [decryptHDSeed, h.crypted.vchCryptedHDMnemonic]
    exact h
  · intro w w' vMasterKey _ hencrypt h
    rw [encryptHDSeed, h.secret.strHDMnemonic, List.isEmpty_nil, Bool.not_true, Bool.and_false] at hencrypt
    cases hencrypt
    exact h
  · intro w h
    rw [reload]
    cases hload : load library w.db with
    | none => exact h
    | some w' =>
      have hloaded := seedLoaded_of_load hload
      constructor
      · constructor
        · rw [hloaded.strHDMnemonic, h.hdmnemonic, Option.getD_none]
        · rw [hloaded.hdMasterKey, h.hdmnemonic, Option.map_none]
      · constructor
        · rw [hloaded.vchCryptedHDMnemonic, h.crypted.chdmnemonic, Option.getD_none]
        · rw [hloaded.db]
          exact h.crypted.chdmnemonic
      · rw [hloaded.db]
        exact h.hdmnemonic

theorem Guarded.encryptWallet
    (h : w.Guarded) (hspares : w.fUseCrypto = true ∨ w.NoSecret ∧ w.NoCryptedSeed)
    (strWalletPassphrase : Bytes) (input : EncryptInput) (nKeys : ℕ) (rands : ℕ → CKey) :
  (w.encryptWallet library strWalletPassphrase input nKeys rands).Guarded
  := by
  rcases hspares with hcrypto | ⟨hsecret, hcrypted⟩
  · rw [CWallet.encryptWallet, if_pos hcrypto]
    exact h
  · have hseedless := (seedStable_seedless library).encryptWallet strWalletPassphrase input nKeys rands
      ⟨hsecret, hcrypted, h.hdmnemonic hsecret⟩
    exact Guarded.of_noSecret hseedless.secret hseedless.hdmnemonic

/-! ## Restarts -/

theorem fUseCrypto_loadHD (w : CWallet) (db : WalletDB) : (loadHD library w db).fUseCrypto = w.fUseCrypto
  := (sameKeys_loadHD w db).fUseCrypto

/-- A wallet that is loaded is encrypted only where the database has an encrypted key. -/
theorem fUseCrypto_load {db : WalletDB} (hckey : db.ckey = ∅) (h : load library db = some w) :
  w.fUseCrypto = false
  := by
  simp only [load, Option.bind_eq_bind, Option.bind_eq_some_iff] at h
  obtain ⟨w₁, hkeys, w₂, hcrypted, w₃, hwkeys, hlast⟩ := h
  rw [hckey, ExtTreeMap.toList_eq_nil_iff.mpr rfl, List.foldlM_nil] at hcrypted
  cases hcrypted
  cases hlast
  rw [fUseCrypto_loadHD]
  exact (loadKeyRecords_same hwkeys).1.trans (loadKeyRecords_same hkeys).1

theorem Holding.ckey_eq_empty (h : Holding library M w) (hcrypto : w.fUseCrypto = false) : w.db.ckey = ∅
  := by
  apply ExtTreeMap.eq_empty_iff_forall_not_mem.mpr
  intro vchPubKey hmem
  have hcrypted := h.sound.disk_crypted vchPubKey hmem
  rw [(h.sound.memory.opened hcrypto).1] at hcrypted
  exact ExtTreeMap.not_mem_empty hcrypted

theorem Guarded.reload (h : w.Guarded) (hholds : Holds library w) : (w.reload library).Guarded
  := by
  rw [CWallet.reload]
  cases hload : load library w.db with
  | none => exact h
  | some w' =>
    have hloaded := seedLoaded_of_load hload
    cases hphrase : w.db.hdmnemonic with
    | none =>
      apply Guarded.of_noSecret
      · constructor
        · exact hloaded.strHDMnemonic.trans (by rw [hphrase, Option.getD_none])
        · exact hloaded.hdMasterKey.trans (by rw [hphrase, Option.map_none])
      · exact (congrArg WalletDB.hdmnemonic hloaded.db).trans hphrase
    | some mnemonic =>
      -- the phrase is in plaintext on disk, so that no key is encrypted there
      obtain ⟨M, hholding⟩ := hholds
      have hopen := (h.plain (by rw [hphrase, Option.isSome_some])).1
      have hplain := fUseCrypto_load (hholding.ckey_eq_empty hopen) hload
      constructor
      · intro hlocked
        rw [isLocked, Bool.and_eq_true] at hlocked
        exact absurd (hplain.symm.trans hlocked.1) Bool.false_ne_true
      · intro _
        refine ⟨hplain, ?_⟩
        rw [hloaded.hdMasterKey, hphrase]
        rfl

/-! ## Runs -/

/-- A call that spares the secret leaves a wallet that is guarded. -/
theorem Guarded.step
    {call : Call} (hspares : call.SparesSecret library w) (hholds : Holds library w) (h : w.Guarded) :
  (w.step library call).Guarded
  := by
  cases call with
  | addKey key => exact h.of_same (onlyKeys_addKey w key).sameSeed (sameLock_addKey w key)
  | generateNewKey rand =>
    exact h.of_same (sameSeed_generateNewKey w rand) (sameLock_generateNewKey w rand)
  | newKeyPool nKeys rands => exact (poolStable_guarded library).newKeyPool (fun _ => trivial) nKeys h
  | topUpKeyPool nKeys rands => exact (poolStable_guarded library).topUpKeyPool (fun _ => trivial) nKeys h
  | encryptWallet strWalletPassphrase input nKeys rands =>
    exact h.encryptWallet hspares strWalletPassphrase input nKeys _
  | lock => exact h.lock hspares
  | unlock strWalletPassphrase => exact h.unlock strWalletPassphrase
  | changeWalletPassphrase strOldWalletPassphrase strNewWalletPassphrase nDeriveIterations =>
    exact h.changeWalletPassphrase hspares strNewWalletPassphrase nDeriveIterations
  | setHDSeedFromMnemonic mnemonic => exact h.setHDSeedFromMnemonic mnemonic
  | encryptLeftoverPlaintextKeys =>
    exact h.of_same (onlyKeys_encryptLeftoverPlaintextKeys w).sameSeed
      (sameLock_encryptLeftoverPlaintextKeys w)
  | reload => exact h.reload hholds

theorem guarded_run
    (hlibrary : library.Lawful) {calls : List Call}
    (hspares : Along (step library) (Call.SparesSecret library) w calls) (hholds : Holds library w)
    (h : w.Guarded) :
  (run (step library) w calls).Guarded
  := by
  have hstep : ∀ (w : CWallet) (call : Call), call.SparesSecret library w → Holds library w ∧ w.Guarded →
      Holds library (w.step library call) ∧ (w.step library call).Guarded := by
    intro w call hcall hw
    exact ⟨holds_step hlibrary call hw.1, hw.2.step hcall hw.1⟩
  exact (run_invariant hstep hspares ⟨hholds, h⟩).2

/-! ## The phrase that was set -/

variable {mnemonic : Bytes}

/-- The seed of a phrase is in memory. -/
structure HasPhrase (library : WalletLibrary) (mnemonic : Bytes) (w : CWallet) : Prop where
  hdMasterKey : w.hdMasterKey = some (hdMaster library mnemonic)
  strHDMnemonic : w.strHDMnemonic = mnemonic

theorem HasPhrase.of_sameSeed (h : HasPhrase library mnemonic w) (hseed : SameSeed w w') :
  HasPhrase library mnemonic w'
  := ⟨hseed.hdMasterKey.trans h.hdMasterKey, hseed.strHDMnemonic.trans h.strHDMnemonic⟩

/-- A phrase encrypted with a master key. -/
def encryptedPhrase (library : WalletLibrary) (M mnemonic : Bytes) : Bytes :=
  library.encrypt (M, serializeUint256 (hdSeedIV (hdSeedOf library mnemonic))) mnemonic

/-- The phrase is kept: in plaintext where the wallet is not encrypted, else under the master key that
a key is encrypted with. -/
structure PhraseKept (library : WalletLibrary) (M mnemonic : Bytes) (w : CWallet) : Prop where
  holding : Holding library M w
  keys : w.vAdded ≠ []
  fHDEnabled : w.fHDEnabled = true
  hdSeedId : w.hdSeedId = hdSeedOf library mnemonic
  hdseedid : w.db.hdseedid = some (hdSeedOf library mnemonic)
  memory : w.NoSecret ∨ HasPhrase library mnemonic w
  plain : w.fUseCrypto = false → HasPhrase library mnemonic w ∧ w.db.hdmnemonic = some mnemonic
  crypted : w.fUseCrypto = true → (∃ id, id ∈ w.mapCryptedKeys)
    ∧ w.vchCryptedHDMnemonic = encryptedPhrase library M mnemonic
    ∧ w.db.chdmnemonic = some (encryptedPhrase library M mnemonic) ∧ w.db.hdmnemonic = none

theorem PhraseKept.of_sameSeed
    (h : PhraseKept library M mnemonic w) (hseed : SameSeed w w') (hholding : Holding library M w')
    (hadded : w.vAdded ⊆ w'.vAdded) (hcrypto : w'.fUseCrypto = w.fUseCrypto)
    (hmono : ∀ id, id ∈ w.mapCryptedKeys → id ∈ w'.mapCryptedKeys) :
  PhraseKept library M mnemonic w'
  := by
  constructor
  · exact hholding
  · intro hnil
    rw [hnil, List.subset_nil] at hadded
    exact h.keys hadded
  · exact hseed.fHDEnabled.trans h.fHDEnabled
  · exact hseed.hdSeedId.trans h.hdSeedId
  · exact hseed.hdseedid.trans h.hdseedid
  · rcases h.memory with hsecret | hphrase
    · exact .inl (hsecret.of_sameSeed hseed)
    · exact .inr (hphrase.of_sameSeed hseed)
  · intro hplain
    obtain ⟨hphrase, hrecord⟩ := h.plain (hcrypto.symm.trans hplain)
    exact ⟨hphrase.of_sameSeed hseed, hseed.hdmnemonic.trans hrecord⟩
  · intro hopen
    obtain ⟨⟨id, hmem⟩, hct, hcrecord, hrecord⟩ := h.crypted (hcrypto.symm.trans hopen)
    exact ⟨⟨id, hmono id hmem⟩, hseed.vchCryptedHDMnemonic.trans hct, hseed.chdmnemonic.trans hcrecord,
      hseed.hdmnemonic.trans hrecord⟩

theorem poolStable_phraseKept (library : WalletLibrary) (M mnemonic : Bytes) :
  PoolStable library CKey.Valid (PhraseKept library M mnemonic)
  := by
  constructor
  · intro w rand hrand h
    have hlock := @sameLock_generateNewKey library w rand
    exact h.of_sameSeed (sameSeed_generateNewKey w rand) (h.holding.generateNewKey hrand)
      (subset_vAdded_generateNewKey w rand) hlock.fUseCrypto hlock.mono
  · intro w setKeyPool pool h
    exact h.of_sameSeed (sameSeed_pool w setKeyPool pool)
      (h.holding.of_same ⟨rfl, rfl, rfl, rfl, rfl, rfl, rfl, rfl, rfl⟩) (List.Subset.refl _) rfl
      (fun _ hmem => hmem)

/-- A wallet with keys that is not encrypted cannot be locked. -/
theorem PhraseKept.staysOpen (h : PhraseKept library M mnemonic w) (hcrypto : w.fUseCrypto = false) :
  w.StaysOpen
  := by
  obtain ⟨key, hkey⟩ := List.exists_mem_of_ne_nil _ h.keys
  have hmem := h.holding.complete.plain hcrypto key hkey
  refine ⟨hcrypto, ?_⟩
  rw [Bool.eq_false_iff]
  intro hempty
  rw [ExtTreeMap.isEmpty_iff.mp hempty] at hmem
  exact ExtTreeMap.not_mem_empty hmem

theorem PhraseKept.lock (h : PhraseKept library M mnemonic w) : PhraseKept library M mnemonic w.lock
  := by
  cases hcrypto : w.fUseCrypto with
  | false =>
    rw [(lock_of_keys hcrypto (h.staysOpen hcrypto).2).1]
    exact h
  | true =>
    have hlock := lock_of_fUseCrypto hcrypto
    apply h.of_sameSeed (onlyKeys_lock w).sameSeed h.holding.lock (onlyKeys_lock w).vAdded
    · rw [hlock]
    · rw [hlock]
      exact fun _ hmem => hmem

/-- The key store of a wallet with an encrypted key takes the one master key. -/
theorem PhraseKept.eq_of_openedFrom
    (hlibrary : library.Lawful) (h : PhraseKept library M mnemonic w) (hcrypto : w.fUseCrypto = true)
    {strWalletPassphrase v : Bytes} {ways : ℕ × CMasterKey → List ℕ}
    {kMasterKeys : List (ℕ × CMasterKey)} {item : ℕ × CMasterKey}
    (hopened : w.openedFrom library strWalletPassphrase ways kMasterKeys = some (item, v)) :
  v = M
  := by
  obtain ⟨_, _, _, hopen, haccepts⟩ := openedFrom_eq_some hopened
  apply ((accepts_iff hlibrary h.holding hcrypto v).mp haccepts).resolve_right
  intro hempty
  obtain ⟨id, hmem⟩ := (h.crypted hcrypto).1
  rw [hempty] at hmem
  exact ExtTreeMap.not_mem_empty hmem

theorem PhraseKept.withMasterKey
    (h : PhraseKept library M mnemonic w) (hcrypto : w.fUseCrypto = true) :
  PhraseKept library M mnemonic (w.withMasterKey library M)
  := by
  obtain ⟨hholding, huse, _⟩ :=
    holding_withMasterKey h.holding hcrypto h.holding.sound.length (.inl rfl)
  have hlock := @sameLock_encryptLeftoverPlaintextKeys library { w with vMasterKey := M }
  exact h.of_sameSeed (onlyKeys_withMasterKey w M).sameSeed hholding (onlyKeys_withMasterKey w M).vAdded
    (huse.trans hcrypto.symm) hlock.mono

theorem PhraseKept.decryptHDSeed
    (hlibrary : library.Lawful) (hseeds : library.SeedLawful) (hcheck : library.checkMnemonic mnemonic = true)
    (h : PhraseKept library M mnemonic w) (hcrypto : w.fUseCrypto = true) :
  PhraseKept library M mnemonic (w.decryptHDSeed library M)
    ∧ HasPhrase library mnemonic (w.decryptHDSeed library M)
  := by
  obtain ⟨hmem, hct, hcrecord, hrecord⟩ := h.crypted hcrypto
  have hne : w.vchCryptedHDMnemonic.isEmpty = false := by
    rw [hct, encryptedPhrase, List.isEmpty_eq_false_iff]
    apply hseeds.encrypt_ne_nil M _ mnemonic h.holding.sound.length
  have hdecrypt : decryptSecret library M w.vchCryptedHDMnemonic (hdSeedIV w.hdSeedId) = some mnemonic := by
    rw [decryptSecret, if_neg (not_not.mpr h.holding.sound.length), hct, h.hdSeedId, encryptedPhrase]
    apply hlibrary.decrypt_encrypt
  have hload : w.decryptHDSeed library M = w.loadHDMnemonic library mnemonic := by
    rw [CWallet.decryptHDSeed, if_neg (Bool.eq_false_iff.mp hne), hdecrypt]
    simp only [hcheck, Bool.not_true, Bool.false_eq_true, if_false]
  have hphrase : HasPhrase library mnemonic (w.loadHDMnemonic library mnemonic) := ⟨rfl, rfl⟩
  rw [hload]
  refine ⟨⟨?_, h.keys, rfl, rfl, h.hdseedid, .inr hphrase, ?_, fun _ => h.crypted hcrypto⟩, hphrase⟩
  · exact h.holding.of_same ⟨rfl, rfl, rfl, rfl, rfl, rfl, rfl, rfl, rfl⟩
  · intro hplain
    exact absurd (hplain.symm.trans hcrypto) Bool.false_ne_true

/-- A passphrase that unlocks the wallet brings the phrase back. -/
theorem PhraseKept.unlock
    (hlibrary : library.Lawful) (hseeds : library.SeedLawful) (hcheck : library.checkMnemonic mnemonic = true)
    (h : PhraseKept library M mnemonic w) (strWalletPassphrase : Bytes) :
  PhraseKept library M mnemonic (w.unlock library strWalletPassphrase).1
    ∧ ((w.unlock library strWalletPassphrase).2 = true →
      HasPhrase library mnemonic (w.unlock library strWalletPassphrase).1)
  := by
  rw [CWallet.unlock]
  split_ifs with hlocked
  · exact ⟨h, fun hfalse => hfalse.elim⟩
  · rw [Bool.not_eq_true', Bool.not_eq_false, isLocked, Bool.and_eq_true] at hlocked
    have hset := setCrypted_of_fUseCrypto hlocked.1
    rw [unlockLoop_eq (by rw [hset])]
    cases hopened : w.openedFrom library strWalletPassphrase (fun item => methods item.2)
        w.mapMasterKeys.toList with
    | none => exact ⟨h, fun hfalse => absurd hfalse Bool.false_ne_true⟩
    | some result =>
      obtain ⟨item, v⟩ := result
      have hv := h.eq_of_openedFrom hlibrary hlocked.1 hopened
      subst hv
      obtain ⟨huse, _⟩ := isLocked_withMasterKey hlocked.1 hopened
      obtain ⟨hkept, hphrase⟩ := (h.withMasterKey hlocked.1).decryptHDSeed hlibrary hseeds hcheck huse
      exact ⟨hkept, fun _ => hphrase⟩

theorem PhraseKept.changeWalletPassphrase
    (hlibrary : library.Lawful) (h : PhraseKept library M mnemonic w)
    (strOldWalletPassphrase strNewWalletPassphrase : Bytes) (nDeriveIterations : ℕ) :
  PhraseKept library M mnemonic (w.changeWalletPassphrase library strOldWalletPassphrase
    strNewWalletPassphrase nDeriveIterations).1
  := by
  have hlocked := h.lock
  cases hcrypto : w.fUseCrypto with
  | false =>
    obtain ⟨hlock, hset⟩ := lock_of_keys hcrypto (h.staysOpen hcrypto).2
    rcases @changePassphraseLoop_cases library _ (setCrypted_lock w) w.isLocked strOldWalletPassphrase
      strNewWalletPassphrase nDeriveIterations w.lock.mapMasterKeys.toList
      with ⟨_, hsame⟩ | ⟨item, v, w', hopened, _⟩
    · rw [CWallet.changeWalletPassphrase, hsame]
      exact hlocked
    · obtain ⟨_, _, _, _, haccepts⟩ := openedFrom_eq_some hopened
      rw [hlock, accepts, hset] at haccepts
      cases haccepts
  | true =>
    have hlock : w.lock.fUseCrypto = true := by
      rw [lock_of_fUseCrypto hcrypto]
      exact hcrypto
    rcases @changePassphraseLoop_cases library _ (setCrypted_lock w) w.isLocked strOldWalletPassphrase
      strNewWalletPassphrase nDeriveIterations w.lock.mapMasterKeys.toList
      with ⟨_, hsame⟩ | ⟨item, v, w', hopened, hsame, honly, hresult⟩
    · rw [CWallet.changeWalletPassphrase, hsame]
      exact hlocked
    · have hv := hlocked.eq_of_openedFrom hlibrary hlock hopened
      subst hv
      have hopen := hlocked.withMasterKey hlock
      have hkept : PhraseKept library v mnemonic w' := by
        apply hopen.of_sameSeed honly.sameSeed (hopen.holding.of_same hsame) honly.vAdded hsame.fUseCrypto
        rw [hsame.mapCryptedKeys]
        exact fun _ hmem => hmem
      rcases hresult with hresult | ⟨_, hresult⟩
      · rw [CWallet.changeWalletPassphrase, hresult]
        exact hkept
      · rw [CWallet.changeWalletPassphrase, hresult]
        exact hkept.lock

/-- The phrase goes under the new master key with the keys. -/
theorem PhraseKept.encryptSecrets
    (hseeds : library.SeedLawful) (hcheck : library.checkMnemonic mnemonic = true)
    (h : PhraseKept library M mnemonic w) (hcrypto : w.fUseCrypto = false) (strWalletPassphrase : Bytes)
    (input : EncryptInput) :
  ∃ w', w.encryptSecrets library strWalletPassphrase input = some w'
    ∧ PhraseKept library input.vMasterKey mnemonic w'
  := by
  obtain ⟨w', hsecrets, hholding, huse, hmaps⟩ :=
    encryptSecrets_spec h.holding hcrypto strWalletPassphrase input
  obtain ⟨w₁, honly, hencrypt⟩ := encryptSecrets_cases hsecrets
  obtain ⟨hphrase, _⟩ := h.plain hcrypto
  have hphrase₁ := hphrase.of_sameSeed honly.sameSeed
  have hne : (w₁.fHDEnabled && !w₁.strHDMnemonic.isEmpty) = true := by
    rw [honly.fHDEnabled, h.fHDEnabled, hphrase₁.strHDMnemonic, Bool.true_and, Bool.not_eq_true',
      List.isEmpty_eq_false_iff]
    rintro rfl
    rw [hseeds.checkMnemonic_nil] at hcheck
    cases hcheck
  have hid := honly.hdSeedId.trans h.hdSeedId
  rw [encryptHDSeed, if_pos hne, encryptSecret, if_neg (not_not.mpr input.length_vMasterKey),
    hphrase₁.strHDMnemonic, hid] at hencrypt
  cases hencrypt
  have hadded : w₁.vAdded ≠ [] := by
    intro hnil
    have hsub := honly.vAdded
    rw [hnil, List.subset_nil] at hsub
    exact h.keys hsub
  obtain ⟨key, hkey⟩ := List.exists_mem_of_ne_nil _ hadded
  refine ⟨_, hsecrets, hholding, hadded, honly.fHDEnabled.trans h.fHDEnabled, rfl,
    honly.hdseedid.trans h.hdseedid, .inr ⟨hphrase₁.hdMasterKey, rfl⟩, ?_, ?_⟩
  · intro hplain
    exact absurd (hplain.symm.trans huse) Bool.false_ne_true
  · exact fun _ => ⟨⟨_, hmaps key hkey⟩, rfl, rfl, rfl⟩

theorem PhraseKept.rebuildPool
    (hlibrary : library.Lawful) (hseeds : library.SeedLawful) (hcheck : library.checkMnemonic mnemonic = true)
    (h : PhraseKept library M mnemonic w) (strWalletPassphrase : Bytes) (nKeys : ℕ) {rands : ℕ → CKey}
    (hrands : ∀ i, (rands i).Valid) :
  PhraseKept library M mnemonic (w.rebuildPool library strWalletPassphrase nKeys rands)
  := by
  have hunlock := (h.lock.unlock hlibrary hseeds hcheck strWalletPassphrase).1
  have hpool := (poolStable_phraseKept library M mnemonic).newKeyPool hrands nKeys hunlock
  exact rebuildPool_of w (fun _ h => h.lock) hpool

theorem PhraseKept.encryptWallet
    (hlibrary : library.Lawful) (hseeds : library.SeedLawful) (hcheck : library.checkMnemonic mnemonic = true)
    (h : PhraseKept library M mnemonic w) (strWalletPassphrase : Bytes) (input : EncryptInput) (nKeys : ℕ)
    {rands : ℕ → CKey} (hrands : ∀ i, (rands i).Valid) :
  ∃ M', PhraseKept library M' mnemonic (w.encryptWallet library strWalletPassphrase input nKeys rands)
  := by
  rw [CWallet.encryptWallet]
  split_ifs with hcrypto
  · exact ⟨M, h⟩
  · rw [Bool.not_eq_true] at hcrypto
    obtain ⟨w', hsecrets, hkept⟩ := h.encryptSecrets hseeds hcheck hcrypto strWalletPassphrase input
    rw [hsecrets]
    exact ⟨_, hkept.rebuildPool hlibrary hseeds hcheck strWalletPassphrase nKeys hrands⟩

/-- A restart keeps the phrase, and a wallet with a key is encrypted after it exactly if it was. -/
theorem PhraseKept.reload (hlibrary : library.Lawful) (h : PhraseKept library M mnemonic w) :
  PhraseKept library M mnemonic (w.reload library)
  := by
  have hholding := h.holding.reload hlibrary
  have hadded := @vAdded_reload library w
  rw [CWallet.reload] at hholding hadded ⊢
  cases hload : load library w.db with
  | none => exact h
  | some w' =>
    rw [hload] at hholding hadded
    have hloaded := seedLoaded_of_load hload
    have hkeys : w'.db = w.db := hloaded.db
    cases hcrypto : w.fUseCrypto with
    | false =>
      have hplain := fUseCrypto_load (h.holding.ckey_eq_empty hcrypto) hload
      obtain ⟨_, hrecord⟩ := h.plain hcrypto
      have hphrase : HasPhrase library mnemonic
          { w' with vAdded := w.vAdded, vGenerated := w.vGenerated } := by
        constructor
        · exact hloaded.hdMasterKey.trans (by rw [hrecord, Option.map_some])
        · exact hloaded.strHDMnemonic.trans (by rw [hrecord, Option.getD_some])
      refine ⟨hholding, h.keys, ?_, ?_, ?_, .inr hphrase, fun _ => ⟨hphrase, ?_⟩, ?_⟩
      · exact hloaded.fHDEnabled.trans (by rw [h.hdseedid]; rfl)
      · exact hloaded.hdSeedId.trans (by rw [hrecord]; rfl)
      · exact (congrArg WalletDB.hdseedid hkeys).trans h.hdseedid
      · exact (congrArg WalletDB.hdmnemonic hkeys).trans hrecord
      · intro huse
        exact absurd (hplain.symm.trans huse) Bool.false_ne_true
    | true =>
      obtain ⟨⟨id, hmem⟩, hct, hcrecord, hrecord⟩ := h.crypted hcrypto
      -- the record of the encrypted key makes the wallet an encrypted one again
      have hcrypted : ∃ id, id ∈ w'.mapCryptedKeys := by
        obtain ⟨entry, hget⟩ := Option.isSome_iff_exists.mp (ExtTreeMap.isSome_getElem?_iff_mem.mpr hmem)
        have hckey := h.holding.sound.crypted_disk id entry.1 entry.2 hget
        rw [← hkeys] at hckey
        exact ⟨_, hholding.sound.disk_crypted entry.1 hckey⟩
      have huse : w'.fUseCrypto = true := by
        rw [← Bool.not_eq_false]
        intro hfalse
        obtain ⟨id, hmem⟩ := hcrypted
        have hempty : w'.mapCryptedKeys = ∅ := (hholding.sound.memory.opened hfalse).1
        rw [hempty] at hmem
        exact ExtTreeMap.not_mem_empty hmem
      have hsecret : NoSecret { w' with vAdded := w.vAdded, vGenerated := w.vGenerated } := by
        constructor
        · exact hloaded.strHDMnemonic.trans (by rw [hrecord, Option.getD_none])
        · exact hloaded.hdMasterKey.trans (by rw [hrecord, Option.map_none])
      refine ⟨hholding, h.keys, ?_, ?_, ?_, .inl hsecret, ?_, fun _ => ⟨hcrypted, ?_, ?_, ?_⟩⟩
      · exact hloaded.fHDEnabled.trans (by rw [h.hdseedid]; rfl)
      · exact hloaded.hdSeedId.trans (by rw [hrecord, h.hdseedid]; rfl)
      · exact (congrArg WalletDB.hdseedid hkeys).trans h.hdseedid
      · intro hplain
        exact absurd (hplain.symm.trans huse) Bool.false_ne_true
      · exact hloaded.vchCryptedHDMnemonic.trans (by rw [hcrecord, Option.getD_some])
      · exact (congrArg WalletDB.chdmnemonic hkeys).trans hcrecord
      · exact (congrArg WalletDB.hdmnemonic hkeys).trans hrecord

/-- The phrase is kept once it is set, if the wallet has a key. -/
theorem phraseKept_setHDSeedFromMnemonic
    (h : Holding library M w) (hkeys : w.vAdded ≠ [])
    (hset : w.setHDSeedFromMnemonic library mnemonic = (w', true)) :
  PhraseKept library M mnemonic w' ∧ library.checkMnemonic mnemonic = true
  := by
  have hsame := @sameKeys_setHDSeedFromMnemonic library w mnemonic
  rw [hset] at hsame
  have hholding := h.of_same hsame
  rw [setHDSeedFromMnemonic] at hset
  split_ifs at hset with hcheck hlocked
  · cases hset
  · cases hset
  · rw [Bool.not_eq_true', Bool.not_eq_false] at hcheck
    refine ⟨?_, hcheck⟩
    rw [writeHDSeed] at hset
    split_ifs at hset with hcrypto
    · have huse : w.fUseCrypto = true := hcrypto
      have hopen : w.vMasterKey ≠ [] := by
        rw [Bool.and_eq_true, not_and, Bool.not_eq_true] at hlocked
        exact isLocked_eq_false.mp (hlocked huse) huse
      have hmaster : w.vMasterKey = M := h.sound.memory.master.resolve_left hopen
      have hmaster' : (w.startHDSeed library mnemonic).vMasterKey = M := hmaster
      rw [hmaster', encryptSecret, if_neg (not_not.mpr h.sound.length)] at hset
      cases hset
      obtain ⟨key, hkey⟩ := List.exists_mem_of_ne_nil _ hkeys
      have hmem := h.complete.unlocked huse hopen key hkey
      refine ⟨hholding, hkeys, rfl, rfl, rfl, .inr ⟨rfl, rfl⟩, ?_, fun _ => ⟨⟨_, hmem⟩, rfl, rfl, rfl⟩⟩
      intro hplain
      exact absurd (hplain.symm.trans huse) Bool.false_ne_true
    · cases hset
      refine ⟨hholding, hkeys, rfl, rfl, rfl, .inr ⟨rfl, rfl⟩, fun _ => ⟨⟨rfl, rfl⟩, rfl⟩, ?_⟩
      intro huse
      exact absurd huse hcrypto

/-- A seed that is not set leaves a wallet as it is. -/
theorem Holding.setHDSeedFromMnemonic_of_failed
    (h : Holding library M w) (hfailed : (w.setHDSeedFromMnemonic library mnemonic).2 = false) :
  (w.setHDSeedFromMnemonic library mnemonic).1 = w
  := by
  rw [setHDSeedFromMnemonic] at hfailed ⊢
  split_ifs at hfailed ⊢ with hcheck hlocked
  · rfl
  · rfl
  · exfalso
    rw [writeHDSeed] at hfailed
    split_ifs at hfailed with hcrypto
    have huse : w.fUseCrypto = true := hcrypto
    rw [Bool.and_eq_true, not_and, Bool.not_eq_true] at hlocked
    have hmaster : w.vMasterKey = M :=
      h.sound.memory.master.resolve_left (isLocked_eq_false.mp (hlocked huse) huse)
    have hmaster' : (w.startHDSeed library mnemonic).vMasterKey = M := hmaster
    rw [hmaster', encryptSecret, if_neg (not_not.mpr h.sound.length)] at hfailed
    cases hfailed

theorem PhraseKept.step
    (hlibrary : library.Lawful) (hseeds : library.SeedLawful) (hcheck : library.checkMnemonic mnemonic = true)
    {call : Call} (hcall : call.SetsNoSeed library w) (h : PhraseKept library M mnemonic w) :
  ∃ M', PhraseKept library M' mnemonic (w.step library call)
  := by
  have honlyKeys : ∀ {w' : CWallet}, OnlyKeys w w' → SameLock w w' → Holding library M w' →
      ∃ M', PhraseKept library M' mnemonic w' := by
    intro w' honly hlock hholding
    exact ⟨M, h.of_sameSeed honly.sameSeed hholding honly.vAdded hlock.fUseCrypto hlock.mono⟩
  have hpool := poolStable_phraseKept library M mnemonic
  cases call with
  | addKey key =>
    exact honlyKeys (onlyKeys_addKey w key) (sameLock_addKey w key) (h.holding.addKey key.2)
  | generateNewKey rand => exact ⟨M, hpool.generate rand.2 h⟩
  | newKeyPool nKeys rands => exact ⟨M, hpool.newKeyPool (fun i => (rands i).2) nKeys h⟩
  | topUpKeyPool nKeys rands => exact ⟨M, hpool.topUpKeyPool (fun i => (rands i).2) nKeys h⟩
  | encryptWallet strWalletPassphrase input nKeys rands =>
    exact h.encryptWallet hlibrary hseeds hcheck strWalletPassphrase input nKeys (fun i => (rands i).2)
  | lock => exact ⟨M, h.lock⟩
  | unlock strWalletPassphrase => exact ⟨M, (h.unlock hlibrary hseeds hcheck strWalletPassphrase).1⟩
  | changeWalletPassphrase strOldWalletPassphrase strNewWalletPassphrase nDeriveIterations =>
    exact ⟨M, h.changeWalletPassphrase hlibrary strOldWalletPassphrase strNewWalletPassphrase
      nDeriveIterations⟩
  | setHDSeedFromMnemonic mnemonic =>
    rw [CWallet.step, h.holding.setHDSeedFromMnemonic_of_failed hcall]
    exact ⟨M, h⟩
  | encryptLeftoverPlaintextKeys =>
    exact honlyKeys (onlyKeys_encryptLeftoverPlaintextKeys w) (sameLock_encryptLeftoverPlaintextKeys w)
      h.holding.encryptLeftoverPlaintextKeys
  | reload => exact ⟨M, h.reload hlibrary⟩

theorem phraseKept_run
    (hlibrary : library.Lawful) (hseeds : library.SeedLawful) (hcheck : library.checkMnemonic mnemonic = true)
    {calls : List Call} (hcalls : Along (step library) (Call.SetsNoSeed library) w calls)
    (h : PhraseKept library M mnemonic w) :
  ∃ M', PhraseKept library M' mnemonic (run (step library) w calls)
  := by
  have hstep : ∀ (w : CWallet) (call : Call), call.SetsNoSeed library w →
      (∃ M, PhraseKept library M mnemonic w) → ∃ M, PhraseKept library M mnemonic (w.step library call) := by
    rintro w call hcall ⟨M, hkept⟩
    exact hkept.step hlibrary hseeds hcheck hcall
  exact run_invariant hstep hcalls ⟨M, h⟩

theorem seedless_new : (new WalletDB.empty).Seedless := ⟨⟨rfl, rfl⟩, ⟨rfl, rfl⟩, rfl⟩

/-- In a run that never locks a wallet with a phrase in memory, a locked wallet holds nothing of the
seed.  In any run, a wallet that had a key when its seed was set has the phrase of the seed back once
it is unlocked. -/
theorem lockedSeed
    (hlibrary : library.Lawful) (hseeds : library.SeedLawful) (calls : List Call) :
  (Along (step library) (Call.SparesSecret library) (new .empty) calls →
      (run (step library) (new .empty) calls).isLocked = true →
      (run (step library) (new .empty) calls).strHDMnemonic = []
        ∧ (run (step library) (new .empty) calls).hdMasterKey = none)
    ∧ ∀ (mnemonic : Bytes) (w : CWallet),
      (run (step library) (new .empty) calls).getKeys ≠ [] →
      (run (step library) (new .empty) calls).setHDSeedFromMnemonic library mnemonic = (w, true) →
      ∀ (calls' : List Call) (strWalletPassphrase : Bytes) (w' : CWallet),
        Along (step library) (Call.SetsNoSeed library) w calls' →
        (run (step library) w calls').unlock library strWalletPassphrase = (w', true) →
        w'.strHDMnemonic = mnemonic ∧ w'.hdMasterKey = some (hdMaster library mnemonic)
  := by
  have hholds : Holds library (new .empty) := Reserving.holds_new library
  constructor
  · intro hspares hlocked
    have hguarded := guarded_run hlibrary hspares hholds
      (Guarded.of_noSecret seedless_new.secret seedless_new.hdmnemonic)
    exact ⟨(hguarded.locked hlocked).strHDMnemonic, (hguarded.locked hlocked).hdMasterKey⟩
  · intro mnemonic w hkeys hset calls' strWalletPassphrase w' hcalls hunlock
    obtain ⟨M, hholding⟩ := holds_run hlibrary calls hholds
    have hadded : (run (step library) (new .empty) calls).vAdded ≠ [] := by
      obtain ⟨id, hid⟩ := List.exists_mem_of_ne_nil _ hkeys
      obtain ⟨key, hkey, _⟩ := exists_of_mem_getKeys hholding hid
      exact List.ne_nil_of_mem hkey
    obtain ⟨hkept, hcheck⟩ := phraseKept_setHDSeedFromMnemonic hholding hadded hset
    obtain ⟨M', hkept'⟩ := phraseKept_run hlibrary hseeds hcheck hcalls hkept
    have hphrase := (hkept'.unlock hlibrary hseeds hcheck strWalletPassphrase).2
    rw [hunlock] at hphrase
    exact ⟨(hphrase rfl).strHDMnemonic, (hphrase rfl).hdMasterKey⟩

/-! ### A wallet that is encrypted with its seed -/

theorem seedLawful_sampleWalletLibrary : sampleWalletLibrary.SeedLawful
  := by
  refine ⟨rfl, ?_⟩
  intro vMasterKey iv plaintext hlength hnil
  have hkey : vMasterKey = [] := (List.append_eq_nil_iff.mp hnil).1
  rw [hkey] at hlength
  cases hlength

/-- A master key and a salt. -/
def sampleEncryptInput : EncryptInput where
  vMasterKey := sampleMasterKey
  vchSalt := List.replicate 8 1
  length_vMasterKey := rfl
  length_vchSalt := rfl
  nDeriveIterations := 25000

/-- The first key of a wallet. -/
def sampleFirst : ValidKey := ⟨⟨5, false⟩, by decide, by decide⟩

/-- A key is added to a new wallet, which is encrypted before it has a seed. -/
def lockedCalls : List Call :=
  [.addKey sampleFirst, .encryptWallet [9] sampleEncryptInput 1 (fun _ => sampleRand)]

/-- The wallet is unlocked after that. -/
def unlockedCalls : List Call := lockedCalls ++ [.unlock [9]]

/-- Without a seed the wallet is locked with none; and a seed that is set in it then is there again once
it was loaded and unlocked. -/
theorem lockedSeed_reloaded :
  ((run (step sampleWalletLibrary) (new .empty) lockedCalls).strHDMnemonic = []
      ∧ (run (step sampleWalletLibrary) (new .empty) lockedCalls).hdMasterKey = none)
    ∧ ∃ w w', (run (step sampleWalletLibrary) (new .empty)
        unlockedCalls).setHDSeedFromMnemonic sampleWalletLibrary [1] = (w, true)
      ∧ (run (step sampleWalletLibrary) w [.reload]).unlock sampleWalletLibrary [9] = (w', true)
      ∧ w'.strHDMnemonic = [1]
  := by
  constructor
  · apply (lockedSeed lawful_sampleWalletLibrary seedLawful_sampleWalletLibrary lockedCalls).1
    · have hseedless : ((new .empty).step sampleWalletLibrary (.addKey sampleFirst)).Seedless :=
        seedless_new.of_sameSeed (onlyKeys_addKey _ _).sameSeed
      exact ⟨trivial, .inr ⟨hseedless.secret, hseedless.crypted⟩, trivial⟩
    · decide
  · have hset : ((run (step sampleWalletLibrary) (new .empty)
        unlockedCalls).setHDSeedFromMnemonic sampleWalletLibrary [1]).2 = true := by
      decide +kernel
    have hunlock : ((run (step sampleWalletLibrary) ((run (step sampleWalletLibrary) (new .empty)
        unlockedCalls).setHDSeedFromMnemonic sampleWalletLibrary [1]).1
        [.reload]).unlock sampleWalletLibrary [9]).2 = true := by decide +kernel
    have hkeys : (run (step sampleWalletLibrary) (new .empty) unlockedCalls).getKeys ≠ [] := by
      decide +kernel
    have hsome : ∀ {result : CWallet × Bool}, result.2 = true → result = (result.1, true) := fun h =>
      Prod.ext rfl h
    refine ⟨_, _, hsome hset, hsome hunlock, ?_⟩
    have hrestored := (lockedSeed lawful_sampleWalletLibrary seedLawful_sampleWalletLibrary
      unlockedCalls).2 [1] _ hkeys (hsome hset) [.reload] [9] _
      ⟨trivial, trivial⟩ (hsome hunlock)
    exact hrestored.1

end CWallet

end CorgiCoin
