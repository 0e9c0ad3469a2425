import CorgiCoin.Wallet

/-!
# What the calls on the keys leave alone

The functions of the key store change the keys, the master keys and their records only: the HD seed,
the key pool, their records and the keys generated so far stay as they are.  No function forgets a
key that was added.
-/

namespace CorgiCoin

open Std

namespace CWallet

/-- Nothing but the keys is different. -/
structure OnlyKeys (w w' : CWallet) : Prop where
  vAdded : w.vAdded ⊆ w'.vAdded
  fHDEnabled : w'.fHDEnabled = w.fHDEnabled
  hdMasterKey : w'.hdMasterKey = w.hdMasterKey
  nHDExternalIndex : w'.nHDExternalIndex = w.nHDExternalIndex
  strHDMnemonic : w'.strHDMnemonic = w.strHDMnemonic
  hdSeedId : w'.hdSeedId = w.hdSeedId
  vchCryptedHDMnemonic : w'.vchCryptedHDMnemonic = w.vchCryptedHDMnemonic
  setKeyPool : w'.setKeyPool = w.setKeyPool
  vchDefaultKey : w'.vchDefaultKey = w.vchDefaultKey
  vGenerated : w'.vGenerated = w.vGenerated
  pool : w'.db.pool = w.db.pool
  hdchain : w'.db.hdchain = w.db.hdchain
  hdseedid : w'.db.hdseedid = w.db.hdseedid
  defaultkey : w'.db.defaultkey = w.db.defaultkey
  hdmnemonic : w'.db.hdmnemonic = w.db.hdmnemonic
  chdmnemonic : w'.db.chdmnemonic = w.db.chdmnemonic

theorem OnlyKeys.refl (w : CWallet) :
  OnlyKeys w w
  := ⟨List.Subset.refl _, rfl, rfl, rfl, rfl, rfl, rfl, rfl, rfl, rfl, rfl, rfl, rfl, rfl, rfl, rfl⟩

theorem OnlyKeys.trans {w w' w'' : CWallet} (h : OnlyKeys w w') (h' : OnlyKeys w' w'') :
  OnlyKeys w w''
  := by
  constructor
  · exact List.Subset.trans h.vAdded h'.vAdded
  · exact h'.fHDEnabled.trans h.fHDEnabled
  · exact h'.hdMasterKey.trans h.hdMasterKey
  · exact h'.nHDExternalIndex.trans h.nHDExternalIndex
  · exact h'.strHDMnemonic.trans h.strHDMnemonic
  · exact h'.hdSeedId.trans h.hdSeedId
  · exact h'.vchCryptedHDMnemonic.trans h.vchCryptedHDMnemonic
  · exact h'.setKeyPool.trans h.setKeyPool
  · exact h'.vchDefaultKey.trans h.vchDefaultKey
  · exact h'.vGenerated.trans h.vGenerated
  · exact h'.pool.trans h.pool
  · exact h'.hdchain.trans h.hdchain
  · exact h'.hdseedid.trans h.hdseedid
  · exact h'.defaultkey.trans h.defaultkey
  · exact h'.hdmnemonic.trans h.hdmnemonic
  · exact h'.chdmnemonic.trans h.chdmnemonic

/-- A change of the fields that are about keys. -/
theorem OnlyKeys.of_update
    (w : CWallet) {mapKeys mapUnencryptedKeys : ExtTreeMap CKeyID CKey}
    {mapCryptedKeys : ExtTreeMap CKeyID (CPubKey × Bytes)} {fUseCrypto : Bool} {vMasterKey : Bytes}
    {mapMasterKeys mkey : ExtTreeMap ℕ CMasterKey} {nMasterKeyMaxID : ℕ} {key wkey : ExtTreeMap Bytes ℕ}
    {ckey : ExtTreeMap Bytes Bytes} {vAdded : List CKey} (hadded : w.vAdded ⊆ vAdded) :
  OnlyKeys w
    { w with
      mapKeys := mapKeys
      mapUnencryptedKeys := mapUnencryptedKeys
      mapCryptedKeys := mapCryptedKeys
      fUseCrypto := fUseCrypto
      vMasterKey := vMasterKey
      mapMasterKeys := mapMasterKeys
      nMasterKeyMaxID := nMasterKeyMaxID
      vAdded := vAdded
      db := { w.db with key := key, wkey := wkey, ckey := ckey, mkey := mkey } }
  := ⟨hadded, rfl, rfl, rfl, rfl, rfl, rfl, rfl, rfl, rfl, rfl, rfl, rfl, rfl, rfl, rfl⟩

variable {library : WalletLibrary} (w : CWallet)

theorem onlyKeys_setCrypted :
  OnlyKeys w w.setCrypted.1
  := by
  rw [setCrypted]
  split_ifs
  · apply OnlyKeys.refl
  · apply OnlyKeys.refl
  · exact OnlyKeys.of_update w (List.Subset.refl _)

theorem onlyKeys_lock :
  OnlyKeys w w.lock
  := by
  have hset := onlyKeys_setCrypted w
  rw [lock]
  rcases hcrypted : w.setCrypted with ⟨w', _ | _⟩
  · rw [hcrypted] at hset
    exact hset
  · rw [hcrypted] at hset
    exact hset.trans (OnlyKeys.of_update w' (List.Subset.refl _))

theorem onlyKeys_addCryptedKey (vchPubKey vchCryptedSecret : Bytes) :
  OnlyKeys w (w.addCryptedKey library vchPubKey vchCryptedSecret).1
  := by
  have hset := onlyKeys_setCrypted w
  rw [addCryptedKey, addCryptedKeyToStore]
  rcases hcrypted : w.setCrypted with ⟨w', _ | _⟩
  · rw [hcrypted] at hset
    exact hset
  · rw [hcrypted] at hset
    apply hset.trans
    simp only [WalletDB.writeCryptedKey]
    split_ifs
    · exact OnlyKeys.of_update w' (List.Subset.refl _)
    · exact OnlyKeys.of_update w' (List.Subset.refl _)

theorem onlyKeys_addKey (key : CKey) :
  OnlyKeys w (w.addKey library key).1
  := by
  have hcons : w.vAdded ⊆ key :: w.vAdded := List.subset_cons_self key w.vAdded
  simp only [addKey]
  split_ifs
  · simp only [WalletDB.writeKey]
    split_ifs
    · exact OnlyKeys.of_update w hcons
    · exact OnlyKeys.of_update w hcons
  · apply OnlyKeys.refl
  · split
    · apply OnlyKeys.refl
    · exact (OnlyKeys.of_update w hcons).trans (onlyKeys_addCryptedKey _ _ _)

theorem onlyKeys_encryptLeftoverKey (item : CKeyID × CKey) :
  OnlyKeys w (w.encryptLeftoverKey library item)
  := by
  have hadd := @onlyKeys_addKey library w item.2
  rw [encryptLeftoverKey]
  rcases haddKey : w.addKey library item.2 with ⟨w', _ | _⟩
  · rw [haddKey] at hadd
    exact hadd.trans (OnlyKeys.of_update w' (List.Subset.refl _))
  · rw [haddKey] at hadd
    exact hadd

theorem onlyKeys_encryptLeftoverKeys (items : List (CKeyID × CKey)) :
  OnlyKeys w (items.foldl (encryptLeftoverKey library) w)
  := by
  induction items generalizing w with
  | nil => exact OnlyKeys.refl w
  | cons item items ih => exact (onlyKeys_encryptLeftoverKey w item).trans (ih _)

theorem onlyKeys_encryptLeftoverPlaintextKeys :
  OnlyKeys w (w.encryptLeftoverPlaintextKeys library)
  := by
  rw [encryptLeftoverPlaintextKeys]
  split_ifs
  · apply OnlyKeys.refl
  · exact (OnlyKeys.of_update w (List.Subset.refl _)).trans (onlyKeys_encryptLeftoverKeys _ _)

theorem onlyKeys_unlockStore (vMasterKeyIn : Bytes) :
  OnlyKeys w (w.unlockStore library vMasterKeyIn).1
  := by
  have hset := onlyKeys_setCrypted w
  rw [unlockStore]
  rcases hcrypted : w.setCrypted with ⟨w', _ | _⟩
  · rw [hcrypted] at hset
    exact hset
  · rw [hcrypted] at hset
    apply hset.trans
    simp only
    split
    · exact OnlyKeys.of_update w' (List.Subset.refl _)
    · split_ifs
      · exact OnlyKeys.of_update w' (List.Subset.refl _)
      · apply OnlyKeys.refl

theorem onlyKeys_unlockWithMethods
    (strWalletPassphrase : Bytes) (kMasterKey : CMasterKey) (nMethods : List ℕ) :
  OnlyKeys w (w.unlockWithMethods library strWalletPassphrase kMasterKey nMethods).1
  := by
  induction nMethods generalizing w with
  | nil => exact OnlyKeys.refl w
  | cons nMethod nMethods ih =>
    rw [unlockWithMethods]
    cases openMasterKey library strWalletPassphrase kMasterKey nMethod with
    | none => exact ih w
    | some vMasterKey =>
      have hunlock := @onlyKeys_unlockStore library w vMasterKey
      simp only
      rcases hstore : w.unlockStore library vMasterKey with ⟨w', _ | _⟩
      · rw [hstore] at hunlock
        exact hunlock.trans (ih w')
      · rw [hstore] at hunlock
        exact hunlock.trans (onlyKeys_encryptLeftoverPlaintextKeys w')

theorem onlyKeys_unlockWithMasterKey (strWalletPassphrase : Bytes) (kMasterKey : CMasterKey) :
  OnlyKeys w (w.unlockWithMasterKey library strWalletPassphrase kMasterKey).1
  := onlyKeys_unlockWithMethods w strWalletPassphrase kMasterKey _

theorem onlyKeys_reencrypt
    (nID : ℕ) (kMasterKey : CMasterKey) (vMasterKey strNewWalletPassphrase : Bytes) :
  OnlyKeys w (w.reencrypt library nID kMasterKey vMasterKey strNewWalletPassphrase).1
  := by
  rw [reencrypt]
  split
  · exact OnlyKeys.of_update w (List.Subset.refl _)
  · exact OnlyKeys.of_update w (List.Subset.refl _)

theorem onlyKeys_changePassphraseLoop
    (fWasLocked : Bool) (strOldWalletPassphrase strNewWalletPassphrase : Bytes)
    (nDeriveIterations : ℕ) (kMasterKeys : List (ℕ × CMasterKey)) :
  OnlyKeys w (w.changePassphraseLoop library fWasLocked strOldWalletPassphrase
    strNewWalletPassphrase nDeriveIterations kMasterKeys).1
  := by
  induction kMasterKeys generalizing w with
  | nil => exact OnlyKeys.refl w
  | cons item kMasterKeys ih =>
    obtain ⟨nID, kMasterKey⟩ := item
    have hunlock := @onlyKeys_unlockWithMasterKey library w strOldWalletPassphrase kMasterKey
    rw [changePassphraseLoop]
    rcases hresult : w.unlockWithMasterKey library strOldWalletPassphrase kMasterKey
      with ⟨w', _ | vMasterKey⟩
    · rw [hresult] at hunlock
      exact hunlock.trans (ih w')
    · rw [hresult] at hunlock
      simp only
      split
      · rename_i w'' hreencrypt
        apply hunlock.trans
        rw [show w'' = (_, false).1 from rfl, ← hreencrypt]
        apply onlyKeys_reencrypt
      · rename_i w'' hreencrypt
        have hsecond : OnlyKeys w' w'' := by
          rw [show w'' = (w'', true).1 from rfl, ← hreencrypt]
          apply onlyKeys_reencrypt
        apply (hunlock.trans hsecond).trans
        split_ifs
        · exact onlyKeys_lock w''
        · exact OnlyKeys.refl w''

theorem onlyKeys_changeWalletPassphrase
    (strOldWalletPassphrase strNewWalletPassphrase : Bytes) (nDeriveIterations : ℕ) :
  OnlyKeys w (w.changeWalletPassphrase library strOldWalletPassphrase strNewWalletPassphrase
    nDeriveIterations).1
  := (onlyKeys_lock w).trans (onlyKeys_changePassphraseLoop _ _ _ _ _ _)

theorem onlyKeys_encryptKeys {w w' : CWallet} {vMasterKeyIn : Bytes}
    (h : w.encryptKeys library vMasterKeyIn = some w') :
  OnlyKeys w w'
  := by
  have hkey : ∀ (key : CKey) {w w' : CWallet}, w.encryptKey library vMasterKeyIn key = some w' →
      OnlyKeys w w' := by
    intro key w w' h
    simp only [encryptKey] at h
    split at h
    · cases h
    · split at h
      · cases h
      · rename_i hadd
        cases h
        have hadded := @onlyKeys_addCryptedKey library w
          (key.getPubKey library.toKeyLibrary) ‹Bytes›
        rw [hadd] at hadded
        exact hadded
  have hkeys : ∀ (keys : List CKey) {w w' : CWallet},
      keys.foldlM (encryptKey library vMasterKeyIn) w = some w' → OnlyKeys w w' := by
    intro keys
    induction keys with
    | nil =>
      intro w w' h
      cases h
      exact OnlyKeys.refl w
    | cons key keys ih =>
      intro w w' h
      rw [List.foldlM_cons] at h
      obtain ⟨w₁, hfirst, hrest⟩ := Option.bind_eq_some_iff.mp h
      exact (hkey key hfirst).trans (ih hrest)
  rw [encryptKeys] at h
  split_ifs at h
  obtain ⟨w₁, hfold, hlast⟩ := Option.bind_eq_some_iff.mp h
  cases hlast
  exact (OnlyKeys.of_update w (List.Subset.refl _)).trans
    ((hkeys _ hfold).trans (OnlyKeys.of_update w₁ (List.Subset.refl _)))

theorem onlyKeys_addMasterKey (kMasterKey : CMasterKey) :
  OnlyKeys w (w.addMasterKey kMasterKey)
  := OnlyKeys.of_update w (List.Subset.refl _)

/-! ## The other calls -/

theorem vAdded_decryptHDSeed (vMasterKeyIn : Bytes) :
  (w.decryptHDSeed library vMasterKeyIn).vAdded = w.vAdded
  := by
  rw [decryptHDSeed]
  split_ifs
  · rfl
  · split
    · rfl
    · split_ifs
      · rfl
      · rfl

theorem subset_vAdded_unlockLoop (strWalletPassphrase : Bytes) (kMasterKeys : List (ℕ × CMasterKey)) :
  w.vAdded ⊆ (w.unlockLoop library strWalletPassphrase kMasterKeys).1.vAdded
  := by
  induction kMasterKeys generalizing w with
  | nil => exact List.Subset.refl _
  | cons item kMasterKeys ih =>
    obtain ⟨nID, kMasterKey⟩ := item
    have hunlock := @onlyKeys_unlockWithMasterKey library w strWalletPassphrase kMasterKey
    rw [unlockLoop]
    rcases hresult : w.unlockWithMasterKey library strWalletPassphrase kMasterKey
      with ⟨w', _ | vMasterKey⟩
    · rw [hresult] at hunlock
      exact List.Subset.trans hunlock.vAdded (ih w')
    · rw [hresult] at hunlock
      simp only [vAdded_decryptHDSeed]
      exact hunlock.vAdded

theorem subset_vAdded_unlock (strWalletPassphrase : Bytes) :
  w.vAdded ⊆ (w.unlock library strWalletPassphrase).1.vAdded
  := by
  rw [unlock]
  split_ifs
  · apply List.Subset.refl
  · apply subset_vAdded_unlockLoop

/-- The child of the HD master key that is generated next, or the key that `MakeNewKey` makes. -/
def nextKey (library : WalletLibrary) (w : CWallet) (rand : CKey) : Option CKey :=
  if w.fHDEnabled && !w.isLocked then
    w.hdMasterKey.bind (fun master => deriveHDChild library.toKeyLibrary master w.nHDExternalIndex)
  else some rand

/-- The wallet after a generated key was added. -/
def countKey (w : CWallet) (fHD : Bool) (key : CKey) : CWallet :=
  { (if fHD then w.countHDKey else w) with vGenerated := w.vGenerated ++ [key] }

/-- `GenerateNewKey` throws, or it adds the next key and counts it. -/
theorem generateNewKey_cases (rand : CKey) :
  OnlyKeys w (w.generateNewKey library rand).1 ∧ (w.generateNewKey library rand).2 = none
    ∨ ∃ key w', w.nextKey library rand = some key ∧ w.addKey library key = (w', true)
      ∧ w.generateNewKey library rand
        = (w'.countKey (w.fHDEnabled && !w.isLocked) key, some (key.getPubKey library.toKeyLibrary))
  := by
  have hadded : ∀ (key : CKey) {w' : CWallet}, w.addKey library key = (w', false) → OnlyKeys w w' := by
    intro key w' hadd
    have honly := @onlyKeys_addKey library w key
    rw [hadd] at honly
    exact honly
  rw [generateNewKey, nextKey]
  cases w.fHDEnabled && !w.isLocked with
  | true =>
    simp only [if_true]
    cases w.hdMasterKey.bind (fun master =>
        deriveHDChild library.toKeyLibrary master w.nHDExternalIndex) with
    | none => exact .inl ⟨OnlyKeys.refl w, rfl⟩
    | some key =>
      rcases hadd : w.addKey library key with ⟨w', _ | _⟩
      · simp only [hadd]
        exact .inl ⟨hadded key hadd, trivial⟩
      · exact .inr ⟨key, w', rfl, hadd, by simp only [hadd]; rfl⟩
  | false =>
    simp only [Bool.false_eq_true, if_false]
    rcases hadd : w.addKey library rand with ⟨w', _ | _⟩
    · exact .inl ⟨hadded rand hadd, rfl⟩
    · exact .inr ⟨rand, w', rfl, hadd, rfl⟩

theorem vAdded_countKey (fHD : Bool) (key : CKey) :
  (w.countKey fHD key).vAdded = w.vAdded
  := by
  cases fHD with
  | true => rfl
  | false => rfl

theorem subset_vAdded_generateNewKey (rand : CKey) :
  w.vAdded ⊆ (w.generateNewKey library rand).1.vAdded
  := by
  rcases @generateNewKey_cases library w rand with ⟨honly, _⟩ | ⟨key, w', _, hadd, hresult⟩
  · exact honly.vAdded
  · have honly := @onlyKeys_addKey library w key
    rw [hadd] at honly
    rw [hresult, vAdded_countKey]
    exact honly.vAdded

/-! ### Filling the pool -/

/-- The wallet after `NewKeyPool` has dropped the old pool. -/
def emptyPool (w : CWallet) : CWallet :=
  { w with
    db := { w.db with pool := w.db.pool.filter (fun nIndex _ => nIndex ∉ w.setKeyPool) }
    setKeyPool := ∅ }

theorem newKeyPool_eq (nKeys : ℕ) (rands : ℕ → CKey) :
  w.newKeyPool library nKeys rands
    = if w.isLocked then (w.emptyPool, false) else newPoolLoop library rands nKeys 0 w.emptyPool
  := rfl

/-- What is kept by generating keys and by any change of the pool. -/
structure PoolStable (library : WalletLibrary) (ok : CKey → Prop) (P : CWallet → Prop) : Prop where
  generate : ∀ {w : CWallet} {rand : CKey}, ok rand → P w → P (w.generateNewKey library rand).1
  pool : ∀ {w : CWallet} (setKeyPool : ExtTreeSet ℕ) (pool : ExtTreeMap ℕ CPubKey), P w →
    P { w with setKeyPool := setKeyPool, db := { w.db with pool := pool } }

namespace PoolStable

variable {ok : CKey → Prop} {P : CWallet → Prop} {w : CWallet} {rands : ℕ → CKey}

theorem addPoolKey
    (h : PoolStable library ok P) {rand : CKey} (hrand : ok rand) (nIndex : ℕ) (hw : P w) :
  P (w.addPoolKey library nIndex rand).1
  := by
  have hgenerate := h.generate hrand hw
  rw [CWallet.addPoolKey]
  rcases hresult : w.generateNewKey library rand with ⟨w', _ | vchPubKey⟩
  · rw [hresult] at hgenerate
    exact hgenerate
  · rw [hresult] at hgenerate
    exact h.pool _ _ hgenerate

theorem newPoolLoop
    (h : PoolStable library ok P) (hrands : ∀ i, ok (rands i)) (n i : ℕ) (hw : P w) :
  P (newPoolLoop library rands n i w).1
  := by
  induction n generalizing w i with
  | zero => exact hw
  | succ n ih =>
    have hadd := h.addPoolKey (hrands i) (i + 1) hw
    rw [CWallet.newPoolLoop]
    rcases hresult : w.addPoolKey library (i + 1) (rands i) with ⟨w', _ | _⟩
    · rw [hresult] at hadd
      exact hadd
    · rw [hresult] at hadd
      exact ih (i + 1) hadd

theorem newKeyPool
    (h : PoolStable library ok P) (hrands : ∀ i, ok (rands i)) (nKeys : ℕ) (hw : P w) :
  P (w.newKeyPool library nKeys rands).1
  := by
  rw [newKeyPool_eq]
  split_ifs
  · exact h.pool _ _ hw
  · exact h.newPoolLoop hrands nKeys 0 (h.pool _ _ hw)

theorem topUpLoop
    (h : PoolStable library ok P) (hrands : ∀ i, ok (rands i)) (nSize n i : ℕ) (hw : P w) :
  P (topUpLoop library rands nSize n i w).1
  := by
  induction n generalizing w i with
  | zero => exact hw
  | succ n ih =>
    have hadd := h.addPoolKey (hrands i) w.nEnd hw
    rw [CWallet.topUpLoop]
    split_ifs
    · rcases hresult : w.addPoolKey library w.nEnd (rands i) with ⟨w', _ | _⟩
      · rw [hresult] at hadd
        exact hadd
      · rw [hresult] at hadd
        exact ih (i + 1) hadd
    · exact hw

theorem topUpKeyPool
    (h : PoolStable library ok P) (hrands : ∀ i, ok (rands i)) (nKeys : ℕ) (hw : P w) :
  P (w.topUpKeyPool library nKeys rands).1
  := by
  rw [CWallet.topUpKeyPool]
  split_ifs
  · exact hw
  · exact h.topUpLoop hrands _ _ 0 hw

end PoolStable

theorem poolStable_vAdded (library : WalletLibrary) (held : List CKey) :
  PoolStable library (fun _ => True) (fun w => held ⊆ w.vAdded)
  := by
  constructor
  · intro w rand _ hw
    exact List.Subset.trans hw (subset_vAdded_generateNewKey w rand)
  · intro w setKeyPool pool hw
    exact hw

theorem subset_vAdded_newKeyPool (nKeys : ℕ) (rands : ℕ → CKey) :
  w.vAdded ⊆ (w.newKeyPool library nKeys rands).1.vAdded
  := (poolStable_vAdded library w.vAdded).newKeyPool (fun _ => trivial) nKeys (List.Subset.refl _)

theorem subset_vAdded_topUpKeyPool (nKeys : ℕ) (rands : ℕ → CKey) :
  w.vAdded ⊆ (w.topUpKeyPool library nKeys rands).1.vAdded
  := (poolStable_vAdded library w.vAdded).topUpKeyPool (fun _ => trivial) nKeys (List.Subset.refl _)

/-! ### The seed and encryption -/

theorem vAdded_setHDSeedFromMnemonic (mnemonic : Bytes) :
  (w.setHDSeedFromMnemonic library mnemonic).1.vAdded = w.vAdded
  := by
  rw [setHDSeedFromMnemonic]
  split_ifs
  · rfl
  · rfl
  · rw [writeHDSeed]
    split_ifs
    · split
      · rfl
      · rfl
    · rfl

theorem vAdded_encryptHDSeed {w w' : CWallet} {vMasterKey : Bytes}
    (h : w.encryptHDSeed library vMasterKey = some w') :
  w'.vAdded = w.vAdded
  := by
  rw [encryptHDSeed] at h
  split_ifs at h
  · split at h
    · cases h
    · cases h
      rfl
  · cases h
    rfl

/-- What `EncryptWallet` does before it rebuilds the pool. -/
theorem encryptSecrets_cases {w w' : CWallet} {strWalletPassphrase : Bytes} {input : EncryptInput}
    (h : w.encryptSecrets library strWalletPassphrase input = some w') :
  ∃ w₁, OnlyKeys w w₁ ∧ w₁.encryptHDSeed library input.vMasterKey = some w'
  := by
  simp only [encryptSecrets] at h
  obtain ⟨key, _, h⟩ := Option.bind_eq_some_iff.mp h
  obtain ⟨w₁, hkeys, h⟩ := Option.bind_eq_some_iff.mp h
  exact ⟨w₁, (onlyKeys_addMasterKey w _).trans (onlyKeys_encryptKeys hkeys), h⟩

theorem vAdded_reload :
  (w.reload library).vAdded = w.vAdded
  := by
  rw [reload]
  split
  · rfl
  · rfl

/-- What the new pool has, and a wallet still has when it is locked, is there after the rebuilding. -/
theorem rebuildPool_of
    {P : CWallet → Prop} (hlock : ∀ w', P w' → P w'.lock) {strWalletPassphrase : Bytes} {nKeys : ℕ}
    {rands : ℕ → CKey}
    (h : P ((w.lock.unlock library strWalletPassphrase).1.newKeyPool library nKeys rands).1) :
  P (w.rebuildPool library strWalletPassphrase nKeys rands)
  := by
  simp only [rebuildPool]
  rcases hnew : (w.lock.unlock library strWalletPassphrase).1.newKeyPool library nKeys rands
    with ⟨w', _ | _⟩
  · rw [hnew] at h
    simp only
    split_ifs
    · exact hlock w' h
    · exact h
  · rw [hnew] at h
    exact hlock w' h

theorem subset_vAdded_rebuildPool
    (strWalletPassphrase : Bytes) (nKeys : ℕ) (rands : ℕ → CKey) :
  w.vAdded ⊆ (w.rebuildPool library strWalletPassphrase nKeys rands).vAdded
  := by
  have hunlock := List.Subset.trans (onlyKeys_lock w).vAdded
    (@subset_vAdded_unlock library w.lock strWalletPassphrase)
  have hpool := List.Subset.trans hunlock
    (@subset_vAdded_newKeyPool library (w.lock.unlock library strWalletPassphrase).1 nKeys rands)
  exact @rebuildPool_of _ w (fun w' => w.vAdded ⊆ w'.vAdded)
    (fun w' h => List.Subset.trans h (onlyKeys_lock w').vAdded) _ _ _ hpool

theorem subset_vAdded_encryptWallet
    (strWalletPassphrase : Bytes) (input : EncryptInput) (nKeys : ℕ) (rands : ℕ → CKey) :
  w.vAdded ⊆ (w.encryptWallet library strWalletPassphrase input nKeys rands).vAdded
  := by
  rw [encryptWallet]
  split_ifs
  · exact List.Subset.refl _
  · cases hsecrets : w.encryptSecrets library strWalletPassphrase input with
    | none =>
      simp only [vAdded_reload]
      exact List.Subset.refl _
    | some w' =>
      obtain ⟨w₁, honly, hseed⟩ := encryptSecrets_cases hsecrets
      apply List.Subset.trans honly.vAdded
      rw [← vAdded_encryptHDSeed hseed]
      exact subset_vAdded_rebuildPool w' strWalletPassphrase nKeys rands

end CWallet

end CorgiCoin
