import Mathlib.Data.List.Nodup
import CorgiCoin.Lib.Transition
import CorgiCoin.WalletFrame

/-!
# The wallet keeps its keys

A key that was ever put into the wallet is in one of its maps and in one of the records of its
database, under its own public key, through encryption, locking, unlocking and restarts.  Whenever
the wallet is unlocked, `GetKey` returns it with its secret and its compression flag.
-/

namespace CorgiCoin

open Std Codec Transition TreeMap

/-- What the wallet relies on from the cipher and the curve: decryption inverts encryption, the
length of a public key tells whether it is compressed, and a secret decrypted with a wrong master
key is not the one of the public key. -/
structure WalletLibrary.Lawful (library : WalletLibrary) : Prop where
  decrypt_encrypt : ∀ key plaintext, library.decrypt key (library.encrypt key plaintext)
    = some plaintext
  isPublicKey : ∀ key : CKey, key.Valid →
    library.isPublicKey (key.getPubKey library.toKeyLibrary) = true
  length_publicKey : ∀ key : CKey, key.Valid →
    (key.getPubKey library.toKeyLibrary).length = if key.fCompressed then 33 else 65
  wrong_key : ∀ (key : CKey) (vMasterKey vMasterKey' iv vchSecret : Bytes), key.Valid →
    vMasterKey.length = WALLET_CRYPTO_KEY_SIZE → vMasterKey'.length = WALLET_CRYPTO_KEY_SIZE →
    library.decrypt (vMasterKey', iv) (library.encrypt (vMasterKey, iv) key.getSecret)
      = some vchSecret →
    library.publicKey (ofBE vchSecret) key.fCompressed = key.getPubKey library.toKeyLibrary →
    vMasterKey' = vMasterKey

namespace CWallet

variable (library : WalletLibrary)

/-! ## The calls -/

/-- What is done to a wallet.  The keys that `MakeNewKey` makes, the random numbers and the timing
of the key derivation are inputs. -/
inductive Call
  | addKey (key : ValidKey)
  | generateNewKey (rand : ValidKey)
  | newKeyPool (nKeys : ℕ) (rands : ℕ → ValidKey)
  | topUpKeyPool (nKeys : ℕ) (rands : ℕ → ValidKey)
  | encryptWallet (strWalletPassphrase : Bytes) (input : EncryptInput) (nKeys : ℕ)
      (rands : ℕ → ValidKey)
  | lock
  | unlock (strWalletPassphrase : Bytes)
  | changeWalletPassphrase (strOldWalletPassphrase strNewWalletPassphrase : Bytes)
      (nDeriveIterations : ℕ)
  | setHDSeedFromMnemonic (mnemonic : Bytes)
  | encryptLeftoverPlaintextKeys
  | reload

def step (w : CWallet) : Call → CWallet
  | .addKey key => (w.addKey library key).1
  | .generateNewKey rand => (w.generateNewKey library rand).1
  | .newKeyPool nKeys rands => (w.newKeyPool library nKeys (fun i => rands i)).1
  | .topUpKeyPool nKeys rands => (w.topUpKeyPool library nKeys (fun i => rands i)).1
  | .encryptWallet strWalletPassphrase input nKeys rands =>
    w.encryptWallet library strWalletPassphrase input nKeys (fun i => rands i)
  | .lock => w.lock
  | .unlock strWalletPassphrase => (w.unlock library strWalletPassphrase).1
  | .changeWalletPassphrase strOldWalletPassphrase strNewWalletPassphrase nDeriveIterations =>
    (w.changeWalletPassphrase library strOldWalletPassphrase strNewWalletPassphrase
      nDeriveIterations).1
  | .setHDSeedFromMnemonic mnemonic => (w.setHDSeedFromMnemonic library mnemonic).1
  | .encryptLeftoverPlaintextKeys => w.encryptLeftoverPlaintextKeys library
  | .reload => w.reload library

/-! ## What is stored -/

/-- The secret of a key encrypted with a master key. -/
def crypted (M : Bytes) (key : CKey) : Bytes :=
  library.encrypt
    (M, serializeUint256 (library.hash (key.getPubKey library.toKeyLibrary))) key.getSecret

/-- The maps of a wallet that holds the keys of a list, with the master key `M`. -/
structure Memory (M : Bytes) (held : List CKey) (w : CWallet) : Prop where
  plain : ∀ (id : CKeyID) (key : CKey), w.mapKeys[id]? = some key →
    key ∈ held ∧ id = key.getID library.toKeyLibrary
  crypted : ∀ (id : CKeyID) (vchPubKey : CPubKey) (vchCryptedSecret : Bytes),
    w.mapCryptedKeys[id]? = some (vchPubKey, vchCryptedSecret) →
    ∃ key ∈ held, id = key.getID library.toKeyLibrary
      ∧ vchPubKey = key.getPubKey library.toKeyLibrary
      ∧ vchCryptedSecret = crypted library M key
  leftover : ∀ (id : CKeyID) (key : CKey), w.mapUnencryptedKeys[id]? = some key →
    key ∈ held ∧ id = key.getID library.toKeyLibrary
  opened : w.fUseCrypto = false →
    w.mapCryptedKeys = ∅ ∧ w.mapUnencryptedKeys = ∅ ∧ w.vMasterKey = []
  master : w.vMasterKey = [] ∨ w.vMasterKey = M

/-- The key records of the database of such a wallet. -/
structure Disk (M : Bytes) (held : List CKey) (db : WalletDB) : Prop where
  key : ∀ (vchPubKey : CPubKey) (secret : ℕ), db.key[vchPubKey]? = some secret →
    ∃ key ∈ held, vchPubKey = key.getPubKey library.toKeyLibrary ∧ secret = key.secret
  wkey : ∀ (vchPubKey : CPubKey) (secret : ℕ), db.wkey[vchPubKey]? = some secret →
    ∃ key ∈ held, vchPubKey = key.getPubKey library.toKeyLibrary ∧ secret = key.secret
  ckey : ∀ (vchPubKey : CPubKey) (vchCryptedSecret : Bytes), db.ckey[vchPubKey]? = some vchCryptedSecret →
    ∃ key ∈ held, vchPubKey = key.getPubKey library.toKeyLibrary
      ∧ vchCryptedSecret = crypted library M key

/-- There is a record of a public key. -/
def InRecords (db : WalletDB) (vchPubKey : CPubKey) : Prop :=
  vchPubKey ∈ db.key ∨ vchPubKey ∈ db.wkey ∨ vchPubKey ∈ db.ckey

/-- The maps and the records that are about keys agree. -/
structure Sound (M : Bytes) (held : List CKey) (w : CWallet) : Prop where
  length : M.length = WALLET_CRYPTO_KEY_SIZE
  valid : ∀ key ∈ held, key.Valid
  memory : Memory library M held w
  disk : Disk library M held w.db
  crypted_disk : ∀ (id : CKeyID) (vchPubKey : CPubKey) (vchCryptedSecret : Bytes),
    w.mapCryptedKeys[id]? = some (vchPubKey, vchCryptedSecret) → vchPubKey ∈ w.db.ckey
  disk_crypted : ∀ vchPubKey : CPubKey, vchPubKey ∈ w.db.ckey → library.hash160 vchPubKey ∈ w.mapCryptedKeys

/-- Every key is in one of the maps, and once the wallet is unlocked among the crypted keys, and it
has a record in the database. -/
structure Complete (held : List CKey) (w : CWallet) : Prop where
  plain : w.fUseCrypto = false → ∀ key ∈ held, key.getID library.toKeyLibrary ∈ w.mapKeys
  crypted : w.fUseCrypto = true → ∀ key ∈ held, key.getID library.toKeyLibrary ∈ w.mapCryptedKeys
    ∨ key.getID library.toKeyLibrary ∈ w.mapUnencryptedKeys
  unlocked : w.fUseCrypto = true → w.vMasterKey ≠ [] →
    ∀ key ∈ held, key.getID library.toKeyLibrary ∈ w.mapCryptedKeys
  closed : w.fUseCrypto = true → w.mapKeys = ∅
  records : ∀ key ∈ held, InRecords w.db (key.getPubKey library.toKeyLibrary)

/-! ## Reading a key -/

/-- No two of some keys have the same id. -/
def Distinct (held : List CKey) : Prop :=
  ∀ key ∈ held, ∀ key' ∈ held,
    key.getID library.toKeyLibrary = key'.getID library.toKeyLibrary → key = key'

variable {library}

theorem length_getSecret (key : CKey) :
  key.getSecret.length = 32
  := by
  rw [CKey.getSecret, toBE32, List.length_reverse, length_toLE]

variable {key : CKey}

theorem ofBE_getSecret (h : key.Valid) :
  ofBE key.getSecret = key.secret
  := ofBE_toBE32 h.1

theorem decryptSecret_crypted
    (hlibrary : library.Lawful) {M : Bytes} (hlength : M.length = WALLET_CRYPTO_KEY_SIZE)
    (key : CKey) :
  decryptSecret library M (crypted library M key)
      (library.hash (key.getPubKey library.toKeyLibrary)) = some key.getSecret
  := by
  rw [decryptSecret, if_neg (not_not.mpr hlength), crypted, hlibrary.decrypt_encrypt]

/-- The length of a public key gives back the flag. -/
theorem flag_of_length (hlibrary : library.Lawful) (h : key.Valid) :
  ((key.getPubKey library.toKeyLibrary).length == 33) = key.fCompressed
  := by
  rw [hlibrary.length_publicKey key h]
  cases key.fCompressed with
  | false => rfl
  | true => rfl

/-- The object that a key is read into, whatever it held. -/
theorem key?_setPubKey_setSecret
    (hlibrary : library.Lawful) (h : key.Valid) (keyOut : KeyObject) :
  ((keyOut.setPubKey library (key.getPubKey library.toKeyLibrary)).setSecret key.getSecret
      false).key? = some key
  := by
  rw [KeyObject.setPubKey, if_pos (hlibrary.isPublicKey key h), KeyObject.key?, KeyObject.setSecret,
    Option.map_some, flag_of_length hlibrary h, ofBE_getSecret h, Bool.false_or]

theorem isLocked_eq_false {w : CWallet} :
  w.isLocked = false ↔ (w.fUseCrypto = true → w.vMasterKey ≠ [])
  := by
  rw [isLocked, Bool.and_eq_false_iff]
  cases w.fUseCrypto <;> simp [List.isEmpty_eq_false_iff]

/-- Every id of an unlocked wallet is read back as a key that has it. -/
theorem getKey_of_sound
    (hlibrary : library.Lawful) {M : Bytes} {held : List CKey} {w : CWallet}
    (h : Sound library M held w) (hcomplete : Complete library held w)
    (hlocked : w.isLocked = false) (hkey : key ∈ held) (keyOut : KeyObject) :
  ∃ keyRead, ∃ key' ∈ held, w.getKey library (key.getID library.toKeyLibrary) keyOut = some keyRead
    ∧ keyRead.key? = some key'
    ∧ key'.getID library.toKeyLibrary = key.getID library.toKeyLibrary
  := by
  cases hcrypto : w.fUseCrypto with
  | false =>
    have hmem := hcomplete.plain hcrypto key hkey
    obtain ⟨key', hget⟩ := Option.isSome_iff_exists.mp (ExtTreeMap.isSome_getElem?_iff_mem.mpr hmem)
    obtain ⟨hheld, hid⟩ := h.memory.plain _ _ hget
    refine ⟨KeyObject.reset.setSecret key'.getSecret key'.fCompressed, key', hheld, ?_, ?_, hid.symm⟩
    · simp only [getKey, getKeyFromStore, hcrypto, Bool.not_false, if_true, hget, Option.map_some]
    · rw [KeyObject.key?, KeyObject.setSecret, Option.map_some, ofBE_getSecret (h.valid key' hheld)]
      simp [KeyObject.reset]
  | true =>
    have hmaster : w.vMasterKey = M := by
      rcases h.memory.master with hempty | hmaster
      · exact absurd hempty (isLocked_eq_false.mp hlocked hcrypto)
      · exact hmaster
    have hmem := hcomplete.unlocked hcrypto (isLocked_eq_false.mp hlocked hcrypto) key hkey
    obtain ⟨⟨vchPubKey, vchCryptedSecret⟩, hget⟩ :=
      Option.isSome_iff_exists.mp (ExtTreeMap.isSome_getElem?_iff_mem.mpr hmem)
    obtain ⟨key', hheld, hid, rfl, rfl⟩ := h.memory.crypted _ _ _ hget
    refine ⟨_, key', hheld, ?_, key?_setPubKey_setSecret hlibrary (h.valid key' hheld) keyOut, hid.symm⟩
    simp only [getKey, getKeyFromStore, hcrypto, Bool.not_true, Bool.false_eq_true, if_false, hget,
      hmaster, decryptSecret_crypted hlibrary h.length, length_getSecret, ne_eq, not_true_eq_false]

/-! ## What the calls leave alone -/

/-- Two wallets with the same keys in memory and in their databases. -/
structure SameKeys (w w' : CWallet) : Prop where
  mapKeys : w'.mapKeys = w.mapKeys
  mapCryptedKeys : w'.mapCryptedKeys = w.mapCryptedKeys
  fUseCrypto : w'.fUseCrypto = w.fUseCrypto
  vMasterKey : w'.vMasterKey = w.vMasterKey
  mapUnencryptedKeys : w'.mapUnencryptedKeys = w.mapUnencryptedKeys
  key : w'.db.key = w.db.key
  wkey : w'.db.wkey = w.db.wkey
  ckey : w'.db.ckey = w.db.ckey
  vAdded : w'.vAdded = w.vAdded

theorem SameKeys.refl (w : CWallet) : SameKeys w w := ⟨rfl, rfl, rfl, rfl, rfl, rfl, rfl, rfl, rfl⟩

variable {w' : CWallet}

theorem SameKeys.trans {w w'' : CWallet} (h : SameKeys w w') (h' : SameKeys w' w'') :
  SameKeys w w''
  := ⟨h'.mapKeys.trans h.mapKeys, h'.mapCryptedKeys.trans h.mapCryptedKeys,
    h'.fUseCrypto.trans h.fUseCrypto, h'.vMasterKey.trans h.vMasterKey,
    h'.mapUnencryptedKeys.trans h.mapUnencryptedKeys, h'.key.trans h.key, h'.wkey.trans h.wkey,
    h'.ckey.trans h.ckey, h'.vAdded.trans h.vAdded⟩

theorem SameKeys.isLocked {w : CWallet} (h : SameKeys w w') :
  w'.isLocked = w.isLocked
  := by
  rw [CWallet.isLocked, h.fUseCrypto, h.vMasterKey, CWallet.isLocked]

/-- A wallet that holds the keys of a list and has each of them in its maps. -/
structure Kept (library : WalletLibrary) (M : Bytes) (held : List CKey) (w : CWallet) : Prop where
  sound : Sound library M held w
  complete : Complete library held w

variable {M : Bytes} {held : List CKey} {w : CWallet}

theorem Kept.of_same (h : Kept library M held w) (hsame : SameKeys w w') :
  Kept library M held w'
  := by
  obtain ⟨⟨hlength, hvalid, hmemory, hdisk, hcrypted, hckey⟩, hcomplete⟩ := h
  refine ⟨⟨hlength, hvalid, ?_, ?_, ?_, ?_⟩, ?_⟩
  · constructor
    · rw [hsame.mapKeys]
      exact hmemory.plain
    · rw [hsame.mapCryptedKeys]
      exact hmemory.crypted
    · rw [hsame.mapUnencryptedKeys]
      exact hmemory.leftover
    · rw [hsame.mapCryptedKeys, hsame.mapUnencryptedKeys, hsame.vMasterKey, hsame.fUseCrypto]
      exact hmemory.opened
    · rw [hsame.vMasterKey]
      exact hmemory.master
  · constructor
    · rw [hsame.key]
      exact hdisk.key
    · rw [hsame.wkey]
      exact hdisk.wkey
    · rw [hsame.ckey]
      exact hdisk.ckey
  · rw [hsame.mapCryptedKeys, hsame.ckey]
    exact hcrypted
  · rw [hsame.mapCryptedKeys, hsame.ckey]
    exact hckey
  · constructor
    · rw [hsame.mapKeys, hsame.fUseCrypto]
      exact hcomplete.plain
    · rw [hsame.mapCryptedKeys, hsame.mapUnencryptedKeys, hsame.fUseCrypto]
      exact hcomplete.crypted
    · rw [hsame.mapCryptedKeys, hsame.vMasterKey, hsame.fUseCrypto]
      exact hcomplete.unlocked
    · rw [hsame.mapKeys, hsame.fUseCrypto]
      exact hcomplete.closed
    · intro key hkey
      rw [InRecords, hsame.key, hsame.wkey, hsame.ckey]
      exact hcomplete.records key hkey

theorem sameKeys_decryptHDSeed (w : CWallet) (vMasterKeyIn : Bytes) :
  SameKeys w (w.decryptHDSeed library vMasterKeyIn)
  := by
  rw [decryptHDSeed]
  split_ifs
  · exact SameKeys.refl w
  · split
    · exact SameKeys.refl w
    · split_ifs
      · exact SameKeys.refl w
      · exact ⟨rfl, rfl, rfl, rfl, rfl, rfl, rfl, rfl, rfl⟩

theorem sameKeys_setHDSeedFromMnemonic (w : CWallet) (mnemonic : Bytes) :
  SameKeys w (w.setHDSeedFromMnemonic library mnemonic).1
  := by
  have hstart : SameKeys w (w.startHDSeed library mnemonic) :=
    ⟨rfl, rfl, rfl, rfl, rfl, rfl, rfl, rfl, rfl⟩
  rw [setHDSeedFromMnemonic]
  split_ifs
  · exact SameKeys.refl w
  · exact SameKeys.refl w
  · apply hstart.trans
    rw [writeHDSeed]
    split_ifs
    · split
      · exact SameKeys.refl _
      · exact ⟨rfl, rfl, rfl, rfl, rfl, rfl, rfl, rfl, rfl⟩
    · exact ⟨rfl, rfl, rfl, rfl, rfl, rfl, rfl, rfl, rfl⟩

/-! ## Locking -/

theorem Kept.setCrypted (h : Kept library M held w) :
  Kept library M held w.setCrypted.1
  := by
  rw [CWallet.setCrypted]
  split_ifs with hcrypto hempty
  · exact h
  · exact h
  · rw [Bool.not_eq_true] at hcrypto
    rw [Bool.not_eq_eq_eq_not, Bool.not_true, Bool.not_eq_false, ExtTreeMap.isEmpty_iff] at hempty
    -- a wallet without a key in its map holds none
    have hnone : ∀ key ∈ held, False := by
      intro key hkey
      have hmem := h.complete.plain hcrypto key hkey
      rw [hempty] at hmem
      exact ExtTreeMap.not_mem_empty hmem
    obtain ⟨⟨hlength, hvalid, hmemory, hdisk, hcrypted, hckey⟩, hcomplete⟩ := h
    refine ⟨⟨hlength, hvalid, ⟨hmemory.plain, hmemory.crypted, hmemory.leftover,
      fun hopened => absurd hopened.symm Bool.false_ne_true, hmemory.master⟩, hdisk, hcrypted, hckey⟩,
      ⟨fun hopened => absurd hopened.symm Bool.false_ne_true, ?_, ?_, fun _ => hempty,
      hcomplete.records⟩⟩
    · exact fun _ key hkey => (hnone key hkey).elim
    · exact fun _ _ key hkey => (hnone key hkey).elim

theorem Kept.clearMasterKey (h : Kept library M held w) :
  Kept library M held { w with vMasterKey := [] }
  := by
  obtain ⟨⟨hlength, hvalid, hmemory, hdisk, hcrypted, hckey⟩, hcomplete⟩ := h
  refine ⟨⟨hlength, hvalid, ⟨hmemory.plain, hmemory.crypted, hmemory.leftover, ?_, .inl rfl⟩, hdisk,
    hcrypted, hckey⟩, ⟨hcomplete.plain, hcomplete.crypted, ?_, hcomplete.closed, hcomplete.records⟩⟩
  · intro hopened
    obtain ⟨hmap, hleftover, _⟩ := hmemory.opened hopened
    exact ⟨hmap, hleftover, rfl⟩
  · exact fun _ hne => absurd rfl hne

theorem Kept.lock (h : Kept library M held w) :
  Kept library M held w.lock
  := by
  have hkept := h.setCrypted
  rw [CWallet.lock]
  rcases hset : w.setCrypted with ⟨w', _ | _⟩
  · rw [hset] at hkept
    exact hkept
  · rw [hset] at hkept
    exact hkept.clearMasterKey

/-! ## Adding a key -/

theorem addCryptedKey_eq (hcrypto : w.fUseCrypto = true) (vchPubKey vchCryptedSecret : Bytes) :
  w.addCryptedKey library vchPubKey vchCryptedSecret
    = match w.db.writeCryptedKey vchPubKey vchCryptedSecret with
      | none =>
        ({ w with
            mapCryptedKeys := w.mapCryptedKeys.insert (library.hash160 vchPubKey)
              (vchPubKey, vchCryptedSecret) }, false)
      | some db =>
        ({ w with
            mapCryptedKeys := w.mapCryptedKeys.insert (library.hash160 vchPubKey)
              (vchPubKey, vchCryptedSecret)
            db := db }, true)
  := by
  cases hwrite : w.db.writeCryptedKey vchPubKey vchCryptedSecret with
  | none => simp [addCryptedKey, addCryptedKeyToStore, CWallet.setCrypted, hcrypto, hwrite]
  | some db => simp [addCryptedKey, addCryptedKeyToStore, CWallet.setCrypted, hcrypto, hwrite]

theorem Memory.insertCrypted
    (h : Memory library M held w) (hcrypto : w.fUseCrypto = true) (hkey : key ∈ held) :
  Memory library M held
    { w with
      mapCryptedKeys := w.mapCryptedKeys.insert (key.getID library.toKeyLibrary)
        (key.getPubKey library.toKeyLibrary, CWallet.crypted library M key) }
  := by
  refine ⟨h.plain, ?_, h.leftover, ?_, h.master⟩
  · intro id vchPubKey vchCryptedSecret hget
    rw [getElem?_insert_ite] at hget
    split_ifs at hget with hid
    · cases hget
      exact ⟨key, hkey, hid.symm, rfl, rfl⟩
    · exact h.crypted id vchPubKey vchCryptedSecret hget
  · intro hopened
    rw [hcrypto] at hopened
    cases hopened

theorem Disk.writeCryptedKey
    {db db' : WalletDB} (h : Disk library M held db) (hkey : key ∈ held)
    (hwrite : db.writeCryptedKey (key.getPubKey library.toKeyLibrary) (crypted library M key)
      = some db') :
  Disk library M held db'
  := by
  rw [WalletDB.writeCryptedKey] at hwrite
  split_ifs at hwrite
  cases hwrite
  constructor
  · intro vchPubKey secret hget
    rw [getElem?_erase_ite] at hget
    split_ifs at hget
    exact h.key vchPubKey secret hget
  · intro vchPubKey secret hget
    rw [getElem?_erase_ite] at hget
    split_ifs at hget
    exact h.wkey vchPubKey secret hget
  · intro vchPubKey vchCryptedSecret hget
    rw [getElem?_insert_ite] at hget
    split_ifs at hget with heq
    · cases hget
      exact ⟨key, hkey, heq.symm, rfl⟩
    · exact h.ckey vchPubKey vchCryptedSecret hget

/-- The crypted secret of a key of the wallet goes into the map and the database. -/
theorem Sound.addCryptedKey
    (h : Sound library M held w) (hcrypto : w.fUseCrypto = true) (hkey : key ∈ held) :
  Sound library M held
    (w.addCryptedKey library (key.getPubKey library.toKeyLibrary) (crypted library M key)).1
  := by
  have hmemory := h.memory.insertCrypted hcrypto hkey
  rw [addCryptedKey_eq hcrypto]
  cases hwrite : w.db.writeCryptedKey (key.getPubKey library.toKeyLibrary) (crypted library M key) with
  | none =>
    have hcontains : key.getPubKey library.toKeyLibrary ∈ w.db.ckey := by
      rw [WalletDB.writeCryptedKey] at hwrite
      split_ifs at hwrite with hcontains
      exact ExtTreeMap.contains_iff_mem.mp hcontains
    refine ⟨h.length, h.valid, hmemory, h.disk, ?_, ?_⟩
    · intro id vchPubKey vchCryptedSecret hget
      rw [getElem?_insert_ite] at hget
      split_ifs at hget
      · cases hget
        exact hcontains
      · exact h.crypted_disk id vchPubKey vchCryptedSecret hget
    · intro vchPubKey hmem
      exact mem_insert_iff.mpr (.inr (h.disk_crypted vchPubKey hmem))
  | some db =>
    have hdisk := h.disk.writeCryptedKey hkey hwrite
    have hckey : db.ckey = w.db.ckey.insert (key.getPubKey library.toKeyLibrary)
        (crypted library M key) := by
      rw [WalletDB.writeCryptedKey] at hwrite
      split_ifs at hwrite
      cases hwrite
      rfl
    refine ⟨h.length, h.valid, ⟨hmemory.plain, hmemory.crypted, hmemory.leftover, hmemory.opened,
      hmemory.master⟩, hdisk, ?_, ?_⟩
    · intro id vchPubKey vchCryptedSecret hget
      rw [getElem?_insert_ite] at hget
      rw [hckey, mem_insert_iff]
      split_ifs at hget
      · cases hget
        exact .inl rfl
      · exact .inr (h.crypted_disk id vchPubKey vchCryptedSecret hget)
    · intro vchPubKey hmem
      rw [hckey, mem_insert_iff] at hmem
      rw [mem_insert_iff]
      rcases hmem with rfl | hmem
      · exact .inl rfl
      · exact .inr (h.disk_crypted vchPubKey hmem)

/-- What `AddCryptedKey` does to the maps of an encrypted wallet. -/
theorem addCryptedKey_maps (hcrypto : w.fUseCrypto = true) (vchPubKey vchCryptedSecret : Bytes) :
  let w' := (w.addCryptedKey library vchPubKey vchCryptedSecret).1
  w'.mapKeys = w.mapKeys ∧ w'.fUseCrypto = true ∧ w'.vMasterKey = w.vMasterKey
    ∧ w'.mapUnencryptedKeys = w.mapUnencryptedKeys ∧ w'.vAdded = w.vAdded
    ∧ w'.mapCryptedKeys = w.mapCryptedKeys.insert (library.hash160 vchPubKey)
        (vchPubKey, vchCryptedSecret)
  := by
  rw [addCryptedKey_eq hcrypto]
  cases w.db.writeCryptedKey vchPubKey vchCryptedSecret with
  | none => exact ⟨rfl, hcrypto, rfl, rfl, rfl, rfl⟩
  | some db => exact ⟨rfl, hcrypto, rfl, rfl, rfl, rfl⟩

/-- `AddCryptedKey` of an encrypted wallet loses no record. -/
theorem inRecords_addCryptedKey
    (hcrypto : w.fUseCrypto = true) (vchPubKey vchCryptedSecret : Bytes) {other : CPubKey}
    (h : other = vchPubKey ∨ InRecords w.db other) :
  InRecords (w.addCryptedKey library vchPubKey vchCryptedSecret).1.db other
  := by
  rw [addCryptedKey_eq hcrypto, WalletDB.writeCryptedKey]
  split_ifs with hcontains
  · rcases h with rfl | h
    · exact .inr (.inr (ExtTreeMap.contains_iff_mem.mp hcontains))
    · exact h
  · -- the record that is erased is the one of the key whose crypted record is written
    by_cases heq : vchPubKey = other
    · exact .inr (.inr (mem_insert_iff.mpr (.inl heq)))
    · simp only [InRecords, mem_erase_iff, mem_insert_iff, heq, false_or, ne_eq, not_false_eq_true,
        true_and]
      rcases h with rfl | h
      · exact absurd rfl heq
      · exact h

theorem Sound.mono
    {held' : List CKey} (h : Sound library M held w) (hsub : held ⊆ held')
    (hvalid : ∀ key ∈ held', key.Valid) :
  Sound library M held' w
  := by
  refine ⟨h.length, hvalid, ⟨?_, ?_, ?_, h.memory.opened, h.memory.master⟩, ⟨?_, ?_, ?_⟩,
    h.crypted_disk, h.disk_crypted⟩
  · intro id key hget
    obtain ⟨hkey, hid⟩ := h.memory.plain id key hget
    exact ⟨hsub hkey, hid⟩
  · intro id vchPubKey vchCryptedSecret hget
    obtain ⟨key, hkey, hrest⟩ := h.memory.crypted id vchPubKey vchCryptedSecret hget
    exact ⟨key, hsub hkey, hrest⟩
  · intro id key hget
    obtain ⟨hkey, hid⟩ := h.memory.leftover id key hget
    exact ⟨hsub hkey, hid⟩
  · intro vchPubKey secret hget
    obtain ⟨key, hkey, hrest⟩ := h.disk.key vchPubKey secret hget
    exact ⟨key, hsub hkey, hrest⟩
  · intro vchPubKey secret hget
    obtain ⟨key, hkey, hrest⟩ := h.disk.wkey vchPubKey secret hget
    exact ⟨key, hsub hkey, hrest⟩
  · intro vchPubKey vchCryptedSecret hget
    obtain ⟨key, hkey, hrest⟩ := h.disk.ckey vchPubKey vchCryptedSecret hget
    exact ⟨key, hsub hkey, hrest⟩

theorem Sound.cons (h : Sound library M held w) (hvalid : key.Valid) :
  Sound library M (key :: held) w
  := h.mono (List.subset_cons_self key held) (List.forall_mem_cons.mpr ⟨hvalid, h.valid⟩)

/-- The keys that a wallet was given, in its own list of them. -/
def Holding (library : WalletLibrary) (M : Bytes) (w : CWallet) : Prop := Kept library M w.vAdded w

theorem addKey_locked (hlocked : w.isLocked = true) :
  w.addKey library key = (w, false)
  := by
  have hcrypto : w.fUseCrypto = true := by
    rw [isLocked, Bool.and_eq_true] at hlocked
    exact hlocked.1
  simp only [addKey, hcrypto, hlocked, Bool.not_true, Bool.false_eq_true, if_false, if_true]

theorem addKey_unlocked
    (hcrypto : w.fUseCrypto = true) (hlength : w.vMasterKey.length = WALLET_CRYPTO_KEY_SIZE) :
  w.addKey library key = { w with vAdded := key :: w.vAdded }.addCryptedKey library
    (key.getPubKey library.toKeyLibrary) (crypted library w.vMasterKey key)
  := by
  have hunlocked : w.isLocked = false := by
    rw [isLocked_eq_false]
    intro _ hempty
    rw [hempty] at hlength
    cases hlength
  simp only [addKey, hcrypto, hunlocked, Bool.not_true, Bool.false_eq_true, if_false, encryptSecret,
    ne_eq, hlength, not_true_eq_false, crypted]

theorem addKey_plain_eq (hcrypto : w.fUseCrypto = false) :
  w.addKey library key
    = match w.db.writeKey (key.getPubKey library.toKeyLibrary) key.secret with
      | none =>
        ({ w with
            mapKeys := w.mapKeys.insert (key.getID library.toKeyLibrary) key
            vAdded := key :: w.vAdded }, false)
      | some db =>
        ({ w with
            mapKeys := w.mapKeys.insert (key.getID library.toKeyLibrary) key
            vAdded := key :: w.vAdded
            db := db }, true)
  := by
  cases hwrite : w.db.writeKey (key.getPubKey library.toKeyLibrary) key.secret with
  | none => simp [addKey, hcrypto, hwrite]
  | some db => simp [addKey, hcrypto, hwrite]

/-- A key goes into the map of an unencrypted wallet whose database has a record of it. -/
theorem Kept.insertPlain
    (h : Kept library M held w) (hcrypto : w.fUseCrypto = false) (hvalid : key.Valid)
    {vAdded : List CKey} {db : WalletDB} (hwkey : db.wkey = w.db.wkey) (hckey : db.ckey = w.db.ckey)
    (hdisk : Disk library M (key :: held) db)
    (hkeys : ∀ vchPubKey, vchPubKey ∈ w.db.key → vchPubKey ∈ db.key)
    (hkey : key.getPubKey library.toKeyLibrary ∈ db.key) :
  Kept library M (key :: held)
    { w with
      mapKeys := w.mapKeys.insert (key.getID library.toKeyLibrary) key
      vAdded := vAdded
      db := db }
  := by
  have hsound := h.sound.cons hvalid
  refine ⟨⟨hsound.length, hsound.valid, ⟨?_, hsound.memory.crypted, hsound.memory.leftover,
    hsound.memory.opened, hsound.memory.master⟩, hdisk, ?_, ?_⟩, ⟨?_, ?_, ?_, ?_, ?_⟩⟩
  · intro id key' hget
    rw [getElem?_insert_ite] at hget
    split_ifs at hget with hid
    · cases hget
      exact ⟨List.mem_cons_self, hid.symm⟩
    · exact hsound.memory.plain id key' hget
  · rw [hckey]
    exact hsound.crypted_disk
  · rw [hckey]
    exact hsound.disk_crypted
  · intro _ key' hmem
    rw [mem_insert_iff]
    rcases List.mem_cons.mp hmem with rfl | hmem
    · exact .inl rfl
    · exact .inr (h.complete.plain hcrypto key' hmem)
  · intro htrue
    rw [hcrypto] at htrue
    cases htrue
  · intro htrue
    rw [hcrypto] at htrue
    cases htrue
  · intro htrue
    rw [hcrypto] at htrue
    cases htrue
  · intro key' hmem
    rw [InRecords, hwkey, hckey]
    rcases List.mem_cons.mp hmem with rfl | hmem
    · exact .inl hkey
    · rcases h.complete.records key' hmem with hrecord | hrecord
      · exact .inl (hkeys _ hrecord)
      · exact .inr hrecord

/-- A key goes into an unencrypted wallet. -/
theorem Kept.addKey_plain
    (h : Kept library M held w) (hcrypto : w.fUseCrypto = false) (hvalid : key.Valid) :
  Kept library M (key :: held) (w.addKey library key).1
  := by
  have hsound := h.sound.cons hvalid
  rw [addKey_plain_eq hcrypto, WalletDB.writeKey]
  split_ifs with hcontains
  · exact h.insertPlain hcrypto hvalid rfl rfl hsound.disk (fun _ hmem => hmem)
      (ExtTreeMap.contains_iff_mem.mp hcontains)
  · refine h.insertPlain hcrypto hvalid ?_ ?_ ?_ ?_ ?_
    · rfl
    · rfl
    · refine ⟨?_, hsound.disk.wkey, hsound.disk.ckey⟩
      intro vchPubKey secret hget
      rw [getElem?_insert_ite] at hget
      split_ifs at hget with heq
      · cases hget
        exact ⟨key, List.mem_cons_self, heq.symm, rfl⟩
      · exact hsound.disk.key vchPubKey secret hget
    · exact fun _ hmem => mem_insert_iff.mpr (.inr hmem)
    · exact mem_insert_iff.mpr (.inl rfl)

/-- A key goes into an encrypted wallet that is unlocked, whatever is left over in it. -/
theorem Sound.addKey_unlocked
    (h : Sound library M held w) (hcrypto : w.fUseCrypto = true)
    (hmaster : w.vMasterKey = M) (hvalid : key.Valid) :
  Sound library M (key :: held) (w.addKey library key).1
  := by
  subst hmaster
  have hsound := h.cons hvalid
  have hadded : Sound library w.vMasterKey (key :: held) { w with vAdded := key :: w.vAdded } :=
    ⟨hsound.length, hsound.valid, ⟨hsound.memory.plain, hsound.memory.crypted,
      hsound.memory.leftover, hsound.memory.opened, hsound.memory.master⟩, hsound.disk,
      hsound.crypted_disk, hsound.disk_crypted⟩
  rw [CWallet.addKey_unlocked hcrypto h.length]
  exact hadded.addCryptedKey hcrypto List.mem_cons_self

/-- What `AddKey` does to the maps of an encrypted wallet that is unlocked. -/
theorem addKey_maps
    {key : CKey} (hcrypto : w.fUseCrypto = true)
    (hlength : w.vMasterKey.length = WALLET_CRYPTO_KEY_SIZE) :
  let w' := (w.addKey library key).1
  w'.mapKeys = w.mapKeys ∧ w'.fUseCrypto = true ∧ w'.vMasterKey = w.vMasterKey
    ∧ w'.mapUnencryptedKeys = w.mapUnencryptedKeys ∧ w'.vAdded = key :: w.vAdded
    ∧ w'.mapCryptedKeys = w.mapCryptedKeys.insert (key.getID library.toKeyLibrary)
        (key.getPubKey library.toKeyLibrary, crypted library w.vMasterKey key)
    ∧ ∀ vchPubKey, vchPubKey = key.getPubKey library.toKeyLibrary ∨ InRecords w.db vchPubKey →
        InRecords w'.db vchPubKey
  := by
  rw [CWallet.addKey_unlocked hcrypto hlength]
  obtain ⟨hkeys, huse, hmaster, hleftover, hadded, hmap⟩ :=
    @addCryptedKey_maps library { w with vAdded := key :: w.vAdded } hcrypto
      (key.getPubKey library.toKeyLibrary) (crypted library w.vMasterKey key)
  refine ⟨hkeys, huse, hmaster, hleftover, hadded, hmap, ?_⟩
  intro vchPubKey h
  exact @inRecords_addCryptedKey library { w with vAdded := key :: w.vAdded } hcrypto _ _ _ h

theorem Holding.addKey (h : Holding library M w) (hvalid : key.Valid) :
  Holding library M (w.addKey library key).1
  := by
  cases hcrypto : w.fUseCrypto with
  | false =>
    have hadded : (w.addKey library key).1.vAdded = key :: w.vAdded := by
      rw [addKey_plain_eq hcrypto]
      cases w.db.writeKey (key.getPubKey library.toKeyLibrary) key.secret with
      | none => rfl
      | some db => rfl
    rw [Holding, hadded]
    exact Kept.addKey_plain h hcrypto hvalid
  | true =>
    cases hlocked : w.isLocked with
    | true =>
      rw [addKey_locked hlocked]
      exact h
    | false =>
      have hmaster : w.vMasterKey = M := by
        rcases h.sound.memory.master with hempty | hmaster
        · exact absurd hempty (isLocked_eq_false.mp hlocked hcrypto)
        · exact hmaster
      have hlength : w.vMasterKey.length = WALLET_CRYPTO_KEY_SIZE := by
        rw [hmaster]
        exact h.sound.length
      obtain ⟨hkeys, huse, hmaster', hleftover, hadded, hmap, hrecords⟩ :=
        @addKey_maps library w key hcrypto hlength
      have hunlocked := h.complete.unlocked hcrypto (isLocked_eq_false.mp hlocked hcrypto)
      have hmem : ∀ key' ∈ key :: w.vAdded, key'.getID library.toKeyLibrary
          ∈ (w.addKey library key).1.mapCryptedKeys := by
        intro key' hmem
        rw [hmap, mem_insert_iff]
        rcases List.mem_cons.mp hmem with rfl | hmem
        · exact .inl rfl
        · exact .inr (hunlocked key' hmem)
      rw [Holding, hadded]
      refine ⟨h.sound.addKey_unlocked hcrypto hmaster hvalid, ⟨?_, ?_, ?_, ?_, ?_⟩⟩
      · intro hfalse
        rw [huse] at hfalse
        cases hfalse
      · exact fun _ key' hkey' => .inl (hmem key' hkey')
      · exact fun _ _ => hmem
      · intro _
        rw [hkeys]
        exact h.complete.closed hcrypto
      · intro key' hkey'
        apply hrecords
        rcases List.mem_cons.mp hkey' with rfl | hkey'
        · exact .inl rfl
        · exact .inr (h.complete.records key' hkey')

/-! ## Unlocking -/

theorem Kept.congr_mem
    {held' : List CKey} (h : Kept library M held w) (hmem : ∀ key, key ∈ held' ↔ key ∈ held) :
  Kept library M held' w
  := by
  refine ⟨h.sound.mono (fun key hkey => (hmem key).mpr hkey) ?_, ⟨?_, ?_, ?_, h.complete.closed, ?_⟩⟩
  · exact fun key hkey => h.sound.valid key ((hmem key).mp hkey)
  · exact fun hcrypto key hkey => h.complete.plain hcrypto key ((hmem key).mp hkey)
  · exact fun hcrypto key hkey => h.complete.crypted hcrypto key ((hmem key).mp hkey)
  · exact fun hcrypto hne key hkey => h.complete.unlocked hcrypto hne key ((hmem key).mp hkey)
  · exact fun key hkey => h.complete.records key ((hmem key).mp hkey)

/-- An encrypted wallet that is unlocked, with keys that may not be in any map. -/
structure Unlocked (library : WalletLibrary) (M : Bytes) (held : List CKey) (w : CWallet) : Prop where
  sound : Sound library M held w
  fUseCrypto : w.fUseCrypto = true
  vMasterKey : w.vMasterKey = M

/-- What adding leftover keys of the wallet does. -/
structure Moved (library : WalletLibrary) (items : List (CKeyID × CKey)) (w w' : CWallet) : Prop where
  mapKeys : w'.mapKeys = w.mapKeys
  mono : ∀ id, id ∈ w.mapCryptedKeys → id ∈ w'.mapCryptedKeys
  moved : ∀ item ∈ items, item.2.getID library.toKeyLibrary ∈ w'.mapCryptedKeys
  records : ∀ vchPubKey, InRecords w.db vchPubKey → InRecords w'.db vchPubKey
  vAdded : ∀ key, key ∈ w'.vAdded ↔ key ∈ w.vAdded ∨ ∃ item ∈ items, item.2 = key

theorem unlocked_encryptLeftoverKey
    (h : Unlocked library M held w) {item : CKeyID × CKey} (hitem : item.2 ∈ held)
    (hid : item.1 = item.2.getID library.toKeyLibrary) :
  Unlocked library M held (w.encryptLeftoverKey library item)
    ∧ Moved library [item] w (w.encryptLeftoverKey library item)
  := by
  have hlength : w.vMasterKey.length = WALLET_CRYPTO_KEY_SIZE := by
    rw [h.vMasterKey]
    exact h.sound.length
  have hsound : Sound library M held (w.addKey library item.2).1 := by
    apply (h.sound.addKey_unlocked h.fUseCrypto h.vMasterKey (h.sound.valid _ hitem)).mono
    · exact List.cons_subset.mpr ⟨hitem, List.Subset.refl held⟩
    · exact h.sound.valid
  obtain ⟨hkeys, huse, hmaster, _, hadded, hmap, hrecords⟩ :=
    @addKey_maps library w item.2 h.fUseCrypto hlength
  have hmoved : Moved library [item] w (w.addKey library item.2).1 := by
    refine ⟨hkeys, ?_, ?_, ?_, ?_⟩
    · intro id hmem
      rw [hmap]
      exact mem_insert_iff.mpr (.inr hmem)
    · intro item' hmem
      rw [List.mem_singleton.mp hmem, hmap]
      exact mem_insert_iff.mpr (.inl rfl)
    · exact fun vchPubKey hrecord => hrecords vchPubKey (.inr hrecord)
    · intro key
      simp only [hadded, List.mem_cons, List.not_mem_nil, or_false, exists_eq_left]
      rw [or_comm, eq_comm]
  rw [encryptLeftoverKey]
  rcases hadd : w.addKey library item.2 with ⟨w', _ | _⟩
  · rw [hadd] at hsound huse hmaster hmoved
    refine ⟨⟨⟨hsound.length, hsound.valid, ⟨hsound.memory.plain, hsound.memory.crypted, ?_, ?_,
      hsound.memory.master⟩, hsound.disk, hsound.crypted_disk, hsound.disk_crypted⟩, huse,
      hmaster.trans h.vMasterKey⟩, ⟨hmoved.mapKeys, hmoved.mono, hmoved.moved, hmoved.records,
      hmoved.vAdded⟩⟩
    · intro id key hget
      rw [getElem?_insert_ite] at hget
      split_ifs at hget with heq
      · cases hget
        exact ⟨hitem, heq.symm.trans hid⟩
      · exact hsound.memory.leftover id key hget
    · intro hfalse
      exact absurd (hfalse.symm.trans huse) Bool.false_ne_true
  · rw [hadd] at hsound huse hmaster hmoved
    exact ⟨⟨hsound, huse, hmaster.trans h.vMasterKey⟩, hmoved⟩

theorem unlocked_encryptLeftoverKeys
    (items : List (CKeyID × CKey)) (h : Unlocked library M held w)
    (hitems : ∀ item ∈ items, item.2 ∈ held ∧ item.1 = item.2.getID library.toKeyLibrary) :
  Unlocked library M held (items.foldl (encryptLeftoverKey library) w)
    ∧ Moved library items w (items.foldl (encryptLeftoverKey library) w)
  := by
  induction items generalizing w with
  | nil => exact ⟨h, ⟨rfl, fun _ hmem => hmem, nofun, fun _ hmem => hmem, by simp⟩⟩
  | cons item items ih =>
    obtain ⟨⟨hheld, hid⟩, hitems⟩ := List.forall_mem_cons.mp hitems
    obtain ⟨hstep, hmoved⟩ := unlocked_encryptLeftoverKey h hheld hid
    obtain ⟨hrun, hmoved'⟩ := ih hstep hitems
    refine ⟨hrun, ⟨hmoved'.mapKeys.trans hmoved.mapKeys, ?_, ?_, ?_, ?_⟩⟩
    · exact fun id hmem => hmoved'.mono id (hmoved.mono id hmem)
    · intro item' hmem
      rcases List.mem_cons.mp hmem with rfl | hmem
      · exact hmoved'.mono _ (hmoved.moved item' (List.mem_singleton_self item'))
      · exact hmoved'.moved item' hmem
    · exact fun vchPubKey hrecord => hmoved'.records _ (hmoved.records _ hrecord)
    · intro key
      rw [List.foldl_cons, hmoved'.vAdded, hmoved.vAdded]
      simp [or_assoc]

theorem Unlocked.isLocked (h : Unlocked library M held w) :
  w.isLocked = false
  := by
  rw [isLocked_eq_false]
  intro _ hempty
  have hlength := h.sound.length
  rw [← h.vMasterKey, hempty] at hlength
  cases hlength

/-- An unlocked wallet all of whose keys are crypted. -/
theorem Unlocked.kept
    (h : Unlocked library M held w)
    (hmaps : ∀ key ∈ held, key.getID library.toKeyLibrary ∈ w.mapCryptedKeys)
    (hrecords : ∀ key ∈ held, InRecords w.db (key.getPubKey library.toKeyLibrary))
    (hclosed : w.mapKeys = ∅) :
  Kept library M held w
  := by
  refine ⟨h.sound, ⟨?_, ?_, ?_, ?_, hrecords⟩⟩
  · intro hfalse
    exact absurd (h.fUseCrypto.symm.trans hfalse) nofun
  · exact fun _ key hkey => .inl (hmaps key hkey)
  · exact fun _ _ => hmaps
  · exact fun _ => hclosed

theorem Unlocked.clear (h : Unlocked library M held w) :
  Unlocked library M held { w with mapUnencryptedKeys := ∅ }
  := by
  have hsound := h.sound
  refine ⟨⟨hsound.length, hsound.valid, ⟨hsound.memory.plain, hsound.memory.crypted, ?_, ?_,
    hsound.memory.master⟩, hsound.disk, hsound.crypted_disk, hsound.disk_crypted⟩, h.fUseCrypto,
    h.vMasterKey⟩
  · intro id key hget
    rw [ExtTreeMap.getElem?_empty] at hget
    cases hget
  · intro hfalse
    exact absurd (hfalse.symm.trans h.fUseCrypto) Bool.false_ne_true

/-- The leftover keys are keys of the wallet. -/
theorem Unlocked.leftover_of_mem_toList
    (h : Unlocked library M held w) (item : CKeyID × CKey)
    (hmem : item ∈ w.mapUnencryptedKeys.toList) :
  item.2 ∈ held ∧ item.1 = item.2.getID library.toKeyLibrary
  := h.sound.memory.leftover item.1 item.2 (ExtTreeMap.mem_toList_iff_getElem?_eq_some.mp hmem)

/-- A wallet that was just unlocked moves its leftover keys to the crypted ones. -/
theorem unlocked_encryptLeftoverPlaintextKeys (h : Unlocked library M held w) :
  Unlocked library M held (w.encryptLeftoverPlaintextKeys library)
    ∧ Moved library w.mapUnencryptedKeys.toList w (w.encryptLeftoverPlaintextKeys library)
  := by
  have hcondition : (w.mapUnencryptedKeys.isEmpty || !w.fUseCrypto || w.isLocked)
      = w.mapUnencryptedKeys.isEmpty := by
    rw [h.fUseCrypto, h.isLocked, Bool.not_true, Bool.or_false, Bool.or_false]
  rw [encryptLeftoverPlaintextKeys, hcondition]
  split_ifs with hempty
  · rw [ExtTreeMap.toList_eq_nil_iff.mpr (ExtTreeMap.isEmpty_iff.mp hempty)]
    apply unlocked_encryptLeftoverKeys [] h (fun _ hmem => absurd hmem List.not_mem_nil)
  · obtain ⟨hrun, hmoved⟩ := unlocked_encryptLeftoverKeys _ h.clear h.leftover_of_mem_toList
    exact ⟨hrun, hmoved.mapKeys, hmoved.mono, hmoved.moved, hmoved.records, hmoved.vAdded⟩

theorem mem_vAdded_encryptLeftoverPlaintextKeys (h : Unlocked library M w.vAdded w) (key : CKey) :
  key ∈ (w.encryptLeftoverPlaintextKeys library).vAdded ↔ key ∈ w.vAdded
  := by
  rw [(unlocked_encryptLeftoverPlaintextKeys h).2.vAdded]
  constructor
  · rintro (hkey | ⟨item, hitem, rfl⟩)
    · apply hkey
    · apply (h.leftover_of_mem_toList item hitem).1
  · apply Or.inl

/-- A wallet that was just unlocked has its leftover keys encrypted. -/
theorem holding_encryptLeftoverPlaintextKeys
    (h : Unlocked library M w.vAdded w)
    (hmaps : ∀ key ∈ w.vAdded, key.getID library.toKeyLibrary ∈ w.mapCryptedKeys
      ∨ key.getID library.toKeyLibrary ∈ w.mapUnencryptedKeys)
    (hrecords : ∀ key ∈ w.vAdded, InRecords w.db (key.getPubKey library.toKeyLibrary))
    (hclosed : w.mapKeys = ∅) :
  Holding library M (w.encryptLeftoverPlaintextKeys library)
    ∧ (w.encryptLeftoverPlaintextKeys library).fUseCrypto = true
    ∧ (w.encryptLeftoverPlaintextKeys library).vMasterKey = M
  := by
  obtain ⟨hrun, hmoved⟩ := unlocked_encryptLeftoverPlaintextKeys h
  refine ⟨?_, hrun.fUseCrypto, hrun.vMasterKey⟩
  have hkept := hrun.kept ?_ ?_ (hmoved.mapKeys.trans hclosed)
  · apply hkept.congr_mem
    intro key
    apply mem_vAdded_encryptLeftoverPlaintextKeys h key
  · intro key hkey
    rcases hmaps key hkey with hmem | hmem
    · apply hmoved.mono _ hmem
    · obtain ⟨key', hget⟩ :=
        Option.isSome_iff_exists.mp (ExtTreeMap.isSome_getElem?_iff_mem.mpr hmem)
      have hid := (h.sound.memory.leftover _ _ hget).2
      rw [hid]
      apply hmoved.moved (_, key') (ExtTreeMap.mem_toList_iff_getElem?_eq_some.mpr hget)
  · intro key hkey
    apply hmoved.records _ (hrecords key hkey)

/-- A master key that a crypted key opens with is the one it was encrypted with. -/
theorem eq_of_opensKey
    (hlibrary : library.Lawful) (hvalid : key.Valid)
    (hlength : M.length = WALLET_CRYPTO_KEY_SIZE) {vMasterKey : Bytes}
    (hopens : opensKey library vMasterKey (key.getPubKey library.toKeyLibrary)
      (crypted library M key) = true) :
  vMasterKey = M
  := by
  rw [opensKey] at hopens
  split at hopens
  · cases hopens
  · next vchSecret hdecrypt =>
    split_ifs at hopens
    rw [decryptSecret] at hdecrypt
    split_ifs at hdecrypt with hsize
    apply hlibrary.wrong_key key M vMasterKey _ vchSecret hvalid hlength (not_not.mp hsize) hdecrypt
    rw [KeyObject.setPubKey, if_pos (hlibrary.isPublicKey key hvalid)] at hopens
    simp only [KeyObject.setSecret, KeyObject.key?, Option.map_some, Bool.false_or,
      flag_of_length hlibrary hvalid, beq_iff_eq, Option.some.injEq] at hopens
    exact hopens

theorem setCrypted_maps (w : CWallet) :
  w.setCrypted.1.mapKeys = w.mapKeys ∧ w.setCrypted.1.mapCryptedKeys = w.mapCryptedKeys
    ∧ w.setCrypted.1.mapUnencryptedKeys = w.mapUnencryptedKeys ∧ w.setCrypted.1.db = w.db
    ∧ w.setCrypted.1.vMasterKey = w.vMasterKey ∧ w.setCrypted.1.vAdded = w.vAdded
    ∧ (w.setCrypted.2 = true → w.setCrypted.1.fUseCrypto = true)
  := by
  rw [CWallet.setCrypted]
  split_ifs with hcrypto
  · exact ⟨rfl, rfl, rfl, rfl, rfl, rfl, fun _ => hcrypto⟩
  · exact ⟨rfl, rfl, rfl, rfl, rfl, rfl, False.elim⟩
  · exact ⟨rfl, rfl, rfl, rfl, rfl, rfl, fun _ => rfl⟩

variable {v : Bytes}

/-- The master key of a wallet without crypted keys may be any. -/
theorem Sound.setMasterKey
    (h : Sound library M held w) (hcrypto : w.fUseCrypto = true)
    (hlength : v.length = WALLET_CRYPTO_KEY_SIZE) (hv : v = M ∨ w.mapCryptedKeys = ∅) :
  Sound library v held { w with vMasterKey := v }
  := by
  have hopened : ¬w.fUseCrypto = false := by
    rw [hcrypto]
    nofun
  rcases hv with rfl | hempty
  · exact ⟨h.length, h.valid, ⟨h.memory.plain, h.memory.crypted, h.memory.leftover,
      fun hfalse => absurd hfalse hopened, .inr rfl⟩, h.disk, h.crypted_disk, h.disk_crypted⟩
  · refine ⟨hlength, h.valid, ⟨h.memory.plain, ?_, h.memory.leftover,
      fun hfalse => absurd hfalse hopened, .inr rfl⟩, ⟨h.disk.key, h.disk.wkey, ?_⟩, h.crypted_disk,
      h.disk_crypted⟩
    · intro id vchPubKey vchCryptedSecret hget
      rw [hempty, ExtTreeMap.getElem?_empty] at hget
      cases hget
    · intro vchPubKey vchCryptedSecret hget
      have hmem := h.disk_crypted vchPubKey
        (ExtTreeMap.isSome_getElem?_iff_mem.mp (Option.isSome_iff_exists.mpr ⟨_, hget⟩))
      rw [hempty] at hmem
      exact absurd hmem ExtTreeMap.not_mem_empty

/-- What unlocking the key store does: it is unlocked only with the master key, unless it has no
crypted key. -/
theorem unlockStore_spec
    (hlibrary : library.Lawful) (h : Kept library M held w) (v : Bytes) :
  let w' := (w.unlockStore library v).1
  (w.unlockStore library v).2 = false ∧ w' = w.setCrypted.1
    ∨ (w.unlockStore library v).2 = true ∧ w' = { w.setCrypted.1 with vMasterKey := v }
      ∧ w.setCrypted.1.fUseCrypto = true ∧ (v = M ∨ w.mapCryptedKeys = ∅)
  := by
  have hkept := h.setCrypted
  obtain ⟨_, hmap, _, _, _, _, hset⟩ := setCrypted_maps w
  rw [unlockStore]
  rcases hcrypted : w.setCrypted with ⟨w', _ | _⟩
  · exact .inl ⟨rfl, rfl⟩
  · rw [hcrypted] at hkept hmap hset
    cases hhead : w'.mapCryptedKeys.toList.head? with
    | none =>
      refine .inr ⟨by simp only [hhead], by simp only [hhead], hset rfl, .inr ?_⟩
      rw [List.head?_eq_none_iff, ExtTreeMap.toList_eq_nil_iff] at hhead
      exact hmap.symm.trans hhead
    | some entry =>
      obtain ⟨id, vchPubKey, vchCryptedSecret⟩ := entry
      have hget : w'.mapCryptedKeys[id]? = some (vchPubKey, vchCryptedSecret) :=
        ExtTreeMap.mem_toList_iff_getElem?_eq_some.mp (List.mem_of_head? hhead)
      obtain ⟨key, hkey, _, rfl, rfl⟩ := hkept.sound.memory.crypted _ _ _ hget
      cases hopens : opensKey library v (key.getPubKey library.toKeyLibrary)
          (crypted library M key) with
      | false =>
        left
        simp only [hhead, hopens, Bool.false_eq_true, if_false, and_self]
      | true =>
        right
        simp only [hhead, hopens, if_true, true_and]
        have hvalid := hkept.sound.valid key hkey
        exact ⟨hset rfl, .inl (eq_of_opensKey hlibrary hvalid hkept.sound.length hopens)⟩

/-- What `UnlockWithMasterKey` leaves, by what it returns. -/
def UnlockResult (library : WalletLibrary) (M : Bytes) (w : CWallet) (result : CWallet × Option Bytes) :
    Prop :=
  match result.2 with
  | none => Holding library M result.1 ∧ result.1.vMasterKey = w.vMasterKey
  | some v =>
    Holding library v result.1 ∧ result.1.fUseCrypto = true ∧ result.1.vMasterKey = v
      ∧ (v = M ∨ w.mapCryptedKeys = ∅)

theorem length_of_openMasterKey
    {strWalletPassphrase : Bytes} {kMasterKey : CMasterKey} {nMethod : ℕ}
    (h : openMasterKey library strWalletPassphrase kMasterKey nMethod = some v) :
  v.length = WALLET_CRYPTO_KEY_SIZE
  := by
  simp only [openMasterKey, Option.bind_eq_bind, Option.bind_eq_some_iff] at h
  obtain ⟨_, _, v', _, h⟩ := h
  split_ifs at h with hlength
  cases h
  exact not_not.mp hlength

theorem unlockResult_unlockWithMethods
    (hlibrary : library.Lawful) (strWalletPassphrase : Bytes) (kMasterKey : CMasterKey)
    (nMethods : List ℕ) (h : Holding library M w) :
  UnlockResult library M w
    (w.unlockWithMethods library strWalletPassphrase kMasterKey nMethods)
  := by
  induction nMethods generalizing w with
  | nil => exact ⟨h, rfl⟩
  | cons nMethod nMethods ih =>
    rw [unlockWithMethods]
    cases hopen : openMasterKey library strWalletPassphrase kMasterKey nMethod with
    | none => exact ih h
    | some v =>
      obtain ⟨hkeys, hmap, hleftover, hdb, hmaster, hadded, _⟩ := setCrypted_maps w
      have hkept : Kept library M w.vAdded w.setCrypted.1 := Kept.setCrypted h
      rcases unlockStore_spec hlibrary h v with ⟨hfalse, hw⟩ | ⟨htrue, hw, huse, hv⟩
      · rcases hunlock : w.unlockStore library v with ⟨w', fUnlocked⟩
        rw [hunlock] at hfalse hw
        subst hfalse hw
        have hholding : Holding library M w.setCrypted.1 := by
          rw [Holding, hadded]
          exact hkept
        have hresult := ih hholding
        rw [UnlockResult, hmap, hmaster] at hresult
        simp only [hunlock]
        exact hresult
      · rcases hunlock : w.unlockStore library v with ⟨w', fUnlocked⟩
        rw [hunlock] at htrue hw
        subst htrue hw
        have hlength := length_of_openMasterKey hopen
        have hunlocked : Unlocked library v w.vAdded { w.setCrypted.1 with vMasterKey := v } := by
          refine ⟨hkept.sound.setMasterKey huse hlength ?_, huse, rfl⟩
          rw [hmap]
          exact hv
        rw [← hadded] at hunlocked hkept
        obtain ⟨hholding, huse', hmaster'⟩ :=
          holding_encryptLeftoverPlaintextKeys (w := { w.setCrypted.1 with vMasterKey := v })
            hunlocked (hkept.complete.crypted huse) hkept.complete.records
            (hkept.complete.closed huse)
        simp only [hunlock]
        exact ⟨hholding, huse', hmaster', hv⟩

theorem unlockResult_unlockWithMasterKey
    (hlibrary : library.Lawful) (strWalletPassphrase : Bytes) (kMasterKey : CMasterKey)
    (h : Holding library M w) :
  UnlockResult library M w (w.unlockWithMasterKey library strWalletPassphrase kMasterKey)
  := unlockResult_unlockWithMethods hlibrary strWalletPassphrase kMasterKey _ h

/-- The wallet holds its keys, with some master key. -/
def Holds (library : WalletLibrary) (w : CWallet) : Prop := ∃ M, Holding library M w

theorem Holding.of_same (h : Holding library M w) (hsame : SameKeys w w') :
  Holding library M w'
  := by
  rw [Holding, hsame.vAdded]
  exact Kept.of_same h hsame

theorem holds_unlockLoop
    (hlibrary : library.Lawful) (strWalletPassphrase : Bytes) (kMasterKeys : List (ℕ × CMasterKey))
    (h : Holds library w) :
  Holds library (w.unlockLoop library strWalletPassphrase kMasterKeys).1
  := by
  induction kMasterKeys generalizing w with
  | nil => exact h
  | cons kMasterKey kMasterKeys ih =>
    obtain ⟨M, h⟩ := h
    have hresult := unlockResult_unlockWithMasterKey hlibrary strWalletPassphrase kMasterKey.2 h
    rw [unlockLoop]
    rcases hunlock : w.unlockWithMasterKey library strWalletPassphrase kMasterKey.2 with ⟨w', _ | v⟩
    · rw [hunlock] at hresult
      exact ih ⟨M, hresult.1⟩
    · rw [hunlock] at hresult
      exact ⟨v, hresult.1.of_same (sameKeys_decryptHDSeed w' v)⟩

theorem holds_unlock
    (hlibrary : library.Lawful) (strWalletPassphrase : Bytes) (h : Holds library w) :
  Holds library (w.unlock library strWalletPassphrase).1
  := by
  rw [unlock]
  split_ifs
  · exact h
  · exact holds_unlockLoop hlibrary strWalletPassphrase _ h

theorem sameKeys_reencrypt
    (w : CWallet) (nID : ℕ) (kMasterKey : CMasterKey) (vMasterKey strNewWalletPassphrase : Bytes) :
  SameKeys w (w.reencrypt library nID kMasterKey vMasterKey strNewWalletPassphrase).1
  := by
  rw [reencrypt]
  split
  · exact ⟨rfl, rfl, rfl, rfl, rfl, rfl, rfl, rfl, rfl⟩
  · exact ⟨rfl, rfl, rfl, rfl, rfl, rfl, rfl, rfl, rfl⟩

theorem vAdded_lock (w : CWallet) : w.lock.vAdded = w.vAdded := by
  have hadded := (setCrypted_maps w).2.2.2.2.2.1
  rw [CWallet.lock]
  rcases hset : w.setCrypted with ⟨w', _ | _⟩
  · rw [hset] at hadded
    exact hadded
  · rw [hset] at hadded
    exact hadded

theorem Holding.lock (h : Holding library M w) :
  Holding library M w.lock
  := by
  rw [Holding, vAdded_lock]
  exact Kept.lock h

theorem holds_changePassphraseLoop
    (hlibrary : library.Lawful) (fWasLocked : Bool)
    (strOldWalletPassphrase strNewWalletPassphrase : Bytes) (nDeriveIterations : ℕ)
    (kMasterKeys : List (ℕ × CMasterKey)) (h : Holds library w) :
  Holds library (w.changePassphraseLoop library fWasLocked strOldWalletPassphrase
    strNewWalletPassphrase nDeriveIterations kMasterKeys).1
  := by
  induction kMasterKeys generalizing w with
  | nil => exact h
  | cons item kMasterKeys ih =>
    obtain ⟨M, h⟩ := h
    have hresult := unlockResult_unlockWithMasterKey hlibrary strOldWalletPassphrase item.2 h
    rw [changePassphraseLoop]
    rcases hunlock : w.unlockWithMasterKey library strOldWalletPassphrase item.2 with ⟨w', _ | v⟩
    · rw [hunlock] at hresult
      exact ih ⟨M, hresult.1⟩
    · rw [hunlock] at hresult
      have hsame := @sameKeys_reencrypt library w' item.1
        { item.2 with
          nDerivationMethod := WALLET_DERIVATION_BYTESTOKEY_SHA512
          nDeriveIterations := max nDeriveIterations 25000 } v strNewWalletPassphrase
      have hholding := hresult.1.of_same hsame
      simp only
      rcases hre : w'.reencrypt library item.1
        { item.2 with
          nDerivationMethod := WALLET_DERIVATION_BYTESTOKEY_SHA512
          nDeriveIterations := max nDeriveIterations 25000 } v strNewWalletPassphrase
        with ⟨w'', _ | _⟩
      · rw [hre] at hholding
        exact ⟨v, hholding⟩
      · rw [hre] at hholding
        cases fWasLocked with
        | false => exact ⟨v, hholding⟩
        | true => exact ⟨v, hholding.lock⟩

theorem holds_changeWalletPassphrase
    (hlibrary : library.Lawful) (strOldWalletPassphrase strNewWalletPassphrase : Bytes)
    (nDeriveIterations : ℕ) (h : Holds library w) :
  Holds library (w.changeWalletPassphrase library strOldWalletPassphrase strNewWalletPassphrase
    nDeriveIterations).1
  := by
  obtain ⟨M, h⟩ := h
  exact holds_changePassphraseLoop hlibrary w.isLocked strOldWalletPassphrase strNewWalletPassphrase
    nDeriveIterations _ ⟨M, h.lock⟩

/-! ## New keys -/

theorem valid_setSecret {n : ℕ} (h : ¬n % SECP256K1_ORDER = 0) :
  (CKey.setSecret (toBE32 (n % SECP256K1_ORDER)) true).Valid
  := by
  have hlt := Nat.mod_lt n (show 0 < SECP256K1_ORDER by decide)
  have horder : SECP256K1_ORDER < 2 ^ 256 := by decide
  have hsecret : (CKey.setSecret (toBE32 (n % SECP256K1_ORDER)) true).secret
      = n % SECP256K1_ORDER := ofBE_toBE32 (by omega)
  rw [CKey.Valid, hsecret, Nat.mod_eq_of_lt hlt]
  exact ⟨by omega, h⟩

theorem valid_derive
    {keys : KeyLibrary} {parent child : CExtKey} {nChildIn : UInt32}
    (h : parent.derive keys nChildIn = some child) :
  child.key.Valid
  := by
  simp only [CExtKey.derive] at h
  split_ifs at h
  · cases h
    apply valid_setSecret
    assumption
  · cases h
    apply valid_setSecret
    assumption

theorem valid_deriveHDChild
    {keys : KeyLibrary} {master : CExtKey} {nIndex : UInt32}
    (h : deriveHDChild keys master nIndex = some key) :
  key.Valid
  := by
  simp only [deriveHDChild, Option.bind_eq_bind, Option.bind_eq_some_iff, Option.pure_def,
    Option.some.injEq] at h
  obtain ⟨_, _, _, _, _, _, _, _, child, hderive, rfl⟩ := h
  exact valid_derive hderive

theorem Holding.generateNewKey {rand : CKey} (h : Holding library M w) (hrand : rand.Valid) :
  Holding library M (w.generateNewKey library rand).1
  := by
  rw [CWallet.generateNewKey]
  split_ifs
  · cases hderive : w.hdMasterKey.bind
        (fun master => deriveHDChild library.toKeyLibrary master w.nHDExternalIndex) with
    | none => exact h
    | some key =>
      obtain ⟨master, _, hkey⟩ := Option.bind_eq_some_iff.mp hderive
      have hholding := h.addKey (valid_deriveHDChild hkey)
      simp only
      rcases hadd : w.addKey library key with ⟨w', _ | _⟩
      · rw [hadd] at hholding
        exact hholding
      · rw [hadd] at hholding
        exact hholding.of_same ⟨rfl, rfl, rfl, rfl, rfl, rfl, rfl, rfl, rfl⟩
  · have hholding := h.addKey hrand
    rcases hadd : w.addKey library rand with ⟨w', _ | _⟩
    · rw [hadd] at hholding
      exact hholding
    · rw [hadd] at hholding
      exact hholding.of_same ⟨rfl, rfl, rfl, rfl, rfl, rfl, rfl, rfl, rfl⟩

theorem poolStable_holding (library : WalletLibrary) (M : Bytes) :
  PoolStable library CKey.Valid (Holding library M)
  := by
  constructor
  · intro w rand hrand h
    exact h.generateNewKey hrand
  · intro w setKeyPool pool h
    exact h.of_same ⟨rfl, rfl, rfl, rfl, rfl, rfl, rfl, rfl, rfl⟩

/-! ## Encryption -/

/-- What encrypting some keys of an encrypted wallet does. -/
structure Encrypted (library : WalletLibrary) (keys : List CKey) (w w' : CWallet) : Prop where
  mapKeys : w'.mapKeys = w.mapKeys
  fUseCrypto : w'.fUseCrypto = true
  vMasterKey : w'.vMasterKey = w.vMasterKey
  vAdded : w'.vAdded = w.vAdded
  mono : ∀ id, id ∈ w.mapCryptedKeys → id ∈ w'.mapCryptedKeys
  moved : ∀ key ∈ keys, key.getID library.toKeyLibrary ∈ w'.mapCryptedKeys
  records : ∀ vchPubKey, InRecords w.db vchPubKey → InRecords w'.db vchPubKey
  ckey : ∀ vchPubKey, vchPubKey ∈ w'.db.ckey → vchPubKey ∈ w.db.ckey
    ∨ ∃ key ∈ keys, vchPubKey = key.getPubKey library.toKeyLibrary

theorem encryptKey_spec
    (h : Sound library M held w) (hcrypto : w.fUseCrypto = true) (hkey : key ∈ held)
    (hnew : key.getPubKey library.toKeyLibrary ∉ w.db.ckey) :
  ∃ w', w.encryptKey library M key = some w' ∧ Sound library M held w'
    ∧ Encrypted library [key] w w'
  := by
  have hsound := h.addCryptedKey hcrypto hkey
  obtain ⟨hkeys, huse, hmaster, _, hadded, hmap⟩ := @addCryptedKey_maps library w hcrypto
    (key.getPubKey library.toKeyLibrary) (crypted library M key)
  have hrecords := fun other => @inRecords_addCryptedKey library w hcrypto
    (key.getPubKey library.toKeyLibrary) (crypted library M key) other
  have hsecret : encryptSecret library M key.getSecret
      (library.hash (key.getPubKey library.toKeyLibrary)) = some (crypted library M key) := by
    rw [encryptSecret, if_neg (not_not.mpr h.length), crypted]
  have hcontains : ¬w.db.ckey.contains (key.getPubKey library.toKeyLibrary) = true :=
    fun hcontains => hnew (ExtTreeMap.contains_iff_mem.mp hcontains)
  have hadd : (w.addCryptedKey library (key.getPubKey library.toKeyLibrary)
        (crypted library M key)).2 = true
      ∧ (w.addCryptedKey library (key.getPubKey library.toKeyLibrary)
        (crypted library M key)).1.db.ckey
        = w.db.ckey.insert (key.getPubKey library.toKeyLibrary) (crypted library M key) := by
    rw [addCryptedKey_eq hcrypto, WalletDB.writeCryptedKey, if_neg hcontains]
    exact ⟨rfl, rfl⟩
  rcases hresult : w.addCryptedKey library (key.getPubKey library.toKeyLibrary)
    (crypted library M key) with ⟨w', fAdded⟩
  rw [hresult] at hsound hkeys huse hmaster hadded hmap hrecords hadd
  obtain ⟨htrue, hckey⟩ := hadd
  subst htrue
  refine ⟨w', ?_, hsound, ⟨hkeys, huse, hmaster, hadded, ?_, ?_, ?_, ?_⟩⟩
  · simp only [encryptKey, hsecret, hresult]
  · intro id hmem
    rw [hmap]
    exact mem_insert_iff.mpr (.inr hmem)
  · intro key' hmem
    rw [List.mem_singleton.mp hmem, hmap]
    exact mem_insert_iff.mpr (.inl rfl)
  · exact fun vchPubKey hrecord => hrecords vchPubKey (.inr hrecord)
  · intro vchPubKey hmem
    rw [hckey, mem_insert_iff] at hmem
    rcases hmem with rfl | hmem
    · exact .inr ⟨key, List.mem_singleton_self key, rfl⟩
    · exact .inl hmem

theorem encryptKeys_loop
    (keys : List CKey) (h : Sound library M held w) (hcrypto : w.fUseCrypto = true)
    (hkeys : keys ⊆ held) (hnodup : (keys.map (·.getPubKey library.toKeyLibrary)).Nodup)
    (hnew : ∀ key ∈ keys, key.getPubKey library.toKeyLibrary ∉ w.db.ckey) :
  ∃ w', keys.foldlM (encryptKey library M) w = some w' ∧ Sound library M held w'
    ∧ Encrypted library keys w w'
  := by
  induction keys generalizing w with
  | nil =>
    exact ⟨w, rfl, h, ⟨rfl, hcrypto, rfl, rfl, fun _ hmem => hmem, nofun, fun _ hrecord => hrecord,
      fun _ hmem => .inl hmem⟩⟩
  | cons key keys ih =>
    obtain ⟨hkey, hkeys⟩ := List.cons_subset.mp hkeys
    obtain ⟨hfirst, hrest⟩ := List.forall_mem_cons.mp hnew
    rw [List.map_cons, List.nodup_cons] at hnodup
    obtain ⟨w', hstep, hsound, hone⟩ := encryptKey_spec h hcrypto hkey hfirst
    have hnew' : ∀ key' ∈ keys, key'.getPubKey library.toKeyLibrary ∉ w'.db.ckey := by
      intro key' hmem hckey
      rcases hone.ckey _ hckey with hckey | ⟨key'', hmem', heq⟩
      · exact hrest key' hmem hckey
      · rw [List.mem_singleton.mp hmem'] at heq
        apply hnodup.1
        rw [← heq]
        exact List.mem_map.mpr ⟨key', hmem, rfl⟩
    obtain ⟨w'', hrun, hsound', hmany⟩ := ih hsound hone.fUseCrypto hkeys hnodup.2 hnew'
    refine ⟨w'', ?_, hsound', ⟨hmany.mapKeys.trans hone.mapKeys, hmany.fUseCrypto,
      hmany.vMasterKey.trans hone.vMasterKey, hmany.vAdded.trans hone.vAdded, ?_, ?_, ?_, ?_⟩⟩
    · rw [List.foldlM_cons, hstep]
      exact hrun
    · exact fun id hmem => hmany.mono id (hone.mono id hmem)
    · intro key' hmem
      rcases List.mem_cons.mp hmem with rfl | hmem
      · exact hmany.mono _ (hone.moved key' (List.mem_singleton_self key'))
      · exact hmany.moved key' hmem
    · exact fun vchPubKey hrecord => hmany.records _ (hone.records _ hrecord)
    · intro vchPubKey hmem
      rcases hmany.ckey _ hmem with hmem | ⟨key', hmem, heq⟩
      · rcases hone.ckey _ hmem with hmem | ⟨key', hmem, heq⟩
        · exact .inl hmem
        · rw [List.mem_singleton.mp hmem] at heq
          exact .inr ⟨key, List.mem_cons_self, heq⟩
      · exact .inr ⟨key', List.mem_cons_of_mem key hmem, heq⟩

/-- Encryption puts every key under the new master key, and does not fail. -/
theorem encryptKeys_spec
    (h : Holding library M w) (hcrypto : w.fUseCrypto = false)
    (hlength : v.length = WALLET_CRYPTO_KEY_SIZE) :
  ∃ w', w.encryptKeys library v = some w' ∧ Holding library v w' ∧ w'.fUseCrypto = true
    ∧ ∀ key ∈ w'.vAdded, key.getID library.toKeyLibrary ∈ w'.mapCryptedKeys
  := by
  obtain ⟨hmap, hleftover, hmaster⟩ := h.sound.memory.opened hcrypto
  have hckey : ∀ vchPubKey, vchPubKey ∉ w.db.ckey := by
    intro vchPubKey hmem
    have hcrypted := h.sound.disk_crypted vchPubKey hmem
    rw [hmap] at hcrypted
    exact ExtTreeMap.not_mem_empty hcrypted
  have hsound : Sound library v w.vAdded { w with fUseCrypto := true } := by
    refine ⟨hlength, h.sound.valid, ⟨h.sound.memory.plain, ?_, h.sound.memory.leftover,
      fun hopened => absurd hopened.symm Bool.false_ne_true, .inl hmaster⟩, ⟨h.sound.disk.key, h.sound.disk.wkey, ?_⟩, h.sound.crypted_disk,
      h.sound.disk_crypted⟩
    · intro id vchPubKey vchCryptedSecret hget
      rw [hmap, ExtTreeMap.getElem?_empty] at hget
      cases hget
    · intro vchPubKey vchCryptedSecret hget
      exact absurd (ExtTreeMap.isSome_getElem?_iff_mem.mp (Option.isSome_iff_exists.mpr ⟨_, hget⟩))
        (hckey vchPubKey)
  have hentries : ∀ item ∈ w.mapKeys.toList,
      item.2 ∈ w.vAdded ∧ item.1 = item.2.getID library.toKeyLibrary := by
    rintro ⟨id, key⟩ hmem
    exact h.sound.memory.plain id key (ExtTreeMap.mem_toList_iff_getElem?_eq_some.mp hmem)
  have hkeys : w.mapKeys.toList.map (·.2) ⊆ w.vAdded := by
    intro key hmem
    obtain ⟨item, hitem, rfl⟩ := List.mem_map.mp hmem
    exact (hentries item hitem).1
  -- the ids of the entries are different, so their public keys are
  have hnodup : ((w.mapKeys.toList.map (·.2)).map (·.getPubKey library.toKeyLibrary)).Nodup := by
    have hids := nodup_keys w.mapKeys
    have heq : w.mapKeys.toList.map Prod.fst = ((w.mapKeys.toList.map (·.2)).map
        (·.getPubKey library.toKeyLibrary)).map library.hash160 := by
      rw [List.map_map, List.map_map]
      exact List.map_congr_left (fun item hitem => (hentries item hitem).2)
    rw [heq] at hids
    exact List.Nodup.of_map library.hash160 hids
  obtain ⟨w', hrun, hsound', hencrypted⟩ := encryptKeys_loop _ hsound rfl hkeys hnodup
    (fun key _ => hckey _)
  have hnot : (!w.mapCryptedKeys.isEmpty || w.fUseCrypto) = false := by
    rw [hmap, hcrypto, ExtTreeMap.isEmpty_empty]
    rfl
  have hmem : ∀ key ∈ w.vAdded, key.getID library.toKeyLibrary ∈ w'.mapCryptedKeys := by
    intro key hkey
    obtain ⟨key', hget⟩ := Option.isSome_iff_exists.mp
      (ExtTreeMap.isSome_getElem?_iff_mem.mpr (h.complete.plain hcrypto key hkey))
    have hid := (h.sound.memory.plain _ _ hget).2
    rw [hid]
    apply hencrypted.moved
    exact List.mem_map.mpr ⟨_, ExtTreeMap.mem_toList_iff_getElem?_eq_some.mpr hget, rfl⟩
  have hadded : w'.vAdded = w.vAdded := hencrypted.vAdded
  rw [← hadded] at hsound' hmem
  refine ⟨{ w' with mapKeys := ∅ }, ?_, ?_, hencrypted.fUseCrypto, hmem⟩
  · rw [encryptKeys, hnot]
    simp only [Bool.false_eq_true, if_false, hrun, Option.bind_eq_bind, Option.bind_some,
      Option.pure_def]
  · have hmaster' : w'.vMasterKey = [] := hencrypted.vMasterKey.trans hmaster
    refine ⟨⟨hsound'.length, hsound'.valid, ⟨?_, hsound'.memory.crypted, hsound'.memory.leftover, ?_,
      hsound'.memory.master⟩, hsound'.disk, hsound'.crypted_disk, hsound'.disk_crypted⟩,
      ⟨?_, ?_, ?_, fun _ => rfl, ?_⟩⟩
    · intro id key hget
      rw [ExtTreeMap.getElem?_empty] at hget
      cases hget
    · intro hfalse
      exact absurd (hfalse.symm.trans hencrypted.fUseCrypto) Bool.false_ne_true
    · intro hfalse
      exact absurd (hfalse.symm.trans hencrypted.fUseCrypto) Bool.false_ne_true
    · exact fun _ key hkey => .inl (hmem key hkey)
    · exact fun _ _ => hmem
    · intro key hkey
      apply hencrypted.records
      rw [hadded] at hkey
      exact h.complete.records key hkey

theorem sameKeys_encryptHDSeed
    {vMasterKey : Bytes} (h : w.encryptHDSeed library vMasterKey = some w') :
  SameKeys w w'
  := by
  rw [encryptHDSeed] at h
  split_ifs at h
  · split at h
    · cases h
    · cases h
      exact ⟨rfl, rfl, rfl, rfl, rfl, rfl, rfl, rfl, rfl⟩
  · cases h
    exact SameKeys.refl _

/-- The key that a record with the standard way of deriving one is opened with. -/
theorem setKeyFromPassphrase_of_salt
    (strWalletPassphrase : Bytes) {vchSalt : Bytes} (nDeriveIterations : ℕ)
    (hsalt : vchSalt.length = WALLET_CRYPTO_SALT_SIZE) :
  setKeyFromPassphrase library strWalletPassphrase vchSalt (max nDeriveIterations 25000)
      WALLET_DERIVATION_BYTESTOKEY_SHA512
    = some (library.bytesToKeySHA512 strWalletPassphrase vchSalt (max nDeriveIterations 25000))
  := by
  have hrounds : ¬(max nDeriveIterations 25000 < 1 ∨ vchSalt.length ≠ WALLET_CRYPTO_SALT_SIZE) := by
    rintro (hlt | hne)
    · omega
    · exact hne hsalt
  rw [setKeyFromPassphrase, if_neg hrounds, if_pos rfl]

theorem encryptSecrets_spec
    (h : Holding library M w) (hcrypto : w.fUseCrypto = false) (strWalletPassphrase : Bytes)
    (input : EncryptInput) :
  ∃ w', w.encryptSecrets library strWalletPassphrase input = some w'
    ∧ Holding library input.vMasterKey w' ∧ w'.fUseCrypto = true
    ∧ ∀ key ∈ w'.vAdded, key.getID library.toKeyLibrary ∈ w'.mapCryptedKeys
  := by
  have hkey := @setKeyFromPassphrase_of_salt library strWalletPassphrase _ input.nDeriveIterations
    input.length_vchSalt
  simp only [encryptSecrets, hkey, Option.bind_eq_bind, Option.bind_some]
  generalize library.bytesToKeySHA512 strWalletPassphrase input.vchSalt
    (max input.nDeriveIterations 25000) = key
  have hmaster : SameKeys w (w.addMasterKey
      { vchCryptedKey := library.encrypt key input.vMasterKey
        vchSalt := input.vchSalt
        nDerivationMethod := WALLET_DERIVATION_BYTESTOKEY_SHA512
        nDeriveIterations := max input.nDeriveIterations 25000 }) :=
    ⟨rfl, rfl, rfl, rfl, rfl, rfl, rfl, rfl, rfl⟩
  obtain ⟨w', hencrypt, hholding, huse, hmem⟩ := encryptKeys_spec (h.of_same hmaster)
    (hmaster.fUseCrypto.trans hcrypto) input.length_vMasterKey
  rw [hencrypt, Option.bind_some]
  cases hseed : w'.encryptHDSeed library input.vMasterKey with
  | none =>
    rw [encryptHDSeed, encryptSecret, if_neg (not_not.mpr input.length_vMasterKey)] at hseed
    split_ifs at hseed
  | some w'' =>
    have hsame := sameKeys_encryptHDSeed hseed
    refine ⟨w'', rfl, hholding.of_same hsame, hsame.fUseCrypto.trans huse, ?_⟩
    rw [hsame.vAdded, hsame.mapCryptedKeys]
    exact hmem

theorem holds_rebuildPool
    (hlibrary : library.Lawful) (strWalletPassphrase : Bytes) (nKeys : ℕ) {rands : ℕ → CKey}
    (hrands : ∀ i, (rands i).Valid) (h : Holds library w) :
  Holds library (w.rebuildPool library strWalletPassphrase nKeys rands)
  := by
  obtain ⟨M, h⟩ := h
  obtain ⟨M', hunlocked⟩ := holds_unlock hlibrary strWalletPassphrase ⟨M, h.lock⟩
  have hpool := (poolStable_holding library M').newKeyPool hrands nKeys hunlocked
  exact ⟨M', rebuildPool_of w (fun _ h => h.lock) hpool⟩

/-! ## Loading -/

/-- A wallet while its records are loaded: some keys are in it, and the crypted ones of some public
keys. -/
structure Loading (library : WalletLibrary) (M : Bytes) (held : List CKey) (db : WalletDB)
    (keys : List CKey) (vchPubKeys : List CPubKey) (w : CWallet) : Prop where
  memory : Memory library M held w
  vMasterKey : w.vMasterKey = []
  closed : w.fUseCrypto = true → w.mapKeys = ∅
  loaded : ∀ key ∈ keys, key.getID library.toKeyLibrary ∈ w.mapKeys
    ∨ key.getID library.toKeyLibrary ∈ w.mapCryptedKeys
    ∨ key.getID library.toKeyLibrary ∈ w.mapUnencryptedKeys
  moved : ∀ vchPubKey ∈ vchPubKeys, library.hash160 vchPubKey ∈ w.mapCryptedKeys
  ckey : ∀ (id : CKeyID) (vchPubKey : CPubKey) (vchCryptedSecret : Bytes),
    w.mapCryptedKeys[id]? = some (vchPubKey, vchCryptedSecret) → vchPubKey ∈ db.ckey
  db : w.db = db

variable {db : WalletDB} {keys : List CKey} {vchPubKeys : List CPubKey}

theorem Loading.loadKey
    (h : Loading library M held db keys vchPubKeys w) (hkey : key ∈ held) :
  Loading library M held db (keys ++ [key]) vchPubKeys (w.loadKey library key)
  := by
  cases hcrypto : w.fUseCrypto with
  | false =>
    have hnot : (!w.fUseCrypto) = true := by rw [hcrypto, Bool.not_false]
    rw [CWallet.loadKey, if_pos hnot]
    refine ⟨⟨?_, h.memory.crypted, h.memory.leftover, h.memory.opened, h.memory.master⟩,
      h.vMasterKey, ?_, ?_, h.moved, h.ckey, h.db⟩
    · intro id key' hget
      rw [getElem?_insert_ite] at hget
      split_ifs at hget with hid
      · cases hget
        exact ⟨hkey, hid.symm⟩
      · exact h.memory.plain id key' hget
    · intro htrue
      exact absurd (hcrypto.symm.trans htrue) nofun
    · intro key' hmem
      simp only [mem_insert_iff]
      rcases List.mem_append.mp hmem with hmem | hmem
      · rcases h.loaded key' hmem with hin | hin
        · exact .inl (.inr hin)
        · exact .inr hin
      · rw [List.mem_singleton.mp hmem]
        exact .inl (.inl rfl)
  | true =>
    have hnot : ¬(!w.fUseCrypto) = true := by
      rw [hcrypto]
      nofun
    rw [CWallet.loadKey, if_neg hnot]
    refine ⟨⟨h.memory.plain, h.memory.crypted, ?_, ?_, h.memory.master⟩, h.vMasterKey, h.closed, ?_,
      h.moved, h.ckey, h.db⟩
    · intro id key' hget
      rw [getElem?_insert_ite] at hget
      split_ifs at hget with hid
      · cases hget
        exact ⟨hkey, hid.symm⟩
      · exact h.memory.leftover id key' hget
    · intro hfalse
      exact absurd (hcrypto.symm.trans hfalse) nofun
    · intro key' hmem
      simp only [mem_insert_iff]
      rcases List.mem_append.mp hmem with hmem | hmem
      · rcases h.loaded key' hmem with hin | hin | hin
        · exact .inl hin
        · exact .inr (.inl hin)
        · exact .inr (.inr (.inr hin))
      · rw [List.mem_singleton.mp hmem]
        exact .inr (.inr (.inl rfl))

/-- A record of a key of the wallet loads that key. -/
theorem loadKeyRecord_eq
    (hlibrary : library.Lawful) (w : CWallet) (hvalid : key.Valid) :
  w.loadKeyRecord library (key.getPubKey library.toKeyLibrary, key.secret)
    = some (w.loadKey library key)
  := by
  simp only [loadKeyRecord, hlibrary.isPublicKey key hvalid, flag_of_length hlibrary hvalid,
    Bool.true_and, ne_eq, not_true_eq_false, if_false]

theorem loading_keyRecords
    (hlibrary : library.Lawful) (hvalid : ∀ key ∈ held, key.Valid) (records : List (CPubKey × ℕ))
    (hrecords : ∀ record ∈ records, ∃ key ∈ held,
      record.1 = key.getPubKey library.toKeyLibrary ∧ record.2 = key.secret)
    (h : Loading library M held db keys vchPubKeys w) :
  ∃ w' keys', records.foldlM (loadKeyRecord library) w = some w'
    ∧ Loading library M held db keys' vchPubKeys w' ∧ keys ⊆ keys'
    ∧ ∀ record ∈ records, ∃ key ∈ keys', record.1 = key.getPubKey library.toKeyLibrary
  := by
  induction records generalizing w keys with
  | nil => exact ⟨w, keys, rfl, h, List.Subset.refl keys, nofun⟩
  | cons record records ih =>
    obtain ⟨⟨key, hkey, hpub, hsecret⟩, hrecords⟩ := List.forall_mem_cons.mp hrecords
    have hrecord : record = (key.getPubKey library.toKeyLibrary, key.secret) :=
      Prod.ext hpub hsecret
    obtain ⟨w', keys', hrun, hloading, hsub, hall⟩ := ih hrecords (h.loadKey hkey)
    refine ⟨w', keys', ?_, hloading, ?_, ?_⟩
    · rw [List.foldlM_cons, hrecord, loadKeyRecord_eq hlibrary w (hvalid key hkey)]
      exact hrun
    · exact fun key' hmem => hsub (List.mem_append_left [key] hmem)
    · intro record' hmem
      rcases List.mem_cons.mp hmem with rfl | hmem
      · exact ⟨key, hsub (List.mem_append_right keys (List.mem_singleton_self key)), hpub⟩
      · exact hall record' hmem

/-- What loading a crypted key does. -/
theorem loadCryptedKey_spec
    (hclosed : w.fUseCrypto = true → w.mapKeys = ∅) (record : CPubKey × Bytes) :
  ∃ w', w.loadCryptedKey library record = some w' ∧ w'.fUseCrypto = true ∧ w'.mapKeys = ∅
    ∧ w'.vMasterKey = w.vMasterKey ∧ w'.db = w.db
    ∧ w'.mapCryptedKeys = w.mapCryptedKeys.insert (library.hash160 record.1) record
    ∧ w'.mapUnencryptedKeys = overlay w.mapUnencryptedKeys w.mapKeys
  := by
  have hempty : (putAside w).mapKeys = ∅
      ∧ (putAside w).mapUnencryptedKeys = overlay w.mapUnencryptedKeys w.mapKeys := by
    rw [putAside]
    split_ifs with haside
    · exact ⟨rfl, rfl⟩
    · have hkeys : w.mapKeys = ∅ := by
        cases hcrypto : w.fUseCrypto with
        | true => exact hclosed hcrypto
        | false =>
          rw [hcrypto, Bool.not_false, Bool.true_and, Bool.not_eq_true, Bool.not_eq_false'] at haside
          exact ExtTreeMap.isEmpty_iff.mp haside
      refine ⟨hkeys, ?_⟩
      rw [hkeys, overlay_empty]
  have hsame : (putAside w).vMasterKey = w.vMasterKey ∧ (putAside w).db = w.db
      ∧ (putAside w).mapCryptedKeys = w.mapCryptedKeys := by
    rw [putAside]
    split_ifs
    · exact ⟨rfl, rfl, rfl⟩
    · exact ⟨rfl, rfl, rfl⟩
  have hset : (putAside w).setCrypted = ({ putAside w with fUseCrypto := true }, true) := by
    rw [CWallet.setCrypted]
    split_ifs with hcrypto hkeys
    · rw [← hcrypto]
    · rw [hempty.1, ExtTreeMap.isEmpty_empty] at hkeys
      cases hkeys
    · rfl
  have hload : w.loadCryptedKey library record
      = some { w.putAside with
          fUseCrypto := true
          mapCryptedKeys := w.putAside.mapCryptedKeys.insert (library.hash160 record.1) record } := by
    rw [loadCryptedKey, addCryptedKeyToStore, hset]
  rw [hsame.2.2] at hload
  exact ⟨_, hload, rfl, hempty.1, hsame.1, hsame.2.1, rfl, hempty.2⟩

theorem Loading.loadCryptedKey
    (h : Loading library M held db keys vchPubKeys w) (hkey : key ∈ held)
    (hckey : key.getPubKey library.toKeyLibrary ∈ db.ckey) :
  ∃ w', w.loadCryptedKey library (key.getPubKey library.toKeyLibrary, crypted library M key)
      = some w'
    ∧ Loading library M held db (keys ++ [key]) (vchPubKeys ++ [key.getPubKey library.toKeyLibrary])
      w'
  := by
  obtain ⟨w', hload, huse, hkeys, hmaster, hdb, hmap, hleftover⟩ :=
    @loadCryptedKey_spec library w h.closed
      (key.getPubKey library.toKeyLibrary, crypted library M key)
  have hlookup : ∀ id : CKeyID,
      w'.mapUnencryptedKeys[id]? = w.mapKeys[id]?.or w.mapUnencryptedKeys[id]? := by
    intro id
    rw [hleftover, getElem?_overlay]
  refine ⟨w', hload, ⟨⟨?_, ?_, ?_, ?_, ?_⟩, hmaster.trans h.vMasterKey, fun _ => hkeys, ?_, ?_, ?_,
    hdb.trans h.db⟩⟩
  · intro id key' hget
    rw [hkeys, ExtTreeMap.getElem?_empty] at hget
    cases hget
  · intro id vchPubKey vchCryptedSecret hget
    rw [hmap, getElem?_insert_ite] at hget
    split_ifs at hget with hid
    · cases hget
      exact ⟨key, hkey, hid.symm, rfl, rfl⟩
    · exact h.memory.crypted id vchPubKey vchCryptedSecret hget
  · intro id key' hget
    rw [hlookup] at hget
    rcases Option.or_eq_some_iff.mp hget with hget | ⟨_, hget⟩
    · exact h.memory.plain id key' hget
    · exact h.memory.leftover id key' hget
  · intro hfalse
    exact absurd (huse.symm.trans hfalse) nofun
  · exact .inl (hmaster.trans h.vMasterKey)
  · intro key' hmem
    rw [hmap, mem_insert_iff]
    rcases List.mem_append.mp hmem with hmem | hmem
    · rcases h.loaded key' hmem with hin | hin | hin
      · right
        right
        rw [← ExtTreeMap.isSome_getElem?_iff_mem, hlookup, Option.isSome_or,
          ExtTreeMap.isSome_getElem?_iff_mem.mpr hin, Bool.true_or]
      · exact .inr (.inl (.inr hin))
      · right
        right
        rw [← ExtTreeMap.isSome_getElem?_iff_mem, hlookup, Option.isSome_or,
          ExtTreeMap.isSome_getElem?_iff_mem.mpr hin, Bool.or_true]
    · rw [List.mem_singleton.mp hmem]
      exact .inr (.inl (.inl rfl))
  · intro vchPubKey hmem
    rw [hmap, mem_insert_iff]
    rcases List.mem_append.mp hmem with hmem | hmem
    · exact .inr (h.moved vchPubKey hmem)
    · rw [List.mem_singleton.mp hmem]
      exact .inl rfl
  · intro id vchPubKey vchCryptedSecret hget
    rw [hmap, getElem?_insert_ite] at hget
    split_ifs at hget
    · cases hget
      exact hckey
    · exact h.ckey id vchPubKey vchCryptedSecret hget

theorem loading_cryptedRecords
    (records : List (CPubKey × Bytes))
    (hrecords : ∀ record ∈ records, ∃ key ∈ held,
      record.1 = key.getPubKey library.toKeyLibrary ∧ record.2 = crypted library M key)
    (hckey : ∀ record ∈ records, record.1 ∈ db.ckey)
    (h : Loading library M held db keys vchPubKeys w) :
  ∃ w' keys' vchPubKeys', records.foldlM (loadCryptedKey library) w = some w'
    ∧ Loading library M held db keys' vchPubKeys' w' ∧ keys ⊆ keys' ∧ vchPubKeys ⊆ vchPubKeys'
    ∧ ∀ record ∈ records, record.1 ∈ vchPubKeys'
      ∧ ∃ key ∈ keys', record.1 = key.getPubKey library.toKeyLibrary
  := by
  induction records generalizing w keys vchPubKeys with
  | nil =>
    exact ⟨w, keys, vchPubKeys, rfl, h, List.Subset.refl keys, List.Subset.refl vchPubKeys, nofun⟩
  | cons record records ih =>
    obtain ⟨⟨key, hkey, hpub, hsecret⟩, hrecords⟩ := List.forall_mem_cons.mp hrecords
    obtain ⟨hfirst, hckey⟩ := List.forall_mem_cons.mp hckey
    have hrecord : record = (key.getPubKey library.toKeyLibrary, crypted library M key) :=
      Prod.ext hpub hsecret
    rw [hpub] at hfirst
    obtain ⟨w', hload, hloading⟩ := h.loadCryptedKey hkey hfirst
    obtain ⟨w'', keys', vchPubKeys', hrun, hloading', hsub, hsub', hall⟩ := ih hrecords hckey hloading
    refine ⟨w'', keys', vchPubKeys', ?_, hloading', ?_, ?_, ?_⟩
    · rw [List.foldlM_cons, hrecord, hload]
      exact hrun
    · exact fun key' hmem => hsub (List.mem_append_left [key] hmem)
    · exact fun vchPubKey hmem => hsub' (List.mem_append_left _ hmem)
    · intro record' hmem
      rcases List.mem_cons.mp hmem with rfl | hmem
      · refine ⟨?_, key, hsub (List.mem_append_right keys (List.mem_singleton_self key)), hpub⟩
        rw [hpub]
        exact hsub' (List.mem_append_right vchPubKeys (List.mem_singleton_self _))
      · exact hall record' hmem

theorem Loading.of_same
    (h : Loading library M held db keys vchPubKeys w) (hsame : SameKeys w w') (hdb : w'.db = w.db) :
  Loading library M held db keys vchPubKeys w'
  := by
  refine ⟨⟨?_, ?_, ?_, ?_, ?_⟩, ?_, ?_, ?_, ?_, ?_, hdb.trans h.db⟩
  · rw [hsame.mapKeys]
    exact h.memory.plain
  · rw [hsame.mapCryptedKeys]
    exact h.memory.crypted
  · rw [hsame.mapUnencryptedKeys]
    exact h.memory.leftover
  · rw [hsame.mapCryptedKeys, hsame.mapUnencryptedKeys, hsame.vMasterKey, hsame.fUseCrypto]
    exact h.memory.opened
  · rw [hsame.vMasterKey]
    exact h.memory.master
  · rw [hsame.vMasterKey]
    exact h.vMasterKey
  · rw [hsame.fUseCrypto, hsame.mapKeys]
    exact h.closed
  · rw [hsame.mapKeys, hsame.mapCryptedKeys, hsame.mapUnencryptedKeys]
    exact h.loaded
  · rw [hsame.mapCryptedKeys]
    exact h.moved
  · rw [hsame.mapCryptedKeys]
    exact h.ckey

theorem sameKeys_loadHD (w : CWallet) (db : WalletDB) :
  SameKeys w (w.loadHD library db)
  := by
  rw [loadHD]
  cases db.hdchain <;> cases db.hdseedid <;> cases db.hdmnemonic <;> cases db.chdmnemonic <;>
    exact ⟨rfl, rfl, rfl, rfl, rfl, rfl, rfl, rfl, rfl⟩

theorem db_loadHD (w : CWallet) (db : WalletDB) :
  (w.loadHD library db).db = w.db
  := by
  rw [loadHD]
  cases db.hdchain <;> cases db.hdseedid <;> cases db.hdmnemonic <;> cases db.chdmnemonic <;> rfl

theorem loading_new (library : WalletLibrary) (M : Bytes) (held : List CKey) (db : WalletDB) :
  Loading library M held db [] [] (new db)
  := by
  have hnone : ∀ {α : Type} (id : CKeyID), (∅ : ExtTreeMap CKeyID α)[id]? = none :=
    fun _ => ExtTreeMap.getElem?_empty
  refine ⟨⟨?_, ?_, ?_, fun _ => ⟨rfl, rfl, rfl⟩, .inl rfl⟩, rfl, nofun, nofun, nofun, ?_, rfl⟩
  · intro id key hget
    cases (hnone id).symm.trans hget
  · intro id vchPubKey vchCryptedSecret hget
    cases (hnone id).symm.trans hget
  · intro id key hget
    cases (hnone id).symm.trans hget
  · intro id vchPubKey vchCryptedSecret hget
    cases (hnone id).symm.trans hget

/-- A wallet is loaded once all its keys are. -/
theorem Loading.kept
    (h : Loading library M held db keys vchPubKeys w) (hlength : M.length = WALLET_CRYPTO_KEY_SIZE)
    (hvalid : ∀ key ∈ held, key.Valid) (hdisk : Disk library M held db)
    (hrecords : ∀ key ∈ held, InRecords db (key.getPubKey library.toKeyLibrary))
    (hkeys : ∀ key ∈ held, ∃ key' ∈ keys,
      key.getPubKey library.toKeyLibrary = key'.getPubKey library.toKeyLibrary)
    (hmoved : ∀ vchPubKey : CPubKey, vchPubKey ∈ db.ckey → vchPubKey ∈ vchPubKeys) :
  Kept library M held w
  := by
  have hloaded : ∀ key ∈ held, key.getID library.toKeyLibrary ∈ w.mapKeys
      ∨ key.getID library.toKeyLibrary ∈ w.mapCryptedKeys
      ∨ key.getID library.toKeyLibrary ∈ w.mapUnencryptedKeys := by
    intro key hkey
    obtain ⟨key', hmem, hpub⟩ := hkeys key hkey
    have hid : key.getID library.toKeyLibrary = key'.getID library.toKeyLibrary := by
      rw [CKey.getID, hpub, CKey.getID]
    rw [hid]
    exact h.loaded key' hmem
  refine ⟨⟨hlength, hvalid, h.memory, ?_, ?_, ?_⟩, ⟨?_, ?_, ?_, h.closed, ?_⟩⟩
  · rw [h.db]
    exact hdisk
  · rw [h.db]
    exact h.ckey
  · rw [h.db]
    exact fun vchPubKey hmem => h.moved vchPubKey (hmoved vchPubKey hmem)
  · intro hcrypto key hkey
    obtain ⟨hmap, hleftover, _⟩ := h.memory.opened hcrypto
    rcases hloaded key hkey with hin | hin | hin
    · exact hin
    · rw [hmap] at hin
      exact absurd hin ExtTreeMap.not_mem_empty
    · rw [hleftover] at hin
      exact absurd hin ExtTreeMap.not_mem_empty
  · intro hcrypto key hkey
    rcases hloaded key hkey with hin | hin
    · rw [h.closed hcrypto] at hin
      exact absurd hin ExtTreeMap.not_mem_empty
    · exact hin
  · exact fun _ hne => absurd h.vMasterKey hne
  · rw [h.db]
    exact hrecords

theorem mem_of_mem_toList {α : Type} {records : ExtTreeMap Bytes α} {record : Bytes × α}
    (h : record ∈ records.toList) :
  record.1 ∈ records
  := by
  have hget := ExtTreeMap.mem_toList_iff_getElem?_eq_some.mp h
  rw [← ExtTreeMap.isSome_getElem?_iff_mem, hget, Option.isSome_some]

theorem exists_mem_toList {α : Type} {records : ExtTreeMap Bytes α} {vchPubKey : Bytes}
    (h : vchPubKey ∈ records) :
  ∃ record ∈ records.toList, record.1 = vchPubKey
  := by
  obtain ⟨value, hget⟩ := Option.isSome_iff_exists.mp (ExtTreeMap.isSome_getElem?_iff_mem.mpr h)
  exact ⟨(vchPubKey, value), ExtTreeMap.mem_toList_iff_getElem?_eq_some.mpr hget, rfl⟩

/-- Loading gives back the wallet of a database. -/
theorem load_spec
    (hlibrary : library.Lawful) (hlength : M.length = WALLET_CRYPTO_KEY_SIZE)
    (hvalid : ∀ key ∈ held, key.Valid) (hdisk : Disk library M held db)
    (hrecords : ∀ key ∈ held, InRecords db (key.getPubKey library.toKeyLibrary)) :
  ∃ w, load library db = some w ∧ Kept library M held w ∧ w.db = db
  := by
  obtain ⟨w₁, keys₁, hrun₁, h₁, _, hall₁⟩ :=
    loading_keyRecords hlibrary hvalid db.key.toList
      (fun record hmem =>
        hdisk.key record.1 record.2 (ExtTreeMap.mem_toList_iff_getElem?_eq_some.mp hmem))
      (loading_new library M held db)
  obtain ⟨w₂, keys₂, vchPubKeys₂, hrun₂, h₂, hsub₂, _, hall₂⟩ :=
    loading_cryptedRecords db.ckey.toList
      (fun record hmem =>
        hdisk.ckey record.1 record.2 (ExtTreeMap.mem_toList_iff_getElem?_eq_some.mp hmem))
      (fun record hmem => mem_of_mem_toList hmem) h₁
  have hsame₃ : SameKeys w₂
      { w₂ with
        mapMasterKeys := db.mkey
        nMasterKeyMaxID := db.mkey.maxKey?.getD 0
        setKeyPool := ExtTreeSet.ofList db.pool.keys } :=
    ⟨rfl, rfl, rfl, rfl, rfl, rfl, rfl, rfl, rfl⟩
  obtain ⟨w₄, keys₄, hrun₄, h₄, hsub₄, hall₄⟩ :=
    loading_keyRecords hlibrary hvalid db.wkey.toList
      (fun record hmem =>
        hdisk.wkey record.1 record.2 (ExtTreeMap.mem_toList_iff_getElem?_eq_some.mp hmem))
      (h₂.of_same hsame₃ rfl)
  have hsame₅ : SameKeys w₄ { w₄ with vchDefaultKey := db.defaultkey } :=
    ⟨rfl, rfl, rfl, rfl, rfl, rfl, rfl, rfl, rfl⟩
  have h₅ : Loading library M held db keys₄ vchPubKeys₂ (loadHD library
      { w₄ with vchDefaultKey := db.defaultkey } db) :=
    h₄.of_same (hsame₅.trans (sameKeys_loadHD _ db)) (db_loadHD _ db)
  refine ⟨_, ?_, h₅.kept hlength hvalid hdisk hrecords ?_ ?_, h₅.db⟩
  · simp only [load, hrun₁, hrun₂, hrun₄, Option.bind_eq_bind, Option.bind_some]
    rfl
  · intro key hkey
    rcases hrecords key hkey with hmem | hmem | hmem
    · obtain ⟨record, hrecord, hfirst⟩ := exists_mem_toList hmem
      obtain ⟨key', hkey', hpub⟩ := hall₁ record hrecord
      exact ⟨key', hsub₄ (hsub₂ hkey'), hfirst.symm.trans hpub⟩
    · obtain ⟨record, hrecord, hfirst⟩ := exists_mem_toList hmem
      obtain ⟨key', hkey', hpub⟩ := hall₄ record hrecord
      exact ⟨key', hkey', hfirst.symm.trans hpub⟩
    · obtain ⟨record, hrecord, hfirst⟩ := exists_mem_toList hmem
      obtain ⟨_, key', hkey', hpub⟩ := hall₂ record hrecord
      exact ⟨key', hsub₄ hkey', hfirst.symm.trans hpub⟩
  · intro vchPubKey hmem
    obtain ⟨record, hrecord, hfirst⟩ := exists_mem_toList hmem
    rw [← hfirst]
    exact (hall₂ record hrecord).1

/-- A restart leaves the keys, and the master key that they are encrypted with. -/
theorem Holding.reload (hlibrary : library.Lawful) (h : Holding library M w) :
  Holding library M (w.reload library)
  := by
  obtain ⟨hsound, hcomplete⟩ := h
  obtain ⟨w', hload, hkept, hdb⟩ :=
    load_spec hlibrary hsound.length hsound.valid hsound.disk hcomplete.records
  rw [CWallet.reload, hload]
  exact ⟨⟨hkept.sound.length, hkept.sound.valid, ⟨hkept.sound.memory.plain,
    hkept.sound.memory.crypted, hkept.sound.memory.leftover, hkept.sound.memory.opened,
    hkept.sound.memory.master⟩, hkept.sound.disk, hkept.sound.crypted_disk,
    hkept.sound.disk_crypted⟩, ⟨hkept.complete.plain, hkept.complete.crypted,
    hkept.complete.unlocked, hkept.complete.closed, hkept.complete.records⟩⟩

theorem holds_reload (hlibrary : library.Lawful) (h : Holds library w) :
  Holds library (w.reload library)
  := by
  obtain ⟨M, h⟩ := h
  exact ⟨M, h.reload hlibrary⟩

/-! ## Runs -/

theorem Holding.encryptLeftoverPlaintextKeys (h : Holding library M w) :
  Holding library M (w.encryptLeftoverPlaintextKeys library)
  := by
  cases hleft : (w.mapUnencryptedKeys.isEmpty || !w.fUseCrypto || w.isLocked) with
  | true =>
    rw [CWallet.encryptLeftoverPlaintextKeys, if_pos hleft]
    exact h
  | false =>
    rw [Bool.or_eq_false_iff, Bool.or_eq_false_iff, Bool.not_eq_false'] at hleft
    obtain ⟨⟨_, hcrypto⟩, hlocked⟩ := hleft
    have hmaster : w.vMasterKey = M :=
      h.sound.memory.master.resolve_left (isLocked_eq_false.mp hlocked hcrypto)
    have hresult := holding_encryptLeftoverPlaintextKeys ⟨h.sound, hcrypto, hmaster⟩
      (h.complete.crypted hcrypto) h.complete.records (h.complete.closed hcrypto)
    exact hresult.1

theorem holds_encryptWallet
    (hlibrary : library.Lawful) (strWalletPassphrase : Bytes) (input : EncryptInput) (nKeys : ℕ)
    {rands : ℕ → CKey} (hrands : ∀ i, (rands i).Valid) (h : Holds library w) :
  Holds library (w.encryptWallet library strWalletPassphrase input nKeys rands)
  := by
  obtain ⟨M, h⟩ := h
  cases hcrypto : w.fUseCrypto with
  | true =>
    rw [encryptWallet, if_pos hcrypto]
    exact ⟨M, h⟩
  | false =>
    obtain ⟨w', hsecrets, hholding, _⟩ := encryptSecrets_spec h hcrypto strWalletPassphrase input
    rw [encryptWallet, hcrypto, if_neg Bool.false_ne_true, hsecrets]
    exact holds_rebuildPool hlibrary strWalletPassphrase nKeys hrands ⟨_, hholding⟩

/-- Every call keeps every key. -/
theorem holds_step (hlibrary : library.Lawful) (call : Call) (h : Holds library w) :
  Holds library (w.step library call)
  := by
  cases call with
  | addKey key =>
    obtain ⟨M, h⟩ := h
    exact ⟨M, h.addKey key.2⟩
  | generateNewKey rand =>
    obtain ⟨M, h⟩ := h
    exact ⟨M, h.generateNewKey rand.2⟩
  | newKeyPool nKeys rands =>
    obtain ⟨M, h⟩ := h
    exact ⟨M, (poolStable_holding library M).newKeyPool (fun i => (rands i).2) nKeys h⟩
  | topUpKeyPool nKeys rands =>
    obtain ⟨M, h⟩ := h
    exact ⟨M, (poolStable_holding library M).topUpKeyPool (fun i => (rands i).2) nKeys h⟩
  | encryptWallet strWalletPassphrase input nKeys rands =>
    exact holds_encryptWallet hlibrary strWalletPassphrase input nKeys (fun i => (rands i).2) h
  | lock =>
    obtain ⟨M, h⟩ := h
    exact ⟨M, h.lock⟩
  | unlock strWalletPassphrase => exact holds_unlock hlibrary strWalletPassphrase h
  | changeWalletPassphrase strOldWalletPassphrase strNewWalletPassphrase nDeriveIterations =>
    exact holds_changeWalletPassphrase hlibrary strOldWalletPassphrase strNewWalletPassphrase
      nDeriveIterations h
  | setHDSeedFromMnemonic mnemonic =>
    obtain ⟨M, h⟩ := h
    exact ⟨M, h.of_same (sameKeys_setHDSeedFromMnemonic w mnemonic)⟩
  | encryptLeftoverPlaintextKeys =>
    obtain ⟨M, h⟩ := h
    exact ⟨M, h.encryptLeftoverPlaintextKeys⟩
  | reload => exact holds_reload hlibrary h

/-- No call forgets a key. -/
theorem subset_vAdded_step (w : CWallet) (call : Call) :
  w.vAdded ⊆ (w.step library call).vAdded
  := by
  cases call with
  | addKey key => exact (onlyKeys_addKey w key).vAdded
  | generateNewKey rand => exact subset_vAdded_generateNewKey w rand
  | newKeyPool nKeys rands => exact subset_vAdded_newKeyPool w nKeys _
  | topUpKeyPool nKeys rands => exact subset_vAdded_topUpKeyPool w nKeys _
  | encryptWallet strWalletPassphrase input nKeys rands =>
    exact subset_vAdded_encryptWallet w strWalletPassphrase input nKeys _
  | lock => exact (onlyKeys_lock w).vAdded
  | unlock strWalletPassphrase => exact subset_vAdded_unlock w strWalletPassphrase
  | changeWalletPassphrase strOldWalletPassphrase strNewWalletPassphrase nDeriveIterations =>
    exact (onlyKeys_changeWalletPassphrase w _ _ _).vAdded
  | setHDSeedFromMnemonic mnemonic =>
    rw [step, vAdded_setHDSeedFromMnemonic]
    exact List.Subset.refl _
  | encryptLeftoverPlaintextKeys => exact (onlyKeys_encryptLeftoverPlaintextKeys w).vAdded
  | reload =>
    rw [step, vAdded_reload]
    exact List.Subset.refl _

theorem subset_vAdded_run (w : CWallet) (calls : List Call) :
  w.vAdded ⊆ (run (step library) w calls).vAdded
  := by
  induction calls generalizing w with
  | nil => exact List.Subset.refl _
  | cons call calls ih => exact List.Subset.trans (subset_vAdded_step w call) (ih _)

theorem holds_run (hlibrary : library.Lawful) (calls : List Call) (h : Holds library w) :
  Holds library (run (step library) w calls)
  := by
  induction calls generalizing w with
  | nil => exact h
  | cons call calls ih => exact ih (holds_step hlibrary call h)

/-- Every id that `GetKeys` reports is the one of a key that was added. -/
theorem exists_of_mem_getKeys (h : Holding library M w) {id : CKeyID} (hid : id ∈ w.getKeys) :
  ∃ key ∈ w.vAdded, id = key.getID library.toKeyLibrary
  := by
  have hplain : ∀ {keys : ExtTreeMap CKeyID CKey},
      (∀ (id : CKeyID) (key : CKey), keys[id]? = some key →
        key ∈ w.vAdded ∧ id = key.getID library.toKeyLibrary) →
      id ∈ keys.keys → ∃ key ∈ w.vAdded, id = key.getID library.toKeyLibrary := by
    intro keys hkeys hmem
    rw [ExtTreeMap.mem_keys, ← ExtTreeMap.isSome_getElem?_iff_mem] at hmem
    obtain ⟨key, hget⟩ := Option.isSome_iff_exists.mp hmem
    exact ⟨key, hkeys id key hget⟩
  rw [getKeys] at hid
  rcases List.mem_append.mp hid with hmem | hmem
  · split_ifs at hmem
    · exact hplain h.sound.memory.plain hmem
    · rw [ExtTreeMap.mem_keys, ← ExtTreeMap.isSome_getElem?_iff_mem] at hmem
      obtain ⟨⟨vchPubKey, vchCryptedSecret⟩, hget⟩ := Option.isSome_iff_exists.mp hmem
      obtain ⟨key, hkey, hkeyid, _⟩ := h.sound.memory.crypted id vchPubKey vchCryptedSecret hget
      exact ⟨key, hkey, hkeyid⟩
  · exact hplain h.sound.memory.leftover hmem

/-- A database as wallets write it: every record is about a key of a list, under its own public key,
and every key of the list has a record. -/
structure Records (library : WalletLibrary) (M : Bytes) (held : List CKey) (db : WalletDB) : Prop where
  length : M.length = WALLET_CRYPTO_KEY_SIZE
  valid : ∀ key ∈ held, key.Valid
  disk : Disk library M held db
  complete : ∀ key ∈ held, InRecords db (key.getPubKey library.toKeyLibrary)

/-- A wallet started from a database, whose keys count as added. -/
def start (library : WalletLibrary) (held : List CKey) (db : WalletDB) : Option CWallet :=
  (load library db).map (fun w => { w with vAdded := held })

theorem Records.start (hlibrary : library.Lawful) (h : Records library M held db) :
  ∃ w, start library held db = some w ∧ Holding library M w ∧ w.vAdded = held
  := by
  obtain ⟨w, hload, hkept, _⟩ := load_spec hlibrary h.length h.valid h.disk h.complete
  refine ⟨{ w with vAdded := held }, by rw [CWallet.start, hload, Option.map_some], ?_, rfl⟩
  exact ⟨⟨hkept.sound.length, hkept.sound.valid, ⟨hkept.sound.memory.plain,
    hkept.sound.memory.crypted, hkept.sound.memory.leftover, hkept.sound.memory.opened,
    hkept.sound.memory.master⟩, hkept.sound.disk, hkept.sound.crypted_disk,
    hkept.sound.disk_crypted⟩, ⟨hkept.complete.plain, hkept.complete.crypted,
    hkept.complete.unlocked, hkept.complete.closed, hkept.complete.records⟩⟩

/-- `GetKey` finds a key whatever the object held before, and the key it finds is the only one with
that id. -/
def Readable (library : WalletLibrary) (w : CWallet) (id : CKeyID) : Prop :=
  ∀ keyOut : KeyObject, ∃ keyRead key, w.getKey library id keyOut = some keyRead
    ∧ keyRead.key? = some key ∧ key ∈ w.vAdded ∧ key.getID library.toKeyLibrary = id
    ∧ (Distinct library w.vAdded → ∀ key' ∈ w.vAdded, key'.getID library.toKeyLibrary = id → key' = key)

theorem Holding.readable
    (hlibrary : library.Lawful) (h : Holding library M w) (hlocked : w.isLocked = false)
    (hkey : key ∈ w.vAdded) :
  Readable library w (key.getID library.toKeyLibrary)
  := by
  intro keyOut
  obtain ⟨keyRead, key', hkey', hget, hread, hid⟩ :=
    getKey_of_sound hlibrary h.sound h.complete hlocked hkey keyOut
  refine ⟨keyRead, key', hget, hread, hkey', hid, ?_⟩
  exact fun hdistinct other hother hotherid =>
    hdistinct other hother key' hkey' (hotherid.trans hid.symm)

/-- The wallet of a database keeps every key through every sequence of calls: whenever it is
unlocked, it reads back every key it held before, and every key is stored under its own public
key. -/
theorem readable_of_run
    (hlibrary : library.Lawful) (hdb : Records library M held db) (calls calls' : List Call) :
  ∃ w₀, start library held db = some w₀
    ∧ ∃ w w', w = run (step library) w₀ calls ∧ w' = run (step library) w calls'
      ∧ held ⊆ w.vAdded ∧ w.vAdded ⊆ w'.vAdded
      ∧ (w'.isLocked = false → ∀ id : CKeyID,
          id ∈ w.getKeys ∨ (∃ key ∈ w.vAdded, id = key.getID library.toKeyLibrary) →
          Readable library w' id)
      ∧ ∃ M', Memory library M' w'.vAdded w' ∧ Disk library M' w'.vAdded w'.db
  := by
  obtain ⟨w₀, hstart, hholding, hadded⟩ := hdb.start hlibrary
  obtain ⟨M₁, h₁⟩ := holds_run hlibrary calls ⟨M, hholding⟩
  obtain ⟨M₂, h₂⟩ := holds_run hlibrary calls' ⟨M₁, h₁⟩
  have hheld := @subset_vAdded_run library w₀ calls
  have hgrow := @subset_vAdded_run library (run (step library) w₀ calls) calls'
  rw [hadded] at hheld
  refine ⟨w₀, hstart, _, _, rfl, rfl, hheld, hgrow, ?_, M₂, h₂.sound.memory, h₂.sound.disk⟩
  intro hlocked id hid
  obtain ⟨key, hkey, rfl⟩ := hid.elim (exists_of_mem_getKeys h₁) (fun hkey => hkey)
  exact h₂.readable hlibrary hlocked (hgrow hkey)

/-! ### A wallet with a plaintext key next to an encrypted one -/

/-- Functions that a wallet can be run with: a public key spells its secret, and a ciphertext starts
with its key. -/
def sampleWalletLibrary : WalletLibrary where
  hmacSha512 := fun _ data =>
    toBE32 (ofBE (data.drop (data.length - 4)) + 1) ++ List.replicate 32 0
  length_hmacSha512 := fun _ data => by
    rw [List.length_append, toBE32, List.length_reverse, length_toLE, List.length_replicate]
  hash160 := fun bytes => BitVec.ofNat 160 (2 * ofBE bytes + bytes.length / 64)
  publicKey := fun secret fCompressed =>
    if fCompressed then 2 :: toBE32 secret else 4 :: (List.replicate 32 0 ++ toBE32 secret)
  hash := fun bytes => BitVec.ofNat 256 (ofBE bytes)
  isPublicKey := fun bytes => bytes.length == 33 || bytes.length == 65
  bytesToKeySHA512 := fun strKeyData chSalt _ => (strKeyData, chSalt)
  pbkdf2SHA512 := fun strKeyData chSalt _ => (strKeyData, chSalt)
  encrypt := fun key plaintext => key.1 ++ plaintext
  decrypt := fun key ciphertext =>
    if key.1.isPrefixOf ciphertext then some (ciphertext.drop key.1.length) else none
  checkMnemonic := fun mnemonic => !mnemonic.isEmpty
  mnemonicToSeed := fun mnemonic => mnemonic

theorem lawful_sampleWalletLibrary :
  sampleWalletLibrary.Lawful
  := by
  constructor
  · intro key plaintext
    simp only [sampleWalletLibrary, List.isPrefixOf_iff_prefix, List.prefix_append, if_true,
      List.drop_left]
  · intro key _
    cases hflag : key.fCompressed <;>
      simp [sampleWalletLibrary, CKey.getPubKey, hflag, length_toBE32]
  · intro key _
    cases hflag : key.fCompressed <;>
      simp [sampleWalletLibrary, CKey.getPubKey, hflag, length_toBE32]
  · intro key vMasterKey vMasterKey' iv vchSecret _ hlength hlength' hdecrypt _
    simp only [sampleWalletLibrary, List.isPrefixOf_iff_prefix] at hdecrypt
    split_ifs at hdecrypt with hprefix
    have hmaster := List.prefix_of_prefix_length_le hprefix (List.prefix_append vMasterKey key.getSecret)
      (hlength'.trans hlength.symm).le
    exact hmaster.eq_of_length (hlength'.trans hlength.symm)

/-- A wallet's master key. -/
def sampleMasterKey : Bytes := List.replicate 32 7

/-- An uncompressed and a compressed key. -/
def sampleWalletKeys : List CKey := [⟨5, false⟩, ⟨6, true⟩]

/-- The first key is on disk in plaintext and the second one encrypted; the passphrase is `1`. -/
def sampleWalletDB : WalletDB :=
  { WalletDB.empty with
    key := (∅ : ExtTreeMap Bytes ℕ).insert
      (CKey.getPubKey sampleWalletLibrary.toKeyLibrary ⟨5, false⟩) 5
    ckey := (∅ : ExtTreeMap Bytes Bytes).insert
      (CKey.getPubKey sampleWalletLibrary.toKeyLibrary ⟨6, true⟩)
      (crypted sampleWalletLibrary sampleMasterKey ⟨6, true⟩)
    mkey := (∅ : ExtTreeMap ℕ CMasterKey).insert 1
      { vchCryptedKey := 1 :: sampleMasterKey
        vchSalt := List.replicate 8 0
        nDerivationMethod := WALLET_DERIVATION_BYTESTOKEY_SHA512
        nDeriveIterations := 25000 } }

theorem records_sampleWalletDB :
  Records sampleWalletLibrary sampleMasterKey sampleWalletKeys sampleWalletDB
  := by
  refine ⟨rfl, ?_, ⟨?_, ?_, ?_⟩, ?_⟩
  · rw [sampleWalletKeys, List.forall_mem_cons, List.forall_mem_singleton]
    exact ⟨⟨by decide, by decide⟩, by decide, by decide⟩
  · intro vchPubKey secret hget
    rw [sampleWalletDB, getElem?_insert_ite] at hget
    split_ifs at hget with heq
    · cases hget
      exact ⟨⟨5, false⟩, List.mem_cons_self, heq.symm, rfl⟩
    · cases ExtTreeMap.getElem?_empty.symm.trans hget
  · intro vchPubKey secret hget
    cases ExtTreeMap.getElem?_empty.symm.trans hget
  · intro vchPubKey vchCryptedSecret hget
    rw [sampleWalletDB, getElem?_insert_ite] at hget
    split_ifs at hget with heq
    · cases hget
      exact ⟨⟨6, true⟩, List.mem_cons_of_mem _ List.mem_cons_self, heq.symm, rfl⟩
    · cases ExtTreeMap.getElem?_empty.symm.trans hget
  · rw [sampleWalletKeys, List.forall_mem_cons, List.forall_mem_singleton]
    exact ⟨.inl ExtTreeMap.mem_insert_self, .inr (.inr ExtTreeMap.mem_insert_self)⟩

/-- The wallet of that database is unlocked with its passphrase, and reads back both keys. -/
theorem sampleWalletDB_readable :
  Records sampleWalletLibrary sampleMasterKey sampleWalletKeys sampleWalletDB
    ∧ ∃ w₀, start sampleWalletLibrary sampleWalletKeys sampleWalletDB = some w₀
      ∧ (run (step sampleWalletLibrary) w₀ [.unlock [1]]).isLocked = false
      ∧ ∀ key ∈ sampleWalletKeys,
        Readable sampleWalletLibrary (run (step sampleWalletLibrary) w₀ [.unlock [1]])
          (key.getID sampleWalletLibrary.toKeyLibrary)
  := by
  obtain ⟨w₀, hstart, w, w', hw, hw', hheld, _, hread, _⟩ :=
    readable_of_run lawful_sampleWalletLibrary records_sampleWalletDB [] [.unlock [1]]
  have hlocked : (start sampleWalletLibrary sampleWalletKeys sampleWalletDB).map
      (fun w₀ => (run (step sampleWalletLibrary) w₀ [.unlock [1]]).isLocked) = some false := by
    decide +kernel
  rw [hstart, Option.map_some, Option.some.injEq] at hlocked
  have hrun : w' = run (step sampleWalletLibrary) w₀ [.unlock [1]] := by
    rw [hw', hw]
    rfl
  rw [hrun] at hread
  refine ⟨records_sampleWalletDB, w₀, hstart, hlocked, ?_⟩
  exact fun key hkey => hread hlocked _ (.inr ⟨key, hheld hkey, rfl⟩)

end CWallet

end CorgiCoin
