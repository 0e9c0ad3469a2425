import CorgiCoin.Lib.TreeMap
import CorgiCoin.HDKey

/-!
# The keys of the wallet

The key store of the wallet with its encryption, the HD seed, the key pool, and the records of all
three in the wallet database.  The hash functions, the curve, the cipher and the BIP39 functions are
parameters.  A call that throws leaves the wallet as far as it came; writes to the database succeed
except for a record that may not be overwritten.
-/

namespace CorgiCoin

open Std

abbrev CKeyID := uint160
abbrev CPubKey := Bytes

/-- The functions that the wallet is built on. -/
structure WalletLibrary extends KeyLibrary where
  /-- `Hash`, the double SHA-256 of a string of bytes. -/
  hash : Bytes → uint256
  /-- `o2i_ECPublicKey` reads a point from the bytes. -/
  isPublicKey : Bytes → Bool
  /-- `DeriveKeyBytesToKeySHA512` of a passphrase, a salt and a number of rounds: a key and an IV. -/
  bytesToKeySHA512 : Bytes → Bytes → ℕ → Bytes × Bytes
  /-- `DeriveKeyPBKDF2SHA512` -/
  pbkdf2SHA512 : Bytes → Bytes → ℕ → Bytes × Bytes
  /-- AES-256-CBC with a key and an IV. -/
  encrypt : Bytes × Bytes → Bytes → Bytes
  decrypt : Bytes × Bytes → Bytes → Option Bytes
  /-- `bip39::CheckMnemonic` -/
  checkMnemonic : Bytes → Bool
  /-- `bip39::MnemonicToSeed` -/
  mnemonicToSeed : Bytes → Bytes

/-- A secret that a key can have: 32 bytes, and not a multiple of the order of the group. -/
def CKey.Valid (key : CKey) : Prop := key.secret < 2 ^ 256 ∧ key.secret % SECP256K1_ORDER ≠ 0

abbrev ValidKey := {key : CKey // key.Valid}

/-! ## The crypter -/

def WALLET_CRYPTO_KEY_SIZE : ℕ := 32
def WALLET_CRYPTO_SALT_SIZE : ℕ := 8
def WALLET_DERIVATION_BYTESTOKEY_SHA512 : ℕ := 0
def WALLET_DERIVATION_PBKDF2_SHA512_V4 : ℕ := 0x80000000

structure CMasterKey where
  vchCryptedKey : Bytes
  vchSalt : Bytes
  nDerivationMethod : ℕ
  nDeriveIterations : ℕ
  deriving DecidableEq

section Crypter

variable (library : WalletLibrary)

/-- `SetKeyFromPassphrase`; `none` where it returns false. -/
def setKeyFromPassphrase (strKeyData chSalt : Bytes) (nRounds nDerivationMethod : ℕ) :
    Option (Bytes × Bytes) :=
  if nRounds < 1 ∨ chSalt.length ≠ WALLET_CRYPTO_SALT_SIZE then none
  else if nDerivationMethod = WALLET_DERIVATION_BYTESTOKEY_SHA512 then
    some (library.bytesToKeySHA512 strKeyData chSalt nRounds)
  else if nDerivationMethod = WALLET_DERIVATION_PBKDF2_SHA512_V4 then
    some (library.pbkdf2SHA512 strKeyData chSalt nRounds)
  else none

/-- `EncryptSecret`; `none` where the master key does not have the size of a key. -/
def encryptSecret (vMasterKey vchPlaintext : Bytes) (nIV : uint256) : Option Bytes :=
  if vMasterKey.length ≠ WALLET_CRYPTO_KEY_SIZE then none
  else some (library.encrypt (vMasterKey, serializeUint256 nIV) vchPlaintext)

def decryptSecret (vMasterKey vchCiphertext : Bytes) (nIV : uint256) : Option Bytes :=
  if vMasterKey.length ≠ WALLET_CRYPTO_KEY_SIZE then none
  else library.decrypt (vMasterKey, serializeUint256 nIV) vchCiphertext

/-- The master key that a passphrase opens with one way to derive a key from it. -/
def openMasterKey (strWalletPassphrase : Bytes) (kMasterKey : CMasterKey) (nMethod : ℕ) :
    Option Bytes := do
  let key ← setKeyFromPassphrase library strWalletPassphrase kMasterKey.vchSalt
    kMasterKey.nDeriveIterations nMethod
  let vMasterKey ← library.decrypt key kMasterKey.vchCryptedKey
  if vMasterKey.length ≠ WALLET_CRYPTO_KEY_SIZE then none else some vMasterKey

/-- `HDSeedIV`: the fingerprint of the seed in the first bytes. -/
def hdSeedIV (id : CKeyID) : uint256 := BitVec.ofNat 256 id.toNat

end Crypter

/-! ## A key object -/

/-- An object of class `CKey`, which need not hold a key. -/
structure KeyObject where
  secret : Option ℕ
  fSet : Bool
  fCompressedPubKey : Bool
  deriving DecidableEq

namespace KeyObject

variable (library : WalletLibrary)

/-- A new object, and an object after `Reset`. -/
def reset : KeyObject := ⟨none, false, false⟩

/-- `SetSecret` keeps the flag that the object has. -/
def setSecret (key : KeyObject) (vchSecret : Bytes) (fCompressed : Bool) : KeyObject :=
  { secret := some (ofBE vchSecret)
    fSet := true
    fCompressedPubKey := fCompressed || key.fCompressedPubKey }

/-- `SetPubKey` takes the flag from the length of the public key. -/
def setPubKey (key : KeyObject) (vchPubKey : CPubKey) : KeyObject :=
  if library.isPublicKey vchPubKey then
    { key with fSet := true, fCompressedPubKey := vchPubKey.length == 33 }
  else key

/-- The key of an object that has a secret. -/
def key? (key : KeyObject) : Option CKey :=
  key.secret.map (fun secret => ⟨secret, key.fCompressedPubKey⟩)

end KeyObject

/-- The secret that a master key opens a crypted key to, if it is the one of the public key. -/
def opensKey (library : WalletLibrary) (vMasterKey vchPubKey vchCryptedSecret : Bytes) : Bool :=
  match decryptSecret library vMasterKey vchCryptedSecret (library.hash vchPubKey) with
  | none => false
  | some vchSecret =>
    if vchSecret.length ≠ 32 then false
    else
      let key := (KeyObject.reset.setPubKey library vchPubKey).setSecret vchSecret false
      key.key?.map (·.getPubKey library.toKeyLibrary) == some vchPubKey

/-! ## The database -/

/-- The records of the wallet database, each kind by its key. -/
structure WalletDB where
  /-- The private key of a public key. -/
  key : ExtTreeMap Bytes ℕ
  wkey : ExtTreeMap Bytes ℕ
  /-- The crypted secret of a public key. -/
  ckey : ExtTreeMap Bytes Bytes
  mkey : ExtTreeMap ℕ CMasterKey
  pool : ExtTreeMap ℕ CPubKey
  hdchain : Option UInt32
  hdseedid : Option CKeyID
  defaultkey : CPubKey
  hdmnemonic : Option Bytes
  chdmnemonic : Option Bytes

namespace WalletDB

def empty : WalletDB := ⟨∅, ∅, ∅, ∅, ∅, none, none, [], none, none⟩

/-- `WriteKey`; `none` where there is a record already. -/
def writeKey (db : WalletDB) (vchPubKey : CPubKey) (secret : ℕ) : Option WalletDB :=
  if db.key.contains vchPubKey then none
  else some { db with key := db.key.insert vchPubKey secret }

/-- `WriteCryptedKey`; `none` where there is a record already. -/
def writeCryptedKey (db : WalletDB) (vchPubKey : CPubKey) (vchCryptedSecret : Bytes) :
    Option WalletDB :=
  if db.ckey.contains vchPubKey then none
  else
    some
      { db with
        ckey := db.ckey.insert vchPubKey vchCryptedSecret
        key := db.key.erase vchPubKey
        wkey := db.wkey.erase vchPubKey }

end WalletDB

/-! ## The wallet -/

/-- The wallet and its database, and the keys it has been given and has generated. -/
structure CWallet where
  mapKeys : ExtTreeMap CKeyID CKey
  mapCryptedKeys : ExtTreeMap CKeyID (CPubKey × Bytes)
  fUseCrypto : Bool
  /-- Empty while the wallet is locked. -/
  vMasterKey : Bytes
  /-- Plaintext keys found in an encrypted wallet. -/
  mapUnencryptedKeys : ExtTreeMap CKeyID CKey
  mapMasterKeys : ExtTreeMap ℕ CMasterKey
  nMasterKeyMaxID : ℕ
  fHDEnabled : Bool
  /-- `none` while it is unset. -/
  hdMasterKey : Option CExtKey
  nHDExternalIndex : UInt32
  strHDMnemonic : Bytes
  hdSeedId : CKeyID
  vchCryptedHDMnemonic : Bytes
  setKeyPool : ExtTreeSet ℕ
  vchDefaultKey : CPubKey
  db : WalletDB
  /-- Every key that was put into the key store, for specifications only. -/
  vAdded : List CKey
  /-- Every key that `GenerateNewKey` returned, in their order, for specifications only. -/
  vGenerated : List CKey

namespace CWallet

/-- A wallet object before its database is loaded. -/
def new (db : WalletDB) : CWallet where
  mapKeys := ∅
  mapCryptedKeys := ∅
  fUseCrypto := false
  vMasterKey := []
  mapUnencryptedKeys := ∅
  mapMasterKeys := ∅
  nMasterKeyMaxID := 0
  fHDEnabled := false
  hdMasterKey := none
  nHDExternalIndex := 0
  strHDMnemonic := []
  hdSeedId := 0
  vchCryptedHDMnemonic := []
  setKeyPool := ∅
  vchDefaultKey := []
  db := db
  vAdded := []
  vGenerated := []

variable (library : WalletLibrary)

/-! ### Keys -/

def isLocked (w : CWallet) : Bool := w.fUseCrypto && w.vMasterKey.isEmpty

def setCrypted (w : CWallet) : CWallet × Bool :=
  if w.fUseCrypto then (w, true)
  else if !w.mapKeys.isEmpty then (w, false)
  else ({ w with fUseCrypto := true }, true)

def lock (w : CWallet) : CWallet :=
  match w.setCrypted with
  | (w, false) => w
  | (w, true) => { w with vMasterKey := [] }

/-- `CCryptoKeyStore::AddCryptedKey` -/
def addCryptedKeyToStore (w : CWallet) (vchPubKey : CPubKey) (vchCryptedSecret : Bytes) :
    CWallet × Bool :=
  match w.setCrypted with
  | (w, false) => (w, false)
  | (w, true) =>
    ({ w with
        mapCryptedKeys :=
          w.mapCryptedKeys.insert (library.hash160 vchPubKey) (vchPubKey, vchCryptedSecret) }, true)

/-- `CWallet::AddCryptedKey` -/
def addCryptedKey (w : CWallet) (vchPubKey : CPubKey) (vchCryptedSecret : Bytes) : CWallet × Bool :=
  match w.addCryptedKeyToStore library vchPubKey vchCryptedSecret with
  | (w, false) => (w, false)
  | (w, true) =>
    match w.db.writeCryptedKey vchPubKey vchCryptedSecret with
    | none => (w, false)
    | some db => ({ w with db := db }, true)

/-- `CWallet::AddKey` -/
def addKey (w : CWallet) (key : CKey) : CWallet × Bool :=
  let vchPubKey := key.getPubKey library.toKeyLibrary
  if !w.fUseCrypto then
    let w :=
      { w with
        mapKeys := w.mapKeys.insert (key.getID library.toKeyLibrary) key
        vAdded := key :: w.vAdded }
    match w.db.writeKey vchPubKey key.secret with
    | none => (w, false)
    | some db => ({ w with db := db }, true)
  else if w.isLocked then (w, false)
  else
    match encryptSecret library w.vMasterKey key.getSecret (library.hash vchPubKey) with
    | none => (w, false)
    | some vchCryptedSecret =>
      { w with vAdded := key :: w.vAdded }.addCryptedKey library vchPubKey vchCryptedSecret

def haveKey (w : CWallet) (address : CKeyID) : Bool :=
  (if !w.fUseCrypto then w.mapKeys.contains address else w.mapCryptedKeys.contains address)
    || w.mapUnencryptedKeys.contains address

/-- `CCryptoKeyStore::GetKey`; `none` where it returns false. -/
def getKeyFromStore (w : CWallet) (address : CKeyID) (keyOut : KeyObject) : Option KeyObject :=
  if !w.fUseCrypto then
    w.mapKeys[address]?.map (fun key => KeyObject.reset.setSecret key.getSecret key.fCompressed)
  else
    match w.mapCryptedKeys[address]? with
    | none => none
    | some (vchPubKey, vchCryptedSecret) =>
      match decryptSecret library w.vMasterKey vchCryptedSecret (library.hash vchPubKey) with
      | none => none
      | some vchSecret =>
        if vchSecret.length ≠ 32 then none
        else some ((keyOut.setPubKey library vchPubKey).setSecret vchSecret false)

/-- `CWallet::GetKey`; `none` where it returns false. -/
def getKey (w : CWallet) (address : CKeyID) (keyOut : KeyObject) : Option KeyObject :=
  match w.getKeyFromStore library address keyOut with
  | some key => some key
  | none =>
    match w.mapUnencryptedKeys[address]? with
    | none => none
    | some key =>
      if w.isLocked then none else some (keyOut.setSecret key.getSecret key.fCompressed)

/-- The ids that `GetKeys` collects. -/
def getKeys (w : CWallet) : List CKeyID :=
  (if !w.fUseCrypto then w.mapKeys.keys else w.mapCryptedKeys.keys) ++ w.mapUnencryptedKeys.keys

/-- One leftover key of `EncryptLeftoverPlaintextKeys`. -/
def encryptLeftoverKey (w : CWallet) (item : CKeyID × CKey) : CWallet :=
  match w.addKey library item.2 with
  | (w, true) => w
  | (w, false) => { w with mapUnencryptedKeys := w.mapUnencryptedKeys.insert item.1 item.2 }

def encryptLeftoverPlaintextKeys (w : CWallet) : CWallet :=
  if w.mapUnencryptedKeys.isEmpty || !w.fUseCrypto || w.isLocked then w
  else
    w.mapUnencryptedKeys.toList.foldl (encryptLeftoverKey library)
      { w with mapUnencryptedKeys := ∅ }

/-- `CCryptoKeyStore::Unlock`: the first crypted key tells whether the master key is right. -/
def unlockStore (w : CWallet) (vMasterKeyIn : Bytes) : CWallet × Bool :=
  match w.setCrypted with
  | (w, false) => (w, false)
  | (w, true) =>
    match w.mapCryptedKeys.toList.head? with
    | none => ({ w with vMasterKey := vMasterKeyIn }, true)
    | some (_, vchPubKey, vchCryptedSecret) =>
      if opensKey library vMasterKeyIn vchPubKey vchCryptedSecret then
        ({ w with vMasterKey := vMasterKeyIn }, true)
      else (w, false)

/-- The ways of deriving a key that `UnlockWithMasterKey` tries. -/
def methods (kMasterKey : CMasterKey) : List ℕ :=
  if kMasterKey.nDerivationMethod = WALLET_DERIVATION_BYTESTOKEY_SHA512 then
    [WALLET_DERIVATION_BYTESTOKEY_SHA512, WALLET_DERIVATION_PBKDF2_SHA512_V4]
  else [kMasterKey.nDerivationMethod]

/-- The loop of `UnlockWithMasterKey` over the ways of deriving a key. -/
def unlockWithMethods (w : CWallet) (strWalletPassphrase : Bytes) (kMasterKey : CMasterKey) :
    List ℕ → CWallet × Option Bytes
  | [] => (w, none)
  | nMethod :: nMethods =>
    match openMasterKey library strWalletPassphrase kMasterKey nMethod with
    | none => unlockWithMethods w strWalletPassphrase kMasterKey nMethods
    | some vMasterKey =>
      match w.unlockStore library vMasterKey with
      | (w, true) => (w.encryptLeftoverPlaintextKeys library, some vMasterKey)
      | (w, false) => unlockWithMethods w strWalletPassphrase kMasterKey nMethods

/-- `UnlockWithMasterKey`, with the master key it finds. -/
def unlockWithMasterKey (w : CWallet) (strWalletPassphrase : Bytes) (kMasterKey : CMasterKey) :
    CWallet × Option Bytes :=
  w.unlockWithMethods library strWalletPassphrase kMasterKey (methods kMasterKey)

/-! ### The HD seed -/

/-- The master key of a phrase. -/
def hdMaster (mnemonic : Bytes) : CExtKey :=
  CExtKey.setSeed library.toKeyLibrary (library.mnemonicToSeed mnemonic)

/-- The fingerprint of a phrase. -/
def hdSeedOf (mnemonic : Bytes) : CKeyID := (hdMaster library mnemonic).key.getID library.toKeyLibrary

def loadHDMnemonic (w : CWallet) (mnemonic : Bytes) : CWallet :=
  { w with
    hdMasterKey := some (hdMaster library mnemonic)
    strHDMnemonic := mnemonic
    hdSeedId := hdSeedOf library mnemonic
    fHDEnabled := true }

def decryptHDSeed (w : CWallet) (vMasterKeyIn : Bytes) : CWallet :=
  if w.vchCryptedHDMnemonic.isEmpty then w
  else
    match decryptSecret library vMasterKeyIn w.vchCryptedHDMnemonic (hdSeedIV w.hdSeedId) with
    | none => w
    | some mnemonic =>
      if !library.checkMnemonic mnemonic then w else w.loadHDMnemonic library mnemonic

/-- A new seed, with the records that do not depend on encryption. -/
def startHDSeed (w : CWallet) (mnemonic : Bytes) : CWallet :=
  { w.loadHDMnemonic library mnemonic with
    nHDExternalIndex := 0
    db := { w.db with hdseedid := some (hdSeedOf library mnemonic), hdchain := some 0 } }

/-- The record of the phrase of a wallet, encrypted if the wallet is. -/
def writeHDSeed (w : CWallet) (mnemonic : Bytes) : CWallet × Bool :=
  if w.fUseCrypto then
    match encryptSecret library w.vMasterKey mnemonic (hdSeedIV w.hdSeedId) with
    | none => (w, false)
    | some ct =>
      ({ w with
          vchCryptedHDMnemonic := ct
          db := { w.db with chdmnemonic := some ct, hdmnemonic := none } }, true)
  else ({ w with db := { w.db with hdmnemonic := some mnemonic } }, true)

def setHDSeedFromMnemonic (w : CWallet) (mnemonic : Bytes) : CWallet × Bool :=
  if !library.checkMnemonic mnemonic then (w, false)
  else if w.fUseCrypto && w.isLocked then (w, false)
  else (w.startHDSeed library mnemonic).writeHDSeed library mnemonic

/-! ### Locking and unlocking -/

/-- The loop of `Unlock` over the master keys. -/
def unlockLoop (w : CWallet) (strWalletPassphrase : Bytes) : List (ℕ × CMasterKey) → CWallet × Bool
  | [] => (w, false)
  | (_, kMasterKey) :: kMasterKeys =>
    match w.unlockWithMasterKey library strWalletPassphrase kMasterKey with
    | (w, some vMasterKey) => (w.decryptHDSeed library vMasterKey, true)
    | (w, none) => unlockLoop w strWalletPassphrase kMasterKeys

def unlock (w : CWallet) (strWalletPassphrase : Bytes) : CWallet × Bool :=
  if !w.isLocked then (w, false)
  else w.unlockLoop library strWalletPassphrase w.mapMasterKeys.toList

/-- The new record of a master key, which is put into the wallet before it is encrypted with the
new passphrase. -/
def reencrypt (w : CWallet) (nID : ℕ) (kMasterKey : CMasterKey) (vMasterKey : Bytes)
    (strNewWalletPassphrase : Bytes) : CWallet × Bool :=
  match setKeyFromPassphrase library strNewWalletPassphrase kMasterKey.vchSalt
      kMasterKey.nDeriveIterations kMasterKey.nDerivationMethod with
  | none => ({ w with mapMasterKeys := w.mapMasterKeys.insert nID kMasterKey }, false)
  | some key =>
    let kMasterKey := { kMasterKey with vchCryptedKey := library.encrypt key vMasterKey }
    ({ w with
        mapMasterKeys := w.mapMasterKeys.insert nID kMasterKey
        db := { w.db with mkey := w.db.mkey.insert nID kMasterKey } }, true)

/-- The loop of `ChangeWalletPassphrase` over the master keys; `nDeriveIterations` is the number
that the timing of the derivation gives. -/
def changePassphraseLoop (w : CWallet) (fWasLocked : Bool)
    (strOldWalletPassphrase strNewWalletPassphrase : Bytes) (nDeriveIterations : ℕ) :
    List (ℕ × CMasterKey) → CWallet × Bool
  | [] => (w, false)
  | (nID, kMasterKey) :: kMasterKeys =>
    match w.unlockWithMasterKey library strOldWalletPassphrase kMasterKey with
    | (w, none) =>
      changePassphraseLoop w fWasLocked strOldWalletPassphrase strNewWalletPassphrase
        nDeriveIterations kMasterKeys
    | (w, some vMasterKey) =>
      let kMasterKey :=
        { kMasterKey with
          nDerivationMethod := WALLET_DERIVATION_BYTESTOKEY_SHA512
          nDeriveIterations := max nDeriveIterations 25000 }
      match w.reencrypt library nID kMasterKey vMasterKey strNewWalletPassphrase with
      | (w, false) => (w, false)
      | (w, true) => (if fWasLocked then w.lock else w, true)

def changeWalletPassphrase (w : CWallet) (strOldWalletPassphrase strNewWalletPassphrase : Bytes)
    (nDeriveIterations : ℕ) : CWallet × Bool :=
  w.lock.changePassphraseLoop library w.isLocked strOldWalletPassphrase strNewWalletPassphrase
    nDeriveIterations w.lock.mapMasterKeys.toList

/-! ### New keys -/

/-- The next index of the HD chain, in the wallet and its database. -/
def countHDKey (w : CWallet) : CWallet :=
  { w with
    nHDExternalIndex := w.nHDExternalIndex + 1
    db := { w.db with hdchain := some (w.nHDExternalIndex + 1) } }

/-- `GenerateNewKey`, where `MakeNewKey` makes the key `rand`; `none` where it throws. -/
def generateNewKey (w : CWallet) (rand : CKey) : CWallet × Option CPubKey :=
  if w.fHDEnabled && !w.isLocked then
    match w.hdMasterKey.bind
        (fun master => deriveHDChild library.toKeyLibrary master w.nHDExternalIndex) with
    | none => (w, none)
    | some key =>
      match w.addKey library key with
      | (w, false) => (w, none)
      | (w, true) =>
        ({ w.countHDKey with vGenerated := w.vGenerated ++ [key] },
          some (key.getPubKey library.toKeyLibrary))
  else
    match w.addKey library rand with
    | (w, false) => (w, none)
    | (w, true) =>
      ({ w with vGenerated := w.vGenerated ++ [rand] },
        some (rand.getPubKey library.toKeyLibrary))

/-- A new key at an index of the pool; false where it throws. -/
def addPoolKey (w : CWallet) (nIndex : ℕ) (rand : CKey) : CWallet × Bool :=
  match w.generateNewKey library rand with
  | (w, none) => (w, false)
  | (w, some vchPubKey) =>
    ({ w with
        setKeyPool := w.setKeyPool.insert nIndex
        db := { w.db with pool := w.db.pool.insert nIndex vchPubKey } }, true)

/-- The loop of `NewKeyPool`: `n` more keys, after the first `i`. -/
def newPoolLoop (rands : ℕ → CKey) : ℕ → ℕ → CWallet → CWallet × Bool
  | 0, _, w => (w, true)
  | n + 1, i, w =>
    match w.addPoolKey library (i + 1) (rands i) with
    | (w, false) => (w, false)
    | (w, true) => newPoolLoop rands n (i + 1) w

/-- `NewKeyPool` with `-keypool` as `nKeys`; false where it returns false or throws. -/
def newKeyPool (w : CWallet) (nKeys : ℕ) (rands : ℕ → CKey) : CWallet × Bool :=
  let w :=
    { w with
      db := { w.db with pool := w.db.pool.filter (fun nIndex _ => nIndex ∉ w.setKeyPool) }
      setKeyPool := ∅ }
  if w.isLocked then (w, false) else newPoolLoop library rands nKeys 0 w

/-- The index that `TopUpKeyPool` gives the next key. -/
def nEnd (w : CWallet) : ℕ :=
  match w.setKeyPool.toList.getLast? with
  | none => 1
  | some nLast => nLast + 1

/-- The loop of `TopUpKeyPool`, which runs as long as the pool has fewer than `nSize` keys. -/
def topUpLoop (rands : ℕ → CKey) (nSize : ℕ) : ℕ → ℕ → CWallet → CWallet × Bool
  | 0, _, w => (w, true)
  | n + 1, i, w =>
    if w.setKeyPool.size < nSize then
      match w.addPoolKey library w.nEnd (rands i) with
      | (w, false) => (w, false)
      | (w, true) => topUpLoop rands nSize n (i + 1) w
    else (w, true)

/-- The number of keys that `TopUpKeyPool` fills the pool to: `nTargetSize + 1` as an
`unsigned int`. -/
def topUpSize (nKeys : ℕ) : ℕ := (nKeys % 2 ^ 32 + 1) % 2 ^ 32

/-- `TopUpKeyPool` with `-keypool` as `nKeys`; false where it returns false or throws. -/
def topUpKeyPool (w : CWallet) (nKeys : ℕ) (rands : ℕ → CKey) : CWallet × Bool :=
  if w.isLocked then (w, false)
  else topUpLoop library rands (topUpSize nKeys) (topUpSize nKeys - w.setKeyPool.size) 0 w

/-- What `ReserveKeyFromKeyPool` returns: no key, the index and the public key it reserves, or an
exception. -/
inductive Reserved
  | empty
  | key (nIndex : ℕ) (vchPubKey : CPubKey)
  | exception
  deriving DecidableEq

/-- `ReserveKeyFromKeyPool` after the pool is topped up. -/
def takeKey (w : CWallet) : CWallet × Reserved :=
  match w.setKeyPool.toList.head? with
  | none => (w, .empty)
  | some nIndex =>
    let w := { w with setKeyPool := w.setKeyPool.erase nIndex }
    match w.db.pool[nIndex]? with
    | none => (w, .exception)
    | some vchPubKey =>
      if !w.haveKey (library.hash160 vchPubKey) then (w, .exception)
      else (w, .key nIndex vchPubKey)

def reserveKeyFromKeyPool (w : CWallet) (nKeys : ℕ) (rands : ℕ → CKey) : CWallet × Reserved :=
  if !w.isLocked then
    match w.topUpKeyPool library nKeys rands with
    | (w, false) => (w, .exception)
    | (w, true) => w.takeKey library
  else w.takeKey library

def keepKey (w : CWallet) (nIndex : ℕ) : CWallet :=
  { w with db := { w.db with pool := w.db.pool.erase nIndex } }

def returnKey (w : CWallet) (nIndex : ℕ) : CWallet :=
  { w with setKeyPool := w.setKeyPool.insert nIndex }

/-! ### Encryption -/

/-- One key of `EncryptKeys`. -/
def encryptKey (vMasterKeyIn : Bytes) (w : CWallet) (key : CKey) : Option CWallet :=
  let vchPubKey := key.getPubKey library.toKeyLibrary
  match encryptSecret library vMasterKeyIn key.getSecret (library.hash vchPubKey) with
  | none => none
  | some vchCryptedSecret =>
    match w.addCryptedKey library vchPubKey vchCryptedSecret with
    | (_, false) => none
    | (w, true) => some w

/-- `EncryptKeys`; `none` where it returns false. -/
def encryptKeys (w : CWallet) (vMasterKeyIn : Bytes) : Option CWallet :=
  if !w.mapCryptedKeys.isEmpty || w.fUseCrypto then none
  else do
    let w' ← (w.mapKeys.toList.map (·.2)).foldlM (encryptKey library vMasterKeyIn)
      { w with fUseCrypto := true }
    return { w' with mapKeys := ∅ }

/-- The random numbers of `EncryptWallet` and the number that the timing of the derivation gives. -/
structure EncryptInput where
  vMasterKey : Bytes
  vchSalt : Bytes
  length_vMasterKey : vMasterKey.length = WALLET_CRYPTO_KEY_SIZE
  length_vchSalt : vchSalt.length = WALLET_CRYPTO_SALT_SIZE
  nDeriveIterations : ℕ

/-- The record of the master key of `EncryptWallet`. -/
def addMasterKey (w : CWallet) (kMasterKey : CMasterKey) : CWallet :=
  { w with
    nMasterKeyMaxID := w.nMasterKeyMaxID + 1
    mapMasterKeys := w.mapMasterKeys.insert (w.nMasterKeyMaxID + 1) kMasterKey
    db := { w.db with mkey := w.db.mkey.insert (w.nMasterKeyMaxID + 1) kMasterKey } }

/-- The phrase of an HD wallet is encrypted; `none` where `EncryptWallet` exits. -/
def encryptHDSeed (w : CWallet) (vMasterKey : Bytes) : Option CWallet :=
  if w.fHDEnabled && !w.strHDMnemonic.isEmpty then
    match encryptSecret library vMasterKey w.strHDMnemonic (hdSeedIV w.hdSeedId) with
    | none => none
    | some ct =>
      some
        { w with
          vchCryptedHDMnemonic := ct
          db := { w.db with chdmnemonic := some ct, hdmnemonic := none } }
  else some w

/-- The part of `EncryptWallet` that encrypts the keys and the seed; `none` where it exits. -/
def encryptSecrets (w : CWallet) (strWalletPassphrase : Bytes) (input : EncryptInput) :
    Option CWallet := do
  let nDeriveIterations := max input.nDeriveIterations 25000
  let key ← setKeyFromPassphrase library strWalletPassphrase input.vchSalt nDeriveIterations
    WALLET_DERIVATION_BYTESTOKEY_SHA512
  let w := w.addMasterKey
    { vchCryptedKey := library.encrypt key input.vMasterKey
      vchSalt := input.vchSalt
      nDerivationMethod := WALLET_DERIVATION_BYTESTOKEY_SHA512
      nDeriveIterations := nDeriveIterations }
  let w ← w.encryptKeys library input.vMasterKey
  w.encryptHDSeed library input.vMasterKey

/-- The end of `EncryptWallet`: the pool is rebuilt with the wallet unlocked. -/
def rebuildPool (w : CWallet) (strWalletPassphrase : Bytes) (nKeys : ℕ) (rands : ℕ → CKey) :
    CWallet :=
  let w := (w.lock.unlock library strWalletPassphrase).1
  match w.newKeyPool library nKeys rands with
  | (w', true) => w'.lock
  -- with the wallet locked nothing was generated, otherwise an exception leaves it unlocked
  | (w', false) => if w.isLocked then w'.lock else w'

/-! ### Loading -/

/-- `LoadKey` -/
def loadKey (w : CWallet) (key : CKey) : CWallet :=
  if !w.fUseCrypto then
    { w with mapKeys := w.mapKeys.insert (key.getID library.toKeyLibrary) key }
  else
    { w with mapUnencryptedKeys := w.mapUnencryptedKeys.insert (key.getID library.toKeyLibrary) key }

/-- A record of a private key; `none` where the public key is not the one of the record. -/
def loadKeyRecord (w : CWallet) (record : CPubKey × ℕ) : Option CWallet :=
  let key : CKey := ⟨record.2, library.isPublicKey record.1 && record.1.length == 33⟩
  if key.getPubKey library.toKeyLibrary ≠ record.1 then none else some (w.loadKey library key)

/-- The plaintext keys that were loaded before the first crypted key are put aside. -/
def putAside (w : CWallet) : CWallet :=
  if !w.fUseCrypto && !w.mapKeys.isEmpty then
    { w with
      mapUnencryptedKeys := TreeMap.overlay w.mapUnencryptedKeys w.mapKeys
      mapKeys := ∅ }
  else w

/-- `LoadCryptedKey` -/
def loadCryptedKey (w : CWallet) (record : CPubKey × Bytes) : Option CWallet :=
  match w.putAside.addCryptedKeyToStore library record.1 record.2 with
  | (_, false) => none
  | (w, true) => some w

/-- The records about the HD seed. -/
def loadHD (w : CWallet) (db : WalletDB) : CWallet :=
  let w :=
    match db.hdchain with
    | none => w
    | some nExternalIndex => { w with nHDExternalIndex := nExternalIndex }
  let w :=
    match db.hdseedid with
    | none => w
    | some id => { w with hdSeedId := id, fHDEnabled := true }
  let w :=
    match db.hdmnemonic with
    | none => w
    | some mnemonic => w.loadHDMnemonic library mnemonic
  match db.chdmnemonic with
  | none => w
  | some vchCrypted => { w with vchCryptedHDMnemonic := vchCrypted, fHDEnabled := true }

/-- `LoadWallet` into a new wallet object, record by record in the order of the database; `none`
where the database is corrupt. -/
def load (db : WalletDB) : Option CWallet := do
  let w ← db.key.toList.foldlM (loadKeyRecord library) (new db)
  let w ← db.ckey.toList.foldlM (loadCryptedKey library) w
  let w :=
    { w with
      mapMasterKeys := db.mkey
      nMasterKeyMaxID := db.mkey.maxKey?.getD 0
      setKeyPool := ExtTreeSet.ofList db.pool.keys }
  let w ← db.wkey.toList.foldlM (loadKeyRecord library) w
  return loadHD library { w with vchDefaultKey := db.defaultkey } db

/-- The wallet after a restart; a wallet whose database is corrupt does not start. -/
def reload (w : CWallet) : CWallet :=
  match load library w.db with
  | none => w
  | some w' => { w' with vAdded := w.vAdded, vGenerated := w.vGenerated }

/-- `EncryptWallet` with `-keypool` as `nKeys`.  Where it exits, the wallet starts again from the
database as it was. -/
def encryptWallet (w : CWallet) (strWalletPassphrase : Bytes) (input : EncryptInput) (nKeys : ℕ)
    (rands : ℕ → CKey) : CWallet :=
  if w.fUseCrypto then w
  else
    match w.encryptSecrets library strWalletPassphrase input with
    | none => w.reload library
    | some w => w.rebuildPool library strWalletPassphrase nKeys rands

end CWallet

end CorgiCoin
