import CorgiCoin.Unlocking

/-!
# Setting the passphrase when a step fails

`ChangeWalletPassphrase` edits the record of the master key in place before the steps that may fail,
and does not look at whether the new record was written.  `EncryptWallet` puts the new record into
the wallet before it starts the transaction.  Where such a step fails, what was changed stays.
-/

namespace CorgiCoin

open Std Codec Transition TreeMap

/-- Which of the steps of `ChangeWalletPassphrase` succeed. -/
structure ChangeSteps where
  /-- Opening a record with the old passphrase in one of the ways of deriving a key. -/
  opens : ℕ → ℕ → Bool
  setKeyFromPassphrase : Bool
  /-- What a cipher that fails leaves of the ciphertext. -/
  encryptLeaves : Option Bytes
  writeMasterKey : Bool

/-- Every step succeeds. -/
def ChangeSteps.all : ChangeSteps := ⟨fun _ _ => true, true, none, true⟩

/-- The steps that encrypt the record with the new passphrase succeed. -/
def ChangeSteps.Reencrypts (steps : ChangeSteps) : Prop :=
  steps.setKeyFromPassphrase = true ∧ steps.encryptLeaves = none

/-- Which of the steps of `EncryptWallet` succeed.  Where `EncryptKeys` or the commit fails, the
program exits. -/
structure EncryptSteps where
  getRandBytes : Bool
  setKeyFromPassphrase : Bool
  encrypt : Bool
  txnBegin : Bool
  writeMasterKey : Bool
  encryptKeys : Bool
  encryptSeed : Bool
  writeCryptedHDMnemonic : Bool
  eraseHDMnemonic : Bool
  txnCommit : Bool

def EncryptSteps.all : EncryptSteps := ⟨true, true, true, true, true, true, true, true, true, true⟩

namespace CWallet

variable (library : WalletLibrary)

/-! ## Changing the passphrase -/

def setMasterKeyRecord (w : CWallet) (nID : ℕ) (kMasterKey : CMasterKey) : CWallet :=
  { w with mapMasterKeys := w.mapMasterKeys.insert nID kMasterKey }

/-- `WriteMasterKey` -/
def writeMasterKey (w : CWallet) (nID : ℕ) (kMasterKey : CMasterKey) : CWallet :=
  { w with db := { w.db with mkey := w.db.mkey.insert nID kMasterKey } }

/-- The record with the standard way of deriving a key; `nDeriveIterations` is the number that the
timing of the derivation gives. -/
def standard (kMasterKey : CMasterKey) (nDeriveIterations : ℕ) : CMasterKey :=
  { kMasterKey with
    nDerivationMethod := WALLET_DERIVATION_BYTESTOKEY_SHA512
    nDeriveIterations := max nDeriveIterations 25000 }

/-- The record after it is encrypted with the new passphrase, and whether it was. -/
def reencryptRecord (steps : ChangeSteps) (kMasterKey : CMasterKey)
    (vMasterKey strNewWalletPassphrase : Bytes) : CMasterKey × Bool :=
  match if steps.setKeyFromPassphrase then
      CorgiCoin.setKeyFromPassphrase library strNewWalletPassphrase kMasterKey.vchSalt
        kMasterKey.nDeriveIterations kMasterKey.nDerivationMethod
    else none with
  | none => (kMasterKey, false)
  | some key =>
    match steps.encryptLeaves with
    | some vchCryptedKey => ({ kMasterKey with vchCryptedKey := vchCryptedKey }, false)
    | none => ({ kMasterKey with vchCryptedKey := library.encrypt key vMasterKey }, true)

/-- The rest of `ChangeWalletPassphrase` after a record is opened. -/
def reencryptInSteps (steps : ChangeSteps) (w : CWallet) (fWasLocked : Bool) (nID : ℕ)
    (kMasterKey : CMasterKey) (vMasterKey strNewWalletPassphrase : Bytes) : CWallet × Bool :=
  match reencryptRecord library steps kMasterKey vMasterKey strNewWalletPassphrase with
  | (kMasterKey, false) => (w.setMasterKeyRecord nID kMasterKey, false)
  | (kMasterKey, true) =>
    let w := w.setMasterKeyRecord nID kMasterKey
    -- the result is not looked at
    let w := if steps.writeMasterKey then w.writeMasterKey nID kMasterKey else w
    (if fWasLocked then w.lock else w, true)

/-- The loop of `ChangeWalletPassphrase`.  Where opening a record in some way fails, the next way is
tried. -/
def changeLoopInSteps (steps : ChangeSteps) (w : CWallet) (fWasLocked : Bool)
    (strOldWalletPassphrase strNewWalletPassphrase : Bytes) (nDeriveIterations : ℕ) :
    List (ℕ × CMasterKey) → CWallet × Bool
  | [] => (w, false)
  | (nID, kMasterKey) :: kMasterKeys =>
    match w.unlockWithMethods library strOldWalletPassphrase kMasterKey
        ((methods kMasterKey).filter (steps.opens nID)) with
    | (w, none) =>
      changeLoopInSteps steps w fWasLocked strOldWalletPassphrase strNewWalletPassphrase
        nDeriveIterations kMasterKeys
    | (w, some vMasterKey) =>
      w.reencryptInSteps library steps fWasLocked nID (standard kMasterKey nDeriveIterations)
        vMasterKey strNewWalletPassphrase

/-- `ChangeWalletPassphrase` -/
def changeInSteps (steps : ChangeSteps) (w : CWallet)
    (strOldWalletPassphrase strNewWalletPassphrase : Bytes) (nDeriveIterations : ℕ) :
    CWallet × Bool :=
  w.lock.changeLoopInSteps library steps w.isLocked strOldWalletPassphrase strNewWalletPassphrase
    nDeriveIterations w.lock.mapMasterKeys.toList

/-! ## Encrypting the wallet -/

/-- How a call ends, with whether `pwalletdbEncryption` is set. -/
inductive Outcome where
  | returned (w : CWallet) (fHandle fOk : Bool)
  | exited

def putMasterKey (w : CWallet) (kMasterKey : CMasterKey) : CWallet :=
  { w with
    nMasterKeyMaxID := w.nMasterKeyMaxID + 1
    mapMasterKeys := w.mapMasterKeys.insert (w.nMasterKeyMaxID + 1) kMasterKey }

/-- The phrase of an HD wallet is encrypted; `none` where `EncryptWallet` exits. -/
def encryptSeedInSteps (steps : EncryptSteps) (w : CWallet) (vMasterKey : Bytes) : Option CWallet :=
  if w.fHDEnabled && !w.strHDMnemonic.isEmpty then
    match if steps.encryptSeed then
        encryptSecret library vMasterKey w.strHDMnemonic (hdSeedIV w.hdSeedId)
      else none with
    | none => none
    | some ct =>
      some
        { w with
          vchCryptedHDMnemonic := ct
          db := { w.db with
            chdmnemonic := if steps.writeCryptedHDMnemonic then some ct else w.db.chdmnemonic
            hdmnemonic := if steps.eraseHDMnemonic then none else w.db.hdmnemonic } }
  else some w

/-- What is done in the transaction; `none` where `EncryptWallet` exits. -/
def encryptInTxn (steps : EncryptSteps) (w : CWallet) (kMasterKey : CMasterKey) (vMasterKey : Bytes) :
    Option CWallet := do
  -- the result is not looked at
  let w := if steps.writeMasterKey then w.writeMasterKey w.nMasterKeyMaxID kMasterKey else w
  let w ← if steps.encryptKeys then w.encryptKeys library vMasterKey else none
  let w ← w.encryptSeedInSteps library steps vMasterKey
  if steps.txnCommit then some w else none

/-- `EncryptWallet` of a wallet with a file. -/
def encryptWalletInSteps (steps : EncryptSteps) (w : CWallet) (fHandle : Bool)
    (strWalletPassphrase : Bytes) (input : EncryptInput) (nKeys : ℕ) (rands : ℕ → CKey) : Outcome :=
  if w.fUseCrypto then .returned w fHandle false
  else if !steps.getRandBytes then .returned w fHandle false
  else
    let nDeriveIterations := max input.nDeriveIterations 25000
    match if steps.setKeyFromPassphrase then
        CorgiCoin.setKeyFromPassphrase library strWalletPassphrase input.vchSalt nDeriveIterations
          WALLET_DERIVATION_BYTESTOKEY_SHA512
      else none with
    | none => .returned w fHandle false
    | some key =>
      if !steps.encrypt then .returned w fHandle false
      else
        let kMasterKey :=
          { vchCryptedKey := library.encrypt key input.vMasterKey
            vchSalt := input.vchSalt
            nDerivationMethod := WALLET_DERIVATION_BYTESTOKEY_SHA512
            nDeriveIterations := nDeriveIterations }
        let w := w.putMasterKey kMasterKey
        if !steps.txnBegin then .returned w true false
        else
          match w.encryptInTxn library steps kMasterKey input.vMasterKey with
          | none => .exited
          | some w => .returned (w.rebuildPool library strWalletPassphrase nKeys rands) false true

/-! ## All or nothing -/

/-- The ids whose keys the wallet has at hand. -/
def usable (w : CWallet) : Set CKeyID :=
  fun id => (w.getKey library id KeyObject.reset).isSome = true

/-- Whether `AddKey` writes the key through `pwalletdbEncryption`, which is set or not.  `AddKey` of an
unencrypted wallet opens the database itself, and `AddCryptedKey` prefers the handle. -/
def addKeyThrough (w : CWallet) (fHandle : Bool) (key : CKey) : Bool :=
  let vchPubKey := key.getPubKey library.toKeyLibrary
  if !w.fUseCrypto then false
  else if w.isLocked then false
  else
    match encryptSecret library w.vMasterKey key.getSecret (library.hash vchPubKey) with
    | none => false
    | some vchCryptedSecret => (w.addCryptedKeyToStore library vchPubKey vchCryptedSecret).2 && fHandle

/-- Whatever the master key that it is unlocked with, `AddKey` opens the database itself. -/
def AddsKeysItself (w : CWallet) (fHandle : Bool) : Prop :=
  ∀ vMasterKey key, { w with vMasterKey }.addKeyThrough library fHandle key = false

/-- Nothing is different: the master keys and their records, the keys that are at hand, and the way in
which `AddKey` stores a key. -/
structure Unchanged (w w' : CWallet) (fHandle : Bool) : Prop where
  mapMasterKeys : w'.mapMasterKeys = w.mapMasterKeys
  mkey : w'.db.mkey = w.db.mkey
  usable : w'.usable library = w.usable library
  fUseCrypto : w'.fUseCrypto = w.fUseCrypto
  isLocked : w'.isLocked = w.isLocked
  addKey : w'.AddsKeysItself library fHandle

/-- A passphrase unlocks the wallet, and with it every key is read back. -/
structure Works (w w' : CWallet) (strWalletPassphrase : Bytes) : Prop where
  unlocks : w'.unlocks library strWalletPassphrase = true
  keys : ∀ key ∈ w.vAdded, Readable library (w'.lock.unlock library strWalletPassphrase).1
    (key.getID library.toKeyLibrary)

/-- Where `ChangeWalletPassphrase` returns true, the new passphrase works, now and after a restart;
where it returns false, nothing is different and the old one still unlocks the wallet. -/
def ChangeAllOrNothing (steps : ChangeSteps) (w : CWallet) (fHandle : Bool)
    (strOldWalletPassphrase strNewWalletPassphrase : Bytes) (nDeriveIterations : ℕ) : Prop :=
  let result := w.changeInSteps library steps strOldWalletPassphrase strNewWalletPassphrase
    nDeriveIterations
  if result.2 then
    Works library w result.1 strNewWalletPassphrase
      ∧ Works library w (result.1.reload library) strNewWalletPassphrase
  else
    Unchanged library w result.1 fHandle
      ∧ (w.unlocks library strOldWalletPassphrase = true →
        result.1.unlocks library strOldWalletPassphrase = true)

/-- Where `EncryptWallet` returns false, nothing is different. -/
def EncryptAllOrNothing (steps : EncryptSteps) (w : CWallet) (fHandle : Bool)
    (strWalletPassphrase : Bytes) (input : EncryptInput) (nKeys : ℕ) (rands : ℕ → CKey) : Prop :=
  ∀ w' fHandle',
    w.encryptWalletInSteps library steps fHandle strWalletPassphrase input nKeys rands
      = .returned w' fHandle' false →
    Unchanged library w w' fHandle'
      ∧ ∀ strOldWalletPassphrase, w.unlocks library strOldWalletPassphrase = true →
        w'.unlocks library strOldWalletPassphrase = true

/-! ### When a call is all or nothing -/

/-- The ways of deriving a key in which a record is opened. -/
def waysThatOpen (steps : ChangeSteps) (item : ℕ × CMasterKey) : List ℕ :=
  (methods item.2).filter (steps.opens item.1)

/-- The record that the old passphrase opens, with its master key. -/
def openedRecord (steps : ChangeSteps) (w : CWallet) (strOldWalletPassphrase : Bytes) :
    Option ((ℕ × CMasterKey) × Bytes) :=
  w.lock.openedFrom library strOldWalletPassphrase (waysThatOpen steps) w.mapMasterKeys.toList

/-- Locking the wallet does nothing: it is locked, or it cannot be. -/
def StaysAsLocked (w : CWallet) : Prop :=
  w.isLocked = true ∨ w.fUseCrypto = false ∧ w.mapKeys.isEmpty = false

/-- A stored record is opened by a passphrase to a master key, or to any where there are no keys. -/
def StoredOpens (w : CWallet) (strWalletPassphrase vMasterKey : Bytes) : Prop :=
  ∃ item ∈ w.db.mkey.toList, ∃ nMethod ∈ methods item.2, ∃ v,
    openMasterKey library strWalletPassphrase item.2 nMethod = some v
      ∧ (v = vMasterKey ∨ w.vAdded = [])

/-- A record is the one that a step that fails leaves. -/
def LeftBy (steps : ChangeSteps) (kMasterKey : CMasterKey) (nDeriveIterations : ℕ) : Prop :=
  kMasterKey.nDerivationMethod = WALLET_DERIVATION_BYTESTOKEY_SHA512
    ∧ kMasterKey.nDeriveIterations = max nDeriveIterations 25000
    ∧ (steps.setKeyFromPassphrase = true →
      ∀ vchCryptedKey ∈ steps.encryptLeaves, vchCryptedKey = kMasterKey.vchCryptedKey)

/-- No handle was left open before, or the wallet is not encrypted. -/
def HandleUnused (w : CWallet) (fHandle : Bool) : Prop := fHandle = true → w.fUseCrypto = false

/-- No record is opened, and the wallet is not unlocked; or the record is encrypted and written, or
need not be; or nothing of it is replaced before a step fails, and the wallet is not locked. -/
def ChangeCondition (steps : ChangeSteps) (w : CWallet) (fHandle : Bool)
    (strOldWalletPassphrase strNewWalletPassphrase : Bytes) (nDeriveIterations : ℕ) : Prop :=
  (w.openedRecord library steps strOldWalletPassphrase = none →
      w.HandleUnused fHandle ∧ w.StaysAsLocked)
    ∧ ∀ item vMasterKey,
      w.openedRecord library steps strOldWalletPassphrase = some (item, vMasterKey) →
        (steps.Reencrypts →
            steps.writeMasterKey = true ∨ w.StoredOpens library strNewWalletPassphrase vMasterKey)
          ∧ (¬steps.Reencrypts →
            fHandle = false ∧ w.fUseCrypto = true ∧ w.isLocked = false
              ∧ LeftBy steps item.2 nDeriveIterations)

/-- The call gets to the start of the transaction. -/
def StartsTxn (steps : EncryptSteps) (w : CWallet) : Prop :=
  w.fUseCrypto = false ∧ steps.getRandBytes = true ∧ steps.setKeyFromPassphrase = true
    ∧ steps.encrypt = true

/-- The record of the master key of `EncryptWallet`. -/
def encryptRecord (library : WalletLibrary) (strWalletPassphrase : Bytes) (input : EncryptInput) :
    CMasterKey where
  vchCryptedKey := library.encrypt (library.bytesToKeySHA512 strWalletPassphrase input.vchSalt
    (max input.nDeriveIterations 25000)) input.vMasterKey
  vchSalt := input.vchSalt
  nDerivationMethod := WALLET_DERIVATION_BYTESTOKEY_SHA512
  nDeriveIterations := max input.nDeriveIterations 25000

/-- The transaction is started, or the record that is put into the wallet was there, or the call returns
before and no handle is used that was left open earlier. -/
def EncryptCondition (steps : EncryptSteps) (w : CWallet) (fHandle : Bool) (strWalletPassphrase : Bytes)
    (input : EncryptInput) : Prop :=
  (w.StartsTxn steps → steps.txnBegin = true
      ∨ w.mapMasterKeys[w.nMasterKeyMaxID + 1]? = some (encryptRecord library strWalletPassphrase input))
    ∧ (¬w.StartsTxn steps → w.HandleUnused fHandle)

/-! ### What the wallet has at hand -/

variable {library} {w : CWallet} {M : Bytes}

/-- A key is written through a handle that was left open just when the wallet is encrypted. -/
theorem addsKeysItself_iff {fHandle : Bool} :
  w.AddsKeysItself library fHandle ↔ w.HandleUnused fHandle
  := by
  constructor
  · rintro h rfl
    by_contra hcrypto
    rw [Bool.not_eq_false] at hcrypto
    -- any key, once the wallet is unlocked with any master key
    have hkey := h (List.replicate WALLET_CRYPTO_KEY_SIZE 0) ⟨1, true⟩
    have hlocked : (List.replicate WALLET_CRYPTO_KEY_SIZE (0 : UInt8)).isEmpty = false := rfl
    have hlength : ¬(List.replicate WALLET_CRYPTO_KEY_SIZE (0 : UInt8)).length ≠ WALLET_CRYPTO_KEY_SIZE :=
      fun hne => hne List.length_replicate
    simp only [addKeyThrough, isLocked, hcrypto, hlocked, encryptSecret, if_neg hlength, addCryptedKeyToStore,
      setCrypted, if_true, Bool.not_true, Bool.and_false, Bool.false_eq_true, if_false, Bool.and_true,
      Bool.true_eq_false] at hkey
  · intro hunused vMasterKey key
    rw [addKeyThrough]
    dsimp only
    cases fHandle with
    | true =>
      rw [hunused rfl]
      rfl
    | false =>
      split_ifs
      · rfl
      · rfl
      · split
        · rfl
        · exact Bool.and_false _

theorem exists_of_getKey
    (h : Holding library M w) {id : CKeyID} (hget : id ∈ w.usable library) :
  ∃ key ∈ w.vAdded, id = key.getID library.toKeyLibrary
  := by
  obtain ⟨keyRead, hget⟩ := Option.isSome_iff_exists.mp hget
  rw [getKey] at hget
  cases hstore : w.getKeyFromStore library id KeyObject.reset with
  | some key =>
    rw [getKeyFromStore] at hstore
    split_ifs at hstore
    · obtain ⟨key', hkey, _⟩ := Option.map_eq_some_iff.mp hstore
      exact ⟨key', h.sound.memory.plain id key' hkey⟩
    · split at hstore
      · cases hstore
      · next vchPubKey vchCryptedSecret hentry =>
        obtain ⟨key', hkey, hid, _⟩ := h.sound.memory.crypted id _ _ hentry
        exact ⟨key', hkey, hid⟩
  | none =>
    rw [hstore] at hget
    dsimp only at hget
    split at hget
    · cases hget
    · next key hentry => exact ⟨key, h.sound.memory.leftover id key hentry⟩

theorem usable_eq (hlibrary : library.Lawful) (h : Holding library M w) (hlocked : w.isLocked = false) :
  w.usable library = fun id => ∃ key ∈ w.vAdded, id = key.getID library.toKeyLibrary
  := by
  funext id
  apply propext
  constructor
  · apply exists_of_getKey h
  · rintro ⟨key, hkey, rfl⟩
    obtain ⟨keyRead, _, _, hget, _⟩ :=
      getKey_of_sound hlibrary h.sound h.complete hlocked hkey KeyObject.reset
    exact Option.isSome_iff_exists.mpr ⟨keyRead, hget⟩

/-! ### Unlocking a wallet that holds its keys -/

theorem isLocked_lock (h : w.fUseCrypto = true) : w.lock.isLocked = true := by
  rw [lock_of_fUseCrypto h, isLocked, h]
  rfl

theorem fUseCrypto_of_isLocked (h : w.isLocked = true) : w.fUseCrypto = true :=
  (Bool.and_eq_true_iff.mp h).1

theorem mapCryptedKeys_lock (w : CWallet) : w.lock.mapCryptedKeys = w.mapCryptedKeys
  := by
  cases hcrypto : w.fUseCrypto with
  | true => rw [lock_of_fUseCrypto hcrypto]
  | false =>
    cases hkeys : w.mapKeys.isEmpty with
    | true => rw [lock_of_no_keys hcrypto hkeys]
    | false => rw [(lock_of_keys hcrypto hkeys).1]

/-- The passphrases that unlock a wallet open one of its master keys, to the one of its keys. -/
theorem unlocks_iff_opens
    (hlibrary : library.Lawful) (h : Holding library M w) (hlocked : w.lock.isLocked = true)
    {strWalletPassphrase : Bytes} :
  w.unlocks library strWalletPassphrase = true
    ↔ ∃ item ∈ w.mapMasterKeys.toList, ∃ nMethod ∈ methods item.2, ∃ v,
        openMasterKey library strWalletPassphrase item.2 nMethod = some v
          ∧ (v = M ∨ w.mapCryptedKeys = ∅)
  := by
  have haccepts := accepts_iff hlibrary h.lock (fUseCrypto_of_isLocked hlocked)
  rw [unlocks_iff hlocked, (sameMasterKeys_lock w).mapMasterKeys]
  simp only [haccepts, mapCryptedKeys_lock]

variable {strWalletPassphrase : Bytes}

/-- Once a passphrase has unlocked it, the wallet is not locked. -/
theorem isLocked_unlock
    (hlibrary : library.Lawful) (h : Holding library M w)
    (hunlocks : w.unlocks library strWalletPassphrase = true) :
  (w.lock.unlock library strWalletPassphrase).1.isLocked = false
  := by
  rw [unlocks, unlock] at hunlocks
  rw [unlock]
  split_ifs at hunlocks ⊢ with hlocked
  rw [Bool.not_eq_true', Bool.not_eq_false] at hlocked
  rw [unlockLoop_eq (setCrypted_lock w)] at hunlocks ⊢
  cases hopened : w.lock.openedFrom library strWalletPassphrase (fun item => methods item.2)
      w.lock.mapMasterKeys.toList with
  | none =>
    rw [hopened] at hunlocks
    cases hunlocks
  | some result =>
    obtain ⟨item, v⟩ := result
    obtain ⟨_, _, _, hopen, haccepts⟩ := openedFrom_eq_some hopened
    have hcrypto := fUseCrypto_of_isLocked hlocked
    have hv := (accepts_iff hlibrary h.lock hcrypto v).mp haccepts
    obtain ⟨hholding, _, hmaster, _⟩ :=
      holding_withMasterKey h.lock hcrypto (length_of_openMasterKey hopen) hv
    rw [Option.elim_some, (sameKeys_decryptHDSeed _ _).isLocked, isLocked_eq_false]
    intro _ hempty
    have hlength := hholding.sound.length
    rw [← hmaster, hempty] at hlength
    cases hlength

variable {w' : CWallet}

theorem works_of_unlocks
    (hlibrary : library.Lawful) (h : Holding library M w') (hsub : w.vAdded ⊆ w'.vAdded)
    (hunlocks : w'.unlocks library strWalletPassphrase = true) :
  Works library w w' strWalletPassphrase
  := by
  refine ⟨hunlocks, ?_⟩
  intro key hkey
  obtain ⟨M', hholding⟩ := holds_unlock hlibrary strWalletPassphrase ⟨M, h.lock⟩
  apply hholding.readable hlibrary (isLocked_unlock hlibrary h hunlocks)
  apply List.Subset.trans (onlyKeys_lock w').vAdded
    (subset_vAdded_unlock w'.lock strWalletPassphrase) (hsub hkey)

/-! ### A record that is opened -/

variable {v : Bytes} {kMasterKey : CMasterKey}

theorem length_vchSalt_of_openMasterKey
    {nMethod : ℕ} (h : openMasterKey library strWalletPassphrase kMasterKey nMethod = some v) :
  kMasterKey.vchSalt.length = WALLET_CRYPTO_SALT_SIZE
  := by
  simp only [openMasterKey, Option.bind_eq_bind, Option.bind_eq_some_iff] at h
  obtain ⟨key, hkey, _⟩ := h
  rw [setKeyFromPassphrase] at hkey
  split_ifs at hkey with hrounds <;> exact not_not.mp (not_or.mp hrounds).2

theorem setKeyFromPassphrase_standard
    (strWalletPassphrase : Bytes) {kMasterKey : CMasterKey} (nDeriveIterations : ℕ)
    (hsalt : kMasterKey.vchSalt.length = WALLET_CRYPTO_SALT_SIZE) :
  CorgiCoin.setKeyFromPassphrase library strWalletPassphrase
      (standard kMasterKey nDeriveIterations).vchSalt
      (standard kMasterKey nDeriveIterations).nDeriveIterations
      (standard kMasterKey nDeriveIterations).nDerivationMethod
    = some (library.bytesToKeySHA512 strWalletPassphrase kMasterKey.vchSalt
      (max nDeriveIterations 25000))
  := setKeyFromPassphrase_of_salt strWalletPassphrase nDeriveIterations hsalt

/-- What the old passphrase has unlocked. -/
structure OpenedAs (library : WalletLibrary) (w w₁ : CWallet) (v : Bytes) : Prop where
  holding : Holding library v w₁
  fUseCrypto : w₁.fUseCrypto = true
  isLocked : w₁.isLocked = false
  vAdded : ∀ key, key ∈ w₁.vAdded ↔ key ∈ w.vAdded
  same : SameMasterKeys w w₁

theorem openedAs_withMasterKey
    (hlibrary : library.Lawful) (h : Holding library M w)
    (hlength : v.length = WALLET_CRYPTO_KEY_SIZE) (haccepts : w.lock.accepts library v = true) :
  OpenedAs library w (w.lock.withMasterKey library v) v
  := by
  have hcrypto : w.lock.fUseCrypto = true := by
    rw [accepts, Bool.and_eq_true] at haccepts
    have hset := (setCrypted_maps w.lock).2.2.2.2.2.2 haccepts.1
    rwa [setCrypted_lock] at hset
  obtain ⟨hholding, huse, hmaster, hadded⟩ :=
    holding_withMasterKey h.lock hcrypto hlength ((accepts_iff hlibrary h.lock hcrypto v).mp haccepts)
  refine ⟨hholding, huse, ?_, ?_, (sameMasterKeys_lock w).trans (sameMasterKeys_withMasterKey _ v)⟩
  · rw [isLocked_eq_false]
    intro _ hempty
    rw [← hmaster, hempty] at hlength
    cases hlength
  · intro key
    rw [vAdded_lock] at hadded
    refine ⟨hadded key, ?_⟩
    intro hkey
    rw [← vAdded_lock] at hkey
    have hsub := (@onlyKeys_encryptLeftoverPlaintextKeys library
      { w.lock with vMasterKey := v }).vAdded
    apply hsub hkey

/-! ### The loop -/

theorem changeLoop_eq
    (steps : ChangeSteps) (hset : w.setCrypted.1 = w) (fWasLocked : Bool)
    (strOldWalletPassphrase strNewWalletPassphrase : Bytes) (nDeriveIterations : ℕ)
    (kMasterKeys : List (ℕ × CMasterKey)) :
  w.changeLoopInSteps library steps fWasLocked strOldWalletPassphrase strNewWalletPassphrase
      nDeriveIterations kMasterKeys
    = (w.openedFrom library strOldWalletPassphrase (waysThatOpen steps) kMasterKeys).elim (w, false)
      (fun result =>
        (w.withMasterKey library result.2).reencryptInSteps library steps fWasLocked result.1.1
          (standard result.1.2 nDeriveIterations) result.2 strNewWalletPassphrase)
  := by
  induction kMasterKeys with
  | nil => rfl
  | cons item kMasterKeys ih =>
    rw [changeLoopInSteps, unlockWithMethods_eq hset, openedFrom_cons, waysThatOpen]
    cases w.openedBy library strOldWalletPassphrase item.2
        ((methods item.2).filter (steps.opens item.1)) with
    | none => exact ih
    | some v => rfl

theorem changeInSteps_eq
    (steps : ChangeSteps) (strOldWalletPassphrase strNewWalletPassphrase : Bytes)
    (nDeriveIterations : ℕ) :
  w.changeInSteps library steps strOldWalletPassphrase strNewWalletPassphrase nDeriveIterations
    = (w.openedRecord library steps strOldWalletPassphrase).elim (w.lock, false)
      (fun result =>
        (w.lock.withMasterKey library result.2).reencryptInSteps library steps w.isLocked result.1.1
          (standard result.1.2 nDeriveIterations) result.2 strNewWalletPassphrase)
  := by
  rw [changeInSteps, changeLoop_eq steps (setCrypted_lock w), (sameMasterKeys_lock w).mapMasterKeys,
    openedRecord]

/-! ### No record is opened -/

theorem staysAsLocked_iff :
  w.StaysAsLocked ↔ w.lock.fUseCrypto = w.fUseCrypto ∧ w.lock.isLocked = w.isLocked
  := by
  cases hcrypto : w.fUseCrypto with
  | true =>
    rw [isLocked_lock hcrypto, lock_of_fUseCrypto hcrypto, StaysAsLocked, hcrypto]
    simp only [Bool.true_eq_false, false_and, or_false, true_and]
    apply eq_comm
  | false =>
    have hlocked : w.isLocked = false := by
      rw [isLocked, hcrypto, Bool.false_and]
    cases hkeys : w.mapKeys.isEmpty with
    | true =>
      rw [lock_of_no_keys hcrypto hkeys, StaysAsLocked, hcrypto, hlocked, hkeys]
      simp
    | false =>
      rw [(lock_of_keys hcrypto hkeys).1, StaysAsLocked, hcrypto, hlocked, hkeys]
      simp

theorem lock_of_staysAsLocked (h : w.StaysAsLocked) : w.lock = w
  := by
  rcases h with hlocked | ⟨hcrypto, hkeys⟩
  · have hempty : w.vMasterKey = [] :=
      List.isEmpty_iff.mp (Bool.and_eq_true_iff.mp hlocked).2
    rw [lock_of_fUseCrypto (fUseCrypto_of_isLocked hlocked), ← hempty]
  · apply (lock_of_keys hcrypto hkeys).1

variable {steps : ChangeSteps} {strOldWalletPassphrase : Bytes}

/-- Where no record is opened, the wallet is left locked. -/
theorem changeAllOrNothing_of_none
    (fHandle : Bool) (strNewWalletPassphrase : Bytes) (nDeriveIterations : ℕ)
    (hopened : w.openedRecord library steps strOldWalletPassphrase = none) :
  ChangeAllOrNothing library steps w fHandle strOldWalletPassphrase strNewWalletPassphrase
      nDeriveIterations
    ↔ w.HandleUnused fHandle ∧ w.StaysAsLocked
  := by
  rw [ChangeAllOrNothing, changeInSteps_eq, hopened, Option.elim_none]
  dsimp only
  rw [if_neg Bool.false_ne_true]
  constructor
  · rintro ⟨hunchanged, _⟩
    have hstays := staysAsLocked_iff.mpr ⟨hunchanged.fUseCrypto, hunchanged.isLocked⟩
    have hadd := hunchanged.addKey
    rw [lock_of_staysAsLocked hstays, addsKeysItself_iff] at hadd
    exact ⟨hadd, hstays⟩
  · rintro ⟨hhandle, hstays⟩
    rw [lock_of_staysAsLocked hstays]
    exact ⟨⟨rfl, rfl, rfl, rfl, rfl, addsKeysItself_iff.mpr hhandle⟩, id⟩

/-! ### A record is opened and a step fails -/

theorem reencryptRecord_of_not
    {steps : ChangeSteps} (hsteps : ¬steps.Reencrypts) {kMasterKey : CMasterKey}
    (nDeriveIterations : ℕ) (vMasterKey strNewWalletPassphrase : Bytes)
    (hsalt : kMasterKey.vchSalt.length = WALLET_CRYPTO_SALT_SIZE) :
  ∃ kLeft, reencryptRecord library steps (standard kMasterKey nDeriveIterations) vMasterKey
      strNewWalletPassphrase = (kLeft, false)
    ∧ (kLeft = kMasterKey ↔ LeftBy steps kMasterKey nDeriveIterations)
  := by
  obtain ⟨vchCryptedKey, vchSalt, nDerivationMethod, nIterations⟩ := kMasterKey
  rw [reencryptRecord, setKeyFromPassphrase_standard _ _ hsalt, LeftBy]
  cases hset : steps.setKeyFromPassphrase with
  | false =>
    refine ⟨_, rfl, ?_⟩
    simp only [standard, CMasterKey.mk.injEq, true_and, Bool.false_eq_true, false_implies, and_true]
    rw [eq_comm, @eq_comm _ (max _ _)]
  | true =>
    cases hleaves : steps.encryptLeaves with
    | none => exact absurd ⟨hset, hleaves⟩ hsteps
    | some vchLeft =>
      refine ⟨_, rfl, ?_⟩
      simp only [standard, CMasterKey.mk.injEq, true_and, Option.mem_def, Option.some.injEq,
        forall_eq', true_implies]
      rw [eq_comm (b := nDerivationMethod), eq_comm (b := nIterations)]
      tauto

theorem sameKeys_setMasterKeyRecord (w : CWallet) (nID : ℕ) (kMasterKey : CMasterKey) :
  SameKeys w (w.setMasterKeyRecord nID kMasterKey)
  := ⟨rfl, rfl, rfl, rfl, rfl, rfl, rfl, rfl, rfl⟩

variable {nID : ℕ}

theorem setMasterKeyRecord_self
    (h : w.mapMasterKeys[nID]? = some kMasterKey) :
  w.setMasterKeyRecord nID kMasterKey = w
  := by
  have hinsert : w.mapMasterKeys.insert nID kMasterKey = w.mapMasterKeys := by
    apply ExtTreeMap.ext_getElem?
    intro n
    rw [getElem?_insert_ite]
    split_ifs with heq
    · rw [← heq, h]
    · rfl
  rw [setMasterKeyRecord, hinsert]

variable {w₁ : CWallet}

/-- Once a record is opened, nothing is different only in a wallet that was not locked, with the
record as it was. -/
theorem unchanged_setMasterKeyRecord
    (hlibrary : library.Lawful) (h : Holding library M w) (hopened : OpenedAs library w w₁ v)
    (hget : w.mapMasterKeys[nID]? = some kMasterKey) (kLeft : CMasterKey) (fHandle : Bool) :
  Unchanged library w (w₁.setMasterKeyRecord nID kLeft) fHandle
    ↔ fHandle = false ∧ w.fUseCrypto = true ∧ w.isLocked = false ∧ kLeft = kMasterKey
  := by
  have hget₁ : w₁.mapMasterKeys[nID]? = some kMasterKey := by
    rw [hopened.same.mapMasterKeys, hget]
  constructor
  · intro hunchanged
    have hunused := addsKeysItself_iff.mp hunchanged.addKey
    have hhandle : fHandle = false := by
      rw [Bool.eq_false_iff]
      intro hhandle
      exact Bool.noConfusion ((hunused hhandle).symm.trans hopened.fUseCrypto)
    refine ⟨hhandle, hunchanged.fUseCrypto.symm.trans hopened.fUseCrypto,
      hunchanged.isLocked.symm.trans hopened.isLocked, ?_⟩
    have hsame : (w₁.mapMasterKeys.insert nID kLeft)[nID]? = w.mapMasterKeys[nID]? :=
      congrArg (fun m : ExtTreeMap ℕ CMasterKey => m[nID]?) hunchanged.mapMasterKeys
    rw [ExtTreeMap.getElem?_insert_self, hget] at hsame
    exact Option.some.inj hsame
  · rintro ⟨hhandle, hcrypto, hlocked, rfl⟩
    rw [setMasterKeyRecord_self hget₁]
    refine ⟨hopened.same.mapMasterKeys, hopened.same.mkey, ?_, hopened.fUseCrypto.trans hcrypto.symm,
      hopened.isLocked.trans hlocked.symm,
      addsKeysItself_iff.mpr (fun h => absurd (hhandle.symm.trans h) Bool.false_ne_true)⟩
    rw [usable_eq hlibrary hopened.holding hopened.isLocked, usable_eq hlibrary h hlocked]
    funext id
    simp only [hopened.vAdded]

/-- Where a step fails after a record is opened, the record may be left half edited, and the wallet
unlocked. -/
theorem changeAllOrNothing_of_not_reencrypts
    (hlibrary : library.Lawful) (h : Holding library M w)
    (fHandle : Bool) (strNewWalletPassphrase : Bytes) (nDeriveIterations : ℕ) {item : ℕ × CMasterKey}
    (hopened : w.openedRecord library steps strOldWalletPassphrase = some (item, v))
    (hsteps : ¬steps.Reencrypts) :
  ChangeAllOrNothing library steps w fHandle strOldWalletPassphrase strNewWalletPassphrase
      nDeriveIterations
    ↔ fHandle = false ∧ w.fUseCrypto = true ∧ w.isLocked = false
      ∧ LeftBy steps item.2 nDeriveIterations
  := by
  obtain ⟨nID, kMasterKey⟩ := item
  obtain ⟨hitem, nMethod, hmethod, hopen, haccepts⟩ := openedFrom_eq_some hopened
  have hget := ExtTreeMap.mem_toList_iff_getElem?_eq_some.mp hitem
  have hopenedAs := openedAs_withMasterKey hlibrary h (length_of_openMasterKey hopen) haccepts
  obtain ⟨kLeft, hrecord, hleft⟩ := @reencryptRecord_of_not library _ hsteps _ nDeriveIterations v
    strNewWalletPassphrase (length_vchSalt_of_openMasterKey hopen)
  have hunchanged := unchanged_setMasterKeyRecord hlibrary h hopenedAs hget kLeft fHandle
  rw [ChangeAllOrNothing, changeInSteps_eq, hopened, Option.elim_some]
  dsimp only
  rw [reencryptInSteps, hrecord]
  dsimp only
  rw [if_neg Bool.false_ne_true, hunchanged, hleft]
  constructor
  · rintro ⟨hfirst, _⟩
    exact hfirst
  · intro hfirst
    refine ⟨hfirst, ?_⟩
    intro _
    -- the record that was opened is still there
    obtain rfl := hleft.mpr hfirst.2.2.2
    have hget₁ := hget
    rw [← hopenedAs.same.mapMasterKeys] at hget₁
    rw [setMasterKeyRecord_self hget₁]
    apply (unlocks_iff_opens hlibrary hopenedAs.holding (isLocked_lock hopenedAs.fUseCrypto)).mpr
    rw [hopenedAs.same.mapMasterKeys]
    exact ⟨_, hitem, nMethod, (List.mem_filter.mp hmethod).1, v, hopen, .inl rfl⟩

/-! ### After a restart -/

theorem db_reload (hlibrary : library.Lawful) (h : Holding library M w) :
  (w.reload library).db = w.db
  := by
  obtain ⟨w', hload, _, hdb⟩ := load_spec hlibrary h.sound.length h.sound.valid h.sound.disk
    h.complete.records
  rw [reload, hload]
  exact hdb

/-- An encrypted wallet is one after a restart if it has keys. -/
theorem mapCryptedKeys_reload
    (hlibrary : library.Lawful) (h : Holding library M w)
    (hcrypted : ∀ key ∈ w.vAdded, key.getID library.toKeyLibrary ∈ w.mapCryptedKeys) :
  (w.reload library).mapCryptedKeys = ∅ ↔ w.vAdded = []
  := by
  have hreload := h.reload hlibrary
  constructor
  · intro hempty
    apply List.eq_nil_iff_forall_not_mem.mpr
    intro key hkey
    obtain ⟨⟨vchPubKey, vchCryptedSecret⟩, hget⟩ := Option.isSome_iff_exists.mp
      (ExtTreeMap.isSome_getElem?_iff_mem.mpr (hcrypted key hkey))
    have hckey := h.sound.crypted_disk _ _ _ hget
    rw [← db_reload hlibrary h] at hckey
    have hmem := hreload.sound.disk_crypted _ hckey
    rw [hempty] at hmem
    exact ExtTreeMap.not_mem_empty hmem
  · intro hnil
    apply ExtTreeMap.ext_getElem?
    intro id
    rw [ExtTreeMap.getElem?_empty]
    cases hget : (w.reload library).mapCryptedKeys[id]? with
    | none => rfl
    | some entry =>
      obtain ⟨key, hkey, _⟩ := hreload.sound.memory.crypted id entry.1 entry.2 hget
      rw [vAdded_reload, hnil] at hkey
      cases hkey

theorem isLocked_lock_reload
    (hlibrary : library.Lawful) (h : Holding library M w)
    (hcrypted : ∀ key ∈ w.vAdded, key.getID library.toKeyLibrary ∈ w.mapCryptedKeys) :
  (w.reload library).lock.isLocked = true
  := by
  cases hcrypto : (w.reload library).fUseCrypto with
  | true => exact isLocked_lock hcrypto
  | false =>
    have hsound := (h.reload hlibrary).sound
    have hnil : w.vAdded = [] :=
      (mapCryptedKeys_reload hlibrary h hcrypted).mp (hsound.memory.opened hcrypto).1
    have hkeys : (w.reload library).mapKeys.isEmpty = true := by
      rw [ExtTreeMap.isEmpty_iff]
      apply ExtTreeMap.ext_getElem?
      intro id
      rw [ExtTreeMap.getElem?_empty]
      cases hget : (w.reload library).mapKeys[id]? with
      | none => rfl
      | some key =>
        have hkey := (hsound.memory.plain id key hget).1
        rw [vAdded_reload, hnil] at hkey
        cases hkey
    rw [lock_of_no_keys hcrypto hkeys]
    rfl

/-! ### The passphrase is changed -/

/-- The record of a master key that a new passphrase opens. -/
def reencrypted (library : WalletLibrary) (kMasterKey : CMasterKey) (nDeriveIterations : ℕ)
    (vMasterKey strNewWalletPassphrase : Bytes) : CMasterKey :=
  { standard kMasterKey nDeriveIterations with
    vchCryptedKey := library.encrypt (library.bytesToKeySHA512 strNewWalletPassphrase
      kMasterKey.vchSalt (max nDeriveIterations 25000)) vMasterKey }

theorem mem_methods_reencrypted
    (kMasterKey : CMasterKey) (nDeriveIterations : ℕ) (vMasterKey strNewWalletPassphrase : Bytes) :
  WALLET_DERIVATION_BYTESTOKEY_SHA512
    ∈ methods (reencrypted library kMasterKey nDeriveIterations vMasterKey strNewWalletPassphrase)
  := by
  have hstandard : (reencrypted library kMasterKey nDeriveIterations vMasterKey
      strNewWalletPassphrase).nDerivationMethod = WALLET_DERIVATION_BYTESTOKEY_SHA512 := rfl
  rw [methods, if_pos hstandard]
  apply List.mem_cons_self

theorem reencryptRecord_of_reencrypts
    (hsteps : steps.Reencrypts) (nDeriveIterations : ℕ) (vMasterKey strNewWalletPassphrase : Bytes)
    (hsalt : kMasterKey.vchSalt.length = WALLET_CRYPTO_SALT_SIZE) :
  reencryptRecord library steps (standard kMasterKey nDeriveIterations) vMasterKey
      strNewWalletPassphrase
    = (reencrypted library kMasterKey nDeriveIterations vMasterKey strNewWalletPassphrase, true)
  := by
  rw [reencryptRecord, if_pos hsteps.1, setKeyFromPassphrase_standard _ _ hsalt]
  dsimp only
  rw [hsteps.2]
  rfl

theorem openMasterKey_reencrypted
    (hlibrary : library.Lawful) (nDeriveIterations : ℕ)
    {vMasterKey : Bytes} (strNewWalletPassphrase : Bytes)
    (hsalt : kMasterKey.vchSalt.length = WALLET_CRYPTO_SALT_SIZE)
    (hlength : vMasterKey.length = WALLET_CRYPTO_KEY_SIZE) :
  openMasterKey library strNewWalletPassphrase
      (reencrypted library kMasterKey nDeriveIterations vMasterKey strNewWalletPassphrase)
      WALLET_DERIVATION_BYTESTOKEY_SHA512
    = some vMasterKey
  := by
  have hkey := @setKeyFromPassphrase_standard library strNewWalletPassphrase _ nDeriveIterations hsalt
  rw [show (standard kMasterKey nDeriveIterations).nDerivationMethod
    = WALLET_DERIVATION_BYTESTOKEY_SHA512 from rfl] at hkey
  rw [openMasterKey, reencrypted]
  dsimp only
  simp only [hkey, Option.bind_eq_bind, Option.bind_some, hlibrary.decrypt_encrypt,
    if_neg (not_not_intro hlength)]

/-- A wallet with a record that a passphrase opens to the master key of its keys. -/
structure HasRecord (library : WalletLibrary) (w w' : CWallet) (v strWalletPassphrase : Bytes) :
    Prop where
  holding : Holding library v w'
  fUseCrypto : w'.fUseCrypto = true
  crypted : ∀ key ∈ w'.vAdded, key.getID library.toKeyLibrary ∈ w'.mapCryptedKeys
  vAdded : ∀ key, key ∈ w'.vAdded ↔ key ∈ w.vAdded
  opens : ∃ item ∈ w'.mapMasterKeys.toList, ∃ nMethod ∈ methods item.2,
    openMasterKey library strWalletPassphrase item.2 nMethod = some v

theorem HasRecord.works
    (hlibrary : library.Lawful) (h : HasRecord library w w' v strWalletPassphrase) :
  Works library w w' strWalletPassphrase
  := by
  apply works_of_unlocks hlibrary h.holding
  · intro key
    apply (h.vAdded key).mpr
  · apply (unlocks_iff_opens hlibrary h.holding (isLocked_lock h.fUseCrypto)).mpr
    obtain ⟨item, hitem, nMethod, hmethod, hopen⟩ := h.opens
    exact ⟨item, hitem, nMethod, hmethod, v, hopen, .inl rfl⟩

/-- After a restart it depends on the stored records. -/
theorem HasRecord.works_reload
    (hlibrary : library.Lawful) (h : HasRecord library w w' v strWalletPassphrase) :
  Works library w (w'.reload library) strWalletPassphrase
    ↔ w'.StoredOpens library strWalletPassphrase v
  := by
  have hreload := h.holding.reload hlibrary
  have hunlocks := @unlocks_iff_opens library _ v hlibrary hreload
    (isLocked_lock_reload hlibrary h.holding h.crypted) strWalletPassphrase
  rw [mapMasterKeys_reload hlibrary h.holding,
    mapCryptedKeys_reload hlibrary h.holding h.crypted] at hunlocks
  constructor
  · intro hworks
    apply hunlocks.mp hworks.unlocks
  · intro hstored
    apply works_of_unlocks hlibrary hreload _ (hunlocks.mpr hstored)
    intro key hkey
    rw [vAdded_reload]
    apply (h.vAdded key).mpr hkey

theorem sameKeys_writeMasterKey (w : CWallet) (nID : ℕ) (kMasterKey : CMasterKey) :
  SameKeys w (w.writeMasterKey nID kMasterKey)
  := ⟨rfl, rfl, rfl, rfl, rfl, rfl, rfl, rfl, rfl⟩

theorem OpenedAs.hasRecord
    (hlibrary : library.Lawful) (h : OpenedAs library w w₁ v) (hsame : SameKeys w₁ w')
    (hsalt : kMasterKey.vchSalt.length = WALLET_CRYPTO_SALT_SIZE) {nDeriveIterations : ℕ}
    {strNewWalletPassphrase : Bytes}
    (hmap : w'.mapMasterKeys = w.mapMasterKeys.insert nID
      (reencrypted library kMasterKey nDeriveIterations v strNewWalletPassphrase)) :
  HasRecord library w w' v strNewWalletPassphrase
  := by
  refine ⟨h.holding.of_same hsame, hsame.fUseCrypto.trans h.fUseCrypto, ?_, ?_, ?_⟩
  · rw [hsame.vAdded, hsame.mapCryptedKeys]
    exact h.holding.complete.unlocked h.fUseCrypto (isLocked_eq_false.mp h.isLocked h.fUseCrypto)
  · rw [hsame.vAdded]
    exact h.vAdded
  · refine ⟨(nID, _), ?_, WALLET_DERIVATION_BYTESTOKEY_SHA512,
      mem_methods_reencrypted kMasterKey nDeriveIterations v strNewWalletPassphrase,
      openMasterKey_reencrypted hlibrary nDeriveIterations strNewWalletPassphrase hsalt
        h.holding.sound.length⟩
    rw [hmap]
    exact ExtTreeMap.mem_toList_iff_getElem?_eq_some.mpr ExtTreeMap.getElem?_insert_self

theorem HasRecord.lock
    (h : HasRecord library w w' v strWalletPassphrase) :
  HasRecord library w w'.lock v strWalletPassphrase
  := by
  refine ⟨h.holding.lock, fUseCrypto_of_isLocked (isLocked_lock h.fUseCrypto), ?_, ?_, ?_⟩
  · rw [vAdded_lock, mapCryptedKeys_lock]
    exact h.crypted
  · rw [vAdded_lock]
    exact h.vAdded
  · rw [(sameMasterKeys_lock w').mapMasterKeys]
    exact h.opens

theorem storedOpens_congr {w'' : CWallet}
    (hmkey : w''.db.mkey = w'.db.mkey) (hadded : ∀ key, key ∈ w''.vAdded ↔ key ∈ w'.vAdded)
    :
  w''.StoredOpens library strWalletPassphrase v ↔ w'.StoredOpens library strWalletPassphrase v
  := by
  have hnil : w''.vAdded = [] ↔ w'.vAdded = [] := by
    simp only [List.eq_nil_iff_forall_not_mem, hadded]
  simp only [StoredOpens, hmkey, hnil]

/-- A record that is stored is one that opens. -/
theorem storedOpens_writeMasterKey
    (hlibrary : library.Lawful) (w : CWallet) (nID : ℕ)
    (nDeriveIterations : ℕ) (strNewWalletPassphrase : Bytes)
    (hsalt : kMasterKey.vchSalt.length = WALLET_CRYPTO_SALT_SIZE)
    (hlength : v.length = WALLET_CRYPTO_KEY_SIZE) :
  (w.writeMasterKey nID
    (reencrypted library kMasterKey nDeriveIterations v strNewWalletPassphrase)).StoredOpens library
      strNewWalletPassphrase v
  := ⟨(nID, _), ExtTreeMap.mem_toList_iff_getElem?_eq_some.mpr ExtTreeMap.getElem?_insert_self,
    WALLET_DERIVATION_BYTESTOKEY_SHA512,
    mem_methods_reencrypted kMasterKey nDeriveIterations v strNewWalletPassphrase, v,
    openMasterKey_reencrypted hlibrary nDeriveIterations strNewWalletPassphrase hsalt hlength,
    .inl rfl⟩

/-- The wallet with the new record, which is stored or not. -/
def putRecord (w : CWallet) (fWrite : Bool) (nID : ℕ) (kMasterKey : CMasterKey) : CWallet :=
  if fWrite then (w.setMasterKeyRecord nID kMasterKey).writeMasterKey nID kMasterKey
  else w.setMasterKeyRecord nID kMasterKey

theorem OpenedAs.putRecord
    (hlibrary : library.Lawful) (h : OpenedAs library w w₁ v)
    (fWrite : Bool) (nID : ℕ) (nDeriveIterations : ℕ) (strNewWalletPassphrase : Bytes)
    (hsalt : kMasterKey.vchSalt.length = WALLET_CRYPTO_SALT_SIZE) :
  HasRecord library w (w₁.putRecord fWrite nID
      (reencrypted library kMasterKey nDeriveIterations v strNewWalletPassphrase)) v
      strNewWalletPassphrase
    ∧ ((w₁.putRecord fWrite nID
        (reencrypted library kMasterKey nDeriveIterations v strNewWalletPassphrase)).StoredOpens
          library strNewWalletPassphrase v
      ↔ fWrite = true ∨ w.StoredOpens library strNewWalletPassphrase v)
  := by
  generalize hrecord : reencrypted library kMasterKey nDeriveIterations v strNewWalletPassphrase = k
  have hset := sameKeys_setMasterKeyRecord w₁ nID k
  have hmap : (w₁.setMasterKeyRecord nID k).mapMasterKeys = w.mapMasterKeys.insert nID
      (reencrypted library kMasterKey nDeriveIterations v strNewWalletPassphrase) := by
    rw [setMasterKeyRecord, h.same.mapMasterKeys, hrecord]
  cases fWrite with
  | true =>
    rw [CWallet.putRecord, if_pos rfl]
    have hwritten := hset.trans (sameKeys_writeMasterKey (w₁.setMasterKeyRecord nID k) nID k)
    refine ⟨h.hasRecord hlibrary hwritten hsalt hmap, iff_of_true ?_ (.inl rfl)⟩
    rw [← hrecord]
    apply storedOpens_writeMasterKey hlibrary _ nID nDeriveIterations strNewWalletPassphrase hsalt
      h.holding.sound.length
  | false =>
    rw [CWallet.putRecord, if_neg Bool.false_ne_true]
    refine ⟨h.hasRecord hlibrary hset hsalt hmap, ?_⟩
    have hsame : (w₁.setMasterKeyRecord nID k).StoredOpens library strNewWalletPassphrase v
        ↔ w.StoredOpens library strNewWalletPassphrase v :=
      storedOpens_congr h.same.mkey h.vAdded
    rw [hsame]
    simp

theorem reencryptInSteps_of_reencrypts
    (hsteps : steps.Reencrypts) (w : CWallet) (fWasLocked : Bool) (nID : ℕ)
    (nDeriveIterations : ℕ) (vMasterKey strNewWalletPassphrase : Bytes)
    (hsalt : kMasterKey.vchSalt.length = WALLET_CRYPTO_SALT_SIZE) :
  w.reencryptInSteps library steps fWasLocked nID (standard kMasterKey nDeriveIterations) vMasterKey
      strNewWalletPassphrase
    = (if fWasLocked then
        (w.putRecord steps.writeMasterKey nID
          (reencrypted library kMasterKey nDeriveIterations vMasterKey strNewWalletPassphrase)).lock
      else w.putRecord steps.writeMasterKey nID
        (reencrypted library kMasterKey nDeriveIterations vMasterKey strNewWalletPassphrase), true)
  := by
  rw [reencryptInSteps, reencryptRecord_of_reencrypts hsteps nDeriveIterations vMasterKey
    strNewWalletPassphrase hsalt]
  rfl

/-- Where the record is encrypted with the new passphrase, that passphrase works; after a restart
only if it was written, or some stored record already opens with it. -/
theorem changeAllOrNothing_of_reencrypts
    (hlibrary : library.Lawful) (h : Holding library M w)
    (fHandle : Bool) (strNewWalletPassphrase : Bytes) (nDeriveIterations : ℕ) {item : ℕ × CMasterKey}
    (hopened : w.openedRecord library steps strOldWalletPassphrase = some (item, v))
    (hsteps : steps.Reencrypts) :
  ChangeAllOrNothing library steps w fHandle strOldWalletPassphrase strNewWalletPassphrase
      nDeriveIterations
    ↔ steps.writeMasterKey = true ∨ w.StoredOpens library strNewWalletPassphrase v
  := by
  obtain ⟨_, nMethod, _, hopen, haccepts⟩ := openedFrom_eq_some hopened
  have hsalt := length_vchSalt_of_openMasterKey hopen
  have hopenedAs := openedAs_withMasterKey hlibrary h (length_of_openMasterKey hopen) haccepts
  obtain ⟨hhas, hstored⟩ := hopenedAs.putRecord hlibrary steps.writeMasterKey item.1
    nDeriveIterations strNewWalletPassphrase hsalt
  rw [ChangeAllOrNothing, changeInSteps_eq, hopened, Option.elim_some]
  dsimp only
  rw [reencryptInSteps_of_reencrypts hsteps _ _ _ _ _ _ hsalt]
  dsimp only
  rw [if_pos rfl, ← hstored]
  cases w.isLocked with
  | false =>
    rw [if_neg Bool.false_ne_true, hhas.works_reload hlibrary, and_iff_right (hhas.works hlibrary)]
  | true =>
    rw [if_pos rfl, hhas.lock.works_reload hlibrary, and_iff_right (hhas.lock.works hlibrary)]
    apply storedOpens_congr (sameMasterKeys_lock _).mkey
    intro key
    rw [vAdded_lock]

theorem changeAllOrNothing_iff
    (hlibrary : library.Lawful) (h : Holding library M w) (steps : ChangeSteps) (fHandle : Bool)
    (strOldWalletPassphrase strNewWalletPassphrase : Bytes) (nDeriveIterations : ℕ) :
  ChangeAllOrNothing library steps w fHandle strOldWalletPassphrase strNewWalletPassphrase
      nDeriveIterations
    ↔ w.ChangeCondition library steps fHandle strOldWalletPassphrase strNewWalletPassphrase
      nDeriveIterations
  := by
  rw [ChangeCondition]
  cases hopened : w.openedRecord library steps strOldWalletPassphrase with
  | none =>
    rw [changeAllOrNothing_of_none fHandle strNewWalletPassphrase nDeriveIterations hopened]
    simp
  | some result =>
    obtain ⟨item, v⟩ := result
    have hcondition : (∀ (item' : ℕ × CMasterKey) (v' : Bytes), some (item, v) = some (item', v') →
          (steps.Reencrypts → steps.writeMasterKey = true
              ∨ w.StoredOpens library strNewWalletPassphrase v')
            ∧ (¬steps.Reencrypts → fHandle = false ∧ w.fUseCrypto = true ∧ w.isLocked = false
              ∧ LeftBy steps item'.2 nDeriveIterations))
        ↔ (steps.Reencrypts → steps.writeMasterKey = true
              ∨ w.StoredOpens library strNewWalletPassphrase v)
            ∧ (¬steps.Reencrypts → fHandle = false ∧ w.fUseCrypto = true ∧ w.isLocked = false
              ∧ LeftBy steps item.2 nDeriveIterations) := by
      constructor
      · intro hall
        apply hall item v rfl
      · rintro hone item' v' heq
        cases heq
        exact hone
    rw [hcondition]
    rcases em steps.Reencrypts with hsteps | hsteps
    · rw [changeAllOrNothing_of_reencrypts hlibrary h fHandle strNewWalletPassphrase
        nDeriveIterations hopened hsteps]
      simp [hsteps]
    · rw [changeAllOrNothing_of_not_reencrypts hlibrary h fHandle strNewWalletPassphrase
        nDeriveIterations hopened hsteps]
      simp [hsteps]

/-! ### Encrypting the wallet -/

theorem encryptWalletInSteps_of_not_startsTxn
    {steps : EncryptSteps} (hsteps : ¬w.StartsTxn steps) (fHandle : Bool)
    (strWalletPassphrase : Bytes) (input : EncryptInput) (nKeys : ℕ) (rands : ℕ → CKey) :
  w.encryptWalletInSteps library steps fHandle strWalletPassphrase input nKeys rands
    = .returned w fHandle false
  := by
  rw [encryptWalletInSteps]
  cases hcrypto : w.fUseCrypto with
  | true => rfl
  | false =>
    cases hrand : steps.getRandBytes with
    | false => rfl
    | true =>
      cases hset : steps.setKeyFromPassphrase with
      | false => rfl
      | true =>
        cases hencrypt : steps.encrypt with
        | true => exact absurd ⟨hcrypto, hrand, hset, hencrypt⟩ hsteps
        | false =>
          simp only [Bool.false_eq_true, if_false, Bool.not_true, Bool.not_false, if_true]
          rw [setKeyFromPassphrase_of_salt _ _ input.length_vchSalt]

theorem encryptWalletInSteps_of_startsTxn
    {steps : EncryptSteps} (hsteps : w.StartsTxn steps) (fHandle : Bool)
    (strWalletPassphrase : Bytes) (input : EncryptInput) (nKeys : ℕ) (rands : ℕ → CKey) :
  w.encryptWalletInSteps library steps fHandle strWalletPassphrase input nKeys rands
    = if steps.txnBegin then
        ((w.putMasterKey (encryptRecord library strWalletPassphrase input)).encryptInTxn library steps
          (encryptRecord library strWalletPassphrase input) input.vMasterKey).elim .exited
          (fun w => .returned (w.rebuildPool library strWalletPassphrase nKeys rands) false true)
      else .returned (w.putMasterKey (encryptRecord library strWalletPassphrase input)) true false
  := by
  obtain ⟨hcrypto, hrand, hset, hencrypt⟩ := hsteps
  rw [encryptWalletInSteps, hcrypto, hrand, hset, hencrypt]
  simp only [Bool.false_eq_true, if_false, Bool.not_true, if_true]
  rw [setKeyFromPassphrase_of_salt _ _ input.length_vchSalt]
  dsimp only
  rw [encryptRecord]
  cases steps.txnBegin with
  | false => rfl
  | true =>
    simp only [Bool.not_true, Bool.false_eq_true, if_false, if_true]
    split
    · next hnone => rw [hnone, Option.elim_none]
    · next w' hsome => rw [hsome, Option.elim_some]

/-- Unlocking does not read the highest id. -/
theorem unlocks_maxID (w : CWallet) (nMasterKeyMaxID : ℕ) (strWalletPassphrase : Bytes) :
  { w with nMasterKeyMaxID }.unlocks library strWalletPassphrase = w.unlocks library strWalletPassphrase
  := by
  have hlock : { w with nMasterKeyMaxID }.lock = { w.lock with nMasterKeyMaxID } := by
    rw [lock, lock, setCrypted, setCrypted]
    split_ifs <;> rfl
  cases hlocked : w.lock.isLocked with
  | false =>
    have hlocked' : { w with nMasterKeyMaxID }.lock.isLocked = false := by
      rw [hlock]
      exact hlocked
    rw [unlocks, unlocks, unlock, unlock, hlocked, hlocked']
    rfl
  | true =>
    have hlocked' : { w with nMasterKeyMaxID }.lock.isLocked = true := by
      rw [hlock]
      exact hlocked
    have haccepts : ∀ v, { w.lock with nMasterKeyMaxID }.accepts library v = w.lock.accepts library v := by
      intro v
      rw [accepts, accepts, setCrypted, setCrypted]
      split_ifs <;> rfl
    rw [Bool.eq_iff_iff, unlocks_iff hlocked, unlocks_iff hlocked', hlock]
    simp only [haccepts]

/-- Where the record was there, putting it into a wallet that is not encrypted changes nothing. -/
theorem unchanged_putMasterKey
    (hcrypto : w.fUseCrypto = false)
    (hget : w.mapMasterKeys[w.nMasterKeyMaxID + 1]? = some kMasterKey) :
  Unchanged library w (w.putMasterKey kMasterKey) true
    ∧ ∀ strOldWalletPassphrase, w.unlocks library strOldWalletPassphrase = true →
      (w.putMasterKey kMasterKey).unlocks library strOldWalletPassphrase = true
  := by
  have hinsert : w.mapMasterKeys.insert (w.nMasterKeyMaxID + 1) kMasterKey = w.mapMasterKeys :=
    congrArg mapMasterKeys (setMasterKeyRecord_self hget)
  refine ⟨⟨hinsert, rfl, rfl, rfl, rfl, addsKeysItself_iff.mpr (fun _ => hcrypto)⟩, ?_⟩
  intro strOldWalletPassphrase hunlocks
  rw [putMasterKey, hinsert, ← hunlocks]
  exact unlocks_maxID w _ _

theorem encryptAllOrNothing_iff
    (w : CWallet) (steps : EncryptSteps) (fHandle : Bool) (strWalletPassphrase : Bytes)
    (input : EncryptInput) (nKeys : ℕ) (rands : ℕ → CKey) :
  EncryptAllOrNothing library steps w fHandle strWalletPassphrase input nKeys rands
    ↔ w.EncryptCondition library steps fHandle strWalletPassphrase input
  := by
  rw [EncryptAllOrNothing, EncryptCondition]
  rcases em (w.StartsTxn steps) with hsteps | hsteps
  · rw [encryptWalletInSteps_of_startsTxn hsteps]
    simp only [hsteps, true_implies, not_true_eq_false, false_implies, and_true]
    cases steps.txnBegin with
    | false =>
      simp only [Bool.false_eq_true, if_false, false_or]
      constructor
      · intro hall
        have hsame : w.mapMasterKeys.insert (w.nMasterKeyMaxID + 1)
            (encryptRecord library strWalletPassphrase input) = w.mapMasterKeys :=
          (hall _ _ rfl).1.mapMasterKeys
        rw [← hsame, ExtTreeMap.getElem?_insert_self]
      · intro hget w' fHandle' hreturned
        cases hreturned
        exact unchanged_putMasterKey hsteps.1 hget
    | true =>
      rw [if_pos rfl]
      apply iff_of_true _ (.inl rfl)
      intro w' fHandle' hreturned
      cases hrun : (w.putMasterKey (encryptRecord library strWalletPassphrase input)).encryptInTxn
          library steps (encryptRecord library strWalletPassphrase input) input.vMasterKey with
      | none =>
        rw [hrun] at hreturned
        cases hreturned
      | some w'' =>
        rw [hrun] at hreturned
        cases hreturned
  · rw [encryptWalletInSteps_of_not_startsTxn hsteps]
    simp only [hsteps, false_implies, not_false_eq_true, true_implies, true_and]
    constructor
    · intro hall
      exact addsKeysItself_iff.mp (hall w fHandle rfl).1.addKey
    · intro hhandle w' fHandle' hreturned
      cases hreturned
      exact ⟨⟨rfl, rfl, rfl, rfl, rfl, addsKeysItself_iff.mpr hhandle⟩, fun _ => id⟩

/-! ### The keys are held whatever fails -/

theorem holds_changeInSteps
    (hlibrary : library.Lawful) (h : Holds library w) (steps : ChangeSteps)
    (strOldWalletPassphrase strNewWalletPassphrase : Bytes) (nDeriveIterations : ℕ) :
  Holds library (w.changeInSteps library steps strOldWalletPassphrase strNewWalletPassphrase
    nDeriveIterations).1
  := by
  obtain ⟨M, h⟩ := h
  rw [changeInSteps_eq]
  cases hopened : w.openedRecord library steps strOldWalletPassphrase with
  | none => exact ⟨M, h.lock⟩
  | some result =>
    obtain ⟨item, v⟩ := result
    obtain ⟨_, nMethod, _, hopen, haccepts⟩ := openedFrom_eq_some hopened
    have hsalt := length_vchSalt_of_openMasterKey hopen
    have hopenedAs := openedAs_withMasterKey hlibrary h (length_of_openMasterKey hopen) haccepts
    rw [Option.elim_some]
    dsimp only
    rcases em steps.Reencrypts with hsteps | hsteps
    · have hhas := (hopenedAs.putRecord hlibrary steps.writeMasterKey item.1 nDeriveIterations
        strNewWalletPassphrase hsalt).1
      rw [reencryptInSteps_of_reencrypts hsteps _ _ _ _ _ _ hsalt]
      cases w.isLocked with
      | false => exact ⟨v, hhas.holding⟩
      | true => exact ⟨v, hhas.lock.holding⟩
    · obtain ⟨kLeft, hrecord, _⟩ := @reencryptRecord_of_not library _ hsteps _ nDeriveIterations v
        strNewWalletPassphrase hsalt
      rw [reencryptInSteps, hrecord]
      exact ⟨v, hopenedAs.holding.of_same (sameKeys_setMasterKeyRecord _ item.1 kLeft)⟩

theorem sameKeys_encryptSeedInSteps
    {steps : EncryptSteps} {vMasterKey : Bytes}
    (h : w.encryptSeedInSteps library steps vMasterKey = some w') :
  SameKeys w w'
  := by
  rw [encryptSeedInSteps] at h
  cases hseed : w.fHDEnabled && !w.strHDMnemonic.isEmpty with
  | true =>
    rw [hseed, if_pos rfl] at h
    split at h
    · cases h
    · cases h
      exact ⟨rfl, rfl, rfl, rfl, rfl, rfl, rfl, rfl, rfl⟩
  | false =>
    rw [hseed, if_neg Bool.false_ne_true] at h
    cases h
    apply SameKeys.refl

theorem holding_encryptInTxn
    (h : Holding library M w) (hcrypto : w.fUseCrypto = false) {steps : EncryptSteps}
    (hlength : v.length = WALLET_CRYPTO_KEY_SIZE)
    (hrun : w.encryptInTxn library steps kMasterKey v = some w') :
  Holding library v w'
  := by
  rw [encryptInTxn] at hrun
  generalize hwritten : (if steps.writeMasterKey then w.writeMasterKey w.nMasterKeyMaxID kMasterKey
    else w) = w₁ at hrun
  have hsame : SameKeys w w₁ := by
    rw [← hwritten]
    cases steps.writeMasterKey with
    | false => apply SameKeys.refl
    | true => apply sameKeys_writeMasterKey
  obtain ⟨w₂, hkeys, hholding, _⟩ := encryptKeys_spec (h.of_same hsame)
    (hsame.fUseCrypto.trans hcrypto) hlength
  rw [hkeys] at hrun
  cases hencrypt : steps.encryptKeys with
  | false =>
    rw [hencrypt, if_neg Bool.false_ne_true] at hrun
    cases hrun
  | true =>
    rw [hencrypt, if_pos rfl] at hrun
    simp only [Option.bind_eq_bind, Option.bind_some, Option.bind_eq_some_iff] at hrun
    obtain ⟨w₃, hseed, hcommit⟩ := hrun
    split_ifs at hcommit
    cases hcommit
    exact hholding.of_same (sameKeys_encryptSeedInSteps hseed)

theorem holds_encryptWalletInSteps
    (hlibrary : library.Lawful) (h : Holds library w) (steps : EncryptSteps) (fHandle : Bool)
    (strWalletPassphrase : Bytes) (input : EncryptInput) (nKeys : ℕ) {rands : ℕ → CKey}
    (hrands : ∀ i, (rands i).Valid) {fHandle' fOk : Bool}
    (hreturned : w.encryptWalletInSteps library steps fHandle strWalletPassphrase input nKeys rands
      = .returned w' fHandle' fOk) :
  Holds library w'
  := by
  obtain ⟨M, h⟩ := h
  rcases em (w.StartsTxn steps) with hsteps | hsteps
  · have hput : SameKeys w (w.putMasterKey (encryptRecord library strWalletPassphrase input)) :=
      ⟨rfl, rfl, rfl, rfl, rfl, rfl, rfl, rfl, rfl⟩
    rw [encryptWalletInSteps_of_startsTxn hsteps] at hreturned
    split_ifs at hreturned
    · cases hrun : (w.putMasterKey (encryptRecord library strWalletPassphrase input)).encryptInTxn
          library steps (encryptRecord library strWalletPassphrase input) input.vMasterKey with
      | none =>
        rw [hrun] at hreturned
        cases hreturned
      | some w₁ =>
        rw [hrun] at hreturned
        cases hreturned
        have hholding := holding_encryptInTxn (h.of_same hput) (hput.fUseCrypto.trans hsteps.1)
          input.length_vMasterKey hrun
        apply holds_rebuildPool hlibrary strWalletPassphrase nKeys hrands ⟨_, hholding⟩
    · cases hreturned
      exact ⟨M, h.of_same hput⟩
  · rw [encryptWalletInSteps_of_not_startsTxn hsteps] at hreturned
    cases hreturned
    exact ⟨M, h⟩

/-- The wallets that the calls lead to from a database that is in order, where the steps of changing
the passphrase and of encrypting the wallet may fail. -/
inductive Reached (library : WalletLibrary) : CWallet → Prop
  | start {M : Bytes} {held : List CKey} {db : WalletDB} {w : CWallet}
      (hdb : Records library M held db) (hstart : start library held db = some w) :
    Reached library w
  | call {w : CWallet} (call : Call) (h : Reached library w) : Reached library (step library w call)
  | change {w : CWallet} (steps : ChangeSteps)
      (strOldWalletPassphrase strNewWalletPassphrase : Bytes) (nDeriveIterations : ℕ)
      (h : Reached library w) :
    Reached library (w.changeInSteps library steps strOldWalletPassphrase strNewWalletPassphrase
      nDeriveIterations).1
  | encrypt {w w' : CWallet} (steps : EncryptSteps) (fHandle : Bool) (strWalletPassphrase : Bytes)
      (input : EncryptInput) (nKeys : ℕ) (rands : ℕ → ValidKey) {fHandle' fOk : Bool}
      (h : Reached library w)
      (hreturned : w.encryptWalletInSteps library steps fHandle strWalletPassphrase input nKeys
        (fun i => rands i) = .returned w' fHandle' fOk) :
    Reached library w'

theorem holds_of_reached (hlibrary : library.Lawful) (h : Reached library w) : Holds library w
  := by
  induction h with
  | start hdb hstart =>
    obtain ⟨w, hstart', hholding, _⟩ := hdb.start hlibrary
    cases hstart.symm.trans hstart'
    exact ⟨_, hholding⟩
  | call call _ ih => exact holds_step hlibrary call ih
  | change steps strOldWalletPassphrase strNewWalletPassphrase nDeriveIterations _ ih =>
    apply holds_changeInSteps hlibrary ih
  | encrypt steps fHandle strWalletPassphrase input nKeys rands _ hreturned ih =>
    exact holds_encryptWalletInSteps hlibrary ih steps fHandle strWalletPassphrase input nKeys
      (fun i => (rands i).2) hreturned

/-- When changing the passphrase and encrypting the wallet are all or nothing. -/
theorem allOrNothing_iff (hlibrary : library.Lawful) (h : Reached library w) (fHandle : Bool) :
  (∀ (steps : ChangeSteps) (strOldWalletPassphrase strNewWalletPassphrase : Bytes)
      (nDeriveIterations : ℕ),
      ChangeAllOrNothing library steps w fHandle strOldWalletPassphrase strNewWalletPassphrase
          nDeriveIterations
        ↔ w.ChangeCondition library steps fHandle strOldWalletPassphrase strNewWalletPassphrase
          nDeriveIterations)
    ∧ ∀ (steps : EncryptSteps) (strWalletPassphrase : Bytes) (input : EncryptInput) (nKeys : ℕ)
      (rands : ℕ → CKey),
      EncryptAllOrNothing library steps w fHandle strWalletPassphrase input nKeys rands
        ↔ w.EncryptCondition library steps fHandle strWalletPassphrase input
  := by
  obtain ⟨M, hholding⟩ := holds_of_reached hlibrary h
  constructor
  · intro steps strOldWalletPassphrase strNewWalletPassphrase nDeriveIterations
    apply changeAllOrNothing_iff hlibrary hholding
  · intro steps strWalletPassphrase input nKeys rands
    apply encryptAllOrNothing_iff

/-- Where every step succeeds, the passphrase of a wallet is changed. -/
theorem allOrNothing_iff_sample :
  ∃ w, start sampleWalletLibrary sampleWalletKeys sampleWalletDB = some w
    ∧ ChangeAllOrNothing sampleWalletLibrary .all w false [1] [2] 0
  := by
  obtain ⟨w, hstart, _⟩ := records_sampleWalletDB.start lawful_sampleWalletLibrary
  have hiff := (allOrNothing_iff lawful_sampleWalletLibrary
    (.start records_sampleWalletDB hstart) false).1
  refine ⟨w, hstart, (hiff .all [1] [2] 0).mpr ⟨?_, ?_⟩⟩
  · have hopened : (start sampleWalletLibrary sampleWalletKeys sampleWalletDB).map
        (fun w => (w.openedRecord sampleWalletLibrary .all [1]).isSome) = some true := by
      decide
    rw [hstart, Option.map_some, Option.some.injEq] at hopened
    intro hnone
    rw [hnone] at hopened
    cases hopened
  · intro item vMasterKey _
    refine ⟨fun _ => .inl rfl, ?_⟩
    intro hsteps
    exact absurd ⟨rfl, rfl⟩ hsteps

/-- Where the new record is not written, the call returns true, and after a restart the new
passphrase does not unlock the wallet. -/
theorem not_allOrNothing :
  ∃ w, start sampleWalletLibrary sampleWalletKeys sampleWalletDB = some w
    ∧ ¬ChangeAllOrNothing sampleWalletLibrary { ChangeSteps.all with writeMasterKey := false } w false
      [1] [2] 0
  := by
  obtain ⟨w, hstart, _⟩ := records_sampleWalletDB.start lawful_sampleWalletLibrary
  refine ⟨w, hstart, ?_⟩
  have hresult : (start sampleWalletLibrary sampleWalletKeys sampleWalletDB).map
      (fun w =>
        let result := w.changeInSteps sampleWalletLibrary
          { ChangeSteps.all with writeMasterKey := false } [1] [2] 0
        (result.2, (result.1.reload sampleWalletLibrary).unlocks sampleWalletLibrary [2]))
      = some (true, false) := by
    decide
  rw [hstart, Option.map_some, Option.some.injEq, Prod.mk.injEq] at hresult
  obtain ⟨htrue, hlocked⟩ := hresult
  rw [ChangeAllOrNothing]
  dsimp only
  rw [htrue, if_pos rfl]
  rintro ⟨_, hworks⟩
  cases hlocked.symm.trans hworks.unlocks

end CWallet

end CorgiCoin
