import CorgiCoin.WalletKeys

/-!
# Setting the seed when a step fails

`SetHDSeedFromMnemonic` replaces the HD state of the wallet first and its records after that, one
by one.  Where one of the writes or the cipher fails it returns false, and what it has replaced so
far stays.
-/

namespace CorgiCoin

/-- Which of the steps of `SetHDSeedFromMnemonic` succeed: the writes to the database, and the
cipher.  A write that fails leaves its record as it was. -/
structure SeedSteps where
  writeHDSeedId : Bool
  writeHDChain : Bool
  encrypt : Bool
  writeCryptedHDMnemonic : Bool
  eraseHDMnemonic : Bool
  writeHDMnemonic : Bool

/-- Every step succeeds. -/
def SeedSteps.all : SeedSteps := ⟨true, true, true, true, true, true⟩

/-- The HD state of the wallet in memory. -/
structure HDState where
  hdMasterKey : Option CExtKey
  strHDMnemonic : Bytes
  hdSeedId : CKeyID
  fHDEnabled : Bool
  nHDExternalIndex : UInt32
  vchCryptedHDMnemonic : Bytes

/-- The records about the seed. -/
structure HDRecords where
  hdseedid : Option CKeyID
  hdchain : Option UInt32
  hdmnemonic : Option Bytes
  chdmnemonic : Option Bytes

def WalletDB.hdRecords (db : WalletDB) : HDRecords :=
  ⟨db.hdseedid, db.hdchain, db.hdmnemonic, db.chdmnemonic⟩

namespace CWallet

def hdState (w : CWallet) : HDState :=
  ⟨w.hdMasterKey, w.strHDMnemonic, w.hdSeedId, w.fHDEnabled, w.nHDExternalIndex,
    w.vchCryptedHDMnemonic⟩

variable (library : WalletLibrary) (fFileBacked : Bool) (steps : SeedSteps)

/-! ## The writes -/

def writeHDSeedId (w : CWallet) : CWallet :=
  { w with db := { w.db with hdseedid := some w.hdSeedId } }

def writeHDChain (w : CWallet) : CWallet :=
  { w with db := { w.db with hdchain := some w.nHDExternalIndex } }

def setCryptedPhrase (w : CWallet) (ct : Bytes) : CWallet := { w with vchCryptedHDMnemonic := ct }

def writeCryptedHDMnemonic (w : CWallet) : CWallet :=
  { w with db := { w.db with chdmnemonic := some w.vchCryptedHDMnemonic } }

def eraseHDMnemonic (w : CWallet) : CWallet := { w with db := { w.db with hdmnemonic := none } }

def writeHDMnemonic (w : CWallet) (mnemonic : Bytes) : CWallet :=
  { w with db := { w.db with hdmnemonic := some mnemonic } }

/-! ## The call -/

/-- `EncryptSecret` of the phrase; `none` where it returns false. -/
def encryptPhrase (w : CWallet) (mnemonic : Bytes) : Option Bytes :=
  if steps.encrypt then encryptSecret library w.vMasterKey mnemonic (hdSeedIV w.hdSeedId) else none

/-- The record of the phrase, encrypted if the wallet is. -/
def writePhrase (w : CWallet) (mnemonic : Bytes) : CWallet × Except String Unit :=
  if w.fUseCrypto then
    match w.encryptPhrase library steps mnemonic with
    | none => (w, .error "Failed to encrypt HD seed")
    | some ct =>
      if !steps.writeCryptedHDMnemonic then
        (w.setCryptedPhrase ct, .error "Failed to write encrypted HD seed")
      else
        let w := (w.setCryptedPhrase ct).writeCryptedHDMnemonic
        -- no plaintext phrase on disk; the result is not looked at
        (if steps.eraseHDMnemonic then w.eraseHDMnemonic else w, .ok ())
  else if !steps.writeHDMnemonic then (w, .error "Failed to write HD seed to wallet")
  else (w.writeHDMnemonic mnemonic, .ok ())

/-- The new seed in memory, with its counter. -/
def takeSeed (w : CWallet) (mnemonic : Bytes) : CWallet :=
  { w.loadHDMnemonic library mnemonic with nHDExternalIndex := 0 }

/-- The records of the new seed. -/
def writeSeed (w : CWallet) (mnemonic : Bytes) : CWallet × Except String Unit :=
  if !steps.writeHDSeedId then (w, .error "Failed to write HD seed to wallet")
  else if !steps.writeHDChain then (w.writeHDSeedId, .error "Failed to write HD seed to wallet")
  else w.writeHDSeedId.writeHDChain.writePhrase library steps mnemonic

/-- `SetHDSeedFromMnemonic`, with the error where it returns false. -/
def setHDSeedInSteps (w : CWallet) (mnemonic : Bytes) : CWallet × Except String Unit :=
  if !library.checkMnemonic mnemonic then
    (w, .error "Invalid BIP39 mnemonic (bad word or checksum)")
  else if w.fUseCrypto && w.isLocked then
    (w, .error "Wallet is locked; unlock it before setting an HD seed")
  else if !fFileBacked then (w.takeSeed library mnemonic, .ok ())
  else (w.takeSeed library mnemonic).writeSeed library steps mnemonic

/-! ## All or nothing -/

/-- The HD state and its records are the same, and so is what a restart loads. -/
def SeedKept (w w' : CWallet) : Prop :=
  w'.hdState = w.hdState ∧ w'.db.hdRecords = w.db.hdRecords ∧ load library w'.db = load library w.db

/-- Where the call returns false, the seed is the one before the call. -/
def SeedAllOrNothing (w : CWallet) (mnemonic : Bytes) : Prop :=
  ∀ strError, (w.setHDSeedInSteps library fFileBacked steps mnemonic).2 = .error strError →
    SeedKept library w (w.setHDSeedInSteps library fFileBacked steps mnemonic).1

/-- The call gets past its checks. -/
def TakesSeed (w : CWallet) (mnemonic : Bytes) : Prop :=
  library.checkMnemonic mnemonic = true ∧ (w.fUseCrypto && w.isLocked) = false

/-- The cipher encrypts the phrase. -/
def EncryptsPhrase (w : CWallet) : Prop :=
  steps.encrypt = true ∧ w.vMasterKey.length = WALLET_CRYPTO_KEY_SIZE

/-- One of the steps that the call takes fails. -/
def SeedStepFails (w : CWallet) : Prop :=
  steps.writeHDSeedId = false ∨ steps.writeHDChain = false
    ∨ if w.fUseCrypto then ¬w.EncryptsPhrase steps ∨ steps.writeCryptedHDMnemonic = false
      else steps.writeHDMnemonic = false

/-- The wallet has the seed already and no key was taken from it. -/
structure HasFreshSeed (w : CWallet) (mnemonic : Bytes) : Prop where
  hdMasterKey : w.hdMasterKey = some (hdMaster library mnemonic)
  strHDMnemonic : w.strHDMnemonic = mnemonic
  hdSeedId : w.hdSeedId = hdSeedOf library mnemonic
  fHDEnabled : w.fHDEnabled = true
  nHDExternalIndex : w.nHDExternalIndex = 0

/-- What the steps before the one that fails write is there already. -/
def HasWritten (w : CWallet) (mnemonic : Bytes) : Prop :=
  steps.writeHDSeedId = true →
    w.db.hdseedid = some (hdSeedOf library mnemonic) ∧
      (steps.writeHDChain = true →
        w.db.hdchain = some 0 ∧
          (w.fUseCrypto = true → w.EncryptsPhrase steps →
            w.vchCryptedHDMnemonic = library.encrypt
              (w.vMasterKey, serializeUint256 (hdSeedIV (hdSeedOf library mnemonic))) mnemonic))

variable {library fFileBacked steps} {w : CWallet} {mnemonic : Bytes}

theorem hdState_takeSeed :
  (w.takeSeed library mnemonic).hdState = w.hdState ↔ w.HasFreshSeed library mnemonic
  := by
  rw [hdState, hdState, HDState.mk.injEq]
  constructor
  · rintro ⟨hmaster, hphrase, hid, henabled, hindex, _⟩
    exact ⟨hmaster.symm, hphrase.symm, hid.symm, henabled.symm, hindex.symm⟩
  · intro h
    exact ⟨h.hdMasterKey.symm, h.strHDMnemonic.symm, h.hdSeedId.symm, h.fHDEnabled.symm,
      h.nHDExternalIndex.symm, rfl⟩

theorem hdState_crypted (ct : Bytes) :
  ((w.takeSeed library mnemonic).setCryptedPhrase ct).hdState = w.hdState
    ↔ w.HasFreshSeed library mnemonic ∧ w.vchCryptedHDMnemonic = ct
  := by
  rw [hdState, hdState, HDState.mk.injEq]
  constructor
  · rintro ⟨hmaster, hphrase, hid, henabled, hindex, hct⟩
    exact ⟨⟨hmaster.symm, hphrase.symm, hid.symm, henabled.symm, hindex.symm⟩, hct.symm⟩
  · rintro ⟨h, hct⟩
    exact ⟨h.hdMasterKey.symm, h.strHDMnemonic.symm, h.hdSeedId.symm, h.fHDEnabled.symm,
      h.nHDExternalIndex.symm, hct.symm⟩

/-- A restart loads the same when the records that may differ do not. -/
theorem seedKept_iff
    (w' : CWallet) (hdb : w'.db = { w.db with
      hdseedid := w'.db.hdseedid
      hdchain := w'.db.hdchain
      hdmnemonic := w'.db.hdmnemonic
      chdmnemonic := w'.db.chdmnemonic }) :
  SeedKept library w w' ↔ w'.hdState = w.hdState ∧ w'.db.hdRecords = w.db.hdRecords
  := by
  constructor
  · rintro ⟨hstate, hrecords, _⟩
    exact ⟨hstate, hrecords⟩
  · rintro ⟨hstate, hrecords⟩
    refine ⟨hstate, hrecords, ?_⟩
    rw [WalletDB.hdRecords, WalletDB.hdRecords, HDRecords.mk.injEq] at hrecords
    obtain ⟨hid, hchain, hphrase, hct⟩ := hrecords
    rw [hdb, hid, hchain, hphrase, hct]

/-! ### The exits -/

theorem seedKept_takeSeed :
  SeedKept library w (w.takeSeed library mnemonic) ↔ w.HasFreshSeed library mnemonic
  := by
  refine (seedKept_iff _ (by rfl)).trans ?_
  rw [hdState_takeSeed]
  apply and_iff_left
  rfl

theorem seedKept_writeHDSeedId :
  SeedKept library w (w.takeSeed library mnemonic).writeHDSeedId
    ↔ w.HasFreshSeed library mnemonic ∧ w.db.hdseedid = some (hdSeedOf library mnemonic)
  := by
  refine (seedKept_iff _ (by rfl)).trans (and_congr (@hdState_takeSeed library w mnemonic) ?_)
  rw [WalletDB.hdRecords, WalletDB.hdRecords, HDRecords.mk.injEq, eq_comm]
  apply and_iff_left ⟨rfl, rfl, rfl⟩

theorem hdRecords_written :
  (w.takeSeed library mnemonic).writeHDSeedId.writeHDChain.db.hdRecords = w.db.hdRecords
    ↔ w.db.hdseedid = some (hdSeedOf library mnemonic) ∧ w.db.hdchain = some 0
  := by
  rw [WalletDB.hdRecords, WalletDB.hdRecords, HDRecords.mk.injEq]
  constructor
  · rintro ⟨hid, hchain, _⟩
    exact ⟨hid.symm, hchain.symm⟩
  · rintro ⟨hid, hchain⟩
    exact ⟨hid.symm, hchain.symm, rfl, rfl⟩

theorem seedKept_written :
  SeedKept library w (w.takeSeed library mnemonic).writeHDSeedId.writeHDChain
    ↔ w.HasFreshSeed library mnemonic
      ∧ w.db.hdseedid = some (hdSeedOf library mnemonic) ∧ w.db.hdchain = some 0
  := (seedKept_iff _ (by rfl)).trans (and_congr (@hdState_takeSeed library w mnemonic) hdRecords_written)

theorem seedKept_crypted (ct : Bytes) :
  SeedKept library w
      ((w.takeSeed library mnemonic).writeHDSeedId.writeHDChain.setCryptedPhrase ct)
    ↔ (w.HasFreshSeed library mnemonic ∧ w.vchCryptedHDMnemonic = ct)
      ∧ w.db.hdseedid = some (hdSeedOf library mnemonic) ∧ w.db.hdchain = some 0
  := (seedKept_iff _ (by rfl)).trans (and_congr (hdState_crypted ct) hdRecords_written)

theorem forall_error_iff {w' : CWallet} {strError : String} {P : CWallet → Prop} :
  (∀ strError', (w', (Except.error strError : Except String Unit)).2 = .error strError' → P w')
    ↔ P w'
  := ⟨fun h => h strError rfl, fun h _ _ => h⟩

theorem encryptPhrase_of_encrypts (h : w.EncryptsPhrase steps) :
  (w.takeSeed library mnemonic).writeHDSeedId.writeHDChain.encryptPhrase library steps mnemonic
    = some (library.encrypt
      (w.vMasterKey, serializeUint256 (hdSeedIV (hdSeedOf library mnemonic))) mnemonic)
  := by
  rw [encryptPhrase, if_pos h.1, encryptSecret]
  apply if_neg (not_not_intro h.2)

theorem encryptPhrase_of_not_encrypts (h : ¬w.EncryptsPhrase steps) :
  (w.takeSeed library mnemonic).writeHDSeedId.writeHDChain.encryptPhrase library steps mnemonic
    = none
  := by
  rw [encryptPhrase]
  split_ifs with hencrypt
  · rw [encryptSecret]
    apply if_pos (fun hlength => h ⟨hencrypt, hlength⟩)
  · rfl

/-- The exits after the records of the fingerprint and the counter. -/
theorem writePhrase_kept_iff :
  (∀ strError, ((w.takeSeed library mnemonic).writeHDSeedId.writeHDChain.writePhrase library steps
        mnemonic).2 = .error strError →
      SeedKept library w ((w.takeSeed library mnemonic).writeHDSeedId.writeHDChain.writePhrase
        library steps mnemonic).1)
    ↔ ((if w.fUseCrypto then ¬w.EncryptsPhrase steps ∨ steps.writeCryptedHDMnemonic = false
          else steps.writeHDMnemonic = false) →
        w.HasFreshSeed library mnemonic ∧ w.db.hdseedid = some (hdSeedOf library mnemonic)
          ∧ w.db.hdchain = some 0
          ∧ (w.fUseCrypto = true → w.EncryptsPhrase steps →
            w.vchCryptedHDMnemonic = library.encrypt
              (w.vMasterKey, serializeUint256 (hdSeedIV (hdSeedOf library mnemonic))) mnemonic))
  := by
  have hcrypto : (w.takeSeed library mnemonic).writeHDSeedId.writeHDChain.fUseCrypto
      = w.fUseCrypto := rfl
  rw [writePhrase, hcrypto]
  cases w.fUseCrypto with
  | false =>
    cases steps.writeHDMnemonic with
    | false => simp [seedKept_written]
    | true => simp
  | true =>
    by_cases hencrypts : w.EncryptsPhrase steps
    · rw [encryptPhrase_of_encrypts hencrypts]
      cases steps.writeCryptedHDMnemonic with
      | false =>
        simp only [if_true, Bool.not_false, seedKept_crypted]
        grind
      | true => simp [hencrypts]
    · rw [encryptPhrase_of_not_encrypts hencrypts]
      simp [hencrypts, seedKept_written]

/-- The call is all or nothing exactly when it is refused by its checks, or takes no step that fails,
or the wallet had this seed already, with no key taken from it and with the records that the steps
before the failure write. -/
theorem seedAllOrNothing_iff
    (library : WalletLibrary) (fFileBacked : Bool) (steps : SeedSteps) (w : CWallet)
    (mnemonic : Bytes) :
  w.SeedAllOrNothing library fFileBacked steps mnemonic
    ↔ (w.TakesSeed library mnemonic → fFileBacked = true → w.SeedStepFails steps →
        w.HasFreshSeed library mnemonic ∧ w.HasWritten library steps mnemonic)
  := by
  rw [SeedAllOrNothing, setHDSeedInSteps, TakesSeed]
  split_ifs with hcheck hlocked hbacked
  · rw [forall_error_iff]
    apply iff_of_true ⟨rfl, rfl, rfl⟩
    rintro ⟨hmnemonic, _⟩
    rw [hmnemonic] at hcheck
    cases hcheck
  · rw [forall_error_iff]
    apply iff_of_true ⟨rfl, rfl, rfl⟩
    rintro ⟨_, hunlocked⟩
    rw [hunlocked] at hlocked
    cases hlocked
  · rw [Bool.not_eq_true'] at hbacked
    simp [hbacked]
  · rw [Bool.not_eq_true', Bool.not_eq_false] at hcheck hbacked
    rw [Bool.not_eq_true] at hlocked
    rw [forall_prop_of_true ⟨hcheck, hlocked⟩, forall_prop_of_true hbacked, writeSeed,
      SeedStepFails, HasWritten]
    cases steps.writeHDSeedId with
    | false => simp [seedKept_takeSeed]
    | true =>
      cases steps.writeHDChain with
      | false => simp [seedKept_writeHDSeedId]
      | true => simpa using writePhrase_kept_iff

/-- A new wallet takes a seed whose first record cannot be written: the seed stays in memory. -/
theorem not_seedAllOrNothing :
  ¬∀ (library : WalletLibrary) (fFileBacked : Bool) (steps : SeedSteps) (w : CWallet)
    (mnemonic : Bytes), w.SeedAllOrNothing library fFileBacked steps mnemonic
  := by
  intro h
  have hkept := h sampleWalletLibrary true ⟨false, true, true, true, true, true⟩
    (new WalletDB.empty) [1] "Failed to write HD seed to wallet" rfl
  have henabled := congrArg HDState.fHDEnabled hkept.1
  cases henabled

end CWallet

end CorgiCoin
