import CorgiCoin.SignatureHash

/-!
# Hierarchical keys and addresses

Keys as the daemon holds them, the derivation of the keys of an HD wallet from its seed, and the
base58 form of addresses.  The hash functions and the curve are parameters.
-/

namespace CorgiCoin

open Codec

/-- The functions that keys are made with. -/
structure KeyLibrary where
  hmacSha512 : Bytes → Bytes → Bytes
  length_hmacSha512 : ∀ key data, (hmacSha512 key data).length = 64
  /-- `Hash160`, RIPEMD-160 of SHA-256. -/
  hash160 : Bytes → uint160
  /-- The encoding, compressed or not, of the public key of a secret. -/
  publicKey : ℕ → Bool → Bytes

/-- The order of the group of secp256k1. -/
def SECP256K1_ORDER : ℕ := 0xFFFFFFFFFFFFFFFFFFFFFFFFFFFFFFFEBAAEDCE6AF48A03BBFD25E8CD0364141

/-- The bytes of a number on 32 bytes, most significant first. -/
def toBE32 (n : ℕ) : Bytes := (toLE 32 n).reverse

theorem length_toBE32 (n : ℕ) :
  (toBE32 n).length = 32
  := by
  rw [toBE32, List.length_reverse, length_toLE]

/-! ## Keys -/

/-- A private key: its secret, and whether its public key is written compressed. -/
structure CKey where
  secret : ℕ
  fCompressed : Bool
  deriving DecidableEq

namespace CKey

/-- `SetSecret` of 32 bytes. -/
def setSecret (vchSecret : Bytes) (fCompressed : Bool) : CKey := ⟨ofBE vchSecret, fCompressed⟩

def getSecret (key : CKey) : Bytes := toBE32 key.secret

def getPubKey (library : KeyLibrary) (key : CKey) : Bytes :=
  library.publicKey key.secret key.fCompressed

/-- `GetPubKey().GetID()` -/
def getID (library : KeyLibrary) (key : CKey) : uint160 := library.hash160 (key.getPubKey library)

end CKey

/-! ## Extended keys -/

def BIP32_HARDENED : UInt32 := 0x80000000

/-- The coin type of the wallet's keys. -/
def HD_COIN_TYPE : UInt32 := 99

def writeBE32 (x : UInt32) : Bytes :=
  [(x >>> 24).toUInt8, (x >>> 16).toUInt8, (x >>> 8).toUInt8, x.toUInt8]

/-- The key that the master key of a seed is hashed with, `Bitcoin seed`. -/
def hashkey : Bytes := [0x42, 0x69, 0x74, 0x63, 0x6f, 0x69, 0x6e, 0x20, 0x73, 0x65, 0x65, 0x64]

structure CExtKey where
  nDepth : UInt8
  vchFingerprint : Bytes
  nChild : UInt32
  vchChainCode : Bytes
  key : CKey
  deriving DecidableEq

namespace CExtKey

def setSeed (library : KeyLibrary) (seed : Bytes) : CExtKey :=
  let I := library.hmacSha512 hashkey seed
  { nDepth := 0
    vchFingerprint := [0, 0, 0, 0]
    nChild := 0
    vchChainCode := I.drop 32
    key := CKey.setSecret (I.take 32) true }

/-- `Derive`; `none` where it returns false. -/
def derive (library : KeyLibrary) (parent : CExtKey) (nChildIn : UInt32) : Option CExtKey :=
  let pubbytes := parent.key.getPubKey library
  let fHardened := nChildIn &&& BIP32_HARDENED != 0
  let parentSecret := parent.key.getSecret
  if !fHardened && pubbytes.length != 33 then none
  else
    let data := (if fHardened then 0 :: parentSecret else pubbytes) ++ writeBE32 nChildIn
    let I := library.hmacSha512 parent.vchChainCode data
    let il := ofBE (I.take 32)
    let kpar := ofBE parentSecret
    if il ≥ SECP256K1_ORDER then none
    else
      let child := (il + kpar) % SECP256K1_ORDER
      if child = 0 then none
      else
        some
          { nDepth := parent.nDepth + 1
            vchFingerprint := (serializeUint160 (library.hash160 pubbytes)).take 4
            nChild := nChildIn
            vchChainCode := I.drop 32
            key := CKey.setSecret (toBE32 child) true }

end CExtKey

/-- `DeriveHDChild`: the key at m/44'/99'/0'/0/nIndex. -/
def deriveHDChild (library : KeyLibrary) (master : CExtKey) (nIndex : UInt32) : Option CKey := do
  let a ← master.derive library (44 ||| BIP32_HARDENED)
  let b ← a.derive library (HD_COIN_TYPE ||| BIP32_HARDENED)
  let c ← b.derive library (0 ||| BIP32_HARDENED)
  let external ← c.derive library 0
  let child ← external.derive library nIndex
  return child.key

/-! ## Base58 -/

def pszBase58 : List Char := "123456789ABCDEFGHJKLMNPQRSTUVWXYZabcdefghijkmnopqrstuvwxyz".toList

/-- `CBigNum::setvch` -/
def setvch (vch : Bytes) : ℤ := mpi2bn vch.reverse

/-- The digit of a remainder. -/
def base58Char (rem : ℕ) : Char := pszBase58[rem]?.getD '1'

/-- The loop of `EncodeBase58` that writes the digits, least significant first. -/
def encodeBase58Loop (bn : ℕ) (str : List Char) : List Char :=
  if bn > 0 then encodeBase58Loop (bn / 58) (str ++ [base58Char (bn % 58)]) else str
termination_by bn
decreasing_by omega

def encodeBase58 (vch : Bytes) : List Char :=
  let bn := setvch (vch.reverse ++ [0])
  let str := encodeBase58Loop bn.toNat []
  (str ++ (vch.takeWhile (· == 0)).map (fun _ => base58Char 0)).reverse

def encodeBase58Check (crypto : Crypto) (vchIn : Bytes) : List Char :=
  encodeBase58 (vchIn ++ (serializeUint256 (crypto.hash vchIn)).take 4)

def PUBKEY_ADDRESS : UInt8 := 28
def PUBKEY_ADDRESS_TEST : UInt8 := 113

/-- `CBitcoinAddress(keyID).ToString()` -/
def addressOfKeyID (crypto : Crypto) (fTestNet : Bool) (keyID : uint160) : List Char :=
  encodeBase58Check crypto
    ((if fTestNet then PUBKEY_ADDRESS_TEST else PUBKEY_ADDRESS) :: serializeUint160 keyID)

/-! ## Numbers and bytes -/

theorem toBE32_ofBE {bs : Bytes} (h : bs.length = 32) : toBE32 (ofBE bs) = bs := by
  rw [toBE32, ofBE, ← h, ← List.length_reverse, toLE_ofLE, List.reverse_reverse]

theorem ofBE_toBE32 {n : ℕ} (h : n < 2 ^ 256) : ofBE (toBE32 n) = n := by
  rw [ofBE, toBE32, List.reverse_reverse, ofLE_toLE_of_lt (by omega)]

theorem setvch_reverse_append_zero (vch : Bytes) : setvch (vch.reverse ++ [0]) = ofBE vch := by
  have hzero : ofBE (0 :: vch) = ofBE vch := by
    rw [ofBE, List.reverse_cons, ofBE]
    induction vch.reverse with
    | nil => rfl
    | cons b bs ih => rw [List.cons_append, ofLE, ih, ofLE]
  rw [setvch, List.reverse_append, List.reverse_reverse, List.reverse_singleton,
    List.singleton_append, mpi2bn, if_neg (by decide), hzero]

end CorgiCoin
