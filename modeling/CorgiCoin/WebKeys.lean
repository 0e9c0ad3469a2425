import CorgiCoin.HDKey
import CorgiCoin.WebWallet
import Mathlib.Data.Nat.Bitwise
import Mathlib.Data.Nat.Digits.Lemmas

/-!
# Keys of the web wallet

The web wallet derives keys and addresses from a seed on its own.  Wherever the daemon derives a
key, the web wallet derives the same one, with the same public key and the same address.
-/

namespace CorgiCoin.WebWallet

open Codec Hex

/-! ## Numbers -/

def HARDENED : ℕ := 0x80000000

def hard (n : ℕ) : ℕ := n + HARDENED

def be32 (n : ℕ) : Bytes :=
  [UInt8.ofNat ((toUint32 n >>> 24) &&& 255), UInt8.ofNat ((toUint32 n >>> 16) &&& 255),
    UInt8.ofNat ((toUint32 n >>> 8) &&& 255), UInt8.ofNat (toUint32 n &&& 255)]

/-- `BigInt("0x" + text)` -/
def ofHexText (text : List Char) : ℕ := text.foldl (fun x c => 16 * x + hexValue c) 0

/-- `n.toString(16)` -/
def toHexText (n : ℕ) : List Char :=
  if n = 0 then ['0'] else (Nat.digits 16 n).reverse.map hexDigit

def padStart (length : ℕ) (c : Char) (text : List Char) : List Char :=
  List.replicate (length - text.length) c ++ text

def bnTo32 (bn : ℕ) : Bytes := fromHex (padStart 64 '0' (toHexText bn))

/-! ## Base58 -/

/-- The loop of `base58encode` that writes the digits. -/
def base58Loop (x : ℕ) (out : List Char) : List Char :=
  if x > 0 then base58Loop (x / 58) (base58Char (x % 58) :: out) else out
termination_by x
decreasing_by omega

/-- The loop of `base58encode` over the bytes, up to the first that is not zero. -/
def leadingOnes : Bytes → List Char → List Char
  | [], out => out
  | b :: bytes, out => if b = 0 then leadingOnes bytes ('1' :: out) else out

def base58encode (bytes : Bytes) : List Char :=
  let text := toHex bytes
  let x := ofHexText (if text.isEmpty then ['0'] else text)
  leadingOnes bytes (base58Loop x [])

def base58check (crypto : Crypto) (version : UInt8) (payload : Bytes) : List Char :=
  let data := [version] ++ payload
  base58encode (data ++ (serializeUint256 (crypto.hash data)).take 4)

/-! ## Derivation -/

structure Node where
  key : Bytes
  chainCode : Bytes

section Derivation

variable (library : KeyLibrary)

/-- `secp.getPublicKey` of a private key, compressed; `none` where it throws. -/
def getPublicKey (privateKey : Bytes) : Option Bytes :=
  if 0 < ofBE privateKey ∧ ofBE privateKey < SECP256K1_ORDER then
    some (library.publicKey (ofBE privateKey) true)
  else none

def masterFromSeed (seed : Bytes) : Node :=
  let I := library.hmacSha512 hashkey seed
  ⟨I.take 32, I.drop 32⟩

/-- The bytes that `ckdPriv` hashes. -/
def ckdData (node : Node) (index : ℕ) : Option Bytes :=
  if index ≥ HARDENED then some ([0] ++ node.key ++ be32 index)
  else (getPublicKey library node.key).map (· ++ be32 index)

def ckdPriv (node : Node) (index : ℕ) : Option Node := do
  let kpar := ofHexText (toHex node.key)
  let data ← ckdData library node index
  let I := library.hmacSha512 node.chainCode data
  let il := ofHexText (toHex (I.take 32))
  let childKey := (il + kpar) % SECP256K1_ORDER
  return ⟨bnTo32 childKey, I.drop 32⟩

def derivePath (seed : Bytes) (path : List ℕ) : Option Node :=
  path.foldlM (ckdPriv library) (masterFromSeed library seed)

/-- What `deriveAddress` returns. -/
structure Derived where
  index : ℕ
  address : List Char
  privKey : Bytes
  pubKey : Bytes

/-- `NETWORKS[net].pubkey` -/
def pubkeyVersion (fTestNet : Bool) : UInt8 := if fTestNet then 113 else 28

def deriveAddress (crypto : Crypto) (seed : Bytes) (i : ℕ) (fTestNet : Bool) : Option Derived := do
  let node ← derivePath library seed [hard 44, hard 99, hard 0, 0, i]
  let pub ← getPublicKey library node.key
  let address :=
    base58check crypto (pubkeyVersion fTestNet) (serializeUint160 (library.hash160 pub))
  return ⟨i, address, node.key, pub⟩

end Derivation

/-! ## The numbers agree -/

theorem ofBE_cons (b : UInt8) (bytes : Bytes) :
  ofBE (b :: bytes) = 256 ^ bytes.length * b.toNat + ofBE bytes
  := by
  have happend : ∀ bs : Bytes, ofLE (bs ++ [b]) = ofLE bs + 256 ^ bs.length * b.toNat := by
    intro bs
    induction bs with
    | nil => simp [ofLE]
    | cons c bs ih =>
      rw [List.cons_append, ofLE, ih, ofLE, List.length_cons, pow_succ]
      ring
  rw [ofBE, List.reverse_cons, happend, List.length_reverse, Nat.add_comm]
  rfl

theorem foldl_toHex (bytes : Bytes) (x : ℕ) :
  (toHex bytes).foldl (fun x c => 16 * x + hexValue c) x = 256 ^ bytes.length * x + ofBE bytes
  := by
  induction bytes generalizing x with
  | nil => simp [toHex, ofBE, ofLE]
  | cons b bytes ih =>
    have hlt := b.toNat_lt
    rw [toHex_cons, List.foldl_cons, List.foldl_cons, ih, hexValue_hexDigit _ (by omega),
      hexValue_hexDigit _ (by omega), ofBE_cons, List.length_cons, pow_succ]
    have hbyte : 16 * (16 * x + b.toNat / 16) + b.toNat % 16 = 256 * x + b.toNat := by omega
    rw [hbyte]
    ring

theorem ofHexText_toHex (bytes : Bytes) : ofHexText (toHex bytes) = ofBE bytes := by
  rw [ofHexText, foldl_toHex, Nat.mul_zero, Nat.zero_add]

theorem hexValue_lt (c : Char) : hexValue c < 16 := by
  have hnine : ∀ c : Char, '0' ≤ c ∧ c ≤ '9' → c.toNat - 48 < 16 := by
    intro c h
    have hle : c.toNat ≤ 57 := h.2
    omega
  have hlower : ∀ c : Char, 'a' ≤ c ∧ c ≤ 'f' → c.toNat - 87 < 16 := by
    intro c h
    have hle : c.toNat ≤ 102 := h.2
    omega
  have hupper : ∀ c : Char, 'A' ≤ c ∧ c ≤ 'F' → c.toNat - 55 < 16 := by
    intro c h
    have hle : c.toNat ≤ 70 := h.2
    omega
  rw [hexValue]
  split_ifs with h1 h2 h3
  · apply hnine c h1
  · apply hlower c h2
  · apply hupper c h3
  · decide

theorem length_fromHex
    {k : ℕ} {text : List Char} (h : text.length = 2 * k) :
  (fromHex text).length = k
  := by
  induction k generalizing text with
  | zero =>
    obtain rfl := List.length_eq_zero_iff.mp h
    rfl
  | succ k ih =>
    match text, h with
    | a :: b :: rest, h =>
      rw [fromHex, List.length_cons, ih]
      simp only [List.length_cons] at h
      omega

/-- Reading the bytes of a text and reading the number of it agree. -/
theorem ofBE_fromHex
    {k : ℕ} {text : List Char} (h : text.length = 2 * k) (x : ℕ) :
  text.foldl (fun x c => 16 * x + hexValue c) x = 256 ^ k * x + ofBE (fromHex text)
  := by
  induction k generalizing text x with
  | zero =>
    obtain rfl := List.length_eq_zero_iff.mp h
    simp [fromHex, ofBE, ofLE]
  | succ k ih =>
    obtain ⟨a, text, rfl⟩ := List.exists_cons_of_length_pos (by omega : 0 < text.length)
    rw [List.length_cons] at h
    obtain ⟨b, rest, rfl⟩ := List.exists_cons_of_length_pos (by omega : 0 < text.length)
    rw [List.length_cons] at h
    have hrest : rest.length = 2 * k := by omega
    have ha := hexValue_lt a
    have hb := hexValue_lt b
    have hbyte : (UInt8.ofNat (16 * hexValue a + hexValue b)).toNat
        = 16 * hexValue a + hexValue b := by
      rw [UInt8.toNat_ofNat', Nat.mod_eq_of_lt (by omega)]
    rw [List.foldl_cons, List.foldl_cons, ih hrest, fromHex, ofBE_cons, hbyte,
      length_fromHex hrest, pow_succ]
    ring

theorem ofHexText_toHexText (n : ℕ) : ofHexText (toHexText n) = n := by
  rw [toHexText]
  split_ifs with hzero
  · rw [hzero]
    rfl
  · have hmap : (Nat.digits 16 n).foldr (fun d x => 16 * x + hexValue (hexDigit d)) 0
        = (Nat.digits 16 n).foldr (fun d x => d + 16 * x) 0 := by
      apply List.foldr_ext
      intro d hmem x
      rw [hexValue_hexDigit d (Nat.digits_lt_base (by decide) hmem), Nat.add_comm]
    rw [ofHexText, List.foldl_map, List.foldl_reverse, hmap]
    conv_rhs => rw [← Nat.ofDigits_digits 16 n, Nat.ofDigits_eq_foldr]
    rfl

theorem bnTo32_eq {n : ℕ} (h : n < 2 ^ 256) : bnTo32 n = toBE32 n := by
  have hlength : (toHexText n).length ≤ 64 := by
    rw [toHexText]
    split_ifs
    · decide
    · rw [List.length_map, List.length_reverse]
      apply (Nat.digits_length_le_iff (by decide) n).mpr
      omega
  have hpadded : (padStart 64 '0' (toHexText n)).length = 2 * 32 := by
    rw [padStart, List.length_append, List.length_replicate]
    omega
  have hzeros : ∀ k, (List.replicate k '0').foldl (fun x c => 16 * x + hexValue c) 0 = 0 := by
    intro k
    induction k with
    | zero => rfl
    | succ k ih => rw [List.replicate_succ, List.foldl_cons]; exact ih
  have hvalue : ofBE (fromHex (padStart 64 '0' (toHexText n))) = n := by
    have hfold := ofBE_fromHex hpadded 0
    rw [padStart, List.foldl_append, hzeros, Nat.mul_zero, Nat.zero_add] at hfold
    rw [padStart, ← hfold]
    apply ofHexText_toHexText
  rw [bnTo32, ← toBE32_ofBE (length_fromHex hpadded), hvalue]

theorem be32_eq {n : ℕ} (h : n < 2 ^ 32) : be32 n = writeBE32 (UInt32.ofNat n) := by
  have hbyte : ∀ k, UInt8.ofNat ((n >>> k) &&& 255) = UInt8.ofNat (n >>> k) := by
    intro k
    apply UInt8.toNat_inj.mp
    rw [UInt8.toNat_ofNat', UInt8.toNat_ofNat', show 255 = 2 ^ 8 - 1 by rfl,
      Nat.and_two_pow_sub_one_eq_mod, Nat.mod_mod]
  have hword : ∀ k : UInt32, k.toNat < 32 →
      UInt8.ofNat (n >>> k.toNat) = (UInt32.ofNat n >>> k).toUInt8 := by
    intro k hk
    apply UInt8.toNat_inj.mp
    rw [UInt8.toNat_ofNat', UInt32.toNat_toUInt8, UInt32.toNat_shiftRight, UInt32.toNat_ofNat',
      Nat.mod_eq_of_lt h, Nat.mod_eq_of_lt hk]
  have hlast : UInt8.ofNat (n &&& 255) = (UInt32.ofNat n).toUInt8 := by
    apply UInt8.toNat_inj.mp
    rw [UInt8.toNat_ofNat', UInt32.toNat_toUInt8, UInt32.toNat_ofNat', Nat.mod_eq_of_lt h,
      show 255 = 2 ^ 8 - 1 by rfl, Nat.and_two_pow_sub_one_eq_mod, Nat.mod_mod]
  rw [be32, toUint32_natCast h, hbyte, hbyte, hbyte, writeBE32, hlast]
  rw [← hword 24 (by decide), ← hword 16 (by decide), ← hword 8 (by decide)]
  rfl

/-- The hardened indices are those from `HARDENED` on. -/
theorem hardened_iff
    {n : ℕ} (h : n < 2 ^ 32) :
  (UInt32.ofNat n &&& BIP32_HARDENED != 0) = true ↔ n ≥ HARDENED
  := by
  have hand : (UInt32.ofNat n &&& BIP32_HARDENED).toNat = 2 ^ 31 * (n / 2 ^ 31 % 2) := by
    rw [UInt32.toNat_and, UInt32.toNat_ofNat', Nat.mod_eq_of_lt h]
    have hbit : BIP32_HARDENED.toNat = 2 ^ 31 := by decide
    rw [hbit, Nat.and_two_pow, Nat.toNat_testBit, Nat.mul_comm]
  have hzero : UInt32.ofNat n &&& BIP32_HARDENED = 0 ↔ n < 2 ^ 31 := by
    rw [← UInt32.toNat_inj, hand]
    have h0 : (0 : UInt32).toNat = 0 := rfl
    rw [h0]
    omega
  rw [bne_iff_ne, ne_eq, hzero, HARDENED]
  omega

/-! ## The texts agree -/

theorem base58Loop_eq (x : ℕ) (out : List Char) :
  base58Loop x out = (encodeBase58Loop x []).reverse ++ out
  := by
  have hstr : ∀ x str, encodeBase58Loop x str = str ++ encodeBase58Loop x [] := by
    intro x
    induction x using Nat.strong_induction_on with
    | h x ih =>
      intro str
      rw [encodeBase58Loop, encodeBase58Loop.eq_1 x []]
      split_ifs with hpos
      · rw [ih (x / 58) (by omega), ih (x / 58) (by omega) ([] ++ _), List.append_assoc,
          List.nil_append]
      · rw [List.append_nil]
  induction x using Nat.strong_induction_on generalizing out with
  | h x ih =>
    rw [base58Loop, encodeBase58Loop]
    split_ifs with hpos
    · rw [ih (x / 58) (by omega), hstr (x / 58) ([] ++ _), List.nil_append, List.reverse_append,
        List.append_assoc, List.reverse_singleton, List.singleton_append]
    · rfl

theorem leadingOnes_eq (bytes : Bytes) (out : List Char) :
  leadingOnes bytes out = ((bytes.takeWhile (· == 0)).map (fun _ => base58Char 0)).reverse ++ out
  := by
  induction bytes generalizing out with
  | nil => rfl
  | cons b bytes ih =>
    rw [leadingOnes, List.takeWhile_cons]
    by_cases hb : b = 0
    · rw [if_pos hb, ih, if_pos (by simp [hb]), List.map_cons, List.reverse_cons,
        List.append_assoc]
      rfl
    · rw [if_neg hb, if_neg (by simp [hb])]
      rfl

theorem base58encode_eq (bytes : Bytes) : base58encode bytes = encodeBase58 bytes := by
  have hvalue : ofHexText (if (toHex bytes).isEmpty then ['0'] else toHex bytes) = ofBE bytes := by
    split_ifs with hempty
    · have hnil : bytes = [] := by
        cases bytes with
        | nil => rfl
        | cons b bytes => simp [toHex] at hempty
      rw [hnil]
      rfl
    · apply ofHexText_toHex
  rw [base58encode, hvalue, leadingOnes_eq, base58Loop_eq, encodeBase58,
    setvch_reverse_append_zero, List.reverse_append, Int.toNat_natCast, List.append_nil]

/-! ## The derivations agree -/

section Agreement

variable {library : KeyLibrary}

/-- A node of the web wallet and an extended key of the daemon hold the same key. -/
structure Agrees (node : Node) (ext : CExtKey) : Prop where
  key : node.key = ext.key.getSecret
  chainCode : node.chainCode = ext.vchChainCode
  compressed : ext.key.fCompressed = true
  secret_lt : ext.key.secret < 2 ^ 256

/-- A secret that the curve has a public key for. -/
def ValidSecret (secret : ℕ) : Prop := 0 < secret ∧ secret < SECP256K1_ORDER

theorem order_lt : SECP256K1_ORDER < 2 ^ 256 := by decide

theorem Agrees.ofBE_key {node : Node} {ext : CExtKey} (h : Agrees node ext) :
  ofBE node.key = ext.key.secret
  := by
  rw [h.key, CKey.getSecret, ofBE_toBE32 h.secret_lt]

theorem Agrees.getPublicKey_eq
    {node : Node} {ext : CExtKey} (h : Agrees node ext) (hvalid : ValidSecret ext.key.secret) :
  getPublicKey library node.key = some (ext.key.getPubKey library)
  := by
  obtain ⟨hpos, hlt⟩ := hvalid
  rw [getPublicKey, h.ofBE_key, if_pos ⟨hpos, hlt⟩, CKey.getPubKey, h.compressed]

theorem masterFromSeed_agrees (seed : Bytes) :
  Agrees (masterFromSeed library seed) (CExtKey.setSeed library seed)
  := by
  have hlength : ((library.hmacSha512 hashkey seed).take 32).length = 32 := by
    rw [List.length_take, library.length_hmacSha512]
    rfl
  constructor
  · apply (toBE32_ofBE hlength).symm
  · rfl
  · rfl
  · have hlt := ofLE_lt ((library.hmacSha512 hashkey seed).take 32).reverse
    rw [List.length_reverse, hlength] at hlt
    apply hlt

/-- What a successful `Derive` says of its result. -/
theorem derive_eq_some
    {parent child : CExtKey} {nChildIn : UInt32} (h : parent.derive library nChildIn = some child) :
  let fHardened := nChildIn &&& BIP32_HARDENED != 0
  let I := library.hmacSha512 parent.vchChainCode
    ((if fHardened then 0 :: parent.key.getSecret else parent.key.getPubKey library)
      ++ writeBE32 nChildIn)
  let secret := (ofBE (I.take 32) + ofBE parent.key.getSecret) % SECP256K1_ORDER
  secret ≠ 0 ∧ child.vchChainCode = I.drop 32 ∧ child.key = CKey.setSecret (toBE32 secret) true
  := by
  rw [CExtKey.derive] at h
  dsimp only at h ⊢
  generalize (if (nChildIn &&& BIP32_HARDENED != 0) = true then 0 :: parent.key.getSecret
    else parent.key.getPubKey library) ++ writeBE32 nChildIn = data at h ⊢
  generalize library.hmacSha512 parent.vchChainCode data = I at h ⊢
  by_cases hlength :
      (!(nChildIn &&& BIP32_HARDENED != 0) && (parent.key.getPubKey library).length != 33) = true
  · rw [if_pos hlength] at h
    cases h
  · rw [if_neg hlength] at h
    split_ifs at h with hil hzero
    cases h
    refine ⟨hzero, rfl, rfl⟩

theorem ckdPriv_agrees
    {node : Node} {parent child : CExtKey} {index : ℕ}
    (hindex : index < 2 ^ 32) (hagrees : Agrees node parent)
    (hvalid : index < HARDENED → ValidSecret parent.key.secret)
    (hderive : parent.derive library (UInt32.ofNat index) = some child) :
  ∃ node', ckdPriv library node index = some node' ∧ Agrees node' child
    ∧ ValidSecret child.key.secret
  := by
  obtain ⟨hne, hchain, hkey⟩ := derive_eq_some hderive
  have hdata : ckdData library node index
      = some ((if (UInt32.ofNat index &&& BIP32_HARDENED != 0) = true
          then 0 :: parent.key.getSecret else parent.key.getPubKey library)
        ++ writeBE32 (UInt32.ofNat index)) := by
    rw [ckdData, be32_eq hindex]
    by_cases hhard : index ≥ HARDENED
    · rw [if_pos hhard, if_pos ((hardened_iff hindex).mpr hhard), hagrees.key]
      rfl
    · rw [if_neg hhard, if_neg (mt (hardened_iff hindex).mp hhard),
        hagrees.getPublicKey_eq (hvalid (by omega))]
      rfl
  have hlt : ∀ n, n % SECP256K1_ORDER < SECP256K1_ORDER := by
    intro n
    apply Nat.mod_lt
    decide
  have hsecret : ∀ n, ofBE (toBE32 (n % SECP256K1_ORDER)) = n % SECP256K1_ORDER := by
    intro n
    apply ofBE_toBE32
    apply (hlt n).trans order_lt
  have hgetSecret : ∀ n, (CKey.setSecret (toBE32 (n % SECP256K1_ORDER)) true).getSecret
      = toBE32 (n % SECP256K1_ORDER) := by
    intro n
    rw [CKey.getSecret, CKey.setSecret, hsecret]
  rw [ckdPriv, hdata]
  refine ⟨_, rfl, ⟨?_, ?_, ?_, ?_⟩, ?_⟩
  · rw [ofHexText_toHex, ofHexText_toHex, bnTo32_eq ((hlt _).trans order_lt), hkey, hgetSecret,
      hagrees.chainCode, hagrees.key]
  · rw [hchain, hagrees.chainCode]
  · rw [hkey]
    rfl
  · rw [hkey, CKey.setSecret, hsecret]
    apply (hlt _).trans order_lt
  · rw [hkey, CKey.setSecret, hsecret]
    refine ⟨Nat.pos_of_ne_zero hne, hlt _⟩

/-- Wherever the daemon derives the key of an index, the web wallet derives the same private key,
the same compressed public key and the same address. -/
theorem deriveAddress_of_deriveHDChild
    (crypto : Crypto) (fTestNet : Bool) (seed : Bytes) {i : ℕ} {key : CKey} (hi : i < 2 ^ 31)
    (hderive : deriveHDChild library (CExtKey.setSeed library seed) (UInt32.ofNat i) = some key) :
  key.fCompressed = true ∧ deriveAddress library crypto seed i fTestNet
    = some ⟨i, addressOfKeyID crypto fTestNet (key.getID library), key.getSecret,
        key.getPubKey library⟩
  := by
  rw [deriveHDChild] at hderive
  obtain ⟨a, ha, hderive⟩ := Option.bind_eq_some_iff.mp hderive
  obtain ⟨b, hb, hderive⟩ := Option.bind_eq_some_iff.mp hderive
  obtain ⟨c, hc, hderive⟩ := Option.bind_eq_some_iff.mp hderive
  obtain ⟨external, hexternal, hderive⟩ := Option.bind_eq_some_iff.mp hderive
  obtain ⟨child, hchild, hderive⟩ := Option.bind_eq_some_iff.mp hderive
  cases hderive
  have hhard : ∀ {n : ℕ} {P : Prop}, n ≥ HARDENED → n < HARDENED → P := by
    intro n P hge hlt
    omega
  have h44 : 44 ||| BIP32_HARDENED = UInt32.ofNat (hard 44) := by decide
  have h99 : HD_COIN_TYPE ||| BIP32_HARDENED = UInt32.ofNat (hard 99) := by decide
  have h0 : 0 ||| BIP32_HARDENED = UInt32.ofNat (hard 0) := by decide
  rw [h44] at ha
  rw [h99] at hb
  rw [h0] at hc
  obtain ⟨nodeA, hnodeA, hagreesA, _⟩ :=
    ckdPriv_agrees (by decide) (masterFromSeed_agrees seed) (hhard (by decide)) ha
  obtain ⟨nodeB, hnodeB, hagreesB, _⟩ :=
    ckdPriv_agrees (by decide) hagreesA (hhard (by decide)) hb
  obtain ⟨nodeC, hnodeC, hagreesC, hvalidC⟩ :=
    ckdPriv_agrees (by decide) hagreesB (hhard (by decide)) hc
  have hzero : c.derive library (UInt32.ofNat 0) = some external := hexternal
  obtain ⟨nodeE, hnodeE, hagreesE, hvalidE⟩ :=
    ckdPriv_agrees (by decide) hagreesC (fun _ => hvalidC) hzero
  obtain ⟨node, hnode, hagrees, hvalid⟩ :=
    ckdPriv_agrees (by omega) hagreesE (fun _ => hvalidE) hchild
  have hpath : derivePath library seed [hard 44, hard 99, hard 0, 0, i] = some node := by
    rw [derivePath, List.foldlM_cons, hnodeA, Option.bind_eq_bind, Option.bind_some,
      List.foldlM_cons, hnodeB, Option.bind_eq_bind, Option.bind_some, List.foldlM_cons, hnodeC,
      Option.bind_eq_bind, Option.bind_some, List.foldlM_cons, hnodeE, Option.bind_eq_bind,
      Option.bind_some, List.foldlM_cons, hnode]
    rfl
  refine ⟨hagrees.compressed, ?_⟩
  rw [deriveAddress, hpath, Option.bind_eq_bind, Option.bind_some,
    hagrees.getPublicKey_eq hvalid, Option.bind_eq_bind, Option.bind_some, base58check,
    base58encode_eq, hagrees.key]
  rfl

end Agreement

/-- The seed of 64 zero bytes. -/
def sampleSeed : Bytes := List.replicate 64 0

/-- HMAC-SHA512 on the way from `sampleSeed` to the key of index 7. -/
def sampleHmac (_key data : Bytes) : Bytes :=
  if data = sampleSeed then
    toBE32 0xeafd15702fca3f80beb565e66f19e20bbad0a34b46bb12075cbf1c5d94bb27d2
      ++ toBE32 0xcda6a96b8a91317d82fa5c6353562cd530761cf1eec6e13cfa3858b0b130b0bd
  else if data.drop 33 = [0x80, 0, 0, 44] then
    toBE32 0x2dce8597922615e4dbae536f633aee27b08c207defa1d318772911798ca81bd9
      ++ toBE32 0xe824a5c37ff884571fd054f5f71a2ab1c797b3c85f8c7f673b3e8bcef27e242e
  else if data.drop 33 = [0x80, 0, 0, 99] then
    toBE32 0x7a59894a5204354415375508d7b16baf0e26ec6a24d873f65030b6ababb4f892
      ++ toBE32 0xbd339329ab22b41ff9757777293d89e1755da15197743e937ef133c2aa119a47
  else if data.drop 33 = [0x80, 0, 0, 0] then
    toBE32 0x248191aedd7b4acbb98e4657877bc129324e57805a8386a8b210df7f241a91c5
      ++ toBE32 0x5e2f243fcc11d4c0558f27090867aa1a989c6db9aeff734cd78f0f3506cbfc2e
  else if data.drop 33 = [0, 0, 0, 0] then
    toBE32 0x529d4c285c8b94d679900f289770e9d1a2deac2d35a63c8673541e7fda6f7435
      ++ toBE32 0x15771e5529ae1a4040345f780c7b7ad9c6eae4669529a0092acdc08f8cfa3d6b
  else
    toBE32 0x1bbe4c2398c23c2dd95956b125795d06e78d5fc7d49db53d52d13a7e52b9ef98
      ++ toBE32 0x8e2764efecb0f8858c1265abb5999627e97f3d4fa0102e8a77723d0fff3c2066

/-- The public keys on the same way. -/
def samplePublicKey (secret : ℕ) (_fCompressed : Bool) : Bytes :=
  if secret = 0xb7a6b600f16fd575692954b63181fd0cf1232acd06703f831657657520fc8cc1 then
    3 :: toBE32 0x86cb32f4c693840586358a77d5e7aa3d3a9df4de9adac488fd5fd62c0df267a0
  else if secret = 0xa4402294dfb6a4be2b963dec8f2e6dfd952fa138ccddbcdc9d925682b35bfb5 then
    2 :: toBE32 0x0017e8a12497c7c02075efff9e60596a329a7fcafa8cad91ff237371eeeec225
  else
    2 :: toBE32 0x5bfbafe1008c8da92e1cd924ffef5bb38b67b12d16b42b31e5877a83666d91ef

/-- The functions of the derivation of the key of index 7 from `sampleSeed`. -/
def sampleKeyLibrary : KeyLibrary where
  hmacSha512 := sampleHmac
  length_hmacSha512 key data := by
    rw [sampleHmac]
    split_ifs
    all_goals rfl
  hash160 _ := 0xd528dd8fdc059eb8da65ba4dbfc3665627b30475
  publicKey := samplePublicKey

/-- The checksum of the address of that key. -/
def sampleChecksum : Crypto where
  hash _ := 0x30c37055f158c0e16a05b8e934d0f781b0109335aa02c5b2d020cbc6c681a44c
  scrypt _ := 0

/-- The key of index 7 of `sampleSeed`. -/
def sampleKey : CKey :=
  ⟨0x26024e4ce6bda679bc12ba8fee6c43e6c0e059db616b910b1caa5fe67defaf4d, true⟩

theorem sampleKey_agrees :
  (7 : ℕ) < 2 ^ 31
    ∧ deriveHDChild sampleKeyLibrary (CExtKey.setSeed sampleKeyLibrary sampleSeed)
      (UInt32.ofNat 7) = some sampleKey
    ∧ deriveAddress sampleKeyLibrary sampleChecksum sampleSeed 7 false
      = some ⟨7, addressOfKeyID sampleChecksum false (sampleKey.getID sampleKeyLibrary),
          sampleKey.getSecret, sampleKey.getPubKey sampleKeyLibrary⟩
  := by
  have hi : (7 : ℕ) < 2 ^ 31 := by decide
  have hderive : deriveHDChild sampleKeyLibrary (CExtKey.setSeed sampleKeyLibrary sampleSeed)
      (UInt32.ofNat 7) = some sampleKey := by
    decide
  have hagrees := deriveAddress_of_deriveHDChild sampleChecksum false sampleSeed hi hderive
  refine ⟨hi, hderive, hagrees.2⟩

end CorgiCoin.WebWallet
