import CorgiCoin.Bech32

/-!
# Addresses

`CBitcoinAddress` has two encodings of a destination: base58 with a version byte, and bech32m with a
prefix for the network and a value for the type.  `SetString` tries bech32m first.  Both encodings are
read back, a string is read as bech32m only where it is the one written, and no such string is long
enough to be a base58 address.
-/

namespace CorgiCoin

open Codec Digits Bech32

/-- What a script pays to. -/
inductive CTxDestination where
  | CNoDestination
  | CKeyID (id : uint160)
  | CScriptID (id : uint160)
  deriving DecidableEq

structure CBitcoinAddress where
  /-- the version byte -/
  nVersion : UInt8 := 0
  /-- the actually encoded data -/
  vchData : Bytes := []
  deriving DecidableEq

namespace CBitcoinAddress

def SCRIPT_ADDRESS : UInt8 := 22
def SCRIPT_ADDRESS_TEST : UInt8 := 196

def keyVersion (fTestNet : Bool) : UInt8 := if fTestNet then PUBKEY_ADDRESS_TEST else PUBKEY_ADDRESS

def scriptVersion (fTestNet : Bool) : UInt8 :=
  if fTestNet then SCRIPT_ADDRESS_TEST else SCRIPT_ADDRESS

/-- `CBitcoinAddress(dest)` -/
def ofDestination (fTestNet : Bool) : CTxDestination → CBitcoinAddress
  | .CNoDestination => {}
  | .CKeyID id => { nVersion := keyVersion fTestNet, vchData := serializeUint160 id }
  | .CScriptID id => { nVersion := scriptVersion fTestNet, vchData := serializeUint160 id }

def isValid (fTestNet : Bool) (addr : CBitcoinAddress) : Bool :=
  if addr.nVersion = PUBKEY_ADDRESS ∨ addr.nVersion = SCRIPT_ADDRESS then
    !fTestNet && addr.vchData.length == 20
  else if addr.nVersion = PUBKEY_ADDRESS_TEST ∨ addr.nVersion = SCRIPT_ADDRESS_TEST then
    fTestNet && addr.vchData.length == 20
  else false

def get (fTestNet : Bool) (addr : CBitcoinAddress) : CTxDestination :=
  let id := BitVec.ofNat 160 (ofLE addr.vchData)
  if !addr.isValid fTestNet then .CNoDestination
  else if addr.nVersion = PUBKEY_ADDRESS ∨ addr.nVersion = PUBKEY_ADDRESS_TEST then .CKeyID id
  else if addr.nVersion = SCRIPT_ADDRESS ∨ addr.nVersion = SCRIPT_ADDRESS_TEST then .CScriptID id
  else .CNoDestination

/-! ## Base58 -/

def toString (crypto : Crypto) (addr : CBitcoinAddress) : List Char :=
  encodeBase58Check crypto (addr.nVersion :: addr.vchData)

/-- `CBase58Data::SetString` -/
def setBase58 (crypto : Crypto) (str : List Char) : Bool × CBitcoinAddress :=
  match decodeBase58Check crypto str with
  | none | some [] => (false, {})
  | some (nVersion :: vchData) => (true, { nVersion, vchData })

/-! ## Bech32m -/

def bech32HRP (fTestNet : Bool) : List Char := if fTestNet then "tcorg".toList else "corg".toList

def toBech32 (fTestNet : Bool) (addr : CBitcoinAddress) : List Char :=
  if !addr.isValid fTestNet then []
  else
    let type : UInt8 :=
      if addr.nVersion = PUBKEY_ADDRESS ∨ addr.nVersion = PUBKEY_ADDRESS_TEST then 0 else 1
    -- whole bytes are always regrouped
    let data := type :: (convertBits 8 5 true addr.vchData).getD []
    encode .BECH32M (bech32HRP fTestNet) data

def setBech32 (fTestNet : Bool) (str : List Char) : Option CBitcoinAddress :=
  let dec := decode str
  if dec.encoding ≠ .BECH32M ∨ dec.hrp ≠ bech32HRP fTestNet then none
  else
    match dec.data with
    | [] => none
    | type :: data =>
      if type > 1 then none
      else
        match convertBits 5 8 false data with
        | none => none
        | some hash =>
          if hash.length ≠ 20 then none
          else if type = 0 then some { nVersion := keyVersion fTestNet, vchData := hash }
          else some { nVersion := scriptVersion fTestNet, vchData := hash }

/-- `SetString`: either encoding is accepted. -/
def setString (crypto : Crypto) (fTestNet : Bool) (str : List Char) : Bool × CBitcoinAddress :=
  match setBech32 fTestNet str with
  | some addr => (true, addr)
  | none => setBase58 crypto str

/-! ## Destinations -/

/-- The address of a destination is valid and names it. -/
theorem get_ofDestination {fTestNet : Bool} {d : CTxDestination} (h : d ≠ .CNoDestination) :
  (ofDestination fTestNet d).isValid fTestNet = true ∧ (ofDestination fTestNet d).get fTestNet = d
  := by
  have hlen : ∀ id : uint160, (serializeUint160 id).length = 20 := fun id => length_toLE ..
  have hid : ∀ id : uint160, BitVec.ofNat 160 (ofLE (serializeUint160 id)) = id := by
    intro id
    have hlt : id.toNat < 256 ^ 20 := id.isLt
    rw [serializeUint160, ofLE_toLE_of_lt hlt, BitVec.ofNat_toNat, BitVec.setWidth_eq]
  cases d with
  | CNoDestination => exact absurd rfl h
  | CKeyID id =>
    cases fTestNet <;>
      simp [get, isValid, ofDestination, keyVersion, PUBKEY_ADDRESS, PUBKEY_ADDRESS_TEST,
        SCRIPT_ADDRESS, SCRIPT_ADDRESS_TEST, hlen, hid]
  | CScriptID id =>
    cases fTestNet <;>
      simp [get, isValid, ofDestination, scriptVersion, PUBKEY_ADDRESS, PUBKEY_ADDRESS_TEST,
        SCRIPT_ADDRESS, SCRIPT_ADDRESS_TEST, hlen, hid]

/-- The bytes of an address are those of a hash. -/
theorem serializeUint160_ofLE {bs : Bytes} (h : bs.length = 20) :
  serializeUint160 (BitVec.ofNat 160 (ofLE bs)) = bs
  := by
  have hlt : ofLE bs < 2 ^ 160 := by
    have hlt := ofLE_lt bs
    rw [h] at hlt
    exact hlt
  rw [serializeUint160, BitVec.toNat_ofNat, Nat.mod_eq_of_lt hlt, ← h, toLE_ofLE]

/-- The type value of a destination in bech32m and the hash after it. -/
def bech32Data : CTxDestination → Bytes
  | .CNoDestination => []
  | .CKeyID id => 0 :: (convertBits 8 5 true (serializeUint160 id)).getD []
  | .CScriptID id => 1 :: (convertBits 8 5 true (serializeUint160 id)).getD []

variable {fTestNet : Bool} {d : CTxDestination}

theorem toBech32_ofDestination (h : d ≠ .CNoDestination) :
  (ofDestination fTestNet d).toBech32 fTestNet = encode .BECH32M (bech32HRP fTestNet) (bech32Data d)
  := by
  rw [toBech32, (get_ofDestination h).1]
  cases d with
  | CNoDestination => exact absurd rfl h
  | CKeyID id => cases fTestNet <;> rfl
  | CScriptID id => cases fTestNet <;> rfl

/-- A hash, regrouped by five bits: 32 values, from which the hash is got back. -/
theorem convertBits_hash {hash : Bytes} (h : hash.length = 20) :
  ∃ out, convertBits 8 5 true hash = some out ∧ out.length = 32 ∧ (∀ v ∈ out, v.toNat < 32) ∧
    convertBits 5 8 false out = some hash
  := by
  obtain ⟨out, hout, hcut⟩ := @convertBits_exact 8 5 (by decide) (by decide) (by decide) hash
    (fun value _ => value.toNat_lt) (by rw [h]; decide) true
  have hlen : out.length = 32 := by
    have hlength := hcut.length
    rw [List.length_map, List.length_map, h] at hlength
    omega
  have hlt : ∀ v ∈ out, v.toNat < 32 := fun v hv => hcut.right_lt _ (List.mem_map_of_mem hv)
  obtain ⟨hash', hback, hcut'⟩ := @convertBits_exact 5 8 (by decide) (by decide) (by decide) out
    hlt (by rw [hlen]; decide) false
  have heq : hash' = hash := map_toNat_injective (hcut'.right_unique (by decide) hcut.symm)
  exact ⟨out, hout, hlen, hlt, heq ▸ hback⟩

/-- Values that are regrouped into a hash are those that the hash is regrouped into. -/
theorem convertBits_back {data hash : Bytes} (h : convertBits 5 8 false data = some hash)
    (hlen : hash.length = 20) :
  convertBits 8 5 true hash = some data
  := by
  obtain ⟨bits, rest, hbits, hcut⟩ := cut_of_convertBits (by decide) (by decide) h
  have hzero : bits = 0 := by
    have hlength := hcut.length
    rw [List.length_map, List.length_map, hlen] at hlength
    omega
  subst hzero
  have hrest : rest = 0 := by
    have hlt := hcut.rest_lt
    omega
  subst hrest
  obtain ⟨out, hout, -, hlt, hback⟩ := convertBits_hash hlen
  obtain ⟨out', hout', hcut'⟩ := @convertBits_exact 8 5 (by decide) (by decide) (by decide) hash
    (fun value _ => value.toNat_lt) (by rw [hlen]; decide) true
  have heq : out' = data := map_toNat_injective (hcut'.right_unique (by decide) hcut.symm)
  exact heq ▸ hout'

theorem encodable_bech32Data {fTestNet : Bool} {d : CTxDestination} (h : d ≠ .CNoDestination) :
  Encodable (bech32HRP fTestNet) (bech32Data d) ∧ (bech32Data d).length = 33
  := by
  have hhash : ∀ id : uint160, (serializeUint160 id).length = 20 := fun id => length_toLE ..
  have hdata : (bech32Data d).length = 33 ∧ ∀ v ∈ bech32Data d, v.toNat < 32 := by
    cases d with
    | CNoDestination => exact absurd rfl h
    | CKeyID id | CScriptID id =>
      obtain ⟨out, hout, hlen, hlt, -⟩ := convertBits_hash (hhash id)
      rw [bech32Data, hout, Option.getD_some, List.length_cons, hlen]
      refine ⟨rfl, fun v hv => ?_⟩
      rcases List.mem_cons.mp hv with rfl | hv
      · decide
      · exact hlt v hv
  have hchars : ∀ c ∈ bech32HRP fTestNet, 33 ≤ c.toNat ∧ c.toNat ≤ 126 ∧ isUpper c = false := by
    cases fTestNet <;> simp [bech32HRP, isUpper]
  have hlen : (bech32HRP fTestNet).length ≤ 5 := by
    cases fTestNet <;> decide
  refine ⟨⟨?_, hchars, by omega, hdata.2⟩, hdata.1⟩
  cases fTestNet <;> decide

/-! ## Reading and writing bech32m -/

/-- What is written in bech32m is read back. -/
theorem setBech32_toBech32 (h : d ≠ .CNoDestination) :
  setBech32 fTestNet ((ofDestination fTestNet d).toBech32 fTestNet) = some (ofDestination fTestNet d)
  := by
  have hhash : ∀ id : uint160, (serializeUint160 id).length = 20 := fun id => length_toLE ..
  rw [toBech32_ofDestination h, setBech32, decode_encode (encodable_bech32Data h).1]
  cases d with
  | CNoDestination => exact absurd rfl h
  | CKeyID id | CScriptID id =>
    obtain ⟨out, hout, -, -, hback⟩ := convertBits_hash (hhash id)
    simp [bech32Data, hout, hback, hhash, ofDestination]

variable {str : List Char} {addr : CBitcoinAddress}

/-- A string that is read in bech32m is, up to upper case, the one that is written for what it is read
as. -/
theorem of_setBech32
    (h : setBech32 fTestNet str = some addr) :
  ∃ d, d ≠ .CNoDestination ∧ addr = ofDestination fTestNet d ∧
    (str = addr.toBech32 fTestNet ∨ str = (addr.toBech32 fTestNet).map toUpper)
  := by
  rw [setBech32] at h
  split_ifs at h with hdec
  rw [not_or, not_not, not_not] at hdec
  obtain ⟨-, hwritten, hcase⟩ := encode_of_decode hdec.1
  cases hdata : (decode str).data with
  | nil => simp [hdata] at h
  | cons type data =>
    simp only [hdata] at h
    cases hbits : convertBits 5 8 false data with
    | none => simp [hbits] at h
    | some hash =>
      simp only [hbits] at h
      split_ifs at h with htype hlen hkey
      all_goals
        simp only [Option.some.injEq] at h
        have hback := convertBits_back hbits (not_not.mp hlen)
        have hserialize := serializeUint160_ofLE (not_not.mp hlen)
      · have haddr : addr = ofDestination fTestNet (.CKeyID (BitVec.ofNat 160 (ofLE hash))) := by
          rw [← h, ofDestination, hserialize]
        refine ⟨.CKeyID (BitVec.ofNat 160 (ofLE hash)), by simp, haddr, ?_⟩
        rw [haddr, toBech32_ofDestination (by simp), bech32Data, hserialize, hback,
          Option.getD_some, ← hkey, ← hdata, ← hdec.2, ← hwritten]
        exact hcase
      · have hone : type = 1 := by
          have hle : type.toNat ≤ 1 := UInt8.le_iff_toNat_le.mp (UInt8.not_lt.mp htype)
          have hne : type.toNat ≠ 0 := fun hzero => hkey (UInt8.toNat_inj.mp hzero)
          have htoNat : type.toNat = 1 := by omega
          exact UInt8.toNat_inj.mp htoNat
        have haddr : addr = ofDestination fTestNet (.CScriptID (BitVec.ofNat 160 (ofLE hash))) := by
          rw [← h, ofDestination, hserialize]
        refine ⟨.CScriptID (BitVec.ofNat 160 (ofLE hash)), by simp, haddr, ?_⟩
        rw [haddr, toBech32_ofDestination (by simp), bech32Data, hserialize, hback,
          Option.getD_some, ← hone, ← hdata, ← hdec.2, ← hwritten]
        exact hcase

/-! ## The two encodings apart -/

/-- The characters of a string in bech32m, in either case: none is a space or a zero, and the first is
a letter. -/
theorem chars_of_setBech32
    (h : setBech32 fTestNet str = some addr) :
  44 ≤ str.length ∧ (∀ c ∈ str, isspace c = false ∧ c ≠ '\x00') ∧ str.head? ≠ some (base58Char 0)
  := by
  have hdec : (decode str).encoding = .BECH32M := by
    rw [setBech32] at h
    split_ifs at h with hdec
    exact not_not.mp (not_or.mp hdec).1
  have hchars : ∀ c ∈ str, isspace c = false ∧ c ≠ '\x00' := by
    intro c hc
    obtain ⟨hge, hle⟩ := chars_of_decode hdec c hc
    constructor
    · have hne : c ≠ ' ' := by
        rintro rfl
        exact absurd hge (by decide)
      simp only [isspace, Bool.or_eq_false_iff, beq_eq_false_iff_ne, Bool.and_eq_false_iff,
        decide_eq_false_iff_not]
      exact ⟨hne, Or.inr (by omega)⟩
    · rintro rfl
      exact absurd hge (by decide)
  obtain ⟨d, hd, rfl, hstr⟩ := of_setBech32 h
  obtain ⟨henc, hlen⟩ := @encodable_bech32Data fTestNet d hd
  rw [toBech32_ofDestination hd, encode_eq henc] at hstr
  refine ⟨?_, hchars, ?_⟩
  · have hhrp : 4 ≤ (bech32HRP fTestNet).length := by
      cases fTestNet <;> decide
    have hsix : (createChecksum .BECH32M (bech32HRP fTestNet) (bech32Data d)).length = 6 := by
      rw [createChecksum_eq, length_checksumOf]
    rcases hstr with rfl | rfl
    all_goals
      simp only [List.length_append, List.length_cons, List.length_map, hlen, hsix]
      omega
  · rcases hstr with rfl | rfl <;> cases fTestNet
    · exact (by decide : some 'c' ≠ some (base58Char 0))
    · exact (by decide : some 't' ≠ some (base58Char 0))
    · exact (by decide : some 'C' ≠ some (base58Char 0))
    · exact (by decide : some 'T' ≠ some (base58Char 0))

/-- A string that is read in bech32m is not a base58 address. -/
theorem setBase58_of_setBech32 (crypto : Crypto)
    (h : setBech32 fTestNet str = some addr) :
  (setBase58 crypto str).2.isValid fTestNet = false
  := by
  obtain ⟨hlen, hchars, hhead⟩ := chars_of_setBech32 h
  cases str with
  | nil => simp at hlen
  | cons c p =>
    have hne : c ≠ base58Char 0 := fun heq => hhead (by rw [heq]; rfl)
    rw [setBase58, decodeBase58Check]
    cases hdec : decodeBase58 (c :: p) with
    | none => rfl
    | some vch =>
      have hpow := pow_le_of_decodeBase58 hchars hne hdec
      have hlong : 25 < vch.length := by
        by_contra hle
        have hbig : 256 ^ vch.length ≤ 256 ^ 25 := Nat.pow_le_pow_right (by decide) (by omega)
        have hsmall : 58 ^ 43 ≤ 58 ^ p.length :=
          Nat.pow_le_pow_right (by decide) (by rw [List.length_cons] at hlen; omega)
        have hnum : 256 ^ 25 < 58 ^ 43 := by norm_num
        omega
      dsimp only
      rw [if_neg (by omega)]
      split_ifs
      · rfl
      · cases htake : vch.take (vch.length - 4) with
        | nil => rfl
        | cons nVersion vchData =>
          have hcount := congrArg List.length htake
          rw [List.length_take, List.length_cons] at hcount
          have hdata : ¬ vchData.length = 20 := by omega
          simp [isValid, hdata]

/-! ## Both encodings name the same destinations -/

theorem setBase58_toString (crypto : Crypto) (addr : CBitcoinAddress) :
  setBase58 crypto (addr.toString crypto) = (true, addr)
  := by
  rw [setBase58, toString, decodeBase58Check_encodeBase58Check]

/-- An address in base58 is not read as bech32m. -/
theorem setString_toString (crypto : Crypto)
    (h : addr.isValid fTestNet = true) :
  setString crypto fTestNet (addr.toString crypto) = (true, addr)
  := by
  rw [setString]
  cases hbech : setBech32 fTestNet (addr.toString crypto) with
  | none => exact setBase58_toString crypto addr
  | some addr' =>
    have hinvalid := setBase58_of_setBech32 crypto hbech
    rw [setBase58_toString, h] at hinvalid
    cases hinvalid

theorem setString_toBech32 (crypto : Crypto)
    (h : d ≠ .CNoDestination) :
  setString crypto fTestNet ((ofDestination fTestNet d).toBech32 fTestNet)
    = (true, ofDestination fTestNet d)
  := by
  rw [setString, setBech32_toBech32 h]

/-- A destination is read back from both its encodings.  A string that is read in bech32m is the one
written for the destination it is read as, up to upper case, and is no base58 address. -/
theorem encodings_agree (crypto : Crypto) (fTestNet : Bool) :
  (∀ d, d ≠ CTxDestination.CNoDestination →
    ∀ str ∈ [(ofDestination fTestNet d).toString crypto, (ofDestination fTestNet d).toBech32 fTestNet],
      (setString crypto fTestNet str).1 = true ∧
      (setString crypto fTestNet str).2.isValid fTestNet = true ∧
      (setString crypto fTestNet str).2.get fTestNet = d) ∧
  (∀ str addr, setBech32 fTestNet str = some addr →
    addr.get fTestNet ≠ .CNoDestination ∧
    (str = (ofDestination fTestNet (addr.get fTestNet)).toBech32 fTestNet ∨
      str = ((ofDestination fTestNet (addr.get fTestNet)).toBech32 fTestNet).map toUpper)) ∧
  (∀ str addr, setBech32 fTestNet str = some addr →
    (setBase58 crypto str).2.isValid fTestNet = false)
  := by
  refine ⟨?_, ?_, fun str addr h => setBase58_of_setBech32 crypto h⟩
  · intro d hd str hstr
    obtain ⟨hvalid, hget⟩ := @get_ofDestination fTestNet d hd
    simp only [List.mem_cons, List.not_mem_nil, or_false] at hstr
    rcases hstr with rfl | rfl
    · rw [setString_toString crypto hvalid]
      exact ⟨rfl, hvalid, hget⟩
    · rw [setString_toBech32 crypto hd]
      exact ⟨rfl, hvalid, hget⟩
  · intro str addr h
    obtain ⟨d, hd, rfl, hstr⟩ := of_setBech32 h
    rw [(get_ofDestination hd).2]
    exact ⟨hd, hstr⟩

theorem sampleKeyID_encodings :
  (setString sampleCrypto false ((ofDestination false (.CKeyID 7)).toBech32 false)).2.get false
      = .CKeyID 7 ∧
    (setBase58 sampleCrypto ((ofDestination false (.CKeyID 7)).toBech32 false)).2.isValid false = false
  := by
  have hread : setBech32 false ((ofDestination false (.CKeyID 7)).toBech32 false)
      = some (ofDestination false (.CKeyID 7)) := setBech32_toBech32 (by decide)
  exact ⟨((encodings_agree sampleCrypto false).1 (.CKeyID 7) (by decide) _ (by simp)).2.2,
    (encodings_agree sampleCrypto false).2.2 _ _ hread⟩

end CBitcoinAddress

end CorgiCoin
