import CorgiCoin.Base58Strings

/-!
# Extended keys as text

`CExtKey::ToBase58` and `SetBase58`: a layout of 78 bytes in base58 with a checksum.  The byte in front
of the key is written as zero and read over, so that other strings are read as the same key.
-/

namespace CorgiCoin

open Codec

/-! ## Checked strings -/

/-- A string without a zero byte is read as the bytes whose checked string it is, with whitespace around
it. -/
theorem decodeBase58Check_eq_some_iff (crypto : Crypto) {psz : CString} {vch : Bytes} :
  decodeBase58Check crypto psz.val = some vch ↔ trimSpaces psz.val = encodeBase58Check crypto vch
  := by
  rw [encodeBase58Check, ← decodeBase58_eq_some_iff]
  constructor
  · intro h
    rw [decodeBase58Check] at h
    cases hread : decodeBase58 psz.val with
    | none =>
      rw [hread] at h
      cases h
    | some vchRet =>
      rw [hread] at h
      dsimp only at h
      split_ifs at h with hshort hcheck
      obtain rfl := Option.some.inj h
      rw [not_not.mp hcheck, List.take_append_drop]
  · intro h
    have hlen : ((serializeUint256 (crypto.hash vch)).take 4).length = 4 := by
      rw [List.length_take, serializeUint256, length_toLE]
      rfl
    rw [decodeBase58Check, h]
    dsimp only
    rw [List.length_append, hlen, Nat.add_sub_cancel, List.take_left, List.drop_left,
      if_neg (by omega), if_neg (by simp)]

/-- What is no whitespace is not trimmed. -/
theorem mem_trimSpaces {str : List Char} {c : Char} (h : c ∈ str) (hspace : isspace c = false) :
  c ∈ trimSpaces str
  := by
  have hfront : c ∈ str.dropWhile isspace := by
    rw [← List.takeWhile_append_dropWhile (p := isspace) (l := str)] at h
    rcases List.mem_append.mp h with h | h
    · rw [List.mem_takeWhile_imp h] at hspace
      cases hspace
    · exact h
  rw [← List.rdropWhile_append_rtakeWhile (p := isspace) (l := str.dropWhile isspace)] at hfront
  rcases List.mem_append.mp hfront with h | h
  · exact h
  · rw [List.mem_rtakeWhile_imp h] at hspace
    cases hspace

theorem zero_notMem_encodeBase58 (vch : Bytes) : '\x00' ∉ encodeBase58 vch
  := by
  intro hmem
  obtain ⟨ds, hds, hwritten, -⟩ := exists_digits_of_encodeBase58 vch
  rw [hwritten] at hmem
  obtain ⟨d, hd, hchar⟩ := List.mem_map.mp hmem
  exact (base58Char_spec d (hds d hd)).2.2.1 hchar

/-! ## The layout -/

def readBE32 (p : Bytes) : UInt32 :=
  (p.getD 0 0).toUInt32 <<< 24 ||| (p.getD 1 0).toUInt32 <<< 16 ||| (p.getD 2 0).toUInt32 <<< 8
    ||| (p.getD 3 0).toUInt32

namespace CExtKey

/-- The bytes of an extended key, with the given byte in front of the key. -/
def layout (vchVersion : Bytes) (marker : UInt8) (k : CExtKey) : Bytes :=
  vchVersion ++ k.nDepth :: (k.vchFingerprint ++ (writeBE32 k.nChild ++ (k.vchChainCode
    ++ marker :: k.key.getSecret)))

def toBase58 (crypto : Crypto) (k : CExtKey) (vchVersion : Bytes) : List Char :=
  encodeBase58Check crypto (layout vchVersion 0x00 k)

/-- What `SetBase58` copies from the bytes after the version; it goes past `p[41]`. -/
def fields (p : Bytes) : CExtKey where
  nDepth := p.getD 0 0
  vchFingerprint := (p.drop 1).take 4
  nChild := readBE32 ((p.drop 5).take 4)
  vchChainCode := (p.drop 9).take 32
  key := CKey.setSecret ((p.drop 42).take 32) true

/-- `SetBase58`: the key and the version that are read; `none` where it returns false. -/
def setBase58 (crypto : Crypto) (str : List Char) : Option (CExtKey × Bytes) :=
  match decodeBase58Check crypto str with
  | none => none
  | some v =>
    if v.length ≠ 4 + 1 + 4 + 4 + 32 + 33 then none
    else some (fields (v.drop 4), v.take 4)

/-- A key as derivation gives them: compressed, and in the range of the group. -/
structure Valid (k : CExtKey) : Prop where
  fingerprint : k.vchFingerprint.length = 4
  chainCode : k.vchChainCode.length = 32
  compressed : k.key.fCompressed = true
  positive : 0 < k.key.secret
  below : k.key.secret < SECP256K1_ORDER

end CExtKey

theorem toNat_readBE32 (a b c d : UInt8) :
  (readBE32 [a, b, c, d]).toNat = a.toNat * 2 ^ 24 + b.toNat * 2 ^ 16 + c.toNat * 2 ^ 8 + d.toNat
  := by
  have ha := a.toNat_lt
  have hb := b.toNat_lt
  have hc := c.toNat_lt
  have hd := d.toNat_lt
  have hshift : ∀ (x : UInt8) (n : UInt32), n.toNat ≤ 24 →
      (x.toUInt32 <<< n).toNat = x.toNat * 2 ^ n.toNat := by
    intro x n hn
    have hx := x.toNat_lt
    have hle := Nat.pow_le_pow_right (show 0 < 2 by decide) hn
    have hmul := Nat.mul_le_mul_left x.toNat hle
    rw [UInt32.toNat_shiftLeft, UInt8.toNat_toUInt32, Nat.mod_eq_of_lt (show n.toNat < 32 by omega),
      Nat.shiftLeft_eq, Nat.mod_eq_of_lt (by omega)]
  have hread : readBE32 [a, b, c, d]
      = a.toUInt32 <<< 24 ||| b.toUInt32 <<< 16 ||| c.toUInt32 <<< 8 ||| d.toUInt32 := rfl
  rw [hread, UInt32.toNat_or, UInt32.toNat_or, UInt32.toNat_or, hshift a 24 (by decide),
    hshift b 16 (by decide), hshift c 8 (by decide), UInt8.toNat_toUInt32]
  have htwentyFour : (24 : UInt32).toNat = 24 := rfl
  have hsixteen : (16 : UInt32).toNat = 16 := rfl
  have height : (8 : UInt32).toNat = 8 := rfl
  -- the bytes do not overlap, so that the bits add up from the top
  rw [htwentyFour, hsixteen, height, mul_comm a.toNat,
    ← Nat.two_pow_add_eq_or_of_lt (show b.toNat * 2 ^ 16 < 2 ^ 24 by omega),
    show 2 ^ 24 * a.toNat + b.toNat * 2 ^ 16 = 2 ^ 16 * (2 ^ 8 * a.toNat + b.toNat) by ring,
    ← Nat.two_pow_add_eq_or_of_lt (show c.toNat * 2 ^ 8 < 2 ^ 16 by omega),
    show 2 ^ 16 * (2 ^ 8 * a.toNat + b.toNat) + c.toNat * 2 ^ 8
      = 2 ^ 8 * (2 ^ 16 * a.toNat + 2 ^ 8 * b.toNat + c.toNat) by ring,
    ← Nat.two_pow_add_eq_or_of_lt (show d.toNat < 2 ^ 8 from hd)]

theorem toNat_writeBE32 (x : UInt32) :
  (writeBE32 x).map UInt8.toNat
    = [x.toNat / 2 ^ 24 % 256, x.toNat / 2 ^ 16 % 256, x.toNat / 2 ^ 8 % 256, x.toNat % 256]
  := by
  have hshift : ∀ n : UInt32, n.toNat < 32 → (x >>> n).toUInt8.toNat = x.toNat / 2 ^ n.toNat % 256 := by
    intro n hn
    rw [UInt32.toNat_toUInt8, UInt32.toNat_shiftRight, Nat.mod_eq_of_lt hn, Nat.shiftRight_eq_div_pow]
  rw [writeBE32, List.map_cons, List.map_cons, List.map_cons, List.map_cons, List.map_nil,
    hshift 24 (by decide), hshift 16 (by decide), hshift 8 (by decide), UInt32.toNat_toUInt8]
  rfl

theorem writeBE32_readBE32 {p : Bytes} (h : p.length = 4) : writeBE32 (readBE32 p) = p
  := by
  obtain ⟨a, b, c, d, rfl⟩ : ∃ a b c d, p = [a, b, c, d] := List.length_eq_four.mp h
  have ha := a.toNat_lt
  have hb := b.toNat_lt
  have hc := c.toNat_lt
  have hd := d.toNat_lt
  apply List.map_injective_iff.mpr (fun x y hxy => UInt8.toNat_inj.mp hxy)
  rw [toNat_writeBE32, toNat_readBE32]
  simp only [List.map_cons, List.map_nil, List.cons.injEq, and_true]
  omega

theorem readBE32_writeBE32 (x : UInt32) : readBE32 (writeBE32 x) = x
  := by
  have hx := x.toNat_lt
  have hbytes := toNat_writeBE32 x
  obtain ⟨a, b, c, d, hwritten⟩ : ∃ a b c d, writeBE32 x = [a, b, c, d] := ⟨_, _, _, _, rfl⟩
  rw [hwritten] at hbytes ⊢
  simp only [List.map_cons, List.map_nil, List.cons.injEq, and_true] at hbytes
  apply UInt32.toNat_inj.mp
  rw [toNat_readBE32]
  omega

namespace CExtKey

/-! ## Reading the layout -/

variable {vchVersion : Bytes} {k : CExtKey}

theorem length_layout (hversion : vchVersion.length = 4) (hfingerprint : k.vchFingerprint.length = 4)
    (hchain : k.vchChainCode.length = 32) (marker : UInt8) :
  (layout vchVersion marker k).length = 78
  := by
  have hsecret : k.key.getSecret.length = 32 := length_toBE32 _
  have hchild : (writeBE32 k.nChild).length = 4 := rfl
  simp only [layout, List.length_append, List.length_cons, hversion, hfingerprint, hchain, hsecret, hchild]

theorem drop_add_of_append {l a b : Bytes} {i n : ℕ} (h : l.drop i = a ++ b) (ha : a.length = n) :
  l.drop (i + n) = b
  := by rw [← List.drop_drop, h, List.drop_left' ha]

/-- Whatever stands in front of the key, the fields are read. -/
theorem fields_layout (hversion : vchVersion.length = 4) (h : k.Valid) (marker : UInt8) :
  fields ((layout vchVersion marker k).drop 4) = k
  := by
  have hsecret : k.key.getSecret.length = 32 := length_toBE32 _
  have hbelow : k.key.secret < 2 ^ 256 := h.below.trans (by decide)
  rw [layout, List.drop_left' hversion]
  generalize hp : k.nDepth :: (k.vchFingerprint ++ (writeBE32 k.nChild ++ (k.vchChainCode
    ++ marker :: k.key.getSecret))) = p
  have hzero : p.getD 0 0 = k.nDepth := by rw [← hp]; rfl
  have hone : p.drop 1 = k.vchFingerprint ++ (writeBE32 k.nChild ++ (k.vchChainCode
      ++ marker :: k.key.getSecret)) := by rw [← hp]; rfl
  have hfive := drop_add_of_append hone h.fingerprint
  have hnine := drop_add_of_append hfive (n := 4) rfl
  have hkey : p.drop 42 = k.key.getSecret := drop_add_of_append (a := [marker])
    (drop_add_of_append hnine h.chainCode) rfl
  have hback : CKey.setSecret k.key.getSecret true = k.key := by
    rw [CKey.setSecret, CKey.getSecret, ofBE_toBE32 hbelow, ← h.compressed]
  rw [fields, hzero, hone, hfive, hnine, hkey, List.take_left' h.fingerprint, List.take_left' (i := 4) rfl,
    List.take_left' h.chainCode, List.take_of_length_le hsecret.le, readBE32_writeBE32, hback]

/-- The bytes that are read are those of the layout, with what stands in front of the key. -/
theorem layout_fields {v : Bytes} (h : v.length = 78) :
  layout (v.take 4) ((v.drop 4).getD 41 0) (fields (v.drop 4)) = v
  := by
  have hlength : (v.drop 4).length = 74 := by
    rw [List.length_drop, h]
  conv_rhs => rw [← List.take_append_drop 4 v]
  generalize v.drop 4 = p at hlength ⊢
  have hkey : (fields p).key.getSecret = p.drop 42 := by
    have hthirtyTwo : (p.drop 42).length = 32 := by rw [List.length_drop, hlength]
    rw [fields, CKey.setSecret, CKey.getSecret, List.take_of_length_le hthirtyTwo.le, toBE32_ofBE hthirtyTwo]
  have hmarker : p.getD 41 0 :: p.drop 42 = p.drop 41 := by
    rw [List.drop_eq_getElem_cons (show 41 < p.length by omega), List.getD_eq_getElem?_getD,
      List.getElem?_eq_getElem (show 41 < p.length by omega), Option.getD_some]
  have hchain : (fields p).vchChainCode ++ p.drop 41 = p.drop 9 := by
    have hdrop : p.drop 41 = (p.drop 9).drop 32 := by rw [List.drop_drop]
    rw [hdrop]
    exact List.take_append_drop 32 (p.drop 9)
  have hchild : writeBE32 (fields p).nChild ++ p.drop 9 = p.drop 5 := by
    have hfour : ((p.drop 5).take 4).length = 4 := by
      rw [List.length_take, List.length_drop, hlength]
      rfl
    have hdrop : p.drop 9 = (p.drop 5).drop 4 := by rw [List.drop_drop]
    rw [fields, writeBE32_readBE32 hfour, hdrop]
    exact List.take_append_drop 4 (p.drop 5)
  have hfingerprint : (fields p).vchFingerprint ++ p.drop 5 = p.drop 1 := by
    have hdrop : p.drop 5 = (p.drop 1).drop 4 := by rw [List.drop_drop]
    rw [hdrop]
    exact List.take_append_drop 4 (p.drop 1)
  have hdepth : (fields p).nDepth :: p.drop 1 = p := by
    cases p with
    | nil => simp at hlength
    | cons b p => rfl
  rw [layout, hkey, hmarker, hchain, hchild, hfingerprint, hdepth]

/-! ## Round trips -/

theorem setBase58_eq_some_iff (crypto : Crypto) {str : List Char} {k : CExtKey} {vchVersion : Bytes} :
  setBase58 crypto str = some (k, vchVersion)
    ↔ ∃ v, decodeBase58Check crypto str = some v ∧ v.length = 78 ∧ k = fields (v.drop 4)
      ∧ vchVersion = v.take 4
  := by
  rw [setBase58]
  cases hread : decodeBase58Check crypto str with
  | none => simp
  | some v =>
    dsimp only
    split_ifs with hlength
    · constructor
      · intro h
        cases h
      · rintro ⟨v', hv, hlength', -⟩
        cases hv
        exact absurd hlength' hlength
    · rw [Option.some.injEq, Prod.mk.injEq]
      constructor
      · rintro ⟨rfl, rfl⟩
        exact ⟨v, rfl, not_not.mp hlength, rfl, rfl⟩
      · rintro ⟨v', hv, -, rfl, rfl⟩
        cases hv
        exact ⟨rfl, rfl⟩

/-- A key that is written is read back. -/
theorem setBase58_toBase58 (crypto : Crypto) (h : k.Valid) (hversion : vchVersion.length = 4) :
  setBase58 crypto (k.toBase58 crypto vchVersion) = some (k, vchVersion)
  := by
  rw [setBase58_eq_some_iff]
  refine ⟨layout vchVersion 0x00 k, decodeBase58Check_encodeBase58Check crypto _,
    length_layout hversion h.fingerprint h.chainCode _, (fields_layout hversion h _).symm, ?_⟩
  rw [layout, List.take_left' hversion]

/-- A string that is read is the one that is written for what was read, unless it goes on after a zero
byte or has another byte than zero in front of the key. -/
theorem toBase58_eq_iff
    (crypto : Crypto) {str : List Char} {v : Bytes} (hread : decodeBase58Check crypto str = some v)
    (hlength : v.length = 78) :
  (fields (v.drop 4)).toBase58 crypto (v.take 4) = trimSpaces str
    ↔ '\x00' ∉ str ∧ (v.drop 4).getD 41 0 = 0
  := by
  constructor
  · intro hwritten
    have hnul : '\x00' ∉ str := by
      intro hmem
      have hkept := mem_trimSpaces hmem rfl
      rw [← hwritten] at hkept
      exact zero_notMem_encodeBase58 _ hkept
    have hstr := (@decodeBase58Check_eq_some_iff crypto ⟨str, hnul⟩ v).mp hread
    have hsame := congrArg (decodeBase58Check crypto) (hwritten.trans hstr)
    rw [toBase58, decodeBase58Check_encodeBase58Check, decodeBase58Check_encodeBase58Check,
      Option.some.injEq] at hsame
    have hboth := hsame.trans (layout_fields hlength).symm
    simp only [layout, List.append_cancel_left_eq, List.cons.injEq, true_and, and_true] at hboth
    exact ⟨hnul, hboth.symm⟩
  · rintro ⟨hnul, hmarker⟩
    have hstr := (@decodeBase58Check_eq_some_iff crypto ⟨str, hnul⟩ v).mp hread
    rw [hstr, toBase58, ← hmarker, layout_fields hlength]

theorem valid_fields_iff {v : Bytes} (h : v.length = 78) :
  (fields (v.drop 4)).Valid ↔ 0 < ofBE (v.drop 46) ∧ ofBE (v.drop 46) < SECP256K1_ORDER
  := by
  have hdrop : (v.drop 4).drop 42 = v.drop 46 := by rw [List.drop_drop]
  have hkey : (v.drop 46).take 32 = v.drop 46 := by
    apply List.take_of_length_le
    rw [List.length_drop, h]
  have hsecret : (fields (v.drop 4)).key.secret = ofBE (v.drop 46) := by
    rw [fields, hdrop, hkey]
    rfl
  rw [← hsecret]
  constructor
  · intro hvalid
    exact ⟨hvalid.positive, hvalid.below⟩
  · rintro ⟨hpositive, hbelow⟩
    refine ⟨?_, ?_, rfl, hpositive, hbelow⟩
    · rw [fields, List.length_take, List.length_drop, List.length_drop, h]
      rfl
    · rw [fields, List.length_take, List.length_drop, List.length_drop, h]
      rfl

/-- Extended keys as text: a valid key is read back from its text, and a text that is read is the one of
a valid key exactly when it does not go on after a zero byte, has a zero in front of the key, and holds a
key in the range of the group. -/
theorem extendedKeyText (crypto : Crypto) :
  (∀ (k : CExtKey) (vchVersion : Bytes), k.Valid → vchVersion.length = 4 →
      setBase58 crypto (k.toBase58 crypto vchVersion) = some (k, vchVersion))
    ∧ ∀ (str : List Char) (v : Bytes), decodeBase58Check crypto str = some v →
      (setBase58 crypto str).isSome = decide (v.length = 78)
        ∧ ∀ (k : CExtKey) (vchVersion : Bytes), setBase58 crypto str = some (k, vchVersion) →
          (k.toBase58 crypto vchVersion = trimSpaces str ∧ k.Valid
            ↔ '\x00' ∉ str ∧ v.getD 45 0 = 0 ∧ 0 < ofBE (v.drop 46) ∧ ofBE (v.drop 46) < SECP256K1_ORDER)
  := by
  refine ⟨fun k vchVersion h hversion => setBase58_toBase58 crypto h hversion, ?_⟩
  intro str v hread
  constructor
  · rw [setBase58, hread]
    dsimp only
    split_ifs with hlength
    · rw [decide_eq_false hlength, Option.isSome_none]
    · rw [decide_eq_true (not_not.mp hlength), Option.isSome_some]
  · intro k vchVersion hset
    obtain ⟨v', hread', hlength, rfl, rfl⟩ := (setBase58_eq_some_iff crypto).mp hset
    obtain rfl := Option.some.inj (hread.symm.trans hread')
    have hmarker : (v.drop 4).getD 41 0 = v.getD 45 0 := by
      rw [List.getD_eq_getElem?_getD, List.getElem?_drop, List.getD_eq_getElem?_getD]
    rw [toBase58_eq_iff crypto hread hlength, valid_fields_iff hlength, hmarker, and_assoc]

/-- A hardened child at the third level. -/
def sampleChildKey : CExtKey :=
  ⟨3, [0x5c, 0x1b, 0xd6, 0x48], 0x80000000, List.range' 100 32 |>.map UInt8.ofNat, ⟨2 ^ 255 + 3 ^ 99, true⟩⟩

theorem valid_sampleChildKey : sampleChildKey.Valid := ⟨rfl, rfl, rfl, by decide, by decide⟩

theorem extendedKeyText_sampleChildKey :
  setBase58 sampleCrypto (sampleChildKey.toBase58 sampleCrypto [4, 0x88, 0xad, 0xe4])
      = some (sampleChildKey, [4, 0x88, 0xad, 0xe4])
    ∧ sampleChildKey.toBase58 sampleCrypto [4, 0x88, 0xad, 0xe4]
      = trimSpaces (sampleChildKey.toBase58 sampleCrypto [4, 0x88, 0xad, 0xe4])
  := by
  obtain ⟨hwritten, hread⟩ := extendedKeyText sampleCrypto
  have hset := hwritten sampleChildKey [4, 0x88, 0xad, 0xe4] valid_sampleChildKey rfl
  have hpayload := decodeBase58Check_encodeBase58Check sampleCrypto (layout [4, 0x88, 0xad, 0xe4] 0 sampleChildKey)
  refine ⟨hset, (((hread _ _ hpayload).2 _ _ hset).mpr ⟨zero_notMem_encodeBase58 _, ?_, ?_, ?_⟩).1⟩
  · decide
  · decide
  · decide

/-- The text with another byte in front of the key is read as the same key, whose text it is not. -/
theorem extendedKeyText_marker :
  ¬∀ (str : List Char) (k : CExtKey) (vchVersion : Bytes),
    setBase58 sampleCrypto str = some (k, vchVersion) →
    k.toBase58 sampleCrypto vchVersion = trimSpaces str
  := by
  intro hall
  have hread := decodeBase58Check_encodeBase58Check sampleCrypto (layout [4, 0x88, 0xad, 0xe4] 1 sampleChildKey)
  have hlength : (layout [4, 0x88, 0xad, 0xe4] 1 sampleChildKey).length = 78 := length_layout rfl rfl rfl 1
  have hset := (setBase58_eq_some_iff sampleCrypto).mpr ⟨_, hread, hlength, rfl, rfl⟩
  have hmarker := ((toBase58_eq_iff sampleCrypto hread hlength).mp (hall _ _ _ hset)).2
  revert hmarker
  decide

end CExtKey

end CorgiCoin
