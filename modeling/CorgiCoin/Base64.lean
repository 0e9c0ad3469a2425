import CorgiCoin.Serialize
import CorgiCoin.Lib.Radix
import Mathlib.Data.List.GetD

/-!
# Base64 and base32

The writers and the readers of `util.cpp`, each a machine that keeps the bits of a group that is not
yet full.  Both pairs are the text of a `Radix`: the machines cut bytes into digits and digits into
bytes, and the endings that the readers admit are those of a text.
-/

namespace CorgiCoin

open Digits

/-! ## The machines -/

/-- The variables of a writer or a reader: how far its group is, the bits it keeps, and what it has put
out. -/
structure Coding (α : Type) where
  mode : ℕ := 0
  left : ℕ := 0
  ret : List α := []

def pbase64 : List Char := "ABCDEFGHIJKLMNOPQRSTUVWXYZabcdefghijklmnopqrstuvwxyz0123456789+/".toList

def base64Char (d : ℕ) : Char := pbase64.getD d '\x00'

def encodeBase64Step (s : Coding Char) (enc : ℕ) : Coding Char :=
  match s.mode with
  -- we have no bits
  | 0 => ⟨1, (enc &&& 3) <<< 4, s.ret ++ [base64Char (enc >>> 2)]⟩
  -- we have two bits
  | 1 => ⟨2, (enc &&& 15) <<< 2, s.ret ++ [base64Char (s.left ||| (enc >>> 4))]⟩
  -- we have four bits
  | 2 => ⟨0, s.left, s.ret ++ [base64Char (s.left ||| (enc >>> 6)), base64Char (enc &&& 63)]⟩
  | _ => s

def encodeBase64 (pch : Bytes) : List Char :=
  let s := pch.foldl (fun s b => encodeBase64Step s b.toNat) {}
  if s.mode ≠ 0 then
    s.ret ++ [base64Char s.left] ++ ['='] ++ if s.mode = 1 then ['='] else []
  else s.ret

def decode64Table : List ℤ := [
  -1, -1, -1, -1, -1, -1, -1, -1, -1, -1, -1, -1, -1, -1, -1, -1, -1, -1, -1, -1,
  -1, -1, -1, -1, -1, -1, -1, -1, -1, -1, -1, -1, -1, -1, -1, -1, -1, -1, -1, -1,
  -1, -1, -1, 62, -1, -1, -1, 63, 52, 53, 54, 55, 56, 57, 58, 59, 60, 61, -1, -1,
  -1, -1, -1, -1, -1,  0,  1,  2,  3,  4,  5,  6,  7,  8,  9, 10, 11, 12, 13, 14,
  15, 16, 17, 18, 19, 20, 21, 22, 23, 24, 25, -1, -1, -1, -1, -1, -1, 26, 27, 28,
  29, 30, 31, 32, 33, 34, 35, 36, 37, 38, 39, 40, 41, 42, 43, 44, 45, 46, 47, 48,
  49, 50, 51, -1, -1, -1, -1, -1, -1, -1, -1, -1, -1, -1, -1, -1, -1, -1, -1, -1,
  -1, -1, -1, -1, -1, -1, -1, -1, -1, -1, -1, -1, -1, -1, -1, -1, -1, -1, -1, -1,
  -1, -1, -1, -1, -1, -1, -1, -1, -1, -1, -1, -1, -1, -1, -1, -1, -1, -1, -1, -1,
  -1, -1, -1, -1, -1, -1, -1, -1, -1, -1, -1, -1, -1, -1, -1, -1, -1, -1, -1, -1,
  -1, -1, -1, -1, -1, -1, -1, -1, -1, -1, -1, -1, -1, -1, -1, -1, -1, -1, -1, -1,
  -1, -1, -1, -1, -1, -1, -1, -1, -1, -1, -1, -1, -1, -1, -1, -1, -1, -1, -1, -1,
  -1, -1, -1, -1, -1, -1, -1, -1, -1, -1, -1, -1, -1, -1, -1, -1]

/-- The entry of a table at a character; nothing is for `-1`. -/
def tableDigit (table : List ℤ) (c : Char) : Option ℕ :=
  let dec := table.getD c.toNat (-1)
  if dec = -1 then none else some dec.toNat

/-- The loop of the readers: it stops at the first character that the table does not have, and leaves
what follows. -/
def decodeLoop (digit : Char → Option ℕ) (step : Coding UInt8 → ℕ → Coding UInt8) :
    List Char → Coding UInt8 → Coding UInt8 × List Char
  | [], s => (s, [])
  | c :: p, s =>
    match digit c with
    | none => (s, c :: p)
    | some dec => decodeLoop digit step p (step s dec)

/-- `p[0] != '=' || … || p[n-1] != '=' || table[p[n]] != -1`; the string ends in a zero. -/
def badPadding (digit : Char → Option ℕ) (p : List Char) (n : ℕ) : Bool :=
  (List.range n).any (fun i => p.getD i '\x00' != '=') || (digit (p.getD n '\x00')).isSome

def decode64Digit : Char → Option ℕ := tableDigit decode64Table

def decodeBase64Step (s : Coding UInt8) (dec : ℕ) : Coding UInt8 :=
  match s.mode with
  -- we have no bits and get 6
  | 0 => ⟨1, dec, s.ret⟩
  -- we have 6 bits and keep 4
  | 1 => ⟨2, dec &&& 15, s.ret ++ [UInt8.ofNat (s.left <<< 2 ||| dec >>> 4)]⟩
  -- we have 4 bits and get 6, we keep 2
  | 2 => ⟨3, dec &&& 3, s.ret ++ [UInt8.ofNat (s.left <<< 4 ||| dec >>> 2)]⟩
  -- we have 2 bits and get 6
  | 3 => ⟨0, s.left, s.ret ++ [UInt8.ofNat (s.left <<< 6 ||| dec)]⟩
  | _ => s

/-- What `pfInvalid` is set to, from where the loop of `DecodeBase64` stopped. -/
def invalidBase64 (s : Coding UInt8) (p : List Char) : Bool :=
  match s.mode with
  | 0 => false
  | 1 => true
  | 2 => s.left != 0 || badPadding decode64Digit p 2
  | 3 => s.left != 0 || badPadding decode64Digit p 1
  | _ => false

/-- The bytes and `pfInvalid`. -/
def decodeBase64 (p : List Char) : Bytes × Bool :=
  let (s, p) := decodeLoop decode64Digit decodeBase64Step p {}
  (s.ret, invalidBase64 s p)

def pbase32 : List Char := "abcdefghijklmnopqrstuvwxyz234567".toList

def base32Char (d : ℕ) : Char := pbase32.getD d '\x00'

def encodeBase32Step (s : Coding Char) (enc : ℕ) : Coding Char :=
  match s.mode with
  -- we have no bits
  | 0 => ⟨1, (enc &&& 7) <<< 2, s.ret ++ [base32Char (enc >>> 3)]⟩
  -- we have three bits
  | 1 =>
    ⟨2, (enc &&& 1) <<< 4, s.ret ++
      [base32Char (s.left ||| (enc >>> 6)), base32Char ((enc >>> 1) &&& 31)]⟩
  -- we have one bit
  | 2 => ⟨3, (enc &&& 15) <<< 1, s.ret ++ [base32Char (s.left ||| (enc >>> 4))]⟩
  -- we have four bits
  | 3 =>
    ⟨4, (enc &&& 3) <<< 3, s.ret ++
      [base32Char (s.left ||| (enc >>> 7)), base32Char ((enc >>> 2) &&& 31)]⟩
  -- we have two bits
  | 4 => ⟨0, s.left, s.ret ++ [base32Char (s.left ||| (enc >>> 5)), base32Char (enc &&& 31)]⟩
  | _ => s

def nPadding : List ℕ := [0, 6, 4, 3, 1]

def encodeBase32 (pch : Bytes) : List Char :=
  let s := pch.foldl (fun s b => encodeBase32Step s b.toNat) {}
  if s.mode ≠ 0 then
    s.ret ++ [base32Char s.left] ++ List.replicate (nPadding.getD s.mode 0) '='
  else s.ret

def decode32Table : List ℤ := [
  -1, -1, -1, -1, -1, -1, -1, -1, -1, -1, -1, -1, -1, -1, -1, -1, -1, -1, -1, -1,
  -1, -1, -1, -1, -1, -1, -1, -1, -1, -1, -1, -1, -1, -1, -1, -1, -1, -1, -1, -1,
  -1, -1, -1, -1, -1, -1, -1, -1, -1, -1, 26, 27, 28, 29, 30, 31, -1, -1, -1, -1,
  -1, -1, -1, -1, -1,  0,  1,  2,  3,  4,  5,  6,  7,  8,  9, 10, 11, 12, 13, 14,
  15, 16, 17, 18, 19, 20, 21, 22, 23, 24, 25, -1, -1, -1, -1, -1, -1,  0,  1,  2,
   3,  4,  5,  6,  7,  8,  9, 10, 11, 12, 13, 14, 15, 16, 17, 18, 19, 20, 21, 22,
  23, 24, 25, -1, -1, -1, -1, -1, -1, -1, -1, -1, -1, -1, -1, -1, -1, -1, -1, -1,
  -1, -1, -1, -1, -1, -1, -1, -1, -1, -1, -1, -1, -1, -1, -1, -1, -1, -1, -1, -1,
  -1, -1, -1, -1, -1, -1, -1, -1, -1, -1, -1, -1, -1, -1, -1, -1, -1, -1, -1, -1,
  -1, -1, -1, -1, -1, -1, -1, -1, -1, -1, -1, -1, -1, -1, -1, -1, -1, -1, -1, -1,
  -1, -1, -1, -1, -1, -1, -1, -1, -1, -1, -1, -1, -1, -1, -1, -1, -1, -1, -1, -1,
  -1, -1, -1, -1, -1, -1, -1, -1, -1, -1, -1, -1, -1, -1, -1, -1, -1, -1, -1, -1,
  -1, -1, -1, -1, -1, -1, -1, -1, -1, -1, -1, -1, -1, -1, -1, -1]

def decode32Digit : Char → Option ℕ := tableDigit decode32Table

def decodeBase32Step (s : Coding UInt8) (dec : ℕ) : Coding UInt8 :=
  match s.mode with
  -- we have no bits and get 5
  | 0 => ⟨1, dec, s.ret⟩
  -- we have 5 bits and keep 2
  | 1 => ⟨2, dec &&& 3, s.ret ++ [UInt8.ofNat (s.left <<< 3 ||| dec >>> 2)]⟩
  -- we have 2 bits and keep 7
  | 2 => ⟨3, s.left <<< 5 ||| dec, s.ret⟩
  -- we have 7 bits and keep 4
  | 3 => ⟨4, dec &&& 15, s.ret ++ [UInt8.ofNat (s.left <<< 1 ||| dec >>> 4)]⟩
  -- we have 4 bits, and keep 1
  | 4 => ⟨5, dec &&& 1, s.ret ++ [UInt8.ofNat (s.left <<< 4 ||| dec >>> 1)]⟩
  -- we have 1 bit, and keep 6
  | 5 => ⟨6, s.left <<< 5 ||| dec, s.ret⟩
  -- we have 6 bits, and keep 3
  | 6 => ⟨7, dec &&& 7, s.ret ++ [UInt8.ofNat (s.left <<< 2 ||| dec >>> 3)]⟩
  -- we have 3 bits, and keep 0
  | 7 => ⟨0, s.left, s.ret ++ [UInt8.ofNat (s.left <<< 5 ||| dec)]⟩
  | _ => s

/-- What `pfInvalid` is set to, from where the loop of `DecodeBase32` stopped. -/
def invalidBase32 (s : Coding UInt8) (p : List Char) : Bool :=
  match s.mode with
  | 0 => false
  | 1 | 3 | 6 => true
  | 2 => s.left != 0 || badPadding decode32Digit p 6
  | 4 => s.left != 0 || badPadding decode32Digit p 4
  | 5 => s.left != 0 || badPadding decode32Digit p 3
  | 7 => s.left != 0 || badPadding decode32Digit p 1
  | _ => false

/-- The bytes and `pfInvalid`. -/
def decodeBase32 (p : List Char) : Bytes × Bool :=
  let (s, p) := decodeLoop decode32Digit decodeBase32Step p {}
  (s.ret, invalidBase32 s p)

/-! ## The alphabets -/

/-- What is said of the digits of a table is said of its entries. -/
theorem forall_tableDigit
    {table : List ℤ} {P : Char → ℕ → Prop}
    (h : ∀ x ∈ table.zipIdx, x.1 = -1 ∨ P (Char.ofNat x.2) x.1.toNat)
    (c : Char) (d : ℕ) (hd : tableDigit table c = some d) :
  P c d
  := by
  rw [tableDigit, List.getD_eq_getElem?_getD] at hd
  cases hdec : table[c.toNat]? with
  | none =>
    rw [hdec] at hd
    cases hd
  | some dec =>
    rw [hdec, Option.getD_some] at hd
    split_ifs at hd with hneg
    obtain rfl := Option.some.inj hd
    have hentry := h (dec, c.toNat) (List.mem_zipIdx_iff_getElem?.mpr hdec)
    rw [Char.ofNat_toNat] at hentry
    apply hentry.resolve_left hneg

theorem toLower_of_not {c : Char} (h : ¬(65 ≤ c.toNat ∧ c.toNat < 91)) : c.toLower = c
  := by
  delta Char.toLower
  rw [dif_neg]
  rintro ⟨hge, hle⟩
  have hlow : 65 ≤ c.toNat := UInt32.le_iff_toNat_le.mp hge
  have hhigh : c.toNat ≤ 90 := UInt32.le_iff_toNat_le.mp hle
  omega

/-- What holds of the capital letters, and of a character that is its own lower case, holds of every
character. -/
theorem forall_toLower
    {P : Char → Char → Prop} (hletter : ∀ n < 26, P (Char.ofNat (n + 65)) (Char.ofNat (n + 65)).toLower)
    (hself : ∀ c, P c c) (c : Char) :
  P c c.toLower
  := by
  rcases em (65 ≤ c.toNat ∧ c.toNat < 91) with hc | hc
  · have hn := hletter (c.toNat - 65) (by omega)
    rw [Nat.sub_add_cancel hc.1, Char.ofNat_toNat] at hn
    apply hn
  · rw [toLower_of_not hc]
    apply hself

variable {d : ℕ}

/-- The characters of an alphabet are read as their positions. -/
theorem digit_getD
    {digit : Char → Option ℕ} {alphabet : List Char} (a : Char)
    (h : ∀ x ∈ alphabet.zipIdx, digit x.1 = some x.2) (hd : d < alphabet.length) :
  digit (alphabet.getD d a) = some d
  := by
  rw [List.getD_eq_getElem _ _ hd]
  apply h (alphabet[d], d)
  rw [List.mem_zipIdx_iff_getElem?, List.getElem?_eq_getElem hd]

theorem length_pbase64 : pbase64.length = 2 ^ 6 := by decide

theorem length_pbase32 : pbase32.length = 2 ^ 5 := by decide

def radix64 : Radix 6 where
  char := base64Char
  digit := decode64Digit
  fold := id
  padding n := (3 - n % 3) % 3
  digit_char d hd := digit_getD _ (by decide) (length_pbase64.symm ▸ hd)
  digit_fold _ := rfl
  digit_lt := forall_tableDigit (by decide +kernel)
  fold_eq := forall_tableDigit (by decide +kernel)
  fold_pad _ := Iff.rfl
  digit_pad := by decide

theorem decode32Digit_toLower (c : Char) : decode32Digit c.toLower = decode32Digit c
  := by
  apply @forall_toLower (fun c d => decode32Digit d = decode32Digit c)
  · decide
  · intro c
    rfl

theorem toLower_eq_pad (c : Char) : c.toLower = '=' ↔ c = '='
  := by
  apply @forall_toLower (fun c d => d = '=' ↔ c = '=')
  · decide
  · intro c
    rfl

def radix32 : Radix 5 where
  char := base32Char
  digit := decode32Digit
  fold := Char.toLower
  padding n := nPadding.getD (n % 5) 0
  digit_char d hd := digit_getD _ (by decide) (length_pbase32.symm ▸ hd)
  digit_fold := decode32Digit_toLower
  digit_lt := forall_tableDigit (by decide +kernel)
  fold_eq := forall_tableDigit (by decide +kernel)
  fold_pad := toLower_eq_pad
  digit_pad := by decide

/-! ## Readers -/

variable {w : ℕ}

theorem decodeLoop_eq
    (R : Radix w) (step : Coding UInt8 → ℕ → Coding UInt8) (p : List Char) (s : Coding UInt8) :
  decodeLoop R.digit step p s = ((R.digits p).1.foldl step s, (R.digits p).2)
  := by
  induction p generalizing s with
  | nil => rfl
  | cons c p ih =>
    rw [decodeLoop, Radix.digits]
    cases R.digit c with
    | none => rfl
    | some d => apply ih

/-- The padding is there exactly if as many `=` come first, and no digit after them. -/
theorem badPadding_eq_false_iff
    (R : Radix w) (hzero : R.digit '\x00' = none) (p : List Char) (n : ℕ) :
  badPadding R.digit p n = false ↔ ∃ rest, p = List.replicate n '=' ++ rest ∧ R.Ends rest
  := by
  rw [badPadding, Bool.or_eq_false_iff, List.any_eq_false, Option.isSome_eq_false_iff,
    Option.isNone_iff_eq_none]
  constructor
  · rintro ⟨heqs, hend⟩
    have heqs : ∀ i < n, p.getD i '\x00' = '=' := by
      intro i hi
      simpa using heqs i (List.mem_range.mpr hi)
    refine ⟨p.drop n, ?_, ?_⟩
    · apply List.ext_getElem?
      intro i
      rcases Nat.lt_or_ge i n with hi | hi
      · have heq := heqs i hi
        rw [List.getElem?_append_left (by rw [List.length_replicate]; apply hi),
          List.getElem?_replicate_of_lt hi]
        rw [List.getD_eq_getElem?_getD] at heq
        cases hp : p[i]? with
        | none =>
          rw [hp] at heq
          cases heq
        | some c =>
          rw [hp, Option.getD_some] at heq
          rw [heq]
      · rw [List.getElem?_append_right (by rw [List.length_replicate]; apply hi),
          List.length_replicate, List.getElem?_drop, Nat.add_sub_of_le hi]
    · intro c hc
      rw [List.head?_drop] at hc
      rw [List.getD_eq_getElem?_getD, Option.mem_def.mp hc] at hend
      apply hend
  · rintro ⟨rest, rfl, hrest⟩
    constructor
    · intro i hi
      have hi := List.mem_range.mp hi
      rw [List.getD_append _ _ _ _ (by rw [List.length_replicate]; apply hi), List.getD_replicate _ hi]
      decide
    · rw [List.getD_append_right _ _ _ _ (by rw [List.length_replicate]), List.length_replicate,
        Nat.sub_self]
      cases rest with
      | nil => apply hzero
      | cons c rest => apply hrest c rfl

/-- The bytes of a reader are cut from the digits it has read, and the bits of its mode are left. -/
structure Decoding (w modes : ℕ) (bits : ℕ → ℕ) (ds : List ℕ) (s : Coding UInt8) : Prop where
  mode_lt : s.mode < modes
  cut : Cut w 8 ds (s.ret.map UInt8.toNat) (bits s.mode) (if s.mode = 0 then 0 else s.left)

section Decoding

variable {w : ℕ} {ds : List ℕ} {ret : Bytes} {bits left d : ℕ}

theorem map_toNat_concat {x : ℕ} (h : x < 256) :
  (ret ++ [UInt8.ofNat x]).map UInt8.toNat = ret.map UInt8.toNat ++ [x]
  := by
  rw [List.map_append, List.map_singleton, UInt8.toNat_ofNat_of_lt' h]

/-- A byte is put out and the lower bits of the digit are kept. -/
theorem cut_pushByte
    (h : Cut w 8 ds (ret.map UInt8.toNat) bits left) (hd : d < 2 ^ w) (i j : ℕ) (hbits : bits + i = 8)
    (hw : i + j = w) :
  Cut w 8 (ds ++ [d]) ((ret ++ [UInt8.ofNat (left <<< i ||| d >>> j)]).map UInt8.toNat) j
    (d &&& 2 ^ j - 1)
  := by
  have hcut := h.emit hd hbits hw
  have hlt := hcut.right_lt _ (List.mem_append_right _ (List.mem_singleton_self _))
  rw [map_toNat_concat hlt]
  apply hcut

/-- A byte is put out and no bit is kept. -/
theorem cut_lastByte
    (h : Cut w 8 ds (ret.map UInt8.toNat) bits left) (hd : d < 2 ^ w) (hbits : bits + w = 8) :
  Cut w 8 (ds ++ [d]) ((ret ++ [UInt8.ofNat (left <<< w ||| d)]).map UInt8.toNat) 0 0
  := by
  have hcut := cut_pushByte h hd w 0 hbits rfl
  rw [pow_zero, Nat.sub_self, Nat.and_zero] at hcut
  apply hcut

end Decoding

/-- The number of bits that `DecodeBase64` keeps. -/
def decode64Bits (mode : ℕ) : ℕ := [0, 6, 4, 2].getD mode 0

variable {s : Coding UInt8} {ds : List ℕ}

theorem decodeBase64Step_spec
    (h : Decoding 6 4 decode64Bits ds s) (hd : d < 2 ^ 6) :
  Decoding 6 4 decode64Bits (ds ++ [d]) (decodeBase64Step s d)
  := by
  obtain ⟨mode, left, ret⟩ := s
  obtain ⟨hmode, h⟩ := h
  match mode, hmode with
  | 0, _ =>
    refine ⟨(by decide : 1 < 4), ?_⟩
    have hcut := h.concat hd
    simpa [decodeBase64Step, decode64Bits] using hcut
  | 1, _ => exact ⟨(by decide : 2 < 4), cut_pushByte h hd 2 4 rfl rfl⟩
  | 2, _ => exact ⟨(by decide : 3 < 4), cut_pushByte h hd 4 2 rfl rfl⟩
  | 3, _ => exact ⟨(by decide : 0 < 4), cut_lastByte h hd rfl⟩

/-- The number of bits that `DecodeBase32` keeps. -/
def decode32Bits (mode : ℕ) : ℕ := [0, 5, 2, 7, 4, 1, 6, 3].getD mode 0

theorem decodeBase32Step_spec
    (h : Decoding 5 8 decode32Bits ds s) (hd : d < 2 ^ 5) :
  Decoding 5 8 decode32Bits (ds ++ [d]) (decodeBase32Step s d)
  := by
  obtain ⟨mode, left, ret⟩ := s
  obtain ⟨hmode, h⟩ := h
  match mode, hmode with
  | 0, _ =>
    refine ⟨(by decide : 1 < 8), ?_⟩
    have hcut := h.concat hd
    simpa [decodeBase32Step, decode32Bits] using hcut
  | 1, _ => exact ⟨(by decide : 2 < 8), cut_pushByte h hd 3 2 rfl rfl⟩
  | 2, _ => exact ⟨(by decide : 3 < 8), h.keep hd⟩
  | 3, _ => exact ⟨(by decide : 4 < 8), cut_pushByte h hd 1 4 rfl rfl⟩
  | 4, _ => exact ⟨(by decide : 5 < 8), cut_pushByte h hd 4 1 rfl rfl⟩
  | 5, _ => exact ⟨(by decide : 6 < 8), h.keep hd⟩
  | 6, _ => exact ⟨(by decide : 7 < 8), cut_pushByte h hd 2 3 rfl rfl⟩
  | 7, _ => exact ⟨(by decide : 0 < 8), cut_lastByte h hd rfl⟩

variable {modes : ℕ} {bits : ℕ → ℕ}

/-- The steps of a reader keep what one step keeps. -/
theorem decoding_foldl
    {step : Coding UInt8 → ℕ → Coding UInt8} (hbits : bits 0 = 0) (hmodes : 0 < modes)
    (hstep : ∀ {ds s d}, Decoding w modes bits ds s → d < 2 ^ w →
      Decoding w modes bits (ds ++ [d]) (step s d))
    (hds : ∀ d ∈ ds, d < 2 ^ w) :
  Decoding w modes bits ds (ds.foldl step {})
  := by
  induction ds using List.reverseRecOn with
  | nil =>
    refine ⟨hmodes, ?_⟩
    rw [List.foldl_nil, hbits]
    apply Cut.nil
  | append_singleton ds d ih =>
    rw [List.foldl_append]
    have hds := List.forall_mem_append.mp hds
    apply hstep (ih hds.1)
    apply hds.2 d (List.mem_singleton_self d)

variable {p : List Char}

/-- A mode in which the bits left are no digit asks for them to be zero and for the padding. -/
theorem ending_eq_false_iff
    (R : Radix w) (hzero : R.digit '\x00' = none) {left n length bits : ℕ}
    (hbits : bits < w) (hn : R.padding length = n) :
  (left != 0 || badPadding R.digit p n) = false ↔ bits < w ∧ left = 0 ∧
    ∃ rest, p = List.replicate (R.padding length) '=' ++ rest ∧ R.Ends rest
  := by
  rw [Bool.or_eq_false_iff, bne_eq_false_iff_eq, badPadding_eq_false_iff R hzero, hn]
  constructor
  · rintro ⟨hleft, hrest⟩
    exact ⟨hbits, hleft, hrest⟩
  · rintro ⟨_, hleft, hrest⟩
    exact ⟨hleft, hrest⟩

theorem invalidBase64_eq_false_iff
    (h : Decoding 6 4 decode64Bits ds s) (hp : radix64.Ends p) :
  invalidBase64 s p = false ↔ decode64Bits s.mode < 6 ∧ (if s.mode = 0 then 0 else s.left) = 0 ∧
    ∃ rest, p = List.replicate (radix64.padding s.ret.length) '=' ++ rest ∧ radix64.Ends rest
  := by
  obtain ⟨mode, left, ret⟩ := s
  obtain ⟨hmode, h⟩ := h
  have hlength := h.length
  rw [List.length_map] at hlength
  have hzero : radix64.digit '\x00' = none := by decide
  match mode, hmode with
  | 0, _ =>
    have hpad : radix64.padding ret.length = 0 := by
      change 6 * ds.length = 8 * ret.length + 0 at hlength
      change (3 - ret.length % 3) % 3 = 0
      omega
    rw [hpad]
    apply iff_of_true rfl ⟨(by decide : 0 < 6), rfl, p, rfl, hp⟩
  | 1, _ =>
    apply iff_of_false Bool.noConfusion
    rintro ⟨hlt, _⟩
    exact absurd hlt (by decide : ¬ 6 < 6)
  | 2, _ =>
    apply ending_eq_false_iff radix64 hzero (by decide : 4 < 6)
    change 6 * ds.length = 8 * ret.length + 4 at hlength
    change (3 - ret.length % 3) % 3 = 2
    omega
  | 3, _ =>
    apply ending_eq_false_iff radix64 hzero (by decide : 2 < 6)
    change 6 * ds.length = 8 * ret.length + 2 at hlength
    change (3 - ret.length % 3) % 3 = 1
    omega

theorem invalidBase32_eq_false_iff
    (h : Decoding 5 8 decode32Bits ds s) (hp : radix32.Ends p) :
  invalidBase32 s p = false ↔ decode32Bits s.mode < 5 ∧ (if s.mode = 0 then 0 else s.left) = 0 ∧
    ∃ rest, p = List.replicate (radix32.padding s.ret.length) '=' ++ rest ∧ radix32.Ends rest
  := by
  obtain ⟨mode, left, ret⟩ := s
  obtain ⟨hmode, h⟩ := h
  have hlength := h.length
  rw [List.length_map] at hlength
  have hzero : radix32.digit '\x00' = none := by decide
  have hpad {m : ℕ} (hm : ret.length % 5 = m) : radix32.padding ret.length = nPadding.getD m 0 :=
    congrArg (nPadding.getD · 0) hm
  match mode, hmode with
  | 0, _ =>
    change 5 * ds.length = 8 * ret.length + 0 at hlength
    have hpad : radix32.padding ret.length = 0 := hpad (by omega : ret.length % 5 = 0)
    rw [hpad]
    apply iff_of_true rfl ⟨(by decide : 0 < 5), rfl, p, rfl, hp⟩
  | 1, _ =>
    apply iff_of_false Bool.noConfusion
    rintro ⟨hlt, _⟩
    exact absurd hlt (by decide : ¬ 5 < 5)
  | 2, _ =>
    change 5 * ds.length = 8 * ret.length + 2 at hlength
    exact ending_eq_false_iff radix32 hzero (by decide : 2 < 5) (hpad (by omega : _ % 5 = 1))
  | 3, _ =>
    apply iff_of_false Bool.noConfusion
    rintro ⟨hlt, _⟩
    exact absurd hlt (by decide : ¬ 7 < 5)
  | 4, _ =>
    change 5 * ds.length = 8 * ret.length + 4 at hlength
    exact ending_eq_false_iff radix32 hzero (by decide : 4 < 5) (hpad (by omega : _ % 5 = 2))
  | 5, _ =>
    change 5 * ds.length = 8 * ret.length + 1 at hlength
    exact ending_eq_false_iff radix32 hzero (by decide : 1 < 5) (hpad (by omega : _ % 5 = 3))
  | 6, _ =>
    apply iff_of_false Bool.noConfusion
    rintro ⟨hlt, _⟩
    exact absurd hlt (by decide : ¬ 6 < 5)
  | 7, _ =>
    change 5 * ds.length = 8 * ret.length + 3 at hlength
    exact ending_eq_false_iff radix32 hzero (by decide : 3 < 5) (hpad (by omega : _ % 5 = 4))

theorem decode64Bits_lt {mode : ℕ} (h : mode < 4) : decode64Bits mode < 8
  := by
  revert mode
  decide

theorem decode32Bits_lt {mode : ℕ} (h : mode < 8) : decode32Bits mode < 8
  := by
  revert mode
  decide

theorem decodeBase64_reads (p : List Char) : radix64.Reads p (decodeBase64 p)
  := by
  rw [decodeBase64, show decode64Digit = radix64.digit from rfl, decodeLoop_eq]
  have h : Decoding 6 4 decode64Bits (radix64.digits p).1 _ :=
    decoding_foldl rfl (by decide) decodeBase64Step_spec (fun _ hd => radix64.digits_lt hd)
  exact ⟨_, _, decode64Bits_lt h.mode_lt, h.cut, invalidBase64_eq_false_iff h (radix64.ends_digits p)⟩

theorem decodeBase32_reads (p : List Char) : radix32.Reads p (decodeBase32 p)
  := by
  rw [decodeBase32, show decode32Digit = radix32.digit from rfl, decodeLoop_eq]
  have h : Decoding 5 8 decode32Bits (radix32.digits p).1 _ :=
    decoding_foldl rfl (by decide) decodeBase32Step_spec (fun _ hd => radix32.digits_lt hd)
  exact ⟨_, _, decode32Bits_lt h.mode_lt, h.cut, invalidBase32_eq_false_iff h (radix32.ends_digits p)⟩

/-! ## Writers -/

/-- The characters of a writer are the digits cut from the bytes it has been given, and the bits of its
mode are left, in front of the zeros of a digit. -/
def Encoded {w : ℕ} (R : Radix w) (modes : ℕ) (bits : ℕ → ℕ) (v : Bytes) (s : Coding Char) : Prop :=
  s.mode < modes ∧ ∃ es rest, s.ret = es.map R.char ∧
    Cut 8 w (v.map UInt8.toNat) es (bits s.mode) rest ∧
    (s.mode ≠ 0 → s.left = rest <<< (w - bits s.mode))

/-- The number of bits that `EncodeBase64` keeps. -/
def encode64Bits (mode : ℕ) : ℕ := [0, 2, 4].getD mode 0

variable {R : Radix w}

theorem map_char_concat {ret : List Char} {es : List ℕ} (h : ret = es.map R.char)
    (fs : List ℕ) :
  ret ++ fs.map R.char = (es ++ fs).map R.char
  := by
  rw [List.map_append, h]

variable {v : Bytes}

theorem encodeBase64Step_spec
    {s : Coding Char} (h : Encoded radix64 3 encode64Bits v s) (b : UInt8) :
  Encoded radix64 3 encode64Bits (v ++ [b]) (encodeBase64Step s b.toNat)
  := by
  have hb : b.toNat < 2 ^ 8 := b.toNat_lt
  obtain ⟨mode, left, ret⟩ := s
  obtain ⟨hmode, es, rest, hret, hcut, hleft⟩ := h
  dsimp only at hret
  rw [Encoded, List.map_append]
  match mode, hmode with
  | 0, _ =>
    have hrest : rest = 0 := Nat.lt_one_iff.mp hcut.rest_lt
    have hnext : Cut 8 6 _ _ 2 _ := hcut.emit hb (i := 6) (j := 2) rfl rfl
    rw [hrest, Nat.zero_shiftLeft, Nat.zero_or] at hnext
    exact ⟨(by decide : 1 < 3), _, _, map_char_concat hret [_], hnext, fun _ => rfl⟩
  | 1, _ =>
    obtain rfl : left = rest <<< 4 := hleft Nat.one_ne_zero
    exact ⟨(by decide : 2 < 3), _, _, map_char_concat hret [_], hcut.emit hb rfl rfl, fun _ => rfl⟩
  | 2, _ =>
    obtain rfl : left = rest <<< 2 := hleft (OfNat.ofNat_ne_zero 2)
    have hnext : Cut 8 6 _ _ 0 _ := hcut.emit_two hb (i := 2) (j := 0) rfl rfl
    exact ⟨(by decide : 0 < 3), _, _, map_char_concat hret [_, _], hnext, fun h => absurd rfl h⟩

/-- The number of bits that `EncodeBase32` keeps. -/
def encode32Bits (mode : ℕ) : ℕ := [0, 3, 1, 4, 2].getD mode 0

theorem encodeBase32Step_spec
    {s : Coding Char} (h : Encoded radix32 5 encode32Bits v s) (b : UInt8) :
  Encoded radix32 5 encode32Bits (v ++ [b]) (encodeBase32Step s b.toNat)
  := by
  have hb : b.toNat < 2 ^ 8 := b.toNat_lt
  obtain ⟨mode, left, ret⟩ := s
  obtain ⟨hmode, es, rest, hret, hcut, hleft⟩ := h
  dsimp only at hret
  rw [Encoded, List.map_append]
  match mode, hmode with
  | 0, _ =>
    have hrest : rest = 0 := Nat.lt_one_iff.mp hcut.rest_lt
    have hnext : Cut 8 5 _ _ 3 _ := hcut.emit hb (i := 5) (j := 3) rfl rfl
    rw [hrest, Nat.zero_shiftLeft, Nat.zero_or] at hnext
    exact ⟨(by decide : 1 < 5), _, _, map_char_concat hret [_], hnext, fun _ => rfl⟩
  | 1, _ =>
    obtain rfl : left = rest <<< 2 := hleft Nat.one_ne_zero
    have hnext : Cut 8 5 _ _ 1 _ := hcut.emit_two hb (i := 2) (j := 1) rfl rfl
    exact ⟨(by decide : 2 < 5), _, _, map_char_concat hret [_, _], hnext, fun _ => rfl⟩
  | 2, _ =>
    obtain rfl : left = rest <<< 4 := hleft (OfNat.ofNat_ne_zero 2)
    exact ⟨(by decide : 3 < 5), _, _, map_char_concat hret [_], hcut.emit hb rfl rfl, fun _ => rfl⟩
  | 3, _ =>
    obtain rfl : left = rest <<< 1 := hleft (OfNat.ofNat_ne_zero 3)
    have hnext : Cut 8 5 _ _ 2 _ := hcut.emit_two hb (i := 1) (j := 2) rfl rfl
    exact ⟨(by decide : 4 < 5), _, _, map_char_concat hret [_, _], hnext, fun _ => rfl⟩
  | 4, _ =>
    obtain rfl : left = rest <<< 3 := hleft (OfNat.ofNat_ne_zero 4)
    have hnext : Cut 8 5 _ _ 0 _ := hcut.emit_two hb (i := 3) (j := 0) rfl rfl
    exact ⟨(by decide : 0 < 5), _, _, map_char_concat hret [_, _], hnext, fun h => absurd rfl h⟩

/-- The steps of a writer keep what one step keeps. -/
theorem encoding_foldl
    {step : Coding Char → ℕ → Coding Char} (hbits : bits 0 = 0) (hmodes : 0 < modes)
    (hstep : ∀ {v s}, Encoded R modes bits v s → ∀ b : UInt8,
      Encoded R modes bits (v ++ [b]) (step s b.toNat))
    (v : Bytes) :
  Encoded R modes bits v (v.foldl (fun s b => step s b.toNat) {})
  := by
  induction v using List.reverseRecOn with
  | nil =>
    refine ⟨hmodes, [], 0, rfl, ?_, fun h => absurd rfl h⟩
    rw [List.foldl_nil, hbits]
    apply Cut.nil
  | append_singleton v b ih =>
    rw [List.foldl_append]
    apply hstep ih

/-- A writer that keeps no bits has put out the digits of a text. -/
theorem isText_of_mode_eq_zero
    {s : Coding Char} (hw : 0 < w)
    (hbits : bits 0 = 0) (h : Encoded R modes bits v s) (hmode : s.mode = 0)
    (hpad : R.padding v.length = 0) :
  R.IsText v s.ret
  := by
  obtain ⟨_, es, rest, hret, hcut, _⟩ := h
  rw [hmode, hbits] at hcut
  obtain rfl : rest = 0 := Nat.lt_one_iff.mp hcut.rest_lt
  refine ⟨es, 0, hw, hcut.symm, ?_⟩
  rw [hpad, List.replicate_zero, List.append_nil, hret]

/-- A writer that keeps bits puts them out as the last digit of a text. -/
theorem isText_of_mode_ne_zero
    {s : Coding Char} (h : Encoded R modes bits v s) (hmode : s.mode ≠ 0) (hpos : 0 < bits s.mode)
    (hle : bits s.mode < w) :
  R.IsText v (s.ret ++ [R.char s.left] ++ List.replicate (R.padding v.length) '=')
  := by
  obtain ⟨_, es, rest, hret, hcut, hleft⟩ := h
  refine ⟨es ++ [s.left], w - bits s.mode, by omega, ?_, ?_⟩
  · rw [hleft hmode, Nat.shiftLeft_eq]
    apply hcut.fill hle.le
  · rw [← map_char_concat hret, List.map_singleton]

theorem encodeBase64_isText (v : Bytes) : radix64.IsText v (encodeBase64 v)
  := by
  have h : Encoded radix64 3 encode64Bits v _ :=
    encoding_foldl rfl (by decide) encodeBase64Step_spec v
  rw [encodeBase64]
  generalize v.foldl (fun s b => encodeBase64Step s b.toNat) {} = s at h
  obtain ⟨hmode, es, rest, _, hcut, _⟩ := id h
  have hlength := hcut.length
  rw [List.length_map] at hlength
  have hbits : 0 < s.mode → 0 < encode64Bits s.mode ∧ encode64Bits s.mode < 6 := by
    revert hmode
    generalize s.mode = mode
    revert mode
    decide
  obtain ⟨hm, hpad⟩ | ⟨hm, hpad⟩ | ⟨hm, hpad⟩ :
      s.mode = 0 ∧ radix64.padding v.length = 0 ∨ s.mode = 1 ∧ radix64.padding v.length = 2 ∨
        s.mode = 2 ∧ radix64.padding v.length = 1 := by
    change _ ∧ (3 - _ % 3) % 3 = 0 ∨ _ ∧ (3 - _ % 3) % 3 = 2 ∨ _ ∧ (3 - _ % 3) % 3 = 1
    obtain hm | hm | hm : s.mode = 0 ∨ s.mode = 1 ∨ s.mode = 2 := by omega
    all_goals
      rw [hm] at hlength ⊢
      simp only [encode64Bits, List.getD_cons_zero, List.getD_cons_succ] at hlength
      omega
  · rw [if_neg (not_not.mpr hm)]
    apply isText_of_mode_eq_zero (by decide) rfl h hm hpad
  · obtain ⟨hpos, hlt⟩ := hbits (by omega)
    have htext := isText_of_mode_ne_zero h (by omega) hpos hlt
    rw [hpad] at htext
    rw [if_pos (by omega), if_pos hm, List.append_assoc]
    apply htext
  · obtain ⟨hpos, hlt⟩ := hbits (by omega)
    have htext := isText_of_mode_ne_zero h (by omega) hpos hlt
    rw [hpad] at htext
    rw [if_pos (by omega), if_neg (by omega), List.append_nil]
    apply htext

theorem encodeBase32_isText (v : Bytes) : radix32.IsText v (encodeBase32 v)
  := by
  have h : Encoded radix32 5 encode32Bits v _ :=
    encoding_foldl rfl (by decide) encodeBase32Step_spec v
  rw [encodeBase32]
  generalize v.foldl (fun s b => encodeBase32Step s b.toNat) {} = s at h
  obtain ⟨hmode, es, rest, _, hcut, _⟩ := id h
  have hlength := hcut.length
  rw [List.length_map] at hlength
  have hbits : 0 < s.mode → 0 < encode32Bits s.mode ∧ encode32Bits s.mode < 5 := by
    revert hmode
    generalize s.mode = mode
    revert mode
    decide
  have hpad : radix32.padding v.length = nPadding.getD s.mode 0 := by
    have hmod : v.length % 5 = s.mode := by
      obtain hm | hm | hm | hm | hm :
          s.mode = 0 ∨ s.mode = 1 ∨ s.mode = 2 ∨ s.mode = 3 ∨ s.mode = 4 := by omega
      all_goals
        rw [hm] at hlength ⊢
        simp only [encode32Bits, List.getD_cons_zero, List.getD_cons_succ] at hlength
        omega
    change nPadding.getD (v.length % 5) 0 = _
    rw [hmod]
  by_cases hm : s.mode = 0
  · rw [if_neg (not_not.mpr hm)]
    apply isText_of_mode_eq_zero (by decide) rfl h hm
    rw [hpad, hm]
    rfl
  · obtain ⟨hpos, hlt⟩ := hbits (Nat.pos_of_ne_zero hm)
    have htext := isText_of_mode_ne_zero h hm hpos hlt
    rw [hpad] at htext
    rw [if_pos hm]
    apply htext

/-! ## The codes -/

theorem mem_iff_getD {α : Type} {l : List α} {x a : α} : x ∈ l ↔ ∃ d < l.length, l.getD d a = x
  := by
  rw [List.mem_iff_getElem]
  constructor
  · rintro ⟨d, hd, rfl⟩
    exact ⟨d, hd, List.getD_eq_getElem l a hd⟩
  · rintro ⟨d, hd, rfl⟩
    exact ⟨d, hd, (List.getD_eq_getElem l a hd).symm⟩

theorem ends_iff
    {alphabet rest : List Char} (hlength : alphabet.length = 2 ^ w)
    (hchar : ∀ d, R.char d = alphabet.getD d '\x00') :
  R.Ends rest ↔ ∀ c ∈ rest.head?, R.fold c ∉ alphabet
  := by
  apply forall₂_congr
  intro c _
  rw [Radix.digit_eq_none_iff, mem_iff_getD (a := '\x00'), hlength]
  simp only [hchar, not_exists, not_and, ne_eq]

/-- What `EncodeBase64` and `EncodeBase32` write is read back; and `pfInvalid` is false exactly for the
strings that start with the text of the bytes read from them, the padding included, and do not go on
with a character of the alphabet. -/
theorem baseTexts :
  (∀ v, decodeBase64 (encodeBase64 v) = (v, false)) ∧
  (∀ v, decodeBase32 (encodeBase32 v) = (v, false)) ∧
  (∀ s, (decodeBase64 s).2 = false ↔
    ∃ rest, s = encodeBase64 (decodeBase64 s).1 ++ rest ∧ ∀ c ∈ rest.head?, c ∉ pbase64) ∧
  (∀ s, (decodeBase32 s).2 = false ↔
    ∃ text rest, s = text ++ rest ∧ text.map Char.toLower = encodeBase32 (decodeBase32 s).1 ∧
      ∀ c ∈ rest.head?, c.toLower ∉ pbase32)
  := by
  refine ⟨?_, ?_, ?_, ?_⟩
  · intro v
    apply (decodeBase64_reads _).of_isText (by decide) (encodeBase64_isText v)
  · intro v
    apply (decodeBase32_reads _).of_isText (by decide) (encodeBase32_isText v)
  · intro s
    rw [(decodeBase64_reads s).valid_iff (by decide)]
    simp only [(encodeBase64_isText _).iff,
      ends_iff (R := radix64) length_pbase64 fun _ => rfl]
    constructor
    · rintro ⟨pre, rest, hs, hpre, hrest⟩
      rw [show radix64.fold = id from rfl, List.map_id] at hpre
      rw [hpre] at hs
      exact ⟨rest, hs, hrest⟩
    · rintro ⟨rest, hs, hrest⟩
      exact ⟨_, rest, hs, List.map_id _, hrest⟩
  · intro s
    rw [(decodeBase32_reads s).valid_iff (by decide)]
    simp only [(encodeBase32_isText _).iff,
      ends_iff (R := radix32) length_pbase32 fun _ => rfl]
    rfl

example : encodeBase64 [102, 111, 111, 33] = "Zm9vIQ==".toList := by decide
example : decodeBase64 "Zm9vIR==".toList = ([102, 111, 111, 33], true) := by decide

end CorgiCoin
