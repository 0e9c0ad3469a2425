import CorgiCoin.Base58

/-!
# Bech32 and Bech32m

The checksum of a string is the remainder of a polynomial, computed five bits at a time.  The last six
values of a string enter it linearly, so that for given values before them just one choice has the
checksum right: the one that `CreateChecksum` writes.
-/

namespace CorgiCoin

open Codec Digits

namespace Bech32

inductive Encoding where
  | INVALID | BECH32 | BECH32M
  deriving DecidableEq

def CHARSET : List Char := "qpzry9x8gf2tvdw0s3jn54khce6mua7l".toList

/-- The position in the charset of each ASCII character, -1 if it is not in it. -/
def CHARSET_REV : List ℤ := [
  -1, -1, -1, -1, -1, -1, -1, -1, -1, -1, -1, -1, -1, -1, -1, -1,
  -1, -1, -1, -1, -1, -1, -1, -1, -1, -1, -1, -1, -1, -1, -1, -1,
  -1, -1, -1, -1, -1, -1, -1, -1, -1, -1, -1, -1, -1, -1, -1, -1,
  15, -1, 10, 17, 21, 20, 26, 30,  7,  5, -1, -1, -1, -1, -1, -1,
  -1, 29, -1, 24, 13, 25,  9,  8, 23, -1, 18, 22, 31, 27, 19, -1,
   1,  0,  3, 16, 11, 28, 12, 14,  6,  4,  2, -1, -1, -1, -1, -1,
  -1, 29, -1, 24, 13, 25,  9,  8, 23, -1, 18, 22, 31, 27, 19, -1,
   1,  0,  3, 16, 11, 28, 12, 14,  6,  4,  2, -1, -1, -1, -1, -1]

def BECH32_CONST : BitVec 32 := 1
def BECH32M_CONST : BitVec 32 := 0x2bc830a3

/-! ## The checksum -/

/-- The multiples of the generator that the bits shifted out call for. -/
def reduce (c0 c : BitVec 32) : BitVec 32 :=
  let c := if c0 &&& 1 ≠ 0 then c ^^^ 0x3b6a57b2 else c
  let c := if c0 &&& 2 ≠ 0 then c ^^^ 0x26508e6d else c
  let c := if c0 &&& 4 ≠ 0 then c ^^^ 0x1ea119fa else c
  let c := if c0 &&& 8 ≠ 0 then c ^^^ 0x3d4233dd else c
  if c0 &&& 16 ≠ 0 then c ^^^ 0x2a1462b3 else c

/-- A turn of the loop of `PolyMod`. -/
def polyModStep (c : BitVec 32) (v : UInt8) : BitVec 32 :=
  reduce (c >>> 25) (((c &&& 0x1ffffff) <<< 5) ^^^ BitVec.ofNat 32 v.toNat)

def polyMod (v : Bytes) : BitVec 32 := v.foldl polyModStep 1

def expandHRP (hrp : List Char) : Bytes :=
  hrp.map (fun c => UInt8.ofNat (c.toNat >>> 5)) ++ 0 :: hrp.map (fun c => UInt8.ofNat (c.toNat &&& 0x1f))

def verifyChecksum (hrp : List Char) (values : Bytes) : Encoding :=
  let check := polyMod (expandHRP hrp ++ values)
  if check = BECH32_CONST then .BECH32
  else if check = BECH32M_CONST then .BECH32M
  else .INVALID

def createChecksum (encoding : Encoding) (hrp : List Char) (values : Bytes) : Bytes :=
  let mod := polyMod (expandHRP hrp ++ values ++ List.replicate 6 0)
    ^^^ (if encoding = .BECH32M then BECH32M_CONST else BECH32_CONST)
  (List.range 6).map (fun i => UInt8.ofNat ((mod.toNat >>> (5 * (5 - i))) &&& 0x1f))

/-! ## Strings -/

def isLower (c : Char) : Bool := 'a'.toNat ≤ c.toNat && c.toNat ≤ 'z'.toNat
def isUpper (c : Char) : Bool := 'A'.toNat ≤ c.toNat && c.toNat ≤ 'Z'.toNat

/-- `tolower`, in the C locale. -/
def toLower (c : Char) : Char := if isUpper c then Char.ofNat (c.toNat + 32) else c

/-- The character of the charset for a value. -/
def charsetChar (v : UInt8) : Char := CHARSET[v.toNat]?.getD 'q'

/-- `Encode`, the empty string on failure. -/
def encode (encoding : Encoding) (hrp : List Char) (values : Bytes) : List Char :=
  if encoding = .INVALID ∨ hrp = [] then []
  else if hrp.any (fun c => c.toNat < 33 || c.toNat > 126 || isUpper c) then []
  else if hrp.length + 1 + values.length + 6 > 90 then []
  else if values.any (fun v => v.toNat >>> 5 ≠ 0) then []
  else
    let checksum := createChecksum encoding hrp values
    hrp ++ ['1'] ++ values.map charsetChar ++ checksum.map charsetChar

structure DecodeResult where
  encoding : Encoding := .INVALID
  hrp : List Char := []
  data : Bytes := []

/-- `str.rfind('1')` -/
def rfindOne (str : List Char) : Option ℕ :=
  (str.reverse.idxOf? '1').map (fun i => str.length - 1 - i)

/-- The value of a character, where it is in the charset. -/
def charsetRev (c : Char) : Option UInt8 :=
  let rev := CHARSET_REV[c.toNat]?.getD (-1)
  if rev = -1 then none else some (UInt8.ofNat rev.toNat)

def decode (str : List Char) : DecodeResult :=
  if str.length > 90 then {}
  else if str.any (fun c => c.toNat < 33 || c.toNat > 126) then {}
  else if str.any isLower && str.any isUpper then {}
  else
    match rfindOne str with
    | none => {}
    | some pos =>
      if pos = 0 ∨ pos + 7 > str.length then {}
      else
        let hrp := (str.take pos).map toLower
        match (str.drop (pos + 1)).mapM charsetRev with
        | none => {}
        | some values =>
          let encoding := verifyChecksum hrp values
          if encoding = .INVALID then {}
          else { encoding, hrp, data := values.take (values.length - 6) }

/-! ## Regrouping bits -/

/-- The inner loop of `ConvertBits`, whose turns are at most the bits there are. -/
def drain (tobits maxv acc : ℕ) : ℕ → ℕ → Bytes → ℕ × Bytes
  | 0, bits, out => (bits, out)
  | fuel + 1, bits, out =>
    if bits ≥ tobits then
      let bits := bits - tobits
      drain tobits maxv acc fuel bits (out ++ [UInt8.ofNat ((acc >>> bits) &&& maxv)])
    else (bits, out)

/-- The loop of `ConvertBits` over the input.  The accumulator stays below the mask, and far below
`2 ^ 32`. -/
def convertBitsLoop (frombits tobits : ℕ) : Bytes → ℕ → ℕ → Bytes → Option (ℕ × ℕ × Bytes)
  | [], acc, bits, out => some (acc, bits, out)
  | value :: inp, acc, bits, out =>
    let maxv := (1 <<< tobits) - 1
    let max_acc := (1 <<< (frombits + tobits - 1)) - 1
    if value.toNat >>> frombits ≠ 0 then none
    else
      let acc := ((acc <<< frombits) ||| value.toNat) &&& max_acc
      let bits := bits + frombits
      let drained := drain tobits maxv acc bits bits out
      convertBitsLoop frombits tobits inp acc drained.1 drained.2

/-- `ConvertBits`: what it appends to the output, where it returns true. -/
def convertBits (frombits tobits : ℕ) (pad : Bool) (inp : Bytes) : Option Bytes :=
  match convertBitsLoop frombits tobits inp 0 0 [] with
  | none => none
  | some (acc, bits, out) =>
    let maxv := (1 <<< tobits) - 1
    if pad then
      some (if bits ≠ 0 then out ++ [UInt8.ofNat ((acc <<< (tobits - bits)) &&& maxv)] else out)
    else if bits ≥ frombits ∨ (acc <<< (tobits - bits)) &&& maxv ≠ 0 then none
    else some out

/-! ## The checksum is linear in the last values -/

theorem reduce_xor (c0 c d : BitVec 32) : reduce c0 (c ^^^ d) = reduce c0 c ^^^ d := by
  have hswap : ∀ x y z : BitVec 32, x ^^^ z ^^^ y = x ^^^ y ^^^ z := by
    intro x y z
    rw [BitVec.xor_assoc, BitVec.xor_comm z y, BitVec.xor_assoc]
  have hstep : ∀ (p : Prop) [Decidable p] (k c : BitVec 32),
      (if p then c ^^^ d ^^^ k else c ^^^ d) = (if p then c ^^^ k else c) ^^^ d := by
    intro p _ k c
    split_ifs
    · rw [hswap]
    · rfl
  simp only [reduce, hstep]

theorem polyModStep_xor {d : BitVec 32} (h : d.toNat < 2 ^ 25) (c : BitVec 32) (v : UInt8) :
  polyModStep (c ^^^ d) v = polyModStep c 0 ^^^ ((d <<< 5) ^^^ BitVec.ofNat 32 v.toNat)
  := by
  have hshift : d >>> 25 = 0#32 := by
    apply BitVec.eq_of_toNat_eq
    rw [BitVec.toNat_ushiftRight, Nat.shiftRight_eq_div_pow, Nat.div_eq_of_lt h]
    rfl
  have hmask : d &&& 0x1ffffff = d := by
    apply BitVec.eq_of_toNat_eq
    rw [BitVec.toNat_and]
    change d.toNat &&& (2 ^ 25 - 1) = d.toNat
    rw [Nat.and_two_pow_sub_one_eq_mod, Nat.mod_eq_of_lt h]
  have hand : (c ^^^ d) &&& 0x1ffffff = (c &&& 0x1ffffff) ^^^ d := by
    apply BitVec.eq_of_toNat_eq
    conv_rhs => rw [← hmask]
    simp only [BitVec.toNat_and, BitVec.toNat_xor]
    apply Nat.and_xor_distrib_right
  rw [polyModStep, polyModStep, BitVec.ushiftRight_xor_distrib, hshift, BitVec.xor_zero, hand,
    BitVec.shiftLeft_xor_distrib, BitVec.xor_assoc, reduce_xor]
  simp

/-- A digit of five bits after a number. -/
theorem shiftLeft_xor_digit {n v : ℕ} (hv : v < 32) :
  (BitVec.ofNat 32 n <<< 5) ^^^ BitVec.ofNat 32 v = BitVec.ofNat 32 (n * 32 + v)
  := by
  apply BitVec.eq_of_getLsbD_eq
  intro i hi
  have hdigit : (n * 32 + v).testBit i = if i < 5 then v.testBit i else n.testBit (i - 5) := by
    have hsum : n * 32 + v = 2 ^ 5 * n + v := by ring
    rw [hsum]
    exact Nat.testBit_two_pow_mul_add n hv i
  simp only [BitVec.getLsbD_xor, BitVec.getLsbD_shiftLeft, BitVec.getLsbD_ofNat, hi, decide_true,
    Bool.true_and, hdigit]
  by_cases h : i < 5
  · simp [h]
  · have hle : i - 5 < 32 := by omega
    have hzero : v.testBit i = false := by
      apply Nat.testBit_lt_two_pow
      calc v < 2 ^ 5 := hv
        _ ≤ 2 ^ i := Nat.pow_le_pow_right (by decide) (by omega)
    simp [h, hle, hzero]

theorem foldl_polyModStep_xor
    {vs : Bytes} (h : ∀ v ∈ vs, v.toNat < 32) {n : ℕ} (hn : (n + 1) * 32 ^ vs.length ≤ 2 ^ 30)
    (c : BitVec 32) :
  vs.foldl polyModStep (c ^^^ BitVec.ofNat 32 n) =
    (List.replicate vs.length 0).foldl polyModStep c
      ^^^ BitVec.ofNat 32 (n * 32 ^ vs.length + value 32 (vs.map UInt8.toNat))
  := by
  induction vs generalizing n c with
  | nil => simp
  | cons v vs ih =>
    have hv := h v (List.mem_cons_self ..)
    rw [List.length_cons, pow_succ] at hn
    have hpow : 0 < 32 ^ vs.length := by positivity
    have hlt : n < 2 ^ 25 := by
      have hle : (n + 1) * 32 ≤ 2 ^ 30 :=
        calc (n + 1) * 32 ≤ (n + 1) * (32 ^ vs.length * 32) :=
              Nat.mul_le_mul_left _ (Nat.le_mul_of_pos_left _ hpow)
          _ ≤ 2 ^ 30 := hn
      omega
    have hd : (BitVec.ofNat 32 n).toNat < 2 ^ 25 := by
      rw [BitVec.toNat_ofNat]
      exact lt_of_le_of_lt (Nat.mod_le ..) hlt
    have hn' : (n * 32 + v.toNat + 1) * 32 ^ vs.length ≤ 2 ^ 30 :=
      calc (n * 32 + v.toNat + 1) * 32 ^ vs.length ≤ ((n + 1) * 32) * 32 ^ vs.length :=
            Nat.mul_le_mul_right _ (by omega)
        _ = (n + 1) * (32 ^ vs.length * 32) := by ring
        _ ≤ 2 ^ 30 := hn
    rw [List.foldl_cons, polyModStep_xor hd, shiftLeft_xor_digit hv,
      ih (fun v' hv' => h v' (List.mem_cons_of_mem v hv')) hn', List.length_cons,
      List.replicate_succ, List.foldl_cons, List.map_cons, value_cons, List.length_map, pow_succ]
    congr 2
    ring

variable {vs : Bytes}

/-- Six values at the end are added to the checksum of six zeros. -/
theorem polyMod_append {pre : Bytes} (h : ∀ v ∈ vs, v.toNat < 32) (hlen : vs.length = 6) :
  polyMod (pre ++ vs) =
    polyMod (pre ++ List.replicate 6 0) ^^^ BitVec.ofNat 32 (value 32 (vs.map UInt8.toNat))
  := by
  have hxor := @foldl_polyModStep_xor vs h 0 (by rw [hlen]; decide) (pre.foldl polyModStep 1)
  rw [BitVec.xor_zero, hlen, Nat.zero_mul, Nat.zero_add] at hxor
  rw [polyMod, List.foldl_append, hxor, polyMod, List.foldl_append]

/-! ## The checksum that is written is the only good one -/

theorem reduce_lt {c : BitVec 32} (h : c.toNat < 2 ^ 30) (c0 : BitVec 32) :
  (reduce c0 c).toNat < 2 ^ 30
  := by
  have hxor : ∀ x g : BitVec 32, x.toNat < 2 ^ 30 → g.toNat < 2 ^ 30 → (x ^^^ g).toNat < 2 ^ 30 := by
    intro x g hx hg
    rw [BitVec.toNat_xor]
    exact Nat.xor_lt_two_pow hx hg
  have hif : ∀ (p : Prop) [Decidable p] (x g : BitVec 32), x.toNat < 2 ^ 30 → g.toNat < 2 ^ 30 →
      (if p then x ^^^ g else x).toNat < 2 ^ 30 := by
    intro p _ x g hx hg
    split_ifs
    · exact hxor x g hx hg
    · exact hx
  rw [reduce]
  refine hif _ _ _ (hif _ _ _ (hif _ _ _ (hif _ _ _ (hif _ _ _ h ?_) ?_) ?_) ?_) ?_ <;> decide

theorem polyModStep_lt (c : BitVec 32) (v : UInt8) : (polyModStep c v).toNat < 2 ^ 30 := by
  apply reduce_lt
  rw [BitVec.toNat_xor]
  apply Nat.xor_lt_two_pow
  · have hlt : (c &&& 0x1ffffff).toNat < 2 ^ 25 := by
      rw [BitVec.toNat_and]
      exact lt_of_le_of_lt Nat.and_le_right (by decide)
    rw [BitVec.toNat_shiftLeft, Nat.shiftLeft_eq]
    exact lt_of_le_of_lt (Nat.mod_le ..) (by omega)
  · have hlt := v.toNat_lt
    rw [BitVec.toNat_ofNat]
    exact lt_of_le_of_lt (Nat.mod_le ..) (by omega)

/-- The six digits of five bits that `CreateChecksum` takes from a remainder. -/
def checksumOf (m : ℕ) : Bytes :=
  (List.range 6).map (fun i => UInt8.ofNat ((m >>> (5 * (5 - i))) &&& 0x1f))

theorem createChecksum_eq (encoding : Encoding) (hrp : List Char) (values : Bytes) :
  createChecksum encoding hrp values =
    checksumOf (polyMod (expandHRP hrp ++ values ++ List.replicate 6 0)
      ^^^ (if encoding = .BECH32M then BECH32M_CONST else BECH32_CONST)).toNat
  := rfl

theorem length_checksumOf (m : ℕ) : (checksumOf m).length = 6 := rfl

theorem map_toNat_checksumOf (m : ℕ) :
  (checksumOf m).map UInt8.toNat =
    [m / 32 ^ 5 % 32, m / 32 ^ 4 % 32, m / 32 ^ 3 % 32, m / 32 ^ 2 % 32, m / 32 % 32, m % 32]
  := by
  have hdigit : ∀ k : ℕ, (UInt8.ofNat ((m >>> (5 * k)) &&& 0x1f)).toNat = m / 32 ^ k % 32 := by
    intro k
    have hmask : (m >>> (5 * k)) &&& 0x1f = m / 32 ^ k % 32 := by
      rw [Nat.shiftRight_eq_div_pow, pow_mul]
      exact Nat.and_two_pow_sub_one_eq_mod _ 5
    rw [hmask, UInt8.toNat_ofNat']
    omega
  rw [checksumOf, List.map_map]
  have hpoint : UInt8.toNat ∘ (fun i => UInt8.ofNat ((m >>> (5 * (5 - i))) &&& 0x1f))
      = fun i => m / 32 ^ (5 - i) % 32 := by
    funext i
    exact hdigit (5 - i)
  rw [hpoint]
  simp [List.range_succ]

theorem checksumOf_lt {m : ℕ} {v : UInt8} (h : v ∈ checksumOf m) : v.toNat < 32 := by
  have hmem : v.toNat ∈ (checksumOf m).map UInt8.toNat := List.mem_map_of_mem h
  rw [map_toNat_checksumOf] at hmem
  simp only [List.mem_cons, List.not_mem_nil, or_false] at hmem
  omega

theorem value_checksumOf {m : ℕ} (h : m < 2 ^ 30) :
  value 32 ((checksumOf m).map UInt8.toNat) = m
  := by
  rw [map_toNat_checksumOf]
  simp only [value, List.reverse_cons, List.reverse_nil, List.nil_append, List.cons_append,
    Nat.ofDigits_cons, Nat.ofDigits_nil]
  omega

theorem map_toNat_injective : Function.Injective (List.map UInt8.toNat) :=
  List.map_injective_iff.mpr (fun _ _ h => UInt8.toNat_inj.mp h)

/-- Six values make the checksum good just when they are those that are written. -/
theorem polyMod_eq_iff {pre : Bytes} (h : ∀ v ∈ vs, v.toNat < 32) (hlen : vs.length = 6)
    {c : BitVec 32} (hc : c.toNat < 2 ^ 30) :
  polyMod (pre ++ vs) = c ↔ vs = checksumOf (polyMod (pre ++ List.replicate 6 0) ^^^ c).toNat
  := by
  have hmod : (polyMod (pre ++ List.replicate 6 0) ^^^ c).toNat < 2 ^ 30 := by
    rw [BitVec.toNat_xor]
    refine Nat.xor_lt_two_pow ?_ hc
    rw [polyMod, List.replicate_succ', ← List.append_assoc, List.foldl_append]
    apply polyModStep_lt
  have hvalue : value 32 (vs.map UInt8.toNat) < 2 ^ 30 := by
    have hlt := @value_lt 32 (by decide) (vs.map UInt8.toNat) (by
      intro d hd
      obtain ⟨v, hv, rfl⟩ := List.mem_map.mp hd
      exact h v hv)
    rwa [List.length_map, hlen] at hlt
  rw [polyMod_append h hlen]
  constructor
  · intro heq
    have hxor : polyMod (pre ++ List.replicate 6 0) ^^^ c
        = BitVec.ofNat 32 (value 32 (vs.map UInt8.toNat)) := by
      rw [← heq, ← BitVec.xor_assoc, BitVec.xor_self, BitVec.zero_xor]
    apply map_toNat_injective
    apply @eq_of_value_eq 32 (by decide)
    · rw [List.length_map, List.length_map, hlen, length_checksumOf]
    · intro d hd
      obtain ⟨v, hv, rfl⟩ := List.mem_map.mp hd
      exact h v hv
    · intro d hd
      obtain ⟨v, hv, rfl⟩ := List.mem_map.mp hd
      exact checksumOf_lt hv
    · rw [value_checksumOf hmod, hxor, BitVec.toNat_ofNat, Nat.mod_eq_of_lt (by omega)]
  · intro heq
    have hback : BitVec.ofNat 32 (value 32 (vs.map UInt8.toNat))
        = polyMod (pre ++ List.replicate 6 0) ^^^ c := by
      rw [heq, value_checksumOf hmod, BitVec.ofNat_toNat, BitVec.setWidth_eq]
    rw [hback, ← BitVec.xor_assoc, BitVec.xor_self, BitVec.zero_xor]

/-! ## The charset -/

/-- `toupper`, in the C locale. -/
def toUpper (c : Char) : Char := if isLower c then Char.ofNat (c.toNat - 32) else c

theorem charsetChar_spec :
  ∀ v < 32, let c := charsetChar (UInt8.ofNat v)
    charsetRev c = some (UInt8.ofNat v) ∧ 33 ≤ c.toNat ∧ c.toNat ≤ 126 ∧ isUpper c = false ∧ c ≠ '1'
  := by
  decide

theorem charsetRev_spec :
  ∀ n < 127, ∀ v, charsetRev (Char.ofNat n) = some v →
    v.toNat < 32 ∧ toLower (Char.ofNat n) = charsetChar v ∧ Char.ofNat n ≠ '1'
  := by
  have hall : ∀ n < 127, (charsetRev (Char.ofNat n)).all (fun v =>
      v.toNat < 32 && toLower (Char.ofNat n) == charsetChar v && Char.ofNat n != '1') = true := by
    decide
  intro n hn v hv
  have h := hall n hn
  rw [hv, Option.all_some] at h
  simpa [and_assoc] using h

theorem case_spec :
  ∀ n < 127, let c := Char.ofNat n
    (isUpper c = false → toLower c = c) ∧ (isLower c = false → toUpper (toLower c) = c) ∧
      (33 ≤ c.toNat → 33 ≤ (toLower c).toNat) ∧ (toLower c).toNat ≤ 126 ∧ isUpper (toLower c) = false
  := by
  decide

theorem charsetRev_charsetChar {v : UInt8} (h : v.toNat < 32) :
  charsetRev (charsetChar v) = some v
  := by
  have hspec := (charsetChar_spec v.toNat h).1
  rwa [UInt8.ofNat_toNat] at hspec

theorem mapM_charsetRev (h : ∀ v ∈ vs, v.toNat < 32) :
  (vs.map charsetChar).mapM charsetRev = some vs
  := by
  induction vs with
  | nil => rfl
  | cons v vs ih =>
    rw [List.map_cons, List.mapM_cons, charsetRev_charsetChar (h v (List.mem_cons_self ..)),
      ih (fun v' hv' => h v' (List.mem_cons_of_mem v hv'))]
    rfl

variable {str : List Char}

/-- Characters read from the charset are, in lower case, those that are written for the values. -/
theorem map_toLower_of_mapM
    (hascii : ∀ c ∈ str, c.toNat ≤ 126) (h : str.mapM charsetRev = some vs) :
  str.map toLower = vs.map charsetChar ∧ (∀ v ∈ vs, v.toNat < 32) ∧ str.length = vs.length
  := by
  induction str generalizing vs with
  | nil =>
    simp only [List.mapM_nil, Option.pure_def, Option.some.injEq] at h
    subst h
    exact ⟨rfl, by simp, rfl⟩
  | cons c str ih =>
    rw [List.mapM_cons] at h
    obtain ⟨v, hv, h⟩ := Option.bind_eq_some_iff.mp h
    obtain ⟨vs', hvs, h⟩ := Option.bind_eq_some_iff.mp h
    simp only [Option.pure_def, Option.some.injEq] at h
    subst h
    obtain ⟨hmap, hlt, hlen⟩ := ih (fun c' hc' => hascii c' (List.mem_cons_of_mem c hc')) hvs
    have hc := hascii c (List.mem_cons_self ..)
    have hspec := charsetRev_spec c.toNat (by omega) v (by rwa [Char.ofNat_toNat])
    rw [Char.ofNat_toNat] at hspec
    refine ⟨?_, ?_, ?_⟩
    · rw [List.map_cons, List.map_cons, hspec.2.1, hmap]
    · intro v' hv'
      rcases List.mem_cons.mp hv' with rfl | hv'
      · exact hspec.1
      · exact hlt v' hv'
    · rw [List.length_cons, List.length_cons, hlen]

/-! ## The separator -/

theorem rfindOne_eq_some {pos : ℕ} (h : rfindOne str = some pos) :
  pos < str.length ∧ str = str.take pos ++ '1' :: str.drop (pos + 1)
  := by
  rw [rfindOne, Option.map_eq_some_iff] at h
  obtain ⟨i, hi, rfl⟩ := h
  obtain ⟨hlt, hchar, -⟩ := List.idxOf?_eq_some_iff.mp hi
  rw [List.length_reverse] at hlt
  have hpos : str.length - 1 - i < str.length := by omega
  refine ⟨hpos, ?_⟩
  rw [List.getElem_reverse] at hchar
  conv_lhs => rw [← List.take_append_drop (str.length - 1 - i) str]
  rw [List.drop_eq_getElem_cons hpos, hchar]

theorem rfindOne_append {hrp rest : List Char} (h : '1' ∉ rest) :
  rfindOne (hrp ++ '1' :: rest) = some hrp.length
  := by
  have hindex : (hrp ++ '1' :: rest).reverse.idxOf? '1' = some rest.length := by
    rw [List.idxOf?_eq_some_iff]
    have hrev : (hrp ++ '1' :: rest).reverse = rest.reverse ++ '1' :: hrp.reverse := by simp
    refine ⟨by simp, ?_, ?_⟩
    · simp [hrev, List.getElem_append_right]
    · intro j hj
      simp only [hrev]
      rw [List.getElem_append_left (by simpa using hj)]
      intro heq
      exact h (List.mem_reverse.mp (heq ▸ List.getElem_mem ..))
  rw [rfindOne, hindex, Option.map_some]
  simp

/-! ## Strings that are written and strings that are read -/

/-- The prefixes and values that `Encode` writes. -/
structure Encodable (hrp : List Char) (data : Bytes) : Prop where
  ne_nil : hrp ≠ []
  chars : ∀ c ∈ hrp, 33 ≤ c.toNat ∧ c.toNat ≤ 126 ∧ isUpper c = false
  length : hrp.length + 1 + data.length + 6 ≤ 90
  values : ∀ v ∈ data, v.toNat < 32

theorem encode_eq {hrp : List Char} {data : Bytes} (h : Encodable hrp data) :
  encode .BECH32M hrp data =
    hrp ++ '1' :: (data ++ createChecksum .BECH32M hrp data).map charsetChar
  := by
  have hchars : hrp.any (fun c => c.toNat < 33 || c.toNat > 126 || isUpper c) = false := by
    rw [List.any_eq_false]
    intro c hc
    obtain ⟨hge, hle, hupper⟩ := h.chars c hc
    simp [hupper, Nat.not_lt.mpr hge, Nat.not_lt.mpr hle]
  have hvalues : data.any (fun v => v.toNat >>> 5 ≠ 0) = false := by
    rw [List.any_eq_false]
    intro v hv
    simp [Nat.shiftRight_eq_div_pow, Nat.div_eq_of_lt (h.values v hv)]
  rw [encode, if_neg (by simp [h.ne_nil]), hchars, if_neg (by simp), if_neg (by have := h.length; omega),
    hvalues, if_neg (by simp)]
  simp

theorem checksum_good (hrp : List Char) (data : Bytes) :
  verifyChecksum hrp (data ++ createChecksum .BECH32M hrp data) = .BECH32M
  := by
  have hpoly : polyMod (expandHRP hrp ++ (data ++ createChecksum .BECH32M hrp data))
      = BECH32M_CONST := by
    rw [← List.append_assoc, polyMod_eq_iff]
    · rw [createChecksum_eq, if_pos rfl]
    · intro v hv
      rw [createChecksum_eq] at hv
      exact checksumOf_lt hv
    · rfl
    · decide
  rw [verifyChecksum, hpoly, if_neg (by decide), if_pos rfl]

/-- What `Encode` writes is read back. -/
theorem decode_encode {hrp : List Char} {data : Bytes} (h : Encodable hrp data) :
  decode (encode .BECH32M hrp data) = { encoding := .BECH32M, hrp, data }
  := by
  have hall : ∀ v ∈ data ++ createChecksum .BECH32M hrp data, v.toNat < 32 := by
    intro v hv
    rcases List.mem_append.mp hv with hv | hv
    · exact h.values v hv
    · rw [createChecksum_eq] at hv
      exact checksumOf_lt hv
  have hchar : ∀ c ∈ encode .BECH32M hrp data, 33 ≤ c.toNat ∧ c.toNat ≤ 126 ∧ isUpper c = false := by
    intro c hc
    rw [encode_eq h] at hc
    rcases List.mem_append.mp hc with hc | hc
    · exact h.chars c hc
    · rcases List.mem_cons.mp hc with rfl | hc
      · decide
      · obtain ⟨v, hv, rfl⟩ := List.mem_map.mp hc
        have hspec := charsetChar_spec v.toNat (hall v hv)
        rw [UInt8.ofNat_toNat] at hspec
        exact ⟨hspec.2.1, hspec.2.2.1, hspec.2.2.2.1⟩
  have hone : '1' ∉ (data ++ createChecksum .BECH32M hrp data).map charsetChar := by
    intro hmem
    obtain ⟨v, hv, heq⟩ := List.mem_map.mp hmem
    have hspec := charsetChar_spec v.toNat (hall v hv)
    rw [UInt8.ofNat_toNat] at hspec
    exact hspec.2.2.2.2 heq
  have hlen : (encode .BECH32M hrp data).length = hrp.length + 1 + data.length + 6 := by
    rw [encode_eq h, List.length_append, List.length_cons, List.length_map, List.length_append,
      createChecksum_eq, length_checksumOf]
    omega
  have hlower : hrp.map toLower = hrp := by
    rw [List.map_congr_left (g := id), List.map_id]
    intro c hc
    rw [toLower, (h.chars c hc).2.2]
    rfl
  have hpos : hrp.length ≠ 0 := fun hzero => h.ne_nil (List.eq_nil_of_length_eq_zero hzero)
  have hany : (encode .BECH32M hrp data).any (fun c => c.toNat < 33 || c.toNat > 126) = false := by
    rw [List.any_eq_false]
    intro c hc
    obtain ⟨hge, hle, -⟩ := hchar c hc
    simp [Nat.not_lt.mpr hge, Nat.not_lt.mpr hle]
  have hupper : (encode .BECH32M hrp data).any isUpper = false := by
    rw [List.any_eq_false]
    intro c hc
    simp [(hchar c hc).2.2]
  have hfind : rfindOne (encode .BECH32M hrp data) = some hrp.length := by
    rw [encode_eq h]
    exact rfindOne_append hone
  have htake : (encode .BECH32M hrp data).take hrp.length = hrp := by
    rw [encode_eq h, List.take_left]
  have hdrop : (encode .BECH32M hrp data).drop (hrp.length + 1)
      = (data ++ createChecksum .BECH32M hrp data).map charsetChar := by
    rw [encode_eq h, ← List.drop_drop, List.drop_left, List.drop_one, List.tail_cons]
  rw [decode, if_neg (by have := h.length; omega), hany, if_neg (by simp), hupper, Bool.and_false,
    if_neg (by simp), hfind]
  dsimp only
  rw [if_neg (by omega), htake, hdrop, hlower, mapM_charsetRev hall]
  dsimp only
  rw [checksum_good, if_neg (by decide), List.length_append, createChecksum_eq, length_checksumOf,
    Nat.add_sub_cancel, List.take_left]

/-- A string of one case is the one in lower case or that one in upper case. -/
theorem eq_map_toLower_or (hascii : ∀ c ∈ str, c.toNat ≤ 126)
    (h : ¬ (str.any isLower && str.any isUpper) = true) :
  str = str.map toLower ∨ str = (str.map toLower).map toUpper
  := by
  have hcase : ∀ c ∈ str, (isUpper c = false → toLower c = c) ∧
      (isLower c = false → toUpper (toLower c) = c) := by
    intro c hc
    have hspec := case_spec c.toNat (by have := hascii c hc; omega)
    rw [Char.ofNat_toNat] at hspec
    exact ⟨hspec.1, hspec.2.1⟩
  by_cases hupper : str.any isUpper = true
  · rw [hupper, Bool.and_true, Bool.not_eq_true, List.any_eq_false] at h
    refine Or.inr (Eq.symm ?_)
    rw [List.map_map, List.map_congr_left (g := id), List.map_id]
    intro c hc
    exact (hcase c hc).2 (by simpa using h c hc)
  · rw [Bool.not_eq_true, List.any_eq_false] at hupper
    refine Or.inl (Eq.symm ?_)
    rw [List.map_congr_left (g := id), List.map_id]
    intro c hc
    exact (hcase c hc).1 (by simpa using hupper c hc)

/-- A string that is read is in one case, and in lower case it is the one that is written. -/
theorem encode_of_decode (h : (decode str).encoding = .BECH32M) :
  Encodable (decode str).hrp (decode str).data ∧
    str.map toLower = encode .BECH32M (decode str).hrp (decode str).data ∧
    (str = str.map toLower ∨ str = (str.map toLower).map toUpper)
  := by
  revert h
  rw [decode]
  split_ifs with hlen hchars hcase
  · exact (fun h => nomatch h)
  · exact (fun h => nomatch h)
  · exact (fun h => nomatch h)
  rw [Bool.not_eq_true, List.any_eq_false] at hchars
  have hascii : ∀ c ∈ str, 33 ≤ c.toNat ∧ c.toNat ≤ 126 := by
    intro c hc
    have hc' := hchars c hc
    simp only [Bool.or_eq_true, decide_eq_true_eq, not_or, not_lt] at hc'
    exact hc'
  cases hfind : rfindOne str with
  | none => exact (fun h => nomatch h)
  | some pos =>
    obtain ⟨hpos, hstr⟩ := rfindOne_eq_some hfind
    dsimp only
    split_ifs with hshort
    · exact (fun h => nomatch h)
    cases hvalues : (str.drop (pos + 1)).mapM charsetRev with
    | none => exact (fun h => nomatch h)
    | some values =>
      obtain ⟨hmap, hlt, hcount⟩ :=
        map_toLower_of_mapM (fun c hc => (hascii c (List.mem_of_mem_drop hc)).2) hvalues
      rw [List.length_drop] at hcount
      dsimp only
      split_ifs with hinvalid
      · exact (fun h => nomatch h)
      intro hencoding
      -- the last six values are the checksum of those before
      have hsplit : values = values.take (values.length - 6) ++ values.drop (values.length - 6) :=
        (List.take_append_drop ..).symm
      have hsix : (values.drop (values.length - 6)).length = 6 := by
        rw [List.length_drop]
        omega
      have hpoly : polyMod (expandHRP ((str.take pos).map toLower) ++ values) = BECH32M_CONST := by
        rw [verifyChecksum] at hencoding
        dsimp only at hencoding
        split_ifs at hencoding with hone hm
        exact hm
      rw [hsplit, ← List.append_assoc, polyMod_eq_iff
        (fun v hv => hlt v (List.mem_of_mem_drop hv)) hsix (by decide)] at hpoly
      have henc : Encodable ((str.take pos).map toLower) (values.take (values.length - 6)) := by
        refine ⟨?_, ?_, ?_, fun v hv => hlt v (List.mem_of_mem_take hv)⟩
        · intro hnil
          have hzero := congrArg List.length hnil
          rw [List.length_map, List.length_take, List.length_nil] at hzero
          omega
        · intro c hc
          obtain ⟨c', hc', rfl⟩ := List.mem_map.mp hc
          obtain ⟨hge, hle⟩ := hascii c' (List.mem_of_mem_take hc')
          have hspec := case_spec c'.toNat (by omega)
          rw [Char.ofNat_toNat] at hspec
          exact ⟨hspec.2.2.1 hge, hspec.2.2.2.1, hspec.2.2.2.2⟩
        · rw [List.length_map, List.length_take, List.length_take]
          omega
      refine ⟨henc, ?_, eq_map_toLower_or (fun c hc => (hascii c hc).2) hcase⟩
      rw [encode_eq henc, createChecksum_eq, if_pos rfl, ← hpoly, List.take_append_drop, ← hmap]
      conv_lhs => rw [hstr]
      rw [List.map_append, List.map_cons]
      rfl

/-- The characters of a string that is read are printable. -/
theorem chars_of_decode (h : (decode str).encoding = .BECH32M) :
  ∀ c ∈ str, 33 ≤ c.toNat ∧ c.toNat ≤ 126
  := by
  rw [decode] at h
  split_ifs at h with hlen hchars
  all_goals
    rw [Bool.not_eq_true, List.any_eq_false] at hchars
    intro c hc
    have hc' := hchars c hc
    simp only [Bool.or_eq_true, decide_eq_true_eq, not_or, not_lt] at hc'
    exact hc'

/-! ## Regrouping bits is cutting a number -/

theorem and_mask (a w : ℕ) : a &&& ((1 <<< w) - 1) = a % 2 ^ w := by
  rw [Nat.one_shiftLeft, Nat.and_two_pow_sub_one_eq_mod]

section Regroup

variable {v w : ℕ}

variable {out : Bytes}

theorem drain_spec (hw : 0 < w) (hw8 : w ≤ 8) {ds : List ℕ} {acc fuel bits : ℕ}
    (hfuel : bits ≤ fuel) (h : Cut v w ds (out.map UInt8.toNat) bits (acc % 2 ^ bits)) :
  ∃ bits' out', drain w ((1 <<< w) - 1) acc fuel bits out = (bits', out') ∧ bits' < w ∧
    Cut v w ds (out'.map UInt8.toNat) bits' (acc % 2 ^ bits')
  := by
  induction fuel generalizing bits out with
  | zero => exact ⟨bits, out, rfl, by omega, h⟩
  | succ fuel ih =>
    rw [drain]
    split_ifs with hbits
    · obtain ⟨rest, rfl⟩ : ∃ rest, bits = rest + w := ⟨bits - w, by omega⟩
      rw [Nat.add_sub_cancel]
      apply ih (by omega)
      -- the digit cut off is the one that is masked out of the accumulator
      have hdigit : (UInt8.ofNat ((acc >>> rest) &&& ((1 <<< w) - 1))).toNat
          = acc % 2 ^ (rest + w) / 2 ^ rest := by
        have hlt : acc / 2 ^ rest % 2 ^ w < 256 :=
          lt_of_lt_of_le (Nat.mod_lt _ (by positivity)) (Nat.pow_le_pow_right (by decide) hw8)
        rw [and_mask, Nat.shiftRight_eq_div_pow, UInt8.toNat_ofNat', Nat.mod_eq_of_lt hlt, pow_add,
          Nat.mod_mul_right_div_self]
      have hrest : acc % 2 ^ rest = acc % 2 ^ (rest + w) % 2 ^ rest := by
        rw [Nat.mod_mod_of_dvd _ (pow_dvd_pow 2 (Nat.le_add_right ..))]
      rw [List.map_append, List.map_singleton, hdigit, hrest]
      exact h.drain
    · exact ⟨bits, out, rfl, by omega, h⟩

/-- A digit after a number, of which the low bits are kept. -/
theorem mul_add_mod_pow {d : ℕ} (hd : d < 2 ^ v) (acc bits : ℕ) :
  (acc * 2 ^ v + d) % 2 ^ (bits + v) = acc % 2 ^ bits * 2 ^ v + d
  := by
  have hlt : acc % 2 ^ bits * 2 ^ v + d < 2 ^ (bits + v) := by
    have hmod : acc % 2 ^ bits < 2 ^ bits := Nat.mod_lt _ (by positivity)
    calc acc % 2 ^ bits * 2 ^ v + d < (acc % 2 ^ bits + 1) * 2 ^ v := by
          rw [Nat.add_mul, Nat.one_mul]
          omega
      _ ≤ 2 ^ bits * 2 ^ v := Nat.mul_le_mul_right _ hmod
      _ = 2 ^ (bits + v) := (pow_add ..).symm
  have hsplit : acc * 2 ^ v + d = 2 ^ (bits + v) * (acc / 2 ^ bits) + (acc % 2 ^ bits * 2 ^ v + d) := by
    conv_lhs => rw [← Nat.div_add_mod acc (2 ^ bits)]
    rw [pow_add]
    ring
  rw [hsplit, Nat.mul_add_mod, Nat.mod_eq_of_lt hlt]

theorem convertBitsLoop_spec (hw : 0 < w) (hw8 : w ≤ 8) {inp : Bytes}
    (hinp : ∀ value ∈ inp, value.toNat < 2 ^ v) {ds : List ℕ} {acc bits : ℕ} {out : Bytes}
    (hbits : bits < w) (h : Cut v w ds (out.map UInt8.toNat) bits (acc % 2 ^ bits)) :
  ∃ acc' bits' out', convertBitsLoop v w inp acc bits out = some (acc', bits', out') ∧ bits' < w ∧
    Cut v w (ds ++ inp.map UInt8.toNat) (out'.map UInt8.toNat) bits' (acc' % 2 ^ bits')
  := by
  induction inp generalizing ds acc bits out with
  | nil => exact ⟨acc, bits, out, rfl, hbits, by simpa using h⟩
  | cons d inp ih =>
    have hd := hinp d (List.mem_cons_self ..)
    -- the accumulator keeps the bits that are pending
    have hacc : (((acc <<< v) ||| d.toNat) &&& ((1 <<< (v + w - 1)) - 1)) % 2 ^ (bits + v)
        = acc % 2 ^ bits * 2 ^ v + d.toNat := by
      rw [and_mask, Nat.mod_mod_of_dvd _ (pow_dvd_pow 2 (by omega)), ← Nat.shiftLeft_add_eq_or_of_lt hd,
        Nat.shiftLeft_eq, mul_add_mod_pow hd]
    have hcut := h.concat hd
    rw [← hacc] at hcut
    obtain ⟨bits', out', hdrain, hbits', hcut'⟩ := drain_spec hw hw8 (le_refl _) hcut
    obtain ⟨acc'', bits'', out'', hloop, hbits'', hcut''⟩ :=
      ih (fun d' hd' => hinp d' (List.mem_cons_of_mem d hd')) hbits' hcut'
    refine ⟨acc'', bits'', out'', ?_, hbits'', ?_⟩
    · rw [convertBitsLoop]
      dsimp only
      rw [if_neg (by rw [Nat.shiftRight_eq_div_pow, Nat.div_eq_of_lt hd]; simp), hdrain]
      exact hloop
    · rwa [List.append_assoc] at hcut''

theorem lt_of_convertBitsLoop
    {inp : Bytes} {acc bits : ℕ} {r : ℕ × ℕ × Bytes}
    (h : convertBitsLoop v w inp acc bits out = some r) :
  ∀ value ∈ inp, value.toNat < 2 ^ v
  := by
  induction inp generalizing acc bits out with
  | nil => simp
  | cons d inp ih =>
    rw [convertBitsLoop] at h
    dsimp only at h
    split_ifs at h with hd
    intro value hmem
    rcases List.mem_cons.mp hmem with rfl | hmem
    · rw [ne_eq, not_not, Nat.shiftRight_eq_div_pow, Nat.div_eq_zero_iff] at hd
      exact hd.resolve_left (by positivity)
    · exact ih h value hmem

/-- Where the bits come out even the input is regrouped, with padding or without. -/
theorem convertBits_exact (hv : 0 < v) (hw : 0 < w) (hw8 : w ≤ 8) {inp : Bytes}
    (hinp : ∀ value ∈ inp, value.toNat < 2 ^ v) (hdvd : w ∣ v * inp.length) (pad : Bool) :
  ∃ out, convertBits v w pad inp = some out ∧
    Cut v w (inp.map UInt8.toNat) (out.map UInt8.toNat) 0 0
  := by
  obtain ⟨acc, bits, out, hloop, hbits, hcut⟩ :=
    @convertBitsLoop_spec v w hw hw8 inp hinp [] 0 0 [] hw (Cut.nil v w)
  have hzero : bits = 0 := by
    have hlength := hcut.length
    rw [List.nil_append, List.length_map] at hlength
    rw [hlength] at hdvd
    exact Nat.eq_zero_of_dvd_of_lt ((Nat.dvd_add_right (Dvd.intro _ rfl)).mp hdvd) hbits
  subst hzero
  refine ⟨out, ?_, by simpa [Nat.mod_one] using hcut⟩
  rw [convertBits, hloop]
  cases pad with
  | true => rfl
  | false =>
    dsimp only
    rw [if_neg (by simp), if_neg]
    rw [and_mask, Nat.shiftLeft_eq, Nat.sub_zero, Nat.mul_mod_left]
    omega

/-- Without padding fewer bits than a digit of the input are left over. -/
theorem cut_of_convertBits (hw : 0 < w) (hw8 : w ≤ 8) {inp : Bytes}
    (h : convertBits v w false inp = some out) :
  ∃ bits rest, bits < v ∧ Cut v w (inp.map UInt8.toNat) (out.map UInt8.toNat) bits rest
  := by
  have hinp : ∀ value ∈ inp, value.toNat < 2 ^ v := by
    rw [convertBits] at h
    cases hloop : convertBitsLoop v w inp 0 0 [] with
    | none =>
      rw [hloop] at h
      cases h
    | some r => exact lt_of_convertBitsLoop hloop
  obtain ⟨acc, bits, out', hloop, hbits, hcut⟩ :=
    @convertBitsLoop_spec v w hw hw8 inp hinp [] 0 0 [] hw (Cut.nil v w)
  rw [convertBits, hloop] at h
  dsimp only at h
  rw [if_neg (by simp)] at h
  split_ifs at h with hleft
  simp only [Option.some.injEq] at h
  subst h
  exact ⟨bits, _, by omega, by simpa using hcut⟩

end Regroup

end Bech32

end CorgiCoin
