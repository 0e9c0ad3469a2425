import CorgiCoin.Mpi
import CorgiCoin.Lib.Digits
import Mathlib.Data.List.TakeWhile

/-!
# Reading base58

`DecodeBase58` and `DecodeBase58Check`, the inverses of the writers.  What is written is read back for
every string of bytes, and a string of `n` characters that does not start with a zero digit stands for
a number of at least `58 ^ (n - 1)`.
-/

namespace CorgiCoin

open Codec Digits

/-! ## The reader -/

/-- `isspace`, in the C locale. -/
def isspace (c : Char) : Bool := c == ' ' || (9 ≤ c.toNat && c.toNat ≤ 13)

/-- The characters of a string before the first zero. -/
def cStr (str : List Char) : List Char := str.takeWhile (fun c => c != '\x00')

/-- `strchr(pszBase58, c)`, as an index. -/
def base58Index (c : Char) : Option ℕ := pszBase58.idxOf? c

/-- The loop of `DecodeBase58` over the digits; space is allowed at the end. -/
def decodeBase58Loop : List Char → ℕ → Option ℕ
  | [], bn => some bn
  | c :: p, bn =>
    match base58Index c with
    | some bnChar => decodeBase58Loop p (bn * 58 + bnChar)
    | none => if ((c :: p).dropWhile isspace).isEmpty then some bn else none

/-- The sign byte of a number, the last of its bytes, is taken off where it is there for the sign. -/
def trimSign (vch : Bytes) : Bytes :=
  match vch.reverse with
  | b :: b' :: _ => if b = 0 ∧ b' ≥ 0x80 then vch.dropLast else vch
  | _ => vch

def decodeBase58 (str : List Char) : Option Bytes :=
  let psz := (cStr str).dropWhile isspace
  match decodeBase58Loop psz 0 with
  | none => none
  | some bn =>
    let vchTmp := trimSign (getvch bn)
    let nLeadingZeros := (psz.takeWhile (fun c => c == base58Char 0)).length
    some (List.replicate nLeadingZeros 0 ++ vchTmp.reverse)

def decodeBase58Check (crypto : Crypto) (str : List Char) : Option Bytes :=
  match decodeBase58 str with
  | none => none
  | some vchRet =>
    if vchRet.length < 4 then none
    else
      let vch := vchRet.take (vchRet.length - 4)
      if (serializeUint256 (crypto.hash vch)).take 4 ≠ vchRet.drop (vchRet.length - 4) then none
      else some vch

/-! ## Numbers and bytes -/

/-- The bytes of a number are the given ones without the zeros in front. -/
theorem bnBytes_ofBE (vch : Bytes) :
  bnBytes (ofBE vch) = vch.dropWhile (fun b => b == 0)
  := by
  induction vch with
  | nil => rfl
  | cons b bs ih =>
    by_cases hb : b = 0
    · subst hb
      rw [ofBE_zero_cons, ih, List.dropWhile_cons_of_pos (by rfl)]
    · rw [bnBytes_ofBE_cons hb, List.dropWhile_cons_of_neg (by simpa using hb)]

/-- Without the sign byte the bytes of a number are those of its magnitude. -/
theorem trimSign_getvch (n : ℕ) :
  trimSign (getvch n) = (bnBytes n).reverse
  := by
  rw [getvch, bn2mpi, Int.natAbs_natCast]
  have hneg : ¬ (n : ℤ) < 0 := by omega
  cases hbytes : bnBytes n with
  | nil => rfl
  | cons b bs =>
    have hpos : 0 < n := by
      apply Nat.pos_of_ne_zero
      rintro rfl
      cases hbytes
    obtain ⟨b', bs', hbytes', hb⟩ := exists_bnBytes_cons hpos
    obtain ⟨rfl, rfl⟩ := List.cons.inj (hbytes.symm.trans hbytes')
    dsimp only
    rw [if_neg hneg, if_neg hneg, trimSign]
    split_ifs with htop
    · -- the top bit is set, and a zero byte stands before it
      have hge : b ≥ 0x80 := by
        by_contra hlt
        have hzero := and_top_bit (b := b) (by
          have hnat := UInt8.lt_iff_toNat_lt.mp (UInt8.not_le.mp hlt)
          simpa using hnat)
        simp [hzero] at htop
      rw [List.reverse_reverse]
      simp only [hge, and_self, if_true]
      rw [List.reverse_cons, List.dropLast_concat]
    · rw [List.reverse_reverse]
      cases bs with
      | nil => rfl
      | cons b' bs =>
        have hne : b ≠ 0 := by
          rintro rfl
          cases hb
        simp only [hne, false_and, if_false]

/-! ## The digits that are written -/

theorem encodeBase58Loop_eq (bn : ℕ) (str : List Char) :
  encodeBase58Loop bn str = str ++ (Nat.digits 58 bn).map base58Char
  := by
  induction bn using Nat.strong_induction_on generalizing str with
  | _ bn ih =>
    rw [encodeBase58Loop]
    split_ifs with hpos
    · rw [ih (bn / 58) (by omega), Nat.digits_def' (by decide) hpos, List.map_cons,
        List.append_assoc, List.singleton_append]
    · rw [Nat.le_zero.mp (not_lt.mp hpos), Nat.digits_zero, List.map_nil, List.append_nil]

/-- The digits of the number of a string of bytes, most significant first. -/
def base58Digits (vch : Bytes) : List ℕ := (Nat.digits 58 (ofBE vch)).reverse

/-- A string of bytes is written as a digit zero for each zero in front and the digits of its
number. -/
theorem encodeBase58_eq (vch : Bytes) :
  encodeBase58 vch =
    List.replicate (vch.takeWhile (fun b => b == 0)).length (base58Char 0)
      ++ (base58Digits vch).map base58Char
  := by
  rw [encodeBase58, setvch_reverse_append_zero, encodeBase58Loop_eq, List.nil_append, Int.toNat_natCast, List.reverse_append,
    List.map_const', List.reverse_replicate, base58Digits, List.map_reverse]

theorem base58Digits_lt {vch : Bytes} {d : ℕ} (h : d ∈ base58Digits vch) : d < 58 := by
  rw [base58Digits, List.mem_reverse] at h
  exact Nat.digits_lt_base (by decide) h

theorem value_base58Digits (vch : Bytes) : value 58 (base58Digits vch) = ofBE vch := by
  rw [value, base58Digits, List.reverse_reverse, Nat.ofDigits_digits]

/-- The first digit of a number is not zero. -/
theorem head_base58Digits {vch : Bytes} {d : ℕ} {ds : List ℕ} (h : base58Digits vch = d :: ds) :
  d ≠ 0
  := by
  have hne : Nat.digits 58 (ofBE vch) ≠ [] := by
    intro hnil
    rw [base58Digits, hnil] at h
    cases h
  have hzero : ofBE vch ≠ 0 := by
    intro hzero
    rw [hzero] at hne
    exact hne (Nat.digits_zero 58)
  have hlast := Nat.getLast_digit_ne_zero 58 hzero
  have hhead : (Nat.digits 58 (ofBE vch)).getLast hne = d := by
    rw [← List.head_reverse (by simpa using hne)]
    simp only [base58Digits] at h
    simp [h]
  rwa [hhead] at hlast

/-! ## Reading what was written -/

theorem base58Char_spec :
  ∀ d < 58, base58Index (base58Char d) = some d ∧ isspace (base58Char d) = false ∧
    base58Char d ≠ '\x00' ∧ (base58Char d = base58Char 0 → d = 0)
  := by
  decide

theorem decodeBase58Loop_map {ds : List ℕ} (h : ∀ d ∈ ds, d < 58) (bn : ℕ) :
  decodeBase58Loop (ds.map base58Char) bn = some (bn * 58 ^ ds.length + value 58 ds)
  := by
  induction ds generalizing bn with
  | nil => simp [decodeBase58Loop]
  | cons d ds ih =>
    rw [List.map_cons, decodeBase58Loop, (base58Char_spec d (h d (List.mem_cons_self ..))).1]
    dsimp only
    rw [ih (fun d' hd' => h d' (List.mem_cons_of_mem d hd')), value_cons, List.length_cons, pow_succ]
    congr 1
    ring

/-- A string of digits has no space and no zero character in it. -/
theorem dropWhile_cStr_map {ds : List ℕ} (h : ∀ d ∈ ds, d < 58) :
  (cStr (ds.map base58Char)).dropWhile isspace = ds.map base58Char
  := by
  have hcstr : cStr (ds.map base58Char) = ds.map base58Char := by
    rw [cStr, List.takeWhile_eq_self_iff]
    intro c hc
    obtain ⟨d, hd, rfl⟩ := List.mem_map.mp hc
    simpa using (base58Char_spec d (h d hd)).2.2.1
  rw [hcstr]
  cases ds with
  | nil => rfl
  | cons d ds =>
    rw [List.map_cons, List.dropWhile_cons_of_neg]
    simp [(base58Char_spec d (h d (List.mem_cons_self ..))).2.1]

/-- What is written, as digits. -/
theorem encodeBase58_eq_map (vch : Bytes) :
  encodeBase58 vch =
    (List.replicate (vch.takeWhile (fun b => b == 0)).length 0 ++ base58Digits vch).map base58Char
  := by
  rw [encodeBase58_eq, List.map_append, List.map_replicate]

theorem takeWhile_eq_replicate (vch : Bytes) :
  List.replicate (vch.takeWhile (fun b => b == 0)).length 0 = vch.takeWhile (fun b => b == 0)
  := by
  apply Eq.symm
  rw [List.eq_replicate_iff]
  exact ⟨rfl, fun b hb => by simpa using List.mem_takeWhile_imp hb⟩

/-- The zeros in front are as many as were written. -/
theorem takeWhile_map_digits (z : ℕ) (vch : Bytes) :
  (((List.replicate z 0 ++ base58Digits vch).map base58Char).takeWhile
    (fun c => c == base58Char 0)).length = z
  := by
  rw [List.map_append, List.map_replicate, List.takeWhile_append_of_pos]
  · cases hdigits : base58Digits vch with
    | nil => simp
    | cons d ds =>
      have hd : d < 58 := base58Digits_lt (hdigits ▸ List.mem_cons_self ..)
      rw [List.map_cons, List.takeWhile_cons_of_neg]
      · simp
      · simpa using fun h => head_base58Digits hdigits ((base58Char_spec d hd).2.2.2 h)
  · intro c hc
    simp [List.eq_of_mem_replicate hc]

/-- What `EncodeBase58` writes is read back. -/
theorem decodeBase58_encodeBase58 (vch : Bytes) :
  decodeBase58 (encodeBase58 vch) = some vch
  := by
  obtain ⟨z, hz⟩ : ∃ z, z = (vch.takeWhile (fun b => b == 0)).length := ⟨_, rfl⟩
  have hlt : ∀ d ∈ List.replicate z 0 ++ base58Digits vch, d < 58 := by
    intro d hd
    rcases List.mem_append.mp hd with hd | hd
    · rw [List.eq_of_mem_replicate hd]
      decide
    · exact base58Digits_lt hd
  have hvalue : value 58 (List.replicate z 0 ++ base58Digits vch) = ofBE vch := by
    rw [value_append, value_replicate_zero, zero_mul, zero_add, value_base58Digits]
  rw [encodeBase58_eq_map, decodeBase58, ← hz]
  simp only [dropWhile_cStr_map hlt, decodeBase58Loop_map hlt, zero_mul, zero_add, hvalue,
    trimSign_getvch, List.reverse_reverse, bnBytes_ofBE, takeWhile_map_digits, Option.some.injEq]
  rw [hz, takeWhile_eq_replicate, List.takeWhile_append_dropWhile]

/-- What `EncodeBase58Check` writes is read back, whatever the hash. -/
theorem decodeBase58Check_encodeBase58Check (crypto : Crypto) (vchIn : Bytes) :
  decodeBase58Check crypto (encodeBase58Check crypto vchIn) = some vchIn
  := by
  have hlen : ((serializeUint256 (crypto.hash vchIn)).take 4).length = 4 := by
    rw [List.length_take, serializeUint256, length_toLE]
    rfl
  rw [encodeBase58Check, decodeBase58Check, decodeBase58_encodeBase58]
  dsimp only
  rw [List.length_append, hlen, Nat.add_sub_cancel, List.take_left, List.drop_left,
    if_neg (by omega), if_neg (by simp)]

/-! ## Long strings stand for long numbers -/

theorem decodeBase58Loop_ge
    {p : List Char} {bn bn' : ℕ} (hspace : ∀ c ∈ p, isspace c = false)
    (h : decodeBase58Loop p bn = some bn') :
  bn * 58 ^ p.length ≤ bn'
  := by
  induction p generalizing bn with
  | nil =>
    simp only [decodeBase58Loop, Option.some.injEq] at h
    simp [h]
  | cons c p ih =>
    rw [decodeBase58Loop] at h
    cases hindex : base58Index c with
    | none =>
      rw [hindex, List.dropWhile_cons_of_neg (by simp [hspace c (List.mem_cons_self ..)])] at h
      cases h
    | some bnChar =>
      rw [hindex] at h
      have hge := ih (fun c' hc' => hspace c' (List.mem_cons_of_mem c hc')) h
      calc bn * 58 ^ (c :: p).length = bn * 58 * 58 ^ p.length := by
            rw [List.length_cons, pow_succ]
            ring
        _ ≤ (bn * 58 + bnChar) * 58 ^ p.length := Nat.mul_le_mul_right _ (Nat.le_add_right ..)
        _ ≤ bn' := hge

/-- The number of the bytes read is that of the digits. -/
theorem ofBE_of_decodeBase58 {str : List Char} {vch : Bytes} (h : decodeBase58 str = some vch) :
  decodeBase58Loop ((cStr str).dropWhile isspace) 0 = some (ofBE vch)
  := by
  rw [decodeBase58] at h
  dsimp only at h
  cases hloop : decodeBase58Loop ((cStr str).dropWhile isspace) 0 with
  | none =>
    rw [hloop] at h
    cases h
  | some bn =>
    rw [hloop] at h
    simp only [Option.some.injEq] at h
    rw [← h, trimSign_getvch, List.reverse_reverse, ofBE_append, ofBE_replicate_zero, zero_mul,
      zero_add, ofBE_bnBytes]

/-- A string without spaces that starts with a digit other than zero stands for at least as many
bytes as its length calls for. -/
theorem pow_le_of_decodeBase58
    {c : Char} {p : List Char} {vch : Bytes} (hchars : ∀ c' ∈ c :: p, isspace c' = false ∧ c' ≠ '\x00')
    (hne : c ≠ base58Char 0) (h : decodeBase58 (c :: p) = some vch) :
  58 ^ p.length < 256 ^ vch.length
  := by
  have hloop := ofBE_of_decodeBase58 h
  have hcstr : cStr (c :: p) = c :: p := by
    rw [cStr, List.takeWhile_eq_self_iff]
    intro c' hc'
    simpa using (hchars c' hc').2
  rw [hcstr, List.dropWhile_cons_of_neg (by simp [(hchars c (List.mem_cons_self ..)).1]),
    decodeBase58Loop] at hloop
  cases hindex : base58Index c with
  | none =>
    rw [hindex, List.dropWhile_cons_of_neg (by simp [(hchars c (List.mem_cons_self ..)).1])] at hloop
    cases hloop
  | some bnChar =>
    rw [hindex] at hloop
    have hpos : 0 < bnChar := by
      apply Nat.pos_of_ne_zero
      rintro rfl
      obtain ⟨_, hc, -⟩ := List.idxOf?_eq_some_iff.mp hindex
      exact hne hc.symm
    have hge := decodeBase58Loop_ge (fun c' hc' => (hchars c' (List.mem_cons_of_mem c hc')).1) hloop
    have hlt : ofBE vch < 256 ^ vch.length := by
      have hlt := ofLE_lt vch.reverse
      rwa [List.length_reverse] at hlt
    calc 58 ^ p.length ≤ (0 * 58 + bnChar) * 58 ^ p.length := by
          rw [zero_mul, zero_add]
          exact Nat.le_mul_of_pos_left _ hpos
      _ ≤ ofBE vch := hge
      _ < 256 ^ vch.length := hlt

end CorgiCoin
