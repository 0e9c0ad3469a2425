import CorgiCoin.Base58
import CorgiCoin.CoinSelection
import CorgiCoin.FeeRange

/-!
# Amounts as text

`FormatMoney` writes an amount with two to eight decimals, and `ParseMoney` reads a decimal number in
white space.  The reader takes ten digits before the point at most, and the largest amount has eleven.
-/

namespace CorgiCoin

/-! ## The writer -/

/-- A number in decimal, as `%lld` writes it. -/
def formatInt64 (n : Int64) : List Char :=
  (if n < 0 then ['-'] else []) ++ Nat.toDigits 10 n.toInt.natAbs

/-- The zeros at the end of a string, given backwards, up to the last two decimals. -/
def trimCount : List Char → ℕ
  | c :: d :: e :: str => if c = '0' ∧ e.isDigit then trimCount (d :: e :: str) + 1 else 0
  | _ => 0

def formatMoney (n : Int64) (fPlus : Bool) : List Char :=
  let nAbs := if n > 0 then n else -n
  let quotient := nAbs / COIN
  let remainder := nAbs % COIN
  let str := formatInt64 quotient ++ '.' :: (formatInt64 remainder).leftpad 8 '0'
  let nTrim := trimCount str.reverse
  let str := str.take (str.length - nTrim)
  if n < 0 then '-' :: str else if fPlus && n > 0 then '+' :: str else str

/-! ## The reader -/

/-- `atoi64` of a string of digits. -/
def atoi64 (str : List Char) : Int64 := Int64.ofNat (min (Nat.ofDigitChars 10 str 0) (2 ^ 63 - 1))

/-- The loop of `ParseMoney` over the decimals: the units and what is left; `none` where a 64-bit
operation overflows. -/
def unitsLoop : Int64 → Int64 → List Char → Option (Int64 × List Char)
  | nMult, nUnits, c :: p =>
    if c.isDigit ∧ nMult > 0 then do
      let nPart ← checkedMul nMult (Int64.ofNat (c.toNat - '0'.toNat))
      let nUnits ← checkedAdd nUnits nPart
      unitsLoop (nMult / 10) nUnits p
    else some (nUnits, c :: p)
  | _, nUnits, [] => some (nUnits, [])

/-- The loop of `ParseMoney` over the whole digits: these, the units and what is left; `some none` where
the function returns false. -/
def wholeLoop (strWhole : List Char) : List Char → Option (Option (List Char × Int64 × List Char))
  | [] => some (some (strWhole, 0, []))
  | c :: p =>
    if c = '.' then (unitsLoop (CENT * 10) 0 p).map (fun units => some (strWhole, units.1, units.2))
    else if isspace c then some (some (strWhole, 0, c :: p))
    else if !c.isDigit then some none
    else wholeLoop (strWhole ++ [c]) p

/-- `ParseMoney`: `none` where a 64-bit operation overflows, and `some none` where it returns false. -/
def parseMoney (str : List Char) : Option (Option Int64) := do
  match ← wholeLoop [] ((cStr str).dropWhile isspace) with
  | none => return none
  | some (strWhole, nUnits, p) =>
    if p.any (fun c => !isspace c) then return none
    else if strWhole.length > 10 then return none
    else if nUnits < 0 ∨ nUnits > COIN then return none
    else
      let nWhole := atoi64 strWhole
      let nProduct ← checkedMul nWhole COIN
      let nValue ← checkedAdd nProduct nUnits
      return some nValue

/-! ## Decimal numbers -/

/-- A decimal number with at most eight decimals, and its exact value in units. -/
def IsDecimal (body : List Char) (n : ℤ) : Prop :=
  ∃ whole frac, (body = whole ∧ frac = [] ∨ body = whole ++ '.' :: frac) ∧ whole ++ frac ≠ []
    ∧ (∀ c ∈ whole ++ frac, c.isDigit) ∧ frac.length ≤ 8
    ∧ n * 10 ^ frac.length = Nat.ofDigitChars 10 (whole ++ frac) 0 * COIN.toInt

/-- A decimal number in white space. -/
def IsAmount (str : List Char) (n : ℤ) : Prop :=
  ∃ front body back, str = front ++ body ++ back ∧ (∀ c ∈ front ++ back, isspace c) ∧ IsDecimal body n

/-! ## Reading decimals -/

theorem checkedAdd_ofNat {a b : ℕ} (h : a + b < 2 ^ 63) :
  checkedAdd (Int64.ofNat a) (Int64.ofNat b) = some (Int64.ofNat (a + b))
  := by
  have ha : (Int64.ofNat a).toInt = a := Int64.toInt_ofNat_of_lt (by omega)
  have hb : (Int64.ofNat b).toInt = b := Int64.toInt_ofNat_of_lt (by omega)
  rw [checkedAdd_eq (by omega) (by omega), Int64.ofNat_add]

theorem checkedMul_ofNat {a b : ℕ} (ha : a < 2 ^ 63) (hb : b < 2 ^ 63) (h : a * b < 2 ^ 63) :
  checkedMul (Int64.ofNat a) (Int64.ofNat b) = some (Int64.ofNat (a * b))
  := by
  have ha' : (Int64.ofNat a).toInt = a := Int64.toInt_ofNat_of_lt ha
  have hb' : (Int64.ofNat b).toInt = b := Int64.toInt_ofNat_of_lt hb
  rw [checkedMul_eq, Int64.ofNat_mul]
  · rw [ha', hb']
    exact le_trans (by decide) (Int.mul_nonneg (Int.natCast_nonneg a) (Int.natCast_nonneg b))
  · rw [ha', hb']
    exact_mod_cast h

/-- The decimals that the loop reads where `k` may still follow. -/
def decimals (k : ℕ) (p : List Char) : List Char := (p.take k).takeWhile Char.isDigit

variable {c : Char}

theorem toNat_digit (h : c.isDigit = true) : 48 ≤ c.toNat ∧ c.toNat ≤ 57
  := by
  rw [Char.isDigit, Bool.and_eq_true, decide_eq_true_iff, decide_eq_true_iff] at h
  exact h

theorem digit_le (h : c.isDigit = true) : c.toNat - '0'.toNat ≤ 9
  := by
  have hrange := toNat_digit h
  have hzero : '0'.toNat = 48 := rfl
  omega

theorem ofDigitChars_lt {ds : List Char} (h : ∀ c ∈ ds, c.isDigit = true) :
  Nat.ofDigitChars 10 ds 0 < 10 ^ ds.length
  := by
  induction ds with
  | nil => decide
  | cons c ds ih =>
    obtain ⟨hc, hds⟩ := List.forall_mem_cons.mp h
    have hle := Nat.mul_le_mul_left (10 ^ ds.length) (digit_le hc)
    have hlt := ih hds
    rw [Nat.ofDigitChars_cons, Nat.ofDigitChars_eq_ofDigitChars_zero, Nat.mul_zero, Nat.zero_add,
      List.length_cons, pow_succ]
    omega

theorem decimals_cons_of_isDigit (h : c.isDigit = true) (k : ℕ) (p : List Char) :
  decimals (k + 1) (c :: p) = c :: decimals k p
  := by rw [decimals, List.take_succ_cons, List.takeWhile_cons_of_pos h]; rfl

theorem decimals_cons_of_not_isDigit (h : c.isDigit = false) (k : ℕ) (p : List Char) :
  decimals k (c :: p) = []
  := by
  cases k with
  | zero => rfl
  | succ k =>
    rw [decimals, List.take_succ_cons, List.takeWhile_cons_of_neg]
    rw [h]
    exact Bool.false_ne_true

theorem length_decimals_le (k : ℕ) (p : List Char) : (decimals k p).length ≤ k :=
  ((List.takeWhile_prefix _).length_le).trans (List.length_take_le k p)

theorem isDigit_of_mem_decimals {k : ℕ} {p : List Char} {c : Char} (h : c ∈ decimals k p) : c.isDigit :=
  List.mem_takeWhile_imp h

/-- The multipliers of the decimals. -/
theorem nMult_facts :
  ∀ k < 9, (Int64.ofNat (10 ^ k / 10) > 0 ↔ 0 < k)
    ∧ Int64.ofNat (10 ^ (k + 1) / 10) / 10 = Int64.ofNat (10 ^ k / 10)
  := by decide

variable {u : ℕ}

/-- The loop reads up to `k` decimals, and the first of them counts a tenth of `10 ^ k`. -/
theorem unitsLoop_eq {k : ℕ} (hk : k ≤ 8) (p : List Char) (hu : u + 10 ^ k ≤ 10 ^ 8) :
  unitsLoop (Int64.ofNat (10 ^ k / 10)) (Int64.ofNat u) p
    = some (Int64.ofNat (u + Nat.ofDigitChars 10 (decimals k p) 0 * 10 ^ (k - (decimals k p).length)),
      p.drop (decimals k p).length)
  := by
  induction p generalizing k u with
  | nil =>
    have hnone : decimals k [] = [] := by rw [decimals, List.take_nil]; rfl
    rw [hnone, unitsLoop, Nat.ofDigitChars_nil, Nat.zero_mul, Nat.add_zero]
    rfl
  | cons c p ih =>
    rw [unitsLoop]
    rcases em (c.isDigit = true ∧ 0 < k) with ⟨hdigit, hpos⟩ | hstop
    · obtain ⟨j, rfl⟩ : ∃ j, k = j + 1 := ⟨k - 1, by omega⟩
      have hd := digit_le hdigit
      have hlength := length_decimals_le j p
      have hpart := Nat.mul_le_mul_left (10 ^ j) hd
      have hpow : 10 ^ (j + 1) / 10 = 10 ^ j := by rw [pow_succ, Nat.mul_div_cancel _ (by decide)]
      rw [if_pos ⟨hdigit, (nMult_facts (j + 1) (by omega)).1.mpr hpos⟩,
        (nMult_facts j (by omega)).2, hpow]
      rw [pow_succ] at hu
      rw [checkedMul_ofNat (by omega) (by omega) (by omega), Option.bind_eq_bind, Option.bind_some,
        checkedAdd_ofNat (by omega), Option.bind_some, ih (by omega) (by omega),
        decimals_cons_of_isDigit hdigit, List.length_cons, List.drop_succ_cons, Nat.ofDigitChars_cons,
        @Nat.ofDigitChars_eq_ofDigitChars_zero _ (_ + _), Nat.mul_zero, Nat.zero_add,
        Nat.add_sub_add_right]
      have hsplit : 10 ^ j = 10 ^ (decimals j p).length * 10 ^ (j - (decimals j p).length) := by
        rw [← pow_add]
        congr 1
        omega
      congr 3
      rw [hsplit]
      ring
    · have hnone : decimals k (c :: p) = [] := by
        rcases Nat.eq_zero_or_pos k with rfl | hpos
        · rfl
        · apply decimals_cons_of_not_isDigit
          rw [← Bool.not_eq_true]
          exact fun hdigit => hstop ⟨hdigit, hpos⟩
      rw [if_neg, hnone, Nat.ofDigitChars_nil, Nat.zero_mul, Nat.add_zero]
      · rfl
      · rintro ⟨hdigit, hpos⟩
        exact hstop ⟨hdigit, (nMult_facts k (by omega)).1.mp hpos⟩

/-- The units that are read after the whole digits, and what is left. -/
def afterWhole : List Char → Option (ℕ × List Char)
  | [] => some (0, [])
  | c :: p =>
    if c = '.' then
      some (Nat.ofDigitChars 10 (decimals 8 p) 0 * 10 ^ (8 - (decimals 8 p).length),
        p.drop (decimals 8 p).length)
    else if isspace c then some (0, c :: p)
    else none

theorem units_lt {p q : List Char} (h : afterWhole p = some (u, q)) : u < 10 ^ 8
  := by
  cases p with
  | nil =>
    cases h
    decide
  | cons c p =>
    rw [afterWhole] at h
    split_ifs at h
    · cases h
      have hlength := length_decimals_le 8 p
      have hlt := ofDigitChars_lt (fun c hc => @isDigit_of_mem_decimals 8 p c hc)
      have hsplit : 10 ^ 8 = 10 ^ (decimals 8 p).length * 10 ^ (8 - (decimals 8 p).length) := by
        rw [← pow_add]
        congr 1
        omega
      rw [hsplit]
      exact Nat.mul_lt_mul_of_pos_right hlt (Nat.pow_pos (by decide))
    · cases h
      decide

theorem isspace_of_isDigit (h : c.isDigit = true) : isspace c = false
  := by
  have hrange := toNat_digit h
  have hspace : c ≠ ' ' := by
    rintro rfl
    cases h
  rw [isspace, Bool.or_eq_false_iff, beq_eq_false_iff_ne, Bool.and_eq_false_iff, decide_eq_false_iff_not,
    decide_eq_false_iff_not]
  exact ⟨hspace, .inr (by omega)⟩

theorem wholeLoop_eq (strWhole p : List Char) :
  wholeLoop strWhole p
    = some ((afterWhole (p.dropWhile Char.isDigit)).map (fun read =>
      (strWhole ++ p.takeWhile Char.isDigit, Int64.ofNat read.1, read.2)))
  := by
  induction p generalizing strWhole with
  | nil => rw [wholeLoop, List.takeWhile_nil, List.append_nil]; rfl
  | cons c p ih =>
    rw [wholeLoop]
    by_cases hdigit : c.isDigit = true
    · have hpoint : c ≠ '.' := by
        rintro rfl
        cases hdigit
      rw [if_neg hpoint, isspace_of_isDigit hdigit, if_neg Bool.false_ne_true, hdigit, Bool.not_true,
        if_neg Bool.false_ne_true, ih, List.dropWhile_cons_of_pos hdigit,
        List.takeWhile_cons_of_pos hdigit, List.append_assoc, List.singleton_append]
    · rw [List.dropWhile_cons_of_neg hdigit, List.takeWhile_cons_of_neg hdigit, List.append_nil,
        afterWhole]
      split_ifs with hpoint hspace
      · have hcent : CENT * 10 = Int64.ofNat (10 ^ 8 / 10) := by
          rw [CENT]
          decide
        have hzero : (0 : Int64) = Int64.ofNat 0 := rfl
        rw [hcent, hzero, unitsLoop_eq le_rfl p (by decide), Nat.zero_add]
        rfl
      · rfl
      · rfl
      · rename_i hother
        rw [Bool.not_eq_true] at hdigit
        rw [hdigit] at hother
        exact absurd rfl hother

/-- `ParseMoney` computes without overflow. -/
theorem parseMoney_eq (str : List Char) :
  parseMoney str
    = some (((afterWhole (((cStr str).dropWhile isspace).dropWhile Char.isDigit)).filter (fun read =>
        read.2.all isspace && decide ((((cStr str).dropWhile isspace).takeWhile Char.isDigit).length ≤ 10))).map
      (fun read => Int64.ofNat
        (Nat.ofDigitChars 10 (((cStr str).dropWhile isspace).takeWhile Char.isDigit) 0 * 10 ^ 8 + read.1)))
  := by
  rw [parseMoney, wholeLoop_eq]
  generalize (cStr str).dropWhile isspace = p
  cases hread : afterWhole (p.dropWhile Char.isDigit) with
  | none => rfl
  | some read =>
    obtain ⟨u, q⟩ := read
    have hu := units_lt hread
    have hunits : (Int64.ofNat u).toInt = u := Int64.toInt_ofNat_of_lt (by omega)
    have hcoin : COIN.toInt = 10 ^ 8 := by decide
    have hrange : ¬(Int64.ofNat u < 0 ∨ Int64.ofNat u > COIN) := by
      rw [gt_iff_lt, Int64.lt_iff_toInt_lt, Int64.lt_iff_toInt_lt, hunits, hcoin]
      have hzero : (0 : Int64).toInt = 0 := rfl
      omega
    simp only [Option.map_some, List.nil_append, Option.bind_eq_bind, Option.bind_some, Option.filter_some]
    rw [if_neg hrange, ← List.not_all_eq_any_not]
    cases hrest : q.all isspace with
    | false => rfl
    | true =>
      by_cases hlength : (p.takeWhile Char.isDigit).length > 10
      · rw [Bool.not_true, if_neg Bool.false_ne_true, if_pos hlength, decide_eq_false (by omega)]
        rfl
      · have hwhole := ofDigitChars_lt (fun c hc => @List.mem_takeWhile_imp _ Char.isDigit p c hc)
        have hpow := Nat.pow_le_pow_right (show 0 < 10 by decide) (Nat.le_of_not_lt hlength)
        have hcoin' : COIN = Int64.ofNat (10 ^ 8) := by decide
        rw [Bool.not_true, if_neg Bool.false_ne_true, if_neg hlength, decide_eq_true (by omega), atoi64,
          Nat.min_eq_left (by omega), hcoin', checkedMul_ofNat (by omega) (by omega) (by omega),
          Option.bind_some, checkedAdd_ofNat (by omega), Option.bind_some]
        rfl

/-! ## What is accepted -/

theorem decimals_append_drop (k : ℕ) (p : List Char) : decimals k p ++ p.drop (decimals k p).length = p
  := by
  have hprefix : decimals k p <+: p := (List.takeWhile_prefix _).trans (List.take_prefix k p)
  exact (List.prefix_iff_eq_append.mp hprefix)

/-- What follows the whole digits of an accepted text. -/
theorem afterWhole_shape {p q : List Char} (h : afterWhole p = some (u, q)) :
  ∃ frac, (p = q ∧ frac = [] ∨ p = '.' :: (frac ++ q)) ∧ (∀ c ∈ frac, c.isDigit = true) ∧ frac.length ≤ 8
    ∧ u * 10 ^ frac.length = Nat.ofDigitChars 10 frac 0 * 10 ^ 8
  := by
  cases p with
  | nil =>
    cases h
    exact ⟨[], .inl ⟨rfl, rfl⟩, by simp, by decide, by decide⟩
  | cons c p =>
    rw [afterWhole] at h
    split_ifs at h with hpoint hspace
    · cases h
      have hlength := length_decimals_le 8 p
      refine ⟨decimals 8 p, .inr ?_, fun c hc => isDigit_of_mem_decimals hc, hlength, ?_⟩
      · rw [hpoint, decimals_append_drop]
      · rw [Nat.mul_assoc, ← pow_add]
        congr 2
        omega
    · cases h
      exact ⟨[], .inl ⟨rfl, rfl⟩, by simp, by decide, by decide⟩

variable {n : Int64}

/-- An accepted text: white space around digits, which a point may divide. -/
theorem parseMoney_shape {str : List Char} (h : parseMoney str = some (some n)) :
  ∃ front whole frac body back, cStr str = front ++ body ++ back ∧ (∀ c ∈ front ++ back, isspace c = true)
    ∧ (body = whole ∧ frac = [] ∨ body = whole ++ '.' :: frac) ∧ (∀ c ∈ whole ++ frac, c.isDigit = true)
    ∧ frac.length ≤ 8 ∧ n.toInt * 10 ^ frac.length = Nat.ofDigitChars 10 (whole ++ frac) 0 * COIN.toInt
  := by
  have hcoin : COIN.toInt = 10 ^ 8 := by decide
  rw [parseMoney_eq, Option.some.injEq, Option.map_eq_some_iff] at h
  obtain ⟨⟨u, q⟩, hread, rfl⟩ := h
  rw [Option.filter_eq_some_iff, Bool.and_eq_true, decide_eq_true_iff] at hread
  obtain ⟨hread, hback, hlength⟩ := hread
  have hu := units_lt hread
  obtain ⟨frac, hrest, hfrac, hdecimals, hunits⟩ := afterWhole_shape hread
  have hfront : (cStr str).takeWhile isspace ++ (cStr str).dropWhile isspace = cStr str :=
    List.takeWhile_append_dropWhile
  generalize (cStr str).dropWhile isspace = p at hfront hrest hlength
  have hp : p.takeWhile Char.isDigit ++ p.dropWhile Char.isDigit = p := List.takeWhile_append_dropWhile
  have hdigits : ∀ c ∈ p.takeWhile Char.isDigit, c.isDigit = true := fun c hc => List.mem_takeWhile_imp hc
  have hwhole := ofDigitChars_lt hdigits
  have hpow := Nat.pow_le_pow_right (show 0 < 10 by decide) hlength
  have hspaces : ∀ c ∈ (cStr str).takeWhile isspace ++ q, isspace c = true := by
    intro c hc
    rcases List.mem_append.mp hc with hc | hc
    · exact List.mem_takeWhile_imp hc
    · exact List.all_eq_true.mp hback c hc
  have hall : ∀ c ∈ p.takeWhile Char.isDigit ++ frac, c.isDigit = true := by
    intro c hc
    rcases List.mem_append.mp hc with hc | hc
    · exact hdigits c hc
    · exact hfrac c hc
  have hvalue : (Int64.ofNat (Nat.ofDigitChars 10 (p.takeWhile Char.isDigit) 0 * 10 ^ 8 + u)).toInt
      * 10 ^ frac.length
      = Nat.ofDigitChars 10 (p.takeWhile Char.isDigit ++ frac) 0 * COIN.toInt := by
    rw [Int64.toInt_ofNat_of_lt (by omega), hcoin, Nat.ofDigitChars_append,
      Nat.ofDigitChars_eq_ofDigitChars_zero (l := frac)]
    push_cast
    have hunits' : (u : ℤ) * 10 ^ frac.length = Nat.ofDigitChars 10 frac 0 * 10 ^ 8 := by
      exact_mod_cast hunits
    rw [Int.add_mul, hunits']
    ring
  rcases hrest with ⟨hrest, rfl⟩ | hrest
  · refine ⟨_, p.takeWhile Char.isDigit, [], p.takeWhile Char.isDigit, q, ?_, hspaces, .inl ⟨rfl, rfl⟩, hall,
      hdecimals, hvalue⟩
    rw [List.append_assoc, ← hrest, hp, hfront]
  · refine ⟨_, p.takeWhile Char.isDigit, frac, p.takeWhile Char.isDigit ++ '.' :: frac, q, ?_, hspaces,
      .inr rfl, hall, hdecimals, hvalue⟩
    rw [List.append_assoc, List.append_assoc, List.cons_append, ← hrest, hp, hfront]

theorem isspace_ne (h : isspace c = true) : c ≠ '\x00' ∧ c.isDigit = false
  := by
  constructor
  · rintro rfl
    cases h
  · rw [← Bool.not_eq_true]
    intro hdigit
    rw [isspace_of_isDigit hdigit] at h
    cases h

section Body

variable {body whole frac : List Char} {c : Char}

theorem point_or_digit_of_mem (hbody : body = whole ∧ frac = [] ∨ body = whole ++ '.' :: frac) (h : c ∈ body) :
  c = '.' ∨ c ∈ whole ++ frac
  := by
  rcases hbody with ⟨rfl, -⟩ | rfl
  · exact .inr (List.mem_append_left _ h)
  · rcases List.mem_append.mp h with h | h
    · exact .inr (List.mem_append_left _ h)
    · rcases List.mem_cons.mp h with h | h
      · exact .inl h
      · exact .inr (List.mem_append_right _ h)

theorem mem_of_digit_mem (hbody : body = whole ∧ frac = [] ∨ body = whole ++ '.' :: frac)
    (h : c ∈ whole ++ frac) :
  c ∈ body
  := by
  rcases hbody with ⟨rfl, rfl⟩ | rfl
  · rwa [List.append_nil] at h
  · rcases List.mem_append.mp h with h | h
    · exact List.mem_append_left _ h
    · exact List.mem_append_right _ (List.mem_cons_of_mem _ h)

end Body

/-- An accepted text is an amount of the units it is read as, unless it has no digit or goes on after a
zero byte. -/
theorem isAmount_iff {str : List Char} (h : parseMoney str = some (some n)) :
  IsAmount str n.toInt ↔ '\x00' ∉ str ∧ ∃ c ∈ str, c.isDigit = true
  := by
  constructor
  · rintro ⟨front, body, back, rfl, hspaces, whole, frac, hbody, hne, hdigits, -, -⟩
    constructor
    · intro hzero
      have hspace : '\x00' ∉ front ++ back := fun hmem => (isspace_ne (hspaces _ hmem)).1 rfl
      rw [List.mem_append] at hspace
      push Not at hspace
      rcases List.mem_append.mp hzero with hzero | hzero
      · rcases List.mem_append.mp hzero with hzero | hzero
        · exact hspace.1 hzero
        · rcases point_or_digit_of_mem hbody hzero with hpoint | hdigit
          · cases hpoint
          · cases hdigits _ hdigit
      · exact hspace.2 hzero
    · obtain ⟨c, hc⟩ := List.exists_mem_of_ne_nil _ hne
      have hmem := mem_of_digit_mem hbody hc
      exact ⟨c, List.mem_append_left _ (List.mem_append_right _ hmem), hdigits c hc⟩
  · rintro ⟨hzero, c, hc, hdigit⟩
    obtain ⟨front, whole, frac, body, back, hcstr, hspaces, hbody, hdigits, hdecimals, hvalue⟩ :=
      parseMoney_shape h
    have hstr : cStr str = str := by
      rw [cStr, List.takeWhile_eq_self_iff]
      intro c hc
      rw [bne_iff_ne]
      rintro rfl
      exact hzero hc
    rw [hstr] at hcstr
    refine ⟨front, body, back, hcstr, hspaces, whole, frac, hbody, ?_, hdigits, hdecimals, hvalue⟩
    intro hnil
    have hspace : c ∉ front ++ back := by
      intro hmem
      rw [(isspace_ne (hspaces c hmem)).2] at hdigit
      cases hdigit
    have hnot : c ∉ body := by
      intro hmem
      rcases point_or_digit_of_mem hbody hmem with rfl | hmem
      · cases hdigit
      · rw [hnil] at hmem
        cases hmem
    rw [List.mem_append] at hspace
    push Not at hspace
    rw [hcstr, List.mem_append, List.mem_append] at hc
    rcases hc with (hc | hc) | hc
    · exact hspace.1 hc
    · exact hnot hc
    · exact hspace.2 hc

/-! ## Reading back what is written -/

/-- At least two digits stand before the trimmed zeros. -/
theorem trimCount_spec
    {ds str : List Char} (hdigits : ∀ c ∈ ds, c.isDigit = true) (hlength : 2 ≤ ds.length) :
  trimCount (ds ++ '.' :: str) + 2 ≤ ds.length
    ∧ ds.take (trimCount (ds ++ '.' :: str)) = List.replicate (trimCount (ds ++ '.' :: str)) '0'
  := by
  induction ds with
  | nil => simp at hlength
  | cons c ds ih =>
    obtain ⟨-, hds⟩ := List.forall_mem_cons.mp hdigits
    cases ds with
    | nil => simp at hlength
    | cons d ds =>
      cases ds with
      | nil => simp [trimCount]
      | cons e ds =>
        obtain ⟨hle, hzeros⟩ := ih hds (by simp)
        have he : e.isDigit = true := hds e (by simp)
        simp only [List.cons_append] at hle hzeros ⊢
        rw [trimCount]
        split_ifs with hzero
        · rw [List.take_succ_cons, hzeros, List.replicate_succ, hzero.1]
          rw [List.length_cons]
          exact ⟨by omega, rfl⟩
        · simp

variable {m : ℕ}

theorem formatInt64_eq (h : n.toInt = m) : formatInt64 n = Nat.toDigits 10 m
  := by
  have hneg : ¬n < 0 := by
    rw [Int64.lt_iff_toInt_lt, h]
    exact Int.not_lt.mpr (Int.natCast_nonneg m)
  rw [formatInt64, if_neg hneg, List.nil_append, h, Int.natAbs_natCast]

/-- Eight decimals, with zeros in front. -/
theorem leftpad_toDigits {r : ℕ} (h : r < 10 ^ 8) :
  ((Nat.toDigits 10 r).leftpad 8 '0').length = 8
    ∧ (∀ c ∈ (Nat.toDigits 10 r).leftpad 8 '0', c.isDigit = true)
    ∧ Nat.ofDigitChars 10 ((Nat.toDigits 10 r).leftpad 8 '0') 0 = r
  := by
  have hlength := (Nat.length_toDigits_le_iff (show 1 < 10 by decide) (show 0 < 8 by decide)).mpr h
  refine ⟨?_, ?_, ?_⟩
  · rw [List.length_leftpad, Nat.max_eq_left hlength]
  · intro c hc
    rw [List.leftpad] at hc
    rcases List.mem_append.mp hc with hc | hc
    · rw [List.eq_of_mem_replicate hc]
      rfl
    · exact Nat.isDigit_of_mem_toDigits (by decide) (by decide) hc
  · rw [List.leftpad, Nat.ofDigitChars_append, Nat.ofDigitChars_replicate_zero, Nat.mul_zero,
      Nat.ofDigitChars_ten_toDigits]

/-- An amount is written as its coins and its decimals, without some of the zeros at the end. -/
theorem formatMoney_eq (h : n.toInt = m) :
  ∃ frac k, (∀ c ∈ frac, c.isDigit = true) ∧ frac.length + k = 8
    ∧ formatMoney n false = Nat.toDigits 10 (m / 10 ^ 8) ++ '.' :: frac
    ∧ Nat.ofDigitChars 10 frac 0 * 10 ^ k = m % 10 ^ 8
  := by
  have hcoin : COIN.toInt = (10 ^ 8 : ℕ) := by decide
  have hzero : (0 : Int64).toInt = 0 := rfl
  have hneg : ¬n < 0 := by
    rw [Int64.lt_iff_toInt_lt, h, hzero]
    omega
  have habs : (if n > 0 then n else -n) = n := by
    split_ifs with hpos
    · rfl
    · rw [gt_iff_lt, Int64.lt_iff_toInt_lt, h, hzero] at hpos
      have hn : n = 0 := by
        rw [← Int64.toInt_inj, h, hzero]
        omega
      rw [hn]
      rfl
  have hquotient : formatInt64 (n / COIN) = Nat.toDigits 10 (m / 10 ^ 8) := by
    apply formatInt64_eq
    rw [Int64.toInt_div_of_ne_right _ _ (by decide), h, hcoin]
    exact (Int.ofNat_tdiv m (10 ^ 8)).symm
  have hremainder : formatInt64 (n % COIN) = Nat.toDigits 10 (m % 10 ^ 8) := by
    apply formatInt64_eq
    rw [Int64.toInt_mod, h, hcoin]
    exact (Int.ofNat_tmod m (10 ^ 8)).symm
  obtain ⟨hlength, hdigits, hvalue⟩ := leftpad_toDigits (Nat.mod_lt m (show 0 < 10 ^ 8 by decide))
  rw [formatMoney, habs, hquotient, hremainder]
  generalize (Nat.toDigits 10 (m % 10 ^ 8)).leftpad 8 '0' = decimals at hlength hdigits hvalue ⊢
  have hreverse : (Nat.toDigits 10 (m / 10 ^ 8) ++ '.' :: decimals).reverse
      = decimals.reverse ++ '.' :: (Nat.toDigits 10 (m / 10 ^ 8)).reverse := by
    simp
  obtain ⟨hle, hzeros⟩ := @trimCount_spec decimals.reverse (Nat.toDigits 10 (m / 10 ^ 8)).reverse
    (fun c hc => hdigits c (List.mem_reverse.mp hc)) (by rw [List.length_reverse, hlength]; decide)
  rw [hreverse]
  generalize trimCount (decimals.reverse ++ '.' :: (Nat.toDigits 10 (m / 10 ^ 8)).reverse) = k at hle hzeros ⊢
  rw [List.length_reverse, hlength] at hle
  have hdrop : decimals.drop (8 - k) = List.replicate k '0' := by
    rw [List.take_reverse, hlength] at hzeros
    rw [← List.reverse_reverse (decimals.drop (8 - k)), hzeros, List.reverse_replicate]
  have hsplit : decimals = decimals.take (8 - k) ++ List.replicate k '0' := by
    rw [← hdrop, List.take_append_drop]
  refine ⟨decimals.take (8 - k), k, fun c hc => hdigits c (List.mem_of_mem_take hc), ?_, ?_, ?_⟩
  · rw [List.length_take, hlength]
    omega
  · rw [if_neg hneg, Bool.false_and, if_neg Bool.false_ne_true, List.length_append, List.length_cons, hlength]
    have htake : (Nat.toDigits 10 (m / 10 ^ 8)).length + (8 + 1) - k
        = (Nat.toDigits 10 (m / 10 ^ 8)).length + (8 - k + 1) := by omega
    rw [htake, List.take_length_add_append, List.take_succ_cons]
  · conv_rhs => rw [← hvalue, hsplit]
    rw [Nat.ofDigitChars_append, Nat.ofDigitChars_replicate_zero, Nat.mul_comm]

/-- What is written is read back, where there are ten digits before the point at most. -/
theorem parseMoney_formatMoney (h : n.toInt = m) :
  parseMoney (formatMoney n false) = some (if m / 10 ^ 8 < 10 ^ 10 then some n else none)
  := by
  obtain ⟨frac, k, hfrac, hlength, hformat, hvalue⟩ := formatMoney_eq h
  have hwhole : ∀ c ∈ Nat.toDigits 10 (m / 10 ^ 8), c.isDigit = true :=
    fun c hc => Nat.isDigit_of_mem_toDigits (by decide) (by decide) hc
  have hpoint : ('.').isDigit = false := rfl
  have hcstr : cStr (formatMoney n false) = formatMoney n false := by
    rw [cStr, List.takeWhile_eq_self_iff, hformat]
    intro c hc
    rw [bne_iff_ne]
    rintro rfl
    rcases List.mem_append.mp hc with hc | hc
    · cases hwhole _ hc
    · rcases List.mem_cons.mp hc with hc | hc
      · cases hc
      · cases hfrac _ hc
  have hspaces : (formatMoney n false).dropWhile isspace = formatMoney n false := by
    obtain ⟨c, rest, hcons⟩ := List.exists_cons_of_ne_nil (Nat.toDigits_ne_nil (n := m / 10 ^ 8) (b := 10))
    have hc := hwhole c (by rw [hcons]; exact List.mem_cons_self)
    rw [hformat, hcons, List.cons_append, List.dropWhile_cons_of_neg]
    rw [isspace_of_isDigit hc]
    exact Bool.false_ne_true
  have htake : (formatMoney n false).takeWhile Char.isDigit = Nat.toDigits 10 (m / 10 ^ 8) := by
    rw [hformat, List.takeWhile_append_of_pos hwhole, List.takeWhile_cons_of_neg (by rw [hpoint]; decide),
      List.append_nil]
  have hdrop : (formatMoney n false).dropWhile Char.isDigit = '.' :: frac := by
    rw [hformat, List.dropWhile_append_of_pos hwhole, List.dropWhile_cons_of_neg (by rw [hpoint]; decide)]
  have hdecimals : decimals 8 frac = frac := by
    rw [decimals, List.take_of_length_le (by omega), List.takeWhile_eq_self_iff]
    exact hfrac
  have hread : afterWhole ('.' :: frac) = some (m % 10 ^ 8, []) := by
    rw [afterWhole, if_pos rfl, hdecimals, List.drop_length, ← hvalue]
    congr 4
    omega
  have hlen := Nat.length_toDigits_le_iff (n := m / 10 ^ 8) (show 1 < 10 by decide) (show 0 < 10 by decide)
  have hback : Int64.ofNat (m / 10 ^ 8 * 10 ^ 8 + m % 10 ^ 8) = n := by
    rw [Nat.div_add_mod', ← Int64.toInt_inj, h]
    apply Int64.toInt_ofNat_of_lt
    have hlt := n.toInt_lt
    omega
  rw [parseMoney_eq, hcstr, hspaces, htake, hdrop, hread, Option.filter_some, List.all_nil, Bool.true_and,
    decide_eq_decide.mpr hlen, Nat.ofDigitChars_ten_toDigits]
  rcases em (m / 10 ^ 8 < 10 ^ 10) with hten | hten
  · rw [decide_eq_true hten, if_pos rfl, if_pos hten, Option.map_some, hback]
  · rw [decide_eq_false hten, if_neg Bool.false_ne_true, if_neg hten, Option.map_none]

/-- Amounts as text: what is written is read back, but for the largest amount, and an accepted text is a
decimal number of the units it is read as, but for texts without a digit and texts that go on after a
zero byte.  No operation overflows. -/
theorem moneyText (n : Int64) (str : List Char) :
  (moneyRange n = true → (parseMoney (formatMoney n false) = some (some n) ↔ n ≠ MAX_MONEY))
    ∧ parseMoney str ≠ none
    ∧ ∀ units : Int64, parseMoney str = some (some units) →
      (IsAmount str units.toInt ↔ '\x00' ∉ str ∧ ∃ c ∈ str, c.isDigit = true)
  := by
  refine ⟨?_, ?_, fun units h => isAmount_iff h⟩
  · intro hrange
    obtain ⟨hlow, hhigh⟩ := (moneyRange_iff n).mp hrange
    have hmax : n = MAX_MONEY ↔ n.toInt = 10 ^ 18 := by
      rw [← Int64.toInt_inj]
      have hvalue : MAX_MONEY.toInt = 10 ^ 18 := by decide
      rw [hvalue]
    rw [parseMoney_formatMoney (m := n.toInt.toNat) (by omega), ne_eq, hmax, Option.some.injEq]
    split_ifs with hten
    · simp only [true_iff]
      omega
    · simp only [false_iff, not_not]
      omega
  · rw [parseMoney_eq]
    exact Option.some_ne_none _

theorem moneyText_coin :
  parseMoney (formatMoney COIN false) = some (some COIN)
    ∧ (IsAmount [' ', '1', '.', '5'] 150000000 ↔ '\x00' ∉ [' ', '1', '.', '5']
      ∧ ∃ c ∈ [' ', '1', '.', '5'], c.isDigit = true)
  := by
  obtain ⟨hwritten, -, hread⟩ := moneyText COIN [' ', '1', '.', '5']
  have hparse : parseMoney [' ', '1', '.', '5'] = some (some 150000000) := by decide +kernel
  exact ⟨(hwritten (by decide)).mpr (by decide), hread _ hparse⟩

/-- The largest amount is written with eleven digits before the point, and is not read back. -/
theorem moneyText_largest :
  ¬((∀ n : Int64, moneyRange n = true → parseMoney (formatMoney n false) = some (some n))
    ∧ ∀ (str : List Char) (n : Int64), parseMoney str = some (some n) → IsAmount str n.toInt)
  := by
  rintro ⟨hwritten, -⟩
  have hmax := hwritten MAX_MONEY (by decide)
  rw [parseMoney_formatMoney (m := 10 ^ 18) (by decide)] at hmax
  revert hmax
  decide

end CorgiCoin
