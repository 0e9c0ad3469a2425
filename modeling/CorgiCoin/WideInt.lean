import CorgiCoin.Base58
import CorgiCoin.Lib.Hex

/-!
# Wide integers

`base_uint`, whose limbs of 32 bits the code works through one after the other.  The sums, the
differences and the shifts of the limbs are those of the numbers modulo `2 ^ BITS`, the comparisons are
the order of the numbers, and `SetHex` reads what `GetHex` writes.
-/

namespace CorgiCoin

open Codec Hex

/-- The limbs of a wide integer, the least significant one first. -/
structure base_uint (BITS : ℕ) where
  pn : List UInt32
  length_pn : pn.length = BITS / 32

namespace base_uint

/-- The limb with the given index. -/
def limb (pn : List UInt32) (i : ℕ) : UInt32 := pn.getD i 0

/-! ## The loops over the limbs -/

/-- The loop of `operator++`. -/
def incrementLimbs : List UInt32 → List UInt32
  | [] => []
  | x :: pn => if x + 1 = 0 then (x + 1) :: incrementLimbs pn else (x + 1) :: pn

/-- The loop of `operator--`. -/
def decrementLimbs : List UInt32 → List UInt32
  | [] => []
  | x :: pn => if x - 1 = 0xffffffff then (x - 1) :: decrementLimbs pn else (x - 1) :: pn

/-- The loop of `operator+=`. -/
def addLimbs : UInt64 → List UInt32 → List UInt32 → List UInt32
  | carry, x :: pn, y :: pn' =>
    let n := carry + x.toUInt64 + y.toUInt64
    (n &&& 0xffffffff).toUInt32 :: addLimbs (n >>> 32) pn pn'
  | _, _, _ => []

/-- The body of the loop of `operator<<=`, for the limb `i` of `a`. -/
def shiftLeftBody (a : List UInt32) (k : ℕ) (shift : UInt32) (pn : List UInt32) (i : ℕ) : List UInt32 :=
  let pn :=
    if i + k + 1 < a.length ∧ shift ≠ 0 then
      pn.modify (i + k + 1) (fun x => x ||| limb a i >>> (32 - shift))
    else pn
  if i + k < a.length then pn.modify (i + k) (fun x => x ||| limb a i <<< shift) else pn

/-- The body of the loop of `operator>>=`, for the limb `i` of `a`. -/
def shiftRightBody (a : List UInt32) (k : ℕ) (shift : UInt32) (pn : List UInt32) (i : ℕ) : List UInt32 :=
  let pn :=
    if k + 1 ≤ i ∧ shift ≠ 0 then pn.modify (i - k - 1) (fun x => x ||| limb a i <<< (32 - shift))
    else pn
  if k ≤ i then pn.modify (i - k) (fun x => x ||| limb a i >>> shift) else pn

/-- The loop of the comparisons, from the limb below `i` down; `equal` where no limb differs. -/
def compareLimbs (before : UInt32 → UInt32 → Bool) (equal : Bool) (a b : List UInt32) : ℕ → Bool
  | 0 => equal
  | i + 1 =>
    if before (limb a i) (limb b i) then true
    else if before (limb b i) (limb a i) then false
    else compareLimbs before equal a b i

/-- The loop of `operator==`. -/
def equalLimbs : List UInt32 → List UInt32 → Bool
  | x :: pn, y :: pn' => if x ≠ y then false else equalLimbs pn pn'
  | _, _ => true

/-! ## Lengths -/

theorem length_incrementLimbs (pn : List UInt32) : (incrementLimbs pn).length = pn.length
  := by
  induction pn with
  | nil => rfl
  | cons x pn ih =>
    rw [incrementLimbs]
    split_ifs
    · rw [List.length_cons, List.length_cons, ih]
    · rfl

theorem length_decrementLimbs (pn : List UInt32) : (decrementLimbs pn).length = pn.length
  := by
  induction pn with
  | nil => rfl
  | cons x pn ih =>
    rw [decrementLimbs]
    split_ifs
    · rw [List.length_cons, List.length_cons, ih]
    · rfl

variable {pn pn' : List UInt32}

theorem length_addLimbs (carry : UInt64) (h : pn.length = pn'.length) :
  (addLimbs carry pn pn').length = pn.length
  := by
  induction pn generalizing carry pn' with
  | nil => rfl
  | cons x pn ih =>
    cases pn' with
    | nil => simp at h
    | cons y pn' =>
      rw [addLimbs, List.length_cons, List.length_cons, ih]
      simpa using h

theorem length_shiftLeftBody (a : List UInt32) (k : ℕ) (shift : UInt32) (pn : List UInt32) (i : ℕ) :
  (shiftLeftBody a k shift pn i).length = pn.length
  := by
  rw [shiftLeftBody]
  split_ifs <;> simp

theorem length_shiftRightBody (a : List UInt32) (k : ℕ) (shift : UInt32) (pn : List UInt32) (i : ℕ) :
  (shiftRightBody a k shift pn i).length = pn.length
  := by
  rw [shiftRightBody]
  split_ifs <;> simp

theorem length_foldl
    {body : List UInt32 → ℕ → List UInt32} (h : ∀ pn i, (body pn i).length = pn.length)
    (is : List ℕ) (pn : List UInt32) :
  (is.foldl body pn).length = pn.length
  := by
  induction is generalizing pn with
  | nil => rfl
  | cons i is ih => rw [List.foldl_cons, ih, h]

/-! ## The operators -/

section Operators

variable {BITS : ℕ}

/-- `operator=` of a 64-bit integer. -/
def ofUInt64 (BITS : ℕ) (b : UInt64) : base_uint BITS where
  pn := ((List.replicate (BITS / 32) 0).set 0 b.toUInt32).set 1 (b >>> 32).toUInt32
  length_pn := by rw [List.length_set, List.length_set, List.length_replicate]

/-- `operator~`. -/
def complement (a : base_uint BITS) : base_uint BITS where
  pn := a.pn.map (fun x => ~~~x)
  length_pn := by rw [List.length_map, a.length_pn]

/-- `operator++`. -/
def increment (a : base_uint BITS) : base_uint BITS where
  pn := incrementLimbs a.pn
  length_pn := by rw [length_incrementLimbs, a.length_pn]

/-- `operator--`. -/
def decrement (a : base_uint BITS) : base_uint BITS where
  pn := decrementLimbs a.pn
  length_pn := by rw [length_decrementLimbs, a.length_pn]

/-- `operator-` of one integer. -/
def negate (a : base_uint BITS) : base_uint BITS := a.complement.increment

/-- `operator+=`, and `operator+` on a copy. -/
def add (a b : base_uint BITS) : base_uint BITS where
  pn := addLimbs 0 a.pn b.pn
  length_pn := by rw [length_addLimbs, a.length_pn]; rw [a.length_pn, b.length_pn]

/-- `operator-=`, and `operator-` on a copy. -/
def subtract (a b : base_uint BITS) : base_uint BITS := a.add b.negate

/-- `operator+=` of a 64-bit integer. -/
def addUInt64 (a : base_uint BITS) (b64 : UInt64) : base_uint BITS := a.add (ofUInt64 BITS b64)

/-- `operator-=` of a 64-bit integer. -/
def subtractUInt64 (a : base_uint BITS) (b64 : UInt64) : base_uint BITS :=
  a.add (ofUInt64 BITS b64).negate

/-- `operator<<=`, and `operator<<` on a copy. -/
def shiftLeft (a : base_uint BITS) (shift : UInt32) : base_uint BITS where
  pn := (List.range (BITS / 32)).foldl (shiftLeftBody a.pn (shift / 32).toNat (shift % 32))
    (List.replicate (BITS / 32) 0)
  length_pn := by rw [length_foldl (length_shiftLeftBody _ _ _), List.length_replicate]

/-- `operator>>=`, and `operator>>` on a copy. -/
def shiftRight (a : base_uint BITS) (shift : UInt32) : base_uint BITS where
  pn := (List.range (BITS / 32)).foldl (shiftRightBody a.pn (shift / 32).toNat (shift % 32))
    (List.replicate (BITS / 32) 0)
  length_pn := by rw [length_foldl (length_shiftRightBody _ _ _), List.length_replicate]

/-- `operator<`. -/
def less (a b : base_uint BITS) : Bool := compareLimbs (fun x y => x < y) false a.pn b.pn (BITS / 32)

/-- `operator<=`. -/
def lessEqual (a b : base_uint BITS) : Bool := compareLimbs (fun x y => x < y) true a.pn b.pn (BITS / 32)

/-- `operator>`. -/
def greater (a b : base_uint BITS) : Bool := compareLimbs (fun x y => x > y) false a.pn b.pn (BITS / 32)

/-- `operator>=`. -/
def greaterEqual (a b : base_uint BITS) : Bool :=
  compareLimbs (fun x y => x > y) true a.pn b.pn (BITS / 32)

/-- `operator==`. -/
def equal (a b : base_uint BITS) : Bool := equalLimbs a.pn b.pn

/-- `operator!=`. -/
def notEqual (a b : base_uint BITS) : Bool := !a.equal b

/-- `operator==` with a 64-bit integer. -/
def equalUInt64 (a : base_uint BITS) (b : UInt64) : Bool :=
  if limb a.pn 0 ≠ b.toUInt32 then false
  else if limb a.pn 1 ≠ (b >>> 32).toUInt32 then false
  else (a.pn.drop 2).all (fun x => x == 0)

end Operators

/-! ## Hexadecimal digits -/

/-- The memory of the limbs, whose bytes lie with the least significant one first. -/
def bytes (pn : List UInt32) : Bytes := pn.flatMap (fun x => toLE 4 x.toNat)

/-- The limbs that lie in the given memory. -/
def ofBytes : Bytes → List UInt32
  | b0 :: b1 :: b2 :: b3 :: bs => UInt32.ofNat (ofLE [b0, b1, b2, b3]) :: ofBytes bs
  | _ => []

/-- `GetHex`. -/
def getHex {BITS : ℕ} (a : base_uint BITS) : List Char := toHex (bytes a.pn).reverse

/-- The table `phexdigit`, which is 0 for a character that is no digit. -/
def phexdigit (c : Char) : UInt8 := UInt8.ofNat (hexValue c)

/-- Skip `0x`. -/
def skip0x : List Char → List Char
  | '0' :: c :: psz => if c == 'x' || c == 'X' then psz else '0' :: c :: psz
  | psz => psz

/-- The loop of `SetHex`, from the last digit back, while there is room for the given number of
bytes. -/
def setNibbles : ℕ → List Char → Bytes
  | 0, _ => []
  | n + 1, [] => 0 :: setNibbles n []
  | n + 1, [c] => phexdigit c :: setNibbles n []
  | n + 1, c :: d :: psz => (phexdigit c ||| phexdigit d <<< 4) :: setNibbles n psz

theorem length_ofBytes_setNibbles (n : ℕ) (psz : List Char) :
  (ofBytes (setNibbles (4 * n) psz)).length = n
  := by
  have hlength : ∀ n psz, (setNibbles n psz).length = n := by
    intro n psz
    induction n, psz using setNibbles.induct with
    | case1 => rfl
    | case2 n ih => rw [setNibbles, List.length_cons, ih]
    | case3 n c ih => rw [setNibbles, List.length_cons, ih]
    | case4 n c d psz ih => rw [setNibbles, List.length_cons, ih]
  have hlimbs : ∀ bs : Bytes, (ofBytes bs).length = bs.length / 4 := by
    intro bs
    induction bs using ofBytes.induct with
    | case1 b0 b1 b2 b3 bs ih =>
      rw [ofBytes, List.length_cons, ih]
      simp only [List.length_cons]
      omega
    | case2 bs hshort =>
      rcases bs with _ | ⟨b0, _ | ⟨b1, _ | ⟨b2, _ | ⟨b3, bs⟩⟩⟩⟩
      · rfl
      · simp [ofBytes]
      · simp [ofBytes]
      · simp [ofBytes]
      · exact absurd rfl (hshort b0 b1 b2 b3 bs)
  rw [hlimbs, hlength, Nat.mul_div_cancel_left n (by decide)]

/-- `SetHex` of a string. -/
def setHex (BITS : ℕ) (str : List Char) : base_uint BITS where
  pn :=
    let psz := skip0x ((cStr str).dropWhile isspace)
    let digits := psz.takeWhile (fun c => phexdigit c != 0 || c == '0')
    ofBytes (setNibbles (4 * (BITS / 32)) digits.reverse)
  length_pn := length_ofBytes_setNibbles _ _

/-! ## The number of the limbs -/

/-- The number that limbs spell. -/
def value : List UInt32 → ℕ
  | [] => 0
  | x :: pn => 2 ^ 32 * value pn + x.toNat

/-- The number that a wide integer stands for. -/
def toNat {BITS : ℕ} (a : base_uint BITS) : ℕ := value a.pn

theorem value_lt (pn : List UInt32) : value pn < 2 ^ (32 * pn.length)
  := by
  induction pn with
  | nil => decide
  | cons x pn ih =>
    have hx := x.toNat_lt
    rw [value, List.length_cons, Nat.mul_succ, pow_add, mul_comm (2 ^ (32 * pn.length))]
    omega

theorem value_injective (hlen : pn.length = pn'.length)
    (h : value pn = value pn') :
  pn = pn'
  := by
  induction pn generalizing pn' with
  | nil => exact (List.length_eq_zero_iff.mp hlen.symm).symm
  | cons x pn ih =>
    cases pn' with
    | nil => simp at hlen
    | cons y pn' =>
      have hx := x.toNat_lt
      have hy := y.toNat_lt
      rw [value, value] at h
      have hxy : x = y := UInt32.toNat_inj.mp (by omega)
      rw [hxy, ih (by simpa using hlen) (by omega)]

theorem limb_cons_zero (x : UInt32) (pn : List UInt32) : limb (x :: pn) 0 = x := rfl

theorem limb_cons_succ (x : UInt32) (pn : List UInt32) (i : ℕ) : limb (x :: pn) (i + 1) = limb pn i := rfl

/-- Each bit of the number is one of a limb. -/
theorem testBit_value (pn : List UInt32) (j : ℕ) :
  (value pn).testBit j = (limb pn (j / 32)).toNat.testBit (j % 32)
  := by
  induction pn generalizing j with
  | nil => rw [value, limb, List.getD_nil, UInt32.toNat_zero, Nat.zero_testBit, Nat.zero_testBit]
  | cons x pn ih =>
    rw [value, Nat.testBit_two_pow_mul_add _ x.toNat_lt]
    split_ifs with hj
    · rw [Nat.div_eq_of_lt hj, Nat.mod_eq_of_lt hj, limb_cons_zero]
    · have hdiv : j / 32 = (j - 32) / 32 + 1 := by omega
      have hmod : j % 32 = (j - 32) % 32 := by omega
      rw [ih, hdiv, hmod, limb_cons_succ]

theorem value_map_complement (pn : List UInt32) :
  value (pn.map (fun x => ~~~x)) + value pn + 1 = 2 ^ (32 * pn.length)
  := by
  induction pn with
  | nil => rfl
  | cons x pn ih =>
    have hx := x.toNat_lt
    have hnot : (~~~x).toNat = 2 ^ 32 - 1 - x.toNat := by
      rw [UInt32.toNat_not]
      rfl
    rw [List.map_cons, value, value, hnot, List.length_cons, Nat.mul_succ, pow_add, ← ih]
    omega

/-! ## Sums -/

variable {r : ℕ}

theorem mod_limb (h : r < 2 ^ 32) (v n : ℕ) :
  (2 ^ 32 * v + r) % 2 ^ (32 * (n + 1)) = 2 ^ 32 * (v % 2 ^ (32 * n)) + r
  := by
  have hdiv : (2 ^ 32 * v + r) / 2 ^ 32 = v := by omega
  rw [Nat.mul_succ, pow_add, mul_comm (2 ^ (32 * n)), Nat.mod_mul, hdiv]
  omega

theorem value_incrementLimbs (pn : List UInt32) :
  value (incrementLimbs pn) = (value pn + 1) % 2 ^ (32 * pn.length)
  := by
  induction pn with
  | nil => rfl
  | cons x pn ih =>
    have hx := x.toNat_lt
    have hadd : (x + 1).toNat = (x.toNat + 1) % 2 ^ 32 := UInt32.toNat_add x 1
    have hzero : x + 1 = 0 ↔ (x + 1).toNat = 0 := UInt32.toNat_inj.symm
    rw [incrementLimbs, value, List.length_cons]
    split_ifs with h
    · have hsum : 2 ^ 32 * value pn + x.toNat + 1 = 2 ^ 32 * (value pn + 1) + (x + 1).toNat := by
        have hcarry := hzero.mp h
        omega
      rw [value, ih, hsum, mod_limb (UInt32.toNat_lt _)]
    · have hsum : 2 ^ 32 * value pn + x.toNat + 1 = 2 ^ 32 * value pn + (x + 1).toNat := by
        have hcarry := mt hzero.mpr h
        omega
      rw [value, hsum, mod_limb (UInt32.toNat_lt _), Nat.mod_eq_of_lt (value_lt pn)]

theorem value_decrementLimbs (pn : List UInt32) :
  value (decrementLimbs pn) = (value pn + (2 ^ (32 * pn.length) - 1)) % 2 ^ (32 * pn.length)
  := by
  induction pn with
  | nil => rfl
  | cons x pn ih =>
    have hx := x.toNat_lt
    have hpos : 0 < 2 ^ (32 * pn.length) := Nat.two_pow_pos _
    have hsub : (x - 1).toNat = (2 ^ 32 - 1 + x.toNat) % 2 ^ 32 := UInt32.toNat_sub x 1
    have hones : x - 1 = 0xffffffff ↔ (x - 1).toNat = 2 ^ 32 - 1 := UInt32.toNat_inj.symm
    rw [decrementLimbs, value, List.length_cons]
    split_ifs with h
    · have hsum : 2 ^ 32 * value pn + x.toNat + (2 ^ (32 * (pn.length + 1)) - 1)
          = 2 ^ 32 * (value pn + (2 ^ (32 * pn.length) - 1)) + (x - 1).toNat := by
        have hborrow := hones.mp h
        rw [Nat.mul_succ, pow_add]
        omega
      rw [value, ih, hsum, mod_limb (UInt32.toNat_lt _)]
    · have hsum : 2 ^ 32 * value pn + x.toNat + (2 ^ (32 * (pn.length + 1)) - 1)
          = 2 ^ 32 * (value pn + 2 ^ (32 * pn.length)) + (x - 1).toNat := by
        have hborrow := mt hones.mpr h
        rw [Nat.mul_succ, pow_add]
        omega
      rw [value, hsum, mod_limb (UInt32.toNat_lt _), Nat.add_mod_right, Nat.mod_eq_of_lt (value_lt pn)]

/-- The carry into each limb is at most one. -/
theorem value_addLimbs {carry : UInt64} (hcarry : carry.toNat ≤ 1)
    (h : pn.length = pn'.length) :
  value (addLimbs carry pn pn') = (carry.toNat + value pn + value pn') % 2 ^ (32 * pn.length)
  := by
  induction pn generalizing carry pn' with
  | nil => rw [List.length_nil, Nat.mul_zero, pow_zero, Nat.mod_one]; rfl
  | cons x pn ih =>
    cases pn' with
    | nil => simp at h
    | cons y pn' =>
      have hx := x.toNat_lt
      have hy := y.toNat_lt
      have hn : (carry + x.toUInt64 + y.toUInt64).toNat = carry.toNat + x.toNat + y.toNat := by
        rw [UInt64.toNat_add, UInt64.toNat_add, UInt32.toNat_toUInt64, UInt32.toNat_toUInt64]
        omega
      have hlow : ((carry + x.toUInt64 + y.toUInt64) &&& 0xffffffff).toUInt32.toNat
          = (carry.toNat + x.toNat + y.toNat) % 2 ^ 32 := by
        have hmask : (0xffffffff : UInt64).toNat = 2 ^ 32 - 1 := rfl
        rw [UInt64.toNat_toUInt32, UInt64.toNat_and, hn, hmask, Nat.and_two_pow_sub_one_eq_mod,
          Nat.mod_mod]
      have hhigh : ((carry + x.toUInt64 + y.toUInt64) >>> 32).toNat
          = (carry.toNat + x.toNat + y.toNat) / 2 ^ 32 := by
        rw [UInt64.toNat_shiftRight, hn]
        exact Nat.shiftRight_eq_div_pow _ _
      rw [addLimbs, value, ih _ (by simpa using h), hlow, hhigh, value, value, List.length_cons]
      · rw [← mod_limb (Nat.mod_lt _ (Nat.two_pow_pos 32))]
        congr 1
        omega
      · rw [hhigh]
        omega

/-! ## Shifts -/

/-- One bit of the limbs. -/
def bit (pn : List UInt32) (j : ℕ) : Bool := (limb pn (j / 32)).toNat.testBit (j % 32)

theorem bit_replicate (n j : ℕ) : bit (List.replicate n 0) j = false
  := by
  have hlimb : limb (List.replicate n 0) (j / 32) = 0 := by
    rw [limb, List.getD_eq_getElem?_getD, List.getElem?_replicate]
    split_ifs <;> rfl
  rw [bit, hlimb, UInt32.toNat_zero, Nat.zero_testBit]

variable {j : ℕ}

/-- Setting bits of one limb. -/
theorem bit_modify (h : j < 32 * pn.length) (i : ℕ) (y : UInt32) :
  bit (pn.modify i (fun x => x ||| y)) j
    = (bit pn j || (decide (j / 32 = i) && y.toNat.testBit (j % 32)))
  := by
  have hj : j / 32 < pn.length := by omega
  rw [bit, bit, limb, limb, List.getD_eq_getElem?_getD, List.getD_eq_getElem?_getD,
    List.getElem?_modify, List.getElem?_eq_getElem hj]
  split_ifs with hi
  · rw [Option.map_eq_map, Option.map_some, Option.getD_some, Option.getD_some, UInt32.toNat_or,
      Nat.testBit_or, decide_eq_true hi.symm, Bool.true_and]
  · rw [Option.map_eq_map, Option.map_some, decide_eq_false (Ne.symm hi), Bool.false_and,
      Bool.or_false]

variable {shift : UInt32}

theorem testBit_shiftLeft (hshift : shift.toNat < 32) (x : UInt32) (hr : r < 32) :
  (x <<< shift).toNat.testBit r = (decide (shift.toNat ≤ r) && x.toNat.testBit (r - shift.toNat))
  := by
  rw [UInt32.toNat_shiftLeft, Nat.mod_eq_of_lt hshift, Nat.testBit_mod_two_pow,
    Nat.testBit_shiftLeft, decide_eq_true hr, Bool.true_and]

theorem testBit_shiftRight (hshift : shift.toNat < 32) (x : UInt32) (r : ℕ) :
  (x >>> shift).toNat.testBit r = x.toNat.testBit (shift.toNat + r)
  := by
  rw [UInt32.toNat_shiftRight, Nat.mod_eq_of_lt hshift, Nat.testBit_shiftRight]

theorem testBit_of_le (x : UInt32) (hr : 32 ≤ r) : x.toNat.testBit r = false
  := by
  apply Nat.testBit_lt_two_pow
  exact lt_of_lt_of_le x.toNat_lt (Nat.pow_le_pow_right (by decide) hr)

theorem bit_ite_modify
    (h : j < 32 * pn.length) (c : Prop) [Decidable c] (i : ℕ) (y : UInt32) :
  bit (if c then pn.modify i (fun x => x ||| y) else pn) j
    = (bit pn j || (decide (c ∧ j / 32 = i) && y.toNat.testBit (j % 32)))
  := by
  split_ifs with hc
  · rw [bit_modify h, decide_eq_decide.mpr (and_iff_right hc).symm]
  · rw [decide_eq_false (fun hboth => hc hboth.1), Bool.false_and, Bool.or_false]

variable {a : List UInt32}

/-- The limb `i` of `a` gives the bits that come from it. -/
theorem bit_shiftLeftBody
    (k : ℕ) (hshift : shift.toNat < 32)
    (hlength : pn.length = a.length) (h : j < 32 * pn.length) (i : ℕ) :
  bit (shiftLeftBody a k shift pn i) j
    = (bit pn j || (decide (32 * k + shift.toNat ≤ j ∧ (j - (32 * k + shift.toNat)) / 32 = i)
        && bit a (j - (32 * k + shift.toNat))))
  := by
  have hr : j % 32 < 32 := Nat.mod_lt _ (by decide)
  have hzero : shift = 0 ↔ shift.toNat = 0 := UInt32.toNat_inj.symm
  rw [shiftLeftBody, bit_ite_modify, bit_ite_modify h, Bool.or_assoc]
  · congr 1
    rcases em (j / 32 = i + k) with hlow | hlow
    · rw [decide_eq_false (by omega), Bool.false_and, Bool.false_or, decide_eq_true (by omega),
        Bool.true_and, testBit_shiftLeft hshift _ hr]
      rcases em (shift.toNat ≤ j % 32) with hin | hout
      · have hdiv : (j - (32 * k + shift.toNat)) / 32 = i := by omega
        have hmod : (j - (32 * k + shift.toNat)) % 32 = j % 32 - shift.toNat := by omega
        rw [decide_eq_true hin, decide_eq_true (by omega), bit, hdiv, hmod]
      · rw [decide_eq_false hout, decide_eq_false (by omega), Bool.false_and, Bool.false_and]
    · rw [decide_eq_false (show ¬(i + k < a.length ∧ j / 32 = i + k) by omega), Bool.false_and,
        Bool.or_false]
      rcases em (j / 32 = i + k + 1 ∧ shift ≠ 0) with ⟨hhigh, hpart⟩ | hhigh
      · have hsub : (32 - shift).toNat = 32 - shift.toNat := by
          apply UInt32.toNat_sub_of_le
          rw [UInt32.le_iff_toNat_le]
          exact hshift.le
        have hpos : shift.toNat ≠ 0 := mt hzero.mpr hpart
        rw [decide_eq_true ⟨⟨by omega, hpart⟩, hhigh⟩, Bool.true_and, testBit_shiftRight (by omega), hsub]
        rcases em (shift.toNat ≤ j % 32) with hin | hout
        · rw [testBit_of_le _ (by omega), decide_eq_false (by omega), Bool.false_and]
        · have hdiv : (j - (32 * k + shift.toNat)) / 32 = i := by omega
          have hmod : (j - (32 * k + shift.toNat)) % 32 = 32 - shift.toNat + j % 32 := by omega
          rw [decide_eq_true (by omega), Bool.true_and, bit, hdiv, hmod]
      · rw [decide_eq_false (fun hall => hhigh ⟨hall.2, hall.1.2⟩), Bool.false_and,
          decide_eq_false, Bool.false_and]
        rintro ⟨hle, hdiv⟩
        exact hhigh ⟨by omega, fun hshift => by have hnat := hzero.mp hshift; omega⟩
  · split_ifs
    · rw [List.length_modify]
      exact h
    · exact h

/-- The limb `i` of `a` gives the bits that come from it. -/
theorem bit_shiftRightBody
    (k : ℕ) (hshift : shift.toNat < 32) (h : j < 32 * pn.length) (i : ℕ) :
  bit (shiftRightBody a k shift pn i) j
    = (bit pn j || (decide ((j + (32 * k + shift.toNat)) / 32 = i)
        && bit a (j + (32 * k + shift.toNat))))
  := by
  have hr : j % 32 < 32 := Nat.mod_lt _ (by decide)
  have hzero : shift = 0 ↔ shift.toNat = 0 := UInt32.toNat_inj.symm
  rw [shiftRightBody, bit_ite_modify, bit_ite_modify h, Bool.or_assoc]
  · congr 1
    rcases em (k ≤ i ∧ j / 32 = i - k) with hlow | hlow
    · rw [decide_eq_false (by omega), Bool.false_and, Bool.false_or, decide_eq_true hlow,
        Bool.true_and, testBit_shiftRight hshift]
      rcases em (shift.toNat + j % 32 < 32) with hin | hout
      · have hdiv : (j + (32 * k + shift.toNat)) / 32 = i := by omega
        have hmod : (j + (32 * k + shift.toNat)) % 32 = shift.toNat + j % 32 := by omega
        rw [decide_eq_true hdiv, Bool.true_and, bit, hdiv, hmod]
      · rw [testBit_of_le _ (by omega), decide_eq_false (by omega), Bool.false_and]
    · rw [decide_eq_false hlow, Bool.false_and, Bool.or_false]
      rcases em ((k + 1 ≤ i ∧ shift ≠ 0) ∧ j / 32 = i - k - 1) with ⟨⟨hle, hpart⟩, hhigh⟩ | hhigh
      · have hsub : (32 - shift).toNat = 32 - shift.toNat := by
          apply UInt32.toNat_sub_of_le
          rw [UInt32.le_iff_toNat_le]
          exact hshift.le
        have hpos : shift.toNat ≠ 0 := mt hzero.mpr hpart
        rw [decide_eq_true ⟨⟨hle, hpart⟩, hhigh⟩, Bool.true_and,
          testBit_shiftLeft (by omega) _ hr, hsub]
        rcases em (32 - shift.toNat ≤ j % 32) with hin | hout
        · have hdiv : (j + (32 * k + shift.toNat)) / 32 = i := by omega
          have hmod : (j + (32 * k + shift.toNat)) % 32 = j % 32 - (32 - shift.toNat) := by omega
          rw [decide_eq_true hin, decide_eq_true hdiv, bit, hdiv, hmod]
        · rw [decide_eq_false hout, decide_eq_false (by omega), Bool.false_and, Bool.false_and]
      · rw [decide_eq_false hhigh, Bool.false_and, decide_eq_false, Bool.false_and]
        intro hdiv
        exact hhigh ⟨⟨by omega, fun hshift => by have hnat := hzero.mp hshift; omega⟩, by omega⟩
  · split_ifs
    · rw [List.length_modify]
      exact h
    · exact h

/-- Where each step of a loop sets the bits that come from one limb, the loop sets those that come from
the limbs it went through. -/
theorem bit_foldl
    {body : List UInt32 → ℕ → List UInt32} (hlength : ∀ pn i, (body pn i).length = pn.length)
    {source : ℕ} {given : Bool} {n : ℕ}
    (hbody : ∀ pn i, pn.length = n → bit (body pn i) j = (bit pn j || (decide (source = i) && given)))
    (k : ℕ) (h : pn.length = n) :
  bit ((List.range k).foldl body pn) j = (bit pn j || (decide (source < k) && given))
  := by
  induction k with
  | zero => rw [List.range_zero, List.foldl_nil, decide_eq_false (Nat.not_lt_zero _), Bool.false_and,
      Bool.or_false]
  | succ k ih =>
    have hor : decide (source < k + 1) = (decide (source < k) || decide (source = k)) := by
      rw [← Bool.decide_or, decide_eq_decide]
      omega
    rw [List.range_succ, List.foldl_append, List.foldl_cons, List.foldl_nil,
      hbody _ _ ((length_foldl hlength _ _).trans h), ih, hor, Bool.or_assoc, ← Bool.and_or_distrib_right]

variable {BITS : ℕ}

theorem toNat_lt (a : base_uint BITS) : a.toNat < 2 ^ (32 * (BITS / 32))
  := by
  have h := value_lt a.pn
  rw [a.length_pn] at h
  exact h

theorem testBit_toNat (a : base_uint BITS) (j : ℕ) : a.toNat.testBit j = bit a.pn j :=
  testBit_value a.pn j

theorem testBit_toNat_of_le (a : base_uint BITS) (h : 32 * (BITS / 32) ≤ j) :
  a.toNat.testBit j = false
  := by
  apply Nat.testBit_lt_two_pow
  exact lt_of_lt_of_le a.toNat_lt (Nat.pow_le_pow_right (by decide) h)

/-- The whole limbs and the bits of a shift. -/
theorem toNat_shift (shift : UInt32) : 32 * (shift / 32).toNat + (shift % 32).toNat = shift.toNat
  := by
  rw [UInt32.toNat_div, UInt32.toNat_mod]
  exact Nat.div_add_mod _ _

theorem toNat_shift_lt (shift : UInt32) : (shift % 32).toNat < 32
  := by
  rw [UInt32.toNat_mod]
  exact Nat.mod_lt _ (by decide)

theorem toNat_shiftLeft (a : base_uint BITS) (shift : UInt32) :
  (a.shiftLeft shift).toNat = a.toNat * 2 ^ shift.toNat % 2 ^ (32 * (BITS / 32))
  := by
  apply Nat.eq_of_testBit_eq
  intro j
  rw [← Nat.shiftLeft_eq, Nat.testBit_mod_two_pow, Nat.testBit_shiftLeft]
  rcases lt_or_ge j (32 * (BITS / 32)) with hj | hj
  · have hbody : ∀ pn i, pn.length = BITS / 32 →
        bit (shiftLeftBody a.pn (shift / 32).toNat (shift % 32) pn i) j
          = (bit pn j || (decide ((j - shift.toNat) / 32 = i)
            && (decide (j ≥ shift.toNat) && bit a.pn (j - shift.toNat)))) := by
      intro pn i hpn
      rw [bit_shiftLeftBody _ (toNat_shift_lt shift) (by rw [hpn, a.length_pn]) (by rw [hpn]; exact hj),
        toNat_shift, Bool.decide_and, Bool.and_comm (decide (shift.toNat ≤ j)), Bool.and_assoc]
    rw [testBit_toNat, shiftLeft, bit_foldl (length_shiftLeftBody _ _ _) hbody _ List.length_replicate,
      bit_replicate, Bool.false_or, decide_eq_true (by omega), Bool.true_and, decide_eq_true hj,
      Bool.true_and, testBit_toNat]
  · rw [testBit_toNat_of_le _ hj, decide_eq_false (by omega), Bool.false_and]

theorem toNat_shiftRight (a : base_uint BITS) (shift : UInt32) :
  (a.shiftRight shift).toNat = a.toNat / 2 ^ shift.toNat
  := by
  apply Nat.eq_of_testBit_eq
  intro j
  rw [← Nat.shiftRight_eq_div_pow, Nat.testBit_shiftRight]
  rcases lt_or_ge j (32 * (BITS / 32)) with hj | hj
  · have hbody : ∀ pn i, pn.length = BITS / 32 →
        bit (shiftRightBody a.pn (shift / 32).toNat (shift % 32) pn i) j
          = (bit pn j || (decide ((j + shift.toNat) / 32 = i) && bit a.pn (j + shift.toNat))) := by
      intro pn i hpn
      rw [bit_shiftRightBody _ (toNat_shift_lt shift) (by rw [hpn]; exact hj), toNat_shift]
    rw [testBit_toNat, shiftRight, bit_foldl (length_shiftRightBody _ _ _) hbody _ List.length_replicate,
      bit_replicate, Bool.false_or, Nat.add_comm shift.toNat, ← testBit_toNat]
    rcases lt_or_ge (j + shift.toNat) (32 * (BITS / 32)) with hin | hout
    · rw [decide_eq_true (by omega), Bool.true_and]
    · rw [testBit_toNat_of_le _ hout, Bool.and_false]
  · rw [testBit_toNat_of_le _ hj, testBit_toNat_of_le _ (by omega)]

/-! ## Comparisons -/

/-- The limb above the lower ones. -/
theorem value_take_succ {i : ℕ} (h : i < pn.length) :
  value (pn.take (i + 1)) = value (pn.take i) + 2 ^ (32 * i) * (limb pn i).toNat
  := by
  induction i generalizing pn with
  | zero =>
    cases pn with
    | nil => simp at h
    | cons x pn => simp [value, limb_cons_zero]
  | succ i ih =>
    cases pn with
    | nil => simp at h
    | cons x pn =>
      rw [List.take_succ_cons, value, ih (by simpa using h), List.take_succ_cons, value, limb_cons_succ,
        Nat.mul_succ 32 i, pow_add]
      ring

theorem compareLimbs_eq
    (equal : Bool) {b : List UInt32} {i : ℕ} (ha : i ≤ a.length) (hb : i ≤ b.length) :
  compareLimbs (fun x y => x < y) equal a b i
    = (decide (value (a.take i) < value (b.take i))
      || (equal && decide (value (a.take i) = value (b.take i))))
  := by
  induction i with
  | zero => simp [compareLimbs, value]
  | succ i ih =>
    have hlta := value_lt (a.take i)
    have hltb := value_lt (b.take i)
    rw [List.length_take_of_le (by omega)] at hlta hltb
    have hless : ∀ {x y : UInt32}, x.toNat < y.toNat → decide (x < y) = true :=
      fun h => decide_eq_true (UInt32.lt_iff_toNat_lt.mpr h)
    have hnot : ∀ {x y : UInt32}, ¬x.toNat < y.toNat → ¬decide (x < y) = true :=
      fun h hdecide => h (UInt32.lt_iff_toNat_lt.mp (of_decide_eq_true hdecide))
    rw [compareLimbs, value_take_succ ha, value_take_succ hb]
    rcases lt_trichotomy (limb a i).toNat (limb b i).toNat with hlt | heq | hgt
    · have hmul := Nat.mul_le_mul_left (2 ^ (32 * i)) (Nat.succ_le_of_lt hlt)
      rw [Nat.mul_succ] at hmul
      rw [if_pos (hless hlt), decide_eq_true (by omega), Bool.true_or]
    · rw [if_neg (hnot heq.not_lt), if_neg (hnot heq.not_gt), ih (by omega) (by omega), heq]
      simp only [Nat.add_lt_add_iff_right, Nat.add_right_cancel_iff]
    · have hmul := Nat.mul_le_mul_left (2 ^ (32 * i)) (Nat.succ_le_of_lt hgt)
      rw [Nat.mul_succ] at hmul
      rw [if_neg (hnot hgt.not_gt), if_pos (hless hgt), decide_eq_false (by omega), decide_eq_false (by omega),
        Bool.and_false, Bool.or_false]

theorem compareLimbs_swap (equal : Bool) (a b : List UInt32) (i : ℕ) :
  compareLimbs (fun x y => x > y) equal a b i = compareLimbs (fun x y => x < y) equal b a i
  := by
  induction i with
  | zero => rfl
  | succ i ih =>
    rw [compareLimbs, compareLimbs, ih]

theorem compareLimbs_toNat (equal : Bool) (a b : base_uint BITS) :
  compareLimbs (fun x y => x < y) equal a.pn b.pn (BITS / 32)
    = (decide (a.toNat < b.toNat) || (equal && decide (a.toNat = b.toNat)))
  := by
  have ha := a.length_pn
  have hb := b.length_pn
  rw [compareLimbs_eq _ ha.ge hb.ge, List.take_of_length_le ha.le, List.take_of_length_le hb.le]
  rfl

theorem equalLimbs_eq {pn pn' : List UInt32} (h : pn.length = pn'.length) :
  equalLimbs pn pn' = decide (value pn = value pn')
  := by
  rw [decide_eq_decide.mpr (show value pn = value pn' ↔ pn = pn' from
    ⟨value_injective h, congrArg value⟩)]
  induction pn generalizing pn' with
  | nil =>
    cases pn' with
    | nil => rfl
    | cons y pn' => simp at h
  | cons x pn ih =>
    cases pn' with
    | nil => simp at h
    | cons y pn' =>
      rw [equalLimbs, ih (by simpa using h)]
      split_ifs with hne
      · rw [decide_eq_false (fun hcons => hne (List.cons.inj hcons).1)]
      · rw [decide_eq_decide, List.cons.injEq, and_iff_right (not_not.mp hne)]

/-! ## Reading hexadecimal digits back -/

theorem ofBytes_bytes (pn : List UInt32) : ofBytes (bytes pn) = pn
  := by
  induction pn with
  | nil => rfl
  | cons x pn ih =>
    have hx := x.toNat_lt
    have hbytes : bytes (x :: pn) = toLE 4 x.toNat ++ bytes pn := rfl
    have hlimb : UInt32.ofNat (ofLE (toLE 4 x.toNat)) = x := by
      rw [ofLE_toLE_of_lt (by omega), UInt32.ofNat_toNat]
    rw [hbytes, toLE, toLE, toLE, toLE, toLE, List.cons_append, List.cons_append, List.cons_append,
      List.cons_append, List.nil_append, ofBytes, ih]
    rw [toLE, toLE, toLE, toLE, toLE] at hlimb
    rw [hlimb]

theorem length_bytes (pn : List UInt32) : (bytes pn).length = 4 * pn.length
  := by
  induction pn with
  | nil => rfl
  | cons x pn ih =>
    have hbytes : bytes (x :: pn) = toLE 4 x.toNat ++ bytes pn := rfl
    rw [hbytes, List.length_append, length_toLE, ih, List.length_cons]
    omega

/-- What `SetHex` asks about the digits that `GetHex` writes. -/
theorem hexDigit_facts :
  ∀ n < 16, isspace (hexDigit n) = false ∧ hexDigit n ≠ '\x00'
    ∧ hexDigit n ≠ 'x' ∧ hexDigit n ≠ 'X'
    ∧ (phexdigit (hexDigit n) != 0 || hexDigit n == '0') = true
  := by decide

theorem skip0x_eq {psz : List Char} (h : ∀ c ∈ psz, c ≠ 'x' ∧ c ≠ 'X') : skip0x psz = psz
  := by
  rw [skip0x.eq_def]
  split
  · rename_i c rest
    obtain ⟨hx, hX⟩ := h c (by simp)
    rw [if_neg]
    simp [hx, hX]
  · rfl

theorem byte_of_digits :
  ∀ n < 256, phexdigit (hexDigit (n % 16)) ||| phexdigit (hexDigit (n / 16)) <<< 4
    = UInt8.ofNat n
  := by decide +kernel

theorem setNibbles_toHex (bs : Bytes) :
  setNibbles bs.length (toHex bs.reverse).reverse = bs
  := by
  have hreverse : (toHex bs.reverse).reverse
      = bs.flatMap (fun b => [hexDigit (b.toNat % 16), hexDigit (b.toNat / 16)]) := by
    rw [toHex, List.reverse_flatMap, List.reverse_reverse]
    rfl
  rw [hreverse]
  clear hreverse
  induction bs with
  | nil => rfl
  | cons b bs ih =>
    rw [List.flatMap_cons, List.cons_append, List.cons_append, List.nil_append, List.length_cons,
      setNibbles, ih, byte_of_digits _ b.toNat_lt, UInt8.ofNat_toNat]

theorem setHex_getHex (a : base_uint BITS) : (setHex BITS a.getHex).pn = a.pn
  := by
  have hchars : ∀ c ∈ a.getHex, isspace c = false ∧ c ≠ '\x00' ∧ c ≠ 'x' ∧ c ≠ 'X'
      ∧ (phexdigit c != 0 || c == '0') = true := by
    intro c hc
    obtain ⟨n, hn, rfl⟩ := mem_toHex hc
    exact hexDigit_facts n hn
  have hcstr : cStr a.getHex = a.getHex := by
    rw [cStr, List.takeWhile_eq_self_iff]
    intro c hc
    rw [bne_iff_ne]
    exact (hchars c hc).2.1
  have hspaces : a.getHex.dropWhile isspace = a.getHex := by
    rw [List.dropWhile_eq_self_iff]
    intro hlength
    rw [(hchars _ (List.getElem_mem hlength)).1]
    exact Bool.false_ne_true
  have hdigits : a.getHex.takeWhile (fun c => phexdigit c != 0 || c == '0') = a.getHex := by
    rw [List.takeWhile_eq_self_iff]
    intro c hc
    exact (hchars c hc).2.2.2.2
  have hlength : 4 * (BITS / 32) = (bytes a.pn).length := by rw [length_bytes, a.length_pn]
  rw [setHex]
  simp only
  rw [hcstr, hspaces, skip0x_eq (fun c hc => ⟨(hchars c hc).2.2.1, (hchars c hc).2.2.2.1⟩), hdigits,
    getHex, hlength, setNibbles_toHex, ofBytes_bytes]

/-! ## Wide integers of the code -/

theorem eq_of_pn {a b : base_uint BITS} (h : a.pn = b.pn) : a = b
  := by
  cases a
  cases b
  congr

theorem toNat_add (a b : base_uint BITS) :
  (a.add b).toNat = (a.toNat + b.toNat) % 2 ^ (32 * (BITS / 32))
  := by
  have hlength : a.pn.length = b.pn.length := by rw [a.length_pn, b.length_pn]
  rw [toNat, add, value_addLimbs (by decide) hlength, a.length_pn, UInt64.toNat_zero, Nat.zero_add]
  rfl

theorem toNat_increment (a : base_uint BITS) :
  a.increment.toNat = (a.toNat + 1) % 2 ^ (32 * (BITS / 32))
  := by
  rw [toNat, increment, value_incrementLimbs, a.length_pn]
  rfl

theorem toNat_decrement (a : base_uint BITS) :
  (a.decrement.toNat : ℤ) = (a.toNat - 1) % 2 ^ (32 * (BITS / 32))
  := by
  have hpos : 0 < 2 ^ (32 * (BITS / 32)) := Nat.two_pow_pos _
  have hshift : ((value a.pn + (2 ^ (32 * (BITS / 32)) - 1) : ℕ) : ℤ)
      = (a.toNat - 1) + (2 ^ (32 * (BITS / 32)) : ℕ) := by
    rw [toNat]
    omega
  rw [toNat, decrement, value_decrementLimbs, a.length_pn, Int.natCast_mod, hshift, Int.add_emod_right]
  norm_cast

theorem toNat_negate (a : base_uint BITS) :
  (a.negate.toNat : ℤ) = -a.toNat % 2 ^ (32 * (BITS / 32))
  := by
  have hsum := value_map_complement a.pn
  rw [a.length_pn] at hsum
  have hshift : ((a.complement.toNat + 1 : ℕ) : ℤ) = -a.toNat + (2 ^ (32 * (BITS / 32)) : ℕ) := by
    rw [toNat, toNat, complement, ← hsum]
    push_cast
    ring
  rw [negate, toNat_increment, Int.natCast_mod, hshift, Int.add_emod_right]
  norm_cast

theorem toNat_subtract (a b : base_uint BITS) :
  ((a.subtract b).toNat : ℤ) = (a.toNat - b.toNat) % 2 ^ (32 * (BITS / 32))
  := by
  rw [subtract, toNat_add]
  push_cast
  rw [toNat_negate, Int.add_emod_emod, Int.sub_eq_add_neg]

theorem value_replicate (n : ℕ) : value (List.replicate n 0) = 0
  := by
  induction n with
  | zero => rfl
  | succ n ih => rw [List.replicate_succ, value, ih]; rfl

theorem toNat_low (b : UInt64) : b.toUInt32.toNat = b.toNat % 2 ^ 32 := UInt64.toNat_toUInt32 b

theorem toNat_high (b : UInt64) : (b >>> 32).toUInt32.toNat = b.toNat / 2 ^ 32
  := by
  have hb := b.toNat_lt
  have hhigh : (b >>> 32).toNat = b.toNat / 2 ^ 32 := by
    rw [UInt64.toNat_shiftRight]
    exact Nat.shiftRight_eq_div_pow _ _
  rw [UInt64.toNat_toUInt32, hhigh, Nat.mod_eq_of_lt (by omega)]

theorem toNat_ofUInt64 (h : 64 ≤ BITS) (b : UInt64) : (ofUInt64 BITS b).toNat = b.toNat
  := by
  obtain ⟨n, hn⟩ : ∃ n, BITS / 32 = n + 2 := ⟨BITS / 32 - 2, by omega⟩
  have hpn : (ofUInt64 BITS b).pn
      = ((List.replicate (BITS / 32) 0).set 0 b.toUInt32).set 1 (b >>> 32).toUInt32 := rfl
  rw [toNat, hpn, hn, List.replicate_succ, List.replicate_succ, List.set_cons_zero,
    List.set_cons_succ, List.set_cons_zero, value, value, value_replicate, toNat_high, toNat_low]
  omega

theorem value_eq_zero_iff (pn : List UInt32) : value pn = 0 ↔ pn.all (fun x => x == 0) = true
  := by
  induction pn with
  | nil => simp [value]
  | cons x pn ih =>
    have hx : x = 0 ↔ x.toNat = 0 := UInt32.toNat_inj.symm
    rw [value, List.all_cons, Bool.and_eq_true, beq_iff_eq, ← ih, hx]
    omega

theorem equalUInt64_eq (h : 64 ≤ BITS) (a : base_uint BITS) (b : UInt64) :
  a.equalUInt64 b = decide (a.toNat = b.toNat)
  := by
  obtain ⟨pn, hpn⟩ := a
  rcases pn with _ | ⟨x, _ | ⟨y, pn⟩⟩
  · rw [List.length_nil] at hpn
    omega
  · rw [List.length_singleton] at hpn
    omega
  · have hb := b.toNat_lt
    have hx := x.toNat_lt
    have hy := y.toNat_lt
    have hlow : x = b.toUInt32 ↔ x.toNat = b.toNat % 2 ^ 32 := by rw [← UInt32.toNat_inj, toNat_low]
    have hhigh : y = (b >>> 32).toUInt32 ↔ y.toNat = b.toNat / 2 ^ 32 := by
      rw [← UInt32.toNat_inj, toNat_high]
    have hrest := value_eq_zero_iff pn
    rw [equalUInt64, toNat, value, value, limb_cons_zero, limb_cons_succ, limb_cons_zero]
    simp only [List.drop_succ_cons, List.drop_zero]
    split_ifs with hx' hy'
    · have hdiffer := mt hlow.mpr hx'
      rw [decide_eq_false]
      omega
    · have hdiffer := mt hhigh.mpr hy'
      rw [decide_eq_false]
      omega
    · have hsame := hlow.mp (not_not.mp hx')
      have hsame' := hhigh.mp (not_not.mp hy')
      rw [Bool.eq_iff_iff, ← hrest, decide_eq_true_iff]
      omega

/-- Wide integers compute modulo `2 ^ BITS` and compare like the numbers, and their text is read
back. -/
theorem wideIntegers
    {BITS : ℕ} (hbits : BITS = 160 ∨ BITS = 256) (a b : base_uint BITS) (b64 : UInt64) (shift : UInt32) :
  (a.add b).toNat = (a.toNat + b.toNat) % 2 ^ BITS
    ∧ ((a.subtract b).toNat : ℤ) = (a.toNat - b.toNat) % 2 ^ BITS
    ∧ (a.addUInt64 b64).toNat = (a.toNat + b64.toNat) % 2 ^ BITS
    ∧ ((a.subtractUInt64 b64).toNat : ℤ) = (a.toNat - b64.toNat) % 2 ^ BITS
    ∧ (a.negate.toNat : ℤ) = -a.toNat % 2 ^ BITS
    ∧ a.increment.toNat = (a.toNat + 1) % 2 ^ BITS
    ∧ (a.decrement.toNat : ℤ) = (a.toNat - 1) % 2 ^ BITS
    ∧ (a.shiftLeft shift).toNat = a.toNat * 2 ^ shift.toNat % 2 ^ BITS
    ∧ (a.shiftRight shift).toNat = a.toNat / 2 ^ shift.toNat
    ∧ a.less b = decide (a.toNat < b.toNat)
    ∧ a.lessEqual b = decide (a.toNat ≤ b.toNat)
    ∧ a.greater b = decide (a.toNat > b.toNat)
    ∧ a.greaterEqual b = decide (a.toNat ≥ b.toNat)
    ∧ a.equal b = decide (a.toNat = b.toNat)
    ∧ a.notEqual b = decide (a.toNat ≠ b.toNat)
    ∧ a.equalUInt64 b64 = decide (a.toNat = b64.toNat)
    ∧ setHex BITS a.getHex = a
  := by
  have hwidth : 32 * (BITS / 32) = BITS := by omega
  have hlong : 64 ≤ BITS := by omega
  have hequal : a.equal b = decide (a.toNat = b.toNat) := by
    rw [equal, equalLimbs_eq (by rw [a.length_pn, b.length_pn])]
    rfl
  have hor : ∀ m n : ℕ, (decide (m < n) || (true && decide (m = n))) = decide (m ≤ n) := by
    intro m n
    rw [Bool.true_and, ← Bool.decide_or, decide_eq_decide]
    omega
  have hpow : 2 ^ (32 * (BITS / 32)) = 2 ^ BITS := by rw [hwidth]
  have hpow' : (2 : ℤ) ^ (32 * (BITS / 32)) = 2 ^ BITS := by rw [hwidth]
  refine ⟨?_, ?_, ?_, ?_, ?_, ?_, ?_, ?_, toNat_shiftRight a shift, ?_, ?_, ?_, ?_, hequal, ?_,
    equalUInt64_eq hlong a b64, eq_of_pn (setHex_getHex a)⟩
  · rw [toNat_add, hpow]
  · rw [toNat_subtract, hpow']
  · rw [addUInt64, toNat_add, toNat_ofUInt64 hlong, hpow]
  · rw [subtractUInt64, ← subtract, toNat_subtract, toNat_ofUInt64 hlong, hpow']
  · rw [toNat_negate, hpow']
  · rw [toNat_increment, hpow]
  · rw [toNat_decrement, hpow']
  · rw [toNat_shiftLeft, hpow]
  · rw [less, compareLimbs_toNat, Bool.false_and, Bool.or_false]
  · rw [lessEqual, compareLimbs_toNat, hor]
  · rw [greater, compareLimbs_swap, compareLimbs_toNat, Bool.false_and, Bool.or_false]
  · rw [greaterEqual, compareLimbs_swap, compareLimbs_toNat, hor]
  · rw [notEqual, hequal, decide_not]

/-- The largest integer of 160 bits. -/
def largest160 : base_uint 160 := ⟨List.replicate 5 0xffffffff, rfl⟩

theorem wideIntegers_largest160 :
  largest160.increment.toNat = (largest160.toNat + 1) % 2 ^ 160
    ∧ (largest160.shiftLeft 33).toNat = largest160.toNat * 2 ^ 33 % 2 ^ 160
    ∧ setHex 160 largest160.getHex = largest160
  := by
  obtain ⟨-, -, -, -, -, hincrement, -, hshift, -, -, -, -, -, -, -, -, hhex⟩ :=
    wideIntegers (.inl rfl) largest160 largest160 0 33
  exact ⟨hincrement, hshift, hhex⟩

end base_uint

end CorgiCoin
