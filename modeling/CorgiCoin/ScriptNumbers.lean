import CorgiCoin.Mpi
import CorgiCoin.MultiSig

/-!
# Numbers of scripts

The bytes that scripts compute with spell a number with the least significant byte first and the sign
in the top bit of the last one.  `CBigNum` writes a 64-bit integer with the fewest bytes that spell it,
and a string is true where the number it spells is not zero, whichever way it is spelled.
-/

namespace CorgiCoin

open Codec

/-! ## What bytes spell -/

/-- The magnitude that bytes spell: the top bit of the last one does not count. -/
def magnitude : Bytes → ℕ
  | [] => 0
  | [b] => (b &&& 0x7f).toNat
  | b :: bs => b.toNat + 256 * magnitude bs

/-- The number that bytes spell, the least significant one first. -/
def signMagnitude (v : Bytes) : ℤ :=
  if v.getLast?.any (fun b => b &&& 0x80 != 0) then -(magnitude v : ℤ) else magnitude v

/-- Bytes that spell a number, and all other bytes that do are longer. -/
def IsShortest (v : Bytes) (n : ℤ) : Prop :=
  signMagnitude v = n ∧ ∀ v', signMagnitude v' = n → v' = v ∨ v.length < v'.length

theorem magnitude_concat (bs : Bytes) (b : UInt8) :
  magnitude (bs ++ [b]) = ofLE (bs ++ [b &&& 0x7f])
  := by
  induction bs with
  | nil => simp [magnitude, ofLE]
  | cons c bs ih =>
    rw [List.cons_append, List.cons_append, ofLE, ← ih]
    cases hbytes : bs ++ [b] with
    | nil => simp at hbytes
    | cons c' bs' =>
      rw [magnitude]
      apply List.cons_ne_nil

theorem setvch_eq_signMagnitude (v : Bytes) : setvch v = signMagnitude v
  := by
  rcases v.eq_nil_or_concat with rfl | ⟨bs, b, rfl⟩
  · rfl
  · rw [List.concat_eq_append, setvch, List.reverse_append, List.reverse_singleton,
      List.singleton_append, mpi2bn, signMagnitude, List.getLast?_concat, Option.any_some,
      magnitude_concat, ofBE, ofBE, List.reverse_cons, List.reverse_reverse, List.reverse_cons,
      List.reverse_reverse]
    split_ifs with hsign
    · rfl
    · have hclear : b &&& 0x80 = 0 := by simpa using hsign
      rw [and_magnitude_of_sign_clear hclear]

/-- `getvch` writes a number with the fewest bytes. -/
theorem isShortest_getvch (n : ℤ) : IsShortest (getvch n) n
  := by
  refine ⟨?_, ?_⟩
  · rw [← setvch_eq_signMagnitude, setvch, getvch, List.reverse_reverse, mpi2bn_bn2mpi]
  · intro v hv
    rw [← setvch_eq_signMagnitude, setvch] at hv
    rcases em (MinimalMpi v.reverse) with hminimal | hlonger
    · left
      rw [getvch, ← hv, bn2mpi_mpi2bn hminimal, List.reverse_reverse]
    · right
      have hlength := length_bn2mpi_lt hlonger
      rw [hv, List.length_reverse] at hlength
      rw [getvch, List.length_reverse]
      apply hlength

/-! ## Truth -/

theorem magnitude_eq_zero_iff (v : Bytes) :
  magnitude v = 0 ↔ castToBool v = false
  := by
  induction v with
  | nil => simp [magnitude, castToBool]
  | cons b bs ih =>
    cases bs with
    | nil =>
      have hall : ∀ b : UInt8, (b &&& 0x7f).toNat = 0 ↔ (b != 0 && b != 0x80) = false :=
        forall_uint8 (by decide)
      exact hall b
    | cons b' bs =>
      rw [magnitude, castToBool, Bool.or_eq_false_iff, ← ih, bne_eq_false_iff_eq, ← UInt8.toNat_inj]
      · simp
      · simp
      · simp

theorem signMagnitude_eq_zero_iff (v : Bytes) :
  signMagnitude v = 0 ↔ castToBool v = false
  := by
  rw [← magnitude_eq_zero_iff, signMagnitude]
  split_ifs
  · rw [Int.neg_eq_zero, Int.natCast_eq_zero]
  · rw [Int.natCast_eq_zero]

/-! ## 64-bit integers -/

/-- The loop of `setint64` over the bytes of the magnitude, of which `i` are left. -/
def setint64Loop (fNegative : Bool) : ℕ → Bool → UInt64 → Bytes
  | 0, _, _ => []
  | i + 1, fLeadingZeroes, n =>
    let c := (n >>> 56).toUInt8
    let n := n <<< 8
    if fLeadingZeroes then
      if c = 0 then setint64Loop fNegative i true n
      else if c &&& 0x80 != 0 then (if fNegative then 0x80 else 0) :: c :: setint64Loop fNegative i false n
      else (if fNegative then c ||| 0x80 else c) :: setint64Loop fNegative i false n
    else c :: setint64Loop fNegative i false n

/-- `CBigNum::setint64` -/
def setint64 (sn : Int64) : ℤ :=
  let n : UInt64 := if sn < 0 then (-(sn + 1)).toUInt64 + 1 else sn.toUInt64
  mpi2bn (setint64Loop (decide (sn < 0)) 8 true n)

variable {i k : ℕ} {n : UInt64}

/-- One turn: `k` is written on the bytes that are left, at the top of the word. -/
theorem setint64_turn (hi : i ≤ 7) (hn : n.toNat = k * 256 ^ (8 - (i + 1))) :
  (n >>> 56).toUInt8.toNat = k / 256 ^ i % 256 ∧ (n <<< 8).toNat = k % 256 ^ i * 256 ^ (8 - i)
  := by
  have htop : (n >>> 56).toUInt8.toNat = n.toNat / 2 ^ 56 % 256 := by
    rw [UInt64.toNat_toUInt8, UInt64.toNat_shiftRight, Nat.shiftRight_eq_div_pow]
    rfl
  have hshift : (n <<< 8).toNat = n.toNat * 2 ^ 8 % 2 ^ 64 := by
    rw [UInt64.toNat_shiftLeft, Nat.shiftLeft_eq]
    rfl
  have hlow : 256 ^ (8 - (i + 1)) * 256 ^ i = 2 ^ 56 := by
    rw [← pow_add, show 8 - (i + 1) + i = 7 by omega]
    rfl
  have hnext : 256 ^ (8 - (i + 1)) * 2 ^ 8 = 256 ^ (8 - i) := by
    rw [show 8 - i = 8 - (i + 1) + 1 by omega, pow_succ 256, show (2 : ℕ) ^ 8 = 256 from rfl]
  have hword : 2 ^ 64 = 256 ^ i * 256 ^ (8 - i) := by
    rw [← pow_add, show i + (8 - i) = 8 by omega]
    rfl
  constructor
  · rw [htop, hn, ← hlow, Nat.mul_comm k, Nat.mul_div_mul_left _ _ (Nat.pow_pos (by decide))]
  · rw [hshift, hn, Nat.mul_assoc, hnext, hword, Nat.mul_mod_mul_right]

/-- After the leading zeros the loop writes all the bytes. -/
theorem setint64Loop_false (fNegative : Bool) (hi : i ≤ 8)
    (hn : n.toNat = k * 256 ^ (8 - i)) (hk : k < 256 ^ i) :
  (setint64Loop fNegative i false n).length = i ∧ ofBE (setint64Loop fNegative i false n) = k
  := by
  induction i generalizing n k with
  | zero =>
    rw [pow_zero, Nat.lt_one_iff] at hk
    subst hk
    exact ⟨rfl, rfl⟩
  | succ i ih =>
    obtain ⟨htop, hnext⟩ := setint64_turn (by omega) hn
    have hpos : 0 < 256 ^ i := Nat.pow_pos (by decide)
    obtain ⟨hlength, hvalue⟩ := ih (by omega) hnext (Nat.mod_lt k hpos)
    have hlt : k / 256 ^ i < 256 := by
      rw [Nat.div_lt_iff_lt_mul hpos, ← pow_succ']
      exact hk
    rw [setint64Loop, if_neg Bool.false_ne_true]
    refine ⟨by rw [List.length_cons, hlength], ?_⟩
    rw [ofBE_cons, hlength, hvalue, htop, Nat.mod_eq_of_lt hlt]
    apply Nat.div_add_mod'

/-- The number with a sign and a magnitude. -/
def signed (fNegative : Bool) (k : ℕ) : ℤ := if fNegative then -(k : ℤ) else k

theorem natAbs_signed (fNegative : Bool) (k : ℕ) : (signed fNegative k).natAbs = k
  := by
  cases fNegative
  · rfl
  · exact Int.natAbs_neg k

theorem signed_neg_iff (fNegative : Bool) (h : 0 < k) :
  signed fNegative k < 0 ↔ fNegative = true
  := by
  cases fNegative
  · simp [signed]
  · simp only [signed, if_true, iff_true]
    omega

/-- The loop writes the bytes that `BN_bn2mpi` would. -/
theorem setint64Loop_true (fNegative : Bool) (hi : i ≤ 8)
    (hn : n.toNat = k * 256 ^ (8 - i)) (hk : k < 256 ^ i) :
  setint64Loop fNegative i true n = bn2mpi (signed fNegative k)
  := by
  induction i generalizing n k with
  | zero =>
    rw [pow_zero, Nat.lt_one_iff] at hk
    subst hk
    cases fNegative <;> rfl
  | succ i ih =>
    obtain ⟨htop, hnext⟩ := setint64_turn (by omega) hn
    have hpos : 0 < 256 ^ i := Nat.pow_pos (by decide)
    have hlt : k / 256 ^ i < 256 := by
      rw [Nat.div_lt_iff_lt_mul hpos, ← pow_succ']
      exact hk
    rw [Nat.mod_eq_of_lt hlt] at htop
    rw [setint64Loop, if_pos rfl]
    rcases eq_or_ne (n >>> 56).toUInt8 0 with hzero | hzero
    · -- another leading zero
      rw [hzero] at htop
      have hsmall : k < 256 ^ i := by
        rw [← Nat.div_eq_zero_iff_lt hpos]
        exact htop.symm
      rw [Nat.mod_eq_of_lt hsmall] at hnext
      rw [if_pos hzero]
      apply ih (by omega) hnext hsmall
    · obtain ⟨hlength, hvalue⟩ := setint64Loop_false fNegative (i := i) (by omega) hnext
        (Nat.mod_lt k hpos)
      have hbytes : ofBE ((n >>> 56).toUInt8 :: setint64Loop fNegative i false (n <<< 8)) = k := by
        rw [ofBE_cons, hlength, hvalue, htop]
        apply Nat.div_add_mod'
      have hk0 : 0 < k := by
        rw [← hbytes]
        apply ofBE_pos_of_head
        exact Nat.pos_of_ne_zero (fun hc => hzero (UInt8.toNat_inj.mp hc))
      have hmagnitude := bnBytes_ofBE_cons hzero (setint64Loop fNegative i false (n <<< 8))
      rw [hbytes] at hmagnitude
      rw [if_neg hzero, bn2mpi, natAbs_signed, hmagnitude]
      simp only [signed_neg_iff fNegative hk0]

/-- The magnitude of a 64-bit integer, that of the smallest one included. -/
theorem toNat_magnitude (sn : Int64) :
  (if sn < 0 then (-(sn + 1)).toUInt64 + 1 else sn.toUInt64).toNat = sn.toInt.natAbs
  := by
  have hlt := sn.toUInt64.toNat_lt
  have hvalue := show sn.toInt = if 2 * sn.toUInt64.toNat < 2 ^ 64 then (sn.toUInt64.toNat : ℤ)
    else (sn.toUInt64.toNat : ℤ) - (2 ^ 64 : ℕ) from rfl
  have hneg : sn < 0 ↔ sn.toInt < 0 := Int64.lt_iff_toInt_lt
  split_ifs with h
  · rw [hneg] at h
    rw [Int64.toUInt64_neg, Int64.toUInt64_add, UInt64.toNat_add, UInt64.toNat_neg, UInt64.toNat_add]
    have hone : (Int64.toUInt64 1).toNat = 1 := rfl
    simp only [hone, UInt64.toNat_ofNat, UInt64.size]
    split_ifs at hvalue <;> omega
  · rw [hneg] at h
    split_ifs at hvalue <;> omega

theorem setint64_eq (sn : Int64) : setint64 sn = sn.toInt
  := by
  have hlt : sn.toInt.natAbs < 256 ^ 8 := by
    have hge := sn.le_toInt
    have hle := sn.toInt_lt
    omega
  rw [setint64, setint64Loop_true _ le_rfl (by rw [toNat_magnitude, pow_zero, Nat.mul_one]) hlt,
    mpi2bn_bn2mpi]
  have hneg : sn < 0 ↔ sn.toInt < 0 := Int64.lt_iff_toInt_lt
  cases h : decide (sn < 0) with
  | true =>
    rw [decide_eq_true_eq, hneg] at h
    rw [signed, if_pos rfl]
    omega
  | false =>
    rw [decide_eq_false_iff_not, hneg] at h
    rw [signed, if_neg Bool.false_ne_true]
    omega

/-- Numbers of scripts: a 64-bit integer is written with the fewest bytes that spell it and is read
back from them, and a string of at most four bytes is true when the number that is read from it is not
zero. -/
theorem scriptNumbers :
  (∀ n : Int64, IsShortest (getvch (setint64 n)) n.toInt
      ∧ setvch (getvch (setint64 n)) = n.toInt ∧ setint64 n = n.toInt)
    ∧ ∀ (v : Bytes) (m : Machine), v.length ≤ 4 →
        ∃ bn, Exec.castToBigNum v m = .ok bn m ∧ (castToBool v = true ↔ bn ≠ 0)
  := by
  constructor
  · intro n
    rw [setint64_eq]
    refine ⟨isShortest_getvch n.toInt, ?_, rfl⟩
    rw [setvch, getvch, List.reverse_reverse, mpi2bn_bn2mpi]
  · intro v m hlength
    have hnumber : numberOf v = some (signMagnitude v) := by
      rw [numberOf, if_neg (by omega), setvch, getvch, List.reverse_reverse, mpi2bn_bn2mpi,
        setvch_eq_signMagnitude]
    refine ⟨signMagnitude v, Exec.castToBigNum_run hnumber, ?_⟩
    rw [ne_eq, signMagnitude_eq_zero_iff, Bool.not_eq_false]

/-- A negative zero of two bytes is a number, and false as that number is. -/
theorem scriptNumbers_negativeZero :
  ∃ bn, Exec.castToBigNum [0, 0x80] { stack := [], pbegincodehash := [] }
      = .ok bn { stack := [], pbegincodehash := [] }
    ∧ (castToBool [0, 0x80] = true ↔ bn ≠ 0)
  := scriptNumbers.2 [0, 0x80] _ (by decide)

end CorgiCoin
