import CorgiCoin.Serialize

/-!
# Big numbers

The parts of `CBigNum` the chain uses: the sign-magnitude byte strings of OpenSSL's MPI
format, the compact form of difficulty targets and the little-endian form scripts push.
-/

namespace CorgiCoin

open Codec

/-- The number whose bytes, most significant first, are given. -/
def ofBE (bs : Bytes) : ℕ := ofLE bs.reverse

/-- The bytes of a number, most significant first and without leading zeros. -/
def bnBytes (n : ℕ) : Bytes := (toLE (if n = 0 then 0 else n.log2 / 8 + 1) n).reverse

/-- `BN_mpi2bn` on the bytes after the length: the top bit of the first byte is the sign. -/
def mpi2bn : Bytes → ℤ
  | [] => 0
  | b :: bs => if b &&& 0x80 != 0 then -(ofBE ((b &&& 0x7f) :: bs) : ℤ) else ofBE (b :: bs)

/-- `BN_bn2mpi`, without the length: a zero byte is put in front where the top bit of the
magnitude would be taken for a sign. -/
def bn2mpi (bn : ℤ) : Bytes :=
  match bnBytes bn.natAbs with
  | [] => []
  | b :: bs =>
    if b &&& 0x80 != 0 then (if bn < 0 then 0x80 else 0) :: b :: bs
    else (if bn < 0 then b ||| 0x80 else b) :: bs

/-- `CBigNum::SetCompact`. -/
def setCompact (nCompact : UInt32) : ℤ :=
  let nSize := (nCompact >>> 24).toNat
  let vch := [(nCompact >>> 16).toUInt8, (nCompact >>> 8).toUInt8, nCompact.toUInt8]
  mpi2bn (vch.take nSize ++ List.replicate (nSize - 3) 0)

/-- `CBigNum::GetCompact`. -/
def getCompact (bn : ℤ) : UInt32 :=
  let vch := bn2mpi bn
  let byteAt (i : ℕ) : UInt32 := (vch[i]?.getD 0).toUInt32
  (UInt32.ofNat vch.length <<< 24) ||| (byteAt 0 <<< 16) ||| (byteAt 1 <<< 8) ||| byteAt 2

/-- `CBigNum::getvch`: the bytes least significant first, the sign in the last one. -/
def getvch (bn : ℤ) : Bytes := (bn2mpi bn).reverse

/-- `CBigNum::getuint256` of a target. -/
def getuint256 (bn : ℤ) : uint256 := BitVec.ofNat 256 bn.natAbs

example : setCompact 0x1e0ffff0 = 0x0ffff0 * 256 ^ 27 := by decide

example : getCompact (2 ^ 255 - 1) = 0x207fffff := by decide

/-- The bytes of a number below `256 ^ k` are at most `k`. -/
theorem length_bnBytes_le {n k : ℕ} (h : n < 256 ^ k) :
  (bnBytes n).length ≤ k
  := by
  rw [bnBytes, List.length_reverse, length_toLE]
  split_ifs with hn
  · apply Nat.zero_le
  · have hlog : n.log2 < 8 * k := by
      apply (Nat.log2_lt hn).mpr
      rw [Nat.pow_mul]
      apply h
    omega

/-- Pushing a number of an absolute value below `256 ^ k` takes at most a byte more. -/
theorem length_getvch_le_of_natAbs {bn : ℤ} {k : ℕ} (h : bn.natAbs < 256 ^ k) :
  (getvch bn).length ≤ k + 1
  := by
  have hlength := length_bnBytes_le h
  rw [getvch, List.length_reverse, bn2mpi]
  split
  · apply Nat.zero_le
  · rename_i b bs hbytes
    rw [hbytes, List.length_cons] at hlength
    split_ifs <;> simp only [List.length_cons] <;> omega

/-- Pushing a number below `256 ^ k` takes at most one byte more than its magnitude. -/
theorem length_getvch_le {n k : ℕ} (h : n < 256 ^ k) :
  (getvch n).length ≤ k + 1
  := by
  apply length_getvch_le_of_natAbs
  rw [Int.natAbs_natCast]
  apply h

/-! ## Bytes of a positive number -/

theorem ofLE_append (bs bs' : Bytes) :
  ofLE (bs ++ bs') = ofLE bs + 256 ^ bs.length * ofLE bs'
  := by
  induction bs with
  | nil => simp [ofLE]
  | cons b bs ih =>
    rw [List.cons_append, ofLE, ih, ofLE, List.length_cons, pow_succ]
    ring

theorem ofBE_append (bs bs' : Bytes) :
  ofBE (bs ++ bs') = ofBE bs * 256 ^ bs'.length + ofBE bs'
  := by
  rw [ofBE, List.reverse_append, ofLE_append, List.length_reverse, ofBE, ofBE]
  ring

theorem ofBE_replicate_zero (n : ℕ) :
  ofBE (List.replicate n 0) = 0
  := by
  rw [ofBE, List.reverse_replicate]
  induction n with
  | zero => rfl
  | succ n ih => rw [List.replicate_succ, ofLE, ih]; rfl

theorem ofBE_bnBytes (n : ℕ) :
  ofBE (bnBytes n) = n
  := by
  rw [ofBE, bnBytes, List.reverse_reverse]
  apply ofLE_toLE_of_lt
  split_ifs with hn
  · rw [hn]
    decide
  · have hlog := @Nat.lt_log2_self n
    calc n < 2 ^ (n.log2 + 1) := hlog
      _ ≤ 2 ^ (8 * (n.log2 / 8 + 1)) := Nat.pow_le_pow_right (by decide) (by omega)
      _ = 256 ^ (n.log2 / 8 + 1) := by rw [pow_mul]; rfl

theorem toLE_ofLE (bs : Bytes) : toLE bs.length (ofLE bs) = bs := by
  induction bs with
  | nil => rfl
  | cons b bs ih =>
    have hlt := b.toNat_lt
    have hbyte : UInt8.ofNat (b.toNat + 256 * ofLE bs) = b := by
      apply UInt8.toNat_inj.mp
      rw [UInt8.toNat_ofNat']
      omega
    have hrest : (b.toNat + 256 * ofLE bs) / 256 = ofLE bs := by omega
    rw [List.length_cons, ofLE, toLE, hbyte, hrest, ih]

theorem ofLE_lt (bs : Bytes) : ofLE bs < 256 ^ bs.length := by
  induction bs with
  | nil => decide
  | cons b bs ih =>
    have hlt := b.toNat_lt
    rw [ofLE, List.length_cons, pow_succ]
    omega

theorem exists_bnBytes_cons {n : ℕ} (h : 0 < n) :
  ∃ b bs, bnBytes n = b :: bs ∧ 0 < b.toNat
  := by
  have hlength : (bnBytes n).length = n.log2 / 8 + 1 := by
    rw [bnBytes, if_neg h.ne', List.length_reverse, length_toLE]
  have hvalue := ofBE_bnBytes n
  cases hbytes : bnBytes n with
  | nil =>
    rw [hbytes] at hlength
    cases hlength
  | cons b bs =>
    refine ⟨b, bs, rfl, ?_⟩
    rw [hbytes, List.length_cons, Nat.add_right_cancel_iff] at hlength
    rw [hbytes, ← List.singleton_append, ofBE_append, hlength] at hvalue
    have hlow : ofBE bs < 256 ^ (n.log2 / 8) := by
      rw [ofBE, ← hlength, ← List.length_reverse]
      apply ofLE_lt
    have hhigh : 256 ^ (n.log2 / 8) ≤ n := by
      calc 256 ^ (n.log2 / 8) = 2 ^ (8 * (n.log2 / 8)) := by rw [pow_mul]; rfl
        _ ≤ 2 ^ n.log2 := Nat.pow_le_pow_right (by decide) (by omega)
        _ ≤ n := Nat.log2_self_le h.ne'
    by_contra hzero
    have hb : ofBE [b] = 0 := by
      have hb : ofBE [b] = b.toNat := by simp [ofBE, ofLE]
      omega
    rw [hb, Nat.zero_mul, Nat.zero_add] at hvalue
    omega

theorem ofBE_pos_of_head {b : UInt8} {bs : Bytes} (h : 0 < b.toNat) :
  0 < ofBE (b :: bs)
  := by
  have hb : ofBE [b] = b.toNat := by simp [ofBE, ofLE]
  rw [← List.singleton_append, ofBE_append, hb]
  exact Nat.add_pos_left (Nat.mul_pos h (Nat.pow_pos (by decide))) _

theorem ofBE_zero_cons (bs : Bytes) :
  ofBE (0 :: bs) = ofBE bs
  := by
  rw [← List.singleton_append, ofBE_append]
  simp [ofBE, ofLE]

/-- The bytes of a positive number as `BN_bn2mpi` writes them: the top bit is clear, and the first
three bytes are not all zero. -/
theorem bn2mpi_pos {bn : ℕ} (h : 0 < bn) :
  ∃ b bs, bn2mpi bn = b :: bs ∧ b &&& 0x80 = 0 ∧ ofBE (b :: bs) = bn
    ∧ 0 < ofBE ((b :: bs).take 3)
  := by
  obtain ⟨b, bs, hbytes, hpos⟩ := exists_bnBytes_cons h
  have hvalue := ofBE_bnBytes bn
  have hsign : ¬(bn : ℤ) < 0 := by omega
  rw [hbytes] at hvalue
  simp only [bn2mpi, Int.natAbs_natCast, hbytes, if_neg hsign]
  split_ifs with hbit
  · refine ⟨0, b :: bs, rfl, rfl, ?_, ?_⟩
    · rw [ofBE_zero_cons, hvalue]
    · rw [List.take_succ_cons, ofBE_zero_cons, List.take_succ_cons]
      apply ofBE_pos_of_head hpos
  · refine ⟨b, bs, rfl, ?_, hvalue, ?_⟩
    · simpa using hbit
    · rw [List.take_succ_cons]
      apply ofBE_pos_of_head hpos

/-- The fields of a word that is put together from a size and three bytes. -/
theorem compact_fields {n : ℕ} (h : n < 256) (a b c : UInt8) :
  let nCompact :=
    (UInt32.ofNat n <<< 24) ||| (a.toUInt32 <<< 16) ||| (b.toUInt32 <<< 8) ||| c.toUInt32
  (nCompact >>> 24).toNat = n ∧ (nCompact >>> 16).toUInt8 = a ∧ (nCompact >>> 8).toUInt8 = b
    ∧ nCompact.toUInt8 = c
  := by
  intro nCompact
  have ha := a.toNat_lt
  have hb := b.toNat_lt
  have hc := c.toNat_lt
  have hvalue : nCompact.toNat = n * 2 ^ 24 + (a.toNat * 2 ^ 16 + (b.toNat * 2 ^ 8 + c.toNat)) := by
    have hb8 : b.toNat <<< 8 ||| c.toNat = b.toNat * 2 ^ 8 + c.toNat := by
      rw [← Nat.shiftLeft_add_eq_or_of_lt (by omega), Nat.shiftLeft_eq]
    have ha16 : a.toNat <<< 16 ||| (b.toNat * 2 ^ 8 + c.toNat)
        = a.toNat * 2 ^ 16 + (b.toNat * 2 ^ 8 + c.toNat) := by
      rw [← Nat.shiftLeft_add_eq_or_of_lt (by omega), Nat.shiftLeft_eq]
    have hn24 : n <<< 24 ||| (a.toNat * 2 ^ 16 + (b.toNat * 2 ^ 8 + c.toNat))
        = n * 2 ^ 24 + (a.toNat * 2 ^ 16 + (b.toNat * 2 ^ 8 + c.toNat)) := by
      rw [← Nat.shiftLeft_add_eq_or_of_lt (by omega), Nat.shiftLeft_eq]
    have hn : n <<< 24 % 2 ^ 32 = n <<< 24 := by
      rw [Nat.shiftLeft_eq]
      omega
    have hna : a.toNat <<< 16 % 2 ^ 32 = a.toNat <<< 16 := by
      rw [Nat.shiftLeft_eq]
      omega
    have hnb : b.toNat <<< 8 % 2 ^ 32 = b.toNat <<< 8 := by
      rw [Nat.shiftLeft_eq]
      omega
    have hnn : n % 2 ^ 32 = n := by omega
    simp only [nCompact, UInt32.toNat_or, UInt32.toNat_shiftLeft, UInt32.toNat_ofNat',
      UInt8.toNat_toUInt32, Nat.reduceMod, UInt32.reduceToNat, hnn, hn, hna, hnb, Nat.or_assoc, hb8,
      ha16, hn24]
  refine ⟨?_, ?_, ?_, ?_⟩
  · rw [UInt32.toNat_shiftRight, hvalue]
    simp only [UInt32.reduceToNat, Nat.reduceMod, Nat.shiftRight_eq_div_pow]
    omega
  · apply UInt8.toNat_inj.mp
    rw [UInt32.toNat_toUInt8, UInt32.toNat_shiftRight, hvalue]
    simp only [UInt32.reduceToNat, Nat.reduceMod, Nat.shiftRight_eq_div_pow]
    omega
  · apply UInt8.toNat_inj.mp
    rw [UInt32.toNat_toUInt8, UInt32.toNat_shiftRight, hvalue]
    simp only [UInt32.reduceToNat, Nat.reduceMod, Nat.shiftRight_eq_div_pow]
    omega
  · apply UInt8.toNat_inj.mp
    rw [UInt32.toNat_toUInt8, hvalue]
    omega

theorem take_three (b : UInt8) (bs : Bytes) :
  [(b :: bs)[0]?.getD 0, (b :: bs)[1]?.getD 0, (b :: bs)[2]?.getD 0].take (b :: bs).length
    = (b :: bs).take 3
  := by
  match bs with
  | [] => simp
  | [_] => simp
  | _ :: _ :: _ => simp

/-- The compact form keeps the first three bytes of a number. -/
theorem setCompact_getCompact_eq
    {b : UInt8} {bs : Bytes} {bn : ℤ} (h : bn2mpi bn = b :: bs) (hlength : (b :: bs).length < 256) :
  setCompact (getCompact bn)
    = mpi2bn ((b :: bs).take 3 ++ List.replicate ((b :: bs).length - 3) 0)
  := by
  simp only [getCompact, h]
  rw [← take_three]
  generalize (b :: bs).length = n at hlength ⊢
  generalize (b :: bs)[0]?.getD 0 = b0
  generalize (b :: bs)[1]?.getD 0 = b1
  generalize (b :: bs)[2]?.getD 0 = b2
  obtain ⟨hsize, h0, h1, h2⟩ := compact_fields hlength b0 b1 b2
  simp only [setCompact, hsize, h0, h1, h2]

/-- A positive number and its compact form: what follows the first three bytes is cut off. -/
theorem setCompact_getCompact_split {n : ℕ} (hpos : 0 < n) (hlt : n < 2 ^ 256) :
  ∃ q e r, e = (bn2mpi n).length - 3 ∧ r < 256 ^ e ∧ n = q * 256 ^ e + r ∧ 0 < q ∧ q < 256 ^ 3
    ∧ setCompact (getCompact n) = (q * 256 ^ e : ℕ)
  := by
  obtain ⟨b, bs, hmpi, hsign, hvalue, htop⟩ := bn2mpi_pos hpos
  have hlength : (b :: bs).length < 256 := by
    have hle := @length_getvch_le n 32 (by omega)
    rw [getvch, hmpi, List.length_reverse] at hle
    omega
  rw [setCompact_getCompact_eq hmpi hlength, hmpi]
  refine ⟨ofBE ((b :: bs).take 3), _, ofBE ((b :: bs).drop 3), rfl, ?_, ?_, htop, ?_, ?_⟩
  · rw [ofBE, ← List.length_drop, ← List.length_reverse]
    apply ofLE_lt
  · rw [← List.length_drop, ← ofBE_append, List.take_append_drop, hvalue]
  · apply lt_of_lt_of_le (ofLE_lt _)
    rw [List.length_reverse]
    exact Nat.pow_le_pow_right (by decide) (List.length_take_le 3 _)
  · rw [List.take_succ_cons, List.cons_append, mpi2bn, if_neg (by simp [hsign]), ← List.cons_append,
      ← List.take_succ_cons, ofBE_append, ofBE_replicate_zero, List.length_replicate, Nat.add_zero]

/-- The compact form of a positive number decodes to a positive number that is no larger. -/
theorem setCompact_getCompact {bn : ℤ} (hpos : 0 < bn) (hlt : bn < 2 ^ 256) :
  0 < setCompact (getCompact bn) ∧ setCompact (getCompact bn) ≤ bn
  := by
  obtain ⟨n, rfl⟩ := Int.eq_ofNat_of_zero_le hpos.le
  obtain ⟨q, e, r, -, -, hsplit, hq, -, hcut⟩ :=
    @setCompact_getCompact_split n (by omega) (by omega)
  rw [hcut]
  constructor
  · exact_mod_cast Nat.mul_pos hq (Nat.pow_pos (by decide))
  · omega

theorem and_top_bit {b : UInt8} (h : b.toNat < 128) :
  b &&& 0x80 = 0
  := by
  have hall : ∀ x : BitVec 8, x.toNat < 128 → x &&& 0x80 = 0 := by decide
  exact UInt8.eq_of_toBitVec_eq (hall b.toBitVec h)

/-- The bytes of a number whose top bit is clear when it is written on `k + 1` bytes. -/
theorem length_bn2mpi_le {n k : ℕ} (h : n < 128 * 256 ^ k) :
  (bn2mpi n).length ≤ k + 1
  := by
  have hle : (bnBytes n).length ≤ k + 1 := by
    apply length_bnBytes_le
    rw [pow_succ]
    omega
  have hsign : ¬(n : ℤ) < 0 := by omega
  rw [bn2mpi, Int.natAbs_natCast]
  cases hbytes : bnBytes n with
  | nil => apply Nat.zero_le
  | cons b bs =>
    rw [hbytes, List.length_cons] at hle
    simp only [if_neg hsign]
    split_ifs with hbit
    · -- a number on all the bytes with its top bit set is too large
      have hvalue := ofBE_bnBytes n
      have hb : ofBE [b] = b.toNat := by simp [ofBE, ofLE]
      rw [hbytes, ← List.singleton_append, ofBE_append, hb] at hvalue
      have hset : 128 ≤ b.toNat := by
        by_contra hlt
        rw [and_top_bit (by omega)] at hbit
        cases hbit
      have hshort : bs.length ≠ k := by
        intro heq
        rw [heq] at hvalue
        have hmul : 128 * 256 ^ k ≤ b.toNat * 256 ^ k := Nat.mul_le_mul_right _ hset
        omega
      simp only [List.length_cons]
      omega
    · rw [List.length_cons]
      exact hle

/-- The top bit is clear on the bytes that `BN_bn2mpi` writes for a number. -/
theorem lt_of_length_bn2mpi {n : ℕ} (hpos : 0 < n) :
  n < 128 * 256 ^ ((bn2mpi n).length - 1)
  := by
  obtain ⟨b, bs, hmpi, hsign, hvalue, -⟩ := bn2mpi_pos hpos
  have hb : ofBE [b] = b.toNat := by simp [ofBE, ofLE]
  have hclear : b.toNat < 128 := by
    have hall : ∀ x : BitVec 8, x &&& 0x80 = 0 → x.toNat < 128 := by decide
    exact hall b.toBitVec (UInt8.toBitVec_inj.mpr hsign)
  have hrest : ofBE bs < 256 ^ bs.length := by
    rw [ofBE, ← List.length_reverse]
    exact ofLE_lt _
  rw [← List.singleton_append, ofBE_append, hb] at hvalue
  rw [hmpi, List.length_cons, Nat.add_sub_cancel]
  have hmul : b.toNat * 256 ^ bs.length ≤ 127 * 256 ^ bs.length :=
    Nat.mul_le_mul_right _ (by omega)
  omega

/-- The compact form of a larger number decodes to a larger number. -/
theorem setCompact_getCompact_mono {m n : ℕ} (hle : m ≤ n) (hlt : n < 2 ^ 256) :
  setCompact (getCompact m) ≤ setCompact (getCompact n)
  := by
  rcases Nat.eq_zero_or_pos n with rfl | hn
  · rw [Nat.le_zero.mp hle]
  rcases Nat.eq_zero_or_pos m with rfl | hm
  · have hzero : setCompact (getCompact ((0 : ℕ) : ℤ)) = 0 := by decide
    rw [hzero]
    exact (setCompact_getCompact (Int.natCast_pos.mpr hn) (by omega)).1.le
  obtain ⟨q, e, r, he, hr, hsplit, -, -, hcut⟩ := setCompact_getCompact_split hm (by omega)
  obtain ⟨q', e', r', he', hr', hsplit', -, -, hcut'⟩ := setCompact_getCompact_split hn hlt
  rw [hcut, hcut']
  apply Int.ofNat_le.mpr
  have hmlt := lt_of_length_bn2mpi hm
  have hnlt := lt_of_length_bn2mpi hn
  obtain hshort | rfl | hlong := Nat.lt_trichotomy e e'
  · -- the larger number has more bytes: what is kept of it is above the smaller one
    have hlow : 128 * 256 ^ (e' + 1) ≤ n := by
      by_contra hsmall
      have hlength := length_bn2mpi_le (Nat.not_le.mp hsmall)
      omega
    have hhigh : m < 128 * 256 ^ (e' + 1) :=
      hmlt.trans_le (Nat.mul_le_mul_left 128 (Nat.pow_le_pow_right (by decide) (by omega)))
    rw [pow_succ] at hlow hhigh
    have hq : 128 * 256 ≤ q' := by
      by_contra hsmall
      have hmul : (q' + 1) * 256 ^ e' ≤ 128 * 256 * 256 ^ e' := Nat.mul_le_mul_right _ (by omega)
      rw [Nat.add_mul] at hmul
      omega
    have hmul : 128 * 256 * 256 ^ e' ≤ q' * 256 ^ e' := Nat.mul_le_mul_right _ hq
    omega
  · have hq : q ≤ q' := by
      by_contra hlarger
      have hmul : (q' + 1) * 256 ^ e ≤ q * 256 ^ e := Nat.mul_le_mul_right _ (by omega)
      rw [Nat.add_mul] at hmul
      omega
    exact Nat.mul_le_mul_right _ hq
  · -- more bytes are for larger numbers
    have hlow : 128 * 256 ^ (e + 1) ≤ m := by
      by_contra hsmall
      have hlength := length_bn2mpi_le (Nat.not_le.mp hsmall)
      omega
    have hhigh : n < 128 * 256 ^ (e + 1) :=
      hnlt.trans_le (Nat.mul_le_mul_left 128 (Nat.pow_le_pow_right (by decide) (by omega)))
    omega
end CorgiCoin
