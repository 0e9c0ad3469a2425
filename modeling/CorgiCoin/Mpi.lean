import CorgiCoin.HDKey

/-!
# The MPI format

Every number is written in one way only, with the fewest bytes: the strings that `BN_bn2mpi` writes
are those whose first byte holds a bit of the magnitude or keeps the sign apart from one.
-/

namespace CorgiCoin

open Codec

/-- The first byte cannot be left out. -/
def MinimalMpi : Bytes → Prop
  | [] => True
  | [b] => b &&& 0x7f ≠ 0
  | b :: b' :: _ => b &&& 0x7f ≠ 0 ∨ b' &&& 0x80 ≠ 0

/-! ## The bits of the first byte -/

theorem forall_uint8 {p : UInt8 → Prop} (h : ∀ x : BitVec 8, p (UInt8.ofBitVec x)) (b : UInt8) : p b
  := h b.toBitVec

theorem and_magnitude_and_sign (b : UInt8) : (b &&& 0x7f) &&& 0x80 = 0
  := @forall_uint8 (fun b => (b &&& 0x7f) &&& 0x80 = 0) (by decide) b

theorem toNat_and_magnitude_lt (b : UInt8) : (b &&& 0x7f).toNat < 128
  := @forall_uint8 (fun b => (b &&& 0x7f).toNat < 128) (by decide) b

variable {b : UInt8}

theorem and_magnitude_of_sign_clear (h : b &&& 0x80 = 0) : b &&& 0x7f = b
  := @forall_uint8 (fun b => b &&& 0x80 = 0 → b &&& 0x7f = b) (by decide) b h

/-- A byte is put together again from its sign and its magnitude. -/
theorem or_sign_of_sign (h : b &&& 0x80 ≠ 0) : (b &&& 0x7f) ||| 0x80 = b
  := @forall_uint8 (fun b => b &&& 0x80 ≠ 0 → (b &&& 0x7f) ||| 0x80 = b) (by decide) b h

theorem or_sign_and_sign (b : UInt8) : (b ||| 0x80) &&& 0x80 ≠ 0
  := @forall_uint8 (fun b => (b ||| 0x80) &&& 0x80 ≠ 0) (by decide) b

theorem or_sign_and_magnitude (h : b &&& 0x80 = 0) : (b ||| 0x80) &&& 0x7f = b
  := @forall_uint8 (fun b => b &&& 0x80 = 0 → (b ||| 0x80) &&& 0x7f = b) (by decide) b h

theorem eq_sign_of_magnitude_eq_zero (h : b &&& 0x7f = 0) :
  b = if b &&& 0x80 = 0 then 0 else 0x80
  := @forall_uint8 (fun b => b &&& 0x7f = 0 → b = if b &&& 0x80 = 0 then 0 else 0x80) (by decide) b h

theorem ne_zero_of_sign (h : b &&& 0x80 ≠ 0) : b ≠ 0
  := by
  rintro rfl
  apply h rfl

/-! ## The bytes of a magnitude -/

theorem ofBE_cons (b : UInt8) (bs : Bytes) :
  ofBE (b :: bs) = b.toNat * 256 ^ bs.length + ofBE bs
  := by
  have hb : ofBE [b] = b.toNat := by simp [ofBE, ofLE]
  rw [← List.singleton_append, ofBE_append, hb]

theorem ofBE_lt (bs : Bytes) : ofBE bs < 256 ^ bs.length
  := by
  rw [ofBE, ← List.length_reverse]
  apply ofLE_lt

/-- The bytes of a number without leading zeros are those it is read from. -/
theorem bnBytes_ofBE_cons (hb : b ≠ 0) (bs : Bytes) :
  bnBytes (ofBE (b :: bs)) = b :: bs
  := by
  have hpos : 0 < b.toNat := by
    rw [Nat.pos_iff_ne_zero]
    intro hzero
    apply hb (UInt8.toNat_inj.mp hzero)
  have hne : ofBE (b :: bs) ≠ 0 := (ofBE_pos_of_head hpos).ne'
  have hlow : 2 ^ (8 * bs.length) ≤ ofBE (b :: bs) := by
    rw [ofBE_cons, pow_mul, show (2 : ℕ) ^ 8 = 256 from rfl]
    have hmul : 1 * 256 ^ bs.length ≤ b.toNat * 256 ^ bs.length := Nat.mul_le_mul_right _ hpos
    omega
  have hhigh : ofBE (b :: bs) < 2 ^ (8 * (bs.length + 1)) := by
    rw [pow_mul]
    apply ofBE_lt
  have hlog : (ofBE (b :: bs)).log2 / 8 + 1 = (b :: bs).reverse.length := by
    have hge := (Nat.le_log2 hne).mpr hlow
    have hlt := (Nat.log2_lt hne).mpr hhigh
    rw [List.length_reverse, List.length_cons]
    omega
  rw [bnBytes, if_neg hne, hlog, ofBE, toLE_ofLE, List.reverse_reverse]

/-! ## Reading and writing -/

/-- A number that is written is read back. -/
theorem mpi2bn_bn2mpi (n : ℤ) : mpi2bn (bn2mpi n) = n
  := by
  have hvalue := ofBE_bnBytes n.natAbs
  rw [bn2mpi]
  split
  · next hbytes =>
    rw [hbytes] at hvalue
    exact (Int.natAbs_eq_zero.mp hvalue.symm).symm
  · next b bs hbytes =>
    rw [hbytes] at hvalue
    split_ifs with htop hneg hneg
    · rw [mpi2bn, if_pos (by decide), show (0x80 : UInt8) &&& 0x7f = 0 from rfl, ofBE_zero_cons, hvalue]
      omega
    · rw [mpi2bn, if_neg (by decide), ofBE_zero_cons, hvalue]
      omega
    · have hclear : b &&& 0x80 = 0 := by simpa using htop
      rw [mpi2bn, if_pos (bne_iff_ne.mpr (or_sign_and_sign b)), or_sign_and_magnitude hclear, hvalue]
      omega
    · rw [mpi2bn, if_neg htop, hvalue]
      omega

theorem minimalMpi_bn2mpi (n : ℤ) : MinimalMpi (bn2mpi n)
  := by
  rw [bn2mpi]
  split
  · trivial
  · next b bs hbytes =>
    have hpos : 0 < n.natAbs := by
      rw [Nat.pos_iff_ne_zero]
      intro hzero
      rw [hzero] at hbytes
      cases hbytes
    obtain ⟨b', bs', hbytes', hb⟩ := exists_bnBytes_cons hpos
    cases hbytes.symm.trans hbytes'
    split_ifs with htop hneg hneg
    · exact .inr (bne_iff_ne.mp htop)
    · exact .inr (bne_iff_ne.mp htop)
    · have hclear : b &&& 0x80 = 0 := by simpa using htop
      have hmagnitude : (b ||| 0x80) &&& 0x7f ≠ 0 := by
        rw [or_sign_and_magnitude hclear]
        rintro rfl
        cases hb
      cases bs with
      | nil => exact hmagnitude
      | cons b' bs => exact .inl hmagnitude
    · have hclear : b &&& 0x80 = 0 := by simpa using htop
      have hmagnitude : b &&& 0x7f ≠ 0 := by
        rw [and_magnitude_of_sign_clear hclear]
        rintro rfl
        cases hb
      cases bs with
      | nil => exact hmagnitude
      | cons b' bs => exact .inl hmagnitude

/-- The magnitude of a number that is read. -/
theorem natAbs_mpi2bn (b : UInt8) (bs : Bytes) :
  (mpi2bn (b :: bs)).natAbs = ofBE ((b &&& 0x7f) :: bs)
  := by
  rw [mpi2bn]
  split_ifs with hsign
  · rw [Int.natAbs_neg, Int.natAbs_natCast]
  · have hclear : b &&& 0x80 = 0 := by simpa using hsign
    rw [Int.natAbs_natCast, and_magnitude_of_sign_clear hclear]

variable {bs : Bytes}

theorem mpi2bn_neg_iff (h : mpi2bn (b :: bs) ≠ 0) :
  mpi2bn (b :: bs) < 0 ↔ b &&& 0x80 ≠ 0
  := by
  rw [mpi2bn] at h ⊢
  split_ifs at h ⊢ with hsign
  · have hset : b &&& 0x80 ≠ 0 := bne_iff_ne.mp hsign
    simp only [hset, ne_eq, not_false_eq_true, iff_true]
    omega
  · have hclear : b &&& 0x80 = 0 := by simpa using hsign
    simp only [hclear, ne_eq, not_true_eq_false, iff_false]
    omega

/-- A string that cannot be shortened is written again as it was. -/
theorem bn2mpi_mpi2bn (h : MinimalMpi bs) : bn2mpi (mpi2bn bs) = bs
  := by
  cases bs with
  | nil => rfl
  | cons b bs =>
    have habs := natAbs_mpi2bn b bs
    rcases eq_or_ne (b &&& 0x7f) 0 with hzero | hmagnitude
    · -- the first byte holds the sign only
      cases bs with
      | nil => exact absurd hzero h
      | cons b' bs =>
        have htop : b' &&& 0x80 ≠ 0 := h.resolve_left (not_not_intro hzero)
        rw [hzero, ofBE_zero_cons] at habs
        have hne : mpi2bn (b :: b' :: bs) ≠ 0 := by
          rw [← Int.natAbs_ne_zero, habs]
          apply (ofBE_pos_of_head _).ne'
          exact Nat.pos_of_ne_zero (fun hb' => ne_zero_of_sign htop (UInt8.toNat_inj.mp hb'))
        have hsign := mpi2bn_neg_iff hne
        rw [bn2mpi, habs, bnBytes_ofBE_cons (ne_zero_of_sign htop)]
        simp only [bne_iff_ne.mpr htop, if_true, hsign]
        rw [eq_sign_of_magnitude_eq_zero hzero]
        split_ifs <;> simp_all
    · have hne : mpi2bn (b :: bs) ≠ 0 := by
        rw [← Int.natAbs_ne_zero, habs]
        apply (ofBE_pos_of_head _).ne'
        exact Nat.pos_of_ne_zero (fun hb => hmagnitude (UInt8.toNat_inj.mp hb))
      have hsign := mpi2bn_neg_iff hne
      rw [bn2mpi, habs, bnBytes_ofBE_cons hmagnitude]
      simp only [and_magnitude_and_sign, hsign, bne_self_eq_false, Bool.false_eq_true, if_false]
      split_ifs with hset
      · rw [or_sign_of_sign hset]
      · rw [and_magnitude_of_sign_clear (not_not.mp hset)]

theorem length_bn2mpi_natAbs (n : ℤ) : (bn2mpi n).length = (bn2mpi n.natAbs).length
  := by
  rw [bn2mpi, bn2mpi, Int.natAbs_natCast]
  split
  · rfl
  · split_ifs <;> rfl

/-- A string that can be shortened is written with fewer bytes. -/
theorem length_bn2mpi_lt (h : ¬MinimalMpi bs) :
  (bn2mpi (mpi2bn bs)).length < bs.length
  := by
  match bs with
  | [] => exact absurd trivial h
  | [b] =>
    have hzero : b &&& 0x7f = 0 := not_not.mp h
    have habs := natAbs_mpi2bn b []
    rw [length_bn2mpi_natAbs, habs, hzero]
    exact Nat.zero_lt_one
  | b :: b' :: bs =>
    obtain ⟨hzero, hclear⟩ := not_or.mp h
    rw [length_bn2mpi_natAbs, natAbs_mpi2bn, not_not.mp hzero, ofBE_zero_cons]
    have hlt : ofBE (b' :: bs) < 128 * 256 ^ bs.length := by
      have hb' := toNat_and_magnitude_lt b'
      rw [and_magnitude_of_sign_clear (not_not.mp hclear)] at hb'
      have hbs := ofBE_lt bs
      have hmul : b'.toNat * 256 ^ bs.length ≤ 127 * 256 ^ bs.length :=
        Nat.mul_le_mul_right _ (by omega)
      rw [ofBE_cons]
      omega
    have hle := length_bn2mpi_le hlt
    rw [List.length_cons, List.length_cons]
    omega

end CorgiCoin
