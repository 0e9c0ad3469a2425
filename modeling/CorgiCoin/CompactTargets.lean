import CorgiCoin.Mpi
import Mathlib.Data.Rat.Cast.Order
import Mathlib.Tactic.Linarith

/-!
# Compact targets

What the compact form of a target keeps of it: its sign, its order among the other targets and its
first fifteen bits.  A target that was put through the compact form once is not changed by it again.
-/

namespace CorgiCoin

open Codec

/-! ## What is cut off -/

/-- What the compact form cuts off is less than one part in `2 ^ 15`. -/
theorem lt_setCompact_getCompact {n : ℕ} (hpos : 0 < n) (hlt : n < 2 ^ 256) :
  (n : ℤ) * 2 ^ 15 - n < setCompact (getCompact n) * 2 ^ 15
  := by
  obtain ⟨q, e, r, he, hr, hsplit, -, -, hcut⟩ := setCompact_getCompact_split hpos hlt
  rw [hcut]
  have hrest : r * 2 ^ 15 < n := by
    rcases Nat.eq_zero_or_pos e with rfl | hpositive
    · rw [pow_zero] at hr
      omega
    · -- more than three bytes are written for a number only if it has a bit above the first two
      have hlow : 128 * 256 ^ (e + 1) ≤ n := by
        by_contra hsmall
        have hlength := length_bn2mpi_le (Nat.not_le.mp hsmall)
        omega
      calc r * 2 ^ 15 < 256 ^ e * 2 ^ 15 := Nat.mul_lt_mul_of_pos_right hr (by decide)
        _ = 128 * 256 ^ (e + 1) := by rw [pow_succ]; ring
        _ ≤ n := hlow
  have hsum : (n : ℤ) = (q * 256 ^ e : ℕ) + r := by
    rw [hsplit]
    push_cast
    ring
  have hrest' : (r : ℤ) * 2 ^ 15 < n := by exact_mod_cast hrest
  linarith

/-! ## Writing a compact form again -/

/-- The first three bytes, with zeros in place of the others. -/
def cutMpi (bs : Bytes) : Bytes := bs.take 3 ++ List.replicate (bs.length - 3) 0

theorem length_cutMpi (bs : Bytes) : (cutMpi bs).length = bs.length
  := by
  rw [cutMpi, List.length_append, List.length_take, List.length_replicate]
  omega

theorem getElem?_cutMpi (bs : Bytes) {i : ℕ} (h : i < 3) : (cutMpi bs)[i]? = bs[i]?
  := by
  rcases Nat.lt_or_ge i bs.length with hlt | hge
  · have hlength : i < (bs.take 3).length := by
      rw [List.length_take]
      omega
    rw [cutMpi, List.getElem?_append_left hlength, List.getElem?_take_of_lt h]
  · rw [List.getElem?_eq_none hge, List.getElem?_eq_none]
    rw [length_cutMpi]
    apply hge

theorem MinimalMpi.cutMpi {bs : Bytes} (h : MinimalMpi bs) : MinimalMpi (cutMpi bs)
  := by
  match bs with
  | [] => exact h
  | [_] => exact h
  | [_, _] => exact h
  | _ :: _ :: _ :: _ => exact h

/-- The compact form of a number that is written on less than 256 bytes is one of itself. -/
theorem getCompact_setCompact {bn : ℤ} (hlength : (bn2mpi bn).length < 256) :
  getCompact (setCompact (getCompact bn)) = getCompact bn
  := by
  cases hbytes : bn2mpi bn with
  | nil =>
    have hzero := mpi2bn_bn2mpi bn
    rw [hbytes] at hzero
    subst hzero
    decide
  | cons b bs =>
    have hminimal := minimalMpi_bn2mpi bn
    rw [hbytes] at hlength hminimal
    have hcut : bn2mpi (setCompact (getCompact bn)) = cutMpi (b :: bs) := by
      rw [setCompact_getCompact_eq hbytes hlength]
      exact bn2mpi_mpi2bn hminimal.cutMpi
    have hall : ∀ bn bn' : ℤ, (bn2mpi bn).length = (bn2mpi bn').length →
        (∀ i < 3, (bn2mpi bn)[i]? = (bn2mpi bn')[i]?) → getCompact bn = getCompact bn' := by
      intro bn bn' hlength hget
      simp only [getCompact, hlength, hget 0 (by decide), hget 1 (by decide), hget 2 (by decide)]
    apply hall
    · rw [hcut, hbytes, length_cutMpi]
    · intro i hi
      rw [hcut, hbytes, getElem?_cutMpi _ hi]

/-- The compact form of a target is positive, loses less than one part in `2 ^ 15` and keeps the order,
and what it decodes to has the same compact form. -/
theorem compactTargets :
  (∀ x : ℤ, 0 < x → x < 2 ^ 256 →
      0 < setCompact (getCompact x) ∧ setCompact (getCompact x) ≤ x
        ∧ (x : ℚ) - x / 2 ^ 15 < setCompact (getCompact x))
    ∧ (∀ x y : ℤ, 0 < x → x ≤ y → y < 2 ^ 256 →
        setCompact (getCompact x) ≤ setCompact (getCompact y))
    ∧ ∀ c : UInt32, (∃ x : ℤ, x.natAbs < 2 ^ 2039 ∧ c = getCompact x) → getCompact (setCompact c) = c
  := by
  refine ⟨?_, ?_, ?_⟩
  · intro x hpos hlt
    obtain ⟨hpositive, hle⟩ := setCompact_getCompact hpos hlt
    refine ⟨hpositive, hle, ?_⟩
    obtain ⟨n, rfl⟩ := Int.eq_ofNat_of_zero_le hpos.le
    have hcut := lt_setCompact_getCompact (n := n) (by omega) (by omega)
    have hcast := (Int.cast_lt (R := ℚ)).mpr hcut
    push_cast at hcast ⊢
    linarith
  · intro x y hpos hle hlt
    obtain ⟨m, rfl⟩ := Int.eq_ofNat_of_zero_le hpos.le
    obtain ⟨n, rfl⟩ := Int.eq_ofNat_of_zero_le (hpos.le.trans hle)
    apply setCompact_getCompact_mono (by omega) (by omega)
  · rintro c ⟨x, hx, rfl⟩
    apply getCompact_setCompact
    rw [length_bn2mpi_natAbs]
    have hlength := @length_bn2mpi_le x.natAbs 254 (by omega)
    omega

/-- The limit of a network without difficulty loses bits of its own once only. -/
theorem compactTargets_limit :
  setCompact (getCompact (2 ^ 255 - 1)) ≤ 2 ^ 255 - 1
    ∧ getCompact (setCompact 0x207fffff) = 0x207fffff
  := ⟨(compactTargets.1 (2 ^ 255 - 1) (by norm_num) (by norm_num)).2.1,
    compactTargets.2.2 0x207fffff ⟨2 ^ 255 - 1, by decide +kernel, by decide +kernel⟩⟩

end CorgiCoin
