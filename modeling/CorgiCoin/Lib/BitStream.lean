import Mathlib.Data.Nat.Bitwise
import Mathlib.Data.List.Basic

/-!
# Streams of bits

A list of digits of `w` bits is a stream of bits, the most significant bit of each digit first.  The
bits determine the digits; and reading a stream in groups of `w` bits gives digits that have the
same bits.
-/

namespace BitStream

variable {w : ℕ}

/-- The bit at a position of a list of digits of `w` bits. -/
def bit (w : ℕ) (ds : List ℕ) (p : ℕ) : Bool := (ds.getD (p / w) 0).testBit (w - 1 - p % w)

/-- The number that `w` bits of a stream denote. -/
def read (f : ℕ → Bool) (i : ℕ) : ℕ → ℕ
  | 0 => 0
  | w + 1 => 2 * read f i w + (f (i + w)).toNat

/-- The digits that the bits of a stream denote in groups of `w`. -/
def digits (f : ℕ → Bool) (w n : ℕ) : List ℕ := (List.range n).map fun k => read f (w * k) w

theorem read_lt (f : ℕ → Bool) (i w : ℕ) : read f i w < 2 ^ w
  := by
  induction w with
  | zero => apply Nat.one_pos
  | succ w ih =>
    have hbit := Bool.toNat_le (f (i + w))
    rw [read, Nat.pow_succ]
    omega

theorem testBit_read (f : ℕ → Bool) (i : ℕ) {w b : ℕ} (h : b < w) :
  (read f i w).testBit (w - 1 - b) = f (i + b)
  := by
  induction w with
  | zero => cases h
  | succ w ih =>
    rw [read, Nat.add_sub_cancel]
    rcases Nat.lt_succ_iff_lt_or_eq.mp h with hlt | rfl
    · obtain ⟨k, hk⟩ : ∃ k, w - b = k + 1 := ⟨w - b - 1, by omega⟩
      rw [hk, ← ih hlt, Nat.testBit_succ]
      have hbit := Bool.toNat_le (f (i + w))
      congr 1
      · omega
      · omega
    · rw [Nat.sub_self, Nat.testBit_zero]
      cases f (i + b) <;> simp

theorem length_digits (f : ℕ → Bool) (w n : ℕ) : (digits f w n).length = n := by
  rw [digits, List.length_map, List.length_range]

theorem digits_lt {f : ℕ → Bool} {w n d : ℕ} (h : d ∈ digits f w n) : d < 2 ^ w
  := by
  obtain ⟨k, _, rfl⟩ := List.mem_map.mp h
  apply read_lt

/-- The digits of a stream have its bits. -/
theorem bit_digits (hw : 0 < w) (f : ℕ → Bool) {n p : ℕ} (hp : p < w * n) :
  bit w (digits f w n) p = f p
  := by
  have hk : p / w < n := Nat.div_lt_of_lt_mul hp
  rw [bit, digits, List.getD_eq_getElem?_getD, List.getElem?_map, List.getElem?_range hk,
    Option.map_some, Option.getD_some, testBit_read f _ (Nat.mod_lt p hw), Nat.div_add_mod]

/-- The bits of the first digit come first. -/
theorem bit_cons (hw : 0 < w) (d : ℕ) (ds : List ℕ) (p : ℕ) :
  bit w (d :: ds) p = if p < w then d.testBit (w - 1 - p) else bit w ds (p - w)
  := by
  rw [bit, bit]
  split_ifs with hp
  · rw [Nat.div_eq_of_lt hp, List.getD_cons_zero, Nat.mod_eq_of_lt hp]
  · obtain ⟨q, rfl⟩ := Nat.exists_eq_add_of_le (Nat.le_of_not_lt hp)
    rw [Nat.add_div_left q hw, List.getD_cons_succ, Nat.add_mod_left, Nat.add_sub_cancel_left]

/-- Lists of digits of the same length with the same bits are the same. -/
theorem eq_of_bit
    (hw : 0 < w) {ds es : List ℕ} (hlength : ds.length = es.length) (hds : ∀ d ∈ ds, d < 2 ^ w)
    (hes : ∀ e ∈ es, e < 2 ^ w) (h : ∀ p < w * ds.length, bit w ds p = bit w es p) :
  ds = es
  := by
  apply List.ext_getElem hlength
  intro k hk hk'
  apply Nat.eq_of_testBit_eq
  intro i
  by_cases hi : i < w
  · have hpos : w * k + (w - 1 - i) < w * ds.length := by
      calc w * k + (w - 1 - i) < w * k + w := by omega
        _ = w * (k + 1) := (Nat.mul_succ w k).symm
        _ ≤ w * ds.length := Nat.mul_le_mul_left w hk
    have hbit := h _ hpos
    have hdiv : (w * k + (w - 1 - i)) / w = k := by
      rw [Nat.mul_add_div hw, Nat.div_eq_of_lt (by omega), Nat.add_zero]
    have hmod : (w * k + (w - 1 - i)) % w = w - 1 - i := by
      rw [Nat.mul_add_mod, Nat.mod_eq_of_lt (by omega)]
    rw [bit, bit, hdiv, hmod, List.getD_eq_getElem _ _ hk, List.getD_eq_getElem _ _ hk',
      show w - 1 - (w - 1 - i) = i by omega] at hbit
    apply hbit
  · have hle : 2 ^ w ≤ 2 ^ i := Nat.pow_le_pow_right Nat.two_pos (by omega)
    rw [Nat.testBit_lt_two_pow ((hds _ (List.getElem_mem hk)).trans_le hle),
      Nat.testBit_lt_two_pow ((hes _ (List.getElem_mem hk')).trans_le hle)]

end BitStream
