import Mathlib.Data.Nat.Digits.Lemmas
import Mathlib.Tactic.Ring

/-!
# Digits, most significant first

A list of digits denotes a number in a base.  Cutting digits of `v` bits into digits of `w` bits
keeps the number, but for the bits at the end that fill no digit: `Cut v w ds es bits rest` says that
`es` are the digits cut so far and that `bits` bits, of value `rest`, are left.  When no bit is left,
each of the two lists determines the other.
-/

namespace Digits

/-- The number that a list of digits denotes. -/
def value (b : ℕ) (ds : List ℕ) : ℕ := Nat.ofDigits b ds.reverse

variable {b : ℕ}

@[simp]
theorem value_nil : value b [] = 0 := rfl

theorem value_append (ds es : List ℕ) :
  value b (ds ++ es) = value b ds * b ^ es.length + value b es
  := by
  rw [value, List.reverse_append, Nat.ofDigits_append, List.length_reverse, value, value]
  ring

@[simp]
theorem value_singleton (d : ℕ) : value b [d] = d := by
  simp [value]

theorem value_concat (ds : List ℕ) (d : ℕ) :
  value b (ds ++ [d]) = value b ds * b + d
  := by
  rw [value_append, value_singleton, List.length_singleton, pow_one]

theorem value_cons (d : ℕ) (ds : List ℕ) :
  value b (d :: ds) = d * b ^ ds.length + value b ds
  := by
  rw [← List.singleton_append, value_append, value_singleton]

@[simp]
theorem value_replicate_zero (n : ℕ) : value b (List.replicate n 0) = 0 := by
  induction n with
  | zero => rfl
  | succ n ih => rw [List.replicate_succ, value_cons, ih, zero_mul]

theorem value_lt (hb : 1 < b) {ds : List ℕ} (h : ∀ d ∈ ds, d < b) :
  value b ds < b ^ ds.length
  := by
  rw [value, ← List.length_reverse]
  exact Nat.ofDigits_lt_base_pow_length hb (fun d hd => h d (List.mem_reverse.mp hd))

/-- Digits of the same number in lists of the same length are the same. -/
theorem eq_of_value_eq (hb : 1 < b) {ds es : List ℕ} (hlen : ds.length = es.length)
    (hds : ∀ d ∈ ds, d < b) (hes : ∀ d ∈ es, d < b) (h : value b ds = value b es) :
  ds = es
  := by
  apply List.reverse_injective
  exact Nat.ofDigits_inj_of_len_eq hb (by simp [hlen]) (by simpa using hds) (by simpa using hes) h

/-- The digits of a number are those that denote it, without the zeros in front. -/
theorem digits_value (hb : 1 < b) {ds : List ℕ} (h : ∀ d ∈ ds, d < b) :
  (Nat.digits b (value b ds)).reverse = ds.dropWhile (fun d => d == 0)
  := by
  induction ds with
  | nil => rw [value_nil, Nat.digits_zero, List.reverse_nil, List.dropWhile_nil]
  | cons d ds ih =>
    obtain ⟨_, hds⟩ := List.forall_mem_cons.mp h
    by_cases hzero : d = 0
    · rw [value_cons, hzero, zero_mul, zero_add, ih hds, List.dropWhile_cons_of_pos (by rfl)]
    · rw [List.dropWhile_cons_of_neg (by simpa using hzero), value, Nat.digits_ofDigits b hb,
        List.reverse_reverse]
      · intro d' hd'
        apply h d' (List.mem_reverse.mp hd')
      · intro hne
        rw [List.getLast_reverse]
        apply hzero

/-! ## Cutting into digits of another size -/

theorem le_of_mul_lt_add {v a b : ℕ} (h : v * a < v * b + v) : a ≤ b := by
  rw [← Nat.mul_succ] at h
  apply Nat.le_of_lt_succ
  apply Nat.lt_of_mul_lt_mul_left h

/-- Digits of `v` bits, cut into digits of `w` bits and a rest of `bits` bits. -/
structure Cut (v w : ℕ) (ds es : List ℕ) (bits rest : ℕ) : Prop where
  left_lt : ∀ d ∈ ds, d < 2 ^ v
  right_lt : ∀ e ∈ es, e < 2 ^ w
  rest_lt : rest < 2 ^ bits
  length : v * ds.length = w * es.length + bits
  value : value (2 ^ v) ds = value (2 ^ w) es * 2 ^ bits + rest

namespace Cut

variable {v w bits rest : ℕ} {ds es : List ℕ}

protected theorem nil (v w : ℕ) : Cut v w [] [] 0 0 where
  left_lt := by simp
  right_lt := by simp
  rest_lt := by simp
  length := by simp
  value := by simp

/-- Another digit is taken in. -/
protected theorem concat (h : Cut v w ds es bits rest) {d : ℕ} (hd : d < 2 ^ v) :
  Cut v w (ds ++ [d]) es (bits + v) (rest * 2 ^ v + d)
  where
  left_lt d' hd' := by
    rcases List.mem_append.mp hd' with hd' | hd'
    · exact h.left_lt d' hd'
    · rw [List.mem_singleton.mp hd']
      exact hd
  right_lt := h.right_lt
  rest_lt := by
    have hrest := h.rest_lt
    calc rest * 2 ^ v + d < rest * 2 ^ v + 2 ^ v := by omega
      _ = (rest + 1) * 2 ^ v := by ring
      _ ≤ 2 ^ bits * 2 ^ v := Nat.mul_le_mul_right _ hrest
      _ = 2 ^ (bits + v) := (pow_add ..).symm
  length := by
    have hlength := h.length
    rw [List.length_append, List.length_singleton, Nat.mul_add, hlength]
    ring
  value := by
    rw [value_concat, h.value, pow_add]
    ring

/-- The top bits of the rest are cut off as a digit. -/
protected theorem drain (h : Cut v w ds es (bits + w) rest) :
  Cut v w ds (es ++ [rest / 2 ^ bits]) bits (rest % 2 ^ bits)
  where
  left_lt := h.left_lt
  right_lt e he := by
    rcases List.mem_append.mp he with he | he
    · exact h.right_lt e he
    · rw [List.mem_singleton.mp he, Nat.div_lt_iff_lt_mul (by positivity), ← pow_add, Nat.add_comm]
      exact h.rest_lt
  rest_lt := Nat.mod_lt _ (by positivity)
  length := by
    have hlength := h.length
    rw [List.length_append, List.length_singleton, hlength]
    ring
  value := by
    have hdiv := Nat.div_add_mod rest (2 ^ bits)
    rw [value_concat, h.value, pow_add]
    conv_lhs => rw [← hdiv]
    ring

/-- The other way round, where no bit is left. -/
protected theorem symm (h : Cut v w ds es 0 0) : Cut w v es ds 0 0 where
  left_lt := h.right_lt
  right_lt := h.left_lt
  rest_lt := by simp
  length := by
    have hlength := h.length
    omega
  value := by
    have hvalue := h.value
    simpa using hvalue.symm

/-- The bits left over fill a last digit, with zeros behind them. -/
protected theorem fill (h : Cut v w ds es bits rest) (hbits : bits ≤ w) :
  Cut w v (es ++ [rest * 2 ^ (w - bits)]) ds (w - bits) 0
  where
  left_lt e he := by
    rcases List.mem_append.mp he with he | he
    · exact h.right_lt e he
    · have hrest : rest * 2 ^ (w - bits) < 2 ^ bits * 2 ^ (w - bits) :=
        Nat.mul_lt_mul_of_pos_right h.rest_lt (by positivity)
      rw [← pow_add, Nat.add_sub_of_le hbits] at hrest
      rw [List.mem_singleton.mp he]
      exact hrest
  right_lt := h.left_lt
  rest_lt := by positivity
  length := by
    have hlength := h.length
    rw [List.length_append, List.length_singleton, Nat.mul_add, hlength]
    omega
  value := by
    have hpow : 2 ^ w = 2 ^ bits * 2 ^ (w - bits) := by
      rw [← pow_add, Nat.add_sub_of_le hbits]
    rw [value_concat, h.value, hpow]
    ring

/-- Cuts of the same digits that leave less than a digit are the same. -/
theorem unique {es' : List ℕ} {bits' rest' : ℕ} (h : Cut v w ds es bits rest)
    (h' : Cut v w ds es' bits' rest') (hbits : bits < w) (hbits' : bits' < w) :
  es = es' ∧ bits = bits' ∧ rest = rest'
  := by
  have hlength := h.length
  rw [h'.length] at hlength
  have hes : es.length = es'.length := by
    have hdiv := congrArg (· / w) hlength
    simp only [Nat.mul_add_div (by omega : w > 0), Nat.div_eq_of_lt hbits,
      Nat.div_eq_of_lt hbits'] at hdiv
    omega
  obtain rfl : bits = bits' := by
    rw [hes] at hlength
    omega
  have hvalue := h.value
  rw [h'.value] at hvalue
  have hrest := congrArg (· % 2 ^ bits) hvalue
  simp only [Nat.mul_add_mod_self_right, Nat.mod_eq_of_lt h.rest_lt,
    Nat.mod_eq_of_lt h'.rest_lt] at hrest
  subst hrest
  have hquot : Digits.value (2 ^ w) es' = Digits.value (2 ^ w) es := by
    apply Nat.eq_of_mul_eq_mul_right (by positivity : 0 < 2 ^ bits)
    omega
  refine ⟨?_, rfl, rfl⟩
  apply eq_of_value_eq (Nat.one_lt_two_pow (by omega)) hes h.right_lt h'.right_lt hquot.symm

/-- Digits that were cut into the same ones, and left less than one of them that is zero, are the
same. -/
theorem left_unique {ds' : List ℕ} {bits' : ℕ} (h : Cut v w ds es bits 0)
    (h' : Cut v w ds' es bits' 0) (hbits : bits < v) (hbits' : bits' < v) :
  ds = ds'
  := by
  have hlength := h.length
  have hlength' := h'.length
  have hds : ds.length = ds'.length := by
    apply Nat.le_antisymm
    · apply le_of_mul_lt_add (v := v)
      omega
    · apply le_of_mul_lt_add (v := v)
      omega
  obtain rfl : bits = bits' := by
    rw [hds] at hlength
    omega
  apply eq_of_value_eq (Nat.one_lt_two_pow (by omega)) hds h.left_lt h'.left_lt
  rw [h.value, h'.value]

/-- Where no bit is left the digits cut are determined by those they were cut from. -/
theorem right_unique (hw : 0 < w) {es' : List ℕ} (h : Cut v w ds es 0 0)
    (h' : Cut v w ds es' 0 0) :
  es = es'
  := by
  have hlength := h.length
  have hlength' := h'.length
  have hvalue := h.value
  rw [h'.value, pow_zero, mul_one, mul_one, add_zero, add_zero] at hvalue
  refine eq_of_value_eq (Nat.one_lt_two_pow hw.ne') ?_ h.right_lt h'.right_lt hvalue.symm
  apply Nat.eq_of_mul_eq_mul_left hw
  omega

/-- The rest and the top bits of a digit fill a digit of the other size, and the lower bits of the digit
are left. -/
theorem emit (h : Cut v w ds es bits rest) {d i j : ℕ} (hd : d < 2 ^ v) (hw : bits + i = w)
    (hv : i + j = v) :
  Cut v w (ds ++ [d]) (es ++ [rest <<< i ||| d >>> j]) j (d &&& 2 ^ j - 1)
  := by
  subst hw hv
  have hcut := h.concat hd
  rw [← Nat.add_assoc, Nat.add_comm (bits + i) j] at hcut
  have hlow : d &&& 2 ^ j - 1 = (rest * 2 ^ (i + j) + d) % 2 ^ j := by
    rw [Nat.and_two_pow_sub_one_eq_mod, pow_add, ← Nat.mul_assoc, Nat.mul_add_mod_self_right]
  have hhigh : rest <<< i ||| d >>> j = (rest * 2 ^ (i + j) + d) / 2 ^ j := by
    have htop : d >>> j < 2 ^ i := by
      rw [Nat.shiftRight_eq_div_pow]
      apply Nat.div_lt_of_lt_mul
      rwa [← pow_add, Nat.add_comm]
    rw [← Nat.shiftLeft_add_eq_or_of_lt htop, Nat.shiftLeft_eq, Nat.shiftRight_eq_div_pow, pow_add,
      ← Nat.mul_assoc, Nat.add_comm, Nat.add_comm (_ * _), Nat.add_mul_div_right _ _ (by positivity)]
  rw [hlow, hhigh]
  apply hcut.drain

/-- The same where the lower bits of the digit fill another digit. -/
theorem emit_two (h : Cut v w ds es bits rest) {d i j : ℕ} (hd : d < 2 ^ v) (hw : bits + i = w)
    (hv : i + (j + w) = v) :
  Cut v w (ds ++ [d]) (es ++ [rest <<< i ||| d >>> (j + w), d >>> j &&& 2 ^ w - 1]) j (d &&& 2 ^ j - 1)
  := by
  have hcut := (h.emit hd hw hv).drain
  rw [Nat.and_two_pow_sub_one_eq_mod, pow_add, Nat.mod_mul_right_mod, Nat.mod_mul_right_div_self,
    List.append_assoc, List.singleton_append] at hcut
  rw [Nat.and_two_pow_sub_one_eq_mod, Nat.and_two_pow_sub_one_eq_mod, Nat.shiftRight_eq_div_pow d j]
  apply hcut

/-- A digit is kept with the rest. -/
theorem keep (h : Cut v w ds es bits rest) {d : ℕ} (hd : d < 2 ^ v) :
  Cut v w (ds ++ [d]) es (bits + v) (rest <<< v ||| d)
  := by
  rw [← Nat.shiftLeft_add_eq_or_of_lt hd, Nat.shiftLeft_eq]
  apply h.concat hd

end Cut

end Digits
