import Mathlib.Algebra.Group.Subgroup.Defs
import Mathlib.Data.BitVec
import Mathlib.Tactic.Abel
import Mathlib.Data.List.Basic

/-!
# Checksums of a linear shift register

A register is shifted by an additive map and takes in a symbol at each turn.  If no shift of a symbol
is a symbol again, for as many turns as there are in a word, then words that differ in one or two
places leave the register in different states.
-/

namespace LinearCode

/-! ## Places where words differ -/

/-- The number of places where two words of the same length differ. -/
def distance {D : Type*} [DecidableEq D] (vs ws : List D) : ℕ :=
  (vs.zip ws).countP (fun p => p.1 ≠ p.2)

section Distance

variable {D : Type*} [DecidableEq D]

theorem distance_cons_of_eq {v w : D} (h : v = w) (vs ws : List D) :
  distance (v :: vs) (w :: ws) = distance vs ws
  := by
  rw [distance, List.zip_cons_cons, List.countP_cons_of_neg (by simpa using h), distance]

theorem distance_cons_of_ne {v w : D} (h : v ≠ w) (vs ws : List D) :
  distance (v :: vs) (w :: ws) = distance vs ws + 1
  := by
  rw [distance, List.zip_cons_cons, List.countP_cons_of_pos (by simpa using h), distance]

theorem eq_of_distance_eq_zero {vs ws : List D} (hlength : vs.length = ws.length)
    (h : distance vs ws = 0) :
  vs = ws
  := by
  induction vs generalizing ws with
  | nil => rw [List.length_eq_zero_iff.mp hlength.symm]
  | cons v vs ih =>
    cases ws with
    | nil => cases hlength
    | cons w ws =>
      by_cases hv : v = w
      · rw [distance_cons_of_eq hv] at h
        rw [hv, ih (Nat.succ.inj hlength) h]
      · rw [distance_cons_of_ne hv] at h
        cases h

/-- A map that tells the symbols of two words apart keeps the distance. -/
theorem distance_map {E : Type*} [DecidableEq E] {f : D → E} {vs ws : List D}
    (h : ∀ v ∈ vs, ∀ w ∈ ws, f v = f w → v = w) :
  distance (vs.map f) (ws.map f) = distance vs ws
  := by
  induction vs generalizing ws with
  | nil => rfl
  | cons v vs ih =>
    cases ws with
    | nil => rfl
    | cons w ws =>
      have htail : distance (vs.map f) (ws.map f) = distance vs ws := by
        apply ih
        intro v' hv' w' hw'
        apply h v' (List.mem_cons_of_mem _ hv') w' (List.mem_cons_of_mem _ hw')
      rw [List.map_cons, List.map_cons]
      by_cases hv : v = w
      · rw [distance_cons_of_eq (congrArg f hv), distance_cons_of_eq hv, htail]
      · have hne : f v ≠ f w := fun heq => hv (h v List.mem_cons_self w List.mem_cons_self heq)
        rw [distance_cons_of_ne hne, distance_cons_of_ne hv, htail]

end Distance

/-! ## The register -/

section Register

variable {S : Type*} [AddCommGroup S] (T : S →+ S)

/-- The state of the register after a word. -/
def remainder (c : S) (vs : List S) : S := vs.foldl (fun c v => T c + v) c

/-- The states `P` are kept apart by shifts, and a shift of a symbol of `Q` is no symbol, for as many
as `n` turns. -/
structure Separates (P Q : AddSubgroup S) (n : ℕ) : Prop where
  symbols : Q ≤ P
  shift_mem : ∀ c ∈ P, T c ∈ P
  shift_ne_zero : ∀ c ∈ P, c ≠ 0 → T c ≠ 0
  separate : ∀ v ∈ Q, v ≠ 0 → ∀ i < n, T^[i + 1] v ∉ Q

variable {T} {P Q : AddSubgroup S} {n : ℕ}

theorem remainder_cons (c v : S) (vs : List S) :
  remainder T c (v :: vs) = remainder T (T c + v) vs
  := rfl

theorem shift_sub (c d v w : S) : T c + v - (T d + w) = T (c - d) + (v - w) := by
  rw [map_sub]
  abel

/-- Different states stay different over the same symbols. -/
theorem remainder_ne_remainder_of_ne
    (h : Separates T P Q n) {c d : S} (hmem : c - d ∈ P) (hne : c ≠ d) (vs : List S) :
  remainder T c vs ≠ remainder T d vs
  := by
  induction vs generalizing c d with
  | nil => apply hne
  | cons v vs ih =>
    have hshift := shift_sub (T := T) c d v v
    rw [sub_self, add_zero] at hshift
    rw [remainder_cons, remainder_cons]
    apply ih
    · rw [hshift]
      apply h.shift_mem _ hmem
    · rw [ne_eq, ← sub_eq_zero, hshift]
      apply h.shift_ne_zero _ hmem (sub_ne_zero.mpr hne)

theorem iterate_mem (h : Separates T P Q n) {v : S} (hv : v ∈ P) (i : ℕ) : T^[i] v ∈ P
  := by
  induction i with
  | zero => apply hv
  | succ i ih =>
    rw [Function.iterate_succ_apply']
    apply h.shift_mem _ ih

theorem iterate_ne_zero (h : Separates T P Q n) {v : S} (hv : v ∈ P) (hne : v ≠ 0) (i : ℕ) :
  T^[i] v ≠ 0
  := by
  induction i with
  | zero => apply hne
  | succ i ih =>
    rw [Function.iterate_succ_apply']
    apply h.shift_ne_zero _ (iterate_mem h hv i) ih

variable [DecidableEq S]

/-- After a symbol that differs, one more that differs does not make up for it. -/
theorem remainder_ne_remainder_of_shifted
    (h : Separates T P Q n) {δ : S} (hδ : δ ∈ Q) (hδ0 : δ ≠ 0) {i : ℕ} {c d : S}
    (hdiff : c - d = T^[i] δ) {vs ws : List S} (hvs : ∀ v ∈ vs, v ∈ Q) (hws : ∀ w ∈ ws, w ∈ Q)
    (hlength : vs.length = ws.length) (hn : i + vs.length ≤ n) (hone : distance vs ws ≤ 1) :
  remainder T c vs ≠ remainder T d ws
  := by
  have hne : c ≠ d := by
    rw [ne_eq, ← sub_eq_zero, hdiff]
    apply iterate_ne_zero h (h.symbols hδ) hδ0
  induction vs generalizing ws c d i with
  | nil =>
    rw [List.length_eq_zero_iff.mp hlength.symm]
    apply hne
  | cons v vs ih =>
    cases ws with
    | nil => cases hlength
    | cons w ws =>
      obtain ⟨hv, hvs⟩ := List.forall_mem_cons.mp hvs
      obtain ⟨hw, hws⟩ := List.forall_mem_cons.mp hws
      rw [List.length_cons] at hn
      have hlength := Nat.succ.inj hlength
      have hshift := shift_sub (T := T) c d v w
      rw [hdiff, ← Function.iterate_succ_apply' (f := T)] at hshift
      by_cases hvw : v = w
      · rw [distance_cons_of_eq hvw] at hone
        rw [hvw, sub_self, add_zero] at hshift
        rw [remainder_cons, remainder_cons, hvw]
        apply ih hshift hvs hws hlength (by omega) hone
        rw [ne_eq, ← sub_eq_zero, hshift]
        apply iterate_ne_zero h (h.symbols hδ) hδ0
      · rw [distance_cons_of_ne hvw] at hone
        have hrest : vs = ws := eq_of_distance_eq_zero hlength (by omega)
        have hmem : T^[i + 1] δ ∈ P := iterate_mem h (h.symbols hδ) _
        have hsub : v - w ∈ Q := Q.sub_mem hv hw
        rw [remainder_cons, remainder_cons, hrest]
        apply remainder_ne_remainder_of_ne h
        · rw [hshift]
          apply P.add_mem hmem (h.symbols hsub)
        · -- the second difference is a symbol, and the first one is none by now
          intro heq
          rw [heq, sub_self] at hshift
          apply h.separate δ hδ hδ0 i (by omega)
          rw [eq_neg_of_add_eq_zero_left hshift.symm]
          apply Q.neg_mem hsub

/-- Words that differ in one or two places are told apart by the register. -/
theorem remainder_ne_remainder
    (h : Separates T P Q n) {vs ws : List S} (hvs : ∀ v ∈ vs, v ∈ Q) (hws : ∀ w ∈ ws, w ∈ Q)
    (hlength : vs.length = ws.length) (hn : vs.length ≤ n + 1) (hpos : distance vs ws ≠ 0)
    (htwo : distance vs ws ≤ 2) (c : S) :
  remainder T c vs ≠ remainder T c ws
  := by
  induction vs generalizing ws c with
  | nil => apply absurd rfl hpos
  | cons v vs ih =>
    cases ws with
    | nil => cases hlength
    | cons w ws =>
      obtain ⟨hv, hvs⟩ := List.forall_mem_cons.mp hvs
      obtain ⟨hw, hws⟩ := List.forall_mem_cons.mp hws
      rw [List.length_cons] at hn
      have hlength := Nat.succ.inj hlength
      by_cases hvw : v = w
      · rw [distance_cons_of_eq hvw] at hpos htwo
        have hrest := ih hvs hws hlength (by omega) hpos htwo (T c + v)
        rwa [remainder_cons, remainder_cons, ← hvw]
      · rw [distance_cons_of_ne hvw] at htwo
        have hshift := shift_sub (T := T) c c v w
        rw [sub_self, map_zero, zero_add] at hshift
        rw [remainder_cons, remainder_cons]
        apply remainder_ne_remainder_of_shifted h (Q.sub_mem hv hw) (sub_ne_zero.mpr hvw) (i := 0)
          hshift hvs hws hlength (by omega) (by omega)

end Register

/-! ## Words under exclusive or -/

/-- Words of `w` bits, added by exclusive or. -/
def XorWord (w : ℕ) : Type := BitVec w

namespace XorWord

variable {w : ℕ}

instance : DecidableEq (XorWord w) := inferInstanceAs (DecidableEq (BitVec w))

instance : Zero (XorWord w) := ⟨BitVec.zero w⟩

instance : Add (XorWord w) := ⟨fun a b => BitVec.xor a b⟩

instance : Neg (XorWord w) := ⟨fun a => a⟩

instance : AddCommGroup (XorWord w) where
  add_assoc := BitVec.xor_assoc
  zero_add _ := BitVec.zero_xor
  add_zero _ := BitVec.xor_zero
  neg_add_cancel _ := BitVec.xor_self
  add_comm := BitVec.xor_comm
  nsmul := nsmulRec
  zsmul := zsmulRec

/-- Words whose bits from the `k`-th on are zero. -/
def below (w k : ℕ) : AddSubgroup (XorWord w) where
  carrier := {a | BitVec.toNat a < 2 ^ k}
  add_mem' {a b} ha hb := by
    have hxor : BitVec.toNat (a + b) = BitVec.toNat a ^^^ BitVec.toNat b := BitVec.toNat_xor _ _
    change BitVec.toNat (a + b) < 2 ^ k
    rw [hxor]
    apply Nat.xor_lt_two_pow ha hb
  zero_mem' := by
    have hzero : BitVec.toNat (0 : XorWord w) = 0 := BitVec.toNat_zero
    change BitVec.toNat (0 : XorWord w) < 2 ^ k
    rw [hzero]
    apply Nat.two_pow_pos
  neg_mem' ha := ha

theorem mem_below {k : ℕ} {a : XorWord w} : a ∈ below w k ↔ BitVec.toNat a < 2 ^ k := Iff.rfl

end XorWord

end LinearCode
