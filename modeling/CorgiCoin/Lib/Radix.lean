import CorgiCoin.Lib.Digits

/-!
# Texts of bytes

A `Radix` is an alphabet for digits of `w` bits, with the padding that stands behind the digits of so
many bytes.  A text `IsText` of bytes when it is their digits, the last one filled with zeros, and the
padding.  Bytes have one text; and a string starts with the text of the bytes read from its digits
exactly if no whole digit and no bit that is set is left, and the padding follows.  So a reader that
asks for this finds fault with every other string.
-/

open Digits

/-- An alphabet for digits of `w` bits; characters that are the same `fold`ed stand for one digit. -/
structure Radix (w : ℕ) where
  char : ℕ → Char
  digit : Char → Option ℕ
  fold : Char → Char
  padding : ℕ → ℕ
  digit_char : ∀ d < 2 ^ w, digit (char d) = some d
  digit_fold : ∀ c, digit (fold c) = digit c
  digit_lt : ∀ c d, digit c = some d → d < 2 ^ w
  fold_eq : ∀ c d, digit c = some d → fold c = char d
  fold_pad : ∀ c, fold c = '=' ↔ c = '='
  digit_pad : digit '=' = none

namespace Radix

variable {w : ℕ} (R : Radix w)

/-! ## The digits in front of a string -/

/-- The digits a string starts with, and what follows them. -/
def digits : List Char → List ℕ × List Char
  | [] => ([], [])
  | c :: p =>
    match R.digit c with
    | none => ([], c :: p)
    | some d => (d :: (digits p).1, (digits p).2)

/-- No digit comes first. -/
def Ends (p : List Char) : Prop := ∀ c ∈ p.head?, R.digit c = none

theorem ends_digits (p : List Char) : R.Ends (R.digits p).2
  := by
  induction p with
  | nil => rintro c ⟨⟩
  | cons c p ih =>
    rw [digits]
    cases hd : R.digit c with
    | none =>
      rintro _ ⟨⟩
      apply hd
    | some d => apply ih

theorem digits_lt {p : List Char} {d : ℕ} (h : d ∈ (R.digits p).1) : d < 2 ^ w
  := by
  induction p with
  | nil => cases h
  | cons c p ih =>
    rw [digits] at h
    cases hd : R.digit c with
    | none =>
      rw [hd] at h
      cases h
    | some d' =>
      rw [hd] at h
      rcases List.mem_cons.mp h with rfl | h
      · apply R.digit_lt c _ hd
      · apply ih h

/-- A string is its first digits, up to folding, and what follows them. -/
theorem exists_eq_append_digits (p : List Char) :
  ∃ cs, p = cs ++ (R.digits p).2 ∧ cs.map R.fold = (R.digits p).1.map R.char
  := by
  induction p with
  | nil => exact ⟨[], rfl, rfl⟩
  | cons c p ih =>
    rw [digits]
    cases hd : R.digit c with
    | none => exact ⟨[], rfl, rfl⟩
    | some d =>
      obtain ⟨cs, hp, hcs⟩ := ih
      refine ⟨c :: cs, congrArg (c :: ·) hp, ?_⟩
      rw [List.map_cons, List.map_cons, hcs, R.fold_eq c d hd]

/-- The digits that are written are read. -/
theorem digits_append {cs rest : List Char} {ds : List ℕ} (hds : ∀ d ∈ ds, d < 2 ^ w)
    (hcs : cs.map R.fold = ds.map R.char) (hrest : R.Ends rest) :
  R.digits (cs ++ rest) = (ds, rest)
  := by
  induction cs generalizing ds with
  | nil =>
    obtain rfl := List.map_eq_nil_iff.mp hcs.symm
    cases rest with
    | nil => rfl
    | cons c rest => rw [List.nil_append, digits, hrest c rfl]
  | cons c cs ih =>
    cases ds with
    | nil => cases hcs
    | cons d ds =>
      obtain ⟨hd, hds⟩ := List.forall_mem_cons.mp hds
      obtain ⟨hc, hcs⟩ := List.cons.inj hcs
      have hdigit : R.digit c = some d := by
        rw [← R.digit_fold, hc, R.digit_char d hd]
      rw [List.cons_append, digits, hdigit]
      dsimp only
      rw [ih hds hcs]

/-! ## Texts -/

/-- The text of bytes. -/
def IsText (v : List UInt8) (str : List Char) : Prop :=
  ∃ es bits, bits < w ∧ Cut w 8 es (v.map UInt8.toNat) bits 0 ∧
    str = es.map R.char ++ List.replicate (R.padding v.length) '='

variable {R} {v : List UInt8} {str : List Char}

theorem IsText.unique (h : R.IsText v str) {str' : List Char} (h' : R.IsText v str') : str = str'
  := by
  obtain ⟨es, bits, hbits, hcut, rfl⟩ := h
  obtain ⟨es', bits', hbits', hcut', rfl⟩ := h'
  rw [hcut.left_unique hcut' hbits hbits']

theorem IsText.iff (h : R.IsText v str) {str' : List Char} : R.IsText v str' ↔ str' = str
  := by
  constructor
  · intro h'
    apply h'.unique h
  · rintro rfl
    apply h

theorem fold_char {d : ℕ} (h : d < 2 ^ w) : R.fold (R.char d) = R.char d
  := by
  apply R.fold_eq
  apply R.digit_char d h

theorem IsText.map_fold (h : R.IsText v str) : str.map R.fold = str
  := by
  obtain ⟨es, bits, _, hcut, rfl⟩ := h
  rw [List.map_append, List.map_map, List.map_replicate, (R.fold_pad _).mpr rfl]
  congr 1
  apply List.map_congr_left
  intro e he
  apply fold_char (hcut.left_lt e he)

theorem ends_padding {n : ℕ} {rest : List Char} (h : R.Ends rest) :
  R.Ends (List.replicate n '=' ++ rest)
  := by
  cases n with
  | zero => apply h
  | succ n =>
    rintro _ ⟨⟩
    apply R.digit_pad

theorem map_fold_eq_padding {cs : List Char} {n : ℕ} (h : cs.map R.fold = List.replicate n '=') :
  cs = List.replicate n '='
  := by
  rw [List.eq_replicate_iff] at h ⊢
  rw [List.length_map] at h
  refine ⟨h.1, ?_⟩
  intro c hc
  apply (R.fold_pad c).mp
  apply h.2
  apply List.mem_map_of_mem hc

/-- The digits of a text are read up to its padding. -/
theorem IsText.digits_eq {pre rest : List Char} (h : R.IsText v (pre.map R.fold)) (hrest : R.Ends rest) :
  ∃ bits < w, Cut w 8 (R.digits (pre ++ rest)).1 (v.map UInt8.toNat) bits 0 ∧
    (R.digits (pre ++ rest)).2 = List.replicate (R.padding v.length) '=' ++ rest
  := by
  obtain ⟨es, bits, hbits, hcut, hstr⟩ := h
  obtain ⟨cs, eqs, rfl, hcs, heqs⟩ := List.map_eq_append_iff.mp hstr
  obtain rfl := map_fold_eq_padding heqs
  rw [List.append_assoc, R.digits_append hcut.left_lt hcs (ends_padding hrest)]
  exact ⟨bits, hbits, hcut, rfl⟩

/-- What is read from the digits of a text are its bytes. -/
theorem IsText.read_eq (hw : w ≤ 8) (h : R.IsText v str) {o : List UInt8} {bits left : ℕ}
    (hcut : Cut w 8 (R.digits str).1 (o.map UInt8.toNat) bits left) (hbits : bits < 8) :
  o = v
  := by
  have hend : R.Ends [] := by rintro c ⟨⟩
  rw [← h.map_fold] at h
  obtain ⟨bits', hbits', hcut', _⟩ := h.digits_eq hend
  rw [List.append_nil] at hcut'
  obtain ⟨hbytes, _, _⟩ := hcut.unique hcut' hbits (by omega)
  apply List.map_injective_iff.mpr _ hbytes
  intro b b' hb
  apply UInt8.toNat_inj.mp hb

/-- A string starts with a text of the bytes that are read from its digits, and no digit follows,
exactly if the bits left are zero and no digit, and the padding follows. -/
theorem exists_isText_iff (hw : w ≤ 8) {p : List Char} {bits left : ℕ}
    (hcut : Cut w 8 (R.digits p).1 (v.map UInt8.toNat) bits left) (hbits : bits < 8) :
  (∃ pre rest, p = pre ++ rest ∧ R.IsText v (pre.map R.fold) ∧ R.Ends rest) ↔
    bits < w ∧ left = 0 ∧
      ∃ rest, (R.digits p).2 = List.replicate (R.padding v.length) '=' ++ rest ∧ R.Ends rest
  := by
  constructor
  · rintro ⟨pre, rest, rfl, htext, hrest⟩
    obtain ⟨bits', hbits', hcut', hpad⟩ := htext.digits_eq hrest
    obtain ⟨_, rfl, rfl⟩ := hcut.unique hcut' hbits (by omega)
    exact ⟨hbits', rfl, rest, hpad, hrest⟩
  · rintro ⟨hlt, rfl, rest, hpad, hrest⟩
    obtain ⟨cs, hp, hcs⟩ := R.exists_eq_append_digits p
    refine ⟨cs ++ List.replicate (R.padding v.length) '=', rest, ?_, ?_, hrest⟩
    · rw [List.append_assoc, ← hpad]
      apply hp
    · refine ⟨(R.digits p).1, bits, hlt, hcut, ?_⟩
      rw [List.map_append, List.map_replicate, hcs, (R.fold_pad _).mpr rfl]

/-! ## Readers -/

/-- A character is no digit exactly if it is none of the alphabet. -/
theorem digit_eq_none_iff {c : Char} : R.digit c = none ↔ ∀ d < 2 ^ w, R.char d ≠ R.fold c
  := by
  constructor
  · rintro hnone d hd heq
    have hdigit := R.digit_char d hd
    rw [heq, R.digit_fold, hnone] at hdigit
    cases hdigit
  · intro h
    apply Option.eq_none_iff_forall_ne_some.mpr
    intro d hd
    apply h d (R.digit_lt c d hd)
    rw [R.fold_eq c d hd]

/-- What a reader gives for a string: the bytes cut from its digits, and whether something is left or
the padding is not there. -/
def Reads (R : Radix w) (p : List Char) (r : List UInt8 × Bool) : Prop :=
  ∃ bits left, bits < 8 ∧ Cut w 8 (R.digits p).1 (r.1.map UInt8.toNat) bits left ∧
    (r.2 = false ↔ bits < w ∧ left = 0 ∧
      ∃ rest, (R.digits p).2 = List.replicate (R.padding r.1.length) '=' ++ rest ∧ R.Ends rest)

variable {p : List Char} {r : List UInt8 × Bool}

/-- A reader finds fault with the strings that do not start with the text of what it read, or go on
with a digit. -/
theorem Reads.valid_iff (hw : w ≤ 8) (h : R.Reads p r) :
  r.2 = false ↔ ∃ pre rest, p = pre ++ rest ∧ R.IsText r.1 (pre.map R.fold) ∧ R.Ends rest
  := by
  obtain ⟨bits, left, hbits, hcut, hvalid⟩ := h
  rw [hvalid, exists_isText_iff hw hcut hbits]

/-- A text is read back, and nothing is found wrong with it. -/
theorem Reads.of_isText (hw : w ≤ 8) (h : R.Reads str r) (htext : R.IsText v str) :
  r = (v, false)
  := by
  have hvalid := h.valid_iff hw
  obtain ⟨bits, left, hbits, hcut, _⟩ := h
  have hbytes : r.1 = v := htext.read_eq hw hcut hbits
  apply Prod.ext hbytes
  apply hvalid.mpr
  refine ⟨str, [], (List.append_nil str).symm, ?_, ?_⟩
  · rw [hbytes, htext.map_fold]
    apply htext
  · rintro c ⟨⟩

end Radix
