import CorgiCoin.Base58
import Mathlib.Data.List.DropRight

/-!
# The strings that base58 reads

`DecodeBase58` accepts a string exactly when it is, without the whitespace around it, what
`EncodeBase58` writes for the bytes that are read.  So both are inverse to each other.
-/

namespace CorgiCoin

open Codec Digits

/-- A string that a pointer to its first character shows, with no zero character in it. -/
def CString : Type := {psz : List Char // '\x00' ∉ psz}

/-- A string without its surrounding whitespace. -/
def trimSpaces (str : List Char) : List Char := (str.dropWhile isspace).rdropWhile isspace

/-! ## Digits and spaces -/

theorem base58Index_eq_some_iff {c : Char} {d : ℕ} :
  base58Index c = some d ↔ d < 58 ∧ c = base58Char d
  := by
  constructor
  · intro h
    obtain ⟨hd, hc, _⟩ := List.idxOf?_eq_some_iff.mp h
    refine ⟨hd, ?_⟩
    rw [base58Char, List.getElem?_eq_getElem hd, Option.getD_some, hc]
  · rintro ⟨hd, rfl⟩
    apply (base58Char_spec d hd).1

theorem base58Index_of_isspace {c : Char} (h : isspace c = true) : base58Index c = none
  := by
  cases hindex : base58Index c with
  | none => rfl
  | some d =>
    obtain ⟨hd, rfl⟩ := base58Index_eq_some_iff.mp hindex
    rw [(base58Char_spec d hd).2.1] at h
    cases h

variable {ds : List ℕ}

theorem not_isspace_digits (h : ∀ d ∈ ds, d < 58) :
  ∀ c ∈ ds.map base58Char, isspace c = false
  := by
  intro c hc
  obtain ⟨d, hd, rfl⟩ := List.mem_map.mp hc
  apply (base58Char_spec d (h d hd)).2.1

variable {spaces : List Char}

/-- Spaces are taken from behind digits. -/
theorem rdropWhile_digits_append
    (h : ∀ d ∈ ds, d < 58) (hspaces : ∀ c ∈ spaces, isspace c = true) :
  (ds.map base58Char ++ spaces).rdropWhile isspace = ds.map base58Char
  := by
  have hdigits : (ds.map base58Char).rdropWhile isspace = ds.map base58Char := by
    rw [List.rdropWhile_eq_self_iff]
    intro hne
    rw [not_isspace_digits h _ (List.getLast_mem hne)]
    apply Bool.false_ne_true
  have hreverse : ∀ c ∈ spaces.reverse, isspace c = true := by
    intro c hc
    apply hspaces c (List.mem_reverse.mp hc)
  rw [List.rdropWhile, List.reverse_append, List.dropWhile_append_of_pos hreverse]
  apply hdigits

/-- The zeros in front of digits, whatever spaces stand behind. -/
theorem takeWhile_digits_append
    (h : ∀ d ∈ ds, d < 58) (hspaces : ∀ c ∈ spaces, isspace c = true) :
  ((ds.map base58Char ++ spaces).takeWhile (fun c => c == base58Char 0)).length
    = (ds.takeWhile (fun d => d == 0)).length
  := by
  induction ds with
  | nil =>
    rw [List.map_nil, List.nil_append, List.takeWhile_nil, List.length_nil,
      List.length_eq_zero_iff]
    cases spaces with
    | nil => rfl
    | cons c spaces =>
      apply List.takeWhile_cons_of_neg
      intro hc
      have hspace := hspaces c List.mem_cons_self
      rw [beq_iff_eq.mp hc] at hspace
      cases hspace
  | cons d ds ih =>
    obtain ⟨hd, hds⟩ := List.forall_mem_cons.mp h
    rw [List.map_cons, List.cons_append]
    by_cases hzero : d = 0
    · rw [hzero, List.takeWhile_cons_of_pos (by rfl), List.length_cons, ih hds,
        List.takeWhile_cons_of_pos (by rfl), List.length_cons]
    · rw [List.takeWhile_cons_of_neg (by simpa using fun hc => hzero ((base58Char_spec d hd).2.2.2 hc)),
        List.takeWhile_cons_of_neg (by simpa using hzero), List.length_nil, List.length_nil]

/-! ## What the loop accepts -/

theorem decodeBase58Loop_digits_append
    (h : ∀ d ∈ ds, d < 58) (hspaces : ∀ c ∈ spaces, isspace c = true) (bn : ℕ) :
  decodeBase58Loop (ds.map base58Char ++ spaces) bn = some (bn * 58 ^ ds.length + value 58 ds)
  := by
  induction ds generalizing bn with
  | nil =>
    rw [List.map_nil, List.nil_append, List.length_nil, pow_zero, mul_one, value_nil, add_zero]
    cases spaces with
    | nil => rfl
    | cons c spaces =>
      have hall : ((c :: spaces).dropWhile isspace) = [] := List.dropWhile_eq_nil_iff.mpr hspaces
      rw [decodeBase58Loop, base58Index_of_isspace (hspaces c List.mem_cons_self)]
      dsimp only
      rw [hall, List.isEmpty_nil, if_pos rfl]
  | cons d ds ih =>
    obtain ⟨hd, hds⟩ := List.forall_mem_cons.mp h
    rw [List.map_cons, List.cons_append, decodeBase58Loop, (base58Char_spec d hd).1]
    dsimp only
    rw [ih hds, value_cons, List.length_cons, pow_succ]
    congr 1
    ring

/-- The loop accepts digits with spaces behind them. -/
theorem exists_digits_of_decodeBase58Loop
    {p : List Char} {bn n : ℕ} (h : decodeBase58Loop p bn = some n) :
  ∃ (ds : List ℕ) (spaces : List Char), (∀ d ∈ ds, d < 58) ∧ (∀ c ∈ spaces, isspace c = true)
    ∧ p = ds.map base58Char ++ spaces
  := by
  induction p generalizing bn with
  | nil => exact ⟨[], [], List.forall_mem_nil _, List.forall_mem_nil _, rfl⟩
  | cons c p ih =>
    rw [decodeBase58Loop] at h
    cases hindex : base58Index c with
    | none =>
      rw [hindex] at h
      dsimp only at h
      split_ifs at h with hempty
      have hspaces := List.dropWhile_eq_nil_iff.mp (List.isEmpty_iff.mp hempty)
      exact ⟨[], c :: p, List.forall_mem_nil _, hspaces, rfl⟩
    | some d =>
      rw [hindex] at h
      obtain ⟨hd, rfl⟩ := base58Index_eq_some_iff.mp hindex
      obtain ⟨ds, spaces, hds, hspaces, rfl⟩ := ih h
      exact ⟨d :: ds, spaces, List.forall_mem_cons.mpr ⟨hd, hds⟩, hspaces, rfl⟩

/-- The bytes that digits stand for: a zero for each zero in front, and those of their number. -/
def bytesOfDigits (ds : List ℕ) : Bytes :=
  List.replicate (ds.takeWhile (fun d => d == 0)).length 0 ++ bnBytes (value 58 ds)

theorem CString.cStr_eq (psz : CString) : cStr psz.val = psz.val
  := by
  rw [cStr, List.takeWhile_eq_self_iff]
  intro c hc
  rw [bne_iff_ne]
  rintro rfl
  apply psz.property hc

/-- A string is accepted when digits stand between its whitespace. -/
theorem decodeBase58_eq_some_iff_digits {psz : CString} {vch : Bytes} :
  decodeBase58 psz.val = some vch
    ↔ ∃ ds : List ℕ, (∀ d ∈ ds, d < 58) ∧ trimSpaces psz.val = ds.map base58Char
      ∧ vch = bytesOfDigits ds
  := by
  rw [decodeBase58, psz.cStr_eq, trimSpaces]
  dsimp only
  generalize psz.val.dropWhile isspace = p
  constructor
  · intro h
    cases hloop : decodeBase58Loop p 0 with
    | none =>
      rw [hloop] at h
      cases h
    | some bn =>
      rw [hloop] at h
      obtain ⟨ds, spaces, hds, hspaces, rfl⟩ := exists_digits_of_decodeBase58Loop hloop
      rw [decodeBase58Loop_digits_append hds hspaces, zero_mul, zero_add] at hloop
      cases hloop
      refine ⟨ds, hds, rdropWhile_digits_append hds hspaces, ?_⟩
      dsimp only at h
      rw [takeWhile_digits_append hds hspaces, trimSign_getvch, List.reverse_reverse] at h
      apply (Option.some.inj h).symm
  · rintro ⟨ds, hds, hp, rfl⟩
    have hsplit := List.rdropWhile_append_rtakeWhile (p := isspace) (l := p)
    have hspaces : ∀ c ∈ p.rtakeWhile isspace, isspace c = true := fun _ => List.mem_rtakeWhile_imp
    rw [hp] at hsplit
    rw [← hsplit, decodeBase58Loop_digits_append hds hspaces, zero_mul, zero_add]
    dsimp only
    rw [takeWhile_digits_append hds hspaces, trimSign_getvch, List.reverse_reverse, bytesOfDigits]

/-! ## Writing what was read -/

theorem takeWhile_zero_bnBytes (n : ℕ) : (bnBytes n).takeWhile (fun b => b == 0) = []
  := by
  have hdrop := bnBytes_ofBE (bnBytes n)
  rw [ofBE_bnBytes] at hdrop
  have hlength := congrArg List.length (List.takeWhile_append_dropWhile (p := fun b => b == 0)
    (l := bnBytes n))
  rw [← hdrop, List.length_append] at hlength
  apply List.length_eq_zero_iff.mp
  omega

theorem encodeBase58_bytesOfDigits (h : ∀ d ∈ ds, d < 58) :
  encodeBase58 (bytesOfDigits ds) = ds.map base58Char
  := by
  have hvalue : ofBE (bytesOfDigits ds) = value 58 ds := by
    rw [bytesOfDigits, ofBE_append, ofBE_replicate_zero, zero_mul, zero_add, ofBE_bnBytes]
  have hzeros : ((bytesOfDigits ds).takeWhile (fun b => b == 0)).length
      = (ds.takeWhile (fun d => d == 0)).length := by
    rw [bytesOfDigits, List.takeWhile_append_of_pos, takeWhile_zero_bnBytes, List.append_nil,
      List.length_replicate]
    intro b hb
    rw [List.eq_of_mem_replicate hb]
    rfl
  have hreplicate : List.replicate (ds.takeWhile (fun d => d == 0)).length 0
      = ds.takeWhile (fun d => d == 0) := by
    apply Eq.symm
    rw [List.eq_replicate_iff]
    refine ⟨rfl, ?_⟩
    intro d hd
    simpa using List.mem_takeWhile_imp hd
  rw [encodeBase58_eq_map, hzeros, base58Digits, hvalue, digits_value (by decide) h, hreplicate,
    List.takeWhile_append_dropWhile]

theorem trimSpaces_digits (h : ∀ d ∈ ds, d < 58) :
  trimSpaces (ds.map base58Char) = ds.map base58Char
  := by
  have hdrop : (ds.map base58Char).dropWhile isspace = ds.map base58Char := by
    rw [List.dropWhile_eq_self_iff]
    intro hlength
    rw [not_isspace_digits h _ (List.getElem_mem hlength)]
    apply Bool.false_ne_true
  have hspaces := rdropWhile_digits_append h (List.forall_mem_nil _)
  rwa [List.append_nil, ← hdrop, ← trimSpaces, hdrop] at hspaces

/-- What is written are the digits that stand for the bytes. -/
theorem exists_digits_of_encodeBase58 (vch : Bytes) :
  ∃ ds : List ℕ, (∀ d ∈ ds, d < 58) ∧ encodeBase58 vch = ds.map base58Char
    ∧ vch = bytesOfDigits ds
  := by
  obtain ⟨L, hL, hwritten⟩ :
      ∃ L : List ℕ, (∀ d ∈ L, d < 58) ∧ encodeBase58 vch = L.map base58Char := by
    refine ⟨_, ?_, encodeBase58_eq_map vch⟩
    intro d hd
    rcases List.mem_append.mp hd with hd | hd
    · rw [List.eq_of_mem_replicate hd]
      decide
    · apply base58Digits_lt hd
  have hnul : '\x00' ∉ encodeBase58 vch := by
    intro hmem
    rw [hwritten] at hmem
    obtain ⟨d, hd, hchar⟩ := List.mem_map.mp hmem
    apply (base58Char_spec d (hL d hd)).2.2.1 hchar
  obtain ⟨ds, hds, htrim, hvch⟩ :=
    (@decodeBase58_eq_some_iff_digits ⟨_, hnul⟩ vch).mp (decodeBase58_encodeBase58 vch)
  have hwritten' : trimSpaces (encodeBase58 vch) = encodeBase58 vch := by
    rw [hwritten, trimSpaces_digits hL]
  exact ⟨ds, hds, hwritten'.symm.trans htrim, hvch⟩

/-- A string is read as what it is written for, with whitespace around it. -/
theorem decodeBase58_eq_some_iff {psz : CString} {vch : Bytes} :
  decodeBase58 psz.val = some vch ↔ trimSpaces psz.val = encodeBase58 vch
  := by
  rw [decodeBase58_eq_some_iff_digits]
  constructor
  · rintro ⟨ds, hds, htrim, rfl⟩
    rw [htrim, encodeBase58_bytesOfDigits hds]
  · intro htrim
    obtain ⟨ds, hds, hwritten, hvch⟩ := exists_digits_of_encodeBase58 vch
    exact ⟨ds, hds, htrim.trans hwritten, hvch⟩

/-- Base58 is a bijection: what is written is read back, and a string is read as some bytes exactly
when it is what is written for them, with whitespace around it. -/
theorem base58_bijection :
  (∀ vch, decodeBase58 (encodeBase58 vch) = some vch)
    ∧ ∀ (psz : CString) (vch : Bytes),
        decodeBase58 psz.val = some vch ↔ trimSpaces psz.val = encodeBase58 vch
  := by
  refine ⟨decodeBase58_encodeBase58, ?_⟩
  intro psz vch
  apply decodeBase58_eq_some_iff

end CorgiCoin
