import CorgiCoin.SignRawTransaction
import CorgiCoin.WebWallet

/-!
# The text of a wallet dump

A dump is lines of fields.  A label is one field: bytes that a reader of fields would not see, and the
percent sign, are written as two digits behind a percent sign.  What is read line by line and field by
field is what was written.

A byte of a text is a character of the same number.
-/

namespace CorgiCoin

/-! ## Labels -/

def encodeDumpString (str : Bytes) : List Char :=
  str.flatMap fun c =>
    if c ≤ 32 || c ≥ 128 || c == 37 then '%' :: Hex.toHex [c] else [Char.ofNat c.toNat]

/-- `strtol` of two digits of base 16. -/
def hexByte (h l : Char) : UInt8 :=
  UInt8.ofNat ((phexdigit h).getD 0 * 16 + (phexdigit l).getD 0)

def decodeDumpString : List Char → Bytes
  | [] => []
  | c :: h :: l :: str =>
    if c == '%' && isHex [h, l] then hexByte h l :: decodeDumpString str
    else UInt8.ofNat c.toNat :: decodeDumpString (h :: l :: str)
  | c :: str => UInt8.ofNat c.toNat :: decodeDumpString str

theorem hexByte_hexDigit :
  ∀ c : UInt8, isHex (Hex.toHex [c]) = true
    ∧ hexByte (Hex.hexDigit (c.toNat / 16)) (Hex.hexDigit (c.toNat % 16)) = c
  := by
  intro c
  have hdigit : ∀ n < 16, phexdigit (Hex.hexDigit n) = some n := by decide
  have hlt := c.toNat_lt
  have hhigh := hdigit (c.toNat / 16) (by omega)
  have hlow := hdigit (c.toNat % 16) (by omega)
  constructor
  · change isHex [Hex.hexDigit (c.toNat / 16), Hex.hexDigit (c.toNat % 16)] = true
    simp [isHex, hhigh, hlow]
  · rw [hexByte, hhigh, hlow, Option.getD_some, Option.getD_some, Nat.div_add_mod' c.toNat 16,
      UInt8.ofNat_toNat]

theorem decodeDumpString_cons_of_ne {c : Char} (h : c ≠ '%') (str : List Char) :
  decodeDumpString (c :: str) = UInt8.ofNat c.toNat :: decodeDumpString str
  := by
  match str with
  | [] => rfl
  | [d] => rfl
  | d :: e :: str =>
    rw [decodeDumpString, if_neg]
    simp [h]

/-- A byte that is written as it is stands for itself. -/
theorem plain_of_not {c : UInt8} (h : ¬(c ≤ 32 || c ≥ 128 || c == 37) = true) :
  32 < c.toNat ∧ c.toNat < 128 ∧ (Char.ofNat c.toNat).toNat = c.toNat ∧ Char.ofNat c.toNat ≠ '%'
  := by
  simp only [Bool.or_eq_true, decide_eq_true_eq, beq_iff_eq, not_or, UInt8.not_le, ge_iff_le] at h
  obtain ⟨⟨hlow, hhigh⟩, hpercent⟩ := h
  have hlow : 32 < c.toNat := UInt8.lt_iff_toNat_lt.mp hlow
  have hhigh : c.toNat < 128 := UInt8.lt_iff_toNat_lt.mp hhigh
  have hchar : ∀ n < 128, (Char.ofNat n).toNat = n := by decide
  have htoNat := hchar c.toNat hhigh
  refine ⟨hlow, hhigh, htoNat, ?_⟩
  intro heq
  rw [heq] at htoNat
  apply hpercent
  apply UInt8.toNat_inj.mp
  exact htoNat.symm

/-- A label is read back. -/
theorem decodeDumpString_encodeDumpString (str : Bytes) :
  decodeDumpString (encodeDumpString str) = str
  := by
  induction str with
  | nil => rfl
  | cons c str ih =>
    rw [encodeDumpString, List.flatMap_cons]
    change decodeDumpString (_ ++ encodeDumpString str) = _
    split_ifs with hescape
    · obtain ⟨hhex, hbyte⟩ := hexByte_hexDigit c
      change decodeDumpString ('%' :: Hex.hexDigit (c.toNat / 16)
        :: Hex.hexDigit (c.toNat % 16) :: encodeDumpString str) = _
      rw [decodeDumpString, if_pos, hbyte, ih]
      rw [Bool.and_eq_true]
      exact ⟨rfl, hhex⟩
    · obtain ⟨_, _, htoNat, hne⟩ := plain_of_not hescape
      rw [List.singleton_append, decodeDumpString_cons_of_ne hne, htoNat, UInt8.ofNat_toNat, ih]

/-- A label is written without white space, and in ASCII. -/
theorem mem_encodeDumpString {str : Bytes} {c : Char} (h : c ∈ encodeDumpString str) :
  32 < c.toNat ∧ c.toNat < 128
  := by
  obtain ⟨b, _, hc⟩ := List.mem_flatMap.mp h
  split_ifs at hc with hescape
  · have hdigit : ∀ n < 16, 32 < (Hex.hexDigit n).toNat ∧ (Hex.hexDigit n).toNat < 128 := by
      decide
    have hlt := b.toNat_lt
    change c ∈ ['%', Hex.hexDigit (b.toNat / 16), Hex.hexDigit (b.toNat % 16)] at hc
    simp only [List.mem_cons, List.not_mem_nil, or_false] at hc
    rcases hc with rfl | rfl | rfl
    · decide
    · apply hdigit _ (by omega)
    · apply hdigit _ (by omega)
  · obtain ⟨hlow, hhigh, htoNat, _⟩ := plain_of_not hescape
    rw [List.mem_singleton.mp hc, htoNat]
    exact ⟨hlow, hhigh⟩

/-! ## Lines and fields -/

/-- The lines that `getline` gives of a file. -/
def getLines : List Char → List (List Char)
  | [] => []
  | c :: file =>
    if c = '\n' then [] :: getLines file
    else
      match getLines file with
      | [] => [[c]]
      | line :: lines => (c :: line) :: lines

/-- The words that `>>` gives of a line. -/
def words (line : List Char) : List (List Char) :=
  (line.splitOnP isspace).filter (fun word => !word.isEmpty)

theorem getLines_append {line : List Char} (h : '\n' ∉ line) (file : List Char) :
  getLines (line ++ '\n' :: file) = line :: getLines file
  := by
  induction line with
  | nil => rfl
  | cons c line ih =>
    obtain ⟨hc, hline⟩ := not_or.mp (List.mem_cons.not.mp h)
    rw [List.cons_append, getLines, if_neg (Ne.symm hc), ih hline]

/-- Lines that are written are read. -/
theorem getLines_flatMap {lines : List (List Char)} (h : ∀ line ∈ lines, '\n' ∉ line) :
  getLines (lines.flatMap (fun line => line ++ ['\n'])) = lines
  := by
  induction lines with
  | nil => rfl
  | cons line lines ih =>
    obtain ⟨hline, hlines⟩ := List.forall_mem_cons.mp h
    rw [List.flatMap_cons, List.append_assoc, List.singleton_append, getLines_append hline, ih hlines]

/-- A word is not empty and has no white space. -/
def IsField (word : List Char) : Prop := word ≠ [] ∧ ∀ c ∈ word, isspace c = false

theorem isField_of_all {word : List Char} (hne : word ≠ []) (h : word.all (fun c => !isspace c) = true) :
  IsField word
  := by
  refine ⟨hne, ?_⟩
  intro c hc
  rw [← Bool.not_eq_true']
  apply List.all_eq_true.mp h c hc

theorem words_append {word : List Char} (h : IsField word) (line : List Char) :
  words (word ++ ' ' :: line) = word :: words line
  := by
  rw [words, List.splitOnP_append_cons_of_forall_mem h.2 ' ' (by rfl), List.filter_cons_of_pos, words]
  rw [Bool.not_eq_true', List.isEmpty_eq_false_iff]
  apply h.1

theorem words_single {word : List Char} (h : IsField word) : words word = [word]
  := by
  rw [words, List.splitOnP_eq_singleton h.2, List.filter_cons_of_pos, List.filter_nil]
  rw [Bool.not_eq_true', List.isEmpty_eq_false_iff]
  apply h.1

end CorgiCoin
