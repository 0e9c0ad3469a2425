import CorgiCoin.Serialize
import CorgiCoin.Lib.BitStream
import Mathlib.Data.List.FinRange
import Mathlib.Data.List.Induction

/-!
# Recovery phrases

A phrase is the entropy and the first bits of its SHA-256, cut into groups of 11 bits that choose a
word each.  SHA-256 and the list of words are parameters.
-/

namespace CorgiCoin

/-! ## Words -/

/-- `isspace` of a byte, in the C locale. -/
def isSpaceByte (c : UInt8) : Bool := c.toNat == 32 || (9 ≤ c.toNat && c.toNat ≤ 13)

/-- `BIP39_WORDLIST`: distinct words of lower-case letters. -/
structure WordList where
  word : Fin 2048 → Bytes
  injective : Function.Injective word
  ne_nil : ∀ i, word i ≠ []
  letters : ∀ i, ∀ c ∈ word i, 97 ≤ c.toNat ∧ c.toNat ≤ 122

/-- The loop of `Split`, with the word that is being read. -/
def splitLoop : Bytes → Bytes → List Bytes
  | [], w => if w.isEmpty then [] else [w]
  | c :: s, w =>
    if isSpaceByte c then
      if w.isEmpty then splitLoop s [] else w :: splitLoop s []
    else splitLoop s (w ++ [c])

/-- `Split`: the words between the spaces. -/
def split (s : Bytes) : List Bytes := splitLoop s []

namespace WordList

variable (list : WordList)

def wordAt (idx : ℕ) : Bytes := list.word (Fin.ofNat 2048 idx)

/-- `WordIndex().find` -/
def wordIndex (w : Bytes) : Option ℕ :=
  ((List.finRange 2048).reverse.find? (fun i => list.word i == w)).map Fin.val

end WordList

/-! ## From entropy to a phrase -/

/-- A bit of a string of bytes, the first bit of each byte first. -/
def bitOf (v : Bytes) (i : ℕ) : ℕ := (v.getD (i / 8) 0).toNat >>> (7 - i % 8) &&& 1

/-- A bit of the entropy followed by its hash. -/
def bitAt (entropy hash : Bytes) (i : ℕ) : ℕ :=
  if i < entropy.length * 8 then bitOf entropy i else bitOf hash (i - entropy.length * 8)

/-- The index of a word, from the bits at a position on. -/
def readIndex (bitAt : ℕ → ℕ) (i : ℕ) : ℕ :=
  (List.range 11).foldl (fun idx b => (idx <<< 1) ||| bitAt (i + b)) 0

def appendWord (out word : Bytes) : Bytes := (if out.isEmpty then out else out ++ [32]) ++ word

section Mnemonic

variable (sha256 : Bytes → Vector UInt8 32) (list : WordList)

/-- `MnemonicFromEntropy` -/
def mnemonicFromEntropy (entropy : Bytes) : Bytes :=
  if entropy.length < 16 ∨ entropy.length > 32 ∨ entropy.length % 4 ≠ 0 then []
  else
    let entBits := entropy.length * 8
    let csBits := entBits / 32
    let totalBits := entBits + csBits
    (List.range ((totalBits + 10) / 11)).foldl
      (fun out k =>
        appendWord out (list.wordAt (readIndex (bitAt entropy (sha256 entropy).toList) (11 * k))))
      []

/-! ## From a phrase to its entropy -/

/-- `bits[pos / 8] |= (1 << (7 - (pos % 8)))` -/
def setBit (bits : Bytes) (pos : ℕ) : Bytes :=
  bits.modify (pos / 8) (· ||| UInt8.ofNat (1 <<< (7 - pos % 8)))

/-- One of the bits of the index of a word that starts at a position. -/
def packBit (idx pos : ℕ) (bits : Bytes) (j : ℕ) : Bytes :=
  if idx >>> (10 - j) &&& 1 ≠ 0 then setBit bits (pos + j) else bits

/-- The bits of the index of a word, from a position on. -/
def packIndex (idx pos : ℕ) (bits : Bytes) : Bytes :=
  (List.range 11).foldl (packBit idx pos) bits

/-- The loop over the words, with the index that finds them; `none` where a word is not in it. -/
def packWords (wi : Bytes → Option ℕ) : List Bytes → ℕ → Bytes → Option Bytes
  | [], _, bits => some bits
  | w :: words, pos, bits =>
    match wi w with
    | none => none
    | some idx => packWords wi words (pos + 11) (packIndex idx pos bits)

/-- `CheckMnemonic` -/
def checkMnemonic (mnemonic : Bytes) : Bool :=
  let words := split mnemonic
  let n := words.length
  if n < 12 ∨ n > 24 ∨ n % 3 ≠ 0 then false
  else
    let totalBits := n * 11
    let csBits := totalBits / 33
    let entBits := totalBits - csBits
    match packWords list.wordIndex words 0 (List.replicate ((totalBits + 7) / 8) 0) with
    | none => false
    | some bits =>
      let entBytes := entBits / 8
      let hash := (sha256 (bits.take entBytes)).toList
      (List.range csBits).all (fun i => bitOf bits (entBits + i) == bitOf hash i)

end Mnemonic

/-! ## Splitting -/

/-- A word as `Split` finds it. -/
def IsWord (w : Bytes) : Prop := w ≠ [] ∧ ∀ c ∈ w, isSpaceByte c = false

variable {w : Bytes}

theorem splitLoop_word (h : ∀ c ∈ w, isSpaceByte c = false) (s w' : Bytes) :
  splitLoop (w ++ s) w' = splitLoop s (w' ++ w)
  := by
  induction w generalizing w' with
  | nil => simp
  | cons c w ih =>
    obtain ⟨hc, hw⟩ := List.forall_mem_cons.mp h
    rw [List.cons_append, splitLoop, hc, if_neg Bool.false_ne_true, ih hw]
    simp

theorem splitLoop_space {space : UInt8} (hspace : isSpaceByte space = true) (out s w : Bytes) :
  splitLoop (out ++ space :: s) w = splitLoop out w ++ split s
  := by
  induction out generalizing w with
  | nil =>
    rw [List.nil_append, splitLoop, splitLoop, if_pos hspace, split]
    split_ifs
    · rfl
    · rfl
  | cons c out ih =>
    rw [List.cons_append, splitLoop, splitLoop, ih, ih]
    split_ifs
    · rfl
    · rfl
    · rfl

theorem split_word (h : IsWord w) : split w = [w]
  := by
  have hloop := splitLoop_word h.2 [] []
  rw [List.append_nil, List.nil_append] at hloop
  rw [split, hloop, splitLoop, if_neg (by simpa using h.1)]

theorem split_appendWord (out : Bytes) (h : IsWord w) :
  split (appendWord out w) = split out ++ [w]
  := by
  rw [appendWord]
  split_ifs with hempty
  · rw [List.isEmpty_iff.mp hempty, List.nil_append, split_word h]
    rfl
  · rw [List.append_assoc, List.singleton_append, split, splitLoop_space rfl, split_word h,
      split]

/-- The words of some words with a space between them. -/
theorem split_foldl_appendWord {words : List Bytes} (h : ∀ w ∈ words, IsWord w) :
  split (words.foldl appendWord []) = words
  := by
  induction words using List.reverseRecOn with
  | nil => rfl
  | append_singleton words w ih =>
    rw [List.foldl_append, List.foldl_cons, List.foldl_nil,
      split_appendWord _ (h w (List.mem_append_right _ List.mem_cons_self)),
      ih (fun w' hw' => h w' (List.mem_append_left _ hw'))]

/-! ## Looking words up -/

namespace WordList

variable (list : WordList)

theorem isWord_wordAt (idx : ℕ) : IsWord (list.wordAt idx)
  := by
  refine ⟨list.ne_nil _, ?_⟩
  intro c hc
  have hletter := list.letters _ c hc
  simp only [isSpaceByte, Bool.or_eq_false_iff, beq_eq_false_iff_ne, Bool.and_eq_false_iff,
    decide_eq_false_iff_not]
  omega

theorem wordIndex_eq_some_iff {w : Bytes} {idx : ℕ} :
  list.wordIndex w = some idx ↔ idx < 2048 ∧ w = list.wordAt idx
  := by
  rw [wordIndex, Option.map_eq_some_iff]
  constructor
  · rintro ⟨i, hfind, rfl⟩
    have hword := List.find?_some hfind
    refine ⟨i.isLt, ?_⟩
    rw [wordAt, Fin.ofNat_val_eq_self]
    apply (beq_iff_eq.mp hword).symm
  · rintro ⟨hidx, rfl⟩
    have hat : (Fin.ofNat 2048 idx).val = idx := Nat.mod_eq_of_lt hidx
    cases hfind : (List.finRange 2048).reverse.find? (fun i => list.word i == list.wordAt idx) with
    | none =>
      have hnone := List.find?_eq_none.mp hfind (Fin.ofNat 2048 idx)
        (List.mem_reverse.mpr (List.mem_finRange _))
      apply absurd (beq_iff_eq.mpr rfl) hnone
    | some i =>
      have hword := List.find?_some hfind
      have hi : i = Fin.ofNat 2048 idx := list.injective (beq_iff_eq.mp hword)
      exact ⟨i, rfl, by rw [hi, hat]⟩

/-- The words of a list have these indices. -/
theorem mapM_wordIndex_iff {words : List Bytes} {idxs : List ℕ} :
  words.mapM list.wordIndex = some idxs
    ↔ (∀ idx ∈ idxs, idx < 2048) ∧ words = idxs.map list.wordAt
  := by
  induction words generalizing idxs with
  | nil =>
    rw [List.mapM_nil]
    constructor
    · intro h
      cases h
      simp
    · rintro ⟨_, hwords⟩
      rw [List.map_eq_nil_iff.mp hwords.symm]
      rfl
  | cons w words ih =>
    rw [List.mapM_cons]
    simp only [Option.bind_eq_bind, Option.bind_eq_some_iff, Option.pure_def, Option.some.injEq]
    constructor
    · rintro ⟨idx, hidx, idxs, hidxs, rfl⟩
      obtain ⟨hlt, rfl⟩ := list.wordIndex_eq_some_iff.mp hidx
      obtain ⟨hall, rfl⟩ := ih.mp hidxs
      exact ⟨List.forall_mem_cons.mpr ⟨hlt, hall⟩, rfl⟩
    · rintro ⟨hall, hwords⟩
      cases idxs with
      | nil => cases hwords
      | cons idx idxs =>
        obtain ⟨hlt, hall⟩ := List.forall_mem_cons.mp hall
        obtain ⟨rfl, rfl⟩ := List.cons.inj hwords
        exact ⟨idx, list.wordIndex_eq_some_iff.mpr ⟨hlt, rfl⟩, idxs, ih.mpr ⟨hall, rfl⟩, rfl⟩

end WordList

/-! ## Bits -/

/-- The bit at a position of a string of bytes. -/
def byteBit (v : Bytes) (p : ℕ) : Bool := BitStream.bit 8 (v.map UInt8.toNat) p

theorem shiftRight_and_one (x k : ℕ) : x >>> k &&& 1 = (x.testBit k).toNat := by
  rw [Nat.and_one_is_mod, Nat.shiftRight_eq_div_pow, Nat.toNat_testBit]

theorem getD_map_toNat (v : Bytes) (k : ℕ) : (v.map UInt8.toNat).getD k 0 = (v.getD k 0).toNat
  := by rw [← UInt8.toNat_zero, List.getD_map]

theorem bitOf_eq (v : Bytes) (i : ℕ) : bitOf v i = (byteBit v i).toNat := by
  rw [bitOf, shiftRight_and_one, byteBit, BitStream.bit, getD_map_toNat]

/-- The bits of the entropy followed by those of its hash. -/
def stream (entropy hash : Bytes) (i : ℕ) : Bool :=
  if i < entropy.length * 8 then byteBit entropy i else byteBit hash (i - entropy.length * 8)

theorem bitAt_eq (entropy hash : Bytes) (i : ℕ) :
  bitAt entropy hash i = (stream entropy hash i).toNat
  := by
  rw [bitAt, stream]
  split_ifs
  · apply bitOf_eq
  · apply bitOf_eq

theorem shiftLeft_or_toNat (x : ℕ) (b : Bool) : (x <<< 1) ||| b.toNat = 2 * x + b.toNat
  := by
  rw [← Nat.shiftLeft_add_eq_or_of_lt (Bool.toNat_lt b), Nat.shiftLeft_eq, pow_one, Nat.mul_comm]

theorem readIndex_eq {g : ℕ → ℕ} {f : ℕ → Bool} (h : ∀ j, g j = (f j).toNat) (i : ℕ) :
  readIndex g i = BitStream.read f i 11
  := by
  rw [readIndex]
  generalize 11 = n
  induction n with
  | zero => rfl
  | succ n ih =>
    rw [List.range_succ, List.foldl_append, ih, List.foldl_cons, List.foldl_nil, h,
      shiftLeft_or_toNat, BitStream.read]

/-! ### Setting bits -/

theorem length_setBit (bits : Bytes) (pos : ℕ) : (setBit bits pos).length = bits.length :=
  List.length_modify _ _ _

variable {bits : Bytes} {pos : ℕ}

theorem byteBit_setBit (hpos : pos < 8 * bits.length) (p : ℕ) :
  byteBit (setBit bits pos) p = (byteBit bits p || decide (p = pos))
  := by
  have hlt : pos / 8 < bits.length := Nat.div_lt_of_lt_mul hpos
  have hbyte : (1 <<< (7 - pos % 8)) % 2 ^ 8 = 2 ^ (7 - pos % 8) := by
    rw [Nat.one_shiftLeft, Nat.mod_eq_of_lt (Nat.pow_lt_pow_right (by decide) (by omega))]
  rw [byteBit, byteBit, BitStream.bit, BitStream.bit, getD_map_toNat, getD_map_toNat, setBit,
    List.getD_eq_getElem?_getD, List.getD_eq_getElem?_getD, List.getElem?_modify]
  by_cases hk : pos / 8 = p / 8
  · simp only [← hk, if_true, List.getElem?_eq_getElem hlt, Option.map_eq_map, Option.map_some,
      Option.getD_some]
    rw [UInt8.toNat_or, Nat.testBit_or, UInt8.toNat_ofNat', hbyte, Nat.testBit_two_pow]
    congr 1
    rw [decide_eq_decide]
    omega
  · have hne : p ≠ pos := by
      rintro rfl
      apply hk rfl
    simp [hk, hne]

theorem length_packBit (idx pos : ℕ) (bits : Bytes) (j : ℕ) :
  (packBit idx pos bits j).length = bits.length
  := by
  rw [packBit]
  split_ifs
  · apply length_setBit
  · rfl

theorem byteBit_packBit
    (idx : ℕ) {j : ℕ} (hpos : pos + j < 8 * bits.length) (p : ℕ) :
  byteBit (packBit idx pos bits j) p
    = (byteBit bits p || (decide (p = pos + j) && idx.testBit (10 - j)))
  := by
  rw [packBit, shiftRight_and_one]
  cases idx.testBit (10 - j) with
  | false => simp
  | true => simp [byteBit_setBit hpos]

theorem length_foldl_packBit (idx pos n : ℕ) (bits : Bytes) :
  ((List.range n).foldl (packBit idx pos) bits).length = bits.length
  := by
  induction n with
  | zero => rfl
  | succ n ih =>
    rw [List.range_succ, List.foldl_append, List.foldl_cons, List.foldl_nil, length_packBit, ih]

theorem byteBit_foldl_packBit
    (idx : ℕ) {n : ℕ} (hpos : pos + n ≤ 8 * bits.length) (p : ℕ) :
  byteBit ((List.range n).foldl (packBit idx pos) bits) p
    = (byteBit bits p || (decide (pos ≤ p ∧ p < pos + n) && idx.testBit (10 - (p - pos))))
  := by
  induction n with
  | zero =>
    have hnone : ¬(pos ≤ p ∧ p < pos + 0) := by omega
    rw [decide_eq_false hnone, Bool.false_and, Bool.or_false]
    rfl
  | succ n ih =>
    have hlt : pos + n < 8 * ((List.range n).foldl (packBit idx pos) bits).length := by
      rw [length_foldl_packBit]
      omega
    rw [List.range_succ, List.foldl_append, List.foldl_cons, List.foldl_nil,
      byteBit_packBit idx hlt, ih (by omega), Bool.or_assoc]
    congr 1
    -- the position of the last round is the only new one
    by_cases hp : p = pos + n
    · subst hp
      simp
    · have hsame : (pos ≤ p ∧ p < pos + n) ↔ (pos ≤ p ∧ p < pos + (n + 1)) := by omega
      simp only [hp, hsame, decide_false, Bool.false_and, Bool.or_false]

theorem length_packIndex (idx pos : ℕ) (bits : Bytes) :
  (packIndex idx pos bits).length = bits.length
  := length_foldl_packBit idx pos 11 bits

/-- The bits of indices, from a position on. -/
def packIndices : List ℕ → ℕ → Bytes → Bytes
  | [], _, bits => bits
  | idx :: idxs, pos, bits => packIndices idxs (pos + 11) (packIndex idx pos bits)

theorem packWords_eq (wi : Bytes → Option ℕ) (words : List Bytes) (pos : ℕ) (bits : Bytes) :
  packWords wi words pos bits = (words.mapM wi).map fun idxs => packIndices idxs pos bits
  := by
  induction words generalizing pos bits with
  | nil =>
    rw [packWords, List.mapM_nil]
    rfl
  | cons w words ih =>
    rw [packWords, List.mapM_cons]
    cases wi w with
    | none => rfl
    | some idx =>
      dsimp only
      rw [ih]
      cases words.mapM wi with
      | none => rfl
      | some idxs => rfl

theorem length_packIndices (idxs : List ℕ) (pos : ℕ) (bits : Bytes) :
  (packIndices idxs pos bits).length = bits.length
  := by
  induction idxs generalizing pos bits with
  | nil => rfl
  | cons idx idxs ih => rw [packIndices, ih, length_packIndex]

theorem byteBit_packIndices
    {idxs : List ℕ} (hpos : pos + 11 * idxs.length ≤ 8 * bits.length) (p : ℕ) :
  byteBit (packIndices idxs pos bits) p
    = (byteBit bits p || (decide (pos ≤ p) && BitStream.bit 11 idxs (p - pos)))
  := by
  induction idxs generalizing pos bits with
  | nil => rw [packIndices, BitStream.bit, List.getD_nil, Nat.zero_testBit, Bool.and_false,
      Bool.or_false]
  | cons idx idxs ih =>
    rw [List.length_cons] at hpos
    rw [packIndices, ih (by rw [length_packIndex]; omega), packIndex,
      byteBit_foldl_packBit idx (by omega), BitStream.bit_cons (by decide), Bool.or_assoc]
    congr 1
    by_cases hlow : pos ≤ p
    · by_cases hhigh : p < pos + 11
      · have hin : p - pos < 11 := by omega
        have hout : ¬pos + 11 ≤ p := by omega
        simp [hlow, hhigh, hin, hout]
      · have hin : ¬p - pos < 11 := by omega
        have hout : pos + 11 ≤ p := by omega
        simp [hhigh, hin, hout, hlow, Nat.sub_sub]
    · have hout : ¬pos + 11 ≤ p := by omega
      simp [hlow, hout]

/-! ## Phrases are exact -/

/-- Entropy of 16, 20, 24, 28 or 32 bytes. -/
def Entropy : Type := {e : Bytes // e.length ∈ [16, 20, 24, 28, 32]}

/-- A third of the number of words. -/
theorem Entropy.exists_length (e : Entropy) : ∃ m, 4 ≤ m ∧ m ≤ 8 ∧ e.val.length = 4 * m
  := by
  have h := e.property
  simp only [List.mem_cons, List.not_mem_nil, or_false] at h
  exact ⟨e.val.length / 4, by omega, by omega, by omega⟩

section Exact

variable (sha256 : Bytes → Vector UInt8 32) (list : WordList)

/-- The indices of the words of a phrase. -/
def indices (entropy : Bytes) : List ℕ :=
  BitStream.digits (stream entropy (sha256 entropy).toList) 11 (3 * (entropy.length / 4))

variable {sha256 list}

theorem length_indices (entropy : Bytes) :
  (indices sha256 entropy).length = 3 * (entropy.length / 4)
  := BitStream.length_digits _ _ _

variable {entropy : Bytes}

theorem indices_lt {idx : ℕ} (h : idx ∈ indices sha256 entropy) : idx < 2048 :=
  BitStream.digits_lt h

variable {p : ℕ}

theorem bit_indices (h : p < 11 * (3 * (entropy.length / 4))) :
  BitStream.bit 11 (indices sha256 entropy) p = stream entropy (sha256 entropy).toList p
  := BitStream.bit_digits (by decide) _ h

theorem mnemonicFromEntropy_eq (e : Entropy) :
  mnemonicFromEntropy sha256 list e.val
    = ((indices sha256 e.val).map list.wordAt).foldl appendWord []
  := by
  obtain ⟨m, hlow, hhigh, hlength⟩ := e.exists_length
  have hwords : (e.val.length * 8 + e.val.length * 8 / 32 + 10) / 11
      = 3 * (e.val.length / 4) := by omega
  rw [mnemonicFromEntropy, if_neg (by omega)]
  dsimp only
  rw [hwords, indices, BitStream.digits, List.map_map, List.foldl_map]
  congr 1
  funext out k
  rw [readIndex_eq (bitAt_eq _ _)]
  rfl

/-- The words of the phrase of an entropy. -/
theorem split_mnemonicFromEntropy (e : Entropy) :
  split (mnemonicFromEntropy sha256 list e.val) = (indices sha256 e.val).map list.wordAt
  := by
  rw [mnemonicFromEntropy_eq, split_foldl_appendWord]
  intro w hw
  obtain ⟨idx, _, rfl⟩ := List.mem_map.mp hw
  apply list.isWord_wordAt

/-! ### Checking indices -/

/-- The bits of some indices. -/
def bitsOf (idxs : List ℕ) : Bytes :=
  packIndices idxs 0 (List.replicate ((idxs.length * 11 + 7) / 8) 0)

theorem length_bitsOf (idxs : List ℕ) : (bitsOf idxs).length = (idxs.length * 11 + 7) / 8 := by
  rw [bitsOf, length_packIndices, List.length_replicate]

theorem byteBit_bitsOf (idxs : List ℕ) (p : ℕ) :
  byteBit (bitsOf idxs) p = BitStream.bit 11 idxs p
  := by
  have hzero : byteBit (List.replicate ((idxs.length * 11 + 7) / 8) 0) p = false := by
    rw [byteBit, List.map_replicate, BitStream.bit, List.getD_eq_getElem?_getD,
      List.getElem?_replicate]
    split_ifs
    · apply Nat.zero_testBit
    · apply Nat.zero_testBit
  rw [bitsOf, byteBit_packIndices (by rw [List.length_replicate]; omega), hzero]
  simp

theorem toNat_eq_toNat_iff {a b : Bool} : a.toNat = b.toNat ↔ a = b := by
  cases a <;> cases b <;> simp

/-- The comparison of the checksum bits. -/
theorem all_checksum_iff (idxs : List ℕ) (m : ℕ) (hash : Bytes) :
  (List.range m).all (fun i => bitOf (bitsOf idxs) (32 * m + i) == bitOf hash i) = true
    ↔ ∀ i < m, BitStream.bit 11 idxs (32 * m + i) = byteBit hash i
  := by
  rw [List.all_eq_true]
  constructor
  · intro hall i hi
    have hbit := beq_iff_eq.mp (hall i (List.mem_range.mpr hi))
    rw [bitOf_eq, bitOf_eq, toNat_eq_toNat_iff, byteBit_bitsOf] at hbit
    apply hbit
  · intro hall i hi
    rw [beq_iff_eq, bitOf_eq, bitOf_eq, toNat_eq_toNat_iff, byteBit_bitsOf]
    apply hall i (List.mem_range.mp hi)

/-- A phrase is accepted when its words are in the list, their number is right and so is the
checksum. -/
theorem checkMnemonic_iff (mnemonic : Bytes) :
  checkMnemonic sha256 list mnemonic = true
    ↔ ∃ idxs : List ℕ, (∀ idx ∈ idxs, idx < 2048) ∧ split mnemonic = idxs.map list.wordAt
      ∧ ∃ m, 4 ≤ m ∧ m ≤ 8 ∧ idxs.length = 3 * m
        ∧ ∀ i < m, BitStream.bit 11 idxs (32 * m + i)
          = byteBit (sha256 ((bitsOf idxs).take (4 * m))).toList i
  := by
  rw [checkMnemonic]
  dsimp only
  rw [packWords_eq]
  constructor
  · intro h
    split_ifs at h with hn
    cases hidxs : (split mnemonic).mapM list.wordIndex with
    | none =>
      rw [hidxs] at h
      cases h
    | some idxs =>
      obtain ⟨hlt, hwords⟩ := list.mapM_wordIndex_iff.mp hidxs
      have hlength : (split mnemonic).length = idxs.length := by rw [hwords, List.length_map]
      rw [hidxs, Option.map_some, hlength] at h
      rw [hlength] at hn
      obtain ⟨m, hm⟩ : ∃ m, idxs.length = 3 * m := ⟨idxs.length / 3, by omega⟩
      refine ⟨idxs, hlt, hwords, m, by omega, by omega, hm, ?_⟩
      have hcs : idxs.length * 11 / 33 = m := by omega
      have hent : idxs.length * 11 - m = 32 * m := by omega
      have hbytes : 32 * m / 8 = 4 * m := by omega
      dsimp only at h
      rw [hcs, hent, hbytes] at h
      apply (all_checksum_iff idxs m _).mp h
  · rintro ⟨idxs, hlt, hwords, m, hlow, hhigh, hm, hchecks⟩
    have hlength : (split mnemonic).length = idxs.length := by rw [hwords, List.length_map]
    have hcs : idxs.length * 11 / 33 = m := by omega
    have hent : idxs.length * 11 - m = 32 * m := by omega
    have hbytes : 32 * m / 8 = 4 * m := by omega
    rw [list.mapM_wordIndex_iff.mpr ⟨hlt, hwords⟩, Option.map_some, hlength, if_neg (by omega)]
    dsimp only
    rw [hcs, hent, hbytes]
    apply (all_checksum_iff idxs m _).mpr hchecks

/-! ### Entropy and indices -/

theorem byteBit_take {v : Bytes} {k : ℕ} (h : p < 8 * k) : byteBit (v.take k) p = byteBit v p
  := by
  rw [byteBit, byteBit, BitStream.bit, BitStream.bit, getD_map_toNat, getD_map_toNat,
    List.getD_eq_getElem?_getD, List.getD_eq_getElem?_getD,
    List.getElem?_take_of_lt (Nat.div_lt_of_lt_mul h)]

theorem eq_of_byteBit {v v' : Bytes} (hlength : v.length = v'.length)
    (h : ∀ p < 8 * v.length, byteBit v p = byteBit v' p) :
  v = v'
  := by
  apply List.map_injective_iff.mpr (fun a b => UInt8.toNat_inj.mp)
  apply BitStream.eq_of_bit (w := 8) (by decide)
  · rw [List.length_map, List.length_map, hlength]
  · intro d hd
    obtain ⟨c, _, rfl⟩ := List.mem_map.mp hd
    apply UInt8.toNat_lt
  · intro d hd
    obtain ⟨c, _, rfl⟩ := List.mem_map.mp hd
    apply UInt8.toNat_lt
  · rw [List.length_map]
    apply h

/-- The entropy is the start of the bits of its indices. -/
theorem take_bitsOf_indices (e : Entropy) :
  (bitsOf (indices sha256 e.val)).take e.val.length = e.val
  := by
  obtain ⟨m, _, _, hlength⟩ := e.exists_length
  have hindices : (indices sha256 e.val).length = 3 * m := by
    rw [length_indices]
    omega
  have htake : ((bitsOf (indices sha256 e.val)).take e.val.length).length = e.val.length := by
    rw [List.length_take, length_bitsOf, hindices]
    omega
  apply eq_of_byteBit htake
  intro p hp
  rw [htake] at hp
  rw [byteBit_take hp, byteBit_bitsOf, bit_indices (by omega), stream, if_pos (by omega)]

/-- Indices are those of an entropy exactly when their number and their checksum are right. -/
theorem exists_entropy_iff {idxs : List ℕ} (hlt : ∀ idx ∈ idxs, idx < 2048) :
  (∃ m, 4 ≤ m ∧ m ≤ 8 ∧ idxs.length = 3 * m
      ∧ ∀ i < m, BitStream.bit 11 idxs (32 * m + i)
        = byteBit (sha256 ((bitsOf idxs).take (4 * m))).toList i)
    ↔ ∃ e : Entropy, idxs = indices sha256 e.val
  := by
  constructor
  · rintro ⟨m, hlow, hhigh, hm, hchecks⟩
    have hlength : ((bitsOf idxs).take (4 * m)).length = 4 * m := by
      rw [List.length_take, length_bitsOf, hm]
      omega
    have hmem : ((bitsOf idxs).take (4 * m)).length ∈ [16, 20, 24, 28, 32] := by
      rw [hlength]
      simp only [List.mem_cons, List.not_mem_nil, or_false]
      omega
    obtain ⟨e, he⟩ : ∃ e : Entropy, e.val = (bitsOf idxs).take (4 * m) := ⟨⟨_, hmem⟩, rfl⟩
    rw [← he] at hlength hchecks
    use e
    apply BitStream.eq_of_bit (w := 11) (by decide)
    · rw [length_indices, hm]
      omega
    · apply hlt
    · intro idx hidx
      apply indices_lt hidx
    · intro p hp
      rw [hm] at hp
      rw [bit_indices (by omega), stream]
      split_ifs with hentropy
      · rw [he, byteBit_take (by omega), byteBit_bitsOf]
      · rw [← hchecks (p - e.val.length * 8) (by omega)]
        congr 1
        omega
  · rintro ⟨e, rfl⟩
    obtain ⟨m, hlow, hhigh, hlength⟩ := e.exists_length
    refine ⟨m, hlow, hhigh, by rw [length_indices]; omega, ?_⟩
    intro i hi
    rw [← hlength, take_bitsOf_indices, bit_indices (by omega), stream, if_neg (by omega)]
    congr 1
    omega

/-- Different entropies have different indices. -/
theorem indices_injective {e e' : Entropy} (h : indices sha256 e.val = indices sha256 e'.val) :
  e = e'
  := by
  obtain ⟨m, _, _, hlength⟩ := e.exists_length
  obtain ⟨m', _, _, hlength'⟩ := e'.exists_length
  have hindices := congrArg List.length h
  rw [length_indices, length_indices] at hindices
  apply Subtype.ext
  rw [← @take_bitsOf_indices sha256 e, ← @take_bitsOf_indices sha256 e', h,
    show e.val.length = e'.val.length by omega]

/-- Words are those of one list of indices. -/
theorem map_wordAt_inj
    {idxs idxs' : List ℕ} (hlt : ∀ idx ∈ idxs, idx < 2048) (hlt' : ∀ idx ∈ idxs', idx < 2048)
    (h : idxs.map list.wordAt = idxs'.map list.wordAt) :
  idxs = idxs'
  := by
  have hfirst := list.mapM_wordIndex_iff.mpr ⟨hlt, rfl⟩
  have hsecond := list.mapM_wordIndex_iff.mpr ⟨hlt', rfl⟩
  rw [h, hsecond] at hfirst
  apply (Option.some.inj hfirst).symm

/-- A phrase is accepted when its words are those of an entropy. -/
theorem checkMnemonic_iff_indices (mnemonic : Bytes) :
  checkMnemonic sha256 list mnemonic = true
    ↔ ∃ e : Entropy, split mnemonic = (indices sha256 e.val).map list.wordAt
  := by
  rw [checkMnemonic_iff]
  constructor
  · rintro ⟨idxs, hlt, hwords, hchecks⟩
    obtain ⟨e, rfl⟩ := (exists_entropy_iff hlt).mp hchecks
    exact ⟨e, hwords⟩
  · rintro ⟨e, hwords⟩
    have hlt : ∀ idx ∈ indices sha256 e.val, idx < 2048 := fun _ => indices_lt
    exact ⟨_, hlt, hwords, (exists_entropy_iff hlt).mpr ⟨e, rfl⟩⟩

/-! ### An altered bit -/

/-- The indices of a phrase with one of its bits altered. -/
def alteredIndices (sha256 : Bytes → Vector UInt8 32) (entropy : Bytes) (p : ℕ) : List ℕ :=
  BitStream.digits (fun i => stream entropy (sha256 entropy).toList i ^^ decide (i = p)) 11
    (3 * (entropy.length / 4))

theorem alteredIndices_lt {idx : ℕ}
    (h : idx ∈ alteredIndices sha256 entropy p) :
  idx < 2048
  := BitStream.digits_lt h

/-- With a bit of the checksum altered, the indices are those of no entropy. -/
theorem alteredIndices_ne_indices
    (e e' : Entropy) (hlow : e.val.length * 8 ≤ p)
    (hhigh : p < e.val.length * 8 + e.val.length * 8 / 32) :
  alteredIndices sha256 e.val p ≠ indices sha256 e'.val
  := by
  intro h
  obtain ⟨m, _, _, hlength⟩ := e.exists_length
  obtain ⟨m', _, _, hlength'⟩ := e'.exists_length
  have hindices := congrArg List.length h
  rw [length_indices, alteredIndices, BitStream.length_digits] at hindices
  have hbit : ∀ i < 11 * (3 * (e.val.length / 4)),
      (stream e.val (sha256 e.val).toList i ^^ decide (i = p))
        = stream e'.val (sha256 e'.val).toList i := by
    intro i hi
    have hsame := congrArg (BitStream.bit 11 · i) h
    rwa [alteredIndices, BitStream.bit_digits (by decide) _ hi, bit_indices (by omega)] at hsame
  -- the entropy is not altered, so the checksum would be the same
  have he : e = e' := by
    apply Subtype.ext
    apply eq_of_byteBit (by omega)
    intro i hi
    have hsame := hbit i (by omega)
    rwa [stream, stream, if_pos (by omega), if_pos (by omega), decide_eq_false (by omega),
      Bool.xor_false] at hsame
  have hp := hbit p (by omega)
  rw [← he, decide_eq_true rfl, Bool.xor_true] at hp
  apply Bool.not_ne_self _ hp

/-- Phrases are exact: a string is accepted when its words are those of the phrase of an entropy,
the words determine the entropy, and a phrase with one bit of its checksum altered is rejected. -/
theorem mnemonic_exact (sha256 : Bytes → Vector UInt8 32) (list : WordList) :
  (∀ mnemonic, checkMnemonic sha256 list mnemonic = true
      ↔ ∃ e : Entropy, split mnemonic = split (mnemonicFromEntropy sha256 list e.val))
    ∧ (∀ e e' : Entropy,
        split (mnemonicFromEntropy sha256 list e.val) = split (mnemonicFromEntropy sha256 list e'.val)
          → e = e')
    ∧ ∀ (e : Entropy) (i : Fin (e.val.length * 8 / 32)) (mnemonic : Bytes),
        split mnemonic
          = (alteredIndices sha256 e.val (e.val.length * 8 + i)).map list.wordAt →
        checkMnemonic sha256 list mnemonic = false
  := by
  refine ⟨?_, ?_, ?_⟩
  · intro mnemonic
    rw [checkMnemonic_iff_indices]
    simp only [split_mnemonicFromEntropy]
  · intro e e' h
    rw [split_mnemonicFromEntropy, split_mnemonicFromEntropy] at h
    apply indices_injective (map_wordAt_inj (fun _ => indices_lt) (fun _ => indices_lt) h)
  · intro e i mnemonic hwords
    rw [Bool.eq_false_iff]
    intro haccepted
    obtain ⟨e', he'⟩ := (checkMnemonic_iff_indices mnemonic).mp haccepted
    rw [hwords] at he'
    apply alteredIndices_ne_indices e e' (Nat.le_add_right _ _)
      (Nat.add_lt_add_left i.isLt _)
      (map_wordAt_inj (fun _ => alteredIndices_lt) (fun _ => indices_lt) he')

end Exact

end CorgiCoin
