import CorgiCoin.Mnemonic
import CorgiCoin.WebKeys
import CorgiCoin.WalletKeys
import Mathlib.Data.List.TakeWhile

/-!
# The seed of a phrase

The wallet splits a phrase into words to check it, but hashes the phrase as it was typed.  The web
wallet puts single spaces between the words first.  So the two agree, and the same words restore the
same wallet, where they are typed with single spaces and with nothing around them.
-/

namespace CorgiCoin

/-! ## The wallet -/

/-- `mnemonic` -/
def mnemonicSalt : Bytes := [0x6d, 0x6e, 0x65, 0x6d, 0x6f, 0x6e, 0x69, 0x63]

section Seeds

variable (sha256 : Bytes → Vector UInt8 32) (list : WordList)
  (pbkdf2HmacSha512 : Bytes → Bytes → ℕ → ℕ → Bytes)

/-- `MnemonicToSeed` -/
def mnemonicToSeed (mnemonic passphrase : Bytes) : Bytes :=
  pbkdf2HmacSha512 mnemonic (mnemonicSalt ++ passphrase) 2048 64

/-- The library of the wallet with the functions for phrases. -/
def WalletLibrary.withPhrases (library : WalletLibrary) : WalletLibrary :=
  { library with
    checkMnemonic := CorgiCoin.checkMnemonic sha256 list
    mnemonicToSeed := fun mnemonic => CorgiCoin.mnemonicToSeed pbkdf2HmacSha512 mnemonic [] }

/-! ## The web wallet -/

namespace WebWallet

/-- `text.trim()` -/
def trim (text : Bytes) : Bytes :=
  ((text.dropWhile isSpaceByte).reverse.dropWhile isSpaceByte).reverse

/-- `text.replace(/\\s+/g, " ")`, where `fSpace` says that a space was written last. -/
def replaceSpaces : Bytes → Bool → Bytes
  | [], _ => []
  | c :: text, fSpace =>
    if isSpaceByte c then
      if fSpace then replaceSpaces text true else 32 :: replaceSpaces text true
    else c :: replaceSpaces text false

def validateMnemonicWords (mnemonic : Bytes) : Bool :=
  let words := split (trim mnemonic)
  [12, 15, 18, 21, 24].contains words.length && words.all (fun w => (list.wordIndex w).isSome)

/-- `mnemonicToSeed`, where normal forms and UTF-8 leave ASCII text as it is. -/
def mnemonicToSeed (mnemonic passphrase : Bytes) : Bytes :=
  pbkdf2HmacSha512 mnemonic (mnemonicSalt ++ passphrase) 2048 64

/-- The seed of the wallet that the page opens for what was typed. -/
def openSeed (value : Bytes) : Option Bytes :=
  let mn := replaceSpaces (trim value) false
  if !validateMnemonicWords list mn then none else some (mnemonicToSeed pbkdf2HmacSha512 mn [])

end WebWallet

end Seeds

/-! ## Words with single spaces -/

/-- Words with a single space between them. -/
def joinWords (words : List Bytes) : Bytes := words.foldl appendWord []

/-- The words of a phrase are typed with single spaces and with nothing around them. -/
def SingleSpaced (mnemonic : Bytes) : Prop := joinWords (split mnemonic) = mnemonic

variable {words : List Bytes}

theorem foldl_appendWord (h : ∀ w ∈ words, w ≠ []) {out : Bytes} (hout : out ≠ []) :
  words.foldl appendWord out = out ++ (words.map (fun w => 32 :: w)).flatten
  := by
  induction words generalizing out with
  | nil => simp
  | cons w words ih =>
    obtain ⟨hw, hwords⟩ := List.forall_mem_cons.mp h
    have hne : out.isEmpty = false := List.isEmpty_eq_false_iff.mpr hout
    have happend : appendWord out w = out ++ [32] ++ w := by
      rw [appendWord, hne, if_neg Bool.false_ne_true]
    rw [List.foldl_cons, ih hwords (by rw [happend]; simp), happend]
    simp

variable {w : Bytes}

theorem joinWords_cons (hw : w ≠ []) (h : ∀ w ∈ words, w ≠ []) :
  joinWords (w :: words) = w ++ (words.map (fun w => 32 :: w)).flatten
  := by
  have hfirst : appendWord [] w = w := rfl
  rw [joinWords, List.foldl_cons, hfirst, foldl_appendWord h hw]

theorem joinWords_cons_of_ne_nil
    (hw : w ≠ []) (h : ∀ w ∈ words, w ≠ []) (hne : words ≠ []) :
  joinWords (w :: words) = w ++ 32 :: joinWords words
  := by
  obtain ⟨w', words, rfl⟩ := List.exists_cons_of_ne_nil hne
  obtain ⟨hw', hwords⟩ := List.forall_mem_cons.mp h
  rw [joinWords_cons hw h, joinWords_cons hw' hwords, List.map_cons, List.flatten_cons,
    List.cons_append]

variable {s word : Bytes}

theorem isWord_of_mem_splitLoop
    (hw : ∀ c ∈ w, isSpaceByte c = false) (h : word ∈ splitLoop s w) :
  IsWord word
  := by
  induction s generalizing w with
  | nil =>
    rw [splitLoop] at h
    split_ifs at h with hempty
    · cases h
    · rw [List.mem_singleton.mp h]
      exact ⟨fun hnil => hempty (List.isEmpty_iff.mpr hnil), hw⟩
  | cons c s ih =>
    have hnil : ∀ c ∈ ([] : Bytes), isSpaceByte c = false := List.forall_mem_nil _
    rw [splitLoop] at h
    split_ifs at h with hspace hempty
    · apply ih hnil h
    · rcases List.mem_cons.mp h with rfl | h
      · exact ⟨fun hnil => hempty (List.isEmpty_iff.mpr hnil), hw⟩
      · apply ih hnil h
    · apply ih _ h
      intro c' hc'
      rcases List.mem_append.mp hc' with hc' | hc'
      · apply hw c' hc'
      · rw [List.mem_singleton.mp hc']
        apply Bool.eq_false_iff.mpr hspace

theorem isWord_of_mem_split (h : word ∈ split s) : IsWord word :=
  isWord_of_mem_splitLoop (List.forall_mem_nil _) h

theorem ne_nil_of_mem_split (h : word ∈ split s) : word ≠ [] :=
  (isWord_of_mem_split h).1

theorem split_joinWords (s : Bytes) : split (joinWords (split s)) = split s :=
  split_foldl_appendWord fun _ => isWord_of_mem_split

theorem splitLoop_ne_nil (s : Bytes) (hw : w ≠ []) : splitLoop s w ≠ []
  := by
  induction s generalizing w with
  | nil => simp [splitLoop, hw]
  | cons c s ih =>
    rw [splitLoop]
    split_ifs with hspace hempty
    · apply absurd (List.isEmpty_iff.mp hempty) hw
    · apply List.cons_ne_nil
    · apply ih (by simp)

/-! ## What the page makes of a phrase -/

namespace WebWallet

/-- Runs of spaces inside a text that does not end with one. -/
theorem replaceSpaces_eq (s : Bytes) (hlast : ∀ c ∈ s.getLast?, isSpaceByte c = false) :
  (∀ w, w ≠ [] → (∀ c ∈ w, isSpaceByte c = false) →
      w ++ replaceSpaces s false = joinWords (splitLoop s w))
    ∧ (s ≠ [] → replaceSpaces s true = joinWords (split s) ∧ split s ≠ [])
  := by
  induction s with
  | nil =>
    refine ⟨?_, fun hne => absurd rfl hne⟩
    intro w hw _
    rw [splitLoop, if_neg (by simpa using hw), joinWords_cons hw (List.forall_mem_nil _)]
    rfl
  | cons c s ih =>
    cases hspace : isSpaceByte c with
    | true =>
      have hne : s ≠ [] := by
        rintro rfl
        have hfalse := hlast c rfl
        rw [hspace] at hfalse
        cases hfalse
      have hlast' : ∀ c ∈ s.getLast?, isSpaceByte c = false := by
        intro c' hc'
        apply hlast c'
        rwa [List.getLast?_cons_of_ne_nil hne]
      obtain ⟨_, hjoin⟩ := ih hlast'
      obtain ⟨hreplace, hwords⟩ := hjoin hne
      constructor
      · intro w hw _
        rw [replaceSpaces, splitLoop, hspace, if_pos rfl, if_pos rfl, if_neg Bool.false_ne_true,
          if_neg (by simpa using hw), hreplace]
        apply (joinWords_cons_of_ne_nil hw (fun _ => ne_nil_of_mem_split) hwords).symm
      · intro _
        rw [replaceSpaces, split, splitLoop, hspace, if_pos rfl, if_pos rfl, if_pos rfl,
          List.isEmpty_nil, if_pos rfl]
        exact ⟨hreplace, hwords⟩
    | false =>
      have hlast' : ∀ c ∈ s.getLast?, isSpaceByte c = false := by
        intro c' hc'
        apply hlast c'
        rw [List.getLast?_cons_of_ne_nil]
        · apply hc'
        · rintro rfl
          cases hc'
      obtain ⟨hreplace, _⟩ := ih hlast'
      constructor
      · intro w hw hletters
        rw [replaceSpaces, splitLoop, hspace, if_neg Bool.false_ne_true, if_neg Bool.false_ne_true,
          ← hreplace (w ++ [c]) (by simp), List.append_assoc, List.singleton_append]
        intro c' hc'
        rcases List.mem_append.mp hc' with hc' | hc'
        · apply hletters c' hc'
        · rw [List.mem_singleton.mp hc', hspace]
      · intro _
        rw [replaceSpaces, split, splitLoop, hspace, if_neg Bool.false_ne_true,
          if_neg Bool.false_ne_true, List.nil_append]
        constructor
        · rw [← hreplace [c] (List.cons_ne_nil _ _), List.singleton_append]
          intro c' hc'
          rw [List.mem_singleton.mp hc', hspace]
        · apply splitLoop_ne_nil s (List.cons_ne_nil _ _)

theorem split_append_spaces {spaces : Bytes} (h : ∀ c ∈ spaces, isSpaceByte c = true) (s : Bytes) :
  split (s ++ spaces) = split s
  := by
  induction spaces generalizing s with
  | nil => rw [List.append_nil]
  | cons c spaces ih =>
    obtain ⟨hc, hspaces⟩ := List.forall_mem_cons.mp h
    have hnone : split spaces = [] := ih hspaces []
    rw [split, splitLoop_space hc, hnone, List.append_nil, split]

theorem split_dropWhile (s : Bytes) : split (s.dropWhile isSpaceByte) = split s
  := by
  induction s with
  | nil => rfl
  | cons c s ih =>
    rw [List.dropWhile_cons]
    split_ifs with hspace
    · rw [ih, split, split, splitLoop, if_pos hspace, List.isEmpty_nil, if_pos rfl]
    · rfl

theorem split_trim (s : Bytes) : split (trim s) = split s
  := by
  have hsplit := List.takeWhile_append_dropWhile (p := isSpaceByte)
    (l := (s.dropWhile isSpaceByte).reverse)
  have hreverse := congrArg List.reverse hsplit
  rw [List.reverse_append, List.reverse_reverse] at hreverse
  have hspaces : ∀ c ∈ ((s.dropWhile isSpaceByte).reverse.takeWhile isSpaceByte).reverse,
      isSpaceByte c = true := by
    intro c hc
    apply List.mem_takeWhile_imp (List.mem_reverse.mp hc)
  rw [← split_dropWhile s, ← hreverse, split_append_spaces hspaces, trim]

theorem not_space_of_head?_dropWhile {s : Bytes} {c : UInt8}
    (h : (s.dropWhile isSpaceByte).head? = some c) :
  isSpaceByte c = false
  := by
  have hhead := List.head?_dropWhile_not isSpaceByte s
  rw [h] at hhead
  apply hhead

theorem getLast?_trim (s : Bytes) : ∀ c ∈ (trim s).getLast?, isSpaceByte c = false
  := by
  intro c hc
  rw [trim, List.getLast?_reverse] at hc
  apply not_space_of_head?_dropWhile hc

/-- Spaces are taken from the end of what starts without one. -/
theorem head?_trim (s : Bytes) : ∀ c ∈ (trim s).head?, isSpaceByte c = false
  := by
  intro c hc
  have hprefix : trim s <+: s.dropWhile isSpaceByte := by
    have hsuffix := List.dropWhile_suffix isSpaceByte (l := (s.dropWhile isSpaceByte).reverse)
    have hreverse := List.reverse_prefix.mpr hsuffix
    rwa [List.reverse_reverse] at hreverse
  obtain ⟨rest, hrest⟩ := hprefix
  apply not_space_of_head?_dropWhile (s := s)
  rw [← hrest, List.head?_append, hc, Option.some_or]

/-- The page puts single spaces between the words and takes away what is around them. -/
theorem replaceSpaces_trim (s : Bytes) : replaceSpaces (trim s) false = joinWords (split s)
  := by
  have hhead := head?_trim s
  have hlast := getLast?_trim s
  rw [← split_trim s]
  cases htrim : trim s with
  | nil => rfl
  | cons c text =>
    rw [htrim] at hhead hlast
    obtain ⟨hreplace, _⟩ := (replaceSpaces_eq (c :: text) hlast).2 (List.cons_ne_nil _ _)
    have hc : isSpaceByte c = false := hhead c rfl
    rw [← hreplace, replaceSpaces, replaceSpaces, hc]
    rfl

section Seeds

variable {sha256 : Bytes → Vector UInt8 32} {list : WordList}

theorem validateMnemonicWords_of_checkMnemonic
    {s : Bytes} (h : checkMnemonic sha256 list s = true) :
  validateMnemonicWords list (joinWords (split s)) = true
  := by
  obtain ⟨idxs, hlt, hwords, m, hlow, hhigh, hlength, _⟩ := (checkMnemonic_iff s).mp h
  rw [validateMnemonicWords, split_trim, split_joinWords]
  rw [Bool.and_eq_true]
  constructor
  · have hcount : (split s).length = 3 * m := by rw [hwords, List.length_map, hlength]
    rw [hcount, List.contains_iff_mem]
    simp only [List.mem_cons, List.not_mem_nil, or_false]
    omega
  · rw [List.all_eq_true, hwords]
    intro w hw
    obtain ⟨idx, hidx, rfl⟩ := List.mem_map.mp hw
    rw [list.wordIndex_eq_some_iff.mpr ⟨hlt idx hidx, rfl⟩]
    rfl

/-- The page takes the seed of the words with single spaces. -/
theorem openSeed_of_checkMnemonic
    (pbkdf2HmacSha512 : Bytes → Bytes → ℕ → ℕ → Bytes) {s : Bytes}
    (h : checkMnemonic sha256 list s = true) :
  openSeed list pbkdf2HmacSha512 s
    = some (CorgiCoin.mnemonicToSeed pbkdf2HmacSha512 (joinWords (split s)) [])
  := by
  rw [openSeed, replaceSpaces_trim, validateMnemonicWords_of_checkMnemonic h]
  rfl

end Seeds

end WebWallet

/-! ## The same words -/

section SameWords

variable (sha256 : Bytes → Vector UInt8 32) (list : WordList)

/-- Two phrases restore the same wallet: any wallet gets the same master key from them, which is
that of the seed that the web wallet gets from them. -/
def RestoresSame
    (library : WalletLibrary) (pbkdf2HmacSha512 : Bytes → Bytes → ℕ → ℕ → Bytes) (s s' : Bytes) :
  Prop :=
  let library := library.withPhrases sha256 list pbkdf2HmacSha512
  ∀ w : CWallet, w.isLocked = false →
    ∃ seed master,
      WebWallet.openSeed list pbkdf2HmacSha512 s = some seed
        ∧ WebWallet.openSeed list pbkdf2HmacSha512 s' = some seed
        ∧ (w.setHDSeedFromMnemonic library s).1.hdMasterKey = some master
        ∧ (w.setHDSeedFromMnemonic library s').1.hdMasterKey = some master
        ∧ WebWallet.Agrees (WebWallet.masterFromSeed library.toKeyLibrary seed) master

variable {sha256 list}

theorem hdMasterKey_writeHDSeed (library : WalletLibrary) (w : CWallet) (mnemonic : Bytes) :
  (w.writeHDSeed library mnemonic).1.hdMasterKey = w.hdMasterKey
  := by
  rw [CWallet.writeHDSeed]
  split_ifs
  · cases encryptSecret library w.vMasterKey mnemonic (hdSeedIV w.hdSeedId) with
    | none => rfl
    | some ct => rfl
  · rfl

/-- The wallet takes the seed of the phrase as it was typed. -/
theorem hdMasterKey_setHDSeedFromMnemonic
    (library : WalletLibrary) (pbkdf2HmacSha512 : Bytes → Bytes → ℕ → ℕ → Bytes)
    {w : CWallet} (hlocked : w.isLocked = false) {s : Bytes}
    (h : checkMnemonic sha256 list s = true) :
  (w.setHDSeedFromMnemonic (library.withPhrases sha256 list pbkdf2HmacSha512) s).1.hdMasterKey
    = some (CExtKey.setSeed library.toKeyLibrary (mnemonicToSeed pbkdf2HmacSha512 s []))
  := by
  have hcheck : (library.withPhrases sha256 list pbkdf2HmacSha512).checkMnemonic s = true := h
  rw [CWallet.setHDSeedFromMnemonic, hcheck, hlocked, Bool.and_false, Bool.not_true,
    if_neg Bool.false_ne_true, if_neg Bool.false_ne_true, hdMasterKey_writeHDSeed]
  rfl

variable {s' : Bytes}

theorem restoresSame_of_singleSpaced
    (library : WalletLibrary) (pbkdf2HmacSha512 : Bytes → Bytes → ℕ → ℕ → Bytes) {s : Bytes}
    (h : checkMnemonic sha256 list s = true) (h' : checkMnemonic sha256 list s' = true)
    (hwords : split s = split s') (hspaced : SingleSpaced s) (hspaced' : SingleSpaced s') :
  RestoresSame sha256 list library pbkdf2HmacSha512 s s'
  := by
  have hsame : s = s' := by rw [← hspaced, hwords, hspaced']
  subst hsame
  intro w hlocked
  have hopen := WebWallet.openSeed_of_checkMnemonic pbkdf2HmacSha512 h
  rw [hspaced] at hopen
  have hmaster := hdMasterKey_setHDSeedFromMnemonic library pbkdf2HmacSha512 hlocked h
  exact ⟨_, _, hopen, hopen, hmaster, hmaster, WebWallet.masterFromSeed_agrees _⟩

/-! ### Telling phrases apart -/

/-- A key derivation that tells one phrase from every other one. -/
def tellApart (s : Bytes) : Bytes → Bytes → ℕ → ℕ → Bytes :=
  fun mnemonic _ _ _ => if mnemonic = s then [1] else []

/-- The functions of a library with a hash that tells one seed from every other one. -/
def WalletLibrary.tellingApart (library : WalletLibrary) : WalletLibrary :=
  { library with
    hmacSha512 := fun _ data => List.replicate 64 (if data = [1] then 1 else 0)
    length_hmacSha512 := fun _ _ => List.length_replicate }

/-- A phrase that gives the seed of the web wallet, whatever the functions are, is typed with single
spaces. -/
theorem singleSpaced_of_restoresSame
    {s : Bytes} (h : checkMnemonic sha256 list s = true) (library : WalletLibrary)
    (hrestores : RestoresSame sha256 list library.tellingApart (tellApart s) s s') :
  SingleSpaced s
  := by
  obtain ⟨seed, master, hopen, _, hmaster, _, hagrees⟩ := hrestores (CWallet.new WalletDB.empty) rfl
  rw [WebWallet.openSeed_of_checkMnemonic _ h] at hopen
  rw [hdMasterKey_setHDSeedFromMnemonic _ _ rfl h] at hmaster
  cases hopen
  cases hmaster
  by_contra hne
  have hwallet : mnemonicToSeed (tellApart s) s [] = [1] := if_pos rfl
  have hweb : mnemonicToSeed (tellApart s) (joinWords (split s)) [] = [] := if_neg hne
  have hchain := hagrees.chainCode
  rw [hwallet, hweb] at hchain
  have hbytes : List.replicate 32 (0 : UInt8) = List.replicate 32 1 := hchain
  revert hbytes
  decide

theorem RestoresSame.symm
    {library : WalletLibrary} {pbkdf2HmacSha512 : Bytes → Bytes → ℕ → ℕ → Bytes} {s : Bytes}
    (h : RestoresSame sha256 list library pbkdf2HmacSha512 s s') :
  RestoresSame sha256 list library pbkdf2HmacSha512 s' s
  := by
  intro w hlocked
  obtain ⟨seed, master, hopen, hopen', hmaster, hmaster', hagrees⟩ := h w hlocked
  exact ⟨seed, master, hopen', hopen, hmaster', hmaster, hagrees⟩

/-- Two accepted phrases with the same words restore the same wallet, whatever the functions that
hash them are, exactly when both are typed with single spaces and with nothing around them. -/
theorem restoresSame_iff
    {s s' : Bytes} (h : checkMnemonic sha256 list s = true)
    (h' : checkMnemonic sha256 list s' = true) (hwords : split s = split s') :
  (∀ library pbkdf2HmacSha512, RestoresSame sha256 list library pbkdf2HmacSha512 s s')
    ↔ SingleSpaced s ∧ SingleSpaced s'
  := by
  constructor
  · intro hrestores
    constructor
    · apply singleSpaced_of_restoresSame h CWallet.sampleWalletLibrary (hrestores _ _)
    · apply singleSpaced_of_restoresSame h' CWallet.sampleWalletLibrary (hrestores _ _).symm
  · rintro ⟨hspaced, hspaced'⟩ library pbkdf2HmacSha512
    apply restoresSame_of_singleSpaced library pbkdf2HmacSha512 h h' hwords hspaced hspaced'

end SameWords

/-! ### A space after a phrase -/

/-- A letter, counted from `a`. -/
def letter (d : ℕ) : UInt8 := UInt8.ofNat (97 + d)

theorem toNat_letter {d : ℕ} (h : d < 26) : (letter d).toNat = 97 + d
  := by
  apply UInt8.toNat_ofNat_of_lt'
  calc 97 + d < 97 + 26 := Nat.add_lt_add_left h 97
    _ ≤ UInt8.size := by decide

theorem letter_inj {d d' : ℕ} (hd : d < 26) (hd' : d' < 26) (h : letter d = letter d') : d = d'
  := by
  have hnat := congrArg UInt8.toNat h
  rw [toNat_letter hd, toNat_letter hd'] at hnat
  apply Nat.add_left_cancel hnat

/-- The letters of a number of three digits in base 26. -/
def threeLetters (i : ℕ) : Bytes := [letter (i / 676), letter (i / 26 % 26), letter (i % 26)]

/-- Words of three letters. -/
def sampleWordList : WordList where
  word i := threeLetters i
  injective i j h := by
    obtain ⟨hfirst, h⟩ := List.cons.inj h
    obtain ⟨hsecond, h⟩ := List.cons.inj h
    obtain ⟨hthird, _⟩ := List.cons.inj h
    have hi := i.isLt
    have hj := j.isLt
    have hfirst := letter_inj (by omega) (by omega) hfirst
    have hsecond := letter_inj (by omega) (by omega) hsecond
    have hthird := letter_inj (by omega) (by omega) hthird
    apply Fin.ext
    omega
  ne_nil _ := List.cons_ne_nil _ _
  letters i c hc := by
    have hi := i.isLt
    obtain ⟨d, hd, rfl⟩ : ∃ d < 26, c = letter d := by
      simp only [threeLetters, List.mem_cons, List.not_mem_nil, or_false] at hc
      rcases hc with rfl | rfl | rfl
      · exact ⟨_, by omega, rfl⟩
      · exact ⟨_, by omega, rfl⟩
      · exact ⟨_, by omega, rfl⟩
    rw [toNat_letter hd]
    omega

def zeroHash : Bytes → Vector UInt8 32 := fun _ => Vector.replicate 32 0

/-- The first word twelve times. -/
def samplePhrase : Bytes := joinWords (List.replicate 12 (threeLetters 0))

theorem checkMnemonic_of_samplePhrase (hwords : split s = split samplePhrase) :
  checkMnemonic zeroHash sampleWordList s = true
  := by
  rw [checkMnemonic_iff]
  refine ⟨List.replicate 12 0, by decide, ?_, 4, by decide, by decide, by decide, by decide⟩
  rw [hwords]
  decide

theorem restoresSame_samplePhrase :
  checkMnemonic zeroHash sampleWordList samplePhrase = true
    ∧ ∀ library pbkdf2HmacSha512,
        RestoresSame zeroHash sampleWordList library pbkdf2HmacSha512 samplePhrase samplePhrase
  := by
  have hcheck := checkMnemonic_of_samplePhrase rfl
  have hspaced : SingleSpaced samplePhrase := by
    rw [SingleSpaced]
    decide
  exact ⟨hcheck, (restoresSame_iff hcheck hcheck rfl).mpr ⟨hspaced, hspaced⟩⟩

/-- With a space after it the same phrase is accepted, and opens another wallet. -/
theorem not_restoresSame :
  ¬∀ (sha256 : Bytes → Vector UInt8 32) (list : WordList) (s s' : Bytes),
    checkMnemonic sha256 list s = true → checkMnemonic sha256 list s' = true →
    split s = split s' →
    ∀ library pbkdf2HmacSha512, RestoresSame sha256 list library pbkdf2HmacSha512 s s'
  := by
  intro hclaim
  have hspace : ∀ c ∈ [(32 : UInt8)], isSpaceByte c = true := by
    intro c hc
    rw [List.mem_singleton.mp hc]
    rfl
  have hspaces : split (samplePhrase ++ [32]) = split samplePhrase :=
    WebWallet.split_append_spaces hspace samplePhrase
  have hcheck := checkMnemonic_of_samplePhrase hspaces
  have hrestores := hclaim zeroHash sampleWordList (samplePhrase ++ [32]) samplePhrase hcheck
    (checkMnemonic_of_samplePhrase rfl) hspaces
  have hspaced := singleSpaced_of_restoresSame hcheck CWallet.sampleWalletLibrary (hrestores _ _)
  rw [SingleSpaced] at hspaced
  revert hspaced
  decide

end CorgiCoin
