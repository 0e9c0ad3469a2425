import CorgiCoin.DumpText
import CorgiCoin.KeyPool
import CorgiCoin.MoneyText

/-!
# Dumping a wallet and importing it

`DumpWalletToFile` writes a line for every key of a wallet, with its label where the address book has
one, and `ImportWalletFromFile` adds the keys of such a file to a wallet and scans the chain for their
transactions.  An import restores the keys with their compression and the labels.  The scan may take a
new key as the default key of the wallet, where a transaction pays to the one it has.
-/

namespace CorgiCoin

open Std Transition TreeMap

/-- A wallet and its address book. -/
structure DumpWallet where
  wallet : CWallet
  mapAddressBook : ExtTreeMap CTxDestination Bytes

/-- How a call ends: it returns true or false, or it throws. -/
inductive Outcome (α : Type)
  | ok (a : α)
  | error (strError : String)
  | exception

/-- What the comments of a dump say of the program and the chain. -/
structure DumpHeader where
  /-- `FormatFullVersion()` -/
  version : List Char
  /-- The time of the dump, as `DateTimeStrFormat` writes it. -/
  created : List Char
  nBestHeight : Int32
  hashBestChain : uint256
  version_line : '\n' ∉ version
  created_line : '\n' ∉ created

namespace DumpWallet

variable (library : WalletLibrary) (crypto : Crypto) (fTestNet : Bool)

/-! ## The dump -/

/-- `GetSecret`, as a key with its compression; `none` where it returns false. -/
def getSecret (w : CWallet) (keyid : CKeyID) : Option CKey :=
  (w.getKey library keyid KeyObject.reset).bind KeyObject.key?

/-- `GetAllReserveKeys`; `none` where it throws or an assertion fails. -/
def getAllReserveKeys (w : CWallet) : Option (List CKeyID) :=
  w.setKeyPool.toList.mapM fun id => do
    let vchPubKey ← w.db.pool[id]?
    let keyID := library.hash160 vchPubKey
    if CPubKey.isValid vchPubKey && w.haveKey keyID then some keyID else none

/-- `CBitcoinSecret(secret, fCompressed).ToString()` -/
def secretString (key : CKey) : List Char :=
  encodeBase58Check crypto
    ((if fTestNet then PRIVKEY_ADDRESS_TEST else PRIVKEY_ADDRESS) ::
      (key.getSecret ++ if key.fCompressed then [1] else []))

/-- The field that says what a key is used for. -/
def strKind (s : DumpWallet) (setReserve : List CKeyID) (keyid : CKeyID) : List Char :=
  match s.mapAddressBook[CTxDestination.CKeyID keyid]? with
  | some label => "label=".toList ++ encodeDumpString label
  | none => if setReserve.contains keyid then "reserve=1".toList else "change=1".toList

def strTime : List Char := "1970-01-01T00:00:01Z".toList

/-- The line of a key. -/
def keyLine (s : DumpWallet) (setReserve : List CKeyID) (keyid : CKeyID) (key : CKey) : List Char :=
  secretString crypto fTestNet key ++ ' ' :: (strTime ++ ' ' :: (s.strKind setReserve keyid ++
    ' ' :: ("#".toList ++ ' ' :: ("addr=".toList ++ addressOfKeyID crypto fTestNet keyid))))

/-- The comments in front of the keys. -/
def headerLines (header : DumpHeader) (w : CWallet) : List (List Char) :=
  ["# Wallet dump created by CorgiCoin ".toList ++ header.version,
    "# * Created on ".toList ++ header.created,
    "# * Best block at time of backup was ".toList ++ formatInt64 header.nBestHeight.toInt64 ++ " (".toList
      ++ WebWallet.getHex header.hashBestChain ++ "),".toList] ++
  (if w.fHDEnabled then
    ["# * HD seed id ".toList ++ Hex.toHex (serializeUint160 w.hdSeedId).reverse
        ++ ". The recovery phrase is not in this file;".toList,
      "#   keys derived after this dump are only recoverable from the phrase.".toList]
  else []) ++
  [[]]

/-- The keys of a wallet in the order of their ids. -/
def setKeys (w : CWallet) : List CKeyID := (ExtTreeSet.ofList w.getKeys).toList

/-- The lines of the keys; a key whose secret cannot be read has none. -/
def keyLines (s : DumpWallet) (setReserve : List CKeyID) : List (List Char) :=
  (setKeys s.wallet).filterMap fun keyid =>
    (getSecret library s.wallet keyid).map (s.keyLine crypto fTestNet setReserve keyid)

/-- `DumpWalletToFile`, with the file that it writes. -/
def dumpWalletToFile (header : DumpHeader) (path : String) (fExists fOverwrite : Bool)
    (s : DumpWallet) : Outcome (List Char) :=
  if s.wallet.isLocked then .error "Wallet is locked"
  else if !fOverwrite && fExists then
    .error (path ++
      " already exists. Choose a new filename so an existing file is never overwritten.")
  else
    match getAllReserveKeys library s.wallet with
    | none => .exception
    | some setReserve =>
      .ok ((headerLines header s.wallet ++ s.keyLines library crypto fTestNet setReserve ++
        [[], "# End of dump".toList]).flatMap (fun line => line ++ ['\n']))

/-! ## The import -/

/-- What the loop of `ImportWalletFromFile` works on. -/
structure Import where
  s : DumpWallet
  nImported : ℕ := 0
  fGood : Bool := true

/-- The label among the fields of a line, up to a comment. -/
def fieldLabel : List (List Char) → Option Bytes → Option Bytes
  | [], strLabel => strLabel
  | tok :: vstr, strLabel =>
    if tok.head? == some '#' then strLabel
    else
      fieldLabel vstr
        (if tok.take 6 = "label=".toList then some (decodeDumpString (tok.drop 6)) else strLabel)

/-- One line of the file. -/
def importLine (state : Import) (line : List Char) : Import :=
  if line.isEmpty || line.head? == some '#' then state
  else
    match words line with
    | strSecret :: _ :: vstr =>
      match keyOfSecretString crypto fTestNet strSecret with
      | none => { state with fGood := false }
      | some key =>
        let keyid := key.getID library.toKeyLibrary
        if state.s.wallet.haveKey keyid then state
        else
          match state.s.wallet.addKey library key with
          | (w, false) => { state with s := { state.s with wallet := w }, fGood := false }
          | (w, true) =>
            { state with
              s :=
                { wallet := w
                  mapAddressBook :=
                    match fieldLabel vstr none with
                    | none => state.s.mapAddressBook
                    | some strLabel => state.s.mapAddressBook.insert (.CKeyID keyid) strLabel }
              nImported := state.nImported + 1 }
    | _ => state

/-- The keys that `MakeNewKey` makes where an output asks for a key of the pool, and `-keypool`. -/
structure Draw where
  nKeys : ℕ
  rands : ℕ → ValidKey
  rand : ValidKey

/-- The outputs of a transaction that `AddToWallet` goes through: where one pays to the default key,
this is replaced by one of the pool.  The wallet is unlocked, so that `GetKeyFromPool` fails by an
exception only. -/
def replaceDefaultKey (scriptDefaultKey : CScript) :
    List (CTxOut × Draw) → DumpWallet → DumpWallet × Bool
  | [], s => (s, true)
  | (txout, draw) :: vout, s =>
    if txout.scriptPubKey = scriptDefaultKey then
      match s.wallet.getKeyFromPool library false draw.nKeys (fun i => draw.rands i) draw.rand with
      | (w, .failed) => ({ s with wallet := w }, false)
      | (w, .reused newDefaultKey) | (w, .key newDefaultKey) =>
        replaceDefaultKey scriptDefaultKey vout
          { wallet :=
              { w with
                vchDefaultKey := newDefaultKey
                db := { w.db with defaultkey := newDefaultKey } }
            mapAddressBook := s.mapAddressBook.insert (.CKeyID (library.hash160 newDefaultKey)) [] }
    else replaceDefaultKey scriptDefaultKey vout s

/-- What `AddToWallet` does to the keys and the address book.  In the program with the GUI it leaves
them alone. -/
def addToWallet (fQtGui : Bool) (s : DumpWallet) (vout : List (CTxOut × Draw)) : DumpWallet × Bool :=
  if fQtGui then (s, true)
  else
    replaceDefaultKey library (scriptForKeyID (library.hash160 s.wallet.vchDefaultKey)) vout s

/-- `RescanWallet`, where `found` are the outputs of the transactions that it adds to the wallet. -/
def rescanWallet (fQtGui : Bool) : List (List (CTxOut × Draw)) → DumpWallet → DumpWallet × Bool
  | [], s => (s, true)
  | vout :: found, s =>
    match addToWallet library fQtGui s vout with
    | (s, false) => (s, false)
    | (s, true) => rescanWallet fQtGui found s

/-- `ImportWalletFromFile`, with the number of keys that it imports; a file that cannot be opened is
`none`. -/
def importWalletFromFile (fQtGui : Bool) (found : List (List (CTxOut × Draw)))
    (file : Option (List Char)) (s : DumpWallet) : DumpWallet × ℕ × Outcome Unit :=
  if s.wallet.isLocked then (s, 0, .error "Wallet is locked")
  else
    match file with
    | none => (s, 0, .error "Cannot open wallet dump file")
    | some file =>
      let state := (getLines file).foldl (importLine library crypto fTestNet) { s }
      let (s, fDone) :=
        if state.nImported > 0 then rescanWallet library fQtGui found state.s else (state.s, true)
      if !fDone then (s, state.nImported, .exception)
      else if !state.fGood then (s, state.nImported, .error "Error adding some keys to wallet")
      else (s, state.nImported, .ok ())

/-! ## What a line holds -/

variable {library} {crypto} {fTestNet}

theorem mem_encodeBase58 {vch : Bytes} {c : Char} (h : c ∈ encodeBase58 vch) :
  ∃ d < 58, c = base58Char d
  := by
  rw [encodeBase58_eq_map] at h
  obtain ⟨d, hd, rfl⟩ := List.mem_map.mp h
  refine ⟨d, ?_, rfl⟩
  rcases List.mem_append.mp hd with hd | hd
  · rw [List.eq_of_mem_replicate hd]
    decide
  · apply base58Digits_lt hd

theorem encodeBase58_ne_nil {vch : Bytes} (h : vch ≠ []) : encodeBase58 vch ≠ []
  := by
  intro hnil
  have hread := decodeBase58_encodeBase58 vch
  have hempty : decodeBase58 [] = some [] := by rfl
  rw [hnil, hempty] at hread
  apply h (Option.some.inj hread).symm

/-- What is written in base58 is a word, and no comment. -/
theorem isField_encodeBase58Check (crypto : Crypto) (b : UInt8) (vch : Bytes) :
  IsField (encodeBase58Check crypto (b :: vch)) ∧ '#' ∉ encodeBase58Check crypto (b :: vch)
  := by
  have hmark : ∀ d < 58, base58Char d ≠ '#' := by decide
  refine ⟨⟨encodeBase58_ne_nil (by simp), ?_⟩, ?_⟩
  · intro c hc
    obtain ⟨d, hd, rfl⟩ := mem_encodeBase58 hc
    apply (base58Char_spec d hd).2.1
  · intro hc
    obtain ⟨d, hd, heq⟩ := mem_encodeBase58 hc
    apply hmark d hd heq.symm

variable {key : CKey}

/-- The secret of a key is read back with its compression. -/
theorem keyOfSecretString_secretString (h : key.Valid) :
  keyOfSecretString crypto fTestNet (secretString crypto fTestNet key) = some key
  := by
  have hlength := CWallet.length_getSecret key
  have hsecret := CWallet.ofBE_getSecret h
  rw [keyOfSecretString, CBitcoinAddress.setBase58, secretString,
    decodeBase58Check_encodeBase58Check]
  obtain ⟨secret, fCompressed⟩ := key
  have htake := List.take_of_length_le hlength.le
  cases fTestNet <;> cases fCompressed <;>
    simp [PRIVKEY_ADDRESS, PRIVKEY_ADDRESS_TEST, PUBKEY_ADDRESS, PUBKEY_ADDRESS_TEST, hlength,
      CKey.setSecret, hsecret, htake]

theorem isspace_of_visible {c : Char} (h : 32 < c.toNat) : isspace c = false
  := by
  have hspace : c ≠ ' ' := by
    rintro rfl
    exact absurd h (by decide)
  rw [isspace, Bool.or_eq_false_iff, beq_eq_false_iff_ne, Bool.and_eq_false_iff, decide_eq_false_iff_not,
    decide_eq_false_iff_not]
  exact ⟨hspace, .inr (by omega)⟩

theorem isField_strKind (s : DumpWallet) (setReserve : List CKeyID) (keyid : CKeyID) :
  IsField (s.strKind setReserve keyid)
  := by
  rw [strKind]
  split
  · have hlabel : IsField "label=".toList := isField_of_all (by decide) (by decide)
    refine ⟨List.append_ne_nil_of_left_ne_nil (by decide) _, ?_⟩
    intro c hc
    rcases List.mem_append.mp hc with hc | hc
    · apply hlabel.2 c hc
    · apply isspace_of_visible (mem_encodeDumpString hc).1
  · split_ifs
    · apply isField_of_all (by decide) (by decide)
    · apply isField_of_all (by decide) (by decide)

theorem isField_secretString (key : CKey) : IsField (secretString crypto fTestNet key) :=
  (isField_encodeBase58Check crypto _ _).1

theorem isField_strTime : IsField strTime := isField_of_all (by decide) (by decide)

theorem isField_mark : IsField "#".toList := isField_of_all (by decide) (by decide)

theorem isField_addr (keyid : CKeyID) :
  IsField ("addr=".toList ++ addressOfKeyID crypto fTestNet keyid)
  := by
  have haddr : IsField "addr=".toList := isField_of_all (by decide) (by decide)
  refine ⟨List.append_ne_nil_of_left_ne_nil (by decide) _, ?_⟩
  intro c hc
  rcases List.mem_append.mp hc with hc | hc
  · apply haddr.2 c hc
  · apply (isField_encodeBase58Check crypto _ _).1.2 c hc

theorem words_keyLine (s : DumpWallet) (setReserve : List CKeyID) (keyid : CKeyID) (key : CKey) :
  words (s.keyLine crypto fTestNet setReserve keyid key)
    = [secretString crypto fTestNet key, strTime, s.strKind setReserve keyid, "#".toList,
      "addr=".toList ++ addressOfKeyID crypto fTestNet keyid]
  := by
  rw [keyLine, words_append (isField_secretString key), words_append isField_strTime,
    words_append (isField_strKind ..), words_append isField_mark, words_single (isField_addr keyid)]

/-- The label of the line of a key is the one in the address book. -/
theorem fieldLabel_strKind (s : DumpWallet) (setReserve : List CKeyID) (keyid : CKeyID)
    (comment : List (List Char)) :
  fieldLabel (s.strKind setReserve keyid :: "#".toList :: comment) none
    = s.mapAddressBook[CTxDestination.CKeyID keyid]?
  := by
  rw [strKind]
  cases s.mapAddressBook[CTxDestination.CKeyID keyid]? with
  | some label =>
    have hhead : (("label=".toList ++ encodeDumpString label).head? == some '#') = false := by rfl
    dsimp only
    rw [fieldLabel, hhead, if_neg Bool.false_ne_true, List.take_left' (by rfl), if_pos rfl,
      List.drop_left' (by rfl), decodeDumpString_encodeDumpString]
    rfl
  | none =>
    dsimp only
    split_ifs <;> rfl

theorem newline_not_mem {word : List Char} (h : IsField word) : '\n' ∉ word
  := by
  intro hmem
  have hspace := h.2 _ hmem
  cases hspace

theorem newline_not_mem_keyLine (s : DumpWallet) (setReserve : List CKeyID) (keyid : CKeyID)
    (key : CKey) :
  '\n' ∉ s.keyLine crypto fTestNet setReserve keyid key
  := by
  rw [keyLine]
  simp only [List.mem_append, List.mem_cons, not_or]
  refine ⟨newline_not_mem (isField_secretString key), by decide, newline_not_mem isField_strTime, by decide,
    newline_not_mem (isField_strKind ..), by decide, by decide, by decide, by decide, ?_⟩
  intro hmem
  apply newline_not_mem (isField_addr keyid) (List.mem_append_right _ hmem)

/-- The line of a key is neither empty nor a comment. -/
theorem keyLine_read (s : DumpWallet) (setReserve : List CKeyID) (keyid : CKeyID) (key : CKey) :
  ((s.keyLine crypto fTestNet setReserve keyid key).isEmpty
    || (s.keyLine crypto fTestNet setReserve keyid key).head? == some '#') = false
  := by
  obtain ⟨⟨hne, _⟩, hmark⟩ := isField_encodeBase58Check crypto
    (if fTestNet then PRIVKEY_ADDRESS_TEST else PRIVKEY_ADDRESS)
    (key.getSecret ++ if key.fCompressed then [1] else [])
  obtain ⟨c, rest, hcons⟩ := List.exists_cons_of_ne_nil hne
  have hc : c ≠ '#' := by
    rintro rfl
    rw [hcons] at hmark
    apply hmark List.mem_cons_self
  rw [keyLine, secretString, hcons]
  simp [hc]

/-- What the import does with the line of a key. -/
theorem importLine_keyLine (s : DumpWallet) (setReserve : List CKeyID) (h : key.Valid)
    (state : Import) :
  importLine library crypto fTestNet state
      (s.keyLine crypto fTestNet setReserve (key.getID library.toKeyLibrary) key)
    = if state.s.wallet.haveKey (key.getID library.toKeyLibrary) then state
      else
        match state.s.wallet.addKey library key with
        | (w, false) => { state with s := { state.s with wallet := w }, fGood := false }
        | (w, true) =>
          { state with
            s :=
              { wallet := w
                mapAddressBook :=
                  match s.mapAddressBook[CTxDestination.CKeyID (key.getID library.toKeyLibrary)]? with
                  | none => state.s.mapAddressBook
                  | some strLabel =>
                    state.s.mapAddressBook.insert (.CKeyID (key.getID library.toKeyLibrary)) strLabel }
            nImported := state.nImported + 1 }
  := by
  rw [importLine, keyLine_read, if_neg Bool.false_ne_true, words_keyLine]
  dsimp only
  rw [keyOfSecretString_secretString h, fieldLabel_strKind]

theorem importLine_skip {line : List Char} (h : line = [] ∨ line.head? = some '#') (state : Import) :
  importLine library crypto fTestNet state line = state
  := by
  rw [importLine, if_pos]
  rcases h with rfl | h
  · rfl
  · rw [h, Bool.or_eq_true]
    right
    rfl

/-! ## The lines of a file -/

theorem newline_not_mem_hex (bytes : Bytes) : '\n' ∉ Hex.toHex bytes
  := by
  have hdigit : ∀ n < 16, Hex.hexDigit n ≠ '\n' := by decide
  intro hmem
  obtain ⟨n, hn, heq⟩ := Hex.mem_toHex hmem
  apply hdigit n hn heq.symm

theorem newline_not_mem_decimal (n : Int64) : '\n' ∉ formatInt64 n
  := by
  rw [formatInt64, List.mem_append, not_or]
  constructor
  · split_ifs <;> decide
  · intro hmem
    have hdigit := Nat.isDigit_of_mem_toDigits (by decide) (by decide) hmem
    cases hdigit

/-- A comment or an empty line, without a line break in it. -/
def Skipped (line : List Char) : Prop := '\n' ∉ line ∧ (line = [] ∨ line.head? = some '#')

theorem skipped_headerLines (header : DumpHeader) (w : CWallet) :
  ∀ line ∈ headerLines header w, Skipped line
  := by
  have hversion := header.version_line
  have hcreated := header.created_line
  have hheight := newline_not_mem_decimal header.nBestHeight.toInt64
  have hbest := newline_not_mem_hex (serializeUint256 header.hashBestChain).reverse
  have hseed := newline_not_mem_hex (serializeUint160 w.hdSeedId).reverse
  intro line hline
  simp only [headerLines, List.mem_append, List.mem_cons, List.not_mem_nil, or_false] at hline
  rcases hline with ((rfl | rfl | rfl) | hline) | rfl
  · refine ⟨?_, .inr rfl⟩
    rw [List.mem_append, not_or]
    exact ⟨by decide, hversion⟩
  · refine ⟨?_, .inr rfl⟩
    rw [List.mem_append, not_or]
    exact ⟨by decide, hcreated⟩
  · refine ⟨?_, .inr rfl⟩
    simp only [List.mem_append, not_or]
    exact ⟨⟨⟨⟨by decide, hheight⟩, by decide⟩, hbest⟩, by decide⟩
  · split_ifs at hline
    · simp only [List.mem_cons, List.not_mem_nil, or_false] at hline
      rcases hline with rfl | rfl
      · refine ⟨?_, .inr rfl⟩
        simp only [List.mem_append, not_or]
        exact ⟨⟨by decide, hseed⟩, by decide⟩
      · exact ⟨by decide, .inr rfl⟩
    · cases hline
  · exact ⟨by decide, .inl rfl⟩

theorem getLines_file {header endLines lines : List (List Char)}
    (hheader : ∀ line ∈ header, Skipped line) (hlines : ∀ line ∈ lines, '\n' ∉ line)
    (hend : ∀ line ∈ endLines, Skipped line) (state : Import) :
  (getLines ((header ++ lines ++ endLines).flatMap (fun line => line ++ ['\n']))).foldl
      (importLine library crypto fTestNet) state
    = lines.foldl (importLine library crypto fTestNet) state
  := by
  have hskip : ∀ {lines : List (List Char)}, (∀ line ∈ lines, Skipped line) → ∀ state : Import,
      lines.foldl (importLine library crypto fTestNet) state = state := by
    intro lines hlines state
    induction lines with
    | nil => rfl
    | cons line lines ih =>
      obtain ⟨hline, hlines⟩ := List.forall_mem_cons.mp hlines
      rw [List.foldl_cons, importLine_skip hline.2, ih hlines]
  have hall : ∀ line ∈ header ++ lines ++ endLines, '\n' ∉ line := by
    intro line hline
    rcases List.mem_append.mp hline with hline | hline
    · rcases List.mem_append.mp hline with hline | hline
      · apply (hheader line hline).1
      · apply hlines line hline
    · apply (hend line hline).1
  rw [getLines_flatMap hall, List.foldl_append, List.foldl_append, hskip hheader, hskip hend]

/-! ## The keys of a wallet -/

theorem haveKey_iff_mem_getKeys (w : CWallet) (id : CKeyID) :
  w.haveKey id = true ↔ id ∈ w.getKeys
  := by
  rw [CWallet.haveKey, CWallet.getKeys, Bool.or_eq_true, List.mem_append]
  cases w.fUseCrypto <;> simp [ExtTreeMap.mem_keys]

theorem mem_setKeys (w : CWallet) (id : CKeyID) : id ∈ setKeys w ↔ id ∈ w.getKeys := by
  rw [setKeys, ExtTreeSet.mem_toList, ExtTreeSet.mem_ofList, List.contains_iff_mem]

variable {w : CWallet}

/-- A wallet has the ids of the keys it was given. -/
theorem haveKey_iff {M : Bytes} (h : CWallet.Holding library M w) {id : CKeyID} :
  w.haveKey id = true ↔ ∃ key ∈ w.vAdded, id = key.getID library.toKeyLibrary
  := by
  constructor
  · intro hhave
    exact CWallet.exists_of_mem_getKeys h ((haveKey_iff_mem_getKeys w id).mp hhave)
  · rintro ⟨key, hkey, rfl⟩
    rw [CWallet.haveKey, Bool.or_eq_true]
    cases hcrypto : w.fUseCrypto with
    | false =>
      left
      exact h.complete.plain hcrypto key hkey
    | true =>
      exact h.complete.crypted hcrypto key hkey

/-- The secret of every key of an unlocked wallet can be read. -/
theorem getSecret_spec
    (hlibrary : library.Lawful) {M : Bytes} (h : CWallet.Holding library M w)
    (hlocked : w.isLocked = false) {id : CKeyID} (hid : w.haveKey id = true) :
  ∃ key ∈ w.vAdded, getSecret library w id = some key ∧ key.getID library.toKeyLibrary = id ∧ key.Valid
  := by
  obtain ⟨key, hkey, rfl⟩ := (haveKey_iff h).mp hid
  obtain ⟨keyRead, key', hget, hread, hadded, hid', _⟩ :=
    h.readable hlibrary hlocked hkey KeyObject.reset
  refine ⟨key', hadded, ?_, hid', h.sound.valid key' hadded⟩
  rw [getSecret, hget, Option.bind_some, hread]

/-- A key that an unlocked wallet does not have is added to it. -/
theorem addKey_spec
    {M : Bytes} (h : CWallet.Holding library M w) (hlocked : w.isLocked = false)
    (hvalid : key.Valid) (hnot : w.haveKey (key.getID library.toKeyLibrary) = false) :
  ∃ w', w.addKey library key = (w', true) ∧ CWallet.Holding library M w' ∧ w'.isLocked = false
    ∧ w'.vAdded = key :: w.vAdded ∧ w'.vchDefaultKey = w.vchDefaultKey
  := by
  have hholding := h.addKey hvalid
  have hdefault := (@CWallet.onlyKeys_addKey library w key).vchDefaultKey
  cases hcrypto : w.fUseCrypto with
  | false =>
    have hnew : ¬w.db.key.contains (key.getPubKey library.toKeyLibrary) = true := by
      intro hcontains
      obtain ⟨secret, hsecret⟩ :=
        Option.isSome_iff_exists.mp ((ExtTreeMap.contains_eq_isSome_getElem? ..).symm.trans hcontains)
      obtain ⟨key', hkey', hpub, _⟩ := h.sound.disk.key _ _ hsecret
      have hhave := (haveKey_iff h).mpr ⟨key', hkey', congrArg library.hash160 hpub⟩
      exact absurd (hhave.symm.trans hnot) Bool.true_eq_false_eq_False.elim
    rw [CWallet.addKey_plain_eq hcrypto, WalletDB.writeKey, if_neg hnew] at hholding hdefault ⊢
    refine ⟨_, rfl, hholding, ?_, rfl, hdefault⟩
    rw [CWallet.isLocked, hcrypto, Bool.false_and]
  | true =>
    have hne := CWallet.isLocked_eq_false.mp hlocked hcrypto
    have hlength : w.vMasterKey.length = WALLET_CRYPTO_KEY_SIZE := by
      rcases h.sound.memory.master with hempty | hmaster
      · exact absurd hempty hne
      · rw [hmaster]
        exact h.sound.length
    have hnew : ¬w.db.ckey.contains (key.getPubKey library.toKeyLibrary) = true := by
      intro hcontains
      have hmem := h.sound.disk_crypted _ (ExtTreeMap.contains_iff_mem.mp hcontains)
      have hhave : w.haveKey (key.getID library.toKeyLibrary) = true := by
        rw [CWallet.haveKey, hcrypto, Bool.or_eq_true]
        left
        apply ExtTreeMap.contains_iff_mem.mpr hmem
      exact absurd (hhave.symm.trans hnot) Bool.true_eq_false_eq_False.elim
    rw [CWallet.addKey_unlocked hcrypto hlength,
      @CWallet.addCryptedKey_eq library { w with vAdded := key :: w.vAdded } hcrypto,
      WalletDB.writeCryptedKey, if_neg hnew] at hholding hdefault ⊢
    exact ⟨_, rfl, hholding, hlocked, rfl, hdefault⟩

/-! ## The import of a dump -/

/-- What the import of the lines of some keys of a wallet has done. -/
structure Restoring (library : WalletLibrary) (M : Bytes) (s : DumpWallet) (vchDefaultKey : CPubKey)
    (ids : List CKeyID) (state : Import) : Prop where
  holding : CWallet.Holding library M state.s.wallet
  unlocked : state.s.wallet.isLocked = false
  fGood : state.fGood = true
  added : ∀ key, key ∈ state.s.wallet.vAdded ↔ ∃ id ∈ ids, getSecret library s.wallet id = some key
  labels : ∀ id ∈ ids, ∀ label, s.mapAddressBook[CTxDestination.CKeyID id]? = some label →
    state.s.mapAddressBook[CTxDestination.CKeyID id]? = some label
  vchDefaultKey : state.s.wallet.vchDefaultKey = vchDefaultKey

/-- The ids are those of keys that can be read from a wallet. -/
def Readable (library : WalletLibrary) (w : CWallet) (ids : List CKeyID) : Prop :=
  ∀ id ∈ ids, ∃ key, getSecret library w id = some key ∧ key.getID library.toKeyLibrary = id ∧ key.Valid

variable {M : Bytes} {s : DumpWallet} {vchDefaultKey : CPubKey} {ids : List CKeyID} {state : Import}

/-- The line of one more key. -/
theorem Restoring.importLine (h : Restoring library M s vchDefaultKey ids state)
    (hids : Readable library s.wallet ids) (setReserve : List CKeyID)
    (hread : getSecret library s.wallet (key.getID library.toKeyLibrary) = some key) (hvalid : key.Valid) :
  Restoring library M s vchDefaultKey (key.getID library.toKeyLibrary :: ids)
    (importLine library crypto fTestNet state
      (s.keyLine crypto fTestNet setReserve (key.getID library.toKeyLibrary) key))
  := by
  rw [importLine_keyLine s setReserve hvalid]
  split_ifs with hhave
  · -- the key was imported before
    obtain ⟨key', hkey', hid⟩ := (haveKey_iff h.holding).mp hhave
    obtain ⟨id, hid', hread'⟩ := (h.added key').mp hkey'
    obtain ⟨_, hread'', hid'', _⟩ := hids id hid'
    obtain rfl := Option.some.inj (hread'.symm.trans hread'')
    have hmem : key.getID library.toKeyLibrary ∈ ids := by
      rw [hid, hid'']
      apply hid'
    have hcons : ∀ id, id ∈ key.getID library.toKeyLibrary :: ids ↔ id ∈ ids := by
      intro id
      rw [List.mem_cons, or_iff_right_of_imp]
      rintro rfl
      apply hmem
    refine ⟨h.holding, h.unlocked, h.fGood, ?_, ?_, h.vchDefaultKey⟩
    · intro key''
      rw [h.added]
      apply exists_congr
      intro id
      rw [hcons]
    · intro id hid
      apply h.labels id ((hcons id).mp hid)
  · obtain ⟨w', hadd, hholding, hlocked, hadded, hdefault⟩ :=
      addKey_spec h.holding h.unlocked hvalid (Bool.eq_false_iff.mpr hhave)
    rw [hadd]
    refine ⟨hholding, hlocked, h.fGood, ?_, ?_, hdefault.trans h.vchDefaultKey⟩
    · intro key'
      dsimp only
      rw [hadded, List.mem_cons, h.added key', List.exists_mem_cons_iff, hread, Option.some.injEq,
        eq_comm]
    · intro id hid label hlabel
      dsimp only
      by_cases hsame : key.getID library.toKeyLibrary = id
      · rw [hsame, hlabel]
        apply ExtTreeMap.getElem?_insert_self
      · have hid := (List.mem_cons.mp hid).resolve_left (Ne.symm hsame)
        cases s.mapAddressBook[CTxDestination.CKeyID (key.getID library.toKeyLibrary)]? with
        | none => apply h.labels id hid label hlabel
        | some strLabel =>
          dsimp only
          rw [getElem?_insert_of_ne]
          · apply h.labels id hid label hlabel
          · intro heq
            apply hsame (CTxDestination.CKeyID.inj heq)

/-- The lines of all keys. -/
theorem Restoring.importLines (h : Restoring library M s vchDefaultKey ids state)
    (hids : Readable library s.wallet ids) (setReserve : List CKeyID) {ids' : List CKeyID}
    (hids' : Readable library s.wallet ids') :
  Restoring library M s vchDefaultKey (ids'.reverse ++ ids)
    ((ids'.filterMap (fun keyid =>
      (getSecret library s.wallet keyid).map (s.keyLine crypto fTestNet setReserve keyid))).foldl
        (DumpWallet.importLine library crypto fTestNet) state)
  := by
  induction ids' generalizing ids state with
  | nil => apply h
  | cons id ids' ih =>
    obtain ⟨⟨key, hread, rfl, hvalid⟩, hrest⟩ := List.forall_mem_cons.mp hids'
    simp only [List.filterMap_cons, hread, Option.map_some]
    rw [List.foldl_cons, List.reverse_cons, List.append_assoc]
    apply ih (h.importLine hids setReserve hread hvalid) _ hrest
    exact List.forall_mem_cons.mpr ⟨⟨key, hread, rfl, hvalid⟩, hids⟩

/-! ## The scan -/

theorem replaceDefaultKey_of_ne
    {scriptDefaultKey : CScript} {vout : List (CTxOut × Draw)}
    (h : ∀ x ∈ vout, x.1.scriptPubKey ≠ scriptDefaultKey) (s : DumpWallet) :
  replaceDefaultKey library scriptDefaultKey vout s = (s, true)
  := by
  induction vout with
  | nil => rfl
  | cons x vout ih =>
    obtain ⟨hx, hvout⟩ := List.forall_mem_cons.mp h
    rw [replaceDefaultKey, if_neg hx, ih hvout]

/-- No output that the scan finds pays to the default key, or the program is the one with the GUI. -/
def DefaultKeyUnpaid (library : WalletLibrary) (fQtGui : Bool) (found : List (List (CTxOut × Draw)))
    (s : DumpWallet) : Prop :=
  fQtGui = true ∨ ∀ vout ∈ found, ∀ x ∈ vout,
    x.1.scriptPubKey ≠ scriptForKeyID (library.hash160 s.wallet.vchDefaultKey)

/-- The scan leaves the keys and the address book alone. -/
theorem rescanWallet_of_unpaid
    {fQtGui : Bool} {found : List (List (CTxOut × Draw))} (h : DefaultKeyUnpaid library fQtGui found s) :
  rescanWallet library fQtGui found s = (s, true)
  := by
  induction found with
  | nil => rfl
  | cons vout found ih =>
    have hadd : addToWallet library fQtGui s vout = (s, true) := by
      rw [addToWallet]
      split_ifs with hgui
      · rfl
      · apply replaceDefaultKey_of_ne
        apply h.resolve_left hgui vout List.mem_cons_self
    rw [rescanWallet, hadd]
    apply ih
    apply h.imp_right
    intro hunpaid vout hvout
    apply hunpaid vout (List.mem_cons_of_mem _ hvout)

/-! ## What is restored -/

theorem readable_setKeys
    (hlibrary : library.Lawful) {M : Bytes} (h : CWallet.Holding library M w)
    (hlocked : w.isLocked = false) :
  Readable library w (setKeys w)
  := by
  intro id hid
  have hhave := (haveKey_iff_mem_getKeys w id).mpr ((mem_setKeys w id).mp hid)
  obtain ⟨key, _, hread, hkey, hvalid⟩ := getSecret_spec hlibrary h hlocked hhave
  exact ⟨key, hread, hkey, hvalid⟩

theorem vAdded_eq_nil {M : Bytes} (h : CWallet.Holding library M w)
    (hempty : w.getKeys = []) :
  w.vAdded = []
  := by
  rw [List.eq_nil_iff_forall_not_mem]
  intro key hkey
  have hhave := (haveKey_iff h).mpr ⟨key, hkey, rfl⟩
  rw [haveKey_iff_mem_getKeys, hempty] at hhave
  cases hhave

/-- When the dump of a wallet is written, and what it is. -/
theorem dumpWalletToFile_eq_ok_iff
    {header : DumpHeader} {path : String} {fExists fOverwrite : Bool} {s : DumpWallet}
    {file : List Char} :
  dumpWalletToFile library crypto fTestNet header path fExists fOverwrite s = .ok file ↔
    s.wallet.isLocked = false ∧ (fExists = true → fOverwrite = true) ∧
      ∃ setReserve, getAllReserveKeys library s.wallet = some setReserve ∧
        file = (headerLines header s.wallet ++ s.keyLines library crypto fTestNet setReserve ++
          [[], "# End of dump".toList]).flatMap (fun line => line ++ ['\n'])
  := by
  rw [dumpWalletToFile]
  cases s.wallet.isLocked <;> cases fExists <;> cases fOverwrite <;>
    cases getAllReserveKeys library s.wallet <;> simp [eq_comm]

/-- The import of a dump reads the lines of the keys. -/
theorem foldl_getLines_dump
    {header : DumpHeader} {path : String} {fExists fOverwrite : Bool} {s : DumpWallet}
    {file : List Char}
    (h : dumpWalletToFile library crypto fTestNet header path fExists fOverwrite s = .ok file)
    (state : Import) :
  ∃ setReserve, getAllReserveKeys library s.wallet = some setReserve
    ∧ (getLines file).foldl (importLine library crypto fTestNet) state
      = (s.keyLines library crypto fTestNet setReserve).foldl (importLine library crypto fTestNet) state
  := by
  obtain ⟨_, _, setReserve, hreserve, rfl⟩ := dumpWalletToFile_eq_ok_iff.mp h
  refine ⟨setReserve, hreserve, ?_⟩
  apply getLines_file (skipped_headerLines header s.wallet)
  · intro line hline
    obtain ⟨id, _, hid⟩ := List.mem_filterMap.mp hline
    obtain ⟨key, _, rfl⟩ := Option.map_eq_some_iff.mp hid
    apply newline_not_mem_keyLine
  · simp [Skipped]

/-- A dump restores the keys of a wallet, with their compression and their labels: it is written for
every unlocked wallet whose key pool can be read, and an unlocked wallet without keys that imports it has
the same keys and labels, if the scan finds no payment to its default key. -/
theorem dump_restores
    (hlibrary : library.Lawful) (crypto : Crypto) (fTestNet : Bool) {s t : DumpWallet}
    (hs : CWallet.Holds library s.wallet) (ht : CWallet.Holds library t.wallet)
    (htlocked : t.wallet.isLocked = false) (htempty : t.wallet.getKeys = []) (header : DumpHeader)
    (path : String) (fExists fOverwrite fQtGui : Bool) (found : List (List (CTxOut × Draw)))
    (hfound : DefaultKeyUnpaid library fQtGui found t) :
  (∀ label, decodeDumpString (encodeDumpString label) = label
      ∧ ∀ c ∈ encodeDumpString label, 32 < c.toNat ∧ c.toNat < 128)
    ∧ (s.wallet.isLocked = false → (fExists = true → fOverwrite = true) →
        getAllReserveKeys library s.wallet ≠ none →
        ∃ file, dumpWalletToFile library crypto fTestNet header path fExists fOverwrite s = .ok file)
    ∧ ∀ file, dumpWalletToFile library crypto fTestNet header path fExists fOverwrite s = .ok file →
      ∃ t' nImported, importWalletFromFile library crypto fTestNet fQtGui found (some file) t
          = (t', nImported, .ok ())
        ∧ (∀ id, t'.wallet.haveKey id = s.wallet.haveKey id)
        ∧ (∀ id, s.wallet.haveKey id = true →
            ∃ key, getSecret library s.wallet id = some key ∧ getSecret library t'.wallet id = some key)
        ∧ ∀ id label, s.wallet.haveKey id = true →
            s.mapAddressBook[CTxDestination.CKeyID id]? = some label →
            t'.mapAddressBook[CTxDestination.CKeyID id]? = some label
  := by
  refine ⟨fun label => ⟨decodeDumpString_encodeDumpString label, fun c hc => mem_encodeDumpString hc⟩,
    ?_, ?_⟩
  · intro hslocked hwrite hpool
    obtain ⟨setReserve, hreserve⟩ := Option.ne_none_iff_exists'.mp hpool
    exact ⟨_, dumpWalletToFile_eq_ok_iff.mpr ⟨hslocked, hwrite, setReserve, hreserve, rfl⟩⟩
  intro file hfile
  have hslocked := (dumpWalletToFile_eq_ok_iff.mp hfile).1
  obtain ⟨setReserve, _, hlinesRead⟩ := foldl_getLines_dump hfile { s := t }
  obtain ⟨M, hs⟩ := hs
  obtain ⟨M', ht⟩ := ht
  have hreadable := readable_setKeys hlibrary hs hslocked
  have hstart : Restoring library M' s t.wallet.vchDefaultKey [] { s := t } := by
    refine ⟨ht, htlocked, rfl, ?_, fun id hid => absurd hid List.not_mem_nil, rfl⟩
    intro key
    rw [vAdded_eq_nil ht htempty]
    simp
  have hdone : Restoring library M' s t.wallet.vchDefaultKey ((setKeys s.wallet).reverse ++ [])
      ((s.keyLines library crypto fTestNet setReserve).foldl
        (importLine library crypto fTestNet) { s := t }) :=
    hstart.importLines (fun id hid => absurd hid List.not_mem_nil) setReserve hreadable
  rw [List.append_nil] at hdone
  have hmem : ∀ id, id ∈ (setKeys s.wallet).reverse ↔ s.wallet.haveKey id = true := by
    intro id
    rw [List.mem_reverse, mem_setKeys, haveKey_iff_mem_getKeys]
  generalize (s.keyLines library crypto fTestNet setReserve).foldl
    (importLine library crypto fTestNet) { s := t } = state at hdone hlinesRead
  have hunpaid : DefaultKeyUnpaid library fQtGui found state.s := by
    rw [DefaultKeyUnpaid, hdone.vchDefaultKey]
    apply hfound
  have hscan : (if state.nImported > 0 then rescanWallet library fQtGui found state.s
      else (state.s, true)) = (state.s, true) := by
    split_ifs
    · apply rescanWallet_of_unpaid hunpaid
    · rfl
  have hhave : ∀ id, state.s.wallet.haveKey id = true ↔ s.wallet.haveKey id = true := by
    intro id
    rw [haveKey_iff hdone.holding, ← hmem]
    constructor
    · rintro ⟨key, hkey, rfl⟩
      obtain ⟨id, hid, hread⟩ := (hdone.added key).mp hkey
      obtain ⟨_, hread', hid', _⟩ := hreadable id (List.mem_reverse.mp hid)
      obtain rfl := Option.some.inj (hread.symm.trans hread')
      rw [hid']
      apply hid
    · intro hid
      obtain ⟨key, hread, hkey, _⟩ := hreadable id (List.mem_reverse.mp hid)
      exact ⟨key, (hdone.added key).mpr ⟨id, hid, hread⟩, hkey.symm⟩
  refine ⟨state.s, state.nImported, ?_, fun id => Bool.eq_iff_iff.mpr (hhave id), ?_, ?_⟩
  · rw [importWalletFromFile, htlocked, if_neg Bool.false_ne_true]
    dsimp only
    rw [hlinesRead, hscan]
    dsimp only
    rw [hdone.fGood]
    rfl
  · intro id hid
    obtain ⟨key, hkey, hread, hkeyid, _⟩ :=
      getSecret_spec hlibrary hdone.holding hdone.unlocked ((hhave id).mpr hid)
    -- the key that is found came from the line of this id
    obtain ⟨id', hid', hsource⟩ := (hdone.added key).mp hkey
    obtain ⟨_, hsource', hid'', _⟩ := hreadable id' (List.mem_reverse.mp hid')
    obtain rfl := Option.some.inj (hsource.symm.trans hsource')
    obtain rfl : id = id' := hkeyid.symm.trans hid''
    exact ⟨key, hsource, hread⟩
  · intro id label hid hlabel
    apply hdone.labels id ((hmem id).mpr hid) label hlabel

/-! ### A dump with a label -/

/-- An uncompressed key with a label of a space, a percent sign, a number sign and a byte that is not
ASCII. -/
def sampleDumped : DumpWallet where
  wallet := ((CWallet.new WalletDB.empty).addKey CWallet.sampleWalletLibrary ⟨5, false⟩).1
  mapAddressBook := (∅ : ExtTreeMap CTxDestination Bytes).insert
    (.CKeyID (CKey.getID CWallet.sampleWalletLibrary.toKeyLibrary ⟨5, false⟩)) [0x20, 0x25, 0x23, 0xff]

def sampleEmpty : DumpWallet := ⟨CWallet.new WalletDB.empty, ∅⟩

def sampleHeader : DumpHeader where
  version := "v4.0.0".toList
  created := "2026-01-01T00:00:00Z".toList
  nBestHeight := 7
  hashBestChain := 3
  version_line := by decide
  created_line := by decide

theorem holds_sampleDumped : CWallet.Holds CWallet.sampleWalletLibrary sampleDumped.wallet
  := by
  obtain ⟨M, h⟩ := CWallet.Reserving.holds_new CWallet.sampleWalletLibrary
  have hvalid : CKey.Valid ⟨5, false⟩ := ⟨by decide, by decide⟩
  exact ⟨M, h.addKey hvalid⟩

theorem dump_restores_sample :
  ∃ file t' nImported,
    dumpWalletToFile CWallet.sampleWalletLibrary sampleCrypto false sampleHeader "dump" false false
      sampleDumped = .ok file
    ∧ importWalletFromFile CWallet.sampleWalletLibrary sampleCrypto false false [] (some file)
      sampleEmpty = (t', nImported, .ok ())
    ∧ getSecret CWallet.sampleWalletLibrary t'.wallet
      (CKey.getID CWallet.sampleWalletLibrary.toKeyLibrary ⟨5, false⟩) = some ⟨5, false⟩
    ∧ t'.mapAddressBook[CTxDestination.CKeyID
        (CKey.getID CWallet.sampleWalletLibrary.toKeyLibrary ⟨5, false⟩)]?
      = some [0x20, 0x25, 0x23, 0xff]
  := by
  obtain ⟨_, hwritten, hrestored⟩ := dump_restores CWallet.lawful_sampleWalletLibrary sampleCrypto false
    holds_sampleDumped (CWallet.Reserving.holds_new _) (t := sampleEmpty) (by decide) (by decide) sampleHeader
    "dump" false false false [] (.inr fun _ h => absurd h List.not_mem_nil)
  obtain ⟨file, hfile⟩ := hwritten (by decide) (fun h => h) (by decide)
  obtain ⟨t', nImported, himport, _, hsecrets, hlabels⟩ := hrestored file hfile
  have hhave : sampleDumped.wallet.haveKey
      (CKey.getID CWallet.sampleWalletLibrary.toKeyLibrary ⟨5, false⟩) = true := by
    decide +kernel
  have hread : getSecret CWallet.sampleWalletLibrary sampleDumped.wallet
      (CKey.getID CWallet.sampleWalletLibrary.toKeyLibrary ⟨5, false⟩) = some ⟨5, false⟩ := by
    decide +kernel
  obtain ⟨key, hsource, hkey⟩ := hsecrets _ hhave
  obtain rfl := Option.some.inj (hread.symm.trans hsource)
  exact ⟨file, t', nImported, hfile, himport, hkey,
    hlabels _ _ hhave ExtTreeMap.getElem?_insert_self⟩

/-! ### A locked wallet, and a payment to a default key that is not set -/

def sampleLocked : DumpWallet := ⟨(CWallet.new WalletDB.empty).lock, ∅⟩

/-- A transaction that pays to the key of the dump and to the hash of no bytes. -/
def sampleFound : List (List (CTxOut × Draw)) :=
  let draw : Draw := ⟨0, CWallet.Reserving.sampleKeys 10, CWallet.Reserving.sampleKeys 20 0⟩
  [[(⟨100000000, scriptForKeyID (CKey.getID CWallet.sampleWalletLibrary.toKeyLibrary ⟨5, false⟩)⟩, draw),
    (⟨100000000, scriptForKeyID (CWallet.sampleWalletLibrary.hash160 [])⟩, draw)]]

theorem keyLines_sampleDumped :
  sampleDumped.keyLines CWallet.sampleWalletLibrary sampleCrypto false []
    = [sampleDumped.keyLine sampleCrypto false []
      (CKey.getID CWallet.sampleWalletLibrary.toKeyLibrary ⟨5, false⟩) ⟨5, false⟩]
  := by
  have hids : setKeys sampleDumped.wallet
      = [CKey.getID CWallet.sampleWalletLibrary.toKeyLibrary ⟨5, false⟩] := by decide
  have hread : getSecret CWallet.sampleWalletLibrary sampleDumped.wallet
      (CKey.getID CWallet.sampleWalletLibrary.toKeyLibrary ⟨5, false⟩) = some ⟨5, false⟩ := by
    decide
  rw [keyLines, hids, List.filterMap_cons_some (b := sampleDumped.keyLine sampleCrypto false [] _ _)]
  · rfl
  · rw [hread, Option.map_some]

/-- A locked wallet refuses the import; and a payment to the default key of a wallet that has none gives
it a new key. -/
theorem dump_notRestored :
  (CWallet.Holds CWallet.sampleWalletLibrary sampleLocked.wallet ∧ sampleLocked.wallet.getKeys = [])
    ∧ sampleEmpty.wallet.isLocked = false ∧ sampleEmpty.wallet.getKeys = []
    ∧ ∃ file,
      dumpWalletToFile CWallet.sampleWalletLibrary sampleCrypto false sampleHeader "dump" false false
        sampleDumped = .ok file
      ∧ (importWalletFromFile CWallet.sampleWalletLibrary sampleCrypto false false [] (some file)
        sampleLocked).2.2 = .error "Wallet is locked"
      ∧ sampleDumped.wallet.getKeys.length = 1
      ∧ (importWalletFromFile CWallet.sampleWalletLibrary sampleCrypto false false sampleFound (some file)
        sampleEmpty).1.wallet.getKeys.length = 2
  := by
  have hreserve : getAllReserveKeys CWallet.sampleWalletLibrary sampleDumped.wallet = some [] := by
    decide
  have hvalid : CKey.Valid ⟨5, false⟩ := ⟨by decide, by decide⟩
  obtain ⟨file, hfile⟩ : ∃ file, dumpWalletToFile CWallet.sampleWalletLibrary sampleCrypto false
      sampleHeader "dump" false false sampleDumped = .ok file :=
    ⟨_, dumpWalletToFile_eq_ok_iff.mpr ⟨by decide, fun h => h, _, hreserve, rfl⟩⟩
  obtain ⟨setReserve, hreserve', hlinesRead⟩ := foldl_getLines_dump hfile { s := sampleEmpty }
  obtain rfl := Option.some.inj (hreserve.symm.trans hreserve')
  rw [keyLines_sampleDumped, List.foldl_cons, List.foldl_nil, importLine_keyLine _ _ hvalid] at hlinesRead
  obtain ⟨M, hnew⟩ := CWallet.Reserving.holds_new CWallet.sampleWalletLibrary
  refine ⟨⟨⟨M, hnew.lock⟩, by decide⟩, by decide, by decide, file, hfile, ?_,
    by decide, ?_⟩
  · rw [importWalletFromFile, if_pos (by decide)]
  · rw [importWalletFromFile, if_neg (by decide)]
    dsimp only
    rw [hlinesRead]
    decide +kernel

end DumpWallet

end CorgiCoin
