import CorgiCoin.CombineSignatures
import CorgiCoin.ScriptNumbers

/-!
# Scripts read back

What the operators `<<` of a script write, and what `GetOp` reads of it.  `GetOp` compares the size of a
push with the number of bytes that are left, which it takes as an `unsigned int`, so that a push in a
script that goes on for more than 4 GiB can look cut short.
-/

namespace CorgiCoin

open Codec Exec

/-! ## The reader -/

/-- `CScript::GetOp2`: the number of bytes that are left is cut to 32 bits where it is compared with the
size of the data. -/
def getOp2 : CScript → Option (ℕ × Bytes × CScript)
  | [] => none
  | b :: pc =>
    let opcode := b.toNat
    if opcode > OP_PUSHDATA4 then some (opcode, [], pc)
    else
      let nLength :=
        if opcode < OP_PUSHDATA1 then 0
        else if opcode = OP_PUSHDATA1 then 1
        else if opcode = OP_PUSHDATA2 then 2
        else 4
      if pc.length < nLength then none
      else
        let nSize := if opcode < OP_PUSHDATA1 then opcode else ofLE (pc.take nLength)
        let pc := pc.drop nLength
        if pc.length % 2 ^ 32 < nSize then none
        else some (opcode, pc.take nSize, pc.drop nSize)

/-- The opcodes and the data that a loop over `GetOp` reads, and the bytes from where it stops. -/
def readOps : ℕ → CScript → List (ℕ × Bytes) × CScript
  | 0, pc => ([], pc)
  | fuel + 1, pc =>
    match getOp2 pc with
    | none => ([], pc)
    | some (opcode, vch, pc) =>
      let rest := readOps fuel pc
      ((opcode, vch) :: rest.1, rest.2)

/-- The loop over a whole script; every instruction takes a byte at least. -/
def readBack (script : CScript) : List (ℕ × Bytes) × CScript := readOps script.length script

/-! ## The writers -/

/-- `push_int64` -/
def pushInt64 (n : Int64) : CScript :=
  if n = -1 ∨ (n ≥ 1 ∧ n ≤ 16) then [UInt8.ofNat (n.toInt + (OP_1 - 1 : ℕ)).toNat]
  else pushData (getvch (setint64 n))

/-- `CBigNum::setuint64`, whose loop is that of `setint64` for a positive number. -/
def setuint64 (n : UInt64) : ℤ := mpi2bn (setint64Loop false 8 true n)

/-- `push_uint64` -/
def pushUInt64 (n : UInt64) : CScript :=
  if n ≥ 1 ∧ n ≤ 16 then [UInt8.ofNat (n.toNat + (OP_1 - 1))]
  else pushData (getvch (setuint64 n))

/-- What an operator `<<` of a script is given. -/
inductive Pushed where
  | data (b : Bytes)
  | hash160 (b : uint160)
  | hash256 (b : uint256)
  | int64 (n : Int64)
  | uint64 (n : UInt64)
  | bigNum (bn : ℤ)
  | opcode (n : ℕ)

namespace Pushed

/-- The bytes that `operator<<` appends; `none` where it throws. -/
def written : Pushed → Option CScript
  | data b => some (pushData b)
  | hash160 b => some (20 :: serializeUint160 b)
  | hash256 b => some (32 :: serializeUint256 b)
  | int64 n => some (pushInt64 n)
  | uint64 n => some (pushUInt64 n)
  | bigNum bn => some (pushBigNum bn)
  | opcode n => if n > 0xff then none else some [UInt8.ofNat n]

/-- The opcode and the data that stand for what was given. -/
def op : Pushed → ℕ × Bytes
  | data b => (pushOpcode b, b)
  | hash160 b => (20, serializeUint160 b)
  | hash256 b => (32, serializeUint256 b)
  | int64 n =>
    if n = -1 ∨ (n ≥ 1 ∧ n ≤ 16) then ((n.toInt + (OP_1 - 1 : ℕ)).toNat, [])
    else (pushOpcode (getvch n.toInt), getvch n.toInt)
  | uint64 n =>
    if n ≥ 1 ∧ n ≤ 16 then (n.toNat + (OP_1 - 1), [])
    else (pushOpcode (getvch n.toNat), getvch n.toNat)
  | bigNum bn => (pushOpcode (getvch bn), getvch bn)
  | opcode n => (n, [])

/-- Data whose size fits 32 bits, and opcodes that take no data. -/
def Sized : Pushed → Prop
  | data b => b.length < 2 ^ 32
  | bigNum bn => (getvch bn).length < 2 ^ 32
  | opcode n => OP_PUSHDATA4 < n
  | _ => True

end Pushed

/-- `CScript() << …`, with each of the given in turn. -/
def buildScript (items : List Pushed) : Option CScript := (items.mapM Pushed.written).map List.flatten

/-- Each push is no larger than the bytes from its data on, modulo `2 ^ 32`. -/
def PushesFit : List Pushed → Prop
  | [] => True
  | item :: items =>
    item.op.2.length ≤ (item.op.2.length + ((buildScript items).getD []).length) % 2 ^ 32 ∧ PushesFit items

/-! ## One instruction -/

/-- `GetOp2` reads what fits, of what is there. -/
theorem getOp2_eq (script : CScript) :
  getOp2 script
    = (getOp script).filter (fun read => read.2.1.length ≤ (read.2.1.length + read.2.2.length) % 2 ^ 32)
  := by
  cases script with
  | nil => rfl
  | cons b pc =>
    rw [getOp2, getOp]
    dsimp only
    generalize hLength : (if b.toNat < OP_PUSHDATA1 then 0 else if b.toNat = OP_PUSHDATA1 then 1
      else if b.toNat = OP_PUSHDATA2 then 2 else 4) = nLength
    generalize hSize : (if b.toNat < OP_PUSHDATA1 then b.toNat else ofLE (pc.take nLength)) = nSize
    by_cases hpush : b.toNat > OP_PUSHDATA4
    · rw [if_pos hpush, if_pos hpush]
      rfl
    · rw [if_neg hpush, if_neg hpush]
      by_cases hfield : pc.length < nLength
      · rw [if_pos hfield, if_pos hfield]
        rfl
      · rw [if_neg hfield, if_neg hfield]
        have hmod := Nat.mod_le (pc.drop nLength).length (2 ^ 32)
        by_cases hcut : (pc.drop nLength).length < nSize
        · rw [if_pos hcut, if_pos (by omega)]
          rfl
        · rw [if_neg hcut, Option.filter_some, List.length_take_of_le (Nat.le_of_not_lt hcut),
            List.length_drop, List.length_drop]
          rw [List.length_drop] at hcut hmod ⊢
          have hsum : nSize + (pc.length - nLength - nSize) = pc.length - nLength := by omega
          rw [hsum]
          by_cases hfits : (pc.length - nLength) % 2 ^ 32 < nSize
          · rw [if_pos hfits, if_neg (by simpa using hfits)]
          · rw [if_neg hfits, if_pos (by simpa using hfits)]

variable {script : CScript}

/-- Of a script of less than 4 GiB both read the same. -/
theorem getOp2_eq_getOp (hlength : script.length < 2 ^ 32) : getOp2 script = getOp script
  := by
  rw [getOp2_eq]
  cases h : getOp script with
  | none => rfl
  | some read =>
    have hread := (length_of_getOp h).1
    rw [Option.filter_some, Nat.mod_eq_of_lt (Nat.lt_of_le_of_lt hread hlength),
      if_pos (decide_eq_true (Nat.le_add_right _ _))]

variable {pc : CScript} {opcode : ℕ} {vch : Bytes}

/-- What an operator writes is read back where it fits. -/
theorem getOp2_of_getOp
    (h : getOp script = some (opcode, vch, pc)) :
  getOp2 script
    = if vch.length ≤ (vch.length + pc.length) % 2 ^ 32 then some (opcode, vch, pc) else none
  := by
  rw [getOp2_eq, h, Option.filter_some]
  simp only [decide_eq_true_eq]

variable {n : ℕ}

theorem readOps_of_length_le {m : ℕ} (hn : script.length ≤ n) (hm : script.length ≤ m) :
  readOps n script = readOps m script
  := by
  have hnil : ∀ k, readOps k [] = ([], []) := by
    intro k
    cases k <;> rfl
  induction n generalizing m script with
  | zero =>
    rw [List.length_eq_zero_iff.mp (Nat.le_zero.mp hn), hnil, hnil]
  | succ n ih =>
    cases m with
    | zero => rw [List.length_eq_zero_iff.mp (Nat.le_zero.mp hm), hnil, hnil]
    | succ m =>
      rw [readOps, readOps]
      cases hop : getOp2 script with
      | none => rfl
      | some read =>
        obtain ⟨opcode, vch, pc⟩ := read
        have hget : getOp script = some (opcode, vch, pc) := by
          rw [getOp2_eq, Option.filter_eq_some_iff] at hop
          exact hop.1
        have hlt := (getOp_suffix hget).2
        dsimp only
        rw [ih (by omega) (show pc.length ≤ m by omega)]

theorem readBack_cons
    (h : getOp script = some (opcode, vch, pc))
    (hfits : vch.length ≤ (vch.length + pc.length) % 2 ^ 32) :
  readBack script = ((opcode, vch) :: (readBack pc).1, (readBack pc).2)
  := by
  have hlt := (getOp_suffix h).2
  obtain ⟨n, hn⟩ : ∃ n, script.length = n + 1 := ⟨script.length - 1, by omega⟩
  rw [readBack, hn, readOps, getOp2_of_getOp h, if_pos hfits]
  dsimp only
  rw [readBack, readOps_of_length_le (show pc.length ≤ n by omega) le_rfl]

theorem readBack_cut
    (h : getOp script = some (opcode, vch, pc))
    (hfits : ¬vch.length ≤ (vch.length + pc.length) % 2 ^ 32) :
  readBack script = ([], script)
  := by
  cases hn : script.length with
  | zero => rw [readBack, hn, readOps]
  | succ n => rw [readBack, hn, readOps, getOp2_of_getOp h, if_neg hfits]

/-! ## What the operators write -/

theorem setuint64_eq (n : UInt64) : setuint64 n = n.toNat
  := by
  have hlt : n.toNat < 256 ^ 8 := n.toNat_lt
  rw [setuint64, setint64Loop_true _ le_rfl (by rw [Nat.sub_self, pow_zero, Nat.mul_one]) hlt,
    mpi2bn_bn2mpi]
  rfl

/-- An opcode that takes no data is read from its byte. -/
theorem getOp_opcode {n : ℕ} (h : OP_PUSHDATA4 < n) (hbyte : n ≤ 0xff) (rest : CScript) :
  getOp (UInt8.ofNat n :: rest) = some (n, [], rest)
  := by
  have hnat : (UInt8.ofNat n).toNat = n := by
    rw [UInt8.toNat_ofNat', Nat.mod_eq_of_lt (by omega)]
  rw [getOp]
  dsimp only
  rw [hnat, if_pos h]

theorem length_getvch_lt {n : ℤ} (h : n.natAbs < 256 ^ 8) : (getvch n).length < 2 ^ 32
  := lt_of_le_of_lt (length_getvch_le_of_natAbs h) (by decide)

variable {b : Bytes}

/-- A hash is written like other data of its size. -/
theorem pushData_of_length (h : b.length = n) (hshort : n < OP_PUSHDATA1) :
  pushData b = UInt8.ofNat n :: b ∧ pushOpcode b = n
  := by
  rw [pushData, pushOpcode, h, if_pos hshort, if_pos hshort]
  exact ⟨rfl, rfl⟩

/-- A few bytes behind their number are a push of them. -/
theorem getOp_of_length (h : b.length = n) (hshort : n < OP_PUSHDATA1)
    (rest : CScript) :
  getOp (UInt8.ofNat n :: b ++ rest) = some (n, b, rest)
  := by
  obtain ⟨hpush, hop⟩ := pushData_of_length h hshort
  have hlt : b.length < 2 ^ 32 := by
    rw [h]
    exact hshort.trans (by decide)
  have hread := getOp_pushData hlt rest
  rw [hpush, hop] at hread
  exact hread

/-- The opcode of a small integer. -/
theorem small_int64 {n : Int64} (h : n = -1 ∨ (n ≥ 1 ∧ n ≤ 16)) :
  OP_PUSHDATA4 < (n.toInt + (OP_1 - 1 : ℕ)).toNat ∧ (n.toInt + (OP_1 - 1 : ℕ)).toNat ≤ 0xff
  := by
  rcases h with rfl | ⟨hone, hsixteen⟩
  · decide
  · have hlow : (1 : ℤ) ≤ n.toInt := Int64.le_iff_toInt_le.mp hone
    have hhigh : n.toInt ≤ 16 := Int64.le_iff_toInt_le.mp hsixteen
    rw [OP_PUSHDATA4, OP_1]
    omega

theorem small_uint64 {n : UInt64} (h : n ≥ 1 ∧ n ≤ 16) :
  OP_PUSHDATA4 < n.toNat + (OP_1 - 1) ∧ n.toNat + (OP_1 - 1) ≤ 0xff
  := by
  have hlow : 1 ≤ n.toNat := UInt64.le_iff_toNat_le.mp h.1
  have hhigh : n.toNat ≤ 16 := UInt64.le_iff_toNat_le.mp h.2
  rw [OP_PUSHDATA4, OP_1]
  omega

/-- Each operator writes one instruction. -/
theorem getOp_written
    {item : Pushed} (hsized : item.Sized) (h : item.written = some script) (rest : CScript) :
  getOp (script ++ rest) = some (item.op.1, item.op.2, rest)
  := by
  cases item with
  | data b =>
    obtain rfl := Option.some.inj h
    exact getOp_pushData hsized rest
  | hash160 b =>
    obtain rfl := Option.some.inj h
    exact getOp_of_length (length_toLE 20 b.toNat) (by decide) rest
  | hash256 b =>
    obtain rfl := Option.some.inj h
    exact getOp_of_length (length_toLE 32 b.toNat) (by decide) rest
  | int64 n =>
    obtain rfl := Option.some.inj h
    rw [pushInt64, setint64_eq, Pushed.op]
    split_ifs with hsmall
    · obtain ⟨hop, hbyte⟩ := small_int64 hsmall
      exact getOp_opcode hop hbyte rest
    · have hge := n.le_toInt
      have hlt := n.toInt_lt
      exact getOp_pushData (length_getvch_lt (by omega)) rest
  | uint64 n =>
    obtain rfl := Option.some.inj h
    rw [pushUInt64, setuint64_eq, Pushed.op]
    split_ifs with hsmall
    · obtain ⟨hop, hbyte⟩ := small_uint64 hsmall
      exact getOp_opcode hop hbyte rest
    · have hlt := n.toNat_lt
      exact getOp_pushData (length_getvch_lt (by omega)) rest
  | bigNum bn =>
    obtain rfl := Option.some.inj h
    exact getOp_pushData hsized rest
  | opcode n =>
    rw [Pushed.written] at h
    split_ifs at h with hlarge
    obtain rfl := Option.some.inj h
    exact getOp_opcode hsized (Nat.le_of_not_lt hlarge) rest

/-! ## Whole scripts -/

variable {items : List Pushed}

theorem buildScript_cons {item : Pushed}
    (h : buildScript (item :: items) = some script) :
  ∃ first rest, item.written = some first ∧ buildScript items = some rest ∧ script = first ++ rest
  := by
  rw [buildScript, Option.map_eq_some_iff] at h
  obtain ⟨parts, hparts, rfl⟩ := h
  rw [List.mapM_cons] at hparts
  obtain ⟨first, hfirst, hparts⟩ := Option.bind_eq_some_iff.mp hparts
  obtain ⟨rest, hrest, hparts⟩ := Option.bind_eq_some_iff.mp hparts
  obtain rfl := Option.some.inj hparts
  refine ⟨first, rest.flatten, hfirst, ?_, List.flatten_cons⟩
  rw [buildScript, hrest, Option.map_some]

/-- A script is read back where all its pushes fit, and else the reader stops before the first that
does not. -/
theorem readBack_eq_iff
    (hsized : ∀ item ∈ items, item.Sized) (h : buildScript items = some script) :
  readBack script = (items.map Pushed.op, []) ↔ PushesFit items
  := by
  induction items generalizing script with
  | nil =>
    obtain rfl := Option.some.inj h
    exact ⟨fun _ => trivial, fun _ => rfl⟩
  | cons item items ih =>
    obtain ⟨hitem, hitems⟩ := List.forall_mem_cons.mp hsized
    obtain ⟨first, rest, hfirst, hrest, rfl⟩ := buildScript_cons h
    have hread := getOp_written hitem hfirst rest
    rw [PushesFit, hrest, Option.getD_some, ← ih hitems hrest, List.map_cons]
    by_cases hfits : item.op.2.length ≤ (item.op.2.length + rest.length) % 2 ^ 32
    · rw [readBack_cons hread hfits, and_iff_right hfits, Prod.mk.injEq, List.cons.injEq,
        and_iff_right rfl, Prod.ext_iff]
    · rw [readBack_cut hread hfits]
      constructor
      · intro heq
        cases heq
      · intro hboth
        exact absurd hboth.1 hfits

/-- In a script of less than 4 GiB every push fits. -/
theorem pushesFit_of_length_lt
    (hsized : ∀ item ∈ items, item.Sized)
    (h : buildScript items = some script) (hlength : script.length < 2 ^ 32) :
  PushesFit items
  := by
  induction items generalizing script with
  | nil => trivial
  | cons item items ih =>
    obtain ⟨hitem, hitems⟩ := List.forall_mem_cons.mp hsized
    obtain ⟨first, rest, hfirst, hrest, rfl⟩ := buildScript_cons h
    rw [List.length_append] at hlength
    refine ⟨?_, ih hitems hrest (by omega)⟩
    have hdata := (length_of_getOp (getOp_written hitem hfirst rest)).1
    rw [List.length_append] at hdata
    rw [hrest, Option.getD_some, Nat.mod_eq_of_lt (by omega)]
    omega

/-- Pushes are read back: the values of `PushAll` within the limits of the interpreter are what it leaves
on the stack, and a script that the operators built is read back if and only if no push is cut short by
the size of what follows it, as none is in a script of less than 4 GiB. -/
theorem pushes_readBack
    (crypto : Crypto) (ecdsa : Ecdsa) (hashes : ScriptHashes) (nHashType : Int32) (txTo : CTransaction)
    (nIn : ℕ) :
  (∀ values : List Bytes, (∀ v ∈ values, v.length ≤ 520) → values.length ≤ 1000 →
      (pushAll values).length ≤ 10000 →
      evalScript crypto ecdsa hashes nHashType [] (pushAll values) txTo nIn = some values.reverse)
    ∧ ∀ (items : List Pushed) (script : CScript), (∀ item ∈ items, item.Sized) →
      buildScript items = some script →
      (readBack script = (items.map Pushed.op, []) ↔ PushesFit items)
        ∧ (script.length < 2 ^ 32 → PushesFit items)
  := by
  constructor
  · intro values hsize hdepth hlength
    have hops : instructions (pushAll values) = (values.map (fun v => (pushOpcode v, v)), true) :=
      instructions_pushAll (fun v hv => lt_of_le_of_lt (hsize v hv) (by decide))
    rw [evalScript_pushes hops _ _ _ hlength, List.map_map, List.append_nil]
    · rw [show Prod.snd ∘ (fun v : Bytes => (pushOpcode v, v)) = id from rfl, List.map_id]
    · intro op hop
      obtain ⟨v, -, rfl⟩ := List.mem_map.mp hop
      exact pushOpcode_le v
    · intro op hop
      obtain ⟨v, hv, rfl⟩ := List.mem_map.mp hop
      exact hsize v hv
    · rw [List.length_map, List.length_nil, Nat.zero_add]
      exact hdepth
  · intro items script hsized h
    exact ⟨readBack_eq_iff hsized h, pushesFit_of_length_lt hsized h⟩

/-- An empty value and a byte on the stack, and an instruction of each kind read back. -/
theorem pushes_readBack_sample :
  evalScript sampleCrypto sizedEcdsa BurnPayload.sampleScriptHashes 0 [] (pushAll [[], [7]])
      CTransaction.blank 0 = some [[7], []]
    ∧ readBack [1, 7, 0x51, 0xac] = ([(1, [7]), (0x51, []), (0xac, [])], [])
  := by
  obtain ⟨heval, hread⟩ := pushes_readBack sampleCrypto sizedEcdsa BurnPayload.sampleScriptHashes 0
    CTransaction.blank 0
  constructor
  · apply heval [[], [7]]
    · decide
    · decide
    · decide
  · apply (hread [.data [7], .int64 1, .opcode 0xac] [1, 7, 0x51, 0xac] _ rfl).1.mpr
    · exact ⟨by decide, by decide, by decide, trivial⟩
    · intro item hitem
      rcases List.mem_cons.mp hitem with rfl | hitem
      · show [(7 : UInt8)].length < 2 ^ 32
        decide
      · rcases List.mem_cons.mp hitem with rfl | hitem
        · trivial
        · obtain rfl := List.mem_singleton.mp hitem
          show OP_PUSHDATA4 < 0xac
          decide

/-- Data that an opcode follows. -/
def dataAndNop (b : Bytes) : List Pushed := [.data b, .opcode 0x61]

theorem sized_dataAndNop (h : b.length < 2 ^ 32) : ∀ item ∈ dataAndNop b, item.Sized
  := by
  intro item hitem
  rcases List.mem_cons.mp hitem with rfl | hitem
  · exact h
  · obtain rfl := List.mem_singleton.mp hitem
    show OP_PUSHDATA4 < 0x61
    decide

theorem dataAndNop_cut (h : b.length = 2 ^ 32 - 1) :
  readBack (pushData b ++ [0x61]) ≠ ((dataAndNop b).map Pushed.op, [])
  := by
  intro hread
  have hfits : b.length ≤ (b.length + 1) % 2 ^ 32 :=
    ((readBack_eq_iff (sized_dataAndNop (by omega)) rfl).mp hread).1
  rw [h] at hfits
  omega

/-- Of nearly 4 GiB of data before an opcode nothing is read: 2^32 bytes are left, which the reader takes
for none. -/
theorem pushes_notReadBack :
  ¬∀ (items : List Pushed) (script : CScript), (∀ item ∈ items, item.Sized) →
    buildScript items = some script → readBack script = (items.map Pushed.op, [])
  := by
  intro hall
  have hlength : (List.replicate (2 ^ 32 - 1) (0 : UInt8)).length = 2 ^ 32 - 1 := List.length_replicate
  generalize List.replicate (2 ^ 32 - 1) (0 : UInt8) = b at hlength
  exact dataAndNop_cut hlength (hall (dataAndNop b) _ (sized_dataAndNop (by omega)) rfl)

end CorgiCoin
