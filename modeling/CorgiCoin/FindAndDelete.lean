import CorgiCoin.SignatureHash
import CorgiCoin.Lib.Tokens

/-!
# Deleting instructions from a script

A script is its instructions, one after another, and a tail that is no instruction.  `FindAndDelete`
compares bytes where an instruction starts, and what it leaves are the other instructions and the tail.
-/

namespace CorgiCoin

open Codec

/-! ## The bytes of an instruction -/

/-- The bytes of the length field that follows an opcode. -/
def lengthBytes (opcode : ℕ) : ℕ :=
  if opcode < OP_PUSHDATA1 then 0
  else if opcode = OP_PUSHDATA1 then 1
  else if opcode = OP_PUSHDATA2 then 2
  else if opcode = OP_PUSHDATA4 then 4
  else 0

/-- The bytes of an instruction: its opcode, the length of its data, its data. -/
def encodeOp (op : ℕ × Bytes) : CScript :=
  UInt8.ofNat op.1 :: (toLE (lengthBytes op.1) op.2.length ++ op.2)

/-- What an instruction can be: an opcode up to `OP_PUSHDATA1` tells the length of its data, the next
three are followed by it, and the others have no data. -/
structure IsOp (op : ℕ × Bytes) : Prop where
  opcode_lt : op.1 < 256
  length_eq : op.1 < OP_PUSHDATA1 → op.2.length = op.1
  length_lt : OP_PUSHDATA1 ≤ op.1 → op.1 ≤ OP_PUSHDATA4 → op.2.length < 256 ^ lengthBytes op.1
  noData : op.1 > OP_PUSHDATA4 → op.2 = []

/-- `GetOp`, the instruction in one. -/
def readOp (script : CScript) : Option ((ℕ × Bytes) × CScript) :=
  (getOp script).map (fun (opcode, vch, pc) => ((opcode, vch), pc))

variable {script pc : CScript} {op : ℕ × Bytes}

theorem readOp_eq_some_iff :
  readOp script = some (op, pc) ↔ getOp script = some (op.1, op.2, pc)
  := by
  rw [readOp, Option.map_eq_some_iff]
  constructor
  · rintro ⟨⟨opcode, vch, pc'⟩, hop, heq⟩
    obtain ⟨rfl, rfl⟩ := Prod.mk.inj heq
    exact hop
  · intro hop
    exact ⟨_, hop, rfl⟩

theorem lengthBytes_eq_zero {opcode : ℕ} (h : opcode < OP_PUSHDATA1 ∨ opcode > OP_PUSHDATA4) :
  lengthBytes opcode = 0
  := by
  rw [lengthBytes]
  split_ifs
  all_goals
    simp only [OP_PUSHDATA1, OP_PUSHDATA2, OP_PUSHDATA4] at *
    try omega

/-- The length that a push of an opcode reads. -/
def pushedLength (opcode : ℕ) (pc : CScript) : ℕ :=
  if opcode < OP_PUSHDATA1 then opcode else ofLE (pc.take (lengthBytes opcode))

theorem getOp_eq_bind {b : UInt8} (h : ¬b.toNat > OP_PUSHDATA4) :
  getOp (b :: pc)
    = if pc.length < lengthBytes b.toNat then none
      else if (pc.drop (lengthBytes b.toNat)).length < pushedLength b.toNat pc then none
      else some (b.toNat, (pc.drop (lengthBytes b.toNat)).take (pushedLength b.toNat pc),
        (pc.drop (lengthBytes b.toNat)).drop (pushedLength b.toNat pc))
  := by
  have hfield : lengthBytes b.toNat = if b.toNat < OP_PUSHDATA1 then 0 else if b.toNat = OP_PUSHDATA1 then 1
      else if b.toNat = OP_PUSHDATA2 then 2 else 4 := by
    rw [lengthBytes]
    split_ifs
    all_goals
      simp only [OP_PUSHDATA1, OP_PUSHDATA2, OP_PUSHDATA4] at *
      try omega
  rw [getOp]
  dsimp only
  rw [if_neg h, ← hfield]
  rfl

/-- The data of an instruction that pushes is as long as is read. -/
theorem IsOp.pushedLength_eq
    (h : IsOp op) (hpush : op.1 ≤ OP_PUSHDATA4) (rest : CScript) :
  pushedLength op.1 (toLE (lengthBytes op.1) op.2.length ++ rest) = op.2.length
  := by
  rw [pushedLength]
  split_ifs with hshort
  · exact (h.length_eq hshort).symm
  · rw [List.take_left' (length_toLE _ _), ofLE_toLE_of_lt (h.length_lt (Nat.le_of_not_lt hshort) hpush)]

theorem readOp_encodeOp (h : IsOp op) (rest : CScript) :
  readOp (encodeOp op ++ rest) = some (op, rest)
  := by
  have hopcode : (UInt8.ofNat op.1).toNat = op.1 := by
    rw [UInt8.toNat_ofNat', Nat.mod_eq_of_lt h.opcode_lt]
  rw [readOp_eq_some_iff, encodeOp, List.cons_append, List.append_assoc]
  by_cases hpush : op.1 > OP_PUSHDATA4
  · rw [h.noData hpush, lengthBytes_eq_zero (.inr hpush), getOp]
    dsimp only
    rw [hopcode, if_pos hpush]
    rfl
  · have hfield := length_toLE (lengthBytes op.1) op.2.length
    rw [getOp_eq_bind (by rwa [hopcode]), hopcode, h.pushedLength_eq (Nat.le_of_not_lt hpush),
      List.drop_left' hfield, if_neg, if_neg, List.take_left, List.drop_left]
    · rw [List.length_append]
      omega
    · rw [List.length_append, hfield]
      omega

theorem isOp_of_readOp (h : readOp script = some (op, pc)) :
  IsOp op ∧ script = encodeOp op ++ pc
  := by
  rw [readOp_eq_some_iff] at h
  obtain ⟨opcode, vch⟩ := op
  cases script with
  | nil => cases h
  | cons b script =>
    have hbyte : UInt8.ofNat b.toNat = b := UInt8.ofNat_toNat
    have hlt := b.toNat_lt
    by_cases hpush : b.toNat > OP_PUSHDATA4
    · rw [getOp] at h
      dsimp only at h
      rw [if_pos hpush] at h
      generalize b.toNat = n at *
      obtain ⟨rfl, rfl, rfl⟩ := h
      refine ⟨⟨hlt, ?_, ?_, fun _ => rfl⟩, ?_⟩
      · intro hshort
        simp only [OP_PUSHDATA1, OP_PUSHDATA4] at *
        omega
      · intro _ hle
        exact absurd hle (Nat.not_le.mpr hpush)
      · rw [encodeOp, hbyte, lengthBytes_eq_zero (.inr hpush)]
        rfl
    · rw [getOp_eq_bind hpush] at h
      generalize b.toNat = n at *
      split_ifs at h with hfield hdata
      simp only [Option.some.injEq, Prod.mk.injEq] at h
      obtain ⟨rfl, rfl, rfl⟩ := h
      generalize hrest : script.drop (lengthBytes n) = rest at hdata ⊢
      have hlength : (rest.take (pushedLength n script)).length = pushedLength n script :=
        List.length_take_of_le (Nat.le_of_not_lt hdata)
      have htake : (script.take (lengthBytes n)).length = lengthBytes n :=
        List.length_take_of_le (Nat.le_of_not_lt hfield)
      have hnumber : toLE (lengthBytes n) (pushedLength n script) = script.take (lengthBytes n) := by
        rw [pushedLength]
        split_ifs with hshort
        · rw [lengthBytes_eq_zero (.inl hshort)]
          rfl
        · have hback := toLE_ofLE (script.take (lengthBytes n))
          rwa [htake] at hback
      refine ⟨⟨hlt, ?_, ?_, ?_⟩, ?_⟩
      · intro hshort
        rw [hlength, pushedLength, if_pos hshort]
      · intro hlong _
        have hvalue : pushedLength n script = ofLE (script.take (lengthBytes n)) :=
          if_neg (Nat.not_lt.mpr hlong)
        have hbound := ofLE_lt (script.take (lengthBytes n))
        rw [htake] at hbound
        rwa [hlength, hvalue]
      · intro hop
        exact absurd hop hpush
      · rw [encodeOp, hbyte, hlength, hnumber, List.cons_append, List.append_assoc, List.take_append_drop,
          ← hrest, List.take_append_drop]

/-- A script is a text of instructions. -/
theorem opTokenizer :
  Tokenizer IsOp encodeOp readOp
  := ⟨fun _ h rest => readOp_encodeOp h rest, fun _ _ _ => isOp_of_readOp, fun _ _ => List.cons_ne_nil _ _⟩

/-- The instructions of a script are those it splits into. -/
theorem instructions_eq_of_splits
    {tail : CScript} {ops : List (ℕ × Bytes)} (h : Splits IsOp encodeOp readOp script ops tail) :
  instructions script = (ops, tail.isEmpty)
  := by
  obtain ⟨hvalid, rfl, hstop⟩ := h
  induction ops with
  | nil =>
    rw [List.flatMap_nil, List.nil_append]
    cases tail with
    | nil => rfl
    | cons b tail =>
      rw [readOp, Option.map_eq_none_iff] at hstop
      rw [instructions, List.length_cons, parse, if_neg (by simp), hstop]
      rfl
  | cons op ops ih =>
    obtain ⟨hop, hops⟩ := List.forall_mem_cons.mp hvalid
    have hread := readOp_eq_some_iff.mp (readOp_encodeOp hop (ops.flatMap encodeOp ++ tail))
    rw [List.flatMap_cons, List.append_assoc, instructions_cons hread, ih hops]

/-- A script is its instructions and a tail that is no instruction. -/
theorem splits_instructions (script : CScript) :
  ∃ tail, Splits IsOp encodeOp readOp script (instructions script).1 tail
    ∧ (instructions script).2 = tail.isEmpty
  := by
  obtain ⟨ops, tail, hsplits⟩ := opTokenizer.exists_splits script
  rw [instructions_eq_of_splits hsplits]
  exact ⟨tail, hsplits, rfl⟩

/-! ## The function -/

/-- The loops of `CScript::FindAndDelete`: the bytes before the cursor, those after it and the number of
occurrences that were erased.  Each turn takes a byte at least, so that the length of the script is fuel
enough. -/
def findAndDeleteFrom (b : CScript) : ℕ → CScript → CScript → ℕ → CScript × ℕ
  | 0, before, pc, nFound => (before ++ pc, nFound)
  | fuel + 1, before, pc, nFound =>
    if pc.length ≥ b.length ∧ pc.take b.length = b then
      findAndDeleteFrom b fuel before (pc.drop b.length) (nFound + 1)
    else
      match getOp pc with
      | none => (before ++ pc, nFound)
      | some (_, _, next) =>
        findAndDeleteFrom b fuel (before ++ pc.take (pc.length - next.length)) next nFound

/-- `CScript::FindAndDelete`: what is left of the script, and what is returned. -/
def findAndDeleteFound (b script : CScript) : CScript × ℕ :=
  if b.isEmpty then (script, 0) else findAndDeleteFrom b script.length [] script 0

/-! ## Deleting is filtering -/

/-- The comparison of the bytes after the cursor. -/
theorem compare_iff {b : CScript} :
  (pc.length ≥ b.length ∧ pc.take b.length = b) ↔ b <+: pc
  := by
  rw [List.prefix_iff_eq_take, eq_comm, and_iff_right_iff_imp]
  intro htake
  rw [htake, List.length_take]
  apply Nat.min_le_right

/-- What is left is what `findAndDelete` leaves. -/
theorem findAndDeleteFrom_fst (b : CScript) (fuel : ℕ) (before pc : CScript) (nFound : ℕ) :
  (findAndDeleteFrom b fuel before pc nFound).1 = before ++ findAndDeleteLoop b fuel pc
  := by
  induction fuel generalizing before pc nFound with
  | zero => rfl
  | succ fuel ih =>
    rw [findAndDeleteFrom, findAndDeleteLoop]
    simp only [compare_iff, ← List.isPrefixOf_iff_prefix]
    split_ifs
    · apply ih
    · cases getOp pc with
      | none => rfl
      | some op =>
        dsimp only
        rw [ih, List.append_assoc]

theorem findAndDeleteFound_fst (b script : CScript) :
  (findAndDeleteFound b script).1 = findAndDelete b script
  := by
  rw [findAndDeleteFound, findAndDelete]
  split_ifs
  · rfl
  · rw [findAndDeleteFrom_fst, List.nil_append]

section Deleting

variable {op : ℕ × Bytes} {tail pc : CScript}

/-- One turn of the loops at an instruction. -/
theorem findAndDeleteFrom_cons
    (hop : IsOp op) {op' : ℕ × Bytes} (hop' : IsOp op') (fuel : ℕ) (before : CScript) (nFound : ℕ) :
  findAndDeleteFrom (encodeOp op) (fuel + 1) before (encodeOp op' ++ pc) nFound
    = if op' = op then findAndDeleteFrom (encodeOp op) fuel before pc (nFound + 1)
      else findAndDeleteFrom (encodeOp op) fuel (before ++ encodeOp op') pc nFound
  := by
  have hread := readOp_encodeOp hop' pc
  rw [findAndDeleteFrom]
  by_cases hsame : op' = op
  · subst hsame
    rw [if_pos (compare_iff.mpr (List.prefix_append _ _)), if_pos rfl, List.drop_left]
  · rw [if_neg, if_neg hsame, readOp_eq_some_iff.mp hread]
    · dsimp only
      rw [List.length_append, Nat.add_sub_cancel, List.take_left]
    · rw [compare_iff, opTokenizer.prefix_iff hop, hread]
      rintro ⟨rest, heq⟩
      exact hsame (Prod.mk.inj (Option.some.inj heq)).1

/-- The loops end at a tail without an instruction. -/
theorem findAndDeleteFrom_tail
    (hop : IsOp op) (hstop : readOp tail = none) (fuel : ℕ) (before : CScript) (nFound : ℕ) :
  findAndDeleteFrom (encodeOp op) fuel before tail nFound = (before ++ tail, nFound)
  := by
  cases fuel with
  | zero => rfl
  | succ fuel =>
    rw [findAndDeleteFrom, if_neg]
    · rw [readOp, Option.map_eq_none_iff] at hstop
      rw [hstop]
    · rw [compare_iff, opTokenizer.prefix_iff hop, hstop]
      rintro ⟨rest, hread⟩
      cases hread

/-- The loops erase the instructions that are equal to the one deleted and pass over the others. -/
theorem findAndDeleteFrom_eq
    (hop : IsOp op) {ops : List (ℕ × Bytes)} (h : Splits IsOp encodeOp readOp pc ops tail) {fuel : ℕ}
    (hfuel : pc.length ≤ fuel) (before : CScript) (nFound : ℕ) :
  findAndDeleteFrom (encodeOp op) fuel before pc nFound
    = (before ++ ((ops.filter (· ≠ op)).flatMap encodeOp ++ tail), nFound + ops.count op)
  := by
  obtain ⟨hvalid, rfl, hstop⟩ := h
  induction ops generalizing fuel before nFound with
  | nil =>
    rw [List.flatMap_nil, List.nil_append, findAndDeleteFrom_tail hop hstop]
    rfl
  | cons op' ops ih =>
    obtain ⟨hop', hops⟩ := List.forall_mem_cons.mp hvalid
    have hpos := List.length_pos_iff.mpr (opTokenizer.write_ne_nil op' hop')
    rw [List.flatMap_cons, List.append_assoc, List.length_append] at hfuel
    obtain ⟨fuel, rfl⟩ := Nat.exists_eq_succ_of_ne_zero (n := fuel) (by omega)
    rw [List.flatMap_cons, List.append_assoc, findAndDeleteFrom_cons hop hop']
    split_ifs with hsame
    · rw [ih before (nFound + 1) hops (by omega), hsame, List.count_cons_self, List.filter_cons_of_neg (by simp), Nat.add_assoc,
        Nat.add_comm 1]
    · rw [ih (before ++ encodeOp op') nFound hops (by omega), List.count_cons_of_ne hsame, List.filter_cons_of_pos (by simpa using hsame),
        List.flatMap_cons, List.append_assoc, List.append_assoc]

/-- Deleting an instruction from a script leaves the others and the tail. -/
theorem findAndDeleteFound_eq
    (hop : IsOp op) {script : CScript} {ops : List (ℕ × Bytes)}
    (h : Splits IsOp encodeOp readOp script ops tail) :
  findAndDeleteFound (encodeOp op) script
    = ((ops.filter (· ≠ op)).flatMap encodeOp ++ tail, ops.count op)
  := by
  have hempty : (encodeOp op).isEmpty = false := rfl
  rw [findAndDeleteFound, hempty, if_neg Bool.false_ne_true, findAndDeleteFrom_eq hop h le_rfl,
    List.nil_append, Nat.zero_add]

end Deleting

/-- Deleting an instruction is a filter on the instructions of a script.  The others and a tail that is no
instruction stay byte for byte, the number of those deleted is returned, and nothing is left to delete. -/
theorem findAndDelete_filter
    {b : CScript} {opcode : ℕ} {vch : Bytes} (hb : getOp b = some (opcode, vch, [])) (script : CScript) :
  ∃ tail, getOp tail = none
    ∧ script = (instructions script).1.flatMap encodeOp ++ tail
    ∧ (∀ op ∈ (instructions script).1, getOp (encodeOp op) = some (op.1, op.2, []))
    ∧ findAndDeleteFound b script
      = (((instructions script).1.filter (· ≠ (opcode, vch))).flatMap encodeOp ++ tail,
        (instructions script).1.count (opcode, vch))
    ∧ findAndDelete b script = (findAndDeleteFound b script).1
    ∧ instructions (findAndDelete b script)
      = ((instructions script).1.filter (· ≠ (opcode, vch)), (instructions script).2)
    ∧ findAndDeleteFound b (findAndDelete b script) = (findAndDelete b script, 0)
  := by
  have hread : readOp b = some ((opcode, vch), []) := readOp_eq_some_iff.mpr hb
  obtain ⟨hop, hbytes⟩ := isOp_of_readOp hread
  rw [List.append_nil] at hbytes
  obtain ⟨tail, hsplits, htail⟩ := splits_instructions script
  have hfound := findAndDeleteFound_eq hop hsplits
  rw [← hbytes] at hfound
  have hleft : findAndDelete b script
      = ((instructions script).1.filter (· ≠ (opcode, vch))).flatMap encodeOp ++ tail := by
    rw [← findAndDeleteFound_fst, hfound]
  have hsplits' := hsplits.filter (· ≠ (opcode, vch))
  rw [← hleft] at hsplits'
  refine ⟨tail, ?_, hsplits.eq, ?_, hfound, (findAndDeleteFound_fst b script).symm, ?_, ?_⟩
  · have hstop := hsplits.stop
    rwa [readOp, Option.map_eq_none_iff] at hstop
  · intro op hmem
    have hread := readOp_encodeOp (hsplits.valid op hmem) []
    rwa [List.append_nil, readOp_eq_some_iff] at hread
  · rw [instructions_eq_of_splits hsplits', htail]
  · have hnone : ((instructions script).1.filter (· ≠ (opcode, vch))).count (opcode, vch) = 0 := by
      rw [List.count_eq_zero]
      intro hmem
      simpa using (List.mem_filter.mp hmem).2
    have hagain := findAndDeleteFound_eq hop hsplits'
    rw [← hbytes, hnone, List.filter_filter] at hagain
    simp only [Bool.and_self] at hagain
    rw [hagain, hleft]

/-- Two code separators beside a push that holds one: both are deleted, the push stays. -/
theorem findAndDelete_filter_codeSeparators :
  findAndDeleteFound [0xab] [0xab, 0xab, 1, 0xab, 0x4c] = ([1, 0xab, 0x4c], 2)
    ∧ findAndDeleteFound [0xab] (findAndDelete [0xab] [0xab, 0xab, 1, 0xab, 0x4c])
      = (findAndDelete [0xab] [0xab, 0xab, 1, 0xab, 0x4c], 0)
  := by
  have hneedle : getOp [0xab] = some (0xab, [], []) := rfl
  obtain ⟨-, -, -, -, -, -, -, hagain⟩ := findAndDelete_filter hneedle [0xab, 0xab, 1, 0xab, 0x4c]
  exact ⟨by decide, hagain⟩

end CorgiCoin
