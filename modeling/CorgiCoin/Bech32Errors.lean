import CorgiCoin.Address
import CorgiCoin.Lib.LinearCode

/-!
# Typing errors in bech32m

A turn of `PolyMod` is linear, and no difference of a character turns into the difference of another
one, over as many turns as a string has.  So a string with one or two characters of its data part
changed has a wrong checksum.
-/

namespace CorgiCoin

open LinearCode

namespace Bech32

/-! ## A turn of the loop is linear -/

/-- A multiple of the generator, where the bit shifted out calls for it. -/
def multiple (g : BitVec 32) (b : Bool) : BitVec 32 := if b then g else 0

theorem multiple_xor (g : BitVec 32) (a b : Bool) :
  multiple g (a ^^ b) = multiple g a ^^^ multiple g b
  := by
  cases a with
  | false => cases b <;> simp [multiple]
  | true => cases b <;> simp [multiple]

theorem ite_and_ne_zero (c0 c g : BitVec 32) {i : ℕ} (hi : i < 32) :
  (if c0 &&& BitVec.twoPow 32 i ≠ 0 then c ^^^ g else c) = c ^^^ multiple g (c0.getLsbD i)
  := by
  have hpow : BitVec.twoPow 32 i ≠ 0#32 := by
    intro hzero
    have hbit := congrArg (BitVec.getLsbD · i) hzero
    simp [hi] at hbit
  rw [BitVec.and_twoPow, multiple]
  cases c0.getLsbD i with
  | false => simp
  | true => simp [hpow]

/-- The multiples of the generator, one for each of the bits shifted out. -/
theorem reduce_eq (c0 c : BitVec 32) :
  reduce c0 c = c ^^^ multiple 0x3b6a57b2 (c0.getLsbD 0) ^^^ multiple 0x26508e6d (c0.getLsbD 1)
    ^^^ multiple 0x1ea119fa (c0.getLsbD 2) ^^^ multiple 0x3d4233dd (c0.getLsbD 3)
    ^^^ multiple 0x2a1462b3 (c0.getLsbD 4)
  := by
  have hone : (1 : BitVec 32) = BitVec.twoPow 32 0 := rfl
  have htwo : (2 : BitVec 32) = BitVec.twoPow 32 1 := rfl
  have hfour : (4 : BitVec 32) = BitVec.twoPow 32 2 := rfl
  have height : (8 : BitVec 32) = BitVec.twoPow 32 3 := rfl
  have hsixteen : (16 : BitVec 32) = BitVec.twoPow 32 4 := rfl
  rw [reduce, hone, htwo, hfour, height, hsixteen, ite_and_ne_zero _ _ _ (by decide),
    ite_and_ne_zero _ _ _ (by decide), ite_and_ne_zero _ _ _ (by decide),
    ite_and_ne_zero _ _ _ (by decide), ite_and_ne_zero _ _ _ (by decide)]

theorem reduce_xor_xor (a b c d : BitVec 32) :
  reduce (a ^^^ b) (c ^^^ d) = reduce a c ^^^ reduce b d
  := by
  simp only [reduce_eq, BitVec.getLsbD_xor, multiple_xor]
  ac_rfl

theorem polyModStep_xor_zero (c d : BitVec 32) :
  polyModStep (c ^^^ d) 0 = polyModStep c 0 ^^^ polyModStep d 0
  := by
  have hand : (c ^^^ d) &&& 0x1ffffff = (c &&& 0x1ffffff) ^^^ (d &&& 0x1ffffff) := by
    apply BitVec.eq_of_toNat_eq
    simp only [BitVec.toNat_and, BitVec.toNat_xor]
    apply Nat.and_xor_distrib_right
  have hzero : BitVec.ofNat 32 (0 : UInt8).toNat = 0#32 := rfl
  rw [polyModStep, polyModStep, polyModStep, hzero, BitVec.xor_zero, BitVec.xor_zero,
    BitVec.xor_zero, BitVec.ushiftRight_xor_distrib, hand, BitVec.shiftLeft_xor_distrib,
    reduce_xor_xor]

/-- The value of a character as a state of the register. -/
def symbol (v : UInt8) : XorWord 32 := BitVec.ofNat 32 v.toNat

/-- A turn of the loop without a value. -/
def shift : XorWord 32 →+ XorWord 32 where
  toFun c := polyModStep c 0
  map_zero' := by
    change polyModStep 0#32 0 = 0#32
    decide
  map_add' := polyModStep_xor_zero

theorem polyModStep_eq (c : BitVec 32) (v : UInt8) :
  polyModStep c v = shift c + symbol v
  := by
  have hzero : BitVec.ofNat 32 (0 : UInt8).toNat = 0#32 := rfl
  change polyModStep c v = polyModStep c 0 ^^^ BitVec.ofNat 32 v.toNat
  rw [polyModStep, polyModStep, hzero, BitVec.xor_zero, reduce_xor]

theorem polyMod_eq_remainder (pre vs : Bytes) :
  polyMod (pre ++ vs) = remainder shift (polyMod pre) (vs.map symbol)
  := by
  have hstep : polyModStep = fun c v => shift c + symbol v := by
    funext c v
    apply polyModStep_eq
  change (pre ++ vs).foldl polyModStep 1
    = (vs.map symbol).foldl (fun c v => shift c + v) (pre.foldl polyModStep (1 : BitVec 32))
  rw [List.foldl_append, List.foldl_map]
  apply congrArg (fun f => vs.foldl f (pre.foldl polyModStep (1 : BitVec 32))) hstep

/-! ## Differences of characters stay apart -/

/-- No value that a difference turns into, in a number of turns, is one of a character. -/
def separated : ℕ → BitVec 32 → Bool
  | 0, _ => true
  | n + 1, c => 32 ≤ (polyModStep c 0).toNat && separated n (polyModStep c 0)

theorem le_of_separated {n : ℕ} {c : XorWord 32} (h : separated n c = true) :
  ∀ i < n, 32 ≤ BitVec.toNat (shift^[i + 1] c)
  := by
  induction n generalizing c with
  | zero =>
    intro i hi
    cases hi
  | succ n ih =>
    obtain ⟨hle, hrest⟩ := Bool.and_eq_true_iff.mp h
    intro i hi
    cases i with
    | zero => apply of_decide_eq_true hle
    | succ i =>
      rw [Function.iterate_succ_apply]
      apply ih hrest i (by omega)

theorem separated_digits : ∀ v < 32, v ≠ 0 → separated 88 (BitVec.ofNat 32 v) = true := by
  decide +kernel

/-- Only nothing shifted out calls for nothing in the lowest five bits. -/
theorem reduce_low : ∀ n < 32, (reduce (BitVec.ofNat 32 n) 0).toNat % 32 = 0 → n = 0 := by
  decide

theorem shift_ne_zero {c : BitVec 32} (h : c.toNat < 2 ^ 30) (hne : c ≠ 0) : polyModStep c 0 ≠ 0
  := by
  intro hzero
  apply hne
  have hstep : polyModStep c 0 = reduce (c >>> 25) 0 ^^^ ((c &&& 0x1ffffff) <<< 5) := by
    rw [polyModStep, ← reduce_xor]
    simp
  have hout : (c >>> 25).toNat = c.toNat / 2 ^ 25 := by
    rw [BitVec.toNat_ushiftRight, Nat.shiftRight_eq_div_pow]
  have hlow : (c &&& 0x1ffffff).toNat = c.toNat % 2 ^ 25 := by
    rw [BitVec.toNat_and]
    change c.toNat &&& (2 ^ 25 - 1) = c.toNat % 2 ^ 25
    rw [Nat.and_two_pow_sub_one_eq_mod]
  have hshifted : ((c &&& 0x1ffffff) <<< 5).toNat = c.toNat % 2 ^ 25 * 32 := by
    rw [BitVec.toNat_shiftLeft, Nat.shiftLeft_eq, hlow]
    omega
  rw [hstep] at hzero
  have heq : reduce (c >>> 25) 0 = (c &&& 0x1ffffff) <<< 5 := BitVec.xor_eq_zero_iff.mp hzero
  have hnat := congrArg BitVec.toNat heq
  rw [hshifted] at hnat
  -- nothing is shifted out, and so nothing is left
  have hzeroOut : c.toNat / 2 ^ 25 = 0 := by
    apply reduce_low _ (by omega)
    rw [← hout, BitVec.ofNat_toNat, BitVec.setWidth_eq, hnat]
    omega
  have hnone : (reduce (c >>> 25) 0).toNat = 0 := by
    have hc0 : c >>> 25 = 0#32 := by
      apply BitVec.eq_of_toNat_eq
      rw [hout, hzeroOut]
      rfl
    rw [hc0]
    rfl
  apply BitVec.eq_of_toNat_eq
  rw [hnone] at hnat
  change c.toNat = 0
  omega

/-- The register of the checksum, for words of as many as 89 characters. -/
theorem separates_shift : Separates shift (XorWord.below 32 30) (XorWord.below 32 5) 88
  := by
  constructor
  · intro c hc
    rw [XorWord.mem_below] at hc ⊢
    omega
  · intro c _
    apply polyModStep_lt
  · intro c hc hne
    apply shift_ne_zero hc hne
  · intro v hv hne i hi hmem
    have hzero : BitVec.toNat v ≠ 0 := fun h => hne (BitVec.eq_of_toNat_eq h)
    have hsep := separated_digits (BitVec.toNat v) hv hzero
    have hback : BitVec.ofNat 32 (BitVec.toNat v) = v := by
      apply BitVec.eq_of_toNat_eq
      rw [BitVec.toNat_ofNat]
      apply Nat.mod_eq_of_lt (BitVec.isLt _)
    rw [hback] at hsep
    have hle := le_of_separated hsep i hi
    rw [XorWord.mem_below] at hmem
    omega

theorem symbol_mem {v : UInt8} (h : v.toNat < 32) : symbol v ∈ XorWord.below 32 5
  := by
  rw [XorWord.mem_below, symbol, BitVec.toNat_ofNat]
  omega

theorem symbol_injective : Function.Injective symbol
  := by
  intro v w h
  have hnat := congrArg BitVec.toNat h
  have hv := v.toNat_lt
  have hw := w.toNat_lt
  rw [symbol, symbol, BitVec.toNat_ofNat, BitVec.toNat_ofNat] at hnat
  apply UInt8.toNat_inj.mp
  omega

/-- Values that differ in one or two places do not have the same checksum. -/
theorem polyMod_ne_polyMod
    {vs ws : Bytes} (hvs : ∀ v ∈ vs, v.toNat < 32) (hws : ∀ w ∈ ws, w.toNat < 32)
    (hlength : vs.length = ws.length) (hshort : vs.length ≤ 89) (hpos : distance vs ws ≠ 0)
    (htwo : distance vs ws ≤ 2) (pre : Bytes) :
  polyMod (pre ++ vs) ≠ polyMod (pre ++ ws)
  := by
  have hdistance : distance (vs.map symbol) (ws.map symbol) = distance vs ws := by
    apply distance_map
    intro v _ w _ h
    apply symbol_injective h
  have hmem : ∀ {us : Bytes}, (∀ u ∈ us, u.toNat < 32) →
      ∀ s ∈ us.map symbol, s ∈ XorWord.below 32 5 := by
    intro us hus s hs
    obtain ⟨u, hu, rfl⟩ := List.mem_map.mp hs
    apply symbol_mem (hus u hu)
  rw [polyMod_eq_remainder, polyMod_eq_remainder]
  apply remainder_ne_remainder separates_shift (hmem hvs) (hmem hws)
  · rw [List.length_map, List.length_map, hlength]
  · rw [List.length_map]
    apply hshort
  · rw [hdistance]
    apply hpos
  · rw [hdistance]
    apply htwo

/-! ## Mistyped strings -/

/-- A string with one or two characters of its data part, after its last `1`, changed to others of
the charset. -/
def Mistyped (str str' : List Char) : Prop :=
  ∃ hrp part part', str = hrp ++ '1' :: part ∧ str' = hrp ++ '1' :: part' ∧ '1' ∉ part
    ∧ part'.length = part.length ∧ (∀ c ∈ part', c ∈ CHARSET)
    ∧ distance part part' ≠ 0 ∧ distance part part' ≤ 2

theorem charset_spec : ∀ c ∈ CHARSET, toLower c = c ∧ c ≠ '1'
  := by
  have hall : CHARSET.all (fun c => toLower c == c && c != '1') = true := by decide
  intro c hc
  have hchar := List.all_eq_true.mp hall c hc
  rw [Bool.and_eq_true, beq_iff_eq, bne_iff_ne] at hchar
  apply hchar

theorem charsetChar_inj {v w : UInt8} (hv : v.toNat < 32) (hw : w.toNat < 32)
    (h : charsetChar v = charsetChar w) :
  v = w
  := by
  have hrev := charsetRev_charsetChar hv
  rw [h, charsetRev_charsetChar hw] at hrev
  apply (Option.some.inj hrev).symm

/-- The separator cuts a string in one way. -/
theorem append_one_inj {hrp hrp' part part' : List Char} (hone : '1' ∉ part) (hone' : '1' ∉ part')
    (h : hrp ++ '1' :: part = hrp' ++ '1' :: part') :
  hrp = hrp' ∧ part = part'
  := by
  have hfind := @rfindOne_append hrp part hone
  rw [h, rfindOne_append hone'] at hfind
  obtain ⟨hhrp, hpart⟩ := List.append_inj h (Option.some.inj hfind).symm
  exact ⟨hhrp, (List.cons.inj hpart).2⟩

/-- The values of the data part that is written. -/
def written (hrp : List Char) (data : Bytes) : Bytes := data ++ createChecksum .BECH32M hrp data

theorem written_lt {hrp : List Char} {data : Bytes} (h : Encodable hrp data) :
  ∀ v ∈ written hrp data, v.toNat < 32
  := by
  intro v hv
  rcases List.mem_append.mp hv with hv | hv
  · apply h.values v hv
  · rw [createChecksum_eq] at hv
    apply checksumOf_lt hv

theorem one_not_mem_written {hrp : List Char} {data : Bytes} (h : Encodable hrp data) :
  '1' ∉ (written hrp data).map charsetChar
  := by
  intro hmem
  obtain ⟨v, hv, heq⟩ := List.mem_map.mp hmem
  have hspec := charsetChar_spec v.toNat (written_lt h v hv)
  rw [UInt8.ofNat_toNat] at hspec
  apply hspec.2.2.2.2 heq

theorem polyMod_written (hrp : List Char) (data : Bytes) :
  polyMod (expandHRP hrp ++ written hrp data) = BECH32M_CONST
  := by
  have hgood := checksum_good hrp data
  rw [verifyChecksum] at hgood
  split_ifs at hgood with hone hm
  apply hm

/-- Strings that are written for the same prefix do not differ in one or two characters of their
data parts. -/
theorem encode_not_mistyped
    {hrp hrp' : List Char} {data data' : Bytes} (h : Encodable hrp data) (h' : Encodable hrp' data') :
  ¬Mistyped (encode .BECH32M hrp data) (encode .BECH32M hrp' data')
  := by
  rintro ⟨p, part, part', hstr, hstr', hone, hlength, hchars, hpos, htwo⟩
  have hone' : '1' ∉ part' := fun hmem => (charset_spec _ (hchars _ hmem)).2 rfl
  rw [encode_eq h] at hstr
  rw [encode_eq h'] at hstr'
  obtain ⟨rfl, rfl⟩ := append_one_inj (one_not_mem_written h) hone hstr
  obtain ⟨rfl, rfl⟩ := append_one_inj (one_not_mem_written h') hone' hstr'
  rw [List.length_map, List.length_map] at hlength
  have hdistance : distance ((written hrp' data).map charsetChar) ((written hrp' data').map charsetChar)
      = distance (written hrp' data) (written hrp' data') := by
    apply distance_map
    intro v hv w hw heq
    apply charsetChar_inj (written_lt h v hv) (written_lt h' w hw) heq
  rw [hdistance] at hpos htwo
  have hshort : (written hrp' data).length ≤ 89 := by
    have hlen := h.length
    rw [written, List.length_append, createChecksum_eq, length_checksumOf]
    omega
  apply polyMod_ne_polyMod (written_lt h) (written_lt h') hlength.symm hshort hpos htwo
    (expandHRP hrp')
  rw [polyMod_written, polyMod_written]

end Bech32

/-! ## Mistyped addresses -/

namespace CBitcoinAddress

open Bech32

theorem toBech32_CNoDestination (fTestNet : Bool) :
  (ofDestination fTestNet .CNoDestination).toBech32 fTestNet = []
  := by
  cases fTestNet <;> rfl

/-- A string in upper case does not start with the prefix of a network. -/
theorem prefix_ne_upper (fTestNet : Bool) (data : Bytes) (rest : List Char)
    (h : Encodable (bech32HRP fTestNet) data) :
  bech32HRP fTestNet ++ rest ≠ (encode .BECH32M (bech32HRP fTestNet) data).map toUpper
  := by
  rw [encode_eq h]
  intro heq
  have hhead := congrArg List.head? heq
  revert hhead
  cases fTestNet <;> simp [bech32HRP, toUpper, isLower]

/-- An address with one or two characters of its data part mistyped is rejected. -/
theorem setBech32_of_mistyped {fTestNet : Bool} {d : CTxDestination} {str : List Char}
    (h : Mistyped ((ofDestination fTestNet d).toBech32 fTestNet) str) :
  setBech32 fTestNet str = none
  := by
  by_cases hd : d = .CNoDestination
  · obtain ⟨hrp, part, part', hstr, _⟩ := h
    rw [hd, toBech32_CNoDestination] at hstr
    apply absurd hstr.symm (List.append_ne_nil_of_right_ne_nil _ (List.cons_ne_nil _ _))
  · obtain ⟨henc, _⟩ := @encodable_bech32Data fTestNet d hd
    rw [toBech32_ofDestination hd] at h
    cases hset : setBech32 fTestNet str with
    | none => rfl
    | some addr =>
      exfalso
      obtain ⟨d', hd', rfl, hstr⟩ := of_setBech32 hset
      obtain ⟨henc', _⟩ := @encodable_bech32Data fTestNet d' hd'
      rw [toBech32_ofDestination hd'] at hstr
      rcases hstr with rfl | rfl
      · apply encode_not_mistyped henc henc' h
      · -- in upper case the string has another prefix
        obtain ⟨hrp, part, part', hstr, hstr', hone, _⟩ := h
        rw [encode_eq henc] at hstr
        obtain ⟨rfl, _⟩ := append_one_inj (one_not_mem_written henc) hone hstr
        apply prefix_ne_upper fTestNet _ _ henc' hstr'.symm

/-- The address of the key hash zero, with its first two characters after the separator mistyped. -/
theorem setBech32_of_mistyped_zero :
  Mistyped ((ofDestination false (.CKeyID 0)).toBech32 false)
      "corg1pzqqqqqqqqqqqqqqqqqqqqqqqqqqqqqqqydfta8".toList
    ∧ setBech32 false "corg1pzqqqqqqqqqqqqqqqqqqqqqqqqqqqqqqqydfta8".toList = none
  := by
  have hmistyped : Mistyped ((ofDestination false (.CKeyID 0)).toBech32 false)
      "corg1pzqqqqqqqqqqqqqqqqqqqqqqqqqqqqqqqydfta8".toList := by
    have hpart : "pzqqqqqqqqqqqqqqqqqqqqqqqqqqqqqqqydfta8".toList.all
        (fun c => CHARSET.contains c) = true := by decide
    refine ⟨"corg".toList, "qqqqqqqqqqqqqqqqqqqqqqqqqqqqqqqqqydfta8".toList,
      "pzqqqqqqqqqqqqqqqqqqqqqqqqqqqqqqqydfta8".toList, ?_⟩
    refine ⟨by decide +kernel, by decide +kernel, by decide +kernel, by decide +kernel, ?_, by decide +kernel⟩
    intro c hc
    exact List.contains_iff_mem.mp (List.all_eq_true.mp hpart c hc)
  exact ⟨hmistyped, setBech32_of_mistyped hmistyped⟩

end CBitcoinAddress

end CorgiCoin
