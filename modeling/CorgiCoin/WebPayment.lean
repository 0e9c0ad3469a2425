import CorgiCoin.MinFee
import CorgiCoin.WebKeys
import Mathlib.Data.List.Sort

/-!
# Payments of the web wallet

`buildAndSign` picks coins, largest first, and raises the fee until it covers the size it expects.
What is left over is change if it is at least a coin, and is dropped otherwise: then the fee and the
change that are reported are not those of the transaction.  The expected size leaves out the two bytes
that a count of 253 inputs or more takes.
-/

namespace CorgiCoin.WebWallet

open Codec Hex

def COIN : ℤ := 100000000
def MIN_TX_FEE : ℤ := COIN
def DUST : ℤ := COIN

/-! ## Requests -/

/-- An output that an account can spend. -/
structure Utxo where
  prevout : COutPoint
  value : ℤ
  deriving DecidableEq, Repr

/-- An account with the outputs that were loaded for it. -/
structure Funded extends Account where
  utxos : List Utxo

/-- An output with the account that can sign for it. -/
structure Spendable extends Utxo where
  owner : Account

/-- What `base58checkDecode` makes of an address. -/
structure Decoded where
  version : UInt8
  hash : Bytes

/-- The arguments of `buildAndSign`; the addresses are decoded, or nothing where that throws. -/
structure Request where
  accounts : List Funded
  toAddr : Option Decoded
  amount : ℤ
  fTestNet : Bool
  changeAddr : Option Decoded

/-- `scriptForAddress` of a decoded address; `none` where it throws. -/
def scriptForAddress (fTestNet : Bool) (decoded : Decoded) : Option Bytes :=
  if decoded.version ≠ pubkeyVersion fTestNet then none
  else if decoded.hash.length ≠ 20 then none
  else some (p2pkhScript decoded.hash)

def Request.spendable (request : Request) : List Spendable :=
  request.accounts.flatMap (fun a => a.utxos.map (fun u => ⟨u, a.toAccount⟩))

/-! ## Coins and fees -/

/-- The loop of `selectCoins`, from a sum. -/
def pickLoop (target : ℤ) : ℤ → List Spendable → List Spendable × ℤ
  | sum, [] => ([], sum)
  | sum, u :: sorted =>
    let sum := sum + u.value
    if sum ≥ target then ([u], sum)
    else
      let rest := pickLoop target sum sorted
      (u :: rest.1, rest.2)

/-- `selectCoins`: the largest coins first. -/
def selectCoins (utxos : List Spendable) (target : ℤ) : List Spendable × ℤ :=
  pickLoop target 0 (utxos.insertionSort (fun a b => b.value ≤ a.value))

/-- `requiredFee` of a size and of outputs. -/
def requiredFee (nBytes : ℕ) (vout : List TxOut) : ℤ :=
  vout.foldl (fun fee o => if o.value < DUST then fee + MIN_TX_FEE else fee)
    ((1 + nBytes / 1000) * MIN_TX_FEE)

/-- The outputs of a payment: the amount, and the change unless it is small. -/
def paymentVout (amount : ℤ) (outScript : Bytes) (change : ℤ) (changeHash : Bytes) : List TxOut :=
  ⟨amount, outScript⟩ :: if change ≥ DUST then [⟨change, p2pkhScript changeHash⟩] else []

/-- The coins that are picked, their sum and the fee. -/
structure Chosen where
  picked : List Spendable
  sum : ℤ
  fee : ℤ

/-- The passes of the loop of `buildAndSign`, as many as are left; `none` where it throws. -/
def settle (spendable : List Spendable) (amount : ℤ) (outScript changeHash : Bytes) :
    ℕ → Chosen → Option Chosen
  | 0, chosen => some chosen
  | n + 1, chosen =>
    let fee := chosen.fee
    let (picked, sum) := selectCoins spendable (amount + fee)
    if sum < amount + fee then none
    else
      let vout := paymentVout amount outScript (sum - amount - fee) changeHash
      let estBytes := 10 + picked.length * 148 + vout.length * 34
      let need := requiredFee estBytes vout
      if need ≤ fee then some ⟨picked, sum, fee⟩
      else settle spendable amount outScript changeHash n ⟨picked, sum, need⟩

/-! ## The transaction -/

/-- A payment before it is signed. -/
structure Plan where
  picked : List Spendable
  fee : ℤ
  change : ℤ
  vout : List TxOut

/-- The plan for coins that are picked; `none` where the fee exceeds them. -/
def planFor (amount : ℤ) (outScript changeHash : Bytes) (chosen : Chosen) : Option Plan :=
  let change := chosen.sum - amount - chosen.fee
  if change < 0 then none
  else some ⟨chosen.picked, chosen.fee, change, paymentVout amount outScript change changeHash⟩

/-- `buildAndSign` up to the signatures. -/
def plan (request : Request) : Option Plan :=
  if request.amount ≤ 0 then none
  else
    match request.toAddr.bind (scriptForAddress request.fTestNet), request.changeAddr with
    | some outScript, some changeAddr =>
      if request.spendable.isEmpty then none
      else
        (settle request.spendable request.amount outScript changeAddr.hash 4
          ⟨[], 0, MIN_TX_FEE⟩).bind (planFor request.amount outScript changeAddr.hash)
    | _, _ => none

/-- What `buildAndSign` returns, with the plan that was signed. -/
structure Built where
  hex : List Char
  txid : List Char
  fee : ℤ
  change : ℤ
  inputs : ℕ
  amount : ℤ
  plan : Plan

/-- The transaction of a plan without signatures. -/
def Plan.tx (plan : Plan) : Tx where
  version := 1
  vin := plan.picked.map (fun p => ⟨getHex p.prevout.hash, p.prevout.n.toNat, []⟩)
  vout := plan.vout
  locktime := 0

def buildAndSign (crypto : Crypto) (library : Library) (request : Request) : Option Built := do
  let plan ← plan request
  let signed ← signInputs crypto library 0 (plan.picked.map Spendable.owner) plan.tx
  let raw := serialize signed
  return ⟨toHex raw, getHex (crypto.hash raw), plan.fee, plan.change, plan.picked.length,
    request.amount, plan⟩

/-! ## What is picked -/

/-- The sum of the values of coins. -/
def sumOf (coins : List Spendable) : ℤ := (coins.map (fun u => u.value)).sum

theorem pickLoop_spec (target sum : ℤ) (sorted : List Spendable) :
  (pickLoop target sum sorted).1 <+: sorted
    ∧ (pickLoop target sum sorted).2 = sum + sumOf (pickLoop target sum sorted).1
  := by
  induction sorted generalizing sum with
  | nil => exact ⟨List.prefix_rfl, (Int.add_zero sum).symm⟩
  | cons u sorted ih =>
    obtain ⟨hbefore, hsum⟩ := ih (sum + u.value)
    rw [pickLoop]
    split_ifs
    · refine ⟨List.prefix_append [u] sorted, ?_⟩
      simp [sumOf]
    · refine ⟨(List.prefix_cons_inj u).mpr hbefore, ?_⟩
      simp only [hsum, sumOf, List.map_cons, List.sum_cons]
      ring

theorem selectCoins_spec (utxos : List Spendable) (target : ℤ) :
  (selectCoins utxos target).1.Subperm utxos
    ∧ (selectCoins utxos target).2 = sumOf (selectCoins utxos target).1
  := by
  obtain ⟨hbefore, hsum⟩ :=
    pickLoop_spec target 0 (utxos.insertionSort (fun a b => b.value ≤ a.value))
  refine ⟨?_, hsum.trans (Int.zero_add _)⟩
  exact hbefore.sublist.subperm.trans (List.perm_insertionSort _ _).subperm

/-! ## What the fee covers -/

/-- The number of outputs of a payment with the given change. -/
def countOutputs (change : ℤ) : ℕ := if change ≥ DUST then 2 else 1

theorem length_paymentVout (amount : ℤ) (outScript : Bytes) (change : ℤ) (changeHash : Bytes) :
  (paymentVout amount outScript change changeHash).length = countOutputs change
  := by
  rw [paymentVout, countOutputs]
  split_ifs <;> rfl

/-- The number of small outputs: the change never is one. -/
def countDust (amount : ℤ) : ℕ := if amount < DUST then 1 else 0

theorem requiredFee_paymentVout
    (nBytes : ℕ) (amount : ℤ) (outScript : Bytes) (change : ℤ) (changeHash : Bytes) :
  requiredFee nBytes (paymentVout amount outScript change changeHash)
    = (1 + nBytes / 1000 + countDust amount) * COIN
  := by
  have hlarge : change ≥ DUST → ¬change < DUST := not_lt.mpr
  rw [requiredFee, paymentVout, countDust, MIN_TX_FEE]
  split_ifs with hchange hamount
  · simp only [List.foldl_cons, List.foldl_nil, if_pos hamount, if_neg (hlarge hchange)]
    push_cast
    ring
  · simp only [List.foldl_cons, List.foldl_nil, if_neg hamount, if_neg (hlarge hchange)]
    push_cast
    ring
  · simp only [List.foldl_cons, List.foldl_nil, if_pos ‹amount < DUST›]
    push_cast
    ring
  · simp only [List.foldl_cons, List.foldl_nil, if_neg ‹¬amount < DUST›]
    push_cast
    ring

/-- The size that is expected of a payment. -/
def expectedBytes (nInputs : ℕ) (change : ℤ) : ℕ := 10 + nInputs * 148 + countOutputs change * 34

/-- What the loop settles on: the sum is that of the coins, and the fee covers the expected size. -/
structure Covered (spendable : List Spendable) (amount : ℤ) (chosen : Chosen) : Prop where
  subperm : chosen.picked.Subperm spendable
  sum_eq : chosen.sum = sumOf chosen.picked
  le_fee : (1 + (expectedBytes chosen.picked.length (chosen.sum - amount - chosen.fee)) / 1000
    + countDust amount : ℕ) * COIN ≤ chosen.fee

theorem countOutputs_mono {change change' : ℤ} (h : change ≤ change') :
  countOutputs change ≤ countOutputs change'
  := by
  rw [countOutputs, countOutputs]
  split_ifs <;> omega

variable {n : ℕ}

/-- The passes settle on covered coins; the fee of a pass that was not enough covers the coins of
that pass, as less is left for the change. -/
theorem covered_of_settle
    {spendable : List Spendable} {amount : ℤ} {outScript changeHash : Bytes} {chosen settled : Chosen}
    (hstart : n = 0 → Covered spendable amount chosen)
    (h : settle spendable amount outScript changeHash n chosen = some settled) :
  Covered spendable amount settled
  := by
  induction n generalizing chosen with
  | zero =>
    obtain rfl := Option.some.inj h
    exact hstart rfl
  | succ n ih =>
    obtain ⟨hsubperm, hsum⟩ := selectCoins_spec spendable (amount + chosen.fee)
    rw [settle] at h
    simp only [requiredFee_paymentVout, length_paymentVout] at h
    generalize selectCoins spendable (amount + chosen.fee) = selected at hsubperm hsum h
    obtain ⟨picked, sum⟩ := selected
    simp only at hsubperm hsum h
    split_ifs at h with hshort henough
    · obtain rfl := Option.some.inj h
      refine ⟨hsubperm, hsum, ?_⟩
      rw [expectedBytes]
      push_cast at henough ⊢
      exact henough
    · apply ih _ h
      intro _
      refine ⟨hsubperm, hsum, ?_⟩
      -- the fee has grown, so the change and the number of outputs have not
      have hless := not_le.mp henough
      have houtputs := @countOutputs_mono
        (sum - amount - (1 + (10 + picked.length * 148
          + countOutputs (sum - amount - chosen.fee) * 34 : ℕ) / 1000 + countDust amount) * COIN)
        (sum - amount - chosen.fee) (by push_cast at hless ⊢; omega)
      have hbytes : expectedBytes picked.length
          (sum - amount - (1 + (10 + picked.length * 148
            + countOutputs (sum - amount - chosen.fee) * 34 : ℕ) / 1000 + countDust amount) * COIN)
          / 1000
          ≤ (10 + picked.length * 148 + countOutputs (sum - amount - chosen.fee) * 34) / 1000 := by
        apply Nat.div_le_div_right
        rw [expectedBytes]
        omega
      apply Int.mul_le_mul_of_nonneg_right _ (by decide)
      push_cast at hbytes ⊢
      omega

/-! ## Requests that settle -/

/-- The coins of a request, the largest first. -/
def Request.sorted (request : Request) : List Spendable :=
  request.spendable.insertionSort (fun a b => b.value ≤ a.value)

/-- The value of so many of the largest coins. -/
def Request.largest (request : Request) (n : ℕ) : ℤ := sumOf (request.sorted.take n)

/-- It takes so many of the largest coins, and no fewer, to pay the amount and a fee. -/
structure Request.Takes (request : Request) (fee : ℤ) (n : ℕ) : Prop where
  le_length : n ≤ request.spendable.length
  pays : request.amount + fee ≤ request.largest n
  fewest : ∀ k < n, request.largest k < request.amount + fee

/-- The fee for the size that is expected of a payment from so many of the largest coins, where a fee
is set aside. -/
def Request.asks (request : Request) (fee : ℤ) (n : ℕ) : ℤ :=
  (1 + expectedBytes n (request.largest n - request.amount - fee) / 1000
    + countDust request.amount : ℕ) * COIN

/-- The fees that are tried: the least fee, then what is asked for a payment with the fee before. -/
inductive Request.Tries (request : Request) : ℕ → ℤ → Prop
  | first : Tries request 0 MIN_TX_FEE
  | again {i : ℕ} {fee : ℤ} {n : ℕ} (htries : Tries request i fee) (htakes : request.Takes fee n)
    (hmore : fee < request.asks fee n) : Tries request (i + 1) (request.asks fee n)

/-- A fee and a number of coins that settle a request: one of the first four fees that is enough, or
what the fourth falls short of where the same coins still pay it. -/
inductive Request.Settles (request : Request) : ℤ → ℕ → Prop
  | enough {i : ℕ} {fee : ℤ} {n : ℕ} (hi : i < 4) (htries : request.Tries i fee)
    (htakes : request.Takes fee n) (henough : request.asks fee n ≤ fee) : Settles request fee n
  | last {fee : ℤ} {n : ℕ} (htries : request.Tries 3 fee) (htakes : request.Takes fee n)
    (hmore : fee < request.asks fee n)
    (hpays : request.amount + request.asks fee n ≤ request.largest n) :
    Settles request (request.asks fee n) n

/-- The arguments that `buildAndSign` does not refuse at once. -/
structure Request.Accepted (request : Request) : Prop where
  amount_pos : 0 < request.amount
  toAddr : (request.toAddr.bind (scriptForAddress request.fTestNet)).isSome
  changeAddr : request.changeAddr.isSome

theorem length_sorted (request : Request) : request.sorted.length = request.spendable.length :=
  (List.perm_insertionSort _ _).length_eq

/-- The loop takes a beginning of the coins, and the next shorter ones do not reach the target. -/
theorem pickLoop_eq_take (target sum : ℤ) (sorted : List Spendable) :
  ∃ n ≤ sorted.length, pickLoop target sum sorted = (sorted.take n, sum + sumOf (sorted.take n))
    ∧ (∀ k, 0 < k → k < n → sum + sumOf (sorted.take k) < target)
    ∧ (sum + sumOf (sorted.take n) < target → n = sorted.length)
  := by
  induction sorted generalizing sum with
  | nil => exact ⟨0, Nat.le_refl 0, by simp [pickLoop, sumOf], fun k hpos hk => by omega, fun _ => rfl⟩
  | cons u sorted ih =>
    obtain ⟨n, hn, hloop, hfewer, hall⟩ := ih (sum + u.value)
    rw [pickLoop]
    split_ifs with hreached
    · refine ⟨1, by simp, by simp [sumOf], fun k hpos hk => by omega, fun hshort => ?_⟩
      simp only [List.take_succ_cons, List.take_zero, sumOf, List.map_cons, List.map_nil,
        List.sum_cons, List.sum_nil] at hshort
      omega
    · have hcons : ∀ k, sum + sumOf ((u :: sorted).take (k + 1))
          = sum + u.value + sumOf (sorted.take k) := by
        intro k
        simp only [List.take_succ_cons, sumOf, List.map_cons, List.sum_cons]
        ring
      refine ⟨n + 1, Nat.succ_le_succ hn, ?_, ?_, ?_⟩
      · simp only [hloop, hcons]
        rfl
      · intro k hpos hk
        obtain ⟨k, rfl⟩ := Nat.exists_eq_succ_of_ne_zero hpos.ne'
        rw [hcons]
        rcases Nat.eq_zero_or_pos k with rfl | hk'
        · simp only [List.take_zero, sumOf, List.map_nil, List.sum_nil]
          omega
        · exact hfewer k hk' (by omega)
      · intro hshort
        rw [hcons] at hshort
        rw [hall hshort, List.length_cons]

variable {request : Request} {fee : ℤ}

theorem Request.Takes.unique
    {n' : ℕ} (h : request.Takes fee n) (h' : request.Takes fee n') :
  n = n'
  := by
  rcases Nat.lt_trichotomy n n' with hlt | heq | hlt
  · exact absurd (h'.fewest n hlt) (not_lt.mpr h.pays)
  · exact heq
  · exact absurd (h.fewest n' hlt) (not_lt.mpr h'.pays)

/-- A larger fee takes no fewer coins. -/
theorem Request.Takes.le_of_le
    {fee' : ℤ} {n' : ℕ} (h : request.Takes fee n) (h' : request.Takes fee' n') (hle : fee ≤ fee') :
  n ≤ n'
  := by
  by_contra hlt
  have hshort := h.fewest n' (not_le.mp hlt)
  have hpays := h'.pays
  omega

/-- The coins that are selected for an amount and a fee. -/
theorem selectCoins_eq_largest {request : Request} {fee : ℤ} (hpos : 0 < request.amount + fee) :
  ∃ n, selectCoins request.spendable (request.amount + fee)
      = (request.sorted.take n, request.largest n)
    ∧ (request.amount + fee ≤ request.largest n → request.Takes fee n)
    ∧ (request.largest n < request.amount + fee → ∀ n', ¬request.Takes fee n')
  := by
  obtain ⟨n, hn, hloop, hfewer, hall⟩ :=
    pickLoop_eq_take (request.amount + fee) 0 request.sorted
  rw [length_sorted] at hn hall
  simp only [Int.zero_add] at hloop hfewer hall
  refine ⟨n, hloop, fun hpays => ⟨hn, hpays, fun k hk => ?_⟩, fun hshort n' htakes => ?_⟩
  · rcases Nat.eq_zero_or_pos k with rfl | hk'
    · rw [Request.largest, List.take_zero]
      exact hpos
    · exact hfewer k hk' hk
  · obtain rfl := hall hshort
    rcases htakes.le_length.eq_or_lt with rfl | hlt
    · exact absurd htakes.pays (not_le.mpr hshort)
    · have hpays := htakes.pays
      have hpos' : 0 < n' := by
        rcases Nat.eq_zero_or_pos n' with rfl | hpos'
        · rw [Request.largest, List.take_zero] at hpays
          exact absurd hpays (not_le.mpr hpos)
        · exact hpos'
      exact absurd (hfewer n' hpos' hlt) (not_lt.mpr hpays)

/-- One pass of the loop. -/
theorem settle_of_takes
    (hpos : 0 < request.amount + fee)
    (h : request.Takes fee n) (outScript changeHash : Bytes) (passes : ℕ)
    (picked : List Spendable) (sum : ℤ) :
  settle request.spendable request.amount outScript changeHash (passes + 1) ⟨picked, sum, fee⟩
    = if request.asks fee n ≤ fee then some ⟨request.sorted.take n, request.largest n, fee⟩
      else settle request.spendable request.amount outScript changeHash passes
        ⟨request.sorted.take n, request.largest n, request.asks fee n⟩
  := by
  obtain ⟨n', hselect, htakes, hshort⟩ := selectCoins_eq_largest hpos
  have hpays : request.amount + fee ≤ request.largest n' := by
    by_contra hlt
    exact hshort (not_le.mp hlt) n h
  obtain rfl := h.unique (htakes hpays)
  have hlength : (request.sorted.take n).length = n := by
    rw [List.length_take, length_sorted, Nat.min_eq_left h.le_length]
  rw [settle]
  simp only [hselect, hlength, length_paymentVout, requiredFee_paymentVout]
  rw [if_neg (not_lt.mpr hpays)]
  have hasks : ((1 + (10 + n * 148
      + countOutputs (request.largest n - request.amount - fee) * 34 : ℕ) / 1000
      + countDust request.amount : ℤ)) * COIN = request.asks fee n := by
    rw [Request.asks, expectedBytes]
    push_cast
    rfl
  rw [← hasks]

variable {i : ℕ}

theorem Request.Tries.pos (h : request.Tries i fee) :
  0 < fee
  := by
  induction h with
  | first => decide
  | again htries htakes hmore ih => exact ih.trans hmore

/-- The passes follow the fees that are tried. -/
theorem settle_of_tries
    {request : Request} {i : ℕ} {fee : ℤ} (hamount : 0 < request.amount)
    (h : request.Tries i fee) (outScript changeHash : Bytes) {passes : ℕ} (hpasses : i + passes = 4) :
  ∃ picked sum, settle request.spendable request.amount outScript changeHash 4 ⟨[], 0, MIN_TX_FEE⟩
    = settle request.spendable request.amount outScript changeHash passes ⟨picked, sum, fee⟩
  := by
  induction h generalizing passes with
  | first =>
    obtain rfl : passes = 4 := by omega
    exact ⟨[], 0, rfl⟩
  | again htries htakes hmore ih =>
    obtain ⟨picked, sum, hsettle⟩ := @ih (passes + 1) (by omega)
    have hpos := htries.pos
    rw [settle_of_takes (by omega) htakes, if_neg (not_le.mpr hmore)] at hsettle
    exact ⟨_, _, hsettle⟩

/-- What the passes settle on, if the coins pay it, settles the request. -/
theorem settles_of_settle
    {passes : ℕ} {outScript changeHash : Bytes} {chosen settled : Chosen}
    (hamount : 0 < request.amount) (htries : request.Tries i chosen.fee) (hpasses : i + passes = 4)
    (hlast : passes = 0 → ∃ n ≤ request.spendable.length,
      chosen.picked = request.sorted.take n ∧ chosen.sum = request.largest n
        ∧ (request.amount + chosen.fee ≤ request.largest n → request.Settles chosen.fee n))
    (h : settle request.spendable request.amount outScript changeHash passes chosen = some settled) :
  ∃ n ≤ request.spendable.length,
    settled.picked = request.sorted.take n ∧ settled.sum = request.largest n
      ∧ (request.amount + settled.fee ≤ request.largest n → request.Settles settled.fee n)
  := by
  induction passes generalizing i chosen with
  | zero =>
    obtain rfl := Option.some.inj h
    exact hlast rfl
  | succ passes ih =>
    obtain ⟨picked, sum, fee⟩ := chosen
    have hpos := htries.pos
    obtain ⟨n, hselect, htakes, -⟩ :=
      @selectCoins_eq_largest request fee (Int.add_pos hamount hpos)
    by_cases hpays : request.amount + fee ≤ request.largest n
    · have htakes := htakes hpays
      rw [settle_of_takes (Int.add_pos hamount hpos) htakes] at h
      split_ifs at h with henough
      · obtain rfl := Option.some.inj h
        exact ⟨n, htakes.le_length, rfl, rfl,
          fun _ => Request.Settles.enough (by omega) htries htakes henough⟩
      · have hmore := not_le.mp henough
        apply ih (htries.again htakes hmore) (by omega) _ h
        intro hzero
        obtain rfl : i = 3 := by omega
        exact ⟨n, htakes.le_length, rfl, rfl,
          fun hpays => Request.Settles.last htries htakes hmore hpays⟩
    · rw [settle, hselect] at h
      simp only at h
      rw [if_pos (not_le.mp hpays)] at h
      cases h

/-- What settles a request is what its passes settle on. -/
theorem settle_of_settles
    (hamount : 0 < request.amount) (h : request.Settles fee n) (outScript changeHash : Bytes) :
  n ≤ request.spendable.length ∧ request.amount + fee ≤ request.largest n
    ∧ settle request.spendable request.amount outScript changeHash 4 ⟨[], 0, MIN_TX_FEE⟩
      = some ⟨request.sorted.take n, request.largest n, fee⟩
  := by
  cases h with
  | @enough i _ _ hi htries htakes henough =>
    have hpos := htries.pos
    obtain ⟨passes, hpasses⟩ := Nat.exists_eq_add_of_lt hi
    obtain ⟨picked, sum, hsettle⟩ := @settle_of_tries request i fee hamount htries outScript
      changeHash (passes + 1) (by omega)
    rw [settle_of_takes (Int.add_pos hamount hpos) htakes, if_pos henough] at hsettle
    exact ⟨htakes.le_length, htakes.pays, hsettle⟩
  | @last tried _ htries htakes hmore hpays =>
    have hpos := htries.pos
    obtain ⟨picked, sum, hsettle⟩ :=
      @settle_of_tries request 3 tried hamount htries outScript changeHash 1 rfl
    rw [settle_of_takes (Int.add_pos hamount hpos) htakes, if_neg (not_le.mpr hmore)] at hsettle
    exact ⟨htakes.le_length, hpays, hsettle⟩

theorem length_take_sorted (h : n ≤ request.spendable.length) :
  (request.sorted.take n).length = n
  := by
  rw [List.length_take, length_sorted, Nat.min_eq_left h]

variable {p : Plan}

/-- A plan is made of the coins that the passes settle on. -/
theorem plan_eq_some (h : plan request = some p) :
  0 < request.amount ∧ ∃ outScript changeAddr chosen,
    request.toAddr.bind (scriptForAddress request.fTestNet) = some outScript
      ∧ request.changeAddr = some changeAddr
      ∧ settle request.spendable request.amount outScript changeAddr.hash 4 ⟨[], 0, MIN_TX_FEE⟩
        = some chosen
      ∧ planFor request.amount outScript changeAddr.hash chosen = some p
  := by
  rw [plan] at h
  by_cases hamount : request.amount ≤ 0
  · rw [if_pos hamount] at h
    cases h
  rw [if_neg hamount] at h
  cases hscript : request.toAddr.bind (scriptForAddress request.fTestNet) with
  | none =>
    rw [hscript] at h
    cases h
  | some outScript =>
    cases hchangeAddr : request.changeAddr with
    | none =>
      rw [hscript, hchangeAddr] at h
      cases h
    | some changeAddr =>
      rw [hscript, hchangeAddr] at h
      split_ifs at h with hempty
      obtain ⟨chosen, hsettle, h⟩ := Option.bind_eq_some_iff.mp h
      exact ⟨not_le.mp hamount, outScript, changeAddr, chosen, rfl, rfl, hsettle, h⟩

/-- A plan is that of the fee and of the coins that settle its request. -/
theorem settles_of_plan (h : plan request = some p) :
  request.Accepted ∧ request.Settles p.fee p.picked.length
    ∧ p.change = request.largest p.picked.length - request.amount - p.fee
  := by
  obtain ⟨hamount, outScript, changeAddr, chosen, hscript, hchangeAddr, hsettle, h⟩ :=
    plan_eq_some h
  obtain ⟨n, hn, hpicked, hsum, hsettles⟩ := settles_of_settle hamount Request.Tries.first
    (Nat.zero_add 4) (fun hzero => absurd hzero (by decide)) hsettle
  rw [planFor] at h
  split_ifs at h with hchange
  obtain rfl := Option.some.inj h
  refine ⟨⟨hamount, by rw [hscript]; rfl, by rw [hchangeAddr]; rfl⟩, ?_⟩
  simp only [hpicked, length_take_sorted hn, hsum]
  rw [hsum] at hchange
  exact ⟨hsettles (by omega), trivial⟩

/-- What settles an accepted request has a plan. -/
theorem exists_plan_of_settles
    (haccepted : request.Accepted) (h : request.Settles fee n) :
  ∃ p, plan request = some p ∧ p.fee = fee ∧ p.picked.length = n
    ∧ p.change = request.largest n - request.amount - fee
  := by
  obtain ⟨outScript, hscript⟩ := Option.isSome_iff_exists.mp haccepted.toAddr
  obtain ⟨changeAddr, hchangeAddr⟩ := Option.isSome_iff_exists.mp haccepted.changeAddr
  obtain ⟨hn, hpays, hsettle⟩ := settle_of_settles haccepted.amount_pos h outScript changeAddr.hash
  have hfee : 0 < fee := by
    cases h with
    | enough _ htries => exact htries.pos
    | last htries _ hmore => exact htries.pos.trans hmore
  have hspendable : ¬request.spendable.isEmpty = true := by
    intro hempty
    have hamount := haccepted.amount_pos
    rw [List.isEmpty_iff.mp hempty] at hn
    rw [Nat.le_zero.mp hn, Request.largest, List.take_zero, sumOf, List.map_nil, List.sum_nil]
      at hpays
    omega
  refine ⟨⟨request.sorted.take n, fee, request.largest n - request.amount - fee,
    paymentVout request.amount outScript (request.largest n - request.amount - fee)
      changeAddr.hash⟩, ?_, rfl, length_take_sorted hn, rfl⟩
  rw [plan, if_neg (not_le.mpr haccepted.amount_pos), hscript, hchangeAddr]
  simp only
  rw [if_neg hspendable, hsettle, Option.bind_some, planFor, if_neg]
  simp only
  omega

variable {nInputs : ℕ}

theorem expectedBytes_le {nInputs' : ℕ} (h : nInputs ≤ nInputs') (change : ℤ) :
  expectedBytes nInputs change ≤ expectedBytes nInputs' DUST
  := by
  rw [expectedBytes, expectedBytes, countOutputs, countOutputs, if_pos (le_refl DUST)]
  split_ifs <;> omega

/-- A fee that is tried is no more than what the size with two outputs costs. -/
theorem Request.Tries.le_asks
    (h : request.Tries i fee) (htakes : request.Takes fee n) :
  ∃ k : ℕ, fee = k * COIN ∧ k ≤ 1 + expectedBytes n DUST / 1000 + countDust request.amount
  := by
  cases h with
  | first => exact ⟨1, by rw [MIN_TX_FEE]; simp, by omega⟩
  | @again _ tried n' _ htakes' hmore =>
    have hle := htakes'.le_of_le htakes hmore.le
    refine ⟨_, rfl, ?_⟩
    have hdiv := @Nat.div_le_div_right _ _ 1000
      (expectedBytes_le hle (request.largest n' - request.amount - tried))
    omega

/-- The fee that settles a request is what is asked for its coins at least. -/
theorem Request.Settles.bounds
    (h : request.Settles fee n) :
  ∃ k : ℕ, fee = k * COIN ∧ k ≤ 1 + expectedBytes n DUST / 1000 + countDust request.amount
    ∧ request.asks fee n ≤ fee
  := by
  cases h with
  | enough _ htries htakes henough =>
    obtain ⟨k, hfee, hk⟩ := htries.le_asks htakes
    exact ⟨k, hfee, hk, henough⟩
  | @last tried _ _ _ hmore _ =>
    refine ⟨_, rfl, ?_, ?_⟩
    · have hdiv := @Nat.div_le_div_right _ _ 1000
        (expectedBytes_le (Nat.le_refl n) (request.largest n - request.amount - tried))
      omega
    · have houtputs := @countOutputs_mono
        (request.largest n - request.amount - request.asks tried n)
        (request.largest n - request.amount - tried) (by omega)
      have hbytes : expectedBytes n (request.largest n - request.amount - request.asks tried n)
          ≤ expectedBytes n (request.largest n - request.amount - tried) := by
        rw [expectedBytes, expectedBytes]
        omega
      have hdiv := @Nat.div_le_div_right _ _ 1000 hbytes
      conv_rhs => rw [Request.asks]
      rw [Request.asks]
      apply Int.mul_le_mul_of_nonneg_right _ (by decide)
      omega

/-! ## Sizes -/

/-- The bytes of the count of inputs. -/
def countBytes (nInputs : ℕ) : ℕ := (writeCompactSize nInputs).length

theorem countBytes_of_lt (h : nInputs < 253) : countBytes nInputs = 1 := by
  rw [countBytes, writeCompactSize, if_pos h, length_toLE]

/-- The exact size of a payment whose signatures take 71 bytes each. -/
def exactBytes (nInputs nOutputs : ℕ) : ℕ :=
  9 + countBytes nInputs + nInputs * 148 + nOutputs * 34

theorem length_serializeIn_of_short {txin : CTxIn} (h : txin.scriptSig.length < 253) :
  txin.serialize.length = 41 + txin.scriptSig.length
  := by
  rw [CTxIn.serialize, COutPoint.serialize, serializeBytes, writeCompactSize, if_pos h]
  simp [serializeUint256, serializeUInt, length_toLE]
  omega

theorem length_serializeOut_of_p2pkh {txout : CTxOut} (h : txout.scriptPubKey.length = 25) :
  txout.serialize.length = 34
  := by
  rw [CTxOut.serialize, serializeBytes, writeCompactSize, if_pos (by omega)]
  simp [serializeInt64, length_toLE, h]

/-- The size of a payment to at most two key hashes. -/
theorem length_serialize_of_short
    {tx : CTransaction} (hvin : ∀ txin ∈ tx.vin, txin.scriptSig.length < 253)
    (hvout : ∀ txout ∈ tx.vout, txout.scriptPubKey.length = 25) (hcount : tx.vout.length < 253) :
  tx.serialize.length = 9 + countBytes tx.vin.length
    + (tx.vin.map (fun txin => 41 + txin.scriptSig.length)).sum + tx.vout.length * 34
  := by
  have hin : (tx.vin.flatMap CTxIn.serialize).length
      = (tx.vin.map (fun txin => 41 + txin.scriptSig.length)).sum := by
    rw [List.length_flatMap]
    congr 1
    apply List.map_congr_left
    exact fun txin hmem => length_serializeIn_of_short (hvin txin hmem)
  have hout : (tx.vout.flatMap CTxOut.serialize).length = tx.vout.length * 34 := by
    have hsizes : tx.vout.map (fun txout => txout.serialize.length) = tx.vout.map (fun _ => 34) :=
      List.map_congr_left (fun txout hmem => length_serializeOut_of_p2pkh (hvout txout hmem))
    rw [List.length_flatMap, hsizes, List.map_const', List.sum_replicate_nat]
  have hvoutCount : (writeCompactSize tx.vout.length).length = 1 := countBytes_of_lt hcount
  rw [CTransaction.serialize, serializeVector, serializeVector]
  simp only [List.length_append, hin, hout, hvoutCount, countBytes, serializeInt, serializeUInt,
    length_toLE]
  omega

/-! ## The daemon's view of a payment -/

/-- What is known of the accounts: no output is listed twice, the values are amounts that a 64-bit
integer holds together, the keys are compressed, and the change goes to a key hash. -/
structure Request.WellFormed (request : Request) : Prop where
  nodup : (request.spendable.map (fun u => u.prevout)).Nodup
  nonneg : ∀ u ∈ request.spendable, 0 ≤ u.value
  sum_lt : sumOf request.spendable < 2 ^ 63
  count_lt : request.spendable.length < 2 ^ 24
  pubKey : ∀ u ∈ request.spendable, u.owner.pubKey.length = 33
  changeAddr : ∀ decoded ∈ request.changeAddr, decoded.hash.length = 20

/-- A plan of a well-formed request. -/
structure Plan.Sound (request : Request) (plan : Plan) : Prop where
  subperm : plan.picked.Subperm request.spendable
  sum_eq : sumOf plan.picked = request.amount + plan.fee + plan.change
  le_fee : (1 + (expectedBytes plan.picked.length plan.change) / 1000
    + countDust request.amount : ℕ) * COIN ≤ plan.fee
  amount_pos : 0 < request.amount
  change_nonneg : 0 ≤ plan.change
  exists_vout : ∃ outScript changeHash, outScript.length = 25 ∧ changeHash.length = 20
    ∧ plan.vout = paymentVout request.amount outScript plan.change changeHash

theorem length_p2pkhScript {hash : Bytes} (h : hash.length = 20) : (p2pkhScript hash).length = 25 := by
  simp [p2pkhScript, h]

theorem sound_of_plan (hrequest : request.WellFormed)
    (h : plan request = some p) :
  p.Sound request
  := by
  obtain ⟨hamount, outScript, changeAddr, chosen, hscript, hchangeAddr, hsettle, h⟩ :=
    plan_eq_some h
  rw [planFor] at h
  split_ifs at h with hchange
  obtain rfl := Option.some.inj h
  have hcovered := covered_of_settle (fun h => absurd h (by decide)) hsettle
  have hlength : outScript.length = 25 := by
    obtain ⟨toAddr, -, hscript⟩ := Option.bind_eq_some_iff.mp hscript
    rw [scriptForAddress] at hscript
    split_ifs at hscript with hversion hhash
    obtain rfl := Option.some.inj hscript
    exact length_p2pkhScript (not_not.mp hhash)
  refine ⟨hcovered.subperm, ?_, hcovered.le_fee, hamount, not_lt.mp hchange, outScript,
    changeAddr.hash, hlength, hrequest.changeAddr changeAddr hchangeAddr, rfl⟩
  simp only
  rw [← hcovered.sum_eq]
  ring

/-- The daemon's transaction for a plan, without scripts. -/
def Plan.unsigned (plan : Plan) : CTransaction where
  nVersion := 1
  vin := plan.picked.map (fun p => ⟨p.prevout, [], 0xffffffff⟩)
  vout := plan.vout.map (fun o => ⟨Int64.ofInt o.value, o.script⟩)
  nLockTime := 0

theorem sumOf_nonneg {coins : List Spendable} (h : ∀ u ∈ coins, 0 ≤ u.value) : 0 ≤ sumOf coins := by
  apply List.sum_nonneg
  intro value hmem
  obtain ⟨u, hu, rfl⟩ := List.mem_map.mp hmem
  exact h u hu

theorem sumOf_le_of_subperm
    {coins coins' : List Spendable} (h : coins.Subperm coins') (hnonneg : ∀ u ∈ coins', 0 ≤ u.value) :
  sumOf coins ≤ sumOf coins'
  := by
  obtain ⟨sublist, hsame, hsublist⟩ := h
  obtain ⟨rest, hperm⟩ := hsublist.exists_perm_append
  have hrest := @sumOf_nonneg rest (fun u hmem =>
    hnonneg u (hperm.symm.subset (List.mem_append_right _ hmem)))
  have hsum : sumOf coins' = sumOf coins + sumOf rest := by
    have hall := (hperm.map (fun u => u.value)).sum_eq
    have hpart := (hsame.map (fun u => u.value)).sum_eq
    rw [List.map_append, List.sum_append, hpart] at hall
    exact hall
  omega

/-- The amounts of a plan are those of 64-bit integers. -/
theorem Plan.Sound.values_lt
    (hrequest : request.WellFormed) (h : p.Sound request) :
  0 < p.fee ∧ request.amount < 2 ^ 63 ∧ p.change < 2 ^ 63
  := by
  have hsum := sumOf_le_of_subperm h.subperm hrequest.nonneg
  have hlt := hrequest.sum_lt
  have hfee : 0 < p.fee := by
    apply lt_of_lt_of_le _ h.le_fee
    rw [COIN]
    push_cast
    omega
  have heq := h.sum_eq
  have hpos := h.amount_pos
  have hnonneg := h.change_nonneg
  refine ⟨hfee, by omega, by omega⟩

theorem toInt_ofInt_of_nonneg {n : ℤ} (hlow : 0 ≤ n) (hhigh : n < 2 ^ 63) :
  (Int64.ofInt n).toInt = n
  := Int64.toInt_ofInt_of_le (by omega) hhigh

/-- The values of the outputs of a plan. -/
theorem Plan.Sound.vout_spec
    (hrequest : request.WellFormed) (h : p.Sound request) :
  (∀ o ∈ p.vout, (Int64.ofInt o.value).toInt = o.value ∧ o.script.length = 25)
    ∧ p.vout.length = countOutputs p.change
    ∧ p.unsigned.dustOutputs = countDust request.amount
    ∧ p.vout.tail.map TxOut.value = (if p.change ≥ DUST then [p.change] else [])
    ∧ (p.vout.map TxOut.value).sum
      = request.amount + (if p.change ≥ DUST then p.change else 0)
  := by
  obtain ⟨outScript, changeHash, hout, hchange, hvout⟩ := h.exists_vout
  obtain ⟨-, hamountLt, hchangeLt⟩ := h.values_lt hrequest
  have hamount := toInt_ofInt_of_nonneg h.amount_pos.le hamountLt
  have hchangeInt := toInt_ofInt_of_nonneg h.change_nonneg hchangeLt
  have hcoin : CorgiCoin.COIN.toInt = 100000000 := by decide
  have hdust : (Int64.ofInt request.amount < CorgiCoin.COIN) ↔ request.amount < DUST := by
    rw [Int64.lt_iff_toInt_lt, hamount, hcoin]
    rfl
  refine ⟨?_, ?_, ?_, ?_, ?_⟩
  · intro o hmem
    rw [hvout, paymentVout] at hmem
    rcases List.mem_cons.mp hmem with rfl | hmem
    · exact ⟨hamount, hout⟩
    · split_ifs at hmem
      · obtain rfl := List.mem_singleton.mp hmem
        exact ⟨hchangeInt, length_p2pkhScript hchange⟩
      · cases hmem
  · rw [hvout, length_paymentVout]
  · rw [CTransaction.dustOutputs, Plan.unsigned, hvout, paymentVout, countDust]
    have hlarge : p.change ≥ DUST → ¬Int64.ofInt p.change < CorgiCoin.COIN := by
      intro hge
      rw [Int64.lt_iff_toInt_lt, hchangeInt, hcoin]
      exact not_lt.mpr hge
    by_cases hge : p.change ≥ DUST
    · rw [if_pos hge]
      by_cases hsmall : request.amount < DUST
      · simp [hdust.mpr hsmall, hsmall, hlarge hge]
      · simp [mt hdust.mp hsmall, hsmall, hlarge hge]
    · rw [if_neg hge]
      by_cases hsmall : request.amount < DUST
      · simp [hdust.mpr hsmall, hsmall]
      · simp [mt hdust.mp hsmall, hsmall]
  · rw [hvout, paymentVout]
    split_ifs <;> rfl
  · rw [hvout, paymentVout]
    split_ifs <;> simp

theorem Plan.Sound.tx_eq
    (hrequest : request.WellFormed) (h : p.Sound request) :
  p.tx = ofTransaction (withScripts p.unsigned (fun _ => []))
  := by
  obtain ⟨hvalues, -⟩ := h.vout_spec hrequest
  have hvin : p.tx.vin = (ofTransaction (withScripts p.unsigned (fun _ => []))).vin := by
    apply List.ext_getElem?
    intro i
    simp only [Plan.tx, Plan.unsigned, withScripts, ofTransaction, List.getElem?_map,
      List.getElem?_mapIdx, Option.map_map]
    rfl
  have hvout : p.tx.vout = (ofTransaction (withScripts p.unsigned (fun _ => []))).vout := by
    have hsame : p.vout.map (fun o => (⟨(Int64.ofInt o.value).toInt, o.script⟩ : TxOut)) = p.vout := by
      rw [List.map_congr_left (g := id), List.map_id]
      intro o hmem
      simp only [(hvalues o hmem).1, id]
    rw [Plan.tx, ofTransaction, withScripts, Plan.unsigned, List.map_map]
    exact hsame.symm
  calc p.tx = ⟨1, p.tx.vin, p.tx.vout, 0⟩ := rfl
    _ = ⟨1, (ofTransaction (withScripts p.unsigned (fun _ => []))).vin,
      (ofTransaction (withScripts p.unsigned (fun _ => []))).vout, 0⟩ := by rw [hvin, hvout]
    _ = ofTransaction (withScripts p.unsigned (fun _ => [])) := rfl

/-- Signatures and keys that are pushed in one byte each are pushed. -/
theorem exists_signInputs
    {crypto : Crypto} {library : Library} (hsign : ∀ hash key, (library.sign hash key).length ≤ 71)
    {owners : List Account} (howners : ∀ owner ∈ owners, owner.pubKey.length = 33) (i : ℕ) (tx : Tx) :
  ∃ signed, signInputs crypto library i owners tx = some signed
  := by
  induction owners generalizing i tx with
  | nil => exact ⟨tx, rfl⟩
  | cons owner owners ih =>
    obtain ⟨hfirst, hrest⟩ := List.forall_mem_cons.mp howners
    have hsig : ¬(signature crypto library tx i owner).length ≥ 76 := by
      have hle := hsign (crypto.hash (preimage tx i
        (p2pkhScript (serializeUint160 (library.hash160 owner.pubKey))))) owner.privKey
      rw [signature, List.length_append, List.length_singleton]
      omega
    rw [signInputs, signInput, pushData, if_neg hsig, pushData, if_neg (by omega)]
    exact ih hrest (i + 1) _

variable {crypto : Crypto} {library : Library}

/-- The script of a signed input takes 36 bytes more than the signature. -/
theorem IsSigned.length_eq
    {tx : CTransaction} {owner : Account}
    {script : CScript} (h : IsSigned crypto library tx i owner script)
    (howner : owner.pubKey.length = 33) :
  ∃ hash, script.length = (library.sign hash owner.privKey).length + 36
  := by
  obtain ⟨sig, pubKey, hsig, hpubKey, rfl⟩ := h
  rw [pushData] at hsig hpubKey
  split_ifs at hsig hpubKey
  obtain rfl := Option.some.inj hsig
  obtain rfl := Option.some.inj hpubKey
  refine ⟨crypto.hash (preimage (ofTransaction tx) i
    (p2pkhScript (serializeUint160 (library.hash160 owner.pubKey)))), ?_⟩
  rw [List.length_append, List.length_cons, List.length_cons, howner, signature, List.length_append,
    List.length_singleton]

/-- The signed transaction of a plan, as the daemon reads it. -/
theorem exists_signed
    {signed : Tx} (hrequest : request.WellFormed) (h : p.Sound request)
    (hsign : ∀ hash key, (library.sign hash key).length ≤ 71)
    (hsigned : signInputs crypto library 0 (p.picked.map Spendable.owner) p.tx = some signed) :
  ∃ scripts, (CTransaction.unserialize).run (serialize signed)
      = some (withScripts p.unsigned scripts, [])
    ∧ (withScripts p.unsigned scripts).serialize = serialize signed
    ∧ ∀ txin ∈ (withScripts p.unsigned scripts).vin,
      ∃ hash privKey, txin.scriptSig.length = (library.sign hash privKey).length + 36
  := by
  rw [h.tx_eq hrequest] at hsigned
  obtain ⟨scripts, rfl, -, hscripts⟩ := signInputs_eq hsigned
  have hlength : p.picked.length < 2 ^ 24 := by
    obtain ⟨sublist, hsame, hsublist⟩ := h.subperm
    have hle := hsublist.length_le
    rw [hsame.length_eq] at hle
    exact lt_of_le_of_lt hle hrequest.count_lt
  have hscriptSig : ∀ txin ∈ (withScripts p.unsigned scripts).vin,
      ∃ hash privKey, txin.scriptSig.length = (library.sign hash privKey).length + 36 := by
    intro txin hmem
    obtain ⟨i, hi, rfl⟩ := List.mem_mapIdx.mp hmem
    rw [Plan.unsigned, List.length_map] at hi
    have howner : (p.picked.map Spendable.owner)[i]? = some (p.picked[i]).owner := by
      rw [List.getElem?_map, List.getElem?_eq_getElem hi]
      rfl
    have hissigned := hscripts i _ howner
    rw [Nat.zero_add] at hissigned
    obtain ⟨hash, hscript⟩ := hissigned.length_eq
      (hrequest.pubKey _ (h.subperm.subset (List.getElem_mem hi)))
    exact ⟨hash, _, hscript⟩
  have hshort : ∀ txin ∈ (withScripts p.unsigned scripts).vin, txin.scriptSig.length < 253 := by
    intro txin hmem
    obtain ⟨hash, privKey, hscript⟩ := hscriptSig txin hmem
    have hle := hsign hash privKey
    omega
  have hvinLength : (withScripts p.unsigned scripts).vin.length = p.picked.length := by
    rw [withScripts, List.length_mapIdx, Plan.unsigned, List.length_map]
  obtain ⟨hvalues, hcount, -⟩ := h.vout_spec hrequest
  have hvoutLength : (withScripts p.unsigned scripts).vout.length = p.vout.length :=
    List.length_map _
  have hfew : p.vout.length ≤ 2 := by
    rw [hcount, countOutputs]
    split_ifs <;> decide
  have hscriptPubKey : ∀ txout ∈ (withScripts p.unsigned scripts).vout,
      txout.scriptPubKey.length = 25 := by
    intro txout hmem
    obtain ⟨o, ho, rfl⟩ := List.mem_map.mp hmem
    exact (hvalues o ho).2
  have hsequences : SequencesFinal (withScripts p.unsigned scripts) := by
    intro txin hmem
    obtain ⟨i, hi, rfl⟩ := List.mem_mapIdx.mp hmem
    rw [Plan.unsigned, List.length_map] at hi
    simp [Plan.unsigned]
  have hsizes : SizesFit (withScripts p.unsigned scripts) := by
    refine ⟨by omega, fun txin hmem => ?_, by omega, fun txout hmem => ?_⟩
    · have hlt := hshort txin hmem
      omega
    · rw [hscriptPubKey txout hmem]
      decide
  have hmax : MAX_SIZE = 0x02000000 := rfl
  have hfits : (withScripts p.unsigned scripts).Fits := by
    refine ⟨by omega, fun txin hmem => ?_, by omega, fun txout hmem => ?_⟩
    · have hlt := hshort txin hmem
      rw [CTxIn.Fits]
      omega
    · rw [CTxOut.Fits, hscriptPubKey txout hmem]
      decide
  have hbytes := serialize_ofTransaction hsequences hsizes
  refine ⟨scripts, ?_, hbytes.symm, hscriptSig⟩
  have hread := CTransaction.lawful.read_write _ hfits []
  rw [List.append_nil] at hread
  rw [hbytes, hread]

/-! ## Honest payments -/

/-- What the web wallet should report: the coins are distinct and pay for the outputs and the fee, the
change is that of the outputs, and the daemon reads a transaction with these coins and outputs that
pays enough to be relayed. -/
structure Honest (built : Built) : Prop where
  distinct : (built.plan.picked.map (fun u => u.prevout)).Nodup
  balanced : sumOf built.plan.picked = (built.plan.vout.map TxOut.value).sum + built.fee
  change : built.change = (built.plan.vout.tail.map TxOut.value).sum
  relayed : ∃ tx, (CTransaction.unserialize).run (fromHex built.hex) = some (tx, [])
    ∧ tx.vin.map CTxIn.prevout = built.plan.picked.map (fun u => u.prevout)
    ∧ tx.vout.map (fun txout => txout.nValue.toInt) = built.plan.vout.map TxOut.value
    ∧ (tx.getMinFee 1000 true .relay).toInt ≤ built.fee

/-- The payment is honest however it is signed. -/
def AlwaysHonest (request : Request) : Prop :=
  ∀ (crypto : Crypto) (library : Library), (∀ hash key, (library.sign hash key).length ≤ 71) →
    ∀ built, buildAndSign crypto library request = some built → Honest built

/-! ## Fair requests -/

/-- A payment from so many of the largest coins with the given fee leaves no change or a coin of
change, and its exact size costs no more than the fee: it is below the size from which the fee is
multiplied, and the bytes of the count of the inputs start no further kilobyte unless the fee is more
than what is asked. -/
structure Request.FairFor (request : Request) (fee : ℤ) (n : ℕ) : Prop where
  change : request.largest n = request.amount + fee ∨ request.amount + fee + DUST ≤ request.largest n
  size_lt : exactBytes n (countOutputs (request.largest n - request.amount - fee)) < 249000
  kilobytes : exactBytes n (countOutputs (request.largest n - request.amount - fee)) / 1000
      = expectedBytes n (request.largest n - request.amount - fee) / 1000
    ∨ request.asks fee n < fee

/-- What settles the request is fair, unless the request is refused at once. -/
def Request.Fair (request : Request) : Prop :=
  request.Accepted → ∀ fee n, request.Settles fee n → request.FairFor fee n

/-- The coins of a plan leave no change or a coin of change, and the fee pays for the exact size. -/
structure Plan.Fair (request : Request) (plan : Plan) : Prop where
  change : plan.change = 0 ∨ DUST ≤ plan.change
  fee : relayFee (exactBytes plan.picked.length plan.vout.length) (countDust request.amount) ≤ plan.fee

theorem exactBytes_eq (nInputs : ℕ) (change : ℤ) :
  exactBytes nInputs (countOutputs change) + 1 = expectedBytes nInputs change + countBytes nInputs
  := by
  rw [exactBytes, expectedBytes]
  omega

theorem countBytes_le (h : nInputs < 2 ^ 24) :
  1 ≤ countBytes nInputs ∧ countBytes nInputs ≤ 5
  := by
  rw [countBytes, writeCompactSize]
  split_ifs <;> simp [length_toLE]
  omega

/-- What relaying the exact size costs against the fee. -/
theorem relayFee_le_iff
    {k d : ℕ} {change : ℤ} (hn : n < 2 ^ 24) (hd : d ≤ 1)
    (hlow : 1 + expectedBytes n change / 1000 + d ≤ k)
    (hhigh : k ≤ 1 + expectedBytes n DUST / 1000 + d) :
  relayFee (exactBytes n (countOutputs change)) d ≤ k * COIN
    ↔ exactBytes n (countOutputs change) < 249000
      ∧ (exactBytes n (countOutputs change) / 1000 = expectedBytes n change / 1000
        ∨ 1 + expectedBytes n change / 1000 + d < k)
  := by
  have hexact := exactBytes_eq n change
  obtain ⟨hone, hfive⟩ := countBytes_le hn
  have hfew : n < 253 → countBytes n = 1 := countBytes_of_lt
  have hsize : expectedBytes n DUST ≤ expectedBytes n change + 34 := by
    rw [expectedBytes, expectedBytes, countOutputs, countOutputs, if_pos (le_refl DUST)]
    split_ifs <;> omega
  have hmany : n * 148 ≤ exactBytes n (countOutputs change) := by
    rw [exactBytes]
    omega
  have hmost : expectedBytes n DUST ≤ n * 148 + 78 := by
    rw [expectedBytes, countOutputs, if_pos (le_refl DUST)]
    omega
  generalize exactBytes n (countOutputs change) = exact at *
  generalize expectedBytes n change = expected at *
  generalize expectedBytes n DUST = most at *
  rw [relayFee, sizeFee, COIN]
  simp only
  by_cases hfull : 500000 ≤ 1000 + exact
  · rw [if_pos hfull]
    constructor <;> intro h <;> omega
  · rw [if_neg hfull]
    by_cases hcrowded : 250000 ≤ 1000 + exact
    · -- the fee is taken twice at least
      have hfree : ¬(decide (1000 + exact < 27000) = true) := by simp; omega
      have hfactor : 2 ≤ 500000 / (500000 - (1000 + exact)) := by
        rw [Nat.le_div_iff_mul_le (by omega)]
        omega
      rw [if_pos hcrowded, if_neg hfree]
      generalize 500000 / (500000 - (1000 + exact)) = factor at hfactor
      have htwice : (((1 + exact / 1000 : ℕ) : ℤ) * 100000000 + d * 100000000) * 2
          ≤ (((1 + exact / 1000 : ℕ) : ℤ) * 100000000 + d * 100000000) * factor :=
        Int.mul_le_mul_of_nonneg_left (by omega) (by omega)
      constructor <;> intro h <;> omega
    · rw [if_neg hcrowded]
      by_cases hfree : 1000 + exact < 27000
      · rw [if_pos (decide_eq_true hfree)]
        have hsame : exact = expected := by
          have hcount := hfew (by omega)
          omega
        constructor <;> intro h <;> omega
      · rw [if_neg (by simp; omega)]
        constructor <;> intro h <;> omega

/-- The plan of a request is fair exactly when the request is for what settles it. -/
theorem fair_iff_of_plan
    (hrequest : request.WellFormed) (hp : plan request = some p) :
  p.Fair request ↔ request.FairFor p.fee p.picked.length
  := by
  obtain ⟨-, hsettles, hchange⟩ := settles_of_plan hp
  have h := sound_of_plan hrequest hp
  obtain ⟨-, hcount, -⟩ := h.vout_spec hrequest
  obtain ⟨k, hfee, hk, hasks⟩ := hsettles.bounds
  have hpicked : p.picked.length < 2 ^ 24 := by
    obtain ⟨sublist, hsame, hsublist⟩ := h.subperm
    have hle := hsublist.length_le
    rw [hsame.length_eq] at hle
    exact lt_of_le_of_lt hle hrequest.count_lt
  have hdust : countDust request.amount ≤ 1 := by
    rw [countDust]
    split_ifs <;> decide
  have hpos : 0 < COIN := by decide
  have hlow : 1 + expectedBytes p.picked.length p.change / 1000 + countDust request.amount ≤ k := by
    rw [Request.asks, ← hchange, hfee] at hasks
    exact Int.ofNat_le.mp (Int.le_of_mul_le_mul_right hasks hpos)
  have hless : request.asks p.fee p.picked.length < p.fee
      ↔ 1 + expectedBytes p.picked.length p.change / 1000 + countDust request.amount < k := by
    rw [Request.asks, ← hchange, hfee, Int.mul_lt_mul_right hpos]
    exact Int.ofNat_lt
  have hrelay := relayFee_le_iff hpicked hdust hlow hk
  rw [← hfee, ← hcount] at hrelay
  constructor
  · intro hfair
    obtain ⟨hsize, hkilobytes⟩ := hrelay.mp hfair.fee
    refine ⟨?_, ?_, ?_⟩
    · have hcases := hfair.change
      omega
    · rw [← hchange, ← hcount]
      exact hsize
    · rw [hless, ← hchange, ← hcount]
      exact hkilobytes
  · rintro ⟨hcases, hsize, hkilobytes⟩
    rw [← hchange, ← hcount] at hsize hkilobytes
    rw [hless] at hkilobytes
    exact ⟨by omega, hrelay.mpr ⟨hsize, hkilobytes⟩⟩

theorem buildAndSign_eq_some
    {built : Built} (h : buildAndSign crypto library request = some built) :
  ∃ p signed, plan request = some p
    ∧ signInputs crypto library 0 (p.picked.map Spendable.owner) p.tx = some signed
    ∧ built = ⟨toHex (serialize signed), getHex (crypto.hash (serialize signed)), p.fee, p.change,
      p.picked.length, request.amount, p⟩
  := by
  obtain ⟨p, hp, h⟩ := Option.bind_eq_some_iff.mp h
  obtain ⟨signed, hsigned, h⟩ := Option.bind_eq_some_iff.mp h
  exact ⟨p, signed, hp, hsigned, (Option.some.inj h).symm⟩

/-- The fee for relaying a signed payment depends on its size alone. -/
theorem getMinFee_signed
    (hrequest : request.WellFormed) (h : p.Sound request) {scripts : ℕ → CScript}
    (hscripts : ∀ txin ∈ (withScripts p.unsigned scripts).vin, txin.scriptSig.length ≤ 107) :
  ((withScripts p.unsigned scripts).getMinFee 1000 true .relay).toInt
      = relayFee (withScripts p.unsigned scripts).serialize.length (countDust request.amount)
    ∧ (withScripts p.unsigned scripts).serialize.length
      ≤ exactBytes p.picked.length p.vout.length
    ∧ ((∀ txin ∈ (withScripts p.unsigned scripts).vin, txin.scriptSig.length = 107) →
      (withScripts p.unsigned scripts).serialize.length
        = exactBytes p.picked.length p.vout.length)
  := by
  obtain ⟨hvalues, hcount, hdust, -⟩ := h.vout_spec hrequest
  have hvoutLength : (withScripts p.unsigned scripts).vout.length = p.vout.length :=
    List.length_map _
  have hvinLength : (withScripts p.unsigned scripts).vin.length = p.picked.length := by
    rw [withScripts, List.length_mapIdx, Plan.unsigned, List.length_map]
  have hfew : p.vout.length ≤ 2 := by
    rw [hcount, countOutputs]
    split_ifs <;> decide
  have hpicked : p.picked.length < 2 ^ 24 := by
    obtain ⟨sublist, hsame, hsublist⟩ := h.subperm
    have hle := hsublist.length_le
    rw [hsame.length_eq] at hle
    exact lt_of_le_of_lt hle hrequest.count_lt
  have hscriptPubKey : ∀ txout ∈ (withScripts p.unsigned scripts).vout,
      txout.scriptPubKey.length = 25 := by
    intro txout hmem
    obtain ⟨o, ho, rfl⟩ := List.mem_map.mp hmem
    exact (hvalues o ho).2
  have hsize := length_serialize_of_short
    (fun txin hmem => lt_of_le_of_lt (hscripts txin hmem) (by decide)) hscriptPubKey (by omega)
  rw [hvinLength, hvoutLength] at hsize
  have hsum : ((withScripts p.unsigned scripts).vin.map
      (fun txin => 41 + txin.scriptSig.length)).sum ≤ p.picked.length * 148 := by
    have hle := List.sum_le_card_nsmul ((withScripts p.unsigned scripts).vin.map
      (fun txin => 41 + txin.scriptSig.length)) 148 (by
        intro n hmem
        obtain ⟨txin, htxin, rfl⟩ := List.mem_map.mp hmem
        have hscript := hscripts txin htxin
        omega)
    rw [List.length_map, hvinLength, nsmul_eq_mul] at hle
    exact hle
  have hcountBytes : countBytes p.picked.length ≤ 9 := by
    rw [countBytes, writeCompactSize]
    split_ifs <;> simp [length_toLE]
  have hle : (withScripts p.unsigned scripts).serialize.length
      ≤ exactBytes p.picked.length p.vout.length := by
    rw [hsize, exactBytes]
    omega
  have hdust' : (withScripts p.unsigned scripts).dustOutputs = countDust request.amount := hdust
  refine ⟨?_, hle, ?_⟩
  · rw [← hdust']
    apply toInt_getMinFee_relay (CTransaction.lawful.size_eq _)
    · rw [exactBytes] at hle
      omega
    · omega
  · intro hall
    have hconst : (withScripts p.unsigned scripts).vin.map (fun txin => 41 + txin.scriptSig.length)
        = List.replicate p.picked.length 148 := by
      rw [← hvinLength, ← List.map_const']
      apply List.map_congr_left
      intro txin hmem
      rw [hall txin hmem]
    rw [hsize, hconst, List.sum_replicate_nat, exactBytes]

theorem honest_of_fair
    (hrequest : request.WellFormed) (hfair : ∀ p, plan request = some p → p.Fair request) :
  AlwaysHonest request
  := by
  intro crypto library hsign built hbuilt
  obtain ⟨p, signed, hp, hsigned, rfl⟩ := buildAndSign_eq_some hbuilt
  have h := sound_of_plan hrequest hp
  obtain ⟨hchange, hfee⟩ := hfair p hp
  obtain ⟨hvalues, hcount, -, htail, htotal⟩ := h.vout_spec hrequest
  have hkept : (if p.change ≥ DUST then p.change else 0) = p.change := by
    split_ifs with hge
    · rfl
    · rcases hchange with hzero | hlarge
      · exact hzero.symm
      · exact absurd hlarge hge
  constructor
  · obtain ⟨sublist, hsame, hsublist⟩ := h.subperm
    exact (hsame.map _).nodup_iff.mp ((hsublist.map _).nodup hrequest.nodup)
  · simp only
    rw [htotal, hkept, h.sum_eq]
    ring
  · simp only
    rw [htail]
    split_ifs with hge
    · simp
    · rcases hchange with hzero | hlarge
      · exact hzero
      · exact absurd hlarge hge
  · obtain ⟨scripts, hread, -, hscripts⟩ := exists_signed hrequest h hsign hsigned
    refine ⟨withScripts p.unsigned scripts, ?_, ?_, ?_, ?_⟩
    · simp only
      rw [fromHex_toHex, hread]
    · simp only [withScripts, Plan.unsigned]
      apply List.ext_getElem?
      intro i
      simp only [List.getElem?_map, List.getElem?_mapIdx, Option.map_map]
      rfl
    · simp only [withScripts, Plan.unsigned, List.map_map]
      apply List.map_congr_left
      exact fun o hmem => (hvalues o hmem).1
    · have hshort : ∀ txin ∈ (withScripts p.unsigned scripts).vin, txin.scriptSig.length ≤ 107 := by
        intro txin hmem
        obtain ⟨hash, privKey, hscript⟩ := hscripts txin hmem
        have hle := hsign hash privKey
        omega
      obtain ⟨hmin, hsize, -⟩ := getMinFee_signed hrequest h hshort
      have hdust : countDust request.amount < 1000 := by
        rw [countDust]
        split_ifs <;> decide
      rw [hmin]
      exact (relayFee_mono hsize hdust).trans hfee

/-- Signatures of 71 bytes. -/
def longSignatures : Library where
  hash160 _ := 0
  sign _ _ := List.replicate 71 0x30

theorem fair_of_honest
    (hrequest : request.WellFormed) (hhonest : AlwaysHonest request) (hp : plan request = some p) :
  p.Fair request
  := by
  have h := sound_of_plan hrequest hp
  have hlength : ∀ hash key, (longSignatures.sign hash key).length = 71 :=
    fun _ _ => List.length_replicate
  have hsign : ∀ hash key, (longSignatures.sign hash key).length ≤ 71 :=
    fun hash key => (hlength hash key).le
  have howners : ∀ owner ∈ p.picked.map Spendable.owner, owner.pubKey.length = 33 := by
    intro owner hmem
    obtain ⟨u, hu, rfl⟩ := List.mem_map.mp hmem
    exact hrequest.pubKey u (h.subperm.subset hu)
  obtain ⟨signed, hsigned⟩ := @exists_signInputs sampleCrypto _ hsign _ howners 0 p.tx
  have hbuilt : buildAndSign sampleCrypto longSignatures request
      = some ⟨toHex (serialize signed), getHex (sampleCrypto.hash (serialize signed)), p.fee,
        p.change, p.picked.length, request.amount, p⟩ := by
    rw [buildAndSign, hp, Option.bind_eq_bind, Option.bind_some, hsigned]
    rfl
  have hbuiltHonest := hhonest sampleCrypto longSignatures hsign _ hbuilt
  obtain ⟨-, -, -, -, htotal⟩ := h.vout_spec hrequest
  constructor
  · have hbalanced := hbuiltHonest.balanced
    simp only at hbalanced
    rw [htotal, h.sum_eq] at hbalanced
    split_ifs at hbalanced with hge
    · exact Or.inr hge
    · exact Or.inl (by omega)
  · obtain ⟨tx, hread, -, -, hrelay⟩ := hbuiltHonest.relayed
    obtain ⟨scripts, hread', -, hscripts⟩ := exists_signed hrequest h hsign hsigned
    simp only at hread hrelay
    rw [fromHex_toHex, hread'] at hread
    obtain ⟨rfl, -⟩ := Prod.mk.inj (Option.some.inj hread)
    have hall : ∀ txin ∈ (withScripts p.unsigned scripts).vin, txin.scriptSig.length = 107 := by
      intro txin hmem
      obtain ⟨hash, privKey, hscript⟩ := hscripts txin hmem
      rw [hscript, hlength]
    obtain ⟨hmin, -, hsize⟩ := getMinFee_signed hrequest h (fun txin hmem => (hall txin hmem).le)
    rw [hmin, hsize hall] at hrelay
    exact hrelay

/-- A payment is honest exactly when what settles its request leaves no change that is dropped, and the
count of the inputs does not take it into a kilobyte that is not paid for. -/
theorem buildAndSign_honest_iff {request : Request} (hrequest : request.WellFormed) :
  AlwaysHonest request ↔ request.Fair
  := by
  constructor
  · intro hhonest haccepted fee n hsettles
    obtain ⟨p, hp, rfl, rfl, -⟩ := exists_plan_of_settles haccepted hsettles
    exact (fair_iff_of_plan hrequest hp).mp (fair_of_honest hrequest hhonest hp)
  · intro hfair
    apply honest_of_fair hrequest
    intro p hp
    obtain ⟨haccepted, hsettles, -⟩ := settles_of_plan hp
    exact (fair_iff_of_plan hrequest hp).mpr (hfair haccepted _ _ hsettles)

/-! ### Payments -/

/-- A request of one account with the given outputs. -/
def requestOf (utxos : List Utxo) (amount : ℤ) : Request where
  accounts := [{ sampleAccount 3 with utxos }]
  toAddr := some ⟨28, List.replicate 20 7⟩
  amount := amount
  fTestNet := false
  changeAddr := some ⟨28, List.replicate 20 9⟩

/-- A payment of half of ten coins leaves four and a half coins of change after the fee. -/
theorem halfPayment_honest : AlwaysHonest (requestOf [⟨⟨7, 0⟩, 1000000000⟩] 450000000) := by
  have hrequest : (requestOf [⟨⟨7, 0⟩, 1000000000⟩] 450000000).WellFormed := by
    refine ⟨by decide, by decide, by decide, by decide, by decide, ?_⟩
    intro decoded hdecoded
    obtain rfl := Option.some.inj hdecoded
    rfl
  apply (buildAndSign_honest_iff hrequest).mpr
  intro haccepted fee n hsettles
  obtain ⟨p, hp, rfl, rfl, -⟩ := exists_plan_of_settles haccepted hsettles
  apply (fair_iff_of_plan hrequest hp).mp
  have hplan : (plan (requestOf [⟨⟨7, 0⟩, 1000000000⟩] 450000000)).map
      (fun p => (p.change, p.fee, p.picked.length, p.vout.length))
      = some (450000000, 100000000, 1, 2) := by
    decide
  rw [hp, Option.map_some] at hplan
  obtain ⟨hchange, hrest⟩ := Prod.mk.inj (Option.some.inj hplan)
  obtain ⟨hfee, hrest⟩ := Prod.mk.inj hrest
  obtain ⟨hpicked, hvout⟩ := Prod.mk.inj hrest
  constructor
  · rw [hchange]
    decide
  · rw [hpicked, hvout, hfee]
    decide

/-- So many outputs of two coins. -/
def twos (n : ℕ) : List Utxo := (List.range n).map (fun i => ⟨⟨7, UInt32.ofNat i⟩, 200000000⟩)

theorem nodup_twos (hn : n < 2 ^ 32) (amount : ℤ) :
  ((requestOf (twos n) amount).spendable.map (fun u => u.prevout)).Nodup
  := by
  have hprevouts : (requestOf (twos n) amount).spendable.map (fun u => u.prevout)
      = (List.range n).map (fun i => (⟨7, UInt32.ofNat i⟩ : COutPoint)) := by
    rw [Request.spendable, requestOf]
    simp [twos, Function.comp_def]
  rw [hprevouts]
  apply List.Nodup.map_on _ List.nodup_range
  intro i hi j hj heq
  have hi' := List.mem_range.mp hi
  have hj' := List.mem_range.mp hj
  obtain ⟨-, hn⟩ := COutPoint.mk.inj heq
  have hnat := congrArg UInt32.toNat hn
  rw [UInt32.toNat_ofNat', UInt32.toNat_ofNat'] at hnat
  omega

/-- Half a coin of change is dropped, and the count of 290 inputs takes a payment of 42998 expected
bytes to 43000. -/
theorem payments_not_honest :
  ¬AlwaysHonest (requestOf [⟨⟨7, 0⟩, 1000000000⟩] 850000000)
    ∧ ¬AlwaysHonest (requestOf (twos 290) 53600000000)
  := by
  have hone : (requestOf [⟨⟨7, 0⟩, 1000000000⟩] 850000000).WellFormed := by
    refine ⟨by decide, by decide, by decide, by decide, by decide, ?_⟩
    intro decoded hdecoded
    obtain rfl := Option.some.inj hdecoded
    rfl
  have hmany : (requestOf (twos 290) 53600000000).WellFormed := by
    refine ⟨nodup_twos (by decide) _, by decide +kernel, by decide +kernel, by decide +kernel,
      by decide +kernel, ?_⟩
    intro decoded hdecoded
    obtain rfl := Option.some.inj hdecoded
    rfl
  constructor
  · intro hhonest
    have hchange : (plan (requestOf [⟨⟨7, 0⟩, 1000000000⟩] 850000000)).map Plan.change
        = some 50000000 := by
      decide
    obtain ⟨p, hp, hchange⟩ := Option.map_eq_some_iff.mp hchange
    rcases (fair_of_honest hone hhonest hp).change with hzero | hlarge
    · rw [hchange] at hzero
      exact absurd hzero (by decide)
    · rw [hchange] at hlarge
      exact absurd hlarge (by decide)
  · intro hhonest
    have hplan : (plan (requestOf (twos 290) 53600000000)).map
        (fun p => (p.picked.length, p.vout.length, p.fee)) = some (290, 2, 4300000000) := by
      decide +kernel
    obtain ⟨p, hp, hplan⟩ := Option.map_eq_some_iff.mp hplan
    obtain ⟨hpicked, hrest⟩ := Prod.mk.inj hplan
    obtain ⟨hvout, hfee⟩ := Prod.mk.inj hrest
    have hpaid := (fair_of_honest hmany hhonest hp).fee
    rw [hpicked, hvout, hfee] at hpaid
    exact absurd hpaid (by decide)

end CorgiCoin.WebWallet
