import CorgiCoin.Undo

/-!
# What the transaction index tells of the chain

The transactions of the best chain in the order in which they were connected, with their positions,
are the history of the index.  An entry is that of the last transaction of its hash, and its marks are
later transactions that spend its outputs.  A transaction may repeat an older one whose outputs are all
spent; then the entry is that of the repeated one, and nothing is left of the older one.  All of this
holds after connecting and after disconnecting, in any order.
-/

namespace CorgiCoin

open Std

/-- A transaction with its position. -/
abbrev PlacedTx := CDiskTxPos × CTransaction

/-- An output is marked as spent. -/
def IsSpent (index : TxIndexMap) (o : COutPoint) : Prop :=
  ∃ pos, slot index o = some pos ∧ pos.isNull = false

/-- The entry at a hash, by the transactions that were connected. -/
structure LocatedAt (env : Env) (history : List PlacedTx) (hash : uint256) (txindex : CTxIndex)
    (i : ℕ) : Prop where
  exists_tx : ∃ tx, history[i]? = some (txindex.pos, tx) ∧ tx.getHash env.crypto = hash
  last : ∀ (j : ℕ) (p : PlacedTx), i < j → history[j]? = some p → p.2.getHash env.crypto ≠ hash
  marks : ∀ n pos, txindex.vSpent[n]? = some pos → pos.isNull = false →
    ∃ j tx, i < j ∧ history[j]? = some (pos, tx) ∧ ∃ o ∈ tx.prevouts, o.hash = hash ∧ o.n.toNat = n

/-- The index after the transactions of a history, the first connected first. -/
structure Tells (env : Env) (index : TxIndexMap) (history : List PlacedTx) : Prop where
  located : ∀ (hash : uint256) (txindex : CTxIndex), index[hash]? = some txindex →
    ∃ i, LocatedAt env history hash txindex i
  /-- What a transaction spends is marked, unless the transaction that it spends from is repeated
  from there on. -/
  spent : ∀ (i : ℕ) (p : PlacedTx), history[i]? = some p → ∀ o ∈ p.2.prevouts,
    (∀ (j : ℕ) (q : PlacedTx), i ≤ j → history[j]? = some q → q.2.getHash env.crypto ≠ o.hash) →
    index[o.hash]? = none ∨ IsSpent index o
  /-- An output is spent twice only where its transaction is repeated in between. -/
  once : ∀ (i j : ℕ) (p q : PlacedTx), i < j → history[i]? = some p → history[j]? = some q →
    ∀ o ∈ p.2.prevouts, o ∈ q.2.prevouts →
    ∃ (k : ℕ) (r : PlacedTx), i ≤ k ∧ k < j ∧ history[k]? = some r
      ∧ r.2.getHash env.crypto = o.hash

theorem tells_nil (env : Env) : Tells env ∅ [] := by
  constructor
  · intro hash txindex h
    rw [ExtTreeMap.getElem?_empty] at h
    cases h
  · intro i p h
    cases h
  · intro i j p q _ h
    cases h

/-! ## Lists that grow at the end -/

theorem getElem?_concat_iff {α : Type} {l : List α} {x y : α} {i : ℕ} :
  (l ++ [x])[i]? = some y ↔ l[i]? = some y ∨ i = l.length ∧ x = y
  := by
  rw [List.getElem?_append]
  split_ifs with hlt
  · constructor
    · exact .inl
    · rintro (h | ⟨rfl, -⟩)
      · exact h
      · exact absurd hlt (Nat.lt_irrefl _)
  · rw [List.getElem?_eq_none (Nat.not_lt.mp hlt), List.getElem?_singleton]
    constructor
    · intro h
      split_ifs at h
      exact .inr ⟨by omega, Option.some.inj h⟩
    · rintro (h | ⟨rfl, rfl⟩)
      · cases h
      · rw [Nat.sub_self, if_pos rfl]

/-! ## Marks -/

section Marks

variable {index : TxIndexMap}

/-- An entry after writing marks: the marks of the outputs are new, and all others are old. -/
theorem getElem?_setSlots_eq_some
    {pos : CDiskTxPos} {os : List COutPoint} {hash : uint256} {txindex : CTxIndex}
    (h : (setSlots pos index os)[hash]? = some txindex) :
  ∃ old, index[hash]? = some old ∧ txindex.pos = old.pos
    ∧ ∀ n p, txindex.vSpent[n]? = some p →
      old.vSpent[n]? = some p ∨ p = pos ∧ ∃ o ∈ os, o.hash = hash ∧ o.n.toNat = n
  := by
  induction os generalizing index with
  | nil => exact ⟨txindex, h, rfl, fun _ _ hp => .inl hp⟩
  | cons o os ih =>
    obtain ⟨mid, hmid, hpos, hmarks⟩ := ih h
    rw [getElem?_setSlot] at hmid
    split_ifs at hmid with hhash
    · obtain ⟨old, hold, rfl⟩ := Option.map_eq_some_iff.mp hmid
      refine ⟨old, hhash ▸ hold, hpos, ?_⟩
      intro n p hp
      obtain hkept | ⟨rfl, o', ho', hn⟩ := hmarks n p hp
      · rw [List.getElem?_set] at hkept
        split_ifs at hkept with hsame
        · exact .inr ⟨(Option.some.inj hkept).symm, o, List.mem_cons_self, hhash, hsame⟩
        · exact .inl hkept
      · exact .inr ⟨rfl, o', List.mem_cons_of_mem _ ho', hn⟩
    · refine ⟨mid, hmid, hpos, ?_⟩
      intro n p hp
      obtain hkept | ⟨rfl, o', ho', hn⟩ := hmarks n p hp
      · exact .inl hkept
      · exact .inr ⟨rfl, o', List.mem_cons_of_mem _ ho', hn⟩

theorem IsSpent.setSlots
    {o : COutPoint} (h : IsSpent index o) {pos : CDiskTxPos} (hpos : pos.isNull = false)
    (os : List COutPoint) :
  IsSpent (setSlots pos index os) o
  := by
  obtain ⟨p, hslot, hnull⟩ := h
  by_cases hmem : o ∈ os
  · exact ⟨pos, slot_setSlots_of_mem pos hslot hmem, hpos⟩
  · exact ⟨p, (slot_setSlots_of_not_mem pos hmem).trans hslot, hnull⟩

end Marks

/-! ## Connecting a transaction -/

section Steps

variable {env : Env} {index : TxIndexMap} {history : List PlacedTx} {placed : PlacedTx}

/-- The entries after a transaction is connected. -/
theorem Tells.locatedAt_addTx
    (h : Tells env index history) {hash : uint256} {txindex : CTxIndex}
    (hget : (addTx env index placed)[hash]? = some txindex) :
  ∃ i, LocatedAt env (history ++ [placed]) hash txindex i
  := by
  rw [addTx, TreeMap.getElem?_insert_ite] at hget
  split_ifs at hget with hhash
  · -- the entry of the transaction itself, which has no marks
    obtain rfl := Option.some.inj hget
    refine ⟨history.length, ⟨placed.2, getElem?_concat_iff.mpr (.inr ⟨rfl, rfl⟩), hhash⟩, ?_, ?_⟩
    · intro j p hlt hp
      obtain hp | ⟨rfl, -⟩ := getElem?_concat_iff.mp hp
      · have hle := (List.getElem?_eq_some_iff.mp hp).1
        omega
      · exact absurd hlt (Nat.lt_irrefl _)
    · intro n pos hpos hnull
      rw [List.eq_of_mem_replicate (List.mem_of_getElem? hpos)] at hnull
      cases hnull
  · obtain ⟨old, hold, hpos, hmarks⟩ := getElem?_setSlots_eq_some hget
    obtain ⟨i, ⟨tx, hi, htx⟩, hlast, holdMarks⟩ := h.located hash old hold
    have hlt := (List.getElem?_eq_some_iff.mp hi).1
    refine ⟨i, ⟨tx, getElem?_concat_iff.mpr (.inl (hpos ▸ hi)), htx⟩, ?_, ?_⟩
    · intro j p hij hp
      obtain hp | ⟨-, rfl⟩ := getElem?_concat_iff.mp hp
      · exact hlast j p hij hp
      · exact hhash
    · intro n pos hslot hnull
      obtain hkept | ⟨rfl, o, ho, hn⟩ := hmarks n pos hslot
      · obtain ⟨j, tx', hij, hj, ho⟩ := holdMarks n pos hkept hnull
        exact ⟨j, tx', hij, getElem?_concat_iff.mpr (.inl hj), ho⟩
      · exact ⟨history.length, placed.2, hlt, getElem?_concat_iff.mpr (.inr ⟨rfl, rfl⟩), o, ho, hn⟩

/-- A transaction is connected that spends outputs with null marks. -/
theorem Tells.addTx
    (h : Tells env index history) (hpos : placed.1.isNull = false)
    (hunspent : ∀ o ∈ placed.2.prevouts, ∃ pos, slot index o = some pos ∧ pos.isNull = true) :
  Tells env (addTx env index placed) (history ++ [placed])
  := by
  have hnot : ∀ o ∈ placed.2.prevouts, ¬(index[o.hash]? = none ∨ IsSpent index o) := by
    intro o ho hor
    obtain ⟨pos, hslot, hnull⟩ := hunspent o ho
    obtain hnone | ⟨pos', hslot', hnull'⟩ := hor
    · rw [slot, hnone] at hslot
      cases hslot
    · obtain rfl := Option.some.inj (hslot.symm.trans hslot')
      rw [hnull] at hnull'
      cases hnull'
  constructor
  · exact fun hash txindex hget => h.locatedAt_addTx hget
  · intro i p hp o ho hrepeat
    have hhash : placed.2.getHash env.crypto ≠ o.hash := by
      apply hrepeat history.length placed _ (getElem?_concat_iff.mpr (.inr ⟨rfl, rfl⟩))
      have hlt := (List.getElem?_eq_some_iff.mp hp).1
      rw [List.length_append, List.length_singleton] at hlt
      omega
    have hslot : slot (CorgiCoin.addTx env index placed) o
        = slot (setSlots placed.1 index placed.2.prevouts) o := by
      rw [slot_addTx, if_neg hhash]
    obtain hp | ⟨-, rfl⟩ := getElem?_concat_iff.mp hp
    · obtain hnone | hspent := h.spent i p hp o ho (fun j q hij hq =>
          hrepeat j q hij (getElem?_concat_iff.mpr (.inl hq)))
      · left
        exact getElem?_addTx_eq_none_iff.mpr ⟨hhash, hnone⟩
      · right
        rw [IsSpent, hslot]
        exact hspent.setSlots hpos placed.2.prevouts
    · right
      obtain ⟨pos, hold, -⟩ := hunspent o ho
      refine ⟨placed.1, ?_, hpos⟩
      rw [hslot]
      exact slot_setSlots_of_mem placed.1 hold ho
  · intro i j p q hij hp hq o ho ho'
    have hlt := (List.getElem?_eq_some_iff.mp hq).1
    rw [List.length_append, List.length_singleton] at hlt
    have hp' : history[i]? = some p := by
      obtain hp | ⟨rfl, -⟩ := getElem?_concat_iff.mp hp
      · exact hp
      · omega
    obtain hq | ⟨rfl, rfl⟩ := getElem?_concat_iff.mp hq
    · obtain ⟨k, r, hik, hkj, hr, hhash⟩ := h.once i j p q hij hp' hq o ho ho'
      exact ⟨k, r, hik, hkj, getElem?_concat_iff.mpr (.inl hr), hhash⟩
    · by_contra hno
      apply hnot o ho'
      apply h.spent i p hp' o ho
      intro k r hik hr hhash
      exact hno ⟨k, r, hik, (List.getElem?_eq_some_iff.mp hr).1,
        getElem?_concat_iff.mpr (.inl hr), hhash⟩

/-! ## Disconnecting a transaction -/

variable {index' : TxIndexMap}

theorem disconnectInputs_eq_some
    {tx : CTransaction} (h : tx.disconnectInputs env index = some index') :
  index' = (setSlots CDiskTxPos.null index tx.prevouts).erase (tx.getHash env.crypto)
  := by
  rw [CTransaction.disconnectInputs] at h
  obtain ⟨mid, hmid, rfl⟩ := Option.map_eq_some_iff.mp h
  rw [CTransaction.prevouts]
  split_ifs at hmid ⊢
  · obtain rfl := Option.some.inj hmid
    rfl
  · obtain ⟨rfl, -⟩ := foldlM_disconnectInput hmid
    rfl

/-- The last transaction is disconnected. -/
theorem Tells.disconnectInputs
    (h : Tells env index (history ++ [placed]))
    (hdisconnect : placed.2.disconnectInputs env index = some index') :
  Tells env index' history
  := by
  obtain rfl := disconnectInputs_eq_some hdisconnect
  have hlength : (history ++ [placed])[history.length]? = some placed :=
    getElem?_concat_iff.mpr (.inr ⟨rfl, rfl⟩)
  constructor
  · intro hash txindex hget
    rw [TreeMap.getElem?_erase_ite] at hget
    split_ifs at hget with hhash
    obtain ⟨old, hold, hpos, hmarks⟩ := getElem?_setSlots_eq_some hget
    obtain ⟨i, ⟨tx, hi, htx⟩, hlast, holdMarks⟩ := h.located hash old hold
    have hi' : history[i]? = some (txindex.pos, tx) := by
      rw [hpos]
      obtain hi | ⟨-, rfl⟩ := getElem?_concat_iff.mp hi
      · exact hi
      · exact absurd htx hhash
    refine ⟨i, ⟨tx, hi', htx⟩, ?_, ?_⟩
    · exact fun j p hij hp => hlast j p hij (getElem?_concat_iff.mpr (.inl hp))
    · intro n pos hmark hnull
      obtain hkept | ⟨rfl, -⟩ := hmarks n pos hmark
      · obtain ⟨j, tx', hij, hj, o, ho, rfl, rfl⟩ := holdMarks n pos hkept hnull
        obtain hj | ⟨-, rfl⟩ := getElem?_concat_iff.mp hj
        · exact ⟨j, tx', hij, hj, o, ho, rfl, rfl⟩
        · -- a mark of the transaction itself was taken back
          have hslot : slot index o = some pos := slot_eq_some_iff.mpr ⟨old, hold, hkept⟩
          have hnew := slot_setSlots_of_mem CDiskTxPos.null hslot ho
          have hsame : slot (setSlots CDiskTxPos.null index tx'.prevouts) o = some pos :=
            slot_eq_some_iff.mpr ⟨txindex, hget, hmark⟩
          rw [← Option.some.inj (hnew.symm.trans hsame)] at hnull
          cases hnull
      · cases hnull
  · intro i p hp o ho hrepeat
    have hlt := (List.getElem?_eq_some_iff.mp hp).1
    rw [TreeMap.getElem?_erase_ite]
    by_cases hhash : placed.2.getHash env.crypto = o.hash
    · left
      rw [if_pos hhash]
    · rw [if_neg hhash]
      obtain hnone | ⟨pos, hslot, hnull⟩ :=
        h.spent i p (getElem?_concat_iff.mpr (.inl hp)) o ho (by
          intro j q hij hq
          obtain hq | ⟨-, rfl⟩ := getElem?_concat_iff.mp hq
          · exact hrepeat j q hij hq
          · exact hhash)
      · left
        exact getElem?_setSlots_eq_none_iff.mpr hnone
      · right
        have hnot : o ∉ placed.2.prevouts := by
          intro ho'
          obtain ⟨k, r, hik, hk, hr, hrhash⟩ := h.once i history.length p placed hlt
            (getElem?_concat_iff.mpr (.inl hp)) hlength o ho ho'
          obtain hr | ⟨rfl, -⟩ := getElem?_concat_iff.mp hr
          · exact hrepeat k r hik hr hrhash
          · exact absurd hk (Nat.lt_irrefl _)
        refine ⟨pos, ?_, hnull⟩
        rw [slot, TreeMap.getElem?_erase_ite, if_neg hhash, ← slot,
          slot_setSlots_of_not_mem _ hnot, hslot]
  · intro i j p q hij hp hq o ho ho'
    have hlt := (List.getElem?_eq_some_iff.mp hq).1
    obtain ⟨k, r, hik, hkj, hr, hhash⟩ := h.once i j p q hij (getElem?_concat_iff.mpr (.inl hp))
      (getElem?_concat_iff.mpr (.inl hq)) o ho ho'
    obtain hr | ⟨rfl, -⟩ := getElem?_concat_iff.mp hr
    · exact ⟨k, r, hik, hkj, hr, hhash⟩
    · omega

/-! ## Connecting and disconnecting blocks -/

variable {pindex : CBlockIndex}

/-- Transactions that connect one after the other. -/
theorem Tells.foldl_addTx
    {reader : TxReader} {fStrict : Bool} {txs : List PlacedTx}
    (h : Tells env index history) (hpos : ∀ p ∈ txs, p.1.isNull = false)
    (hconnects : TxsConnect env reader fStrict pindex index txs) :
  Tells env (txs.foldl (CorgiCoin.addTx env) index) (history ++ txs)
  := by
  induction txs generalizing index history with
  | nil =>
    rw [List.append_nil]
    exact h
  | cons placed txs ih =>
    obtain ⟨hfirst, hrest⟩ := List.forall_mem_cons.mp hpos
    obtain ⟨hconnect, hconnects⟩ := hconnects
    have hnext : Tells env (CorgiCoin.addTx env index placed) (history ++ [placed]) := by
      apply h.addTx hfirst
      intro o ho
      rw [CTransaction.prevouts] at ho
      cases hcoinbase : placed.2.isCoinBase with
      | true =>
        rw [hcoinbase, if_pos rfl] at ho
        cases ho
      | false =>
        rw [hcoinbase, if_neg Bool.false_ne_true] at ho
        obtain ⟨nValueIn, nValueOut, htx⟩ := hconnect hcoinbase
        exact htx.slot_prevouts o ho
    have hall := ih hnext hrest hconnects
    rwa [List.append_assoc, List.singleton_append] at hall

/-- A block is connected. -/
theorem Tells.connectBlock
    {reader : TxReader} {txdb txdb' : CTxDB} {block : CBlock} (h : Tells env txdb.txIndex history)
    (hconnects : BlockConnects env reader txdb pindex block txdb') :
  Tells env txdb'.txIndex (history ++ block.placed pindex.entry.pos)
  := by
  rw [hconnects.txIndex_eq]
  exact h.foldl_addTx (fun p hp => (hconnects.placed_isNull p hp).1) hconnects.txsConnect

/-- Transactions are disconnected, the last one first. -/
theorem Tells.foldlM_disconnectInputs
    {txs : List PlacedTx} (h : Tells env index (history ++ txs))
    (hdisconnect : (txs.map Prod.snd).reverse.foldlM (CTransaction.disconnectInputs env) index
      = some index') :
  Tells env index' history
  := by
  induction txs using List.reverseRecOn generalizing index with
  | nil =>
    obtain rfl := Option.some.inj hdisconnect
    rwa [List.append_nil] at h
  | append_singleton txs placed ih =>
    rw [List.map_append, List.reverse_append, List.map_singleton, List.reverse_singleton,
      List.singleton_append, List.foldlM_cons, Option.bind_eq_bind, Option.bind_eq_some_iff]
      at hdisconnect
    obtain ⟨mid, hstep, hrest⟩ := hdisconnect
    rw [← List.append_assoc] at h
    exact ih (h.disconnectInputs hstep) hrest

/-- A block is disconnected. -/
theorem Tells.disconnectBlock
    {txdb txdb' : CTxDB} {block : CBlock}
    (h : Tells env txdb.txIndex (history ++ block.placed pindex.entry.pos))
    (hdisconnect : block.disconnectBlock env txdb pindex = some txdb') :
  Tells env txdb'.txIndex history
  := by
  have hindex := CBlock.map_txIndex_disconnectBlock env txdb pindex block
  rw [hdisconnect, Option.map_some, eq_comm, CBlock.disconnectTxs] at hindex
  apply h.foldlM_disconnectInputs
  rwa [CBlock.placed, map_snd_txPositions]

end Steps

end CorgiCoin
