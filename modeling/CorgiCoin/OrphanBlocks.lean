import CorgiCoin.BlockCodec
import CorgiCoin.Merkle
import CorgiCoin.Lib.Transition
import CorgiCoin.Lib.TreeMap
import Mathlib.Algebra.Order.BigOperators.Group.List
import Mathlib.Data.List.Nodup

/-!
# The orphan-block pool

Blocks whose parent is not known yet wait in `mapOrphanBlocks`, filed a second time under their
parent in `mapOrphanBlocksByPrev`, and `nOrphanBlockBytes` counts their sizes.  The two maps hold
pointers, and a pointer is found again by its address.
-/

namespace CorgiCoin

open Std Transition

/-- A block some `shared_ptr` points to.  The serializer follows the pointer to the
merged-mining proof when the version says there is one. -/
structure HeapBlock extends CBlock where
  proof_present : isAuxPowVersion nVersion = true → auxpow.isSome = true

/-- The address a `shared_ptr<CBlock>` holds. -/
abbrev BlockPtr := ℕ

theorem HeapBlock.isSome_getSerializeSize (block : HeapBlock) :
  (block.toCBlock.getSerializeSize SER_NETWORK).isSome
  := by
  rw [CBlock.getSerializeSize]
  split
  case isTrue h =>
    rw [CBlock.carriesAuxPow, Bool.and_eq_true] at h
    obtain ⟨auxpow, hauxpow⟩ := Option.isSome_iff_exists.mp (block.proof_present h.2)
    simp [hauxpow]
  case isFalse => simp

def orphanBlockSize (block : HeapBlock) : UInt32 :=
  (block.toCBlock.getSerializeSize SER_NETWORK).get block.isSome_getSerializeSize

/-- The pool.  The multimap is the list of its entries in the order of their insertion, which
is the order in which `equal_range` walks the entries of one key. -/
structure OrphanBlocks where
  mapOrphanBlocks : ExtTreeMap uint256 BlockPtr compare
  mapOrphanBlocksByPrev : List (uint256 × BlockPtr)
  nOrphanBlockBytes : UInt64
  /-- Some `nOrphanBlockBytes -= ..` has gone below zero; the source keeps no such flag. -/
  underflow : Bool

namespace OrphanBlocks

/-- The pool a node starts with. -/
def empty : OrphanBlocks := ⟨∅, [], 0, false⟩

variable (crypto : Crypto) (heap : BlockPtr → HeapBlock)

def hashOf (pblock : BlockPtr) : uint256 :=
  (heap pblock).toCPureBlockHeader.getHash crypto

def hashPrevOf (pblock : BlockPtr) : uint256 := (heap pblock).hashPrevBlock

def orphanSize (pblock : BlockPtr) : UInt32 := orphanBlockSize (heap pblock)

def addOrphanBlock (pool : OrphanBlocks) (pblock : BlockPtr) : OrphanBlocks :=
  if pool.mapOrphanBlocks.contains (hashOf crypto heap pblock) then pool
  else
    { pool with
      mapOrphanBlocks := pool.mapOrphanBlocks.insert (hashOf crypto heap pblock) pblock
      mapOrphanBlocksByPrev := pool.mapOrphanBlocksByPrev ++ [(hashPrevOf heap pblock, pblock)]
      nOrphanBlockBytes := pool.nOrphanBlockBytes + (orphanSize heap pblock).toUInt64 }

/-- `nOrphanBlockBytes -= OrphanBlockSize(*pblock)` -/
def subBytes (pool : OrphanBlocks) (pblock : BlockPtr) : OrphanBlocks :=
  { pool with
    nOrphanBlockBytes := pool.nOrphanBlockBytes - (orphanSize heap pblock).toUInt64
    underflow :=
      pool.underflow || decide (pool.nOrphanBlockBytes < (orphanSize heap pblock).toUInt64) }

/-- The pointers of the entries under a key of the multimap. -/
def equalRange (pool : OrphanBlocks) (hashPrev : uint256) : List BlockPtr :=
  (pool.mapOrphanBlocksByPrev.filter (·.1 == hashPrev)).map Prod.snd

/-- One turn of the loop of `TakeOrphanBlocksByPrev`. -/
def takeOne (pool : OrphanBlocks) (pblock : BlockPtr) : OrphanBlocks :=
  if pool.mapOrphanBlocks.contains (hashOf crypto heap pblock) then
    subBytes heap
      { pool with mapOrphanBlocks := pool.mapOrphanBlocks.erase (hashOf crypto heap pblock) }
      pblock
  else pool

/-- The blocks that waited for `hashPrev`, and the pool without them. -/
def takeOrphanBlocksByPrev (pool : OrphanBlocks) (hashPrev : uint256) :
    List BlockPtr × OrphanBlocks :=
  let vTaken := pool.equalRange hashPrev
  let taken := vTaken.foldl (takeOne crypto heap) pool
  (vTaken,
    { taken with
      mapOrphanBlocksByPrev := taken.mapOrphanBlocksByPrev.filter (·.1 != hashPrev) })

/-- The entry a random hash picks: the first one not below it, or else the first one. -/
def randomEntry (pool : OrphanBlocks) (rand : uint256) : Option (uint256 × BlockPtr) :=
  (pool.mapOrphanBlocks.toList.find? (fun entry => decide (rand ≤ entry.1))).or
    pool.mapOrphanBlocks.toList.head?

/-- The turn of the loop of `LimitOrphanBlocks` that evicts the entry `it`. -/
def evict (pool : OrphanBlocks) (it : uint256 × BlockPtr) : OrphanBlocks :=
  let pool' := subBytes heap
    { pool with
      mapOrphanBlocksByPrev := pool.mapOrphanBlocksByPrev.erase (hashPrevOf heap it.2, it.2) }
    it.2
  { pool' with mapOrphanBlocks := pool'.mapOrphanBlocks.erase it.1 }

def overLimit (pool : OrphanBlocks) (nMaxBlocks nMaxBytes : UInt32) : Bool :=
  decide (nMaxBlocks.toNat < pool.mapOrphanBlocks.size) ||
    decide (nMaxBytes.toUInt64 < pool.nOrphanBlockBytes)

/-- The loop of `LimitOrphanBlocks`, which draws its random hashes from `rand`.  Each turn makes
the map smaller, so that its size is fuel enough. -/
def limitLoop (nMaxBlocks nMaxBytes : UInt32) (rand : ℕ → uint256) :
    ℕ → ℕ → OrphanBlocks → UInt32 × OrphanBlocks
  | 0, nEvicted, pool => (UInt32.ofNat nEvicted, pool)
  | fuel + 1, nEvicted, pool =>
    if !pool.mapOrphanBlocks.isEmpty && overLimit pool nMaxBlocks nMaxBytes then
      match randomEntry pool (rand nEvicted) with
      | none => (UInt32.ofNat nEvicted, pool)
      | some it => limitLoop nMaxBlocks nMaxBytes rand fuel (nEvicted + 1) (evict heap pool it)
    else (UInt32.ofNat nEvicted, pool)

/-- The number of evicted blocks, and the pool without them. -/
def limitOrphanBlocks (pool : OrphanBlocks) (nMaxBlocks nMaxBytes : UInt32)
    (rand : ℕ → uint256) : UInt32 × OrphanBlocks :=
  limitLoop heap nMaxBlocks nMaxBytes rand pool.mapOrphanBlocks.size 0 pool

/-! ## What the operations keep -/

/-- The sum of the sizes of the pooled blocks. -/
def totalBytes (pool : OrphanBlocks) : ℤ :=
  TreeMap.sum (fun _ pblock => ((orphanSize heap pblock).toNat : ℤ)) pool.mapOrphanBlocks

/-- The two maps hold the same blocks: each pooled block stands under its hash, and once under
the hash of its parent. -/
structure Filed (pool : OrphanBlocks) : Prop where
  hash : ∀ hash pblock, pool.mapOrphanBlocks[hash]? = some pblock →
    hashOf crypto heap pblock = hash
  by_prev : ∀ hashPrev pblock, (hashPrev, pblock) ∈ pool.mapOrphanBlocksByPrev ↔
    hashPrevOf heap pblock = hashPrev ∧
      pool.mapOrphanBlocks[hashOf crypto heap pblock]? = some pblock
  nodup : pool.mapOrphanBlocksByPrev.Nodup

/-- The counter is the sum of the sizes, as a 64-bit number. -/
def Counted (pool : OrphanBlocks) : Prop :=
  (pool.nOrphanBlockBytes.toNat : ℤ) = totalBytes heap pool % 2 ^ 64

/-- The counter has not gone below zero, and the sum of the sizes is within its range. -/
def InRange (pool : OrphanBlocks) : Prop :=
  pool.underflow = false ∧ totalBytes heap pool < 2 ^ 64

variable {crypto heap} {pool : OrphanBlocks}

theorem totalBytes_nonneg (pool : OrphanBlocks) :
  0 ≤ totalBytes heap pool
  := by
  apply List.sum_nonneg
  intro n hn
  obtain ⟨entry, -, rfl⟩ := List.mem_map.mp hn
  apply Int.natCast_nonneg

/-- A counter within its range is the sum itself. -/
theorem Counted.eq_of_lt (h : Counted heap pool) (hlt : totalBytes heap pool < 2 ^ 64) :
  (pool.nOrphanBlockBytes.toNat : ℤ) = totalBytes heap pool
  := by
  rw [h]
  apply Int.emod_eq_of_lt (totalBytes_nonneg pool) hlt

variable {hash : uint256} {pblock : BlockPtr} {pool' : OrphanBlocks}

/-- What erasing a pooled block from the map takes from the sum. -/
theorem totalBytes_eq_add
    (hmem : pool.mapOrphanBlocks[hash]? = some pblock)
    (hmap : pool'.mapOrphanBlocks = pool.mapOrphanBlocks.erase hash) :
  totalBytes heap pool = (orphanSize heap pblock).toNat + totalBytes heap pool'
  := by
  rw [totalBytes, totalBytes, hmap, TreeMap.sum_erase_of_getElem? _ hmem]

/-- Taking the size of a pooled block off the counter when the block leaves the map. -/
theorem counted_sub
    (h : Counted heap pool) (hmem : pool.mapOrphanBlocks[hash]? = some pblock)
    (hmap : pool'.mapOrphanBlocks = pool.mapOrphanBlocks.erase hash)
    (hbytes : pool'.nOrphanBlockBytes
      = pool.nOrphanBlockBytes - (orphanSize heap pblock).toUInt64) :
  Counted heap pool'
  := by
  have htotal : totalBytes heap pool = _ := totalBytes_eq_add hmem hmap
  rw [Counted] at h ⊢
  rw [hbytes, UInt64.toNat_sub, UInt32.toNat_toUInt64]
  have hsize := UInt32.toNat_lt (orphanSize heap pblock)
  omega

/-- The size of a pooled block can be taken off a counter within its range. -/
theorem size_le_counter
    (h : Counted heap pool) (hlt : totalBytes heap pool < 2 ^ 64)
    (hmem : pool.mapOrphanBlocks[hash]? = some pblock) :
  ¬pool.nOrphanBlockBytes < (orphanSize heap pblock).toUInt64
  := by
  let pool' := { pool with mapOrphanBlocks := pool.mapOrphanBlocks.erase hash }
  have htotal : totalBytes heap pool = _ + totalBytes heap pool' := totalBytes_eq_add hmem rfl
  have hnonneg : 0 ≤ totalBytes heap pool' := totalBytes_nonneg pool'
  have hcounter := h.eq_of_lt hlt
  rw [UInt64.lt_iff_toNat_lt, UInt32.toNat_toUInt64]
  omega

/-- A pool within its range stays so when a pooled block leaves it. -/
theorem inRange_sub
    (h : Counted heap pool) (hrange : InRange heap pool)
    (hmem : pool.mapOrphanBlocks[hash]? = some pblock)
    (hmap : pool'.mapOrphanBlocks = pool.mapOrphanBlocks.erase hash)
    (hunder : pool'.underflow
      = (pool.underflow || decide (pool.nOrphanBlockBytes < (orphanSize heap pblock).toUInt64))) :
  InRange heap pool'
  := by
  have htotal : totalBytes heap pool = _ := totalBytes_eq_add hmem hmap
  constructor
  · rw [hunder, hrange.1, Bool.false_or, decide_eq_false_iff_not]
    apply size_le_counter h hrange.2 hmem
  · have hlt := hrange.2
    omega

/-! ### `AddOrphanBlock` -/

theorem addOrphanBlock_spec
    (h : Filed crypto heap pool) (hcounted : Counted heap pool) (pblock : BlockPtr) :
  Filed crypto heap (addOrphanBlock crypto heap pool pblock) ∧
    Counted heap (addOrphanBlock crypto heap pool pblock)
  := by
  rw [addOrphanBlock]
  split
  case isTrue => exact ⟨h, hcounted⟩
  case isFalse hnew =>
    have hnone : pool.mapOrphanBlocks[hashOf crypto heap pblock]? = none :=
      ExtTreeMap.getElem?_eq_none_of_contains_eq_false (Bool.not_eq_true _ ▸ hnew)
    constructor
    · constructor
      · intro hash pblock' hmem
        rw [TreeMap.getElem?_insert_ite] at hmem
        split_ifs at hmem with heq
        · cases hmem
          apply heq
        · apply h.hash _ _ hmem
      · intro hashPrev pblock'
        rw [List.mem_append, List.mem_singleton, h.by_prev, Prod.mk.injEq,
          TreeMap.getElem?_insert_ite]
        split_ifs with heq
        · -- a pooled block with the hash of the new one would stand in the map already
          rw [← heq, hnone, Option.some_inj]
          grind
        · grind
      · rw [List.nodup_append]
        refine ⟨h.nodup, List.pairwise_singleton _ _, ?_⟩
        rintro ⟨hashPrev, pblock'⟩ hmem entry hentry rfl
        cases List.mem_singleton.mp hentry
        rw [h.by_prev, hnone] at hmem
        cases hmem.2
    · rw [Counted, totalBytes] at hcounted ⊢
      rw [TreeMap.sum_insert_of_not_mem hnone, UInt64.toNat_add, UInt32.toNat_toUInt64]
      omega

theorem addOrphanBlock_underflow (pblock : BlockPtr) :
  (addOrphanBlock crypto heap pool pblock).underflow = pool.underflow
  := by
  rw [addOrphanBlock]
  split
  · rfl
  · rfl

/-! ### `TakeOrphanBlocksByPrev` -/

theorem takeOne_of_mem
    (hmem : pool.mapOrphanBlocks[hashOf crypto heap pblock]? = some pblock) :
  takeOne crypto heap pool pblock
    = subBytes heap
      { pool with mapOrphanBlocks := pool.mapOrphanBlocks.erase (hashOf crypto heap pblock) }
      pblock
  := by
  rw [takeOne, if_pos]
  rw [ExtTreeMap.contains_iff_mem, ExtTreeMap.mem_iff_isSome_getElem?, hmem]
  rfl

/-- The loop of `TakeOrphanBlocksByPrev` over different pooled blocks. -/
theorem foldl_takeOne
    {vTaken : List BlockPtr} (hnodup : vTaken.Nodup)
    (hhash : ∀ (hash : uint256) pblock, pool.mapOrphanBlocks[hash]? = some pblock →
      hashOf crypto heap pblock = hash)
    (hpooled : ∀ pblock ∈ vTaken,
      pool.mapOrphanBlocks[hashOf crypto heap pblock]? = some pblock)
    (hcounted : Counted heap pool) :
  (vTaken.foldl (takeOne crypto heap) pool).mapOrphanBlocksByPrev = pool.mapOrphanBlocksByPrev ∧
    (∀ (hash : uint256) pblock,
      (vTaken.foldl (takeOne crypto heap) pool).mapOrphanBlocks[hash]? = some pblock
        ↔ pool.mapOrphanBlocks[hash]? = some pblock ∧ pblock ∉ vTaken) ∧
    Counted heap (vTaken.foldl (takeOne crypto heap) pool) ∧
    (InRange heap pool → InRange heap (vTaken.foldl (takeOne crypto heap) pool))
  := by
  induction vTaken generalizing pool with
  | nil =>
    refine ⟨rfl, ?_, hcounted, id⟩
    intro hash pblock
    simp
  | cons pblock vTaken ih =>
    obtain ⟨hnew, hnodup⟩ := List.nodup_cons.mp hnodup
    obtain ⟨hfirst, hpooled⟩ := List.forall_mem_cons.mp hpooled
    have htake := takeOne_of_mem hfirst
    have hlookup : ∀ (hash : uint256) pblock',
        (takeOne crypto heap pool pblock).mapOrphanBlocks[hash]? = some pblock'
          ↔ pool.mapOrphanBlocks[hash]? = some pblock' ∧ pblock' ≠ pblock := by
      intro hash pblock'
      rw [htake, subBytes, TreeMap.getElem?_erase_ite]
      split_ifs with heq
      · rw [← heq, hfirst]
        grind
      · refine ⟨fun hmem => ⟨hmem, ?_⟩, And.left⟩
        rintro rfl
        exact heq (hhash _ _ hmem)
    have hcounted' : Counted heap (takeOne crypto heap pool pblock) := by
      rw [htake]
      apply counted_sub hcounted hfirst rfl rfl
    have hrest := ih hnodup
      (fun hash pblock' hmem => hhash hash pblock' ((hlookup hash pblock').mp hmem).1)
      (fun pblock' hmem => (hlookup _ _).mpr ⟨hpooled pblock' hmem, fun heq => hnew (heq ▸ hmem)⟩)
      hcounted'
    obtain ⟨hbyPrev, hmap, hcounted'', hrange⟩ := hrest
    rw [List.foldl_cons]
    refine ⟨?_, ?_, hcounted'', ?_⟩
    · rw [hbyPrev, htake, subBytes]
    · intro hash pblock'
      rw [hmap, hlookup, List.mem_cons, not_or, and_assoc]
    · intro hpool
      apply hrange
      rw [htake]
      apply inRange_sub hcounted hpool hfirst rfl rfl

theorem mem_equalRange {hashPrev : uint256} :
  pblock ∈ pool.equalRange hashPrev ↔ (hashPrev, pblock) ∈ pool.mapOrphanBlocksByPrev
  := by
  rw [equalRange, List.mem_map]
  constructor
  · rintro ⟨⟨hashPrev', pblock'⟩, hmem, rfl⟩
    rw [List.mem_filter, beq_iff_eq] at hmem
    exact hmem.2 ▸ hmem.1
  · intro hmem
    exact ⟨(hashPrev, pblock), List.mem_filter.mpr ⟨hmem, beq_self_eq_true hashPrev⟩, rfl⟩

theorem Filed.nodup_equalRange (h : Filed crypto heap pool) (hashPrev : uint256) :
  (pool.equalRange hashPrev).Nodup
  := by
  apply List.Nodup.map_on _ (h.nodup.filter _)
  intro entry hentry entry' hentry' heq
  rw [List.mem_filter, beq_iff_eq] at hentry hentry'
  apply Prod.ext (hentry.2.trans hentry'.2.symm) heq

/-- The blocks taken are the pooled blocks with that parent, each once, and the pool keeps the
others. -/
theorem takeOrphanBlocksByPrev_spec
    (h : Filed crypto heap pool) (hcounted : Counted heap pool) (hashPrev : uint256) :
  (takeOrphanBlocksByPrev crypto heap pool hashPrev).1.Nodup ∧
    (∀ pblock, pblock ∈ (takeOrphanBlocksByPrev crypto heap pool hashPrev).1 ↔
      hashPrevOf heap pblock = hashPrev ∧
        pool.mapOrphanBlocks[hashOf crypto heap pblock]? = some pblock) ∧
    (∀ (hash : uint256) pblock,
      (takeOrphanBlocksByPrev crypto heap pool hashPrev).2.mapOrphanBlocks[hash]? = some pblock ↔
        pool.mapOrphanBlocks[hash]? = some pblock ∧ hashPrevOf heap pblock ≠ hashPrev) ∧
    Filed crypto heap (takeOrphanBlocksByPrev crypto heap pool hashPrev).2 ∧
    Counted heap (takeOrphanBlocksByPrev crypto heap pool hashPrev).2 ∧
    (InRange heap pool → InRange heap (takeOrphanBlocksByPrev crypto heap pool hashPrev).2)
  := by
  have htaken : ∀ pblock, pblock ∈ pool.equalRange hashPrev ↔
      hashPrevOf heap pblock = hashPrev ∧
        pool.mapOrphanBlocks[hashOf crypto heap pblock]? = some pblock := by
    intro pblock
    rw [mem_equalRange, h.by_prev]
  obtain ⟨hbyPrev, hmap, hcounted', hrange⟩ := foldl_takeOne (h.nodup_equalRange hashPrev) h.hash
    (fun pblock hmem => ((htaken pblock).mp hmem).2) hcounted
  have hkept : ∀ (hash : uint256) pblock,
      (takeOrphanBlocksByPrev crypto heap pool hashPrev).2.mapOrphanBlocks[hash]? = some pblock ↔
        pool.mapOrphanBlocks[hash]? = some pblock ∧ hashPrevOf heap pblock ≠ hashPrev := by
    intro hash pblock
    apply (hmap hash pblock).trans
    apply and_congr_right
    intro hmem
    rw [htaken, ← h.hash _ _ hmem] at *
    rw [and_iff_left hmem]
  refine ⟨h.nodup_equalRange hashPrev, htaken, hkept, ?_, hcounted', hrange⟩
  constructor
  · intro hash pblock hmem
    apply h.hash _ _ ((hkept hash pblock).mp hmem).1
  · intro hashPrev' pblock
    rw [hkept, takeOrphanBlocksByPrev]
    simp only [List.mem_filter, bne_iff_ne, hbyPrev, h.by_prev]
    grind
  · rw [takeOrphanBlocksByPrev]
    simp only [hbyPrev]
    apply h.nodup.filter

/-! ### `LimitOrphanBlocks` -/

theorem evict_spec
    (h : Filed crypto heap pool) (hcounted : Counted heap pool) {it : uint256 × BlockPtr}
    (hmem : pool.mapOrphanBlocks[it.1]? = some it.2) :
  Filed crypto heap (evict heap pool it) ∧ Counted heap (evict heap pool it) ∧
    (InRange heap pool → InRange heap (evict heap pool it))
  := by
  have hhash := h.hash _ _ hmem
  refine ⟨?_, counted_sub hcounted hmem rfl rfl,
    fun hrange => inRange_sub hcounted hrange hmem rfl rfl⟩
  constructor
  · intro hash pblock' hmem'
    rw [evict, subBytes, TreeMap.getElem?_erase_ite] at hmem'
    split_ifs at hmem' with heq
    apply h.hash _ _ hmem'
  · intro hashPrev pblock'
    rw [evict, subBytes, h.nodup.mem_erase_iff, h.by_prev, TreeMap.getElem?_erase_ite]
    split_ifs with heq
    · rw [← heq, hmem]
      grind
    · have hne : pblock' ≠ it.2 := by
        rintro rfl
        exact heq hhash.symm
      grind
  · apply h.nodup.erase

theorem size_evict
    {it : uint256 × BlockPtr} (hmem : pool.mapOrphanBlocks[it.1]? = some it.2) :
  (evict heap pool it).mapOrphanBlocks.size = pool.mapOrphanBlocks.size - 1
  := by
  rw [evict, subBytes, ExtTreeMap.size_erase, if_pos]
  rw [ExtTreeMap.contains_iff_mem, ExtTreeMap.mem_iff_isSome_getElem?, hmem]
  rfl

theorem overLimit_eq_false_of_isEmpty
    (hcounted : Counted heap pool) (hempty : pool.mapOrphanBlocks.isEmpty = true)
    (nMaxBlocks nMaxBytes : UInt32) :
  overLimit pool nMaxBlocks nMaxBytes = false
  := by
  have hmap := ExtTreeMap.isEmpty_iff.mp hempty
  have hbytes : pool.nOrphanBlockBytes.toNat = 0 := by
    rw [Counted, totalBytes, hmap, TreeMap.sum_empty] at hcounted
    simpa using hcounted
  rw [overLimit, hmap, Bool.or_eq_false_iff, decide_eq_false_iff_not, decide_eq_false_iff_not,
    UInt64.lt_iff_toNat_lt, hbytes]
  simp

theorem limitLoop_spec
    (nMaxBlocks nMaxBytes : UInt32) (rand : ℕ → uint256) {fuel : ℕ} (nEvicted : ℕ)
    (hfuel : pool.mapOrphanBlocks.size ≤ fuel)
    (h : Filed crypto heap pool) (hcounted : Counted heap pool) :
  let pool' := (limitLoop heap nMaxBlocks nMaxBytes rand fuel nEvicted pool).2
  Filed crypto heap pool' ∧ Counted heap pool' ∧ (InRange heap pool → InRange heap pool') ∧
    overLimit pool' nMaxBlocks nMaxBytes = false
  := by
  induction fuel generalizing nEvicted pool with
  | zero =>
    refine ⟨h, hcounted, id, overLimit_eq_false_of_isEmpty hcounted ?_ nMaxBlocks nMaxBytes⟩
    rw [ExtTreeMap.isEmpty_eq_size_beq_zero, beq_iff_eq]
    omega
  | succ fuel ih =>
    rw [limitLoop]
    cases hempty : pool.mapOrphanBlocks.isEmpty with
    | true =>
      exact ⟨h, hcounted, id, overLimit_eq_false_of_isEmpty hcounted hempty nMaxBlocks nMaxBytes⟩
    | false =>
      cases hover : overLimit pool nMaxBlocks nMaxBytes with
      | false => exact ⟨h, hcounted, id, hover⟩
      | true =>
        obtain ⟨it, hit⟩ : ∃ it, randomEntry pool (rand nEvicted) = some it :=
          TreeMap.exists_first hempty _
        have hmem := TreeMap.getElem?_of_first hit
        obtain ⟨hfiled, hcounted', hrange⟩ := evict_spec h hcounted hmem
        have hsize : (evict heap pool it).mapOrphanBlocks.size ≤ fuel := by
          rw [size_evict hmem]
          omega
        obtain ⟨hfiled', hcounted'', hrange', hlimit⟩ := ih (nEvicted + 1) hsize hfiled hcounted'
        simp only [hit, Bool.not_false, Bool.and_self, if_true]
        exact ⟨hfiled', hcounted'', hrange' ∘ hrange, hlimit⟩

theorem limitOrphanBlocks_spec
    (h : Filed crypto heap pool) (hcounted : Counted heap pool) (nMaxBlocks nMaxBytes : UInt32)
    (rand : ℕ → uint256) :
  let pool' := (limitOrphanBlocks heap pool nMaxBlocks nMaxBytes rand).2
  Filed crypto heap pool' ∧ Counted heap pool' ∧ (InRange heap pool → InRange heap pool') ∧
    pool'.mapOrphanBlocks.size ≤ nMaxBlocks.toNat ∧
    pool'.nOrphanBlockBytes.toNat ≤ nMaxBytes.toNat
  := by
  obtain ⟨hfiled, hcounted', hrange, hlimit⟩ :=
    limitLoop_spec nMaxBlocks nMaxBytes rand 0 le_rfl h hcounted
  rw [overLimit, Bool.or_eq_false_iff, decide_eq_false_iff_not, decide_eq_false_iff_not,
    UInt64.lt_iff_toNat_lt, UInt32.toNat_toUInt64] at hlimit
  exact ⟨hfiled, hcounted', hrange, Nat.le_of_not_lt hlimit.1, Nat.le_of_not_lt hlimit.2⟩

/-! ## Runs -/

/-- A call on the pool; an eviction draws its random choices from `rand`. -/
inductive Call where
  | add (pblock : BlockPtr)
  | take (hashPrev : uint256)
  | limit (nMaxBlocks nMaxBytes : UInt32) (rand : ℕ → uint256)

variable (crypto heap) in
def step (pool : OrphanBlocks) : Call → OrphanBlocks
  | .add pblock => addOrphanBlock crypto heap pool pblock
  | .take hashPrev => (takeOrphanBlocksByPrev crypto heap pool hashPrev).2
  | .limit nMaxBlocks nMaxBytes rand => (limitOrphanBlocks heap pool nMaxBlocks nMaxBytes rand).2

variable (crypto heap) in
/-- The pool after a sequence of calls. -/
def runPool (calls : List Call) : OrphanBlocks := run (step crypto heap) empty calls

/-- Every call keeps the maps in step and the counter. -/
theorem step_spec
    (h : Filed crypto heap pool) (hcounted : Counted heap pool) (call : Call) :
  Filed crypto heap (step crypto heap pool call) ∧ Counted heap (step crypto heap pool call)
  := by
  cases call with
  | add pblock => apply addOrphanBlock_spec h hcounted
  | take hashPrev =>
    obtain ⟨-, -, -, hfiled, hcounted', -⟩ := takeOrphanBlocksByPrev_spec h hcounted hashPrev
    exact ⟨hfiled, hcounted'⟩
  | limit nMaxBlocks nMaxBytes rand =>
    obtain ⟨hfiled, hcounted', -⟩ := limitOrphanBlocks_spec h hcounted nMaxBlocks nMaxBytes rand
    exact ⟨hfiled, hcounted'⟩

/-- The counter does not go below zero in a call after which the sum is within its range. -/
theorem step_inRange
    (h : Filed crypto heap pool) (hcounted : Counted heap pool) (hrange : InRange heap pool)
    {call : Call} (hlt : totalBytes heap (step crypto heap pool call) < 2 ^ 64) :
  InRange heap (step crypto heap pool call)
  := by
  cases call with
  | add pblock => exact ⟨(addOrphanBlock_underflow pblock).trans hrange.1, hlt⟩
  | take hashPrev =>
    obtain ⟨-, -, -, -, -, hkeep⟩ := takeOrphanBlocksByPrev_spec h hcounted hashPrev
    apply hkeep hrange
  | limit nMaxBlocks nMaxBytes rand =>
    obtain ⟨-, -, hkeep, -⟩ := limitOrphanBlocks_spec h hcounted nMaxBlocks nMaxBytes rand
    apply hkeep hrange

theorem filed_empty :
  Filed crypto heap empty
  := by
  constructor
  · intro hash pblock hmem
    rw [empty, ExtTreeMap.getElem?_empty] at hmem
    cases hmem
  · intro hashPrev pblock
    simp [empty]
  · apply List.nodup_nil

theorem totalBytes_empty :
  totalBytes heap empty = 0
  := TreeMap.sum_empty _

theorem counted_empty :
  Counted heap empty
  := by
  rw [Counted, totalBytes_empty]
  rfl

variable (crypto heap) in
theorem filed_runPool (calls : List Call) :
  Filed crypto heap (runPool crypto heap calls) ∧ Counted heap (runPool crypto heap calls)
  := by
  have hstep : ∀ pool call, True → Filed crypto heap pool ∧ Counted heap pool →
      Filed crypto heap (step crypto heap pool call) ∧
        Counted heap (step crypto heap pool call) :=
    fun _ call _ h => step_spec h.1 h.2 call
  apply run_invariant hstep (along_of_forall_mem (fun _ _ _ => trivial) empty)
    ⟨filed_empty, counted_empty⟩

/-- The counter has not gone below zero in a run in which the sum stays within its range. -/
theorem inRange_runPool
    {calls : List Call}
    (h : Along (step crypto heap)
      (fun pool call => totalBytes heap (step crypto heap pool call) < 2 ^ 64) empty calls) :
  InRange heap (runPool crypto heap calls)
  := by
  have hstep : ∀ pool call, totalBytes heap (step crypto heap pool call) < 2 ^ 64 →
      (Filed crypto heap pool ∧ Counted heap pool) ∧ InRange heap pool →
      (Filed crypto heap (step crypto heap pool call) ∧
        Counted heap (step crypto heap pool call)) ∧
        InRange heap (step crypto heap pool call) :=
    fun _ call hlt h => ⟨step_spec h.1.1 h.1.2 call, step_inRange h.1.1 h.1.2 h.2 hlt⟩
  have hempty : InRange heap empty := by
    refine ⟨rfl, ?_⟩
    rw [totalBytes_empty]
    decide
  apply (run_invariant hstep h ⟨⟨filed_empty, counted_empty⟩, hempty⟩).2

/-- The pool after any sequence of calls: the maps hold the same blocks, the counter is the sum
of their sizes modulo `2 ^ 64` (the sum itself, without any underflow, as long as the sum is
below `2 ^ 64`), taking the children of a block gives each of them once, and after limiting the
pool both limits hold. -/
theorem orphanBlocks_kept (crypto : Crypto) (heap : BlockPtr → HeapBlock) (calls : List Call) :
  let pool := runPool crypto heap calls
  Filed crypto heap pool ∧
    (pool.nOrphanBlockBytes.toNat : ℤ) = totalBytes heap pool % 2 ^ 64 ∧
    (Along (step crypto heap)
        (fun pool call => totalBytes heap (step crypto heap pool call) < 2 ^ 64) empty calls →
      (pool.nOrphanBlockBytes.toNat : ℤ) = totalBytes heap pool ∧ pool.underflow = false) ∧
    (∀ hashPrev,
      (takeOrphanBlocksByPrev crypto heap pool hashPrev).1.Nodup ∧
      (∀ pblock, pblock ∈ (takeOrphanBlocksByPrev crypto heap pool hashPrev).1 ↔
        hashPrevOf heap pblock = hashPrev ∧
          pool.mapOrphanBlocks[hashOf crypto heap pblock]? = some pblock) ∧
      (∀ (hash : uint256) pblock,
        (takeOrphanBlocksByPrev crypto heap pool hashPrev).2.mapOrphanBlocks[hash]? = some pblock ↔
          pool.mapOrphanBlocks[hash]? = some pblock ∧ hashPrevOf heap pblock ≠ hashPrev)) ∧
    (∀ nMaxBlocks nMaxBytes rand,
      (limitOrphanBlocks heap pool nMaxBlocks nMaxBytes rand).2.mapOrphanBlocks.size
          ≤ nMaxBlocks.toNat ∧
        (limitOrphanBlocks heap pool nMaxBlocks nMaxBytes rand).2.nOrphanBlockBytes.toNat
          ≤ nMaxBytes.toNat)
  := by
  obtain ⟨hfiled, hcounted⟩ := filed_runPool crypto heap calls
  refine ⟨hfiled, hcounted, ?_, ?_, ?_⟩
  · intro halong
    have hrange := inRange_runPool halong
    exact ⟨hcounted.eq_of_lt hrange.2, hrange.1⟩
  · intro hashPrev
    obtain ⟨hnodup, hmem, hkept, -⟩ := takeOrphanBlocksByPrev_spec hfiled hcounted hashPrev
    exact ⟨hnodup, hmem, hkept⟩
  · intro nMaxBlocks nMaxBytes rand
    obtain ⟨-, -, -, hsize, hbytes⟩ :=
      limitOrphanBlocks_spec hfiled hcounted nMaxBlocks nMaxBytes rand
    exact ⟨hsize, hbytes⟩

/-! ### A counter that wraps around

The pointer to a merged-mining proof is shared by the copies of a block, so that many blocks can
hold one large proof. -/

/-- Adding blocks with different new hashes adds up their sizes. -/
theorem totalBytes_add
    {pblocks : List BlockPtr} (hnodup : (pblocks.map (hashOf crypto heap)).Nodup)
    (hnew : ∀ pblock ∈ pblocks, pool.mapOrphanBlocks[hashOf crypto heap pblock]? = none) :
  totalBytes heap (run (step crypto heap) pool (pblocks.map .add))
    = totalBytes heap pool + (pblocks.map (fun p => ((orphanSize heap p).toNat : ℤ))).sum
  := by
  induction pblocks generalizing pool with
  | nil => simp [run]
  | cons pblock pblocks ih =>
    rw [List.map_cons, List.nodup_cons] at hnodup
    obtain ⟨hfirst, hrest⟩ := List.forall_mem_cons.mp hnew
    have hadd : (addOrphanBlock crypto heap pool pblock).mapOrphanBlocks
        = pool.mapOrphanBlocks.insert (hashOf crypto heap pblock) pblock := by
      rw [addOrphanBlock, if_neg]
      rw [ExtTreeMap.contains_iff_mem, ExtTreeMap.mem_iff_isSome_getElem?, hfirst]
      simp
    have htotal : totalBytes heap (addOrphanBlock crypto heap pool pblock)
        = (orphanSize heap pblock).toNat + totalBytes heap pool := by
      rw [totalBytes, hadd, TreeMap.sum_insert_of_not_mem hfirst, totalBytes]
    have hnew' : ∀ pblock' ∈ pblocks, (addOrphanBlock crypto heap pool pblock).mapOrphanBlocks[
        hashOf crypto heap pblock']? = none := by
      intro pblock' hmem
      rw [hadd, TreeMap.getElem?_insert_of_ne]
      · apply hrest pblock' hmem
      · intro heq
        exact hnodup.1 (heq ▸ List.mem_map_of_mem hmem)
    have hrun : run (step crypto heap) pool ((pblock :: pblocks).map .add)
        = run (step crypto heap) (addOrphanBlock crypto heap pool pblock) (pblocks.map .add) := rfl
    rw [hrun, ih hnodup.2 hnew', htotal, List.map_cons, List.sum_cons]
    ring

/-- Hash functions for which the hash of a header is its merkle root. -/
def rootCrypto : Crypto where
  hash bs := BitVec.ofNat 256 (Codec.ofLE ((bs.drop 36).take 32))
  scrypt _ := 0

theorem getHash_rootCrypto (header : CPureBlockHeader) :
  header.getHash rootCrypto = header.hashMerkleRoot
  := by
  have hfront : (serializeInt header.nVersion ++ serializeUint256 header.hashPrevBlock).length
      = 36 := by
    simp [serializeInt, serializeUInt, serializeUint256]
  have hsplit : header.serialize
      = (serializeInt header.nVersion ++ serializeUint256 header.hashPrevBlock)
        ++ (Codec.toLE 32 header.hashMerkleRoot.toNat ++ (serializeUInt header.nTime
          ++ (serializeUInt header.nBits ++ serializeUInt header.nNonce))) := by
    simp [CPureBlockHeader.serialize, serializeUint256]
  change BitVec.ofNat 256 (Codec.ofLE ((header.serialize.drop 36).take 32)) = _
  rw [hsplit, ← hfront, List.drop_left, List.take_left' (Codec.length_toLE 32 _),
    Codec.ofLE_toLE_of_lt, BitVec.ofNat_toNat, BitVec.setWidth_eq]
  apply header.hashMerkleRoot.isLt

/-- A merged-mining proof whose coinbase has the given outputs. -/
def payingProof (vout : List CTxOut) : CAuxPow where
  nVersion := 1
  vin := []
  vout := vout
  nLockTime := 0
  hashBlock := 0
  vMerkleBranch := []
  nIndex := 0
  vChainMerkleBranch := []
  nChainIndex := 0
  parentBlock := ⟨1, 0, 0, 0, 0, 0⟩

/-- A proof whose coinbase has 64 outputs with scripts of the largest size. -/
def largeProof : CAuxPow := payingProof (List.replicate 64 ⟨0, List.replicate MAX_SIZE 0⟩)

/-- A merge-mined block with the given merkle root and proof. -/
def mergedWith (auxpow : CAuxPow) (hashMerkleRoot : uint256) : HeapBlock where
  nVersion := makeVersion 1 AUXPOW_CHAIN_ID true
  hashPrevBlock := 0
  hashMerkleRoot := hashMerkleRoot
  nTime := 0
  nBits := 0
  nNonce := 0
  vtx := []
  auxpow := some auxpow
  proof_present _ := rfl

/-- Blocks that differ in their merkle root and share the large proof. -/
def sharingBlock (pblock : BlockPtr) : HeapBlock :=
  mergedWith largeProof (BitVec.ofNat 256 pblock)

theorem getSerializeSizeVector_replicate
    {α : Type} (size : α → UInt32) (n : ℕ) (a : α) :
  getSerializeSizeVector size (List.replicate n a)
    = getSizeOfCompactSize n + UInt32.ofNat n * size a
  := by
  rw [getSerializeSizeVector, List.length_replicate]
  generalize getSizeOfCompactSize n = nSize
  induction n generalizing nSize with
  | zero => simp
  | succ n ih =>
    have hone : UInt32.ofNat (n + 1) * size a = size a + UInt32.ofNat n * size a := by
      rw [UInt32.ofNat_add, UInt32.add_mul, UInt32.add_comm]
      exact congrArg (· + _) (UInt32.one_mul (size a))
    rw [List.replicate_succ, List.foldl_cons, ih, hone, UInt32.add_assoc]

theorem getSerializeSize_payingProof (vout : List CTxOut) :
  (payingProof vout).getSerializeSize
    = 4 + 1 + getSerializeSizeVector CTxOut.getSerializeSize vout + 4 + 32 + 1 + 4 + 1 + 4 + 80
  := rfl

theorem getSerializeSize_largeProof :
  largeProof.getSerializeSize = 2147484612
  := by
  have hout : CTxOut.getSerializeSize ⟨0, List.replicate MAX_SIZE 0⟩ = 33554445 := by
    rw [CTxOut.getSerializeSize, getSerializeSizeBytes, List.length_replicate]
    decide
  rw [largeProof, getSerializeSize_payingProof, getSerializeSizeVector_replicate, hout]
  decide

theorem orphanBlockSize_mergedWith (auxpow : CAuxPow) (hashMerkleRoot : uint256) :
  orphanBlockSize (mergedWith auxpow hashMerkleRoot) = 80 + auxpow.getSerializeSize + 1
  := by
  have hsize : (mergedWith auxpow hashMerkleRoot).toCBlock.getSerializeSize SER_NETWORK
      = some (80 + auxpow.getSerializeSize + 1) := by
    have hcarries : CBlock.carriesAuxPow SER_NETWORK
        (mergedWith auxpow hashMerkleRoot).nVersion = true := by
      change CBlock.carriesAuxPow SER_NETWORK (makeVersion 1 AUXPOW_CHAIN_ID true) = true
      decide
    rw [CBlock.getSerializeSize, if_pos hcarries, if_pos (by decide)]
    rfl
  simp only [orphanBlockSize, hsize, Option.get_some]

theorem orphanSize_sharingBlock (pblock : BlockPtr) :
  orphanSize sharingBlock pblock = 2147484693
  := by
  rw [orphanSize, sharingBlock, orphanBlockSize_mergedWith, getSerializeSize_largeProof]
  decide

theorem totalBytes_sharingBlock {n : ℕ} (hn : n ≤ 2 ^ 256) :
  totalBytes sharingBlock (runPool rootCrypto sharingBlock ((List.range n).map .add))
    = n * 2147484693
  := by
  have hhash : ∀ pblock, hashOf rootCrypto sharingBlock pblock = BitVec.ofNat 256 pblock :=
    fun pblock => getHash_rootCrypto _
  rw [runPool, totalBytes_add, totalBytes_empty]
  · simp [orphanSize_sharingBlock]
  · apply List.Nodup.map_on _ List.nodup_range
    intro pblock hmem pblock' hmem' heq
    rw [List.mem_range] at hmem hmem'
    have hnat := congrArg BitVec.toNat ((hhash pblock).symm.trans (heq.trans (hhash pblock')))
    rwa [BitVec.toNat_ofNat, BitVec.toNat_ofNat, Nat.mod_eq_of_lt (by omega),
      Nat.mod_eq_of_lt (by omega)] at hnat
  · intro pblock _
    apply ExtTreeMap.getElem?_empty

theorem bytes_ne_of_large {n : ℕ} (hlarge : 2 ^ 33 ≤ n) (hn : n ≤ 2 ^ 256) :
  let pool := runPool rootCrypto sharingBlock ((List.range n).map .add)
  (pool.nOrphanBlockBytes.toNat : ℤ) ≠ totalBytes sharingBlock pool
  := by
  intro pool heq
  have hlt := UInt64.toNat_lt pool.nOrphanBlockBytes
  rw [totalBytes_sharingBlock hn] at heq
  omega

/-- After adding `2 ^ 33` blocks that share a proof, the counter is not the sum of the sizes. -/
theorem sharingBlock_bytes_ne :
  let pool := runPool rootCrypto sharingBlock ((List.range (2 ^ 33)).map .add)
  (pool.nOrphanBlockBytes.toNat : ℤ) ≠ totalBytes sharingBlock pool
  := bytes_ne_of_large le_rfl (Nat.pow_le_pow_right (by decide) (by decide))

end OrphanBlocks

end CorgiCoin
