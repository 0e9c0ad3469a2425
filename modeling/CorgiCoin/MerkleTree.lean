import CorgiCoin.Work
import CorgiCoin.Lib.PairTree

/-!
# Merkle trees and their branches

`vMerkleTree` holds the levels of the tree one after the other, and the builder, `GetMerkleBranch`
and `CheckMerkleBranch` each walk it with offsets and positions of their own.  The branch of a
transaction folds to the root of the tree, and the root determines the hashes of the transactions,
when there are no duplicates among them and the hashes of pairs do not collide.
-/

namespace CorgiCoin

variable {crypto : Crypto}

/-! ## The tree -/

/-- `hashPair` on a pair. -/
def hashOfPair (crypto : Crypto) (pair : uint256 × uint256) : uint256 :=
  hashPair crypto pair.1 pair.2

theorem nextLevel_eq (level : List uint256) :
  nextLevel crypto level = PairTree.next (hashOfPair crypto) level
  := by
  induction level using PairTree.pairs.induct with
  | case1 => rfl
  | case2 a => rfl
  | case3 a b rest ih =>
    rw [nextLevel, ih]
    rfl

theorem merkleLevels_eq (n : ℕ) (level : List uint256) :
  merkleLevels crypto n level = PairTree.levels (hashOfPair crypto) n level
  := by
  induction n generalizing level with
  | zero => rfl
  | succ n ih =>
    rw [merkleLevels, PairTree.levels, ih, nextLevel_eq]

/-- A tree has at most three hashes for each hash of its first level, so that the offsets of a block
that `CheckBlock` accepts, of type `int` in the code, are far below 2^31. -/
theorem length_merkleLevels_le (n : ℕ) (level : List uint256) :
  (merkleLevels crypto n level).length ≤ 3 * level.length
  := by
  induction n generalizing level with
  | zero =>
    rw [merkleLevels]
    omega
  | succ n ih =>
    have hnext := ih (nextLevel crypto level)
    rw [nextLevel_eq, PairTree.length_next, ← nextLevel_eq] at hnext
    rw [merkleLevels]
    split_ifs with hlt
    · rw [List.length_append]
      omega
    · omega

/-! ## Branches -/

/-- The hash `GetMerkleBranch` reads for the level of `nSize` hashes at offset `j`. -/
def othersideAt (vMerkleTree : List uint256) (nIndex : Int32) (nSize j : ℕ) : Option uint256 :=
  let i := j + min (nIndex ^^^ 1).toInt (nSize - 1)
  if 0 ≤ i then vMerkleTree[i.toNat]? else none

/-- The loop of `GetMerkleBranch`, with a bound on the number of levels; nothing when it reads
outside the tree. -/
def merkleBranchLoop (vMerkleTree : List uint256) :
    ℕ → ℕ → ℕ → Int32 → Option (List uint256)
  | 0, _, _, _ => some []
  | n + 1, nSize, j, nIndex =>
    if nSize > 1 then
      match othersideAt vMerkleTree nIndex nSize j,
        merkleBranchLoop vMerkleTree n ((nSize + 1) / 2) (j + nSize) (nIndex >>> 1) with
      | some otherside, some branch => some (otherside :: branch)
      | _, _ => none
    else some []

/-- The tree a block has in memory: none until `BuildMerkleTree` is called. -/
def CBlock.treeInMemory (crypto : Crypto) (block : CBlock) (fBuilt : Bool) : List uint256 :=
  if fBuilt then vMerkleTree crypto block.vtx else []

/-- `GetMerkleBranch` of a block with the given tree in memory. -/
def CBlock.getMerkleBranch (crypto : Crypto) (block : CBlock) (tree : List uint256)
    (nIndex : Int32) : Option (List uint256) :=
  let tree := if tree.isEmpty then vMerkleTree crypto block.vtx else tree
  merkleBranchLoop tree block.vtx.length block.vtx.length 0 nIndex

/-! The positions are signed 32-bit integers; on those that are not negative the bit operations of
the loops are halving, parity and the step to the sibling. -/

theorem int32_and_one (i : ℕ) :
  (Int32.ofNat i &&& 1 != 0) = decide (i % 2 = 1)
  := by
  have hbit : (BitVec.ofNat 32 i &&& 1#32).toNat = i % 2 := by
    rw [BitVec.toNat_and, BitVec.toNat_ofNat]
    simp [Nat.and_one_is_mod]
  rw [Bool.eq_iff_iff]
  simp only [bne_iff_ne, ne_eq, decide_eq_true_eq, ← Int32.toBitVec_inj, ← BitVec.toNat_inj]
  change ¬ (BitVec.ofNat 32 i &&& 1#32).toNat = 0 ↔ _
  rw [hbit]
  omega

theorem int32_shiftRight_one {i : ℕ} (h : i < 2 ^ 31) :
  Int32.ofNat i >>> 1 = Int32.ofNat (i / 2)
  := by
  have hmsb : (BitVec.ofNat 32 i).msb = false := by
    rw [BitVec.msb_eq_decide, BitVec.toNat_ofNat, decide_eq_false_iff_not]
    omega
  rw [← Int32.toBitVec_inj, Int32.toBitVec_shiftRight]
  change (BitVec.ofNat 32 i).sshiftRight' 1#32 = BitVec.ofNat 32 (i / 2)
  apply BitVec.eq_of_toNat_eq
  rw [BitVec.toNat_sshiftRight'_of_msb_false hmsb, BitVec.toNat_ofNat, BitVec.toNat_ofNat,
    BitVec.toNat_ofNat, Nat.shiftRight_eq_div_pow, Nat.mod_eq_of_lt (a := i) (by omega)]
  change i / 2 = i / 2 % 2 ^ 32
  omega

theorem int32_xor_one {i : ℕ} (h : i < 2 ^ 31) :
  (Int32.ofNat i ^^^ 1).toInt = (i ^^^ 1 : ℕ)
  := by
  have hlt : i ^^^ 1 < 2 ^ 31 := Nat.xor_lt_two_pow h (by decide)
  have hxor : Int32.ofNat i ^^^ 1 = Int32.ofNat (i ^^^ 1) := by
    rw [← Int32.toBitVec_inj, Int32.toBitVec_xor]
    change BitVec.ofNat 32 i ^^^ 1#32 = BitVec.ofNat 32 (i ^^^ 1)
    apply BitVec.eq_of_toNat_eq
    rw [BitVec.toNat_xor, BitVec.toNat_ofNat, BitVec.toNat_ofNat, BitVec.toNat_ofNat,
      Nat.mod_eq_of_lt (a := i) (by omega), Nat.mod_eq_of_lt (a := i ^^^ 1) (by omega)]
  rw [hxor]
  exact Int32.toInt_ofNat_of_lt hlt

theorem foldBranch_eq (hash : uint256) (branch : List uint256) {i : ℕ} (h : i < 2 ^ 31) :
  foldBranch crypto hash branch (Int32.ofNat i)
    = PairTree.fold (hashOfPair crypto) hash branch i
  := by
  induction branch generalizing hash i with
  | nil => rfl
  | cons otherside branch ih =>
    rw [foldBranch, PairTree.fold, PairTree.combine, int32_shiftRight_one h, ih _ (by omega),
      branchPair, int32_and_one]
    by_cases hodd : i % 2 = 1
    · rw [decide_eq_true hodd, if_pos rfl, if_pos hodd]
      rfl
    · rw [decide_eq_false hodd, if_neg Bool.false_ne_true, if_neg hodd]
      rfl

/-- The loop of `GetMerkleBranch` reads the siblings of the levels. -/
theorem merkleBranchLoop_eq
    {n : ℕ} {below level : List uint256} {i : ℕ} (h : i < 2 ^ 31) (hi : i < level.length) :
  merkleBranchLoop (below ++ merkleLevels crypto n level) n level.length below.length (Int32.ofNat i)
    = some (PairTree.branch (hashOfPair crypto) n level i)
  := by
  induction n generalizing below level i with
  | zero => rfl
  | succ n ih =>
    rw [merkleBranchLoop, PairTree.branch, merkleLevels]
    split_ifs with hlength
    · have hlength' : (level.length + 1) / 2 = (nextLevel crypto level).length := by
        rw [nextLevel_eq, PairTree.length_next]
      obtain ⟨otherside, hotherside, -⟩ :=
        PairTree.getElem?_next (f := hashOfPair crypto) (List.getElem?_eq_getElem hi)
      have hread : othersideAt (below ++ (level ++ merkleLevels crypto n (nextLevel crypto level)))
          (Int32.ofNat i) level.length below.length = some otherside := by
        obtain ⟨hlt, _⟩ := List.getElem?_eq_some_iff.mp hotherside
        have hposition : (below.length + min (Int32.ofNat i ^^^ 1).toInt (level.length - 1) : ℤ)
            = (below.length + PairTree.sibling level i : ℕ) := by
          rw [int32_xor_one h, PairTree.sibling]
          omega
        rw [othersideAt, hposition, if_pos (Int.natCast_nonneg _), Int.toNat_natCast,
          List.getElem?_append_right (Nat.le_add_right _ _), Nat.add_sub_cancel_left,
          List.getElem?_append_left hlt, hotherside]
      have hrest : merkleBranchLoop
          (below ++ (level ++ merkleLevels crypto n (nextLevel crypto level))) n
          (nextLevel crypto level).length (below ++ level).length (Int32.ofNat (i / 2))
          = some (PairTree.branch (hashOfPair crypto) n (nextLevel crypto level) (i / 2)) := by
        rw [← List.append_assoc]
        exact ih (by omega) (by omega)
      rw [List.length_append] at hrest
      rw [hread, hlength', int32_shiftRight_one h, hrest, hotherside, nextLevel_eq]
      rfl
    · rfl

theorem int32_eq_ofNat {nIndex : Int32} (h : 0 ≤ nIndex) :
  nIndex = Int32.ofNat nIndex.toInt.toNat ∧ nIndex.toInt.toNat < 2 ^ 31
  := by
  have hnonneg : 0 ≤ nIndex.toInt := Int32.le_iff_toInt_le.mp h
  have hlt := nIndex.toInt_lt
  have hbound : nIndex.toInt.toNat < 2 ^ 31 := by omega
  refine ⟨?_, hbound⟩
  rw [← Int32.toInt_inj, Int32.toInt_ofNat_of_lt hbound, Int.toNat_of_nonneg hnonneg]

/-- The tree in memory makes no difference to the branch. -/
theorem CBlock.getMerkleBranch_treeInMemory (block : CBlock) (fBuilt : Bool) (nIndex : Int32) :
  block.getMerkleBranch crypto (block.treeInMemory crypto fBuilt) nIndex
    = merkleBranchLoop (vMerkleTree crypto block.vtx) block.vtx.length block.vtx.length 0 nIndex
  := by
  rw [getMerkleBranch, treeInMemory]
  cases fBuilt with
  | false => rfl
  | true =>
    rw [if_pos rfl]
    split_ifs <;> rfl

/-- The branch of every transaction of a block is read inside the tree and checks against its
root, whether or not the tree was built before. -/
theorem CBlock.checkMerkleBranch_getMerkleBranch
    {block : CBlock} {nIndex : Int32} {tx : CTransaction} (fBuilt : Bool) (hnonneg : 0 ≤ nIndex)
    (htx : block.vtx[nIndex.toInt.toNat]? = some tx) :
  ∃ branch, block.getMerkleBranch crypto (block.treeInMemory crypto fBuilt) nIndex = some branch
    ∧ checkMerkleBranch crypto (tx.getHash crypto) branch nIndex = block.buildMerkleTree crypto
  := by
  obtain ⟨hindex, hbound⟩ := int32_eq_ofNat hnonneg
  set i := nIndex.toInt.toNat with hi
  obtain ⟨hlt, _⟩ := List.getElem?_eq_some_iff.mp htx
  have hlevel : (block.vtx.map (CTransaction.getHash crypto))[i]? = some (tx.getHash crypto) := by
    rw [List.getElem?_map, htx]
    rfl
  have hbranch := @merkleBranchLoop_eq crypto block.vtx.length []
    (block.vtx.map (CTransaction.getHash crypto)) i hbound (by rwa [List.length_map])
  rw [List.length_map, List.nil_append, List.length_nil, ← hindex] at hbranch
  have hroot := PairTree.getLast?_levels (f := hashOfPair crypto) (n := block.vtx.length)
    (by rw [List.length_map]; exact Nat.le_succ _) hlevel
  refine ⟨_, (block.getMerkleBranch_treeInMemory fBuilt nIndex).trans hbranch, ?_⟩
  have hne : nIndex ≠ -1 := by
    rintro rfl
    exact absurd hnonneg (by decide)
  rw [checkMerkleBranch, if_neg hne, hindex, foldBranch_eq _ _ hbound, CBlock.buildMerkleTree,
    vMerkleTree, merkleLevels_eq, hroot]
  rfl

/-- A block with three transactions, whose tree repeats the last one. -/
def threeTxs : CBlock :=
  .assemble sampleEnv 5 1774996802
    [sampleCoinbase [1, 1] 1000, sampleSpend 6 1, sampleSpend 7 2]

/-- The branch of the last of three transactions is itself and the hash of the first two. -/
theorem threeTxs_checkMerkleBranch :
  ∃ branch, threeTxs.getMerkleBranch sampleCrypto [] 2 = some branch
    ∧ checkMerkleBranch sampleCrypto ((sampleSpend 7 2).getHash sampleCrypto) branch 2
      = threeTxs.buildMerkleTree sampleCrypto
  := CBlock.checkMerkleBranch_getMerkleBranch false (by decide) rfl

/-! ## One root, one list -/

/-- The pairs hashed in the tree of a list of transactions. -/
def merklePairs (crypto : Crypto) (vtx : List CTransaction) : List (uint256 × uint256) :=
  PairTree.treePairs (hashOfPair crypto) vtx.length (vtx.map (CTransaction.getHash crypto))

/-- What is assumed of the pair hash on two lists of transactions: no two pairs of the trees have
one hash, and no pair has the hash of a transaction. -/
structure PairHashIdeal (crypto : Crypto) (vtx vtx' : List CTransaction) : Prop where
  free : CollisionFree crypto {pair | pair ∈ merklePairs crypto vtx ++ merklePairs crypto vtx'}
  not_getHash : ∀ pair ∈ merklePairs crypto vtx ++ merklePairs crypto vtx', ∀ tx ∈ vtx ++ vtx',
    hashPair crypto pair.1 pair.2 ≠ tx.getHash crypto

theorem PairHashIdeal.map_getHash_eq
    {vtx vtx' : List CTransaction} (hideal : PairHashIdeal crypto vtx vtx') (hne : vtx ≠ [])
    (hne' : vtx' ≠ []) (hnodup : (vtx.map (CTransaction.getHash crypto)).Nodup)
    (hnodup' : (vtx'.map (CTransaction.getHash crypto)).Nodup)
    (hroot : (vMerkleTree crypto vtx).getLast? = (vMerkleTree crypto vtx').getLast?) :
  vtx.map (CTransaction.getHash crypto) = vtx'.map (CTransaction.getHash crypto)
  := by
  rw [vMerkleTree, vMerkleTree, merkleLevels_eq, merkleLevels_eq] at hroot
  apply PairTree.eq_of_root_eq _ _ _ _ hnodup hnodup' hideal.free _ _ _ hroot
  · rw [List.length_map]
    exact Nat.le_succ _
  · rw [List.length_map]
    exact Nat.le_succ _
  · exact mt List.map_eq_nil_iff.mp hne
  · exact mt List.map_eq_nil_iff.mp hne'
  · intro pair hpair
    exact List.mem_append_left _ hpair
  · intro pair hpair
    exact List.mem_append_right _ hpair
  · intro pair hpair
    constructor
    · intro hmem
      obtain ⟨tx, htx, heq⟩ := List.mem_map.mp hmem
      exact hideal.not_getHash pair hpair tx (List.mem_append_left _ htx) heq.symm
    · intro hmem
      obtain ⟨tx, htx, heq⟩ := List.mem_map.mp hmem
      exact hideal.not_getHash pair hpair tx (List.mem_append_right _ htx) heq.symm

theorem vMerkleTree_ne_nil {vtx : List CTransaction} (h : vtx ≠ []) :
  vMerkleTree crypto vtx ≠ []
  := by
  rw [vMerkleTree, merkleLevels_eq]
  exact PairTree.levels_ne_nil _ _ (mt List.map_eq_nil_iff.mp h)

theorem CPureBlockHeader.serialize_injective {header header' : CPureBlockHeader}
    (h : header.serialize = header'.serialize) :
  header = header'
  := by
  have hread := lawful.read_write header trivial []
  rw [h, lawful.read_write header' trivial []] at hread
  cases hread
  rfl

/-- One root has one list of transaction hashes below it, and with it one block hash has, among
the blocks that pass `CheckBlock`. -/
theorem CBlock.txids_eq_of_root_eq
    {env : Env} {block block' : CBlock} (hideal : PairHashIdeal env.crypto block.vtx block'.vtx) :
  ((block.txids env).Nodup → (block'.txids env).Nodup → (block.vtx = [] ↔ block'.vtx = []) →
    block.buildMerkleTree env.crypto = block'.buildMerkleTree env.crypto →
    block.txids env = block'.txids env)
  ∧ ∀ t t' : ℤ, block.checkBlock env t = true → block'.checkBlock env t' = true →
    Set.InjOn env.crypto.hash
      {block.toCPureBlockHeader.serialize, block'.toCPureBlockHeader.serialize} →
    block.getHash env = block'.getHash env → block.txids env = block'.txids env
  := by
  have hroots : (block.txids env).Nodup → (block'.txids env).Nodup →
      (block.vtx = [] ↔ block'.vtx = []) →
      block.buildMerkleTree env.crypto = block'.buildMerkleTree env.crypto →
      block.txids env = block'.txids env := by
    intro hnodup hnodup' hempty hroot
    by_cases hne : block.vtx = []
    · rw [txids, txids, hne, hempty.mp hne]
    · have hne' : block'.vtx ≠ [] := fun h => hne (hempty.mpr h)
      apply hideal.map_getHash_eq hne hne' hnodup hnodup'
      have hlast := List.getLast?_eq_some_getLast (@vMerkleTree_ne_nil env.crypto _ hne)
      have hlast' := List.getLast?_eq_some_getLast (@vMerkleTree_ne_nil env.crypto _ hne')
      rw [buildMerkleTree, buildMerkleTree, hlast, hlast'] at hroot
      rw [hlast, hlast']
      exact congrArg some hroot
  refine ⟨hroots, ?_⟩
  intro t t' hcheck hcheck' hheader hhash
  have hchecked := checked_of_checkBlock hcheck
  have hchecked' := checked_of_checkBlock hcheck'
  have hsame := CPureBlockHeader.serialize_injective (hheader (Or.inl rfl) (Or.inr rfl) hhash)
  apply hroots hchecked.nodup hchecked'.nodup
  · obtain ⟨coinbase, rest, hvtx, -⟩ := hchecked.exists_coinbase
    obtain ⟨coinbase', rest', hvtx', -⟩ := hchecked'.exists_coinbase
    rw [hvtx, hvtx']
    exact iff_of_false (List.cons_ne_nil _ _) (List.cons_ne_nil _ _)
  · rw [← buildMerkleTree_of_checkBlock hcheck, ← buildMerkleTree_of_checkBlock hcheck', hsame]

-- The conditions are computed over the lists: pairs of hashes are finitely many, and a decision
-- over all of them would not end.
theorem threeTxs_hashIdeal : PairHashIdeal sampleCrypto threeTxs.vtx threeTxs.vtx := by
  have hfree : (merklePairs sampleCrypto threeTxs.vtx).all (fun p =>
      (merklePairs sampleCrypto threeTxs.vtx).all (fun q =>
        hashPair sampleCrypto p.1 p.2 != hashPair sampleCrypto q.1 q.2 || p == q)) = true := by
    decide +kernel
  have hother : (merklePairs sampleCrypto threeTxs.vtx).all (fun pair =>
      threeTxs.vtx.all (fun tx =>
        hashPair sampleCrypto pair.1 pair.2 != tx.getHash sampleCrypto)) = true := by
    decide +kernel
  rw [List.all_eq_true] at hfree hother
  constructor
  · intro p hp q hq hsame
    replace hp := or_self_iff.mp (List.mem_append.mp hp)
    replace hq := or_self_iff.mp (List.mem_append.mp hq)
    rcases Bool.or_eq_true_iff.mp (List.all_eq_true.mp (hfree p hp) q hq) with hne | heq
    · exact absurd hsame (bne_iff_ne.mp hne)
    · exact eq_of_beq heq
  · intro pair hpair tx htx
    rw [List.mem_append, or_self] at hpair htx
    exact bne_iff_ne.mp (List.all_eq_true.mp (hother pair hpair) tx htx)

/-- A block that differs in its nonce is another block with the same transactions. -/
theorem threeTxs_txids :
  threeTxs.checkBlock sampleEnv 1774996802 = true
    ∧ threeTxs.txids sampleEnv = CBlock.txids sampleEnv { threeTxs with nNonce := 1 }
  := by
  have hcheck : threeTxs.checkBlock sampleEnv 1774996802 = true := by
    decide +kernel
  have hnodup := (CBlock.checked_of_checkBlock hcheck).nodup
  exact ⟨hcheck, (@CBlock.txids_eq_of_root_eq sampleEnv threeTxs { threeTxs with nNonce := 1 }
    threeTxs_hashIdeal).1 hnodup hnodup Iff.rfl rfl⟩

end CorgiCoin
