import CorgiCoin.Merkle

/-!
# Merged-mining proofs

`CAuxPow::Check` accepts a proof for a block hash when the parent coinbase commits to a merkle
root under which the hash sits at the slot its chain identifier is assigned.  A parent
coinbase that carries the merged-mining magic commits to one block hash of a chain at most.
-/

namespace CorgiCoin

open Codec

/-! ## Searching a script -/

/-- `std::search`: the first position of `hay` where `needle` starts. -/
def search (needle : Bytes) : Bytes → Option ℕ
  | [] => if needle.isEmpty then some 0 else none
  | b :: hay =>
    if needle.isPrefixOf (b :: hay) then some 0 else (search needle hay).map (· + 1)

/-- Where a search succeeds, the bytes searched for stand. -/
theorem take_drop_of_search
    {needle hay : Bytes} {pc : ℕ} (h : search needle hay = some pc) :
  (hay.drop pc).take needle.length = needle
  := by
  induction hay generalizing pc with
  | nil =>
    rw [search] at h
    split at h
    case isTrue hempty => simp [List.isEmpty_iff.mp hempty]
    case isFalse => cases h
  | cons b hay ih =>
    rw [search] at h
    split at h
    case isTrue hprefix =>
      obtain rfl := Option.some.inj h
      apply (List.prefix_iff_eq_take.mp (List.isPrefixOf_iff_prefix.mp hprefix)).symm
    case isFalse =>
      obtain ⟨pc', hpc', rfl⟩ := Option.map_eq_some_iff.mp h
      apply ih hpc'

/-! ## The check -/

/-- The merged-mining coinbase magic. -/
def MERGED_MINING_HEADER : Bytes := [0xfa, 0xbe, 0x6d, 0x6d]

/-- The slot of a chain in a merged-mining tree of height `h`. -/
def getExpectedAuxIndex (nNonce : UInt32) (nChainId : Int32) (h : ℕ) : UInt32 :=
  let rand := nNonce * 1103515245 + 12345
  let rand := rand + nChainId.toUInt32
  let rand := rand * 1103515245 + 12345
  rand % ((1 : UInt32) <<< UInt32.ofNat h)

/-- The 32-bit word at a position of a script. -/
def wordAt (script : CScript) (pc : ℕ) : UInt32 :=
  UInt32.ofNat (ofLE ((script.drop pc).take 4))

/-- The bytes of a root as a coinbase commits to them, most significant first. -/
def vchRootHash (nRootHash : uint256) : Bytes := (serializeUint256 nRootHash).reverse

/-- The magic, where present, is unique and stands just before the root; without it the root
starts within the first twenty bytes. -/
def magicPlaced (script : CScript) (pc : ℕ) : Bool :=
  match search MERGED_MINING_HEADER script with
  | some pcHead =>
    (search MERGED_MINING_HEADER (script.drop (pcHead + 1))).isNone
      && pcHead + MERGED_MINING_HEADER.length == pc
  | none => pc ≤ 20

/-- The tree size and the nonce after the root agree with the branch and the slot. -/
def sizeAndNonceMatch (script : CScript) (pc : ℕ) (nChainId : Int32) (nBranch : ℕ)
    (nChainIndex : Int32) : Bool :=
  8 ≤ script.length - pc
    && wordAt script pc == (1 : UInt32) <<< UInt32.ofNat nBranch
    && nChainIndex.toUInt32 == getExpectedAuxIndex (wordAt script (pc + 4)) nChainId nBranch

/-- The script of the first input of a transaction. -/
def CTransaction.coinbaseScript (tx : CTransaction) : CScript :=
  (tx.vin.head?.map CTxIn.scriptSig).getD []

variable (crypto : Crypto)

/-- `CAuxPow::Check`. -/
def CAuxPow.check (auxpow : CAuxPow) (hashAuxBlock : uint256) (nChainId : Int32) : Bool :=
  if auxpow.nIndex != 0 then false
  else if !auxpow.isCoinBase then false
  else if getChainId auxpow.parentBlock.nVersion == nChainId then false
  else if isAuxPowVersion auxpow.parentBlock.nVersion then false
  else if auxpow.vChainMerkleBranch.length > 30 then false
  else if checkMerkleBranch crypto (auxpow.toCTransaction.getHash crypto) auxpow.vMerkleBranch
      auxpow.nIndex != auxpow.parentBlock.hashMerkleRoot then false
  else
    let nRootHash :=
      checkMerkleBranch crypto hashAuxBlock auxpow.vChainMerkleBranch auxpow.nChainIndex
    let script := auxpow.coinbaseScript
    match search (vchRootHash nRootHash) script with
    | none => false
    | some pc =>
      if !magicPlaced script pc then false
      else sizeAndNonceMatch script (pc + 32) nChainId auxpow.vChainMerkleBranch.length
        auxpow.nChainIndex

/-- What an accepted proof shows of the coinbase script: the committed root stands at a place
`pc` the magic allows, followed by the size and the nonce its branch and slot agree with. -/
theorem CAuxPow.check_spec
    {crypto : Crypto} {auxpow : CAuxPow} {hashAuxBlock : uint256} {nChainId : Int32}
    (h : auxpow.check crypto hashAuxBlock nChainId = true) :
  auxpow.vChainMerkleBranch.length ≤ 30 ∧
    ∃ pc, search (vchRootHash (checkMerkleBranch crypto hashAuxBlock
        auxpow.vChainMerkleBranch auxpow.nChainIndex)) auxpow.coinbaseScript = some pc ∧
      magicPlaced auxpow.coinbaseScript pc = true ∧
      sizeAndNonceMatch auxpow.coinbaseScript (pc + 32) nChainId
        auxpow.vChainMerkleBranch.length auxpow.nChainIndex = true
  := by
  rw [check] at h
  split_ifs at h with _ _ _ _ hbranch
  use Nat.not_lt.mp hbranch
  dsimp only at h
  split at h
  · cases h
  · rename_i pc hsearch
    split_ifs at h with hplaced
    use pc, hsearch
    constructor
    · simpa using hplaced
    · apply h

/-! ## Uniqueness of the commitment -/

/-- Trees of height at most thirty are told apart by their size. -/
theorem shiftLeft_one_injective {h h' : ℕ} (hh : h ≤ 30) (hh' : h' ≤ 30)
    (heq : (1 : UInt32) <<< UInt32.ofNat h = (1 : UInt32) <<< UInt32.ofNat h') :
  h = h'
  := by
  have hall : ∀ a ≤ 30, ∀ b ≤ 30,
      (1 : UInt32) <<< UInt32.ofNat a = (1 : UInt32) <<< UInt32.ofNat b → a = b := by
    decide
  apply hall h hh h' hh' heq

/-- A slot of a tree of height at most thirty is not the index `-1`. -/
theorem getExpectedAuxIndex_ne {h : ℕ} (hh : h ≤ 30) (nNonce : UInt32) (nChainId : Int32) :
  getExpectedAuxIndex nNonce nChainId h ≠ (-1 : Int32).toUInt32
  := by
  have hpos : ∀ a ≤ 30, 0 < ((1 : UInt32) <<< UInt32.ofNat a).toNat ∧
      ((1 : UInt32) <<< UInt32.ofNat a).toNat < 2 ^ 31 := by
    decide
  obtain ⟨hzero, hbound⟩ := hpos h hh
  intro heq
  have hnat := congrArg UInt32.toNat heq
  rw [getExpectedAuxIndex, UInt32.toNat_mod] at hnat
  have hmod := Nat.mod_lt ((((nNonce * 1103515245 + 12345) + nChainId.toUInt32) * 1103515245
    + 12345) : UInt32).toNat hzero
  have hmax : ((-1 : Int32).toUInt32).toNat = 2 ^ 32 - 1 := by decide
  omega

/-- Where the coinbase script carries the magic, a proof's root starts right after it. -/
theorem eq_of_magicPlaced
    {script : CScript} {pcHead pc : ℕ} (hhead : search MERGED_MINING_HEADER script = some pcHead)
    (h : magicPlaced script pc = true) :
  pc = pcHead + 4
  := by
  rw [magicPlaced, hhead] at h
  simp only [Bool.and_eq_true, beq_iff_eq] at h
  apply h.2.symm

/-- A root is determined by its bytes in a coinbase script. -/
theorem vchRootHash_injective :
  Function.Injective vchRootHash
  := by
  intro a b h
  apply serializeUint256_injective
  apply List.reverse_injective h

theorem length_vchRootHash (nRootHash : uint256) :
  (vchRootHash nRootHash).length = 32
  := by
  rw [vchRootHash, List.length_reverse, serializeUint256, length_toLE]

/-- The slot an accepted proof takes is not `-1`, so its branch is folded. -/
theorem checkMerkleBranch_of_match
    {script : CScript} {pc : ℕ} {nChainId nChainIndex : Int32} {branch : List uint256}
    (hbranch : branch.length ≤ 30)
    (h : sizeAndNonceMatch script pc nChainId branch.length nChainIndex = true)
    (hash : uint256) :
  checkMerkleBranch crypto hash branch nChainIndex = foldBranch crypto hash branch nChainIndex
  := by
  rw [checkMerkleBranch, if_neg]
  rintro rfl
  simp only [sizeAndNonceMatch, Bool.and_eq_true, beq_iff_eq] at h
  apply getExpectedAuxIndex_ne hbranch _ _ h.2.symm

/-- One parent coinbase carrying the merged-mining magic and one parent header prove at most
one block hash of a chain, whatever branches and indices the proofs supply, as long as the
pairs of hashes the two proofs hash along their chain branches do not collide. -/
theorem auxPow_commits_once
    (auxpow auxpow' : CAuxPow) (nChainId : Int32) (hashAuxBlock hashAuxBlock' : uint256)
    (hcoinbase : auxpow.toCTransaction = auxpow'.toCTransaction)
    (_hparent : auxpow.parentBlock = auxpow'.parentBlock)
    (hmagic : (search MERGED_MINING_HEADER auxpow.coinbaseScript).isSome = true)
    (hfree : CollisionFree crypto
      {pair |
        pair ∈ branchPairs crypto hashAuxBlock auxpow.vChainMerkleBranch auxpow.nChainIndex
        ∨ pair ∈ branchPairs crypto hashAuxBlock' auxpow'.vChainMerkleBranch
            auxpow'.nChainIndex})
    (hcheck : auxpow.check crypto hashAuxBlock nChainId = true)
    (hcheck' : auxpow'.check crypto hashAuxBlock' nChainId = true) :
  hashAuxBlock = hashAuxBlock'
  := by
  obtain ⟨hbranch, pc, hsearch, hplaced, hmatch⟩ := CAuxPow.check_spec hcheck
  obtain ⟨hbranch', pc', hsearch', hplaced', hmatch'⟩ := CAuxPow.check_spec hcheck'
  obtain ⟨pcHead, hhead⟩ := Option.isSome_iff_exists.mp hmagic
  rw [← hcoinbase] at hsearch' hplaced' hmatch'
  obtain rfl := eq_of_magicPlaced hhead hplaced
  obtain rfl := eq_of_magicPlaced hhead hplaced'
  -- both roots are the 32 bytes after the magic
  have hroot := take_drop_of_search hsearch
  rw [length_vchRootHash] at hroot
  have hroot' := take_drop_of_search hsearch'
  rw [length_vchRootHash, hroot] at hroot'
  have hfold := vchRootHash_injective hroot'
  rw [checkMerkleBranch_of_match crypto hbranch hmatch,
    checkMerkleBranch_of_match crypto hbranch' hmatch'] at hfold
  -- the size after the root fixes the height of the tree, the nonce then fixes the slot
  simp only [sizeAndNonceMatch, Bool.and_eq_true, beq_iff_eq] at hmatch hmatch'
  have hlength := shiftLeft_one_injective hbranch hbranch' (hmatch.1.2.symm.trans hmatch'.1.2)
  have hindex : auxpow.nChainIndex = auxpow'.nChainIndex := by
    have hslot : auxpow.nChainIndex.toUInt32 = auxpow'.nChainIndex.toUInt32 := by
      rw [hmatch.2, hmatch'.2, hlength]
    rw [← Int32.toInt32_toUInt32 auxpow.nChainIndex, hslot, Int32.toInt32_toUInt32]
  rw [← hindex] at hfold hfree
  apply foldBranch_injective hlength hfree hfold

/-- A proof for the block hash `5` in a tree of two chains, with a given `hashBlock`, which no
check reads. -/
def sampleProof (hashBlock : uint256) : CAuxPow :=
  let script := MERGED_MINING_HEADER ++ vchRootHash (hashPair sampleCrypto 5 6)
    ++ serializeUInt 2 ++ serializeUInt 0
  let coinbase : CTransaction := ⟨1, [⟨COutPoint.null, script, 0xffffffff⟩], [⟨0, []⟩], 0⟩
  { coinbase with
    hashBlock, vMerkleBranch := [], nIndex := 0, vChainMerkleBranch := [6], nChainIndex := 0
    parentBlock := ⟨1, 0, coinbase.getHash sampleCrypto, 0, 0, 0⟩ }

theorem sampleProof_commits_once :
  (sampleProof 0).check sampleCrypto 5 AUXPOW_CHAIN_ID = true ∧ (5 : uint256) = 5
  := by
  have hcheck : (sampleProof 0).check sampleCrypto 5 AUXPOW_CHAIN_ID = true := by
    decide +kernel
  have hfree : CollisionFree sampleCrypto
      {pair | pair ∈ branchPairs sampleCrypto 5 (sampleProof 0).vChainMerkleBranch
          (sampleProof 0).nChainIndex
        ∨ pair ∈ branchPairs sampleCrypto 5 (sampleProof 1).vChainMerkleBranch
          (sampleProof 1).nChainIndex} := by
    have hpairs : ∀ hashBlock, branchPairs sampleCrypto 5
        (sampleProof hashBlock).vChainMerkleBranch (sampleProof hashBlock).nChainIndex
        = [(5, 6)] := by
      intro hashBlock
      simp [sampleProof, branchPairs, branchPair]
    intro pair hpair pair' hpair' _
    simp only [hpairs, List.mem_singleton, or_self, Set.mem_ofPred_eq] at hpair hpair'
    rw [hpair, hpair']
  refine ⟨hcheck, ?_⟩
  exact auxPow_commits_once sampleCrypto (sampleProof 0) (sampleProof 1) AUXPOW_CHAIN_ID 5 5
    rfl rfl (by decide +kernel) hfree hcheck (by decide +kernel)

end CorgiCoin
