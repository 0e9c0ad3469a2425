import CorgiCoin.Block
import Mathlib.Data.Set.Function

/-!
# Hashes and merkle trees

The hash functions come from outside the program: `Crypto.hash` is the double SHA-256 of
`Hash` and `Crypto.scrypt` the proof-of-work hash, both arbitrary functions here.  The merkle
tree of a block and the folding of a merkle branch are built on the hash of two hashes.
-/

namespace CorgiCoin

/-- The hash functions the node calls. -/
structure Crypto where
  /-- `Hash`, the double SHA-256 of a string of bytes. -/
  hash : Bytes → uint256
  /-- `scrypt_1024_1_1_256` of a block header. -/
  scrypt : Bytes → uint256

/-- Hash functions to evaluate definitions with: a polynomial in the bytes modulo a 256-bit
prime, and a proof-of-work hash below every target. -/
def sampleCrypto : Crypto where
  hash bs :=
    BitVec.ofNat 256 (bs.foldl (fun h b => (h * 65599 + b.toNat + 1) % (2 ^ 256 - 189)) 0)
  scrypt _ := 0

variable (crypto : Crypto)

def CTransaction.getHash (tx : CTransaction) : uint256 := crypto.hash tx.serialize

def CPureBlockHeader.getHash (header : CPureBlockHeader) : uint256 :=
  crypto.hash header.serialize

def CPureBlockHeader.getPoWHash (header : CPureBlockHeader) : uint256 :=
  crypto.scrypt header.serialize

/-- `Hash` of two hashes written one after the other. -/
def hashPair (a b : uint256) : uint256 :=
  crypto.hash (serializeUint256 a ++ serializeUint256 b)

/-! ## Trees -/

/-- The level above a level of the tree; the last hash of an odd level is paired with itself. -/
def nextLevel : List uint256 → List uint256
  | [] => []
  | [a] => [hashPair crypto a a]
  | a :: b :: rest => hashPair crypto a b :: nextLevel rest

/-- A level of `vMerkleTree` with the levels above it, as long as there are two hashes to
combine.  The first argument bounds the number of levels. -/
def merkleLevels : ℕ → List uint256 → List uint256
  | 0, level => level
  | n + 1, level =>
    if level.length > 1 then level ++ merkleLevels n (nextLevel crypto level) else level

/-- `vMerkleTree` as `BuildMerkleTree` fills it. -/
def vMerkleTree (vtx : List CTransaction) : List uint256 :=
  merkleLevels crypto vtx.length (vtx.map (CTransaction.getHash crypto))

/-- The root of the merkle tree of the transactions of a block. -/
def CBlock.buildMerkleTree (block : CBlock) : uint256 :=
  (vMerkleTree crypto block.vtx).getLast?.getD 0

/-! ## Branches -/

/-- The two hashes combined with `otherside` at an index: the hash on the branch goes first
at an odd index. -/
def branchPair (hash otherside : uint256) (nIndex : Int32) : uint256 × uint256 :=
  if nIndex &&& 1 != 0 then (otherside, hash) else (hash, otherside)

/-- The loop of `CheckMerkleBranch`. -/
def foldBranch (hash : uint256) : List uint256 → Int32 → uint256
  | [], _ => hash
  | otherside :: vMerkleBranch, nIndex =>
    let pair := branchPair hash otherside nIndex
    foldBranch (hashPair crypto pair.1 pair.2) vMerkleBranch (nIndex >>> 1)

def checkMerkleBranch (hash : uint256) (vMerkleBranch : List uint256) (nIndex : Int32) :
    uint256 :=
  if nIndex = -1 then 0 else foldBranch crypto hash vMerkleBranch nIndex

/-- The pairs of hashes `foldBranch` hashes. -/
def branchPairs (hash : uint256) : List uint256 → Int32 → List (uint256 × uint256)
  | [], _ => []
  | otherside :: vMerkleBranch, nIndex =>
    let pair := branchPair hash otherside nIndex
    pair :: branchPairs (hashPair crypto pair.1 pair.2) vMerkleBranch (nIndex >>> 1)

/-- The pair hash has no collision among the given pairs. -/
def CollisionFree (pairs : Set (uint256 × uint256)) : Prop :=
  Set.InjOn (fun pair => hashPair crypto pair.1 pair.2) pairs

theorem CollisionFree.mono
    {crypto : Crypto} {pairs pairs' : Set (uint256 × uint256)} (h : CollisionFree crypto pairs')
    (hsub : pairs ⊆ pairs') :
  CollisionFree crypto pairs
  := Set.InjOn.mono hsub h

/-- The side of a branch pair the folded hash is on depends on the index alone. -/
theorem branchPair_injective {hash hash' otherside otherside' : uint256} {nIndex : Int32}
    (h : branchPair hash otherside nIndex = branchPair hash' otherside' nIndex) :
  hash = hash'
  := by
  rw [branchPair, branchPair] at h
  split at h
  · apply (Prod.ext_iff.mp h).2
  · apply (Prod.ext_iff.mp h).1

/-- Two branches of one length that fold to one root at one index start from one hash, when
the pairs hashed on the way do not collide. -/
theorem foldBranch_injective
    {crypto : Crypto} {hash hash' : uint256} {branch branch' : List uint256} {nIndex : Int32}
    (hlength : branch.length = branch'.length)
    (hfree : CollisionFree crypto
      {pair | pair ∈ branchPairs crypto hash branch nIndex
        ∨ pair ∈ branchPairs crypto hash' branch' nIndex})
    (hroot : foldBranch crypto hash branch nIndex = foldBranch crypto hash' branch' nIndex) :
  hash = hash'
  := by
  induction branch generalizing hash hash' branch' nIndex with
  | nil =>
    obtain rfl := List.length_eq_zero_iff.mp hlength.symm
    apply hroot
  | cons otherside branch ih =>
    cases branch' with
    | nil => cases hlength
    | cons otherside' branch' =>
      -- the roots of the two tails agree, so their first hashes do, so the pairs hashed do
      have htail := ih (Nat.succ.inj hlength) (hfree.mono (fun pair hpair =>
        hpair.imp (List.mem_cons_of_mem _) (List.mem_cons_of_mem _))) hroot
      apply branchPair_injective
      apply hfree (Or.inl List.mem_cons_self) (Or.inr List.mem_cons_self) htail

end CorgiCoin
