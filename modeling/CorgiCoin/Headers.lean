import CorgiCoin.HighChain

/-!
# Headers

The reply to a `getheaders` message: the headers of the blocks from the first one after the
locator, or the block asked for, along `pnext`, each rebuilt from its entry of the block index.
A rebuilt header has no merged-mining proof, so the reply can be written exactly when none of
the blocks it covers announces one.
-/

namespace CorgiCoin

open Std Codec

namespace Node

/-! ## The reply -/

/-- `CBlockIndex::IsInMainChain`. -/
def isInMainChain (node : Node) (pindex : CBlockIndex) : Bool :=
  node.pnext.contains pindex.getBlockHash || node.pindexBest == some pindex

/-- `CBlockLocator::GetBlockIndex`: the first block the caller has in the main chain. -/
def locatorGetBlockIndex (node : Node) (vHave : List uint256) : Option CBlockIndex :=
  (vHave.findSome? (fun hash => node.mapBlockIndex[hash]?.filter node.isInMainChain)).or
    node.pindexGenesisBlock

/-- The block a reply starts with, which may be none; `none` where there is no reply. -/
def headersStart (node : Node) (vHave : List uint256) (hashStop : uint256) :
    Option (Option CBlockIndex) :=
  if vHave.isEmpty then node.mapBlockIndex[hashStop]?.map some
  else some ((node.locatorGetBlockIndex vHave).bind (fun p => node.pnext[p.getBlockHash]?))

/-- The loop that collects the headers; the first argument is `nLimit`. -/
def collectHeaders (node : Node) (hashStop : uint256) : ℕ → Option CBlockIndex → List CBlock
  | _, none => []
  | 0, some _ => []
  | nLimit + 1, some pindex =>
    pindex.getBlockHeader ::
      if nLimit ≤ 0 || pindex.getBlockHash == hashStop then []
      else collectHeaders node hashStop nLimit node.pnext[pindex.getBlockHash]?

/-- The reply to `getheaders` with a locator and a stop hash. -/
def getHeaders (node : Node) (vHave : List uint256) (hashStop : uint256) : Option (List CBlock) :=
  (node.headersStart vHave hashStop).map (node.collectHeaders hashStop 2000)

end Node

/-- `Serialize` of a vector of blocks for the network; `none` where it meets a null pointer. -/
def serializeHeaders (vHeaders : List CBlock) : Option Bytes := do
  let data ← vHeaders.mapM (CBlock.serialize SER_NETWORK)
  return writeCompactSize vHeaders.length ++ data.flatten

/-- `Unserialize` of a vector of blocks from the network. -/
def unserializeHeaders : Reader (List CBlock) := unserializeVector (CBlock.unserialize SER_NETWORK)

/-- A reply is fine when a header that announces a proof has one, and the headers can be written
and are read back. -/
structure ReplyOk (vHeaders : List CBlock) : Prop where
  present : ∀ header ∈ vHeaders, header.isAuxPow = true → header.auxpow ≠ none
  read_back : ∃ data, serializeHeaders vHeaders = some data
    ∧ ∀ rest, unserializeHeaders.run (data ++ rest) = some (vHeaders, rest)

/-! ## What a reply covers -/

/-- Going along `pnext` from a block, at most a number of blocks and not beyond the stop hash,
gets to another. -/
inductive Node.Reaches (node : Node) (hashStop : uint256) : ℕ → CBlockIndex → CBlockIndex → Prop
  | here (n : ℕ) (p : CBlockIndex) : Reaches node hashStop (n + 1) p p
  | next (n : ℕ) (p q r : CBlockIndex) (hstop : p.getBlockHash ≠ hashStop)
      (hnext : node.pnext[p.getBlockHash]? = some q) (hrest : Reaches node hashStop n q r) :
    Reaches node hashStop (n + 1) p r

/-- A block is among those a request asks for. -/
def Node.Covers (node : Node) (vHave : List uint256) (hashStop : uint256) (pindex : CBlockIndex) :
    Prop :=
  ∃ start, node.headersStart vHave hashStop = some (some start)
    ∧ node.Reaches hashStop 2000 start pindex

namespace Node

variable {node : Node} {hashStop : uint256} {pindex start : CBlockIndex}

/-- The loop collects the headers of the blocks it reaches. -/
theorem mem_collectHeaders_iff
    {header : CBlock} {nLimit : ℕ} :
  header ∈ node.collectHeaders hashStop nLimit (some start)
    ↔ ∃ pindex, node.Reaches hashStop nLimit start pindex ∧ pindex.getBlockHeader = header
  := by
  induction nLimit generalizing start with
  | zero =>
    constructor
    · intro h
      cases h
    · rintro ⟨pindex, h, -⟩
      cases h
  | succ nLimit ih =>
    rw [collectHeaders, List.mem_cons]
    constructor
    · rintro (rfl | h)
      · exact ⟨start, .here nLimit start, rfl⟩
      · split_ifs at h with hend
        · cases h
        · cases hnext : node.pnext[start.getBlockHash]? with
          | none =>
            rw [hnext, collectHeaders] at h
            cases h
          | some q =>
            rw [hnext] at h
            obtain ⟨pindex, hreaches, rfl⟩ := ih.mp h
            simp only [Bool.or_eq_true, beq_iff_eq, not_or] at hend
            exact ⟨pindex, .next nLimit start q pindex hend.2 hnext hreaches, rfl⟩
    · rintro ⟨pindex, hreaches, rfl⟩
      cases hreaches with
      | here => exact .inl rfl
      | next n p q r hstop hnext hrest =>
        right
        have hend : ¬(decide (nLimit ≤ 0) || start.getBlockHash == hashStop) = true := by
          simp only [Bool.or_eq_true, decide_eq_true_eq, beq_iff_eq, not_or]
          refine ⟨?_, hstop⟩
          rintro hzero
          obtain rfl := Nat.le_zero.mp hzero
          cases hrest
        rw [if_neg hend, hnext]
        apply ih.mpr ⟨pindex, hrest, rfl⟩

theorem length_collectHeaders_le (nLimit : ℕ) (start : Option CBlockIndex) :
  (node.collectHeaders hashStop nLimit start).length ≤ nLimit
  := by
  induction nLimit generalizing start with
  | zero => cases start <;> exact Nat.zero_le _
  | succ nLimit ih =>
    cases start with
    | none => exact Nat.zero_le _
    | some start =>
      rw [collectHeaders, List.length_cons]
      apply Nat.succ_le_succ
      split_ifs
      · exact Nat.zero_le _
      · apply ih

end Node

theorem mapM_serialize
    {blocks : List CBlock} (h : ∀ block ∈ blocks, block.AuxPowPresent) :
  blocks.mapM (CBlock.serialize SER_NETWORK) = some (blocks.map (CBlock.bytes SER_NETWORK))
  := by
  induction blocks with
  | nil => rfl
  | cons block blocks ih =>
    obtain ⟨hblock, hblocks⟩ := List.forall_mem_cons.mp h
    rw [List.mapM_cons, CBlock.serialize_eq SER_NETWORK hblock, ih hblocks]
    rfl

/-- Headers that carry a proof exactly when they announce one are written and read back. -/
theorem headers_read_back
    {vHeaders : List CBlock} (hlength : vHeaders.length ≤ MAX_SIZE)
    (hpresent : ∀ header ∈ vHeaders, header.AuxPowPresent ∧ header.Fits) :
  ∃ data, serializeHeaders vHeaders = some data
    ∧ ∀ rest, unserializeHeaders.run (data ++ rest) = some (vHeaders, rest)
  := by
  have hdata : vHeaders.mapM (CBlock.serialize SER_NETWORK)
      = some (vHeaders.map (CBlock.bytes SER_NETWORK)) :=
    mapM_serialize (fun header hmem => (hpresent header hmem).1)
  refine ⟨writeCompactSize vHeaders.length ++ (vHeaders.map (CBlock.bytes SER_NETWORK)).flatten,
    ?_, ?_⟩
  · rw [serializeHeaders, hdata]
    rfl
  · intro rest
    rw [unserializeHeaders, unserializeVector, List.append_assoc,
      run_bind_of_run (readCompactSize_write hlength _), ← List.flatMap_def]
    apply readMany_flatMap _ vHeaders hpresent
    intro header hheader rest
    rw [CBlock.unserialize_bytes (by decide) hheader.1 hheader.2]
    rfl

/-- A reply can be written and read back exactly when no block that the request covers has the
AuxPoW bit. -/
theorem headers_ok_iff
    (node : Node) (vHave : List uint256) (hashStop : uint256) :
  (∀ vHeaders, node.getHeaders vHave hashStop = some vHeaders → ReplyOk vHeaders)
    ↔ ∀ pindex, node.Covers vHave hashStop pindex → isAuxPowVersion pindex.entry.nVersion = false
  := by
  constructor
  · rintro hok pindex ⟨start, hstart, hreaches⟩
    rw [← Bool.not_eq_true]
    intro haux
    have hreply : node.getHeaders vHave hashStop
        = some (node.collectHeaders hashStop 2000 (some start)) := by
      rw [Node.getHeaders, hstart, Option.map_some]
    exact (hok _ hreply).present _ (Node.mem_collectHeaders_iff.mpr ⟨pindex, hreaches, rfl⟩) haux rfl
  · intro hcovers vHeaders hreply
    obtain ⟨start, hstart, rfl⟩ := Option.map_eq_some_iff.mp hreply
    have hplain : ∀ header ∈ node.collectHeaders hashStop 2000 start,
        header.isAuxPow = false ∧ header.auxpow = none ∧ header.vtx = [] := by
      intro header hmem
      cases start with
      | none => cases hmem
      | some start =>
        obtain ⟨pindex, hreaches, rfl⟩ := Node.mem_collectHeaders_iff.mp hmem
        exact ⟨hcovers pindex ⟨start, hstart, hreaches⟩, rfl, rfl⟩
    constructor
    · intro header hmem haux
      rw [(hplain header hmem).1] at haux
      cases haux
    · apply headers_read_back ((Node.length_collectHeaders_le 2000 start).trans (by decide))
      intro header hmem
      obtain ⟨hversion, hauxpow, hvtx⟩ := hplain header hmem
      refine ⟨?_, ?_, ?_, ?_⟩
      · rw [CBlock.AuxPowPresent, hauxpow, hversion]
        rfl
      · rw [hvtx]
        exact Nat.zero_le _
      · rw [hvtx]
        exact fun _ hcontra => absurd hcontra List.not_mem_nil
      · rw [hauxpow]
        exact fun _ hcontra => absurd hcontra (Option.not_mem_none _)

/-! ### A merged-mined block -/

/-- A request for one block is answered with its header. -/
theorem Node.getHeaders_nil
    {node : Node} {pindex : CBlockIndex}
    (h : node.mapBlockIndex[pindex.getBlockHash]? = some pindex) :
  node.getHeaders [] pindex.getBlockHash = some [pindex.getBlockHeader]
  := by
  simp [getHeaders, headersStart, h, collectHeaders]

/-- The header of a block with the AuxPoW bit cannot be written. -/
theorem serializeHeaders_of_isAuxPow
    {pindex : CBlockIndex} (h : isAuxPowVersion pindex.entry.nVersion = true) :
  serializeHeaders [pindex.getBlockHeader] = none
  := by
  have hcarries : CBlock.carriesAuxPow SER_NETWORK pindex.getBlockHeader.nVersion = true := by
    rw [CBlock.carriesAuxPow, Bool.and_eq_true]
    exact ⟨by decide, h⟩
  have hnone : pindex.getBlockHeader.serialize SER_NETWORK = none := by
    rw [CBlock.serialize, if_pos hcarries]
    rfl
  rw [serializeHeaders, List.mapM_cons, hnone]
  rfl

/-- The header of a block with the AuxPoW bit at the height where such blocks start. -/
def mergedRowHeader : CBlock :=
  { rowBlock 199 with nVersion := makeVersion CBlock.CURRENT_VERSION AUXPOW_CHAIN_ID true }

/-- The proof of that block, under a parent coinbase that commits to it. -/
def mergedRowProof : CAuxPow :=
  let coinbase := wideCoinbase (rowHash 200) 0 0
  { coinbase with
    hashBlock := 0, vMerkleBranch := [], nIndex := 0, vChainMerkleBranch := [], nChainIndex := 0
    parentBlock := ⟨1, 0, coinbase.getHash rowCrypto, 0, 0, 0⟩ }

/-- The block, as a message brings it. -/
def mergedRowReceived : ReceivedBlock where
  block := { mergedRowHeader with auxpow := some mergedRowProof }
  fits := by decide
  present := by decide
  size_le := by decide +kernel

theorem rowNext_mergedRowReceived :
  Node.RowNext Node.sampleIo 199 mergedRowReceived
  := by
  refine ⟨rfl, rfl, rfl, ?_, ?_, ?_, ?_, ?_, ?_⟩
  · decide
  · decide
  · decide
  · decide
  · decide
  · decide +kernel

/-- 199 blocks and a merged-mined block on top of them are accepted, and the reply to a request
for the merged-mined block cannot be written: its header announces a proof and has none. -/
theorem mergedRow_reply_not_ok :
  ∃ start, Node.load rowEnv Node.sampleIo = some start ∧
    let node := Transition.run (Node.step rowEnv) start
      (Node.rowOps 199 ++ [.accept Node.sampleIo mergedRowReceived])
    ∃ vHeaders, node.getHeaders [] (rowHash 200) = some vHeaders
      ∧ serializeHeaders vHeaders = none ∧ ¬ReplyOk vHeaders
  := by
  obtain ⟨start, hload, hstart⟩ := Node.exists_rowInv_zero
  refine ⟨start, hload, ?_⟩
  have hinv : (Transition.run (Node.step rowEnv) start (Node.rowOps 199)).RowInv 199 :=
    hstart.run (by decide)
  obtain ⟨hafter, pindex, hget, hversion⟩ :=
    hinv.accept (by decide) rfl rowNext_mergedRowReceived
  rw [Transition.run_append]
  have hkey := hafter.indexed.key _ _ hget
  have haux : isAuxPowVersion pindex.entry.nVersion = true := by
    rw [hversion]
    decide
  have hnone := serializeHeaders_of_isAuxPow haux
  rw [← hkey] at hget
  refine ⟨[pindex.getBlockHeader], ?_, hnone, ?_⟩
  · rw [← hkey]
    apply Node.getHeaders_nil hget
  · rintro ⟨-, data, hdata, -⟩
    rw [hnone] at hdata
    cases hdata

end CorgiCoin
