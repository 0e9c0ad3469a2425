import CorgiCoin.Work

/-!
# Blocks for miners

How a template block is filled in and changed for each unit of work: its time and target, the
coinbase script with the extra nonce, and the buffer that a miner hashes.
-/

namespace CorgiCoin

/-! ## The coinbase script -/

/-- The script that marks blocks as supporting pay to script hash: a push of `/P2SH/`. -/
def COINBASE_FLAGS : CScript := pushData [0x2f, 0x50, 0x32, 0x53, 0x48, 0x2f]

namespace CBlock

/-- `vtx[0].vin[0].scriptSig = scriptSig` -/
def setScriptSig (block : CBlock) (scriptSig : CScript) : CBlock :=
  match block.vtx with
  | [] => block
  | coinbase :: vtx =>
    match coinbase.vin with
    | [] => block
    | txin :: vin =>
      { block with vtx := { coinbase with vin := { txin with scriptSig } :: vin } :: vtx }

/-- `vtx[0].vin[0].scriptSig` -/
def scriptSig (block : CBlock) : CScript :=
  ((block.vtx.head?.bind (·.vin.head?)).map (·.scriptSig)).getD []

variable (block : CBlock) (scriptSig scriptSig' : CScript)

theorem setScriptSig_setScriptSig :
  (block.setScriptSig scriptSig).setScriptSig scriptSig' = block.setScriptSig scriptSig'
  := by
  obtain ⟨header, vtx, auxpow⟩ := block
  rcases vtx with _ | ⟨coinbase, vtx⟩
  · rfl
  · obtain ⟨nVersion, vin, vout, nLockTime⟩ := coinbase
    cases vin with
    | nil => rfl
    | cons txin vin => rfl

theorem setScriptSig_scriptSig :
  (block.setScriptSig scriptSig).setScriptSig (block.setScriptSig scriptSig).scriptSig
    = block.setScriptSig scriptSig
  := by
  obtain ⟨header, vtx, auxpow⟩ := block
  rcases vtx with _ | ⟨coinbase, vtx⟩
  · rfl
  · obtain ⟨nVersion, vin, vout, nLockTime⟩ := coinbase
    cases vin with
    | nil => rfl
    | cons txin vin => rfl

/-- The script is the only thing that changes in the header and the proof, and the transactions do
not depend on the header. -/
theorem setScriptSig_eq :
  block.setScriptSig scriptSig = { block with vtx := (block.setScriptSig scriptSig).vtx }
  := by
  obtain ⟨header, vtx, auxpow⟩ := block
  rcases vtx with _ | ⟨coinbase, vtx⟩
  · rfl
  · obtain ⟨nVersion, vin, vout, nLockTime⟩ := coinbase
    cases vin with
    | nil => rfl
    | cons txin vin => rfl

theorem vtx_setScriptSig_of_vtx {block block' : CBlock} (h : block.vtx = block'.vtx) :
  (block.setScriptSig scriptSig).vtx = (block'.setScriptSig scriptSig).vtx
  := by
  obtain ⟨header, vtx, auxpow⟩ := block
  obtain ⟨header', vtx', auxpow'⟩ := block'
  cases h
  rcases vtx with _ | ⟨coinbase, vtx⟩
  · rfl
  · obtain ⟨nVersion, vin, vout, nLockTime⟩ := coinbase
    cases vin with
    | nil => rfl
    | cons txin vin => rfl

end CBlock

/-- The extra nonce of a caller of `IncrementExtraNonce`, with the block that the function last
counted on. -/
structure ExtraNonce where
  hashPrevBlock : uint256
  nExtraNonce : UInt32

def incrementExtraNonce (crypto : Crypto) (block : CBlock) (nonce : ExtraNonce) :
    CBlock × ExtraNonce :=
  let nExtraNonce := (if nonce.hashPrevBlock != block.hashPrevBlock then 0 else nonce.nExtraNonce) + 1
  let block := block.setScriptSig (pushUInt block.nTime ++ pushBigNum nExtraNonce.toNat ++ COINBASE_FLAGS)
  ({ block with hashMerkleRoot := block.buildMerkleTree crypto }, ⟨block.hashPrevBlock, nExtraNonce⟩)

/-! ## Time and target -/

/-- The time of a block on top of another, at an adjusted time. -/
def newBlockTime (pindexPrev : CBlockIndex) (nAdjustedTime : ℤ) : UInt32 :=
  UInt32.ofInt (max (pindexPrev.getMedianTimePast + 1) nAdjustedTime)

/-- `CBlock::UpdateTime`; `none` where the source stops at an assertion. -/
def CBlock.updateTime (network : Network) (block : CBlock) (pindexPrev : CBlockIndex)
    (nAdjustedTime : ℤ) : Option CBlock :=
  let block := { block with nTime := newBlockTime pindexPrev nAdjustedTime }
  if network.fTestNet then
    (getNextWorkRequired network pindexPrev block.nTime).map (fun nBits => { block with nBits })
  else some block

/-- The header that `CreateNewBlock` gives a block of some transactions; `none` where the source
stops at an assertion. -/
def fillHeader (env : Env) (pindexPrev : CBlockIndex) (nAdjustedTime : ℤ) (vtx : List CTransaction) :
    Option CBlock :=
  let block : CBlock :=
    { nVersion :=
        if pindexPrev.nHeight + 1 ≥ getAuxPowForkHeight env.network then
          makeVersion CBlock.CURRENT_VERSION AUXPOW_CHAIN_ID false
        else CBlock.CURRENT_VERSION
      hashPrevBlock := pindexPrev.getBlockHash
      hashMerkleRoot := 0
      nTime := 0
      nBits := 0
      nNonce := 0
      vtx := vtx
      auxpow := none }
  let block := { block with hashMerkleRoot := block.buildMerkleTree env.crypto }
  match block.updateTime env.network pindexPrev nAdjustedTime with
  | none => none
  | some block =>
    (getNextWorkRequired env.network pindexPrev block.nTime).map (fun nBits => { block with nBits })

/-! ## The buffer -/

/-- `ByteReverse` of every word of a buffer. -/
def byteReverse : Bytes → Bytes
  | a :: b :: c :: d :: rest => d :: c :: b :: a :: byteReverse rest
  | rest => rest

/-- The padding that `FormatHashBlocks` puts after a header of 80 bytes. -/
def headerPadding : Bytes := 0x80 :: (List.replicate 43 0 ++ [0, 0, 0x02, 0x80])

/-- The data that `FormatHashBuffers` makes of a header. -/
def formatHashData (header : CPureBlockHeader) : Bytes :=
  byteReverse (header.serialize ++ headerPadding)

/-- The header in the data that a miner submits; `none` where the data has another length. -/
def parseHashData (vchData : Bytes) : Option CPureBlockHeader :=
  if vchData.length ≠ 128 then none
  else ((CPureBlockHeader.unserialize.run (byteReverse vchData)).map Prod.fst)

theorem byteReverse_byteReverse : ∀ bytes : Bytes,
  byteReverse (byteReverse bytes) = bytes
  | a :: b :: c :: d :: rest => by rw [byteReverse, byteReverse, byteReverse_byteReverse rest]
  | [] => rfl
  | [_] => rfl
  | [_, _] => rfl
  | [_, _, _] => rfl

theorem length_byteReverse : ∀ bytes : Bytes,
  (byteReverse bytes).length = bytes.length
  | a :: b :: c :: d :: rest => by simp only [byteReverse, List.length_cons, length_byteReverse rest]
  | [] => rfl
  | [_] => rfl
  | [_, _] => rfl
  | [_, _, _] => rfl

/-- A miner's data names the header it was made of. -/
theorem parseHashData_formatHashData (header : CPureBlockHeader) :
  parseHashData (formatHashData header) = some header
  := by
  have hlength : (formatHashData header).length = 128 := by
    rw [formatHashData, length_byteReverse, List.length_append, CPureBlockHeader.length_serialize]
    rfl
  rw [parseHashData, if_neg (not_not.mpr hlength), formatHashData, byteReverse_byteReverse,
    CPureBlockHeader.lawful.read_write header trivial]
  rfl

end CorgiCoin
