import CorgiCoin.WalletTx
import CorgiCoin.MerkleTree
import CorgiCoin.CheckedRuns
import CorgiCoin.Headers
import CorgiCoin.Lib.FirstVisits

/-!
# Supporting transactions

A wallet transaction that is not deep in the main chain carries copies of the transactions before it.
`AddSupportingTransactions` looks for them in the wallet, in the copies that the wallet's transactions
carry, and on disk.  It puts what is to be looked at next at the end of the queue that it goes through
with iterators, and no iterator is valid after that.  So it works only when nothing is put there, that
is when every transaction it finds is deep enough or has no inputs.
-/

namespace CorgiCoin

open Std Relation

/-! ## The block of a transaction -/

namespace Node

variable (env : Env) (node : Node)

/-- `CBlock::ReadFromDisk` of the block that a transaction is in. -/
def readBlockOf (pos : CDiskTxPos) : Option CBlock := do
  let bytes ← node.files.openBlockFile pos.nFile
  let result ← (CBlock.unserialize SER_DISK).run (bytes.drop pos.nBlockPos.toNat)
  if checkAuxProofOfWork env result.1 result.1.nBits then some result.1 else none

/-- `CTxDB::ReadDiskTx` into a new `CMerkleTx`. -/
def readDiskTx (hash : uint256) : Option CMerkleTx := do
  let txindex ← node.txdb.txIndex[hash]?
  let tx ← node.files.readTx txindex.pos
  return { tx with hashBlock := 0, vMerkleBranch := [], nIndex := -1 }

/-- How deep a block is in the main chain, as `SetMerkleBranch` finds it. -/
def depthOfBlock (hashBlock : uint256) : ℤ :=
  match node.mapBlockIndex[hashBlock]? with
  | none => 0
  | some pindex =>
    if !node.isInMainChain pindex then 0
    else
      match node.pindexBest with
      | none => 0
      | some pindexBest => (pindexBest.nHeight : ℤ) - pindex.nHeight + 1

/-- `CMerkleTx::SetMerkleBranch` without a block: the transaction with its branch, and its depth. -/
def setMerkleBranch (tx : CMerkleTx) : CMerkleTx × ℤ :=
  match node.txdb.txIndex[tx.getHash env.crypto]?.bind (fun txindex => node.readBlockOf env txindex.pos) with
  | none => (tx, 0)
  | some block =>
    let hashBlock := block.getHash env
    let nIndex := block.vtx.idxOf tx.toCTransaction
    if nIndex = block.vtx.length then ({ tx with hashBlock, vMerkleBranch := [], nIndex := -1 }, 0)
    else
      let vMerkleBranch := (block.getMerkleBranch env.crypto [] (Int32.ofNat nIndex)).getD []
      ({ tx with hashBlock, vMerkleBranch, nIndex := Int32.ofNat nIndex }, node.depthOfBlock hashBlock)

/-- The depth of a transaction, which does not depend on what is known of its block. -/
def txDepth (tx : CTransaction) : ℤ :=
  (node.setMerkleBranch env { tx with hashBlock := 0, vMerkleBranch := [], nIndex := -1 }).2

variable {env node}

/-- The transaction itself is not changed. -/
theorem setMerkleBranch_tx (tx : CMerkleTx) :
  (node.setMerkleBranch env tx).1.toCTransaction = tx.toCTransaction
  := by
  rw [setMerkleBranch]
  split
  · rfl
  · dsimp only
    split_ifs
    · rfl
    · rfl

theorem setMerkleBranch_depth (tx : CMerkleTx) :
  (node.setMerkleBranch env tx).2 = node.txDepth env tx.toCTransaction
  := by
  rw [txDepth, setMerkleBranch, setMerkleBranch]
  dsimp only
  cases node.txdb.txIndex[tx.getHash env.crypto]?.bind
      (fun txindex => node.readBlockOf env txindex.pos) with
  | none => rfl
  | some block => dsimp only

end Node

/-! ## AddSupportingTransactions -/

/-- A transaction of this depth needs no copies. -/
def COPY_DEPTH : ℤ := 3

/-- The transactions that a transaction spends from. -/
def CTransaction.prevHashes (tx : CTransaction) : List uint256 := tx.vin.map (fun txin => txin.prevout.hash)

namespace TxWallet

variable (env : Env) (node : Node) (w : TxWallet)

/-- The copies that a transaction of the wallet carries, the last one first. -/
def copiesOf (hash : uint256) : List CMerkleTx :=
  match w.mapWallet[hash]? with
  | none => []
  | some prev => prev.vtxPrev.reverse

/-- Where a previous transaction is looked for.  Of copies with one hash the last one is in the map. -/
def findPrev (mapWalletPrev : List CMerkleTx) (hash : uint256) : Option CMerkleTx :=
  match w.mapWallet[hash]? with
  | some prev => some prev.toCMerkleTx
  | none => (mapWalletPrev.find? (fun tx => tx.getHash env.crypto == hash)).or (node.readDiskTx hash)

/-- The loop over the work queue; `none` when it uses an iterator that is no longer valid. -/
def supportLoop : List uint256 → List uint256 → List CMerkleTx → List CMerkleTx →
    Option (List CMerkleTx)
  | [], _, _, vtxPrev => some vtxPrev
  | hash :: vWorkQueue, setAlreadyDone, mapWalletPrev, vtxPrev =>
    if hash ∈ setAlreadyDone then supportLoop vWorkQueue setAlreadyDone mapWalletPrev vtxPrev
    else
      let setAlreadyDone := hash :: setAlreadyDone
      let mapWalletPrev := w.copiesOf hash ++ mapWalletPrev
      match w.findPrev env node mapWalletPrev hash with
      | none => supportLoop vWorkQueue setAlreadyDone mapWalletPrev vtxPrev
      | some tx =>
        let (tx, nDepth) := node.setMerkleBranch env tx
        -- the first `push_back` invalidates the end of the range that the loop compares with
        if nDepth < COPY_DEPTH ∧ tx.vin ≠ [] then none
        else supportLoop vWorkQueue setAlreadyDone mapWalletPrev (vtxPrev ++ [tx])

/-- `CWalletTx::AddSupportingTransactions` -/
def addSupportingTransactions (wtx : CWalletTx) : Option CWalletTx :=
  let (tx, nDepth) := node.setMerkleBranch env wtx.toCMerkleTx
  let wtx := { wtx with toCMerkleTx := tx, vtxPrev := [] }
  if nDepth < COPY_DEPTH then
    (w.supportLoop env node wtx.prevHashes [] [] []).map
      (fun vtxPrev => { wtx with vtxPrev := vtxPrev.reverse })
  else some wtx

end TxWallet

/-! ## Known transactions -/

/-- The transactions that a wallet knows: its own, the copies that these carry, and those on disk.  Each
is known under its hash, and no two have the same one. -/
structure KnownTxs (env : Env) (node : Node) (w : TxWallet) where
  known : uint256 → Option CTransaction
  getHash_eq : ∀ hash tx, known hash = some tx → tx.getHash env.crypto = hash
  of_wallet : ∀ (hash : uint256) (prev : CWalletTx), w.mapWallet[hash]? = some prev → known hash = some prev.toCTransaction
  of_copy : ∀ (hash : uint256) (prev : CWalletTx) (tx : CMerkleTx), w.mapWallet[hash]? = some prev →
    tx ∈ prev.vtxPrev → known (tx.getHash env.crypto) = some tx.toCTransaction
  of_disk : ∀ hash (tx : CMerkleTx), node.readDiskTx hash = some tx → known hash = some tx.toCTransaction
  sources : ∀ hash : uint256, (known hash).isSome →
    (w.mapWallet[hash]?).isSome
      ∨ (∃ (own : uint256) (prev : CWalletTx) (tx : CMerkleTx), w.mapWallet[own]? = some prev
        ∧ tx ∈ prev.vtxPrev ∧ tx.getHash env.crypto = hash)
      ∨ (node.readDiskTx hash).isSome

namespace KnownTxs

variable {env : Env} {node : Node} {w : TxWallet} (graph : KnownTxs env node w)

/-- One transaction spends from another one. -/
def Spends (hash prev : uint256) : Prop := ∃ tx, graph.known hash = some tx ∧ prev ∈ tx.prevHashes

/-- The first transaction is an ancestor of the second one. -/
def Ancestor (prev hash : uint256) : Prop := TransGen graph.Spends hash prev

/-- What a transaction depends on through transactions that are not deep. -/
inductive Reaches (wtx : CTransaction) : uint256 → Prop where
  | direct {hash : uint256} : hash ∈ wtx.prevHashes → Reaches wtx hash
  | through {hash prev : uint256} {tx : CTransaction} :
    Reaches wtx hash → graph.known hash = some tx → node.txDepth env tx < COPY_DEPTH →
      prev ∈ tx.prevHashes → Reaches wtx prev

/-- The supporting transactions of a transaction: the known ones that it reaches, each once and behind
its ancestors. -/
structure Supports (wtx : CTransaction) (vtxPrev : List CMerkleTx) : Prop where
  known : ∀ tx ∈ vtxPrev, graph.known (tx.getHash env.crypto) = some tx.toCTransaction
  mem_iff : ∀ hash, hash ∈ vtxPrev.map (fun tx => tx.getHash env.crypto)
    ↔ graph.Reaches wtx hash ∧ (graph.known hash).isSome
  nodup : (vtxPrev.map (fun tx => tx.getHash env.crypto)).Nodup
  ordered : (vtxPrev.map (fun tx => tx.getHash env.crypto)).Pairwise
    (fun first second => ¬graph.Ancestor second first)

/-- A transaction that has the depth, or nothing before it. -/
def Deep (hash : uint256) : Prop :=
  ∀ tx, graph.known hash = some tx → COPY_DEPTH ≤ node.txDepth env tx ∨ tx.vin = []

/-- A transaction is found when it is in the wallet or on disk, or was copied into a transaction of the
wallet that is spent from before it. -/
def Found (_ : KnownTxs env node w) (before : List uint256) (hash : uint256) : Prop :=
  (w.mapWallet[hash]?).isSome ∨ (node.readDiskTx hash).isSome
    ∨ ∃ own ∈ before, ∃ (prev : CWalletTx) (tx : CMerkleTx), w.mapWallet[own]? = some prev
      ∧ tx ∈ prev.vtxPrev ∧ tx.getHash env.crypto = hash

/-- What is needed of a known transaction, given those that are spent from before it. -/
structure Ready (before : List uint256) (hash : uint256) : Prop where
  deep : graph.Deep hash
  found : graph.Found before hash
  ordered : ∀ prev ∈ before, (graph.known prev).isSome → ¬graph.Ancestor prev hash

/-! ## What the loop finds -/

variable {graph}

/-- The copies that have been collected are those of the transactions that were met. -/
def Collected (_ : KnownTxs env node w) (before : List uint256) (mapWalletPrev : List CMerkleTx) : Prop :=
  ∀ tx : CMerkleTx, tx ∈ mapWalletPrev ↔ ∃ own ∈ before, ∃ prev : CWalletTx, w.mapWallet[own]? = some prev
    ∧ tx ∈ prev.vtxPrev

variable {hash : uint256}

theorem mem_copiesOf {tx : CMerkleTx} :
  tx ∈ w.copiesOf hash ↔ ∃ prev : CWalletTx, w.mapWallet[hash]? = some prev ∧ tx ∈ prev.vtxPrev
  := by
  rw [TxWallet.copiesOf]
  cases w.mapWallet[hash]? with
  | none => simp
  | some prev => simp

theorem Collected.next {before : List uint256} {mapWalletPrev : List CMerkleTx} {hash : uint256}
    (h : graph.Collected before mapWalletPrev) :
  graph.Collected (before ++ [hash]) (w.copiesOf hash ++ mapWalletPrev)
  := by
  intro tx
  rw [List.mem_append, mem_copiesOf, h tx]
  constructor
  · rintro (hcopy | ⟨own, hown, hcopy⟩)
    · use hash
      exact ⟨List.mem_append_right _ List.mem_cons_self, hcopy⟩
    · use own
      exact ⟨List.mem_append_left _ hown, hcopy⟩
  · rintro ⟨own, hown, hcopy⟩
    rcases List.mem_append.mp hown with hown | hown
    · exact .inr ⟨own, hown, hcopy⟩
    · rw [List.mem_singleton.mp hown] at hcopy
      exact .inl hcopy

variable {before : List uint256} {mapWalletPrev : List CMerkleTx}

/-- What is collected again for a transaction that was met adds nothing. -/
theorem Collected.same
    (h : graph.Collected before mapWalletPrev) (hmet : hash ∈ before) :
  graph.Collected (before ++ [hash]) mapWalletPrev
  := by
  intro tx
  rw [h tx]
  apply exists_congr
  intro own
  rw [List.mem_append, List.mem_singleton, or_iff_left_of_imp]
  rintro rfl
  exact hmet

/-- What is found for a hash is the known transaction. -/
theorem known_of_findPrev
    {tx : CMerkleTx} (hcollected : graph.Collected before mapWalletPrev)
    (h : w.findPrev env node mapWalletPrev hash = some tx) :
  graph.known hash = some tx.toCTransaction
  := by
  rw [TxWallet.findPrev] at h
  cases hwallet : w.mapWallet[hash]? with
  | some prev =>
    rw [hwallet] at h
    rw [← Option.some.inj h]
    apply graph.of_wallet hash prev hwallet
  | none =>
    rw [hwallet] at h
    rcases Option.or_eq_some_iff.mp h with hcopy | ⟨-, hdisk⟩
    · obtain ⟨own, -, prev, hprev, hmem⟩ := (hcollected tx).mp (List.mem_of_find?_eq_some hcopy)
      have hhash : tx.getHash env.crypto = hash := by
        have hfound := List.find?_some hcopy
        apply beq_iff_eq.mp hfound
      rw [← hhash]
      apply graph.of_copy own prev tx hprev hmem
    · apply graph.of_disk hash tx hdisk

/-- Something is found exactly when it should be. -/
theorem isSome_findPrev
    (hcollected : graph.Collected (before ++ [hash]) mapWalletPrev) :
  (w.findPrev env node mapWalletPrev hash).isSome ↔ graph.Found before hash
  := by
  rw [TxWallet.findPrev, Found]
  cases hwallet : w.mapWallet[hash]? with
  | some prev => simp
  | none =>
    rw [Option.isSome_or, Bool.or_eq_true, List.find?_isSome, or_comm]
    simp only [Option.isSome_none, Bool.false_eq_true, false_or, beq_iff_eq]
    apply or_congr_right
    constructor
    · rintro ⟨tx, hmem, hhash⟩
      obtain ⟨own, hown, prev, hprev, hcopy⟩ := (hcollected tx).mp hmem
      rcases List.mem_append.mp hown with hown | hown
      · exact ⟨own, hown, prev, tx, hprev, hcopy, hhash⟩
      · rw [List.mem_singleton.mp hown, hwallet] at hprev
        cases hprev
    · rintro ⟨own, hown, prev, tx, hprev, hcopy, hhash⟩
      exact ⟨tx, (hcollected tx).mpr ⟨own, List.mem_append_left _ hown, prev, hprev, hcopy⟩, hhash⟩

theorem known_of_found (h : graph.Found before hash) :
  (graph.known hash).isSome
  := by
  rcases h with hwallet | hdisk | ⟨own, -, prev, tx, hprev, hcopy, rfl⟩
  · obtain ⟨prev, hprev⟩ := Option.isSome_iff_exists.mp hwallet
    rw [graph.of_wallet hash prev hprev]
    rfl
  · obtain ⟨tx, htx⟩ := Option.isSome_iff_exists.mp hdisk
    rw [graph.of_disk hash tx htx]
    rfl
  · rw [graph.of_copy own prev tx hprev hcopy]
    rfl

open FirstVisits in
/-- The loop adds what it finds where it first meets it, if all that is deep, and otherwise goes wrong. -/
theorem supportLoop_spec
    {vWorkQueue before setAlreadyDone : List uint256} {mapWalletPrev vtxPrev : List CMerkleTx}
    (hdone : ∀ hash, hash ∈ setAlreadyDone ↔ hash ∈ before)
    (hcollected : graph.Collected before mapWalletPrev) :
  (w.supportLoop env node vWorkQueue setAlreadyDone mapWalletPrev vtxPrev = none
      ∧ ∃ hash ∈ kept graph.Found before vWorkQueue, ¬graph.Deep hash)
    ∨ ∃ added, w.supportLoop env node vWorkQueue setAlreadyDone mapWalletPrev vtxPrev
        = some (vtxPrev ++ added)
      ∧ (∀ hash ∈ kept graph.Found before vWorkQueue, graph.Deep hash)
      ∧ added.map (fun tx => tx.getHash env.crypto) = kept graph.Found before vWorkQueue
      ∧ ∀ tx ∈ added, graph.known (tx.getHash env.crypto) = some tx.toCTransaction
  := by
  induction vWorkQueue generalizing before setAlreadyDone mapWalletPrev vtxPrev with
  | nil =>
    right
    use []
    rw [List.append_nil]
    refine ⟨rfl, ?_, rfl, ?_⟩
    · intro hash hmem
      cases hmem
    · intro tx hmem
      cases hmem
  | cons hash vWorkQueue ih =>
    have hnext : ∀ a, a ∈ hash :: setAlreadyDone ↔ a ∈ before ++ [hash] := by
      intro a
      rw [List.mem_cons, List.mem_append, List.mem_singleton, hdone, or_comm]
    rw [TxWallet.supportLoop]
    by_cases hmet : hash ∈ before
    · -- met before
      rw [if_pos ((hdone hash).mpr hmet), kept_cons_of_not (fun h => h.1 hmet)]
      apply ih _ (hcollected.same hmet)
      intro a
      rw [hdone, List.mem_append, List.mem_singleton, or_iff_left_of_imp]
      rintro rfl
      exact hmet
    · rw [if_neg (mt (hdone hash).mp hmet)]
      have hcollected' := @Collected.next _ _ _ _ _ _ hash hcollected
      have hfound := isSome_findPrev hcollected'
      dsimp only
      cases hfind : w.findPrev env node (w.copiesOf hash ++ mapWalletPrev) hash with
      | none =>
        -- not found
        rw [hfind] at hfound
        rw [kept_cons_of_not (fun h => absurd (hfound.mpr h.2) Bool.false_ne_true)]
        apply ih hnext hcollected'
      | some tx =>
        rw [hfind] at hfound
        have hknown := known_of_findPrev hcollected' hfind
        have hhash := graph.getHash_eq _ _ hknown
        rw [kept_cons_of_accepts hmet (hfound.mp rfl)]
        dsimp only
        rw [node.setMerkleBranch_depth tx, node.setMerkleBranch_tx tx]
        split_ifs with hshallow
        · left
          refine ⟨rfl, hash, List.mem_cons_self, ?_⟩
          intro hdeep
          rcases hdeep _ hknown with hdepth | hvin
          · exact absurd hshallow.1 (Int.not_lt.mpr hdepth)
          · exact hshallow.2 hvin
        · have hdeep : graph.Deep hash := by
            intro tx' htx'
            obtain rfl := Option.some.inj (hknown.symm.trans htx')
            rw [not_and_or, Int.not_lt, not_not] at hshallow
            exact hshallow
          rcases @ih _ _ _ (vtxPrev ++ [(node.setMerkleBranch env tx).1]) hnext hcollected' with
            ⟨hnone, a, ha, hshallow'⟩ | ⟨added, hsome, hall, hmap, hadded⟩
          · left
            exact ⟨hnone, a, List.mem_cons_of_mem _ ha, hshallow'⟩
          · right
            use (node.setMerkleBranch env tx).1 :: added
            rw [hsome, List.append_assoc, List.singleton_append, List.map_cons, hmap,
              List.forall_mem_cons, List.forall_mem_cons, node.setMerkleBranch_tx tx, hhash]
            exact ⟨rfl, ⟨hdeep, hall⟩, rfl, hknown, hadded⟩

/-- Where everything that is kept is deep, nothing but what is spent from directly is reached. -/
theorem mem_prevHashes_of_reaches
    {wtx : CTransaction} (hdeep : ∀ hash ∈ wtx.prevHashes, graph.Deep hash)
    (h : graph.Reaches wtx hash) :
  hash ∈ wtx.prevHashes
  := by
  induction h with
  | direct hmem => exact hmem
  | through _ hknown hshallow hprev ih =>
    rcases hdeep _ ih _ hknown with hdepth | hvin
    · exact absurd hshallow (Int.not_lt.mpr hdepth)
    · rw [CTransaction.prevHashes, hvin] at hprev
      cases hprev

/-- What is found where it is first met is known, and spent from. -/
theorem of_mem_kept
    {wtx : CTransaction} (h : hash ∈ FirstVisits.kept graph.Found [] wtx.prevHashes) :
  hash ∈ wtx.prevHashes ∧ (graph.known hash).isSome
  := by
  obtain ⟨front, back, -, -, hfound⟩ := FirstVisits.mem_kept.mp h
  exact ⟨FirstVisits.mem_of_mem_kept h, known_of_found hfound⟩

section Ready

variable {wtx : CTransaction} {vtxPrev : List CMerkleTx}

/-- Where every known transaction that is spent from is ready, all of them are found and deep. -/
theorem kept_of_ready
    (h : ∀ before hash after, wtx.prevHashes = before ++ hash :: after → hash ∉ before →
      (graph.known hash).isSome → graph.Ready before hash)
    {hash : uint256} (hmem : hash ∈ wtx.prevHashes) (hknown : (graph.known hash).isSome) :
  hash ∈ FirstVisits.kept graph.Found [] wtx.prevHashes ∧ graph.Deep hash
  := by
  obtain ⟨before, after, hsplit, hnew⟩ := List.eq_append_cons_of_mem hmem
  have hready := h before hash after hsplit hnew hknown
  refine ⟨FirstVisits.mem_kept.mpr ⟨before, after, hsplit, ?_, ?_⟩, hready.deep⟩
  · exact hnew
  · exact hready.found

/-- What the loop found supports a transaction when what that spends from is ready. -/
theorem supports_of_ready
    (hmap : vtxPrev.map (fun tx => tx.getHash env.crypto)
      = FirstVisits.kept graph.Found [] wtx.prevHashes)
    (hknown : ∀ tx ∈ vtxPrev, graph.known (tx.getHash env.crypto) = some tx.toCTransaction)
    (h : ∀ before hash after, wtx.prevHashes = before ++ hash :: after → hash ∉ before →
      (graph.known hash).isSome → graph.Ready before hash) :
  graph.Supports wtx vtxPrev.reverse
  := by
  have hdeep : ∀ hash ∈ wtx.prevHashes, graph.Deep hash := by
    intro hash hmem tx htx
    apply (kept_of_ready h hmem (by rw [htx]; rfl)).2 tx htx
  constructor
  · intro tx hmem
    apply hknown tx (List.mem_reverse.mp hmem)
  · intro hash
    rw [List.map_reverse, List.mem_reverse, hmap]
    constructor
    · intro hmem
      obtain ⟨hprev, hsome⟩ := of_mem_kept hmem
      exact ⟨.direct hprev, hsome⟩
    · rintro ⟨hreach, hsome⟩
      exact (kept_of_ready h (mem_prevHashes_of_reaches hdeep hreach) hsome).1
  · rw [List.map_reverse, List.nodup_reverse, hmap]
    apply FirstVisits.nodup_kept
  · rw [List.map_reverse, List.pairwise_reverse, hmap, FirstVisits.pairwise_kept]
    intro front hash back hsplit hnew hfound prev hprev
    obtain ⟨_, _, _, _, hprevFound⟩ := FirstVisits.mem_kept.mp hprev
    apply (h front hash back hsplit hnew (known_of_found hfound)).ordered prev
    · apply FirstVisits.mem_of_mem_kept hprev
    · apply known_of_found hprevFound

/-- What a transaction spends from is ready when what the loop found supports it. -/
theorem ready_of_supports
    (hmap : vtxPrev.map (fun tx => tx.getHash env.crypto)
      = FirstVisits.kept graph.Found [] wtx.prevHashes)
    (hdeep : ∀ hash ∈ FirstVisits.kept graph.Found [] wtx.prevHashes, graph.Deep hash)
    (h : graph.Supports wtx vtxPrev.reverse)
    {before after : List uint256} {hash : uint256} (hsplit : wtx.prevHashes = before ++ hash :: after)
    (hnew : hash ∉ before) (hknown : (graph.known hash).isSome) :
  graph.Ready before hash
  := by
  have hkept : ∀ {prev : uint256}, prev ∈ wtx.prevHashes → (graph.known prev).isSome →
      prev ∈ FirstVisits.kept graph.Found [] wtx.prevHashes := by
    intro prev hprev hsome
    rw [← hmap, ← List.mem_reverse, ← List.map_reverse]
    apply (h.mem_iff prev).mpr ⟨.direct hprev, hsome⟩
  have hmem : hash ∈ wtx.prevHashes := by
    rw [hsplit]
    apply List.mem_append_right _ List.mem_cons_self
  have hfound : graph.Found before hash := by
    have hall := hkept hmem hknown
    rw [hsplit] at hall
    apply FirstVisits.accepts_of_mem_kept hnew hall
  refine ⟨hdeep hash (hkept hmem hknown), hfound, ?_⟩
  intro prev hprev hsome
  have hordered := h.ordered
  rw [List.map_reverse, List.pairwise_reverse, hmap, FirstVisits.pairwise_kept] at hordered
  apply hordered before hash after hsplit hnew hfound
  have hall := hkept (by rw [hsplit]; exact List.mem_append_left _ hprev) hsome
  rw [hsplit, FirstVisits.kept_append] at hall
  rcases List.mem_append.mp hall with hfirst | hlater
  · exact hfirst
  · exact absurd hprev (FirstVisits.not_mem_before hlater)

end Ready

/-- Of a transaction that is not deep, `AddSupportingTransactions` collects the supporting transactions
exactly when each known one that it spends from is ready where it is first met. -/
theorem addSupportingTransactions_iff
    (graph : KnownTxs env node w) (wtx : CWalletTx)
    (hshallow : node.txDepth env wtx.toCTransaction < COPY_DEPTH) :
  (∃ wtx', w.addSupportingTransactions env node wtx = some wtx'
      ∧ graph.Supports wtx.toCTransaction wtx'.vtxPrev)
    ↔ ∀ before hash after, wtx.prevHashes = before ++ hash :: after → hash ∉ before →
      (graph.known hash).isSome → graph.Ready before hash
  := by
  have hcall : w.addSupportingTransactions env node wtx
      = (w.supportLoop env node wtx.prevHashes [] [] []).map (fun vtxPrev =>
        { wtx with
          toCMerkleTx := (node.setMerkleBranch env wtx.toCMerkleTx).1
          vtxPrev := vtxPrev.reverse }) := by
    rw [TxWallet.addSupportingTransactions]
    dsimp only
    rw [if_pos (by rwa [node.setMerkleBranch_depth]), CTransaction.prevHashes, CTransaction.prevHashes,
      node.setMerkleBranch_tx]
  have hcollected : graph.Collected [] [] := by
    intro tx
    simp
  rcases @supportLoop_spec _ _ _ graph wtx.prevHashes [] [] [] [] (fun _ => Iff.rfl) hcollected with
    ⟨hnone, hash, hmem, hnot⟩ | ⟨vtxPrev, hsome, hdeep, hmap, hknown⟩
  · rw [hcall, hnone]
    constructor
    · rintro ⟨wtx', hcontra, -⟩
      cases hcontra
    · intro hready
      obtain ⟨hprev, hknown⟩ := of_mem_kept hmem
      exact absurd (kept_of_ready hready hprev hknown).2 hnot
  · rw [hcall, hsome, List.nil_append]
    constructor
    · rintro ⟨wtx', hwtx', hsupports⟩ before hash after hsplit hnew hsome
      obtain rfl := Option.some.inj hwtx'
      apply ready_of_supports hmap hdeep hsupports hsplit hnew hsome
    · intro hready
      exact ⟨_, rfl, supports_of_ready hmap hknown hready⟩

/-- A wallet transaction that is not in a block yet. -/
def unconfirmedTx : CWalletTx :=
  { sampleSpend 6 1 with
    hashBlock := 0, vMerkleBranch := [], nIndex := -1, vtxPrev := [], strFromAccount := "",
    vfSpent := [false], debitCached := none, creditCached := none, availableCreditCached := none,
    changeCached := none }

/-- A transaction that spends it. -/
def spendUnconfirmedTx : CWalletTx :=
  { unconfirmedTx with
    toCTransaction := sampleSpend (unconfirmedTx.getHash sampleCrypto) 1 }

/-- The wallet of the first transaction. -/
def unconfirmedWallet : TxWallet where
  keystore := ⟨fun _ => false, fun _ => none, fun _ => none, ∅⟩
  mapWallet := (∅ : ExtTreeMap uint256 CWalletTx).insert (unconfirmedTx.getHash sampleCrypto) unconfirmedTx
  mapAddressBook := ∅
  acentries := []

theorem mapWallet_unconfirmedWallet {prev : CWalletTx}
    (h : unconfirmedWallet.mapWallet[hash]? = some prev) :
  unconfirmedTx.getHash sampleCrypto = hash ∧ prev = unconfirmedTx
  := by
  rw [unconfirmedWallet, TreeMap.getElem?_insert_ite] at h
  split_ifs at h with hhash
  · exact ⟨hhash, (Option.some.inj h).symm⟩
  · simp at h

/-- What this wallet knows where nothing is on disk. -/
def unconfirmedGraph : KnownTxs sampleEnv Node.empty unconfirmedWallet where
  known hash :=
    if unconfirmedTx.getHash sampleCrypto = hash then some unconfirmedTx.toCTransaction else none
  getHash_eq hash tx h := by
    split_ifs at h with hhash
    rw [← Option.some.inj h]
    exact hhash
  of_wallet hash prev h := by
    obtain ⟨hhash, rfl⟩ := mapWallet_unconfirmedWallet h
    rw [if_pos hhash]
  of_copy hash prev tx h hmem := by
    obtain ⟨-, rfl⟩ := mapWallet_unconfirmedWallet h
    cases hmem
  of_disk hash tx h := by
    simp [Node.readDiskTx, Node.empty, CTxDB.empty] at h
  sources hash h := by
    left
    split_ifs at h with hhash
    · rw [unconfirmedWallet, TreeMap.getElem?_insert_ite, if_pos hhash]
      rfl
    · cases h

/-- Nothing is in a block where nothing is on disk. -/
theorem txDepth_empty (tx : CTransaction) :
  Node.empty.txDepth sampleEnv tx = 0
  := by
  simp [Node.txDepth, Node.setMerkleBranch, Node.empty, CTxDB.empty]

/-- A wallet of no transactions. -/
def emptyWallet : TxWallet := { unconfirmedWallet with mapWallet := ∅ }

/-- It knows what is on disk. -/
def onDisk
    (hdisk : ∀ p ∈ node.txdb.txIndex.toList, ∀ tx ∈ node.files.readTx p.2.pos, tx.getHash env.crypto = p.1) :
  KnownTxs env node emptyWallet where
  known hash := (node.readDiskTx hash).map CMerkleTx.toCTransaction
  getHash_eq hash tx h := by
    simp only [Node.readDiskTx, Option.bind_eq_bind, Option.map_eq_some_iff, Option.bind_eq_some_iff] at h
    obtain ⟨_, ⟨txindex, hget, tx', hread, heq⟩, rfl⟩ := h
    obtain rfl := Option.some.inj heq
    exact hdisk ⟨hash, txindex⟩ (ExtTreeMap.mem_toList_iff_getElem?_eq_some.mpr hget) tx' hread
  of_wallet hash prev h := by simp [emptyWallet] at h
  of_copy hash prev tx h := by simp [emptyWallet] at h
  of_disk hash tx h := by rw [h, Option.map_some]
  sources hash h := Or.inr (Or.inr (by simpa using h))

/-- The coinbase of the lower block. -/
def lowHash : uint256 := (sampleCoinbase [1, 1] 1000).getHash sampleCrypto

/-- A transaction that spends it. -/
def spendLowTx : CWalletTx := { unconfirmedTx with toCTransaction := sampleSpend lowHash 900 }

/-- With two blocks on top of the lower one its coinbase is deep, and it is collected. -/
theorem spendLowTx_supported :
  ∃ start, Node.load sampleEnv Node.sampleIo = some start ∧
    let node := Transition.run (Node.step sampleEnv) start (Node.returnOps.take 3)
    ∃ (graph : KnownTxs sampleEnv node emptyWallet) (wtx' : CWalletTx),
      emptyWallet.addSupportingTransactions sampleEnv node spendLowTx = some wtx'
        ∧ graph.Supports spendLowTx.toCTransaction wtx'.vtxPrev
        ∧ lowHash ∈ wtx'.vtxPrev.map (fun tx => tx.getHash sampleCrypto)
  := by
  have heval : (Node.load sampleEnv Node.sampleIo).map (fun start =>
      let node := Transition.run (Node.step sampleEnv) start (Node.returnOps.take 3)
      decide ((∀ p ∈ node.txdb.txIndex.toList, ∀ tx ∈ node.files.readTx p.2.pos,
          tx.getHash sampleEnv.crypto = p.1)
        ∧ node.txDepth sampleEnv spendLowTx.toCTransaction < COPY_DEPTH
        ∧ ∃ tx ∈ node.readDiskTx lowHash, COPY_DEPTH ≤ node.txDepth sampleEnv tx.toCTransaction)) = some true := by
    decide +kernel
  obtain ⟨start, hload, hdecided⟩ := Option.map_eq_some_iff.mp heval
  obtain ⟨hdisk, hshallow, tx, hread, hdepth⟩ := of_decide_eq_true hdecided
  have hknown := (onDisk hdisk).of_disk lowHash tx hread
  have hready : ∀ before hash after, spendLowTx.prevHashes = before ++ hash :: after → hash ∉ before →
      ((onDisk hdisk).known hash).isSome → (onDisk hdisk).Ready before hash := by
    intro before hash after hsplit _ _
    obtain ⟨rfl, hcons⟩ | ⟨rest, rfl, hcons⟩ := List.append_eq_cons_iff.mp hsplit.symm
    · obtain rfl : hash = lowHash := (List.cons.inj hcons).1
      refine ⟨?_, Or.inr (Or.inl (by rw [hread]; rfl)), fun _ hbefore => absurd hbefore List.not_mem_nil⟩
      intro tx' htx'
      obtain rfl := Option.some.inj (hknown.symm.trans htx')
      exact Or.inl hdepth
    · simp at hcons
  obtain ⟨wtx', hsome, hsupports⟩ :=
    (addSupportingTransactions_iff (onDisk hdisk) spendLowTx hshallow).mpr hready
  refine ⟨start, hload, onDisk hdisk, wtx', hsome, hsupports, (hsupports.mem_iff _).mpr ⟨?_, ?_⟩⟩
  · exact .direct (List.mem_singleton_self _)
  · rw [hknown]
    rfl

/-- The wallet spends an output of a transaction that is not in a block yet. -/
theorem spendUnconfirmedTx_not_supported :
  Node.empty.txDepth sampleEnv spendUnconfirmedTx.toCTransaction < COPY_DEPTH
    ∧ ¬∃ wtx', unconfirmedWallet.addSupportingTransactions sampleEnv Node.empty spendUnconfirmedTx
        = some wtx' ∧ unconfirmedGraph.Supports spendUnconfirmedTx.toCTransaction wtx'.vtxPrev
  := by
  constructor
  · rw [txDepth_empty]
    decide
  · rintro ⟨wtx', hwtx', -⟩
    have hnone : unconfirmedWallet.addSupportingTransactions sampleEnv Node.empty spendUnconfirmedTx = none := by
      decide +kernel
    rw [hnone] at hwtx'
    cases hwtx'

end KnownTxs

end CorgiCoin
