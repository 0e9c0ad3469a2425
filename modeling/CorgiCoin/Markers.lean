import CorgiCoin.Flags
import CorgiCoin.Tip

/-!
# A marker that cannot be stored

`InvalidateBlock` and `ReconsiderBlock` change the set of invalidated blocks and the flags before
they write the set to the database.  When that write fails, `InvalidateBlock` takes its mark back;
`ReconsiderBlock` leaves the marks it has lifted lifted.
-/

namespace CorgiCoin.Node

open Std

/-- The set of invalidated blocks and the flags of all indexed blocks are what they were. -/
structure SameMarks (node node' : Node) : Prop where
  setInvalidatedBlocks : node'.setInvalidatedBlocks = node.setInvalidatedBlocks
  fFailedChain : ∀ (hash : uint256) (pindex : CBlockIndex),
    node.mapBlockIndex[hash]? = some pindex → node'.fFailedChain pindex = node.fFailedChain pindex

section Markers

variable {env : Env} {io : Io} {node node' : Node} {pindex : CBlockIndex}

theorem SameMarks.refl (node : Node) : SameMarks node node := ⟨rfl, fun _ _ _ => rfl⟩

/-- After the flags are updated for the same set, they are what they were if they were exact. -/
theorem Keyed.sameMarks_iff
    (h : node.Keyed) (hmap : node'.mapBlockIndex = node.mapBlockIndex)
    (hset : node'.setInvalidatedBlocks = node.setInvalidatedBlocks) :
  SameMarks node node'.updateFailedChainFlags ↔ node.FlagsExact
  := by
  have hexact := h.flagsExact hmap
  have hset' : node'.updateFailedChainFlags.setInvalidatedBlocks = node.setInvalidatedBlocks := hset
  constructor
  · intro hsame hash pindex hget
    rw [← hsame.fFailedChain hash pindex hget, ← hset']
    apply hexact hash pindex
    rw [← hget, ← hmap]
    rfl
  · intro hflags
    refine ⟨hset', ?_⟩
    intro hash pindex hget
    rw [hflags hash pindex hget, ← hset']
    apply hexact hash pindex
    rw [← hget, ← hmap]
    rfl

/-! ## Invalidating -/

/-- Without the write, `InvalidateBlock` ends with the set it started with and updated flags. -/
theorem invalidateBlock_of_not_writesSet
    (hwrites : io.writesSet = false) {pprev : CBlockIndex} (hpprev : pindex.pprev = some pprev) :
  ∃ node' : Node, node.invalidateBlock env io pindex = (node'.updateFailedChainFlags, false)
    ∧ node'.mapBlockIndex = node.mapBlockIndex
    ∧ node'.setInvalidatedBlocks = node.setInvalidatedBlocks
  := by
  simp only [invalidateBlock, hpprev, hwrites, Bool.not_false, if_true]
  cases hmarked : node.setInvalidatedBlocks.contains pindex.getBlockHash with
  | true =>
    refine ⟨node.markInvalidated pindex, by rw [if_pos rfl], rfl, ?_⟩
    apply TreeMap.insert_of_getElem?
    rw [ExtTreeMap.contains_iff_mem] at hmarked
    rw [ExtTreeMap.getElem?_eq_some_getElem hmarked]
  | false =>
    refine ⟨{ node.markInvalidated pindex with
      setInvalidatedBlocks :=
        (node.setInvalidatedBlocks.insert pindex.getBlockHash ()).erase pindex.getBlockHash },
      by rw [if_neg Bool.false_ne_true]; rfl, rfl, ?_⟩
    apply TreeMap.erase_insert
    apply ExtTreeMap.getElem?_eq_none
    rw [← ExtTreeMap.contains_iff_mem, hmarked]
    exact Bool.false_ne_true

/-! ## Reconsidering -/

theorem mem_foldl_erase
    (entries : List CBlockIndex) (set : ExtTreeMap uint256 Unit compare) (hash : uint256) :
  hash ∈ entries.foldl (fun set (p : CBlockIndex) => set.erase p.getBlockHash) set ↔
    hash ∈ set ∧ ∀ p ∈ entries, p.getBlockHash ≠ hash
  := by
  induction entries generalizing set with
  | nil => simp
  | cons p entries ih =>
    rw [List.foldl_cons, ih, TreeMap.mem_erase_iff, List.forall_mem_cons]
    tauto

/-- Lifting the marks of some blocks changes nothing when none of them is marked. -/
theorem foldl_erase_eq_iff (entries : List CBlockIndex) (set : ExtTreeMap uint256 Unit compare) :
  entries.foldl (fun set (p : CBlockIndex) => set.erase p.getBlockHash) set = set ↔
    entries.any (fun p => set.contains p.getBlockHash) = false
  := by
  rw [List.any_eq_false]
  constructor
  · intro heq p hp hcontains
    rw [ExtTreeMap.contains_iff_mem, ← heq, mem_foldl_erase] at hcontains
    exact hcontains.2 p hp rfl
  · intro hnone
    apply ExtTreeMap.ext_mem_unit
    intro hash
    rw [mem_foldl_erase]
    constructor
    · exact And.left
    · intro hmem
      refine ⟨hmem, ?_⟩
      rintro p hp rfl
      exact hnone p hp (ExtTreeMap.contains_iff_mem.mpr hmem)

/-! ## The marks after a failed write -/

/-- When the set cannot be written, both calls fail.  `InvalidateBlock` restores the marks if the
flags were up to date before, and on the first block does nothing; `ReconsiderBlock` leaves the
marks as they were only if, besides, there was no mark to lift. -/
theorem marks_of_not_writesSet
    (env : Env) {io : Io} {node : Node} (hkeyed : node.Keyed) (hwrites : io.writesSet = false)
    (pindex : CBlockIndex) :
  ((node.invalidateBlock env io pindex).2 = false
      ∧ (SameMarks node (node.invalidateBlock env io pindex).1 ↔
        pindex.pprev = none ∨ node.FlagsExact))
    ∧ ((node.reconsiderBlock env io pindex).2 = false
      ∧ (SameMarks node (node.reconsiderBlock env io pindex).1 ↔
        node.FlagsExact ∧ pindex.invalidatedIn node.setInvalidatedBlocks = false))
  := by
  constructor
  · cases hpprev : pindex.pprev with
    | none =>
      have heq : node.invalidateBlock env io pindex = (node, false) := by
        simp only [invalidateBlock, hpprev]
      rw [heq]
      exact ⟨rfl, iff_of_true (SameMarks.refl node) (Or.inl rfl)⟩
    | some pprev =>
      obtain ⟨node', heq, hmap, hset⟩ :=
        @invalidateBlock_of_not_writesSet env io node pindex hwrites pprev hpprev
      rw [heq]
      refine ⟨rfl, (hkeyed.sameMarks_iff hmap hset).trans ?_⟩
      simp
  · set lifted : Node := { node with
      setInvalidatedBlocks := pindex.chain.foldl
        (fun set (p : CBlockIndex) => set.erase p.getBlockHash) node.setInvalidatedBlocks }
      with hlifted
    have heq : node.reconsiderBlock env io pindex = (lifted.updateFailedChainFlags, false) := by
      simp [reconsiderBlock, hwrites, unmarkChain, hlifted]
    have hmap : lifted.mapBlockIndex = node.mapBlockIndex := rfl
    rw [heq]
    refine ⟨rfl, ?_⟩
    rw [CBlockIndex.invalidatedIn, ← foldl_erase_eq_iff]
    constructor
    · intro hsame
      have hset : lifted.setInvalidatedBlocks = node.setInvalidatedBlocks :=
        hsame.setInvalidatedBlocks
      exact ⟨(hkeyed.sameMarks_iff hmap hset).mp hsame, hset⟩
    · rintro ⟨hflags, hset⟩
      exact (hkeyed.sameMarks_iff hmap hset).mpr hflags

end Markers

/-! ## A mark that is lost -/

/-- The set of invalidated blocks cannot be written. -/
def failingIo : Io := { sampleIo with writesSet := false }

/-- A block is accepted and invalidated. -/
def markedOps : List Op :=
  [.accept sampleIo lowBlock, .invalidate sampleIo (lowBlock.block.getHash sampleEnv)]

/-- Invalidating the block once more, without the write, restores the marks; reconsidering it
without the write does not. -/
theorem markedOps_marks :
  ∃ start, load sampleEnv sampleIo = some start ∧
    let node := Transition.run (step sampleEnv) start markedOps
    ∃ pindex, node.mapBlockIndex[lowBlock.block.getHash sampleEnv]? = some pindex ∧
      ((node.invalidateBlock sampleEnv failingIo pindex).2 = false
        ∧ (SameMarks node (node.invalidateBlock sampleEnv failingIo pindex).1 ↔
          pindex.pprev = none ∨ node.FlagsExact))
      ∧ ((node.reconsiderBlock sampleEnv failingIo pindex).2 = false
        ∧ (SameMarks node (node.reconsiderBlock sampleEnv failingIo pindex).1 ↔
          node.FlagsExact ∧ pindex.invalidatedIn node.setInvalidatedBlocks = false))
  := by
  have heval : (load sampleEnv sampleIo).map (fun start =>
      (Transition.run (step sampleEnv) start markedOps).mapBlockIndex.contains
        (lowBlock.block.getHash sampleEnv)) = some true := by
    decide +kernel
  obtain ⟨start, hload, hcontains⟩ := Option.map_eq_some_iff.mp heval
  have hindexed : (Transition.run (step sampleEnv) start markedOps).Indexed sampleEnv :=
    indexed_run hload markedOps
  rw [ExtTreeMap.contains_iff_mem] at hcontains
  exact ⟨start, hload, _, ExtTreeMap.getElem?_eq_some_getElem hcontains,
    marks_of_not_writesSet sampleEnv hindexed.keyed rfl _⟩

/-- `ReconsiderBlock` fails and has lifted the mark. -/
theorem markedOps_lifted :
  ∃ start, load sampleEnv sampleIo = some start ∧
    let node := Transition.run (step sampleEnv) start markedOps
    ∃ pindex, node.mapBlockIndex[lowBlock.block.getHash sampleEnv]? = some pindex ∧
      (node.reconsiderBlock sampleEnv failingIo pindex).2 = false
      ∧ ¬SameMarks node (node.reconsiderBlock sampleEnv failingIo pindex).1
  := by
  have heval : (load sampleEnv sampleIo).map (fun start =>
      let node := Transition.run (step sampleEnv) start markedOps
      node.mapBlockIndex[lowBlock.block.getHash sampleEnv]?.map (fun pindex =>
        let result := node.reconsiderBlock sampleEnv failingIo pindex
        (result.2, node.setInvalidatedBlocks.contains pindex.getBlockHash,
          result.1.setInvalidatedBlocks.contains pindex.getBlockHash)))
      = some (some (false, true, false)) := by
    decide +kernel
  obtain ⟨start, hload, hrun⟩ := Option.map_eq_some_iff.mp heval
  obtain ⟨pindex, hpindex, hresult⟩ := Option.map_eq_some_iff.mp hrun
  simp only [Prod.mk.injEq] at hresult
  obtain ⟨hfails, hbefore, hafter⟩ := hresult
  refine ⟨start, hload, pindex, hpindex, hfails, ?_⟩
  intro hsame
  rw [hsame.setInvalidatedBlocks, hbefore] at hafter
  cases hafter

end CorgiCoin.Node
