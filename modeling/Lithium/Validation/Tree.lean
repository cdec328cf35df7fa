import Lithium.Validation.Accept

/-!
# What a call can do to the block tree

The inversion lemmas of the development. Marking blocks as failed, linking
blocks that waited for an ancestor and connecting blocks all leave the tree and
the stored blocks alone; besides that a header adds at most one entry, and a
block changes at most its own entry. Every invariant of the node is derived
from these lemmas, never from the definitions again.
-/

namespace Lithium
open Lib BlockStatus Option CBlockIndex
variable {t : NodeState} {hash : Uint256} {block : CBlockHeader} (e : CBlockIndex) (env : ChainEnv)
  (s : NodeState) (minPowChecked : Bool)

/-! ### Status bits -/

/-- Bits outside of a mask do not matter to it. -/
theorem BlockStatus.or_and_of_disjoint (x : UInt32) {bits mask : UInt32} (h : bits &&& mask = 0) :
    (x ||| bits) &&& mask = x &&& mask := by
  rw [or_and, h, UInt32.or_zero]

theorem BlockStatus.haveData_or_self (x : UInt32) : (x ||| haveData) &&& haveData = haveData := by
  rw [← UInt32.toBitVec_inj]
  ext i hi
  simp only [UInt32.toBitVec_and, UInt32.toBitVec_or, BitVec.getElem_and, BitVec.getElem_or]
  grind

namespace CBlockIndex

theorem hasStatus_core : e.core.hasStatus haveData = e.hasStatus haveData := by
  simp [core, hasStatus, UInt32.and_assoc]

@[simp] theorem getBlockHeader_core : e.core.getBlockHeader = e.getBlockHeader := rfl

theorem core_setStatus {bits : UInt32} (h : bits &&& haveData = 0) :
    ({ e with nStatus := e.nStatus ||| bits } : CBlockIndex).core = e.core := by
  simp [core, or_and_of_disjoint _ h]

theorem core_raiseValidity {nUpTo : UInt32} (h : nUpTo &&& haveData = 0) :
    (e.raiseValidity nUpTo).core = e.core := by
  have hclear (x : UInt32) : x &&& ~~~validMask &&& haveData = x &&& haveData := by
    rw [UInt32.and_assoc]
    rfl
  have hassumed (x : UInt32) : x &&& ~~~assumedValid &&& haveData = x &&& haveData := by
    rw [UInt32.and_assoc]
    rfl
  simp only [raiseValidity, core]
  split_ifs <;> simp [or_and_of_disjoint _ h, hclear, hassumed]

end CBlockIndex

namespace NodeState

/-! ### Changes that keep the blocks -/

theorem SameBlocks.refl : s.SameBlocks s := ⟨fun _ => rfl, rfl, fun _ => rfl, rfl, rfl⟩

theorem SameBlocks.trans {s u : NodeState} (hst : s.SameBlocks t) (htu : t.SameBlocks u) :
    s.SameBlocks u where
  entries hash := (htu.entries hash).trans (hst.entries hash)
  files := htu.files.trans hst.files
  fileSizes nFile := (htu.fileSizes nFile).trans (hst.fileSizes nFile)
  fileCount := htu.fileCount.trans hst.fileCount
  lastFile := htu.lastFile.trans hst.lastFile

/-- Only the index and the files matter. -/
theorem SameBlocks.congr {s t' : NodeState} (h : s.SameBlocks t)
    (hidx : t'.blockIndex = t.blockIndex) (hfiles : t'.blockFiles = t.blockFiles)
    (hinfo : t'.blockfileInfo = t.blockfileInfo) (hlast : t'.lastBlockfile = t.lastBlockfile) :
    s.SameBlocks t' where
  entries hash := by
    rw [← h.entries hash, lookupBlockIndex, hidx]
    rfl
  files := hfiles.trans h.files
  fileSizes nFile := by
    rw [← h.fileSizes nFile, fileInfo, hinfo]
    rfl
  fileCount := by rw [hinfo, h.fileCount]
  lastFile := hlast.trans h.lastFile

/-- An entry of the later state comes from one with the same core. -/
theorem SameBlocks.exists_entry {s : NodeState} (h : s.SameBlocks t) {e : CBlockIndex}
    (he : t.lookupBlockIndex hash = some e) :
    ∃ e', s.lookupBlockIndex hash = some e' ∧ e'.core = e.core := by
  have hent := h.entries hash
  rw [he, map_some] at hent
  exact map_eq_some_iff.mp hent.symm

theorem SameBlocks.exists_later {s : NodeState} (h : s.SameBlocks t) {e : CBlockIndex}
    (he : s.lookupBlockIndex hash = some e) :
    ∃ e', t.lookupBlockIndex hash = some e' ∧ e'.core = e.core := by
  have hent := h.entries hash
  rw [he, map_some] at hent
  exact map_eq_some_iff.mp hent

theorem lookup_modifyEntry (hash k : Uint256) (f : CBlockIndex → CBlockIndex) :
    (s.modifyEntry hash f).lookupBlockIndex k =
      if hash = k then (s.lookupBlockIndex k).map f else s.lookupBlockIndex k := by
  rw [lookupBlockIndex, modifyEntry, OrdMap.find?_modify]
  split_ifs <;> rfl

theorem sameBlocks_modifyEntry (hash : Uint256) {f : CBlockIndex → CBlockIndex}
    (hf : ∀ e, s.lookupBlockIndex hash = some e → (f e).core = e.core) :
    s.SameBlocks (s.modifyEntry hash f) where
  entries k := by
    rw [lookup_modifyEntry]
    split_ifs with hk
    · subst hk
      cases he : s.lookupBlockIndex hash with
      | none => rfl
      | some e => simp [hf e he]
    · rfl
  files := rfl
  fileSizes _ := rfl
  fileCount := rfl
  lastFile := rfl

theorem sameBlocks_markFailedChildren (branch : Branch) (failed : Uint256) :
    s.SameBlocks (s.markFailedChildren branch failed) := by
  rw [markFailedChildren]
  generalize branch.takeWhile _ = es
  induction es generalizing s with
  | nil => exact .refl s
  | cons e es ih =>
    refine SameBlocks.trans (sameBlocks_modifyEntry s e.phashBlock ?_) (ih _)
    intro e' _
    exact e'.core_setStatus (by decide)

theorem sameBlocks_tryAddBlockIndexCandidate (hash : Uint256) (pindex : CBlockIndex) :
    s.SameBlocks (s.tryAddBlockIndexCandidate hash pindex) := by
  rw [tryAddBlockIndexCandidate]
  split_ifs
  · exact .refl s
  · exact (SameBlocks.refl s).congr rfl rfl rfl rfl

theorem sameBlocks_linkBlock {s : NodeState} {pindex : CBlockIndex}
    (he : s.lookupBlockIndex hash = some pindex) : s.SameBlocks (s.linkBlock hash pindex) := by
  have hent : s.SameBlocks (s.modifyEntry hash fun _ => s.linkedEntry pindex) := by
    refine sameBlocks_modifyEntry s hash fun e he' => ?_
    obtain rfl : pindex = e := some.inj (he.symm.trans he')
    rfl
  refine SameBlocks.trans (hent.congr ?_ ?_ ?_ ?_)
    (sameBlocks_tryAddBlockIndexCandidate _ _ _) <;>
    rfl

theorem sameBlocks_linkQueue (n : Nat) (queue : List Uint256) (s : NodeState) :
    s.SameBlocks (linkQueue n queue s) := by
  induction n generalizing queue s with
  | zero => exact .refl s
  | succ n ih =>
    cases queue with
    | nil => exact .refl s
    | cons hash queue =>
      rw [linkQueue]
      cases he : s.lookupBlockIndex hash with
      | none => exact ih queue s
      | some pindex =>
        refine SameBlocks.trans ((sameBlocks_linkBlock he).congr ?_ ?_ ?_ ?_) (ih _ _) <;> rfl

/-! ### Stored transactions -/

/-- Up to what connecting may change, receiving transactions only completes the
entry of the block. -/
theorem sameBlocks_receivedBlockTransactions (env : ChainEnv) (block : CBlock) (pos : FlatFilePos) :
    (s.modifyEntry block.getHash (withTransactions env.consensus block pos)).SameBlocks
      (s.receivedBlockTransactions env block pos) := by
  rw [receivedBlockTransactions]
  generalize s.modifyEntry block.getHash (withTransactions env.consensus block pos) = s'
  split
  · exact sameBlocks_linkQueue _ _ _
  · split
    · exact .refl _
    · split_ifs
      · exact sameBlocks_linkQueue _ _ _
      · exact (SameBlocks.refl _).congr rfl rfl rfl rfl
      · exact .refl _

theorem core_withTransactions (params : Params) (block : CBlock) (pos : FlatFilePos)
    (e : CBlockIndex) : (withTransactions params block pos e).core = { e.core with
        nTx := UInt32.ofNat block.vtx.length
        nFile := pos.nFile
        nDataPos := pos.nPos
        auxpow := block.auxpow
        nStatus := haveData } := by
  have hwit : (if params.deploymentHeight .segwit ≤ e.nHeight then optWitness
      else 0) &&& haveData = 0 := by
    split_ifs <;> decide
  rw [withTransactions, core_raiseValidity _ (by decide)]
  simp [core, or_and_of_disjoint _ hwit, haveData_or_self]

/-! ### Headers -/

/-- A header was new and passed every check. -/
structure NewHeader (env : ChainEnv) (now : Int) (s : NodeState) (block : CBlockHeader)
    (pindexPrev : CBlockIndex) : Prop where
  ne_genesis : block.getHash ≠ env.hashGenesisBlock
  unknown : s.lookupBlockIndex block.getHash = none
  prev : s.lookupBlockIndex block.hashPrevBlock = some pindexPrev
  check : checkBlockHeader block env.consensus true = .ok ()
  contextual : contextualCheckBlockHeader env s.lookupBlockIndex pindexPrev
    (s.branch (some block.hashPrevBlock)) now block = .ok ()

/-- What a header can lead to: it is rejected, or known, or added. The genesis
block is the one header that is added without a check. -/
inductive HeaderOutcome (env : ChainEnv) (now : Int) (s : NodeState) (block : CBlockHeader) :
    NodeState × Except Invalid CBlockIndex → Prop
  | rejected {s' : NodeState} (e : Invalid) : s.SameBlocks s' →
      HeaderOutcome env now s block (s', .error e)
  | known {pindex : CBlockIndex} : s.lookupBlockIndex block.getHash = some pindex →
      HeaderOutcome env now s block (s, .ok pindex)
  | added : s.lookupBlockIndex block.getHash = none →
      (block.getHash = env.hashGenesisBlock ∨ ∃ pindexPrev, NewHeader env now s block pindexPrev) →
      HeaderOutcome env now s block ((s.addToBlockIndex block).1, .ok (s.newEntry block))

theorem addHeader_outcome {env : ChainEnv} {now : Int} {s : NodeState}
    (h : block.getHash = env.hashGenesisBlock ∨
      ∃ pindexPrev, NewHeader env now s block pindexPrev) :
    HeaderOutcome env now s block (s.addHeader block minPowChecked) := by
  rw [addHeader]
  split_ifs
  · exact .rejected _ (.refl s)
  · cases he : s.lookupBlockIndex block.getHash with
    | none =>
      have hadd : s.addToBlockIndex block = ((s.addToBlockIndex block).1, s.newEntry block) := by
        simp [addToBlockIndex, he]
      rw [hadd]
      exact .added he h
    | some pindex =>
      have hadd : s.addToBlockIndex block = (s, pindex) := by simp [addToBlockIndex, he]
      rw [hadd]
      exact .known he

theorem acceptNewHeader_outcome {env : ChainEnv} {now : Int} {s : NodeState}
    (hne : block.getHash ≠ env.hashGenesisBlock) (hunk : s.lookupBlockIndex block.getHash = none) :
    HeaderOutcome env now s block (acceptNewHeader env now s block minPowChecked) := by
  rw [acceptNewHeader]
  cases hck : checkBlockHeader block env.consensus true with
  | error e => exact .rejected e (.refl s)
  | ok u =>
    cases hprev : s.lookupBlockIndex block.hashPrevBlock with
    | none => exact .rejected _ (.refl s)
    | some pindexPrev =>
      dsimp only
      split_ifs
      · exact .rejected _ (.refl s)
      · cases hctx : contextualCheckBlockHeader env s.lookupBlockIndex pindexPrev
            (s.branch (some block.hashPrevBlock)) now block with
        | error e => exact .rejected e (.refl s)
        | ok u =>
          dsimp only
          cases s.failedAncestor pindexPrev (s.branch (some block.hashPrevBlock)) with
          | some failed => exact .rejected _ (sameBlocks_markFailedChildren _ _ _)
          | none =>
            exact addHeader_outcome minPowChecked
              (Or.inr ⟨pindexPrev, hne, hunk, hprev, hck, hctx⟩)

theorem acceptBlockHeader_outcome (now : Int) (s : NodeState) (block : CBlockHeader)
    (minPowChecked : Bool) :
    HeaderOutcome env now s block (acceptBlockHeader env now s block minPowChecked) := by
  rw [acceptBlockHeader]
  split_ifs with hgen
  · exact addHeader_outcome minPowChecked (Or.inl hgen)
  · split
    case h_1 pindex hkn =>
      split_ifs
      · exact .rejected _ (.refl s)
      · exact .known hkn
    case h_2 hunk => exact acceptNewHeader_outcome minPowChecked hgen hunk

theorem lookup_addToBlockIndex {s : NodeState} (h : s.lookupBlockIndex block.getHash = none)
    (hash : Uint256) : (s.addToBlockIndex block).1.lookupBlockIndex hash =
      if block.getHash = hash then some (s.newEntry block) else s.lookupBlockIndex hash := by
  simp only [addToBlockIndex, h]
  rw [lookupBlockIndex, OrdMap.find?_insert]
  split_ifs <;> rfl

/-- The new entry describes its header. -/
theorem newEntry_header {s : NodeState} {pindexPrev : CBlockIndex}
    (h : s.lookupBlockIndex block.hashPrevBlock = some pindexPrev) :
    (s.newEntry block).getBlockHeader = block ∧
      (s.newEntry block).nHeight = pindexPrev.nHeight + 1 ∧
      (s.newEntry block).hasStatus haveData = false := by
  rw [← getBlockHeader_core, ← hasStatus_core]
  have hht : (s.newEntry block).nHeight = (s.newEntry block).core.nHeight := rfl
  rw [hht, newEntry, core_raiseValidity _ (by decide)]
  simp only [h]
  exact ⟨rfl, rfl, by simp [core, hasStatus, ofHeader]⟩

/-! ### Blocks -/

theorem lookup_saveBlockToDisk (env : ChainEnv) (block : CBlock) (nHeight : Int) :
    (s.saveBlockToDisk env block nHeight).1.lookupBlockIndex = s.lookupBlockIndex := rfl

/-- What a block can lead to once its header has been dealt with. -/
inductive BlockOutcome (env : ChainEnv) (now : Int) (s : NodeState) (block : CBlock) :
    NodeState × Except Invalid Bool → Prop
  | rejected {s' : NodeState} (e : Invalid) : s.SameBlocks s' →
      BlockOutcome env now s block (s', .error e)
  | skipped {s' : NodeState} {pindex : CBlockIndex} :
      HeaderOutcome env now s block.toCBlockHeader (s', .ok pindex) →
      BlockOutcome env now s block (s', .ok false)
  | failed {s' t : NodeState} {pindex : CBlockIndex} (e : Invalid) :
      HeaderOutcome env now s block.toCBlockHeader (s', .ok pindex) → s'.SameBlocks t →
      BlockOutcome env now s block (t, .error e)
  | stored {s' : NodeState} {pindex : CBlockIndex} :
      HeaderOutcome env now s block.toCBlockHeader (s', .ok pindex) →
      pindex.hasStatus haveData = false →
      checkBlockInPlace env s' pindex block = .ok () →
      BlockOutcome env now s block
        ((s'.saveBlockToDisk env block pindex.nHeight).1.receivedBlockTransactions env block
          (s'.saveBlockToDisk env block pindex.nHeight).2, .ok true)

theorem acceptBlock_outcome (now : Int) (s : NodeState) (block : CBlock)
    (fRequested minPowChecked : Bool) :
    BlockOutcome env now s block (acceptBlock env now s block fRequested minPowChecked) := by
  rw [acceptBlock]
  have hhdr := acceptBlockHeader_outcome env now s block.toCBlockHeader minPowChecked
  generalize acceptBlockHeader env now s block.toCBlockHeader minPowChecked = r at hhdr
  obtain ⟨s', e | pindex⟩ := r
  · cases hhdr with
    | rejected e hsame => exact .rejected e hsame
  · dsimp only
    split_ifs with hdata hskip
    · exact .skipped hhdr
    · exact .skipped hhdr
    · cases hck : checkBlockInPlace env s' pindex block with
      | ok u => exact .stored hhdr (by simpa using hdata) hck
      | error e =>
        dsimp only
        split_ifs
        · exact .failed e hhdr (.refl s')
        · exact .failed e hhdr
            (sameBlocks_modifyEntry _ _ fun e _ => e.core_setStatus (by decide))

theorem storeNewBlock_outcome (now : Int) (s : NodeState) (block : CBlock)
    (forceProcessing minPowChecked : Bool) :
    BlockOutcome env now s block (storeNewBlock env now s block forceProcessing minPowChecked) := by
  rw [storeNewBlock]
  cases checkBlock env block true with
  | error e => exact .rejected e (.refl s)
  | ok u => exact acceptBlock_outcome env now s block forceProcessing minPowChecked

section
variable {env : ChainEnv} {s : NodeState} {block : CBlock} {forceProcessing minPowChecked : Bool}
  {now : Int}

theorem Step.sameBlocks (h : s.Step env (.newBlock block forceProcessing minPowChecked now) t) :
    (storeNewBlock env now s block forceProcessing minPowChecked).1.SameBlocks t := by
  simp only [Step] at h
  generalize storeNewBlock env now s block forceProcessing minPowChecked = r at h
  obtain ⟨s', e | stored⟩ := r
  · rw [show t = s' from h]
    exact .refl s'
  · exact h

theorem step_newBlock_iff {stored : Bool}
    (h : (storeNewBlock env now s block forceProcessing minPowChecked).2 = .ok stored) :
    s.Step env (.newBlock block forceProcessing minPowChecked now) t ↔
      (storeNewBlock env now s block forceProcessing minPowChecked).1.SameBlocks t := by
  simp only [Step]
  generalize storeNewBlock env now s block forceProcessing minPowChecked = r at h
  obtain ⟨s', result⟩ := r
  obtain rfl : result = .ok stored := h
  rfl

end

end NodeState
end Lithium
