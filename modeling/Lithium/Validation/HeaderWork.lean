import Lithium.ChainParams
import Lithium.Validation.Tree

/-!
# Work behind the headers of the index

A header is *backed* if its own hash, or the parent header of a payload that
belongs to it, meets the target the header names. `checkAuxPowProofOfWork` is
the only place where the work of a header with a payload is tested, and it does
not test it below the activation height: there any payload will do. What the
check does guarantee, at every height, and what follows for the index as long
as no header makes use of the gap, is proved here.
-/

namespace Lithium
open Lib
variable {env : ChainEnv} {s : NodeState} {now : Int}

def CBlockHeader.Backed (b : CBlockHeader) (params : Params) : Prop :=
  match b.auxpow with
  | none => checkProofOfWork b.getPoWHash b.nBits params = true
  | some ap => ap.Proves params b

/-- The header does not rely on the gap below the activation height. -/
def CBlockHeader.ShowsWork (b : CBlockHeader) (params : Params) (nHeight : Int) : Prop :=
  params.nAuxpowStartHeight ≤ nHeight ∨
    ∀ ap, b.auxpow = some ap → b.isAuxpow = true → ap.Proves params b

/-- The check is sound exactly for the headers that do not rely on the gap. -/
theorem checkAuxPowProofOfWork_sound_iff (params : Params) (nHeight : Int) (b : CBlockHeader) :
    (checkAuxPowProofOfWork b params nHeight = .ok () → b.Backed params) ↔
      b.ShowsWork params nHeight := by
  rw [CBlockHeader.Backed, CBlockHeader.ShowsWork]
  cases hap : b.auxpow with
  | none =>
    refine iff_of_true (fun hok => ?_) (Or.inr (by simp))
    exact ((checkAuxPowProofOfWork_none hap params nHeight).mp hok).2.2
  | some ap =>
    rw [checkAuxPowProofOfWork_some hap]
    by_cases hact : params.nAuxpowStartHeight ≤ nHeight
    · exact iff_of_true (fun hok => hok.2.2 hact) (Or.inl hact)
    · -- below the activation height nothing but the flag is tested
      have hchain : b.ChainIdFits params nHeight := fun h => absurd h hact
      simp [hchain, hact]

namespace NodeState

/-- A header that would be added does not rely on the gap at its height. -/
def HeaderShowsWork (env : ChainEnv) (s : NodeState) (b : CBlockHeader) : Prop :=
  b.getHash ≠ env.hashGenesisBlock → s.lookupBlockIndex b.getHash = none →
    ∀ pindexPrev, s.lookupBlockIndex b.hashPrevBlock = some pindexPrev →
      b.ShowsWork env.consensus (pindexPrev.nHeight + 1)

/-- The same for the headers of one call, each in the state it meets. -/
def HeadersShowWork (env : ChainEnv) (now : Int) (minPowChecked : Bool) :
    NodeState → List CBlockHeader → Prop
  | _, [] => True
  | s, b :: rest =>
    HeaderShowsWork env s b ∧
      HeadersShowWork env now minPowChecked (acceptBlockHeader env now s b minPowChecked).1 rest

def CallShowsWork (env : ChainEnv) (s : NodeState) : Call → Prop
  | .newHeaders headers minPowChecked now => HeadersShowWork env now minPowChecked s headers
  | .newBlock block _ _ _ => HeaderShowsWork env s block.toCBlockHeader

/-- Every entry but the genesis block describes a header that is backed. -/
def BackedIndex (env : ChainEnv) (s : NodeState) : Prop :=
  ∀ hash e, s.lookupBlockIndex hash = some e → hash ≠ env.hashGenesisBlock →
    ∃ b : CBlockHeader, b.getHash = hash ∧
      b.toCPureBlockHeader = e.getBlockHeader.toCPureBlockHeader ∧ b.Backed env.consensus

theorem BackedIndex.sameBlocks {t : NodeState} (hs : s.BackedIndex env) (h : s.SameBlocks t) :
    t.BackedIndex env := by
  intro hash e he hne
  obtain ⟨e', he', hcore⟩ := h.exists_entry he
  obtain ⟨b, hhash, hpure, hbacked⟩ := hs hash e' he' hne
  refine ⟨b, hhash, ?_, hbacked⟩
  rw [hpure, ← CBlockIndex.getBlockHeader_core, hcore, CBlockIndex.getBlockHeader_core]

theorem contextualCheckBlockHeader_work {lookup : Uint256 → Option CBlockIndex}
    {pindexPrev : CBlockIndex} {branch : Branch} {b : CBlockHeader}
    (h : contextualCheckBlockHeader env lookup pindexPrev branch now b = .ok ()) :
    checkAuxPowProofOfWork b env.consensus (pindexPrev.nHeight + 1) = .ok () := by
  simp only [contextualCheckBlockHeader] at h
  split_ifs at h with hbits hwork
  cases hck : checkAuxPowProofOfWork b env.consensus (pindexPrev.nHeight + 1) with
  | error e => simp [hck, Except.toBool] at hwork
  | ok u => rfl

section
variable (hs : s.BackedIndex env)

include hs

theorem BackedIndex.headerOutcome {b : CBlockHeader} {r : NodeState × Except Invalid CBlockIndex}
    (hwork : s.HeaderShowsWork env b) (h : HeaderOutcome env now s b r) : r.1.BackedIndex env := by
  cases h with
  | rejected e hsame => exact hs.sameBlocks hsame
  | known hkn => exact hs
  | added hunk hnew =>
    intro hash e he hne
    rw [lookup_addToBlockIndex hunk] at he
    split_ifs at he with hhash
    · cases he
      rcases hnew with hgen | ⟨pindexPrev, hnew⟩
      · exact absurd (hhash.symm.trans hgen) hne
      · have hok := contextualCheckBlockHeader_work hnew.contextual
        have hshows := hwork hnew.ne_genesis hunk pindexPrev hnew.prev
        refine ⟨b, hhash, ?_, (checkAuxPowProofOfWork_sound_iff _ _ b).mpr hshows hok⟩
        rw [(newEntry_header hnew.prev).1]
    · exact hs hash e he hne

theorem BackedIndex.received (block : CBlock) (pos : FlatFilePos) :
    (s.receivedBlockTransactions env block pos).BackedIndex env := by
  refine BackedIndex.sameBlocks ?_ (sameBlocks_receivedBlockTransactions s env block pos)
  intro hash e he hne
  rw [lookup_modifyEntry] at he
  split_ifs at he with hhash
  · obtain ⟨e', he', rfl⟩ := Option.map_eq_some_iff.mp he
    obtain ⟨b, hb, hpure, hbacked⟩ := hs hash e' he' hne
    refine ⟨b, hb, ?_, hbacked⟩
    rw [hpure, ← (withTransactions env.consensus block pos e').getBlockHeader_core,
      core_withTransactions]
    rfl
  · exact hs hash e he hne

theorem BackedIndex.blockOutcome {block : CBlock} {r : NodeState × Except Invalid Bool}
    (hwork : s.HeaderShowsWork env block.toCBlockHeader)
    (h : BlockOutcome env now s block r) : r.1.BackedIndex env := by
  cases h with
  | rejected e hsame => exact hs.sameBlocks hsame
  | skipped hhdr => exact hs.headerOutcome hwork hhdr
  | failed e hhdr hsame => exact (hs.headerOutcome hwork hhdr).sameBlocks hsame
  | @stored s' pindex hhdr _ _ =>
    have hsaved : (s'.saveBlockToDisk env block pindex.nHeight).1.BackedIndex env :=
      hs.headerOutcome hwork hhdr
    exact hsaved.received block _

theorem BackedIndex.processNewBlockHeaders {minPowChecked : Bool} {headers : List CBlockHeader}
    (hwork : HeadersShowWork env now minPowChecked s headers) :
    (processNewBlockHeaders env now minPowChecked s headers).1.BackedIndex env := by
  induction headers generalizing s with
  | nil => exact hs
  | cons b rest ih =>
    have hnext := hs.headerOutcome hwork.1 (acceptBlockHeader_outcome env now s b minPowChecked)
    have hrest := hwork.2
    rw [processNewBlockHeaders]
    generalize acceptBlockHeader env now s b minPowChecked = r at hnext hrest
    obtain ⟨s', e | pindex⟩ := r
    · exact hnext
    · exact ih hnext hrest

theorem BackedIndex.step {t : NodeState} {call : Call}
    (hstep : s.Step env call t) (hwork : s.CallShowsWork env call) : t.BackedIndex env := by
  cases call with
  | newHeaders headers minPowChecked now =>
    rw [show t = _ from hstep]
    exact hs.processNewBlockHeaders hwork
  | newBlock block forceProcessing minPowChecked now =>
    have hnext := hs.blockOutcome hwork
      (storeNewBlock_outcome env now s block forceProcessing minPowChecked)
    exact hnext.sameBlocks hstep.sameBlocks

end

theorem backedIndex_loadGenesisBlock (env : ChainEnv) : (loadGenesisBlock env).BackedIndex env := by
  refine BackedIndex.received ?_ _ _
  intro hash e he hne
  rw [lookup_addToBlockIndex rfl] at he
  split_ifs at he with hhash
  · exact absurd hhash.symm hne
  · cases he

end NodeState

open NodeState in
/-- No block without work. The check is sound for a header exactly if the header
does not rely on the gap, and if no header of a run does then every entry of
the index is backed in every state of the run. -/
theorem entries_backed (env : ChainEnv) :
    (∀ params : Params, 0 ≤ params.nAuxpowStartHeight → ∀ (nHeight : Int) (b : CBlockHeader),
      ((checkAuxPowProofOfWork b params nHeight = .ok () → b.Backed params) ↔
        b.ShowsWork params nHeight)) ∧
      ∀ (s t : NodeState) (calls : List Call), (loadGenesisBlock env).SameBlocks s →
        Run (fun s call t => s.Step env call t ∧ s.CallShowsWork env call) s calls t →
        ∀ hash e, t.lookupBlockIndex hash = some e → hash ≠ env.hashGenesisBlock →
          ∃ b : CBlockHeader, b.getHash = hash ∧
            b.toCPureBlockHeader = e.getBlockHeader.toCPureBlockHeader ∧
              b.Backed env.consensus := by
  refine ⟨fun params _ nHeight b => checkAuxPowProofOfWork_sound_iff params nHeight b, ?_⟩
  intro s t calls hinit hrun
  have h0 : s.BackedIndex env := (backedIndex_loadGenesisBlock env).sameBlocks hinit
  exact hrun.invariant h0 fun hs hstep => hs.step hstep.1 hstep.2

/-! ### Blocks on top of the genesis block -/

def firstCoinbase : CTransaction :=
  .ofInput ⟨.null, ⟨[0x51, 0x00], by simp⟩, sequenceFinal, .empty⟩
    (some ⟨500000000, ⟨0x76 :: 0xa9 :: 0x14 :: (List.replicate 20 0 ++ [0x88, 0xac]), by decide⟩⟩)

/-- A block with work of its own. -/
def firstBlock : CBlock where
  nVersion := 112
  hashPrevBlock := uint256S 0x000000fcf39055b547e94e610f1008b8046f942bbb730e8b6dfa6232931902db
  hashMerkleRoot := uint256S 0x86cbfe2db1d4aa090a23a2411ccddb822aa84ed037792f58624532f14f00d41f
  nTime := 1411788513
  nBits := 503382015
  nNonce := 13028579
  auxpow := none
  vtx := [firstCoinbase]

/-- A payload that proves nothing: its branch is longer than any that is
accepted. -/
def emptyProof : CAuxPow where
  coinbaseTx := some firstCoinbase
  merkleBranch := []
  vChainMerkleBranch := List.replicate 31 .zero
  nChainIndex := 0
  parentBlock := firstBlock.toCPureBlockHeader

/-- The same block without work, but with the flag and that payload. -/
def worklessBlock : CBlock :=
  { firstBlock with nVersion := 0x60170, nNonce := 0, auxpow := some emptyProof }

/-- A header on `firstBlock` that has the flag and no work of its own. -/
def mergedHeader : CPureBlockHeader :=
  { worklessBlock.toCPureBlockHeader with hashPrevBlock := firstBlock.getHash, nTime := 1411788600 }

/-- The coinbase transaction of a parent that commits to that header alone. -/
def mergedCoinbase : CTransaction :=
  .ofInput ⟨.null, ⟨pchMergedMiningHeader ++ mergedHeader.getHash.data.reverse ++
    [1, 0, 0, 0, 0, 0, 0, 0], by decide +kernel⟩, sequenceFinal, .empty⟩ firstCoinbase.vout.head?

/-- The work is that of the parent. -/
def minedProof : CAuxPow where
  coinbaseTx := some mergedCoinbase
  merkleBranch := []
  vChainMerkleBranch := []
  nChainIndex := 0
  parentBlock := ⟨1, .zero, mergedCoinbase.getHash, 1411788600, 503382015, 28442783⟩

def mergedBlock : CBlockHeader := { mergedHeader with auxpow := some minedProof }

theorem minedProof_proves : minedProof.Proves mainParams mergedBlock := by
  refine ⟨?_, ?_⟩ <;> decide +kernel

open NodeState in
theorem entries_backed_merged : ∃ t, Run (fun s call t => s.Step mainEnv call t ∧
      s.CallShowsWork mainEnv call) (loadGenesisBlock mainEnv)
        [.newHeaders [firstBlock.toCBlockHeader, mergedBlock] true 1411790000] t ∧
      mergedBlock.isAuxpow = true ∧ ∀ hash ∈ [firstBlock.getHash, mergedBlock.getHash],
        ∃ e, t.lookupBlockIndex hash = some e ∧ ∃ b : CBlockHeader, b.getHash = hash ∧
          b.toCPureBlockHeader = e.getBlockHeader.toCPureBlockHeader ∧ b.Backed mainParams := by
  let headers := [firstBlock.toCBlockHeader, mergedBlock]
  let t := (processNewBlockHeaders mainEnv 1411790000 true (loadGenesisBlock mainEnv) headers).1
  have hrun : Run (fun s call t => s.Step mainEnv call t ∧ s.CallShowsWork mainEnv call)
      (loadGenesisBlock mainEnv) ([] ++ [.newHeaders headers true 1411790000]) t := by
    refine Run.nil.snoc ⟨rfl, fun _ _ _ _ => Or.inr (by simp [firstBlock]), ?_, trivial⟩
    rintro - - _ -
    refine Or.inr fun ap hap _ => ?_
    cases hap
    exact minedProof_proves
  have hkn : ∀ hash ∈ [firstBlock.getHash, mergedBlock.getHash],
      (t.lookupBlockIndex hash).isSome = true ∧ hash ≠ mainEnv.hashGenesisBlock := by decide +kernel
  refine ⟨t, hrun, by decide, fun hash hmem => ?_⟩
  obtain ⟨hsome, hne⟩ := hkn hash hmem
  obtain ⟨e, he⟩ := Option.isSome_iff_exists.mp hsome
  exact ⟨e, he, (entries_backed mainEnv).2 _ t _ (.refl _) hrun _ e he hne⟩

/-- Below the activation height the payload that proves nothing passes. -/
theorem workless_header_accepted :
    checkAuxPowProofOfWork worklessBlock.toCBlockHeader mainParams 1 = .ok () ∧
      ¬ worklessBlock.toCBlockHeader.Backed mainParams ∧
      ((NodeState.processNewBlockHeaders mainEnv 1411790000 true
        (NodeState.loadGenesisBlock mainEnv)
        [worklessBlock.toCBlockHeader]).1.lookupBlockIndex worklessBlock.getHash).isSome =
          true := by
  refine ⟨by decide +kernel, ?_, by decide +kernel⟩
  intro hbacked
  have hck :
      emptyProof.check worklessBlock.getHash worklessBlock.getChainId mainParams = .ok () :=
    hbacked.2
  have hlen := (CAuxPow.check_ok hck).1
  simp [emptyProof] at hlen

end Lithium
