import Lithium.Validation.HeaderWork

/-!
# Proofs of work of stored blocks

A block file holds a block with the payload it arrived with, and the entry of
the index keeps the same payload. Both were checked if the header was new when
the block arrived. If the header had been announced before, nobody looks at the
payload of the block, and what is stored need not pass the check that every
reader of the file repeats.

The invariant below is kept by every call except the delivery of a block, with
a payload of its own, for a header that is known.
-/

namespace Lithium
open Lib List BlockStatus CBlockIndex Option
variable {b : CBlockHeader} {params : Params} {env : ChainEnv} {s t : NodeState} {hash : Uint256}
  {e : CBlockIndex} {block : CBlock}

/-- What `checkAuxPowProofOfWork` asks for beyond `checkBlockHeader`. -/
def CBlockHeader.PayloadHolds (b : CBlockHeader) (params : Params) (nHeight : Int) : Prop :=
  b.ChainIdFits params nHeight ∧ match b.auxpow with
    | none => b.isAuxpow = false
    | some ap => params.nAuxpowStartHeight ≤ nHeight → ap.Proves params b

theorem checkBlockHeader_ok (h : checkBlockHeader b params true = .ok ()) :
    (b.auxpow.isSome → b.isAuxpow = true) ∧ (b.auxpow = none → b.isAuxpow = false →
      checkProofOfWork b.getPoWHash b.nBits params = true) := by
  rw [checkBlockHeader] at h
  split_ifs at h with hflag hpow
  constructor
  · intro hsome
    simpa [hsome] using hflag
  · intro hnone hplain
    simpa [hnone, hplain] using hpow

theorem CBlockHeader.PayloadHolds.check {nHeight : Int} (h : b.PayloadHolds params nHeight)
    (hhdr : checkBlockHeader b params true = .ok ()) :
    checkAuxPowProofOfWork b params nHeight = .ok () := by
  obtain ⟨hflag, hnative⟩ := checkBlockHeader_ok hhdr
  obtain ⟨hchain, hpay⟩ := h
  cases hap : b.auxpow with
  | none =>
    rw [hap] at hpay
    exact (checkAuxPowProofOfWork_none hap params nHeight).mpr
      ⟨hchain, hpay, hnative hap hpay⟩
  | some ap =>
    rw [hap] at hpay
    exact (checkAuxPowProofOfWork_some hap params nHeight).mpr
      ⟨hchain, hflag (by simp [hap]), hpay⟩

namespace NodeState

/-! ### The property -/

/-- A block whose encoding is at the position of an entry, whose payload is that
of the entry, and which passes the check at its height. -/
structure HoldsBlock (env : ChainEnv) (s : NodeState) (hash : Uint256) (e : CBlockIndex)
    (b : CBlock) : Prop where
  saved : serBlock true b <+: (s.blockFiles e.nFile).drop e.nDataPos.toNat
  hash : b.getHash = hash
  payload : b.auxpow = e.auxpow
  proof : checkAuxPowProofOfWork b.toCBlockHeader env.consensus e.nHeight = .ok ()

/-- Every stored block passes the check, and reading it back never fails on a
proof of work. -/
def SoundStore (env : ChainEnv) (s : NodeState) : Prop :=
  ∀ hash e, s.lookupBlockIndex hash = some e → e.hasStatus haveData = true →
    (∃ b, s.HoldsBlock env hash e b) ∧ s.readBlockFromDisk env e ≠ .error .nativeProof ∧
      s.readBlockFromDisk env e ≠ .error .auxpowProof

/-! ### Reading a stored block -/

/-- The header that is read is the one that was written, up to a payload that
nobody checks. -/
theorem readBlock_header {b b' : CBlock} {bs rest : Bytes} (hsaved : serBlock true b <+: bs)
    (hread : readBlock.run bs = .ok (b', rest)) :
    b'.toCPureBlockHeader = b.toCPureBlockHeader ∧ b'.toCBlockHeader.WireForm ∧
      (b.toCBlockHeader.Readable → b'.auxpow = b.auxpow) := by
  obtain ⟨tail, rfl⟩ := hsaved
  obtain ⟨h, mid, hhdr, hvtx⟩ := Decoder.run_bind_ok.mp hread
  obtain ⟨vtx, mid', -, hpure⟩ := Decoder.run_bind_ok.mp hvtx
  obtain rfl : (⟨h, vtx.val⟩ : CBlock) = b' := congrArg Prod.fst (Except.ok.inj hpure)
  refine ⟨?_, (yields_header hhdr).wireForm, ?_⟩
  · obtain ⟨p, mid'', hp, hpay⟩ := Decoder.run_bind_ok.mp hhdr
    obtain ⟨ap, _, -, hpure'⟩ := Decoder.run_bind_ok.mp hpay
    obtain rfl : (⟨p, ap⟩ : CBlockHeader) = h := congrArg Prod.fst (Except.ok.inj hpure')
    rw [serBlock, serHeader, append_assoc, append_assoc, exact_pureHeader.reads trivial] at hp
    exact (congrArg Prod.fst (Except.ok.inj hp)).symm
  · intro hreadable
    rw [serBlock, append_assoc, reads_header hreadable] at hhdr
    exact congrArg (fun r => r.1.auxpow) (Except.ok.inj hhdr).symm

/-- The check depends on the mined header and, where it is looked at, on the
payload. -/
theorem check_congr {b' : CBlockHeader} {nHeight : Int}
    (hpure : b'.toCPureBlockHeader = b.toCPureBlockHeader) (hwire : b'.WireForm)
    (hpay : params.nAuxpowStartHeight ≤ nHeight → b'.auxpow = b.auxpow)
    (h : checkAuxPowProofOfWork b params nHeight = .ok ()) :
    checkAuxPowProofOfWork b' params nHeight = .ok () := by
  obtain ⟨p, ap⟩ := b
  obtain ⟨p', ap'⟩ := b'
  obtain rfl : p' = p := hpure
  by_cases hact : params.nAuxpowStartHeight ≤ nHeight
  · obtain rfl : ap' = ap := hpay hact
    exact h
  · have hchain : (⟨p', ap'⟩ : CBlockHeader).ChainIdFits params nHeight := fun h => absurd h hact
    have hflag : p'.isAuxpow = ap'.isSome := hwire
    cases ap' with
    | some ap' =>
      rw [checkAuxPowProofOfWork_some rfl]
      exact ⟨hchain, by simpa using hflag, fun h => absurd h hact⟩
    | none =>
      cases ap with
      | none => exact h
      | some ap =>
        rw [checkAuxPowProofOfWork_some rfl] at h
        have hset : p'.isAuxpow = true := h.2.1
        simp [hset] at hflag

theorem HoldsBlock.readable {b : CBlock} (h : s.HoldsBlock env hash e b)
    (hsize : (serBlock true b).length ≤ maxBlockWeight)
    (hact : env.consensus.nAuxpowStartHeight ≤ e.nHeight) : b.toCBlockHeader.Readable := by
  have hmax : maxBlockWeight ≤ maxSize := by decide
  cases hap : b.auxpow with
  | none =>
    have hflag := ((checkAuxPowProofOfWork_none hap _ _).mp h.proof).2.1
    exact ⟨by rw [CBlockHeader.WireForm, hap, hflag]; rfl, by simp [hap]⟩
  | some ap =>
    obtain ⟨-, hflag, hproves⟩ := (checkAuxPowProofOfWork_some hap _ _).mp h.proof
    obtain ⟨-, tx, htx, hvin, -⟩ := CAuxPow.check_ok (hproves hact).2
    refine ⟨by rw [CBlockHeader.WireForm, hap, hflag]; rfl, fun ap' hap' => ?_⟩
    obtain rfl : ap = ap' := some.inj (hap.symm.trans hap')
    refine CAuxPow.readable_of_length_le htx hvin ?_
    simp only [serBlock, serHeader, serPayload, hflag, hap, if_true, length_append] at hsize
    omega

/-- Reading a sound block back never fails on a proof of work. -/
theorem HoldsBlock.readBlockFromDisk {b : CBlock} (h : s.HoldsBlock env hash e b)
    (hsize : (serBlock true b).length ≤ maxBlockWeight) :
    s.readBlockFromDisk env e ≠ .error .nativeProof ∧
      s.readBlockFromDisk env e ≠ .error .auxpowProof := by
  rw [NodeState.readBlockFromDisk, getBlockPos]
  split_ifs
  case neg => simp
  dsimp only
  rw [readBlockAt]
  cases hread : readBlock ((s.blockFiles e.nFile).drop e.nDataPos.toNat) with
  | error err => simp
  | ok r =>
    obtain ⟨b', rest⟩ := r
    obtain ⟨hpure, hwire, hpay⟩ := readBlock_header h.saved hread
    have hck :=
      check_congr hpure hwire (fun hact => hpay (h.readable hsize hact)) h.proof
    have hproof :
        (checkAuxPowProofOfWork b'.toCBlockHeader env.consensus e.nHeight).toBool = true := by
      rw [hck]
      rfl
    have hnative : (!b'.isAuxpow &&
        !checkProofOfWork b'.getPoWHash b'.nBits env.consensus) = false := by
      cases hap : b'.auxpow with
      | none => simp [((checkAuxPowProofOfWork_none hap _ _).mp hck).2.2]
      | some ap => simp [((checkAuxPowProofOfWork_some hap _ _).mp hck).2.1]
    dsimp only
    rw [hnative]
    by_cases hsignet : (env.consensus.signetBlocks &&
        !env.checkSignetBlockSolution b'.toCPureBlockHeader b'.vtx) = true
    · simp [hsignet]
    · by_cases hhash : b'.getHash = e.phashBlock <;> simp [hsignet, hhash, hproof]

/-! ### The invariant -/

structure StoreInv (env : ChainEnv) (s : NodeState) : Prop where
  blocks : ∀ hash e, s.lookupBlockIndex hash = some e → e.hasStatus haveData = true →
    ∃ b, s.HoldsBlock env hash e b ∧ (serBlock true b).length ≤ maxBlockWeight
  genesis : ∃ e, s.lookupBlockIndex env.hashGenesisBlock = some e ∧ e.hasStatus haveData = true
  files : s.FilesInOrder

theorem StoreInv.sound (hs : s.StoreInv env) : s.SoundStore env := by
  intro hash e he hdata
  obtain ⟨b, hb, hsize⟩ := hs.blocks hash e he hdata
  exact ⟨⟨b, hb⟩, hb.readBlockFromDisk hsize⟩

theorem hasData_of_core {e' : CBlockIndex} (h : e'.core = e.core) :
    e'.hasStatus haveData = e.hasStatus haveData := by
  rw [← e'.hasStatus_core, h, e.hasStatus_core]

/-- A block stays where it is when the files only grow. -/
theorem HoldsBlock.congr {e' : CBlockIndex} {b : CBlock} (h : s.HoldsBlock env hash e b)
    (hcore : e.core = e'.core) (hfiles : ∀ nFile, s.blockFiles nFile <+: t.blockFiles nFile) :
    t.HoldsBlock env hash e' b := by
  have hfields := congrArg (fun c => (c.nFile, c.nDataPos, c.auxpow, c.nHeight)) hcore
  simp only [core, Prod.mk.injEq] at hfields
  obtain ⟨hfile, hpos, hpay, hht⟩ := hfields
  refine ⟨?_, h.hash, hpay ▸ h.payload, hht ▸ h.proof⟩
  rw [← hfile, ← hpos]
  exact h.saved.trans ((hfiles e.nFile).drop _)

theorem StoreInv.sameBlocks (hs : s.StoreInv env) (h : s.SameBlocks t) : t.StoreInv env where
  blocks hash e he hdata := by
    obtain ⟨e', he', hcore⟩ := h.exists_entry he
    obtain ⟨b, hb, hsize⟩ := hs.blocks hash e' he' ((hasData_of_core hcore).trans hdata)
    exact ⟨b, hb.congr hcore fun nFile => by rw [h.files], hsize⟩
  genesis := by
    obtain ⟨e, he, hdata⟩ := hs.genesis
    obtain ⟨e', he', hcore⟩ := h.exists_later he
    exact ⟨e', he', (hasData_of_core hcore).trans hdata⟩
  files := by
    refine ⟨fun nFile => ?_, fun nFile => ?_⟩
    · rw [h.files, h.fileSizes, hs.files.size]
    · rw [h.fileSizes]
      exact hs.files.room nFile

variable {now : Int}

/-- The genesis block is known and stored. -/
theorem StoreInv.ne_genesis (hs : s.StoreInv env) {hash : Uint256}
    (h : ∀ e, s.lookupBlockIndex hash = some e → e.hasStatus haveData = false) :
    hash ≠ env.hashGenesisBlock := by
  rintro rfl
  obtain ⟨g, hg, hgdata⟩ := hs.genesis
  rw [h g hg] at hgdata
  cases hgdata

theorem StoreInv.headerOutcome {r : NodeState × Except Invalid CBlockIndex} (hs : s.StoreInv env)
    (h : HeaderOutcome env now s b r) : r.1.StoreInv env := by
  cases h with
  | rejected e hsame => exact hs.sameBlocks hsame
  | known hkn => exact hs
  | added hunk hnew =>
    obtain ⟨g, hg, hgdata⟩ := hs.genesis
    have hne := hs.ne_genesis fun e he => nomatch hunk.symm.trans he
    obtain ⟨pindexPrev, hnew⟩ := hnew.resolve_left hne
    have hfiles : (s.addToBlockIndex b).1.blockFiles = s.blockFiles ∧
        (s.addToBlockIndex b).1.blockfileInfo = s.blockfileInfo := by
      simp [addToBlockIndex, hunk]
    refine ⟨fun hash e he hdata => ?_, ⟨g, ?_, hgdata⟩, ⟨fun nFile => ?_, fun nFile => ?_⟩⟩
    · rw [lookup_addToBlockIndex hunk] at he
      split_ifs at he with hhash
      · -- the new entry has no block
        cases he
        rw [(newEntry_header hnew.prev).2.2] at hdata
        cases hdata
      · obtain ⟨b', hb', hsize⟩ := hs.blocks hash e he hdata
        exact ⟨b', hb'.congr rfl fun nFile => by rw [hfiles.1], hsize⟩
    · rw [lookup_addToBlockIndex hunk, if_neg hne, hg]
    · rw [fileInfo, hfiles.1, hfiles.2]
      exact hs.files.size nFile
    · rw [fileInfo, hfiles.2]
      exact hs.files.room nFile

theorem withTransactions_fields (params : Params) (block : CBlock) (pos : FlatFilePos)
    (e : CBlockIndex) : (withTransactions params block pos e).nFile = pos.nFile ∧
      (withTransactions params block pos e).nDataPos = pos.nPos ∧
      (withTransactions params block pos e).auxpow = block.auxpow ∧
      (withTransactions params block pos e).nHeight = e.nHeight := by
  have h := congrArg (fun c => (c.nFile, c.nDataPos, c.auxpow, c.nHeight))
    (core_withTransactions params block pos e)
  simpa only [core, Prod.mk.injEq] using h

theorem hasData_withTransactions (params : Params) (block : CBlock) (pos : FlatFilePos)
    (e : CBlockIndex) : (withTransactions params block pos e).hasStatus haveData = true := by
  rw [← hasStatus_core, core_withTransactions]
  change (haveData &&& haveData != 0) = true
  decide

variable {pindex : CBlockIndex}

theorem StoreInv.stored (hs : s.StoreInv env)
    (hent : s.lookupBlockIndex block.getHash = some pindex)
    (hdata : pindex.hasStatus haveData = false)
    (hproof : checkAuxPowProofOfWork block.toCBlockHeader env.consensus pindex.nHeight = .ok ())
    (hsize : (serBlock true block).length ≤ maxBlockWeight) :
    ((s.saveBlockToDisk env block pindex.nHeight).1.receivedBlockTransactions env block
      (s.saveBlockToDisk env block pindex.nHeight).2).StoreInv env := by
  refine StoreInv.sameBlocks ?_ (sameBlocks_receivedBlockTransactions _ _ _ _)
  have hfiles := hs.files.saveBlockToDisk env pindex.nHeight hsize
  have hsaved := hs.files.saved env block pindex.nHeight
  have hgrow : ∀ nFile, s.blockFiles nFile <+:
      (s.saveBlockToDisk env block pindex.nHeight).1.blockFiles nFile := by
    intro nFile
    rw [hs.files.blockFiles_eq]
    split_ifs
    · exact prefix_append _ _
    · exact prefix_refl _
  refine ⟨fun hash e he hedata => ?_, ?_, ⟨hfiles.size, hfiles.room⟩⟩
  · rw [lookup_modifyEntry, lookup_saveBlockToDisk] at he
    split_ifs at he with hhash
    · rw [← hhash, hent] at he
      cases he
      obtain ⟨hnFile, hnPos, hauxpow, hht⟩ := withTransactions_fields env.consensus block
        (s.saveBlockToDisk env block pindex.nHeight).2 pindex
      refine ⟨block, ⟨?_, hhash, hauxpow.symm, by rw [hht]; exact hproof⟩, hsize⟩
      rw [hnFile, hnPos]
      exact hsaved ▸ prefix_refl _
    · obtain ⟨b, hb, hbsize⟩ := hs.blocks hash e he hedata
      exact ⟨b, hb.congr rfl hgrow, hbsize⟩
  · obtain ⟨g, hg, hgdata⟩ := hs.genesis
    refine ⟨g, ?_, hgdata⟩
    rw [lookup_modifyEntry, lookup_saveBlockToDisk, if_neg, hg]
    refine hs.ne_genesis fun e he => ?_
    cases hent.symm.trans he
    exact hdata

/-! ### Calls -/

/-- A block that is delivered for a known header has a payload that holds. -/
def DeliversSoundly (env : ChainEnv) (s : NodeState) : Call → Prop
  | .newHeaders _ _ _ => True
  | .newBlock block _ _ _ =>
    ∀ e, s.lookupBlockIndex block.getHash = some e → block.getHash ≠ env.hashGenesisBlock →
      e.hasStatus haveData = false →
      block.toCBlockHeader.PayloadHolds env.consensus e.nHeight

theorem checkBlockInPlace_ok (h : checkBlockInPlace env s pindex block = .ok ()) :
    checkBlockHeader block.toCBlockHeader env.consensus true = .ok () ∧
      (serBlock true block).length ≤ maxBlockWeight := by
  rw [checkBlockInPlace, andThen_ok, checkBlock_ok_iff, contextualCheckBlock_ok_iff,
    checkWeight_ok_iff, getBlockWeight] at h
  exact ⟨h.1.1, by omega⟩

variable {minPowChecked : Bool}

theorem StoreInv.blockOutcome {r : NodeState × Except Invalid Bool} {forceProcessing : Bool}
    (hs : s.StoreInv env)
    (hcall : s.DeliversSoundly env (.newBlock block forceProcessing minPowChecked now))
    (h : BlockOutcome env now s block r) : r.1.StoreInv env := by
  cases h with
  | rejected e hsame => exact hs.sameBlocks hsame
  | skipped hhdr => exact hs.headerOutcome hhdr
  | failed e hhdr hsame => exact (hs.headerOutcome hhdr).sameBlocks hsame
  | @stored s' pindex hhdr hdata hcks =>
    obtain ⟨hheaderOk, hsize⟩ := checkBlockInPlace_ok hcks
    have hs' := hs.headerOutcome hhdr
    cases hhdr with
    | known hkn =>
      have hne : block.getHash ≠ env.hashGenesisBlock := hs.ne_genesis fun e he => by
        cases hkn.symm.trans he
        exact hdata
      exact hs'.stored hkn hdata ((hcall pindex hkn hne hdata).check hheaderOk) hsize
    | added hunk hnew =>
      have hent : (s.addToBlockIndex block.toCBlockHeader).1.lookupBlockIndex block.getHash =
          some (s.newEntry block.toCBlockHeader) := by
        rw [lookup_addToBlockIndex hunk, if_pos rfl]
      have hne := hs.ne_genesis fun e he => nomatch hunk.symm.trans he
      obtain ⟨pindexPrev, hnew⟩ := hnew.resolve_left hne
      have hht := (newEntry_header hnew.prev).2.1
      refine hs'.stored hent hdata ?_ hsize
      rw [hht]
      exact contextualCheckBlockHeader_work hnew.contextual

theorem StoreInv.processNewBlockHeaders (headers : List CBlockHeader) (hs : s.StoreInv env) :
    (NodeState.processNewBlockHeaders env now minPowChecked s headers).1.StoreInv env := by
  induction headers generalizing s with
  | nil => exact hs
  | cons b rest ih =>
    have hnext := hs.headerOutcome (acceptBlockHeader_outcome env now s b minPowChecked)
    rw [NodeState.processNewBlockHeaders]
    generalize acceptBlockHeader env now s b minPowChecked = r at hnext
    obtain ⟨s', e | pindex⟩ := r
    · exact hnext
    · exact ih hnext

theorem StoreInv.step {call : Call} (hs : s.StoreInv env) (hstep : s.Step env call t)
    (hcall : s.DeliversSoundly env call) : t.StoreInv env := by
  cases call with
  | newHeaders headers minPowChecked now =>
    rw [show t = _ from hstep]
    exact hs.processNewBlockHeaders headers
  | newBlock block forceProcessing minPowChecked now =>
    have hnext := hs.blockOutcome hcall
      (storeNewBlock_outcome env now s block forceProcessing minPowChecked)
    exact hnext.sameBlocks hstep.sameBlocks

/-! ### The genesis block, and whole runs -/

theorem filesInOrder_empty : empty.FilesInOrder where
  size _ := rfl
  room _ := by
    change (0 : UInt32).toNat < maxBlockfileSize
    decide

theorem newEntry_empty (s : NodeState) (b : CBlockHeader)
    (h : s.lookupBlockIndex b.hashPrevBlock = none) : (s.newEntry b).nHeight = 0 := by
  have hht : (s.newEntry b).nHeight = (s.newEntry b).core.nHeight := rfl
  rw [hht, newEntry, core_raiseValidity _ (by decide)]
  simp only [h]
  rfl

theorem storeInv_loadGenesisBlock
    (hproof : checkAuxPowProofOfWork env.genesis.toCBlockHeader env.consensus 0 = .ok ())
    (hsize : (serBlock true env.genesis).length ≤ maxBlockWeight) :
    (loadGenesisBlock env).StoreInv env := by
  have hfiles := filesInOrder_empty.saveBlockToDisk env 0 hsize
  have hsaved := filesInOrder_empty.saved env env.genesis 0
  rw [loadGenesisBlock]
  generalize hsave : empty.saveBlockToDisk env env.genesis 0 = r at hfiles hsaved
  have hidx : r.1.lookupBlockIndex = fun _ => none := hsave ▸ rfl
  have hunk : r.1.lookupBlockIndex env.genesis.getHash = none := by rw [hidx]
  have hadd : (r.1.addToBlockIndex env.genesis.toCBlockHeader).1.blockFiles = r.1.blockFiles ∧
      (r.1.addToBlockIndex env.genesis.toCBlockHeader).1.blockfileInfo = r.1.blockfileInfo := by
    simp [addToBlockIndex, hunk]
  refine StoreInv.sameBlocks ?_ (sameBlocks_receivedBlockTransactions _ _ _ _)
  obtain ⟨hnFile, hnPos, hauxpow, hht⟩ := withTransactions_fields env.consensus env.genesis r.2
    (r.1.newEntry env.genesis.toCBlockHeader)
  have hlook (hash : Uint256) :
      ((r.1.addToBlockIndex env.genesis.toCBlockHeader).1.modifyEntry env.genesis.getHash
          (withTransactions env.consensus env.genesis r.2)).lookupBlockIndex hash =
        if env.genesis.getHash = hash then
          some (withTransactions env.consensus env.genesis r.2
            (r.1.newEntry env.genesis.toCBlockHeader))
        else none := by
    rw [lookup_modifyEntry, lookup_addToBlockIndex hunk, hidx]
    split_ifs <;> rfl
  refine ⟨fun hash e he _ => ?_, ⟨_, by rw [hlook, ChainEnv.hashGenesisBlock, if_pos rfl],
    hasData_withTransactions _ _ _ _⟩, ⟨fun nFile => ?_, fun nFile => ?_⟩⟩
  · rw [hlook] at he
    split_ifs at he with hhash
    cases he
    refine ⟨env.genesis, ⟨?_, hhash, hauxpow.symm, ?_⟩, hsize⟩
    · rw [hnFile, hnPos, modifyEntry, hadd.1, hsaved]
    · rw [hht, newEntry_empty _ _ (by rw [hidx])]
      exact hproof
  · rw [fileInfo, modifyEntry, hadd.1, hadd.2]
    exact hfiles.size nFile
  · rw [fileInfo, modifyEntry, hadd.2]
    exact hfiles.room nFile

end NodeState

theorem mainGenesis_sound :
    checkAuxPowProofOfWork mainEnv.genesis.toCBlockHeader mainEnv.consensus 0 = .ok () ∧
      (serBlock true mainEnv.genesis).length ≤ maxBlockWeight := by
  decide +kernel

open NodeState

/-- In every run in which blocks for known headers come with payloads that hold,
every stored block passes the check of its work in every state. -/
theorem stored_blocks_sound (s t : NodeState) (calls : List Call)
    (hinit : (loadGenesisBlock mainEnv).SameBlocks s)
    (hrun : Run (fun s call t => s.Step mainEnv call t ∧ s.DeliversSoundly mainEnv call) s
      calls t) :
    t.SoundStore mainEnv := by
  have h0 : s.StoreInv mainEnv :=
    (storeInv_loadGenesisBlock mainGenesis_sound.1 mainGenesis_sound.2).sameBlocks hinit
  exact StoreInv.sound (hrun.invariant h0 fun hs hstep => hs.step hstep.1 hstep.2)

/-- A mined block is announced, delivered and stored. -/
theorem stored_blocks_sound_first : ∃ t e,
    Run (fun s call t => s.Step mainEnv call t ∧ s.DeliversSoundly mainEnv call)
        (loadGenesisBlock mainEnv)
        ([] ++ [.newHeaders [firstBlock.toCBlockHeader] true 1411790000] ++
          [.newBlock firstBlock true true 1411790000]) t ∧
      t.lookupBlockIndex firstBlock.getHash = some e ∧ e.hasStatus haveData = true ∧
      ∃ b, t.HoldsBlock mainEnv firstBlock.getHash e b := by
  let s₁ := (processNewBlockHeaders mainEnv 1411790000 true (loadGenesisBlock mainEnv)
    [firstBlock.toCBlockHeader]).1
  let t := (storeNewBlock mainEnv 1411790000 s₁ firstBlock true true).1
  have hht : (s₁.lookupBlockIndex firstBlock.getHash).map nHeight = some 1 := by
    decide +kernel
  have hsto : (storeNewBlock mainEnv 1411790000 s₁ firstBlock true true).2 = .ok true ∧
      (t.lookupBlockIndex firstBlock.getHash).map (fun e =>
        e.hasStatus haveData) = some true := by
    decide +kernel
  have hplain : firstBlock.isAuxpow = false := by decide
  have hsound : s₁.DeliversSoundly mainEnv (.newBlock firstBlock true true 1411790000) := by
    intro e he _ _
    rw [he, map_some, some.injEq] at hht
    refine ⟨fun hact => ?_, hplain⟩
    rw [hht] at hact
    exact absurd hact (by decide)
  have hfst : (loadGenesisBlock mainEnv).Step mainEnv
      (.newHeaders [firstBlock.toCBlockHeader] true 1411790000) s₁ := rfl
  have hsecond := (step_newBlock_iff hsto.1).mpr (.refl t)
  refine ⟨t, ?_⟩
  have hrun : Run (fun s call t => s.Step mainEnv call t ∧ s.DeliversSoundly mainEnv call) _ _ t :=
    run_snoc_iff.mpr ⟨s₁, run_snoc_iff.mpr ⟨_, .nil, hfst, trivial⟩, hsecond, hsound⟩
  obtain ⟨e, he, hdata⟩ := map_eq_some_iff.mp hsto.2
  exact ⟨e, hrun, he, hdata, (stored_blocks_sound _ _ _ (.refl _) hrun _ e he hdata).1⟩

/-! ### A payload that gets lost -/

/-- The block of an announced header, delivered without the payload. -/
def strippedBlock : CBlock := { worklessBlock with auxpow := none }

def announceThenStrip : List Call :=
  [.newHeaders [worklessBlock.toCBlockHeader] true 1411790000,
    .newBlock strippedBlock true true 1411790000]

/-- The node before connecting blocks, after the two calls. -/
def strippedState : NodeState × Except Invalid Bool := storeNewBlock mainEnv 1411790000
    (processNewBlockHeaders mainEnv 1411790000 true (loadGenesisBlock mainEnv)
      [worklessBlock.toCBlockHeader]).1 strippedBlock true true

theorem strippedState_stored : strippedState.2 = .ok true ∧
    (strippedState.1.lookupBlockIndex strippedBlock.getHash).map (fun e =>
      (e.hasStatus haveData, e.auxpow,
        ((strippedState.1.blockFiles e.nFile).drop e.nDataPos.toNat).take 80)) =
      some (true, none, serPureHeader strippedBlock.toCPureBlockHeader) := by
  decide +kernel

example : strippedBlock.getHash = worklessBlock.getHash := by decide +kernel

theorem run_announceThenStrip_iff (t : NodeState) :
    Run (Step mainEnv) (loadGenesisBlock mainEnv) announceThenStrip t ↔
      strippedState.1.SameBlocks t := by
  have hspl :
      announceThenStrip = ([] ++ [.newHeaders [worklessBlock.toCBlockHeader] true 1411790000]) ++
      [.newBlock strippedBlock true true 1411790000] := rfl
  rw [hspl, run_snoc_iff]
  simp only [run_snoc_iff, run_nil_iff, exists_eq_left]
  rw [strippedState, ← step_newBlock_iff strippedState_stored.1]
  constructor
  · rintro ⟨s₁, rfl, hstep⟩
    exact hstep
  · intro hstep
    exact ⟨_, rfl, hstep⟩

/-- Whatever connecting blocks does then, the store is not sound. -/
theorem stored_block_unsound :
    (∃ t, Run (Step mainEnv) (loadGenesisBlock mainEnv) announceThenStrip t) ∧
      ∀ t, Run (Step mainEnv) (loadGenesisBlock mainEnv) announceThenStrip t →
        ¬ t.SoundStore mainEnv := by
  refine ⟨⟨_, (run_announceThenStrip_iff _).mpr (.refl _)⟩, fun t hrun hsound => ?_⟩
  have hsame := (run_announceThenStrip_iff t).mp hrun
  obtain ⟨e, he, hfields⟩ := map_eq_some_iff.mp strippedState_stored.2
  simp only [Prod.mk.injEq] at hfields
  obtain ⟨hdata, hauxpow, hbytes⟩ := hfields
  obtain ⟨e', he', hcore⟩ := hsame.exists_later he
  obtain ⟨⟨b, hb⟩, -⟩ := hsound _ e' he' ((hasData_of_core hcore).trans hdata)
  have hb' : strippedState.1.HoldsBlock mainEnv _ e b := hb.congr hcore fun nFile =>
    by rw [hsame.files]
  -- the first eighty bytes of the record are the mined header
  have hpure : b.toCPureBlockHeader = strippedBlock.toCPureBlockHeader := by
    apply serPureHeader_injective
    obtain ⟨rest, hrest⟩ := hb'.saved
    rw [← hbytes, ← hrest, serBlock, serHeader, append_assoc, append_assoc,
      take_left' (serPureHeader_length _)]
  have hnone : b.auxpow = none := hb'.payload.trans hauxpow
  have hflag := ((checkAuxPowProofOfWork_none hnone _ _).mp hb'.proof).2.1
  rw [hpure] at hflag
  exact absurd hflag (by decide)

end Lithium
