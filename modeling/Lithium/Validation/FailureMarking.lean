import Lithium.ChainParams
import Lithium.Validation.Binding
import Lithium.Validation.Tree

/-!
# Remembering that a block is invalid

A block that is stored nowhere but fails its checks leaves a mark on the entry
of its hash, unless the failure is of a kind that another block with the same
hash may not share. `AcceptBlock` therefore must only mark for failures that
depend on what the hash commits to.

All of them do but one. The weight of a block counts the payload, which the
hash does not cover, so a payload that is large enough turns a valid block into
one whose failure is remembered. The size limit of `CheckBlock` counts the
payload as well but is tested before any entry is looked up, and leaves a
window: it does not count witnesses.
-/

namespace Lithium
open Lib Crypto List BlockStatus
variable {block : CBlock} {fCheckPOW : Bool} {env : ChainEnv}

def CBlock.withoutPayload (block : CBlock) : CBlock := { block with auxpow := none }

/-- `ProcessNewBlock` marks the entry of a block as failed after its header has
been accepted. The state and the entry are those that the checks see. -/
structure NodeState.MarksFailed (env : ChainEnv) (now : Int) (s : NodeState) (block : CBlock)
    (forceProcessing minPowChecked : Bool) (s' : NodeState) (pindex : CBlockIndex) : Prop where
  checked : checkBlock env block true = .ok ()
  header : acceptBlockHeader env now s block.toCBlockHeader minPowChecked = (s', .ok pindex)
  missing : pindex.hasStatus haveData = false
  wanted : (!forceProcessing && isUninteresting env s' pindex) = false
  rejected : ∃ e, checkBlockInPlace env s' pindex block = .error e ∧ e.result ≠ .mutated

/-- The block fails for a reason that its hash commits to. -/
def CBlock.FailsCommitted (env : ChainEnv) (branch : Branch) (block : CBlock) : Prop :=
  checkFinality env.consensus branch block ≠ .ok () ∨
    checkCoinbaseHeight env.consensus branch block ≠ .ok () ∨
    maxBlockWeight < getBlockWeight block.withoutPayload

open NodeState

/-! ### Sizes -/

theorem serBlock_length_withoutPayload (fAllowWitness : Bool) (block : CBlock) :
    (serBlock fAllowWitness block).length = (serBlock fAllowWitness block.withoutPayload).length +
        (serPayload block.toCBlockHeader).length := by
  have hnone : serPayload block.withoutPayload.toCBlockHeader = [] := by
    rw [serPayload]
    exact ite_self _
  have hpure : block.withoutPayload.toCPureBlockHeader = block.toCPureBlockHeader := rfl
  have hvtx : block.withoutPayload.vtx = block.vtx := rfl
  simp only [serBlock, serHeader, hnone, hpure, hvtx, length_append, length_nil]
  omega

theorem getBlockWeight_withoutPayload (block : CBlock) : getBlockWeight block =
      getBlockWeight block.withoutPayload + 4 * (serPayload block.toCBlockHeader).length := by
  rw [getBlockWeight, getBlockWeight, serBlock_length_withoutPayload false,
    serBlock_length_withoutPayload true, show witnessScaleFactor - 1 = 3 from rfl]
  omega

theorem checkBlockLength_withoutPayload (h : checkBlockLength block = .ok ()) :
    checkBlockLength block.withoutPayload = .ok () := by
  have hlen := serBlock_length_withoutPayload false block
  rw [checkBlockLength] at h ⊢
  split_ifs at h with hlimits
  rw [if_neg]
  simp only [Bool.or_eq_true, decide_eq_true_iff, not_or, not_lt, gt_iff_lt] at hlimits ⊢
  refine ⟨hlimits.1, ?_⟩
  have := hlimits.2
  rw [hlen] at this
  exact le_trans (Nat.mul_le_mul_right _ (Nat.le_add_right _ _)) this

/-! ### The block without its payload -/

theorem getHash_withoutPayload (block : CBlock) :
    block.withoutPayload.getHash = block.getHash := rfl

theorem checkBlockHeader_withoutPayload {params : Params}
    (h : checkBlockHeader block.toCBlockHeader params fCheckPOW = .ok ()) :
    checkBlockHeader block.withoutPayload.toCBlockHeader params fCheckPOW = .ok () := by
  by_cases hflag : block.isAuxpow = true
  · simp [checkBlockHeader, CBlock.withoutPayload, hflag]
  · -- a header without the flag has no payload to lose
    have hnone : block.auxpow = none := by
      by_contra hsome
      rw [checkBlockHeader, if_pos (by simp [Option.isSome_iff_ne_none.mpr hsome, hflag])] at h
      cases h
    rwa [show block.withoutPayload = block by rw [CBlock.withoutPayload, ← hnone]]

theorem checkBlock_withoutPayload (h : checkBlock env block fCheckPOW = .ok ()) :
    checkBlock env block.withoutPayload fCheckPOW = .ok () := by
  rw [checkBlock_ok_iff] at h ⊢
  obtain ⟨hhdr, hsignet, hroot, hlen, hcb, htxs, hsigops⟩ := h
  exact ⟨checkBlockHeader_withoutPayload hhdr, hsignet, hroot,
    checkBlockLength_withoutPayload hlen, hcb, htxs, hsigops⟩

section
variable {b₁ b₂ : CBlock} (hsame : b₁.withoutPayload = b₂.withoutPayload)

include hsame

theorem eq_of_withoutPayload_eq : ∃ auxpow, b₁ = { b₂ with auxpow := auxpow } := by
  obtain ⟨⟨pure₁, auxpow₁⟩, vtx₁⟩ := b₁
  obtain ⟨⟨pure₂, auxpow₂⟩, vtx₂⟩ := b₂
  obtain ⟨⟨rfl, -⟩, rfl⟩ : (pure₁ = pure₂ ∧ True) ∧ vtx₁ = vtx₂ := by
    simpa [CBlock.withoutPayload] using hsame
  exact ⟨auxpow₁, rfl⟩

theorem checkBlock_of_withoutPayload_eq (h : checkBlock env b₂ fCheckPOW = .ok ())
    (hhdr : checkBlockHeader b₁.toCBlockHeader env.consensus fCheckPOW = .ok ())
    (hlen : checkBlockLength b₁ = .ok ()) : checkBlock env b₁ fCheckPOW = .ok () := by
  obtain ⟨auxpow, rfl⟩ := eq_of_withoutPayload_eq hsame
  rw [checkBlock_ok_iff] at h ⊢
  obtain ⟨-, hsignet, hroot, -, hrest⟩ := h
  exact ⟨hhdr, hsignet, hroot, hlen, hrest⟩

/-- The payload enters the checks in place by its weight only. -/
theorem contextualCheckBlock_of_withoutPayload_eq {branch : Branch}
    (h : contextualCheckBlock env branch b₂ = .ok ()) :
    contextualCheckBlock env branch b₁ = checkWeight b₁ := by
  obtain ⟨hfin, hht, hwit, -⟩ := (contextualCheckBlock_ok_iff ..).mp h
  obtain ⟨auxpow, rfl⟩ := eq_of_withoutPayload_eq hsame
  have hfin' : checkFinality env.consensus branch { b₂ with auxpow } = .ok () := hfin
  have hht' : checkCoinbaseHeight env.consensus branch { b₂ with auxpow } = .ok () := hht
  have hwit' : checkWitnessMalleation { b₂ with auxpow }
    (deploymentActiveAfter env.consensus branch.head? .segwit) = .ok () := hwit
  rw [contextualCheckBlock, hfin', hht', hwit']
  rfl

theorem hashedIn_of_withoutPayload_eq {S T : Set Bytes} (h : b₂.HashedIn S T) :
    b₁.HashedIn S T := by
  have hwithout : b₂.withoutPayload.HashedIn S T := ⟨h.sha, h.blake⟩
  rw [← hsame] at hwithout
  exact ⟨hwithout.sha, hwithout.blake⟩

end

/-! ### What a mark says -/

theorem checkBlockInPlace_eq (h : checkBlock env block true = .ok ()) (s : NodeState)
    (pindex : CBlockIndex) : checkBlockInPlace env s pindex block =
      contextualCheckBlock env (s.branch pindex.pprev) block := by
  rw [checkBlockInPlace, h]
  rfl

theorem contextualCheckBlock_error {branch : Branch} {e : Invalid}
    (h : contextualCheckBlock env branch block = .error e) (hres : e.result ≠ .mutated)
    (hfin : checkFinality env.consensus branch block = .ok ())
    (hht : checkCoinbaseHeight env.consensus branch block = .ok ()) : checkWitnessMalleation block
      (deploymentActiveAfter env.consensus branch.head? .segwit) = .ok () := by
  rw [contextualCheckBlock, hfin, hht] at h
  cases hwit : checkWitnessMalleation block
      (deploymentActiveAfter env.consensus branch.head? .segwit) with
  | ok u => rfl
  | error e' =>
    rw [hwit] at h
    obtain rfl : e' = e := Except.error.inj h
    exact absurd (checkWitnessMalleation_error hwit) hres

namespace NodeState.MarksFailed
variable {env : ChainEnv} {now : Int} {s s' : NodeState} {block : CBlock}
  {forceProcessing minPowChecked : Bool} {pindex : CBlockIndex}
  (h : s.MarksFailed env now block forceProcessing minPowChecked s' pindex)
include h

theorem contextual : ∃ e, contextualCheckBlock env (s'.branch pindex.pprev) block = .error e ∧
    e.result ≠ .mutated := by
  obtain ⟨e, hrej, hres⟩ := h.rejected
  rw [checkBlockInPlace_eq h.checked] at hrej
  exact ⟨e, hrej, hres⟩

end NodeState.MarksFailed

/-- The mark is set exactly then: a block whose header was accepted is rejected, and for
another reason than that it may be a mutation. -/
theorem storeNewBlock_marks_iff {now : Int} {s s' : NodeState} {pindex : CBlockIndex}
    {forceProcessing minPowChecked : Bool} (hchk : checkBlock env block true = .ok ())
    (hhdr : acceptBlockHeader env now s block.toCBlockHeader minPowChecked = (s', .ok pindex)) :
    (∃ e, storeNewBlock env now s block forceProcessing minPowChecked =
        (s'.modifyEntry block.getHash fun pindex =>
          { pindex with nStatus := pindex.nStatus ||| failedValid }, .error e) ∧
        e.result ≠ .mutated) ↔
      s.MarksFailed env now block forceProcessing minPowChecked s' pindex := by
  simp only [storeNewBlock, hchk, acceptBlock, hhdr]
  constructor
  · rintro ⟨e, h, hres⟩
    split_ifs at h with hdata hwanted
    · cases (Prod.mk.inj h).2
    · cases (Prod.mk.inj h).2
    · cases hplace : checkBlockInPlace env s' pindex block with
      | ok u =>
        rw [hplace] at h
        cases (Prod.mk.inj h).2
      | error e' =>
        have he : e' = e := by
          simp only [hplace] at h
          split_ifs at h <;> exact Except.error.inj (Prod.mk.inj h).2
        exact ⟨hchk, hhdr, by simpa using hdata, by simpa using hwanted, e, he ▸ hplace,
          hres⟩
  · intro h
    obtain ⟨e, hrej, hres⟩ := h.rejected
    refine ⟨e, ?_, hres⟩
    simp [h.missing, h.wanted, hrej, hres]

/-! ### The theorem -/

section Marking
variable {S T : Set Bytes} (hsha : Set.InjOn sha256 S) (hblake : Set.InjOn hashblake256 T)
  {env : ChainEnv} {branch : Branch} {b₁ b₂ : CBlock} (h₁ : b₁.HashedIn S T) (h₂ : b₂.HashedIn S T)
include hsha hblake h₁ h₂

/-- A block that passes has only blocks of its hash that fail, if at all, by the
weight of their payload. -/
theorem not_failsCommitted (hck₁ : checkBlock env b₁ true = .ok ()) {e : Invalid}
    (hctx₁ : contextualCheckBlock env branch b₁ = .error e) (hres : e.result ≠ .mutated)
    (hck₂ : checkBlock env b₂ true = .ok ())
    (hctx₂ : contextualCheckBlock env branch b₂ = .ok ()) (hhash : b₂.getHash = b₁.getHash) :
    ¬ b₁.FailsCommitted env branch := by
  have hcom := committed_eq hsha h₁ h₂ hblake hck₁ hck₂ hhash.symm
  obtain ⟨hfin₂, hht₂, hwit₂, hweight₂⟩ :=
    (contextualCheckBlock_ok_iff ..).mp hctx₂
  rw [checkWeight_ok_iff] at hweight₂
  have hfin₁ : checkFinality env.consensus branch b₁ = .ok () := by
    rw [← checkFinality_committed, hcom, checkFinality_committed, hfin₂]
  have hht₁ : checkCoinbaseHeight env.consensus branch b₁ = .ok () := by
    rw [← checkCoinbaseHeight_committed, hcom, checkCoinbaseHeight_committed, hht₂]
  have hwit₁ := contextualCheckBlock_error hctx₁ hres hfin₁ hht₁
  obtain ⟨-, -, -, -, hcb₁, htxs₁, -⟩ := (checkBlock_ok_iff ..).mp hck₁
  obtain ⟨-, -, -, -, hcb₂, htxs₂, -⟩ := (checkBlock_ok_iff ..).mp hck₂
  have hvtx := vtx_eq hsha h₁ h₂ hcom hcb₁ hcb₂ (checkTransactions_vin htxs₁)
    (checkTransactions_vin htxs₂) hwit₁ hwit₂
  -- the two blocks differ in their payloads only
  have hsame : b₁.withoutPayload = b₂.withoutPayload := by
    have hpure : b₁.toCPureBlockHeader = b₂.toCPureBlockHeader :=
      congrArg (fun b => b.toCPureBlockHeader) hcom
    simp [CBlock.withoutPayload, hpure, hvtx]
  have hweight := getBlockWeight_withoutPayload b₂
  rintro (hfail | hfail | hfail)
  · exact hfail hfin₁
  · exact hfail hht₁
  · rw [hsame] at hfail
    omega

end Marking

/-- A mark is shared by every block of the hash if and only if the marked block
fails for a reason that the hash commits to. -/
theorem marks_shared_iff_committed {S T : Set Bytes} (hsha : Set.InjOn sha256 S)
    (hblake : Set.InjOn hashblake256 T) (env : ChainEnv) (now : Int) (s : NodeState) (b₁ : CBlock)
    (forceProcessing minPowChecked : Bool) (h₁ : b₁.HashedIn S T) :
    (∀ s' pindex, s.MarksFailed env now b₁ forceProcessing minPowChecked s' pindex →
        ∀ b₂ : CBlock, b₂.HashedIn S T → b₂.getHash = b₁.getHash → checkBlock env b₂ true ≠ .ok () ∨
            contextualCheckBlock env (s'.branch pindex.pprev) b₂ ≠ .ok ()) ↔
      ∀ s' pindex, s.MarksFailed env now b₁ forceProcessing minPowChecked s' pindex →
        b₁.FailsCommitted env (s'.branch pindex.pprev) := by
  refine forall_congr' fun s' => forall_congr' fun pindex => forall_congr' fun hmarks => ?_
  obtain ⟨e, hctx, hres⟩ := hmarks.contextual
  constructor
  · intro hshared
    by_contra hnot
    simp only [CBlock.FailsCommitted, not_or, not_not, not_lt] at hnot
    obtain ⟨hfin, hht, hweight⟩ := hnot
    have hwit := contextualCheckBlock_error hctx hres hfin hht
    -- dropping the payload gives a block that passes
    have hsame : b₁.withoutPayload.withoutPayload = b₁.withoutPayload := rfl
    rcases hshared b₁.withoutPayload
      (hashedIn_of_withoutPayload_eq hsame h₁) rfl with hfails | hfails
    · exact hfails (checkBlock_withoutPayload hmarks.checked)
    · exact hfails ((contextualCheckBlock_ok_iff ..).mpr
        ⟨hfin, hht, hwit, (checkWeight_ok_iff _).mpr hweight⟩)
  · intro hfails b₂ h₂ hhash
    by_contra hpass
    simp only [not_or, not_not] at hpass
    exact not_failsCommitted hsha hblake h₁ h₂ hmarks.checked hctx hres hpass.1 hpass.2
      hhash hfails

/-! ### A mark that is shared -/

/-- A coinbase transaction that is not final before height six. -/
def lateCoinbase : CTransaction :=
  { CTransaction.ofInput ⟨.null, ⟨[0x51, 0x00], by decide⟩, 0, .empty⟩
      (some ⟨0, ⟨[], CScript.nil_lt⟩⟩) with nLockTime := 5 }

def lateBlock : CBlock where
  nVersion := 4
  hashPrevBlock := uint256S 0x000000fcf39055b547e94e610f1008b8046f942bbb730e8b6dfa6232931902db
  hashMerkleRoot := uint256S 0xf70534a9d1fcb82b07f00eaed5c9aa19d9b67252cbfc92d9b0873af5147d5954
  nTime := 1411790000
  nBits := 0x207fffff
  nNonce := 0
  auxpow := none
  vtx := [lateCoinbase]

theorem marks_shared_iff_committed_late : ∃ s' pindex,
    (loadGenesisBlock regtestEnv).MarksFailed regtestEnv 1411790000 lateBlock true true s' pindex ∧
      ∀ b₂ : CBlock,
        b₂.HashedIn {bs | bs ∈ lateBlock.shaStrings} {serPureHeader lateBlock.toCPureBlockHeader} →
          b₂.getHash = lateBlock.getHash → checkBlock regtestEnv b₂ true ≠ .ok () ∨
              contextualCheckBlock regtestEnv (s'.branch pindex.pprev) b₂ ≠ .ok () := by
  have hchk : checkBlock regtestEnv lateBlock true = .ok () := by decide +kernel
  have hsha : ∀ x ∈ lateBlock.shaStrings, ∀ y ∈ lateBlock.shaStrings, sha256 x = sha256 y →
    x = y := by
    decide +kernel
  have hacc : ((acceptBlockHeader regtestEnv 1411790000 (loadGenesisBlock regtestEnv)
      lateBlock.toCBlockHeader true).2.toOption.any fun pindex =>
        !pindex.hasStatus haveData &&
          decide (checkFinality regtestParams
            ((acceptBlockHeader regtestEnv 1411790000 (loadGenesisBlock regtestEnv)
              lateBlock.toCBlockHeader true).1.branch pindex.pprev) lateBlock =
              .error ⟨.consensus, "bad-txns-nonfinal", "non-final transaction"⟩)) = true := by
    decide +kernel
  have hmark := marks_shared_iff_committed (S := {bs | bs ∈ lateBlock.shaStrings})
    (T := {serPureHeader lateBlock.toCPureBlockHeader}) (fun x hx y hy => hsha x hx y hy)
    (Set.injOn_singleton _ _) regtestEnv 1411790000
      (loadGenesisBlock regtestEnv) lateBlock true true
    ⟨fun _ h => h, rfl⟩
  generalize hr : acceptBlockHeader regtestEnv 1411790000 (loadGenesisBlock regtestEnv)
    lateBlock.toCBlockHeader true = r at hacc
  obtain ⟨s', e | pindex⟩ := r
  · cases hacc
  · simp only [Except.toOption, Option.any_some, Bool.and_eq_true, Bool.not_eq_true',
      decide_eq_true_iff] at hacc
    obtain ⟨hmiss, hfin⟩ := hacc
    have hmarks :
        (loadGenesisBlock regtestEnv).MarksFailed regtestEnv 1411790000 lateBlock true true
        s' pindex := by
      refine ⟨hchk, hr, hmiss, rfl,
        ⟨.consensus, "bad-txns-nonfinal", "non-final transaction"⟩, ?_, by decide⟩
      rw [checkBlockInPlace_eq hchk, contextualCheckBlock,
        show regtestEnv.consensus = regtestParams from rfl, hfin]
      rfl
    refine ⟨s', pindex, hmarks, hmark.mpr (fun t p ht => Or.inl ?_) s' pindex hmarks⟩
    obtain ⟨rfl, hp⟩ := Prod.mk.inj (hr.symm.trans ht.header)
    cases hp
    exact fun hok => by cases hfin.symm.trans hok

/-! ### A mark that is not -/

/-- A coinbase transaction that commits to the witnesses of a block with no
other transaction. -/
def witnessCoinbase : CTransaction :=
  .ofInput ⟨.null, ⟨[0x51, 0x00], by decide⟩, sequenceFinal,
      ⟨[replicate 32 0], by decide, by decide⟩⟩
    (some ⟨0, ⟨[0x6a, 0x24, 0xaa, 0x21, 0xa9, 0xed] ++ (hash256 (replicate 64 0)).data,
      by simp [Uint256.size]⟩⟩)

def sharedHeader : CPureBlockHeader where
  nVersion := 0x60104
  hashPrevBlock := uint256S 0x000000fcf39055b547e94e610f1008b8046f942bbb730e8b6dfa6232931902db
  hashMerkleRoot := uint256S 0x2d43089cc91f7cb7742b183aaea95ccd30c698eb83f196339eac2e93685d93ca
  nTime := 1411790000
  nBits := 0x207fffff
  nNonce := 0

/-- The coinbase transaction of a parent block, with a given script. -/
def parentCoinbase (scriptSig : CScript) : CTransaction :=
  .ofInput ⟨.null, scriptSig, sequenceFinal, .empty⟩ none

/-- A payload with a parent that was mined for a child and no other chain. -/
def soloPayload (child : Uint256) (nNonce : UInt32) : CAuxPow :=
  let tx := parentCoinbase ⟨pchMergedMiningHeader ++ (child.data.reverse ++
    (natToLE 4 1 ++ natToLE 4 0)), by simp [pchMergedMiningHeader, child.size]⟩
  { coinbaseTx := some tx
    merkleBranch := []
    vChainMerkleBranch := []
    nChainIndex := 0
    parentBlock := ⟨1, .zero, tx.getHash, 1411790000, 0x207fffff, nNonce⟩ }

def honestBlock : CBlock :=
  { sharedHeader with
    auxpow := some (soloPayload sharedHeader.getHash 2)
    vtx := [witnessCoinbase] }

/-- The size of a payload of which most is a script of zeros. -/
theorem serAuxPow_padding {n : Nat} (hlow : 0xffff < n) (h : n < 2 ^ 32)
    (parentBlock : CPureBlockHeader) :
    (serAuxPow ⟨some (parentCoinbase ⟨replicate n 0, by rwa [length_replicate]⟩), [], [], 0,
      parentBlock⟩).length = n + 177 := by
  have hscr : (serBytes (replicate n 0)).length = n + 5 := by
    rw [serBytes, length_append, length_replicate, writeCompactSize, if_neg (by omega),
      if_neg (by omega), if_pos (by omega)]
    simp only [length_append, natToLE_length]
    omega
  let tx := parentCoinbase ⟨replicate n 0, by rwa [length_replicate]⟩
  have hvin : (serVector serTxIn tx.vin).length = n + 46 := by
    simp only [tx, parentCoinbase, CTransaction.ofInput, serVector, flatMap_cons, flatMap_nil,
      serTxIn, serOutPoint, length_append, serUint256_length, serUInt32_length, hscr]
    simp only [length_cons, length_nil, show (writeCompactSize (0 + 1)).length = 1 from rfl]
    omega
  have hwit : tx.hasWitness = false := rfl
  have hvout : (serVector serTxOut tx.vout).length = 1 := rfl
  have hbr : (serVector serUint256 ([] : List Uint256)).length = 1 := rfl
  dsimp only [tx] at hvin hwit hvout
  simp only [serAuxPow, serTransaction, hwit, Bool.and_false, Bool.false_eq_true, if_false,
    length_append, length_nil, serInt32_length, serUInt32_length, serUint256_length,
    serPureHeader_length, hvin, hvout, hbr]
  omega

/-- A payload that says nothing in 999819 bytes. -/
def bulkyPayload : CAuxPow where
  coinbaseTx := some (parentCoinbase ⟨replicate 999642 0,
    by rw [length_replicate]; decide⟩)
  merkleBranch := []
  vChainMerkleBranch := []
  nChainIndex := 0
  parentBlock := sharedHeader

def bulkyBlock : CBlock := { honestBlock with auxpow := some bulkyPayload }

theorem serPayload_bulkyBlock : (serPayload bulkyBlock.toCBlockHeader).length = 999819 := by
  have hflag : bulkyBlock.isAuxpow = true := by decide
  rw [serPayload, if_pos hflag]
  exact serAuxPow_padding (by norm_num) (by norm_num) _

/-- The node after the honest header has been announced. -/
def announced : NodeState × Except Invalid Unit :=
  processNewBlockHeaders regtestEnv 1411790000 true (loadGenesisBlock regtestEnv)
    [honestBlock.toCBlockHeader]

theorem announced_entry : announced.2 = .ok () ∧
    ((announced.1.lookupBlockIndex honestBlock.getHash).any fun pindex =>
      !pindex.hasStatus failedMask && !pindex.hasStatus haveData &&
        decide (contextualCheckBlock regtestEnv (announced.1.branch pindex.pprev) honestBlock =
          .ok ())) = true := by
  decide +kernel

theorem bulkyBlock_withoutPayload : bulkyBlock.withoutPayload = honestBlock.withoutPayload := rfl

theorem checkBlock_bulkyBlock (h : checkBlock regtestEnv honestBlock true = .ok ()) :
    checkBlock regtestEnv bulkyBlock true = .ok () := by
  refine checkBlock_of_withoutPayload_eq bulkyBlock_withoutPayload h ?_ ?_
  · have hflag : honestBlock.isAuxpow = true := by decide
    simp [checkBlockHeader, hflag, bulkyBlock]
  · have hlen : (serBlock false honestBlock.withoutPayload).length = 181 := by decide +kernel
    have hvtx : bulkyBlock.vtx = [witnessCoinbase] := rfl
    rw [checkBlockLength, serBlock_length_withoutPayload, serPayload_bulkyBlock,
      bulkyBlock_withoutPayload, hlen, hvtx]
    decide +kernel

theorem bulkyBlock_weight : maxBlockWeight < getBlockWeight bulkyBlock := by
  have hlight : getBlockWeight honestBlock.withoutPayload = 760 := by decide +kernel
  rw [getBlockWeight_withoutPayload, serPayload_bulkyBlock, bulkyBlock_withoutPayload, hlight]
  decide

/-- After an honest header has been announced, a copy of its block with another
payload is marked for a failure that the honest block does not share. -/
theorem bulky_payload_marks : ∃ pindex, Set.InjOn sha256 {bs | bs ∈ honestBlock.shaStrings} ∧
      bulkyBlock.HashedIn {bs | bs ∈ honestBlock.shaStrings} {serPureHeader sharedHeader} ∧
      honestBlock.HashedIn {bs | bs ∈ honestBlock.shaStrings} {serPureHeader sharedHeader} ∧
      honestBlock.getHash = bulkyBlock.getHash ∧ announced.2 = .ok () ∧
      announced.1.MarksFailed regtestEnv 1411790000 bulkyBlock true true announced.1 pindex ∧
      checkBlock regtestEnv honestBlock true = .ok () ∧
      contextualCheckBlock regtestEnv (announced.1.branch pindex.pprev) honestBlock = .ok () := by
  have hsha : ∀ x ∈ honestBlock.shaStrings, ∀ y ∈ honestBlock.shaStrings,
      sha256 x = sha256 y → x = y := by
    decide +kernel
  have hchk : checkBlock regtestEnv honestBlock true = .ok () := by decide +kernel
  have hgen : bulkyBlock.getHash ≠ regtestEnv.hashGenesisBlock := by decide +kernel
  obtain ⟨hann, hent⟩ := announced_entry
  obtain ⟨pindex, hlook, hent⟩ := (Option.any_eq_true ..).mp hent
  simp only [Bool.and_eq_true, Bool.not_eq_true', decide_eq_true_iff] at hent
  obtain ⟨⟨hfail, hmiss⟩, hctx⟩ := hent
  have hhashed : honestBlock.HashedIn {bs | bs ∈ honestBlock.shaStrings}
      {serPureHeader sharedHeader} := ⟨fun _ h => h, rfl⟩
  have hhash : bulkyBlock.getHash = honestBlock.getHash := by
    rw [← getHash_withoutPayload, bulkyBlock_withoutPayload, getHash_withoutPayload]
  refine ⟨pindex, fun x hx y hy => hsha x hx y hy,
    hashedIn_of_withoutPayload_eq bulkyBlock_withoutPayload hhashed, hhashed, hhash.symm,
      hann, ⟨checkBlock_bulkyBlock hchk, ?_, hmiss, rfl,
      ⟨.consensus, "bad-blk-weight", "ContextualCheckBlock : weight limit failed"⟩, ?_, by decide⟩,
    hchk, hctx⟩
  · rw [acceptBlockHeader, if_neg hgen, hhash]
    simp [hlook, hfail]
  · rw [checkBlockInPlace_eq (checkBlock_bulkyBlock hchk),
      contextualCheckBlock_of_withoutPayload_eq bulkyBlock_withoutPayload hctx, checkWeight,
      if_pos bulkyBlock_weight]

end Lithium
