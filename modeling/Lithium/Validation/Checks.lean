import Lithium.Consensus.Merkle
import Lithium.Consensus.TxCheck
import Lithium.Pow

/-!
# Checks of headers and blocks

The validity checks of `validation.cpp`, split as there into those that look at
a block alone and those that know its place in the tree. Every rejection
carries a result, and the result decides whether a block may be remembered as
invalid: a *mutated* block may not, since an honest block with the same hash
can still arrive.

The checks of work are divided over three functions. `checkBlockHeader` tests
the work of a header that neither has a payload nor announces one, and nothing
else; the rest is left to `contextualCheckBlockHeader`, which only sees headers
that are new.
-/

namespace Lithium
open Lib

inductive BlockValidationResult where
  | consensus
  | cachedInvalid
  | invalidHeader
  | mutated
  | missingPrev
  | invalidPrev
  | timeFuture
  | checkpoint
  | headerLowWork
deriving DecidableEq

/-- A `BlockValidationState` that is not valid. -/
structure Invalid where
  result : BlockValidationResult
  rejectReason : String
  debugMessage : String
deriving DecidableEq

/-- What validation reads besides the block tree: `CChainParams` and the
options of `ChainstateManager`. -/
structure ChainEnv where
  /-- `NetworkIDString() == CBaseChainParams::MAIN` -/
  isMain : Bool
  consensus : Params
  genesis : CBlock
  messageStart : Bytes
  messageStart_size : messageStart.length = 4
  /-- by increasing height -/
  checkpoints : List (Int × Uint256)
  checkpointsEnabled : Bool
  minimumChainWork : ArithUint256
  /-- `AssumedValidBlock`, the hash of a block whose history is taken to be valid -/
  assumedValidBlock : Uint256
  /-- `CheckSignetBlockSolution`, which reads the header and the transactions -/
  checkSignetBlockSolution : CPureBlockHeader → List CTransaction → Bool

def ChainEnv.hashGenesisBlock (env : ChainEnv) : Uint256 := env.genesis.getHash

/-- `DeploymentActiveAfter` for the rules with a fixed height. -/
def deploymentActiveAfter (params : Params) (pindexPrev : Option CBlockIndex)
    (dep : BuriedDeployment) : Bool :=
  decide (params.deploymentHeight dep ≤ (match pindexPrev with
    | none => 0
    | some prev => prev.nHeight + 1))

/-! ### The header alone -/

def checkBlockHeader (block : CBlockHeader) (params : Params) (fCheckPOW : Bool) :
    Except Invalid Unit :=
  if block.auxpow.isSome && !block.isAuxpow then
    .error ⟨.invalidHeader, "bad-auxpow", "auxpow on block with non-auxpow version"⟩
  else if fCheckPOW && block.auxpow.isNone && !block.isAuxpow &&
      !checkProofOfWork block.getPoWHash block.nBits params then
    .error ⟨.invalidHeader, "high-hash", "proof of work failed"⟩
  else .ok ()

/-! ### The block alone -/

section
variable (block : CBlock)

def checkMerkleRoot : Except Invalid Unit :=
  match blockMerkleRoot block with
  | (hashMerkleRoot2, mutated) =>
    if block.hashMerkleRoot ≠ hashMerkleRoot2 then
      .error ⟨.mutated, "bad-txnmrklroot", "hashMerkleRoot mismatch"⟩
    else if mutated then .error ⟨.mutated, "bad-txns-duplicate", "duplicate transaction"⟩
    else .ok ()

variable (env : ChainEnv)

def checkSignet (block : CBlock) (fCheckPOW : Bool) : Except Invalid Unit :=
  if env.consensus.signetBlocks && fCheckPOW &&
      !env.checkSignetBlockSolution block.toCPureBlockHeader block.vtx then
    .error ⟨.consensus, "bad-signet-blksig", "signet block signature validation failure"⟩
  else .ok ()

/-- The size counts the payload of the header, and no witnesses. -/
def checkBlockLength : Except Invalid Unit :=
  if block.vtx.isEmpty || decide (block.vtx.length * witnessScaleFactor > maxBlockWeight) ||
      decide ((serBlock false block).length * witnessScaleFactor > maxBlockWeight) then
    .error ⟨.consensus, "bad-blk-length", "size limits failed"⟩
  else .ok ()

def checkCoinbases : Except Invalid Unit :=
  match block.vtx with
  | [] => .error ⟨.consensus, "bad-cb-missing", "first tx is not coinbase"⟩
  | coinbase :: rest =>
    if !coinbase.isCoinBase then
      .error ⟨.consensus, "bad-cb-missing", "first tx is not coinbase"⟩
    else if rest.any CTransaction.isCoinBase then
      .error ⟨.consensus, "bad-cb-multiple", "more than one coinbase"⟩
    else .ok ()

def checkTransactions : List CTransaction → Except Invalid Unit
  | [] => .ok ()
  | tx :: rest =>
    match checkTransaction tx with
    | .error reason =>
      .error ⟨.consensus, reason,
        "Transaction check failed (tx hash " ++ tx.getHash.getHex ++ ") "⟩
    | .ok () => checkTransactions rest

def checkSigOps : Except Invalid Unit :=
  let nSigOps : UInt32 := block.vtx.foldl (fun n tx => n + tx.getLegacySigOpCount) 0
  if (nSigOps * UInt32.ofNat witnessScaleFactor).toNat > maxBlockSigopsCost then
    .error ⟨.consensus, "bad-blk-sigops", "out-of-bounds SigOpCount"⟩
  else .ok ()

/-- `CheckBlock`. The flags by which a block remembers that it passed only save
the work of checking it again. -/
def checkBlock (block : CBlock) (fCheckPOW : Bool) : Except Invalid Unit := do
  checkBlockHeader block.toCBlockHeader env.consensus fCheckPOW
  checkSignet env block fCheckPOW
  checkMerkleRoot block
  checkBlockLength block
  checkCoinbases block
  checkTransactions block.vtx
  checkSigOps block

/-! ### The header in its place -/

def maxFutureBlockTime : Int := 2 * 60 * 60

variable (lookup : Uint256 → Option CBlockIndex)

/-- `GetLastCheckpoint`: the highest checkpoint that is in the index. -/
def getLastCheckpoint : Option CBlockIndex :=
  env.checkpoints.reverse.findSome? fun c => lookup c.2

def isOutdatedVersion (params : Params) (pindexPrev : CBlockIndex) (block : CBlockHeader) : Bool :=
  (decide (block.getBaseVersion < 2) && deploymentActiveAfter params
    (some pindexPrev) .heightInCb) ||
    (decide (block.getBaseVersion < 3) && deploymentActiveAfter params (some pindexPrev) .dersig) ||
    (decide (block.getBaseVersion < 4) && deploymentActiveAfter params (some pindexPrev) .cltv)

/-- `ContextualCheckBlockHeader`; the branch starts with `pindexPrev`. -/
def contextualCheckBlockHeader
    (pindexPrev : CBlockIndex) (branch : Branch) (now : Int) (block : CBlockHeader) :
    Except Invalid Unit :=
  let nHeight := pindexPrev.nHeight + 1
  if getNextWorkRequired branch block env.consensus ≠ some block.nBits then
    .error ⟨.invalidHeader, "bad-diffbits", "incorrect proof of work"⟩
  else if (checkAuxPowProofOfWork block env.consensus nHeight).toBool = false then
    .error ⟨.invalidHeader, "high-hash", "proof of work failed"⟩
  else if env.checkpointsEnabled &&
      (getLastCheckpoint env lookup).any fun pcheckpoint => nHeight < pcheckpoint.nHeight then
    .error ⟨.checkpoint, "bad-fork-prior-to-checkpoint", ""⟩
  else if (block.nTime.toNat : Int) ≤ getMedianTimePast branch then
    .error ⟨.invalidHeader, "time-too-old", "block's timestamp is too early"⟩
  else if (block.nTime.toNat : Int) > now + maxFutureBlockTime then
    .error ⟨.timeFuture, "time-too-new", "block timestamp too far in the future"⟩
  else if isOutdatedVersion env.consensus pindexPrev block then
    .error ⟨.invalidHeader, "bad-version(0x" ++ hex32 block.nVersion.toUInt32 ++ ")",
      "rejected nVersion=0x" ++ hex32 block.nVersion.toUInt32 ++ " block"⟩
  else .ok ()

/-! ### The block in its place -/

def minimumWitnessCommitment : Nat := 38

def isWitnessCommitment (scriptPubKey : CScript) : Bool :=
  decide (minimumWitnessCommitment ≤ scriptPubKey.bytes.length) &&
    scriptPubKey.bytes.take 6 == [0x6a, 0x24, 0xaa, 0x21, 0xa9, 0xed]

/-- The loop of `GetWitnessCommitmentIndex`: the last match wins. -/
def witnessCommitmentLoop : List CTxOut → Nat → Option Nat → Option Nat
  | [], _, commitpos => commitpos
  | vout :: rest, o, commitpos =>
    witnessCommitmentLoop rest (o + 1)
      (if isWitnessCommitment vout.scriptPubKey then some o else commitpos)

def getWitnessCommitmentIndex : Option Nat :=
  match block.vtx with
  | [] => none
  | coinbase :: _ => witnessCommitmentLoop coinbase.vout 0 none

def coinbaseOutputScript (o : Nat) : Bytes :=
  match block.vtx.head?.bind fun tx => tx.vout[o]? with
  | none => []
  | some vout => vout.scriptPubKey.bytes

def coinbaseWitness : List Bytes :=
  match block.vtx.head?.bind fun tx => tx.vin.head? with
  | none => []
  | some txin => txin.scriptWitness.stack

def checkWitnessMalleation (expectWitnessCommitment : Bool) : Except Invalid Unit :=
  match if expectWitnessCommitment then getWitnessCommitmentIndex block else none with
  | some commitpos =>
    match coinbaseWitness block with
    | [nonce] =>
      if nonce.length ≠ 32 then
        .error ⟨.mutated, "bad-witness-nonce-size",
          "CheckWitnessMalleation : invalid witness reserved value size"⟩
      else if (hash256 ((blockWitnessMerkleRoot block).1.data ++ nonce)).data ≠
          ((coinbaseOutputScript block commitpos).drop 6).take 32 then
        .error ⟨.mutated, "bad-witness-merkle-match",
          "CheckWitnessMalleation : witness merkle commitment mismatch"⟩
      else .ok ()
    | _ => .error ⟨.mutated, "bad-witness-nonce-size",
        "CheckWitnessMalleation : invalid witness reserved value size"⟩
  | none =>
    if block.vtx.any CTransaction.hasWitness then
      .error ⟨.mutated, "unexpected-witness",
        "CheckWitnessMalleation : unexpected witness data found"⟩
    else .ok ()

/-- `GetBlockWeight`: three times the size without witnesses plus the size. -/
def getBlockWeight : Nat :=
  (serBlock false block).length * (witnessScaleFactor - 1) + (serBlock true block).length

def checkFinality (params : Params) (branch : Branch) (block : CBlock) : Except Invalid Unit :=
  let nHeight : Int := match branch.head? with
    | none => 0
    | some prev => prev.nHeight + 1
  let nLockTimeCutoff : Int :=
    if deploymentActiveAfter params branch.head? .csv then getMedianTimePast branch
    else block.nTime.toNat
  if block.vtx.all fun tx => isFinalTx tx nHeight nLockTimeCutoff then .ok ()
  else .error ⟨.consensus, "bad-txns-nonfinal", "non-final transaction"⟩

def coinbaseScriptSig : Bytes :=
  match block.vtx.head?.bind fun tx => tx.vin.head? with
  | none => []
  | some txin => txin.scriptSig.bytes

def checkCoinbaseHeight (params : Params) (branch : Branch) (block : CBlock) :
    Except Invalid Unit :=
  let nHeight : Int := match branch.head? with
    | none => 0
    | some prev => prev.nHeight + 1
  if deploymentActiveAfter params branch.head? .heightInCb &&
      !(pushInt64 nHeight).isPrefixOf (coinbaseScriptSig block) then
    .error ⟨.consensus, "bad-cb-height", "block height mismatch in coinbase"⟩
  else .ok ()

def checkWeight : Except Invalid Unit :=
  if getBlockWeight block > maxBlockWeight then
    .error ⟨.consensus, "bad-blk-weight", "ContextualCheckBlock : weight limit failed"⟩
  else .ok ()

end

/-- `ContextualCheckBlock`; the branch starts with `pindexPrev`, and is empty
for the genesis block. -/
def contextualCheckBlock (env : ChainEnv) (branch : Branch) (block : CBlock) :
    Except Invalid Unit := do
  checkFinality env.consensus branch block
  checkCoinbaseHeight env.consensus branch block
  checkWitnessMalleation block (deploymentActiveAfter env.consensus branch.head? .segwit)
  checkWeight block

/-! ### What passed checks say -/

theorem andThen_ok {x y : Except Invalid Unit} : (do x; y) = .ok () ↔ x = .ok () ∧ y = .ok () := by
  cases x with
  | error e => exact iff_of_false nofun (fun h => nomatch h.1)
  | ok u => exact (and_iff_right rfl).symm

theorem checkTransactions_ok {vtx : List CTransaction} (h : checkTransactions vtx = .ok ()) :
    ∀ tx ∈ vtx, checkTransaction tx = .ok () := by
  induction vtx with
  | nil => simp
  | cons tx rest ih =>
    rw [checkTransactions] at h
    split at h
    · cases h
    next hfst => exact List.forall_mem_cons.mpr ⟨hfst, ih h⟩

theorem checkCoinbases_ok {block : CBlock} (h : checkCoinbases block = .ok ()) :
    ∃ coinbase rest, block.vtx = coinbase :: rest ∧ coinbase.isCoinBase = true ∧
      ∀ tx ∈ rest, tx.isCoinBase = false := by
  rw [checkCoinbases] at h
  split at h
  · cases h
  next coinbase rest hvtx =>
    split_ifs at h with hcb hrest
    refine ⟨coinbase, rest, hvtx, by simpa using hcb, ?_⟩
    simpa using hrest

theorem checkBlock_ok_iff (env : ChainEnv) (block : CBlock) (fCheckPOW : Bool) :
    checkBlock env block fCheckPOW = .ok () ↔
      checkBlockHeader block.toCBlockHeader env.consensus fCheckPOW = .ok () ∧
        checkSignet env block fCheckPOW = .ok () ∧ checkMerkleRoot block = .ok () ∧
        checkBlockLength block = .ok () ∧ checkCoinbases block = .ok () ∧
        checkTransactions block.vtx = .ok () ∧ checkSigOps block = .ok () := by
  simp [checkBlock, andThen_ok]

theorem contextualCheckBlock_ok_iff (env : ChainEnv) (branch : Branch) (block : CBlock) :
    contextualCheckBlock env branch block = .ok () ↔
      checkFinality env.consensus branch block = .ok () ∧
        checkCoinbaseHeight env.consensus branch block = .ok () ∧ checkWitnessMalleation block
          (deploymentActiveAfter env.consensus branch.head? .segwit) = .ok () ∧
        checkWeight block = .ok () := by
  simp [contextualCheckBlock, andThen_ok]

theorem checkWeight_ok_iff (block : CBlock) :
    checkWeight block = .ok () ↔ getBlockWeight block ≤ maxBlockWeight := by
  rw [checkWeight]
  split_ifs with h
  · exact iff_of_false nofun (by omega)
  · exact iff_of_true rfl (by omega)

end Lithium
