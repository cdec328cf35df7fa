import Lithium.Lib.Transition
import Lithium.Node.BlockStorage

/-!
# Accepting headers and blocks

`AcceptBlockHeader`, `AcceptBlock` and their callers from `validation.cpp`, as
functions on the node state. A function of the source that reports through a
`BlockValidationState` returns the new state together with what it reports, and
the new state is returned on failure too: a header can fail and still mark its
ancestors, a block can fail and still be marked itself.

Connecting blocks to the active chain depends on the coins database. It is a
relation here that says which parts of the state it leaves alone.
-/

namespace Lithium
open BlockStatus
namespace NodeState

/-! ### Transactions received -/

/-- `CBlockIndexWorkComparator`; the order of hashes stands for that of the
addresses. -/
def workLess (pa pb : CBlockIndex) : Bool :=
  if pa.nChainWork > pb.nChainWork then false
  else if pa.nChainWork < pb.nChainWork then true
  else if pa.nSequenceId < pb.nSequenceId then false
  else if pa.nSequenceId > pb.nSequenceId then true
  else decide (pa.phashBlock > pb.phashBlock)

section
variable (s : NodeState)

def tryAddBlockIndexCandidate (hash : Uint256) (pindex : CBlockIndex) : NodeState :=
  if s.tip.any fun tip => workLess pindex tip then s
  else { s with setBlockIndexCandidates := hash :: s.setBlockIndexCandidates }

/-- The entry of a block whose predecessors all have their transactions. -/
def linkedEntry (pindex : CBlockIndex) : CBlockIndex :=
  let parentTx : UInt32 := match pindex.pprev.bind s.lookupBlockIndex with
    | none => 0
    | some pprev => pprev.nChainTx
  { pindex with nChainTx := parentTx + pindex.nTx, nSequenceId := s.nBlockSequenceId }

def linkBlock (hash : Uint256) (pindex : CBlockIndex) : NodeState :=
  let s' := s.modifyEntry hash fun _ => s.linkedEntry pindex
  tryAddBlockIndexCandidate { s' with nBlockSequenceId := s.nBlockSequenceId + 1 } hash
    (s.linkedEntry pindex)

/-- The loop over a block and the blocks that waited for it; `n` bounds the
blocks taken from the queue. -/
def linkQueue : Nat → List Uint256 → NodeState → NodeState
  | 0, _, s => s
  | _ + 1, [], s => s
  | n + 1, hash :: queue, s =>
    match s.lookupBlockIndex hash with
    | none => linkQueue n queue s
    | some pindex =>
      let range := s.blocksUnlinked.filter fun link => link.1 == hash
      linkQueue n (queue ++ range.map Prod.snd)
        { s.linkBlock hash pindex with
          blocksUnlinked := s.blocksUnlinked.filter fun link => link.1 != hash }

/-- The entry of a block whose transactions have been stored. -/
def withTransactions (params : Params) (block : CBlock) (pos : FlatFilePos) (pindex : CBlockIndex) :
    CBlockIndex :=
  let witness :=
    if params.deploymentHeight .segwit ≤ pindex.nHeight then optWitness else 0
  { pindex with
      nTx := UInt32.ofNat block.vtx.length
      nChainTx := 0
      nFile := pos.nFile
      nDataPos := pos.nPos
      nUndoPos := 0
      auxpow := block.auxpow
      nStatus := pindex.nStatus ||| haveData ||| witness }.raiseValidity
    validTransactions

/-- `ReceivedBlockTransactions` for the entry of the block's hash. -/
def receivedBlockTransactions (env : ChainEnv) (block : CBlock) (pos : FlatFilePos) : NodeState :=
  let hash := block.getHash
  let s := s.modifyEntry hash (withTransactions env.consensus block pos)
  match (s.lookupBlockIndex hash).bind CBlockIndex.pprev with
  | none => linkQueue (s.blocksUnlinked.length + 1) [hash] s
  | some prevHash =>
    match s.lookupBlockIndex prevHash with
    | none => s
    | some pprev =>
      if pprev.nChainTx ≠ 0 then linkQueue (s.blocksUnlinked.length + 1) [hash] s
      else if pprev.isValid validTree then
        { s with blocksUnlinked := s.blocksUnlinked ++ [(prevHash, hash)] }
      else s

/-! ### Headers -/

/-- A failed block on the branch of a predecessor. It is only looked for if the
predecessor has not been fully validated. -/
def failedAncestor (pindexPrev : CBlockIndex) (branch : Branch) : Option Uint256 :=
  if pindexPrev.isValid validScripts then none
  else
    s.failedBlocks.find? fun hash =>
      match s.lookupBlockIndex hash with
      | none => false
      | some failedit => (getAncestor branch failedit.nHeight).any fun e => e.phashBlock == hash

/-- Mark the blocks of a branch down to a failed one. -/
def markFailedChildren (branch : Branch) (failed : Uint256) : NodeState :=
  (branch.takeWhile fun e => e.phashBlock != failed).foldl
    (fun s e => s.modifyEntry e.phashBlock fun e =>
      { e with nStatus := e.nStatus ||| failedChild }) s

/-- The end of `AcceptBlockHeader`. -/
def addHeader (block : CBlockHeader) (minPowChecked : Bool) :
    NodeState × Except Invalid CBlockIndex :=
  if !minPowChecked then (s, .error ⟨.headerLowWork, "too-little-chainwork", ""⟩)
  else
    match s.addToBlockIndex block with
    | (s, pindex) => (s, .ok pindex)

end

section
variable (env : ChainEnv)

/-- `AcceptBlockHeader` for a header that is not known yet. -/
def acceptNewHeader (now : Int) (s : NodeState) (block : CBlockHeader)
    (minPowChecked : Bool) : NodeState × Except Invalid CBlockIndex :=
  match checkBlockHeader block env.consensus true with
  | .error e => (s, .error e)
  | .ok () =>
    match s.lookupBlockIndex block.hashPrevBlock with
    | none => (s, .error ⟨.missingPrev, "prev-blk-not-found", ""⟩)
    | some pindexPrev =>
      let branch := s.branch (some block.hashPrevBlock)
      if pindexPrev.hasStatus failedMask then
        (s, .error ⟨.invalidPrev, "bad-prevblk", ""⟩)
      else
        match contextualCheckBlockHeader env s.lookupBlockIndex pindexPrev branch now block with
        | .error e => (s, .error e)
        | .ok () =>
          match s.failedAncestor pindexPrev branch with
          | some failed =>
            (s.markFailedChildren branch failed, .error ⟨.invalidPrev, "bad-prevblk", ""⟩)
          | none => s.addHeader block minPowChecked

/-- `AcceptBlockHeader`. A known header is not looked at again, whatever payload
it comes with this time. -/
def acceptBlockHeader (now : Int) (s : NodeState) (block : CBlockHeader)
    (minPowChecked : Bool) : NodeState × Except Invalid CBlockIndex :=
  if block.getHash = env.hashGenesisBlock then s.addHeader block minPowChecked
  else
    match s.lookupBlockIndex block.getHash with
    | some pindex =>
      if pindex.hasStatus failedMask then
        (s, .error ⟨.cachedInvalid, "duplicate", ""⟩)
      else (s, .ok pindex)
    | none => acceptNewHeader env now s block minPowChecked

/-- `ProcessNewBlockHeaders`: the first header that is rejected ends the call. -/
def processNewBlockHeaders (env : ChainEnv) (now : Int) (minPowChecked : Bool) :
    NodeState → List CBlockHeader → NodeState × Except Invalid Unit
  | s, [] => (s, .ok ())
  | s, header :: rest =>
    match acceptBlockHeader env now s header minPowChecked with
    | (s, .error e) => (s, .error e)
    | (s, .ok _) => processNewBlockHeaders env now minPowChecked s rest

/-! ### Blocks -/

def minBlocksToKeep : Int := 288

/-- An unrequested block is not worth processing. -/
def isUninteresting (s : NodeState) (pindex : CBlockIndex) : Bool := pindex.nTx != 0 ||
    s.tip.any (fun tip => decide (pindex.nChainWork < tip.nChainWork)) ||
    decide (pindex.nHeight > s.chainHeight + minBlocksToKeep) ||
    decide (pindex.nChainWork < env.minimumChainWork)

/-- The checks of `AcceptBlock`. -/
def checkBlockInPlace (s : NodeState) (pindex : CBlockIndex) (block : CBlock) :
    Except Invalid Unit := do
  checkBlock env block true
  contextualCheckBlock env (s.branch pindex.pprev) block

/-- `AcceptBlock`; on success the flag says whether the block was stored. -/
def acceptBlock (now : Int) (s : NodeState) (block : CBlock)
    (fRequested minPowChecked : Bool) : NodeState × Except Invalid Bool :=
  match acceptBlockHeader env now s block.toCBlockHeader minPowChecked with
  | (s, .error e) => (s, .error e)
  | (s, .ok pindex) =>
    if pindex.hasStatus haveData then (s, .ok false)
    else if !fRequested && isUninteresting env s pindex then (s, .ok false)
    else
      match checkBlockInPlace env s pindex block with
      | .error e =>
        if e.result = .mutated then (s, .error e)
        else
          (s.modifyEntry block.getHash fun pindex =>
            { pindex with nStatus := pindex.nStatus ||| failedValid }, .error e)
      | .ok () =>
        match s.saveBlockToDisk env block pindex.nHeight with
        | (s, pos) => (s.receivedBlockTransactions env block pos, .ok true)

/-- The part of `ProcessNewBlock` before the active chain is updated. -/
def storeNewBlock (now : Int) (s : NodeState) (block : CBlock)
    (forceProcessing minPowChecked : Bool) : NodeState × Except Invalid Bool :=
  match checkBlock env block true with
  | .error e => (s, .error e)
  | .ok () => acceptBlock env now s block forceProcessing minPowChecked

/-- `LoadGenesisBlock` into an empty block index. -/
def loadGenesisBlock : NodeState :=
  match empty.saveBlockToDisk env env.genesis 0 with
  | (s, pos) =>
    (s.addToBlockIndex env.genesis.toCBlockHeader).1.receivedBlockTransactions env env.genesis pos

end
end NodeState

/-! ### Connecting blocks, and runs of a node -/

/-- An entry without the fields that connecting blocks may change. -/
def CBlockIndex.core (e : CBlockIndex) : CBlockIndex :=
  { e with
    nUndoPos := 0
    nChainTx := 0
    nSequenceId := 0
    nStatus := e.nStatus &&& haveData }

/-- Two states with the same block tree and the same stored blocks. -/
structure NodeState.SameBlocks (s t : NodeState) : Prop where
  entries : ∀ hash, (t.lookupBlockIndex hash).map CBlockIndex.core =
    (s.lookupBlockIndex hash).map CBlockIndex.core
  files : t.blockFiles = s.blockFiles
  fileSizes : ∀ nFile, (t.fileInfo nFile).nSize = (s.fileInfo nFile).nSize
  fileCount : t.blockfileInfo.length = s.blockfileInfo.length
  lastFile : t.lastBlockfile = s.lastBlockfile

/-- A call from the network or from the user. -/
inductive Call where
  | newHeaders (headers : List CBlockHeader) (minPowChecked : Bool) (now : Int)
  | newBlock (block : CBlock) (forceProcessing minPowChecked : Bool) (now : Int)

/-- What a call does. After a block has been accepted `ActivateBestChain` may
change anything but the tree and the stored blocks. -/
def NodeState.Step (env : ChainEnv) (s : NodeState) (call : Call) (t : NodeState) : Prop :=
  match call with
  | .newHeaders headers minPowChecked now =>
    t = (processNewBlockHeaders env now minPowChecked s headers).1
  | .newBlock block forceProcessing minPowChecked now =>
    match storeNewBlock env now s block forceProcessing minPowChecked with
    | (s', .error _) => t = s'
    | (s', .ok _) => s'.SameBlocks t

end Lithium
