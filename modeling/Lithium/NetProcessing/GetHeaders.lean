import Lithium.Encodings
import Lithium.Validation.AcceptedChain
import Lithium.Validation.FailureMarking

/-!
# Serving headers

The answer of `ProcessMessage` to `getheaders`, and what the receiving side does
with the answer before it looks at the headers: the transport drops a message
that announces too many bytes, and `ProcessMessage` one with too many headers.

A reply is limited to two thousand headers and not in bytes, while each header
carries a merge-mining payload of up to a million bytes. Whether replies get
through, and whether a peer that asks again and again gets to the tip, is
therefore decided by the sizes of runs of consecutive headers on the active
chain.
-/

namespace Lithium
open Lib

def maxLocatorSz : Nat := 101

def maxProtocolMessageLength : Nat := 4 * 1000 * 1000

def staleRelayAgeLimit : Int := 30 * 24 * 60 * 60

/-! ### The active chain -/

namespace NodeState

section
variable (s : NodeState)

/-- `CChain::operator[]`. -/
def chainAt (nHeight : Int) : Option CBlockIndex :=
  if nHeight < 0 then none else (s.chain.reverse[nHeight.toNat]?).bind s.lookupBlockIndex

section
variable (pindex : CBlockIndex)

/-- `CChain::Contains`; entries are compared as pointers. -/
def chainContains : Bool :=
  (s.chainAt pindex.nHeight).any fun e => e.phashBlock == pindex.phashBlock

def chainNext : Option CBlockIndex :=
  if s.chainContains pindex then s.chainAt (pindex.nHeight + 1) else none

def findForkInGlobalIndex (s : NodeState) : List Uint256 → Option CBlockIndex
  | [] => s.chainAt 0
  | hash :: vHave =>
    match s.lookupBlockIndex hash with
    | none => s.findForkInGlobalIndex vHave
    | some pindex =>
      if s.chainContains pindex then some pindex
      else if (getAncestor (s.branch (some hash)) s.chainHeight).map CBlockIndex.phashBlock =
          s.tip.map CBlockIndex.phashBlock then s.tip
      else s.findForkInGlobalIndex vHave

/-! ### Headers from the index and the block files -/

def readBlockHeader : Option CBlockHeader :=
  match getBlockPos pindex with
  | none => none
  | some pos =>
    match readHeader ((s.blockFiles pos.nFile).drop pos.nPos.toNat) with
    | .error _ => none
    | .ok (block, _) => if block.getHash ≠ pindex.phashBlock then none else some block

/-- `CBlockIndex::GetBlockHeader` with a block manager: the file is preferred for a
header with a payload. -/
def servedHeader : CBlockHeader :=
  if pindex.getBlockHeader.isAuxpow then (s.readBlockHeader pindex).getD pindex.getBlockHeader
  else pindex.getBlockHeader

end
end
end NodeState

/-! ### The reply -/

def getBlockProofEquivalentTime (last first tip : CBlockIndex) (params : Params) : Int :=
  let ahead : Bool := decide (first.nChainWork < last.nChainWork)
  let r := if ahead then last.nChainWork - first.nChainWork else first.nChainWork - last.nChainWork
  let r := r * BitVec.ofInt 256 params.nPowTargetSpacing / getBlockProof tip.nBits
  let time : Int := if bits r > 63 then 2 ^ 63 - 1 else r.toNat
  if ahead then time else -time

namespace NodeState

def blockRequestAllowed (s : NodeState) (params : Params) (pindex : CBlockIndex) : Bool :=
  if s.chainContains pindex then true
  else
    pindex.isValid BlockStatus.validScripts &&
      (s.bestHeader.bind s.lookupBlockIndex).any fun best =>
        decide ((best.nTime.toNat : Int) - pindex.nTime.toNat < staleRelayAgeLimit) &&
          decide (getBlockProofEquivalentTime best pindex best params < staleRelayAgeLimit)

/-- The loop that collects the headers; `nLimit` is what is left of the limit. -/
def collectHeaders (s : NodeState) (hashStop : Uint256) : Nat → Option CBlockIndex →
    List CBlockHeader
  | 0, _ => []
  | _ + 1, none => []
  | nLimit + 1, some pindex =>
    s.servedHeader pindex ::
      (if nLimit = 0 ∨ pindex.phashBlock = hashStop then []
      else s.collectHeaders hashStop nLimit (s.chainNext pindex))

end NodeState

/-- What is known of the node and of the peer besides the chain. -/
structure GetHeadersContext where
  env : ChainEnv
  /-- `LoadingBlocks` -/
  loadingBlocks : Bool
  /-- `NetPermissionFlags::Download` -/
  download : Bool

inductive GetHeadersResult where
  | ignored
  | disconnected
  | headers (vHeaders : List CBlockHeader)

namespace NodeState

/-- The tip is missing, or has too little work for a peer without permission. -/
def tooLittleWork (s : NodeState) (ctx : GetHeadersContext) : Bool :=
  match s.tip with
  | none => true
  | some tip => decide (tip.nChainWork < ctx.env.minimumChainWork) && !ctx.download

/-- `ProcessMessage` for `getheaders`. -/
def processGetHeaders (s : NodeState) (ctx : GetHeadersContext) (vHave : List Uint256)
    (hashStop : Uint256) : GetHeadersResult :=
  if vHave.length > maxLocatorSz then .disconnected
  else if ctx.loadingBlocks then .ignored
  else if s.tooLittleWork ctx then .headers []
  else if vHave.isEmpty then
    match s.lookupBlockIndex hashStop with
    | none => .ignored
    | some pindex =>
      if s.blockRequestAllowed ctx.env.consensus pindex then
        .headers (s.collectHeaders hashStop maxHeadersResults (some pindex))
      else .ignored
  else
    .headers (s.collectHeaders hashStop maxHeadersResults
      ((s.findForkInGlobalIndex vHave).bind s.chainNext))

end NodeState

/-! ### The receiving side -/

inductive HeadersFailure where
  /-- the transport closes the connection -/
  | messageSize
  | misbehaving (nCount : Nat)
  | deserialize
deriving DecidableEq

/-- `readHeader` of the transport: the size is announced in thirty-two bits. -/
def acceptsMessageSize (data : Bytes) : Bool :=
  let nMessageSize := UInt32.ofNat data.length
  !(decide (nMessageSize.toNat > maxSize) || decide (nMessageSize.toNat > maxProtocolMessageLength))

/-- `ProcessMessage` for `headers`, up to the headers themselves. -/
def receiveHeaders (data : Bytes) : Except HeadersFailure (List CBlockHeader) :=
  if !acceptsMessageSize data then .error .messageSize
  else
    match readCompactSize.run data with
    | .error _ => .error .deserialize
    | .ok (nCount, rest) =>
      if nCount.1 > maxHeadersResults then .error (.misbehaving nCount.1)
      else
        match (Decoder.many readHeaderEntry nCount.1).run rest with
        | .error _ => .error .deserialize
        | .ok (headers, _) => .ok headers.1

/-- One round of a peer that holds the first headers of the chain: it asks for what
follows its last header and keeps what it receives. -/
def syncRound (s : NodeState) (ctx : GetHeadersContext) (locator : List CBlockHeader → List Uint256)
    (known : List CBlockHeader) : List CBlockHeader :=
  match s.processGetHeaders ctx (locator known) .zero with
  | .headers vHeaders =>
    match receiveHeaders (serHeadersMessage vHeaders) with
    | .ok headers => known ++ headers
    | .error _ => known
  | _ => known

end Lithium
