import Lithium.Lib.HashChain
import Lithium.Pow

/-!
# Downloading headers twice

`headerssync.cpp`. A peer's headers are first downloaded without being kept, to
find out whether their work is worth storing them; on the way one bit of every
584th header is remembered. Then they are downloaded again, compared with these
bits, and held back in a buffer until enough of them lie on top.

The members of `HeadersSyncState` that are set once are a structure of their
own. `Finalize` leaves the two work counters as they are.
-/

namespace Lithium

def headerCommitmentPeriod : Nat := 584
def redownloadBufferSize : Nat := 13959

/-- A header without the hash of its predecessor. -/
structure CompressedHeader where
  nVersion : Int32
  hashMerkleRoot : Uint256
  nTime : UInt32
  nBits : UInt32
  nNonce : UInt32
  auxpow : Option CAuxPow
deriving DecidableEq

namespace CompressedHeader

def ofHeader (header : CBlockHeader) : CompressedHeader where
  nVersion := header.nVersion
  hashMerkleRoot := header.hashMerkleRoot
  nTime := header.nTime
  nBits := header.nBits
  nNonce := header.nNonce
  auxpow := header.auxpow

def getFullHeader (h : CompressedHeader) (hashPrevBlock : Uint256) : CBlockHeader where
  nVersion := h.nVersion
  hashPrevBlock := hashPrevBlock
  hashMerkleRoot := h.hashMerkleRoot
  nTime := h.nTime
  nBits := h.nBits
  nNonce := h.nNonce
  auxpow := h.auxpow

theorem getFullHeader_ofHeader (header : CBlockHeader) :
    (ofHeader header).getFullHeader header.hashPrevBlock = header := rfl

end CompressedHeader

/-- The members that do not change during a sync. -/
structure SyncConfig where
  /-- drawn at random -/
  commitOffset : Nat
  commitOffset_lt : commitOffset < headerCommitmentPeriod
  consensusParams : Params
  chainStart : CBlockIndex
  minimumRequiredWork : ArithUint256
  /-- a hash function with a secret salt -/
  hasher : Uint256 → UInt64
  maxCommitments : Nat

/-- The bound on commitments that the constructor computes, in unsigned 64 bits. -/
def maxCommitmentsAt (adjustedTime medianTimePast : Int) : Nat :=
  (6 * (adjustedTime - medianTimePast + 2 * 60 * 60) % 2 ^ 64).toNat / headerCommitmentPeriod

inductive DownloadState where
  | presync
  | redownload
  | final
deriving DecidableEq

structure HeadersSyncState where
  currentChainWork : ArithUint256
  headerCommitments : List Bool
  lastHeaderReceived : CBlockHeader
  currentHeight : Int
  redownloadedHeaders : List CompressedHeader
  redownloadBufferLastHeight : Int
  redownloadBufferLastHash : Uint256
  redownloadBufferFirstPrevHash : Uint256
  redownloadChainWork : ArithUint256
  processAllRemainingHeaders : Bool
  downloadState : DownloadState
deriving DecidableEq

structure ProcessingResult where
  powValidatedHeaders : List CBlockHeader
  success : Bool
  requestMore : Bool
deriving DecidableEq

/-- `CalculateHeadersWork`, in 256 bits. -/
def calculateHeadersWork (headers : List CBlockHeader) : ArithUint256 :=
  headers.foldl (fun totalWork header => totalWork + getBlockProof header.nBits) 0

theorem calculateHeadersWork_append (xs ys : List CBlockHeader) :
    calculateHeadersWork (xs ++ ys) = calculateHeadersWork xs + calculateHeadersWork ys := by
  induction ys using List.reverseRecOn with
  | nil => simp [calculateHeadersWork]
  | append_singleton ys y ih =>
    simp only [calculateHeadersWork, List.foldl_append, List.foldl_cons, List.foldl_nil] at ih ⊢
    rw [ih, BitVec.add_assoc]

/-- A header after `SetNull`. -/
def CBlockHeader.null : CBlockHeader where
  nVersion := 16
  hashPrevBlock := .zero
  hashMerkleRoot := .zero
  nTime := 0
  nBits := 0
  nNonce := 0
  auxpow := none

/-- The conversion of a height to `int`. -/
def narrowHeight (height : Int) : Int := (Int32.ofInt height).toInt

namespace SyncConfig

/-- A commitment is made to the header at this height. The height is converted
to an unsigned number of 64 bits before it is divided. -/
def isCommitmentHeight (c : SyncConfig) (height : Int) : Bool :=
  (height % 2 ^ 64).toNat % headerCommitmentPeriod == c.commitOffset

/-- The bit that is remembered of a header. -/
def commitment (c : SyncConfig) (header : CBlockHeader) : Bool := c.hasher header.getHash &&& 1 != 0

end SyncConfig

namespace HeadersSyncState

section
variable (c : SyncConfig)

/-- The constructor. -/
def init : HeadersSyncState where
  currentChainWork := c.chainStart.nChainWork
  headerCommitments := []
  lastHeaderReceived := c.chainStart.getBlockHeader
  currentHeight := c.chainStart.nHeight
  redownloadedHeaders := []
  redownloadBufferLastHeight := 0
  redownloadBufferLastHash := .zero
  redownloadBufferFirstPrevHash := .zero
  redownloadChainWork := 0
  processAllRemainingHeaders := false
  downloadState := .presync

section
variable (s : HeadersSyncState)

def finalize : HeadersSyncState :=
  { s with
    headerCommitments := []
    lastHeaderReceived := .null
    redownloadedHeaders := []
    redownloadBufferLastHash := .zero
    redownloadBufferFirstPrevHash := .zero
    processAllRemainingHeaders := false
    currentHeight := 0
    downloadState := .final }

/-! ### The first download -/

def validateAndProcessSingleHeader (current : CBlockHeader) : HeadersSyncState × Bool :=
  if s.downloadState ≠ .presync then (s, false)
  else
    -- an `int`, while the height that is kept has 64 bits
    let nextHeight := narrowHeight (s.currentHeight + 1)
    if !permittedDifficultyTransition c.consensusParams nextHeight s.lastHeaderReceived.nBits
        current.nBits then (s, false)
    else
      let commits := c.isCommitmentHeight nextHeight
      let s :=
        if commits then
          { s with headerCommitments := s.headerCommitments ++ [c.commitment current] }
        else s
      if commits && decide (s.headerCommitments.length > c.maxCommitments) then (s, false)
      else
        ({ s with
            currentChainWork := s.currentChainWork + getBlockProof current.nBits
            lastHeaderReceived := current
            currentHeight := nextHeight }, true)

/-- The loop of `ValidateAndStoreHeadersCommitments`. -/
def processHeaders (c : SyncConfig) : HeadersSyncState → List CBlockHeader → HeadersSyncState × Bool
  | s, [] => (s, true)
  | s, hdr :: rest =>
    match validateAndProcessSingleHeader c s hdr with
    | (s, false) => (s, false)
    | (s, true) => processHeaders c s rest

def startRedownload : HeadersSyncState :=
  { s with
    redownloadedHeaders := []
    redownloadBufferLastHeight := c.chainStart.nHeight
    redownloadBufferFirstPrevHash := c.chainStart.phashBlock
    redownloadBufferLastHash := c.chainStart.phashBlock
    redownloadChainWork := c.chainStart.nChainWork
    downloadState := .redownload }

def validateAndStoreHeadersCommitments (headers : List CBlockHeader) : HeadersSyncState × Bool :=
  match headers with
  | [] => (s, true)
  | first :: _ =>
    if s.downloadState ≠ .presync then (s, false)
    else if first.hashPrevBlock ≠ s.lastHeaderReceived.getHash then (s, false)
    else
      match processHeaders c s headers with
      | (s, false) => (s, false)
      | (s, true) =>
        if s.currentChainWork ≥ c.minimumRequiredWork then (startRedownload c s, true)
        else (s, true)

/-! ### The second download -/

/-- The target of the last header in the buffer. -/
def previousNBits : UInt32 :=
  match s.redownloadedHeaders.getLast? with
  | some last => last.nBits
  | none => c.chainStart.nBits

section
variable (header : CBlockHeader)

/-- The work of a redownloaded header is counted before its commitment is
checked. -/
def countRedownloaded : HeadersSyncState :=
  let work := s.redownloadChainWork + getBlockProof header.nBits
  { s with
    redownloadChainWork := work
    processAllRemainingHeaders :=
      s.processAllRemainingHeaders || decide (work ≥ c.minimumRequiredWork) }

/-- Compare a redownloaded header with the next commitment, where one was made. -/
def checkCommitment : HeadersSyncState × Bool :=
  if !s.processAllRemainingHeaders && c.isCommitmentHeight (s.redownloadBufferLastHeight + 1) then
    match s.headerCommitments with
    | [] => (s, false)
    | expectedCommitment :: rest =>
      ({ s with headerCommitments := rest }, c.commitment header == expectedCommitment)
  else (s, true)

def storeRedownloaded : HeadersSyncState :=
  { s with
    redownloadedHeaders := s.redownloadedHeaders ++ [.ofHeader header]
    redownloadBufferLastHeight := s.redownloadBufferLastHeight + 1
    redownloadBufferLastHash := header.getHash }

def validateAndStoreRedownloadedHeader : HeadersSyncState × Bool :=
  if s.downloadState ≠ .redownload then (s, false)
  else if header.hashPrevBlock ≠ s.redownloadBufferLastHash then (s, false)
  else if !permittedDifficultyTransition c.consensusParams (s.redownloadBufferLastHeight + 1)
      (s.previousNBits c) header.nBits then (s, false)
  else
    match (s.countRedownloaded c header).checkCommitment c header with
    | (s, false) => (s, false)
    | (s, true) => (s.storeRedownloaded header, true)

end

/-- The loop of `ProcessNextHeaders` in the second phase. -/
def storeHeaders (c : SyncConfig) : HeadersSyncState → List CBlockHeader → HeadersSyncState × Bool
  | s, [] => (s, true)
  | s, hdr :: rest =>
    match validateAndStoreRedownloadedHeader c s hdr with
    | (s, false) => (s, false)
    | (s, true) => storeHeaders c s rest

/-- The loop of `PopHeadersReadyForAcceptance`: the headers that are returned,
what is left of the buffer, and the hash before it. -/
def popLoop (all : Bool) :
    List CompressedHeader → Uint256 → List CBlockHeader × List CompressedHeader × Uint256
  | [], firstPrevHash => ([], [], firstPrevHash)
  | front :: rest, firstPrevHash =>
    if rest.length + 1 > redownloadBufferSize || all then
      let full := front.getFullHeader firstPrevHash
      match popLoop all rest full.getHash with
      | (ret, left, firstPrevHash) => (full :: ret, left, firstPrevHash)
    else ([], front :: rest, firstPrevHash)

def popHeadersReadyForAcceptance : HeadersSyncState × List CBlockHeader :=
  if s.downloadState ≠ .redownload then (s, [])
  else
    match popLoop s.processAllRemainingHeaders s.redownloadedHeaders
        s.redownloadBufferFirstPrevHash with
    | (ret, left, firstPrevHash) =>
      ({ s with
          redownloadedHeaders := left
          redownloadBufferFirstPrevHash := firstPrevHash }, ret)

/-! ### One message -/

section
variable (receivedHeaders : List CBlockHeader) (fullHeadersMessage : Bool)

/-- `ProcessNextHeaders` in the first phase, before `Finalize`. -/
def processPresync : HeadersSyncState × ProcessingResult :=
  match validateAndStoreHeadersCommitments c s receivedHeaders with
  | (s, success) =>
    (s, ⟨[], success, success && (fullHeadersMessage || decide (s.downloadState = .redownload))⟩)

/-- `ProcessNextHeaders` in the second phase, before `Finalize`. -/
def processRedownload : HeadersSyncState × ProcessingResult :=
  match storeHeaders c s receivedHeaders with
  | (s, false) => (s, ⟨[], false, false⟩)
  | (s, true) =>
    match s.popHeadersReadyForAcceptance with
    | (s, ret) =>
      (s, ⟨ret, true, !(s.redownloadedHeaders.isEmpty && s.processAllRemainingHeaders) &&
          fullHeadersMessage⟩)

/-- The end of `ProcessNextHeaders`. -/
def finalizeUnlessMore (r : HeadersSyncState × ProcessingResult) :
    HeadersSyncState × ProcessingResult :=
  if r.2.success && r.2.requestMore then r else (r.1.finalize, r.2)

def processNextHeaders : HeadersSyncState × ProcessingResult :=
  if receivedHeaders.isEmpty then (s, ⟨[], false, false⟩)
  else
    match s.downloadState with
    | .final => (s, ⟨[], false, false⟩)
    | .presync => finalizeUnlessMore (processPresync c s receivedHeaders fullHeadersMessage)
    | .redownload => finalizeUnlessMore (processRedownload c s receivedHeaders fullHeadersMessage)

end
end
end
end HeadersSyncState
end Lithium
