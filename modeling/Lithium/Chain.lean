import Lithium.ArithUint256
import Lithium.Primitives.Block

/-!
# Block index entries

`CBlockIndex` of `chain.h`. The predecessor of an entry is named by its hash
instead of a pointer; the block index map resolves it. Functions of the source
that walk the predecessors of an entry take a *branch* here: the entry itself
followed by its predecessors, nearest first, down to the genesis block. The
skip pointers only speed such walks up and are not part of an entry.

Heights are unbounded integers. The places where the program narrows one to a
machine `int` say so.
-/

namespace Lithium
open Lib Decoder

/-! ### Status bits -/

namespace BlockStatus

def validTree : UInt32 := 2
def validTransactions : UInt32 := 3
def validChain : UInt32 := 4
def validScripts : UInt32 := 5
def validMask : UInt32 := 7
def haveData : UInt32 := 8
def haveUndo : UInt32 := 16
def failedValid : UInt32 := 32
def failedChild : UInt32 := 64
def failedMask : UInt32 := 96
def optWitness : UInt32 := 128
def assumedValid : UInt32 := 256

end BlockStatus

open BlockStatus

structure CBlockIndex where
  /-- the key of the entry in the block index map -/
  phashBlock : Uint256
  pprev : Option Uint256
  nHeight : Int
  nFile : Nat
  nDataPos : UInt32
  nUndoPos : UInt32
  nChainWork : ArithUint256
  nTx : UInt32
  nChainTx : UInt32
  nStatus : UInt32
  nVersion : Int32
  hashMerkleRoot : Uint256
  nTime : UInt32
  nBits : UInt32
  nNonce : UInt32
  auxpow : Option CAuxPow
  nSequenceId : Int
  nTimeMax : UInt32
deriving DecidableEq

namespace CBlockIndex

/-- The constructor from a header. The hash and the place in the tree are
filled in by the block index. -/
def ofHeader (hash : Uint256) (h : CBlockHeader) : CBlockIndex where
  phashBlock := hash
  pprev := none
  nHeight := 0
  nFile := 0
  nDataPos := 0
  nUndoPos := 0
  nChainWork := 0
  nTx := 0
  nChainTx := 0
  nStatus := 0
  nVersion := h.nVersion
  hashMerkleRoot := h.hashMerkleRoot
  nTime := h.nTime
  nBits := h.nBits
  nNonce := h.nNonce
  auxpow := h.auxpow
  nSequenceId := 0
  nTimeMax := 0

variable (e : CBlockIndex)

/-- `GetBlockHeader`, with the predecessor's hash in its place. -/
def getBlockHeader : CBlockHeader where
  nVersion := e.nVersion
  hashPrevBlock := e.pprev.getD .zero
  hashMerkleRoot := e.hashMerkleRoot
  nTime := e.nTime
  nBits := e.nBits
  nNonce := e.nNonce
  auxpow := e.auxpow

def hasStatus (bits : UInt32) : Bool := e.nStatus &&& bits != 0

/-- `IsValid`: no failure is recorded and the level has been reached. -/
def isValid (nUpTo : UInt32) : Bool :=
  !e.hasStatus failedMask && decide (nUpTo ≤ e.nStatus &&& validMask)

def raiseValidity (nUpTo : UInt32) : CBlockIndex :=
  if e.hasStatus failedMask then e
  else if e.nStatus &&& validMask < nUpTo then
    let nStatus :=
      if e.hasStatus assumedValid && decide (validScripts ≤ nUpTo) then
        e.nStatus &&& ~~~assumedValid
      else e.nStatus
    { e with nStatus := nStatus &&& ~~~validMask ||| nUpTo }
  else e

end CBlockIndex

/-- An entry and its predecessors, nearest first. -/
abbrev Branch := List CBlockIndex

def nMedianTimeSpan : Nat := 11

/-- `GetMedianTimePast` of the first entry of a branch. -/
def getMedianTimePast (branch : Branch) : Int :=
  let times := (branch.take nMedianTimeSpan).map fun e => (e.nTime.toNat : Int)
  (times.insertionSort (· ≤ ·)).getD (times.length / 2) 0

/-- `GetAncestor`: the entry of a branch at the given height. -/
def getAncestor (branch : Branch) (height : Int) : Option CBlockIndex :=
  branch.find? fun e => e.nHeight == height

/-- `GetBlockProof`: the number of hashes a block stands for. -/
def getBlockProof (nBits : UInt32) : ArithUint256 :=
  let target := setCompact nBits
  if target.negative || target.overflow || target.value == 0 then 0
  else ~~~target.value / (target.value + 1) + 1

/-! ### Persisted entries -/

/-- The fields of an entry that the block index database stores; the
predecessor is the previous hash of the header. -/
structure CDiskBlockIndex extends CBlockHeader where
  nHeight : Int32
  nStatus : UInt32
  nTx : UInt32
  nFile : Int32
  nDataPos : UInt32
  nUndoPos : UInt32
deriving DecidableEq

/-- `CLIENT_VERSION`, the version of the database stream. -/
def clientVersion : Int32 := 250200

namespace CDiskBlockIndex

def hasStatus (d : CDiskBlockIndex) (bits : UInt32) : Bool := d.nStatus &&& bits != 0

/-- What the database keeps: a position means nothing until the status says
that there is data at it. -/
def persisted (d : CDiskBlockIndex) : CDiskBlockIndex :=
  { d with
    nFile := if d.hasStatus (haveData ||| haveUndo) then d.nFile else 0
    nDataPos := if d.hasStatus haveData then d.nDataPos else 0
    nUndoPos := if d.hasStatus haveUndo then d.nUndoPos else 0 }

end CDiskBlockIndex

variable (d : CDiskBlockIndex)

/-- The positions, as far as the status calls for them. -/
def serDiskPositions : Bytes :=
  (if d.hasStatus (haveData ||| haveUndo) then writeVarIntSigned d.nFile
    else []) ++
    ((if d.hasStatus haveData then writeVarInt d.nDataPos else []) ++
      (if d.hasStatus haveUndo then writeVarInt d.nUndoPos else []))

/-- Writing an entry. One whose version announces a payload it does not have
is refused. -/
def serDiskBlockIndex : Except StreamError Bytes :=
  if d.isAuxpow && d.auxpow.isNone then
    .error (.failure "CDiskBlockIndex missing AuxPoW payload")
  else
    .ok (writeVarIntSigned clientVersion ++ (writeVarIntSigned d.nHeight ++
      (writeVarInt d.nStatus ++ (writeVarInt d.nTx ++
        (serDiskPositions d ++ serHeader d.toCBlockHeader)))))

/-- A field that is present only under a condition. -/
def readIf {α : Type} (c : Bool) (read : Reader α) (absent : α) : Reader α :=
  if c then read else pure absent

def readDiskBlockIndex : Reader CDiskBlockIndex := do
  let _ ← readVarIntSigned
  let nHeight ← readVarIntSigned
  let nStatus ← readVarInt
  let nTx ← readVarInt
  let nFile ← readIf (nStatus &&& (haveData ||| haveUndo) != 0)
    readVarIntSigned 0
  let nDataPos ← readIf (nStatus &&& haveData != 0) readVarInt 0
  let nUndoPos ← readIf (nStatus &&& haveUndo != 0) readVarInt 0
  let header ← readHeader
  pure ⟨header, nHeight, nStatus, nTx, nFile, nDataPos, nUndoPos⟩

theorem reads_if {α : Type} {c : Bool} {read : Reader α} {bs : Bytes} {a absent : α}
    (h : c = true → Reads read bs a) :
    Reads (readIf c read absent) (if c then bs else []) (if c then a else absent) := by
  cases c with
  | false => exact Reads.pure absent
  | true => exact h rfl

/-- An entry that the database gives back. -/
structure CDiskBlockIndex.Readable (d : CDiskBlockIndex) : Prop where
  header : d.toCBlockHeader.Readable
  nHeight : 0 ≤ d.nHeight.toInt
  nFile : d.hasStatus (haveData ||| haveUndo) = true → 0 ≤ d.nFile.toInt

theorem reads_diskBlockIndex {d : CDiskBlockIndex} (h : d.Readable) :
    ∃ bs, serDiskBlockIndex d = .ok bs ∧ Reads readDiskBlockIndex bs d.persisted := by
  have hpay : (d.isAuxpow && d.auxpow.isNone) = false := by
    have hwire : d.isAuxpow = d.auxpow.isSome := h.header.wireForm
    rw [hwire]
    cases d.auxpow <;> rfl
  unfold serDiskBlockIndex
  rw [hpay]
  refine ⟨_, rfl, ?_⟩
  refine (reads_varIntSigned (show 0 ≤ clientVersion.toInt by decide)).bind ?_
  refine (reads_varIntSigned h.nHeight).bind ?_
  refine (reads_varInt d.nStatus).bind ?_
  refine (reads_varInt d.nTx).bind ?_
  simp only [serDiskPositions, List.append_assoc]
  refine (reads_if fun hfile => reads_varIntSigned (h.nFile hfile)).bind ?_
  refine (reads_if fun _ => reads_varInt d.nDataPos).bind ?_
  refine (reads_if fun _ => reads_varInt d.nUndoPos).bind ?_
  exact (reads_header h.header).map fun header =>
    CDiskBlockIndex.mk header d.nHeight d.nStatus d.nTx
    d.persisted.nFile d.persisted.nDataPos d.persisted.nUndoPos

theorem yields_diskBlockIndex : Yields readDiskBlockIndex fun d =>
    d.toCBlockHeader.Readable ∧ 0 ≤ d.nHeight.toInt ∧ 0 ≤ d.nFile.toInt := by
  refine yields_varIntSigned.bind fun _ _ => yields_varIntSigned.bind fun nHeight hHeight => ?_
  refine (Yields.true readVarInt).bind fun nStatus _ => (Yields.true readVarInt).bind fun _ _ => ?_
  have hfile : Yields (readIf (nStatus &&& (haveData ||| haveUndo) != 0)
      readVarIntSigned 0) fun n => 0 ≤ n.toInt := by
    unfold readIf
    split
    · exact yields_varIntSigned
    · exact Yields.pure (by decide)
  refine hfile.bind fun nFile hFile => (Yields.true _).bind fun _ _ => ?_
  refine (Yields.true _).bind fun _ _ => yields_header.bind fun header hhdr => ?_
  exact Yields.pure ⟨hhdr, hHeight, hFile⟩

theorem reads_diskBlockIndex_iff :
    (∃ bs, serDiskBlockIndex d = .ok bs ∧ Reads readDiskBlockIndex bs d.persisted) ↔
      d.Readable := by
  refine ⟨?_, reads_diskBlockIndex⟩
  rintro ⟨bs, -, hread⟩
  obtain ⟨hhdr, hHeight, hFile⟩ := hread.yields yields_diskBlockIndex
  refine ⟨hhdr, hHeight, fun hstatus => ?_⟩
  simpa [CDiskBlockIndex.persisted, hstatus] using hFile

end Lithium
