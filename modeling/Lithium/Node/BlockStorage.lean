import Lithium.Lib.OrdMap
import Lithium.Validation.Checks

/-!
# The block index and the block files

`node/blockstorage.cpp`. The state holds what validation shares: the map of
block index entries, the containers that refer to entries (by hash instead of
by pointer), and the block files with the accounting that decides where the
next block goes. A file is the string of the bytes written to it; room that is
allocated ahead of them is not part of it.

Errors of the disk end the node and are not modelled, nor is pruning.
-/

namespace Lithium
open Lib List UInt32

structure CBlockFileInfo where
  nBlocks : UInt32
  nSize : UInt32
  nUndoSize : UInt32
  nHeightFirst : UInt32
  nHeightLast : UInt32
  nTimeFirst : UInt64
  nTimeLast : UInt64
deriving DecidableEq

instance : Inhabited CBlockFileInfo := ⟨⟨0, 0, 0, 0, 0, 0, 0⟩⟩

def CBlockFileInfo.addBlock (info : CBlockFileInfo) (nHeightIn : UInt32) (nTimeIn : UInt64) :
    CBlockFileInfo :=
  { info with
    nHeightFirst :=
      if info.nBlocks = 0 ∨ info.nHeightFirst > nHeightIn then nHeightIn else info.nHeightFirst
    nTimeFirst := if info.nBlocks = 0 ∨ info.nTimeFirst > nTimeIn then nTimeIn else info.nTimeFirst
    nBlocks := info.nBlocks + 1
    nHeightLast := if nHeightIn > info.nHeightLast then nHeightIn else info.nHeightLast
    nTimeLast := if nTimeIn > info.nTimeLast then nTimeIn else info.nTimeLast }

structure FlatFilePos where
  nFile : Nat
  nPos : UInt32
deriving DecidableEq

/-- The block manager and the active chain state. -/
structure NodeState where
  blockIndex : OrdMap Uint256 CBlockIndex
  bestHeader : Option Uint256
  /-- blocks found invalid while connecting; the order stands for that of the
  pointers in the set -/
  failedBlocks : List Uint256
  /-- pairs of a predecessor without transactions and a block with them -/
  blocksUnlinked : List (Uint256 × Uint256)
  /-- the active chain, tip first -/
  chain : List Uint256
  setBlockIndexCandidates : List Uint256
  nBlockSequenceId : Int
  /-- files beyond the list are empty -/
  blockfileInfo : List CBlockFileInfo
  lastBlockfile : Nat
  blockFiles : Nat → Bytes

namespace NodeState

def empty : NodeState where
  blockIndex := .empty
  bestHeader := none
  failedBlocks := []
  blocksUnlinked := []
  chain := []
  setBlockIndexCandidates := []
  nBlockSequenceId := 1
  blockfileInfo := []
  lastBlockfile := 0
  blockFiles := fun _ => []

section
variable (s : NodeState)

def lookupBlockIndex (hash : Uint256) : Option CBlockIndex := s.blockIndex.find? hash

/-- The walk along `pprev`, for at most `n` entries. -/
def walk (m : OrdMap Uint256 CBlockIndex) : Nat → Option Uint256 → Branch
  | 0, _ => []
  | _ + 1, none => []
  | n + 1, some hash =>
    match m.find? hash with
    | none => []
    | some pindex => pindex :: walk m n pindex.pprev

/-- The branch that ends in a block. No branch has more entries than the map. -/
def branch (hash : Option Uint256) : Branch := walk s.blockIndex s.blockIndex.size hash

def tip : Option CBlockIndex := s.chain.head?.bind s.lookupBlockIndex

def chainHeight : Int := (s.chain.length : Int) - 1

def modifyEntry (hash : Uint256) (f : CBlockIndex → CBlockIndex) : NodeState :=
  { s with blockIndex := s.blockIndex.modify hash f }

/-! ### The block index -/

/-- The entry that `AddToBlockIndex` makes for a new header. -/
def newEntry (block : CBlockHeader) : CBlockIndex :=
  let pindexNew := CBlockIndex.ofHeader block.getHash block
  let pindexNew :=
    match s.lookupBlockIndex block.hashPrevBlock with
    | none =>
      { pindexNew with
        nTimeMax := block.nTime
        nChainWork := getBlockProof block.nBits }
    | some pprev =>
      { pindexNew with
        pprev := some block.hashPrevBlock
        nHeight := pprev.nHeight + 1
        nTimeMax := max pprev.nTimeMax block.nTime
        nChainWork := pprev.nChainWork + getBlockProof block.nBits }
  pindexNew.raiseValidity BlockStatus.validTree

def betterHeader (pindexNew : CBlockIndex) : Option Uint256 :=
  match s.bestHeader.bind s.lookupBlockIndex with
  | none => some pindexNew.phashBlock
  | some best =>
    if best.nChainWork < pindexNew.nChainWork then some pindexNew.phashBlock else s.bestHeader

/-- `AddToBlockIndex`. A header that is in the index stays as it is. -/
def addToBlockIndex (block : CBlockHeader) : NodeState × CBlockIndex :=
  match s.lookupBlockIndex block.getHash with
  | some pindex => (s, pindex)
  | none =>
    let pindexNew := s.newEntry block
    ({ s with
        blockIndex := s.blockIndex.insert block.getHash pindexNew
        bestHeader := s.betterHeader pindexNew }, pindexNew)

/-! ### Block files -/

def maxBlockfileSize : Nat := 0x8000000
def blockSerializationHeaderSize : Nat := 8

/-- The accounting of a file; a list that is too short is extended with empty
files before it is read. -/
def fileInfo (nFile : Nat) : CBlockFileInfo := s.blockfileInfo.getD nFile default

def setFileInfo (infos : List CBlockFileInfo) (nFile : Nat) (info : CBlockFileInfo) :
    List CBlockFileInfo :=
  (infos ++ replicate (nFile + 1 - infos.length) default).set nFile info

/-- The loop of `FindBlockPos` that leaves full files behind; `n` bounds the
files that are looked at. -/
def findFileLoop (s : NodeState) (nAddSize : UInt32) : Nat → Nat → Nat
  | 0, nFile => nFile
  | n + 1, nFile =>
    if ((s.fileInfo nFile).nSize + nAddSize).toNat ≥ maxBlockfileSize then
      findFileLoop s nAddSize n (nFile + 1)
    else nFile

/-- `FindBlockPos` for a block whose position is not known. The file after the
last one is empty, so the loop ends there if a block fits into a file. -/
def findBlockPos (nAddSize : UInt32) (nHeight : Int) (nTime : UInt32) : NodeState × FlatFilePos :=
  let nFile := s.findFileLoop nAddSize (s.blockfileInfo.length + 1) s.lastBlockfile
  let info := s.fileInfo nFile
  let info' := info.addBlock (ofInt nHeight) nTime.toUInt64
  ({ s with
      lastBlockfile := nFile
      blockfileInfo :=
        setFileInfo s.blockfileInfo nFile { info' with nSize := info.nSize + nAddSize } },
    ⟨nFile, info.nSize⟩)

/-- Overwrite a string from a position on. -/
def writeAt (file : Bytes) (nPos : Nat) (bs : Bytes) : Bytes :=
  file.take nPos ++ replicate (nPos - file.length) (0 : UInt8) ++ bs ++ file.drop (nPos + bs.length)

/-- `WriteBlockToDisk`: the magic bytes and the size come first, and the
position moves behind them. -/
def writeBlockToDisk (env : ChainEnv) (block : CBlock) (pos : FlatFilePos) :
    NodeState × FlatFilePos :=
  let nSize := ofNat (serBlock true block).length
  let record := env.messageStart ++ serUInt32 nSize ++ serBlock true block
  ({ s with blockFiles := fun nFile =>
        if nFile = pos.nFile then writeAt (s.blockFiles nFile) pos.nPos.toNat record
        else s.blockFiles nFile },
    ⟨pos.nFile, pos.nPos + ofNat blockSerializationHeaderSize⟩)

/-- `SaveBlockToDisk` for a new block. -/
def saveBlockToDisk (env : ChainEnv) (block : CBlock) (nHeight : Int) : NodeState × FlatFilePos :=
  let nBlockSize := ofNat ((serBlock true block).length + blockSerializationHeaderSize)
  match s.findBlockPos nBlockSize nHeight block.nTime with
  | (s, pos) => s.writeBlockToDisk env block pos

end

/-- The errors of `ReadBlockFromDisk`. -/
inductive ReadBlockError where
  | openFile
  | deserialize
  | nativeProof
  | signetSolution
  | hashMismatch
  | auxpowProof
deriving DecidableEq

variable (s : NodeState)

/-- `ReadBlockFromDisk` at a position. -/
def readBlockAt (env : ChainEnv) (pos : FlatFilePos) : Except ReadBlockError CBlock :=
  match readBlock ((s.blockFiles pos.nFile).drop pos.nPos.toNat) with
  | .error _ => .error .deserialize
  | .ok (block, _) =>
    if !block.isAuxpow && !checkProofOfWork block.getPoWHash block.nBits env.consensus then
      .error .nativeProof
    else if env.consensus.signetBlocks &&
        !env.checkSignetBlockSolution block.toCPureBlockHeader block.vtx then
      .error .signetSolution
    else .ok block

def getBlockPos (pindex : CBlockIndex) : Option FlatFilePos :=
  if pindex.hasStatus BlockStatus.haveData then some ⟨pindex.nFile, pindex.nDataPos⟩ else none

/-- `ReadBlockFromDisk` of an entry. -/
def readBlockFromDisk (env : ChainEnv) (pindex : CBlockIndex) : Except ReadBlockError CBlock :=
  match getBlockPos pindex with
  | none => .error .openFile
  | some pos =>
    match s.readBlockAt env pos with
    | .error e => .error e
    | .ok block =>
      if block.getHash ≠ pindex.phashBlock then .error .hashMismatch
      else if (checkAuxPowProofOfWork block.toCBlockHeader env.consensus
          pindex.nHeight).toBool = false then .error .auxpowProof
      else .ok block

/-! ### The files after a block has been saved -/

theorem getD_setFileInfo (infos : List CBlockFileInfo) (nFile k : Nat) (info : CBlockFileInfo) :
    (setFileInfo infos nFile info).getD k default =
      if k = nFile then info else infos.getD k default := by
  have hlen : nFile < (infos ++ replicate (nFile + 1 - infos.length) default).length := by
    simp only [length_append, length_replicate]
    omega
  rw [setFileInfo, getD_eq_getElem?_getD, getElem?_set]
  split_ifs with h h' h'
  · rfl
  · omega
  · omega
  · rw [getD_eq_getElem?_getD, getElem?_append, getElem?_replicate]
    grind

theorem writeAt_length (file bs : Bytes) : writeAt file file.length bs = file ++ bs := by
  simp [writeAt]

/-- The loop stops at a file with room: the one after the last is empty. -/
theorem findFileLoop_room {nAddSize : UInt32} (hadd : nAddSize.toNat < maxBlockfileSize)
    {n nFile : Nat} (h : s.blockfileInfo.length < n + nFile) :
    ((s.fileInfo (s.findFileLoop nAddSize n nFile)).nSize + nAddSize).toNat < maxBlockfileSize := by
  induction n generalizing nFile with
  | zero =>
    have hemp : s.fileInfo nFile = default := by
      rw [fileInfo, getD_eq_default _ _ (by omega)]
    rw [findFileLoop, hemp, show (default : CBlockFileInfo).nSize = 0 from rfl, UInt32.zero_add]
    exact hadd
  | succ n ih =>
    rw [findFileLoop]
    split_ifs with hfull
    · exact ih (by omega)
    · omega

/-- The accounting agrees with the files, and no file is full. -/
structure FilesInOrder (s : NodeState) : Prop where
  size : ∀ nFile, (s.blockFiles nFile).length = (s.fileInfo nFile).nSize.toNat
  room : ∀ nFile, (s.fileInfo nFile).nSize.toNat < maxBlockfileSize

/-- The bytes that saving a block adds to a file, and their number. -/
def blockRecord (env : ChainEnv) (block : CBlock) : Bytes :=
  env.messageStart ++ serUInt32 (ofNat (serBlock true block).length) ++ serBlock true block

def recordSize (block : CBlock) : UInt32 :=
  ofNat ((serBlock true block).length + blockSerializationHeaderSize)

/-- The file that a block goes to. -/
def nextFile (block : CBlock) : Nat :=
  s.findFileLoop (recordSize block) (s.blockfileInfo.length + 1) s.lastBlockfile

section Saved
variable (s : NodeState) (env : ChainEnv) (block : CBlock) (nHeight : Int)

theorem saveBlockToDisk_pos : (s.saveBlockToDisk env block nHeight).2 =
    ⟨s.nextFile block, (s.fileInfo (s.nextFile block)).nSize + 8⟩ := rfl

theorem nSize_saveBlockToDisk (k : Nat) :
    ((s.saveBlockToDisk env block nHeight).1.fileInfo k).nSize =
      if k = s.nextFile block then (s.fileInfo k).nSize + recordSize block
      else (s.fileInfo k).nSize := by
  change ((setFileInfo s.blockfileInfo (s.nextFile block) _).getD k default).nSize = _
  rw [getD_setFileInfo]
  split_ifs with hk
  · rw [hk]
    rfl
  · rfl

theorem blockRecord_length : (blockRecord env block).length = (serBlock true block).length +
      blockSerializationHeaderSize := by
  simp only [blockRecord, length_append, env.messageStart_size, serUInt32, natToLE_length,
    blockSerializationHeaderSize]
  omega

variable {s env block}

section
variable (hsize : (serBlock true block).length ≤ maxBlockWeight)

include hsize

theorem recordSize_toNat :
    (recordSize block).toNat = (serBlock true block).length + blockSerializationHeaderSize := by
  rw [recordSize, toNat_ofNat', Nat.mod_eq_of_lt]
  simp only [maxBlockWeight, blockSerializationHeaderSize] at *
  omega

theorem nextFile_room :
    ((s.fileInfo (s.nextFile block)).nSize + recordSize block).toNat < maxBlockfileSize := by
  refine s.findFileLoop_room ?_ (by omega)
  rw [recordSize_toNat hsize]
  simp only [maxBlockWeight, blockSerializationHeaderSize, maxBlockfileSize] at *
  omega

end

section
variable (hs : s.FilesInOrder)

include hs

/-- A block of admissible size is appended to a file with room for it. -/
theorem FilesInOrder.blockFiles_eq (k : Nat) :
    (s.saveBlockToDisk env block nHeight).1.blockFiles k =
      if k = s.nextFile block then s.blockFiles k ++ blockRecord env block else s.blockFiles k := by
  show (if k = s.nextFile block then writeAt (s.blockFiles k)
    (s.fileInfo (s.nextFile block)).nSize.toNat (blockRecord env block) else s.blockFiles k) = _
  split_ifs with hk
  · rw [← hk, ← hs.size k, writeAt_length]
  · rfl

section
variable (hsize : (serBlock true block).length ≤ maxBlockWeight)

include hsize

theorem FilesInOrder.nSize_eq (k : Nat) :
    ((s.saveBlockToDisk env block nHeight).1.fileInfo k).nSize.toNat =
      if k = s.nextFile block then (s.fileInfo k).nSize.toNat + (blockRecord env block).length
      else (s.fileInfo k).nSize.toNat := by
  rw [nSize_saveBlockToDisk]
  split_ifs with hk
  · have hroom := hs.room k
    rw [UInt32.toNat_add, recordSize_toNat hsize, blockRecord_length, Nat.mod_eq_of_lt]
    simp only [maxBlockWeight, blockSerializationHeaderSize, maxBlockfileSize] at *
    omega
  · rfl

variable (env) in
theorem FilesInOrder.saveBlockToDisk : (s.saveBlockToDisk env block nHeight).1.FilesInOrder := by
  refine ⟨fun k => ?_, fun k => ?_⟩
  · rw [hs.blockFiles_eq, hs.nSize_eq nHeight hsize]
    split_ifs
    · rw [length_append, hs.size k]
    · exact hs.size k
  · rw [nSize_saveBlockToDisk]
    split_ifs with hk
    · rw [hk]
      exact nextFile_room hsize
    · exact hs.room k

end

variable (env block) in
/-- The position that is returned is that of the block. -/
theorem FilesInOrder.saved : ((s.saveBlockToDisk env block nHeight).1.blockFiles
        (s.saveBlockToDisk env block nHeight).2.nFile).drop
      (s.saveBlockToDisk env block nHeight).2.nPos.toNat = serBlock true block := by
  rw [saveBlockToDisk_pos, hs.blockFiles_eq, if_pos rfl]
  have hroom := hs.room (s.nextFile block)
  have hpos : ((s.fileInfo (s.nextFile block)).nSize + 8).toNat =
      (s.blockFiles (s.nextFile block)).length + 8 := by
    rw [UInt32.toNat_add, hs.size, Nat.mod_eq_of_lt]
    · rfl
    · simp only [maxBlockfileSize] at hroom
      change _ + 8 < _
      omega
  have hmagic :
      (env.messageStart ++ serUInt32 (ofNat (serBlock true block).length)).length = 8 := by
    simp [env.messageStart_size, serUInt32, natToLE_length]
  rw [hpos, ← drop_drop, drop_left, blockRecord, ← hmagic, drop_left]

end
end Saved
end NodeState
end Lithium
