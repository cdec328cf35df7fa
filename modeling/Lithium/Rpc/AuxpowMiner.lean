import Lithium.ArithUint256
import Lithium.Consensus.Merkle
import Lithium.Lib.OrdMap
import Lithium.Script

/-!
# The cache of merge-mining templates

`rpc/auxpow_miner.cpp` hands out block templates by hash and keeps them in a
map until a solved payload comes back. The map is cleared when the tip moves
and trimmed to `MAX_AUXPOW_BLOCK_CACHE` entries after every insertion. What is
dropped is the entry with the smallest key, not the oldest one, and that can be
the template that is about to be returned.

The cache and its two companions are the state; one call of
`AuxMiningCreateBlock` is a step. What the call reads of the rest of the node
(peers, sync state, the assembled template, the height of its parent) is its
input.
-/

namespace Lithium
open Lib

inductive RpcErrorCode where
  | miscError
  | invalidParameter
  | internalError
  | outOfMemory
  | deserializationError
  | clientNotConnected
  | clientInInitialDownload
deriving DecidableEq

structure RpcError where
  code : RpcErrorCode
  message : String
deriving DecidableEq

structure AuxpowMiner where
  auxpowBlocks : OrdMap Uint256 CBlock
  auxpowPrevHash : Uint256
  auxpowExtraNonce : UInt32

/-- What a call finds in the node. -/
structure AuxRequest where
  params : Params
  mineBlocksOnDemand : Bool
  nodeCount : Nat
  isInitialBlockDownload : Bool
  activeHeight : Int
  /-- The template of `CreateNewBlock`, a null pointer if there is none. -/
  blockTemplate : Option CBlock
  /-- The height of an indexed block. -/
  lookupBlockIndex : Uint256 → Option Int

/-- The object returned for a template. -/
structure AuxBlockJson where
  hash : String
  chainid : Int
  version : Int
  versionHex : String
  previousblockhash : String
  coinbasevalue : Int
  bits : String
  height : Int
  target : String
deriving DecidableEq

namespace AuxpowMiner

def maxAuxpowBlockCache : Nat := 128

def initial : AuxpowMiner := ⟨.empty, .zero, 0⟩

def auxMiningCheck (req : AuxRequest) : Except RpcError Unit :=
  if !req.mineBlocksOnDemand && req.nodeCount == 0 then
    .error ⟨.clientNotConnected, "Lithium is not connected!"⟩
  else if !req.mineBlocksOnDemand && req.isInitialBlockDownload then
    .error ⟨.clientInInitialDownload, "Lithium is in initial sync and waiting for blocks..."⟩
  else if req.activeHeight + 1 < req.params.nAuxpowStartHeight then
    .error ⟨.miscError, "AuxPoW is not yet active on this chain"⟩
  else .ok ()

/-- `CScript() << height << CScriptNum(extra_nonce)`. -/
def extraNonceScript (height : Int) (extraNonce : UInt32) : CScript where
  bytes := pushInt64 height ++ pushData (CScriptNum.serialize extraNonce.toNat)
  size_lt := by
    have h := pushInt64_length_le height
    have h' := pushData_length_le (CScriptNum.serialize extraNonce.toNat)
    have h'' := CScriptNum.serialize_length extraNonce.toNat
    rw [List.length_append]
    omega

def incrementAuxpowExtraNonce (block : CBlock) (height : Int) (extraNonce : UInt32) :
    Except RpcError CBlock :=
  match block.vtx with
  | [] => .error ⟨.internalError, "AuxPoW block template is missing coinbase data"⟩
  | ⟨nVersion, vin, vout, nLockTime, vin_lt, vout_lt⟩ :: rest =>
    match vin, vin_lt with
    | [], _ => .error ⟨.internalError, "AuxPoW block template is missing coinbase data"⟩
    | input :: inputs, vin_lt =>
      let input' := { input with scriptSig := extraNonceScript height extraNonce }
      let coinbase : CTransaction := ⟨nVersion, input' :: inputs, vout, nLockTime, vin_lt, vout_lt⟩
      let block := { block with vtx := coinbase :: rest }
      .ok { block with hashMerkleRoot := (blockMerkleRoot block).1 }

def targetToLegacyHex (nBits : UInt32) : Except RpcError String :=
  let target := setCompact nBits
  if target.negative || target.overflow || target.value == 0 then
    .error ⟨.internalError, "invalid difficulty bits in block"⟩
  else .ok (Uint256.hexStr (arithToUint256 target.value).data)

/-- `vout.front` of a coinbase without outputs is undefined in the source; the
value is read as zero here. -/
def auxpowBlockToJSON (block : CBlock) (height : Int) : Except RpcError AuxBlockJson := do
  let target ← targetToLegacyHex block.nBits
  pure
    { hash := block.getHash.getHex
      chainid := block.getChainId.toInt
      version := block.nVersion.toInt
      versionHex := hex32 block.nVersion.toUInt32
      previousblockhash := block.hashPrevBlock.getHex
      coinbasevalue :=
        ((block.vtx.head?.bind fun tx => tx.vout.head?).map fun o => o.nValue.toInt).getD 0
      bits := hex32 block.nBits
      height := height
      target := target }

section
variable (s : AuxpowMiner)

/-- Forget the templates of another tip. -/
def enterTip (prev : Uint256) : AuxpowMiner :=
  if s.auxpowPrevHash ≠ prev then ⟨.empty, prev, 0⟩ else s

/-- The loop that trims the cache; `n` bounds the entries left. -/
def trimLoop : Nat → OrdMap Uint256 CBlock → OrdMap Uint256 CBlock
  | 0, m => m
  | n + 1, m => if m.size > maxAuxpowBlockCache then trimLoop n m.eraseMin else m

def trim (m : OrdMap Uint256 CBlock) : OrdMap Uint256 CBlock := trimLoop m.size m

/-- The template as it is handed out, with an extra nonce and the flag. -/
def stamp (block : CBlock) (height : Int) (extraNonce : UInt32) : Except RpcError CBlock := do
  let block ← incrementAuxpowExtraNonce block height extraNonce
  pure { block with toCPureBlockHeader := block.setAuxpowFlag true }

/-- The template that the next call hands out. -/
def freshTemplate (block : CBlock) (height : Int) : Except RpcError CBlock :=
  stamp block height ((s.enterTip block.hashPrevBlock).auxpowExtraNonce + 1)

/-- The part of a call that holds the lock. The nonce is spent even when the
template turns out to lack a coinbase. -/
def cacheTemplate (block : CBlock) (height : Int) : AuxpowMiner × Except RpcError CBlock :=
  let s' := s.enterTip block.hashPrevBlock
  let s' := { s' with auxpowExtraNonce := s'.auxpowExtraNonce + 1 }
  match freshTemplate s block height with
  | .error e => (s', .error e)
  | .ok block =>
    ({ s' with auxpowBlocks := trim (s'.auxpowBlocks.insert block.getHash block) }, .ok block)

def auxMiningCreateBlock (req : AuxRequest) : AuxpowMiner × Except RpcError AuxBlockJson :=
  match auxMiningCheck req with
  | .error e => (s, .error e)
  | .ok () =>
    match req.blockTemplate with
    | none => (s, .error ⟨.outOfMemory, "Out of memory"⟩)
    | some block =>
      match req.lookupBlockIndex block.hashPrevBlock with
      | none => (s, .error ⟨.internalError, "Unable to find AuxPoW block template parent"⟩)
      | some nHeight =>
        match cacheTemplate s block (nHeight + 1) with
        | (s, .error e) => (s, .error e)
        | (s, .ok block) => (s, auxpowBlockToJSON block (nHeight + 1))

def run (calls : List AuxRequest) : AuxpowMiner :=
  calls.foldl (fun s req => (s.auxMiningCreateBlock req).1) initial

/-- The part of `AuxMiningSubmitBlock` that finds the template again and
completes it, up to the point where it is given to validation. -/
def auxMiningSubmitBlock (req : AuxRequest) (hash : Uint256) (auxpow : CAuxPow) :
    Except RpcError CBlock := do
  auxMiningCheck req
  match s.auxpowBlocks.find? hash with
  | none => .error ⟨.invalidParameter, "block hash unknown"⟩
  | some block =>
    let block :=
      { block with toCPureBlockHeader := block.setAuxpowFlag true, auxpow := some auxpow }
    if block.getHash ≠ hash then
      .error ⟨.deserializationError, "AuxPoW mutated block header hash"⟩
    else .ok block

end
end AuxpowMiner
end Lithium
