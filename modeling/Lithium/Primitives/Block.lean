import Lithium.Primitives.Transaction

/-!
# Block headers, merge-mining payloads and blocks

A block header is the eighty bytes that are mined, `CPureBlockHeader`, and an
optional payload that proves work done for another chain. Whether a header has
a payload on the wire is decided by a bit of its version: the writer adds the
payload when the bit is set and there is one, the reader expects it whenever
the bit is set. In memory the two can disagree, and the source relies on its
callers not to send such headers.

The hash of a header covers the eighty bytes only, so a header keeps its hash
when its payload is exchanged.
-/

namespace Lithium
open Lib Decoder

/-- The mined part of a header. -/
structure CPureBlockHeader where
  nVersion : Int32
  hashPrevBlock : Uint256
  hashMerkleRoot : Uint256
  nTime : UInt32
  nBits : UInt32
  nNonce : UInt32
deriving DecidableEq

/-- The proof that a parent chain's block commits to this one. The coinbase
transaction is a shared pointer in the source, null until it is set. -/
structure CAuxPow where
  coinbaseTx : Option CTransaction
  merkleBranch : List Uint256
  vChainMerkleBranch : List Uint256
  nChainIndex : UInt32
  parentBlock : CPureBlockHeader
deriving DecidableEq

structure CBlockHeader extends CPureBlockHeader where
  auxpow : Option CAuxPow
deriving DecidableEq

structure CBlock extends CBlockHeader where
  vtx : List CTransaction
deriving DecidableEq

/-! ### The version word -/

namespace CPureBlockHeader

def versionAuxpow : Int32 := 0x100
def versionChainStart : Int32 := 0x10000
def versionChainMask : Int32 := 0xff0000

section
variable (h : CPureBlockHeader)

/-- The flag that a payload belongs to the header. -/
def isAuxpow : Bool := h.nVersion &&& versionAuxpow != 0

def getChainId : Int32 := (h.nVersion &&& versionChainMask) / versionChainStart

def getBaseVersion : Int32 := h.nVersion &&& ~~~versionAuxpow &&& ~~~versionChainMask

def setAuxpowFlag (auxpow : Bool) : CPureBlockHeader :=
  { h with nVersion :=
      if auxpow then h.nVersion ||| versionAuxpow else h.nVersion &&& ~~~versionAuxpow }

end

theorem isAuxpow_iff_getLsbD (h : CPureBlockHeader) :
    h.isAuxpow = true ↔ h.nVersion.toBitVec.getLsbD 8 = true := by
  have hand : (h.nVersion &&& versionAuxpow).toBitVec =
      if h.nVersion.toBitVec.getLsbD 8 then BitVec.twoPow 32 8 else 0#32 := by
    rw [Int32.toBitVec_and, ← BitVec.and_twoPow]
    rfl
  rw [isAuxpow, bne_iff_ne, ne_eq, ← Int32.toBitVec_inj, hand]
  split_ifs with hbit
  · exact iff_of_true (by decide) hbit
  · exact iff_of_false (fun hne => hne rfl) hbit

theorem isAuxpow_setAuxpowFlag (h : CPureBlockHeader) : (h.setAuxpowFlag true).isAuxpow = true := by
  rw [isAuxpow_iff_getLsbD]
  simp [setAuxpowFlag, versionAuxpow]

end CPureBlockHeader

/-! ### Writing -/

variable (h : CPureBlockHeader)

def serPureHeader : Bytes :=
  serInt32 h.nVersion ++ (serUint256 h.hashPrevBlock ++ (serUint256 h.hashMerkleRoot ++
    (serUInt32 h.nTime ++ (serUInt32 h.nBits ++ serUInt32 h.nNonce))))

@[simp] theorem serPureHeader_length : (serPureHeader h).length = 80 := by
  simp [serPureHeader]

/-- The hash of a header, which is also what its work is measured by. -/
def CPureBlockHeader.getHash : Uint256 := hashblake256 (serPureHeader h)

def CPureBlockHeader.getPoWHash : Uint256 := hashblake256 (serPureHeader h)

/-- The payload, with the two fields of the old format that are always zero.
Its coinbase transaction is written with its witness whatever the stream says;
a payload without one cannot be written. -/
def serAuxPow (ap : CAuxPow) : Bytes := (match ap.coinbaseTx with
    | some tx => serTransaction true tx
    | none => []) ++
    (serUint256 .zero ++ (serVector serUint256 ap.merkleBranch ++ (serInt32 0 ++
      (serVector serUint256 ap.vChainMerkleBranch ++ (serUInt32 ap.nChainIndex ++
        serPureHeader ap.parentBlock)))))

/-- What follows the eighty bytes of a header. -/
def serPayload (h : CBlockHeader) : Bytes :=
  if h.isAuxpow then
    match h.auxpow with
    | some ap => serAuxPow ap
    | none => []
  else []

def serHeader (h : CBlockHeader) : Bytes := serPureHeader h.toCPureBlockHeader ++ serPayload h

/-- A block, with or without the witnesses of its transactions. -/
def serBlock (fAllowWitness : Bool) (b : CBlock) : Bytes :=
  serHeader b.toCBlockHeader ++ serVector (serTransaction fAllowWitness) b.vtx

/-! ### Reading -/

def readPureHeader : Reader CPureBlockHeader := do
  let nVersion ← readInt32
  let hashPrevBlock ← readUint256
  let hashMerkleRoot ← readUint256
  let nTime ← readUInt32
  let nBits ← readUInt32
  let nNonce ← readUInt32
  pure ⟨nVersion, hashPrevBlock, hashMerkleRoot, nTime, nBits, nNonce⟩

def readAuxPow : Reader CAuxPow := do
  let coinbaseTx ← unserializeTransaction true
  let _ ← readUint256
  let merkleBranch ← readVector readUint256
  let _ ← readInt32
  let vChainMerkleBranch ← readVector readUint256
  let nChainIndex ← readUInt32
  let parentBlock ← readPureHeader
  pure ⟨some coinbaseTx, merkleBranch.val, vChainMerkleBranch.val, nChainIndex, parentBlock⟩

/-- The payload that the flag announces. -/
def readPayload (flag : Bool) : Reader (Option CAuxPow) :=
  if flag then do
    let ap ← readAuxPow
    pure (some ap)
  else pure none

def readHeader : Reader CBlockHeader := do
  let h ← readPureHeader
  let auxpow ← readPayload h.isAuxpow
  pure ⟨h, auxpow⟩

def readBlock : Reader CBlock := do
  let h ← readHeader
  let vtx ← readVector (unserializeTransaction true)
  pure ⟨h, vtx.val⟩

/-! ### Reading what was written -/

/-- A payload that has a coinbase transaction and fits the reader's limits. -/
structure CAuxPow.Readable (ap : CAuxPow) : Prop where
  coinbaseTx : ∃ tx, ap.coinbaseTx = some tx ∧ tx.Readable
  merkleBranch : ap.merkleBranch.length ≤ maxSize
  vChainMerkleBranch : ap.vChainMerkleBranch.length ≤ maxSize

/-- The flag and the payload of a header agree, as they do for every header
that was read from a stream. -/
def CBlockHeader.WireForm (h : CBlockHeader) : Prop := h.isAuxpow = h.auxpow.isSome

structure CBlockHeader.Readable (h : CBlockHeader) : Prop where
  wireForm : h.WireForm
  payload : ∀ ap, h.auxpow = some ap → ap.Readable

structure CBlock.Readable (b : CBlock) : Prop where
  header : b.toCBlockHeader.Readable
  vtx : b.vtx.length ≤ maxSize
  transactions : ∀ tx ∈ b.vtx, tx.Readable

theorem exact_pureHeader : Exact readPureHeader (fun _ => True) serPureHeader := by
  rintro input ⟨nVersion, hashPrevBlock, hashMerkleRoot, nTime, nBits, nNonce⟩ rest
  simp only [readPureHeader, run_bind_ok, exact_int32 _ _ _, exact_uint256 _ _ _,
    exact_uint32 _ _ _,
    run_pure_ok]
  simp [serPureHeader]

theorem serPureHeader_injective : Function.Injective serPureHeader := by
  intro a b h
  have hread (p : CPureBlockHeader) := exact_pureHeader.reads (a := p) trivial
  exact ((hread a).inj (r := []) (s := []) (hread b) (by rw [h])).1

theorem reads_auxPow {ap : CAuxPow} (h : ap.Readable) : Reads readAuxPow (serAuxPow ap) ap := by
  obtain ⟨tx, htx, hread⟩ := h.coinbaseTx
  obtain ⟨coinbaseTx, merkleBranch, vChainMerkleBranch, nChainIndex, parentBlock⟩ := ap
  obtain rfl : coinbaseTx = some tx := htx
  have hbr := (exact_vector exact_uint256).reads (a := ⟨merkleBranch, h.merkleBranch⟩) (by simp)
  have hchain := (exact_vector exact_uint256).reads (a := ⟨_, h.vChainMerkleBranch⟩) (by simp)
  refine (reads_transaction hread).bind ((exact_uint256.reads trivial).bind (hbr.bind ?_))
  refine (exact_int32.reads trivial).bind (hchain.bind ((exact_uint32.reads trivial).bind ?_))
  exact (exact_pureHeader.reads trivial).map
    (CAuxPow.mk (some tx) merkleBranch vChainMerkleBranch nChainIndex)

theorem reads_payload {h : CBlockHeader} (hread : h.Readable) :
    Reads (readPayload h.isAuxpow) (serPayload h) h.auxpow := by
  have hwire : h.isAuxpow = h.auxpow.isSome := hread.wireForm
  unfold readPayload serPayload
  cases hap : h.auxpow with
  | none =>
    rw [hap] at hwire
    simp only [hwire, Option.isSome_none, Bool.false_eq_true, if_false]
    exact Reads.pure none
  | some ap =>
    rw [hap] at hwire
    simp only [hwire, Option.isSome_some, if_true]
    exact (reads_auxPow (hread.payload ap hap)).map some

theorem reads_header {h : CBlockHeader} (hread : h.Readable) : Reads readHeader (serHeader h) h :=
  (exact_pureHeader.reads trivial).bind
    ((reads_payload hread).map (CBlockHeader.mk h.toCPureBlockHeader))

theorem reads_block {b : CBlock} (h : b.Readable) : Reads readBlock (serBlock true b) b := by
  refine (reads_header h.header).bind ?_
  have hvtx := (exact_vector exact_transaction).reads (a := ⟨b.vtx, h.vtx⟩) h.transactions
  exact hvtx.map fun vtx => CBlock.mk b.toCBlockHeader vtx.val

/-- A payload can be read back if its encoding fits and its coinbase
transaction has inputs. -/
theorem CAuxPow.readable_of_length_le {ap : CAuxPow} {tx : CTransaction}
    (htx : ap.coinbaseTx = some tx) (hvin : tx.vin ≠ []) (h : (serAuxPow ap).length ≤ maxSize) :
    ap.Readable := by
  have hpos (x : Uint256) : 0 < (serUint256 x).length := by simp [serUint256, x.size]
  have hbr := length_le_serVector serUint256 hpos ap.merkleBranch
  have hchain := length_le_serVector serUint256 hpos ap.vChainMerkleBranch
  simp only [serAuxPow, htx, List.length_append] at h
  refine ⟨⟨tx, htx, CTransaction.fits_of_length_le (by omega), ?_⟩, by omega, by omega⟩
  intro hnil
  exact absurd hnil hvin

/-! ### What can be read -/

theorem yields_auxPow : Yields readAuxPow CAuxPow.Readable := by
  refine exact_transaction.yields.bind fun tx htx => (Yields.true readUint256).bind fun _ _ => ?_
  refine (Yields.true (readVector readUint256)).bind fun branch _ => ?_
  refine (Yields.true readInt32).bind fun _ _ => ?_
  refine (Yields.true (readVector readUint256)).bind fun chainBranch _ => ?_
  refine (Yields.true readUInt32).bind fun _ _ => (Yields.true readPureHeader).bind fun _ _ => ?_
  exact Yields.pure ⟨⟨tx, rfl, htx⟩, branch.property, chainBranch.property⟩

theorem yields_payload (flag : Bool) : Yields (readPayload flag) fun auxpow =>
    flag = auxpow.isSome ∧ ∀ ap, auxpow = some ap → ap.Readable := by
  cases flag with
  | false => exact Yields.pure (by simp)
  | true => exact yields_auxPow.bind fun ap hap => Yields.pure (by simpa using hap)

theorem yields_header : Yields readHeader CBlockHeader.Readable := by
  refine (Yields.true readPureHeader).bind fun h _ => ?_
  exact (yields_payload h.isAuxpow).bind fun _ hap => Yields.pure ⟨hap.1, hap.2⟩

theorem yields_block : Yields readBlock CBlock.Readable := by
  refine yields_header.bind fun h hh =>
    (exact_vector exact_transaction).yields.bind fun vtx hvtx => ?_
  exact Yields.pure ⟨hh, vtx.property, hvtx⟩

/-- A header is read back from its encoding exactly when it is readable. -/
theorem reads_header_iff (h : CBlockHeader) : Reads readHeader (serHeader h) h ↔ h.Readable :=
  ⟨fun hread => hread.yields yields_header, reads_header⟩

theorem reads_block_iff (b : CBlock) : Reads readBlock (serBlock true b) b ↔ b.Readable :=
  ⟨fun hread => hread.yields yields_block, reads_block⟩

end Lithium
