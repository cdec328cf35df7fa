import Lithium.Chain

/-!
# Headers messages and persisted index entries

Two further users of the header format. A headers message is written as a
vector of blocks without transactions and read as headers each followed by a
count that is ignored. The block index database stores, for every entry, the
header together with the bookkeeping of the node, some of it only when the
status of the entry says that it means something.

Both formats, and those of headers and blocks, round-trip under exact
conditions, collected at the end of the file.
-/

namespace Lithium
open Lib Decoder Yields

/-! ### Headers messages -/

def maxHeadersResults : Nat := 2000

/-- A headers message is a vector of blocks whose transactions are left
out. -/
def serHeadersMessage (headers : List CBlockHeader) : Bytes :=
  serVector (serBlock true) (headers.map fun h => ⟨h, []⟩)

def readHeaderEntry : Reader CBlockHeader := do
  let h ← readHeader
  -- the number of transactions is ignored, whatever it is
  let _ ← readCompactSize
  pure h

def readHeadersMessage : Reader {hs : List CBlockHeader // hs.length ≤ maxHeadersResults} := do
  let nCount ← readCompactSize
  if h : nCount.val ≤ maxHeadersResults then do
    let hs ← many readHeaderEntry nCount.val
    pure ⟨hs.val, hs.property.trans_le h⟩
  else throw (.failure ("headers message size = " ++ toString nCount.val))

theorem reads_headerEntry {h : CBlockHeader} (hread : h.Readable) :
    Reads readHeaderEntry (serBlock true ⟨h, []⟩) h := by
  refine (reads_header hread).bind ?_
  have hcnt := (exact_compactSize.reads (a := ⟨0, Nat.zero_le _⟩) trivial).map fun _ => h
  simpa [serVector] using hcnt

theorem yields_headersMessage : Yields readHeadersMessage fun hs =>
    ∀ h ∈ hs.val, h.Readable := by
  have hent : Yields readHeaderEntry CBlockHeader.Readable :=
    yields_header.bind fun h hh => (true readCompactSize).bind fun _ _ => pure hh
  refine (true readCompactSize).bind fun n _ => ?_
  split
  · exact (hent.many n.val).bind fun hs hhs => pure hhs
  · exact throw _

/-- A message that is not too long is read back exactly when its headers
are. -/
theorem reads_headersMessage_iff {headers : List CBlockHeader}
    (hlen : headers.length ≤ maxHeadersResults) :
    Reads readHeadersMessage (serHeadersMessage headers) ⟨headers, hlen⟩ ↔
      ∀ h ∈ headers, h.Readable := by
  refine ⟨fun hread => hread.yields yields_headersMessage, fun hread => ?_⟩
  have hmax : headers.length ≤ maxSize := hlen.trans (by decide)
  have hcnt := exact_compactSize.reads (a := ⟨_, hmax⟩) trivial
  have hents := reads_many headers fun h hh => reads_headerEntry (hread h hh)
  have hbytes : serHeadersMessage headers = writeCompactSize headers.length ++
      headers.flatMap fun h => serBlock true ⟨h, []⟩ := by
    simp [serHeadersMessage, serVector, List.flatMap_map]
  rw [hbytes]
  refine hcnt.bind ?_
  rw [dif_pos hlen]
  have hmap := hents.map fun hs => (⟨hs.val, hs.property.trans_le hlen⟩ :
    {hs : List CBlockHeader // hs.length ≤ maxHeadersResults})
  simpa using hmap

/-! ### The exact conditions -/

/-- Each encoding is read back, in front of any other bytes, exactly when the
value is readable: the flag agrees with the payload, the payload has its
coinbase transaction, no vector or script is longer than the reader accepts,
and no transaction has outputs but no inputs; for persisted entries also when
the signed fields that are written are not negative. -/
theorem encodings_round_trip : (∀ h : CBlockHeader, Reads readHeader (serHeader h) h ↔ h.Readable) ∧
    (∀ b : CBlock, Reads readBlock (serBlock true b) b ↔ b.Readable) ∧
    (∀ (hs : List CBlockHeader) (hlen : hs.length ≤ maxHeadersResults),
      Reads readHeadersMessage (serHeadersMessage hs) ⟨hs, hlen⟩ ↔ ∀ h ∈ hs, h.Readable) ∧
    (∀ d : CDiskBlockIndex,
      (∃ bs, serDiskBlockIndex d = .ok bs ∧ Reads readDiskBlockIndex bs d.persisted) ↔
        d.Readable) :=
  ⟨reads_header_iff, reads_block_iff, fun _ hlen => reads_headersMessage_iff hlen,
    reads_diskBlockIndex_iff⟩

/-- A coinbase transaction with a witness. -/
def sampleCoinbase : CTransaction :=
  .ofInput ⟨.null, ⟨[0x51, 0x52], by decide⟩, 0xffffffff, ⟨[[0x00]], by decide, by decide⟩⟩
    (some ⟨50, ⟨[0x51], by decide⟩⟩)

def samplePureHeader (nVersion : Int32) : CPureBlockHeader :=
  ⟨nVersion, .zero, .zero, 1411788333, 0x1e00ffff, 7⟩

/-- A merge-mined header with branches of the given length. -/
def sampleHeader (branchLength : Nat) : CBlockHeader := ⟨samplePureHeader 0x60110, some
    { coinbaseTx := some sampleCoinbase
      merkleBranch := List.replicate branchLength .zero
      vChainMerkleBranch := List.replicate branchLength .zero
      nChainIndex := 3
      parentBlock := samplePureHeader 0x10 }⟩

theorem sampleCoinbase_readable : sampleCoinbase.Readable where
  vin := by decide
  vout := by decide
  inputs := by
    intro i hi
    obtain rfl := List.mem_singleton.mp hi
    exact ⟨by decide, by decide, by decide⟩
  outputs := by decide
  empty := nofun

theorem sampleHeader_readable : (sampleHeader 1).Readable where
  wireForm := rfl
  payload := by
    intro ap hap
    cases hap
    exact ⟨⟨sampleCoinbase, rfl, sampleCoinbase_readable⟩, by decide, by decide⟩

theorem encodings_round_trip_sample :
    Reads readHeader (serHeader (sampleHeader 1)) (sampleHeader 1) ∧
    Reads readBlock (serBlock true ⟨sampleHeader 1, [sampleCoinbase]⟩)
      ⟨sampleHeader 1, [sampleCoinbase]⟩ ∧
    Reads readHeadersMessage (serHeadersMessage [sampleHeader 1]) ⟨[sampleHeader 1], by decide⟩ ∧
    (∃ bs, serDiskBlockIndex ⟨sampleHeader 1, 160000, 8, 1, 2, 8, 9⟩ = .ok bs ∧
      Reads readDiskBlockIndex bs ⟨sampleHeader 1, 160000, 8, 1, 2, 8, 0⟩) := by
  obtain ⟨hhdr, hblk, hmsg, hdisk⟩ := encodings_round_trip
  refine ⟨(hhdr _).mpr sampleHeader_readable, (hblk _).mpr ⟨sampleHeader_readable, ?_, ?_⟩,
    (hmsg _ _).mpr ?_, (hdisk _).mpr ⟨sampleHeader_readable, by decide, by decide⟩⟩
  · decide
  · simpa using sampleCoinbase_readable
  · simpa using sampleHeader_readable

/-- A block with one transaction, which has an output and no input. -/
def inputlessBlock : CBlock :=
  ⟨⟨samplePureHeader 0x10, none⟩, [⟨1, [], [⟨50, ⟨[0x51], by decide⟩⟩], 0, by decide, by decide⟩]⟩

/-- None of the conditions can be dropped: a block whose flag and payload
agree but which holds a transaction without inputs, a merge-mined header with
a branch one longer than the limit, and an entry with a negative height are
not read back. -/
theorem encodings_round_trip_fails : (inputlessBlock.WireForm ∧
      ¬ Reads readBlock (serBlock true inputlessBlock) inputlessBlock) ∧
    ((sampleHeader (maxSize + 1)).WireForm ∧ sampleCoinbase.vin.length = 1 ∧
      ¬ Reads readHeader (serHeader (sampleHeader (maxSize + 1))) (sampleHeader (maxSize + 1))) ∧
    ¬ ∃ bs, serDiskBlockIndex ⟨sampleHeader 1, -1, 8, 1, 2, 8, 0⟩ = .ok bs ∧
      Reads readDiskBlockIndex bs ⟨sampleHeader 1, -1, 8, 1, 2, 8, 0⟩ := by
  refine ⟨⟨rfl, fun h => ?_⟩, ⟨rfl, rfl, fun h => ?_⟩, fun h => ?_⟩
  · have hread := (reads_block_iff _).mp h
    have hout := (hread.transactions _ List.mem_cons_self).empty rfl
    simp at hout
  · have hread := (reads_header_iff _).mp h
    have hlen := (hread.payload _ rfl).merkleBranch
    simp at hlen
  · have hread := (reads_diskBlockIndex_iff _).mp h
    exact absurd hread.nHeight (by decide)

end Lithium
