import Lithium.Compressor

/-!
# Stored coins and undo data

`Coin::Serialize` of `coins.h` is the value of an entry of the coins database.
`undo.h` has the form in which the coins spent by a block are kept, so that they
can be restored: an entry repeats the coin with an extra zero byte, which older
versions used for something else and which is only there if the height is
positive. The file of undo data has a checksum after each block, which covers
the hash of the previous block too.
-/

namespace Lithium
open Lib Decoder
namespace Coin

/-- Height and kind in one number. -/
def code (coin : Coin) : UInt32 := UInt32.ofNat (coin.nHeight.toNat * 2 + coin.fCoinBase.toNat)

def ofCode (code : UInt32) (out : CTxOut) : Coin :=
  ⟨out, code.toNat % 2 == 1, BitVec.ofNat 31 (code.toNat / 2)⟩

/-- The coin is one that compression keeps. -/
structure Storable (coin : Coin) : Prop where
  value : moneyRange coin.out.nValue.toInt = true
  script : coin.out.scriptPubKey.bytes.length ≤ maxScriptSize

theorem code_toNat (coin : Coin) :
    coin.code.toNat = coin.nHeight.toNat * 2 + coin.fCoinBase.toNat := by
  rw [code, UInt32.toNat_ofNat', Nat.mod_eq_of_lt]
  have := coin.fCoinBase.toNat_le
  omega

theorem ofCode_code (coin : Coin) : ofCode coin.code coin.out = coin := by
  obtain ⟨out, fCoinBase, nHeight⟩ := coin
  have hcode := code_toNat ⟨out, fCoinBase, nHeight⟩
  rw [ofCode, hcode]
  have hht : (nHeight.toNat * 2 + fCoinBase.toNat) / 2 = nHeight.toNat := by
    cases fCoinBase <;> simp only [Bool.toNat_true, Bool.toNat_false] <;> omega
  rw [hht, BitVec.ofNat_toNat, BitVec.setWidth_eq]
  have hflag : (nHeight.toNat * 2 + fCoinBase.toNat) % 2 = fCoinBase.toNat := by
    cases fCoinBase <;> simp only [Bool.toNat_true, Bool.toNat_false] <;> omega
  rw [hflag]
  cases fCoinBase <;> rfl

end Coin

/-! ### Coins -/

def serCoin (coin : Coin) : Bytes := writeVarInt coin.code ++ serTxOutCompressed coin.out

def readCoin : Reader Coin := do
  let code ← readVarInt
  let out ← readTxOutCompressed
  pure (.ofCode code out)

/-! ### Undo data -/

def serTxInUndo (txout : Coin) : Bytes :=
  writeVarInt txout.code ++ ((if 0 < txout.nHeight.toNat then [0] else []) ++
    serTxOutCompressed txout.out)

def readTxInUndo : Reader Coin := do
  let nCode ← readVarInt
  if 0 < nCode.toNat / 2 then
    let _ ← readVarInt
    let out ← readTxOutCompressed
    pure (.ofCode nCode out)
  else
    let out ← readTxOutCompressed
    pure (.ofCode nCode out)

structure CTxUndo where
  vprevout : List Coin
deriving DecidableEq

structure CBlockUndo where
  vtxundo : List CTxUndo
deriving DecidableEq

def serTxUndo (txundo : CTxUndo) : Bytes := serVector serTxInUndo txundo.vprevout

def readTxUndo : Reader CTxUndo := do
  let vprevout ← readVector readTxInUndo
  pure ⟨vprevout.val⟩

def serBlockUndo (blockundo : CBlockUndo) : Bytes := serVector serTxUndo blockundo.vtxundo

def readBlockUndo : Reader CBlockUndo := do
  let vtxundo ← readVector readTxUndo
  pure ⟨vtxundo.val⟩

section
variable {coin : Coin} (h : coin.Storable)

include h

theorem reads_codedOut : Reads (readTxOutCompressed >>= fun out => pure (.ofCode coin.code out))
    (serTxOutCompressed coin.out) coin := by
  have hout := (reads_txOutCompressed h.value h.script).map (Coin.ofCode coin.code)
  rwa [coin.ofCode_code] at hout

theorem reads_coin : Reads readCoin (serCoin coin) coin := (reads_varInt _).bind (reads_codedOut h)

theorem reads_txInUndo : Reads readTxInUndo (serTxInUndo coin) coin := by
  have hht : coin.code.toNat / 2 = coin.nHeight.toNat := by
    have := coin.fCoinBase.toNat_le
    rw [coin.code_toNat]
    omega
  refine (reads_varInt coin.code).bind ?_
  rw [hht]
  split_ifs with hpos
  · exact (reads_varInt 0).bind (reads_codedOut h)
  · exact reads_codedOut h

end

theorem reads_txUndo {txundo : CTxUndo} (hsize : txundo.vprevout.length ≤ maxSize)
    (h : ∀ txout ∈ txundo.vprevout, txout.Storable) : Reads readTxUndo (serTxUndo txundo) txundo :=
  (reads_vector hsize fun txout hmem => reads_txInUndo (h txout hmem)).map
    fun v : ReadVec Coin => (⟨v.val⟩ : CTxUndo)

theorem reads_blockUndo {blockundo : CBlockUndo} (hsize : blockundo.vtxundo.length ≤ maxSize)
    (hsizes : ∀ txundo ∈ blockundo.vtxundo, txundo.vprevout.length ≤ maxSize)
    (h : ∀ txundo ∈ blockundo.vtxundo, ∀ txout ∈ txundo.vprevout, txout.Storable) :
    Reads readBlockUndo (serBlockUndo blockundo) blockundo :=
  (reads_vector hsize fun txundo hmem => reads_txUndo (hsizes txundo hmem) (h txundo hmem)).map
    fun v : ReadVec CTxUndo => (⟨v.val⟩ : CBlockUndo)

/-! ### Undo files -/

/-- What `UndoWriteToDisk` puts at the position it returns, for a block whose
previous block has this hash. -/
def undoRecord (hashBlock : Uint256) (blockundo : CBlockUndo) : Bytes :=
  serBlockUndo blockundo ++ serUint256 (hash256 (serUint256 hashBlock ++ serBlockUndo blockundo))

/-- `UndoReadFromDisk`, from a position of a file. The checksum covers the bytes
that were read, which need not be those that the undo data would be written
as. -/
def undoReadFromDisk (hashPrev : Uint256) (file : Bytes) : Option CBlockUndo :=
  match readBlockUndo.run file with
  | .error _ => none
  | .ok (blockundo, rest) =>
    match readUint256.run rest with
    | .error _ => none
    | .ok (hashChecksum, _) =>
      if hashChecksum = hash256 (serUint256 hashPrev ++ file.take (file.length - rest.length)) then
        some blockundo
      else none

theorem undoReadFromDisk_undoRecord (hashPrev : Uint256) {blockundo : CBlockUndo}
    (h : Reads readBlockUndo (serBlockUndo blockundo) blockundo) (rest : Bytes) :
    undoReadFromDisk hashPrev (undoRecord hashPrev blockundo ++ rest) = some blockundo := by
  rw [undoReadFromDisk, undoRecord, List.append_assoc, h]
  dsimp only
  rw [exact_uint256.reads trivial]
  dsimp only
  rw [List.length_append, Nat.add_sub_cancel, List.take_left' rfl, if_pos rfl]

/-- Compression loses nothing. Coins are read back from the database and from
undo data whatever follows them, the arithmetic on amounts is that of unbounded
numbers, and the two codes of numbers have exactly one string for each number
they can hold. -/
theorem compression_lossless : (∀ coin : Coin, coin.Storable → Reads readCoin (serCoin coin) coin ∧
      Reads readTxInUndo (serTxInUndo coin) coin ∧
      Reads readTxOutCompressed (serTxOutCompressed coin.out) coin.out) ∧
    (∀ n : UInt64, n.toNat ≤ maxMoney → (compressAmount n).toNat = compressAmountNat n.toNat ∧
      (decompressAmount (compressAmount n)).toNat =
        decompressAmountNat (compressAmountNat n.toNat) ∧ decompressAmount (compressAmount n) = n ∧
      ∀ n' : UInt64, n'.toNat ≤ maxMoney → compressAmount n' = compressAmount n → n' = n) ∧
    Exact readVarInt (fun _ => True) writeVarInt ∧
      Exact readVarInt64 (fun _ => True) writeVarInt64 ∧
    Exact readVarIntSigned (fun n => 0 ≤ n.toInt) writeVarIntSigned ∧
    Exact readCompactSizeUnchecked (· < 2 ^ 64) writeCompactSize ∧
    Exact readCompactSize (fun _ => True) fun n => writeCompactSize n.val := by
  refine ⟨fun coin h => ⟨reads_coin h, reads_txInUndo h, reads_txOutCompressed h.value h.script⟩,
    fun n hn => ?_, exact_varInt, exact_varInt64, exact_varIntSigned, exact_compactSizeUnchecked,
    exact_compactSize⟩
  have hsmall {n : UInt64} (hn : n.toNat ≤ maxMoney) : n.toNat < 2 ^ 60 := by
    have hmoney : maxMoney = 2522880000000000 := rfl
    omega
  have hback := decompressAmount_compressAmount (hsmall hn)
  refine ⟨compressAmount_toNat (hsmall hn), ?_, hback, fun n' hn' heq => ?_⟩
  · rw [hback, decompressAmountNat_compressAmountNat]
  · rw [← hback, ← heq, decompressAmount_compressAmount (hsmall hn')]

/-- A script that pays to the hash of a key. -/
def keyHashScript : CScript := .ofBytes ([0x76, 0xa9, 0x14] ++ List.replicate 20 7 ++ [0x88, 0xac])

/-- A script that pays to the uncompressed public key of the private key 1. -/
def keyScript : CScript := .ofBytes (0x41 :: Secp256k1.pubkeySerialize
  (0x79be667ef9dcbbac55a06295ce870b07029bfcdb2dce28d959f2815b16f81798,
    0x483ada7726a3c4655da4fbfc0e1108a8fd17b448a68554199c47d08ffb10d4b8) ++ [0xac])

theorem compression_lossless_templates :
    (compressScript keyHashScript.bytes).map List.length = some 21 ∧
      (compressScript keyScript.bytes).map List.length = some 33 ∧
      (∀ script ∈ [keyHashScript, keyScript], Reads readTxInUndo
        (serTxInUndo ⟨⟨4800000000, script⟩, true, 1⟩) ⟨⟨4800000000, script⟩, true, 1⟩) ∧
      decompressAmount (compressAmount 4800000000) = 4800000000 := by
  have hsize : ∀ script ∈ [keyHashScript, keyScript], script.bytes.length ≤ maxScriptSize := by
    decide +kernel
  refine ⟨by decide +kernel, by decide +kernel, fun script hmem => ?_,
    (compression_lossless.2.1 _ (by decide)).2.2.1⟩
  exact (compression_lossless.1 _ ⟨rfl, hsize script hmem⟩).2.1

end Lithium
