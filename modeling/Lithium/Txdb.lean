import Lithium.Coins.Refinement
import Lithium.Lib.OrdMap
import Lithium.Undo

/-!
# The coins database

`CCoinsViewDB` of `txdb.cpp`. Coins are stored under their outpoint, together
with the block they belong to. A large batch of changes is written in parts:
each part is written entirely or not at all, and while some are missing the
database has no best block but two *head blocks*, the one it is on the way to
and the one it comes from.

Entries are listed in the order of their keys as byte strings. That is not the
order of the output indices of a transaction, since these are written with a
variable length.
-/

namespace Lithium
open Lib List Function
variable (db : CCoinsViewDB) (o : COutPoint)

/-! ### Keys -/

/-- The key of a coin, without the letter that all such keys begin with. -/
structure CoinEntry where
  outpoint : COutPoint
deriving DecidableEq

namespace CoinEntry

def bytes (entry : CoinEntry) : Bytes :=
  serUint256 entry.outpoint.hash ++ writeVarInt entry.outpoint.n

theorem bytes_injective : Function.Injective bytes := by
  rintro ⟨⟨hash, n⟩⟩ ⟨⟨hash', n'⟩⟩ h
  obtain ⟨rfl, hn⟩ := selfDelimiting_uint256 trivial trivial h
  obtain ⟨rfl, -⟩ := (reads_varInt n).inj (reads_varInt n') (congrArg (· ++ []) hn)
  rfl

/-- `BytewiseComparator`. -/
def digits (entry : CoinEntry) : List Nat := entry.bytes.map UInt8.toNat

theorem digits_injective : Function.Injective digits := fun _ _ h =>
  bytes_injective (map_injective_iff.mpr (fun _ _ hxy => UInt8.toNat_inj.mp hxy) h)

instance : LinearOrder CoinEntry := LinearOrder.lift' digits digits_injective

end CoinEntry

/-! ### Batches -/

structure CCoinsViewDB where
  batchWriteBytes : Nat
  coins : OrdMap CoinEntry Coin
  bestBlock : Option Uint256
  headBlocks : Option (List Uint256)

inductive DbWrite where
  | writeCoin (outpoint : COutPoint) (coin : Coin)
  | eraseCoin (outpoint : COutPoint)
  | writeBestBlock (hashBlock : Uint256)
  | eraseBestBlock
  | writeHeadBlocks (heads : List Uint256)
  | eraseHeadBlocks

namespace DbWrite

/-- What `SizeEstimate` counts for a value under a key. -/
def estimate (key value : Nat) : Nat :=
  3 + (if 127 < key then 1 else 0) + key + (if 127 < value then 1 else 0) + value

def estimateErased (key : Nat) : Nat := 2 + (if 127 < key then 1 else 0) + key

def sizeEstimate : DbWrite → Nat
  | writeCoin outpoint coin =>
      estimate (1 + (CoinEntry.mk outpoint).bytes.length) (serCoin coin).length
  | eraseCoin outpoint => estimateErased (1 + (CoinEntry.mk outpoint).bytes.length)
  | writeBestBlock _ => estimate 1 32
  | eraseBestBlock => estimateErased 1
  | writeHeadBlocks heads => estimate 1 (serVector serUint256 heads).length
  | eraseHeadBlocks => estimateErased 1

def apply (db : CCoinsViewDB) : DbWrite → CCoinsViewDB
  | writeCoin outpoint coin => { db with coins := db.coins.insert ⟨outpoint⟩ coin }
  | eraseCoin outpoint => { db with coins := db.coins.erase ⟨outpoint⟩ }
  | writeBestBlock hashBlock => { db with bestBlock := some hashBlock }
  | eraseBestBlock => { db with bestBlock := none }
  | writeHeadBlocks heads => { db with headBlocks := some heads }
  | eraseHeadBlocks => { db with headBlocks := none }

end DbWrite

open DbWrite

abbrev CDBBatch := List DbWrite

def CDBBatch.sizeEstimate (batch : CDBBatch) : Nat := (batch.map DbWrite.sizeEstimate).sum

/-- What an entry of a cache asks to be written. -/
def CCoinsCacheEntry.writes (outpoint : COutPoint) (it : CCoinsCacheEntry) : CDBBatch :=
  if it.dirty then
    if it.coin.isSpent then [.eraseCoin outpoint] else [.writeCoin outpoint it.coin]
  else []

namespace CCoinsViewDB

def getCoin (outpoint : COutPoint) (db : CCoinsViewDB) : Option Coin := db.coins.find? ⟨outpoint⟩

section
variable (db : CCoinsViewDB)

def getBestBlock : Uint256 := db.bestBlock.getD .zero

def getHeadBlocks : List Uint256 := db.headBlocks.getD []

def writeBatch (batch : CDBBatch) : CCoinsViewDB := batch.foldl apply db

/-- The loop of `BatchWrite`: the batches it writes and the one that it has
begun when it ends. -/
def partialBatches (batchWriteBytes : Nat) : List CoinsCachePair →
    CDBBatch → List CDBBatch × CDBBatch
  | [], batch => ([], batch)
  | it :: rest, batch =>
    let batch := batch ++ it.2.writes it.1
    if batchWriteBytes < batch.sizeEstimate then
      match partialBatches batchWriteBytes rest [] with
      | (batches, last) => (batch :: batches, last)
    else partialBatches batchWriteBytes rest batch

/-- The block that `BatchWrite` comes from. -/
def oldTip : Uint256 :=
  if db.getBestBlock.isNull then
    match db.getHeadBlocks with
    | [_, old] => old
    | _ => db.getBestBlock
  else db.getBestBlock

/-- While a replay is under way only its target can be written. -/
def headsAgree (hashBlock : Uint256) : Bool := !db.getBestBlock.isNull ||
    match db.getHeadBlocks with
    | [new, _] => new == hashBlock
    | _ => true

end

/-- The batches that `BatchWrite` writes, in this order. -/
def batches (db : CCoinsViewDB) (mapCoins : CCoinsMap) (hashBlock : Uint256) : List CDBBatch :=
  match partialBatches db.batchWriteBytes mapCoins.entries
      [.eraseBestBlock, .writeHeadBlocks [hashBlock, db.oldTip]] with
  | (batches, last) => batches ++ [last ++ [.eraseHeadBlocks, .writeBestBlock hashBlock]]

variable (mapCoins : CCoinsMap) (hashBlock : Uint256)

def batchWrite (erase : Bool) (db : CCoinsViewDB) :
    Except CoinsError Bool × CCoinsMap × CCoinsViewDB :=
  if hashBlock.isNull then (.error (.assertion "!hashBlock.IsNull()"), mapCoins, db)
  else if !db.headsAgree hashBlock then
    (.error (.assertion "old_heads[0] == hashBlock"), mapCoins, db)
  else
    (.ok true, if erase then ∅ else mapCoins, (db.batches mapCoins hashBlock).foldl writeBatch db)

def view : CCoinsView CCoinsViewDB where
  getCoin outpoint db := (db.getCoin outpoint, db)
  getBestBlock db := (db.getBestBlock, db)
  batchWrite := batchWrite

/-! ### Writing -/

theorem flatten_partialBatches (batchWriteBytes : Nat)
    (l : List CoinsCachePair) (batch : CDBBatch) :
    (partialBatches batchWriteBytes l batch).1.flatten ++
      (partialBatches batchWriteBytes l batch).2 =
      batch ++ l.flatMap fun it => it.2.writes it.1 := by
  induction l generalizing batch with
  | nil => simp [partialBatches]
  | cons it rest ih =>
    rw [partialBatches]
    split_ifs
    · rw [flatten_cons, append_assoc, ih, flatMap_cons, nil_append, append_assoc]
    · rw [ih, flatMap_cons, append_assoc]

/-- However the changes are cut into batches, they are written in order. -/
theorem flatten_batches : (db.batches mapCoins hashBlock).flatten =
      [.eraseBestBlock, .writeHeadBlocks [hashBlock, db.oldTip]] ++
        (mapCoins.entries.flatMap fun it => it.2.writes it.1) ++
        [.eraseHeadBlocks, .writeBestBlock hashBlock] := by
  rw [batches, ← flatten_partialBatches db.batchWriteBytes]
  simp

theorem foldl_writeBatch (batches : List CDBBatch) :
    batches.foldl writeBatch db = batches.flatten.foldl apply db := by
  rw [foldl_flatten]
  rfl

/-- The map that a database stands for. -/
def utxo (db : CCoinsViewDB) : UtxoMap := fun outpoint => db.getCoin outpoint

/-- Spent coins are not stored. -/
def Inv (db : CCoinsViewDB) : Prop := ∀ o coin, db.utxo o = some coin → coin.isSpent = false

theorem utxo_writeCoin (coin : Coin) :
    (apply db (.writeCoin o coin)).utxo = Function.update db.utxo o (some coin) := by
  funext x
  refine (OrdMap.find?_insert db.coins ⟨o⟩ ⟨x⟩ coin).trans ?_
  simp only [update_apply, CoinEntry.mk.injEq, eq_comm (a := o)]
  rfl

theorem utxo_eraseCoin : (apply db (.eraseCoin o)).utxo = Function.update db.utxo o none := by
  funext x
  refine (OrdMap.find?_erase db.coins ⟨o⟩ ⟨x⟩).trans ?_
  simp only [update_apply, CoinEntry.mk.injEq, eq_comm (a := o)]
  rfl

/-- Only a dirty entry of a cache changes its coin, and nothing else is
changed. -/
theorem foldl_writes (it : CCoinsCacheEntry) :
    ∃ coins, (it.writes o).foldl apply db = { db with coins } ∧
      ({ db with coins } : CCoinsViewDB).utxo =
        if it.dirty then update db.utxo o it.coin.live else db.utxo := by
  rw [CCoinsCacheEntry.writes, Coin.live]
  cases it.dirty with
  | false => exact ⟨db.coins, rfl, rfl⟩
  | true =>
    cases it.coin.isSpent with
    | true => exact ⟨_, rfl, utxo_eraseCoin db o⟩
    | false => exact ⟨_, rfl, utxo_writeCoin db o it.coin⟩

/-- Writing entries leaves all else, and brings coins only for their
outpoints. -/
theorem foldl_entries (l : List CoinsCachePair) :
    ∃ coins, (l.flatMap fun it => it.2.writes it.1).foldl apply db = { db with coins } ∧
      ∀ o coin, ({ db with coins } : CCoinsViewDB).utxo o = some coin →
        db.utxo o = some coin ∨ o ∈ l.keys := by
  induction l generalizing db with
  | nil => exact ⟨db.coins, rfl, fun o coin h => Or.inl h⟩
  | cons it rest ih =>
    obtain ⟨coins, hwr, hutxo⟩ := foldl_writes db it.1 it.2
    obtain ⟨coins', hrest, hutxo'⟩ := ih { db with coins }
    refine ⟨coins', by rw [flatMap_cons, foldl_append, hwr, hrest], fun o coin h => ?_⟩
    rw [keys_cons, mem_cons]
    rcases hutxo' o coin h with h | h
    · rw [hutxo] at h
      by_cases ho : o = it.1
      · exact Or.inr (Or.inl ho)
      · split_ifs at h
        · rw [update_of_ne ho] at h
          exact Or.inl h
        · exact Or.inl h
    · exact Or.inr (Or.inr h)

/-- One entry of a cache only changes its coin. -/
theorem writes_entry {db : CCoinsViewDB} (hdb : db.Inv) {o : COutPoint} {it : CCoinsCacheEntry}
    (hit : it.Sound (db.utxo o)) : ∃ coins, (it.writes o).foldl apply db = { db with coins } ∧
      ({ db with coins } : CCoinsViewDB).utxo = update db.utxo o it.coin.live := by
  obtain ⟨coins, hwr, hutxo⟩ := foldl_writes db o it
  refine ⟨coins, hwr, hutxo.trans ?_⟩
  split_ifs with hdirty
  · rfl
  · have hsto := hit.clean (Bool.not_eq_true _ ▸ hdirty)
    rw [Coin.live_of_unspent (hdb o _ hsto), ← hsto, update_eq_self]

theorem Inv.update {db : CCoinsViewDB} (hdb : db.Inv) {o : COutPoint} {coin : Coin}
    {t : CCoinsViewDB} (ht : t.utxo = update db.utxo o coin.live) : t.Inv := by
  intro x coin' hx
  rw [ht, update_apply] at hx
  split_ifs at hx with h
  · rw [Coin.live] at hx
    split_ifs at hx with hspent
    cases hx
    exact Bool.not_eq_true _ ▸ hspent
  · exact hdb x coin' hx

/-- Entries for different outpoints are written one after the other. -/
theorem writes_entries {l : List CoinsCachePair} (hnd : l.NodupKeys)
    {db : CCoinsViewDB} (hdb : db.Inv) (hsound : ∀ it ∈ l, it.2.Sound (db.utxo it.1)) :
    ∃ coins, (l.flatMap fun it => it.2.writes it.1).foldl apply db = { db with coins } ∧
      ({ db with coins } : CCoinsViewDB).Inv ∧
      ({ db with coins } : CCoinsViewDB).utxo = CCoinsViewCache.overlayList l db.utxo := by
  induction l generalizing db with
  | nil => exact ⟨db.coins, rfl, hdb, rfl⟩
  | cons it rest ih =>
    rw [nodupKeys_cons] at hnd
    obtain ⟨coins, hwr, hutxo⟩ := writes_entry hdb (hsound it mem_cons_self)
    obtain ⟨coins', hrest, hinv, hutxo'⟩ := ih hnd.2 (hdb.update hutxo) fun it' hmem => by
      have hne : it'.1 ≠ it.1 := fun heq => hnd.1 (heq ▸ mem_map_of_mem hmem)
      rw [hutxo, update_of_ne hne]
      exact hsound it' (mem_cons_of_mem _ hmem)
    refine ⟨coins', ?_, hinv, ?_⟩
    · rw [flatMap_cons, foldl_append, hwr, hrest]
    · rw [hutxo', hutxo]
      rfl

/-- A complete `BatchWrite`, whatever the flags of the entries. -/
theorem foldl_batches : ∃ coins, (db.batches mapCoins hashBlock).foldl writeBatch db =
        { db with coins, bestBlock := some hashBlock, headBlocks := none } ∧
      ∀ o coin, ({ db with coins } : CCoinsViewDB).utxo o = some coin →
        db.utxo o = some coin ∨ o ∈ mapCoins.keys := by
  rw [foldl_writeBatch, flatten_batches, foldl_append, foldl_append]
  obtain ⟨coins, hwr, hutxo⟩ := foldl_entries
    { db with bestBlock := none, headBlocks := some [hashBlock, db.oldTip] } mapCoins.entries
  refine ⟨coins, ?_, hutxo⟩
  exact congrArg (fun db => [eraseHeadBlocks, .writeBestBlock hashBlock].foldl apply db) hwr

/-- A complete `BatchWrite`. -/
theorem batchWrite_spec {db : CCoinsViewDB} (hdb : db.Inv) {mapCoins : CCoinsMap}
    (hashBlock : Uint256) (hsound : ∀ o it, mapCoins.lookup o = some it → it.Sound (db.utxo o)) :
    ∃ coins, (db.batches mapCoins hashBlock).foldl writeBatch db =
        { db with coins, bestBlock := some hashBlock, headBlocks := none } ∧
      ({ db with coins } : CCoinsViewDB).Inv ∧
      ({ db with coins } : CCoinsViewDB).utxo = overlay mapCoins db.utxo := by
  rw [foldl_writeBatch, flatten_batches, foldl_append, foldl_append]
  have hmid : Inv { db with bestBlock := none, headBlocks := some [hashBlock, db.oldTip] } := hdb
  obtain ⟨coins, hwr, hinv, hutxo⟩ := writes_entries mapCoins.nodupKeys hmid
    fun it hmem => hsound it.1 it.2 (AList.mem_lookup_iff.mpr hmem)
  refine ⟨coins, ?_, hinv, hutxo.trans (CCoinsViewCache.overlayList_entries mapCoins _)⟩
  exact congrArg (fun db => [eraseHeadBlocks, .writeBestBlock hashBlock].foldl apply db) hwr

/-- The best block can be written. -/
def Accepts (db : CCoinsViewDB) (hashBlock : Uint256) : Prop :=
  hashBlock.isNull = false ∧ db.headsAgree hashBlock = true

/-- A database is a view, as long as its assertions hold. -/
def model : CoinsModel view where
  Inv := Inv
  Accepts := Accepts
  state db := ⟨db.utxo, db.getBestBlock, []⟩
  unspent hdb h := hdb _ _ h
  getCoin _ hdb := ⟨_, rfl, hdb, rfl⟩
  getBestBlock hdb := ⟨_, rfl, hdb, rfl⟩
  batchWrite := by
    intro db mapCoins hashBlock erase hdb hacc hsound
    obtain ⟨coins, hwr, hinv, hutxo⟩ := batchWrite_spec hdb hashBlock hsound
    refine ⟨{ db with coins, bestBlock := some hashBlock, headBlocks := none }, ?_, hinv,
      hutxo, rfl,
      fun _ => rfl⟩
    change batchWrite mapCoins hashBlock erase db = _
    rw [batchWrite, hacc.1, hacc.2, hwr]
    rfl

end CCoinsViewDB
end Lithium
