import Lithium.Chain
import Lithium.Txdb

/-!
# Statistics of the coins database

`kernel/coinstats.cpp`: a pass over the coins database that counts, adds up and
hashes what it finds. The coins of a transaction follow each other in the
database; they are collected, sorted by output index and then hashed together.

The hash of the kind `HASH_SERIALIZED` covers for each transaction its id and,
for each of its outputs, the index, the script and the amount. Of the height and
the coinbase flag it covers very little: the number that is written for the
first output is `nHeight * 2 + fCoinBase ? 1u : 0u`, which the rules of
precedence make one unless both are zero.
-/

namespace Lithium
open Lib List OrdMap UInt32
variable {db : CCoinsViewDB} (coins : OrdMap CoinEntry Coin) (txid : Uint256)

/-! ### The pass over the database -/

structure CCoinsStats where
  nHeight : Int
  hashBlock : Uint256
  nTransactions : UInt64
  nTransactionOutputs : UInt64
  nBogoSize : UInt64
  hashSerialized : Uint256
  /-- absent if the sum overflowed -/
  totalAmount : Option Int64
  coinsCount : UInt64

def CCoinsStats.new (blockHeight : Int) (blockHash : Uint256) : CCoinsStats :=
  ⟨blockHeight, blockHash, 0, 0, 0, .zero, some 0, 0⟩

/-- The coins of one transaction by output index. -/
abbrev CoinGroup := OrdMap Nat Coin

def getBogoSize (scriptPubKey : CScript) : UInt64 :=
  32 + 4 + 4 + 8 + 2 + UInt64.ofNat scriptPubKey.bytes.length

/-- `CheckedAdd` for amounts. -/
def checkedAdd (i j : Int64) : Option Int64 :=
  if -2 ^ 63 ≤ i.toInt + j.toInt ∧ i.toInt + j.toInt < 2 ^ 63 then some (i + j) else none

def applyStats (stats : CCoinsStats) (outputs : CoinGroup) : CCoinsStats := outputs.entries.foldl
    (fun stats it =>
      { stats with
        nTransactionOutputs := stats.nTransactionOutputs + 1
        totalAmount := stats.totalAmount.bind fun total => checkedAdd total it.2.out.nValue
        nBogoSize := stats.nBogoSize + getBogoSize it.2.out.scriptPubKey })
    { stats with nTransactions := stats.nTransactions + 1 }

/-- `ApplyHash` for a single output. -/
def hashOutput (it : Nat × Coin) : Bytes :=
  writeVarInt (ofNat it.1 + 1) ++ serBytes it.2.out.scriptPubKey.bytes ++
    writeVarIntSigned64 it.2.out.nValue

/-- `ApplyHash` for the coins of a transaction. -/
def applyHash (ss : Bytes) (hash : Uint256) (outputs : CoinGroup) : Bytes :=
  match outputs.entries with
  | [] => ss
  | first :: rest =>
    ss ++ (serUint256 hash ++ writeVarInt (if first.2.code ≠ 0 then 1 else 0) ++
      (first :: rest).flatMap hashOutput ++ writeVarInt 0)

/-- The variables of the loop of `ComputeUTXOStats`, for some kind of hash
object. -/
structure StatsLoop (τ : Type) where
  stats : CCoinsStats
  hashObj : τ
  prevkey : Uint256
  outputs : CoinGroup

namespace StatsLoop
variable {τ : Type} (applyHash : τ → Uint256 → CoinGroup → τ)

/-- The collected coins are counted and hashed. -/
def close (l : StatsLoop τ) : StatsLoop τ :=
  { l with
    stats := applyStats l.stats l.outputs
    hashObj := applyHash l.hashObj l.prevkey l.outputs }

def next (l : StatsLoop τ) (e : CoinEntry × Coin) : StatsLoop τ :=
  let key := e.1.outpoint
  let l := if !l.outputs.entries.isEmpty && key.hash != l.prevkey then
      { l.close applyHash with outputs := .empty }
    else l
  { l with
    prevkey := key.hash
    outputs := l.outputs.insert key.n.toNat e.2
    stats := { l.stats with coinsCount := l.stats.coinsCount + 1 } }

def run (l : StatsLoop τ) (entries : List (CoinEntry × Coin)) : StatsLoop τ :=
  let l := entries.foldl (next applyHash) l
  if !l.outputs.entries.isEmpty then l.close applyHash else l

end StatsLoop

/-- `ComputeUTXOStats` with `HASH_SERIALIZED`. -/
def computeUTXOStats (lookup : Uint256 → Option CBlockIndex) (db : CCoinsViewDB) :
    Except CoinsError CCoinsStats :=
  match lookup db.getBestBlock with
  | none => .error (.assertion "pindex")
  | some pindex =>
    let stats := CCoinsStats.new pindex.nHeight pindex.phashBlock
    let l := StatsLoop.run applyHash
      ⟨stats, serUint256 stats.hashBlock, .zero, .empty⟩ db.coins.entries
    .ok { l.stats with hashSerialized := hash256 l.hashObj }

/-! ### The coins of a transaction are hashed together -/

/-- The transactions and their coins, in the order in which the pass meets
them. -/
def groups : List (CoinEntry × Coin) → Uint256 → CoinGroup → List (Uint256 × CoinGroup)
  | [], prevkey, outputs => if outputs.entries.isEmpty then [] else [(prevkey, outputs)]
  | e :: rest, prevkey, outputs =>
    if !outputs.entries.isEmpty && e.1.outpoint.hash != prevkey then
      (prevkey, outputs) ::
        groups rest e.1.outpoint.hash (empty.insert e.1.outpoint.n.toNat e.2)
    else groups rest e.1.outpoint.hash (outputs.insert e.1.outpoint.n.toNat e.2)

theorem StatsLoop.hashObj_run {τ : Type} (applyHash : τ → Uint256 → CoinGroup → τ)
    (entries : List (CoinEntry × Coin)) (l : StatsLoop τ) : (l.run applyHash entries).hashObj =
      (groups entries l.prevkey l.outputs).foldl (fun t g => applyHash t g.1 g.2) l.hashObj := by
  induction entries generalizing l with
  | nil =>
    rw [run, groups, foldl_nil]
    cases l.outputs.entries.isEmpty <;> rfl
  | cons e rest ih =>
    have hstep := ih (l.next applyHash e)
    rw [run, foldl_cons]
    rw [run] at hstep
    rw [hstep, groups, next]
    split_ifs <;> rfl

/-- The entries that are left and the coins collected so far belong to a
database listed in order. -/
structure Collected (es : List (CoinEntry × Coin)) (prevkey : Uint256) (outputs : CoinGroup) :
    Prop where
  sorted : es.Pairwise fun a b => a.1.outpoint.hash ≤ b.1.outpoint.hash
  distinct : es.Pairwise fun a b => a.1 ≠ b.1
  nonempty : outputs.entries ≠ []
  ahead : ∀ e ∈ es, prevkey ≤ e.1.outpoint.hash
  fresh : ∀ e ∈ es, e.1.outpoint.hash = prevkey → outputs.find? e.1.outpoint.n.toNat = none

theorem insert_entries_ne_nil (m : CoinGroup) (n : Nat) (coin : Coin) :
    (m.insert n coin).entries ≠ [] := by
  intro h
  have hmem := (mem_entries_iff (m.insert n coin) n coin).mpr (m.find?_insert_self n coin)
  rw [h] at hmem
  cases hmem

/-- Two entries of one transaction differ in the output index. -/
theorem index_ne_of_ne {a b : CoinEntry} (h : a ≠ b) (hhash : a.outpoint.hash = b.outpoint.hash) :
    a.outpoint.n.toNat ≠ b.outpoint.n.toNat := by
  obtain ⟨⟨hash, n⟩⟩ := a
  obtain ⟨⟨hash', n'⟩⟩ := b
  intro hn
  obtain rfl : hash = hash' := hhash
  obtain rfl : n = n' := UInt32.toNat_inj.mp hn
  exact h rfl

variable {es : List (CoinEntry × Coin)} {e : CoinEntry × Coin} {prevkey : Uint256}
  {outputs : CoinGroup}

/-- The next entry is added to what has been collected of its transaction. -/
theorem Collected.insert
    (hsort : (e :: es).Pairwise fun a b => a.1.outpoint.hash ≤ b.1.outpoint.hash)
    (hdist : (e :: es).Pairwise fun a b => a.1 ≠ b.1)
    (hfr : ∀ e' ∈ es, e'.1.outpoint.hash = e.1.outpoint.hash →
      outputs.find? e'.1.outpoint.n.toNat = none) :
    Collected es e.1.outpoint.hash (outputs.insert e.1.outpoint.n.toNat e.2) := by
  obtain ⟨hsort, hsort'⟩ := pairwise_cons.mp hsort
  obtain ⟨hdist, hdist'⟩ := pairwise_cons.mp hdist
  refine ⟨hsort', hdist', insert_entries_ne_nil _ _ _, hsort, fun e' he' hhash => ?_⟩
  rw [find?_insert_of_ne _ _ (index_ne_of_ne (hdist e' he') hhash.symm)]
  exact hfr e' he' hhash

/-- What the pass collects: each transaction once, in order, with at least one
coin and with all its coins. -/
structure Grouped (G : List (Uint256 × CoinGroup)) (least : Uint256)
    (P : Uint256 → Nat → Coin → Prop) : Prop where
  ascending : G.Pairwise fun a b => a.1 < b.1
  least : ∀ g ∈ G, least ≤ g.1
  nonempty : ∀ g ∈ G, g.2.entries ≠ []
  complete : ∀ txid n coin, (∃ g ∈ G, g.1 = txid ∧ g.2.find? n = some coin) ↔ P txid n coin

theorem Collected.grouped (h : Collected es prevkey outputs) :
    Grouped (groups es prevkey outputs) prevkey fun txid n coin =>
      (∃ e ∈ es, e.1.outpoint.hash = txid ∧ e.1.outpoint.n.toNat = n ∧ e.2 = coin) ∨
        (prevkey = txid ∧ outputs.find? n = some coin) := by
  have hne : outputs.entries.isEmpty = false := isEmpty_eq_false_iff.mpr h.nonempty
  induction es generalizing prevkey outputs with
  | nil =>
    rw [groups, hne]
    refine ⟨pairwise_singleton _ _, ?_, ?_, fun txid n coin => ?_⟩
    · rintro g hg
      rw [mem_singleton.mp hg]
    · rintro g hg
      rw [mem_singleton.mp hg]
      exact h.nonempty
    · simp
  | cons e es ih =>
    rw [groups, hne]
    have hahead := h.ahead e mem_cons_self
    split_ifs with hother
    · have hlt : prevkey < e.1.outpoint.hash := by
        refine lt_of_le_of_ne hahead fun heq => ?_
        simp [heq] at hother
      have hfst := Collected.insert h.sorted h.distinct fun e' _ _ => find?_empty _
      have hrest := ih hfst (isEmpty_eq_false_iff.mpr hfst.nonempty)
      refine ⟨pairwise_cons.mpr ⟨fun g hg => hlt.trans_le (hrest.least g hg), hrest.ascending⟩,
        ?_, ?_, fun txid n coin => ?_⟩
      · rintro g (_ | ⟨_, hg⟩)
        · exact le_rfl
        · exact hlt.le.trans (hrest.least g hg)
      · rintro g (_ | ⟨_, hg⟩)
        · exact h.nonempty
        · exact hrest.nonempty g hg
      · rw [exists_mem_cons_iff, hrest.complete, exists_mem_cons_iff,
          find?_insert_of_fresh _ (find?_empty _)]
        simp only [find?_empty, reduceCtorEq, or_false]
        exact or_comm.trans (or_congr_left or_comm)
    · have hsame : e.1.outpoint.hash = prevkey := by
        simpa using hother
      have hfr := h.fresh e mem_cons_self hsame
      have hmore := Collected.insert h.sorted h.distinct fun e' he' hhash =>
        h.fresh e' (mem_cons_of_mem _ he') (hhash.trans hsame)
      have hrest := ih hmore (isEmpty_eq_false_iff.mpr hmore.nonempty)
      refine ⟨hrest.ascending, fun g hg => hsame ▸ hrest.least g hg, hrest.nonempty,
        fun txid n coin => ?_⟩
      rw [hrest.complete, exists_mem_cons_iff, find?_insert_of_fresh _ hfr, hsame,
        and_or_left, or_left_comm, or_assoc]

/-- The transactions of a database with their coins. -/
def coinGroups (coins : OrdMap CoinEntry Coin) : List (Uint256 × CoinGroup) :=
  groups coins.entries .zero .empty

theorem append_lt_append_of_lt {l m : List Nat} (hlen : l.length = m.length) (h : l < m)
    (x y : List Nat) : l ++ x < m ++ y := by
  induction l generalizing m with
  | nil =>
    rw [length_eq_zero_iff.mp hlen.symm] at h
    exact absurd h (lt_irrefl _)
  | cons a l ih =>
    cases m with
    | nil => cases hlen
    | cons b m =>
      rw [cons_append, cons_append, cons_lt_cons_iff]
      rw [cons_lt_cons_iff] at h
      exact h.imp_right fun h => ⟨h.1, ih (Nat.succ.inj hlen) h.2⟩

/-- Keys in order have transaction ids in order. -/
theorem CoinEntry.hash_le_of_lt {a b : CoinEntry} (h : a < b) :
    a.outpoint.hash ≤ b.outpoint.hash := by
  by_contra hlt
  rw [not_le] at hlt
  have hlen : b.outpoint.hash.digits.length = a.outpoint.hash.digits.length := by
    simp [Uint256.digits, Uint256.size]
  have hkeys : b.digits < a.digits := by
    simp only [digits, bytes, map_append]
    exact append_lt_append_of_lt hlen hlt _ _
  exact absurd h (lt_asymm hkeys)

theorem coinGroups_grouped : ∃ least, Grouped (coinGroups coins) least fun txid n coin =>
      ∃ o : COutPoint, o.hash = txid ∧ o.n.toNat = n ∧ coins.find? ⟨o⟩ = some coin := by
  have hent (txid : Uint256) (n : Nat) (coin : Coin) :
      (∃ o : COutPoint, o.hash = txid ∧ o.n.toNat = n ∧ coins.find? ⟨o⟩ = some coin) ↔
        ∃ e ∈ coins.entries, e.1.outpoint.hash = txid ∧ e.1.outpoint.n.toNat = n ∧ e.2 = coin := by
    constructor
    · rintro ⟨o, hhash, hn, hfind⟩
      exact ⟨(⟨o⟩, coin), (coins.mem_entries_iff _ _).mpr hfind, hhash, hn, rfl⟩
    · rintro ⟨⟨⟨o⟩, _⟩, hmem, hhash, hn, rfl⟩
      exact ⟨o, hhash, hn, (coins.mem_entries_iff _ _).mp hmem⟩
  simp only [hent]
  have hsort := coins.sorted.imp fun h => CoinEntry.hash_le_of_lt h
  have hdist := coins.sorted.imp fun h => ne_of_lt h
  rw [coinGroups]
  cases hes : coins.entries with
  | nil => exact ⟨.zero, List.Pairwise.nil, by simp [groups, empty],
      by simp [groups, empty], by simp [groups, empty]⟩
  | cons e es =>
    rw [hes] at hsort hdist
    have hgrp := (Collected.insert hsort hdist fun e' _ _ => find?_empty _).grouped
    refine ⟨_, hgrp.ascending, hgrp.least, hgrp.nonempty, fun txid n coin => ?_⟩
    refine (hgrp.complete txid n coin).trans ?_
    rw [find?_insert_of_fresh _ (find?_empty _), exists_mem_cons_iff]
    simp only [find?_empty, reduceCtorEq, or_false]
    exact or_comm

/-! ### What the hash covers -/

/-- The number that an amount is hashed as. Negative amounts are taken for small
ones. -/
def hashedAmount (nValue : Int64) : UInt64 :=
  if nValue.toInt ≤ 0x7f then UInt64.ofNat (nValue.toUInt64.toNat % 128) else nValue.toUInt64

theorem writeVarIntSigned64_eq (nValue : Int64) :
    writeVarIntSigned64 nValue = writeVarInt64 (hashedAmount nValue) := by
  rw [writeVarIntSigned64, hashedAmount]
  split_ifs with h
  · have hlt : nValue.toUInt64.toNat % 128 < 128 := Nat.mod_lt _ (by norm_num)
    rw [writeVarInt64, UInt64.toNat_ofNat', Nat.mod_eq_of_lt (a := _ % 128) (by omega),
      writeVarIntLoop]
    simp only [isEmpty_nil, if_true, Nat.add_zero]
    rw [if_pos (by omega), Nat.mod_mod]
  · rw [writeVarInt64, toNat_toUInt64_of_nonneg (by omega)]

theorem hashedAmount_of_nonneg {nValue : Int64} (h : 0 ≤ nValue.toInt) :
    hashedAmount nValue = nValue.toUInt64 := by
  rw [hashedAmount]
  split_ifs with hsmall
  · rw [toNat_toUInt64_of_nonneg h, Nat.mod_eq_of_lt (by omega), ← toNat_toUInt64_of_nonneg h,
      UInt64.ofNat_toNat]
  · rfl

/-- What is hashed of an output. -/
abbrev HashedOutput := CScript × UInt64

def Coin.hashed (coin : Coin) : HashedOutput :=
    (coin.out.scriptPubKey, hashedAmount coin.out.nValue)

/-- The first output is not one of height zero outside of a coinbase. -/
def CoinGroup.marked (outputs : CoinGroup) : Bool :=
  match outputs.entries with
  | [] => false
  | first :: _ => decide (first.2.code ≠ 0)

/-- What is hashed of a transaction. -/
abbrev HashedTx := Bool × OrdMap Nat HashedOutput

def CoinGroup.hashed (outputs : CoinGroup) : HashedTx := (outputs.marked, outputs.map Coin.hashed)

def serHashedOutput (it : Nat × HashedOutput) : Bytes :=
  writeVarInt (ofNat it.1 + 1) ++ (serBytes it.2.1.bytes ++ writeVarInt64 it.2.2)

def serHashedTx (tx : Uint256 × HashedTx) : Bytes :=
  serUint256 tx.1 ++ (writeVarInt (if tx.2.1 then 1 else 0) ++
    (tx.2.2.entries.flatMap serHashedOutput ++ (writeVarInt 0 ++ [])))

theorem applyHash_eq (ss : Bytes) (hash : Uint256) {outputs : CoinGroup}
    (h : outputs.entries ≠ []) :
    applyHash ss hash outputs = ss ++ serHashedTx (hash, outputs.hashed) := by
  rw [applyHash, serHashedTx, CoinGroup.hashed, CoinGroup.marked]
  cases hes : outputs.entries with
  | nil => exact absurd hes h
  | cons first rest =>
    have hout : hashOutput = fun it : Nat × Coin => serHashedOutput (it.1, it.2.hashed) := by
      funext it
      rw [hashOutput, serHashedOutput, writeVarIntSigned64_eq, append_assoc]
      rfl
    simp [OrdMap.map, hes, flatMap_map, hout]

def groupMap (coins : OrdMap CoinEntry Coin) : OrdMap Uint256 CoinGroup :=
  ⟨coinGroups coins, (coinGroups_grouped coins).choose_spec.ascending⟩

/-- What is hashed of a database. -/
def hashedTxs (coins : OrdMap CoinEntry Coin) : OrdMap Uint256 HashedTx :=
  (groupMap coins).map CoinGroup.hashed

/-- The bytes that `ComputeUTXOStats` hashes. -/
def utxoStream (hashBlock : Uint256) (coins : OrdMap CoinEntry Coin) : Bytes :=
  serUint256 hashBlock ++ (hashedTxs coins).entries.flatMap serHashedTx

theorem foldl_applyHash {G : List (Uint256 × CoinGroup)} (h : ∀ g ∈ G, g.2.entries ≠ [])
    (ss : Bytes) : G.foldl (fun t g => applyHash t g.1 g.2) ss =
      ss ++ G.flatMap fun g => serHashedTx (g.1, g.2.hashed) := by
  induction G generalizing ss with
  | nil => rw [foldl_nil, flatMap_nil, append_nil]
  | cons g G ih =>
    rw [foldl_cons, applyHash_eq ss g.1 (h g mem_cons_self),
      ih fun g hg => h g (mem_cons_of_mem _ hg), flatMap_cons, append_assoc]

/-- `ComputeUTXOStats` hashes these bytes. -/
theorem hashSerialized_eq {lookup : Uint256 → Option CBlockIndex} {stats : CCoinsStats}
    (h : computeUTXOStats lookup db = .ok stats) : ∃ pindex, lookup db.getBestBlock = some pindex ∧
      stats.hashSerialized = hash256 (utxoStream pindex.phashBlock db.coins) := by
  rw [computeUTXOStats] at h
  cases hlook : lookup db.getBestBlock with
  | none =>
    rw [hlook] at h
    cases h
  | some pindex =>
    rw [hlook] at h
    cases h
    refine ⟨pindex, rfl, congrArg hash256 ?_⟩
    rw [StatsLoop.hashObj_run]
    refine (foldl_applyHash (coinGroups_grouped db.coins).choose_spec.nonempty _).trans ?_
    rw [utxoStream, hashedTxs, OrdMap.map, flatMap_map]
    rfl

/-! ### The bytes determine what is hashed -/

theorem selfDelimiting_hashedOutput :
    SelfDelimiting (fun it : Nat × HashedOutput => it.1 < 2 ^ 32 - 1) serHashedOutput := by
  rintro ⟨n, script, amount⟩ ⟨n', script', amount'⟩ r s hn hn' h
  simp only [serHashedOutput, append_assoc] at h
  obtain ⟨hidx, h⟩ := (reads_varInt _).inj (reads_varInt _) h
  obtain ⟨hscr, h⟩ := selfDelimiting_script trivial trivial h
  obtain ⟨hamt, h⟩ := (reads_varInt64 _).inj (reads_varInt64 _) h
  have hnat : n = n' := by
    have hadd := add_right_cancel hidx
    have := congrArg toNat hadd
    rwa [toNat_ofNat', toNat_ofNat', Nat.mod_eq_of_lt (by dsimp only at hn; omega),
      Nat.mod_eq_of_lt (by dsimp only at hn'; omega)] at this
  rw [hnat, hscr, hamt]
  exact ⟨rfl, h⟩

/-- No output index is the largest one. -/
def HashedTx.Indexed (tx : HashedTx) : Prop := ∀ it ∈ tx.2.entries, it.1 < 2 ^ 32 - 1

theorem selfDelimiting_hashedTx :
    SelfDelimiting (fun tx : Uint256 × HashedTx => HashedTx.Indexed tx.2) serHashedTx := by
  rintro ⟨txid, mark, outputs⟩ ⟨txid', mark', outputs'⟩ r s htx htx' h
  simp only [serHashedTx, append_assoc] at h
  obtain ⟨rfl, h⟩ := selfDelimiting_uint256 trivial trivial h
  obtain ⟨hmark, h⟩ := (reads_varInt _).inj (reads_varInt _) h
  obtain ⟨hents, h⟩ := selfDelimiting_hashedOutput.flatMap_of_tail
    (T := fun r => ∃ s, r = writeVarInt 0 ++ s) (by
      rintro ⟨n, out⟩ r hn ⟨s, hs⟩
      rw [serHashedOutput, append_assoc] at hs
      have hzero := ((reads_varInt _).inj (reads_varInt _) hs).1
      have := congrArg toNat hzero
      change (n % 2 ^ 32 + 1) % 2 ^ 32 = 0 at this
      omega) htx htx' ⟨_, rfl⟩ ⟨_, rfl⟩ h
  obtain ⟨-, h⟩ := (reads_varInt 0).inj (reads_varInt 0) h
  have hmarks : mark = mark' := by
    cases mark <;> cases mark' <;> first | rfl | simp at hmark
  have houtputs : outputs = outputs' := ext_entries hents
  rw [hmarks, houtputs]
  exact ⟨rfl, h⟩

/-- The coin of an output whose index need not fit. -/
def outputAt (coins : OrdMap CoinEntry Coin) (txid : Uint256) (n : Nat) : Option Coin :=
  if n < 2 ^ 32 then coins.find? ⟨⟨txid, ofNat n⟩⟩ else none

theorem outputAt_toNat (o : COutPoint) : outputAt coins o.hash o.n.toNat = coins.find? ⟨o⟩ := by
  rw [outputAt, if_pos o.n.toNat_lt, UInt32.ofNat_toNat]

theorem outputAt_eq_some_iff (n : Nat) (coin : Coin) : outputAt coins txid n = some coin ↔
      ∃ o : COutPoint, o.hash = txid ∧ o.n.toNat = n ∧ coins.find? ⟨o⟩ = some coin := by
  constructor
  · intro h
    rw [outputAt] at h
    split_ifs at h with hn
    exact ⟨⟨txid, ofNat n⟩, rfl, by rw [toNat_ofNat', Nat.mod_eq_of_lt hn], h⟩
  · rintro ⟨o, rfl, rfl, h⟩
    rw [outputAt_toNat, h]

theorem groupMap_find? : match (groupMap coins).find? txid with
    | some g => g.entries ≠ [] ∧ ∀ n, g.find? n = outputAt coins txid n
    | none => ∀ n, outputAt coins txid n = none := by
  obtain ⟨least, hgrp⟩ := coinGroups_grouped coins
  have hcomp (n : Nat) (coin : Coin) :
      (∃ g, (groupMap coins).find? txid = some g ∧ g.find? n = some coin) ↔
        outputAt coins txid n = some coin := by
    rw [outputAt_eq_some_iff, ← hgrp.complete txid n coin]
    constructor
    · rintro ⟨g, hg, hn⟩
      exact ⟨(txid, g), ((groupMap coins).mem_entries_iff txid g).mpr hg, rfl, hn⟩
    · rintro ⟨⟨_, g⟩, hg, rfl, hn⟩
      exact ⟨g, ((groupMap coins).mem_entries_iff _ g).mp hg, hn⟩
  cases hfind : (groupMap coins).find? txid with
  | some g =>
    refine ⟨hgrp.nonempty _ (((groupMap coins).mem_entries_iff txid g).mpr hfind), fun n => ?_⟩
    refine Option.ext fun coin => ?_
    rw [← hcomp, hfind]
    simp
  | none =>
    intro n
    refine Option.eq_none_iff_forall_ne_some.mpr fun coin hcoin => ?_
    obtain ⟨g, hg, -⟩ := (hcomp n coin).mpr hcoin
    rw [hfind] at hg
    cases hg

/-- A coin is the first one left of its transaction. -/
def FirstOutput (u : UtxoMap) (txid : Uint256) (coin : Coin) : Prop :=
  ∃ n, u ⟨txid, n⟩ = some coin ∧ ∀ m < n, u ⟨txid, m⟩ = none

/-- The same outputs are unspent, whatever is known about their blocks. -/
def SameHashed (u v : UtxoMap) : Prop := ∀ o, (u o).map Coin.hashed = (v o).map Coin.hashed

/-- The only thing about the blocks that is hashed. -/
def SameMarks (u v : UtxoMap) : Prop :=
  ∀ txid c d, FirstOutput u txid c → FirstOutput v txid d → (c.code = 0 ↔ d.code = 0)

theorem FirstOutput.unique {u : UtxoMap} {txid : Uint256} {c d : Coin} (hc : FirstOutput u txid c)
    (hd : FirstOutput u txid d) : c = d := by
  obtain ⟨n, hn, hless⟩ := hc
  obtain ⟨m, hm, hless'⟩ := hd
  rcases lt_trichotomy n.toNat m.toNat with hlt | heq | hlt
  · cases hn.symm.trans (hless' n (lt_iff_toNat_lt.mpr hlt))
  · rw [UInt32.toNat_inj.mp heq] at hn
    exact Option.some.inj (hn.symm.trans hm)
  · cases hm.symm.trans (hless m (lt_iff_toNat_lt.mpr hlt))

/-- The mark of a transaction is that of its first coin. -/
theorem exists_firstOutput {txid : Uint256} {g : CoinGroup}
    (hg : (groupMap db.coins).find? txid = some g) :
    ∃ coin, FirstOutput db.utxo txid coin ∧ g.marked = decide (coin.code ≠ 0) := by
  have hspec := groupMap_find? db.coins txid
  rw [hg] at hspec
  obtain ⟨hne, hfind⟩ := hspec
  cases hes : g.entries with
  | nil => exact absurd hes hne
  | cons e es =>
    obtain ⟨he, hleast⟩ := find?_head hes
    obtain ⟨o, rfl, hidx, ho⟩ := (outputAt_eq_some_iff _ _ _ _).mp ((hfind _).symm.trans he)
    refine ⟨e.2, ⟨o.n, ho, fun m hm => ?_⟩, by rw [CoinGroup.marked, hes]⟩
    have hnone := hleast m.toNat (by rw [← hidx]; exact lt_iff_toNat_lt.mp hm)
    rw [hfind] at hnone
    exact (outputAt_toNat _ ⟨o.hash, m⟩).symm.trans hnone

/-- A transaction without coins has no group. -/
theorem groupMap_eq_none_iff :
    (groupMap coins).find? txid = none ↔ ∀ n, outputAt coins txid n = none := by
  have hspec := groupMap_find? coins txid
  cases hg : (groupMap coins).find? txid with
  | none =>
    rw [hg] at hspec
    exact iff_of_true rfl hspec
  | some g =>
    rw [hg] at hspec
    refine iff_of_false (Option.some_ne_none _) fun hnone => ?_
    cases hes : g.entries with
    | nil => exact hspec.1 hes
    | cons e es =>
      have hfind := (find?_head hes).1
      rw [hspec.2, hnone] at hfind
      cases hfind

/-- What is hashed of one transaction. -/
theorem hashed_eq_iff (a b : CCoinsViewDB) (txid : Uint256) :
    ((groupMap a.coins).find? txid).map CoinGroup.hashed =
        ((groupMap b.coins).find? txid).map CoinGroup.hashed ↔
      (∀ n, (outputAt a.coins txid n).map Coin.hashed = (outputAt b.coins txid n).map Coin.hashed) ∧
        ∀ c d, FirstOutput a.utxo txid c → FirstOutput b.utxo txid d →
          (c.code = 0 ↔ d.code = 0) := by
  have hnone : (∀ n, (outputAt a.coins txid n).map Coin.hashed =
      (outputAt b.coins txid n).map Coin.hashed) →
      ((groupMap a.coins).find? txid = none ↔ (groupMap b.coins).find? txid = none) := fun h => by
    rw [groupMap_eq_none_iff, groupMap_eq_none_iff]
    refine forall_congr' fun n => ?_
    rw [← Option.map_eq_none_iff (f := Coin.hashed), h, Option.map_eq_none_iff]
  have hspec := groupMap_find? a.coins txid
  have hspec' := groupMap_find? b.coins txid
  cases hg : (groupMap a.coins).find? txid with
  | none =>
    have hall := (groupMap_eq_none_iff a.coins txid).mp hg
    cases hg' : (groupMap b.coins).find? txid with
    | none =>
      have hall' := (groupMap_eq_none_iff b.coins txid).mp hg'
      refine iff_of_true rfl ⟨fun n => by rw [hall, hall'], fun c d hc => ?_⟩
      obtain ⟨n, hn, -⟩ := hc
      have hno := hall n.toNat
      rw [outputAt_toNat a.coins ⟨txid, n⟩] at hno
      exact absurd (hn.symm.trans hno) (Option.some_ne_none _)
    | some g' =>
      refine iff_of_false (fun h => by cases h) fun h => ?_
      cases hg'.symm.trans ((hnone h.1).mp hg)
  | some g =>
    cases hg' : (groupMap b.coins).find? txid with
    | none =>
      refine iff_of_false (fun h => by cases h) fun h => ?_
      cases hg.symm.trans ((hnone h.1).mpr hg')
    | some g' =>
      rw [hg] at hspec
      rw [hg'] at hspec'
      obtain ⟨c, hc, hmark⟩ := exists_firstOutput hg
      obtain ⟨d, hd, hmark'⟩ := exists_firstOutput hg'
      rw [Option.map_some, Option.map_some, Option.some.injEq, CoinGroup.hashed, CoinGroup.hashed,
        Prod.mk.injEq, and_comm, hmark, hmark', decide_eq_decide, not_iff_not]
      refine and_congr ⟨fun h n => ?_, fun h => ext_find? fun n => ?_⟩
        ⟨fun h c' d' hc' hd' => ?_, fun h => h c d hc hd⟩
      · rw [← hspec.2, ← hspec'.2, ← OrdMap.find?_map, ← OrdMap.find?_map, h]
      · rw [OrdMap.find?_map, OrdMap.find?_map, hspec.2, hspec'.2, h]
      · rwa [hc'.unique hc, hd'.unique hd]

/-- What is hashed is the same for two databases with the same outputs and the
same marks, and for no others. -/
theorem hashedTxs_eq_iff (a b : CCoinsViewDB) :
    hashedTxs a.coins = hashedTxs b.coins ↔ SameHashed a.utxo b.utxo ∧ SameMarks a.utxo b.utxo := by
  have hext : hashedTxs a.coins = hashedTxs b.coins ↔
      ∀ txid, (hashedTxs a.coins).find? txid = (hashedTxs b.coins).find? txid :=
    ⟨fun h _ => by rw [h], ext_find?⟩
  rw [hext]
  simp only [hashedTxs, OrdMap.find?_map, hashed_eq_iff]
  constructor
  · intro h
    refine ⟨fun o => ?_, fun txid => (h txid).2⟩
    have hout := (h o.hash).1 o.n.toNat
    rwa [outputAt_toNat, outputAt_toNat] at hout
  · rintro ⟨hhashed, hmarks⟩ txid
    refine ⟨fun n => ?_, hmarks txid⟩
    rw [outputAt, outputAt]
    split_ifs
    · exact hhashed ⟨txid, ofNat n⟩
    · rfl

def IndexBounded (u : UtxoMap) : Prop := ∀ o coin, u o = some coin → o.n.toNat < 2 ^ 32 - 1

theorem indexed_hashedTxs (h : IndexBounded db.utxo) :
    ∀ tx ∈ (hashedTxs db.coins).entries, HashedTx.Indexed tx.2 := by
  rintro ⟨txid, tx⟩ htx ⟨n, out⟩ hn
  rw [OrdMap.mem_entries_iff, hashedTxs, OrdMap.find?_map, Option.map_eq_some_iff] at htx
  obtain ⟨g, hg, rfl⟩ := htx
  have hspec := groupMap_find? db.coins txid
  rw [hg] at hspec
  rw [mem_entries_iff] at hn
  change (g.map Coin.hashed).find? n = some out at hn
  rw [OrdMap.find?_map, Option.map_eq_some_iff] at hn
  obtain ⟨coin, hcoin, -⟩ := hn
  rw [hspec.2, outputAt_eq_some_iff] at hcoin
  obtain ⟨o, -, rfl, ho⟩ := hcoin
  exact h o coin ho

/-- The bytes that are hashed agree exactly when what is hashed does. -/
theorem utxoStream_eq_iff {a b : CCoinsViewDB} (ha : IndexBounded a.utxo) (hb : IndexBounded b.utxo)
    (hashBlock : Uint256) : utxoStream hashBlock a.coins = utxoStream hashBlock b.coins ↔
      SameHashed a.utxo b.utxo ∧ SameMarks a.utxo b.utxo := by
  rw [← hashedTxs_eq_iff]
  refine ⟨fun h => ?_, fun h => by rw [utxoStream, h, ← utxoStream]⟩
  exact ext_entries (selfDelimiting_hashedTx.flatMap_of_tail (T := fun r => r = [])
    (fun tx r _ htail => by
      have hlen := congrArg length htail
      simp only [serHashedTx, serUint256, length_append, Uint256.size, length_nil] at hlen
      omega)
    (indexed_hashedTxs ha) (indexed_hashedTxs hb) rfl rfl
    (congrArg (· ++ []) (append_cancel_left h))).1

end Lithium
