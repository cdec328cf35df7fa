import Lithium.Consensus.Params
import Lithium.Kernel.CoinStats

/-!
# Snapshots of the coins

`ChainstateManager::PopulateAndValidateSnapshot`: the coins of a file are put
into an empty chainstate, and the result is accepted if its hash is the one that
is known for its block. The changes to the block index after that are not
modelled.
-/

namespace Lithium
open Lib Crypto Option CCoinsViewDB
variable {c t : CCoinsViewCache CCoinsViewDB}

structure SnapshotMetadata where
  baseBlockhash : Uint256
  coinsCount : UInt64

/-- What `PopulateAndValidateSnapshot` fails with. -/
inductive SnapshotError where
  | startBlockNotFound
  | heightNotRecognized
  | badFormat
  | badData
  | shutdown
  | coinsLeftOver
  | badContentHash
  /-- an exception or an assertion -/
  | coins (e : CoinsError)
deriving DecidableEq

/-- What happens between two rounds of the loop, every 120000 coins. -/
inductive SnapshotPause where
  | resume
  | shutdown
  /-- the cache is full and is flushed under a random best block -/
  | flush (rand : Uint256)

/-- `FlushSnapshotToDisk`; what `Flush` returns is not looked at. -/
def flushSnapshotToDisk (coinsCache : CCoinsViewCache CCoinsViewDB) :
    Except SnapshotError (CCoinsViewCache CCoinsViewDB) :=
  match coinsCache.flush view with
  | (.error e, _) => .error (.coins e)
  | (.ok _, coinsCache) => .ok coinsCache

def readSnapshotCoin : Reader (COutPoint × Coin) := do
  let outpoint ← readOutPoint
  let coin ← readCoin
  pure (outpoint, coin)

def pauseSnapshot (pause : Nat → SnapshotPause) (coinsProcessed : Nat)
    (coinsCache : CCoinsViewCache CCoinsViewDB) :
      Except SnapshotError (CCoinsViewCache CCoinsViewDB) :=
  if coinsProcessed % 120000 = 0 then
    match pause coinsProcessed with
    | .resume => .ok coinsCache
    | .shutdown => .error .shutdown
    | .flush rand => flushSnapshotToDisk (coinsCache.setBestBlock rand)
  else .ok coinsCache

def populateLoop (baseHeight : Int) (pause : Nat → SnapshotPause) : Nat → Nat → Bytes →
    CCoinsViewCache CCoinsViewDB → Except SnapshotError (Bytes × CCoinsViewCache CCoinsViewDB)
  | 0, _, coinsFile, coinsCache => .ok (coinsFile, coinsCache)
  | coinsLeft + 1, coinsProcessed, coinsFile, coinsCache =>
    match readSnapshotCoin.run coinsFile with
    | .error _ => .error .badFormat
    | .ok ((outpoint, coin), coinsFile) =>
      if baseHeight < coin.nHeight.toNat ∨ outpoint.n.toNat ≥ 2 ^ 32 - 1 then .error .badData
      else
        match pauseSnapshot pause (coinsProcessed + 1)
            (coinsCache.emplaceCoinInternalDANGER outpoint coin) with
        | .error e => .error e
        | .ok coinsCache =>
            populateLoop baseHeight pause coinsLeft (coinsProcessed + 1) coinsFile coinsCache

/-- The part of `PopulateAndValidateSnapshot` after the coins have been read.
It returns the coins database. -/
def validateSnapshot (lookup : Uint256 → Option CBlockIndex) (auHash : Uint256)
    (metadata : SnapshotMetadata) (coinsFile : Bytes) (coinsCache : CCoinsViewCache CCoinsViewDB) :
    Except SnapshotError CCoinsViewDB :=
  if (readOutPoint.run coinsFile).isOk then .error .coinsLeftOver
  else
    match flushSnapshotToDisk (coinsCache.setBestBlock metadata.baseBlockhash) with
    | .error e => .error e
    | .ok coinsCache =>
      if (coinsCache.getBestBlock view).1 ≠ metadata.baseBlockhash then
        .error (.coins (.assertion "coins_cache.GetBestBlock() == base_blockhash"))
      else
        match computeUTXOStats lookup coinsCache.base with
        | .error e => .error (.coins e)
        | .ok stats =>
          if stats.hashSerialized ≠ auHash then .error .badContentHash else .ok coinsCache.base

/-- `PopulateAndValidateSnapshot`, for the hashes that are known by height. -/
def populateAndValidateSnapshot (lookup : Uint256 → Option CBlockIndex)
    (assumeutxo : Int → Option Uint256) (pause : Nat → SnapshotPause)
    (coinsCache : CCoinsViewCache CCoinsViewDB) (coinsFile : Bytes) (metadata : SnapshotMetadata) :
    Except SnapshotError CCoinsViewDB :=
  match lookup metadata.baseBlockhash with
  | none => .error .startBlockNotFound
  | some snapshotStartBlock =>
    match assumeutxo snapshotStartBlock.nHeight with
    | none => .error .heightNotRecognized
    | some auHash =>
      match populateLoop snapshotStartBlock.nHeight pause metadata.coinsCount.toNat 0 coinsFile
          coinsCache with
      | .error e => .error e
      | .ok (coinsFile, coinsCache) =>
        validateSnapshot lookup auHash metadata coinsFile coinsCache

/-! ### What an accepted snapshot is -/

/-- No output of a chainstate that is being populated has the largest index. -/
structure PopulatedCache (c : CCoinsViewCache CCoinsViewDB) : Prop where
  cached : ∀ o ∈ c.cacheCoins.keys, o.n.toNat < 2 ^ 32 - 1
  stored : IndexBounded c.base.utxo

section
variable (hc : PopulatedCache c)

include hc

theorem PopulatedCache.emplace {outpoint : COutPoint}
    (hidx : outpoint.n.toNat < 2 ^ 32 - 1) (coin : Coin) :
    PopulatedCache (c.emplaceCoinInternalDANGER outpoint coin) := by
  refine ⟨fun o ho => ?_, hc.stored⟩
  change o ∈ AList.keys (if _ then _ else _) at ho
  split_ifs at ho with hthere
  · exact hc.cached o ho
  · rw [← AList.mem_keys, AList.mem_insert] at ho
    rcases ho with rfl | ho
    · exact hidx
    · exact hc.cached o (AList.mem_keys.mp ho)

theorem PopulatedCache.flush (h : flushSnapshotToDisk c = .ok t) :
    PopulatedCache t ∧ t.base.getBestBlock = c.hashBlock := by
  obtain ⟨coins, hwr, hutxo⟩ := c.base.foldl_batches c.cacheCoins c.hashBlock
  have hview : view.batchWrite c.cacheCoins c.hashBlock true c.base =
      batchWrite c.cacheCoins c.hashBlock true c.base := rfl
  rw [flushSnapshotToDisk, CCoinsViewCache.flush, hview, batchWrite, if_pos rfl] at h
  split_ifs at h with hnull hheads
  rw [hwr] at h
  cases h
  refine ⟨⟨fun o ho => (List.not_mem_nil ho).elim, fun o coin hcoin => ?_⟩, rfl⟩
  rcases hutxo o coin hcoin with hsto | hcached
  · exact hc.stored o coin hsto
  · exact hc.cached o hcached

theorem PopulatedCache.setBestBlock (hashBlock : Uint256) :
    PopulatedCache (c.setBestBlock hashBlock) := ⟨hc.cached, hc.stored⟩

variable {coinsProcessed : Nat}

theorem PopulatedCache.pause {pause : Nat → SnapshotPause}
    (h : pauseSnapshot pause coinsProcessed c = .ok t) : PopulatedCache t := by
  rw [pauseSnapshot] at h
  split_ifs at h with hround
  · split at h
    · cases h
      exact hc
    · cases h
    · exact ((hc.setBestBlock _).flush h).1
  · cases h
    exact hc

theorem PopulatedCache.loop {baseHeight : Int} {pause : Nat → SnapshotPause} {coinsLeft : Nat}
    {coinsFile rest : Bytes}
    (h : populateLoop baseHeight pause coinsLeft coinsProcessed coinsFile c = .ok (rest, t)) :
    PopulatedCache t := by
  induction coinsLeft generalizing coinsProcessed coinsFile c with
  | zero =>
    cases h
    exact hc
  | succ coinsLeft ih =>
    rw [populateLoop] at h
    split at h
    · cases h
    · next outpoint coin coinsFile' _ =>
        split_ifs at h with hbad
        split at h
        · cases h
        · next c' hpause =>
            rw [not_or, not_le] at hbad
            exact ih (PopulatedCache.pause (hc.emplace hbad.2 coin) hpause) h

end

/-- The database of an accepted snapshot has the hash that is known. -/
theorem populated_of_ok {lookup : Uint256 → Option CBlockIndex} {assumeutxo : Int → Option Uint256}
    {pause : Nat → SnapshotPause} {db loaded : CCoinsViewDB} {coinsFile : Bytes}
    {metadata : SnapshotMetadata} (hdb : IndexBounded db.utxo)
    (h : populateAndValidateSnapshot lookup assumeutxo pause (.new db) coinsFile metadata =
      .ok loaded) :
    IndexBounded loaded.utxo ∧ loaded.getBestBlock = metadata.baseBlockhash ∧
      ∃ pindex stats, lookup metadata.baseBlockhash = some pindex ∧
        computeUTXOStats lookup loaded = .ok stats ∧
        assumeutxo pindex.nHeight = some stats.hashSerialized := by
  rw [populateAndValidateSnapshot] at h
  split at h
  · cases h
  · next pindex hlook =>
      split at h
      · cases h
      · next auHash hau =>
          split at h
          · cases h
          · next rest c hloop =>
              have hnew : PopulatedCache (.new db) := ⟨fun o ho => (List.not_mem_nil ho).elim, hdb⟩
              rw [validateSnapshot] at h
              split_ifs at h with hleft
              split at h
              · cases h
              · next t hflush =>
                  obtain ⟨ht, hbest⟩ := ((hnew.loop hloop).setBestBlock _).flush hflush
                  split_ifs at h with hassert
                  split at h
                  · cases h
                  · next stats hstats =>
                      split_ifs at h with hhash
                      cases h
                      refine ⟨ht.stored, hbest, pindex, stats, hlook, hstats, ?_⟩
                      rw [not_not.mp hhash, hau]

/-! ### What the hash binds -/

/-- The strings that SHA-256 is applied to when a database is hashed. -/
def utxoShaStrings (stream : Bytes) : Set Bytes := {stream, sha256 stream}

theorem stream_eq_of_hash {x y : Bytes}
    (hcoll : Set.InjOn sha256 (utxoShaStrings x ∪ utxoShaStrings y))
    (h : hash256 x = hash256 y) : x = y := by
  have hdata : sha256 (sha256 x) = sha256 (sha256 y) := congrArg Uint256.data h
  have hx : x ∈ utxoShaStrings x ∪ utxoShaStrings y := Or.inl (Or.inl rfl)
  have hy : y ∈ utxoShaStrings x ∪ utxoShaStrings y := Or.inr (Or.inl rfl)
  have hx' : sha256 x ∈ utxoShaStrings x ∪ utxoShaStrings y := Or.inl (Or.inr rfl)
  have hy' : sha256 y ∈ utxoShaStrings x ∪ utxoShaStrings y := Or.inr (Or.inr rfl)
  exact hcoll hx hy (hcoll hx' hy' hdata)

/-- The same outputs are unspent, of the same amounts and with the same
scripts. -/
def SameOutputs (u v : UtxoMap) : Prop := ∀ o, (u o).map Coin.out = (v o).map Coin.out

/-- Coins with the same hashed content have the same outputs if no amount is
negative. -/
theorem out_eq_of_hashed {c d : Coin} (h : c.hashed = d.hashed) (hc : 0 ≤ c.out.nValue.toInt)
    (hd : 0 ≤ d.out.nValue.toInt) : c.out = d.out := by
  have hscr : c.out.scriptPubKey = d.out.scriptPubKey := congrArg Prod.fst h
  have hamt : hashedAmount c.out.nValue = hashedAmount d.out.nValue := congrArg Prod.snd h
  rw [hashedAmount_of_nonneg hc, hashedAmount_of_nonneg hd] at hamt
  have hval := congrArg UInt64.toInt64 hamt
  rw [Int64.toInt64_toUInt64, Int64.toInt64_toUInt64] at hval
  calc c.out = ⟨c.out.nValue, c.out.scriptPubKey⟩ := rfl
    _ = ⟨d.out.nValue, d.out.scriptPubKey⟩ := by rw [hval, hscr]

variable {u : UtxoMap}

theorem sameHashed_iff {v : UtxoMap} (hu : ∀ o coin, u o = some coin → 0 ≤ coin.out.nValue.toInt)
    (hv : ∀ o coin, v o = some coin → 0 ≤ coin.out.nValue.toInt) :
    SameHashed u v ↔ SameOutputs u v := by
  refine forall_congr' fun o => ?_
  cases hc : u o with
  | none => cases hd : v o <;> simp
  | some c =>
    cases hd : v o with
    | none => simp
    | some d =>
      simp only [map_some, some.injEq]
      refine ⟨fun h => out_eq_of_hashed h (hu o c hc) (hv o d hd), fun h => ?_⟩
      rw [Coin.hashed, Coin.hashed, h]

/-- The coins of a database are such as the unspent outputs of a chain are. -/
structure WellFormedCoins (u : UtxoMap) : Prop where
  index : ∀ o coin, u o = some coin → o.n.toNat < 2 ^ 32 - 1
  value : ∀ o coin, u o = some coin → moneyRange coin.out.nValue.toInt = true

theorem WellFormedCoins.nonneg (h : WellFormedCoins u) {o : COutPoint} {coin : Coin}
    (hcoin : u o = some coin) : 0 ≤ coin.out.nValue.toInt := by
  have hval := h.value o coin hcoin
  rw [moneyRange, Bool.and_eq_true, decide_eq_true_eq] at hval
  exact hval.1

/-- Two databases are hashed alike exactly when they have the same outputs and
the same marks. -/
theorem hashSerialized_eq_iff {lookup : Uint256 → Option CBlockIndex} {a b : CCoinsViewDB}
    {stats stats' : CCoinsStats} (ha : IndexBounded a.utxo) (hb : IndexBounded b.utxo)
    (hbest : a.getBestBlock = b.getBestBlock) (hstats : computeUTXOStats lookup a = .ok stats)
    (hstats' : computeUTXOStats lookup b = .ok stats')
    (hcoll : ∀ pindex, lookup a.getBestBlock = some pindex →
      Set.InjOn sha256 (utxoShaStrings (utxoStream pindex.phashBlock a.coins) ∪
        utxoShaStrings (utxoStream pindex.phashBlock b.coins))) :
    stats.hashSerialized = stats'.hashSerialized ↔
      SameHashed a.utxo b.utxo ∧ SameMarks a.utxo b.utxo := by
  obtain ⟨pindex, hlook, hhash⟩ := hashSerialized_eq hstats
  obtain ⟨pindex', hlook', hhash'⟩ := hashSerialized_eq hstats'
  rw [← hbest, hlook] at hlook'
  cases hlook'
  rw [hhash, hhash', ← utxoStream_eq_iff ha hb pindex.phashBlock]
  exact ⟨stream_eq_of_hash (hcoll pindex hlook), fun h => by rw [h]⟩

/-- A coin that was loaded is the true one if it has the height, the flag and
an amount that are not bound. -/
def LoadedAs (loaded actual : UtxoMap) : Prop := ∀ o c d, loaded o = some c → actual o = some d →
    c.nHeight = d.nHeight ∧ c.fCoinBase = d.fCoinBase ∧ 0 ≤ c.out.nValue.toInt

theorem eq_iff_loadedAs {v : UtxoMap} (h : SameHashed u v)
    (hv : ∀ o coin, v o = some coin → 0 ≤ coin.out.nValue.toInt) : u = v ↔ LoadedAs u v := by
  constructor
  · rintro rfl o c d hc hd
    rw [hc] at hd
    cases hd
    exact ⟨rfl, rfl, hv o c hc⟩
  · intro hloaded
    funext o
    have hhashed := h o
    cases hc : u o with
    | none =>
      rw [hc] at hhashed
      exact (map_eq_none_iff.mp hhashed.symm).symm
    | some c =>
      cases hd : v o with
      | none =>
        rw [hc, hd] at hhashed
        cases hhashed
      | some d =>
        rw [hc, hd, map_some, map_some, some.injEq] at hhashed
        obtain ⟨hht, hflag, hval⟩ := hloaded o c d hc hd
        have hout := out_eq_of_hashed hhashed hval (hv o d hd)
        obtain ⟨_, _, _⟩ := d
        cases hht
        cases hflag
        cases hout
        rfl

/-- The hash of the coins binds the outputs, but of their heights and coinbase
flags only whether those of the first output of a transaction are both zero. So
it tells two databases apart unless they differ in nothing else, and a snapshot
that is accepted is the set that the known hash was computed from exactly when
its heights and flags are right and no amount is negative. -/
theorem hash_binds_iff (lookup : Uint256 → Option CBlockIndex) :
    (∀ (a b : CCoinsViewDB) (stats stats' : CCoinsStats), WellFormedCoins a.utxo →
      WellFormedCoins b.utxo → a.getBestBlock = b.getBestBlock →
      computeUTXOStats lookup a = .ok stats → computeUTXOStats lookup b = .ok stats' →
      (∀ pindex, lookup a.getBestBlock = some pindex →
        Set.InjOn sha256 (utxoShaStrings (utxoStream pindex.phashBlock a.coins) ∪
          utxoShaStrings (utxoStream pindex.phashBlock b.coins))) →
      ((stats.hashSerialized = stats'.hashSerialized → a.utxo = b.utxo) ↔
        (SameOutputs a.utxo b.utxo → SameMarks a.utxo b.utxo → a.utxo = b.utxo))) ∧
    (∀ (assumeutxo : Int → Option Uint256) (pause : Nat → SnapshotPause) (batchWriteBytes : Nat)
      (coinsFile : Bytes) (metadata : SnapshotMetadata) (loaded actual : CCoinsViewDB)
      (stats : CCoinsStats) (pindex : CBlockIndex),
      populateAndValidateSnapshot lookup assumeutxo pause
        (.new ⟨batchWriteBytes, .empty, none, none⟩)
        coinsFile metadata = .ok loaded →
      WellFormedCoins actual.utxo → actual.getBestBlock = metadata.baseBlockhash →
      computeUTXOStats lookup actual = .ok stats → lookup metadata.baseBlockhash = some pindex →
      assumeutxo pindex.nHeight = some stats.hashSerialized →
      Set.InjOn sha256 (utxoShaStrings (utxoStream pindex.phashBlock loaded.coins) ∪
        utxoShaStrings (utxoStream pindex.phashBlock actual.coins)) →
      (loaded.utxo = actual.utxo ↔ LoadedAs loaded.utxo actual.utxo)) := by
  constructor
  · intro a b stats stats' ha hb hbest hstats hstats' hcoll
    rw [hashSerialized_eq_iff ha.index hb.index hbest hstats hstats' hcoll,
      sameHashed_iff (fun _ _ h => ha.nonneg h) (fun _ _ h => hb.nonneg h), and_imp]
  · intro assumeutxo pause batchWriteBytes coinsFile metadata loaded actual stats pindex hacc
      hactual hbest hstats hlook hkn hcoll
    obtain ⟨hidx, hbest', pindex', stats', hlook', hstats', hau⟩ :=
      populated_of_ok (fun _ _ h => by cases h) hacc
    rw [hlook] at hlook'
    cases hlook'
    rw [hkn, some.injEq] at hau
    refine eq_iff_loadedAs ?_ fun _ _ h => hactual.nonneg h
    refine ((hashSerialized_eq_iff hidx hactual.index
      (hbest'.trans hbest.symm) hstats' hstats ?_).mp
      hau.symm).1
    intro pindex'' hlook''
    rw [hbest', hlook] at hlook''
    cases hlook''
    exact hcoll

/-! ### A forged snapshot -/

namespace Forged

def outpoint : COutPoint := ⟨uint256S 7, 0⟩

/-- A reward that cannot be spent before its block is 120 blocks deep. -/
def coinbase : Coin := ⟨⟨4800000000, .empty⟩, true, 100⟩

/-- The same output, as if it were an old one of an ordinary transaction. -/
def matured : Coin := ⟨⟨4800000000, .empty⟩, false, 1⟩

/-- A database with this one coin. -/
def db (coin : Coin) : CCoinsViewDB :=
  ⟨16777216, OrdMap.empty.insert ⟨outpoint⟩ coin, some (uint256S 1), none⟩

def base : CBlockIndex :=
  { CBlockIndex.ofHeader (uint256S 1) ⟨⟨1, .zero, .zero, 0, 0, 0⟩, none⟩ with nHeight := 120 }

def lookup (hash : Uint256) : Option CBlockIndex := if hash = uint256S 1 then some base else none

/-- The hash that is known for the block, computed from the true coins. -/
def assumeutxo (nHeight : Int) : Option Uint256 :=
  if nHeight =
    120 then (computeUTXOStats lookup (db coinbase)).toOption.map CCoinsStats.hashSerialized
  else none

/-- The file with the forged coin, loaded into an empty chainstate. -/
def load : Except SnapshotError CCoinsViewDB :=
  populateAndValidateSnapshot lookup assumeutxo (fun _ => .resume)
    (.new ⟨16777216, .empty, none, none⟩) (serOutPoint outpoint ++ serCoin matured) ⟨uint256S 1, 1⟩

theorem utxo_db (coin : Coin) (o : COutPoint) :
    (db coin).utxo o = if outpoint = o then some coin else none := by
  refine (OrdMap.find?_insert (.empty : OrdMap CoinEntry Coin) ⟨outpoint⟩ ⟨o⟩ coin).trans ?_
  simp

theorem wellFormedCoins_db {coin : Coin} (h : moneyRange coin.out.nValue.toInt = true) :
    WellFormedCoins (db coin).utxo := by
  have hcoin {o : COutPoint} {c : Coin} (hc : (db coin).utxo o = some c) : outpoint = o ∧
    coin = c := by
    rw [utxo_db] at hc
    split_ifs at hc with ho
    exact ⟨ho, some.inj hc⟩
  constructor
  · intro o c hc
    rw [← (hcoin hc).1]
    decide
  · intro o c hc
    rw [← (hcoin hc).2]
    exact h

/-- The two databases have the same hash, and a snapshot with the forged coin
is accepted for the hash of the true one. -/
theorem forged_snapshot_accepted :
    WellFormedCoins (db matured).utxo ∧ WellFormedCoins (db coinbase).utxo ∧
      (db matured).getBestBlock = (db coinbase).getBestBlock ∧
      (∃ stats stats', computeUTXOStats lookup (db matured) = .ok stats ∧
        computeUTXOStats lookup (db coinbase) = .ok stats' ∧
        stats.hashSerialized = stats'.hashSerialized) ∧ (db matured).utxo ≠ (db coinbase).utxo ∧
      load.toOption.map (fun loaded => loaded.getCoin outpoint) = some (some matured) := by
  refine ⟨wellFormedCoins_db (by decide), wellFormedCoins_db (by decide), rfl,
    ⟨_, _, rfl, rfl, by decide +kernel⟩, fun h => ?_, by decide +kernel⟩
  have hcoin := congrFun h outpoint
  exact absurd (some.inj hcoin) (by decide)

theorem load_eq : load = .ok (db matured) := by
  have hfields : load.toOption.map (fun l =>
      (l.batchWriteBytes, l.coins.entries, l.bestBlock, l.headBlocks)) =
      some (16777216, [(⟨outpoint⟩, matured)], some (uint256S 1), none) := by decide +kernel
  cases hload : load with
  | error e =>
    rw [hload] at hfields
    cases hfields
  | ok l =>
    rw [hload] at hfields
    obtain ⟨batchWriteBytes, ⟨entries, hsort⟩, bestBlock, headBlocks⟩ := l
    cases hfields
    rfl

theorem injOn_streams (coin coin' : Coin)
    (hstream : utxoStream (uint256S 1) (db coin).coins = utxoStream (uint256S 1) (db coin').coins)
    (hne : sha256 (utxoStream (uint256S 1) (db coin').coins) ≠
      sha256 (sha256 (utxoStream (uint256S 1) (db coin').coins))) :
    Set.InjOn sha256 (utxoShaStrings (utxoStream (uint256S 1) (db coin).coins) ∪
      utxoShaStrings (utxoStream (uint256S 1) (db coin').coins)) := by
  rw [hstream, Set.union_self, utxoShaStrings]
  rintro x (rfl | rfl) y (rfl | rfl) h
  · rfl
  · exact absurd h hne
  · exact absurd h.symm hne
  · rfl

theorem hash_binds_iff_forged : ∃ stats stats', computeUTXOStats lookup (db matured) = .ok stats ∧
      computeUTXOStats lookup (db coinbase) = .ok stats' ∧
      assumeutxo base.nHeight = some stats'.hashSerialized ∧ load = .ok (db matured) ∧
      ((stats.hashSerialized = stats'.hashSerialized → (db matured).utxo = (db coinbase).utxo) ↔
        (SameOutputs (db matured).utxo (db coinbase).utxo →
          SameMarks (db matured).utxo (db coinbase).utxo →
            (db matured).utxo = (db coinbase).utxo)) ∧
      ((db matured).utxo = (db coinbase).utxo ↔ LoadedAs (db matured).utxo (db coinbase).utxo) := by
  have hactual : WellFormedCoins (db coinbase).utxo := wellFormedCoins_db (by decide)
  have hinj : Set.InjOn sha256 (utxoShaStrings (utxoStream base.phashBlock (db matured).coins) ∪
      utxoShaStrings (utxoStream base.phashBlock (db coinbase).coins)) :=
    injOn_streams matured coinbase (by decide +kernel) (by decide +kernel)
  have hkn : assumeutxo base.nHeight = some _ := rfl
  refine ⟨_, _, rfl, rfl, hkn, load_eq, ?_, ?_⟩
  · refine (hash_binds_iff lookup).1 (db matured) (db coinbase) _ _ (wellFormedCoins_db (by decide))
      hactual rfl rfl rfl fun pindex hpindex => ?_
    obtain rfl : base = pindex := some.inj hpindex
    exact hinj
  · exact (hash_binds_iff lookup).2 assumeutxo (fun _ => .resume) 16777216 _ _ (db matured)
      (db coinbase) _ base load_eq hactual rfl rfl rfl hkn hinj

end Forged
end Lithium
