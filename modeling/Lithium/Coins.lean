import Lithium.Lib.AssocSum
import Lithium.Script
import Mathlib.Data.UInt

/-!
# The coins cache

`coins.h` and `coins.cpp`. A view answers questions about unspent outputs; a
cache is a view that keeps what it read from another one, its base, together
with changes that the base has not seen yet. Caches are stacked: the base of a
cache is usually a cache.

Two flags on an entry steer what happens when a cache is flushed. A *dirty*
entry may differ from what the base has. A *fresh* one is known not to be in the
base as an unspent coin, so that spending it leaves nothing to tell the base.

A function that throws leaves the objects it worked on as they were at that
moment. The state is therefore returned beside the result, on failure too.
-/

namespace Lithium
open Lib Opcode

/-! ### Coins -/

namespace CScript

def empty : CScript := ⟨[], by norm_num⟩

def isUnspendable (script : CScript) : Bool :=
  (script.bytes.head?.any fun op => op.toNat == opReturn) ||
    decide (maxScriptSize < script.bytes.length)

end CScript

namespace CTxOut

def null : CTxOut := ⟨-1, .empty⟩

def isNull (out : CTxOut) : Bool := out.nValue == -1

end CTxOut

/-- An output with the height of its block; the height has 31 bits. -/
structure Coin where
  out : CTxOut
  fCoinBase : Bool
  nHeight : BitVec 31
deriving DecidableEq

/-- `MallocUsage` on a 64-bit machine. -/
def mallocUsage (alloc : Nat) : Nat := if alloc = 0 then 0 else (alloc + 31) / 16 * 16

namespace Coin

/-- The constructor that narrows a height. -/
def ofOutput (out : CTxOut) (nHeightIn : Int) (fCoinBaseIn : Bool) : Coin :=
  ⟨out, fCoinBaseIn, BitVec.ofInt 31 nHeightIn⟩

/-- The coin that `Clear` leaves, and that the constructor without arguments
makes. -/
def empty : Coin := ⟨.null, false, 0⟩

def isSpent (coin : Coin) : Bool := coin.out.isNull

/-- Scripts of up to 28 bytes are kept in place. -/
def dynamicMemoryUsage (coin : Coin) : UInt64 := UInt64.ofNat (mallocUsage
    (if coin.out.scriptPubKey.bytes.length ≤ 28 then 0 else coin.out.scriptPubKey.bytes.length))

theorem isSpent_empty : empty.isSpent = true := rfl

theorem dynamicMemoryUsage_empty : empty.dynamicMemoryUsage = 0 := rfl

end Coin

/-! ### Views -/

/-- The two flags are `DIRTY` and `FRESH`. -/
structure CCoinsCacheEntry where
  coin : Coin
  dirty : Bool
  fresh : Bool
deriving DecidableEq

def CCoinsCacheEntry.empty : CCoinsCacheEntry := ⟨.empty, false, false⟩

abbrev CoinsCachePair := Sigma fun _ : COutPoint => CCoinsCacheEntry

/-- The order of the entries is arbitrary. -/
abbrev CCoinsMap := AList fun _ : COutPoint => CCoinsCacheEntry

inductive CoinsError where
  | logicError (what : String)
  | assertion (condition : String)
deriving DecidableEq

/-- What a cache asks of its base. Reading may change the base, which may be a
cache itself. `BatchWrite` returns what is left of the map it was given. -/
structure CCoinsView (σ : Type) where
  getCoin : COutPoint → σ → Option Coin × σ
  getBestBlock : σ → Uint256 × σ
  batchWrite : CCoinsMap → Uint256 → Bool → σ → Except CoinsError Bool × CCoinsMap × σ

structure CCoinsViewCache (σ : Type) where
  base : σ
  hashBlock : Uint256
  cacheCoins : CCoinsMap
  cachedCoinsUsage : UInt64

namespace CCoinsViewCache
variable {σ : Type} (V : CCoinsView σ)

/-- The constructor: nothing is cached yet. -/
def new (base : σ) : CCoinsViewCache σ := ⟨base, .zero, ∅, 0⟩

/-! ### Reading -/

section
variable (outpoint : COutPoint)

section
variable (c : CCoinsViewCache σ)

def fetchCoin : Option CCoinsCacheEntry × CCoinsViewCache σ :=
  match c.cacheCoins.lookup outpoint with
  | some it => (some it, c)
  | none =>
    match V.getCoin outpoint c.base with
    | (none, base) => (none, { c with base })
    | (some tmp, base) =>
      -- The base may only have an empty entry for the outpoint.
      let ret : CCoinsCacheEntry := ⟨tmp, false, tmp.isSpent⟩
      (some ret,
        { c with
          base
          cacheCoins := c.cacheCoins.insert outpoint ret
          cachedCoinsUsage := c.cachedCoinsUsage + ret.coin.dynamicMemoryUsage })

def getCoin : Option Coin × CCoinsViewCache σ :=
  match fetchCoin V outpoint c with
  | (none, c) => (none, c)
  | (some it, c) => (if it.coin.isSpent then none else some it.coin, c)

def accessCoin : Coin × CCoinsViewCache σ :=
  match fetchCoin V outpoint c with
  | (none, c) => (.empty, c)
  | (some it, c) => (it.coin, c)

def haveCoin : Bool × CCoinsViewCache σ :=
  match fetchCoin V outpoint c with
  | (none, c) => (false, c)
  | (some it, c) => (!it.coin.isSpent, c)

def getBestBlock (c : CCoinsViewCache σ) : Uint256 × CCoinsViewCache σ :=
  if c.hashBlock.isNull then
    match V.getBestBlock c.base with
    | (hashBlock, base) => (hashBlock, { c with hashBlock, base })
  else (c.hashBlock, c)

/-! ### Changing -/

def setBestBlock (hashBlockIn : Uint256) (c : CCoinsViewCache σ) : CCoinsViewCache σ :=
  { c with hashBlock := hashBlockIn }

/-- The part of `AddCoin` after an entry has been found or made. -/
def storeCoin (coin : Coin) (possibleOverwrite : Bool)
    (it : CCoinsCacheEntry) (c : CCoinsViewCache σ) : Except CoinsError Unit × CCoinsViewCache σ :=
  if !possibleOverwrite && !it.coin.isSpent then
    (.error (.logicError
      "Attempted to overwrite an unspent coin (when possible_overwrite is false)"), c)
  else
    -- A dirty entry was spent here and the base does not know it yet.
    let fresh := !possibleOverwrite && !it.dirty
    (.ok (),
      { c with
        cacheCoins := c.cacheCoins.insert outpoint ⟨coin, true, it.fresh || fresh⟩
        cachedCoinsUsage := c.cachedCoinsUsage + coin.dynamicMemoryUsage })

def addCoin (coin : Coin) (possibleOverwrite : Bool)
    (c : CCoinsViewCache σ) : Except CoinsError Unit × CCoinsViewCache σ :=
  if coin.isSpent then (.error (.assertion "!coin.IsSpent()"), c)
  else if coin.out.scriptPubKey.isUnspendable then (.ok (), c)
  else
    match c.cacheCoins.lookup outpoint with
    | none =>
      storeCoin outpoint coin possibleOverwrite .empty
        { c with cacheCoins := c.cacheCoins.insert outpoint .empty }
    | some it =>
      storeCoin outpoint coin possibleOverwrite it
        { c with cachedCoinsUsage := c.cachedCoinsUsage - it.coin.dynamicMemoryUsage }

/-- An entry that is there already is kept, but its usage is added all the
same. -/
def emplaceCoinInternalDANGER (coin : Coin) (c : CCoinsViewCache σ) : CCoinsViewCache σ := { c with
    cachedCoinsUsage := c.cachedCoinsUsage + coin.dynamicMemoryUsage
    cacheCoins :=
      if (c.cacheCoins.lookup outpoint).isSome then c.cacheCoins
      else c.cacheCoins.insert outpoint ⟨coin, true, false⟩ }

/-- `SpendCoin`, with the coin it moves out if it returns true. -/
def spendCoin : Option Coin × CCoinsViewCache σ :=
  match fetchCoin V outpoint c with
  | (none, c) => (none, c)
  | (some it, c) =>
    (some it.coin,
      { c with
        cachedCoinsUsage := c.cachedCoinsUsage - it.coin.dynamicMemoryUsage
        cacheCoins :=
          if it.fresh then c.cacheCoins.erase outpoint
          else c.cacheCoins.insert outpoint ⟨.empty, true, it.fresh⟩ })

end

def uncache (hash : COutPoint) (c : CCoinsViewCache σ) : CCoinsViewCache σ :=
  match c.cacheCoins.lookup hash with
  | none => c
  | some it =>
    if it.dirty || it.fresh then c
    else
      { c with
        cachedCoinsUsage := c.cachedCoinsUsage - it.coin.dynamicMemoryUsage
        cacheCoins := c.cacheCoins.erase hash }

/-! ### Writing to the base -/

/-- The body of the loop of `BatchWrite`, for an entry of a child. -/
def writeEntry (it : CCoinsCacheEntry) (c : CCoinsViewCache σ) :
    Except CoinsError Unit × CCoinsViewCache σ :=
  if !it.dirty then (.ok (), c)
  else
    match c.cacheCoins.lookup outpoint with
    | none =>
      if it.fresh && it.coin.isSpent then (.ok (), c)
      else
        (.ok (), { c with
            cacheCoins := c.cacheCoins.insert outpoint ⟨it.coin, true, it.fresh⟩
            cachedCoinsUsage := c.cachedCoinsUsage + it.coin.dynamicMemoryUsage })
    | some itUs =>
      if it.fresh && !itUs.coin.isSpent then
        (.error (.logicError "FRESH flag misapplied to coin that exists in parent cache"), c)
      else if itUs.fresh && it.coin.isSpent then
        (.ok (), { c with
            cacheCoins := c.cacheCoins.erase outpoint
            cachedCoinsUsage := c.cachedCoinsUsage - itUs.coin.dynamicMemoryUsage })
      else
        (.ok (), { c with
            cacheCoins := c.cacheCoins.insert outpoint ⟨it.coin, true, itUs.fresh⟩
            cachedCoinsUsage := c.cachedCoinsUsage - itUs.coin.dynamicMemoryUsage +
              it.coin.dynamicMemoryUsage })

end

/-- The loop of `BatchWrite`; entries of the child are erased as they are
passed. -/
def batchWriteLoop (erase : Bool) : List CoinsCachePair → CCoinsMap →
    CCoinsViewCache σ → Except CoinsError Unit × CCoinsMap × CCoinsViewCache σ
  | [], mapCoins, c => (.ok (), mapCoins, c)
  | it :: rest, mapCoins, c =>
    match writeEntry it.1 it.2 c with
    | (.error e, c) => (.error e, mapCoins, c)
    | (.ok (), c) =>
      batchWriteLoop erase rest (if erase then mapCoins.erase it.1 else mapCoins) c

def batchWrite (mapCoins : CCoinsMap) (hashBlockIn : Uint256) (erase : Bool)
    (c : CCoinsViewCache σ) : Except CoinsError Bool × CCoinsMap × CCoinsViewCache σ :=
  match batchWriteLoop erase mapCoins.entries mapCoins c with
  | (.error e, mapCoins, c) => (.error e, mapCoins, c)
  | (.ok (), mapCoins, c) => (.ok true, mapCoins, { c with hashBlock := hashBlockIn })

section
variable (c : CCoinsViewCache σ)

def flush : Except CoinsError Bool × CCoinsViewCache σ :=
  match V.batchWrite c.cacheCoins c.hashBlock true c.base with
  | (.error e, cacheCoins, base) => (.error e, { c with cacheCoins, base })
  | (.ok fOk, cacheCoins, base) =>
    if fOk && !cacheCoins.entries.isEmpty then
      (.error (.logicError "Not all cached coins were erased"), { c with cacheCoins, base })
    else (.ok fOk, { c with cacheCoins, base, cachedCoinsUsage := 0 })

/-- The body of the loop of `Sync`: spent coins are dropped and the flags of the
others cleared. -/
def settleEntry (it : CoinsCachePair) : CCoinsViewCache σ :=
  if it.2.coin.isSpent then
    { c with
      cachedCoinsUsage := c.cachedCoinsUsage - it.2.coin.dynamicMemoryUsage
      cacheCoins := c.cacheCoins.erase it.1 }
  else { c with cacheCoins := c.cacheCoins.insert it.1 ⟨it.2.coin, false, false⟩ }

def sync : Except CoinsError Bool × CCoinsViewCache σ :=
  match V.batchWrite c.cacheCoins c.hashBlock false c.base with
  | (.error e, cacheCoins, base) => (.error e, { c with cacheCoins, base })
  | (.ok fOk, cacheCoins, base) =>
    (.ok fOk, cacheCoins.entries.foldl settleEntry { c with cacheCoins, base })

def sanityCheck : Except CoinsError Unit :=
  if c.cacheCoins.entries.any fun it =>
      (!it.2.dirty && it.2.fresh && !it.2.coin.isSpent) ||
        (!it.2.dirty && !it.2.fresh && it.2.coin.isSpent) ||
        (it.2.dirty && it.2.fresh && it.2.coin.isSpent) then
    .error (.assertion "attr != 2 && attr != 4 && attr != 7")
  else if assocSum (fun it => it.coin.dynamicMemoryUsage) c.cacheCoins ≠ c.cachedCoinsUsage then
    .error (.assertion "recomputed_usage == cachedCoinsUsage")
  else .ok ()

end

def view : CCoinsView (CCoinsViewCache σ) where
  getCoin := getCoin V
  getBestBlock := getBestBlock V
  batchWrite := batchWrite

end CCoinsViewCache

/-! ### Stacks of caches -/

/-- So many caches on top of each other and of a base view. -/
def CoinsStack (σ : Type) : Nat → Type
  | 0 => σ
  | n + 1 => CCoinsViewCache (CoinsStack σ n)

namespace CoinsStack
variable {σ : Type}

def view (V : CCoinsView σ) : (n : Nat) → CCoinsView (CoinsStack σ n)
  | 0 => V
  | n + 1 => CCoinsViewCache.view (view V n)

/-- A stack in which nothing is cached. -/
def new (base : σ) : (n : Nat) → CoinsStack σ n
  | 0 => base
  | n + 1 => CCoinsViewCache.new (new base n)

end CoinsStack
end Lithium
