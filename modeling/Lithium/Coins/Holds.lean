import Lithium.Coins
import Mathlib.Tactic.NoncommRing

/-!
# The map that a cache stands for

What a view is for can be said without caches: it is a map from outpoints to
unspent coins. `CoinsModel` says that a view with hidden state behaves like
such a map, and that writing a batch of entries to it changes the map as the
entries say.

The flags of a cache are tied to the map of its base. A clean entry repeats the
base, a fresh one stands for a coin that the base does not have, and a spent
coin is kept only to be written to the base.

`AddCoin` looks only at the cache when it is told that it overwrites nothing. A
coin that is in the base but not in the cache is then not noticed, and the new
coin gets the flag of one that the base does not have. The base's coin is hidden
by it, and comes to light again when the new coin is spent. A cache is therefore
described by two maps, the second one of hidden coins, and by a set of outpoints
whose coins, if they are there, are in the cache and so are noticed.
-/

namespace Lithium
open Lib Function AList Coin
variable {coin : Coin} {o : COutPoint} {it : CCoinsCacheEntry}

/-- The unspent coins, by outpoint. -/
abbrev UtxoMap := COutPoint → Option Coin

/-- What a coin in a cache says about its outpoint. -/
def Coin.live (coin : Coin) : Option Coin := if coin.isSpent then none else some coin

theorem Coin.live_of_unspent (h : coin.isSpent = false) : coin.live = some coin := by
  rw [live, h, if_neg Bool.false_ne_true]

/-- What adding a coin does to a map; coins that cannot be spent are not kept. -/
def Coin.addTo (coin : Coin) (outpoint : COutPoint) (v : UtxoMap) : UtxoMap :=
  if coin.out.scriptPubKey.isUnspendable then v else update v outpoint (some coin)

/-- The flags of an entry are right, given what its base has. -/
structure CCoinsCacheEntry.Sound (it : CCoinsCacheEntry) (parent : Option Coin) : Prop where
  clean : it.dirty = false → parent = some it.coin
  fresh : it.fresh = true → parent = none
  spent : it.coin.isSpent = true → it.coin = .empty ∧ it.dirty = true ∧ it.fresh = false

/-- The map that entries make of another. -/
def overlay (mapCoins : CCoinsMap) (v : UtxoMap) : UtxoMap := fun outpoint =>
  match mapCoins.lookup outpoint with
  | some it => it.coin.live
  | none => v outpoint

theorem overlay_of_lookup {m : CCoinsMap} {v : UtxoMap} (h : m.lookup o = some it) :
    overlay m v o = it.coin.live := by
  rw [overlay, h]

theorem overlay_of_none {m : CCoinsMap} {v : UtxoMap} (h : m.lookup o = none) :
    overlay m v o = v o := by
  rw [overlay, h]

theorem overlay_insert (m : CCoinsMap) (v : UtxoMap) (o : COutPoint) (it : CCoinsCacheEntry) :
    overlay (m.insert o it) v = update (overlay m v) o it.coin.live := by
  funext x
  by_cases hx : x = o
  · subst hx
    rw [update_self, overlay_of_lookup (lookup_insert m)]
  · rw [update_of_ne hx, overlay, overlay, lookup_insert_ne hx]

theorem overlay_erase (m : CCoinsMap) (v : UtxoMap) (o : COutPoint) :
    overlay (m.erase o) v = update (overlay m v) o (v o) := by
  funext x
  by_cases hx : x = o
  · subst hx
    rw [update_self, overlay_of_none (lookup_erase x m)]
  · rw [update_of_ne hx, overlay, overlay, lookup_erase_ne hx]

/-- What a view stands for: its map, its best block and the maps of the views
underneath. -/
structure ViewState where
  coins : UtxoMap
  bestBlock : Uint256
  below : List UtxoMap

/-- The maps from the top down. -/
def ViewState.maps (s : ViewState) : List UtxoMap := s.coins :: s.below

/-- A view behaves like a map. It may refuse some best blocks. -/
structure CoinsModel {σ : Type} (V : CCoinsView σ) where
  Inv : σ → Prop
  Accepts : σ → Uint256 → Prop
  state : σ → ViewState
  unspent {b : σ} {o : COutPoint} {coin : Coin} :
    Inv b → (state b).coins o = some coin → coin.isSpent = false
  getCoin {b : σ} (o : COutPoint) : Inv b →
    ∃ t, V.getCoin o b = ((state b).coins o, t) ∧ Inv t ∧ state t = state b
  getBestBlock {b : σ} : Inv b →
    ∃ t, V.getBestBlock b = ((state b).bestBlock, t) ∧ Inv t ∧ state t = state b
  batchWrite {b : σ} {mapCoins : CCoinsMap} {hashBlock : Uint256} (erase : Bool) : Inv b →
    Accepts b hashBlock →
    (∀ o it, mapCoins.lookup o = some it → it.Sound ((state b).coins o)) →
    ∃ t, V.batchWrite mapCoins hashBlock erase b = (.ok true, if erase then ∅ else mapCoins, t) ∧
      Inv t ∧ (state t).coins = overlay mapCoins (state b).coins ∧
      (state t).below = (state b).below ∧
      (hashBlock.isNull = false → (state t).bestBlock = hashBlock)

/-- The map that a view stands for. -/
def CoinsModel.coins {σ : Type} {V : CCoinsView σ} (M : CoinsModel V) (b : σ) : UtxoMap :=
  (M.state b).coins

namespace CCoinsViewCache
variable {σ : Type} {V : CCoinsView σ} (M : CoinsModel V)

def coins (c : CCoinsViewCache σ) : UtxoMap := overlay c.cacheCoins (M.coins c.base)

/-- The best block that a cache with this one of its own stands for. -/
def bestBlockOver (hashBlock : Uint256) (base : ViewState) : Uint256 :=
  if hashBlock.isNull then base.bestBlock else hashBlock

theorem bestBlockOver_of_notNull {hashBlock : Uint256} (h : hashBlock.isNull = false)
    (base : ViewState) : bestBlockOver hashBlock base = hashBlock := by
  rw [bestBlockOver, h, if_neg Bool.false_ne_true]

def state (c : CCoinsViewCache σ) : ViewState where
  coins := c.coins M
  bestBlock := bestBlockOver c.hashBlock (M.state c.base)
  below := M.coins c.base :: (M.state c.base).below

/-- The flags of every entry are right and the memory is counted. -/
structure Inv (c : CCoinsViewCache σ) : Prop where
  base : M.Inv c.base
  sound : ∀ o it, c.cacheCoins.lookup o = some it → it.Sound (M.coins c.base o)
  usage : assocSum (fun it => it.coin.dynamicMemoryUsage) c.cacheCoins = c.cachedCoinsUsage

variable {M} {c : CCoinsViewCache σ}

theorem coins_of_lookup (h : c.cacheCoins.lookup o = some it) :
    c.coins M o = it.coin.live := overlay_of_lookup h

theorem coins_of_none (h : c.cacheCoins.lookup o = none) :
    c.coins M o = M.coins c.base o := overlay_of_none h

end CCoinsViewCache

/-! ### What the operations of a cache do -/

structure UtxoState where
  coins : UtxoMap
  /-- coins of the base behind coins that were added as if they were the first -/
  hidden : UtxoMap
  bestBlock : Uint256
  /-- the best block of the base -/
  baseBest : Uint256
  /-- unspent coins of these outpoints are in the cache -/
  cached : Set COutPoint

/-- The state of a cache in which no flag is wrong. -/
def UtxoState.ofMap (coins : UtxoMap) (bestBlock baseBest : Uint256) : UtxoState :=
  ⟨coins, fun _ => none, bestBlock, baseBest, ∅⟩

def UtxoState.spend (t : UtxoState) (outpoint : COutPoint) : UtxoState :=
  { t with
    coins := update t.coins outpoint (t.hidden outpoint)
    hidden := update t.hidden outpoint none
    cached := t.cached \ {outpoint} }

/-- A coin that is not expected to be there is hidden. -/
def UtxoState.add (t : UtxoState) (outpoint : COutPoint) (coin : Coin) (possibleOverwrite : Bool) :
    UtxoState :=
  if coin.out.scriptPubKey.isUnspendable then t
  else
    { t with
      coins := update t.coins outpoint (some coin)
      hidden := if possibleOverwrite then t.hidden
        else update t.hidden outpoint (t.coins outpoint)
      cached := insert outpoint t.cached }

/-- A cache without a best block of its own has that of its base. -/
def UtxoState.setBest (t : UtxoState) (hashBlock : Uint256) : UtxoState :=
  { t with bestBlock := if hashBlock.isNull then t.baseBest else hashBlock }

namespace CCoinsViewCache
variable {σ : Type} {V : CCoinsView σ} (M : CoinsModel V)

/-- The coins of the base that are behind a fresh entry. -/
def hidden (c : CCoinsViewCache σ) : UtxoMap := fun o =>
  match c.cacheCoins.lookup o with
  | some it => if it.fresh then M.coins c.base o else none
  | none => none

/-- The flags may be wrong in one way only: a fresh entry may hide a coin. -/
structure Loose (c : CCoinsViewCache σ) : Prop where
  base : M.Inv c.base
  clean : ∀ {o it}, c.cacheCoins.lookup o = some it → it.dirty = false →
    it.fresh = false ∧ M.coins c.base o = some it.coin
  spent : ∀ {o it}, c.cacheCoins.lookup o = some it → it.coin.isSpent = true →
    it.coin = .empty ∧ it.dirty = true ∧ it.fresh = false
  usage : assocSum (fun it => it.coin.dynamicMemoryUsage) c.cacheCoins = c.cachedCoinsUsage

variable {M} {below : List UtxoMap} {c : CCoinsViewCache σ} {t : UtxoState}

theorem hidden_of_lookup (h : c.cacheCoins.lookup o = some it) :
    c.hidden M o = if it.fresh then M.coins c.base o else none := by rw [hidden, h]

theorem hidden_of_none (h : c.cacheCoins.lookup o = none) : c.hidden M o = none := by rw [hidden, h]

/-- Nothing is hidden exactly if all flags are right. -/
theorem inv_iff_loose : c.Inv M ↔ c.Loose M ∧ c.hidden M = fun _ => none := by
  constructor
  · intro hc
    refine ⟨⟨hc.base, fun hlook hcl => ?_, fun hlook => (hc.sound _ _ hlook).spent,
      hc.usage⟩, ?_⟩
    · have hsound := hc.sound _ _ hlook
      refine ⟨?_, hsound.clean hcl⟩
      by_contra hfr
      cases (hsound.fresh (Bool.not_eq_false _ ▸ hfr)).symm.trans (hsound.clean hcl)
    · funext o
      cases hlook : c.cacheCoins.lookup o with
      | none => exact hidden_of_none hlook
      | some it =>
        rw [hidden_of_lookup hlook]
        split_ifs with hfr
        · exact (hc.sound _ _ hlook).fresh hfr
        · rfl
  · rintro ⟨hc, hhid⟩
    refine ⟨hc.base, fun o it hlook => ?_, hc.usage⟩
    refine ⟨fun hcl => (hc.clean hlook hcl).2, fun hfr => ?_, hc.spent hlook⟩
    have hnone := congrFun hhid o
    rwa [hidden_of_lookup hlook, if_pos hfr] at hnone

theorem Loose.unspent (hc : c.Loose M) (h : c.coins M o = some coin) : coin.isSpent = false := by
  cases hlook : c.cacheCoins.lookup o with
  | none => exact M.unspent hc.base ((coins_of_none hlook).symm.trans h)
  | some it =>
    rw [coins_of_lookup hlook, live] at h
    split at h
    case isTrue => cases h
    case isFalse hspent =>
      cases h
      exact Bool.not_eq_true _ ▸ hspent

theorem Loose.withHash (hc : c.Loose M) (hashBlock : Uint256) :
    ({ c with hashBlock } : CCoinsViewCache σ).Loose M :=
  ⟨hc.base, hc.clean, hc.spent, hc.usage⟩

/-- The cache stands for the abstract state. -/
structure Holds (M : CoinsModel V) (below : List UtxoMap) (c : CCoinsViewCache σ) (t : UtxoState) :
    Prop where
  loose : c.Loose M
  state : c.state M = ⟨t.coins, t.bestBlock, below⟩
  baseBest : (M.state c.base).bestBlock = t.baseBest
  hidden : c.hidden M = t.hidden
  cached : ∀ o ∈ t.cached, (t.coins o).isSome → (c.cacheCoins.lookup o).isSome

theorem Holds.coins (hc : c.Holds M below t) : c.coins M = t.coins :=
  congrArg ViewState.coins hc.state

theorem Holds.unspent (hc : c.Holds M below t) (h : t.coins o = some coin) : coin.isSpent = false :=
  hc.loose.unspent (hc.coins ▸ h)

/-- A cache whose flags are right stands for its map. -/
theorem Inv.holds (hc : c.Inv M) : c.Holds M (c.state M).below
      (.ofMap (c.coins M) (c.state M).bestBlock (M.state c.base).bestBlock) := by
  obtain ⟨hloose, hhid⟩ := inv_iff_loose.mp hc
  exact ⟨hloose, rfl, rfl, hhid, fun o ho => ho.elim⟩

section
variable (hc : c.Holds M below t)

include hc

theorem Holds.inv (hhid : t.hidden = fun _ => none) : c.Inv M :=
  inv_iff_loose.mpr ⟨hc.loose, hc.hidden.trans hhid⟩

/-- The base may change as long as it stands for the same. -/
theorem Holds.withBase {b : σ} (hb : M.Inv b) (hst : M.state b = M.state c.base) :
    ({ c with base := b } : CCoinsViewCache σ).Holds M below t := by
  have hcs : M.coins b = M.coins c.base := congrArg ViewState.coins hst
  refine ⟨⟨hb, ?_, hc.loose.spent, hc.loose.usage⟩, ?_, ?_, ?_, hc.cached⟩
  · rw [hcs]
    exact hc.loose.clean
  · rw [← hc.state, CCoinsViewCache.state, CCoinsViewCache.coins, hcs, hst]
    rfl
  · rw [← hc.baseBest, hst]
  · rw [← hc.hidden]
    funext o
    rw [CCoinsViewCache.hidden, CCoinsViewCache.hidden, hcs]

/-- Less may be claimed to be in the cache. -/
theorem Holds.forget {cached : Set COutPoint} (h : cached ⊆ t.cached) :
    c.Holds M below { t with cached } :=
  ⟨hc.loose, hc.state, hc.baseBest, hc.hidden, fun o ho => hc.cached o (h ho)⟩

theorem Holds.insertEntry (o : COutPoint) (it : CCoinsCacheEntry)
    (hcl : it.dirty = false → it.fresh = false ∧ M.coins c.base o = some it.coin)
    (hspent : it.coin.isSpent = true → it.coin = .empty ∧ it.dirty = true ∧ it.fresh = false)
    (usage : UInt64) (husage : usage = c.cachedCoinsUsage -
      (c.cacheCoins.lookup o).elim 0 (fun it => it.coin.dynamicMemoryUsage) +
      it.coin.dynamicMemoryUsage) :
    ({ c with cacheCoins := c.cacheCoins.insert o it, cachedCoinsUsage := usage } :
      CCoinsViewCache σ).Holds M below
        { t with
          coins := update t.coins o it.coin.live
          hidden := update t.hidden o (if it.fresh then M.coins c.base o else none)
          cached := insert o t.cached } := by
  have hlook : ∀ x, (c.cacheCoins.insert o it).lookup x =
      if x = o then some it else c.cacheCoins.lookup x := by
    intro x
    split_ifs with hx
    · rw [hx, lookup_insert]
    · rw [lookup_insert_ne hx]
  refine ⟨⟨hc.loose.base, fun {x it'} h => ?_, fun {x it'} h => ?_, ?_⟩, ?_, hc.baseBest, ?_,
    fun x hx hsome => ?_⟩
  · rw [hlook] at h
    split_ifs at h with hx
    · cases h
      exact hx ▸ hcl
    · exact hc.loose.clean h
  · rw [hlook] at h
    split_ifs at h with hx
    · cases h
      exact hspent
    · exact hc.loose.spent h
  · rw [assocSum_insert, hc.loose.usage, husage]
  · exact (congrArg (fun v => { c.state M with coins := v }) (overlay_insert _ _ _ _)).trans
      (congrArg (fun s => { s with coins := update s.coins o it.coin.live }) hc.state)
  · rw [← hc.hidden]
    funext x
    rw [CCoinsViewCache.hidden, hlook]
    dsimp only
    by_cases hx : x = o
    · rw [if_pos hx, hx, update_self]
    · rw [if_neg hx, update_of_ne hx]
      rfl
  · dsimp only at hx hsome ⊢
    rw [hlook]
    split_ifs with hxo
    · rfl
    · rw [update_of_ne hxo] at hsome
      exact hc.cached x (hx.resolve_left hxo) hsome

theorem Holds.eraseEntry (usage : UInt64) (husage : usage = c.cachedCoinsUsage -
      (c.cacheCoins.lookup o).elim 0 (fun it => it.coin.dynamicMemoryUsage)) :
    ({ c with cacheCoins := c.cacheCoins.erase o, cachedCoinsUsage := usage } :
      CCoinsViewCache σ).Holds M below
        { t with
          coins := update t.coins o (M.coins c.base o)
          hidden := update t.hidden o none
          cached := t.cached \ {o} } := by
  have hlook : ∀ x, (c.cacheCoins.erase o).lookup x =
      if x = o then none else c.cacheCoins.lookup x := by
    intro x
    split_ifs with hx
    · rw [hx, lookup_erase]
    · rw [lookup_erase_ne hx]
  refine ⟨⟨hc.loose.base, fun {x it'} h => ?_, fun {x it'} h => ?_, ?_⟩, ?_, hc.baseBest, ?_,
    fun x hx hsome => ?_⟩
  · rw [hlook] at h
    split_ifs at h
    exact hc.loose.clean h
  · rw [hlook] at h
    split_ifs at h
    exact hc.loose.spent h
  · rw [assocSum_erase, hc.loose.usage, husage]
  · exact (congrArg (fun v => { c.state M with coins := v }) (overlay_erase _ _ _)).trans
      (congrArg (fun s => { s with coins := update s.coins o (M.coins c.base o) }) hc.state)
  · rw [← hc.hidden]
    funext x
    rw [CCoinsViewCache.hidden, hlook]
    dsimp only
    rw [update_apply]
    split_ifs with hx
    · rfl
    · rfl
  · obtain ⟨hx, hxo⟩ := hx
    have hne : x ≠ o := hxo
    dsimp only at hsome ⊢
    rw [hlook, if_neg hne]
    rw [update_of_ne hne] at hsome
    exact hc.cached x hx hsome

/-- After a fetch the cache has what it needs to answer. -/
theorem Holds.fetchCoin (o : COutPoint) :
    ∃ c', fetchCoin V o c = (c'.cacheCoins.lookup o, c') ∧ c'.Holds M below t ∧
      (c'.cacheCoins.lookup o).bind (fun it => it.coin.live) = t.coins o := by
  rw [CCoinsViewCache.fetchCoin]
  cases hlook : c.cacheCoins.lookup o with
  | some it =>
    refine ⟨c, by rw [hlook], hc, ?_⟩
    rw [hlook, ← hc.coins, coins_of_lookup hlook]
    rfl
  | none =>
    obtain ⟨b, hget, hb, hst⟩ := M.getCoin o hc.loose.base
    change V.getCoin o c.base = (M.coins c.base o, b) at hget
    have hv : t.coins o = M.coins c.base o := by rw [← hc.coins, coins_of_none hlook]
    have hh : t.hidden o = none := by rw [← hc.hidden, hidden_of_none hlook]
    have hbase := hc.withBase hb hst
    have hcs : M.coins b = M.coins c.base := congrArg ViewState.coins hst
    rw [hget]
    cases hcoin : M.coins c.base o with
    | none =>
      refine ⟨{ c with base := b }, ?_, hbase, ?_⟩
      · rw [hlook]
      · rw [hlook, hv, hcoin]
        rfl
    | some tmp =>
      have hlive := M.unspent hc.loose.base hcoin
      have hhold := hbase.insertEntry o ⟨tmp, false, tmp.isSpent⟩
        (fun _ => ⟨hlive, (congrFun hcs o).trans hcoin⟩)
        (fun hspent => absurd (hlive.symm.trans hspent) Bool.false_ne_true)
        (c.cachedCoinsUsage + tmp.dynamicMemoryUsage) (by rw [hlook]; simp)
      rw [live_of_unspent hlive, ← hcoin, ← hv, update_eq_self, hlive,
        if_neg Bool.false_ne_true, ← hh, update_eq_self] at hhold
      refine ⟨_, ?_, hhold.forget (Set.subset_insert _ _), ?_⟩
      · dsimp only
        rw [lookup_insert, hlive]
      · dsimp only
        rw [lookup_insert, hv, hcoin]
        exact live_of_unspent hlive

/-- A coin that is not there is shown as the empty one. -/
theorem Holds.entry_coin (hlook : c.cacheCoins.lookup o = some it) :
    it.coin = (t.coins o).getD .empty := by
  have hv : t.coins o = it.coin.live := by rw [← hc.coins, coins_of_lookup hlook]
  rw [hv, live]
  split
  case isTrue hspent => exact (hc.loose.spent hlook hspent).1
  case isFalse => rfl

variable (o)

theorem Holds.haveCoin : ∃ c', haveCoin V o c = ((t.coins o).isSome, c') ∧ c'.Holds M below t := by
  obtain ⟨c', hfetch, hc', hread⟩ := hc.fetchCoin o
  refine ⟨c', ?_, hc'⟩
  rw [CCoinsViewCache.haveCoin, hfetch, ← hread]
  cases c'.cacheCoins.lookup o with
  | none => rfl
  | some it =>
    simp only [Option.bind_some, live]
    cases it.coin.isSpent <;> rfl

theorem Holds.accessCoin :
    ∃ c', accessCoin V o c = ((t.coins o).getD .empty, c') ∧ c'.Holds M below t := by
  obtain ⟨c', hfetch, hc', hread⟩ := hc.fetchCoin o
  refine ⟨c', ?_, hc'⟩
  rw [CCoinsViewCache.accessCoin, hfetch]
  cases hlook : c'.cacheCoins.lookup o with
  | none =>
    rw [hlook] at hread
    rw [← hread]
    rfl
  | some it => rw [← hc'.entry_coin hlook]

/-- Spending a fresh coin uncovers what it hid. -/
theorem Holds.spendCoin : ∃ r c', spendCoin V o c = (r, c') ∧ c'.Holds M below (t.spend o) ∧
      r.getD .empty = (t.coins o).getD .empty ∧ (r = none → t.coins o = none) := by
  obtain ⟨c', hfetch, hc', hread⟩ := hc.fetchCoin o
  rw [CCoinsViewCache.spendCoin, hfetch, UtxoState.spend]
  have hhid := congrFun hc'.hidden o
  cases hlook : c'.cacheCoins.lookup o with
  | none =>
    rw [hlook] at hread
    rw [hidden_of_none hlook] at hhid
    have hv : t.coins o = none := hread.symm
    refine ⟨none, c', rfl, ?_, by rw [hv], fun _ => hv⟩
    rw [← hhid, ← hv, update_eq_self, hv, hhid, update_eq_self]
    exact hc'.forget Set.sdiff_subset
  | some it =>
    refine ⟨some it.coin, _, rfl, ?_, hc'.entry_coin hlook, nofun⟩
    rw [hidden_of_lookup hlook] at hhid
    cases hfr : it.fresh with
    | true =>
      rw [hfr, if_pos rfl] at hhid
      have hhold := hc'.eraseEntry (o := o)
        (c'.cachedCoinsUsage - it.coin.dynamicMemoryUsage) (by rw [hlook]; rfl)
      rw [hhid] at hhold
      exact hhold
    | false =>
      rw [hfr, if_neg Bool.false_ne_true] at hhid
      have hhold := hc'.insertEntry o ⟨.empty, true, false⟩
        (fun hcl => Bool.noConfusion hcl) (fun _ => ⟨rfl, rfl, rfl⟩)
        (c'.cachedCoinsUsage - it.coin.dynamicMemoryUsage)
        (by rw [hlook, dynamicMemoryUsage_empty]; simp)
      rw [← hhid]
      exact hhold.forget (Set.sdiff_subset.trans (Set.subset_insert _ _))

/-- What `AddCoin` does when it does not throw. -/
theorem Holds.addCoin {o : COutPoint} {coin : Coin}
    {possibleOverwrite : Bool} (hunsp : coin.isSpent = false)
    (hscr : coin.out.scriptPubKey.isUnspendable = false) (hover : possibleOverwrite = false →
      ∀ it, c.cacheCoins.lookup o = some it → it.coin.isSpent = true) :
    ∃ c', addCoin o coin possibleOverwrite c = (.ok (), c') ∧
      c'.Holds M below (t.add o coin possibleOverwrite) := by
  have hlive := live_of_unspent hunsp
  have hhid := congrFun hc.hidden o
  rw [CCoinsViewCache.addCoin, hunsp, hscr, UtxoState.add, hscr]
  simp only [Bool.false_eq_true, if_false]
  cases hlook : c.cacheCoins.lookup o with
  | none =>
    rw [hidden_of_none hlook] at hhid
    have hv : t.coins o = M.coins c.base o := by rw [← hc.coins, coins_of_none hlook]
    have hhold := hc.insertEntry o ⟨coin, true, !possibleOverwrite⟩
      (fun hcl => Bool.noConfusion hcl)
      (fun hspent => absurd (hunsp.symm.trans hspent) Bool.false_ne_true)
      (c.cachedCoinsUsage + coin.dynamicMemoryUsage) (by rw [hlook]; simp)
    have hsame : (if possibleOverwrite then t.hidden else update t.hidden o (t.coins o)) =
        update t.hidden o (if !possibleOverwrite then t.coins o else none) := by
      cases possibleOverwrite with
      | true => rw [if_pos rfl, if_neg (by decide), hhid, update_eq_self]
      | false => rfl
    rw [← hv] at hhold
    rw [hlive, ← hsame] at hhold
    refine ⟨_, ?_, hhold⟩
    dsimp only [storeCoin]
    rw [if_neg (by simp [CCoinsCacheEntry.empty, isSpent_empty]), insert_insert]
    simp [CCoinsCacheEntry.empty]
  | some it =>
    rw [hidden_of_lookup hlook] at hhid
    have hfr : possibleOverwrite = false → it.fresh = false ∧ it.dirty = true ∧
        t.coins o = none := by
      intro hpo
      have hspent := hover hpo it hlook
      refine ⟨(hc.loose.spent hlook hspent).2.2, (hc.loose.spent hlook hspent).2.1, ?_⟩
      rw [← hc.coins, coins_of_lookup hlook, live, hspent, if_pos rfl]
    have hhold := hc.insertEntry o ⟨coin, true, it.fresh || (!possibleOverwrite && !it.dirty)⟩
      (fun hcl => Bool.noConfusion hcl)
      (fun hspent => absurd (hunsp.symm.trans hspent) Bool.false_ne_true)
      (c.cachedCoinsUsage - it.coin.dynamicMemoryUsage + coin.dynamicMemoryUsage)
      (by rw [hlook]; rfl)
    have hsame : (if possibleOverwrite then t.hidden else update t.hidden o (t.coins o)) =
        update t.hidden o
          (if it.fresh || (!possibleOverwrite && !it.dirty) then M.coins c.base o else none) := by
      cases possibleOverwrite with
      | true => simp [hhid]
      | false =>
        obtain ⟨hf, hd, hnone⟩ := hfr rfl
        simp [hf, hd, hnone]
    rw [hlive, ← hsame] at hhold
    refine ⟨_, ?_, hhold⟩
    dsimp only [storeCoin]
    cases possibleOverwrite with
    | true => simp
    | false => simp [hover rfl it hlook]

theorem Holds.getBestBlock : ∃ c', getBestBlock V c = (t.bestBlock, c') ∧ c'.Holds M below t := by
  rw [CCoinsViewCache.getBestBlock]
  have hbest : bestBlockOver c.hashBlock (M.state c.base) = t.bestBlock :=
    congrArg ViewState.bestBlock hc.state
  rw [bestBlockOver] at hbest
  split_ifs with hnull
  · rw [if_pos hnull] at hbest
    obtain ⟨b, hget, hb, hst⟩ := M.getBestBlock hc.loose.base
    have hbase := hc.withBase hb hst
    refine ⟨{ c with hashBlock := t.bestBlock, base := b }, by rw [hget, hbest], ?_⟩
    refine ⟨hbase.loose.withHash _, ?_, hbase.baseBest, hbase.hidden, hbase.cached⟩
    rw [← hbase.state, CCoinsViewCache.state, CCoinsViewCache.state]
    rw [bestBlockOver, bestBlockOver, hst, if_pos hnull, hbest, ite_self]
    rfl
  · rw [if_neg hnull] at hbest
    exact ⟨c, by rw [hbest], hc⟩

theorem Holds.setBestBlock (hashBlock : Uint256) :
    (c.setBestBlock hashBlock).Holds M below (t.setBest hashBlock) := by
  refine ⟨hc.loose.withHash _, ?_, hc.baseBest, hc.hidden, hc.cached⟩
  have hst := congrArg
    (fun s => { s with bestBlock := bestBlockOver hashBlock (M.state c.base) }) hc.state
  rw [UtxoState.setBest, ← hc.baseBest]
  exact hst

/-- Only the base can have a null best block. -/
theorem Holds.bestBlock_of_null (hnull : t.bestBlock.isNull = true) : t.baseBest = t.bestBlock := by
  have hbest : bestBlockOver c.hashBlock (M.state c.base) = t.bestBlock :=
    congrArg ViewState.bestBlock hc.state
  rw [bestBlockOver] at hbest
  split_ifs at hbest with hown
  · exact hc.baseBest.symm.trans hbest
  · exact absurd (hbest ▸ hnull) hown

end
end CCoinsViewCache
end Lithium
