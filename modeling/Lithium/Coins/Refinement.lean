import Lithium.Coins.Holds

/-!
# Caches refine maps

A cache over a view with a model has a model again, so a stack of caches over
any base with a model has one, however high it is. The caches here hide nothing:
a coin is added as the first one of its outpoint only if the map has none.
-/

namespace Lithium
open Lib List Function AList Coin
variable {it : CCoinsCacheEntry} {hashBlockIn : Uint256} {l : List CoinsCachePair}
  {mapCoins : CCoinsMap}
namespace CCoinsViewCache
variable {σ : Type} {V : CCoinsView σ} {M : CoinsModel V} {c : CCoinsViewCache σ}

theorem Inv.unspent (hc : c.Inv M) {o : COutPoint} {coin : Coin} (h : c.coins M o = some coin) :
    coin.isSpent = false :=
  (inv_iff_loose.mp hc).1.unspent h

/-- `SanityCheck` passes on every cache whose flags are right. -/
theorem Inv.sanityCheck (hc : c.Inv M) : c.sanityCheck = .ok () := by
  rw [CCoinsViewCache.sanityCheck, if_neg, if_neg (not_not.mpr hc.usage)]
  rw [any_eq_true]
  rintro ⟨⟨o, it⟩, hmem, hattr⟩
  have hsound := hc.sound o it (mem_lookup_iff.mpr hmem)
  have hlive : it.dirty = false → it.coin.isSpent = false := fun hcl =>
    M.unspent hc.base (hsound.clean hcl)
  have hfr : it.dirty = false → it.fresh = false := by
    intro hcl
    by_contra hf
    have hnone := hsound.fresh (Bool.not_eq_false _ ▸ hf)
    rw [hsound.clean hcl] at hnone
    cases hnone
  cases hdirty : it.dirty with
  | false => simp [hdirty, hlive hdirty, hfr hdirty] at hattr
  | true =>
    simp only [hdirty, Bool.not_true, Bool.false_and, Bool.false_or, Bool.true_and,
      Bool.and_eq_true] at hattr
    rw [(hsound.spent hattr.2).2.2] at hattr
    exact Bool.false_ne_true hattr.1

/-- The cache is in order and stands for a map and a best block. -/
structure Shows (M : CoinsModel V) (c : CCoinsViewCache σ) (s : ViewState) : Prop where
  inv : c.Inv M
  state : c.state M = s

variable {s : ViewState} {o : COutPoint}

theorem Shows.coins (hc : c.Shows M s) : c.coins M = s.coins := congrArg ViewState.coins hc.state

theorem Shows.withHash (hc : c.Shows M s) (hashBlock : Uint256) :
    ({ c with hashBlock } : CCoinsViewCache σ).Shows M
      { s with bestBlock := bestBlockOver hashBlock (M.state c.base) } := by
  refine ⟨⟨hc.inv.base, hc.inv.sound, hc.inv.usage⟩, ?_⟩
  rw [← hc.state]
  rfl

theorem Shows.holds (hc : c.Shows M s) :
    c.Holds M s.below (.ofMap s.coins s.bestBlock (M.state c.base).bestBlock) := by
  rw [← hc.state]
  exact hc.inv.holds

/-- A cache that hides nothing has all flags right. -/
theorem Holds.shows {below : List UtxoMap} {t : UtxoState} (hc : c.Holds M below t)
    (hhid : t.hidden = fun _ => none) : c.Shows M ⟨t.coins, t.bestBlock, below⟩ :=
  ⟨hc.inv hhid, hc.state⟩

section
variable (hc : c.Shows M s)

include hc

/-- An entry may be put into a cache if its flags are right. -/
theorem Shows.insertEntry
    (hsound : it.Sound (M.coins c.base o)) (usage : UInt64) (husage : usage = c.cachedCoinsUsage -
      (c.cacheCoins.lookup o).elim 0 (fun it => it.coin.dynamicMemoryUsage) +
      it.coin.dynamicMemoryUsage) :
    ({ c with cacheCoins := c.cacheCoins.insert o it, cachedCoinsUsage := usage } :
      CCoinsViewCache σ).Shows M { s with coins := update s.coins o it.coin.live } := by
  refine (hc.holds.insertEntry o it (fun hcl => ⟨?_, hsound.clean hcl⟩) hsound.spent usage
    husage).shows ?_
  · by_contra hfr
    cases (hsound.fresh (Bool.not_eq_false _ ▸ hfr)).symm.trans (hsound.clean hcl)
  · have hnone : (if it.fresh then M.coins c.base o else none) = none := by
      split_ifs with hfr
      · exact hsound.fresh hfr
      · rfl
    rw [hnone]
    exact update_eq_self _ _

/-- An entry may be dropped if the base has the right coin. -/
theorem Shows.eraseEntry (usage : UInt64) (husage : usage = c.cachedCoinsUsage -
      (c.cacheCoins.lookup o).elim 0 (fun it => it.coin.dynamicMemoryUsage)) :
    ({ c with cacheCoins := c.cacheCoins.erase o, cachedCoinsUsage := usage } :
      CCoinsViewCache σ).Shows M { s with coins := update s.coins o (M.coins c.base o) } :=
  (hc.holds.eraseEntry usage husage).shows (update_eq_self _ _)

/-! ### Reading -/

theorem Shows.getCoin (o : COutPoint) : ∃ t, getCoin V o c = (s.coins o, t) ∧ t.Shows M s := by
  obtain ⟨t, hfetch, ht, hread⟩ := hc.holds.fetchCoin o
  refine ⟨t, ?_, ht.shows rfl⟩
  change _ = s.coins o at hread
  rw [CCoinsViewCache.getCoin, hfetch, ← hread]
  cases t.cacheCoins.lookup o <;> rfl

theorem Shows.haveCoin (o : COutPoint) :
    ∃ t, haveCoin V o c = ((s.coins o).isSome, t) ∧ t.Shows M s := by
  obtain ⟨t, hhave, ht⟩ := hc.holds.haveCoin o
  exact ⟨t, hhave, ht.shows rfl⟩

theorem Shows.accessCoin (o : COutPoint) :
    ∃ t, accessCoin V o c = ((s.coins o).getD .empty, t) ∧ t.Shows M s := by
  obtain ⟨t, haccess, ht⟩ := hc.holds.accessCoin o
  exact ⟨t, haccess, ht.shows rfl⟩

theorem Shows.getBestBlock : ∃ t, getBestBlock V c = (s.bestBlock, t) ∧ t.Shows M s := by
  obtain ⟨t, hget, ht⟩ := hc.holds.getBestBlock
  exact ⟨t, hget, ht.shows rfl⟩

/-! ### Changing -/

theorem Shows.setBestBlock (hnull : hashBlockIn.isNull = false) :
    (c.setBestBlock hashBlockIn).Shows M { s with bestBlock := hashBlockIn } := by
  have hshows := hc.withHash hashBlockIn
  rw [bestBlockOver_of_notNull hnull] at hshows
  exact hshows

theorem Shows.addCoin {coin : Coin} (hunsp : coin.isSpent = false)
    {possibleOverwrite : Bool} (hover : possibleOverwrite = false → s.coins o = none) :
    ∃ t, addCoin o coin possibleOverwrite c = (.ok (), t) ∧
      t.Shows M { s with coins := coin.addTo o s.coins } := by
  rw [addTo]
  split_ifs with hscr
  · rw [CCoinsViewCache.addCoin, hunsp, if_neg Bool.false_ne_true, if_pos hscr]
    exact ⟨c, rfl, hc⟩
  · have hspent : possibleOverwrite = false →
        ∀ it, c.cacheCoins.lookup o = some it → it.coin.isSpent = true := by
      intro hpo it hlook
      by_contra hlive
      have hv := hover hpo
      rw [← hc.coins, coins_of_lookup hlook, live_of_unspent (Bool.not_eq_true _ ▸ hlive)] at hv
      cases hv
    obtain ⟨t, hadd, ht⟩ := hc.holds.addCoin hunsp (Bool.not_eq_true _ ▸ hscr) hspent
    rw [UtxoState.add, if_neg hscr] at ht
    refine ⟨t, hadd, ht.shows ?_⟩
    dsimp only
    split_ifs with hpo
    · rfl
    · exact (congrArg _ (hover (Bool.not_eq_true _ ▸ hpo))).trans (update_eq_self _ _)

/-- Spending hands out the coin of the map. It also succeeds on an entry that
was spent before, and then the empty coin comes out. -/
theorem Shows.spendCoin (o : COutPoint) :
    ∃ r t, spendCoin V o c = (r, t) ∧ t.Shows M { s with coins := update s.coins o none } ∧
      r.getD .empty = (s.coins o).getD .empty ∧ (r = none → s.coins o = none) := by
  obtain ⟨r, t, hspend, ht, hr⟩ := hc.holds.spendCoin o
  exact ⟨r, t, hspend, ht.shows (update_eq_self _ _), hr⟩

theorem Shows.uncache (o : COutPoint) : (c.uncache o).Shows M s := by
  rw [CCoinsViewCache.uncache]
  cases hlook : c.cacheCoins.lookup o with
  | none => exact hc
  | some it =>
    dsimp only
    split_ifs with hflags
    · exact hc
    · have hcl : it.dirty = false := by
        rw [Bool.or_eq_true, not_or, Bool.not_eq_true] at hflags
        exact hflags.1
      have hshows := hc.eraseEntry (c.cachedCoinsUsage - it.coin.dynamicMemoryUsage)
        (by rw [hlook]; rfl)
      have hpar := (hc.inv.sound o it hlook).clean hcl
      have hv : s.coins o = M.coins c.base o := by
        rw [← hc.coins, coins_of_lookup hlook, hpar,
          live_of_unspent (M.unspent hc.inv.base hpar)]
      rw [← hv, update_eq_self] at hshows
      exact hshows

/-! ### Writing to the base -/

/-- A child's entry with the right flags can be written, and then the map says
what the entry said. -/
theorem Shows.writeEntry (hit : it.Sound (s.coins o)) : ∃ t, writeEntry o it c = (.ok (), t) ∧
      t.Shows M { s with coins := update s.coins o it.coin.live } := by
  rw [CCoinsViewCache.writeEntry]
  cases hdirty : it.dirty with
  | false =>
    refine ⟨c, rfl, ?_⟩
    have hv := hit.clean hdirty
    have hunsp := hc.inv.unspent (hc.coins ▸ hv : c.coins M o = some it.coin)
    rw [live_of_unspent hunsp, ← hv, update_eq_self]
    exact hc
  | true =>
    cases hlook : c.cacheCoins.lookup o with
    | none =>
      have hbase : M.coins c.base o = s.coins o := by rw [← hc.coins, coins_of_none hlook]
      have hdrop : (it.fresh && it.coin.isSpent) = false := by
        cases hspent : it.coin.isSpent with
        | false => rw [Bool.and_false]
        | true => rw [(hit.spent hspent).2.2, Bool.false_and]
      have hsound : (⟨it.coin, true, it.fresh⟩ : CCoinsCacheEntry).Sound (M.coins c.base o) := by
        rw [hbase]
        exact ⟨fun hcl => Bool.noConfusion hcl, hit.fresh,
          fun hspent => ⟨(hit.spent hspent).1, rfl, (hit.spent hspent).2.2⟩⟩
      refine ⟨_, ?_, hc.insertEntry hsound
        (c.cachedCoinsUsage + it.coin.dynamicMemoryUsage) (by rw [hlook]; simp)⟩
      rw [hdrop]
      rfl
    | some itUs =>
      have hv : s.coins o = itUs.coin.live := by rw [← hc.coins, coins_of_lookup hlook]
      have hus := hc.inv.sound o itUs hlook
      -- A fresh entry of a child means that the map has no coin.
      have happlied : (it.fresh && !itUs.coin.isSpent) = false := by
        cases hfr : it.fresh with
        | false => rw [Bool.false_and]
        | true =>
          cases hspent : itUs.coin.isSpent with
          | true => rfl
          | false =>
            have hnone := hit.fresh hfr
            rw [hv, live_of_unspent hspent] at hnone
            cases hnone
      dsimp only
      rw [happlied]
      cases hdrop : itUs.fresh && it.coin.isSpent with
      | true =>
        rw [Bool.and_eq_true] at hdrop
        have hshows := hc.eraseEntry
          (c.cachedCoinsUsage - itUs.coin.dynamicMemoryUsage) (by rw [hlook]; rfl)
        have hlive : it.coin.live = none := by rw [live, hdrop.2, if_pos rfl]
        rw [hus.fresh hdrop.1, ← hlive] at hshows
        exact ⟨_, rfl, hshows⟩
      | false =>
        have hsound : (⟨it.coin, true, itUs.fresh⟩ : CCoinsCacheEntry).Sound
            (M.coins c.base o) := by
          refine ⟨fun hcl => Bool.noConfusion hcl, hus.fresh, fun hspent => ?_⟩
          refine ⟨(hit.spent hspent).1, rfl, ?_⟩
          have hspent' : it.coin.isSpent = true := hspent
          rw [hspent', Bool.and_true] at hdrop
          exact hdrop
        exact ⟨_, rfl, hc.insertEntry hsound
          (c.cachedCoinsUsage - itUs.coin.dynamicMemoryUsage + it.coin.dynamicMemoryUsage)
          (by rw [hlook]; rfl)⟩

end

/-- The map that a list of entries with different keys makes of another. -/
def overlayList (l : List CoinsCachePair) (v : UtxoMap) : UtxoMap :=
  l.foldl (fun v it => update v it.1 it.2.coin.live) v

theorem overlayList_of_notMem {v : UtxoMap} (hmem : o ∉ l.keys) : overlayList l v o = v o := by
  induction l generalizing v with
  | nil => rfl
  | cons it rest ih =>
    rw [keys_cons, mem_cons, not_or] at hmem
    exact (ih hmem.2).trans (update_of_ne hmem.1 _ _)

theorem overlayList_entries (m : CCoinsMap) (v : UtxoMap) :
    overlayList m.entries v = overlay m v := by
  have hlist : ∀ (l : List CoinsCachePair), l.NodupKeys →
      ∀ (v : UtxoMap) (o : COutPoint),
        overlayList l v o = (l.dlookup o).elim (v o) fun it => it.coin.live := by
    intro l hnd
    induction l with
    | nil => exact fun _ _ => rfl
    | cons it rest ih =>
      intro v o
      rw [nodupKeys_cons] at hnd
      by_cases ho : o = it.1
      · subst ho
        rw [dlookup_cons_eq]
        exact (overlayList_of_notMem hnd.1).trans (update_self _ _ _)
      · rw [dlookup_cons_ne _ _ ho, ← update_of_ne ho it.2.coin.live v]
        exact ih hnd.2 _ o
  funext o
  rw [hlist m.entries m.nodupKeys, overlay, AList.lookup]
  cases m.entries.dlookup o <;> rfl

/-- The loop writes one entry after the other; the entries that are left keep
their flags right since the keys differ. -/
theorem Shows.batchWriteLoop (erase : Bool) (hnd : l.NodupKeys)
    (hsound : ∀ it ∈ l, it.2.Sound (s.coins it.1)) (hc : c.Shows M s) (mapCoins : CCoinsMap) :
    ∃ t, batchWriteLoop erase l mapCoins c =
        (.ok (), if erase then l.foldl (fun m it => m.erase it.1) mapCoins else mapCoins, t) ∧
      t.Shows M { s with coins := overlayList l s.coins } := by
  induction l generalizing c s mapCoins with
  | nil => exact ⟨c, by cases erase <;> rfl, hc⟩
  | cons it rest ih =>
    rw [nodupKeys_cons] at hnd
    obtain ⟨c', hwr, hc'⟩ := hc.writeEntry (hsound it mem_cons_self)
    have hrest : ∀ it' ∈ rest, it'.2.Sound (update s.coins it.1 it.2.coin.live it'.1) := by
      intro it' hmem
      have hne : it'.1 ≠ it.1 := by
        intro heq
        exact hnd.1 (heq ▸ mem_keys_of_mem hmem)
      rw [update_of_ne hne]
      exact hsound it' (mem_cons_of_mem _ hmem)
    obtain ⟨t, hloop, ht⟩ := ih hnd.2 hrest hc' (if erase then mapCoins.erase it.1 else mapCoins)
    refine ⟨t, ?_, ht⟩
    rw [batchWriteLoop, hwr]
    dsimp only
    rw [hloop]
    cases erase <;> rfl

theorem Shows.batchWrite (hc : c.Shows M s) (hashBlockIn : Uint256)
    (erase : Bool) (hsound : ∀ o it, mapCoins.lookup o = some it → it.Sound (s.coins o)) :
    ∃ t, batchWrite mapCoins hashBlockIn erase c = (.ok true, if erase then ∅ else mapCoins, t) ∧
      t.Inv M ∧ (t.state M).coins = overlay mapCoins s.coins ∧ (t.state M).below = s.below ∧
      (hashBlockIn.isNull = false → (t.state M).bestBlock = hashBlockIn) := by
  obtain ⟨t, hloop, ht⟩ := hc.batchWriteLoop erase mapCoins.nodupKeys
    (fun it hmem => hsound it.1 it.2 (mem_lookup_iff.mpr hmem)) mapCoins
  rw [foldl_erase_entries] at hloop
  have hshows := ht.withHash hashBlockIn
  refine ⟨_, ?_, hshows.inv, ?_, ?_, ?_⟩
  · rw [CCoinsViewCache.batchWrite, hloop]
  · rw [hshows.state]
    exact overlayList_entries mapCoins s.coins
  · rw [hshows.state]
  · intro hnull
    exact bestBlockOver_of_notNull hnull _

theorem inv_of_empty {b : σ} (hb : M.Inv b) (hashBlock : Uint256) :
    (⟨b, hashBlock, ∅, 0⟩ : CCoinsViewCache σ).Inv M := by
  refine ⟨hb, fun o it hlook => ?_, rfl⟩
  cases hlook

/-- Writing to a cache leaves its base alone. -/
theorem batchWriteLoop_base (erase : Bool) (l : List CoinsCachePair)
    (mapCoins : CCoinsMap) (c : CCoinsViewCache σ) :
      (batchWriteLoop erase l mapCoins c).2.2.base = c.base := by
  induction l generalizing mapCoins c with
  | nil => rfl
  | cons it rest ih =>
    have hent : (writeEntry it.1 it.2 c).2.base = c.base := by
      unfold writeEntry
      split
      · rfl
      · split <;> split_ifs <;> rfl
    rw [batchWriteLoop]
    rcases hwr : writeEntry it.1 it.2 c with ⟨_ | _, c'⟩
    · rw [hwr] at hent
      exact hent
    · rw [hwr] at hent
      exact (ih _ _).trans hent

theorem batchWrite_eq {m : CCoinsMap} {erase ok : Bool}
    {t : CCoinsViewCache σ} (h : c.batchWrite mapCoins hashBlockIn erase = (.ok ok, m, t)) :
    t.base = c.base ∧ t.hashBlock = hashBlockIn := by
  have hbase := batchWriteLoop_base erase mapCoins.entries mapCoins c
  rw [batchWrite] at h
  rcases hloop : batchWriteLoop erase mapCoins.entries mapCoins c with ⟨_ | _, m', c'⟩
  · rw [hloop] at h
    cases h
  · rw [hloop] at h hbase
    cases h
    exact ⟨hbase, rfl⟩

/-- Flushing hands the whole map to the base and empties the cache. The best
block goes along if the cache has one of its own. -/
theorem Inv.flush (hc : c.Inv M) (hacc : M.Accepts c.base c.hashBlock) :
    ∃ b, flush V c = (.ok true, ⟨b, c.hashBlock, ∅, 0⟩) ∧
      V.batchWrite c.cacheCoins c.hashBlock true c.base = (.ok true, ∅, b) ∧
      M.Inv b ∧ M.coins b = c.coins M ∧ (M.state b).below = (M.state c.base).below ∧
      (c.hashBlock.isNull = false → (M.state b).bestBlock = c.hashBlock) := by
  obtain ⟨b, hwr, hb, hcs, hlow, hbest⟩ := M.batchWrite true hc.base hacc hc.sound
  refine ⟨b, ?_, hwr, hb, hcs, hlow, hbest⟩
  rw [CCoinsViewCache.flush, hwr]
  rfl

/-- The loop of `Sync` over entries that are in the cache. -/
theorem settle_spec (hnd : l.NodupKeys) (hpres : ∀ it ∈ l, c.cacheCoins.lookup it.1 = some it.2)
    (husage : assocSum (fun it => it.coin.dynamicMemoryUsage) c.cacheCoins = c.cachedCoinsUsage) :
    ∃ m u, l.foldl settleEntry c = { c with cacheCoins := m, cachedCoinsUsage := u } ∧
      assocSum (fun it => it.coin.dynamicMemoryUsage) m = u ∧
      ∀ o, m.lookup o = (l.dlookup o).elim (c.cacheCoins.lookup o) fun it =>
        if it.coin.isSpent then none else some ⟨it.coin, false, false⟩ := by
  induction l generalizing c with
  | nil => exact ⟨c.cacheCoins, c.cachedCoinsUsage, rfl, husage, fun _ => rfl⟩
  | cons it rest ih =>
    rw [nodupKeys_cons] at hnd
    have hhere := hpres it mem_cons_self
    have hother : ∀ it' ∈ rest, it'.1 ≠ it.1 := fun it' hmem heq =>
      hnd.1 (heq ▸ mem_keys_of_mem hmem)
    -- The step keeps the count and settles its own entry.
    obtain ⟨m₁, u₁, hstep, hsum, hself, hrest⟩ : ∃ m₁ u₁,
        settleEntry c it = { c with cacheCoins := m₁, cachedCoinsUsage := u₁ } ∧
        assocSum (fun it => it.coin.dynamicMemoryUsage) m₁ = u₁ ∧
        (m₁.lookup it.1 = if it.2.coin.isSpent then none else some ⟨it.2.coin, false, false⟩) ∧
        ∀ o, o ≠ it.1 → m₁.lookup o = c.cacheCoins.lookup o := by
      rw [settleEntry]
      split_ifs
      · refine ⟨_, _, rfl, ?_, lookup_erase _ _, fun o ho => lookup_erase_ne ho⟩
        rw [assocSum_erase, hhere, husage]
        rfl
      · refine ⟨_, _, rfl, ?_, lookup_insert _, fun o ho => lookup_insert_ne ho⟩
        rw [assocSum_insert, hhere, husage]
        exact sub_add_cancel _ _
    obtain ⟨m, u, hfold, hsum', hlook⟩ := ih
      (c := { c with cacheCoins := m₁, cachedCoinsUsage := u₁ }) hnd.2
      (fun it' hmem => (hrest _ (hother it' hmem)).trans
        (hpres it' (mem_cons_of_mem _ hmem))) hsum
    refine ⟨m, u, by rw [foldl_cons, hstep, hfold], hsum', fun o => ?_⟩
    rw [hlook]
    by_cases ho : o = it.1
    · subst ho
      rw [dlookup_cons_eq, dlookup_eq_none.mpr hnd.1]
      exact hself
    · rw [dlookup_cons_ne _ _ ho]
      rw [hrest o ho]

/-- `Sync` hands the map to the base and keeps the unspent coins. -/
theorem Inv.sync (hc : c.Inv M) (hacc : M.Accepts c.base c.hashBlock) :
    ∃ t, sync V c = (.ok true, t) ∧ t.Inv M ∧ t.coins M = c.coins M ∧
      M.coins t.base = c.coins M ∧ (M.state t.base).below = (M.state c.base).below := by
  obtain ⟨b, hwr, hb, hcs, hlow, -⟩ := M.batchWrite false hc.base hacc hc.sound
  change M.coins b = c.coins M at hcs
  obtain ⟨m, u, hfold, hsum, hlook⟩ := settle_spec (c := { c with base := b })
    c.cacheCoins.nodupKeys (fun it hmem => mem_lookup_iff.mpr hmem) hc.usage
  have hset : ∀ o, m.lookup o = (c.cacheCoins.lookup o).bind fun it =>
      if it.coin.isSpent then none else some ⟨it.coin, false, false⟩ := by
    intro o
    rw [hlook]
    cases hcache : c.cacheCoins.lookup o with
    | none | some it =>
      rw [AList.lookup] at hcache
      rw [hcache]
      rfl
  refine ⟨{ c with base := b, cacheCoins := m, cachedCoinsUsage := u }, ?_, ⟨hb, ?_, hsum⟩, ?_,
    hcs, hlow⟩
  · rw [CCoinsViewCache.sync, hwr]
    exact congrArg _ hfold
  · intro o it' hit'
    obtain ⟨it, hcache, hit⟩ := Option.bind_eq_some_iff.mp ((hset o).symm.trans hit')
    split at hit
    case isTrue => cases hit
    case isFalse hspent =>
      cases hit
      have hunsp : it.coin.isSpent = false := Bool.not_eq_true _ ▸ hspent
      refine ⟨fun _ => ?_, fun hfr => Bool.noConfusion hfr, fun hs => absurd hs hspent⟩
      rw [hcs, coins_of_lookup hcache, live_of_unspent hunsp]
  · funext o
    rw [coins, overlay, hset o]
    rw [hcs]
    cases hcache : c.cacheCoins.lookup o with
    | none => rfl
    | some it =>
      rw [coins_of_lookup hcache, Option.bind_some, live]
      split_ifs with hspent
      · rfl
      · simp [live, if_neg hspent]

end CCoinsViewCache

/-! ### Models of stacks -/

/-- A cache over a view that behaves like a map behaves like a map. -/
def CoinsModel.cache {σ : Type} {V : CCoinsView σ} (M : CoinsModel V) :
    CoinsModel (CCoinsViewCache.view V) where
  Inv := CCoinsViewCache.Inv M
  Accepts _ _ := True
  state := CCoinsViewCache.state M
  unspent hs h := hs.unspent h
  getCoin o hs := by
    obtain ⟨t, hget, ht⟩ := CCoinsViewCache.Shows.getCoin ⟨hs, rfl⟩ o
    exact ⟨t, hget, ht.inv, ht.state⟩
  getBestBlock hs := by
    obtain ⟨t, hget, ht⟩ := CCoinsViewCache.Shows.getBestBlock ⟨hs, rfl⟩
    exact ⟨t, hget, ht.inv, ht.state⟩
  batchWrite erase hs _ hsound := CCoinsViewCache.Shows.batchWrite ⟨hs, rfl⟩ _ erase hsound

def CoinsModel.stack {σ : Type} {V : CCoinsView σ} (M : CoinsModel V) :
    (n : Nat) → CoinsModel (CoinsStack.view V n)
  | 0 => M
  | n + 1 => (M.stack n).cache

end Lithium
