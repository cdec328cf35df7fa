import Lithium.Wallet.Caches

/-!
# Cached amounts when a transaction is synchronised

A transaction that is added or changes its state makes the amounts outdated that are
cached with what it spends from, until its inputs are marked. Addresses that are used
for the first time and addresses that the managers add are covered by what is assumed
about the event.
-/

namespace Lithium.CWallet
open Lib List Option WalletView
variable {x : CTransaction} {state : SyncTxState}
  {κ δ : Type} [DecidableEq δ] {ops : KeyOps κ δ} {U T : Set CTransaction}
  {w₀ w w' : CWallet κ δ} {D : Set Uint256}

/-! ### Adding a transaction -/

section
variable (hU : TxUniverse U)

include hU

omit [DecidableEq δ] in
/-- A recorded spend by the transaction is one of its inputs. -/
theorem spentBy_of_mem_spends (h : w.view.Linked U) (hx : x ∈ U) {o : COutPoint}
    (hmem : (o, x.getHash) ∈ w.view.spends) : SpentBy x.vin o.hash := by
  obtain ⟨tx, s, hent, -, hsp⟩ := (h.spends_iff _ _).mp hmem
  obtain ⟨htx, hhash⟩ := h.known hent
  obtain ⟨txin, htxin, rfl⟩ := (hU.spends_iff htx hx hhash o).mp hsp
  exact ⟨txin, htxin, rfl⟩

/-- A transaction of the wallet takes a state, and perhaps a witness. -/
theorem Tracked.update (h : Tracked ops U T w₀ D w) (hx : x ∈ U)
    {wtx : CWalletTx} (hget : w.getWalletTx x.getHash = some wtx) {f : CWalletTx → CWalletTx}
    (hf : ∀ wtx, (f wtx).amounts = wtx.amounts ∧ (f wtx).isCacheEmpty = wtx.isCacheEmpty)
    (htx : (f wtx).tx = wtx.tx ∨ (f wtx).tx = x) :
    Tracked ops U T w₀ (D ∪ {p | SpentBy x.vin p}) (w.modifyTx x.getHash f) := by
  obtain ⟨hwtxU, hwtxHash⟩ := h.linked.known (view_entry_eq_some hget)
  have hview := view_modifyTx hget f
  refine h.step ?_ (cachesFrom_modifyTx w _ fun wtx => .inr (hf wtx)) rfl rfl rfl
    (fun {t wtx'} hget' => ?_) (fun {t} hnone => ?_) fun {p} hp hD => ⟨fun hpD => hD (.inl hpD), ?_⟩
  · rw [hview]
    rcases htx with htx | htx
    · rw [htx]
      exact h.linked.setEntry hU (view_entry_eq_some hget) hwtxU hwtxHash _
    · rw [htx]
      exact h.linked.setEntry hU (view_entry_eq_some hget) hx rfl _
  · rw [getWalletTx_modifyTx] at hget'
    split_ifs at hget' with ht
    · subst ht
      rw [hget, map_some] at hget'
      cases hget'
      refine ⟨wtx, hget, ?_⟩
      rcases htx with htx | htx
      · rw [htx]
      · rw [htx, hU.vout _ hx _ hwtxU hwtxHash.symm]
    · exact ⟨wtx', hget', rfl⟩
  · rw [getWalletTx_modifyTx] at hnone
    split_ifs at hnone
    · exact map_eq_none_iff.mp hnone
    · exact hnone
  · refine spentAt_congr rfl fun y i hmem => ?_
    have hy : y ≠ x.getHash := by
      rintro rfl
      exact hD (.inr (spentBy_of_mem_spends hU h.linked hx hmem))
    rw [hview]
    exact counts_congr (setEntry_entry_of_ne _ _ hy) rfl

section
variable (hT : T ⊆ U) (h : Tracked ops U T w₀ D w) (hx : x ∈ T)

include hT h hx

/-- A transaction enters the wallet. -/
theorem Tracked.insert (hnone : w.getWalletTx x.getHash = none) (s : TxState) :
    Tracked ops U T w₀ (D ∪ {p | SpentBy x.vin p}) (addToSpends
      { w with mapWallet := w.mapWallet.insert x.getHash (.ofTransaction x s) } x.getHash x) := by
  have hemplace : w.emplaceTx x s = .ok (addToSpends
      { w with mapWallet := w.mapWallet.insert x.getHash (.ofTransaction x s) } x.getHash x) := by
    rw [emplaceTx, hnone]
  have hlink := (stored_emplaceTx hemplace).linked hU (hT hx) h.linked
  generalize hw' : addToSpends
    { w with mapWallet := w.mapWallet.insert x.getHash (.ofTransaction x s) } x.getHash x =
      w' at hlink
  have hget : ∀ n, w'.getWalletTx n =
      if x.getHash = n then some (.ofTransaction x s) else w.getWalletTx n := by
    intro n
    rw [← hw', addToSpends]
    split_ifs with hcb hn hn
    all_goals
      rw [getWalletTx, OrdMap.find?_insert]
      simp [hn, getWalletTx]
  have hrest : w'.keys = w.keys ∧ w'.usedDestinations = w.usedDestinations ∧
      w'.avoidReuse = w.avoidReuse ∧ w'.view.height = w.view.height := by
    rw [← hw', addToSpends]
    split_ifs <;> exact ⟨rfl, rfl, rfl, rfl⟩
  have hsp : ∀ o y, (o, y) ∈ w'.view.spends ↔ (o, y) ∈ w.view.spends ∨
      x.isCoinBase = false ∧ x.Spends o ∧ x.getHash = y := by
    intro o y
    rw [← mem_spends_stored, ← hw', view_addToSpends]
    rfl
  obtain ⟨hkeys, husedDests, havoid, hht⟩ := hrest
  have hother : ∀ {p wtx'}, w'.getWalletTx p = some wtx' → ¬ wtx'.Uncached →
    w.getWalletTx p = some wtx' := by
    intro p wtx' hget' hsome
    rw [hget] at hget'
    split_ifs at hget'
    · cases hget'
      exact absurd (fun _ _ => rfl) hsome
    · exact hget'
  have hcaches : CachesFrom w w' := by
    refine ⟨fun {t wtx'} hget' => ?_⟩
    by_cases hsome : wtx'.Uncached
    · exact .inl hsome
    · exact .inr ⟨wtx', hother hget' hsome, rfl, rfl⟩
  refine ⟨hlink, h.caches.trans hcaches, by rw [hkeys]; exact h.later, havoid.trans h.avoidReuse,
    fun {t} hnone' => ?_, fun {t wtx'} hget' hnone' => ?_, fun {p} hp hD i => ?_,
    fun havoid₀ {p wtx'} hget' hsome txout htxout => ?_⟩
  · rw [hget] at hnone'
    split_ifs at hnone'
    exact h.stays hnone'
  · rw [hget] at hget'
    split_ifs at hget' with ht
    · exact ⟨x, hx, ht⟩
    · exact h.fresh hget' hnone'
  · rw [← h.spent (hcaches.cached hp) fun hpD => hD (.inl hpD)]
    have hnotSpent : ¬ x.Spends ⟨p, i⟩ := by
      rintro ⟨txin, htxin, hprev⟩
      exact hD (.inr ⟨txin, htxin, by rw [hprev]⟩)
    have hcnts : ∀ y, (⟨p, i⟩, y) ∈ w.view.spends → (w'.view.Counts y ↔ w.view.Counts y) := by
      intro y hmem
      have hy : x.getHash ≠ y := by
        rintro rfl
        obtain ⟨tx, s', hent, -⟩ := (h.linked.spends_iff _ _).mp hmem
        obtain ⟨wtx, hget', -⟩ := exists_of_view_entry hent
        rw [hnone] at hget'
        cases hget'
      refine counts_congr ?_ hht
      rw [view_entry, view_entry, hget, if_neg hy]
    constructor
    · rintro ⟨y, hmem, hy⟩
      rcases (hsp _ _).mp hmem with hmem | ⟨-, hspent, -⟩
      · exact ⟨y, hmem, (hcnts y hmem).mp hy⟩
      · exact absurd hspent hnotSpent
    · rintro ⟨y, hmem, hy⟩
      exact ⟨y, (hsp _ _).mpr (.inl hmem), (hcnts y hmem).mpr hy⟩
  · have hkey : w'.isSpentKey ops txout.scriptPubKey = w.isSpentKey ops txout.scriptPubKey := by
      simp [isSpentKey, isAddressUsed, hkeys, husedDests]
    rw [hkey]
    exact h.used havoid₀ (hother hget' hsome) hsome txout htxout

theorem Tracked.emplaceTx {s : TxState} (hw' : w.emplaceTx x s = .ok w') :
    Tracked ops U T w₀ (D ∪ {p | SpentBy x.vin p}) w' := by
  rw [CWallet.emplaceTx] at hw'
  dsimp only at hw'
  split at hw'
  · next hnone =>
    cases hw'
    exact h.insert hU hT hx hnone s
  · next wtx hget =>
    split_ifs at hw'
    all_goals
      cases hw'
      refine h.update hU (hT hx) hget (fun wtx => ?_) ?_
      · split_ifs <;> exact ⟨rfl, rfl⟩
      · split_ifs
        · exact .inr rfl
        · exact .inl rfl

end
end

/-! ### Addresses -/

omit [DecidableEq δ] in
theorem later_markUnusedAddresses {k k' : κ} (h : ops.Later T k k') (hx : x ∈ T) : ops.Later T k
      (x.vout.foldl (fun k txout => ops.markUnusedAddresses k txout.scriptPubKey) k') := by
  have hfold : ∀ vout : List CTxOut, (∀ txout ∈ vout, txout ∈ x.vout) → ∀ k', ops.Later T k k' →
      ops.Later T k
        (vout.foldl (fun k txout => ops.markUnusedAddresses k txout.scriptPubKey) k') := by
    intro vout
    induction vout with
    | nil => exact fun _ k' hk' => hk'
    | cons txout vout ih =>
      intro hsub k' hk'
      refine ih (fun txout' h' => hsub txout' (mem_cons_of_mem _ h')) _ (hk'.tail ?_)
      exact ⟨x, hx, txout, hsub txout mem_cons_self, rfl⟩
  exact hfold x.vout (fun _ h => h) k' h

/-- Topping up does not change what is known about stored outputs. -/
theorem Tracked.markUnusedAddresses (hU : TxUniverse U) (h₀ : w₀.view.Linked U)
    (hfore : Foreseen ops U T w₀) (h : Tracked ops U T w₀ D w) (hx : x ∈ T) :
    Tracked ops U T w₀ D (w.markUnusedAddresses ops x) := by
  have hlater := later_markUnusedAddresses h.later hx
  refine ⟨h.linked, ⟨h.caches.cache⟩, hlater, h.avoidReuse, h.stays, h.fresh, h.spent, ?_⟩
  intro havoid p wtx hget hsome txout htxout
  have hget' : w.getWalletTx p = some wtx := hget
  obtain ⟨wtx₀, hget₀, -⟩ := (h.caches.cache hget').resolve_left hsome
  have hmem : txout ∈ wtx₀.tx.vout := by
    obtain ⟨hvout, -⟩ := sameTx hU h₀ h.linked hget₀ hget'
    rwa [← hvout]
  have hold := (hfore.answers hget₀ txout hmem _ h.later).2
  have hnew := (hfore.answers hget₀ txout hmem _ hlater).2
  rw [← h.used havoid hget' hsome txout htxout]
  have hkeys : (w.markUnusedAddresses ops x).keys =
    x.vout.foldl (fun k txout => ops.markUnusedAddresses k txout.scriptPubKey) w.keys := rfl
  simp only [isSpentKey, isAddressUsed, hkeys, hnew, hold]
  rfl

/-- What `SetSpentKeyState` collects: destinations of outputs that the inputs refer
to, none of them left out. -/
structure Collected (ops : KeyOps κ δ) (w : CWallet κ δ) (P : COutPoint → Prop)
    (st : CWallet κ δ × List δ) : Prop where
  wallet : st.1 = { w with usedDestinations := w.usedDestinations ++ st.2 }
  origin : ∀ d ∈ st.2, ∃ o, P o ∧ ∃ srctx, w.getWalletTx o.hash = some srctx ∧
    ∃ txout, srctx.tx.vout[o.n.toNat]? = some txout ∧
      ops.extractDestination txout.scriptPubKey = some d

theorem Collected.step {P : COutPoint → Prop} {st : CWallet κ δ × List δ} (h : Collected ops w P st)
    {o : COutPoint} (ho : P o) : Collected ops w P (setSpentKeyState ops st o) := by
  have hget : st.1.getWalletTx o.hash = w.getWalletTx o.hash := by rw [h.wallet]; rfl
  rw [setSpentKeyState, hget]
  split
  · exact h
  · next srctx hsrc =>
    split
    · exact h
    · next txout hout =>
      split
      · exact h
      · next dst hdst =>
        split_ifs
        · refine ⟨?_, fun d hd => ?_⟩
          · rw [h.wallet]
            simp
          · rcases mem_append.mp hd with hd | hd
            · exact h.origin d hd
            · obtain rfl := mem_singleton.mp hd
              exact ⟨o, ho, srctx, hsrc, txout, hout, hdst⟩
        · exact h

variable (ops) in
theorem collected_foldl (w : CWallet κ δ) (P : COutPoint → Prop) (os : List COutPoint)
    (hos : ∀ o ∈ os, P o) : Collected ops w P (os.foldl (setSpentKeyState ops) (w, [])) := by
  have hfold : ∀ (os : List COutPoint), (∀ o ∈ os, P o) → ∀ st, Collected ops w P st →
      Collected ops w P (os.foldl (setSpentKeyState ops) st) := by
    intro os
    induction os with
    | nil => exact fun _ st hst => hst
    | cons o os ih =>
      intro hos st hst
      exact ih (fun o' ho' => hos o' (mem_cons_of_mem _ ho')) _ (hst.step (hos o mem_cons_self))
  refine hfold os hos (w, []) ⟨?_, fun d hd => nomatch hd⟩
  rw [append_nil]

theorem isSpentKey_iff {script : CScript} : w.isSpentKey ops script = true ↔
    ∃ dest, ops.extractDestination script = some dest ∧ (dest ∈ w.usedDestinations ∨
      ∃ d ∈ ops.affectedDestinations w.keys script, d ∈ w.usedDestinations) := by
  rw [isSpentKey]
  cases ops.extractDestination script with
  | none => simp
  | some dest => simp [isAddressUsed]

/-- Using addresses drops the caches of the transactions that pay to them. -/
theorem Tracked.markUsedDestinations (hU : TxUniverse U) (h₀ : w₀.view.Linked U)
    (hfore : Foreseen ops U T w₀) (hfr : w₀.CacheFresh ops) (h : Tracked ops U T w₀ D w)
    (hx : x ∈ T) : Tracked ops U T w₀ D (w.markUsedDestinations ops x) := by
  have hview := view_markUsedDestinations ops w x
  generalize hw' : w.markUsedDestinations ops x = w' at hview
  rw [CWallet.markUsedDestinations] at hw'
  split_ifs at hw' with havoid
  case neg =>
    rw [← hw']
    exact h
  have hcol := collected_foldl ops w x.Spends (x.vin.map CTxIn.prevout)
    fun o ho => CTransaction.spends_iff.mpr ho
  generalize (x.vin.map CTxIn.prevout).foldl (setSpentKeyState ops) (w, []) = st at hw' hcol
  obtain ⟨w₁, dests⟩ := st
  obtain ⟨hw₁, horigin⟩ := hcol
  dsimp only at hw₁ horigin hw'
  let touches : CWalletTx → Bool := fun wtx => wtx.tx.vout.any fun txout =>
    (ops.extractDestination txout.scriptPubKey).any dests.contains
  have hget : ∀ n, w'.getWalletTx n = (w.getWalletTx n).map fun wtx =>
      if wtx.isCacheEmpty then wtx else if touches wtx then wtx.markDirty else wtx := by
    intro n
    rw [← hw', hw₁]
    exact OrdMap.find?_map _ _ n
  have hrest : w'.keys = w.keys ∧ w'.usedDestinations = w.usedDestinations ++ dests ∧
      w'.avoidReuse = w.avoidReuse := by
    rw [← hw', hw₁]
    exact ⟨rfl, rfl, rfl⟩
  obtain ⟨hkeys, hused, havoid'⟩ := hrest
  have hcaches : CachesFrom w w' := by
    refine cachesFrom_of_map fun n => .inr ⟨_, hget n, fun wtx => ?_⟩
    split_ifs
    · exact .inr ⟨rfl, rfl⟩
    · exact .inl (CWalletTx.uncached_markDirty wtx)
    · exact .inr ⟨rfl, rfl⟩
  -- a transaction that is still cached was so before and pays to none of the addresses
  have hcached : ∀ {p wtx'}, w'.getWalletTx p = some wtx' → ¬ wtx'.Uncached →
      w.getWalletTx p = some wtx' ∧ touches wtx' = false := by
    intro p wtx' hget' hsome
    rw [hget, map_eq_some_iff] at hget'
    obtain ⟨wtx, hget₁, heq⟩ := hget'
    split_ifs at heq with hflag htouch
    · exfalso
      subst heq
      rcases h.caches.cache hget₁ with hemp | ⟨wtx₀, hget₀, hamts, hflag₀⟩
      · exact hsome hemp
      · refine hsome fun type filter => ?_
        rw [hamts]
        exact hfr.flag hget₀ (hflag₀.symm.trans hflag) type filter
    · subst heq
      exact absurd (CWalletTx.uncached_markDirty wtx) hsome
    · subst heq
      exact ⟨hget₁, by simpa using htouch⟩
  refine ⟨by rw [hview]; exact h.linked, h.caches.trans hcaches, by rw [hkeys]; exact h.later,
    havoid'.trans h.avoidReuse, fun {t} hnone => ?_, fun {t wtx'} hget' hnone => ?_,
    fun {p} hp hD i => ?_, fun havoid₀ {p wtx'} hget' hsome txout htxout => ?_⟩
  · rw [hget, map_eq_none_iff] at hnone
    exact h.stays hnone
  · rw [hget, map_eq_some_iff] at hget'
    obtain ⟨wtx, hget₁, -⟩ := hget'
    exact h.fresh hget₁ hnone
  · rw [hview]
    exact h.spent (hcaches.cached hp) hD i
  · obtain ⟨hget₁, htouch⟩ := hcached hget' hsome
    have hold := h.used havoid₀ hget₁ hsome txout htxout
    rw [← hold]
    obtain ⟨wtx₀, hget₀, -⟩ := (h.caches.cache hget₁).resolve_left hsome
    have hmem : txout ∈ wtx₀.tx.vout := by
      obtain ⟨hvout, -⟩ := sameTx hU h₀ h.linked hget₀ hget₁
      rwa [← hvout]
    have hapart : ∀ d, ops.extractDestination txout.scriptPubKey = some d → d ∉ dests := by
      intro d hd hdests
      have htouched : touches wtx' = true := any_eq_true.mpr ⟨txout, htxout, by simp [hd, hdests]⟩
      rw [htouch] at htouched
      cases htouched
    rw [Bool.eq_iff_iff, isSpentKey_iff, isSpentKey_iff, hkeys, hused]
    constructor
    · rintro ⟨dest, hdest, hcases⟩
      rcases hcases with hdest' | ⟨d, hd, hd'⟩
      · refine ⟨dest, hdest, .inl ?_⟩
        exact (mem_append.mp hdest').resolve_right (hapart dest hdest)
      · rcases mem_append.mp hd' with hd' | hd'
        · exact ⟨dest, hdest, .inr ⟨d, hd, hd'⟩⟩
        · -- another name of a used address
          obtain ⟨o, ho, srctx, hsrc, out, hout, hextract⟩ := horigin d hd'
          obtain ⟨hsrcU, hsrcHash⟩ := h.linked.known (view_entry_eq_some hsrc)
          have haffected : d ∈ ops.affectedDestinations w₀.keys txout.scriptPubKey := by
            rwa [← (hfore.answers hget₀ txout hmem _ h.later).2]
          rcases hfore.reuse havoid₀ x hx o ho srctx.tx hsrcU hsrcHash out hout d hextract
            hget₀ txout
            hmem haffected with hsame | hspent
          · exact absurd hd' (hapart d hsame)
          · rw [← hold, isSpentKey_iff] at hspent
            exact hspent
    · rintro ⟨dest, hdest, hcases⟩
      refine ⟨dest, hdest, hcases.imp (fun hd => mem_append_left _ hd) ?_⟩
      rintro ⟨d, hd, hd'⟩
      exact ⟨d, hd, mem_append_left _ hd'⟩

/-! ### `AddToWallet` and `SyncTransaction` -/

/-- What is assumed before an event with the transactions `T`. -/
structure Prepared (ops : KeyOps κ δ) (U T : Set CTransaction) (w₀ : CWallet κ δ) : Prop where
  ids : TxUniverse U
  sub : T ⊆ U
  linked : w₀.view.Linked U
  foreseen : Foreseen ops U T w₀
  fresh : w₀.CacheFresh ops

omit [DecidableEq δ] in
theorem abandonIfInactiveCoinBase_ok {t : Uint256} (h : w.abandonIfInactiveCoinBase t = .ok w') :
    w' = w ∨ ∃ A, Marked (.inactive true) w A w' := by
  rw [abandonIfInactiveCoinBase] at h
  split at h
  · cases h
    exact .inl rfl
  · split_ifs at h
    · exact .inr ⟨_, abandonCoinBase_ok h⟩
    · cases h
      exact .inl rfl

theorem Tracked.addToWallet (hp : Prepared ops U T w₀) (h : Tracked ops U T w₀ D w) (hx : x ∈ T)
    {s : TxState} (hw' : w.addToWallet ops x s = .ok w') :
    Tracked ops U T w₀ (D ∪ {p | SpentBy x.vin p}) w' := by
  obtain ⟨w₁, hemplace, hw'⟩ := bind_eq_ok.mp hw'
  obtain ⟨w₂, hab, hw'⟩ := bind_eq_ok.mp hw'
  cases hw'
  have h₁ := (h.markUsedDestinations hp.ids hp.linked hp.foreseen hp.fresh hx).emplaceTx hp.ids
    hp.sub hx
    hemplace
  have h₂ : Tracked ops U T w₀ (D ∪ {p | SpentBy x.vin p}) w₂ := by
    rcases abandonIfInactiveCoinBase_ok hab with rfl | ⟨A, hmark⟩
    · exact h₁
    · exact h₁.marked hmark
  exact (h₂.markDirty x.getHash).mono Set.sdiff_subset

/-- A confirmed state is of the last block that was processed. -/
def AtTip {κ δ : Type} (w : CWallet κ δ) (state : SyncTxState) : Prop :=
  ∀ b height i, state = .confirmed b height i → w.lastBlockProcessedHeight = height ∧ 0 ≤ height

theorem Tracked.markConflicts (h : Tracked ops U T w₀ D w) (hstate : w.AtTip state)
    (hw' : w.markConflicts x state = .ok w') : Tracked ops U T w₀ D w' := by
  cases state with
  | confirmed b height i =>
    obtain ⟨hht, hnn⟩ := hstate b height i rfl
    have hrule := ends_foldlM (f := fun w id => markConflicted w b height id)
      (I := fun l w => Tracked ops U T w₀ D w ∧ w.lastBlockProcessedHeight = height ∧
        ∀ t ∈ l, ∃ wtx, w.getWalletTx t = some wtx) (E := fun _ => True) (l := w.conflictsWith x) ?_
      ⟨h, hht, conflictsWith_known h.linked x⟩
    · exact (hrule.1 w' hw').1
    · rintro t l w ⟨htracked, hlast, hkn⟩
      refine ⟨fun w' hw' => ?_, fun _ _ => trivial⟩
      obtain ⟨w₁, hw₁, hmark⟩ := markConflicted_ok htracked.linked b hlast hnn
        (hkn t mem_cons_self)
      rw [hw₁] at hw'
      cases hw'
      refine ⟨htracked.marked hmark, hmark.only.lastBlockProcessedHeight.trans hlast,
        fun n hn => ?_⟩
      obtain ⟨wtx, hget⟩ := hkn n (mem_cons_of_mem _ hn)
      exact hmark.exists_of_getWalletTx hget
  | inMempool | inactive abandoned =>
    cases hw'
    exact h

omit [DecidableEq δ] in
/-- Marking conflicts keeps what is in the wallet. -/
theorem exists_of_markConflicts (h : w.view.Linked U) (hstate : w.AtTip state)
    (hw' : w.markConflicts x state = .ok w') {t : Uint256} {wtx : CWalletTx}
    (hget : w.getWalletTx t = some wtx) : ∃ wtx', w'.getWalletTx t = some wtx' := by
  cases state with
  | confirmed b height i =>
    obtain ⟨hht, hnn⟩ := hstate b height i rfl
    obtain ⟨w₁, hw₁, -, hview⟩ :=
      foldlM_markConflicted h b hht hnn (conflictsWith_known h x)
    have hsame : w' = w₁ := Except.ok.inj (hw'.symm.trans hw₁)
    have hdepth : (TxState.conflicted b height).depth w.view.height ≤ -1 := by
      change -1 * (w.lastBlockProcessedHeight - height + 1) ≤ -1
      omega
    have hstruck := (struckBy_strike hdepth (w.conflictsWith x)).same
    rw [← hview, ← hsame] at hstruck
    obtain ⟨wtx', hget', -⟩ := exists_of_sameTxs hstruck.symm hget
    exact ⟨wtx', hget'⟩
  | inMempool | inactive abandoned =>
    cases hw'
    exact ⟨wtx, hget⟩

/-- The inputs of a transaction that is in the wallet are no longer outdated after it is
synchronised, and nothing else becomes outdated. -/
theorem Tracked.syncTransaction (hp : Prepared ops U T w₀) (h : Tracked ops U T w₀ D w) (hx : x ∈ T)
    (hstate : w.AtTip state) (hw' : w.syncTransaction ops x state true = .ok w') :
    Tracked ops U T w₀
      (D \ {p | SpentBy x.vin p ∧ ∃ wtx, w.getWalletTx x.getHash = some wtx}) w' := by
  obtain ⟨w₁, hw₁, ⟨hnone, rfl⟩ | ⟨w₂, hadd, rfl⟩⟩ := syncTransaction_cases hw'
  · refine Tracked.mono (D := D) (h.markConflicts hstate hw₁) fun p hpD => ⟨hpD, ?_⟩
    rintro ⟨-, wtx, hget⟩
    obtain ⟨wtx', hget'⟩ := exists_of_markConflicts h.linked hstate hw₁ hget
    rw [hnone] at hget'
    cases hget'
  · have h₁ := h.markConflicts hstate hw₁
    have h₂ := (h₁.markUnusedAddresses hp.ids hp.linked hp.foreseen hx).addToWallet hp hx hadd
    refine Tracked.mono (h₂.markInputsDirty x) ?_
    rintro p ⟨hpD | hspent, hnot⟩
    · exact ⟨hpD, fun hspent => hnot hspent.1⟩
    · exact absurd hspent hnot

/-- After a transaction of the wallet is synchronised, what it spends from has no
caches. -/
theorem uncached_inputs_of_sync (hw' : w.syncTransaction ops x state true = .ok w') :
    w'.getWalletTx x.getHash = none ∨ ∀ p, SpentBy x.vin p → ¬ w'.Cached p := by
  obtain ⟨w₁, -, ⟨hnone, rfl⟩ | ⟨w₂, -, rfl⟩⟩ := syncTransaction_cases hw'
  · exact .inl hnone
  · exact .inr fun p hspent => not_cached_markInputsDirty w₂ hspent

end Lithium.CWallet
