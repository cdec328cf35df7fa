import Lithium.Wallet.CachedSync

/-!
# Balances and cached amounts

Along runs of events that meet a condition, the balance is the one that would be
computed without any cached amounts. The condition says of each event what the
functions of the wallet do not look after themselves. Without it a balance can be out
of date, as the last section shows for a block that is taken away.
-/

namespace Lithium
open Lib List WalletView
variable {block : BlockInfo} {x tx : CTransaction} {inMempool : Uint256 → Bool}

/-- The transactions of an event. -/
def WalletEvent.txs : WalletEvent → List CTransaction
  | .blockConnected _ block => block.vtx
  | .blockDisconnected block => block.vtx
  | .transactionAddedToMempool _ tx => [tx]
  | .transactionRemovedFromMempool _ tx _ => [tx]
  | .commitTransaction tx _ => [tx]
  | .abandonTransaction _ => []
  | .getBalance _ _ => []

def WalletEvent.txSet (e : WalletEvent) : Set CTransaction := {x | x ∈ e.txs}

/-- The transactions of the event are among those that are seen, and a connected block
has a height. -/
def WalletEvent.Within (U : Set CTransaction) (e : WalletEvent) : Prop :=
  (∀ x ∈ e.txs, x ∈ U) ∧ ∀ inMempool block, e = .blockConnected inMempool block → 0 ≤ block.height

namespace CWallet

/-- When the tip moves and a spender comes to count or ceases to, whatever it spends from
is also spent from by a transaction of the block that is in the wallet. -/
def TipCovered {κ δ : Type} (w : CWallet κ δ) (height : Int) (block : BlockInfo) : Prop :=
  ∀ {p wtx}, w.getWalletTx p = some wtx → ∀ y i, (⟨p, i⟩, y) ∈ w.mapTxSpends →
    (∃ ytx, w.getWalletTx y = some ytx ∧
      ytx.state.counts height ≠ ytx.state.counts w.lastBlockProcessedHeight) →
    ∃ x ∈ block.vtx, SpentBy x.vin p ∧ ∃ xtx, w.getWalletTx x.getHash = some xtx

end CWallet

/-- The condition on an event, about the wallet before it. -/
def WalletEvent.Covered {κ δ : Type} [DecidableEq δ] (ops : KeyOps κ δ) (U : Set CTransaction)
    (w : CWallet κ δ) (e : WalletEvent) : Prop :=
  CWallet.Foreseen ops U e.txSet w ∧ match e with
    | .blockConnected _ block => w.TipCovered block.height block
    | .blockDisconnected block => w.TipCovered (block.height - 1) block
    | .transactionRemovedFromMempool inMempool tx reason => reason ≠ .conflict →
        inMempool tx.getHash = true → ∀ wtx, w.getWalletTx tx.getHash = some wtx →
          wtx.state.counts w.lastBlockProcessedHeight = true
    | .commitTransaction tx _ => ∀ txin ∈ tx.vin, ∃ wtx, w.getWalletTx txin.prevout.hash = some wtx
    | _ => True

namespace CWallet
variable {κ δ : Type} [DecidableEq δ] {ops : KeyOps κ δ} {U T : Set CTransaction}
  {w₀ w w' : CWallet κ δ} {D : Set Uint256}

/-! ### One event -/

theorem tracked_refl (h : w.view.Linked U) : Tracked ops U T w ∅ w where
  linked := h
  caches := .refl w
  later := .refl
  avoidReuse := rfl
  stays hnone := hnone
  fresh hget hnone := by
    rw [hnone] at hget
    cases hget
  spent _ _ _ := Iff.rfl
  used _ _ _ _ _ _ _ := rfl

/-- Nothing is outdated if what might be has not been in the wallet. -/
theorem Tracked.discharge (h : Tracked ops U T w₀ D w) (hD : ∀ p ∈ D, w₀.getWalletTx p = none) :
    Tracked ops U T w₀ ∅ w := by
  refine { h with spent := fun {p} hp _ => h.spent hp fun hpD => ?_ }
  obtain ⟨wtx, hget, -⟩ := h.caches.cached hp
  rw [hD p hpD] at hget
  cases hget

/-- The transactions that the new height makes outdated. -/
def OutdatedAt (w : CWallet κ δ) (height : Int) : Set Uint256 :=
  {p | ∃ y i, (⟨p, i⟩, y) ∈ w.mapTxSpends ∧ ∃ ytx, w.getWalletTx y = some ytx ∧
    ytx.state.counts height ≠ ytx.state.counts w.lastBlockProcessedHeight}

theorem tracked_height (h : w.view.Linked U) (height : Int) (hash : Uint256) :
    Tracked ops U T w (w.OutdatedAt height)
      { w with lastBlockProcessedHeight := height, lastBlockProcessed := hash } := by
  have hrefl : Tracked ops U T w ∅ w := tracked_refl h
  refine hrefl.step ⟨h.known, h.spends_iff⟩ ⟨hrefl.caches.cache⟩ rfl rfl rfl
    (fun hget => ⟨_, hget, rfl⟩)
    (fun hnone => hnone) fun {p} _ hD => ⟨Set.notMem_empty p, spentAt_congr rfl ?_⟩
  intro y i hmem
  cases hget : w.getWalletTx y with
  | none =>
    have hnone : w.view.entry y = none := view_entry_eq_none.mpr hget
    refine iff_of_false ?_ ?_
    · rintro ⟨tx, s, hent, -⟩
      exact absurd (hnone.symm.trans hent) (by simp)
    · rintro ⟨tx, s, hent, -⟩
      exact absurd (hnone.symm.trans hent) (by simp)
  | some ytx =>
    have hent := view_entry_eq_some hget
    have hent' : (view { w with lastBlockProcessedHeight := height, lastBlockProcessed := hash
        }).entry y = some (ytx.tx, ytx.state) := hent
    rw [counts_iff hent', counts_iff hent]
    refine Bool.eq_iff_iff.mp ?_
    by_contra hne
    exact hD ⟨y, i, hmem, ytx, hget, hne⟩

/-- What is still outdated while the transactions in the list are to come. -/
def Pending (w₀ : CWallet κ δ) (height : Int) (block : BlockInfo) (l : List CTransaction) :
    Set Uint256 :=
  {p | p ∈ w₀.OutdatedAt height ∧ ∀ x ∈ block.vtx, (∃ xtx, w₀.getWalletTx x.getHash = some xtx) →
    SpentBy x.vin p → x ∈ l}

theorem Tracked.pending {height : Int} {l : List CTransaction}
    (h : Tracked ops U T w₀ (Pending w₀ height block (x :: l)) w)
    (h' : Tracked ops U T w₀ (Pending w₀ height block (x :: l) \
      {p | SpentBy x.vin p ∧ ∃ wtx, w.getWalletTx x.getHash = some wtx}) w') :
    Tracked ops U T w₀ (Pending w₀ height block l) w' := by
  refine h'.mono ?_
  rintro p ⟨⟨hp, hcome⟩, hnot⟩
  refine ⟨hp, fun y hy hsto hspent => ?_⟩
  rcases mem_cons.mp (hcome y hy hsto hspent) with rfl | hyl
  · refine absurd ⟨hspent, ?_⟩ hnot
    by_contra hnone
    rw [← Option.ne_none_iff_exists', not_not] at hnone
    obtain ⟨xtx, hget⟩ := hsto
    rw [h.stays hnone] at hget
    cases hget
  · exact hyl

theorem Tracked.covered {height : Int} (hcov : w₀.TipCovered height block)
    (h : Tracked ops U T w₀ (Pending w₀ height block []) w) : Tracked ops U T w₀ ∅ w := by
  refine h.discharge ?_
  rintro p ⟨⟨y, i, hmem, hcnts⟩, hcome⟩
  by_contra hsome
  obtain ⟨wtx, hget⟩ := Option.ne_none_iff_exists'.mp hsome
  obtain ⟨x, hx, hspent, hsto⟩ := hcov hget y i hmem hcnts
  cases hcome x hx hsto hspent

theorem syncTransaction_height (hU : TxUniverse U) (h : w.view.Linked U) {state : SyncTxState}
    (hst : w.AtTip state) (hw' : w.syncTransaction ops x state true = .ok w') :
    w'.lastBlockProcessedHeight = w.lastBlockProcessedHeight := by
  have hconfs : ∃ w₁, w.markConflicts x state = .ok w₁ ∧ w₁.view.height = w.view.height := by
    cases state with
    | confirmed b height i =>
      obtain ⟨hht, hnn⟩ := hst b height i rfl
      let block : BlockInfo := ⟨b, b, height, []⟩
      have hht' : w.lastBlockProcessedHeight = block.height := hht
      obtain ⟨w₁, hw₁, -, hsame, -⟩ :=
        markConflicts_confirmed hU h (x := x) (i := i) hht' hnn
      exact ⟨w₁, hw₁, hsame⟩
    | inMempool | inactive abandoned => exact ⟨w, rfl, rfl⟩
  obtain ⟨w₁, hw₁, hsame⟩ := hconfs
  rcases syncTransaction_of_markConflicts state hw₁ hw' with ⟨-, hview⟩ | hadded
  · exact (congrArg height hview).trans hsame
  · exact hadded.height.trans hsame

omit [DecidableEq δ] in
/-- The stored copy of a transaction spends from what the transaction spends from. -/
theorem spentBy_of_stored (hU : TxUniverse U) (h : w.view.Linked U) (hx : x ∈ U) {wtx : CWalletTx}
    (hget : w.getWalletTx x.getHash = some wtx) {p : Uint256} (hspent : SpentBy wtx.tx.vin p) :
    SpentBy x.vin p := by
  obtain ⟨htx, hhash⟩ := h.known (view_entry_eq_some hget)
  obtain ⟨txin, htxin, rfl⟩ := hspent
  obtain ⟨txin', htxin', hprev⟩ :=
    (hU.spends_iff htx hx hhash txin.prevout).mp ⟨txin, htxin, rfl⟩
  exact ⟨txin', htxin', by rw [hprev]⟩

/-- A notification about a transaction, and the look at the mempool after it. -/
theorem Tracked.syncAndRefresh (hp : Prepared ops U T w₀) (h : Tracked ops U T w₀ D w) (hx : x ∈ T)
    {state : SyncTxState} (hst : w.AtTip state)
      (hw' : w.syncTransaction ops x state true = .ok w') :
    Tracked ops U T w₀ (D \ {p | SpentBy x.vin p ∧ ∃ wtx, w.getWalletTx x.getHash = some wtx})
      (w'.refreshMempoolStatus inMempool x.getHash) := by
  have hsynced := h.syncTransaction hp hx hst hw'
  refine hsynced.refreshMempoolStatus fun _ {wtx} hget => ?_
  rcases uncached_inputs_of_sync hw' with hnone | huncached
  · rw [hget] at hnone
    cases hnone
  · exact .inl fun p hspent =>
      huncached p (spentBy_of_stored hp.ids hsynced.linked (hp.sub hx) hget hspent)

theorem tracked_blockConnected (hp : Prepared ops U {x | x ∈ block.vtx} w)
    (hnn : 0 ≤ block.height) (hcov : w.TipCovered block.height block)
    (hw' : w.blockConnected ops inMempool block = .ok w') :
    Tracked ops U {x | x ∈ block.vtx} w ∅ w' := by
  have hrule := ends_foldlM (f := connectTx ops inMempool block)
    (I := fun l w' => Tracked ops U {x | x ∈ block.vtx} w
      (Pending w block.height block (l.map Prod.fst)) w' ∧
      w'.lastBlockProcessedHeight = block.height ∧ ∀ e ∈ l, e.1 ∈ block.vtx)
    (E := fun _ => True) (l := block.vtx.zipIdx) ?_
    ⟨(tracked_height hp.linked block.height block.hash).mono ?_, rfl, ?_⟩
  · exact (hrule.1 w' hw').1.covered hcov
  · rintro ⟨x, i⟩ l w₁ ⟨h₁, hht, hmem⟩
    refine ⟨fun w₂ hw₂ => ?_, fun _ _ => trivial⟩
    obtain ⟨w₃, hsync, hrem⟩ := bind_eq_ok.mp hw₂
    cases hrem
    have hx : x ∈ block.vtx := hmem _ mem_cons_self
    have hst : ∀ b height j,
      SyncTxState.confirmed block.hash block.height i = .confirmed b height j →
        w₁.lastBlockProcessedHeight = height ∧ 0 ≤ height := by
      rintro b height j hsame
      cases hsame
      exact ⟨hht, hnn⟩
    refine ⟨h₁.pending (h₁.syncAndRefresh hp hx hst hsync), ?_, fun e he => hmem e (.tail _ he)⟩
    exact (syncTransaction_height hp.ids h₁.linked hst hsync).trans hht
  · rw [zipIdx_map_fst]
    exact fun p hpD => ⟨hpD, fun x hx _ _ => hx⟩
  · intro e he
    exact (mem_zipIdx' he).2 ▸ getElem_mem _

theorem tracked_blockDisconnected (hp : Prepared ops U {x | x ∈ block.vtx} w)
    (hcov : w.TipCovered (block.height - 1) block)
    (hw' : w.blockDisconnected ops block = .ok w') : Tracked ops U {x | x ∈ block.vtx} w ∅ w' := by
  have hrule := ends_foldlM (f := fun w tx => syncTransaction ops w tx (.inactive false) true)
    (I := fun l w' =>
      Tracked ops U {x | x ∈ block.vtx} w (Pending w (block.height - 1) block l) w' ∧
      ∀ x ∈ l, x ∈ block.vtx)
    (E := fun _ => True) (l := block.vtx) ?_
    ⟨(tracked_height hp.linked (block.height - 1) block.prevHash).mono ?_, fun _ hx => hx⟩
  · exact (hrule.1 w' hw').1.covered hcov
  · rintro x l w₁ ⟨h₁, hmem⟩
    refine ⟨fun w₂ hsync => ⟨h₁.pending
      (h₁.syncTransaction hp (hmem x mem_cons_self) (fun _ _ _ h => by cases h) hsync),
        fun y hy => hmem y (.tail _ hy)⟩, fun _ _ => trivial⟩
  · exact fun p hpD => ⟨hpD, fun x hx _ _ => hx⟩

section
variable (hp : Prepared ops U {x | x ∈ [tx]} w)

include hp

theorem tracked_transactionAddedToMempool
    (hw' : w.transactionAddedToMempool ops inMempool tx = .ok w') :
    Tracked ops U {x | x ∈ [tx]} w ∅ w' := by
  obtain ⟨w₁, hsync, hrefresh⟩ := bind_eq_ok.mp hw'
  cases hrefresh
  exact ((tracked_refl hp.linked).syncAndRefresh hp (mem_singleton_self tx)
    (fun _ _ _ h => by cases h)
    hsync).mono (Set.sdiff_subset)

theorem tracked_transactionRemovedFromMempool
    {reason : MemPoolRemovalReason} (hcnts : reason ≠ .conflict → inMempool tx.getHash = true →
      ∀ wtx, w.getWalletTx tx.getHash = some wtx →
        wtx.state.counts w.lastBlockProcessedHeight = true)
    (hw' : w.transactionRemovedFromMempool ops inMempool tx reason = .ok w') :
    Tracked ops U {x | x ∈ [tx]} w ∅ w' := by
  have hrefl : Tracked ops U {x | x ∈ [tx]} w ∅ w := tracked_refl hp.linked
  rw [transactionRemovedFromMempool] at hw'
  split_ifs at hw' with hreason
  · -- the state is outdated only until the transaction is synchronised
    have htx : tx ∈ {x | x ∈ [tx]} := mem_singleton_self tx
    cases hget : w.getWalletTx tx.getHash with
    | none =>
      have href : Tracked ops U {x | x ∈ [tx]} w ∅
          (w.refreshMempoolStatus inMempool tx.getHash) := by
        refine hrefl.refreshMempoolStatus fun _ {wtx} hget' => ?_
        rw [hget] at hget'
        cases hget'
      exact (href.syncTransaction hp htx (fun _ _ _ h => by cases h) hw').mono
        Set.sdiff_subset
    | some wtx =>
      have href : Tracked ops U {x | x ∈ [tx]} w (∅ ∪ {p | SpentBy tx.vin p})
          (w.refreshMempoolStatus inMempool tx.getHash) := by
        refine hrefl.update hp.ids (hp.sub htx) hget (fun wtx => ?_) (.inl ?_)
        · split_ifs <;> exact ⟨rfl, rfl⟩
        · split_ifs <;> rfl
      refine (href.syncTransaction hp htx (fun _ _ _ h => by cases h) hw').mono ?_
      rintro p ⟨hemp | hspent, hnot⟩
      · exact hemp
      · refine absurd ⟨hspent, ?_⟩ hnot
        rw [refreshMempoolStatus, getWalletTx_modifyTx_self, hget]
        exact ⟨_, rfl⟩
  · cases hw'
    exact hrefl.refreshMempoolStatus fun hin {wtx} hget => .inr (hcnts hreason hin wtx hget)

theorem tracked_commitTransaction
    (hkn : ∀ txin ∈ tx.vin, ∃ wtx, w.getWalletTx txin.prevout.hash = some wtx)
    {accepted found : Bool} (hw' : w.commitTransaction ops tx accepted = .ok (w', found)) :
    Tracked ops U {x | x ∈ [tx]} w ∅ w' := by
  obtain ⟨w₁, hadd, hw'⟩ := bind_eq_ok.mp hw'
  have hadded := (tracked_refl hp.linked).addToWallet hp (mem_singleton_self tx) hadd
  have hkn₁ : ∀ txin ∈ tx.vin, ∃ wtx, w₁.getWalletTx txin.prevout.hash = some wtx := by
    intro txin htxin
    obtain ⟨wtx, hget⟩ := hkn txin htxin
    rw [← Option.ne_none_iff_exists']
    intro hnone
    rw [hadded.stays hnone] at hget
    cases hget
  obtain ⟨hfound, hmark⟩ := hadded.markCoinsDirty hkn₁
  cases hw'
  rw [hfound, if_pos rfl]
  refine (hmark.submitTxMemoryPoolAndRelay tx.getHash accepted).mono ?_
  rintro p ⟨hemp | hspent, hnot⟩
  · exact hemp
  · exact absurd hspent hnot

end

theorem tracked_abandonTransaction (hp : Prepared ops U T w) {t : Uint256} {abandoned : Bool}
    (hw' : w.abandonTransaction t = .ok (w', abandoned)) : Tracked ops U T w ∅ w' := by
  rw [abandonTransaction] at hw'
  split at hw'
  · cases hw'
  · split_ifs at hw'
    · cases hw'
      exact tracked_refl hp.linked
    · obtain ⟨w₁, hmark, hw'⟩ := bind_eq_ok.mp hw'
      cases hw'
      obtain ⟨A, hA⟩ := marked_of_markDescendants hmark
      exact (tracked_refl hp.linked).marked hA

theorem handle_keeps_fresh (hU : TxUniverse U) (hlink : w.view.Linked U) (hfr : w.CacheFresh ops)
    {e : WalletEvent} (hwithin : e.Within U) (hcov : e.Covered ops U w)
    (hw' : w.handle ops e = .ok w') : w'.view.Linked U ∧ w'.CacheFresh ops := by
  have hp : Prepared ops U e.txSet w := ⟨hU, hwithin.1, hlink, hcov.1, hfr⟩
  have hdone : ∀ {w'}, Tracked ops U e.txSet w ∅ w' → w'.view.Linked U ∧ w'.CacheFresh ops :=
    fun h => ⟨h.linked, h.cacheFresh hU hwithin.1 hlink hcov.1 hfr⟩
  cases e with
  | blockConnected inMempool block =>
    exact hdone (tracked_blockConnected hp (hwithin.2 inMempool block rfl) hcov.2 hw')
  | blockDisconnected block => exact hdone (tracked_blockDisconnected hp hcov.2 hw')
  | transactionAddedToMempool inMempool tx => exact hdone (tracked_transactionAddedToMempool hp hw')
  | transactionRemovedFromMempool inMempool tx reason =>
    exact hdone (tracked_transactionRemovedFromMempool hp hcov.2 hw')
  | commitTransaction tx accepted =>
    obtain ⟨⟨w₁, found⟩, hcommit, rfl⟩ := map_eq_ok.mp hw'
    exact hdone (tracked_commitTransaction hp hcov.2 hcommit)
  | abandonTransaction txid =>
    obtain ⟨⟨w₁, abandoned⟩, hab, rfl⟩ := map_eq_ok.mp hw'
    exact hdone (tracked_abandonTransaction hp hab)
  | getBalance minDepth avoidReuse =>
    have hblind : WalletM.Blind ops (getBalance ops minDepth avoidReuse) :=
      blind_getBalance minDepth avoidReuse
    have hfr' := (hblind.blind w hfr).1
    have hlink' : (getBalance ops minDepth avoidReuse w).2.view.Linked U := by
      rw [← view_clear, (hblind.quiet w.clear w rfl).1, view_clear]
      exact hlink
    rw [handle] at hw'
    split at hw'
    · next hrun =>
      cases hw'
      rw [hrun] at hfr' hlink'
      exact ⟨hlink', hfr'⟩
    · next hrun =>
      cases hw'
      rw [hrun] at hfr' hlink'
      exact ⟨hlink', hfr'⟩
    · cases hw'

/-- **Balances do not depend on caches.** In every run whose events all meet the
condition, from a wallet whose cached amounts are right, the balance is the one that
the wallet would give without any cached amounts. -/
theorem balance_ignores_caches (hU : TxUniverse U) (hlink : w.view.Linked U)
    (hfr : w.CacheFresh ops) {events : List WalletEvent}
    (hrun : Run (fun w e w' => (w.handle ops e = .ok w' ∧ e.Within U) ∧ e.Covered ops U w) w
      events w')
    (minDepth : Int) (avoidReuse : Bool) : (getBalance ops minDepth avoidReuse w').1 =
      (getBalance ops minDepth avoidReuse w'.clear).1 := by
  have hfin : w'.view.Linked U ∧ w'.CacheFresh ops :=
    hrun.invariant (I := fun w => w.view.Linked U ∧ w.CacheFresh ops) ⟨hlink, hfr⟩
      fun hI hstep => handle_keeps_fresh hU hI.1 hI.2 hstep.1.2 hstep.2 hstep.1.1
  exact ((blind_getBalance minDepth avoidReuse).blind w' hfin.2).2

end CWallet

/-! ### A mark on a transaction with another parent

The rival of a payment from two coins is in a block, which is taken away again. The mark
on the payment has then no depth, so that the second coin is spent as before; but only
the transactions that the rival spends from are told. -/

namespace TwoCoins

def wallet : CWallet Unit Unit := fresh.wallet

def rivalry : List WalletEvent := [
  .blockConnected noMempool withCoins,
  .commitTransaction payment true,
  .transactionRemovedFromMempool noMempool payment .conflict,
  .blockConnected noMempool withRival,
  .getBalance 0 false,
  .blockDisconnected withRival]

def trusted (w : CWallet Unit Unit) : Option Int :=
  (CWallet.getBalance ops 0 false w).1.toOption.map Balance.mineTrusted

theorem within : ∀ e ∈ .getBalance 0 false :: rivalry, e.Within U := by
  have hevents : ∀ e ∈ .getBalance 0 false :: rivalry, ∀ x ∈ e.txs, x ∈ transactions := by
    decide +kernel
  intro e he
  refine ⟨hevents e he, ?_⟩
  rintro inMempool block rfl
  have hht : ∀ n : Int, n = 2 ∨ n = 3 → 0 ≤ n := by omega
  refine hht _ ?_
  simp only [rivalry, mem_cons, WalletEvent.blockConnected.injEq, reduceCtorEq, false_or,
    not_mem_nil, or_false] at he
  rcases he with ⟨-, rfl⟩ | ⟨-, rfl⟩
  · exact .inl rfl
  · exact .inr rfl

theorem cacheFresh : wallet.CacheFresh ops := ⟨nofun, nofun⟩

theorem foreseen {T : Set CTransaction} {w : CWallet Unit Unit} (havoid : w.avoidReuse = false)
    (hpars : ∀ x ∈ T, ∀ e ∈ w.mapWallet.entries, ∀ txin ∈ e.2.tx.vin,
      txin.prevout.hash ≠ x.getHash) : CWallet.Foreseen ops U T w where
  answers _ _ _ _ _ := ⟨rfl, rfl⟩
  parents x hx _ t wtx hget := by
    rintro o ⟨txin, hmem, rfl⟩ hhash
    exact absurd hhash (hpars x hx _ ((w.mapWallet.mem_entries_iff t wtx).mpr hget) txin hmem)
  reuse h := by
    rw [havoid] at h
    cases h

/-- What makes a payment from the wallet one that is covered. -/
def Ready (w : CWallet Unit Unit) : Prop :=
  w.avoidReuse = false ∧
    (∀ e ∈ w.mapWallet.entries, ∀ txin ∈ e.2.tx.vin, txin.prevout.hash ≠ payment.getHash) ∧
    ∀ txin ∈ payment.vin, (w.getWalletTx txin.prevout.hash).isSome

instance (w : CWallet Unit Unit) : Decidable (Ready w) := inferInstanceAs (Decidable (_ ∧ _))

/-- The coins come, a balance is asked for, and the payment is made. -/
def paid : Except WalletAbort (CWallet Unit Unit × CWallet Unit Unit × CWallet Unit Unit) := do
  let w₁ ← wallet.handle ops (.blockConnected noMempool withCoins)
  let w₂ ← w₁.handle ops (.getBalance 0 false)
  let w₃ ← w₂.handle ops (.commitTransaction payment true)
  pure (w₁, w₂, w₃)

theorem exists_paid : ∃ w₁ w₂ w₃, wallet.handle ops (.blockConnected noMempool withCoins) = .ok w₁ ∧
    w₁.handle ops (.getBalance 0 false) = .ok w₂ ∧
    w₂.handle ops (.commitTransaction payment true) = .ok w₃ ∧
    w₁.avoidReuse = false ∧ Ready w₂ ∧
    (w₂.getWalletTx firstCoin.getHash).map CWalletTx.isCacheEmpty = some false ∧
    trusted w₂ = some 300 ∧ trusted w₃ = some 0 := by
  have hpaid : (paid.map fun (w₁, w₂, w₃) => decide (w₁.avoidReuse = false ∧ Ready w₂ ∧
      (w₂.getWalletTx firstCoin.getHash).map CWalletTx.isCacheEmpty = some false ∧
      trusted w₂ = some 300 ∧ trusted w₃ = some 0)).toOption = some true := by
    decide +kernel
  obtain ⟨⟨w₁, w₂, w₃⟩, hrun, hfacts⟩ := exists_of_toOption_map hpaid
  obtain ⟨w₁', hfst, hrun⟩ := bind_eq_ok.mp hrun
  obtain ⟨w₂', hsecond, hrun⟩ := bind_eq_ok.mp hrun
  obtain ⟨w₃', hthird, hrun⟩ := bind_eq_ok.mp hrun
  cases hrun
  exact ⟨w₁, w₂, w₃, hfst, hsecond, hthird, of_decide_eq_true hfacts⟩

theorem balances : ((rivalry.foldlM (CWallet.handle ops) wallet).map fun w =>
      (trusted w, trusted w.clear)).toOption = some (some 200, some 0) := by
  decide +kernel

end TwoCoins

open TwoCoins CWallet in
/-- The theorem after a payment from coins whose amounts have been cached. -/
theorem balance_ignores_caches_paid : ∃ w w',
    w.handle ops (.commitTransaction payment true) = .ok w' ∧
    (w.getWalletTx firstCoin.getHash).map CWalletTx.isCacheEmpty = some false ∧
    trusted w = some 300 ∧ trusted w' = some 0 ∧
    (getBalance ops 0 false w').1 = (getBalance ops 0 false w'.clear).1 := by
  obtain ⟨w₁, w₂, w₃, hfst, hsecond, hthird, havoid, ⟨havoid', hpars, hsto⟩, hcached,
    hbef, haft⟩ := exists_paid
  have hconnect : (WalletEvent.blockConnected noMempool withCoins).Covered ops U wallet :=
    ⟨foreseen rfl nofun, nofun⟩
  have hbalance : (WalletEvent.getBalance 0 false).Covered ops U w₁ :=
    ⟨foreseen havoid nofun, trivial⟩
  have hcommit : (WalletEvent.commitTransaction payment true).Covered ops U w₂ := by
    refine ⟨foreseen havoid' fun x hx => ?_, fun txin hmem => ?_⟩
    · obtain rfl := mem_singleton.mp hx
      exact hpars
    · exact Option.isSome_iff_exists.mp (hsto txin hmem)
  refine ⟨w₂, w₃, hthird, hcached, hbef, haft, ?_⟩
  exact balance_ignores_caches txUniverse sound.truthful.linked cacheFresh
    (((Run.nil.snoc ⟨⟨hfst, within _ (by simp [rivalry])⟩, hconnect⟩).snoc
      ⟨⟨hsecond, within _ (by simp)⟩, hbalance⟩).snoc
      ⟨⟨hthird, within _ (by simp [rivalry])⟩, hcommit⟩) 0 false

open TwoCoins in
/-- After the rival's block has been taken away, the second coin is spent by our payment,
and the balance still has it. -/
theorem stale_balance_after_disconnect : TxUniverse U ∧ wallet.view.Linked U ∧
    wallet.CacheFresh ops ∧
    ∃ w, Run (fun w e w' => w.handle ops e = .ok w' ∧ e.Within U) wallet rivalry w ∧
      (CWallet.getBalance ops 0 false w).1.toOption.map Balance.mineTrusted = some 200 ∧
      (CWallet.getBalance ops 0 false w.clear).1.toOption.map Balance.mineTrusted = some 0 := by
  refine ⟨txUniverse, sound.truthful.linked, cacheFresh, ?_⟩
  obtain ⟨w, hevents, hboth⟩ := exists_of_toOption_map balances
  exact ⟨w, run_of_foldlM (fun e he => within e (mem_cons_of_mem _ he)) hevents,
    congrArg Prod.fst hboth, congrArg Prod.snd hboth⟩

end Lithium
