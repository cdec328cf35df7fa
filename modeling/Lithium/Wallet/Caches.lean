import Lithium.Wallet.Assertions

/-!
# Cached amounts through the functions of the wallet

What a cached amount was computed from: the answers of the script managers about the
outputs, the transactions that are spent from, whether the outputs count as spent, and
whether their addresses have been used. While an event is worked off, the transactions
that still have cached amounts are compared with the wallet before the event. Some of
them may be outdated for a moment; these are kept as a set, which has to be empty in
the end.
-/

namespace Lithium
open Option WalletView CTxIn CWalletTx
variable {tx : CTransaction} {s : TxState} {t : Uint256}

/-! ### Spenders that count -/

namespace TxState

/-- `IsSpent` counts a spender in this state. -/
def counts (lastBlockHeight : Int) (s : TxState) : Bool :=
  decide (s.depth lastBlockHeight > 0) || (decide (s.depth lastBlockHeight = 0) && !s.isAbandoned)

end TxState

namespace WalletView

def Counts (v : WalletView) (t : Uint256) : Prop :=
  ∃ tx s, v.entry t = some (tx, s) ∧ s.counts v.height = true

/-- The outpoint is spent by a transaction that counts. -/
def SpentAt (v : WalletView) (o : COutPoint) : Prop := ∃ y, (o, y) ∈ v.spends ∧ v.Counts y

variable {v v' : WalletView}

theorem counts_congr (hent : v'.entry t = v.entry t) (hht : v'.height = v.height) :
    v'.Counts t ↔ v.Counts t := by
  rw [Counts, Counts, hent, hht]

theorem counts_iff (h : v.entry t = some (tx, s)) : v.Counts t ↔ s.counts v.height = true := by
  constructor
  · rintro ⟨tx', s', hent, hs⟩
    rw [h] at hent
    cases hent
    exact hs
  · exact fun hs => ⟨tx, s, h, hs⟩

/-- Outputs whose spenders stand as before are spent as before. -/
theorem spentAt_congr {p : Uint256} (hsp : v'.spends = v.spends)
    (hcnts : ∀ y i, (⟨p, i⟩, y) ∈ v.spends → (v'.Counts y ↔ v.Counts y)) (i : UInt32) :
    v'.SpentAt ⟨p, i⟩ ↔ v.SpentAt ⟨p, i⟩ := by
  rw [SpentAt, SpentAt, hsp]
  exact exists_congr fun y => and_congr_right fun hmem => hcnts y i hmem

end WalletView

theorem CWallet.isSpent_iff {κ δ : Type} {w : CWallet κ δ} {o : COutPoint} :
    w.isSpent o = true ↔ w.view.SpentAt o := by
  rw [isSpent, List.any_eq_true, SpentAt]
  constructor
  · rintro ⟨y, hy, hcnts⟩
    refine ⟨y, mem_spendersOf.mp hy, ?_⟩
    cases hget : w.getWalletTx y with
    | none =>
      rw [hget] at hcnts
      cases hcnts
    | some wtx =>
      rw [hget] at hcnts
      exact ⟨_, _, view_entry_eq_some hget, hcnts⟩
  · rintro ⟨y, hmem, tx, s, hent, hcnts⟩
    obtain ⟨wtx, hget, rfl, rfl⟩ := exists_of_view_entry hent
    refine ⟨y, mem_spendersOf.mpr hmem, ?_⟩
    rw [hget]
    exact hcnts

/-! ### Caches that are kept or dropped -/

def CWalletTx.Uncached (wtx : CWalletTx) : Prop := ∀ type filter, wtx.amounts type filter = none

variable {f : CWalletTx → CWalletTx}

theorem CWalletTx.uncached_markDirty (wtx : CWalletTx) : wtx.markDirty.Uncached := fun _ _ => rfl

namespace CWallet
variable {κ δ : Type}

def Cached (w : CWallet κ δ) (p : Uint256) : Prop := ∃ wtx, w.getWalletTx p = some wtx ∧
    ¬ wtx.Uncached

theorem not_cached_of_map {w : CWallet κ δ} {o : Option CWalletTx} (hf : ∀ wtx, (f wtx).Uncached)
    (h : w.getWalletTx t = o.map f) : ¬ w.Cached t := by
  rintro ⟨wtx, hget, hsome⟩
  rw [h, map_eq_some_iff] at hget
  obtain ⟨wtx₁, -, rfl⟩ := hget
  exact hsome (hf wtx₁)

theorem not_cached_markInputsDirty (w : CWallet κ δ) (h : SpentBy tx.vin t) :
    ¬ (w.markInputsDirty tx).Cached t :=
  not_cached_of_map uncached_markDirty (by rw [getWalletTx_markInputsDirty, if_pos h])

/-- Every cache of the second wallet is empty or the one of the first. -/
structure CachesFrom (w w' : CWallet κ δ) : Prop where
  cache : ∀ {t wtx'}, w'.getWalletTx t = some wtx' → wtx'.Uncached ∨ ∃ wtx,
    w.getWalletTx t = some wtx ∧
    wtx'.amounts = wtx.amounts ∧ wtx'.isCacheEmpty = wtx.isCacheEmpty

variable {w w' w'' : CWallet κ δ}

theorem CachesFrom.refl (w : CWallet κ δ) : CachesFrom w w := ⟨fun h => .inr ⟨_, h, rfl, rfl⟩⟩

theorem CachesFrom.trans (h : CachesFrom w w') (h' : CachesFrom w' w'') : CachesFrom w w'' := by
  refine ⟨fun {t wtx''} hget => ?_⟩
  rcases h'.cache hget with hemp | ⟨wtx', hget', hamts, hflag⟩
  · exact .inl hemp
  · rcases h.cache hget' with hemp | ⟨wtx, hget₀, hamts', hflag'⟩
    · exact .inl fun type filter => by rw [hamts, hemp]
    · exact .inr ⟨wtx, hget₀, hamts.trans hamts', hflag.trans hflag'⟩

theorem CachesFrom.cached (h : CachesFrom w w') {p : Uint256} (hp : w'.Cached p) : w.Cached p := by
  obtain ⟨wtx', hget, hsome⟩ := hp
  rcases h.cache hget with hemp | ⟨wtx, hget₀, hamts, -⟩
  · exact absurd hemp hsome
  · exact ⟨wtx, hget₀, fun hemp => hsome fun type filter => by rw [hamts, hemp]⟩

/-- An entry-wise change that keeps or drops caches. -/
theorem cachesFrom_of_map (h : ∀ t, w'.getWalletTx t = w.getWalletTx t ∨
    ∃ f : CWalletTx → CWalletTx, w'.getWalletTx t = (w.getWalletTx t).map f ∧
      ∀ wtx, (f wtx).Uncached ∨
        ((f wtx).amounts = wtx.amounts ∧ (f wtx).isCacheEmpty = wtx.isCacheEmpty)) :
    CachesFrom w w' := by
  refine ⟨fun {t wtx'} hget => ?_⟩
  rcases h t with hsame | ⟨f, hmap, hf⟩
  · exact .inr ⟨wtx', by rw [← hsame, hget], rfl, rfl⟩
  · rw [hmap, map_eq_some_iff] at hget
    obtain ⟨wtx, hget₀, rfl⟩ := hget
    rcases hf wtx with hemp | ⟨hamts, hflag⟩
    · exact .inl hemp
    · exact .inr ⟨wtx, hget₀, hamts, hflag⟩

theorem cachesFrom_modifyTx (w : CWallet κ δ) (t : Uint256) (hf : ∀ wtx, (f wtx).Uncached ∨
      ((f wtx).amounts = wtx.amounts ∧ (f wtx).isCacheEmpty = wtx.isCacheEmpty)) :
    CachesFrom w (w.modifyTx t f) := by
  refine cachesFrom_of_map fun n => ?_
  rw [getWalletTx_modifyTx]
  split_ifs
  · exact .inr ⟨f, rfl, hf⟩
  · exact .inl rfl

theorem cachesFrom_marked {A : Set Uint256} (h : Marked s w A w') : CachesFrom w w' := by
  refine cachesFrom_of_map fun t => ?_
  by_cases ht : t ∈ A
  · exact .inr ⟨_, h.marked t ht, fun wtx => .inl fun _ _ => rfl⟩
  · by_cases hin : w.InputOf A t
    · exact .inr ⟨_, h.dirtied t ht hin, fun wtx => .inl fun _ _ => rfl⟩
    · exact .inl (h.same t ht hin)

theorem cachesFrom_markInputsDirty (w : CWallet κ δ) (tx : CTransaction) :
    CachesFrom w (w.markInputsDirty tx) := by
  refine cachesFrom_of_map fun t => ?_
  rw [getWalletTx_markInputsDirty]
  split_ifs
  · exact .inr ⟨_, rfl, fun wtx => .inl fun _ _ => rfl⟩
  · exact .inl rfl

end CWallet

/-! ### The wallet before an event and a wallet on the way -/

/-- States of the managers after calls of `MarkUnusedAddresses` for scripts that the
transactions of a set pay to. -/
def KeyOps.Later {κ δ : Type} (ops : KeyOps κ δ) (T : Set CTransaction) : κ → κ → Prop :=
  Relation.ReflTransGen fun k k' =>
    ∃ x ∈ T, ∃ txout ∈ x.vout, k' = ops.markUnusedAddresses k txout.scriptPubKey

namespace CWallet
variable {κ δ : Type} [DecidableEq δ] {ops : KeyOps κ δ} {U T : Set CTransaction}
  {w₀ w w' : CWallet κ δ} {D D' : Set Uint256}

/-- What the transactions `T` of an event must not bring about: new answers of the
managers about stored outputs, a parent with an output of the wallet that a stored
transaction spends already, and the use of an address that a stored output is paid to
under another name. -/
structure Foreseen (ops : KeyOps κ δ) (U T : Set CTransaction) (w : CWallet κ δ) : Prop where
  answers : ∀ {t wtx}, w.getWalletTx t = some wtx → ∀ txout ∈ wtx.tx.vout, ∀ k,
    ops.Later T w.keys k →
    ops.isMine k txout.scriptPubKey = ops.isMine w.keys txout.scriptPubKey ∧
      ops.affectedDestinations k txout.scriptPubKey =
        ops.affectedDestinations w.keys txout.scriptPubKey
  parents : ∀ x ∈ T, w.getWalletTx x.getHash = none → ∀ {t wtx}, w.getWalletTx t = some wtx →
    ∀ o, wtx.tx.Spends o → o.hash = x.getHash → ∀ txout, x.vout[o.n.toNat]? = some txout →
      ∀ k, ops.Later T w.keys k → ops.isMine k txout.scriptPubKey = IsMine.no
  reuse : w.avoidReuse = true → ∀ x ∈ T, ∀ o, x.Spends o → ∀ px ∈ U, px.getHash = o.hash →
    ∀ out, px.vout[o.n.toNat]? = some out → ∀ d, ops.extractDestination out.scriptPubKey = some d →
      ∀ {t wtx}, w.getWalletTx t = some wtx → ∀ txout ∈ wtx.tx.vout,
        d ∈ ops.affectedDestinations w.keys txout.scriptPubKey →
          ops.extractDestination txout.scriptPubKey = some d ∨
            w.isSpentKey ops txout.scriptPubKey = true

/-- How a wallet on the way compares with the wallet before the event; the cached
amounts of the transactions in `D` may be outdated. -/
structure Tracked (ops : KeyOps κ δ) (U T : Set CTransaction) (w₀ : CWallet κ δ) (D : Set Uint256)
    (w : CWallet κ δ) : Prop where
  linked : w.view.Linked U
  caches : CachesFrom w₀ w
  later : ops.Later T w₀.keys w.keys
  avoidReuse : w.avoidReuse = w₀.avoidReuse
  stays : ∀ {t}, w.getWalletTx t = none → w₀.getWalletTx t = none
  fresh : ∀ {t wtx}, w.getWalletTx t = some wtx → w₀.getWalletTx t = none → ∃ x ∈ T, x.getHash = t
  spent : ∀ {p}, w.Cached p → p ∉ D → ∀ i, w.view.SpentAt ⟨p, i⟩ ↔ w₀.view.SpentAt ⟨p, i⟩
  used : w₀.avoidReuse = true → ∀ {p wtx}, w.getWalletTx p = some wtx → ¬ wtx.Uncached →
    ∀ txout ∈ wtx.tx.vout,
      w.isSpentKey ops txout.scriptPubKey = w₀.isSpentKey ops txout.scriptPubKey

omit [DecidableEq δ] in
/-- Entries of one id have the same outputs and inputs. -/
theorem sameTx (hU : TxUniverse U) (h₀ : w₀.view.Linked U) (h : w.view.Linked U)
    {wtx₀ wtx : CWalletTx} (hget₀ : w₀.getWalletTx t = some wtx₀)
    (hget : w.getWalletTx t = some wtx) :
    wtx.tx.vout = wtx₀.tx.vout ∧ wtx.tx.vin.map prevout = wtx₀.tx.vin.map prevout ∧
      wtx.tx.getHash = wtx₀.tx.getHash := by
  obtain ⟨htx₀, hhash₀⟩ := h₀.known (view_entry_eq_some hget₀)
  obtain ⟨htx, hhash⟩ := h.known (view_entry_eq_some hget)
  have heq := hhash.trans hhash₀.symm
  exact ⟨hU.vout _ htx _ htx₀ heq, hU.prevouts _ htx _ htx₀ heq, heq⟩

omit [DecidableEq δ] in
/-- Debits see the inputs through their outpoints. -/
theorem getDebit_eq_of_prevouts (w : CWallet κ δ) {tx' : CTransaction}
    (h : tx'.vin.map prevout = tx.vin.map prevout) (filter : Nat) :
    w.getDebit ops tx' filter = w.getDebit ops tx filter := by
  have hfold : ∀ vin : List CTxIn, ∀ n : Int, vin.foldlM (fun nDebit txin =>
      let nDebit := nDebit + w.getDebitIn ops txin filter
      if moneyRange nDebit then
        (.ok nDebit : Except WalletAbort Int) else .error .valueOutOfRange) n =
      (vin.map prevout).foldlM (fun nDebit o =>
        let nDebit := nDebit + w.getDebitIn ops ⟨o, ⟨[], by simp⟩, 0, .empty⟩ filter
        if moneyRange nDebit then
          (.ok nDebit : Except WalletAbort Int) else .error .valueOutOfRange) n := by
    intro vin n
    rw [List.foldlM_map]
    rfl
  rw [getDebit, getDebit, hfold, hfold, h]

theorem amountOf_eq_of_sameTx (w : CWallet κ δ) {tx' : CTransaction} (hvout : tx'.vout = tx.vout)
    (hvin : tx'.vin.map prevout = tx.vin.map prevout) (hhash : tx'.getHash = tx.getHash)
    (type : AmountType) (filter : Nat) :
    w.amountOf ops tx' type filter = w.amountOf ops tx type filter := by
  cases type with
  | debit => exact w.getDebit_eq_of_prevouts hvin filter
  | credit | immatureCredit => rw [amountOf, amountOf, txGetCredit, txGetCredit, hvout]
  | availableCredit => rw [amountOf, amountOf, availableCredit, availableCredit, hvout, hhash]

section
variable (hU : TxUniverse U) (hT : T ⊆ U) (h₀ : w₀.view.Linked U) (hfore : Foreseen ops U T w₀)

include hU hT h₀ hfore

theorem tracked_getDebitIn (h : Tracked ops U T w₀ D w) {wtx₀ : CWalletTx}
    (hget₀ : w₀.getWalletTx t = some wtx₀) {txin : CTxIn} (htxin : txin ∈ wtx₀.tx.vin)
    (filter : Nat) : w.getDebitIn ops txin filter = w₀.getDebitIn ops txin filter := by
  rw [getDebitIn, getDebitIn]
  cases hprev₀ : w₀.getWalletTx txin.prevout.hash with
  | some prev₀ =>
    cases hprev : w.getWalletTx txin.prevout.hash with
    | none =>
      rw [h.stays hprev] at hprev₀
      cases hprev₀
    | some prev =>
      obtain ⟨hvout, -⟩ := sameTx hU h₀ h.linked hprev₀ hprev
      dsimp only
      rw [hvout]
      cases hout : prev₀.tx.vout[txin.prevout.n.toNat]? with
      | none => rfl
      | some txout =>
        dsimp only
        rw [(hfore.answers hprev₀ txout (List.mem_of_getElem? hout) _ h.later).1]
  | none =>
    cases hprev : w.getWalletTx txin.prevout.hash with
    | none => rfl
    | some prev =>
      -- the parent is new, and its outputs are not the wallet's
      obtain ⟨x, hx, hhash⟩ := h.fresh hprev hprev₀
      obtain ⟨hprevU, hprevHash⟩ := h.linked.known (view_entry_eq_some hprev)
      have hvout : prev.tx.vout = x.vout := hU.vout _ hprevU _ (hT hx) (hprevHash.trans hhash.symm)
      dsimp only
      rw [hvout]
      cases hout : x.vout[txin.prevout.n.toNat]? with
      | none => rfl
      | some txout =>
        have hnot := hfore.parents x hx (by rw [hhash]; exact hprev₀) hget₀ txin.prevout
          ⟨txin, htxin, rfl⟩ hhash.symm txout hout _ h.later
        dsimp only
        rw [hnot]
        simp [IsMine.no]

/-- In the end every amount that is still cached is what it would be anew. -/
theorem Tracked.cacheFresh (hfr : w₀.CacheFresh ops) (h : Tracked ops U T w₀ ∅ w) :
    w.CacheFresh ops := by
  refine ⟨fun {t wtx} hget type filter amount hamt => ?_, fun {t wtx} hget hflag => ?_⟩
  · have hcached : ¬ wtx.Uncached := fun hemp => by
      rw [hemp] at hamt
      cases hamt
    obtain ⟨wtx₀, hget₀, hamts, -⟩ := (h.caches.cache hget).resolve_left hcached
    obtain ⟨hvout, hvin, hhash⟩ := sameTx hU h₀ h.linked hget₀ hget
    obtain ⟨-, hid⟩ := h₀.known (view_entry_eq_some hget₀)
    have hsame : SameAmounts ops w₀ w wtx₀.tx := by
      refine ⟨fun txout htxout => (hfore.answers hget₀ txout htxout _ h.later).1,
        fun txin htxin filter => tracked_getDebitIn hU hT h₀ hfore h hget₀ htxin filter,
        fun i _ => ?_, h.avoidReuse, fun havoid txout htxout => ?_⟩
      · rw [hid, Bool.eq_iff_iff, isSpent_iff, isSpent_iff]
        exact h.spent ⟨wtx, hget, hcached⟩ (Set.notMem_empty t) _
      · exact h.used havoid hget hcached txout (by rwa [hvout])
    rw [w.amountOf_eq_of_sameTx hvout hvin hhash, hsame.amountOf]
    exact hfr.amount hget₀ (by rwa [← hamts])
  · rcases h.caches.cache hget with hemp | ⟨wtx₀, hget₀, hamts, hflag₀⟩
    · exact hemp
    · intro type filter
      rw [hamts]
      exact hfr.flag hget₀ (hflag₀.symm.trans hflag) type filter

end

/-! ### Steps -/

/-- A step after which the same transactions are there. -/
theorem Tracked.step (h : Tracked ops U T w₀ D w) (hlink : w'.view.Linked U)
    (hcaches : CachesFrom w w') (hkeys : w'.keys = w.keys)
    (husedDests : w'.usedDestinations = w.usedDestinations) (havoid : w'.avoidReuse = w.avoidReuse)
    (hvout : ∀ {t wtx'}, w'.getWalletTx t = some wtx' →
      ∃ wtx, w.getWalletTx t = some wtx ∧ wtx'.tx.vout = wtx.tx.vout)
    (hstays : ∀ {t}, w'.getWalletTx t = none → w.getWalletTx t = none)
    (hspent : ∀ {p}, w'.Cached p → p ∉ D' → p ∉ D ∧
      ∀ i, w'.view.SpentAt ⟨p, i⟩ ↔ w.view.SpentAt ⟨p, i⟩) : Tracked ops U T w₀ D' w' := by
  refine ⟨hlink, h.caches.trans hcaches, by rw [hkeys]; exact h.later, havoid.trans h.avoidReuse,
    fun hnone => h.stays (hstays hnone), fun hget hnone => ?_, fun hp hD i => ?_,
    fun havoid₀ {p wtx'} hget hsome txout htxout => ?_⟩
  · obtain ⟨wtx, hget', -⟩ := hvout hget
    exact h.fresh hget' hnone
  · obtain ⟨hD', hsame⟩ := hspent hp hD
    exact (hsame i).trans (h.spent (hcaches.cached hp) hD' i)
  · obtain ⟨wtx, hget', hout⟩ := hvout hget
    obtain ⟨wtx₁, hget₁, hsome₁⟩ := hcaches.cached ⟨wtx', hget, hsome⟩
    rw [hget'] at hget₁
    cases hget₁
    have hkey : w'.isSpentKey ops txout.scriptPubKey = w.isSpentKey ops txout.scriptPubKey := by
      simp [isSpentKey, isAddressUsed, hkeys, husedDests]
    rw [hkey]
    exact h.used havoid₀ hget' hsome₁ txout (by rwa [← hout])

omit [DecidableEq δ] in
theorem exists_of_sameTxs (h : w.view.SameTxs w'.view) {wtx' : CWalletTx}
    (hget : w'.getWalletTx t = some wtx') :
    ∃ wtx, w.getWalletTx t = some wtx ∧ wtx'.tx = wtx.tx := by
  obtain ⟨s, hent⟩ := h.symm.entry (view_entry_eq_some hget)
  obtain ⟨wtx, hget', htx, -⟩ := exists_of_view_entry hent
  exact ⟨wtx, hget', htx.symm⟩

section
variable (h : Tracked ops U T w₀ D w)

include h

theorem Tracked.mono (hD : D ⊆ D') : Tracked ops U T w₀ D' w :=
  { h with spent := fun hp hnot => h.spent hp fun hmem => hnot (hD hmem) }

/-- A step that changes states and drops caches. -/
theorem Tracked.stepStates (honly : OnlyEntries w w')
    (hsame : w.view.SameTxs w'.view) (hcaches : CachesFrom w w')
    (hcnts : ∀ {p}, w'.Cached p → p ∉ D' → p ∉ D ∧
      ∀ y i, (⟨p, i⟩, y) ∈ w.view.spends → (w'.view.Counts y ↔ w.view.Counts y)) :
    Tracked ops U T w₀ D' w' := by
  refine h.step (hsame.linked h.linked) hcaches honly.keys honly.usedDestinations honly.avoidReuse
    (fun hget => ?_) (fun hnone => ?_) fun hp hD => ?_
  · obtain ⟨wtx, hget', htx⟩ := exists_of_sameTxs hsame hget
    exact ⟨wtx, hget', by rw [htx]⟩
  · by_contra hsome
    obtain ⟨wtx, hget⟩ := ne_none_iff_exists'.mp hsome
    obtain ⟨wtx', hget', -⟩ := exists_of_sameTxs hsame.symm hget
    rw [hnone] at hget'
    cases hget'
  · obtain ⟨hD', hcnt⟩ := hcnts hp hD
    exact ⟨hD', spentAt_congr hsame.spends hcnt⟩

/-- Marking drops the caches of whatever it changes the spenders of. -/
theorem Tracked.marked {A : Set Uint256} (hmark : Marked s w A w') : Tracked ops U T w₀ D w' := by
  have hview := hmark.view_eq
  refine h.stepStates hmark.only ?_ (cachesFrom_marked hmark) fun {p} hp hD =>
    ⟨hD, fun y i hmem => ?_⟩
  · rw [hview]
    exact sameTxs_mark _ _ _
  · have hy : y ∉ A := by
      intro hy
      obtain ⟨tx, s', hent, -, txin, htxin, hprev⟩ := (h.linked.spends_iff _ _).mp hmem
      obtain ⟨wtx, hget, rfl, -⟩ := exists_of_view_entry hent
      have hin : w.InputOf A p := ⟨y, hy, wtx, hget, txin, htxin, by rw [hprev]⟩
      by_cases hpA : p ∈ A
      · exact not_cached_of_map (fun _ _ _ => rfl) (hmark.marked p hpA) hp
      · exact not_cached_of_map (fun _ _ _ => rfl) (hmark.dirtied p hpA hin) hp
    rw [hview]
    exact counts_congr (mark_entry_of_notMem hy) rfl

theorem Tracked.markDirty (t : Uint256) :
    Tracked ops U T w₀ (D \ {t}) (w.modifyTx t markDirty) := by
  have hview := view_modifyTx_markDirty w t
  refine h.stepStates rfl (by rw [hview]; exact .refl _)
    (cachesFrom_modifyTx w t fun wtx => .inl (uncached_markDirty wtx))
    fun {p} hp hD => ⟨fun hpD => hD ⟨hpD, ?_⟩, fun y i _ => by rw [hview]⟩
  rintro rfl
  exact not_cached_of_map uncached_markDirty (getWalletTx_modifyTx_self w p _) hp

/-- The transactions that the inputs refer to have no caches any more. -/
theorem Tracked.markInputsDirty (tx : CTransaction) :
    Tracked ops U T w₀ (D \ {p | SpentBy tx.vin p}) (w.markInputsDirty tx) := by
  have hview := view_markInputsDirty w tx
  refine h.stepStates (onlyEntries_markInputsDirty w tx) (by rw [hview]; exact .refl _)
    (cachesFrom_markInputsDirty w tx) fun {p} hp hD =>
      ⟨fun hpD => hD ⟨hpD, ?_⟩, fun y i _ => by rw [hview]⟩
  exact fun hspent => not_cached_markInputsDirty w hspent hp

/-- A state takes the place of another one, of a transaction whose inputs have no
caches, or that counts just as much. -/
theorem Tracked.changeState (hf : ∀ wtx, ∃ s, f wtx = wtx.setState s) (hsame : ∀ {wtx},
      w.getWalletTx t = some wtx → (∀ p, SpentBy wtx.tx.vin p → ¬ w.Cached p) ∨
        (f wtx).state.counts w.lastBlockProcessedHeight =
          wtx.state.counts w.lastBlockProcessedHeight) :
    Tracked ops U T w₀ D (w.modifyTx t f) := by
  have hf' : ∀ wtx, (f wtx).tx = wtx.tx ∧ (f wtx).amounts = wtx.amounts ∧
      (f wtx).isCacheEmpty = wtx.isCacheEmpty := by
    intro wtx
    obtain ⟨s, hs⟩ := hf wtx
    rw [hs]
    exact ⟨rfl, rfl, rfl⟩
  have htxs : w.view.SameTxs (w.modifyTx t f).view := by
    refine ⟨fun n => ?_, rfl⟩
    rw [view_entry, view_entry, getWalletTx_modifyTx]
    split_ifs
    · rw [map_map, map_map, map_map]
      congr 1
      funext wtx
      exact (hf' wtx).1
    · rfl
  have hcaches : CachesFrom w (w.modifyTx t f) := cachesFrom_modifyTx w t fun wtx =>
    .inr (hf' wtx).2
  refine h.stepStates rfl htxs hcaches fun {p} hp hD => ⟨hD, fun y i hmem => ?_⟩
  by_cases hy : y = t
  · subst hy
    cases hget : w.getWalletTx y with
    | none =>
      refine counts_congr ?_ rfl
      rw [view_entry, view_entry, getWalletTx_modifyTx_self, hget]
      rfl
    | some wtx =>
      have hent : (w.modifyTx y f).view.entry y = some ((f wtx).tx, (f wtx).state) := by
        rw [view_modifyTx hget, setEntry_entry_self]
      rcases hsame hget with huncached | hcnts
      · obtain ⟨tx, s, hent', -, txin, htxin, hprev⟩ := (h.linked.spends_iff _ _).mp hmem
        rw [view_entry_eq_some hget] at hent'
        cases hent'
        exact absurd (hcaches.cached hp) (huncached p ⟨txin, htxin, by rw [hprev]⟩)
      · rw [counts_iff hent, counts_iff (view_entry_eq_some hget)]
        exact Bool.eq_iff_iff.mp hcnts
  · refine counts_congr ?_ rfl
    rw [view_entry, view_entry, getWalletTx_modifyTx_of_ne _ _ (Ne.symm hy)]

theorem Tracked.refreshMempoolStatus {inMempool : Uint256 → Bool}
    (hcnts : inMempool t = true → ∀ {wtx}, w.getWalletTx t = some wtx →
      (∀ p, SpentBy wtx.tx.vin p → ¬ w.Cached p) ∨
        wtx.state.counts w.lastBlockProcessedHeight = true) :
    Tracked ops U T w₀ D (w.refreshMempoolStatus inMempool t) := by
  refine h.changeState (fun wtx => ?_) fun {wtx} hget => ?_
  · split_ifs
    · exact ⟨_, rfl⟩
    · exact ⟨_, rfl⟩
    · exact ⟨wtx.state, rfl⟩
  · split_ifs with hin hst
    · exact (hcnts hin hget).imp_right fun htrue => by rw [htrue]; rfl
    · right
      rw [hst]
      rfl
    · exact .inr rfl

theorem Tracked.submitTxMemoryPoolAndRelay (t : Uint256) (accepted : Bool) :
    Tracked ops U T w₀ D (w.submitTxMemoryPoolAndRelay t accepted) := by
  rw [CWallet.submitTxMemoryPoolAndRelay]
  split
  · exact h
  · next wtx hget =>
    split_ifs with hguard
    · simp only [Bool.and_eq_true, Bool.not_eq_true', decide_eq_true_eq] at hguard
      obtain ⟨⟨⟨⟨-, hact⟩, -⟩, hdepth⟩, -⟩ := hguard
      refine h.changeState (fun wtx => ⟨_, rfl⟩) fun {wtx'} hget' => ?_
      rw [hget] at hget'
      cases hget'
      rw [getTxDepthInMainChain] at hdepth
      have hcnts : wtx.state.counts w.lastBlockProcessedHeight = true := by
        simp [TxState.counts, hdepth, hact]
      right
      rw [hcnts]
      rfl
    · exact h

theorem Tracked.markCoinsDirty {vin : List CTxIn}
    (hkn : ∀ txin ∈ vin, ∃ wtx, w.getWalletTx txin.prevout.hash = some wtx) :
    (w.markCoinsDirty vin).2 = true ∧
      Tracked ops U T w₀ (D \ {p | SpentBy vin p}) (w.markCoinsDirty vin).1 := by
  induction vin generalizing w D with
  | nil =>
    have hemp : D \ {p | SpentBy [] p} = D := by
      simp [SpentBy]
    rw [hemp]
    exact ⟨rfl, h⟩
  | cons txin vin ih =>
    obtain ⟨wtx, hget⟩ := hkn txin List.mem_cons_self
    rw [markCoinsDirty, hget]
    obtain ⟨hfound, hrest⟩ := ih (h.markDirty txin.prevout.hash) fun txin' htxin' => by
      obtain ⟨wtx', hget'⟩ := hkn txin' (List.mem_cons_of_mem _ htxin')
      rw [getWalletTx_modifyTx, hget']
      split_ifs
      · exact ⟨_, rfl⟩
      · exact ⟨_, rfl⟩
    refine ⟨hfound, hrest.mono ?_⟩
    rintro p ⟨⟨hpD, hne⟩, hnot⟩
    refine ⟨hpD, ?_⟩
    rintro ⟨txin', hmem, hhash⟩
    rcases List.mem_cons.mp hmem with rfl | hmem
    · exact hne hhash.symm
    · exact hnot ⟨txin', hmem, hhash⟩

end
end CWallet
end Lithium
