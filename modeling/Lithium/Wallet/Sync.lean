import Lithium.Wallet.View

/-!
# Synchronising one transaction

`SyncTransaction` on views. A confirmed transaction first strikes the wallet
transactions that spend what it spends, with everything made from them that is not
yet known to be conflicted as deeply; then the transaction itself is stored if it
concerns the wallet.

The recorded spends of a wallet are those of its transactions as long as ids stand
for one list of inputs and outputs only, which is assumed of the set of
transactions that are ever seen.
-/

namespace Lithium
open Lib Relation List
variable {tx : CTransaction} {t : Uint256} {s : TxState} {ids : List Uint256} {w : CWallet κ δ}
variable {o : COutPoint} {d : Uint256} {v'' : WalletView} {c height : Int}

/-! ### Ids of transactions -/

/-- In the set, ids stand for what a transaction spends and creates. -/
structure TxUniverse (U : Set CTransaction) : Prop where
  prevouts : ∀ a ∈ U, ∀ b ∈ U, a.getHash = b.getHash →
    a.vin.map CTxIn.prevout = b.vin.map CTxIn.prevout
  vout : ∀ a ∈ U, ∀ b ∈ U, a.getHash = b.getHash → a.vout = b.vout

/-- Transactions whose hashes are different. -/
theorem TxUniverse.of_injOn {U : Set CTransaction} (h : Set.InjOn CTransaction.getHash U) :
    TxUniverse U :=
  ⟨fun _ ha _ hb hab => by rw [h ha hb hab], fun _ ha _ hb hab => by rw [h ha hb hab]⟩

theorem CTransaction.spends_iff : tx.Spends o ↔ o ∈ tx.vin.map CTxIn.prevout := mem_map.symm

theorem CTransaction.isCoinBase_eq (tx : CTransaction) : tx.isCoinBase =
    match tx.vin.map CTxIn.prevout with
    | [o] => o.isNull
    | _ => false := by
  rw [CTransaction.isCoinBase]
  rcases tx.vin with _ | ⟨a, _ | ⟨b, vin⟩⟩ <;> rfl

namespace TxUniverse
variable {U : Set CTransaction} {a b : CTransaction}

section
variable (hU : TxUniverse U) (ha : a ∈ U) (hb : b ∈ U) (h : a.getHash = b.getHash)

include hU ha hb h

theorem spends_iff (o : COutPoint) : a.Spends o ↔ b.Spends o := by
  rw [CTransaction.spends_iff, CTransaction.spends_iff, hU.prevouts a ha b hb h]

theorem isCoinBase_eq : a.isCoinBase = b.isCoinBase := by
  rw [CTransaction.isCoinBase_eq, CTransaction.isCoinBase_eq, hU.prevouts a ha b hb h]

end
end TxUniverse

namespace WalletView

/-! ### Recorded spends -/

/-- Entries stand under the ids of their transactions, and the recorded spends are
those of the transactions that are not coinbases. -/
structure Linked (U : Set CTransaction) (v : WalletView) : Prop where
  known : ∀ {t tx s}, v.entry t = some (tx, s) → tx ∈ U ∧ tx.getHash = t
  spends_iff : ∀ o t, (o, t) ∈ v.spends ↔
    ∃ tx s, v.entry t = some (tx, s) ∧ tx.isCoinBase = false ∧ tx.Spends o

variable {U : Set CTransaction} {v v' : WalletView}

/-- A child is a transaction of the wallet that is not a coinbase. -/
theorem Linked.child (h : v.Linked U) {c : Uint256} (hd : v.Child c d) :
    ∃ tx s, v.entry d = some (tx, s) ∧ tx.isCoinBase = false ∧ ∃ o, tx.Spends o ∧ o.hash = c := by
  obtain ⟨-, -, -, i, -, hmem⟩ := hd
  obtain ⟨tx, s, hent, hcb, hsp⟩ := (h.spends_iff _ _).mp hmem
  exact ⟨tx, s, hent, hcb, _, hsp, rfl⟩

/-- A recorded spend is one of every transaction with the id. -/
theorem Linked.spends_of_mem (hU : TxUniverse U) (h : v.Linked U) {x : CTransaction} (hx : x ∈ U)
    (hmem : (o, x.getHash) ∈ v.spends) : x.isCoinBase = false ∧ x.Spends o := by
  obtain ⟨tx, s, hent, hcb, hsp⟩ := (h.spends_iff _ _).mp hmem
  obtain ⟨htx, hhash⟩ := h.known hent
  rw [← hU.isCoinBase_eq htx hx hhash, ← hU.spends_iff htx hx hhash]
  exact ⟨hcb, hsp⟩

/-- Views with the same transactions and the same recorded spends. -/
structure SameTxs (v v' : WalletView) : Prop where
  tx : ∀ t, (v'.entry t).map Prod.fst = (v.entry t).map Prod.fst
  spends : v'.spends = v.spends

namespace SameTxs

theorem refl (v : WalletView) : v.SameTxs v := ⟨fun _ => rfl, rfl⟩

section
variable (h : v.SameTxs v')

include h

theorem symm : v'.SameTxs v := ⟨fun t => (h.tx t).symm, h.spends.symm⟩

theorem trans (h' : v'.SameTxs v'') : v.SameTxs v'' :=
  ⟨fun t => (h'.tx t).trans (h.tx t), h'.spends.trans h.spends⟩

theorem entry (hent : v.entry t = some (tx, s)) : ∃ s', v'.entry t = some (tx, s') := by
  have htx := h.tx t
  rw [hent, Option.map_some, Option.map_eq_some_iff] at htx
  obtain ⟨⟨tx', s'⟩, hent', rfl⟩ := htx
  exact ⟨s', hent'⟩

theorem child {c : Uint256} (hd : v.Child c d) : v'.Child c d := by
  obtain ⟨tx, s, hent, hspent⟩ := hd
  obtain ⟨s', hent'⟩ := h.entry hent
  exact ⟨tx, s', hent', by rwa [h.spends]⟩

theorem walletChild {c : Uint256} (hd : v.WalletChild c d) : v'.WalletChild c d := by
  obtain ⟨hch, ⟨tx, s⟩, hent⟩ := hd
  obtain ⟨s', hent'⟩ := h.entry hent
  exact ⟨h.child hch, _, hent'⟩

theorem path {a : Uint256} (hpath : ReflTransGen v.WalletChild a t) :
    ReflTransGen v'.WalletChild a t := hpath.lift id fun _ _ hd => h.walletChild hd

theorem linked (hlink : v.Linked U) : v'.Linked U := by
  refine ⟨?_, fun o t => ?_⟩
  · intro t tx s hent
    obtain ⟨s', hent'⟩ := h.symm.entry hent
    exact hlink.known hent'
  · rw [h.spends, hlink.spends_iff]
    constructor
    · rintro ⟨tx, s, hent, hsp⟩
      obtain ⟨s', hent'⟩ := h.entry hent
      exact ⟨tx, s', hent', hsp⟩
    · rintro ⟨tx, s, hent, hsp⟩
      obtain ⟨s', hent'⟩ := h.symm.entry hent
      exact ⟨tx, s', hent', hsp⟩

end
end SameTxs

theorem sameTxs_mark (v : WalletView) (A : Set Uint256) (s : TxState) : v.SameTxs (v.mark A s) := by
  refine ⟨fun t => ?_, rfl⟩
  by_cases ht : t ∈ A
  · rw [mark_entry_of_mem ht, Option.map_map]
    rfl
  · rw [mark_entry_of_notMem ht]

theorem mem_spends_stored : (o, t) ∈ (if tx.isCoinBase then v.spends
      else v.spends ++ tx.vin.map fun txin => (txin.prevout, tx.getHash)) ↔
      (o, t) ∈ v.spends ∨ tx.isCoinBase = false ∧ tx.Spends o ∧ tx.getHash = t := by
  cases tx.isCoinBase with
  | true => simp
  | false =>
    rw [if_neg Bool.false_ne_true, mem_append]
    refine or_congr_right ?_
    simp only [mem_map, Prod.mk.injEq, CTransaction.Spends, true_and]
    constructor
    · rintro ⟨txin, hmem, rfl, rfl⟩
      exact ⟨⟨txin, hmem, rfl⟩, rfl⟩
    · rintro ⟨⟨txin, hmem, rfl⟩, rfl⟩
      exact ⟨txin, hmem, rfl, rfl⟩

/-- An entry that is replaced by one with the same id keeps the spends in order. -/
theorem Linked.setEntry (hU : TxUniverse U) (h : v.Linked U) {tx₀ tx' : CTransaction} {s₀ : TxState}
    (hent : v.entry t = some (tx₀, s₀)) (hU' : tx' ∈ U) (hhash : tx'.getHash = t) (s : TxState) :
    (v.setEntry t (tx', s)).Linked U := by
  obtain ⟨hU₀, hhash₀⟩ := h.known hent
  refine ⟨?_, fun o n => ?_⟩
  · intro n tx s' hn
    by_cases hnt : n = t
    · subst hnt
      rw [setEntry_entry_self] at hn
      cases hn
      exact ⟨hU', hhash⟩
    · rw [setEntry_entry_of_ne _ _ hnt] at hn
      exact h.known hn
  · change (o, n) ∈ v.spends ↔ _
    rw [h.spends_iff]
    by_cases hnt : n = t
    · subst hnt
      have hcb := hU.isCoinBase_eq hU₀ hU' (hhash₀.trans hhash.symm)
      have hsp := hU.spends_iff hU₀ hU' (hhash₀.trans hhash.symm) o
      rw [hent, setEntry_entry_self]
      simp [hcb, hsp]
    · rw [setEntry_entry_of_ne _ _ hnt]

/-- Storing a transaction keeps the spends in order. -/
theorem Stored.linked (hU : TxUniverse U) (hsto : v.Stored tx s v') (htx : tx ∈ U)
    (h : v.Linked U) : v'.Linked U := by
  cases hsto with
  | fresh hnone =>
    refine ⟨?_, fun o n => ?_⟩
    · intro n tx' s' hn
      by_cases hnt : n = tx.getHash
      · subst hnt
        rw [setEntry_entry_self] at hn
        cases hn
        exact ⟨htx, rfl⟩
      · rw [setEntry_entry_of_ne _ _ hnt] at hn
        exact h.known hn
    · change _ ↔ ∃ tx' s', (v.setEntry tx.getHash (tx, s)).entry n = some (tx', s') ∧ _
      rw [mem_spends_stored, h.spends_iff]
      by_cases hnt : n = tx.getHash
      · subst hnt
        rw [hnone, setEntry_entry_self]
        simp
      · rw [setEntry_entry_of_ne _ _ hnt]
        simp [Ne.symm hnt]
  | changed hent hidx htx' =>
    obtain ⟨hU₀, hhash₀⟩ := h.known hent
    rcases htx' with rfl | rfl
    · exact h.setEntry hU hent hU₀ hhash₀ s
    · exact h.setEntry hU hent htx rfl s
  | kept hent hidx hser hhash htx' =>
    obtain ⟨hU₀, hhash₀⟩ := h.known hent
    rcases htx' with rfl | rfl
    · exact h.setEntry hU hent hU₀ hhash₀ _
    · exact h.setEntry hU hent htx rfl _

theorem Added.linked (hU : TxUniverse U) (hadded : v.Added tx s v') (htx : tx ∈ U)
    (h : v.Linked U) : v'.Linked U := by
  obtain ⟨v₁, -, -, hsto, -, ⟨-, rfl⟩ | ⟨-, rfl⟩⟩ := hadded
  · exact hsto.linked hU htx h
  · exact (sameTxs_mark _ _ _).linked (hsto.linked hU htx h)

/-! ### Striking -/

/-- The transaction is in the wallet and at a depth above the number. -/
def Above (v : WalletView) (c : Int) (t : Uint256) : Prop :=
  ∃ tx s, v.entry t = some (tx, s) ∧ c < s.depth v.height

/-- What `MarkConflicted` marks: from a transaction on along children, through
transactions above the number only. -/
inductive Reaches (v : WalletView) (c : Int) (t : Uint256) : Uint256 → Prop
  | start : v.Above c t → Reaches v c t t
  | child {a d : Uint256} : Reaches v c t a → v.Child a d → v.Above c d → Reaches v c t d

theorem Reaches.above {y : Uint256} (h : v.Reaches c t y) : v.Above c y := by
  cases h with
  | start h | child _ _ h => exact h

theorem Reaches.path {y : Uint256} (h : v.Reaches c t y) : ReflTransGen v.WalletChild t y := by
  induction h with
  | start _ => exact .refl
  | child _ hd habove ih =>
    obtain ⟨tx, s, hent, -⟩ := habove
    exact ih.tail ⟨hd, _, hent⟩

/-- A confirmed transaction strikes a list of others, one after the other. -/
noncomputable def strike (s : TxState) (v : WalletView) (ids : List Uint256) : WalletView :=
  ids.foldl (fun v t => v.mark {y | v.Reaches (-1) t y} s) v

/-- What a strike does: only transactions above `-1` change, and after it neither a
transaction that is struck nor a child of one that has changed is above `-1`. -/
structure StruckBy (s : TxState) (ids : List Uint256) (v v' : WalletView) : Prop where
  same : v.SameTxs v'
  height : v'.height = v.height
  entry : ∀ t, v'.entry t = v.entry t ∨ v.Above (-1) t ∧ (∃ tx, v'.entry t = some (tx, s)) ∧
    ∃ a ∈ ids, ReflTransGen v.WalletChild a t
  start : ∀ a ∈ ids, ¬ v'.Above (-1) a
  child : ∀ c d, v'.entry c ≠ v.entry c → v.Child c d → ¬ v'.Above (-1) d

theorem above_congr (hent : v'.entry t = v.entry t) (hht : v'.height = v.height) :
    v'.Above c t ↔ v.Above c t := by
  rw [Above, Above, hent, hht]

theorem not_above_of_entry (hent : v.entry t = some (tx, s))
    (hs : s.depth v.height ≤ c) : ¬ v.Above c t := by
  rintro ⟨tx', s', hent', hlt⟩
  rw [hent] at hent'
  cases hent'
  omega

theorem struckBy_mark (hs : s.depth v.height ≤ -1) (t : Uint256) :
    StruckBy s [t] v (v.mark {y | v.Reaches (-1) t y} s) := by
  have hmark : ∀ y, v.Reaches (-1) t y →
      ∃ tx, (v.mark {y | v.Reaches (-1) t y} s).entry y = some (tx, s) := by
    intro y hy
    obtain ⟨tx, s₀, hent, -⟩ := hy.above
    have hmem : y ∈ {y | v.Reaches (-1) t y} := hy
    rw [mark_entry_of_mem hmem, hent]
    exact ⟨tx, rfl⟩
  have hlow : ∀ y, v.Reaches (-1) t y → ¬ (v.mark {y | v.Reaches (-1) t y} s).Above (-1) y := by
    intro y hy
    obtain ⟨tx, hent⟩ := hmark y hy
    exact not_above_of_entry hent hs
  have hsame : ∀ y, ¬ v.Reaches (-1) t y →
      (v.mark {y | v.Reaches (-1) t y} s).entry y = v.entry y :=
    fun y hy => mark_entry_of_notMem hy
  refine ⟨sameTxs_mark _ _ _, rfl, fun y => ?_, fun a ha => ?_, fun c d hc hd => ?_⟩
  · by_cases hy : v.Reaches (-1) t y
    · exact .inr ⟨hy.above, hmark y hy, t, mem_singleton_self t, hy.path⟩
    · exact .inl (hsame y hy)
  · rw [mem_singleton] at ha
    subst ha
    by_cases hy : v.Reaches (-1) a a
    · exact hlow a hy
    · rw [above_congr (hsame a hy) rfl]
      exact fun habove => hy (.start habove)
  · have hreaches : v.Reaches (-1) t c := by
      by_contra hreaches
      exact hc (hsame c hreaches)
    by_cases hy : v.Reaches (-1) t d
    · exact hlow d hy
    · rw [above_congr (hsame d hy) rfl]
      exact fun habove => hy (hreaches.child hd habove)

theorem StruckBy.entry_of_not_above (h : StruckBy s ids v v') (ht : ¬ v.Above (-1) t) :
    v'.entry t = v.entry t :=
  (h.entry t).resolve_right fun hright => ht hright.1

theorem StruckBy.not_above (h : StruckBy s ids v v') (ht : ¬ v.Above (-1) t) :
    ¬ v'.Above (-1) t := by
  rwa [above_congr (h.entry_of_not_above ht) h.height]

theorem StruckBy.append {ids' : List Uint256} (h : StruckBy s ids v v')
    (h' : StruckBy s ids' v' v'') : StruckBy s (ids ++ ids') v v'' := by
  refine ⟨h.same.trans h'.same, h'.height.trans h.height, fun t => ?_, fun a ha => ?_,
    fun c d hc hd => ?_⟩
  · rcases h'.entry t with hsame' | ⟨habove', hnew', a, ha, hpath⟩
    · rw [hsame']
      rcases h.entry t with hsame | ⟨habove, hnew, a, ha, hpath⟩
      · exact .inl hsame
      · exact .inr ⟨habove, hnew, a, mem_append_left _ ha, hpath⟩
    · have habove : v.Above (-1) t := by
        by_contra habove
        exact h.not_above habove habove'
      exact .inr ⟨habove, hnew', a, mem_append_right _ ha, h.same.symm.path hpath⟩
  · rcases mem_append.mp ha with ha | ha
    · exact h'.not_above (h.start a ha)
    · exact h'.start a ha
  · by_cases hfst : v'.entry c = v.entry c
    · rw [← hfst] at hc
      exact h'.child c d hc (h.same.child hd)
    · exact h'.not_above (h.child c d hfst hd)

theorem struckBy_strike (hs : s.depth v.height ≤ -1) (ids : List Uint256) :
    StruckBy s ids v (v.strike s ids) := by
  induction ids generalizing v with
  | nil =>
    refine ⟨.refl v, rfl, fun t => .inl rfl, ?_, fun c d hc => absurd rfl hc⟩
    intro a ha
    cases ha
  | cons t ids ih => exact (struckBy_mark hs t).append (ih hs)

end WalletView

namespace CWallet
variable {κ δ : Type} {U : Set CTransaction}

theorem spendersKnown_of_linked (h : w.view.Linked U) : w.SpendersKnown := by
  rintro ⟨o, t⟩ he
  obtain ⟨tx, s, hent, -⟩ := (h.spends_iff o t).mp he
  obtain ⟨wtx, hget, -⟩ := exists_of_view_entry hent
  exact ⟨wtx, hget⟩

/-- The loop of `MarkConflicted` reaches what it reaches on the view. -/
theorem hit_eq_reaches (w : CWallet κ δ) (c : Int) (missing : WalletAbort) (t : Uint256) :
    Hit (fun s => .ok (decide (c < s.depth w.lastBlockProcessedHeight))) missing w t =
      {y | w.view.Reaches c t y} := by
  have habove : ∀ {y : Uint256}, testAt (fun s => .ok (decide
      (c < s.depth w.lastBlockProcessedHeight))) missing w y = .ok true → w.view.Above c y := by
    intro y hy
    rw [testAt] at hy
    split at hy
    · cases hy
    · next wtx hget =>
      simp only [Except.ok.injEq, decide_eq_true_eq] at hy
      exact ⟨wtx.tx, wtx.state, view_entry_eq_some hget, hy⟩
  ext y
  constructor
  · rintro ⟨⟨x, hx, hpath⟩, hy⟩
    rw [Finset.mem_singleton] at hx
    subst hx
    induction hpath with
    | refl => exact .start (habove hy)
    | @tail b d hab hbd ih =>
      rw [behind] at hbd
      split at hbd
      · next hb => exact (ih hb).child (mem_childSet_iff_child.mp hbd) (habove hy)
      · exact absurd hbd (Finset.notMem_empty _)
  · intro hy
    have hpass : ∀ {y : Uint256}, w.view.Above c y → ∃ wtx, w.getWalletTx y = some wtx ∧
        (.ok (decide (c < wtx.state.depth w.lastBlockProcessedHeight)) :
          Except WalletAbort Bool) = .ok true := by
      rintro y ⟨tx, s, hent, hlt⟩
      obtain ⟨wtx, hget, -, rfl⟩ := exists_of_view_entry hent
      exact ⟨wtx, hget, congrArg Except.ok (decide_eq_true hlt)⟩
    induction hy with
    | start h =>
      obtain ⟨wtx, hget, htest⟩ := hpass h
      exact Hit.start hget htest
    | child _ hd h ih =>
      obtain ⟨wtx, hget, htest⟩ := hpass h
      exact Hit.child ih (mem_childSet_iff_child.mpr hd) hget htest

/-- `MarkConflicted` for the block that has just been connected. -/
theorem markConflicted_ok (h : w.view.Linked U) (hashBlock : Uint256)
    (hht : w.lastBlockProcessedHeight = height) (hnn : 0 ≤ height)
    (ht : ∃ wtx, w.getWalletTx t = some wtx) : ∃ w', w.markConflicted hashBlock height t = .ok w' ∧
      Marked (.conflicted hashBlock height) w {y | w.view.Reaches (-1) t y} w' := by
  have hconfirms : (w.lastBlockProcessedHeight - height + 1) * -1 = -1 := by
    omega
  have hguard : ¬ (w.lastBlockProcessedHeight < 0 ∨ height < 0) := by
    omega
  rw [markConflicted, if_neg hguard, hconfirms]
  rw [if_neg (by decide), ← hit_eq_reaches w (-1) .conflictedTxMissing t]
  exact markDescendants_ok _ (spendersKnown_of_linked h) ht fun y wtx _ _ => ⟨_, rfl⟩

theorem mem_conflictsWith :
    t ∈ w.conflictsWith tx ↔ (∃ o, tx.Spends o ∧ (o, t) ∈ w.mapTxSpends) ∧ t ≠ tx.getHash := by
  simp only [conflictsWith, mem_filter, mem_flatMap, mem_spendersOf, decide_eq_true_eq]
  refine and_congr_left fun _ => ⟨?_, ?_⟩
  · rintro ⟨txin, hmem, hspent⟩
    exact ⟨_, ⟨txin, hmem, rfl⟩, hspent⟩
  · rintro ⟨o, ⟨txin, hmem, rfl⟩, hspent⟩
    exact ⟨txin, hmem, hspent⟩

/-- All conflicts of a confirmed transaction are marked, and only entries change. -/
theorem foldlM_markConflicted (h : w.view.Linked U) (hashBlock : Uint256)
    (hht : w.lastBlockProcessedHeight = height) (hnn : 0 ≤ height)
    (hids : ∀ t ∈ ids, ∃ wtx, w.getWalletTx t = some wtx) :
    ∃ w', ids.foldlM (fun w id => w.markConflicted hashBlock height id) w = .ok w' ∧
      OnlyEntries w w' ∧ w'.view = w.view.strike (.conflicted hashBlock height) ids := by
  induction ids generalizing w with
  | nil => exact ⟨w, rfl, .refl w, rfl⟩
  | cons t ids ih =>
    obtain ⟨w₁, hw₁, hmark⟩ := markConflicted_ok h hashBlock hht hnn
      (hids t mem_cons_self)
    have hview := hmark.view_eq
    have hlink : w₁.view.Linked U := by
      rw [hview]
      exact (WalletView.sameTxs_mark _ _ _).linked h
    have hids₁ : ∀ t ∈ ids, ∃ wtx, w₁.getWalletTx t = some wtx := by
      intro n hn
      obtain ⟨wtx, hget⟩ := hids n (mem_cons_of_mem t hn)
      exact hmark.exists_of_getWalletTx hget
    obtain ⟨w', hw', honly, hview'⟩ := ih hlink
      (hmark.only.lastBlockProcessedHeight.trans hht) hids₁
    refine ⟨w', ?_, hmark.only.trans honly, ?_⟩
    · rw [foldlM_cons, hw₁]
      exact hw'
    · rw [hview', hview]
      rfl

theorem conflictsWith_known (h : w.view.Linked U) (tx : CTransaction) :
    ∀ t ∈ w.conflictsWith tx, ∃ wtx, w.getWalletTx t = some wtx := by
  intro t ht
  obtain ⟨⟨o, -, hmem⟩, -⟩ := mem_conflictsWith.mp ht
  exact spendersKnown_of_linked h _ hmem

/-! ### `SyncTransaction` -/

section
variable [DecidableEq δ] {ops : KeyOps κ δ}

section
variable {w w' : CWallet κ δ} {tx : CTransaction}

/-- After the conflicts are marked, the transaction is stored or does not concern
the wallet. -/
theorem syncTransaction_cases {state : SyncTxState}
    (h : w.syncTransaction ops tx state true = .ok w') :
    ∃ w₁, w.markConflicts tx state = .ok w₁ ∧ (w₁.getWalletTx tx.getHash = none ∧ w' = w₁ ∨
      ∃ w₂, (w₁.markUnusedAddresses ops tx).addToWallet ops tx state.toTxState = .ok w₂ ∧
        w' = w₂.markInputsDirty tx) := by
  obtain ⟨⟨w₂, involved⟩, hinv, h⟩ := bind_eq_ok.mp h
  cases h
  obtain ⟨w₁, hw₁, hinv⟩ := bind_eq_ok.mp hinv
  rw [Bool.not_true, Bool.and_false, if_neg Bool.false_ne_true] at hinv
  obtain ⟨involves, hinvolves, hinv⟩ := bind_eq_ok.mp hinv
  refine ⟨w₁, hw₁, ?_⟩
  cases involves with
  | false =>
    cases hinv
    rw [involvesMe] at hinvolves
    split_ifs at hinvolves with hkn
    · cases hinvolves
    rw [Bool.or_eq_true, not_or, Bool.not_eq_true, Option.isSome_eq_false_iff,
      Option.isNone_iff_eq_none] at hkn
    exact .inl ⟨hkn.1, rfl⟩
  | true =>
    obtain ⟨w₃, hadd, hinv⟩ := bind_eq_ok.mp hinv
    cases hinv
    exact .inr ⟨_, hadd, rfl⟩

theorem syncTransaction_of_markConflicts {w₁ : CWallet κ δ} (state : SyncTxState)
    (hconfs : w.markConflicts tx state = .ok w₁)
    (h : w.syncTransaction ops tx state true = .ok w') :
    (w₁.view.entry tx.getHash = none ∧ w'.view = w₁.view) ∨
      w₁.view.Added tx state.toTxState w'.view := by
  obtain ⟨w₁', hw₁, ⟨hnone, rfl⟩ | ⟨w₂, hadd, rfl⟩⟩ := syncTransaction_cases h <;>
    obtain rfl := Except.ok.inj (hconfs.symm.trans hw₁)
  · exact .inl ⟨view_entry_eq_none.mpr hnone, rfl⟩
  · rw [view_markInputsDirty, ← view_markUnusedAddresses ops w₁ tx]
    exact .inr (added_addToWallet hadd)

theorem syncTransaction_confirmed (hlink : w.view.Linked U) {hashBlock : Uint256}
    {index : Int} (hht : w.lastBlockProcessedHeight = height) (hnn : 0 ≤ height)
    (h : w.syncTransaction ops tx (.confirmed hashBlock height index) true = .ok w') :
    ∃ v₁, v₁ = w.view.strike (.conflicted hashBlock height) (w.conflictsWith tx) ∧
      ((v₁.entry tx.getHash = none ∧ w'.view = v₁) ∨
        v₁.Added tx (.confirmed hashBlock height index) w'.view) := by
  obtain ⟨w₁, hw₁, -, hview⟩ := foldlM_markConflicted hlink hashBlock hht hnn
    (conflictsWith_known hlink tx)
  have hsync := syncTransaction_of_markConflicts (.confirmed hashBlock height index) hw₁ h
  exact ⟨w₁.view, hview, hsync⟩

theorem syncTransaction_inactive {abandoned : Bool}
    (h : w.syncTransaction ops tx (.inactive abandoned) true = .ok w') :
    (w.view.entry tx.getHash = none ∧ w'.view = w.view) ∨
      w.view.Added tx (.inactive abandoned) w'.view :=
  syncTransaction_of_markConflicts (.inactive abandoned) rfl h

theorem syncTransaction_inMempool (h : w.syncTransaction ops tx .inMempool true = .ok w') :
    (w.view.entry tx.getHash = none ∧ w'.view = w.view) ∨ w.view.Added tx .inMempool w'.view :=
  syncTransaction_of_markConflicts .inMempool rfl h

end

end
end CWallet
end Lithium
