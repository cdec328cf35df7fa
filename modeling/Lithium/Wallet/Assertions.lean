import Lithium.Validation.AcceptedChain
import Lithium.Validation.HeaderWork
import Lithium.Wallet.Depths
import Lithium.Wallet.Events

/-!
# Assertions of the wallet

`AddToWallet` asserts that a stored transaction whose state is of the kind it is given
agrees in block and position, `AbandonTransaction` that nothing it comes to is
confirmed or in the mempool, and `GetTxBlocksToMaturity` that no coinbase is
conflicted. The states that a wallet can have when an event arrives decide which of
these hold.

What carries the argument is that confirmed transactions are in the chain where their
state says, and that coinbases are never conflicted.
-/

namespace Lithium
open Lib Relation List WalletView CWallet CTransaction
variable {tx x : CTransaction} {s : TxState} {t : Uint256} {chain : List BlockInfo}

namespace TxState

/-- Neither confirmed nor conflicted. -/
def Neutral (s : TxState) : Prop := (∀ b h i, s ≠ .confirmed b h i) ∧ ∀ b h, s ≠ .conflicted b h

theorem neutral_inactive (abandoned : Bool) : (inactive abandoned).Neutral :=
  ⟨nofun, nofun⟩

theorem neutral_inMempool : inMempool.Neutral :=
    ⟨nofun, nofun⟩

end TxState

namespace WalletView
variable {U : Set CTransaction} {chain : List BlockInfo} {v v' v'' : WalletView}

/-! ### Which states can appear -/

/-- Every state in the second view was there before or is one that `N` allows. -/
structure Becomes (N : Uint256 → TxState → Prop) (v v' : WalletView) : Prop where
  entry : ∀ {t tx s}, v'.entry t = some (tx, s) → (∃ tx₀, v.entry t = some (tx₀, s)) ∨ N t s

section Becomes
variable {N N' : Uint256 → TxState → Prop}

theorem becomes_refl (N : Uint256 → TxState → Prop) (v : WalletView) : Becomes N v v :=
  ⟨fun hent => .inl ⟨_, hent⟩⟩

theorem Becomes.trans (h : Becomes N v v') (h' : Becomes N v' v'') : Becomes N v v'' := by
  refine ⟨fun hent => ?_⟩
  rcases h'.entry hent with ⟨tx₀, hent'⟩ | hN
  · exact h.entry hent'
  · exact .inr hN

theorem Becomes.mono (h : Becomes N v v') (hN : ∀ t s, N t s → N' t s) : Becomes N' v v' :=
  ⟨fun hent => (h.entry hent).imp_right (hN _ _)⟩

theorem becomes_setEntry (hs : (∃ tx₀, v.entry t = some (tx₀, s)) ∨ N t s) :
    Becomes N v (v.setEntry t (tx, s)) := by
  refine ⟨fun {n tx' s'} hent => ?_⟩
  by_cases hn : n = t
  · subst hn
    rw [setEntry_entry_self] at hent
    cases hent
    exact hs
  · rw [setEntry_entry_of_ne _ _ hn] at hent
    exact .inl ⟨tx', hent⟩

theorem Stored.becomes (h : v.Stored x s v') (hN : N x.getHash s) : Becomes N v v' := by
  cases h with
  | fresh =>
    have hset : Becomes N v (v.setEntry x.getHash (x, s)) := becomes_setEntry (.inr hN)
    exact ⟨hset.entry⟩
  | changed => exact becomes_setEntry (.inr hN)
  | kept hent => exact becomes_setEntry (.inl ⟨_, hent⟩)

theorem becomes_mark {A : Set Uint256} (hN : ∀ t ∈ A, N t s) : Becomes N v (v.mark A s) := by
  refine ⟨fun {t tx s'} hent => ?_⟩
  by_cases ht : t ∈ A
  · rw [mark_entry_of_mem ht, Option.map_eq_some_iff] at hent
    obtain ⟨e, -, heq⟩ := hent
    cases heq
    exact .inr (hN t ht)
  · rw [mark_entry_of_notMem ht] at hent
    exact .inl ⟨tx, hent⟩

theorem Added.becomes (h : v.Added x s v') (hN : N x.getHash s)
    (habandoned : ∀ t, N t (.inactive true)) : Becomes N v v' := by
  obtain ⟨v₁, tx₁, s₁, hsto, -, ⟨-, rfl⟩ | ⟨-, rfl⟩⟩ := h
  · exact hsto.becomes hN
  · exact (hsto.becomes hN).trans (becomes_mark fun t _ => habandoned t)

end Becomes

theorem Added.height (h : v.Added x s v') : v'.height = v.height := by
  obtain ⟨v₁, tx₁, s₁, hsto, -, hrest⟩ := h
  have hht : v₁.height = v.height := by
    cases hsto with
    | fresh | changed | kept => rfl
  rcases hrest with ⟨-, rfl⟩ | ⟨-, rfl⟩
  · exact hht
  · exact hht

/-! ### States that are borne out by the chain -/

/-- Confirmed transactions are in the chain, and coinbases are not conflicted. -/
structure Truthful (U : Set CTransaction) (chain : List BlockInfo) (v : WalletView) : Prop where
  linked : v.Linked U
  confirmed : ∀ {t tx b h i}, v.entry t = some (tx, .confirmed b h i) →
    ∃ x, Occurs chain h x ∧ x.getHash = t
  coinBase : ∀ {t tx b h}, v.entry t = some (tx, .conflicted b h) → tx.isCoinBase = false

/-- States as they may appear without a new block. -/
def NeutralAt (_ : Uint256) (s : TxState) : Prop := s.Neutral

theorem Truthful.neutral (hU : TxUniverse U) (h : v.Truthful U chain) (hlink : v'.Linked U)
    (hbec : Becomes NeutralAt v v') : v'.Truthful U chain := by
  refine ⟨hlink, fun hent => ?_, fun hent => ?_⟩
  · rcases hbec.entry hent with ⟨tx₀, hent₀⟩ | hN
    · exact h.confirmed hent₀
    · exact absurd rfl (hN.1 _ _ _)
  · rcases hbec.entry hent with ⟨tx₀, hent₀⟩ | hN
    · obtain ⟨htx, hhash⟩ := hlink.known hent
      obtain ⟨htx₀, hhash₀⟩ := h.linked.known hent₀
      rw [hU.isCoinBase_eq htx htx₀ (hhash.trans hhash₀.symm)]
      exact h.coinBase hent₀
    · exact absurd rfl (hN.2 _ _)

/-! ### When a stored transaction does not agree -/

/-- `AddToWallet` meets a state of the same kind that says something else. -/
def Clash (v : WalletView) (t : Uint256) (s : TxState) : Prop :=
  ∃ tx₀ s₀, v.entry t = some (tx₀, s₀) ∧ s.index = s₀.index ∧
    (s₀.serializedIndex ≠ s.serializedIndex ∨ s₀.serializedBlockHash ≠ s.serializedBlockHash)

theorem not_clash_inMempool (t : Uint256) : ¬ v.Clash t .inMempool := by
  rintro ⟨tx₀, s₀, -, hidx, hne⟩
  cases s₀ with
  | inMempool => simp at hne
  | _ => simp [TxState.index] at hidx

theorem not_clash_inactive (h : ∀ tx, v.entry t ≠ some (tx, .inactive true)) :
    ¬ v.Clash t (.inactive false) := by
  rintro ⟨tx₀, s₀, hent, hidx, hne⟩
  cases s₀ with
  | inactive abandoned =>
    cases abandoned with
    | false => simp at hne
    | true => exact h tx₀ hent
  | _ => simp [TxState.index] at hidx

theorem not_clash_confirmed {b : Uint256} {h i : Int}
    (hent : ∀ tx b' h' i', v.entry t ≠ some (tx, .confirmed b' h' i')) :
    ¬ v.Clash t (.confirmed b h i) := by
  rintro ⟨tx₀, s₀, hent₀, hidx, -⟩
  cases s₀ with
  | confirmed b' h' i' => exact hent tx₀ b' h' i' hent₀
  | _ => simp [TxState.index] at hidx

/-! ### When a transaction can be abandoned -/

/-- `AbandonTransaction` changes a transaction like this, and goes on behind it. -/
def Abandonable (v : WalletView) (t : Uint256) : Prop :=
  ∃ tx s, v.entry t = some (tx, s) ∧ s.depth v.height = 0 ∧ s.isAbandoned = false ∧ s ≠ .inMempool

/-- Nothing that `AbandonTransaction` comes to behind the transaction is confirmed or in
the mempool. -/
def FreeToAbandon (v : WalletView) (t : Uint256) : Prop :=
  ∀ y tx s, TransGen (fun c d => v.Abandonable c ∧ v.Child c d) t y → v.entry y = some (tx, s) →
    s.depth v.height ≤ 0 ∧ s ≠ .inMempool

end WalletView

/-! ### The functions that add transactions -/

namespace CWallet
variable {κ δ : Type} {U : Set CTransaction} {w : CWallet κ δ} {e : WalletAbort}

theorem emplaceTx_error (h : w.emplaceTx tx s = .error e) : w.view.Clash tx.getHash s := by
  rw [emplaceTx] at h
  split at h
  · cases h
  · next wtx hget =>
    have hent := view_entry_eq_some hget
    split_ifs at h with hidx hser hhash
    · exact ⟨_, _, hent, not_not.mp hidx, .inl hser⟩
    · exact ⟨_, _, hent, not_not.mp hidx, .inr hhash⟩

theorem abandonIfInactiveCoinBase_error (h : w.abandonIfInactiveCoinBase t = .error e) :
    e = .diverges := by
  rw [abandonIfInactiveCoinBase] at h
  split at h
  · cases h
  · split_ifs at h
    rw [abandonCoinBase] at h
    split at h
    · cases h
    · cases h
      rfl

/-- A call that does not end by an assertion. -/
abbrev Safe {α : Type} (Q : α → Prop) (x : Except WalletAbort α) : Prop :=
  Ends Q (fun e => e.isAssertion = false) x

theorem isAssertion_of_eq (h : e = .valueOutOfRange ∨ e = .diverges) : e.isAssertion = false := by
  rcases h with rfl | rfl <;> rfl

/-- `RefreshMempoolStatus` leaves the view or gives a state to a transaction of it. -/
theorem view_refreshMempoolStatus_cases (w : CWallet κ δ) (inMempool : Uint256 → Bool)
    (t : Uint256) :
    (w.refreshMempoolStatus inMempool t).view = w.view ∨ ∃ tx s s', w.view.entry t = some (tx, s) ∧
      (s' = .inMempool ∨ s' = .inactive false ∧ s = .inMempool) ∧
      (w.refreshMempoolStatus inMempool t).view = w.view.setEntry t (tx, s') := by
  cases hget : w.getWalletTx t with
  | none =>
    left
    refine view_eq_of (fun n => ?_) rfl rfl
    rw [refreshMempoolStatus, getWalletTx_modifyTx]
    by_cases hn : t = n
    · subst hn
      rw [if_pos rfl, hget]
      rfl
    · rw [if_neg hn]
  | some wtx =>
    rw [refreshMempoolStatus, view_modifyTx hget]
    have hent := view_entry_eq_some hget
    split_ifs with hin hst
    · exact .inr ⟨_, _, _, hent, .inl rfl, rfl⟩
    · exact .inr ⟨_, _, _, hent, .inr ⟨rfl, hst⟩, rfl⟩
    · left
      rw [setEntry, ← hent, Function.update_eq_self]

theorem linked_refreshMempoolStatus (hU : TxUniverse U) (h : w.view.Linked U)
    (inMempool : Uint256 → Bool) (t : Uint256) :
    (w.refreshMempoolStatus inMempool t).view.Linked U := by
  rcases w.view_refreshMempoolStatus_cases inMempool t with hview | ⟨tx, s, s', hent, -, hview⟩
  · rwa [hview]
  · rw [hview]
    obtain ⟨htx, hhash⟩ := h.known hent
    exact h.setEntry hU hent htx hhash s'

theorem becomes_refreshMempoolStatus (w : CWallet κ δ) (inMempool : Uint256 → Bool) (t : Uint256) :
    Becomes NeutralAt w.view (w.refreshMempoolStatus inMempool t).view := by
  rcases w.view_refreshMempoolStatus_cases inMempool t with hview | ⟨tx, s, s', -, hs, hview⟩
  · rw [hview]
    exact becomes_refl _ _
  · rw [hview]
    refine becomes_setEntry (.inr ?_)
    rcases hs with rfl | ⟨rfl, -⟩
    · exact TxState.neutral_inMempool
    · exact TxState.neutral_inactive false

section
variable [DecidableEq δ] {ops : KeyOps κ δ}

theorem addToWallet_error (h : w.addToWallet ops tx s = .error e) :
    e = .diverges ∨ w.view.Clash tx.getHash s := by
  rcases bind_eq_error.mp h with h | ⟨w₁, -, h⟩
  · have hclash := emplaceTx_error h
    rw [view_markUsedDestinations] at hclash
    exact .inr hclash
  · rcases bind_eq_error.mp h with h | ⟨w₂, -, h⟩
    · exact .inl (abandonIfInactiveCoinBase_error h)
    · cases h

/-- After the conflicts are marked, an assertion is about the stored transaction. -/
theorem syncTransaction_error {w₁ : CWallet κ δ} {state : SyncTxState}
    (hconfs : w.markConflicts tx state = .ok w₁)
    (h : w.syncTransaction ops tx state true = .error e) :
    e.isAssertion = false ∨ w₁.view.Clash tx.getHash state.toTxState := by
  rcases bind_eq_error.mp h with h | ⟨r, -, h⟩
  · rcases bind_eq_error.mp h with h | ⟨w₁', hw₁, h⟩
    · rw [hconfs] at h
      cases h
    rw [hconfs] at hw₁
    cases hw₁
    rw [Bool.not_true, Bool.and_false, if_neg Bool.false_ne_true] at h
    rcases bind_eq_error.mp h with h | ⟨involves, -, h⟩
    · rw [involvesMe] at h
      split_ifs at h
      rcases bind_eq_error.mp h with h | ⟨debit, -, h⟩
      · exact .inl (isAssertion_of_eq (.inl (getDebit_error h)))
      · cases h
    · cases involves with
      | false => cases h
      | true =>
        rcases bind_eq_error.mp h with h | ⟨w₂, -, h⟩
        · rcases addToWallet_error h with he | hclash
          · exact .inl (isAssertion_of_eq (.inr he))
          · exact .inr hclash
        · cases h
  · cases h

/-! ### Connected blocks -/

/-- The marks that a connected block leaves. -/
def StruckAt (U : Set CTransaction) (block : BlockInfo) (t : Uint256) (s : TxState) : Prop :=
  s = .conflicted block.hash block.height ∧ ∀ k ∈ U, k.getHash = t → k.isCoinBase = false

/-- States that the transaction of a connected block can bring about. -/
def ConnectedAt (U : Set CTransaction) (block : BlockInfo) (x : CTransaction) (t : Uint256)
    (s : TxState) : Prop :=
  s.Neutral ∨ StruckAt U block t s ∨ (t = x.getHash ∧ ∃ i, s = .confirmed block.hash block.height i)

section
variable (hU : TxUniverse U) {block : BlockInfo}

include hU

omit [DecidableEq δ] in
/-- Conflicts are marked on transactions that spend something. -/
theorem markConflicts_confirmed (hlink : w.view.Linked U) {i : Int}
    (hht : w.lastBlockProcessedHeight = block.height) (hnn : 0 ≤ block.height) :
    ∃ w₁, w.markConflicts x (.confirmed block.hash block.height i) = .ok w₁ ∧ w₁.view.Linked U ∧
      w₁.view.height = w.view.height ∧ Becomes (StruckAt U block) w.view w₁.view := by
  obtain ⟨w₁, hw₁, -, hview⟩ := foldlM_markConflicted hlink block.hash hht hnn
    (conflictsWith_known hlink x)
  have hdepth : (TxState.conflicted block.hash block.height).depth w.view.height ≤ -1 := by
    change -1 * (w.lastBlockProcessedHeight - block.height + 1) ≤ -1
    omega
  have hstruck := struckBy_strike hdepth (w.conflictsWith x)
  rw [← hview] at hstruck
  refine ⟨w₁, hw₁, hstruck.same.linked hlink, hstruck.height, ⟨fun {t tx s} hent => ?_⟩⟩
  rcases hstruck.entry t with hsame | ⟨-, ⟨tx', hent'⟩, a, ha, hpath⟩
  · exact .inl ⟨tx, by rwa [← hsame]⟩
  · rw [hent] at hent'
    cases hent'
    -- who is struck, or made from one that is, spends something
    have hspender : ∃ tx₀ s₀, w.view.entry t = some (tx₀, s₀) ∧ tx₀.isCoinBase = false := by
      rcases hpath.cases_tail with rfl | ⟨c, -, hch⟩
      · obtain ⟨⟨o, -, hmem⟩, -⟩ := mem_conflictsWith.mp ha
        obtain ⟨tx₀, s₀, hent₀, hcb, -⟩ := (hlink.spends_iff _ _).mp hmem
        exact ⟨tx₀, s₀, hent₀, hcb⟩
      · obtain ⟨tx₀, s₀, hent₀, hcb, -⟩ := hlink.child hch.1
        exact ⟨tx₀, s₀, hent₀, hcb⟩
    obtain ⟨tx₀, s₀, hent₀, hcb⟩ := hspender
    obtain ⟨htx₀, hhash₀⟩ := hlink.known hent₀
    refine .inr ⟨rfl, fun k hk hkt => ?_⟩
    rw [hU.isCoinBase_eq hk htx₀ (hkt.trans hhash₀.symm), hcb]

variable {inMempool : Uint256 → Bool}

theorem connectTx_safe (hlink : w.view.Linked U) (hx : x ∈ U) {i : Nat}
    (hht : w.lastBlockProcessedHeight = block.height) (hnn : 0 ≤ block.height)
    (hnew : ∀ tx b h i, w.view.entry x.getHash ≠ some (tx, .confirmed b h i)) :
    Safe (fun w' => w'.view.Linked U ∧ w'.view.height = w.view.height ∧
      Becomes (ConnectedAt U block x) w.view w'.view) (connectTx ops inMempool block w (x, i)) := by
  obtain ⟨w₁, hw₁, hlink₁, hht₁, hbec₁⟩ :=
    markConflicts_confirmed hU hlink (x := x) (i := i) hht hnn
  have hstep : Safe (fun w₂ => w₂.view.Linked U ∧ w₂.view.height = w₁.view.height ∧
      Becomes (ConnectedAt U block x) w₁.view w₂.view)
      (w.syncTransaction ops x (.confirmed block.hash block.height i) true) := by
    refine ⟨fun w₂ hsync => ?_, fun e he => ?_⟩
    · rcases syncTransaction_of_markConflicts _ hw₁ hsync with ⟨-, hview⟩ | hadded
      · rw [hview]
        exact ⟨hlink₁, rfl, becomes_refl _ _⟩
      · exact ⟨hadded.linked hU hx hlink₁, hadded.height,
          hadded.becomes (.inr (.inr ⟨rfl, _, rfl⟩)) fun t => .inl (TxState.neutral_inactive true)⟩
    · refine (syncTransaction_error hw₁ he).resolve_right (not_clash_confirmed ?_)
      intro tx b h j hent
      rcases hbec₁.entry hent with ⟨tx₀, hent₀⟩ | ⟨hs, -⟩
      · exact hnew tx₀ b h j hent₀
      · cases hs
  refine hstep.bind fun w₂ ⟨hlink₂, hht₂, hbec₂⟩ => ends_ok ⟨?_, ?_, ?_⟩
  · exact linked_refreshMempoolStatus hU hlink₂ inMempool _
  · exact hht₂.trans hht₁
  · refine ((hbec₁.mono fun _ _ hs => .inr (.inl hs)).trans hbec₂).trans ?_
    exact (becomes_refreshMempoolStatus w₂ inMempool x.getHash).mono fun _ _ hs => .inl hs

omit [DecidableEq δ] in
theorem truthful_connected (hx : x ∈ block.vtx) {v v' : WalletView}
    (h : v.Truthful U (block :: chain)) (hlink : v'.Linked U)
    (hbec : Becomes (ConnectedAt U block x) v v') : v'.Truthful U (block :: chain) := by
  refine ⟨hlink, fun {t tx b height i} hent => ?_, fun {t tx b height} hent => ?_⟩
  · rcases hbec.entry hent with ⟨tx₀, hent₀⟩ | hs | ⟨hs, -⟩ | ⟨rfl, j, hs⟩
    · exact h.confirmed hent₀
    · exact absurd rfl (hs.1 _ _ _)
    · cases hs
    · cases hs
      exact ⟨x, occurs_cons.mpr (.inl ⟨rfl, hx⟩), rfl⟩
  · obtain ⟨htx, hhash⟩ := hlink.known hent
    rcases hbec.entry hent with ⟨tx₀, hent₀⟩ | hs | ⟨-, hspender⟩ | ⟨-, j, hs⟩
    · obtain ⟨htx₀, hhash₀⟩ := h.linked.known hent₀
      rw [hU.isCoinBase_eq htx htx₀ (hhash.trans hhash₀.symm)]
      exact h.coinBase hent₀
    · exact absurd rfl (hs.2 _ _)
    · exact hspender tx htx hhash
    · cases hs

variable (ops) in
/-- A block none of whose transactions the wallet takes for confirmed. -/
theorem blockConnected_safe (h : w.view.Truthful U chain) (inMempool : Uint256 → Bool)
    (hnn : 0 ≤ block.height) (hblk : ∀ x ∈ block.vtx, x ∈ U) (hdist : (block.vtx.map getHash).Nodup)
    (hnew : ∀ x ∈ block.vtx, ∀ tx b h i, w.view.entry x.getHash ≠ some (tx, .confirmed b h i)) :
    Safe (fun w' => w'.view.Truthful U (block :: chain) ∧
      w'.lastBlockProcessedHeight = block.height) (w.blockConnected ops inMempool block) := by
  -- what holds while the transactions of `l` are still to come
  let I : List (CTransaction × Nat) → CWallet κ δ → Prop := fun l w =>
    w.view.Truthful U (block :: chain) ∧ w.lastBlockProcessedHeight = block.height ∧
      (∀ e ∈ l, e.1 ∈ block.vtx ∧
        ∀ tx b h i, w.view.entry e.1.getHash ≠ some (tx, .confirmed b h i)) ∧
      (l.map fun e => e.1.getHash).Nodup
  have hstart : I block.vtx.zipIdx
      { w with lastBlockProcessedHeight := block.height, lastBlockProcessed := block.hash } := by
    refine ⟨⟨?_, ?_, h.coinBase⟩, rfl, ?_, ?_⟩
    · exact ⟨h.linked.known, h.linked.spends_iff⟩
    · intro t tx b height i hent
      obtain ⟨x, hx, hhash⟩ := h.confirmed hent
      exact ⟨x, occurs_cons.mpr (.inr hx), hhash⟩
    · intro e he
      have hmem : e.1 ∈ block.vtx := (mem_zipIdx' he).2 ▸ getElem_mem _
      exact ⟨hmem, hnew e.1 hmem⟩
    · have hmap : block.vtx.zipIdx.map (fun e => e.1.getHash) = block.vtx.map getHash := by
        rw [← List.zipIdx_map_fst 0 block.vtx, List.map_map, List.zipIdx_map_fst]
        rfl
      rwa [hmap]
  have hrule := ends_foldlM (f := connectTx ops inMempool block) (I := I)
    (E := fun e => e.isAssertion = false) (l := block.vtx.zipIdx) ?_ hstart
  · exact ⟨fun w' hw' => ⟨(hrule.1 w' hw').1, (hrule.1 w' hw').2.1⟩, hrule.2⟩
  · rintro ⟨x, i⟩ l w ⟨htruth, hht, hcome, hnd⟩
    obtain ⟨hx, hxnew⟩ := hcome _ mem_cons_self
    obtain ⟨hok, herr⟩ := connectTx_safe hU htruth.linked (hblk x hx) hht hnn hxnew
    refine ⟨fun w' hw' => ?_, herr⟩
    obtain ⟨hlink', hht', hbec⟩ := hok w' hw'
    rw [map_cons, nodup_cons] at hnd
    refine ⟨truthful_connected hU hx htruth hlink' hbec, hht'.trans hht, ?_, hnd.2⟩
    intro e he
    obtain ⟨hmem, hfree⟩ := hcome e (mem_cons_of_mem _ he)
    refine ⟨hmem, fun tx b h j hent => ?_⟩
    rcases hbec.entry hent with ⟨tx₀, hent₀⟩ | hs | ⟨hs, -⟩ | ⟨hhash, -⟩
    · exact hfree tx₀ b h j hent₀
    · exact hs.1 b h j rfl
    · cases hs
    · exact hnd.1 (mem_map.mpr ⟨e, he, hhash⟩)

/-! ### Disconnected blocks -/

/-- One transaction of a block that is taken away. -/
theorem syncTransaction_withdrawn (hx : x ∈ U) {w' : CWallet κ δ} (hlink : w.view.Linked U)
    (h : w.syncTransaction ops x (.inactive false) true = .ok w') :
    w'.view.Linked U ∧ w'.view.height = w.view.height ∧ Becomes NeutralAt w.view w'.view ∧
      (∀ {tx s}, w'.view.entry x.getHash = some (tx, s) → s.Neutral) ∧
      ∀ t, t = x.getHash ∨ w'.view.entry t = w.view.entry t ∨
        x.isCoinBase = true ∧ w.view.MadeFrom x t := by
  obtain ⟨hlink', A, hwd, hA⟩ := syncTransaction_first hU hx hlink h
  refine ⟨hlink', hwd.height, ?_, fun {tx s} hent => ?_, fun t => ?_⟩
  · rcases syncTransaction_inactive h with ⟨-, hview⟩ | hadded
    · rw [hview]
      exact becomes_refl _ _
    · exact hadded.becomes (TxState.neutral_inactive false) fun _ => TxState.neutral_inactive true
  · have hinact := hwd.inactive x.getHash rfl hent
    cases s with
    | inactive abandoned => exact TxState.neutral_inactive abandoned
    | _ => cases hinact
  · by_cases ht : t = x.getHash
    · exact .inl ht
    by_cases htA : t ∈ A
    · exact .inr (.inr ((hA t htA).resolve_left ht))
    · exact .inr (.inl (hwd.same t ht htA))

variable (ops) in
/-- A block whose transactions are not abandoned, nor made from its coinbase. -/
theorem blockDisconnected_safe (h : w.view.Truthful U (block :: chain))
    (hblk : ∀ x ∈ block.vtx, x ∈ U) (hdist : (block.vtx.map getHash).Nodup)
    (hfst : ∀ x ∈ block.vtx.tail, x.isCoinBase = false)
    (hact : ∀ x ∈ block.vtx, ∀ tx, w.view.entry x.getHash ≠ some (tx, .inactive true))
    (hapart : ∀ k ∈ block.vtx, k.isCoinBase = true →
      ∀ x ∈ block.vtx, ¬ w.view.MadeFrom k x.getHash) :
    Safe (fun w' => w'.view.Truthful U chain ∧ w'.lastBlockProcessedHeight = block.height - 1)
      (w.blockDisconnected ops block) := by
  let w₀ : CWallet κ δ :=
    { w with lastBlockProcessedHeight := block.height - 1, lastBlockProcessed := block.prevHash }
  let I : List CTransaction → CWallet κ δ → Prop := fun l w =>
    (w.view.Linked U ∧ w.lastBlockProcessedHeight = block.height - 1 ∧
      Becomes NeutralAt w₀.view w.view) ∧
    (∀ x ∈ l, x ∈ block.vtx ∧ ∀ tx, w.view.entry x.getHash ≠ some (tx, .inactive true)) ∧
    (∀ x ∈ block.vtx, x ∈ l ∨ ∀ {tx s}, w.view.entry x.getHash = some (tx, s) → s.Neutral) ∧
    (l.map getHash).Nodup ∧ (∀ x ∈ l.tail, x.isCoinBase = false) ∧
    ∀ k ∈ l, k.isCoinBase = true → ∀ x ∈ l, ¬ w.view.MadeFrom k x.getHash
  have hstart : I block.vtx w₀ := ⟨⟨⟨h.linked.known, h.linked.spends_iff⟩, rfl, becomes_refl _ _⟩,
      fun x hx => ⟨hx, hact x hx⟩, fun x hx => .inl hx, hdist, hfst, hapart⟩
  have hrule := ends_foldlM (f := fun w tx => syncTransaction ops w tx (.inactive false) true)
    (I := I) (E := fun e => e.isAssertion = false) (l := block.vtx) ?_ hstart
  · refine ⟨fun w' hw' => ?_, hrule.2⟩
    obtain ⟨⟨hlink, hht, hbec⟩, -, hdone, -⟩ := hrule.1 w' hw'
    refine ⟨⟨hlink, fun {t tx b height i} hent => ?_, ?_⟩, hht⟩
    · rcases hbec.entry hent with ⟨tx₀, hent₀⟩ | hs
      · obtain ⟨x, hx, rfl⟩ := h.confirmed hent₀
        rcases occurs_cons.mp hx with ⟨-, hmem⟩ | hx
        · rcases hdone x hmem with hx | hneutral
          · cases hx
          · exact absurd rfl ((hneutral hent).1 _ _ _)
        · exact ⟨x, hx, rfl⟩
      · exact absurd rfl (hs.1 _ _ _)
    · have htruth₀ : w₀.view.Truthful U (block :: chain) :=
        ⟨⟨h.linked.known, h.linked.spends_iff⟩, h.confirmed, h.coinBase⟩
      intro t tx b height hent
      exact (htruth₀.neutral hU hlink hbec).coinBase hent
  · rintro x l w ⟨⟨hlink, hht, hbec⟩, hcome, hdone, hnd, htail, hmade⟩
    obtain ⟨hx, hxactive⟩ := hcome x mem_cons_self
    refine ⟨fun w' hw' => ?_, fun e he =>
      (syncTransaction_error rfl he).resolve_right (not_clash_inactive hxactive)⟩
    obtain ⟨hlink', hht', hbec', hneutral, hent'⟩ :=
      syncTransaction_withdrawn hU (hblk x hx) hlink hw'
    rw [map_cons, nodup_cons] at hnd
    refine ⟨⟨hlink', hht'.trans hht, hbec.trans hbec'⟩, fun y hy => ?_,
      fun y hy => ?_,
      hnd.2, fun y hy => htail y (mem_of_mem_tail hy), fun k hk hcb => ?_⟩
    · obtain ⟨hymem, hyactive⟩ := hcome y (mem_cons_of_mem x hy)
      refine ⟨hymem, fun tx hent => ?_⟩
      rcases hent' y.getHash with hyx | hsame | ⟨hcb, hfrom⟩
      · exact hnd.1 (hyx ▸ mem_map_of_mem hy)
      · exact hyactive tx (hsame ▸ hent)
      · exact hmade x mem_cons_self hcb y (mem_cons_of_mem x hy) hfrom
    · rcases hdone y hy with hyl | hyneutral
      · rcases mem_cons.mp hyl with rfl | hyl
        · exact .inr hneutral
        · exact .inl hyl
      · refine .inr fun {tx s} hent => ?_
        rcases hbec'.entry hent with ⟨tx₀, hent₀⟩ | hs
        · exact hyneutral hent₀
        · exact hs
    · rw [htail k hk] at hcb
      cases hcb

/-! ### The mempool -/

/-- What the events without a block keep. -/
abbrev Keeps (U : Set CTransaction) (chain : List BlockInfo) (w w' : CWallet κ δ) : Prop :=
  w'.view.Truthful U chain ∧ w'.view.height = w.view.height

variable (ops) in
theorem transactionAddedToMempool_safe (h : w.view.Truthful U chain) (inMempool : Uint256 → Bool)
    (htx : tx ∈ U) : Safe (Keeps U chain w) (w.transactionAddedToMempool ops inMempool tx) := by
  have hstep : Safe (Keeps U chain w) (w.syncTransaction ops tx .inMempool true) := by
    refine ⟨fun w₁ hsync => ?_, fun e he =>
      (syncTransaction_error rfl he).resolve_right (not_clash_inMempool _)⟩
    rcases syncTransaction_inMempool hsync with ⟨-, hview⟩ | hadded
    · rw [Keeps, hview]
      exact ⟨h, rfl⟩
    · refine ⟨h.neutral hU (hadded.linked hU htx h.linked) ?_, hadded.height⟩
      exact hadded.becomes TxState.neutral_inMempool fun _ => TxState.neutral_inactive true
  exact hstep.bind fun w₁ ⟨htruth, hht⟩ => ends_ok ⟨htruth.neutral hU
    (linked_refreshMempoolStatus hU htruth.linked inMempool _)
    (becomes_refreshMempoolStatus w₁ inMempool tx.getHash), hht⟩

variable (ops) in
theorem transactionRemovedFromMempool_safe (h : w.view.Truthful U chain) (htx : tx ∈ U)
    {reason : MemPoolRemovalReason} (hact : reason = .conflict → inMempool tx.getHash = false →
      ∀ tx', w.view.entry tx.getHash ≠ some (tx', .inactive true)) :
    Safe (Keeps U chain w) (w.transactionRemovedFromMempool ops inMempool tx reason) := by
  have href : (w.refreshMempoolStatus inMempool tx.getHash).view.Truthful U chain :=
    h.neutral hU (linked_refreshMempoolStatus hU h.linked inMempool _)
      (becomes_refreshMempoolStatus w inMempool tx.getHash)
  rw [transactionRemovedFromMempool]
  split_ifs with hconf
  · refine ⟨fun w' hw' => ?_, fun e he => ?_⟩
    · obtain ⟨hlink, hht, hbec, -⟩ :=
        syncTransaction_withdrawn hU htx href.linked hw'
      exact ⟨href.neutral hU hlink hbec, hht⟩
    · refine (syncTransaction_error rfl he).resolve_right (not_clash_inactive ?_)
      intro tx' hent
      -- a transaction that is in the mempool again is no longer abandoned
      rcases w.view_refreshMempoolStatus_cases inMempool tx.getHash with
        hview | ⟨tx₀, s, s', -, hs, hview⟩
      · have hnot : inMempool tx.getHash = false := by
          by_contra hin
          rw [Bool.not_eq_false] at hin
          rw [hview] at hent
          obtain ⟨wtx, hget, -, hst⟩ := exists_of_view_entry hent
          rw [refreshMempoolStatus, view_modifyTx hget, if_pos hin] at hview
          rw [← hview, setEntry_entry_self] at hent
          cases hent
        rw [hview] at hent
        exact hact hconf hnot tx' hent
      · rw [hview, setEntry_entry_self] at hent
        rcases hs with rfl | ⟨rfl, -⟩
        · cases hent
        · cases hent
  · exact ends_ok ⟨href, rfl⟩

end

/-! ### Actions of the user -/

omit [DecidableEq δ] in
theorem view_markCoinsDirty (w : CWallet κ δ) (vin : List CTxIn) :
    (w.markCoinsDirty vin).1.view = w.view := by
  induction vin generalizing w with
  | nil => rfl
  | cons txin vin ih =>
    rw [markCoinsDirty]
    split
    · rfl
    · rw [ih, view_modifyTx_markDirty]

omit [DecidableEq δ] in
theorem submitTx_safe (hU : TxUniverse U) (h : w.view.Truthful U chain) (t : Uint256)
    (accepted : Bool) : Keeps U chain w (w.submitTxMemoryPoolAndRelay t accepted) := by
  rw [submitTxMemoryPoolAndRelay]
  split
  · exact ⟨h, rfl⟩
  · next wtx hget =>
    split_ifs
    · rw [Keeps, view_modifyTx hget]
      obtain ⟨htx, hhash⟩ := h.linked.known (view_entry_eq_some hget)
      refine ⟨h.neutral hU (h.linked.setEntry hU (view_entry_eq_some hget) htx hhash _) ?_, rfl⟩
      exact becomes_setEntry (.inr TxState.neutral_inMempool)
    · exact ⟨h, rfl⟩

variable (ops) in
theorem commitTransaction_safe (hU : TxUniverse U) (h : w.view.Truthful U chain) (htx : tx ∈ U)
    (accepted : Bool) (hact : ∀ tx', w.view.entry tx.getHash ≠ some (tx', .inactive true)) :
    Safe (fun r => Keeps U chain w r.1) (w.commitTransaction ops tx accepted) := by
  have hadd : Safe (Keeps U chain w) (w.addToWallet ops tx (.inactive false)) := by
    refine ⟨fun w₁ hadd => ?_, fun e he => ?_⟩
    · have hadded := added_addToWallet hadd
      refine ⟨h.neutral hU (hadded.linked hU htx h.linked) ?_, hadded.height⟩
      exact hadded.becomes (TxState.neutral_inactive false) fun _ => TxState.neutral_inactive true
    · rcases addToWallet_error he with rfl | hclash
      · rfl
      · exact absurd hclash (not_clash_inactive hact)
  refine hadd.bind fun w₁ hw₁ => ends_ok ?_
  have hdirty : Keeps U chain w (w₁.markCoinsDirty tx.vin).1 := by
    rw [Keeps, view_markCoinsDirty]
    exact hw₁
  split_ifs
  · obtain ⟨hsubmit, hht⟩ := submitTx_safe hU hdirty.1 tx.getHash accepted
    exact ⟨hsubmit, hht.trans hdirty.2⟩
  · exact hdirty

end

variable {lastBlockHeight : Int}

theorem abandonTest_eq_true (h : abandonTest lastBlockHeight s = .ok true) :
    s.depth lastBlockHeight = 0 ∧ s.isAbandoned = false ∧ s ≠ .inMempool := by
  rw [abandonTest] at h
  split_ifs at h with hpos hzero hmempool
  · exact ⟨hzero.1, hzero.2, hmempool⟩
  · cases h

theorem abandonTest_ok (hdepth : s.depth lastBlockHeight ≤ 0) (hmempool : s ≠ .inMempool) :
    ∃ b, abandonTest lastBlockHeight s = .ok b := by
  rw [abandonTest, if_neg (by omega), if_neg hmempool]
  split_ifs
  · exact ⟨true, rfl⟩
  · exact ⟨false, rfl⟩

theorem abandonTransaction_safe (hU : TxUniverse U) (h : w.view.Truthful U chain)
    (ht : ∃ wtx, w.getWalletTx t = some wtx) (hfree : w.view.FreeToAbandon t) :
    ∃ r, w.abandonTransaction t = .ok r ∧ Keeps U chain w r.1 := by
  obtain ⟨origtx, hget⟩ := ht
  rw [abandonTransaction, hget]
  dsimp only
  split_ifs with hskip
  · exact ⟨_, rfl, h, rfl⟩
  rw [not_or, not_not] at hskip
  have habandonable : ∀ {c d}, d ∈ behind (testAt (abandonTest w.lastBlockProcessedHeight)
      .abandonedTxMissing w) w.childSet c → w.view.Abandonable c ∧ w.view.Child c d := by
    intro c d hd
    rw [behind] at hd
    split at hd
    · next htest =>
      refine ⟨?_, mem_childSet_iff_child.mp hd⟩
      rw [testAt] at htest
      split at htest
      · cases htest
      · next wtx hc => exact ⟨_, _, view_entry_eq_some hc, abandonTest_eq_true htest⟩
    · exact absurd hd (Finset.notMem_empty d)
  have hpass : ∀ y wtx, ReflTransGen (fun c d => d ∈ behind (testAt (abandonTest
      w.lastBlockProcessedHeight) .abandonedTxMissing w) w.childSet c) t y →
        w.getWalletTx y = some wtx →
      ∃ b, abandonTest w.lastBlockProcessedHeight wtx.state = .ok b := by
    intro y wtx hpath hy
    rcases reflTransGen_iff_eq_or_transGen.mp hpath with rfl | hpath
    · rw [hget] at hy
      cases hy
      exact abandonTest_ok (le_of_eq hskip.1) hskip.2
    · have hpath' : TransGen (fun c d => w.view.Abandonable c ∧ w.view.Child c d) t y :=
        TransGen.mono (fun c d hd => habandonable hd) _ _ hpath
      obtain ⟨hdepth, hmempool⟩ := hfree y _ _ hpath' (view_entry_eq_some hy)
      exact abandonTest_ok hdepth hmempool
  obtain ⟨w', hw', hmark⟩ :=
    markDescendants_ok (.inactive true) (spendersKnown_of_linked h.linked)
    ⟨origtx, hget⟩ hpass
  rw [hw']
  refine ⟨(w', true), rfl, ?_, ?_⟩
  · rw [hmark.view_eq]
    exact h.neutral hU ((sameTxs_mark _ _ _).linked h.linked)
      (becomes_mark fun _ _ => TxState.neutral_inactive true)
  · rw [hmark.view_eq]
    rfl

end CWallet

/-! ### Runs -/

/-- The blocks stand at the heights that their places in the chain give. -/
def HeightsFit : List BlockInfo → Prop
  | [] => True
  | b :: chain => b.height = chain.length ∧ HeightsFit chain

theorem HeightsFit.lt (h : HeightsFit chain) {height : Int} (hx : Occurs chain height x) :
    height < chain.length := by
  induction chain with
  | nil =>
    obtain ⟨b, hb, -⟩ := hx
    cases hb
  | cons b chain ih =>
    rw [length_cons]
    rcases occurs_cons.mp hx with ⟨rfl, -⟩ | hx
    · rw [h.1]
      omega
    · have hlt := ih h.2 hx
      omega

/-- What the checks of a block give: its transactions have different ids, and only the
first is a coinbase. -/
structure BlockInfo.Acceptable (U : Set CTransaction) (b : BlockInfo) : Prop where
  inU : ∀ x ∈ b.vtx, x ∈ U
  distinct : (b.vtx.map getHash).Nodup
  first : ∀ x ∈ b.vtx.tail, x.isCoinBase = false

namespace NotifiedChain
variable {U : Set CTransaction}

/-- In a chain as it is notified the heights fit and the blocks are acceptable. -/
theorem heightsFit (h : NotifiedChain chain) : HeightsFit chain := by
  induction chain with
  | nil => trivial
  | cons b chain ih => exact ⟨h.height_eq, ih h.tail⟩

theorem acceptable (h : NotifiedChain chain) (hU : ∀ {height x}, Occurs chain height x → x ∈ U) :
    ∀ b ∈ chain, b.Acceptable U := by
  induction h with
  | nil => nofun
  | block _ _ hemp ih =>
    refine forall_mem_cons.mpr ⟨?_, ih fun hx => hU ((occurs_empty hemp).mpr hx)⟩
    constructor <;> simp [hemp]
  | @push chain b x _ hfits hfst ih =>
    obtain ⟨⟨hinU, hdist, hrest⟩, hchain⟩ :=
      forall_mem_cons.mp (ih fun hx => hU (occurs_push.mpr (.inl hx)))
    refine forall_mem_cons.mpr ⟨⟨?_, ?_, ?_⟩, hchain⟩
    · exact fun y hy => hU ⟨_, mem_cons_self, rfl, hy⟩
    · rw [BlockInfo.push, map_append, map_singleton]
      refine nodup_append.mpr ⟨hdist, nodup_singleton _, fun t ht t' ht' => ?_⟩
      rintro rfl
      obtain ⟨y, hy, rfl⟩ := mem_map.mp ht
      exact hfits.fresh ⟨b.height, y, ⟨b, mem_cons_self, rfl, hy⟩, mem_singleton.mp ht'⟩
    · intro y hy
      rw [BlockInfo.push] at hy
      cases hvtx : b.vtx with
      | nil => simp [hvtx] at hy
      | cons first rest =>
        simp only [hvtx, cons_append, tail_cons, mem_append, mem_singleton] at hy hrest
        rcases hy with hy | rfl
        · exact hrest y hy
        · exact hfst (by simp [hvtx])

end NotifiedChain

/-- The chain that the node has after an event. -/
def WalletEvent.chainAfter (chain : List BlockInfo) : WalletEvent → List BlockInfo
  | .blockConnected _ block => block :: chain
  | .blockDisconnected _ => chain.tail
  | _ => chain

section Runs
variable {κ δ : Type} [DecidableEq δ]

def SyncState.next (ops : KeyOps κ δ) (s : SyncState κ δ) (e : WalletEvent) :
    Except WalletAbort (SyncState κ δ) :=
  (s.wallet.handle ops e).map fun w => ⟨e.chainAfter s.chain, w⟩

/-- The events that a node and a user can cause. -/
def WalletEvent.Possible (U : Set CTransaction) (s : SyncState κ δ) : WalletEvent → Prop
  | .blockConnected _ block => block.height = s.chain.length ∧ block.Acceptable U
  | .blockDisconnected block => ∃ chain, s.chain = block :: chain
  | .transactionAddedToMempool _ tx => tx ∈ U
  | .transactionRemovedFromMempool _ tx _ => tx ∈ U
  | .commitTransaction tx _ => tx ∈ U
  | .abandonTransaction txid => ∃ wtx, s.wallet.getWalletTx txid = some wtx
  | .getBalance _ _ => True

/-- The condition on an event, about the wallet before it: no transaction of a connected
block is confirmed already; no transaction of a disconnected block is abandoned or made
from the coinbase of the block; a transaction that is committed, or that has left the
mempool because of a conflict, is not abandoned; and behind a transaction that the user
abandons nothing is confirmed or in the mempool. -/
def WalletEvent.Unsurprising (s : SyncState κ δ) : WalletEvent → Prop
  | .blockConnected _ block => ∀ x ∈ block.vtx, ∀ tx b h i,
      s.wallet.view.entry x.getHash ≠ some (tx, .confirmed b h i)
  | .blockDisconnected block =>
    (∀ x ∈ block.vtx, ∀ tx, s.wallet.view.entry x.getHash ≠ some (tx, .inactive true)) ∧
      ∀ k ∈ block.vtx, k.isCoinBase = true → ∀ x ∈ block.vtx, ¬ s.wallet.view.MadeFrom k x.getHash
  | .transactionRemovedFromMempool inMempool tx reason => reason = .conflict →
      inMempool tx.getHash = false → ∀ tx',
        s.wallet.view.entry tx.getHash ≠ some (tx', .inactive true)
  | .commitTransaction tx _ => ∀ tx', s.wallet.view.entry tx.getHash ≠ some (tx', .inactive true)
  | .abandonTransaction txid => s.wallet.view.FreeToAbandon txid
  | _ => True

/-- The process has been ended by an assertion. -/
def assertionFails {α : Type} : Except WalletAbort α → Bool
  | .error e => e.isAssertion
  | .ok _ => false

/-- What holds of a wallet next to its chain between two events. -/
structure SyncState.Sound (U : Set CTransaction) (s : SyncState κ δ) : Prop where
  truthful : s.wallet.view.Truthful U s.chain
  fits : HeightsFit s.chain
  height : s.wallet.lastBlockProcessedHeight = s.chain.length - 1
  blocks : ∀ b ∈ s.chain, b.Acceptable U

variable {ops : KeyOps κ δ} {U : Set CTransaction}

omit [DecidableEq δ] in
/-- A coinbase of a sound wallet is at no negative depth. -/
theorem SyncState.Sound.depth_nonneg {s : SyncState κ δ} (h : s.Sound U) {st : TxState}
    (hent : s.wallet.view.entry t = some (tx, st)) (hcb : tx.isCoinBase = true) :
    0 ≤ st.depth s.wallet.lastBlockProcessedHeight := by
  cases st with
  | confirmed b height i =>
    obtain ⟨x, hx, -⟩ := h.truthful.confirmed hent
    have hlt := h.fits.lt hx
    have hht := h.height
    simp only [TxState.depth]
    omega
  | conflicted b height =>
    rw [h.truthful.coinBase hent] at hcb
    cases hcb
  | inMempool | inactive abandoned | unrecognized b i => exact le_refl 0

/-- One event: no assertion, and the state after it is sound. -/
theorem SyncState.Sound.handle (hU : TxUniverse U) {s : SyncState κ δ} (h : s.Sound U)
    {e : WalletEvent} (hposs : e.Possible U s) (hcond : e.Unsurprising s) :
    (∀ s', s.next ops e = .ok s' → s'.Sound U) ∧ assertionFails (s.next ops e) = false := by
  -- it suffices to look at the wallet
  suffices hwallet : (∀ w', s.wallet.handle ops e = .ok w' →
      (⟨e.chainAfter s.chain, w'⟩ : SyncState κ δ).Sound U) ∧
      ∀ a, s.wallet.handle ops e = .error a → a.isAssertion = false by
    rw [SyncState.next]
    refine ⟨fun s' hs' => ?_, ?_⟩
    · obtain ⟨w', hw', rfl⟩ := map_eq_ok.mp hs'
      exact hwallet.1 w' hw'
    · cases hhandle : s.wallet.handle ops e with
      | ok w' => rfl
      | error a => exact hwallet.2 a hhandle
  have hkeep : ∀ {w' : CWallet κ δ}, Keeps U s.chain s.wallet w' →
      (⟨s.chain, w'⟩ : SyncState κ δ).Sound U := fun ⟨htruth, hht⟩ =>
    ⟨htruth, h.fits, hht.trans h.height, h.blocks⟩
  cases e with
  | blockConnected inMempool block =>
    obtain ⟨hht, hblk⟩ := hposs
    obtain ⟨hok, herr⟩ := blockConnected_safe ops hU h.truthful inMempool (by omega)
      hblk.inU hblk.distinct hcond
    refine ⟨fun w' hw' => ?_, herr⟩
    obtain ⟨htruth, hlast⟩ := hok w' hw'
    refine ⟨htruth, ⟨hht, h.fits⟩, ?_, forall_mem_cons.mpr ⟨hblk, h.blocks⟩⟩
    rw [hlast, hht]
    simp [WalletEvent.chainAfter]
  | blockDisconnected block =>
    obtain ⟨chain, hchain⟩ := hposs
    have htruth := h.truthful
    have hfits := h.fits
    have hbs := h.blocks
    rw [hchain] at htruth hfits hbs
    obtain ⟨hblk, hlow⟩ := forall_mem_cons.mp hbs
    obtain ⟨hok, herr⟩ := blockDisconnected_safe ops hU htruth hblk.inU
      hblk.distinct hblk.first hcond.1 hcond.2
    refine ⟨fun w' hw' => ?_, herr⟩
    obtain ⟨htruth', hlast⟩ := hok w' hw'
    rw [WalletEvent.chainAfter, hchain, tail_cons]
    exact ⟨htruth', hfits.2, by rw [hlast, hfits.1], hlow⟩
  | transactionAddedToMempool inMempool tx =>
    obtain ⟨hok, herr⟩ := transactionAddedToMempool_safe ops hU h.truthful inMempool hposs
    exact ⟨fun w' hw' => hkeep (hok w' hw'), herr⟩
  | transactionRemovedFromMempool inMempool tx reason =>
    obtain ⟨hok, herr⟩ := transactionRemovedFromMempool_safe ops hU h.truthful hposs hcond
    exact ⟨fun w' hw' => hkeep (hok w' hw'), herr⟩
  | commitTransaction tx accepted =>
    obtain ⟨hok, herr⟩ := commitTransaction_safe ops hU h.truthful hposs accepted hcond
    refine ⟨fun w' hw' => ?_, fun a ha => herr a (map_eq_error.mp ha)⟩
    obtain ⟨r, hr, rfl⟩ := map_eq_ok.mp hw'
    exact hkeep (hok r hr)
  | abandonTransaction txid =>
    obtain ⟨r, hr, hkept⟩ := abandonTransaction_safe hU h.truthful hposs hcond
    rw [CWallet.handle, hr]
    exact ends_ok (hkeep hkept)
  | getBalance minDepth avoidReuse =>
    have hquiet : WalletM.Quiet s.wallet.clear (fun a => a.isAssertion = false)
        (getBalance ops minDepth avoidReuse) := by
      refine quiet_getBalance (E := fun a => a.isAssertion = false) rfl rfl
        (fun t tx st hent hcb => ?_) minDepth avoidReuse
      rw [view_clear] at hent
      exact h.depth_nonneg hent hcb
    obtain ⟨hclear, herr⟩ := hquiet s.wallet rfl
    have hview : (getBalance ops minDepth avoidReuse s.wallet).2.view = s.wallet.view := by
      rw [← view_clear, hclear, view_clear]
    have hok : (⟨s.chain, (getBalance ops minDepth avoidReuse s.wallet).2⟩ :
        SyncState κ δ).Sound U := hkeep ⟨by rw [hview]; exact h.truthful, by rw [hview]⟩
    rw [CWallet.handle]
    rcases hrun : getBalance ops minDepth avoidReuse s.wallet with ⟨a | balance, w₁⟩
    all_goals rw [hrun] at hok
    · rw [hrun] at herr
      cases a with
      | valueOutOfRange => exact ends_ok hok
      | _ =>
        refine ⟨fun w' hw' => (nomatch hw'), fun a' ha' => ?_⟩
        cases ha'
        exact herr _ rfl
    · exact ends_ok hok

/-- **No assertion fires.** From a sound state, along every sequence of events that are
possible and meet the condition, no event ends the process by an assertion. -/
theorem no_assertion_fires (hU : TxUniverse U) {s s' : SyncState κ δ} {events : List WalletEvent}
    (hsound : s.Sound U)
    (hrun : Run (fun s e s' => s.next ops e = .ok s' ∧ e.Possible U s ∧ e.Unsurprising s) s
      events s')
    {e : WalletEvent} (hposs : e.Possible U s') (hcond : e.Unsurprising s') :
    assertionFails (s'.next ops e) = false := by
  have hsound' : s'.Sound U := hrun.invariant (I := fun s => s.Sound U) hsound
    fun hI hstep => (hI.handle hU hstep.2.1 hstep.2.2).1 _ hstep.1
  exact (hsound'.handle hU hposs hcond).2

end Runs

/-! ### A payment that is confirmed, taken back and confirmed again -/

section
variable {κ δ : Type} {txs : List CTransaction} {s : SyncState κ δ}

/-- `Possible` and `Unsurprising` as a test, for some of the events. -/
def WalletEvent.check (txs : List CTransaction) (s : SyncState κ δ) : WalletEvent → Bool
  | .blockConnected _ block =>
    decide (block.height = s.chain.length ∧ (∀ x ∈ block.vtx, x ∈ txs) ∧
      (block.vtx.map getHash).Nodup ∧ (∀ x ∈ block.vtx.tail, x.isCoinBase = false) ∧
      ∀ x ∈ block.vtx, ∀ e ∈ s.wallet.view.entry x.getHash, e.2.index ≠ 0)
  | .blockDisconnected block =>
    decide (s.chain.head? = some block ∧
      (∀ x ∈ block.vtx, ∀ e ∈ s.wallet.view.entry x.getHash, e.2 ≠ .inactive true) ∧
      ∀ k ∈ block.vtx, k.isCoinBase = true → ∀ o ∈ s.wallet.mapTxSpends, o.1.hash ≠ k.getHash)
  | .commitTransaction tx _ =>
    decide (tx ∈ txs ∧ ∀ e ∈ s.wallet.view.entry tx.getHash, e.2 ≠ .inactive true)
  | .getBalance _ _ => true
  | _ => false

theorem WalletEvent.of_check {e : WalletEvent} (h : e.check txs s = true) :
    e.Possible {tx | tx ∈ txs} s ∧ e.Unsurprising s := by
  cases e with
  | blockConnected inMempool block =>
    obtain ⟨hht, hinU, hdist, hfst, hents⟩ := of_decide_eq_true h
    refine ⟨⟨hht, hinU, hdist, hfst⟩, fun x hx tx b height i hent => ?_⟩
    exact hents x hx _ hent rfl
  | blockDisconnected block =>
    obtain ⟨htip, hents, hsp⟩ := of_decide_eq_true h
    refine ⟨⟨s.chain.tail, (cons_head?_tail htip).symm⟩, fun x hx tx hent => ?_, ?_⟩
    · exact hents x hx _ hent rfl
    · rintro k hk hcb x - ⟨d, ⟨i, -, hmem⟩, -⟩
      exact hsp k hk hcb _ hmem rfl
  | commitTransaction tx accepted =>
    obtain ⟨htx, hent⟩ := of_decide_eq_true h
    exact ⟨htx, fun tx' hsome => hent _ hsome rfl⟩
  | getBalance => exact ⟨trivial, trivial⟩
  | transactionAddedToMempool | transactionRemovedFromMempool | abandonTransaction => cases h

/-- A wallet without transactions is sound next to every chain. -/
theorem sound_walletAt {U : Set CTransaction} (h : NotifiedChain chain)
    (hU : ∀ {height x}, Occurs chain height x → x ∈ U) (hash : Uint256) :
    (⟨chain, TwoCoins.walletAt (chain.length - 1) hash⟩ : SyncState Unit Unit).Sound U := by
  refine ⟨⟨⟨nofun, fun o t => ?_⟩, nofun, nofun⟩,
    h.heightsFit, rfl, h.acceptable hU⟩
  refine iff_of_false not_mem_nil ?_
  rintro ⟨tx, s, hent, -⟩
  cases hent

end

namespace TwoCoins

/-- The coins come, the payment is made, and its block comes, goes and comes again. -/
def events : List WalletEvent := [
  .blockConnected noMempool withCoins,
  .commitTransaction payment true,
  .blockConnected noMempool withPayment,
  .blockDisconnected withPayment,
  .blockConnected noMempool withPayment]

def fresh : SyncState Unit Unit := ⟨below, walletAt 1 (uint256S 11)⟩

theorem sound : fresh.Sound U :=
  sound_walletAt (notified mem_cons_self).tail.tail
    (fun ⟨b, hb, _, hx⟩ => blocks_fit.2.1 b (by simp [hb]) _ hx) _

/-- An event after the test. -/
def checkedNext (s : SyncState Unit Unit) (e : WalletEvent) : Option (SyncState Unit Unit) :=
  if e.check transactions s then (s.next ops e).toOption else none

theorem of_checkedNext {s s' : SyncState Unit Unit} {e : WalletEvent}
    (h : checkedNext s e = some s') :
    s.next ops e = .ok s' ∧ e.Possible U s ∧ e.Unsurprising s := by
  unfold checkedNext at h
  split_ifs at h with hck
  refine ⟨?_, WalletEvent.of_check hck⟩
  cases hnext : s.next ops e with
  | error a =>
    rw [hnext] at h
    cases h
  | ok s₁ =>
    rw [hnext] at h
    rw [Option.some.inj h]

theorem outcome_events : (events.foldlM checkedNext fresh).map (fun s =>
    (s.wallet.view.entry payment.getHash).map Prod.snd) =
      some (some (.confirmed withPayment.hash 3 1)) := by
  decide +kernel

end TwoCoins

open TwoCoins in
/-- The theorem for a payment whose block is taken away and connected again. -/
theorem no_assertion_fires_payment : ∃ s,
    Run (fun s e s' => s.next ops e = .ok s' ∧ e.Possible U s ∧ e.Unsurprising s) fresh events s ∧
      (s.wallet.view.entry payment.getHash).map Prod.snd = some (.confirmed withPayment.hash 3 1) ∧
      assertionFails (s.next ops (.getBalance 0 false)) = false := by
  obtain ⟨s, hevents, hst⟩ := Option.map_eq_some_iff.mp outcome_events
  have hrun := (run_of_foldlM_some hevents).imp of_checkedNext
  exact ⟨s, hrun, hst, no_assertion_fires txUniverse sound hrun trivial trivial⟩

/-! ### A coinbase that is confirmed twice

Where neither heights in coinbases nor unspent outputs of the same name are asked
about, two blocks of a chain can have the same coinbase. This is such a chain on the
main network, of blocks that need no work as long as payloads are not looked at, and a
wallet that owns the coinbase. -/

namespace RepeatedCoinbase

def given : GivenBlocks where
  hash
    | 0 => uint256S 0x67771c219894da825ee12f9c26d8c012f033c008ceff9e9d7d8a7be533393e4e
    | _ => uint256S 0xb2e89b1db5615dec98e57f9683bc9b9ee3987e4366a5569e56d05a664ed29b2a
  later hashPrevBlock n :=
    { worklessBlock with hashPrevBlock, nTime := UInt32.ofNat (1411788333 + 180 * (n + 1)) }

theorem readable_block (n : Nat) : (given.block (n + 1)).Readable := by
  have hauxpow : (given.block (n + 1)).isAuxpow = true :=
    show ((0x60170 : Int32) &&& CPureBlockHeader.versionAuxpow != 0) = true by decide
  refine ⟨⟨hauxpow, fun ap hap => ?_⟩, show 1 ≤ maxSize by decide, fun tx htx => ?_⟩
  · cases hap
    exact CAuxPow.readable_of_length_le rfl (fun hnil => by cases hnil) (by decide +kernel)
  · obtain rfl := mem_singleton.mp htx
    exact ⟨CTransaction.fits_of_length_le (by decide +kernel), fun hnil => by cases hnil⟩

theorem checked : given.Checked 2 where
  hash := by decide +kernel
  linked _ _ := rfl
  nBits _ _ := rfl
  readable := readable_block
  checkBlock := by decide +kernel
  header := by decide +kernel
  contents := by decide +kernel
  connects := by decide +kernel

def info (n : Nat) : BlockInfo :=
  ⟨given.blockHash n, (given.block n).hashPrevBlock, n, (given.block n).vtx⟩

def ops : KeyOps Unit Unit :=
  TwoCoins.opsFor fun script => firstCoinbase.vout.any fun txout => txout.scriptPubKey = script

/-- A new wallet that knows of the genesis block. -/
def start : SyncState Unit Unit := ⟨[info 0], TwoCoins.walletAt 0 (given.blockHash 0)⟩

def transactions : List CTransaction := mainGenesis.vtx ++ [firstCoinbase]

def U : Set CTransaction := {tx | tx ∈ transactions}

def connected (n : Nat) : WalletEvent := .blockConnected (fun _ => false) (info n)

theorem infos_fit : (∀ a ∈ transactions, ∀ b ∈ transactions, a.getHash = b.getHash → a = b) ∧
    NotifiedChain.check [info 0] = true ∧
    ∀ n < 3, (∀ x ∈ (info n).vtx, x ∈ transactions) ∧ ((info n).vtx.map getHash).Nodup ∧
      ∀ x ∈ (info n).vtx.tail, x.isCoinBase = false := by
  decide +kernel

theorem txUniverse : TxUniverse U := .of_injOn fun a ha b hb h => infos_fit.1 a ha b hb h

theorem acceptable {n : Nat} (hn : n < 3) : (info n).Acceptable U := by
  obtain ⟨hinU, hdist, hfst⟩ := infos_fit.2.2 n hn
  exact ⟨hinU, hdist, hfst⟩

theorem sound : start.Sound U := by
  refine sound_walletAt (NotifiedChain.of_check infos_fit.2.1) (fun ⟨b, hb, _, hx⟩ => ?_) _
  obtain rfl := mem_singleton.mp hb
  exact (acceptable (by decide)).inU _ hx

/-- The first of the two blocks is connected without trouble. -/
theorem exists_next : ∃ w, start.next ops (connected 1) = .ok ⟨[info 1, info 0], w⟩ ∧
    assertionFails ((⟨[info 1, info 0], w⟩ : SyncState Unit Unit).next ops (connected 2)) =
      true := by
  have hrun : ((start.wallet.handle ops (connected 1)).map fun w =>
      assertionFails ((⟨[info 1, info 0], w⟩ : SyncState Unit Unit).next ops
        (connected 2))).toOption = some true := by
    decide +kernel
  obtain ⟨w, hfst, hfails⟩ := exists_of_toOption_map hrun
  refine ⟨w, ?_, hfails⟩
  rw [SyncState.next, hfst]
  rfl

end RepeatedCoinbase

open RepeatedCoinbase in
/-- Two blocks of the main network with the same coinbase: when the second is connected,
`AddToWallet` finds the coinbase confirmed in the first. -/
theorem repeated_coinbase_aborts :
    AcceptedChain mainEnv SmallChain.noKeys CCoinsViewDB.view (given.branch 2) (given.blocks 2)
        (given.coins 2) ∧
      TxUniverse U ∧ start.Sound U ∧
      ∃ s, (Run (fun s e s' => s.next ops e = .ok s' ∧ e.Possible U s) start [connected 1] s ∧
        (connected 2).Possible U s) ∧ assertionFails (s.next ops (connected 2)) = true := by
  obtain ⟨w, hnext, hfails⟩ := exists_next
  refine ⟨checked.accepted le_rfl, txUniverse, sound, _, ⟨?_, rfl, acceptable (by decide)⟩, hfails⟩
  exact Run.nil.snoc ⟨hnext, rfl, acceptable (by decide)⟩

end Lithium
