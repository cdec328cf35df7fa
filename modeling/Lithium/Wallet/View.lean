import Lithium.Lib.Fallible
import Lithium.Wallet.Effects

/-!
# The wallet without its caches

The states that transactions have, who spends what, and the height of the last
block are all that notifications depend on, next to the scripts of the wallet. The
view of a wallet keeps these. What the functions of the wallet do is said here as an
operation on views, and whatever follows from the states alone is proved over
views.
-/

namespace Lithium
open Lib Relation Function Option
variable {A : Set Uint256} {s : TxState} {t : Uint256} {tx : CTransaction} (v : WalletView)

structure WalletView where
  entry : Uint256 → Option (CTransaction × TxState)
  spends : List (COutPoint × Uint256)
  height : Int

def CWallet.view {κ δ : Type} (w : CWallet κ δ) : WalletView where
  entry := fun t => (w.getWalletTx t).map fun wtx => (wtx.tx, wtx.state)
  spends := w.mapTxSpends
  height := w.lastBlockProcessedHeight

namespace WalletView

section
variable (v : WalletView)

/-- The transaction with the second id spends an output of the first. -/
def Child (c d : Uint256) : Prop := ∃ tx s, v.entry c = some (tx, s) ∧
    ∃ i < tx.vout.length, (⟨c, UInt32.ofNat i⟩, d) ∈ v.spends

/-- The same between transactions of the wallet. -/
def WalletChild (c d : Uint256) : Prop := v.Child c d ∧ ∃ e, v.entry d = some e

def Descendants (t : Uint256) : Set Uint256 := {y | ReflTransGen v.WalletChild t y}

open Classical in
/-- The view in which the transactions of a set have taken a state. -/
noncomputable def mark (A : Set Uint256) (s : TxState) : WalletView :=
  { v with entry := fun t => if t ∈ A then (v.entry t).map fun e => (e.1, s) else v.entry t }

/-- The view in which one transaction has an entry. -/
def setEntry (t : Uint256) (e : CTransaction × TxState) : WalletView :=
  { v with entry := update v.entry t (some e) }

end

theorem mark_entry_of_mem {v : WalletView} (h : t ∈ A) :
    (v.mark A s).entry t = (v.entry t).map fun e => (e.1, s) := by
  exact if_pos h

theorem mark_entry_of_notMem {v : WalletView} (h : t ∉ A) : (v.mark A s).entry t = v.entry t := by
  exact if_neg h

@[simp] theorem setEntry_entry_self (t : Uint256) (e : CTransaction × TxState) :
    (v.setEntry t e).entry t = some e := update_self ..

theorem setEntry_entry_of_ne {n : Uint256} (e : CTransaction × TxState) (h : n ≠ t) :
    (v.setEntry t e).entry n = v.entry n := update_of_ne h ..

/-- What `AddToWallet` makes of the entry of a transaction: a new entry, a new state,
or, if the state is of the same kind and agrees, at most the witness. -/
inductive Stored (v : WalletView) (tx : CTransaction) (s : TxState) : WalletView → Prop
  | fresh : v.entry tx.getHash = none → Stored v tx s { v.setEntry tx.getHash (tx, s) with
        spends := if tx.isCoinBase then v.spends
          else v.spends ++ tx.vin.map fun txin => (txin.prevout, tx.getHash) }
  | changed {tx₀ tx' : CTransaction} {s₀ : TxState} : v.entry tx.getHash = some (tx₀, s₀) →
      s.index ≠ s₀.index → (tx' = tx₀ ∨ tx' = tx) → Stored v tx s (v.setEntry tx.getHash (tx', s))
  | kept {tx₀ tx' : CTransaction} {s₀ : TxState} : v.entry tx.getHash = some (tx₀, s₀) →
      s.index = s₀.index → s₀.serializedIndex = s.serializedIndex →
      s₀.serializedBlockHash = s.serializedBlockHash → (tx' = tx₀ ∨ tx' = tx) →
      Stored v tx s (v.setEntry tx.getHash (tx', s₀))

/-- What `AddToWallet` does: it stores the entry, and then abandons an inactive
coinbase together with what is made from it. -/
structure Added (v : WalletView) (tx : CTransaction) (s : TxState) (v' : WalletView) : Prop where
  added : ∃ v₁ tx₁ s₁, v.Stored tx s v₁ ∧ v₁.entry tx.getHash = some (tx₁, s₁) ∧
    ((tx₁.isCoinBase && s₁.isInactive) = false ∧ v' = v₁ ∨
      (tx₁.isCoinBase && s₁.isInactive) = true ∧
        v' = v₁.mark (v₁.Descendants tx.getHash) (.inactive true))

theorem Stored.exists_entry {v v' : WalletView} (h : v.Stored tx s v') :
    ∃ tx₁ s₁, v'.entry tx.getHash = some (tx₁, s₁) := by
  cases h with
  | fresh => exact ⟨tx, s, update_self ..⟩
  | changed | kept => exact ⟨_, _, update_self ..⟩

end WalletView

namespace CWallet
variable {κ δ : Type}

theorem view_entry (w : CWallet κ δ) (t : Uint256) :
    w.view.entry t = (w.getWalletTx t).map fun wtx => (wtx.tx, wtx.state) := rfl

variable {w : CWallet κ δ}

theorem view_entry_eq_some {wtx : CWalletTx} (h : w.getWalletTx t = some wtx) :
    w.view.entry t = some (wtx.tx, wtx.state) := by
  rw [view_entry, h, map_some]

theorem exists_of_view_entry (h : w.view.entry t = some (tx, s)) :
    ∃ wtx, w.getWalletTx t = some wtx ∧ wtx.tx = tx ∧ wtx.state = s := by
  obtain ⟨wtx, hget, heq⟩ := map_eq_some_iff.mp h
  cases heq
  exact ⟨wtx, hget, rfl, rfl⟩

theorem view_entry_eq_none : w.view.entry t = none ↔ w.getWalletTx t = none := map_eq_none_iff

theorem mem_childSet_iff_child {c d : Uint256} : d ∈ w.childSet c ↔ w.view.Child c d := by
  rw [mem_childSet]
  constructor
  · rintro ⟨wtx, hget, hd⟩
    exact ⟨wtx.tx, wtx.state, view_entry_eq_some hget, mem_childrenOf.mp hd⟩
  · rintro ⟨tx, s, hent, hd⟩
    obtain ⟨wtx, hget, rfl, rfl⟩ := exists_of_view_entry hent
    exact ⟨wtx, hget, mem_childrenOf.mpr hd⟩

theorem mem_walletChildren_iff {c d : Uint256} :
    d ∈ w.walletChildren c ↔ w.view.WalletChild c d := by
  rw [mem_walletChildren, mem_childSet_iff_child, WalletView.WalletChild]
  rw [← isSome_iff_exists, ← isSome_iff_exists, view, isSome_map]

/-! ### Operations that the view does not see -/

variable {w' : CWallet κ δ}

/-- Entries whose transactions and states stay make the same view. -/
theorem view_eq_of (hent : ∀ t, (w'.getWalletTx t).map (fun wtx => (wtx.tx, wtx.state)) =
      (w.getWalletTx t).map fun wtx => (wtx.tx, wtx.state))
    (hsp : w'.mapTxSpends = w.mapTxSpends)
    (hht : w'.lastBlockProcessedHeight = w.lastBlockProcessedHeight) : w'.view = w.view := by
  rw [view, view, hsp, hht]
  congr 1
  exact funext hent

theorem view_modifyTx_markDirty (w : CWallet κ δ) (t : Uint256) :
    (w.modifyTx t CWalletTx.markDirty).view = w.view := by
  refine view_eq_of (fun n => ?_) rfl rfl
  rw [getWalletTx_modifyTx]
  split_ifs
  · rw [Option.map_map]
    rfl
  · rfl

theorem view_markInputsDirty (w : CWallet κ δ) (tx : CTransaction) :
    (w.markInputsDirty tx).view = w.view := by
  refine view_eq_of (fun n => ?_) (onlyEntries_markInputsDirty w tx).mapTxSpends
    (onlyEntries_markInputsDirty w tx).lastBlockProcessedHeight
  rw [getWalletTx_markInputsDirty]
  split_ifs
  · rw [Option.map_map]
    rfl
  · rfl

theorem view_markUnusedAddresses (ops : KeyOps κ δ) (w : CWallet κ δ) (tx : CTransaction) :
    (w.markUnusedAddresses ops tx).view = w.view := rfl

section Used
variable [DecidableEq δ] (ops : KeyOps κ δ)

theorem view_setSpentKeyState (st : CWallet κ δ × List δ) (o : COutPoint) :
    (setSpentKeyState ops st o).1.view = st.1.view := by
  rw [setSpentKeyState]
  split
  · rfl
  · split
    · rfl
    · split
      · rfl
      · split_ifs <;> rfl

theorem view_foldl_setSpentKeyState (os : List COutPoint) (st : CWallet κ δ × List δ) :
    (os.foldl (setSpentKeyState ops) st).1.view = st.1.view := by
  induction os generalizing st with
  | nil => rfl
  | cons o os ih => rw [List.foldl_cons, ih, view_setSpentKeyState]

theorem view_markDestinationsDirty (w : CWallet κ δ) (destinations : List δ) :
    (w.markDestinationsDirty ops destinations).view = w.view := by
  refine view_eq_of (fun n => ?_) rfl rfl
  rw [getWalletTx, markDestinationsDirty, OrdMap.find?_map, Option.map_map]
  congr 1
  funext wtx
  dsimp only [Function.comp]
  split_ifs <;> rfl

theorem view_markUsedDestinations (w : CWallet κ δ) (tx : CTransaction) :
    (w.markUsedDestinations ops tx).view = w.view := by
  rw [markUsedDestinations]
  split_ifs
  · rw [view_markDestinationsDirty, view_foldl_setSpentKeyState]
  · rfl

end Used

/-! ### Marking -/

theorem Marked.view_eq (h : Marked s w A w') : w'.view = w.view.mark A s := by
  have hent : w'.view.entry = (w.view.mark A s).entry := by
    funext t
    by_cases ht : t ∈ A
    · rw [WalletView.mark_entry_of_mem ht, view_entry, h.marked t ht, Option.map_map, view_entry,
        Option.map_map]
      rfl
    · rw [WalletView.mark_entry_of_notMem ht]
      by_cases hin : w.InputOf A t
      · rw [view_entry, h.dirtied t ht hin, Option.map_map]
        rfl
      · rw [view_entry, h.same t ht hin]
        rfl
  rw [WalletView.mark, view, h.only.mapTxSpends, h.only.lastBlockProcessedHeight]
  congr 1

theorem view_abandonCoinBase (h : w.abandonCoinBase t = .ok w') :
    w'.view = w.view.mark (w.view.Descendants t) (.inactive true) := by
  have hset : w.Descendants t = w.view.Descendants t := by
    simp [Descendants, WalletView.Descendants, mem_walletChildren_iff]
  rw [← hset]
  exact (abandonCoinBase_ok h).view_eq

/-! ### Adding -/

theorem view_addToSpends (w : CWallet κ δ) (t : Uint256) (tx : CTransaction) :
    (w.addToSpends t tx).view = { w.view with
      spends := if tx.isCoinBase then w.view.spends
        else w.view.spends ++ tx.vin.map fun txin => (txin.prevout, t) } := by
  rw [addToSpends]
  split_ifs <;> rfl

theorem view_insert (w : CWallet κ δ) (t : Uint256) (wtx : CWalletTx) :
    CWallet.view { w with mapWallet := w.mapWallet.insert t wtx } =
      w.view.setEntry t (wtx.tx, wtx.state) := by
  rw [view, view, WalletView.setEntry]
  congr 1
  funext n
  rw [getWalletTx, OrdMap.find?_insert]
  by_cases h : t = n
  · subst h
    rw [if_pos rfl, update_self]
    rfl
  · rw [if_neg h, update_of_ne (Ne.symm h)]
    rfl

theorem view_modifyTx {wtx : CWalletTx} (h : w.getWalletTx t = some wtx)
    (f : CWalletTx → CWalletTx) :
    (w.modifyTx t f).view = w.view.setEntry t ((f wtx).tx, (f wtx).state) := by
  rw [view, view, WalletView.setEntry]
  congr 1
  funext n
  rw [getWalletTx_modifyTx]
  by_cases hn : t = n
  · subst hn
    rw [if_pos rfl, h, update_self]
    rfl
  · rw [if_neg hn, update_of_ne (Ne.symm hn)]

theorem stored_emplaceTx (h : w.emplaceTx tx s = .ok w') : w.view.Stored tx s w'.view := by
  rw [emplaceTx] at h
  dsimp only at h
  split at h
  case h_1 hget =>
    cases h
    rw [view_addToSpends, view_insert]
    exact .fresh (view_entry_eq_none.mpr hget)
  case h_2 wtx hget =>
    have hent := view_entry_eq_some hget
    split_ifs at h with hidx hser hhash
    · cases h
      rw [view_modifyTx hget]
      split_ifs
      · exact .changed hent hidx (.inr rfl)
      · exact .changed hent hidx (.inl rfl)
    · cases h
      rw [not_not] at hidx hser hhash
      rw [view_modifyTx hget]
      split_ifs
      · exact .kept hent hidx hser hhash (.inr rfl)
      · exact .kept hent hidx hser hhash (.inl rfl)

theorem added_addToWallet [DecidableEq δ] {ops : KeyOps κ δ} (h : w.addToWallet ops tx s = .ok w') :
    w.view.Added tx s w'.view := by
  obtain ⟨w₁, hsto, h⟩ := bind_eq_ok.mp h
  obtain ⟨w₂, hab, h⟩ := bind_eq_ok.mp h
  cases h
  rw [view_modifyTx_markDirty]
  have hview := stored_emplaceTx hsto
  rw [view_markUsedDestinations] at hview
  obtain ⟨tx₁, s₁, hent⟩ := hview.exists_entry
  obtain ⟨wtx, hget, rfl, rfl⟩ := exists_of_view_entry hent
  refine ⟨w₁.view, wtx.tx, wtx.state, hview, hent, ?_⟩
  rw [abandonIfInactiveCoinBase, hget] at hab
  dsimp only at hab
  split_ifs at hab with hcb
  · exact .inr ⟨hcb, view_abandonCoinBase hab⟩
  · cases hab
    exact .inl ⟨by simpa using hcb, rfl⟩

end CWallet
end Lithium
