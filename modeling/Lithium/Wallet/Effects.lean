import Lithium.Wallet.Wallet

/-!
# What the functions of the wallet change

One description for each function of the wallet: which entries take a new state,
which have their cached amounts dropped, and that everything else stays. The two
loops over the descendants of a transaction are instances of the loops of
`Lib/Marking`, whose set of changed vertices is here the set of marked
transactions.
-/

namespace Lithium.CWallet
open Lib Relation List OrdMap CWalletTx
variable {w : CWallet κ δ} {t c d : Uint256} {wtx : CWalletTx}
  {test : TxState → Except WalletAbort Bool} {missing : WalletAbort} {κ δ : Type}

/-! ### Wallets that differ in their entries only -/

def OnlyEntries (w w' : CWallet κ δ) : Prop := w' = { w with mapWallet := w'.mapWallet }

namespace OnlyEntries
variable {w w' w'' : CWallet κ δ}

theorem refl (w : CWallet κ δ) : OnlyEntries w w := rfl

section
variable (h : OnlyEntries w w')

include h

theorem trans (h' : OnlyEntries w' w'') : OnlyEntries w w'' := by
  rw [OnlyEntries] at h h' ⊢
  rw [h', h]

theorem mapTxSpends : w'.mapTxSpends = w.mapTxSpends := by rw [h]

theorem lastBlockProcessedHeight :
    w'.lastBlockProcessedHeight = w.lastBlockProcessedHeight := by rw [h]

theorem keys : w'.keys = w.keys := by rw [h]

theorem usedDestinations : w'.usedDestinations = w.usedDestinations := by
  rw [h]

theorem avoidReuse : w'.avoidReuse = w.avoidReuse := by rw [h]

theorem spendersOf (o : COutPoint) : w'.spendersOf o = w.spendersOf o := by
  rw [CWallet.spendersOf, CWallet.spendersOf, h.mapTxSpends]

theorem childrenOf (t : Uint256) (tx : CTransaction) : w'.childrenOf t tx = w.childrenOf t tx := by
  simp [CWallet.childrenOf, h.spendersOf]

end
end OnlyEntries

section
variable (w : CWallet κ δ) (tx : CTransaction)

theorem onlyEntries_modifyTx (t : Uint256) (f : CWalletTx → CWalletTx) :
    OnlyEntries w (w.modifyTx t f) := rfl

theorem getWalletTx_modifyTx (t n : Uint256) (f : CWalletTx → CWalletTx) :
    (w.modifyTx t f).getWalletTx n = if t = n then (w.getWalletTx n).map f else w.getWalletTx n :=
  find?_modify w.mapWallet t n f

theorem getWalletTx_modifyTx_self (t : Uint256) (f : CWalletTx → CWalletTx) :
    (w.modifyTx t f).getWalletTx t = (w.getWalletTx t).map f := by
  rw [getWalletTx_modifyTx, if_pos rfl]

theorem getWalletTx_modifyTx_of_ne {n : Uint256} (f : CWalletTx → CWalletTx) (h : t ≠ n) :
    (w.modifyTx t f).getWalletTx n = w.getWalletTx n := by
  rw [getWalletTx_modifyTx, if_neg h]

/-- The transaction is one of those that an input list spends. -/
def SpentBy (vin : List CTxIn) (t : Uint256) : Prop := ∃ txin ∈ vin, txin.prevout.hash = t

instance (vin : List CTxIn) (t : Uint256) : Decidable (SpentBy vin t) :=
  inferInstanceAs (Decidable (∃ txin ∈ vin, txin.prevout.hash = t))

theorem onlyEntries_markInputsDirty : OnlyEntries w (w.markInputsDirty tx) := by
  rw [markInputsDirty]
  generalize tx.vin = vin
  induction vin generalizing w with
  | nil => exact .refl w
  | cons txin vin ih =>
    exact (onlyEntries_modifyTx w _ _).trans (ih _)

theorem getWalletTx_markInputsDirty (n : Uint256) : (w.markInputsDirty tx).getWalletTx n =
      if SpentBy tx.vin n then (w.getWalletTx n).map markDirty else w.getWalletTx n := by
  rw [markInputsDirty]
  generalize tx.vin = vin
  induction vin generalizing w with
  | nil => simp [SpentBy]
  | cons txin vin ih =>
    rw [foldl_cons, ih, getWalletTx_modifyTx]
    by_cases hhead : txin.prevout.hash = n
    · have hcons : SpentBy (txin :: vin) n := ⟨txin, mem_cons_self, hhead⟩
      split_ifs
      · rw [Option.map_map]
        rfl
      · rfl
    · have hcons : SpentBy (txin :: vin) n ↔ SpentBy vin n := by simp [SpentBy, hhead]
      simp [if_neg hhead, hcons]

end

/-! ### Marking -/

/-- Transactions that one of a set spends from. -/
def InputOf (w : CWallet κ δ) (A : Set Uint256) (t : Uint256) : Prop :=
  ∃ a ∈ A, ∃ wtx, w.getWalletTx a = some wtx ∧ SpentBy wtx.tx.vin t

/-- The transactions of the set have taken the state, those they spend from have lost
their cached amounts. -/
structure Marked (state : TxState) (w₀ : CWallet κ δ) (A : Set Uint256) (w : CWallet κ δ) :
    Prop where
  only : OnlyEntries w₀ w
  marked : ∀ t ∈ A, w.getWalletTx t =
    (w₀.getWalletTx t).map fun wtx => (wtx.setState state).markDirty
  dirtied : ∀ t ∉ A, w₀.InputOf A t → w.getWalletTx t = (w₀.getWalletTx t).map markDirty
  same : ∀ t ∉ A, ¬ w₀.InputOf A t → w.getWalletTx t = w₀.getWalletTx t

theorem marked_empty (state : TxState) (w : CWallet κ δ) : Marked state w ∅ w := by
  refine ⟨.refl w, fun t ht => absurd ht (Set.notMem_empty t), ?_, fun _ _ _ => rfl⟩
  rintro t - ⟨a, ha, -⟩
  exact absurd ha (Set.notMem_empty a)

namespace Marked
variable {state : TxState} {w₀ w : CWallet κ δ} {A : Set Uint256}

section
variable (h : Marked state w₀ A w)

include h

/-- An entry has taken the state or kept its own, with or without its caches. -/
theorem exists_map (t : Uint256) : ∃ f : CWalletTx → CWalletTx,
    w.getWalletTx t = (w₀.getWalletTx t).map f ∧
      (f = id ∨ f = markDirty ∨ f = fun wtx => (wtx.setState state).markDirty) := by
  by_cases hA : t ∈ A
  · exact ⟨_, h.marked t hA, .inr (.inr rfl)⟩
  · by_cases hin : w₀.InputOf A t
    · exact ⟨_, h.dirtied t hA hin, .inr (.inl rfl)⟩
    · exact ⟨id, by rw [h.same t hA hin, Option.map_id_apply], .inl rfl⟩

/-- What is in the wallet, and the transactions themselves, stay. -/
theorem getWalletTx_map_tx (t : Uint256) :
    (w.getWalletTx t).map tx = (w₀.getWalletTx t).map tx := by
  obtain ⟨f, hf, rfl | rfl | rfl⟩ := h.exists_map t <;> rw [hf, Option.map_map] <;> rfl

theorem tx_eq (hget : w.getWalletTx t = some wtx) :
    ∃ wtx₀, w₀.getWalletTx t = some wtx₀ ∧ wtx₀.tx = wtx.tx := by
  have hmap := h.getWalletTx_map_tx t
  rw [hget, Option.map_some, eq_comm, Option.map_eq_some_iff] at hmap
  exact hmap

theorem exists_of_getWalletTx (hget : w₀.getWalletTx t = some wtx) :
    ∃ wtx', w.getWalletTx t = some wtx' := by
  have hmap := h.getWalletTx_map_tx t
  rw [hget, Option.map_some, Option.map_eq_some_iff] at hmap
  obtain ⟨wtx', hget', -⟩ := hmap
  exact ⟨wtx', hget'⟩

theorem eq_none (hget : w.getWalletTx t = none) : w₀.getWalletTx t = none := by
  have hmap := h.getWalletTx_map_tx t
  rw [hget, Option.map_none, eq_comm, Option.map_eq_none_iff] at hmap
  exact hmap

end

theorem inputOf_insert {x : Uint256} (hget : w₀.getWalletTx x = some wtx) (t : Uint256) :
    w₀.InputOf (insert x A) t ↔ SpentBy wtx.tx.vin t ∨ w₀.InputOf A t := by
  constructor
  · rintro ⟨a, rfl | ha, wtx', hget', hspent⟩
    · rw [hget] at hget'
      cases hget'
      exact .inl hspent
    · exact .inr ⟨a, ha, wtx', hget', hspent⟩
  · rintro (hspent | ⟨a, ha, hspent⟩)
    · exact ⟨x, .inl rfl, wtx, hget, hspent⟩
    · exact ⟨a, .inr ha, hspent⟩

section
variable (h : Marked state w₀ A w)

include h

/-- Marking one more transaction. -/
theorem changeState (x : Uint256) :
    Marked state w₀ (insert x A) (CWallet.changeState state w x) := by
  rw [CWallet.changeState]
  cases hx : w.getWalletTx x with
  | none =>
    have hx₀ := h.eq_none hx
    have hin : ∀ t, w₀.InputOf (insert x A) t ↔ w₀.InputOf A t := by
      refine fun t => ⟨?_, fun ⟨a, ha, hspent⟩ => ⟨a, .inr ha, hspent⟩⟩
      rintro ⟨a, rfl | ha, wtx', hget', hspent⟩
      · rw [hx₀] at hget'
        cases hget'
      · exact ⟨a, ha, wtx', hget', hspent⟩
    refine ⟨h.only, ?_, ?_, ?_⟩
    · rintro t (rfl | ht)
      · dsimp only
        rw [hx, hx₀]
        rfl
      · exact h.marked t ht
    · intro t ht hinp
      exact h.dirtied t (fun hA => ht (.inr hA)) ((hin t).mp hinp)
    · intro t ht hinp
      exact h.same t (fun hA => ht (.inr hA)) fun hi => hinp ((hin t).mpr hi)
  | some wtx =>
    obtain ⟨wtx₀, hx₀, htx⟩ := h.tx_eq hx
    refine ⟨h.only.trans ((onlyEntries_modifyTx w x _).trans (onlyEntries_markInputsDirty _ _)),
      ?_, ?_, ?_⟩
    · intro t ht
      -- however often its caches are dropped, the entry is the old one with the new state
      have hmod : (w.modifyTx x fun wtx => (wtx.setState state).markDirty).getWalletTx t =
          (w₀.getWalletTx t).map fun wtx => (wtx.setState state).markDirty := by
        by_cases hxt : x = t
        · subst hxt
          obtain ⟨f, hf, rfl | rfl | rfl⟩ := h.exists_map x <;>
            rw [getWalletTx_modifyTx_self, hf, Option.map_map] <;> rfl
        · rw [getWalletTx_modifyTx_of_ne _ _ hxt]
          exact h.marked t (ht.resolve_left fun hx => hxt hx.symm)
      rw [getWalletTx_markInputsDirty, hmod]
      split_ifs
      · rw [Option.map_map]
        rfl
      · rfl
    · intro t ht hin
      have hxt : x ≠ t := fun hx => ht (.inl hx.symm)
      have hA : t ∉ A := fun hA => ht (.inr hA)
      rw [getWalletTx_markInputsDirty, ← htx, getWalletTx_modifyTx_of_ne _ _ hxt]
      rcases (inputOf_insert hx₀ t).mp hin with hspent | hin
      · rw [if_pos hspent]
        by_cases hin : w₀.InputOf A t
        · rw [h.dirtied t hA hin, Option.map_map]
          rfl
        · rw [h.same t hA hin]
      · rw [h.dirtied t hA hin]
        split_ifs
        · rw [Option.map_map]
          rfl
        · rfl
    · intro t ht hin
      have hxt : x ≠ t := fun hx => ht (.inl hx.symm)
      have hnone := (inputOf_insert hx₀ t).not.mp hin
      rw [not_or] at hnone
      rw [getWalletTx_markInputsDirty, ← htx, if_neg hnone.1, getWalletTx_modifyTx_of_ne _ _ hxt]
      exact h.same t (fun hA => ht (.inr hA)) hnone.2

theorem childSet_eq (t : Uint256) : w.childSet t = w₀.childSet t := by
  rw [childSet, childSet]
  cases hget : w.getWalletTx t with
  | none => rw [h.eq_none hget]
  | some wtx =>
    obtain ⟨wtx₀, hget₀, htx⟩ := h.tx_eq hget
    rw [hget₀]
    dsimp only
    rw [h.only.childrenOf, htx]

theorem walletChildren_eq (t : Uint256) : w.walletChildren t = w₀.walletChildren t := by
  rw [walletChildren, walletChildren]
  have hmem : ∀ id, (w.getWalletTx id).isSome = (w₀.getWalletTx id).isSome := by
    intro id
    have hmap := congrArg Option.isSome (h.getWalletTx_map_tx id)
    rwa [Option.isSome_map, Option.isSome_map] at hmap
  cases hget : w.getWalletTx t with
  | none => rw [h.eq_none hget]
  | some wtx =>
    obtain ⟨wtx₀, hget₀, htx⟩ := h.tx_eq hget
    rw [hget₀]
    simp [h.only.childrenOf, htx, hmem]

end
end Marked

/-! ### The loops -/

/-- Every spender that is recorded is a transaction of the wallet. -/
def SpendersKnown (w : CWallet κ δ) : Prop :=
  ∀ e ∈ w.mapTxSpends, ∃ wtx, w.getWalletTx e.2 = some wtx

theorem mem_spendersOf {o : COutPoint} : t ∈ w.spendersOf o ↔ (o, t) ∈ w.mapTxSpends := by
  simp only [spendersOf, mem_map, mem_filter, decide_eq_true_eq]
  constructor
  · rintro ⟨⟨o', t'⟩, ⟨hmem, rfl⟩, rfl⟩
    exact hmem
  · intro hmem
    exact ⟨(o, t), ⟨hmem, rfl⟩, rfl⟩

theorem mem_childrenOf {tx : CTransaction} : d ∈ w.childrenOf c tx ↔
      ∃ i < tx.vout.length, (⟨c, UInt32.ofNat i⟩, d) ∈ w.mapTxSpends := by
  simp [childrenOf, mem_spendersOf]

theorem mem_childSet :
    d ∈ w.childSet c ↔ ∃ wtx, w.getWalletTx c = some wtx ∧ d ∈ w.childrenOf c wtx.tx := by
  rw [childSet]
  cases w.getWalletTx c with
  | none | some wtx => simp

theorem SpendersKnown.childSet_subset (h : w.SpendersKnown) (c : Uint256) :
    w.childSet c ⊆ w.mapWallet.keys := by
  intro d hd
  obtain ⟨wtx, -, hd⟩ := mem_childSet.mp hd
  obtain ⟨i, -, hmem⟩ := mem_childrenOf.mp hd
  exact mem_keys.mpr (h _ hmem)

theorem testAt_some (h : w.getWalletTx t = some wtx) :
    testAt test missing w t = test wtx.state := by
  rw [testAt, h]

variable (test)

theorem tracks_marked (missing : WalletAbort) (state : TxState) (w : CWallet κ δ) :
    Tracks (testAt test missing) (changeState state) childSet (testAt test missing w) w.childSet
      (Marked state w) := by
  refine ⟨?_, fun h _ _ => h.childSet_eq _, fun h _ _ => h.changeState _⟩
  intro A w' x h hx
  rw [testAt, testAt]
  by_cases hin : w.InputOf A x
  · rw [h.dirtied x hx hin]
    cases w.getWalletTx x <;> rfl
  · rw [h.same x hx hin]

/-- The transactions that the shared loop changes. -/
def Hit (missing : WalletAbort) (w : CWallet κ δ)
    (t : Uint256) : Set Uint256 := Changed (testAt test missing w) w.childSet {t}

variable {test}

theorem markDescendants_ok (state : TxState) (hkn : w.SpendersKnown)
    (ht : ∃ wtx, w.getWalletTx t = some wtx) (hpass : ∀ y wtx,
      ReflTransGen (fun c d => d ∈ behind (testAt test missing w) w.childSet c) t y →
      w.getWalletTx y = some wtx → ∃ b, test wtx.state = .ok b) :
    ∃ w', markDescendants test missing state w t = .ok w' ∧
      Marked state w (Hit test missing w t) w' := by
  have hbehind : ∀ c, behind (testAt test missing w) w.childSet c ⊆ w.childSet c := by
    intro c
    rw [behind]
    split
    · exact subset_rfl
    · exact Finset.empty_subset _
  refine spread_ok (tracks_marked test missing state w) (V := w.mapWallet.keys)
    (fun c _ => (hbehind c).trans (hkn.childSet_subset c)) ?_ ?_ ?_ (marked_empty state w)
  · rw [Finset.singleton_subset_iff]
    exact mem_keys.mpr ht
  · rw [card_keys]
    exact Nat.le_succ _
  · rintro y ⟨x, hx, hpath⟩
    rw [Finset.mem_singleton] at hx
    subst hx
    have hy : ∃ wtx, w.getWalletTx y = some wtx := by
      rcases hpath.cases_tail with rfl | ⟨c, -, hd⟩
      · exact ht
      · exact mem_keys.mp (hkn.childSet_subset c (hbehind c hd))
    obtain ⟨wtx, hwtx⟩ := hy
    obtain ⟨b, hb⟩ := hpass y wtx hpath hwtx
    exact ⟨b, by rw [testAt_some hwtx, hb]⟩

/-- A loop that ends without an error has marked some transactions. -/
theorem marked_of_markDescendants {test : TxState → Except WalletAbort Bool} {missing : WalletAbort}
    {state : TxState} {w w' : CWallet κ δ} {t : Uint256}
    (h : markDescendants test missing state w t = .ok w') : ∃ A, Marked state w A w' :=
  spread_tracked (tracks_marked test missing state w) (marked_empty state w)
    (Finset.disjoint_empty_right _) (Set.empty_subset _) h

theorem Hit.start (h : w.getWalletTx t = some wtx) (htest : test wtx.state = .ok true) :
    t ∈ Hit test missing w t :=
  ⟨.of_mem (Finset.mem_singleton_self t), by rw [testAt_some h, htest]⟩

theorem Hit.child (hc : c ∈ Hit test missing w t) (hd : d ∈ w.childSet c)
    (h : w.getWalletTx d = some wtx) (htest : test wtx.state = .ok true) :
    d ∈ Hit test missing w t := by
  refine ⟨hc.1.step ?_, by rw [testAt_some h, htest]⟩
  rw [behind, hc.2]
  exact hd

def Descendants (w : CWallet κ δ) (t : Uint256) : Set Uint256 :=
  {y | ReflTransGen (fun c d => d ∈ w.walletChildren c) t y}

theorem abandonCoinBase_ok {w w' : CWallet κ δ} {t : Uint256} (h : w.abandonCoinBase t = .ok w') :
    Marked (.inactive true) w (w.Descendants t) w' := by
  rw [abandonCoinBase] at h
  split at h
  case h_1 w'' hsweep =>
    cases h
    have hmark := sweep_some (I := Marked (.inactive true) w)
      (fun {_ _ x} hI => hI.walletChildren_eq x) (fun {_ _ x} hI => hI.changeState x) hsweep
      (marked_empty (.inactive true) w)
    have hset : ∅ ∪ Swept w.walletChildren [t] = w.Descendants t := by
      simp [Swept, Descendants]
    rwa [hset] at hmark
  case h_2 => cases h

theorem mem_walletChildren :
    d ∈ w.walletChildren c ↔ d ∈ w.childSet c ∧ ∃ wtx, w.getWalletTx d = some wtx := by
  rw [walletChildren, childSet]
  cases w.getWalletTx c with
  | none => simp
  | some wtx => simp [Option.isSome_iff_exists]

/-- The loop ends in a wallet whose transactions can be ranked, each after those it is
made from. -/
theorem abandonCoinBase_ends {rank : Uint256 → Nat}
    (hrank : ∀ c d, d ∈ w.walletChildren c → rank c < rank d) (t : Uint256) :
    ∃ w', w.abandonCoinBase t = .ok w' := by
  -- the height of a transaction is the number of those with a greater rank
  let height : Uint256 → Nat := fun t => (w.mapWallet.keys.filter fun k => rank t < rank k).card
  let m := (w.mapWallet.entries.map fun e => (w.walletChildren e.1).length).sum
  have hht : ∀ c, ∀ d ∈ w.walletChildren c, height d < height c := by
    intro c d hd
    have hlt := hrank c d hd
    have hkey := mem_keys.mpr (mem_walletChildren.mp hd).2
    refine Finset.card_lt_card ((Finset.ssubset_iff_of_subset ?_).mpr ⟨d, ?_, ?_⟩)
    · exact Finset.monotone_filter_right _ fun k _ hk => hlt.trans hk
    · exact Finset.mem_filter.mpr ⟨hkey, hlt⟩
    · simp
  have hlen : ∀ c, (w.walletChildren c).length ≤ m := by
    intro c
    cases hget : w.getWalletTx c with
    | none => simp [walletChildren, hget]
    | some wtx =>
      have hmem : (c, wtx) ∈ w.mapWallet.entries := (w.mapWallet.mem_entries_iff c wtx).mpr hget
      exact single_le_sum (fun _ _ => Nat.zero_le _) _ (mem_map.mpr ⟨(c, wtx), hmem, rfl⟩)
  have hfuel : ([t].map fun y => (m + 1) ^ height y).sum ≤ w.sweepBound := by
    rw [map_singleton, sum_singleton, sweepBound, ← card_keys]
    exact Nat.pow_le_pow_right m.succ_pos (Finset.card_filter_le _ _)
  obtain ⟨w', hw'⟩ := sweep_ends (I := Marked (.inactive true) w)
    (fun {_ _ x} hI => hI.walletChildren_eq x) (fun {_ _ x} hI => hI.changeState x)
    (fun c => sum_pow_lt (hlen c) (hht c)) (marked_empty (.inactive true) w) hfuel
  exact ⟨w', by rw [abandonCoinBase, hw']⟩

end Lithium.CWallet
