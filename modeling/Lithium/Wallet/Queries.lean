import Lithium.Wallet.Receive

/-!
# What a question about the balance does to a wallet

It fills caches and changes nothing else. If everything that is cached is what would
be computed anew, the answer does not depend on what is cached, and everything that is
cached afterwards is again what would be computed.

Both are shown for the pieces of `GetBalance` one by one, and rules put the pieces
together.
-/

namespace Lithium
open Lib List WalletM CWalletTx WalletView
variable {txout : CTxOut} {e : WalletAbort} {tx : CTransaction} {state : TxState}

/-! ### Clearing the caches -/

namespace CWallet
variable {κ δ : Type}

/-- The wallet with the amount caches of all transactions cleared. -/
def clear (w : CWallet κ δ) : CWallet κ δ := { w with mapWallet := w.mapWallet.map markDirty }

section
variable (w : CWallet κ δ)

theorem getWalletTx_clear (t : Uint256) :
    w.clear.getWalletTx t = (w.getWalletTx t).map markDirty := OrdMap.find?_map _ _ t

@[simp] theorem view_clear : w.clear.view = w.view := by
  refine view_eq_of (fun t => ?_) rfl rfl
  rw [getWalletTx_clear, Option.map_map]
  rfl

/-- Wallets whose transactions differ in their caches only. -/
theorem clear_eq_of {m : OrdMap Uint256 CWalletTx}
    (h : ∀ t, (m.find? t).map markDirty = (w.getWalletTx t).map markDirty) :
    ({ w with mapWallet := m } : CWallet κ δ).clear = w.clear := by
  have hmap : m.map markDirty = w.mapWallet.map markDirty := by
    refine OrdMap.ext_find? fun t => ?_
    rw [OrdMap.find?_map, OrdMap.find?_map]
    exact h t
  simp only [clear, hmap]

@[simp] theorem clear_clear : w.clear.clear = w.clear := by
  refine w.clear_eq_of fun t => ?_
  rw [OrdMap.find?_map, Option.map_map]
  rfl

@[simp] theorem entryList_clear : w.clear.entryList = w.entryList := by
  simp only [entryList, clear, OrdMap.map, map_map]
  rfl

theorem clear_modifyTx_setAmount (t : Uint256) (type : AmountType) (filter : Nat) (amount : Int) :
    (w.modifyTx t fun wtx => wtx.setAmount type filter amount).clear = w.clear := by
  refine w.clear_eq_of fun n => ?_
  change (getWalletTx (w.modifyTx t _) n).map _ = _
  rw [getWalletTx_modifyTx]
  split_ifs
  · rw [Option.map_map]
    rfl
  · rfl

end

/-! ### Amounts that two wallets agree on -/

section Amounts
variable {ops : KeyOps κ δ}

/-- Debits depend on the view and the keys. -/
theorem getDebitIn_congr {w w' : CWallet κ δ} (hview : w'.view = w.view) (hkeys : w'.keys = w.keys)
    (txin : CTxIn) (filter : Nat) :
      w'.getDebitIn ops txin filter = w.getDebitIn ops txin filter := by
  have hent := congrFun (congrArg entry hview) txin.prevout.hash
  rw [getDebitIn, getDebitIn]
  cases hget : w.getWalletTx txin.prevout.hash with
  | none =>
    rw [view_entry_eq_none.mpr hget, view_entry_eq_none] at hent
    rw [hent]
  | some wtx =>
    obtain ⟨wtx', hget', htx, -⟩ := exists_of_view_entry (hent.trans (view_entry_eq_some hget))
    rw [hget', hkeys]
    dsimp only
    rw [htx]

theorem isSpent_congr {w w' : CWallet κ δ} (hview : w'.view = w.view) (o : COutPoint) :
    w'.isSpent o = w.isSpent o := by
  have hsp : w'.mapTxSpends = w.mapTxSpends := congrArg spends hview
  have hht : w'.lastBlockProcessedHeight = w.lastBlockProcessedHeight :=
    congrArg height hview
  rw [isSpent, isSpent, spendersOf, spendersOf, hsp]
  congr 1
  funext t
  have hent := congrFun (congrArg entry hview) t
  cases hget : w.getWalletTx t with
  | none =>
    rw [view_entry_eq_none.mpr hget, view_entry_eq_none] at hent
    rw [hent]
  | some wtx =>
    obtain ⟨wtx', hget', -, hst⟩ := exists_of_view_entry (hent.trans (view_entry_eq_some hget))
    rw [hget']
    simp only [getTxDepthInMainChain, hht, hst]
    rfl

variable [DecidableEq δ]

/-- Whatever the amounts of the transaction are computed from is the same. -/
structure SameAmounts (ops : KeyOps κ δ) (w w' : CWallet κ δ) (tx : CTransaction) : Prop where
  mine : ∀ txout ∈ tx.vout,
    ops.isMine w'.keys txout.scriptPubKey = ops.isMine w.keys txout.scriptPubKey
  debit : ∀ txin ∈ tx.vin, ∀ filter, w'.getDebitIn ops txin filter = w.getDebitIn ops txin filter
  spent : ∀ i < tx.vout.length,
    w'.isSpent ⟨tx.getHash, UInt32.ofNat i⟩ = w.isSpent ⟨tx.getHash, UInt32.ofNat i⟩
  avoidReuse : w'.avoidReuse = w.avoidReuse
  spentKey : w.avoidReuse = true → ∀ txout ∈ tx.vout,
    w'.isSpentKey ops txout.scriptPubKey = w.isSpentKey ops txout.scriptPubKey

namespace SameAmounts
variable {w w' : CWallet κ δ} {tx : CTransaction}

section
variable (h : SameAmounts ops w w' tx)

include h

theorem outputGetCredit (htxout : txout ∈ tx.vout) (filter : Nat) :
    w'.outputGetCredit ops txout filter = w.outputGetCredit ops txout filter := by
  rw [CWallet.outputGetCredit, CWallet.outputGetCredit, h.mine txout htxout]

theorem txGetCredit (filter : Nat) :
    w'.txGetCredit ops tx filter = w.txGetCredit ops tx filter := by
  refine foldlM_congr (fun nCredit txout htxout => ?_) 0
  rw [h.outputGetCredit htxout]

theorem getDebit (filter : Nat) : w'.getDebit ops tx filter = w.getDebit ops tx filter := by
  refine foldlM_congr (fun nDebit txin htxin => ?_) 0
  rw [h.debit txin htxin]

theorem availableCredit (filter : Nat) :
    w'.availableCredit ops tx filter = w.availableCredit ops tx filter := by
  refine foldlM_congr (fun nCredit e he => ?_) 0
  obtain ⟨i, hi, rfl⟩ := mem_iff_getElem.mp he
  rw [length_zipIdx] at hi
  have hmem : tx.vout[i] ∈ tx.vout := getElem_mem hi
  rw [getElem_zipIdx, Nat.zero_add, h.spent i hi, h.outputGetCredit hmem, h.avoidReuse]
  cases havoid : w.avoidReuse with
  | false => simp
  | true => rw [h.spentKey havoid _ hmem]

theorem amountOf (type : AmountType) (filter : Nat) :
    w'.amountOf ops tx type filter = w.amountOf ops tx type filter := by
  cases type with
  | debit => exact h.getDebit filter
  | credit | immatureCredit => exact h.txGetCredit filter
  | availableCredit => exact h.availableCredit filter

end
end SameAmounts

/-- Wallets that differ in their caches only have the same amounts. -/
theorem sameAmounts_of_clear_eq {w w' : CWallet κ δ} (h : w'.clear = w.clear) (tx : CTransaction) :
    SameAmounts ops w w' tx := by
  have hview : w'.view = w.view := by rw [← view_clear w', h, view_clear]
  have hkeys : w'.clear.keys = w.clear.keys := by rw [h]
  have hused : w'.clear.usedDestinations = w.clear.usedDestinations := by rw [h]
  have havoid : w'.clear.avoidReuse = w.clear.avoidReuse := by rw [h]
  change w'.keys = w.keys at hkeys
  change w'.usedDestinations = w.usedDestinations at hused
  refine ⟨fun _ _ => by rw [hkeys], fun txin _ => getDebitIn_congr hview hkeys txin,
    fun _ _ => isSpent_congr hview _, havoid, fun _ txout _ => ?_⟩
  simp [isSpentKey, isAddressUsed, hkeys, hused]

/-- Every amount that is cached is what would be computed now. -/
structure CacheFresh (ops : KeyOps κ δ) (w : CWallet κ δ) : Prop where
  amount : ∀ {t wtx}, w.getWalletTx t = some wtx → ∀ {type filter amount},
    wtx.amounts type filter = some amount → w.amountOf ops wtx.tx type filter = .ok amount
  flag : ∀ {t wtx}, w.getWalletTx t = some wtx → wtx.isCacheEmpty = true →
    ∀ type filter, wtx.amounts type filter = none

theorem cacheFresh_clear (w : CWallet κ δ) : CacheFresh ops w.clear := by
  have hnone : ∀ {t wtx}, w.clear.getWalletTx t = some wtx →
      ∀ type filter, wtx.amounts type filter = none := by
    intro t wtx hget type filter
    rw [getWalletTx_clear, Option.map_eq_some_iff] at hget
    obtain ⟨wtx₀, -, rfl⟩ := hget
    rfl
  refine ⟨fun hget type filter amount hamt => ?_, fun hget _ => hnone hget⟩
  rw [hnone hget] at hamt
  cases hamt

end Amounts
end CWallet

/-! ### Rules -/

namespace WalletM
variable {κ δ α β : Type}

/-- Started in a wallet that is `c` up to caches, the computation leaves such a
wallet, and fails only as `E` says. -/
def Quiet (c : CWallet κ δ) (E : WalletAbort → Prop) (m : WalletM κ δ α) : Prop :=
  ∀ w, w.clear = c → (m w).2.clear = c ∧ ∀ e, (m w).1 = .error e → E e

variable {c : CWallet κ δ} {E : WalletAbort → Prop}

theorem Quiet.pure (a : α) : Quiet c E (Pure.pure a : WalletM κ δ α) :=
  fun _ hw => ⟨hw, nofun⟩

theorem Quiet.read {f : CWallet κ δ → Except WalletAbort α}
    (h : ∀ w, w.clear = c → ∀ e, f w = .error e → E e) : Quiet c E (read f) :=
  fun w hw => ⟨hw, h w hw⟩

theorem Quiet.read_ok (f : CWallet κ δ → α) : Quiet c E (WalletM.read fun w => .ok (f w)) :=
  Quiet.read nofun

variable {k : α → WalletM κ δ β} {m : WalletM κ δ α}

theorem Quiet.bind (hm : Quiet c E m) (hk : ∀ a, Quiet c E (k a)) : Quiet c E (m >>= k) := by
  intro w hw
  obtain ⟨hclear, herr⟩ := hm w hw
  change (WalletM.bind m k w).2.clear = c ∧ ∀ e, (WalletM.bind m k w).1 = .error e → E e
  rw [WalletM.bind]
  rcases hrun : m w with ⟨e | a, w₁⟩
  · rw [hrun] at hclear herr
    refine ⟨hclear, fun e' he => ?_⟩
    cases he
    exact herr e rfl
  · rw [hrun] at hclear
    exact hk a w₁ hclear

variable {f : β → α → WalletM κ δ β}

theorem Quiet.foldlM {l : List α} (h : ∀ b, ∀ a ∈ l, Quiet c E (f b a)) (b : β) :
    Quiet c E (l.foldlM f b) := by
  induction l generalizing b with
  | nil => exact Quiet.pure b
  | cons a l ih =>
    exact (h b a mem_cons_self).bind fun b' =>
      ih (fun b a ha => h b a (mem_cons_of_mem _ ha)) b'

section Blind
variable [DecidableEq δ] {ops : KeyOps κ δ}

/-- As long as the caches are right, the answer is the one of a wallet without
caches, and the caches stay right. -/
structure Blind (ops : KeyOps κ δ) (m : WalletM κ δ α) : Prop where
  quiet : ∀ c, Quiet c (fun _ => True) m
  blind : ∀ w, w.CacheFresh ops → (m w).2.CacheFresh ops ∧ (m w).1 = (m w.clear).1

theorem Blind.pure (a : α) : Blind ops (Pure.pure a : WalletM κ δ α) :=
  ⟨fun _ => Quiet.pure a, fun _ hw => ⟨hw, rfl⟩⟩

theorem Blind.read {f : CWallet κ δ → Except WalletAbort α} (h : ∀ w, f w.clear = f w) :
    Blind ops (read f) :=
  ⟨fun _ => Quiet.read fun _ _ _ _ => trivial, fun w hw => ⟨hw, (h w).symm⟩⟩

theorem Blind.bind (hm : Blind ops m) (hk : ∀ a, Blind ops (k a)) : Blind ops (m >>= k) := by
  refine ⟨fun c => (hm.quiet c).bind fun a => (hk a).quiet c, fun w hw => ?_⟩
  obtain ⟨hfr, hsame⟩ := hm.blind w hw
  obtain ⟨hfr', -⟩ := hm.blind w.clear (CWallet.cacheFresh_clear w)
  have hclear := (hm.quiet w.clear w rfl).1
  have hclear' := (hm.quiet w.clear w.clear (CWallet.clear_clear w)).1
  change (WalletM.bind m k w).2.CacheFresh ops ∧
    (WalletM.bind m k w).1 = (WalletM.bind m k w.clear).1
  rw [WalletM.bind, WalletM.bind]
  rcases hrun : m w with ⟨r, w₁⟩
  rcases hrun' : m w.clear with ⟨r', w₂⟩
  rw [hrun] at hfr hsame hclear
  rw [hrun'] at hfr' hsame hclear'
  cases hsame
  cases r with
  | error e => exact ⟨hfr, rfl⟩
  | ok a =>
    -- both continue from wallets that differ in their caches only
    obtain ⟨hnext, hsame₁⟩ := (hk a).blind w₁ hfr
    obtain ⟨-, hsame₂⟩ := (hk a).blind w₂ hfr'
    refine ⟨hnext, ?_⟩
    rw [hsame₁, hsame₂, hclear, hclear']

theorem Blind.foldlM {l : List α} (h : ∀ b a, Blind ops (f b a)) (b : β) :
    Blind ops (l.foldlM f b) := by
  induction l generalizing b with
  | nil => exact Blind.pure b
  | cons a l ih =>
    exact (h b a).bind fun b' => ih b'

end Blind
end WalletM

/-! ### The pieces of `GetBalance` -/

namespace CWallet
variable {κ δ : Type} {ops : KeyOps κ δ}

/-! Amounts fail only by being out of range. -/

theorem foldlM_error {α β ε : Type} {P : ε → Prop} {f : β → α → Except ε β}
    (h : ∀ b a e, f b a = .error e → P e) {l : List α} {b : β} {e : ε}
    (herr : l.foldlM f b = .error e) : P e :=
  (ends_foldlM (I := fun _ _ => True) (fun _ => ⟨fun _ _ => trivial, h _ _⟩) trivial).2 e herr

variable {w : CWallet κ δ} {filter : Nat}

theorem outputGetCredit_error (h : w.outputGetCredit ops txout filter = .error e) :
    e = .valueOutOfRange := by
  rw [outputGetCredit] at h
  split_ifs at h
  cases h
  rfl

theorem addInRange_error {n m : Int} (h : addInRange n m = .error e) : e = .valueOutOfRange := by
  rw [addInRange] at h
  split_ifs at h
  cases h
  rfl

theorem addOutput_error {n : Int}
    (h : (do addInRange n (← w.outputGetCredit ops txout filter)) = .error e) :
    e = .valueOutOfRange := by
  rcases bind_eq_error.mp h with h | ⟨credit, -, h⟩
  · exact outputGetCredit_error h
  · exact addInRange_error h

theorem getDebit_error (h : w.getDebit ops tx filter = .error e) : e = .valueOutOfRange := by
  refine foldlM_error (P := fun e => e = .valueOutOfRange) (fun nDebit txin e he => ?_) h
  dsimp only at he
  split_ifs at he
  cases he
  rfl

variable [DecidableEq δ]

theorem amountOf_error {type : AmountType} (h : w.amountOf ops tx type filter = .error e) :
    e = .valueOutOfRange := by
  have hcredit : ∀ {e}, w.txGetCredit ops tx filter = .error e → e = .valueOutOfRange := fun h =>
    foldlM_error (P := fun e => e = .valueOutOfRange) (fun _ _ _ he => addOutput_error he) h
  cases type with
  | debit => exact getDebit_error h
  | credit | immatureCredit => exact hcredit h
  | availableCredit =>
    refine foldlM_error (P := fun e => e = .valueOutOfRange) (fun _ _ e he => ?_) h
    split_ifs at he
    exact addOutput_error he

section Quiet
variable {c : CWallet κ δ} {E : WalletAbort → Prop}

theorem quiet_cachedAmount (hrng : E .valueOutOfRange) (t : Uint256) (type : AmountType)
    (filter : Nat) : WalletM.Quiet c E (cachedAmount ops t type filter) := by
  intro w hw
  rw [cachedAmount]
  split
  · exact ⟨hw, fun e he => nomatch he⟩
  · split
    · exact ⟨hw, fun e he => nomatch he⟩
    · split
      · exact ⟨(clear_modifyTx_setAmount _ _ _ _ _).trans hw, fun e he => nomatch he⟩
      · next e' herr =>
        refine ⟨hw, fun e he => ?_⟩
        cases he
        rwa [amountOf_error herr]

theorem blind_cachedAmount (t : Uint256) (type : AmountType) (filter : Nat) :
    Blind ops (cachedAmount ops t type filter) := by
  refine ⟨fun c => quiet_cachedAmount trivial t type filter, fun w hw => ?_⟩
  cases hget : w.getWalletTx t with
  | none => simp [cachedAmount, getWalletTx_clear, hget, hw]
  | some wtx =>
    have hsame : w.clear.amountOf ops wtx.tx type filter = w.amountOf ops wtx.tx type filter :=
      (sameAmounts_of_clear_eq (clear_clear w) wtx.tx).amountOf type filter
    cases hamt : wtx.amounts type filter with
    | some amount =>
      have hfr := hw.amount hget hamt
      simp [cachedAmount, getWalletTx_clear, hget, hamt, hw, markDirty, hsame, hfr]
    | none =>
      cases hcompute : w.amountOf ops wtx.tx type filter with
      | error e =>
        simp [cachedAmount, getWalletTx_clear, hget, hamt, hw, markDirty, hsame, hcompute]
      | ok amount =>
        let w' := w.modifyTx t fun wtx => wtx.setAmount type filter amount
        have hclear : w'.clear = w.clear := clear_modifyTx_setAmount w t type filter amount
        have hkeep : ∀ {n wtx'}, w'.getWalletTx n = some wtx' →
            w.getWalletTx n = some wtx' ∨ wtx' = wtx.setAmount type filter amount := by
          intro n wtx' hget'
          rw [getWalletTx_modifyTx] at hget'
          split_ifs at hget' with hn
          · subst hn
            rw [hget, Option.map_some] at hget'
            exact .inr (Option.some.inj hget').symm
          · exact .inl hget'
        have hfr : w'.CacheFresh ops := by
          refine ⟨?_, ?_⟩
          · intro n wtx' hget' type' filter' amount' hamt'
            rw [(sameAmounts_of_clear_eq hclear wtx'.tx).amountOf]
            rcases hkeep hget' with hget₀ | rfl
            · exact hw.amount hget₀ hamt'
            · dsimp only [setAmount] at hamt' ⊢
              split_ifs at hamt' with hthis
              · cases hamt'
                rwa [hthis.1, hthis.2]
              · exact hw.amount hget hamt'
          · intro n wtx' hget' hflag type' filter'
            rcases hkeep hget' with hget₀ | rfl
            · exact hw.flag hget₀ hflag type' filter'
            · cases hflag
        simp [cachedAmount, getWalletTx_clear, hget, hamt, markDirty, hsame, hcompute]
        exact hfr

end Quiet

/-! ### The whole of it

A property of computations that the pieces have and that composition keeps is one of
`GetBalance`. The assertion about coinbases is met at transactions in `G` only. -/

/-- The rules that are needed. -/
structure BalanceRules (ops : KeyOps κ δ) (G : CTransaction → TxState → Prop)
    (P : (α : Type) → WalletM κ δ α → Prop) : Prop where
  pure : ∀ {α} (a : α), P α (Pure.pure a)
  bind : ∀ {α β} {m : WalletM κ δ α} {k : α → WalletM κ δ β}, P α m → (∀ a, P β (k a)) →
    P β (m >>= k)
  look : ∀ {α} (f : CWallet κ δ → α), (∀ w, f w.clear = f w) → P α (read fun w => .ok (f w))
  amount : ∀ t type filter, P Int (cachedAmount ops t type filter)
  available : ∀ tx filter, P Int (read fun w => w.availableCredit ops tx filter)
  immature : ∀ {tx state}, G tx state → P Bool (read fun w => w.isTxImmatureCoinBase tx state)
  diverges : ∀ α, P α (read fun _ => .error .diverges)

namespace BalanceRules
variable {G : CTransaction → TxState → Prop} {P : (α : Type) → WalletM κ δ α → Prop}

omit [DecidableEq δ] in
theorem branch {α : Type} {p : Prop} [Decidable p] {m m' : WalletM κ δ α} (hm : P α m)
    (hm' : P α m') : P α (if p then m else m') := by
  split_ifs
  · exact hm
  · exact hm'

section
variable (h : BalanceRules ops G P)

include h

theorem cachedTxIsFromMe (t : Uint256) (tx : CTransaction) (filter : Nat) :
    P Bool (cachedTxIsFromMe ops t tx filter) := by
  refine h.bind ?_ fun debit => h.pure _
  rw [cachedTxGetDebit]
  split_ifs
  · exact h.pure 0
  · dsimp only
    split_ifs
    · exact h.amount t .debit _
    · exact h.pure 0

theorem cachedTxGetImmatureCredit (t : Uint256) (hG : G tx state)
    (filter : Nat) : P Int (cachedTxGetImmatureCredit ops t tx state filter) := by
  refine h.bind (h.immature hG) fun immature => ?_
  refine h.bind (h.look (fun w => w.isTxInMainChain state) fun _ => rfl) fun inMainChain => ?_
  split_ifs
  · exact h.amount t .immatureCredit filter
  · exact h.pure 0

theorem cachedTxGetAvailableCredit (t : Uint256) (hG : G tx state)
    (filter : Nat) : P Int (cachedTxGetAvailableCredit ops t tx state filter) := by
  refine h.bind (h.immature hG) fun immature => ?_
  split_ifs
  · exact h.pure 0
  · exact h.amount t .availableCredit filter
  · exact h.available tx filter

theorem trustInputs {trust : Uint256 → CTransaction → TxState → Finset Uint256 →
      WalletM κ δ (Bool × Finset Uint256)}
    (htrust : ∀ t tx state trusted, P _ (trust t tx state trusted)) (vin : List CTxIn)
    (trusted : Finset Uint256) : P _ (trustInputs ops trust vin trusted) := by
  induction vin generalizing trusted with
  | nil => exact h.pure _
  | cons txin vin ih =>
    refine h.bind (h.look (fun w => w.view.entry txin.prevout.hash) fun w => by rw [view_clear])
      fun entry => ?_
    rcases entry with _ | ⟨parent, parentState⟩
    · exact h.pure _
    dsimp only
    split
    · exact h.pure _
    · next parentOut _ =>
      refine h.bind (h.look (fun w => ops.isMine w.keys parentOut.scriptPubKey) fun _ => rfl)
        fun mine => ?_
      split_ifs
      · exact h.pure _
      · exact ih trusted
      · refine h.bind (htrust _ _ _ _) fun r => ?_
        obtain ⟨parentTrusted, trusted'⟩ := r
        cases parentTrusted with
        | false => exact h.pure _
        | true => exact ih _

theorem cachedTxIsTrusted (fuel : Nat) (t : Uint256) (tx : CTransaction)
    (state : TxState) (trusted : Finset Uint256) :
    P _ (cachedTxIsTrusted ops fuel t tx state trusted) := by
  induction fuel generalizing t tx state trusted with
  | zero => exact h.diverges _
  | succ fuel ih =>
    refine h.bind (h.look (fun w => state.depth w.lastBlockProcessedHeight) fun _ => rfl)
      fun nDepth => ?_
    refine branch (h.pure _) (branch (h.pure _) ?_)
    refine h.bind (h.look (fun w => w.spendZeroConfChange) fun _ => rfl) fun spend => ?_
    refine branch (h.pure _) ?_
    refine h.bind (h.cachedTxIsFromMe t tx IsMine.all) fun fromMe => ?_
    exact branch (h.pure _) (branch (h.pure _) (h.trustInputs ih tx.vin trusted))

theorem addToBalance (fuel : Nat) (minDepth : Int) (reuseFilter : Nat)
    (st : Balance × Finset Uint256) {e : Uint256 × CTransaction × TxState} (hG : G e.2.1 e.2.2) :
    P _ (addToBalance ops fuel minDepth reuseFilter st e) := by
  obtain ⟨ret, trusted⟩ := st
  obtain ⟨t, tx, state⟩ := e
  refine h.bind (h.cachedTxIsTrusted fuel t tx state trusted) fun r => ?_
  refine h.bind
    (h.look (fun w => state.depth w.lastBlockProcessedHeight) fun _ => rfl) fun depth => ?_
  refine h.bind (h.cachedTxGetAvailableCredit t hG _) fun creditMine => ?_
  refine h.bind (h.cachedTxGetAvailableCredit t hG _) fun creditWatchonly => ?_
  refine h.bind (h.cachedTxGetImmatureCredit t hG _) fun immatureMine => ?_
  exact h.bind (h.cachedTxGetImmatureCredit t hG _) fun immatureWatchonly => h.pure _

end
end BalanceRules

omit [DecidableEq δ] in
theorem isTxImmatureCoinBase_error (h : w.isTxImmatureCoinBase tx state = .error e) :
    tx.isCoinBase = true ∧ state.depth w.lastBlockProcessedHeight < 0 := by
  rw [isTxImmatureCoinBase, getTxBlocksToMaturity] at h
  split_ifs at h with hcb
  · cases h
  · dsimp only at h
    split_ifs at h with hdepth
    · exact ⟨by simpa using hcb, hdepth⟩
    · cases h

theorem balanceRules_quiet {c : CWallet κ δ} {E : WalletAbort → Prop} (hrng : E .valueOutOfRange)
    (hdiverges : E .diverges) : BalanceRules ops
      (fun tx state => tx.isCoinBase = true → 0 ≤ state.depth c.lastBlockProcessedHeight)
      (fun _ m => WalletM.Quiet c E m) where
  pure := WalletM.Quiet.pure
  bind := WalletM.Quiet.bind
  look f _ := WalletM.Quiet.read_ok f
  amount := quiet_cachedAmount hrng
  available tx filter := WalletM.Quiet.read fun w _ e he => by
    have herr : w.amountOf ops tx .availableCredit filter = .error e := he
    rwa [amountOf_error herr]
  immature hG := WalletM.Quiet.read fun w hw e he => by
    obtain ⟨hcb, hdepth⟩ := isTxImmatureCoinBase_error he
    have hht : w.clear.lastBlockProcessedHeight = c.lastBlockProcessedHeight := by rw [hw]
    change w.lastBlockProcessedHeight = _ at hht
    rw [hht] at hdepth
    exact absurd (hG hcb) (by omega)
  diverges _ := WalletM.Quiet.read fun w _ e he => by
    cases he
    exact hdiverges

theorem balanceRules_blind : BalanceRules ops (fun _ _ => True) (fun _ m => Blind ops m) where
  pure := Blind.pure
  bind := Blind.bind
  look _ hf := Blind.read fun w => congrArg Except.ok (hf w)
  amount := blind_cachedAmount
  available tx filter := Blind.read fun w =>
    (sameAmounts_of_clear_eq (clear_clear w) tx).availableCredit filter
  immature _ := Blind.read fun _ => rfl
  diverges _ := Blind.read fun _ => rfl

omit [DecidableEq δ] in
theorem mem_entryList {t : Uint256} {s : TxState} :
    (t, tx, s) ∈ w.entryList ↔ w.view.entry t = some (tx, s) := by
  rw [entryList, mem_map, view_entry, Option.map_eq_some_iff]
  constructor
  · rintro ⟨⟨n, wtx⟩, hmem, heq⟩
    cases heq
    exact ⟨wtx, (w.mapWallet.mem_entries_iff n wtx).mp hmem, rfl⟩
  · rintro ⟨wtx, hget, heq⟩
    cases heq
    exact ⟨(t, wtx), (w.mapWallet.mem_entries_iff t wtx).mpr hget, rfl⟩

/-- A question about the balance fills caches and nothing else, and meets the assertion
about coinbases only if one is conflicted. -/
theorem quiet_getBalance {c : CWallet κ δ} {E : WalletAbort → Prop} (hrng : E .valueOutOfRange)
    (hdiverges : E .diverges)
    (hmature : ∀ t tx s, c.view.entry t = some (tx, s) → tx.isCoinBase = true →
      0 ≤ s.depth c.lastBlockProcessedHeight) (minDepth : Int) (avoidReuse : Bool) :
    WalletM.Quiet c E (getBalance ops minDepth avoidReuse) := by
  intro w hw
  have hlist : w.entryList = c.entryList := by rw [← hw, entryList_clear]
  have hfold :
      WalletM.Quiet c E (c.entryList.foldlM (addToBalance ops (c.entryList.length + 1) minDepth
      (if avoidReuse then IsMine.no else IsMine.used)) (Balance.zero, ∅) >>= fun st =>
        pure st.1) := by
    refine (WalletM.Quiet.foldlM (fun st e he => ?_) _).bind fun st => WalletM.Quiet.pure _
    obtain ⟨t, tx, s⟩ := e
    exact (balanceRules_quiet hrng hdiverges).addToBalance _ _ _ _
      (hmature t tx s (mem_entryList.mp he))
  have hrun := hfold w hw
  rw [← hlist] at hrun
  exact hrun

/-- With right caches the balance is the one of a wallet without caches. -/
theorem blind_getBalance (minDepth : Int) (avoidReuse : Bool) :
    Blind ops (getBalance ops minDepth avoidReuse) := by
  refine Blind.bind (Blind.read fun w => by rw [entryList_clear]) fun entries => ?_
  refine (Blind.foldlM (fun st e => ?_) _).bind fun st => Blind.pure _
  exact balanceRules_blind.addToBalance _ _ _ _ trivial

end CWallet
end Lithium
