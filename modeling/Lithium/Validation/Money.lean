import Lithium.Lib.Holdings
import Lithium.Validation.Disconnect

/-!
# No money from nothing

Give every coin a weight. Spending a coin takes its weight out of a state, and
adding one brings in its weight at most, when the coins that are hidden are counted
as well. With the value of a coin as its weight, a block can raise what all coins
are worth by its subsidy only; with weight 1 for the coins of one outpoint and 0 for
all others, the outpoint is spent at most as often as there were coins for it.
Nothing is assumed about coins that are overwritten: where the check of BIP30 is
not made, coins may be lost, but none is gained.
-/

namespace Lithium
open Lib List UtxoState CCoinsViewDB CTransaction
variable {o : COutPoint} {vin : List CTxIn} {nHeight : Int} {tx : CTransaction}
  {vtx : List CTransaction}
variable {txid : Uint256} {fCoinbase : Bool} {vout : List CTxOut} {i : Nat}

/-- All coins have values that amounts of money may have. -/
def InMoneyRange (v : UtxoMap) : Prop :=
  ∀ o coin, v o = some coin → moneyRange coin.out.nValue.toInt = true

theorem InMoneyRange.update {v : UtxoMap} (h : InMoneyRange v) {c : Option Coin}
    (hc : ∀ coin, c = some coin → moneyRange coin.out.nValue.toInt = true) :
    InMoneyRange (Function.update v o c) := by
  intro x coin hx
  rw [Function.update_apply] at hx
  split_ifs at hx
  · exact hc coin hx
  · exact h x coin hx

/-! ### Weights -/

section
variable (weight : COutPoint → Coin → Int)

/-- Coins with an amount of money do not have a negative weight. -/
def NonnegWeight : Prop := ∀ o coin, moneyRange coin.out.nValue.toInt = true → 0 ≤ weight o coin

def spentWeight (vin : List CTxIn) (coins : List Coin) : Int :=
  (zipWith (fun txin coin => weight txin.prevout coin) vin coins).sum

def outputsWeight (weight : COutPoint → Coin → Int) (txid : Uint256) (nHeight : Int)
    (fCoinbase : Bool) : List CTxOut → Nat → Int
  | [], _ => 0
  | out :: rest, i => weight ⟨txid, UInt32.ofNat i⟩ (Coin.ofOutput out nHeight fCoinbase) +
      outputsWeight weight txid nHeight fCoinbase rest (i + 1)

/-- The weight of all that the transactions spend, with this undo data. -/
def spentWeights (vtx : List CTransaction) (undos : List CTxUndo) : Int :=
  (zipWith (fun tx undo => spentWeight weight tx.vin undo.vprevout) vtx undos).sum

/-- The weight of all that the transactions create. -/
def createdWeights (nHeight : Int) (vtx : List CTransaction) : Int :=
  (vtx.map fun tx => outputsWeight weight tx.getHash nHeight tx.isCoinBase tx.vout 0).sum

end

variable {undo coins : List Coin} {undos : List CTxUndo}

theorem NonnegWeight.entry {weight : COutPoint → Coin → Int} (hw : NonnegWeight weight)
    {v : UtxoMap} (hv : InMoneyRange v) (o : COutPoint) : 0 ≤ entryWeight weight o (v o) := by
  cases ho : v o with
  | none => exact le_rfl
  | some coin => exact hw o coin (hv o coin ho)

namespace UtxoState

/-- A state whose coins can be counted. -/
structure Countable (t : UtxoState) : Prop where
  coins : FiniteMap t.coins
  hidden : FiniteMap t.hidden
  range : InMoneyRange t.coins
  hiddenRange : InMoneyRange t.hidden

/-- The weight of all coins of a state. -/
noncomputable def weightOf (weight : COutPoint → Coin → Int) (t : UtxoState) : Int :=
  total weight t.coins + total weight t.hidden

variable {t : UtxoState} {weight : COutPoint → Coin → Int}

theorem Countable.total_le (h : t.Countable) (hw : NonnegWeight weight) :
    total weight t.coins ≤ t.weightOf weight :=
  le_add_of_nonneg_right (total_nonneg h.hidden (hw.entry h.hiddenRange))

theorem Countable.spend (weight : COutPoint → Coin → Int) (h : t.Countable) {coin : Coin}
    (hcoin : t.coins o = some coin) :
    (t.spend o).Countable ∧ (t.spend o).weightOf weight = t.weightOf weight - weight o coin := by
  refine ⟨⟨h.coins.update _ _, h.hidden.update _ _, h.range.update (h.hiddenRange o),
    h.hiddenRange.update nofun⟩, ?_⟩
  rw [weightOf, weightOf, UtxoState.spend, total_update h.coins, total_update h.hidden, hcoin]
  simp only [entryWeight, Option.elim_some, Option.elim_none]
  omega

theorem Countable.add (h : t.Countable) (hw : NonnegWeight weight) (o : COutPoint) {coin : Coin}
    (hcoin : moneyRange coin.out.nValue.toInt = true) (possibleOverwrite : Bool) :
    (t.add o coin possibleOverwrite).Countable ∧
      (t.add o coin possibleOverwrite).weightOf weight ≤ t.weightOf weight + weight o coin := by
  have hnew := hw o coin hcoin
  have hold := hw.entry h.range o
  have hhid := hw.entry h.hiddenRange o
  have hrng : InMoneyRange (Function.update t.coins o (some coin)) :=
    h.range.update fun _ hsome => Option.some.inj hsome ▸ hcoin
  rw [UtxoState.add]
  split_ifs
  · exact ⟨h, by omega⟩
  · refine ⟨⟨h.coins.update _ _, h.hidden, hrng, h.hiddenRange⟩, ?_⟩
    rw [weightOf, weightOf, total_update h.coins]
    simp only [entryWeight, Option.elim_some] at hold ⊢
    omega
  · refine ⟨⟨h.coins.update _ _, h.hidden.update _ _, hrng, h.hiddenRange.update (h.range o)⟩, ?_⟩
    rw [weightOf, weightOf, total_update h.coins, total_update h.hidden]
    simp only [entryWeight, Option.elim_some] at hold hhid ⊢
    omega

theorem Countable.spendAll (h : t.Countable) (hdist : (vin.map CTxIn.prevout).Nodup)
    (hcs : Spends t.coins vin coins) : (t.spendAll vin).Countable ∧
      (t.spendAll vin).weightOf weight = t.weightOf weight - spentWeight weight vin coins := by
  induction vin generalizing t coins with
  | nil => exact ⟨h, (sub_zero _).symm⟩
  | cons txin rest ih =>
    obtain ⟨coin, coins, rfl, hcoin, hcs⟩ := hcs.exists_cons
    rw [map_cons, nodup_cons] at hdist
    obtain ⟨hnext, hspent⟩ := h.spend weight hcoin
    have hrest : Spends (t.spend txin.prevout).coins rest coins := by
      refine hcs.of_spend fun txin' hmem => (spend_of_ne fun heq => hdist.1 ?_).1
      rw [← heq]
      exact mem_map_of_mem hmem
    obtain ⟨hall, hspent'⟩ := ih hnext hdist.2 hrest
    refine ⟨hall, hspent'.trans ?_⟩
    rw [hspent, spentWeight, spentWeight, zipWith_cons_cons, sum_cons]
    omega

theorem Countable.addAll {nHeight : Int} (h : t.Countable) (hw : NonnegWeight weight)
    (hvout : ∀ out ∈ vout, moneyRange out.nValue.toInt = true) :
    (addAll txid nHeight fCoinbase vout i t).Countable ∧
      (addAll txid nHeight fCoinbase vout i t).weightOf weight ≤
        t.weightOf weight + outputsWeight weight txid nHeight fCoinbase vout i := by
  induction vout generalizing i t with
  | nil => exact ⟨h, (add_zero _).ge⟩
  | cons out rest ih =>
    rw [forall_mem_cons] at hvout
    have hcoin : moneyRange (Coin.ofOutput out nHeight fCoinbase).out.nValue.toInt = true := hvout.1
    obtain ⟨hnext, hadded⟩ := h.add hw ⟨txid, UInt32.ofNat i⟩ hcoin fCoinbase
    obtain ⟨hall, hadded'⟩ := ih (i := i + 1) hnext hvout.2
    refine ⟨hall, hadded'.trans ?_⟩
    rw [outputsWeight]
    omega

end UtxoState

namespace ConnectContext
variable {ctx : ConnectContext} {t : UtxoState} {weight : COutPoint → Coin → Int}

theorem TxFunded.applyTx_weightOf (h : ctx.TxFunded t tx undo) (hchk : tx.Checked)
    (ht : t.Countable) (hw : NonnegWeight weight) (nHeight : Int) :
    (t.applyTx nHeight tx).Countable ∧
      (t.applyTx nHeight tx).weightOf weight ≤ t.weightOf weight - spentWeight weight tx.vin undo +
        outputsWeight weight tx.getHash nHeight tx.isCoinBase tx.vout 0 := by
  have hspend : (t.spendTx tx).Countable ∧
      (t.spendTx tx).weightOf weight = t.weightOf weight - spentWeight weight tx.vin undo := by
    rw [spendTx]
    split_ifs with hcb
    · rw [h.coinbase hcb, spentWeight, zipWith_nil_right]
      exact ⟨ht, (sub_zero _).symm⟩
    · exact ht.spendAll hchk.distinct (h.spends (Bool.not_eq_true _ ▸ hcb))
  rw [← hspend.2]
  exact hspend.1.addAll hw hchk.outputs

/-- What transactions that are connected do to the weight of a state. -/
theorem TxsAccepted.applyTxs_weightOf (h : ctx.TxsAccepted t vtx undos)
    (hchk : ∀ tx ∈ vtx, tx.Checked) (ht : t.Countable) (hw : NonnegWeight weight) :
    (t.applyTxs ctx.pindex.nHeight vtx).Countable ∧
      (t.applyTxs ctx.pindex.nHeight vtx).weightOf weight ≤ t.weightOf weight -
        spentWeights weight vtx undos + createdWeights weight ctx.pindex.nHeight vtx := by
  induction h with
  | nil t => exact ⟨ht, by simp [spentWeights, createdWeights, applyTxs]⟩
  | @cons t tx undo rest undos hacc _ ih =>
    rw [forall_mem_cons] at hchk
    obtain ⟨hnext, hweight⟩ := hacc.applyTx_weightOf hchk.1 ht hw ctx.pindex.nHeight
    obtain ⟨hall, hweight'⟩ := ih hchk.2 hnext
    refine ⟨hall, hweight'.trans ?_⟩
    simp only [spentWeights, createdWeights, zipWith_cons_cons, map_cons, sum_cons]
      at hweight hweight' ⊢
    omega

end ConnectContext

/-! ### Amounts -/

def valueWeight (_ : COutPoint) (coin : Coin) : Int := coin.out.nValue.toInt

/-- What the coins of a view are worth together. -/
noncomputable def supply (v : UtxoMap) : Int := total valueWeight v

theorem nonneg_valueWeight : NonnegWeight valueWeight := fun _ _ h => (moneyRange_iff.mp h).1

theorem spentWeight_value (h : coins.length ≤ vin.length) :
    spentWeight valueWeight vin coins = totalValue coins := by
  induction vin generalizing coins with
  | nil =>
    obtain rfl := length_eq_zero_iff.mp (Nat.le_zero.mp h)
    rfl
  | cons txin rest ih =>
    cases coins with
    | nil => rfl
    | cons coin coins =>
      have htail := ih (Nat.le_of_succ_le_succ h)
      rw [spentWeight] at htail ⊢
      rw [zipWith_cons_cons, sum_cons, htail, totalValue_cons, valueWeight]

theorem outputsWeight_value :
    outputsWeight valueWeight txid nHeight fCoinbase vout i = totalOut vout := by
  induction vout generalizing i with
  | nil => rfl
  | cons out rest ih =>
    rw [outputsWeight, ih, totalOut_cons]
    rfl

/-- A sum of amounts that is an amount was one all the time. -/
theorem moneyRange_take {l : List Int} (hl : ∀ n ∈ l, 0 ≤ n) (hsum : moneyRange l.sum = true)
    (k : Nat) : moneyRange (l.take k).sum = true := by
  rw [moneyRange_iff, ← sum_take_add_sum_drop l k] at hsum
  have htake : 0 ≤ (l.take k).sum := sum_nonneg fun n hn => hl n (mem_of_mem_take hn)
  have hdrop : 0 ≤ (l.drop k).sum := sum_nonneg fun n hn => hl n (mem_of_mem_drop hn)
  rw [moneyRange_iff]
  omega

theorem fits_of_moneyRange {n : Int} (h : moneyRange n = true) : FitsInt64 n := by
  rw [moneyRange_iff, maxMoney_eq] at h
  constructor <;> omega

/-- The sums that are built in the course of connecting transactions fit into
`int64_t`: outputs, inputs, fees, and the reward of the block. -/
structure SumsFit (vtx : List CTransaction) (undos : List CTxUndo) (nSubsidy : Int) : Prop where
  outputs : ∀ tx ∈ vtx, ∀ k, FitsInt64 (totalOut (tx.vout.take k))
  inputs : ∀ undo ∈ undos, ∀ k, FitsInt64 (totalValue (undo.vprevout.take k))
  fees : ∀ k, FitsInt64 (ConnectContext.totalFees (vtx.take k) (undos.take k))
  reward : FitsInt64 (ConnectContext.totalFees vtx undos + nSubsidy)

namespace ConnectContext
variable {ctx : ConnectContext} {t : UtxoState}

/-- Every transaction of a block and the coins it spends. -/
theorem TxsAccepted.funded (h : ctx.TxsAccepted t vtx undos) {undo : CTxUndo}
    (hmem : (tx, undo) ∈ vtx.zip undos) : ∃ t', ctx.TxFunded t' tx undo.vprevout := by
  induction h with
  | nil t => cases hmem
  | @cons t _ _ _ _ hacc _ ih =>
    rcases mem_cons.mp hmem with heq | hmem
    · cases heq
      exact ⟨t, hacc.toTxFunded⟩
    · exact ih hmem

theorem TxsAccepted.funded_of_mem (h : ctx.TxsAccepted t vtx undos) {undo : CTxUndo}
    (hmem : undo ∈ undos) : ∃ tx t', ctx.TxFunded t' tx undo.vprevout := by
  induction h with
  | nil t => cases hmem
  | @cons t tx _ _ _ hacc _ ih =>
    rcases mem_cons.mp hmem with rfl | hmem
    · exact ⟨tx, t, hacc.toTxFunded⟩
    · exact ih hmem

theorem TxFunded.fee_nonneg (h : ctx.TxFunded t tx undo) : 0 ≤ txFee tx undo := by
  rw [txFee]
  split_ifs with hcb
  · exact le_rfl
  · exact (moneyRange_iff.mp (h.funded (Bool.not_eq_true _ ▸ hcb)).fee).1

theorem TxFunded.inputs_range (h : ctx.TxFunded t tx undo) (k : Nat) :
    moneyRange (totalValue (undo.take k)) = true := by
  cases hcb : tx.isCoinBase with
  | true =>
    rw [h.coinbase hcb, take_nil]
    decide
  | false =>
    have hfund := h.funded hcb
    rw [totalValue, map_take]
    refine moneyRange_take ?_ hfund.total k
    rw [forall_mem_map]
    exact fun coin hcoin => (moneyRange_iff.mp (hfund.values coin hcoin)).1

theorem TxsAccepted.fees_range (h : ctx.TxsAccepted t vtx undos)
    (hfees : moneyRange (totalFees vtx undos) = true) (k : Nat) :
    moneyRange (totalFees (vtx.take k) (undos.take k)) = true := by
  rw [totalFees, ← take_zipWith]
  refine moneyRange_take (fun n hn => ?_) hfees k
  rw [← map_uncurry_zip_eq_zipWith, mem_map] at hn
  obtain ⟨⟨tx, undo⟩, hmem, rfl⟩ := hn
  obtain ⟨t', hfund⟩ := h.funded hmem
  exact hfund.fee_nonneg

/-- The fees of transactions that are not coinbases are what they spend beyond what
they create. -/
theorem TxsAccepted.totalFees_eq (h : ctx.TxsAccepted t vtx undos)
    (hcb : ∀ tx ∈ vtx, tx.isCoinBase = false) (nHeight : Int) : totalFees vtx undos =
      spentWeights valueWeight vtx undos - createdWeights valueWeight nHeight vtx := by
  induction h with
  | nil => rfl
  | @cons t tx undo rest undos hacc _ ih =>
    rw [forall_mem_cons] at hcb
    have htail := ih hcb.2
    have hlen := (hacc.spends hcb.1).length
    simp only [totalFees, spentWeights, createdWeights, zipWith_cons_cons, map_cons,
      sum_cons] at htail ⊢
    rw [htail, txFee, hcb.1, if_neg Bool.false_ne_true, spentWeight_value hlen.le,
      outputsWeight_value]
    omega

/-- A block raises what all coins are worth by its subsidy at most. -/
theorem Accepted.supply_le {block : CBlock} (h : ctx.Accepted block t undos) (ht : t.Countable) :
    supply (t.applyTxs ctx.pindex.nHeight block.vtx).coins ≤ t.weightOf valueWeight +
      (getBlockSubsidy ctx.pindex.nHeight ctx.env.consensus).toInt := by
  obtain ⟨haft, hweight⟩ := h.txs.applyTxs_weightOf h.checked ht nonneg_valueWeight
  refine (haft.total_le nonneg_valueWeight).trans (hweight.trans ?_)
  obtain ⟨coinbase, rest, hvtx, hcb, hrest⟩ := h.coinbase
  have hreward := h.reward coinbase (by rw [hvtx]; rfl)
  have htxs := h.txs
  rw [hvtx] at htxs hreward ⊢
  cases htxs with
  | cons _ hothers =>
    have hfees := hothers.totalFees_eq hrest ctx.pindex.nHeight
    simp only [totalFees, spentWeights, createdWeights, zipWith_cons_cons, map_cons,
      sum_cons] at hfees hreward ⊢
    rw [txFee, if_pos hcb] at hreward
    rw [outputsWeight_value, spentWeight, zipWith_nil_right, sum_nil]
    omega

theorem Accepted.sumsFit {block : CBlock} (h : ctx.Accepted block t undos) :
    SumsFit block.vtx (⟨[]⟩ :: undos)
      (getBlockSubsidy ctx.pindex.nHeight ctx.env.consensus).toInt := by
  refine ⟨fun tx htx k => fits_of_moneyRange ((h.checked tx htx).sums k), fun undo hundo k => ?_,
    fun k => fits_of_moneyRange (h.txs.fees_range h.fees k), fits_reward h.fees _ _⟩
  obtain ⟨tx, t', hfund⟩ := h.txs.funded_of_mem hundo
  exact fits_of_moneyRange (hfund.inputs_range k)

end ConnectContext

/-! ### Spending once -/

def CTransaction.outpoints (tx : CTransaction) : List COutPoint :=
  (range tx.vout.length).map fun i => ⟨tx.getHash, UInt32.ofNat i⟩

/-- Weight 1 for the coins of one outpoint. -/
def outpointWeight (o x : COutPoint) (_ : Coin) : Int := if x = o then 1 else 0

theorem nonneg_outpointWeight (o : COutPoint) : NonnegWeight (outpointWeight o) := by
  intro x coin _
  rw [outpointWeight]
  split_ifs <;> decide

theorem spentWeight_outpoint (h : vin.length = coins.length) :
    spentWeight (outpointWeight o) vin coins = (vin.map CTxIn.prevout).count o := by
  induction vin generalizing coins with
  | nil => rfl
  | cons txin rest ih =>
    cases coins with
    | nil => cases h
    | cons coin coins =>
      have htail := ih (Nat.succ.inj h)
      rw [spentWeight] at htail ⊢
      rw [zipWith_cons_cons, sum_cons, htail, map_cons, count_cons, outpointWeight]
      simp only [beq_iff_eq]
      split_ifs <;> omega

theorem outputsWeight_outpoint : outputsWeight (outpointWeight o) txid nHeight fCoinbase vout i =
      ((range' i vout.length).map fun i => (⟨txid, UInt32.ofNat i⟩ : COutPoint)).count o := by
  induction vout generalizing i with
  | nil => rfl
  | cons out rest ih =>
    rw [outputsWeight, ih, length_cons, range'_succ, map_cons, count_cons, outpointWeight]
    simp only [beq_iff_eq]
    split_ifs <;> omega

theorem createdWeights_outpoint :
    createdWeights (outpointWeight o) nHeight vtx = (vtx.flatMap outpoints).count o := by
  induction vtx with
  | nil => rfl
  | cons tx rest ih =>
    rw [createdWeights] at ih ⊢
    rw [map_cons, sum_cons, ih, outputsWeight_outpoint, flatMap_cons,
      count_append, outpoints, range_eq_range', Nat.cast_add]

namespace ConnectContext
variable {ctx : ConnectContext} {t : UtxoState}

theorem TxsAccepted.spentWeights_outpoint (h : ctx.TxsAccepted t vtx undos) (o : COutPoint) :
    spentWeights (outpointWeight o) vtx undos = (vtx.flatMap prevouts).count o := by
  induction h with
  | nil => rfl
  | @cons t tx undo rest undos hacc _ ih =>
    have hfst : spentWeight (outpointWeight o) tx.vin undo.vprevout = tx.prevouts.count o := by
      rw [prevouts]
      cases hcb : tx.isCoinBase with
      | true =>
        rw [hacc.coinbase hcb, spentWeight, zipWith_nil_right]
        rfl
      | false => exact spentWeight_outpoint (hacc.spends hcb).length.symm
    rw [spentWeights] at ih ⊢
    rw [zipWith_cons_cons, sum_cons, ih, hfst, flatMap_cons, count_append, Nat.cast_add]

/-- An outpoint is spent as often at most as there are coins for it: the one that
was there, and those that the block creates. -/
theorem Accepted.spent_once {block : CBlock} (h : ctx.Accepted block t undos) (ht : t.Countable)
    (htidy : t.Tidy) (o : COutPoint) : (block.vtx.flatMap prevouts).count o ≤
      (t.coins o).isSome.toNat + (block.vtx.flatMap outpoints).count o := by
  obtain ⟨haft, hweight⟩ := h.txs.applyTxs_weightOf h.checked ht (nonneg_outpointWeight o)
  have hnn := total_nonneg haft.coins ((nonneg_outpointWeight o).entry haft.range)
  have hle := haft.total_le (nonneg_outpointWeight o)
  have hbef : t.weightOf (outpointWeight o) = (t.coins o).isSome.toNat := by
    have hhid : total (outpointWeight o) t.hidden = 0 := by
      rw [htidy]
      exact (total_single _ o).trans (if_neg Bool.false_ne_true)
    have hcs : total (outpointWeight o) t.coins = if (t.coins o).isSome then 1 else 0 :=
      total_single _ o
    rw [weightOf, hhid, hcs]
    cases (t.coins o).isSome <;> rfl
  rw [hbef, h.txs.spentWeights_outpoint, createdWeights_outpoint] at hweight
  omega

end ConnectContext

/-! ### Blocks -/

/-- What holds of the transactions of a block that was connected on a view with
these coins, where `undos` are the coins that its transactions spent. -/
structure ConnectContext.Conserves (ctx : ConnectContext) (block : CBlock) (t : UtxoState)
    (undos : List CTxUndo) : Prop where
  /-- every coin is there when it is spent -/
  spends : ctx.TxsAccepted t block.vtx undos
  covered : ∀ tx undo, (tx, undo) ∈ block.vtx.zip undos → tx.isCoinBase = false →
    totalOut tx.vout ≤ totalValue undo.vprevout
  once : ∀ o, (block.vtx.flatMap prevouts).count o ≤
    (t.coins o).isSome.toNat + (block.vtx.flatMap outpoints).count o
  claimed : ∀ coinbase ∈ block.vtx.head?, totalOut coinbase.vout ≤
    (getBlockSubsidy ctx.pindex.nHeight ctx.env.consensus).toInt +
      ConnectContext.totalFees block.vtx undos
  mature : ∀ undo ∈ undos, ∀ coin ∈ undo.vprevout, coin.fCoinBase = true →
    coinbaseMaturity ≤ ctx.pindex.nHeight - coin.nHeight.toNat
  fits : SumsFit block.vtx undos (getBlockSubsidy ctx.pindex.nHeight ctx.env.consensus).toInt

theorem ConnectContext.Accepted.conserves {ctx : ConnectContext} {t : UtxoState} {block : CBlock}
    (h : ctx.Accepted block t undos) (ht : t.Countable) (htidy : t.Tidy) :
    ctx.Conserves block t (⟨[]⟩ :: undos) := by
  refine ⟨h.txs, fun tx undo hmem hcb => ?_, h.spent_once ht htidy, fun coinbase hcoinbase => ?_,
    fun undo hundo coin hcoin hcb => ?_, h.sumsFit⟩
  · obtain ⟨t', hfund⟩ := h.txs.funded hmem
    have hfee := hfund.fee_nonneg
    rw [txFee, hcb, if_neg Bool.false_ne_true] at hfee
    omega
  · rw [add_comm]
    exact h.reward coinbase hcoinbase
  · obtain ⟨tx, t', hfund⟩ := h.txs.funded_of_mem hundo
    cases htx : tx.isCoinBase with
    | true =>
      rw [hfund.coinbase htx] at hcoin
      cases hcoin
    | false => exact (hfund.funded htx).mature coin hcoin hcb

/-- No money from nothing: a block that `ConnectBlock` accepts on a view raises what
the coins of the view are worth together by the subsidy at most. Its transactions
pay for their outputs with coins that are there, that are spent once and that are
mature, and no sum of amounts overflows. The genesis block leaves the coins
alone. -/
theorem connectBlock_conserves_money {σ : Type} {V : CCoinsView σ} {M : CoinsModel V}
    {c c' : CCoinsViewCache σ} (hc : c.Inv M) (hfinite : FiniteMap (c.coins M))
    (hrng : InMoneyRange (c.coins M)) {ctx : ConnectContext} {block : CBlock}
    {u : Option CBlockUndo} (hrun : (ctx.connectBlock block).runOn V c = (.ok u, c')) :
    supply (c'.coins M) ≤ supply (c.coins M) +
        (getBlockSubsidy ctx.pindex.nHeight ctx.env.consensus).toInt ∧
      ((block.getHash = ctx.env.hashGenesisBlock ∧ c'.coins M = c.coins M) ∨
        ∃ undos, ctx.Conserves block (.ofMap (c.coins M) (c.state M).bestBlock
          (M.state c.base).bestBlock) undos) := by
  have hfinish : ∀ t : UtxoState, (ctx.finish t).coins = t.coins := fun t => by
    rw [ConnectContext.finish]
    split_ifs <;> rfl
  rcases connectBlock_cases hc.holds hrun with
    ⟨hgen, -, hhold⟩ | ⟨undos, -, hacc, -, hhold⟩
  · have hsame : c'.coins M = c.coins M := hhold.coins.trans (hfinish _)
    refine ⟨?_, Or.inl ⟨hgen, hsame⟩⟩
    rw [hsame]
    exact le_add_of_nonneg_right (ConnectContext.getBlockSubsidy_range _ _).1
  · have hnone : total valueWeight (fun _ => none) = 0 := by simp [total, entryWeight]
    have ht : (ofMap (c.coins M) (c.state M).bestBlock (M.state c.base).bestBlock).Countable :=
      ⟨hfinite, by simp [FiniteMap, ofMap], hrng, fun o coin h => by cases h⟩
    refine ⟨?_, Or.inr ⟨⟨[]⟩ :: undos, hacc.conserves ht rfl⟩⟩
    rw [hhold.coins, hfinish]
    refine (hacc.supply_le ht).trans_eq ?_
    rw [UtxoState.weightOf, ofMap, hnone, add_zero, supply]

open SmallChain in
theorem connectBlock_conserves_money_smallChain :
    supply (((ctx.connectBlock block).runOn view view).2.coins model) ≤ supply (view.coins model) +
          (getBlockSubsidy ctx.pindex.nHeight ctx.env.consensus).toInt ∧
      ((block.getHash = ctx.env.hashGenesisBlock ∧
          ((ctx.connectBlock block).runOn view view).2.coins model = view.coins model) ∨
        ∃ undos, ctx.Conserves block (.ofMap (view.coins model) (view.state model).bestBlock
          (model.state view.base).bestBlock) undos) := by
  have hfinite : FiniteMap (view.coins model) := by
    rw [view_coins]
    exact FiniteMap.update (by simp [FiniteMap]) _ _
  have hrng : InMoneyRange (view.coins model) := by
    rw [view_coins]
    have hnone : InMoneyRange fun _ => none := by
      intro o coin h
      cases h
    refine hnone.update fun coin h => ?_
    cases h
    decide
  exact connectBlock_conserves_money view_shows.inv hfinite hrng connectBlock_ok

end Lithium
