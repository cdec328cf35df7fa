import Lithium.Consensus.TxAccepted
import Lithium.Validation.ConnectBlock

/-!
# What connecting a block does to the coins

Rules for the programs of `ConnectBlock`. Their effect on a cache is told as an
execution of transactions on abstract states, which spends the inputs and adds
the outputs, and which has no checks. A block that is accepted leads along such an
execution, and every transaction on the way has the coins, the amounts and the
maturity that the checks demand.
-/

namespace Lithium
open Lib Program List Function UtxoState CoinsProgram UInt32 Coin
variable {vin : List CTxIn} {o : COutPoint} {txid : Uint256} {tx : CTransaction} {coins : List Coin}
  {vtx : List CTransaction} {Q : UtxoPost ConnectError Unit}
  {block : CBlock}
variable {nHeight : Int} {fCoinbase : Bool} {vout : List CTxOut} {i : Nat} {keys : PubKeyOps}

/-! ### Executions -/

namespace UtxoState

variable (t : UtxoState)

def spendAll (vin : List CTxIn) : UtxoState :=
  vin.foldl (fun t txin => t.spend txin.prevout) t

/-- The outputs of a transaction, from output `i` on. -/
def addAll (txid : Uint256) (nHeight : Int) (fCoinbase : Bool) :
    List CTxOut → Nat → UtxoState → UtxoState
  | [], _, t => t
  | out :: rest, i, t =>
    addAll txid nHeight fCoinbase rest (i + 1)
      (t.add ⟨txid, ofNat i⟩ (ofOutput out nHeight fCoinbase) fCoinbase)

variable (tx)

def spendTx : UtxoState :=
  if tx.isCoinBase then t else t.spendAll tx.vin

def applyTx (nHeight : Int) (t : UtxoState) (tx : CTransaction) : UtxoState :=
  addAll tx.getHash nHeight tx.isCoinBase tx.vout 0 (t.spendTx tx)

structure Sane (t : UtxoState) : Prop where
  coins : Unspent t.coins
  hidden : Unspent t.hidden

/-- An output of the transaction has the outpoint of a coin and does not expect
it. -/
def Overwrites : Prop :=
  tx.isCoinBase = false ∧ ∃ k out, tx.vout[k]? = some out ∧
    out.scriptPubKey.isUnspendable = false ∧ (t.coins ⟨tx.getHash, ofNat k⟩).isSome

/-- No output overwrites a coin that is certain to be noticed. -/
def PassesUnnoticed : Prop :=
  tx.isCoinBase = false → ∀ k out, tx.vout[k]? = some out → out.scriptPubKey.isUnspendable = false →
    t.coins ⟨tx.getHash, ofNat k⟩ = none ∨ (⟨tx.getHash, ofNat k⟩ : COutPoint) ∉ t.cached

variable {t : UtxoState}

theorem Sane.spend (h : t.Sane) (o : COutPoint) : (t.spend o).Sane :=
  ⟨h.coins.update (h.hidden o), h.hidden.update nofun⟩

theorem Sane.spendAll (h : t.Sane) : (t.spendAll vin).Sane := by
  induction vin generalizing t with
  | nil => exact h
  | cons txin rest ih => exact ih (h.spend txin.prevout)

theorem Sane.spendTx (h : t.Sane) (tx : CTransaction) : (t.spendTx tx).Sane := by
  rw [UtxoState.spendTx]
  split_ifs
  · exact h
  · exact h.spendAll

theorem Sane.add (h : t.Sane) (coin : Coin) (hunsp : coin.isSpent = false)
    (possibleOverwrite : Bool) : (t.add o coin possibleOverwrite).Sane := by
  have hcs : Unspent (update t.coins o (some coin)) :=
    h.coins.update fun _ hsome => Option.some.inj hsome ▸ hunsp
  rw [UtxoState.add]
  split_ifs
  · exact h
  · exact ⟨hcs, h.hidden⟩
  · exact ⟨hcs, h.hidden.update (h.coins o)⟩

theorem Sane.addAll {txid : Uint256} (h : t.Sane) (hvout : ∀ out ∈ vout, out.isNull = false) :
    (addAll txid nHeight fCoinbase vout i t).Sane := by
  induction vout generalizing i t with
  | nil => exact h
  | cons out rest ih =>
    rw [forall_mem_cons] at hvout
    exact ih (h.add (ofOutput out nHeight fCoinbase) hvout.1 _) hvout.2

/-- Adding a coin changes nothing at other outpoints. -/
theorem add_of_ne {x : COutPoint} (hx : x ≠ o) (coin : Coin) (possibleOverwrite : Bool) :
    (t.add o coin possibleOverwrite).coins x = t.coins x ∧
      (x ∈ (t.add o coin possibleOverwrite).cached ↔ x ∈ t.cached) := by
  rw [add]
  split_ifs
  · exact ⟨rfl, Iff.rfl⟩
  · exact ⟨update_of_ne hx _ _, by simp [hx]⟩
  · exact ⟨update_of_ne hx _ _, by simp [hx]⟩

/-- Spending changes nothing at other outpoints. -/
theorem spend_of_ne {x : COutPoint} (hx : x ≠ o) :
    (t.spend o).coins x = t.coins x ∧ (t.spend o).hidden x = t.hidden x :=
  ⟨update_of_ne hx _ _, update_of_ne hx _ _⟩

end UtxoState

/-- Amounts in the money range are not that of a null output. -/
theorem CTransaction.Checked.not_null (h : tx.Checked) : ∀ out ∈ tx.vout, out.isNull = false := by
  intro out hout
  rw [CTxOut.isNull, beq_eq_false_iff_ne]
  intro hval
  have hrng := h.outputs out hout
  rw [hval] at hrng
  exact absurd hrng (by decide)

theorem UtxoState.Sane.applyTx {t : UtxoState} (h : t.Sane) (hchk : tx.Checked)
    (nHeight : Int) : (t.applyTx nHeight tx).Sane :=
  (h.spendTx tx).addAll hchk.not_null

/-! ### Changing the coins -/

variable {ε : Type} {t : UtxoState}

theorem Spends.of_spend {v w : UtxoMap} (h : Spends v vin coins)
    (hsame : ∀ txin ∈ vin, w txin.prevout = v txin.prevout) : Spends w vin coins := by
  rw [Spends, ← h]
  exact map_congr_left hsame

theorem wp_spendInputs {Q : UtxoPost ε (List Coin)}
    (hdist : (vin.map CTxIn.prevout).Nodup) (hcs : Spends t.coins vin coins)
    (h : Q (.ok coins) (t.spendAll vin)) :
    (spendInputs vin : CoinsProgram ε (List Coin)).wp coinsSpec Q t := by
  induction vin generalizing t coins Q with
  | nil =>
    obtain rfl := spends_nil.mp hcs
    exact h
  | cons txin rest ih =>
    obtain ⟨coin, coins, rfl, hcoin, hcs⟩ := hcs.exists_cons
    rw [map_cons, nodup_cons] at hdist
    rw [spendInputs, wp_bind]
    refine wp_spendCoin_of_some hcoin ?_
    refine wp_bind.mpr (ih hdist.2 (hcs.of_spend fun txin' hmem => ?_) h)
    refine (spend_of_ne fun heq => hdist.1 ?_).1
    exact heq ▸ mem_map_of_mem hmem

theorem outPoint_injective {j : Nat} (hi : i < 2 ^ 32) (hj : j < 2 ^ 32)
    (h : (⟨txid, ofNat i⟩ : COutPoint) = ⟨txid, ofNat j⟩) : i = j := by
  have hn := congrArg (fun o : COutPoint => o.n.toNat) h
  simp only [toNat_ofNat'] at hn
  rwa [Nat.mod_eq_of_lt hi, Nat.mod_eq_of_lt hj] at hn

theorem wp_addOutputs {Q : UtxoPost ε Unit} (hvout : ∀ out ∈ vout, out.isNull = false)
    (hlen : i + vout.length ≤ 2 ^ 32) (hok : (fCoinbase = false → ∀ k out, vout[k]? = some out →
        out.scriptPubKey.isUnspendable = false → t.coins ⟨txid, ofNat (i + k)⟩ = none ∨
          (⟨txid, ofNat (i + k)⟩ : COutPoint) ∉ t.cached) →
      Q (.ok ()) (addAll txid nHeight fCoinbase vout i t))
    (hthr : ∀ t', (fCoinbase = false ∧ ∃ k out, vout[k]? = some out ∧
        out.scriptPubKey.isUnspendable = false ∧ (t.coins ⟨txid, ofNat (i + k)⟩).isSome) →
      Q (.error (.thrown (.coins overwriteError))) t') :
    (addOutputs txid nHeight fCoinbase false vout i : CoinsProgram ε Unit).wp coinsSpec Q t := by
  induction vout generalizing t i with
  | nil => exact hok fun _ k out hk => by simp at hk
  | cons out rest ih =>
    rw [forall_mem_cons] at hvout
    rw [length_cons] at hlen
    rw [addOutputs, wp_bind]
    refine wp_bind.mpr (wp_addCoin hvout.1 ?_ ?_)
    · intro hscr hcb hsome
      exact hthr _ ⟨hcb, 0, out, rfl, hscr, by simpa using hsome⟩
    · intro hfst
      have hother : ∀ {k x}, rest[k]? = some x → (⟨txid, ofNat (i + 1 + k)⟩ : COutPoint) ≠
          ⟨txid, ofNat i⟩ := by
        intro k x hk heq
        have hk' := (List.getElem?_eq_some_iff.mp hk).1
        have := outPoint_injective (by omega) (by omega) heq
        omega
      refine ih hvout.2 (by omega) (fun hrest => hok fun hcb k x hk hscr => ?_) ?_
      · cases k with
        | zero =>
          cases hk
          exact hfst hscr hcb
        | succ k =>
          have := hrest hcb k x hk hscr
          rw [(add_of_ne (hother hk) _ _).1, (add_of_ne (hother hk) _ _).2] at this
          rwa [show i + (k + 1) = i + 1 + k by omega]
      · rintro t' ⟨hcb, k, x, hk, hscr, hsome⟩
        refine hthr t' ⟨hcb, k + 1, x, by simpa using hk, hscr, ?_⟩
        rw [(add_of_ne (hother hk) _ _).1] at hsome
        rwa [show i + (k + 1) = i + 1 + k by omega]

theorem wp_updateCoins {Q : UtxoPost ε CTxUndo}
    (hchk : tx.Checked) (hcb : tx.isCoinBase = true → coins = [])
    (hcs : tx.isCoinBase = false → Spends t.coins tx.vin coins)
    (hok : (t.spendTx tx).PassesUnnoticed tx → Q (.ok ⟨coins⟩) (t.applyTx nHeight tx))
    (hthr : ∀ t', (t.spendTx tx).Overwrites tx → Q (.error (.thrown (.coins overwriteError))) t') :
    (updateCoins tx nHeight : CoinsProgram ε CTxUndo).wp coinsSpec Q t := by
  have hadd : (addCoins tx nHeight false : CoinsProgram ε Unit).wp coinsSpec
      (andThen (fun _ t => Q (.ok ⟨coins⟩) t) Q) (t.spendTx tx) := by
    refine wp_addOutputs hchk.not_null (by have := hchk.vout_length; omega) ?_ ?_
    · simp only [zero_add]
      exact hok
    · simp only [zero_add]
      exact hthr
  rw [updateCoins, wp_bind, markSpent]
  split_ifs with hkind
  · rw [hcb hkind, spendTx, if_pos hkind] at hadd
    exact wp_bind.mpr hadd
  · rw [spendTx, if_neg hkind] at hadd
    exact wp_spendInputs hchk.distinct (hcs (Bool.not_eq_true _ ▸ hkind)) (wp_bind.mpr hadd)

/-! ### Scripts -/

theorem wp_spentOutputs {Q : UtxoPost ε (List CTxOut)}
    (hun : Unspent t.coins) (hcs : Spends t.coins vin coins) (h : Q (.ok (coins.map out)) t) :
    (spentOutputs vin : CoinsProgram ε (List CTxOut)).wp coinsSpec Q t := by
  induction vin generalizing coins Q with
  | nil =>
    obtain rfl := spends_nil.mp hcs
    exact h
  | cons txin rest ih =>
    obtain ⟨coin, coins, rfl, hcoin, hcs⟩ := hcs.exists_cons
    rw [spentOutputs, wp_bind]
    exact wp_accessUnspent hun hcoin (wp_bind.mpr (ih hcs h))

/-- The interpreter ends with an answer. -/
def Regular (r : ScriptResult Unit) : Prop := r ≠ .error .thrown ∧ r ≠ .error .aborted

theorem wp_runScriptChecks {Q : UtxoPost TxInvalid Unit}
    {flags : UInt32} {checks : List CScriptCheck}
    (hok : (∀ check ∈ checks, check.run keys flags = .ok ()) → Q (.ok ()) t)
    (hrej : ∀ e, Q (.error (.rejected e)) t)
    (hthr : ∀ x, ¬ (∀ check ∈ checks, Regular (check.run keys flags)) →
      Q (.error (.thrown x)) t) : (runScriptChecks keys flags checks).wp coinsSpec Q t := by
  induction checks with
  | nil => exact hok (by simp)
  | cons check rest ih =>
    simp only [forall_mem_cons] at hok hthr
    rw [runScriptChecks]
    split
    next hrun => exact ih (fun hrest => hok ⟨hrun, hrest⟩) fun x hirr => hthr x fun h => hirr h.2
    next => exact hrej _
    next e hne hrun =>
      refine hthr _ fun h => ?_
      cases e with
      | error serror => exact hne serror rfl
      | thrown => exact h.1.1 hrun
      | aborted => exact h.1.2 hrun

theorem wp_checkInputScripts {Q : UtxoPost TxInvalid (List CScriptCheck)}
    (hun : Unspent t.coins) {flags : UInt32} {deferred : Bool}
    (hcs : tx.isCoinBase = false → Spends t.coins tx.vin coins)
    (hok : ∀ left, (tx.isCoinBase = false → ∀ check ∈ scriptChecks tx (coins.map out),
        check ∈ left ∨ check.run keys flags = .ok ()) →
      (∀ check ∈ left, tx.isCoinBase = false ∧ check ∈ scriptChecks tx (coins.map out)) →
      Q (.ok left) t) (hrej : ∀ e, Q (.error (.rejected e)) t)
    (hthr : ∀ x, ¬ (tx.isCoinBase = false → ∀ check ∈ scriptChecks tx (coins.map out),
      Regular (check.run keys flags)) → Q (.error (.thrown x)) t) :
    (checkInputScripts keys tx flags deferred).wp coinsSpec Q t := by
  rw [checkInputScripts]
  split_ifs with hcb hdeferred
  · exact hok [] (fun hne => absurd (hcb.symm.trans hne) (by decide)) (by simp)
  · have hne : tx.isCoinBase = false := Bool.not_eq_true _ ▸ hcb
    rw [wp_bind]
    refine wp_spentOutputs hun (hcs hne) ?_
    exact hok _ (fun _ check hck => Or.inl hck) fun check hck => ⟨hne, hck⟩
  · have hne : tx.isCoinBase = false := Bool.not_eq_true _ ▸ hcb
    rw [wp_bind]
    refine wp_spentOutputs hun (hcs hne) ?_
    refine wp_bind.mpr (wp_runScriptChecks (fun hall => ?_) hrej fun x hirr => ?_)
    · exact hok [] (fun _ check hck => Or.inr (hall check hck)) (by simp)
    · exact hthr x fun h => hirr (h hne)

variable {p : Progress}

/-! ### Transactions of a block -/

namespace ConnectContext
variable {ctx : ConnectContext}

theorem wp_prevHeights {Q : UtxoPost ε (List Int)} (hcs : Spends t.coins vin coins)
    (h : Q (.ok (coins.map fun coin => (coin.nHeight.toNat : Int))) t) :
    (prevHeights vin : CoinsProgram ε (List Int)).wp coinsSpec Q t := by
  induction vin generalizing coins Q with
  | nil =>
    obtain rfl := spends_nil.mp hcs
    exact h
  | cons txin rest ih =>
    obtain ⟨coin, coins, rfl, hcoin, hcs⟩ := hcs.exists_cons
    rw [prevHeights, wp_bind, wp_accessCoin, hcoin]
    exact wp_bind.mpr (ih hcs h)

/-- The relative lock times of a transaction that spends these coins can be
computed. -/
def LocksComputable (ctx : ConnectContext) (tx : CTransaction) (coins : List Coin) : Prop :=
  (calculateSequenceLocks tx (deploymentActiveAt ctx.env.consensus ctx.pindex .csv)
    (coins.map fun coin => (coin.nHeight.toNat : Int)) (ctx.pindex :: ctx.prev)).isSome

/-- The checks of a transaction end with an answer. -/
def TxSafe (ctx : ConnectContext) (t : UtxoState) (tx : CTransaction) : Prop :=
  tx.isCoinBase = false → FlagsConsistent ctx.flags ∧ ∀ coins, Spends t.coins tx.vin coins →
    ctx.LocksComputable tx coins ∧
      ∀ check ∈ scriptChecks tx (coins.map out), Regular (check.run ctx.keys ctx.flags)

theorem wp_checkTx {Q : UtxoPost ConnectError Int64}
    (hun : Unspent t.coins) (hchk : tx.Checked) (hcb : tx.isCoinBase = false) {nFees : Int64}
    (hrng : moneyRange nFees.toInt = true)
    (hok : ∀ coins (fees : Int64), tx.Funded ctx.pindex.nHeight t.coins coins →
      fees.toInt = nFees.toInt + (totalValue coins - totalOut tx.vout) →
      moneyRange fees.toInt = true → Q (.ok fees) t) (hrej : ∀ e, Q (.error (.rejected e)) t)
    (hthr : ∀ x, ¬ ctx.TxSafe t tx → Q (.error (.thrown x)) t) :
    (ctx.checkTx tx nFees).wp coinsSpec Q t := by
  rw [checkTx, wp_bind, mapError, wp_handleRejected]
  refine wp_checkTxInputs hun hchk hcb (fun coins txfee hfund hfee => ?_) fun e => hrej _
  refine wp_bind.mpr (wp_require.mpr ⟨fun hfees => ?_, fun _ => hrej _⟩)
  refine wp_bind.mpr (wp_prevHeights hfund.spends ?_)
  have hadd := toInt_add_of_fits (fits_add_of_moneyRange hrng (hfee ▸ hfund.fee))
  rw [hfee] at hadd
  refine wp_bind.mpr ?_
  rw [sequenceLocks]
  split
  next hnone =>
    refine hthr _ fun hsafe => ?_
    have hsome := ((hsafe hcb).2 coins hfund.spends).1
    rw [LocksComputable, hnone] at hsome
    cases hsome
  next =>
    refine wp_bind.mpr (wp_require.mpr ⟨fun _ => ?_, fun _ => hrej _⟩)
    exact hok coins _ hfund hadd hfees

/-- What the checks of amounts establish about a transaction and the coins it
spends. -/
structure TxFunded (ctx : ConnectContext) (t : UtxoState) (tx : CTransaction)
    (undo : List Coin) : Prop where
  coinbase : tx.isCoinBase = true → undo = []
  funded : tx.isCoinBase = false → tx.Funded ctx.pindex.nHeight t.coins undo

theorem TxFunded.spends {undo : List Coin} (h : ctx.TxFunded t tx undo)
    (hcb : tx.isCoinBase = false) : Spends t.coins tx.vin undo := (h.funded hcb).spends

def txFee (tx : CTransaction) (undo : List Coin) : Int :=
  if tx.isCoinBase then 0 else totalValue undo - totalOut tx.vout

theorem wp_checkFees {Q : UtxoPost ConnectError Int64}
    (hun : Unspent t.coins) (hchk : tx.Checked) {nFees : Int64}
    (hrng : moneyRange nFees.toInt = true) (hok : ∀ undo (fees : Int64), ctx.TxFunded t tx undo →
      fees.toInt = nFees.toInt + txFee tx undo → moneyRange fees.toInt = true → Q (.ok fees) t)
    (hrej : ∀ e, Q (.error (.rejected e)) t)
    (hthr : ∀ x, ¬ ctx.TxSafe t tx → Q (.error (.thrown x)) t) :
    (ctx.checkFees tx nFees).wp coinsSpec Q t := by
  rw [checkFees]
  split_ifs with hcb
  · refine hok [] nFees ⟨fun _ => rfl, fun hne => absurd (hcb.symm.trans hne) (by decide)⟩ ?_ hrng
    rw [txFee, if_pos hcb, add_zero]
  · refine wp_checkTx hun hchk (Bool.not_eq_true _ ▸ hcb) hrng
      (fun coins fees hfund hfees hrng' => ?_) hrej hthr
    refine hok coins fees ⟨fun h => absurd h hcb, fun _ => hfund⟩ ?_ hrng'
    rw [txFee, if_neg hcb, hfees]

theorem wp_checkScripts {Q : UtxoPost ConnectError (List CScriptCheck)}
    (hun : Unspent t.coins) (hcs : tx.isCoinBase = false → Spends t.coins tx.vin coins)
    (hok : ∀ left, (ctx.TxSafe t tx → ∀ check ∈ left, Regular (check.run ctx.keys ctx.flags)) →
      Q (.ok left) t) (hrej : ∀ e, Q (.error (.rejected e)) t)
    (hthr : ∀ x, ¬ ctx.TxSafe t tx → Q (.error (.thrown x)) t) :
    (ctx.checkScripts tx).wp coinsSpec Q t := by
  have hregular : ctx.TxSafe t tx → tx.isCoinBase = false →
      ∀ check ∈ scriptChecks tx (coins.map out), Regular (check.run ctx.keys ctx.flags) :=
    fun hsafe hcb => ((hsafe hcb).2 coins (hcs hcb)).2
  rw [checkScripts]
  split_ifs
  · rw [mapError, wp_handleRejected]
    refine wp_checkInputScripts hun hcs (fun left _ hleft => ?_) (fun e => hrej _)
      fun x hirr => hthr x fun hsafe => hirr (hregular hsafe)
    refine hok left fun hsafe check hck => ?_
    exact hregular hsafe (hleft check hck).1 check (hleft check hck).2
  · exact hok [] (by simp)

/-- A transaction that was connected. -/
structure TxAccepted (ctx : ConnectContext) (t : UtxoState) (tx : CTransaction)
    (undo : List Coin) : Prop extends ctx.TxFunded t tx undo where
  unnoticed : (t.spendTx tx).PassesUnnoticed tx

theorem wp_connectTx {Q : UtxoPost ConnectError Progress}
    (ht : t.Sane) {first : Bool} (hchk : tx.Checked) (hrng : moneyRange p.nFees.toInt = true)
    (hok : ∀ undo p', ctx.TxAccepted t tx undo → p'.nFees.toInt = p.nFees.toInt + txFee tx undo →
      moneyRange p'.nFees.toInt = true →
      p'.vtxundo = (if first then p.vtxundo else p.vtxundo ++ [⟨undo⟩]) →
      (ctx.TxSafe t tx → ∀ check ∈ p'.checks,
        check ∈ p.checks ∨ Regular (check.run ctx.keys ctx.flags)) →
      Q (.ok p') (t.applyTx ctx.pindex.nHeight tx)) (hrej : ∀ e, Q (.error (.rejected e)) t)
    (hthr : ∀ x t', (ctx.TxSafe t tx → x = .coins overwriteError ∧ (t.spendTx tx).Overwrites tx) →
      Q (.error (.thrown x)) t') : (ctx.connectTx first tx p).wp coinsSpec Q t := by
  have hunsafe : ∀ x, ¬ ctx.TxSafe t tx → Q (.error (.thrown x)) t :=
    fun x hsafe => hthr x t fun h => absurd h hsafe
  rw [connectTx, wp_bind]
  refine wp_checkFees ht.coins hchk hrng (fun undo fees hfund hfees hrng' => ?_) hrej
    hunsafe
  refine wp_bind.mpr (wp_getTransactionSigOpCost ht.coins hfund.spends
    (fun cost => ?_) fun x hcb hflags => hunsafe x fun hsafe => hflags (hsafe hcb).1)
  refine wp_bind.mpr (wp_require.mpr ⟨fun _ => ?_, fun _ => hrej _⟩)
  refine wp_bind.mpr (wp_checkScripts ht.coins hfund.spends
    (fun left hleft => ?_) hrej hunsafe)
  refine wp_bind.mpr (wp_updateCoins hchk hfund.coinbase hfund.spends
    (fun hunnoticed => ?_) fun t' hover => hthr _ t' fun _ => ⟨rfl, hover⟩)
  refine hok undo _ ⟨hfund, hunnoticed⟩ hfees hrng' rfl fun hsafe check hck => ?_
  exact (mem_append.mp hck).imp id (hleft hsafe check)

end ConnectContext

/-- The execution of the transactions of a block. -/
def UtxoState.applyTxs (nHeight : Int) (t : UtxoState) (vtx : List CTransaction) : UtxoState :=
  vtx.foldl (applyTx nHeight) t

/-- Some transaction overwrites a coin in the course of the execution. -/
def UtxoState.SomeOverwrites (nHeight : Int) : UtxoState → List CTransaction → Prop
  | _, [] => False
  | t, tx :: rest => (t.spendTx tx).Overwrites tx ∨
      SomeOverwrites nHeight (t.applyTx nHeight tx) rest

namespace ConnectContext
variable {ctx : ConnectContext}

/-- The transactions were connected one after the other, with this undo data. -/
inductive TxsAccepted (ctx : ConnectContext) : UtxoState → List CTransaction → List CTxUndo → Prop
  | nil (t : UtxoState) : TxsAccepted ctx t [] []
  | cons {t : UtxoState} {tx : CTransaction} {undo : CTxUndo} {rest : List CTransaction}
      {undos : List CTxUndo} : ctx.TxAccepted t tx undo.vprevout →
      TxsAccepted ctx (t.applyTx ctx.pindex.nHeight tx) rest undos →
      TxsAccepted ctx t (tx :: rest) (undo :: undos)

def totalFees (vtx : List CTransaction) (undos : List CTxUndo) : Int :=
  (zipWith (fun tx undo => txFee tx undo.vprevout) vtx undos).sum

/-- The checks of all transactions end with an answer, in the course of the
execution. -/
def AllSafe (ctx : ConnectContext) : UtxoState → List CTransaction → Prop
  | _, [] => True
  | t, tx :: rest => ctx.TxSafe t tx ∧ AllSafe ctx (t.applyTx ctx.pindex.nHeight tx) rest

theorem wp_connectRest {Q : UtxoPost ConnectError Progress}
    (ht : t.Sane) (hchk : ∀ tx ∈ vtx, tx.Checked) (hrng : moneyRange p.nFees.toInt = true)
    (hok : ∀ undos p', ctx.TxsAccepted t vtx undos →
      p'.nFees.toInt = p.nFees.toInt + totalFees vtx undos → moneyRange p'.nFees.toInt = true →
      p'.vtxundo = p.vtxundo ++ undos → (ctx.AllSafe t vtx → ∀ check ∈ p'.checks,
        check ∈ p.checks ∨ Regular (check.run ctx.keys ctx.flags)) →
      Q (.ok p') (t.applyTxs ctx.pindex.nHeight vtx))
    (hrej : ∀ e t', Q (.error (.rejected e)) t')
    (hthr : ∀ x t', (ctx.AllSafe t vtx → x = .coins overwriteError ∧
      t.SomeOverwrites ctx.pindex.nHeight vtx) → Q (.error (.thrown x)) t') :
    (ctx.connectRest vtx p).wp coinsSpec Q t := by
  induction vtx generalizing t p with
  | nil => exact hok [] p (.nil t) (by simp [totalFees]) hrng (by simp) fun _ _ h => Or.inl h
  | cons tx rest ih =>
    rw [forall_mem_cons] at hchk
    rw [connectRest, wp_bind]
    refine wp_connectTx ht hchk.1 hrng ?_ (fun e => hrej e t) fun x t' hover => ?_
    · intro undo p' hacc hfees hrng' hundo hcks
      refine ih (ht.applyTx hchk.1 _) hchk.2 hrng' ?_ fun x t' hover => ?_
      · intro undos p'' hrest hfees' hrng'' hundo' hcks'
        refine hok (⟨undo⟩ :: undos) p'' (.cons hacc hrest) ?_ hrng'' ?_ ?_
        · rw [hfees', hfees]
          simp [totalFees, add_assoc]
        · rw [hundo', hundo]
          simp
        · intro hsafe check hck
          rcases hcks' hsafe.2 check hck with h | h
          · exact hcks hsafe.1 check h
          · exact Or.inr h
      · exact hthr x t' fun hsafe => (hover hsafe.2).imp id Or.inr
    · exact hthr x t' fun hsafe => (hover hsafe.1).imp id Or.inl

/-! ### Rewards -/

theorem getBlockSubsidy_range (nHeight : Int) (params : Params) :
    0 ≤ (getBlockSubsidy nHeight params).toInt ∧
      (getBlockSubsidy nHeight params).toInt ≤ 50 * coin := by
  rw [getBlockSubsidy]
  split_ifs <;> decide

theorem fits_reward {fees : Int} (hfees : moneyRange fees = true) (nHeight : Int)
    (params : Params) : FitsInt64 (fees + (getBlockSubsidy nHeight params).toInt) := by
  have hsubsidy := getBlockSubsidy_range nHeight params
  have hcoin : coin = 100000000 := rfl
  rw [moneyRange_iff, maxMoney_eq] at hfees
  constructor <;> omega

variable {coinbase : CTransaction}

theorem wp_checkReward (hchk : coinbase.Checked) (hrng : moneyRange p.nFees.toInt = true)
    (hok : totalOut coinbase.vout ≤ p.nFees.toInt +
      (getBlockSubsidy ctx.pindex.nHeight ctx.env.consensus).toInt → Q (.ok ()) t)
    (hrej : ∀ e, Q (.error (.rejected e)) t)
    (hthr : ∀ x, ¬ (∀ check ∈ p.checks, Regular (check.run ctx.keys ctx.flags)) →
      Q (.error (.thrown x)) t) : (ctx.checkReward coinbase p).wp coinsSpec Q t := by
  rw [checkReward, wp_bind]
  refine wp_getValueOut hchk fun valueOut hout => ?_
  refine wp_bind.mpr (wp_require.mpr ⟨fun hle => ?_, fun _ => hrej _⟩)
  refine wp_bind.mpr (wp_assert.mpr ⟨fun _ => ?_, fun haborted => ?_⟩)
  · refine wp_require.mpr ⟨fun _ => hok ?_, fun _ => hrej _⟩
    rw [← hout, ← toInt_add_of_fits (fits_reward hrng _ _)]
    exact Int64.le_iff_toInt_le.mp (of_decide_eq_true hle)
  · refine hthr _ fun hregular => ?_
    have hall : (p.checks.all fun check =>
        decide (check.run ctx.keys ctx.flags ≠ .error .aborted)) = true := by
      rw [all_eq_true]
      exact fun check hck => decide_eq_true (hregular check hck).2
    rw [hall] at haborted
    cases haborted

theorem wp_connectTxs {Q : UtxoPost ConnectError CBlockUndo}
    (ht : t.Sane) {rest : List CTransaction} (hcb : coinbase.isCoinBase = true)
    (hchk : ∀ tx ∈ coinbase :: rest, tx.Checked)
    (hok : ∀ undos, ctx.TxsAccepted t (coinbase :: rest) (⟨[]⟩ :: undos) →
      moneyRange (totalFees (coinbase :: rest) (⟨[]⟩ :: undos)) = true →
      totalOut coinbase.vout ≤ totalFees (coinbase :: rest) (⟨[]⟩ :: undos) +
        (getBlockSubsidy ctx.pindex.nHeight ctx.env.consensus).toInt →
      Q (.ok ⟨undos⟩) (t.applyTxs ctx.pindex.nHeight (coinbase :: rest)))
    (hrej : ∀ e t', Q (.error (.rejected e)) t')
    (hthr : ∀ x t', (ctx.AllSafe t (coinbase :: rest) → x = .coins overwriteError ∧
      t.SomeOverwrites ctx.pindex.nHeight (coinbase :: rest)) → Q (.error (.thrown x)) t') :
    (ctx.connectTxs (coinbase :: rest)).wp coinsSpec Q t := by
  rw [forall_mem_cons] at hchk
  rw [connectTxs, wp_bind]
  refine wp_connectTx ht hchk.1 (by decide) ?_ (fun e => hrej e t) fun x t' hover => ?_
  · intro undo p hacc hfees hrng hundo hcks
    obtain rfl := hacc.coinbase hcb
    refine wp_bind.mpr (wp_connectRest (ht.applyTx hchk.1 _) hchk.2 hrng ?_
      hrej fun x t' hover => ?_)
    · intro undos p' hrest hfees' hrng' hundo' hcks'
      have htotal : p'.nFees.toInt = totalFees (coinbase :: rest) (⟨[]⟩ :: undos) := by
        rw [hfees', hfees]
        simp [totalFees]
      refine wp_bind.mpr (wp_checkReward hchk.1 hrng' (fun hreward => ?_)
        (fun e => hrej e _) fun x hirr => ?_)
      · have hvtxundo : p'.vtxundo = undos := by
          rw [hundo', hundo]
          simp
        have := hok undos (.cons hacc hrest) (htotal ▸ hrng') (htotal ▸ hreward)
        rw [← hvtxundo] at this
        exact this
      · refine hthr x _ fun hsafe => absurd (fun check hck => ?_) hirr
        rcases hcks' hsafe.2 check hck with h | h
        · exact (hcks hsafe.1 check h).resolve_left (by simp)
        · exact h
    · exact hthr x t' fun hsafe => (hover hsafe.2).imp id Or.inr
  · exact hthr x t' fun hsafe => (hover hsafe.1).imp id Or.inl

/-! ### Blocks -/

theorem wp_overwrites {Q : UtxoPost ε Bool} {n o : Nat}
    (hno : (∀ k, k < n → t.coins ⟨txid, ofNat (o + k)⟩ = none) → Q (.ok false) t)
    (hyes : Q (.ok true) t) : (overwrites txid n o : CoinsProgram ε Bool).wp coinsSpec Q t := by
  induction n generalizing o with
  | zero => exact hno fun k hk => absurd hk (Nat.not_lt_zero k)
  | succ n ih =>
    rw [overwrites, wp_bind, wp_haveCoin]
    cases hcoin : t.coins ⟨txid, ofNat o⟩ with
    | some coin => exact hyes
    | none =>
      refine ih fun hrest => hno fun k hk => ?_
      cases k with
      | zero => exact hcoin
      | succ k =>
        rw [show o + (k + 1) = o + 1 + k by omega]
        exact hrest k (by omega)

/-- No transaction has an output with the outpoint of a coin: BIP30. -/
def BIP30Holds (v : UtxoMap) (vtx : List CTransaction) : Prop :=
  ∀ tx ∈ vtx, ∀ k, k < tx.vout.length → v ⟨tx.getHash, ofNat k⟩ = none

theorem wp_checkBIP30 (hok : BIP30Holds t.coins vtx → Q (.ok ()) t)
    (hrej : ∀ e, Q (.error (.rejected e)) t) : (checkBIP30 vtx).wp coinsSpec Q t := by
  induction vtx with
  | nil => exact hok fun tx htx => absurd htx (not_mem_nil)
  | cons tx rest ih =>
    rw [checkBIP30, wp_bind]
    refine wp_overwrites (fun hnone => ?_) ?_
    · refine wp_bind.mpr (wp_require.mpr ⟨fun _ => ?_, nofun⟩)
      refine ih fun hrest => hok (forall_mem_cons.mpr ⟨fun k hk => ?_, hrest⟩)
      simpa using hnone k hk
    · exact wp_bind.mpr (wp_require.mpr ⟨nofun, fun _ => hrej _⟩)

theorem wp_checkOverwrites
    (hok : (checksBIP30 ctx.env ctx.pindex ctx.prev = true → BIP30Holds t.coins vtx) → Q (.ok ()) t)
    (hrej : ∀ e, Q (.error (.rejected e)) t) : (ctx.checkOverwrites vtx).wp coinsSpec Q t := by
  rw [checkOverwrites]
  split_ifs with hcks
  · exact wp_checkBIP30 (fun h => hok fun _ => h) hrej
  · exact hok fun h => absurd h hcks

/-- What the checks of a block alone establish about its transactions. -/
structure BlockChecked (block : CBlock) : Prop where
  length : checkBlockLength block = .ok ()
  coinbase : ∃ coinbase rest, block.vtx = coinbase :: rest ∧ coinbase.isCoinBase = true ∧
    ∀ tx ∈ rest, tx.isCoinBase = false
  checked : ∀ tx ∈ block.vtx, tx.Checked

theorem checked_of_checkTransactions (h : checkTransactions vtx = .ok ()) :
    ∀ tx ∈ vtx, tx.Checked :=
  fun tx htx => checkTransaction_ok (checkTransactions_ok h tx htx)

theorem blockChecked_of_checkBlock {env : ChainEnv} {fCheckPOW : Bool}
    (h : checkBlock env block fCheckPOW = .ok ()) : BlockChecked block := by
  obtain ⟨-, -, -, hlen, hcoinbases, htxs, -⟩ := (checkBlock_ok_iff _ _ _).mp h
  exact ⟨hlen, checkCoinbases_ok hcoinbases, checked_of_checkTransactions htxs⟩

theorem wp_checkAgain (hok : BlockChecked block → Q (.ok ()) t)
    (hrej : ∀ e, Q (.error (.rejected e)) t) : (ctx.checkAgain block).wp coinsSpec Q t := by
  rw [checkAgain]
  split
  next h =>
    refine hok ?_
    split_ifs at h
    · simp only [checkBlockWithoutRoot, andThen_ok] at h
      obtain ⟨-, -, hlen, hcoinbases, htxs, -⟩ := h
      exact ⟨hlen, checkCoinbases_ok hcoinbases, checked_of_checkTransactions htxs⟩
    · exact blockChecked_of_checkBlock h
  · split_ifs
    · exact hrej _
    · exact hrej _

/-- What is known about a block that was connected, other than the genesis block. -/
structure Accepted (ctx : ConnectContext) (block : CBlock) (t : UtxoState)
    (undos : List CTxUndo) : Prop extends BlockChecked block where
  hash : ctx.pindex.phashBlock = block.getHash
  prev : ∃ pprev rest, ctx.prev = pprev :: rest ∧ pprev.phashBlock = t.bestBlock
  bip30 : checksBIP30 ctx.env ctx.pindex ctx.prev = true → BIP30Holds t.coins block.vtx
  txs : ctx.TxsAccepted t block.vtx (⟨[]⟩ :: undos)
  fees : moneyRange (totalFees block.vtx (⟨[]⟩ :: undos)) = true
  reward : ∀ coinbase ∈ block.vtx.head?, totalOut coinbase.vout ≤
    totalFees block.vtx (⟨[]⟩ :: undos) +
      (getBlockSubsidy ctx.pindex.nHeight ctx.env.consensus).toInt

/-- `ConnectBlock` is called as it should be, and its checks end with an answer. -/
structure Ready (ctx : ConnectContext) (block : CBlock) (t : UtxoState) : Prop where
  hash : ctx.pindex.phashBlock = block.getHash
  best : (ctx.prev.head?.map CBlockIndex.phashBlock).getD .zero = t.bestBlock
  prev : block.getHash ≠ ctx.env.hashGenesisBlock → ctx.prev ≠ []
  safe : ctx.AllSafe t block.vtx

/-- The state after a block; a trial run does not set the best block. -/
def finish (ctx : ConnectContext) (t : UtxoState) : UtxoState :=
  if ctx.fJustCheck then t else t.setBest ctx.pindex.phashBlock

theorem wp_connectOrdinary {Q : UtxoPost ConnectError (Option CBlockUndo)}
    (ht : t.Sane) (hchk : BlockChecked block) (hhash : ctx.pindex.phashBlock = block.getHash)
    (hbest : (ctx.prev.head?.map CBlockIndex.phashBlock).getD .zero = t.bestBlock)
    (hok : ∀ undos, ctx.Accepted block t undos →
      Q (.ok (if ctx.fJustCheck then none else some ⟨undos⟩))
        (ctx.finish (t.applyTxs ctx.pindex.nHeight block.vtx)))
    (hrej : ∀ e t', Q (.error (.rejected e)) t')
    (hthr : ∀ x t', (ctx.prev ≠ [] → ctx.AllSafe t block.vtx → x = .coins overwriteError ∧
      t.SomeOverwrites ctx.pindex.nHeight block.vtx) → Q (.error (.thrown x)) t') :
    (ctx.connectOrdinary block).wp coinsSpec Q t := by
  rw [connectOrdinary, wp_bind]
  refine wp_assert.mpr ⟨fun hprev => ?_, fun hprev => ?_⟩
  · cases hlist : ctx.prev with
    | nil =>
      rw [hlist] at hprev
      cases hprev
    | cons pprev before =>
      rw [hlist] at hbest
      refine wp_bind.mpr (wp_checkOverwrites (fun hbip30 => ?_) fun e => hrej e t)
      obtain ⟨coinbase, rest, hvtx, hcb, -⟩ := hchk.coinbase
      have hlists : ∀ tx ∈ coinbase :: rest, tx.Checked := hvtx ▸ hchk.checked
      rw [hvtx]
      refine wp_bind.mpr (wp_connectTxs ht hcb hlists (fun undos htxs hfees hreward => ?_)
        hrej fun x t' hover => hthr x t' fun _ hsafe => ?_)
      · have hacc : ctx.Accepted block t undos :=
          ⟨hchk, hhash, ⟨pprev, before, hlist, hbest⟩, hbip30, by rw [hvtx]; exact htxs,
            by rw [hvtx]; exact hfees, by
              rw [hvtx]
              intro tx htx
              cases htx
              exact hreward⟩
        have hQ := hok undos hacc
        rw [finish, hvtx] at hQ
        change wp coinsSpec (if _ then _ else _) Q _
        split_ifs at hQ ⊢
        · exact hQ
        · rw [wp_bind, wp_setBestBlock]
          exact hQ
      · rw [hvtx] at hsafe ⊢
        exact hover hsafe
  · refine hthr _ t fun hne _ => absurd ?_ hne
    simpa using hprev

theorem wp_connectBlock {Q : UtxoPost ConnectError (Option CBlockUndo)} (ht : t.Sane)
    (hgenesis : block.getHash = ctx.env.hashGenesisBlock → Q (.ok none) (ctx.finish t))
    (hok : ∀ undos, block.getHash ≠ ctx.env.hashGenesisBlock → ctx.Accepted block t undos →
      Q (.ok (if ctx.fJustCheck then none else some ⟨undos⟩))
        (ctx.finish (t.applyTxs ctx.pindex.nHeight block.vtx)))
    (hrej : ∀ e t', Q (.error (.rejected e)) t')
    (hthr : ∀ x t', (ctx.Ready block t → x = .coins overwriteError ∧
      t.SomeOverwrites ctx.pindex.nHeight block.vtx) → Q (.error (.thrown x)) t') :
    (ctx.connectBlock block).wp coinsSpec Q t := by
  rw [connectBlock, wp_bind]
  refine wp_assert.mpr ⟨fun hhash => ?_, fun hhash => ?_⟩
  · have hhash : ctx.pindex.phashBlock = block.getHash := by simpa using hhash
    refine wp_bind.mpr (wp_checkAgain (fun hchk => ?_) fun e => hrej e t)
    refine wp_bind.mpr (wp_getBestBlock.mpr ?_)
    refine wp_bind.mpr (wp_assert.mpr ⟨fun hbest => ?_, fun hbest => ?_⟩)
    · have hbest : (ctx.prev.head?.map CBlockIndex.phashBlock).getD .zero = t.bestBlock := by
        simpa using hbest
      change wp coinsSpec (if _ then _ else _) Q t
      split_ifs with hgen
      · have hQ := hgenesis hgen
        rw [finish] at hQ
        rw [connectGenesis]
        split_ifs at hQ ⊢
        · exact hQ
        · rw [wp_bind, wp_setBestBlock]
          exact hQ
      · exact wp_connectOrdinary ht hchk hhash hbest (fun undos => hok undos hgen) hrej
          fun x t' hover => hthr x t' fun hready => hover (hready.prev hgen) hready.safe
    · refine hthr _ t fun hready => ?_
      rw [hready.best] at hbest
      simp at hbest
  · refine hthr _ t fun hready => ?_
    rw [hready.hash] at hhash
    simp at hhash

end ConnectContext
end Lithium
