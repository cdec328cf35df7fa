import Lithium.Script.Flags
import Lithium.Validation.Disconnect

/-!
# Scripts of transactions that enter the mempool

`PolicyScriptChecks` runs the scripts of a transaction under the flags of relayed
transactions, and `ConsensusScriptChecks` runs them again under those of the next
block. A failure of the second run is reported as a bug. It does not happen: blocks
have no flag that relayed transactions do not have, and flags only restrict.
-/

namespace Lithium
open Lib Program CCoinsViewDB ScriptVerify
variable {keys : PubKeyOps} {tx : CTransaction} {pool : Uint256 → Option CTransaction}
  {coinsTip : UtxoMap}
variable {vin : List CTxIn} {coins : List Coin}

def standardScriptVerifyFlags : UInt32 := p2sh ||| standardNotMandatoryVerifyFlags

def mempoolHeight : BitVec 31 := 0x7fffffff

variable (pool)

/-- The coins that `CCoinsViewMemPool` shows: outputs of transactions of the pool, and
below them the coins of the chain. -/
def mempoolCoins (coinsTip : UtxoMap) : UtxoMap :=
  fun outpoint =>
    match pool outpoint.hash with
    | some tx => tx.vout[outpoint.n.toNat]?.map fun out => ⟨out, false, mempoolHeight⟩
    | none => coinsTip outpoint

/-- Whether a transaction without a witness fails only because of that. -/
def policyFailure (keys : PubKeyOps) (tx : CTransaction) (checks : List CScriptCheck)
    (state : TxInvalid) : CoinsProgram TxInvalid Unit :=
  if tx.hasWitness then .reject state
  else do
    let withoutWitness ← (runScriptChecks keys (standardScriptVerifyFlags &&&
      ~~~(witness ||| cleanstack)) checks).succeeds
    if withoutWitness then do
      let withWitness ← (runScriptChecks keys (standardScriptVerifyFlags &&&
        ~~~cleanstack) checks).succeeds
      .reject (if withWitness then state else { state with result := .witnessStripped })
    else .reject state

/-- `PolicyScriptChecks`, with the outputs that are spent, which are kept with the
transaction. -/
def policyScriptChecks (keys : PubKeyOps) (tx : CTransaction) :
    CoinsProgram TxInvalid (List CTxOut) :=
  if tx.isCoinBase then pure []
  else do
    let outs ← spentOutputs tx.vin
    (runScriptChecks keys standardScriptVerifyFlags (scriptChecks tx outs)).handleRejected
      (policyFailure keys tx (scriptChecks tx outs))
    pure outs

/-- The assertions of `CheckInputsFromMempoolAndCache` about one coin, which has to be
that of the pool or of the chain. -/
def checkMempoolCoin {ε : Type} (coinsTip : UtxoMap)
    (prevout : COutPoint) (coin : Coin) : CoinsProgram ε Unit :=
  match pool prevout.hash with
  | some txFrom => do
    assert (txFrom.getHash == prevout.hash)
      (.assertion "txFrom->GetHash() == txin.prevout.hash")
    assert (prevout.n.toNat < txFrom.vout.length)
      (.assertion "txFrom->vout.size() > txin.prevout.n")
    assert (txFrom.vout[prevout.n.toNat]? == some coin.out)
      (.assertion "txFrom->vout[txin.prevout.n] == coin.out")
  | none => do
    let coinFromUTXOSet := (coinsTip prevout).getD .empty
    assert (!coinFromUTXOSet.isSpent) (.assertion "!coinFromUTXOSet.IsSpent()")
    assert (coinFromUTXOSet.out == coin.out) (.assertion "coinFromUTXOSet.out == coin.out")

variable {pool}

/-- The loop of `CheckInputsFromMempoolAndCache`. -/
def checkMempoolCoins {ε : Type} (pool : Uint256 → Option CTransaction) (coinsTip : UtxoMap) :
    List CTxIn → CoinsProgram ε Bool
  | [] => pure true
  | txin :: rest => do
    let coin ← CoinsProgram.accessCoin txin.prevout
    if coin.isSpent then pure false
    else do
      checkMempoolCoin pool coinsTip txin.prevout coin
      checkMempoolCoins pool coinsTip rest

/-- The branch of `ConsensusScriptChecks` that asks for a report. -/
inductive PleaseReport where
  | coinSpent
  | scriptsFailed (state : TxInvalid)
deriving DecidableEq

/-- `ConsensusScriptChecks` with `CheckInputsFromMempoolAndCache`. -/
def consensusScriptChecks (params : Params) (keys : PubKeyOps) (tip : CBlockIndex)
    (pool : Uint256 → Option CTransaction) (coinsTip : UtxoMap) (tx : CTransaction)
    (outs : List CTxOut) : CoinsProgram PleaseReport Unit := do
  assert (!tx.isCoinBase) (.assertion "!tx.IsCoinBase()")
  let known ← checkMempoolCoins pool coinsTip tx.vin
  require known .coinSpent
  (runScriptChecks keys (getBlockScriptFlags params tip) (scriptChecks tx outs)).mapError
    .scriptsFailed

/-! ### Flags of blocks -/

namespace ScriptVerify

theorem Subset.or {a b strong : UInt32} (ha : Subset a strong) (hb : Subset b strong) :
    Subset (a ||| b) strong := by
  rw [Subset] at ha hb ⊢
  rw [or_and, ha, hb]

theorem hasFlag_or (a b flag : UInt32) :
    hasFlag (a ||| b) flag = true ↔ hasFlag a flag = true ∨ hasFlag b flag = true := by
  simp only [hasFlag, bne_iff_ne]
  rw [or_and, Ne, UInt32.or_eq_zero_iff]
  exact Classical.not_and_iff_not_or_not

/-- Flags on which nothing depends can be added. -/
theorem Dependent.or {a b : UInt32} (ha : Dependent a)
    (hcl : hasFlag b ScriptVerify.cleanstack = false)
    (hwit : hasFlag b ScriptVerify.witness = false) : Dependent (a ||| b) := by
  refine ⟨fun h => ?_, fun h => ?_⟩
  · rw [hasFlag_or, hcl, or_iff_left Bool.false_ne_true] at h
    exact ⟨(hasFlag_or _ _ _).mpr (.inl (ha.cleanstack h).1),
      (hasFlag_or _ _ _).mpr (.inl (ha.cleanstack h).2)⟩
  · rw [hasFlag_or, hwit, or_iff_left Bool.false_ne_true] at h
    exact (hasFlag_or _ _ _).mpr (.inl (ha.witness h))

end ScriptVerify

/-- Blocks that are no exception have only flags of relayed transactions. -/
theorem getBlockScriptFlags_standard (params : Params) (tip : CBlockIndex)
    (hexc : ∀ p ∈ params.scriptFlagExceptions,
      ScriptVerify.Subset p.2 standardScriptVerifyFlags ∧ ScriptVerify.Dependent p.2) :
    ScriptVerify.Subset (getBlockScriptFlags params tip) standardScriptVerifyFlags ∧
      ScriptVerify.Dependent (getBlockScriptFlags params tip) := by
  have hadd : ∀ {flags flag : UInt32} {active : Prop} [Decidable active],
      ScriptVerify.Subset flag standardScriptVerifyFlags →
      hasFlag flag cleanstack = false → hasFlag flag witness = false →
      (ScriptVerify.Subset flags standardScriptVerifyFlags ∧ ScriptVerify.Dependent flags) →
      (ScriptVerify.Subset (if active then flags ||| flag else flags) standardScriptVerifyFlags ∧
        ScriptVerify.Dependent (if active then flags ||| flag else flags)) := by
    intro flags flag active _ hflag hcl hwit h
    split_ifs
    · exact ⟨h.1.or hflag, h.2.or hcl hwit⟩
    · exact h
  refine hadd (by decide) (by decide) (by decide) (hadd (by decide) (by decide) (by decide)
    (hadd (by decide) (by decide) (by decide) (hadd (by decide) (by decide) (by decide) ?_)))
  cases hlook : params.scriptFlagExceptions.lookup tip.phashBlock with
  | none => exact ⟨by decide, ⟨by decide, by decide⟩⟩
  | some flags =>
    obtain ⟨before, after, hspl, -⟩ := List.lookup_eq_some_iff.mp hlook
    exact hexc (tip.phashBlock, flags) (by simp [hspl])

/-! ### Running both checks -/

variable {ε : Type} {t : UtxoState}

theorem wp_accessUnspent_or_throw {Q : UtxoPost ε Coin}
    {o : COutPoint} (h : ∀ coin, t.coins o = some coin → Q (.ok coin) t)
    (hthr : ∀ x, Q (.error (.thrown x)) t) :
    (accessUnspent o : CoinsProgram ε Coin).wp coinsSpec Q t := by
  rw [accessUnspent, wp_bind, CoinsProgram.wp_accessCoin]
  refine wp_bind.mpr (wp_assert.mpr ⟨fun hunsp => ?_, fun _ => hthr _⟩)
  cases hcoin : t.coins o with
  | none =>
    rw [hcoin] at hunsp
    cases hunsp
  | some coin => exact h coin hcoin

theorem wp_spentOutputs_or_throw {Q : UtxoPost ε (List CTxOut)}
    (h : ∀ coins, Spends t.coins vin coins → Q (.ok (coins.map Coin.out)) t)
    (hthr : ∀ x, Q (.error (.thrown x)) t) :
    (spentOutputs vin : CoinsProgram ε (List CTxOut)).wp coinsSpec Q t := by
  induction vin generalizing Q with
  | nil => exact h [] (spends_nil.mpr rfl)
  | cons txin rest ih =>
    rw [spentOutputs, wp_bind]
    refine wp_accessUnspent_or_throw (fun coin hcoin => ?_) hthr
    refine wp_bind.mpr (ih (fun coins hcs => ?_) hthr)
    exact h (coin :: coins) (spends_cons.mpr ⟨hcoin, hcs⟩)

variable {Q : UtxoPost ε Bool} {checks : List CScriptCheck}

theorem wp_succeeds_runScriptChecks {flags : UInt32} (h : ∀ b, Q (.ok b) t)
    (hthr : ∀ x, Q (.error (.thrown x)) t) :
    ((runScriptChecks keys flags checks).succeeds : CoinsProgram ε Bool).wp coinsSpec Q t := by
  refine wp_handleRejected.mpr (wp_bind.mpr ?_)
  exact wp_runScriptChecks (fun _ => h true) (fun _ => h false) fun x _ => hthr x

/-- Whatever is found out about a failure, the transaction is rejected. -/
theorem wp_policyFailure {state : TxInvalid}
    {Q : UtxoPost TxInvalid Unit} (herr : ∀ e, Q (.error e) t) :
    (policyFailure keys tx checks state).wp coinsSpec Q t := by
  rw [policyFailure]
  split_ifs
  · exact herr _
  · refine wp_bind.mpr (wp_succeeds_runScriptChecks (fun withoutWitness => ?_) fun x => herr _)
    cases withoutWitness with
    | false => exact herr _
    | true =>
      exact wp_bind.mpr
        (wp_succeeds_runScriptChecks (fun withWitness => herr _) fun x => herr _)

/-- What is known when a transaction passes `PolicyScriptChecks`. -/
theorem wp_policyScriptChecks {Q : UtxoPost TxInvalid (List CTxOut)}
    (hcb : tx.isCoinBase = false) (hok : ∀ coins, Spends t.coins tx.vin coins →
      (∀ check ∈ scriptChecks tx (coins.map Coin.out),
        check.run keys standardScriptVerifyFlags = .ok ()) → Q (.ok (coins.map Coin.out)) t)
    (herr : ∀ e, Q (.error e) t) : (policyScriptChecks keys tx).wp coinsSpec Q t := by
  rw [policyScriptChecks, hcb, if_neg Bool.false_ne_true, wp_bind]
  refine wp_spentOutputs_or_throw (fun coins hcs => ?_) fun x => herr _
  refine wp_bind.mpr (wp_handleRejected.mpr ?_)
  exact wp_runScriptChecks (fun hall => hok coins hcs hall)
    (fun state => wp_policyFailure fun e => herr e) fun x _ => herr _

section
variable (hpool : ∀ hash tx, pool hash = some tx → tx.getHash = hash)

include hpool

/-- Coins that come from the pool or the chain pass the tests. -/
theorem wp_checkMempoolCoin {o : COutPoint} {coin : Coin} (hunsp : coin.isSpent = false)
    (hfrom : mempoolCoins pool coinsTip o = some coin) {Q : UtxoPost ε Unit} (h : Q (.ok ()) t) :
    (checkMempoolCoin pool coinsTip o coin : CoinsProgram ε Unit).wp coinsSpec Q t := by
  rw [checkMempoolCoin]
  cases hlook : pool o.hash with
  | some txFrom =>
    rw [mempoolCoins, hlook] at hfrom
    obtain ⟨out, hout, rfl⟩ := Option.map_eq_some_iff.mp hfrom
    have hlen : o.n.toNat < txFrom.vout.length := (List.getElem?_eq_some_iff.mp hout).1
    dsimp only
    rw [hpool _ _ hlook, hout, beq_self_eq_true, beq_self_eq_true, decide_eq_true hlen]
    exact h
  | none =>
    rw [mempoolCoins, hlook] at hfrom
    dsimp only at hfrom ⊢
    rw [hfrom, Option.getD_some, hunsp, beq_self_eq_true]
    exact h

theorem wp_checkMempoolCoins (hun : Unspent t.coins) (hcs : Spends t.coins vin coins)
    (hview : ∀ txin ∈ vin, t.coins txin.prevout = mempoolCoins pool coinsTip txin.prevout)
    (h : Q (.ok true) t) :
    (checkMempoolCoins pool coinsTip vin : CoinsProgram ε Bool).wp coinsSpec Q t := by
  induction vin generalizing coins with
  | nil => exact h
  | cons txin rest ih =>
    rw [List.forall_mem_cons] at hview
    obtain ⟨coin, coins, rfl, hcoin, hrest⟩ := hcs.exists_cons
    have hunsp := hun _ coin hcoin
    rw [checkMempoolCoins, wp_bind, CoinsProgram.wp_accessCoin, hcoin, Option.getD_some]
    change (if coin.isSpent = true then _ else _ : CoinsProgram ε Bool).wp coinsSpec Q t
    rw [hunsp, if_neg Bool.false_ne_true, wp_bind]
    exact wp_checkMempoolCoin hpool hunsp (hview.1.symm.trans hcoin) (ih hrest hview.2)

end

/-- A transaction that passes `PolicyScriptChecks` passes `ConsensusScriptChecks`. -/
theorem wp_consensusScriptChecks {params : Params} {tip : CBlockIndex}
    (hexc : ∀ p ∈ params.scriptFlagExceptions,
      ScriptVerify.Subset p.2 standardScriptVerifyFlags ∧ ScriptVerify.Dependent p.2)
    (hpool : ∀ hash tx, pool hash = some tx → tx.getHash = hash) (hcb : tx.isCoinBase = false)
    (hun : Unspent t.coins) (hcs : Spends t.coins tx.vin coins)
    (hview : ∀ txin ∈ tx.vin, t.coins txin.prevout = mempoolCoins pool coinsTip txin.prevout)
    (hpolicy : ∀ check ∈ scriptChecks tx (coins.map Coin.out),
      check.run keys standardScriptVerifyFlags = .ok ()) :
    (consensusScriptChecks params keys tip pool coinsTip tx (coins.map Coin.out)).wp coinsSpec
      (fun r _ => r = .ok ()) t := by
  obtain ⟨hsubset, hdependent⟩ := getBlockScriptFlags_standard params tip hexc
  have hcks : ∀ check ∈ scriptChecks tx (coins.map Coin.out),
      check.run keys (getBlockScriptFlags params tip) = .ok () :=
    fun check hck => verifyScript_weaken hsubset hdependent (hpolicy check hck)
  have hrun : ∀ checks : List CScriptCheck,
      (∀ check ∈ checks, check.run keys (getBlockScriptFlags params tip) = .ok ()) →
      runScriptChecks keys (getBlockScriptFlags params tip) checks = pure () := by
    intro checks hall
    induction checks with
    | nil => rfl
    | cons check rest ih =>
      rw [List.forall_mem_cons] at hall
      rw [runScriptChecks, hall.1]
      exact ih hall.2
  rw [consensusScriptChecks, hcb, hrun _ hcks]
  refine wp_bind.mpr (wp_assert.mpr ⟨fun _ => ?_, fun h => by cases h⟩)
  refine wp_bind.mpr (wp_checkMempoolCoins hpool hun hcs hview ?_)
  exact wp_bind.mpr (wp_require.mpr ⟨fun _ => rfl, fun h => by cases h⟩)

open CCoinsViewCache in
theorem flags_only_restrict {σ : Type} {V : CCoinsView σ} (M : CoinsModel V) :
    (∀ (keys : PubKeyOps) (scriptSig scriptPubKey : Bytes) (witness : List Bytes)
      (checker : BaseSignatureChecker) (strong weak : UInt32),
      ScriptVerify.Subset weak strong → ScriptVerify.Dependent weak →
      ScriptVerify.Dependent strong →
      verifyScript keys scriptSig scriptPubKey witness strong checker = .ok () →
      verifyScript keys scriptSig scriptPubKey witness weak checker = .ok ()) ∧
    (∀ (params : Params) (keys : PubKeyOps) (tip : CBlockIndex)
      (pool : Uint256 → Option CTransaction) (coinsTip : UtxoMap) (tx : CTransaction)
      (c c' : CCoinsViewCache σ) (outs : List CTxOut), (∀ p ∈ params.scriptFlagExceptions,
        ScriptVerify.Subset p.2 standardScriptVerifyFlags ∧ ScriptVerify.Dependent p.2) →
      (∀ hash tx, pool hash = some tx → tx.getHash = hash) → c.Inv M →
      (∀ txin ∈ tx.vin, c.coins M txin.prevout = mempoolCoins pool coinsTip txin.prevout) →
      tx.isCoinBase = false → (policyScriptChecks keys tx).runOn V c = (.ok outs, c') →
      ((consensusScriptChecks params keys tip pool coinsTip tx outs).runOn V c').1 = .ok ()) := by
  refine ⟨fun keys scriptSig scriptPubKey witness checker strong weak hsub hweak _ h =>
    verifyScript_weaken hsub hweak h, ?_⟩
  intro params keys tip pool coinsTip tx c c' outs hexc hpool hc hview hcb hrun
  have hwp : ∀ t : UtxoState, t.coins = c.coins M → (policyScriptChecks keys tx).wp coinsSpec
      (fun r t => ∀ outs, r = .ok outs →
        (consensusScriptChecks params keys tip pool coinsTip tx outs).wp coinsSpec
          (fun r _ => r = .ok ()) t) t := by
    intro t ht
    refine wp_policyScriptChecks hcb (fun coins hcs hall outs houts => ?_)
      fun e outs houts => nomatch houts
    cases houts
    rw [← ht] at hview
    refine wp_consensusScriptChecks hexc hpool hcb
      (fun o coin h => ?_) hcs hview hall
    rw [ht] at h
    exact hc.unspent h
  obtain ⟨t', hhold, hconsensus⟩ := hc.holds.runOn (hwp _ rfl)
  rw [hrun] at hhold hconsensus
  obtain ⟨-, -, hok⟩ := (hhold fun x h => nomatch h).runOn (hconsensus outs rfl)
  exact hok

open SmallChain in
theorem flags_only_restrict_smallChain :
    verifyScript noKeys [] [0x51] [] 0 (TransactionSignatureChecker.mk noKeys first 0 0 []).toBase =
        .ok () ∧ ((consensusScriptChecks regtestEnv.consensus noKeys ctx.pindex (fun _ => none)
        (view.coins model) first [firstCoin.out]).runOn view
          ((policyScriptChecks noKeys first).runOn view view).2).1 = .ok () := by
  refine ⟨(flags_only_restrict model).1 noKeys [] [0x51] [] _
      standardScriptVerifyFlags 0 (by decide) ⟨by decide, by decide⟩ ⟨by decide, by decide⟩
      (by decide +kernel), ?_⟩
  exact (flags_only_restrict model).2 regtestEnv.consensus noKeys ctx.pindex _ _ first view
    _ [firstCoin.out] (fun p hp => nomatch hp) (fun hash tx h => nomatch h) view_shows.inv
    (fun _ _ => rfl) (by decide) (Prod.ext (by decide +kernel) rfl)

end Lithium
