import Lithium.Consensus.TxVerify

/-!
# What the checks of a transaction establish

Rules for the programs of `consensus/tx_verify.cpp`: from a state in which the
inputs have coins, what is known when a check passes, and that it does not throw.
Amounts are compared with sums in unbounded integers.
-/

namespace Lithium
open Lib Program List
variable {vin : List CTxIn} {tx : CTransaction} {v : UtxoMap} {coins : List Coin} {flags : UInt32}
variable {vout : List CTxOut} {nSpendHeight : Int}

/-! ### Amounts -/

theorem moneyRange_iff {n : Int} : moneyRange n = true ↔ 0 ≤ n ∧ n ≤ maxMoney := by
  rw [moneyRange, Bool.and_eq_true, decide_eq_true_iff, decide_eq_true_iff]

theorem maxMoney_eq : maxMoney = 2522880000000000 := by decide

def FitsInt64 (n : Int) : Prop := -2 ^ 63 ≤ n ∧ n < 2 ^ 63

theorem toInt_add_of_fits {a b : Int64} (h : FitsInt64 (a.toInt + b.toInt)) :
    (a + b).toInt = a.toInt + b.toInt := by
  rw [Int64.toInt_add]
  exact Int.bmod_eq_of_le (by have := h.1; omega) (by have := h.2; omega)

theorem toInt_sub_of_fits {a b : Int64} (h : FitsInt64 (a.toInt - b.toInt)) :
    (a - b).toInt = a.toInt - b.toInt := by
  rw [Int64.toInt_sub]
  exact Int.bmod_eq_of_le (by have := h.1; omega) (by have := h.2; omega)

theorem fits_add_of_moneyRange {a b : Int} (ha : moneyRange a = true) (hb : moneyRange b = true) :
    FitsInt64 (a + b) := by
  rw [moneyRange_iff, maxMoney_eq] at ha hb
  constructor <;> omega

theorem fits_sub_of_moneyRange {a b : Int} (ha : moneyRange a = true) (hb : moneyRange b = true) :
    FitsInt64 (a - b) := by
  rw [moneyRange_iff, maxMoney_eq] at ha hb
  constructor <;> omega

def totalValue (coins : List Coin) : Int := (coins.map fun coin => coin.out.nValue.toInt).sum

def totalOut (vout : List CTxOut) : Int := (vout.map fun out => out.nValue.toInt).sum

@[simp] theorem totalValue_nil : totalValue [] = 0 := rfl

@[simp] theorem totalValue_cons (coin : Coin) (coins : List Coin) :
    totalValue (coin :: coins) = coin.out.nValue.toInt + totalValue coins := sum_cons

@[simp] theorem totalOut_nil : totalOut [] = 0 := rfl

@[simp] theorem totalOut_cons (out : CTxOut) (vout : List CTxOut) :
    totalOut (out :: vout) = out.nValue.toInt + totalOut vout := sum_cons

/-- What `CheckTransaction` says about amounts, from a sum on. -/
theorem checkOutputs_ok {nValueOut : Int}
    (h : checkOutputs vout nValueOut = .ok ()) (hrng : moneyRange nValueOut = true) :
    (∀ out ∈ vout, moneyRange out.nValue.toInt = true) ∧
      ∀ k, moneyRange (nValueOut + totalOut (vout.take k)) = true := by
  induction vout generalizing nValueOut with
  | nil => simpa using hrng
  | cons out rest ih =>
    rw [checkOutputs] at h
    split_ifs at h with hneg hlarge htotal
    have hout : moneyRange out.nValue.toInt = true := by
      rw [moneyRange_iff]
      omega
    have hnext : moneyRange (nValueOut + out.nValue.toInt) = true := by simpa using htotal
    obtain ⟨houts, hsums⟩ := ih h hnext
    refine ⟨by simpa [hout] using houts, fun k => ?_⟩
    cases k with
    | zero => simpa using hrng
    | succ k => simpa [add_assoc] using hsums k

/-- `GetValueOut` does not throw after `CheckTransaction`, and its sum is right. -/
theorem valueOutLoop_of_range (nValueOut : Int64)
    (hout : ∀ out ∈ vout, moneyRange out.nValue.toInt = true)
    (hsums : ∀ k, moneyRange (nValueOut.toInt + totalOut (vout.take k)) = true) :
    ∃ n, valueOutLoop vout nValueOut = some n ∧ n.toInt = nValueOut.toInt + totalOut vout := by
  induction vout generalizing nValueOut with
  | nil => exact ⟨nValueOut, rfl, by simp⟩
  | cons out rest ih =>
    have hrng : moneyRange nValueOut.toInt = true := by simpa using hsums 0
    have hhead := hout out mem_cons_self
    have hadd := toInt_add_of_fits (fits_add_of_moneyRange hrng hhead)
    have hnext : moneyRange (nValueOut + out.nValue).toInt = true := by
      rw [hadd]
      simpa using hsums 1
    obtain ⟨n, hn, hsum⟩ := ih (nValueOut + out.nValue)
      (fun o ho => hout o (mem_cons_of_mem _ ho)) fun k => by
        rw [hadd]
        simpa [add_assoc] using hsums (k + 1)
    refine ⟨n, ?_, ?_⟩
    · rw [valueOutLoop, hhead, hnext]
      exact hn
    · rw [hsum, hadd, totalOut_cons, add_assoc]

/-! ### What `CheckTransaction` says -/

theorem checkDuplicateInputs_ok {seen : List COutPoint}
    (h : checkDuplicateInputs vin seen = .ok ()) :
    (vin.map CTxIn.prevout).Nodup ∧ ∀ txin ∈ vin, txin.prevout ∉ seen := by
  induction vin generalizing seen with
  | nil => simp
  | cons txin rest ih =>
    rw [checkDuplicateInputs] at h
    split_ifs at h with hmem
    obtain ⟨hnd, hrest⟩ := ih h
    refine ⟨?_, ?_⟩
    · rw [map_cons, nodup_cons]
      refine ⟨fun hin => ?_, hnd⟩
      obtain ⟨i, hi, heq⟩ := mem_map.mp hin
      exact hrest i hi (heq ▸ mem_cons_self)
    · intro i hi
      rcases mem_cons.mp hi with rfl | hi
      · exact hmem
      · exact fun hin => hrest i hi (mem_cons_of_mem _ hin)

/-- The parts of `CheckTransaction` that later checks rely on. -/
structure CTransaction.Checked (tx : CTransaction) : Prop where
  size : (serTransaction false tx).length * witnessScaleFactor ≤ maxBlockWeight
  outputs : ∀ out ∈ tx.vout, moneyRange out.nValue.toInt = true
  sums : ∀ k, moneyRange (totalOut (tx.vout.take k)) = true
  distinct : (tx.vin.map CTxIn.prevout).Nodup

theorem checkTransaction_ok (h : checkTransaction tx = .ok ()) : tx.Checked := by
  rw [checkTransaction] at h
  split_ifs at h with hvin hvout hsize
  split at h
  · cases h
  next houts =>
    split at h
    · cases h
    next hdup =>
      obtain ⟨houtputs, hsums⟩ := checkOutputs_ok houts (by decide)
      exact ⟨by omega, houtputs, fun k => by simpa using hsums k, (checkDuplicateInputs_ok hdup).1⟩

namespace CTransaction.Checked
variable {tx : CTransaction} (h : tx.Checked)
include h

theorem totalOut_range : moneyRange (totalOut tx.vout) = true := by
  simpa using h.sums tx.vout.length

/-- The outputs have numbers of 32 bits. -/
theorem vout_length : tx.vout.length < 2 ^ 32 := by
  have hsize := h.size
  have hlen := length_le_serVector serTxOut (by simp [serTxOut, serInt64]) tx.vout
  simp only [serTransaction, length_append, Bool.false_and, witnessScaleFactor,
    maxBlockWeight] at hsize
  omega

theorem valueOut : ∃ n, valueOutLoop tx.vout 0 = some n ∧ n.toInt = totalOut tx.vout := by
  obtain ⟨n, hn, hsum⟩ := valueOutLoop_of_range 0 h.outputs fun k => by simpa using h.sums k
  exact ⟨n, hn, by simpa using hsum⟩

end CTransaction.Checked

/-! ### Inputs -/

/-- The coins of the inputs, in order. -/
def Spends (v : UtxoMap) (vin : List CTxIn) (coins : List Coin) : Prop :=
  vin.map (fun txin => v txin.prevout) = coins.map some

variable {coin : Coin}

@[simp] theorem spends_nil : Spends v [] coins ↔ coins = [] := by
  rw [Spends, map_nil, eq_comm, map_eq_nil_iff]

@[simp] theorem spends_cons {txin : CTxIn} :
    Spends v (txin :: vin) (coin :: coins) ↔ v txin.prevout = some coin ∧ Spends v vin coins := by
  simp [Spends]

theorem Spends.exists_cons {txin : CTxIn} (h : Spends v (txin :: vin) coins) :
    ∃ coin rest, coins = coin :: rest ∧ v txin.prevout = some coin ∧ Spends v vin rest := by
  cases coins with
  | nil => simp [Spends] at h
  | cons coin rest => exact ⟨coin, rest, rfl, spends_cons.mp h⟩

theorem Spends.length (h : Spends v vin coins) :
    coins.length = vin.length := by simpa using (congrArg List.length h).symm

theorem Spends.mem (h : Spends v vin coins) (hcoin : coin ∈ coins) :
    ∃ txin ∈ vin, v txin.prevout = some coin := by
  have hmem : some coin ∈ vin.map fun txin => v txin.prevout := by
    rw [h]
    exact mem_map_of_mem hcoin
  simpa using hmem

def Unspent (v : UtxoMap) : Prop := ∀ o coin, v o = some coin → coin.isSpent = false

theorem Unspent.update (hv : Unspent v) {o : COutPoint} {c : Option Coin}
    (hc : ∀ coin, c = some coin → coin.isSpent = false) : Unspent (Function.update v o c) := by
  intro x coin hx
  rw [Function.update_apply] at hx
  split_ifs at hx
  · exact hc coin hx
  · exact hv x coin hx

variable {ε : Type} {t : UtxoState}

theorem wp_accessUnspent {Q : UtxoPost ε Coin}
    (hun : Unspent t.coins) {o : COutPoint} (hcoin : t.coins o = some coin) (h : Q (.ok coin) t) :
    (accessUnspent o : CoinsProgram ε Coin).wp coinsSpec Q t := by
  rw [accessUnspent, wp_bind, CoinsProgram.wp_accessCoin, hcoin]
  refine wp_bind.mpr (wp_assert.mpr ⟨fun _ => h, fun hspent => ?_⟩)
  rw [Option.getD_some, hun o coin hcoin] at hspent
  cases hspent

theorem wp_haveCoins {Q : UtxoPost ε Bool}
    (hyes : ∀ coins, Spends t.coins vin coins → Q (.ok true) t) (hno : Q (.ok false) t) :
    (haveCoins vin : CoinsProgram ε Bool).wp coinsSpec Q t := by
  induction vin with
  | nil => exact hyes [] (spends_nil.mpr rfl)
  | cons txin rest ih =>
    rw [haveCoins, wp_bind, CoinsProgram.wp_haveCoin]
    cases hcoin : t.coins txin.prevout with
    | none => exact hno
    | some coin =>
      exact ih fun coins hcs => hyes (coin :: coins) (spends_cons.mpr ⟨hcoin, hcs⟩)

/-- What `CheckTxInputs` knows about the coins it has summed up. -/
structure CoinsAccepted (nSpendHeight : Int) (coins : List Coin) : Prop where
  mature : ∀ coin ∈ coins, coin.fCoinBase = true →
    coinbaseMaturity ≤ nSpendHeight - coin.nHeight.toNat
  values : ∀ coin ∈ coins, moneyRange coin.out.nValue.toInt = true

variable {Q : UtxoPost TxInvalid Int64}

theorem wp_sumInputs (hun : Unspent t.coins)
    (hcs : Spends t.coins vin coins) {nValueIn : Int64} (hrng : moneyRange nValueIn.toInt = true)
    (hok : ∀ n : Int64, CoinsAccepted nSpendHeight coins →
      n.toInt = nValueIn.toInt + totalValue coins → moneyRange n.toInt = true → Q (.ok n) t)
    (hrej : ∀ e, Q (.error (.rejected e)) t) :
    (sumInputs nSpendHeight vin nValueIn).wp coinsSpec Q t := by
  induction vin generalizing coins nValueIn with
  | nil =>
    obtain rfl := spends_nil.mp hcs
    exact hok nValueIn ⟨by simp, by simp⟩ (by simp) hrng
  | cons txin rest ih =>
    obtain ⟨coin, coins, rfl, hcoin, hcs⟩ := hcs.exists_cons
    rw [sumInputs, wp_bind]
    refine wp_accessUnspent hun hcoin ?_
    refine wp_bind.mpr (wp_require.mpr ⟨fun hmature => ?_, fun _ => hrej _⟩)
    refine wp_bind.mpr (wp_require.mpr ⟨fun hval => ?_, fun _ => hrej _⟩)
    rw [Bool.and_eq_true] at hval
    have hadd := toInt_add_of_fits (fits_add_of_moneyRange hrng hval.1)
    refine ih hcs hval.2 fun n hacc hsum => hok n ⟨?_, ?_⟩ ?_
    · intro coin' hmem
      rcases mem_cons.mp hmem with rfl | hmem
      · intro hcb
        simpa [hcb] using hmature
      · exact hacc.mature coin' hmem
    · intro coin' hmem
      rcases mem_cons.mp hmem with rfl | hmem
      · exact hval.1
      · exact hacc.values coin' hmem
    · rw [hsum, hadd, totalValue_cons, add_assoc]

/-- What `CheckTxInputs` establishes for a transaction that is not a coinbase. -/
structure CTransaction.Funded (tx : CTransaction) (nSpendHeight : Int) (v : UtxoMap)
    (coins : List Coin) : Prop extends CoinsAccepted nSpendHeight coins where
  spends : Lithium.Spends v tx.vin coins
  total : moneyRange (totalValue coins) = true
  fee : moneyRange (totalValue coins - totalOut tx.vout) = true

theorem wp_getValueOut {Q : UtxoPost ε Int64}
    (hchk : tx.Checked) (h : ∀ n : Int64, n.toInt = totalOut tx.vout → Q (.ok n) t) :
    (tx.getValueOut : CoinsProgram ε Int64).wp coinsSpec Q t := by
  obtain ⟨n, hn, hsum⟩ := hchk.valueOut
  rw [CTransaction.getValueOut, hn]
  exact h n hsum

theorem wp_checkTxInputs (hun : Unspent t.coins) (hchk : tx.Checked) (hcb : tx.isCoinBase = false)
    (hok : ∀ (coins : List Coin) (fee : Int64), tx.Funded nSpendHeight t.coins coins →
      fee.toInt = totalValue coins - totalOut tx.vout → Q (.ok fee) t)
    (hrej : ∀ e, Q (.error (.rejected e)) t) :
    (checkTxInputs tx nSpendHeight).wp coinsSpec Q t := by
  rw [checkTxInputs, wp_bind, haveInputs, hcb, if_neg Bool.false_ne_true]
  refine wp_haveCoins (fun coins hcs => ?_) ?_
  · refine wp_bind.mpr (wp_require.mpr ⟨fun _ => ?_, nofun⟩)
    refine wp_bind.mpr (wp_sumInputs hun hcs (by decide) ?_ hrej)
    intro nValueIn hacc hsum hrng
    refine wp_bind.mpr (wp_getValueOut hchk fun valueOut hout => ?_)
    refine wp_bind.mpr (wp_require.mpr ⟨fun hle => ?_, fun _ => hrej _⟩)
    refine wp_bind.mpr (wp_require.mpr ⟨fun hfee => ?_, fun _ => hrej _⟩)
    have hin : nValueIn.toInt = totalValue coins := by simpa using hsum
    have hsub := toInt_sub_of_fits (a := nValueIn) (b := valueOut)
      (fits_sub_of_moneyRange hrng (by rw [hout]; exact hchk.totalOut_range))
    rw [hin, hout] at hsub
    exact hok coins _ ⟨hacc, hcs, hin ▸ hrng, hsub ▸ hfee⟩ hsub
  · exact wp_bind.mpr (wp_require.mpr ⟨nofun, fun _ => hrej _⟩)

/-! ### Signature operations -/

theorem wp_p2shSigOps {Q : UtxoPost ε UInt32}
    (hun : Unspent t.coins) (hcs : Spends t.coins vin coins) {nSigOps : UInt32}
    (h : ∀ n, Q (.ok n) t) : (p2shSigOps vin nSigOps : CoinsProgram ε UInt32).wp coinsSpec Q t := by
  induction vin generalizing coins nSigOps with
  | nil => exact h nSigOps
  | cons txin rest ih =>
    obtain ⟨coin, coins, rfl, hcoin, hcs⟩ := hcs.exists_cons
    rw [p2shSigOps, wp_bind]
    exact wp_accessUnspent hun hcoin (ih hcs)

/-- Flags with which `CountWitnessSigOps` passes its assertion. -/
def FlagsConsistent (flags : UInt32) : Prop :=
  hasFlag flags ScriptVerify.witness = true → hasFlag flags ScriptVerify.p2sh = true

theorem countWitnessSigOps_isSome (hflags : FlagsConsistent flags) (scriptSig scriptPubKey : Bytes)
    (witness : List Bytes) : (countWitnessSigOps scriptSig scriptPubKey witness flags).isSome := by
  rw [countWitnessSigOps]
  split_ifs with hwit hp2sh
  · rfl
  · rw [hflags (by simpa using hwit)] at hp2sh
    cases hp2sh
  · split
    · rfl
    · split <;> rfl
  · split <;> rfl

theorem wp_witnessSigOpCost {Q : UtxoPost ε Int}
    (hun : Unspent t.coins) (hcs : Spends t.coins vin coins) {nSigOps : Int}
    (hok : ∀ n, Q (.ok n) t) (hthr : ∀ x, ¬ FlagsConsistent flags → Q (.error (.thrown x)) t) :
    (witnessSigOpCost flags vin nSigOps : CoinsProgram ε Int).wp coinsSpec Q t := by
  induction vin generalizing coins nSigOps with
  | nil => exact hok nSigOps
  | cons txin rest ih =>
    obtain ⟨coin, coins, rfl, hcoin, hcs⟩ := hcs.exists_cons
    rw [witnessSigOpCost, wp_bind]
    refine wp_accessUnspent hun hcoin ?_
    dsimp only [andThen]
    split
    next hnone =>
      refine hthr _ fun hflags => ?_
      have hsome := countWitnessSigOps_isSome hflags txin.scriptSig.bytes
        coin.out.scriptPubKey.bytes txin.scriptWitness.stack
      rw [hnone] at hsome
      cases hsome
    · exact ih hcs

theorem wp_getTransactionSigOpCost {Q : UtxoPost ε Int}
    (hun : Unspent t.coins) (hcs : tx.isCoinBase = false → Spends t.coins tx.vin coins)
    (hok : ∀ cost, Q (.ok cost) t)
    (hthr : ∀ x, tx.isCoinBase = false → ¬ FlagsConsistent flags → Q (.error (.thrown x)) t) :
    (getTransactionSigOpCost tx flags : CoinsProgram ε Int).wp coinsSpec Q t := by
  rw [getTransactionSigOpCost]
  split_ifs with hcb
  · exact hok _
  · have hne : tx.isCoinBase = false := Bool.not_eq_true _ ▸ hcb
    have hwit : ∀ n : Int,
        (witnessSigOpCost flags tx.vin n : CoinsProgram ε Int).wp coinsSpec Q t :=
      fun n => wp_witnessSigOpCost hun (hcs hne) hok fun x => hthr x hne
    rw [wp_bind, p2shSigOpsIf]
    split_ifs
    · rw [getP2SHSigOpCount, if_neg hcb]
      exact wp_p2shSigOps hun (hcs hne) fun n => hwit _
    · exact hwit _

end Lithium
