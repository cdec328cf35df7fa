import Lithium.Coins.Program
import Lithium.Script.SigHash
import Lithium.Versionbits

/-!
# Checks of transactions against the unspent coins

`consensus/tx_verify.cpp`: amounts and maturity of inputs, relative lock times
and the cost of signature operations. Amounts are 64-bit machine integers and
are added as such.
-/

namespace Lithium
open Lib Program

variable {ε : Type}

inductive TxValidationResult where
  | resultUnset
  | consensus
  | notStandard
  | inputsNotStandard
  | missingInputs
  | prematureSpend
  | witnessMutated
  | witnessStripped
  | conflict
  | mempoolPolicy
deriving DecidableEq

/-- A `TxValidationState` that is not valid. -/
structure TxInvalid where
  result : TxValidationResult
  rejectReason : String
  debugMessage : String
deriving DecidableEq

/-! ### Amounts -/

/-- `FormatMoney`: at least two digits after the point. -/
def formatMoney (n : Int64) : String :=
  let magnitude := n.toInt.natAbs
  let fraction := (toString (100000000 + magnitude % 100000000)).toList.tail
  let trimmed := ((fraction.drop 2).reverse.dropWhile (· == '0')).reverse
  (if n < 0 then "-" else "") ++ toString (magnitude / 100000000) ++ "." ++
    String.ofList (fraction.take 2 ++ trimmed)

/-- The loop of `GetValueOut`; nothing when it throws. -/
def valueOutLoop : List CTxOut → Int64 → Option Int64
  | [], nValueOut => some nValueOut
  | txOut :: rest, nValueOut =>
    if moneyRange txOut.nValue.toInt && moneyRange (nValueOut + txOut.nValue).toInt then
      valueOutLoop rest (nValueOut + txOut.nValue)
    else none

variable (tx : CTransaction)

def CTransaction.getValueOut : CoinsProgram ε Int64 :=
  match valueOutLoop tx.vout 0 with
  | none => .throw (.runtimeError "GetValueOut: value out of range")
  | some nValueOut => pure nValueOut

/-! ### Inputs -/

def coinbaseMaturity : Int := 120

/-- The loop of `HaveInputs`. -/
def haveCoins : List CTxIn → CoinsProgram ε Bool
  | [] => pure true
  | txin :: rest => do
    let available ← CoinsProgram.haveCoin txin.prevout
    if available then haveCoins rest else pure false

def haveInputs : CoinsProgram ε Bool :=
  if tx.isCoinBase then pure true else haveCoins tx.vin

/-- `AccessCoin` for a coin that has to be there. -/
def accessUnspent (prevout : COutPoint) : CoinsProgram ε Coin := do
  let coin ← CoinsProgram.accessCoin prevout
  assert (!coin.isSpent) (.assertion "!coin.IsSpent()")
  pure coin

/-- The loop of `CheckTxInputs` over the inputs, with their sum so far. -/
def sumInputs (nSpendHeight : Int) : List CTxIn → Int64 → CoinsProgram TxInvalid Int64
  | [], nValueIn => pure nValueIn
  | txin :: rest, nValueIn => do
    let coin ← accessUnspent txin.prevout
    let depth : Int := nSpendHeight - coin.nHeight.toNat
    require (!(coin.fCoinBase && depth < coinbaseMaturity))
      ⟨.prematureSpend, "bad-txns-premature-spend-of-coinbase",
        "tried to spend coinbase at depth " ++ toString depth⟩
    require (moneyRange coin.out.nValue.toInt &&
        moneyRange (nValueIn + coin.out.nValue).toInt)
      ⟨.consensus, "bad-txns-inputvalues-outofrange", ""⟩
    sumInputs nSpendHeight rest (nValueIn + coin.out.nValue)

/-- `CheckTxInputs`, with the fee. -/
def checkTxInputs (nSpendHeight : Int) : CoinsProgram TxInvalid Int64 := do
  let available ← haveInputs tx
  require available
    ⟨.missingInputs, "bad-txns-inputs-missingorspent", "CheckTxInputs: inputs missing/spent"⟩
  let nValueIn ← sumInputs nSpendHeight tx.vin 0
  let valueOut ← tx.getValueOut
  require (valueOut ≤ nValueIn)
    ⟨.consensus, "bad-txns-in-belowout",
      "value in (" ++ formatMoney nValueIn ++ ") < value out (" ++ formatMoney valueOut ++ ")"⟩
  require (moneyRange (nValueIn - valueOut).toInt)
    ⟨.consensus, "bad-txns-fee-outofrange", ""⟩
  pure (nValueIn - valueOut)

/-! ### Relative lock times -/

def sequenceLocktimeGranularity : Nat := 9

/-- The loop of `CalculateSequenceLocks` over inputs with the heights of their
coins; nothing when a height has no entry. The branch starts with the block. -/
def sequenceLocksLoop (branch : Branch) : List (CTxIn × Int) → Int × Int → Option (Int × Int)
  | [], lockPair => some lockPair
  | (txin, nCoinHeight) :: rest, (nMinHeight, nMinTime) =>
    let nSequence := txin.nSequence.toNat
    let lockTime : Int := (nSequence &&& sequenceLocktimeMask : Nat)
    if nSequence &&& sequenceLocktimeDisableFlag != 0 then
      sequenceLocksLoop branch rest (nMinHeight, nMinTime)
    else if nSequence &&& sequenceLocktimeTypeFlag != 0 then
      match ancestorBranch branch (max (nCoinHeight - 1) 0) with
      | [] => none
      | coinBranch =>
        sequenceLocksLoop branch rest
          (nMinHeight, max nMinTime (getMedianTimePast coinBranch +
            lockTime * 2 ^ sequenceLocktimeGranularity - 1))
    else
      sequenceLocksLoop branch rest (max nMinHeight (nCoinHeight + lockTime - 1), nMinTime)

def calculateSequenceLocks (verifySequence : Bool) (prevHeights : List Int)
    (branch : Branch) : Option (Int × Int) :=
  if 2 ≤ tx.nVersion.toUInt32.toNat && verifySequence then
    sequenceLocksLoop branch (tx.vin.zip prevHeights) (-1, -1)
  else some (-1, -1)

/-- `SequenceLocks` for a block and its predecessors. -/
def sequenceLocks (verifySequence : Bool) (prevHeights : List Int)
    (pindex : CBlockIndex) (prev : Branch) : CoinsProgram ε Bool :=
  match calculateSequenceLocks tx verifySequence prevHeights (pindex :: prev) with
  | none => .throw (.assertion "block.GetAncestor(std::max(nCoinHeight - 1, 0))")
  | some (nMinHeight, nMinTime) =>
    pure (!(nMinHeight ≥ pindex.nHeight || nMinTime ≥ getMedianTimePast prev))

/-! ### Signature operations -/

/-- The loop of `GetP2SHSigOpCount`. -/
def p2shSigOps : List CTxIn → UInt32 → CoinsProgram ε UInt32
  | [], nSigOps => pure nSigOps
  | txin :: rest, nSigOps => do
    let coin ← accessUnspent txin.prevout
    let script := coin.out.scriptPubKey.bytes
    p2shSigOps rest (if isPayToScriptHash script
      then nSigOps + p2shSigOpCount script txin.scriptSig.bytes else nSigOps)

def getP2SHSigOpCount : CoinsProgram ε UInt32 :=
  if tx.isCoinBase then pure 0 else p2shSigOps tx.vin 0

/-- The loop of `GetTransactionSigOpCost` over the witnesses. -/
def witnessSigOpCost (flags : UInt32) : List CTxIn → Int → CoinsProgram ε Int
  | [], nSigOps => pure nSigOps
  | txin :: rest, nSigOps => do
    let coin ← accessUnspent txin.prevout
    match countWitnessSigOps txin.scriptSig.bytes coin.out.scriptPubKey.bytes
        txin.scriptWitness.stack flags with
    | none => .throw (.assertion "(flags & SCRIPT_VERIFY_P2SH) != 0")
    | some n => witnessSigOpCost flags rest (nSigOps + n)

def p2shSigOpsIf (flags : UInt32) : CoinsProgram ε UInt32 :=
  if hasFlag flags ScriptVerify.p2sh then getP2SHSigOpCount tx else pure 0

def getTransactionSigOpCost (flags : UInt32) : CoinsProgram ε Int :=
  let legacy : Int := (tx.getLegacySigOpCount * UInt32.ofNat witnessScaleFactor).toNat
  if tx.isCoinBase then pure legacy
  else do
    let p2sh ← p2shSigOpsIf tx flags
    witnessSigOpCost flags tx.vin
      (legacy + ((p2sh * UInt32.ofNat witnessScaleFactor).toNat : Int))

end Lithium
