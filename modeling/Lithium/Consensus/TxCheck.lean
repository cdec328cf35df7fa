import Lithium.Script

/-!
# Context-free checks of transactions

`consensus/tx_check.cpp`, the finality rule of `consensus/tx_verify.cpp`, and
the limits they use. None of these functions reads a witness, which is what
allows a block that fails them to be remembered as invalid.
-/

namespace Lithium

def coin : Int := 100000000
def maxMoney : Int := 25228800 * coin

def moneyRange (nValue : Int) : Bool := 0 ≤ nValue && nValue ≤ maxMoney

def maxBlockWeight : Nat := 4000000
def maxBlockSigopsCost : Nat := 80000
def witnessScaleFactor : Nat := 4
def locktimeThreshold : Int := 500000000
def sequenceFinal : UInt32 := 0xffffffff

/-- The loop over the outputs, with their sum so far. -/
def checkOutputs : List CTxOut → Int → Except String Unit
  | [], _ => .ok ()
  | txout :: rest, nValueOut =>
    if txout.nValue.toInt < 0 then .error "bad-txns-vout-negative"
    else if txout.nValue.toInt > maxMoney then .error "bad-txns-vout-toolarge"
    else if !moneyRange (nValueOut + txout.nValue.toInt) then .error "bad-txns-txouttotal-toolarge"
    else checkOutputs rest (nValueOut + txout.nValue.toInt)

/-- The loop over the inputs, with the outpoints spent so far. -/
def checkDuplicateInputs : List CTxIn → List COutPoint → Except String Unit
  | [], _ => .ok ()
  | txin :: rest, vInOutPoints =>
    if txin.prevout ∈ vInOutPoints then .error "bad-txns-inputs-duplicate"
    else checkDuplicateInputs rest (txin.prevout :: vInOutPoints)

variable (tx : CTransaction)

def checkInputForms : Except String Unit :=
  if tx.isCoinBase then
    match tx.vin with
    | [] => .ok ()
    | txin :: _ =>
      if txin.scriptSig.bytes.length < 2 || 100 < txin.scriptSig.bytes.length then
        .error "bad-cb-length"
      else .ok ()
  else if tx.vin.any fun txin => txin.prevout.isNull then .error "bad-txns-prevout-null"
  else .ok ()

/-- `CheckTransaction`, with the reason for a rejection. -/
def checkTransaction : Except String Unit :=
  if tx.vin.isEmpty then .error "bad-txns-vin-empty"
  else if tx.vout.isEmpty then .error "bad-txns-vout-empty"
  else if (serTransaction false tx).length * witnessScaleFactor > maxBlockWeight then
    .error "bad-txns-oversize"
  else
    match checkOutputs tx.vout 0 with
    | .error reason => .error reason
    | .ok () =>
      match checkDuplicateInputs tx.vin [] with
      | .error reason => .error reason
      | .ok () => checkInputForms tx

def isFinalTx (nBlockHeight nBlockTime : Int) : Bool :=
  let nLockTime : Int := tx.nLockTime.toNat
  if nLockTime = 0 then true
  else if nLockTime < (if nLockTime < locktimeThreshold then nBlockHeight else nBlockTime) then true
  else tx.vin.all fun txin => txin.nSequence == sequenceFinal

end Lithium
