import Lithium.Consensus.TxCheck
import Lithium.Script.Interpreter

/-!
# Signatures of transactions

What a signature of a transaction signs, and the checker that gives the
interpreter access to a transaction (`TransactionSignatureChecker` of
`script/interpreter.cpp`). There are three ways to hash a transaction: the
oldest takes a single SHA-256 of the transaction with other scripts blanked,
outputs with witnesses take a double one of a digest of each part, and taproot
a tagged one.

The digests that the source computes once for all inputs of a transaction are
computed here where they are used, and the cache of verified signatures is left
out: both only save work.
-/

namespace Lithium
open Lib Opcode
namespace SigHash

def all : Nat := 1
def none : Nat := 2
def single : Nat := 3
def anyoneCanPay : Nat := 0x80
def defaultType : UInt8 := 0

end SigHash

open SigHash

/-! ### Without a witness -/

/-- Where `GetScriptOp` stops in a script whose next instruction is cut short. -/
def stopPosition : Bytes → Bytes
  | [] => []
  | op :: rest =>
    let width := if op.toNat = opPushdata1 then 1 else if op.toNat = opPushdata2 then 2 else 4
    if op.toNat < opPushdata1 || rest.length < width then rest else rest.drop width

/-- The number of code separators among the instructions. -/
def countCodeSeparators : Nat → Bytes → Nat
  | 0, _ => 0
  | n + 1, it =>
    match getScriptOp it with
    | .none => 0
    | some (opcode, _, rest) =>
      (if opcode = opCodeseparator then 1 else 0) + countCodeSeparators n rest

/-- The pieces between code separators, from the start of the current piece. -/
def scriptCodePieces : Nat → Bytes → Bytes → Bytes
  | 0, itBegin, _ => itBegin
  | n + 1, itBegin, it =>
    match getScriptOp it with
    | .none => itBegin.take (itBegin.length - (stopPosition it).length)
    | some (opcode, _, rest) =>
      if opcode = opCodeseparator then
        itBegin.take (itBegin.length - rest.length - 1) ++ scriptCodePieces n rest rest
      else scriptCodePieces n itBegin rest

structure SignatureSerializer where
  txTo : CTransaction
  scriptCode : Bytes
  nIn : Nat
  fAnyoneCanPay : Bool
  fHashSingle : Bool
  fHashNone : Bool

namespace SignatureSerializer

def new (txTo : CTransaction) (scriptCode : Bytes) (nIn nHashType : Nat) : SignatureSerializer where
  txTo := txTo
  scriptCode := scriptCode
  nIn := nIn
  fAnyoneCanPay := nHashType &&& anyoneCanPay != 0
  fHashSingle := nHashType &&& 0x1f == single
  fHashNone := nHashType &&& 0x1f == SigHash.none

section
variable (s : SignatureSerializer)

def serializeScriptCode : Bytes := writeCompactSize (s.scriptCode.length -
      countCodeSeparators (s.scriptCode.length + 1) s.scriptCode) ++
    scriptCodePieces (s.scriptCode.length + 1) s.scriptCode s.scriptCode

def serializeInput (nInput : Nat) (txin : CTxIn) : Bytes := serOutPoint txin.prevout ++
    (if nInput ≠ s.nIn then serBytes [] else s.serializeScriptCode) ++
    (if nInput ≠ s.nIn ∧ (s.fHashSingle ∨ s.fHashNone) then serUInt32 0
      else serUInt32 txin.nSequence)

def serializeInputs : Bytes :=
  if s.fAnyoneCanPay then
    writeCompactSize 1 ++ match s.txTo.vin[s.nIn]? with
      | .none => []
      | some txin => s.serializeInput s.nIn txin
  else
    writeCompactSize s.txTo.vin.length ++
      (s.txTo.vin.zipIdx.flatMap fun p => s.serializeInput p.2 p.1)

def serializeOutputs : Bytes :=
  if s.fHashNone then writeCompactSize 0
  else if s.fHashSingle then
    writeCompactSize (s.nIn + 1) ++
      -- Outputs before the one of this input are not signed.
      ((s.txTo.vout.take (s.nIn + 1)).zipIdx.flatMap fun p =>
        serTxOut (if p.2 ≠ s.nIn then ⟨-1, ⟨[], CScript.nil_lt⟩⟩ else p.1))
  else serVector serTxOut s.txTo.vout

def serialize : Bytes :=
  serInt32 s.txTo.nVersion ++ s.serializeInputs ++ s.serializeOutputs ++ serUInt32 s.txTo.nLockTime

end
end SignatureSerializer

/-! ### Digests of the parts of a transaction -/

variable (tx : CTransaction)

def getPrevoutsSHA256 : Uint256 :=
  sha256Once (tx.vin.flatMap fun txin => serOutPoint txin.prevout)

def getSequencesSHA256 : Uint256 :=
  sha256Once (tx.vin.flatMap fun txin => serUInt32 txin.nSequence)

def getOutputsSHA256 : Uint256 := sha256Once (tx.vout.flatMap serTxOut)

def getSpentAmountsSHA256 (outputsSpent : List CTxOut) : Uint256 :=
  sha256Once (outputsSpent.flatMap fun txout => serInt64 txout.nValue)

def getSpentScriptsSHA256 (outputsSpent : List CTxOut) : Uint256 :=
  sha256Once (outputsSpent.flatMap fun txout => serBytes txout.scriptPubKey.bytes)

def sha256Uint256 (input : Uint256) : Uint256 := sha256Once input.data

/-! ### With a witness -/

def signatureHashWitnessV0 (scriptCode : Bytes) (txTo : CTransaction) (nIn nHashType : Nat)
    (amount : Int64) (txin : CTxIn) : Uint256 :=
  let anyoneCanPay := nHashType &&& anyoneCanPay != 0
  let single := nHashType &&& 0x1f == single
  let none := nHashType &&& 0x1f == SigHash.none
  let hashPrevouts := if anyoneCanPay then Uint256.zero else sha256Uint256 (getPrevoutsSHA256 txTo)
  let hashSequence :=
    if anyoneCanPay || single || none then Uint256.zero
    else sha256Uint256 (getSequencesSHA256 txTo)
  let hashOutputs :=
    if !single && !none then sha256Uint256 (getOutputsSHA256 txTo)
    else
      match if single then txTo.vout[nIn]? else .none with
      | .none => Uint256.zero
      | some txout => hash256 (serTxOut txout)
  hash256 (serInt32 txTo.nVersion ++ hashPrevouts.data ++ hashSequence.data ++
    serOutPoint txin.prevout ++ serBytes scriptCode ++ serInt64 amount ++
    serUInt32 txin.nSequence ++ hashOutputs.data ++ serUInt32 txTo.nLockTime ++ natToLE 4 nHashType)

/-- `uint256::ONE`. -/
def uint256One : Uint256 := ⟨1 :: List.replicate 31 0, rfl⟩

/-- `SignatureHash`; nothing when there is no such input. -/
def signatureHash (scriptCode : Bytes) (txTo : CTransaction) (nIn nHashType : Nat) (amount : Int64)
    (sigversion : SigVersion) : Option Uint256 :=
  match txTo.vin[nIn]? with
  | .none => .none
  | some txin =>
    if sigversion = .witnessV0 then
      some (signatureHashWitnessV0 scriptCode txTo nIn nHashType amount txin)
    else if nHashType &&& 0x1f = single ∧ txTo.vout.length ≤ nIn then some uint256One
    else
      some (sha256Once ((SignatureSerializer.new txTo scriptCode nIn nHashType).serialize ++
        natToLE 4 nHashType))

/-! ### Taproot -/

/-- What is hashed about the leaf of a tapscript; nothing when an assertion
fails. -/
def schnorrLeafData (execdata : ScriptExecutionData) (sigversion : SigVersion) : Option Bytes :=
  if sigversion = .tapscript then
    match execdata.tapleafHash, execdata.codeseparatorPos with
    | some tapleafHash, some pos => some (tapleafHash.data ++ [0] ++ serUInt32 pos)
    | _, _ => .none
  else some []

/-- What is hashed about the input and its annex. -/
def schnorrInputData (inPos inputType extFlag : Nat) (annex : Option Uint256) (txin : CTxIn)
    (spent : CTxOut) : Bytes :=
  UInt8.ofNat ((extFlag <<< 1) + if annex.isSome then 1 else 0) ::
    ((if inputType = anyoneCanPay then
        serOutPoint txin.prevout ++ serTxOut spent ++ serUInt32 txin.nSequence
      else natToLE 4 inPos) ++
      match annex with
      | .none => []
      | some annexHash => annexHash.data)

/-- `SignatureHashSchnorr`: outside nothing when an assertion fails, inside
nothing when it returns false. -/
def signatureHashSchnorr (execdata : ScriptExecutionData) (txTo : CTransaction) (inPos : Nat)
    (hashType : UInt8) (sigversion : SigVersion) (spentOutputs : List CTxOut) :
    Option (Option Uint256) :=
  match txTo.vin[inPos]?, spentOutputs[inPos]?, execdata.annexHash,
    schnorrLeafData execdata sigversion with
  | some txin, some spent, some annex, some leaf =>
    let outputType :=
      if hashType = defaultType then all else hashType.toNat &&& 3
    let inputType := hashType.toNat &&& 0x80
    if !(hashType.toNat ≤ 3 || (0x81 ≤ hashType.toNat && hashType.toNat ≤ 0x83)) ||
        (outputType == single && txTo.vout.length ≤ inPos) then
      some .none
    else
      let txData := serInt32 txTo.nVersion ++ serUInt32 txTo.nLockTime ++
          (if inputType ≠ anyoneCanPay then
            (getPrevoutsSHA256 txTo).data ++ (getSpentAmountsSHA256 spentOutputs).data ++
              (getSpentScriptsSHA256 spentOutputs).data ++ (getSequencesSHA256 txTo).data
            else []) ++
          (if outputType = all then (getOutputsSHA256 txTo).data else [])
      let inputData :=
        schnorrInputData inPos inputType (if sigversion = .tapscript then 1 else 0) annex txin spent
      let outputData :=
        match if outputType = single then txTo.vout[inPos]? else .none with
        | .none => []
        | some txout => (sha256Once (serTxOut txout)).data
      some (some (taggedHash "TapSighash"
        ([0, hashType] ++ txData ++ inputData ++ outputData ++ leaf)))
  | _, _, _, _ => .none

/-! ### The checker -/

/-- `CPubKey::IsValid` for a key set from the given bytes: the first of them
tells the length. -/
def pubKeyIsValid (vch : Bytes) : Bool :=
  match vch.head? with
  | .none => false
  | some b =>
    if b == 2 || b == 3 then vch.length == 33
    else (b == 4 || b == 6 || b == 7) && vch.length == 65

def sequenceLocktimeTypeFlag : Nat := 2 ^ 22
def sequenceLocktimeMask : Nat := 0xffff

/-- `TransactionSignatureChecker` for an input that spends an output of the
given amount. Data that is missing makes an assertion fail. -/
structure TransactionSignatureChecker where
  keys : PubKeyOps
  txTo : CTransaction
  nIn : Nat
  amount : Int64
  spentOutputs : List CTxOut

namespace TransactionSignatureChecker

section
variable (c : TransactionSignatureChecker)

def checkECDSASignature (vchSigIn vchPubKey scriptCode : Bytes)
    (sigversion : SigVersion) : Option Bool :=
  if !pubKeyIsValid vchPubKey then some false
  else
    match vchSigIn.getLast? with
    | .none => some false
    | some nHashType =>
      if sigversion = .witnessV0 ∧ c.amount < 0 then .none
      else
        match signatureHash scriptCode c.txTo c.nIn nHashType.toNat c.amount sigversion with
        | .none => .none
        | some sighash => some (c.keys.verify vchPubKey sighash vchSigIn.dropLast)

def checkSchnorrSignature (sig pubkeyIn : Bytes)
    (sigversion : SigVersion) (execdata : ScriptExecutionData) : Option (Except ScriptError Unit) :=
  if sig.length ≠ 64 ∧ sig.length ≠ 65 then some (.error .schnorrSigSize)
  else
    let hashtype := if sig.length = 65 then sig.getLastD 0 else defaultType
    if sig.length = 65 ∧ hashtype = defaultType then some (.error .schnorrSigHashtype)
    else
      match signatureHashSchnorr execdata c.txTo c.nIn hashtype sigversion c.spentOutputs with
      | .none => .none
      | some .none => some (.error .schnorrSigHashtype)
      | some (some sighash) =>
        if c.keys.verifySchnorr pubkeyIn sighash (sig.take 64) then some (.ok ())
        else some (.error .schnorrSig)

def nSequence (c : TransactionSignatureChecker) : UInt32 :=
  (c.txTo.vin[c.nIn]?.map CTxIn.nSequence).getD 0

def checkLockTime (nLockTime : Int) : Bool :=
  let txLockTime : Int := c.txTo.nLockTime.toNat
  ((txLockTime < locktimeThreshold && nLockTime < locktimeThreshold) ||
      (txLockTime ≥ locktimeThreshold && nLockTime ≥ locktimeThreshold)) &&
    nLockTime ≤ txLockTime && c.nSequence != sequenceFinal

def checkSequence (nSequence : Int) : Bool :=
  let txToSequence := c.nSequence.toNat
  let nLockTimeMask := sequenceLocktimeTypeFlag ||| sequenceLocktimeMask
  let txToSequenceMasked := txToSequence &&& nLockTimeMask
  let nSequenceMasked := nSequence.toNat &&& nLockTimeMask
  2 ≤ c.txTo.nVersion.toUInt32.toNat && txToSequence &&& sequenceLocktimeDisableFlag == 0 &&
    ((txToSequenceMasked < sequenceLocktimeTypeFlag &&
        nSequenceMasked < sequenceLocktimeTypeFlag) ||
      (txToSequenceMasked ≥ sequenceLocktimeTypeFlag &&
        nSequenceMasked ≥ sequenceLocktimeTypeFlag)) &&
    nSequenceMasked ≤ txToSequenceMasked

def toBase : BaseSignatureChecker where
  checkECDSASignature := c.checkECDSASignature
  checkSchnorrSignature := c.checkSchnorrSignature
  checkLockTime := c.checkLockTime
  checkSequence := c.checkSequence

end
end TransactionSignatureChecker
end Lithium
