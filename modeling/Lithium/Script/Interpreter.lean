import Lithium.Crypto.Hash160
import Lithium.Lib.Fallible
import Lithium.Script.Instructions

/-!
# The script interpreter

`script/interpreter.cpp`: the stack machine that evaluates scripts, the rules
for witness programs, and `VerifyScript`, which puts them together. Which rules
apply is decided by a word of flags.

The stack is a list whose head is the top. The signature checks reach the
interpreter through a `BaseSignatureChecker`, and the operations on curve points
through `PubKeyOps`; both are arguments, so that everything proved about the
interpreter holds for any of them.
-/

namespace Lithium
open Lib Crypto Opcode CScriptNum

/-! ### Flags -/

namespace ScriptVerify

def p2sh : UInt32 := 0x1
def strictenc : UInt32 := 0x2
def dersig : UInt32 := 0x4
def lowS : UInt32 := 0x8
def nulldummy : UInt32 := 0x10
def sigpushonly : UInt32 := 0x20
def minimaldata : UInt32 := 0x40
def discourageUpgradableNops : UInt32 := 0x80
def cleanstack : UInt32 := 0x100
def checklocktimeverify : UInt32 := 0x200
def checksequenceverify : UInt32 := 0x400
def witness : UInt32 := 0x800
def discourageUpgradableWitnessProgram : UInt32 := 0x1000
def minimalif : UInt32 := 0x2000
def nullfail : UInt32 := 0x4000
def witnessPubkeytype : UInt32 := 0x8000
def constScriptcode : UInt32 := 0x10000
def taproot : UInt32 := 0x20000
def discourageUpgradableTaprootVersion : UInt32 := 0x40000
def discourageOpSuccess : UInt32 := 0x80000
def discourageUpgradablePubkeytype : UInt32 := 0x100000

end ScriptVerify

open ScriptVerify

def hasFlag (flags flag : UInt32) : Bool := flags &&& flag != 0

/-! ### What the interpreter is given -/

inductive SigVersion where
  | base
  | witnessV0
  | taproot
  | tapscript
deriving DecidableEq

/-- Fields without a value are not initialised yet. The hash of an output that
the source keeps for the next signature is computed each time it is needed. -/
structure ScriptExecutionData where
  tapleafHash : Option Uint256 := none
  codeseparatorPos : Option UInt32 := none
  /-- when initialised, the hash of the annex if there is one -/
  annexHash : Option (Option Uint256) := none
  validationWeightLeft : Option Int := none

/-- No result means that an assertion fails. -/
structure BaseSignatureChecker where
  checkECDSASignature : (vchSig vchPubKey scriptCode : Bytes) → SigVersion → Option Bool
  checkSchnorrSignature : (sig pubkey : Bytes) → SigVersion → ScriptExecutionData →
    Option (Except ScriptError Unit)
  checkLockTime : Int → Bool
  checkSequence : Int → Bool

/-- The functions of `pubkey.h` that compute with points of the curve. -/
structure PubKeyOps where
  /-- `CPubKey::Verify` -/
  verify : (pubkey : Bytes) → (hash : Uint256) → (vchSig : Bytes) → Bool
  /-- `CPubKey::CheckLowS` -/
  checkLowS : Bytes → Bool
  /-- `XOnlyPubKey::VerifySchnorr` -/
  verifySchnorr : (pubkey : Bytes) → (msg : Uint256) → (sigbytes : Bytes) → Bool
  /-- `XOnlyPubKey::CheckTapTweak` of an output key -/
  checkTapTweak : (key internalKey : Bytes) → (merkleRoot : Uint256) → (parity : Bool) → Bool

inductive ScriptFailure where
  | error (serror : ScriptError)
  /-- a `scriptnum_error` on its way to the handler of `EvalScript` -/
  | thrown
  /-- an assertion fails, which ends the program -/
  | aborted
deriving DecidableEq

abbrev ScriptResult := Except ScriptFailure

def fail {α : Type} (serror : ScriptError) : ScriptResult α := .error (.error serror)

/-- The arguments of `EvalScript` that it does not change. -/
structure ScriptEnv where
  flags : UInt32
  sigversion : SigVersion
  checker : BaseSignatureChecker
  keys : PubKeyOps

def ScriptEnv.has (env : ScriptEnv) (flag : UInt32) : Bool := hasFlag env.flags flag

/-! ### Encodings -/

def isCompressedOrUncompressedPubKey (vchPubKey : Bytes) : Bool :=
  match vchPubKey.head? with
  | none => false
  | some b =>
    if b == 0x04 then vchPubKey.length == 65
    else (b == 0x02 || b == 0x03) && vchPubKey.length == 33

def isCompressedPubKey (vchPubKey : Bytes) : Bool :=
  vchPubKey.length == 33 && (vchPubKey.head?.any fun b => b == 0x02 || b == 0x03)

/-- `IsValidSignatureEncoding`: the type of a signature, its length, two
integers that are not negative nor padded, and the byte of the hash type. -/
def isValidSignatureEncoding (sig : Bytes) : Bool :=
  let lenR := (sig.getD 3 0).toNat
  let lenS := (sig.getD (5 + lenR) 0).toNat
  9 ≤ sig.length && sig.length ≤ 73 && sig.getD 0 0 == 0x30 &&
    (sig.getD 1 0).toNat == sig.length - 3 && 5 + lenR < sig.length &&
    lenR + lenS + 7 == sig.length &&
    sig.getD 2 0 == 0x02 && lenR != 0 && sig.getD 4 0 &&& 0x80 == 0 &&
    !(1 < lenR && sig.getD 4 0 == 0 && sig.getD 5 0 &&& 0x80 == 0) &&
    sig.getD (lenR + 4) 0 == 0x02 && lenS != 0 && sig.getD (lenR + 6) 0 &&& 0x80 == 0 &&
    !(1 < lenS && sig.getD (lenR + 6) 0 == 0 && sig.getD (lenR + 7) 0 &&& 0x80 == 0)

def isLowDERSignature (keys : PubKeyOps) (vchSig : Bytes) : ScriptResult Unit :=
  if !isValidSignatureEncoding vchSig then fail .sigDer
  else if !keys.checkLowS vchSig.dropLast then fail .sigHighS
  else .ok ()

def isDefinedHashtypeSignature (vchSig : Bytes) : Bool :=
  match vchSig.getLast? with
  | none => false
  | some b => 1 ≤ (b &&& 0x7f).toNat && (b &&& 0x7f).toNat ≤ 3

def checkSignatureEncoding (env : ScriptEnv) (vchSig : Bytes) : ScriptResult Unit :=
  if vchSig.isEmpty then .ok ()
  else if env.has (dersig ||| lowS ||| strictenc) &&
      !isValidSignatureEncoding vchSig then
    fail .sigDer
  else do
    (if env.has lowS then isLowDERSignature env.keys vchSig else .ok ())
    if env.has strictenc && !isDefinedHashtypeSignature vchSig then fail .sigHashtype else .ok ()

def checkPubKeyEncoding (env : ScriptEnv) (vchPubKey : Bytes) : ScriptResult Unit :=
  if env.has strictenc && !isCompressedOrUncompressedPubKey vchPubKey then
    fail .pubkeytype
  else if env.has witnessPubkeytype && env.sigversion == .witnessV0 &&
      !isCompressedPubKey vchPubKey then
    fail .witnessPubkeytype
  else .ok ()

/-! ### Removing signatures from a script -/

/-- Copies of a string at the start of another, up to `n` of them. -/
def skipMatches (b : Bytes) : Nat → Bytes → Nat → Bytes × Nat
  | 0, pc, nFound => (pc, nFound)
  | n + 1, pc, nFound =>
    if b.isPrefixOf pc then skipMatches b n (pc.drop b.length) (nFound + 1) else (pc, nFound)

/-- The loop of `FindAndDelete`, with the result so far; copies are looked for
only between instructions. -/
def findAndDeleteLoop (b : Bytes) : Nat → Bytes → Bytes → Nat → Bytes × Nat
  | 0, pc, result, nFound => (result ++ pc, nFound)
  | n + 1, pc, result, nFound =>
    match skipMatches b pc.length pc nFound with
    | (pc, nFound) =>
      match getScriptOp pc with
      | none => (result ++ pc, nFound)
      | some (_, _, rest) =>
        findAndDeleteLoop b n rest (result ++ pc.take (pc.length - rest.length)) nFound

/-- `FindAndDelete`, with what is left of the script. -/
def findAndDelete (script b : Bytes) : Bytes × Nat :=
  if b.isEmpty then (script, 0) else findAndDeleteLoop b (script.length + 1) script [] 0

/-! ### Conditions -/

/-- The stack of conditions, of which only the size and the position of the
first false one are kept. -/
structure ConditionStack where
  stackSize : UInt32 := 0
  firstFalsePos : UInt32 := 0xffffffff
deriving DecidableEq

namespace ConditionStack

def noFalse : UInt32 := 0xffffffff

def new : ConditionStack := {}

section
variable (c : ConditionStack)

def empty : Bool := c.stackSize == 0

def allTrue : Bool := c.firstFalsePos == noFalse

def pushBack (f : Bool) : ConditionStack where
  stackSize := c.stackSize + 1
  firstFalsePos := if c.firstFalsePos == noFalse && !f then c.stackSize else c.firstFalsePos

def popBack : ConditionStack where
  stackSize := c.stackSize - 1
  firstFalsePos := if c.firstFalsePos == c.stackSize - 1 then noFalse else c.firstFalsePos

def toggleTop : ConditionStack where
  stackSize := c.stackSize
  firstFalsePos :=
    if c.firstFalsePos == noFalse then c.stackSize - 1
    else if c.firstFalsePos == c.stackSize - 1 then noFalse
    else c.firstFalsePos

end
end ConditionStack

/-! ### The machine -/

abbrev Stack := List Bytes

structure EvalState where
  /-- what is left of the script -/
  pc : Bytes
  /-- the script from the last code separator on -/
  pbegincodehash : Bytes
  stack : Stack
  altstack : Stack
  vfExec : ConditionStack
  nOpCount : Int
  opcodePos : UInt32
  execdata : ScriptExecutionData

def maxScriptElementSize : Nat := 520
def maxOpsPerScript : Int := 201
def maxStackSize : Nat := 1000
def sequenceLocktimeDisableFlag : Nat := 2 ^ 31

def vchFalse : Bytes := []
def vchTrue : Bytes := [1]

def ofBool (b : Bool) : Bytes := if b then vchTrue else vchFalse

section
variable (env : ScriptEnv)

/-- The number a string stands for. -/
def ScriptEnv.scriptNum (vch : Bytes) (nMaxNumSize : Nat) : ScriptResult Int :=
  match decode vch (env.has minimaldata) nMaxNumSize with
  | none => .error .thrown
  | some n => .ok n

/-- Signatures are at most checked before tapscript. -/
def ScriptEnv.preTapscript : Bool := env.sigversion == .base || env.sigversion == .witnessV0

/-! ### Signatures -/

/-- The script that is signed: in scripts without a witness the signature is
taken out of it. -/
def removeSignature (vchSig scriptCode : Bytes) : ScriptResult Bytes :=
  if env.sigversion == .base then
    match findAndDelete scriptCode (pushData vchSig) with
    | (scriptCode, found) =>
      if 0 < found && env.has constScriptcode then fail .sigFindanddelete
      else .ok scriptCode
  else .ok scriptCode

/-- The answer of the checker, which may also end the process. -/
def ScriptEnv.checkECDSA (vchSig vchPubKey scriptCode : Bytes) : ScriptResult Bool :=
  match env.checker.checkECDSASignature vchSig vchPubKey scriptCode env.sigversion with
  | none => .error .aborted
  | some fSuccess => .ok fSuccess

def evalChecksigPreTapscript (vchSig vchPubKey pbegincodehash : Bytes) : ScriptResult Bool := do
  let scriptCode ← removeSignature env vchSig pbegincodehash
  checkSignatureEncoding env vchSig
  checkPubKeyEncoding env vchPubKey
  let fSuccess ← env.checkECDSA vchSig vchPubKey scriptCode
  if !fSuccess && env.has nullfail && !vchSig.isEmpty then fail .sigNullfail else .ok fSuccess

def validationWeightPerSigopPassed : Int := 50
def validationWeightOffset : Int := 50

/-- The test of the ratio between signatures and the size of the witness. -/
def chargeSigop (execdata : ScriptExecutionData) : ScriptResult ScriptExecutionData :=
  match execdata.validationWeightLeft with
  | none => .error .aborted
  | some left =>
    if left - validationWeightPerSigopPassed < 0 then fail .tapscriptValidationWeight
    else .ok { execdata with
      validationWeightLeft := some (left - validationWeightPerSigopPassed) }

/-- The weight is charged before the key is looked at. -/
def evalChecksigTapscript (sig pubkey : Bytes) (execdata : ScriptExecutionData) :
    ScriptResult (Bool × ScriptExecutionData) := do
  let success := !sig.isEmpty
  let execdata ← (if success then chargeSigop execdata else .ok execdata)
  if pubkey.isEmpty then fail .pubkeytype
  else if pubkey.length == 32 then
    if success then
      match env.checker.checkSchnorrSignature sig pubkey env.sigversion execdata with
      | none => .error .aborted
      | some (.error serror) => fail serror
      | some (.ok ()) => .ok (success, execdata)
    else .ok (success, execdata)
  else if env.has discourageUpgradablePubkeytype then fail .discourageUpgradablePubkeytype
  else .ok (success, execdata)

def evalChecksig (sig pubkey pbegincodehash : Bytes)
    (execdata : ScriptExecutionData) : ScriptResult (Bool × ScriptExecutionData) :=
  match env.sigversion with
  | .base | .witnessV0 => do
    let success ← evalChecksigPreTapscript env sig pubkey pbegincodehash
    .ok (success, execdata)
  | .tapscript => evalChecksigTapscript env sig pubkey execdata
  | .taproot => .error .aborted

/-- The loop of `OP_CHECKMULTISIG` over keys and signatures. Signatures have to
match keys in order, and the loop ends when more signatures than keys are left. -/
def checkMultisigLoop (env : ScriptEnv) (scriptCode : Bytes) : List Bytes → List Bytes →
    ScriptResult Bool
  | _, [] => .ok true
  | [], _ :: _ => .ok false
  | vchPubKey :: keys, vchSig :: sigs => do
    checkSignatureEncoding env vchSig
    checkPubKeyEncoding env vchPubKey
    let fOk ← env.checkECDSA vchSig vchPubKey scriptCode
    let sigs := if fOk then sigs else vchSig :: sigs
    if keys.length < sigs.length then .ok false else checkMultisigLoop env scriptCode keys sigs

/-- Takes every signature out of the script. -/
def removeSignatures (env : ScriptEnv) : List Bytes → Bytes → ScriptResult Bytes
  | [], scriptCode => .ok scriptCode
  | vchSig :: sigs, scriptCode => do
    removeSignatures env sigs (← removeSignature env vchSig scriptCode)

def maxPubkeysPerMultisigInt : Int := 20

/-- The loop of `OP_CHECKMULTISIG` that takes its arguments from the stack. The first
`ikey2` of them are not signatures; the other ones have to be empty after a failure. -/
def cleanUpMultisig (env : ScriptEnv) (fSuccess : Bool) : Nat → Nat → Stack → ScriptResult Stack
  | 0, _, stack => .ok stack
  | _ + 1, _, [] => .error .aborted
  | i + 1, ikey2, vch :: stack =>
    if !fSuccess && env.has nullfail && (ikey2 == 0 && !vch.isEmpty) then fail .sigNullfail
    else cleanUpMultisig env fSuccess i (ikey2 - 1) stack

/-- The result of `OP_CHECKMULTISIG` for the given signatures and keys, and the stack
without its arguments; it takes one string too many, the dummy. -/
def evalMultisig (pbegincodehash : Bytes) (keys sigs : List Bytes) (stack : Stack) :
    ScriptResult (Bool × Stack) := do
  let scriptCode ← removeSignatures env sigs pbegincodehash
  let fSuccess ← checkMultisigLoop env scriptCode keys sigs
  match ← cleanUpMultisig env fSuccess (keys.length + sigs.length + 2) (keys.length + 2) stack with
  | [] => fail .invalidStackOperation
  | dummy :: stack =>
    if env.has nulldummy && !dummy.isEmpty then fail .sigNulldummy else .ok (fSuccess, stack)

/-! ### Instructions -/

/-- The result of an operation with a variant that consumes it. -/
def pushResult (verify fSuccess : Bool) (serror : ScriptError) (st : EvalState) (stack : Stack) :
    ScriptResult EvalState :=
  if !verify then .ok { st with stack := ofBool fSuccess :: stack }
  else if fSuccess then .ok { st with stack := stack }
  else fail serror

/-- `OP_CHECKMULTISIG`: the keys under their number, the signatures under
theirs, and the dummy. -/
def evalCheckmultisig (verify : Bool) (st : EvalState) : ScriptResult EvalState :=
  if env.sigversion == .tapscript then fail .tapscriptCheckmultisig
  else
    match st.stack with
    | [] => fail .invalidStackOperation
    | vchKeys :: stack => do
      let nKeysCount := getint (← env.scriptNum vchKeys nDefaultMaxNumSize)
      if nKeysCount < 0 ∨ maxPubkeysPerMultisigInt < nKeysCount then fail .pubkeyCount
      else if maxOpsPerScript < st.nOpCount + nKeysCount then fail .opCount
      else
        let keys := stack.take nKeysCount.toNat
        match stack.drop nKeysCount.toNat with
        | [] => fail .invalidStackOperation
        | vchSigs :: stack =>
          let nSigsCount := getint (← env.scriptNum vchSigs nDefaultMaxNumSize)
          if nSigsCount < 0 ∨ nKeysCount < nSigsCount then fail .sigCount
          else
            let sigs := stack.take nSigsCount.toNat
            match stack.drop nSigsCount.toNat with
            | [] => fail .invalidStackOperation
            | _ :: _ =>
              let (fSuccess, stack) ← evalMultisig env st.pbegincodehash keys sigs st.stack
              pushResult verify fSuccess .checkmultisigverify
                { st with nOpCount := st.nOpCount + nKeysCount } stack

/-- `OP_PICK` and `OP_ROLL`. -/
def evalPick (roll : Bool) : Stack → ScriptResult Stack
  | vch :: x :: rest => do
    let n := getint (← env.scriptNum vch nDefaultMaxNumSize)
    let stack := x :: rest
    if n < 0 ∨ stack.length ≤ n then fail .invalidStackOperation
    else .ok (stack.getD n.toNat [] :: if roll then stack.eraseIdx n.toNat else stack)
  | _ => fail .invalidStackOperation

/-- What the instructions that move strings do to the two stacks. -/
def evalStackOp : StackOp → Stack → Stack → ScriptResult (Stack × Stack)
  | .toaltstack, x :: s, alt => .ok (s, x :: alt)
  | .fromaltstack, s, x :: alt => .ok (x :: s, alt)
  | .fromaltstack, _, [] => fail .invalidAltstackOperation
  | .drop2, _ :: _ :: s, alt => .ok (s, alt)
  | .dup2, x2 :: x1 :: s, alt => .ok (x2 :: x1 :: x2 :: x1 :: s, alt)
  | .dup3, x3 :: x2 :: x1 :: s, alt => .ok (x3 :: x2 :: x1 :: x3 :: x2 :: x1 :: s, alt)
  | .over2, x4 :: x3 :: x2 :: x1 :: s, alt => .ok (x2 :: x1 :: x4 :: x3 :: x2 :: x1 :: s, alt)
  | .rot2, x6 :: x5 :: x4 :: x3 :: x2 :: x1 :: s, alt =>
    .ok (x2 :: x1 :: x6 :: x5 :: x4 :: x3 :: s, alt)
  | .swap2, x4 :: x3 :: x2 :: x1 :: s, alt => .ok (x2 :: x1 :: x4 :: x3 :: s, alt)
  | .ifdup, x :: s, alt => .ok (if castToBool x then x :: x :: s else x :: s, alt)
  | .depth, s, alt => .ok (serialize s.length :: s, alt)
  | .drop, _ :: s, alt => .ok (s, alt)
  | .dup, x :: s, alt => .ok (x :: x :: s, alt)
  | .nip, x2 :: _ :: s, alt => .ok (x2 :: s, alt)
  | .over, x2 :: x1 :: s, alt => .ok (x1 :: x2 :: x1 :: s, alt)
  | .pick, s, alt => do .ok (← evalPick env false s, alt)
  | .roll, s, alt => do .ok (← evalPick env true s, alt)
  | .rot, x3 :: x2 :: x1 :: s, alt => .ok (x1 :: x3 :: x2 :: s, alt)
  | .swap, x2 :: x1 :: s, alt => .ok (x1 :: x2 :: s, alt)
  | .tuck, x2 :: x1 :: s, alt => .ok (x2 :: x1 :: x2 :: s, alt)
  | _, _, _ => fail .invalidStackOperation

def ofProp (p : Prop) [Decidable p] : Int := if p then 1 else 0

def UnaryOp.apply : UnaryOp → Int → Int
  | .add1, bn => bn + 1
  | .sub1, bn => bn - 1
  | .negate, bn => -bn
  | .abs, bn => if bn < 0 then -bn else bn
  | .not, bn => ofProp (bn = 0)
  | .notequal0, bn => ofProp (bn ≠ 0)

def BinaryOp.apply : BinaryOp → Int → Int → Int
  | .add, bn1, bn2 => bn1 + bn2
  | .sub, bn1, bn2 => bn1 - bn2
  | .booland, bn1, bn2 => ofProp (bn1 ≠ 0 ∧ bn2 ≠ 0)
  | .boolor, bn1, bn2 => ofProp (bn1 ≠ 0 ∨ bn2 ≠ 0)
  | .numequal, bn1, bn2 => ofProp (bn1 = bn2)
  | .numequalverify, bn1, bn2 => ofProp (bn1 = bn2)
  | .numnotequal, bn1, bn2 => ofProp (bn1 ≠ bn2)
  | .lessthan, bn1, bn2 => ofProp (bn1 < bn2)
  | .greaterthan, bn1, bn2 => ofProp (bn1 > bn2)
  | .lessthanorequal, bn1, bn2 => ofProp (bn1 ≤ bn2)
  | .greaterthanorequal, bn1, bn2 => ofProp (bn1 ≥ bn2)
  | .min, bn1, bn2 => if bn1 < bn2 then bn1 else bn2
  | .max, bn1, bn2 => if bn1 > bn2 then bn1 else bn2

def HashOp.apply : HashOp → Bytes → Bytes
  | .ripemd160, vch => Crypto.ripemd160 vch
  | .sha1, vch => Crypto.sha1 vch
  | .sha256, vch => Crypto.sha256 vch
  | .hash160, vch => Crypto.hash160 vch
  | .hash256, vch => (Lithium.hash256 vch).data

/-- `OP_CHECKLOCKTIMEVERIFY` and `OP_CHECKSEQUENCEVERIFY`: a time on the stack,
which stays there, is compared with the transaction. -/
def evalLockTime (flag : UInt32) (satisfied : Int → Bool) (st : EvalState) :
    ScriptResult EvalState :=
  if !env.has flag then .ok st
  else
    match st.stack with
    | [] => fail .invalidStackOperation
    | vch :: _ => do
      -- Five bytes, since times go beyond the numbers of four bytes.
      let n ← env.scriptNum vch 5
      if n < 0 then fail .negativeLocktime
      else if !satisfied n then fail .unsatisfiedLocktime
      else .ok st

/-- `OP_IF` and `OP_NOTIF`. -/
def evalConditional (negated fExec : Bool) (st : EvalState) : ScriptResult EvalState :=
  if !fExec then .ok { st with vfExec := st.vfExec.pushBack false }
  else
    match st.stack with
    | [] => fail .unbalancedConditional
    | vch :: stack =>
      let minimal := vch == [] || vch == [1]
      if env.sigversion == .tapscript && !minimal then fail .tapscriptMinimalif
      else if env.sigversion == .witnessV0 && env.has minimalif && !minimal then
        fail .minimalif
      else
        .ok { st with
          stack
          vfExec := st.vfExec.pushBack (if negated then !castToBool vch else castToBool vch) }

def evalUnary (op : UnaryOp) : Stack → ScriptResult Stack
  | vch :: stack => do
    .ok (serialize (op.apply (← env.scriptNum vch nDefaultMaxNumSize)) :: stack)
  | _ => fail .invalidStackOperation

def evalBinary (op : BinaryOp) : Stack → ScriptResult Stack
  | vch2 :: vch1 :: stack => do
    let bn1 ← env.scriptNum vch1 nDefaultMaxNumSize
    let bn2 ← env.scriptNum vch2 nDefaultMaxNumSize
    let vch := serialize (op.apply bn1 bn2)
    if op = .numequalverify then if castToBool vch then .ok stack else fail .numequalverify
    else .ok (vch :: stack)
  | _ => fail .invalidStackOperation

def evalWithin : Stack → ScriptResult Stack
  | vch3 :: vch2 :: vch1 :: stack => do
    let bn1 ← env.scriptNum vch1 nDefaultMaxNumSize
    let bn2 ← env.scriptNum vch2 nDefaultMaxNumSize
    let bn3 ← env.scriptNum vch3 nDefaultMaxNumSize
    .ok (ofBool (bn2 ≤ bn1 && bn1 < bn3) :: stack)
  | _ => fail .invalidStackOperation

def evalChecksigadd (st : EvalState) : ScriptResult EvalState :=
  if env.preTapscript then fail .badOpcode
  else
    match st.stack with
    | pubkey :: vch :: sig :: stack => do
      let num ← env.scriptNum vch nDefaultMaxNumSize
      let (success, execdata) ← evalChecksig env sig pubkey st.pbegincodehash st.execdata
      .ok { st with stack := serialize (num + if success then 1 else 0) :: stack, execdata }
    | _ => fail .invalidStackOperation

/-- The `switch` of `EvalScript`; the script has been advanced past the
instruction. -/
def evalInstruction (fExec : Bool) (st : EvalState) : Instruction → ScriptResult EvalState
  | .number n => .ok { st with stack := serialize n :: st.stack }
  | .nop => .ok st
  | .checklocktimeverify =>
    evalLockTime env checklocktimeverify env.checker.checkLockTime st
  | .checksequenceverify =>
    -- An operand with the disable flag is compared with nothing.
    evalLockTime env checksequenceverify
      (fun n => n.toNat &&& sequenceLocktimeDisableFlag != 0 || env.checker.checkSequence n) st
  | .upgradableNop =>
    if env.has discourageUpgradableNops then fail .discourageUpgradableNops
    else .ok st
  | .conditional negated => evalConditional env negated fExec st
  | .alternative =>
    if st.vfExec.empty then fail .unbalancedConditional
    else .ok { st with vfExec := st.vfExec.toggleTop }
  | .endif =>
    if st.vfExec.empty then fail .unbalancedConditional
    else .ok { st with vfExec := st.vfExec.popBack }
  | .verify =>
    match st.stack with
    | [] => fail .invalidStackOperation
    | vch :: stack => if castToBool vch then .ok { st with stack } else fail .verify
  | .ret => fail .opReturn
  | .stack op => do
    let (stack, altstack) ← evalStackOp env op st.stack st.altstack
    .ok { st with stack, altstack }
  | .size =>
    match st.stack with
    | [] => fail .invalidStackOperation
    | vch :: _ => .ok { st with stack := serialize vch.length :: st.stack }
  | .equal verify =>
    match st.stack with
    | vch2 :: vch1 :: stack => pushResult verify (vch1 == vch2) .equalverify st stack
    | _ => fail .invalidStackOperation
  | .unary op => do .ok { st with stack := ← evalUnary env op st.stack }
  | .binary op => do .ok { st with stack := ← evalBinary env op st.stack }
  | .within => do .ok { st with stack := ← evalWithin env st.stack }
  | .hash op =>
    match st.stack with
    | [] => fail .invalidStackOperation
    | vch :: stack => .ok { st with stack := op.apply vch :: stack }
  | .codeseparator =>
    .ok { st with
      pbegincodehash := st.pc
      execdata := { st.execdata with codeseparatorPos := some st.opcodePos } }
  | .checksig verify =>
    match st.stack with
    | vchPubKey :: vchSig :: stack => do
      let (fSuccess, execdata) ← evalChecksig env vchSig vchPubKey st.pbegincodehash st.execdata
      pushResult verify fSuccess .checksigverify { st with execdata } stack
    | _ => fail .invalidStackOperation
  | .checksigadd => evalChecksigadd env st
  | .checkmultisig verify => evalCheckmultisig env verify st

/-! ### Evaluation -/

/-- What an instruction does once it may be executed or is part of a condition. -/
def evalOpcode (opcode : Nat) (vchPushValue : Bytes) (st : EvalState) : ScriptResult EvalState :=
  let fExec := st.vfExec.allTrue
  if fExec && opcode ≤ opPushdata4 then
    if env.has minimaldata && !checkMinimalPush vchPushValue opcode then
      fail .minimaldata
    else .ok { st with stack := vchPushValue :: st.stack }
  else if fExec || (opIf ≤ opcode && opcode ≤ opEndif) then
    match instruction opcode with
    | none => fail .badOpcode
    | some i => evalInstruction env fExec st i
  else .ok st

/-- One turn of the loop of `EvalScript`. -/
def evalStep (st : EvalState) : ScriptResult EvalState :=
  match getScriptOp st.pc with
  | none => fail .badOpcode
  | some (opcode, vchPushValue, pc) =>
    let nOpCount :=
      if env.preTapscript && op16 < opcode then st.nOpCount + 1 else st.nOpCount
    if maxScriptElementSize < vchPushValue.length then fail .pushSize
    else if env.preTapscript && op16 < opcode && maxOpsPerScript < nOpCount then fail .opCount
    else if opcode ∈ disabledOpcodes then fail .disabledOpcode
    else if opcode = opCodeseparator && env.sigversion == .base &&
        env.has constScriptcode then
      fail .opCodeseparator
    else do
      let st ← evalOpcode env opcode vchPushValue { st with pc, nOpCount }
      if maxStackSize < st.stack.length + st.altstack.length then fail .stackSize
      else .ok { st with opcodePos := st.opcodePos + 1 }

/-- The loop; `n` bounds the instructions left. -/
def evalLoop (env : ScriptEnv) : Nat → EvalState → ScriptResult EvalState
  | 0, st => .ok st
  | n + 1, st =>
    if st.pc.isEmpty then .ok st else do evalLoop env n (← evalStep env st)

/-- Every instruction takes at least a byte, so the length bounds the loop. -/
def evalScript (stack : Stack) (script : Bytes)
    (execdata : ScriptExecutionData) : ScriptResult Stack :=
  if env.sigversion == .taproot then .error .aborted
  else if env.preTapscript && maxScriptSize < script.length then fail .scriptSize
  else
    match evalLoop env script.length
        { pc := script, pbegincodehash := script, stack, altstack := [], vfExec := .new,
          nOpCount := 0, opcodePos := 0,
          execdata := { execdata with codeseparatorPos := some 0xffffffff } } with
    | .error .thrown => fail .unknownError
    | .error e => .error e
    | .ok st => if !st.vfExec.empty then fail .unbalancedConditional else .ok st.stack

/-! ### Witness programs -/

/-- The search for an `OP_SUCCESSx`, which makes a tapscript succeed at once. -/
def opSuccessLoop : Nat → Bytes → ScriptResult Bool
  | 0, _ => .ok false
  | n + 1, pc =>
    if pc.isEmpty then .ok false
    else
      match getScriptOp pc with
      | none => fail .badOpcode
      | some (opcode, _, rest) => if isOpSuccess opcode then .ok true else opSuccessLoop n rest

def executeWitnessScript (stack : Stack) (execScript : Bytes)
    (execdata : ScriptExecutionData) : ScriptResult Unit := do
  let opSuccess ←
    (if env.sigversion == .tapscript then opSuccessLoop execScript.length execScript else .ok false)
  if opSuccess then
    if env.has discourageOpSuccess then fail .discourageOpSuccess else .ok ()
  else if env.sigversion == .tapscript && maxStackSize < stack.length then fail .stackSize
  else if stack.any fun elem => maxScriptElementSize < elem.length then fail .pushSize
  else
    match ← evalScript env stack execScript execdata with
    | [vch] => if castToBool vch then .ok () else fail .evalFalse
    | _ => fail .cleanstack

def taprootControlBaseSize : Nat := 33
def taprootControlNodeSize : Nat := 32
def taprootControlMaxSize : Nat := taprootControlBaseSize + taprootControlNodeSize * 128
def taprootLeafMask : UInt8 := 0xfe
def taprootLeafTapscript : UInt8 := 0xc0
def annexTag : UInt8 := 0x50

/-- The digest of a `HashWriter` made by `TaggedHash`. -/
def taggedHash (tag : String) (bs : Bytes) : Uint256 :=
  let taghash := sha256 (tag.toList.map fun c => UInt8.ofNat c.toNat)
  sha256Once (taghash ++ taghash ++ bs)

def computeTapleafHash (leafVersion : UInt8) (script : Bytes) : Uint256 :=
  taggedHash "TapLeaf" (leafVersion :: serBytes script)

/-- Order of byte strings, as of `std::lexicographical_compare`. -/
def bytesLess : Bytes → Bytes → Bool
  | [], b => !b.isEmpty
  | _ :: _, [] => false
  | x :: a, y :: b => x < y || (x == y && bytesLess a b)

def computeTapbranchHash (a b : Bytes) : Uint256 :=
  taggedHash "TapBranch" (if bytesLess a b then a ++ b else b ++ a)

/-- The loop of `ComputeTaprootMerkleRoot` over the nodes of a path. -/
def taprootMerkleRootLoop : Nat → Bytes → Uint256 → Uint256
  | 0, _, k => k
  | n + 1, nodes, k =>
    taprootMerkleRootLoop n (nodes.drop taprootControlNodeSize)
      (computeTapbranchHash k.data (nodes.take taprootControlNodeSize))

def computeTaprootMerkleRoot (control : Bytes) (tapleafHash : Uint256) : Uint256 :=
  taprootMerkleRootLoop ((control.length - taprootControlBaseSize) / taprootControlNodeSize)
    (control.drop taprootControlBaseSize) tapleafHash

def verifyTaprootCommitment (keys : PubKeyOps) (control program : Bytes) (tapleafHash : Uint256) :
    Bool :=
  keys.checkTapTweak program ((control.drop 1).take (taprootControlBaseSize - 1))
    (computeTaprootMerkleRoot control tapleafHash) (control.getD 0 0 &&& 1 != 0)

/-- The annex, if there is one, and the rest of a witness; last element first. -/
def takeAnnex : List Bytes → Option Bytes × List Bytes
  | annex :: x :: stack =>
    if annex.head? = some annexTag then (some annex, x :: stack) else (none, annex :: x :: stack)
  | stack => (none, stack)

section
variable (witness : List Bytes)

/-- The script path of a taproot spend; the stack starts below the control block
and the script. -/
def verifyTaprootScript (program control script : Bytes)
    (stack : Stack) (execdata : ScriptExecutionData) : ScriptResult Unit :=
  if control.length < taprootControlBaseSize || taprootControlMaxSize < control.length ||
      (control.length - taprootControlBaseSize) % taprootControlNodeSize != 0 then
    fail .taprootWrongControlSize
  else
    let leafVersion := control.getD 0 0 &&& taprootLeafMask
    let tapleafHash := computeTapleafHash leafVersion script
    if !verifyTaprootCommitment env.keys control program tapleafHash then
      fail .witnessProgramMismatch
    else if leafVersion == taprootLeafTapscript then
      executeWitnessScript { env with sigversion := .tapscript } stack script
        { execdata with
          tapleafHash := some tapleafHash
          validationWeightLeft :=
            some ((serVector serBytes witness).length + validationWeightOffset) }
    else if env.has discourageUpgradableTaprootVersion then
      fail .discourageUpgradableTaprootVersion
    else .ok ()

/-- The branch of `VerifyWitnessProgram` for taproot outputs, under the flag. -/
def verifyTaproot (program : Bytes) : ScriptResult Unit :=
  match takeAnnex witness.reverse with
  | (annex, stack) =>
    let execdata : ScriptExecutionData :=
      { annexHash := some (annex.map fun a => sha256Once (serBytes a)) }
    match stack with
    | [] => fail .witnessProgramWitnessEmpty
    | [sig] =>
      match env.checker.checkSchnorrSignature sig program .taproot execdata with
      | none => .error .aborted
      | some (.error serror) => fail serror
      | some (.ok ()) => .ok ()
    | control :: script :: stack =>
      verifyTaprootScript env witness program control script stack execdata

/-- The branch of `VerifyWitnessProgram` for version 0. -/
def verifyWitnessV0 (program : Bytes) : ScriptResult Unit :=
  let env := { env with sigversion := .witnessV0 }
  if program.length = 32 then
    match witness.reverse with
    | [] => fail .witnessProgramWitnessEmpty
    | execScript :: stack =>
      if sha256 execScript ≠ program then fail .witnessProgramMismatch
      else executeWitnessScript env stack execScript {}
  else if program.length = 20 then
    if witness.length ≠ 2 then fail .witnessProgramMismatch
    else
      executeWitnessScript env witness.reverse
        ([UInt8.ofNat opDup, UInt8.ofNat opHash160] ++ pushData program ++
          [UInt8.ofNat opEqualverify, UInt8.ofNat opChecksig]) {}
  else fail .witnessProgramWrongLength

def verifyWitnessProgram (witversion : Nat) (program : Bytes) (isP2sh : Bool) : ScriptResult Unit :=
  if witversion = 0 then verifyWitnessV0 env witness program
  else if witversion = 1 ∧ program.length = 32 ∧ isP2sh = false then
    if env.has taproot then verifyTaproot env witness program else .ok ()
  else if env.has discourageUpgradableWitnessProgram then
    fail .discourageUpgradableWitnessProgram
  else .ok ()

/-! ### Verification -/

/-- The top of the stack is there and true. -/
def stackSucceeds : Stack → Bool
  | [] => false
  | vch :: _ => castToBool vch

def resizeStack (stack : Stack) : Stack := stack.drop (stack.length - 1)

/-- The part of `VerifyScript` for outputs that are witness programs. The result
tells whether there was one, and what the stack is afterwards. -/
def verifyBareWitness (scriptSig scriptPubKey : Bytes) (witness : List Bytes)
    (stack : Stack) : ScriptResult (Bool × Stack) :=
  match if env.has ScriptVerify.witness then isWitnessProgram scriptPubKey else none with
  | none => .ok (false, stack)
  | some (witversion, program) =>
    if !scriptSig.isEmpty then fail .witnessMalleated
    else do
      verifyWitnessProgram env witness witversion program false
      .ok (true, resizeStack stack)

/-- The script behind a hash, after it has been evaluated. -/
def verifyP2shWitness (scriptSig pubKey2 : Bytes) (witness : List Bytes)
    (hadWitness : Bool) (stack : Stack) : ScriptResult (Bool × Stack) :=
  match if env.has ScriptVerify.witness then isWitnessProgram pubKey2 else none with
  | none => .ok (hadWitness, stack)
  | some (witversion, program) =>
    if scriptSig ≠ pushData pubKey2 then fail .witnessMalleatedP2sh
    else do
      verifyWitnessProgram env witness witversion program true
      .ok (true, resizeStack stack)

/-- The part of `VerifyScript` for outputs that pay to a script hash; the stack
that the input script left is evaluated again. -/
def verifyP2sh (scriptSig scriptPubKey : Bytes) (witness : List Bytes)
    (hadWitness : Bool) (stackCopy stack : Stack) : ScriptResult (Bool × Stack) :=
  if env.has p2sh && isPayToScriptHash scriptPubKey then
    if !isPushOnly scriptSig then fail .sigPushonly
    else
      match stackCopy with
      | [] => .error .aborted
      | pubKey2 :: stack => do
        let stack ← evalScript env stack pubKey2 {}
        if !stackSucceeds stack then fail .evalFalse
        else verifyP2shWitness env scriptSig pubKey2 witness hadWitness stack
  else .ok (hadWitness, stack)

/-- The end of `VerifyScript`. -/
def verifyClean (hadWitness : Bool) (stack : Stack) : ScriptResult Unit :=
  if env.has cleanstack &&
      !(env.has ScriptVerify.p2sh && env.has ScriptVerify.witness) then
    .error .aborted
  else if env.has cleanstack && stack.length != 1 then fail .cleanstack
  else if env.has ScriptVerify.witness && !env.has ScriptVerify.p2sh then .error .aborted
  else if env.has ScriptVerify.witness && !hadWitness && !witness.isEmpty then
    fail .witnessUnexpected
  else .ok ()

end
end

def verifyScript (keys : PubKeyOps) (scriptSig scriptPubKey : Bytes) (witness : List Bytes)
    (flags : UInt32) (checker : BaseSignatureChecker) : ScriptResult Unit :=
  let env : ScriptEnv := ⟨flags, .base, checker, keys⟩
  if env.has sigpushonly && !isPushOnly scriptSig then fail .sigPushonly
  else do
    let stackCopy ← evalScript env [] scriptSig {}
    let stack ← evalScript env stackCopy scriptPubKey {}
    if !stackSucceeds stack then fail .evalFalse
    else
      let (hadWitness, stack) ← verifyBareWitness env scriptSig scriptPubKey witness stack
      let (hadWitness, stack) ←
        verifyP2sh env scriptSig scriptPubKey witness hadWitness stackCopy stack
      verifyClean env witness hadWitness stack

/-! ### Signature operations of witnesses -/

def witnessSigOps (witversion : Nat) (witprogram : Bytes) (witness : List Bytes) : Nat :=
  if witversion = 0 then
    if witprogram.length = 20 then 1
    else if witprogram.length = 32 then
      match witness.getLast? with
      | none => 0
      | some subscript => (scriptSigOpCount subscript true).toNat
    else 0
  else 0

/-- `CountWitnessSigOps`; nothing when its assertion fails. -/
def countWitnessSigOps (scriptSig scriptPubKey : Bytes) (witness : List Bytes) (flags : UInt32) :
    Option Nat :=
  if !hasFlag flags ScriptVerify.witness then some 0
  else if !hasFlag flags p2sh then none
  else
    match isWitnessProgram scriptPubKey with
    | some (witversion, program) => some (witnessSigOps witversion program witness)
    | none =>
      if isPayToScriptHash scriptPubKey && isPushOnly scriptSig then
        match (lastPushLoop scriptSig.length scriptSig []).bind isWitnessProgram with
        | some (witversion, program) => some (witnessSigOps witversion program witness)
        | none => some 0
      else some 0

end Lithium
