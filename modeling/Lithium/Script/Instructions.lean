import Lithium.Script

/-!
# Instructions of scripts

What an opcode stands for, the reasons for which a script can fail, and the
shapes of scripts that the interpreter treats specially (`script/script.h`,
`script/script.cpp` and `script/script_error.h`). Opcodes that differ only in
the operation they apply are one instruction with a parameter.
-/

namespace Lithium
open Lib
namespace Opcode

def op0 : Nat := 0x00
def op1negate : Nat := 0x4f
def opIf : Nat := 0x63
def opEndif : Nat := 0x68
def opCodeseparator : Nat := 0xab

end Opcode

open Opcode

/-! ### Failures -/

/-- `ScriptError` without `SCRIPT_ERR_OK`. -/
inductive ScriptError where
  | unknownError | evalFalse | opReturn
  | scriptSize | pushSize | opCount | stackSize | sigCount | pubkeyCount
  | verify | equalverify | checkmultisigverify | checksigverify | numequalverify
  | badOpcode | disabledOpcode | invalidStackOperation | invalidAltstackOperation
  | unbalancedConditional
  | negativeLocktime | unsatisfiedLocktime
  | sigHashtype | sigDer | minimaldata | sigPushonly | sigHighS | sigNulldummy | pubkeytype
  | cleanstack | minimalif | sigNullfail
  | discourageUpgradableNops | discourageUpgradableWitnessProgram
  | discourageUpgradableTaprootVersion | discourageOpSuccess | discourageUpgradablePubkeytype
  | witnessProgramWrongLength | witnessProgramWitnessEmpty | witnessProgramMismatch
  | witnessMalleated | witnessMalleatedP2sh | witnessUnexpected | witnessPubkeytype
  | schnorrSigSize | schnorrSigHashtype | schnorrSig | taprootWrongControlSize
  | tapscriptValidationWeight | tapscriptCheckmultisig | tapscriptMinimalif
  | opCodeseparator | sigFindanddelete
deriving DecidableEq

def ScriptError.string : ScriptError → String
  | .unknownError => "unknown error"
  | .evalFalse =>
    "Script evaluated without error but finished with a false/empty top stack element"
  | .opReturn => "OP_RETURN was encountered"
  | .scriptSize => "Script is too big"
  | .pushSize => "Push value size limit exceeded"
  | .opCount => "Operation limit exceeded"
  | .stackSize => "Stack size limit exceeded"
  | .sigCount => "Signature count negative or greater than pubkey count"
  | .pubkeyCount => "Pubkey count negative or limit exceeded"
  | .verify => "Script failed an OP_VERIFY operation"
  | .equalverify => "Script failed an OP_EQUALVERIFY operation"
  | .checkmultisigverify => "Script failed an OP_CHECKMULTISIGVERIFY operation"
  | .checksigverify => "Script failed an OP_CHECKSIGVERIFY operation"
  | .numequalverify => "Script failed an OP_NUMEQUALVERIFY operation"
  | .badOpcode => "Opcode missing or not understood"
  | .disabledOpcode => "Attempted to use a disabled opcode"
  | .invalidStackOperation => "Operation not valid with the current stack size"
  | .invalidAltstackOperation => "Operation not valid with the current altstack size"
  | .unbalancedConditional => "Invalid OP_IF construction"
  | .negativeLocktime => "Negative locktime"
  | .unsatisfiedLocktime => "Locktime requirement not satisfied"
  | .sigHashtype => "Signature hash type missing or not understood"
  | .sigDer => "Non-canonical DER signature"
  | .minimaldata => "Data push larger than necessary"
  | .sigPushonly => "Only push operators allowed in signatures"
  | .sigHighS => "Non-canonical signature: S value is unnecessarily high"
  | .sigNulldummy => "Dummy CHECKMULTISIG argument must be zero"
  | .pubkeytype => "Public key is neither compressed or uncompressed"
  | .cleanstack => "Stack size must be exactly one after execution"
  | .minimalif => "OP_IF/NOTIF argument must be minimal"
  | .sigNullfail => "Signature must be zero for failed CHECK(MULTI)SIG operation"
  | .discourageUpgradableNops => "NOPx reserved for soft-fork upgrades"
  | .discourageUpgradableWitnessProgram => "Witness version reserved for soft-fork upgrades"
  | .discourageUpgradableTaprootVersion => "Taproot version reserved for soft-fork upgrades"
  | .discourageOpSuccess => "OP_SUCCESSx reserved for soft-fork upgrades"
  | .discourageUpgradablePubkeytype => "Public key version reserved for soft-fork upgrades"
  | .witnessProgramWrongLength => "Witness program has incorrect length"
  | .witnessProgramWitnessEmpty => "Witness program was passed an empty witness"
  | .witnessProgramMismatch => "Witness program hash mismatch"
  | .witnessMalleated => "Witness requires empty scriptSig"
  | .witnessMalleatedP2sh => "Witness requires only-redeemscript scriptSig"
  | .witnessUnexpected => "Witness provided for non-witness script"
  | .witnessPubkeytype => "Using non-compressed keys in segwit"
  | .schnorrSigSize => "Invalid Schnorr signature size"
  | .schnorrSigHashtype => "Invalid Schnorr signature hash type"
  | .schnorrSig => "Invalid Schnorr signature"
  | .taprootWrongControlSize => "Invalid Taproot control block size"
  | .tapscriptValidationWeight => "Too much signature validation relative to witness weight"
  | .tapscriptCheckmultisig => "OP_CHECKMULTISIG(VERIFY) is not available in tapscript"
  | .tapscriptMinimalif => "OP_IF/NOTIF argument must be minimal in tapscript"
  | .opCodeseparator => "Using OP_CODESEPARATOR in non-witness script"
  | .sigFindanddelete => "Signature is found in scriptCode"

/-! ### Opcodes -/

inductive StackOp where
  | toaltstack | fromaltstack | drop2 | dup2 | dup3 | over2 | rot2 | swap2 | ifdup | depth | drop
  | dup | nip | over | pick | roll | rot | swap | tuck
deriving DecidableEq

inductive UnaryOp where
  | add1 | sub1 | negate | abs | not | notequal0
deriving DecidableEq

inductive BinaryOp where
  | add | sub | booland | boolor | numequal | numequalverify | numnotequal | lessthan | greaterthan
  | lessthanorequal | greaterthanorequal | min | max
deriving DecidableEq

inductive HashOp where
  | ripemd160 | sha1 | sha256 | hash160 | hash256
deriving DecidableEq

/-- The cases of the `switch` of `EvalScript`; the argument `verify` tells the
variants that consume their result. -/
inductive Instruction where
  | number (n : Int)
  | nop | checklocktimeverify | checksequenceverify | upgradableNop
  | conditional (negated : Bool) | alternative | endif | verify | ret
  | stack (op : StackOp)
  | size | equal (verify : Bool)
  | unary (op : UnaryOp) | binary (op : BinaryOp) | within
  | hash (op : HashOp) | codeseparator
  | checksig (verify : Bool) | checksigadd | checkmultisig (verify : Bool)
deriving DecidableEq

/-- The opcodes that are not plain pushes and are not disabled. -/
def instructionTable : List (Nat × Instruction) :=
  [(0x4f, .number (-1)), (0x51, .number 1), (0x52, .number 2), (0x53, .number 3), (0x54, .number 4),
    (0x55, .number 5), (0x56, .number 6), (0x57, .number 7), (0x58, .number 8), (0x59, .number 9),
    (0x5a, .number 10), (0x5b, .number 11), (0x5c, .number 12), (0x5d, .number 13),
    (0x5e, .number 14), (0x5f, .number 15), (0x60, .number 16),
    (0x61, .nop), (0x63, .conditional false), (0x64, .conditional true), (0x67, .alternative),
    (0x68, .endif), (0x69, .verify), (0x6a, .ret),
    (0x6b, .stack .toaltstack), (0x6c, .stack .fromaltstack), (0x6d, .stack .drop2),
    (0x6e, .stack .dup2), (0x6f, .stack .dup3), (0x70, .stack .over2), (0x71, .stack .rot2),
    (0x72, .stack .swap2), (0x73, .stack .ifdup), (0x74, .stack .depth), (0x75, .stack .drop),
    (0x76, .stack .dup), (0x77, .stack .nip), (0x78, .stack .over), (0x79, .stack .pick),
    (0x7a, .stack .roll), (0x7b, .stack .rot), (0x7c, .stack .swap), (0x7d, .stack .tuck),
    (0x82, .size), (0x87, .equal false), (0x88, .equal true),
    (0x8b, .unary .add1), (0x8c, .unary .sub1), (0x8f, .unary .negate), (0x90, .unary .abs),
    (0x91, .unary .not), (0x92, .unary .notequal0),
    (0x93, .binary .add), (0x94, .binary .sub), (0x9a, .binary .booland), (0x9b, .binary .boolor),
    (0x9c, .binary .numequal), (0x9d, .binary .numequalverify), (0x9e, .binary .numnotequal),
    (0x9f, .binary .lessthan), (0xa0, .binary .greaterthan), (0xa1, .binary .lessthanorequal),
    (0xa2, .binary .greaterthanorequal), (0xa3, .binary .min), (0xa4, .binary .max),
      (0xa5, .within),
    (0xa6, .hash .ripemd160), (0xa7, .hash .sha1), (0xa8, .hash .sha256), (0xa9, .hash .hash160),
    (0xaa, .hash .hash256), (0xab, .codeseparator), (0xac, .checksig false), (0xad, .checksig true),
    (0xae, .checkmultisig false), (0xaf, .checkmultisig true), (0xb0, .upgradableNop),
    (0xb1, .checklocktimeverify), (0xb2, .checksequenceverify), (0xb3, .upgradableNop),
    (0xb4, .upgradableNop), (0xb5, .upgradableNop), (0xb6, .upgradableNop), (0xb7, .upgradableNop),
    (0xb8, .upgradableNop), (0xb9, .upgradableNop), (0xba, .checksigadd)]

/-- The case of the `switch` that an opcode selects; nothing for the default. -/
def instruction (opcode : Nat) : Option Instruction := instructionTable.lookup opcode

/-- `OP_CAT`, `OP_SUBSTR`, `OP_LEFT`, `OP_RIGHT`, `OP_INVERT`, `OP_AND`, `OP_OR`,
`OP_XOR`, `OP_2MUL`, `OP_2DIV`, `OP_MUL`, `OP_DIV`, `OP_MOD`, `OP_LSHIFT` and
`OP_RSHIFT`. -/
def disabledOpcodes : List Nat :=
  [0x7e, 0x7f, 0x80, 0x81, 0x83, 0x84, 0x85, 0x86, 0x8d, 0x8e, 0x95, 0x96, 0x97, 0x98, 0x99]

def isOpSuccess (opcode : Nat) : Bool :=
  opcode == 80 || opcode == 98 || (126 ≤ opcode && opcode ≤ 129) ||
    (131 ≤ opcode && opcode ≤ 134) || (137 ≤ opcode && opcode ≤ 138) ||
    (141 ≤ opcode && opcode ≤ 142) || (149 ≤ opcode && opcode ≤ 153) ||
    (187 ≤ opcode && opcode ≤ 254)

/-! ### Operands -/

/-- For opcodes up to `OP_PUSHDATA4`. -/
def checkMinimalPush (data : Bytes) (opcode : Nat) : Bool :=
  match data with
  | [] => opcode == op0
  | [b] => !(1 ≤ b.toNat && b.toNat ≤ 16) && b != 0x81 && opcode == 1
  | _ =>
    if data.length ≤ 75 then opcode == data.length
    else if data.length ≤ 255 then opcode == opPushdata1
    else if data.length ≤ 65535 then opcode == opPushdata2
    else true

/-- `CastToBool`: zero may carry a sign. -/
def castToBool : Bytes → Bool
  | [] => false
  | [b] => b != 0 && b != 0x80
  | b :: rest => b != 0 || castToBool rest

namespace CScriptNum

/-- `set_vch`: the top bit of the last byte is the sign. -/
def setVch (vch : Bytes) : Int :=
  match vch.getLast? with
  | none => 0
  | some last =>
    if last &&& 0x80 != 0 then -((leToNat vch - 0x80 * 256 ^ (vch.length - 1) : Nat) : Int)
    else leToNat vch

/-- No shorter string stands for the same number. -/
def isMinimal (vch : Bytes) : Bool :=
  match vch.reverse with
  | [] => true
  | [last] => last &&& 0x7f != 0
  | last :: beforeLast :: _ => last &&& 0x7f != 0 || beforeLast &&& 0x80 != 0

/-- The constructor from a string; nothing when it throws `scriptnum_error`. -/
def decode (vch : Bytes) (fRequireMinimal : Bool) (nMaxNumSize : Nat) : Option Int :=
  if nMaxNumSize < vch.length then none
  else if fRequireMinimal && !isMinimal vch then none
  else some (setVch vch)

def nDefaultMaxNumSize : Nat := 4

def getint (value : Int) : Int := max (-2 ^ 31) (min (2 ^ 31 - 1) value)

end CScriptNum

/-! ### Scripts of special form -/

variable (script : Bytes)

def isPayToScriptHash : Bool :=
  script.length == 23 && script.getD 0 0 == UInt8.ofNat opHash160 && script.getD 1 0 == 0x14 &&
    script.getD 22 0 == UInt8.ofNat opEqual

/-- `IsWitnessProgram`, with the version and the program. -/
def isWitnessProgram : Option (Nat × Bytes) :=
  if script.length < 4 || 42 < script.length then none
  else
    match script with
    | op :: size :: program =>
      if op.toNat ≠ op0 && (op.toNat < op1 || op16 < op.toNat) then none
      else if size.toNat + 2 == script.length then
        some (if op.toNat = op0 then 0 else op.toNat - (op1 - 1), program)
      else none
    | _ => none

/-- The loop of `IsPushOnly`; `n` bounds the instructions left. -/
def isPushOnlyLoop : Nat → Bytes → Bool
  | 0, _ => true
  | n + 1, pc =>
    pc.isEmpty ||
      match getScriptOp pc with
      | none => false
      | some (opcode, _, rest) => opcode ≤ op16 && isPushOnlyLoop n rest

def isPushOnly : Bool := isPushOnlyLoop script.length script

/-! ### Signature operations -/

/-- `GetSigOpCount` of a string of bytes. -/
def scriptSigOpCount (fAccurate : Bool) : UInt32 :=
  sigOpCountLoop fAccurate script.length script opInvalidopcode 0

/-- The last string that a script of pushes leaves; nothing when an instruction
is cut short or is not a push. -/
def lastPushLoop : Nat → Bytes → Bytes → Option Bytes
  | 0, _, vData => some vData
  | n + 1, pc, vData =>
    if pc.isEmpty then some vData
    else
      match getScriptOp pc with
      | none => none
      | some (opcode, vData, rest) => if op16 < opcode then none else lastPushLoop n rest vData

/-- The overload of `GetSigOpCount` for an output spent with the given input
script. -/
def p2shSigOpCount (scriptPubKey scriptSig : Bytes) : UInt32 :=
  if !isPayToScriptHash scriptPubKey then scriptSigOpCount scriptPubKey true
  else
    match lastPushLoop scriptSig.length scriptSig [] with
    | none => 0
    | some vData => scriptSigOpCount vData true

end Lithium
