import Lithium.Primitives.Transaction

/-!
# Scripts

The parts of `script/script.h` that blocks depend on: how numbers and strings
are pushed onto a script, which fixes the first bytes of a coinbase input, and
how instructions are read back when signature operations are counted.
-/

namespace Lithium
open Lib UInt8
namespace Opcode

def opPushdata1 : Nat := 0x4c
def opPushdata2 : Nat := 0x4d
def opPushdata4 : Nat := 0x4e
def op1 : Nat := 0x51
def op16 : Nat := 0x60
def opReturn : Nat := 0x6a
def opDup : Nat := 0x76
def opEqual : Nat := 0x87
def opEqualverify : Nat := 0x88
def opHash160 : Nat := 0xa9
def opChecksig : Nat := 0xac
def opChecksigverify : Nat := 0xad
def opCheckmultisig : Nat := 0xae
def opCheckmultisigverify : Nat := 0xaf
def opInvalidopcode : Nat := 0xff

end Opcode

open Opcode

def maxScriptSize : Nat := 10000

/-! ### Writing -/

/-- The bytes of a magnitude, at most `n` of them, without leading zeros. -/
def magnitudeBytes : Nat → Nat → Bytes
  | 0, _ => []
  | n + 1, v => if v = 0 then [] else ofNat v :: magnitudeBytes n (v / 256)

/-- `CScriptNum::serialize` of a 64-bit number: the magnitude, with the sign in
the top bit of the last byte or in a byte of its own. -/
def CScriptNum.serialize (value : Int) : Bytes :=
  let result := magnitudeBytes 8 value.natAbs
  match result.getLast? with
  | none => []
  | some last =>
    if last &&& 0x80 != 0 then result ++ [if value < 0 then 0x80 else 0]
    else if value < 0 then result.dropLast ++ [last ||| 0x80]
    else result

def pushData (b : Bytes) : Bytes := (if b.length < opPushdata1 then [ofNat b.length]
    else if b.length ≤ 0xff then [ofNat opPushdata1, ofNat b.length]
    else if b.length ≤ 0xffff then ofNat opPushdata2 :: natToLE 2 b.length
    else ofNat opPushdata4 :: natToLE 4 b.length) ++ b

/-- `push_int64`: small numbers have opcodes of their own. -/
def pushInt64 (n : Int) : Bytes :=
  if n = -1 ∨ (1 ≤ n ∧ n ≤ 16) then [ofNat (n + (op1 - 1)).toNat]
  else if n = 0 then [0]
  else pushData (CScriptNum.serialize n)

theorem magnitudeBytes_length (n v : Nat) : (magnitudeBytes n v).length ≤ n := by
  induction n generalizing v with
  | zero => simp [magnitudeBytes]
  | succ n ih =>
    rw [magnitudeBytes]
    split
    · simp
    · simpa using ih (v / 256)

theorem CScriptNum.serialize_length (value : Int) : (serialize value).length ≤ 9 := by
  have hlen := magnitudeBytes_length 8 value.natAbs
  simp only [serialize]
  cases (magnitudeBytes 8 value.natAbs).getLast? with
  | none => simp
  | some last =>
    rw [apply_ite List.length, apply_ite List.length]
    simp only [List.length_append, List.length_dropLast, List.length_singleton]
    split_ifs <;> omega

theorem pushData_length_le (b : Bytes) : (pushData b).length ≤ b.length + 5 := by
  unfold pushData
  split_ifs <;> simp <;> omega

theorem pushInt64_length_le (n : Int) : (pushInt64 n).length ≤ 14 := by
  unfold pushInt64
  split_ifs
  · simp
  · simp
  · have h := pushData_length_le (CScriptNum.serialize n)
    have h' := CScriptNum.serialize_length n
    omega

/-! ### Reading -/

/-- `GetScriptOp`: the opcode, the string it pushes and what follows, or nothing
when the operand is cut short. -/
def getScriptOp : Bytes → Option (Nat × Bytes × Bytes)
  | [] => none
  | op :: rest =>
    let opcode := op.toNat
    -- The width of the length field, and the length when there is no field.
    let width := if opcode = opPushdata1 then 1 else if opcode = opPushdata2 then 2 else 4
    if opcode > opPushdata4 then some (opcode, [], rest)
    else if opcode < opPushdata1 then
      if rest.length < opcode then none
      else some (opcode, rest.take opcode, rest.drop opcode)
    else if rest.length < width then none
    else
      let nSize := leToNat (rest.take width)
      let rest := rest.drop width
      if rest.length < nSize then none
      else some (opcode, rest.take nSize, rest.drop nSize)

def maxPubkeysPerMultisig : UInt32 := 20

/-- The loop of `GetSigOpCount`; `n` bounds the instructions left. -/
def sigOpCountLoop (fAccurate : Bool) : Nat → Bytes → Nat → UInt32 → UInt32
  | 0, _, _, count => count
  | n + 1, pc, lastOpcode, count =>
    match getScriptOp pc with
    | none => count
    | some (opcode, _, rest) =>
      let count :=
        if opcode = opChecksig ∨ opcode = opChecksigverify then count + 1
        else if opcode = opCheckmultisig ∨ opcode = opCheckmultisigverify then
          if fAccurate ∧ op1 ≤ lastOpcode ∧ lastOpcode ≤ op16 then
            count + UInt32.ofNat (lastOpcode - (op1 - 1))
          else count + maxPubkeysPerMultisig
        else count
      sigOpCountLoop fAccurate n rest opcode count

/-- Every instruction takes at least a byte, so the length bounds the loop. -/
def CScript.getSigOpCount (script : CScript) (fAccurate : Bool) : UInt32 :=
  sigOpCountLoop fAccurate script.bytes.length script.bytes opInvalidopcode 0

def CTransaction.getLegacySigOpCount (tx : CTransaction) : UInt32 :=
  tx.vout.foldl (fun n o => n + o.scriptPubKey.getSigOpCount false)
    (tx.vin.foldl (fun n i => n + i.scriptSig.getSigOpCount false) 0)

end Lithium
