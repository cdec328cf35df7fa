import Lithium.Consensus.TxCheck

/-!
# Entries of the memory pool

`kernel/mempool_entry.h`: a transaction with its fee and its cost, the transactions of
the pool that it spends from and those that spend from it, and totals over all its
ancestors and descendants. References to other entries are their identifiers.

Counts and sizes are integers without bounds, since no pool comes near the bounds of
the source's types, and so is the total of the fees that transactions pay, which is
money that exists. Modified fees can come near the bounds, because a user may add any
amount to a fee: where the source adds to a stored total it saturates, and where it adds
up or negates such fees beforehand it does not. The assertion about signature operations
looks at the low 32 bits of their number only. How fees are added, what becomes of a plain
result and how such a number is cut off are therefore arguments, with the machine's
version and the exact one as values.
-/

namespace Lithium
open Lib

/-! ### Arithmetic -/

/-- How the pool computes. -/
structure Arithmetic where
  /-- the sum of two amounts -/
  add : Int → Int → Int
  /-- the result of a plain operation on 64-bit numbers -/
  wrap : Int → Int
  /-- a 64-bit number as an `int` -/
  toInt : Int → Int

/-- `SaturatingAdd` of 64-bit numbers. -/
def saturatingAdd (i j : Int) : Int :=
  if i > 0 ∧ j > 2 ^ 63 - 1 - i then 2 ^ 63 - 1
  else if i < 0 ∧ j < -2 ^ 63 - i then -2 ^ 63
  else i + j

namespace Arithmetic

def machine : Arithmetic where
  add := saturatingAdd
  wrap n := n.bmod (2 ^ 64)
  toInt n := (n + 2 ^ 31) % 2 ^ 32 - 2 ^ 31

def exact : Arithmetic where
  add := (· + ·)
  wrap n := n
  toInt n := n

@[simp] theorem exact_wrap (n : Int) : exact.wrap n = n := rfl

end Arithmetic

/-! ### Sizes -/

def getTransactionWeight (tx : CTransaction) : Nat :=
  (serTransaction false tx).length * (witnessScaleFactor - 1) + (serTransaction true tx).length

def getVirtualTransactionSize (nWeight nSigOpCost bytesPerSigop : Nat) : Nat :=
  (max nWeight (nSigOpCost * bytesPerSigop) + witnessScaleFactor - 1) / witnessScaleFactor

/-! ### Entries -/

/-- What the relative lock times of a transaction need; the block is the highest one
that an input comes from. -/
structure LockPoints where
  height : Int
  time : Int
  maxInputBlock : Option Uint256
deriving DecidableEq

structure CTxMemPoolEntry where
  tx : CTransaction
  parents : Finset Uint256
  children : Finset Uint256
  nFee : Int
  /-- the setting of this name, which does not change -/
  nBytesPerSigOp : Nat
  nTime : Int
  entryHeight : Nat
  spendsCoinbase : Bool
  sigOpCost : Nat
  modifiedFee : Int
  lockPoints : LockPoints
  nCountWithDescendants : Int
  nSizeWithDescendants : Int
  nModFeesWithDescendants : Int
  nCountWithAncestors : Int
  nSizeWithAncestors : Int
  nModFeesWithAncestors : Int
  nSigOpCostWithAncestors : Int
deriving DecidableEq

/-- The arguments of the constructor of entries. -/
structure NewEntry where
  tx : CTransaction
  fee : Int
  time : Int
  entryHeight : Nat
  spendsCoinbase : Bool
  sigopsCost : Nat
  lp : LockPoints
  nBytesPerSigOp : Nat := 20

def NewEntry.size (a : NewEntry) : Nat :=
  getVirtualTransactionSize (getTransactionWeight a.tx) a.sigopsCost a.nBytesPerSigOp

/-- The constructor. -/
def NewEntry.entry (a : NewEntry) : CTxMemPoolEntry where
  tx := a.tx
  parents := ∅
  children := ∅
  nFee := a.fee
  nBytesPerSigOp := a.nBytesPerSigOp
  nTime := a.time
  entryHeight := a.entryHeight
  spendsCoinbase := a.spendsCoinbase
  sigOpCost := a.sigopsCost
  modifiedFee := a.fee
  lockPoints := a.lp
  nCountWithDescendants := 1
  nSizeWithDescendants := a.size
  nModFeesWithDescendants := a.fee
  nCountWithAncestors := 1
  nSizeWithAncestors := a.size
  nModFeesWithAncestors := a.fee
  nSigOpCostWithAncestors := a.sigopsCost

namespace CTxMemPoolEntry

variable (e : CTxMemPoolEntry)

def nTxWeight : Nat := getTransactionWeight e.tx

def getTxSize : Nat :=
  getVirtualTransactionSize e.nTxWeight e.sigOpCost e.nBytesPerSigOp

/-- Every transaction has a positive size. -/
theorem getTxSize_pos : 0 < e.getTxSize := by
  have hlen : 0 < (serTransaction true e.tx).length := by
    rw [serTransaction, List.length_append, serInt32]
    simp only [serUInt32, natToLE_length]
    omega
  have hweight : 0 < e.nTxWeight := by
    rw [nTxWeight, getTransactionWeight]
    omega
  rw [getTxSize, getVirtualTransactionSize]
  simp only [witnessScaleFactor]
  omega

def updateModifiedFee (A : Arithmetic) (feeDiff : Int) (e : CTxMemPoolEntry) : CTxMemPoolEntry :=
  { e with
    nModFeesWithDescendants := A.add e.nModFeesWithDescendants feeDiff
    nModFeesWithAncestors := A.add e.nModFeesWithAncestors feeDiff
    modifiedFee := A.add e.modifiedFee feeDiff }

/-- `UpdateDescendantState`; a failed assertion is given by its text. -/
def updateDescendantState (A : Arithmetic) (modifySize modifyFee modifyCount : Int)
    (e : CTxMemPoolEntry) : Except String CTxMemPoolEntry :=
  if e.nSizeWithDescendants + modifySize ≤ 0 then .error "int64_t(nSizeWithDescendants) > 0"
  else if e.nCountWithDescendants + modifyCount ≤ 0 then
    .error "int64_t(nCountWithDescendants) > 0"
  else
    .ok { e with
      nSizeWithDescendants := e.nSizeWithDescendants + modifySize
      nModFeesWithDescendants := A.add e.nModFeesWithDescendants modifyFee
      nCountWithDescendants := e.nCountWithDescendants + modifyCount }

def updateAncestorState (A : Arithmetic) (modifySize modifyFee modifyCount modifySigOps : Int)
    (e : CTxMemPoolEntry) : Except String CTxMemPoolEntry :=
  if e.nSizeWithAncestors + modifySize ≤ 0 then .error "int64_t(nSizeWithAncestors) > 0"
  else if e.nCountWithAncestors + modifyCount ≤ 0 then .error "int64_t(nCountWithAncestors) > 0"
  else if A.toInt (e.nSigOpCostWithAncestors + modifySigOps) < 0 then
    .error "int(nSigOpCostWithAncestors) >= 0"
  else
    .ok { e with
      nSizeWithAncestors := e.nSizeWithAncestors + modifySize
      nModFeesWithAncestors := A.add e.nModFeesWithAncestors modifyFee
      nCountWithAncestors := e.nCountWithAncestors + modifyCount
      nSigOpCostWithAncestors := e.nSigOpCostWithAncestors + modifySigOps }

end CTxMemPoolEntry
end Lithium
