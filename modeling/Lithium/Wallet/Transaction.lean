import Lithium.Primitives.Transaction

/-!
# Transactions of a wallet

What a wallet knows about one of its transactions: the state of the transaction,
with the block it refers to, and amounts that have been computed before. Of the
state the database keeps a block hash and an index only, and reading them back
gives the state except for its height.
-/

namespace Lithium

/-! ### States -/

inductive TxState where
  | confirmed (confirmedBlockHash : Uint256) (confirmedBlockHeight positionInBlock : Int)
  | inMempool
  | conflicted (conflictingBlockHash : Uint256) (conflictingBlockHeight : Int)
  | inactive (abandoned : Bool)
  | unrecognized (blockHash : Uint256) (index : Int)
deriving DecidableEq

/-- The states that notifications bring. -/
inductive SyncTxState where
  | confirmed (confirmedBlockHash : Uint256) (confirmedBlockHeight positionInBlock : Int)
  | inMempool
  | inactive (abandoned : Bool)
deriving DecidableEq

def SyncTxState.toTxState : SyncTxState → TxState
  | .confirmed blockHash height index => .confirmed blockHash height index
  | .inMempool => .inMempool
  | .inactive abandoned => .inactive abandoned

namespace TxState

def index : TxState → Nat
  | .confirmed .. => 0
  | .inMempool => 1
  | .conflicted .. => 2
  | .inactive _ => 3
  | .unrecognized .. => 4

def hashOne : Uint256 := ⟨1 :: List.replicate 31 0, by simp⟩

/-- `TxStateSerializedBlockHash`. -/
def serializedBlockHash : TxState → Uint256
  | .inactive abandoned => if abandoned then hashOne else .zero
  | .inMempool => .zero
  | .confirmed blockHash _ _ => blockHash
  | .conflicted blockHash _ => blockHash
  | .unrecognized blockHash _ => blockHash

/-- `TxStateSerializedIndex`. -/
def serializedIndex : TxState → Int
  | .inactive abandoned => if abandoned then -1 else 0
  | .inMempool => 0
  | .confirmed _ _ positionInBlock => positionInBlock
  | .conflicted .. => -1
  | .unrecognized _ index => index

def isAbandoned : TxState → Bool
  | .inactive abandoned => abandoned
  | _ => false

def isInactive : TxState → Bool
  | .inactive _ => true
  | _ => false

end TxState

/-! ### Transactions with their caches -/

inductive AmountType where
  | debit
  | credit
  | immatureCredit
  | availableCredit
deriving DecidableEq

/-- The metadata of the transaction and the cached change are left out: no balance
depends on them. -/
structure CWalletTx where
  tx : CTransaction
  state : TxState
  /-- the amount of a kind under a filter, if it has been computed -/
  amounts : AmountType → Nat → Option Int
  isCacheEmpty : Bool

namespace CWalletTx

def ofTransaction (tx : CTransaction) (state : TxState) : CWalletTx where
  tx := tx
  state := state
  amounts := fun _ _ => none
  isCacheEmpty := true

variable (wtx : CWalletTx)

def setState (state : TxState) : CWalletTx := { wtx with state := state }

def setTx (tx : CTransaction) : CWalletTx := { wtx with tx := tx }

def markDirty : CWalletTx :=
  { wtx with amounts := fun _ _ => none, isCacheEmpty := true }

def setAmount (type : AmountType) (filter : Nat) (value : Int) : CWalletTx :=
  { wtx with
    amounts := fun t f => if t = type ∧ f = filter then some value else wtx.amounts t f
    isCacheEmpty := false }

end CWalletTx
end Lithium
