import Lithium.Consensus.TxVerify
import Lithium.Lib.Marking
import Lithium.Txmempool
import Lithium.Wallet.Transaction

/-!
# The wallet and what it is told

`mapWallet` with the states of the transactions, `mapTxSpends` with the wallet
transactions that spend an outpoint, and the functions that keep them up to date
when blocks are connected and disconnected, transactions enter and leave the
mempool, and the user commits or abandons transactions.

The script managers are seen through the few questions the wallet asks them.
Whether a transaction is in the mempool of the node is asked while a notification
is worked off, so the answer is an input of each of them. Writing to the database
does not fail here. An assertion that does not hold ends the process.
-/

namespace Lithium
open Lib

/-! ### The managers of scripts -/

namespace IsMine

/-- The bits of an `isminefilter`. -/
def no : Nat := 0

def watchOnly : Nat := 1

def spendable : Nat := 2

def used : Nat := 4

def all : Nat := watchOnly ||| spendable

end IsMine

/-- What the wallet asks its script managers, whose state is `κ`; destinations are `δ`. -/
structure KeyOps (κ δ : Type) where
  /-- the greatest answer of a manager -/
  isMine : κ → CScript → Nat
  /-- `MarkUnusedAddresses` of the managers that know the script -/
  markUnusedAddresses : κ → CScript → κ
  extractDestination : CScript → Option δ
  getScriptForDestination : δ → CScript
  /-- in a legacy wallet, the destinations made from the keys that a script needs -/
  affectedDestinations : κ → CScript → List δ

structure CWallet (κ δ : Type) where
  mapWallet : OrdMap Uint256 CWalletTx
  /-- outpoints with the transactions that spend them, in the order of insertion -/
  mapTxSpends : List (COutPoint × Uint256)
  lastBlockProcessedHeight : Int
  lastBlockProcessed : Uint256
  keys : κ
  /-- the destinations that carry the flag `used` -/
  usedDestinations : List δ
  /-- `WALLET_FLAG_AVOID_REUSE` -/
  avoidReuse : Bool
  spendZeroConfChange : Bool
  fBroadcastTransactions : Bool

/-- Why a function of the wallet does not return. -/
inductive WalletAbort where
  /-- the assertions of `AddToWallet` -/
  | stateIndexMismatch
  | stateBlockHashMismatch
  /-- the assertion of `MarkConflicted` -/
  | conflictedTxMissing
  /-- the assertions of `AbandonTransaction` -/
  | abandonedTxMissing
  | abandonConfirmed
  | abandonInMempool
  /-- the assertion of `GetTxBlocksToMaturity` -/
  | coinBaseConflicted
  /-- an exception about an amount -/
  | valueOutOfRange
  /-- the loop over the descendants of a coinbase does not end -/
  | diverges
deriving DecidableEq

/-- The process is ended by an assertion. -/
def WalletAbort.isAssertion : WalletAbort → Bool
  | .valueOutOfRange => false
  | .diverges => false
  | _ => true

/-- `GetTxDepthInMainChain`, by the state of the transaction. -/
def TxState.depth (lastBlockHeight : Int) : TxState → Int
  | .confirmed _ height _ => lastBlockHeight - height + 1
  | .conflicted _ height => -1 * (lastBlockHeight - height + 1)
  | _ => 0

namespace CWallet
variable {κ δ : Type}

section
variable (w : CWallet κ δ) (txid : Uint256)

def getWalletTx : Option CWalletTx := w.mapWallet.find? txid

def modifyTx (f : CWalletTx → CWalletTx) : CWallet κ δ :=
  { w with mapWallet := w.mapWallet.modify txid f }

def getTxDepthInMainChain (wtx : CWalletTx) : Int := wtx.state.depth w.lastBlockProcessedHeight

/-- `mapTxSpends.equal_range`. -/
def spendersOf (outpoint : COutPoint) : List Uint256 :=
  (w.mapTxSpends.filter fun e => e.1 = outpoint).map Prod.snd

def isSpent (outpoint : COutPoint) : Bool := (w.spendersOf outpoint).any fun wtxid =>
    match w.getWalletTx wtxid with
    | some wtx =>
      let depth := w.getTxDepthInMainChain wtx
      decide (depth > 0) || (decide (depth = 0) && !wtx.state.isAbandoned)
    | none => false

variable (tx : CTransaction)

/-- `AddToSpends`; a coinbase spends nothing. -/
def addToSpends : CWallet κ δ :=
  if tx.isCoinBase then w
  else { w with mapTxSpends := w.mapTxSpends ++ tx.vin.map fun txin => (txin.prevout, txid) }

/-- The spenders of the outputs of a transaction, output by output. -/
def childrenOf : List Uint256 :=
  (List.range tx.vout.length).flatMap fun i => w.spendersOf ⟨txid, UInt32.ofNat i⟩

def markInputsDirty : CWallet κ δ :=
  tx.vin.foldl (fun w txin => w.modifyTx txin.prevout.hash CWalletTx.markDirty) w

end

/-! ### Addresses that have been spent from -/

section Used
variable [DecidableEq δ] (ops : KeyOps κ δ)

section
variable (w : CWallet κ δ)

def isAddressUsed (dest : δ) : Bool := w.usedDestinations.contains dest

/-- `SetSpentKeyState` for an input that is now used; the destinations that were not
used before are collected. -/
def setSpentKeyState (st : CWallet κ δ × List δ) (prevout : COutPoint) : CWallet κ δ × List δ :=
  match st.1.getWalletTx prevout.hash with
  | none => st
  | some srctx =>
    match srctx.tx.vout[prevout.n.toNat]? with
    | none => st
    | some txout =>
      match ops.extractDestination txout.scriptPubKey with
      | none => st
      | some dst =>
        if ops.isMine st.1.keys (ops.getScriptForDestination dst) ≠ IsMine.no ∧
            st.1.isAddressUsed dst = false then
          ({ st.1 with usedDestinations := st.1.usedDestinations ++ [dst] }, st.2 ++ [dst])
        else st

def markDestinationsDirty (destinations : List δ) : CWallet κ δ :=
  { w with
    mapWallet := w.mapWallet.map fun wtx =>
      if wtx.isCacheEmpty then wtx
      else if wtx.tx.vout.any fun txout =>
          match ops.extractDestination txout.scriptPubKey with
          | some dst => destinations.contains dst
          | none => false
      then wtx.markDirty
      else wtx }

/-- The first part of `AddToWallet`. -/
def markUsedDestinations (tx : CTransaction) : CWallet κ δ :=
  if w.avoidReuse then
    let st := (tx.vin.map CTxIn.prevout).foldl (setSpentKeyState ops) (w, [])
    st.1.markDestinationsDirty ops st.2
  else w

def isSpentKey (scriptPubKey : CScript) : Bool :=
  match ops.extractDestination scriptPubKey with
  | none => false
  | some dest =>
    w.isAddressUsed dest ||
      (ops.affectedDestinations w.keys scriptPubKey).any fun d => w.isAddressUsed d

end
end Used

/-! ### Transactions that concern the wallet -/

section Involved
variable (ops : KeyOps κ δ)

section
variable (w : CWallet κ δ) (tx : CTransaction)

/-- `IsMine` of a transaction. -/
def isMineTx : Bool :=
  tx.vout.any fun txout => decide (ops.isMine w.keys txout.scriptPubKey ≠ IsMine.no)

/-- `GetDebit` of an input. -/
def getDebitIn (txin : CTxIn) (filter : Nat) : Int :=
  match w.getWalletTx txin.prevout.hash with
  | none => 0
  | some prev =>
    match prev.tx.vout[txin.prevout.n.toNat]? with
    | none => 0
    | some txout =>
      if ops.isMine w.keys txout.scriptPubKey &&& filter ≠ 0 then txout.nValue.toInt else 0

/-- `GetDebit` of a transaction. -/
def getDebit (filter : Nat) : Except WalletAbort Int :=
  tx.vin.foldlM (fun nDebit txin =>
    let nDebit := nDebit + w.getDebitIn ops txin filter
    if moneyRange nDebit then .ok nDebit else .error .valueOutOfRange) 0

def isFromMe : Except WalletAbort Bool := do
  let nDebit ← w.getDebit ops tx IsMine.all
  .ok (decide (nDebit > 0))

end

/-- The managers are told about the outputs of a transaction. -/
def markUnusedAddresses (w : CWallet κ δ) (tx : CTransaction) : CWallet κ δ :=
  { w with keys :=
    tx.vout.foldl (fun k txout => ops.markUnusedAddresses k txout.scriptPubKey) w.keys }

end Involved

/-! ### Marking transactions and those made from them -/

/-- A transaction takes a new state, and the transactions it spends are to be
recomputed. -/
def changeState (state : TxState) (w : CWallet κ δ) (txid : Uint256) : CWallet κ δ :=
  match w.getWalletTx txid with
  | none => w
  | some wtx =>
    (w.modifyTx txid fun wtx => (wtx.setState state).markDirty).markInputsDirty wtx.tx

section
variable (w : CWallet κ δ)

def childSet (txid : Uint256) : Finset Uint256 :=
  match w.getWalletTx txid with
  | none => ∅
  | some wtx => (w.childrenOf txid wtx.tx).toFinset

variable (test : TxState → Except WalletAbort Bool)

/-- A test of the state of a transaction, which fails with `missing` where there is
none. -/
def testAt (missing : WalletAbort) (w : CWallet κ δ)
    (txid : Uint256) : Except WalletAbort Bool :=
  match w.getWalletTx txid with
  | none => .error missing
  | some wtx => test wtx.state

/-- The loop that `MarkConflicted` and `AbandonTransaction` share; `test` says whether
a transaction changes. -/
def markDescendants (missing : WalletAbort)
    (state : TxState) (w : CWallet κ δ) (txid : Uint256) : Except WalletAbort (CWallet κ δ) :=
  spread (testAt test missing) (changeState state) childSet (w.mapWallet.size + 1) {txid} ∅ w

def markConflicted (hashBlock : Uint256) (conflictingHeight : Int)
    (hashTx : Uint256) : Except WalletAbort (CWallet κ δ) :=
  if w.lastBlockProcessedHeight < 0 ∨ conflictingHeight < 0 then .ok w
  else
    let conflictconfirms := (w.lastBlockProcessedHeight - conflictingHeight + 1) * -1
    if conflictconfirms ≥ 0 then .ok w
    else
      markDescendants
        (fun s => .ok (decide (conflictconfirms < s.depth w.lastBlockProcessedHeight)))
        .conflictedTxMissing (.conflicted hashBlock conflictingHeight) w hashTx

/-- The test of `AbandonTransaction`, with its assertions. -/
def abandonTest (lastBlockHeight : Int) (s : TxState) : Except WalletAbort Bool :=
  let currentconfirm := s.depth lastBlockHeight
  if currentconfirm > 0 then .error .abandonConfirmed
  else if currentconfirm = 0 ∧ s.isAbandoned = false then
    if s = .inMempool then .error .abandonInMempool else .ok true
  else .ok false

/-- `AbandonTransaction`, with its answer. -/
def abandonTransaction (hashTx : Uint256) : Except WalletAbort (CWallet κ δ × Bool) :=
  match w.getWalletTx hashTx with
  | none => .error .abandonedTxMissing
  | some origtx =>
    if w.getTxDepthInMainChain origtx ≠ 0 ∨ origtx.state = .inMempool then .ok (w, false)
    else do
      let w ← markDescendants (abandonTest w.lastBlockProcessedHeight) .abandonedTxMissing
        (.inactive true) w hashTx
      .ok (w, true)

/-- The spenders of a transaction that the loop over a coinbase pushes. -/
def walletChildren (txid : Uint256) : List Uint256 :=
  match w.getWalletTx txid with
  | none => []
  | some wtx => (w.childrenOf txid wtx.tx).filter fun id => (w.getWalletTx id).isSome

/-- A bound on the pops of the loop over a coinbase, in a wallet where no transaction
is made from itself. -/
def sweepBound : Nat :=
  ((w.mapWallet.entries.map fun e => (w.walletChildren e.1).length).sum + 1) ^ w.mapWallet.size

/-- The loop of `AddToWallet` over an inactive coinbase and what is made from it. -/
def abandonCoinBase (txid : Uint256) : Except WalletAbort (CWallet κ δ) :=
  match sweep (changeState (.inactive true)) walletChildren w.sweepBound [txid] w with
  | some w => .ok w
  | none => .error .diverges

end

/-! ### Adding transactions -/

section Add
variable [DecidableEq δ] (ops : KeyOps κ δ)

section
variable (w : CWallet κ δ)

section
variable (tx : CTransaction)

/-- The part of `AddToWallet` that inserts or updates the entry. -/
def emplaceTx (state : TxState) : Except WalletAbort (CWallet κ δ) :=
  let txid := tx.getHash
  match w.getWalletTx txid with
  | none =>
    .ok (addToSpends
      { w with mapWallet := w.mapWallet.insert txid (.ofTransaction tx state) } txid tx)
  | some wtx =>
    let upgrade := fun wtx : CWalletTx =>
      if tx.hasWitness && !wtx.tx.hasWitness then wtx.setTx tx else wtx
    if state.index ≠ wtx.state.index then
      .ok (w.modifyTx txid fun wtx => upgrade (wtx.setState state))
    else if wtx.state.serializedIndex ≠ state.serializedIndex then .error .stateIndexMismatch
    else if wtx.state.serializedBlockHash ≠ state.serializedBlockHash then
      .error .stateBlockHashMismatch
    else .ok (w.modifyTx txid upgrade)

/-- An inactive coinbase is abandoned, with everything made from it. -/
def abandonIfInactiveCoinBase (txid : Uint256) : Except WalletAbort (CWallet κ δ) :=
  match w.getWalletTx txid with
  | none => .ok w
  | some wtx => if wtx.tx.isCoinBase && wtx.state.isInactive then w.abandonCoinBase txid else .ok w

def addToWallet (state : TxState) : Except WalletAbort (CWallet κ δ) := do
  let w ← (w.markUsedDestinations ops tx).emplaceTx tx state
  let w ← w.abandonIfInactiveCoinBase tx.getHash
  .ok (w.modifyTx tx.getHash CWalletTx.markDirty)

/-- The wallet transactions that spend an outpoint which the transaction spends. -/
def conflictsWith : List Uint256 :=
  (tx.vin.flatMap fun txin => w.spendersOf txin.prevout).filter fun id => id ≠ tx.getHash

/-- The first part of `AddToWalletIfInvolvingMe`; `mapTxSpends` does not change
meanwhile. -/
def markConflicts : SyncTxState → Except WalletAbort (CWallet κ δ)
  | .confirmed blockHash height _ =>
    (w.conflictsWith tx).foldlM (fun w id => w.markConflicted blockHash height id) w
  | _ => .ok w

def involvesMe : Except WalletAbort Bool :=
  if (w.getWalletTx tx.getHash).isSome || w.isMineTx ops tx then .ok true else w.isFromMe ops tx

/-- `AddToWalletIfInvolvingMe`, with its answer. -/
def addToWalletIfInvolvingMe (state : SyncTxState)
    (fUpdate : Bool) : Except WalletAbort (CWallet κ δ × Bool) := do
  let w ← w.markConflicts tx state
  if (w.getWalletTx tx.getHash).isSome && !fUpdate then .ok (w, false)
  else if ← w.involvesMe ops tx then
    let w ← (w.markUnusedAddresses ops tx).addToWallet ops tx state.toTxState
    .ok (w, true)
  else .ok (w, false)

def syncTransaction (state : SyncTxState) (updateTx : Bool) : Except WalletAbort (CWallet κ δ) := do
  let (w, involved) ← w.addToWalletIfInvolvingMe ops tx state updateTx
  .ok (if involved then w.markInputsDirty tx else w)

end

/-! ### Notifications -/

/-- `RefreshMempoolStatus` of the entry of a transaction, if there is one. -/
def refreshMempoolStatus (inMempool : Uint256 → Bool) (txid : Uint256) : CWallet κ δ :=
  w.modifyTx txid fun wtx =>
    if inMempool txid then wtx.setState .inMempool
    else if wtx.state = .inMempool then wtx.setState (.inactive false)
    else wtx

def transactionAddedToMempool (inMempool : Uint256 → Bool) (tx : CTransaction) :
    Except WalletAbort (CWallet κ δ) := do
  let w ← w.syncTransaction ops tx .inMempool true
  .ok (w.refreshMempoolStatus inMempool tx.getHash)

end
end Add
end CWallet

inductive MemPoolRemovalReason where
  | expiry
  | sizelimit
  | reorg
  | block
  | conflict
  | replaced
deriving DecidableEq

structure BlockInfo where
  hash : Uint256
  prevHash : Uint256
  height : Int
  vtx : List CTransaction
deriving DecidableEq

namespace CWallet
variable {κ δ : Type} [DecidableEq δ] (ops : KeyOps κ δ)

section
variable (w : CWallet κ δ)

section
variable (inMempool : Uint256 → Bool)

def transactionRemovedFromMempool (tx : CTransaction)
    (reason : MemPoolRemovalReason) : Except WalletAbort (CWallet κ δ) :=
  let w := w.refreshMempoolStatus inMempool tx.getHash
  if reason = .conflict then w.syncTransaction ops tx (.inactive false) true else .ok w

/-- One transaction of a connected block. -/
def connectTx (block : BlockInfo) (w : CWallet κ δ)
    (e : CTransaction × Nat) : Except WalletAbort (CWallet κ δ) := do
  let w ← w.syncTransaction ops e.1 (.confirmed block.hash block.height e.2) true
  w.transactionRemovedFromMempool ops inMempool e.1 .block

def blockConnected (block : BlockInfo) : Except WalletAbort (CWallet κ δ) :=
  block.vtx.zipIdx.foldlM (connectTx ops inMempool block)
    { w with lastBlockProcessedHeight := block.height, lastBlockProcessed := block.hash }

end

def blockDisconnected (block : BlockInfo) : Except WalletAbort (CWallet κ δ) :=
  block.vtx.foldlM (fun w tx => w.syncTransaction ops tx (.inactive false) true)
    { w with lastBlockProcessedHeight := block.height - 1, lastBlockProcessed := block.prevHash }

/-! ### Actions of the user -/

/-- The inputs of a committed transaction are marked until one is not in the wallet,
where `mapWallet.at` throws. -/
def markCoinsDirty (w : CWallet κ δ) : List CTxIn → CWallet κ δ × Bool
  | [] => (w, true)
  | txin :: vin =>
    match w.getWalletTx txin.prevout.hash with
    | none => (w, false)
    | some _ => markCoinsDirty (w.modifyTx txin.prevout.hash CWalletTx.markDirty) vin

/-- `SubmitTxMemoryPoolAndRelay`; `accepted` is the answer of the node. -/
def submitTxMemoryPoolAndRelay (txid : Uint256) (accepted : Bool) : CWallet κ δ :=
  match w.getWalletTx txid with
  | none => w
  | some wtx =>
    if w.fBroadcastTransactions && !wtx.state.isAbandoned && !wtx.tx.isCoinBase &&
        decide (w.getTxDepthInMainChain wtx = 0) && accepted then
      w.modifyTx txid fun wtx => wtx.setState .inMempool
    else w

/-- `CommitTransaction`; the answer is whether it returns without an exception, which
leaves what has been done until then. -/
def commitTransaction (tx : CTransaction) (accepted : Bool) :
    Except WalletAbort (CWallet κ δ × Bool) := do
  let w ← w.addToWallet ops tx (.inactive false)
  let (w, found) := w.markCoinsDirty tx.vin
  .ok (if found then w.submitTxMemoryPoolAndRelay tx.getHash accepted else w, found)

end
end CWallet
end Lithium
