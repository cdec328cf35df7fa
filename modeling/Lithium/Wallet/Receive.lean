import Lithium.Wallet.View

/-!
# Balances

`receive.cpp`: what a wallet transaction adds to a balance. Debits and credits are
cached with the transactions, so a question about the balance changes the wallet, and
what has been cached stays there even if a later amount is out of range and the
question ends with an exception.

The transaction and the state of an entry are passed on where the source passes a
reference to the entry; caches are looked up in the wallet.
-/

namespace Lithium
open IsMine

/-! ### Questions to a wallet -/

/-- A computation that may fill caches and may fail. -/
def WalletM (κ δ α : Type) : Type := CWallet κ δ → Except WalletAbort α × CWallet κ δ

namespace WalletM
variable {κ δ α β : Type}

protected def pure (a : α) : WalletM κ δ α := fun w => (.ok a, w)

protected def bind (m : WalletM κ δ α) (k : α → WalletM κ δ β) : WalletM κ δ β := fun w =>
  match m w with
  | (.ok a, w) => k a w
  | (.error e, w) => (.error e, w)

instance : Monad (WalletM κ δ) where
  pure := WalletM.pure
  bind := WalletM.bind

/-- A look at the wallet. -/
def read (f : CWallet κ δ → Except WalletAbort α) : WalletM κ δ α := fun w => (f w, w)

/-- The transaction and the state of an entry. -/
def entryAt (txid : Uint256) : WalletM κ δ (Option (CTransaction × TxState)) :=
  read fun w => .ok (w.view.entry txid)

end WalletM

open WalletM

namespace CWallet
variable {κ δ : Type}

section Amounts
variable [DecidableEq δ] (ops : KeyOps κ δ)

section
variable (w : CWallet κ δ)

def outputGetCredit (txout : CTxOut) (filter : Nat) : Except WalletAbort Int :=
  if moneyRange txout.nValue.toInt = false then .error .valueOutOfRange
  else .ok (if ops.isMine w.keys txout.scriptPubKey &&& filter ≠ 0 then txout.nValue.toInt else 0)

/-- One more amount of a sum that must stay in range. -/
def addInRange (nCredit credit : Int) : Except WalletAbort Int :=
  if moneyRange (nCredit + credit) then .ok (nCredit + credit) else .error .valueOutOfRange

variable (tx : CTransaction)

def txGetCredit (filter : Nat) : Except WalletAbort Int :=
  tx.vout.foldlM
    (fun nCredit txout => do addInRange nCredit (← w.outputGetCredit ops txout filter)) 0

/-- The sum of `CachedTxGetAvailableCredit`. -/
def availableCredit (filter : Nat) : Except WalletAbort Int :=
  let allowUsedAddresses := filter &&& used ≠ 0 ∨ w.avoidReuse = false
  tx.vout.zipIdx.foldlM (fun nCredit e =>
    if w.isSpent ⟨tx.getHash, UInt32.ofNat e.2⟩ = false ∧
        (allowUsedAddresses ∨ w.isSpentKey ops e.1.scriptPubKey = false) then do
      addInRange nCredit (← w.outputGetCredit ops e.1 filter)
    else .ok nCredit) 0

/-- What the caches of a transaction are for. -/
def amountOf : AmountType → Nat → Except WalletAbort Int
  | .debit, filter => w.getDebit ops tx filter
  | .credit, filter => w.txGetCredit ops tx filter
  | .immatureCredit, filter => w.txGetCredit ops tx filter
  | .availableCredit, filter => w.availableCredit ops tx filter

end

/-- An amount is taken from the cache, or computed and put there. -/
def cachedAmount (txid : Uint256) (type : AmountType) (filter : Nat) : WalletM κ δ Int := fun w =>
  match w.getWalletTx txid with
  | none => (.ok 0, w)
  | some wtx =>
    match wtx.amounts type filter with
    | some amount => (.ok amount, w)
    | none =>
      match w.amountOf ops wtx.tx type filter with
      | .ok amount => (.ok amount, w.modifyTx txid fun wtx => wtx.setAmount type filter amount)
      | .error e => (.error e, w)

def getCachableAmount (txid : Uint256) (type : AmountType) (filter : Nat) : WalletM κ δ Int :=
  cachedAmount ops txid type filter

end Amounts

/-! ### Maturity -/

variable (w : CWallet κ δ)

def getTxBlocksToMaturity (tx : CTransaction) (state : TxState) : Except WalletAbort Int :=
  if tx.isCoinBase = false then .ok 0
  else
    let chainDepth := state.depth w.lastBlockProcessedHeight
    if chainDepth < 0 then .error .coinBaseConflicted
    else .ok (max 0 (coinbaseMaturity + 1 - chainDepth))

def isTxImmatureCoinBase (tx : CTransaction) (state : TxState) : Except WalletAbort Bool := do
  let blocks ← w.getTxBlocksToMaturity tx state
  .ok (decide (blocks > 0))

def isTxInMainChain (state : TxState) : Bool :=
  decide (state.depth w.lastBlockProcessedHeight > 0)

/-! ### Debits and credits of a transaction -/

section Cached
variable [DecidableEq δ] (ops : KeyOps κ δ) (txid : Uint256) (tx : CTransaction)

def cachedTxGetDebit (filter : Nat) : WalletM κ δ Int :=
  if tx.vin = [] then pure 0
  else
    let getAmountFilter := filter &&& all
    if getAmountFilter ≠ 0 then getCachableAmount ops txid .debit getAmountFilter else pure 0

def cachedTxIsFromMe (filter : Nat) : WalletM κ δ Bool := do
  let debit ← cachedTxGetDebit ops txid tx filter
  pure (decide (debit > 0))

def cachedTxGetImmatureCredit (state : TxState) (filter : Nat) : WalletM κ δ Int := do
  let immature ← read fun w => w.isTxImmatureCoinBase tx state
  let inMainChain ← read fun w => .ok (w.isTxInMainChain state)
  if immature && inMainChain then getCachableAmount ops txid .immatureCredit filter else pure 0

def cachedTxGetAvailableCredit (state : TxState) (filter : Nat) : WalletM κ δ Int := do
  let allowCache := filter &&& all ≠ 0 ∧ filter &&& all ≠ all
  let immature ← read fun w => w.isTxImmatureCoinBase tx state
  if immature then pure 0
  else if allowCache then cachedAmount ops txid .availableCredit filter
  else read fun w => w.availableCredit ops tx filter

/-- The loop over the inputs of `CachedTxIsTrusted`; `trust` is the call on a parent.
An input that refers to an output which its parent does not have does not occur in
the mempool. -/
def trustInputs (trust : Uint256 → CTransaction → TxState → Finset Uint256 →
      WalletM κ δ (Bool × Finset Uint256)) :
    List CTxIn → Finset Uint256 → WalletM κ δ (Bool × Finset Uint256)
  | [], trusted => pure (true, trusted)
  | txin :: vin, trusted => do
    match ← entryAt txin.prevout.hash with
    | none => pure (false, trusted)
    | some (parent, parentState) =>
      match parent.vout[txin.prevout.n.toNat]? with
      | none => pure (false, trusted)
      | some parentOut =>
        let mine ← read fun w => .ok (ops.isMine w.keys parentOut.scriptPubKey)
        if mine ≠ spendable then pure (false, trusted)
        else if parent.getHash ∈ trusted then trustInputs trust vin trusted
        else
          let (parentTrusted, trusted) ← trust txin.prevout.hash parent parentState trusted
          if parentTrusted then trustInputs trust vin (insert parent.getHash trusted)
          else pure (false, trusted)

/-- `CachedTxIsTrusted`, with the set of trusted parents; the number bounds the
recursion. -/
def cachedTxIsTrusted : Nat → Uint256 → CTransaction → TxState → Finset Uint256 →
    WalletM κ δ (Bool × Finset Uint256)
  | 0, _, _, _, _ => read fun _ => .error .diverges
  | n + 1, txid, tx, state, trusted => do
    let nDepth ← read fun w => .ok (state.depth w.lastBlockProcessedHeight)
    if nDepth ≥ 1 then pure (true, trusted)
    else if nDepth < 0 then pure (false, trusted)
    else
      let spendZeroConfChange ← read fun w => .ok w.spendZeroConfChange
      if spendZeroConfChange = false then pure (false, trusted)
      else
        let fromMe ← cachedTxIsFromMe ops txid tx all
        if fromMe = false then pure (false, trusted)
        else if state ≠ .inMempool then pure (false, trusted)
        else trustInputs ops (cachedTxIsTrusted n) tx.vin trusted

end Cached
end CWallet

/-! ### The balance -/

structure Balance where
  mineTrusted : Int
  mineUntrustedPending : Int
  mineImmature : Int
  watchonlyTrusted : Int
  watchonlyUntrustedPending : Int
  watchonlyImmature : Int
deriving DecidableEq

def Balance.zero : Balance := ⟨0, 0, 0, 0, 0, 0⟩

namespace CWallet
variable {κ δ : Type} [DecidableEq δ] (ops : KeyOps κ δ)

/-- One turn of the loop of `GetBalance`. -/
def addToBalance (fuel : Nat) (minDepth : Int) (reuseFilter : Nat) (st : Balance × Finset Uint256)
    (e : Uint256 × CTransaction × TxState) : WalletM κ δ (Balance × Finset Uint256) := do
  let (ret, trustedParents) := st
  let (txid, tx, state) := e
  let (isTrusted, trustedParents) ← cachedTxIsTrusted ops fuel txid tx state trustedParents
  let txDepth ← read fun w => .ok (state.depth w.lastBlockProcessedHeight)
  let creditMine ← cachedTxGetAvailableCredit ops txid tx state (spendable ||| reuseFilter)
  let creditWatchonly ← cachedTxGetAvailableCredit ops txid tx state (watchOnly ||| reuseFilter)
  let trusted := isTrusted && decide (txDepth ≥ minDepth)
  let pending := !isTrusted && decide (txDepth = 0) && decide (state = .inMempool)
  let immatureMine ← cachedTxGetImmatureCredit ops txid tx state spendable
  let immatureWatchonly ← cachedTxGetImmatureCredit ops txid tx state watchOnly
  pure
    ({ mineTrusted := ret.mineTrusted + if trusted then creditMine else 0
       mineUntrustedPending := ret.mineUntrustedPending + if pending then creditMine else 0
       mineImmature := ret.mineImmature + immatureMine
       watchonlyTrusted := ret.watchonlyTrusted + if trusted then creditWatchonly else 0
       watchonlyUntrustedPending :=
         ret.watchonlyUntrustedPending + if pending then creditWatchonly else 0
       watchonlyImmature := ret.watchonlyImmature + immatureWatchonly }, trustedParents)

/-- The entries of a wallet in order, without caches. -/
def entryList (w : CWallet κ δ) : List (Uint256 × CTransaction × TxState) :=
  w.mapWallet.entries.map fun e => (e.1, e.2.tx, e.2.state)

def getBalance (minDepth : Int) (avoidReuse : Bool) : WalletM κ δ Balance := do
  let reuseFilter := if avoidReuse then no else used
  let entries ← read fun w => .ok w.entryList
  let st ← entries.foldlM (addToBalance ops (entries.length + 1) minDepth reuseFilter)
    (Balance.zero, ∅)
  pure st.1

end CWallet
end Lithium
