import Lithium.Wallet.Queries

/-!
# What happens to a wallet

The notifications of the node and the actions of the user as one type, so that any
interleaving of them is a list.
-/

namespace Lithium

inductive WalletEvent where
  | blockConnected (inMempool : Uint256 → Bool) (block : BlockInfo)
  | blockDisconnected (block : BlockInfo)
  | transactionAddedToMempool (inMempool : Uint256 → Bool) (tx : CTransaction)
  | transactionRemovedFromMempool (inMempool : Uint256 → Bool) (tx : CTransaction)
      (reason : MemPoolRemovalReason)
  | commitTransaction (tx : CTransaction) (accepted : Bool)
  | abandonTransaction (txid : Uint256)
  | getBalance (minDepth : Int) (avoidReuse : Bool)

namespace CWallet
variable {κ δ : Type} [DecidableEq δ]

/-- The wallet after an event, or why the process does not get there. An amount out of
range ends the question about a balance, not the process. -/
def handle (ops : KeyOps κ δ) (w : CWallet κ δ) : WalletEvent → Except WalletAbort (CWallet κ δ)
  | .blockConnected inMempool block => w.blockConnected ops inMempool block
  | .blockDisconnected block => w.blockDisconnected ops block
  | .transactionAddedToMempool inMempool tx => w.transactionAddedToMempool ops inMempool tx
  | .transactionRemovedFromMempool inMempool tx reason =>
    w.transactionRemovedFromMempool ops inMempool tx reason
  | .commitTransaction tx accepted => (w.commitTransaction ops tx accepted).map Prod.fst
  | .abandonTransaction txid => (w.abandonTransaction txid).map Prod.fst
  | .getBalance minDepth avoidReuse =>
    match getBalance ops minDepth avoidReuse w with
    | (.ok _, w) => .ok w
    | (.error .valueOutOfRange, w) => .ok w
    | (.error e, _) => .error e

end CWallet
end Lithium
