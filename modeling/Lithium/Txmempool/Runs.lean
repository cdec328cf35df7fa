import Lithium.Consensus.Params
import Lithium.Lib.Transition
import Lithium.Txmempool.Repair

/-!
# Runs of the pool

Whatever is done with a pool that was empty at the start, in any order, it passes its
own checks, and no assertion fails. The source asks some things of its callers: inputs
do not conflict, a new transaction is not spent yet unless it comes back from a block, a
block has its transactions after those they spend from, and what is removed is removed
with everything that depends on it.
-/

namespace Lithium
open Lib

/-- What can be done with a pool. An entry is added with the ancestors that the pool finds
for it, and the pool is left as it is if there are too many. -/
inductive PoolOp where
  | addUnchecked (entry : NewEntry) (limits : Option MemPoolLimits)
  | removeRecursive (origTx : CTransaction)
  | removeForBlock (vtx : List CTransaction)
  | removeConflicts (tx : CTransaction)
  | removeStaged (stage : Finset Uint256)
  | expire (time : Int)
  | trimToSize (usage : CTxMemPool → Nat) (lowest : CTxMemPool → Uint256) (sizelimit : Nat)
  | prioritiseTransaction (hash : Uint256) (nFeeDelta : Int)
  | updateForReorg (returned : List Returned)

namespace PoolOp

def perform (A : Arithmetic) : PoolOp → CTxMemPool → Except String CTxMemPool
  | .addUnchecked entry limits, s =>
    match s.calculateMemPoolAncestors entry.tx entry.size limits with
    | .error _ => .ok s
    | .ok ancestors => s.addUnchecked A entry.entry ancestors
  | .removeRecursive origTx, s => s.removeRecursive A origTx
  | .removeForBlock vtx, s => CTxMemPool.removeForBlock A vtx s
  | .removeConflicts tx, s => s.removeConflicts A tx
  | .removeStaged stage, s => s.removeStaged A stage false
  | .expire time, s => s.expire A time
  | .trimToSize usage lowest sizelimit, s => CTxMemPool.trimToSize A usage lowest sizelimit s
  | .prioritiseTransaction hash nFeeDelta, s => s.prioritiseTransaction A hash nFeeDelta
  | .updateForReorg returned, s => s.updateForReorg A returned

/-- What the source asks of the callers. -/
def Admissible (s : CTxMemPool) : PoolOp → Prop
  | .addUnchecked entry _ => s.Addable entry.tx ∧ s.Unspent entry.tx.getHash
  | .removeForBlock vtx => s.ParentsFirst vtx
  | .removeStaged stage => stage ⊆ s.ids ∧ ∀ a b, s.Spent a b → a ∈ stage → b ∈ stage
  | .trimToSize _ lowest _ => ∀ t : CTxMemPool, t.ids.Nonempty → lowest t ∈ t.ids
  | .updateForReorg returned => s.FromBlocks (returned.map Returned.tx)
  | _ => True

/-- No sum of fees saturates, and no total of signature operations is too large for an
`int`: the machine computes what exact arithmetic does. -/
def Unsaturated (s : CTxMemPool) (op : PoolOp) : Prop := op.perform .machine s = op.perform .exact s

def Step (s : CTxMemPool) (op : PoolOp) (s' : CTxMemPool) : Prop :=
  op.Admissible s ∧ op.Unsaturated s ∧ op.perform .machine s = .ok s'

end PoolOp

namespace CTxMemPool
variable {s : CTxMemPool}

/-- No operation fails, and every one leaves a consistent pool. -/
theorem Consistent.perform (hs : s.Consistent) {op : PoolOp} (hop : op.Admissible s) :
    ∃ s', op.perform .exact s = .ok s' ∧ s'.Consistent := by
  cases op with
  | addUnchecked entry limits =>
    rw [PoolOp.perform]
    split
    case h_1 => exact ⟨s, rfl, hs⟩
    case h_2 A hA =>
      have hanc := hs.linked.isAncestors hA
      exact ⟨_, addUnchecked_eq hs.linked hop.1 hanc, hs.added hop.1 hop.2 hanc⟩
  | removeRecursive origTx =>
    obtain ⟨s', heq, hs', -⟩ := hs.removeRecursive origTx
    exact ⟨s', heq, hs'⟩
  | removeForBlock vtx =>
    obtain ⟨s', heq, hs', -⟩ := hs.removeForBlock hop
    exact ⟨s', heq, hs'⟩
  | removeConflicts tx =>
    obtain ⟨s', heq, hs', -⟩ := hs.removeConflicts tx
    exact ⟨s', heq, hs'⟩
  | removeStaged stage =>
    obtain ⟨s', heq, hs', -⟩ := hs.removeStaged hop.1 fun a b hab => hop.2 a b (hs.links.mp hab)
    exact ⟨s', heq, hs'⟩
  | expire time =>
    obtain ⟨s', heq, hs', -⟩ := hs.removeWhere fun e => e.nTime < time
    exact ⟨s', heq, hs'⟩
  | trimToSize usage lowest sizelimit =>
    obtain ⟨s', heq, hs', -⟩ := hs.trimToSizeLoop usage hop sizelimit s.mapTx.size
    exact ⟨s', heq, hs'⟩
  | prioritiseTransaction hash nFeeDelta => exact hs.prioritiseTransaction hash nFeeDelta
  | updateForReorg returned =>
    obtain ⟨s', heq, hs', -⟩ := hs.updateForReorg hop
    exact ⟨s', heq, hs'⟩

end CTxMemPool

/-! ### A parent and its child -/

namespace SmallPool
open CTxMemPool

def spending (prevout : COutPoint) : CTransaction :=
  .ofInput ⟨prevout, ⟨[], CScript.nil_lt⟩, sequenceFinal, .empty⟩
    (some ⟨1000, ⟨[0x51], CScript.opTrue_lt⟩⟩)

def entryOf (tx : CTransaction) (sigopsCost : Nat) : NewEntry where
  tx := tx
  fee := 500
  time := 0
  entryHeight := 1
  spendsCoinbase := false
  sigopsCost := sigopsCost
  lp := ⟨0, 0, none⟩

def parent : NewEntry := entryOf (spending ⟨uint256S 7, 0⟩) 4

def child : NewEntry := entryOf (spending ⟨parent.tx.getHash, 0⟩) 4

def limits : MemPoolLimits := ⟨25, 101000, 25, 101000⟩

def poolOf : Except String CTxMemPool → CTxMemPool
  | .ok s => s
  | .error _ => .empty limits

/-- The pool with the child only, whose parent is in a block. -/
def confirmedParent : CTxMemPool :=
  poolOf ((PoolOp.addUnchecked child (some limits)).perform .machine (.empty limits))

/-- The same without the links that a reorganisation makes. -/
def unlinked : CTxMemPool :=
  poolOf ((PoolOp.addUnchecked parent (some limits)).perform .machine confirmedParent)

end SmallPool
end Lithium
