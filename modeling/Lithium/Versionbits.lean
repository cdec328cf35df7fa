import Lithium.Chain
import Lithium.Consensus.Params

/-!
# Deployment by signalling

`versionbits.cpp`: a rule is switched on when enough blocks of a period set a bit
in their version. The state of a deployment is a function of the chain up to the
predecessor of a block; it changes at most once in a period.

The states that were computed are kept in a cache that all queries share. It is keyed
by the entries that end a period, of whatever branch. A query walks back over the
periods until it meets a known state, or the start time has not been reached yet, and
then forward again, filling the cache.
-/

namespace Lithium
open BIP9Deployment

inductive ThresholdState where
  | defined
  | started
  | lockedIn
  | active
  | failed
deriving DecidableEq

def versionbitsTopBits : UInt32 := 0x20000000
def versionbitsTopMask : UInt32 := 0xE0000000

/-- The branch that ends in the ancestor at the given height; empty when there
is none. -/
def ancestorBranch (branch : Branch) (height : Int) : Branch :=
  branch.dropWhile fun e => e.nHeight != height

/-- What `AbstractThresholdConditionChecker` asks its subclasses. -/
structure ThresholdConditionChecker where
  beginTime : Int
  endTime : Int
  minActivationHeight : Int
  period : Nat
  threshold : Nat
  condition : CBlockIndex → Bool

namespace ThresholdConditionChecker

/-- The `switch` of `GetStateFor`, for a period that ends in the first entry. -/
def stateNext (c : ThresholdConditionChecker) (branch : Branch) (nHeight : Int) :
    ThresholdState → ThresholdState
  | .defined => if getMedianTimePast branch ≥ c.beginTime then .started else .defined
  | .started =>
    if (branch.take c.period).countP c.condition ≥ c.threshold then .lockedIn
    else if getMedianTimePast branch ≥ c.endTime then .failed
    else .started
  | .lockedIn => if nHeight + 1 ≥ c.minActivationHeight then .active else .lockedIn
  | .failed => .failed
  | .active => .active

end ThresholdConditionChecker

/-- The pointer to the first entry. -/
def branchPtr (branch : Branch) : Option Uint256 := branch.head?.map CBlockIndex.phashBlock

/-- The states by the pointer to an entry, or to none. -/
abbrev ThresholdConditionCache := Option Uint256 → Option ThresholdState

namespace ThresholdConditionCache

def empty : ThresholdConditionCache := fun _ => none

def store (cache : ThresholdConditionCache) (branch : Branch) (state : ThresholdState) :
    ThresholdConditionCache :=
  Function.update cache (branchPtr branch) (some state)

/-- The height of the first entry; of no entry, that of the block before the genesis
block. -/
def heightOf (branch : Branch) : Int := (branch.head?.map CBlockIndex.nHeight).getD (-1)

/-- The loop that walks back; `n` bounds it. The branches to compute are stacked. -/
def walkBack (c : ThresholdConditionChecker) (cache : ThresholdConditionCache) :
    Nat → Branch → List Branch → Option (List Branch × Branch × ThresholdConditionCache)
  | 0, _, _ => none
  | n + 1, branch, vToCompute =>
    if (cache (branchPtr branch)).isSome then some (vToCompute, branch, cache)
    else if branch.isEmpty then some (vToCompute, branch, cache.store branch .defined)
    else if getMedianTimePast branch < c.beginTime then
      some (vToCompute, branch, cache.store branch .defined)
    else
      walkBack c cache n (ancestorBranch branch (heightOf branch - c.period)) (branch :: vToCompute)

def walkForward (c : ThresholdConditionChecker) :
    List Branch → ThresholdState → ThresholdConditionCache →
      ThresholdState × ThresholdConditionCache
  | [], state, cache => (state, cache)
  | branch :: vToCompute, state, cache =>
    let stateNext := c.stateNext branch (heightOf branch) state
    walkForward c vToCompute stateNext (cache.store branch stateNext)

/-- The last entry of the period before. -/
def periodParent (c : ThresholdConditionChecker) (branch : Branch) : Branch :=
  if branch.isEmpty then branch
  else ancestorBranch branch (heightOf branch - (heightOf branch + 1) % c.period)

/-- `GetStateFor`; nothing when the assertion fails. -/
def getStateFor (c : ThresholdConditionChecker) (branch : Branch)
    (cache : ThresholdConditionCache) : Option (ThresholdState × ThresholdConditionCache) :=
  if c.beginTime = alwaysActive then some (.active, cache)
  else if c.beginTime = neverActive then some (.failed, cache)
  else
    match walkBack c cache (branch.length + 1) (periodParent c branch) [] with
    | none => none
    | some (vToCompute, branch, cache) =>
      (cache (branchPtr branch)).map fun state => walkForward c vToCompute state cache

end ThresholdConditionCache

def versionBitsConditionChecker (params : Params) (id : DeploymentPos) :
    ThresholdConditionChecker where
  beginTime := (params.vDeployments id).nStartTime
  endTime := (params.vDeployments id).nTimeout
  minActivationHeight := (params.vDeployments id).minActivationHeight
  period := params.nMinerConfirmationWindow
  threshold := params.nRuleChangeActivationThreshold
  condition pindex := pindex.nVersion.toUInt32 &&& versionbitsTopMask == versionbitsTopBits &&
      pindex.nVersion.toUInt32 &&& (1 <<< UInt32.ofNat (params.vDeployments id).bit) != 0

/-- `VersionBitsCache::State`, on an empty cache. -/
def versionBitsState (params : Params) (branch : Branch) (pos : DeploymentPos) : ThresholdState :=
  ((ThresholdConditionCache.getStateFor (versionBitsConditionChecker params pos) branch .empty).map
    Prod.fst).getD .defined

end Lithium
