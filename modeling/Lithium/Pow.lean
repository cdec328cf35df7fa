import Lithium.AuxPow
import Lithium.Chain

/-!
# Difficulty and proof of work

The functions of `pow.cpp`. The target of the next block is the target of the last
one scaled by the time the last interval took. The scaling, with its clamp to the
easiest target, is written out three times in the source; here it is one function,
`scaledTarget`, used by the rule itself and by the two bounds that a syncing
node checks without knowing any timestamps.

The assertions of the source are partiality here: `getNextWorkRequired` has no
value when the first block of the interval does not exist.
-/

namespace Lithium

/-! ### Targets -/

/-- The target of `nBits` scaled by `timespan` over the intended timespan, no
easier than the limit. A timespan of zero, for which the division throws, is not
the intended one of any network; the target is zero then. -/
def scaledTarget (params : Params) (nBits : UInt32) (timespan : Int) : ArithUint256 :=
  let bnNew := (divide (mulUInt32 (setCompact nBits).value timespan)
    (BitVec.ofNat 256 (params.nPowTargetTimespan % 2 ^ 64).toNat)).getD 0
  if bnNew > uintToArith256 params.powLimit then uintToArith256 params.powLimit else bnNew

/-- The timespan that counts for the new target: difficulty rises by at most
15% below height 3500 and by 3% above it when blocks came four times too fast,
and falls by at most half. -/
def clampTimespan (params : Params) (nHeight nActualTimespan : Int) : Int :=
  let nTargetTimespan := params.nPowTargetTimespan
  let nMinActualTimespan := nTargetTimespan * 100 / 115
  let nMinActualTimespan3Pct := nTargetTimespan * 100 / 103
  let nMaxActualTimespan := nTargetTimespan * 2
  let nActualTimespan :=
    if nActualTimespan < nTargetTimespan / 4 ∧ nHeight ≥ 3500 then nMinActualTimespan3Pct
    else if nActualTimespan < nMinActualTimespan ∧ nHeight < 3500 then nMinActualTimespan
    else nActualTimespan
  if nActualTimespan > nMaxActualTimespan then nMaxActualTimespan else nActualTimespan

def calculateNextWorkRequired (pindexLast : CBlockIndex) (nFirstBlockTime : Int)
    (params : Params) : UInt32 :=
  if params.fPowNoRetargeting then pindexLast.nBits
  else
    let nActualTimespan := (pindexLast.nTime.toNat : Int) - nFirstBlockTime
    getCompact (scaledTarget params pindexLast.nBits
      (clampTimespan params pindexLast.nHeight nActualTimespan)) false

/-- The walk back to the last block that was not mined under the minimum
difficulty rule. -/
def lastNonMinDifficulty (params : Params) (limit : UInt32) : Branch → Option UInt32
  | [] => none
  | [e] => some e.nBits
  | e :: prev :: rest =>
    if e.nHeight % params.difficultyAdjustmentInterval ≠ 0 ∧ e.nBits = limit then
      lastNonMinDifficulty params limit (prev :: rest)
    else some e.nBits

/-- `GetNextWorkRequired` after the first entry of a branch. -/
def getNextWorkRequired (branch : Branch) (pblock : CBlockHeader) (params : Params) :
    Option UInt32 :=
  match branch with
  | [] => none
  | pindexLast :: _ =>
    let nProofOfWorkLimit := getCompact (uintToArith256 params.powLimit) false
    let interval := params.difficultyAdjustmentInterval
    if (pindexLast.nHeight + 1) % interval ≠ 0 then
      if params.fPowAllowMinDifficultyBlocks then
        if (pblock.nTime.toNat : Int) > pindexLast.nTime.toNat + params.nPowTargetSpacing * 2 then
          some nProofOfWorkLimit
        else if params.fPowNoRetargeting then some pindexLast.nBits
        else lastNonMinDifficulty params nProofOfWorkLimit branch
      else some pindexLast.nBits
    else
      let height := pindexLast.nHeight + 1
      -- from height 150000 on the interval is measured over its full length
      let blockstogoback :=
        if height ≥ 150000 ∧ height ≠ interval then interval else interval - 1
      let nHeightFirst := pindexLast.nHeight - blockstogoback
      if nHeightFirst < 0 then none
      else (getAncestor branch nHeightFirst).map fun pindexFirst =>
        calculateNextWorkRequired pindexLast pindexFirst.nTime.toNat params

/-- `PermittedDifficultyTransition`: the check of a node that knows heights and
targets but no timestamps. -/
def permittedDifficultyTransition (params : Params) (height : Int) (oldNbits newNbits : UInt32) :
    Bool :=
  if params.fPowAllowMinDifficultyBlocks then true
  else if height % params.difficultyAdjustmentInterval = 0 then
    let smallestTimespan :=
      if height ≤ 3500 then params.nPowTargetTimespan * 100 / 115
      else params.nPowTargetTimespan / 4
    let largestTimespan := params.nPowTargetTimespan * 2
    let observedNewTarget := (setCompact newNbits).value
    let maximumNewTarget :=
      (setCompact (getCompact (scaledTarget params oldNbits largestTimespan) false)).value
    let minimumNewTarget :=
      (setCompact (getCompact (scaledTarget params oldNbits smallestTimespan) false)).value
    if maximumNewTarget < observedNewTarget then false
    else if minimumNewTarget > observedNewTarget then false
    else true
  else decide (oldNbits = newNbits)

/-- `CheckProofOfWork`: the hash is not above the target, and the target is
one the rules allow. -/
def checkProofOfWork (hash : Uint256) (nBits : UInt32) (params : Params) : Bool :=
  let target := setCompact nBits
  if target.negative || target.value == 0 || target.overflow ||
      decide (target.value > uintToArith256 params.powLimit) then false
  else !decide (uintToArith256 hash > target.value)

/-- The largest value of `int`, which stands for an unknown height. -/
def intMax : Int := 2 ^ 31 - 1

/-- `CheckAuxPowProofOfWork`: the work of a header at a height, its own or that
of the parent block in its payload. The errors are those the source logs. -/
def checkAuxPowProofOfWork (block : CBlockHeader) (params : Params) (nHeight : Int) :
    Except String Unit :=
  let auxpowActive := decide (nHeight ≥ params.nAuxpowStartHeight)
  if auxpowActive && params.fStrictChainId && decide (nHeight ≠ intMax) &&
      block.getChainId != params.nAuxpowChainId then
    .error "CheckAuxPowProofOfWork: block does not have our chain ID"
  else
    match block.auxpow with
    | none =>
      if block.isAuxpow then
        .error "CheckAuxPowProofOfWork: no auxpow on block with auxpow version"
      else if !checkProofOfWork block.getPoWHash block.nBits params then
        .error "CheckAuxPowProofOfWork: non-AUX proof of work failed"
      else .ok ()
    | some auxpow =>
      if !block.isAuxpow then
        .error "CheckAuxPowProofOfWork: auxpow on block with non-auxpow version"
      -- before the activation height a payload is not looked at
      else if !auxpowActive then .ok ()
      else if !checkProofOfWork auxpow.parentBlock.getPoWHash block.nBits params then
        .error "CheckAuxPowProofOfWork: AUX proof of work failed"
      else
        match auxpow.check block.getHash block.getChainId params with
        | .error _ => .error "CheckAuxPowProofOfWork: AUX POW is not valid"
        | .ok () => .ok ()

/-! ### What the check says -/

/-- A payload proves the work of a header. -/
def CAuxPow.Proves (ap : CAuxPow) (params : Params) (b : CBlockHeader) : Prop :=
  checkProofOfWork ap.parentBlock.getPoWHash b.nBits params = true ∧
    ap.check b.getHash b.getChainId params = .ok ()

/-- Where chain ids are enforced the header has ours. -/
def CBlockHeader.ChainIdFits (b : CBlockHeader) (params : Params) (nHeight : Int) : Prop :=
  params.nAuxpowStartHeight ≤ nHeight → params.fStrictChainId = true → nHeight ≠ intMax →
    b.getChainId = params.nAuxpowChainId

theorem chainId_test_iff (b : CBlockHeader) (params : Params) (nHeight : Int) :
    (decide (nHeight ≥ params.nAuxpowStartHeight) && params.fStrictChainId &&
      decide (nHeight ≠ intMax) && b.getChainId != params.nAuxpowChainId) = true ↔
      ¬ b.ChainIdFits params nHeight := by
  simp [CBlockHeader.ChainIdFits, and_assoc]

theorem checkAuxPowProofOfWork_none {b : CBlockHeader} (h : b.auxpow = none) (params : Params)
    (nHeight : Int) :
    checkAuxPowProofOfWork b params nHeight = .ok () ↔ b.ChainIdFits params nHeight ∧
      b.isAuxpow = false ∧ checkProofOfWork b.getPoWHash b.nBits params = true := by
  rw [checkAuxPowProofOfWork]
  by_cases hchain : b.ChainIdFits params nHeight
  · rw [if_neg (by rw [chainId_test_iff]; exact not_not.mpr hchain)]
    simp only [h]
    split_ifs <;> simp_all
  · rw [if_pos ((chainId_test_iff b params nHeight).mpr hchain)]
    simp [hchain]

theorem checkAuxPowProofOfWork_some {b : CBlockHeader} {ap : CAuxPow} (h : b.auxpow = some ap)
    (params : Params) (nHeight : Int) :
    checkAuxPowProofOfWork b params nHeight = .ok () ↔ b.ChainIdFits params nHeight ∧
      b.isAuxpow = true ∧ (params.nAuxpowStartHeight ≤ nHeight → ap.Proves params b) := by
  rw [checkAuxPowProofOfWork]
  by_cases hchain : b.ChainIdFits params nHeight
  · rw [if_neg (by rw [chainId_test_iff]; exact not_not.mpr hchain)]
    simp only [h]
    split_ifs with hflag hact hpow
    · simp_all
    · simp_all
    · simp_all [CAuxPow.Proves]
    · cases hck : ap.check b.getHash b.getChainId params <;> simp_all [CAuxPow.Proves]
  · rw [if_pos ((chainId_test_iff b params nHeight).mpr hchain)]
    simp [hchain]

end Lithium
