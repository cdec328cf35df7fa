import Lithium.Pow

/-!
# Honest difficulty transitions are permitted

The rule that sets the target of a block and the check that a syncing node
makes without timestamps were written independently. The rule clamps the
measured timespan according to the height of the *last* block, the check
according to the height of the *new* one, and both round through the compact
form. This file proves that the check never refuses what the rule produces.

The argument has three parts. Below the limits of overflow the scaled target
is a number, monotone in the timespan (`scaledTarget_toNat`). Rounding through
the compact form is monotone (`compactFloor_mono`). And the clamped timespan
lies between the two that the check uses, on either side of height 3500.
-/

namespace Lithium
open BitVec List
variable {nBits genesisBits : UInt32} {params : Params} {last : CBlockIndex} {rest : Branch}
variable {pblock : CBlockHeader} {e : CBlockIndex}

/-- Parameters under which targets are adjusted and the arithmetic of the
adjustment does not overflow. -/
structure Params.Retargets (params : Params) : Prop where
  noMinDifficulty : params.fPowAllowMinDifficultyBlocks = false
  retargeting : params.fPowNoRetargeting = false
  timespan_pos : 0 < params.nPowTargetTimespan
  timespan_lt : params.nPowTargetTimespan * 2 < 2 ^ 32
  limit_lt : (uintToArith256 params.powLimit).toNat * (params.nPowTargetTimespan * 2).toNat <
    2 ^ 256

theorem mainParams_retargets : mainParams.Retargets where
  noMinDifficulty := rfl
  retargeting := rfl
  timespan_pos := by decide
  timespan_lt := by decide
  limit_lt := by
    decide +kernel

/-- A target that is not easier than the limit. -/
def InLimit (params : Params) (nBits : UInt32) : Prop :=
  (setCompact nBits).value ≤ uintToArith256 params.powLimit

section Scaling
variable {params : Params}

/-- Without overflow, scaling is division of numbers followed by the clamp. -/
theorem scaledTarget_toNat (hp : params.Retargets) (hbits : InLimit params nBits) {timespan : Int}
    (hpos : 0 ≤ timespan) (hmax : timespan ≤ params.nPowTargetTimespan * 2) :
    (scaledTarget params nBits timespan).toNat =
      min ((setCompact nBits).value.toNat * timespan.toNat / params.nPowTargetTimespan.toNat)
        (uintToArith256 params.powLimit).toNat := by
  have hlt := hp.timespan_lt
  have hlimit := hp.limit_lt
  have hval : (setCompact nBits).value.toNat ≤ (uintToArith256 params.powLimit).toNat :=
    le_def.mp hbits
  have hts : (timespan % 2 ^ 32).toNat = timespan.toNat := by omega
  have htarget : (params.nPowTargetTimespan % 2 ^ 64).toNat = params.nPowTargetTimespan.toNat := by
    omega
  have hmul : (mulUInt32 (setCompact nBits).value timespan).toNat =
      (setCompact nBits).value.toNat * timespan.toNat := by
    have hprod : (setCompact nBits).value.toNat * timespan.toNat < 2 ^ 256 :=
      lt_of_le_of_lt (Nat.mul_le_mul hval (by omega)) hlimit
    rw [mulUInt32_eq, hts, toNat_mul, toNat_ofNat,
      Nat.mod_eq_of_lt (show timespan.toNat < 2 ^ 256 by omega), Nat.mod_eq_of_lt hprod]
  have hspan : (BitVec.ofNat 256 params.nPowTargetTimespan.toNat).toNat =
      params.nPowTargetTimespan.toNat := by
    rw [toNat_ofNat, Nat.mod_eq_of_lt (by omega)]
  have hdiv : ((divide (mulUInt32 (setCompact nBits).value timespan)
      (BitVec.ofNat 256 (params.nPowTargetTimespan % 2 ^ 64).toNat)).getD 0).toNat =
      (setCompact nBits).value.toNat * timespan.toNat / params.nPowTargetTimespan.toNat := by
    have hT := hp.timespan_pos
    have hne : BitVec.ofNat 256 params.nPowTargetTimespan.toNat ≠ 0 := by
      intro hzero
      rw [hzero] at hspan
      change 0 = _ at hspan
      omega
    rw [htarget, divide_eq _ hne, Option.getD_some, toNat_udiv, hmul, hspan]
  unfold scaledTarget
  simp only [gt_iff_lt, lt_def, hdiv]
  split <;> omega

theorem scaledTarget_le_limit (nBits : UInt32) (timespan : Int) :
    scaledTarget params nBits timespan ≤ uintToArith256 params.powLimit := by
  unfold scaledTarget
  simp only [gt_iff_lt, lt_def, le_def]
  split <;> omega

/-- The target that a rounded number denotes. -/
theorem setCompact_getCompact_toNat (a : ArithUint256) :
    (setCompact (getCompact a false)).value.toNat = compactFloor a.toNat := by
  rw [setCompact_getCompact, toNat_ofNat]
  exact Nat.mod_eq_of_lt (lt_of_le_of_lt (compactFloor_le _) a.isLt)

/-- A longer timespan gives a target that is not harder, also after
rounding. -/
theorem rounded_scaledTarget_mono (hp : params.Retargets) (hbits : InLimit params nBits)
    {short long : Int} (hpos : 0 ≤ short) (hle : short ≤ long)
    (hmax : long ≤ params.nPowTargetTimespan * 2) :
    (setCompact (getCompact (scaledTarget params nBits short) false)).value ≤
      (setCompact (getCompact (scaledTarget params nBits long) false)).value := by
  rw [le_def, setCompact_getCompact_toNat, setCompact_getCompact_toNat]
  apply compactFloor_mono
  rw [scaledTarget_toNat hp hbits hpos (hle.trans hmax),
    scaledTarget_toNat hp hbits (hpos.trans hle) hmax]
  apply min_le_min_right
  exact Nat.div_le_div_right (Nat.mul_le_mul_left _ (Int.toNat_le_toNat hle))

theorem inLimit_getCompact (nBits : UInt32) (timespan : Int) :
    InLimit params (getCompact (scaledTarget params nBits timespan) false) := by
  unfold InLimit
  rw [le_def, setCompact_getCompact_toNat]
  exact (compactFloor_le _).trans (le_def.mp (scaledTarget_le_limit nBits timespan))

/-- The smallest timespan that the transition check allows for a height. -/
def smallestTimespan (params : Params) (height : Int) : Int :=
  if height ≤ 3500 then params.nPowTargetTimespan * 100 / 115 else params.nPowTargetTimespan / 4

theorem clampTimespan_bounds (hp : params.Retargets) (nHeight nActualTimespan : Int) :
    0 ≤ smallestTimespan params (nHeight + 1) ∧
      smallestTimespan params (nHeight + 1) ≤ clampTimespan params nHeight nActualTimespan ∧
      clampTimespan params nHeight nActualTimespan ≤ params.nPowTargetTimespan * 2 := by
  have hT := hp.timespan_pos
  unfold smallestTimespan clampTimespan
  simp only [ge_iff_le, gt_iff_lt]
  refine ⟨?_, ?_, ?_⟩
  · split <;> omega
  · split_ifs <;> omega
  · split_ifs <;> omega

end Scaling

/-! ### Honest branches -/

/-- A branch from a genesis block with target `genesisBits` on which every
block has the target the rule asks for. Timestamps are arbitrary. -/
inductive HonestBranch (params : Params) (genesisBits : UInt32) : Branch → Prop
  | genesis {e : CBlockIndex} : e.nHeight = 0 → e.nBits = genesisBits →
      HonestBranch params genesisBits [e]
  | block {e last : CBlockIndex} {rest : Branch} : HonestBranch params genesisBits (last :: rest) →
      e.nHeight = last.nHeight + 1 →
      getNextWorkRequired (last :: rest) e.getBlockHeader params = some e.nBits →
      HonestBranch params genesisBits (e :: last :: rest)

section
variable (hp : params.Retargets)

include hp

/-- Between two retargets the target stays as it is. -/
theorem getNextWorkRequired_between
    (h : (last.nHeight + 1) % params.difficultyAdjustmentInterval ≠ 0) (rest : Branch)
    (pblock : CBlockHeader) :
    getNextWorkRequired (last :: rest) pblock params = some last.nBits := by
  simp only [getNextWorkRequired, hp.noMinDifficulty, Bool.false_eq_true, if_false, if_pos h]

/-- What the rule can answer: the old target between two retargets, a scaled
one at a retarget. -/
theorem getNextWorkRequired_cases
    (h : getNextWorkRequired (last :: rest) pblock params = some nBits) :
    ((last.nHeight + 1) % params.difficultyAdjustmentInterval ≠ 0 ∧ nBits = last.nBits) ∨
    ((last.nHeight + 1) % params.difficultyAdjustmentInterval = 0 ∧
      ∃ nActualTimespan, nBits = getCompact (scaledTarget params last.nBits
        (clampTimespan params last.nHeight nActualTimespan)) false) := by
  by_cases hint : (last.nHeight + 1) % params.difficultyAdjustmentInterval = 0
  · refine Or.inr ⟨hint, ?_⟩
    simp only [getNextWorkRequired, if_neg (not_not.mpr hint)] at h
    generalize hfst : (last.nHeight - if last.nHeight + 1 ≥ 150000 ∧
      last.nHeight + 1 ≠ params.difficultyAdjustmentInterval then
        params.difficultyAdjustmentInterval
      else params.difficultyAdjustmentInterval - 1) = nHeightFirst at h
    split at h
    · cases h
    · obtain ⟨first, -, hbits⟩ := Option.map_eq_some_iff.mp h
      refine ⟨last.nTime.toNat - first.nTime.toNat, ?_⟩
      rw [← hbits, calculateNextWorkRequired, hp.retargeting]
      rfl
  · rw [getNextWorkRequired_between hp hint] at h
    exact Or.inl ⟨hint, (Option.some.inj h).symm⟩

/-- One step: a target that the rule sets is within the limit, and the check
lets the transition pass. -/
theorem nextWork_permitted (hlast : InLimit params last.nBits)
    (h : getNextWorkRequired (last :: rest) pblock params = some nBits) : InLimit params nBits ∧
      permittedDifficultyTransition params (last.nHeight + 1) last.nBits nBits = true := by
  unfold permittedDifficultyTransition
  rw [hp.noMinDifficulty]
  rcases getNextWorkRequired_cases hp h with ⟨hint, rfl⟩ | ⟨hint, timespan, rfl⟩
  · simp [hint, hlast]
  · obtain ⟨hpos, hsmall, hlarge⟩ := clampTimespan_bounds hp last.nHeight timespan
    have hmax := rounded_scaledTarget_mono hp hlast (hpos.trans hsmall) hlarge le_rfl
    have hmin := rounded_scaledTarget_mono hp hlast hpos hsmall hlarge
    refine ⟨inLimit_getCompact _ _, ?_⟩
    unfold smallestTimespan at hmin
    simp only [hint, Bool.false_eq_true, if_false, if_true]
    rw [if_neg (BitVec.not_lt.mpr hmax), if_neg (BitVec.not_lt.mpr hmin)]

/-- Along an honest branch every target stays within the limit. -/
theorem HonestBranch.inLimit (hgen : InLimit params genesisBits)
    {branch : Branch} (h : HonestBranch params genesisBits branch) :
    ∀ e ∈ branch, InLimit params e.nBits := by
  induction h with
  | genesis hht hbits =>
    intro e he
    obtain rfl := mem_singleton.mp he
    rwa [hbits]
  | block hprev hht hnext ih =>
    intro e he
    rcases mem_cons.mp he with rfl | he
    · exact (nextWork_permitted hp (ih _ mem_cons_self) hnext).1
    · exact ih e he

end

/-- The blocks below a block of an honest branch form an honest branch. -/
theorem HonestBranch.of_append {later : Branch} {earlier : Branch}
    (h : HonestBranch params genesisBits (later ++ e :: earlier)) :
    HonestBranch params genesisBits (e :: earlier) := by
  induction later with
  | nil => exact h
  | cons a later ih =>
    apply ih
    rw [List.cons_append] at h
    generalize hbr : later ++ e :: earlier = branch at h ⊢
    cases h with
    | genesis => simp at hbr
    | block hprev => exact hprev

/-- The heights of an honest branch count down to the genesis block. -/
theorem HonestBranch.height (h : HonestBranch params genesisBits (e :: rest)) :
    e.nHeight = rest.length := by
  generalize hbr : e :: rest = branch at h
  induction h generalizing e rest with
  | genesis hht =>
    obtain ⟨rfl, rfl⟩ := cons.inj hbr
    simpa using hht
  | block hprev hht hnext ih =>
    obtain ⟨rfl, rfl⟩ := cons.inj hbr
    rw [hht, ih rfl, length_cons]
    rfl

def genesisNBits : UInt32 := 503382015

theorem genesisNBits_inLimit : InLimit mainParams genesisNBits := by
  unfold InLimit
  decide +kernel

/-- On the main network, whatever the timestamps, no transition of an honest
branch is refused, at any height. -/
theorem honest_transitions_permitted {branch : Branch}
    (h : HonestBranch mainParams genesisNBits branch) {later earlier : Branch}
    {e last : CBlockIndex} (hspl : branch = later ++ e :: last :: earlier) :
    e.nHeight = earlier.length + 1 ∧
      permittedDifficultyTransition mainParams e.nHeight last.nBits e.nBits = true := by
  subst hspl
  have hhere := h.of_append
  refine ⟨by simpa using hhere.height, ?_⟩
  cases hhere with
  | block hprev hht hnext =>
    have hlast := hprev.inLimit mainParams_retargets genesisNBits_inLimit _ mem_cons_self
    rw [hht]
    exact (nextWork_permitted mainParams_retargets hlast hnext).2

/-- A block found the moment the last one was. -/
def instantBlock (height : Nat) (nBits : UInt32) : CBlockIndex :=
  { CBlockIndex.ofHeader .zero ⟨⟨0x10, .zero, .zero, 1411788333, nBits, 0⟩, none⟩ with
    nHeight := height }

/-- On the main network the new target is that of unbounded arithmetic: the product
fits 256 bits and the timespan 32, and what is returned decodes to a target that is
within the limit and at most doubled. -/
theorem retarget_exact (last : CBlockIndex) (nFirstBlockTime : Int)
    (hlimit : InLimit mainParams last.nBits) :
    let t := (setCompact last.nBits).value.toNat
    let limit := (uintToArith256 mainParams.powLimit).toNat
    let T := mainParams.nPowTargetTimespan
    let s := clampTimespan mainParams last.nHeight (last.nTime.toNat - nFirstBlockTime)
    let nBits := calculateNextWorkRequired last nFirstBlockTime mainParams
    nBits = getCompact (BitVec.ofNat 256 (min limit (t * s.toNat / T.toNat))) false ∧
      t * s.toNat < 2 ^ 256 ∧ s % 2 ^ 32 = s ∧ min (T / 4) (100 * T / 115) ≤ s ∧ s ≤ 2 * T ∧
      (setCompact nBits).negative = false ∧ (setCompact nBits).overflow = false ∧
      (setCompact nBits).value.toNat ≤ limit ∧ (setCompact nBits).value.toNat ≤ 2 * t := by
  intro t limit T s nBits
  have hp := mainParams_retargets
  have hT := hp.timespan_pos
  have hlt := hp.timespan_lt
  obtain ⟨hpos, hsmall, hlarge⟩ := clampTimespan_bounds hp last.nHeight
    (last.nTime.toNat - nFirstBlockTime)
  have hs : 0 ≤ s := hpos.trans hsmall
  have hscaled := scaledTarget_toNat hp hlimit hs hlarge
  have hnBits : nBits = getCompact (scaledTarget mainParams last.nBits s) false := rfl
  have hval : (setCompact nBits).value.toNat ≤ min (t * s.toNat / T.toNat) limit := by
    rw [hnBits, setCompact_getCompact_toNat, ← hscaled]
    exact compactFloor_le _
  refine ⟨?_, ?_, ?_, ?_, ?_, ?_, ?_, hval.trans (min_le_right _ _), ?_⟩
  · rw [min_comm, ← hscaled, ofNat_toNat, setWidth_eq]
    exact hnBits
  · refine lt_of_le_of_lt (Nat.mul_le_mul (le_def.mp hlimit) ?_) hp.limit_lt
    exact Int.toNat_le_toNat hlarge
  · exact Int.emod_eq_of_lt hs (by omega)
  · refine le_trans ?_ hsmall
    unfold smallestTimespan
    split_ifs <;> omega
  · omega
  · rw [hnBits, setCompact_getCompact]
  · rw [hnBits, setCompact_getCompact]
  · refine (hval.trans (min_le_left _ _)).trans ?_
    calc t * s.toNat / T.toNat ≤ t * (T.toNat * 2) / T.toNat :=
          Nat.div_le_div_right (Nat.mul_le_mul_left _ (by omega))
      _ = 2 * t := by
          rw [Nat.mul_left_comm, Nat.mul_div_cancel_left _ (by omega), Nat.mul_comm]

theorem retarget_exact_genesis : InLimit mainParams genesisNBits ∧
    (setCompact (calculateNextWorkRequired
      (instantBlock 19 genesisNBits) 0 mainParams)).value.toNat ≤
      2 * (setCompact genesisNBits).value.toNat :=
  ⟨genesisNBits_inLimit,
    (retarget_exact (instantBlock 19 genesisNBits) 0 genesisNBits_inLimit).2.2.2.2.2.2.2.2⟩

/-- The first `n + 1` blocks of such a branch. -/
def instantBranch : Nat → Branch
  | 0 => [instantBlock 0 genesisNBits]
  | n + 1 => instantBlock (n + 1) genesisNBits :: instantBranch n

theorem instantBranch_honest {n : Nat} (h : n < 20) :
    HonestBranch mainParams genesisNBits (instantBranch n) := by
  induction n with
  | zero => exact .genesis rfl rfl
  | succ n ih =>
    have hprev := ih (by omega)
    have hcons : instantBranch n = instantBlock n genesisNBits :: (instantBranch n).tail := by
      cases n <;> rfl
    have hint : ((n : Int) + 1) % mainParams.difficultyAdjustmentInterval ≠ 0 := by
      change ((n : Int) + 1) % 20 ≠ 0
      omega
    rw [instantBranch, hcons]
    rw [hcons] at hprev
    exact .block hprev (by simp [instantBlock])
      (getNextWorkRequired_between mainParams_retargets hint _ _)

/-- The first retarget of the branch: the difficulty rises by the most that is
allowed, and the check lets it pass. -/
theorem honest_transitions_permitted_at_first_retarget :
    permittedDifficultyTransition mainParams 20 genesisNBits 0x1e00de93 = true := by
  have hnext : getNextWorkRequired (instantBranch 19)
      (instantBlock 20 0x1e00de93).getBlockHeader mainParams = some 0x1e00de93 := by
    decide +kernel
  have hbr : HonestBranch mainParams genesisNBits
      (instantBlock 20 0x1e00de93 :: instantBranch 19) :=
    .block (instantBranch_honest (n := 19) (by norm_num)) rfl hnext
  have hspl : instantBlock 20 0x1e00de93 :: instantBranch 19 =
      [] ++ instantBlock 20 0x1e00de93 :: instantBlock 19 genesisNBits :: instantBranch 18 := rfl
  exact (honest_transitions_permitted hbr hspl).2

end Lithium
