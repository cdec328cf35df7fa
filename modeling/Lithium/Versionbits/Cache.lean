import Lithium.BlockTree

/-!
# The cache of deployment states

`GetStateFor` and `GetStateSinceHeightFor` share a cache with all other queries. What
the answers should be is said without a cache: the state of a period follows
from the state of the period before, and that of the first period is `defined`. The
cut-off at the start time agrees with this only because the median time never
decreases along a branch.
-/

namespace Lithium
open ThresholdConditionChecker List Option BIP9Deployment BlockTree

/-! ### Since when -/

namespace ThresholdConditionCache

/-- The loop of `GetStateSinceHeightFor`; `n` bounds it. -/
def sinceLoop (c : ThresholdConditionChecker) (initialState : ThresholdState) :
    Nat → Branch → ThresholdConditionCache → Option (Int × ThresholdConditionCache)
  | 0, _, _ => none
  | n + 1, branch, cache =>
    let previousPeriodParent := ancestorBranch branch (heightOf branch - c.period)
    if previousPeriodParent.isEmpty then some (heightOf branch + 1, cache)
    else
      match getStateFor c previousPeriodParent cache with
      | none => none
      | some (state, cache) =>
        if state = initialState then sinceLoop c initialState n previousPeriodParent cache
        else some (heightOf branch + 1, cache)

/-- `GetStateSinceHeightFor`; nothing when an assertion fails. -/
def getStateSinceHeightFor (c : ThresholdConditionChecker) (branch : Branch)
    (cache : ThresholdConditionCache) : Option (Int × ThresholdConditionCache) :=
  if c.beginTime = alwaysActive ∨ c.beginTime = neverActive then some (0, cache)
  else
    match getStateFor c branch cache with
    | none => none
    | some (initialState, cache) =>
      if initialState = .defined then some (0, cache)
      else if (periodParent c branch).isEmpty then none
      else sinceLoop c initialState (branch.length + 1) (periodParent c branch) cache

end ThresholdConditionCache

/-! ### What the answers should be -/

/-- The changes of state that BIP9 knows. -/
inductive ThresholdState.Advances : ThresholdState → ThresholdState → Prop
  | start : Advances .defined .started
  | lockIn : Advances .started .lockedIn
  | fail : Advances .started .failed
  | activate : Advances .lockedIn .active

namespace ThresholdConditionChecker

/-- The state of the blocks of a period, from the genesis block on. The blocks of
period `k` have the heights from `k * period` on. -/
def periodState (c : ThresholdConditionChecker) (branch : Branch) : Nat → ThresholdState
  | 0 => .defined
  | k + 1 =>
    -- down from the last block of the period before
    let past := ancestorBranch branch ((k + 1) * c.period - 1)
    match periodState c branch k with
    | .defined => if c.beginTime ≤ getMedianTimePast past then .started else .defined
    | .started =>
      if c.threshold ≤ (past.take c.period).countP c.condition then .lockedIn
      else if c.endTime ≤ getMedianTimePast past then .failed
      else .started
    | .lockedIn => if c.minActivationHeight ≤ (k + 1) * c.period then .active else .lockedIn
    | .active => .active
    | .failed => .failed

/-- The state of the block at a height of a branch, or of one that extends it. Two
start times have a meaning of their own. -/
def stateAt (c : ThresholdConditionChecker) (branch : Branch) (height : Nat) : ThresholdState :=
  if c.beginTime = alwaysActive then .active
  else if c.beginTime = neverActive then .failed
  else c.periodState branch (height / c.period)

theorem stateAt_eq {c : ThresholdConditionChecker}
    (h : ¬ (c.beginTime = alwaysActive ∨ c.beginTime = neverActive)) (branch : Branch)
      (height : Nat) :
    c.stateAt branch height = c.periodState branch (height / c.period) := by
  obtain ⟨halways, hnever⟩ := not_or.mp h
  rw [stateAt, if_neg halways, if_neg hnever]

end ThresholdConditionChecker

/-! ### Heights -/

variable {n k : Nat}

/-- The median time never decreases along a branch. -/
def BlockTree.MedianTimeMonotone (T : BlockTree) : Prop :=
  ∀ e rest, T.Mem (e :: rest) → rest ≠ [] → getMedianTimePast rest ≤ getMedianTimePast (e :: rest)

namespace ThresholdConditionCache
variable {c : ThresholdConditionChecker} {branch : Branch}

theorem heightOf_eq (h : Rooted branch) : heightOf branch = branch.length - 1 := by
  cases branch with
  | nil => rfl
  | cons e rest =>
    rw [length_cons]
    change e.nHeight = _
    rw [h.1]
    omega

theorem ancestorBranch_back (h : Rooted branch) (hp : 0 < c.period) :
    ancestorBranch branch (heightOf branch - c.period) = branch.drop c.period := by
  rw [heightOf_eq h, h.ancestorBranch (by omega)]
  by_cases hle : c.period ≤ branch.length
  · congr 1
    omega
  · rw [drop_of_length_le (by omega), drop_of_length_le (by omega)]

theorem periodParent_eq (h : Rooted branch) :
    periodParent c branch = branch.drop (branch.length % c.period) := by
  rw [periodParent]
  cases branch with
  | nil => simp
  | cons e rest =>
    have hmod : (heightOf (e :: rest) + 1) % (c.period : Int) =
        (((e :: rest).length % c.period : Nat) : Int) := by
      rw [heightOf_eq h, Int.natCast_mod]
      congr 1
      omega
    have hle := Nat.mod_le (e :: rest).length c.period
    rw [isEmpty_cons, if_neg Bool.false_ne_true, hmod, heightOf_eq h, h.ancestorBranch (by omega)]
    congr 1
    omega

/-- What is left of a branch without the blocks of the last period. -/
theorem length_periodParent (branch : Branch) : (branch.drop (branch.length % c.period)).length =
    branch.length / c.period * c.period := by
  have hdiv := Nat.div_add_mod' branch.length c.period
  rw [length_drop]
  omega

theorem getMedianTimePast_drop {T : BlockTree} (hmono : T.MedianTimeMonotone) (h : T.Mem branch)
    (hn : n < branch.length) : getMedianTimePast (branch.drop n) ≤ getMedianTimePast branch := by
  induction branch generalizing n with
  | nil => exact absurd hn (Nat.not_lt_zero n)
  | cons e rest ih =>
    cases n with
    | zero => exact le_rfl
    | succ n =>
      have hn : n < rest.length := Nat.lt_of_succ_lt_succ hn
      refine (ih h.tail hn).trans (hmono e rest h fun hnil => ?_)
      rw [hnil] at hn
      exact Nat.not_lt_zero n hn

end ThresholdConditionCache

namespace ThresholdConditionChecker
open ThresholdConditionCache
variable {c : ThresholdConditionChecker} {branch : Branch}

theorem periodState_succ (k : Nat) : c.periodState branch (k + 1) = c.periodState branch k ∨
      (c.periodState branch k).Advances (c.periodState branch (k + 1)) := by
  rw [periodState]
  cases c.periodState branch k with
  | defined =>
    dsimp only
    split_ifs
    · exact Or.inr .start
    · exact Or.inl rfl
  | started =>
    dsimp only
    split_ifs
    · exact Or.inr .lockIn
    · exact Or.inr .fail
    · exact Or.inl rfl
  | lockedIn =>
    dsimp only
    split_ifs
    · exact Or.inr .activate
    · exact Or.inl rfl
  | active | failed => exact Or.inl rfl

/-- Where the period before number `k + 1` ends. -/
theorem past_eq (h : Rooted branch) (hk : (k + 1) * c.period ≤ branch.length) :
    ancestorBranch branch ((k + 1) * c.period - 1) =
      branch.drop (branch.length - (k + 1) * c.period) := by
  have hcast : ((k : Int) + 1) * c.period = (((k + 1) * c.period : Nat) : Int) := by push_cast; rfl
  rw [hcast, h.ancestorBranch (by omega)]
  congr 1
  omega

/-- The states of the periods that are complete do not depend on later blocks. -/
theorem periodState_drop (h : Rooted branch) (hk : k * c.period ≤ (branch.drop n).length) :
    c.periodState (branch.drop n) k = c.periodState branch k := by
  induction k with
  | zero => rfl
  | succ k ih =>
    have hk' := hk
    rw [length_drop] at hk'
    have hprev : k * c.period ≤ (branch.drop n).length :=
      (Nat.mul_le_mul_right _ (Nat.le_succ k)).trans hk
    have hpast : (branch.drop n).drop ((branch.drop n).length - (k + 1) * c.period) =
        branch.drop (branch.length - (k + 1) * c.period) := by
      rw [drop_drop, length_drop]
      by_cases hn : n ≤ branch.length
      · congr 1
        omega
      · rw [drop_of_length_le (by omega), drop_of_length_le (by omega)]
    rw [periodState, periodState, ih hprev, past_eq (h.drop n) hk, past_eq h (by omega), hpast]

/-- Before the start time nothing has happened. -/
theorem periodState_of_early {T : BlockTree} (hmono : T.MedianTimeMonotone) (h : T.Mem branch)
    (hp : 0 < c.period) (hearly : getMedianTimePast branch < c.beginTime)
    (hk : k * c.period ≤ branch.length) : c.periodState branch k = .defined := by
  induction k with
  | zero => rfl
  | succ k ih =>
    have hpos : 0 < (k + 1) * c.period := Nat.mul_pos k.succ_pos hp
    have hprev := ih ((Nat.mul_le_mul_right _ (Nat.le_succ k)).trans hk)
    have hpast := getMedianTimePast_drop hmono h (n := branch.length - (k + 1) * c.period)
      (by omega)
    rw [periodState, hprev]
    rw [past_eq h.rooted hk, if_neg (by omega)]

/-- A state that is still `defined` was so from the start. -/
theorem periodState_defined_mono {j : Nat} (hjk : j ≤ k) (h : c.periodState branch k = .defined) :
    c.periodState branch j = .defined := by
  induction k with
  | zero =>
    rw [Nat.le_zero.mp hjk]
    rfl
  | succ k ih =>
    rcases Nat.lt_or_ge k j with hlt | hle
    · rw [show j = k + 1 by omega]
      exact h
    · rcases c.periodState_succ k with hsame | hadv
      · exact ih hle (hsame.symm.trans h)
      · rw [h] at hadv
        generalize c.periodState branch k = before at hadv
        cases hadv

/-- The `switch` of the code is the step from one period to the next. -/
theorem stateNext_eq (h : Rooted branch) (hlen : branch.length = (k + 1) * c.period) :
    c.stateNext branch (heightOf branch) (c.periodState (branch.drop c.period) k) =
      c.periodState branch (k + 1) := by
  have hdrop : c.periodState (branch.drop c.period) k = c.periodState branch k := by
    refine periodState_drop h ?_
    rw [length_drop, hlen, Nat.succ_mul]
    omega
  have hpast : ancestorBranch branch ((k + 1) * c.period - 1) = branch := by
    rw [past_eq h hlen.ge, hlen, Nat.sub_self, drop_zero]
  rw [hdrop, periodState, hpast, heightOf_eq h, hlen]
  cases c.periodState branch k <;> simp [stateNext]

end ThresholdConditionChecker

/-! ### The cache is right -/

namespace ThresholdConditionCache
variable {c : ThresholdConditionChecker} {T : BlockTree} {branch : Branch}
  {cache : ThresholdConditionCache}

/-- The state after the periods of a branch. -/
def boundaryState (c : ThresholdConditionChecker) (branch : Branch) : ThresholdState :=
  c.periodState branch (branch.length / c.period)

/-- All that is known is right. -/
def Sound (T : BlockTree) (c : ThresholdConditionChecker)
    (cache : ThresholdConditionCache) : Prop :=
  ∀ branch state, T.Mem branch → c.period ∣ branch.length →
    cache (branchPtr branch) = some state → state = boundaryState c branch

theorem sound_empty (T : BlockTree) (c : ThresholdConditionChecker) : empty.Sound T c :=
  nofun

theorem Sound.store (hcache : cache.Sound T c) (h : T.Mem branch) :
    (cache.store branch (boundaryState c branch)).Sound T c := by
  intro branch' state hmem hbd hst
  rw [ThresholdConditionCache.store, Function.update_apply] at hst
  split_ifs at hst with hptr
  · rw [hmem.ext h hptr]
    exact (some.inj hst).symm
  · exact hcache branch' state hmem hbd hst

/-- Walking forward from here does what it does from the state after a period, and
leaves the cache right. -/
abbrev LeadsTo (T : BlockTree) (c : ThresholdConditionChecker) (branch : Branch)
    (todo : List Branch) (back : Option (List Branch × Branch × ThresholdConditionCache)) : Prop :=
  ∃ todo' branch' cache' state cache'', back = some (todo', branch', cache') ∧
    cache' (branchPtr branch') = some state ∧ cache''.Sound T c ∧
    walkForward c todo' state cache' = walkForward c todo (boundaryState c branch) cache''

/-- A height from which the complete periods have had the same state. -/
abbrev SameSince (T : BlockTree) (c : ThresholdConditionChecker) (branch : Branch) (k : Nat)
    (state : ThresholdState) (answer : Option (Int × ThresholdConditionCache)) : Prop :=
  ∃ j cache', answer = some (((j * c.period : Nat) : Int), cache') ∧ cache'.Sound T c ∧ j ≤ k ∧
    (∀ i, j ≤ i → i ≤ k → c.periodState branch i = state) ∧
    ∃ i, j = i + 1 ∧ c.periodState branch i ≠ state

section
variable (hp : 0 < c.period) (hmono : T.MedianTimeMonotone)
include hp hmono

theorem walkBack_walkForward (hcache : cache.Sound T c) (h : T.Mem branch)
    (hbd : c.period ∣ branch.length) (hn : branch.length < n) (todo : List Branch) :
    LeadsTo T c branch todo (walkBack c cache n branch todo) := by
  induction n generalizing branch todo with
  | zero => exact absurd hn (Nat.not_lt_zero _)
  | succ n ih =>
    rw [walkBack]
    cases hkn : cache (branchPtr branch) with
    | some state =>
      obtain rfl := hcache branch state h hbd hkn
      exact ⟨todo, branch, cache, _, cache, rfl, hkn, hcache, rfl⟩
    | none =>
      rw [isSome_none, if_neg Bool.false_ne_true]
      have hdef : boundaryState c branch = .defined →
          LeadsTo T c branch todo (some (todo, branch, cache.store branch .defined)) := by
        intro heq
        refine ⟨todo, branch, cache.store branch .defined, .defined, _, rfl,
          Function.update_self _ _ _, hcache.store h, ?_⟩
        rw [heq]
      cases branch with
      | nil =>
        exact hdef (by rw [boundaryState, length_nil, Nat.zero_div]; rfl)
      | cons e rest =>
        rw [isEmpty_cons, if_neg Bool.false_ne_true]
        split_ifs with hearly
        · exact hdef (periodState_of_early hmono h hp hearly (Nat.div_mul_le_self _ _))
        · obtain ⟨k, hk⟩ := hbd
          -- a branch that is not empty has a complete period
          obtain ⟨k, rfl⟩ := Nat.exists_eq_succ_of_ne_zero (n := k) (by
            rintro rfl
            simp at hk)
          rw [Nat.mul_comm] at hk
          have hdrop : ((e :: rest).drop c.period).length = k * c.period := by
            rw [length_drop, hk, Nat.succ_mul]
            omega
          obtain ⟨todo', branch', cache', state, cache'', hwalk, hst, hsound, hforward⟩ :=
            ih (h.drop c.period) ⟨k, by rw [hdrop, Nat.mul_comm]⟩ (by
              rw [hk, Nat.succ_mul] at hn
              omega) ((e :: rest) :: todo)
          have hback : boundaryState c ((e :: rest).drop c.period) =
              c.periodState ((e :: rest).drop c.period) k := by
            rw [boundaryState, hdrop, Nat.mul_div_cancel _ hp]
          have hnext : boundaryState c (e :: rest) = c.periodState (e :: rest) (k + 1) := by
            rw [boundaryState, hk, Nat.mul_div_cancel _ hp]
          rw [ancestorBranch_back h.rooted hp]
          refine ⟨todo', branch', cache', state, _, hwalk, hst, hsound.store h, ?_⟩
          rw [hforward, walkForward, hback, stateNext_eq h.rooted hk, hnext]

/-- `GetStateFor` gives the state that the chain has, and leaves the cache right. -/
theorem getStateFor_eq (hcache : cache.Sound T c) (h : T.Mem branch) :
    ∃ cache', getStateFor c branch cache = some (c.stateAt branch branch.length, cache') ∧
      cache'.Sound T c := by
  rw [getStateFor, stateAt]
  split_ifs
  · exact ⟨cache, rfl, hcache⟩
  · exact ⟨cache, rfl, hcache⟩
  · have hlen := length_periodParent (c := c) branch
    have hpar : periodParent c branch = branch.drop (branch.length % c.period) :=
      periodParent_eq h.rooted
    obtain ⟨todo', branch', cache', state, cache'', hwalk, hst, hsound, hforward⟩ :=
      walkBack_walkForward hp hmono hcache (h.drop (branch.length % c.period))
        ⟨_, by rw [hlen, Nat.mul_comm]⟩ (n := branch.length + 1)
        (by rw [length_drop]; omega) []
    have hbd : boundaryState c (branch.drop (branch.length % c.period)) =
        c.periodState branch (branch.length / c.period) := by
      rw [boundaryState, hlen, Nat.mul_div_cancel _ hp]
      exact periodState_drop h.rooted hlen.ge
    rw [hpar, hwalk]
    dsimp only
    rw [hst, map_some, hforward, hbd]
    exact ⟨cache'', rfl, hsound⟩

/-- The answer that the rules of a block are decided by is given on every cache that
earlier queries leave. -/
theorem getStateFor_versionBitsState {params : Params} {pos : DeploymentPos}
    (hc : c = versionBitsConditionChecker params pos) (hcache : cache.Sound T c)
    (h : T.Mem branch) : ∃ cache',
      getStateFor c branch cache = some (versionBitsState params branch pos, cache') ∧
        cache'.Sound T c := by
  obtain ⟨_, hemp, -⟩ := getStateFor_eq hp hmono (sound_empty T c) h
  rw [versionBitsState, ← hc, hemp]
  exact getStateFor_eq hp hmono hcache h

/-- The loop of `GetStateSinceHeightFor` goes back over the complete periods with the
same state. -/
theorem sinceLoop_eq (hspec : ¬ (c.beginTime = alwaysActive ∨ c.beginTime = neverActive))
    (hcache : cache.Sound T c) {initialState : ThresholdState} (hinit : initialState ≠ .defined)
    (h : T.Mem branch) (hlen : branch.length = k * c.period) (hn : k ≤ n)
    (hst : c.periodState branch k = initialState) :
    SameSince T c branch k initialState (sinceLoop c initialState n branch cache) := by
  induction n generalizing branch k cache with
  | zero =>
    obtain rfl := Nat.le_zero.mp hn
    exact absurd hst.symm hinit
  | succ n ih =>
    cases k with
    | zero => exact absurd hst.symm hinit
    | succ k =>
      have hht : heightOf branch + 1 = (((k + 1) * c.period : Nat) : Int) := by
        rw [heightOf_eq h.rooted, hlen]
        omega
      have hdrop : (branch.drop c.period).length = k * c.period := by
        rw [length_drop, hlen, Nat.succ_mul]
        omega
      have hsame : ∀ {i}, i ≤ k →
          c.periodState (branch.drop c.period) i = c.periodState branch i := fun hi =>
        periodState_drop h.rooted (hdrop ▸ Nat.mul_le_mul_right _ hi)
      have hstop : c.periodState branch k ≠ initialState → ∀ cache, Sound T c cache →
          SameSince T c branch (k + 1) initialState (some (heightOf branch + 1, cache)) := by
        intro hne cache hcache
        refine ⟨k + 1, cache, by rw [hht], hcache, le_rfl, fun i hi hi' => ?_, k, rfl, hne⟩
        rw [le_antisymm hi' hi]
        exact hst
      rw [sinceLoop, ancestorBranch_back h.rooted hp]
      by_cases hemp : (branch.drop c.period).isEmpty
      · rw [if_pos hemp]
        refine hstop ?_ cache hcache
        rw [isEmpty_iff.mp hemp, length_nil] at hdrop
        have hk : k = 0 := (Nat.mul_eq_zero.mp hdrop.symm).resolve_right hp.ne'
        rw [hk]
        exact hinit.symm
      · obtain ⟨cache', hget, hcache'⟩ := getStateFor_eq hp hmono hcache (h.drop c.period)
        have hat : c.stateAt (branch.drop c.period) (branch.drop c.period).length =
            c.periodState branch k := by
          rw [stateAt_eq hspec, hdrop, Nat.mul_div_cancel _ hp, hsame le_rfl]
        rw [if_neg hemp, hget]
        dsimp only
        rw [hat]
        split_ifs with heq
        · obtain ⟨j, cache'', hloop, hcache'', hj, hall, i, hi, hne⟩ :=
            ih hcache' (h.drop c.period) hdrop (Nat.le_of_succ_le_succ hn)
              ((hsame le_rfl).trans heq)
          refine ⟨j, cache'', hloop, hcache'', hj.trans (Nat.le_succ k), fun i' hi' hik =>
            ?_, i, hi,
            ?_⟩
          · rcases Nat.lt_or_ge k i' with hlt | hle
            · rw [show i' = k + 1 by omega]
              exact hst
            · rw [← hsame hle]
              exact hall i' hi' hle
          · rw [← hsame (by omega)]
            exact hne
        · exact hstop heq cache' hcache'

end
end ThresholdConditionCache

namespace ThresholdConditionChecker

/-- The least height from which the branch has had the state of the block after it
without a break. -/
structure StateSince (c : ThresholdConditionChecker) (branch : Branch) (since : Nat) : Prop where
  le : since ≤ branch.length
  continuous : ∀ height, since ≤ height → height ≤ branch.length →
    c.stateAt branch height = c.stateAt branch branch.length
  least : ∀ start, start < since → ∃ height, start ≤ height ∧ height ≤ branch.length ∧
    c.stateAt branch height ≠ c.stateAt branch branch.length

end ThresholdConditionChecker

namespace ThresholdConditionCache
variable {c : ThresholdConditionChecker} {T : BlockTree} {branch : Branch}
  {cache : ThresholdConditionCache}

theorem getStateSinceHeightFor_eq (hp : 0 < c.period) (hmono : T.MedianTimeMonotone)
    (hcache : cache.Sound T c) (h : T.Mem branch) :
    ∃ (since : Nat) (cache' : ThresholdConditionCache),
      getStateSinceHeightFor c branch cache = some ((since : Int), cache') ∧ cache'.Sound T c ∧
      c.StateSince branch since := by
  rw [getStateSinceHeightFor]
  by_cases hspec : c.beginTime = alwaysActive ∨ c.beginTime = neverActive
  · rw [if_pos hspec]
    refine ⟨0, cache, rfl, hcache, Nat.zero_le _, fun height _ _ => ?_, fun _ hlt => ?_⟩
    · rw [stateAt, stateAt]
      split_ifs with halways hnever
      · rfl
      · rfl
      · exact absurd hspec (not_or.mpr ⟨halways, hnever⟩)
    · exact absurd hlt (Nat.not_lt_zero _)
  · obtain ⟨cache', hget, hcache'⟩ := getStateFor_eq hp hmono hcache h
    have hstateAt := c.stateAt_eq hspec branch
    rw [if_neg hspec, hget]
    dsimp only
    by_cases hdef : c.stateAt branch branch.length = .defined
    · -- nothing comes before `defined`
      rw [if_pos hdef]
      refine ⟨0, cache', rfl, hcache', Nat.zero_le _, fun height _ hle => ?_, fun _ hlt => ?_⟩
      · rw [hdef]
        rw [hstateAt] at hdef ⊢
        exact periodState_defined_mono (Nat.div_le_div_right hle) hdef
      · exact absurd hlt (Nat.not_lt_zero _)
    · have hemp : ¬ (periodParent c branch).isEmpty = true := by
        refine fun hemp => hdef ?_
        have hlen := congrArg length (isEmpty_iff.mp hemp)
        rw [periodParent_eq h.rooted, length_drop, length_nil] at hlen
        have hle := Nat.mod_lt branch.length hp
        rw [hstateAt, Nat.div_eq_of_lt (by omega)]
        rfl
      rw [if_neg hdef, if_neg hemp]
      have hlen := length_periodParent (c := c) branch
      have hsame : ∀ {i}, i ≤ branch.length / c.period →
          c.periodState (branch.drop (branch.length % c.period)) i = c.periodState branch i :=
            fun hi =>
        periodState_drop h.rooted (hlen ▸ Nat.mul_le_mul_right _ hi)
      have hfuel : branch.length / c.period ≤ branch.length + 1 :=
        (Nat.div_le_self _ _).trans (Nat.le_succ _)
      obtain ⟨j, cache'', hloop, hcache'', hj, hall, i, hi, hne⟩ :=
        sinceLoop_eq hp hmono hspec hcache' hdef (h.drop (branch.length % c.period)) hlen
          hfuel ((hsame le_rfl).trans (hstateAt _).symm)
      rw [periodParent_eq h.rooted]
      refine ⟨j * c.period, cache'', hloop, hcache'', ?_, fun height hle hge => ?_,
        fun start hlt => ?_⟩
      · exact (Nat.mul_le_mul_right _ hj).trans (Nat.div_mul_le_self _ _)
      · have hge' : height / c.period ≤ branch.length / c.period := Nat.div_le_div_right hge
        rw [hstateAt height, ← hsame hge']
        exact hall _ ((Nat.le_div_iff_mul_le hp).mpr hle) hge'
      · -- the last block of the period before has another state
        subst hi
        have hlast : ((i + 1) * c.period - 1) / c.period = i := by
          have hmul : (i + 1) * c.period = i * c.period + c.period := Nat.succ_mul i c.period
          exact Nat.div_eq_of_lt_le (by omega) (by omega)
        refine ⟨(i + 1) * c.period - 1, by omega, ?_, ?_⟩
        · have := (Nat.mul_le_mul_right c.period hj).trans (Nat.div_mul_le_self _ _)
          omega
        · rw [hstateAt ((i + 1) * c.period - 1), hlast, ← hsame (by omega)]
          exact hne

end ThresholdConditionCache

/-! ### Sequences of queries -/

/-- A query for the block after the first entry of a branch. -/
inductive VersionbitsQuery where
  | state (branch : Branch)
  | sinceHeight (branch : Branch)

inductive VersionbitsAnswer where
  | state (state : ThresholdState)
  | sinceHeight (height : Int)
deriving DecidableEq

namespace VersionbitsQuery

def branch : VersionbitsQuery → Branch
  | state branch => branch
  | sinceHeight branch => branch

def perform (c : ThresholdConditionChecker) (cache : ThresholdConditionCache) :
    VersionbitsQuery → Option (VersionbitsAnswer × ThresholdConditionCache)
  | state branch =>
    (ThresholdConditionCache.getStateFor c branch cache).map fun p => (.state p.1, p.2)
  | sinceHeight branch =>
    (ThresholdConditionCache.getStateSinceHeightFor c branch cache).map fun p =>
      (.sinceHeight p.1, p.2)

/-- The answers to queries that share a cache. -/
def performAll (c : ThresholdConditionChecker) :
    List VersionbitsQuery → ThresholdConditionCache → Option (List VersionbitsAnswer)
  | [], _ => some []
  | query :: rest, cache =>
    match query.perform c cache with
    | none => none
    | some (answer, cache) => (performAll c rest cache).map (answer :: ·)

/-- The answer that the chain alone gives. -/
def Answered (c : ThresholdConditionChecker) : VersionbitsQuery → VersionbitsAnswer → Prop
  | state branch, .state s => s = c.stateAt branch branch.length
  | sinceHeight branch, .sinceHeight height =>
    ∃ since : Nat, height = since ∧ c.StateSince branch since
  | _, _ => False

variable {c : ThresholdConditionChecker} {T : BlockTree} {cache : ThresholdConditionCache}

section
variable (hp : 0 < c.period) (hmono : T.MedianTimeMonotone) (hcache : cache.Sound T c)

include hp hmono hcache

theorem perform_eq {query : VersionbitsQuery} (h : T.Mem query.branch) :
    ∃ answer cache', query.perform c cache = some (answer, cache') ∧ query.Answered c answer ∧
      cache'.Sound T c := by
  cases query with
  | state branch =>
    have hmem : T.Mem branch := h
    obtain ⟨cache', hget, hcache'⟩ := ThresholdConditionCache.getStateFor_eq hp hmono hcache hmem
    refine ⟨.state (c.stateAt branch branch.length), cache', ?_, rfl, hcache'⟩
    rw [perform, hget, map_some]
  | sinceHeight branch =>
    have hmem : T.Mem branch := h
    obtain ⟨since, cache', hget, hcache', hsince⟩ :=
      ThresholdConditionCache.getStateSinceHeightFor_eq hp hmono hcache hmem
    refine ⟨.sinceHeight since, cache', ?_, ⟨since, rfl, hsince⟩, hcache'⟩
    rw [perform, hget, map_some]

theorem performAll_eq
    {queries : List VersionbitsQuery} (h : ∀ query ∈ queries, T.Mem query.branch) :
    ∃ answers, performAll c queries cache = some answers ∧
      List.Forall₂ (Answered c) queries answers := by
  induction queries generalizing cache with
  | nil => exact ⟨[], rfl, .nil⟩
  | cons query rest ih =>
    rw [forall_mem_cons] at h
    obtain ⟨answer, cache', hperf, hanswer, hcache'⟩ := perform_eq hp hmono hcache h.1
    obtain ⟨answers, hrest, hans⟩ := ih hcache' h.2
    refine ⟨answer :: answers, ?_, .cons hanswer hans⟩
    rw [performAll, hperf]
    dsimp only
    rw [hrest, map_some]

end
end VersionbitsQuery

/-! ### The course of a deployment -/

namespace ThresholdConditionChecker
variable {c : ThresholdConditionChecker} {branch : Branch}

theorem stateAt_succ (height : Nat) : c.stateAt branch (height + 1) = c.stateAt branch height ∨
      (c.stateAt branch height).Advances (c.stateAt branch (height + 1)) := by
  rw [stateAt, stateAt]
  split_ifs
  · exact Or.inl rfl
  · exact Or.inl rfl
  · rw [Nat.succ_div]
    split_ifs
    · exact periodState_succ _
    · exact Or.inl rfl

theorem minActivationHeight_le (h : c.periodState branch k = .active) :
    c.minActivationHeight ≤ ((k * c.period : Nat) : Int) := by
  induction k with
  | zero => cases h
  | succ k ih =>
    have hmono : ((k * c.period : Nat) : Int) ≤ (((k + 1) * c.period : Nat) : Int) :=
      Int.ofNat_le.mpr (Nat.mul_le_mul_right _ (Nat.le_succ k))
    rcases c.periodState_succ k with hsame | hadv
    · exact (ih (hsame.symm.trans h)).trans hmono
    · rw [h] at hadv
      cases hk : c.periodState branch k with
      | lockedIn =>
        rw [periodState, hk] at h
        dsimp only at h
        split_ifs at h with hht
        exact_mod_cast hht
      | _ =>
        rw [hk] at hadv
        cases hadv

theorem minActivationHeight_le_of_active {height : Nat} (h : c.stateAt branch height = .active)
    (halways : c.beginTime ≠ alwaysActive) : c.minActivationHeight ≤ height := by
  rw [stateAt, if_neg halways] at h
  split_ifs at h
  refine (minActivationHeight_le h).trans ?_
  exact Int.ofNat_le.mpr (Nat.div_mul_le_self _ _)

/-- The state of a block is the same on all branches through it. -/
theorem stateAt_drop (h : Rooted branch) (n : Nat) :
    c.stateAt (branch.drop n) (branch.drop n).length = c.stateAt branch (branch.drop n).length := by
  rw [stateAt, stateAt, periodState_drop h (Nat.div_mul_le_self _ _)]

end ThresholdConditionChecker

/-- Deployment states are a function of the chain. However queries follow each other
on one cache, they are answered as if there was none. Along a branch the state is the
same for all blocks of a period, it changes only as BIP9 has it, and it is `active`
from the minimum activation height on at the earliest, unless the deployment is
active always. -/
theorem deployment_states_pure (c : ThresholdConditionChecker) (hp : 0 < c.period) (T : BlockTree)
    (hmono : T.MedianTimeMonotone) :
    (∀ queries : List VersionbitsQuery, (∀ query ∈ queries, T.Mem query.branch) →
      ∃ answers, VersionbitsQuery.performAll c queries .empty = some answers ∧
        List.Forall₂ (VersionbitsQuery.Answered c) queries answers) ∧
    ∀ branch, T.Mem branch → (∀ n, c.stateAt (branch.drop n) (branch.drop n).length =
        c.stateAt branch (branch.drop n).length) ∧
      (∀ height height' : Nat, height / c.period = height' / c.period →
        c.stateAt branch height = c.stateAt branch height') ∧
      (∀ height : Nat, c.stateAt branch (height + 1) = c.stateAt branch height ∨
        (c.stateAt branch height).Advances (c.stateAt branch (height + 1))) ∧
      ∀ height : Nat, c.stateAt branch height = .active →
        c.beginTime ≠ alwaysActive → c.minActivationHeight ≤ height := by
  refine ⟨fun queries h => VersionbitsQuery.performAll_eq hp hmono
    (ThresholdConditionCache.sound_empty T c) h, fun branch h => ?_⟩
  refine ⟨stateAt_drop h.rooted, fun height height' hperiod => ?_, stateAt_succ,
    fun height => minActivationHeight_le_of_active⟩
  rw [stateAt, stateAt, hperiod]

namespace ForkedTree

/-- Taproot as on the main network, with periods of three blocks and other times. -/
def params : Params :=
  { mainParams with
    nMinerConfirmationWindow := 3
    nRuleChangeActivationThreshold := 2
    vDeployments := fun _ => ⟨2, 10, 1000, 9⟩ }

/-- From height 4 on there are two branches, and one of them signals. -/
def entry (signals : Bool) (height : Nat) : CBlockIndex :=
  let fork := signals && decide (4 ≤ height)
  { CBlockIndex.ofHeader (uint256S (2 * height + fork.toNat))
      ⟨⟨if fork then 0x20000004 else 0x20000000, .zero, .zero, .ofNat (10 * height), 0, 0⟩,
        none⟩ with
    nHeight := height }

def branch (signals : Bool) : Nat → Branch
  | 0 => []
  | height + 1 => entry signals height :: branch signals height

def branches : List Branch :=
  (range 11).flatMap fun height => [branch false (height + 1), branch true (height + 1)]

def tree : BlockTree :=
  .ofBranches branches (by decide +kernel) (by decide +kernel) (by decide +kernel)

theorem medianTimeMonotone : tree.MedianTimeMonotone := by
  have hall : ∀ branch ∈ branches, branch.tail ≠ [] →
      getMedianTimePast branch.tail ≤ getMedianTimePast branch := by decide +kernel
  intro e rest hmem
  have hfind : branches.find? (branchPtr · = some e.phashBlock) = some (e :: rest) := hmem _ rfl
  exact hall (e :: rest) (mem_of_find?_eq_some hfind)

end ForkedTree

open ForkedTree in
/-- Queries for both branches on one cache. -/
theorem deployment_states_pure_fork :
    let c := versionBitsConditionChecker params .taproot
    let queries :=
      [.state (branch true 10), .state (branch false 11), .sinceHeight (branch true 11),
      VersionbitsQuery.sinceHeight (branch false 11)]
    let answers := [.state .active, .state .started, .sinceHeight 9, .sinceHeight 3]
    VersionbitsQuery.performAll c queries .empty = some answers ∧
      List.Forall₂ (VersionbitsQuery.Answered c) queries answers ∧
      (c.stateAt (branch true 11) 8).Advances (c.stateAt (branch true 11) 9) := by
  intro c queries answers
  have hpure := deployment_states_pure c (by decide) tree medianTimeMonotone
  have hmem : ∀ branch ∈ branches, tree.Mem branch := by
    have hfind : ∀ branch ∈ branches, ∀ hash ∈ branchPtr branch, tree.find hash = some branch := by
      decide +kernel
    exact fun branch hbr hash hptr => hfind branch hbr hash hptr
  obtain ⟨answers', hperf, hanswered⟩ := hpure.1 queries fun query hquery => hmem _ (by
    revert query
    decide +kernel)
  have hans : VersionbitsQuery.performAll c queries .empty = some answers := by decide +kernel
  obtain rfl := some.inj (hperf.symm.trans hans)
  refine ⟨hans, hanswered, ?_⟩
  exact ((hpure.2 (branch true 11) (hmem _ (by decide +kernel))).2.2.1 8).resolve_left
    (by decide +kernel)

/-- A deployment that is active always is so before its minimum activation height. -/
theorem always_active_before_minimum :
    ∃ c : ThresholdConditionChecker, 0 < c.period ∧ (0 : Int) < c.minActivationHeight ∧
      (ThresholdConditionCache.getStateFor c [] .empty).map Prod.fst = some .active ∧
      c.stateAt [] 0 = .active := by
  refine ⟨⟨alwaysActive, noTimeout, 100, 20, 19, fun _ => true⟩, ?_⟩
  decide

end Lithium
