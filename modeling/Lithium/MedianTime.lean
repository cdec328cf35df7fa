import Lithium.Chain

/-!
# Median time past

Time limits of the consensus rules count from the median of the last eleven block
times. All that is known of the time of a block is that it is later than that median,
and with every block another one drops out of the window. The median still never goes
back, because the number of times below it cannot grow.
-/

namespace Lithium
open List
variable {branch : Branch} {l : List Int} {k : Nat} {m : Int}

/-- Every block is later than the median time of the blocks before it. -/
def TimesAdvance : Branch → Prop
  | [] => True
  | e :: rest => (rest ≠ [] → getMedianTimePast rest < e.nTime.toNat) ∧ TimesAdvance rest

/-- The times of the blocks that count. -/
def windowTimes (branch : Branch) : List Int :=
  (branch.take nMedianTimeSpan).map fun e => (e.nTime.toNat : Int)

/-- The place of a number in a sorted list tells how many are below it. -/
theorem le_getElem_iff (hl : l.Pairwise (· ≤ ·)) (hk : k < l.length) :
    m ≤ l[k] ↔ l.countP (· < m) ≤ k := by
  have hsort := pairwise_iff_getElem.mp hl
  constructor
  · intro hle
    have hdrop : (l.drop k).countP (· < m) = 0 := by
      rw [countP_eq_zero]
      intro x hx
      obtain ⟨i, hi, rfl⟩ := mem_iff_getElem.mp hx
      rw [length_drop] at hi
      have hkx : l[k] ≤ l[k + i] := by
        rcases Nat.eq_zero_or_pos i with rfl | hpos
        · exact le_rfl
        · exact hsort k (k + i) hk (by omega) (by omega)
      simpa using hle.trans hkx
    have htake := countP_le_length (p := (· < m)) (l := l.take k)
    rw [← take_append_drop k l, countP_append, hdrop]
    rw [length_take] at htake
    omega
  · intro hcnt
    by_contra hlt
    have hall : (l.take (k + 1)).countP (· < m) = (l.take (k + 1)).length := by
      rw [countP_eq_length]
      intro x hx
      obtain ⟨i, hi, rfl⟩ := mem_iff_getElem.mp hx
      rw [length_take] at hi
      have hxk : l[i] ≤ l[k] := by
        rcases Nat.lt_or_ge i k with hik | hik
        · exact hsort i k (by omega) hk hik
        · exact le_of_eq (getElem_congr_idx (by omega))
      simpa using hxk.trans_lt (not_le.mp hlt)
    have hsub := (take_sublist (k + 1) l).countP_le (p := (· < m))
    rw [hall, length_take] at hsub
    omega

theorem length_windowTimes (hne : branch ≠ []) : 0 < (windowTimes branch).length := by
  have hpos := length_pos_iff.mpr hne
  simp [windowTimes, nMedianTimeSpan, hpos]

theorem le_getMedianTimePast_iff (hne : branch ≠ []) : m ≤ getMedianTimePast branch ↔
      (windowTimes branch).countP (· < m) ≤ (windowTimes branch).length / 2 := by
  have hperm := perm_insertionSort (· ≤ ·) (windowTimes branch)
  have hk : (windowTimes branch).length / 2 <
    ((windowTimes branch).insertionSort (· ≤ ·)).length := by
    have hpos := length_windowTimes hne
    rw [hperm.length_eq]
    omega
  have hmedian : getMedianTimePast branch =
      ((windowTimes branch).insertionSort (· ≤ ·))[(windowTimes branch).length / 2] :=
    getD_eq_getElem _ _ hk
  rw [hmedian, le_getElem_iff (pairwise_insertionSort _ _) hk, hperm.countP_eq]

/-- One more block. -/
theorem getMedianTimePast_mono {e : CBlockIndex} (hne : branch ≠ [])
    (hlater : getMedianTimePast branch < e.nTime.toNat) :
    getMedianTimePast branch ≤ getMedianTimePast (e :: branch) := by
  have hlow := (le_getMedianTimePast_iff hne).mp le_rfl
  rw [le_getMedianTimePast_iff (cons_ne_nil e branch)]
  have hwindow : windowTimes (e :: branch) =
      (e.nTime.toNat : Int) :: (branch.take 10).map fun e => (e.nTime.toNat : Int) := rfl
  have hcnt : ((branch.take 10).map fun e => (e.nTime.toNat : Int)).countP
      (· < getMedianTimePast branch) ≤ (windowTimes branch).countP (· < getMedianTimePast branch) :=
    ((take_sublist_take_left (by decide)).map _).countP_le
  have hlen : (windowTimes branch).length ≤ (windowTimes (e :: branch)).length := by
    simp only [windowTimes, nMedianTimeSpan, length_map, length_take, length_cons]
    omega
  rw [hwindow, countP_cons_of_neg (by simpa using hlater.le), ← hwindow]
  omega

/-- Along a chain, of any length, the median time never goes back, and it lies between
the earliest and the latest time of its window. -/
theorem median_time_past_monotone {later : Branch} (hne : branch ≠ [])
    (h : TimesAdvance (later ++ branch)) :
    getMedianTimePast branch ≤ getMedianTimePast (later ++ branch) ∧
      ∀ lo hi, (∀ time ∈ windowTimes branch, lo ≤ time ∧ time ≤ hi) →
        lo ≤ getMedianTimePast branch ∧ getMedianTimePast branch ≤ hi := by
  constructor
  · induction later with
    | nil => exact le_rfl
    | cons e later ih =>
      have hrest : later ++ branch ≠ [] := append_ne_nil_of_right_ne_nil _ hne
      exact (ih h.2).trans (getMedianTimePast_mono hrest (h.1 hrest))
  · intro lo hi hbounds
    constructor
    · rw [le_getMedianTimePast_iff hne, countP_eq_zero.mpr fun time htime => ?_]
      · exact Nat.zero_le _
      · simpa using (hbounds time htime).1
    · by_contra hlt
      have hall := (le_getMedianTimePast_iff (m := hi + 1) hne).mp (by omega)
      rw [countP_eq_length.mpr fun time htime => ?_] at hall
      · have hpos := length_windowTimes hne
        omega
      · have htop := (hbounds time htime).2
        simpa using Int.lt_add_one_of_le htop

theorem median_time_past_monotone_two :
    let e := CBlockIndex.ofHeader .zero ⟨⟨1, .zero, .zero, 1, 0, 0⟩, none⟩
    getMedianTimePast [e] ≤ getMedianTimePast ([{ e with nTime := 5 }] ++ [e]) := by
  intro e
  have h : TimesAdvance ([{ e with nTime := 5 }] ++ [e]) := ⟨fun _ => by decide, nofun, trivial⟩
  exact (median_time_past_monotone (cons_ne_nil _ _) h).1

end Lithium
