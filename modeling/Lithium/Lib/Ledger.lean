import Mathlib.Data.List.Basic

/-!
# Changes of a ledger and their reversal

A ledger is a partial map from keys to values. A change takes some keys away and
puts values at others; an entry that is put where there was one already replaces
it. A change that was recorded with the values it took away can be reverted, and
reverting a sequence of recorded changes, last first, gives back the ledger it
started from.

Applying and reverting look at no more of a ledger than the keys a change does
not touch. They can therefore be used to repair a ledger that is partly in one
state and partly in another: reverting makes all keys agree with the state
before the changes, and applying with the state after them.
-/

namespace Lithium.Lib
variable {K V : Type} [DecidableEq K]

structure Change (K V : Type) where
  taken : List K
  put : K → Option V

namespace Change

variable (e : Change K V)

def apply (v : K → Option V) : K → Option V := fun k =>
  (e.put k).or (if k ∈ e.taken then none else v k)

/-- Takes away what was put and puts back what was taken; `old` has its value. -/
def revert (old v : K → Option V) : K → Option V := fun k =>
  if k ∈ e.taken then old k else if (e.put k).isSome then none else v k

def Touches (k : K) : Prop := k ∈ e.taken ∨ (e.put k).isSome

/-- Nothing is put where the ledger still has something. -/
def PutsNew (v : K → Option V) : Prop :=
  ∀ k, (e.put k).isSome → k ∈ e.taken ∨ v k = none

variable {e : Change K V} {old v w : K → Option V} {k : K}

theorem apply_of_not_touches (h : ¬ e.Touches k) : e.apply v k = v k := by
  obtain ⟨htaken, hput⟩ := not_or.mp h
  rw [apply, if_neg htaken, Option.not_isSome_iff_eq_none.mp hput, Option.none_or]

theorem revert_of_not_touches (h : ¬ e.Touches k) : e.revert old v k = v k := by
  obtain ⟨htaken, hput⟩ := not_or.mp h
  rw [revert, if_neg htaken, if_neg hput]

/-- What a recorded change restores. -/
theorem revert_of_touches (hold : ∀ k ∈ e.taken, old k = v k) (hnew : e.PutsNew v)
    (h : e.Touches k) (w : K → Option V) : e.revert old w k = v k := by
  rw [revert]
  split_ifs with htaken hput
  · exact hold k htaken
  · exact ((hnew k hput).resolve_left htaken).symm
  · exact absurd (h.resolve_left htaken) hput

theorem revert_apply (hold : ∀ k ∈ e.taken, old k = v k) (hnew : e.PutsNew v) :
    e.revert old (e.apply v) = v := by
  funext k
  by_cases htouch : e.Touches k
  · exact revert_of_touches hold hnew htouch _
  · rw [revert_of_not_touches htouch, apply_of_not_touches htouch]

end Change

/-! ### Sequences -/

open Change List

def applyAll (es : List (Change K V)) (v : K → Option V) : K → Option V :=
  es.foldl (fun v e => e.apply v) v

/-- The reversals of recorded changes, last first. -/
def revertAll : List (Change K V × (K → Option V)) → (K → Option V) → K → Option V
  | [], v => v
  | (e, old) :: rest, v => e.revert old (revertAll rest v)

/-- Each change was recorded with what it took, and put nothing where something
was. -/
def Recorded : (K → Option V) → List (Change K V × (K → Option V)) → Prop
  | _, [] => True
  | v, (e, old) :: rest => ((∀ k ∈ e.taken, old k = v k) ∧ e.PutsNew v) ∧ Recorded (e.apply v) rest

/-- None of the changes puts something where the ledger still has something. -/
def PutsNewAll : (K → Option V) → List (Change K V) → Prop
  | _, [] => True
  | v, e :: es => e.PutsNew v ∧ PutsNewAll (e.apply v) es

variable {v w : K → Option V} {k : K}

@[simp] theorem applyAll_cons (e : Change K V) (es : List (Change K V)) (v : K → Option V) :
    applyAll (e :: es) v = applyAll es (e.apply v) := rfl

theorem revertAll_eq_foldr (es : List (Change K V × (K → Option V))) (v : K → Option V) :
    revertAll es v = es.foldr (fun e w => e.1.revert e.2 w) v := by
  induction es with
  | nil => rfl
  | cons e es ih => rw [revertAll, ih, foldr_cons]

variable {es : List (Change K V × (K → Option V))}

theorem recorded_append {fs : List (Change K V × (K → Option V))} :
    Recorded v (es ++ fs) ↔ Recorded v es ∧ Recorded (applyAll (es.map Prod.fst) v) fs := by
  induction es generalizing v with
  | nil => simp [Recorded, applyAll]
  | cons e es ih => simp [Recorded, ih, and_assoc]

theorem applyAll_append (es fs : List (Change K V)) (v : K → Option V) :
    applyAll (es ++ fs) v = applyAll fs (applyAll es v) := foldl_append

theorem applyAll_of_untouched {es : List (Change K V)} (h : ∀ e ∈ es, ¬ e.Touches k) :
    applyAll es v k = v k := by
  induction es generalizing v with
  | nil => rfl
  | cons e es ih =>
    rw [forall_mem_cons] at h
    rw [applyAll_cons, ih h.2, apply_of_not_touches h.1]

theorem revertAll_of_untouched (h : ∀ e ∈ es, ¬ e.1.Touches k) : revertAll es v k = v k := by
  induction es with
  | nil => rfl
  | cons e es ih =>
    rw [forall_mem_cons] at h
    rw [revertAll, revert_of_not_touches h.1, ih h.2]

/-- At the keys they touch, recorded changes are reverted whatever the ledger is. -/
theorem revertAll_of_touched (hes : Recorded v es) (htouch : ∃ e ∈ es, e.1.Touches k)
    (w : K → Option V) : revertAll es w k = v k := by
  induction es generalizing v with
  | nil =>
    obtain ⟨e, he, -⟩ := htouch
    cases he
  | cons e es ih =>
    obtain ⟨⟨hold, hnew⟩, hrest⟩ := hes
    rw [revertAll]
    by_cases hfst : e.1.Touches k
    · exact revert_of_touches hold hnew hfst _
    · rw [revert_of_not_touches hfst, ih hrest, apply_of_not_touches hfst]
      obtain ⟨f, hf, hk⟩ := htouch
      rcases mem_cons.mp hf with rfl | hf
      · exact absurd hk hfst
      · exact ⟨f, hf, hk⟩

theorem revertAll_applyAll (hes : Recorded v es) :
    revertAll es (applyAll (es.map Prod.fst) v) = v := by
  funext k
  by_cases htouch : ∃ e ∈ es, e.1.Touches k
  · exact revertAll_of_touched hes htouch _
  · have hnone : ∀ e ∈ es, ¬ e.1.Touches k := fun e he h => htouch ⟨e, he, h⟩
    rw [revertAll_of_untouched hnone, applyAll_of_untouched]
    intro e he
    obtain ⟨f, hf, rfl⟩ := mem_map.mp he
    exact hnone f hf

end Lithium.Lib
