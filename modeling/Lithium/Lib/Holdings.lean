import Mathlib.Algebra.BigOperators.Finprod

/-!
# The total of a finite partial map

The entries of a partial map have an integer weight, and the total of a map that is
defined at finitely many keys is the sum of their weights.
-/

namespace Lithium.Lib
open Finset Function
variable {K V : Type} (weight : K → V → Int)

/-- The map has finitely many entries. -/
def FiniteMap (v : K → Option V) : Prop := {k | v k ≠ none}.Finite

/-- The weight of an entry that may be missing. -/
def entryWeight (k : K) (entry : Option V) : Int := entry.elim 0 (weight k)

noncomputable def total (v : K → Option V) : Int := ∑ᶠ k, entryWeight weight k (v k)

variable {weight} {v : K → Option V}

theorem total_eq_sum {s : Finset K} (hs : ∀ k, v k ≠ none → k ∈ s) :
    total weight v = ∑ k ∈ s, entryWeight weight k (v k) := by
  refine finsum_eq_sum_of_support_subset _ fun k hk => hs k fun hnone => hk ?_
  dsimp only
  rw [hnone, entryWeight, Option.elim_none]

/-- A map without negative weights has no negative total. -/
theorem total_nonneg (h : FiniteMap v) (hv : ∀ k, 0 ≤ entryWeight weight k (v k)) :
    0 ≤ total weight v := by
  have hmem : ∀ x, v x ≠ none → x ∈ h.toFinset := fun x hx => h.mem_toFinset.mpr hx
  rw [total_eq_sum hmem]
  exact sum_nonneg fun k _ => hv k

variable [DecidableEq K]

/-- Where only one key has a weight, and the weight is 1, the total tells whether
there is an entry for it. -/
theorem total_single (v : K → Option V) (k : K) :
    total (fun x _ => if x = k then 1 else 0) v = if (v k).isSome then 1 else 0 := by
  rw [total, finsum_eq_single _ k]
  · cases v k <;> simp [entryWeight]
  · intro x hx
    cases v x <;> simp [entryWeight, hx]

theorem FiniteMap.update (h : FiniteMap v) (k : K) (entry : Option V) :
    FiniteMap (update v k entry) := by
  refine (Set.Finite.insert k h).subset fun x hx => ?_
  by_cases hxk : x = k
  · exact Set.mem_insert_iff.mpr (Or.inl hxk)
  · refine Set.mem_insert_of_mem k ?_
    simpa [update_of_ne hxk] using hx

theorem total_update (h : FiniteMap v) (k : K) (entry : Option V) :
    total weight (update v k entry) =
      total weight v - entryWeight weight k (v k) + entryWeight weight k entry := by
  have hmem : ∀ x, v x ≠ none → x ∈ insert k h.toFinset := fun x hx =>
    mem_insert_of_mem (h.mem_toFinset.mpr hx)
  have hmem' : ∀ x, update v k entry x ≠ none → x ∈ insert k h.toFinset := by
    intro x hx
    by_cases hxk : x = k
    · exact mem_insert.mpr (Or.inl hxk)
    · exact hmem x (by rwa [update_of_ne hxk] at hx)
  have hk : k ∈ insert k h.toFinset := mem_insert_self k _
  rw [total_eq_sum hmem, total_eq_sum hmem', ← add_sum_erase _ _ hk,
    ← add_sum_erase _ _ hk, update_self]
  have hrest : ∀ x ∈ (insert k h.toFinset).erase k,
      entryWeight weight x (update v k entry x) = entryWeight weight x (v x) := fun x hx => by
    rw [update_of_ne (ne_of_mem_erase hx)]
  rw [sum_congr rfl hrest]
  ring

end Lithium.Lib
