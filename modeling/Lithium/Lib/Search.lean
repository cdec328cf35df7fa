import Mathlib.Data.List.Infix

/-!
# Searching for a string

The first position at which one list occurs in another, as `std::search`
finds it: a found position is an occurrence, and an occurrence is found.
-/

namespace Lithium.Lib
variable {α : Type} [BEq α] [LawfulBEq α]

/-- The first position of `needle` in a list. -/
def search (needle : List α) : List α → Option Nat
  | [] => if needle.isPrefixOf [] then some 0 else none
  | x :: xs => if needle.isPrefixOf (x :: xs) then some 0 else (search needle xs).map (· + 1)

theorem occurs_of_search {needle hay : List α} {i : Nat} (h : search needle hay = some i) :
    needle <+: hay.drop i := by
  induction hay generalizing i with
  | nil =>
    unfold search at h
    split at h
    case isTrue hfound =>
      cases h
      exact List.isPrefixOf_iff_prefix.mp hfound
    case isFalse => cases h
  | cons x xs ih =>
    unfold search at h
    split at h
    case isTrue hfound =>
      cases h
      exact List.isPrefixOf_iff_prefix.mp hfound
    case isFalse =>
      obtain ⟨j, hj, rfl⟩ := Option.map_eq_some_iff.mp h
      exact ih hj

/-- An occurrence is found. -/
theorem search_isSome_of_occurs {needle hay : List α} (h : needle <:+: hay) :
    (search needle hay).isSome := by
  induction hay with
  | nil =>
    obtain rfl := List.infix_nil.mp h
    rfl
  | cons x xs ih =>
    unfold search
    split
    case isTrue => rfl
    case isFalse hne =>
      rcases List.infix_cons_iff.mp h with hpre | hinf
      · exact absurd (List.isPrefixOf_iff_prefix.mpr hpre) hne
      · simpa using ih hinf

/-- The first occurrence is the one that is found. -/
theorem search_eq_some {needle hay : List α} {i : Nat} (h : needle <+: hay.drop i)
    (hfst : ∀ j < i, ¬ needle <+: hay.drop j) : search needle hay = some i := by
  induction hay generalizing i with
  | nil =>
    obtain rfl : i = 0 := Nat.eq_zero_of_not_pos fun hi => hfst 0 hi (by simpa using h)
    exact if_pos (List.isPrefixOf_iff_prefix.mpr h)
  | cons x xs ih =>
    cases i with
    | zero => exact if_pos (List.isPrefixOf_iff_prefix.mpr h)
    | succ i =>
      have hnot : ¬ needle.isPrefixOf (x :: xs) = true := fun hpre =>
        hfst 0 i.succ_pos (List.isPrefixOf_iff_prefix.mp hpre)
      rw [search, if_neg hnot, ih h fun j hj => hfst (j + 1) (Nat.succ_lt_succ hj)]
      rfl

end Lithium.Lib
