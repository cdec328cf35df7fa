import Mathlib.Algebra.BigOperators.Group.List.Basic
import Mathlib.Data.List.AList
import Mathlib.Tactic.Abel

/-!
# Association lists: sums and emptying

A counter that is kept beside a map and adjusted whenever an entry comes, goes
or changes stays the sum over the entries. The lemmas say what erasing and
inserting do to such a sum; values are counted in any commutative group, so
that counters may wrap.
-/

namespace Lithium.Lib
open List AList
variable {α β : Type} [DecidableEq α] {A : Type} [AddCommGroup A]

def assocSum (f : β → A) (m : AList fun _ : α => β) : A := (m.entries.map fun e => f e.2).sum

theorem assocSum_erase (f : β → A) (m : AList fun _ : α => β) (a : α) :
    assocSum f (m.erase a) = assocSum f m - (m.lookup a).elim 0 f := by
  by_cases hmem : a ∈ m
  · obtain ⟨b, l₁, l₂, -, hents, herase⟩ := exists_of_kerase (mem_keys.mp hmem)
    have hlook : m.lookup a = some b := mem_lookup_iff.mpr (by simp [hents])
    rw [hlook, Option.elim_some]
    change ((kerase a m.entries).map fun e => f e.2).sum = _
    rw [herase, assocSum, hents]
    simp only [map_append, map_cons, sum_append, sum_cons]
    abel
  · rw [lookup_eq_none.mpr hmem, Option.elim_none, sub_zero]
    change ((kerase a m.entries).map fun e => f e.2).sum = _
    rw [kerase_of_notMem_keys (mt mem_keys.mpr hmem), assocSum]

theorem assocSum_insert (f : β → A) (m : AList fun _ : α => β) (a : α) (b : β) :
    assocSum f (m.insert a b) = assocSum f m - (m.lookup a).elim 0 f + f b := by
  have herase := assocSum_erase f m a
  change ((kerase a m.entries).map fun e => f e.2).sum = _ at herase
  rw [assocSum, entries_insert, map_cons, sum_cons, herase, add_comm]

/-! ### Emptying a map -/

theorem eq_empty_of_lookup {m : AList fun _ : α => β} (h : ∀ a, m.lookup a = none) : m = ∅ := by
  refine ext (eq_nil_iff_forall_not_mem.mpr fun e hmem => ?_)
  have hlook := mem_lookup_iff.mpr hmem
  rw [h e.1] at hlook
  cases hlook

theorem lookup_foldl_erase (l : List (Sigma fun _ : α => β)) (m : AList fun _ : α => β) (a : α) :
    (l.foldl (fun m e => m.erase e.1) m).lookup a = if a ∈ l.keys then none else m.lookup a := by
  induction l generalizing m with
  | nil => simp
  | cons e l ih =>
    rw [foldl_cons, ih, keys_cons]
    by_cases ha : a = e.1
    · rw [ha, lookup_erase, if_pos mem_cons_self, ite_self]
    · rw [lookup_erase_ne ha]
      simp [ha]

/-- Erasing every key of a map leaves nothing. -/
theorem foldl_erase_entries (m : AList fun _ : α => β) :
    m.entries.foldl (fun m e => m.erase e.1) m = ∅ := by
  refine eq_empty_of_lookup fun a => ?_
  rw [lookup_foldl_erase]
  split_ifs with hmem
  · rfl
  · exact lookup_eq_none.mpr hmem

end Lithium.Lib
