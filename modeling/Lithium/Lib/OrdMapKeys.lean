import Lithium.Lib.OrdMap
import Mathlib.Algebra.BigOperators.Group.Finset.Basic

/-!
# The keys of an ordered map

The keys as a finite set, sets of keys in the order of the map, and maps whose values
are all changed at once. A sum over the values is a sum over the keys.
-/

namespace Lithium.Lib.OrdMap
open List
variable {κ ν μ : Type} [LinearOrder κ] (m : OrdMap κ ν)

instance [DecidableEq ν] : DecidableEq (OrdMap κ ν) := fun m n =>
  decidable_of_iff (m.entries = n.entries) ⟨ext_entries, congrArg entries⟩

def keys (m : OrdMap κ ν) : Finset κ := (m.entries.map Prod.fst).toFinset

variable {k : κ}

theorem mem_keys {m : OrdMap κ ν} : k ∈ m.keys ↔ ∃ v, m.find? k = some v := by
  simp only [keys, mem_toFinset, mem_map]
  constructor
  · rintro ⟨⟨k', v⟩, hmem, rfl⟩
    exact ⟨v, (m.mem_entries_iff k' v).mp hmem⟩
  · rintro ⟨v, hv⟩
    exact ⟨(k, v), (m.mem_entries_iff k v).mpr hv, rfl⟩

theorem find?_eq_none {m : OrdMap κ ν} : m.find? k = none ↔ k ∉ m.keys := by
  rw [mem_keys, not_exists, Option.eq_none_iff_forall_ne_some]

theorem nodup_keys : (m.entries.map Prod.fst).Nodup := by
  rw [List.Nodup, pairwise_map]
  exact m.sorted.imp fun h => ne_of_lt h

theorem card_keys : m.keys.card = m.size := by
  rw [keys, toFinset_card_of_nodup m.nodup_keys, length_map, size]

theorem keys_insert (k : κ) (v : ν) : (m.insert k v).keys = Insert.insert k m.keys := by
  ext j
  rw [mem_keys, Finset.mem_insert, mem_keys, find?_insert]
  split_ifs with h
  · simp [h]
  · rw [or_iff_right (Ne.symm h)]

theorem keys_erase (k : κ) : (m.erase k).keys = m.keys.erase k := by
  ext j
  rw [mem_keys, Finset.mem_erase, mem_keys, find?_erase]
  split_ifs with h
  · simp [h]
  · rw [and_iff_right (Ne.symm h)]

/-- The members of a set that are keys, in the order of the map. -/
def keysIn (m : OrdMap κ ν) (t : Finset κ) : List κ := (m.entries.map Prod.fst).filter (· ∈ t)

theorem mem_keysIn {m : OrdMap κ ν} {t : Finset κ} : k ∈ m.keysIn t ↔ k ∈ m.keys ∧ k ∈ t := by
  simp [keysIn, keys]

theorem nodup_keysIn (t : Finset κ) : (m.keysIn t).Nodup := m.nodup_keys.filter _

theorem keysIn_singleton {m : OrdMap κ ν} (h : k ∈ m.keys) : m.keysIn {k} = [k] := by
  refine perm_singleton.mp ((perm_ext_iff_of_nodup (m.nodup_keysIn _)
    (nodup_singleton k)).mpr fun x => ?_)
  rw [mem_keysIn, Finset.mem_singleton, mem_singleton]
  exact ⟨fun hx => hx.2, fun hx => ⟨hx ▸ h, hx⟩⟩

theorem toFinset_keysIn {t : Finset κ} (h : t ⊆ m.keys) : (m.keysIn t).toFinset = t := by
  ext k
  rw [mem_toFinset, mem_keysIn]
  exact ⟨And.right, fun hk => ⟨h hk, hk⟩⟩

/-- Changes every value. -/
def mapKeyed {μ : Type} (f : κ → ν → μ) (m : OrdMap κ ν) : OrdMap κ μ where
  entries := m.entries.map fun e => (e.1, f e.1 e.2)
  sorted := by
    rw [pairwise_map]
    exact m.sorted

section
variable (f : κ → ν → μ) (m : OrdMap κ ν)

theorem findEntry_mapKeyed (k : κ) (es : List (κ × ν)) :
    findEntry k (es.map fun e => (e.1, f e.1 e.2)) = (findEntry k es).map (f k) := by
  induction es with
  | nil => rfl
  | cons e es ih =>
    rw [map_cons, findEntry, findEntry]
    split_ifs with h
    · subst h
      rfl
    · exact ih

@[simp] theorem find?_mapKeyed (k : κ) : (m.mapKeyed f).find? k = (m.find? k).map (f k) :=
  findEntry_mapKeyed f k m.entries

@[simp] theorem keys_mapKeyed : (m.mapKeyed f).keys = m.keys := by
  ext k
  simp [mem_keys]

theorem keysIn_mapKeyed (t : Finset κ) : (m.mapKeyed f).keysIn t = m.keysIn t := by
  have hkeys : (m.mapKeyed f).entries.map Prod.fst = m.entries.map Prod.fst := by
    simp [mapKeyed]
  rw [keysIn, keysIn, hkeys]

end

theorem modify_eq_mapKeyed (k : κ) (f : ν → ν) :
    m.modify k f = m.mapKeyed fun j v => if j = k then f v else v := by
  refine ext_find? fun j => ?_
  rw [find?_modify, find?_mapKeyed]
  by_cases hj : k = j
  · subst hj
    simp
  · cases m.find? j <;> simp [hj, Ne.symm hj]

theorem insert_eq_mapKeyed {m : OrdMap κ ν} {v : ν} (h : m.find? k = some v) (f : ν → ν) :
    m.insert k (f v) = m.mapKeyed fun j v => if j = k then f v else v := by
  refine ext_find? fun j => ?_
  rw [find?_insert, find?_mapKeyed]
  by_cases hj : k = j
  · subst hj
    simp [h]
  · cases m.find? j <;> simp [hj, Ne.symm hj]

end Lithium.Lib.OrdMap
