import Mathlib.Order.Lattice
import Mathlib.Tactic.Common

/-!
# Ordered maps

A finite map kept as a list of entries with strictly ascending keys: the
abstract content of a search tree such as `std::map`, including the order in
which it is traversed. Because the keys ascend by construction, there is one
representation for each map, the number of entries is the number of keys, and
the first entry is the one with the least key.
-/

namespace Lithium.Lib
open List

/-- A map whose entries ascend strictly in their keys. -/
structure OrdMap (κ ν : Type) [LinearOrder κ] where
  entries : List (κ × ν)
  sorted : entries.Pairwise fun a b => a.1 < b.1

namespace OrdMap
variable {κ ν : Type} [LinearOrder κ] {m : OrdMap κ ν}

theorem ext_entries {n : OrdMap κ ν} (h : m.entries = n.entries) : m = n := by
  cases n
  cases h
  rfl

def empty : OrdMap κ ν := ⟨[], List.Pairwise.nil⟩

def size (m : OrdMap κ ν) : Nat := m.entries.length

def findEntry (k : κ) : List (κ × ν) → Option ν
  | [] => none
  | e :: es => if e.1 = k then some e.2 else findEntry k es

def find? (m : OrdMap κ ν) (k : κ) : Option ν := findEntry k m.entries

def insertEntry (k : κ) (v : ν) : List (κ × ν) → List (κ × ν)
  | [] => [(k, v)]
  | e :: es =>
    if k < e.1 then (k, v) :: e :: es
    else if e.1 = k then (k, v) :: es
    else e :: insertEntry k v es

variable {es : List (κ × ν)} {k : κ} {v : ν}

theorem mem_insertEntry {e : κ × ν} (h : e ∈ insertEntry k v es) : e = (k, v) ∨ e ∈ es := by
  induction es with
  | nil => simpa [insertEntry] using h
  | cons a es ih =>
    simp only [insertEntry] at h
    split at h
    · simpa using h
    · split at h
      · rcases mem_cons.mp h with h | h
        · exact Or.inl h
        · exact Or.inr (mem_cons_of_mem _ h)
      · rcases mem_cons.mp h with rfl | h
        · exact Or.inr mem_cons_self
        · exact (ih h).imp_right (mem_cons_of_mem _)

theorem insertEntry_sorted (h : es.Pairwise fun a b => a.1 < b.1) :
    (insertEntry k v es).Pairwise fun a b => a.1 < b.1 := by
  induction es with
  | nil => simp [insertEntry]
  | cons a es ih =>
    obtain ⟨hhead, htail⟩ := pairwise_cons.mp h
    simp only [insertEntry]
    split
    case isTrue hlt =>
      refine pairwise_cons.mpr ⟨fun b hb => ?_, h⟩
      rcases mem_cons.mp hb with rfl | hb
      · exact hlt
      · exact hlt.trans (hhead b hb)
    case isFalse hge =>
      split
      case isTrue heq =>
        subst heq
        exact pairwise_cons.mpr ⟨hhead, htail⟩
      case isFalse hne =>
        refine pairwise_cons.mpr ⟨fun b hb => ?_, ih htail⟩
        rcases mem_insertEntry hb with rfl | hb
        · exact lt_of_le_of_ne (not_lt.mp hge) hne
        · exact hhead b hb

variable (m)

/-- The map with the value at a key set, whether or not it was there. -/
def insert (k : κ) (v : ν) : OrdMap κ ν :=
  ⟨insertEntry k v m.entries, insertEntry_sorted m.sorted⟩

def erase (k : κ) : OrdMap κ ν :=
  ⟨m.entries.filter fun e => e.1 ≠ k, m.sorted.sublist filter_sublist⟩

/-- The map without its first entry: `erase(begin())`. -/
def eraseMin : OrdMap κ ν := ⟨m.entries.tail, m.sorted.tail⟩

/-- The map with the value at a key replaced by its image, if there is one. -/
def modify (k : κ) (f : ν → ν) : OrdMap κ ν :=
  match m.find? k with
  | some v => m.insert k (f v)
  | none => m

variable {m}

/-- The map with every value replaced by its image. -/
def map {μ : Type} (f : ν → μ) (m : OrdMap κ ν) : OrdMap κ μ :=
  ⟨m.entries.map fun e => (e.1, f e.2), m.sorted.map _ fun _ _ h => h⟩

/-! ### Looking up -/

theorem findEntry_insertEntry (k j : κ) (v : ν) (h : es.Pairwise fun a b => a.1 < b.1) :
    findEntry j (insertEntry k v es) = if k = j then some v else findEntry j es := by
  induction es with
  | nil => simp [insertEntry, findEntry]
  | cons a es ih =>
    obtain ⟨hhead, htail⟩ := pairwise_cons.mp h
    simp only [insertEntry]
    split
    case isTrue hlt => simp [findEntry]
    case isFalse hge =>
      split
      case isTrue heq =>
        subst heq
        by_cases hj : a.1 = j <;> simp [findEntry, hj]
      case isFalse hne =>
        simp only [findEntry, ih htail]
        by_cases hj : a.1 = j
        · have : ¬ k = j := fun hk => hne (hj.trans hk.symm)
          simp [hj, this]
        · simp [hj]

section
variable (m : OrdMap κ ν)

@[simp] theorem find?_empty (k : κ) : (empty : OrdMap κ ν).find? k = none := rfl

theorem find?_insert (k j : κ) (v : ν) :
    (m.insert k v).find? j = if k = j then some v else m.find? j :=
  findEntry_insertEntry k j v m.sorted

@[simp] theorem find?_insert_self (k : κ) (v : ν) : (m.insert k v).find? k = some v := by
  rw [find?_insert, if_pos rfl]

theorem find?_insert_of_ne {j : κ} (v : ν) (h : k ≠ j) : (m.insert k v).find? j = m.find? j := by
  rw [find?_insert, if_neg h]

/-- A new key brings its value and leaves the others. -/
theorem find?_insert_of_fresh {j : κ} {w : ν} (h : m.find? k = none) :
    (m.insert k v).find? j = some w ↔ (k = j ∧ v = w) ∨ m.find? j = some w := by
  rw [find?_insert]
  split_ifs with hkj
  · subst hkj
    simp [h]
  · simp [hkj]

theorem find?_modify (k j : κ) (f : ν → ν) :
    (m.modify k f).find? j = if k = j then (m.find? j).map f else m.find? j := by
  unfold modify
  by_cases h : k = j
  · subst h
    cases hk : m.find? k with
    | none => simp [hk]
    | some v => simp
  · cases hk : m.find? k with
    | none => simp [h]
    | some v => simp [find?_insert_of_ne m (f v) h, h]

theorem mem_of_findEntry (h : findEntry k es = some v) : (k, v) ∈ es := by
  induction es with
  | nil => cases h
  | cons a es ih =>
    simp only [findEntry] at h
    split at h
    case isTrue heq =>
      cases h
      rw [← heq]
      exact mem_cons_self
    case isFalse => exact mem_cons_of_mem _ (ih h)

theorem findEntry_of_mem (hs : es.Pairwise fun a b => a.1 < b.1) (h : (k, v) ∈ es) :
    findEntry k es = some v := by
  induction es with
  | nil => cases h
  | cons a es ih =>
    obtain ⟨hhead, htail⟩ := pairwise_cons.mp hs
    rcases mem_cons.mp h with rfl | h
    · simp [findEntry]
    · have hne : ¬ a.1 = k := (hhead _ h).ne
      rw [findEntry, if_neg hne, ih htail h]

/-- Looking up and listing agree. -/
theorem mem_entries_iff (k : κ) (v : ν) : (k, v) ∈ m.entries ↔ m.find? k = some v :=
  ⟨findEntry_of_mem m.sorted, mem_of_findEntry⟩

end

theorem find?_map {μ : Type} (f : ν → μ) (m : OrdMap κ ν) (k : κ) :
    (m.map f).find? k = (m.find? k).map f := by
  obtain ⟨es, hs⟩ := m
  change findEntry k (es.map fun e => (e.1, f e.2)) = (findEntry k es).map f
  clear hs
  induction es with
  | nil => rfl
  | cons a es ih =>
    rw [map_cons, findEntry, findEntry, ih]
    split_ifs <;> rfl

theorem find?_erase (m : OrdMap κ ν) (k j : κ) :
    (m.erase k).find? j = if k = j then none else m.find? j := by
  have hmem (v : ν) : (m.erase k).find? j = some v ↔ k ≠ j ∧ m.find? j = some v := by
    rw [← mem_entries_iff, ← mem_entries_iff, erase, mem_filter, and_comm,
      decide_eq_true_eq, ne_comm]
  split_ifs with h
  · exact Option.eq_none_iff_forall_ne_some.mpr fun v hv => ((hmem v).mp hv).1 h
  · exact Option.ext fun v => (hmem v).trans (and_iff_right h)

/-- There is one list of entries for each map. -/
theorem ext_find? {n : OrdMap κ ν} (h : ∀ k, m.find? k = n.find? k) : m = n := by
  obtain ⟨es, hes⟩ := m
  obtain ⟨fs, hfs⟩ := n
  have hnd {l : List (κ × ν)} (hl : l.Pairwise fun a b => a.1 < b.1) : l.Nodup :=
    hl.imp fun hlt heq => (heq ▸ hlt).false
  have hperm : es.Perm fs := (perm_ext_iff_of_nodup (hnd hes) (hnd hfs)).mpr fun e =>
    (mem_entries_iff ⟨es, hes⟩ e.1 e.2).trans <| by
      rw [h]
      exact (mem_entries_iff ⟨fs, hfs⟩ e.1 e.2).symm
  congr
  exact hperm.eq_of_pairwise (fun a b _ _ hab hba => absurd hab hba.asymm) hes hfs

/-! ### Sizes and the least key -/

/-- The first entry has the least key. -/
theorem find?_head {e : κ × ν} (h : m.entries = e :: es) :
    m.find? e.1 = some e.2 ∧ ∀ k < e.1, m.find? k = none := by
  have hsort := h ▸ m.sorted
  refine ⟨(m.mem_entries_iff _ _).mp (h ▸ mem_cons_self), fun k hk => ?_⟩
  refine Option.eq_none_iff_forall_ne_some.mpr fun v hv => ?_
  have hmem := (m.mem_entries_iff k v).mpr hv
  rw [h, mem_cons] at hmem
  rcases hmem with rfl | hmem
  · exact lt_irrefl _ hk
  · exact lt_asymm hk ((pairwise_cons.mp hsort).1 _ hmem)

theorem length_insertEntry (k : κ) (v : ν) (h : es.Pairwise fun a b => a.1 < b.1) :
    (insertEntry k v es).length =
      if (findEntry k es).isSome then es.length else es.length + 1 := by
  induction es with
  | nil => simp [insertEntry, findEntry]
  | cons a es ih =>
    obtain ⟨hhead, htail⟩ := pairwise_cons.mp h
    simp only [insertEntry, findEntry]
    split
    case isTrue hlt =>
      have hnone : findEntry k es = none := by
        by_contra hsome
        obtain ⟨w, hw⟩ := Option.ne_none_iff_exists'.mp hsome
        exact absurd (hlt.trans (hhead _ (mem_of_findEntry hw))) (lt_irrefl k)
      simp [hlt.ne', hnone]
    case isFalse hge =>
      split
      case isTrue heq => simp
      case isFalse hne =>
        rw [length_cons, ih htail]
        split <;> simp

variable (m)

theorem size_insert (k : κ) (v : ν) :
    (m.insert k v).size = if (m.find? k).isSome then m.size else m.size + 1 :=
  length_insertEntry k v m.sorted

theorem size_eraseMin : m.eraseMin.size = m.size - 1 := length_tail

/-- Dropping the first entry loses the value at a key exactly when the key is
the least one. -/
theorem find?_eraseMin (h : m.find? k = some v) :
    m.eraseMin.find? k = some v ↔ ∃ j w, m.find? j = some w ∧ j < k := by
  obtain ⟨es, hs⟩ := m
  cases es with
  | nil => cases h
  | cons a es =>
    obtain ⟨hhead, htail⟩ := pairwise_cons.mp hs
    constructor
    · intro hk
      exact ⟨a.1, a.2, by simp [find?, findEntry], hhead _ (mem_of_findEntry hk)⟩
    · rintro ⟨j, w, hj, hlt⟩
      have hne : ¬ a.1 = k := by
        rintro rfl
        rcases mem_cons.mp (mem_of_findEntry hj) with heq | hmem
        · exact absurd hlt (by rw [← heq]; exact lt_irrefl _)
        · exact absurd (hlt.trans (hhead _ hmem)) (lt_irrefl _)
      simpa [find?, findEntry, hne, eraseMin] using h

/-- What is left after dropping the first entry was there before. -/
theorem find?_of_eraseMin (h : m.eraseMin.find? k = some v) : m.find? k = some v :=
  findEntry_of_mem m.sorted (mem_of_mem_tail (mem_of_findEntry h))

end OrdMap
end Lithium.Lib
