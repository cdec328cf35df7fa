import Lithium.Txmempool
import Lithium.Lib.Lineage
import Mathlib.Algebra.BigOperators.Pi
import Mathlib.Algebra.Order.BigOperators.Group.Finset

/-!
# Totals of entries

What an entry counts for, as one element of a group, and the totals it carries as such
elements. With exact arithmetic an update adds to a total, and it fails only where the
sum is not positive; a total that is the sum over a set of entries with this one among
them is positive.

Changes that concern many entries are put in one form: every entry of the pool is
changed at once, by a function of its identifier.
-/

namespace Lithium
open Lib Finset OrdMap Option

abbrev Amounts := Int × Int × Int × Int

abbrev Amounts3 := Int × Int × Int

def Amounts.head (a : Amounts) : Amounts3 := (a.1, a.2.1, a.2.2.1)

/-- What the assertions ask of a total. -/
structure Amounts.Positive (a : Amounts) : Prop where
  count : 0 < a.1
  size : 0 < a.2.1
  sigOps : 0 ≤ a.2.2.2

namespace CTxMemPoolEntry

variable (e : CTxMemPoolEntry)

def amounts : Amounts := (1, e.getTxSize, e.modifiedFee, e.sigOpCost)

def withAncestors : Amounts :=
  (e.nCountWithAncestors, e.nSizeWithAncestors, e.nModFeesWithAncestors, e.nSigOpCostWithAncestors)

def withDescendants : Amounts3 :=
  (e.nCountWithDescendants, e.nSizeWithDescendants, e.nModFeesWithDescendants)

def addAncestors (d : Amounts) (e : CTxMemPoolEntry) : CTxMemPoolEntry :=
  { e with
    nSizeWithAncestors := e.nSizeWithAncestors + d.2.1
    nModFeesWithAncestors := e.nModFeesWithAncestors + d.2.2.1
    nCountWithAncestors := e.nCountWithAncestors + d.1
    nSigOpCostWithAncestors := e.nSigOpCostWithAncestors + d.2.2.2 }

def addDescendants (d : Amounts3) (e : CTxMemPoolEntry) : CTxMemPoolEntry :=
  { e with
    nSizeWithDescendants := e.nSizeWithDescendants + d.2.1
    nModFeesWithDescendants := e.nModFeesWithDescendants + d.2.2
    nCountWithDescendants := e.nCountWithDescendants + d.1 }

theorem withAncestors_addAncestors (d : Amounts) (e : CTxMemPoolEntry) :
    (e.addAncestors d).withAncestors = e.withAncestors + d := rfl

theorem updateAncestorState_exact {d : Amounts} {e : CTxMemPoolEntry}
    (h : (e.withAncestors + d).Positive) :
    e.updateAncestorState .exact d.2.1 d.2.2.1 d.1 d.2.2.2 = .ok (e.addAncestors d) := by
  have hsize : ¬ e.nSizeWithAncestors + d.2.1 ≤ 0 := not_le.mpr h.size
  have hcnt : ¬ e.nCountWithAncestors + d.1 ≤ 0 := not_le.mpr h.count
  have hsigOps : ¬ Arithmetic.exact.toInt (e.nSigOpCostWithAncestors + d.2.2.2) < 0 :=
    not_lt.mpr h.sigOps
  rw [updateAncestorState, if_neg hsize, if_neg hcnt, if_neg hsigOps]
  rfl

theorem updateDescendantState_exact {d : Amounts3} {e : CTxMemPoolEntry}
    (hcnt : 0 < (e.withDescendants + d).1) (hsize : 0 < (e.withDescendants + d).2.1) :
    e.updateDescendantState .exact d.2.1 d.2.2 d.1 = .ok (e.addDescendants d) := by
  have hsize : ¬ e.nSizeWithDescendants + d.2.1 ≤ 0 := not_le.mpr hsize
  have hcnt : ¬ e.nCountWithDescendants + d.1 ≤ 0 := not_le.mpr hcnt
  rw [updateDescendantState, if_neg hsize, if_neg hcnt]
  rfl

end CTxMemPoolEntry

namespace CTxMemPool

/-! ### The pool as a graph -/

def ids (s : CTxMemPool) : Finset Uint256 := s.mapTx.keys

/-- The links that the entries carry: `b` has `a` as a parent. -/
def Link (s : CTxMemPool) (a b : Uint256) : Prop := a ∈ s.parentsOf b

def amounts (s : CTxMemPool) (id : Uint256) : Amounts := (s.mapTx.find? id).elim 0 (·.amounts)

variable {s : CTxMemPool} {id : Uint256} {e : CTxMemPoolEntry}

section
variable (h : s.mapTx.find? id = some e)

include h

theorem parentsOf_of_find? : s.parentsOf id = e.parents := by
  rw [parentsOf, h]
  rfl

theorem childrenOf_of_find? : s.childrenOf id = e.children := by
  rw [childrenOf, h]
  rfl

theorem amounts_of_find? : s.amounts id = e.amounts := by
  rw [amounts, h]
  rfl

end

theorem mem_ids : id ∈ s.ids ↔ ∃ e, s.mapTx.find? id = some e := mem_keys

theorem mem_ids_of_find? (h : s.mapTx.find? id = some e) : id ∈ s.ids := mem_ids.mpr ⟨e, h⟩

theorem mem_ids_of_mem_parentsOf {p : Uint256} (h : p ∈ s.parentsOf id) : id ∈ s.ids := by
  cases he : s.mapTx.find? id with
  | none =>
    rw [parentsOf, he] at h
    exact absurd h (notMem_empty p)
  | some e => exact mem_ids_of_find? he

theorem card_ids (s : CTxMemPool) : s.ids.card = s.mapTx.size := s.mapTx.card_keys

/-! ### Sums -/

theorem amounts_nonneg (s : CTxMemPool) (id : Uint256) :
    0 ≤ (s.amounts id).1 ∧ 0 ≤ (s.amounts id).2.1 ∧ 0 ≤ (s.amounts id).2.2.2 := by
  unfold amounts
  cases s.mapTx.find? id with
  | none => exact ⟨le_rfl, le_rfl, le_rfl⟩
  | some e =>
    refine ⟨zero_le_one, ?_, ?_⟩
    · exact Int.natCast_nonneg e.getTxSize
    · exact Int.natCast_nonneg e.sigOpCost

theorem amounts_pos (h : id ∈ s.ids) : 0 < (s.amounts id).1 ∧ 0 < (s.amounts id).2.1 := by
  obtain ⟨e, he⟩ := mem_ids.mp h
  rw [amounts_of_find? he]
  exact ⟨zero_lt_one, Int.natCast_pos.mpr e.getTxSize_pos⟩

/-- A sum over entries, this one among them, passes the assertions. -/
theorem sum_positive {t : Finset Uint256} (hmem : id ∈ t) (hid : id ∈ s.ids) :
    (∑ a ∈ t, s.amounts a).Positive := by
  have hfst : (∑ a ∈ t, s.amounts a).1 = ∑ a ∈ t, (s.amounts a).1 := Prod.fst_sum
  have hsize : (∑ a ∈ t, s.amounts a).2.1 = ∑ a ∈ t, (s.amounts a).2.1 := by
    rw [Prod.snd_sum, Prod.fst_sum]
  have hsigOps : (∑ a ∈ t, s.amounts a).2.2.2 = ∑ a ∈ t, (s.amounts a).2.2.2 := by
    rw [Prod.snd_sum, Prod.snd_sum, Prod.snd_sum]
  refine ⟨?_, ?_, ?_⟩
  · rw [hfst]
    exact sum_pos' (fun a _ => (s.amounts_nonneg a).1) ⟨id, hmem, (amounts_pos hid).1⟩
  · rw [hsize]
    exact sum_pos' (fun a _ => (s.amounts_nonneg a).2.1) ⟨id, hmem, (amounts_pos hid).2⟩
  · rw [hsigOps]
    exact sum_nonneg fun a _ => (s.amounts_nonneg a).2.2

theorem head_sum (t : Finset Uint256) (f : Uint256 → Amounts) :
    ∑ a ∈ t, (f a).head = (∑ a ∈ t, f a).head := by
  induction t using Finset.induction_on with
  | empty => rfl
  | insert a t ha ih =>
    rw [sum_insert ha, sum_insert ha, ih]
    rfl

theorem sum_head_positive {t : Finset Uint256} (hmem : id ∈ t) (hid : id ∈ s.ids) :
    0 < (∑ a ∈ t, (s.amounts a).head).1 ∧ 0 < (∑ a ∈ t, (s.amounts a).head).2.1 := by
  rw [head_sum]
  have h := sum_positive hmem hid
  exact ⟨h.count, h.size⟩

/-! ### Changing every entry at once -/

/-- Every entry is changed by a function of its identifier. -/
def updateEach (s : CTxMemPool) (f : Uint256 → CTxMemPoolEntry → CTxMemPoolEntry) : CTxMemPool :=
  { s with mapTx := s.mapTx.mapKeyed f }

variable {f g : Uint256 → CTxMemPoolEntry → CTxMemPoolEntry}

@[simp] theorem find?_updateEach (s : CTxMemPool)
    (f : Uint256 → CTxMemPoolEntry → CTxMemPoolEntry) (id : Uint256) :
    (s.updateEach f).mapTx.find? id = (s.mapTx.find? id).map (f id) :=
  find?_mapKeyed f s.mapTx id

theorem exists_of_find?_updateEach {id : Uint256} {e' : CTxMemPoolEntry}
    (h : (s.updateEach f).mapTx.find? id = some e') : ∃ e, s.mapTx.find? id = some e ∧
      f id e = e' := by
  rw [find?_updateEach] at h
  exact map_eq_some_iff.mp h

@[simp] theorem ids_updateEach (s : CTxMemPool)
    (f : Uint256 → CTxMemPoolEntry → CTxMemPoolEntry) : (s.updateEach f).ids = s.ids :=
  keys_mapKeyed f s.mapTx

theorem keysIn_updateEach (s : CTxMemPool) (f : Uint256 → CTxMemPoolEntry → CTxMemPoolEntry)
    (t : Finset Uint256) : (s.updateEach f).mapTx.keysIn t = s.mapTx.keysIn t :=
  keysIn_mapKeyed f s.mapTx t

/-- The map is given by what it has under each identifier. -/
theorem updateEach_eq {m : OrdMap Uint256 CTxMemPoolEntry}
    (h : ∀ id, (s.mapTx.find? id).map (f id) = m.find? id) :
      s.updateEach f = { s with mapTx := m } := by
  rw [updateEach, ext_find? fun id => (find?_mapKeyed f s.mapTx id).trans (h id)]

theorem updateEach_congr (h : ∀ id e, s.mapTx.find? id = some e → f id e = g id e) :
    s.updateEach f = s.updateEach g := by
  refine updateEach_eq fun id => ?_
  rw [find?_mapKeyed]
  exact map_congr (h id)

theorem updateEach_updateEach (s : CTxMemPool) (f g : Uint256 → CTxMemPoolEntry → CTxMemPoolEntry) :
    (s.updateEach f).updateEach g = s.updateEach fun id e => g id (f id e) := by
  refine updateEach_eq fun id => ?_
  rw [find?_updateEach, find?_mapKeyed, Option.map_map]
  rfl

theorem updateEach_self (h : ∀ id e, s.mapTx.find? id = some e → f id e = e) : s.updateEach f = s :=
  updateEach_eq fun id => (map_congr (h id)).trans map_id'

/-- Whatever is looked up of an entry and not changed. -/
theorem elim_updateEach {M : Type} {z : M} {w : CTxMemPoolEntry → M}
    (hf : ∀ id e, w (f id e) = w e) (id : Uint256) :
    ((s.updateEach f).mapTx.find? id).elim z w = (s.mapTx.find? id).elim z w := by
  rw [find?_updateEach]
  cases s.mapTx.find? id with
  | none => rfl
  | some e => exact hf id e

theorem parentsOf_updateEach (hf : ∀ id e, (f id e).parents = e.parents) :
    (s.updateEach f).parentsOf = s.parentsOf :=
  funext (elim_updateEach hf)

theorem link_updateEach (hf : ∀ id e, (f id e).parents = e.parents) :
    (s.updateEach f).Link = s.Link := by
  funext a b
  rw [Link, Link, parentsOf_updateEach hf]

theorem childrenOf_updateEach (hf : ∀ id e, (f id e).children = e.children) :
    (s.updateEach f).childrenOf = s.childrenOf :=
  funext (elim_updateEach hf)

/-- The search for descendants looks at nothing but links. -/
theorem calculateDescendants_updateEach (hf : ∀ id e, (f id e).children = e.children)
    (id : Uint256) (t : Finset Uint256) :
    (s.updateEach f).calculateDescendants id t = s.calculateDescendants id t := by
  rw [calculateDescendants, calculateDescendants, childrenOf_updateEach hf, ← card_ids,
    ids_updateEach, card_ids]

section
variable {f : CTxMemPoolEntry → Except String CTxMemPoolEntry}
  {g : CTxMemPoolEntry → CTxMemPoolEntry}

/-- A change of one entry that does not fail. -/
theorem modify_eq (he : s.mapTx.find? id = some e) (hok : f e = .ok (g e)) :
    s.modify id f = .ok (s.updateEach fun k e => if k = id then g e else e) := by
  rw [modify, he]
  simp only [hok, insert_eq_mapKeyed he g]
  rfl

/-- Changes of several entries that do not fail. -/
theorem modifyAll_eq {l : List Uint256} (hnd : l.Nodup)
    (hok : ∀ id ∈ l, ∃ e, s.mapTx.find? id = some e ∧ f e = .ok (g e)) :
    modifyAll f l s = .ok (s.updateEach fun k e => if k ∈ l then g e else e) := by
  induction l generalizing s with
  | nil => exact congrArg Except.ok (updateEach_self fun id e _ => if_neg (List.not_mem_nil)).symm
  | cons id l ih =>
    obtain ⟨hid, hnd⟩ := List.nodup_cons.mp hnd
    obtain ⟨e, he, hfe⟩ := hok id (List.mem_cons_self)
    rw [modifyAll, modify_eq he hfe]
    simp only
    rw [ih hnd, updateEach_updateEach]
    · refine congrArg Except.ok (updateEach_congr fun k e _ => ?_)
      by_cases hk : k = id
      · subst hk
        simp [hid]
      · simp [hk]
    · intro k hk
      obtain ⟨e, he, hfe⟩ := hok k (List.mem_cons_of_mem _ hk)
      have hne : k ≠ id := fun h => hid (h ▸ hk)
      exact ⟨e, by rw [find?_updateEach, he, map_some, if_neg hne], hfe⟩

/-- A loop that makes a change to one entry after the other. A second time the change
does nothing. -/
theorem loop_eq_updateEach {loop : List Uint256 → CTxMemPool → CTxMemPool}
    (hnil : ∀ s, loop [] s = s)
    (hcons : ∀ id l s, loop (id :: l) s = loop l { s with mapTx := s.mapTx.modify id g })
    (hg : ∀ e, g (g e) = g e) (s : CTxMemPool) (l : List Uint256) :
    loop l s = s.updateEach fun k e => if k ∈ l then g e else e := by
  induction l generalizing s with
  | nil => exact (hnil s).trans (updateEach_self fun id e _ => if_neg (List.not_mem_nil)).symm
  | cons id l ih =>
    rw [hcons, ih, modify_eq_mapKeyed]
    refine (updateEach_updateEach s _ _).trans (updateEach_congr fun k e _ => ?_)
    by_cases hk : k = id
    · by_cases hl : k ∈ l <;> simp [hk, hg]
    · simp [hk]

end

theorem updateChildOf_eq (s : CTxMemPool) (add : Bool) (it : Uint256) (l : List Uint256) :
    updateChildOf add it l s = s.updateEach fun k e => if k ∈ l then
      { e with children := if add then insert it e.children else e.children.erase it } else e :=
  loop_eq_updateEach (fun _ => rfl) (fun _ _ _ => rfl) (fun e => by cases add <;> simp) s l

theorem updateParentOf_eq (s : CTxMemPool) (it : Uint256) (l : List Uint256) :
    updateParentOf it l s = s.updateEach fun k e => if k ∈ l then
      { e with parents := e.parents.erase it } else e :=
  loop_eq_updateEach (fun _ => rfl) (fun _ _ _ => rfl) (fun e => by simp) s l

end CTxMemPool
end Lithium
