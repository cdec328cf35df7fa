import Lithium.Txmempool.Totals

/-!
# Links between entries

When the links of a pool are in order, its searches find exactly the ancestors and
descendants along these links. `Linked` says that they are, and that the totals of
every entry are the sums over what the searches find. It speaks of the links that the
entries carry: while a block is being undone these lack some that the transactions
have, and still the totals agree with them.
-/

namespace Lithium.CTxMemPool
open Lib Relation Finset

/-- Children and parents know each other. -/
structure Mutual (s : CTxMemPool) : Prop where
  parent_mem : ∀ {a b}, s.Link a b → a ∈ s.ids
  mem_children : ∀ {a b}, b ∈ s.childrenOf a ↔ s.Link a b

/-- The links are mutual, lead to entries of the pool and have no cycles, and the totals
are sums over ancestors and descendants. -/
structure Linked (s : CTxMemPool) : Prop where
  parent_mem : ∀ {a b}, s.Link a b → a ∈ s.ids
  mem_children : ∀ {a b}, b ∈ s.childrenOf a ↔ s.Link a b
  acyclic : ∀ x, ¬ TransGen s.Link x x
  withAncestors : ∀ {id e}, s.mapTx.find? id = some e →
    e.withAncestors = ∑ a ∈ upward s.ids s.Link id, s.amounts a
  withDescendants : ∀ {id e}, s.mapTx.find? id = some e →
    e.withDescendants = ∑ d ∈ downward s.ids s.Link id, (s.amounts d).head

variable {s : CTxMemPool} {a b id : Uint256} {e : CTxMemPoolEntry}

theorem link_iff (he : s.mapTx.find? id = some e) : s.Link a id ↔ a ∈ e.parents := by
  rw [Link, parentsOf_of_find? he]

theorem Link.child_mem (h : s.Link a b) : b ∈ s.ids := mem_ids_of_mem_parentsOf h

theorem reached_mem (h : ReflTransGen s.Link a b) (ha : a ∈ s.ids) : b ∈ s.ids := by
  rcases h.cases_tail with rfl | ⟨c, -, hstep⟩
  · exact ha
  · exact hstep.child_mem

variable {start : Finset Uint256}

theorem reached_parents_iff {y : Uint256} :
    Reached s.parentsOf start y ↔ ∃ x ∈ start, ReflTransGen s.Link y x := by
  have hrel : (fun a b => b ∈ s.parentsOf a) = Function.swap s.Link := rfl
  simp [Reached, hrel, reflTransGen_swap]

variable {staged : Finset Uint256}

/-- The loop over ancestors, when it ends well, is the search along parents. -/
theorem ancestorsLoop_eq {entrySize entryCount total : Int} {limits : Option MemPoolLimits}
    {n : Nat} {ancestors result : Finset Uint256}
    (h : s.ancestorsLoop entrySize entryCount limits n staged ancestors total = .ok result) :
    result = explore s.parentsOf n staged ancestors := by
  induction n generalizing staged ancestors total with
  | zero => exact (Except.ok.inj h).symm
  | succ n ih =>
    rw [ancestorsLoop] at h
    rw [explore]
    split at h
    case isFalse hemp => rw [dif_neg hemp]; exact (Except.ok.inj h).symm
    case isTrue hne =>
      rw [dif_pos hne]
      dsimp only at h ⊢
      split at h
      case h_1 => cases h
      case h_2 stage hstage =>
        rw [parentsOf_of_find? hstage]
        split at h
        case h_1 => exact ih h
        case h_2 l =>
          split at h
          · cases h
          · split at h
            · cases h
            · split at h
              · cases h
              · split at h
                · cases h
                · exact ih h

namespace Linked
variable (hs : s.Linked)

include hs

theorem reaches_mem (h : ReflTransGen s.Link a b) (hb : b ∈ s.ids) : a ∈ s.ids := by
  rcases h.cases_head with rfl | ⟨c, hstep, -⟩
  · exact hb
  · exact hs.parent_mem hstep

theorem ne_of_transGen (h : TransGen s.Link a b) : a ≠ b := by
  rintro rfl
  exact hs.acyclic a h

theorem withAncestors_positive (he : s.mapTx.find? id = some e) : e.withAncestors.Positive := by
  have hid := mem_ids_of_find? he
  rw [hs.withAncestors he]
  exact sum_positive (self_mem_upward hid) hid

theorem withDescendants_positive (he : s.mapTx.find? id = some e) :
    0 < e.withDescendants.1 ∧ 0 < e.withDescendants.2.1 := by
  have hid := mem_ids_of_find? he
  rw [hs.withDescendants he]
  exact sum_head_positive (self_mem_downward hid) hid

theorem toMutual : s.Mutual := ⟨hs.parent_mem, hs.mem_children⟩

end Linked

/-! ### Descendants -/

namespace Mutual
variable (hs : s.Mutual)

include hs

theorem childrenOf_subset (id : Uint256) : s.childrenOf id ⊆ s.ids :=
  fun _ hc => (hs.mem_children.mp hc).child_mem

theorem reached_children_iff {y : Uint256} :
    Reached s.childrenOf start y ↔ ∃ x ∈ start, ReflTransGen s.Link x y := by
  have hrel : (fun a b => b ∈ s.childrenOf a) = s.Link := by
    ext a b
    exact hs.mem_children
  rw [Reached, hrel]

theorem mem_calculateDescendants {t : Finset Uint256} (ht : t ⊆ s.ids)
    (hcl : ∀ a b, s.Link a b → a ∈ t → b ∈ t) (hid : id ∈ s.ids) (y : Uint256) :
    y ∈ s.calculateDescendants id t ↔ y ∈ t ∨ ReflTransGen s.Link id y := by
  have hV : ∀ y ∈ s.ids, s.childrenOf y ⊆ s.ids := fun y _ => hs.childrenOf_subset y
  have hfuel : (s.ids \ t).card ≤ s.mapTx.size := by
    rw [← card_ids]
    exact card_le_card sdiff_subset
  have hnext : ∀ y ∈ t, s.childrenOf y ⊆ t := fun y hy c hc =>
    hcl y c (hs.mem_children.mp hc) hy
  rw [calculateDescendants]
  split_ifs with hmem
  · have hsearch : Searching s.ids ∅ t s.childrenOf :=
      ⟨disjoint_empty_left _, empty_subset _, ht, fun y hy => by
        rw [union_empty]
        exact hnext y hy⟩
    rw [mem_explore hV hsearch hfuel, hs.reached_children_iff]
    constructor
    · rintro (hy | ⟨x, hx, -⟩)
      · exact .inl hy
      · exact absurd hx (notMem_empty x)
    · rintro (hy | hpath)
      · exact .inl hy
      · left
        induction hpath with
        | refl => exact hmem
        | tail _ hstep ih => exact hcl _ _ hstep ih
  · have hsearch : Searching s.ids {id} t s.childrenOf :=
      ⟨disjoint_singleton_left.mpr hmem, singleton_subset_iff.mpr hid, ht,
        fun y hy => (hnext y hy).trans subset_union_left⟩
    rw [mem_explore hV hsearch hfuel, hs.reached_children_iff]
    simp

/-- From nothing the search finds the descendants and the entry itself. -/
theorem calculateDescendants_eq (hid : id ∈ s.ids) :
    s.calculateDescendants id ∅ = downward s.ids s.Link id := by
  ext y
  rw [hs.mem_calculateDescendants (empty_subset _) (fun _ _ _ h => absurd h (by simp)) hid,
    mem_downward]
  constructor
  · rintro (hy | hpath)
    · exact absurd hy (notMem_empty y)
    · exact ⟨reached_mem hpath hid, hpath⟩
  · exact fun h => .inr h.2

variable (t : Finset Uint256)

theorem mem_calculateAllDescendants (y : Uint256) :
    y ∈ s.calculateAllDescendants t ↔ ∃ x ∈ t, x ∈ s.ids ∧ ReflTransGen s.Link x y := by
  have hloop : ∀ (l : List Uint256) (found : Finset Uint256), (∀ x ∈ l, x ∈ s.ids) →
      found ⊆ s.ids → (∀ a b, s.Link a b → a ∈ found → b ∈ found) → ∀ y,
      y ∈ l.foldl (fun set id => s.calculateDescendants id set) found ↔
        y ∈ found ∨ ∃ x ∈ l, ReflTransGen s.Link x y := by
    intro l
    induction l with
    | nil => simp
    | cons x l ih =>
      intro found hl hfound hcl y
      have hx := hl x List.mem_cons_self
      have hmem := hs.mem_calculateDescendants hfound hcl hx
      rw [List.foldl_cons, ih _ (fun x hx => hl x (List.mem_cons_of_mem _ hx)), hmem]
      · simp [or_assoc]
      · intro z hz
        rcases (hmem z).mp hz with hz | hz
        · exact hfound hz
        · exact reached_mem hz hx
      · intro a b hstep ha
        rcases (hmem a).mp ha with ha | ha
        · exact (hmem b).mpr (.inl (hcl a b hstep ha))
        · exact (hmem b).mpr (.inr (ha.tail hstep))
  rw [calculateAllDescendants, hloop _ ∅ (fun x hx => (OrdMap.mem_keysIn.mp hx).1)
    (empty_subset _) (by simp)]
  simp only [notMem_empty, false_or, OrdMap.mem_keysIn]
  constructor
  · rintro ⟨x, ⟨hx, hmem⟩, hpath⟩
    exact ⟨x, hmem, hx, hpath⟩
  · rintro ⟨x, hmem, hx, hpath⟩
    exact ⟨x, ⟨hx, hmem⟩, hpath⟩

/-- The descendants of several entries have all their descendants. -/
theorem calculateAllDescendants_closed (hstep : s.Link a b)
    (ha : a ∈ s.calculateAllDescendants t) : b ∈ s.calculateAllDescendants t := by
  obtain ⟨x, hx, hmem, hpath⟩ := (hs.mem_calculateAllDescendants t a).mp ha
  exact (hs.mem_calculateAllDescendants t b).mpr ⟨x, hx, hmem, hpath.tail hstep⟩

theorem calculateAllDescendants_subset : s.calculateAllDescendants t ⊆ s.ids := by
  intro y hy
  obtain ⟨x, -, hmem, hpath⟩ := (hs.mem_calculateAllDescendants t y).mp hy
  exact reached_mem hpath hmem

end Mutual

/-! ### Ancestors -/

section
variable (hpar : ∀ {a b}, s.Link a b → a ∈ s.ids)

include hpar

theorem mem_explore_parents (hstaged : staged ⊆ s.ids) (y : Uint256) :
    y ∈ explore s.parentsOf s.mapTx.size staged ∅ ↔ ∃ p ∈ staged, ReflTransGen s.Link y p := by
  have hsearch : Searching s.ids staged ∅ s.parentsOf :=
    ⟨disjoint_empty_right _, hstaged, empty_subset _, by simp⟩
  have hfuel : (s.ids \ ∅).card ≤ s.mapTx.size := by rw [sdiff_empty, card_ids]
  rw [mem_explore (fun y _ _ hp => hpar hp) hsearch hfuel, reached_parents_iff]
  simp

/-- Without limits the loop ends well. -/
theorem ancestorsLoop_noLimits (entrySize entryCount : Int) (n : Nat) (hstaged : staged ⊆ s.ids)
    (ancestors : Finset Uint256) (total : Int) :
    s.ancestorsLoop entrySize entryCount none n staged ancestors total =
      .ok (explore s.parentsOf n staged ancestors) := by
  induction n generalizing staged ancestors total with
  | zero => rfl
  | succ n ih =>
    rw [ancestorsLoop, explore]
    split_ifs with hne
    · obtain ⟨e, he⟩ := mem_ids.mp (hstaged (staged.min'_mem hne))
      have hpars : s.parentsOf (staged.min' hne) = e.parents := parentsOf_of_find? he
      have hsub : s.parentsOf (staged.min' hne) ⊆ s.ids := fun _ hp => hpar hp
      simp only [he, hpars]
      exact ih (union_subset ((erase_subset _ _).trans hstaged)
        (sdiff_subset.trans (hpars ▸ hsub))) _ _
    · rfl

/-- The ancestors of an entry, without itself. Only the links to parents matter. -/
theorem mem_linkedAncestors (he : s.parentsOf id = e.parents) (y : Uint256) :
    y ∈ s.linkedAncestors e ↔ TransGen s.Link y id := by
  have hsub : e.parents ⊆ s.ids := fun p hp => hpar (a := p) (b := id) (by rwa [Link, he])
  rw [linkedAncestors, calculateAncestorsAndCheckLimits, ancestorsLoop_noLimits hpar _ _ _ hsub]
  rw [mem_explore_parents hpar hsub, TransGen.tail'_iff]
  simp only [Link, he]
  constructor
  · rintro ⟨p, hp, hpath⟩
    exact ⟨p, hpath, hp⟩
  · rintro ⟨p, hpath, hp⟩
    exact ⟨p, hp, hpath⟩

end
end Lithium.CTxMemPool
