import Lithium.Txmempool.Add

/-!
# Removing entries

Entries are removed in two ways. With all its descendants an entry goes for good: only
its ancestors have to forget it and what goes with it. A transaction that a block has
confirmed goes alone, and its descendants stay and forget it as an ancestor; nothing of
the pool is above it then.

In both cases every removed entry is taken out of the totals in turn, while the others
are still there. After some turns the totals of an entry are what they were, less the
amounts of those descendants that have had their turn.
-/

namespace Lithium.CTxMemPool
open Lib Relation List Finset Option OrdMap CTxMemPoolEntry
variable {s : CTxMemPool} {k r v : Uint256} {e : CTxMemPoolEntry}

/-! ### Descendants that have been forgotten -/

/-- The descendants of an entry, without itself. -/
noncomputable def below (s : CTxMemPool) (k : Uint256) : Finset Uint256 :=
  (downward s.ids s.Link k).erase k

theorem Linked.mem_below (hs : s.Linked) : r ∈ s.below k ↔ TransGen s.Link k r :=
  mem_downward_erase hs.acyclic Link.child_mem

/-- What becomes of an entry when the entries of `D` have had their turn. -/
noncomputable def forget (s : CTxMemPool) (D : Finset Uint256) (k : Uint256)
    (e : CTxMemPoolEntry) : CTxMemPoolEntry :=
  { e.addDescendants (-∑ d ∈ s.below k ∩ D, (s.amounts d).head) with children := e.children \ D }

section
variable (s : CTxMemPool) (D : Finset Uint256)

theorem coreKept_forget : CoreKept (s.forget D) :=
  fun _ _ => rfl

theorem forget_empty (k : Uint256) (e : CTxMemPoolEntry) : s.forget ∅ k e = e := by
  simp [forget, addDescendants]

theorem withDescendants_forget (k : Uint256) (e : CTxMemPoolEntry) :
    (s.forget D k e).withDescendants =
      e.withDescendants - ∑ d ∈ s.below k ∩ D, (s.amounts d).head := by
  rfl

theorem link_forget : (s.updateEach (s.forget D)).Link = s.Link :=
  link_updateEach fun _ _ => rfl

end

/-- The totals of an entry without some of its descendants are sums over the rest. -/
theorem Linked.sub_eq_sum (hs : s.Linked) (he : s.mapTx.find? k = some e) {t : Finset Uint256}
    (ht : t ⊆ s.below k) : e.withDescendants - ∑ d ∈ t, (s.amounts d).head =
      ∑ d ∈ downward s.ids s.Link k \ t, (s.amounts d).head := by
  rw [hs.withDescendants he, sub_eq_iff_eq_add, sum_sdiff (ht.trans (erase_subset _ _))]

/-- One turn: the ancestors of `r` forget it. -/
theorem Linked.updateAncestorsOf_forget (hs : s.Linked) {D : Finset Uint256} (hr : r ∉ D)
    (he : s.mapTx.find? r = some e) : updateAncestorsOf .exact false r
        ((s.updateEach (s.forget D)).linkedAncestors (s.forget D r e)) (s.updateEach (s.forget D)) =
      .ok (s.updateEach (s.forget (insert r D))) := by
  have he' : (s.updateEach (s.forget D)).mapTx.find? r = some (s.forget D r e) := by
    rw [find?_updateEach, he, map_some]
  have hpar : ∀ {a b}, (s.updateEach (s.forget D)).Link a b →
      a ∈ (s.updateEach (s.forget D)).ids := by
    rw [link_forget, ids_updateEach]
    exact hs.parent_mem
  have hmem : ∀ k, k ∈ (s.updateEach (s.forget D)).linkedAncestors (s.forget D r e) ↔
      r ∈ s.below k := by
    intro k
    rw [mem_linkedAncestors hpar (parentsOf_of_find? he'), link_forget, hs.mem_below]
  have hinsert : ∀ k, (s.amounts r).head + ∑ d ∈ s.below k ∩ D, (s.amounts d).head =
      ∑ d ∈ insert r (s.below k ∩ D), (s.amounts d).head := fun k => by
    rw [sum_insert fun h => hr (mem_inter.mp h).2]
  have hown : (s.forget D r e).amounts = s.amounts r := by
    rw [amounts_of_find? he]
    rfl
  have hP : (s.forget D r e).parents ⊆
      (s.updateEach (s.forget D)).linkedAncestors (s.forget D r e) := fun p hp =>
    (hmem p).mpr (hs.mem_below.mpr (.single ((link_iff he).mpr hp)))
  rw [updateAncestorsOf_eq (d := -(s.amounts r).head) he' hP, updateEach_updateEach]
  · refine congrArg Except.ok (updateEach_congr fun k x hx => ?_)
    refine ext_of_core ?_ ?_ ?_ ?_ ?_
    · exact coreKept_withDescendant _ _ _ _ _ _ _
    · exact parents_withDescendant _ _ _ _ _ _ _
    · have hch : k ∈ (s.forget D r e).parents ↔ r ∈ x.children := by
        rw [← childrenOf_of_find? hx, hs.mem_children, link_iff he]
        rfl
      rw [children_withDescendant _ _ hP]
      have herase : (s.forget (insert r D) k x).children = (x.children \ D).erase r :=
        sdiff_insert ..
      rw [herase]
      by_cases hk : r ∈ x.children
      · rw [if_pos (hch.mpr hk)]
        rfl
      · rw [if_neg fun h => hk (hch.mp h), erase_eq_of_notMem fun h => hk (mem_sdiff.mp h).1]
        rfl
    · exact withAncestors_withDescendant _ _ _ _ _ _ _
    · rw [withDescendants_withDescendant, withDescendants_forget, withDescendants_forget,
        ← sub_eq_add_neg]
      simp only [hmem]
      split_ifs with hk
      · rw [inter_insert_of_mem hk, ← hinsert, add_comm, sub_sub]
      · rw [inter_insert_of_notMem hk]
  · rw [ids_updateEach]
    intro k hk
    have hpath := hs.mem_below.mp ((hmem k).mp hk)
    exact hs.reaches_mem hpath.to_reflTransGen (mem_ids_of_find? he)
  · rw [hown]
    rfl
  · intro k hk x' hx'
    obtain ⟨x, hx, rfl⟩ := exists_of_find?_updateEach hx'
    have hlow := (hmem k).mp hk
    have hsub : insert r (s.below k ∩ D) ⊆ s.below k := insert_subset hlow inter_subset_left
    rw [withDescendants_forget, ← sub_eq_add_neg, sub_sub, add_comm, hinsert, hs.sub_eq_sum hx hsub]
    have hkids := mem_ids_of_find? hx
    refine sum_head_positive (mem_sdiff.mpr ⟨self_mem_downward hkids, fun h => ?_⟩) hkids
    exact ne_of_mem_erase (hsub h) rfl

theorem Linked.updateAncestorsForRemoval_eq (hs : s.Linked) {l : List Uint256}
    (hl : ∀ r ∈ l, r ∈ s.ids) (hnd : l.Nodup) {D : Finset Uint256} (hD : ∀ r ∈ l, r ∉ D) :
    updateAncestorsForRemoval .exact l (s.updateEach (s.forget D)) =
      .ok (s.updateEach (s.forget (D ∪ l.toFinset))) := by
  induction l generalizing D with
  | nil => rw [toFinset_nil, union_empty, updateAncestorsForRemoval]
  | cons r l ih =>
    obtain ⟨hr, hnd⟩ := nodup_cons.mp hnd
    obtain ⟨e, he⟩ := mem_ids.mp (hl r mem_cons_self)
    have he' : (s.updateEach (s.forget D)).mapTx.find? r = some (s.forget D r e) := by
      rw [find?_updateEach, he, map_some]
    simp only [updateAncestorsForRemoval, he', hs.updateAncestorsOf_forget (hD r mem_cons_self) he]
    rw [ih (fun x hx => hl x (mem_cons_of_mem _ hx)) hnd, toFinset_cons,
      union_insert, insert_union]
    intro x hx hmem
    rcases mem_insert.mp hmem with rfl | hmem
    · exact hr hx
    · exact hD x (mem_cons_of_mem _ hx) hmem

/-! ### Entries that go with all their descendants -/

/-- Everything behind an entry of the set is in the set. -/
def ClosedBelow (s : CTxMemPool) (D : Finset Uint256) : Prop := ∀ a b, s.Link a b → a ∈ D → b ∈ D

/-- The pool without some entries, which nobody remembers. -/
noncomputable abbrev without (s : CTxMemPool) (D : Finset Uint256) : CTxMemPool :=
  s.removing D (s.forget D)

/-- Nothing is left of the links that the last loop removes. -/
theorem updateChildrenForRemoval_noChildren {l : List Uint256} (h : ∀ r ∈ l, s.childrenOf r = ∅) :
    l.foldl updateChildrenForRemoval s = s := by
  induction l with
  | nil => rfl
  | cons r l ih =>
    have hnil : s.mapTx.keysIn ∅ = [] := eq_nil_iff_forall_not_mem.mpr fun x hx =>
        absurd (mem_keysIn.mp hx).2 (notMem_empty x)
    rw [foldl_cons, updateChildrenForRemoval, h r mem_cons_self, hnil, updateParentOf]
    exact ih fun x hx => h x (mem_cons_of_mem _ hx)

theorem Linked.removeStaged_closed (hs : s.Linked) {D : Finset Uint256} (hD : D ⊆ s.ids)
    (hcl : s.ClosedBelow D) : s.removeStaged .exact D false = .ok (s.without D) := by
  have hset : (s.mapTx.keysIn D).toFinset = D := toFinset_keysIn _ hD
  have hstart : s.updateEach (s.forget ∅) = s := updateEach_self fun k e _ => forget_empty s k e
  have hloop := hs.updateAncestorsForRemoval_eq (l := s.mapTx.keysIn D) (D := ∅)
    (fun r hr => (mem_keysIn.mp hr).1) (nodup_keysIn _ _)
    (fun r _ => notMem_empty r)
  rw [hstart, hset, empty_union] at hloop
  have hchs : ∀ r ∈ s.mapTx.keysIn D, (s.updateEach (s.forget D)).childrenOf r = ∅ := by
    intro r hr
    obtain ⟨hid, hrD⟩ := mem_keysIn.mp hr
    obtain ⟨e, he⟩ := mem_ids.mp hid
    rw [childrenOf, find?_updateEach, he]
    refine sdiff_eq_empty_iff_subset.mpr fun c hc => ?_
    refine hcl r c (hs.mem_children.mp ?_) hrD
    rwa [childrenOf_of_find? he]
  simp only [removeStaged, updateForRemoveFromMempool, Bool.false_eq_true, if_false, hloop,
    updateChildrenForRemoval_noChildren hchs]
  rfl

section
variable {D : Finset Uint256}

theorem parentsOf_without (s : CTxMemPool) (D : Finset Uint256) (k : Uint256) :
    (s.without D).parentsOf k = if k ∈ D then ∅ else s.parentsOf k := by
  rw [parentsOf, find?_removing]
  split_ifs
  · rfl
  · rw [parentsOf]
    cases s.mapTx.find? k <;> rfl

theorem childrenOf_without (s : CTxMemPool) (D : Finset Uint256) (k : Uint256) :
    (s.without D).childrenOf k = if k ∈ D then ∅ else s.childrenOf k \ D := by
  rw [childrenOf, find?_removing]
  split_ifs
  · rfl
  · rw [childrenOf]
    cases s.mapTx.find? k
    · exact (empty_sdiff D).symm
    · rfl

theorem closedRemoved (hcl : s.ClosedBelow D) : ClosedRemoved s.Link (s.without D).Link D where
  edges a b := by
    rw [Link, parentsOf_without, Link]
    split_ifs with hb <;> simp [hb]
  closed := hcl

theorem Linked.without (hs : s.Linked) (hcl : s.ClosedBelow D) : (s.without D).Linked := by
  have hrem := closedRemoved hcl
  refine ⟨?_, ?_, ?_, ?_, ?_⟩
  · intro a b hab
    obtain ⟨hab, hb⟩ := (hrem.edges a b).mp hab
    rw [ids_removing]
    exact mem_sdiff.mpr ⟨hs.parent_mem hab, fun ha => hb (hcl a b hab ha)⟩
  · intro a b
    rw [childrenOf_without, hrem.edges]
    split_ifs with ha
    · simp only [notMem_empty, false_iff, not_and, not_not]
      exact fun hab => hcl a b hab ha
    · rw [mem_sdiff, hs.mem_children]
  · intro x hx
    exact hs.acyclic x (hx.lift id fun a b hab => ((hrem.edges a b).mp hab).1)
  · intro k e' he'
    obtain ⟨hk, e, he, rfl⟩ := exists_of_find?_removing he'
    rw [ids_removing, hrem.upward_eq hk]
    refine (hs.withAncestors he).trans (sum_congr rfl fun a ha => ?_)
    exact (amounts_removing (coreKept_forget s D)
      (hrem.notMem_of_reaches hk (mem_upward.mp ha).2)).symm
  · intro k e' he'
    obtain ⟨hk, e, he, rfl⟩ := exists_of_find?_removing he'
    -- The entry itself stays, so what is below it and goes is all that goes.
    have hset : downward s.ids s.Link k \ (s.below k ∩ D) = downward s.ids s.Link k \ D := by
      rw [below, erase_inter, erase_eq_of_notMem fun h =>
        hk (mem_inter.mp h).2, sdiff_inter_self_left]
    rw [withDescendants_forget, hs.sub_eq_sum he inter_subset_left, hset, ids_removing,
      hrem.downward_eq]
    exact sum_congr rfl fun d hd => by
      rw [amounts_removing (coreKept_forget s D) (mem_sdiff.mp hd).2]

end

/-! ### An entry that goes alone -/

/-- What becomes of an entry when its ancestor `v`, which has no parents, goes. -/
noncomputable def unlink (s : CTxMemPool) (v k : Uint256) (e : CTxMemPoolEntry) : CTxMemPoolEntry :=
  if k ∈ s.below v then { e.addAncestors (-s.amounts v) with parents := e.parents.erase v } else e

theorem coreKept_unlink (s : CTxMemPool) (v : Uint256) : CoreKept (s.unlink v) := by
  intro k e
  unfold unlink
  split_ifs <;> rfl

theorem withDescendants_unlink (s : CTxMemPool) (v k : Uint256) (e : CTxMemPoolEntry) :
    (s.unlink v k e).withDescendants = e.withDescendants := by
  unfold unlink
  split_ifs <;> rfl

/-- An entry that is not below has no link to lose. -/
theorem Linked.parents_unlink (hs : s.Linked) (he : s.mapTx.find? k = some e) :
    (s.unlink v k e).parents = e.parents.erase v := by
  unfold unlink
  split_ifs with hk
  · rfl
  · refine (erase_eq_of_notMem fun h => hk ?_).symm
    exact hs.mem_below.mpr (.single ((link_iff he).mpr h))

/-- The pool without an entry whose descendants stay. -/
noncomputable abbrev confirmed (s : CTxMemPool) (v : Uint256) : CTxMemPool :=
  s.removing {v} (s.unlink v)

/-- The first loop: the descendants lose an ancestor. -/
theorem Linked.updateDescendantsForRemoval_eq (hs : s.Linked) (hv : v ∈ s.ids) :
    updateDescendantsForRemoval .exact [v] s = .ok (s.updateEach fun k x =>
      if k ∈ s.mapTx.keysIn (s.below v) then x.addAncestors (-s.amounts v) else x) := by
  obtain ⟨e, he⟩ := mem_ids.mp hv
  have hamts :
      -s.amounts v = (-1, -(e.getTxSize : Int), -e.modifiedFee, -(e.sigOpCost : Int)) := by
    rw [amounts_of_find? he]
    rfl
  have hlow : (s.calculateDescendants v ∅).erase v = s.below v := by
    rw [hs.toMutual.calculateDescendants_eq hv, below]
  simp only [updateDescendantsForRemoval, he, hlow]
  rw [modifyAll_eq (g := addAncestors (-s.amounts v)) (nodup_keysIn _ _)]
  intro k hk
  obtain ⟨hkids, hkbelow⟩ := mem_keysIn.mp hk
  obtain ⟨x, hx⟩ := mem_ids.mp hkids
  refine ⟨x, hx, ?_⟩
  have hpath := hs.mem_below.mp hkbelow
  have hmem : v ∈ upward s.ids s.Link k := mem_upward.mpr ⟨hv, hpath.to_reflTransGen⟩
  have hpos : (x.withAncestors + -s.amounts v).Positive := by
    rw [hs.withAncestors hx, ← add_sum_erase _ _ hmem, add_neg_cancel_comm]
    refine sum_positive (mem_erase.mpr ⟨?_, self_mem_upward hkids⟩) hkids
    exact (hs.ne_of_transGen hpath).symm
  have hok := updateAncestorState_exact hpos
  rw [hamts] at hok ⊢
  exact hok

theorem Linked.removeStaged_root (hs : s.Linked) (hv : v ∈ s.ids) (hroot : s.parentsOf v = ∅) :
    s.removeStaged .exact {v} true = .ok (s.confirmed v) := by
  obtain ⟨e, he⟩ := mem_ids.mp hv
  have hpars : e.parents = ∅ := by rw [← parentsOf_of_find? he, hroot]
  have hself : v ∉ s.below v := notMem_erase _ _
  have hkeys : ∀ {k x t}, s.mapTx.find? k = some x → (k ∈ s.mapTx.keysIn t ↔ k ∈ t) :=
    fun hx => mem_keysIn.trans (and_iff_right (mem_ids_of_find? hx))
  let f : Uint256 → CTxMemPoolEntry → CTxMemPoolEntry := fun k x =>
    if k ∈ s.mapTx.keysIn (s.below v) then x.addAncestors (-s.amounts v) else x
  have he' : (s.updateEach f).mapTx.find? v = some e := by
    rw [find?_updateEach, he, map_some]
    exact congrArg some (if_neg fun h => hself ((hkeys he).mp h))
  -- Nothing is above the entry.
  have hnone : (s.updateEach f).linkedAncestors e = ∅ := by
    rw [linkedAncestors, calculateAncestorsAndCheckLimits, hpars]
    cases (s.updateEach f).mapTx.size <;> rfl
  have hanc : updateAncestorsForRemoval .exact [v] (s.updateEach f) =
      .ok (s.updateEach f) := by
    simp only [updateAncestorsForRemoval, he', hnone]
    rw [updateAncestorsOf_eq he' (by rw [hpars]) (empty_subset _) rfl (by simp)]
    refine congrArg Except.ok (updateEach_self fun k x _ => ?_)
    rw [withDescendant, if_neg (notMem_empty k)]
  have hchs : (s.updateEach f).childrenOf v = s.childrenOf v := by
    rw [childrenOf_of_find? he', childrenOf_of_find? he]
  have hents : s.mapTx.keysIn {v} = [v] := keysIn_singleton hv
  have hlast : updateChildrenForRemoval (s.updateEach f) v = s.updateEach (s.unlink v) := by
    rw [updateChildrenForRemoval, updateParentOf_eq, hchs, keysIn_updateEach,
      updateEach_updateEach]
    refine updateEach_congr fun k x hx => ?_
    have hch : k ∈ s.childrenOf v → k ∈ s.below v := fun h =>
      hs.mem_below.mpr (.single (hs.mem_children.mp h))
    simp only [f, hkeys hx]
    unfold unlink
    by_cases hk : k ∈ s.below v
    · simp only [hk, if_true]
      split_ifs with hlink
      · rfl
      · have hnot : v ∉ x.parents := fun h => hlink (hs.mem_children.mpr ((link_iff hx).mpr h))
        rw [erase_eq_of_notMem hnot]
        rfl
    · simp [hk, mt hch hk]
  have hdesc := hs.updateDescendantsForRemoval_eq hv
  simp only [removeStaged, updateForRemoveFromMempool, hents, if_true, foldl_cons,
    foldl_nil, hdesc, hanc, f, hlast, confirmed, removing]

theorem childrenOf_confirmed (s : CTxMemPool) (v k : Uint256) :
    (s.confirmed v).childrenOf k = if k ∈ ({v} : Finset Uint256) then ∅ else s.childrenOf k := by
  rw [childrenOf, find?_removing]
  split_ifs
  · rfl
  · rw [childrenOf]
    cases s.mapTx.find? k with
    | none => rfl
    | some e =>
      change (s.unlink v k e).children = e.children
      unfold unlink
      split_ifs <;> rfl

section
variable (hs : s.Linked) (hroot : s.parentsOf v = ∅)

include hs hroot

theorem Linked.parentsOf_confirmed (k : Uint256) :
    (s.confirmed v).parentsOf k = (s.parentsOf k).erase v := by
  rw [parentsOf, find?_removing]
  split_ifs with hk
  · rw [Finset.mem_singleton.mp hk, hroot]
    rfl
  · rw [parentsOf]
    cases he : s.mapTx.find? k with
    | none => rfl
    | some e => exact hs.parents_unlink he

/-- Against the direction of the links the entry goes with everything behind it. -/
theorem Linked.rootRemoved :
    ClosedRemoved (Function.swap s.Link) (Function.swap (s.confirmed v).Link) {v} where
  edges a b := by
    change (s.confirmed v).Link b a ↔ _
    rw [Link, hs.parentsOf_confirmed hroot, mem_erase, and_comm, Finset.mem_singleton]
    rfl
  closed a b hba ha := by
    change s.Link b a at hba
    rw [Finset.mem_singleton.mp ha, Link, hroot] at hba
    exact absurd hba (notMem_empty b)

theorem Linked.confirmed (hv : v ∈ s.ids) : (s.confirmed v).Linked := by
  have hrem := hs.rootRemoved hroot
  have hcore := coreKept_unlink s v
  refine ⟨?_, ?_, ?_, ?_, ?_⟩
  · intro a b hab
    obtain ⟨hab, ha⟩ := (hrem.edges b a).mp hab
    rw [ids_removing]
    exact mem_sdiff.mpr ⟨hs.parent_mem hab, ha⟩
  · intro a b
    rw [childrenOf_confirmed]
    refine Iff.trans ?_ (hrem.edges b a).symm
    split_ifs with ha
    · exact iff_of_false (notMem_empty b) fun hab => hab.2 ha
    · exact hs.mem_children.trans (and_iff_left ha).symm
  · intro x hx
    exact hs.acyclic x (hx.lift id fun a b hab => ((hrem.edges b a).mp hab).1)
  · intro k e' he'
    obtain ⟨hk, e, he, rfl⟩ := exists_of_find?_removing he'
    have hsum : ∑ a ∈ upward s.ids s.Link k \ {v}, (s.confirmed v).amounts a =
        ∑ a ∈ upward s.ids s.Link k \ {v}, s.amounts a :=
      sum_congr rfl fun a ha => amounts_removing hcore (mem_sdiff.mp ha).2
    have hup := hrem.downward_eq (V := s.ids) (x := k)
    rw [downward_swap, downward_swap] at hup
    rw [ids_removing, hup, hsum, sdiff_singleton_eq_erase]
    unfold unlink
    split_ifs with hlow
    · have hmem : v ∈ upward s.ids s.Link k :=
        mem_upward.mpr ⟨hv, (hs.mem_below.mp hlow).to_reflTransGen⟩
      have hold := hs.withAncestors he
      rw [← add_sum_erase _ _ hmem, add_comm] at hold
      exact eq_add_neg_of_add_eq hold.symm ▸ rfl
    · rw [hs.withAncestors he, erase_eq_of_notMem fun h => hlow ?_]
      exact mem_erase.mpr ⟨fun heq => hk (Finset.mem_singleton.mpr heq),
        mem_downward.mpr ⟨mem_ids_of_find? he, (mem_upward.mp h).2⟩⟩
  · intro k e' he'
    obtain ⟨hk, e, he, rfl⟩ := exists_of_find?_removing he'
    have hdown := hrem.upward_eq (V := s.ids) hk
    rw [upward_swap, upward_swap] at hdown
    rw [withDescendants_unlink, hs.withDescendants he, ids_removing, hdown]
    refine sum_congr rfl fun d hd => ?_
    rw [amounts_removing hcore]
    exact hrem.notMem_of_reaches hk (reflTransGen_swap.mpr (mem_downward.mp hd).2)

end

end Lithium.CTxMemPool
