import Lithium.Txmempool.Remove

/-!
# Changing the fee of a transaction

`PrioritiseTransaction` adds an amount to the modified fee of an entry, and the same
amount to the totals of everything above and below it.
-/

namespace Lithium
open Lib Relation OrdMap CTxMemPoolEntry
namespace CTxMemPoolEntry
variable (e : CTxMemPoolEntry) (δ : Int)

theorem amounts_updateModifiedFee :
    (e.updateModifiedFee .exact δ).amounts = e.amounts + (0, 0, δ, 0) := by
  rfl

theorem withAncestors_updateModifiedFee :
    (e.updateModifiedFee .exact δ).withAncestors = e.withAncestors + (0, 0, δ, 0) := by
  simp only [withAncestors, Prod.mk_add_mk, add_zero]
  rfl

theorem withDescendants_updateModifiedFee :
    (e.updateModifiedFee .exact δ).withDescendants = e.withDescendants + (0, 0, δ) := by
  simp only [withDescendants, Prod.mk_add_mk, add_zero]
  rfl

end CTxMemPoolEntry

namespace CTxMemPool
variable {s : CTxMemPool} {k v : Uint256} {e : CTxMemPoolEntry} {δ : Int}

/-- The ancestors of an entry, without itself. -/
noncomputable def above (s : CTxMemPool) (v : Uint256) : Finset Uint256 :=
  (upward s.ids s.Link v).erase v

theorem Linked.mem_above (hs : s.Linked) : k ∈ s.above v ↔ TransGen s.Link k v :=
  mem_upward_erase hs.acyclic hs.parent_mem

/-- What becomes of an entry when the fee of `v` grows by `δ`. -/
noncomputable def reprice (s : CTxMemPool) (v : Uint256) (δ : Int) (k : Uint256)
    (e : CTxMemPoolEntry) : CTxMemPoolEntry :=
  if k = v then e.updateModifiedFee .exact δ
  else if k ∈ s.above v then e.addDescendants (0, 0, δ)
  else if k ∈ s.below v then e.addAncestors (0, 0, δ, 0)
  else e

section
variable (s : CTxMemPool) (v : Uint256) (δ : Int)

theorem storedKept_reprice : StoredKept (s.reprice v δ) := by
  refine ⟨?_, ?_, ?_⟩ <;>
  · intro k e
    unfold reprice
    split_ifs <;> rfl

theorem children_reprice (k : Uint256) (e : CTxMemPoolEntry) :
    (s.reprice v δ k e).children = e.children := by
  unfold reprice
  split_ifs <;> rfl

theorem link_reprice : (s.updateEach (s.reprice v δ)).Link = s.Link :=
  link_updateEach fun k e => by
    unfold reprice
    split_ifs <;> rfl

end

theorem amounts_reprice (hv : v ∈ s.ids) (k : Uint256) : (s.updateEach (s.reprice v δ)).amounts k =
      s.amounts k + if k = v then (0, 0, δ, 0) else 0 := by
  rw [amounts, amounts, find?_updateEach]
  unfold reprice
  by_cases hk : k = v
  · subst hk
    obtain ⟨e, he⟩ := mem_ids.mp hv
    simp [he, amounts_updateModifiedFee]
  · cases s.mapTx.find? k with
    | none => simp [hk]
    | some e =>
      simp only [hk, if_false, add_zero, Option.map_some, Option.elim_some]
      split_ifs <;> rfl

theorem sum_reprice (hv : v ∈ s.ids) (t : Finset Uint256) :
    ∑ k ∈ t, (s.updateEach (s.reprice v δ)).amounts k =
      ∑ k ∈ t, s.amounts k + if v ∈ t then (0, 0, δ, 0) else 0 := by
  simp [amounts_reprice hv, Finset.sum_add_distrib]

section
variable (hs : s.Linked)

include hs

/-- Nothing is above and below an entry. -/
theorem Linked.notMem_below (h : k ∈ s.above v) : k ∉ s.below v := fun h' =>
  hs.acyclic k ((hs.mem_above.mp h).trans (hs.mem_below.mp h'))

theorem Linked.withAncestors_reprice (hv : v ∈ s.ids) (k : Uint256)
    (e : CTxMemPoolEntry) : (s.reprice v δ k e).withAncestors =
      e.withAncestors + if v ∈ upward s.ids s.Link k then (0, 0, δ, 0) else 0 := by
  have hmem : v ∈ upward s.ids s.Link k ↔ k = v ∨ k ∈ s.below v := by
    rw [mem_upward, hs.mem_below, reflTransGen_iff_eq_or_transGen]
    exact and_iff_right hv
  unfold reprice
  by_cases hkv : k = v
  · rw [if_pos hkv, if_pos (hmem.mpr (.inl hkv))]
    exact withAncestors_updateModifiedFee e δ
  · by_cases habove : k ∈ s.above v
    · simp only [hmem, hkv, habove, hs.notMem_below habove, if_true, if_false, or_self, add_zero]
      rfl
    · by_cases hlow : k ∈ s.below v
      · simp only [hmem, hkv, habove, hlow, if_true, if_false, or_true]
        rfl
      · simp [hmem, hkv, habove, hlow]

theorem Linked.withDescendants_reprice (hv : v ∈ s.ids) (k : Uint256)
    (e : CTxMemPoolEntry) : (s.reprice v δ k e).withDescendants =
      e.withDescendants + if v ∈ downward s.ids s.Link k then (0, 0, δ) else 0 := by
  have hmem : v ∈ downward s.ids s.Link k ↔ k = v ∨ k ∈ s.above v := by
    rw [mem_downward, hs.mem_above, reflTransGen_iff_eq_or_transGen, eq_comm]
    exact and_iff_right hv
  unfold reprice
  by_cases hkv : k = v
  · rw [if_pos hkv, if_pos (hmem.mpr (.inl hkv))]
    exact withDescendants_updateModifiedFee e δ
  · by_cases habove : k ∈ s.above v
    · simp only [hmem, hkv, habove, if_true, if_false, or_true]
      rfl
    · simp only [hmem, hkv, habove, if_false, or_self, add_zero]
      split_ifs <;> rfl

theorem Linked.reprice (hv : v ∈ s.ids) : (s.updateEach (s.reprice v δ)).Linked := by
  have hlink := link_reprice s v δ
  refine ⟨?_, ?_, ?_, ?_, ?_⟩
  · rw [hlink, ids_updateEach]
    exact hs.parent_mem
  · intro a b
    rw [hlink, ← hs.mem_children, childrenOf_updateEach (children_reprice s v δ)]
  · rw [hlink]
    exact hs.acyclic
  · intro k e' he'
    obtain ⟨e, he, rfl⟩ := exists_of_find?_updateEach he'
    rw [ids_updateEach, hlink, sum_reprice hv, ← hs.withAncestors he, hs.withAncestors_reprice hv]
  · intro k e' he'
    obtain ⟨e, he, rfl⟩ := exists_of_find?_updateEach he'
    rw [ids_updateEach, hlink, head_sum, sum_reprice hv, hs.withDescendants_reprice hv,
      hs.withDescendants he, head_sum]
    split_ifs <;> rfl

/-! ### The three steps -/

/-- The ancestors of the entry, whose own fee has changed. -/
theorem Linked.repriceAbove (he : s.mapTx.find? v = some e) :
    let t := s.updateEach fun k x => if k = v then x.updateModifiedFee .exact δ else x
    modifyAll (updateDescendantState .exact 0 δ 0) (t.mapTx.keysIn (t.linkedAncestors e)) t =
      .ok (t.updateEach fun k x => if k ∈ s.above v then x.addDescendants (0, 0, δ) else x) := by
  intro t
  have hpars : t.parentsOf = s.parentsOf := parentsOf_updateEach fun k x => by
    split_ifs <;> rfl
  have hlink : t.Link = s.Link := by
    funext a b
    rw [Link, Link, hpars]
  have hpar : ∀ {a b}, t.Link a b → a ∈ t.ids := by
    rw [hlink, ids_updateEach]
    exact hs.parent_mem
  have hmem : ∀ k, k ∈ t.linkedAncestors e ↔ k ∈ s.above v := by
    intro k
    rw [mem_linkedAncestors hpar (by rw [hpars, parentsOf_of_find? he]), hlink, hs.mem_above]
  have hkeys : ∀ {k}, k ∈ t.mapTx.keysIn (t.linkedAncestors e) ↔ k ∈ s.above v := by
    intro k
    rw [keysIn_updateEach, mem_keysIn, hmem]
    refine and_iff_right_of_imp fun hk => ?_
    exact hs.reaches_mem (hs.mem_above.mp hk).to_reflTransGen (mem_ids_of_find? he)
  rw [modifyAll_eq (g := addDescendants (0, 0, δ)) (nodup_keysIn _ _)]
  · exact congrArg Except.ok (updateEach_congr fun k x _ => by simp [hkeys])
  · intro k hk
    have habove := hkeys.mp hk
    have hne : k ≠ v := hs.ne_of_transGen (hs.mem_above.mp habove)
    have hid : k ∈ s.ids :=
      hs.reaches_mem (hs.mem_above.mp habove).to_reflTransGen (mem_ids_of_find? he)
    obtain ⟨x, hx⟩ := mem_ids.mp hid
    refine ⟨x, by rw [find?_updateEach, hx, Option.map_some, if_neg hne], ?_⟩
    obtain ⟨hcnt, hsize⟩ := hs.withDescendants_positive hx
    exact updateDescendantState_exact (d := (0, 0, δ))
      (Int.add_pos_of_pos_of_nonneg hcnt le_rfl) (Int.add_pos_of_pos_of_nonneg hsize le_rfl)

/-- The descendants, which none of the other steps has changed. -/
theorem Linked.repriceBelow (hv : v ∈ s.ids)
    {f : Uint256 → CTxMemPoolEntry → CTxMemPoolEntry} (hf : ∀ k ∈ s.below v, ∀ x, f k x = x)
    (hchs : ∀ k x, (f k x).children = x.children) :
    let t := s.updateEach f
    modifyAll (updateAncestorState .exact 0 δ 0 0)
        (t.mapTx.keysIn ((t.calculateDescendants v ∅).erase v)) t =
      .ok (t.updateEach fun k x => if k ∈ s.below v then x.addAncestors (0, 0, δ, 0) else x) := by
  intro t
  have hset : (t.calculateDescendants v ∅).erase v = s.below v := by
    rw [calculateDescendants_updateEach hchs, hs.toMutual.calculateDescendants_eq hv, below]
  have hkeys : ∀ {k}, k ∈ t.mapTx.keysIn (s.below v) ↔ k ∈ s.below v := by
    intro k
    rw [keysIn_updateEach, mem_keysIn]
    refine and_iff_right_of_imp fun hk => ?_
    exact reached_mem (hs.mem_below.mp hk).to_reflTransGen hv
  rw [hset, modifyAll_eq (g := addAncestors (0, 0, δ, 0)) (nodup_keysIn _ _)]
  · exact congrArg Except.ok (updateEach_congr fun k x _ => by simp [hkeys])
  · intro k hk
    have hlow := hkeys.mp hk
    obtain ⟨x, hx⟩ := mem_ids.mp (reached_mem (hs.mem_below.mp hlow).to_reflTransGen hv)
    refine ⟨x, by rw [find?_updateEach, hx, Option.map_some, hf k hlow], ?_⟩
    have hpos := hs.withAncestors_positive hx
    exact updateAncestorState_exact (d := (0, 0, δ, 0))
      ⟨Int.add_pos_of_pos_of_nonneg hpos.count le_rfl,
        Int.add_pos_of_pos_of_nonneg hpos.size le_rfl, Int.add_nonneg hpos.sigOps le_rfl⟩

/-- What a user has asked for is no part of links and totals. -/
theorem Linked.withDeltas (m : OrdMap Uint256 Int) : { s with mapDeltas := m }.Linked :=
  ⟨hs.parent_mem, hs.mem_children, hs.acyclic, hs.withAncestors, hs.withDescendants⟩

end

theorem Stored.withDeltas (hs : s.Stored) (m : OrdMap Uint256 Int) :
    { s with mapDeltas := m }.Stored :=
  ⟨hs.hash, hs.next, ⟨hs.hashes.place, hs.hashes.listed⟩, hs.size, hs.fee⟩

/-- All of them. The amount is recorded as well, for the case that the transaction comes
again. -/
theorem Linked.prioritiseTransaction_eq (hs : s.Linked) (hv : v ∈ s.ids) :
    s.prioritiseTransaction .exact v δ = .ok { s.updateEach (s.reprice v δ) with
        mapDeltas := s.mapDeltas.insert v ((s.mapDeltas.find? v).getD 0 + δ) } := by
  obtain ⟨e, he⟩ := mem_ids.mp hv
  let s₀ : CTxMemPool :=
    { s with mapDeltas := s.mapDeltas.insert v ((s.mapDeltas.find? v).getD 0 + δ) }
  have hs₀ : s₀.Linked := hs.withDeltas _
  let t := s₀.updateEach fun k x => if k = v then x.updateModifiedFee .exact δ else x
  have hinsert : { s₀ with mapTx := s₀.mapTx.insert v (e.updateModifiedFee .exact δ) } = t := by
    rw [insert_eq_mapKeyed he]
    rfl
  have habove := hs₀.repriceAbove (δ := δ) he
  have hlow := hs₀.repriceBelow (δ := δ) hv (f := fun k x => if k ∈ s₀.above v then
      (if k = v then x.updateModifiedFee .exact δ else x).addDescendants (0, 0, δ)
      else if k = v then x.updateModifiedFee .exact δ else x)
    (fun k hk x => by
      have hne : k ≠ v := (hs₀.ne_of_transGen (hs₀.mem_below.mp hk)).symm
      rw [if_neg fun h => hs₀.notMem_below h hk, if_neg hne])
    (fun k x => by split_ifs <;> rfl)
  rw [prioritiseTransaction, he]
  dsimp only
  erw [hinsert, show s.mapTx.insert v _ = t.mapTx from congrArg mapTx hinsert, habove]
  dsimp only
  rw [updateEach_updateEach, hlow, updateEach_updateEach]
  refine congrArg Except.ok (updateEach_congr (s := s₀) (g := s₀.reprice v δ) fun k x _ => ?_)
  unfold CTxMemPool.reprice
  by_cases hkv : k = v
  · have hnotAbove : k ∉ s₀.above v := hkv ▸ Finset.notMem_erase _ _
    have hnotBelow : k ∉ s₀.below v := hkv ▸ Finset.notMem_erase _ _
    rw [if_neg hnotBelow, if_neg hnotAbove, if_pos hkv, if_pos hkv]
  · by_cases hkabove : k ∈ s₀.above v
    · simp [hkv, hs₀.notMem_below hkabove]
    · simp [hkv, hkabove]

end CTxMemPool
end Lithium
