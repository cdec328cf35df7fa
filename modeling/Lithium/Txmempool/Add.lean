import Lithium.Txmempool.Links
import Lithium.Txmempool.Stored

/-!
# Adding a transaction

With the ancestors that `CalculateMemPoolAncestors` finds, `addUnchecked` does not fail
and leaves links and totals in order: the new entry has no descendants, gets the sums
over its ancestors, and counts for each of them.
-/

namespace Lithium.CTxMemPool
open Lib Relation Finset Option OrdMap CTxMemPoolEntry
variable {tx : CTransaction} {A : Finset Uint256} (add : Bool) (it : Uint256) (P : Finset Uint256)
  {s : CTxMemPool}

/-- The transactions of the pool that a transaction spends from. -/
def parentsIn (s : CTxMemPool) (tx : CTransaction) : Finset Uint256 :=
  (tx.vin.map fun txin => txin.prevout.hash).toFinset ∩ s.ids

theorem mem_parentsIn {p : Uint256} :
    p ∈ s.parentsIn tx ↔ (∃ txin ∈ tx.vin, txin.prevout.hash = p) ∧ p ∈ s.ids := by
  simp [parentsIn]

/-! ### The search for ancestors -/

variable {limits : Option MemPoolLimits}

theorem stageParents_eq {count : Int} {vin : List CTxIn} {staged result : Finset Uint256}
    (h : s.stageParents count limits vin staged = .ok result) :
    result = staged ∪ ((vin.map fun txin => txin.prevout.hash).toFinset ∩ s.ids) := by
  induction vin generalizing staged with
  | nil =>
    cases h
    simp
  | cons txin vin ih =>
    rw [stageParents] at h
    rw [List.map_cons, List.toFinset_cons]
    split at h
    case h_1 hnone =>
      have hmem : txin.prevout.hash ∉ s.ids := find?_eq_none.mp hnone
      rw [ih h, insert_inter_of_notMem hmem]
    case h_2 e he =>
      have hmem : txin.prevout.hash ∈ s.ids := mem_ids_of_find? he
      rw [insert_inter_of_mem hmem, union_insert, ← insert_union]
      split at h
      case h_1 => exact ih h
      case h_2 l =>
        dsimp only at h
        split at h
        · cases h
        · exact ih h

/-- `A` are the ancestors that a transaction has in the pool. -/
def IsAncestors (s : CTxMemPool) (tx : CTransaction) (A : Finset Uint256) : Prop :=
  ∀ y, y ∈ A ↔ ∃ p ∈ s.parentsIn tx, ReflTransGen s.Link y p

theorem Linked.isAncestors (hs : s.Linked) {txSize : Int}
    (h : s.calculateMemPoolAncestors tx txSize limits = .ok A) : s.IsAncestors tx A := by
  rw [calculateMemPoolAncestors] at h
  split at h
  case h_1 => cases h
  case h_2 staged hstaged =>
    have hpars : staged = s.parentsIn tx := by
      rw [stageParents_eq hstaged, empty_union, parentsIn]
    subst hpars
    rw [ancestorsLoop_eq h]
    exact mem_explore_parents hs.parent_mem inter_subset_right

theorem IsAncestors.subset (hs : s.Linked) (hA : s.IsAncestors tx A) : A ⊆ s.ids := by
  intro y hy
  obtain ⟨p, hp, hpath⟩ := (hA y).mp hy
  exact hs.reaches_mem hpath (mem_parentsIn.mp hp).2

/-! ### The sums over the ancestors -/

theorem sumAncestors_eq {l : List Uint256} (hnd : l.Nodup) (sums : Int × Int × Int) :
    s.sumAncestors .exact l sums = (sums.1 + (∑ a ∈ l.toFinset, s.amounts a).2.1,
        sums.2.1 + (∑ a ∈ l.toFinset, s.amounts a).2.2.1,
        sums.2.2 + (∑ a ∈ l.toFinset, s.amounts a).2.2.2) := by
  induction l generalizing sums with
  | nil => simp [sumAncestors]
  | cons id l ih =>
    obtain ⟨hid, hnd⟩ := List.nodup_cons.mp hnd
    rw [List.toFinset_cons, sum_insert (by simpa using hid)]
    cases he : s.mapTx.find? id with
    | none =>
      have hzero : s.amounts id = 0 := by rw [amounts, he]; rfl
      simp [sumAncestors, he, ih hnd, hzero]
    | some e =>
      simp [sumAncestors, he, ih hnd, amounts_of_find? he, CTxMemPoolEntry.amounts, add_assoc]

theorem card_eq_sum (hA : A ⊆ s.ids) : (A.card : Int) = (∑ a ∈ A, s.amounts a).1 := by
  have hone : ∀ a ∈ A, (s.amounts a).1 = 1 := by
    intro a ha
    obtain ⟨e, he⟩ := mem_ids.mp (hA ha)
    rw [amounts_of_find? he]
    rfl
  rw [Prod.fst_sum, sum_congr rfl hone, sum_const, nsmul_one]

/-! ### Updates of ancestors and of the entry -/

/-- What becomes of an entry when `it`, with the parents `P` and the ancestors `A`, comes
or goes as a descendant. -/
def withDescendant (add : Bool) (it : Uint256) (P A : Finset Uint256) (d : Amounts3)
    (k : Uint256) (e : CTxMemPoolEntry) : CTxMemPoolEntry :=
  if k ∈ A then
    { e.addDescendants d with
      children :=
        if k ∈ P then (if add then insert it e.children else e.children.erase it)
        else e.children }
  else e

theorem coreKept_withDescendant (A : Finset Uint256) (d : Amounts3) :
    CoreKept (withDescendant add it P A d) := by
  intro k e
  unfold withDescendant
  split_ifs <;> rfl

section
variable (A : Finset Uint256) (d : Amounts3) (k : Uint256) (e : CTxMemPoolEntry)

theorem withAncestors_withDescendant :
    (withDescendant add it P A d k e).withAncestors = e.withAncestors := by
  unfold withDescendant
  split_ifs <;> rfl

theorem withDescendants_withDescendant : (withDescendant add it P A d k e).withDescendants =
      if k ∈ A then e.withDescendants + d else e.withDescendants := by
  unfold withDescendant
  by_cases hk : k ∈ A
  · rw [if_pos hk, if_pos hk]
    rfl
  · rw [if_neg hk, if_neg hk]

theorem parents_withDescendant : (withDescendant add it P A d k e).parents = e.parents := by
  unfold withDescendant
  split_ifs <;> rfl

end

theorem children_withDescendant {P : Finset Uint256} (hP : P ⊆ A) (d : Amounts3) (k : Uint256)
    (e : CTxMemPoolEntry) : (withDescendant add it P A d k e).children =
      if k ∈ P then (if add then insert it e.children else e.children.erase it)
      else e.children := by
  unfold withDescendant
  by_cases hk : k ∈ A
  · rw [if_pos hk]
  · rw [if_neg hk, if_neg fun h => hk (hP h)]

/-- `UpdateAncestorsOf` does not fail when no total of an ancestor loses all it has. -/
theorem updateAncestorsOf_eq {it : Uint256} {e : CTxMemPoolEntry} {add : Bool}
    (he : s.mapTx.find? it = some e) (hP : e.parents ⊆ A) (hA : A ⊆ s.ids) {d : Amounts3}
    (hd : d = if add then e.amounts.head else -e.amounts.head)
    (hpos : ∀ k ∈ A, ∀ x, s.mapTx.find? k = some x →
      0 < (x.withDescendants + d).1 ∧ 0 < (x.withDescendants + d).2.1) :
    updateAncestorsOf .exact add it A s =
      .ok (s.updateEach (withDescendant add it e.parents A d)) := by
  have hkeys : ∀ {k x t}, s.mapTx.find? k = some x → (k ∈ s.mapTx.keysIn t ↔ k ∈ t) :=
    fun hx => mem_keysIn.trans (and_iff_right (mem_ids_of_find? hx))
  have hcnt : (if add then 1 else -1 : Int) = d.1 := by
    subst hd
    cases add <;> rfl
  have hsize : d.1 * e.getTxSize = d.2.1 := by
    subst hd
    cases add <;> simp [Amounts.head, CTxMemPoolEntry.amounts]
  have hfee : d.1 * e.modifiedFee = d.2.2 := by
    subst hd
    cases add <;> simp [Amounts.head, CTxMemPoolEntry.amounts]
  rw [updateAncestorsOf, he]
  simp only [updateChildOf_eq, hcnt, hsize, hfee, keysIn_updateEach]
  rw [modifyAll_eq (g := CTxMemPoolEntry.addDescendants d) (nodup_keysIn _ _),
    updateEach_updateEach]
  · refine congrArg Except.ok (updateEach_congr fun k x hx => ?_)
    simp only [hkeys hx, withDescendant]
    by_cases hkA : k ∈ A
    · by_cases hkP : k ∈ e.parents <;> simp only [hkA, hkP, if_true, if_false] <;> rfl
    · have hkP : k ∉ e.parents := fun h => hkA (hP h)
      simp [hkA, hkP]
  · intro k hk
    have hkA := (mem_keysIn.mp hk).2
    obtain ⟨x, hx⟩ := mem_ids.mp (hA hkA)
    obtain ⟨hcnt, hsize⟩ := hpos k hkA x hx
    refine ⟨_, by rw [find?_updateEach, hx, map_some], ?_⟩
    split_ifs <;> exact updateDescendantState_exact hcnt hsize

theorem updateEntryForAncestors_eq {it : Uint256} {e : CTxMemPoolEntry}
    (he : s.mapTx.find? it = some e) (hA : A ⊆ s.ids)
    (hpos : (e.withAncestors + ∑ x ∈ A, s.amounts x).Positive) :
    updateEntryForAncestors .exact it A s = .ok (s.updateEach fun k x =>
      if k = it then x.addAncestors (∑ x ∈ A, s.amounts x) else x) := by
  rw [updateEntryForAncestors, sumAncestors_eq (nodup_keysIn _ _), toFinset_keysIn _ hA]
  simp only [zero_add, card_eq_sum hA]
  exact modify_eq he (updateAncestorState_exact hpos)

/-! ### The new entry -/

/-- What may be added: a transaction that is not there, does not spend from itself and
spends no output that another transaction of the pool spends. -/
structure Addable (s : CTxMemPool) (tx : CTransaction) : Prop where
  fresh : tx.getHash ∉ s.ids
  not_self : ∀ txin ∈ tx.vin, txin.prevout.hash ≠ tx.getHash
  no_conflict : ∀ txin ∈ tx.vin, s.mapNextTx.find? txin.prevout = none

/-- A new entry carries its own amounts as totals. -/
structure Prepared (s : CTxMemPool) (tx : CTransaction) (e : CTxMemPoolEntry) : Prop where
  tx_eq : e.tx = tx
  parents : e.parents = s.parentsIn tx
  children : e.children = ∅
  withAncestors : e.withAncestors = e.amounts
  withDescendants : e.withDescendants = e.amounts.head

theorem Addable.ne (h : s.Addable tx) {k : Uint256} (hk : k ∈ s.ids) : tx.getHash ≠ k :=
  fun heq => h.fresh (heq ▸ hk)

theorem Addable.prepared {a : NewEntry} (h : s.Addable a.tx) :
    s.Prepared a.tx (s.preparedEntry .exact a.entry) := by
  have hpars : (a.tx.vin.map fun txin => txin.prevout.hash).toFinset ∩
      insert a.tx.getHash s.mapTx.keys = s.parentsIn a.tx := by
    refine inter_insert_of_notMem ?_
    simpa using h.not_self
  rw [preparedEntry]
  split
  · exact ⟨rfl, hpars, rfl, rfl, rfl⟩
  · split_ifs
    · exact ⟨rfl, hpars, rfl, rfl, rfl⟩
    · exact ⟨rfl, hpars, rfl, rfl, rfl⟩

theorem preparedEntry_stored (s : CTxMemPool) (A : Arithmetic) (a : NewEntry) :
    (s.preparedEntry A a.entry).tx = a.tx ∧ (s.preparedEntry A a.entry).nFee = a.fee ∧
      (s.preparedEntry A a.entry).getTxSize = a.entry.getTxSize := by
  rw [preparedEntry]
  split
  · exact ⟨rfl, rfl, rfl⟩
  · split_ifs <;> exact ⟨rfl, rfl, rfl⟩

/-- The pool right after the insertion, before any link or total of another entry has
been changed. -/
def inserted (A : Arithmetic) (s : CTxMemPool) (entry : CTxMemPoolEntry) : CTxMemPool :=
  let id := entry.tx.getHash
  { s with
    mapTx := s.mapTx.insert id (s.preparedEntry A entry)
    mapNextTx := insertNextTx id entry.tx.vin s.mapNextTx
    vTxHashes := s.vTxHashes ++ [(entry.tx.getWitnessHash, id)]
    vTxHashesIdx := s.vTxHashesIdx.insert id s.vTxHashes.length
    totalTxSize := s.totalTxSize + entry.getTxSize
    totalFee := s.totalFee + entry.nFee }

/-- What becomes of the entries: the new one gets the sums over its ancestors, and they
get it as a descendant. -/
def linkUp (id : Uint256) (P A : Finset Uint256) (sum : Amounts) (own : Amounts3) (k : Uint256)
    (e : CTxMemPoolEntry) : CTxMemPoolEntry :=
  if k = id then e.addAncestors sum
  else withDescendant true id P A own k e

theorem coreKept_linkUp (id : Uint256) (P A : Finset Uint256) (sum : Amounts) (own : Amounts3) :
    CoreKept (linkUp id P A sum own) := by
  intro k e
  unfold linkUp withDescendant
  split_ifs <;> rfl

def added (s : CTxMemPool) (a : NewEntry) (A : Finset Uint256) : CTxMemPool :=
  (inserted .exact s a.entry).updateEach (linkUp a.tx.getHash (s.parentsIn a.tx) A
    (∑ x ∈ A, s.amounts x) (s.preparedEntry .exact a.entry).amounts.head)

section
variable {a : NewEntry} {A : Finset Uint256}

theorem find?_inserted (k : Uint256) : (inserted .exact s a.entry).mapTx.find? k =
      if a.tx.getHash = k then some (s.preparedEntry .exact a.entry) else s.mapTx.find? k :=
  find?_insert _ _ _ _

theorem find?_inserted_self : (inserted .exact s a.entry).mapTx.find? a.tx.getHash =
    some (s.preparedEntry .exact a.entry) := by
  rw [find?_inserted, if_pos rfl]

theorem ids_inserted : (inserted .exact s a.entry).ids = insert a.tx.getHash s.ids :=
  keys_insert _ _ _

variable {k : Uint256}

theorem Addable.find?_inserted (hadd : s.Addable a.tx) (hk : k ∈ s.ids) :
    (inserted .exact s a.entry).mapTx.find? k = s.mapTx.find? k := by
  rw [CTxMemPool.find?_inserted, if_neg (hadd.ne hk)]

theorem amounts_inserted (hadd : s.Addable a.tx) (hk : k ∈ s.ids) :
    (inserted .exact s a.entry).amounts k = s.amounts k := by
  rw [amounts, amounts, hadd.find?_inserted hk]

theorem addUnchecked_eq (hs : s.Linked) (hadd : s.Addable a.tx) (hA : s.IsAncestors a.tx A) :
    s.addUnchecked .exact a.entry A = .ok (s.added a A) := by
  have hprep := hadd.prepared
  have hsub := hA.subset hs
  have hP : s.parentsIn a.tx ⊆ A := fun p hp => (hA p).mpr ⟨p, hp, .refl⟩
  have hidA : a.tx.getHash ∉ A := fun h => hadd.fresh (hsub h)
  have hsub' : A ⊆ (inserted .exact s a.entry).ids := by
    rw [ids_inserted]
    exact hsub.trans (subset_insert _ _)
  -- The ancestors get a positive amount more.
  have hpos : ∀ k ∈ A, ∀ x, (inserted .exact s a.entry).mapTx.find? k = some x →
      0 < (x.withDescendants + (s.preparedEntry .exact a.entry).amounts.head).1 ∧
        0 < (x.withDescendants + (s.preparedEntry .exact a.entry).amounts.head).2.1 := by
    intro k hk x hx
    rw [hadd.find?_inserted (hsub hk)] at hx
    obtain ⟨hcnt, hsize⟩ := hs.withDescendants_positive hx
    have hsize' : (0 : Int) < (s.preparedEntry .exact a.entry).getTxSize :=
      Int.natCast_pos.mpr (getTxSize_pos _)
    exact ⟨Int.add_pos hcnt Int.one_pos, Int.add_pos hsize hsize'⟩
  have hup : updateAncestorsOf .exact true a.tx.getHash A (inserted .exact s a.entry) = _ :=
    updateAncestorsOf_eq find?_inserted_self (hprep.parents ▸ hP) hsub' (if_pos rfl).symm hpos
  unfold addUnchecked
  dsimp only
  erw [hup]
  rw [hprep.parents]
  change updateEntryForAncestors .exact a.tx.getHash A _ = _
  have hsum : ∑ x ∈ A, ((inserted .exact s a.entry).updateEach (withDescendant true a.tx.getHash
      (s.parentsIn a.tx) A (s.preparedEntry .exact a.entry).amounts.head)).amounts x =
        ∑ x ∈ A, s.amounts x :=
    sum_congr rfl fun x hx => by
      rw [amounts_updateEach (coreKept_withDescendant _ _ _ _ _), amounts_inserted hadd (hsub hx)]
  have hsumPos :
      ((s.preparedEntry .exact a.entry).withAncestors + ∑ x ∈ A, s.amounts x).Positive := by
    have hpos := sum_positive (t := insert a.tx.getHash A) (mem_insert_self _ _)
      (mem_ids_of_find? (find?_inserted_self (s := s) (a := a)))
    rw [sum_insert hidA, amounts_of_find? find?_inserted_self, ← hprep.withAncestors] at hpos
    rwa [sum_congr rfl fun x hx => amounts_inserted hadd (hsub hx)] at hpos
  rw [updateEntryForAncestors_eq (e := s.preparedEntry .exact a.entry), hsum, added,
    updateEach_updateEach]
  · refine congrArg Except.ok (updateEach_congr fun k x hx => ?_)
    unfold linkUp
    split_ifs with hk
    · rw [hk, withDescendant, if_neg hidA]
    · rfl
  · rw [find?_updateEach, find?_inserted_self, map_some, withDescendant, if_neg hidA]
  · rwa [ids_updateEach]
  · rwa [hsum]

/-! ### Links and totals after the addition -/

theorem find?_added_self : (s.added a A).mapTx.find? a.tx.getHash =
    some ((s.preparedEntry .exact a.entry).addAncestors (∑ x ∈ A, s.amounts x)) := by
  rw [added, find?_updateEach, find?_inserted_self, map_some, linkUp, if_pos rfl]

theorem find?_added_of_ne (hk : k ≠ a.tx.getHash) :
    (s.added a A).mapTx.find? k = (s.mapTx.find? k).map (withDescendant true a.tx.getHash
      (s.parentsIn a.tx) A (s.preparedEntry .exact a.entry).amounts.head k) := by
  rw [added, find?_updateEach, find?_inserted, if_neg (Ne.symm hk)]
  refine congrFun (congrArg Option.map ?_) _
  funext e
  rw [linkUp, if_neg hk]

theorem ids_added : (s.added a A).ids = insert a.tx.getHash s.ids := by
  rw [added, ids_updateEach, ids_inserted]

theorem parentsOf_added (hadd : s.Addable a.tx) (k : Uint256) :
    (s.added a A).parentsOf k = if k = a.tx.getHash then s.parentsIn a.tx else s.parentsOf k := by
  split_ifs with hk
  · rw [hk, parentsOf_of_find? find?_added_self]
    exact hadd.prepared.parents
  · rw [parentsOf, parentsOf, find?_added_of_ne hk]
    cases s.mapTx.find? k with
    | none => rfl
    | some e =>
      simp [parents_withDescendant]

theorem childrenOf_added (hadd : s.Addable a.tx) (hsub : A ⊆ s.ids) (hP : s.parentsIn a.tx ⊆ A)
    (k : Uint256) : (s.added a A).childrenOf k = if k = a.tx.getHash then ∅
      else if k ∈ s.parentsIn a.tx then insert a.tx.getHash (s.childrenOf k)
      else s.childrenOf k := by
  split_ifs with hk hkP
  · rw [hk, childrenOf_of_find? find?_added_self]
    exact hadd.prepared.children
  · obtain ⟨e, he⟩ := mem_ids.mp (hsub (hP hkP))
    rw [childrenOf, childrenOf, find?_added_of_ne hk, he]
    simp [children_withDescendant _ _ hP, hkP]
  · rw [childrenOf, childrenOf, find?_added_of_ne hk]
    cases s.mapTx.find? k with
    | none => rfl
    | some e =>
      simp [children_withDescendant _ _ hP, hkP]

theorem amounts_added_self :
    (s.added a A).amounts a.tx.getHash = (s.preparedEntry .exact a.entry).amounts := by
  rw [amounts_of_find? find?_added_self]
  rfl

theorem amounts_added (hadd : s.Addable a.tx) (hk : k ∈ s.ids) :
    (s.added a A).amounts k = s.amounts k := by
  rw [added, amounts_updateEach (coreKept_linkUp _ _ _ _ _), amounts_inserted hadd hk]

theorem sinkAdded (hs : s.Linked) (hadd : s.Addable a.tx) :
    SinkAdded s.Link (s.added a A).Link (s.parentsIn a.tx) a.tx.getHash where
  edges x y := by
    rw [Link, parentsOf_added hadd, Link]
    split_ifs with hy
    · have hnone : x ∉ s.parentsOf y := fun h => hadd.fresh (hy ▸ mem_ids_of_mem_parentsOf h)
      simp [hy, hy ▸ hnone]
    · simp [hy]
  no_out y h := hadd.fresh (hs.parent_mem h)
  no_in x h := hadd.fresh h.child_mem
  notMem h := hadd.fresh (mem_parentsIn.mp h).2

theorem Linked.added (hs : s.Linked) (hadd : s.Addable a.tx) (hA : s.IsAncestors a.tx A) :
    (s.added a A).Linked := by
  have hsink := sinkAdded (A := A) hs hadd
  have hsub := hA.subset hs
  have hP : s.parentsIn a.tx ⊆ A := fun p hp => (hA p).mpr ⟨p, hp, .refl⟩
  have hidA : a.tx.getHash ∉ A := fun h => hadd.fresh (hsub h)
  have hmemA : ∀ x, x ∈ A ↔ x ∈ s.ids ∧ ∃ p ∈ s.parentsIn a.tx, ReflTransGen s.Link x p :=
    fun x => ⟨fun hx => ⟨hsub hx, (hA x).mp hx⟩, fun hx => (hA x).mpr hx.2⟩
  refine ⟨?_, ?_, hsink.acyclic hs.acyclic, ?_, ?_⟩
  · intro x y hxy
    rw [ids_added]
    rcases (hsink.edges x y).mp hxy with hxy | ⟨-, hx⟩
    · exact mem_insert_of_mem (hs.parent_mem hxy)
    · exact mem_insert_of_mem (mem_parentsIn.mp hx).2
  · intro x y
    rw [hsink.edges, childrenOf_added hadd hsub hP]
    split_ifs with hx hxP
    · subst hx
      simp [hsink.no_out, hsink.notMem]
    · rw [mem_insert, hs.mem_children, or_comm]
      simp [hxP]
    · simp [hxP, hs.mem_children]
  · intro k e' he'
    rw [ids_added]
    by_cases hk : k = a.tx.getHash
    · subst hk
      rw [find?_added_self] at he'
      cases he'
      rw [hsink.upward_self hmemA, sum_insert hidA, amounts_added_self,
        withAncestors_addAncestors, hadd.prepared.withAncestors]
      exact congrArg _ (sum_congr rfl fun x hx => (amounts_added hadd (hsub hx)).symm)
    · rw [find?_added_of_ne hk] at he'
      obtain ⟨e, he, rfl⟩ := map_eq_some_iff.mp he'
      rw [withAncestors_withDescendant, hs.withAncestors he,
        hsink.upward_of_mem hadd.fresh (mem_ids_of_find? he)]
      exact sum_congr rfl fun x hx => (amounts_added hadd (mem_upward.mp hx).1).symm
  · intro k e' he'
    rw [ids_added]
    by_cases hk : k = a.tx.getHash
    · subst hk
      rw [find?_added_self] at he'
      cases he'
      rw [hsink.downward_self, sum_singleton, amounts_added_self]
      exact hadd.prepared.withDescendants
    · rw [find?_added_of_ne hk] at he'
      obtain ⟨e, he, rfl⟩ := map_eq_some_iff.mp he'
      have hold : ∑ d ∈ downward s.ids s.Link k, ((s.added a A).amounts d).head =
          e.withDescendants := by
        rw [hs.withDescendants he]
        exact sum_congr rfl fun x hx => by rw [amounts_added hadd (mem_downward.mp hx).1]
      rw [hsink.downward_of_mem hadd.fresh hmemA (mem_ids_of_find? he),
        withDescendants_withDescendant]
      split_ifs with hkA
      · have hnot : a.tx.getHash ∉ downward s.ids s.Link k :=
          fun h => hadd.fresh (mem_downward.mp h).1
        rw [sum_insert hnot, amounts_added_self, hold, add_comm]
      · exact hold.symm

/-! ### What else the pool stores -/

theorem find?_insertNextTx (id : Uint256) (vin : List CTxIn) (m : OrdMap COutPoint Uint256)
    (o : COutPoint) (hfree : ∀ txin ∈ vin, m.find? txin.prevout = none ∨
      m.find? txin.prevout = some id) : (insertNextTx id vin m).find? o =
      if ∃ txin ∈ vin, txin.prevout = o then some id else m.find? o := by
  induction vin generalizing m with
  | nil => simp [insertNextTx]
  | cons txin vin ih =>
    rw [insertNextTx]
    have hrest : ∀ txin' ∈ vin, m.find? txin'.prevout = none ∨
        m.find? txin'.prevout = some id := fun txin' h => hfree txin' (List.mem_cons_of_mem _ h)
    rcases hfree txin List.mem_cons_self with hnone | hsome
    · rw [hnone]
      rw [ih, find?_insert]
      · by_cases htxin : txin.prevout = o <;> simp [htxin]
      · intro txin' h
        rw [find?_insert]
        split_ifs
        · exact .inr rfl
        · exact hrest txin' h
    · rw [hsome]
      rw [ih m hrest]
      by_cases htxin : txin.prevout = o
      · simp [htxin, htxin ▸ hsome]
      · simp [htxin]

theorem HashesMatch.inserted (hs : s.HashesMatch) (hadd : s.Addable a.tx) :
    (inserted .exact s a.entry).HashesMatch := by
  obtain ⟨htx, -, -⟩ := preparedEntry_stored s .exact a
  have hget : ∀ p : Nat, (CTxMemPool.inserted .exact s a.entry).vTxHashes[p]? =
      (s.vTxHashes ++ [(a.tx.getWitnessHash, a.tx.getHash)])[p]? := fun p => rfl
  have hidx : ∀ k, (CTxMemPool.inserted .exact s a.entry).vTxHashesIdx.find? k =
      if a.tx.getHash = k then some s.vTxHashes.length else s.vTxHashesIdx.find? k :=
    fun k => find?_insert _ _ _ _
  refine ⟨?_, ?_⟩
  · intro p w id hp
    rw [hget] at hp
    by_cases hlt : p < s.vTxHashes.length
    · rw [List.getElem?_append_left hlt] at hp
      obtain ⟨hplace, e, he, hw⟩ := hs.place hp
      have hid := mem_ids_of_find? he
      exact ⟨by rw [hidx, if_neg (hadd.ne hid), hplace], e, by rw [hadd.find?_inserted hid, he], hw⟩
    · rw [List.getElem?_append_right (not_lt.mp hlt)] at hp
      obtain ⟨hzero, hpair⟩ := List.getElem?_eq_some_iff.mp hp
      have hp0 : p = s.vTxHashes.length := by
        have : p - s.vTxHashes.length < 1 := hzero
        omega
      subst hp0
      obtain ⟨rfl, rfl⟩ := Prod.ext_iff.mp (by simpa using hpair :
        (a.tx.getWitnessHash, a.tx.getHash) = (w, id))
      exact ⟨by rw [hidx, if_pos rfl], _, find?_inserted_self, by rw [htx]⟩
  · intro id hid
    rw [ids_inserted] at hid
    rcases mem_insert.mp hid with rfl | hid
    · exact ⟨s.vTxHashes.length, a.tx.getWitnessHash, by rw [hget]; simp⟩
    · obtain ⟨p, w, hp⟩ := hs.listed hid
      have hlt : p < s.vTxHashes.length := (List.getElem?_eq_some_iff.mp hp).1
      exact ⟨p, w, by rw [hget, List.getElem?_append_left hlt, hp]⟩

theorem Stored.inserted (hs : s.Stored) (hadd : s.Addable a.tx) :
    (inserted .exact s a.entry).Stored := by
  obtain ⟨htx, hfee, hsize⟩ := preparedEntry_stored s .exact a
  refine ⟨?_, ?_, hs.hashes.inserted hadd, ?_, ?_⟩
  · intro id e he
    rw [find?_inserted] at he
    split_ifs at he with hid
    · cases he
      rw [htx, hid]
    · exact hs.hash he
  · intro o id
    have hnext : (CTxMemPool.inserted .exact s a.entry).mapNextTx.find? o =
        if ∃ txin ∈ a.tx.vin, txin.prevout = o then some a.tx.getHash
        else s.mapNextTx.find? o :=
      find?_insertNextTx _ _ _ o fun txin h => .inl (hadd.no_conflict txin h)
    rw [hnext]
    split_ifs with hspent
    · constructor
      · intro hid
        cases hid
        exact ⟨_, find?_inserted_self, htx.symm ▸ hspent⟩
      · rintro ⟨e, he, hsp⟩
        rw [find?_inserted] at he
        split_ifs at he with hid
        · exact congrArg some hid
        · -- Another spender would be in the way of the new transaction.
          obtain ⟨txin, hin, rfl⟩ := hspent
          have := hs.next.mpr ⟨e, he, hsp⟩
          rw [hadd.no_conflict txin hin] at this
          cases this
    · rw [hs.next]
      constructor
      · rintro ⟨e, he, hsp⟩
        exact ⟨e, by rw [hadd.find?_inserted (mem_ids_of_find? he), he], hsp⟩
      · rintro ⟨e, he, hsp⟩
        rw [find?_inserted] at he
        split_ifs at he with hid
        · cases he
          exact absurd (htx ▸ hsp) hspent
        · exact ⟨e, he, hsp⟩
  · have hself : (CTxMemPool.inserted .exact s a.entry).sizeOf a.tx.getHash =
        a.entry.getTxSize := by
      rw [sizeOf, find?_inserted_self]
      exact congrArg Nat.cast hsize
    rw [ids_inserted, sum_insert hadd.fresh, hself]
    refine (congrArg (· + (a.entry.getTxSize : Int)) hs.size).trans ?_
    rw [add_comm]
    refine congrArg _ (sum_congr rfl fun k hk => ?_)
    rw [sizeOf, sizeOf, hadd.find?_inserted hk]
  · have hself : (CTxMemPool.inserted .exact s a.entry).feeOf a.tx.getHash = a.fee := by
      rw [feeOf, find?_inserted_self]
      exact hfee
    rw [ids_inserted, sum_insert hadd.fresh, hself]
    refine (congrArg (· + a.fee) hs.fee).trans ?_
    rw [add_comm]
    refine congrArg _ (sum_congr rfl fun k hk => ?_)
    rw [feeOf, feeOf, hadd.find?_inserted hk]

theorem Stored.added (hs : s.Stored) (hadd : s.Addable a.tx) : (s.added a A).Stored :=
  (hs.inserted hadd).updateEach (coreKept_linkUp _ _ _ _ _).storedKept

end
end Lithium.CTxMemPool
