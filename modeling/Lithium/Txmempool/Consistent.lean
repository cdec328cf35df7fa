import Lithium.Txmempool.Prioritise

/-!
# A pool that passes its own checks

`Checked` is what `CTxMemPool::check` asserts of links and totals: the links are those
that `mapNextTx` gives, and totals are sums over everything that can be reached along
them. A pool with `Stored` and `Linked` has that as soon as its links are these, and
this is what the operations keep. None of them fails on such a pool.
-/

namespace Lithium.CTxMemPool
open Lib Relation Finset Option

/-- An output of one entry is spent by another. -/
def Spent (s : CTxMemPool) (a b : Uint256) : Prop :=
  a ∈ s.ids ∧ ∃ n, s.mapNextTx.find? ⟨a, n⟩ = some b

/-- The assertions of `check` about links, totals and the indices of the pool. -/
structure Checked (s : CTxMemPool) : Prop where
  parents : ∀ {id e}, s.mapTx.find? id = some e → ∀ p, p ∈ e.parents ↔ s.Spent p id
  children : ∀ {id e}, s.mapTx.find? id = some e → ∀ c, c ∈ e.children ↔ s.Spent id c
  ancestors : ∀ {id e}, s.mapTx.find? id = some e →
    e.withAncestors = ∑ a ∈ upward s.ids s.Spent id, s.amounts a
  descendants : ∀ {id e}, s.mapTx.find? id = some e →
    e.withDescendants = ∑ d ∈ downward s.ids s.Spent id, (s.amounts d).head
  acyclic : ∀ id, ¬ TransGen s.Spent id id
  stored : s.Stored

structure Consistent (s : CTxMemPool) : Prop where
  stored : s.Stored
  linked : s.Linked
  links : ∀ {a b}, s.Link a b ↔ s.Spent a b

variable {s s' : CTxMemPool} {a b k v : Uint256} {e : CTxMemPoolEntry} {D : Finset Uint256}

/-! ### Spent outputs -/

/-- What the inputs of the spender say. -/
theorem Stored.spent_iff (hs : s.Stored) : s.Spent a b ↔
    a ∈ s.ids ∧ ∃ e, s.mapTx.find? b = some e ∧ ∃ txin ∈ e.tx.vin, txin.prevout.hash = a := by
  refine and_congr_right fun _ => ⟨?_, ?_⟩
  · rintro ⟨n, hn⟩
    obtain ⟨e, he, txin, hin, hprev⟩ := hs.next.mp hn
    exact ⟨e, he, txin, hin, congrArg COutPoint.hash hprev⟩
  · rintro ⟨e, he, txin, hin, rfl⟩
    exact ⟨txin.prevout.n, hs.next.mpr ⟨e, he, txin, hin, rfl⟩⟩

theorem Stored.spender_mem (hs : s.Stored) (h : s.Spent a b) : b ∈ s.ids := by
  obtain ⟨-, e, he, -⟩ := hs.spent_iff.mp h
  exact mem_ids_of_find? he

theorem spent_updateEach (s : CTxMemPool) (f : Uint256 → CTxMemPoolEntry → CTxMemPoolEntry) :
    (s.updateEach f).Spent = s.Spent := by
  funext a b
  rw [Spent, ids_updateEach]
  rfl

theorem Consistent.link_eq (hs : s.Consistent) : s.Link = s.Spent := by
  funext a b
  exact propext hs.links

theorem Consistent.checked (hs : s.Consistent) : s.Checked := by
  have hlink := hs.link_eq
  refine ⟨?_, ?_, ?_, ?_, ?_, hs.stored⟩
  · intro id e he p
    rw [← hs.links, link_iff he]
  · intro id e he c
    rw [← hs.links, ← hs.linked.mem_children, childrenOf_of_find? he]
  · intro id e he
    rw [← hlink]
    exact hs.linked.withAncestors he
  · intro id e he
    rw [← hlink]
    exact hs.linked.withDescendants he
  · rw [← hlink]
    exact hs.linked.acyclic

section
variable {n : NewEntry} {A : Finset Uint256}

/-- The links that the transactions have after an addition; the new one may be spent
already. -/
theorem spent_added (hadd : s.Addable n.tx) :
    (s.added n A).Spent a b ↔ s.Spent a b ∨ b = n.tx.getHash ∧ a ∈ s.parentsIn n.tx ∨
      a = n.tx.getHash ∧ ∃ i, s.mapNextTx.find? ⟨a, i⟩ = some b := by
  have hnext : ∀ o, (s.added n A).mapNextTx.find? o =
      if ∃ txin ∈ n.tx.vin, txin.prevout = o then some n.tx.getHash else s.mapNextTx.find? o :=
    fun o => find?_insertNextTx _ _ _ o fun txin h => .inl (hadd.no_conflict txin h)
  have hids : a ∈ (s.added n A).ids ↔ a = n.tx.getHash ∨ a ∈ s.ids := by
    rw [ids_added, mem_insert]
  constructor
  · rintro ⟨ha, i, hi⟩
    rw [hnext] at hi
    split_ifs at hi with hspent
    · obtain ⟨txin, hin, hprev⟩ := hspent
      have hhash : txin.prevout.hash = a := congrArg COutPoint.hash hprev
      have hne : a ≠ n.tx.getHash := hhash ▸ hadd.not_self txin hin
      have hb := Option.some.inj hi
      exact .inr (.inl ⟨hb.symm, mem_parentsIn.mpr ⟨⟨txin, hin, hhash⟩,
        (hids.mp ha).resolve_left hne⟩⟩)
    · rcases hids.mp ha with ha | ha
      · exact .inr (.inr ⟨ha, i, hi⟩)
      · exact .inl ⟨ha, i, hi⟩
  · have hold : ∀ i, s.mapNextTx.find? ⟨a, i⟩ = some b →
        (s.added n A).mapNextTx.find? ⟨a, i⟩ = some b := by
      intro i hi
      rw [hnext, if_neg, hi]
      rintro ⟨txin, hin, hprev⟩
      have := hadd.no_conflict txin hin
      rw [hprev, hi] at this
      cases this
    rintro (⟨ha, i, hi⟩ | ⟨rfl, ha⟩ | ⟨ha, i, hi⟩)
    · exact ⟨hids.mpr (.inr ha), i, hold i hi⟩
    · obtain ⟨⟨txin, hin, hhash⟩, ha⟩ := mem_parentsIn.mp ha
      refine ⟨hids.mpr (.inr ha), txin.prevout.n, ?_⟩
      rw [hnext, if_pos ⟨txin, hin, by rw [← hhash]⟩]
    · exact ⟨hids.mpr (.inl ha), i, hold i hi⟩

/-- Outside of a reorganisation nothing spends a new transaction yet. -/
def Unspent (s : CTxMemPool) (id : Uint256) : Prop := ∀ i, s.mapNextTx.find? ⟨id, i⟩ = none

theorem Consistent.added (hs : s.Consistent) (hadd : s.Addable n.tx)
    (hunsp : s.Unspent n.tx.getHash) (hA : s.IsAncestors n.tx A) : (s.added n A).Consistent := by
  refine ⟨hs.stored.added hadd, hs.linked.added hadd hA, fun {a b} => ?_⟩
  rw [(sinkAdded hs.linked hadd).edges, hs.links, spent_added hadd]
  refine or_congr_right (or_iff_left ?_).symm
  rintro ⟨rfl, i, hi⟩
  rw [hunsp i] at hi
  cases hi

end

/-! ### Removing -/

theorem Stored.spent_removing {f : Uint256 → CTxMemPoolEntry → CTxMemPoolEntry} (hs : s.Stored)
    (hf : CoreKept f) : (s.removing D f).Spent a b ↔ s.Spent a b ∧ a ∉ D ∧ b ∉ D := by
  have htx : ∀ e, (f b e).tx = e.tx := fun e => CTxMemPoolEntry.tx_eq_of_core (hf b e)
  rw [(hs.removing hf).spent_iff, hs.spent_iff, ids_removing, mem_sdiff]
  constructor
  · rintro ⟨⟨ha, haD⟩, e, he, hin⟩
    obtain ⟨hbD, e₀, he₀, rfl⟩ := exists_of_find?_removing he
    exact ⟨⟨ha, e₀, he₀, htx e₀ ▸ hin⟩, haD, hbD⟩
  · rintro ⟨⟨ha, e₀, he₀, hin⟩, haD, hbD⟩
    exact ⟨⟨ha, haD⟩, f b e₀, by rw [find?_removing, if_neg hbD, he₀]; rfl, (htx e₀).symm ▸ hin⟩

theorem Stored.spent_without (hs : s.Stored) (D : Finset Uint256) :
    (s.without D).Spent a b ↔ s.Spent a b ∧ a ∉ D ∧ b ∉ D :=
  hs.spent_removing (coreKept_forget s D)

theorem Consistent.without (hs : s.Consistent) (hcl : s.ClosedBelow D) :
    (s.without D).Consistent := by
  refine ⟨hs.stored.removing (coreKept_forget s D), hs.linked.without hcl, fun {a b} => ?_⟩
  rw [(closedRemoved hcl).edges, hs.stored.spent_without, hs.links]
  refine and_congr_right fun hspent => (and_iff_right_of_imp fun hb ha => ?_).symm
  exact hb (hcl a b (hs.links.mpr hspent) ha)

theorem Consistent.confirmed (hs : s.Consistent) (hv : v ∈ s.ids) (hroot : s.parentsOf v = ∅) :
    (s.confirmed v).Consistent := by
  have hrem := hs.linked.rootRemoved hroot
  have hcore := coreKept_unlink s v
  refine ⟨hs.stored.removing hcore, hs.linked.confirmed hroot hv, fun {a b} => ?_⟩
  rw [hs.stored.spent_removing hcore, ← hs.links]
  refine (hrem.edges b a).trans (and_congr_right fun hab => ?_)
  refine (and_iff_left_of_imp fun ha hb => ?_).symm
  exact ha (hrem.closed b a hab hb)

/-! ### The operations that remove -/

theorem recursionStart_eq (hs : s.Stored) (tx : CTransaction) :
    ∃ start, s.recursionStart tx = .ok start ∧ start ⊆ s.ids ∧
      (tx.getHash ∈ s.ids → start = {tx.getHash}) ∧
      (tx.getHash ∉ s.ids → ∀ x ∈ start, ∃ i, s.mapNextTx.find? ⟨tx.getHash, i⟩ = some x) := by
  rw [recursionStart]
  split
  case h_1 e he =>
    have hid := mem_ids_of_find? he
    exact ⟨_, rfl, singleton_subset_iff.mpr hid, fun _ => rfl, fun h => absurd hid h⟩
  case h_2 hnone =>
    have hid : tx.getHash ∉ s.ids := OrdMap.find?_eq_none.mp hnone
    have hmem : ∀ x ∈ (List.range tx.vout.length).filterMap fun i =>
        s.mapNextTx.find? ⟨tx.getHash, UInt32.ofNat i⟩,
        ∃ i, s.mapNextTx.find? ⟨tx.getHash, i⟩ = some x := by
      intro x hx
      obtain ⟨i, -, hi⟩ := List.mem_filterMap.mp hx
      exact ⟨UInt32.ofNat i, hi⟩
    have hsp : ∀ {x}, (∃ i, s.mapNextTx.find? ⟨tx.getHash, i⟩ = some x) → x ∈ s.ids := by
      rintro x ⟨i, hi⟩
      obtain ⟨e, he, -⟩ := hs.next.mp hi
      exact mem_ids_of_find? he
    rw [if_pos]
    · refine ⟨_, rfl, ?_, fun h => absurd h hid, ?_⟩
      · exact fun x hx => hsp (hmem x (List.mem_toFinset.mp hx))
      · exact fun _ x hx => hmem x (List.mem_toFinset.mp hx)
    · rw [List.all_eq_true]
      intro x hx
      obtain ⟨e, he⟩ := mem_ids.mp (hsp (hmem x hx))
      rw [he]
      rfl

/-- What goes is a transaction, or else its spenders, with everything below. -/
theorem removeRecursive_eq (hsto : s.Stored) (hs : s.Linked) (tx : CTransaction) :
    ∃ D ⊆ s.ids, s.ClosedBelow D ∧ s.removeRecursive .exact tx = .ok (s.without D) ∧
      (tx.getHash ∈ s.ids → tx.getHash ∈ D) ∧
      (tx.getHash ∉ s.ids → ∀ y ∈ D, ∃ x i, s.mapNextTx.find? ⟨tx.getHash, i⟩ = some x ∧
        ReflTransGen s.Link x y) := by
  obtain ⟨start, hstart, hsub, hself, hspenders⟩ := recursionStart_eq hsto tx
  have hcl : s.ClosedBelow (s.calculateAllDescendants start) := fun a b hab ha =>
    hs.toMutual.calculateAllDescendants_closed start hab ha
  refine ⟨_, hs.toMutual.calculateAllDescendants_subset start, hcl, ?_, ?_, ?_⟩
  · rw [removeRecursive, hstart]
    exact hs.removeStaged_closed (hs.toMutual.calculateAllDescendants_subset start) hcl
  · intro hid
    rw [hs.toMutual.mem_calculateAllDescendants, hself hid]
    exact ⟨tx.getHash, mem_singleton_self _, hid, .refl⟩
  · intro hid y hy
    obtain ⟨x, hx, -, hpath⟩ := (hs.toMutual.mem_calculateAllDescendants start y).mp hy
    obtain ⟨i, hi⟩ := hspenders hid x hx
    exact ⟨x, i, hi, hpath⟩

/-- The second pool has some entries of the first, and nothing else. -/
structure Shrinks (s s' : CTxMemPool) : Prop where
  ids : s'.ids ⊆ s.ids
  spent : ∀ {a b}, s'.Spent a b → s.Spent a b
  limits : s'.limits = s.limits

/-- And these have kept their ancestors. -/
structure Pruned (s s' : CTxMemPool) : Prop extends Shrinks s s' where
  ancestors : ∀ {k e'}, s'.mapTx.find? k = some e' →
    ∃ e, s.mapTx.find? k = some e ∧ e'.withAncestors = e.withAncestors

theorem Shrinks.refl (s : CTxMemPool) : Shrinks s s := ⟨subset_rfl, fun h => h, rfl⟩

theorem Shrinks.trans {t u : CTxMemPool} (h₁ : Shrinks s t) (h₂ : Shrinks t u) : Shrinks s u :=
  ⟨h₂.ids.trans h₁.ids, fun h => h₁.spent (h₂.spent h), h₂.limits.trans h₁.limits⟩

theorem Pruned.refl (s : CTxMemPool) : Pruned s s := ⟨.refl s, fun h => ⟨_, h, rfl⟩⟩

theorem Pruned.trans {t u : CTxMemPool} (h₁ : Pruned s t) (h₂ : Pruned t u) : Pruned s u := by
  refine ⟨h₁.toShrinks.trans h₂.toShrinks, fun h => ?_⟩
  obtain ⟨e, he, heq⟩ := h₂.ancestors h
  obtain ⟨e₀, he₀, heq₀⟩ := h₁.ancestors he
  exact ⟨e₀, he₀, heq.trans heq₀⟩

theorem limits_eraseHash (s : CTxMemPool) (it : Uint256) : (s.eraseHash it).limits = s.limits := by
  unfold eraseHash
  split
  · split_ifs <;> rfl
  · rfl

theorem limits_removeUnchecked (s : CTxMemPool) (it : Uint256) :
    (s.removeUnchecked it).limits = s.limits := by
  unfold removeUnchecked
  split
  · rfl
  · exact limits_eraseHash s it

theorem limits_removing (s : CTxMemPool) (D : Finset Uint256)
    (f : Uint256 → CTxMemPoolEntry → CTxMemPoolEntry) : (s.removing D f).limits = s.limits := by
  have hloop : ∀ (l : List Uint256) (t : CTxMemPool),
      (l.foldl removeUnchecked t).limits = t.limits := by
    intro l
    induction l with
    | nil => exact fun t => rfl
    | cons it l ih => exact fun t => (ih _).trans (limits_removeUnchecked t it)
  exact hloop _ _

theorem Stored.shrinks_removing {f : Uint256 → CTxMemPoolEntry → CTxMemPoolEntry} (hs : s.Stored)
    (hf : CoreKept f) : Shrinks s (s.removing D f) where
  ids := by
    rw [ids_removing]
    exact sdiff_subset
  spent h := ((hs.spent_removing hf).mp h).1
  limits := limits_removing s D f

theorem Stored.pruned_without (hs : s.Stored) (D : Finset Uint256) : Pruned s (s.without D) where
  toShrinks := hs.shrinks_removing (coreKept_forget s D)
  ancestors h := by
    obtain ⟨-, e, he, rfl⟩ := exists_of_find?_removing h
    exact ⟨e, he, rfl⟩

theorem Consistent.withDeltas (hs : s.Consistent) (m : OrdMap Uint256 Int) :
    { s with mapDeltas := m }.Consistent :=
  ⟨hs.stored.withDeltas m, hs.linked.withDeltas m, hs.links⟩

theorem pruned_withDeltas (s : CTxMemPool) (m : OrdMap Uint256 Int) :
    Pruned s { s with mapDeltas := m } :=
  ⟨⟨subset_rfl, fun h => h, rfl⟩, fun h => ⟨_, h, rfl⟩⟩

/-- An operation does not fail and leaves a consistent pool, which has become smaller. -/
def Prunes (s : CTxMemPool) (r : Except String CTxMemPool) : Prop :=
  ∃ s', r = .ok s' ∧ s'.Consistent ∧ Pruned s s'

section
variable (hs : s.Consistent)

include hs

theorem Consistent.removeStaged (hD : D ⊆ s.ids) (hcl : s.ClosedBelow D) :
    s.Prunes (s.removeStaged .exact D false) :=
  ⟨_, hs.linked.removeStaged_closed hD hcl, hs.without hcl, hs.stored.pruned_without D⟩

theorem Consistent.removeRecursive (tx : CTransaction) :
    s.Prunes (s.removeRecursive .exact tx) := by
  obtain ⟨D, -, hcl, heq, -⟩ := removeRecursive_eq hs.stored hs.linked tx
  exact ⟨_, heq, hs.without hcl, hs.stored.pruned_without D⟩

theorem Consistent.removeConflicts (tx : CTransaction) :
    s.Prunes (s.removeConflicts .exact tx) := by
  have hloop : ∀ (vin : List CTxIn) {t : CTxMemPool}, t.Consistent →
      t.Prunes (removeConflictsLoop .exact tx.getHash vin t) := by
    intro vin
    induction vin with
    | nil => exact fun {t} ht => ⟨t, rfl, ht, .refl t⟩
    | cons txin vin ih =>
      intro t ht
      rw [removeConflictsLoop]
      split
      case h_1 => exact ih ht
      case h_2 conflict _ =>
        split_ifs
        · have hclear := ht.withDeltas (t.mapDeltas.erase conflict.tx.getHash)
          obtain ⟨t', heq, ht', hpru⟩ := hclear.removeRecursive conflict.tx
          obtain ⟨u, hu, hcons, hpru'⟩ := ih ht'
          rw [clearPrioritisation, heq]
          exact ⟨u, hu, hcons, (pruned_withDeltas t _).trans (hpru.trans hpru')⟩
        · exact ih ht
  exact hloop tx.vin hs

theorem Consistent.removeWhere (test : CTxMemPoolEntry → Bool) :
    s.Prunes (s.removeWhere .exact test) :=
  hs.removeStaged (hs.linked.toMutual.calculateAllDescendants_subset _)
    fun _ _ hab ha => hs.linked.toMutual.calculateAllDescendants_closed _ hab ha

end

theorem Consistent.trimToSizeLoop (usage : CTxMemPool → Nat) {lowest : CTxMemPool → Uint256}
    (hlowest : ∀ t : CTxMemPool, t.ids.Nonempty → lowest t ∈ t.ids) (sizelimit n : Nat)
    (hs : s.Consistent) : s.Prunes (trimToSizeLoop .exact usage lowest sizelimit n s) := by
  induction n generalizing s with
  | zero => exact ⟨s, rfl, hs, .refl s⟩
  | succ n ih =>
    rw [CTxMemPool.trimToSizeLoop]
    split_ifs with hcond
    · have hne : s.ids.Nonempty := by
        rw [← card_pos, card_ids]
        exact Nat.pos_of_ne_zero hcond.1
      have hdown := hs.linked.toMutual.calculateDescendants_eq (hlowest s hne)
      obtain ⟨s', heq, hs', hpru⟩ := hs.removeStaged (D := s.calculateDescendants (lowest s) ∅)
        (by rw [hdown]; exact fun y hy => (mem_downward.mp hy).1)
        (by
          rw [hdown]
          intro a b hab ha
          exact mem_downward.mpr ⟨hab.child_mem, (mem_downward.mp ha).2.tail hab⟩)
      obtain ⟨u, hu, hcons, hpru'⟩ := ih hs'
      rw [heq]
      exact ⟨u, hu, hcons, hpru.trans hpru'⟩
    · exact ⟨s, rfl, hs, .refl s⟩

/-! ### A block -/

/-- The entries that the transactions of a block spend from come before them. -/
def ParentsFirst (s : CTxMemPool) (vtx : List CTransaction) : Prop :=
  ∀ pre tx post, vtx = pre ++ tx :: post → ∀ p, s.Spent p tx.getHash → ∃ t ∈ pre, t.getHash = p

theorem Consistent.removeForBlock {vtx : List CTransaction} (hs : s.Consistent)
    (hfst : s.ParentsFirst vtx) :
    ∃ s', removeForBlock .exact vtx s = .ok s' ∧ s'.Consistent ∧ Shrinks s s' := by
  induction vtx generalizing s with
  | nil => exact ⟨s, rfl, hs, .refl s⟩
  | cons tx vtx ih =>
    obtain ⟨t, ht, htcons, hshrinks, hgone⟩ : ∃ t, s.removeConfirmed .exact tx = .ok t ∧
        t.Consistent ∧ Shrinks s t ∧ tx.getHash ∉ t.ids := by
      rw [removeConfirmed]
      split
      case h_1 hnone => exact ⟨s, rfl, hs, .refl s, OrdMap.find?_eq_none.mp hnone⟩
      case h_2 e he =>
        have hid := mem_ids_of_find? he
        have hroot : s.parentsOf tx.getHash = ∅ := by
          refine eq_empty_of_forall_notMem fun p hp => ?_
          obtain ⟨t, ht, -⟩ := hfst [] tx vtx rfl p (hs.links.mp hp)
          exact absurd ht List.not_mem_nil
        refine ⟨_, hs.linked.removeStaged_root hid hroot, hs.confirmed hid hroot,
          hs.stored.shrinks_removing (coreKept_unlink s _), ?_⟩
        rw [ids_removing]
        exact fun hmem => (mem_sdiff.mp hmem).2 (mem_singleton_self _)
    obtain ⟨u, hu, hucons, hpru⟩ := htcons.removeConflicts tx
    have hclear := hucons.withDeltas (u.mapDeltas.erase tx.getHash)
    have hshrinks' := (hshrinks.trans hpru.toShrinks).trans
      (pruned_withDeltas u (u.mapDeltas.erase tx.getHash)).toShrinks
    -- The transaction is gone, so it is no parent of a later one any more.
    obtain ⟨s', hs', hcons, hlast⟩ := ih (s := u.clearPrioritisation tx.getHash) hclear <| by
      intro pre tx' post hspl p hp
      obtain ⟨t', ht', hhash⟩ := hfst (tx :: pre) tx' post (by rw [hspl]; rfl) p
        (hshrinks'.spent hp)
      rcases List.mem_cons.mp ht' with rfl | ht'
      · exact absurd (hpru.ids hp.1) (hhash ▸ hgone)
      · exact ⟨t', ht', hhash⟩
    rw [CTxMemPool.removeForBlock, ht]
    dsimp only
    rw [hu]
    exact ⟨s', hs', hcons, hshrinks'.trans hlast⟩

/-! ### Priorities -/

theorem Consistent.prioritiseTransaction (hs : s.Consistent) (hash : Uint256) (δ : Int) :
    ∃ s', s.prioritiseTransaction .exact hash δ = .ok s' ∧ s'.Consistent := by
  let m := s.mapDeltas.insert hash ((s.mapDeltas.find? hash).getD 0 + δ)
  by_cases hid : hash ∈ s.ids
  · have hcons : (s.updateEach (s.reprice hash δ)).Consistent := by
      refine ⟨hs.stored.updateEach (storedKept_reprice s hash δ), hs.linked.reprice hid, ?_⟩
      rw [link_reprice, spent_updateEach]
      exact hs.links
    exact ⟨_, hs.linked.prioritiseTransaction_eq hid, hcons.withDeltas m⟩
  · refine ⟨{ s with mapDeltas := m }, ?_, hs.withDeltas m⟩
    rw [CTxMemPool.prioritiseTransaction, OrdMap.find?_eq_none.mpr hid]
    rfl

end Lithium.CTxMemPool
