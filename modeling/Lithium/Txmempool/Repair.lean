import Lithium.Txmempool.Returned

/-!
# Making the links that are missing

`UpdateTransactionsFromBlock` goes through the returned transactions from the last to the
first. It links each to the old entries that spend from it, counts it for all old entries
below and these for it. The returned transactions below have had their turn by then, so
the sets of old entries below them, which are kept in a cache, can be used instead of
searching again.

In between, `U` are the transactions that have not had their turn: the links from them to
old entries are missing, old entries do not count them, and they do not count old entries.
-/

namespace Lithium.CTxMemPool
open Lib Relation List OrdMap CTxMemPoolEntry
variable {s t : CTxMemPool} {r k : Uint256} {e u : CTxMemPoolEntry} {R U C : Finset Uint256}

/-! ### Links to children -/

variable {c : Uint256}

theorem mem_spendersOf : c ∈ s.spendersOf r ↔ ∃ n, s.mapNextTx.find? ⟨r, n⟩ = some c := by
  simp only [spendersOf, mem_map, mem_filter, decide_eq_true_eq, Prod.exists]
  constructor
  · rintro ⟨o, c', ⟨hmem, rfl⟩, rfl⟩
    exact ⟨o.n, (mem_entries_iff _ _ _).mp hmem⟩
  · rintro ⟨n, hn⟩
    exact ⟨⟨r, n⟩, c, ⟨(mem_entries_iff _ _ _).mpr hn, rfl⟩, rfl⟩

/-- What becomes of an entry when the entries of `C` become children of `r`. -/
def linkTo (r : Uint256) (C : Finset Uint256) (k : Uint256) (e : CTxMemPoolEntry) :
    CTxMemPoolEntry :=
  if k = r then { e with children := e.children ∪ C }
  else if k ∈ C then { e with parents := insert r e.parents }
  else e

/-- One child. -/
theorem linkChild_eq (hc : c ≠ r) (t : CTxMemPool) :
    (t.updateChild r c true).updateParent c r true = t.updateEach (linkTo r {c}) := by
  have hch : t.updateChild r c true = t.updateEach fun k e =>
      if k = r then { e with children := insert c e.children } else e := by
    rw [updateChild, modify_eq_mapKeyed]
    rfl
  have hpar : ∀ t : CTxMemPool, t.updateParent c r true = t.updateEach fun k e =>
      if k = c then { e with parents := insert r e.parents } else e := by
    intro t
    rw [updateParent, modify_eq_mapKeyed]
    rfl
  rw [hch, hpar, updateEach_updateEach]
  refine updateEach_congr fun k e _ => ?_
  unfold linkTo
  by_cases hk : k = r
  · have hkc : k ≠ c := fun h => hc (h.symm.trans hk)
    rw [if_neg hkc, if_pos hk, if_pos hk, Finset.union_singleton]
  · simp [hk]

theorem linkTo_insert (k : Uint256) (e : CTxMemPoolEntry) :
    linkTo r C k (linkTo r {c} k e) = linkTo r (insert c C) k e := by
  unfold linkTo
  by_cases hk : k = r
  · simp [hk]
  · by_cases hkc : k = c
    · subst hkc
      by_cases hkC : k ∈ C <;> simp [hk, hkC]
    · simp [hk, hkc]

theorem linkChildren_eq (hr : r ∈ R) {l : List Uint256} (hl : ∀ c ∈ l, c ∈ t.ids) :
    linkChildren R r l t = .ok (t.updateEach (linkTo r (l.toFinset \ R))) := by
  induction l generalizing t with
  | nil =>
    refine congrArg Except.ok (updateEach_self fun k e _ => ?_).symm
    simp [linkTo]
  | cons c l ih =>
    obtain ⟨e, he⟩ := mem_ids.mp (hl c mem_cons_self)
    have hrest : ∀ x ∈ l, x ∈ t.ids := fun x hx => hl x (mem_cons_of_mem _ hx)
    simp only [linkChildren, he, toFinset_cons]
    split_ifs with hc
    · rw [ih hrest, Finset.insert_sdiff_of_mem _ hc]
    · have hne : c ≠ r := fun h => hc (h ▸ hr)
      rw [linkChild_eq hne, ih (by rw [ids_updateEach]; exact hrest), updateEach_updateEach,
        Finset.insert_sdiff_of_notMem _ hc]
      exact congrArg Except.ok (updateEach_congr fun k e _ => linkTo_insert k e)

theorem coreKept_linkTo (r : Uint256) (C : Finset Uint256) : CoreKept (linkTo r C) := by
  intro k e
  unfold linkTo
  split_ifs <;> rfl

theorem totals_linkTo (r : Uint256) (C : Finset Uint256) (k : Uint256) (e : CTxMemPoolEntry) :
    (linkTo r C k e).withAncestors = e.withAncestors ∧
      (linkTo r C k e).withDescendants = e.withDescendants := by
  unfold linkTo
  split_ifs <;> exact ⟨rfl, rfl⟩

theorem parentsOf_linkTo (hr : r ∉ C) (hC : C ⊆ t.ids) (k : Uint256) :
    (t.updateEach (linkTo r C)).parentsOf k =
      if k ∈ C then insert r (t.parentsOf k) else t.parentsOf k := by
  rw [parentsOf, parentsOf, find?_updateEach]
  cases he : t.mapTx.find? k with
  | none =>
    have hk : k ∉ C := fun h => by
      obtain ⟨e, he'⟩ := mem_ids.mp (hC h)
      rw [he] at he'
      cases he'
    rw [if_neg hk]
    rfl
  | some e =>
    simp only [Option.map_some, linkTo]
    by_cases hk : k = r
    · have hkC : k ∉ C := hk ▸ hr
      rw [if_pos hk, if_neg hkC]
      rfl
    · rw [if_neg hk]
      split_ifs <;> rfl

theorem childrenOf_linkTo (hr : r ∈ t.ids) (C : Finset Uint256) (k : Uint256) :
    (t.updateEach (linkTo r C)).childrenOf k =
      if k = r then t.childrenOf k ∪ C else t.childrenOf k := by
  rw [childrenOf, childrenOf, find?_updateEach]
  cases he : t.mapTx.find? k with
  | none =>
    have hk : k ≠ r := fun h => find?_eq_none.mp he (h ▸ hr)
    rw [if_neg hk]
    rfl
  | some e =>
    simp only [Option.map_some, linkTo]
    split_ifs <;> rfl

/-! ### The loop over descendants -/

/-- What the loop over the descendants `l` of `r` does. -/
structure Counted (r : Uint256) (u : CTxMemPoolEntry) (l : List Uint256) (d d' : DescendantPass) :
    Prop where
  pool : d'.pool = d.pool.updateEach fun k e => if k ∈ l then e.addAncestors u.amounts else e
  sums : (d'.modifyCount, d'.modifySize, d'.modifyFee) =
    (d.modifyCount, d.modifySize, d.modifyFee) + ∑ k ∈ l.toFinset, (d.pool.amounts k).head
  cached_ne : ∀ q ≠ r, d'.cached.find? q = d.cached.find? q
  cached_self : d'.cached.find? r =
    if l = [] then d.cached.find? r else some ((d.cached.find? r).getD ∅ ∪ l.toFinset)
  kept : d.descendantsToRemove ⊆ d'.descendantsToRemove
  marked : ∀ {k e}, d'.pool.mapTx.find? k = some e → k ∈ l → d'.pool.overLimits e →
    k ∈ d'.descendantsToRemove

theorem Counted.nil (r : Uint256) (u : CTxMemPoolEntry) (d : DescendantPass) :
    Counted r u [] d d where
  pool := (updateEach_self fun k e _ => if_neg not_mem_nil).symm
  sums := by simp
  cached_ne _ _ := rfl
  cached_self := rfl
  kept := subset_rfl
  marked _ h := absurd h not_mem_nil

variable {d : DescendantPass}

/-- One turn. -/
theorem updateDescendant_counted (he : d.pool.mapTx.find? k = some e)
    (hpos : (e.withAncestors + u.amounts).Positive) :
    ∃ d', updateDescendant .exact r u d k = .ok d' ∧ Counted r u [k] d d' := by
  have hok := updateAncestorState_exact hpos
  have hst : e.updateAncestorState .exact u.getTxSize u.modifiedFee 1 u.sigOpCost =
      .ok (e.addAncestors u.amounts) := hok
  simp only [updateDescendant, he, hst]
  have hpool : { d.pool with mapTx := d.pool.mapTx.insert k (e.addAncestors u.amounts) } =
      d.pool.updateEach fun j x => if j ∈ [k] then x.addAncestors u.amounts else x := by
    rw [insert_eq_mapKeyed he]
    simp only [mem_singleton]
    rfl
  refine ⟨_, rfl, hpool, ?_, ?_, ?_, ?_, ?_⟩
  · rw [toFinset_cons, toFinset_nil, Finset.sum_insert (Finset.notMem_empty k),
      Finset.sum_empty, amounts_of_find? he, add_zero]
    rfl
  · intro q hq
    exact find?_insert_of_ne _ _ (Ne.symm hq)
  · refine (find?_insert_self _ _ _).trans ?_
    rw [if_neg (cons_ne_nil k []), toFinset_cons, toFinset_nil, insert_empty_eq,
      Finset.union_singleton]
  · dsimp only
    split_ifs
    · exact Finset.subset_insert _ _
    · exact subset_rfl
  · intro k' e' he' hk' hover
    obtain rfl := mem_singleton.mp hk'
    have he'' : e' = e.addAncestors u.amounts :=
      (Option.some.inj ((find?_insert_self _ _ _).symm.trans he')).symm
    have hover' : d.pool.overLimits (e.addAncestors u.amounts) = true := by
      rw [← he'']
      exact hover
    rw [if_pos hover']
    exact Finset.mem_insert_self _ _

theorem Counted.append {l₁ l₂ : List Uint256} {d₁ d₂ : DescendantPass} (h₁ : Counted r u l₁ d d₁)
    (h₂ : Counted r u l₂ d₁ d₂) (hdisj : ∀ k ∈ l₁, k ∉ l₂) : Counted r u (l₁ ++ l₂) d d₂ := by
  have hcore : ∀ l : List Uint256, CoreKept fun k e =>
      if k ∈ l then e.addAncestors u.amounts else e := by
    intro l k e
    dsimp only
    split_ifs <;> rfl
  refine ⟨?_, ?_, ?_, ?_, h₁.kept.trans h₂.kept, ?_⟩
  · rw [h₂.pool, h₁.pool, updateEach_updateEach]
    refine updateEach_congr fun k e _ => ?_
    by_cases hk₁ : k ∈ l₁
    · simp [hk₁, hdisj k hk₁]
    · simp [hk₁]
  · have hdisj' : Disjoint l₁.toFinset l₂.toFinset := by
      rw [Finset.disjoint_left]
      intro k hk
      simpa using hdisj k (mem_toFinset.mp hk)
    rw [h₂.sums, h₁.sums, toFinset_append, Finset.sum_union hdisj', add_assoc]
    refine congrArg _ (congrArg _ (Finset.sum_congr rfl fun k _ => ?_))
    rw [h₁.pool, amounts_updateEach (hcore l₁)]
  · exact fun q hq => (h₂.cached_ne q hq).trans (h₁.cached_ne q hq)
  · rw [h₂.cached_self, h₁.cached_self]
    by_cases hl₁ : l₁ = []
    · simp [hl₁]
    · by_cases hl₂ : l₂ = [] <;> simp [hl₁, hl₂, Finset.union_assoc]
  · intro k e he hk hover
    by_cases hk₂ : k ∈ l₂
    · exact h₂.marked he hk₂ hover
    · have hk₁ := (mem_append.mp hk).resolve_right hk₂
      rw [h₂.pool, find?_updateEach] at he
      simp only [hk₂, if_false, Option.map_id'] at he
      refine h₂.kept (h₁.marked he hk₁ ?_)
      rw [h₂.pool] at hover
      exact hover

theorem updateDescendantsLoop_counted {l : List Uint256} (hnd : l.Nodup)
    (hl : ∀ k ∈ l, ∃ e, d.pool.mapTx.find? k = some e ∧ (e.withAncestors + u.amounts).Positive) :
    ∃ d', updateDescendantsLoop .exact r u l d = .ok d' ∧ Counted r u l d d' := by
  induction l generalizing d with
  | nil => exact ⟨d, rfl, .nil r u d⟩
  | cons k l ih =>
    obtain ⟨hk, hnd⟩ := nodup_cons.mp hnd
    obtain ⟨e, he, hpos⟩ := hl k mem_cons_self
    obtain ⟨d₁, hd₁, hcnt₁⟩ := updateDescendant_counted (r := r) he hpos
    obtain ⟨d₂, hd₂, hcnt₂⟩ := ih hnd (d := d₁) <| by
      intro x hx
      obtain ⟨e', he', hpos'⟩ := hl x (mem_cons_of_mem _ hx)
      have hne : x ∉ [k] := fun h => hk (mem_singleton.mp h ▸ hx)
      refine ⟨e', ?_, hpos'⟩
      rw [hcnt₁.pool, find?_updateEach, he', Option.map_some, if_neg hne]
    refine ⟨d₂, ?_, hcnt₁.append hcnt₂ fun x hx => ?_⟩
    · rw [updateDescendantsLoop, hd₁]
      exact hd₂
    · rw [mem_singleton.mp hx]
      exact hk

/-! ### Between two transactions -/

/-- The pool `t` into which the pool `s` has been changed, whose returned transactions are
`R`: the links from `W` to old entries are missing, and the totals lack those from `U`. -/
structure Halfway (s : CTxMemPool) (R U W : Finset Uint256) (t : CTxMemPool) : Prop where
  change : ∃ f, CoreKept f ∧ t = s.updateEach f
  missing : EdgesMissing s.Spent t.Link W R
  mem_children : ∀ {a b}, b ∈ t.childrenOf a ↔ t.Link a b
  withAncestors : ∀ {k e}, t.mapTx.find? k = some e →
    e.withAncestors = ∑ a ∈ knownUpward s.ids s.Spent U R k, s.amounts a
  withDescendants : ∀ {k e}, t.mapTx.find? k = some e →
    e.withDescendants = ∑ d ∈ knownDownward s.ids s.Spent U R k, (s.amounts d).head

/-- The pass when the transactions of `U` have not had their turn. -/
structure Repairing (s : CTxMemPool) (R U : Finset Uint256) (p : BlockPass) : Prop
    extends Halfway s R U U p.pool where
  known : ∀ {q ds}, p.cached.find? q = some ds → (q ∈ R ∧ q ∉ U) ∧
    ∀ x, x ∈ ds ↔ x ∉ R ∧ ReflTransGen s.Spent q x
  marked : ∀ {k e}, p.pool.mapTx.find? k = some e → k ∉ R →
    (∃ q ∈ R, q ∉ U ∧ ReflTransGen s.Spent q k) → p.pool.overLimits e → k ∈ p.descendantsToRemove

namespace Halfway
variable {W : Finset Uint256} (h : Halfway s R U W t)

include h

theorem change_updateEach {g : Uint256 → CTxMemPoolEntry → CTxMemPoolEntry} (hg : CoreKept g) :
    ∃ f, CoreKept f ∧ t.updateEach g = s.updateEach f := by
  obtain ⟨f, hf, rfl⟩ := h.change
  exact ⟨_, fun k e => (hg k _).trans (hf k e), updateEach_updateEach s f g⟩

theorem ids_eq : t.ids = s.ids := by
  obtain ⟨f, -, rfl⟩ := h.change
  exact ids_updateEach s f

theorem spent_eq : t.Spent = s.Spent := by
  obtain ⟨f, -, rfl⟩ := h.change
  exact spent_updateEach s f

theorem amounts_eq (k : Uint256) : t.amounts k = s.amounts k := by
  obtain ⟨f, hcore, rfl⟩ := h.change
  exact amounts_updateEach hcore k

theorem stored (hs : s.Stored) : t.Stored := by
  obtain ⟨f, hcore, rfl⟩ := h.change
  exact hs.updateEach hcore.storedKept

end Halfway

/-- At the start nothing has had its turn. -/
theorem Returning.repairing {s₀ : CTxMemPool} {done : List CTransaction} {l : List Uint256}
    (h : Returning s₀ done l s) : Repairing s l.toFinset l.toFinset ⟨s, .empty, ∅⟩ := by
  have hmiss : EdgesMissing s.Spent s.Link l.toFinset l.toFinset := by
    refine ⟨fun a b => ?_, fun a b hab hb => ?_, subset_rfl⟩
    · simp [h.links]
    · exact mem_toFinset.mpr (h.into hab (mem_toFinset.mp hb))
  refine ⟨⟨⟨fun _ e => e, fun _ _ => rfl, (updateEach_self fun _ _ _ => rfl).symm⟩, hmiss,
    h.linked.mem_children, ?_, ?_⟩, ?_, ?_⟩
  · intro k e he
    rw [← hmiss.upward_eq]
    exact h.linked.withAncestors he
  · intro k e he
    rw [← hmiss.downward_eq]
    exact h.linked.withDescendants he
  · intro q ds hq
    cases hq
  · rintro k e - - ⟨q, hq, hU, -⟩
    exact absurd hq hU

/-- At the end the pool is consistent. -/
theorem Repairing.consistent {p : BlockPass} (h : Repairing s R ∅ p) (hs : s.Stored)
    (hacyc : ∀ x, ¬ TransGen s.Spent x x) : p.pool.Consistent := by
  have hlinks : ∀ {a b}, p.pool.Link a b ↔ s.Spent a b := by
    simp [h.missing.edges]
  have hlink : p.pool.Link = s.Spent := by
    funext a b
    exact propext hlinks
  refine ⟨h.stored hs, ⟨?_, h.mem_children, ?_, ?_, ?_⟩, ?_⟩
  · intro a b hab
    rw [h.ids_eq]
    exact (hlinks.mp hab).1
  · rw [hlink]
    exact hacyc
  · intro k e he
    rw [h.withAncestors he, knownUpward_empty, hlink, h.ids_eq]
    exact Finset.sum_congr rfl fun a _ => (h.amounts_eq a).symm
  · intro k e he
    rw [h.withDescendants he, knownDownward_empty, hlink, h.ids_eq]
    exact Finset.sum_congr rfl fun d _ => by rw [h.amounts_eq d]
  · intro a b
    rw [hlinks, h.spent_eq]

/-! ### The turn of a transaction -/

section
variable {p : BlockPass} (hs : s.Stored) (hrid : r ∈ s.ids) (hr : r ∈ U)

include hs hrid hr

/-- First `r` is linked to its children, and the totals stay as they are. -/
theorem Repairing.link (h : Repairing s R U p) :
    ∃ t, linkChildren R r (p.pool.spendersOf r) p.pool = .ok t ∧ Halfway s R U (U.erase r) t ∧
      t.limits = p.pool.limits ∧ ∀ {k e'}, t.mapTx.find? k = some e' →
        ∃ e, p.pool.mapTx.find? k = some e ∧ e'.withAncestors = e.withAncestors := by
  have hrR := h.missing.subset hr
  have hids := h.ids_eq
  let C := (p.pool.spendersOf r).toFinset \ R
  have hC : ∀ {c}, c ∈ C ↔ s.Spent r c ∧ c ∉ R := by
    intro c
    rw [Finset.mem_sdiff, mem_toFinset, mem_spendersOf, ← h.spent_eq, Spent, hids]
    exact and_congr_left' (and_iff_right hrid).symm
  have hspenders : ∀ c ∈ p.pool.spendersOf r, c ∈ p.pool.ids := by
    intro c hc
    obtain ⟨n, hn⟩ := mem_spendersOf.mp hc
    obtain ⟨e, he, -⟩ := (h.stored hs).next.mp hn
    exact mem_ids_of_find? he
  have hrC : r ∉ C := fun hmem => (hC.mp hmem).2 hrR
  have hCids : C ⊆ p.pool.ids := fun c hc => hids ▸ hs.spender_mem (hC.mp hc).1
  have hlink : ∀ {a b}, (p.pool.updateEach (linkTo r C)).Link a b ↔
      p.pool.Link a b ∨ a = r ∧ b ∈ C := by
    intro a b
    rw [Link, parentsOf_linkTo hrC hCids]
    split_ifs with hb
    · rw [Finset.mem_insert, or_comm]
      simp [hb, Link]
    · simp [hb, Link]
  have hback : ∀ {k e'}, (p.pool.updateEach (linkTo r C)).mapTx.find? k = some e' →
      ∃ e, p.pool.mapTx.find? k = some e ∧ e'.withAncestors = e.withAncestors ∧
        e'.withDescendants = e.withDescendants := by
    intro k e' he'
    obtain ⟨e, he, rfl⟩ := exists_of_find?_updateEach he'
    exact ⟨e, he, totals_linkTo r C k e⟩
  refine ⟨_, linkChildren_eq hrR hspenders, ⟨h.change_updateEach (coreKept_linkTo r C),
    ⟨fun a b => ?_, h.missing.into, ?_⟩, ?_, ?_, ?_⟩, rfl, ?_⟩
  · rw [hlink, h.missing.edges, hC]
    constructor
    · rintro (⟨hab, hno⟩ | ⟨rfl, hab, -⟩)
      · exact ⟨hab, fun hm => hno ⟨Finset.mem_of_mem_erase hm.1, hm.2⟩⟩
      · exact ⟨hab, fun hm => Finset.notMem_erase _ _ hm.1⟩
    · rintro ⟨hab, hno⟩
      by_cases har : a = r
      · subst har
        by_cases hb : b ∈ R
        · exact .inl ⟨hab, fun hm => hm.2 hb⟩
        · exact .inr ⟨rfl, hab, hb⟩
      · exact .inl ⟨hab, fun hm => hno ⟨Finset.mem_erase.mpr ⟨har, hm.1⟩, hm.2⟩⟩
  · exact (Finset.erase_subset _ _).trans h.missing.subset
  · intro a b
    rw [hlink, childrenOf_linkTo (hids.symm ▸ hrid), ← h.mem_children]
    split_ifs with ha
    · rw [Finset.mem_union, and_iff_right ha]
    · simp [ha]
  · intro k e' he'
    obtain ⟨e, he, hanc, -⟩ := hback he'
    rw [hanc, h.withAncestors he]
  · intro k e' he'
    obtain ⟨e, he, -, hdesc⟩ := hback he'
    rw [hdesc, h.withDescendants he]
  · intro k e' he'
    obtain ⟨e, he, hanc, -⟩ := hback he'
    exact ⟨e, he, hanc⟩

end

/-- What the limits are compared with. -/
theorem overLimits_congr {e e' : CTxMemPoolEntry} (hlimits : t.limits = s.limits)
    (h : e'.withAncestors = e.withAncestors) : t.overLimits e' = s.overLimits e := by
  have hcnt : e'.nCountWithAncestors = e.nCountWithAncestors := congrArg (fun a => a.1) h
  have hsize : e'.nSizeWithAncestors = e.nSizeWithAncestors := congrArg (fun a => a.2.1) h
  rw [overLimits, overLimits, hlimits, hcnt, hsize]

section
variable (hs : s.Stored) (hrR : r ∈ R)
  (hup : ∀ a b, s.Spent a b → b ∈ U.erase r → a ∈ U.erase r)

include hup in
/-- What has had its turn leads to nothing that has not. -/
theorem avoids {x : Uint256} (hx : x ∉ U.erase r) (y : Uint256) (hpath : ReflTransGen s.Spent x y) :
    y ∉ U.erase r := by
  induction hpath with
  | refl => exact hx
  | tail _ hstep ih => exact fun hy => ih (hup _ _ hstep hy)

include hs in
theorem Halfway.spender_mem (h : Halfway s R U (U.erase r) t) {a b : Uint256}
    (hab : t.Link a b) : b ∈ t.ids := by
  rw [h.ids_eq]
  exact hs.spender_mem ((h.missing.edges a b).mp hab).1

include hs hrR hup in
/-- The search finds the old entries below. -/
theorem Halfway.mem_descendants (h : Halfway s R U (U.erase r) t) {cached : CacheMap}
    (hkn : ∀ {q ds}, cached.find? q = some ds → (q ∈ R ∧ q ∉ U) ∧
      ∀ x, x ∈ ds ↔ x ∉ R ∧ ReflTransGen s.Spent q x)
    (hu : t.mapTx.find? r = some u) {x : Uint256} (hx : x ∉ R) :
    x ∈ exploreMemo (fun id => t.mapTx.keysIn (t.childrenOf id)) cached.find? t.mapTx.size
      (u.children, ∅) ↔ ReflTransGen s.Spent r x := by
  have hnext : ∀ {a b}, b ∈ t.mapTx.keysIn (t.childrenOf a) ↔ t.Link a b := by
    intro a b
    rw [mem_keysIn, h.mem_children]
    exact and_iff_right_of_imp fun hab => h.spender_mem hs hab
  have hrel : (fun a b => b ∈ t.mapTx.keysIn (t.childrenOf a)) = t.Link := by
    funext a b
    exact propext hnext
  have hmemo : MemoOf (fun x => x ∉ R) (fun id => t.mapTx.keysIn (t.childrenOf id))
      cached.find? := by
    refine ⟨?_, ?_, ?_⟩
    · intro p hp c hc hcR
      exact hp (h.missing.into p c ((h.missing.edges p c).mp (hnext.mp hc)).1 hcR)
    · intro p hp
      cases hcached : cached.find? p with
      | none => rfl
      | some ds => exact absurd (hkn hcached).1.1 hp
    · intro q ds hq p
      obtain ⟨⟨-, hqU⟩, hmem⟩ := hkn hq
      have hqU' : q ∉ U.erase r := fun hmem => hqU (Finset.mem_of_mem_erase hmem)
      rw [hmem, hrel, h.missing.reaches_of_avoids (avoids hup hqU')]
  rw [mem_exploreMemo hmemo (V := t.ids) (fun y _ c hc => h.spender_mem hs (hnext.mp hc))
    (fun c hc => h.spender_mem hs (h.mem_children.mp (childrenOf_of_find? hu ▸ hc)))
    (card_ids t).le hx]
  have hrel' : (fun a b => b ∈ (t.mapTx.keysIn (t.childrenOf a)).toFinset) = t.Link := by
    simp only [mem_toFinset]
    exact hrel
  have hself := h.missing.reaches_of_avoids (b := x) (avoids hup (Finset.notMem_erase r U))
  rw [Reached, hrel', ← hself]
  constructor
  · rintro ⟨c, hc, hpath⟩
    exact .head (h.mem_children.mp (childrenOf_of_find? hu ▸ hc)) hpath
  · intro hpath
    rcases hpath.cases_head with rfl | ⟨c, hstep, hpath⟩
    · exact absurd hrR hx
    · exact ⟨c, childrenOf_of_find? hu ▸ h.mem_children.mpr hstep, hpath⟩

end

/-- What becomes of an entry when `r` is counted for the entries of `l` and they for it. -/
def count (r : Uint256) (l : List Uint256) (own : Amounts) (sums : Amounts3) (k : Uint256)
    (e : CTxMemPoolEntry) : CTxMemPoolEntry :=
  if k = r then (if k ∈ l then e.addAncestors own else e).addDescendants sums
  else if k ∈ l then e.addAncestors own else e

section
variable (r : Uint256) (l : List Uint256) (own : Amounts) (sums : Amounts3) (k : Uint256)
  (e : CTxMemPoolEntry)

theorem coreKept_count : CoreKept (count r l own sums) := by
  intro k e
  unfold count
  split_ifs <;> rfl

theorem parents_count : (count r l own sums k e).parents = e.parents := by
  unfold count
  split_ifs <;> rfl

theorem children_count : (count r l own sums k e).children = e.children := by
  unfold count
  split_ifs <;> rfl

theorem withAncestors_count : (count r l own sums k e).withAncestors =
    if k ∈ l then e.withAncestors + own else e.withAncestors := by
  unfold count
  by_cases hk : k ∈ l <;> simp only [hk, if_true, if_false] <;> split_ifs <;> rfl

theorem withDescendants_count : (count r l own sums k e).withDescendants =
    if k = r then e.withDescendants + sums else e.withDescendants := by
  unfold count
  by_cases hk : k = r <;> simp only [hk, if_true, if_false] <;> split_ifs <;> rfl

end

/-- The second part of a turn, for the entries `l` below. -/
theorem updateForDescendants_counted {p : BlockPass} (hu : p.pool.mapTx.find? r = some u)
    {l : List Uint256} (hl : l = p.pool.mapTx.keysIn
      (exploreMemo (fun id => p.pool.mapTx.keysIn (p.pool.childrenOf id)) p.cached.find?
        p.pool.mapTx.size (u.children, ∅) \ R)) (hrl : r ∉ l)
    (hanc : ∀ k ∈ l, ∃ e, p.pool.mapTx.find? k = some e ∧ (e.withAncestors + u.amounts).Positive)
    (hdesc : 0 < (u.withDescendants + ∑ k ∈ l.toFinset, (p.pool.amounts k).head).1 ∧
      0 < (u.withDescendants + ∑ k ∈ l.toFinset, (p.pool.amounts k).head).2.1) :
    ∃ d, Counted r u l ⟨p.pool, 0, 0, 0, p.cached, p.descendantsToRemove⟩ d ∧
      updateForDescendants .exact R r p = .ok
        ⟨p.pool.updateEach (count r l u.amounts (∑ k ∈ l.toFinset, (p.pool.amounts k).head)),
          d.cached, d.descendantsToRemove⟩ := by
  have hnd : l.Nodup := hl ▸ nodup_keysIn _ _
  obtain ⟨d, hd, hcnt⟩ := updateDescendantsLoop_counted (r := r) hnd hanc
    (d := ⟨p.pool, 0, 0, 0, p.cached, p.descendantsToRemove⟩)
  refine ⟨d, hcnt, ?_⟩
  have hsums := hcnt.sums
  rw [show ((0, 0, 0) : Int × Int × Int) = 0 from rfl, zero_add] at hsums
  have hfind : d.pool.mapTx.find? r = some u := by
    rw [hcnt.pool, find?_updateEach, hu, Option.map_some, if_neg hrl]
  have hst : u.updateDescendantState .exact d.modifySize d.modifyFee d.modifyCount =
      .ok (u.addDescendants (∑ k ∈ l.toFinset, (p.pool.amounts k).head)) := by
    rw [← hsums] at hdesc ⊢
    exact updateDescendantState_exact hdesc.1 hdesc.2
  simp only [updateForDescendants, hu, ← hl, hd]
  rw [modify_eq (g := addDescendants _) hfind hst]
  rw [hcnt.pool, updateEach_updateEach]
  rfl

/-- A whole turn. -/
theorem Repairing.turn {p : BlockPass} (h : Repairing s R U p) (hs : s.Stored) (hrid : r ∈ s.ids)
    (hr : r ∈ U) (hup : ∀ a b, s.Spent a b → b ∈ U.erase r → a ∈ U.erase r) :
    ∃ t p', linkChildren R r (p.pool.spendersOf r) p.pool = .ok t ∧
      updateForDescendants .exact R r { p with pool := t } = .ok p' ∧
      Repairing s R (U.erase r) p' := by
  have hrR := h.missing.subset hr
  obtain ⟨t, hlink, ht, hlimits, hback⟩ := h.link hs hrid hr
  have hids := ht.ids_eq
  obtain ⟨u, hu⟩ := mem_ids.mp (hids ▸ hrid : r ∈ t.ids)
  have hown : u.amounts = s.amounts r := by rw [← amounts_of_find? hu, ht.amounts_eq]
  generalize hl : t.mapTx.keysIn (exploreMemo (fun id => t.mapTx.keysIn (t.childrenOf id))
    p.cached.find? t.mapTx.size (u.children, ∅) \ R) = l
  -- The entries below.
  have hmem : ∀ k, k ∈ l ↔ k ∈ s.ids ∧ k ∉ R ∧ ReflTransGen s.Spent r k := by
    intro k
    rw [← hl, mem_keysIn, Finset.mem_sdiff, ← hids]
    refine and_congr_right fun _ => ⟨fun hk => ?_, fun hk => ?_⟩
    · exact ⟨hk.2, (ht.mem_descendants hs hrR hup h.known hu hk.2).mp hk.1⟩
    · exact ⟨(ht.mem_descendants hs hrR hup h.known hu hk.1).mpr hk.2, hk.1⟩
  have hrl : r ∉ l := fun hmem' => ((hmem r).mp hmem').2.1 hrR
  have hsumAnc : ∀ {k e}, t.mapTx.find? k = some e → k ∈ l → e.withAncestors + u.amounts =
      ∑ a ∈ knownUpward s.ids s.Spent (U.erase r) R k, s.amounts a := by
    intro k e he hk
    obtain ⟨-, hkR, hpath⟩ := (hmem k).mp hk
    have hnot : r ∉ knownUpward s.ids s.Spent U R k := fun hm =>
      (mem_knownUpward.mp hm).2 ⟨hr, hkR⟩
    rw [knownUpward_erase_of_reaches hr hrid hpath, Finset.sum_insert hnot, ht.withAncestors he,
      hown, add_comm]
  have hsumDesc : u.withDescendants + ∑ k ∈ l.toFinset, (t.amounts k).head =
      ∑ d ∈ knownDownward s.ids s.Spent (U.erase r) R r, (s.amounts d).head := by
    have hdisj : Disjoint (knownDownward s.ids s.Spent U R r) l.toFinset := by
      rw [Finset.disjoint_left]
      intro d hd hdl
      have hdR := ((hmem d).mp (mem_toFinset.mp hdl)).2.1
      exact (mem_knownDownward.mp hd).2 ⟨hr, hdR⟩
    rw [knownDownward_erase_self hr fun d => by rw [mem_toFinset, hmem],
      Finset.sum_union hdisj, ht.withDescendants hu]
    simp [ht.amounts_eq]
  obtain ⟨d, hcnt, hok⟩ := updateForDescendants_counted (p := { p with pool := t }) hu
    hl.symm hrl
    (fun k hk => by
      obtain ⟨hkid, hkR, -⟩ := (hmem k).mp hk
      obtain ⟨e, he⟩ := mem_ids.mp (hids ▸ hkid : k ∈ t.ids)
      refine ⟨e, he, ?_⟩
      rw [hsumAnc he hk]
      refine sum_positive (mem_knownUpward.mpr ⟨⟨hkid, .refl⟩, fun hm => ?_⟩) hkid
      exact hkR (ht.missing.subset hm.1))
    (by
      rw [hsumDesc]
      refine sum_head_positive (mem_knownDownward.mpr ⟨⟨hrid, .refl⟩, fun hm => ?_⟩) hrid
      exact Finset.notMem_erase r U hm.1)
  refine ⟨t, _, hlink, hok, ?_⟩
  refine ⟨⟨ht.change_updateEach (coreKept_count r l _ _), ?_, ?_, ?_, ?_⟩, ?_, ?_⟩
  · dsimp only
    rw [link_updateEach fun k e => parents_count r l _ _ k e]
    exact ht.missing
  · dsimp only
    rw [link_updateEach fun k e => parents_count r l _ _ k e,
      childrenOf_updateEach fun k e => children_count r l _ _ k e]
    exact ht.mem_children
  · intro k e' he'
    obtain ⟨e, he, rfl⟩ := exists_of_find?_updateEach he'
    rw [withAncestors_count]
    split_ifs with hk
    · exact hsumAnc he hk
    · have hkid : k ∈ s.ids := hids ▸ mem_ids_of_find? he
      have hno : k ∈ R ∨ ¬ ReflTransGen s.Spent r k := by
        by_contra hcon
        rw [not_or, not_not] at hcon
        exact hk ((hmem k).mpr ⟨hkid, hcon⟩)
      rw [knownUpward_erase_of_not hno, ht.withAncestors he]
  · intro k e' he'
    obtain ⟨e, he, rfl⟩ := exists_of_find?_updateEach he'
    rw [withDescendants_count]
    split_ifs with hk
    · subst hk
      rw [hu] at he
      cases he
      exact hsumDesc
    · rw [knownDownward_erase_of_ne hk, ht.withDescendants he]
  · intro q ds hq
    by_cases hqr : q = r
    · subst hqr
      have hnone : p.cached.find? q = none := by
        cases hcached : p.cached.find? q with
        | none => rfl
        | some ds' => exact absurd hr (h.known hcached).1.2
      have hself := hcnt.cached_self
      rw [hnone] at hself
      split_ifs at hself with hemp
      · rw [hself] at hq
        cases hq
      · rw [hself] at hq
        cases hq
        refine ⟨⟨hrR, Finset.notMem_erase q U⟩, fun x => ?_⟩
        rw [Option.getD_none, Finset.empty_union, mem_toFinset, hmem]
        refine and_iff_right_of_imp fun hx => ?_
        rcases hx.2.cases_tail with rfl | ⟨c, -, hstep⟩
        · exact absurd hrR hx.1
        · exact hs.spender_mem hstep
    · rw [hcnt.cached_ne q hqr] at hq
      obtain ⟨⟨hqR, hqU⟩, hds⟩ := h.known hq
      exact ⟨⟨hqR, fun hm => hqU (Finset.mem_of_mem_erase hm)⟩, hds⟩
  · rintro k e' he' hkR ⟨q, hqR, hqU, hpath⟩ hover
    obtain ⟨e, he, rfl⟩ := exists_of_find?_updateEach he'
    by_cases hk : k ∈ l
    · refine hcnt.marked (e := e.addAncestors u.amounts) ?_ hk ?_
      · rw [hcnt.pool, find?_updateEach, he, Option.map_some, if_pos hk]
      · rw [← overLimits_congr (t := t.updateEach _) (by rw [hcnt.pool]) _]
        · exact hover
        · rw [withAncestors_count, if_pos hk]
          rfl
    · -- Nothing new is above the entry, and its totals are as before.
      obtain ⟨e₀, he₀, hanc⟩ := hback he
      have hkid : k ∈ s.ids := hids ▸ mem_ids_of_find? he
      have hqr : q ≠ r := by
        rintro rfl
        exact hk ((hmem k).mpr ⟨hkid, hkR, hpath⟩)
      refine hcnt.kept (h.marked he₀ hkR ⟨q, hqR, ?_, hpath⟩ ?_)
      · exact fun hm => hqU (Finset.mem_erase.mpr ⟨hqr, hm⟩)
      · rw [← overLimits_congr (t := t.updateEach _) hlimits _]
        · exact hover
        · rw [withAncestors_count, if_neg hk, hanc]

/-! ### All turns -/

/-- The loop from the last transaction to the first; none of those left spends from one
that has had its turn. -/
theorem Repairing.updateFromBlockLoop (hs : s.Stored) {l : List Uint256} {p : BlockPass}
    (hl : ∀ x ∈ l, x ∈ s.ids) (hnd : l.Nodup)
    (horder : ∀ a b, s.Spent a b → b ∈ l → a ∈ l) (hlast : l.Pairwise fun a b => ¬ s.Spent a b)
    (h : Repairing s R l.toFinset p) :
    ∃ p', updateFromBlockLoop .exact R l p = .ok p' ∧ Repairing s R ∅ p' := by
  induction l generalizing p with
  | nil => exact ⟨p, rfl, h⟩
  | cons r l ih =>
    obtain ⟨hrl, hnd⟩ := nodup_cons.mp hnd
    obtain ⟨hfst, hlast⟩ := pairwise_cons.mp hlast
    have hrid := hl r mem_cons_self
    have hset : (r :: l).toFinset.erase r = l.toFinset := by
      rw [toFinset_cons, Finset.erase_insert (by simpa using hrl)]
    have hrest : ∀ a b, s.Spent a b → b ∈ l → a ∈ l := by
      intro a b hab hb
      rcases mem_cons.mp (horder a b hab (mem_cons_of_mem _ hb)) with rfl | ha
      · exact absurd hab (hfst b hb)
      · exact ha
    obtain ⟨t, p₁, hlink, hup, h₁⟩ := h.turn hs hrid (by simp) (by
      rw [hset]
      intro a b hab hb
      exact mem_toFinset.mpr (hrest a b hab (mem_toFinset.mp hb)))
    rw [hset] at h₁
    obtain ⟨p', hp', h'⟩ := ih (fun x hx => hl x (mem_cons_of_mem _ hx)) hnd hrest hlast h₁
    obtain ⟨e, he⟩ := mem_ids.mp (h.ids_eq ▸ hrid : r ∈ p.pool.ids)
    refine ⟨p', ?_, h'⟩
    simp only [CTxMemPool.updateFromBlockLoop, he, hlink, hup]
    exact hp'

theorem Consistent.removeMarked (l : List Uint256) (hs : s.Consistent) :
    ∃ s', removeMarked .exact l s = .ok s' ∧ s'.Consistent ∧ Pruned s s' ∧ ∀ k ∈ l, k ∉ s'.ids := by
  induction l generalizing s with
  | nil => exact ⟨s, rfl, hs, .refl s, fun k hk => absurd hk not_mem_nil⟩
  | cons txid l ih =>
    rw [CTxMemPool.removeMarked]
    split
    case h_1 hnone =>
      obtain ⟨s', heq, hcons, hpru, hgone⟩ := ih hs
      refine ⟨s', heq, hcons, hpru, fun k hk => ?_⟩
      rcases mem_cons.mp hk with rfl | hk
      · exact fun hmem => find?_eq_none.mp hnone (hpru.ids hmem)
      · exact hgone k hk
    case h_2 e he =>
      obtain ⟨D, -, hcl, heq, hself, -⟩ := removeRecursive_eq hs.stored hs.linked e.tx
      obtain ⟨s', heq', hcons, hpru, hgone⟩ := ih (hs.without hcl)
      rw [heq]
      refine ⟨s', heq', hcons, (hs.stored.pruned_without D).trans hpru, fun k hk => ?_⟩
      rcases mem_cons.mp hk with rfl | hk
      · intro hmem
        rw [hs.stored.hash he] at hself
        have := hpru.ids hmem
        rw [ids_removing, Finset.mem_sdiff] at this
        exact this.2 (hself (mem_ids_of_find? he))
      · exact hgone k hk

/-- After a reorganisation the pool is consistent, and entries that were within the limits
before are so now, if they are still there. -/
theorem Consistent.updateForReorg (hs : s.Consistent) {returned : List Returned}
    (hbs : s.FromBlocks (returned.map Returned.tx)) :
    ∃ s', s.updateForReorg .exact returned = .ok s' ∧ s'.Consistent ∧
      ∀ {k e e'}, s.mapTx.find? k = some e → s'.mapTx.find? k = some e' →
        s.overLimits e = false → s'.overLimits e' = false := by
  obtain ⟨t, l, hret, ht⟩ := hs.returning.returnTransactions hs.stored returned hbs
  have hlids : ∀ x ∈ l.reverse, x ∈ t.ids := by
    intro x hx
    obtain ⟨e, he, -⟩ := ht.returned x (mem_reverse.mp hx)
    exact mem_ids_of_find? he
  have hstart := ht.repairing
  rw [← toFinset_reverse (l := l)] at hstart
  obtain ⟨p, hp, hrep⟩ := hstart.updateFromBlockLoop ht.stored hlids
    (nodup_reverse.mpr ht.nodup)
    (fun a b hab hb => mem_reverse.mpr (ht.into hab (mem_reverse.mp hb)))
    (pairwise_reverse.mpr ht.order)
  have hacyc := hstart.missing.acyclic ht.linked.acyclic
  have hcons := hrep.consistent ht.stored hacyc
  obtain ⟨s', heq, hcons', hpru, hgone⟩ := hcons.removeMarked
    (p.pool.mapTx.keysIn p.descendantsToRemove)
  refine ⟨s', ?_, hcons', ?_⟩
  · simp only [CTxMemPool.updateForReorg, hret, updateTransactionsFromBlock]
    rw [← toFinset_reverse (l := l), hp]
    exact heq
  · intro k e e' he he' hwithin
    have hkl : k ∉ l := by
      intro hk
      obtain ⟨e₁, he₁, hdone⟩ := ht.returned k hk
      exact hbs.fresh _ hdone (ht.stored.hash he₁ ▸ mem_ids_of_find? he)
    have hkR : k ∉ l.reverse.toFinset := by simpa using hkl
    obtain ⟨e₁, he₁, hanc⟩ := hpru.ancestors he'
    have hlimits : p.pool.limits = t.limits := by
      obtain ⟨f, -, hf⟩ := hrep.change
      exact congrArg (·.limits) hf
    have hkt : k ∈ t.ids := hrep.ids_eq ▸ mem_ids_of_find? he₁
    obtain ⟨e₂, he₂⟩ := mem_ids.mp hkt
    obtain ⟨e₀, he₀, hold, -⟩ := ht.old he₂ hkl
    rw [he] at he₀
    cases he₀
    by_cases hreturned : ∃ q ∈ l.reverse.toFinset, q ∉ (∅ : Finset Uint256) ∧
        ReflTransGen t.Spent q k
    · -- An entry over the limits would have been marked.
      by_contra hover
      rw [Bool.not_eq_false, overLimits_congr hpru.limits hanc] at hover
      have hmark := hrep.marked he₁ hkR hreturned hover
      refine hgone k (mem_keysIn.mpr ⟨mem_ids_of_find? he₁, hmark⟩) ?_
      exact mem_ids_of_find? he'
    · -- Nothing that came back is above the entry.
      have hsame : e₁.withAncestors = e₂.withAncestors := by
        rw [hrep.withAncestors he₁, hstart.withAncestors he₂]
        refine Finset.sum_congr (Finset.ext fun a => ?_) fun _ _ => rfl
        simp only [mem_knownUpward]
        refine and_congr_right fun ha => iff_of_true (by simp) fun hm => hreturned ?_
        exact ⟨a, hm.1, Finset.notMem_empty a, ha.2⟩
      rw [overLimits_congr (hpru.limits.trans (hlimits.trans ht.limits))
        (hanc.trans (hsame.trans hold))]
      exact hwithin

end Lithium.CTxMemPool
