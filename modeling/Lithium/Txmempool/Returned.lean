import Lithium.Txmempool.Consistent

/-!
# Transactions that return from a block

When blocks are undone, their transactions come back to the pool in the order in which
the blocks had them. One that is not accepted takes along what depends on it. The
others are added as any new transaction is, so they do not learn of the entries that
spend from them: between entries that were there before and entries that came back the
links are missing, from the latter to the former, and nothing else is wrong.
-/

namespace Lithium
open Relation List

/-- What becomes of a transaction of an undone block. -/
inductive Returned where
  | accepted (entry : NewEntry)
  | rejected (tx : CTransaction)

def Returned.tx : Returned → CTransaction
  | .accepted entry => entry.tx
  | .rejected tx => tx

namespace CTxMemPool

/-- The loop of `MaybeUpdateMempoolForReorg` over the transactions, with `vHashUpdate`.
A transaction that goes over the limits is not accepted either. -/
def returnTransactions (A : Arithmetic) :
    List Returned → CTxMemPool → List Uint256 → Except String (CTxMemPool × List Uint256)
  | [], s, vHashUpdate => .ok (s, vHashUpdate)
  | .rejected tx :: rest, s, vHashUpdate =>
    match s.removeRecursive A tx with
    | .error expr => .error expr
    | .ok s => returnTransactions A rest s vHashUpdate
  | .accepted a :: rest, s, vHashUpdate =>
    match s.calculateMemPoolAncestors a.tx a.size (some s.limits) with
    | .error _ =>
      match s.removeRecursive A a.tx with
      | .error expr => .error expr
      | .ok s => returnTransactions A rest s vHashUpdate
    | .ok ancestors =>
      match s.addUnchecked A a.entry ancestors with
      | .error expr => .error expr
      | .ok s => returnTransactions A rest s (vHashUpdate ++ [a.tx.getHash])

/-- The transactions go back to the pool, and the links that are missing then are made. -/
def updateForReorg (A : Arithmetic) (s : CTxMemPool) (returned : List Returned) :
    Except String CTxMemPool :=
  match returnTransactions A returned s [] with
  | .error expr => .error expr
  | .ok (s, vHashUpdate) => updateTransactionsFromBlock A s vHashUpdate

/-! ### Transactions of undone blocks -/

/-- A transaction does not spend from another. -/
def NotSpending (tx tx' : CTransaction) : Prop := ∀ txin ∈ tx.vin, txin.prevout.hash ≠ tx'.getHash

def NoConflict (tx tx' : CTransaction) : Prop :=
  ∀ txin ∈ tx.vin, ∀ txin' ∈ tx'.vin, txin.prevout ≠ txin'.prevout

/-- The transactions stand in the order of their blocks and are not in the pool. What
they spend was confirmed by their blocks or before, so it is not from the pool, and no
entry of the pool spends it. -/
structure FromBlocks (s : CTxMemPool) (txs : List CTransaction) : Prop where
  fresh : ∀ tx ∈ txs, tx.getHash ∉ s.ids
  distinct : txs.Pairwise fun tx tx' => tx.getHash ≠ tx'.getHash
  inputs : ∀ tx ∈ txs, ∀ txin ∈ tx.vin,
    txin.prevout.hash ∉ s.ids ∧ s.mapNextTx.find? txin.prevout = none
  not_self : ∀ tx ∈ txs, NotSpending tx tx
  order : txs.Pairwise NotSpending
  no_conflict : txs.Pairwise NoConflict

/-- The pool `s` while transactions return to the pool `s₀`; those of `done` have had
their turn, and `R` of them have been added. -/
structure Returning (s₀ : CTxMemPool) (done : List CTransaction) (R : List Uint256)
    (s : CTxMemPool) : Prop where
  stored : s.Stored
  linked : s.Linked
  links : ∀ {a b}, s.Link a b ↔ s.Spent a b ∧ ¬ (a ∈ R ∧ b ∉ R)
  into : ∀ {a b}, s.Spent a b → b ∈ R → a ∈ R
  order : R.Pairwise fun r r' => ¬ s.Spent r' r
  nodup : R.Nodup
  returned : ∀ r ∈ R, ∃ e, s.mapTx.find? r = some e ∧ e.tx ∈ done
  old : ∀ {k e}, s.mapTx.find? k = some e → k ∉ R →
    ∃ e₀, s₀.mapTx.find? k = some e₀ ∧ e.withAncestors = e₀.withAncestors ∧ e.tx = e₀.tx
  limits : s.limits = s₀.limits

theorem Consistent.returning {s : CTxMemPool} (hs : s.Consistent) : Returning s [] [] s where
  stored := hs.stored
  linked := hs.linked
  links := by simp [hs.links]
  into _ h := absurd h not_mem_nil
  order := .nil
  nodup := .nil
  returned _ h := absurd h not_mem_nil
  old h _ := ⟨_, h, rfl, rfl⟩
  limits := rfl

variable {s₀ s : CTxMemPool} {done : List CTransaction} {R : List Uint256} {tx : CTransaction}

/-- Entries are old ones or returned ones. -/
theorem Returning.cases (h : Returning s₀ done R s) {k : Uint256} (hk : k ∈ s.ids) :
    k ∈ s₀.ids ∨ k ∈ R := by
  by_cases hR : k ∈ R
  · exact .inr hR
  · obtain ⟨e, he⟩ := mem_ids.mp hk
    obtain ⟨e₀, he₀, -⟩ := h.old he hR
    exact .inl (mem_ids_of_find? he₀)

section
variable (h : Returning s₀ done R s) (hbs : s₀.FromBlocks (done ++ [tx]))

include h hbs

theorem Returning.fresh : tx.getHash ∉ s.ids := by
  have hlast : tx ∈ done ++ [tx] := mem_append_right _ (mem_singleton_self tx)
  intro hid
  rcases h.cases hid with hold | hR
  · exact hbs.fresh tx hlast hold
  · obtain ⟨e, he, hdone⟩ := h.returned _ hR
    have hne := (pairwise_append.mp hbs.distinct).2.2 _ hdone tx (mem_singleton_self tx)
    exact hne (h.stored.hash he)

/-- What came back earlier does not spend the transaction. -/
theorem Returning.spender_notMem {i : UInt32} {x : Uint256}
    (hx : s.mapNextTx.find? ⟨tx.getHash, i⟩ = some x) : x ∉ R := by
  intro hR
  obtain ⟨e, he, hdone⟩ := h.returned x hR
  obtain ⟨e', he', txin, hin, hprev⟩ := h.stored.next.mp hx
  rw [he] at he'
  cases he'
  have horder := (pairwise_append.mp hbs.order).2.2 _ hdone tx (mem_singleton_self tx)
  exact horder txin hin (congrArg COutPoint.hash hprev)

theorem Returning.addable (hs₀ : s₀.Stored) : s.Addable tx := by
  have hlast : tx ∈ done ++ [tx] := mem_append_right _ (mem_singleton_self tx)
  refine ⟨h.fresh hbs, hbs.not_self tx hlast, fun txin hin => ?_⟩
  cases hnext : s.mapNextTx.find? txin.prevout with
  | none => rfl
  | some x =>
    exfalso
    obtain ⟨e, he, txin', hin', hprev⟩ := h.stored.next.mp hnext
    by_cases hR : x ∈ R
    · obtain ⟨e', he', hdone⟩ := h.returned x hR
      rw [he] at he'
      cases he'
      have hno := (pairwise_append.mp hbs.no_conflict).2.2 _ hdone tx (mem_singleton_self tx)
      exact hno txin' hin' txin hin hprev
    · obtain ⟨e₀, he₀, -, htx⟩ := h.old he hR
      have hold := hs₀.next.mpr ⟨e₀, he₀, txin', htx ▸ hin', hprev⟩
      rw [(hbs.inputs tx hlast txin hin).2] at hold
      cases hold

/-- What the transaction spends from in the pool has come back itself. -/
theorem Returning.parentsIn_subset {p : Uint256} (hp : p ∈ s.parentsIn tx) : p ∈ R := by
  have hlast : tx ∈ done ++ [tx] := mem_append_right _ (mem_singleton_self tx)
  obtain ⟨⟨txin, hin, rfl⟩, hid⟩ := mem_parentsIn.mp hp
  exact (h.cases hid).resolve_left (hbs.inputs tx hlast txin hin).1

/-! ### One transaction -/

theorem Returning.reject : ∃ s', s.removeRecursive .exact tx = .ok s' ∧
    Returning s₀ (done ++ [tx]) R s' := by
  obtain ⟨D, -, hcl, heq, -, hlow⟩ := removeRecursive_eq h.stored h.linked tx
  -- What goes depends on the transaction, and so do old entries only.
  have hD : ∀ y ∈ R, y ∉ D := by
    have hpath : ∀ {x y}, x ∉ R → ReflTransGen s.Link x y → y ∉ R := by
      intro x y hx hpath
      induction hpath with
      | refl => exact hx
      | tail _ hstep ih => exact fun hR => ih (h.into (h.links.mp hstep).1 hR)
    intro y hR hy
    obtain ⟨x, i, hi, hxy⟩ := hlow (h.fresh hbs) y hy
    exact hpath (h.spender_notMem hbs hi) hxy hR
  have hspent : ∀ {a b}, (s.without D).Spent a b ↔ s.Spent a b ∧ a ∉ D ∧ b ∉ D :=
    h.stored.spent_without D
  refine ⟨_, heq, h.stored.removing (coreKept_forget s D), h.linked.without hcl,
    fun {a b} => ?_, ?_, ?_, h.nodup, ?_, ?_, (limits_removing s D _).trans h.limits⟩
  · rw [(closedRemoved hcl).edges, hspent, h.links]
    constructor
    · rintro ⟨⟨hab, hmiss⟩, hb⟩
      have ha : a ∉ D := fun ha => hb (hcl a b (h.links.mpr ⟨hab, hmiss⟩) ha)
      exact ⟨⟨hab, ha, hb⟩, hmiss⟩
    · rintro ⟨⟨hab, -, hb⟩, hmiss⟩
      exact ⟨⟨hab, hmiss⟩, hb⟩
  · exact fun hab => h.into (hspent.mp hab).1
  · exact h.order.imp fun hno hab => hno (hspent.mp hab).1
  · intro r hr
    obtain ⟨e, he, hdone⟩ := h.returned r hr
    exact ⟨s.forget D r e, by rw [find?_removing, if_neg (hD r hr), he]; rfl,
      mem_append_left _ hdone⟩
  · intro k e' he' hk
    obtain ⟨-, e, he, rfl⟩ := exists_of_find?_removing he'
    obtain ⟨e₀, he₀, hanc, htx⟩ := h.old he hk
    exact ⟨e₀, he₀, hanc, htx⟩

theorem Returning.accept (hs₀ : s₀.Stored) {a : NewEntry} (ha : a.tx = tx) {A : Finset Uint256}
    (hA : s.IsAncestors a.tx A) :
    Returning s₀ (done ++ [tx]) (R ++ [tx.getHash]) (s.added a A) := by
  subst ha
  have hadd := h.addable hbs hs₀
  have hsink := sinkAdded (A := A) h.linked hadd
  have hnew : a.tx.getHash ∉ R := fun hR => by
    obtain ⟨e, he, -⟩ := h.returned _ hR
    exact hadd.fresh (mem_ids_of_find? he)
  have hmem : ∀ {x}, x ∈ s.ids → (x ∈ R ++ [a.tx.getHash] ↔ x ∈ R) := by
    intro x hx
    rw [mem_append, mem_singleton]
    exact or_iff_left fun hx' => hadd.fresh (hx' ▸ hx)
  have hself : a.tx.getHash ∈ R ++ [a.tx.getHash] := mem_append_right _ (mem_singleton_self _)
  have hspent := fun {x y} => spent_added (A := A) (a := x) (b := y) hadd
  have hends : ∀ {x y}, s.Spent x y → x ∈ s.ids ∧ y ∈ s.ids :=
    fun hxy => ⟨hxy.1, h.stored.spender_mem hxy⟩
  refine ⟨h.stored.added hadd, h.linked.added hadd hA, fun {x y} => ?_, fun {x y} hxy hy => ?_, ?_,
    ?_, ?_, ?_, h.limits⟩
  · rw [hsink.edges, hspent, h.links]
    constructor
    · rintro (⟨hxy, hmiss⟩ | ⟨rfl, hx⟩)
      · rw [hmem (hends hxy).1, hmem (hends hxy).2]
        exact ⟨.inl hxy, hmiss⟩
      · exact ⟨.inr (.inl ⟨rfl, hx⟩), fun hm => hm.2 hself⟩
    · rintro ⟨hxy | hxy | ⟨rfl, i, hi⟩, hmiss⟩
      · rw [hmem (hends hxy).1, hmem (hends hxy).2] at hmiss
        exact .inl ⟨hxy, hmiss⟩
      · exact .inr hxy
      · -- A link to an entry that spends the new one is among those that are missing.
        have hy : y ∈ s.ids := by
          obtain ⟨e, he, -⟩ := h.stored.next.mp hi
          exact mem_ids_of_find? he
        refine absurd ⟨hself, ?_⟩ hmiss
        rw [hmem hy]
        exact h.spender_notMem hbs hi
  · rcases hspent.mp hxy with hxy | ⟨rfl, hx⟩ | ⟨rfl, -⟩
    · rw [hmem (hends hxy).1]
      exact h.into hxy ((hmem (hends hxy).2).mp hy)
    · exact mem_append_left _ (h.parentsIn_subset hbs hx)
    · exact hself
  · refine pairwise_append.mpr ⟨?_, pairwise_singleton _ _, ?_⟩
    · refine h.order.imp_of_mem fun {r r'} hr hr' hno hspent' => ?_
      rcases hspent.mp hspent' with hxy | ⟨rfl, -⟩ | ⟨rfl, -⟩
      · exact hno hxy
      · exact hnew hr
      · exact hnew hr'
    · intro r hr r' hr' hspent'
      obtain rfl := mem_singleton.mp hr'
      rcases hspent.mp hspent' with hxy | ⟨rfl, -⟩ | ⟨-, i, hi⟩
      · exact hadd.fresh (hends hxy).1
      · exact hnew hr
      · exact h.spender_notMem hbs hi hr
  · exact nodup_append.mpr ⟨h.nodup, nodup_singleton _, fun x hx y hy hxy => by
      obtain rfl := mem_singleton.mp hy
      exact hnew (hxy ▸ hx)⟩
  · intro r hr
    rcases mem_append.mp hr with hr | hr
    · obtain ⟨e, he, hdone⟩ := h.returned r hr
      have hne : r ≠ a.tx.getHash := fun heq => hnew (heq ▸ hr)
      refine ⟨_, by rw [find?_added_of_ne hne, he, Option.map_some], ?_⟩
      rw [CTxMemPoolEntry.tx_eq_of_core (coreKept_withDescendant _ _ _ _ _ _ _)]
      exact mem_append_left _ hdone
    · obtain rfl := mem_singleton.mp hr
      refine ⟨_, find?_added_self, mem_append_right _ (mem_singleton.mpr ?_)⟩
      exact hadd.prepared.tx_eq
  · intro k e' he' hk
    have hne : k ≠ a.tx.getHash := fun heq => hk (heq ▸ hself)
    have hkR : k ∉ R := fun hR => hk (mem_append_left _ hR)
    rw [find?_added_of_ne hne] at he'
    obtain ⟨e, he, rfl⟩ := Option.map_eq_some_iff.mp he'
    rw [withAncestors_withDescendant,
      CTxMemPoolEntry.tx_eq_of_core (coreKept_withDescendant _ _ _ _ _ _ _)]
    exact h.old he hkR

end

/-! ### All of them -/

theorem FromBlocks.of_append {txs txs' : List CTransaction} (h : s.FromBlocks (txs ++ txs')) :
    s.FromBlocks txs where
  fresh tx htx := h.fresh tx (mem_append_left _ htx)
  distinct := (pairwise_append.mp h.distinct).1
  inputs tx htx := h.inputs tx (mem_append_left _ htx)
  not_self tx htx := h.not_self tx (mem_append_left _ htx)
  order := (pairwise_append.mp h.order).1
  no_conflict := (pairwise_append.mp h.no_conflict).1

theorem Returning.returnTransactions (hs₀ : s₀.Stored) (items : List Returned)
    (h : Returning s₀ done R s) (hbs : s₀.FromBlocks (done ++ items.map Returned.tx)) :
    ∃ s' R', returnTransactions .exact items s R = .ok (s', R') ∧
      Returning s₀ (done ++ items.map Returned.tx) R' s' := by
  induction items generalizing done R s with
  | nil =>
    rw [map_nil, append_nil]
    exact ⟨s, R, rfl, h⟩
  | cons item items ih =>
    have hspl : done ++ (item :: items).map Returned.tx =
        (done ++ [item.tx]) ++ items.map Returned.tx := by simp
    rw [hspl] at hbs ⊢
    have hone := hbs.of_append
    cases item with
    | rejected tx =>
      obtain ⟨s', heq, h'⟩ := h.reject hone
      rw [returnTransactions, show s.removeRecursive .exact tx = .ok s' from heq]
      exact ih h' hbs
    | accepted a =>
      rw [returnTransactions]
      split
      case h_1 =>
        obtain ⟨s', heq, h'⟩ := h.reject hone
        rw [show s.removeRecursive .exact a.tx = .ok s' from heq]
        exact ih h' hbs
      case h_2 A hA =>
        have hanc := h.linked.isAncestors hA
        rw [addUnchecked_eq h.linked (h.addable hone hs₀) hanc]
        exact ih (h.accept hone hs₀ rfl hanc) hbs

end CTxMemPool
end Lithium
