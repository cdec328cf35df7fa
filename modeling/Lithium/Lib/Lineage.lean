import Mathlib.Algebra.BigOperators.Group.Finset.Basic

/-!
# Ancestors and descendants in a finite graph

The vertices before and behind a vertex, itself included, and what becomes of these
sets when the graph changes: a vertex comes that has no edges out of it, vertices go
with everything behind them, a vertex goes that has none before it, or edges are
added from new vertices to old ones.

Edges are a relation, and how a relation arises from another is a hypothesis, so that
the lemmas apply to edges that are kept in any form.
-/

namespace Lithium.Lib
open Relation Finset TransGen
variable {α : Type} {L L' : α → α → Prop}

/-- The vertices from which a vertex can be reached. -/
noncomputable def upward (V : Finset α) (L : α → α → Prop) (x : α) : Finset α :=
  open Classical in {a ∈ V | ReflTransGen L a x}

/-- The vertices that can be reached from a vertex. -/
noncomputable def downward (V : Finset α) (L : α → α → Prop) (x : α) : Finset α :=
  open Classical in {d ∈ V | ReflTransGen L x d}

variable {V : Finset α} {a b x v : α}

@[simp] theorem mem_upward : a ∈ upward V L x ↔ a ∈ V ∧ ReflTransGen L a x := by
  simp [upward]

@[simp] theorem mem_downward : b ∈ downward V L x ↔ b ∈ V ∧ ReflTransGen L x b := by
  simp [downward]

theorem self_mem_upward (hx : x ∈ V) : x ∈ upward V L x := mem_upward.mpr ⟨hx, .refl⟩

theorem self_mem_downward (hx : x ∈ V) : x ∈ downward V L x := mem_downward.mpr ⟨hx, .refl⟩

@[simp] theorem upward_swap : upward V (Function.swap L) x = downward V L x := by
  ext a
  simp [reflTransGen_swap]

@[simp] theorem downward_swap : downward V (Function.swap L) x = upward V L x := upward_swap.symm

/-- Paths from which no edge is lost. -/
theorem reaches_iff_of_kept (hsub : ∀ {c d}, L' c d → L c d)
    (hkept : ∀ {c d}, ReflTransGen L a c → L c d → ReflTransGen L d b → L' c d) :
    ReflTransGen L' a b ↔ ReflTransGen L a b := by
  refine ⟨fun hpath => hpath.lift id fun _ _ => hsub, fun hpath => ?_⟩
  have hpre : ∀ c, ReflTransGen L a c → ReflTransGen L c b → ReflTransGen L' a c := by
    intro c hpath
    induction hpath with
    | refl => exact fun _ => .refl
    | tail hpath hstep ih =>
      exact fun hrest => (ih (hrest.head hstep)).tail (hkept hpath hstep hrest)
  exact hpre b hpath .refl

section
variable [DecidableEq α]

/-- Without cycles, what is behind a vertex is not the vertex. -/
theorem mem_downward_erase (hacyc : ∀ x, ¬ TransGen L x x) (hV : ∀ {c d}, L c d → d ∈ V) :
    b ∈ (downward V L x).erase x ↔ TransGen L x b := by
  rw [mem_erase, mem_downward]
  constructor
  · rintro ⟨hne, -, hpath⟩
    exact (reflTransGen_iff_eq_or_transGen.mp hpath).resolve_left hne
  · intro hpath
    obtain ⟨c, -, hstep⟩ := tail'_iff.mp hpath
    exact ⟨fun heq => hacyc x (heq ▸ hpath), hV hstep, hpath.to_reflTransGen⟩

theorem mem_upward_erase (hacyc : ∀ x, ¬ TransGen L x x) (hV : ∀ {c d}, L c d → c ∈ V) :
    b ∈ (upward V L x).erase x ↔ TransGen L b x := by
  rw [← downward_swap, ← transGen_swap]
  exact mem_downward_erase (fun x hx => hacyc x (transGen_swap.mp hx)) hV

end

/-! ### Vertices that go with everything behind them -/

/-- The vertices of `D` go, and everything behind them is in `D`. -/
structure ClosedRemoved (L L' : α → α → Prop) (D : Finset α) : Prop where
  edges : ∀ a b, L' a b ↔ L a b ∧ b ∉ D
  closed : ∀ a b, L a b → a ∈ D → b ∈ D

namespace ClosedRemoved
variable {D : Finset α} (h : ClosedRemoved L L' D)

include h

theorem notMem_of_reaches (hb : b ∉ D) (hpath : ReflTransGen L a b) : a ∉ D := by
  induction hpath with
  | refl => exact hb
  | @tail c d hpath hstep ih => exact ih fun hc => hb (h.closed c d hstep hc)

theorem reaches_of_notMem (hb : b ∉ D) : ReflTransGen L' a b ↔ ReflTransGen L a b :=
  reaches_iff_of_kept (fun hcd => ((h.edges _ _).mp hcd).1) fun _ hstep hrest =>
    (h.edges _ _).mpr ⟨hstep, h.notMem_of_reaches hb hrest⟩

variable [DecidableEq α]

theorem upward_eq (hx : x ∉ D) : upward (V \ D) L' x = upward V L x := by
  ext a
  simp only [mem_upward, mem_sdiff, h.reaches_of_notMem hx]
  constructor
  · exact fun ha => ⟨ha.1.1, ha.2⟩
  · exact fun ha => ⟨⟨ha.1, h.notMem_of_reaches hx ha.2⟩, ha.2⟩

theorem downward_eq : downward (V \ D) L' x = downward V L x \ D := by
  ext d
  simp only [mem_downward, mem_sdiff]
  constructor
  · rintro ⟨⟨hd, hD⟩, hpath⟩
    exact ⟨⟨hd, (h.reaches_of_notMem hD).mp hpath⟩, hD⟩
  · rintro ⟨⟨hd, hpath⟩, hD⟩
    exact ⟨⟨hd, hD⟩, (h.reaches_of_notMem hD).mpr hpath⟩

end ClosedRemoved

/-! ### A vertex without edges out of it -/

/-- The vertex `v` comes, with edges from `P`. -/
structure SinkAdded (L L' : α → α → Prop) (P : Finset α) (v : α) : Prop where
  edges : ∀ a b, L' a b ↔ L a b ∨ b = v ∧ a ∈ P
  no_out : ∀ b, ¬ L v b
  no_in : ∀ a, ¬ L a v
  notMem : v ∉ P

namespace SinkAdded
variable {P : Finset α} (h : SinkAdded L L' P v)

include h

/-- When it goes again, it goes with everything behind it. -/
theorem closedRemoved : ClosedRemoved L' L {v} where
  edges a b := by
    rw [h.edges, mem_singleton]
    constructor
    · exact fun hab => ⟨.inl hab, fun hb => h.no_in a (hb ▸ hab)⟩
    · exact fun hab => hab.1.resolve_right fun hb => hab.2 hb.1
  closed a b hab ha := by
    rw [mem_singleton] at ha ⊢
    subst ha
    exact ((h.edges a b).mp hab).elim (fun hab => absurd hab (h.no_out b)) fun hb => hb.1

/-- Paths to other vertices are the old ones. -/
theorem reaches_of_ne (hb : b ≠ v) : ReflTransGen L' a b ↔ ReflTransGen L a b :=
  (h.closedRemoved.reaches_of_notMem (notMem_singleton.mpr hb)).symm

theorem reaches_self : ReflTransGen L' a v ↔ a = v ∨ ∃ p ∈ P, ReflTransGen L a p := by
  constructor
  · intro hpath
    rcases hpath.cases_tail with rfl | ⟨c, hpath, hstep⟩
    · exact .inl rfl
    · rcases (h.edges c v).mp hstep with hstep | ⟨-, hP⟩
      · exact absurd hstep (h.no_in c)
      · have hcv : c ≠ v := fun hcv => h.notMem (hcv ▸ hP)
        exact .inr ⟨c, hP, (h.reaches_of_ne hcv).mp hpath⟩
  · rintro (rfl | ⟨p, hp, hpath⟩)
    · exact .refl
    · have hpv : p ≠ v := fun hpv => h.notMem (hpv ▸ hp)
      exact ((h.reaches_of_ne hpv).mpr hpath).tail ((h.edges p v).mpr (.inr ⟨rfl, hp⟩))

theorem acyclic (hL : ∀ x, ¬ TransGen L x x) (x : α) : ¬ TransGen L' x x := by
  intro hcycle
  obtain ⟨c, hpath, hstep⟩ := tail'_iff.mp hcycle
  rcases (h.edges c x).mp hstep with hstep | ⟨rfl, hP⟩
  · have hcv : c ≠ v := fun hcv => h.no_out x (hcv ▸ hstep)
    exact hL x (tail' ((h.reaches_of_ne hcv).mp hpath) hstep)
  · refine h.closedRemoved.notMem_of_reaches (notMem_singleton.mpr ?_) hpath (mem_singleton_self x)
    exact fun hcx => h.notMem (hcx ▸ hP)

variable [DecidableEq α]

theorem upward_of_mem (hv : v ∉ V) (hx : x ∈ V) : upward (insert v V) L' x = upward V L x := by
  have hxv : x ≠ v := fun hxv => hv (hxv ▸ hx)
  rw [← h.closedRemoved.upward_eq (notMem_singleton.mpr hxv), sdiff_singleton_eq_erase,
    erase_insert hv]

/-- Before the vertex are the vertices before those that lead to it. -/
theorem upward_self {A : Finset α} (hA : ∀ a, a ∈ A ↔ a ∈ V ∧ ∃ p ∈ P, ReflTransGen L a p) :
    upward (insert v V) L' v = insert v A := by
  ext a
  simp only [mem_upward, mem_insert, h.reaches_self, hA]
  tauto

theorem downward_erase (hv : v ∉ V) : (downward (insert v V) L' x).erase v = downward V L x := by
  rw [← sdiff_singleton_eq_erase, ← h.closedRemoved.downward_eq, sdiff_singleton_eq_erase,
    erase_insert hv]

theorem downward_of_mem (hv : v ∉ V) {A : Finset α}
    (hA : ∀ a, a ∈ A ↔ a ∈ V ∧ ∃ p ∈ P, ReflTransGen L a p) (hx : x ∈ V) :
    downward (insert v V) L' x = if x ∈ A then insert v (downward V L x) else downward V L x := by
  have hxv : x ≠ v := fun hxv => hv (hxv ▸ hx)
  have hself : v ∈ downward (insert v V) L' x ↔ x ∈ A := by
    simp [h.reaches_self, hA, hxv, hx]
  rw [← h.downward_erase hv]
  split_ifs with hxA
  · rw [insert_erase (hself.mpr hxA)]
  · rw [erase_eq_of_notMem fun hmem => hxA (hself.mp hmem)]

theorem downward_self : downward (insert v V) L' v = {v} := by
  ext d
  simp only [mem_downward, mem_insert, mem_singleton]
  constructor
  · exact fun hd => by_contra fun hdv => h.closedRemoved.notMem_of_reaches
      (notMem_singleton.mpr hdv) hd.2 (mem_singleton_self v)
  · rintro rfl
    exact ⟨.inl rfl, .refl⟩

end SinkAdded

/-! ### Edges that are missing -/

/-- Of the edges `S` those are missing in `L` that lead from `U` out of `R`. -/
structure EdgesMissing (S L : α → α → Prop) (U R : Finset α) : Prop where
  edges : ∀ a b, L a b ↔ S a b ∧ ¬ (a ∈ U ∧ b ∉ R)
  into : ∀ a b, S a b → b ∈ R → a ∈ R
  subset : U ⊆ R

namespace EdgesMissing
variable {S : α → α → Prop} {U R : Finset α}

section
variable (h : EdgesMissing S L U R)

include h

theorem le (hpath : ReflTransGen L a b) : ReflTransGen S a b :=
  hpath.lift id fun c d hcd => ((h.edges c d).mp hcd).1

theorem notMem_of_reaches (ha : a ∉ R) (hpath : ReflTransGen S a b) : b ∉ R := by
  induction hpath with
  | refl => exact ha
  | @tail c d _ hstep ih => exact fun hd => ih (h.into c d hstep hd)

/-- Nothing is missing behind a vertex that does not lead to `U`. -/
theorem reaches_of_avoids (hx : ∀ y, ReflTransGen S x y → y ∉ U) :
    ReflTransGen L x b ↔ ReflTransGen S x b :=
  reaches_iff_of_kept (fun hcd => ((h.edges _ _).mp hcd).1) fun hpath hstep _ =>
    (h.edges _ _).mpr ⟨hstep, fun hmiss => hx _ hpath hmiss.1⟩

/-- Nothing is missing before a vertex of `R`. -/
theorem reaches_of_mem (hb : b ∈ R) : ReflTransGen L a b ↔ ReflTransGen S a b :=
  reaches_iff_of_kept (fun hcd => ((h.edges _ _).mp hcd).1) fun _ hstep hrest =>
    (h.edges _ _).mpr ⟨hstep, fun hmiss => h.notMem_of_reaches hmiss.2 hrest hb⟩

theorem reaches_of_notMem (ha : a ∉ R) : ReflTransGen L a b ↔ ReflTransGen S a b :=
  h.reaches_of_avoids fun _ hy hU => h.notMem_of_reaches ha hy (h.subset hU)

/-- The missing edges close no cycle. -/
theorem acyclic (hL : ∀ x, ¬ TransGen L x x) (x : α) : ¬ TransGen S x x := by
  intro hcycle
  obtain ⟨c, hpath, hstep⟩ := tail'_iff.mp hcycle
  refine hL x (tail'_iff.mpr ⟨c, ?_, (h.edges c x).mpr ⟨hstep, ?_⟩⟩)
  · by_cases hx : x ∈ R
    · exact (h.reaches_of_mem (h.into c x hstep hx)).mpr hpath
    · exact (h.reaches_of_notMem hx).mpr hpath
  · rintro ⟨hc, hx⟩
    exact h.notMem_of_reaches hx hpath (h.subset hc)

end

/-- When all edges out of `R` are missing, so are all paths. -/
theorem reaches_iff (h : EdgesMissing S L R R) :
    ReflTransGen L a b ↔ ReflTransGen S a b ∧ ¬ (a ∈ R ∧ b ∉ R) := by
  constructor
  · intro hpath
    refine ⟨h.le hpath, ?_⟩
    rintro ⟨ha, hb⟩
    induction hpath with
    | refl => exact hb ha
    | @tail c d _ hstep ih =>
      exact ((h.edges c d).mp hstep).2 ⟨by_contra fun hc => ih hc, hb⟩
  · rintro ⟨hpath, hnot⟩
    by_cases ha : a ∈ R
    · exact (h.reaches_of_mem (by_contra fun hb => hnot ⟨ha, hb⟩)).mpr hpath
    · exact (h.reaches_of_notMem ha).mpr hpath

end EdgesMissing

section
variable {S : α → α → Prop} {U R : Finset α} {r : α}

/-- The vertices before a vertex, but for those that are to be ignored: the ones of `U`
for a vertex outside of `R`. -/
noncomputable def knownUpward (V : Finset α) (S : α → α → Prop) (U R : Finset α) (x : α) :
    Finset α :=
  open Classical in {a ∈ upward V S x | ¬ (a ∈ U ∧ x ∉ R)}

noncomputable def knownDownward (V : Finset α) (S : α → α → Prop) (U R : Finset α) (x : α) :
    Finset α :=
  open Classical in {d ∈ downward V S x | ¬ (x ∈ U ∧ d ∉ R)}

@[simp] theorem mem_knownUpward :
    a ∈ knownUpward V S U R x ↔ (a ∈ V ∧ ReflTransGen S a x) ∧ ¬ (a ∈ U ∧ x ∉ R) := by
  simp [knownUpward]

@[simp] theorem mem_knownDownward :
    b ∈ knownDownward V S U R x ↔ (b ∈ V ∧ ReflTransGen S x b) ∧ ¬ (x ∈ U ∧ b ∉ R) := by
  simp [knownDownward]

theorem EdgesMissing.upward_eq (h : EdgesMissing S L R R) :
    upward V L x = knownUpward V S R R x := by
  ext a
  rw [mem_upward, mem_knownUpward, h.reaches_iff, and_assoc]

theorem EdgesMissing.downward_eq (h : EdgesMissing S L R R) :
    downward V L x = knownDownward V S R R x := by
  ext d
  rw [mem_downward, mem_knownDownward, h.reaches_iff, and_assoc]

theorem knownUpward_empty : knownUpward V S ∅ R x = upward V S x := by
  ext a
  simp

theorem knownDownward_empty : knownDownward V S ∅ R x = downward V S x := by
  ext d
  simp

variable [DecidableEq α]

theorem knownUpward_erase_of_reaches (hr : r ∈ U) (hrV : r ∈ V) (hpath : ReflTransGen S r x) :
    knownUpward V S (U.erase r) R x = insert r (knownUpward V S U R x) := by
  ext a
  by_cases har : a = r
  · subst har
    simp [hrV, hpath]
  · simp [har]

theorem knownUpward_erase_of_not (hx : x ∈ R ∨ ¬ ReflTransGen S r x) :
    knownUpward V S (U.erase r) R x = knownUpward V S U R x := by
  ext a
  by_cases har : a = r
  · subst har
    rcases hx with hx | hx <;> simp [hx]
  · simp [har]

theorem knownDownward_erase_self (hr : r ∈ U) {l : Finset α}
    (hl : ∀ d, d ∈ l ↔ d ∈ V ∧ d ∉ R ∧ ReflTransGen S r d) :
    knownDownward V S (U.erase r) R r = knownDownward V S U R r ∪ l := by
  ext d
  simp only [mem_knownDownward, notMem_erase, false_and, not_false_eq_true, and_true,
    mem_union, hl, hr, true_and, not_not]
  constructor
  · rintro ⟨hd, hpath⟩
    by_cases hR : d ∈ R
    · exact .inl ⟨⟨hd, hpath⟩, hR⟩
    · exact .inr ⟨hd, hR, hpath⟩
  · rintro (⟨hd, -⟩ | ⟨hd, -, hpath⟩)
    · exact hd
    · exact ⟨hd, hpath⟩

theorem knownDownward_erase_of_ne (hx : x ≠ r) :
    knownDownward V S (U.erase r) R x = knownDownward V S U R x := by
  ext d
  simp [hx]

end
end Lithium.Lib
