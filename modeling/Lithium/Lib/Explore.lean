import Mathlib.Data.Finset.Max

/-!
# Searching a finite graph

Two searches along the edges of a graph, with a set of vertices that are still to be
looked at. The least of them is taken in each turn. `explore` finds what can be
reached. `exploreMemo` has the answers for some vertices already and does not search
behind these; it is used where only the vertices of a kind matter, and finds all of
that kind. Every turn takes another vertex, so the number of vertices bounds the turns.
-/

namespace Lithium.Lib
open Relation Finset
variable {α : Type}

/-! ### Reachability -/

/-- Something can be reached from a vertex of the set. -/
def Reached (next : α → Finset α) (start : Finset α) (y : α) : Prop :=
  ∃ x ∈ start, ReflTransGen (fun a b => b ∈ next a) x y

variable {next : α → Finset α} {start : Finset α} {x : α}

theorem Reached.of_mem (h : x ∈ start) : Reached next start x := ⟨x, h, .refl⟩

variable {y : α}

theorem Reached.step (h : Reached next start x) (hy : y ∈ next x) : Reached next start y := by
  obtain ⟨z, hz, hx⟩ := h
  exact ⟨z, hz, hx.tail hy⟩

/-- A set that contains the start and is closed contains everything reached. -/
theorem Reached.mem_of_closed {p : α → Prop} (hstart : ∀ x ∈ start, p x)
    (hcl : ∀ x, p x → ∀ y ∈ next x, p y) (h : Reached next start y) : p y := by
  obtain ⟨x, hx, hpath⟩ := h
  induction hpath with
  | refl => exact hstart x hx
  | tail _ hstep ih => exact hcl _ ih _ hstep

variable [LinearOrder α]

/-! ### The plain search -/

/-- The search; `n` bounds the turns left. -/
def explore (next : α → Finset α) : Nat → Finset α → Finset α → Finset α
  | 0, _, found => found
  | n + 1, stage, found =>
    if h : stage.Nonempty then
      let x := stage.min' h
      explore next n (stage.erase x ∪ (next x \ insert x found)) (insert x found)
    else found

/-- What has been found and what is still to be looked at. -/
structure Searching (V stage found : Finset α) (next : α → Finset α) : Prop where
  disjoint : Disjoint stage found
  stage_subset : stage ⊆ V
  found_subset : found ⊆ V
  closed : ∀ y ∈ found, next y ⊆ found ∪ stage

variable {V found : Finset α}

/-- What has been found is not looked at again. -/
theorem disjoint_turn {stage t : Finset α} (h : Disjoint stage found) :
    Disjoint (stage.erase x ∪ (t \ insert x found)) (insert x found) :=
  disjoint_union_left.mpr ⟨disjoint_insert_right.mpr
    ⟨notMem_erase x stage, h.mono_left (erase_subset x stage)⟩, sdiff_disjoint⟩

variable {n : Nat}

theorem card_sdiff_insert (hx : x ∈ V) (hfound : x ∉ found) (h : (V \ found).card ≤ n + 1) :
    (V \ insert x found).card ≤ n := by
  have hmem : x ∈ V \ found := mem_sdiff.mpr ⟨hx, hfound⟩
  rw [sdiff_insert, card_erase_of_mem hmem]
  omega

/-! ### The search with known answers -/

/-- What a turn does with one vertex behind the one it looks at. -/
def exploreEdge (memo : α → Option (Finset α)) (st : Finset α × Finset α) (c : α) :
    Finset α × Finset α :=
  match memo c with
  | some known => (st.1, st.2 ∪ known)
  | none => if c ∈ st.2 then st else (insert c st.1, st.2)

/-- The search with the answers of `memo`; stage and what has been found come as a pair. -/
def exploreMemo (next : α → List α) (memo : α → Option (Finset α)) :
    Nat → Finset α × Finset α → Finset α
  | 0, st => st.2
  | n + 1, st =>
    if h : st.1.Nonempty then
      let x := st.1.min' h
      exploreMemo next memo n
        ((next x).foldl (exploreEdge memo) (st.1.erase x, insert x st.2))
    else st.2

/-- The answers are right for the vertices of a kind, which is closed and has no
answers itself. -/
structure MemoOf (kind : α → Prop) (next : α → List α) (memo : α → Option (Finset α)) : Prop where
  closed : ∀ p, kind p → ∀ c ∈ next p, kind c
  unknown : ∀ p, kind p → memo p = none
  known : ∀ c ds, memo c = some ds → ∀ p, p ∈ ds ↔ kind p ∧ ReflTransGen (fun a b => b ∈ next a) c p

/-- A vertex needs no further attention. -/
def Covered (memo : α → Option (Finset α)) (st : Finset α × Finset α) (c : α) : Prop :=
  c ∈ st.2 ∨ c ∈ st.1 ∨ ∃ ds, memo c = some ds ∧ ds ⊆ st.2

/-- What holds between the turns: `popped` are the vertices that have been looked at. -/
structure Exploring (V start popped : Finset α) (next : α → List α)
    (memo : α → Option (Finset α)) (st : Finset α × Finset α) : Prop where
  disjoint : Disjoint st.1 popped
  popped_subset : popped ⊆ st.2
  stage_subset : st.1 ⊆ V
  start_subset : ∀ x ∈ start, x ∈ st.2 ∨ x ∈ st.1
  sound : ∀ y, y ∈ st.2 ∨ y ∈ st.1 → Reached (fun a => (next a).toFinset) start y
  covered : ∀ y ∈ st.2, ∀ c ∈ next y, Covered memo st c

section
variable {next : α → List α} {memo : α → Option (Finset α)} {kind : α → Prop}
  {st : Finset α × Finset α}

omit [LinearOrder α] in
theorem Covered.mono {st' : Finset α × Finset α} {c : α} (h : Covered memo st c)
    (hfound : st.2 ⊆ st'.2) (hstage : ∀ y ∈ st.1, y ∈ st'.2 ∨ y ∈ st'.1) : Covered memo st' c := by
  rcases h with h | h | ⟨ds, hds, hsub⟩
  · exact .inl (hfound h)
  · rcases hstage c h with h | h
    · exact .inl h
    · exact .inr (.inl h)
  · exact .inr (.inr ⟨ds, hds, hsub.trans hfound⟩)

/-- What the vertices behind one add. -/
structure EdgesTaken (memo : α → Option (Finset α)) (cs : List α) (st st' : Finset α × Finset α) :
    Prop where
  found : st.2 ⊆ st'.2
  stage : st.1 ⊆ st'.1
  covered : ∀ c ∈ cs, Covered memo st' c
  staged : ∀ y ∈ st'.1, y ∈ st.1 ∨ y ∈ cs ∧ y ∉ st.2
  added : ∀ y ∈ st'.2, y ∈ st.2 ∨ ∃ c ∈ cs, ∃ ds, memo c = some ds ∧ y ∈ ds ∧ ds ⊆ st'.2

theorem edgesTaken_single (memo : α → Option (Finset α)) (st : Finset α × Finset α) (c : α) :
    EdgesTaken memo [c] st (exploreEdge memo st c) := by
  unfold exploreEdge
  cases hmemo : memo c with
  | some ds =>
    have hsub : ds ⊆ st.2 ∪ ds := subset_union_right
    refine ⟨subset_union_left, subset_rfl, ?_, fun y hy => .inl hy, ?_⟩
    · intro c' hc'
      obtain rfl := List.mem_singleton.mp hc'
      exact .inr (.inr ⟨ds, hmemo, hsub⟩)
    · intro y hy
      rcases mem_union.mp hy with hy | hy
      · exact .inl hy
      · exact .inr ⟨c, List.mem_singleton_self c, ds, hmemo, hy, hsub⟩
  | none =>
    split_ifs with hfound
    · refine ⟨subset_rfl, subset_rfl, ?_, fun y hy => .inl hy, fun y hy => .inl hy⟩
      intro c' hc'
      obtain rfl := List.mem_singleton.mp hc'
      exact .inl hfound
    · refine ⟨subset_rfl, subset_insert _ _, ?_, ?_, fun y hy => .inl hy⟩
      · intro c' hc'
        obtain rfl := List.mem_singleton.mp hc'
        exact .inr (.inl (mem_insert_self _ _))
      · intro y hy
        rcases mem_insert.mp hy with rfl | hy
        · exact .inr ⟨List.mem_singleton_self _, hfound⟩
        · exact .inl hy

omit [LinearOrder α] in
theorem EdgesTaken.append {cs ds : List α} {st₁ st₂ st₃ : Finset α × Finset α}
    (h₁ : EdgesTaken memo cs st₁ st₂) (h₂ : EdgesTaken memo ds st₂ st₃) :
    EdgesTaken memo (cs ++ ds) st₁ st₃ := by
  refine ⟨h₁.found.trans h₂.found, h₁.stage.trans h₂.stage, ?_, ?_, ?_⟩
  · intro c hc
    rcases List.mem_append.mp hc with hc | hc
    · exact (h₁.covered c hc).mono h₂.found fun y hy => .inr (h₂.stage hy)
    · exact h₂.covered c hc
  · intro y hy
    rcases h₂.staged y hy with hy | ⟨hy, hfound⟩
    · rcases h₁.staged y hy with hy | ⟨hy, hfound⟩
      · exact .inl hy
      · exact .inr ⟨List.mem_append_left _ hy, hfound⟩
    · exact .inr ⟨List.mem_append_right _ hy, fun h => hfound (h₁.found h)⟩
  · intro y hy
    rcases h₂.added y hy with hy | ⟨c, hc, known, hmemo, hy, hsub⟩
    · rcases h₁.added y hy with hy | ⟨c, hc, known, hmemo, hy, hsub⟩
      · exact .inl hy
      · exact .inr ⟨c, List.mem_append_left _ hc, known, hmemo, hy, hsub.trans h₂.found⟩
    · exact .inr ⟨c, List.mem_append_right _ hc, known, hmemo, hy, hsub⟩

theorem edgesTaken_foldl (memo : α → Option (Finset α)) (cs : List α) (st : Finset α × Finset α) :
    EdgesTaken memo cs st (cs.foldl (exploreEdge memo) st) := by
  induction cs generalizing st with
  | nil => exact ⟨subset_rfl, subset_rfl, by simp, fun y hy => .inl hy, fun y hy => .inl hy⟩
  | cons c cs ih => exact (edgesTaken_single memo st c).append (ih (exploreEdge memo st c))

section
variable (hmemo : MemoOf kind next memo) {popped : Finset α}

include hmemo

theorem Exploring.turn {start : Finset α} (hV : ∀ y ∈ V, ∀ c ∈ next y, c ∈ V)
    (h : Exploring V start popped next memo st) (hx : x ∈ st.1) :
    Exploring V start (insert x popped) next memo
      ((next x).foldl (exploreEdge memo) (st.1.erase x, insert x st.2)) := by
  have hedges := edgesTaken_foldl memo (next x) (st.1.erase x, insert x st.2)
  generalize (next x).foldl (exploreEdge memo) (st.1.erase x, insert x st.2) = st' at hedges
  have hfound : st.2 ⊆ st'.2 := (subset_insert _ _).trans hedges.found
  have hxfound : x ∈ st'.2 := hedges.found (mem_insert_self _ _)
  have hstage : ∀ y ∈ st.1, y ∈ st'.2 ∨ y ∈ st'.1 := by
    intro y hy
    by_cases hyx : y = x
    · exact .inl (hyx ▸ hxfound)
    · exact .inr (hedges.stage (mem_erase.mpr ⟨hyx, hy⟩))
  have hreach := h.sound x (.inr hx)
  refine ⟨?_, ?_, ?_, ?_, ?_, ?_⟩
  · rw [disjoint_left]
    intro y hy hpopped
    rcases hedges.staged y hy with hy | ⟨-, hnew⟩
    · obtain ⟨hyx, hy⟩ := mem_erase.mp hy
      exact disjoint_left.mp h.disjoint hy (mem_of_mem_insert_of_ne hpopped hyx)
    · exact hnew (insert_subset_insert x h.popped_subset hpopped)
  · exact insert_subset hxfound (h.popped_subset.trans hfound)
  · intro y hy
    rcases hedges.staged y hy with hy | ⟨hy, -⟩
    · exact h.stage_subset (mem_of_mem_erase hy)
    · exact hV x (h.stage_subset hx) y hy
  · intro y hy
    rcases h.start_subset y hy with hy | hy
    · exact .inl (hfound hy)
    · exact hstage y hy
  · rintro y (hy | hy)
    · rcases hedges.added y hy with hy | ⟨c, hc, ds, hds, hy, -⟩
      · rcases mem_insert.mp hy with rfl | hy
        · exact hreach
        · exact h.sound y (.inl hy)
      · obtain ⟨z, hz, hpath⟩ := hreach.step (List.mem_toFinset.mpr hc)
        have hkn := ((hmemo.known c ds hds y).mp hy).2
        exact ⟨z, hz, hpath.trans (hkn.lift id fun a b hb => List.mem_toFinset.mpr hb)⟩
    · rcases hedges.staged y hy with hy | ⟨hy, -⟩
      · exact h.sound y (.inr (mem_of_mem_erase hy))
      · exact hreach.step (List.mem_toFinset.mpr hy)
  · intro y hy c hc
    rcases hedges.added y hy with hy | ⟨q, -, ds, hds, hy, hsub⟩
    · rcases mem_insert.mp hy with rfl | hy
      · exact hedges.covered c hc
      · exact (h.covered y hy c hc).mono hfound hstage
    · -- The answer for `q` holds everything behind the vertex as well.
      obtain ⟨hkind, hpath⟩ := (hmemo.known q ds hds y).mp hy
      exact .inl (hsub ((hmemo.known q ds hds c).mpr ⟨hmemo.closed y hkind c hc, hpath.tail hc⟩))

/-- When nothing is left to be looked at, everything of the kind has been found. -/
theorem Exploring.complete {start : Finset α} (h : Exploring V start popped next memo (∅, found))
    (hkind : kind y) : y ∈ found ↔ Reached (fun a => (next a).toFinset) start y := by
  refine ⟨fun hy => h.sound y (.inl hy), fun hy => ?_⟩
  have hbehind : y ∈ found ∨ ∃ q ds, memo q = some ds ∧ ds ⊆ found ∧
      ReflTransGen (fun a b => b ∈ next a) q y := by
    refine hy.mem_of_closed (p := fun y => y ∈ found ∨ ∃ q ds, memo q = some ds ∧ ds ⊆ found ∧
      ReflTransGen (fun a b => b ∈ next a) q y) ?_ ?_
    · intro x hx
      exact .inl ((h.start_subset x hx).resolve_right (notMem_empty x))
    · rintro x (hx | ⟨q, ds, hds, hsub, hpath⟩) c hc
      · rcases h.covered x hx c (List.mem_toFinset.mp hc) with hc | hc | ⟨ds, hds, hsub⟩
        · exact .inl hc
        · exact absurd hc (notMem_empty c)
        · exact .inr ⟨c, ds, hds, hsub, .refl⟩
      · exact .inr ⟨q, ds, hds, hsub, hpath.tail (List.mem_toFinset.mp hc)⟩
  rcases hbehind with hy | ⟨q, ds, hds, hsub, hpath⟩
  · exact hy
  · exact hsub ((hmemo.known q ds hds y).mpr ⟨hkind, hpath⟩)

theorem exploreMemo_done {start : Finset α} (hV : ∀ y ∈ V, ∀ c ∈ next y, c ∈ V)
    (h : Exploring V start popped next memo st) (hfuel : (V \ popped).card ≤ n) :
    ∃ popped', Exploring V start popped' next memo (∅, exploreMemo next memo n st) := by
  induction n generalizing popped st with
  | zero =>
    have hall : V ⊆ popped := by
      rw [← sdiff_eq_empty_iff_subset]
      exact card_eq_zero.mp (Nat.le_zero.mp hfuel)
    have hemp : st.1 = ∅ := by
      rw [eq_empty_iff_forall_notMem]
      intro x hx
      exact disjoint_left.mp h.disjoint hx (hall (h.stage_subset hx))
    exact ⟨popped, by rw [exploreMemo, ← hemp]; exact h⟩
  | succ n ih =>
    rw [exploreMemo]
    split_ifs with hne
    · have hx := st.1.min'_mem hne
      generalize st.1.min' hne = x at hx
      have hpopped : x ∉ popped := disjoint_left.mp h.disjoint hx
      exact ih (h.turn hmemo hV hx) (card_sdiff_insert (h.stage_subset hx) hpopped hfuel)
    · rw [not_nonempty_iff_eq_empty] at hne
      exact ⟨popped, by rw [← hne]; exact h⟩

/-- The search with known answers finds, of the kind, what can be reached. -/
theorem mem_exploreMemo {start : Finset α} (hV : ∀ y ∈ V, ∀ c ∈ next y, c ∈ V) (hstart : start ⊆ V)
    (hfuel : V.card ≤ n) (hkind : kind y) :
    y ∈ exploreMemo next memo n (start, ∅) ↔ Reached (fun a => (next a).toFinset) start y := by
  have hinit : Exploring V start ∅ next memo (start, ∅) := by
    refine ⟨disjoint_empty_right _, subset_rfl, hstart, fun x hx => .inr hx, ?_, ?_⟩
    · rintro x (hx | hx)
      · exact absurd hx (notMem_empty x)
      · exact .of_mem hx
    · intro x hx
      exact absurd hx (notMem_empty x)
  have hfuel' : (V \ ∅).card ≤ n := by rwa [sdiff_empty]
  obtain ⟨popped, hdone⟩ := exploreMemo_done hmemo hV hinit hfuel'
  exact hdone.complete hmemo hkind

end
end

/-! ### The plain search as one without answers -/

theorem foldl_exploreEdge_none (cs : List α) (st : Finset α × Finset α) :
    cs.foldl (exploreEdge fun _ => none) st = (st.1 ∪ (cs.toFinset \ st.2), st.2) := by
  induction cs generalizing st with
  | nil => simp
  | cons c cs ih =>
    rw [List.foldl_cons, ih, exploreEdge]
    split_ifs with hc
    · rw [List.toFinset_cons, insert_sdiff_of_mem _ hc]
    · rw [List.toFinset_cons, insert_sdiff_of_notMem _ hc, insert_union, union_insert]

theorem explore_eq_exploreMemo (stage : Finset α) : explore next n stage found =
    exploreMemo (fun x => (next x).toList) (fun _ => none) n (stage, found) := by
  induction n generalizing stage found with
  | zero => rfl
  | succ n ih =>
    rw [explore, exploreMemo]
    split_ifs with hne
    · simp only [foldl_exploreEdge_none, toList_toFinset]
      exact ih _
    · rfl

/-- The search finds what it had and what can be reached from the stage. -/
theorem mem_explore (hV : ∀ y ∈ V, next y ⊆ V) {stage : Finset α} (h : Searching V stage found next)
    (hfuel : (V \ found).card ≤ n) (y : α) :
    y ∈ explore next n stage found ↔ y ∈ found ∨ Reached next stage y := by
  have hmemo : MemoOf (fun _ => True) (fun x => (next x).toList) fun _ => none :=
    ⟨fun _ _ _ _ => trivial, fun _ _ => rfl, nofun⟩
  have hinit : Exploring V (stage ∪ found) found (fun x => (next x).toList) (fun _ => none)
      (stage, found) := by
    refine ⟨h.disjoint, subset_rfl, h.stage_subset, fun x hx => ?_, fun x hx => ?_, ?_⟩
    · exact (mem_union.mp hx).symm
    · exact .of_mem (mem_union.mpr hx.symm)
    · intro x hx c hc
      rcases mem_union.mp (h.closed x hx (mem_toList.mp hc)) with hc | hc
      · exact .inl hc
      · exact .inr (.inl hc)
  obtain ⟨popped, hdone⟩ := exploreMemo_done hmemo
    (fun y hy c hc => hV y hy (mem_toList.mp hc)) hinit hfuel
  rw [explore_eq_exploreMemo, hdone.complete hmemo trivial]
  simp only [toList_toFinset]
  constructor
  · intro hy
    refine hy.mem_of_closed (p := fun z => z ∈ found ∨ Reached next stage z) ?_ ?_
    · exact fun x hx => (mem_union.mp hx).symm.imp_right .of_mem
    · rintro x (hx | hx) c hc
      · exact (mem_union.mp (h.closed x hx hc)).imp_right .of_mem
      · exact .inr (hx.step hc)
  · rintro (hy | ⟨x, hx, hpath⟩)
    · exact .of_mem (mem_union_right _ hy)
    · exact ⟨x, mem_union_left _ hx, hpath⟩

end Lithium.Lib
