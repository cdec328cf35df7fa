import Lithium.Lib.Explore
import Mathlib.Algebra.Order.BigOperators.Group.List
import Mathlib.Algebra.Module.Defs
import Mathlib.Algebra.Order.Ring.Nat
import Mathlib.Order.CompletePartialOrder

/-!
# Marking along the edges of a graph

Two loops that walk a graph and change a state at every vertex they meet. `spread`
takes the least vertex of a set, looks whether the vertex is to be changed, and
only then goes on to the vertices behind it; a vertex is looked at once. `sweep`
keeps a stack, changes whatever it pops and pushes everything behind it, without
remembering where it has been.

What the loops do to the state is described by a predicate on the set of vertices
changed so far. The first loop always ends; the second does when no vertex lies
behind itself.
-/

namespace Lithium.Lib
open Relation Finset List
variable {σ α ε : Type} {n : Nat} {s : σ} {A : Set α}

/-! ### Vertices that are looked at once -/

section Spread
variable [LinearOrder α]

/-- The loop; `n` bounds the turns left. -/
def spread (test : σ → α → Except ε Bool) (act : σ → α → σ) (next : σ → α → Finset α) :
    Nat → Finset α → Finset α → σ → Except ε σ
  | 0, _, _, s => .ok s
  | n + 1, todo, done, s =>
    if h : todo.Nonempty then
      let now := todo.min' h
      let todo := todo.erase now
      let done := insert now done
      match test s now with
      | .error e => .error e
      | .ok true => spread test act next n (todo ∪ (next s now \ done)) done (act s now)
      | .ok false => spread test act next n todo done s
    else .ok s

/-- The vertices behind one that is changed. -/
def behind (test₀ : α → Except ε Bool) (next₀ : α → Finset α) (x : α) : Finset α :=
  match test₀ x with
  | .ok true => next₀ x
  | _ => ∅

/-- The vertices that are met and changed. -/
def Changed (test₀ : α → Except ε Bool) (next₀ : α → Finset α) (start : Finset α) : Set α :=
  {y | Reached (behind test₀ next₀) start y ∧ test₀ y = .ok true}

/-- How the loop sees a state: on vertices that have not been changed the test and
the edges are those of the beginning, and changing a vertex adds it to the set. -/
structure Tracks (test : σ → α → Except ε Bool) (act : σ → α → σ) (next : σ → α → Finset α)
    (test₀ : α → Except ε Bool) (next₀ : α → Finset α) (I : Set α → σ → Prop) : Prop where
  test_eq : ∀ {A s x}, I A s → x ∉ A → test s x = test₀ x
  next_eq : ∀ {A s x}, I A s → x ∉ A → test₀ x = .ok true → next s x = next₀ x
  act : ∀ {A s x}, I A s → x ∉ A → test₀ x = .ok true → I (insert x A) (act s x)

variable {test : σ → α → Except ε Bool} {act : σ → α → σ} {next : σ → α → Finset α}
  {test₀ : α → Except ε Bool} {next₀ : α → Finset α} {I : Set α → σ → Prop}

def hits (test₀ : α → Except ε Bool) (done : Finset α) : Set α :=
  {y | y ∈ done ∧ test₀ y = .ok true}

variable {done : Finset α}

omit [LinearOrder α] in
theorem hits_insert_of_hit [DecidableEq α] {x : α} (h : test₀ x = .ok true) :
    hits test₀ (insert x done) = insert x (hits test₀ done) := by
  ext y
  simp only [hits, mem_insert, Set.mem_ofPred_eq, Set.mem_insert_iff]
  constructor
  · rintro ⟨rfl | hy, hhit⟩
    · exact .inl rfl
    · exact .inr ⟨hy, hhit⟩
  · rintro (rfl | ⟨hy, hhit⟩)
    · exact ⟨.inl rfl, h⟩
    · exact ⟨.inr hy, hhit⟩

omit [LinearOrder α] in
theorem hits_insert_of_miss [DecidableEq α] {x : α} (h : test₀ x = .ok false) :
    hits test₀ (insert x done) = hits test₀ done := by
  ext y
  simp only [hits, mem_insert, Set.mem_ofPred_eq]
  constructor
  · rintro ⟨rfl | hy, hhit⟩
    · rw [h] at hhit
      cases hhit
    · exact ⟨hy, hhit⟩
  · rintro ⟨hy, hhit⟩
    exact ⟨.inr hy, hhit⟩

section
variable (htracks : Tracks test act next test₀ next₀ I)

include htracks

/-- Whatever the tests do on the way, a loop that ends has changed some set. -/
theorem spread_tracked {todo : Finset α} {s' : σ} (hs : I A s) (hapart : Disjoint todo done)
    (hA : A ⊆ (done : Set α)) (h : spread test act next n todo done s = .ok s') :
    ∃ A', I A' s' := by
  induction n generalizing todo done A s with
  | zero =>
    cases h
    exact ⟨A, hs⟩
  | succ n ih =>
    rw [spread] at h
    split_ifs at h with hne
    · have hx := todo.min'_mem hne
      generalize todo.min' hne = x at hx h
      have hnow : x ∉ A := fun hxA => disjoint_left.mp hapart hx (hA hxA)
      have hdone : A ⊆ ((insert x done : Finset α) : Set α) :=
        hA.trans (coe_subset.mpr (subset_insert _ _))
      dsimp only at h
      split at h
      · cases h
      · next htest =>
        refine ih (htracks.act hs hnow (by rw [← htracks.test_eq hs hnow, htest]))
          (disjoint_turn hapart) (Set.insert_subset ?_ hdone) h
        exact mem_insert_self _ _
      · exact ih hs ((disjoint_turn (t := ∅) hapart).mono_left subset_union_left) hdone h
    · cases h
      exact ⟨A, hs⟩

/-- The loop does what the plain search finds, if no test on the way fails. -/
theorem spread_eq_explore {todo : Finset α} (hapart : Disjoint todo done)
    (hpass : ∀ y, Reached (behind test₀ next₀) todo y → ∃ b, test₀ y = .ok b)
    (hs : I (hits test₀ done) s) : ∃ s', spread test act next n todo done s = .ok s' ∧
      I (hits test₀ (explore (behind test₀ next₀) n todo done)) s' := by
  induction n generalizing todo done s with
  | zero => exact ⟨s, rfl, hs⟩
  | succ n ih =>
    rw [spread, explore]
    split_ifs with hne
    · have hx := todo.min'_mem hne
      generalize todo.min' hne = x at hx
      have hxdone : x ∉ done := disjoint_left.mp hapart hx
      have hxhits : x ∉ hits test₀ done := fun h => hxdone h.1
      have hturn := disjoint_turn (x := x) (t := behind test₀ next₀ x) hapart
      have hreach : ∀ y, Reached (behind test₀ next₀)
          (todo.erase x ∪ (behind test₀ next₀ x \ insert x done)) y →
          Reached (behind test₀ next₀) todo y := by
        rintro y ⟨z, hz, hpath⟩
        rcases mem_union.mp hz with hz | hz
        · exact ⟨z, mem_of_mem_erase hz, hpath⟩
        · exact ⟨x, hx, .head (mem_sdiff.mp hz).1 hpath⟩
      obtain ⟨b, hb⟩ := hpass x (.of_mem hx)
      dsimp only
      rw [htracks.test_eq hs hxhits, hb]
      cases b with
      | true =>
        have hbehind : behind test₀ next₀ x = next₀ x := by rw [behind, hb]
        rw [htracks.next_eq hs hxhits hb, ← hbehind]
        refine ih hturn (fun y hy => hpass y (hreach y hy)) ?_
        rw [hits_insert_of_hit hb]
        exact htracks.act hs hxhits hb
      | false =>
        have hbehind : behind test₀ next₀ x = ∅ := by rw [behind, hb]
        rw [hbehind, empty_sdiff, union_empty] at hturn hreach ⊢
        refine ih hturn (fun y hy => hpass y (hreach y hy)) ?_
        rw [hits_insert_of_miss hb]
        exact hs
    · exact ⟨s, rfl, hs⟩

/-- If every vertex that is met passes its test, the loop ends well and has changed
the vertices met that were to be changed. -/
theorem spread_ok {V start : Finset α} (hV : ∀ y ∈ V, behind test₀ next₀ y ⊆ V) (hstart : start ⊆ V)
    (hfuel : V.card ≤ n) (hpass : ∀ y, Reached (behind test₀ next₀) start y → ∃ b, test₀ y = .ok b)
    (hs : I ∅ s) : ∃ s', spread test act next n start ∅ s = .ok s' ∧
      I (Changed test₀ next₀ start) s' := by
  have hsearch : Searching V start ∅ (behind test₀ next₀) :=
    ⟨disjoint_empty_right _, hstart, empty_subset _, fun y hy => absurd hy (notMem_empty y)⟩
  have hnone : hits test₀ ∅ = ∅ := by
    simp [hits]
  obtain ⟨s', hs', hI⟩ := spread_eq_explore htracks (n := n) hsearch.disjoint hpass (by rwa [hnone])
  refine ⟨s', hs', ?_⟩
  have hfuel' : (V \ ∅).card ≤ n := by rwa [sdiff_empty]
  have hchanged : hits test₀ (explore (behind test₀ next₀) n start ∅) =
      Changed test₀ next₀ start := by
    ext y
    simp only [hits, Changed, Set.mem_ofPred_eq, mem_explore hV hsearch hfuel' y]
    simp
  rwa [← hchanged]

end
end Spread

/-! ### A stack without memory -/

/-- The loop; it is undefined where the bound `n` on the pops does not suffice. -/
def sweep (act : σ → α → σ) (next : σ → α → List α) : Nat → List α → σ → Option σ
  | _, [], s => some s
  | 0, _ :: _, _ => none
  | n + 1, x :: stack, s => sweep act next n ((next s x).reverse ++ stack) (act s x)

/-- The vertices behind those of a stack, these included. -/
def Swept (next₀ : α → List α) (stack : List α) : Set α :=
  {y | ∃ x ∈ stack, ReflTransGen (fun a b => b ∈ next₀ a) x y}

variable {act : σ → α → σ} {next : σ → α → List α} {next₀ : α → List α} {I : Set α → σ → Prop}

theorem swept_cons (next₀ : α → List α) (x : α) (stack : List α) (A : Set α) :
    insert x A ∪ Swept next₀ ((next₀ x).reverse ++ stack) = A ∪ Swept next₀ (x :: stack) := by
  ext y
  simp only [Swept, Set.mem_union, Set.mem_insert_iff, Set.mem_ofPred_eq, List.mem_append,
    List.mem_reverse, List.mem_cons, or_and_right, exists_or]
  constructor
  · rintro ((rfl | hy) | ⟨z, hz, hpath⟩ | hy)
    · exact .inr (.inl ⟨y, rfl, .refl⟩)
    · exact .inl hy
    · exact .inr (.inl ⟨x, rfl, .head hz hpath⟩)
    · exact .inr (.inr hy)
  · rintro (hy | ⟨_, rfl, hpath⟩ | hy)
    · exact .inl (.inr hy)
    · rcases hpath.cases_head with rfl | ⟨z, hz, hpath⟩
      · exact .inl (.inl rfl)
      · exact .inr (.inl ⟨z, hz, hpath⟩)
    · exact .inr (.inr hy)

/-- Whenever the loop ends it has changed everything behind the stack. -/
theorem sweep_some (hnext : ∀ {A s x}, I A s → next s x = next₀ x)
    (hact : ∀ {A s x}, I A s → I (insert x A) (act s x)) {stack : List α} {s' : σ}
    (h : sweep act next n stack s = some s') (hs : I A s) : I (A ∪ Swept next₀ stack) s' := by
  induction n generalizing stack A s with
  | zero =>
    cases stack with
    | nil =>
      cases h
      simpa [Swept] using hs
    | cons x stack => cases h
  | succ n ih =>
    cases stack with
    | nil =>
      cases h
      simpa [Swept] using hs
    | cons x stack =>
      rw [sweep, hnext hs] at h
      rw [← swept_cons]
      exact ih h (hact hs)

/-- Where a vertex costs more than all that lies behind it, the cost of the stack is
enough fuel. -/
theorem sweep_ends (hnext : ∀ {A s x}, I A s → next s x = next₀ x)
    (hact : ∀ {A s x}, I A s → I (insert x A) (act s x)) {cost : α → Nat}
    (hcost : ∀ x, ((next₀ x).map cost).sum < cost x) {stack : List α} (hs : I A s)
    (hfuel : (stack.map cost).sum ≤ n) : ∃ s', sweep act next n stack s = some s' := by
  induction n generalizing stack A s with
  | zero =>
    cases stack with
    | nil => exact ⟨s, rfl⟩
    | cons x stack =>
      have hx := hcost x
      rw [List.map_cons, List.sum_cons] at hfuel
      omega
  | succ n ih =>
    cases stack with
    | nil => exact ⟨s, rfl⟩
    | cons x stack =>
      have hx := hcost x
      rw [List.map_cons, List.sum_cons] at hfuel
      rw [sweep, hnext hs]
      refine ih (hact hs) ?_
      rw [map_append, sum_append, map_reverse, sum_reverse]
      omega

/-- Such a cost, where heights fall along the edges. -/
theorem sum_pow_lt {m : Nat} {height : α → Nat} {x : α} {l : List α} (hlen : l.length ≤ m)
    (hht : ∀ y ∈ l, height y < height x) :
    (l.map fun y => (m + 1) ^ height y).sum < (m + 1) ^ height x := by
  cases l with
  | nil => exact Nat.pow_pos m.succ_pos
  | cons y l =>
    obtain ⟨k, hk⟩ := Nat.exists_eq_succ_of_ne_zero (Nat.ne_zero_of_lt (hht y mem_cons_self))
    calc _ ≤ (y :: l).length * (m + 1) ^ k := by
          rw [← length_map fun y => (m + 1) ^ height y, ← smul_eq_mul]
          refine sum_le_card_nsmul _ _ (forall_mem_map.mpr fun z hz => ?_)
          exact Nat.pow_le_pow_right m.succ_pos (Nat.le_of_lt_succ (hk ▸ hht z hz))
      _ ≤ m * (m + 1) ^ k := Nat.mul_le_mul_right _ hlen
      _ < (m + 1) ^ k * (m + 1) := by
          rw [Nat.mul_succ, Nat.mul_comm]
          exact Nat.lt_add_of_pos_right (Nat.pow_pos m.succ_pos)
      _ = (m + 1) ^ height x := by rw [hk, Nat.pow_succ]

end Lithium.Lib
