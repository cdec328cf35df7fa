import Mathlib.Data.List.Dedup
import Mathlib.Order.Nat

/-!
# Things that wait for their predecessors

Things arrive one after the other, in any order, and each may have a predecessor. A
thing is linked as soon as all its predecessors have arrived; until then it waits
under the name of its predecessor. Linking a thing sets those free that waited for
it, which are put into a queue.

Which things are linked and which wait depends on what has arrived, not on the
order of the arrivals. Predecessors are linked before the things that follow.
-/

namespace Lithium.Lib
open List Prod
variable {K : Type}

structure Waiting (K : Type) where
  /-- in the order in which they were linked -/
  linked : List K
  /-- predecessors with the things that wait for them -/
  waiting : List (K × K)

namespace Waiting

/-- The thing and all its predecessors have arrived. -/
inductive Complete (parent : K → Option K) (arrived : List K) : K → Prop
  | root {k : K} : k ∈ arrived → parent k = none → Complete parent arrived k
  | next {k p : K} : k ∈ arrived → parent k = some p → Complete parent arrived p →
      Complete parent arrived k

variable {parent : K → Option K} {k : K}

theorem Complete.arrived {arrived : List K} (h : Complete parent arrived k) : k ∈ arrived := by
  cases h with
  | root hk _ | next hk _ _ => exact hk

variable {arrived arrived' queue : List K}

theorem Complete.mono (hsub : ∀ k ∈ arrived, k ∈ arrived') (h : Complete parent arrived k) :
    Complete parent arrived' k := by
  induction h with
  | root hk hpar => exact .root (hsub _ hk) hpar
  | next hk hpar _ ih => exact .next (hsub _ hk) hpar ih

/-- The order of the arrivals does not matter. -/
theorem complete_congr (hmem : ∀ k, k ∈ arrived ↔ k ∈ arrived') :
    Complete parent arrived k ↔ Complete parent arrived' k :=
  ⟨.mono fun k => (hmem k).mp, .mono fun k => (hmem k).mpr⟩

variable [DecidableEq K]

/-- Works off a queue of things that can be linked; `n` bounds how many. -/
def settle : Nat → List K → Waiting K → Waiting K
  | 0, _, w => w
  | _ + 1, [], w => w
  | n + 1, k :: queue, w =>
    settle n (queue ++ (w.waiting.filter fun p => p.1 == k).map snd)
      ⟨w.linked ++ [k], w.waiting.filter fun p => p.1 != k⟩

def arrive (parent : K → Option K) (w : Waiting K) (k : K) : Waiting K :=
  match parent k with
  | none => settle (w.waiting.length + 1) [k] w
  | some p =>
    if p ∈ w.linked then settle (w.waiting.length + 1) [k] w
    else { w with waiting := w.waiting ++ [(p, k)] }

/-- Where things are while a queue is worked off. -/
structure Settled (parent : K → Option K) (arrived queue : List K) (w : Waiting K) : Prop where
  nodup : (w.linked ++ queue).Nodup
  waitingNodup : w.waiting.Nodup
  known : ∀ k ∈ w.linked ++ queue, k ∈ arrived
  /-- predecessors come first -/
  order : ∀ k ∈ w.linked, ∀ p, parent k = some p → p ∈ w.linked ∧
    w.linked.idxOf p < w.linked.idxOf k
  free : ∀ k ∈ queue, ∀ p, parent k = some p → p ∈ w.linked
  waiting : ∀ p k, (p, k) ∈ w.waiting ↔ k ∈ arrived ∧ parent k = some p ∧ k ∉ w.linked ++ queue
  /-- nothing waits without a reason -/
  blocked : ∀ k ∈ arrived, k ∉ w.linked ++ queue → ∃ p, parent k = some p ∧ p ∉ w.linked

variable {w : Waiting K}

theorem mem_freed {waiting : List (K × K)} {x : K} :
    x ∈ (waiting.filter fun p => p.1 == k).map snd ↔ (k, x) ∈ waiting := by
  rw [mem_map]
  constructor
  · rintro ⟨⟨p, y⟩, hmem, rfl⟩
    obtain ⟨hin, hp⟩ := mem_filter.mp hmem
    obtain rfl : p = k := beq_iff_eq.mp hp
    exact hin
  · exact fun h => ⟨(k, x), mem_filter.mpr ⟨h, beq_self_eq_true k⟩, rfl⟩

/-- One thing is linked. -/
theorem Settled.step (h : Settled parent arrived (k :: queue) w) :
    Settled parent arrived (queue ++ (w.waiting.filter fun p => p.1 == k).map snd)
      ⟨w.linked ++ [k], w.waiting.filter fun p => p.1 != k⟩ := by
  have hnew : k ∉ w.linked := fun hk => by
    have := h.nodup
    rw [nodup_append] at this
    exact this.2.2 k hk k mem_cons_self rfl
  have hmove : ∀ x, x ∈ (w.linked ++ [k]) ++ (queue ++
      (w.waiting.filter fun p => p.1 == k).map snd) ↔
        x ∈ w.linked ++ k :: queue ∨ (k, x) ∈ w.waiting := by
    simp only [mem_append, mem_cons, mem_freed, not_mem_nil, or_false]
    tauto
  refine ⟨?_, h.waitingNodup.filter _, fun x hx => ?_, fun x hx p hp => ?_, fun x hx p hp => ?_,
    fun p x => ?_, fun x hx hnot => ?_⟩
  · have hfreed : ((w.waiting.filter fun p => p.1 == k).map snd).Nodup := by
      refine (h.waitingNodup.filter _).map_on fun a ha b hb hab => ?_
      have ha := beq_iff_eq.mp (mem_filter.mp ha).2
      have hb := beq_iff_eq.mp (mem_filter.mp hb).2
      exact Prod.ext (ha.trans hb.symm) hab
    rw [← append_assoc, append_assoc w.linked, singleton_append, nodup_append]
    refine ⟨h.nodup, hfreed, fun x hx y hy hxy => ?_⟩
    subst hxy
    exact ((h.waiting k x).mp (mem_freed.mp hy)).2.2 hx
  · rcases (hmove x).mp hx with hx | hx
    · exact h.known x hx
    · exact ((h.waiting k x).mp hx).1
  · rcases mem_append.mp hx with hx | hx
    · obtain ⟨hmem, hlt⟩ := h.order x hx p hp
      refine ⟨mem_append_left _ hmem, ?_⟩
      rwa [idxOf_append_of_mem hmem, idxOf_append_of_mem hx]
    · obtain rfl := mem_singleton.mp hx
      have hmem := h.free x mem_cons_self p hp
      refine ⟨mem_append_left _ hmem, ?_⟩
      rw [idxOf_append_of_mem hmem, idxOf_append_of_notMem hnew]
      exact Nat.lt_of_lt_of_le (idxOf_lt_length_of_mem hmem) (Nat.le_add_right _ _)
  · rcases mem_append.mp hx with hx | hx
    · exact mem_append_left _ (h.free x (mem_cons_of_mem _ hx) p hp)
    · obtain ⟨-, hpar, -⟩ := (h.waiting k x).mp (mem_freed.mp hx)
      obtain rfl := Option.some.inj (hpar.symm.trans hp)
      exact mem_append_right _ mem_cons_self
  · rw [mem_filter, h.waiting, hmove, bne_iff_ne, h.waiting]
    constructor
    · rintro ⟨⟨harr, hpar, hnot⟩, hne⟩
      refine ⟨harr, hpar, ?_⟩
      rintro (hin | ⟨-, hk, -⟩)
      · exact hnot hin
      · exact hne (Option.some.inj (hpar.symm.trans hk))
    · rintro ⟨harr, hpar, hnot⟩
      rw [not_or] at hnot
      refine ⟨⟨harr, hpar, hnot.1⟩, ?_⟩
      rintro rfl
      exact hnot.2 ⟨harr, hpar, hnot.1⟩
  · rw [hmove, not_or] at hnot
    obtain ⟨p, hpar, hp⟩ := h.blocked x hx hnot.1
    refine ⟨p, hpar, fun hmem => ?_⟩
    rcases mem_append.mp hmem with hmem | hmem
    · exact hp hmem
    · obtain rfl := mem_singleton.mp hmem
      exact hnot.2 ((h.waiting p x).mpr ⟨hx, hpar, hnot.1⟩)

/-- With enough fuel the queue is worked off: what is freed was waiting before. -/
theorem Settled.settle {n : Nat} (h : Settled parent arrived queue w)
    (hn : queue.length + w.waiting.length ≤ n) : Settled parent arrived [] (settle n queue w) := by
  induction n generalizing queue w with
  | zero =>
    obtain rfl := length_eq_zero_iff.mp (by omega : queue.length = 0)
    exact h
  | succ n ih =>
    cases queue with
    | nil => exact h
    | cons k queue =>
      refine ih h.step ?_
      have hspl := length_eq_length_filter_add (l := w.waiting) fun p => p.1 == k
      have hbne : (w.waiting.filter fun p => !(p.1 == k)) = w.waiting.filter fun p =>
        p.1 != k := rfl
      rw [hbne] at hspl
      rw [length_cons] at hn
      rw [length_append, length_map]
      dsimp only
      omega

/-- What is linked stays where it is. -/
theorem linked_settle (n : Nat) (queue : List K) (w : Waiting K) :
    w.linked <+: (settle n queue w).linked := by
  induction n generalizing queue w with
  | zero => exact prefix_rfl
  | succ n ih =>
    cases queue with
    | nil => exact prefix_rfl
    | cons k queue =>
      have hnext := ih (queue ++ (w.waiting.filter fun p => p.1 == k).map snd)
        ⟨w.linked ++ [k], w.waiting.filter fun p => p.1 != k⟩
      exact (prefix_append w.linked [k]).trans hnext

theorem linked_arrive (parent : K → Option K) (w : Waiting K) (k : K) :
    w.linked <+: (w.arrive parent k).linked := by
  rw [arrive]
  split
  · exact linked_settle _ _ _
  · split_ifs
    · exact linked_settle _ _ _
    · exact prefix_rfl

theorem settled_empty : Settled parent [] [] ⟨[], []⟩ := by
  refine ⟨nodup_nil, nodup_nil, ?_, ?_, ?_, ?_, ?_⟩ <;> simp

section
variable (h : Settled parent arrived [] w)

include h

/-- Something new is put into the queue when its predecessor is linked. -/
theorem Settled.enqueue (hk : k ∉ arrived) (hfree : ∀ p, parent k = some p → p ∈ w.linked) :
    Settled parent (k :: arrived) [k] w := by
  have hlink : ∀ x ∈ w.linked, x ∈ arrived := fun x hx => h.known x (mem_append_left _ hx)
  have hmem : ∀ x, x ∈ w.linked ++ [k] ↔ x ∈ w.linked ∨ x = k := by simp
  refine ⟨?_, h.waitingNodup, fun x hx => ?_, h.order, fun x hx p hp => ?_, fun p x => ?_,
    fun x hx hnot => ?_⟩
  · have hnd := h.nodup
    rw [append_nil] at hnd
    rw [nodup_append]
    refine ⟨hnd, nodup_singleton k, fun x hx y hy hxy => hk ?_⟩
    rw [← mem_singleton.mp hy, ← hxy]
    exact hlink x hx
  · rcases (hmem x).mp hx with hx | rfl
    · exact mem_cons_of_mem _ (hlink x hx)
    · exact mem_cons_self
  · obtain rfl := mem_singleton.mp hx
    exact hfree p hp
  · rw [h.waiting, hmem, append_nil, mem_cons]
    constructor
    · rintro ⟨harr, hpar, hnot⟩
      refine ⟨Or.inr harr, hpar, ?_⟩
      rintro (hin | rfl)
      · exact hnot hin
      · exact hk harr
    · rintro ⟨harr, hpar, hnot⟩
      rw [not_or] at hnot
      exact ⟨harr.resolve_left hnot.2, hpar, hnot.1⟩
  · rw [hmem, not_or] at hnot
    refine h.blocked x ((mem_cons.mp hx).resolve_left hnot.2) ?_
    rw [append_nil]
    exact hnot.1

/-- Something new waits when its predecessor is not linked. -/
theorem Settled.wait {p : K} (hk : k ∉ arrived) (hpar : parent k = some p) (hp : p ∉ w.linked) :
    Settled parent (k :: arrived) [] { w with waiting := w.waiting ++ [(p, k)] } := by
  have hnew : k ∉ w.linked := fun hmem => hk (h.known k (mem_append_left _ hmem))
  refine ⟨h.nodup, ?_, fun x hx => ?_, h.order, fun x hx => ?_, fun p' x => ?_, fun x hx hnot => ?_⟩
  · rw [nodup_append]
    refine ⟨h.waitingNodup, nodup_singleton _, fun x hx y hy hxy => ?_⟩
    obtain rfl := mem_singleton.mp hy
    subst hxy
    exact hk ((h.waiting p k).mp hx).1
  · exact mem_cons_of_mem _ (h.known x hx)
  · cases hx
  · rw [mem_append, h.waiting, mem_singleton, mem_cons, Prod.mk.injEq, append_nil]
    constructor
    · rintro (⟨harr, hp', hnot⟩ | ⟨rfl, rfl⟩)
      · exact ⟨Or.inr harr, hp', hnot⟩
      · exact ⟨Or.inl rfl, hpar, hnew⟩
    · rintro ⟨rfl | harr, hp', hnot⟩
      · exact Or.inr ⟨Option.some.inj (hp'.symm.trans hpar), rfl⟩
      · exact Or.inl ⟨harr, hp', hnot⟩
  · rcases mem_cons.mp hx with rfl | hx
    · exact ⟨p, hpar, hp⟩
    · exact h.blocked x hx hnot

/-- Something new arrives. -/
theorem Settled.arrive (hk : k ∉ arrived) :
    Settled parent (k :: arrived) [] (w.arrive parent k) := by
  have hq : (∀ p, parent k = some p → p ∈ w.linked) →
      Settled parent (k :: arrived) [] (Waiting.settle (w.waiting.length + 1) [k] w) := fun hfree =>
    (h.enqueue hk hfree).settle (by simp [Nat.add_comm])
  rw [Waiting.arrive]
  cases hpar : parent k with
  | none => exact hq fun p hp => nomatch hpar.symm.trans hp
  | some p =>
    dsimp only
    split_ifs with hp
    · refine hq fun p' hp' => ?_
      obtain rfl := Option.some.inj (hpar.symm.trans hp')
      exact hp
    · exact h.wait hk hpar hp

/-- What is linked when nothing is left to do. -/
theorem Settled.mem_linked_iff : k ∈ w.linked ↔ Complete parent arrived k := by
  constructor
  · intro hk
    -- predecessors have smaller positions
    induction hi : w.linked.idxOf k using Nat.strongRecOn generalizing k with
    | ind i ih =>
      have harr := h.known k (mem_append_left _ hk)
      cases hpar : parent k with
      | none => exact .root harr hpar
      | some p =>
        obtain ⟨hp, hlt⟩ := h.order k hk p hpar
        exact .next harr hpar (ih _ (hi ▸ hlt) hp rfl)
  · intro hk
    induction hk with
    | @root k harr hpar =>
      by_contra hnot
      obtain ⟨p, hp, -⟩ := h.blocked k harr (by rwa [append_nil])
      exact nomatch hpar.symm.trans hp
    | @next k p harr hpar _ ih =>
      by_contra hnot
      obtain ⟨p', hp', hnot'⟩ := h.blocked k harr (by rwa [append_nil])
      obtain rfl := Option.some.inj (hpar.symm.trans hp')
      exact hnot' ih

/-- What waits when nothing is left to do. -/
theorem Settled.mem_waiting_iff {p : K} :
    (p, k) ∈ w.waiting ↔ k ∈ arrived ∧ parent k = some p ∧ ¬ Complete parent arrived k := by
  rw [h.waiting, append_nil, h.mem_linked_iff]

end
end Waiting
end Lithium.Lib
