import Mathlib.Algebra.Order.Ring.Nat
import Mathlib.Data.List.Induction
import Mathlib.Data.Set.Function

/-!
# Paths of hashes

A proof that a digest lies below a root is the list of siblings met on the way
up. This file is about that way up over any type of digests and any binary
hash `node`. Nothing is assumed about `node` as a whole; a statement that needs
freedom from collisions asks for it on the finitely many pairs that the paths
in question really hash, which is a satisfiable request of a compressing
function where injectivity is not.
-/

namespace Lithium.Lib
variable {D : Type} (node : D → D → D)

/-- One level up. The flag says that the sibling stands on the left. -/
def climbStep (h : D) (s : Bool × D) : D := if s.1 then node s.2 h else node h s.2

/-- The root reached from a digest along a path, nearest sibling first. -/
def climb (h : D) (path : List (Bool × D)) : D := path.foldl (climbStep node) h

/-- The pair that one level hashes. -/
def stepPair (h : D) (s : Bool × D) : D × D := if s.1 then (s.2, h) else (h, s.2)

/-- The pairs that are hashed along a path. -/
def climbPairs (h : D) : List (Bool × D) → List (D × D)
  | [] => []
  | s :: path => stepPair h s :: climbPairs (climbStep node h s) path

variable {node}

theorem climbStep_eq (h : D) (s : Bool × D) :
    climbStep node h s = node (stepPair h s).1 (stepPair h s).2 := by
  unfold climbStep stepPair
  split <;> rfl

@[simp] theorem climb_append (h : D) (path : List (Bool × D)) (s : Bool × D) :
    climb node h (path ++ [s]) = climbStep node (climb node h path) s := by
  simp [climb]

theorem climbPairs_append (h : D) (path : List (Bool × D)) (s : Bool × D) :
    climbPairs node h (path ++ [s]) =
      climbPairs node h path ++ [stepPair (climb node h path) s] := by
  induction path generalizing h with
  | nil => rfl
  | cons t path ih => simp [climbPairs, ih, climb]

section Binding
variable {S : Set (D × D)} (hinj : Set.InjOn (fun p : D × D => node p.1 p.2) S)

include hinj

/-- Two steps to the same digest, with the siblings on the same side, start
from the same digest and use the same sibling. -/
theorem climbStep_inj {a b : D} {s t : Bool × D} (hside : s.1 = t.1) (ha : stepPair a s ∈ S)
    (hb : stepPair b t ∈ S) (h : climbStep node a s = climbStep node b t) : a = b ∧ s = t := by
  rw [climbStep_eq, climbStep_eq] at h
  have hpair := hinj ha hb h
  obtain ⟨side, sibling⟩ := s
  obtain ⟨side', sibling'⟩ := t
  unfold stepPair at hpair
  cases side <;> simp_all

/-- Along equally long paths with the same sides, the root determines the
digest at the bottom and every sibling. -/
theorem climb_inj {a b : D} {p q : List (Bool × D)} (hlen : p.length = q.length)
    (hsides : p.map Prod.fst = q.map Prod.fst) (hp : ∀ x ∈ climbPairs node a p, x ∈ S)
    (hq : ∀ x ∈ climbPairs node b q, x ∈ S) (h : climb node a p = climb node b q) :
    a = b ∧ p = q := by
  induction p generalizing a b q with
  | nil =>
    obtain rfl : q = [] := List.length_eq_zero_iff.mp hlen.symm
    exact ⟨h, rfl⟩
  | cons s p ih =>
    cases q with
    | nil => simp at hlen
    | cons t q =>
      simp only [List.map_cons, List.cons.injEq] at hsides
      simp only [climbPairs, List.mem_cons, forall_eq_or_imp] at hp hq
      obtain ⟨hstep, rfl⟩ := ih (by simpa using hlen) hsides.2 hp.2 hq.2 h
      obtain ⟨rfl, rfl⟩ := climbStep_inj hinj hsides.1 hp.1 hq.1 hstep
      exact ⟨rfl, rfl⟩

/-- If the digests at the bottom are not themselves hashes of pairs, the
lengths need not be known: paths that always have the sibling on the same side
are determined by their root. -/
theorem climb_inj_of_leaf {a b : D} {p q : List (Bool × D)} {side : Bool}
    (hpside : ∀ s ∈ p, s.1 = side) (hqside : ∀ s ∈ q, s.1 = side)
    (ha : ∀ x ∈ S, node x.1 x.2 ≠ a) (hb : ∀ x ∈ S, node x.1 x.2 ≠ b)
    (hp : ∀ x ∈ climbPairs node a p, x ∈ S) (hq : ∀ x ∈ climbPairs node b q, x ∈ S)
    (h : climb node a p = climb node b q) : a = b ∧ p = q := by
  induction p using List.reverseRec generalizing q with
  | nil =>
    cases q using List.reverseRec with
    | nil => exact ⟨h, rfl⟩
    | append_singleton q t =>
      rw [climb_append, climbStep_eq] at h
      rw [climbPairs_append] at hq
      exact absurd h.symm (ha _ (hq _ (by simp)))
  | append_singleton p s ih =>
    rw [climbPairs_append] at hp
    cases q using List.reverseRec with
    | nil =>
      rw [climb_append, climbStep_eq] at h
      exact absurd h (hb _ (hp _ (by simp)))
    | append_singleton q t =>
      rw [climb_append, climb_append] at h
      rw [climbPairs_append] at hq
      have hside : s.1 = t.1 := by
        rw [hpside s (by simp), hqside t (by simp)]
      obtain ⟨hlow, rfl⟩ := climbStep_inj hinj hside (hp _ (by simp)) (hq _ (by simp)) h
      obtain ⟨rfl, rfl⟩ := ih (fun x hx => hpside x (by simp [hx]))
        (fun x hx => hqside x (by simp [hx])) (fun x hx => hp x (by simp [hx]))
        (fun x hx => hq x (by simp [hx])) hlow
      exact ⟨rfl, rfl⟩

end Binding
end Lithium.Lib
