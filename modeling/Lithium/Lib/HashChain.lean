import Mathlib.Tactic.Common

/-!
# Chains of items that name their predecessor

An item has a hash and carries the hash of the item before it. A list of items
is *linked* to a hash if the first item carries that hash and every other item
that of its neighbour. Along a linked list some items can be *sampled*, chosen
by their position; two walks along one list see the same samples, also if they
stop and resume at different places.
-/

namespace Lithium.Lib
variable {α β H : Type}

section Linked
variable (prev hash : α → H)

/-- Each item carries the hash of the one before it. -/
def Linked : H → List α → Prop
  | _, [] => True
  | h, x :: xs => prev x = h ∧ Linked (hash x) xs

/-- The hash that the next item of a chain has to carry. -/
def chainTip : H → List α → H
  | h, [] => h
  | _, x :: xs => chainTip (hash x) xs

variable {prev hash}

theorem linked_cons {h : H} {x : α} {xs : List α} :
    Linked prev hash h (x :: xs) ↔ prev x = h ∧ Linked prev hash (hash x) xs := Iff.rfl

theorem linked_append {h : H} {xs ys : List α} : Linked prev hash h (xs ++ ys) ↔
      Linked prev hash h xs ∧ Linked prev hash (chainTip hash h xs) ys := by
  induction xs generalizing h with
  | nil => simp [Linked, chainTip]
  | cons x xs ih => simp [Linked, chainTip, ih, and_assoc]

theorem Linked.of_prefix {h : H} {xs ys : List α} (hpre : xs <+: ys) (hys : Linked prev hash h ys) :
    Linked prev hash h xs := by
  obtain ⟨zs, rfl⟩ := hpre
  exact (linked_append.mp hys).1

theorem chainTip_append (h : H) (xs ys : List α) :
    chainTip hash h (xs ++ ys) = chainTip hash (chainTip hash h xs) ys := by
  induction xs generalizing h with
  | nil => rfl
  | cons x xs ih => exact ih (hash x)

end Linked

section Samples
variable (pick : Int → Bool) (bit : α → β)

/-- The samples of a list that starts after position `n`. -/
def samples : Int → List α → List β
  | _, [] => []
  | n, x :: xs => if pick (n + 1) then bit x :: samples (n + 1) xs else samples (n + 1) xs

variable {pick bit}

theorem samples_cons_of_pick {n : Int} (x : α) (xs : List α) (h : pick (n + 1) = true) :
    samples pick bit n (x :: xs) = bit x :: samples pick bit (n + 1) xs := by
  rw [samples, if_pos h]

theorem samples_cons_of_not_pick {n : Int} (x : α) (xs : List α) (h : pick (n + 1) = false) :
    samples pick bit n (x :: xs) = samples pick bit (n + 1) xs := by
  rw [samples, if_neg (by simp [h])]

theorem samples_append (n : Int) (xs ys : List α) : samples pick bit n (xs ++ ys) =
      samples pick bit n xs ++ samples pick bit (n + xs.length) ys := by
  induction xs generalizing n with
  | nil => simp [samples]
  | cons x xs ih =>
    have hlen : n + ((x :: xs).length : Int) = n + 1 + xs.length := by
      rw [List.length_cons]
      omega
    cases hpick : pick (n + 1) with
    | true =>
      rw [List.cons_append, samples_cons_of_pick _ _ hpick, samples_cons_of_pick _ _ hpick, ih,
        hlen, List.cons_append]
    | false =>
      rw [List.cons_append, samples_cons_of_not_pick _ _ hpick,
        samples_cons_of_not_pick _ _ hpick, ih, hlen]

end Samples
end Lithium.Lib
