import Mathlib.Tactic.SplitIfs

/-!
# Computations with fewer checks

Two computations that differ in the checks they make only: where the first one succeeds
the second has the same result. Whether failures may be lost on the way is a parameter.
If they may not, the two results are the same.
-/

namespace Lithium.Lib
variable {ε α β : Type} {lost : Prop} {x y : Except ε α}

/-- The second result is the first, which may only be lost if it is a failure. -/
def Loosens (lost : Prop) (x y : Except ε α) : Prop := y = x ∨ lost ∧ ∃ e, x = .error e

/-- The second test is the first, which may only be dropped where failures may be lost. -/
def LoosensTest (lost : Prop) (c c' : Bool) : Prop := c' = c ∨ lost ∧ c = true ∧ c' = false

namespace Loosens

theorem refl (x : Except ε α) : Loosens lost x x := .inl rfl

theorem ok {a : α} (h : Loosens lost x y) (hx : x = .ok a) : y = .ok a := by
  rcases h with rfl | ⟨-, e, he⟩
  · exact hx
  · cases he.symm.trans hx

theorem eq (h : Loosens False x y) : y = x := h.resolve_right fun h => h.1

/-- What is done with two results: on a value the same value is worked on. -/
theorem bind {f g : α → Except ε β} (h : Loosens lost x y) (hf : ∀ a, Loosens lost (f a) (g a)) :
    Loosens lost (x >>= f) (y >>= g) := by
  rcases h with rfl | ⟨hlost, e, rfl⟩
  · cases y with
    | error e => exact refl _
    | ok a => exact hf a
  · exact .inr ⟨hlost, e, rfl⟩

theorem ite {c : Prop} [Decidable c] {x' y' : Except ε α} (h : Loosens lost x y)
    (h' : Loosens lost x' y') : Loosens lost (if c then x else x') (if c then y else y') := by
  split_ifs
  · exact h
  · exact h'

theorem test {c c' : Bool} {e : ε} (hc : LoosensTest lost c c') (h : Loosens lost x y) :
    Loosens lost (if c then .error e else x) (if c' then .error e else y) := by
  rcases hc with rfl | ⟨hlost, rfl, -⟩
  · exact ite (refl _) h
  · exact .inr ⟨hlost, e, rfl⟩

/-- A check that is made under a flag only. -/
theorem check {x y : Except ε Unit} {c c' : Bool} (hc : LoosensTest lost c c')
    (h : Loosens lost x y) : Loosens lost (if c then x else .ok ()) (if c' then y else .ok ()) := by
  rcases hc with rfl | ⟨hlost, rfl, rfl⟩
  · exact ite h (refl _)
  · cases x with
    | error e => exact .inr ⟨hlost, e, rfl⟩
    | ok u => exact refl _

end Loosens

namespace LoosensTest
variable {c c' : Bool}

theorem and_right (h : LoosensTest lost c c') (d : Bool) : LoosensTest lost (c && d) (c' && d) := by
  rcases h with rfl | ⟨hlost, rfl, rfl⟩
  · exact .inl rfl
  · cases d with
    | false => exact .inl rfl
    | true => exact .inr ⟨hlost, rfl, rfl⟩

theorem passes (h : LoosensTest lost c c') (hc : ¬ c = true) : ¬ c' = true := by
  rcases h with rfl | ⟨-, h, -⟩
  · exact hc
  · exact absurd h hc

theorem and_left (h : LoosensTest lost c c') (d : Bool) : LoosensTest lost (d && c) (d && c') := by
  rw [Bool.and_comm d, Bool.and_comm d]
  exact h.and_right d

end LoosensTest
end Lithium.Lib
