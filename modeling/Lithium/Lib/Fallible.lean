import Mathlib.Tactic.Common

/-!
# Computations that may fail

How a sequence of computations in `Except` ends, in terms of how its parts end, and
the same for a loop over a list.
-/

namespace Lithium.Lib
variable {α β ε : Type} {x : Except ε α} {b : β}

@[simp] theorem ok_bind (a : α) (f : α → Except ε β) : Except.ok a >>= f = f a := rfl

@[simp] theorem error_bind (e : ε) (f : α → Except ε β) : Except.error e >>= f = .error e := rfl

theorem bind_eq_ok {f : α → Except ε β} : x >>= f = .ok b ↔ ∃ a, x = .ok a ∧ f a = .ok b := by
  cases x with
  | error e | ok a => simp [bind, Except.bind]

theorem bind_eq_error {f : α → Except ε β} {e : ε} :
    x >>= f = .error e ↔ x = .error e ∨ ∃ a, x = .ok a ∧ f a = .error e := by
  cases x with
  | error e | ok a => simp [bind, Except.bind]

theorem map_eq_ok {f : α → β} : x.map f = .ok b ↔ ∃ a, x = .ok a ∧ f a = b := by
  cases x <;> simp [Except.map]

theorem map_eq_error {f : α → β} {e : ε} : x.map f = .error e ↔ x = .error e := by
  cases x <;> simp [Except.map]

/-- What a computation that is evaluated as a whole came to. -/
theorem exists_of_toOption_map {f : α → β} (h : (x.map f).toOption = some b) :
    ∃ a, x = .ok a ∧ f a = b := by
  cases x with
  | error e => cases h
  | ok a => exact ⟨a, rfl, Option.some.inj h⟩

variable {f : β → α → Except ε β}

theorem foldlM_congr {g : β → α → Except ε β} {l : List α} (h : ∀ b, ∀ a ∈ l, f b a = g b a)
    (b : β) : l.foldlM f b = l.foldlM g b := by
  induction l generalizing b with
  | nil => rfl
  | cons a l ih =>
    rw [List.foldlM_cons, List.foldlM_cons, h b a List.mem_cons_self]
    congr 1
    funext b'
    exact ih (fun b a ha => h b a (List.mem_cons_of_mem _ ha)) b'

/-- How a computation ends: with a result, or with an error, that is as said. -/
def Ends (Q : α → Prop) (E : ε → Prop) (x : Except ε α) : Prop :=
  (∀ a, x = .ok a → Q a) ∧ ∀ e, x = .error e → E e

section
variable {Q : α → Prop} {E : ε → Prop}

theorem ends_ok {a : α} (h : Q a) : Ends Q E (.ok a) := by
  refine ⟨fun a' ha' => ?_, nofun⟩
  cases ha'
  exact h

theorem ends_error {e : ε} (h : E e) : Ends Q E (.error e) := by
  refine ⟨nofun, fun e' he' => ?_⟩
  cases he'
  exact h

theorem Ends.bind {R : β → Prop} {g : α → Except ε β} (h : Ends Q E x)
    (hg : ∀ a, Q a → Ends R E (g a)) : Ends R E (x >>= g) := by
  refine ⟨fun b hb => ?_, fun e he => ?_⟩
  · obtain ⟨a, ha, hb⟩ := bind_eq_ok.mp hb
    exact (hg a (h.1 a ha)).1 b hb
  · rcases bind_eq_error.mp he with he | ⟨a, ha, he⟩
    · exact h.2 e he
    · exact (hg a (h.1 a ha)).2 e he

end

/-- A loop keeps what its turns keep, and fails only as they do; `I` may speak about the
elements that are still to come. -/
theorem ends_foldlM {I : List α → β → Prop} {E : ε → Prop}
    (hstep : ∀ {a l b}, I (a :: l) b → Ends (I l) E (f b a)) {l : List α} (h : I l b) :
    Ends (I []) E (l.foldlM f b) := by
  induction l generalizing b with
  | nil => exact ends_ok h
  | cons a l ih => exact (hstep h).bind fun b' hb' => ih hb'

end Lithium.Lib
