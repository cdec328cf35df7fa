import Mathlib.Algebra.Order.Ring.Nat
import Mathlib.Data.List.Induction

/-!
# Runs of labelled transition systems

A system is a relation between a state, an input and a next state. A run is a
finite sequence of inputs with the states it leads to; what holds of the first
state and is kept by every step holds at the end of every run, and so in every
state on the way.
-/

namespace Lithium.Lib
open List
variable {σ ι : Type}

/-- The inputs lead from the first state to the second. -/
inductive Run (step : σ → ι → σ → Prop) (s : σ) : List ι → σ → Prop
  | nil : Run step s [] s
  | snoc {t u : σ} {is : List ι} {i : ι} : Run step s is t → step t i u → Run step s (is ++ [i]) u

variable {step : σ → ι → σ → Prop} {s t : σ}

theorem run_nil_iff : Run step s [] t ↔ t = s := by
  constructor
  · intro h
    generalize his : ([] : List ι) = is at h
    cases h with
    | nil => rfl
    | snoc _ _ => simp at his
  · rintro rfl
    exact .nil

variable {is : List ι}

theorem run_snoc_iff {u : σ} {i : ι} :
    Run step s (is ++ [i]) u ↔ ∃ t, Run step s is t ∧ step t i u := by
  constructor
  · intro h
    generalize his : is ++ [i] = js at h
    cases h with
    | nil => simp at his
    | snoc hrun hlast =>
      obtain ⟨rfl, hi⟩ := append_inj' his rfl
      obtain rfl := singleton_inj.mp hi
      exact ⟨_, hrun, hlast⟩
  · rintro ⟨t, hrun, hlast⟩
    exact hrun.snoc hlast

theorem Run.invariant {I : σ → Prop} (hrun : Run step s is t) (h0 : I s)
    (hstep : ∀ {t i u}, I t → step t i u → I u) : I t := by
  induction hrun with
  | nil => exact h0
  | snoc _ hlast ih => exact hstep ih hlast

theorem Run.imp {step' : σ → ι → σ → Prop} (hrun : Run step s is t)
    (h : ∀ {s i t}, step s i t → step' s i t) : Run step' s is t := by
  induction hrun with
  | nil => exact .nil
  | snoc _ hlast ih => exact ih.snoc (h hlast)

/-- A fold that succeeds is a run, of inputs that are all as they should be. -/
theorem run_of_foldlM {ε : Type} {f : σ → ι → Except ε σ} {ok : ι → Prop} (hok : ∀ i ∈ is, ok i)
    (h : is.foldlM f s = .ok t) : Run (fun s i t => f s i = .ok t ∧ ok i) s is t := by
  induction is using reverseRecOn generalizing t with
  | nil =>
    cases h
    exact .nil
  | append_singleton is i ih =>
    rw [foldlM_append] at h
    cases hrest : is.foldlM f s with
    | error e =>
      rw [hrest] at h
      cases h
    | ok u =>
      rw [hrest] at h
      change (f u i >>= pure) = .ok t at h
      rw [bind_pure] at h
      exact (ih (fun j hj => hok j (mem_append_left _ hj)) hrest).snoc
        ⟨h, hok i (mem_append_right _ (mem_singleton_self i))⟩

theorem run_of_foldlM_some {f : σ → ι → Option σ} (h : is.foldlM f s = some t) :
    Run (fun s i t => f s i = some t) s is t := by
  induction is using reverseRecOn generalizing t with
  | nil =>
    cases h
    exact .nil
  | append_singleton is i ih =>
    rw [foldlM_append] at h
    obtain ⟨u, hu, hlast⟩ := Option.bind_eq_some_iff.mp h
    exact (ih hu).snoc (by simpa using hlast)

end Lithium.Lib
