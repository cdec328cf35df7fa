import Mathlib.Logic.Basic

/-!
# Programs over an interface

A program works on an object through the operations of an interface. It is kept
here apart from the object: a program is the tree of the calls it makes, and an
object is a handler that answers calls and changes its state. The same program
can then be run on different objects, and what is proved about it from the
specification of the operations holds on every object that meets the
specification.

A program ends with a value, it is rejected with an error of its own, or it is
broken off by an exception. An exception may come from an operation, and then
nothing is known about the state in which it leaves the object.
-/

namespace Lithium.Lib

/-- Why a program ended without a value. -/
inductive Failure (X ε : Type) where
  | rejected (e : ε)
  | thrown (x : X)
deriving DecidableEq

inductive Program (X : Type) {Op : Type} (Res : Op → Type) (ε α : Type) where
  | done (r : Except (Failure X ε) α)
  | call (op : Op) (next : Res op → Program X Res ε α)

namespace Program
variable {X Op : Type} {Res : Op → Type} {ε ε' α β σ τ : Type}

def bind : Program X Res ε α → (α → Program X Res ε β) → Program X Res ε β
  | done (.error e), _ => done (.error e)
  | done (.ok a), f => f a
  | call op next, f => call op fun r => (next r).bind f

instance : Monad (Program X Res ε) where
  pure a := done (.ok a)
  bind := bind

/-- One call of an operation. -/
def perform (op : Op) : Program X Res ε (Res op) := call op fun r => done (.ok r)

def reject (e : ε) : Program X Res ε α := done (.error (.rejected e))

def throw (x : X) : Program X Res ε α := done (.error (.thrown x))

/-- Goes on only if a condition holds. -/
def require (c : Bool) (e : ε) : Program X Res ε Unit := if c then done (.ok ()) else reject e

def assert (c : Bool) (x : X) : Program X Res ε Unit := if c then done (.ok ()) else throw x

/-- A rejected program is followed by another one. -/
def handleRejected (p : Program X Res ε α) (f : ε → Program X Res ε' α) : Program X Res ε' α :=
  match p with
  | done (.ok a) => done (.ok a)
  | done (.error (.rejected e)) => f e
  | done (.error (.thrown x)) => throw x
  | call op next => call op fun r => (next r).handleRejected f

def mapError (p : Program X Res ε α) (f : ε → ε') : Program X Res ε' α :=
  p.handleRejected fun e => reject (f e)

def succeeds (p : Program X Res ε α) : Program X Res ε' Bool :=
  (p.bind fun _ => done (.ok true)).handleRejected fun _ => done (.ok false)

/-! ### Running -/

/-- What an object does when one of its operations is called. -/
abbrev Handler (X : Type) {Op : Type} (Res : Op → Type) (σ : Type) :=
  (op : Op) → σ → Except X (Res op) × σ

def run (handle : Handler X Res σ) : Program X Res ε α → σ → Except (Failure X ε) α × σ
  | done r, s => (r, s)
  | call op next, s =>
    match handle op s with
    | (.error x, s) => (.error (.thrown x), s)
    | (.ok r, s) => (next r).run handle s

/-! ### Specifications -/

/-- What operations do, told of abstract states. -/
structure Spec (X : Type) {Op : Type} (Res : Op → Type) (τ : Type) where
  pre : Op → τ → Prop
  post : (op : Op) → τ → Res op → τ → Prop
  throws : Op → τ → X → Prop

/-- The specification allows this outcome of an operation. -/
def Allows (S : Spec X Res τ) (R : σ → τ → Prop) (op : Op) (t : τ) : Except X (Res op) × σ → Prop
  | (.ok r, s') => ∃ t', S.post op t r t' ∧ R s' t'
  | (.error x, _) => S.throws op t x

/-- A handler does what the specification says, through a relation between its
states and the abstract ones. -/
def Implements (handle : Handler X Res σ) (S : Spec X Res τ) (R : σ → τ → Prop) : Prop :=
  ∀ op s t, R s t → S.pre op t → Allows S R op t (handle op s)

/-- The weakest precondition: every run that the specification allows from this
state ends as required. -/
def wp (S : Spec X Res τ) : Program X Res ε α → (Except (Failure X ε) α → τ → Prop) → τ → Prop
  | done r, Q, t => Q r t
  | call op next, Q, t =>
    S.pre op t ∧ (∀ x, S.throws op t x → Q (.error (.thrown x)) t) ∧
      ∀ r t', S.post op t r t' → (next r).wp S Q t'

/-- What has to hold after the first part of a program. -/
def andThen (P : α → τ → Prop) (Q : Except (Failure X ε) β → τ → Prop) :
    Except (Failure X ε) α → τ → Prop
  | .ok a, t => P a t
  | .error e, t => Q (.error e) t

variable {S : Spec X Res τ} {Q : Except (Failure X ε) α → τ → Prop} {t : τ}

theorem wp_bind {p : Program X Res ε α} {f : α → Program X Res ε β}
    {Q : Except (Failure X ε) β → τ → Prop} :
    (p >>= f).wp S Q t ↔ p.wp S (andThen (fun a t => (f a).wp S Q t) Q) t := by
  induction p generalizing t with
  | done r => cases r <;> rfl
  | call op next ih =>
    refine and_congr_right fun _ => and_congr Iff.rfl ?_
    exact forall_congr' fun r => forall_congr' fun t' => imp_congr_right fun _ => ih r

theorem wp_ite_done {c : Bool} {r r' : Except (Failure X ε) α} :
    (if c then done r else done r' : Program X Res ε α).wp S Q t ↔
      (c = true → Q r t) ∧ (c = false → Q r' t) := by
  cases c with
  | true => exact ⟨fun h => ⟨fun _ => h, nofun⟩, fun h => h.1 rfl⟩
  | false => exact ⟨fun h => ⟨nofun, fun _ => h⟩, fun h => h.2 rfl⟩

theorem wp_require {c : Bool} {e : ε} {Q : Except (Failure X ε) Unit → τ → Prop} :
    (require c e : Program X Res ε Unit).wp S Q t ↔
      (c = true → Q (.ok ()) t) ∧ (c = false → Q (.error (.rejected e)) t) := wp_ite_done

theorem wp_assert {c : Bool} {x : X} {Q : Except (Failure X ε) Unit → τ → Prop} :
    (assert c x : Program X Res ε Unit).wp S Q t ↔
      (c = true → Q (.ok ()) t) ∧ (c = false → Q (.error (.thrown x)) t) := wp_ite_done

variable {p : Program X Res ε α}

/-- What is known about an outcome when another program follows a rejection. -/
def liftRejected (f : ε → Program X Res ε' α) (S : Spec X Res τ)
    (Q : Except (Failure X ε') α → τ → Prop) : Except (Failure X ε) α → τ → Prop
  | .ok a, t => Q (.ok a) t
  | .error (.rejected e), t => (f e).wp S Q t
  | .error (.thrown x), t => Q (.error (.thrown x)) t

theorem wp_handleRejected {f : ε → Program X Res ε' α} {Q : Except (Failure X ε') α → τ → Prop} :
    (p.handleRejected f).wp S Q t ↔ p.wp S (liftRejected f S Q) t := by
  induction p generalizing t with
  | done r =>
    rcases r with (_ | _) | _ <;> rfl
  | call op next ih =>
    refine and_congr_right fun _ => and_congr Iff.rfl ?_
    exact forall_congr' fun r => forall_congr' fun t' => imp_congr_right fun _ => ih r

/-- What the specification of the operations says about a program is true of its
runs on every object that meets the specification. -/
theorem wp_sound {handle : Handler X Res σ} {R : σ → τ → Prop} (himpl : Implements handle S R)
    {s : σ} (hs : R s t) (h : p.wp S Q t) :
    ∃ t', ((∀ x, (p.run handle s).1 ≠ .error (.thrown x)) → R (p.run handle s).2 t') ∧
      Q (p.run handle s).1 t' := by
  induction p generalizing s t with
  | done r => exact ⟨t, fun _ => hs, h⟩
  | call op next ih =>
    have hop := himpl op s t hs h.1
    rw [run]
    rcases hhandle : handle op s with ⟨x | r, s'⟩
    · rw [hhandle] at hop
      exact ⟨t, fun hne => absurd rfl (hne x), h.2.1 x hop⟩
    · rw [hhandle] at hop
      obtain ⟨t', hpost, hs'⟩ := hop
      exact ih r hs' (h.2.2 r t' hpost)

end Program
end Lithium.Lib
