import Mathlib.NumberTheory.LucasPrimality

/-!
# Modular powers and certificates of primality

Powers modulo a number by repeated squaring, and lists of steps that show
numbers to be prime by Lucas' criterion: each step names a primitive root and
the prime factors of the predecessor, all of which must have been shown before.
-/

namespace Lithium.Lib
variable {bits : Nat} {primes : List Nat}

/-- The power `a ^ k` modulo `m`; the exponent has at most so many bits. -/
def powMod (m : Nat) : Nat → Nat → Nat → Nat
  | 0, _, _ => 1 % m
  | bits + 1, a, k =>
    let square := powMod m bits (a * a % m) (k / 2)
    if k % 2 = 0 then square else a * square % m

theorem powMod_eq {m a k : Nat} (hk : k < 2 ^ bits) : powMod m bits a k = a ^ k % m := by
  induction bits generalizing a k with
  | zero =>
    obtain rfl : k = 0 := by simpa using hk
    rw [powMod, pow_zero]
  | succ bits ih =>
    have hsquare : (a * a % m) ^ (k / 2) % m = a ^ (2 * (k / 2)) % m := by
      rw [← Nat.pow_mod, pow_mul, pow_two]
    have hhalf : k / 2 < 2 ^ bits := by
      omega
    have hdiv := Nat.div_add_mod k 2
    rw [powMod, ih hhalf, hsquare]
    split_ifs with heven
    · rw [heven, add_zero] at hdiv
      rw [hdiv]
    · have hodd : k % 2 = 1 := by omega
      rw [Nat.mul_mod_mod, ← pow_succ', ← hodd, hdiv]

/-- Powers in `ZMod m` are computed by `powMod`. -/
theorem zmod_pow_eq_iff {m a k b : Nat} (hk : k < 2 ^ bits) (hb : b < m) :
    (a : ZMod m) ^ k = (b : ZMod m) ↔ powMod m bits a k = b := by
  rw [← Nat.cast_pow, ZMod.natCast_eq_natCast_iff', powMod_eq hk, Nat.mod_eq_of_lt hb]

/-- A number, a primitive root modulo it, and the prime factors of its
predecessor, as often as they occur. -/
structure PrattStep where
  p : Nat
  root : Nat
  factors : List Nat

def PrattStep.holds (bits : Nat) (primes : List Nat) (step : PrattStep) : Bool :=
  decide (1 < step.p) && decide (step.p ≤ 2 ^ bits) && step.factors.prod == step.p - 1 &&
    step.factors.all (fun q => decide (q ∈ primes)) &&
    powMod step.p bits step.root (step.p - 1) == 1 &&
    step.factors.all fun q => powMod step.p bits step.root ((step.p - 1) / q) != 1

theorem PrattStep.prime {step : PrattStep}
    (hprimes : ∀ q ∈ primes, q.Prime) (h : step.holds bits primes = true) : step.p.Prime := by
  simp only [holds, Bool.and_eq_true, decide_eq_true_eq, beq_iff_eq, List.all_eq_true,
    bne_iff_ne] at h
  obtain ⟨⟨⟨⟨⟨hone, hbits⟩, hprod⟩, hkn⟩, hfull⟩, hparts⟩ := h
  have hexp (k : Nat) (hk : k ≤ step.p - 1) :
      (step.root : ZMod step.p) ^ k = 1 ↔ powMod step.p bits step.root k = 1 := by
    rw [← Nat.cast_one]
    exact zmod_pow_eq_iff (by omega) hone
  refine lucas_primality step.p step.root ((hexp _ le_rfl).mpr hfull) fun q hq hdvd => ?_
  rw [← hprod] at hdvd
  obtain ⟨f, hf, hqf⟩ := (Prime.dvd_prod_iff hq.prime).mp hdvd
  obtain rfl := (Nat.prime_dvd_prime_iff_eq hq (hprimes f (hkn f hf))).mp hqf
  rw [Ne, hexp _ (Nat.div_le_self _ _)]
  exact hparts q hf

def prattHolds (bits : Nat) : List Nat → List PrattStep → Bool
  | _, [] => true
  | primes, step :: steps => step.holds bits primes && prattHolds bits (step.p :: primes) steps

theorem prime_of_prattHolds {steps : List PrattStep}
    (hprimes : ∀ q ∈ primes, q.Prime) (h : prattHolds bits primes steps = true) :
    ∀ step ∈ steps, step.p.Prime := by
  induction steps generalizing primes with
  | nil => exact fun _ hmem => absurd hmem List.not_mem_nil
  | cons step steps ih =>
    rw [prattHolds, Bool.and_eq_true] at h
    have hstep := step.prime hprimes h.1
    intro other hmem
    rcases List.mem_cons.mp hmem with rfl | hmem
    · exact hstep
    · exact ih (List.forall_mem_cons.mpr ⟨hstep, hprimes⟩) h.2 other hmem

end Lithium.Lib
