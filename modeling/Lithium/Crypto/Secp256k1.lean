import Lithium.Lib.Pratt
import Lithium.Lib.Decoder
import Mathlib.FieldTheory.Finite.Basic
import Mathlib.Tactic.NormNum.Prime

/-!
# Points of secp256k1

The part of libsecp256k1 that public keys in scripts depend on: field elements
as numbers below the field prime, square roots, and the two encodings of a
point. Given the first coordinate, the second is determined by its parity; this
is what makes an uncompressed key in an output compressible.
-/

namespace Lithium.Secp256k1
open Lithium.Lib

def fieldPrime : Nat := 2 ^ 256 - 2 ^ 32 - 977

/-- A certificate that the order is prime. -/
def fieldPrimeSteps : List PrattStep := [⟨1206781, 10, [2, 2, 3, 5, 20113]⟩,
    ⟨7240687, 3, [2, 3, 1206781]⟩,
    ⟨13331831, 13, [2, 5, 971, 1373]⟩,
    ⟨107590001, 3, [2, 2, 2, 2, 5, 5, 5, 5, 7, 29, 53]⟩,
    ⟨173378833005251801, 6, [2, 2, 2, 5, 5, 2621, 24809, 13331831]⟩,
    ⟨22149492674086928081353, 5, [2, 2, 2, 3, 5323, 173378833005251801]⟩,
    ⟨132896956044521568488119, 6, [2, 3, 22149492674086928081353]⟩,
    ⟨255515944373312847190720520512484175977, 3,
      [2, 2, 2, 7, 7, 11, 1627, 2657, 4423, 41201, 96557, 7240687, 107590001]⟩,
    ⟨205115282021455665897114700593932402728804164701536103180137503955397371, 10,
      [2, 3, 5, 29, 29, 31, 7723, 132896956044521568488119,
        255515944373312847190720520512484175977]⟩,
    ⟨fieldPrime, 3,
      [2, 3, 7, 13441, 205115282021455665897114700593932402728804164701536103180137503955397371]⟩]

theorem prime_fieldPrime : fieldPrime.Prime := by
  have hsmall : ∀ q ∈ [2, 3, 5, 7, 11, 29, 31, 53, 971, 1373, 1627, 2621, 2657, 4423, 5323, 7723,
      13441, 20113, 24809, 41201, 96557], q.Prime := by
    norm_num
  have hhold : prattHolds 256 [2, 3, 5, 7, 11, 29, 31, 53, 971, 1373, 1627, 2621, 2657, 4423, 5323,
      7723, 13441, 20113, 24809, 41201, 96557] fieldPrimeSteps = true := by
    decide +kernel
  exact prime_of_prattHolds hsmall hhold (fieldPrimeSteps.get ⟨9, by decide⟩) (List.get_mem _ _)

example : fieldPrime % 4 = 3 := by decide +kernel

/-! ### Field elements -/

/-- `secp256k1_fe_set_b32`: the most significant byte comes first, and numbers
that are too large are refused. -/
def feSetB32 (b : Bytes) : Option Nat :=
  let n := leToNat b.reverse
  if n < fieldPrime then some n else none

def feGetB32 (n : Nat) : Bytes := (natToLE 32 n).reverse

/-- `secp256k1_fe_sqrt`: the order of the field is three modulo four. -/
def feSqrt (a : Nat) : Option Nat :=
  let r := powMod fieldPrime 256 a ((fieldPrime + 1) / 4)
  if r * r % fieldPrime = a % fieldPrime then some r else none

def curveRight (x : Nat) : Nat := (x * x * x + 7) % fieldPrime

/-! ### Points -/

/-- `secp256k1_ge_set_xo_var`: the point with this first coordinate and parity
of the second. -/
def geSetXo (x : Nat) (odd : Bool) : Option (Nat × Nat) := (feSqrt (curveRight x)).map fun y =>
    (x, if (y % 2 == 1) != odd then (fieldPrime - y) % fieldPrime else y)

/-- `secp256k1_ge_is_valid_var`. -/
def geIsValid (x y : Nat) : Bool := y * y % fieldPrime == curveRight x

/-- `secp256k1_ec_pubkey_parse`. -/
def pubkeyParse (pub : Bytes) : Option (Nat × Nat) :=
  match pub with
  | [] => none
  | header :: rest =>
    if pub.length = 33 ∧ (header = 2 ∨ header = 3) then
      match feSetB32 rest with
      | none => none
      | some x => geSetXo x (header == 3)
    else if pub.length = 65 ∧ (header = 4 ∨ header = 6 ∨ header = 7) then
      match feSetB32 (rest.take 32), feSetB32 (rest.drop 32) with
      | some x, some y =>
        if (header = 6 ∨ header = 7) ∧ (y % 2 == 1) ≠ (header == 7) then none
        else if geIsValid x y then some (x, y)
        else none
      | _, _ => none
    else none

/-- `secp256k1_ec_pubkey_serialize` without compression. -/
def pubkeySerialize (point : Nat × Nat) : Bytes := 4 :: (feGetB32 point.1 ++ feGetB32 point.2)

/-! ### Square roots -/

theorem feSqrt_of_square {y a : Nat} (ha : y * y % fieldPrime = a % fieldPrime) :
    ∃ r, feSqrt a = some r ∧ r < fieldPrime ∧ ((r : ZMod fieldPrime) = y ∨
      (r : ZMod fieldPrime) = -y) := by
  have : Fact fieldPrime.Prime := ⟨prime_fieldPrime⟩
  have hexp : (fieldPrime + 1) / 4 < 2 ^ 256 := by norm_num [fieldPrime]
  have hsquare : (y : ZMod fieldPrime) * y = a := by
    rw [← Nat.cast_mul]
    exact (ZMod.natCast_eq_natCast_iff' _ _ _).mpr ha
  have hr : ((powMod fieldPrime 256 a ((fieldPrime + 1) / 4) : Nat) : ZMod fieldPrime) =
      (y : ZMod fieldPrime) ^ ((fieldPrime + 1) / 2) := by
    rw [powMod_eq hexp, ZMod.natCast_mod, Nat.cast_pow, ← hsquare, ← pow_two, ← pow_mul]
    congr 1
  have hrr : ((powMod fieldPrime 256 a ((fieldPrime + 1) / 4) : Nat) : ZMod fieldPrime) *
      (powMod fieldPrime 256 a ((fieldPrime + 1) / 4) : Nat) = y * y := by
    rw [hr, ← pow_add, show (fieldPrime + 1) / 2 + (fieldPrime + 1) / 2 = fieldPrime + 1 from rfl,
      pow_succ, ZMod.pow_card]
  refine ⟨powMod fieldPrime 256 a ((fieldPrime + 1) / 4), ?_, ?_, mul_self_eq_mul_self_iff.mp hrr⟩
  · rw [feSqrt]
    refine if_pos ?_
    rw [← ZMod.natCast_eq_natCast_iff', Nat.cast_mul, hrr, hsquare]
  · rw [powMod_eq hexp]
    exact Nat.mod_lt _ prime_fieldPrime.pos

/-- A point is determined by its first coordinate and the parity of the second. -/
theorem geSetXo_of_valid {x y : Nat} (hy : y < fieldPrime) (h : geIsValid x y = true) :
    geSetXo x (y % 2 == 1) = some (x, y) := by
  have hodd : fieldPrime % 2 = 1 := by norm_num [fieldPrime]
  have hright : y * y % fieldPrime = curveRight x % fieldPrime := by
    rw [curveRight, Nat.mod_mod]
    exact beq_iff_eq.mp h
  obtain ⟨r, hsqrt, hr, hroot⟩ := feSqrt_of_square hright
  rw [geSetXo, hsqrt, Option.map_some]
  have hcast {n m : Nat} (hn : n < fieldPrime) (hm : m < fieldPrime)
      (heq : (n : ZMod fieldPrime) = m) : n = m := by
    rwa [ZMod.natCast_eq_natCast_iff', Nat.mod_eq_of_lt hn, Nat.mod_eq_of_lt hm] at heq
  rcases hroot with heq | hneg
  · obtain rfl := hcast hr hy heq
    rw [if_neg (by simp)]
  · have hsum : fieldPrime ∣ r + y := by
      rw [← ZMod.natCast_eq_zero_iff, Nat.cast_add, hneg, neg_add_cancel]
    obtain ⟨k, hk⟩ := hsum
    have hk2 : k < 2 := by
      by_contra hge
      have : fieldPrime * 2 ≤ fieldPrime * k := Nat.mul_le_mul_left _ (by omega)
      omega
    interval_cases k
    · obtain rfl : r = y := by omega
      rw [if_neg (by simp)]
    · have hparity : ((r % 2 == 1) != (y % 2 == 1)) = true := by
        have : r % 2 ≠ y % 2 := by omega
        rcases Nat.mod_two_eq_zero_or_one r with h0 | h1 <;>
          rcases Nat.mod_two_eq_zero_or_one y with h0' | h1' <;> simp_all
      have hother : fieldPrime - r = y := by omega
      rw [if_pos hparity, hother, Nat.mod_eq_of_lt hy]

end Lithium.Secp256k1
