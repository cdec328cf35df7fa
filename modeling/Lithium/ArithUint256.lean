import Lithium.Uint256
import Mathlib.Data.Nat.Bitwise
import Mathlib.Data.Nat.Digits.Defs
import Mathlib.Data.Nat.Size
import Mathlib.Tactic.NormNum
import Mathlib.Tactic.Positivity

/-!
# Compact targets

A difficulty target travels as thirty-two bits: one byte for the length of the
number in bytes, a sign bit, and the leading twenty-three bits. `setCompact`
and `getCompact` follow `arith_uint256.cpp`, with the two flags that the
source returns through pointers as fields of the result.

Encoding and decoding again cuts off low bytes. `compactFloor` is that loss as
a function on numbers; it is monotone, and everything that compares a target
with one that went through its compact form rests on that.
-/

namespace Lithium
open Lib UInt32
variable {n m : Nat} {div : ArithUint256}

/-- What `SetCompact` computes. -/
structure CompactTarget where
  value : ArithUint256
  negative : Bool
  overflow : Bool
deriving DecidableEq

def setCompact (nCompact : UInt32) : CompactTarget :=
  let nSize := nCompact.toNat >>> 24
  let mantissa := nCompact.toNat &&& 0x007fffff
  -- the shift of a short number happens before the flags are computed
  let nWord := if nSize ≤ 3 then mantissa >>> (8 * (3 - nSize)) else mantissa
  { value :=
      if nSize ≤ 3 then BitVec.ofNat 256 nWord
      else BitVec.ofNat 256 nWord <<< (8 * (nSize - 3))
    negative := nWord != 0 && nCompact.toNat &&& 0x00800000 != 0
    overflow := nWord != 0 &&
      (decide (nSize > 34) || (decide (nWord > 0xff) && decide (nSize > 33)) ||
        (decide (nWord > 0xffff) && decide (nSize > 32))) }

/-- `base_uint::bits`: one plus the position of the highest bit. -/
def bits (a : ArithUint256) : Nat := if a.toNat = 0 then 0 else a.toNat.log2 + 1

def getCompact (a : ArithUint256) (fNegative : Bool) : UInt32 :=
  let nSize := (bits a + 7) / 8
  let nCompact :=
    if nSize ≤ 3 then wrap32 (a.toNat % 2 ^ 64 * 2 ^ (8 * (3 - nSize)))
    else wrap32 ((a >>> (8 * (nSize - 3))).toNat % 2 ^ 64)
  -- the top bit of the mantissa denotes the sign
  let (nCompact, nSize) :=
    if nCompact &&& 0x00800000 != 0 then (nCompact >>> 8, nSize + 1) else (nCompact, nSize)
  let nCompact := nCompact ||| nSize <<< 24
  ofNat (nCompact ||| if fNegative && nCompact &&& 0x007fffff != 0 then 0x00800000 else 0)

/-! ### The loss of precision -/

/-- How many low bytes of a number of `b` bits the compact form drops. -/
def droppedBytes (b : Nat) : Nat := b / 8 - 2

/-- A number with the bytes cleared that its compact form does not keep. -/
def compactFloor (x : Nat) : Nat := x / 256 ^ droppedBytes x.size * 256 ^ droppedBytes x.size

theorem compactFloor_le (x : Nat) : compactFloor x ≤ x := Nat.div_mul_le_self _ _

variable {x : Nat}

/-- A number whose compact form drops bytes keeps at least its leading
sixteen bits in the encoding, the first of which is set. -/
theorem le_compactFloor_of_dropped (h : droppedBytes x.size ≠ 0) :
    2 ^ (8 * (droppedBytes x.size + 2) - 1) ≤ compactFloor x := by
  have hk : droppedBytes x.size + 2 = x.size / 8 := by
    unfold droppedBytes at h ⊢
    omega
  have hlow : 2 ^ (8 * (droppedBytes x.size + 2) - 1) ≤ x := by
    apply Nat.lt_size.mp
    omega
  have hspl : 2 ^ (8 * (droppedBytes x.size + 2) - 1) = 2 ^ 15 * 256 ^ droppedBytes x.size := by
    rw [show (256 : Nat) = 2 ^ 8 from rfl, ← pow_mul, ← pow_add]
    congr 1
    omega
  rw [hspl] at hlow ⊢
  exact Nat.mul_le_mul_right _ ((Nat.le_div_iff_mul_le (by positivity)).mpr hlow)

theorem lt_of_droppedBytes_lt (h : droppedBytes x.size < n) : x < 2 ^ (8 * (n + 2) - 1) := by
  apply Nat.size_le.mp
  unfold droppedBytes at h
  omega

/-- Truncation to the compact form respects the order of numbers. -/
theorem compactFloor_mono {y : Nat} (h : x ≤ y) : compactFloor x ≤ compactFloor y := by
  have hsize : x.size ≤ y.size := Nat.size_le_size h
  have hk : droppedBytes x.size ≤ droppedBytes y.size := by
    unfold droppedBytes
    omega
  rcases hk.eq_or_lt with heq | hlt
  · unfold compactFloor
    rw [heq]
    exact Nat.mul_le_mul_right _ (Nat.div_le_div_right h)
  · calc compactFloor x ≤ x := compactFloor_le x
      _ ≤ 2 ^ (8 * (droppedBytes y.size + 2) - 1) := (lt_of_droppedBytes_lt hlt).le
      _ ≤ compactFloor y := le_compactFloor_of_dropped (by omega)

/-! ### Encoding and decoding again -/

variable (a : ArithUint256)

theorem bits_eq_size : bits a = a.toNat.size := by
  unfold bits
  split
  case isTrue h => simp [h]
  case isFalse h =>
    apply le_antisymm
    · exact Nat.lt_size.mpr (Nat.log2_self_le h)
    · exact Nat.size_le.mpr Nat.lt_log2_self

/-- The length byte that `getCompact` chooses for `x`. -/
def compactLength (x : Nat) : Nat := if x = 0 then 0 else x.size / 8 + 1

/-- The mantissa that `getCompact` chooses for `x`: as many leading bytes as
leave the sign bit clear. -/
def compactMantissa (x : Nat) : Nat :=
  if x.size / 8 ≤ 2 then x * 256 ^ (2 - x.size / 8) else x / 256 ^ (x.size / 8 - 2)

theorem pow_256 (n : Nat) : 256 ^ n = 2 ^ (8 * n) := by
  rw [show (256 : Nat) = 2 ^ 8 from rfl, ← pow_mul]

/-- A number of `m` bytes, moved to take `k` bytes. -/
theorem moved_lt {x k w : Nat} (h : x.size + 8 * k ≤ w + 8 * m) :
    (if m ≤ k then x * 256 ^ (k - m) else x / 256 ^ (m - k)) < 2 ^ w := by
  have hx : x < 2 ^ x.size := Nat.lt_size_self x
  split
  case isTrue hle =>
    calc x * 256 ^ (k - m)
        < 2 ^ x.size * 256 ^ (k - m) := Nat.mul_lt_mul_of_pos_right hx (by positivity)
      _ = 2 ^ (x.size + 8 * (k - m)) := by rw [pow_256, ← pow_add]
      _ ≤ 2 ^ w := Nat.pow_le_pow_right (by norm_num) (by omega)
  case isFalse hlt =>
    rw [Nat.div_lt_iff_lt_mul (by positivity)]
    calc x < 2 ^ x.size := hx
      _ ≤ 2 ^ (w + 8 * (m - k)) := Nat.pow_le_pow_right (by norm_num) (by omega)
      _ = 2 ^ w * 256 ^ (m - k) := by rw [pow_256, ← pow_add]

theorem compactMantissa_lt (x : Nat) : compactMantissa x < 2 ^ 23 := moved_lt (by omega)

/-- The mantissa before the sign bit is considered. It reaches the sign bit
exactly when the number fills its leading byte. -/
def rawMantissa (x : Nat) : Nat :=
  if (x.size + 7) / 8 ≤ 3 then x * 256 ^ (3 - (x.size + 7) / 8)
  else x / 256 ^ ((x.size + 7) / 8 - 3)

theorem rawMantissa_lt (x : Nat) : rawMantissa x < 2 ^ 24 := moved_lt (by omega)

theorem rawMantissa_of_full (hpos : x ≠ 0) (hfull : x.size % 8 = 0) :
    2 ^ 23 ≤ rawMantissa x ∧ rawMantissa x / 256 = compactMantissa x := by
  have hsize : 0 < x.size := Nat.size_pos.mpr (Nat.pos_of_ne_zero hpos)
  have hx : 2 ^ (x.size - 1) ≤ x := Nat.lt_size.mp (by omega)
  have hlen : (x.size + 7) / 8 = x.size / 8 := by omega
  unfold rawMantissa compactMantissa
  rw [hlen]
  by_cases h3 : x.size / 8 ≤ 3
  · have hraw : 2 ^ 23 ≤ x * 256 ^ (3 - x.size / 8) := by
      calc 2 ^ 23 = 2 ^ (x.size - 1) * 256 ^ (3 - x.size / 8) := by
            rw [pow_256, ← pow_add]
            congr 1
            omega
        _ ≤ x * 256 ^ (3 - x.size / 8) := Nat.mul_le_mul_right _ hx
    rw [if_pos h3]
    refine ⟨hraw, ?_⟩
    by_cases h2 : x.size / 8 ≤ 2
    · rw [if_pos h2, show 3 - x.size / 8 = 2 - x.size / 8 + 1 by omega, pow_succ, ← mul_assoc,
        Nat.mul_div_cancel _ (by norm_num)]
    · rw [if_neg h2, show x.size / 8 = 3 by omega]
      simp
  · rw [if_neg h3, if_neg (by omega)]
    constructor
    · rw [Nat.le_div_iff_mul_le (by positivity)]
      calc 2 ^ 23 * 256 ^ (x.size / 8 - 3) = 2 ^ (x.size - 1) := by
            rw [pow_256, ← pow_add]
            congr 1
            omega
        _ ≤ x := hx
    · rw [Nat.div_div_eq_div_mul, ← pow_succ]
      congr 2
      omega

theorem rawMantissa_of_not_full (hfull : x.size % 8 ≠ 0) : rawMantissa x = compactMantissa x := by
  have hlen : (x.size + 7) / 8 = x.size / 8 + 1 := by omega
  unfold rawMantissa compactMantissa
  rw [hlen, show 3 - (x.size / 8 + 1) = 2 - x.size / 8 by omega,
    show x.size / 8 + 1 - 3 = x.size / 8 - 2 by omega]
  congr 1
  simp only [eq_iff_iff]
  omega

theorem rawMantissa_lt_of_not_full (hfull : x.size % 8 ≠ 0) : rawMantissa x < 2 ^ 23 := by
  rw [rawMantissa_of_not_full hfull]
  exact compactMantissa_lt x

theorem signBit_iff {c : Nat} (h : c < 2 ^ 24) : (c &&& 0x00800000 != 0) = decide (2 ^ 23 ≤ c) := by
  rw [show (0x00800000 : Nat) = 2 ^ 23 from rfl, Nat.and_two_pow, Nat.testBit_eq_decide_div_mod_eq]
  by_cases hc : 2 ^ 23 ≤ c
  · rw [show c / 2 ^ 23 = 1 by omega, decide_eq_true hc]
    rfl
  · rw [show c / 2 ^ 23 = 0 by omega, decide_eq_false hc]
    rfl

theorem or_length (h : m < 2 ^ 24) : m ||| n <<< 24 = m + n * 2 ^ 24 := by
  rw [Nat.or_comm, ← Nat.shiftLeft_add_eq_or_of_lt h, Nat.shiftLeft_eq, Nat.add_comm]

theorem getCompact_raw :
    (if (bits a + 7) / 8 ≤ 3 then wrap32 (a.toNat % 2 ^ 64 * 2 ^ (8 * (3 - (bits a + 7) / 8)))
      else wrap32 ((a >>> (8 * ((bits a + 7) / 8 - 3))).toNat % 2 ^ 64)) = rawMantissa a.toNat := by
  have hraw := rawMantissa_lt a.toNat
  rw [bits_eq_size]
  unfold rawMantissa at hraw ⊢
  split at hraw
  case isTrue h =>
    have hsmall : a.toNat < 2 ^ 64 := by
      refine lt_of_lt_of_le (Nat.lt_size_self _) (Nat.pow_le_pow_right (by norm_num) ?_)
      omega
    rw [if_pos h, if_pos h, Nat.mod_eq_of_lt hsmall, ← pow_256, wrap32, Nat.mod_eq_of_lt]
    omega
  case isFalse h =>
    rw [if_neg h, if_neg h, BitVec.toNat_ushiftRight, Nat.shiftRight_eq_div_pow, ← pow_256,
      wrap32, Nat.mod_eq_of_lt (b := 2 ^ 64) (by omega), Nat.mod_eq_of_lt (by omega)]

/-- The compact form of a number is its length byte over its mantissa. -/
theorem getCompact_eq : getCompact a false =
      ofNat (compactMantissa a.toNat + compactLength a.toNat * 2 ^ 24) := by
  have hsign := signBit_iff (rawMantissa_lt a.toNat)
  unfold getCompact
  simp only [getCompact_raw, hsign, Bool.false_and, Bool.false_eq_true, if_false, Nat.or_zero]
  by_cases hzero : a.toNat = 0
  · simp [hzero, bits, rawMantissa, compactMantissa, compactLength]
  by_cases hfull : a.toNat.size % 8 = 0
  · obtain ⟨hset, hdiv⟩ := rawMantissa_of_full hzero hfull
    have hm : compactMantissa a.toNat < 2 ^ 24 := (compactMantissa_lt _).trans (by norm_num)
    have hlen : (bits a + 7) / 8 + 1 = compactLength a.toNat := by
      rw [bits_eq_size, compactLength, if_neg hzero]
      omega
    have hshift : rawMantissa a.toNat >>> 8 = compactMantissa a.toNat := by
      rw [Nat.shiftRight_eq_div_pow]
      exact hdiv
    simp only [hset, decide_true, if_true, hshift, hlen, or_length hm]
  · have hclear := rawMantissa_lt_of_not_full hfull
    have hlen : (bits a + 7) / 8 = compactLength a.toNat := by
      rw [bits_eq_size, compactLength, if_neg hzero]
      omega
    have hm : compactMantissa a.toNat < 2 ^ 24 := (compactMantissa_lt _).trans (by norm_num)
    rw [rawMantissa_of_not_full hfull] at hclear
    simp only [rawMantissa_of_not_full hfull, not_le.mpr hclear, decide_false,
      Bool.false_eq_true, if_false, hlen, or_length hm]

theorem compactLength_le : compactLength a.toNat ≤ 33 := by
  have hsize : a.toNat.size ≤ 256 := Nat.size_le.mpr a.isLt
  unfold compactLength
  split <;> omega

/-- Reading a length byte and a mantissa without a sign bit. -/
theorem setCompact_parts (hm : m < 2 ^ 23) (hn : n < 256) :
    (ofNat (m + n * 2 ^ 24)).toNat >>> 24 = n ∧ (ofNat (m + n * 2 ^ 24)).toNat &&& 0x007fffff = m ∧
      ((ofNat (m + n * 2 ^ 24)).toNat &&& 0x00800000 != 0) = false := by
  have hval : (ofNat (m + n * 2 ^ 24)).toNat = m + n * 2 ^ 24 := by
    rw [toNat_ofNat']
    omega
  rw [hval]
  refine ⟨?_, ?_, ?_⟩
  · rw [Nat.shiftRight_eq_div_pow]
    omega
  · rw [show (0x007fffff : Nat) = 2 ^ 23 - 1 from rfl, Nat.and_two_pow_sub_one_eq_mod]
    omega
  · rw [show (0x00800000 : Nat) = 2 ^ 23 from rfl, Nat.and_two_pow,
      Nat.testBit_eq_decide_div_mod_eq, show (m + n * 2 ^ 24) / 2 ^ 23 % 2 = 0 by omega]
    rfl

/-- The mantissa, put back in its place, is the truncated number. -/
theorem compactMantissa_value (x : Nat) :
    (if compactLength x ≤ 3 then compactMantissa x >>> (8 * (3 - compactLength x))
      else compactMantissa x * 2 ^ (8 * (compactLength x - 3))) = compactFloor x := by
  by_cases hzero : x = 0
  · simp [hzero, compactLength, compactMantissa, compactFloor]
  unfold compactLength compactMantissa compactFloor droppedBytes
  rw [if_neg hzero]
  by_cases h2 : x.size / 8 ≤ 2
  · rw [if_pos (by omega), if_pos h2, Nat.shiftRight_eq_div_pow, ← pow_256,
      show 3 - (x.size / 8 + 1) = 2 - x.size / 8 by omega, Nat.mul_div_cancel _ (by positivity),
      show x.size / 8 - 2 = 0 by omega]
    simp
  · rw [if_neg (by omega), if_neg h2, ← pow_256, show x.size / 8 + 1 - 3 = x.size / 8 - 2 by omega]

/-- A mantissa of more than two bytes leaves the length byte in range. -/
theorem compactLength_of_wide {a : ArithUint256} (h : 0xffff < compactMantissa a.toNat) :
    compactLength a.toNat ≤ 32 := by
  by_contra hlen
  have hsize : a.toNat.size ≤ 256 := Nat.size_le.mpr a.isLt
  have hfull : a.toNat.size / 8 = 32 := by
    unfold compactLength at hlen
    split at hlen <;> omega
  have hm : compactMantissa a.toNat < 2 ^ 16 := by
    unfold compactMantissa
    rw [hfull, if_neg (by norm_num), Nat.div_lt_iff_lt_mul (by positivity)]
    exact lt_of_lt_of_le a.isLt (by norm_num)
  omega

/-- Decoding the compact form of a number gives the number truncated, with
neither flag set. -/
theorem setCompact_getCompact : setCompact (getCompact a false) =
      ⟨BitVec.ofNat 256 (compactFloor a.toNat), false, false⟩ := by
  have hm := compactMantissa_lt a.toNat
  have hn := compactLength_le a
  obtain ⟨hsize, hword, hsign⟩ := setCompact_parts hm (show compactLength a.toNat < 256 by omega)
  have hval := compactMantissa_value a.toNat
  have hwide := @compactLength_of_wide a
  rw [getCompact_eq]
  unfold setCompact
  simp only [hsize, hword, hsign, Bool.and_false, CompactTarget.mk.injEq, true_and]
  constructor
  · by_cases h3 : compactLength a.toNat ≤ 3
    · rw [if_pos h3] at hval
      rw [if_pos h3, if_pos h3, hval]
    · rw [if_neg h3] at hval
      rw [if_neg h3, if_neg h3, ← hval]
      apply BitVec.eq_of_toNat_eq
      simp [BitVec.toNat_shiftLeft, Nat.shiftLeft_eq, Nat.mod_mul_mod]
  · by_cases h3 : compactLength a.toNat ≤ 3
    · simp [show ¬ 34 < compactLength a.toNat by omega,
        show ¬ 33 < compactLength a.toNat by omega, show ¬ 32 < compactLength a.toNat by omega]
    · simp only [if_neg h3, Bool.and_eq_false_iff, Bool.or_eq_false_iff, decide_eq_false_iff_not]
      refine Or.inr ⟨⟨by omega, Or.inr (by omega)⟩, ?_⟩
      by_cases hw : 0xffff < compactMantissa a.toNat
      · exact Or.inr (by have := hwide hw; omega)
      · exact Or.inl hw

/-! ### Multiplication and division -/

/-- The words `pn` of a number, the lowest first. -/
def limbs : Nat → Nat → List Nat
  | 0, _ => []
  | n + 1, x => x % 2 ^ 32 :: limbs n (x / 2 ^ 32)

theorem limbs_length (n x : Nat) : (limbs n x).length = n := by
  induction n generalizing x with
  | zero => rfl
  | succ n ih => rw [limbs, List.length_cons, ih]

theorem limbs_lt {x : Nat} : ∀ pn ∈ limbs n x, pn < 2 ^ 32 := by
  induction n generalizing x with
  | zero => exact fun _ h => absurd h List.not_mem_nil
  | succ n ih => exact List.forall_mem_cons.mpr ⟨Nat.mod_lt _ (by decide), ih⟩

theorem ofDigits_limbs (n x : Nat) : Nat.ofDigits (2 ^ 32) (limbs n x) = x % (2 ^ 32) ^ n := by
  induction n generalizing x with
  | zero => simp [limbs, Nat.mod_one]
  | succ n ih => rw [limbs, Nat.ofDigits_cons, ih, pow_succ' (2 ^ 32), Nat.mod_mul]

/-- The loop of `operator*=` with a word. -/
def mulLoop (b32 : Nat) : List Nat → Nat → List Nat
  | [], _ => []
  | pn :: rest, carry =>
    let n := (carry + b32 * pn) % 2 ^ 64
    (n &&& 0xffffffff) :: mulLoop b32 rest (n >>> 32)

/-- No sum overflows, and what is cut off is the last carry. -/
theorem ofDigits_mulLoop {b32 : Nat} (hb : b32 < 2 ^ 32) {l : List Nat} (hl : ∀ pn ∈ l, pn < 2 ^ 32)
    {carry : Nat} (hcarry : carry < 2 ^ 32) :
    Nat.ofDigits (2 ^ 32) (mulLoop b32 l carry) =
      (carry + b32 * Nat.ofDigits (2 ^ 32) l) % (2 ^ 32) ^ l.length := by
  induction l generalizing carry with
  | nil => simp [mulLoop, Nat.mod_one]
  | cons pn l ih =>
    obtain ⟨hpn, hl⟩ := List.forall_mem_cons.mp hl
    have hprod : b32 * pn ≤ (2 ^ 32 - 1) * (2 ^ 32 - 1) := Nat.mul_le_mul (by omega) (by omega)
    have hmask : (carry + b32 * pn) &&& 0xffffffff = (carry + b32 * pn) % 2 ^ 32 :=
      Nat.and_two_pow_sub_one_eq_mod _ 32
    have hsum : carry + b32 * (pn + 2 ^ 32 * Nat.ofDigits (2 ^ 32) l) =
        carry + b32 * pn + 2 ^ 32 * (b32 * Nat.ofDigits (2 ^ 32) l) := by ring
    rw [mulLoop, Nat.mod_eq_of_lt (by omega : carry + b32 * pn < 2 ^ 64), hmask,
      Nat.shiftRight_eq_div_pow, Nat.ofDigits_cons, Nat.ofDigits_cons, ih hl (by omega),
      List.length_cons, pow_succ' (2 ^ 32), Nat.mod_mul]
    simp only [hsum, Nat.add_mul_mod_self_left, Nat.add_mul_div_left _ _ (Nat.two_pow_pos 32)]

/-- `operator*=` with an integer, which the source narrows to 32 bits. -/
def mulUInt32 (n : Int) : ArithUint256 :=
  BitVec.ofNat 256 (Nat.ofDigits (2 ^ 32) (mulLoop (n % 2 ^ 32).toNat (limbs 8 a.toNat) 0))

theorem mulUInt32_eq (n : Int) : mulUInt32 a n = a * BitVec.ofNat 256 (n % 2 ^ 32).toNat := by
  apply BitVec.eq_of_toNat_eq
  rw [mulUInt32, ofDigits_mulLoop (by omega) limbs_lt (by decide), ofDigits_limbs, limbs_length]
  simp [Nat.mul_comm]

/-- The loop of `operator/=`, with the number of bits of the quotient to go. -/
def divLoop : Nat → ArithUint256 → ArithUint256 → ArithUint256 → ArithUint256
  | 0, _, _, quotient => quotient
  | shift + 1, num, div, quotient =>
    if div ≤ num then divLoop shift (num - div) (div >>> 1) (quotient ||| BitVec.twoPow 256 shift)
    else divLoop shift num (div >>> 1) quotient

/-- The bits found so far and the quotient of what is left make up the quotient. -/
theorem toNat_divLoop {d : Nat} (hd : 0 < d) {num : ArithUint256}
    (quotient : ArithUint256) (hdiv : div.toNat = d * 2 ^ n / 2) (hnum : num.toNat < d * 2 ^ n)
    (hbits : 2 ^ n ∣ quotient.toNat) (hfits : quotient.toNat + num.toNat / d < 2 ^ 256) :
    (divLoop n num div quotient).toNat = quotient.toNat + num.toNat / d := by
  induction n generalizing num div quotient with
  | zero => rw [divLoop, Nat.div_eq_of_lt (by simpa using hnum), Nat.add_zero]
  | succ n ih =>
    obtain ⟨k, hk⟩ := hbits
    have hbit : d * 2 ^ (n + 1) = d * 2 ^ n * 2 := by rw [pow_succ, Nat.mul_assoc]
    rw [hbit, Nat.mul_div_cancel _ two_pos] at hdiv
    rw [hbit] at hnum
    have hhalf : (div >>> 1).toNat = d * 2 ^ n / 2 := by
      rw [BitVec.toNat_ushiftRight, Nat.shiftRight_eq_div_pow, hdiv, pow_one]
    rw [divLoop]
    split_ifs with hle
    · rw [BitVec.le_def, hdiv] at hle
      have hrest : (num - div).toNat = num.toNat - d * 2 ^ n := by
        rw [BitVec.toNat_sub_of_le (by rwa [BitVec.le_def, hdiv]), hdiv]
      have hspl : num.toNat / d = 2 ^ n + (num.toNat - d * 2 ^ n) / d := by
        conv_lhs => rw [← Nat.add_sub_of_le hle, Nat.mul_add_div hd]
      have hlow : 2 ^ n ≤ num.toNat / d := hspl ▸ Nat.le_add_right _ _
      have hset : (quotient ||| BitVec.twoPow 256 n).toNat = quotient.toNat + 2 ^ n := by
        rw [BitVec.toNat_or, BitVec.toNat_twoPow, Nat.mod_eq_of_lt (by omega), hk,
          Nat.two_pow_add_eq_or_of_lt (Nat.pow_lt_pow_succ one_lt_two)]
      rw [ih _ hhalf (by omega) ?_ ?_, hset, hrest, hspl, Nat.add_assoc]
      · rw [hset, hk, pow_succ]
        exact (Dvd.intro _ (by ring : 2 ^ n * (2 * k + 1) = _))
      · rw [hset, hrest]
        omega
    · rw [BitVec.le_def, hdiv] at hle
      exact ih _ hhalf (by omega) (hk ▸ (pow_dvd_pow 2 n.le_succ).mul_right k) hfits

/-- `operator/=`; a division by zero throws. -/
def divide (num div : ArithUint256) : Option ArithUint256 :=
  if bits div = 0 then none
  else if bits num < bits div then some 0
  else
    let shift := bits num - bits div
    some (divLoop (shift + 1) num (div <<< shift) 0)

theorem divide_eq (num : ArithUint256) (hdiv : div ≠ 0) : divide num div = some (num / div) := by
  have hpos : 0 < div.toNat := Nat.pos_of_ne_zero fun h => hdiv (BitVec.eq_of_toNat_eq h)
  have hlow : 2 ^ (div.toNat.size - 1) ≤ div.toNat :=
    Nat.lt_size.mp (Nat.sub_one_lt (Nat.size_pos.mpr hpos).ne')
  rw [divide, bits_eq_size, bits_eq_size, if_neg (by simpa [Nat.size_eq_zero] using hpos.ne')]
  split_ifs with hlt
  · have hsmall : num.toNat < div.toNat := (Nat.lt_size_self _).trans_le (Nat.lt_size.mp hlt)
    exact congrArg some (BitVec.eq_of_toNat_eq (by simp [Nat.div_eq_of_lt hsmall]))
  · obtain ⟨k, hk⟩ := Nat.exists_eq_add_of_le (not_lt.mp hlt)
    rw [hk, Nat.add_sub_cancel_left]
    have hshift : (div <<< k).toNat = div.toNat * 2 ^ (k + 1) / 2 := by
      rw [BitVec.toNat_shiftLeft, Nat.shiftLeft_eq, pow_succ 2 k, ← Nat.mul_assoc,
        Nat.mul_div_cancel _ two_pos]
      refine Nat.mod_eq_of_lt ?_
      calc div.toNat * 2 ^ k < 2 ^ div.toNat.size * 2 ^ k :=
            Nat.mul_lt_mul_of_pos_right (Nat.lt_size_self _) (Nat.two_pow_pos k)
        _ = 2 ^ num.toNat.size := by rw [← pow_add, hk]
        _ ≤ 2 ^ 256 := Nat.pow_le_pow_right two_pos (Nat.size_le.mpr num.isLt)
    have hnum : num.toNat < div.toNat * 2 ^ (k + 1) := by
      calc num.toNat < 2 ^ num.toNat.size := Nat.lt_size_self _
        _ = 2 ^ (div.toNat.size - 1) * 2 ^ (k + 1) := by
            have := Nat.size_pos.mpr hpos
            rw [← pow_add]
            congr 1
            omega
        _ ≤ div.toNat * 2 ^ (k + 1) := Nat.mul_le_mul_right _ hlow
    have hquotient := toNat_divLoop hpos 0 hshift hnum (dvd_zero _)
      (by simpa using (Nat.div_le_self _ _).trans_lt num.isLt)
    exact congrArg some (BitVec.eq_of_toNat_eq (by simpa using hquotient))

end Lithium
