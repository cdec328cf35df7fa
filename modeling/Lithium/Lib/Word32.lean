import Lithium.Lib.Decoder

/-!
# 32-bit words as numbers

Hash functions compute on 32-bit words. A word is represented here by the
number it denotes, and an operation that can leave the range wraps its result.
Numbers rather than `UInt32` are used because closed hash values have to be
evaluated by the kernel, which computes with numerals directly.
-/

namespace Lithium.Lib

/-- Reduction to the range of a 32-bit word. -/
def wrap32 (x : Nat) : Nat := x % 4294967296

/-- Rotation to the right by `n` bits, for `0 < n < 32`. -/
def rotr32 (x n : Nat) : Nat := x >>> n ||| wrap32 (x <<< (32 - n))

/-- The big-endian 32-bit words of an input; a trailing partial word is
dropped. -/
def beWords : Bytes → List Nat
  | b₀ :: b₁ :: b₂ :: b₃ :: rest =>
    (((b₀.toNat * 256 + b₁.toNat) * 256 + b₂.toNat) * 256 + b₃.toNat) :: beWords rest
  | _ => []

/-- The four bytes of a word, most significant first. -/
def wordToBE (x : Nat) : Bytes :=
  [UInt8.ofNat (x >>> 24), UInt8.ofNat (x >>> 16), UInt8.ofNat (x >>> 8), UInt8.ofNat x]

/-- Eight words, the chaining value of the hash functions. -/
structure Words8 where
  (h0 h1 h2 h3 h4 h5 h6 h7 : Nat)
deriving DecidableEq, Repr

def Words8.toBytes (s : Words8) : Bytes :=
  wordToBE s.h0 ++ wordToBE s.h1 ++ wordToBE s.h2 ++ wordToBE s.h3 ++
    wordToBE s.h4 ++ wordToBE s.h5 ++ wordToBE s.h6 ++ wordToBE s.h7

@[simp] theorem Words8.toBytes_length (s : Words8) : s.toBytes.length = 32 := rfl

theorem or_and (a b mask : UInt32) : (a ||| b) &&& mask = a &&& mask ||| b &&& mask := by
  rw [← UInt32.toBitVec_inj]
  ext i hi
  simp only [UInt32.toBitVec_and, UInt32.toBitVec_or, BitVec.getElem_and, BitVec.getElem_or]
  exact Bool.and_or_distrib_right _ _ _

end Lithium.Lib
