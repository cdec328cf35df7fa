import Lithium.Lib.Word32

/-!
# SHA-256

The portable transform of `crypto/sha256.cpp`. The registers `a` to `h` and
the sixteen words of the message schedule are arguments of one recursion over
the round constants, in the place of the local variables that the source
unrolls: the word used by a round leaves the schedule and the word sixteen
rounds later enters it.

Nothing in the development depends on how the digest is computed, except that
concrete blocks can be hashed. `sha256` is therefore irreducible, and proofs
use only the length of a digest.
-/

namespace Lithium.Crypto
open Lithium.Lib
namespace Sha256

def ch (x y z : Nat) : Nat := z ^^^ (x &&& (y ^^^ z))
def maj (x y z : Nat) : Nat := (x &&& y) ||| (z &&& (x ||| y))
def Sigma0 (x : Nat) : Nat := rotr32 x 2 ^^^ rotr32 x 13 ^^^ rotr32 x 22
def Sigma1 (x : Nat) : Nat := rotr32 x 6 ^^^ rotr32 x 11 ^^^ rotr32 x 25
def sigma0 (x : Nat) : Nat := rotr32 x 7 ^^^ rotr32 x 18 ^^^ (x >>> 3)
def sigma1 (x : Nat) : Nat := rotr32 x 17 ^^^ rotr32 x 19 ^^^ (x >>> 10)

/-- The constants added in the sixty-four rounds. -/
def roundConstants : List Nat :=
  [0x428a2f98, 0x71374491, 0xb5c0fbcf, 0xe9b5dba5, 0x3956c25b, 0x59f111f1, 0x923f82a4, 0xab1c5ed5,
   0xd807aa98, 0x12835b01, 0x243185be, 0x550c7dc3, 0x72be5d74, 0x80deb1fe, 0x9bdc06a7, 0xc19bf174,
   0xe49b69c1, 0xefbe4786, 0x0fc19dc6, 0x240ca1cc, 0x2de92c6f, 0x4a7484aa, 0x5cb0a9dc, 0x76f988da,
   0x983e5152, 0xa831c66d, 0xb00327c8, 0xbf597fc7, 0xc6e00bf3, 0xd5a79147, 0x06ca6351, 0x14292967,
   0x27b70a85, 0x2e1b2138, 0x4d2c6dfc, 0x53380d13, 0x650a7354, 0x766a0abb, 0x81c2c92e, 0x92722c85,
   0xa2bfe8a1, 0xa81a664b, 0xc24b8b70, 0xc76c51a3, 0xd192e819, 0xd6990624, 0xf40e3585, 0x106aa070,
   0x19a4c116, 0x1e376c08, 0x2748774c, 0x34b0bcb5, 0x391c0cb3, 0x4ed8aa4a, 0x5b9cca4f, 0x682e6ff3,
   0x748f82ee, 0x78a5636f, 0x84c87814, 0x8cc70208, 0x90befffa, 0xa4506ceb, 0xbef9a3f7, 0xc67178f2]

def initialWords : Words8 :=
  ⟨0x6a09e667, 0xbb67ae85, 0x3c6ef372, 0xa54ff53a, 0x510e527f, 0x9b05688c, 0x1f83d9ab, 0x5be0cd19⟩

/-- The rounds for the given constants, from registers `a` to `h` and schedule
`w0` to `w15`. -/
def rounds : List Nat → Nat → Nat → Nat → Nat → Nat → Nat → Nat → Nat →
    Nat → Nat → Nat → Nat → Nat → Nat → Nat → Nat →
    Nat → Nat → Nat → Nat → Nat → Nat → Nat → Nat → Words8
  | [], a, b, c, d, e, f, g, h, _, _, _, _, _, _, _, _, _, _, _, _, _, _, _, _ =>
    ⟨a, b, c, d, e, f, g, h⟩
  | k :: ks, a, b, c, d, e, f, g, h,
      w0, w1, w2, w3, w4, w5, w6, w7, w8, w9, w10, w11, w12, w13, w14, w15 =>
      let t1 := h + Sigma1 e + ch e f g + (k + w0)
      let t2 := Sigma0 a + maj a b c
      rounds ks (wrap32 (t1 + t2)) a b c (wrap32 (d + t1)) e f g
        w1 w2 w3 w4 w5 w6 w7 w8 w9 w10 w11 w12 w13 w14 w15
        (wrap32 (sigma1 w14 + w9 + sigma0 w1 + w0))

def transform (s : Words8) (chunk : List Nat) : Words8 :=
  match chunk with
  | [w0, w1, w2, w3, w4, w5, w6, w7, w8, w9, w10, w11, w12, w13, w14, w15] =>
    match rounds roundConstants s.h0 s.h1 s.h2 s.h3 s.h4 s.h5 s.h6 s.h7
      w0 w1 w2 w3 w4 w5 w6 w7 w8 w9 w10 w11 w12 w13 w14 w15 with
    | ⟨a, b, c, d, e, f, g, h⟩ =>
      ⟨wrap32 (s.h0 + a), wrap32 (s.h1 + b), wrap32 (s.h2 + c), wrap32 (s.h3 + d),
        wrap32 (s.h4 + e), wrap32 (s.h5 + f), wrap32 (s.h6 + g), wrap32 (s.h7 + h)⟩
  | _ => s

/-- The compression function over `n` consecutive blocks. -/
def transforms : Nat → Words8 → Bytes → Words8
  | 0, s, _ => s
  | n + 1, s, bs => transforms n (transform s (beWords (bs.take 64))) (bs.drop 64)

/-- What `Finalize` appends to a message of `n` bytes: a one bit, zeros up to
the last eight bytes of a block, and the length in bits. -/
def padding (n : Nat) : Bytes := 0x80 :: (List.replicate ((119 - n % 64) % 64) (0 : UInt8) ++
    (wordToBE ((n * 8) >>> 32) ++ wordToBE (n * 8)))

end Sha256

/-- The digest of `Finalize` after one `Write` of the whole message. -/
@[irreducible] def sha256 (bs : Bytes) : Bytes :=
  let padded := bs ++ Sha256.padding bs.length
  (Sha256.transforms (padded.length / 64) Sha256.initialWords padded).toBytes

@[simp] theorem sha256_length (bs : Bytes) : (sha256 bs).length = 32 := by
  rw [sha256]
  exact Words8.toBytes_length _

end Lithium.Crypto
