import Lithium.Crypto.Sha256

/-!
# SHA-1 and RIPEMD-160

The two digests of twenty bytes that scripts can ask for, from `crypto/sha1.cpp`
and `crypto/ripemd160.cpp`. The source unrolls the rounds and permutes the names
of the five registers from one to the next; here a round returns the registers
under the names they have in the next one. The number of rounds is a multiple
of five, so that the names are back in place at the end.
-/

namespace Lithium.Crypto
open Lithium.Lib

structure Words5 where
  (a b c d e : Nat)

def rotl32 (x n : Nat) : Nat := rotr32 x (32 - n)

/-- The chaining value before the first block, of both functions. -/
def initialWords5 : Words5 := ⟨0x67452301, 0xefcdab89, 0x98badcfe, 0x10325476, 0xc3d2e1f0⟩

/-- A compression function over `n` consecutive blocks. -/
def transforms5 (transform : Words5 → Bytes → Words5) : Nat → Words5 → Bytes → Words5
  | 0, s, _ => s
  | n + 1, s, bs => transforms5 transform n (transform s (bs.take 64)) (bs.drop 64)

namespace Sha1

def f1 (b c d : Nat) : Nat := d ^^^ (b &&& (c ^^^ d))
def f2 (b c d : Nat) : Nat := b ^^^ c ^^^ d
def f3 (b c d : Nat) : Nat := (b &&& c) ||| (d &&& (b ||| c))

/-- The function and the constant of round `i`. -/
def roundFunction (i : Nat) : (Nat → Nat → Nat → Nat) × Nat :=
  if i < 20 then (f1, 0x5a827999)
  else if i < 40 then (f2, 0x6ed9eba1)
  else if i < 60 then (f3, 0x8f1bbcdc)
  else (f2, 0xca62c1d6)

def round (i w : Nat) (s : Words5) : Words5 :=
  match roundFunction i with
  | (f, k) => ⟨wrap32 (s.e + rotl32 s.a 5 + f s.b s.c s.d + k + w), s.a, rotl32 s.b 30, s.c, s.d⟩

/-- The word sixteen rounds after the first of the schedule. -/
def nextWord : List Nat → Nat
  | w0 :: _ :: w2 :: _ :: _ :: _ :: _ :: _ :: w8 :: _ :: _ :: _ :: _ :: w13 :: _ =>
    rotl32 (w0 ^^^ w13 ^^^ w8 ^^^ w2) 1
  | _ => 0

/-- `n` rounds from round `i` on, with the next sixteen words. -/
def rounds : Nat → Nat → List Nat → Words5 → Words5
  | 0, _, _, s => s
  | n + 1, i, ws, s => rounds n (i + 1) (ws.tail ++ [nextWord ws]) (round i (ws.headD 0) s)

def transform (s : Words5) (chunk : Bytes) : Words5 :=
  match rounds 80 0 (beWords chunk) s with
  | ⟨a, b, c, d, e⟩ =>
    ⟨wrap32 (s.a + a), wrap32 (s.b + b), wrap32 (s.c + c), wrap32 (s.d + d), wrap32 (s.e + e)⟩

end Sha1

/-- The digest of `CSHA1` after one `Write` of the whole message. -/
@[irreducible] def sha1 (bs : Bytes) : Bytes :=
  let padded := bs ++ Sha256.padding bs.length
  let s := transforms5 Sha1.transform (padded.length / 64) initialWords5 padded
  wordToBE s.a ++ wordToBE s.b ++ wordToBE s.c ++ wordToBE s.d ++ wordToBE s.e

namespace Ripemd160

def not32 (x : Nat) : Nat := x ^^^ 0xffffffff

variable (x y z : Nat)

def f1 : Nat := x ^^^ y ^^^ z
def f2 : Nat := (x &&& y) ||| (not32 x &&& z)
def f3 : Nat := (x ||| not32 y) ^^^ z
def f4 : Nat := (x &&& z) ||| (y &&& not32 z)
def f5 : Nat := x ^^^ (y ||| not32 z)

/-- Sixteen rounds: their function and constant, and for each the word it uses
and the amount of its rotation. -/
structure Group where
  f : Nat → Nat → Nat → Nat
  k : Nat
  steps : List (Nat × Nat)

/-- `R11` to `R51`. -/
def left : List Group :=
  [⟨f1, 0, [(0, 11), (1, 14), (2, 15), (3, 12), (4, 5), (5, 8), (6, 7), (7, 9), (8, 11), (9, 13),
      (10, 14), (11, 15), (12, 6), (13, 7), (14, 9), (15, 8)]⟩,
    ⟨f2, 0x5a827999, [(7, 7), (4, 6), (13, 8), (1, 13), (10, 11), (6, 9), (15, 7), (3, 15), (12, 7),
      (0, 12), (9, 15), (5, 9), (2, 11), (14, 7), (11, 13), (8, 12)]⟩,
    ⟨f3, 0x6ed9eba1,
      [(3, 11), (10, 13), (14, 6), (4, 7), (9, 14), (15, 9), (8, 13), (1, 15), (2, 14),
      (7, 8), (0, 13), (6, 6), (13, 5), (11, 12), (5, 7), (12, 5)]⟩,
    ⟨f4, 0x8f1bbcdc,
      [(1, 11), (9, 12), (11, 14), (10, 15), (0, 14), (8, 15), (12, 9), (4, 8), (13, 9),
      (3, 14), (7, 5), (15, 6), (14, 8), (5, 6), (6, 5), (2, 12)]⟩,
    ⟨f5, 0xa953fd4e, [(4, 9), (0, 15), (5, 5), (9, 11), (7, 6), (12, 8), (2, 13), (10, 12), (14, 5),
      (1, 12), (3, 13), (8, 14), (11, 11), (6, 8), (15, 5), (13, 6)]⟩]

/-- `R12` to `R52`. -/
def right : List Group :=
  [⟨f5, 0x50a28be6, [(5, 8), (14, 9), (7, 9), (0, 11), (9, 13), (2, 15), (11, 15), (4, 5), (13, 7),
      (6, 7), (15, 8), (8, 11), (1, 14), (10, 14), (3, 12), (12, 6)]⟩,
    ⟨f4, 0x5c4dd124,
      [(6, 9), (11, 13), (3, 15), (7, 7), (0, 12), (13, 8), (5, 9), (10, 11), (14, 7),
      (15, 7), (8, 12), (12, 7), (4, 6), (9, 15), (1, 13), (2, 11)]⟩,
    ⟨f3, 0x6d703ef3, [(15, 9), (5, 7), (1, 15), (3, 11), (7, 8), (14, 6), (6, 6), (9, 14), (11, 12),
      (8, 13), (12, 5), (2, 14), (10, 13), (0, 13), (4, 7), (13, 5)]⟩,
    ⟨f2, 0x7a6d76e9, [(8, 15), (6, 5), (4, 8), (1, 11), (3, 14), (11, 14), (15, 6), (0, 14), (5, 6),
      (12, 9), (2, 12), (13, 9), (9, 12), (7, 5), (10, 15), (14, 8)]⟩,
    ⟨f1, 0, [(12, 8), (15, 5), (10, 12), (4, 9), (1, 12), (5, 5), (8, 14), (7, 6), (6, 8), (2, 13),
      (13, 6), (14, 5), (0, 15), (3, 13), (9, 11), (11, 11)]⟩]

def round (ws : List Nat) (f : Nat → Nat → Nat → Nat) (k : Nat) (s : Words5) (step : Nat × Nat) :
    Words5 :=
  ⟨s.e, wrap32 (rotl32 (wrap32 (s.a + f s.b s.c s.d + ws.getD step.1 0 + k)) step.2 + s.e), s.b,
    rotl32 s.c 10, s.d⟩

def rounds (ws : List Nat) (groups : List Group) (s : Words5) : Words5 :=
  groups.foldl (fun s g => g.steps.foldl (round ws g.f g.k) s) s

/-- The words of a block, least significant byte first. -/
def leWords : Bytes → List Nat
  | b₀ :: b₁ :: b₂ :: b₃ :: rest =>
    (((b₃.toNat * 256 + b₂.toNat) * 256 + b₁.toNat) * 256 + b₀.toNat) :: leWords rest
  | _ => []

def transform (s : Words5) (chunk : Bytes) : Words5 :=
  let ws := leWords chunk
  match rounds ws left s, rounds ws right s with
  | ⟨a1, b1, c1, d1, e1⟩, ⟨a2, b2, c2, d2, e2⟩ =>
    ⟨wrap32 (s.b + c1 + d2), wrap32 (s.c + d1 + e2), wrap32 (s.d + e1 + a2),
      wrap32 (s.e + a1 + b2), wrap32 (s.a + b1 + c2)⟩

/-- As `Sha256.padding`, with the length in the other byte order. -/
def padding (n : Nat) : Bytes :=
  0x80 :: (List.replicate ((119 - n % 64) % 64) (0 : UInt8) ++ natToLE 8 (n * 8))

end Ripemd160

/-- The digest of `CRIPEMD160` after one `Write` of the whole message. -/
@[irreducible] def ripemd160 (bs : Bytes) : Bytes :=
  let padded := bs ++ Ripemd160.padding bs.length
  let s := transforms5 Ripemd160.transform (padded.length / 64) initialWords5 padded
  natToLE 4 s.a ++ natToLE 4 s.b ++ natToLE 4 s.c ++ natToLE 4 s.d ++ natToLE 4 s.e

def hash160 (bs : Bytes) : Bytes := ripemd160 (sha256 bs)

end Lithium.Crypto
