import Lithium.Lib.Word32

/-!
# Blake-256 with eight rounds

The proof-of-work hash of block headers, from `crypto/blake/blake.cpp`: the
compression function stops after round seven of the fourteen that the
published function has. The salt words are zero throughout, and are left out
of the formulas they would only be xored into.

The context follows the source: a chaining value, the bit counter split into
`t0` and `t1`, and the bytes of the block that is not full yet. `close`
subtracts from the counter before the last compressions add 512 again, so the
counter of a final block counts message bits only, and it is wrapped the same
way.
-/

namespace Lithium.Crypto
open Lithium.Lib
namespace Blake256

/-- The constants `CS0` to `CSF`. -/
def constants : List Nat :=
  [0x243F6A88, 0x85A308D3, 0x13198A2E, 0x03707344, 0xA4093822, 0x299F31D0, 0x082EFA98, 0xEC4E6C89,
   0x452821E6, 0x38D01377, 0xBE5466CF, 0x34E90C6C, 0xC0AC29B7, 0xC97C50DD, 0x3F84D5B5, 0xB5470917]

/-- The message permutations of the eight rounds. -/
def sigma : List (List Nat) := [[0, 1, 2, 3, 4, 5, 6, 7, 8, 9, 10, 11, 12, 13, 14, 15],
   [14, 10, 4, 8, 9, 15, 13, 6, 1, 12, 0, 2, 11, 7, 5, 3],
   [11, 8, 12, 0, 5, 2, 15, 13, 10, 14, 3, 6, 7, 1, 9, 4],
   [7, 9, 3, 1, 13, 12, 11, 14, 2, 6, 5, 10, 4, 0, 15, 8],
   [9, 0, 5, 7, 2, 4, 10, 15, 14, 1, 11, 12, 6, 8, 3, 13],
   [2, 12, 6, 10, 0, 11, 8, 3, 4, 13, 7, 5, 15, 14, 1, 9],
   [12, 5, 1, 15, 14, 13, 4, 10, 0, 7, 6, 3, 9, 2, 8, 11],
   [13, 11, 7, 14, 12, 1, 3, 9, 5, 0, 15, 4, 8, 6, 2, 10]]

def iv256 : Words8 :=
  ⟨0x6A09E667, 0xBB67AE85, 0x3C6EF372, 0xA54FF53A, 0x510E527F, 0x9B05688C, 0x1F83D9AB, 0x5BE0CD19⟩

/-- The quarter round `GS` on four registers, with the message words and the
constants at positions `i` and `j`. -/
def gs (m : List Nat) (i j a b c d : Nat) : Nat × Nat × Nat × Nat :=
  let a := wrap32 (a + b + (m.getD i 0 ^^^ constants.getD j 0))
  let d := rotr32 (d ^^^ a) 16
  let c := wrap32 (c + d)
  let b := rotr32 (b ^^^ c) 12
  let a := wrap32 (a + b + (m.getD j 0 ^^^ constants.getD i 0))
  let d := rotr32 (d ^^^ a) 8
  let c := wrap32 (c + d)
  let b := rotr32 (b ^^^ c) 7
  (a, b, c, d)

/-- The rounds for the given permutations. The result is what the registers
add to the chaining value. -/
def rounds (m : List Nat) : List (List Nat) → Nat → Nat → Nat → Nat → Nat → Nat → Nat → Nat →
    Nat → Nat → Nat → Nat → Nat → Nat → Nat → Nat → Words8
  | [s0, s1, s2, s3, s4, s5, s6, s7, s8, s9, sA, sB, sC, sD, sE, sF] :: rs,
      v0, v1, v2, v3, v4, v5, v6, v7, v8, v9, vA, vB, vC, vD, vE, vF =>
      match gs m s0 s1 v0 v4 v8 vC, gs m s2 s3 v1 v5 v9 vD,
        gs m s4 s5 v2 v6 vA vE, gs m s6 s7 v3 v7 vB vF with
      | (v0, v4, v8, vC), (v1, v5, v9, vD), (v2, v6, vA, vE), (v3, v7, vB, vF) =>
        match gs m s8 s9 v0 v5 vA vF, gs m sA sB v1 v6 vB vC,
          gs m sC sD v2 v7 v8 vD, gs m sE sF v3 v4 v9 vE with
        | (v0, v5, vA, vF), (v1, v6, vB, vC), (v2, v7, v8, vD), (v3, v4, v9, vE) =>
          rounds m rs v0 v1 v2 v3 v4 v5 v6 v7 v8 v9 vA vB vC vD vE vF
  | _, v0, v1, v2, v3, v4, v5, v6, v7, v8, v9, vA, vB, vC, vD, vE, vF =>
    ⟨v0 ^^^ v8, v1 ^^^ v9, v2 ^^^ vA, v3 ^^^ vB, v4 ^^^ vC, v5 ^^^ vD, v6 ^^^ vE, v7 ^^^ vF⟩

/-- `COMPRESS32` on one block of sixteen words. -/
def compress (h : Words8) (t0 t1 : Nat) (m : List Nat) : Words8 :=
  match rounds m sigma h.h0 h.h1 h.h2 h.h3 h.h4 h.h5 h.h6 h.h7
    0x243F6A88 0x85A308D3 0x13198A2E 0x03707344
    (t0 ^^^ 0xA4093822) (t0 ^^^ 0x299F31D0) (t1 ^^^ 0x082EFA98) (t1 ^^^ 0xEC4E6C89) with
  | ⟨d0, d1, d2, d3, d4, d5, d6, d7⟩ =>
    ⟨h.h0 ^^^ d0, h.h1 ^^^ d1, h.h2 ^^^ d2, h.h3 ^^^ d3,
      h.h4 ^^^ d4, h.h5 ^^^ d5, h.h6 ^^^ d6, h.h7 ^^^ d7⟩

/-- The hash context between two calls. -/
structure Context where
  h : Words8
  t0 : Nat
  t1 : Nat
  /-- the bytes of the block being filled -/
  buf : Bytes

/-- Compress the full blocks at the front of the buffer, at most `n` of
them. -/
def flush : Nat → Context → Context
  | 0, sc => sc
  | n + 1, sc =>
    if sc.buf.length < 64 then sc
    else
      let t0 := wrap32 (sc.t0 + 512)
      let t1 := if t0 < 512 then wrap32 (sc.t1 + 1) else sc.t1
      flush n ⟨compress sc.h t0 t1 (beWords (sc.buf.take 64)), t0, t1, sc.buf.drop 64⟩

/-- `blake32`: absorb `data`. -/
def update (sc : Context) (data : Bytes) : Context :=
  let buf := sc.buf ++ data
  flush (buf.length / 64) { sc with buf := buf }

/-- `blake32_close` for a whole number of bytes and eight output words. -/
def close (sc : Context) : Bytes :=
  let ptr := sc.buf.length
  let bitLen := ptr * 8
  let lengthBytes := wordToBE sc.t1 ++ wordToBE (sc.t0 + bitLen)
  let adjusted : Context :=
    if ptr = 0 then { sc with t0 := 0xFFFFFE00, t1 := 0xFFFFFFFF }
    else if sc.t0 = 0 then
      { sc with t0 := wrap32 (0xFFFFFE00 + bitLen), t1 := wrap32 (sc.t1 + 0xFFFFFFFF) }
    else { sc with t0 := wrap32 (sc.t0 + 4294967296 - (512 - bitLen)) }
  if bitLen ≤ 446 then
    -- the one bit that ends the message and the one before the length share
    -- a byte when the message leaves room for a single one
    let pad : Bytes :=
      if ptr = 55 then [0x81] else 0x80 :: (List.replicate (54 - ptr) (0 : UInt8) ++ [0x01])
    (update adjusted (pad ++ lengthBytes)).h.toBytes
  else
    let full := update adjusted (0x80 :: List.replicate (63 - ptr) (0 : UInt8))
    let last := update { full with t0 := 0xFFFFFE00, t1 := 0xFFFFFFFF }
      (List.replicate 55 (0 : UInt8) ++ 0x01 :: lengthBytes)
    last.h.toBytes

end Blake256

/-- `Hashblake`: one pass over the whole input. -/
@[irreducible] def hashblake (bs : Bytes) : Bytes :=
  Blake256.close (Blake256.update ⟨Blake256.iv256, 0, 0, []⟩ bs)

@[simp] theorem hashblake_length (bs : Bytes) : (hashblake bs).length = 32 := by
  rw [hashblake, Blake256.close]
  split <;> exact Words8.toBytes_length _

end Lithium.Crypto
