import Lithium.Crypto.Sha256
import Lithium.Crypto.Blake256
import Mathlib.Order.Lattice.Nat

/-!
# Opaque 256-bit blobs and 256-bit numbers

`uint256` is a string of thirty-two bytes. It is compared with `memcmp`, that
is lexicographically from byte zero, which is *not* the order of the numbers
the blobs denote: `UintToArith256` reads the bytes little-endian. Both orders
occur in the program, the first wherever a blob is the key of a `std::map`,
the second wherever a hash is compared with a target.

`arith_uint256` is a bit vector of width 256, whose operations wrap as those
of the source do.
-/

namespace Lithium
open Lib Crypto

/-- An opaque blob of 256 bits. -/
structure Uint256 where
  data : Bytes
  size : data.length = 32
deriving DecidableEq

namespace Uint256

theorem ext_data {a b : Uint256} (h : a.data = b.data) : a = b := by
  cases a
  simp_all

def zero : Uint256 := ⟨List.replicate 32 0, rfl⟩

instance : Inhabited Uint256 := ⟨zero⟩

def isNull (a : Uint256) : Bool := a.data.all (· == 0)

/-- The bytes as numbers, most significant for the comparison first. -/
def digits (a : Uint256) : List Nat := a.data.map UInt8.toNat

theorem digits_injective : Function.Injective digits := by
  intro a b h
  apply ext_data
  exact List.map_injective_iff.mpr (fun x y hxy => UInt8.toNat_inj.mp hxy) h

/-- `Compare`: lexicographic on unsigned bytes, as `memcmp`. -/
instance : LinearOrder Uint256 :=
  { LinearOrder.lift' digits digits_injective with
    toDecidableEq := inferInstance
    compare_eq_compareOfLessAndEq := fun a b =>
      ((LinearOrder.lift' digits digits_injective).compare_eq_compareOfLessAndEq a b).trans
        (by congr) }

/-- The character of a hexadecimal digit. -/
def hexDigit (n : Nat) : Char :=
  "0123456789abcdef".toList.getD n '0'

/-- The lower-case hexadecimal digits of some bytes. -/
def hexStr (bs : Bytes) : String :=
  String.ofList (bs.flatMap fun b => [hexDigit (b.toNat / 16), hexDigit (b.toNat % 16)])

/-- `GetHex` prints the bytes in reverse. -/
def getHex (a : Uint256) : String := hexStr a.data.reverse

theorem hexDigit_inj {m n : Nat} (hm : m < 16) (hn : n < 16) (h : hexDigit m = hexDigit n) :
    m = n := by
  have key : ∀ i : Fin 16, ∀ j : Fin 16, hexDigit i = hexDigit j → i = j := by decide +kernel
  exact congrArg Fin.val (key ⟨m, hm⟩ ⟨n, hn⟩ h)

theorem hexStr_injective : Function.Injective hexStr := by
  intro as bs h
  replace h := String.ofList_injective h
  induction as generalizing bs with
  | nil => cases bs <;> simp_all
  | cons a as ih =>
    cases bs with
    | nil => simp at h
    | cons b bs =>
      simp only [List.flatMap_cons, List.cons_append, List.nil_append, List.cons.injEq] at h
      have hhigh := hexDigit_inj (by have := a.toNat_lt; omega) (by have := b.toNat_lt; omega) h.1
      have hlow := hexDigit_inj (Nat.mod_lt _ (by decide)) (Nat.mod_lt _ (by decide)) h.2.1
      have hab : a = b := UInt8.toNat_inj.mp (by omega)
      rw [hab, ih h.2.2]

theorem getHex_injective : Function.Injective getHex := fun _ _ h =>
  ext_data (List.reverse_injective (hexStr_injective h))

end Uint256

/-! ### Hashes as blobs -/

def sha256Once (bs : Bytes) : Uint256 := ⟨sha256 bs, sha256_length bs⟩

/-- `Hash`: SHA-256 applied twice. -/
def hash256 (bs : Bytes) : Uint256 := ⟨sha256 (sha256 bs), sha256_length _⟩

/-- `Hash` of two blobs one after the other. -/
def hashPair (a b : Uint256) : Uint256 := hash256 (a.data ++ b.data)

def hashblake256 (bs : Bytes) : Uint256 := ⟨hashblake bs, hashblake_length bs⟩

/-! ### Numbers -/

abbrev ArithUint256 := BitVec 256

/-- `UintToArith256`: the bytes are little-endian. -/
def uintToArith256 (a : Uint256) : ArithUint256 := BitVec.ofNat 256 (leToNat a.data)

def arithToUint256 (a : ArithUint256) : Uint256 := ⟨natToLE 32 a.toNat, natToLE_length _ _⟩

end Lithium
