import Lithium.Uint256
import Mathlib.Data.Nat.Bitwise

/-!
# Serialisation of integers, blobs and vectors

The primitives of `serialize.h`. A writer is a function to bytes; a reader is
a decoder whose failures are those of the source. Running out of input is a
failure of its own, because its text belongs to the stream that is read and
not to the format.

`ReadCompactSize` refuses lengths above `MAX_SIZE` unless it is told not to.
The refusal is visible in the type of the checked reader, so that whatever is
built from a length that was read is known to be bounded. The writer has no
such limit: a vector longer than `MAX_SIZE` can be written and not read back.
-/

namespace Lithium
open Lib Decoder List UInt8

inductive StreamError where
  | endOfData
  | failure (what : String)
deriving DecidableEq, Repr

abbrev Reader (α : Type) := Decoder StreamError α

/-! ### Fixed-width integers and blobs -/

def serUInt32 (x : UInt32) : Bytes := natToLE 4 x.toNat
def serInt32 (x : Int32) : Bytes := serUInt32 x.toUInt32
def serInt64 (x : Int64) : Bytes := natToLE 8 x.toUInt64.toNat
def serUint256 (x : Uint256) : Bytes := x.data

/-- The eight hexadecimal digits of `%08x`. -/
def hex32 (x : UInt32) : String := Uint256.hexStr (serUInt32 x).reverse

def readUInt8 : Reader UInt8 := do
  let n ← natLE .endOfData 1
  pure (ofNat n)

def readUInt32 : Reader UInt32 := do
  let n ← natLE .endOfData 4
  pure (UInt32.ofNat n)

def readInt32 : Reader Int32 := do
  let x ← readUInt32
  pure x.toInt32

def readInt64 : Reader Int64 := do
  let n ← natLE .endOfData 8
  pure (UInt64.ofNat n).toInt64

def readUint256 : Reader Uint256 := do
  let bs ← take .endOfData 32
  pure ⟨bs.val, bs.property⟩

@[simp] theorem serUInt32_length (x : UInt32) : (serUInt32 x).length = 4 := natToLE_length _ _
@[simp] theorem serInt32_length (x : Int32) : (serInt32 x).length = 4 := serUInt32_length _
@[simp] theorem serUint256_length (x : Uint256) : (serUint256 x).length = 32 := x.size

theorem exact_uint8 : Exact readUInt8 (fun _ => True) fun x => natToLE 1 x.toNat :=
  (exact_natLE _ 1).map toNat (fun _ hn => ⟨trivial, toNat_ofNat_of_lt' hn⟩)
    fun x _ => ⟨x.toNat_lt, UInt8.ofNat_toNat⟩

theorem exact_uint32 : Exact readUInt32 (fun _ => True) serUInt32 :=
  (exact_natLE _ 4).map UInt32.toNat (fun _ hn => ⟨trivial, UInt32.toNat_ofNat_of_lt' hn⟩)
    fun x _ => ⟨x.toNat_lt, UInt32.ofNat_toNat⟩

theorem exact_int32 : Exact readInt32 (fun _ => True) serInt32 :=
  exact_uint32.map Int32.toUInt32 (fun _ _ => ⟨trivial, rfl⟩)
    fun x _ => ⟨trivial, Int32.toInt32_toUInt32 x⟩

theorem exact_int64 : Exact readInt64 (fun _ => True) serInt64 :=
  (exact_natLE _ 8).map (fun x : Int64 => x.toUInt64.toNat)
    (fun _ hn => ⟨trivial, UInt64.toNat_ofNat_of_lt' hn⟩)
    fun x _ => ⟨x.toUInt64.toNat_lt, by rw [UInt64.ofNat_toNat, Int64.toInt64_toUInt64]⟩

theorem exact_uint256 : Exact readUint256 (fun _ => True) serUint256 :=
  (exact_take _ 32).map (fun x : Uint256 => ⟨x.data, x.size⟩) (fun _ _ => ⟨trivial, rfl⟩)
    fun _ _ => ⟨trivial, rfl⟩

/-! ### Lengths -/

/-- `MAX_SIZE`, the longest vector a reader accepts. -/
def maxSize : Nat := 0x02000000

def writeCompactSize (nSize : Nat) : Bytes :=
  if nSize < 253 then natToLE 1 nSize
  else if nSize ≤ 0xffff then natToLE 1 253 ++ natToLE 2 nSize
  else if nSize ≤ 0xffffffff then natToLE 1 254 ++ natToLE 4 nSize
  else natToLE 1 255 ++ natToLE 8 nSize

/-- The number after a marker byte, which has to need its width. -/
def readCanonical (w least : Nat) : Reader Nat := do
  let n ← natLE .endOfData w
  if n < least then throw (.failure "non-canonical ReadCompactSize()")
  pure n

/-- `ReadCompactSize` with `range_check` off. -/
def readCompactSizeUnchecked : Reader Nat := do
  let chSize ← natLE .endOfData 1
  if chSize < 253 then pure chSize
  else if chSize = 253 then readCanonical 2 253
  else if chSize = 254 then readCanonical 4 0x10000
  else readCanonical 8 0x100000000

/-- `ReadCompactSize` with `range_check` on, as it is by default. -/
def readCompactSize : Reader {n : Nat // n ≤ maxSize} := do
  let nSizeRet ← readCompactSizeUnchecked
  if h : nSizeRet ≤ maxSize then pure ⟨nSizeRet, h⟩
  else throw (.failure "ReadCompactSize(): size too large")

theorem exact_canonical (w least : Nat) :
    Exact (readCanonical w least) (fun n => least ≤ n ∧ n < 256 ^ w) (natToLE w) := by
  intro input n rest
  simp only [readCanonical, run_bind_ok, exact_natLE _ _ _ _ _]
  constructor
  · rintro ⟨m, _, ⟨hm, rfl⟩, hrun⟩
    split at hrun
    · cases hrun
    · cases hrun
      exact ⟨⟨by omega, hm⟩, rfl⟩
  · rintro ⟨⟨hlo, hhi⟩, rfl⟩
    refine ⟨n, rest, ⟨hhi, rfl⟩, ?_⟩
    rw [if_neg (by omega)]
    rfl

/-- A length that is accepted has the one encoding that is written for it. -/
theorem exact_compactSizeUnchecked :
    Exact readCompactSizeUnchecked (· < 2 ^ 64) writeCompactSize := by
  intro input n rest
  simp only [readCompactSizeUnchecked, run_bind_ok, exact_natLE _ _ _ _ _]
  constructor
  · rintro ⟨chSize, _, ⟨hch, rfl⟩, hrun⟩
    rw [writeCompactSize]
    split_ifs at hrun with h1 h2 h3
    · obtain ⟨rfl, rfl⟩ := run_pure_ok.mp hrun
      exact ⟨by omega, by rw [if_pos h1]⟩
    all_goals
      obtain ⟨hn, rfl⟩ := (exact_canonical _ _ _ _ _).mp hrun
      refine ⟨by omega, ?_⟩
    · rw [if_neg (by omega), if_pos (by omega), h2, append_assoc]
    · rw [if_neg (by omega), if_neg (by omega), if_pos (by omega), h3, append_assoc]
    · obtain rfl : chSize = 255 := by omega
      rw [if_neg (by omega), if_neg (by omega), if_neg (by omega), append_assoc]
  · rintro ⟨hn, rfl⟩
    rw [writeCompactSize]
    split_ifs with h1 h2 h3
    · exact ⟨n, rest, ⟨by omega, rfl⟩, by rw [if_pos h1]; rfl⟩
    · exact ⟨253, _, ⟨by omega, append_assoc ..⟩, (exact_canonical ..).mpr ⟨by omega, rfl⟩⟩
    · exact ⟨254, _, ⟨by omega, append_assoc ..⟩, (exact_canonical ..).mpr ⟨by omega, rfl⟩⟩
    · exact ⟨255, _, ⟨by omega, append_assoc ..⟩, (exact_canonical ..).mpr ⟨by omega, rfl⟩⟩

theorem exact_compactSize : Exact readCompactSize (fun _ => True) fun n =>
    writeCompactSize n.val := by
  rintro input ⟨n, hn⟩ rest
  simp only [readCompactSize, run_bind_ok, exact_compactSizeUnchecked _ _ _, true_and]
  constructor
  · rintro ⟨m, _, ⟨-, rfl⟩, hrun⟩
    split at hrun
    · cases hrun
      rfl
    · cases hrun
  · rintro rfl
    refine ⟨n, rest, ⟨lt_of_le_of_lt hn (by decide), rfl⟩, ?_⟩
    rw [dif_pos hn]
    rfl

/-! ### Variable-length integers

A base-128 number, most significant digit first, in which every digit but the
last has its top bit set and stands for one more than its value, so that each
number has one encoding. The writer fills a buffer backwards. -/

/-- The loop of `WriteVarInt`: `slots` are the free places of its buffer and
`acc` the bytes already placed. -/
def writeVarIntLoop : Nat → Nat → Bytes → Bytes
  | 0, _, acc => acc
  | slots + 1, n, acc =>
    let digit := ofNat (n % 128 + if acc.isEmpty then 0 else 128)
    if n ≤ 0x7f then digit :: acc
    else writeVarIntLoop slots (n / 128 - 1) (digit :: acc)

/-- `WriteVarInt` for a 32-bit unsigned number, whose buffer has five
bytes. -/
def writeVarInt (n : UInt32) : Bytes := writeVarIntLoop 5 n.toNat []

/-- `WriteVarInt` in mode `NONNEGATIVE_SIGNED`. A negative number passes the
test that ends the loop at once. -/
def writeVarIntSigned (n : Int32) : Bytes :=
  if n.toInt ≤ 0x7f then [ofNat (n.toUInt32.toNat % 128)]
  else writeVarIntLoop 5 n.toInt.toNat []

def writeVarIntSigned64 (n : Int64) : Bytes :=
  if n.toInt ≤ 0x7f then [ofNat (n.toUInt64.toNat % 128)]
  else writeVarIntLoop 10 n.toInt.toNat []

/-- `WriteVarInt` for a 64-bit unsigned number. -/
def writeVarInt64 (n : UInt64) : Bytes := writeVarIntLoop 10 n.toNat []

/-- The loop of `ReadVarInt` for a type with largest value `max`. -/
def readVarIntLoop (max : Nat) : Bytes → Nat → Except StreamError (Nat × Bytes)
  | [], _ => .error .endOfData
  | chData :: rest, n =>
    if n > max / 128 then .error (.failure "ReadVarInt(): size too large")
    else
      let n := n * 128 + chData.toNat % 128
      if 128 ≤ chData.toNat then
        if n = max then .error (.failure "ReadVarInt(): size too large")
        else readVarIntLoop max rest (n + 1)
      else .ok (n, rest)

def readVarInt : Reader UInt32 := do
  let n ← (fun input => readVarIntLoop 0xffffffff input 0 : Reader Nat)
  pure (UInt32.ofNat n)

def readVarInt64 : Reader UInt64 := do
  let n ← (fun input => readVarIntLoop 0xffffffffffffffff input 0 : Reader Nat)
  pure (UInt64.ofNat n)

def readVarIntSigned : Reader Int32 := do
  let n ← (fun input => readVarIntLoop 0x7fffffff input 0 : Reader Nat)
  pure (Int32.ofNat n)

/-- What is written in front of the digits `acc` if they are read with the
carry `c`: the reader adds one to a number that goes on. -/
def writeCarry (slots c : Nat) (acc : Bytes) : Bytes :=
  if c = 0 then acc else writeVarIntLoop slots (c - 1) acc

theorem writeVarIntLoop_succ (slots c : Nat) {d : Nat} (hd : d < 128) (acc : Bytes) :
    writeVarIntLoop (slots + 1) (c * 128 + d) acc =
      writeCarry slots c (ofNat (d + if acc.isEmpty then 0 else 128) :: acc) := by
  have hmod : (c * 128 + d) % 128 = d := by omega
  have hdiv : (c * 128 + d) / 128 = c := by omega
  rw [writeVarIntLoop, writeCarry, hmod, hdiv]
  split_ifs <;> first | rfl | omega

theorem readVarIntLoop_writeCarry {max slots c : Nat} {acc : Bytes} (hacc : acc ≠ [])
    (hslots : c < 128 ^ slots) (hmax : c ≤ max) (rest : Bytes) :
    readVarIntLoop max (writeCarry slots c acc ++ rest) 0 = readVarIntLoop max (acc ++ rest) c := by
  induction slots generalizing c acc with
  | zero =>
    obtain rfl : c = 0 := by omega
    rfl
  | succ slots ih =>
    by_cases hc : c = 0
    · subst hc
      rfl
    · rw [pow_succ] at hslots
      have hdigit : (ofNat ((c - 1) % 128 + 128)).toNat = (c - 1) % 128 + 128 := by
        rw [toNat_ofNat']
        omega
      have hwr :=
        writeVarIntLoop_succ slots ((c - 1) / 128) (Nat.mod_lt (c - 1) (by norm_num)) acc
      rw [Nat.div_add_mod', isEmpty_eq_false_iff.mpr hacc] at hwr
      rw [writeCarry, if_neg hc, hwr, if_neg Bool.false_ne_true,
        ih (by simp) (by omega) (by omega),
        cons_append, readVarIntLoop, hdigit, if_neg (by omega)]
      dsimp only
      rw [if_pos (by omega), if_neg (by omega)]
      congr 1
      omega

/-- The number that was read is written as the bytes it was read from, in every
buffer that has room for them. -/
theorem writeVarIntLoop_read {max : Nat} (hmax : max % 128 = 127) {input : Bytes} {c n : Nat}
    {rest : Bytes} (h : readVarIntLoop max input c = .ok (n, rest)) :
    n ≤ max ∧ ∃ bs, input = bs ++ rest ∧ bs ≠ [] ∧
      ∀ slots, writeVarIntLoop (slots + bs.length) n [] = writeCarry slots c bs := by
  induction input generalizing c with
  | nil => cases h
  | cons chData input ih =>
    have hlt : chData.toNat < 256 := chData.toNat_lt
    have hdigit (slots : Nat) (acc : Bytes)
        (hch : chData.toNat = chData.toNat % 128 + if acc.isEmpty then 0 else 128) :
        writeVarIntLoop (slots + 1) (c * 128 + chData.toNat % 128) acc =
          writeCarry slots c (chData :: acc) := by
      rw [writeVarIntLoop_succ slots c (Nat.mod_lt _ (by norm_num)), ← hch, UInt8.ofNat_toNat]
    simp only [readVarIntLoop] at h
    split_ifs at h with hbig hmore hend
    · obtain ⟨hle, bs, rfl, hne, hwr⟩ := ih h
      refine ⟨hle, chData :: bs, rfl, by simp, fun slots => ?_⟩
      rw [length_cons, Nat.add_comm bs.length, ← Nat.add_assoc, hwr, writeCarry,
        if_neg (Nat.succ_ne_zero _), Nat.add_sub_cancel]
      refine hdigit slots bs ?_
      rw [isEmpty_eq_false_iff.mpr hne, if_neg Bool.false_ne_true]
      omega
    · cases h
      exact ⟨by omega, [chData], rfl, by simp, fun slots => hdigit slots [] (by simp; omega)⟩

theorem exact_varIntLoop {max : Nat} (slots : Nat) (hslots : max < 128 ^ (slots + 1))
    (hmax : max % 128 = 127) :
    Exact (fun input => readVarIntLoop max input 0 : Reader Nat) (· ≤ max)
      (writeVarIntLoop (slots + 1) · []) := by
  have hreads (n : Nat) (hn : n ≤ max) (rest : Bytes) :
      readVarIntLoop max (writeVarIntLoop (slots + 1) n [] ++ rest) 0 = .ok (n, rest) := by
    have hdigit : (ofNat (n % 128)).toNat = n % 128 := by
      rw [toNat_ofNat']
      omega
    have hwr := writeVarIntLoop_succ slots (n / 128) (Nat.mod_lt n (by norm_num)) []
    rw [pow_succ] at hslots
    rw [Nat.div_add_mod'] at hwr
    rw [hwr, readVarIntLoop_writeCarry (by simp) (by omega) (by omega)]
    simp only [isEmpty_nil, if_true, Nat.add_zero, cons_append, readVarIntLoop, hdigit]
    rw [if_neg (by omega), if_neg (by omega), Nat.mod_mod, Nat.div_add_mod']
    rfl
  intro input n rest
  refine ⟨fun h => ?_, fun ⟨hn, hin⟩ => hin ▸ hreads n hn rest⟩
  obtain ⟨hn, bs, rfl, -, hbs⟩ := writeVarIntLoop_read hmax h
  obtain ⟨-, cs, hcs, -, hwr⟩ := writeVarIntLoop_read hmax (hreads n hn rest)
  have heq : bs = cs := by
    have h1 := hbs cs.length
    rw [Nat.add_comm, hwr] at h1
    exact h1.symm
  exact ⟨hn, by rw [hcs, heq]⟩

theorem exact_varInt : Exact readVarInt (fun _ => True) writeVarInt := by
  refine (exact_varIntLoop 4 (by decide) rfl).map UInt32.toNat ?_ ?_
  · exact fun n hn => ⟨trivial, UInt32.toNat_ofNat_of_lt' (by change n < 2 ^ 32; omega)⟩
  · intro n _
    have hn : n.toNat < 2 ^ 32 := n.toNat_lt
    exact ⟨by omega, UInt32.ofNat_toNat⟩

theorem reads_varInt (n : UInt32) : Reads readVarInt (writeVarInt n) n := exact_varInt.reads trivial

theorem exact_varInt64 : Exact readVarInt64 (fun _ => True) writeVarInt64 := by
  refine (exact_varIntLoop 9 (by decide) rfl).map UInt64.toNat ?_ ?_
  · exact fun n hn => ⟨trivial, UInt64.toNat_ofNat_of_lt' (by change n < 2 ^ 64; omega)⟩
  · intro n _
    have hn : n.toNat < 2 ^ 64 := n.toNat_lt
    exact ⟨by omega, UInt64.ofNat_toNat⟩

theorem reads_varInt64 (n : UInt64) : Reads readVarInt64 (writeVarInt64 n) n :=
  exact_varInt64.reads trivial

theorem toNat_toUInt64_of_nonneg {n : Int64} (h : 0 ≤ n.toInt) :
    n.toUInt64.toNat = n.toInt.toNat := by
  have hcond := n.toBitVec.toInt_eq_toNat_cond
  change n.toBitVec.toNat = n.toBitVec.toInt.toNat
  change 0 ≤ n.toBitVec.toInt at h
  omega

/-- Signed numbers survive when they are not negative. -/
theorem exact_varIntSigned : Exact readVarIntSigned (fun n => 0 ≤ n.toInt) writeVarIntSigned := by
  have hloop : Exact readVarIntSigned (fun n => 0 ≤ n.toInt)
      fun n => writeVarIntLoop 5 n.toInt.toNat [] := by
    refine (exact_varIntLoop 4 (by decide) rfl).map (fun n : Int32 => n.toInt.toNat) ?_ ?_
    · intro n hn
      rw [Int32.toInt_ofNat_of_lt (by omega)]
      omega
    · intro n hn
      have hlt : n.toInt < 2 ^ 31 := n.toInt_lt
      refine ⟨by omega, ?_⟩
      rw [← Int32.ofInt_eq_ofNat, Int.toNat_of_nonneg hn, Int32.ofInt_toInt]
  intro input n rest
  rw [hloop input n rest]
  refine and_congr_right fun hn => ?_
  rw [writeVarIntSigned]
  split_ifs with hsmall
  · have hnat : n.toUInt32.toNat = n.toInt.toNat := by
      have hcond := n.toBitVec.toInt_eq_toNat_cond
      change n.toBitVec.toNat = n.toBitVec.toInt.toNat
      change 0 ≤ n.toBitVec.toInt at hn
      omega
    simp only [writeVarIntLoop, hnat, isEmpty_nil, if_true, Nat.add_zero]
    rw [if_pos (by omega)]
  · rfl

theorem reads_varIntSigned {n : Int32} (h : 0 ≤ n.toInt) :
    Reads readVarIntSigned (writeVarIntSigned n) n := exact_varIntSigned.reads h

theorem yields_varIntSigned : Yields readVarIntSigned fun n => 0 ≤ n.toInt :=
    exact_varIntSigned.yields

/-! ### Vectors -/

section Vectors
variable {α : Type}

/-- A vector is its length and its elements. -/
def serVector (ser : α → Bytes) (xs : List α) : Bytes :=
  writeCompactSize xs.length ++ xs.flatMap ser

/-- A vector of bytes, or a script. -/
def serBytes (bs : Bytes) : Bytes := writeCompactSize bs.length ++ bs

theorem writeCompactSize_length_pos (n : Nat) : 1 ≤ (writeCompactSize n).length := by
  unfold writeCompactSize
  split
  · simp
  · split
    · simp
    · split <;> simp

/-- An encoding is at least as long as what it holds. -/
theorem length_le_serBytes (bs : Bytes) : bs.length ≤ (serBytes bs).length := by
  rw [serBytes, length_append]
  omega

variable {xs : List α} (ser : α → Bytes)

theorem length_le_flatMap_of_mem {x : α} (hx : x ∈ xs) :
    (ser x).length ≤ (xs.flatMap ser).length := by
  have hmem : ser x ∈ xs.map ser := mem_map_of_mem hx
  simpa [flatMap_def] using (sublist_flatten_of_mem hmem).length_le

theorem length_le_serVector_of_mem {x : α} (hx : x ∈ xs) :
    (ser x).length ≤ (serVector ser xs).length := by
  have hitem := length_le_flatMap_of_mem ser hx
  rw [serVector, length_append]
  omega

theorem length_le_serVector (hpos : ∀ x, 0 < (ser x).length) (xs : List α) :
    xs.length ≤ (serVector ser xs).length := by
  have hitems : xs.length ≤ (xs.flatMap ser).length := by
    induction xs with
    | nil => simp
    | cons x xs ih =>
      have h := hpos x
      simp only [length_cons, flatMap_cons, length_append]
      omega
  rw [serVector, length_append]
  omega

def readVector (read : Reader α) : Reader {xs : List α // xs.length ≤ maxSize} := do
  let n ← readCompactSize
  let xs ← many read n.val
  pure ⟨xs.val, xs.property.trans_le n.property⟩

def readBytes : Reader {bs : Bytes // bs.length ≤ maxSize} := do
  let n ← readCompactSize
  let bs ← take .endOfData n.val
  pure ⟨bs.val, bs.property.trans_le n.property⟩

variable {ser : α → Bytes}

theorem reads_vector {read : Reader α} (hlen : xs.length ≤ maxSize)
    (h : ∀ x ∈ xs, Reads read (ser x) x) :
    Reads (readVector read) (serVector ser xs) ⟨xs, hlen⟩ := by
  refine (exact_compactSize.reads (a := ⟨_, hlen⟩) trivial).bind ?_
  exact (reads_many xs h).map _

theorem exact_vector {read : Reader α} {P : α → Prop} (h : Exact read P ser) :
    Exact (readVector read) (fun xs => ∀ x ∈ xs.val, P x) fun xs => serVector ser xs.val := by
  rintro input ⟨xs, hlen⟩ rest
  simp only [readVector, run_bind_ok, exact_compactSize _ _ _, h.many _ _ _ _, run_pure_ok,
    true_and]
  constructor
  · rintro ⟨n, _, rfl, ⟨ys, hys⟩, _, ⟨hmem, rfl⟩, heq, rfl⟩
    cases heq
    exact ⟨hmem, by simp [serVector, hys]⟩
  · rintro ⟨hmem, rfl⟩
    exact ⟨⟨xs.length, hlen⟩, _, append_assoc .., ⟨xs, rfl⟩, rest, ⟨hmem, rfl⟩, rfl, rfl⟩

theorem exact_bytes : Exact readBytes (fun _ => True) fun bs => serBytes bs.val := by
  rintro input ⟨bs, hlen⟩ rest
  simp only [readBytes, run_bind_ok, exact_compactSize _ _ _, exact_take _ _ _ _ _, run_pure_ok,
    true_and]
  constructor
  · rintro ⟨n, _, rfl, ⟨cs, hcs⟩, _, rfl, heq, rfl⟩
    cases heq
    simp [serBytes, hcs]
  · rintro rfl
    exact ⟨⟨bs.length, hlen⟩, _, append_assoc .., ⟨bs, rfl⟩, rest, rfl, rfl, rfl⟩

/-! A vector too long to be read still delimits itself, as long as its length
is a 64-bit number. -/

theorem selfDelimiting_compactSize : SelfDelimiting (· < 2 ^ 64) writeCompactSize :=
  SelfDelimiting.of_reads fun _ h => exact_compactSizeUnchecked.reads h

theorem selfDelimiting_bytes : SelfDelimiting (fun bs : Bytes => bs.length < 2 ^ 64) serBytes := by
  intro a b r s ha hb h
  simp only [serBytes, append_assoc] at h
  obtain ⟨hlen, hrest⟩ := selfDelimiting_compactSize ha hb h
  exact append_inj hrest hlen

theorem selfDelimiting_vector {P : α → Prop} (hser : SelfDelimiting P ser) :
    SelfDelimiting (fun xs : List α => xs.length < 2 ^ 64 ∧ ∀ x ∈ xs, P x) (serVector ser) := by
  intro xs ys r s hxs hys h
  simp only [serVector, append_assoc] at h
  obtain ⟨hlen, hrest⟩ := selfDelimiting_compactSize hxs.1 hys.1 h
  exact hser.flatMap hxs.2 hys.2 hlen hrest

end Vectors

theorem selfDelimiting_uint32 : SelfDelimiting (fun _ => True) serUInt32 :=
  SelfDelimiting.of_reads fun _ _ => exact_uint32.reads trivial

theorem selfDelimiting_int32 : SelfDelimiting (fun _ => True) serInt32 :=
  SelfDelimiting.of_reads fun _ _ => exact_int32.reads trivial

theorem selfDelimiting_int64 : SelfDelimiting (fun _ => True) serInt64 :=
  SelfDelimiting.of_reads fun _ _ => exact_int64.reads trivial

theorem selfDelimiting_uint256 : SelfDelimiting (fun _ => True) serUint256 :=
  SelfDelimiting.of_reads fun _ _ => exact_uint256.reads trivial

end Lithium
