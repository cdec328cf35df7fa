import Lithium.Coins
import Lithium.Consensus.TxCheck
import Lithium.Crypto.Secp256k1

/-!
# Compressed outputs

`compressor.h` and `compressor.cpp`: how outputs are written in the coins
database, in undo data and in snapshots. Amounts lose their trailing zeros, and
three kinds of scripts are replaced by what varies in them. An uncompressed
public key is only replaced if it is a point of the curve, since otherwise it
could not be found again.
-/

namespace Lithium
open Lib Decoder Opcode List UInt8 CScript Secp256k1

/-! ### Amounts -/

/-- The loop of `CompressAmount`; at most so many zeros are removed. -/
def stripZeros : Nat → UInt64 → Nat → UInt64 × Nat
  | 0, n, e => (n, e)
  | left + 1, n, e => if n % 10 = 0 then stripZeros left (n / 10) (e + 1) else (n, e)

def compressAmount (n : UInt64) : UInt64 :=
  if n = 0 then 0
  else
    match stripZeros 9 n 0 with
    | (n, e) =>
      if e < 9 then
        let d := n % 10
        1 + (n / 10 * 9 + d - 1) * 10 + UInt64.ofNat e
      else 1 + (n - 1) * 10 + 9

/-- The loop of `DecompressAmount`. -/
def appendZeros : Nat → UInt64 → UInt64
  | 0, n => n
  | e + 1, n => appendZeros e (n * 10)

def decompressAmount (x : UInt64) : UInt64 :=
  if x = 0 then 0
  else
    let x := x - 1
    let e := x % 10
    let x := x / 10
    if e < 9 then
      let d := x % 9 + 1
      appendZeros e.toNat (x / 9 * 10 + d)
    else appendZeros e.toNat (x + 1)

/-! The same functions in unbounded arithmetic. -/

def stripZerosNat : Nat → Nat → Nat → Nat × Nat
  | 0, n, e => (n, e)
  | left + 1, n, e => if n % 10 = 0 then stripZerosNat left (n / 10) (e + 1) else (n, e)

def compressAmountNat (n : Nat) : Nat :=
  if n = 0 then 0
  else
    match stripZerosNat 9 n 0 with
    | (n, e) => if e < 9 then 1 + (n / 10 * 9 + n % 10 - 1) * 10 + e else 1 + (n - 1) * 10 + 9

def decompressAmountNat (x : Nat) : Nat :=
  if x = 0 then 0
  else
    let e := (x - 1) % 10
    let x := (x - 1) / 10
    if e < 9 then (x / 9 * 10 + (x % 9 + 1)) * 10 ^ e else (x + 1) * 10 ^ e

/-- Removing zeros splits a number at a power of ten. -/
theorem stripZerosNat_spec (left n e : Nat) :
    ∃ m k, stripZerosNat left n e = (m, e + k) ∧ k ≤ left ∧ n = m * 10 ^ k ∧
      (k < left → m % 10 ≠ 0) := by
  induction left generalizing n e with
  | zero => exact ⟨n, 0, rfl, le_rfl, by simp, fun h => absurd h (Nat.lt_irrefl 0)⟩
  | succ left ih =>
    rw [stripZerosNat]
    split_ifs with hzero
    · obtain ⟨m, k, heq, hk, hn, hlast⟩ := ih (n / 10) (e + 1)
      refine ⟨m, k + 1, by rw [heq]; congr 1; omega, by omega, ?_, fun h => hlast (by omega)⟩
      rw [pow_succ, ← mul_assoc, ← hn]
      omega
    · exact ⟨n, 0, rfl, Nat.zero_le _, by simp, fun _ => hzero⟩

theorem decompressAmountNat_compressAmountNat (n : Nat) :
    decompressAmountNat (compressAmountNat n) = n := by
  rw [compressAmountNat]
  split_ifs with hzero
  · exact hzero.symm
  · obtain ⟨m, k, heq, hk, hn, hlast⟩ := stripZerosNat_spec 9 n 0
    have hpos : m ≠ 0 := fun hm => hzero (by rw [hn, hm, Nat.zero_mul])
    rw [heq]
    simp only [Nat.zero_add]
    split_ifs with hk9
    · have hd := hlast hk9
      have hx : 1 + (m / 10 * 9 + m % 10 - 1) * 10 + k - 1 =
        (m / 10 * 9 + m % 10 - 1) * 10 + k := by
        omega
      have he : ((m / 10 * 9 + m % 10 - 1) * 10 + k) % 10 = k := by omega
      have hdiv : ((m / 10 * 9 + m % 10 - 1) * 10 + k) / 10 = m / 10 * 9 + m % 10 - 1 := by omega
      rw [decompressAmountNat, if_neg (by omega), hx, he, hdiv]
      dsimp only
      rw [if_pos hk9, hn]
      congr 1
      omega
    · obtain rfl : k = 9 := by omega
      have hx : 1 + (m - 1) * 10 + 9 - 1 = (m - 1) * 10 + 9 := by omega
      have he : ((m - 1) * 10 + 9) % 10 = 9 := by omega
      have hdiv : ((m - 1) * 10 + 9) / 10 = m - 1 := by omega
      rw [decompressAmountNat, if_neg (by omega), hx, he, hdiv]
      dsimp only
      rw [if_neg (by omega), hn, Nat.sub_add_cancel (by omega)]

/-! Neither direction overflows on amounts. -/

theorem stripZeros_toNat (left : Nat) (n : UInt64) (e : Nat) :
    Prod.map UInt64.toNat id (stripZeros left n e) = stripZerosNat left n.toNat e := by
  induction left generalizing n e with
  | zero => rfl
  | succ left ih =>
    have hmod : n % 10 = 0 ↔ n.toNat % 10 = 0 := by
      rw [← UInt64.toNat_inj, UInt64.toNat_mod]
      rfl
    rw [stripZeros, stripZerosNat]
    simp only [hmod]
    split_ifs
    · rw [ih, UInt64.toNat_div]
      rfl
    · rfl

theorem appendZeros_toNat {e : Nat} {n : UInt64} (h : n.toNat * 10 ^ e < 2 ^ 64) :
    (appendZeros e n).toNat = n.toNat * 10 ^ e := by
  induction e generalizing n with
  | zero => simp [appendZeros]
  | succ e ih =>
    have hstep : (n * 10).toNat = n.toNat * 10 := by
      refine Nat.mod_eq_of_lt (lt_of_le_of_lt ?_ h)
      exact Nat.mul_le_mul_left _ (Nat.le_self_pow (Nat.succ_ne_zero e) 10)
    rw [pow_succ', ← mul_assoc] at h
    rw [appendZeros, ih (by rwa [hstep]), hstep, pow_succ', mul_assoc]

theorem compressAmount_toNat {n : UInt64} (h : n.toNat < 2 ^ 60) :
    (compressAmount n).toNat = compressAmountNat n.toNat := by
  obtain ⟨m, k, hnat, hk, hn, hlast⟩ := stripZerosNat_spec 9 n.toNat 0
  have hm : m ≤ n.toNat := by
    rw [hn]
    exact Nat.le_mul_of_pos_right _ (Nat.pow_pos (by norm_num))
  have hstr := stripZeros_toNat 9 n 0
  rw [hnat] at hstr
  rw [compressAmount, compressAmountNat, hnat]
  generalize stripZeros 9 n 0 = r at hstr
  obtain ⟨m', e⟩ := r
  obtain ⟨rfl, rfl⟩ := Prod.mk.inj hstr
  simp only [← UInt64.toNat_inj, UInt64.reduceToNat]
  split_ifs with hn0 hk9
  · rfl
  all_goals
    have hpos : m'.toNat ≠ 0 := fun hm => hn0 (by rw [hn, hm, Nat.zero_mul])
    simp only [UInt64.toNat_add, UInt64.toNat_mul, UInt64.toNat_sub, UInt64.toNat_div,
      UInt64.toNat_mod, UInt64.toNat_ofNat', UInt64.reduceToNat]
    omega

theorem decompressAmount_toNat {x : UInt64} (h : decompressAmountNat x.toNat < 2 ^ 64) :
    (decompressAmount x).toNat = decompressAmountNat x.toNat := by
  have hlt : x.toNat < 2 ^ 64 := x.toNat_lt
  rw [decompressAmountNat] at h ⊢
  rw [decompressAmount]
  by_cases hx : x.toNat = 0
  · rw [if_pos hx, if_pos (UInt64.toNat_inj.mp hx)]
    rfl
  · have hpred : (x - 1).toNat = x.toNat - 1 :=
      UInt64.toNat_sub_of_le _ _ (UInt64.le_iff_toNat_le.mpr (Nat.one_le_iff_ne_zero.mpr hx))
    rw [if_neg hx] at h ⊢
    rw [if_neg (mt (congrArg UInt64.toNat) hx)]
    simp only [UInt64.lt_iff_toNat_lt, UInt64.toNat_mod, hpred, UInt64.reduceToNat] at h ⊢
    split_ifs at h ⊢
    · have hr : ((x - 1) / 10 / 9 * 10 + ((x - 1) / 10 % 9 + 1)).toNat =
          (x.toNat - 1) / 10 / 9 * 10 + ((x.toNat - 1) / 10 % 9 + 1) := by
        simp only [UInt64.toNat_add, UInt64.toNat_mul, UInt64.toNat_div, UInt64.toNat_mod, hpred,
          UInt64.reduceToNat]
        omega
      rw [← hr] at h ⊢
      exact appendZeros_toNat h
    · have hr : ((x - 1) / 10 + 1).toNat = (x.toNat - 1) / 10 + 1 := by
        simp only [UInt64.toNat_add, UInt64.toNat_div, hpred, UInt64.reduceToNat]
        omega
      rw [← hr] at h ⊢
      exact appendZeros_toNat h

/-- Amounts up to a sixteenth of the largest number survive. -/
theorem decompressAmount_compressAmount {n : UInt64} (h : n.toNat < 2 ^ 60) :
    decompressAmount (compressAmount n) = n := by
  have hnat := decompressAmountNat_compressAmountNat n.toNat
  rw [← compressAmount_toNat h] at hnat
  have hlt : n.toNat < 2 ^ 64 := n.toNat_lt
  rw [← UInt64.toNat_inj, decompressAmount_toNat (by rwa [hnat]), hnat]

/-! ### Scripts -/

namespace CPubKey

/-- A public key is its bytes, of the length that the first one announces. -/
def isFullyValid (vch : Bytes) : Bool := (pubkeyParse vch).isSome

def decompress (vch : Bytes) : Option Bytes :=
  (pubkeyParse vch).map pubkeySerialize

end CPubKey

variable (script : Bytes)

def isToKeyID : Option Bytes :=
  if script.length = 25 ∧ script.take 3 = [ofNat opDup, ofNat opHash160, 20] ∧
      script.drop 23 = [ofNat opEqualverify, ofNat opChecksig] then
    some ((script.drop 3).take 20)
  else none

def isToScriptID : Option Bytes :=
  if script.length = 23 ∧ script.take 2 = [ofNat opHash160, 20] ∧
      script.drop 22 = [ofNat opEqual] then
    some ((script.drop 2).take 20)
  else none

def isToPubKey : Option Bytes :=
  if script.length = 35 ∧ script.take 1 = [33] ∧ script.drop 34 = [ofNat opChecksig] ∧
      ((script.drop 1).take 1 = [2] ∨ (script.drop 1).take 1 = [3]) then
    some ((script.drop 1).take 33)
  else if script.length = 67 ∧ script.take 1 = [65] ∧ script.drop 66 = [ofNat opChecksig] ∧
      (script.drop 1).take 1 = [4] then
    if CPubKey.isFullyValid ((script.drop 1).take 65) then some ((script.drop 1).take 65) else none
  else none

def compressScript : Option Bytes :=
  match isToKeyID script with
  | some keyID => some (0 :: keyID)
  | none =>
    match isToScriptID script with
    | some scriptID => some (1 :: scriptID)
    | none =>
      match isToPubKey script with
      | none => none
      | some pubkey =>
        let header := pubkey.headD 0xff
        if header = 2 ∨ header = 3 then some (header :: (pubkey.drop 1).take 32)
        else if header = 4 then
          some ((4 ||| (pubkey.getD 64 0 &&& 1)) :: (pubkey.drop 1).take 32)
        else none

def getSpecialScriptSize (nSize : Nat) : Nat :=
  if nSize = 0 ∨ nSize = 1 then 20
  else if nSize = 2 ∨ nSize = 3 ∨ nSize = 4 ∨ nSize = 5 then 32
  else 0

def decompressScript (nSize : Nat) (content : Bytes) : Option Bytes :=
  if nSize = 0 then
    some ([ofNat opDup, ofNat opHash160, 20] ++ content ++
      [ofNat opEqualverify, ofNat opChecksig])
  else if nSize = 1 then
    some ([ofNat opHash160, 20] ++ content ++ [ofNat opEqual])
  else if nSize = 2 ∨ nSize = 3 then
    some ([33, ofNat nSize] ++ content ++ [ofNat opChecksig])
  else if nSize = 4 ∨ nSize = 5 then
    (CPubKey.decompress (ofNat (nSize - 2) :: content)).map fun pubkey =>
      65 :: pubkey ++ [ofNat opChecksig]
  else none

def nSpecialScripts : Nat := 6

/-- `ScriptCompression::Ser`. -/
def serScriptCompressed (script : CScript) : Bytes :=
  match compressScript script.bytes with
  | some compr => compr
  | none => writeVarInt (UInt32.ofNat (script.bytes.length + nSpecialScripts)) ++ script.bytes

/-- A script of these bytes, or none if there are too many. -/
def CScript.ofBytes (bytes : Bytes) : CScript :=
  if h : bytes.length < 2 ^ 32 then ⟨bytes, h⟩ else .empty

/-- `ScriptCompression::Unser` after the size. -/
def readScriptBody (nSize : Nat) : Reader CScript :=
  if nSize < nSpecialScripts then do
    let vch ← take .endOfData (getSpecialScriptSize nSize)
    pure (((decompressScript nSize vch.val).map ofBytes).getD .empty)
  else do
    let vch ← take .endOfData (nSize - nSpecialScripts)
    -- An overly long script is passed over and replaced by a short invalid one.
    if maxScriptSize < nSize - nSpecialScripts then pure (.ofBytes [ofNat opReturn])
    else pure (.ofBytes vch.val)

/-- `ScriptCompression::Unser` into an empty script. -/
def readScriptCompressed : Reader CScript := do
  let nSize ← readVarInt
  readScriptBody nSize.toNat

/-- `TxOutCompression`. -/
def serTxOutCompressed (out : CTxOut) : Bytes :=
  writeVarInt64 (compressAmount out.nValue.toUInt64) ++ serScriptCompressed out.scriptPubKey

def readTxOutCompressed : Reader CTxOut := do
  let v ← readVarInt64
  let scriptPubKey ← readScriptCompressed
  pure ⟨(decompressAmount v).toInt64, scriptPubKey⟩

/-! ### Reading back -/

theorem CScript.ofBytes_bytes (script : CScript) : ofBytes script.bytes = script := by
  rw [ofBytes, dif_pos script.size_lt]

/-- A special form is decompressed to a script. -/
def Decompresses (compr script : Bytes) : Prop :=
  ∃ nSize content, nSize < nSpecialScripts ∧ compr = ofNat nSize :: content ∧
    content.length = getSpecialScriptSize nSize ∧ decompressScript nSize content = some script

variable {script : Bytes} {n : Nat}

/-- Bytes are cut out of a script. -/
theorem eq_append_of_slices {front back : Bytes} {m : Nat} (hlen : m + n ≤ script.length)
    (hfront : script.take m = front) (hback : script.drop (m + n) = back) :
    script = front ++ (script.drop m).take n ++ back ∧ ((script.drop m).take n).length = n := by
  constructor
  · conv_lhs => rw [← take_append_drop (m + n) script]
    rw [hback, take_add, hfront]
  · rw [length_take, length_drop]
    omega

theorem decompresses_keyID {keyID : Bytes} (h : isToKeyID script = some keyID) :
    Decompresses (0 :: keyID) script := by
  rw [isToKeyID] at h
  split_ifs at h with hform
  cases h
  obtain ⟨hlen, hfront, hback⟩ := hform
  obtain ⟨heq, hcont⟩ := eq_append_of_slices (n := 20) (by omega) hfront hback
  exact ⟨0, _, by decide, rfl, hcont, congrArg some heq.symm⟩

theorem decompresses_scriptID {scriptID : Bytes} (h : isToScriptID script = some scriptID) :
    Decompresses (1 :: scriptID) script := by
  rw [isToScriptID] at h
  split_ifs at h with hform
  cases h
  obtain ⟨hlen, hfront, hback⟩ := hform
  obtain ⟨heq, hcont⟩ := eq_append_of_slices (n := 20) (by omega) hfront hback
  exact ⟨1, _, by decide, rfl, hcont, congrArg some heq.symm⟩

namespace Secp256k1

theorem feGetB32_of_feSetB32 {b : Bytes} (hlen : b.length = 32) (h : feSetB32 b = some n) :
    feGetB32 n = b := by
  rw [feSetB32] at h
  split_ifs at h
  cases h
  have hrev := natToLE_leToNat b.reverse
  rw [length_reverse, hlen] at hrev
  rw [feGetB32, hrev, reverse_reverse]

/-- The last byte of an encoded number tells its parity. -/
theorem feSetB32_parity {b : Bytes} (hlen : b.length = 32) (h : feSetB32 b = some n) :
    (b.getD 31 0).toNat % 2 = n % 2 := by
  rw [feSetB32] at h
  split_ifs at h
  cases h
  obtain ⟨front, last, rfl⟩ : ∃ front last, b = front ++ [last] :=
    ⟨b.dropLast, b.getLast (by rintro rfl; cases hlen), (dropLast_append_getLast _).symm⟩
  have hfront : front.length = 31 := by simpa using hlen
  rw [reverse_append, reverse_singleton, singleton_append, leToNat]
  rw [getD_append_right _ _ _ _ (by omega), hfront]
  simp only [Nat.sub_self, getD_cons_zero]
  omega

/-- A valid uncompressed key is found again from its first coordinate and a
parity bit. -/
theorem decompress_of_valid {x y : Bytes} (hx : x.length = 32) (hy : y.length = 32)
    (h : CPubKey.isFullyValid (4 :: (x ++ y)) = true) :
    CPubKey.decompress (ofNat (2 + (y.getD 31 0).toNat % 2) :: x) = some (4 :: (x ++ y)) := by
  rw [CPubKey.isFullyValid, pubkeyParse, if_neg (by simp), if_pos (by simp [hx, hy]),
    take_left' hx, drop_left' hx] at h
  split at h
  case h_2 => cases h
  case h_1 xn yn hxn hyn =>
    rw [if_neg (by simp)] at h
    split_ifs at h with hval
    · have hyp : yn < fieldPrime := by
        rw [feSetB32] at hyn
        split_ifs at hyn with hlt
        cases hyn
        exact hlt
      have hparity := feSetB32_parity hy hyn
      have hhdr : (ofNat (2 + (y.getD 31 0).toNat % 2) == 3) = (yn % 2 == 1) := by
        rw [hparity]
        rcases Nat.mod_two_eq_zero_or_one yn with h0 | h1
        · rw [h0]
          rfl
        · rw [h1]
          rfl
      have hforms : ofNat (2 + (y.getD 31 0).toNat % 2) = 2 ∨
          ofNat (2 + (y.getD 31 0).toNat % 2) = 3 := by
        rcases Nat.mod_two_eq_zero_or_one (y.getD 31 0).toNat with h0 | h1
        · left
          rw [h0]
          rfl
        · right
          rw [h1]
          rfl
      rw [CPubKey.decompress, pubkeyParse, if_pos ⟨by simp [hx], hforms⟩, hxn]
      dsimp only
      rw [hhdr, geSetXo_of_valid hyp hval, Option.map_some, pubkeySerialize,
        feGetB32_of_feSetB32 hx hxn, feGetB32_of_feSetB32 hy hyn]
    · cases h

end Secp256k1

theorem decompresses_compressedKey {header : UInt8} (hhdr : header = 2 ∨ header = 3)
    (hlen : script.length = 35) (hsize : script.take 1 = [33])
    (hback : script.drop 34 = [ofNat opChecksig]) (hkey : (script.drop 1).take 1 = [header]) :
    Decompresses (header :: (script.drop 2).take 32) script := by
  have hfront : script.take 2 = [33, header] := by
    rw [show 2 = 1 + 1 from rfl, take_add, hsize, hkey]
    rfl
  obtain ⟨heq, hcont⟩ := eq_append_of_slices (n := 32) (by omega) hfront hback
  rcases hhdr with rfl | rfl
  · exact ⟨2, _, by decide, rfl, hcont, congrArg some heq.symm⟩
  · exact ⟨3, _, by decide, rfl, hcont, congrArg some heq.symm⟩

theorem decompresses_uncompressedKey {x y : Bytes} (hx : x.length = 32) (hy : y.length = 32)
    (hscr : script = 65 :: (4 :: (x ++ y)) ++ [ofNat opChecksig])
    (hval : CPubKey.isFullyValid (4 :: (x ++ y)) = true) :
    Decompresses ((4 ||| (y.getD 31 0 &&& 1)) :: x) script := by
  have hdecompress := decompress_of_valid hx hy hval
  have hand : (y.getD 31 0 &&& 1).toNat = (y.getD 31 0).toNat % 2 := by
    exact Nat.and_one_is_mod _
  refine ⟨4 + (y.getD 31 0).toNat % 2, x, by simp only [nSpecialScripts]; omega, ?_, ?_, ?_⟩
  · congr 1
    rw [← UInt8.toNat_inj, UInt8.toNat_or, hand]
    rcases Nat.mod_two_eq_zero_or_one (y.getD 31 0).toNat with h | h <;> rw [h] <;> rfl
  · rw [hx, getSpecialScriptSize, if_neg (by omega), if_pos (by omega)]
  · rw [decompressScript, if_neg (by omega), if_neg (by omega), if_neg (by omega),
      if_pos (by omega),
        show 4 + (y.getD 31 0).toNat % 2 - 2 = 2 + (y.getD 31 0).toNat % 2 by omega,
      hdecompress, hscr]
    rfl

/-- The public key in a script, split into its header and its coordinates. -/
theorem take_cons_of_header {rest : Bytes} {header : UInt8} (h : rest.take 1 = [header]) :
    rest.take (n + 1) = header :: (rest.drop 1).take n := by
  rw [Nat.add_comm n 1, take_add, h]
  rfl

theorem decompresses_pubKey {pubkey compr : Bytes} (hpub : isToPubKey script = some pubkey)
    (h : (if pubkey.headD 0xff = 2 ∨ pubkey.headD 0xff = 3 then
        some (pubkey.headD 0xff :: (pubkey.drop 1).take 32)
      else if pubkey.headD 0xff = 4 then
        some ((4 ||| (pubkey.getD 64 0 &&& 1)) :: (pubkey.drop 1).take 32)
      else none) = some compr) : Decompresses compr script := by
  rw [isToPubKey] at hpub
  split_ifs at hpub with h35 h67 hval
  · obtain ⟨hlen, hsize, hback, hkey⟩ := h35
    obtain ⟨header, hhdr, hkey⟩ : ∃ header : UInt8,
        (header = 2 ∨ header = 3) ∧ (script.drop 1).take 1 = [header] := by
      rcases hkey with hkey | hkey
      · exact ⟨2, Or.inl rfl, hkey⟩
      · exact ⟨3, Or.inr rfl, hkey⟩
    cases hpub
    rw [take_cons_of_header hkey, drop_drop] at h
    simp only [headD_cons, drop_one, tail_cons] at h
    rw [if_pos hhdr, take_take] at h
    cases h
    exact decompresses_compressedKey hhdr hlen hsize hback hkey
  · obtain ⟨hlen, hsize, hback, hkey⟩ := h67
    cases hpub
    obtain ⟨heq, -⟩ := eq_append_of_slices (n := 65) (by omega) hsize hback
    have hspl : ((script.drop 1).drop 1).take 64 =
        (script.drop 2).take 32 ++ (script.drop 34).take 32 := by
      rw [drop_drop, show 64 = 32 + 32 from rfl, take_add, drop_drop]
    rw [take_cons_of_header hkey, hspl] at h heq hval
    have hx : ((script.drop 2).take 32).length = 32 := by
      rw [length_take, length_drop]
      omega
    have hy : ((script.drop 34).take 32).length = 32 := by
      rw [length_take, length_drop]
      omega
    simp only [headD_cons, drop_one, tail_cons] at h
    rw [if_neg (by decide), if_pos trivial, take_left' hx, getD_cons_succ,
      getD_append_right _ _ _ _ (by omega), hx] at h
    cases h
    exact decompresses_uncompressedKey hx hy heq hval

theorem decompresses_compressScript {compr : Bytes} (h : compressScript script = some compr) :
    Decompresses compr script := by
  rw [compressScript] at h
  cases hkey : isToKeyID script with
  | some keyID =>
    rw [hkey] at h
    cases h
    exact decompresses_keyID hkey
  | none =>
    rw [hkey] at h
    cases hscr : isToScriptID script with
    | some scriptID =>
      rw [hscr] at h
      cases h
      exact decompresses_scriptID hscr
    | none =>
      rw [hscr] at h
      cases hpub : isToPubKey script with
      | none =>
        rw [hpub] at h
        cases h
      | some pubkey =>
        rw [hpub] at h
        exact decompresses_pubKey hpub h

theorem reads_scriptBody_special {script : CScript} {nSize : Nat} {content : Bytes}
    (hsize : nSize < nSpecialScripts) (hcont : content.length = getSpecialScriptSize nSize)
    (hscr : decompressScript nSize content = some script.bytes) :
    Reads (readScriptBody nSize) content script := by
  have hread := ((exact_take StreamError.endOfData _).reads (a := ⟨content, hcont⟩) trivial).map
    fun vch => ((decompressScript nSize vch.val).map ofBytes).getD .empty
  rw [hscr, Option.map_some, Option.getD_some, ofBytes_bytes] at hread
  rw [readScriptBody, if_pos hsize]
  exact hread

theorem reads_scriptBody_plain {script : CScript} (h : script.bytes.length ≤ maxScriptSize) :
    Reads (readScriptBody (script.bytes.length + nSpecialScripts)) script.bytes script := by
  rw [readScriptBody, if_neg (by omega), Nat.add_sub_cancel]
  simp only [if_neg (Nat.not_lt.mpr h)]
  have hread := ((exact_take StreamError.endOfData _).reads (a := ⟨script.bytes, rfl⟩) trivial).map
    fun vch => ofBytes vch.val
  rw [ofBytes_bytes] at hread
  exact hread

/-- The sizes of the special forms are written as one byte. -/
theorem writeVarInt_special {nSize : Nat} (h : nSize < nSpecialScripts) :
    writeVarInt (UInt32.ofNat nSize) = [ofNat nSize] := by
  have hsize : nSize < 6 := h
  interval_cases nSize <;> rfl

/-- A script that is not too long to be spendable survives compression. -/
theorem reads_scriptCompressed {script : CScript} (h : script.bytes.length ≤ maxScriptSize) :
    Reads readScriptCompressed (serScriptCompressed script) script := by
  have hmax : maxScriptSize = 10000 := rfl
  have hspec : nSpecialScripts = 6 := rfl
  have hnat {n : Nat} (hn : n < 2 ^ 32) : (UInt32.ofNat n).toNat = n := by
    rw [UInt32.toNat_ofNat', Nat.mod_eq_of_lt hn]
  rw [serScriptCompressed]
  cases hcompr : compressScript script.bytes with
  | some compr =>
    obtain ⟨nSize, content, hsize, rfl, hcont, hscr⟩ := decompresses_compressScript hcompr
    have hread := reads_varInt (UInt32.ofNat nSize)
    rw [writeVarInt_special hsize] at hread
    refine hread.bind ?_
    rw [hnat (by omega)]
    exact reads_scriptBody_special hsize hcont hscr
  | none =>
    refine (reads_varInt _).bind ?_
    rw [hnat (by omega)]
    exact reads_scriptBody_plain h

theorem reads_txOutCompressed {out : CTxOut} (hval : moneyRange out.nValue.toInt = true)
    (h : out.scriptPubKey.bytes.length ≤ maxScriptSize) :
    Reads readTxOutCompressed (serTxOutCompressed out) out := by
  have hamt : decompressAmount (compressAmount out.nValue.toUInt64) = out.nValue.toUInt64 := by
    apply decompressAmount_compressAmount
    simp only [moneyRange, Bool.and_eq_true, decide_eq_true_eq] at hval
    have hmoney : maxMoney = 2522880000000000 := rfl
    rw [toNat_toUInt64_of_nonneg hval.1]
    omega
  refine (reads_varInt64 _).bind ?_
  have hread := (reads_scriptCompressed h).map
    fun scriptPubKey => (⟨(decompressAmount (compressAmount out.nValue.toUInt64)).toInt64,
      scriptPubKey⟩ : CTxOut)
  rw [hamt] at hread
  simp only [hamt]
  exact hread

end Lithium
