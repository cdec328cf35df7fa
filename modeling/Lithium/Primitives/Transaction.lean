import Lithium.Serialize

/-!
# Transactions

The data types and the wire format of `primitives/transaction.h`. Scripts and
vectors carry a proof that their length is one the source's containers can
have; nothing else about a transaction is guaranteed by its type.

Two formats share one reader. In the basic format the inputs follow the
version; in the extended format an empty vector of inputs and a flag byte come
first. A transaction without inputs but with outputs is therefore written in
the basic format and read as an extended one, and is the only transaction of
readable size that does not survive the trip.

The identifier of a transaction is the *single* SHA-256 of its basic format.
-/

namespace Lithium
open Lib Decoder List
variable {tx a b : CTransaction} {vin : List CTxIn}

/-- A script; its container counts bytes in 32 bits. -/
structure CScript where
  bytes : Bytes
  size_lt : bytes.length < 2 ^ 32
deriving DecidableEq

structure COutPoint where
  hash : Uint256
  n : UInt32
deriving DecidableEq

namespace COutPoint

def nullIndex : UInt32 := 0xffffffff

def null : COutPoint := ⟨.zero, nullIndex⟩

def isNull (o : COutPoint) : Bool := o.hash.isNull && o.n == nullIndex

end COutPoint

structure CScriptWitness where
  stack : List Bytes
  stack_lt : stack.length < 2 ^ 64
  items_lt : ∀ item ∈ stack, item.length < 2 ^ 64
deriving DecidableEq

namespace CScriptWitness

def empty : CScriptWitness := ⟨[], by decide, List.forall_mem_nil _⟩

def isNull (w : CScriptWitness) : Bool := w.stack.isEmpty

theorem isNull_iff (w : CScriptWitness) : w.isNull = true ↔ w = empty := by
  cases w
  simp [isNull, empty]

end CScriptWitness

structure CTxIn where
  prevout : COutPoint
  scriptSig : CScript
  nSequence : UInt32
  scriptWitness : CScriptWitness
deriving DecidableEq

structure CTxOut where
  nValue : Int64
  scriptPubKey : CScript
deriving DecidableEq

theorem CScript.nil_lt : ([] : Bytes).length < 2 ^ 32 := by decide

theorem CScript.opTrue_lt : [(0x51 : UInt8)].length < 2 ^ 32 := by decide

theorem single_lt {α : Type} (x : α) : [x].length < 2 ^ 64 := by simp

structure CTransaction where
  nVersion : Int32
  vin : List CTxIn
  vout : List CTxOut
  nLockTime : UInt32
  vin_lt : vin.length < 2 ^ 64
  vout_lt : vout.length < 2 ^ 64
deriving DecidableEq

namespace CTransaction

def ofInput (txin : CTxIn) (txout : Option CTxOut) : CTransaction :=
  ⟨1, [txin], txout.toList, 0, single_lt _, by cases txout <;> simp⟩

variable (tx)

def hasWitness : Bool := tx.vin.any fun i => !i.scriptWitness.isNull

def isCoinBase : Bool :=
  match tx.vin with
  | [input] => input.prevout.isNull
  | _ => false

def Spends (o : COutPoint) : Prop := ∃ txin ∈ tx.vin, txin.prevout = o

end CTransaction

open CScriptWitness

open CTransaction

def CTxIn.stripWitness (i : CTxIn) : CTxIn := { i with scriptWitness := .empty }

/-- The transaction that its basic format describes. -/
def CTransaction.stripWitness (tx : CTransaction) : CTransaction :=
  { tx with vin := tx.vin.map CTxIn.stripWitness, vin_lt := by simpa using tx.vin_lt }

/-! ### Writing -/

def serOutPoint (o : COutPoint) : Bytes := serUint256 o.hash ++ serUInt32 o.n

def serTxIn (i : CTxIn) : Bytes :=
  serOutPoint i.prevout ++ (serBytes i.scriptSig.bytes ++ serUInt32 i.nSequence)

def serTxOut (o : CTxOut) : Bytes := serInt64 o.nValue ++ serBytes o.scriptPubKey.bytes

def serWitness (w : CScriptWitness) : Bytes := serVector serBytes w.stack

/-- `SerializeTransaction`. -/
def serTransaction (fAllowWitness : Bool) (tx : CTransaction) : Bytes :=
  let witness := fAllowWitness && tx.hasWitness
  serInt32 tx.nVersion ++ ((if witness then serVector serTxIn [] ++ [1] else []) ++
      (serVector serTxIn tx.vin ++ (serVector serTxOut tx.vout ++
          ((if witness then tx.vin.flatMap fun i => serWitness i.scriptWitness else []) ++
            serUInt32 tx.nLockTime))))

/-- `GetHash`: the identifier does not cover witnesses. -/
def CTransaction.getHash (tx : CTransaction) : Uint256 := sha256Once (serTransaction false tx)

def CTransaction.getWitnessHash (tx : CTransaction) : Uint256 :=
  if tx.hasWitness then sha256Once (serTransaction true tx) else tx.getHash

/-! ### Reading -/

theorem maxSize_lt : maxSize < 2 ^ 32 := by decide

def readOutPoint : Reader COutPoint := do
  let hash ← readUint256
  let n ← readUInt32
  pure ⟨hash, n⟩

def readScript : Reader CScript := do
  let bs ← readBytes
  pure ⟨bs.val, bs.property.trans_lt maxSize_lt⟩

def readTxIn : Reader CTxIn := do
  let prevout ← readOutPoint
  let scriptSig ← readScript
  let nSequence ← readUInt32
  pure ⟨prevout, scriptSig, nSequence, .empty⟩

def readTxOut : Reader CTxOut := do
  let nValue ← readInt64
  let scriptPubKey ← readScript
  pure ⟨nValue, scriptPubKey⟩

def readWitness : Reader CScriptWitness := do
  let stack ← readVector readBytes
  pure
    { stack := stack.val.map Subtype.val
      stack_lt := by
        have := maxSize_lt
        rw [length_map]
        omega
      items_lt := by
        simp only [mem_map]
        rintro item ⟨bs, -, rfl⟩
        have := maxSize_lt
        omega }

/-- One witness stack for each input, in order. -/
def readWitnesses : (vin : List CTxIn) → Reader {out : List CTxIn // out.length = vin.length}
  | [] => pure ⟨[], rfl⟩
  | i :: vin => do
    let w ← readWitness
    let rest ← readWitnesses vin
    pure ⟨{ i with scriptWitness := w } :: rest.val, by simp [rest.property]⟩

/-- The vectors of a transaction as they come out of the reader. -/
abbrev ReadVec (α : Type) := {xs : List α // xs.length ≤ maxSize}

theorem ReadVec.length_lt {α : Type} (xs : ReadVec α) : xs.val.length < 2 ^ 64 := by
  have := maxSize_lt
  omega

/-- What follows the outputs: the witnesses if the flag says so, and the lock
time. -/
def readTransactionEnd (nVersion : Int32) (flags : UInt8) (vin : ReadVec CTxIn)
    (vout : ReadVec CTxOut) : Reader CTransaction :=
  if flags &&& 1 = 0 then
    if flags ≠ 0 then throw (.failure "Unknown transaction optional data")
    else do
      let nLockTime ← readUInt32
      pure ⟨nVersion, vin.val, vout.val, nLockTime, vin.length_lt, vout.length_lt⟩
  else do
    let vin' ← readWitnesses vin.val
    if vin'.val.all fun i => i.scriptWitness.isNull then
      throw (.failure "Superfluous witness record")
    else if flags ^^^ 1 ≠ 0 then throw (.failure "Unknown transaction optional data")
    else do
      let nLockTime ← readUInt32
      pure ⟨nVersion, vin'.val, vout.val, nLockTime, vin'.property.trans_lt vin.length_lt,
        vout.length_lt⟩

def unserializeTransaction (fAllowWitness : Bool) : Reader CTransaction := do
  let nVersion ← readInt32
  let vin ← readVector readTxIn
  if vin.val.isEmpty && fAllowWitness then
    -- a dummy, or a transaction without inputs
    let flags ← readUInt8
    if flags = 0 then
      readTransactionEnd nVersion 0 ⟨[], Nat.zero_le _⟩ ⟨[], Nat.zero_le _⟩
    else do
      let vin ← readVector readTxIn
      let vout ← readVector readTxOut
      readTransactionEnd nVersion flags vin vout
  else
    let vout ← readVector readTxOut
    readTransactionEnd nVersion 0 vin vout

/-! ### Reading what was written -/

/-- The lengths in a transaction are ones the reader accepts. -/
structure CTxIn.Fits (i : CTxIn) : Prop where
  scriptSig : i.scriptSig.bytes.length ≤ maxSize
  stack : i.scriptWitness.stack.length ≤ maxSize
  items : ∀ item ∈ i.scriptWitness.stack, item.length ≤ maxSize

structure CTransaction.Fits (tx : CTransaction) : Prop where
  vin : tx.vin.length ≤ maxSize
  vout : tx.vout.length ≤ maxSize
  inputs : ∀ i ∈ tx.vin, i.Fits
  outputs : ∀ o ∈ tx.vout, o.scriptPubKey.bytes.length ≤ maxSize

/-- A transaction fits if its encoding does. -/
theorem CTransaction.fits_of_length_le (h : (serTransaction true tx).length ≤ maxSize) :
    tx.Fits := by
  simp only [serTransaction, length_append, Bool.true_and] at h
  have hvin := length_le_serVector serTxIn (by simp [serTxIn, serUInt32]) tx.vin
  have hvout := length_le_serVector serTxOut (by simp [serTxOut, serInt64]) tx.vout
  refine ⟨by omega, by omega, fun i hi => ?_, fun o ho => ?_⟩
  · have hone := length_le_serVector_of_mem serTxIn hi
    have hscr := length_le_serBytes i.scriptSig.bytes
    simp only [serTxIn, length_append] at hone
    have hwit : (serWitness i.scriptWitness).length ≤ maxSize ∨ i.scriptWitness = .empty := by
      by_cases hw : tx.hasWitness = true
      · have hstk := length_le_flatMap_of_mem (fun i : CTxIn => serWitness i.scriptWitness) hi
        rw [if_pos hw, if_pos hw] at h
        exact Or.inl (by omega)
      · right
        rw [← isNull_iff]
        simp only [hasWitness, any_eq_true, not_exists, not_and] at hw
        simpa using hw i hi
    rcases hwit with hlen | hemp
    · have hstk := length_le_serVector serBytes
        (fun bs => Nat.lt_of_lt_of_le (writeCompactSize_length_pos bs.length)
          (by simp [serBytes])) i.scriptWitness.stack
      rw [serWitness] at hlen
      refine ⟨by omega, by omega, fun item hitem => ?_⟩
      have hone := length_le_serVector_of_mem serBytes hitem
      have hbytes := length_le_serBytes item
      omega
    · exact ⟨by omega, by simp [hemp, empty], by simp [hemp, empty]⟩
  · have hone := length_le_serVector_of_mem serTxOut ho
    have hscr := length_le_serBytes o.scriptPubKey.bytes
    simp only [serTxOut, length_append] at hone
    omega

theorem exact_outPoint : Exact readOutPoint (fun _ => True) serOutPoint := by
  rintro input ⟨hash, n⟩ rest
  simp only [readOutPoint, run_bind_ok, exact_uint256 _ _ _, exact_uint32 _ _ _, run_pure_ok]
  simp [serOutPoint]

theorem exact_script :
    Exact readScript (fun sc => sc.bytes.length ≤ maxSize) fun sc => serBytes sc.bytes := by
  rintro input ⟨bytes, size_lt⟩ rest
  simp only [readScript, run_bind_ok, exact_bytes _ _ _, run_pure_ok]
  simp [and_comm]

theorem exact_txIn : Exact readTxIn (fun i => i.Fits ∧ i.scriptWitness = .empty) serTxIn := by
  rintro input ⟨prevout, scriptSig, nSequence, scriptWitness⟩ rest
  simp only [readTxIn, run_bind_ok, exact_outPoint _ _ _, exact_script _ _ _, exact_uint32 _ _ _,
    run_pure_ok]
  simp only [CTxIn.mk.injEq, serTxIn, append_assoc]
  constructor
  · rintro ⟨_, _, ⟨-, rfl⟩, _, _, ⟨hlen, rfl⟩, _, _, ⟨-, rfl⟩, ⟨rfl, rfl, rfl, rfl⟩, rfl⟩
    exact ⟨⟨⟨hlen, Nat.zero_le _, by simp [empty]⟩, rfl⟩, rfl⟩
  · rintro ⟨⟨hfits, rfl⟩, rfl⟩
    exact ⟨_, _, ⟨trivial, rfl⟩, _, _, ⟨hfits.scriptSig, rfl⟩, _, _, ⟨trivial, rfl⟩,
      ⟨rfl, rfl, rfl, rfl⟩, rfl⟩

theorem exact_txOut :
    Exact readTxOut (fun o => o.scriptPubKey.bytes.length ≤ maxSize) serTxOut := by
  rintro input ⟨nValue, scriptPubKey⟩ rest
  simp only [readTxOut, run_bind_ok, exact_int64 _ _ _, exact_script _ _ _, run_pure_ok]
  simp [serTxOut, and_comm]

/-- The witness of an input has lengths the reader accepts. -/
def CScriptWitness.Fits (w : CScriptWitness) : Prop :=
  w.stack.length ≤ maxSize ∧ ∀ item ∈ w.stack, item.length ≤ maxSize

theorem exact_witness : Exact readWitness CScriptWitness.Fits serWitness := by
  rintro input ⟨stack, stack_lt, items_lt⟩ rest
  simp only [readWitness, run_bind_ok, exact_vector exact_bytes _ _ _, run_pure_ok,
    CScriptWitness.mk.injEq]
  constructor
  · rintro ⟨⟨items, hlen⟩, _, ⟨-, rfl⟩, rfl, rfl⟩
    refine ⟨⟨by simpa using hlen, ?_⟩, by simp [serWitness, serVector]⟩
    intro item hitem
    obtain ⟨bs, -, rfl⟩ := mem_map.mp hitem
    exact bs.property
  · rintro ⟨⟨hlen, hitems⟩, rfl⟩
    refine ⟨⟨stack.pmap Subtype.mk hitems, by simpa using hlen⟩, rest, ⟨by simp, ?_⟩,
      by simp [map_pmap], rfl⟩
    simp [serWitness, serVector, flatMap_def, map_pmap]

theorem exact_witnesses (vin : List CTxIn) : Exact (readWitnesses vin)
    (fun out => out.val.map CTxIn.stripWitness = vin.map CTxIn.stripWitness ∧
      ∀ i ∈ out.val, i.scriptWitness.Fits)
    fun out => out.val.flatMap fun i => serWitness i.scriptWitness := by
  induction vin with
  | nil =>
    rintro input ⟨out, hout⟩ rest
    simp only [readWitnesses, run_pure_ok]
    obtain rfl : out = [] := length_eq_zero_iff.mp hout
    simp
  | cons i vin ih =>
    rintro input ⟨out, hout⟩ rest
    simp only [readWitnesses, run_bind_ok, exact_witness _ _ _, ih _ _ _, run_pure_ok,
      Subtype.mk.injEq]
    constructor
    · rintro ⟨w, _, ⟨hw, rfl⟩, os, _, ⟨⟨hstr, hfits⟩, rfl⟩, rfl, rfl⟩
      refine ⟨⟨by simp [hstr, CTxIn.stripWitness], ?_⟩, by simp⟩
      exact forall_mem_cons.mpr ⟨hw, hfits⟩
    · rintro ⟨⟨hstr, hfits⟩, rfl⟩
      cases out with
      | nil => simp at hout
      | cons o out =>
        rw [forall_mem_cons] at hfits
        rw [map_cons, map_cons, List.cons.injEq] at hstr
        cases o
        simp_all [CTxIn.stripWitness]

/-- Inputs without witnesses are read back whole. -/
theorem stripWitness_of_not_hasWitness (h : tx.hasWitness = false) : tx.stripWitness = tx := by
  have hvin : tx.vin.map CTxIn.stripWitness = tx.vin := by
    rw [hasWitness, any_eq_false] at h
    refine (map_congr_left fun i hi => ?_).trans (map_id _)
    have hnull : i.scriptWitness = .empty := by
      rw [← isNull_iff]
      simpa using h i hi
    simp [CTxIn.stripWitness, ← hnull]
  cases tx
  simpa [stripWitness] using hvin

theorem CTransaction.Fits.stripped (h : tx.Fits) :
    ∀ i ∈ tx.vin.map CTxIn.stripWitness, i.Fits ∧ i.scriptWitness = .empty := by
  intro i hi
  obtain ⟨j, hj, rfl⟩ := mem_map.mp hi
  exact ⟨⟨(h.inputs j hj).scriptSig, Nat.zero_le _, by simp [CTxIn.stripWitness, empty]⟩, rfl⟩

/-- A transaction of readable size that has inputs, or nothing at all. -/
structure CTransaction.Readable (tx : CTransaction) : Prop extends tx.Fits where
  empty : tx.vin = [] → tx.vout = []

theorem serVector_stripWitness (vin : List CTxIn) :
    serVector serTxIn vin = serVector serTxIn (vin.map CTxIn.stripWitness) := by
  simp only [serVector, length_map, flatMap_map]
  rfl

theorem stripWitness_of_empty {vin : List CTxIn} (h : ∀ i ∈ vin, i.scriptWitness = .empty) :
    vin.map CTxIn.stripWitness = vin := by
  refine (map_congr_left fun i hi => ?_).trans (map_id _)
  simp [CTxIn.stripWitness, ← h i hi]

/-- What the last part of the reader makes of the vectors and the flag. -/
structure CTransaction.EndedBy (tx : CTransaction) (nVersion : Int32) (flags : UInt8)
    (vin : List CTxIn) (vout : List CTxOut) : Prop where
  nVersion : tx.nVersion = nVersion
  vin : tx.vin.map CTxIn.stripWitness = vin
  vout : tx.vout = vout
  witnesses : ∀ i ∈ tx.vin, i.scriptWitness.Fits
  flags : flags = if tx.hasWitness then 1 else 0

/-- The part of the format that it reads. -/
def serTransactionEnd (tx : CTransaction) : Bytes :=
  (if tx.hasWitness then tx.vin.flatMap fun i => serWitness i.scriptWitness else []) ++
    serUInt32 tx.nLockTime

theorem exact_transactionEnd {nVersion : Int32} {flags : UInt8} {vin : ReadVec CTxIn}
    {vout : ReadVec CTxOut} (hin : ∀ i ∈ vin.val, i.scriptWitness = .empty) :
    Exact (readTransactionEnd nVersion flags vin vout)
      (fun tx => tx.EndedBy nVersion flags vin.val vout.val) serTransactionEnd := by
  have hstr := stripWitness_of_empty hin
  have hfits : ∀ i ∈ vin.val, i.scriptWitness.Fits := by
    intro i hi
    simp [hin i hi, CScriptWitness.Fits, empty]
  intro input tx rest
  unfold readTransactionEnd serTransactionEnd
  constructor
  · intro hrun
    split at hrun
    · split at hrun
      · cases hrun
      · rename_i hzero
        obtain rfl : flags = 0 := not_not.mp hzero
        simp only [run_bind_ok, exact_uint32 _ _ _, run_pure_ok] at hrun
        obtain ⟨nLockTime, _, ⟨-, rfl⟩, rfl, rfl⟩ := hrun
        have hnone : (vin.val.any fun i => !i.scriptWitness.isNull) = false := by
          rw [any_eq_false]
          intro i hi
          simp [hin i hi, isNull, empty]
        exact ⟨⟨rfl, hstr, rfl, hfits, by simp [hasWitness, hnone]⟩, by simp [hasWitness, hnone]⟩
    · obtain ⟨vin', _, hwitnesses, htail⟩ := run_bind_ok.mp hrun
      obtain ⟨⟨hvin', hfits'⟩, rfl⟩ := (exact_witnesses vin.val _ _ _).mp hwitnesses
      split at htail
      · cases htail
      · rename_i hnull
        split at htail
        · cases htail
        · rename_i hone
          have hwitness : (vin'.val.any fun i => !i.scriptWitness.isNull) = true := by
            simpa [← not_all_eq_any_not] using hnull
          simp only [run_bind_ok, exact_uint32 _ _ _, run_pure_ok] at htail
          obtain ⟨nLockTime, _, ⟨-, rfl⟩, rfl, rfl⟩ := htail
          have hflags : flags = 1 := UInt8.xor_eq_zero_iff.mp (not_not.mp hone)
          exact ⟨⟨rfl, hvin'.trans hstr, rfl, hfits', by simp [hasWitness, hwitness, hflags]⟩,
            by simp [hasWitness, hwitness]⟩
  · rintro ⟨⟨rfl, hvin, hvout, hwit, hflags⟩, rfl⟩
    cases hw : tx.hasWitness with
    | false =>
      obtain rfl : flags = 0 := by simpa [hw] using hflags
      have hplain : vin.val = tx.vin := by
        rw [← hvin]
        exact congrArg CTransaction.vin (stripWitness_of_not_hasWitness hw)
      rw [if_pos (by decide), if_neg (by simp)]
      simp only [run_bind_ok, exact_uint32 _ _ _, run_pure_ok]
      cases tx
      simp_all
    | true =>
      obtain rfl : flags = 1 := by simpa [hw] using hflags
      have hnull : ¬ (tx.vin.all fun i => i.scriptWitness.isNull) = true := by
        simpa [hasWitness, ← not_all_eq_any_not] using hw
      have hlen : tx.vin.length = vin.val.length := by rw [← hvin, length_map]
      refine run_bind_ok.mpr ⟨⟨tx.vin, hlen⟩, serUInt32 tx.nLockTime ++ rest,
        (exact_witnesses vin.val _ _ _).mpr ⟨⟨hvin.trans hstr.symm, hwit⟩, by simp⟩, ?_⟩
      rw [if_neg hnull, if_neg (by decide)]
      simp only [run_bind_ok, exact_uint32 _ _ _, run_pure_ok]
      cases tx
      simp_all

namespace CTransaction.EndedBy
variable {tx : CTransaction} {nVersion : Int32} {flags : UInt8} {vin : ReadVec CTxIn}
  {vout : ReadVec CTxOut} (h : tx.EndedBy nVersion flags vin.val vout.val)
include h

theorem fits (hin : ∀ i ∈ vin.val, i.Fits ∧ i.scriptWitness = .empty)
    (hout : ∀ o ∈ vout.val, o.scriptPubKey.bytes.length ≤ maxSize) : tx.Fits := by
  refine ⟨?_, h.vout ▸ vout.property, fun i hi => ?_, h.vout ▸ hout⟩
  · have hlen := vin.property
    rwa [← h.vin, length_map] at hlen
  · have hstr := (hin i.stripWitness (h.vin ▸ mem_map_of_mem hi)).1
    exact ⟨hstr.scriptSig, (h.witnesses i hi).1, (h.witnesses i hi).2⟩

theorem serTransaction_eq : serTransaction true tx = serInt32 nVersion ++
    ((if flags = 0 then [] else serVector serTxIn [] ++ [flags]) ++
      (serVector serTxIn vin.val ++ (serVector serTxOut vout.val ++ serTransactionEnd tx))) := by
  rw [h.flags, ← h.vin, ← h.vout, ← h.nVersion, ← serVector_stripWitness]
  cases hw : tx.hasWitness <;> simp [serTransaction, serTransactionEnd, hw]

end CTransaction.EndedBy

theorem reads_transaction (h : tx.Readable) :
    Reads (unserializeTransaction true) (serTransaction true tx) tx := by
  have hfits := h.toFits
  let vin : ReadVec CTxIn := ⟨tx.vin.map CTxIn.stripWitness, by simpa using hfits.vin⟩
  let vout : ReadVec CTxOut := ⟨tx.vout, hfits.vout⟩
  have hvin := (exact_vector exact_txIn).reads (a := vin) hfits.stripped
  have hvout := (exact_vector exact_txOut).reads (a := vout) hfits.outputs
  have hended : tx.EndedBy tx.nVersion (if tx.hasWitness then 1 else 0) vin.val vout.val :=
    ⟨rfl, rfl, rfl, fun i hi => ⟨(hfits.inputs i hi).stack, (hfits.inputs i hi).items⟩, rfl⟩
  have hend := (exact_transactionEnd fun i hi => (hfits.stripped i hi).2).reads hended
  rw [hended.serTransaction_eq]
  refine (exact_int32.reads trivial).bind ?_
  cases hw : tx.hasWitness with
  | true =>
    rw [hw] at hend
    have hdummy := (exact_vector exact_txIn).reads (a := ⟨[], Nat.zero_le _⟩) (by simp)
    exact hdummy.bind ((exact_uint8.reads (a := 1) trivial).bind (hvin.bind (hvout.bind hend)))
  | false =>
    rw [hw] at hend
    refine hvin.bind ?_
    split
    case isTrue hnil =>
      -- the length of the empty outputs is read as the flag byte
      have hvin : vin = ⟨[], Nat.zero_le _⟩ := Subtype.ext (by simpa using hnil)
      have hvout : vout = ⟨[], Nat.zero_le _⟩ := Subtype.ext (h.empty (by simpa [vin] using hnil))
      rw [hvin, hvout] at hend
      rw [hvout]
      exact (exact_uint8.reads (a := 0) trivial).bind hend
    case isFalse => exact hvout.bind hend

/-- The basic format gives back the transaction without its witnesses. -/
theorem reads_transaction_stripped (h : tx.Fits) :
    Reads (unserializeTransaction false) (serTransaction false tx) tx.stripWitness := by
  have hvin := (exact_vector exact_txIn).reads
    (a := ⟨tx.vin.map CTxIn.stripWitness, by simpa using h.vin⟩) h.stripped
  have hvout := (exact_vector exact_txOut).reads (a := ⟨tx.vout, h.vout⟩) h.outputs
  simp only [serTransaction, Bool.false_and, Bool.false_eq_true, if_false, nil_append]
  rw [serVector_stripWitness]
  refine (exact_int32.reads trivial).bind (hvin.bind ?_)
  simp only [Bool.and_false, Bool.false_eq_true, if_false]
  refine hvout.bind ?_
  exact (exact_uint32.reads (a := tx.nLockTime) trivial).map fun n =>
    mk tx.nVersion (tx.vin.map CTxIn.stripWitness) tx.vout n (by simpa using tx.vin_lt) tx.vout_lt

theorem exact_transaction :
    Exact (unserializeTransaction true) CTransaction.Readable (serTransaction true) := by
  intro input tx rest
  constructor
  · intro hrun
    simp only [unserializeTransaction, run_bind_ok, exact_int32 _ _ _,
      exact_vector exact_txIn _ _ _] at hrun
    obtain ⟨nVersion, _, ⟨-, rfl⟩, vin, _, ⟨hin, rfl⟩, hrun⟩ := hrun
    split at hrun
    case isTrue hnil =>
      have hdummy : vin.val = [] := by simpa using hnil
      simp only [run_bind_ok, exact_uint8 _ _ _] at hrun
      obtain ⟨flags, _, ⟨-, rfl⟩, hrun⟩ := hrun
      split at hrun
      case isTrue hzero =>
        obtain ⟨hend, rfl⟩ := (exact_transactionEnd (by simp) _ _ _).mp hrun
        refine ⟨⟨hend.fits (by simp) (by simp), fun _ => hend.vout⟩, ?_⟩
        simp [hend.serTransaction_eq, hdummy, hzero, serVector, writeCompactSize, natToLE]
      case isFalse hflags =>
        simp only [run_bind_ok, exact_vector exact_txIn _ _ _,
          exact_vector exact_txOut _ _ _] at hrun
        obtain ⟨vin', _, ⟨hin', rfl⟩, vout, _, ⟨hout, rfl⟩, hrun⟩ := hrun
        obtain ⟨hend, rfl⟩ := (exact_transactionEnd (fun i hi => (hin' i hi).2) _ _ _).mp hrun
        refine ⟨⟨hend.fits hin' hout, fun hnil => ?_⟩, ?_⟩
        · -- an empty vector of inputs has no witness to be announced
          exact absurd (by simpa [hasWitness, hnil] using hend.flags) hflags
        · simp [hend.serTransaction_eq, hdummy, hflags, natToLE]
    case isFalse hsome =>
      simp only [run_bind_ok, exact_vector exact_txOut _ _ _] at hrun
      obtain ⟨vout, _, ⟨hout, rfl⟩, hrun⟩ := hrun
      obtain ⟨hend, rfl⟩ := (exact_transactionEnd (fun i hi => (hin i hi).2) _ _ _).mp hrun
      refine ⟨⟨hend.fits hin hout, fun hnil => ?_⟩, by simp [hend.serTransaction_eq]⟩
      rw [← hend.vin, hnil] at hsome
      simp at hsome
  · rintro ⟨hread, rfl⟩
    exact reads_transaction hread rest

/-! ### What a serialisation determines

Identifiers are hashes of serialisations, so two transactions with one
identifier have, short of a collision, one serialisation. These lemmas say
what that leaves open: nothing but the witnesses. No bound on the sizes is
needed here. -/

theorem CScript.ext_bytes {a b : CScript} (h : a.bytes = b.bytes) : a = b := by
  cases a
  simp_all

theorem selfDelimiting_script : SelfDelimiting (fun _ => True) fun sc : CScript =>
    serBytes sc.bytes := by
  intro a b r s _ _ h
  have hlt (sc : CScript) : sc.bytes.length < 2 ^ 64 := sc.size_lt.trans (by decide)
  obtain ⟨hbytes, hrest⟩ := selfDelimiting_bytes (hlt a) (hlt b) h
  exact ⟨CScript.ext_bytes hbytes, hrest⟩

theorem selfDelimiting_txIn : SelfDelimiting (fun i => i.scriptWitness = .empty) serTxIn := by
  intro a b r s ha hb h
  simp only [serTxIn, serOutPoint, append_assoc] at h
  obtain ⟨hhash, h⟩ := selfDelimiting_uint256 trivial trivial h
  obtain ⟨hn, h⟩ := selfDelimiting_uint32 trivial trivial h
  obtain ⟨hscr, h⟩ := selfDelimiting_script trivial trivial h
  obtain ⟨hseq, h⟩ := selfDelimiting_uint32 trivial trivial h
  obtain ⟨⟨_, _⟩, _, _, _⟩ := a
  obtain ⟨⟨_, _⟩, _, _, _⟩ := b
  simp_all

theorem selfDelimiting_txOut : SelfDelimiting (fun _ => True) serTxOut := by
  intro a b r s _ _ h
  obtain ⟨hval, h⟩ := selfDelimiting_int64 trivial trivial h
  obtain ⟨hscr, h⟩ := selfDelimiting_script trivial trivial h
  cases a
  simp_all

theorem selfDelimiting_witness : SelfDelimiting (fun _ => True) serWitness := by
  intro a b r s _ _ h
  obtain ⟨hstk, hrest⟩ := selfDelimiting_vector selfDelimiting_bytes ⟨a.stack_lt, a.items_lt⟩
    ⟨b.stack_lt, b.items_lt⟩ h
  cases a
  cases b
  exact ⟨by simpa using hstk, hrest⟩

/-- The vectors of a transaction delimit themselves, up to the witnesses. -/
theorem serVectors_inj {r s : Bytes}
    (h : serVector serTxIn a.vin ++ (serVector serTxOut a.vout ++ r) =
      serVector serTxIn b.vin ++ (serVector serTxOut b.vout ++ s)) :
    a.vin.map CTxIn.stripWitness = b.vin.map CTxIn.stripWitness ∧ a.vout = b.vout ∧ r = s := by
  rw [serVector_stripWitness a.vin, serVector_stripWitness b.vin] at h
  obtain ⟨hvin, h⟩ := selfDelimiting_vector selfDelimiting_txIn
    ⟨by simpa using a.vin_lt, by simp [CTxIn.stripWitness]⟩
    ⟨by simpa using b.vin_lt, by simp [CTxIn.stripWitness]⟩ h
  exact ⟨hvin,
    selfDelimiting_vector selfDelimiting_txOut ⟨a.vout_lt, by simp⟩ ⟨b.vout_lt, by simp⟩ h⟩

/-- The basic format of a transaction determines everything but the
witnesses. -/
theorem serTransaction_stripped_inj {r s : Bytes}
    (h : serTransaction false a ++ r = serTransaction false b ++ s) :
    a.stripWitness = b.stripWitness ∧ r = s := by
  simp only [serTransaction, Bool.false_and, Bool.false_eq_true, if_false, nil_append,
    append_assoc] at h
  obtain ⟨hver, h⟩ := selfDelimiting_int32 trivial trivial h
  obtain ⟨hvin, hvout, h⟩ := serVectors_inj h
  obtain ⟨hlock, h⟩ := selfDelimiting_uint32 trivial trivial h
  simp only [stripWitness]
  simp_all

theorem serTransaction_of_not_hasWitness (h : tx.hasWitness = false) (fAllowWitness : Bool) :
    serTransaction fAllowWitness tx = serTransaction false tx := by
  simp [serTransaction, h]

/-- The witness hash is the hash of the extended format in every case. -/
theorem getWitnessHash_eq (tx : CTransaction) :
    tx.getWitnessHash = sha256Once (serTransaction true tx) := by
  cases h : tx.hasWitness with
  | false => simp [getWitnessHash, h, getHash, serTransaction_of_not_hasWitness h]
  | true => simp [getWitnessHash, h]

/-- An empty vector is not mistaken for the inputs of a transaction. -/
theorem serVector_nil_ne (hvin : tx.vin ≠ []) (r s : Bytes) :
    serVector serTxIn [] ++ r ≠ serVector serTxIn tx.vin ++ s := by
  intro h
  simp only [serVector, append_assoc] at h
  have hlen := (selfDelimiting_compactSize (by decide) tx.vin_lt h).1
  exact hvin (length_eq_zero_iff.mp hlen.symm)

/-- The extended format determines a transaction with inputs. -/
theorem serTransaction_inj (ha : a.vin ≠ []) (hb : b.vin ≠ [])
    (h : serTransaction true a = serTransaction true b) : a = b := by
  cases hwa : a.hasWitness <;> cases hwb : b.hasWitness
  case false.false =>
    rw [serTransaction_of_not_hasWitness hwa, serTransaction_of_not_hasWitness hwb] at h
    have hstr := (serTransaction_stripped_inj (a := a) (b := b) (r := []) (s := []) (by rw [h])).1
    rwa [stripWitness_of_not_hasWitness hwa, stripWitness_of_not_hasWitness hwb] at hstr
  all_goals
    simp only [serTransaction, hwa, hwb, Bool.and_false, Bool.and_true, Bool.false_eq_true,
      if_false,
      if_true, nil_append, append_assoc] at h
    obtain ⟨hver, h⟩ := selfDelimiting_int32 trivial trivial h
  case false.true => exact absurd h.symm (serVector_nil_ne ha _ _)
  case true.false => exact absurd h (serVector_nil_ne hb _ _)
  case true.true =>
    obtain ⟨hstr, hvout, h⟩ := serVectors_inj (append_cancel_left (append_cancel_left h))
    have hlen : (a.vin.map CTxIn.scriptWitness).length =
      (b.vin.map CTxIn.scriptWitness).length := by
      simpa using congrArg List.length hstr
    have hmap (vin : List CTxIn) : (vin.flatMap fun i => serWitness i.scriptWitness) =
        (vin.map CTxIn.scriptWitness).flatMap serWitness := by
      rw [flatMap_map]
    rw [hmap, hmap] at h
    obtain ⟨hwit, h⟩ := selfDelimiting_witness.flatMap (by simp) (by simp) hlen h
    have hlock : a.nLockTime = b.nLockTime :=
      (selfDelimiting_uint32 (r := []) (s := []) trivial trivial (by rw [h])).1
    have hvin : a.vin = b.vin := by
      have hinj : Function.Injective fun i : CTxIn => (i.stripWitness, i.scriptWitness) := by
        rintro ⟨⟩ ⟨⟩ heq
        simp_all [CTxIn.stripWitness]
      apply map_injective_iff.mpr hinj
      rw [← zip_map', ← zip_map', hstr, hwit]
    cases a
    simp_all

/-- A transaction with an input takes more bytes than a digest. -/
theorem serTransaction_stripped_length (h : tx.vin ≠ []) :
    51 ≤ (serTransaction false tx).length := by
  obtain ⟨i, vin, hvin⟩ := exists_cons_of_ne_nil h
  have hin := writeCompactSize_length_pos (i :: vin).length
  have hscr := writeCompactSize_length_pos i.scriptSig.bytes.length
  have hout := writeCompactSize_length_pos tx.vout.length
  simp only [serTransaction, serVector, Bool.false_and, Bool.false_eq_true, if_false,
    nil_append, length_append, serInt32_length, serUInt32_length, hvin,
    flatMap_cons, serTxIn, serOutPoint, serUint256_length, serBytes]
  omega

end Lithium
