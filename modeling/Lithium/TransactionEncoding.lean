import Lithium.Encodings
import Lithium.Kernel.MempoolEntry

/-!
# One encoding for each transaction

Writing and reading of `primitives/transaction.h` are inverse to each other:
a transaction of readable size is read back from what was written for it, and
what the reader takes for a transaction is what would be written for it. So
the identifiers, the size and the weight that are computed from the fields are
those of the bytes that were received.
-/

namespace Lithium
open Lib Decoder Crypto CTransaction

variable (tx : CTransaction)

/-- The two bytes that announce witnesses. -/
def CTransaction.marker : Bytes := if tx.hasWitness then [0, 1] else []

/-- The part of the extended format that holds the witnesses. -/
def CTransaction.witnesses : Bytes :=
  if tx.hasWitness then tx.vin.flatMap fun i => serWitness i.scriptWitness else []

/-- The extended format is the basic one with the marker and the witnesses put
in. -/
theorem serTransaction_parts : ∃ version vectors lockTime,
    version.length = 4 ∧ lockTime.length = 4 ∧
    serTransaction true tx = version ++ (tx.marker ++ (vectors ++ (tx.witnesses ++ lockTime))) ∧
    serTransaction false tx = version ++ (vectors ++ lockTime) := by
  refine ⟨serInt32 tx.nVersion, serVector serTxIn tx.vin ++ serVector serTxOut tx.vout,
    serUInt32 tx.nLockTime, by simp, by simp, ?_, by simp [serTransaction]⟩
  cases hw : tx.hasWitness with
  | false => simp [serTransaction, marker, witnesses, hw]
  | true =>
    simp only [serTransaction, marker, witnesses, hw, Bool.and_self, if_true, List.append_assoc]
    rfl

/-- The identifier covers the basic format only. -/
theorem getHash_eq_of_stripWitness_eq {a b : CTransaction} (h : a.stripWitness = b.stripWitness) :
    a.getHash = b.getHash := by
  have hstr (tx : CTransaction) :
      serTransaction false tx = serTransaction false tx.stripWitness := by
    simp [serTransaction, serVector_stripWitness tx.vin, stripWitness]
  rw [getHash, getHash, hstr a, hstr b, h]

/-- Encoding is a bijection between the transactions with inputs whose vectors,
scripts, witness stacks and stack items are no longer than the reader accepts,
and the bytes that are read as a transaction with inputs. Identifiers, size and
weight are those of the bytes; the identifier leaves the witnesses out and the
witness identifier determines the transaction, of whatever size. -/
theorem transaction_encoding_bijective : (∀ tx : CTransaction, tx.vin ≠ [] → tx.Fits →
      Reads (unserializeTransaction true) (serTransaction true tx) tx ∧
      (tx.hasWitness = false → Reads (unserializeTransaction false) (serTransaction false tx) tx)) ∧
    (∀ input tx rest, (unserializeTransaction true).run input = .ok (tx, rest) → tx.Fits ∧
      ∃ bs, input = bs ++ rest ∧ serTransaction true tx = bs ∧ tx.getWitnessHash = sha256Once bs ∧
        ∃ version vectors lockTime, version.length = 4 ∧ lockTime.length = 4 ∧
          bs = version ++ (tx.marker ++ (vectors ++ (tx.witnesses ++ lockTime))) ∧
          tx.getHash = sha256Once (version ++ (vectors ++ lockTime)) ∧
          getTransactionWeight tx = 3 * (version ++ (vectors ++ lockTime)).length + bs.length) ∧
    (∀ a b : CTransaction, a.stripWitness = b.stripWitness → a.getHash = b.getHash) ∧
    (∀ a b : CTransaction, a.vin ≠ [] → b.vin ≠ [] →
      Set.InjOn sha256 {serTransaction true a, serTransaction true b} →
      a.getWitnessHash = b.getWitnessHash → a = b) := by
  refine ⟨fun tx hvin hfits => ⟨?_, fun hw => ?_⟩, ?_, fun a b => getHash_eq_of_stripWitness_eq, ?_⟩
  · exact reads_transaction ⟨hfits, fun hnil => absurd hnil hvin⟩
  · have hread := reads_transaction_stripped hfits
    rwa [stripWitness_of_not_hasWitness hw] at hread
  · intro input tx rest hrun
    obtain ⟨hread, hin⟩ := (exact_transaction _ _ _).mp hrun
    obtain ⟨version, vectors, lockTime, hver, hlock, htrue, hfalse⟩ := serTransaction_parts tx
    refine ⟨hread.toFits, _, hin, rfl, getWitnessHash_eq tx, version, vectors, lockTime,
      hver, hlock, htrue,
      by rw [← hfalse, getHash], ?_⟩
    rw [← hfalse, getTransactionWeight, Nat.mul_comm]
    rfl
  · intro a b ha hb hcoll h
    rw [getWitnessHash_eq, getWitnessHash_eq] at h
    exact serTransaction_inj ha hb (hcoll (by simp) (by simp) (congrArg Uint256.data h))

theorem transaction_encoding_bijective_sample :
    Reads (unserializeTransaction true) (serTransaction true sampleCoinbase) sampleCoinbase ∧
      sampleCoinbase.stripWitness ≠ sampleCoinbase ∧
      sampleCoinbase.stripWitness.getHash = sampleCoinbase.getHash :=
  ⟨(transaction_encoding_bijective.1 sampleCoinbase (by decide) sampleCoinbase_readable.toFits).1,
    by decide, transaction_encoding_bijective.2.2.1 _ _ rfl⟩

/-- A transaction whose only script has the given length. -/
def scriptOfLength (n : Nat) (hn : n < 2 ^ 32) : CTransaction :=
  .ofInput ⟨⟨.zero, 0⟩, ⟨List.replicate n 0, by simpa using hn⟩, 0, .empty⟩ none

/-- A transaction with an input whose script is one byte longer than the reader
accepts is not read back. -/
theorem transaction_encoding_fails : (scriptOfLength (maxSize + 1) (by decide)).vin.length = 1 ∧
    ¬ Reads (unserializeTransaction true)
      (serTransaction true (scriptOfLength (maxSize + 1) (by decide)))
      (scriptOfLength (maxSize + 1) (by decide)) := by
  refine ⟨rfl, fun h => ?_⟩
  have hscr := ((h.yields exact_transaction.yields).inputs _ List.mem_cons_self).scriptSig
  simp at hscr

end Lithium
