import Lithium.Script.Interpreter
import Mathlib.Data.List.NodupEquivFin

/-!
# Signatures that match keys in order

The loop of `OP_CHECKMULTISIG` gives every signature the first key that is left and
verifies it. This finds a match whenever there is one that keeps the order: what comes
after a key in a match is still there when the key is given away at once.
-/

namespace Lithium
open Lib List CScriptNum ScriptVerify

/-! ### Matches -/

section
variable {α β : Type} {R : α → β → Prop} {a : α} {b : β} {as : List α} {bs : List β}

theorem sublistForall₂_of_cons (h : SublistForall₂ R (a :: as) bs) : SublistForall₂ R as bs := by
  obtain ⟨l, hl, hsub⟩ := sublistForall₂_iff.mp h
  cases hl with
  | cons _ hl => exact sublistForall₂_iff.mpr ⟨_, hl, (sublist_cons_self _ _).trans hsub⟩

theorem length_le_of_sublistForall₂ (h : SublistForall₂ R as bs) : as.length ≤ bs.length := by
  obtain ⟨l, hl, hsub⟩ := sublistForall₂_iff.mp h
  exact hl.length_eq ▸ hsub.length_le

/-- The first element may be matched with the first one it fits. -/
theorem sublistForall₂_cons_cons [Decidable (R a b)] : SublistForall₂ R (a :: as) (b :: bs) ↔
    SublistForall₂ R (if R a b then as else a :: as) bs := by
  split_ifs with hab
  · refine ⟨fun h => ?_, .cons hab⟩
    cases h with
    | cons _ h => exact h
    | cons_right h => exact sublistForall₂_of_cons h
  · refine ⟨fun h => ?_, .cons_right⟩
    cases h with
    | cons h _ => exact absurd h hab
    | cons_right h => exact h

theorem sublistForall₂_iff_strictMono : SublistForall₂ R as bs ↔
    ∃ f : Fin as.length → Fin bs.length, StrictMono f ∧ ∀ i, R (as.get i) (bs.get (f i)) := by
  constructor
  · intro h
    obtain ⟨l, hl, hsub⟩ := sublistForall₂_iff.mp h
    obtain ⟨f, hf⟩ := sublist_iff_exists_fin_orderEmbedding_get_eq.mp hsub
    refine ⟨fun i => f (i.cast hl.length_eq), fun i j hij => f.strictMono hij, fun i => ?_⟩
    rw [← hf]
    exact hl.get i.2 _
  · rintro ⟨f, hf, hR⟩
    refine sublistForall₂_iff.mpr ⟨ofFn fun i => bs.get (f i), ?_, ?_⟩
    · refine forall₂_iff_get.mpr ⟨length_ofFn.symm, fun i hi hi' => ?_⟩
      simpa using hR ⟨i, hi⟩
    · refine sublist_iff_exists_fin_orderEmbedding_get_eq.mpr ⟨.ofStrictMono
        (fun i => f (i.cast length_ofFn)) fun i j hij => hf hij, fun i => ?_⟩
      rw [get_ofFn]
      rfl

end

/-! ### The loop -/

section
variable {env : ScriptEnv} {fSuccess : Bool}

/-- Before the signatures nothing is looked at. -/
theorem cleanUpMultisig_append (i : Nat) (args stack : Stack) :
    cleanUpMultisig env fSuccess (args.length + i) args.length (args ++ stack) =
      cleanUpMultisig env fSuccess i 0 stack := by
  induction args with
  | nil => rw [length_nil, Nat.zero_add, nil_append]
  | cons vch args ih =>
    rw [length_cons, Nat.add_right_comm, cons_append, cleanUpMultisig, Nat.add_sub_cancel, ih]
    simp

theorem cleanUpMultisig_sigs (sigs stack : Stack) :
    cleanUpMultisig env fSuccess sigs.length 0 (sigs ++ stack) =
      if fSuccess = false ∧ env.has nullfail = true ∧ ∃ sig ∈ sigs, sig ≠ [] then fail .sigNullfail
      else .ok stack := by
  induction sigs with
  | nil => simp [cleanUpMultisig]
  | cons sig sigs ih =>
    rw [length_cons, cons_append, cleanUpMultisig, ih]
    by_cases hsig : sig = []
    · simp [hsig]
    · by_cases hfail : fSuccess = false ∧ env.has nullfail = true
      · simp [hsig, hfail.1, hfail.2]
      · rw [if_neg (by simp; tauto), if_neg (by tauto), if_neg (by tauto)]

/-- The loop removes the arguments, or fails for a signature that is not empty. -/
theorem cleanUpMultisig_eq (vchKeys vchSigs : Bytes) (keys sigs stack : Stack) :
    cleanUpMultisig env fSuccess (keys.length + sigs.length + 2) (keys.length + 2)
        (vchKeys :: (keys ++ vchSigs :: (sigs ++ stack))) =
      if fSuccess = false ∧ env.has nullfail = true ∧ ∃ sig ∈ sigs, sig ≠ [] then fail .sigNullfail
      else .ok stack := by
  have hargs : cleanUpMultisig env fSuccess _ _ _ = _ :=
    cleanUpMultisig_append sigs.length (vchKeys :: (keys ++ [vchSigs])) (sigs ++ stack)
  rw [cleanUpMultisig_sigs] at hargs
  rw [← hargs]
  simp [Nat.add_right_comm, Nat.add_assoc]

end

section
variable {env : ScriptEnv} {scriptCode : Bytes} {keys sigs : List Bytes}
  {verifies : Bytes → Bytes → Bool}
  (hsigs : ∀ sig ∈ sigs, checkSignatureEncoding env sig = .ok ())
  (hkeys : ∀ key ∈ keys, checkPubKeyEncoding env key = .ok ())
  (hck : ∀ sig ∈ sigs, ∀ key ∈ keys, env.checker.checkECDSASignature sig key scriptCode
    env.sigversion = some (verifies sig key))

include hsigs hkeys hck

theorem checkMultisigLoop_eq :
    ∃ fSuccess, checkMultisigLoop env scriptCode keys sigs = .ok fSuccess ∧ (fSuccess = true ↔
      SublistForall₂ (fun sig key => verifies sig key = true) sigs keys) := by
  induction keys generalizing sigs with
  | nil =>
    cases sigs with
    | nil => exact ⟨true, rfl, iff_of_true rfl .nil⟩
    | cons sig sigs => exact ⟨false, rfl, iff_of_false (by decide) nofun⟩
  | cons key keys ih =>
    cases sigs with
    | nil => exact ⟨true, rfl, iff_of_true rfl .nil⟩
    | cons sig sigs =>
      rw [checkMultisigLoop, hsigs sig mem_cons_self, hkeys key mem_cons_self,
        ok_bind, ok_bind, ScriptEnv.checkECDSA, hck sig mem_cons_self key mem_cons_self,
        sublistForall₂_cons_cons]
      dsimp only [ok_bind]
      have hleft : ∀ s ∈ (if verifies sig key then sigs else sig :: sigs), s ∈ sig :: sigs := by
        split_ifs
        · exact fun s => mem_cons_of_mem sig
        · exact fun s => id
      generalize (if verifies sig key then sigs else sig :: sigs) = left at hleft ⊢
      split_ifs with hfew
      · refine ⟨false, rfl, iff_of_false (by decide) fun h => ?_⟩
        exact absurd (length_le_of_sublistForall₂ h) (Nat.not_le.mpr hfew)
      · exact ih (fun s hs => hsigs s (hleft s hs)) (fun k hk => hkeys k (mem_cons_of_mem key hk))
          fun s hs k hk => hck s (hleft s hs) k (mem_cons_of_mem key hk)

/-- **`OP_CHECKMULTISIG` matches signatures with keys in order.** Where the loop is
reached it yields true if and only if a strictly increasing map takes every signature
to a key for which it verifies. The numbers, the keys, the signatures and the dummy
are replaced by the result, and the keys count as operations. The script fails exactly
if the flag asks for it, the result is false and some signature is not empty. -/
theorem checkmultisig_matches_in_order {st : EvalState} {vchKeys vchSigs : Bytes} {rest : Stack}
    (hstk : st.stack = vchKeys :: (keys ++ vchSigs :: (sigs ++ [] :: rest)))
    (hnKeys : env.scriptNum vchKeys nDefaultMaxNumSize = .ok keys.length)
    (hnSigs : env.scriptNum vchSigs nDefaultMaxNumSize = .ok sigs.length)
    (hmax : keys.length ≤ 20) (hle : sigs.length ≤ keys.length)
    (hops : st.nOpCount + keys.length ≤ maxOpsPerScript) (hver : env.sigversion ≠ .tapscript)
    (hcode : removeSignatures env sigs st.pbegincodehash = .ok scriptCode) (fExec : Bool) :
    ∃ fSuccess, checkMultisigLoop env scriptCode keys sigs = .ok fSuccess ∧
      (fSuccess = true ↔ ∃ f : Fin sigs.length → Fin keys.length, StrictMono f ∧
        ∀ i, verifies (sigs.get i) (keys.get (f i)) = true) ∧
      evalInstruction env fExec st (.checkmultisig false) =
        if fSuccess = false ∧ env.has nullfail = true ∧ ∃ sig ∈ sigs, sig ≠ [] then
          fail .sigNullfail
        else .ok { st with
          stack := ofBool fSuccess :: rest
          nOpCount := st.nOpCount + keys.length } := by
  obtain ⟨fSuccess, hloop, hiff⟩ := checkMultisigLoop_eq hsigs hkeys hck
  refine ⟨fSuccess, hloop, hiff.trans sublistForall₂_iff_strictMono, ?_⟩
  have hint : ∀ {n : Nat}, n ≤ 20 → getint n = n := by
    intro n hn
    simp only [getint]
    omega
  have hmulti : evalMultisig env st.pbegincodehash keys sigs st.stack =
      if fSuccess = false ∧ env.has nullfail = true ∧ ∃ sig ∈ sigs, sig ≠ [] then
        fail .sigNullfail
      else .ok (fSuccess, rest) := by
    rw [evalMultisig, hcode, ok_bind, hloop, ok_bind, hstk, cleanUpMultisig_eq]
    split_ifs
    · rfl
    · simp
  rw [hstk] at hmulti
  rw [evalInstruction, evalCheckmultisig, hstk]
  simp only [hnKeys, hnSigs, ok_bind, hint hmax, hint (hle.trans hmax), Int.toNat_natCast,
    take_left, drop_left, hmulti]
  rw [if_neg (by simpa using hver), if_neg (by rw [maxPubkeysPerMultisigInt]; omega),
    if_neg (by omega), if_neg (by omega)]
  split_ifs
  · rfl
  · rfl

end

/-- An environment in which a key verifies the signature with the same bytes. -/
def matching (flags : UInt32) (sigversion : SigVersion) : ScriptEnv where
  flags := flags
  sigversion := sigversion
  checker := ⟨fun sig key _ _ => some (sig == key), fun _ _ _ _ => none, fun _ => true,
    fun _ => true⟩
  keys := ⟨fun _ _ _ => true, fun _ => true, fun _ _ _ => true, fun _ _ _ _ => true⟩

def twoOfThree (sigs : List Bytes) : EvalState :=
  ⟨[], [1, 1], [3] :: ([[1], [2], [3]] ++ [2] :: (sigs ++ [] :: [])), [], .new, 0, 0, {}⟩

/-- The second key is skipped. In the other order the loop ends when one key is left
for two signatures, none of which is empty; there is no match then. -/
theorem checkmultisig_matches_in_order_twoOfThree :
    let env := matching nullfail .witnessV0
    evalInstruction env true (twoOfThree [[1], [3]]) (.checkmultisig false) =
        .ok { twoOfThree [[1], [3]] with stack := [[1]], nOpCount := 3 } ∧
      evalInstruction env true (twoOfThree [[3], [1]]) (.checkmultisig false) =
        fail .sigNullfail ∧
      ¬ ∃ f : Fin 2 → Fin 3, StrictMono f ∧
        ∀ i, (([[3], [1]] : List Bytes).get i == [[1], [2], [3]].get (f i)) = true := by
  intro env
  have hkeys : ∀ key ∈ [[1], [2], [3]], checkPubKeyEncoding env key = .ok () := by decide
  have hthree : env.scriptNum [3] nDefaultMaxNumSize = .ok 3 := by decide
  have htwo : env.scriptNum [2] nDefaultMaxNumSize = .ok 2 := by decide
  constructor
  · have hsigs : ∀ sig ∈ [[1], [3]], checkSignatureEncoding env sig = .ok () := by decide
    obtain ⟨fSuccess, hloop, -, heval⟩ := checkmultisig_matches_in_order hsigs hkeys
      (fun _ _ _ _ => rfl) (rfl : (twoOfThree _).stack = _) hthree htwo (by decide) (by decide)
      (by decide) nofun rfl true
    cases hloop.symm.trans (by decide : _ = .ok true)
    exact heval
  · have hsigs : ∀ sig ∈ [[3], [1]], checkSignatureEncoding env sig = .ok () := by decide
    obtain ⟨fSuccess, hloop, hiff, heval⟩ := checkmultisig_matches_in_order hsigs hkeys
      (fun _ _ _ _ => rfl) (rfl : (twoOfThree _).stack = _) hthree htwo (by decide) (by decide)
      (by decide) nofun rfl true
    cases hloop.symm.trans (by decide : _ = .ok false)
    refine ⟨heval.trans (if_pos ⟨rfl, by decide, [3], by decide⟩), fun hmatch => ?_⟩
    cases hiff.mpr hmatch

def oneOfOne : EvalState := ⟨[], [1, 1], [[1], [1], [1], [1], []], [], .new, 0, 0, {}⟩

/-- In a script without a witness the signature is taken out of the script, and where
that is forbidden the script fails although the signature verifies. Tapscript has no
such instruction. -/
theorem checkmultisig_fails_before_loop :
    let env := matching (nullfail ||| constScriptcode) .base
    env.scriptNum [1] nDefaultMaxNumSize = .ok 1 ∧ checkSignatureEncoding env [1] = .ok () ∧
      checkPubKeyEncoding env [1] = .ok () ∧
      checkMultisigLoop env oneOfOne.pbegincodehash [[1]] [[1]] = .ok true ∧
      evalInstruction env true oneOfOne (.checkmultisig false) = fail .sigFindanddelete ∧
      evalInstruction (matching 0 .tapscript) true oneOfOne (.checkmultisig false) =
        fail .tapscriptCheckmultisig :=
  ⟨rfl, rfl, rfl, rfl, rfl, rfl⟩

end Lithium
