import Lithium.Lib.Loosening
import Lithium.Script.Interpreter

/-!
# Flags only restrict

Every rule of the interpreter that depends on a flag rejects scripts and does nothing
else: a script that succeeds under some flags succeeds with the same result under
fewer of them. The proofs follow the interpreter from the encodings of numbers and
signatures up to `VerifyScript`. Only there some flags decide what is evaluated at
all, and the rules on which flags depend on others are needed.

`EvalScript` and what it calls do not ask for `TAPROOT`, so two words that agree on the
other flags give the same evaluation, failures included. Both facts have one proof,
in which it is left open whether failures may be lost.
-/

namespace Lithium
open Lib ScriptVerify ScriptEnv CScriptNum

/-! ### Flags -/

namespace ScriptVerify

/-- All flags of `weak` are set in `strong`. -/
def Subset (weak strong : UInt32) : Prop := weak &&& strong = weak

instance (weak strong : UInt32) : Decidable (Subset weak strong) :=
  inferInstanceAs (Decidable (weak &&& strong = weak))

theorem Subset.hasFlag {weak strong : UInt32} (h : Subset weak strong) {flag : UInt32}
    (hflag : hasFlag weak flag = true) : Lithium.hasFlag strong flag = true := by
  rw [Lithium.hasFlag, bne_iff_ne] at hflag ⊢
  intro hzero
  apply hflag
  rw [← h, UInt32.and_assoc, hzero, UInt32.and_zero]

theorem Subset.loosensTest {weak strong : UInt32} (h : Subset weak strong) (flag : UInt32) :
    LoosensTest True (Lithium.hasFlag strong flag) (Lithium.hasFlag weak flag) := by
  cases hweak : Lithium.hasFlag weak flag with
  | true => exact .inl (h.hasFlag hweak).symm
  | false =>
    cases Lithium.hasFlag strong flag with
    | true => exact .inr ⟨trivial, rfl, rfl⟩
    | false => exact .inl rfl

/-- `CLEANSTACK` needs `P2SH` and `WITNESS`, and `WITNESS` needs `P2SH`. -/
structure Dependent (flags : UInt32) : Prop where
  cleanstack : hasFlag flags cleanstack = true →
    hasFlag flags p2sh = true ∧ hasFlag flags witness = true
  witness : hasFlag flags witness = true → hasFlag flags p2sh = true

end ScriptVerify

namespace ScriptEnv

def withFlags (env : ScriptEnv) (flags : UInt32) : ScriptEnv := { env with flags }

/-- Every flag but `TAPROOT` is the same under the given flags, or not set there where
failures may be lost. -/
def Looser (env : ScriptEnv) (lost : Prop) (flags : UInt32) : Prop :=
  ∀ flag, ~~~taproot &&& flag = flag →
    LoosensTest lost (env.has flag) ((env.withFlags flags).has flag)

/-- Under the given flags a computation loosens. -/
def Weakens (env : ScriptEnv) (lost : Prop) (flags : UInt32) {α : Type}
    (f : ScriptEnv → ScriptResult α) : Prop :=
  Loosens lost (f env) (f (env.withFlags flags))

variable {env : ScriptEnv} {lost : Prop} {flags : UInt32}

@[simp] theorem sigversion_withFlags : (env.withFlags flags).sigversion = env.sigversion := rfl
@[simp] theorem checker_withFlags : (env.withFlags flags).checker = env.checker := rfl
@[simp] theorem keys_withFlags : (env.withFlags flags).keys = env.keys := rfl
theorem Looser.has (h : env.Looser lost flags) {f : UInt32} (hflag : ~~~taproot &&& f = f) :
    LoosensTest lost (env.has f) ((env.withFlags flags).has f) := h f hflag

theorem looser_of_subset (h : Subset flags env.flags) : env.Looser True flags :=
  fun flag _ => h.loosensTest flag

end ScriptEnv

theorem CScriptNum.decode_of_minimal {vch : Bytes} {nMaxNumSize : Nat} {n : Int} {b : Bool}
    (h : decode vch true nMaxNumSize = some n) : decode vch b nMaxNumSize = some n := by
  rw [decode] at h ⊢
  split_ifs at h ⊢ <;> simp_all

section
variable {env : ScriptEnv} {lost : Prop} {flags : UInt32} (h : env.Looser lost flags)

/-! ### Encodings -/

include h

theorem scriptNum_loosens (vch : Bytes) (nMaxNumSize : Nat) :
    env.Weakens lost flags (·.scriptNum vch nMaxNumSize) := by
  rw [Weakens, scriptNum, scriptNum]
  rcases h.has (f := minimaldata) rfl with hsame | ⟨hlost, hset, hclear⟩
  · rw [hsame]
    exact .refl _
  · cases hdecode : decode vch (env.has minimaldata) nMaxNumSize with
    | none => exact .inr ⟨hlost, _, rfl⟩
    | some n =>
      rw [hset] at hdecode
      rw [decode_of_minimal hdecode]
      exact .refl _

theorem checkSignatureEncoding_loosens (vchSig : Bytes) :
    env.Weakens lost flags (checkSignatureEncoding · vchSig) := by
  rw [Weakens, checkSignatureEncoding, checkSignatureEncoding, keys_withFlags]
  refine .ite (.refl _) (.test (.and_right (h.has rfl) _) ?_)
  refine .bind (.check (h.has rfl) (.refl _)) fun _ => ?_
  exact .test (.and_right (h.has rfl) _) (.refl _)

theorem checkPubKeyEncoding_loosens (vchPubKey : Bytes) :
    env.Weakens lost flags (checkPubKeyEncoding · vchPubKey) :=
  .test (.and_right (h.has rfl) _) (.test (.and_right (.and_right (h.has rfl) _) _) (.refl _))

/-! ### Signatures -/

theorem removeSignature_loosens (vchSig scriptCode : Bytes) :
    env.Weakens lost flags (removeSignature · vchSig scriptCode) :=
  .ite (.test (.and_left (h.has rfl) _) (.refl _)) (.refl _)

theorem removeSignatures_loosens (sigs : List Bytes) (scriptCode : Bytes) :
    env.Weakens lost flags (removeSignatures · sigs scriptCode) := by
  induction sigs generalizing scriptCode with
  | nil => exact .refl _
  | cons vchSig sigs ih =>
    rw [Weakens, removeSignatures, removeSignatures]
    exact .bind (removeSignature_loosens h _ _) ih

theorem evalChecksigPreTapscript_loosens (vchSig vchPubKey pbegincodehash : Bytes) :
    env.Weakens lost flags (evalChecksigPreTapscript · vchSig vchPubKey pbegincodehash) := by
  rw [Weakens, evalChecksigPreTapscript, evalChecksigPreTapscript]
  refine .bind (removeSignature_loosens h _ _) fun scriptCode => ?_
  refine .bind (checkSignatureEncoding_loosens h _) fun _ => ?_
  refine .bind (checkPubKeyEncoding_loosens h _) fun _ => ?_
  exact .bind (.refl _) fun _ => .test (.and_right (.and_left (h.has rfl) _) _) (.refl _)

section
variable (sig pubkey pbegincodehash : Bytes) (execdata : ScriptExecutionData)

theorem evalChecksigTapscript_loosens :
    env.Weakens lost flags (evalChecksigTapscript · sig pubkey execdata) := by
  rw [Weakens, evalChecksigTapscript, evalChecksigTapscript]
  exact .bind (.refl _) fun _ => .ite (.refl _) (.ite (.refl _) (.test (h.has rfl) (.refl _)))

theorem evalChecksig_loosens :
    env.Weakens lost flags (evalChecksig · sig pubkey pbegincodehash execdata) := by
  rw [Weakens, evalChecksig, evalChecksig, sigversion_withFlags]
  cases env.sigversion with
  | base | witnessV0 =>
    exact .bind (evalChecksigPreTapscript_loosens h _ _ _) fun _ => .refl _
  | tapscript => exact evalChecksigTapscript_loosens h _ _ _
  | taproot => exact .refl _

theorem checkMultisigLoop_loosens (scriptCode : Bytes) (keys sigs : List Bytes) :
    env.Weakens lost flags (checkMultisigLoop · scriptCode keys sigs) := by
  induction keys generalizing sigs with
  | nil => cases sigs <;> exact .refl _
  | cons vchPubKey keys ih =>
    cases sigs with
    | nil => exact .refl _
    | cons vchSig sigs =>
      rw [Weakens, checkMultisigLoop, checkMultisigLoop]
      refine .bind (checkSignatureEncoding_loosens h _) fun _ => ?_
      refine .bind (checkPubKeyEncoding_loosens h _) fun _ => ?_
      exact .bind (.refl _) fun _ => .ite (.refl _) (ih _)

theorem cleanUpMultisig_loosens (fSuccess : Bool) (i ikey2 : Nat) (stack : Stack) :
    env.Weakens lost flags (cleanUpMultisig · fSuccess i ikey2 stack) := by
  induction i generalizing ikey2 stack with
  | zero => exact .refl _
  | succ i ih =>
    cases stack with
    | nil => exact .refl _
    | cons vch stack => exact .test (.and_right (.and_left (h.has rfl) _) _) (ih _ _)

theorem evalMultisig_loosens (keys sigs : List Bytes) (stack : Stack) :
    env.Weakens lost flags (evalMultisig · pbegincodehash keys sigs stack) := by
  rw [Weakens, evalMultisig, evalMultisig]
  refine .bind (removeSignatures_loosens h _ _) fun scriptCode => ?_
  refine .bind (checkMultisigLoop_loosens h _ _ _) fun fSuccess => ?_
  refine .bind (cleanUpMultisig_loosens h _ _ _ _) fun stack => ?_
  cases stack with
  | nil => exact .refl _
  | cons dummy stack => exact .test (.and_right (h.has rfl) _) (.refl _)

end

/-! ### Instructions -/

theorem evalCheckmultisig_loosens (verify : Bool) (st : EvalState) :
    env.Weakens lost flags (evalCheckmultisig · verify st) := by
  rw [Weakens, evalCheckmultisig, evalCheckmultisig]
  refine .ite (.refl _) ?_
  cases st.stack with
  | nil => exact .refl _
  | cons vchKeys stack =>
  dsimp only
  refine .bind (scriptNum_loosens h _ _) fun n => ?_
  refine .ite (.refl _) (.ite (.refl _) ?_)
  cases stack.drop (getint n).toNat with
  | nil => exact .refl _
  | cons vchSigs stack =>
  dsimp only
  refine .bind (scriptNum_loosens h _ _) fun n => .ite (.refl _) ?_
  cases stack.drop (getint n).toNat with
  | nil => exact .refl _
  | cons dummy stack =>
  dsimp only
  exact .bind (evalMultisig_loosens h _ _ _ _) fun _ => .refl _

theorem evalPick_loosens (roll : Bool) (stack : Stack) :
    env.Weakens lost flags (evalPick · roll stack) := by
  match stack with
  | [] | [_] => exact .refl _
  | vch :: x :: rest =>
    rw [Weakens, evalPick, evalPick]
    exact .bind (scriptNum_loosens h _ _) fun _ => .refl _

theorem evalStackOp_loosens (op : StackOp) (stack altstack : Stack) :
    env.Weakens lost flags (evalStackOp · op stack altstack) := by
  unfold evalStackOp
  split <;> first | exact .refl _ | exact .bind (evalPick_loosens h _ _) fun _ => .refl _

theorem evalLockTime_loosens {flag : UInt32} (hflag : ~~~taproot &&& flag = flag)
    (satisfied : Int → Bool) (st : EvalState) :
    env.Weakens lost flags (evalLockTime · flag satisfied st) := by
  rw [Weakens, evalLockTime, evalLockTime]
  rcases h.has hflag with hsame | ⟨hlost, hset, hclear⟩
  · rw [hsame]
    refine .ite (.refl _) ?_
    split
    case h_1 => exact .refl _
    case h_2 vch _ _ =>
      exact .bind (scriptNum_loosens h _ _) fun _ => .refl _
  · -- without the flag nothing happens, and with it the state stays the same
    rw [hset, hclear, Bool.not_true, if_neg Bool.false_ne_true, Bool.not_false, if_pos rfl]
    dsimp only [bind, Except.bind]
    repeat' split
    all_goals first | exact .refl _ | exact .inr ⟨hlost, _, rfl⟩

theorem evalConditional_loosens (negated fExec : Bool) (st : EvalState) :
    env.Weakens lost flags (evalConditional · negated fExec st) := by
  refine .ite (.refl _) ?_
  cases st.stack with
  | nil => exact .refl _
  | cons vch stack =>
    exact .ite (.refl _) (.test (.and_right (.and_left (h.has rfl) _) _) (.refl _))

theorem evalUnary_loosens (op : UnaryOp) (stack : Stack) :
    env.Weakens lost flags (evalUnary · op stack) := by
  match stack with
  | [] => exact .refl _
  | vch :: stack =>
    rw [Weakens, evalUnary, evalUnary]
    exact .bind (scriptNum_loosens h _ _) fun _ => .refl _

theorem evalBinary_loosens (op : BinaryOp) (stack : Stack) :
    env.Weakens lost flags (evalBinary · op stack) := by
  match stack with
  | [] | [_] => exact .refl _
  | vch2 :: vch1 :: stack =>
    rw [Weakens, evalBinary, evalBinary]
    refine .bind (scriptNum_loosens h vch1 _) fun bn1 => ?_
    exact .bind (scriptNum_loosens h vch2 _) fun _ => .refl _

theorem evalWithin_loosens (stack : Stack) : env.Weakens lost flags (evalWithin · stack) := by
  match stack with
  | [] | [_] | [_, _] => exact .refl _
  | vch3 :: vch2 :: vch1 :: stack =>
    rw [Weakens, evalWithin, evalWithin]
    refine .bind (scriptNum_loosens h vch1 _) fun bn1 => ?_
    refine .bind (scriptNum_loosens h vch2 _) fun bn2 => ?_
    exact .bind (scriptNum_loosens h vch3 _) fun _ => .refl _

theorem evalChecksigadd_loosens (st : EvalState) :
    env.Weakens lost flags (evalChecksigadd · st) := by
  rw [Weakens, evalChecksigadd, evalChecksigadd]
  refine .ite (.refl _) ?_
  split
  case h_2 => exact .refl _
  case h_1 pubkey vch sig stack _ =>
    refine .bind (scriptNum_loosens h vch _) fun num => ?_
    exact .bind (evalChecksig_loosens h _ _ _ _) fun _ => .refl _

theorem evalInstruction_loosens (fExec : Bool) (st : EvalState) (i : Instruction) :
    env.Weakens lost flags (evalInstruction · fExec st i) := by
  cases i with
  | checklocktimeverify | checksequenceverify => exact evalLockTime_loosens h (by decide) _ _
  | upgradableNop => exact .test (h.has rfl) (.refl _)
  | conditional negated => exact evalConditional_loosens h _ _ _
  | stack op => exact .bind (evalStackOp_loosens h _ _ _) fun _ => .refl _
  | unary op => exact .bind (evalUnary_loosens h _ _) fun _ => .refl _
  | binary op => exact .bind (evalBinary_loosens h _ _) fun _ => .refl _
  | within => exact .bind (evalWithin_loosens h _) fun _ => .refl _
  | checksig verify =>
    rw [Weakens, evalInstruction, evalInstruction]
    split
    case h_2 => exact .refl _
    case h_1 vchPubKey vchSig stack _ =>
      exact .bind (evalChecksig_loosens h _ _ _ _) fun _ => .refl _
  | checksigadd => exact evalChecksigadd_loosens h _
  | checkmultisig verify => exact evalCheckmultisig_loosens h _ _
  | _ => exact .refl _

/-! ### Evaluation -/

theorem evalOpcode_loosens (opcode : Nat) (vchPushValue : Bytes) (st : EvalState) :
    env.Weakens lost flags (evalOpcode · opcode vchPushValue st) := by
  refine .ite (.test (.and_right (h.has rfl) _) (.refl _)) (.ite ?_ (.refl _))
  cases instruction opcode with
  | none => exact .refl _
  | some i => exact evalInstruction_loosens h _ _ _

/-- One turn of the loop. -/
theorem evalStep_loosens (st : EvalState) : env.Weakens lost flags (evalStep · st) := by
  rw [Weakens, evalStep, evalStep]
  match getScriptOp st.pc with
  | none => exact .refl _
  | some (opcode, vchPushValue, pc) =>
    refine .ite (.refl _) (.ite (.refl _) (.ite (.refl _) (.test (.and_left (h.has rfl) _) ?_)))
    exact .bind (evalOpcode_loosens h _ _ _) fun _ => .refl _

/-- The whole run. -/
theorem evalLoop_loosens (n : Nat) (st : EvalState) : env.Weakens lost flags (evalLoop · n st) := by
  induction n generalizing st with
  | zero => exact .refl _
  | succ n ih =>
    rw [Weakens, evalLoop, evalLoop]
    exact .ite (.refl _) (.bind (evalStep_loosens h st) ih)

theorem evalScript_loosens (stack : Stack) (script : Bytes) (execdata : ScriptExecutionData) :
    env.Weakens lost flags (evalScript · stack script execdata) := by
  refine .ite (.refl _) (.ite (.refl _) ?_)
  generalize EvalState.mk script _ _ _ _ _ _ _ = st
  rcases evalLoop_loosens h script.length st with hloop | ⟨hlost, e, hloop⟩
  · dsimp only at hloop ⊢
    rw [hloop]
    exact .refl _
  · dsimp only at hloop ⊢
    rw [hloop]
    cases e <;> exact .inr ⟨hlost, _, rfl⟩

/-! ### Witness programs -/

theorem executeWitnessScript_loosens (stack : Stack) (execScript : Bytes)
    (execdata : ScriptExecutionData) :
    env.Weakens lost flags (executeWitnessScript · stack execScript execdata) := by
  rw [Weakens, executeWitnessScript, executeWitnessScript, sigversion_withFlags]
  refine .bind (.refl _) fun _ => .ite (.test (h.has rfl) (.refl _)) ?_
  exact .ite (.refl _) (.ite (.refl _) (.bind (evalScript_loosens h _ _ _) fun _ => .refl _))

variable (witness : List Bytes)

theorem verifyTaprootScript_loosens (program control script : Bytes) (stack : Stack)
    (execdata : ScriptExecutionData) : env.Weakens lost flags
      (verifyTaprootScript · witness program control script stack execdata) := by
  have hsame : ScriptEnv.Looser { env with sigversion := .tapscript } lost flags := h
  refine .ite (.refl _) (.ite (.refl _) (.ite ?_ (.test (h.has rfl) (.refl _))))
  exact executeWitnessScript_loosens hsame _ _ _

theorem verifyTaproot_loosens (program : Bytes) :
    env.Weakens lost flags (verifyTaproot · witness program) := by
  rw [Weakens, verifyTaproot, verifyTaproot]
  obtain ⟨annex, stack⟩ := takeAnnex witness.reverse
  match stack with
  | [] | [_] => exact .refl _
  | control :: script :: stack => exact verifyTaprootScript_loosens h _ _ _ _ _ _

theorem verifyWitnessV0_loosens (program : Bytes) :
    env.Weakens lost flags (verifyWitnessV0 · witness program) := by
  have hsame : ScriptEnv.Looser { env with sigversion := .witnessV0 } lost flags := h
  refine .ite ?_ (.ite (.ite (.refl _) (executeWitnessScript_loosens hsame _ _ _)) (.refl _))
  cases witness.reverse with
  | nil => exact .refl _
  | cons execScript stack => exact .ite (.refl _) (executeWitnessScript_loosens hsame _ _ _)

/-- Only one kind of program is looked at under `TAPROOT`. -/
theorem verifyWitnessProgram_loosens {witversion : Nat} {program : Bytes} {isP2sh : Bool}
    (htap : witversion = 1 ∧ program.length = 32 ∧ isP2sh = false →
      LoosensTest lost (env.has taproot) ((env.withFlags flags).has taproot)) :
    env.Weakens lost flags (verifyWitnessProgram · witness witversion program isP2sh) := by
  refine .ite (verifyWitnessV0_loosens h witness program) ?_
  by_cases hprog : witversion = 1 ∧ program.length = 32 ∧ isP2sh = false
  · rw [if_pos hprog, if_pos hprog]
    exact .check (htap hprog) (verifyTaproot_loosens h witness program)
  · rw [if_neg hprog, if_neg hprog]
    exact .test (h.has rfl) (.refl _)

/-! ### Verification -/

section
variable {scriptSig scriptPubKey : Bytes}
  (hwit : (env.withFlags flags).has ScriptVerify.witness = env.has ScriptVerify.witness)
  (hp2sh : (env.withFlags flags).has p2sh = env.has p2sh)
  (htap : ∀ program, isWitnessProgram scriptPubKey = some (1, program) → scriptSig = [] →
    program.length = 32 → LoosensTest lost (env.has taproot) ((env.withFlags flags).has taproot))

include hwit

include htap in
theorem verifyBareWitness_loosens (stack : Stack) :
    env.Weakens lost flags (verifyBareWitness · scriptSig scriptPubKey witness stack) := by
  rw [Weakens, verifyBareWitness, verifyBareWitness, hwit]
  split
  case h_1 => exact .refl _
  case h_2 witversion program hprog =>
    by_cases hsig : scriptSig = []
    · refine .ite (.refl _) ?_
      refine .bind (verifyWitnessProgram_loosens h witness ?_) fun _ => .refl _
      rintro ⟨rfl, hlen, -⟩
      split_ifs at hprog
      exact htap program hprog hsig hlen
    · cases scriptSig with
      | nil => exact absurd rfl hsig
      | cons b rest => exact .refl _

theorem verifyP2shWitness_loosens (pubKey2 : Bytes) (hadWitness : Bool) (stack : Stack) :
    env.Weakens lost flags (verifyP2shWitness · scriptSig pubKey2 witness hadWitness stack) := by
  rw [Weakens, verifyP2shWitness, verifyP2shWitness, hwit]
  split
  case h_1 => exact .refl _
  case h_2 witversion program _ =>
    refine .ite (.refl _) ?_
    refine .bind (verifyWitnessProgram_loosens h witness ?_) fun _ => .refl _
    exact fun hprog => absurd hprog.2.2 Bool.noConfusion

include hp2sh

theorem verifyP2sh_loosens (hadWitness : Bool) (stackCopy stack : Stack) : env.Weakens lost flags
      (verifyP2sh · scriptSig scriptPubKey witness hadWitness stackCopy stack) := by
  rw [Weakens, verifyP2sh.eq_def, verifyP2sh.eq_def, hp2sh]
  refine .ite (.ite (.refl _) ?_) (.refl _)
  cases stackCopy with
  | nil => exact .refl _
  | cons pubKey2 stack =>
    dsimp only
    refine .bind (evalScript_loosens h stack pubKey2 {}) fun stack => ?_
    exact .ite (.refl _) (verifyP2shWitness_loosens h witness hwit _ _ _)

theorem verifyClean_loosens (hadWitness : Bool) (stack : Stack) :
    env.Weakens lost flags (verifyClean · witness hadWitness stack) := by
  rw [Weakens, verifyClean, verifyClean, hwit, hp2sh]
  refine .test (.and_right (h.has rfl) _) (.test (.and_right (h.has rfl) _) ?_)
  exact .refl _

end
end

section
variable {keys : PubKeyOps} {checker : BaseSignatureChecker} {scriptSig scriptPubKey : Bytes}
  {weak : UInt32}

/-- If the flags that decide what is evaluated are the same, fewer flags only lose failures. -/
theorem verifyScript_loosens {flags : UInt32} {lost : Prop}
    (h : ScriptEnv.Looser ⟨flags, .base, checker, keys⟩ lost weak)
    (hwit : hasFlag weak witness = hasFlag flags witness)
    (hp2sh : hasFlag weak p2sh = hasFlag flags p2sh)
    (htap : ∀ program, isWitnessProgram scriptPubKey = some (1, program) → scriptSig = [] →
      program.length = 32 → LoosensTest lost (hasFlag flags taproot) (hasFlag weak taproot))
    (witness : List Bytes) :
    Loosens lost (verifyScript keys scriptSig scriptPubKey witness flags checker)
      (verifyScript keys scriptSig scriptPubKey witness weak checker) := by
  obtain ⟨env, henv⟩ : ∃ env : ScriptEnv, env = ⟨flags, .base, checker, keys⟩ := ⟨_, rfl⟩
  have hweak : (⟨weak, .base, checker, keys⟩ : ScriptEnv) = env.withFlags weak := by rw [henv]; rfl
  rw [verifyScript, verifyScript, hweak, ← henv]
  rw [← henv] at h
  subst henv
  refine .test (.and_right (h.has rfl) _) ?_
  refine .bind (evalScript_loosens h [] scriptSig {}) fun stackCopy => ?_
  dsimp only
  refine .bind (evalScript_loosens h stackCopy scriptPubKey {}) fun stack =>
    .ite (.refl _) ?_
  refine .bind (verifyBareWitness_loosens h witness hwit htap stack)
    fun r => ?_
  obtain ⟨hadWitness, stack₁⟩ := r
  dsimp only
  refine .bind (verifyP2sh_loosens h witness hwit hp2sh hadWitness stackCopy stack₁) fun r => ?_
  exact verifyClean_loosens h witness hwit hp2sh _ _

theorem passes {α : Type} {c : Prop} [Decidable c] {e : ScriptFailure} {r : ScriptResult α}
    {a : α} (h : (if c then .error e else r) = .ok a) : ¬ c ∧ r = .ok a := by
  by_cases hc : c
  · rw [if_pos hc] at h
    cases h
  · rw [if_neg hc] at h
    exact ⟨hc, h⟩

/-- Without the witness flag no more than the script behind the hash is evaluated. -/
theorem verifyP2sh_succeeds {env : ScriptEnv} {witness : List Bytes} {hadWitness : Bool}
    {stackCopy stack : Stack} {r : Bool × Stack} (hweak : Subset weak env.flags)
    (hwit : (env.withFlags weak).has ScriptVerify.witness = false)
    (h : verifyP2sh env scriptSig scriptPubKey witness hadWitness stackCopy stack = .ok r)
    (hadWitness' : Bool) (stack' : Stack) :
    ∃ r', verifyP2sh (env.withFlags weak) scriptSig scriptPubKey witness hadWitness' stackCopy
      stack' = .ok r' := by
  rw [verifyP2sh.eq_def] at h ⊢
  by_cases hhash : ((env.withFlags weak).has p2sh && isPayToScriptHash scriptPubKey) = true
  · rw [Bool.and_eq_true] at hhash
    rw [if_pos (Bool.and_eq_true _ _ ▸ ⟨hweak.hasFlag hhash.1, hhash.2⟩)] at h
    rw [if_pos (Bool.and_eq_true _ _ ▸ hhash)]
    obtain ⟨hpush, h⟩ := passes h
    rw [if_neg hpush]
    split at h
    case h_1 => cases h
    case h_2 pubKey2 rest =>
    obtain ⟨stack₂, heval, h⟩ := bind_eq_ok.mp h
    have heval := (evalScript_loosens (looser_of_subset hweak) _ _ _).ok heval
    refine Exists.imp (fun _ hr => bind_eq_ok.mpr ⟨stack₂, heval, hr⟩) ?_
    rw [if_neg (passes h).1, verifyP2shWitness, hwit]
    exact ⟨_, rfl⟩
  · rw [if_neg hhash]
    exact ⟨_, rfl⟩

/-- A script that is valid under some flags is valid under fewer of them. -/
theorem verifyScript_weaken {witness : List Bytes} {strong : UInt32}
    (hweak : ScriptVerify.Subset weak strong) (hdep : ScriptVerify.Dependent weak)
    (h : verifyScript keys scriptSig scriptPubKey witness strong checker = .ok ()) :
    verifyScript keys scriptSig scriptPubKey witness weak checker = .ok () := by
  have hloose : ScriptEnv.Looser ⟨strong, .base, checker, keys⟩ True weak := looser_of_subset hweak
  cases hwit : hasFlag weak ScriptVerify.witness with
  | true =>
    have hp2sh := hdep.witness hwit
    refine (verifyScript_loosens hloose ?_ ?_ ?_ witness).ok h
    · rw [hwit, hweak.hasFlag hwit]
    · rw [hp2sh, hweak.hasFlag hp2sh]
    · exact fun _ _ _ _ => hweak.loosensTest taproot
  | false =>
    -- without the witness flag there is no rule for the stack that is left either
    obtain ⟨env, henv⟩ : ∃ env : ScriptEnv, env = ⟨strong, .base, checker, keys⟩ := ⟨_, rfl⟩
    have hweakened : (⟨weak, .base, checker, keys⟩ : ScriptEnv) = env.withFlags weak := by
      rw [henv]
      rfl
    rw [verifyScript] at h ⊢
    rw [← henv] at h hloose
    rw [hweakened]
    obtain ⟨hpush, h⟩ := passes h
    rw [if_neg (((hloose.has (f := sigpushonly) rfl).and_right _).passes hpush)]
    obtain ⟨stackCopy, hsig, h⟩ := bind_eq_ok.mp h
    obtain ⟨stack, hpubkey, h⟩ := bind_eq_ok.mp h
    obtain ⟨hfalse, h⟩ := passes h
    obtain ⟨bare, -, h⟩ := bind_eq_ok.mp h
    obtain ⟨hashed, hp2sh, -⟩ := bind_eq_ok.mp h
    have hwit' : (env.withFlags weak).has ScriptVerify.witness = false := hwit
    obtain ⟨⟨_, _⟩, hr⟩ :=
      verifyP2sh_succeeds (by rw [henv]; exact hweak) hwit' hp2sh false stack
    have hcl : (env.withFlags weak).has cleanstack = false := by
      refine Bool.eq_false_iff.mpr fun hc => ?_
      rw [(hdep.cleanstack hc).2] at hwit
      cases hwit
    refine bind_eq_ok.mpr ⟨_, (evalScript_loosens hloose _ _ _).ok hsig, bind_eq_ok.mpr
      ⟨_, (evalScript_loosens hloose _ _ _).ok hpubkey, ?_⟩⟩
    rw [if_neg hfalse]
    refine bind_eq_ok.mpr ⟨(false, stack), ?_, bind_eq_ok.mpr ⟨_, hr, ?_⟩⟩
    · rw [verifyBareWitness, hwit']
      rfl
    · dsimp only
      rw [verifyClean, hcl, hwit']
      rfl

end

end Lithium
