import Lithium.Script.Flags

/-!
# Where `TAPROOT` is read

`EvalScript` and what it calls never ask for `TAPROOT`. It is read at one place, the
branch of `VerifyWitnessProgram` for outputs of version 1, so a word with the flag and
one without it can only disagree on an input that gets there.
-/

namespace Lithium
open Lib Opcode ScriptVerify ScriptEnv
variable {program scriptPubKey : Bytes} {env : ScriptEnv}

namespace ScriptVerify

/-- The two words agree on every flag but `TAPROOT`. -/
def SameButTaproot (a b : UInt32) : Prop := a &&& ~~~taproot = b &&& ~~~taproot

instance (a b : UInt32) : Decidable (SameButTaproot a b) :=
  inferInstanceAs (Decidable (a &&& ~~~taproot = b &&& ~~~taproot))

theorem SameButTaproot.hasFlag {a b : UInt32} (h : SameButTaproot a b) {flag : UInt32}
    (hflag : ~~~taproot &&& flag = flag) : hasFlag a flag = Lithium.hasFlag b flag := by
  rw [Lithium.hasFlag, Lithium.hasFlag, ← hflag, ← UInt32.and_assoc, h, UInt32.and_assoc]

theorem sameButTaproot_remove (flags : UInt32) : SameButTaproot (flags &&& ~~~taproot) flags := by
  rw [SameButTaproot, UInt32.and_assoc, UInt32.and_self]

end ScriptVerify

/-- Scripts that do not spend a taproot output directly never meet the flag. -/
theorem verifyScript_same {a b : UInt32} (hsame : ScriptVerify.SameButTaproot a b)
    {scriptSig scriptPubKey : Bytes}
    (hother : ∀ program, isWitnessProgram scriptPubKey = some (1, program) → scriptSig = [] →
      program.length ≠ 32)
    (keys : PubKeyOps) (witness : List Bytes) (checker : BaseSignatureChecker) :
    verifyScript keys scriptSig scriptPubKey witness a checker =
      verifyScript keys scriptSig scriptPubKey witness b checker := by
  have hloose : Looser ⟨b, .base, checker, keys⟩ False a := fun _ hflag =>
    .inl (hsame.hasFlag hflag)
  refine (verifyScript_loosens hloose ?_ ?_ ?_ witness).eq
  · exact hsame.hasFlag (by decide)
  · exact hsame.hasFlag (by decide)
  · exact fun program hprog hsig hlen => absurd hlen (hother program hprog hsig)

/-! ### Spends of taproot outputs -/

/-- An output of version 1 with 32 bytes is the number 1 and a push. -/
theorem eq_of_isWitnessProgram_taproot {script : Bytes}
    (h : isWitnessProgram script = some (1, program)) (hlen : program.length = 32) :
    script = 0x51 :: 0x20 :: program := by
  unfold isWitnessProgram at h
  split at h
  · cases h
  · split at h
    case h_2 => cases h
    case h_1 op size prog _ =>
      split at h
      · cases h
      · split at h
        case isFalse => cases h
        case isTrue hsize =>
          obtain ⟨hop, rfl⟩ := Prod.mk.inj (Option.some.inj h)
          have hsize : size.toNat = 32 := by
            have := beq_iff_eq.mp hsize
            simp only [List.length_cons, hlen] at this
            omega
          have hop : op.toNat = 0x51 := by
            split at hop
            · cases hop
            · simp only [op1] at hop
              omega
          rw [UInt8.toNat_inj.mp (hop.trans (by decide : 0x51 = (0x51 : UInt8).toNat)),
            UInt8.toNat_inj.mp (hsize.trans (by decide : 32 = (0x20 : UInt8).toNat))]

variable {st : EvalState}

theorem evalLoop_done (env : ScriptEnv) (n : Nat) (hpc : st.pc = []) :
    evalLoop env n st = .ok st := by
  cases n with
  | zero => rfl
  | succ n => rw [evalLoop, hpc]; rfl

theorem evalLoop_step (n : Nat) {st' : EvalState} (hpc : st.pc.isEmpty = false)
    (h : evalStep env st = .ok st') : evalLoop env (n + 1) st = evalLoop env n st' := by
  rw [evalLoop, hpc, if_neg Bool.false_ne_true, h, ok_bind]

theorem checkMinimalPush_length {data : Bytes} (hlow : 1 < data.length) (hhigh : data.length ≤ 75) :
    checkMinimalPush data data.length = true := by
  match data, hlow with
  | a :: b :: rest, _ => rw [checkMinimalPush.eq_def]; simp only [if_pos hhigh, beq_self_eq_true]

/-- Instructions up to `OP_16` are not counted, and none of them is disabled. -/
theorem evalStep_of_le_op16 {st' : EvalState} {opcode : Nat} {vchPushValue pc : Bytes}
    (hop : getScriptOp st.pc = some (opcode, vchPushValue, pc)) (hlow : opcode ≤ op16)
    (hsize : vchPushValue.length ≤ maxScriptElementSize)
    (heval : evalOpcode env opcode vchPushValue { st with pc } = .ok st')
    (hstk : st'.stack.length + st'.altstack.length ≤ maxStackSize) :
    evalStep env st = .ok { st' with opcodePos := st'.opcodePos + 1 } := by
  have hcnt : decide (op16 < opcode) = false := decide_eq_false (by omega)
  have hdisabled : opcode ∉ disabledOpcodes := by
    have hall : ∀ op ∈ disabledOpcodes, op16 < op := by decide
    intro hmem
    have := hall opcode hmem
    omega
  have hsep : decide (opcode = opCodeseparator) = false :=
    decide_eq_false (by rintro rfl; exact absurd hlow (by decide))
  simp [evalStep, hop, hcnt, hsep, if_neg (Nat.not_lt.mpr hsize), if_neg hdisabled, heval,
    if_neg (Nat.not_lt.mpr hstk)]

theorem evalStep_op1 {rest : Bytes} (hpc : st.pc = 0x51 :: rest) (hexec : st.vfExec.allTrue = true)
    (hstk : st.stack.length + 1 + st.altstack.length ≤ maxStackSize) :
    evalStep env st = .ok { st with
      pc := rest, stack := [1] :: st.stack, opcodePos := st.opcodePos + 1 } := by
  have hop : getScriptOp st.pc = some (0x51, [], rest) := by rw [hpc]; rfl
  have heval : evalOpcode env 0x51 [] { st with pc := rest } =
      .ok { st with pc := rest, stack := [1] :: st.stack } := by
    simp only [evalOpcode, hexec, show instruction 0x51 = some (.number 1) from rfl,
      evalInstruction]
    rfl
  exact evalStep_of_le_op16 hop (by decide) (by decide) heval hstk

theorem evalStep_push32 (hpc : st.pc = 0x20 :: program) (hlen : program.length = 32)
    (hexec : st.vfExec.allTrue = true)
    (hstk : st.stack.length + 1 + st.altstack.length ≤ maxStackSize) :
    evalStep env st = .ok { st with
      pc := [], stack := program :: st.stack, opcodePos := st.opcodePos + 1 } := by
  have hop : getScriptOp st.pc = some (32, program, []) := by
    rw [hpc, getScriptOp]
    simp only [show (0x20 : UInt8).toNat = 32 from rfl, hlen, List.take_of_length_le hlen.le,
      List.drop_eq_nil_of_le hlen.le]
    rfl
  have hminimal : checkMinimalPush program 32 = true :=
    hlen ▸ checkMinimalPush_length (by omega) (by omega)
  have heval : evalOpcode env 32 program { st with pc := [] } =
      .ok { st with pc := [], stack := program :: st.stack } := by
    simp only [evalOpcode, hexec, hminimal, Bool.not_true, Bool.and_false]
    rfl
  exact evalStep_of_le_op16 hop (by decide) (by rw [hlen]; decide) heval hstk

/-- What the evaluation of a taproot output leaves: its program, over the number 1. -/
theorem evalScript_taproot (hbase : env.sigversion = .base) (hlen : program.length = 32)
    (execdata : ScriptExecutionData) :
    evalScript env [] (0x51 :: 0x20 :: program) execdata = .ok [program, [1]] := by
  have hsize : (0x51 :: 0x20 :: program).length = 34 := by
    rw [List.length_cons, List.length_cons, hlen]
  simp only [evalScript, hbase, hsize]
  rw [if_neg (by decide), if_neg (by simp [maxScriptSize]),
    evalLoop_step _ rfl (evalStep_op1 rfl rfl (by simp [maxStackSize])),
    evalLoop_step _ rfl (evalStep_push32 rfl hlen rfl (by simp [maxStackSize])),
    evalLoop_done env _ rfl]
  rfl

/-- A direct spend of a taproot output is decided by its program and, under the flag,
by its witness. -/
theorem verifyScript_taproot {flags : UInt32} (hp2sh : hasFlag flags p2sh = true)
    (hwit : hasFlag flags witness = true)
    (hprog : isWitnessProgram scriptPubKey = some (1, program)) (hlen : program.length = 32)
    (keys : PubKeyOps) (witness : List Bytes) (checker : BaseSignatureChecker) :
    verifyScript keys [] scriptPubKey witness flags checker = if castToBool program then
        if hasFlag flags taproot then
          verifyTaproot ⟨flags, .base, checker, keys⟩ witness program
        else .ok ()
      else fail .evalFalse := by
  have hscr := eq_of_isWitnessProgram_taproot hprog hlen
  have hnotp2sh : isPayToScriptHash scriptPubKey = false := by
    simp only [isPayToScriptHash, hscr, List.length_cons, hlen]
    rfl
  have hemp : ∀ env : ScriptEnv, env.sigversion = .base → evalScript env [] [] {} = .ok [] := by
    intro env hbase
    simp only [evalScript, hbase]
    rw [if_neg (by decide), if_neg (by simp [maxScriptSize])]
    rfl
  have hprogram : evalScript ⟨flags, .base, checker, keys⟩ [] scriptPubKey {} =
      .ok [program, [1]] := by
    rw [hscr]
    exact evalScript_taproot rfl hlen {}
  have hpushonly : isPushOnly [] = true := rfl
  simp only [verifyScript, hemp, hprogram, ok_bind, hpushonly, Bool.not_true, Bool.and_false,
    Bool.false_eq_true, if_false, stackSucceeds, verifyBareWitness, has, hwit, if_true,
    hprog, List.isEmpty_nil, verifyWitnessProgram, hlen, verifyP2sh, hnotp2sh, verifyClean, hp2sh]
  have hcl : (resizeStack [program, [1]]).length = 1 := rfl
  by_cases hcast : castToBool program = true
  · by_cases htap : hasFlag flags taproot = true
    · cases verifyTaproot ⟨flags, .base, checker, keys⟩ witness program with
      | error e => simp [hcast, htap]
      | ok u => simp [hcast, htap, hcl]
    · simp [hcast, htap, hcl]
  · simp [hcast]

/-- The rules for a script path: the output commits to the script, which has to succeed
if its leaf is of the version that has a meaning. -/
def TaprootScriptRules (env : ScriptEnv) (witness : List Bytes) (program control script : Bytes)
    (stack : Stack) (execdata : ScriptExecutionData) : Prop :=
  let leafVersion := control.getD 0 0 &&& taprootLeafMask
  let tapleafHash := computeTapleafHash leafVersion script
  taprootControlBaseSize ≤ control.length ∧ control.length ≤ taprootControlMaxSize ∧
    (control.length - taprootControlBaseSize) % taprootControlNodeSize = 0 ∧
    verifyTaprootCommitment env.keys control program tapleafHash = true ∧
    (leafVersion = taprootLeafTapscript →
      executeWitnessScript { env with sigversion := .tapscript } stack script
        { execdata with
          tapleafHash := some tapleafHash
          validationWeightLeft :=
            some ((serVector serBytes witness).length + validationWeightOffset) } = .ok ())

/-- The rules for spending a taproot output, on its witness without an annex: a signature
for the key of the output, or a control block and a script. -/
def TaprootRules (env : ScriptEnv) (witness : List Bytes) (program : Bytes) : Prop :=
  ∃ annex stack, takeAnnex witness.reverse = (annex, stack) ∧
    let execdata : ScriptExecutionData :=
      { annexHash := some (annex.map fun a => sha256Once (serBytes a)) }
    (∃ sig, stack = [sig] ∧
      env.checker.checkSchnorrSignature sig program .taproot execdata = some (.ok ())) ∨
    ∃ control script rest, stack = control :: script :: rest ∧
      TaprootScriptRules env witness program control script rest execdata

theorem verifyTaprootScript_eq_ok_iff
    (hup : env.has discourageUpgradableTaprootVersion = false) {witness : List Bytes}
    {control script : Bytes} {stack : Stack} {execdata : ScriptExecutionData} :
    verifyTaprootScript env witness program control script stack execdata = .ok () ↔
      TaprootScriptRules env witness program control script stack execdata := by
  unfold verifyTaprootScript TaprootScriptRules
  dsimp only
  generalize control.getD 0 0 &&& taprootLeafMask = leafVersion
  generalize computeTapleafHash leafVersion script = tapleafHash
  split_ifs with hsize hcommit hleaf hdiscourage
  · simp only [Bool.or_eq_true, decide_eq_true_eq, bne_iff_ne] at hsize
    exact iff_of_false nofun fun h => by omega
  · rw [Bool.not_eq_true'] at hcommit
    exact iff_of_false nofun fun h => by simp [hcommit] at h
  all_goals
    simp only [Bool.or_eq_true, decide_eq_true_eq, bne_iff_ne, not_or, not_lt, ne_eq,
      not_not] at hsize
    simp only [Bool.not_eq_true', Bool.not_eq_false] at hcommit
    simp only [hsize, hcommit, true_and]
  · exact ⟨fun h _ => h, fun h => h (beq_iff_eq.mp hleaf)⟩
  · exact absurd (hup.symm.trans hdiscourage) Bool.false_ne_true
  · exact ⟨fun _ h => absurd (beq_iff_eq.mpr h) hleaf, fun _ => trivial⟩

theorem verifyTaproot_eq_ok_iff (env : ScriptEnv)
    (hup : env.has discourageUpgradableTaprootVersion = false) (witness : List Bytes)
    (program : Bytes) :
    verifyTaproot env witness program = .ok () ↔ TaprootRules env witness program := by
  unfold verifyTaproot TaprootRules
  obtain ⟨annex, stack⟩ := takeAnnex witness.reverse
  simp only [Prod.mk.injEq, existsAndEq, and_true, true_and]
  match stack with
  | [] => simp [fail]
  | [sig] =>
    simp only [List.cons.injEq, and_true, existsAndEq, reduceCtorEq, and_false, false_and,
      exists_const, or_false]
    split <;> simp_all [fail]
  | control :: script :: stack => simp [verifyTaprootScript_eq_ok_iff hup]

/-- What has to hold for the flag to make no difference. -/
def TaprootKept (env : ScriptEnv) (scriptSig scriptPubKey : Bytes) (witness : List Bytes) : Prop :=
  ∀ program, isWitnessProgram scriptPubKey = some (1, program) → scriptSig = [] →
    program.length = 32 → castToBool program = true → TaprootRules env witness program

/-- Taking the flag away changes the outcome only of spends of taproot outputs that
break the rules of taproot. -/
theorem verifyScript_remove_taproot {flags : UInt32} (hp2sh : hasFlag flags p2sh = true)
    (hwit : hasFlag flags witness = true) (htap : hasFlag flags taproot = true)
    (hup : hasFlag flags discourageUpgradableTaprootVersion = false) (keys : PubKeyOps)
    (scriptSig scriptPubKey : Bytes) (witness : List Bytes) (checker : BaseSignatureChecker) :
    verifyScript keys scriptSig scriptPubKey witness flags checker =
        verifyScript keys scriptSig scriptPubKey witness (flags &&& ~~~taproot) checker ↔
      TaprootKept ⟨flags, .base, checker, keys⟩ scriptSig scriptPubKey witness := by
  have hsame := sameButTaproot_remove flags
  by_cases hother : ∀ program, isWitnessProgram scriptPubKey = some (1, program) →
      scriptSig = [] → program.length ≠ 32
  · refine iff_of_true (verifyScript_same hsame hother keys witness checker).symm ?_
    intro program hprog hsig hlen
    exact absurd hlen (hother program hprog hsig)
  · push Not at hother
    obtain ⟨program, hprog, rfl, hlen⟩ := hother
    have hrem : hasFlag (flags &&& ~~~taproot) taproot = false := by
      rw [hasFlag, UInt32.and_assoc, show ~~~taproot &&& taproot = 0 by
        decide, UInt32.and_zero]
      rfl
    rw [verifyScript_taproot hp2sh hwit hprog hlen, verifyScript_taproot
      ((hsame.hasFlag (by decide)).trans hp2sh) ((hsame.hasFlag (by decide)).trans hwit)
      hprog hlen, htap, hrem]
    have hrules := verifyTaproot_eq_ok_iff ⟨flags, .base, checker, keys⟩ hup witness program
    constructor
    · intro h program' hprog' _ _ htrue
      obtain rfl : program = program' := by simpa using hprog.symm.trans hprog'
      exact hrules.mp (by simpa [htrue] using h)
    · intro h
      cases htrue : castToBool program with
      | false => rfl
      | true => simpa using hrules.mpr (h program hprog rfl hlen htrue)

end Lithium
