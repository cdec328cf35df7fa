import Lithium.Consensus.TxVerify

/-!
# Lock times of scripts and blocks

`OP_CHECKLOCKTIMEVERIFY` and `OP_CHECKSEQUENCEVERIFY` compare a number with a field of
the transaction, and a block may only contain a transaction if these fields allow
it: `IsFinalTx` reads the lock time and `SequenceLocks` the sequence numbers of the
inputs. Together they bind the block in which the output is spent.
-/

namespace Lithium
open Lib ScriptVerify TransactionSignatureChecker
variable {txin : CTxIn} {branch : Branch} {nCoinHeight nMinHeight nMinTime : Int}
variable {st' : EvalState} {nMinHeight' nMinTime' : Int}

def opChecklocktimeverify : Nat := 0xb1
def opChecksequenceverify : Nat := 0xb2

/-! ### Masks -/

/-- The bits of a sequence number that are compared: the type, and a value of 16 bits. -/
theorem and_lockTimeMask (x : Nat) : x &&& (sequenceLocktimeTypeFlag ||| sequenceLocktimeMask) =
      (x &&& sequenceLocktimeTypeFlag) + (x &&& sequenceLocktimeMask) := by
  have hval : x &&& sequenceLocktimeMask < 2 ^ 22 := Nat.and_lt_two_pow x (by decide)
  rw [Nat.and_or_distrib_left, sequenceLocktimeTypeFlag, Nat.and_two_pow, Nat.mul_comm,
    ← Nat.two_pow_add_eq_or_of_lt hval]

theorem and_typeFlag (x : Nat) : x &&& sequenceLocktimeTypeFlag = 0 ∨
      x &&& sequenceLocktimeTypeFlag = sequenceLocktimeTypeFlag := by
  rw [sequenceLocktimeTypeFlag, Nat.and_two_pow]
  cases x.testBit 22
  · exact .inl (Nat.zero_mul _)
  · exact .inr (Nat.one_mul _)

theorem and_sequenceLocktimeMask_lt (x : Nat) :
    x &&& sequenceLocktimeMask < sequenceLocktimeTypeFlag := by
  have hval : x &&& sequenceLocktimeMask < 2 ^ 16 := Nat.and_lt_two_pow x (by decide)
  exact hval.trans (by decide)

/-! ### The opcodes -/

/-- An opcode is executed with a number of at most five bytes on top of the stack, and
the script goes on. The flag is that of the opcode; without it it is a `NOP`. -/
structure LockOpSucceeds (env : ScriptEnv) (flag : UInt32) (opcode : Nat) (st : EvalState)
    (n : Int) : Prop where
  enabled : env.has flag = true
  executed : st.vfExec.allTrue = true
  fetched : ∃ data rest, getScriptOp st.pc = some (opcode, data, rest)
  operand : ∃ vch stack, st.stack = vch :: stack ∧ env.scriptNum vch 5 = .ok n
  succeeds : ∃ st', evalStep env st = .ok st'

variable {env : ScriptEnv} {flag : UInt32} {st : EvalState} {n : Int} {test : Int → Bool}

theorem evalLockTime_ok {vch : Bytes} {stack : Stack}
    (hflag : env.has flag = true) (hstk : st.stack = vch :: stack)
    (hn : env.scriptNum vch 5 = .ok n) (h : evalLockTime env flag test st = .ok st') :
    0 ≤ n ∧ test n = true := by
  rw [evalLockTime, hflag, Bool.not_true, if_neg Bool.false_ne_true, hstk] at h
  dsimp only at h
  rw [hn, ok_bind] at h
  by_cases hneg : n < 0
  · rw [if_pos hneg] at h
    cases h
  · rw [if_neg hneg] at h
    cases hsat : test n with
    | false =>
      rw [hsat, Bool.not_false, if_pos rfl] at h
      cases h
    | true => exact ⟨by omega, rfl⟩

/-- What comes before the `switch` of a successful step changes neither the stack nor
the conditions. -/
theorem evalOpcode_of_evalStep {opcode : Nat} {data rest : Bytes}
    (hop : getScriptOp st.pc = some (opcode, data, rest)) (h : evalStep env st = .ok st') :
    ∃ st₁ st₂, evalOpcode env opcode data st₁ = .ok st₂ ∧ st₁.stack = st.stack ∧
      st₁.vfExec = st.vfExec := by
  rw [evalStep, hop] at h
  dsimp only at h
  generalize (if env.preTapscript && decide (Opcode.op16 < opcode) then st.nOpCount + 1
    else st.nOpCount) = nOpCount at h
  by_cases hsize : maxScriptElementSize < data.length
  · rw [if_pos hsize] at h
    cases h
  rw [if_neg hsize] at h
  by_cases hcnt : (env.preTapscript && decide (Opcode.op16 < opcode) &&
      decide (maxOpsPerScript < nOpCount)) = true
  · rw [if_pos hcnt] at h
    cases h
  rw [if_neg hcnt] at h
  by_cases hdisabled : opcode ∈ disabledOpcodes
  · rw [if_pos hdisabled] at h
    cases h
  split_ifs at h
  · cases h
  · obtain ⟨st₂, hopcode, -⟩ := bind_eq_ok.mp h
    exact ⟨_, st₂, hopcode, rfl, rfl⟩

theorem LockOpSucceeds.passes {opcode : Nat} {i : Instruction}
    (h : LockOpSucceeds env flag opcode st n) (hi : instruction opcode = some i)
    (hpush : ¬ opcode ≤ Opcode.opPushdata4)
    (heval : ∀ st, evalInstruction env true st i = evalLockTime env flag test st) :
    0 ≤ n ∧ test n = true := by
  obtain ⟨st', hstep⟩ := h.succeeds
  obtain ⟨data, rest, hop⟩ := h.fetched
  obtain ⟨vch, stack, hstk, hn⟩ := h.operand
  obtain ⟨st₁, st₂, hopcode, hstk₁, hexec₁⟩ := evalOpcode_of_evalStep hop hstep
  rw [evalOpcode, hexec₁, h.executed, Bool.true_and, decide_eq_false hpush,
    if_neg Bool.false_ne_true, Bool.true_or, if_pos rfl, hi] at hopcode
  dsimp only at hopcode
  rw [heval] at hopcode
  exact evalLockTime_ok h.enabled (hstk₁.trans hstk) hn hopcode

/-! ### Lock times of transactions -/

variable {c : TransactionSignatureChecker}

theorem LockOpSucceeds.checkLockTime (henv : env.checker = c.toBase)
    (h : LockOpSucceeds env checklocktimeverify opChecklocktimeverify st n) :
    0 ≤ n ∧ c.checkLockTime n = true := by
  have hck : env.checker.checkLockTime = c.checkLockTime := by
    rw [henv, toBase]
  rw [← hck]
  exact h.passes (i := .checklocktimeverify) (by decide) (by decide) fun st => by
    rw [evalInstruction]

/-- The lock time of the transaction has the type of the operand and is not smaller. -/
theorem checkLockTime_spec (h : c.checkLockTime n = true) :
    n ≤ c.txTo.nLockTime.toNat ∧ c.nSequence ≠ sequenceFinal ∧
      ((c.txTo.nLockTime.toNat : Int) < locktimeThreshold ↔ n < locktimeThreshold) := by
  rw [checkLockTime] at h
  simp only [Bool.and_eq_true, Bool.or_eq_true, decide_eq_true_eq, bne_iff_ne] at h
  obtain ⟨⟨htype, hle⟩, hseq⟩ := h
  refine ⟨hle, hseq, ?_⟩
  rcases htype with ⟨h1, h2⟩ | ⟨h1, h2⟩
  · exact ⟨fun _ => h2, fun _ => h1⟩
  · exact ⟨fun h => absurd h (by omega), fun h => absurd h (by omega)⟩

/-- A transaction with an input that is not final waits for its lock time. -/
theorem isFinalTx_spec {tx : CTransaction} {nIn : Nat} {height time : Int}
    (hin : tx.vin[nIn]? = some txin) (hseq : txin.nSequence ≠ sequenceFinal)
    (h : isFinalTx tx height time = true) : tx.nLockTime.toNat = 0 ∨ (tx.nLockTime.toNat : Int) <
      if (tx.nLockTime.toNat : Int) < locktimeThreshold then height else time := by
  rw [isFinalTx] at h
  by_cases hzero : (tx.nLockTime.toNat : Int) = 0
  · exact .inl (by omega)
  · rw [if_neg hzero] at h
    by_cases hlt : (tx.nLockTime.toNat : Int) <
        if (tx.nLockTime.toNat : Int) < locktimeThreshold then height else time
    · exact .inr hlt
    · rw [if_neg hlt, List.all_eq_true] at h
      exact absurd (beq_iff_eq.mp (h txin (List.mem_of_getElem? hin))) hseq

/-! ### Sequence locks -/

theorem LockOpSucceeds.checkSequence (henv : env.checker = c.toBase)
    (h : LockOpSucceeds env checksequenceverify opChecksequenceverify st n)
    (hdis : n.toNat &&& sequenceLocktimeDisableFlag = 0) : c.checkSequence n = true := by
  have hck : env.checker.checkSequence = c.checkSequence := by
    rw [henv, toBase]
  have heval : ∀ st, evalInstruction env true st .checksequenceverify =
      evalLockTime env checksequenceverify (fun n =>
        n.toNat &&& sequenceLocktimeDisableFlag != 0 || env.checker.checkSequence n) st := by
    intro st
    rw [evalInstruction]
  have hpass := (h.passes (by decide) (by decide) heval).2
  rw [hdis, hck] at hpass
  exact hpass

/-- The sequence number of the input has the type of the operand, and its value is
not smaller. -/
theorem checkSequence_spec (h : c.checkSequence n = true) : 2 ≤ c.txTo.nVersion.toUInt32.toNat ∧
      c.nSequence.toNat &&& sequenceLocktimeDisableFlag = 0 ∧
      c.nSequence.toNat &&& sequenceLocktimeTypeFlag = n.toNat &&& sequenceLocktimeTypeFlag ∧
      n.toNat &&& sequenceLocktimeMask ≤ c.nSequence.toNat &&& sequenceLocktimeMask := by
  rw [checkSequence] at h
  simp only [Bool.and_eq_true, Bool.or_eq_true, decide_eq_true_eq, beq_iff_eq,
    and_lockTimeMask] at h
  obtain ⟨⟨⟨hver, hdis⟩, htype⟩, hle⟩ := h
  have hval := and_sequenceLocktimeMask_lt n.toNat
  have hval' := and_sequenceLocktimeMask_lt c.nSequence.toNat
  rcases and_typeFlag n.toNat with hn | hn <;>
    rcases and_typeFlag c.nSequence.toNat with hc | hc <;>
    · rw [hn, hc] at htype hle ⊢
      omega

/-- What one input demands of the block. -/
def SequenceLockMet (branch : Branch) (txin : CTxIn)
    (nCoinHeight nMinHeight nMinTime : Int) : Prop :=
  txin.nSequence.toNat &&& sequenceLocktimeDisableFlag = 0 →
    (txin.nSequence.toNat &&& sequenceLocktimeTypeFlag = 0 →
      nCoinHeight + (txin.nSequence.toNat &&& sequenceLocktimeMask : Nat) - 1 ≤ nMinHeight) ∧
    (txin.nSequence.toNat &&& sequenceLocktimeTypeFlag ≠ 0 →
      getMedianTimePast (ancestorBranch branch (max (nCoinHeight - 1) 0)) +
        (txin.nSequence.toNat &&& sequenceLocktimeMask : Nat) * 2 ^
          sequenceLocktimeGranularity - 1 ≤
          nMinTime)

/-- One turn of the loop raises the bounds to what its input demands. -/
theorem sequenceLocksLoop_cons {rest : List (CTxIn × Int)} {r : Int × Int}
    (h : sequenceLocksLoop branch ((txin, nCoinHeight) :: rest) (nMinHeight, nMinTime) = some r) :
    ∃ nMinHeight' nMinTime', nMinHeight ≤ nMinHeight' ∧ nMinTime ≤ nMinTime' ∧
      SequenceLockMet branch txin nCoinHeight nMinHeight' nMinTime' ∧
      sequenceLocksLoop branch rest (nMinHeight', nMinTime') = some r := by
  rw [sequenceLocksLoop] at h
  by_cases hdis : txin.nSequence.toNat &&& sequenceLocktimeDisableFlag = 0
  · rw [hdis, bne_self_eq_false, if_neg Bool.false_ne_true] at h
    by_cases htype : txin.nSequence.toNat &&& sequenceLocktimeTypeFlag = 0
    · rw [htype, bne_self_eq_false, if_neg Bool.false_ne_true] at h
      exact ⟨_, _, le_max_left _ _, le_rfl,
        fun _ => ⟨fun _ => le_max_right _ _, fun hne => absurd htype hne⟩, h⟩
    · rw [if_pos (bne_iff_ne.mpr htype)] at h
      split at h
      · cases h
      · exact ⟨_, _, le_rfl, le_max_left _ _,
          fun _ => ⟨fun heq => absurd heq htype, fun _ => le_max_right _ _⟩, h⟩
  · rw [if_pos (bne_iff_ne.mpr hdis)] at h
    exact ⟨_, _, le_rfl, le_rfl, fun heq => absurd heq hdis, h⟩

theorem SequenceLockMet.mono (h : SequenceLockMet branch txin nCoinHeight nMinHeight nMinTime)
    (hht : nMinHeight ≤ nMinHeight') (htime : nMinTime ≤ nMinTime') :
    SequenceLockMet branch txin nCoinHeight nMinHeight' nMinTime' :=
  fun hdis => ⟨fun htype => ((h hdis).1 htype).trans hht,
    fun htype => ((h hdis).2 htype).trans htime⟩

/-- The loop ends with bounds that meet the demands of all inputs. -/
theorem sequenceLocksLoop_met {inputs : List (CTxIn × Int)}
    (h : sequenceLocksLoop branch inputs (nMinHeight, nMinTime) = some (nMinHeight', nMinTime')) :
    nMinHeight ≤ nMinHeight' ∧ nMinTime ≤ nMinTime' ∧
      ∀ p ∈ inputs, SequenceLockMet branch p.1 p.2 nMinHeight' nMinTime' := by
  induction inputs generalizing nMinHeight nMinTime with
  | nil =>
    obtain ⟨rfl, rfl⟩ := Prod.mk.inj (Option.some.inj h)
    exact ⟨le_rfl, le_rfl, by simp⟩
  | cons p rest ih =>
    obtain ⟨h₁, t₁, hht, htime, hmet, hrest⟩ := sequenceLocksLoop_cons h
    obtain ⟨hht', htime', hall⟩ := ih hrest
    refine ⟨hht.trans hht', htime.trans htime', ?_⟩
    rw [List.forall_mem_cons]
    exact ⟨hmet.mono hht' htime', hall⟩

/-- `SequenceLocks` accepts when every input is old enough. -/
theorem sequenceLocks_met {ε : Type} {tx : CTransaction} {prevHeights : List Int}
    {pindex : CBlockIndex} {prev : Branch} {nIn : Nat} (hver : 2 ≤ tx.nVersion.toUInt32.toNat)
    (hin : tx.vin[nIn]? = some txin) (hcoin : prevHeights[nIn]? = some nCoinHeight)
    (h : sequenceLocks tx true prevHeights pindex prev = (pure true : CoinsProgram ε Bool)) :
    SequenceLockMet (pindex :: prev) txin nCoinHeight (pindex.nHeight - 1)
      (getMedianTimePast prev - 1) := by
  rw [sequenceLocks, calculateSequenceLocks, decide_eq_true hver, Bool.and_self,
    if_pos rfl] at h
  split at h
  · cases h
  · rename_i nMinHeight nMinTime hlocks
    have hacc : (!(decide (nMinHeight ≥ pindex.nHeight) ||
        decide (nMinTime ≥ getMedianTimePast prev))) = true := Except.ok.inj (Program.done.inj h)
    rw [Bool.not_eq_true', Bool.or_eq_false_iff, decide_eq_false_iff_not,
      decide_eq_false_iff_not] at hacc
    have hmem : (txin, nCoinHeight) ∈ tx.vin.zip prevHeights :=
      List.mem_of_getElem? (List.getElem?_zip_eq_some.mpr ⟨hin, hcoin⟩)
    exact ((sequenceLocksLoop_met hlocks).2.2 _ hmem).mono (by omega) (by omega)

/-! ### Opcodes and blocks together -/

theorem TransactionSignatureChecker.nSequence_eq (hin : c.txTo.vin[c.nIn]? = some txin) :
    c.nSequence = txin.nSequence := by
  rw [nSequence, hin, Option.map_some, Option.getD_some]

section
variable (henv : env.checker = c.toBase) (hin : c.txTo.vin[c.nIn]? = some txin)

include henv hin

/-- A transaction whose script compares `n` with its lock time is not in a block before
height or time `n`. A lock time of zero is none at all, not even in a block of height
zero. -/
theorem LockOpSucceeds.height_or_time {height time : Int}
    (h : LockOpSucceeds env checklocktimeverify opChecklocktimeverify st n)
    (hfin : isFinalTx c.txTo height time = true) :
    (n < locktimeThreshold → 0 < height ∨ n ≠ 0 → n < height) ∧
      (locktimeThreshold ≤ n → n < time) := by
  obtain ⟨hnn, hck⟩ := h.checkLockTime henv
  obtain ⟨hle, hseq, htype⟩ := checkLockTime_spec hck
  rw [c.nSequence_eq hin] at hseq
  have hthr : (0 : Int) < locktimeThreshold := by decide
  rcases isFinalTx_spec hin hseq hfin with hzero | hlt
  · exact ⟨by omega, by omega⟩
  · refine ⟨fun hn _ => ?_, fun hn => ?_⟩
    · rw [if_pos (htype.mpr hn)] at hlt
      omega
    · rw [if_neg (fun h => absurd (htype.mp h) (by omega))] at hlt
      omega

end

theorem timelocks_bind_block (ε : Type) (c : TransactionSignatureChecker) (txin : CTxIn)
    (hin : c.txTo.vin[c.nIn]? = some txin) (env : ScriptEnv) (henv : env.checker = c.toBase)
    (st : EvalState) (n : Int) :
    (∀ height time : Int, LockOpSucceeds env checklocktimeverify opChecklocktimeverify st n →
      isFinalTx c.txTo height time = true →
      (n < locktimeThreshold → 0 < height ∨ n ≠ 0 → n < height) ∧
        (locktimeThreshold ≤ n → n < time)) ∧
    (∀ (prevHeights : List Int) (pindex : CBlockIndex) (prev : Branch) (nCoinHeight : Int),
      LockOpSucceeds env checksequenceverify opChecksequenceverify st n →
      n.toNat &&& sequenceLocktimeDisableFlag = 0 → prevHeights[c.nIn]? = some nCoinHeight →
      sequenceLocks c.txTo true prevHeights pindex prev = (pure true : CoinsProgram ε Bool) →
      (n.toNat &&& sequenceLocktimeTypeFlag = 0 →
        nCoinHeight + (n.toNat &&& sequenceLocktimeMask : Nat) ≤ pindex.nHeight) ∧
      (n.toNat &&& sequenceLocktimeTypeFlag ≠ 0 →
        getMedianTimePast (ancestorBranch (pindex :: prev) (max (nCoinHeight - 1) 0)) +
          (n.toNat &&& sequenceLocktimeMask : Nat) * 512 ≤ getMedianTimePast prev)) := by
  refine ⟨fun _ _ h hfin => h.height_or_time henv hin hfin, ?_⟩
  -- the input is not in a block that is too near to the coin
  intro prevHeights pindex prev nCoinHeight h hdis hcoin hlocks
  obtain ⟨hver, hdis', htype, hval⟩ := checkSequence_spec (h.checkSequence henv hdis)
  rw [c.nSequence_eq hin] at hdis' htype hval
  obtain ⟨hht, htime⟩ := sequenceLocks_met hver hin hcoin hlocks hdis'
  rw [htype] at hht htime
  refine ⟨fun hn => ?_, fun hn => ?_⟩
  · have := hht hn
    omega
  · have := htime hn
    have hgranularity : (2 : Int) ^ sequenceLocktimeGranularity = 512 := by decide
    rw [hgranularity] at this
    omega

namespace TimelockedInput

variable (nLockTime nSequence : UInt32)

def tx : CTransaction where
  nVersion := 2
  vin := [⟨⟨uint256S 1, 0⟩, .empty, nSequence, .empty⟩]
  vout := []
  nLockTime := nLockTime
  vin_lt := by simp
  vout_lt := by decide

def checker : TransactionSignatureChecker where
  keys := ⟨fun _ _ _ => false, fun _ => false, fun _ _ _ => false, fun _ _ _ _ => false⟩
  txTo := tx nLockTime nSequence
  nIn := 0
  amount := 0
  spentOutputs := []

def scriptEnv : ScriptEnv where
  flags := checklocktimeverify ||| checksequenceverify
  sigversion := .base
  checker := (checker nLockTime nSequence).toBase
  keys := (checker nLockTime nSequence).keys

/-- An opcode is next and the number is on top of the stack. -/
def state (opcode : UInt8) (n : Int) : EvalState where
  pc := [opcode]
  pbegincodehash := [opcode]
  stack := [CScriptNum.serialize n]
  altstack := []
  vfExec := .new
  nOpCount := 0
  opcodePos := 0
  execdata := {}

/-- A block every ten minutes. -/
def block (height : Nat) : CBlockIndex :=
  { CBlockIndex.ofHeader (uint256S height)
    ⟨⟨1, .zero, .zero, .ofNat (600 * height), 0, 0⟩, none⟩ with
    nHeight := height }

def below : Nat → Branch
  | 0 => []
  | height + 1 => block height :: below height

end TimelockedInput

open TimelockedInput in
/-- Operands that are heights and operands that are times. The coin is at height 5, its
spender at height 15. -/
theorem timelocks_bind_block_fifteen : ((100 : Int) < 101 ∧ (500000100 : Int) < 500000101) ∧
      (5 : Int) + 10 ≤ (block 15).nHeight ∧
      getMedianTimePast (ancestorBranch (below 16) 4) + 3 * 512 ≤ getMedianTimePast (below 15) := by
  have hht := (timelocks_bind_block TxInvalid (checker 100 10) _ rfl (scriptEnv 100 10) rfl
    (state 0xb1 100) 100).1 101 0
      ⟨rfl, rfl, ⟨[], [], by decide⟩, ⟨_, _, rfl, by decide⟩, ⟨_, rfl⟩⟩ (by decide)
  have htime := (timelocks_bind_block TxInvalid (checker 500000100 10) _ rfl
    (scriptEnv 500000100 10) rfl (state 0xb1 500000100) 500000100).1 15 500000101
      ⟨rfl, rfl, ⟨[], [], by decide⟩, ⟨_, _, rfl, by decide⟩, ⟨_, rfl⟩⟩ (by decide)
  have hbs := (timelocks_bind_block TxInvalid (checker 0 10) _ rfl (scriptEnv 0 10) rfl
    (state 0xb2 10) 10).2 [5] (block 15) (below 15) 5
      ⟨rfl, rfl, ⟨[], [], by decide⟩, ⟨_, _, rfl, by decide⟩, ⟨_, rfl⟩⟩ (by decide) rfl rfl
  have hseconds := (timelocks_bind_block TxInvalid (checker 0 0x400003) _ rfl
    (scriptEnv 0 0x400003) rfl (state 0xb2 0x400003) 0x400003).2 [5] (block 15) (below 15) 5
      ⟨rfl, rfl, ⟨[], [], by decide⟩, ⟨_, _, rfl, by decide⟩, ⟨_, rfl⟩⟩ (by decide) rfl rfl
  exact ⟨⟨hht.1 (by decide) (by decide), htime.2 (by decide)⟩, hbs.1 (by decide),
    hseconds.2 (by decide)⟩

open TimelockedInput in
/-- With a lock time of zero a transaction is final in a block of height zero. -/
theorem checklocktimeverify_zero_at_genesis :
    LockOpSucceeds (scriptEnv 0 10) checklocktimeverify opChecklocktimeverify (state 0xb1 0) 0 ∧
      isFinalTx (checker 0 10).txTo 0 0 = true ∧ (0 : Int) < locktimeThreshold ∧ ¬ (0 : Int) < 0 :=
  ⟨⟨rfl, rfl, ⟨[], [], by decide⟩, ⟨_, _, rfl, by decide⟩, ⟨_, rfl⟩⟩, by decide, by decide,
    by decide⟩

end Lithium
