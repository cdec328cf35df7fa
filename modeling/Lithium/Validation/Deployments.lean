import Lithium.Script.FlagUse
import Lithium.Validation.Disconnect

/-!
# When script rules begin to bind

Five rules for scripts come with a deployment that says from which block on they hold.
`GetBlockScriptFlags` asks for four of these deployments. It sets `TAPROOT` in every
block that is not an exception, and does not ask for the deployment that miners
signal, so spends of outputs of version 1 have to keep the rules of taproot from the
first block on.
-/

namespace Lithium
open ScriptVerify

/-- The rules for scripts that have a deployment. -/
inductive ScriptRule where
  | dersig
  | checklocktimeverify
  | checksequenceverify
  | nulldummy
  | taproot
deriving DecidableEq

namespace ScriptRule

def flag : ScriptRule → UInt32
  | dersig => ScriptVerify.dersig
  | checklocktimeverify => ScriptVerify.checklocktimeverify
  | checksequenceverify => ScriptVerify.checksequenceverify
  | nulldummy => ScriptVerify.nulldummy
  | taproot => ScriptVerify.taproot

/-- `DeploymentActiveAt` for the deployment of the rule. -/
def activeAt (params : Params) (pindex : CBlockIndex) (prev : Branch) : ScriptRule → Bool
  | dersig => deploymentActiveAt params pindex .dersig
  | checklocktimeverify => deploymentActiveAt params pindex .cltv
  | checksequenceverify => deploymentActiveAt params pindex .csv
  | nulldummy => deploymentActiveAt params pindex .segwit
  | taproot => deploymentPosActiveAt params prev .taproot

end ScriptRule

/-! ### The flags of a block -/

/-- The flags of a block that is not an exception, from the four deployments. -/
def scriptFlags (dersig cltv csv segwit : Bool) : UInt32 :=
  let flags := p2sh ||| witness ||| taproot
  let flags := if dersig then flags ||| ScriptVerify.dersig else flags
  let flags := if cltv then flags ||| checklocktimeverify else flags
  let flags := if csv then flags ||| checksequenceverify else flags
  if segwit then flags ||| nulldummy else flags

section
variable {params : Params} {pindex : CBlockIndex}
  (hexcept : params.scriptFlagExceptions.lookup pindex.phashBlock = none)

include hexcept

theorem getBlockScriptFlags_eq : getBlockScriptFlags params pindex =
    scriptFlags (deploymentActiveAt params pindex .dersig) (deploymentActiveAt params pindex .cltv)
      (deploymentActiveAt params pindex .csv) (deploymentActiveAt params pindex .segwit) := by
  rw [getBlockScriptFlags, hexcept]
  rfl

theorem getBlockScriptFlags_sets : hasFlag (getBlockScriptFlags params pindex) p2sh ∧
    hasFlag (getBlockScriptFlags params pindex) witness ∧
    hasFlag (getBlockScriptFlags params pindex) taproot ∧
    hasFlag (getBlockScriptFlags params pindex) discourageUpgradableTaprootVersion = false := by
  have hall : ∀ dersig cltv csv segwit, hasFlag (scriptFlags dersig cltv csv segwit) p2sh ∧
      hasFlag (scriptFlags dersig cltv csv segwit) witness ∧
      hasFlag (scriptFlags dersig cltv csv segwit) ScriptVerify.taproot ∧
      hasFlag (scriptFlags dersig cltv csv segwit) discourageUpgradableTaprootVersion = false := by
    decide
  rw [getBlockScriptFlags_eq hexcept]
  exact hall _ _ _ _

/-- The flags of the other rules are not set before their deployment. -/
theorem getBlockScriptFlags_remove {rule : ScriptRule} (hrule : rule ≠ .taproot) {prev : Branch}
    (hact : rule.activeAt params pindex prev = false) :
    getBlockScriptFlags params pindex &&& ~~~rule.flag = getBlockScriptFlags params pindex := by
  rw [getBlockScriptFlags_eq hexcept]
  cases rule with
  | dersig =>
    have hall : ∀ cltv csv segwit, scriptFlags false cltv csv segwit &&& ~~~ScriptVerify.dersig =
        scriptFlags false cltv csv segwit := by decide
    rw [show deploymentActiveAt params pindex .dersig = false from hact]
    exact hall _ _ _
  | checklocktimeverify =>
    have hall : ∀ dersig csv segwit, scriptFlags dersig false csv segwit &&&
        ~~~ScriptVerify.checklocktimeverify = scriptFlags dersig false csv segwit := by decide
    rw [show deploymentActiveAt params pindex .cltv = false from hact]
    exact hall _ _ _
  | checksequenceverify =>
    have hall : ∀ dersig cltv segwit, scriptFlags dersig cltv false segwit &&&
        ~~~ScriptVerify.checksequenceverify = scriptFlags dersig cltv false segwit := by decide
    rw [show deploymentActiveAt params pindex .csv = false from hact]
    exact hall _ _ _
  | nulldummy =>
    have hall : ∀ dersig cltv csv, scriptFlags dersig cltv csv false &&&
        ~~~ScriptVerify.nulldummy = scriptFlags dersig cltv csv false := by decide
    rw [show deploymentActiveAt params pindex .segwit = false from hact]
    exact hall _ _ _
  | taproot => exact absurd rfl hrule

end

/-! ### Verification inside `ConnectBlock` -/

/-- The input spends no taproot output directly, or keeps the rules for it. -/
def CScriptCheck.KeepsTaproot (keys : PubKeyOps) (check : CScriptCheck) (flags : UInt32) : Prop :=
  TaprootKept ⟨flags, .base, (TransactionSignatureChecker.mk keys check.txTo check.nIn
      check.txOut.nValue check.spentOutputs).toBase, keys⟩
    check.txin.scriptSig.bytes check.txOut.scriptPubKey.bytes check.txin.scriptWitness.stack

namespace ConnectContext

/-- The scripts of a block, if they are verified at all, are verified as they are without
the flags of rules whose deployment is not active; `spent` are the outputs that a
transaction spends. -/
def BindsNoRuleEarly (ctx : ConnectContext) (block : CBlock)
    (spent : CTransaction → List CTxOut) : Prop :=
  ctx.fScriptChecks = true → ∀ rule : ScriptRule,
    rule.activeAt ctx.env.consensus ctx.pindex ctx.prev = false →
    ∀ tx ∈ block.vtx, tx.isCoinBase = false → ∀ check ∈ scriptChecks tx (spent tx),
      check.run ctx.keys ctx.flags = check.run ctx.keys (ctx.flags &&& ~~~rule.flag)

/-- Only taproot can bind early, and does so exactly for spends that break its rules. -/
theorem bindsNoRuleEarly_iff {ctx : ConnectContext}
    (hexcept : ctx.env.consensus.scriptFlagExceptions.lookup ctx.pindex.phashBlock = none)
    (block : CBlock) (spent : CTransaction → List CTxOut) : ctx.BindsNoRuleEarly block spent ↔
      ctx.fScriptChecks = false ∨
        ScriptRule.taproot.activeAt ctx.env.consensus ctx.pindex ctx.prev = true ∨
        ∀ tx ∈ block.vtx, tx.isCoinBase = false → ∀ check ∈ scriptChecks tx (spent tx),
          check.KeepsTaproot ctx.keys ctx.flags := by
  obtain ⟨hp2sh, hwit, htap, hup⟩ := getBlockScriptFlags_sets hexcept
  have hremove : ∀ check : CScriptCheck, check.run ctx.keys ctx.flags =
      check.run ctx.keys (ctx.flags &&& ~~~ScriptVerify.taproot) ↔
        check.KeepsTaproot ctx.keys ctx.flags :=
    fun check => verifyScript_remove_taproot hp2sh hwit htap hup ctx.keys _ _ _ _
  constructor
  · intro h
    by_cases hcks : ctx.fScriptChecks = true
    case neg => exact .inl (Bool.not_eq_true _ ▸ hcks)
    refine .inr ?_
    by_cases hact : ScriptRule.taproot.activeAt ctx.env.consensus ctx.pindex ctx.prev = true
    · exact .inl hact
    · refine .inr fun tx htx hcb check hck => (hremove check).mp ?_
      exact h hcks .taproot (Bool.not_eq_true _ ▸ hact) tx htx hcb check hck
  · intro h hcks rule hinact tx htx hcb check hck
    by_cases hrule : rule = .taproot
    · subst hrule
      rcases h with hunchecked | hact | hkeeps
      · rw [hunchecked] at hcks
        cases hcks
      · rw [hact] at hinact
        cases hinact
      · exact (hremove check).mpr (hkeeps tx htx hcb check hck)
    · have hflags : ctx.flags &&& ~~~rule.flag = ctx.flags :=
        getBlockScriptFlags_remove hexcept hrule hinact
      rw [hflags]

end ConnectContext

/-! ### A block before the deployment -/

namespace EarlyTaproot
open SmallChain

/-- Version 1 with 32 bytes, none of them zero. -/
def scriptPubKey : CScript := ⟨0x51 :: 0x20 :: List.replicate 32 1, by decide⟩

def taprootCoin : Coin := ⟨⟨1000000000, scriptPubKey⟩, false, 1⟩

/-- A spend of the output with an empty witness. -/
def spend : CTransaction := spending firstOutpoint [⟨600000000, anyone⟩] (by decide)

def block : CBlock := { SmallChain.block with vtx := [SmallChain.coinbase, spend] }

/-- The block at height 2 of the main network, before its proof of work is sought. -/
def ctx : ConnectContext where
  env := mainEnv
  keys := noKeys
  fJustCheck := true
  fScriptChecks := true
  parallelScriptChecks := false
  pindex := { CBlockIndex.ofHeader block.getHash block.toCBlockHeader with nHeight := 2 }
  prev := [pprev]

def view : CCoinsViewCache CCoinsViewDB :=
  (((CCoinsViewCache.new emptyDb).addCoin firstOutpoint taprootCoin false).2).setBestBlock
    (uint256S 1)

def check : CScriptCheck :=
  ⟨spend, 0, ⟨firstOutpoint, .empty, sequenceFinal, .empty⟩, taprootCoin.out, [taprootCoin.out]⟩

end EarlyTaproot

open EarlyTaproot in
/-- The block is rejected for its witness, although the deployment is not active. -/
theorem ConnectContext.taproot_binds_early :
    ScriptRule.taproot.activeAt ctx.env.consensus ctx.pindex ctx.prev = false ∧
      ¬ ctx.BindsNoRuleEarly block (fun _ => [taprootCoin.out]) ∧
      ((ctx.connectBlock block).runOn CCoinsViewDB.view view).1 = .error (.rejected
        (rejectBlock
          "non-mandatory-script-verify-flag (Witness program was passed an empty witness)")) := by
  have hinact : ScriptRule.taproot.activeAt ctx.env.consensus ctx.pindex ctx.prev = false := by
    decide +kernel
  refine ⟨hinact, fun h => ?_, by decide +kernel⟩
  have hsame := h rfl .taproot hinact spend (.tail _ (.head _)) rfl check (.head _)
  exact absurd hsame (by decide +kernel)

open SmallChain in
/-- A spend of an ordinary output is not affected. -/
theorem ConnectContext.bindsNoRuleEarly_iff_ordinary : EarlyTaproot.ctx.BindsNoRuleEarly
      { EarlyTaproot.block with vtx := [SmallChain.coinbase, first] }
      (fun _ => [firstCoin.out]) := by
  refine (bindsNoRuleEarly_iff rfl _ _).mpr (.inr (.inr ?_))
  intro tx htx hcb check hck program hprog
  rcases List.mem_cons.mp htx with rfl | htx
  · exact absurd hcb (by decide)
  · rw [List.mem_singleton.mp htx] at hck
    have hnone : isWitnessProgram firstCoin.out.scriptPubKey.bytes = none := by decide
    rw [List.mem_singleton.mp hck] at hprog
    exact absurd (hnone.symm.trans hprog) (Option.some_ne_none _).symm

end Lithium
