import Lithium.Consensus.TxVerify
import Lithium.Undo
import Lithium.Validation.Checks

/-!
# Connecting and disconnecting blocks

`ConnectBlock` and `DisconnectBlock` of `validation.cpp`, as programs on a coins
cache. Connecting a block checks what only the unspent coins can tell, spends
the inputs of its transactions and adds their outputs; the coins it spent are
its undo data. Disconnecting takes the outputs out again and puts the coins of
the undo data back.

The caches of verified scripts and signatures are left out, and reading and
writing undo data is left to the caller. Script checks are either run at once or
collected and run at the end, as the node has threads for them or not.
-/

namespace Lithium
open Lib ScriptVerify CoinsProgram Program UInt32

variable {ε : Type}

/-! ### Subsidy -/

def getBlockSubsidy (nHeight : Int) (params : Params) : Int64 :=
  let coin : Int64 := 100000000
  let cent : Int64 := 1000000
  if nHeight = 0 then 5 * coin
  else if nHeight < params.nSubsidyLadderActivationHeight then 50 * coin
  else if nHeight < 1999 then 48 * cent
  else if nHeight < 175000 then 48 * coin
  else if nHeight < 350000 then 24 * coin
  else if nHeight < 525000 then 12 * coin
  else if nHeight < 650000 then 6 * coin
  else if nHeight < 800000 then 3 * coin
  else if nHeight < 975000 then 150 * cent
  else 1 * coin

/-! ### Rules in force -/

/-- `DeploymentActiveAt` for the rules with a fixed height. -/
def deploymentActiveAt (params : Params) (pindex : CBlockIndex) (dep : BuriedDeployment) : Bool :=
  decide (params.deploymentHeight dep ≤ pindex.nHeight)

/-- `DeploymentActiveAt` for the rules with signalling; the branch starts with the
predecessor of the block. -/
def deploymentPosActiveAt (params : Params) (prev : Branch) (dep : DeploymentPos) : Bool :=
  decide (versionBitsState params prev dep = .active)

def getBlockScriptFlags (params : Params) (pindex : CBlockIndex) : UInt32 :=
  let flags := (params.scriptFlagExceptions.lookup pindex.phashBlock).getD
    (p2sh ||| witness ||| taproot)
  let flags := if deploymentActiveAt params pindex .dersig then flags ||| dersig else flags
  let flags :=
    if deploymentActiveAt params pindex .cltv then flags ||| checklocktimeverify
    else flags
  let flags :=
    if deploymentActiveAt params pindex .csv then flags ||| checksequenceverify
    else flags
  if deploymentActiveAt params pindex .segwit then flags ||| nulldummy else flags

def isBIP30Repeat (pindex : CBlockIndex) : Bool :=
  [((79927 : Int), uint256S 0xb61d8edfa49f0fca588ab9da6023a2a2636ffed24306402a95c17a3b11f03905),
    (79948, uint256S 0x5d08876c3d9e2169643fabc22c1b9ad99e49892db3649bfe97a8fb68a7736675),
    (80094, uint256S 0xbeb6bcf9e7be6ecc53951ff6a3672dc4f828581f6dd90d7c7a0a6ee013ef94f0),
    (90728, uint256S 0xec985c67a6b5e1c1d39b03eb6149beb09b18f30e979582b5e703d71f661033b7)].any
      fun p => pindex.nHeight == p.1 && pindex.phashBlock == p.2

def isBIP30Unspendable (pindex : CBlockIndex) : Bool :=
  [((79922 : Int), uint256S 0x4002f15216919c145ff66c5b5ec02cda98b70b8f5f675171605aceafb18f83cb),
    (79942, uint256S 0xe9be258745c57973d3d896e2a7b3004925b4b283202543c5c768e655ce13e632),
    (80090, uint256S 0x351536da5b4268f99addfdbe7f5e18233e76b9d98403155f71a09372767cd98a),
    (90727, uint256S 0x297140c10b8cba0f1def5124565f218186e7b9ac5b774e68d5b6cb90600407c2)].any
      fun p => pindex.nHeight == p.1 && pindex.phashBlock == p.2

def legacyMainnetPreBip34 (env : ChainEnv) (pindex : CBlockIndex) : Bool :=
  env.isMain && decide (0 < pindex.nHeight) && decide (pindex.nHeight < env.consensus.BIP34Height)

def bip34ImpliesBip30Limit : Int := 1983702

/-- The transactions of the block are checked for coins they would overwrite. -/
def checksBIP30 (env : ChainEnv) (pindex : CBlockIndex) (prev : Branch) : Bool :=
  let fEnforceBIP30 := !legacyMainnetPreBip34 env pindex && !isBIP30Repeat pindex &&
    !((getAncestor prev env.consensus.BIP34Height).any fun e =>
      e.phashBlock == env.consensus.BIP34Hash)
  !legacyMainnetPreBip34 env pindex &&
    (fEnforceBIP30 || decide (bip34ImpliesBip30Limit ≤ pindex.nHeight))

/-! ### Changing the coins -/

/-- The loop of `UpdateCoins` over the inputs. -/
def spendInputs : List CTxIn → CoinsProgram ε (List Coin)
  | [] => pure []
  | txin :: rest => do
    let moveout ← spendCoin txin.prevout
    match moveout with
    | none => .throw (.assertion "is_spent")
    | some coin => do
      let vprevout ← spendInputs rest
      pure (coin :: vprevout)

/-- Whether `AddCoins` lets an output overwrite a coin. -/
def possibleOverwrite (outpoint : COutPoint) (fCoinbase checkForOverwrite : Bool) :
    CoinsProgram ε Bool :=
  if checkForOverwrite then haveCoin outpoint else pure fCoinbase

/-- The loop of `AddCoins`, from output `i` on. -/
def addOutputs (txid : Uint256) (nHeight : Int) (fCoinbase checkForOverwrite : Bool) :
    List CTxOut → Nat → CoinsProgram ε Unit
  | [], _ => pure ()
  | txout :: rest, i => do
    let overwrite ← possibleOverwrite ⟨txid, ofNat i⟩ fCoinbase checkForOverwrite
    addCoin ⟨txid, ofNat i⟩ (Coin.ofOutput txout nHeight fCoinbase) overwrite
    addOutputs txid nHeight fCoinbase checkForOverwrite rest (i + 1)

variable (tx : CTransaction)

def addCoins (nHeight : Int) (checkForOverwrite : Bool) : CoinsProgram ε Unit :=
  addOutputs tx.getHash nHeight tx.isCoinBase checkForOverwrite tx.vout 0

/-- Coinbases spend nothing. -/
def markSpent : CoinsProgram ε (List Coin) :=
  if tx.isCoinBase then pure [] else spendInputs tx.vin

def updateCoins (nHeight : Int) : CoinsProgram ε CTxUndo := do
  let vprevout ← markSpent tx
  addCoins tx nHeight false
  pure ⟨vprevout⟩

/-! ### Scripts -/

def standardNotMandatoryVerifyFlags : UInt32 := dersig ||| strictenc ||| minimaldata |||
    nulldummy ||| discourageUpgradableNops ||| cleanstack |||
    minimalif ||| nullfail ||| checklocktimeverify |||
    checksequenceverify ||| lowS ||| witness |||
    discourageUpgradableWitnessProgram ||| witnessPubkeytype |||
    constScriptcode ||| taproot |||
    discourageUpgradableTaprootVersion ||| discourageOpSuccess |||
    discourageUpgradablePubkeytype

/-- `CScriptCheck` of input `nIn`. -/
structure CScriptCheck where
  txTo : CTransaction
  nIn : Nat
  txin : CTxIn
  txOut : CTxOut
  spentOutputs : List CTxOut

def CScriptCheck.run (keys : PubKeyOps) (check : CScriptCheck) (flags : UInt32) :
    ScriptResult Unit :=
  verifyScript keys check.txin.scriptSig.bytes check.txOut.scriptPubKey.bytes
    check.txin.scriptWitness.stack flags
    (TransactionSignatureChecker.mk keys check.txTo check.nIn check.txOut.nValue
      check.spentOutputs).toBase

def scriptChecks (spentOutputs : List CTxOut) : List CScriptCheck :=
  (tx.vin.zip spentOutputs).zipIdx.map fun p => ⟨tx, p.2, p.1.1, p.1.2, spentOutputs⟩

/-- Why a check failed: a rule that relayed transactions keep but blocks need not
is told apart. -/
def scriptCheckFailure (keys : PubKeyOps) (check : CScriptCheck) (flags : UInt32)
    (serror : ScriptError) : TxInvalid :=
  if hasFlag flags standardNotMandatoryVerifyFlags &&
      (check.run keys (flags &&& ~~~standardNotMandatoryVerifyFlags)).toBool then
    ⟨.notStandard, "non-mandatory-script-verify-flag (" ++ serror.string ++ ")", ""⟩
  else ⟨.consensus, "mandatory-script-verify-flag-failed (" ++ serror.string ++ ")", ""⟩

/-- The loop of `CheckInputScripts` that runs the checks. -/
def runScriptChecks (keys : PubKeyOps) (flags : UInt32) :
    List CScriptCheck → CoinsProgram TxInvalid Unit
  | [] => pure ()
  | check :: rest =>
    match check.run keys flags with
    | .ok () => runScriptChecks keys flags rest
    | .error (.error serror) => .reject (scriptCheckFailure keys check flags serror)
    | .error _ => .throw (.assertion "VerifyScript")

def spentOutputs : List CTxIn → CoinsProgram ε (List CTxOut)
  | [] => pure []
  | txin :: rest => do
    let coin ← accessUnspent txin.prevout
    let outs ← spentOutputs rest
    pure (coin.out :: outs)

/-- `CheckInputScripts`, with the checks that are left for later. -/
def checkInputScripts (keys : PubKeyOps) (tx : CTransaction) (flags : UInt32) (deferred : Bool) :
    CoinsProgram TxInvalid (List CScriptCheck) :=
  if tx.isCoinBase then pure []
  else do
    let outs ← spentOutputs tx.vin
    if deferred then pure (scriptChecks tx outs)
    else do
      runScriptChecks keys flags (scriptChecks tx outs)
      pure []

/-! ### Connecting -/

/-- Why `ConnectBlock` returns false. -/
inductive ConnectError where
  | invalid (state : Invalid)
  /-- `AbortNode` -/
  | fatal (message : String)
deriving DecidableEq

/-- Any failure of a transaction makes the block invalid. -/
def TxInvalid.toBlock (state : TxInvalid) : ConnectError :=
  .invalid ⟨.consensus, state.rejectReason, state.debugMessage⟩

def rejectBlock (rejectReason : String) : ConnectError := .invalid ⟨.consensus, rejectReason, ""⟩

/-- What `ConnectBlock` knows besides the coins. -/
structure ConnectContext where
  env : ChainEnv
  keys : PubKeyOps
  /-- nothing but the answer is wanted, as for a block without proof of work -/
  fJustCheck : Bool
  fScriptChecks : Bool
  /-- there are threads for script checks -/
  parallelScriptChecks : Bool
  pindex : CBlockIndex
  /-- the predecessor and its predecessors -/
  prev : Branch

namespace ConnectContext

variable (ctx : ConnectContext)

def flags : UInt32 := getBlockScriptFlags ctx.env.consensus ctx.pindex

/-- The heights of the coins that the inputs spend. -/
def prevHeights : List CTxIn → CoinsProgram ε (List Int)
  | [] => pure []
  | txin :: rest => do
    let coin ← accessCoin txin.prevout
    let heights ← prevHeights rest
    pure ((coin.nHeight.toNat : Int) :: heights)

/-- The checks of a transaction before its scripts, with the fees so far. -/
def checkTx (tx : CTransaction) (nFees : Int64) : CoinsProgram ConnectError Int64 := do
  let txfee ← (checkTxInputs tx ctx.pindex.nHeight).mapError TxInvalid.toBlock
  require (moneyRange (nFees + txfee).toInt)
    (rejectBlock "bad-txns-accumulated-fee-outofrange")
  let heights ← prevHeights tx.vin
  let final ← sequenceLocks tx (deploymentActiveAt ctx.env.consensus ctx.pindex .csv) heights
    ctx.pindex ctx.prev
  require final (rejectBlock "bad-txns-nonfinal")
  pure (nFees + txfee)

/-- The variables of the loop over the transactions. -/
structure Progress where
  nFees : Int64
  nSigOpsCost : Int
  vtxundo : List CTxUndo
  checks : List CScriptCheck

def checkFees (tx : CTransaction) (nFees : Int64) : CoinsProgram ConnectError Int64 :=
  if tx.isCoinBase then pure nFees else ctx.checkTx tx nFees

def checkScripts (tx : CTransaction) : CoinsProgram ConnectError (List CScriptCheck) :=
  if ctx.fScriptChecks then
    (checkInputScripts ctx.keys tx ctx.flags ctx.parallelScriptChecks).mapError TxInvalid.toBlock
  else pure []

/-- The body of the loop; `first` for the first transaction, whose undo data is
not kept. -/
def connectTx (first : Bool) (tx : CTransaction) (p : Progress) :
    CoinsProgram ConnectError Progress := do
  let nFees ← ctx.checkFees tx p.nFees
  let cost ← getTransactionSigOpCost tx ctx.flags
  require (p.nSigOpsCost + cost ≤ maxBlockSigopsCost) (rejectBlock "bad-blk-sigops")
  let checks ← ctx.checkScripts tx
  let txundo ← updateCoins tx ctx.pindex.nHeight
  pure { nFees, nSigOpsCost := p.nSigOpsCost + cost, checks := p.checks ++ checks,
         vtxundo := if first then p.vtxundo else p.vtxundo ++ [txundo] }

def connectRest (ctx : ConnectContext) : List CTransaction → Progress →
    CoinsProgram ConnectError Progress
  | [], p => pure p
  | tx :: rest, p => do
    let p ← ctx.connectTx false tx p
    ctx.connectRest rest p

/-- The loop over the outputs of a transaction in the check of BIP30. -/
def overwrites (txid : Uint256) : Nat → Nat → CoinsProgram ε Bool
  | 0, _ => pure false
  | n + 1, o => do
    let present ← haveCoin ⟨txid, ofNat o⟩
    if present then pure true else overwrites txid n (o + 1)

def checkBIP30 : List CTransaction → CoinsProgram ConnectError Unit
  | [] => pure ()
  | tx :: rest => do
    let present ← overwrites tx.getHash tx.vout.length 0
    require (!present) (rejectBlock "bad-txns-BIP30")
    checkBIP30 rest

def checkOverwrites (vtx : List CTransaction) : CoinsProgram ConnectError Unit :=
  if checksBIP30 ctx.env ctx.pindex ctx.prev then checkBIP30 vtx else pure ()

/-- `CheckBlock` without the check of the merkle root. -/
def checkBlockWithoutRoot (env : ChainEnv) (block : CBlock) : Except Invalid Unit := do
  checkBlockHeader block.toCBlockHeader env.consensus false
  checkSignet env block false
  checkBlockLength block
  checkCoinbases block
  checkTransactions block.vtx
  checkSigOps block

/-- The call of `CheckBlock`. -/
def checkAgain (block : CBlock) : CoinsProgram ConnectError Unit :=
  match if ctx.fJustCheck then checkBlockWithoutRoot ctx.env block
    else checkBlock ctx.env block true with
  | .ok () => pure ()
  | .error state =>
    if state.result = .mutated then
      .reject (.fatal "Corrupt block found indicating potential hardware failure; shutting down")
    else .reject (.invalid state)

/-- The checks after the loop. Deferred checks come last. -/
def checkReward (coinbase : CTransaction) (p : Progress) : CoinsProgram ConnectError Unit := do
  let valueOut ← coinbase.getValueOut
  require (valueOut ≤ p.nFees + getBlockSubsidy ctx.pindex.nHeight ctx.env.consensus)
    (rejectBlock "bad-cb-amount")
  assert (p.checks.all fun check => check.run ctx.keys ctx.flags ≠ .error .aborted)
    (.assertion "VerifyScript")
  require (p.checks.all fun check => (check.run ctx.keys ctx.flags).toBool)
    (rejectBlock "block-validation-failed")

def connectTxs (vtx : List CTransaction) : CoinsProgram ConnectError CBlockUndo :=
  match vtx with
  | [] => .throw (.assertion "block.vtx[0]")
  | coinbase :: rest => do
    let p ← ctx.connectTx true coinbase ⟨0, 0, [], []⟩
    let p ← ctx.connectRest rest p
    ctx.checkReward coinbase p
    pure ⟨p.vtxundo⟩

/-- Everything but the genesis block. -/
def connectOrdinary (block : CBlock) : CoinsProgram ConnectError (Option CBlockUndo) := do
  assert (!ctx.prev.isEmpty) (.assertion "pindex->pprev")
  ctx.checkOverwrites block.vtx
  let blockundo ← ctx.connectTxs block.vtx
  if ctx.fJustCheck then pure none
  else do
    setBestBlock ctx.pindex.phashBlock
    pure (some blockundo)

/-- The outputs of the genesis block are not added. -/
def connectGenesis : CoinsProgram ConnectError (Option CBlockUndo) :=
  if ctx.fJustCheck then pure none
  else do
    setBestBlock ctx.pindex.phashBlock
    pure none

/-- `ConnectBlock`, with the undo data that it hands to `WriteUndoDataForBlock`. -/
def connectBlock (block : CBlock) : CoinsProgram ConnectError (Option CBlockUndo) := do
  assert (ctx.pindex.phashBlock == block.getHash) (.assertion "*pindex->phashBlock == block_hash")
  ctx.checkAgain block
  let best ← getBestBlock
  assert ((ctx.prev.head?.map CBlockIndex.phashBlock).getD .zero == best)
    (.assertion "hashPrevBlock == view.GetBestBlock()")
  if block.getHash = ctx.env.hashGenesisBlock then ctx.connectGenesis
  else ctx.connectOrdinary block

end ConnectContext

/-! ### Disconnecting -/

inductive DisconnectResult where
  | ok
  | unclean
  | failed
deriving DecidableEq

/-- `MAX_OUTPUTS_PER_BLOCK`: an output takes at least nine bytes. -/
def maxOutputsPerBlock : Nat := maxBlockWeight / (witnessScaleFactor * 9)

/-- The loop of `AccessByTxid` over the outputs from `i` on. -/
def accessByTxidLoop (txid : Uint256) : Nat → Nat → CoinsProgram ε Coin
  | 0, _ => pure .empty
  | n + 1, i => do
    let alternate ← accessCoin ⟨txid, ofNat i⟩
    if !alternate.isSpent then pure alternate else accessByTxidLoop txid n (i + 1)

def accessByTxid (txid : Uint256) : CoinsProgram ε Coin :=
  accessByTxidLoop txid maxOutputsPerBlock 0

/-- The undo data of a coin, completed from another output of its transaction if
the height is missing; nothing when there is none. -/
def completeUndo (undo : Coin) (txid : Uint256) : CoinsProgram ε (Option Coin) :=
  if undo.nHeight = 0 then do
    let alternate ← accessByTxid txid
    if !alternate.isSpent then
      pure (some { undo with nHeight := alternate.nHeight, fCoinBase := alternate.fCoinBase })
    else pure none
  else pure (some undo)

def applyTxInUndo (undo : Coin) (out : COutPoint) : CoinsProgram ε DisconnectResult := do
  let present ← haveCoin out
  let undo ← completeUndo undo out.hash
  match undo with
  | none => pure .failed
  | some undo => do
    addCoin out undo present
    pure (if present then .unclean else .ok)

/-- The loop over the inputs of a transaction, last first, with the coins of its
undo data. -/
def restoreInputs : List (CTxIn × Coin) → Bool → CoinsProgram ε DisconnectResult
  | [], fClean => pure (if fClean then .ok else .unclean)
  | (txin, undo) :: rest, fClean => do
    let res ← applyTxInUndo undo txin.prevout
    match res with
    | .failed => pure .failed
    | res => restoreInputs rest (fClean && res ≠ .unclean)

/-- A coin that is taken out is the one the block put in. -/
def outputMatches (txout : CTxOut) (nHeight : Int) (fCoinbase : Bool) (moveout : Option Coin) :
    Bool :=
  match moveout with
  | none => false
  | some coin => txout == coin.out && nHeight == coin.nHeight.toNat && fCoinbase == coin.fCoinBase

/-- The loop over the outputs of a transaction, from output `i` on. -/
def removeOutputs (txid : Uint256) (nHeight : Int) (isCoinbase isBip30Exception : Bool) :
    List CTxOut → Nat → Bool → CoinsProgram ε Bool
  | [], _, fClean => pure fClean
  | txout :: rest, i, fClean =>
    if txout.scriptPubKey.isUnspendable then
      removeOutputs txid nHeight isCoinbase isBip30Exception rest (i + 1) fClean
    else do
      let moveout ← spendCoin ⟨txid, ofNat i⟩
      removeOutputs txid nHeight isCoinbase isBip30Exception rest (i + 1)
        (fClean && (outputMatches txout nHeight isCoinbase moveout || isBip30Exception))

/-- The body of the loop over the transactions; the undo data is that of a
transaction other than the first. -/
def disconnectTx (nHeight : Int) (fEnforceBIP30 : Bool) (tx : CTransaction)
    (txundo : Option CTxUndo) (fClean : Bool) : CoinsProgram ε DisconnectResult := do
  let fClean ← removeOutputs tx.getHash nHeight tx.isCoinBase (tx.isCoinBase && !fEnforceBIP30)
    tx.vout 0 fClean
  match txundo with
  | none => pure (if fClean then .ok else .unclean)
  | some txundo =>
    if txundo.vprevout.length ≠ tx.vin.length then pure .failed
    else restoreInputs (tx.vin.zip txundo.vprevout).reverse fClean

/-- The loop over the transactions, last first. -/
def disconnectTxs (nHeight : Int) (fEnforceBIP30 : Bool) :
    List (CTransaction × Option CTxUndo) → Bool → CoinsProgram ε DisconnectResult
  | [], fClean => pure (if fClean then .ok else .unclean)
  | (tx, txundo) :: rest, fClean => do
    let res ← disconnectTx nHeight fEnforceBIP30 tx txundo fClean
    match res with
    | .failed => pure .failed
    | res => disconnectTxs nHeight fEnforceBIP30 rest (res ≠ .unclean)

/-- `DisconnectBlock`, with what `UndoReadFromDisk` gave; `hashPrev` is the hash of
the predecessor. -/
def disconnectBlock (env : ChainEnv) (pindex : CBlockIndex) (hashPrev : Uint256)
    (block : CBlock) (blockUndo : Option CBlockUndo) : CoinsProgram ε DisconnectResult :=
  match blockUndo with
  | none => pure .failed
  | some blockUndo =>
    if blockUndo.vtxundo.length + 1 ≠ block.vtx.length then pure .failed
    else do
      let res ← disconnectTxs pindex.nHeight
        (!legacyMainnetPreBip34 env pindex && !isBIP30Unspendable pindex)
        (block.vtx.zip (none :: blockUndo.vtxundo.map some)).reverse true
      match res with
      | .failed => pure .failed
      | res => do
        setBestBlock hashPrev
        pure res

end Lithium
