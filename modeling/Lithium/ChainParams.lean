import Lithium.Validation.Checks

/-!
# The networks

`CMainParams` and `CRegTestParams` of `kernel/chainparams.cpp`: the genesis
block, the checkpoints and the bytes that mark a record in a block file. The
two networks share their genesis block.
-/

namespace Lithium
open Lib

/-- The bytes of a number, most significant first. -/
def bytesBE (w n : Nat) : Bytes := (natToLE w n).reverse

def asciiBytes (text : String) : Bytes := text.toList.map fun c => UInt8.ofNat c.toNat

def genesisTimestamp : Bytes :=
  asciiBytes "London Times 9/27/14 3:20 utc Tornados armed and ready to strike Isis"

def genesisOutputScript : CScript where
  bytes := pushData (0x04 ::
      (bytesBE 32 0x678afdb0fe5548271967f1a67130b7105cd6a828e03909a67962e0ea1f61deb6 ++
        bytesBE 32 0x49f6bc3f4cef38c4f35504e51ec112de5c384df7ba0b8d578a4c702b6bf11d5f)) ++
    [UInt8.ofNat Opcode.opChecksig]
  size_lt := by decide +kernel

def genesisCoinbase (genesisReward : Int64) : CTransaction where
  nVersion := 1
  vin := [⟨.null,
    ⟨pushInt64 486604799 ++ pushData (CScriptNum.serialize 4) ++ pushData genesisTimestamp,
      by decide +kernel⟩, sequenceFinal, .empty⟩]
  vout := [⟨genesisReward, genesisOutputScript⟩]
  nLockTime := 0
  vin_lt := by decide
  vout_lt := by simp

def createLithiumGenesisBlock (nTime nNonce nBits : UInt32) (nVersion : Int32)
    (genesisReward : Int64) : CBlock :=
  let genesis : CBlock :=
    { nVersion := nVersion
      hashPrevBlock := .zero
      hashMerkleRoot := .zero
      nTime := nTime
      nBits := nBits
      nNonce := nNonce
      auxpow := none
      vtx := [genesisCoinbase genesisReward] }
  { genesis with hashMerkleRoot := (blockMerkleRoot genesis).1 }

def mainGenesis : CBlock := createLithiumGenesisBlock 1411788333 8298496 503382015 112 500000000

-- an assertion of the source
example : mainGenesis.hashMerkleRoot =
    uint256S 0x2a1fd3e405c93b2011b4189e97cd658b1f5ca859eba01723af28dd21f4d6c008 := by
  decide +kernel

def mainCheckpoints : List (Int × Uint256) :=
  [(0, uint256S 0x000000fcf39055b547e94e610f1008b8046f942bbb730e8b6dfa6232931902db),
   (13000, uint256S 0x09f2b9ccb8024bb4eaf3d230945333d2b9418bbb0602d6de8d0f81cc5035136f),
   (19021, uint256S 0x050190c7720c393171514350353ec7ac070bf721e79f053e521e0ea64b223d91),
   (26012, uint256S 0x0384667174cf11623d727993781681f7d47e94a99d85c410d425c2522ba2d928),
   (30019, uint256S 0x0b3c9b8156ecb23c0a851ceea23b5b635ea460c04bb6f86dfe40b5a7e524d242),
   (84000, uint256S 0x000b1002ef5d01182a42f341e1f2838dddb123b3ef5693476d882c123ee804cf),
   (118009, uint256S 0x75fd64c358f384ef700c1831209e3dc830a5cd9cd8a3ab7694897f950967dc20),
   (139452, uint256S 0x56d154ab3ddf6968c529e0a880af0caa438579fa20f30dcaa260802df830b7de),
   (535001, uint256S 0x34f47f7dc07805535442a7a765f9cf36baae1de657212d57e5e3ae6696eaaf7e),
   (1250000, uint256S 0xbdd59175ea75a7a6b99d93678a74c24a0f61ffe8ebde02b8cc1665e5a3eb9e79),
   (1937598, uint256S 0x046a8cff07cfec07b9797e06e997faa1f6a515b5e5817444289fecdf9b220196),
   (1956300, uint256S 0x4e361135d30a94db8923116d84750e96e0d576025962841b173e838005da6130),
   (1958000, uint256S 0x491ba955b5db6552efdfc48ee658d42bbb72872b1bf28aefe44cf16e59d83d67),
   (1960000, uint256S 0x2cd972cd152d4e972a8fc6e48e4f2faafebccd229770f90195aece2965c01f0c),
   (1961000, uint256S 0xe1c887174b1c50f9d12b3b62cfd4ee0bbc9461593b06c13a1962952f365f9a14)]

/-- The main network with default options. -/
def mainEnv : ChainEnv where
  isMain := true
  consensus := mainParams
  genesis := mainGenesis
  messageStart := [0xf4, 0xa3, 0x29, 0xd5]
  messageStart_size := rfl
  checkpoints := mainCheckpoints
  checkpointsEnabled := true
  minimumChainWork := uintToArith256 mainParams.nMinimumChainWork
  assumedValidBlock := uint256S 0x2cd972cd152d4e972a8fc6e48e4f2faafebccd229770f90195aece2965c01f0c
  checkSignetBlockSolution := fun _ _ => true

/-- `CRegTestParams` with default options. -/
def regtestParams : Params where
  nSubsidyLadderActivationHeight := 0
  scriptFlagExceptions := []
  BIP34Height := 100000000
  BIP34Hash := .zero
  BIP65Height := 1351
  BIP66Height := 1251
  CSVHeight := 1
  SegwitHeight := 0
  nRuleChangeActivationThreshold := 108
  nMinerConfirmationWindow := 144
  vDeployments
    | .testdummy => ⟨28, 0, BIP9Deployment.noTimeout, 0⟩
    | .taproot => ⟨2, BIP9Deployment.alwaysActive, BIP9Deployment.noTimeout, 0⟩
  powLimit := uint256S 0x7fffffffffffffffffffffffffffffffffffffffffffffffffffffffffffffff
  fPowAllowMinDifficultyBlocks := true
  fPowNoRetargeting := true
  nPowTargetSpacing := 3 * 60
  nPowTargetTimespan := 20 * 3 * 60
  nMinimumChainWork := .zero
  signetBlocks := false
  fStrictChainId := false
  nAuxpowChainId := 0x0006
  nAuxpowStartHeight := 0

def regtestEnv : ChainEnv where
  isMain := false
  consensus := regtestParams
  genesis := mainGenesis
  messageStart := [0xfa, 0xbf, 0xb5, 0xda]
  messageStart_size := rfl
  checkpoints := [(0, uint256S 0x000000fcf39055b547e94e610f1008b8046f942bbb730e8b6dfa6232931902db)]
  checkpointsEnabled := true
  minimumChainWork := uintToArith256 regtestParams.nMinimumChainWork
  assumedValidBlock := .zero
  checkSignetBlockSolution := fun _ _ => true

end Lithium
