import Lithium.Uint256

/-!
# Consensus parameters

The fields of `Consensus::Params` that the modelled functions read, and their
values on the main network. Heights and durations are integers; the fields of
the source are machine integers large enough for every value that occurs.
-/

namespace Lithium
open Lib

/-- The blob whose hexadecimal form, most significant digit first, is the
given number: `uint256S`. -/
def uint256S (n : Nat) : Uint256 := ⟨natToLE 32 n, natToLE_length _ _⟩

/-- The rules that are switched on by signalling. -/
inductive DeploymentPos where
  | testdummy
  | taproot
deriving DecidableEq, Repr

structure BIP9Deployment where
  bit : Nat
  nStartTime : Int
  nTimeout : Int
  minActivationHeight : Int

namespace BIP9Deployment

def noTimeout : Int := 2 ^ 63 - 1
def alwaysActive : Int := -1
def neverActive : Int := -2

end BIP9Deployment

structure Params where
  nSubsidyLadderActivationHeight : Int
  scriptFlagExceptions : List (Uint256 × UInt32)
  BIP34Height : Int
  BIP34Hash : Uint256
  BIP65Height : Int
  BIP66Height : Int
  CSVHeight : Int
  SegwitHeight : Int
  nRuleChangeActivationThreshold : Nat
  nMinerConfirmationWindow : Nat
  vDeployments : DeploymentPos → BIP9Deployment
  powLimit : Uint256
  fPowAllowMinDifficultyBlocks : Bool
  fPowNoRetargeting : Bool
  nPowTargetSpacing : Int
  nPowTargetTimespan : Int
  nMinimumChainWork : Uint256
  signetBlocks : Bool
  fStrictChainId : Bool
  nAuxpowChainId : Int32
  nAuxpowStartHeight : Int

/-- The number of blocks between two changes of the target. -/
def Params.difficultyAdjustmentInterval (params : Params) : Int :=
  params.nPowTargetTimespan / params.nPowTargetSpacing

/-- The rules that are switched on at a fixed height. -/
inductive BuriedDeployment where
  | heightInCb
  | cltv
  | dersig
  | csv
  | segwit
deriving DecidableEq, Repr

def Params.deploymentHeight (params : Params) : BuriedDeployment → Int
  | .heightInCb => params.BIP34Height
  | .cltv => params.BIP65Height
  | .dersig => params.BIP66Height
  | .csv => params.CSVHeight
  | .segwit => params.SegwitHeight

def mainParams : Params where
  nSubsidyLadderActivationHeight := 1949476
  scriptFlagExceptions := []
  BIP34Height := 1977347
  BIP34Hash := .zero
  BIP65Height := 1977347
  BIP66Height := 1977347
  CSVHeight := 1
  SegwitHeight := 1956300
  nRuleChangeActivationThreshold := 19
  nMinerConfirmationWindow := 20
  vDeployments
    | .testdummy => ⟨28, 1199145601, 1230767999, 0⟩
    | .taproot => ⟨2, 1782871200, 1814407200, 1980707⟩
  powLimit := uint256S 0x000000ffff000000000000000000000000000000000000000000000000000000
  fPowAllowMinDifficultyBlocks := false
  fPowNoRetargeting := false
  nPowTargetSpacing := 3 * 60
  nPowTargetTimespan := 20 * 3 * 60
  nMinimumChainWork := uint256S 0x81cf443903cbb00d9c
  signetBlocks := false
  fStrictChainId := true
  nAuxpowChainId := 0x0006
  nAuxpowStartHeight := 160000

end Lithium
