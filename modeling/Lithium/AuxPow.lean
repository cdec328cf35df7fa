import Lithium.Lib.HashPath
import Lithium.Lib.Search
import Lithium.Consensus.Params
import Lithium.Primitives.Block

/-!
# Merge-mining proofs

`CAuxPow` proves that work done for a parent chain commits to a block of this
one. The hash of the child is a leaf of a tree of chains; the root of that
tree stands in the script of the parent's coinbase transaction, after a magic
string and before the size of the tree and a nonce that fix the place of the
child in it; the coinbase transaction is the leftmost leaf of the parent's own
tree. `check` follows `auxpow.cpp` in the order of its tests, with their error
texts.
-/

namespace Lithium
open Lib

def pchMergedMiningHeader : Bytes := [0xfa, 0xbe, 0x6d, 0x6d]

namespace CAuxPow

/-- `GetExpectedIndex`: the slot of a chain in a tree of the given height, by
a linear congruential generator on 32-bit numbers. -/
def getExpectedIndex (nonce : UInt32) (chainId : Int32) (height : Nat) : UInt32 :=
  let rand := nonce * 1103515245 + 12345
  let rand := rand + chainId.toUInt32
  let rand := rand * 1103515245 + 12345
  rand % UInt32.ofNat (2 ^ height)

def checkMerkleBranchLoop (hash : Uint256) : List Uint256 → Int32 → Uint256
  | [], _ => hash
  | branchHash :: branch, index =>
    checkMerkleBranchLoop
      (if index &&& 1 != 0 then hashPair branchHash hash else hashPair hash branchHash)
      branch (index >>> 1)

/-- `CheckMerkleBranch`: the root above a leaf. -/
def checkMerkleBranch (hash : Uint256) (branch : List Uint256) (index : Int32) : Uint256 :=
  if index = -1 then .zero else checkMerkleBranchLoop hash branch index

variable (ap : CAuxPow)

/-- The root of the tree of chains, in the byte order of the script. -/
def rootBytes (hashAuxBlock : Uint256) : Bytes :=
  (checkMerkleBranch hashAuxBlock ap.vChainMerkleBranch ap.nChainIndex.toInt32).data.reverse

/-- The part of `Check` that looks at the bytes of the script behind the
root. -/
def checkCommitment (chainId : Int32) (after : Bytes) : Except String Unit :=
  if after.length < 8 then
    .error "Aux POW missing chain merkle tree size and nonce in parent coinbase"
  else if leToNat (after.take 4) ≠ 2 ^ ap.vChainMerkleBranch.length then
    .error "Aux POW merkle branch size does not match parent coinbase"
  else if ap.nChainIndex ≠ getExpectedIndex (UInt32.ofNat (leToNat ((after.drop 4).take 4))) chainId
      ap.vChainMerkleBranch.length then
    .error "Aux POW wrong index"
  else .ok ()

/-- The part of `Check` that looks at the script of the coinbase input. -/
def checkScript (chainId : Int32) (root script : Bytes) : Except String Unit :=
  match search root script with
  | none => .error "Aux POW missing chain merkle root in parent coinbase"
  | some rootPos =>
    let after := script.drop (rootPos + root.length)
    match search pchMergedMiningHeader script with
    | some headerPos =>
      if (search pchMergedMiningHeader (script.drop (headerPos + 1))).isSome then
        .error "Multiple merged mining headers in coinbase"
      else if headerPos + pchMergedMiningHeader.length ≠ rootPos then
        .error "Merged mining header is not just before chain merkle root"
      else ap.checkCommitment chainId after
    | none =>
      if rootPos > 20 then
        .error ("Aux POW chain merkle root must start in the first 20 bytes " ++
          "of the parent coinbase")
      else ap.checkCommitment chainId after

def check (hashAuxBlock : Uint256) (chainId : Int32) (params : Params) : Except String Unit :=
  if params.fStrictChainId && ap.parentBlock.getChainId == chainId then
    .error "Aux POW parent has our chain ID"
  else if ap.vChainMerkleBranch.length > 30 then
    .error "Aux POW chain merkle branch too long"
  else
    match ap.coinbaseTx with
    | none => .error "Aux POW missing parent coinbase transaction"
    | some tx =>
      if checkMerkleBranch tx.getHash ap.merkleBranch 0 ≠ ap.parentBlock.hashMerkleRoot then
        .error "Aux POW merkle root incorrect"
      else
        match tx.vin with
        | [] => .error "Aux POW coinbase has no inputs"
        | input :: _ =>
          ap.checkScript chainId (ap.rootBytes hashAuxBlock) input.scriptSig.bytes

end CAuxPow

/-! ### What a passed check says -/

def CTransaction.firstScript (tx : CTransaction) : Bytes :=
  match tx.vin with
  | input :: _ => input.scriptSig.bytes
  | [] => []

theorem CTransaction.firstScript_stripWitness (tx : CTransaction) :
    tx.stripWitness.firstScript = tx.firstScript := by
  obtain ⟨_, vin, _, _, _, _⟩ := tx
  cases vin <;> rfl

namespace CAuxPow

def scriptSig (ap : CAuxPow) : Bytes := (ap.coinbaseTx.map CTransaction.firstScript).getD []

variable {chainId : Int32} {ap : CAuxPow}

theorem checkCommitment_ok {after : Bytes} (h : ap.checkCommitment chainId after = .ok ()) :
    8 ≤ after.length ∧ leToNat (after.take 4) = 2 ^ ap.vChainMerkleBranch.length ∧
      ap.nChainIndex = getExpectedIndex (UInt32.ofNat (leToNat ((after.drop 4).take 4))) chainId
        ap.vChainMerkleBranch.length := by
  unfold checkCommitment at h
  split at h
  · cases h
  · split at h
    · cases h
    · split at h
      · cases h
      · rename_i h1 h2 h3
        exact ⟨by omega, not_not.mp h2, not_not.mp h3⟩

/-- With the magic in the script, the root follows it and the commitment
follows the root. -/
theorem checkScript_ok {root script : Bytes} {headerPos : Nat}
    (hmagic : search pchMergedMiningHeader script = some headerPos)
    (h : ap.checkScript chainId root script = .ok ()) : root <+: script.drop (headerPos + 4) ∧
      ap.checkCommitment chainId (script.drop (headerPos + 4 + root.length)) = .ok () := by
  unfold checkScript at h
  cases hroot : search root script with
  | none =>
    rw [hroot] at h
    cases h
  | some rootPos =>
    simp only [hroot, hmagic] at h
    split at h
    · cases h
    · split at h
      · cases h
      · rename_i hpos
        have heq : headerPos + 4 = rootPos := not_not.mp hpos
        rw [heq]
        exact ⟨occurs_of_search hroot, h⟩

theorem check_ok {hashAuxBlock : Uint256} {params : Params}
    (h : ap.check hashAuxBlock chainId params = .ok ()) :
    ap.vChainMerkleBranch.length ≤ 30 ∧ ∃ tx, ap.coinbaseTx = some tx ∧ tx.vin ≠ [] ∧
        checkMerkleBranch tx.getHash ap.merkleBranch 0 = ap.parentBlock.hashMerkleRoot ∧
        ap.checkScript chainId (ap.rootBytes hashAuxBlock) ap.scriptSig = .ok () := by
  unfold check at h
  split at h
  · cases h
  · split at h
    · cases h
    · rename_i hlen
      refine ⟨by omega, ?_⟩
      cases htx : ap.coinbaseTx with
      | none =>
        rw [htx] at h
        cases h
      | some tx =>
        simp only [htx] at h
        split at h
        · cases h
        · rename_i hroot
          cases hvin : tx.vin with
          | nil =>
            rw [hvin] at h
            cases h
          | cons input rest =>
            refine ⟨tx, rfl, by simp [hvin], not_not.mp hroot, ?_⟩
            simpa [scriptSig, CTransaction.firstScript, htx, hvin] using h

end CAuxPow
end Lithium
