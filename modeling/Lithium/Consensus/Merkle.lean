import Lithium.AuxPowBinding
import Lithium.Lib.MerkleTree

/-!
# Merkle roots of blocks

`consensus/merkle.cpp` computes both roots of a block with one loop over levels
that also notes whether a level had two equal neighbours. Its pairs are hashed
twice with SHA-256 while a transaction identifier is hashed once, so an
identifier that is also the hash of a pair is a collision: the second of the
two hashes of the pair has a string of thirty-two bytes as its argument, which
is no transaction.
-/

namespace Lithium
open Lib Crypto CTransaction MerkleTree

/-- The loop of `ComputeMerkleRoot`; `n` bounds the levels left. -/
def computeMerkleRootLoop : Nat → List Uint256 → Bool → Uint256 × Bool
  | 0, hashes, mutation => (hashes.headD .zero, mutation)
  | n + 1, hashes, mutation =>
    if hashes.length ≤ 1 then (hashes.headD .zero, mutation)
    else computeMerkleRootLoop n (level hashPair hashes)
      (levelMutated hashes || mutation)

/-- The root, and whether some level had equal neighbours. A level is at most
half of the one before, rounded up, so the number of leaves bounds the levels. -/
def computeMerkleRoot (hashes : List Uint256) : Uint256 × Bool :=
  computeMerkleRootLoop hashes.length hashes false

variable (block : CBlock)

def blockMerkleRoot : Uint256 × Bool :=
  computeMerkleRoot (block.vtx.map getHash)

/-- `BlockWitnessMerkleRoot`: the coinbase counts as the null hash. -/
def blockWitnessMerkleRoot : Uint256 × Bool :=
  computeMerkleRoot (match block.vtx with
    | [] => []
    | _ :: rest => .zero :: rest.map getWitnessHash)

theorem computeMerkleRootLoop_eq (n : Nat) (hashes : List Uint256) (mutation : Bool) :
    computeMerkleRootLoop n hashes mutation =
      (root hashPair n hashes, mutated hashPair n hashes || mutation) := by
  induction n generalizing hashes mutation with
  | zero => simp [computeMerkleRootLoop, root, mutated]; rfl
  | succ n ih =>
    rw [computeMerkleRootLoop, root, mutated]
    split
    · simp; rfl
    · rw [ih, Bool.or_assoc, Bool.or_left_comm]

theorem blockMerkleRoot_eq : blockMerkleRoot block =
      (root hashPair block.vtx.length (block.vtx.map getHash),
        mutated hashPair block.vtx.length (block.vtx.map getHash)) := by
  rw [blockMerkleRoot, computeMerkleRoot, computeMerkleRootLoop_eq, List.length_map, Bool.or_false]

/-! ### The root binds the identifiers -/

/-- The strings that SHA-256 is applied to when the root of a block is computed:
the transactions without witnesses, and two strings for each pair. -/
def CBlock.rootStrings : List Bytes := block.vtx.map (serTransaction false) ++
    pairStrings (pairs hashPair block.vtx.length (block.vtx.map getHash))

section Binding
variable {S : Set Bytes} {b₁ b₂ : CBlock}

theorem CBlock.serTransaction_mem (h : ∀ bs ∈ b₁.rootStrings, bs ∈ S) {tx : CTransaction}
    (htx : tx ∈ b₁.vtx) : serTransaction false tx ∈ S :=
  h _ (List.mem_append_left _ (List.mem_map_of_mem htx))

theorem CBlock.pairs_mem (h : ∀ bs ∈ b₁.rootStrings, bs ∈ S) :
    ∀ p ∈ pairs hashPair b₁.vtx.length (b₁.vtx.map getHash), p ∈ pairsOver S :=
  mem_pairsOver fun bs hbs => h bs (List.mem_append_right _ hbs)

variable (hsha : Set.InjOn sha256 S) (h₁ : ∀ bs ∈ b₁.rootStrings, bs ∈ S)
  (h₂ : ∀ bs ∈ b₂.rootStrings, bs ∈ S)
include hsha h₁ h₂

/-- No transaction identifier is the hash of a pair. -/
theorem not_txid_overlap (hvin : ∀ tx ∈ b₁.vtx, tx.vin ≠ []) :
    ¬ MerkleTree.Overlap hashPair (b₁.vtx.map getHash) b₂.vtx.length (b₂.vtx.map getHash) := by
  rintro ⟨txid, htxid, p, hp, hnode⟩
  obtain ⟨tx, htx, rfl⟩ := List.mem_map.mp htxid
  have hlen := serTransaction_stripped_length (hvin tx htx)
  exact hashPair_ne_sha256Once hsha (CBlock.serTransaction_mem h₁ htx) (by omega) p
    (CBlock.pairs_mem h₂ p hp) hnode

/-- Blocks of any two lengths with one root, neither of them mutated, have the
same identifiers in the same order. -/
theorem txids_eq_of_root_eq (hne₁ : b₁.vtx ≠ []) (hne₂ : b₂.vtx ≠ [])
    (hvin₁ : ∀ tx ∈ b₁.vtx, tx.vin ≠ []) (hvin₂ : ∀ tx ∈ b₂.vtx, tx.vin ≠ [])
    (hmutated₁ : (blockMerkleRoot b₁).2 = false) (hmutated₂ : (blockMerkleRoot b₂).2 = false)
    (hroot : (blockMerkleRoot b₁).1 = (blockMerkleRoot b₂).1) :
    b₁.vtx.map getHash = b₂.vtx.map getHash := by
  rw [blockMerkleRoot_eq] at hmutated₁ hmutated₂
  rw [blockMerkleRoot_eq, blockMerkleRoot_eq] at hroot
  rcases root_inj (hashPair_injOn hsha) (by simp) (by simp) (by simpa using hne₁)
      (by simpa using hne₂) (CBlock.pairs_mem h₁) (CBlock.pairs_mem h₂) hmutated₁ hmutated₂ hroot
    with heq | hover | hover
  · exact heq
  · exact absurd hover (not_txid_overlap hsha h₁ h₂ hvin₁)
  · exact absurd hover (not_txid_overlap hsha h₂ h₁ hvin₂)

end Binding

/-- The Merkle root of a block binds the list of its transaction identifiers at
every height of the tree: two nonempty lists of transactions with inputs, of any
lengths, that have one root and are both reported as not mutated have the same
identifiers in the same order, unless SHA-256 has a collision among the strings
hashed for the two roots. -/
theorem blockMerkleRoot_binds_txids {b₁ b₂ : CBlock}
    (hcoll : Set.InjOn sha256 {bs | bs ∈ b₁.rootStrings ∨ bs ∈ b₂.rootStrings})
    (hne₁ : b₁.vtx ≠ []) (hne₂ : b₂.vtx ≠ [])
    (hvin₁ : ∀ tx ∈ b₁.vtx, tx.vin ≠ []) (hvin₂ : ∀ tx ∈ b₂.vtx, tx.vin ≠ [])
    (hmutated₁ : (blockMerkleRoot b₁).2 = false) (hmutated₂ : (blockMerkleRoot b₂).2 = false)
    (hroot : (blockMerkleRoot b₁).1 = (blockMerkleRoot b₂).1) :
    b₁.vtx.map getHash = b₂.vtx.map getHash :=
  txids_eq_of_root_eq hcoll (fun _ h => Or.inl h) (fun _ h => Or.inr h) hne₁ hne₂ hvin₁ hvin₂
    hmutated₁ hmutated₂ hroot

/-- Three transactions, an odd level, whose first has a witness. -/
def threeTransactions (witness : CScriptWitness) : CBlock :=
  let tx (n : Nat) (w : CScriptWitness) : CTransaction :=
    .ofInput ⟨⟨uint256S n, 0⟩, ⟨[], CScript.nil_lt⟩, 0xffffffff, w⟩ none
  { nVersion := 1, hashPrevBlock := .zero, hashMerkleRoot := .zero, nTime := 0, nBits := 0,
    nNonce := 0
    auxpow := none
    vtx := [tx 1 witness, tx 2 .empty, tx 3 .empty] }

theorem blockMerkleRoot_binds_txids_three :
    (threeTransactions .empty).vtx ≠ (threeTransactions ⟨[[0x01]], by simp, by simp⟩).vtx ∧
      (threeTransactions .empty).vtx.map getHash =
        (threeTransactions ⟨[[0x01]], by simp, by simp⟩).vtx.map getHash := by
  have hcoll : ∀ x ∈ (threeTransactions .empty).rootStrings,
      ∀ y ∈ (threeTransactions .empty).rootStrings, sha256 x = sha256 y → x = y := by
    decide +kernel
  refine ⟨by decide +kernel, blockMerkleRoot_binds_txids ?_ (by decide) (by decide) (by decide)
    (by decide) (by decide +kernel) (by decide +kernel) (by decide +kernel)⟩
  intro x hx y hy h
  exact hcoll x (hx.elim id id) y (hy.elim id id) h

end Lithium
