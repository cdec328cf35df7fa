import Lithium.Consensus.Merkle

/-!
# A proof that is put together well passes

The check finds the child at its slot, the root behind the magic, and the size and the
nonce behind the root, whatever stands before and after them in the script. It looks for
the first occurrence of the root, so none may start earlier, not even inside the magic.
-/

namespace Lithium.CAuxPow
open Lib List MerkleTree

/-! ### Slots and branches -/

/-- The branch of a slot in a tree. -/
def siblings (leaves : List Uint256) (i : Nat) : List Uint256 :=
  (path hashPair leaves.length leaves i).map Prod.snd

theorem toInt32_odd (x : UInt32) : (x.toInt32 &&& 1 != 0) = (x.toNat % 2 == 1) := by
  have hmod : (x &&& 1).toNat = x.toNat % 2 := Nat.and_one_is_mod _
  have hzero : x.toInt32 &&& 1 = 0 ↔ x &&& 1 = 0 :=
    ⟨fun h => UInt32.toBitVec_inj.mp (congrArg Int32.toBitVec h),
      fun h => Int32.toBitVec_inj.mp (congrArg UInt32.toBitVec h)⟩
  rw [Bool.eq_iff_iff, bne_iff_ne, beq_iff_eq, Ne, hzero, ← UInt32.toNat_inj, hmod]
  simp

/-- The shift of a signed number is that of the number, as the sign bit is not set. -/
theorem toInt32_shiftRight_one {x : UInt32} (h : x.toNat < 2 ^ 31) :
    x.toInt32 >>> 1 = (x >>> 1).toInt32 := by
  have hmsb : x.toBitVec.msb = false := by
    rw [BitVec.msb_eq_false_iff_two_mul_lt]
    change 2 * x.toNat < _
    omega
  exact Int32.toBitVec_inj.mp (BitVec.sshiftRight_eq_of_msb_false (s := 1) hmsb)

theorem branchPath_path {x : UInt32} (hx : x.toNat < 2 ^ 31) (n : Nat) (leaves : List Uint256) :
    branchPath ((path hashPair n leaves x.toNat).map Prod.snd) x.toInt32 =
      path hashPair n leaves x.toNat := by
  induction n generalizing x leaves with
  | zero => rfl
  | succ n ih =>
    rw [path]
    by_cases hle : leaves.length ≤ 1
    · rw [if_pos hle]
      rfl
    · have hhalf : (x >>> 1).toNat = x.toNat / 2 := Nat.shiftRight_one _
      rw [if_neg hle, ← hhalf, map_cons, branchPath, toInt32_odd, toInt32_shiftRight_one hx,
        ih (by omega)]

/-- From the leaf at a slot its branch leads to the root. -/
theorem checkMerkleBranch_siblings {leaves : List Uint256} {x : UInt32} (hx : x.toNat < 2 ^ 30)
    (hlt : x.toNat < leaves.length) :
    checkMerkleBranch (leaves.getD x.toNat default) (siblings leaves x.toNat) x.toInt32 =
      (computeMerkleRoot leaves).1 := by
  rw [checkMerkleBranch, if_neg (toInt32_ne_neg_one hx), checkMerkleBranchLoop_eq_climb, siblings,
    branchPath_path (by omega), climb_path (by omega) hlt, computeMerkleRoot,
    computeMerkleRootLoop_eq]

/-! ### Payloads -/

/-- The child is the leaf at the expected slot of a tree of height `k`, the script of the
coinbase transaction says so behind the magic, and the transaction is the first of the
parent. No occurrence of the root starts before `first`. -/
structure Composed (ap : CAuxPow) (chainId : Int32) (k : Nat) (leaves : List Uint256)
    (nonce : UInt32) (tx : CTransaction) (txids : List Uint256) (before after : Bytes)
    (first : Nat) : Prop where
  height : k ≤ 30
  leaves_length : leaves.length = 2 ^ k
  foreign : ap.parentBlock.getChainId ≠ chainId
  slot : ap.nChainIndex = getExpectedIndex nonce chainId k
  chainBranch : ap.vChainMerkleBranch = siblings leaves ap.nChainIndex.toNat
  coinbase : ap.coinbaseTx = some tx
  inputs : tx.vin ≠ []
  script : tx.firstScript = before ++ (pchMergedMiningHeader ++
    ((computeMerkleRoot leaves).1.data.reverse ++
      (natToLE 4 (2 ^ k) ++ (natToLE 4 nonce.toNat ++ after))))
  once : ∀ j < tx.firstScript.length, pchMergedMiningHeader <+: tx.firstScript.drop j →
    j = before.length
  notBefore : ∀ j < first, ¬ (computeMerkleRoot leaves).1.data.reverse <+: tx.firstScript.drop j
  branch : ap.merkleBranch = siblings (tx.getHash :: txids) 0
  root : ap.parentBlock.hashMerkleRoot = (computeMerkleRoot (tx.getHash :: txids)).1

variable {ap : CAuxPow} {chainId : Int32} {k : Nat} {leaves txids : List Uint256} {nonce : UInt32}
  {tx : CTransaction} {before after : Bytes}

theorem checkCommitment_complete (hk : ap.vChainMerkleBranch.length = k) (hle : k ≤ 30)
    (hslot : ap.nChainIndex = getExpectedIndex nonce chainId k) :
    ap.checkCommitment chainId (natToLE 4 (2 ^ k) ++ (natToLE 4 nonce.toNat ++ after)) =
      .ok () := by
  have hsize : leToNat (natToLE 4 (2 ^ k)) = 2 ^ k :=
    leToNat_natToLE_of_lt ((Nat.pow_le_pow_right two_pos hle).trans_lt (by decide))
  have hnonce : leToNat (natToLE 4 nonce.toNat) = nonce.toNat :=
    leToNat_natToLE_of_lt nonce.toNat_lt
  have htake : ∀ (n : Nat) (bs : Bytes), (natToLE 4 n ++ bs).take 4 = natToLE 4 n := fun n bs =>
    take_left' (natToLE_length 4 n)
  have hdrop : ∀ (n : Nat) (bs : Bytes), (natToLE 4 n ++ bs).drop 4 = bs := fun n bs =>
    drop_left' (natToLE_length 4 n)
  rw [checkCommitment, if_neg (by simp; omega), htake, hdrop, htake, hsize, hnonce, hk,
    if_neg (not_not.mpr rfl), UInt32.ofNat_toNat, if_neg (not_not.mpr hslot)]

section
variable {first : Nat} (h : ap.Composed chainId k leaves nonce tx txids before after first)

include h

theorem Composed.slot_lt : ap.nChainIndex.toNat < 2 ^ k := by
  rw [h.slot]
  exact getExpectedIndex_lt nonce chainId h.height

theorem Composed.chainBranch_length : ap.vChainMerkleBranch.length = k := by
  rw [h.chainBranch, siblings, length_map, path_length h.leaves_length]
  rw [h.leaves_length]
  exact Nat.lt_two_pow_self.le

end

theorem Composed.script_passes
    (h : ap.Composed chainId k leaves nonce tx txids before after (before.length + 4)) :
    ap.checkScript chainId (computeMerkleRoot leaves).1.data.reverse tx.firstScript = .ok () := by
  have hmagic : search pchMergedMiningHeader tx.firstScript = some before.length := by
    refine search_eq_some ?_ fun j hj hocc => hj.ne (h.once j ?_ hocc)
    · rw [h.script, drop_left]
      exact prefix_append ..
    · rw [h.script, length_append]
      omega
  have hroot : search (computeMerkleRoot leaves).1.data.reverse tx.firstScript =
      some (before.length + 4) := by
    refine search_eq_some ?_ h.notBefore
    rw [h.script, ← drop_drop, drop_left]
    exact prefix_append ..
  have honce :
      ¬ (search pchMergedMiningHeader (tx.firstScript.drop (before.length + 1))).isSome = true := by
    intro hsome
    obtain ⟨j, hj⟩ := Option.isSome_iff_exists.mp hsome
    have hocc := occurs_of_search hj
    rw [drop_drop] at hocc
    have hlen := hocc.length_le
    rw [length_drop, show pchMergedMiningHeader.length = 4 from rfl] at hlen
    have heq := h.once _ (by omega) hocc
    omega
  have hdrop :
      tx.firstScript.drop (before.length + 4 + (computeMerkleRoot leaves).1.data.reverse.length) =
      natToLE 4 (2 ^ k) ++ (natToLE 4 nonce.toNat ++ after) := by
    rw [h.script, ← drop_drop, ← drop_drop, drop_left]
    exact drop_left
  rw [checkScript, hroot]
  simp only [hmagic, if_neg honce, hdrop]
  exact (if_neg (not_not.mpr rfl)).trans
    (checkCommitment_complete h.chainBranch_length h.height h.slot)

/-- A check that is passed has reached the commitment. -/
theorem exists_checkCommitment {root script : Bytes}
    (h : ap.checkScript chainId root script = .ok ()) :
    ∃ after, ap.checkCommitment chainId after = .ok () := by
  unfold checkScript at h
  split at h
  · cases h
  · split at h
    · split_ifs at h
      exact ⟨_, h⟩
    · split_ifs at h
      exact ⟨_, h⟩

/-- A payload that is put together well passes, at every height, for all leaves, nonces and chain
ids and for every parent; and no payload passes whose index is not a slot of its tree. -/
theorem check_complete (params : Params) :
    (∀ {ap : CAuxPow} {chainId : Int32} {k : Nat} {leaves txids : List Uint256} {nonce : UInt32}
      {tx : CTransaction} {before after : Bytes},
      ap.Composed chainId k leaves nonce tx txids before after (before.length + 4) →
      ap.check (leaves.getD ap.nChainIndex.toNat default) chainId params = .ok ()) ∧
    ∀ {ap : CAuxPow} {chainId : Int32} {hashAuxBlock : Uint256},
      2 ^ ap.vChainMerkleBranch.length ≤ ap.nChainIndex.toNat →
      ap.check hashAuxBlock chainId params ≠ .ok () := by
  constructor
  · intro ap chainId k leaves txids nonce tx before after h
    have hlt := h.slot_lt
    have hpow : 2 ^ k ≤ 2 ^ 30 := Nat.pow_le_pow_right two_pos h.height
    have hroot :
        checkMerkleBranch tx.getHash ap.merkleBranch 0 = ap.parentBlock.hashMerkleRoot := by
      rw [h.branch, h.root]
      exact checkMerkleBranch_siblings (x := 0) (by decide) (length_pos_of_mem mem_cons_self)
    have hbytes : ap.rootBytes (leaves.getD ap.nChainIndex.toNat default) =
        (computeMerkleRoot leaves).1.data.reverse := by
      rw [rootBytes, h.chainBranch,
        checkMerkleBranch_siblings (by omega) (by rw [h.leaves_length]; exact hlt)]
    obtain ⟨input, rest, hvin⟩ := exists_cons_of_ne_nil h.inputs
    have hscr := h.script_passes
    rw [CTransaction.firstScript, hvin] at hscr
    rw [check, if_neg (by simp [h.foreign]),
      if_neg (by rw [h.chainBranch_length]; exact h.height.not_gt),
      h.coinbase]
    simp only [hroot, hbytes, hvin]
    exact (if_neg (not_not.mpr rfl)).trans hscr
  · intro ap chainId hashAuxBlock hidx h
    obtain ⟨hle, tx, -, -, -, hscr⟩ := check_ok h
    obtain ⟨after, haft⟩ := exists_checkCommitment hscr
    have hlt := getExpectedIndex_lt (UInt32.ofNat (leToNat ((after.drop 4).take 4))) chainId hle
    rw [← (checkCommitment_ok haft).2.2] at hlt
    omega

theorem check_complete_sample :
    (samplePayload .empty).check (uint256S 0xc41d) 6 mainParams = .ok () := by
  have h : (samplePayload .empty).Composed 6 1 [uint256S 0x51b, uint256S 0xc41d] 1
      ((samplePayload .empty).coinbaseTx.get rfl) [uint256S 0x7a] [] [] 4 :=
    ⟨by decide, rfl, by decide, by decide, rfl, rfl, by decide, by decide +kernel,
      by decide +kernel,
      by decide +kernel, rfl, by decide +kernel⟩
  have hch :
      [uint256S 0x51b, uint256S 0xc41d].getD (samplePayload .empty).nChainIndex.toNat default =
      uint256S 0xc41d := rfl
  rw [← hch]
  exact (check_complete mainParams).1 h

/-- The bytes of the child repeat the end of the magic. -/
def overlappingChild : Uint256 :=
  uint256S 0xbe6d6dbe6d6dbe6d6dbe6d6dbe6d6dbe6d6dbe6d6dbe6d6dbe6d6dbe6d6dbe6d

def overlappingCoinbase : CTransaction :=
  .ofInput ⟨.null, ⟨pchMergedMiningHeader ++ (overlappingChild.data.reverse ++ (natToLE 4 1 ++
    natToLE 4 0)), by simp [pchMergedMiningHeader, overlappingChild.size]⟩, 0, .empty⟩ none

def overlappingPayload : CAuxPow :=
  ⟨some overlappingCoinbase, [], [], 0, ⟨0x10, .zero, overlappingCoinbase.getHash, 0, 0, 0⟩⟩

/-- With the root starting inside the magic as well, the search stops there. -/
theorem overlapping_root_fails :
    overlappingPayload.Composed 6 0 [overlappingChild] 0 overlappingCoinbase [] [] [] 0 ∧
      overlappingPayload.check overlappingChild 6 mainParams =
        .error "Merged mining header is not just before chain merkle root" :=
  ⟨⟨by decide, rfl, by decide, by decide, rfl, rfl, by decide, by decide +kernel, by decide +kernel,
    by decide, rfl, rfl⟩, by decide +kernel⟩

end Lithium.CAuxPow
