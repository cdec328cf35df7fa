import Lithium.Lib.Fallible
import Lithium.Validation.Checks

/-!
# What the hash of a block commits to

The hash of a block covers the eighty bytes of its header. Through the Merkle
root these fix the transactions up to their witnesses, and through the witness
commitment the witnesses as well, each only for blocks that pass the check in
question. The payload is covered by nothing.

Freedom from collisions is asked of each hash function on the strings that the
checks of the two blocks hash.
-/

namespace Lithium
open Lib Crypto List CTransaction Uint256 MerkleTree

/-! ### The strings that are hashed -/

/-- The leaves of the witness tree. -/
def CBlock.witnessLeaves (block : CBlock) : List Uint256 :=
  match block.vtx with
  | [] => []
  | _ :: rest => .zero :: rest.map getWitnessHash

/-- The string of the witness commitment, for a reserved value. -/
def CBlock.commitmentString (block : CBlock) (nonce : Bytes) : Bytes :=
  (blockWitnessMerkleRoot block).1.data ++ nonce

/-- The strings that SHA-256 is applied to when a block is checked. -/
def CBlock.shaStrings (block : CBlock) : List Bytes :=
  (block.vtx.flatMap fun tx => [serTransaction false tx, serTransaction true tx]) ++
    (pairStrings (pairs hashPair block.vtx.length (block.vtx.map getHash)) ++
      (pairStrings (pairs hashPair block.vtx.length block.witnessLeaves) ++
        (coinbaseWitness block).flatMap fun nonce =>
          [block.commitmentString nonce, sha256 (block.commitmentString nonce)]))

/-- Checking a block applies SHA-256 to strings in `S` and Blake-256 to strings
in `T` only. -/
structure CBlock.HashedIn (block : CBlock) (S T : Set Bytes) : Prop where
  sha : ∀ bs ∈ block.shaStrings, bs ∈ S
  blake : serPureHeader block.toCPureBlockHeader ∈ T

namespace CBlock.HashedIn
variable {block : CBlock} {S T : Set Bytes} (h : block.HashedIn S T)
include h

theorem transaction {tx : CTransaction} (htx : tx ∈ block.vtx) (fAllowWitness : Bool) :
    serTransaction fAllowWitness tx ∈ S := by
  refine h.sha _ (mem_append_left _ (mem_flatMap.mpr ⟨tx, htx, ?_⟩))
  cases fAllowWitness <;> simp

theorem root : ∀ bs ∈ block.rootStrings, bs ∈ S := by
  intro bs hbs
  rcases mem_append.mp hbs with hbs | hbs
  · obtain ⟨tx, htx, rfl⟩ := mem_map.mp hbs
    exact h.transaction htx false
  · exact h.sha bs (by simp [shaStrings, hbs])

theorem witnessPairs : ∀ p ∈ pairs hashPair block.vtx.length block.witnessLeaves, p ∈ pairsOver S :=
  mem_pairsOver fun bs hbs => h.sha bs (by simp [shaStrings, hbs])

theorem commitment {nonce : Bytes} (hnonce : coinbaseWitness block = [nonce]) :
    block.commitmentString nonce ∈ S ∧ sha256 (block.commitmentString nonce) ∈ S :=
  ⟨h.sha _ (by simp [shaStrings, hnonce]), h.sha _ (by simp [shaStrings, hnonce])⟩

end CBlock.HashedIn

/-! ### Transactions -/

/-- Lists with equal images under `f` have equal images under `g` if equal values
of `f` give equal values of `g`. -/
theorem map_eq_map_of_imp {α β γ : Type} {f : α → β} {g : α → γ} {xs ys : List α}
    (hfg : ∀ x ∈ xs, ∀ y ∈ ys, f x = f y → g x = g y) (h : xs.map f = ys.map f) :
    xs.map g = ys.map g := by
  induction xs generalizing ys with
  | nil =>
    obtain rfl : ys = [] := by simpa using h.symm
    rfl
  | cons x xs ih =>
    cases ys with
    | nil => simp at h
    | cons y ys =>
      simp only [map_cons, cons.injEq] at h ⊢
      exact ⟨hfg x (by simp) y (by simp) h.1,
        ih (fun a ha b hb => hfg a (by simp [ha]) b (by simp [hb])) h.2⟩

/-! ### What passed checks say -/

theorem checkMerkleRoot_ok {block : CBlock} (h : checkMerkleRoot block = .ok ()) :
    block.hashMerkleRoot = (blockMerkleRoot block).1 ∧ (blockMerkleRoot block).2 = false := by
  rw [checkMerkleRoot] at h
  dsimp only at h
  split_ifs at h with hroot hmutated
  exact ⟨not_not.mp hroot, Bool.eq_false_iff.mpr hmutated⟩

theorem checkTransaction_vin {tx : CTransaction} (h : checkTransaction tx = .ok ()) :
    tx.vin ≠ [] := by
  intro hnil
  simp [checkTransaction, hnil] at h

theorem checkTransactions_vin {vtx : List CTransaction} (h : checkTransactions vtx = .ok ()) :
    ∀ tx ∈ vtx, tx.vin ≠ [] :=
  fun tx htx => checkTransaction_vin (checkTransactions_ok h tx htx)

theorem exists_coinbase_input {block : CBlock} (h : checkCoinbases block = .ok ()) :
    ∃ coinbase rest input, block.vtx = coinbase :: rest ∧ coinbase.vin = [input] := by
  obtain ⟨coinbase, rest, hvtx, hcb, -⟩ := checkCoinbases_ok h
  rw [isCoinBase] at hcb
  split at hcb
  · next input hvin => exact ⟨coinbase, rest, input, hvtx, hvin⟩
  · cases hcb

/-! ### The committed part -/

/-- What the hash of a block commits to: the header and the transactions without
their witnesses. -/
def CBlock.committed (block : CBlock) : CBlock :=
  { block with auxpow := none, vtx := block.vtx.map stripWitness }

section Txids
variable {S T : Set Bytes} (hsha : Set.InjOn sha256 S) {b₁ b₂ : CBlock}
  (h₁ : b₁.HashedIn S T) (h₂ : b₂.HashedIn S T)
include hsha h₁ h₂

/-- Equal Merkle roots that pass the check give equal transactions, up to
witnesses. -/
theorem stripped_vtx_eq (hne₁ : b₁.vtx ≠ []) (hne₂ : b₂.vtx ≠ [])
    (hvin₁ : ∀ tx ∈ b₁.vtx, tx.vin ≠ []) (hvin₂ : ∀ tx ∈ b₂.vtx, tx.vin ≠ [])
    (hroot₁ : checkMerkleRoot b₁ = .ok ()) (hroot₂ : checkMerkleRoot b₂ = .ok ())
    (hroot : b₁.hashMerkleRoot = b₂.hashMerkleRoot) :
    b₁.vtx.map stripWitness = b₂.vtx.map stripWitness := by
  obtain ⟨heq₁, hmutated₁⟩ := checkMerkleRoot_ok hroot₁
  obtain ⟨heq₂, hmutated₂⟩ := checkMerkleRoot_ok hroot₂
  have htxids := txids_eq_of_root_eq hsha h₁.root h₂.root hne₁ hne₂ hvin₁ hvin₂ hmutated₁ hmutated₂
    (by rw [← heq₁, ← heq₂, hroot])
  refine map_eq_map_of_imp (fun tx htx tx' htx' hid => ?_) htxids
  have hbytes := hsha (h₁.transaction htx false) (h₂.transaction htx' false) (congrArg data hid)
  exact (serTransaction_stripped_inj (r := []) (s := []) (by rw [hbytes])).1

/-- Two blocks with one hash that pass `checkBlock` have the same committed part. -/
theorem committed_eq (hblake : Set.InjOn hashblake256 T) {env : ChainEnv} {fCheckPOW : Bool}
    (hck₁ : checkBlock env b₁ fCheckPOW = .ok ()) (hck₂ : checkBlock env b₂ fCheckPOW = .ok ())
    (hhash : b₁.getHash = b₂.getHash) : b₁.committed = b₂.committed := by
  have hpure := serPureHeader_injective (hblake h₁.blake h₂.blake hhash)
  rw [checkBlock_ok_iff] at hck₁ hck₂
  obtain ⟨-, -, hroot₁, -, hcb₁, htxs₁, -⟩ := hck₁
  obtain ⟨-, -, hroot₂, -, hcb₂, htxs₂, -⟩ := hck₂
  obtain ⟨coinbase₁, rest₁, hvtx₁, -⟩ := checkCoinbases_ok hcb₁
  obtain ⟨coinbase₂, rest₂, hvtx₂, -⟩ := checkCoinbases_ok hcb₂
  have hvtx := stripped_vtx_eq hsha h₁ h₂ (by simp [hvtx₁]) (by simp [hvtx₂])
    (checkTransactions_vin htxs₁) (checkTransactions_vin htxs₂) hroot₁ hroot₂
    (congrArg CPureBlockHeader.hashMerkleRoot hpure)
  simp [CBlock.committed, hpure, hvtx]

end Txids

/-! ### Checks that read the committed part only -/

section
variable (params : Params) (branch : Branch) (block : CBlock)

@[simp] theorem isFinalTx_stripWitness (tx : CTransaction) (nBlockHeight nBlockTime : Int) :
    isFinalTx tx.stripWitness nBlockHeight nBlockTime = isFinalTx tx nBlockHeight nBlockTime := by
  simp only [isFinalTx, stripWitness, all_map]
  rfl

theorem checkFinality_committed :
    checkFinality params branch block.committed = checkFinality params branch block := by
  simp [checkFinality, CBlock.committed, all_map, Function.comp_def]

theorem coinbaseScriptSig_committed :
    coinbaseScriptSig block.committed = coinbaseScriptSig block := by
  obtain ⟨header, vtx⟩ := block
  rcases vtx with _ | ⟨⟨nVersion, vin, vout, nLockTime, hvin, hvout⟩, rest⟩
  · rfl
  · rcases vin with _ | ⟨input, vin⟩ <;> rfl

theorem checkCoinbaseHeight_committed : checkCoinbaseHeight params branch block.committed =
      checkCoinbaseHeight params branch block := by
  rw [checkCoinbaseHeight, checkCoinbaseHeight, coinbaseScriptSig_committed]

theorem getWitnessCommitmentIndex_committed :
    getWitnessCommitmentIndex block.committed = getWitnessCommitmentIndex block := by
  obtain ⟨header, vtx⟩ := block
  cases vtx <;> rfl

theorem coinbaseOutputScript_committed (o : Nat) :
    coinbaseOutputScript block.committed o = coinbaseOutputScript block o := by
  obtain ⟨header, vtx⟩ := block
  cases vtx <;> rfl

end

/-! ### Witnesses -/

/-- The output that commits to the witnesses, where one is expected. -/
def commitmentOutput (block : CBlock) (expectWitnessCommitment : Bool) : Option Nat :=
  if expectWitnessCommitment then getWitnessCommitmentIndex block else none

theorem commitmentOutput_congr {b₁ b₂ : CBlock} (h : b₁.committed = b₂.committed) (expect : Bool) :
    commitmentOutput b₁ expect = commitmentOutput b₂ expect := by
  rw [commitmentOutput, commitmentOutput, ← getWitnessCommitmentIndex_committed b₁, h,
    getWitnessCommitmentIndex_committed]

variable {expect : Bool}

/-- Without a commitment there are no witnesses. -/
theorem checkWitnessMalleation_none {block : CBlock}
    (h : checkWitnessMalleation block expect = .ok ())
    (hnone : commitmentOutput block expect = none) : ∀ tx ∈ block.vtx, tx.hasWitness = false := by
  rw [commitmentOutput] at hnone
  simp only [checkWitnessMalleation, hnone] at h
  split_ifs at h with hany
  simpa using hany

/-- With a commitment the reserved value and the root of the witness tree hash
to it. -/
theorem checkWitnessMalleation_some {block : CBlock} {o : Nat}
    (h : checkWitnessMalleation block expect = .ok ())
    (hsome : commitmentOutput block expect = some o) :
    ∃ nonce, coinbaseWitness block = [nonce] ∧ nonce.length = 32 ∧
      (hash256 (block.commitmentString nonce)).data =
        ((coinbaseOutputScript block o).drop 6).take 32 := by
  rw [commitmentOutput] at hsome
  simp only [checkWitnessMalleation, hsome] at h
  split at h
  · rename_i nonce hnonce
    split_ifs at h with hlen hhash
    exact ⟨nonce, hnonce, not_not.mp hlen, not_not.mp hhash⟩
  · cases h

/-- Only the witness check reports a mutated block. -/
theorem checkWitnessMalleation_error {block : CBlock} {e : Invalid}
    (h : checkWitnessMalleation block expect = .error e) : e.result = .mutated := by
  rw [checkWitnessMalleation] at h
  split at h
  · split at h
    · split_ifs at h <;> cases h <;> rfl
    · cases h
      rfl
  · split_ifs at h
    cases h
    rfl

/-- A transaction with one input is determined by its basic format and the
witness of the input. -/
theorem eq_of_stripWitness_eq {tx₁ tx₂ : CTransaction} {input₁ input₂ : CTxIn}
    (hvin₁ : tx₁.vin = [input₁]) (hvin₂ : tx₂.vin = [input₂])
    (hstr : tx₁.stripWitness = tx₂.stripWitness)
    (hwit : input₁.scriptWitness.stack = input₂.scriptWitness.stack) : tx₁ = tx₂ := by
  obtain ⟨nVersion₁, vin₁, vout₁, nLockTime₁, hlt₁, hout₁⟩ := tx₁
  obtain ⟨nVersion₂, vin₂, vout₂, nLockTime₂, hlt₂, hout₂⟩ := tx₂
  obtain ⟨prevout₁, scriptSig₁, nSequence₁, ⟨stack₁, hstk₁, hitems₁⟩⟩ := input₁
  obtain ⟨prevout₂, scriptSig₂, nSequence₂, ⟨stack₂, hstk₂, hitems₂⟩⟩ := input₂
  subst hvin₁ hvin₂ hwit
  simpa [stripWitness, CTxIn.stripWitness] using hstr

section Witnesses
variable {S T : Set Bytes} (hsha : Set.InjOn sha256 S) {b₁ b₂ : CBlock}
  (h₁ : b₁.HashedIn S T) (h₂ : b₂.HashedIn S T)
include hsha h₁ h₂

/-- The witness commitment fixes the reserved value and the root. -/
theorem commitmentString_inj {nonce₁ nonce₂ : Bytes} (hnonce₁ : coinbaseWitness b₁ = [nonce₁])
    (hnonce₂ : coinbaseWitness b₂ = [nonce₂])
    (h : hash256 (b₁.commitmentString nonce₁) = hash256 (b₂.commitmentString nonce₂)) :
    (blockWitnessMerkleRoot b₁).1 = (blockWitnessMerkleRoot b₂).1 ∧ nonce₁ = nonce₂ := by
  have hdouble : sha256 (sha256 (b₁.commitmentString nonce₁)) =
      sha256 (sha256 (b₂.commitmentString nonce₂)) := congrArg data h
  obtain ⟨hmem₁, hdigest₁⟩ := h₁.commitment hnonce₁
  obtain ⟨hmem₂, hdigest₂⟩ := h₂.commitment hnonce₂
  have hbytes := hsha hmem₁ hmem₂ (hsha hdigest₁ hdigest₂ hdouble)
  obtain ⟨hroot, hnonce⟩ := append_inj hbytes (by rw [size, size])
  exact ⟨ext_data hroot, hnonce⟩

theorem witnessLeaves_eq (hlen : b₁.vtx.length = b₂.vtx.length)
    (hroot : (blockWitnessMerkleRoot b₁).1 = (blockWitnessMerkleRoot b₂).1) :
    b₁.witnessLeaves = b₂.witnessLeaves := by
  have hleaves (b : CBlock) : b.witnessLeaves.length = b.vtx.length := by
    obtain ⟨header, vtx⟩ := b
    cases vtx <;> simp [CBlock.witnessLeaves]
  have hroot' (b : CBlock) : (blockWitnessMerkleRoot b).1 =
      root hashPair b.vtx.length b.witnessLeaves := by
    rw [← hleaves b]
    exact congrArg Prod.fst (computeMerkleRootLoop_eq _ _ _)
  rw [hroot', hroot', ← hlen] at hroot
  refine root_inj_of_length_eq (hashPair_injOn hsha) (hleaves b₁).le
    (by rw [hleaves, hleaves, hlen]) h₁.witnessPairs (hlen ▸ h₂.witnessPairs) hroot

/-- Two blocks with the same committed part that pass the witness check have the
same transactions. -/
theorem vtx_eq (hcom : b₁.committed = b₂.committed) (hcb₁ : checkCoinbases b₁ = .ok ())
    (hcb₂ : checkCoinbases b₂ = .ok ()) (hvin₁ : ∀ tx ∈ b₁.vtx, tx.vin ≠ [])
    (hvin₂ : ∀ tx ∈ b₂.vtx, tx.vin ≠ []) (hwit₁ : checkWitnessMalleation b₁ expect = .ok ())
    (hwit₂ : checkWitnessMalleation b₂ expect = .ok ()) : b₁.vtx = b₂.vtx := by
  have hstr : b₁.vtx.map stripWitness = b₂.vtx.map stripWitness :=
    congrArg CBlock.vtx hcom
  cases hout : commitmentOutput b₁ expect with
  | none =>
    have hnone₁ := checkWitnessMalleation_none hwit₁ hout
    have hnone₂ := checkWitnessMalleation_none hwit₂
      ((commitmentOutput_congr hcom expect).symm.trans hout)
    rw [map_congr_left fun tx htx => stripWitness_of_not_hasWitness (hnone₁ tx htx),
      map_congr_left fun tx htx => stripWitness_of_not_hasWitness (hnone₂ tx htx)] at hstr
    simpa using hstr
  | some o =>
    obtain ⟨nonce₁, hnonce₁, -, hhash₁⟩ := checkWitnessMalleation_some hwit₁ hout
    obtain ⟨nonce₂, hnonce₂, -, hhash₂⟩ := checkWitnessMalleation_some hwit₂
      ((commitmentOutput_congr hcom expect).symm.trans hout)
    have hscr : coinbaseOutputScript b₁ o = coinbaseOutputScript b₂ o := by
      rw [← coinbaseOutputScript_committed b₁, hcom, coinbaseOutputScript_committed]
    obtain ⟨hroot, rfl⟩ := commitmentString_inj hsha h₁ h₂ hnonce₁ hnonce₂
      (ext_data (by rw [hhash₁, hhash₂, hscr]))
    have hleaves := witnessLeaves_eq hsha h₁ h₂ (by simpa using congrArg length hstr) hroot
    obtain ⟨coinbase₁, rest₁, input₁, hvtx₁, hin₁⟩ := exists_coinbase_input hcb₁
    obtain ⟨coinbase₂, rest₂, input₂, hvtx₂, hin₂⟩ := exists_coinbase_input hcb₂
    simp only [CBlock.witnessLeaves, hvtx₁, hvtx₂, cons.injEq, true_and] at hleaves
    simp only [hvtx₁, hvtx₂, map_cons, cons.injEq] at hstr
    simp only [coinbaseWitness, hvtx₁, hvtx₂, head?_cons, Option.bind_some, hin₁,
      hin₂] at hnonce₁ hnonce₂
    -- The witness tree covers all transactions but the coinbase, whose witness
    -- is the reserved value.
    have hcb : coinbase₁ = coinbase₂ :=
      eq_of_stripWitness_eq hin₁ hin₂ hstr.1 (hnonce₁.trans hnonce₂.symm)
    have hrest : rest₁.map id = rest₂.map id := by
      refine map_eq_map_of_imp (fun tx htx tx' htx' hid => ?_) hleaves
      have htx₁ : tx ∈ b₁.vtx := by simp [hvtx₁, htx]
      have htx₂ : tx' ∈ b₂.vtx := by simp [hvtx₂, htx']
      rw [getWitnessHash_eq, getWitnessHash_eq] at hid
      have hbytes := hsha (h₁.transaction htx₁ true) (h₂.transaction htx₂ true) (congrArg data hid)
      exact serTransaction_inj (hvin₁ tx htx₁) (hvin₂ tx' htx₂) hbytes
    rw [hvtx₁, hvtx₂, hcb]
    simpa using hrest

end Witnesses
end Lithium
