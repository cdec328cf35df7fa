import Lithium.AuxPow

/-!
# One parent proof serves one child

Two payloads with the same parent header and the merged-mining magic in their
coinbase scripts cannot both pass the check for different children. The
argument walks down from the parent's root: the root fixes the coinbase
transaction (an inner node is a double hash of 64 bytes, a transaction
identifier a single hash of a longer string, so the two trees need not have
the same depth), the script fixes the root of the tree of chains, its size and
the nonce, these fix the slot, and root and slot fix the child.

Freedom from collisions is asked of SHA-256 on the strings that the two checks
hash. These are listed by `hashedStrings`; the double hash of a pair also
hashes the digest of the pair.
-/

namespace Lithium
open Lib Crypto List Option Uint256
variable {tx txa txb : CTransaction} {chainId : Int32} {headerPos : Nat}

/-! ### Hashing pairs -/

/-- The strings that hashing a list of pairs hashes. -/
def pairStrings (pairs : List (Uint256 × Uint256)) : List Bytes :=
  pairs.flatMap fun p => [p.1.data ++ p.2.data, sha256 (p.1.data ++ p.2.data)]

/-- The pairs both of whose strings lie in `T`. -/
def pairsOver (T : Set Bytes) : Set (Uint256 × Uint256) :=
  {p | p.1.data ++ p.2.data ∈ T ∧ sha256 (p.1.data ++ p.2.data) ∈ T}

variable {T : Set Bytes}

theorem hashPair_injOn (hinj : Set.InjOn sha256 T) :
    Set.InjOn (fun p : Uint256 × Uint256 => hashPair p.1 p.2) (pairsOver T) := by
  intro p hp q hq h
  have hdouble : sha256 (sha256 (p.1.data ++ p.2.data)) = sha256 (sha256 (q.1.data ++ q.2.data)) :=
    congrArg data h
  have hsing := hinj hp.1 hq.1 (hinj hp.2 hq.2 hdouble)
  obtain ⟨hleft, hright⟩ := append_inj hsing (by rw [p.1.size, q.1.size])
  exact Prod.ext (ext_data hleft) (ext_data hright)

/-- An inner node is not the single hash of a string that is not a digest. -/
theorem hashPair_ne_sha256Once (hinj : Set.InjOn sha256 T) {bs : Bytes} (hmem : bs ∈ T)
    (hlen : bs.length ≠ 32) : ∀ p ∈ pairsOver T, hashPair p.1 p.2 ≠ sha256Once bs := by
  rintro ⟨a, b⟩ ⟨-, hdigest⟩ h
  have hbytes : sha256 (sha256 (a.data ++ b.data)) = sha256 bs := congrArg data h
  have heq := hinj hdigest hmem hbytes
  exact hlen (by rw [← heq, sha256_length])

theorem mem_pairsOver {pairs : List (Uint256 × Uint256)} (h : ∀ bs ∈ pairStrings pairs, bs ∈ T) :
    ∀ p ∈ pairs, p ∈ pairsOver T := by
  intro p hp
  constructor
  · exact h _ (mem_flatMap.mpr ⟨p, hp, by simp⟩)
  · exact h _ (mem_flatMap.mpr ⟨p, hp, by simp⟩)

namespace CAuxPow

/-! ### Branches as paths -/

/-- The sides and siblings that an index selects on a branch. -/
def branchPath : List Uint256 → Int32 → List (Bool × Uint256)
  | [], _ => []
  | branchHash :: branch, index => (index &&& 1 != 0, branchHash) :: branchPath branch (index >>> 1)

theorem checkMerkleBranchLoop_eq_climb (hash : Uint256) (branch : List Uint256) (index : Int32) :
    checkMerkleBranchLoop hash branch index = climb hashPair hash (branchPath branch index) := by
  induction branch generalizing hash index with
  | nil => rfl
  | cons branchHash branch ih =>
    rw [checkMerkleBranchLoop, ih]
    rfl

variable (branch : List Uint256)

theorem branchPath_siblings (index : Int32) : (branchPath branch index).map Prod.snd = branch := by
  induction branch generalizing index with
  | nil => rfl
  | cons branchHash branch ih => simp [branchPath, ih]

@[simp] theorem branchPath_length (index : Int32) :
    (branchPath branch index).length = branch.length := by
  rw [← length_map Prod.snd, branchPath_siblings]

/-- The sides depend on the index and the length only. -/
theorem branchPath_sides {branch branch' : List Uint256} (h : branch.length = branch'.length)
    (index : Int32) :
    (branchPath branch index).map Prod.fst = (branchPath branch' index).map Prod.fst := by
  induction branch generalizing branch' index with
  | nil =>
    obtain rfl : branch' = [] := length_eq_zero_iff.mp h.symm
    rfl
  | cons branchHash branch ih =>
    cases branch' with
    | nil => simp at h
    | cons branchHash' branch' => simp [branchPath, ih (by simpa using h)]

/-- The leftmost leaf has every sibling on its right. -/
theorem branchPath_zero : ∀ s ∈ branchPath branch 0, s.1 = false := by
  induction branch with
  | nil => simp [branchPath]
  | cons branchHash branch ih =>
    intro s hs
    rcases mem_cons.mp hs with rfl | hs
    · rfl
    · exact ih s hs

/-- The strings that SHA-256 is applied to in `check`. -/
def hashedStrings (ap : CAuxPow) (hashAuxBlock : Uint256) : List Bytes := (match ap.coinbaseTx with
    | some tx => serTransaction false tx ::
        pairStrings (climbPairs hashPair tx.getHash (branchPath ap.merkleBranch 0))
    | none => []) ++
    pairStrings (climbPairs hashPair hashAuxBlock
      (branchPath ap.vChainMerkleBranch ap.nChainIndex.toInt32))

def HasMagic (ap : CAuxPow) : Prop := pchMergedMiningHeader <:+: ap.scriptSig

/-! ### From the parent's root to the script -/

variable {ap : CAuxPow}

theorem hashedStrings_coinbase (htx : ap.coinbaseTx = some tx) (h : Uint256) :
    serTransaction false tx ∈ ap.hashedStrings h := by
  simp [hashedStrings, htx]

theorem hashedStrings_merkleBranch (htx : ap.coinbaseTx = some tx) (h : Uint256) :
    ∀ bs ∈ pairStrings (climbPairs hashPair tx.getHash (branchPath ap.merkleBranch 0)),
      bs ∈ ap.hashedStrings h := by
  intro bs hbs
  simp [hashedStrings, htx, hbs]

theorem hashedStrings_chainBranch (ap : CAuxPow) (h : Uint256) :
    ∀ bs ∈ pairStrings (climbPairs hashPair h
      (branchPath ap.vChainMerkleBranch ap.nChainIndex.toInt32)), bs ∈ ap.hashedStrings h := by
  intro bs hbs
  exact mem_append_right _ hbs

variable {a b : CAuxPow}

/-- The parent's root fixes the coinbase transaction up to its witness, and
the branch above it whatever its length. -/
theorem coinbase_determined (hinj : Set.InjOn sha256 T) {ha hb : Uint256}
    (hTa : ∀ bs ∈ a.hashedStrings ha, bs ∈ T) (hTb : ∀ bs ∈ b.hashedStrings hb, bs ∈ T)
    (htxa : a.coinbaseTx = some txa) (htxb : b.coinbaseTx = some txb)
    (hvina : txa.vin ≠ []) (hvinb : txb.vin ≠ [])
    (hroot : checkMerkleBranch txa.getHash a.merkleBranch 0 =
      checkMerkleBranch txb.getHash b.merkleBranch 0) :
    txa.stripWitness = txb.stripWitness ∧ a.merkleBranch = b.merkleBranch := by
  have hleaf {tx : CTransaction} (hvin : tx.vin ≠ []) (hmem : serTransaction false tx ∈ T) :=
    hashPair_ne_sha256Once hinj hmem (by have := serTransaction_stripped_length hvin; omega)
  have hmema := hTa _ (hashedStrings_coinbase htxa ha)
  have hmemb := hTb _ (hashedStrings_coinbase htxb hb)
  rw [checkMerkleBranch, checkMerkleBranch, if_neg (by decide), if_neg (by decide),
    checkMerkleBranchLoop_eq_climb, checkMerkleBranchLoop_eq_climb] at hroot
  obtain ⟨hid, hpath⟩ := climb_inj_of_leaf (hashPair_injOn hinj) (branchPath_zero _)
    (branchPath_zero _) (hleaf hvina hmema) (hleaf hvinb hmemb)
    (mem_pairsOver fun bs hbs => hTa _ (hashedStrings_merkleBranch htxa ha bs hbs))
    (mem_pairsOver fun bs hbs => hTb _ (hashedStrings_merkleBranch htxb hb bs hbs)) hroot
  constructor
  · have hbytes := hinj hmema hmemb (congrArg data hid)
    exact (serTransaction_stripped_inj (r := []) (s := []) (by rw [hbytes])).1
  · rw [← branchPath_siblings a.merkleBranch 0, hpath, branchPath_siblings]

theorem scriptSig_of_stripWitness (htxa : a.coinbaseTx = some txa)
    (htxb : b.coinbaseTx = some txb) (h : txa.stripWitness = txb.stripWitness) :
    a.scriptSig = b.scriptSig := by
  rw [scriptSig, scriptSig, htxa, htxb, map_some, map_some, getD_some,
    getD_some, ← CTransaction.firstScript_stripWitness txa, h,
    CTransaction.firstScript_stripWitness]

/-! ### From the script to the child -/

theorem getExpectedIndex_lt (nonce : UInt32) (chainId : Int32) {height : Nat} (h : height ≤ 30) :
    (getExpectedIndex nonce chainId height).toNat < 2 ^ height := by
  have hpow : 2 ^ height ≤ 2 ^ 30 := Nat.pow_le_pow_right (by norm_num) h
  have hpos : 0 < 2 ^ height := Nat.two_pow_pos height
  unfold getExpectedIndex
  rw [UInt32.toNat_mod, UInt32.toNat_ofNat', Nat.mod_eq_of_lt (b := 2 ^ 32) (by omega)]
  exact Nat.mod_lt _ hpos

theorem toInt32_ne_neg_one {x : UInt32} (h : x.toNat < 2 ^ 30) : x.toInt32 ≠ -1 := by
  intro heq
  have hback : x = (-1 : Int32).toUInt32 := by rw [← heq, UInt32.toUInt32_toInt32]
  rw [hback] at h
  exact absurd h (by decide)

/-- What the script says about the tree of chains. -/
structure Commitment (ap : CAuxPow) (chainId : Int32) (h : Uint256) (headerPos : Nat) : Prop where
  root : (ap.scriptSig.drop (headerPos + 4)).take 32 = ap.rootBytes h
  size : leToNat ((ap.scriptSig.drop (headerPos + 36)).take 4) = 2 ^ ap.vChainMerkleBranch.length
  slot : ap.nChainIndex = getExpectedIndex
    (UInt32.ofNat (leToNat (((ap.scriptSig.drop (headerPos + 36)).drop 4).take 4))) chainId
    ap.vChainMerkleBranch.length

@[simp] theorem rootBytes_length (ap : CAuxPow) (h : Uint256) : (ap.rootBytes h).length = 32 := by
  rw [rootBytes, length_reverse, size]

theorem commitment_of_checkScript {h : Uint256}
    (hmagic : search pchMergedMiningHeader ap.scriptSig = some headerPos)
    (hck : ap.checkScript chainId (ap.rootBytes h) ap.scriptSig = .ok ()) :
    ap.Commitment chainId h headerPos := by
  obtain ⟨hroot, haft⟩ := checkScript_ok hmagic hck
  obtain ⟨-, hsize, hslot⟩ := checkCommitment_ok haft
  rw [rootBytes_length, show headerPos + 4 + 32 = headerPos + 36 by omega] at hsize hslot
  refine ⟨?_, hsize, hslot⟩
  rw [← rootBytes_length ap h]
  exact (prefix_iff_eq_take.mp hroot).symm

/-- A script with the magic at one place says one thing only. -/
theorem Commitment.determined (hinj : Set.InjOn sha256 T) {ha hb : Uint256}
    (hscr : a.scriptSig = b.scriptSig)
    (hca : a.Commitment chainId ha headerPos) (hcb : b.Commitment chainId hb headerPos)
    (hlen : a.vChainMerkleBranch.length ≤ 30) (hTa : ∀ bs ∈ a.hashedStrings ha, bs ∈ T)
    (hTb : ∀ bs ∈ b.hashedStrings hb, bs ∈ T) :
    ha = hb ∧ a.vChainMerkleBranch = b.vChainMerkleBranch ∧ a.nChainIndex = b.nChainIndex := by
  have hlength : a.vChainMerkleBranch.length = b.vChainMerkleBranch.length := by
    have hpow := hca.size
    rw [hscr, hcb.size] at hpow
    exact (Nat.pow_right_injective le_rfl hpow).symm
  have hidx : a.nChainIndex = b.nChainIndex := by
    rw [hca.slot, hcb.slot, hscr, hlength]
  have hne : a.nChainIndex.toInt32 ≠ -1 := by
    apply toInt32_ne_neg_one
    rw [hca.slot]
    exact (getExpectedIndex_lt _ _ hlen).trans_le (Nat.pow_le_pow_right two_pos hlen)
  have hroots : checkMerkleBranch ha a.vChainMerkleBranch a.nChainIndex.toInt32 =
      checkMerkleBranch hb b.vChainMerkleBranch b.nChainIndex.toInt32 := by
    have hbytes : a.rootBytes ha = b.rootBytes hb := by rw [← hca.root, ← hcb.root, hscr]
    exact ext_data (reverse_injective hbytes)
  rw [← hidx, checkMerkleBranch, checkMerkleBranch, if_neg hne, if_neg hne,
    checkMerkleBranchLoop_eq_climb, checkMerkleBranchLoop_eq_climb] at hroots
  have hpairsb := hashedStrings_chainBranch b hb
  rw [← hidx] at hpairsb
  obtain ⟨hch, hpath⟩ := climb_inj (hashPair_injOn hinj) (by simpa using hlength)
    (branchPath_sides hlength _)
    (mem_pairsOver fun bs hbs => hTa _ (hashedStrings_chainBranch a ha bs hbs))
    (mem_pairsOver fun bs hbs => hTb _ (hpairsb bs hbs)) hroots
  refine ⟨hch, ?_, hidx⟩
  rw [← branchPath_siblings a.vChainMerkleBranch a.nChainIndex.toInt32, hpath, branchPath_siblings]

/-- One parent header proves work for at most one child: if two payloads with
this parent pass the check, one of them has the magic in its script, and
SHA-256 has no collision among the strings hashed by the two checks, then the
children are equal, and so are the scripts, with the root, size and nonce in
them, both branches and the slot. -/
theorem check_binds_child {a b : CAuxPow} {ha hb : Uint256} {chainId : Int32} {params : Params}
    (hpar : a.parentBlock = b.parentBlock) (hmagic : a.HasMagic)
    (hcoll : Set.InjOn sha256 {bs | bs ∈ a.hashedStrings ha ∨ bs ∈ b.hashedStrings hb})
    (hchecka : a.check ha chainId params = .ok ()) (hcheckb : b.check hb chainId params = .ok ()) :
    ha = hb ∧ a.scriptSig = b.scriptSig ∧ a.rootBytes ha = b.rootBytes hb ∧
      a.merkleBranch = b.merkleBranch ∧ a.vChainMerkleBranch = b.vChainMerkleBranch ∧
      a.nChainIndex = b.nChainIndex := by
  obtain ⟨hlena, txa, htxa, hvina, hroota, hscripta⟩ := check_ok hchecka
  obtain ⟨-, txb, htxb, hvinb, hrootb, hscriptb⟩ := check_ok hcheckb
  obtain ⟨hstr, hbr⟩ := coinbase_determined hcoll (fun _ h => Or.inl h)
    (fun _ h => Or.inr h) htxa htxb hvina hvinb (by rw [hroota, hrootb, hpar])
  have hscr := scriptSig_of_stripWitness htxa htxb hstr
  obtain ⟨headerPos, hpos⟩ := isSome_iff_exists.mp (search_isSome_of_occurs hmagic)
  have hcommita := commitment_of_checkScript hpos hscripta
  have hcommitb := commitment_of_checkScript (hscr ▸ hpos) hscriptb
  obtain ⟨hch, hchain, hidx⟩ := hcommita.determined hcoll hscr hcommitb hlena
    (fun _ h => Or.inl h) (fun _ h => Or.inr h)
  refine ⟨hch, hscr, ?_, hbr, hchain, hidx⟩
  rw [← hcommita.root, ← hcommitb.root, hscr]

/-- A payload whose two trees have two leaves each. The witness of its coinbase
transaction is not covered by any hash. -/
def samplePayload (witness : CScriptWitness) : CAuxPow :=
  let chainRoot := checkMerkleBranch (uint256S 0xc41d) [uint256S 0x51b] 1
  let script := pchMergedMiningHeader ++ (chainRoot.data.reverse ++ (natToLE 4 2 ++ natToLE 4 1))
  let tx : CTransaction :=
    .ofInput ⟨.null, ⟨script, by simp [script, pchMergedMiningHeader, chainRoot.size]⟩,
      0xffffffff, witness⟩ none
  { coinbaseTx := some tx
    merkleBranch := [uint256S 0x7a]
    vChainMerkleBranch := [uint256S 0x51b]
    nChainIndex := 1
    parentBlock := ⟨0x10, .zero, checkMerkleBranch tx.getHash [uint256S 0x7a] 0, 0, 0, 0⟩ }

theorem check_binds_child_sample :
    (samplePayload .empty).scriptSig = (samplePayload ⟨[[0x01]], by simp, by simp⟩).scriptSig := by
  have hchecka : (samplePayload .empty).check (uint256S 0xc41d) 6 mainParams = .ok () := by
    decide +kernel
  have hcheckb : (samplePayload ⟨[[0x01]], by simp, by simp⟩).check (uint256S 0xc41d) 6
      mainParams = .ok () := by
    decide +kernel
  have hcoll : ∀ x ∈ (samplePayload .empty).hashedStrings (uint256S 0xc41d),
      ∀ y ∈ (samplePayload .empty).hashedStrings (uint256S 0xc41d), sha256 x = sha256 y →
        x = y := by
    decide +kernel
  refine (check_binds_child rfl ?_ ?_ hchecka hcheckb).2.1
  · exact ⟨[], _, rfl⟩
  · intro x hx y hy h
    -- the witness is in none of the hashed strings, so both lists are the same
    exact hcoll x (hx.elim id id) y (hy.elim id id) h

end CAuxPow
end Lithium
