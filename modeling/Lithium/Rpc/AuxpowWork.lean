import Lithium.Lib.Fallible
import Lithium.Rpc.AuxpowMiner

/-!
# What the template cache guarantees

Over every sequence of calls the cache stays within its bound, holds templates
of one tip only, and files each under its own hash. Whether the template that
a call returns is still there afterwards is another matter: it is, unless the
cache was full and the new hash sorts below every hash in it.
-/

namespace Lithium.AuxpowMiner
open Lithium.Lib List OrdMap UInt32
variable {m : OrdMap Uint256 CBlock} {s : AuxpowMiner} {block : CBlock} {k : Nat}
variable {req : AuxRequest} {json : AuxBlockJson}

/-! ### One insertion -/

theorem trim_eq (h : m.size ≤ maxAuxpowBlockCache + 1) :
    trim m = if m.size = maxAuxpowBlockCache + 1 then m.eraseMin else m := by
  rw [trim]
  cases hsize : m.size with
  | zero => simp [trimLoop]
  | succ n =>
    have herase := m.size_eraseMin
    rw [trimLoop]
    split_ifs with hfull hone hone
    · -- One entry too many: the loop stops at the next test.
      cases n with
      | zero => rfl
      | succ n => rw [trimLoop, if_neg (by omega)]
    · omega
    · omega
    · rfl

/-- The cache keeps a new key: it is not full, knows the key already, or holds
a smaller one. -/
def RoomFor (m : OrdMap Uint256 CBlock) (hash : Uint256) : Prop :=
  m.size < maxAuxpowBlockCache ∨ (m.find? hash).isSome ∨ ∃ k b, m.find? k = some b ∧ k < hash

section
variable (hm : m.size ≤ maxAuxpowBlockCache)

include hm

theorem find?_trim_insert (hash : Uint256) (b : CBlock) :
    (trim (m.insert hash b)).find? hash = some b ↔ RoomFor m hash := by
  have hsize := m.size_insert hash b
  have hself := m.find?_insert_self hash b
  rw [trim_eq (by split_ifs at hsize <;> omega)]
  split_ifs at hsize ⊢ with hfull hmem hmem
  · omega
  · rw [find?_eraseMin _ hself]
    constructor
    · rintro ⟨k, w, hk, hlt⟩
      rw [m.find?_insert_of_ne b hlt.ne'] at hk
      exact Or.inr (Or.inr ⟨k, w, hk, hlt⟩)
    · rintro (hroom | hroom | ⟨k, w, hk, hlt⟩)
      · omega
      · exact absurd hroom hmem
      · exact ⟨k, w, by rw [m.find?_insert_of_ne b hlt.ne', hk], hlt⟩
  · exact iff_of_true hself (Or.inr (Or.inl hmem))
  · exact iff_of_true hself (Or.inl (by omega))

theorem find?_of_trim {k hash : Uint256} {b b' : CBlock}
    (h : (trim (m.insert hash b)).find? k = some b') : k = hash ∧ b' = b ∨ m.find? k = some b' := by
  have hsize := m.size_insert hash b
  rw [trim_eq (by split_ifs at hsize <;> omega)] at h
  have h : (m.insert hash b).find? k = some b' := by
    split_ifs at h
    · exact find?_of_eraseMin _ h
    · exact h
  by_cases hk : hash = k
  · subst hk
    rw [find?_insert_self] at h
    exact Or.inl ⟨rfl, (Option.some.inj h).symm⟩
  · rw [m.find?_insert_of_ne b hk] at h
    exact Or.inr h

theorem size_trim_insert (hash : Uint256) (b : CBlock) :
    (trim (m.insert hash b)).size ≤ maxAuxpowBlockCache := by
  have hsize := m.size_insert hash b
  rw [trim_eq (by split_ifs at hsize <;> omega)]
  split_ifs at hsize ⊢
  all_goals
    first
    | rw [size_eraseMin]
    | skip
    omega

end

/-! ### One call -/

/-- What every call preserves. -/
structure Consistent (s : AuxpowMiner) : Prop where
  size_le : s.auxpowBlocks.size ≤ maxAuxpowBlockCache
  keyed : ∀ h b, s.auxpowBlocks.find? h = some b → b.getHash = h ∧ b.isAuxpow
  current : ∀ h b, s.auxpowBlocks.find? h = some b → b.hashPrevBlock = s.auxpowPrevHash

theorem consistent_initial : initial.Consistent where
  size_le := Nat.zero_le _
  keyed := by simp [initial]
  current := by simp [initial]

theorem enterTip_prevHash (s : AuxpowMiner) (prev : Uint256) :
    (s.enterTip prev).auxpowPrevHash = prev := by
  rw [enterTip]
  split_ifs with h
  · rfl
  · exact not_not.mp h

theorem Consistent.enterTip (hs : s.Consistent) (prev : Uint256) :
    (s.enterTip prev).Consistent := by
  rw [AuxpowMiner.enterTip]
  split_ifs
  · exact ⟨Nat.zero_le _, by simp, by simp⟩
  · exact hs

variable {height : Int}

theorem incrementAuxpowExtraNonce_ok {fresh : CBlock} {extraNonce : UInt32}
    (h : incrementAuxpowExtraNonce block height extraNonce = .ok fresh) :
    fresh.hashPrevBlock = block.hashPrevBlock := by
  unfold incrementAuxpowExtraNonce at h
  split at h
  case h_1 => cases h
  case h_2 =>
    split at h
    case h_1 => cases h
    case h_2 =>
      cases h
      rfl

theorem freshTemplate_ok {fresh : CBlock} (h : s.freshTemplate block height = .ok fresh) :
    fresh.hashPrevBlock = block.hashPrevBlock ∧ fresh.isAuxpow := by
  rw [freshTemplate, stamp] at h
  obtain ⟨b, hinc, h⟩ := bind_eq_ok.mp h
  have hprev := incrementAuxpowExtraNonce_ok hinc
  cases h
  exact ⟨hprev, CPureBlockHeader.isAuxpow_setAuxpowFlag _⟩

theorem Consistent.cacheTemplate (hs : s.Consistent) (block : CBlock) (height : Int) :
    (s.cacheTemplate block height).1.Consistent := by
  have htip := hs.enterTip block.hashPrevBlock
  rw [AuxpowMiner.cacheTemplate]
  cases hfr : s.freshTemplate block height with
  | error e => exact ⟨htip.size_le, htip.keyed, htip.current⟩
  | ok fresh =>
    obtain ⟨hprev, hflag⟩ := freshTemplate_ok hfr
    refine ⟨size_trim_insert htip.size_le _ _, ?_, ?_⟩
    · intro h b hb
      rcases find?_of_trim htip.size_le hb with ⟨rfl, rfl⟩ | hold
      · exact ⟨rfl, hflag⟩
      · exact htip.keyed h b hold
    · intro h b hb
      rcases find?_of_trim htip.size_le hb with ⟨rfl, rfl⟩ | hold
      · exact hprev.trans (enterTip_prevHash s _).symm
      · exact htip.current h b hold

theorem auxMiningCreateBlock_eq {nHeight : Int}
    (hck : auxMiningCheck req = .ok ()) (hblk : req.blockTemplate = some block)
    (hpar : req.lookupBlockIndex block.hashPrevBlock = some nHeight) :
    s.auxMiningCreateBlock req = ((s.cacheTemplate block (nHeight + 1)).1,
      (s.cacheTemplate block (nHeight + 1)).2.bind (auxpowBlockToJSON · (nHeight + 1))) := by
  simp only [auxMiningCreateBlock, hck, hblk, hpar]
  rcases s.cacheTemplate block (nHeight + 1) with ⟨s', e | b⟩ <;> rfl

/-- A call either stops before it touches the cache or files one template. -/
theorem auxMiningCreateBlock_cases (s : AuxpowMiner) (req : AuxRequest) :
    (∃ e, s.auxMiningCreateBlock req = (s, .error e)) ∨
      ∃ block nHeight, req.blockTemplate = some block ∧
        req.lookupBlockIndex block.hashPrevBlock = some nHeight ∧
        s.auxMiningCreateBlock req = ((s.cacheTemplate block (nHeight + 1)).1,
          (s.cacheTemplate block (nHeight + 1)).2.bind (auxpowBlockToJSON · (nHeight + 1))) := by
  cases hck : auxMiningCheck req with
  | error e => exact Or.inl ⟨e, by rw [auxMiningCreateBlock, hck]⟩
  | ok u =>
    cases hblk : req.blockTemplate with
    | none => exact Or.inl ⟨_, by simp only [auxMiningCreateBlock, hck, hblk]; rfl⟩
    | some block =>
      cases hpar : req.lookupBlockIndex block.hashPrevBlock with
      | none => exact Or.inl ⟨_, by simp only [auxMiningCreateBlock, hck, hblk, hpar]; rfl⟩
      | some nHeight =>
        exact Or.inr ⟨block, nHeight, rfl, hpar, auxMiningCreateBlock_eq hck hblk hpar⟩

theorem Consistent.auxMiningCreateBlock (hs : s.Consistent) (req : AuxRequest) :
    (s.auxMiningCreateBlock req).1.Consistent := by
  rcases s.auxMiningCreateBlock_cases req with ⟨e, h⟩ | ⟨block, nHeight, -, -, h⟩
  · rw [h]
    exact hs
  · rw [h]
    exact hs.cacheTemplate block (nHeight + 1)

theorem consistent_run (calls : List AuxRequest) : (run calls).Consistent := by
  induction calls using reverseRec with
  | nil => exact consistent_initial
  | append_singleton calls req ih =>
    rw [run, foldl_append]
    exact ih.auxMiningCreateBlock req

/-! ### Is the template still there? -/

/-- The template of a returned object can be looked up under the hash in the
object, and agrees with it. -/
def Submittable (s : AuxpowMiner) (json : AuxBlockJson) : Prop :=
  ∃ hash b, s.auxpowBlocks.find? hash = some b ∧ hash.getHex = json.hash ∧ b.getHash = hash ∧
    b.nVersion.toInt = json.version ∧ hex32 b.nBits = json.bits ∧
    b.hashPrevBlock.getHex = json.previousblockhash

/-- Setting the flag again changes nothing. -/
theorem setAuxpowFlag_of_isAuxpow {h : CPureBlockHeader} (hflag : h.isAuxpow = true) :
    h.setAuxpowFlag true = h := by
  have hver : h.nVersion ||| CPureBlockHeader.versionAuxpow = h.nVersion := by
    rw [CPureBlockHeader.isAuxpow_iff_getLsbD] at hflag
    rw [← Int32.toBitVec_inj, Int32.toBitVec_or]
    refine BitVec.eq_of_getLsbD_eq fun i hi => ?_
    have hbit : CPureBlockHeader.versionAuxpow.toBitVec.getLsbD i = decide (i = 8) := by
      revert i
      decide
    rw [BitVec.getLsbD_or, hbit, Bool.or_eq_left_iff_imp, decide_eq_true_eq]
    rintro rfl
    exact hflag
  rw [CPureBlockHeader.setAuxpowFlag, if_pos rfl, hver]

/-- What can be submitted is what `AuxMiningSubmitBlock` completes, whatever the payload:
the hash of a filed template does not change. -/
theorem submittable_iff_submits (hs : s.Consistent) (auxpow : CAuxPow)
    (hck : auxMiningCheck req = .ok ()) (json : AuxBlockJson) :
    s.Submittable json ↔ ∃ hash b, s.auxMiningSubmitBlock req hash auxpow = .ok b ∧
      hash.getHex = json.hash ∧ b.nVersion.toInt = json.version ∧ hex32 b.nBits = json.bits ∧
      b.hashPrevBlock.getHex = json.previousblockhash := by
  have hsubmit : ∀ {hash b}, s.auxpowBlocks.find? hash = some b →
      s.auxMiningSubmitBlock req hash auxpow = .ok { b with auxpow := some auxpow } := by
    intro hash b hfind
    obtain ⟨hhash, hflag⟩ := hs.keyed hash b hfind
    simp only [auxMiningSubmitBlock, hck, hfind, setAuxpowFlag_of_isAuxpow hflag]
    exact if_neg (not_not.mpr hhash)
  constructor
  · rintro ⟨hash, b, hfind, hhex, -, hver, hbits, hprev⟩
    exact ⟨hash, _, hsubmit hfind, hhex, hver, hbits, hprev⟩
  · rintro ⟨hash, b', hok, hhex, hver, hbits, hprev⟩
    cases hfind : s.auxpowBlocks.find? hash with
    | none =>
      simp only [auxMiningSubmitBlock, hck, hfind] at hok
      cases hok
    | some b =>
      obtain rfl := Except.ok.inj ((hsubmit hfind).symm.trans hok)
      exact ⟨hash, b, hfind, hhex, (hs.keyed hash b hfind).1, hver, hbits, hprev⟩

/-- The cache has room for the template that the call is about to file. -/
def HasRoom (s : AuxpowMiner) (req : AuxRequest) : Prop :=
  ∀ block nHeight fresh, req.blockTemplate = some block →
    req.lookupBlockIndex block.hashPrevBlock = some nHeight →
    s.freshTemplate block (nHeight + 1) = .ok fresh →
    RoomFor (s.enterTip block.hashPrevBlock).auxpowBlocks fresh.getHash

theorem auxpowBlockToJSON_ok (h : auxpowBlockToJSON block height = .ok json) :
    json.hash = block.getHash.getHex ∧ json.version = block.nVersion.toInt ∧
      json.bits = hex32 block.nBits ∧ json.previousblockhash = block.hashPrevBlock.getHex := by
  rw [auxpowBlockToJSON] at h
  obtain ⟨target, htarget, h⟩ := bind_eq_ok.mp h
  cases h
  exact ⟨rfl, rfl, rfl, rfl⟩

theorem submittable_iff (hs : s.Consistent) (h : (s.auxMiningCreateBlock req).2 = .ok json) :
    (s.auxMiningCreateBlock req).1.Submittable json ↔ s.HasRoom req := by
  rcases s.auxMiningCreateBlock_cases req with ⟨e, hcall⟩ | ⟨block, nHeight, hblk, hpar, hcall⟩
  · rw [hcall] at h
    cases h
  have htip := (hs.enterTip block.hashPrevBlock).size_le
  rw [hcall] at h ⊢
  rw [cacheTemplate] at h ⊢
  cases hfr : s.freshTemplate block (nHeight + 1) with
  | error e => rw [hfr] at h; cases h
  | ok fresh =>
    rw [hfr] at h
    obtain ⟨hhash, hver, hbits, hprev⟩ := auxpowBlockToJSON_ok h
    have hroom : s.HasRoom req ↔
        RoomFor (s.enterTip block.hashPrevBlock).auxpowBlocks fresh.getHash := by
      constructor
      · intro hall
        exact hall block nHeight fresh hblk hpar hfr
      · intro hone block' nHeight' fresh' hblk' hpar' hfr'
        obtain rfl : block = block' := Option.some.inj (hblk.symm.trans hblk')
        obtain rfl : nHeight = nHeight' := Option.some.inj (hpar.symm.trans hpar')
        obtain rfl : fresh = fresh' := Except.ok.inj (hfr.symm.trans hfr')
        exact hone
    rw [hroom, ← find?_trim_insert htip fresh.getHash fresh]
    constructor
    · rintro ⟨hash, b, hfind, hhex, -⟩
      obtain rfl : hash = fresh.getHash := Uint256.getHex_injective (hhex.trans hhash)
      rcases find?_of_trim htip hfind with ⟨-, rfl⟩ | hold
      · exact hfind
      · exact (find?_trim_insert htip _ _).mpr (Or.inr (Or.inl (by rw [hold]; rfl)))
    · intro hfind
      exact ⟨fresh.getHash, fresh, hfind, hhash.symm, rfl, hver.symm, hbits.symm, hprev.symm⟩

/-- Along every sequence of calls the cache keeps to its bound and to one tip,
and a returned template can be submitted exactly if the cache had room. -/
theorem work_submittable_iff_room (calls : List AuxRequest) :
    (run calls).auxpowBlocks.size ≤ maxAuxpowBlockCache ∧
      (∀ hash b, (run calls).auxpowBlocks.find? hash = some b →
        b.hashPrevBlock = (run calls).auxpowPrevHash) ∧
      ∀ req json, ((run calls).auxMiningCreateBlock req).2 = .ok json →
        (((run calls).auxMiningCreateBlock req).1.Submittable json ↔ (run calls).HasRoom req) :=
  have hs := consistent_run calls
  ⟨hs.size_le, hs.current, fun _ _ h => submittable_iff hs h⟩

/-! ### A template that is lost

One template, requested 129 times while the tip stands still. The last of the
129 hashes is the smallest. -/

def sampleCoinbase : CTransaction :=
  .ofInput ⟨.null, ⟨[], CScript.nil_lt⟩, 0xffffffff, .empty⟩
    (some ⟨500000000, ⟨0x76 :: 0xa9 :: 0x14 :: (replicate 20 0 ++ [0x88, 0xac]), by simp⟩⟩)

def sampleTemplate : CBlock where
  nVersion := 0x20060000
  hashPrevBlock := uint256S 1
  hashMerkleRoot := .zero
  nTime := 1700000158
  nBits := 503382015
  nNonce := 0
  auxpow := none
  vtx := [sampleCoinbase]

def sampleRequest : AuxRequest where
  params := mainParams
  mineBlocksOnDemand := false
  nodeCount := 8
  isInitialBlockDownload := false
  activeHeight := 160000
  blockTemplate := some sampleTemplate
  lookupBlockIndex := fun _ => some 160000

def sampleBlock (extraNonce : UInt32) : CBlock :=
  (stamp sampleTemplate 160001 extraNonce).toOption.getD sampleTemplate

def sampleHash (n : Nat) : Uint256 := (sampleBlock (ofNat (n + 1))).getHash

/-- How the hashes of the first 128 blocks begin, 16 bits each. -/
def sampleLeading : Nat :=
  0xf461e122ef67a1e032176740c0516a67 <<< 1920 +
  0x12abdd3d98ec58d5474be6af43b66fce7738e1d42b272deaf97103d613538155bb443739ca5443c6 <<< 1600 +
  0x1e5d0ca5a46babca525528bdba4369bf3de5f02d6b44d2656bb2febb2c521be2fe5db6388ea7d96b <<< 1280 +
  0x7aeb7b5458296bc309915a73520a56d8789b5f844040ba4f271162b417efd98423a66846024fe417 <<< 960 +
  0x556893af200d846be6b45fd56b43e8ced3a9902bd1dc11fd4f5db73548554fdfffd93ec2102e3212 <<< 640 +
  0x8663d1eb9da0b005dd611957fe4fb60be1c1305d428488ce1538952fe9a7a3f3d0b0cfaedbb11f10 <<< 320 +
  0xf6d3158eacac8685a4ac155a920a9680bed8807044559bfbbfa35dd05ea4a86024a002008762d9c8

def leading (h : Uint256) : Nat := (h.digits.take 2).foldl (fun n d => 256 * n + d) 0

/-- A hash begins as it should and is above the last one. -/
def SampleAt (n : Nat) : Prop :=
  leading (sampleHash n) = sampleLeading >>> (16 * n) % 65536 ∧ sampleHash 128 < sampleHash n

instance (n : Nat) : Decidable (SampleAt n) := inferInstanceAs (Decidable (_ ∧ _))

-- The hashes are computed in two portions, for the memory that the kernel needs.
theorem sampleAt_first : ∀ i < 64, SampleAt i := by decide +kernel

theorem sampleAt_second : ∀ i < 64, SampleAt (i + 64) := by decide +kernel

theorem sampleAt {n : Nat} (hn : n < 128) : SampleAt n := by
  by_cases hfst : n < 64
  · exact sampleAt_first n hfst
  · rw [show n = n - 64 + 64 by omega]
    exact sampleAt_second (n - 64) (by omega)

theorem sampleHash_ne {i n : Nat} (hi : i < n) (hn : n < 128) : sampleHash i ≠ sampleHash n := by
  have hleading : ∀ n < 128, ∀ i < n,
      sampleLeading >>> (16 * i) % 65536 ≠ sampleLeading >>> (16 * n) % 65536 := by decide +kernel
  intro h
  apply hleading n hn i hi
  rw [← (sampleAt hn).1, ← (sampleAt (hi.trans hn)).1, h]

/-- What a call files and returns, by the nonce before it. -/
theorem auxMiningCreateBlock_sample {n : UInt32}
    (hnonce : (s.enterTip sampleTemplate.hashPrevBlock).auxpowExtraNonce = n) :
    s.freshTemplate sampleTemplate 160001 = .ok (sampleBlock (n + 1)) ∧
      s.auxMiningCreateBlock sampleRequest =
        (⟨trim ((s.enterTip sampleTemplate.hashPrevBlock).auxpowBlocks.insert
            (sampleBlock (n + 1)).getHash (sampleBlock (n + 1))),
              sampleTemplate.hashPrevBlock, n + 1⟩,
          auxpowBlockToJSON (sampleBlock (n + 1)) 160001) := by
  have hck : auxMiningCheck sampleRequest = .ok () := by decide +kernel
  have hpar : sampleRequest.lookupBlockIndex sampleTemplate.hashPrevBlock = some 160000 := rfl
  have hfr : s.freshTemplate sampleTemplate 160001 = .ok (sampleBlock (n + 1)) := by
    rw [freshTemplate, hnonce]
    rfl
  refine ⟨hfr, ?_⟩
  rw [auxMiningCreateBlock_eq hck rfl hpar, show (160000 : Int) + 1 = 160001 from rfl,
    cacheTemplate, hfr]
  simp only [hnonce, enterTip_prevHash]
  rfl

/-- The first of the templates is still there. -/
theorem work_submittable_iff_room_first : ∃ json,
    ((run []).auxMiningCreateBlock sampleRequest).2 = .ok json ∧
      ((run []).auxMiningCreateBlock sampleRequest).1.Submittable json := by
  obtain ⟨json, hjson⟩ : ∃ json, auxpowBlockToJSON (sampleBlock 1) 160001 = .ok json := ⟨_, rfl⟩
  have hcall : ((run []).auxMiningCreateBlock sampleRequest).2 = .ok json := by
    exact hjson
  refine ⟨json, hcall, ((work_submittable_iff_room []).2.2 sampleRequest json hcall).mpr ?_⟩
  intro block nHeight fresh hblk hpar hfr
  cases hblk
  exact Or.inl (by decide)

/-- While the cache fills up it holds the hashes so far. -/
theorem run_sample (hk : k ≤ 128) :
    let s := (run (replicate k sampleRequest)).enterTip sampleTemplate.hashPrevBlock
    s.auxpowExtraNonce = ofNat k ∧ s.auxpowBlocks.size = k ∧
      ∀ h, (s.auxpowBlocks.find? h).isSome → ∃ i < k, h = sampleHash i := by
  induction k with
  | zero => exact ⟨rfl, rfl, fun h hh => by cases hh⟩
  | succ k ih =>
    obtain ⟨hnonce, hsize, hkeys⟩ := ih (by omega)
    rw [replicate_succ', run, foldl_append, ← run, foldl_cons, foldl_nil,
      (auxMiningCreateBlock_sample hnonce).2,
        show ofNat k + 1 = ofNat (k + 1) from (ofNat_add k 1).symm]
    generalize (run (replicate k sampleRequest)).enterTip sampleTemplate.hashPrevBlock = s at *
    have hins := s.auxpowBlocks.size_insert (sampleHash k) (sampleBlock (ofNat (k + 1)))
    have hnew : ¬ (s.auxpowBlocks.find? (sampleHash k)).isSome := by
      intro hold
      obtain ⟨i, hi, heq⟩ := hkeys _ hold
      exact sampleHash_ne hi hk heq.symm
    rw [if_neg hnew, hsize] at hins
    have hsmall : k + 1 ≤ maxAuxpowBlockCache := hk
    simp only [enterTip, ne_eq, not_true_eq_false, if_false]
    rw [← sampleHash, trim_eq (by omega), if_neg (by omega)]
    refine ⟨trivial, hins, fun h hh => ?_⟩
    by_cases heq : sampleHash k = h
    · exact ⟨k, k.lt_succ_self, heq.symm⟩
    · rw [s.auxpowBlocks.find?_insert_of_ne _ heq] at hh
      obtain ⟨i, hi, hhash⟩ := hkeys h hh
      exact ⟨i, hi.trans k.lt_succ_self, hhash⟩

/-- The last template is returned and cannot be submitted. -/
theorem returned_work_lost : ∃ json,
    ((run (replicate 128 sampleRequest)).auxMiningCreateBlock sampleRequest).2 = .ok json ∧
      ¬ ((run (replicate 128 sampleRequest)).auxMiningCreateBlock sampleRequest).1.Submittable
        json := by
  obtain ⟨hnonce, hsize, hkeys⟩ := run_sample (le_refl 128)
  obtain ⟨hfr, hnext⟩ := auxMiningCreateBlock_sample hnonce
  obtain ⟨json, hjson⟩ : ∃ json, auxpowBlockToJSON (sampleBlock 129) 160001 = .ok json := ⟨_, rfl⟩
  have hcall := (congrArg Prod.snd hnext).trans hjson
  refine ⟨json, hcall, ?_⟩
  rw [submittable_iff (consistent_run _) hcall]
  intro hroom
  have habove : ∀ h, (((run (replicate 128 sampleRequest)).enterTip
      sampleTemplate.hashPrevBlock).auxpowBlocks.find? h).isSome → sampleHash 128 < h := by
    intro h hh
    obtain ⟨i, hi, rfl⟩ := hkeys h hh
    exact (sampleAt hi).2
  rcases hroom sampleTemplate 160000 _ rfl rfl hfr with hlt | hmem | ⟨k, b, hk, hlt⟩
  · exact absurd (hsize ▸ hlt) (by decide)
  · exact lt_irrefl _ (habove _ hmem)
  · exact lt_asymm hlt (habove k (by rw [hk]; rfl))

end Lithium.AuxpowMiner
