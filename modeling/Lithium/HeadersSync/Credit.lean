import Lithium.HeadersSync.Release
import Lithium.Validation.HeaderWork

/-!
# The work that a first download is credited with

The first download believes the targets of the headers it sees. Its caller is
to have checked that every header meets its own target; `CheckHeadersPoW` of
`net_processing.cpp` does so for headers of their own chain, and lets every
header pass that announces a payload, with whatever payload it comes.
-/

namespace Lithium
open List
variable (c : SyncConfig) (s : HeadersSyncState) (headers : List CBlockHeader)

/-! ### The caller's checks -/

def hasValidProofOfWork (headers : List CBlockHeader) (params : Params) : Bool :=
  headers.all fun header =>
    header.isAuxpow || checkProofOfWork header.getPoWHash header.nBits params

/-- The loop of `CheckHeadersAreContinuous`. -/
def continuousFrom : Uint256 → List CBlockHeader → Bool
  | _, [] => true
  | hashLastBlock, header :: rest =>
    if !hashLastBlock.isNull && header.hashPrevBlock ≠ hashLastBlock then false
    else continuousFrom header.getHash rest

def checkHeadersAreContinuous (headers : List CBlockHeader) : Bool := continuousFrom .zero headers

/-- What a peer is punished for, and how hard. -/
structure Misbehaving where
  howmuch : Nat
  message : String
deriving DecidableEq

def checkHeadersPoW (headers : List CBlockHeader) (params : Params) : Except Misbehaving Unit :=
  if !hasValidProofOfWork headers params then .error ⟨100, "header with invalid proof of work"⟩
  else if !checkHeadersAreContinuous headers then .error ⟨20, "non-continuous headers sequence"⟩
  else .ok ()

/-! ### Real work -/

/-- The header meets its target, by its own hash or by that of the parent block
in its payload. -/
def CBlockHeader.HasWork (header : CBlockHeader) (params : Params) : Prop :=
  checkProofOfWork header.getPoWHash header.nBits params = true ∨
    ∃ auxpow, header.auxpow = some auxpow ∧
      checkProofOfWork auxpow.parentBlock.getPoWHash header.nBits params = true

/-- The headers of a message that announce a payload are backed by work. -/
def FlaggedHaveWork (headers : List CBlockHeader) (params : Params) : Prop :=
  ∀ header ∈ headers, header.isAuxpow = true → header.HasWork params

theorem hasValidProofOfWork_sound {headers : List CBlockHeader} {params : Params}
    (hflagged : FlaggedHaveWork headers params) (h : hasValidProofOfWork headers params = true) :
    ∀ header ∈ headers, header.HasWork params := by
  intro header hmem
  have hhdr := all_eq_true.mp h header hmem
  rcases (Bool.or_eq_true _ _).mp hhdr with hflag | hnative
  · exact hflagged header hmem hflag
  · exact Or.inl hnative

theorem hasValidProofOfWork_of_checkHeadersPoW {headers : List CBlockHeader} {params : Params}
    (h : checkHeadersPoW headers params = .ok ()) : hasValidProofOfWork headers params = true := by
  rw [checkHeadersPoW] at h
  split_ifs at h with hwork
  simpa using hwork

namespace HeadersSyncState

/-! ### What is counted -/

/-- The headers of a message that the first download counts. -/
def countedHeaders (c : SyncConfig) : HeadersSyncState → List CBlockHeader → List CBlockHeader
  | _, [] => []
  | s, hdr :: rest =>
    match validateAndProcessSingleHeader c s hdr with
    | (_, false) => []
    | (s, true) => hdr :: countedHeaders c s rest

/-- The headers of a call that are counted: none if the message does not connect
or another phase is on. -/
def creditedHeaders (c : SyncConfig) (s : HeadersSyncState) (headers : List CBlockHeader) :
    List CBlockHeader :=
  match headers with
  | [] => []
  | first :: _ =>
    if s.downloadState ≠ .presync then []
    else if first.hashPrevBlock ≠ s.lastHeaderReceived.getHash then []
    else countedHeaders c s headers

theorem creditedHeaders_subset : ∀ header ∈ creditedHeaders c s headers, header ∈ headers := by
  have hcnt : ∀ s, ∀ header ∈ countedHeaders c s headers, header ∈ headers := by
    induction headers with
    | nil => simp [countedHeaders]
    | cons hdr rest ih =>
      intro s header hmem
      rw [countedHeaders] at hmem
      generalize validateAndProcessSingleHeader c s hdr = r at hmem
      obtain ⟨t, ok⟩ := r
      cases ok with
      | false => simp at hmem
      | true =>
        rcases mem_cons.mp hmem with rfl | hmem
        · exact mem_cons_self
        · exact mem_cons_of_mem _ (ih t header hmem)
  intro header hmem
  unfold creditedHeaders at hmem
  split at hmem
  · cases hmem
  · split_ifs at hmem
    · cases hmem
    · cases hmem
    · exact hcnt s header hmem

theorem currentChainWork_single (current : CBlockHeader) :
    (validateAndProcessSingleHeader c s current).1.currentChainWork =
      if (validateAndProcessSingleHeader c s current).2 then
        s.currentChainWork + getBlockProof current.nBits
      else s.currentChainWork := by
  unfold validateAndProcessSingleHeader
  dsimp only
  split_ifs <;> first | rfl | simp_all

theorem currentChainWork_processHeaders : (processHeaders c s headers).1.currentChainWork =
      s.currentChainWork + calculateHeadersWork (countedHeaders c s headers) := by
  induction headers generalizing s with
  | nil => simp [processHeaders, countedHeaders, calculateHeadersWork]
  | cons hdr rest ih =>
    have hsing := currentChainWork_single c s hdr
    rw [processHeaders, countedHeaders]
    generalize validateAndProcessSingleHeader c s hdr = r at hsing
    obtain ⟨t, ok⟩ := r
    cases ok with
    | false => simpa [calculateHeadersWork] using hsing
    | true =>
      have hcons := calculateHeadersWork_append [hdr] (countedHeaders c t rest)
      have hone : calculateHeadersWork [hdr] = getBlockProof hdr.nBits := by
        simp [calculateHeadersWork]
      dsimp only at hsing ⊢
      rw [ih t, hsing, if_pos rfl, ← singleton_append, hcons, hone, BitVec.add_assoc]

theorem currentChainWork_presync {s : HeadersSyncState} (hst : s.downloadState = .presync)
    (headers : List CBlockHeader) :
    (validateAndStoreHeadersCommitments c s headers).1.currentChainWork =
      s.currentChainWork + calculateHeadersWork (creditedHeaders c s headers) := by
  have hzero : s.currentChainWork + calculateHeadersWork [] = s.currentChainWork := by
    simp [calculateHeadersWork]
  unfold validateAndStoreHeadersCommitments creditedHeaders
  cases headers with
  | nil => exact hzero.symm
  | cons first rest =>
    dsimp only
    rw [if_neg (not_not.mpr hst), if_neg (not_not.mpr hst)]
    split_ifs with hconnects
    · exact hzero.symm
    · have hloop := currentChainWork_processHeaders c s (first :: rest)
      generalize processHeaders c s (first :: rest) = r at hloop
      obtain ⟨t, ok⟩ := r
      cases ok with
      | false => exact hloop
      | true =>
        dsimp only
        split_ifs <;> exact hloop

theorem currentChainWork_storeHeaders :
    (storeHeaders c s headers).1.currentChainWork = s.currentChainWork := by
  have hsing : ∀ (s : HeadersSyncState) header,
      (validateAndStoreRedownloadedHeader c s header).1.currentChainWork = s.currentChainWork := by
    intro s header
    obtain ⟨queue, hq⟩ := checkCommitment_fst c (s.countRedownloaded c header) header
    unfold validateAndStoreRedownloadedHeader
    generalize checkCommitment c (countRedownloaded c s header) header = r at hq
    obtain ⟨t, ok⟩ := r
    obtain rfl : t = _ := hq
    split_ifs <;> cases ok <;> rfl
  induction headers generalizing s with
  | nil => rfl
  | cons hdr rest ih =>
    have hstep := hsing s hdr
    rw [storeHeaders]
    generalize validateAndStoreRedownloadedHeader c s hdr = r at hstep
    obtain ⟨t, ok⟩ := r
    cases ok with
    | false => exact hstep
    | true => exact (ih t).trans hstep

theorem currentChainWork_redownload (full : Bool) :
    (processRedownload c s headers full).1.currentChainWork = s.currentChainWork := by
  have hstore := currentChainWork_storeHeaders c s headers
  rw [processRedownload]
  generalize storeHeaders c s headers = r at hstore
  obtain ⟨t, ok⟩ := r
  cases ok with
  | false => exact hstore
  | true =>
    dsimp only
    rw [popHeadersReadyForAcceptance]
    split_ifs <;> exact hstore

theorem currentChainWork_finalizeUnlessMore (r : HeadersSyncState × ProcessingResult) :
    (finalizeUnlessMore r).1.currentChainWork = r.1.currentChainWork := by
  unfold finalizeUnlessMore
  split_ifs <;> rfl

/-- Every call adds the work of the headers that it counts, and nothing else. -/
theorem currentChainWork_processNextHeaders (full : Bool) :
    (processNextHeaders c s headers full).1.currentChainWork =
      s.currentChainWork + calculateHeadersWork (creditedHeaders c s headers) := by
  have hzero : s.currentChainWork + calculateHeadersWork [] = s.currentChainWork := by
    simp [calculateHeadersWork]
  cases headers with
  | nil => exact hzero.symm
  | cons first rest =>
    have hno (hst : s.downloadState ≠ .presync) :
        creditedHeaders c s (first :: rest) = [] := by
      simp [creditedHeaders, hst]
    unfold processNextHeaders
    rw [if_neg (by simp)]
    cases hst : s.downloadState with
    | final => rw [hno (by simp [hst]), hzero]
    | presync =>
      rw [currentChainWork_finalizeUnlessMore]
      exact currentChainWork_presync c hst (first :: rest)
    | redownload =>
      rw [currentChainWork_finalizeUnlessMore, currentChainWork_redownload,
        hno (by simp [hst]), hzero]

end HeadersSyncState

/-! ### Whole syncs -/

/-- A sync with the headers whose work it counted. -/
structure CreditLog where
  state : HeadersSyncState
  credited : List CBlockHeader

namespace CreditLog
open HeadersSyncState

def start (c : SyncConfig) : CreditLog := ⟨.init c, []⟩

def call (c : SyncConfig) (log : CreditLog) (headers : List CBlockHeader) (full : Bool) :
    CreditLog where
  state := (processNextHeaders c log.state headers full).1
  credited := log.credited ++ creditedHeaders c log.state headers

def run (c : SyncConfig) (messages : List (List CBlockHeader × Bool)) : CreditLog :=
  messages.foldl (fun log message => log.call c message.1 message.2) (start c)

variable (messages : List (List CBlockHeader × Bool))

/-- The work counter is the work of the headers that were counted. -/
theorem run_work :
    (run c messages).state.currentChainWork = c.chainWork (run c messages).credited := by
  induction messages using reverseRecOn with
  | nil => simp [run, start, init, SyncConfig.chainWork, calculateHeadersWork]
  | append_singleton messages message ih =>
    rw [run, foldl_append]
    change (processNextHeaders c (run c messages).state message.1 message.2).1.currentChainWork =
      c.chainWork ((run c messages).credited ++ creditedHeaders c (run c messages).state message.1)
    rw [currentChainWork_processNextHeaders, ih, SyncConfig.chainWork, SyncConfig.chainWork,
      calculateHeadersWork_append, BitVec.add_assoc]

theorem run_credited :
    ∀ header ∈ (run c messages).credited, ∃ message ∈ messages, header ∈ message.1 := by
  induction messages using reverseRecOn with
  | nil => simp [run, start]
  | append_singleton messages message ih =>
    intro header hmem
    rw [run, foldl_append] at hmem
    rcases mem_append.mp hmem with hmem | hmem
    · obtain ⟨earlier, hearlier, hhdr⟩ := ih header hmem
      exact ⟨earlier, mem_append_left _ hearlier, hhdr⟩
    · exact ⟨message, by simp, creditedHeaders_subset c _ _ header hmem⟩

/-- If the headers that announce a payload are backed by work, the work counter
is the work of headers that each meet their target, after any messages that
pass the caller's checks. A single message has this property exactly if its
flagged headers do. -/
theorem credited_work_real (c : SyncConfig) : (∀ messages : List (List CBlockHeader × Bool),
      (∀ message ∈ messages, checkHeadersPoW message.1 c.consensusParams = .ok () ∧
        FlaggedHaveWork message.1 c.consensusParams) →
        (run c messages).state.currentChainWork = c.chainWork (run c messages).credited ∧
          ∀ header ∈ (run c messages).credited, header.HasWork c.consensusParams) ∧
      ∀ headers, (hasValidProofOfWork headers c.consensusParams = true →
          ∀ header ∈ headers, header.HasWork c.consensusParams) ↔
        (hasValidProofOfWork headers c.consensusParams = true →
          FlaggedHaveWork headers c.consensusParams) := by
  refine ⟨fun messages hmsgs => ⟨run_work c messages, fun header hmem => ?_⟩, fun headers => ?_⟩
  · obtain ⟨message, hmsg, hhdr⟩ := run_credited c messages header hmem
    obtain ⟨hchk, hflagged⟩ := hmsgs message hmsg
    exact hasValidProofOfWork_sound hflagged (hasValidProofOfWork_of_checkHeadersPoW hchk)
      header hhdr
  · constructor
    · exact fun hall hval header hmem _ => hall hval header hmem
    · exact fun hflagged hval => hasValidProofOfWork_sound (hflagged hval) hval

end CreditLog

/-! ### Headers on the genesis block -/

def mainConfig : SyncConfig where
  commitOffset := 0
  commitOffset_lt := by simp [headerCommitmentPeriod]
  consensusParams := mainParams
  chainStart := CBlockIndex.ofHeader mainGenesis.getHash mainGenesis.toCBlockHeader
  minimumRequiredWork := uintToArith256 mainParams.nMinimumChainWork
  hasher := fun _ => 0
  maxCommitments := maxCommitmentsAt 1794700800 1411788333

theorem credited_work_real_merged :
    let messages := [([firstBlock.toCBlockHeader, mergedBlock], true)]
    (CreditLog.run mainConfig messages).credited = [firstBlock.toCBlockHeader, mergedBlock] ∧
      mergedBlock.isAuxpow = true ∧
      ∀ header ∈ (CreditLog.run mainConfig messages).credited, header.HasWork mainParams := by
  have hchk : checkHeadersPoW [firstBlock.toCBlockHeader, mergedBlock] mainParams = .ok () := by
    decide +kernel
  refine ⟨by decide +kernel, by decide, ((CreditLog.credited_work_real mainConfig).1 _
    fun message hmsg => ?_).2⟩
  obtain rfl := mem_singleton.mp hmsg
  refine ⟨hchk, fun header hmem hflag => ?_⟩
  rcases mem_pair.mp hmem with rfl | rfl
  · exact absurd hflag (by decide)
  · exact Or.inr ⟨minedProof, rfl, minedProof_proves.1⟩

/-- A header on the genesis block of the main network that announces a payload;
the parent in the payload has no work either. -/
def bogusHeader : CBlockHeader where
  nVersion := 0x60104
  hashPrevBlock := mainGenesis.getHash
  hashMerkleRoot := .zero
  nTime := 1411790000
  nBits := 503382015
  nNonce := 0
  auxpow := some
    { coinbaseTx := none
      merkleBranch := []
      vChainMerkleBranch := []
      nChainIndex := 0
      parentBlock := ⟨1, .zero, .zero, 0, 503382015, 0⟩ }

theorem bogus_work_credited :
    checkHeadersPoW [bogusHeader] mainParams = .ok () ∧ ¬ bogusHeader.HasWork mainParams ∧
      (CreditLog.run mainConfig [([bogusHeader], true)]).credited = [bogusHeader] ∧
      (CreditLog.run mainConfig [([bogusHeader], true)]).state.currentChainWork = 16777472 := by
  have hnative : checkProofOfWork bogusHeader.getPoWHash bogusHeader.nBits mainParams = false := by
    decide +kernel
  have hpar : (bogusHeader.auxpow.all fun auxpow =>
      !checkProofOfWork auxpow.parentBlock.getPoWHash bogusHeader.nBits mainParams) = true := by
    decide +kernel
  refine ⟨by decide +kernel, ?_, by decide +kernel, by decide +kernel⟩
  rintro (hown | ⟨auxpow, hauxpow, hwork⟩)
  · rw [hnative] at hown
    cases hown
  · rw [hauxpow, Option.all_some, hwork] at hpar
    cases hpar

end Lithium
