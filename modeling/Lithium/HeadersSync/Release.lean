import Lithium.HeadersSync

/-!
# What a header sync returns

The headers that a sync hands out for validation are, in order and field for
field, the headers that it accepted in its second phase, although the buffer
holds them without the hashes of their predecessors. A log of a sync records
both sequences; the invariant ties them to the buffer, the two hashes at its
ends and the work counter.
-/

namespace Lithium
open Lib List
variable {c : SyncConfig} {s t : HeadersSyncState} {accepted released : List CBlockHeader}
  {log : SyncLog}

abbrev HeaderChain : Uint256 → List CBlockHeader → Prop :=
  Linked (fun header => header.hashPrevBlock) fun header => header.getHash

abbrev headerTip : Uint256 → List CBlockHeader → Uint256 := chainTip fun header => header.getHash

namespace SyncConfig

/-- The work of the chain start and of some headers on top of it. -/
def chainWork (c : SyncConfig) (headers : List CBlockHeader) : ArithUint256 :=
  c.chainStart.nChainWork + calculateHeadersWork headers

/-- The work of some first headers is what is required. -/
def WorkReached (c : SyncConfig) (headers : List CBlockHeader) : Prop :=
  ∃ first, first ≠ [] ∧ first <+: headers ∧ c.minimumRequiredWork ≤ c.chainWork first

theorem chainWork_concat (c : SyncConfig) (headers : List CBlockHeader) (header : CBlockHeader) :
    c.chainWork (headers ++ [header]) = c.chainWork headers + getBlockProof header.nBits := by
  rw [chainWork, chainWork, calculateHeadersWork_append, BitVec.add_assoc]
  simp [calculateHeadersWork]

theorem WorkReached.mono {xs ys : List CBlockHeader} (hpre : xs <+: ys) (h : c.WorkReached xs) :
    c.WorkReached ys := by
  obtain ⟨first, hne, hfst, hwork⟩ := h
  exact ⟨first, hne, hfst.trans hpre, hwork⟩

theorem not_workReached_nil (c : SyncConfig) : ¬ c.WorkReached [] := by
  rintro ⟨first, hne, hfst, -⟩
  exact hne (prefix_nil.mp hfst)

theorem workReached_concat (c : SyncConfig) (headers : List CBlockHeader) (header : CBlockHeader) :
    c.WorkReached (headers ++ [header]) ↔
      c.WorkReached headers ∨ c.minimumRequiredWork ≤ c.chainWork (headers ++ [header]) := by
  constructor
  · rintro ⟨first, hne, hfst, hwork⟩
    rcases prefix_concat_iff.mp hfst with rfl | hfst
    · exact Or.inr hwork
    · exact Or.inl ⟨first, hne, hfst, hwork⟩
  · rintro (h | h)
    · exact h.mono (prefix_append _ _)
    · exact ⟨_, by simp, prefix_rfl, h⟩

end SyncConfig

namespace HeadersSyncState

/-! ### One header -/

/-- What a header does that is accepted in the second phase. -/
structure Stores (c : SyncConfig) (s : HeadersSyncState) (header : CBlockHeader)
    (t : HeadersSyncState) : Prop where
  state : t.downloadState = .redownload
  link : header.hashPrevBlock = s.redownloadBufferLastHash
  buffer : t.redownloadedHeaders = s.redownloadedHeaders ++ [.ofHeader header]
  height : t.redownloadBufferLastHeight = s.redownloadBufferLastHeight + 1
  lastHash : t.redownloadBufferLastHash = header.getHash
  firstPrevHash : t.redownloadBufferFirstPrevHash = s.redownloadBufferFirstPrevHash
  work : t.redownloadChainWork = s.redownloadChainWork + getBlockProof header.nBits
  all : t.processAllRemainingHeaders = (s.processAllRemainingHeaders ||
    decide (s.redownloadChainWork + getBlockProof header.nBits ≥ c.minimumRequiredWork))

/-- The comparison with a commitment changes the queue of commitments only. -/
theorem checkCommitment_fst (c : SyncConfig) (s : HeadersSyncState) (header : CBlockHeader) :
    ∃ queue, (s.checkCommitment c header).1 = { s with headerCommitments := queue } := by
  rw [checkCommitment]
  split
  · split
    · exact ⟨s.headerCommitments, rfl⟩
    · exact ⟨_, rfl⟩
  · exact ⟨s.headerCommitments, rfl⟩

variable {header : CBlockHeader}

theorem stores_of_true (h : validateAndStoreRedownloadedHeader c s header = (t, true)) :
    Stores c s header t := by
  obtain ⟨queue, hq⟩ := checkCommitment_fst c (s.countRedownloaded c header) header
  unfold validateAndStoreRedownloadedHeader at h
  generalize checkCommitment c (countRedownloaded c s header) header = r at h hq
  split_ifs at h with hst hlink
  iterate 3 cases (Prod.mk.inj h).2
  obtain ⟨s', ok⟩ := r
  cases ok with
  | false => cases (Prod.mk.inj h).2
  | true =>
    obtain rfl : s' = _ := hq
    obtain rfl := (Prod.mk.inj h).1
    exact ⟨not_not.mp hst, not_not.mp hlink, rfl, rfl, rfl, rfl, rfl, rfl⟩

/-! ### The buffer -/

/-- How many headers are handed out of a buffer of the given size. -/
def popCount (all : Bool) (size : Nat) : Nat := if all then size else size - redownloadBufferSize

/-- Headers are rebuilt as they were when they came in. -/
theorem popLoop_eq (all : Bool) {waiting : List CBlockHeader} {hash : Uint256}
    (h : HeaderChain hash waiting) :
    popLoop all (waiting.map .ofHeader) hash = (waiting.take (popCount all waiting.length),
        (waiting.drop (popCount all waiting.length)).map .ofHeader,
        headerTip hash (waiting.take (popCount all waiting.length))) := by
  induction waiting generalizing hash with
  | nil => simp [popLoop, chainTip]
  | cons header rest ih =>
    obtain ⟨hlink, hrest⟩ := linked_cons.mp h
    have hfull : (CompressedHeader.ofHeader header).getFullHeader hash = header := by
      rw [← hlink, CompressedHeader.getFullHeader_ofHeader]
    rw [map_cons, popLoop]
    simp only [hfull, ih hrest, length_map, length_cons]
    by_cases hpop : rest.length + 1 > redownloadBufferSize || all
    · rw [if_pos hpop]
      have hcnt : popCount all (rest.length + 1) = popCount all rest.length + 1 := by
        cases all with
        | true => simp [popCount]
        | false =>
          simp only [Bool.or_false, decide_eq_true_iff] at hpop
          simp only [popCount, Bool.false_eq_true, if_false]
          omega
      rw [hcnt]
      rfl
    · rw [if_neg hpop]
      have hcnt : popCount all (rest.length + 1) = 0 := by
        simp only [Bool.or_eq_true, decide_eq_true_iff, not_or, not_lt, Bool.not_eq_true] at hpop
        simp only [popCount, hpop.2, Bool.false_eq_true, if_false]
        omega
      rw [hcnt]
      rfl

/-! ### The second phase -/

/-- How the state of the second phase comes about from the headers that were
accepted and those that were returned. -/
structure Redownloading (c : SyncConfig) (s : HeadersSyncState)
    (accepted released : List CBlockHeader) : Prop where
  state : s.downloadState = .redownload
  buffer : ∃ waiting, accepted = released ++ waiting ∧ s.redownloadedHeaders = waiting.map .ofHeader
  chain : HeaderChain c.chainStart.phashBlock accepted
  lastHash : s.redownloadBufferLastHash = headerTip c.chainStart.phashBlock accepted
  firstPrevHash : s.redownloadBufferFirstPrevHash = headerTip c.chainStart.phashBlock released
  height : s.redownloadBufferLastHeight = c.chainStart.nHeight + accepted.length
  work : s.redownloadChainWork = c.chainWork accepted
  all : s.processAllRemainingHeaders = true ↔ c.WorkReached accepted

namespace Redownloading

theorem start (h : s.processAllRemainingHeaders = false) :
    Redownloading c (s.startRedownload c) [] [] where
  state := rfl
  buffer := ⟨[], rfl, rfl⟩
  chain := trivial
  lastHash := rfl
  firstPrevHash := rfl
  height := by simp [startRedownload]
  work := by simp [startRedownload, SyncConfig.chainWork, calculateHeadersWork]
  all := iff_of_false (by simp [startRedownload, h]) c.not_workReached_nil

theorem stores (h : Redownloading c s accepted released) (hs : Stores c s header t) :
    Redownloading c t (accepted ++ [header]) released := by
  have hwork : s.redownloadChainWork + getBlockProof header.nBits =
      c.chainWork (accepted ++ [header]) := by
    rw [h.work, SyncConfig.chainWork_concat]
  obtain ⟨waiting, hwait, hbuffer⟩ := h.buffer
  refine ⟨hs.state, ⟨waiting ++ [header], ?_, ?_⟩, ?_, ?_, ?_, ?_, ?_, ?_⟩
  · rw [hwait, append_assoc]
  · rw [hs.buffer, hbuffer, map_append]
    rfl
  · exact linked_append.mpr ⟨h.chain, hs.link.trans h.lastHash, trivial⟩
  · rw [hs.lastHash, headerTip, chainTip_append]
    rfl
  · rw [hs.firstPrevHash, h.firstPrevHash]
  · rw [hs.height, h.height, length_append]
    push_cast [length_singleton]
    omega
  · rw [hs.work, hwork]
  · rw [hs.all, hwork, Bool.or_eq_true, h.all, decide_eq_true_iff, SyncConfig.workReached_concat]

/-- The headers that are ready leave the buffer. -/
theorem pop (h : Redownloading c s accepted released) : let waiting := accepted.drop released.length
    let ready := waiting.take (popCount s.processAllRemainingHeaders waiting.length)
    s.popHeadersReadyForAcceptance.2 = ready ∧
      Redownloading c s.popHeadersReadyForAcceptance.1 accepted (released ++ ready) ∧
      s.popHeadersReadyForAcceptance.1.processAllRemainingHeaders =
        s.processAllRemainingHeaders := by
  obtain ⟨waiting, rfl, hbuffer⟩ := h.buffer
  simp only [drop_left]
  have hwait := (linked_append.mp h.chain).2
  have hpop := popLoop_eq s.processAllRemainingHeaders hwait
  rw [popHeadersReadyForAcceptance, if_neg (not_not.mpr h.state), hbuffer, h.firstPrevHash, hpop]
  refine ⟨rfl,
    ⟨h.state, ⟨waiting.drop (popCount s.processAllRemainingHeaders waiting.length), ?_, rfl⟩,
    h.chain, h.lastHash, ?_, h.height, h.work, h.all⟩, rfl⟩
  · rw [append_assoc, take_append_drop]
  · exact (chainTip_append _ _ _).symm

end Redownloading

/-- The headers of a message that are accepted in the second phase. -/
def storedHeaders (c : SyncConfig) : HeadersSyncState → List CBlockHeader → List CBlockHeader
  | _, [] => []
  | s, hdr :: rest =>
    match validateAndStoreRedownloadedHeader c s hdr with
    | (_, false) => []
    | (s, true) => hdr :: storedHeaders c s rest

/-- A message is accepted header by header, up to the first that fails. -/
theorem Redownloading.storeHeaders (h : Redownloading c s accepted released)
    (headers : List CBlockHeader) :
    HeaderChain c.chainStart.phashBlock (accepted ++ storedHeaders c s headers) ∧
      ((HeadersSyncState.storeHeaders c s headers).2 = true → storedHeaders c s headers = headers ∧
          Redownloading c (HeadersSyncState.storeHeaders c s headers).1 (accepted ++ headers)
            released) := by
  induction headers generalizing s accepted with
  | nil => exact ⟨by simpa [storedHeaders] using h.chain, fun _ =>
      ⟨rfl, by simpa [HeadersSyncState.storeHeaders] using h⟩⟩
  | cons hdr rest ih =>
    rw [storedHeaders, HeadersSyncState.storeHeaders]
    cases hstep : validateAndStoreRedownloadedHeader c s hdr with
    | mk t ok =>
      cases ok with
      | false => exact ⟨by simpa using h.chain, fun hok => by cases hok⟩
      | true =>
        obtain ⟨hchain, hdone⟩ := ih (h.stores (stores_of_true hstep))
        rw [append_assoc] at hchain
        refine ⟨hchain, fun hok => ?_⟩
        obtain ⟨hall, hnext⟩ := hdone hok
        rw [append_assoc] at hnext
        exact ⟨congrArg (hdr :: ·) hall, hnext⟩

/-! ### The first phase -/

variable (c)

theorem validateAndProcessSingleHeader_keeps (s : HeadersSyncState) (current : CBlockHeader) :
    (validateAndProcessSingleHeader c s current).1.processAllRemainingHeaders =
        s.processAllRemainingHeaders ∧
      (validateAndProcessSingleHeader c s current).1.downloadState = s.downloadState := by
  unfold validateAndProcessSingleHeader
  dsimp only
  split_ifs <;> exact ⟨rfl, rfl⟩

theorem processHeaders_keeps (s : HeadersSyncState) (headers : List CBlockHeader) :
    (processHeaders c s headers).1.processAllRemainingHeaders = s.processAllRemainingHeaders ∧
      (processHeaders c s headers).1.downloadState = s.downloadState := by
  induction headers generalizing s with
  | nil => exact ⟨rfl, rfl⟩
  | cons hdr rest ih =>
    rw [processHeaders]
    have hkeeps := validateAndProcessSingleHeader_keeps c s hdr
    generalize validateAndProcessSingleHeader c s hdr = r at hkeeps
    obtain ⟨t, ok⟩ := r
    cases ok with
    | false => exact hkeeps
    | true => exact ⟨(ih t).1.trans hkeeps.1, (ih t).2.trans hkeeps.2⟩

/-- The first phase lasts, or the second begins with nothing accepted. -/
theorem validateAndStoreHeadersCommitments_phase
    (hst : s.downloadState = .presync) (hall : s.processAllRemainingHeaders = false)
    (headers : List CBlockHeader) (ht : t = (validateAndStoreHeadersCommitments c s headers).1) :
    (t.downloadState = .presync ∧ t.processAllRemainingHeaders = false) ∨
      Redownloading c t [] [] := by
  subst ht
  unfold validateAndStoreHeadersCommitments
  split
  · exact Or.inl ⟨hst, hall⟩
  · rename_i first rest
    have hkeeps := processHeaders_keeps c s (first :: rest)
    generalize processHeaders c s (first :: rest) = r at hkeeps
    obtain ⟨t, ok⟩ := r
    rw [hst, hall] at hkeeps
    split_ifs
    · exact Or.inl ⟨hst, hall⟩
    · exact Or.inl ⟨hst, hall⟩
    · cases ok with
      | false => exact Or.inl ⟨hkeeps.2, hkeeps.1⟩
      | true =>
        dsimp only
        split_ifs
        · exact Or.inr (Redownloading.start hkeeps.1)
        · exact Or.inl ⟨hkeeps.2, hkeeps.1⟩

theorem finalizeUnlessMore_cases (r : HeadersSyncState × ProcessingResult) :
    (finalizeUnlessMore r).2 = r.2 ∧
      ((finalizeUnlessMore r).1 = r.1 ∨ (finalizeUnlessMore r).1.downloadState = .final) := by
  unfold finalizeUnlessMore
  split_ifs
  · exact ⟨rfl, Or.inl rfl⟩
  · exact ⟨rfl, Or.inr rfl⟩

end HeadersSyncState

/-! ### Whole syncs -/

/-- A sync with what it accepted in its second phase and what it returned. -/
structure SyncLog where
  state : HeadersSyncState
  accepted : List CBlockHeader
  released : List CBlockHeader

namespace SyncLog
open HeadersSyncState

variable (c)

def start : SyncLog := ⟨.init c, [], []⟩

def call (log : SyncLog) (headers : List CBlockHeader) (full : Bool) : SyncLog where
  state := (processNextHeaders c log.state headers full).1
  accepted := log.accepted ++
    if log.state.downloadState = .redownload then storedHeaders c log.state headers else []
  released := log.released ++ (processNextHeaders c log.state headers full).2.powValidatedHeaders

def run (calls : List (List CBlockHeader × Bool)) : SyncLog :=
  calls.foldl (fun log message => log.call c message.1 message.2) (start c)

structure Sound (c : SyncConfig) (log : SyncLog) : Prop where
  released : log.released <+: log.accepted
  chain : HeaderChain c.chainStart.phashBlock log.accepted
  presync : log.state.downloadState = .presync →
    log.accepted = [] ∧ log.state.processAllRemainingHeaders = false
  redownload : log.state.downloadState = .redownload →
    Redownloading c log.state log.accepted log.released

/-- Every header that is new in the second log was held back long enough, or is
on a chain with enough work. -/
def ReleasesReady (log next : SyncLog) : Prop :=
  ∀ i, log.released.length ≤ i → i < next.released.length →
    i + 1 + redownloadBufferSize ≤ next.accepted.length ∨ c.WorkReached next.accepted

theorem Sound.start : (start c).Sound c where
  released := prefix_rfl
  chain := trivial
  presync := fun _ => ⟨rfl, rfl⟩
  redownload := fun h => by cases h

variable {c}

/-- A log whose state is final only has to be consistent in what it recorded. -/
theorem Sound.of_final (hst : log.state.downloadState = .final)
    (hrel : log.released <+: log.accepted)
    (hchain : HeaderChain c.chainStart.phashBlock log.accepted) : log.Sound c where
  released := hrel
  chain := hchain
  presync := fun h => by rw [hst] at h; cases h
  redownload := fun h => by rw [hst] at h; cases h

theorem releasesReady_of_eq {next : SyncLog} (h : next.released = log.released) :
    ReleasesReady c log next := fun i hle hlt => by
  rw [h] at hlt
  omega

variable {headers : List CBlockHeader}

theorem Sound.call_presync (h : log.Sound c) (hst : log.state.downloadState = .presync)
    (hne : headers.isEmpty = false) (full : Bool) :
    (log.call c headers full).Sound c ∧ ReleasesReady c log (log.call c headers full) := by
  obtain ⟨hacc, hall⟩ := h.presync hst
  have hphase := validateAndStoreHeadersCommitments_phase c hst hall headers rfl
  have hrel : log.released = [] := prefix_nil.mp (hacc ▸ h.released)
  obtain ⟨hres, hnext⟩ := finalizeUnlessMore_cases (processPresync c log.state headers full)
  have hcall : processNextHeaders c log.state headers full =
      finalizeUnlessMore (processPresync c log.state headers full) := by
    simp [processNextHeaders, hne, hst]
  have hnone : (log.call c headers full).released = [] := by
    simp only [call, hcall, hres, hrel]
    rfl
  have hno : (log.call c headers full).accepted = [] := by simp [call, hst, hacc]
  refine ⟨?_, releasesReady_of_eq (hnone.trans hrel.symm)⟩
  rcases hnext with hsame | hfin
  · have hnew : (log.call c headers full).state =
        (validateAndStoreHeadersCommitments c log.state headers).1 := by
      simp only [call, hcall, hsame]
      rfl
    rw [← hnew] at hphase
    rcases hphase with ⟨hpresync, hall'⟩ | hredo
    · refine ⟨by rw [hnone]; exact nil_prefix, by rw [hno]; trivial,
        fun _ => ⟨hno, hall'⟩, fun hcontra => ?_⟩
      rw [hpresync] at hcontra
      cases hcontra
    · refine ⟨by rw [hnone]; exact nil_prefix, by rw [hno]; trivial, fun hcontra => ?_,
        fun _ => by rw [hnone, hno]; exact hredo⟩
      rw [hredo.state] at hcontra
      cases hcontra
  · exact .of_final (by rw [call, hcall]; exact hfin) (by rw [hnone]; exact nil_prefix)
      (by rw [hno]; trivial)

theorem Sound.call_redownload (h : log.Sound c) (hst : log.state.downloadState = .redownload)
    (hne : headers.isEmpty = false) (full : Bool) :
    (log.call c headers full).Sound c ∧ ReleasesReady c log (log.call c headers full) := by
  have hcall : processNextHeaders c log.state headers full =
      finalizeUnlessMore (processRedownload c log.state headers full) := by
    simp [processNextHeaders, hne, hst]
  obtain ⟨hres, hnext⟩ := finalizeUnlessMore_cases (processRedownload c log.state headers full)
  obtain ⟨hchain, hdone⟩ := (h.redownload hst).storeHeaders headers
  have hacc : (log.call c headers full).accepted =
      log.accepted ++ storedHeaders c log.state headers := by simp [call, hst]
  have hrel : (log.call c headers full).released = log.released ++
      (processRedownload c log.state headers full).2.powValidatedHeaders := by
    simp [call, hcall, hres]
  have hst' : (log.call c headers full).state =
      (finalizeUnlessMore (processRedownload c log.state headers full)).1 := by
    simp [call, hcall]
  cases hok : (storeHeaders c log.state headers).2 with
  | false =>
    -- a header was refused: nothing is returned and the sync ends
    have hfail : processRedownload c log.state headers full =
        ((storeHeaders c log.state headers).1, ⟨[], false, false⟩) := by
      rw [processRedownload]
      generalize storeHeaders c log.state headers = r at hok
      obtain ⟨t, ok⟩ := r
      obtain rfl : ok = false := hok
      rfl
    rw [hfail, append_nil] at hrel
    refine ⟨.of_final ?_ ?_ ?_, releasesReady_of_eq hrel⟩
    · rw [hst', hfail]
      rfl
    · rw [hrel, hacc]
      exact h.released.trans (prefix_append _ _)
    · rw [hacc]
      exact hchain
  | true =>
    obtain ⟨hsto, hbef⟩ := hdone hok
    rw [hsto] at hacc hchain
    generalize hr : storeHeaders c log.state headers = r at hok hbef
    obtain ⟨t, ok⟩ := r
    obtain rfl : ok = true := hok
    obtain ⟨hready, haft, hall⟩ := hbef.pop
    have hsucc : (processRedownload c log.state headers full).1 =
          t.popHeadersReadyForAcceptance.1 ∧
        (processRedownload c log.state headers full).2.powValidatedHeaders =
          t.popHeadersReadyForAcceptance.2 := by
      rw [processRedownload, hr]
      exact ⟨rfl, rfl⟩
    rw [hsucc.2, hready] at hrel
    rw [hsucc.1] at hnext
    have hinit : (log.call c headers full).released <+: (log.call c headers full).accepted := by
      obtain ⟨waiting, hwait, -⟩ := haft.buffer
      rw [hrel, hacc]
      exact ⟨waiting, hwait.symm⟩
    refine ⟨?_, fun i hle hlt => ?_⟩
    · rcases hnext with hsame | hfin
      · rw [← hst'] at hsame
        refine ⟨hinit, by rw [hacc]; exact hchain, fun hcontra => ?_, fun _ => ?_⟩
        · rw [hsame, haft.state] at hcontra
          cases hcontra
        · rw [hsame, hrel, hacc]
          exact haft
      · exact .of_final (by rw [hst']; exact hfin) hinit (by rw [hacc]; exact hchain)
    · cases hflag : t.processAllRemainingHeaders with
      | true =>
        right
        rw [hacc]
        exact hbef.all.mp hflag
      | false =>
        rw [hrel, hflag] at hlt
        simp only [popCount, Bool.false_eq_true, if_false, length_append, length_take,
          length_drop] at hlt
        rw [hacc, length_append]
        omega

/-- One call keeps a log sound and returns only headers that are ready. -/
theorem Sound.call (h : log.Sound c) (headers : List CBlockHeader) (full : Bool) :
    (log.call c headers full).Sound c ∧ ReleasesReady c log (log.call c headers full) := by
  -- an empty message and a finished sync change nothing
  have hidle (hsame : processNextHeaders c log.state headers full = (log.state, ⟨[], false, false⟩))
      (hsto : (if log.state.downloadState = .redownload then storedHeaders c log.state headers
        else []) = []) :
      (log.call c headers full).Sound c ∧ ReleasesReady c log (log.call c headers full) := by
    have heq : log.call c headers full = log := by
      simp [SyncLog.call, hsame, hsto]
    rw [heq]
    exact ⟨h, releasesReady_of_eq rfl⟩
  cases hne : headers.isEmpty with
  | true =>
    obtain rfl := isEmpty_iff.mp hne
    exact hidle rfl (by simp [storedHeaders])
  | false =>
    cases hst : log.state.downloadState with
    | final => exact hidle (by simp [processNextHeaders, hne, hst]) (by simp [hst])
    | presync => exact h.call_presync hst hne full
    | redownload => exact h.call_redownload hst hne full

theorem run_sound (c : SyncConfig) (calls : List (List CBlockHeader × Bool)) :
    (run c calls).Sound c := by
  induction calls using reverseRecOn with
  | nil => exact .start c
  | append_singleton calls message ih =>
    rw [run, foldl_append]
    exact (ih.call message.1 message.2).1

/-- Whatever calls are made, the headers returned so far are the first of the
headers accepted so far and form a chain on the chain start, and the next call
returns only headers with a full buffer of accepted headers behind them, or all
once the required work has been seen. -/
theorem released_headers_faithful (c : SyncConfig) (calls : List (List CBlockHeader × Bool)) :
    (run c calls).released <+: (run c calls).accepted ∧
      HeaderChain c.chainStart.phashBlock (run c calls).released ∧
      ∀ headers full, ReleasesReady c (run c calls) ((run c calls).call c headers full) := by
  have hsound := run_sound c calls
  exact ⟨hsound.released, hsound.chain.of_prefix hsound.released,
    fun headers full => (hsound.call headers full).2⟩

end SyncLog
end Lithium
