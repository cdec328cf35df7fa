import Lithium.ChainParams
import Lithium.HeadersSync.Release

/-!
# An honest peer

A peer that serves one valid chain twice gets its headers through. The bits
that the first download leaves in the queue are the samples of the chain at the
commitment heights; the second download takes them out at the same heights,
whatever the sizes of the messages, until the required work is reached.

The first download computes heights as `int`, the second in 64 bits. They agree
on chains whose heights fit an `int`, and not beyond.
-/

namespace Lithium
open Lib List SyncConfig ProcessingResult SyncLog
variable {xs ys seen headers first chain accepted released : List CBlockHeader} {c : SyncConfig}
  {s : HeadersSyncState} {header : CBlockHeader} (hash : Uint256) (n : Nat)

/-! ### Chains -/

/-- The target of the last header, or of what is below. -/
def lastNBits : UInt32 → List CBlockHeader → UInt32
  | nBits, [] => nBits
  | _, header :: rest => lastNBits header.nBits rest

/-- The changes of difficulty along some headers are permitted. -/
def TransitionsPermitted (params : Params) : Int → UInt32 → List CBlockHeader → Prop
  | _, _, [] => True
  | height, nBits, header :: rest =>
    permittedDifficultyTransition params (height + 1) nBits header.nBits = true ∧
      TransitionsPermitted params (height + 1) header.nBits rest

theorem lastNBits_append (nBits : UInt32) (xs ys : List CBlockHeader) :
    lastNBits nBits (xs ++ ys) = lastNBits (lastNBits nBits xs) ys := by
  induction xs generalizing nBits with
  | nil => rfl
  | cons x xs ih => exact ih x.nBits

theorem transitionsPermitted_append {params : Params} {height : Int} {nBits : UInt32} :
    TransitionsPermitted params height nBits (xs ++ ys) ↔
      TransitionsPermitted params height nBits xs ∧
        TransitionsPermitted params (height + xs.length) (lastNBits nBits xs) ys := by
  induction xs generalizing height nBits with
  | nil => simp [TransitionsPermitted, lastNBits]
  | cons x xs ih =>
    have hlen : height + ((x :: xs).length : Int) = height + 1 + xs.length := by
      rw [length_cons]
      omega
    rw [cons_append, TransitionsPermitted, TransitionsPermitted, ih, hlen, and_assoc]
    rfl

/-- A chain of headers on the chain start with permitted changes of difficulty. -/
structure ValidChain (c : SyncConfig) (headers : List CBlockHeader) : Prop where
  chain : HeaderChain c.chainStart.phashBlock headers
  permitted : TransitionsPermitted c.consensusParams c.chainStart.nHeight c.chainStart.nBits headers

theorem ValidChain.of_prefix (hpre : xs <+: ys) (h : ValidChain c ys) : ValidChain c xs := by
  obtain ⟨zs, rfl⟩ := hpre
  exact ⟨(linked_append.mp h.chain).1, (transitionsPermitted_append.mp h.permitted).1⟩

/-- The last header of a valid chain connects to the ones before. -/
theorem ValidChain.concat {x : CBlockHeader} (h : ValidChain c (xs ++ [x])) :
    x.hashPrevBlock = headerTip c.chainStart.phashBlock xs ∧
      permittedDifficultyTransition c.consensusParams (c.chainStart.nHeight + xs.length + 1)
        (lastNBits c.chainStart.nBits xs) x.nBits = true :=
  ⟨(linked_append.mp h.chain).2.1, (transitionsPermitted_append.mp h.permitted).2.1⟩

/-- The commitments to headers that start above a height. -/
def SyncConfig.commitments (c : SyncConfig) : Int → List CBlockHeader → List Bool :=
  samples c.isCommitmentHeight c.commitment

theorem commitments_concat (c : SyncConfig) (height : Int) (xs : List CBlockHeader)
    (x : CBlockHeader) : c.commitments height (xs ++ [x]) = c.commitments height xs ++
      if c.isCommitmentHeight (height + xs.length + 1) then [c.commitment x] else [] := by
  rw [commitments, samples_append, samples]
  rfl

theorem commitments_length_le (c : SyncConfig) (height : Int) (hpre : xs <+: ys) :
    (c.commitments height xs).length ≤ (c.commitments height ys).length := by
  obtain ⟨zs, rfl⟩ := hpre
  rw [commitments, samples_append, length_append]
  omega

theorem narrowHeight_eq {height : Int} (hlow : -2 ^ 31 ≤ height) (hhigh : height < 2 ^ 31) :
    narrowHeight height = height := Int32.toInt_ofInt_of_le hlow hhigh

namespace HeadersSyncState

/-! ### The first download -/

/-- The state after some headers of the first download. -/
structure Presyncing (c : SyncConfig) (s : HeadersSyncState) (seen : List CBlockHeader) : Prop where
  state : s.downloadState = .presync
  all : s.processAllRemainingHeaders = false
  work : s.currentChainWork = c.chainWork seen
  height : s.currentHeight = c.chainStart.nHeight + seen.length
  lastHash : s.lastHeaderReceived.getHash = headerTip c.chainStart.phashBlock seen
  lastNBits : s.lastHeaderReceived.nBits = lastNBits c.chainStart.nBits seen
  commitments : s.headerCommitments = c.commitments c.chainStart.nHeight seen

/-- What the first download asks of a chain besides validity. -/
structure Acceptable (c : SyncConfig) (headers : List CBlockHeader) : Prop
    extends ValidChain c headers where
  isInt : -2 ^ 31 ≤ c.chainStart.nHeight
  fits : c.chainStart.nHeight + headers.length < 2 ^ 31
  few : (c.commitments c.chainStart.nHeight headers).length ≤ c.maxCommitments

theorem Acceptable.of_prefix (hpre : xs <+: ys) (h : Acceptable c ys) : Acceptable c xs := by
  have hlen := hpre.length_le
  have hfits := h.fits
  exact ⟨h.toValidChain.of_prefix hpre, h.isInt, by omega,
    (commitments_length_le c _ hpre).trans h.few⟩

theorem presyncing_init (hstart : c.chainStart.getBlockHeader.getHash = c.chainStart.phashBlock) :
    Presyncing c (init c) [] where
  state := rfl
  all := rfl
  work := by simp [init, chainWork, calculateHeadersWork]
  height := by simp [init]
  lastHash := hstart
  lastNBits := rfl
  commitments := rfl

theorem Presyncing.single (h : Presyncing c s seen) (hok : Acceptable c (seen ++ [header])) :
    ∃ t, validateAndProcessSingleHeader c s header = (t, true) ∧
      Presyncing c t (seen ++ [header]) := by
  have hlow := hok.isInt
  have hfits := hok.fits
  rw [length_append, length_singleton] at hfits
  have hht : narrowHeight (s.currentHeight + 1) = c.chainStart.nHeight + seen.length + 1 := by
    rw [h.height]
    exact narrowHeight_eq (by omega) (by push_cast at hfits; omega)
  have hfew := hok.few
  rw [commitments_concat, ← h.commitments] at hfew
  have hperm := hok.toValidChain.concat.2
  rw [← h.lastNBits] at hperm
  -- the queue after the header, committed to or not
  generalize hq : s.headerCommitments ++
    (if c.isCommitmentHeight (c.chainStart.nHeight + seen.length + 1) then [c.commitment header]
      else []) = queue at hfew
  refine ⟨{ s with
    headerCommitments := queue
    currentChainWork := s.currentChainWork + getBlockProof header.nBits
    lastHeaderReceived := header
    currentHeight := c.chainStart.nHeight + seen.length + 1 }, ?_, ?_⟩
  · rw [validateAndProcessSingleHeader, if_neg (not_not.mpr h.state)]
    simp only [hht, hperm, Bool.not_true, Bool.false_eq_true, if_false]
    cases hcommits : c.isCommitmentHeight (c.chainStart.nHeight + seen.length + 1) with
    | false =>
      simp only [hcommits, Bool.false_eq_true, if_false, append_nil] at hq
      simp [← hq]
    | true =>
      simp only [hcommits, if_true] at hq
      simp only [hq, Bool.true_and, if_true, decide_eq_true_iff]
      rw [if_neg (by omega)]
  · refine ⟨h.state, h.all, ?_, ?_, ?_, ?_, ?_⟩
    · change s.currentChainWork + _ = _
      rw [h.work, chainWork_concat]
    · change c.chainStart.nHeight + (seen.length : Int) + 1 = _
      rw [length_append, length_singleton]
      omega
    · rw [headerTip, chainTip_append]
      rfl
    · rw [lastNBits_append]
      rfl
    · rw [commitments_concat, ← h.commitments]
      exact hq.symm

theorem Presyncing.processHeaders (h : Presyncing c s seen) (hok : Acceptable c (seen ++ headers)) :
    ∃ t, HeadersSyncState.processHeaders c s headers = (t, true) ∧
      Presyncing c t (seen ++ headers) := by
  induction headers generalizing s seen with
  | nil => exact ⟨s, rfl, by simpa using h⟩
  | cons hdr rest ih =>
    rw [append_cons] at hok
    obtain ⟨t, hstep, ht⟩ := h.single (hok.of_prefix (prefix_append _ _))
    obtain ⟨u, hrest, hu⟩ := ih ht hok
    refine ⟨u, ?_, by rw [append_cons]; exact hu⟩
    rw [HeadersSyncState.processHeaders, hstep]
    exact hrest

/-- A message of the first download is taken whole. It ends the phase if the
required work is reached; otherwise a full message asks for more. -/
theorem Presyncing.message {full : Bool} (h : Presyncing c s seen) (hne : headers ≠ [])
    (hok : Acceptable c (seen ++ headers))
    (hmore : c.minimumRequiredWork ≤ c.chainWork (seen ++ headers) ∨ full = true) :
    ∃ t, processNextHeaders c s headers full = (t, ⟨[], true, true⟩) ∧
      ((c.minimumRequiredWork ≤ c.chainWork (seen ++ headers) ∧ Redownloading c t [] [] ∧
          t.headerCommitments = c.commitments c.chainStart.nHeight (seen ++ headers)) ∨
        (¬ c.minimumRequiredWork ≤ c.chainWork (seen ++ headers) ∧
          Presyncing c t (seen ++ headers))) := by
  obtain ⟨first, rest, rfl⟩ := exists_cons_of_ne_nil hne
  obtain ⟨t, hprocess, ht⟩ := h.processHeaders hok
  have hconnects : first.hashPrevBlock = s.lastHeaderReceived.getHash := by
    rw [h.lastHash]
    exact (linked_append.mp hok.chain).2.1
  have hsto : validateAndStoreHeadersCommitments c s (first :: rest) =
      if t.currentChainWork ≥ c.minimumRequiredWork then (startRedownload c t, true)
      else (t, true) := by
    simp [validateAndStoreHeadersCommitments, h.state, hconnects, hprocess]
  have hcall : processNextHeaders c s (first :: rest) full =
      finalizeUnlessMore (processPresync c s (first :: rest) full) := by
    simp [processNextHeaders, h.state]
  rw [hcall, processPresync, hsto]
  by_cases hreach : c.minimumRequiredWork ≤ c.chainWork (seen ++ first :: rest)
  · refine ⟨startRedownload c t, ?_, Or.inl ⟨hreach, Redownloading.start ht.all, ht.commitments⟩⟩
    simp [ht.work, hreach, finalizeUnlessMore, startRedownload]
  · refine ⟨t, ?_, Or.inr ⟨hreach, ht⟩⟩
    simp [ht.work, hreach, finalizeUnlessMore, hmore.resolve_left hreach]

/-! ### The second download -/

/-- The state after some headers of the second download, for a chain that was
served up to `first` in the first one. -/
structure Replaying (c : SyncConfig) (first : List CBlockHeader) (s : HeadersSyncState)
    (accepted released : List CBlockHeader) : Prop extends Redownloading c s accepted released where
  lastNBits : s.previousNBits c = lastNBits c.chainStart.nBits accepted
  commitments : s.processAllRemainingHeaders = false → s.headerCommitments =
    c.commitments (c.chainStart.nHeight + accepted.length) (first.drop accepted.length)

theorem Redownloading.replaying (h : Redownloading c s [] [])
    (hq : s.headerCommitments = c.commitments c.chainStart.nHeight first) :
    Replaying c first s [] [] where
  toRedownloading := h
  lastNBits := by
    obtain ⟨waiting, hnil, hbuffer⟩ := h.buffer
    obtain rfl : waiting = [] := by simpa using hnil.symm
    simp [previousNBits, hbuffer, lastNBits]
  commitments := fun _ => by simpa using hq

/-- While the required work is not reached the headers are still among those of
the first download. -/
theorem length_lt_of_not_workReached (hfst : first <+: chain) (hne : first ≠ [])
    (hwork : c.minimumRequiredWork ≤ c.chainWork first) (hpre : accepted <+: chain)
    (h : ¬ c.WorkReached accepted) : accepted.length < first.length := by
  by_contra hle
  exact h ⟨first, hne, prefix_of_prefix_length_le hfst hpre (by omega), hwork⟩

theorem Redownloading.previousNBits_eq (h : Redownloading c s accepted released)
    (hlt : released.length < accepted.length) :
    s.previousNBits c = lastNBits c.chainStart.nBits accepted := by
  obtain ⟨waiting, rfl, hbuffer⟩ := h.buffer
  have hne : waiting ≠ [] := by
    rintro rfl
    simp at hlt
  obtain ⟨front, last, rfl⟩ := (eq_nil_or_concat waiting).resolve_left hne
  rw [previousNBits, hbuffer, concat_eq_append, ← append_assoc, lastNBits_append, map_append,
    map_singleton,
    getLast?_concat]
  rfl

theorem headerCommitments_pop (s : HeadersSyncState) :
    s.popHeadersReadyForAcceptance.1.headerCommitments = s.headerCommitments := by
  rw [popHeadersReadyForAcceptance]
  split <;> rfl

/-- A state with another queue of commitments. -/
def withCommitments (s : HeadersSyncState) (queue : List Bool) : HeadersSyncState :=
  { s with headerCommitments := queue }

section Replay
variable {c : SyncConfig} {chain first : List CBlockHeader} (hchain : ValidChain c chain)
  (hfst : first <+: chain) (hne : first ≠ [])
  (hwork : c.minimumRequiredWork ≤ c.chainWork first)
include hfst hne hwork

/-- The commitment of a header of the chain is the next one in the queue. -/
theorem checkCommitment_of_replaying (h : Replaying c first s accepted released)
    (hpre : accepted ++ [header] <+: chain) :
    ∃ queue, (s.countRedownloaded c header).checkCommitment c header =
        ((s.countRedownloaded c header).withCommitments queue, true) ∧
      ((s.countRedownloaded c header).processAllRemainingHeaders = false →
        queue = c.commitments (c.chainStart.nHeight + (accepted ++ [header]).length)
          (first.drop (accepted ++ [header]).length)) := by
  by_cases hall : (s.countRedownloaded c header).processAllRemainingHeaders = true
  · refine ⟨(s.countRedownloaded c header).headerCommitments, ?_, fun hcontra => ?_⟩
    · rw [checkCommitment, if_neg (by simp [hall])]
      rfl
    · rw [hall] at hcontra
      cases hcontra
  · have hflag : s.processAllRemainingHeaders = false ∧
        ¬ c.minimumRequiredWork ≤ c.chainWork (accepted ++ [header]) := by
      simp only [countRedownloaded, Bool.not_eq_true, Bool.or_eq_false_iff, decide_eq_false_iff_not,
        h.work, ← chainWork_concat] at hall
      exact hall
    have hnot : ¬ c.WorkReached (accepted ++ [header]) := by
      rw [workReached_concat, ← h.all]
      simp [hflag]
    have hlt := length_lt_of_not_workReached hfst hne hwork hpre hnot
    -- so the header is the next one of the first download
    obtain ⟨more, hmore⟩ : accepted ++ [header] <+: first :=
      prefix_of_prefix_length_le hpre hfst hlt.le
    have hdrop : first.drop accepted.length = header :: more := by
      rw [← hmore, append_assoc, drop_left]
      rfl
    have hdrop' : first.drop (accepted ++ [header]).length = more := by
      rw [← hmore, drop_left]
    have hq : (s.countRedownloaded c header).headerCommitments =
        c.commitments (c.chainStart.nHeight + accepted.length) (header :: more) := by
      rw [← hdrop, ← h.commitments hflag.1]
      rfl
    have hht : (s.countRedownloaded c header).redownloadBufferLastHeight + 1 =
        c.chainStart.nHeight + accepted.length + 1 := by
      rw [← h.height]
      rfl
    have hlen : c.chainStart.nHeight + ((accepted ++ [header]).length : Int) =
        c.chainStart.nHeight + accepted.length + 1 := by
      rw [length_append, length_singleton]
      omega
    rw [checkCommitment, hht, hdrop', hlen]
    by_cases hcommits : c.isCommitmentHeight (c.chainStart.nHeight + accepted.length + 1) = true
    · rw [commitments, samples_cons_of_pick _ _ hcommits] at hq
      refine ⟨_, ?_, fun _ => rfl⟩
      rw [if_pos (by simp [hall, hcommits]), hq]
      simp only [beq_self_eq_true]
      rfl
    · rw [commitments, samples_cons_of_not_pick _ _ (Bool.eq_false_iff.mpr hcommits)] at hq
      refine ⟨_, ?_, fun _ => hq⟩
      rw [if_neg (by simp [hcommits])]
      rfl

include hchain

section
variable (h : Replaying c first s accepted released)

include h

/-- A header of the chain is accepted. -/
theorem Replaying.single (hpre : accepted ++ [header] <+: chain) :
    ∃ t, validateAndStoreRedownloadedHeader c s header = (t, true) ∧
      Replaying c first t (accepted ++ [header]) released := by
  obtain ⟨hlink, hperm⟩ := (hchain.of_prefix hpre).concat
  obtain ⟨queue, hck, hq⟩ := checkCommitment_of_replaying hfst hne hwork h hpre
  have hstep : validateAndStoreRedownloadedHeader c s header =
      (((s.countRedownloaded c header).withCommitments queue).storeRedownloaded header, true) := by
    rw [← h.lastNBits, ← h.height] at hperm
    simp [validateAndStoreRedownloadedHeader, h.state, hlink, h.lastHash, hperm, hck]
  refine ⟨_, hstep, h.toRedownloading.stores (stores_of_true hstep), ?_, hq⟩
  rw [lastNBits_append]
  simp only [previousNBits, storeRedownloaded, getLast?_concat]
  rfl

theorem Replaying.storeHeaders (hpre : accepted ++ headers <+: chain) :
    ∃ t, HeadersSyncState.storeHeaders c s headers = (t, true) ∧
      Replaying c first t (accepted ++ headers) released := by
  induction headers generalizing s accepted with
  | nil => exact ⟨s, rfl, by simpa using h⟩
  | cons hdr rest ih =>
    rw [append_cons] at hpre
    obtain ⟨t, hstep, ht⟩ := h.single hchain hfst hne hwork ((prefix_append _ _).trans hpre)
    obtain ⟨u, hrest, hu⟩ := ih ht hpre
    refine ⟨u, ?_, by rw [append_cons]; exact hu⟩
    rw [HeadersSyncState.storeHeaders, hstep]
    exact hrest

/-- A message of the second download is taken whole. If the required work has
been reached everything is returned and the sync is over; otherwise a full
message asks for more. -/
theorem Replaying.message {full : Bool} (hmsg : headers ≠ []) (hpre : accepted ++ headers <+: chain)
    (hmore : c.WorkReached (accepted ++ headers) ∨ full = true) :
    ∃ t ready more, processNextHeaders c s headers full = (t, ⟨ready, true, more⟩) ∧
      ((c.WorkReached (accepted ++ headers) ∧ t.downloadState = .final ∧
          released ++ ready = accepted ++ headers) ∨ (¬ c.WorkReached (accepted ++ headers) ∧
          Replaying c first t (accepted ++ headers) (released ++ ready) ∧
          ready = ((accepted ++ headers).drop released.length).take
            (popCount false ((accepted ++ headers).drop released.length).length))) := by
  obtain ⟨t, hstore, ht⟩ := h.storeHeaders hchain hfst hne hwork hpre
  obtain ⟨hready, haft, hall⟩ := ht.pop
  obtain ⟨waiting, hwait, hbuffer⟩ := ht.buffer
  obtain ⟨left, hleft, hbuffer'⟩ := haft.buffer
  have hdrop : (accepted ++ headers).drop released.length = waiting := by
    rw [hwait, drop_left]
  rw [hdrop] at hready haft hleft
  have hcall : processNextHeaders c s headers full =
      finalizeUnlessMore (processRedownload c s headers full) := by
    simp [processNextHeaders, h.state, hmsg]
  have hprocess : processRedownload c s headers full =
      (t.popHeadersReadyForAcceptance.1, ⟨t.popHeadersReadyForAcceptance.2, true,
        !(t.popHeadersReadyForAcceptance.1.redownloadedHeaders.isEmpty &&
          t.popHeadersReadyForAcceptance.1.processAllRemainingHeaders) && full⟩) := by
    rw [processRedownload, hstore]
  rw [hcall, hprocess, hall, hready]
  by_cases hreach : c.WorkReached (accepted ++ headers)
  · have hflag := ht.all.mpr hreach
    rw [hflag] at hleft haft ⊢
    simp only [popCount, if_true, take_length] at hleft haft ⊢
    obtain rfl : left = [] := by
      rw [hwait, append_assoc, append_cancel_left_eq] at hleft
      simpa using hleft
    refine ⟨t.popHeadersReadyForAcceptance.1.finalize, waiting, false, ?_,
      Or.inl ⟨hreach, rfl, hwait.symm⟩⟩
    simp [hbuffer', finalizeUnlessMore]
  · have hflag : t.processAllRemainingHeaders = false :=
      Bool.eq_false_iff.mpr fun htrue => hreach (ht.all.mp htrue)
    rw [hflag] at haft hleft ⊢
    refine ⟨t.popHeadersReadyForAcceptance.1, _, true, ?_, Or.inr ⟨hreach,
      ⟨haft, ?_, ?_⟩, by rw [hdrop]⟩⟩
    · simp [finalizeUnlessMore, hmore.resolve_left hreach]
    · refine haft.previousNBits_eq ?_
      -- the buffer does not run empty
      obtain ⟨before, hbef, -⟩ := h.buffer
      have hlen := congrArg length hwait
      have hlen' := congrArg length hbef
      have hpos := length_pos_iff.mpr hmsg
      have hbufferSize : 0 < redownloadBufferSize := by decide
      simp only [length_append, length_take, popCount, Bool.false_eq_true, if_false] at hlen hlen' ⊢
      omega
    · intro _
      rw [headerCommitments_pop]
      exact ht.commitments hflag

end
end Replay

/-! ### Serving a chain -/

/-- Serve messages as long as the sync is in a phase: the state at the end and
the results of the calls. -/
def servePhase (c : SyncConfig) (phase : DownloadState) :
    HeadersSyncState → List (List CBlockHeader × Bool) → HeadersSyncState × List ProcessingResult
  | s, [] => (s, [])
  | s, message :: rest =>
    if s.downloadState = phase then
      match processNextHeaders c s message.1 message.2 with
      | (s, result) =>
        match servePhase c phase s rest with
        | (s, results) => (s, result :: results)
    else (s, [])

variable {phase : DownloadState}

theorem servePhase_of_ne (h : s.downloadState ≠ phase)
    (messages : List (List CBlockHeader × Bool)) : servePhase c phase s messages = (s, []) := by
  cases messages with
  | nil => rfl
  | cons message rest => rw [servePhase, if_neg h]

theorem servePhase_cons {t : HeadersSyncState} {message : List CBlockHeader × Bool}
    {result : ProcessingResult} (h : s.downloadState = phase)
    (hcall : processNextHeaders c s message.1 message.2 = (t, result))
    (rest : List (List CBlockHeader × Bool)) : servePhase c phase s (message :: rest) =
      ((servePhase c phase t rest).1, result :: (servePhase c phase t rest).2) := by
  rw [servePhase, if_pos h, hcall]

/-- Full messages followed by a last one, with the given headers. -/
structure MessagesOf (messages : List (List CBlockHeader × Bool)) (headers : List CBlockHeader) :
    Prop where
  some : messages ≠ []
  nonempty : ∀ message ∈ messages, message.1 ≠ []
  full : ∀ message ∈ messages.dropLast, message.2 = true
  content : messages.flatMap Prod.fst = headers

variable {messages : List (List CBlockHeader × Bool)}

/-- A message that is not the last is full. -/
theorem MessagesOf.of_cons {message : List CBlockHeader × Bool}
    (h : MessagesOf (message :: messages) headers) : message.1 ≠ [] ∧ ∃ later,
      headers = message.1 ++ later ∧
        (later = [] ∨ message.2 = true ∧ MessagesOf messages later) := by
  refine ⟨h.nonempty message mem_cons_self, _, h.content.symm, ?_⟩
  cases messages with
  | nil => exact .inl rfl
  | cons next rest =>
    refine .inr ⟨h.full message (by simp), by simp, fun m hm => ?_, fun m hm => ?_, rfl⟩
    · exact h.nonempty m (mem_cons_of_mem _ hm)
    · exact h.full m (mem_cons_of_mem _ hm)

/-- The first download of an acceptable chain reaches the second phase with the
commitments to what was served. -/
theorem Presyncing.serve (h : Presyncing c s seen) (hmsgs : MessagesOf messages headers)
    (hcont : seen ++ headers = chain) (hok : Acceptable c chain)
    (hwork : c.minimumRequiredWork ≤ c.chainWork chain) :
    ∃ first, first ≠ [] ∧ first <+: chain ∧ c.minimumRequiredWork ≤ c.chainWork first ∧
      Redownloading c (servePhase c .presync s messages).1 [] [] ∧
      (servePhase c .presync s messages).1.headerCommitments =
        c.commitments c.chainStart.nHeight first ∧
      ∀ result ∈ (servePhase c .presync s messages).2, result = ⟨[], true, true⟩ := by
  induction messages generalizing s seen headers with
  | nil => exact absurd rfl hmsgs.some
  | cons message rest ih =>
    obtain ⟨hmsg, later, rfl, hmore⟩ := hmsgs.of_cons
    rw [← append_assoc] at hcont
    have hpre : seen ++ message.1 <+: chain := ⟨_, hcont⟩
    have hlast : later = [] → c.minimumRequiredWork ≤ c.chainWork (seen ++ message.1) := by
      rintro rfl
      rwa [← append_nil (seen ++ message.1), hcont]
    obtain ⟨t, hcall, hnext⟩ := h.message hmsg (hok.of_prefix hpre) (hmore.imp hlast And.left)
    rw [servePhase_cons h.state hcall]
    rcases hnext with ⟨hreach, hredo, hq⟩ | ⟨hnot, hpresync⟩
    · rw [servePhase_of_ne (by rw [hredo.state]; decide)]
      exact ⟨seen ++ message.1, by simp [hmsg], hpre, hreach, hredo, hq, by simp⟩
    · obtain ⟨-, hrest⟩ := hmore.resolve_left (mt hlast hnot)
      obtain ⟨first, hfst, hinit, hreach, hst, hq, hresults⟩ :=
        ih hpresync hrest hcont
      refine ⟨first, hfst, hinit, hreach, hst, hq, fun result hres => ?_⟩
      rcases mem_cons.mp hres with rfl | hres
      · rfl
      · exact hresults result hres

/-- The second download of a valid chain ends with its headers returned up to
some message with which the required work is reached. -/
theorem Replaying.serve (hchain : ValidChain c chain) (hfst : first <+: chain) (hne : first ≠ [])
    (hwork : c.minimumRequiredWork ≤ c.chainWork first) (h : Replaying c first s accepted released)
    (hmsgs : MessagesOf messages headers) (hcont : accepted ++ headers = chain) :
    (servePhase c .redownload s messages).1.downloadState = .final ∧
      (∀ result ∈ (servePhase c .redownload s messages).2, result.success = true) ∧
      ∃ returned, returned <+: chain ∧ c.WorkReached returned ∧
        released ++ (servePhase c .redownload s messages).2.flatMap
          powValidatedHeaders = returned := by
  have hreachedChain : c.WorkReached chain := ⟨first, hne, hfst, hwork⟩
  induction messages generalizing s accepted released headers with
  | nil => exact absurd rfl hmsgs.some
  | cons message rest ih =>
    obtain ⟨hmsg, later, rfl, hmore⟩ := hmsgs.of_cons
    rw [← append_assoc] at hcont
    have hpre : accepted ++ message.1 <+: chain := ⟨_, hcont⟩
    have hlast : later = [] → c.WorkReached (accepted ++ message.1) := by
      rintro rfl
      rwa [← append_nil (accepted ++ message.1), hcont]
    obtain ⟨t, ready, more, hcall, hnext⟩ := h.message hchain hfst hne hwork hmsg hpre
      (hmore.imp hlast And.left)
    rw [servePhase_cons h.state hcall]
    rcases hnext with ⟨hreach, hfin, hret⟩ | ⟨hnot, hrepl, -⟩
    · rw [servePhase_of_ne (by rw [hfin]; decide)]
      exact ⟨hfin, by simp, accepted ++ message.1, hpre, hreach, by simpa using hret⟩
    · obtain ⟨-, hrest⟩ := hmore.resolve_left (mt hlast hnot)
      obtain ⟨hfin, hsucc, returned, hret⟩ := ih hrepl hrest hcont
      refine ⟨hfin, fun result hres => ?_, returned, ?_⟩
      · rcases mem_cons.mp hres with rfl | hres
        · rfl
        · exact hsucc result hres
      · simpa using hret

/-- A peer that serves a chain with enough work, whose heights fit an `int`, and
then the same chain again, perhaps extended, sees no failure, and gets back
every header up to the one with which the required work is reached. -/
theorem honest_sync_succeeds {c : SyncConfig} {chain extension : List CBlockHeader}
    {presync redownload : List (List CBlockHeader × Bool)}
    (hstart : c.chainStart.getBlockHeader.getHash = c.chainStart.phashBlock)
    (hval : ValidChain c (chain ++ extension))
    (hisInt : -2 ^ 31 ≤ c.chainStart.nHeight) (hfits : c.chainStart.nHeight + chain.length < 2 ^ 31)
    (hfew : (c.commitments c.chainStart.nHeight chain).length ≤ c.maxCommitments)
    (hwork : c.minimumRequiredWork ≤ c.chainWork chain) (hpresync : MessagesOf presync chain)
      (hredo : MessagesOf redownload (chain ++ extension)) :
    let first := servePhase c .presync (init c) presync
    let second := servePhase c .redownload first.1 redownload
    first.1.downloadState = .redownload ∧ second.1.downloadState = .final ∧
      (∀ result ∈ first.2 ++ second.2, result.success = true) ∧
      ∃ n, (first.2 ++ second.2).flatMap powValidatedHeaders =
          (chain ++ extension).take n ∧
        ∀ k ≤ chain.length, (∀ j < k, c.chainWork (chain.take j) < c.minimumRequiredWork) →
          k ≤ n := by
  intro first second
  have hok : Acceptable c chain := ⟨hval.of_prefix (prefix_append _ _), hisInt, hfits, hfew⟩
  obtain ⟨served, hserved, hinit, hreach, hst, hq, hresults⟩ :=
    (presyncing_init hstart).serve hpresync (nil_append _) hok hwork
  obtain ⟨hfin, hsucc, returned, hret, hpassed, hcont⟩ :=
    (hst.replaying hq).serve hval (hinit.trans (prefix_append _ _)) hserved hreach
      hredo (nil_append _)
  refine ⟨hst.state, hfin, fun result hres => ?_, returned.length, ?_,
    fun k hk hlow => ?_⟩
  · rcases mem_append.mp hres with hres | hres
    · rw [hresults result hres]
    · exact hsucc result hres
  · have hno : first.2.flatMap powValidatedHeaders = [] := by
      rw [flatMap_eq_nil_iff]
      intro result hres
      rw [hresults result hres]
    rw [flatMap_append, hno, nil_append, ← prefix_iff_eq_take.mp hret]
    simpa using hcont
  · -- a shorter prefix with enough work is one of the chain before `k`
    by_contra hlt
    obtain ⟨short, -, hshort, hwork'⟩ := hpassed
    have hlen := hshort.length_le
    have heq : short = chain.take short.length := by
      refine prefix_iff_eq_take.mp (prefix_of_prefix_length_le (hshort.trans hret)
        (prefix_append _ _) (by omega))
    have hless := hlow short.length (by omega)
    rw [← heq] at hless
    exact absurd hwork' (BitVec.not_le.mpr hless)

end HeadersSyncState

/-! ### Chains of equal headers -/

def plainHeader (hashPrevBlock : Uint256) : CBlockHeader where
  nVersion := 4
  hashPrevBlock := hashPrevBlock
  hashMerkleRoot := .zero
  nTime := 0
  nBits := 0x207fffff
  nNonce := 0
  auxpow := none

def plainChain : Uint256 → Nat → List CBlockHeader
  | _, 0 => []
  | hash, n + 1 => plainHeader hash :: plainChain (plainHeader hash).getHash n

/-- A sync on the regression network that starts from its genesis block, placed
at some height. -/
def plainConfig (nHeight : Int) (commitOffset : Nat) (h : commitOffset < headerCommitmentPeriod)
    (minimumRequiredWork : ArithUint256) : SyncConfig where
  commitOffset := commitOffset
  commitOffset_lt := h
  consensusParams := regtestParams
  chainStart := { CBlockIndex.ofHeader mainGenesis.getHash mainGenesis.toCBlockHeader with
    nHeight := nHeight }
  minimumRequiredWork := minimumRequiredWork
  hasher := fun _ => 0
  maxCommitments := maxCommitmentsAt 1794700800 1411788333

@[simp] theorem plainChain_length : (plainChain hash n).length = n := by
  induction n generalizing hash with
  | zero => rfl
  | succ n ih => simp [plainChain, ih]

theorem take_plainChain {k n : Nat} (h : k ≤ n) :
    (plainChain hash n).take k = plainChain hash k := by
  induction k generalizing hash n with
  | zero => rfl
  | succ k ih =>
    obtain ⟨n, rfl⟩ : ∃ m, n = m + 1 := ⟨n - 1, by omega⟩
    rw [plainChain, plainChain, take_succ_cons, ih _ (by omega)]

theorem plainChain_chain : HeaderChain hash (plainChain hash n) := by
  induction n generalizing hash with
  | zero => trivial
  | succ n ih => exact ⟨rfl, ih _⟩

theorem plainChain_permitted (height : Int) (nBits : UInt32) (hash : Uint256) (n : Nat) :
    TransitionsPermitted regtestParams height nBits (plainChain hash n) := by
  induction n generalizing height nBits hash with
  | zero => trivial
  | succ n ih => exact ⟨rfl, ih _ _ _⟩

theorem plainChain_work : calculateHeadersWork (plainChain hash n) = BitVec.ofNat 256 (2 * n) := by
  have hproof : getBlockProof 0x207fffff = 2 := by decide +kernel
  induction n generalizing hash with
  | zero => rfl
  | succ n ih =>
    have hcons : plainChain hash (n + 1) =
        [plainHeader hash] ++ plainChain (plainHeader hash).getHash n := rfl
    have hone : calculateHeadersWork [plainHeader hash] = 2 := by
      simp [calculateHeadersWork, plainHeader, hproof]
    rw [hcons, calculateHeadersWork_append, ih, hone]
    change BitVec.ofNat 256 2 + _ = _
    rw [BitVec.ofNat_add_ofNat]
    congr 1
    omega

section PlainConfig
variable {nHeight : Int} {commitOffset : Nat} {h : commitOffset < headerCommitmentPeriod}
  {minimumRequiredWork : ArithUint256}

theorem plainConfig_chainWork {n : Nat} (hn : 2 * n < 2 ^ 256) :
    ((plainConfig nHeight commitOffset h minimumRequiredWork).chainWork
      (plainChain hash n)).toNat = 2 * n := by
  have hzero :
      (plainConfig nHeight commitOffset h minimumRequiredWork).chainStart.nChainWork = 0 := rfl
  rw [chainWork, hzero, plainChain_work]
  simpa using Nat.mod_eq_of_lt hn

theorem plainChain_valid : ValidChain (plainConfig nHeight commitOffset h minimumRequiredWork)
      (plainChain mainGenesis.getHash n) where
  chain := plainChain_chain _ n
  permitted := plainChain_permitted _ _ _ n

theorem plainConfig_start :
    (plainConfig nHeight commitOffset h minimumRequiredWork).chainStart.getBlockHeader.getHash =
      (plainConfig nHeight commitOffset h minimumRequiredWork).chainStart.phashBlock := rfl

end PlainConfig

open HeadersSyncState

theorem honest_sync_succeeds_plain : let c := plainConfig 0 1 (by decide) 4
    let chain := plainChain mainGenesis.getHash 2
    let first := servePhase c .presync (init c) [(chain, false)]
    (servePhase c .redownload first.1 [(chain, false)]).1.downloadState = .final := by
  intro c chain first
  have hcomms : (c.commitments c.chainStart.nHeight chain).length ≤ c.maxCommitments := by
    decide +kernel
  have hmsgs : MessagesOf [(chain, false)] chain :=
    ⟨by simp, by simp [chain, plainChain], by simp, by simp⟩
  have hwork : c.minimumRequiredWork ≤ c.chainWork chain := by
    decide
  have hval : ValidChain c (chain ++ []) := by
    exact plainChain_valid 2
  exact (honest_sync_succeeds plainConfig_start hval (by decide) (by decide) hcomms hwork
    hmsgs (by rw [append_nil]; exact hmsgs)).2.1

/-- From the last height that fits an `int` the two downloads disagree on the
heights: the second misses a commitment that the first did not make. -/
theorem honest_sync_fails_past_int : let c := plainConfig (2 ^ 31 - 1) 16 (by decide) 4
    let chain := plainChain mainGenesis.getHash 2
    let first := servePhase c .presync (init c) [(chain, false)]
    c.chainStart.getBlockHeader.getHash = c.chainStart.phashBlock ∧ ValidChain c chain ∧
      (c.commitments c.chainStart.nHeight chain).length ≤ c.maxCommitments ∧
      c.minimumRequiredWork ≤ c.chainWork chain ∧ MessagesOf [(chain, false)] chain ∧
      first.1.downloadState = .redownload ∧
      (servePhase c .redownload first.1 [(chain, false)]).2.map success =
        [false] := by
  intro c chain first
  refine ⟨plainConfig_start, plainChain_valid 2, by decide +kernel, by decide +kernel,
    ⟨by simp, by simp [chain, plainChain], by simp, by simp⟩, by decide +kernel, by decide +kernel⟩

/-! ### A buffer that is just full -/

theorem samples_length_le {α β : Type} (pick : Int → Bool) (bit : α → β) (n : Int) (xs : List α) :
    (samples pick bit n xs).length ≤ xs.length := by
  induction xs generalizing n with
  | nil => simp [samples]
  | cons x xs ih =>
    have hrest := ih (n + 1)
    rw [samples]
    split <;> simp only [length_cons] <;> omega

/-- The configuration in which 13961 headers are needed. -/
def longConfig : SyncConfig := plainConfig 0 0 (by decide) 27922

def longChain : List CBlockHeader := plainChain mainGenesis.getHash 13961

def shortChain : List CBlockHeader := plainChain mainGenesis.getHash 13960

theorem longChain_length : longChain.length = 13961 := plainChain_length _ _

theorem shortChain_length : shortChain.length = 13960 := plainChain_length _ _

theorem longChain_ne : longChain ≠ [] := by
  decide

theorem longChain_valid : ValidChain longConfig longChain := plainChain_valid 13961

theorem longChain_reaches : longConfig.minimumRequiredWork ≤ longConfig.chainWork longChain := by
  rw [BitVec.le_def, longChain, longConfig, plainConfig_chainWork _ (by decide)]
  decide

theorem not_workReached_shortChain : ¬ longConfig.WorkReached shortChain := by
  rintro ⟨first, -, hfst, hwork⟩
  have hlen := hfst.length_le
  rw [shortChain_length] at hlen
  rw [prefix_iff_eq_take.mp hfst, shortChain, take_plainChain _ hlen, BitVec.le_def,
    longConfig, plainConfig_chainWork _ (by omega)] at hwork
  have hmin : (plainConfig 0 0 (by decide) 27922).minimumRequiredWork.toNat = 27922 := by decide
  omega

/-- The first call of a sync, on the long chain, changes the phase. -/
theorem longChain_presync : ∃ t,
    processNextHeaders longConfig (init longConfig) longChain true = (t, ⟨[], true, true⟩) ∧
      Redownloading longConfig t [] [] ∧
      t.headerCommitments = longConfig.commitments longConfig.chainStart.nHeight longChain := by
  have hok : Acceptable longConfig ([] ++ longChain) := by
    refine ⟨longChain_valid, by decide, ?_, (samples_length_le _ _ _ _).trans ?_⟩
    · rw [nil_append, longChain_length]
      decide
    · rw [nil_append, longChain_length]
      decide
  obtain ⟨t, hcall, ⟨-, hredo, hq⟩ | ⟨hnot, -⟩⟩ :=
    (presyncing_init (c := longConfig) plainConfig_start).message longChain_ne hok (Or.inr rfl)
  · exact ⟨t, hcall, hredo, hq⟩
  · exact absurd longChain_reaches hnot

/-- A header is returned with exactly a buffer of later headers behind it, on a
chain that does not have the required work yet. -/
theorem released_with_buffer_just_full : let log := run longConfig [(longChain, true)]
    let next := log.call longConfig shortChain true
    log.released.length = 0 ∧ next.released.length = 1 ∧
      next.accepted.length = 1 + redownloadBufferSize ∧
      ¬ longConfig.WorkReached next.accepted := by
  obtain ⟨t, hcall, hredo, hq⟩ := longChain_presync
  have hlog : run longConfig [(longChain, true)] = ⟨t, [], []⟩ := by
    simp only [run, foldl_cons, foldl_nil, call, start, hcall]
    rfl
  have hpre : [] ++ shortChain <+: longChain := by
    rw [nil_append, shortChain, longChain,
      ← take_plainChain mainGenesis.getHash (show 13960 ≤ 13961 by decide)]
    exact take_prefix _ _
  have hshort : shortChain ≠ [] := by
    decide
  have hrepl := hredo.replaying hq
  obtain ⟨u, hstore, -⟩ := hrepl.storeHeaders longChain_valid prefix_rfl longChain_ne
    longChain_reaches hpre
  have hsto := ((hredo.storeHeaders shortChain).2 (by rw [hstore])).1
  obtain ⟨v, ready, more, hnext, ⟨hreach, -⟩ | ⟨-, -, hready⟩⟩ :=
    hrepl.message longChain_valid prefix_rfl longChain_ne longChain_reaches hshort hpre
      (Or.inr (rfl : true = true))
  · exact absurd hreach not_workReached_shortChain
  · have hcall' : (mk t [] []).call longConfig shortChain true = ⟨v, shortChain, ready⟩ := by
      simp [call, hredo.state, hsto, hnext]
    have hone : ready.length = 1 := by
      rw [hready, nil_append, length_take, length_nil, drop_zero, shortChain_length]
      decide
    rw [hlog]
    dsimp only
    rw [hcall']
    refine ⟨rfl, hone, ?_, not_workReached_shortChain⟩
    rw [shortChain_length]
    decide

end Lithium
