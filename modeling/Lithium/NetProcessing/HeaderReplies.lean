import Lithium.NetProcessing.GetHeaders

/-!
# Which replies get through

The replies of a node are runs of consecutive headers of its active chain, cut
off by the limit on their number or by the hash the peer wants to stop at. The
longest runs are asked for by some request, so all replies fit into a message
if and only if these do, and then a peer that keeps asking gets the whole chain.
-/

namespace Lithium
open Lib Decoder List
variable {locator : List CBlockHeader → List Uint256} (vHeaders : List CBlockHeader)

/-! ### Sizes of messages -/

/-- A header as an entry of the message. -/
abbrev serHeaderEntry (h : CBlockHeader) : Bytes := serBlock true { h with vtx := [] }

theorem writeCompactSize_length_mono {m n : Nat} (h : m ≤ n) :
    (writeCompactSize m).length ≤ (writeCompactSize n).length := by
  unfold writeCompactSize
  split_ifs <;> simp <;> omega

theorem writeCompactSize_length_le (n : Nat) : (writeCompactSize n).length ≤ 9 := by
  unfold writeCompactSize
  split_ifs <;> simp

theorem serHeadersMessage_eq : serHeadersMessage vHeaders =
      writeCompactSize vHeaders.length ++ vHeaders.flatMap serHeaderEntry := by
  rw [serHeadersMessage, serVector, length_map, flatMap_map]

theorem serHeadersMessage_length : (serHeadersMessage vHeaders).length =
      (writeCompactSize vHeaders.length).length + (vHeaders.flatMap serHeaderEntry).length := by
  rw [serHeadersMessage_eq, length_append]

theorem serHeadersMessage_take_le {k n : Nat} (h : k ≤ n) :
    (serHeadersMessage (vHeaders.take k)).length ≤
      (serHeadersMessage (vHeaders.take n)).length := by
  have hcnt : (vHeaders.take k).length ≤ (vHeaders.take n).length := by
    rw [length_take, length_take]
    omega
  have hents : ((vHeaders.take k).flatMap serHeaderEntry).length ≤
      ((vHeaders.take n).flatMap serHeaderEntry).length := by
    have hsub : List.Sublist (vHeaders.take k) (vHeaders.take n) := by
      rw [← Nat.min_eq_left h, ← take_take]
      exact take_sublist k _
    exact (hsub.flatMap _).length_le
  rw [serHeadersMessage_length, serHeadersMessage_length]
  exact Nat.add_le_add (writeCompactSize_length_mono hcnt) hents

/-- A block that passed its checks leaves less than a million bytes for its header. -/
theorem serHeaderEntry_length_le {env : ChainEnv} {block : CBlock}
    (h : checkBlock env block true = .ok ()) :
    (serHeaderEntry block.toCBlockHeader).length ≤ 1000000 := by
  have hlen := ((checkBlock_ok_iff ..).mp h).2.2.2.1
  rw [checkBlockLength] at hlen
  split_ifs at hlen with hlarge
  simp only [Bool.or_eq_true, decide_eq_true_eq, not_or, not_lt] at hlarge
  have hsize := hlarge.2
  have hpos : 1 ≤ (serVector (serTransaction false) block.vtx).length := by
    have := writeCompactSize_length_pos block.vtx.length
    rw [serVector, length_append]
    omega
  have hemp : (serVector (serTransaction true) []).length = 1 := rfl
  rw [serBlock, length_append] at hsize
  rw [serHeaderEntry, serBlock, length_append, hemp]
  dsimp only
  simp only [maxBlockWeight, witnessScaleFactor] at hsize
  omega

theorem flatMap_length_eq {α : Type} {f : α → Bytes} {b : Nat} {xs : List α}
    (h : ∀ x ∈ xs, (f x).length = b) : (xs.flatMap f).length = xs.length * b := by
  rw [length_flatMap, map_congr_left h, map_const', sum_replicate, smul_eq_mul]

/-! ### The receiving side -/

/-- What an accepted block guarantees of its header. -/
structure CBlockHeader.Servable (h : CBlockHeader) : Prop where
  readable : h.Readable
  size : (serHeaderEntry h).length ≤ 1000000

theorem CBlock.servable {env : ChainEnv} {block : CBlock} (hread : block.Readable)
    (h : checkBlock env block true = .ok ()) : block.toCBlockHeader.Servable :=
  ⟨hread.header, serHeaderEntry_length_le h⟩

/-- One header always fits into a message. -/
theorem CBlockHeader.Servable.fits {h : CBlockHeader} (hs : h.Servable) :
    (serHeadersMessage [h]).length ≤ maxProtocolMessageLength := by
  have hsize := hs.size
  have hcompact := writeCompactSize_length_le [h].length
  rw [serHeadersMessage_length, flatMap_singleton, maxProtocolMessageLength]
  omega

/-- Headers that arrive in one message of a legal size are all received. -/
theorem receiveHeaders_ok {vHeaders : List CBlockHeader}
    (hcnt : vHeaders.length ≤ maxHeadersResults) (hread : ∀ h ∈ vHeaders, h.Readable)
    (hfits : (serHeadersMessage vHeaders).length ≤ maxProtocolMessageLength) :
    receiveHeaders (serHeadersMessage vHeaders) = .ok vHeaders := by
  have hsize : acceptsMessageSize (serHeadersMessage vHeaders) = true := by
    have hlt : (serHeadersMessage vHeaders).length < 2 ^ 32 := by
      rw [maxProtocolMessageLength] at hfits
      omega
    have hcast : (UInt32.ofNat (serHeadersMessage vHeaders).length).toNat =
        (serHeadersMessage vHeaders).length := UInt32.toNat_ofNat_of_lt' hlt
    simp only [acceptsMessageSize, hcast, Bool.not_eq_true', Bool.or_eq_false_iff,
      decide_eq_false_iff_not, not_lt, maxSize]
    rw [maxProtocolMessageLength] at hfits ⊢
    omega
  have hmax : vHeaders.length ≤ maxSize := by
    rw [maxHeadersResults] at hcnt
    rw [maxSize]
    omega
  have hrun : readCompactSize.run (serHeadersMessage vHeaders) =
      .ok (⟨vHeaders.length, hmax⟩, vHeaders.flatMap serHeaderEntry) := by
    rw [serHeadersMessage_eq]
    exact exact_compactSize.reads (a := ⟨_, hmax⟩) trivial _
  have hmany : (many readHeaderEntry vHeaders.length).run (vHeaders.flatMap serHeaderEntry ++ []) =
      .ok (⟨vHeaders, rfl⟩, []) :=
    reads_many vHeaders (fun h hh => reads_headerEntry (hread h hh)) []
  rw [append_nil] at hmany
  rw [receiveHeaders, hsize, hrun]
  simp only [Bool.not_true, Bool.false_eq_true, if_false, if_neg (Nat.not_lt.mpr hcnt)]
  rw [hmany]

/-! ### The chain that is served -/

/-- A node on an accepted chain: its index knows the entries of the chain under
their hashes, and the block files, where they can be read, hold the same headers.
Entries of other branches that count as fully valid stand for blocks that
passed their checks. -/
structure NodeState.ServesChain {σ : Type} (s : NodeState) (env : ChainEnv) (keys : PubKeyOps)
    (V : CCoinsView σ) (branch : Branch) (blocks : List CBlock) (c : CCoinsViewCache σ) : Prop where
  accepted : AcceptedChain env keys V branch blocks c
  chain : s.chain = branch.map CBlockIndex.phashBlock
  known : ∀ e ∈ branch, s.lookupBlockIndex e.phashBlock = some e
  key : ∀ hash e, s.lookupBlockIndex hash = some e → e.phashBlock = hash
  stored : ∀ e ∈ branch, ∀ header, s.readBlockHeader e = some header → header = e.getBlockHeader
  stale : ∀ hash e, s.lookupBlockIndex hash = some e → e.isValid BlockStatus.validScripts = true →
    ∃ block : CBlock, block.Readable ∧ checkBlock env block true = .ok () ∧
      s.servedHeader e = block.toCBlockHeader

def chainHeaders (blocks : List CBlock) : List CBlockHeader :=
  (blocks.map CBlock.toCBlockHeader).reverse

@[simp] theorem length_chainHeaders (blocks : List CBlock) :
    (chainHeaders blocks).length = blocks.length := by
  rw [chainHeaders, length_reverse, length_map]

namespace NodeState.ServesChain
variable {σ : Type} {s : NodeState} {env : ChainEnv} {keys : PubKeyOps} {V : CCoinsView σ}
  {branch : Branch} {blocks : List CBlock} {c : CCoinsViewCache σ} {i : Nat} {e : CBlockIndex}
  {hashStop : Uint256} {ctx : GetHeadersContext} {vHave : List Uint256}
  {vHeaders : List CBlockHeader}

/-- Every longest run of headers behind the genesis block fits into a message. -/
def RunsFit (blocks : List CBlock) : Prop :=
  ∀ i, 1 ≤ i → (serHeadersMessage (((chainHeaders blocks).drop i).take maxHeadersResults)).length ≤
    maxProtocolMessageLength

/-- Heights count from the genesis block. -/
theorem nHeight_of_rooted {branch : Branch} (h : Rooted branch) {i : Nat} {e : CBlockIndex}
    (he : branch.reverse[i]? = some e) : e.nHeight = i := by
  induction branch with
  | nil => simp at he
  | cons top rest ih =>
    rw [reverse_cons, getElem?_append] at he
    split_ifs at he with hi
    · exact ih h.2 he
    · rw [length_reverse, getElem?_singleton] at he
      split_ifs at he with hzero
      cases he
      have := h.1
      rw [length_reverse] at hi
      omega

section
variable (h : s.ServesChain env keys V branch blocks c)
include h

theorem length_eq : branch.length = blocks.length := by
  simpa using congrArg length h.accepted.map_getBlockHeader

theorem exists_entry (hi : i < blocks.length) : ∃ e, branch.reverse[i]? = some e :=
  ⟨_, getElem?_eq_getElem (by rwa [length_reverse, h.length_eq])⟩

theorem chainAt_eq (i : Nat) : s.chainAt i = branch.reverse[i]? := by
  rw [chainAt, if_neg (by omega), h.chain, Int.toNat_natCast, ← map_reverse, getElem?_map]
  cases he : branch.reverse[i]? with
  | none => rfl
  | some e => exact h.known e (mem_reverse.mp (mem_of_getElem? he))

theorem chainContains_iff (he : s.lookupBlockIndex e.phashBlock = some e) :
    s.chainContains e = true ↔ e ∈ branch := by
  constructor
  · intro hcont
    obtain ⟨e', he', hhash⟩ := (Option.any_eq_true ..).mp hcont
    have hmem : e' ∈ branch := by
      rw [chainAt] at he'
      split_ifs at he' with hneg
      rw [h.chain, ← map_reverse, getElem?_map] at he'
      obtain ⟨hash, hhash', hlook⟩ := Option.bind_eq_some_iff.mp he'
      obtain ⟨e'', he'', rfl⟩ := Option.map_eq_some_iff.mp hhash'
      have hmem := mem_reverse.mp (mem_of_getElem? he'')
      rw [h.known e'' hmem] at hlook
      cases hlook
      exact hmem
    have hkn := h.known e' hmem
    rw [eq_of_beq hhash, he] at hkn
    cases hkn
    exact hmem
  · intro hmem
    obtain ⟨i, hi⟩ := mem_iff_getElem?.mp (mem_reverse.mpr hmem)
    have hht := nHeight_of_rooted h.accepted.rooted hi
    rw [chainContains, hht, h.chainAt_eq, hi]
    exact beq_self_eq_true _

theorem chainNext_eq (he : branch.reverse[i]? = some e) :
    s.chainNext e = branch.reverse[i + 1]? := by
  have hmem := mem_reverse.mp (mem_of_getElem? he)
  have hht := nHeight_of_rooted h.accepted.rooted he
  rw [chainNext, if_pos ((h.chainContains_iff (h.known e hmem)).mpr hmem), hht]
  exact_mod_cast h.chainAt_eq (i + 1)

theorem servedHeader_eq (he : e ∈ branch) : s.servedHeader e = e.getBlockHeader := by
  rw [servedHeader]
  split_ifs with hflag
  · cases hread : s.readBlockHeader e with
    | none => rfl
    | some header => exact h.stored e he header hread
  · rfl

/-- What is served at a height is the header of the block there. -/
theorem getElem?_chainHeaders (i : Nat) :
    (chainHeaders blocks)[i]? = branch.reverse[i]?.map s.servedHeader := by
  have hserved : branch.map s.servedHeader = branch.map CBlockIndex.getBlockHeader :=
    map_congr_left fun e he => h.servedHeader_eq he
  rw [chainHeaders, ← h.accepted.map_getBlockHeader, ← hserved, ← map_reverse, getElem?_map]

theorem drop_chainHeaders (he : branch.reverse[i]? = some e) :
    (chainHeaders blocks).drop i = s.servedHeader e :: (chainHeaders blocks).drop (i + 1) := by
  have hhdr : (chainHeaders blocks)[i]? = some (s.servedHeader e) := by
    rw [h.getElem?_chainHeaders, he, Option.map_some]
  obtain ⟨hi, hget⟩ := List.getElem?_eq_some_iff.mp hhdr
  rw [drop_eq_getElem_cons hi, hget]

theorem servable {header : CBlockHeader} (hmem : header ∈ chainHeaders blocks) :
    header.Servable := by
  rw [chainHeaders, mem_reverse, mem_map] at hmem
  obtain ⟨block, hblk, rfl⟩ := hmem
  obtain ⟨hread, hchk⟩ := h.accepted.forall_blocks block hblk
  exact CBlock.servable hread hchk

/-- The loop collects consecutive headers, at least one where there is one. -/
theorem collectHeaders_eq (hashStop : Uint256) (n i : Nat) :
    ∃ k ≤ n, s.collectHeaders hashStop n (branch.reverse[i]?) =
      ((chainHeaders blocks).drop i).take k ∧
      (i < blocks.length → 0 < n → 0 < k) := by
  induction n generalizing i with
  | zero => exact ⟨0, le_rfl, rfl, fun _ h => absurd h (Nat.lt_irrefl 0)⟩
  | succ n ih =>
    cases he : branch.reverse[i]? with
    | none =>
      have hi := getElem?_eq_none_iff.mp he
      rw [length_reverse, h.length_eq] at hi
      exact ⟨0, Nat.zero_le _, rfl, fun hlt => absurd hlt (Nat.not_lt.mpr hi)⟩
    | some e =>
      rw [collectHeaders, h.drop_chainHeaders he]
      split_ifs with hstop
      · exact ⟨1, by omega, rfl, fun _ _ => Nat.one_pos⟩
      · obtain ⟨k, hk, hcol, -⟩ := ih (i + 1)
        rw [h.chainNext_eq he, hcol]
        exact ⟨k + 1, by omega, rfl, fun _ _ => Nat.succ_pos k⟩

/-- Different heights have different hashes. -/
theorem hash_ne {j : Nat} {e' : CBlockIndex} (hij : i ≠ j) (he : branch.reverse[i]? = some e)
    (he' : branch.reverse[j]? = some e') : e.phashBlock ≠ e'.phashBlock := by
  intro hhash
  have hkn := h.known e (mem_reverse.mp (mem_of_getElem? he))
  rw [hhash, h.known e' (mem_reverse.mp (mem_of_getElem? he'))] at hkn
  cases hkn
  have hht := nHeight_of_rooted h.accepted.rooted he
  rw [nHeight_of_rooted h.accepted.rooted he'] at hht
  omega

/-- The loop stops at the limit or at the first block with the hash to stop at. -/
theorem collectHeaders_until {j : Nat} (n i : Nat) (hij : i ≤ j)
    (hbef : ∀ (m : Nat) (e : CBlockIndex), m < j → branch.reverse[m]? = some e →
      e.phashBlock ≠ hashStop)
    (hstop : ∀ e : CBlockIndex, branch.reverse[j]? = some e → e.phashBlock = hashStop) :
    s.collectHeaders hashStop n (branch.reverse[i]?) =
      ((chainHeaders blocks).drop i).take (min n (j + 1 - i)) := by
  induction n generalizing i with
  | zero => rw [Nat.zero_min]; rfl
  | succ n ih =>
    cases he : branch.reverse[i]? with
    | none =>
      have hlen := getElem?_eq_none_iff.mp he
      have hnil : (chainHeaders blocks).drop i = [] := by
        refine drop_eq_nil_iff.mpr ?_
        rwa [length_chainHeaders, ← h.length_eq, ← length_reverse]
      rw [hnil, take_nil]
      rfl
    | some e =>
      rw [collectHeaders, h.drop_chainHeaders he, h.chainNext_eq he]
      rcases Nat.eq_or_lt_of_le hij with rfl | hlt
      · rw [if_pos (Or.inr (hstop e he)), Nat.add_sub_cancel_left,
          Nat.min_eq_right (Nat.succ_pos n)]
        rfl
      · rw [show min (n + 1) (j + 1 - i) = min n (j + 1 - (i + 1)) + 1 by omega,
          take_succ_cons, ← ih (i + 1) hlt]
        by_cases hn : n = 0
        · rw [if_pos (Or.inl hn), hn]
          rfl
        · rw [if_neg (not_or.mpr ⟨hn, hbef i e hlt he⟩)]

/-- Without a block of the chain to stop at, only the limit counts. -/
theorem collectHeaders_all (hstop : hashStop ∉ branch.map CBlockIndex.phashBlock) (n i : Nat) :
    s.collectHeaders hashStop n (branch.reverse[i]?) = ((chainHeaders blocks).drop i).take n := by
  have hne : ∀ (m : Nat) (e : CBlockIndex), branch.reverse[m]? = some e → e.phashBlock ≠ hashStop :=
    fun m e he heq =>
    hstop (heq ▸ mem_map_of_mem (mem_reverse.mp (mem_of_getElem? he)))
  rw [h.collectHeaders_until n i (le_max_left i branch.reverse.length) (fun m e _ => hne m e)
    fun e he => absurd (List.getElem?_eq_some_iff.mp he).1 (by omega), ← take_take]
  rw [take_of_length_le (i := max i branch.reverse.length + 1 - i)]
  rw [length_drop, length_chainHeaders, length_reverse, h.length_eq]
  omega

theorem tip_eq : s.tip = branch.head? := by
  rw [tip, h.chain, head?_map]
  cases hhead : branch.head? with
  | none => rfl
  | some e => exact h.known e (mem_of_head? hhead)

theorem findForkInGlobalIndex_mem {vHave : List Uint256}
    (hfork : s.findForkInGlobalIndex vHave = some e) : e ∈ branch := by
  induction vHave with
  | nil =>
    exact mem_reverse.mp (mem_of_getElem? ((h.chainAt_eq 0).symm.trans hfork))
  | cons hash vHave ih =>
    rw [findForkInGlobalIndex] at hfork
    split at hfork
    · exact ih hfork
    · rename_i pindex hlook
      split_ifs at hfork with hcont hancestor
      · cases hfork
        exact (h.chainContains_iff (h.key hash e hlook ▸ hlook)).mp hcont
      · exact mem_of_head? (h.tip_eq ▸ hfork)
      · exact ih hfork

theorem findForkInGlobalIndex_head (he : e ∈ branch) (vHave : List Uint256) :
    s.findForkInGlobalIndex (e.phashBlock :: vHave) = some e := by
  have hcont := (h.chainContains_iff (h.known e he)).mpr he
  rw [findForkInGlobalIndex, h.known e he]
  simp [hcont]

/-! ### Replies -/

/-- A request without a locator gets the one header it names. -/
theorem collectHeaders_single {params : Params} (hlook : s.lookupBlockIndex hashStop = some e)
    (hall : s.blockRequestAllowed params e = true) :
    s.collectHeaders hashStop maxHeadersResults (some e) = [s.servedHeader e] ∧
      (s.servedHeader e).Servable := by
  have hkey := h.key hashStop e hlook
  refine ⟨by rw [maxHeadersResults, collectHeaders, if_pos (Or.inr hkey)], ?_⟩
  rw [blockRequestAllowed] at hall
  split_ifs at hall with hcont
  · have hmem := (h.chainContains_iff (hkey ▸ hlook)).mp hcont
    obtain ⟨i, hi⟩ := mem_iff_getElem?.mp (mem_reverse.mpr hmem)
    refine h.servable (mem_of_getElem? (i := i) ?_)
    rw [h.getElem?_chainHeaders, hi, Option.map_some]
  · rw [Bool.and_eq_true] at hall
    obtain ⟨block, hread, hchk, hserved⟩ := h.stale hashStop e hlook hall.1
    rw [hserved]
    exact CBlock.servable hread hchk

/-- A reply is empty for lack of work, or one header, or a run behind the genesis
block. -/
theorem reply_cases (hreply : s.processGetHeaders ctx vHave hashStop = .headers vHeaders) :
    vHeaders = [] ∨ (∃ header, header.Servable ∧ vHeaders = [header]) ∨
      s.tooLittleWork ctx = false ∧ ∃ i k, 1 ≤ i ∧ k ≤ maxHeadersResults ∧
        vHeaders = ((chainHeaders blocks).drop i).take k := by
  rw [processGetHeaders] at hreply
  split_ifs at hreply with hloc hload hwork hnull
  · cases hreply
    exact Or.inl rfl
  · split at hreply
    · cases hreply
    · rename_i pindex hlook
      split_ifs at hreply with hall
      obtain ⟨hsing, hserv⟩ := h.collectHeaders_single hlook hall
      cases hreply
      exact Or.inr (Or.inl ⟨_, hserv, hsing⟩)
  · cases hreply
    cases hfork : s.findForkInGlobalIndex vHave with
    | none => exact Or.inl rfl
    | some fork =>
      obtain ⟨i, hi⟩ := mem_iff_getElem?.mp (mem_reverse.mpr (h.findForkInGlobalIndex_mem hfork))
      obtain ⟨k, hk, hcol, -⟩ := h.collectHeaders_eq hashStop maxHeadersResults (i + 1)
      rw [Option.bind_some, h.chainNext_eq hi, hcol]
      exact Or.inr (Or.inr ⟨Bool.eq_false_iff.mpr hwork, i + 1, k, by omega, hk, rfl⟩)

/-- If the longest runs fit, all replies get through. -/
theorem reply_accepted (hfits : s.tooLittleWork ctx = false → RunsFit blocks)
    (hreply : s.processGetHeaders ctx vHave hashStop = .headers vHeaders) :
    (serHeadersMessage vHeaders).length ≤ maxProtocolMessageLength ∧
      receiveHeaders (serHeadersMessage vHeaders) = .ok vHeaders := by
  rcases h.reply_cases hreply with rfl | ⟨header, hserv, rfl⟩ | ⟨hwork, i, k, hi, hk, rfl⟩
  · refine ⟨by decide, receiveHeaders_ok (by decide) nofun (by decide)⟩
  · exact ⟨hserv.fits, receiveHeaders_ok (Nat.le_add_left 1 1999)
      (forall_mem_singleton.mpr hserv.readable) hserv.fits⟩
  · have hfit :=
      (serHeadersMessage_take_le ((chainHeaders blocks).drop i) hk).trans (hfits hwork i hi)
    refine ⟨hfit, receiveHeaders_ok ?_ (fun header hmem => ?_) hfit⟩
    · exact (length_take_le _ _).trans hk
    · exact (h.servable (mem_of_mem_drop (mem_of_mem_take hmem))).readable

theorem getHash_eq (he : branch.reverse[i]? = some e) :
    ((chainHeaders blocks)[i]?).map (fun header => header.getHash) = some e.phashBlock := by
  have hhash := congrArg (fun hashes => hashes.reverse[i]?) h.accepted.map_phashBlock
  simp only [← map_reverse, getElem?_map, he, Option.map_some] at hhash
  rw [chainHeaders, ← map_reverse, getElem?_map, Option.map_map]
  exact hhash.symm

/-- What a node that serves a peer answers to a locator that starts with a block of
the chain. -/
theorem processGetHeaders_eq (hload : ctx.loadingBlocks = false)
    (hwork : s.tooLittleWork ctx = false)
    (he : branch.reverse[i]? = some e) (hhead : vHave.head? = some e.phashBlock)
    (hlen : vHave.length ≤ maxLocatorSz) : s.processGetHeaders ctx vHave hashStop =
      .headers (s.collectHeaders hashStop maxHeadersResults (branch.reverse[i + 1]?)) := by
  obtain ⟨vHave, rfl⟩ : ∃ rest, vHave = e.phashBlock :: rest := by
    cases vHave with
    | nil => cases hhead
    | cons hash rest =>
      cases hhead
      exact ⟨rest, rfl⟩
  have hmem := mem_reverse.mp (mem_of_getElem? he)
  rw [processGetHeaders, if_neg (Nat.not_lt.mpr hlen), hload, hwork,
    h.findForkInGlobalIndex_head hmem, Option.bind_some, h.chainNext_eq he]
  rfl

end

/-- The locator of a peer starts with its last header and is not too long. -/
def LocatesLast (locator : List CBlockHeader → List Uint256) : Prop :=
  ∀ known header, known.getLast? = some header →
    (locator known).head? = some header.getHash ∧ (locator known).length ≤ maxLocatorSz

/-- The shortest such locator. -/
def lastHash (known : List CBlockHeader) : List Uint256 :=
  (known.getLast?.map fun header => header.getHash).toList

theorem locatesLast_lastHash : LocatesLast lastHash := by
  intro known header hlast
  simp [lastHash, hlast, maxLocatorSz]

section
variable (h : s.ServesChain env keys V branch blocks c)
include h

section
variable (hloc : LocatesLast locator) (hload : ctx.loadingBlocks = false)
    (hwork : s.tooLittleWork ctx = false) (hfits : RunsFit blocks)

include hloc hload hwork hfits

/-- One round brings a peer further. -/
theorem syncRound_eq (hi : i + 1 < blocks.length) :
    ∃ k, 0 < k ∧ syncRound s ctx locator ((chainHeaders blocks).take (i + 1)) =
      (chainHeaders blocks).take (i + 1 + k) := by
  obtain ⟨e, he⟩ := h.exists_entry (Nat.lt_of_succ_lt hi)
  obtain ⟨header, hhdr, hhash⟩ := Option.map_eq_some_iff.mp (h.getHash_eq he)
  have hlast : ((chainHeaders blocks).take (i + 1)).getLast? = some header := by
    rw [getLast?_take, if_neg (Nat.succ_ne_zero i), Nat.add_sub_cancel, hhdr]
    rfl
  obtain ⟨hhead, hlen⟩ := hloc _ header hlast
  rw [hhash] at hhead
  have hreply : s.processGetHeaders ctx (locator ((chainHeaders blocks).take (i + 1))) .zero = _ :=
    h.processGetHeaders_eq hload hwork he hhead hlen
  obtain ⟨k, -, hcol, hpos⟩ := h.collectHeaders_eq .zero maxHeadersResults (i + 1)
  refine ⟨k, hpos hi (by decide), ?_⟩
  rw [hcol] at hreply
  rw [syncRound, hreply]
  dsimp only
  rw [(h.reply_accepted (fun _ => hfits) hreply).2]
  exact (take_add ..).symm

/-- A peer that keeps asking gets the whole chain. -/
theorem sync_reaches (i : Nat) :
    ∃ rounds, (syncRound s ctx locator)^[rounds] ((chainHeaders blocks).take (i + 1)) =
      chainHeaders blocks := by
  induction hleft : blocks.length - i using Nat.strong_induction_on generalizing i with
  | _ left ih =>
    by_cases hi : i + 1 < blocks.length
    · obtain ⟨k, hk, hround⟩ := h.syncRound_eq hloc hload hwork hfits hi
      obtain ⟨rounds, hrounds⟩ := ih (blocks.length - (i + k)) (by omega) (i + k) rfl
      refine ⟨rounds + 1, ?_⟩
      rw [Function.iterate_succ_apply, hround, Nat.add_right_comm]
      exact hrounds
    · exact ⟨0, take_of_length_le (by rw [length_chainHeaders]; omega)⟩

end

/-- The longest runs are replies. -/
theorem runsFit_of_replies (hload : ctx.loadingBlocks = false) (hwork : s.tooLittleWork ctx = false)
    (hreplies : ∀ vHave hashStop vHeaders,
      s.processGetHeaders ctx vHave hashStop = .headers vHeaders →
      (serHeadersMessage vHeaders).length ≤ maxProtocolMessageLength) : RunsFit blocks := by
  intro i hi
  by_cases hlt : i < blocks.length
  · obtain ⟨e, he⟩ := h.exists_entry (i := i - 1) (by omega)
    obtain ⟨tip, htip⟩ := h.exists_entry (i := blocks.length - 1) (by omega)
    have hreply : s.processGetHeaders ctx [e.phashBlock] tip.phashBlock = _ :=
      h.processGetHeaders_eq hload hwork he rfl (Nat.le_add_left 1 100)
    have hbef : ∀ (m : Nat) (e : CBlockIndex), m < blocks.length - 1 →
      branch.reverse[m]? = some e →
        e.phashBlock ≠ tip.phashBlock := fun m e hm he => h.hash_ne (Nat.ne_of_lt hm) he htip
    have hstop : ∀ e : CBlockIndex, branch.reverse[blocks.length - 1]? = some e →
      e.phashBlock = tip.phashBlock :=
      fun e he => by rw [htip] at he; cases he; rfl
    rw [Nat.sub_add_cancel hi, h.collectHeaders_until _ i (by omega) hbef hstop] at hreply
    have hfit := hreplies _ _ _ hreply
    rwa [← take_take, take_of_length_le (i := blocks.length - 1 + 1 - i)] at hfit
    rw [length_drop, length_chainHeaders]
    omega
  · have hnil : (chainHeaders blocks).drop i = [] := by
      refine drop_eq_nil_iff.mpr ?_
      rw [length_chainHeaders]
      omega
    rw [hnil]
    decide

end

/-- A peer whose reply is dropped stays where it is. -/
theorem syncRound_dropped {known : List CBlockHeader} {failure : HeadersFailure}
    (hloc : locator known = vHave)
    (hreply : s.processGetHeaders ctx vHave .zero = .headers vHeaders)
    (hdropped : receiveHeaders (serHeadersMessage vHeaders) = .error failure) :
    syncRound s ctx locator known = known := by
  rw [syncRound, hloc, hreply]
  dsimp only
  rw [hdropped]

/-- A node that does not answer leaves its peers where they are. -/
theorem syncRound_unanswered (hctx : ctx.loadingBlocks = true ∨ s.tooLittleWork ctx = true)
    (locator : List CBlockHeader → List Uint256) : syncRound s ctx locator = id := by
  funext known
  rw [syncRound, processGetHeaders]
  split_ifs with hloc hload hwork hnull
  · rfl
  · rfl
  · have hemp : receiveHeaders (serHeadersMessage []) = .ok [] :=
      receiveHeaders_ok (by decide) nofun (by decide)
    simp [hemp]
  · exact absurd (hctx.resolve_left hload) hwork
  · exact absurd (hctx.resolve_left hload) hwork

end NodeState.ServesChain
end Lithium
