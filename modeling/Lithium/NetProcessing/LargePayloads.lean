import Lithium.NetProcessing.HeaderReplies

/-!
# Large payloads

Every accepted chain is the chain of some node, for example of one that has
pruned its block files. Below the height at which merge mining starts any payload
is accepted, so five blocks with nearly a million bytes of padding each can stand
on top of the genesis block, and no peer gets past them.
-/

namespace Lithium
open Lib List CCoinsViewCache NodeState SmallChain CBlockIndex CCoinsViewDB
variable {branch : Branch} {e : CBlockIndex}

/-! ### Nodes without block files -/

def indexOf (branch : Branch) : OrdMap Uint256 CBlockIndex :=
  branch.foldr (fun e index => index.insert e.phashBlock e) .empty

theorem indexOf_known (hnd : (branch.map phashBlock).Nodup)
    (he : e ∈ branch) : (indexOf branch).find? e.phashBlock = some e := by
  induction branch with
  | nil => cases he
  | cons top rest ih =>
    rw [map_cons, nodup_cons] at hnd
    rw [indexOf, foldr_cons]
    rcases mem_cons.mp he with rfl | he
    · exact OrdMap.find?_insert_self ..
    · have hne : top.phashBlock ≠ e.phashBlock := fun heq =>
        hnd.1 (heq ▸ mem_map_of_mem he)
      rw [OrdMap.find?_insert_of_ne _ _ hne]
      exact ih hnd.2 he

theorem indexOf_mem {hash : Uint256}
    (he : (indexOf branch).find? hash = some e) : e ∈ branch ∧ e.phashBlock = hash := by
  induction branch with
  | nil => cases he
  | cons top rest ih =>
    rw [indexOf, foldr_cons, OrdMap.find?_insert] at he
    split_ifs at he with heq
    · cases he
      exact ⟨mem_cons_self, heq⟩
    · exact ⟨mem_cons_of_mem _ (ih he).1, (ih he).2⟩

/-- A node that knows the entries of a branch and nothing else. -/
def prunedNode (branch : Branch) : NodeState :=
  { empty with
    blockIndex := indexOf branch
    chain := branch.map phashBlock }

/-- A pruned node serves every accepted chain from its index. -/
theorem prunedNode_servesChain {σ : Type} {env : ChainEnv} {keys : PubKeyOps} {V : CCoinsView σ}
    {blocks : List CBlock} {c : CCoinsViewCache σ}
    (h : AcceptedChain env keys V branch blocks c) (hnd : (branch.map phashBlock).Nodup)
    (hpru : ∀ e ∈ branch, e.hasStatus BlockStatus.haveData = false) :
    (prunedNode branch).ServesChain env keys V branch blocks c := by
  have hunread : ∀ e ∈ branch, (prunedNode branch).readBlockHeader e = none := by
    intro e he
    rw [readBlockHeader, getBlockPos, hpru e he]
    rfl
  refine ⟨h, rfl, fun e he => indexOf_known hnd he, fun hash e he => (indexOf_mem he).2,
    fun e he header hread => ?_, fun hash e he _ => ?_⟩
  · rw [hunread e he] at hread
    cases hread
  · obtain ⟨hmem, -⟩ := indexOf_mem he
    have hserved : (prunedNode branch).servedHeader e = e.getBlockHeader := by
      rw [servedHeader, hunread e hmem]
      exact ite_self _
    have hhdr := mem_map_of_mem (f := getBlockHeader) hmem
    rw [h.map_getBlockHeader, mem_map] at hhdr
    obtain ⟨block, hblk, heq⟩ := hhdr
    obtain ⟨hread, hchk⟩ := h.forall_blocks block hblk
    exact ⟨block, hread, hchk, by rw [hserved, heq]⟩

/-! ### Chains with large payloads -/

/-- A payload of which most is a script of zeros. -/
theorem zeros_lt {n : Nat} (h : n < 2 ^ 32) : (replicate n (0 : UInt8)).length < 2 ^ 32 := by
  rwa [length_replicate]

def paddingPayload (n : Nat) (h : n < 2 ^ 32) : CAuxPow where
  coinbaseTx := some (parentCoinbase ⟨replicate n 0, zeros_lt h⟩)
  merkleBranch := []
  vChainMerkleBranch := []
  nChainIndex := 0
  parentBlock := ⟨1, .zero, .zero, 0, 0, 0⟩

namespace PaddedChain

variable (n : Nat)

def coinbase : CTransaction :=
  .ofInput ⟨.null, ⟨[0x51, UInt8.ofNat n], by simp⟩, sequenceFinal, .empty⟩
    (some ⟨500000000, SmallChain.anyone⟩)

def payload : CAuxPow := paddingPayload 990000 (by norm_num)

/-- The five blocks on top of the genesis block. -/
def chain : GivenBlocks where
  hash
    | 0 => uint256S 0x618f546712a7cbae64eb542e30fd4b631aff29a52c8ee71aa214807ac5124eb8
    | 1 => uint256S 0x55ecdaebb9858be02b5e2615e3c850f86b413d7d7353802a3d35d214216d792d
    | 2 => uint256S 0x722f11d8af814795b3ffc9dd973232f907c2c20d7ff9be3117562f822282b701
    | 3 => uint256S 0x23ccc529c4a6bab1f546f6a11499286004767ceb9b800ff34df5c6caed9e3cc5
    | _ => uint256S 0x20c44dc07b1ee5fb08af30516b22a430dbab4c8c1797a713412ec3f26c695ae5
  later hashPrevBlock n :=
    { nVersion := 0x60170
      hashPrevBlock
      hashMerkleRoot := (coinbase (n + 1)).getHash
      nTime := UInt32.ofNat (1411788333 + 180 * (n + 1))
      nBits := 503382015
      nNonce := 0
      auxpow := some payload
      vtx := [coinbase (n + 1)] }

theorem checked_withoutPayload : ∀ n < 5,
    contextualCheckBlockHeader mainEnv (fun _ => none) (chain.entry n) (chain.branch n) 1411790000
        (chain.block (n + 1)).toCBlockHeader = .ok () ∧
      checkBlock mainEnv (chain.block (n + 1)).withoutPayload true = .ok () ∧
      contextualCheckBlock mainEnv (chain.branch n) (chain.block (n + 1)).withoutPayload = .ok () ∧
      (serBlock true (chain.block (n + 1)).withoutPayload).length = 144 ∧
      (serBlock false (chain.block (n + 1)).withoutPayload).length = 144 := by
  decide +kernel

/-- What the entries say. -/
theorem entries_fit : ∀ n ≤ 5, ((chain.branch n).map phashBlock).Nodup ∧
    Uint256.zero ∉ (chain.branch n).map phashBlock ∧
    ∀ e ∈ chain.branch n, e.hasStatus BlockStatus.haveData = false := by
  decide +kernel

theorem isAuxpow_block : (chain.block (n + 1)).isAuxpow = true :=
  show ((0x60170 : Int32) &&& CPureBlockHeader.versionAuxpow != 0) = true by decide

theorem serPayload_block : (serPayload (chain.block (n + 1)).toCBlockHeader).length = 990177 := by
  rw [serPayload, if_pos (isAuxpow_block n)]
  exact serAuxPow_padding (by norm_num) (by norm_num) _

theorem readable_coinbase : (coinbase n).Readable :=
  ⟨CTransaction.fits_of_length_le (Nat.le_of_ble_eq_true rfl), nofun⟩

theorem readable_block : (chain.block (n + 1)).Readable := by
  refine ⟨⟨isAuxpow_block n, fun ap hap => ?_⟩, show 1 ≤ maxSize by decide, fun tx htx => ?_⟩
  · cases hap
    refine CAuxPow.readable_of_length_le rfl (fun hnil => by cases hnil) ?_
    rw [payload, paddingPayload, serAuxPow_padding (by norm_num) (by norm_num) _, maxSize]
    norm_num
  · obtain rfl := mem_singleton.mp htx
    exact readable_coinbase (n + 1)

theorem checkBlock_block {n : Nat} (h : n < 5) :
    checkBlock mainEnv (chain.block (n + 1)) true = .ok () := by
  obtain ⟨-, hlight, -, -, hlen⟩ := checked_withoutPayload n h
  have hsame : (chain.block (n + 1)).withoutPayload =
      (chain.block (n + 1)).withoutPayload.withoutPayload := rfl
  refine checkBlock_of_withoutPayload_eq hsame hlight ?_ ?_
  · have hpay : (chain.block (n + 1)).auxpow.isNone = false := rfl
    simp [checkBlockHeader, isAuxpow_block n, hpay]
  rw [checkBlockLength, serBlock_length_withoutPayload, hlen, serPayload_block]
  rfl

theorem contextualCheckBlock_block {n : Nat} (h : n < 5) :
    contextualCheckBlock mainEnv (chain.branch n) (chain.block (n + 1)) = .ok () := by
  obtain ⟨-, -, hlight, htotal, hlen⟩ := checked_withoutPayload n h
  have hsame : (chain.block (n + 1)).withoutPayload =
      (chain.block (n + 1)).withoutPayload.withoutPayload := rfl
  rw [contextualCheckBlock_of_withoutPayload_eq hsame hlight, checkWeight_ok_iff,
    getBlockWeight_withoutPayload, serPayload_block, getBlockWeight, htotal, hlen]
  decide

theorem checked : chain.Checked 5 where
  hash := by decide +kernel
  linked _ _ := rfl
  nBits _ _ := rfl
  readable := readable_block
  checkBlock _ hn := checkBlock_block hn
  header n hn := (checked_withoutPayload n hn).1
  contents _ hn := contextualCheckBlock_block hn
  connects := by decide +kernel

/-- The peer has the download permission, so the work of the tip is not asked for. -/
def request : GetHeadersContext := ⟨mainEnv, false, true⟩

theorem serves {n : Nat} (h : n ≤ 5) :
    (prunedNode (chain.branch n)).ServesChain mainEnv noKeys view (chain.branch n)
      (chain.blocks n) (chain.coins n) := by
  obtain ⟨hnd, -, hpru⟩ := entries_fit n h
  exact prunedNode_servesChain (checked.accepted h) hnd hpru

theorem tooLittleWork_request {n : Nat} (h : n ≤ 5) :
    (prunedNode (chain.branch n)).tooLittleWork request = false := by
  rw [tooLittleWork, (serves h).tip_eq, GivenBlocks.branch_head]
  exact Bool.and_false _

theorem serHeaderEntry_block :
    (serHeaderEntry (chain.block (n + 1)).toCBlockHeader).length = 990258 := by
  rw [serHeaderEntry, serBlock, length_append, serHeader, length_append,
    serPureHeader_length, serPayload_block]
  rfl

theorem headers_eq : chainHeaders (chain.blocks n) =
    mainGenesis.toCBlockHeader :: (range n).map fun i => (chain.block (i + 1)).toCBlockHeader := by
  induction n with
  | zero => rfl
  | succ n ih =>
    rw [chainHeaders, GivenBlocks.blocks, map_cons, reverse_cons, ← chainHeaders, ih, range_succ,
      map_append, cons_append]
    rfl

theorem message_length : (serHeadersMessage
    (((chainHeaders (chain.blocks 5)).drop 1).take maxHeadersResults)).length = 1 + 5 * 990258 := by
  have hheaders : ((chainHeaders (chain.blocks 5)).drop 1).take maxHeadersResults =
      (range 5).map fun i => (chain.block (i + 1)).toCBlockHeader := by
    rw [headers_eq, drop_succ_cons, drop_zero]
    exact take_of_length_le (by rw [length_map, length_range, maxHeadersResults]; omega)
  have hents : ∀ header ∈ (range 5).map fun i => (chain.block (i + 1)).toCBlockHeader,
      (serHeaderEntry header).length = 990258 := by
    intro header hmem
    obtain ⟨i, -, rfl⟩ := mem_map.mp hmem
    exact serHeaderEntry_block i
  have hcnt : ((range 5).map fun i => (chain.block (i + 1)).toCBlockHeader).length = 5 := by
    rw [length_map, length_range]
  have hpre : (writeCompactSize 5).length = 1 := rfl
  rw [hheaders, serHeadersMessage_length, flatMap_length_eq hents, hcnt, hpre]

theorem message_dropped : receiveHeaders (serHeadersMessage
    (((chainHeaders (chain.blocks 5)).drop 1).take maxHeadersResults)) = .error .messageSize := by
  have hsize : acceptsMessageSize (serHeadersMessage
      (((chainHeaders (chain.blocks 5)).drop 1).take maxHeadersResults)) = false := by
    rw [acceptsMessageSize, message_length]
    decide
  rw [receiveHeaders, hsize]
  exact if_pos rfl

theorem reply_eq :
    (prunedNode (chain.branch 5)).processGetHeaders request [mainGenesis.getHash] .zero =
      .headers (((chainHeaders (chain.blocks 5)).drop 1).take maxHeadersResults) := by
  have hent : (chain.branch 5).reverse[0]? = some (chain.entry 0) := rfl
  have hhead : [mainGenesis.getHash].head? = some (chain.entry 0).phashBlock := by
    rw [checked.isEntry_genesis.hash, head?_cons]
  have hstop := (entries_fit 5 le_rfl).2.1
  rw [(serves le_rfl).processGetHeaders_eq rfl (tooLittleWork_request le_rfl) hent hhead
    (Nat.le_add_left 1 100), (serves le_rfl).collectHeaders_all hstop]

end PaddedChain

/-! ### When headers get through -/

open NodeState.ServesChain in
/-- A node on an accepted chain never sends a reply that is dropped, and a peer that
keeps asking from its last header gets the whole chain, if and only if there is
nothing behind the genesis block or the node answers the peer at all and every run
of up to two thousand consecutive headers behind the genesis block fits into a
message. -/
theorem headers_get_through_iff {σ : Type} {s : NodeState} {ctx : GetHeadersContext}
    {keys : PubKeyOps} {V : CCoinsView σ} {branch : Branch} {blocks : List CBlock}
    {c : CCoinsViewCache σ} (h : s.ServesChain ctx.env keys V branch blocks c) :
    ((∀ vHave hashStop vHeaders, s.processGetHeaders ctx vHave hashStop = .headers vHeaders →
        (serHeadersMessage vHeaders).length ≤ maxProtocolMessageLength ∧
          receiveHeaders (serHeadersMessage vHeaders) = .ok vHeaders) ∧
      (∀ locator, LocatesLast locator → ∀ i, ∃ rounds,
        (syncRound s ctx locator)^[rounds] ((chainHeaders blocks).take (i + 1)) =
          chainHeaders blocks)) ↔ (1 < blocks.length →
        ctx.loadingBlocks = false ∧ s.tooLittleWork ctx = false ∧ RunsFit blocks) := by
  have hlen := length_chainHeaders blocks
  constructor
  · rintro ⟨hreplies, hsync⟩ hlong
    have hans : ¬ (ctx.loadingBlocks = true ∨ s.tooLittleWork ctx = true) := by
      intro hctx
      -- a peer that only has the genesis block stays there
      obtain ⟨rounds, hrounds⟩ := hsync lastHash locatesLast_lastHash 0
      rw [syncRound_unanswered hctx, Function.iterate_id] at hrounds
      have hone := congrArg length hrounds
      rw [id, length_take, hlen] at hone
      omega
    obtain ⟨hload, hwork⟩ := not_or.mp hans
    rw [Bool.not_eq_true] at hload hwork
    exact ⟨hload, hwork, h.runsFit_of_replies hload hwork
      fun vHave hashStop vHeaders hreply => (hreplies vHave hashStop vHeaders hreply).1⟩
  · intro hcond
    by_cases hlong : 1 < blocks.length
    · obtain ⟨hload, hwork, hfits⟩ := hcond hlong
      exact ⟨fun vHave hashStop vHeaders hreply => h.reply_accepted (fun _ => hfits) hreply,
        fun locator hloc i => h.sync_reaches hloc hload hwork hfits i⟩
    · refine ⟨fun vHave hashStop vHeaders hreply => h.reply_accepted (fun _ i hi => ?_) hreply,
        fun locator hloc i => ⟨0, take_of_length_le (by omega)⟩⟩
      rw [drop_eq_nil_iff.mpr (by omega)]
      decide

open PaddedChain ServesChain in
/-- With one padded block the reply fits. -/
theorem headers_get_through_iff_one : (∀ vHave hashStop vHeaders,
      (prunedNode (chain.branch 1)).processGetHeaders request vHave hashStop = .headers vHeaders →
        (serHeadersMessage vHeaders).length ≤ maxProtocolMessageLength ∧
          receiveHeaders (serHeadersMessage vHeaders) = .ok vHeaders) ∧
      (∀ locator, LocatesLast locator → ∀ i, ∃ rounds,
        (syncRound (prunedNode (chain.branch 1)) request locator)^[rounds]
          ((chainHeaders (chain.blocks 1)).take (i + 1)) = chainHeaders (chain.blocks 1)) := by
  have hserves := serves (n := 1) (by decide)
  have hfits : RunsFit (chain.blocks 1) := by
    rintro (_ | _ | i) hi
    · omega
    · exact (hserves.servable (mem_of_getElem? (i := 1) rfl)).fits
    · rw [drop_eq_nil_iff.mpr (by simp [headers_eq])]
      decide
  exact (headers_get_through_iff hserves).mpr fun _ =>
    ⟨rfl, tooLittleWork_request (by decide), hfits⟩

open PaddedChain ServesChain in
/-- Five blocks of the main network with payloads of 990177 bytes, whose headers do
not fit into one message: the reply to a peer that only has the genesis block is
dropped, and the peer stays where it is. -/
theorem padded_headers_dropped :
    (prunedNode (chain.branch 5)).ServesChain mainEnv noKeys view (chain.branch 5)
        (chain.blocks 5) (chain.coins 5) ∧
      ∃ vHeaders, (prunedNode (chain.branch 5)).processGetHeaders request
          [mainGenesis.getHash] .zero = .headers vHeaders ∧
        maxProtocolMessageLength < (serHeadersMessage vHeaders).length ∧
        receiveHeaders (serHeadersMessage vHeaders) = .error .messageSize ∧
        syncRound (prunedNode (chain.branch 5)) request lastHash [mainGenesis.toCBlockHeader] =
          [mainGenesis.toCBlockHeader] := by
  refine ⟨serves le_rfl, _, reply_eq, ?_, message_dropped,
    syncRound_dropped rfl reply_eq message_dropped⟩
  rw [message_length]
  decide +kernel

end Lithium
