import Lithium.ChainParams
import Lithium.Lib.Waiting
import Lithium.Node.IndexTree
import Lithium.Validation.Tree

/-!
# Linking blocks that arrive in any order

`ReceivedBlockTransactions` keeps blocks whose predecessors are incomplete in
`m_blocks_unlinked`, and links them as soon as the last missing block has arrived.
It works like a waiting room for things with predecessors: a block is linked when
`nChainTx` is set, and the place of a block among those linked is its `nSequenceId`.
-/

namespace Lithium
open Lib List BlockStatus Option UInt32 Waiting
variable {calls calls' : List Receipt} (env : ChainEnv)
variable {queue : List Uint256} {block : CBlock} {pos : FlatFilePos}

namespace BlockStatus

theorem or_and_of_subset (x : UInt32) {bits mask : UInt32} (h : bits &&& mask = bits) :
    (x &&& ~~~mask ||| bits) &&& mask = bits := by
  rw [Lib.or_and, UInt32.and_assoc, UInt32.not_and_self, UInt32.and_zero, h,
    UInt32.zero_or]

end BlockStatus

namespace CBlockIndex

theorem raiseValidity_eq (e : CBlockIndex) (nUpTo : UInt32) :
    ∃ nStatus, e.raiseValidity nUpTo = { e with nStatus := nStatus } := by
  rw [raiseValidity]
  split_ifs
  · exact ⟨e.nStatus, rfl⟩
  · exact ⟨_, rfl⟩
  · exact ⟨_, rfl⟩
  · exact ⟨e.nStatus, rfl⟩

/-- Raising the validity of an entry keeps the levels it has reached. -/
theorem isValid_raiseValidity {e : CBlockIndex} (h : e.isValid validTree = true) :
    (e.raiseValidity validTransactions).isValid validTree = true := by
  rw [isValid, Bool.and_eq_true, Bool.not_eq_true'] at h
  obtain ⟨hfail, hlevel⟩ := h
  rw [raiseValidity, hfail, if_neg Bool.false_ne_true]
  by_cases hraise : e.nStatus &&& validMask < validTransactions
  · rw [if_pos hraise]
    -- whether the block was assumed valid does not matter here
    have hkeep : (if e.hasStatus assumedValid &&
        decide (validScripts ≤ validTransactions) then
          e.nStatus &&& ~~~assumedValid else e.nStatus) &&& failedMask =
        e.nStatus &&& failedMask := by
      split_ifs
      · rw [UInt32.and_assoc]
        rfl
      · rfl
    rw [isValid, Bool.and_eq_true, Bool.not_eq_true', hasStatus]
    rw [or_and_of_disjoint _ (by decide), UInt32.and_assoc, or_and_of_subset _ (by decide)]
    exact ⟨by rw [hasStatus, ← hkeep] at hfail; exact hfail, by decide⟩
  · rw [if_neg hraise, isValid, hfail, hlevel]
    rfl

theorem isValid_validTree {e : CBlockIndex} (h : e.nStatus = 0) :
    (e.raiseValidity validTree).isValid validTree = true := by
  have hfail : e.hasStatus failedMask = false := by rw [hasStatus, h]; rfl
  have hassumed : e.hasStatus assumedValid = false := by rw [hasStatus, h]; rfl
  rw [raiseValidity, hfail, if_neg Bool.false_ne_true, hassumed, Bool.false_and,
    if_neg Bool.false_ne_true, h, if_pos (by decide)]
  change (!((0 &&& ~~~validMask ||| validTree) &&& failedMask != 0) && decide (validTree ≤
      (0 &&& ~~~validMask ||| validTree) &&& validMask)) = true
  decide

end CBlockIndex

namespace NodeState

/-! ### The state as a waiting room -/

/-- What linking reads from the tree: predecessors, the transactions of the blocks
that arrive, and those of a block and all its predecessors. -/
structure LinkPlan where
  parent : Uint256 → Option Uint256
  nTx : Uint256 → Nat
  nChainTx : Uint256 → Nat
  /-- the number of the first block that is linked -/
  nSequenceId : Int

/-- The entry of a block that is linked, or waits, or is not there yet. -/
structure LinkEntry (plan : LinkPlan) (received settled : List Uint256) (hash : Uint256)
    (e : CBlockIndex) : Prop where
  parent : e.pprev = plan.parent hash
  valid : e.isValid validTree = true
  nTx : hash ∈ received → e.nTx = ofNat (plan.nTx hash)
  linked : hash ∈ settled → e.nChainTx = ofNat (plan.nChainTx hash) ∧
    e.nSequenceId = plan.nSequenceId + settled.idxOf hash
  waiting : hash ∉ settled → e.nChainTx = 0

/-- The state of a node is that of a waiting room. -/
structure Links (plan : LinkPlan) (received : List Uint256) (s : NodeState)
    (w : Waiting Uint256) : Prop where
  tree : IndexTree s.blockIndex
  entry : ∀ {hash e}, s.lookupBlockIndex hash = some e → LinkEntry plan received w.linked hash e
  present : ∀ hash ∈ received, (s.lookupBlockIndex hash).isSome
  unlinked : s.blocksUnlinked = w.waiting
  next : s.nBlockSequenceId = plan.nSequenceId + w.linked.length

/-- The sums over the tree. -/
structure LinkPlan.Sums (plan : LinkPlan) : Prop where
  root : ∀ hash, plan.parent hash = none → plan.nChainTx hash = plan.nTx hash
  next : ∀ hash p, plan.parent hash = some p → plan.nChainTx hash = plan.nChainTx p + plan.nTx hash

variable {plan : LinkPlan} {received : List Uint256} {s : NodeState} {w : Waiting Uint256}
  {hash : Uint256} {e : CBlockIndex}

theorem lookup_linkBlock (s : NodeState) (hash k : Uint256) (e : CBlockIndex) :
    (s.linkBlock hash e).lookupBlockIndex k =
      if hash = k then (s.lookupBlockIndex k).map fun _ => s.linkedEntry e
      else s.lookupBlockIndex k := by
  rw [linkBlock, tryAddBlockIndexCandidate]
  rw [← lookup_modifyEntry]
  split_ifs <;> rfl

theorem nBlockSequenceId_linkBlock (s : NodeState) (hash : Uint256) (e : CBlockIndex) :
    (s.linkBlock hash e).nBlockSequenceId = s.nBlockSequenceId + 1 := by
  rw [linkBlock, tryAddBlockIndexCandidate]
  split_ifs <;> rfl

/-- One block is linked. -/
theorem Links.linkBlock (hplan : plan.Sums) (h : s.Links plan received w)
    (hw : Waiting.Settled plan.parent received (hash :: queue) w)
    (he : s.lookupBlockIndex hash = some e) : Links plan received { s.linkBlock hash e with
        blocksUnlinked := s.blocksUnlinked.filter fun link => link.1 != hash }
      ⟨w.linked ++ [hash], w.waiting.filter fun p => p.1 != hash⟩ := by
  have hnew : hash ∉ w.linked := fun hmem => by
    have hnd := hw.nodup
    rw [nodup_append] at hnd
    exact hnd.2.2 hash hmem hash mem_cons_self rfl
  have hlook : ∀ k, lookupBlockIndex { s.linkBlock hash e with
      blocksUnlinked := s.blocksUnlinked.filter fun link => link.1 != hash } k =
        if hash = k then some (s.linkedEntry e) else s.lookupBlockIndex k := by
    intro k
    refine (lookup_linkBlock s hash k e).trans ?_
    split_ifs with hk
    · rw [← hk, he, map_some]
    · rfl
  have htree : IndexTree (s.linkBlock hash e).blockIndex := by
    have hmodify := h.tree.modify hash (f := fun a =>
      { a with nChainTx := (s.linkedEntry e).nChainTx, nSequenceId := s.nBlockSequenceId })
      fun a => ⟨rfl, rfl, rfl⟩
    refine cast (congrArg IndexTree (OrdMap.ext_find? fun k => ?_)) hmodify
    refine Eq.trans ?_ (lookup_linkBlock s hash k e).symm
    rw [OrdMap.find?_modify]
    split_ifs with hk
    · rw [← hk]
      change Option.map _ (s.lookupBlockIndex hash) = Option.map _ (s.lookupBlockIndex hash)
      rw [he]
      rfl
    · rfl
  refine ⟨htree, fun {k a} ha => ?_, fun k hk => ?_, ?_, ?_⟩
  · rw [hlook] at ha
    split_ifs at ha with hk
    · subst hk
      cases ha
      have hent := h.entry he
      refine ⟨hent.parent, hent.valid, hent.nTx, fun _ => ⟨?_, ?_⟩, fun hnot => ?_⟩
      · rw [linkedEntry]
        rw [hent.parent, hent.nTx (hw.known hash (by simp))]
        cases hpar : plan.parent hash with
        | none =>
          rw [hplan.root hash hpar]
          exact UInt32.zero_add _
        | some p =>
          obtain ⟨a, ha, -⟩ := h.tree.parent he (hent.parent.trans hpar)
          have ha : s.lookupBlockIndex p = some a := ha
          have hchain := ((h.entry ha).linked (hw.free hash mem_cons_self p hpar)).1
          rw [bind_some, ha]
          dsimp only
          rw [hchain, hplan.next hash p hpar, ofNat_add]
      · change s.nBlockSequenceId = _
        rw [idxOf_append_of_notMem hnew, h.next]
        simp
      · exact absurd (mem_append_right _ mem_cons_self) hnot
    · have hent := h.entry ha
      refine ⟨hent.parent, hent.valid, hent.nTx, fun hmem => ?_, fun hnot =>
        hent.waiting fun hmem => hnot (mem_append_left _ hmem)⟩
      have hmem : k ∈ w.linked := (mem_append.mp hmem).resolve_right fun hmem =>
        hk (mem_singleton.mp hmem).symm
      rw [idxOf_append_of_mem hmem]
      exact hent.linked hmem
  · rw [hlook]
    split_ifs
    · rfl
    · exact h.present k hk
  · change s.blocksUnlinked.filter _ = w.waiting.filter _
    rw [h.unlinked]
  · refine (nBlockSequenceId_linkBlock s hash e).trans ?_
    rw [h.next, length_append, length_singleton]
    omega

/-- The queue of the source does what that of the waiting room does. -/
theorem Links.linkQueue (hplan : plan.Sums) {n : Nat}
    (h : s.Links plan received w) (hw : Waiting.Settled plan.parent received queue w) :
    (linkQueue n queue s).Links plan received (settle n queue w) := by
  induction n generalizing queue s w with
  | zero => exact h
  | succ n ih =>
    cases queue with
    | nil => exact h
    | cons hash queue =>
      have hpres := h.present hash (hw.known hash (by simp))
      obtain ⟨e, he⟩ := isSome_iff_exists.mp hpres
      have hlink := h.linkBlock hplan hw he
      rw [linkQueue, he, settle]
      rw [h.unlinked] at hlink ⊢
      exact ih hlink hw.step

/-! ### Blocks that arrive -/

/-- What does not change when transactions have been stored, and what does. -/
theorem withTransactions_links (params : Params) (block : CBlock) (pos : FlatFilePos)
    (e : CBlockIndex) : (withTransactions params block pos e).phashBlock = e.phashBlock ∧
      (withTransactions params block pos e).pprev = e.pprev ∧
      (withTransactions params block pos e).nHeight = e.nHeight ∧
      (withTransactions params block pos e).nTx = ofNat block.vtx.length ∧
      (withTransactions params block pos e).nChainTx = 0 := by
  rw [withTransactions, CBlockIndex.raiseValidity]
  split_ifs <;> exact ⟨rfl, rfl, rfl, rfl, rfl⟩

theorem isValid_withTransactions {params : Params} (h : e.isValid validTree = true) :
    (withTransactions params block pos e).isValid validTree = true := by
  refine CBlockIndex.isValid_raiseValidity ?_
  have hkeep : ∀ mask, haveData &&& mask = 0 → optWitness &&& mask = 0 → (e.nStatus ||| haveData |||
        (if params.deploymentHeight .segwit ≤ e.nHeight then optWitness else 0)) &&& mask =
        e.nStatus &&& mask := by
    intro mask hdata hwit
    rw [or_and_of_disjoint, or_and_of_disjoint _ hdata]
    split_ifs
    · exact hwit
    · exact UInt32.zero_and
  rw [CBlockIndex.isValid, CBlockIndex.hasStatus] at h ⊢
  rw [hkeep _ (by decide) (by decide), hkeep _ (by decide) (by decide)]
  exact h

/-- The transactions of a block are stored. -/
theorem Links.withTransactions (h : s.Links plan received w) (params : Params)
    (pos : FlatFilePos) (hlink : ∀ k ∈ w.linked, k ∈ received)
    (hhash : block.getHash ∉ received) (hkn : (s.lookupBlockIndex block.getHash).isSome)
    (hnTx : plan.nTx block.getHash = block.vtx.length) :
    (s.modifyEntry block.getHash (withTransactions params block pos)).Links plan
      (block.getHash :: received) w := by
  have hfields := withTransactions_links params block pos
  refine ⟨h.tree.modify _ fun e => ⟨(hfields e).1, (hfields e).2.1, (hfields e).2.2.1⟩,
    fun {k a} ha => ?_, fun k hk => ?_, h.unlinked, h.next⟩
  · rw [lookup_modifyEntry] at ha
    split_ifs at ha with hk
    · subst hk
      obtain ⟨e, he, rfl⟩ := map_eq_some_iff.mp ha
      have hent := h.entry he
      exact ⟨(hfields e).2.1.trans hent.parent, isValid_withTransactions hent.valid,
        fun _ => by rw [(hfields e).2.2.2.1, hnTx], fun hmem => absurd (hlink _ hmem) hhash,
        fun _ => (hfields e).2.2.2.2⟩
    · have hent := h.entry ha
      exact { hent with
        nTx := fun hmem => hent.nTx ((mem_cons.mp hmem).resolve_left fun heq => hk heq.symm) }
  · rw [lookup_modifyEntry]
    split_ifs with heq
    · rw [← heq, isSome_map]
      exact hkn
    · exact h.present k ((mem_cons.mp hk).resolve_left fun hk => heq hk.symm)

/-- The sums tell which blocks are linked. -/
def LinkPlan.Fits (plan : LinkPlan) (received : List Uint256) : Prop :=
  ∀ hash, Waiting.Complete plan.parent received hash →
    0 < plan.nChainTx hash ∧ plan.nChainTx hash < 2 ^ 32

theorem Links.linked_iff {received' : List Uint256} (h : s.Links plan received' w)
    (hw : Waiting.Settled plan.parent received [] w) (hfits : plan.Fits received)
    (he : s.lookupBlockIndex hash = some e) : e.nChainTx ≠ 0 ↔ hash ∈ w.linked := by
  refine ⟨fun hne => ?_, fun hmem hzero => ?_⟩
  · by_contra hnot
    exact hne ((h.entry he).waiting hnot)
  · obtain ⟨hpos, hlt⟩ := hfits hash (hw.mem_linked_iff.mp hmem)
    rw [((h.entry he).linked hmem).1] at hzero
    have hsum := congrArg toNat hzero
    rw [toNat_ofNat', Nat.mod_eq_of_lt hlt] at hsum
    exact hpos.ne' hsum

/-- `ReceivedBlockTransactions` is an arrival. -/
theorem Links.receivedBlockTransactions (hplan : plan.Sums) {env : ChainEnv}
    (h : s.Links plan received w)
    (hw : Waiting.Settled plan.parent received [] w) (hfits : plan.Fits received)
    (hhash : block.getHash ∉ received) (hkn : (s.lookupBlockIndex block.getHash).isSome)
    (hnTx : plan.nTx block.getHash = block.vtx.length) :
    (s.receivedBlockTransactions env block pos).Links plan (block.getHash :: received)
      (w.arrive plan.parent block.getHash) := by
  have hlink : ∀ k ∈ w.linked, k ∈ received := fun k hk =>
    hw.known k (mem_append_left _ hk)
  have hsto := h.withTransactions env.consensus pos hlink hhash hkn hnTx
  rw [NodeState.receivedBlockTransactions, arrive]
  generalize s.modifyEntry block.getHash (NodeState.withTransactions env.consensus block pos) = s'
    at hsto
  obtain ⟨e, he⟩ := isSome_iff_exists.mp (hsto.present block.getHash mem_cons_self)
  rw [he, bind_some, (hsto.entry he).parent, hsto.unlinked]
  -- the queue starts with the block when its predecessor is linked
  have hq : (∀ p, plan.parent block.getHash = some p → p ∈ w.linked) →
      (NodeState.linkQueue (w.waiting.length + 1) [block.getHash] s').Links plan
        (block.getHash :: received)
        (settle (w.waiting.length + 1) [block.getHash] w) :=
    fun hfree => hsto.linkQueue hplan (hw.enqueue hhash hfree)
  cases hpar : plan.parent block.getHash with
  | none => exact hq fun p hp => by cases hpar.symm.trans hp
  | some p =>
    obtain ⟨a, ha, -⟩ := hsto.tree.parent he ((hsto.entry he).parent.trans hpar)
    have ha : s'.lookupBlockIndex p = some a := ha
    dsimp only
    rw [ha]
    dsimp only
    have hlink := hsto.linked_iff hw hfits ha
    by_cases hp : p ∈ w.linked
    · rw [if_pos hp, if_pos (hlink.mpr hp)]
      refine hq fun p' hp' => ?_
      obtain rfl := some.inj (hpar.symm.trans hp')
      exact hp
    · rw [if_neg hp, if_neg (mt hlink.mp hp), if_pos (hsto.entry ha).valid]
      exact { hsto with unlinked := rfl }

/-! ### Headers first, then blocks in any order -/

def parentOf (s : NodeState) (hash : Uint256) : Option Uint256 :=
  (s.lookupBlockIndex hash).bind CBlockIndex.pprev

/-- A tree of headers without failed entries, of which no block has been received. -/
structure HeadersOnly (s : NodeState) : Prop where
  tree : IndexTree s.blockIndex
  valid : ∀ hash e, s.lookupBlockIndex hash = some e → e.isValid validTree = true
  noTx : ∀ hash e, s.lookupBlockIndex hash = some e → e.nChainTx = 0
  unlinked : s.blocksUnlinked = []

theorem headersOnly_empty : HeadersOnly .empty := by
  refine ⟨.empty, fun hash e he => ?_, fun hash e he => ?_, rfl⟩ <;>
    · rw [lookupBlockIndex, empty, OrdMap.find?_empty] at he
      cases he

theorem newEntry_fields (s : NodeState) (block : CBlockHeader) :
    (s.newEntry block).phashBlock = block.getHash ∧ (s.newEntry block).pprev =
        (s.lookupBlockIndex block.hashPrevBlock).map (fun _ => block.hashPrevBlock) ∧
      (s.newEntry block).nHeight =
        (s.lookupBlockIndex block.hashPrevBlock).elim 0 (fun pprev => pprev.nHeight + 1) ∧
      (s.newEntry block).nChainTx = 0 ∧ (s.newEntry block).isValid validTree = true := by
  have hval : (s.newEntry block).isValid validTree = true := by
    refine CBlockIndex.isValid_validTree ?_
    cases s.lookupBlockIndex block.hashPrevBlock <;> rfl
  revert hval
  rw [newEntry]
  obtain ⟨nStatus, hstatus⟩ := CBlockIndex.raiseValidity_eq _ validTree
  rw [hstatus]
  cases s.lookupBlockIndex block.hashPrevBlock with
  | none | some pprev => exact fun hval => ⟨rfl, rfl, rfl, rfl, hval⟩

/-- Headers may be added in any order. -/
theorem HeadersOnly.addToBlockIndex (hs : s.HeadersOnly) (block : CBlockHeader) :
    (s.addToBlockIndex block).1.HeadersOnly := by
  cases hfind : s.lookupBlockIndex block.getHash with
  | some pindex =>
    rw [NodeState.addToBlockIndex, hfind]
    exact hs
  | none =>
    obtain ⟨hhash, hpprev, hht, hnoTx, hval⟩ := s.newEntry_fields block
    have hcases : ∀ {hash e}, (s.addToBlockIndex block).1.lookupBlockIndex hash = some e →
        e = s.newEntry block ∨ s.lookupBlockIndex hash = some e := by
      intro hash e he
      rw [lookup_addToBlockIndex hfind] at he
      split_ifs at he
      · exact .inl (some.inj he).symm
      · exact .inr he
    refine ⟨?_, fun hash e he => ?_, fun hash e he => ?_, ?_⟩
    · rw [NodeState.addToBlockIndex, hfind]
      refine hs.tree.insert hfind hhash (fun hroot => ?_) fun p hp => ?_
      · rw [hpprev, map_eq_none_iff] at hroot
        rw [hht, hroot, elim_none]
      · rw [hpprev, map_eq_some_iff] at hp
        obtain ⟨e', he', rfl⟩ := hp
        exact ⟨e', he', by rw [hht, he', elim_some]⟩
    · obtain rfl | he := hcases he
      · exact hval
      · exact hs.valid hash e he
    · obtain rfl | he := hcases he
      · exact hnoTx
      · exact hs.noTx hash e he
    · rw [NodeState.addToBlockIndex, hfind]
      exact hs.unlinked

/-- A block and where it was stored. -/
abbrev Receipt := CBlock × FlatFilePos

def receiveAll (env : ChainEnv) (s : NodeState) (calls : List Receipt) : NodeState :=
  calls.foldl (fun s call => s.receivedBlockTransactions env call.1 call.2) s

def receivedHashes (calls : List Receipt) : List Uint256 := calls.map fun call => call.1.getHash

/-- The number of transactions of a block that is received. -/
def receivedTx (calls : List Receipt) (hash : Uint256) : Nat :=
  (calls.find? fun call => call.1.getHash == hash).elim 0 fun call => call.1.vtx.length

/-- The transactions of a block and its predecessors that are received. -/
def receivedChainTx (s : NodeState) (calls : List Receipt) (hash : Uint256) : Nat :=
  receivedTx calls hash +
    ((s.branch (s.parentOf hash)).map fun e => receivedTx calls e.phashBlock).sum

def linkPlan (s : NodeState) (calls : List Receipt) : LinkPlan where
  parent := s.parentOf
  nTx := receivedTx calls
  nChainTx := s.receivedChainTx calls
  nSequenceId := s.nBlockSequenceId

theorem linkPlan_sums (htree : IndexTree s.blockIndex) (calls : List Receipt) :
    (s.linkPlan calls).Sums := by
  refine ⟨fun hash (hroot : s.parentOf hash = none) => ?_,
    fun hash p (hp : s.parentOf hash = some p) => ?_⟩
  · change s.receivedChainTx calls hash = receivedTx calls hash
    rw [receivedChainTx, hroot, branch_none]
    rfl
  · change s.receivedChainTx calls hash = s.receivedChainTx calls p + receivedTx calls hash
    obtain ⟨e, he, hpprev⟩ := bind_eq_some_iff.mp hp
    obtain ⟨a, ha, -⟩ := htree.parent he hpprev
    have ha : s.lookupBlockIndex p = some a := ha
    have hpar : s.parentOf p = a.pprev := by rw [parentOf, ha, bind_some]
    rw [receivedChainTx, hp, branch_some htree ha, map_cons, sum_cons, htree.key ha,
      receivedChainTx, hpar]
    omega

theorem HeadersOnly.links (hs : s.HeadersOnly) (calls : List Receipt) :
    s.Links (s.linkPlan calls) [] ⟨[], []⟩ := by
  refine ⟨hs.tree, fun {hash e} he => ?_, by simp, hs.unlinked, (add_zero _).symm⟩
  refine ⟨?_, hs.valid hash e he, by simp, by simp, fun _ => hs.noTx hash e he⟩
  change e.pprev = s.parentOf hash
  rw [parentOf, he, bind_some]

theorem receivedTx_of_mem (honce : (receivedHashes calls).Nodup) {call : Receipt}
    (hcall : call ∈ calls) : receivedTx calls call.1.getHash = call.1.vtx.length := by
  induction calls with
  | nil => cases hcall
  | cons c rest ih =>
    rw [receivedHashes, map_cons, nodup_cons] at honce
    rw [receivedTx, find?_cons]
    rcases mem_cons.mp hcall with rfl | hcall
    · rw [beq_self_eq_true]
      rfl
    · have hne : (c.1.getHash == call.1.getHash) = false := by
        rw [beq_eq_false_iff_ne]
        intro heq
        exact honce.1 (heq ▸ mem_map_of_mem hcall)
      rw [hne]
      exact ih honce.2 hcall

/-- What a sequence of calls may be: blocks with transactions whose headers are known,
each once, and few enough of them for their number to fit into 32 bits. -/
structure Receivable (s : NodeState) (calls : List Receipt) : Prop where
  known : ∀ call ∈ calls, (s.lookupBlockIndex call.1.getHash).isSome
  once : (receivedHashes calls).Nodup
  transactions : ∀ call ∈ calls, call.1.vtx ≠ []
  fits : ∀ hash, Waiting.Complete s.parentOf (receivedHashes calls) hash →
    s.receivedChainTx calls hash < 2 ^ 32

theorem Receivable.fits_linkPlan (h : s.Receivable calls) :
    (s.linkPlan calls).Fits (receivedHashes calls) := by
  intro hash hcomp
  refine ⟨?_, h.fits hash hcomp⟩
  obtain ⟨call, hcall, rfl⟩ := mem_map.mp hcomp.arrived
  have hpos := length_pos_iff.mpr (h.transactions call hcall)
  change 0 < s.receivedChainTx calls call.1.getHash
  rw [receivedChainTx, receivedTx_of_mem h.once hcall]
  omega

/-- The waiting room that goes with some calls. -/
def waitingRoom (s : NodeState) (calls : List Receipt) : Waiting Uint256 :=
  calls.foldl (fun w call => w.arrive s.parentOf call.1.getHash) ⟨[], []⟩

section
variable (s : NodeState) (calls : List Receipt)

theorem receiveAll_snoc (call : Receipt) : receiveAll env s (calls ++ [call]) =
      (receiveAll env s calls).receivedBlockTransactions env call.1 call.2 := by
  rw [receiveAll, foldl_append]
  rfl

theorem waitingRoom_snoc (call : Receipt) :
    s.waitingRoom (calls ++ [call]) = (s.waitingRoom calls).arrive s.parentOf call.1.getHash := by
  rw [waitingRoom, foldl_append]
  rfl

theorem receivedHashes_snoc (call : Receipt) : (receivedHashes (calls ++ [call])).reverse =
      call.1.getHash :: (receivedHashes calls).reverse := by
  rw [receivedHashes, map_append, reverse_append]
  rfl

theorem isSome_lookup_receivedBlockTransactions (block : CBlock) (pos : FlatFilePos)
    (hash : Uint256) : ((s.receivedBlockTransactions env block pos).lookupBlockIndex hash).isSome =
      (s.lookupBlockIndex hash).isSome := by
  have hcore := congrArg isSome
    ((sameBlocks_receivedBlockTransactions s env block pos).entries hash)
  rw [lookup_modifyEntry, isSome_map, isSome_map] at hcore
  rw [hcore]
  split_ifs
  · rw [isSome_map]
  · rfl

theorem isSome_lookup_receiveAll (hash : Uint256) :
    ((receiveAll env s calls).lookupBlockIndex hash).isSome = (s.lookupBlockIndex hash).isSome := by
  induction calls using reverseRecOn with
  | nil => rfl
  | append_singleton calls call ih =>
    rw [receiveAll_snoc, isSome_lookup_receivedBlockTransactions, ih]

end

variable {before after : List Receipt}

/-- What has been received so far stays within the bounds of the whole. -/
theorem Receivable.fits_before (h : s.Receivable calls) (hspl : calls = before ++ after) :
    (s.linkPlan calls).Fits (receivedHashes before).reverse := by
  refine fun hash hcomp => h.fits_linkPlan hash (hcomp.mono fun k hk => ?_)
  rw [hspl, receivedHashes, map_append]
  exact mem_append_left _ (mem_reverse.mp hk)

/-- After some of the calls the node is in the state of the waiting room. -/
theorem HeadersOnly.receive_links (hs : s.HeadersOnly) (env : ChainEnv)
    (hcalls : s.Receivable calls) (hspl : calls = before ++ after) :
    (receiveAll env s before).Links (s.linkPlan calls) (receivedHashes before).reverse
        (s.waitingRoom before) ∧
      Waiting.Settled s.parentOf (receivedHashes before).reverse [] (s.waitingRoom before) := by
  induction before using reverseRecOn generalizing after with
  | nil => exact ⟨hs.links calls, settled_empty⟩
  | append_singleton before call ih =>
    rw [append_assoc] at hspl
    obtain ⟨hlinks, hset⟩ := ih hspl
    have hcall : call ∈ calls := by simp [hspl]
    have hnew : call.1.getHash ∉ (receivedHashes before).reverse := by
      rw [mem_reverse]
      have honce := hcalls.once
      rw [hspl, receivedHashes, map_append, nodup_append] at honce
      exact fun hmem => honce.2.2 _ hmem call.1.getHash (by simp) rfl
    have hkn : ((receiveAll env s before).lookupBlockIndex call.1.getHash).isSome := by
      rw [isSome_lookup_receiveAll]
      exact hcalls.known call hcall
    rw [receiveAll_snoc, waitingRoom_snoc, receivedHashes_snoc]
    exact ⟨hlinks.receivedBlockTransactions (linkPlan_sums hs.tree calls) hset
      (hcalls.fits_before hspl) hnew hkn (receivedTx_of_mem hcalls.once hcall),
      hset.arrive hnew⟩

/-- The sum of the plan is that of the numbers in the entries. -/
theorem Links.sum_branch (h : s.Links plan received w) (hplan : plan.Sums)
    (hfits : plan.Fits received) (hcomp : Waiting.Complete plan.parent received hash)
    (he : s.lookupBlockIndex hash = some e) :
    plan.nChainTx hash = ((s.branch (some hash)).map fun a => a.nTx.toNat).sum := by
  induction hcomp generalizing e with
  | @root hash hmem hroot =>
    have hsum := hfits hash (.root hmem hroot)
    rw [hplan.root hash hroot] at hsum ⊢
    rw [branch_some h.tree he, (h.entry he).parent, hroot, branch_none, map_singleton,
      sum_singleton, (h.entry he).nTx hmem, toNat_ofNat', Nat.mod_eq_of_lt hsum.2]
  | @next hash p hmem hp hprev ih =>
    have hsum := hfits hash (.next hmem hp hprev)
    obtain ⟨a, ha, -⟩ := h.tree.parent he ((h.entry he).parent.trans hp)
    rw [hplan.next hash p hp] at hsum ⊢
    rw [branch_some h.tree he, (h.entry he).parent, hp, map_cons, sum_cons, ih ha,
      (h.entry he).nTx hmem, toNat_ofNat', Nat.mod_eq_of_lt (by omega), Nat.add_comm]

/-- What is known of the blocks that are linked and those that wait, after the blocks
with the given hashes have been received. -/
structure LinkedExactly (s : NodeState) (received : List Uint256) (t : NodeState) : Prop where
  linked : ∀ hash e, t.lookupBlockIndex hash = some e →
    (e.nChainTx ≠ 0 ↔ Waiting.Complete s.parentOf received hash)
  sum : ∀ hash e, t.lookupBlockIndex hash = some e → e.nChainTx ≠ 0 →
    e.nChainTx.toNat = ((t.branch (some hash)).map fun a => a.nTx.toNat).sum
  unlinked : ∀ p hash, (p, hash) ∈ t.blocksUnlinked ↔
    hash ∈ received ∧ s.parentOf hash = some p ∧ ¬ Waiting.Complete s.parentOf received hash
  once : t.blocksUnlinked.Nodup

theorem Links.linkedExactly (h : s.Links plan received.reverse w) (hplan : plan.Sums)
    (hw : Waiting.Settled plan.parent received.reverse [] w) (hfits : plan.Fits received.reverse)
    {s₀ : NodeState} (hpar : plan.parent = s₀.parentOf) : LinkedExactly s₀ received s := by
  have hcomp : ∀ {hash}, hash ∈ w.linked ↔ Waiting.Complete s₀.parentOf received hash := by
    intro hash
    rw [hw.mem_linked_iff, complete_congr fun _ => mem_reverse, hpar]
  refine ⟨fun hash e he => (h.linked_iff hw hfits he).trans hcomp, fun hash e he hne => ?_,
    fun p hash => ?_, h.unlinked ▸ hw.waitingNodup⟩
  · have hmem := (h.linked_iff hw hfits he).mp hne
    have hall := hw.mem_linked_iff.mp hmem
    rw [((h.entry he).linked hmem).1, toNat_ofNat', Nat.mod_eq_of_lt (hfits hash hall).2]
    exact h.sum_branch hplan hfits hall he
  · rw [h.unlinked, hw.mem_waiting_iff, mem_reverse, hpar, complete_congr fun _ => mem_reverse]

/-- The numbers of the blocks that are linked on the way from `s` to `t`: they are
fresh, given once, and a predecessor has a smaller one. -/
structure FreshNumbers (s t : NodeState) : Prop where
  fresh : ∀ hash e e', s.lookupBlockIndex hash = some e → e.nChainTx = 0 →
    t.lookupBlockIndex hash = some e' → e'.nChainTx ≠ 0 →
    s.nBlockSequenceId ≤ e'.nSequenceId ∧ e'.nSequenceId < t.nBlockSequenceId
  once : ∀ hash hash' e e', t.lookupBlockIndex hash = some e → e.nChainTx ≠ 0 →
    t.lookupBlockIndex hash' = some e' → e'.nChainTx ≠ 0 → e.nSequenceId = e'.nSequenceId →
    hash = hash'
  parent : ∀ hash e p a, t.lookupBlockIndex hash = some e → e.nChainTx ≠ 0 → e.pprev = some p →
    t.lookupBlockIndex p = some a → a.nSequenceId < e.nSequenceId
  /-- a number is not changed any more -/
  kept : ∀ hash e e', s.lookupBlockIndex hash = some e → e.nChainTx ≠ 0 →
    t.lookupBlockIndex hash = some e' → e'.nSequenceId = e.nSequenceId

variable {received' : List Uint256} {w' : Waiting Uint256}

theorem Links.freshNumbers (h : s.Links plan received w)
    (hw : Waiting.Settled plan.parent received [] w) (hfits : plan.Fits received) {t : NodeState}
    (h' : t.Links plan received' w') (hw' : Waiting.Settled plan.parent received' [] w')
    (hfits' : plan.Fits received') (hgrow : w.linked <+: w'.linked) : FreshNumbers s t := by
  obtain ⟨more, hmore⟩ := hgrow
  refine ⟨fun hash e e' he hzero he' hne => ?_, fun hash hash' e e' he hne he' hne' hsame => ?_,
    fun hash e p a he hne hp ha => ?_, fun hash e e' he hne he' => ?_⟩
  · have hnot : hash ∉ w.linked := fun hmem => (h.linked_iff hw hfits he).mpr hmem hzero
    have hmem' := (h'.linked_iff hw' hfits' he').mp hne
    have hlt := idxOf_lt_length_of_mem hmem'
    rw [((h'.entry he').linked hmem').2, h.next, h'.next]
    -- what was not linked before comes after everything that was
    have hle : w.linked.length ≤ w'.linked.idxOf hash := by
      rw [← hmore, idxOf_append_of_notMem hnot]
      exact Nat.le_add_right _ _
    omega
  · have hmem := (h'.linked_iff hw' hfits' he).mp hne
    have hmem' := (h'.linked_iff hw' hfits' he').mp hne'
    rw [((h'.entry he).linked hmem).2, ((h'.entry he').linked hmem').2] at hsame
    exact (idxOf_inj hmem).mp (by omega)
  · have hmem := (h'.linked_iff hw' hfits' he).mp hne
    obtain ⟨hp', hlt⟩ := hw'.order hash hmem p ((h'.entry he).parent.symm.trans hp)
    rw [((h'.entry he).linked hmem).2, ((h'.entry ha).linked hp').2]
    omega
  · have hmem := (h.linked_iff hw hfits he).mp hne
    have hmem' : hash ∈ w'.linked := hmore ▸ mem_append_left _ hmem
    rw [((h.entry he).linked hmem).2, ((h'.entry he').linked hmem').2, ← hmore,
      idxOf_append_of_mem hmem]

/-! ### Any order of the calls -/

section
variable (honce : (receivedHashes calls).Nodup) (hperm : calls'.Perm calls)

include honce hperm

theorem receivedTx_perm : receivedTx calls' = receivedTx calls := by
  have honce' : (receivedHashes calls').Nodup := (hperm.map _).nodup_iff.mpr honce
  funext hash
  by_cases hrec : hash ∈ receivedHashes calls
  · obtain ⟨call, hcall, rfl⟩ := mem_map.mp hrec
    rw [receivedTx_of_mem honce hcall, receivedTx_of_mem honce' (hperm.mem_iff.mpr hcall)]
  · have hnone : ∀ l : List Receipt, (∀ call ∈ l, call ∈ calls) →
        l.find? (fun call => call.1.getHash == hash) = none := by
      refine fun l hl => find?_eq_none.mpr fun call hcall heq => hrec ?_
      exact beq_iff_eq.mp heq ▸ mem_map_of_mem (hl call hcall)
    rw [receivedTx, receivedTx, hnone calls fun _ => id, hnone calls' fun _ => hperm.mem_iff.mp]

theorem linkPlan_perm : s.linkPlan calls' = s.linkPlan calls := by
  have hchain : s.receivedChainTx calls' = s.receivedChainTx calls := by
    funext hash
    rw [receivedChainTx, receivedChainTx, receivedTx_perm honce hperm]
  rw [linkPlan, linkPlan, receivedTx_perm honce hperm, hchain]

end

theorem Receivable.perm (h : s.Receivable calls) (hperm : calls'.Perm calls) :
    s.Receivable calls' := by
  have hhashes : (receivedHashes calls').Perm (receivedHashes calls) := hperm.map _
  refine ⟨fun call hcall => h.known call (hperm.mem_iff.mp hcall), hhashes.nodup_iff.mpr h.once,
    fun call hcall => h.transactions call (hperm.mem_iff.mp hcall), fun hash hcomp => ?_⟩
  have hchain := congrArg (fun plan => plan.nChainTx hash) (linkPlan_perm (s := s) h.once hperm)
  change s.receivedChainTx calls' hash = s.receivedChainTx calls hash at hchain
  rw [hchain]
  exact h.fits hash ((complete_congr fun _ => hhashes.mem_iff).mp hcomp)

/-- Two states of one plan in which the same blocks have been received. -/
theorem Links.same_links {t : NodeState} (h : s.Links plan received w)
    (hw : Waiting.Settled plan.parent received [] w) (h' : t.Links plan received' w')
    (hw' : Waiting.Settled plan.parent received' [] w') (hrec : ∀ k, k ∈ received ↔ k ∈ received') :
    (∀ hash e e', s.lookupBlockIndex hash = some e → t.lookupBlockIndex hash = some e' →
      e.nChainTx = e'.nChainTx) ∧ s.blocksUnlinked.Perm t.blocksUnlinked := by
  have hlink : ∀ hash, hash ∈ w.linked ↔ hash ∈ w'.linked := by
    intro hash
    rw [hw.mem_linked_iff, hw'.mem_linked_iff, complete_congr hrec]
  refine ⟨fun hash e e' he he' => ?_, ?_⟩
  · by_cases hmem : hash ∈ w.linked
    · rw [((h.entry he).linked hmem).1, ((h'.entry he').linked ((hlink hash).mp hmem)).1]
    · rw [(h.entry he).waiting hmem, (h'.entry he').waiting fun h => hmem ((hlink hash).mpr h)]
  · rw [h.unlinked, h'.unlinked, perm_ext_iff_of_nodup hw.waitingNodup hw'.waitingNodup]
    rintro ⟨p, hash⟩
    rw [hw.mem_waiting_iff, hw'.mem_waiting_iff, hrec, complete_congr hrec]

/-- Blocks that arrive in any order, children possibly before their parents. After
every call exactly the blocks are linked all of whose predecessors have arrived, and
the others wait. Blocks are linked after their predecessors. What is linked in the end
does not depend on the order. -/
theorem linking_order_irrelevant (env : ChainEnv) (s : NodeState) (hs : s.HeadersOnly)
    (calls : List Receipt) (hcalls : s.Receivable calls) :
    (∀ before after, calls = before ++ after →
      LinkedExactly s (receivedHashes before) (receiveAll env s before)) ∧
    (∀ before call after, calls = before ++ call :: after →
      FreshNumbers (receiveAll env s before) (receiveAll env s (before ++ [call]))) ∧
    (∀ calls', calls'.Perm calls →
      (∀ hash e e', (receiveAll env s calls').lookupBlockIndex hash = some e →
        (receiveAll env s calls).lookupBlockIndex hash = some e' → e.nChainTx = e'.nChainTx) ∧
      (receiveAll env s calls').blocksUnlinked.Perm (receiveAll env s calls).blocksUnlinked) := by
  refine ⟨fun before after hspl => ?_, fun before call after hspl => ?_, fun calls' hperm => ?_⟩
  · obtain ⟨hlinks, hset⟩ := hs.receive_links env hcalls hspl
    exact hlinks.linkedExactly (linkPlan_sums hs.tree calls) hset
      (hcalls.fits_before hspl) rfl
  · have hspl' : calls = (before ++ [call]) ++ after := by rw [hspl, append_assoc]; rfl
    obtain ⟨hlinks, hset⟩ := hs.receive_links env hcalls hspl
    obtain ⟨hlinks', hset'⟩ := hs.receive_links env hcalls hspl'
    refine hlinks.freshNumbers hset (hcalls.fits_before hspl) hlinks' hset'
      (hcalls.fits_before hspl') ?_
    rw [waitingRoom_snoc]
    exact linked_arrive _ _ _
  · obtain ⟨hlinks, hset⟩ := hs.receive_links env hcalls (append_nil _).symm
    obtain ⟨hlinks', hset'⟩ := hs.receive_links env (hcalls.perm hperm) (append_nil _).symm
    rw [linkPlan_perm hcalls.once hperm] at hlinks'
    refine hlinks'.same_links hset' hlinks hset fun k => ?_
    rw [mem_reverse, mem_reverse]
    exact (hperm.map _).mem_iff

def secondBlock : CBlock := { mainEnv.genesis with hashPrevBlock := mainEnv.genesis.getHash }

def twoHeaders : NodeState :=
  ((empty.addToBlockIndex mainEnv.genesis.toCBlockHeader).1.addToBlockIndex
    secondBlock.toCBlockHeader).1

def childFirst : List Receipt := [(secondBlock, ⟨0, 300⟩), (mainEnv.genesis, ⟨0, 8⟩)]

theorem linking_order_irrelevant_childFirst : LinkedExactly twoHeaders [secondBlock.getHash]
        (receiveAll mainEnv twoHeaders [(secondBlock, ⟨0, 300⟩)]) ∧
      LinkedExactly twoHeaders [secondBlock.getHash, mainEnv.genesis.getHash]
        (receiveAll mainEnv twoHeaders childFirst) ∧
      FreshNumbers (receiveAll mainEnv twoHeaders [(secondBlock, ⟨0, 300⟩)])
        (receiveAll mainEnv twoHeaders childFirst) ∧
      (receiveAll mainEnv twoHeaders childFirst.reverse).blocksUnlinked.Perm
        (receiveAll mainEnv twoHeaders childFirst).blocksUnlinked := by
  have hheaders : twoHeaders.HeadersOnly := (headersOnly_empty.addToBlockIndex _).addToBlockIndex _
  have hreceivable : twoHeaders.Receivable childFirst := by
    refine ⟨by decide +kernel, by decide +kernel, by decide +kernel, fun hash hcomp => ?_⟩
    have hall : ∀ hash ∈ receivedHashes childFirst,
        twoHeaders.receivedChainTx childFirst hash < 2 ^ 32 := by decide +kernel
    exact hall hash hcomp.arrived
  obtain ⟨hexact, hfr, hperm⟩ :=
    linking_order_irrelevant mainEnv twoHeaders hheaders childFirst hreceivable
  exact ⟨hexact [(secondBlock, ⟨0, 300⟩)] _ rfl, hexact childFirst [] rfl,
    hfr [(secondBlock, ⟨0, 300⟩)] _ [] rfl, (hperm _ childFirst.reverse_perm).2⟩

end NodeState
end Lithium
