import Lithium.BlockTree
import Lithium.Validation.Disconnect
import Lithium.Validation.FailureMarking

/-!
# Chains of accepted blocks

An active chain, as the rules of a network admit it: it starts with the genesis
block, and each further block passed `CheckBlock`, the checks of its header and
of its contents in their place, and `ConnectBlock` on the coins that its
predecessors left. Which other headers were known and what the clock said when
a header came in is left open, and so are the options that only save work.
Blocks come in through the deserialiser, so each of them can be read back.
-/

namespace Lithium
open List

/-- The entry of a block on top of a branch. -/
structure CBlockIndex.IsEntry (prev : Branch) (block : CBlock) (e : CBlockIndex) : Prop where
  hash : e.phashBlock = block.getHash
  header : e.getBlockHeader = block.toCBlockHeader
  pprev : e.pprev = branchPtr prev
  nHeight : e.nHeight = prev.length
  nChainWork :
    e.nChainWork = (prev.head?.map CBlockIndex.nChainWork).getD 0 + getBlockProof block.nBits

/-- The branch of entries, nearest first, the blocks they stand for, and the coins
after the last of them. -/
inductive AcceptedChain {σ : Type} (env : ChainEnv) (keys : PubKeyOps) (V : CCoinsView σ) :
    Branch → List CBlock → CCoinsViewCache σ → Prop
  | genesis {e : CBlockIndex} {c c' : CCoinsViewCache σ} {fScriptChecks parallel : Bool}
      {undo : Option CBlockUndo} (entry : e.IsEntry [] env.genesis)
        (readable : env.genesis.Readable)
      (checked : checkBlock env env.genesis true = .ok ())
      (connected : (ConnectContext.connectBlock ⟨env, keys, false, fScriptChecks, parallel, e, []⟩
        env.genesis).runOn V c = (.ok undo, c')) :
      AcceptedChain env keys V [e] [env.genesis] c'
  | extend {pindexPrev : CBlockIndex} {prev : Branch} {blocks : List CBlock} {c : CCoinsViewCache σ}
      (tail : AcceptedChain env keys V (pindexPrev :: prev) blocks c)
      {block : CBlock} {e : CBlockIndex} {c' : CCoinsViewCache σ}
      {lookup : Uint256 → Option CBlockIndex} {now : Int} {fScriptChecks parallel : Bool}
      {undo : Option CBlockUndo} (entry : e.IsEntry (pindexPrev :: prev) block)
      (readable : block.Readable) (checked : checkBlock env block true = .ok ())
      (header : contextualCheckBlockHeader env lookup pindexPrev (pindexPrev :: prev) now
        block.toCBlockHeader = .ok ())
      (contents : contextualCheckBlock env (pindexPrev :: prev) block = .ok ())
      (connected : (ConnectContext.connectBlock
        ⟨env, keys, false, fScriptChecks, parallel, e, pindexPrev :: prev⟩ block).runOn V c =
          (.ok undo, c')) :
      AcceptedChain env keys V (e :: pindexPrev :: prev) (block :: blocks) c'

namespace AcceptedChain
variable {σ : Type} {env : ChainEnv} {keys : PubKeyOps} {V : CCoinsView σ} {branch : Branch}
  {blocks : List CBlock} {c : CCoinsViewCache σ}

section
variable (h : AcceptedChain env keys V branch blocks c)

include h

theorem map_getBlockHeader :
    branch.map CBlockIndex.getBlockHeader = blocks.map CBlock.toCBlockHeader := by
  induction h with
  | genesis entry readable checked connected => rw [map_singleton, map_singleton, entry.header]
  | extend tail entry readable checked header contents connected ih =>
    rw [map_cons, ih, entry.header, map_cons]

theorem map_phashBlock :
    branch.map CBlockIndex.phashBlock = blocks.map fun block => block.getHash := by
  induction h with
  | genesis entry readable checked connected => rw [map_singleton, map_singleton, entry.hash]
  | extend tail entry readable checked header contents connected ih =>
    rw [map_cons, ih, entry.hash, map_cons]

theorem forall_blocks : ∀ block ∈ blocks, block.Readable ∧ checkBlock env block true = .ok () := by
  induction h with
  | genesis entry readable checked connected => exact forall_mem_singleton.mpr ⟨readable, checked⟩
  | extend tail entry readable checked header contents connected ih =>
    exact forall_mem_cons.mpr ⟨⟨readable, checked⟩, ih⟩

theorem rooted : Rooted branch := by
  induction h with
  | genesis entry readable checked connected => exact ⟨entry.nHeight, trivial⟩
  | extend tail entry readable checked header contents connected ih => exact ⟨entry.nHeight, ih⟩

end
end AcceptedChain

/-- The genesis block of the main network can begin a chain. -/
theorem mainGenesis_valid : mainGenesis.Readable ∧
    checkBlock mainEnv mainGenesis true = .ok () := by
  refine ⟨⟨⟨rfl, fun ap hap => nomatch hap⟩, by decide, fun tx htx => ?_⟩, by decide +kernel⟩
  obtain rfl := mem_singleton.mp htx
  exact ⟨CTransaction.fits_of_length_le (by decide +kernel), nofun⟩

/-! ### Given blocks on the main network -/

theorem connectBlock_withoutPayload {ctx : ConnectContext} {block : CBlock}
    (hjust : ctx.fJustCheck = false) (h : checkBlock ctx.env block true = .ok ()) :
    ctx.connectBlock block = ctx.connectBlock block.withoutPayload := by
  have hagain : ctx.checkAgain block = ctx.checkAgain block.withoutPayload := by
    simp [ConnectContext.checkAgain, hjust, h, checkBlock_withoutPayload h]
  simp only [ConnectContext.connectBlock, hagain]
  rfl

/-- The blocks on top of the genesis block, each made from the hash of the one before, and
their hashes. -/
structure GivenBlocks where
  hash : Nat → Uint256
  later : Uint256 → Nat → CBlock

namespace GivenBlocks
open SmallChain CCoinsViewCache CCoinsViewDB

section
variable (g : GivenBlocks)

def blockHash : Nat → Uint256
  | 0 => mainEnv.hashGenesisBlock
  | n + 1 => g.hash n

def block : Nat → CBlock
  | 0 => mainGenesis
  | n + 1 => g.later (g.blockHash n) n

variable (n : Nat)

def entry : CBlockIndex :=
  { CBlockIndex.ofHeader (g.blockHash n) (g.block n).toCBlockHeader with
    pprev := match n with
      | 0 => none
      | n + 1 => some (g.blockHash n)
    nHeight := n
    nChainWork := BitVec.ofNat 256 (n + 1) * getBlockProof mainGenesis.nBits
    nStatus := BlockStatus.validScripts }

def branch : Nat → Branch
  | 0 => [g.entry 0]
  | n + 1 => g.entry (n + 1) :: branch n

def blocks : Nat → List CBlock
  | 0 => [g.block 0]
  | n + 1 => g.block (n + 1) :: blocks n

def context : ConnectContext where
  env := mainEnv
  keys := noKeys
  fJustCheck := false
  fScriptChecks := true
  parallelScriptChecks := false
  pindex := g.entry n
  prev := match n with
    | 0 => []
    | n + 1 => g.branch n

def connect (c : CCoinsViewCache CCoinsViewDB) :=
  ((g.context n).connectBlock (g.block n).withoutPayload).runOn view c

def coins : Nat → CCoinsViewCache CCoinsViewDB
  | 0 => (g.connect 0 (new emptyDb)).2
  | n + 1 => (g.connect (n + 1) (coins n)).2

theorem branch_head : g.branch n = g.entry n :: (g.branch n).tail := by
  cases n <;> rfl

theorem branch_length : (g.branch n).length = n + 1 := by
  induction n with
  | zero => rfl
  | succ n ih => rw [branch, length_cons, ih]

/-- The first blocks pass the checks. -/
structure Checked (len : Nat) : Prop where
  hash : ∀ n ≤ len, (g.block n).getHash = g.blockHash n
  linked : ∀ prev n, (g.later prev n).hashPrevBlock = prev
  nBits : ∀ prev n, (g.later prev n).nBits = mainGenesis.nBits
  readable : ∀ n, (g.block (n + 1)).Readable
  checkBlock : ∀ n < len, checkBlock mainEnv (g.block (n + 1)) true = .ok ()
  header : ∀ n < len, contextualCheckBlockHeader mainEnv (fun _ => none) (g.entry n) (g.branch n)
    1411790000 (g.block (n + 1)).toCBlockHeader = .ok ()
  contents : ∀ n < len, contextualCheckBlock mainEnv (g.branch n) (g.block (n + 1)) = .ok ()
  connects : (g.connect 0 (new emptyDb)).1 = .ok none ∧
    ∀ n < len, (g.connect (n + 1) (g.coins n)).1 = .ok (some ⟨[]⟩)

end

variable {g : GivenBlocks} {len n : Nat}

theorem Checked.isEntry_genesis (h : g.Checked len) : (g.entry 0).IsEntry [] mainGenesis where
  hash := (h.hash 0 (Nat.zero_le _)).symm
  header := rfl
  pprev := rfl
  nHeight := rfl
  nChainWork := by
    change 1 * _ = 0 + _
    rw [one_mul, zero_add]

theorem Checked.isEntry_later (h : g.Checked len) (hn : n < len) :
    (g.entry (n + 1)).IsEntry (g.branch n) (g.block (n + 1)) where
  hash := (h.hash (n + 1) hn).symm
  header := by
    change { (g.block (n + 1)).toCBlockHeader with hashPrevBlock := g.blockHash n } = _
    rw [← h.linked (g.blockHash n) n]
    rfl
  pprev := by rw [branch_head]; rfl
  nHeight := by rw [branch_length]; rfl
  nChainWork := by
    rw [branch_head, block, h.nBits]
    change BitVec.ofNat 256 (n + 1 + 1) * _ = BitVec.ofNat 256 (n + 1) * _ + _
    rw [BitVec.ofNat_add, add_mul]
    exact congrArg _ (one_mul _)

theorem Checked.accepted (h : g.Checked len) (hn : n ≤ len) :
    AcceptedChain mainEnv noKeys view (g.branch n) (g.blocks n) (g.coins n) := by
  induction n with
  | zero =>
    have hconn : g.connect 0 (new emptyDb) = (.ok none, g.coins 0) := Prod.ext h.connects.1 rfl
    exact .genesis h.isEntry_genesis mainGenesis_valid.1 mainGenesis_valid.2 hconn
  | succ n ih =>
    have hprev := ih (by omega)
    have hhdr := h.header n hn
    have hcontents := h.contents n hn
    have hent := h.isEntry_later hn
    have hconn : g.connect (n + 1) (g.coins n) = (.ok (some ⟨[]⟩), g.coins (n + 1)) :=
      Prod.ext (h.connects.2 n hn) rfl
    have hstr : (g.context (n + 1)).connectBlock (g.block (n + 1)) =
        (g.context (n + 1)).connectBlock (g.block (n + 1)).withoutPayload :=
      connectBlock_withoutPayload rfl (h.checkBlock n hn)
    rw [connect, ← hstr, context] at hconn
    rw [branch, blocks]
    rw [branch_head g n] at hprev hhdr hcontents hent hconn ⊢
    exact .extend hprev hent (h.readable n) (h.checkBlock n hn) hhdr hcontents hconn

end GivenBlocks
end Lithium
