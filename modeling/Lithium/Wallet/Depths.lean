import Lithium.Lib.Transition
import Lithium.Wallet.Reorg

/-!
# The depth of a wallet transaction

Sequences of block notifications along reorganisations, and what the depth that a
wallet gives to a transaction says about the active chain. The condition on the
notifications is there because of marks that outlive their block; the last section
has a run in which one does.
-/

namespace Lithium
open Lib List CWallet
variable {chain : List BlockInfo} {tx : CTransaction} {s : TxState}

/-! ### Runs -/

/-- A wallet next to the chain that it has been told about. -/
structure SyncState (κ δ : Type) where
  chain : List BlockInfo
  wallet : CWallet κ δ

inductive BlockNotification where
  | connected (inMempool : Uint256 → Bool) (block : BlockInfo)
  | disconnected (block : BlockInfo)

/-- A notification that is worked off without an abort, about a block on top of the
active chain or about its last block. -/
inductive Notified {κ δ : Type} [DecidableEq δ] (ops : KeyOps κ δ) (U : Set CTransaction) :
    SyncState κ δ → BlockNotification → SyncState κ δ → Prop
  | connected {chain : List BlockInfo} {w w' : CWallet κ δ} {inMempool : Uint256 → Bool}
      {block : BlockInfo} : NotifiedChain (block :: chain) → (∀ x ∈ block.vtx, x ∈ U) →
      w.blockConnected ops inMempool block = .ok w' →
      Notified ops U ⟨chain, w⟩ (.connected inMempool block) ⟨block :: chain, w'⟩
  | disconnected {chain : List BlockInfo} {w w' : CWallet κ δ} {block : BlockInfo} :
      w.blockDisconnected ops block = .ok w' →
      Notified ops U ⟨block :: chain, w⟩ (.disconnected block) ⟨chain, w'⟩

/-- The condition on a notification, about the state before it: no transaction of a
connected block is in the mempool, and marks above the tip are borne out by the block;
when a block is taken away there are no marks above the tip, nor on what is made from
its coinbase. -/
def Undisturbed {κ δ : Type} (X : Set Uint256) (s : SyncState κ δ) : BlockNotification → Prop
  | .connected inMempool block => (∀ x ∈ block.vtx, inMempool x.getHash = false) ∧
      s.wallet.view.MarksConfirmedBy X s.chain block
  | .disconnected block => s.wallet.view.NoMarkAbove X (block.height + 1) ∧
      s.wallet.view.CoinBasesUnmarked X block

variable {t : Uint256}

/-- The wallet says what the chain says about all transactions outside `X`. -/
structure SyncState.Synced {κ δ : Type} (U : Set CTransaction) (X : Set Uint256)
    (s : SyncState κ δ) : Prop where
  valid : NotifiedChain s.chain
  inU : ∀ {height x}, Occurs s.chain height x → x ∈ U
  linked : s.wallet.view.Linked U
  height : s.wallet.lastBlockProcessedHeight = s.chain.length - 1
  settled : ∀ {t tx st}, s.wallet.view.entry t = some (tx, st) → tx.isCoinBase = false → t ∉ X →
    s.wallet.view.Settled s.chain t st

section Runs
variable {κ δ : Type} [DecidableEq δ] {ops : KeyOps κ δ} {U : Set CTransaction} {X : Set Uint256}

omit [DecidableEq δ] in
theorem SyncState.Synced.follows (hU : TxUniverse U) {s : SyncState κ δ} (h : s.Synced U X) :
    s.wallet.view.Follows U X ∅ s.chain s.chain.length := by
  refine ⟨h.linked, h.height, h.inU, ?_, ?_⟩
  · intro t tx st hent hcb hcl _
    exact .inl (h.settled hent hcb (hcl t .refl))
  · intro c d tx st tx' st' hch hcl hc hcb hd b height hs
    subst hs
    -- the conflict of the parent is one of the child
    obtain ⟨hnot, ⟨a, hpath, hrival⟩, -⟩ := h.settled hc hcb (hcl c (.single hch))
    have hconf : s.wallet.view.ConflictAt s.chain d height := ⟨a, hpath.tail hch, hrival⟩
    have hnotd := hconf.not_inChain hU h.valid h.linked h.inU
    obtain ⟨txd, sd, hentryd, hcoinbased, -⟩ := h.linked.child hch.1
    rw [hd] at hentryd
    cases hentryd
    have hset := h.settled hd hcoinbased (hcl d .refl)
    cases st' with
    | confirmed b' h' i =>
      obtain ⟨x, hx, rfl⟩ := hset
      exact absurd hx.inChain hnotd
    | conflicted b' h' =>
      refine ⟨b', h', rfl, ?_⟩
      by_contra hlt
      exact hset.2.2 height (by omega) hconf
    | inMempool => exact absurd hconf (hset.2 height)
    | inactive abandoned => exact absurd hconf (hset.2 height)
    | unrecognized b' i => exact absurd hconf (hset.2 height)

/-- What a step keeps: the chain is valid and the wallet follows it. -/
theorem Notified.follows (hU : TxUniverse U) {s s' : SyncState κ δ} {e : BlockNotification}
    (h : NotifiedChain s.chain ∧ s.wallet.view.Follows U X ∅ s.chain s.chain.length)
    (hstep : Notified ops U s e s') (hcond : Undisturbed X s e) :
    NotifiedChain s'.chain ∧ s'.wallet.view.Follows U X ∅ s'.chain s'.chain.length := by
  obtain ⟨hval, hfollows⟩ := h
  cases hstep with
  | connected hval' hblk hconn =>
    exact ⟨hval', follows_blockConnected hU hfollows hval' hblk hcond.1 hcond.2 hconn⟩
  | disconnected hdisc =>
    exact ⟨hval.tail, follows_blockDisconnected hU hfollows hval hcond.1 hcond.2 hdisc⟩

/-- What the depth of a transaction says where the wallet follows the chain. -/
theorem WalletView.Follows.depth (hU : TxUniverse U) {v : WalletView} (hval : NotifiedChain chain)
    (h : v.Follows U X ∅ chain chain.length) (hent : v.entry t = some (tx, s))
    (hcb : tx.isCoinBase = false) (hcl : v.Clean X t) :
    (0 < s.depth v.height ↔ InChain chain t) ∧ (∀ height x, Occurs chain height x → x.getHash = t →
        s.depth v.height = chain.length - height) ∧
      (s.depth v.height < 0 ↔ ∃ height, v.ConflictAt chain t height) := by
  have hht := h.height
  have hconflict_not : ∀ {height}, v.ConflictAt chain t height → ¬ InChain chain t :=
    fun hc => hc.not_inChain hU hval h.linked h.inU
  have hneither : (¬ InChain chain t ∧ ∀ height, ¬ v.ConflictAt chain t height) →
      s.depth v.height = 0 →
      (0 < s.depth v.height ↔ InChain chain t) ∧
        (∀ height x, Occurs chain height x → x.getHash = t →
          s.depth v.height = chain.length - height) ∧
        (s.depth v.height < 0 ↔ ∃ height, v.ConflictAt chain t height) := by
    rintro ⟨hnot, hnone⟩ hzero
    rw [hzero]
    refine ⟨iff_of_false (lt_irrefl 0) hnot, ?_, iff_of_false (lt_irrefl 0) ?_⟩
    · rintro height x hx rfl
      exact absurd hx.inChain hnot
    · rintro ⟨height, hc⟩
      exact hnone height hc
  rcases h.agrees hent hcb hcl (Set.notMem_empty t) with hset | ⟨⟨b, rfl⟩, hrest⟩
  · cases s with
    | confirmed b height i =>
      obtain ⟨x, hx, rfl⟩ := hset
      have hlt := (hval.occurs_lt hx).2
      simp only [TxState.depth, hht]
      refine ⟨iff_of_true (by omega) hx.inChain, ?_, iff_of_false (by omega) ?_⟩
      · intro height' y hy hyx
        rw [hval.occurs_unique hy hx hyx]
        omega
      · rintro ⟨height', hc⟩
        exact hconflict_not hc hx.inChain
    | conflicted b height =>
      obtain ⟨hnot, hc, -⟩ := hset
      obtain ⟨x, hx⟩ := hc.exists_occurs
      have hlt := (hval.occurs_lt hx).2
      simp only [TxState.depth, hht]
      refine ⟨iff_of_false (by omega) hnot, ?_, iff_of_true (by omega) ⟨height, hc⟩⟩
      rintro height' y hy rfl
      exact absurd hy.inChain hnot
    | inMempool | inactive abandoned | unrecognized b i => exact hneither hset rfl
  · refine hneither hrest ?_
    simp only [TxState.depth, hht]
    omega

/-- **Depths follow the active chain.** Along every sequence of notifications that all
meet the condition, a wallet that agreed with the chain on the transactions outside `X`
gives every transaction that is not made from those of `X` its depth in the chain: it
is positive exactly in the chain, where it counts the confirmations, and negative
exactly where the transaction or one it is made from has a rival in the chain. -/
theorem depth_follows_active_chain (hU : TxUniverse U) {s s' : SyncState κ δ}
    {notifications : List BlockNotification} (hsynced : s.Synced U X)
    (hrun : Run (fun s e s' => Notified ops U s e s' ∧ Undisturbed X s e) s notifications s')
    {t : Uint256} {wtx : CWalletTx} (hget : s'.wallet.getWalletTx t = some wtx)
    (hcb : wtx.tx.isCoinBase = false) (hcl : s'.wallet.view.Clean X t) :
    (0 < s'.wallet.getTxDepthInMainChain wtx ↔ InChain s'.chain t) ∧
      (∀ height x, Occurs s'.chain height x → x.getHash = t →
        s'.wallet.getTxDepthInMainChain wtx = s'.chain.length - height) ∧
      (s'.wallet.getTxDepthInMainChain wtx < 0 ↔
        ∃ height, s'.wallet.view.ConflictAt s'.chain t height) := by
  have hfin : NotifiedChain s'.chain ∧ s'.wallet.view.Follows U X ∅ s'.chain s'.chain.length :=
    hrun.invariant (I := fun s => NotifiedChain s.chain ∧
      s.wallet.view.Follows U X ∅ s.chain s.chain.length)
      ⟨hsynced.valid, hsynced.follows hU⟩ fun hI hstep => hstep.1.follows hU hI hstep.2
  exact hfin.2.depth hU hfin.1 (view_entry_eq_some hget) hcb hcl

end Runs

/-! ### A mark that outlives its block

Two coins of the wallet come in one block. The wallet spends both in one payment, and a
rival spends the first. One block on top of the coins has the rival, one has the
payment, and one has neither. -/

namespace TwoCoins

def ourScript : CScript := ⟨[0x51], CScript.opTrue_lt⟩

def otherScript : CScript := ⟨[0x52], by decide⟩

def input (o : COutPoint) : CTxIn := ⟨o, .empty, 0xffffffff, .empty⟩

/-- A transaction with one output, which spends one outpoint or two. -/
def spend (o : COutPoint) (other : Option COutPoint) (nValue : Int64) (scriptPubKey : CScript) :
    CTransaction where
  nVersion := 1
  vin := input o :: other.toList.map input
  vout := [⟨nValue, scriptPubKey⟩]
  nLockTime := 0
  vin_lt := by cases other <;> simp
  vout_lt := single_lt _

def coinbase (n : Int64) : CTransaction := spend .null none n otherScript

def firstCoin : CTransaction := spend ⟨(coinbase 1000).getHash, 0⟩ none 100 ourScript

def secondCoin : CTransaction := spend ⟨(coinbase 1001).getHash, 0⟩ none 200 ourScript

def payment : CTransaction :=
  spend ⟨firstCoin.getHash, 0⟩ (some ⟨secondCoin.getHash, 0⟩) 290 otherScript

def rival : CTransaction := spend ⟨firstCoin.getHash, 0⟩ none 90 otherScript

/-- The first blocks, which the coins are made from. -/
def below : List BlockInfo :=
  [⟨uint256S 11, uint256S 10, 1, [coinbase 1001]⟩, ⟨uint256S 10, .zero, 0, [coinbase 1000]⟩]

def withCoins : BlockInfo := ⟨uint256S 12, uint256S 11, 2, [coinbase 1002, firstCoin, secondCoin]⟩

def withRival : BlockInfo := ⟨uint256S 13, uint256S 12, 3, [coinbase 1003, rival]⟩

def withPayment : BlockInfo := ⟨uint256S 14, uint256S 12, 3, [coinbase 1004, payment]⟩

def without : BlockInfo := ⟨uint256S 15, uint256S 12, 3, [coinbase 1005]⟩

def transactions : List CTransaction :=
  [1000, 1001, 1002, 1003, 1004, 1005].map coinbase ++ [firstCoin, secondCoin, payment, rival]

def U : Set CTransaction := {tx | tx ∈ transactions}

/-- A wallet to which the given scripts belong, whatever happens. -/
def opsFor (ours : CScript → Bool) : KeyOps Unit Unit where
  isMine _ script := if ours script then IsMine.spendable else IsMine.no
  markUnusedAddresses _ _ := ()
  extractDestination _ := none
  getScriptForDestination _ := .empty
  affectedDestinations _ _ := []

def ops : KeyOps Unit Unit := opsFor fun script => script = ourScript

/-- A wallet without transactions that has been told of a block. -/
def walletAt (height : Int) (hash : Uint256) : CWallet Unit Unit where
  mapWallet := OrdMap.empty
  mapTxSpends := []
  lastBlockProcessedHeight := height
  lastBlockProcessed := hash
  keys := ()
  usedDestinations := []
  avoidReuse := false
  spendZeroConfChange := true
  fBroadcastTransactions := true

def noMempool (_ : Uint256) : Bool := false

/-- The wallet holds the payment and has seen the block with the coins. -/
def holding : CWallet Unit Unit :=
  { walletAt 2 withCoins.hash with
    mapWallet := OrdMap.empty.insert payment.getHash (.ofTransaction payment (.inactive false))
    mapTxSpends := payment.vin.map fun txin => (txin.prevout, payment.getHash) }

def start : SyncState Unit Unit := ⟨withCoins :: below, holding⟩

theorem blocks_fit : (∀ a ∈ transactions, ∀ b ∈ transactions, a.getHash = b.getHash → a = b) ∧
    (∀ b ∈ withRival :: withPayment :: without :: withCoins :: below,
      ∀ x ∈ b.vtx, x ∈ transactions) ∧
    (payment ∈ transactions ∧ payment.isCoinBase = false ∧
      payment.getHash ∉ ((withCoins :: below).flatMap BlockInfo.vtx).map CTransaction.getHash) ∧
    (∀ x ∈ (without :: withCoins :: below).flatMap BlockInfo.vtx,
      ∀ o ∈ payment.vin.map CTxIn.prevout, o ∉ x.vin.map CTxIn.prevout) ∧
    ∀ b ∈ [withRival, withPayment, without],
      NotifiedChain.check (b :: withCoins :: below) = true := by
  decide +kernel

theorem notified {b : BlockInfo} (h : b ∈ [withRival, withPayment, without]) :
    NotifiedChain (b :: withCoins :: below) :=
  NotifiedChain.of_check (blocks_fit.2.2.2.2 b h)

theorem payment_isCoinBase : payment.isCoinBase = false := blocks_fit.2.2.1.2.1

theorem txUniverse : TxUniverse U := .of_injOn fun a ha b hb h => blocks_fit.1 a ha b hb h

variable {w : CWallet Unit Unit} {height : Int}

def content (w : CWallet Unit Unit) : Int × List (Uint256 × CTransaction × TxState) :=
  (w.lastBlockProcessedHeight, w.mapWallet.entries.map fun e => (e.1, e.2.tx, e.2.state))

theorem entry_of_content (hcont : content w = (height, [(payment.getHash, payment, s)]))
    {s' : TxState} (h : w.view.entry t = some (tx, s')) :
    t = payment.getHash ∧ tx = payment ∧ s' = s := by
  obtain ⟨wtx, hget, rfl, rfl⟩ := exists_of_view_entry h
  have hmem : (t, wtx.tx, wtx.state) ∈ (content w).2 :=
    mem_map.mpr ⟨(t, wtx), (w.mapWallet.mem_entries_iff t wtx).mpr hget, rfl⟩
  rw [hcont, mem_singleton, Prod.mk.injEq, Prod.mk.injEq] at hmem
  exact hmem

theorem exists_of_content (hcont : content w = (height, [(payment.getHash, payment, s)])) :
    ∃ wtx, w.getWalletTx payment.getHash = some wtx ∧ wtx.tx = payment ∧ wtx.state = s := by
  have hmem : (payment.getHash, payment, s) ∈ (content w).2 := by
    rw [hcont]
    exact mem_singleton_self _
  obtain ⟨⟨t, wtx⟩, he, heq⟩ := mem_map.mp hmem
  simp only [Prod.mk.injEq] at heq
  obtain ⟨rfl, htx, hst⟩ := heq
  exact ⟨wtx, (w.mapWallet.mem_entries_iff _ wtx).mp he, htx, hst⟩

theorem holding_entry (h : holding.view.entry t = some (tx, s)) :
    t = payment.getHash ∧ tx = payment ∧ s = .inactive false :=
  entry_of_content (show content holding = (2, _) from rfl) h

theorem payment_entry : holding.view.entry payment.getHash = some (payment, .inactive false) := by
  rw [view_entry]
  exact congrArg _ (OrdMap.find?_insert_self _ _ _)

theorem not_rival {v : WalletView} {a : Uint256}
    (hent : ∀ {tx s}, v.entry a = some (tx, s) → tx = payment)
    (hchain : chain ⊆ without :: withCoins :: below) : ¬ v.Rival chain height a := by
  rintro ⟨tx, s, ha, -, o, ho, x, ⟨b, hb, -, hx⟩, hxo, -⟩
  obtain rfl := hent ha
  exact blocks_fit.2.2.2.1 x (mem_flatMap.mpr ⟨b, hchain hb, hx⟩) o
    (CTransaction.spends_iff.mp ho) (CTransaction.spends_iff.mp hxo)

theorem synced : start.Synced U ∅ := by
  refine ⟨(notified mem_cons_self).tail, ?_, ⟨?_, ?_⟩, rfl, ?_⟩
  · rintro height x ⟨b, hb, -, hx⟩
    exact blocks_fit.2.1 b (by simp [start] at hb ⊢; tauto) x hx
  · intro t tx s h
    obtain ⟨rfl, rfl, rfl⟩ := holding_entry h
    exact ⟨blocks_fit.2.2.1.1, rfl⟩
  · intro o t
    change (o, t) ∈ payment.vin.map (fun txin => (txin.prevout, payment.getHash)) ↔ _
    rw [mem_map]
    constructor
    · rintro ⟨txin, hmem, heq⟩
      cases heq
      exact ⟨payment, _, payment_entry, payment_isCoinBase, txin, hmem, rfl⟩
    · rintro ⟨tx, s, h, -, txin, hmem, rfl⟩
      obtain ⟨rfl, rfl, rfl⟩ := holding_entry h
      exact ⟨txin, hmem, rfl⟩
  · intro t tx s h _ _
    obtain ⟨rfl, rfl, rfl⟩ := holding_entry h
    refine ⟨?_, ?_⟩
    · rw [NotifiedChain.inChain_iff]
      exact blocks_fit.2.2.1.2.2
    · rintro height ⟨a, -, hrival⟩
      exact not_rival (fun ha => (holding_entry ha).2.1) (subset_cons_self _ _) hrival

/-- The rival's block comes, goes, and another block takes its place. -/
def outcome : Except WalletAbort (CWallet Unit Unit) := do
  let w ← holding.blockConnected ops noMempool withRival
  let w ← w.blockDisconnected ops withRival
  w.blockConnected ops noMempool without

theorem outcome_content : (outcome.map content).toOption =
    some (3, [(payment.getHash, payment, .conflicted withRival.hash 3)]) := by
  decide +kernel

/-- The wallets on the way. -/
theorem exists_wallets : ∃ w₁ w₂ w₃, holding.blockConnected ops noMempool withRival = .ok w₁ ∧
    w₁.blockDisconnected ops withRival = .ok w₂ ∧ w₂.blockConnected ops noMempool without = .ok w₃ ∧
    content w₃ = (3, [(payment.getHash, payment, .conflicted withRival.hash 3)]) := by
  obtain ⟨w₃, hrun, hcont⟩ := exists_of_toOption_map outcome_content
  obtain ⟨w₁, hfst, hrun⟩ := bind_eq_ok.mp hrun
  obtain ⟨w₂, hsecond, hthird⟩ := bind_eq_ok.mp hrun
  exact ⟨w₁, w₂, w₃, hfst, hsecond, hthird, hcont⟩

theorem notified_first (h : holding.blockConnected ops noMempool withRival = .ok w) :
    Notified ops U start (.connected noMempool withRival) ⟨withRival :: withCoins :: below, w⟩ :=
  .connected (notified (by simp)) (blocks_fit.2.1 _ (by simp)) h

end TwoCoins

open TwoCoins in
/-- The theorem about depths for the first notification of the scenario. -/
theorem depth_follows_active_chain_withRival : ∃ (w : CWallet Unit Unit) (wtx : CWalletTx),
    w.getWalletTx payment.getHash = some wtx ∧ (w.getTxDepthInMainChain wtx < 0 ↔
      ∃ height, w.view.ConflictAt (withRival :: withCoins :: below) payment.getHash height) := by
  obtain ⟨w₁, w₂, w₃, hfst, -⟩ := exists_wallets
  have hcond : Undisturbed ∅ start (.connected noMempool withRival) := by
    refine ⟨fun _ _ => rfl, fun t tx b _ h => ?_⟩
    have hst := (holding_entry h).2.2
    cases hst
  have hcont : (w₁.getWalletTx payment.getHash).map CWalletTx.tx = some payment := by
    have hrun : ((holding.blockConnected ops noMempool withRival).map fun w =>
        (w.getWalletTx payment.getHash).map CWalletTx.tx).toOption = some (some payment) := by
      decide +kernel
    rw [hfst] at hrun
    exact Option.some.inj hrun
  obtain ⟨wtx, hget, htx⟩ := Option.map_eq_some_iff.mp hcont
  have hdepth := depth_follows_active_chain txUniverse synced
    (Run.nil.snoc ⟨notified_first hfst, hcond⟩) hget
    (by rw [htx, payment_isCoinBase]) fun a _ => Set.notMem_empty a
  exact ⟨w₁, wtx, hget, hdepth.2.2⟩

open TwoCoins in
/-- The rival's block is taken away and a block without a rival is connected in its
place: no transaction of the active chain spends what the payment spends, and its depth
is negative. -/
theorem stale_mark_after_reorganisation : ∃ w wtx, TxUniverse U ∧ start.Synced U ∅ ∧
    Run (Notified ops U) start [.connected noMempool withRival, .disconnected withRival,
      .connected noMempool without] ⟨without :: withCoins :: below, w⟩ ∧
    w.getWalletTx payment.getHash = some wtx ∧ wtx.tx.isCoinBase = false ∧
    w.getTxDepthInMainChain wtx = -1 ∧
    ¬ ∃ height, w.view.ConflictAt (without :: withCoins :: below) payment.getHash height := by
  obtain ⟨w₁, w₂, w₃, hfst, hsecond, hthird, hcont⟩ := exists_wallets
  obtain ⟨wtx, hget, htx, hst⟩ := exists_of_content hcont
  have hht : w₃.lastBlockProcessedHeight = 3 := congrArg Prod.fst hcont
  refine ⟨w₃, wtx, txUniverse, synced, ?_, hget, by rw [htx, payment_isCoinBase], ?_, ?_⟩
  · exact ((Run.nil.snoc (notified_first hfst)).snoc (.disconnected hsecond)).snoc
      (.connected (notified (by simp)) (blocks_fit.2.1 _ (by simp)) hthird)
  · rw [getTxDepthInMainChain, hst, hht]
    rfl
  · rintro ⟨height, a, -, hrival⟩
    exact not_rival (fun ha => (entry_of_content hcont ha).2.1) (Subset.refl _) hrival

end Lithium
