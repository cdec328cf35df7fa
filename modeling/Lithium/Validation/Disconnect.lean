import Lithium.ChainParams
import Lithium.Txdb
import Lithium.Validation.Ledger

/-!
# Disconnecting undoes connecting

`DisconnectBlock` reverts the changes of a block, last transaction first. It does
so on every state, and reports whether it found what it expected; what it leaves
at the outpoints of the block depends on the undo data only.
-/

namespace Lithium
open Lib Program List Function CCoinsViewDB CTransaction CCoinsViewCache CoinsProgram
variable {nHeight : Int} {undos : List CTxUndo} {vtx : List CTransaction}
variable {fCoinbase : Bool} {tx : CTransaction}

/-! ### States -/

/-- A state in which nothing is hidden, with this map and best block. -/
structure UtxoState.At (v : UtxoMap) (best base : Uint256) (t : UtxoState) : Prop where
  coins : t.coins = v
  tidy : t.Tidy
  best : t.bestBlock = best
  base : t.baseBest = base

/-- A coin that `ApplyTxInUndo` puts back as it is. -/
structure Coin.Restorable (coin : Coin) : Prop where
  height : coin.nHeight ≠ 0
  script : coin.out.scriptPubKey.isUnspendable = false
  unspent : coin.isSpent = false

variable {ε : Type} {t : UtxoState} {v : UtxoMap} {best base : Uint256}

theorem UtxoState.At.spend (ht : t.At v best base) (o : COutPoint) :
    (t.spend o).At (update v o none) best base :=
  ⟨by rw [(ht.tidy.spend o).2, ht.coins], (ht.tidy.spend o).1, ht.best, ht.base⟩

/-- A coin may be added where there is none, or where one is expected. -/
theorem UtxoState.At.add (ht : t.At v best base) {o : COutPoint} {coin : Coin}
    (hscr : coin.out.scriptPubKey.isUnspendable = false) {possibleOverwrite : Bool}
    (hover : possibleOverwrite = false → v o = none) :
    (t.add o coin possibleOverwrite).At (update v o (some coin)) best base := by
  have hnone : t.hidden o = none := congrFun ht.tidy o
  rw [UtxoState.add, hscr, if_neg Bool.false_ne_true]
  refine ⟨by rw [← ht.coins], ?_, ht.best, ht.base⟩
  rw [UtxoState.Tidy]
  split_ifs with hpo
  · exact ht.tidy
  · dsimp only
    rw [ht.coins, hover (Bool.not_eq_true _ ▸ hpo), ← hnone, update_eq_self]
    exact ht.tidy.trans (by rw [hnone])

/-! ### Outputs -/

theorem coinsFrom_of_unspendable {txid : Uint256} {out : CTxOut}
    {rest : List CTxOut} {i : Nat} (hi : i < 2 ^ 32)
    (hscr : out.scriptPubKey.isUnspendable = true) :
    coinsFrom txid nHeight fCoinbase (out :: rest) i =
      coinsFrom txid nHeight fCoinbase rest (i + 1) := by
  funext o
  rw [coinsFrom_cons hi]
  split_ifs with ho
  · rw [CTxOut.toCoin, if_pos hscr, ho, coinsFrom_next hi]
  · rfl

theorem outputMatches_ofOutput {out : CTxOut} (hht : 0 ≤ nHeight ∧ nHeight < 2 ^ 31) :
    outputMatches out nHeight fCoinbase (some (Coin.ofOutput out nHeight fCoinbase)) = true := by
  have hn := toNat_ofInt_height hht
  simp only [outputMatches, Coin.ofOutput, hn, beq_self_eq_true, Bool.and_self]

variable {fClean : Bool}

/-- The outputs of a transaction are taken out, whatever is there. -/
theorem wp_removeOutputs {Q : UtxoPost ε Bool} {txid : Uint256}
    (hht : 0 ≤ nHeight ∧ nHeight < 2 ^ 31) {isCoinbase isBip30Exception : Bool}
    {vout : List CTxOut} {i : Nat} (hlen : i + vout.length ≤ 2 ^ 32) (ht : t.At v best base)
    (h : ∀ fClean' t', t'.At (fun o =>
        if (coinsFrom txid nHeight isCoinbase vout i o).isSome then none else v o) best base →
      ((∀ o coin, coinsFrom txid nHeight isCoinbase vout i o = some coin → v o = some coin) →
        fClean' = fClean) → Q (.ok fClean') t') :
    (removeOutputs txid nHeight isCoinbase isBip30Exception vout i fClean :
      CoinsProgram ε Bool).wp coinsSpec Q t := by
  induction vout generalizing t v i fClean with
  | nil =>
    refine h fClean t ?_ fun _ => rfl
    simpa [coinsFrom] using ht
  | cons out rest ih =>
    rw [length_cons] at hlen
    have hi : i < 2 ^ 32 := by omega
    rw [removeOutputs]
    split_ifs with hscr
    · rw [coinsFrom_of_unspendable hi hscr] at h
      exact ih (by omega) ht h
    · have hcoin : out.toCoin nHeight isCoinbase = some (Coin.ofOutput out nHeight isCoinbase) :=
        if_neg hscr
      rw [wp_bind]
      refine wp_spendCoin fun r hr hnone => ?_
      refine ih (by omega) (ht.spend _) fun fClean' t' ht' hcl =>
        h fClean' t' ?_ fun hthere => ?_
      · convert ht' using 2 with o
        rw [coinsFrom_cons hi]
        by_cases ho : o = ⟨txid, UInt32.ofNat i⟩
        · rw [if_pos ho, hcoin, ho, coinsFrom_next hi]
          simp
        · rw [if_neg ho, update_of_ne ho]
      · rw [hcl fun o coin ho => ?_]
        · have hv := hthere ⟨txid, UInt32.ofNat i⟩ (Coin.ofOutput out nHeight isCoinbase)
            (by rw [coinsFrom_cons hi, if_pos rfl, hcoin])
          rw [ht.coins, hv] at hr hnone
          cases r with
          | none => cases hnone rfl
          | some coin =>
            have hr : coin = Coin.ofOutput out nHeight isCoinbase := hr
            rw [hr, outputMatches_ofOutput hht, Bool.true_or, Bool.and_true]
        · have hne : o ≠ ⟨txid, UInt32.ofNat i⟩ := by
            rintro rfl
            rw [coinsFrom_next hi] at ho
            cases ho
          rw [update_of_ne hne]
          exact hthere o coin (by rw [coinsFrom_cons hi, if_neg hne, ho])

/-! ### Inputs -/

variable {Q : UtxoPost ε DisconnectResult}

theorem wp_applyTxInUndo {undo : Coin} (hundo : undo.Restorable) {out : COutPoint}
    (ht : t.At v best base) (h : ∀ t', t'.At (update v out (some undo)) best base →
      Q (.ok (if (v out).isSome then .unclean else .ok)) t') :
    (applyTxInUndo undo out : CoinsProgram ε DisconnectResult).wp coinsSpec Q t := by
  rw [applyTxInUndo, wp_bind, wp_haveCoin, ht.coins]
  refine wp_bind.mpr ?_
  rw [completeUndo, if_neg hundo.height]
  refine wp_bind.mpr (wp_addCoin hundo.unspent ?_ fun _ => ?_)
  · intro _ habsent hsome
    rw [ht.coins, habsent] at hsome
    cases hsome
  · refine h _ (ht.add hundo.script fun habsent => ?_)
    simpa using habsent

/-- The inputs of a transaction are put back, whatever is there. -/
theorem wp_restoreInputs {pairs : List (CTxIn × Coin)} (hpairs : ∀ p ∈ pairs, p.2.Restorable)
    {old : UtxoMap} (hold : ∀ p ∈ pairs, old p.1.prevout = some p.2) (ht : t.At v best base)
    (h : ∀ res t', res ≠ .failed → t'.At (fun o =>
        if o ∈ pairs.map (fun p => p.1.prevout) then old o else v o) best base →
      (fClean = true → (pairs.map fun p => p.1.prevout).Nodup →
        (∀ p ∈ pairs, v p.1.prevout = none) → res = .ok) → Q (.ok res) t') :
    (restoreInputs pairs fClean : CoinsProgram ε DisconnectResult).wp coinsSpec Q t := by
  induction pairs generalizing t v fClean with
  | nil =>
    refine h _ t ?_ (by simpa using ht) fun hcl _ _ => if_pos hcl
    cases fClean <;> decide
  | cons p rest ih =>
    obtain ⟨txin, undo⟩ := p
    rw [forall_mem_cons] at hpairs hold
    rw [restoreInputs, wp_bind]
    refine wp_applyTxInUndo hpairs.1 ht fun t' ht' => ?_
    have hrest : ∀ fClean' : Bool, (fClean' = (fClean && !(v txin.prevout).isSome)) →
        (restoreInputs rest fClean' : CoinsProgram ε DisconnectResult).wp coinsSpec Q t' := by
      intro fClean' hcl
      refine ih hpairs.2 hold.2 ht' fun res t'' hres ht'' hok => h res t'' hres ?_ ?_
      · convert ht'' using 2 with o
        by_cases ho : o = txin.prevout
        · simp [ho, hold.1]
        · simp only [map_cons, mem_cons, ho, false_or, update_of_ne ho]
      · intro hall hnd hnone
        rw [map_cons, nodup_cons] at hnd
        rw [forall_mem_cons] at hnone
        refine hok (by rw [hcl, hall, hnone.1]; rfl) hnd.2 fun p hp => ?_
        rw [update_of_ne]
        · exact hnone.2 p hp
        · exact fun heq => hnd.1 (heq ▸ mem_map_of_mem hp)
    cases hpres : (v txin.prevout).isSome with
    | true | false => exact hrest _ (by rw [hpres]; rfl)

/-! ### Transactions -/

theorem Spends.zip {w : UtxoMap} {vin : List CTxIn} {coins : List Coin} (h : Spends w vin coins) :
    (∀ p ∈ vin.zip coins, w p.1.prevout = some p.2) ∧
      (vin.zip coins).map (fun p => p.1.prevout) = vin.map CTxIn.prevout := by
  induction vin generalizing coins with
  | nil => simp
  | cons txin rest ih =>
    obtain ⟨coin, coins, rfl, hcoin, hcs⟩ := h.exists_cons
    obtain ⟨hzip, hmap⟩ := ih hcs
    rw [zip_cons_cons]
    exact ⟨forall_mem_cons.mpr ⟨hcoin, hzip⟩, by rw [map_cons, hmap, map_cons]⟩

/-- The undo data of a transaction has the coins that it spent in this map. A
coinbase has none. -/
structure UndoFits (old : UtxoMap) (tx : CTransaction) (txundo : Option CTxUndo) : Prop where
  checked : tx.Checked
  coinbase : txundo = none → tx.isCoinBase = true
  ordinary : ∀ undo, txundo = some undo → tx.isCoinBase = false ∧
    Spends old tx.vin undo.vprevout ∧ ∀ coin ∈ undo.vprevout, coin.Restorable

variable {fEnforceBIP30 : Bool}

theorem wp_disconnectTx {nHeight : Int} (hht : 0 ≤ nHeight ∧ nHeight < 2 ^ 31) {old : UtxoMap}
    {txundo : Option CTxUndo} (hfits : UndoFits old tx txundo) (ht : t.At v best base)
    (h : ∀ res t', res ≠ .failed → t'.At ((tx.change nHeight).revert old v) best base →
      (fClean = true → (∃ w, v = (tx.change nHeight).apply w) → res = .ok) → Q (.ok res) t') :
    (disconnectTx nHeight fEnforceBIP30 tx txundo fClean :
      CoinsProgram ε DisconnectResult).wp coinsSpec Q t := by
  have hlen := hfits.checked.vout_length
  rw [disconnectTx, wp_bind]
  refine wp_removeOutputs hht (by omega) ht fun fClean' t' ht' hcl => ?_
  have hpres : (∃ w, v = (tx.change nHeight).apply w) → fClean' = fClean := by
    rintro ⟨w, rfl⟩
    refine hcl fun o coin ho => ?_
    change ((tx.created nHeight o).or _) = _
    rw [created, ho, Option.some_or]
  cases txundo with
  | none =>
    refine h _ t' (by cases fClean' <;> decide) ?_ fun hall happly => ?_
    · convert ht' using 2 with o
      rw [Change.revert, change, prevouts, if_pos (hfits.coinbase rfl)]
      rfl
    · rw [hpres happly, hall, if_pos rfl]
  | some undo =>
    obtain ⟨hcb, hsp, hcs⟩ := hfits.ordinary undo rfl
    obtain ⟨hzip, hmap⟩ := hsp.zip
    have hprevouts : tx.prevouts = tx.vin.map CTxIn.prevout := by
      rw [prevouts, hcb, if_neg Bool.false_ne_true]
    dsimp only [andThen]
    rw [if_neg (not_not.mpr hsp.length)]
    refine wp_restoreInputs (fun p hp => ?_) (fun p hp => hzip p (mem_reverse.mp hp)) ht'
      fun res t'' hres ht'' hok => h res t'' hres ?_ fun hall happly => ?_
    · exact hcs p.2 (of_mem_zip (mem_reverse.mp hp)).2
    · convert ht'' using 2 with o
      simp only [map_reverse, hmap, mem_reverse]
      rw [Change.revert, change, hprevouts]
      rfl
    · refine hok (by rw [hpres happly, hall]) ?_ fun p hp => ?_
      · rw [map_reverse, hmap, nodup_reverse]
        exact hfits.checked.distinct
      · obtain ⟨w, rfl⟩ := happly
        have hmem : p.1.prevout ∈ (tx.change nHeight).taken := by
          rw [change, hprevouts]
          exact mem_map_of_mem (of_mem_zip (mem_reverse.mp hp)).1
        split_ifs with hcreated
        · rfl
        · have hput : (tx.change nHeight).put p.1.prevout = none :=
            Option.not_isSome_iff_eq_none.mp hcreated
          rw [Change.apply, hput, if_pos hmem, Option.none_or]

/-- Transactions with their undo data, and the changes that they made. -/
abbrev UndoFitsAll (nHeight : Int) :=
  List.Forall₂ fun (p : CTransaction × Option CTxUndo) (e : Change COutPoint Coin × UtxoMap) =>
    e.1 = p.1.change nHeight ∧ UndoFits e.2 p.1 p.2

variable {es : List (Change COutPoint Coin × UtxoMap)}

/-- The transactions of a block are reverted one after the other. -/
theorem wp_disconnectTxs {nHeight : Int} (hht : 0 ≤ nHeight ∧ nHeight < 2 ^ 31)
    {txs : List (CTransaction × Option CTxUndo)} (hfits : UndoFitsAll nHeight txs es)
    (ht : t.At v best base)
    (h : ∀ res t', res ≠ .failed → t'.At (es.foldl (fun w e => e.1.revert e.2 w) v) best base →
      (fClean = true → ∀ w, v = applyAll (es.reverse.map Prod.fst) w → Recorded w es.reverse →
        res = .ok) → Q (.ok res) t') : (disconnectTxs nHeight fEnforceBIP30 txs fClean :
      CoinsProgram ε DisconnectResult).wp coinsSpec Q t := by
  induction hfits generalizing t v fClean with
  | nil =>
    refine h _ t (by cases fClean <;> decide) ht fun hall _ _ _ => ?_
    rw [hall, if_pos rfl]
  | @cons p e txs es hfst _ ih =>
    obtain ⟨e, old⟩ := e
    obtain ⟨rfl, hfits⟩ := hfst
    rw [disconnectTxs, wp_bind]
    refine wp_disconnectTx hht hfits ht fun res t' hres ht' hok => ?_
    have hrest : ∀ fClean' : Bool, fClean' = decide (res ≠ .unclean) →
        (disconnectTxs nHeight fEnforceBIP30 txs fClean' :
          CoinsProgram ε DisconnectResult).wp coinsSpec Q t' := by
      intro fClean' hcl
      refine ih ht' fun res' t'' hres' ht'' hok' => h res' t'' hres' ht'' ?_
      intro hall w hv hrec
      rw [reverse_cons, map_append, applyAll_append] at hv
      rw [reverse_cons, recorded_append] at hrec
      obtain ⟨hbef, ⟨hold, hnew⟩, -⟩ := hrec
      have hres := hok hall ⟨_, hv⟩
      refine hok' (by rw [hcl, hres]; decide) w ?_ hbef
      rw [hv]
      exact Change.revert_apply hold hnew
    cases res with
    | ok | unclean => exact hrest _ rfl
    | failed => exact absurd rfl hres

/-- `DisconnectBlock` reverts the changes of a block, whatever is there. -/
theorem wp_disconnectBlock {env : ChainEnv} {pindex : CBlockIndex} {hashPrev : Uint256}
    {block : CBlock} {undos : List CTxUndo} (hht : 0 ≤ pindex.nHeight ∧ pindex.nHeight < 2 ^ 31)
    (hlen : undos.length + 1 = block.vtx.length)
    (hfits : UndoFitsAll pindex.nHeight (block.vtx.zip (none :: undos.map some)) es)
    (ht : t.At v best base) (h : ∀ res t', res ≠ .failed →
      t'.At (revertAll es v) (if hashPrev.isNull then base else hashPrev) base →
      (∀ w, v = applyAll (es.map Prod.fst) w → Recorded w es → res = .ok) → Q (.ok res) t') :
    (disconnectBlock env pindex hashPrev block (some ⟨undos⟩) :
      CoinsProgram ε DisconnectResult).wp coinsSpec Q t := by
  rw [disconnectBlock]
  rw [if_neg (not_not.mpr hlen), wp_bind]
  refine wp_disconnectTxs hht (rel_reverse hfits) ht fun res t' hres ht' hok => ?_
  have hset : Q (.ok res) (t'.setBest hashPrev) := by
    refine h res _ hres ⟨?_, ht'.tidy, ?_, ht'.base⟩ fun w hv hrec => ?_
    · rw [revertAll_eq_foldr]
      refine ht'.coins.trans ?_
      rw [foldl_reverse]
    · rw [UtxoState.setBest, ht'.base]
    · exact hok rfl w (by rwa [reverse_reverse]) (by rwa [reverse_reverse])
  cases res with
  | ok | unclean => exact wp_bind.mpr ((wp_setBestBlock _).mpr hset)
  | failed => exact absurd rfl hres

/-! ### The undo data of an accepted block -/

theorem maxScriptSize_of_spendable {script : CScript} (h : script.isUnspendable = false) :
    script.bytes.length ≤ maxScriptSize := by
  rw [CScript.isUnspendable, Bool.or_eq_false_iff, decide_eq_false_iff_not] at h
  omega

namespace ConnectContext
variable {ctx : ConnectContext}

/-- What the undo data of transactions is good for. -/
structure UndoKept (ctx : ConnectContext) (v : UtxoMap) (vtx : List CTransaction)
    (txundos : List (Option CTxUndo)) (es : List (Change COutPoint Coin × UtxoMap)) : Prop where
  changes : es.map Prod.fst = changes ctx.pindex.nHeight vtx
  recorded : Recorded v es
  fits : UndoFitsAll ctx.pindex.nHeight (vtx.zip txundos) es

/-- The coins that a transaction spent can be put back. -/
theorem TxFunded.undoFits {undo : List Coin} (h : ctx.TxFunded t tx undo)
    (hchk : tx.Checked) (hcb : tx.isCoinBase = false) (ht : t.Sane)
    (hmined : MinedBy ctx.pindex.nHeight t.coins) : UndoFits t.coins tx (some ⟨undo⟩) := by
  refine ⟨hchk, nofun, fun u hu => ?_⟩
  cases hu
  refine ⟨hcb, h.spends hcb, fun coin hcoin => ?_⟩
  obtain ⟨txin, -, hv⟩ := (h.spends hcb).mem hcoin
  have hcoin := hmined _ _ hv
  refine ⟨fun hzero => ?_, hcoin.script, ht.coins _ _ hv⟩
  have hpos := hcoin.positive
  rw [hzero] at hpos
  exact absurd hpos (by decide)

section
variable (hht : 0 < ctx.pindex.nHeight ∧ ctx.pindex.nHeight < 2 ^ 31)

include hht

section
variable (h : ctx.TxsAccepted t vtx undos) (hchk : ∀ tx ∈ vtx, tx.Checked)

include h hchk

theorem TxsAccepted.undoKept
    (hcb : ∀ tx ∈ vtx, tx.isCoinBase = false) (ht : t.Sane) (htidy : t.Tidy)
    (hmined : MinedBy ctx.pindex.nHeight t.coins)
    (hnew : PutsNewAll t.coins (Lithium.changes ctx.pindex.nHeight vtx)) :
    ∃ es, ctx.UndoKept t.coins vtx (undos.map some) es := by
  induction h with
  | nil t => exact ⟨[], rfl, trivial, .nil⟩
  | @cons t tx undo rest undos hacc _ ih =>
    rw [forall_mem_cons] at hchk hcb
    have hcs := htidy.applyTx_coins hchk.1 ctx.pindex.nHeight
    obtain ⟨es, hes⟩ := ih hchk.2 hcb.2 (ht.applyTx hchk.1 _)
      (htidy.applyTx hchk.1 fun _ => hnew.1) (hcs ▸ hmined.apply hht tx)
      (hcs ▸ hnew.2)
    have hfits := hacc.undoFits hchk.1 hcb.1 ht hmined
    refine ⟨(tx.change ctx.pindex.nHeight, t.coins) :: es, ?_, ⟨⟨fun _ _ => rfl, hnew.1⟩, ?_⟩, ?_⟩
    · rw [map_cons, hes.changes]
      rfl
    · exact hcs ▸ hes.recorded
    · exact .cons ⟨rfl, hfits⟩ hes.fits

/-- The coins of the undo data survive being written and read. -/
theorem TxsAccepted.storable (htidy : t.Tidy) (hmined : MinedBy ctx.pindex.nHeight t.coins)
    (hnew : PutsNewAll t.coins (Lithium.changes ctx.pindex.nHeight vtx)) :
    undos.length = vtx.length ∧ ∀ undo ∈ undos, undo.vprevout.length ≤ maxSize ∧
      ∀ coin ∈ undo.vprevout, coin.Storable := by
  induction h with
  | nil t => exact ⟨rfl, by simp⟩
  | @cons t tx undo rest undos hacc _ ih =>
    rw [forall_mem_cons] at hchk
    have hcs := htidy.applyTx_coins hchk.1 ctx.pindex.nHeight
    obtain ⟨hlen, hundos⟩ := ih hchk.2 (htidy.applyTx hchk.1 fun _ => hnew.1)
      (hcs ▸ hmined.apply hht tx) (hcs ▸ hnew.2)
    refine ⟨by rw [length_cons, hlen, length_cons], forall_mem_cons.mpr ⟨?_, hundos⟩⟩
    by_cases hcb : tx.isCoinBase = true
    · rw [hacc.coinbase hcb]
      simp
    · have hfund := hacc.funded (Bool.not_eq_true _ ▸ hcb)
      refine ⟨?_, fun coin hcoin => ⟨hfund.values coin hcoin, ?_⟩⟩
      · rw [hfund.spends.length]
        have hsize := hchk.1.size
        have hvin := length_le_serVector serTxIn (by simp [serTxIn, serUInt32]) tx.vin
        simp only [serTransaction, length_append, Bool.false_and, witnessScaleFactor,
          maxBlockWeight] at hsize
        simp only [maxSize]
        omega
      · obtain ⟨txin, -, hv⟩ := hfund.spends.mem hcoin
        exact maxScriptSize_of_spendable (hmined _ _ hv).script

end

/-- What connecting a block says about its undo data, on a map of which it
overwrites nothing. -/
theorem Accepted.undoKept
    {block : CBlock} (h : ctx.Accepted block t undos) (ht : t.Sane) (htidy : t.Tidy)
    (hmined : MinedBy ctx.pindex.nHeight t.coins)
    (hnew : PutsNewAll t.coins (Lithium.changes ctx.pindex.nHeight block.vtx)) :
    ∃ es, ctx.UndoKept t.coins block.vtx (none :: undos.map some) es := by
  obtain ⟨coinbase, rest, hvtx, hcb, hrest⟩ := h.coinbase
  have htxs := h.txs
  have hchk := h.checked
  rw [hvtx] at htxs hchk hnew ⊢
  rw [forall_mem_cons] at hchk
  cases htxs with
  | cons hacc hothers =>
    have hcs := htidy.applyTx_coins hchk.1 ctx.pindex.nHeight
    obtain ⟨es, hes⟩ := hothers.undoKept hht hchk.2 hrest (ht.applyTx hchk.1 _)
      (htidy.applyTx hchk.1 fun _ => hnew.1) (hcs ▸ hmined.apply hht coinbase)
      (hcs ▸ hnew.2)
    refine ⟨(coinbase.change ctx.pindex.nHeight, t.coins) :: es, ?_,
      ⟨⟨fun _ _ => rfl, hnew.1⟩, hcs ▸ hes.recorded⟩, .cons ⟨rfl, ?_⟩ hes.fits⟩
    · rw [map_cons, hes.changes]
      rfl
    · exact ⟨hchk.1, fun _ => hcb, nofun⟩

/-- The undo data can be read back from where it was written. -/
theorem Accepted.undoReadFromDisk {block : CBlock} (h : ctx.Accepted block t undos) (htidy : t.Tidy)
    (hmined : MinedBy ctx.pindex.nHeight t.coins)
    (hnew : PutsNewAll t.coins (Lithium.changes ctx.pindex.nHeight block.vtx)) (hashPrev : Uint256)
    (rest : Bytes) : undos.length + 1 = block.vtx.length ∧
      Lithium.undoReadFromDisk hashPrev (undoRecord hashPrev ⟨undos⟩ ++ rest) = some ⟨undos⟩ := by
  obtain ⟨hlen, hundos⟩ := h.txs.storable hht h.checked htidy hmined hnew
  rw [length_cons] at hlen
  rw [forall_mem_cons] at hundos
  refine ⟨hlen, undoReadFromDisk_undoRecord hashPrev (reads_blockUndo ?_ ?_ ?_) rest⟩
  · have hsize := h.length
    rw [checkBlockLength] at hsize
    split_ifs at hsize with hbounds
    simp only [Bool.or_eq_true, not_or] at hbounds
    have hcnt := of_decide_eq_false (Bool.not_eq_true _ ▸ hbounds.1.2)
    simp only [witnessScaleFactor, maxBlockWeight] at hcnt
    simp only [maxSize]
    omega
  · exact fun undo hundo => (hundos.2 undo hundo).1
  · exact fun undo hundo => (hundos.2 undo hundo).2

end
end ConnectContext

/-! ### Blocks on a cache -/

/-- A block that was connected, with the undo data that `ConnectBlock` handed
out. -/
structure ConnectedBlock where
  ctx : ConnectContext
  block : CBlock
  undo : CBlockUndo
  /-- what comes after its undo data in the file -/
  following : Bytes

namespace ConnectedBlock

def hashPrev (b : ConnectedBlock) : Uint256 :=
  (b.ctx.prev.head?.map CBlockIndex.phashBlock).getD .zero

/-- `DisconnectBlock`, with the undo data from the file to which it was written. -/
def disconnect (b : ConnectedBlock) : CoinsProgram Empty DisconnectResult :=
  disconnectBlock b.ctx.env b.ctx.pindex b.hashPrev b.block
    (undoReadFromDisk b.hashPrev (undoRecord b.hashPrev b.undo ++ b.following))

def changes (b : ConnectedBlock) : List (Change COutPoint Coin) :=
  Lithium.changes b.ctx.pindex.nHeight b.block.vtx

end ConnectedBlock

/-- Disconnects blocks, last first, as long as `DISCONNECT_OK` is returned. -/
def disconnectAll {σ : Type} (V : CCoinsView σ) : List ConnectedBlock → CCoinsViewCache σ →
    Option (CCoinsViewCache σ)
  | [], c => some c
  | b :: rest, c =>
    match disconnectAll V rest c with
    | none => none
    | some c =>
      match b.disconnect.runOn V c with
      | (.ok .ok, c) => some c
      | _ => none

section Caches
variable {σ : Type} {V : CCoinsView σ} {M : CoinsModel V} {below : List UtxoMap}
  {c c' : CCoinsViewCache σ}

/-- The blocks are accepted one after the other, at the heights after the given
one, and none of them overwrites an unspent coin. -/
inductive ConnectsAll (M : CoinsModel V) : Int → CCoinsViewCache σ → List ConnectedBlock →
    CCoinsViewCache σ → Prop
  | nil (nHeight : Int) (c : CCoinsViewCache σ) : ConnectsAll M nHeight c [] c
  | cons {nHeight : Int} {c c' c'' : CCoinsViewCache σ} {b : ConnectedBlock}
      {rest : List ConnectedBlock} (height : b.ctx.pindex.nHeight = nHeight + 1)
      (bound : b.ctx.pindex.nHeight < 2 ^ 31)
      (accepted : (b.ctx.connectBlock b.block).runOn V c = (.ok (some b.undo), c'))
      (new : PutsNewAll (c.coins M) b.changes) (others : ConnectsAll M (nHeight + 1) c' rest c'') :
      ConnectsAll M nHeight c (b :: rest) c''

theorem CCoinsViewCache.Holds.sane (hc : c.Holds M below t) : t.Sane := by
  refine ⟨fun o coin h => hc.unspent h, fun o coin h => ?_⟩
  rw [← hc.hidden, CCoinsViewCache.hidden] at h
  split at h
  · split_ifs at h
    exact M.unspent hc.loose.base h
  · cases h

/-- What a block does to a cache when `ConnectBlock` returns true. The genesis block
does nothing to the coins. -/
theorem connectBlock_cases {ctx : ConnectContext} {block : CBlock} {u : Option CBlockUndo}
    (hc : c.Holds M below t) (hrun : (ctx.connectBlock block).runOn V c = (.ok u, c')) :
    (block.getHash = ctx.env.hashGenesisBlock ∧ u = none ∧ c'.Holds M below (ctx.finish t)) ∨
      ∃ undos, block.getHash ≠ ctx.env.hashGenesisBlock ∧ ctx.Accepted block t undos ∧
        u = (if ctx.fJustCheck then none else some ⟨undos⟩) ∧
        c'.Holds M below (ctx.finish (t.applyTxs ctx.pindex.nHeight block.vtx)) := by
  have hwp : (ctx.connectBlock block).wp coinsSpec (fun r t' => ∀ u, r = .ok u →
      (block.getHash = ctx.env.hashGenesisBlock ∧ u = none ∧ t' = ctx.finish t) ∨
        ∃ undos, block.getHash ≠ ctx.env.hashGenesisBlock ∧ ctx.Accepted block t undos ∧
          u = (if ctx.fJustCheck then none else some ⟨undos⟩) ∧
          t' = ctx.finish (t.applyTxs ctx.pindex.nHeight block.vtx)) t := by
    refine ConnectContext.wp_connectBlock hc.sane (fun hgen u hu => ?_)
      (fun undos hgen hacc u hu => ?_) (fun _ _ u hu => ?_) fun _ _ _ u hu => ?_
    · cases hu
      exact Or.inl ⟨hgen, rfl, rfl⟩
    · cases hu
      exact Or.inr ⟨undos, hgen, hacc, rfl, rfl⟩
    · cases hu
    · cases hu
  obtain ⟨t', hhold, hpost⟩ := hc.runOn hwp
  rw [hrun] at hhold hpost
  have hhold := hhold fun x h => nomatch h
  rcases hpost u rfl with ⟨hgen, hu, rfl⟩ | ⟨undos, hgen, hacc, hu, rfl⟩
  · exact Or.inl ⟨hgen, hu, hhold⟩
  · exact Or.inr ⟨undos, hgen, hacc, hu, hhold⟩

/-- What an accepted block does to a cache. -/
theorem connectBlock_holds {ctx : ConnectContext} {block : CBlock} {undo : CBlockUndo}
    (hc : c.Holds M below t) (hrun : (ctx.connectBlock block).runOn V c = (.ok (some undo), c')) :
    ctx.Accepted block t undo.vtxundo ∧
      c'.Holds M below
        ((t.applyTxs ctx.pindex.nHeight block.vtx).setBest ctx.pindex.phashBlock) := by
  rcases connectBlock_cases hc hrun with ⟨-, hu, -⟩ | ⟨undos, -, hacc, hu, hhold⟩
  · cases hu
  · rw [ConnectContext.finish] at hhold
    split_ifs at hu hhold
    cases hu
    exact ⟨hacc, hhold⟩

theorem UtxoState.At.applyTxs (ht : t.At v best base) (hchk : ∀ tx ∈ vtx, tx.Checked)
    (hnew : PutsNewAll v (Lithium.changes nHeight vtx)) :
    (t.applyTxs nHeight vtx).At (applyAll (Lithium.changes nHeight vtx) v) best base := by
  obtain ⟨htidy, hcs⟩ := ht.tidy.applyTxs hchk (by rwa [ht.coins])
  obtain ⟨hbest, hbase⟩ := t.applyTxs_best nHeight vtx
  exact ⟨by rw [hcs, ht.coins], htidy, hbest.trans ht.best, hbase.trans ht.base⟩

/-- A block that was connected can be disconnected, on any cache with the map that
it left. -/
theorem ConnectedBlock.disconnect_holds {b : ConnectedBlock} {c₀ : CCoinsViewCache σ}
    {t₀ : UtxoState} (hht : 0 < b.ctx.pindex.nHeight ∧ b.ctx.pindex.nHeight < 2 ^ 31)
    (hc₀ : c₀.Holds M below t₀) (ht₀ : t₀.At v best base)
    (hacc : b.ctx.Accepted b.block t₀ b.undo.vtxundo)
    (hmined : MinedBy b.ctx.pindex.nHeight v) (hnew : PutsNewAll v b.changes) {last : Uint256}
    (hc : c.Holds M below t) (ht : t.At (applyAll b.changes v) last base) :
    ∃ c' t', b.disconnect.runOn V c = (.ok .ok, c') ∧ c'.Holds M below t' ∧ t'.At v best base := by
  have hcs := ht₀.coins
  rw [← hcs] at hmined hnew
  obtain ⟨es, hes⟩ := hacc.undoKept hht hc₀.sane ht₀.tidy hmined hnew
  obtain ⟨hlen, hread⟩ :=
    hacc.undoReadFromDisk hht ht₀.tidy hmined hnew b.hashPrev b.following
  have hprev : b.hashPrev = t₀.bestBlock := by
    obtain ⟨pprev, rest, hprev, hhash⟩ := hacc.prev
    rw [hashPrev, hprev, ← hhash]
    rfl
  have hbest : (if b.hashPrev.isNull then base else b.hashPrev) = best := by
    split_ifs with hnull
    · rw [hprev] at hnull
      rw [← ht₀.base, hc₀.bestBlock_of_null hnull, ht₀.best]
    · rw [hprev, ht₀.best]
  have happly : applyAll b.changes v = applyAll (es.map Prod.fst) v := by
    rw [hes.changes]
    rfl
  have hrec : Recorded v es := hcs ▸ hes.recorded
  have hwp : b.disconnect.wp coinsSpec (fun r t' => r = .ok .ok ∧ t'.At v best base) t := by
    rw [disconnect, hread]
    refine wp_disconnectBlock
      ⟨hht.1.le, hht.2⟩ hlen hes.fits ht fun res t' _ ht' hok => ?_
    rw [hok v happly hrec]
    rw [happly, revertAll_applyAll hrec, hbest] at ht'
    exact ⟨rfl, ht'⟩
  obtain ⟨t', hhold, hres, ht'⟩ := hc.runOn hwp
  refine ⟨_, t', Prod.ext hres rfl, hhold fun x h => ?_, ht'⟩
  rw [hres] at h
  cases h

theorem ConnectsAll.disconnectAll_holds {bs : List ConnectedBlock}
    (hrun : ConnectsAll M nHeight c bs c') (hpos : 0 ≤ nHeight) (hmined : MinedBy nHeight v)
    (hc : c.Holds M below t) (ht : t.At v best base) :
    ∃ c'' t'', disconnectAll V bs c' = some c'' ∧ c''.Holds M below t'' ∧ t''.At v best base := by
  induction hrun generalizing t v best base with
  | nil nHeight c => exact ⟨c, t, rfl, hc, ht⟩
  | @cons nHeight c c₁ c' b rest hht hbound hconnect hnew _ ih =>
    obtain ⟨hacc, hc₁⟩ := connectBlock_holds hc hconnect
    have hb : 0 < b.ctx.pindex.nHeight ∧ b.ctx.pindex.nHeight < 2 ^ 31 := ⟨by omega, hbound⟩
    have hmined' : MinedBy b.ctx.pindex.nHeight v := fun o coin h =>
      (hmined o coin h).mono (by omega)
    rw [hc.coins, ht.coins] at hnew
    have hst := ht.applyTxs hacc.checked hnew
    obtain ⟨c₂, t₂, hrest, hc₂, ht₂⟩ := ih (by omega)
      (hht ▸ hmined'.applyAll hb b.block.vtx) hc₁
      ⟨hst.coins, hst.tidy, rfl, hst.base⟩
    obtain ⟨c₃, t₃, hdisc, hc₃, ht₃⟩ :=
      ConnectedBlock.disconnect_holds hb hc ht hacc hmined' hnew hc₂ ht₂
    refine ⟨c₃, t₃, ?_, hc₃, ht₃⟩
    rw [disconnectAll, hrest]
    dsimp only
    rw [hdisc]

/-- Disconnecting undoes connecting: blocks that are accepted one after the other
on a view, and that overwrite no unspent coin, can be disconnected in reverse
order with the undo data that was written for them, and then the view has the same
coins and the same best block as before. -/
theorem disconnectAll_restores {M : CoinsModel V} (hc : c.Inv M) {nHeight : Int}
    (hpos : 0 ≤ nHeight) (hmined : MinedBy nHeight (c.coins M)) {bs : List ConnectedBlock}
    (hrun : ConnectsAll M nHeight c bs c') :
    ∃ c'', disconnectAll V bs c' = some c'' ∧ c''.Inv M ∧ c''.coins M = c.coins M ∧
      (c''.state M).bestBlock = (c.state M).bestBlock := by
  obtain ⟨c'', t'', hall, hc'', ht''⟩ :=
    hrun.disconnectAll_holds hpos hmined hc.holds ⟨rfl, rfl, rfl, rfl⟩
  refine ⟨c'', hall, hc''.inv ht''.tidy, hc''.coins.trans ht''.coins, ?_⟩
  exact (congrArg ViewState.bestBlock hc''.state).trans ht''.best

end Caches

/-! ### A block with a chain of transactions

The second transaction spends a coin of the view, and the third one an output of
the second, which has another output that is never kept. -/

namespace SmallChain

def anyone : CScript := ⟨[0x51], CScript.opTrue_lt⟩

def noone : CScript := ⟨[0x6a], by decide⟩

/-- No signature is valid. -/
def noKeys : PubKeyOps :=
  ⟨fun _ _ _ => false, fun _ => false, fun _ _ _ => false, fun _ _ _ _ => false⟩

def spending (prevout : COutPoint) (vout : List CTxOut) (h : vout.length < 2 ^ 64) :
    CTransaction where
  nVersion := 1
  vin := [⟨prevout, .empty, sequenceFinal, .empty⟩]
  vout := vout
  nLockTime := 0
  vin_lt := by simp
  vout_lt := h

def coinbase : CTransaction :=
  .ofInput ⟨.null, ⟨[0x01, 0x02], by decide⟩, sequenceFinal, .empty⟩ (some ⟨48000000, anyone⟩)

def firstOutpoint : COutPoint := ⟨uint256S 7, 0⟩

def firstCoin : Coin := ⟨⟨1000000000, anyone⟩, false, 1⟩

def first : CTransaction := spending firstOutpoint [⟨600000000, anyone⟩, ⟨0, noone⟩] (by decide)

def second : CTransaction := spending ⟨first.getHash, 0⟩ [⟨500000000, anyone⟩] (by decide)

def block : CBlock where
  nVersion := 1
  hashPrevBlock := uint256S 1
  hashMerkleRoot := uint256S 0x2984bc61bb0b61834db967c56b087fdf6dd51e39c621df3ffb85ec8066127679
  nTime := 1411788833
  nBits := 0x207fffff
  nNonce := 1
  auxpow := none
  vtx := [coinbase, first, second]

/-- The predecessor, at height 1. -/
def pprev : CBlockIndex :=
  { CBlockIndex.ofHeader (uint256S 1) block.toCBlockHeader with nHeight := 1 }

def ctx : ConnectContext where
  env := regtestEnv
  keys := noKeys
  fJustCheck := false
  fScriptChecks := true
  parallelScriptChecks := false
  pindex := { CBlockIndex.ofHeader block.getHash block.toCBlockHeader with nHeight := 2 }
  prev := [pprev]

def emptyDb : CCoinsViewDB := ⟨16777216, .empty, none, none⟩

/-- A view at the predecessor, with one coin. -/
def view : CCoinsViewCache CCoinsViewDB :=
  (((new emptyDb).addCoin firstOutpoint firstCoin false).2).setBestBlock (uint256S 1)

theorem view_shows : view.Shows model
    ⟨firstCoin.addTo firstOutpoint fun _ => none, uint256S 1, [fun _ => none]⟩ := by
  have hemp : (new emptyDb).Shows model ⟨fun _ => none, .zero, [fun _ => none]⟩ := by
    refine ⟨inv_of_empty (fun o coin h => ?_) _, ?_⟩
    · cases h
    · rfl
  have hunsp : firstCoin.isSpent = false := by decide
  have hnew : false = false → (fun _ => none : UtxoMap) firstOutpoint = none := fun _ => rfl
  obtain ⟨c, hadd, hshows⟩ := hemp.addCoin hunsp hnew
  rw [view, hadd]
  exact hshows.setBestBlock (by decide)

theorem view_coins : view.coins model = update (fun _ => none) firstOutpoint (some firstCoin) := by
  have hsp : ¬ firstCoin.out.scriptPubKey.isUnspendable = true := by decide
  rw [view_shows.coins, Coin.addTo, if_neg hsp]

def connected : ConnectedBlock := ⟨ctx, block, ⟨[⟨[firstCoin]⟩,
  ⟨[⟨⟨600000000, anyone⟩, false, 2⟩]⟩]⟩, []⟩

theorem connectBlock_ok : (ctx.connectBlock block).runOn CCoinsViewDB.view view =
    (.ok (some connected.undo), ((ctx.connectBlock block).runOn CCoinsViewDB.view view).2) :=
  Prod.ext (by decide +kernel) rfl

/-- BIP30 is enforced on this network. -/
theorem putsNewAll : PutsNewAll (view.coins CCoinsViewDB.model) connected.changes := by
  have hhold := view_shows.inv.holds
  have hacc := (connectBlock_holds hhold connectBlock_ok).1
  exact hacc.putsNewAll rfl (hacc.bip30 (by decide +kernel))

theorem minedBy : MinedBy 1 (view.coins model) := by
  intro o coin h
  rw [view_coins, update_apply] at h
  split_ifs at h
  cases h
  exact ⟨by decide, by decide, by decide⟩

end SmallChain

open SmallChain in
theorem disconnectAll_restores_smallChain : ∃ c, disconnectAll view [connected]
        ((ctx.connectBlock block).runOn view view).2 = some c ∧
      c.Inv model ∧ c.coins model = view.coins model ∧
      (c.state model).bestBlock = (view.state model).bestBlock :=
  disconnectAll_restores view_shows.inv (by decide : (0 : Int) ≤ 1) minedBy
    (.cons rfl (by decide) connectBlock_ok putsNewAll (.nil _ _))

end Lithium
