import Lithium.Lib.Ledger
import Lithium.Validation.Connected

/-!
# Blocks as changes of a ledger

A transaction takes the coins of its inputs and puts its outputs. As long as no
coin is hidden, executing transactions on a cache is applying these changes to
the map of unspent coins.
-/

namespace Lithium
open Lib List Function Option UtxoState UInt32 CTxOut
variable {txid : Uint256} {nHeight : Int} {fCoinbase : Bool} {i : Nat} {vout : List CTxOut}
  {tx : CTransaction} {o : COutPoint} {t : UtxoState} {vtx : List CTransaction}
variable {undos : List CTxUndo} {v : UtxoMap}

/-! ### Transactions -/

/-- The coin of an output, if it is kept. -/
def CTxOut.toCoin (out : CTxOut) (nHeight : Int) (fCoinbase : Bool) : Option Coin :=
  if out.scriptPubKey.isUnspendable then none else some (Coin.ofOutput out nHeight fCoinbase)

/-- The coins of outputs that are numbered from `i` on. -/
def coinsFrom (txid : Uint256) (nHeight : Int) (fCoinbase : Bool) (vout : List CTxOut) (i : Nat) :
    UtxoMap := fun o =>
  if o.hash = txid ∧ i ≤ o.n.toNat then
    (vout[o.n.toNat - i]?).bind fun out => out.toCoin nHeight fCoinbase
  else none

theorem coinsFrom_cons {out : CTxOut} {rest : List CTxOut} (hi : i < 2 ^ 32) (o : COutPoint) :
    coinsFrom txid nHeight fCoinbase (out :: rest) i o =
      if o = ⟨txid, ofNat i⟩ then out.toCoin nHeight fCoinbase
      else coinsFrom txid nHeight fCoinbase rest (i + 1) o := by
  split_ifs with ho
  · have hn : o.n.toNat = i := by rw [ho, toNat_ofNat', Nat.mod_eq_of_lt hi]
    have hhash : o.hash = txid := by rw [ho]
    rw [coinsFrom, if_pos ⟨hhash, hn.ge⟩, hn, Nat.sub_self]
    rfl
  · rw [coinsFrom, coinsFrom]
    by_cases hhash : o.hash = txid
    · have hn : o.n.toNat ≠ i := by
        intro hn
        apply ho
        rw [← hn, UInt32.ofNat_toNat, ← hhash]
      by_cases hle : i ≤ o.n.toNat
      · have hsub : o.n.toNat - i = o.n.toNat - (i + 1) + 1 := by omega
        rw [if_pos ⟨hhash, hle⟩, if_pos ⟨hhash, by omega⟩, hsub, getElem?_cons_succ]
      · rw [if_neg (by omega), if_neg (by omega)]
    · rw [if_neg fun h => hhash h.1, if_neg fun h => hhash h.1]

theorem coinsFrom_next (hi : i < 2 ^ 32) :
    coinsFrom txid nHeight fCoinbase vout (i + 1) ⟨txid, ofNat i⟩ = none := by
  refine if_neg ?_
  rw [toNat_ofNat', Nat.mod_eq_of_lt hi]
  omega

namespace CTransaction

def created (nHeight : Int) (tx : CTransaction) : UtxoMap :=
  coinsFrom tx.getHash nHeight tx.isCoinBase tx.vout 0

def prevouts (tx : CTransaction) : List COutPoint :=
  if tx.isCoinBase then [] else tx.vin.map CTxIn.prevout

def change (nHeight : Int) (tx : CTransaction) : Change COutPoint Coin :=
  ⟨tx.prevouts, tx.created nHeight⟩

end CTransaction

theorem created_outPoint {k : Nat} {out : CTxOut} (hk : k < 2 ^ 32)
    (hout : tx.vout[k]? = some out) :
    tx.created nHeight ⟨tx.getHash, ofNat k⟩ = out.toCoin nHeight tx.isCoinBase := by
  rw [CTransaction.created, coinsFrom, if_pos ⟨rfl, Nat.zero_le _⟩]
  simp only [toNat_ofNat', Nat.sub_zero]
  rw [Nat.mod_eq_of_lt hk, hout, bind_some]

/-- Where a transaction creates coins. -/
theorem created_isSome_iff (hchk : tx.Checked) :
    (tx.created nHeight o).isSome ↔ ∃ k out, tx.vout[k]? = some out ∧
      out.scriptPubKey.isUnspendable = false ∧ o = ⟨tx.getHash, ofNat k⟩ := by
  constructor
  · intro h
    rw [CTransaction.created, coinsFrom] at h
    split_ifs at h with hhash
    · rw [Nat.sub_zero] at h
      obtain ⟨hhash, -⟩ := hhash
      cases hout : tx.vout[o.n.toNat]? with
      | none => simp [hout] at h
      | some out =>
        rw [hout, bind_some, toCoin] at h
        split_ifs at h with hscr
        · cases h
        · refine ⟨o.n.toNat, out, hout, Bool.not_eq_true _ ▸ hscr, ?_⟩
          rw [UInt32.ofNat_toNat, ← hhash]
    · cases h
  · rintro ⟨k, out, hout, hscr, rfl⟩
    have hk := (List.getElem?_eq_some_iff.mp hout).1
    have hlen := hchk.vout_length
    rw [created_outPoint (by omega) hout, toCoin, hscr]
    rfl

namespace UtxoState

/-- No coin is hidden. -/
def Tidy (t : UtxoState) : Prop := t.hidden = fun _ => none

variable {t : UtxoState}

theorem Tidy.spend (h : t.Tidy) (o : COutPoint) :
    (t.spend o).Tidy ∧ (t.spend o).coins = update t.coins o none := by
  have hnone : t.hidden o = none := congrFun h o
  refine ⟨?_, ?_⟩
  · have hsame := update_eq_self o t.hidden
    rw [hnone] at hsame
    exact hsame.trans h
  · rw [UtxoState.spend, hnone]

theorem Tidy.spendAll {vin : List CTxIn} (h : t.Tidy) :
    (t.spendAll vin).Tidy ∧ (t.spendAll vin).coins =
      fun o => if o ∈ vin.map CTxIn.prevout then none else t.coins o := by
  induction vin generalizing t with
  | nil => exact ⟨h, by simp [spendAll]⟩
  | cons txin rest ih =>
    obtain ⟨htidy, hcs⟩ := h.spend txin.prevout
    obtain ⟨htidy', hcs'⟩ := ih htidy
    refine ⟨htidy', hcs'.trans ?_⟩
    funext o
    rw [hcs, map_cons]
    by_cases ho : o = txin.prevout
    · simp [ho]
    · simp [ho]

theorem Tidy.spendTx (h : t.Tidy) (tx : CTransaction) : (t.spendTx tx).Tidy ∧ (t.spendTx tx).coins =
      fun o => if o ∈ tx.prevouts then none else t.coins o := by
  rw [UtxoState.spendTx, CTransaction.prevouts]
  split_ifs
  · exact ⟨h, by simp⟩
  · exact h.spendAll

theorem add_coins (t : UtxoState) (o : COutPoint) (out : CTxOut) (nHeight : Int)
    (fCoinbase possibleOverwrite : Bool) :
    (t.add o (Coin.ofOutput out nHeight fCoinbase) possibleOverwrite).coins =
      fun x => if x = o then (out.toCoin nHeight fCoinbase).or (t.coins x) else t.coins x := by
  funext x
  rw [add, toCoin]
  change (if out.scriptPubKey.isUnspendable then t else _).coins x = _
  by_cases hscr : out.scriptPubKey.isUnspendable = true
  · rw [if_pos hscr, if_pos hscr, none_or, ite_self]
  · rw [if_neg hscr, if_neg hscr, some_or]
    exact update_apply _ _ _ _

theorem addAll_coins (hlen : i + vout.length ≤ 2 ^ 32) :
    (addAll txid nHeight fCoinbase vout i t).coins =
      fun o => (coinsFrom txid nHeight fCoinbase vout i o).or (t.coins o) := by
  induction vout generalizing i t with
  | nil =>
    simp [addAll, coinsFrom]
  | cons out rest ih =>
    rw [length_cons] at hlen
    rw [addAll, ih (by omega)]
    funext o
    rw [add_coins, coinsFrom_cons (by omega)]
    dsimp only
    split_ifs with ho
    · rw [ho, coinsFrom_next (by omega), none_or]
    · rfl

/-- Nothing is hidden by coins that are new or expected to overwrite others. -/
theorem Tidy.addAll (h : t.Tidy) {txid : Uint256} {nHeight : Int} {fCoinbase : Bool}
    {vout : List CTxOut} {i : Nat} (hlen : i + vout.length ≤ 2 ^ 32)
    (hnew : fCoinbase = false → ∀ o, (coinsFrom txid nHeight fCoinbase vout i o).isSome →
      t.coins o = none) : (addAll txid nHeight fCoinbase vout i t).Tidy := by
  induction vout generalizing i t with
  | nil => exact h
  | cons out rest ih =>
    rw [length_cons] at hlen
    have hi : i < 2 ^ 32 := by omega
    refine ih ?_ (by omega) fun hcb o ho => ?_
    · rw [add]
      split_ifs with hscr hcb
      · exact h
      · exact h
      · have hnone : t.coins ⟨txid, ofNat i⟩ = none := by
          refine hnew (Bool.not_eq_true _ ▸ hcb) _ ?_
          have hscr : ¬ out.scriptPubKey.isUnspendable = true := hscr
          rw [coinsFrom_cons hi, if_pos rfl, toCoin, if_neg hscr]
          rfl
        have hsame := update_eq_self (⟨txid, ofNat i⟩ : COutPoint) t.hidden
        rw [show t.hidden ⟨txid, ofNat i⟩ = none from congrFun h _, ← hnone] at hsame
        exact hsame.trans h
    · have hne : o ≠ ⟨txid, ofNat i⟩ := by
        rintro rfl
        rw [coinsFrom_next hi] at ho
        cases ho
      rw [add_coins]
      dsimp only
      rw [if_neg hne]
      refine hnew hcb o ?_
      rwa [coinsFrom_cons hi, if_neg hne]

/-- Executing a transaction is applying its change. -/
theorem Tidy.applyTx_coins (h : t.Tidy) (hchk : tx.Checked) (nHeight : Int) :
    (t.applyTx nHeight tx).coins = (tx.change nHeight).apply t.coins := by
  have hlen := hchk.vout_length
  rw [applyTx, addAll_coins (by omega), (h.spendTx tx).2]
  rfl

theorem Tidy.applyTx (h : t.Tidy) (hchk : tx.Checked)
    (hnew : tx.isCoinBase = false → (tx.change nHeight).PutsNew t.coins) :
    (t.applyTx nHeight tx).Tidy := by
  have hlen := hchk.vout_length
  obtain ⟨htidy, hcs⟩ := h.spendTx tx
  refine htidy.addAll (by omega) fun hcb o ho => ?_
  rw [hcs]
  dsimp only
  split_ifs with hmem
  · rfl
  · exact (hnew hcb o ho).resolve_left hmem

end UtxoState

abbrev changes (nHeight : Int) (vtx : List CTransaction) : List (Change COutPoint Coin) :=
  vtx.map (CTransaction.change nHeight)

theorem UtxoState.Tidy.applyTxs (h : t.Tidy) (hchk : ∀ tx ∈ vtx, tx.Checked)
    (hnew : PutsNewAll t.coins (changes nHeight vtx)) : (t.applyTxs nHeight vtx).Tidy ∧
      (t.applyTxs nHeight vtx).coins = applyAll (changes nHeight vtx) t.coins := by
  induction vtx generalizing t with
  | nil => exact ⟨h, rfl⟩
  | cons tx rest ih =>
    rw [forall_mem_cons] at hchk
    have hcs := h.applyTx_coins hchk.1 nHeight
    have hnext := ih (h.applyTx hchk.1 fun _ => hnew.1) hchk.2 (hcs ▸ hnew.2)
    rw [hcs] at hnext
    exact hnext

theorem UtxoState.applyTxs_best (t : UtxoState) (nHeight : Int) (vtx : List CTransaction) :
    (t.applyTxs nHeight vtx).bestBlock = t.bestBlock ∧
      (t.applyTxs nHeight vtx).baseBest = t.baseBest := by
  have hspend : ∀ (vin : List CTxIn) (t : UtxoState), (t.spendAll vin).bestBlock = t.bestBlock ∧
      (t.spendAll vin).baseBest = t.baseBest := by
    intro vin
    induction vin with
    | nil => exact fun t => ⟨rfl, rfl⟩
    | cons txin rest ih => exact fun t => ih _
  have hadd : ∀ (txid : Uint256) (cb : Bool) (vout : List CTxOut) (i : Nat) (t : UtxoState),
      (addAll txid nHeight cb vout i t).bestBlock = t.bestBlock ∧
        (addAll txid nHeight cb vout i t).baseBest = t.baseBest := by
    intro txid cb vout
    induction vout with
    | nil => exact fun i t => ⟨rfl, rfl⟩
    | cons out rest ih =>
      intro i t
      obtain ⟨hbest, hbase⟩ := ih (i + 1) (t.add ⟨txid, ofNat i⟩ (Coin.ofOutput out nHeight cb) cb)
      rw [addAll, hbest, hbase, add]
      split_ifs <;> exact ⟨rfl, rfl⟩
  have htx : ∀ (tx : CTransaction) (t : UtxoState), (t.applyTx nHeight tx).bestBlock = t.bestBlock ∧
      (t.applyTx nHeight tx).baseBest = t.baseBest := by
    intro tx t
    obtain ⟨hbest, hbase⟩ := hadd tx.getHash tx.isCoinBase tx.vout 0 (t.spendTx tx)
    rw [applyTx, hbest, hbase, spendTx]
    split_ifs
    · exact ⟨rfl, rfl⟩
    · exact hspend _ t
  induction vtx generalizing t with
  | nil => exact ⟨rfl, rfl⟩
  | cons tx rest ih =>
    obtain ⟨hbest, hbase⟩ := ih (t.applyTx nHeight tx)
    exact ⟨hbest.trans (htx tx t).1, hbase.trans (htx tx t).2⟩

/-! ### BIP30 -/

namespace UtxoState

theorem mem_spendTx_cached : o ∈ (t.spendTx tx).cached ↔ o ∈ t.cached ∧ o ∉ tx.prevouts := by
  have hall : ∀ (vin : List CTxIn) (t : UtxoState),
      o ∈ (t.spendAll vin).cached ↔ o ∈ t.cached ∧ o ∉ vin.map CTxIn.prevout := by
    intro vin
    induction vin with
    | nil => simp [spendAll]
    | cons txin rest ih =>
      intro t
      refine (ih (t.spend txin.prevout)).trans ?_
      simp [UtxoState.spend, and_assoc]
  rw [UtxoState.spendTx, CTransaction.prevouts]
  split_ifs
  · simp
  · exact hall tx.vin t

theorem mem_addAll_cached (hlen : i + vout.length ≤ 2 ^ 32)
    (h : (coinsFrom txid nHeight fCoinbase vout i o).isSome ∨ o ∈ t.cached) :
    o ∈ (addAll txid nHeight fCoinbase vout i t).cached := by
  induction vout generalizing i t with
  | nil => exact h.resolve_left (by simp [coinsFrom])
  | cons out rest ih =>
    rw [length_cons] at hlen
    refine ih (by omega) ?_
    rw [coinsFrom_cons (by omega)] at h
    change _ ∨ o ∈ (if out.scriptPubKey.isUnspendable then t else _).cached
    by_cases hscr : out.scriptPubKey.isUnspendable = true
    · rw [if_pos hscr]
      split_ifs at h with ho
      · exact Or.inr (h.resolve_left (by simp [toCoin, hscr]))
      · exact h
    · rw [if_neg hscr]
      split_ifs at h with ho
      · exact Or.inr (Set.mem_insert_iff.mpr (Or.inl ho))
      · exact h.imp id (Set.mem_insert_of_mem _)

/-- A transaction leaves the coins of a cache in it, and its own. -/
theorem Tidy.mem_applyTx_cached (htidy : t.Tidy) (hchk : tx.Checked)
    (h : ((t.applyTx nHeight tx).coins o).isSome)
    (hcached : (t.coins o).isSome → o ∈ t.cached) : o ∈ (t.applyTx nHeight tx).cached := by
  have hlen := hchk.vout_length
  refine mem_addAll_cached (by omega) (or_iff_not_imp_left.mpr fun hcreated => ?_)
  have hput : (tx.change nHeight).put o = none := not_isSome_iff_eq_none.mp hcreated
  rw [htidy.applyTx_coins hchk, Change.apply, hput, none_or] at h
  split_ifs at h with hmem
  · cases h
  · exact mem_spendTx_cached.mpr ⟨hcached h, hmem⟩

end UtxoState

namespace ConnectContext
variable {ctx : ConnectContext} {t : UtxoState}

/-- Outputs of a block are noticed when they would overwrite each other. -/
theorem TxsAccepted.putsNewAll (h : ctx.TxsAccepted t vtx undos)
    (hchk : ∀ tx ∈ vtx, tx.Checked) (hcb : ∀ tx ∈ vtx, tx.isCoinBase = false) (htidy : t.Tidy)
    (hcached : ∀ o, (∃ tx ∈ vtx, (tx.created ctx.pindex.nHeight o).isSome) → (t.coins o).isSome →
      o ∈ t.cached) : PutsNewAll t.coins (changes ctx.pindex.nHeight vtx) := by
  induction h with
  | nil t => exact trivial
  | @cons t tx undo rest undos hacc _ ih =>
    rw [forall_mem_cons] at hchk hcb
    have hnew : (tx.change ctx.pindex.nHeight).PutsNew t.coins := by
      intro o ho
      rw [or_iff_not_imp_left]
      intro (hmem : o ∉ tx.prevouts)
      by_contra hsome
      obtain ⟨k, out, hout, hscr, rfl⟩ := (created_isSome_iff hchk.1).mp ho
      rcases hacc.unnoticed hcb.1 k out hout hscr with hnone | hnot
      · rw [(htidy.spendTx tx).2] at hnone
        dsimp only at hnone
        rw [if_neg hmem] at hnone
        exact hsome hnone
      · refine hnot (mem_spendTx_cached.mpr ⟨hcached _ ⟨tx, mem_cons_self, ho⟩ ?_, hmem⟩)
        exact isSome_iff_ne_none.mpr hsome
    have hcs := htidy.applyTx_coins hchk.1 ctx.pindex.nHeight
    refine ⟨hnew, hcs ▸ ih hchk.2 hcb.2 (htidy.applyTx hchk.1 fun _ => hnew) ?_⟩
    rintro o ⟨tx', htx', ho⟩ hsome
    exact htidy.mem_applyTx_cached hchk.1 hsome (hcached o ⟨tx', mem_cons_of_mem _ htx', ho⟩)

theorem BIP30Holds.created (h : BIP30Holds v vtx) (htx : tx ∈ vtx)
    (hchk : tx.Checked) (ho : (tx.created nHeight o).isSome) : v o = none := by
  obtain ⟨k, out, hout, -, rfl⟩ := (created_isSome_iff hchk).mp ho
  exact h tx htx k (List.getElem?_eq_some_iff.mp hout).1

/-- A block that passes the check of BIP30 overwrites no unspent coin, not even one
of its own. -/
theorem Accepted.putsNewAll {block : CBlock} (h : ctx.Accepted block t undos)
    (htidy : t.Tidy) (hbip30 : BIP30Holds t.coins block.vtx) :
    PutsNewAll t.coins (changes ctx.pindex.nHeight block.vtx) := by
  obtain ⟨coinbase, rest, hvtx, hcb, hrest⟩ := h.coinbase
  have htxs := h.txs
  have hchk := h.checked
  rw [hvtx] at htxs hchk hbip30 ⊢
  have hfst := hchk _ mem_cons_self
  have hnew : (coinbase.change ctx.pindex.nHeight).PutsNew t.coins := fun o ho =>
    Or.inr (hbip30.created mem_cons_self hfst ho)
  cases htxs with
  | cons hacc hothers =>
    have hcs := htidy.applyTx_coins hfst ctx.pindex.nHeight
    refine ⟨hnew, hcs ▸ hothers.putsNewAll
      (fun tx htx => hchk tx (mem_cons_of_mem _ htx)) hrest
      (htidy.applyTx hfst fun _ => hnew) ?_⟩
    rintro o ⟨tx, htx, ho⟩ hsome
    refine htidy.mem_applyTx_cached hfst hsome fun hold => ?_
    have htx := mem_cons_of_mem coinbase htx
    rw [hbip30.created htx (hchk tx htx) ho] at hold
    cases hold

end ConnectContext

/-! ### Coins of a chain -/

/-- The coin was made by a block after the genesis block and up to a height. -/
structure Coin.Mined (nHeight : Int) (coin : Coin) : Prop where
  positive : 0 < coin.nHeight.toNat
  height : (coin.nHeight.toNat : Int) ≤ nHeight
  script : coin.out.scriptPubKey.isUnspendable = false

/-- The coins of a chain that ends at a height. -/
def MinedBy (nHeight : Int) (v : UtxoMap) : Prop := ∀ o coin, v o = some coin → coin.Mined nHeight

theorem Coin.Mined.mono {m n : Int} {coin : Coin} (h : coin.Mined m) (hmn : m ≤ n) : coin.Mined n :=
  ⟨h.positive, h.height.trans hmn, h.script⟩

theorem toNat_ofInt_height (hht : 0 ≤ nHeight ∧ nHeight < 2 ^ 31) :
    ((BitVec.ofInt 31 nHeight).toNat : Int) = nHeight := by
  rw [BitVec.toNat_ofInt]
  omega

theorem mined_of_created (hht : 0 < nHeight ∧ nHeight < 2 ^ 31) {coin : Coin}
    (h : tx.created nHeight o = some coin) : coin.Mined nHeight := by
  rw [CTransaction.created, coinsFrom] at h
  split_ifs at h
  obtain ⟨out, -, hout⟩ := bind_eq_some_iff.mp h
  rw [toCoin] at hout
  split_ifs at hout with hscr
  cases hout
  have hn := toNat_ofInt_height ⟨hht.1.le, hht.2⟩
  refine ⟨?_, ?_, Bool.not_eq_true _ ▸ hscr⟩
  · change 0 < (BitVec.ofInt 31 nHeight).toNat
    omega
  · change ((BitVec.ofInt 31 nHeight).toNat : Int) ≤ nHeight
    omega

theorem MinedBy.apply (hht : 0 < nHeight ∧ nHeight < 2 ^ 31)
    (hv : MinedBy nHeight v) (tx : CTransaction) :
    MinedBy nHeight ((tx.change nHeight).apply v) := by
  intro o coin h
  rw [Change.apply, or_eq_some_iff] at h
  rcases h with h | ⟨-, h⟩
  · exact mined_of_created hht h
  · split_ifs at h
    exact hv o coin h

theorem MinedBy.applyAll {nHeight : Int} (hht : 0 < nHeight ∧ nHeight < 2 ^ 31)
    (hv : MinedBy nHeight v) (vtx : List CTransaction) :
    MinedBy nHeight (applyAll (changes nHeight vtx) v) := by
  induction vtx generalizing v with
  | nil => exact hv
  | cons tx rest ih => exact ih (hv.apply hht tx)

end Lithium
