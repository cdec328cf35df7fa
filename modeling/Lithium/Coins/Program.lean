import Lithium.Coins.Refinement
import Lithium.Lib.Program

/-!
# Programs on a coins cache

Connecting and disconnecting blocks work on a cache through six of its
operations. They are written as programs over these operations, so that what
they do can be told of the map that a cache stands for, whatever its entries and
its base are.
-/

namespace Lithium
open Lib Program

inductive CoinsOp where
  | haveCoin (outpoint : COutPoint)
  | accessCoin (outpoint : COutPoint)
  | spendCoin (outpoint : COutPoint)
  | addCoin (outpoint : COutPoint) (coin : Coin) (possibleOverwrite : Bool)
  | getBestBlock
  | setBestBlock (hashBlock : Uint256)

def CoinsOp.Res : CoinsOp → Type
  | .haveCoin _ => Bool
  | .accessCoin _ => Coin
  | .spendCoin _ => Option Coin
  | .addCoin _ _ _ => Unit
  | .getBestBlock => Uint256
  | .setBestBlock _ => Unit

/-- What ends a program without a result: an exception, or a failed assertion. -/
inductive Abnormal where
  | coins (e : CoinsError)
  | assertion (condition : String)
  | runtimeError (what : String)
deriving DecidableEq

/-- A program that works on a coins cache. -/
abbrev CoinsProgram (ε α : Type) := Program Abnormal CoinsOp.Res ε α

namespace CoinsProgram
variable {ε : Type}

def haveCoin (outpoint : COutPoint) : CoinsProgram ε Bool :=
  perform (CoinsOp.haveCoin outpoint)
def accessCoin (outpoint : COutPoint) : CoinsProgram ε Coin :=
  perform (CoinsOp.accessCoin outpoint)
def spendCoin (outpoint : COutPoint) : CoinsProgram ε (Option Coin) :=
  perform (CoinsOp.spendCoin outpoint)
def addCoin (outpoint : COutPoint) (coin : Coin) (possibleOverwrite : Bool) : CoinsProgram ε Unit :=
  perform (CoinsOp.addCoin outpoint coin possibleOverwrite)
def getBestBlock : CoinsProgram ε Uint256 := perform CoinsOp.getBestBlock
def setBestBlock (hashBlock : Uint256) : CoinsProgram ε Unit :=
  perform (CoinsOp.setBestBlock hashBlock)

end CoinsProgram

open CoinsOp

def CoinsOp.handle {σ : Type} (V : CCoinsView σ) :
    Program.Handler Abnormal CoinsOp.Res (CCoinsViewCache σ)
  | .haveCoin outpoint, c =>
    match c.haveCoin V outpoint with
    | (r, c) => (.ok r, c)
  | .accessCoin outpoint, c =>
    match c.accessCoin V outpoint with
    | (r, c) => (.ok r, c)
  | .spendCoin outpoint, c =>
    match c.spendCoin V outpoint with
    | (r, c) => (.ok r, c)
  | .addCoin outpoint coin possibleOverwrite, c =>
    match c.addCoin outpoint coin possibleOverwrite with
    | (.ok (), c) => (.ok (), c)
    | (.error e, c) => (.error (.coins e), c)
  | .getBestBlock, c =>
    match c.getBestBlock V with
    | (r, c) => (.ok r, c)
  | .setBestBlock hashBlock, c => (.ok (), c.setBestBlock hashBlock)

def CoinsProgram.runOn {σ ε α : Type} (V : CCoinsView σ) (p : CoinsProgram ε α)
    (c : CCoinsViewCache σ) : Except (Failure Abnormal ε) α × CCoinsViewCache σ :=
  p.run (handle V) c

/-! ### Specification -/

/-- The exception that `AddCoin` throws. -/
def overwriteError : CoinsError :=
  .logicError "Attempted to overwrite an unspent coin (when possible_overwrite is false)"

def CoinsOp.pre : CoinsOp → UtxoState → Prop
  | .addCoin _ coin _, _ => coin.isSpent = false
  | _, _ => True

def CoinsOp.post : (op : CoinsOp) → UtxoState → op.Res → UtxoState → Prop
  | .haveCoin outpoint, t, r, t' => r = (t.coins outpoint).isSome ∧ t' = t
  | .accessCoin outpoint, t, r, t' => r = (t.coins outpoint).getD .empty ∧ t' = t
  | .spendCoin outpoint, t, r, t' =>
    (Option.getD r .empty = (t.coins outpoint).getD .empty ∧ (r = none → t.coins outpoint = none)) ∧
      t' = t.spend outpoint
  | .addCoin outpoint coin possibleOverwrite, t, _, t' =>
    (coin.out.scriptPubKey.isUnspendable = false → possibleOverwrite = false →
      t.coins outpoint = none ∨ outpoint ∉ t.cached) ∧
      t' = t.add outpoint coin possibleOverwrite
  | .getBestBlock, t, r, t' => r = t.bestBlock ∧ t' = t
  | .setBestBlock hashBlock, t, _, t' => t' = t.setBest hashBlock

def CoinsOp.throws : CoinsOp → UtxoState → Abnormal → Prop
  | .addCoin outpoint coin possibleOverwrite, t, x =>
    x = .coins overwriteError ∧ coin.out.scriptPubKey.isUnspendable = false ∧
      possibleOverwrite = false ∧ (t.coins outpoint).isSome
  | _, _, _ => False

variable {possibleOverwrite : Bool} {coin : Coin} {o : COutPoint}

def coinsSpec : Program.Spec Abnormal CoinsOp.Res UtxoState :=
  ⟨pre, post, throws⟩

/-- What is required of the outcome of a program and the state it leaves. -/
abbrev UtxoPost (ε α : Type) := Except (Failure Abnormal ε) α → UtxoState → Prop

namespace CoinsProgram
variable {ε : Type} {t : UtxoState}
  {Q : UtxoPost ε (Option Coin)}

@[simp] theorem wp_haveCoin (o : COutPoint) {Q : UtxoPost ε Bool} :
    (haveCoin o).wp coinsSpec Q t ↔ Q (.ok (t.coins o).isSome) t := by
  refine ⟨fun h => h.2.2 _ t ⟨rfl, rfl⟩, fun h => ⟨trivial, fun _ hx => hx.elim, ?_⟩⟩
  rintro r t' ⟨rfl, rfl⟩
  exact h

@[simp] theorem wp_accessCoin (o : COutPoint) {Q : UtxoPost ε Coin} :
    (accessCoin o).wp coinsSpec Q t ↔ Q (.ok ((t.coins o).getD .empty)) t := by
  refine ⟨fun h => h.2.2 _ t ⟨rfl, rfl⟩, fun h => ⟨trivial, fun _ hx => hx.elim, ?_⟩⟩
  rintro r t' ⟨rfl, rfl⟩
  exact h

@[simp] theorem wp_getBestBlock {Q : UtxoPost ε Uint256} :
    (getBestBlock : CoinsProgram ε Uint256).wp coinsSpec Q t ↔ Q (.ok t.bestBlock) t := by
  refine ⟨fun h => h.2.2 _ t ⟨rfl, rfl⟩, fun h => ⟨trivial, fun _ hx => hx.elim, ?_⟩⟩
  rintro r t' ⟨rfl, rfl⟩
  exact h

@[simp] theorem wp_setBestBlock (hashBlock : Uint256) {Q : UtxoPost ε Unit} :
    (setBestBlock hashBlock).wp coinsSpec Q t ↔ Q (.ok ()) (t.setBest hashBlock) := by
  refine ⟨fun h => h.2.2 () _ rfl, fun h => ⟨trivial, fun _ hx => hx.elim, ?_⟩⟩
  rintro r t' rfl
  exact h

/-- Spending an outpoint, whether it has a coin or not. -/
theorem wp_spendCoin (h : ∀ r : Option Coin, r.getD .empty = (t.coins o).getD .empty →
      (r = none → t.coins o = none) → Q (.ok r) (t.spend o)) : (spendCoin o).wp coinsSpec Q t := by
  refine ⟨trivial, fun _ hx => hx.elim, ?_⟩
  rintro r t' ⟨⟨hr, hnone⟩, rfl⟩
  exact h r hr hnone

/-- Spending a coin of the map. -/
theorem wp_spendCoin_of_some (hcoin : t.coins o = some coin) (h : Q (.ok (some coin)) (t.spend o)) :
    (spendCoin o).wp coinsSpec Q t := by
  refine wp_spendCoin fun r hr hnone => ?_
  cases r with
  | none => cases hcoin.symm.trans (hnone rfl)
  | some coin' =>
    rw [hcoin] at hr
    cases hr
    exact h

theorem wp_addCoin {Q : UtxoPost ε Unit} (hunsp : coin.isSpent = false)
    (hthr : coin.out.scriptPubKey.isUnspendable = false → possibleOverwrite = false →
      (t.coins o).isSome → Q (.error (.thrown (.coins overwriteError))) t)
    (hok : (coin.out.scriptPubKey.isUnspendable = false → possibleOverwrite = false →
      t.coins o = none ∨ o ∉ t.cached) → Q (.ok ()) (t.add o coin possibleOverwrite)) :
    (addCoin o coin possibleOverwrite).wp coinsSpec Q t := by
  refine ⟨hunsp, ?_, ?_⟩
  · rintro x ⟨rfl, hscr, hpo, hsome⟩
    exact hthr hscr hpo hsome
  · rintro r t' ⟨hlegal, rfl⟩
    exact hok hlegal

end CoinsProgram

/-! ### Caches meet the specification -/

namespace CCoinsViewCache
variable {σ : Type} {V : CCoinsView σ} {M : CoinsModel V} {below : List UtxoMap}
  {c : CCoinsViewCache σ} {t : UtxoState}

/-- A coin in the cache is noticed. -/
theorem addCoin_throws (hunsp : coin.isSpent = false)
    (hscr : coin.out.scriptPubKey.isUnspendable = false) {it : CCoinsCacheEntry}
    (hlook : c.cacheCoins.lookup o = some it) (hlive : it.coin.isSpent = false) :
    (c.addCoin o coin false).1 = .error overwriteError := by
  rw [addCoin, hunsp, hscr, hlook]
  simp only [Bool.false_eq_true, if_false, storeCoin, hlive]
  rfl

theorem Holds.handle_addCoin (hc : c.Holds M below t) (hunsp : coin.isSpent = false) :
    Program.Allows coinsSpec (Holds M below) (.addCoin o coin possibleOverwrite) t
      (handle V (.addCoin o coin possibleOverwrite) c) := by
  rw [handle]
  by_cases hscr : coin.out.scriptPubKey.isUnspendable = true
  · have hadd : c.addCoin o coin possibleOverwrite = (.ok (), c) := by
      rw [CCoinsViewCache.addCoin, hunsp, hscr]
      rfl
    rw [hadd]
    refine ⟨_, ⟨fun h => absurd (hscr.symm.trans h) (by decide), rfl⟩, ?_⟩
    rw [UtxoState.add, if_pos hscr]
    exact hc
  · have hsp : coin.out.scriptPubKey.isUnspendable = false := Bool.not_eq_true _ ▸ hscr
    by_cases hover : possibleOverwrite = false →
        ∀ it, c.cacheCoins.lookup o = some it → it.coin.isSpent = true
    · obtain ⟨c', hadd, hc'⟩ := hc.addCoin hunsp hsp hover
      rw [hadd]
      refine ⟨_, ⟨fun _ hpo => ?_, rfl⟩, hc'⟩
      -- An unspent coin that is there is not in the cache, so it is not one of those that must be.
      by_contra hnone
      obtain ⟨hcoin, hmem⟩ := not_or.mp hnone
      obtain ⟨it, hit⟩ := Option.isSome_iff_exists.mp
        (hc.cached o (not_not.mp hmem) (Option.isSome_iff_ne_none.mpr hcoin))
      apply hcoin
      rw [← hc.coins, coins_of_lookup hit, Coin.live, hover hpo it hit, if_pos rfl]
    · rw [Classical.not_imp] at hover
      obtain ⟨rfl, hover⟩ := hover
      obtain ⟨it, hover⟩ := not_forall.mp hover
      obtain ⟨hit, hlive⟩ := Classical.not_imp.mp hover
      have hlive : it.coin.isSpent = false := Bool.not_eq_true _ ▸ hlive
      have herr := addCoin_throws (c := c) hunsp hsp hit hlive
      rcases hadd : c.addCoin o coin false with ⟨e | u, c'⟩
      · rw [hadd] at herr
        cases herr
        refine ⟨rfl, hsp, rfl, ?_⟩
        rw [← hc.coins, coins_of_lookup hit, Coin.live_of_unspent hlive]
        rfl
      · rw [hadd] at herr
        cases herr

/-- A cache over a view that behaves like a map does what the specification
says. -/
theorem implements_coinsSpec (M : CoinsModel V) (below : List UtxoMap) :
    Program.Implements (handle V) coinsSpec (Holds M below) := by
  intro op c t hc hpre
  cases op with
  | haveCoin o =>
    obtain ⟨c', hhave, hc'⟩ := hc.haveCoin o
    rw [handle, hhave]
    exact ⟨t, ⟨rfl, rfl⟩, hc'⟩
  | accessCoin o =>
    obtain ⟨c', haccess, hc'⟩ := hc.accessCoin o
    rw [handle, haccess]
    exact ⟨t, ⟨rfl, rfl⟩, hc'⟩
  | spendCoin o =>
    obtain ⟨r, c', hspend, hc', hr⟩ := hc.spendCoin o
    rw [handle, hspend]
    exact ⟨_, ⟨hr, rfl⟩, hc'⟩
  | addCoin o coin possibleOverwrite => exact hc.handle_addCoin hpre
  | getBestBlock =>
    obtain ⟨c', hget, hc'⟩ := hc.getBestBlock
    rw [handle, hget]
    exact ⟨t, ⟨rfl, rfl⟩, hc'⟩
  | setBestBlock hashBlock =>
    exact ⟨_, rfl, hc.setBestBlock hashBlock⟩

/-- What is proved of a program from the specification is true of its runs. -/
theorem Holds.runOn (hc : c.Holds M below t) {ε α : Type} {p : CoinsProgram ε α}
    {Q : UtxoPost ε α} (h : p.wp coinsSpec Q t) :
    ∃ t', ((∀ x, (p.runOn V c).1 ≠ .error (.thrown x)) → (p.runOn V c).2.Holds M below t') ∧
      Q (p.runOn V c).1 t' :=
  wp_sound (implements_coinsSpec M below) hc h

end CCoinsViewCache
end Lithium
