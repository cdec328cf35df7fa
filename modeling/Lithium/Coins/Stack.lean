import Lithium.Consensus.Params
import Lithium.Txdb

/-!
# Runs of a stack of caches

Calls arrive at any cache of a stack, as long as the caches above it are empty:
a child that has read something does not notice when its base changes. Every
such run is compared with one of plain maps, one map for each cache and one for
the base. The comparison is exact: the same answers, no exception, and flushing
from the top down leaves the map of the top in the base.
-/

namespace Lithium
open CCoinsViewCache CCoinsViewDB

inductive CoinsCall where
  | addCoin (outpoint : COutPoint) (coin : Coin) (possibleOverwrite : Bool)
  | spendCoin (outpoint : COutPoint)
  | getCoin (outpoint : COutPoint)
  | haveCoin (outpoint : COutPoint)
  | accessCoin (outpoint : COutPoint)
  | uncache (outpoint : COutPoint)
  | setBestBlock (hashBlock : Uint256)
  | flush
  | sync
  /-- destroy the cache and put a new one in its place -/
  | discard

inductive CoinsReply where
  | done
  | spent (moveout : Coin)
  | found (coin : Option Coin)
  | have (present : Bool)
  | accessed (coin : Coin)
  | wrote (fOk : Bool)

/-- A call to a cache. The variable that `SpendCoin` moves a coin to is empty
before. -/
def CoinsCall.perform {σ : Type} (V : CCoinsView σ) (call : CoinsCall) (c : CCoinsViewCache σ) :
    Except CoinsError CoinsReply × CCoinsViewCache σ :=
  match call with
  | .addCoin outpoint coin possibleOverwrite =>
    match c.addCoin outpoint coin possibleOverwrite with
    | (r, c) => (r.map fun _ => .done, c)
  | .spendCoin outpoint =>
    match c.spendCoin V outpoint with
    | (moveout, c) => (.ok (.spent (moveout.getD .empty)), c)
  | .getCoin outpoint =>
    match c.getCoin V outpoint with
    | (coin, c) => (.ok (.found coin), c)
  | .haveCoin outpoint =>
    match c.haveCoin V outpoint with
    | (present, c) => (.ok (.have present), c)
  | .accessCoin outpoint =>
    match c.accessCoin V outpoint with
    | (coin, c) => (.ok (.accessed coin), c)
  | .uncache outpoint => (.ok .done, c.uncache outpoint)
  | .setBestBlock hashBlock => (.ok .done, c.setBestBlock hashBlock)
  | .flush =>
    match c.flush V with
    | (r, c) => (r.map .wrote, c)
  | .sync =>
    match c.sync V with
    | (r, c) => (r.map .wrote, c)
  | .discard => (.ok .done, .new c.base)

/-- The same call on a map and the map below it. -/
def CoinsCall.onMaps (call : CoinsCall) (v parent : UtxoMap) : CoinsReply × UtxoMap × UtxoMap :=
  match call with
  | .addCoin outpoint coin _ => (.done, coin.addTo outpoint v, parent)
  | .spendCoin outpoint =>
    (.spent ((v outpoint).getD .empty), Function.update v outpoint none, parent)
  | .getCoin outpoint => (.found (v outpoint), v, parent)
  | .haveCoin outpoint => (.have (v outpoint).isSome, v, parent)
  | .accessCoin outpoint => (.accessed ((v outpoint).getD .empty), v, parent)
  | .uncache _ => (.done, v, parent)
  | .setBestBlock _ => (.done, v, parent)
  | .flush => (.wrote true, v, v)
  | .sync => (.wrote true, v, v)
  | .discard => (.done, parent, parent)

/-- The same call on the maps of a stack. A cache without entries shows what is
below it. -/
def CoinsCall.onStack (call : CoinsCall) : Nat → List UtxoMap → CoinsReply × List UtxoMap
  | 0, v :: parent :: rest =>
    match call.onMaps v parent with
    | (reply, v, parent) => (reply, v :: parent :: rest)
  | k + 1, _ :: rest =>
    match call.onStack k rest with
    | (reply, rest) => (reply, rest.headD (fun _ => none) :: rest)
  | _, maps => (.done, maps)

/-- What a caller has to observe: a coin that is added is not spent, it is only
said not to overwrite another if that is so, and a cache is only written to its
base with a best block that the base accepts. -/
def CoinsCall.Legal (call : CoinsCall) (v : UtxoMap) (accepted : Prop) : Prop :=
  match call with
  | .addCoin outpoint coin possibleOverwrite =>
    coin.isSpent = false ∧ (possibleOverwrite = false → v outpoint = none)
  | .flush => accepted
  | .sync => accepted
  | _ => True

/-- One call on one cache. The maps further down are not touched. -/
theorem CCoinsViewCache.Inv.perform {σ : Type} {V : CCoinsView σ} {M : CoinsModel V}
    {c : CCoinsViewCache σ} (hc : c.Inv M) {call : CoinsCall}
    (hlegal : call.Legal (c.coins M) (M.Accepts c.base c.hashBlock)) :
    ∃ t, call.perform V c = (.ok (call.onStack 0 (c.state M).maps).1, t) ∧ t.Inv M ∧
      (t.state M).maps = (call.onStack 0 (c.state M).maps).2 := by
  have hshows : c.Shows M (c.state M) := ⟨hc, rfl⟩
  cases call with
  | addCoin outpoint coin possibleOverwrite =>
    obtain ⟨t, hadd, ht⟩ := hshows.addCoin hlegal.1 hlegal.2
    refine ⟨t, ?_, ht.inv, by rw [ht.state]; rfl⟩
    rw [CoinsCall.perform, hadd]
    rfl
  | spendCoin outpoint =>
    obtain ⟨r, t, hspend, ht, hmoveout, -⟩ := hshows.spendCoin outpoint
    refine ⟨t, ?_, ht.inv, by rw [ht.state]; rfl⟩
    rw [CoinsCall.perform, hspend]
    dsimp only
    rw [hmoveout]
    rfl
  | getCoin outpoint =>
    obtain ⟨t, hget, ht⟩ := hshows.getCoin outpoint
    refine ⟨t, ?_, ht.inv, by rw [ht.state]; rfl⟩
    rw [CoinsCall.perform, hget]
    rfl
  | haveCoin outpoint =>
    obtain ⟨t, hhave, ht⟩ := hshows.haveCoin outpoint
    refine ⟨t, ?_, ht.inv, by rw [ht.state]; rfl⟩
    rw [CoinsCall.perform, hhave]
    rfl
  | accessCoin outpoint =>
    obtain ⟨t, haccess, ht⟩ := hshows.accessCoin outpoint
    refine ⟨t, ?_, ht.inv, by rw [ht.state]; rfl⟩
    rw [CoinsCall.perform, haccess]
    rfl
  | uncache outpoint =>
    have ht := hshows.uncache outpoint
    exact ⟨_, rfl, ht.inv, by rw [ht.state]; rfl⟩
  | setBestBlock hashBlock =>
    have ht := hshows.withHash hashBlock
    exact ⟨_, rfl, ht.inv, rfl⟩
  | flush =>
    obtain ⟨b, hflush, -, hb, hcs, hlow, -⟩ := hc.flush hlegal
    refine ⟨_, by rw [CoinsCall.perform, hflush]; rfl, inv_of_empty hb _, ?_⟩
    change M.coins b :: M.coins b :: (M.state b).below = _
    rw [hcs, hlow]
    rfl
  | sync =>
    obtain ⟨t, hsync, ht, hkept, hcs, hlow⟩ := hc.sync hlegal
    refine ⟨t, by rw [CoinsCall.perform, hsync]; rfl, ht, ?_⟩
    change t.coins M :: M.coins t.base :: (M.state t.base).below = _
    rw [hkept, hcs, hlow]
    rfl
  | discard => exact ⟨_, rfl, inv_of_empty hc.base _, rfl⟩

namespace CoinsStack
variable {σ : Type} (V : CCoinsView σ)

/-- A call to the cache with so many caches above it. -/
def perform (call : CoinsCall) :
    (n k : Nat) → CoinsStack σ n → Except CoinsError CoinsReply × CoinsStack σ n
  | 0, _, s => (.ok .done, s)
  | n + 1, 0, c => call.perform (view V n) c
  | n + 1, k + 1, c =>
    match perform call n k (base c) with
    | (reply, base) => (reply, { (c : CCoinsViewCache (CoinsStack σ n)) with base })

def ChildrenEmpty : (n k : Nat) → CoinsStack σ n → Prop
  | 0, _, _ => True
  | _ + 1, 0, _ => True
  | n + 1, k + 1, c =>
    cacheCoins c = ∅ ∧ ChildrenEmpty n k (base c)

variable {V} (M : CoinsModel V)

/-- The maps of the caches of a stack and of its base, from the top down. -/
def maps {n : Nat} (s : CoinsStack σ n) : List UtxoMap := ((M.stack n).state s).maps

/-- The view under a cache accepts its best block. -/
def AcceptedAt : (n k : Nat) → CoinsStack σ n → Prop
  | 0, _, _ => True
  | n + 1, 0, c => (M.stack n).Accepts (base c) (hashBlock c)
  | n + 1, k + 1, c => AcceptedAt n k (base c)

variable {M} {n : Nat}

/-- An empty cache shows its base. -/
theorem maps_of_empty {c : CCoinsViewCache (CoinsStack σ n)} (h : c.cacheCoins = ∅) :
    maps M (n := n + 1) c = (maps M c.base).headD (fun _ => none) :: maps M c.base := by
  change overlay c.cacheCoins _ :: _ = _
  rw [h]
  rfl

theorem perform_spec {call : CoinsCall} {k : Nat} {s : CoinsStack σ n} (hk : k < n)
    (hs : (M.stack n).Inv s) (hemp : ChildrenEmpty n k s)
    (hlegal : call.Legal ((maps M s).getD k fun _ => none) (AcceptedAt M n k s)) :
    ∃ t, perform V call n k s = (.ok (call.onStack k (maps M s)).1, t) ∧ (M.stack n).Inv t ∧
      maps M t = (call.onStack k (maps M s)).2 := by
  induction n generalizing k with
  | zero => exact absurd hk (Nat.not_lt_zero k)
  | succ n ih =>
    cases k with
    | zero => exact Inv.perform hs hlegal
    | succ k =>
      obtain ⟨hcache, hemp⟩ := hemp
      obtain ⟨b, hperf, hb, hmaps⟩ := ih (Nat.lt_of_succ_lt_succ hk) (Inv.base hs) hemp hlegal
      have husage := Inv.usage hs
      refine ⟨mk b (hashBlock s) (cacheCoins s) (cachedCoinsUsage s), ?_, ⟨hb, ?_, husage⟩, ?_⟩
      · rw [perform, hperf, maps_of_empty hcache]
        rfl
      · intro o it hlook
        rw [hcache, AList.lookup_empty] at hlook
        cases hlook
      · refine Eq.trans (maps_of_empty (by exact hcache)) ?_
        rw [maps_of_empty hcache, CoinsCall.onStack]
        rw [hmaps]

/-! ### Runs -/

variable (V)

/-- The calls of a run, with what they return. -/
def run (n : Nat) : List (Nat × CoinsCall) → CoinsStack σ n →
    List (Except CoinsError CoinsReply) × CoinsStack σ n
  | [], s => ([], s)
  | (k, call) :: calls, s =>
    match perform V call n k s with
    | (reply, s) =>
      match run n calls s with
      | (replies, s) => (reply :: replies, s)

/-- Flush every cache, from the top down. -/
def flushAll : (n : Nat) → CoinsStack σ n → Except CoinsError Bool × CoinsStack σ n
  | 0, s => (.ok true, s)
  | n + 1, c =>
    match flush (view V n) c with
    | (.ok true, c) =>
      match flushAll n c.base with
      | (reply, base) => (reply, { c with base })
    | (reply, c) => (reply, c)

def bottom : (n : Nat) → CoinsStack σ n → σ
  | 0, s => s
  | n + 1, c => bottom n (base c)

/-- The flags of every entry of every cache are as documented, and `SanityCheck`
passes. -/
def Disciplined : (n : Nat) → CoinsStack σ n → Prop
  | 0, _ => True
  | n + 1, c =>
    (∀ o it, (cacheCoins c).lookup o = some it →
      (it.fresh = true → ((view V n).getCoin o (base c)).1 = none) ∧
      (it.dirty = false → ((view V n).getCoin o (base c)).1 = some it.coin)) ∧
    sanityCheck c = .ok () ∧ Disciplined n (base c)

def runMaps : List (Nat × CoinsCall) → List UtxoMap → List CoinsReply × List UtxoMap
  | [], maps => ([], maps)
  | (k, call) :: calls, maps =>
    match call.onStack k maps with
    | (reply, maps) =>
      match runMaps calls maps with
      | (replies, maps) => (reply :: replies, maps)

variable {V}

/-- The base accepts the best block of the top, which is what it is given when
every cache is flushed. -/
def AcceptedAll (M : CoinsModel V) : (n : Nat) → CoinsStack σ n → Prop
  | 0, _ => True
  | n + 1, c => M.Accepts (bottom n (base c)) (hashBlock c)

/-- Every call of a run goes to a cache with empty caches above it and observes
what it has to. -/
def LegalRun (M : CoinsModel V) (n : Nat) : List (Nat × CoinsCall) → CoinsStack σ n →
    List UtxoMap → Prop
  | [], _, _ => True
  | (k, call) :: calls, s, maps =>
    k < n ∧ ChildrenEmpty n k s ∧ call.Legal (maps.getD k fun _ => none) (AcceptedAt M n k s) ∧
      LegalRun M n calls (perform V call n k s).2 (call.onStack k maps).2

theorem run_spec {calls : List (Nat × CoinsCall)} {s : CoinsStack σ n} (hs : (M.stack n).Inv s)
    (hlegal : LegalRun M n calls s (maps M s)) :
    ∃ t, run V n calls s = ((runMaps calls (maps M s)).1.map .ok, t) ∧ (M.stack n).Inv t ∧
      maps M t = (runMaps calls (maps M s)).2 := by
  induction calls generalizing s with
  | nil => exact ⟨s, rfl, hs, rfl⟩
  | cons entry calls ih =>
    obtain ⟨hk, hemp, hcall, hrest⟩ := hlegal
    obtain ⟨t, hperf, ht, hmaps⟩ := perform_spec hk hs hemp hcall
    rw [hperf, ← hmaps] at hrest
    obtain ⟨u, hrun, hu, humaps⟩ := ih ht hrest
    rw [hmaps] at hrun humaps
    refine ⟨u, ?_, hu, humaps⟩
    rw [run, hperf]
    dsimp only
    rw [hrun]
    rfl

theorem inv_new {base : σ} (hbase : M.Inv base) (n : Nat) : (M.stack n).Inv (new base n) := by
  induction n with
  | zero => exact hbase
  | succ n ih => exact inv_of_empty ih _

/-- In a new stack every cache shows the base. -/
theorem maps_new (base : σ) (n : Nat) :
    maps M (new base n) = List.replicate n (M.coins base) ++ (M.state base).maps := by
  induction n with
  | zero => rfl
  | succ n ih =>
    refine (maps_of_empty (c := CCoinsViewCache.new (new base n)) rfl).trans ?_
    change (maps M (new base n)).headD _ :: maps M (new base n) = _
    rw [ih]
    cases n <;> rfl

theorem disciplined_of_inv {s : CoinsStack σ n} (hs : (M.stack n).Inv s) : Disciplined V n s := by
  induction n with
  | zero => trivial
  | succ n ih =>
    have hbase := Inv.base hs
    refine ⟨fun o it hlook => ?_, Inv.sanityCheck hs, ih hbase⟩
    have hsound := Inv.sound hs o it hlook
    obtain ⟨t, hget, -, -⟩ := (M.stack n).getCoin o hbase
    rw [hget]
    exact ⟨hsound.fresh, hsound.clean⟩

theorem flushAll_spec {s : CoinsStack σ n} (hs : (M.stack n).Inv s)
    (hacc : AcceptedAll M n s) : ∃ t, flushAll V n s = (.ok true, t) ∧ M.Inv (bottom n t) ∧
      M.coins (bottom n t) = (M.stack n).coins s := by
  induction n with
  | zero => exact ⟨s, rfl, hs, rfl⟩
  | succ n ih =>
    have hlow : (M.stack n).Accepts (base s) (hashBlock s) := by
      cases n with
      | zero => exact hacc
      | succ n => trivial
    obtain ⟨b, hflush, hwr, hb, hcs, -, -⟩ := Inv.flush hs hlow
    have hrest : AcceptedAll M n b := by
      cases n with
      | zero => trivial
      | succ n =>
        obtain ⟨hbase, hhash⟩ := batchWrite_eq hwr
        rw [AcceptedAll, hbase, hhash]
        exact hacc
    obtain ⟨t, hall, ht, hbottom⟩ := ih hb hrest
    refine ⟨⟨t, hashBlock s, ∅, 0⟩, ?_, ht, hbottom.trans hcs⟩
    rw [flushAll, hflush]
    dsimp only
    rw [hall]

/-- A stack of caches answers every call of a run as maps do, throws nothing,
keeps its flags right, and leaves the map of its top in the base when it is
flushed. -/
theorem stack_refines_maps (M : CoinsModel V) {base : σ} (hbase : M.Inv base) (n : Nat)
    (calls : List (Nat × CoinsCall)) (hlegal : LegalRun M n calls (new base n)
      (List.replicate n (M.coins base) ++ (M.state base).maps)) : ∃ s, run V n calls (new base n) =
        ((runMaps calls (List.replicate n (M.coins base) ++ (M.state base).maps)).1.map .ok, s) ∧
      Disciplined V n s ∧
      (AcceptedAll M n s → ∃ t, flushAll V n s = (.ok true, t) ∧ ∀ o, (V.getCoin o (bottom n t)).1 =
            (runMaps calls (List.replicate n (M.coins base) ++ (M.state base).maps)).2.headD
              (fun _ => none) o) := by
  rw [← maps_new] at hlegal ⊢
  obtain ⟨s, hrun, hs, hsmaps⟩ := run_spec (inv_new hbase n) hlegal
  refine ⟨s, hrun, disciplined_of_inv hs, fun hacc => ?_⟩
  obtain ⟨t, hflush, ht, hbottom⟩ := flushAll_spec hs hacc
  refine ⟨t, hflush, fun o => ?_⟩
  obtain ⟨b, hget, -, -⟩ := M.getCoin o ht
  rw [hget, ← hsmaps]
  exact congrFun hbottom o

/-- A coin is added to the upper of two caches over an empty database, flushed
into the lower one, spent there and added again. -/
def reviveCalls : List (Nat × CoinsCall) :=
  [(0, .addCoin ⟨.zero, 0⟩ ⟨⟨5, .empty⟩, false, 1⟩ false), (0, .setBestBlock (uint256S 1)),
    (0, .flush), (1, .spendCoin ⟨.zero, 0⟩), (1, .addCoin ⟨.zero, 0⟩ ⟨⟨5, .empty⟩, false, 2⟩ false),
    (1, .sync), (0, .getCoin ⟨.zero, 0⟩)]

def emptyDb : CCoinsViewDB := ⟨16777216, .empty, none, none⟩

theorem stack_refines_maps_revived : LegalRun model 2 reviveCalls (new emptyDb 2)
        (List.replicate 2 (model.coins emptyDb) ++ (model.state emptyDb).maps) ∧
      ∃ s, run CCoinsViewDB.view 2 reviveCalls (new emptyDb 2) =
          ((runMaps reviveCalls (List.replicate 2 (model.coins emptyDb) ++
            (model.state emptyDb).maps)).1.map .ok, s) ∧ Disciplined CCoinsViewDB.view 2 s := by
  have hlegal : LegalRun model 2 reviveCalls (new emptyDb 2)
      (List.replicate 2 (model.coins emptyDb) ++ (model.state emptyDb).maps) := by
    exact ⟨by decide, trivial, ⟨rfl, fun _ => rfl⟩, by decide, trivial, trivial, by decide, trivial,
      trivial, by decide, ⟨rfl, trivial⟩, trivial, by decide, ⟨rfl, trivial⟩, ⟨rfl, fun _ => rfl⟩,
      by decide, ⟨rfl, trivial⟩, ⟨rfl, rfl⟩, by decide, trivial, trivial, trivial⟩
  obtain ⟨s, hrun, hflags, -⟩ := stack_refines_maps model
    (show model.Inv emptyDb from fun _ _ h => by cases h) 2 reviveCalls hlegal
  exact ⟨hlegal, s, hrun, hflags⟩

end CoinsStack
end Lithium
