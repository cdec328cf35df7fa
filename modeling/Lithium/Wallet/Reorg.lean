import Lithium.Wallet.Confirmations

/-!
# Wallets along reorganisations

`blockConnected` and `blockDisconnected` on a wallet that follows the active chain.
A step keeps the wallet in agreement under conditions on the state before it: marks
above the tip must be borne out by the block that is connected, no mark may stand
above the tip when a block is taken away, what is made from its coinbase must not be
marked, and no transaction of a connected block may be in the mempool while the
notification is worked off.
-/

namespace Lithium
open Lib Relation List Option WalletView TxState
variable {t hashBlock : Uint256} {T A : Set Uint256} {s : TxState} {b : BlockInfo}
  {x : CTransaction}
variable {tx k : CTransaction} {abandoned : Bool}

namespace WalletView
variable {U : Set CTransaction} {X : Set Uint256} {chain chain' : List BlockInfo}
  {v v' v'' : WalletView} {m : Int}

/-! ### Wallets that grow -/

variable {height : Int}

/-- Nothing that the first wallet knows about descent and rivals is lost. -/
structure Grows (v v' : WalletView) : Prop where
  child : ∀ {c d}, v.WalletChild c d → v'.WalletChild c d
  rival : ∀ {chain height a}, v.Rival chain height a → v'.Rival chain height a

namespace Grows

theorem refl (v : WalletView) : v.Grows v := ⟨id, id⟩

theorem trans (h : v.Grows v') (h' : v'.Grows v'') : v.Grows v'' :=
  ⟨fun hd => h'.child (h.child hd), fun hr => h'.rival (h.rival hr)⟩

theorem path (h : v.Grows v') {a : Uint256} (hpath : ReflTransGen v.WalletChild a t) :
    ReflTransGen v'.WalletChild a t := hpath.lift id fun _ _ hd => h.child hd

theorem clean (h : v.Grows v') (hcl : v'.Clean X t) : v.Clean X t :=
  fun a hpath => hcl a (h.path hpath)

theorem conflictAt (h : v.Grows v') (hconf : v.ConflictAt chain t height) :
    v'.ConflictAt chain t height := by
  obtain ⟨a, hpath, hrival⟩ := hconf
  exact ⟨a, h.path hpath, h.rival hrival⟩

end Grows

theorem SameTxs.grows (h : v.SameTxs v') : v.Grows v' := ⟨h.walletChild, h.rival⟩

theorem Extends.grows (h : v.Extends T v') : v.Grows v' := ⟨h.child, h.rival⟩

theorem InChain.congr (h : ∀ height x, Occurs chain height x ↔ Occurs chain' height x) :
    InChain chain t ↔ InChain chain' t := by
  simp [InChain, h]

/-- Agreement depends on the transactions of the wallet and on what is in the chain. -/
theorem SameTxs.agrees_iff (hsame : v.SameTxs v')
    (h : ∀ height x, Occurs chain height x ↔ Occurs chain' height x) :
    v'.Agrees chain' m t s ↔ v.Agrees chain m t s := by
  have hconf : ∀ height, v'.ConflictAt chain' t height ↔ v.ConflictAt chain t height := by
    intro height
    rw [hsame.conflictAt_iff]
    exact ⟨fun hc => hc.mono fun _ _ => (h _ _).mpr, fun hc => hc.mono fun _ _ => (h _ _).mp⟩
  have hin : InChain chain' t ↔ InChain chain t := (InChain.congr h).symm
  cases s <;> simp only [Agrees, Settled, Stale, hconf, hin, h]

/-- Where no mark is stale the height of stale marks does not matter. -/
theorem Follows.settle {E : Set Uint256} (h : v.Follows U X E chain m)
    (hset : ∀ {t tx s}, v.entry t = some (tx, s) → tx.isCoinBase = false → v.Clean X t → t ∉ E →
      ¬ v.Stale chain m t s) (m' : Int) : v.Follows U X E chain m' := by
  refine ⟨h.linked, h.height, h.inU, ?_, h.mono⟩
  intro t tx s hent hcb hcl hE
  exact .inl ((h.agrees hent hcb hcl hE).resolve_right
    (hset hent hcb hcl hE))

/-! ### Connecting -/

/-- Part of a block has been connected to the chain that the wallet `v` followed. -/
structure Connecting (U : Set CTransaction) (X : Set Uint256) (chain : List BlockInfo)
    (b : BlockInfo) (v v' : WalletView) : Prop where
  follows : v'.Follows U X ∅ (b :: chain) b.height
  grows : v.Grows v'
  stale : ∀ {t tx s}, v'.entry t = some (tx, s) → v'.Stale (b :: chain) b.height t s →
    v.entry t = some (tx, s)

/-- The strike of the next transaction, and that it is stored if it concerns the
wallet. -/
structure TxConnected (x : CTransaction) (hashBlock : Uint256) (height index : Int)
    (v v' : WalletView) : Prop where
  connected : ∃ ids v₁, (∀ a, a ∈ ids ↔ (∃ o, x.Spends o ∧ (o, a) ∈ v.spends) ∧ a ≠ x.getHash) ∧
    StruckBy (.conflicted hashBlock height) ids v v₁ ∧
    ((v₁.entry x.getHash = none ∧ v' = v₁) ∨ v₁.Stored x (.confirmed hashBlock height index) v')

/-- A transaction that is connected was not confirmed before. -/
theorem Striking.not_confirmed {ids : List Uint256} {v₁ : WalletView}
    (h : Striking U X chain b x hashBlock ids v v₁) {b' : Uint256} {i : Int}
    (hent : v₁.entry x.getHash = some (tx, .confirmed b' height i))
    (hcb : tx.isCoinBase = false) (hcl : v.Clean X x.getHash) : False := by
  rcases h.struck.entry x.getHash with hsame | ⟨-, ⟨tx', hnew⟩, -⟩
  · rw [hent] at hsame
    rcases h.follows.agrees hsame.symm hcb hcl (Set.notMem_empty _) with
      ⟨y, hy, hyx⟩ | ⟨⟨b'', hb''⟩, -⟩
    · exact h.fits.fresh (hyx ▸ hy.inChain)
    · cases hb''
  · rw [hent] at hnew
    cases hnew

theorem Stored.confirmed_cases {index : Int} (h : v.Stored x (.confirmed hashBlock height index) v')
    (hent : v'.entry x.getHash = some (tx, s)) : s = .confirmed hashBlock height index ∨
      ∃ tx₀ b h' i, v.entry x.getHash = some (tx₀, .confirmed b h' i) := by
  cases h with
  | fresh | changed =>
    rw [setEntry_entry_self] at hent
    cases hent
    exact .inl rfl
  | @kept tx₀ tx' s₀ hent₀ hidx =>
    cases s₀ with
    | confirmed b h' i => exact .inr ⟨tx₀, b, h', i, hent₀⟩
    | _ => simp [TxState.index] at hidx

/-- The next transaction of the block. -/
theorem Connecting.push (hU : TxUniverse U) {index : Int} (h : Connecting U X chain b v v')
    (hbef : NotifiedChain (b :: chain)) (hval : NotifiedChain (b.push x :: chain))
    (hfits : FitsAfter (b :: chain) x) (hx : x ∈ U)
    (hconn : TxConnected x hashBlock b.height index v' v'') :
    Connecting U X chain (b.push x) v v'' := by
  obtain ⟨ids, v₁, hids, hstruck, hsto⟩ := hconn
  have hstriking : Striking U X chain b x hashBlock ids v' v₁ :=
    ⟨hU, h.follows, hbef, hval, hfits, hx, hids, hstruck⟩
  have haft := hstriking.follows_after
  have hocc := occurs_push_self chain b x
  -- the wallet with the transaction stored, or apart because it has no entry
  have hgrown : v₁.Grows v'' ∧ (∀ t ≠ x.getHash, v''.entry t = v₁.entry t) ∧
      v''.Follows U X ∅ (b.push x :: chain) b.height := by
    rcases hsto with ⟨hnone, rfl⟩ | hsto
    · refine ⟨.refl _, fun _ _ => rfl, haft.linked, haft.height, haft.inU, ?_, haft.mono⟩
      intro t tx s hent hcb hcl _
      refine haft.agrees hent hcb hcl ?_
      rintro rfl
      rw [hnone] at hent
      cases hent
    · have hext := hsto.extends hU hx haft.linked
      have hlink := hsto.linked hU hx haft.linked
      refine ⟨hext.grows, hext.entry, haft.store hU hval hext hlink hocc ?_⟩
      intro tx s hent hcb hcl
      rcases hsto.confirmed_cases hent with rfl | ⟨tx₀, b', h', i, hent₀⟩
      · exact ⟨_, _, rfl⟩
      · obtain ⟨htxU, hhash⟩ := hlink.known hent
        obtain ⟨htxU₀, hhash₀⟩ := haft.linked.known hent₀
        have hcb₀ : tx₀.isCoinBase = false := by
          rw [hU.isCoinBase_eq htxU₀ htxU (hhash₀.trans hhash.symm), hcb]
        exact (hstriking.not_confirmed hent₀ hcb₀
          (hstruck.same.clean_iff.mp (hext.clean hcl))).elim
  obtain ⟨hgrows, hents, hfollows⟩ := hgrown
  refine ⟨hfollows, h.grows.trans (hstruck.same.grows.trans hgrows), ?_⟩
  intro t tx s hent hstale
  have hgrows' : v'.Grows v'' := hstruck.same.grows.trans hgrows
  have htx : t ≠ x.getHash := by
    rintro rfl
    exact hstale.2.1 hocc.inChain
  rw [hents t htx] at hent
  have hsame : v₁.entry t = v'.entry t := by
    by_contra hchanged
    obtain ⟨-, -, hconf⟩ := hstriking.changed hchanged
    exact hstale.2.2 _ (hgrows'.conflictAt hconf)
  rw [hsame] at hent
  refine h.stale hent ⟨hstale.1, fun hin => hstale.2.1 (inChain_push.mpr (.inl hin)), ?_⟩
  intro height hconf
  exact hstale.2.2 height (hgrows'.conflictAt hconf.push)

/-- Before its first transaction a connected block changes nothing. -/
theorem connecting_start (h : v.Follows U X ∅ chain m) (hm : m = b.height)
    (hht : b.height = chain.length) (hemp : b.vtx = []) :
    Connecting U X chain b v { v with height := b.height } := by
  have hsame : v.SameTxs { v with height := b.height } := ⟨fun _ => rfl, rfl⟩
  have hocc : ∀ height x, Occurs chain height x ↔ Occurs (b :: chain) height x :=
    fun _ _ => (occurs_empty hemp).symm
  subst hm
  refine ⟨⟨hsame.linked h.linked, ?_, ?_, ?_, ?_⟩, hsame.grows, fun hent _ => hent⟩
  · change b.height = _
    rw [hht, length_cons]
    omega
  · intro height x hx
    exact h.inU ((hocc height x).mpr hx)
  · intro t tx s hent hcb hcl hE
    exact (hsame.agrees_iff hocc).mpr (h.agrees hent hcb (hsame.clean_iff.mp hcl) hE)
  · intro c d tx s tx' s' hch hcl hc hcb hd b' h' hs
    exact h.mono (hsame.symm.walletChild hch) (hsame.clean_iff.mp hcl) hc hcb hd hs

/-- Marks above the tip are borne out by the block. -/
def MarksConfirmedBy (X : Set Uint256) (chain : List BlockInfo) (b : BlockInfo)
    (v : WalletView) : Prop :=
  ∀ t tx hash, v.Clean X t → v.entry t = some (tx, .conflicted hash b.height) →
    InChain (b :: chain) t ∨ ∃ height, v.ConflictAt (b :: chain) t height

/-- After its last transaction no mark is stale. -/
theorem Connecting.finish (h : Connecting U X chain b v v') (hmarks : v.MarksConfirmedBy X chain b)
    (m' : Int) : v'.Follows U X ∅ (b :: chain) m' := by
  refine h.follows.settle (fun {t tx s} hent _ hcl _ hstale => ?_) m'
  obtain ⟨⟨hash, rfl⟩, hnot, hnone⟩ := id hstale
  rcases hmarks t tx hash (h.grows.clean hcl) (h.stale hent hstale) with hin |
    ⟨height, hconf⟩
  · exact hnot hin
  · exact hnone height (h.grows.conflictAt hconf)

/-! ### Taking a block away -/

/-- A wallet transaction is made from the outputs of a transaction, which need not be
in the wallet. -/
def MadeFrom (v : WalletView) (k : CTransaction) (t : Uint256) : Prop :=
  ∃ d, (∃ i < k.vout.length, (⟨k.getHash, UInt32.ofNat i⟩, d) ∈ v.spends) ∧
    ReflTransGen v.WalletChild d t

/-- What `blockDisconnected` does: the transactions in `T` become inactive, and those
of `A` that are not in `T` are abandoned. -/
structure Withdrawn (T A : Set Uint256) (v v' : WalletView) : Prop where
  child : ∀ {c d}, v.WalletChild c d → v'.WalletChild c d
  child_cases : ∀ {c d}, v'.WalletChild c d → v.WalletChild c d ∨ c ∈ T ∨ d ∈ T
  rival : ∀ {chain height a}, v.Rival chain height a → v'.Rival chain height a
  height : v'.height = v.height
  same : ∀ t ∉ T, t ∉ A → v'.entry t = v.entry t
  abandoned : ∀ t ∉ T, t ∈ A → v'.entry t = (v.entry t).map fun e => (e.1, .inactive true)
  inactive : ∀ t ∈ T, ∀ {tx s}, v'.entry t = some (tx, s) → s.isInactive = true

theorem withdrawn_refl (v : WalletView) : Withdrawn ∅ ∅ v v :=
  ⟨id, .inl, id, rfl, fun _ _ _ => rfl, fun t _ ht => absurd ht (Set.notMem_empty t),
    fun t ht => absurd ht (Set.notMem_empty t)⟩

theorem Stored.inactive {x : CTransaction} (h : v.Stored x (.inactive abandoned) v')
    {s : TxState} (hent : v'.entry x.getHash = some (tx, s)) :
    s.isInactive = true := by
  cases h with
  | fresh | changed =>
    rw [setEntry_entry_self] at hent
    cases hent
    rfl
  | @kept tx₀ tx' s₀ hent₀ hidx =>
    rw [setEntry_entry_self] at hent
    cases hent
    cases s with
    | inactive abandoned' => rfl
    | _ => simp [index] at hidx

/-- A further transaction, which is inactive if it has an entry. -/
theorem Withdrawn.extend (h : Withdrawn T A v v') (hext : v'.Extends {t} v'')
    (hinact : ∀ {tx s}, v''.entry t = some (tx, s) → s.isInactive = true) :
    Withdrawn (insert t T) A v v'' := by
  refine ⟨fun hd => hext.child (h.child hd), fun hd => ?_, fun hr => hext.rival (h.rival hr),
    hext.height.trans h.height, ?_, ?_, ?_⟩
  · rcases hext.child_cases hd with hd | hc | hd
    · rcases h.child_cases hd with hd | hd | hd
      · exact .inl hd
      · exact .inr (.inl (.inr hd))
      · exact .inr (.inr (.inr hd))
    · exact .inr (.inl (.inl hc))
    · exact .inr (.inr (.inl hd))
  · intro n hn hA
    rw [hext.entry n fun hx => hn (.inl hx)]
    exact h.same n (fun hT => hn (.inr hT)) hA
  · intro n hn hA
    rw [hext.entry n fun hx => hn (.inl hx)]
    exact h.abandoned n (fun hT => hn (.inr hT)) hA
  · intro n hn tx s hent
    by_cases hnt : n = t
    · subst hnt
      exact hinact hent
    · rw [hext.entry n hnt] at hent
      exact h.inactive n (hn.resolve_left hnt) hent

/-- What is made from a coinbase after it is stored was made from it before. -/
theorem madeFrom_of_descendants (hU : TxUniverse U) (hlink : v.Linked U)
    (hk : k ∈ U) (hcb : k.isCoinBase = true) (hsto : v.Stored k s v')
    (ht : t ∈ v'.Descendants k.getHash) : t = k.getHash ∨ v.MadeFrom k t := by
  have hext := hsto.extends hU hk hlink
  have hlink' := hsto.linked hU hk hlink
  -- a coinbase spends nothing, so it is nobody's child
  have hnotSpender : ∀ {v : WalletView} {o}, v.Linked U → (o, k.getHash) ∉ v.spends := by
    intro v o hlink hmem
    rw [(hlink.spends_of_mem hU hk hmem).1] at hcb
    cases hcb
  have hnotChild : ∀ {c}, ¬ v'.WalletChild c k.getHash := by
    rintro c ⟨⟨-, -, -, i, -, hmem⟩, -⟩
    exact hnotSpender hlink' hmem
  have hsp : v'.spends = v.spends := by
    cases hsto with
    | fresh => exact if_pos hcb
    | changed | kept => rfl
  have hpath : ReflTransGen v'.WalletChild k.getHash t := ht
  induction hpath with
  | refl => exact .inl rfl
  | @tail c d hkc hcd ih =>
    have hdk : d ≠ k.getHash := by
      rintro rfl
      exact hnotChild hcd
    rcases ih hkc with rfl | ⟨d₀, hfst, hrest⟩
    · obtain ⟨⟨tx, s', hent, i, hi, hmem⟩, -⟩ := hcd
      obtain ⟨htx, hhash⟩ := hlink'.known hent
      refine .inr ⟨d, ⟨i, ?_, ?_⟩, .refl⟩
      · rwa [← hU.vout _ htx _ hk hhash]
      · rwa [← hsp]
    · have hck : c ≠ k.getHash := by
        rintro rfl
        rcases hrest.cases_tail with rfl | ⟨c', -, hch⟩
        · obtain ⟨i, -, hmem⟩ := hfst
          exact hnotSpender hlink hmem
        · exact hnotChild (hext.child hch)
      rcases hext.child_cases hcd with hcd | hc | hd
      · exact .inr ⟨d₀, hfst, hrest.tail hcd⟩
      · exact absurd hc hck
      · exact absurd hd hdk

/-- A coinbase becomes inactive and is abandoned with what is made from it. -/
theorem withdrawn_coinBase (hU : TxUniverse U) (hlink : v.Linked U)
    (hk : k ∈ U) (hsto : v.Stored k (.inactive abandoned) v') :
    Withdrawn {k.getHash} (v'.Descendants k.getHash) v
      (v'.mark (v'.Descendants k.getHash) (.inactive true)) := by
  have hext := hsto.extends hU hk hlink
  have hsame := sameTxs_mark v' (v'.Descendants k.getHash) (.inactive true)
  refine ⟨fun hd => hsame.walletChild (hext.child hd),
    fun hd => hext.child_cases (hsame.symm.walletChild hd), fun hr => hsame.rival (hext.rival hr),
    hext.height, ?_, ?_, ?_⟩
  · intro t ht hA
    rw [mark_entry_of_notMem hA, hext.entry t ht]
  · intro t ht hA
    rw [mark_entry_of_mem hA, hext.entry t ht]
  · intro t ht tx s hent
    have hmem : t ∈ v'.Descendants k.getHash := by
      rw [ht]
      exact ReflTransGen.refl
    rw [mark_entry_of_mem hmem, map_eq_some_iff] at hent
    obtain ⟨e, -, heq⟩ := hent
    cases heq
    rfl

/-- No mark stands above the tip. -/
def NoMarkAbove (X : Set Uint256) (height : Int) (v : WalletView) : Prop :=
  ∀ t tx hash, v.Clean X t → v.entry t ≠ some (tx, .conflicted hash height)

/-- What is made from a coinbase of the block is not marked. -/
def CoinBasesUnmarked (X : Set Uint256) (b : BlockInfo) (v : WalletView) : Prop :=
  ∀ k ∈ b.vtx, k.isCoinBase = true → ∀ t tx hash height, v.Clean X t → v.MadeFrom k t →
    v.entry t ≠ some (tx, .conflicted hash height)

/-- The last block of the chain that the wallet `v` follows is taken away. -/
structure Withdrawing (U : Set CTransaction) (X : Set Uint256) (chain : List BlockInfo)
    (b : BlockInfo) (T A : Set Uint256) (v v' : WalletView) : Prop where
  same_ids : TxUniverse U
  follows : v.Follows U X ∅ (b :: chain) (b.height + 1)
  valid : NotifiedChain (b :: chain)
  mem_block : ∀ t, t ∈ T ↔ ∃ x ∈ b.vtx, x.getHash = t
  made : ∀ t ∈ A, t ∉ T → ∃ k ∈ b.vtx, k.isCoinBase = true ∧ v.MadeFrom k t
  linked : v'.Linked U
  withdrawn : Withdrawn T A { v with height := b.height - 1 } v'
  marks : v.NoMarkAbove X (b.height + 1)
  coinbases : v.CoinBasesUnmarked X b

namespace Withdrawing

section
variable (h : Withdrawing U X chain b T A v v')

include h

theorem inChain_of_mem (ht : t ∈ T) : InChain (b :: chain) t := by
  obtain ⟨x, hx, rfl⟩ := (h.mem_block t).mp ht
  exact (occurs_cons.mpr (.inl ⟨rfl, hx⟩)).inChain

/-- A transaction of the block is not in the chain below. -/
theorem not_inChain_of_mem (ht : t ∈ T) : ¬ InChain chain t := by
  rintro ⟨height, y, hy, rfl⟩
  obtain ⟨x, hx, hxy⟩ := (h.mem_block _).mp ht
  have hlt := (h.valid.tail.occurs_lt hy).2
  have heq := h.valid.occurs_unique (occurs_cons.mpr (.inl ⟨rfl, hx⟩))
    (occurs_cons.mpr (.inr hy)) hxy
  have hb := h.valid.height_eq
  omega

/-- A transaction at a height of the block and the chain below is in one of them. -/
theorem occurs_chain (ht : x.getHash ∉ T) (hx : Occurs (b :: chain) height x) :
    Occurs chain height x := by
  rcases occurs_cons.mp hx with ⟨-, hx⟩ | hx
  · exact absurd ((h.mem_block _).mpr ⟨x, hx, rfl⟩) ht
  · exact hx

theorem grows : v.Grows v' := ⟨fun hd => h.withdrawn.child hd, fun hr => h.withdrawn.rival hr⟩

theorem entry_cases (ht : t ∉ T) (hent : v'.entry t = some (tx, s)) :
    (t ∈ A ∧ s = .inactive true ∧ ∃ s₀, v.entry t = some (tx, s₀)) ∨
      t ∉ A ∧ v.entry t = some (tx, s) := by
  by_cases htA : t ∈ A
  · rw [h.withdrawn.abandoned t ht htA] at hent
    obtain ⟨⟨tx', s'⟩, hold, heq⟩ := map_eq_some_iff.mp hent
    cases heq
    exact .inl ⟨htA, rfl, s', hold⟩
  · rw [h.withdrawn.same t ht htA] at hent
    exact .inr ⟨htA, hent⟩

theorem conflictAt_iff : v'.ConflictAt chain t height ↔ v.ConflictAt chain t height := by
  constructor
  · rintro ⟨a, hpath, hr⟩
    have hnot := (hr.mono fun _ _ hy => occurs_cons.mpr (.inr hy)).not_inChain h.same_ids h.valid
      h.linked h.follows.inU
    have hold := Extends.path_cases h.same_ids h.valid h.linked h.follows.inU
      (fun _ => h.inChain_of_mem) (fun hd => h.withdrawn.child_cases hd) hpath
    refine ⟨a, hold.resolve_right hnot, ?_⟩
    obtain ⟨tx, s, hent, hrest⟩ := hr
    rcases h.entry_cases (fun ha => hnot (h.inChain_of_mem ha)) hent with
      ⟨-, -, s₀, hent⟩ | ⟨-, hent⟩
    · exact ⟨tx, s₀, hent, hrest⟩
    · exact ⟨tx, s, hent, hrest⟩
  · exact h.grows.conflictAt

/-- What is abandoned with a coinbase of the block has nothing to do with the chain
below. -/
theorem free_of_abandoned (hcl : v.Clean X t) (htT : t ∉ T) (htA : t ∈ A)
    (hent : v.entry t = some (tx, s)) (hcb : tx.isCoinBase = false) :
    ¬ InChain chain t ∧ ∀ height, ¬ v.ConflictAt chain t height := by
  obtain ⟨k, hk, hkcoinbase, hmade⟩ := h.made t htA htT
  have hnotIn : ¬ InChain chain t := by
    intro hin
    obtain ⟨d, ⟨i, -, hmem⟩, hpath⟩ := hmade
    have hchainU : ∀ {height x}, Occurs chain height x → x ∈ U := fun hx =>
      h.follows.inU (occurs_cons.mpr (.inr hx))
    have hd := inChain_of_path h.same_ids h.valid.tail h.follows.linked hchainU hpath hin
    exact h.not_inChain_of_mem ((h.mem_block _).mpr ⟨k, hk, rfl⟩)
      (inChain_of_spent h.same_ids h.valid.tail h.follows.linked hchainU hmem hd)
  refine ⟨hnotIn, fun height hc => ?_⟩
  rcases h.follows.agrees hent hcb hcl (Set.notMem_empty t) with
    hset | ⟨⟨hash, rfl⟩, -⟩
  · cases s with
    | confirmed hash height' i =>
      obtain ⟨x, hx, rfl⟩ := hset
      exact hnotIn (h.occurs_chain htT hx).inChain
    | conflicted hash height' =>
      exact h.coinbases k hk hkcoinbase t tx hash height' hcl hmade hent
    | inMempool | inactive abandoned | unrecognized hash i => exact hset.2 height hc.cons
  · exact h.coinbases k hk hkcoinbase t tx hash _ hcl hmade hent

/-- A transaction that keeps its entry agrees with the chain below; a mark for a
conflict with the block is stale now. -/
theorem agrees_of_kept (hcl : v.Clean X t) (htT : t ∉ T)
    (hent : v.entry t = some (tx, s)) (hcb : tx.isCoinBase = false) :
    v.Agrees chain b.height t s := by
  have hlow : ¬ InChain (b :: chain) t → ¬ InChain chain t := by
    rintro hnot ⟨height, y, hy, rfl⟩
    exact hnot (occurs_cons.mpr (.inr hy)).inChain
  rcases h.follows.agrees hent hcb hcl (Set.notMem_empty t) with
    hset | ⟨⟨hash, rfl⟩, -⟩
  · cases s with
    | confirmed hash height i =>
      obtain ⟨x, hx, rfl⟩ := hset
      exact .inl ⟨x, h.occurs_chain htT hx, rfl⟩
    | conflicted hash height =>
      obtain ⟨hnot, hc, hfst⟩ := hset
      by_cases hht : height = b.height
      · refine .inr ⟨⟨hash, by rw [hht]⟩, hlow hnot, fun h' hc' => ?_⟩
        obtain ⟨x, hx⟩ := hc'.exists_occurs
        have hlt := (h.valid.tail.occurs_lt hx).2
        have hb := h.valid.height_eq
        exact hfst h' (by omega) hc'.cons
      · refine .inl ⟨hlow hnot, ?_, fun h' hlt hc' => hfst h' hlt hc'.cons⟩
        obtain ⟨a, hpath, txa, sa, ha, hca, o, ho, x, hx, hrest⟩ := hc
        rcases occurs_cons.mp hx with ⟨heq, -⟩ | hx
        · exact absurd heq.symm hht
        · exact ⟨a, hpath, txa, sa, ha, hca, o, ho, x, hx, hrest⟩
    | inMempool | inactive abandoned | unrecognized hash i =>
      exact .inl ⟨hlow hset.1, fun h' hc => hset.2 h' hc.cons⟩
  · exact absurd hent (h.marks t tx hash hcl)

theorem agrees (hent : v'.entry t = some (tx, s))
    (hcb : tx.isCoinBase = false) (hcl : v.Clean X t) : v'.Agrees chain b.height t s := by
  simp only [Agrees, Settled, Stale, h.conflictAt_iff]
  by_cases htT : t ∈ T
  · -- a transaction of the block is inactive now
    have hs := h.withdrawn.inactive t htT hent
    have hnone : ∀ height, ¬ v.ConflictAt chain t height := fun height hc =>
      (h.grows.conflictAt hc).cons.not_inChain h.same_ids h.valid h.linked h.follows.inU
        (h.inChain_of_mem htT)
    cases s with
    | inactive abandoned => exact .inl ⟨h.not_inChain_of_mem htT, hnone⟩
    | _ => simp [isInactive] at hs
  · rcases h.entry_cases htT hent with ⟨htA, rfl, s₀, hent⟩ | ⟨-, hent⟩
    · exact .inl (h.free_of_abandoned hcl htT htA hent hcb)
    · exact h.agrees_of_kept hcl htT hent hcb

/-- A marked transaction is outside the block and has not been abandoned. -/
theorem mono {c d : Uint256} {tx' : CTransaction} {s' : TxState} (hch : v'.WalletChild c d)
    (hcl' : v'.Clean X d) {hash : Uint256} (hc : v'.entry c = some (tx, .conflicted hash height))
    (hcb : tx.isCoinBase = false) (hd : v'.entry d = some (tx', s')) :
    ∃ hash' height', s' = .conflicted hash' height' ∧ height' ≤ height := by
  have hcl := h.grows.clean hcl'
  have hcleanc : v.Clean X c := h.grows.clean (hcl'.of_path (.single hch))
  have hcT : c ∉ T := fun hcT => by simpa [isInactive] using h.withdrawn.inactive c hcT hc
  obtain ⟨-, hc⟩ := (h.entry_cases hcT hc).resolve_left fun hA => nomatch hA.2.1
  have hdT : d ∉ T := by
    intro hdT
    have hin := inChain_of_walletChild h.same_ids h.valid h.linked h.follows.inU hch
      (h.inChain_of_mem hdT)
    obtain ⟨b', h', i, hs'⟩ :=
      (h.follows.agrees hc hcb hcleanc (Set.notMem_empty c)).confirmed_of_inChain hin
    cases hs'
  have hch' : v.WalletChild c d := by
    rcases h.withdrawn.child_cases hch with hch' | hmem | hmem
    · exact hch'
    · exact absurd hmem hcT
    · exact absurd hmem hdT
  rcases h.entry_cases hdT hd with ⟨hdA, -, s₀, hd⟩ | ⟨-, hd⟩
  · obtain ⟨bd, hd', rfl, -⟩ := h.follows.mono hch' hcl hc hcb hd rfl
    obtain ⟨k, hk, hkcoinbase, hmade⟩ := h.made d hdA hdT
    exact absurd hd (h.coinbases k hk hkcoinbase d tx' bd hd' hcl hmade)
  · exact h.follows.mono hch' hcl hc hcb hd rfl

/-- A wallet that follows the chain still follows it without its last block. -/
theorem follows_after : v'.Follows U X ∅ chain b.height := by
  refine ⟨h.linked, ?_, fun hx => h.follows.inU (occurs_cons.mpr (.inr hx)), ?_, ?_⟩
  · rw [h.withdrawn.height, h.valid.height_eq]
  · intro t tx s hent hcb hcl _
    exact h.agrees hent hcb (h.grows.clean hcl)
  · intro c d tx s tx' s' hch hcl hc hcb hd hash height hs
    exact h.mono hch hcl (hs ▸ hc) hcb hd

end
end Withdrawing

end WalletView

/-! ### The notifications -/

namespace CWallet
variable {κ δ : Type} [DecidableEq δ] {ops : KeyOps κ δ} {U : Set CTransaction} {X : Set Uint256}
  {chain : List BlockInfo} {w : CWallet κ δ} {inMempool : Uint256 → Bool}

omit [DecidableEq δ] in
/-- `RefreshMempoolStatus` of a transaction that is confirmed or not in the wallet. -/
theorem view_refreshMempoolStatus (hnot : inMempool t = false)
    (hst : ∀ {tx s}, w.view.entry t = some (tx, s) → s ≠ .inMempool) :
    (w.refreshMempoolStatus inMempool t).view = w.view := by
  refine view_eq_of (fun n => ?_) rfl rfl
  rw [refreshMempoolStatus]
  by_cases htn : t = n
  · subst htn
    rw [getWalletTx_modifyTx_self]
    cases hget : w.getWalletTx t with
    | none => rfl
    | some wtx =>
      have hne := hst (view_entry_eq_some hget)
      simp [hnot, hne]
  · rw [getWalletTx_modifyTx_of_ne _ _ htn]

variable {w' : CWallet κ δ} {block : BlockInfo}

theorem connectTx_ok (hlink : w.view.Linked U) {x : CTransaction} {index : Nat}
    (hht : w.lastBlockProcessedHeight = block.height) (hnn : 0 ≤ block.height)
    (hnot : inMempool x.getHash = false) (h : connectTx ops inMempool block w (x, index) = .ok w') :
    w.view.TxConnected x block.hash block.height index w'.view := by
  rw [connectTx] at h
  obtain ⟨w₁, hsync, h⟩ := bind_eq_ok.mp h
  have hrem : w₁.transactionRemovedFromMempool ops inMempool x .block = .ok w' := h
  have hrefresh : w₁.refreshMempoolStatus inMempool x.getHash = w' := by
    rw [transactionRemovedFromMempool] at hrem
    simpa using hrem
  have hdepth : (conflicted block.hash block.height).depth w.view.height ≤ -1 := by
    change -1 * (w.lastBlockProcessedHeight - block.height + 1) ≤ -1
    omega
  obtain ⟨v₁, hv₁, hcases⟩ := syncTransaction_confirmed hlink hht hnn hsync
  have hstruck := struckBy_strike hdepth (w.conflictsWith x)
  rw [← hv₁] at hstruck
  refine ⟨w.conflictsWith x, v₁, fun a => mem_conflictsWith, hstruck, ?_⟩
  rcases hcases with ⟨hnone, hview⟩ | hadded
  · left
    refine ⟨hnone, ?_⟩
    rw [← hrefresh, view_refreshMempoolStatus hnot, hview]
    intro tx s hent
    rw [hview, hnone] at hent
    cases hent
  · right
    obtain ⟨v₂, tx₁, s₁, hsto, hent₁, hrest⟩ := hadded
    have hconfirmed : ∃ b h i, s₁ = .confirmed b h i := by
      rcases hsto.confirmed_cases hent₁ with rfl | ⟨tx₀, b, h', i, hent₀⟩
      · exact ⟨_, _, _, rfl⟩
      · cases hsto with
        | fresh hnone =>
          rw [hnone] at hent₀
          cases hent₀
        | changed hold hidx =>
          rw [hold] at hent₀
          cases hent₀
          exact absurd rfl hidx
        | kept hold =>
          rw [hold] at hent₀
          cases hent₀
          rw [setEntry_entry_self] at hent₁
          cases hent₁
          exact ⟨b, h', i, rfl⟩
    obtain ⟨b, h', i, rfl⟩ := hconfirmed
    have hview : w₁.view = v₂ := by
      rcases hrest with ⟨-, hview⟩ | ⟨hinact, -⟩
      · exact hview
      · simp [isInactive] at hinact
    rw [← hrefresh, view_refreshMempoolStatus hnot, hview]
    · exact hsto
    · intro tx s hent
      rw [hview, hent₁] at hent
      cases hent
      exact fun hs => by cases hs

def idsOf (xs : List CTransaction) : Set Uint256 := {t | ∃ x ∈ xs, x.getHash = t}

theorem idsOf_nil_union (T : Set Uint256) : idsOf [] ∪ T = T := by
  simp [idsOf]

theorem idsOf_cons_union (x : CTransaction) (xs : List CTransaction) (T : Set Uint256) :
    idsOf (x :: xs) ∪ T = idsOf xs ∪ insert x.getHash T := by
  ext t
  constructor
  · rintro (⟨y, hy, rfl⟩ | ht)
    · rcases mem_cons.mp hy with rfl | hy
      · exact .inr (.inl rfl)
      · exact .inl ⟨y, hy, rfl⟩
    · exact .inr (.inr ht)
  · rintro (⟨y, hy, rfl⟩ | rfl | ht)
    · exact .inl ⟨y, mem_cons_of_mem x hy, rfl⟩
    · exact .inl ⟨x, mem_cons_self, rfl⟩
    · exact .inr ht

section
variable (hU : TxUniverse U)

include hU

/-- All transactions of a block from some point on. -/
theorem foldlM_connectTx {v : WalletView} {pre rest : List CTransaction}
    (hvtx : block.vtx = pre ++ rest) (hval : NotifiedChain (block :: chain))
    (hblk : ∀ x ∈ block.vtx, x ∈ U) (hnot : ∀ x ∈ block.vtx, inMempool x.getHash = false)
    (h : Connecting U X chain { block with vtx := pre } v w.view)
    (hfold : (rest.zipIdx pre.length).foldlM (connectTx ops inMempool block) w = .ok w') :
    Connecting U X chain block v w'.view := by
  induction rest generalizing pre w with
  | nil =>
    cases hfold
    rw [append_nil] at hvtx
    rwa [← hvtx] at h
  | cons x rest ih =>
    have hval' : NotifiedChain ({ block with vtx := pre ++ x :: rest } :: chain) :=
      by rwa [← hvtx]
    have hbef : NotifiedChain ({ block with vtx := pre } :: chain) := hval'.of_append
    obtain ⟨hfits, -⟩ := hval'.fits_of_append
    have hpush : NotifiedChain ((BlockInfo.push { block with vtx := pre } x) :: chain) := by
      have happend : NotifiedChain ({ block with vtx := (pre ++ [x]) ++ rest } :: chain) := by
        rwa [append_assoc]
      exact happend.of_append
    have hx : x ∈ block.vtx := by
      rw [hvtx]
      exact mem_append_right _ mem_cons_self
    have hht := h.follows.height
    rw [length_cons] at hht
    have hb := hval.height_eq
    rw [zipIdx_cons, foldlM_cons] at hfold
    obtain ⟨w₁, hconnect, hfold⟩ := bind_eq_ok.mp hfold
    have hconn := connectTx_ok h.follows.linked
      (show w.lastBlockProcessedHeight = block.height by
        change w.view.height = block.height
        omega) (by omega) (hnot x hx) hconnect
    have hnext := h.push hU hbef hpush hfits (hblk x hx) hconn
    have hvtx' : block.vtx = (pre ++ [x]) ++ rest := by rw [hvtx, append_assoc]; rfl
    refine ih hvtx' hnext ?_
    rw [length_append]
    exact hfold

/-- A connected block keeps a wallet in agreement. -/
theorem follows_blockConnected (h : w.view.Follows U X ∅ chain chain.length)
    (hval : NotifiedChain (block :: chain)) (hblk : ∀ x ∈ block.vtx, x ∈ U)
    (hnot : ∀ x ∈ block.vtx, inMempool x.getHash = false)
    (hmarks : w.view.MarksConfirmedBy X chain block)
    (hconn : w.blockConnected ops inMempool block = .ok w') :
    w'.view.Follows U X ∅ (block :: chain) (block :: chain).length := by
  have hstart : Connecting U X chain { block with vtx := [] } w.view
      { w.view with height := block.height } :=
    connecting_start h hval.height_eq.symm hval.height_eq rfl
  exact (foldlM_connectTx hU (nil_append _).symm hval hblk hnot hstart hconn).finish
    hmarks _

/-- The transactions of a block that are not coinbases become inactive. -/
theorem foldlM_syncTransaction_inactive {xs : List CTransaction}
    (hxs : ∀ x ∈ xs, x ∈ U ∧ x.isCoinBase = false) {v : WalletView} {T A : Set Uint256}
    (hlink : w.view.Linked U) (h : Withdrawn T A v w.view)
    (hfold : xs.foldlM (fun w tx => w.syncTransaction ops tx (.inactive false) true) w = .ok w') :
    w'.view.Linked U ∧ Withdrawn (idsOf xs ∪ T) A v w'.view := by
  induction xs generalizing T w with
  | nil =>
    cases hfold
    rw [idsOf_nil_union]
    exact ⟨hlink, h⟩
  | cons x xs ih =>
    obtain ⟨hx, hcb⟩ := hxs x mem_cons_self
    rw [foldlM_cons] at hfold
    obtain ⟨w₁, hsync, hfold⟩ := bind_eq_ok.mp hfold
    have hstep : w₁.view.Linked U ∧ Withdrawn (insert x.getHash T) A v w₁.view := by
      rcases syncTransaction_inactive hsync with ⟨hnone, hview⟩ | hadded
      · rw [hview]
        exact ⟨hlink, h.extend (.refl _ _) fun hent => nomatch hnone.symm.trans hent⟩
      · obtain ⟨v₁, tx₁, s₁, hsto, hent, hrest⟩ := id hadded
        have hext := hsto.extends hU hx hlink
        have hlink₁ := hsto.linked hU hx hlink
        obtain ⟨htx₁, hhash₁⟩ := hlink₁.known hent
        rcases hrest with ⟨-, hview⟩ | ⟨hinact, -⟩
        · rw [hview]
          exact ⟨hlink₁, h.extend hext hsto.inactive⟩
        · rw [hU.isCoinBase_eq htx₁ hx hhash₁, hcb] at hinact
          cases hinact
    rw [idsOf_cons_union]
    exact ih (fun y hy => hxs y (mem_cons_of_mem x hy)) hstep.1 hstep.2 hfold

/-- The first transaction of a block that is taken away, the only one that may be a
coinbase. -/
theorem syncTransaction_first {x : CTransaction} (hx : x ∈ U) (hlink : w.view.Linked U)
    (h : w.syncTransaction ops x (.inactive false) true = .ok w') :
    w'.view.Linked U ∧ ∃ A, Withdrawn {x.getHash} A w.view w'.view ∧
      ∀ t ∈ A, t = x.getHash ∨ x.isCoinBase = true ∧ w.view.MadeFrom x t := by
  have hset : insert x.getHash (∅ : Set Uint256) = {x.getHash} := by
    simp
  have hnone : ∀ t ∈ (∅ : Set Uint256), t = x.getHash ∨ x.isCoinBase = true ∧ w.view.MadeFrom x t :=
    fun t ht => absurd ht (Set.notMem_empty t)
  rcases syncTransaction_inactive h with ⟨hent, hview⟩ | hadded
  · rw [hview]
    refine ⟨hlink, ∅, hset ▸ (withdrawn_refl w.view).extend (.refl _ _) ?_, hnone⟩
    exact fun h => nomatch hent.symm.trans h
  · have hlink' := hadded.linked hU hx hlink
    obtain ⟨v₁, tx₁, s₁, hsto, hent, hrest⟩ := hadded
    refine ⟨hlink', ?_⟩
    rcases hrest with ⟨-, hview⟩ | ⟨hinact, hview⟩
    · rw [hview]
      have hext := hsto.extends hU hx hlink
      exact ⟨∅, hset ▸ (withdrawn_refl w.view).extend hext hsto.inactive, hnone⟩
    · rw [hview]
      refine ⟨v₁.Descendants x.getHash, withdrawn_coinBase hU hlink hx hsto, ?_⟩
      obtain ⟨htx₁, hhash₁⟩ := (hsto.linked hU hx hlink).known hent
      have hcb : x.isCoinBase = true := by
        rw [← hU.isCoinBase_eq htx₁ hx hhash₁]
        exact (Bool.and_eq_true_iff.mp hinact).1
      intro t ht
      rcases madeFrom_of_descendants hU hlink hx hcb hsto ht with hk | hmade
      · exact .inl hk
      · exact .inr ⟨hcb, hmade⟩

/-- A block that is taken away keeps a wallet in agreement. -/
theorem follows_blockDisconnected
    (h : w.view.Follows U X ∅ (block :: chain) (block :: chain).length)
    (hval : NotifiedChain (block :: chain)) (hmarks : w.view.NoMarkAbove X (block.height + 1))
    (hcoinbases : w.view.CoinBasesUnmarked X block)
    (hdisc : w.blockDisconnected ops block = .ok w') :
    w'.view.Follows U X ∅ chain chain.length := by
  have hb := hval.height_eq
  have hm : (((block :: chain).length : Nat) : Int) = block.height + 1 := by
    rw [length_cons, hb]
    rfl
  let w₀ : CWallet κ δ :=
    { w with lastBlockProcessedHeight := block.height - 1, lastBlockProcessed := block.prevHash }
  have hsame : w.view.SameTxs w₀.view := ⟨fun _ => rfl, rfl⟩
  have hlink₀ := hsame.linked h.linked
  have hfold : block.vtx.foldlM (fun w tx => w.syncTransaction ops tx (.inactive false) true) w₀ =
      .ok w' := hdisc
  have hblockU : ∀ x ∈ block.vtx, x ∈ U := fun x hx => h.inU (occurs_cons.mpr (.inl ⟨rfl, hx⟩))
  rw [← hb]
  -- what happens to the wallet, with the set of the abandoned transactions
  obtain ⟨A, hlink', hwd, hA⟩ : ∃ A, w'.view.Linked U ∧
      Withdrawn (idsOf block.vtx) A w₀.view w'.view ∧
      ∀ t ∈ A, t ∉ idsOf block.vtx → ∃ k ∈ block.vtx, k.isCoinBase = true ∧
        w.view.MadeFrom k t := by
    cases hvtx : block.vtx with
    | nil =>
      rw [hvtx] at hfold
      have hw : w' = w₀ := (Except.ok.inj hfold).symm
      have hset : idsOf [] = ∅ := by
        simp [idsOf]
      rw [hw, hset]
      exact ⟨∅, hlink₀, withdrawn_refl _, fun t ht => absurd ht (Set.notMem_empty t)⟩
    | cons x xs =>
      rw [hvtx, foldlM_cons] at hfold
      have hxs : ∀ y ∈ xs, y ∈ U ∧ y.isCoinBase = false := by
        intro y hy
        obtain ⟨pre, post, rfl⟩ := append_of_mem hy
        have hval' : NotifiedChain ({ block with vtx := (x :: pre) ++ y :: post } :: chain) := by
          rwa [cons_append, ← hvtx]
        exact ⟨hblockU y (by rw [hvtx]; exact mem_cons_of_mem x hy),
          hval'.fits_of_append.2 (cons_ne_nil x pre)⟩
      obtain ⟨w₁, hsync, hfold⟩ := bind_eq_ok.mp hfold
      obtain ⟨hlink₁, A, hfst, hA⟩ := syncTransaction_first hU
        (hblockU x (by rw [hvtx]; exact mem_cons_self)) hlink₀ hsync
      obtain ⟨hlink', hrest⟩ := foldlM_syncTransaction_inactive hU hxs hlink₁ hfst hfold
      have hset : idsOf xs ∪ {x.getHash} = idsOf (x :: xs) := by
        have hcons := idsOf_cons_union x xs ∅
        rw [Set.union_empty] at hcons
        rw [hcons]
        simp
      rw [hset] at hrest
      refine ⟨A, hlink', hrest, fun t ht hnot => ⟨x, mem_cons_self, ?_⟩⟩
      rcases hA t ht with rfl | ⟨hcb, d, hfst, hpath⟩
      · exact absurd ⟨x, mem_cons_self, rfl⟩ hnot
      · exact ⟨hcb, d, hfst, hsame.symm.path hpath⟩
  have hwithdrawing : Withdrawing U X chain block (idsOf block.vtx) A w.view w'.view :=
    ⟨hU, hm ▸ h, hval, fun t => Iff.rfl, hA, hlink', hwd, hmarks, hcoinbases⟩
  exact hwithdrawing.follows_after

end
end CWallet
end Lithium
