import Lithium.Wallet.NotifiedChain

/-!
# Depths and the active chain

A wallet follows a chain when the state of every transaction says what the chain
says: confirmed at a height if the transaction is in the chain there, conflicted at
a height if that is where the first conflict with the transaction or with one it is
made from stands, and neither otherwise.

Connecting a block keeps this, one transaction of the block after the other. Taking
a block away does not clear the marks of the conflicts it caused. A mark that has
outlived its block is stale: its height is that of the next block, and it is right
again only if the next block conflicts as well.
-/

namespace Lithium.WalletView
open Relation TxState
variable {a t : Uint256} {x tx : CTransaction} {s : TxState}
  {U : Set CTransaction} {X E : Set Uint256} {chain chain' : List BlockInfo}
  {v v' : WalletView} {m : Int}

/-! ### Conflicts -/

/-- A different transaction of the block at the height spends what the transaction
spends. -/
def Rival (v : WalletView) (chain : List BlockInfo) (height : Int) (a : Uint256) : Prop :=
  ∃ tx s, v.entry a = some (tx, s) ∧ tx.isCoinBase = false ∧
    ∃ o, tx.Spends o ∧ ∃ x, Occurs chain height x ∧ x.Spends o ∧ x.getHash ≠ a

variable {height : Int}

/-- The transaction, or one it is made from within the wallet, has a rival in the
block at the height. -/
def ConflictAt (v : WalletView) (chain : List BlockInfo) (t : Uint256) (height : Int) : Prop :=
  ∃ a, ReflTransGen v.WalletChild a t ∧ v.Rival chain height a

section
variable (h : ∀ height x, Occurs chain height x → Occurs chain' height x)

include h

theorem Rival.mono (hrival : v.Rival chain height a) : v.Rival chain' height a := by
  obtain ⟨tx, s, hent, hcb, o, ho, x, hx, hxo, hne⟩ := hrival
  exact ⟨tx, s, hent, hcb, o, ho, x, h _ _ hx, hxo, hne⟩

theorem ConflictAt.mono (hconf : v.ConflictAt chain t height) : v.ConflictAt chain' t height := by
  obtain ⟨a, hpath, hrival⟩ := hconf
  exact ⟨a, hpath, hrival.mono h⟩

end

theorem ConflictAt.cons {b : BlockInfo} (hconf : v.ConflictAt chain t height) :
    v.ConflictAt (b :: chain) t height :=
  hconf.mono fun _ _ hy => occurs_cons.mpr (.inr hy)

theorem ConflictAt.push {b : BlockInfo} (hconf : v.ConflictAt (b :: chain) t height) :
    v.ConflictAt (b.push x :: chain) t height :=
  hconf.mono fun _ _ hy => occurs_push.mpr (.inl hy)

theorem SameTxs.rival (h : v.SameTxs v') (hrival : v.Rival chain height a) :
    v'.Rival chain height a := by
  obtain ⟨tx, s, hent, hrest⟩ := hrival
  obtain ⟨s', hent'⟩ := h.entry hent
  exact ⟨tx, s', hent', hrest⟩

theorem SameTxs.conflictAt_iff (h : v.SameTxs v') :
    v'.ConflictAt chain t height ↔ v.ConflictAt chain t height := by
  constructor
  · rintro ⟨a, hpath, hrival⟩
    exact ⟨a, h.symm.path hpath, h.symm.rival hrival⟩
  · rintro ⟨a, hpath, hrival⟩
    exact ⟨a, h.path hpath, h.rival hrival⟩

section Chain
variable (hU : TxUniverse U) (hval : NotifiedChain chain) (hlink : v.Linked U)
  (hchain : ∀ {height x}, Occurs chain height x → x ∈ U)

include hU hval hlink hchain

/-- What a wallet transaction of the chain spends from is in the chain. -/
theorem inChain_of_spent {o : COutPoint} (h : (o, a) ∈ v.spends) (ha : InChain chain a) :
    InChain chain o.hash := by
  obtain ⟨height, x, hx, rfl⟩ := ha
  obtain ⟨hcb, hsp⟩ := hlink.spends_of_mem hU (hchain hx) h
  exact hval.inChain_of_spends hx hcb hsp

theorem inChain_of_walletChild {c d : Uint256} (h : v.WalletChild c d) (hd : InChain chain d) :
    InChain chain c := by
  obtain ⟨⟨-, -, -, i, -, hmem⟩, -⟩ := h
  exact inChain_of_spent hU hval hlink hchain hmem hd

theorem inChain_of_path (h : ReflTransGen v.WalletChild a t) (ht : InChain chain t) :
    InChain chain a := by
  induction h using ReflTransGen.head_induction_on with
  | refl => exact ht
  | head hch _ ih => exact inChain_of_walletChild hU hval hlink hchain hch ih

/-- A transaction of the chain has no rival in it. -/
theorem Rival.not_inChain (h : v.Rival chain height a) : ¬ InChain chain a := by
  rintro ⟨height', y, hy, rfl⟩
  obtain ⟨tx, s, hent, hcb, o, ho, x, hx, hxo, hne⟩ := h
  have hmem := (hlink.spends_iff o _).mpr ⟨tx, s, hent, hcb, ho⟩
  obtain ⟨hycoinbase, hyo⟩ := hlink.spends_of_mem hU (hchain hy) hmem
  exact hne (hval.spender_unique hy hx hycoinbase hyo hxo).symm

theorem ConflictAt.not_inChain (h : v.ConflictAt chain t height) : ¬ InChain chain t := by
  obtain ⟨a, hpath, hrival⟩ := h
  exact fun ht => hrival.not_inChain hU hval hlink hchain
    (inChain_of_path hU hval hlink hchain hpath ht)

end Chain

theorem ConflictAt.exists_occurs (h : v.ConflictAt chain t height) :
    ∃ x, Occurs chain height x := by
  obtain ⟨-, -, -, -, -, -, -, -, x, hx, -⟩ := h
  exact ⟨x, hx⟩

/-! ### States that agree with the chain -/

/-- The state says what the chain says. -/
def Settled (v : WalletView) (chain : List BlockInfo) (t : Uint256) : TxState → Prop
  | .confirmed _ height _ => ∃ x, Occurs chain height x ∧ x.getHash = t
  | .conflicted _ height => ¬ InChain chain t ∧ v.ConflictAt chain t height ∧
      ∀ h < height, ¬ v.ConflictAt chain t h
  | _ => ¬ InChain chain t ∧ ∀ h, ¬ v.ConflictAt chain t h

/-- A mark at the height `m` for which there is no conflict. -/
def Stale (v : WalletView) (chain : List BlockInfo) (m : Int) (t : Uint256) (s : TxState) : Prop :=
  (∃ b, s = .conflicted b m) ∧ ¬ InChain chain t ∧ ∀ h, ¬ v.ConflictAt chain t h

def Agrees (v : WalletView) (chain : List BlockInfo) (m : Int) (t : Uint256) (s : TxState) : Prop :=
  v.Settled chain t s ∨ v.Stale chain m t s

theorem Agrees.confirmed_of_inChain (h : v.Agrees chain m t s) (ht : InChain chain t) :
    ∃ b height i, s = .confirmed b height i := by
  rcases h with h | ⟨-, hnot, -⟩
  · cases s with
    | confirmed b height i => exact ⟨b, height, i, rfl⟩
    | conflicted b height | inMempool | inactive abandoned | unrecognized b i => exact absurd ht h.1
  · exact absurd ht hnot

/-- A transaction is free of excluded ones if it is not made from one. -/
def Clean (X : Set Uint256) (v : WalletView) (t : Uint256) : Prop :=
  ∀ a, ReflTransGen v.WalletChild a t → a ∉ X

theorem Clean.of_path (h : v.Clean X t) (hpath : ReflTransGen v.WalletChild a t) :
    v.Clean X a := fun b hb => h b (hb.trans hpath)

theorem SameTxs.clean_iff (h : v.SameTxs v') : v'.Clean X t ↔ v.Clean X t :=
  ⟨fun hc a hpath => hc a (h.path hpath), fun hc a hpath => hc a (h.symm.path hpath)⟩

/-- The wallet agrees with the chain on the transactions that are not made from those
of `X`, those of `E` apart; marks at the height `m` may be stale. Marks are passed on
to what is made from a marked transaction. -/
structure Follows (U : Set CTransaction) (X E : Set Uint256) (chain : List BlockInfo) (m : Int)
    (v : WalletView) : Prop where
  linked : v.Linked U
  height : v.height = chain.length - 1
  inU : ∀ {height x}, Occurs chain height x → x ∈ U
  agrees : ∀ {t tx s}, v.entry t = some (tx, s) → tx.isCoinBase = false → v.Clean X t → t ∉ E →
    v.Agrees chain m t s
  mono : ∀ {c d tx s tx' s'}, v.WalletChild c d → v.Clean X d → v.entry c = some (tx, s) →
    tx.isCoinBase = false → v.entry d = some (tx', s') → ∀ {b h}, s = .conflicted b h →
    ∃ b' h', s' = .conflicted b' h' ∧ h' ≤ h

section
variable (hval : NotifiedChain chain)

include hval

/-- Where states agree, a transaction that is not above `-1` is marked. -/
theorem Agrees.conflicted_of_not_above
    (hht : v.height = chain.length - 1) (h : v.Agrees chain m t s)
    (hent : v.entry t = some (tx, s)) (hnot : ¬ v.Above (-1) t) :
    ∃ b height, s = .conflicted b height := by
  have hdepth : s.depth v.height ≤ -1 := by
    by_contra hlt
    exact hnot ⟨tx, s, hent, by omega⟩
  cases s with
  | confirmed b height i =>
    rcases h with ⟨x, hx, -⟩ | ⟨⟨b', hb'⟩, -⟩
    · have hlt := hval.occurs_lt hx
      simp only [depth] at hdepth
      omega
    · cases hb'
  | conflicted b height => exact ⟨b, height, rfl⟩
  | inMempool => exact absurd hdepth (by simp [depth])
  | inactive abandoned => exact absurd hdepth (by simp [depth])
  | unrecognized b i => exact absurd hdepth (by simp [depth])

/-- A mark that agrees is at most at the height of the last block, or at `m`. -/
theorem Agrees.mark_le {b : Uint256} (h : v.Agrees chain m t (.conflicted b height)) :
    height < chain.length ∨ height = m := by
  rcases h with ⟨-, hconf, -⟩ | ⟨⟨b', hb'⟩, -⟩
  · obtain ⟨x, hx⟩ := hconf.exists_occurs
    exact .inl (hval.occurs_lt hx).2
  · cases hb'
    exact .inr rfl

theorem Agrees.not_above (hht : v.height = chain.length - 1) (hm : m ≤ v.height) {b : Uint256}
    (h : v.Agrees chain m t (.conflicted b height))
    (hent : v.entry t = some (tx, .conflicted b height)) : ¬ v.Above (-1) t := by
  refine not_above_of_entry hent ?_
  have hle := h.mark_le hval
  simp only [depth]
  omega

end

/-! ### One transaction of a connected block strikes -/

/-- The block is connected up to the transactions before `x`, and `x` strikes. -/
structure Striking (U : Set CTransaction) (X : Set Uint256) (chain : List BlockInfo) (b : BlockInfo)
    (x : CTransaction) (hashBlock : Uint256) (ids : List Uint256) (v v₁ : WalletView) : Prop where
  same_ids : TxUniverse U
  follows : v.Follows U X ∅ (b :: chain) b.height
  before : NotifiedChain (b :: chain)
  valid : NotifiedChain (b.push x :: chain)
  fits : FitsAfter (b :: chain) x
  mem : x ∈ U
  mem_ids : ∀ a, a ∈ ids ↔ (∃ o, x.Spends o ∧ (o, a) ∈ v.spends) ∧ a ≠ x.getHash
  struck : StruckBy (.conflicted hashBlock b.height) ids v v₁

namespace Striking
variable {b : BlockInfo} {x : CTransaction} {hashBlock : Uint256} {ids : List Uint256}
    {v₁ : WalletView}

section
variable (h : Striking U X chain b x hashBlock ids v v₁)

include h

theorem height_eq : v.height = b.height := by
  rw [h.follows.height, h.before.height_eq, List.length_cons]
  omega

theorem occurs_le {y : CTransaction} (hy : Occurs (b :: chain) height y) : height ≤ b.height := by
  have hlt := (h.before.occurs_lt hy).2
  rw [List.length_cons] at hlt
  rw [h.before.height_eq]
  omega

theorem inU {y : CTransaction} (hy : Occurs (b.push x :: chain) height y) : y ∈ U := by
  rcases occurs_push.mp hy with hy | ⟨-, rfl⟩
  · exact h.follows.inU hy
  · exact h.mem

/-- The transactions that are struck are those with a rival in the new transaction. -/
theorem rival_of_mem (ha : a ∈ ids) : v.Rival (b.push x :: chain) b.height a := by
  obtain ⟨⟨o, ho, hmem⟩, hne⟩ := (h.mem_ids a).mp ha
  obtain ⟨tx, s, hent, hcb, hsp⟩ := (h.follows.linked.spends_iff o a).mp hmem
  exact ⟨tx, s, hent, hcb, o, hsp, x, occurs_push_self chain b x, ho, Ne.symm hne⟩

theorem conflictAt_cases (hconf : v.ConflictAt (b.push x :: chain) t height) :
    v.ConflictAt (b :: chain) t height ∨
      height = b.height ∧ ∃ a ∈ ids, ReflTransGen v.WalletChild a t := by
  obtain ⟨a, hpath, tx, s, hent, hcb, o, ho, y, hy, hyo, hne⟩ := hconf
  rcases occurs_push.mp hy with hy | ⟨rfl, rfl⟩
  · exact .inl ⟨a, hpath, tx, s, hent, hcb, o, ho, y, hy, hyo, hne⟩
  · refine .inr ⟨rfl, a, (h.mem_ids a).mpr ⟨⟨o, hyo, ?_⟩, Ne.symm hne⟩, hpath⟩
    exact (h.follows.linked.spends_iff o a).mpr ⟨tx, s, hent, hcb, ho⟩

/-- The wallet transactions below one that is struck are not coinbases. -/
theorem not_coinBase (ha : a ∈ ids) (hpath : ReflTransGen v.WalletChild a t) :
    ∃ tx s, v.entry t = some (tx, s) ∧ tx.isCoinBase = false := by
  rcases hpath.cases_tail with rfl | ⟨c, -, hch⟩
  · obtain ⟨tx, s, hent, hcb, -⟩ := h.rival_of_mem ha
    exact ⟨tx, s, hent, hcb⟩
  · obtain ⟨tx, s, hent, hcb, -⟩ := h.follows.linked.child hch.1
    exact ⟨tx, s, hent, hcb⟩

/-- Everything made from a struck transaction ends up not above `-1`. -/
theorem not_above_of_path (ha : a ∈ ids)
    (hpath : ReflTransGen v.WalletChild a t) (hcl : v.Clean X t) : ¬ v₁.Above (-1) t := by
  induction hpath with
  | refl => exact h.struck.start a ha
  | @tail c d hac hcd ih =>
    have hcleanc : v.Clean X c := hcl.of_path (.single hcd)
    have hnot := ih hcleanc
    by_cases hsame : v₁.entry c = v.entry c
    · -- the mark is an old one, and old marks have been passed on
      rw [above_congr hsame h.struck.height] at hnot
      obtain ⟨tx, s, hent, hcb⟩ := h.not_coinBase ha hac
      have hagrees := h.follows.agrees hent hcb hcleanc (Set.notMem_empty c)
      obtain ⟨b', height, rfl⟩ :=
        hagrees.conflicted_of_not_above h.before h.follows.height hent hnot
      obtain ⟨txd, sd, hentryd, hcoinbased, -⟩ := h.follows.linked.child hcd.1
      obtain ⟨bd, hd, rfl, -⟩ := h.follows.mono hcd hcl hent hcb hentryd rfl
      have hagreesd := h.follows.agrees hentryd hcoinbased hcl (Set.notMem_empty d)
      exact h.struck.not_above (hagreesd.not_above h.before h.follows.height h.height_eq.ge hentryd)
    · exact h.struck.child c d hsame hcd.1

/-- A transaction that changes has a conflict now and is not in the chain. -/
theorem changed (hchanged : v₁.entry t ≠ v.entry t) : v.Above (-1) t ∧
      (∃ tx, v₁.entry t = some (tx, .conflicted hashBlock b.height)) ∧
      v.ConflictAt (b.push x :: chain) t b.height := by
  obtain ⟨habove, hnew, a, ha, hpath⟩ := (h.struck.entry t).resolve_left hchanged
  exact ⟨habove, hnew, a, hpath, h.rival_of_mem ha⟩

theorem not_inChain_of_conflictAt (hconf : v.ConflictAt (b.push x :: chain) t height) :
    ¬ InChain (b.push x :: chain) t :=
  hconf.not_inChain h.same_ids h.valid h.follows.linked h.inU

/-- What the strike does to the agreement of one transaction other than `x`. -/
theorem agrees (hent : v₁.entry t = some (tx, s))
    (hcb : tx.isCoinBase = false) (hcl : v.Clean X t) (hne : t ≠ x.getHash) :
    v₁.Agrees (b.push x :: chain) b.height t s := by
  obtain ⟨s₀, hent₀⟩ := h.struck.same.symm.entry hent
  have hagrees := h.follows.agrees hent₀ hcb hcl (Set.notMem_empty t)
  have hinChain : InChain (b.push x :: chain) t ↔ InChain (b :: chain) t := by
    rw [inChain_push, or_iff_left (Ne.symm hne)]
  have hnotMarked : ∀ {s' : TxState}, v₁.entry t = some (tx, s') → -1 < s'.depth v₁.height →
      ∀ height, v.ConflictAt (b.push x :: chain) t height → v.ConflictAt (b :: chain) t height := by
    intro s' hent' hdepth height hconf
    rcases h.conflictAt_cases hconf with hold | ⟨-, a, ha, hpath⟩
    · exact hold
    · exact absurd ⟨tx, s', hent', hdepth⟩ (h.not_above_of_path ha hpath hcl)
  simp only [Agrees, Settled, Stale, h.struck.same.conflictAt_iff]
  by_cases hsame : v₁.entry t = v.entry t
  · rw [hent, hent₀] at hsame
    cases hsame
    cases s with
    | confirmed b' height i =>
      rcases hagrees with ⟨y, hy, hyt⟩ | ⟨⟨b'', hb''⟩, -⟩
      · exact .inl ⟨y, occurs_push.mpr (.inl hy), hyt⟩
      · cases hb''
    | conflicted b' height =>
      rcases hagrees with ⟨hnot, hconf, hfst⟩ | ⟨⟨b'', hb''⟩, hnot, hnone⟩
      · refine .inl ⟨by rwa [hinChain], hconf.push, fun h' hlt hconf' => ?_⟩
        obtain ⟨y, hy⟩ := hconf.exists_occurs
        have hle := h.occurs_le hy
        rcases h.conflictAt_cases hconf' with hold | ⟨rfl, -⟩
        · exact hfst h' hlt hold
        · omega
      · cases hb''
        by_cases hnew : ∃ height, v.ConflictAt (b.push x :: chain) t height
        · obtain ⟨height, hnew⟩ := hnew
          rcases h.conflictAt_cases hnew with hold | ⟨rfl, -⟩
          · exact absurd hold (hnone height)
          · refine .inl ⟨by rwa [hinChain], hnew, fun h' hlt hconf' => ?_⟩
            rcases h.conflictAt_cases hconf' with hold | ⟨rfl, -⟩
            · exact hnone h' hold
            · exact absurd hlt (lt_irrefl _)
        · exact .inr ⟨⟨b', rfl⟩, by rwa [hinChain], fun height hc => hnew ⟨height, hc⟩⟩
    | inMempool | inactive abandoned | unrecognized b' i =>
      rcases hagrees with ⟨hnot, hnone⟩ | ⟨⟨b'', hb''⟩, -⟩
      · exact .inl ⟨by rwa [hinChain], fun height hc =>
          hnone height (hnotMarked hent (by simp [depth]) height hc)⟩
      · cases hb''
  · -- a changed transaction was neither in the chain nor in conflict with it
    obtain ⟨habove, ⟨tx', hnew⟩, hconf⟩ := h.changed hsame
    rw [hent] at hnew
    cases hnew
    have hnot := h.not_inChain_of_conflictAt hconf
    refine .inl ⟨hnot, hconf, fun h' hlt hconf' => ?_⟩
    rcases h.conflictAt_cases hconf' with hold | ⟨rfl, -⟩
    · have hnone : ∀ height, ¬ v.ConflictAt (b :: chain) t height := by
        rcases hagrees with hset | ⟨-, -, hnone⟩
        · cases s₀ with
          | confirmed b' height i =>
            obtain ⟨y, hy, rfl⟩ := hset
            exact absurd (hinChain.mpr hy.inChain) hnot
          | conflicted b' height =>
            have hmark : v.Agrees (b :: chain) b.height t (.conflicted b' height) := .inl hset
            exact absurd habove (hmark.not_above h.before h.follows.height h.height_eq.ge hent₀)
          | inMempool | inactive abandoned | unrecognized b' i => exact hset.2
        · exact hnone
      exact hnone h' hold
    · exact absurd hlt (lt_irrefl _)

/-- Marks are passed on after the strike as well. -/
theorem mono {c d : Uint256} {tx' : CTransaction} {s' : TxState} (hch : v.WalletChild c d)
    (hcl : v.Clean X d) (hc : v₁.entry c = some (tx, s)) (hcb : tx.isCoinBase = false)
    (hd : v₁.entry d = some (tx', s')) {b' : Uint256} (hs : s = .conflicted b' height) :
    ∃ b'' height', s' = .conflicted b'' height' ∧ height' ≤ height := by
  subst hs
  obtain ⟨s₀, hc₀⟩ := h.struck.same.symm.entry hc
  obtain ⟨s₀', hd₀⟩ := h.struck.same.symm.entry hd
  have hcb' : tx'.isCoinBase = false := by
    obtain ⟨txd, sd, hentryd, hcoinbased, -⟩ := h.follows.linked.child hch.1
    rw [hd₀] at hentryd
    cases hentryd
    exact hcoinbased
  have hagreesd := h.follows.agrees hd₀ hcb' hcl (Set.notMem_empty d)
  by_cases hsamec : v₁.entry c = v.entry c
  · rw [hc, hc₀] at hsamec
    cases hsamec
    obtain ⟨bd, hd', rfl, hle⟩ := h.follows.mono hch hcl hc₀ hcb hd₀ rfl
    have hsamed := h.struck.entry_of_not_above
      (hagreesd.not_above h.before h.follows.height h.height_eq.ge hd₀)
    rw [hd, hd₀] at hsamed
    cases hsamed
    exact ⟨bd, hd', rfl, hle⟩
  · have hnot := h.struck.child c d hsamec hch.1
    obtain ⟨-, ⟨tx'', hnew⟩, -⟩ := h.changed hsamec
    rw [hc] at hnew
    cases hnew
    by_cases hsamed : v₁.entry d = v.entry d
    · rw [above_congr hsamed h.struck.height] at hnot
      rw [hd, hd₀] at hsamed
      cases hsamed
      obtain ⟨bd, hd', rfl⟩ := hagreesd.conflicted_of_not_above h.before h.follows.height hd₀ hnot
      have hle := hagreesd.mark_le h.before
      rw [List.length_cons] at hle
      have hb := h.before.height_eq
      exact ⟨bd, hd', rfl, by omega⟩
    · obtain ⟨-, ⟨tx'', hnew⟩, -⟩ := h.changed hsamed
      rw [hd] at hnew
      cases hnew
      exact ⟨_, _, rfl, le_rfl⟩

/-- After the strike the wallet follows the chain with the new transaction, that
transaction itself apart. -/
theorem follows_after : v₁.Follows U X {x.getHash} (b.push x :: chain) b.height := by
  refine ⟨h.struck.same.linked h.follows.linked, ?_, h.inU, ?_, ?_⟩
  · rw [h.struck.height, h.follows.height, List.length_cons, List.length_cons]
  · intro t tx s hent hcb hcl hne
    exact h.agrees hent hcb (h.struck.same.clean_iff.mp hcl) hne
  · intro c d tx s tx' s' hch hcl hc hcb hd b' height hs
    exact h.mono (h.struck.same.symm.walletChild hch) (h.struck.same.clean_iff.mp hcl) hc
      hcb hd hs

end
end Striking

/-! ### Storing transactions of a chain -/

/-- The second wallet has entries for more transactions, with ids in `T`; the others
keep theirs. -/
structure Extends (T : Set Uint256) (v v' : WalletView) : Prop where
  height : v'.height = v.height
  entry : ∀ t ∉ T, v'.entry t = v.entry t
  child : ∀ {c d}, v.WalletChild c d → v'.WalletChild c d
  child_cases : ∀ {c d}, v'.WalletChild c d → v.WalletChild c d ∨ c ∈ T ∨ d ∈ T
  rival : ∀ {chain height a}, v.Rival chain height a → v'.Rival chain height a

namespace Extends
variable {T : Set Uint256}

theorem refl (T : Set Uint256) (v : WalletView) : v.Extends T v :=
  ⟨rfl, fun _ _ => rfl, id, .inl, id⟩

theorem path (h : v.Extends T v') (hpath : ReflTransGen v.WalletChild a t) :
    ReflTransGen v'.WalletChild a t := hpath.lift id fun _ _ hd => h.child hd

theorem clean (h : v.Extends T v') (hcl : v'.Clean X t) : v.Clean X t :=
  fun a hpath => hcl a (h.path hpath)

theorem rival_of_notMem (h : v.Extends T v') (ha : a ∉ T) (hrival : v'.Rival chain height a) :
    v.Rival chain height a := by
  obtain ⟨tx, s, hent, hrest⟩ := hrival
  rw [h.entry a ha] at hent
  exact ⟨tx, s, hent, hrest⟩

section Chain
variable (hU : TxUniverse U) (hval : NotifiedChain chain) (hlink : v'.Linked U)
  (hchain : ∀ {height x}, Occurs chain height x → x ∈ U) (hT : ∀ t ∈ T, InChain chain t)

include hU hval hlink hchain hT

/-- A path in the larger wallet was there before or begins in the chain. -/
theorem path_cases (hcases : ∀ {c d}, v'.WalletChild c d → v.WalletChild c d ∨ c ∈ T ∨ d ∈ T)
    (hpath : ReflTransGen v'.WalletChild a t) :
    ReflTransGen v.WalletChild a t ∨ InChain chain a := by
  induction hpath using ReflTransGen.head_induction_on with
  | refl => exact .inl .refl
  | head hch _ ih =>
    rcases ih with hold | hin
    · rcases hcases hch with hch' | ha | hc
      · exact .inl (.head hch' hold)
      · exact .inr (hT _ ha)
      · exact .inr (inChain_of_walletChild hU hval hlink hchain hch (hT _ hc))
    · exact .inr (inChain_of_walletChild hU hval hlink hchain hch hin)

/-- Transactions of a chain bring no conflicts with it, nor with a part of it. -/
theorem conflictAt_iff (h : v.Extends T v')
    (hsub : ∀ height x, Occurs chain' height x → Occurs chain height x) :
    v'.ConflictAt chain' t height ↔ v.ConflictAt chain' t height := by
  constructor
  · rintro ⟨a, hpath, hrival⟩
    have hnot := (hrival.mono hsub).not_inChain hU hval hlink hchain
    refine ⟨a, (path_cases hU hval hlink hchain hT h.child_cases hpath).resolve_right hnot, ?_⟩
    exact h.rival_of_notMem (fun ha => hnot (hT a ha)) hrival
  · rintro ⟨a, hpath, hrival⟩
    exact ⟨a, h.path hpath, h.rival hrival⟩

end Chain
end Extends

/-- Storing a transaction extends the wallet. -/
theorem Stored.extends (hU : TxUniverse U) (hsto : v.Stored x s v') (hx : x ∈ U)
    (hlink : v.Linked U) : v.Extends {x.getHash} v' := by
  have hlink' := hsto.linked hU hx hlink
  have hent : ∀ t ≠ x.getHash, v'.entry t = v.entry t := by
    intro t ht
    cases hsto with
    | fresh | changed | kept => exact setEntry_entry_of_ne _ _ ht
  have hht : v'.height = v.height := by cases hsto <;> rfl
  have hsp : ∀ o t, (o, t) ∈ v.spends → (o, t) ∈ v'.spends := by
    intro o t hmem
    cases hsto with
    | fresh => exact mem_spends_stored.mpr (.inl hmem)
    | changed | kept => exact hmem
  have hsp' : ∀ o t, t ≠ x.getHash → (o, t) ∈ v'.spends → (o, t) ∈ v.spends := by
    intro o t ht hmem
    cases hsto with
    | fresh => exact (mem_spends_stored.mp hmem).resolve_right fun hright => ht hright.2.2.symm
    | changed | kept => exact hmem
  -- the entry under the id is there afterwards, with the same inputs and outputs
  have hbody : ∀ {t tx s₀}, v.entry t = some (tx, s₀) → ∃ tx' s', v'.entry t = some (tx', s') ∧
      tx'.vout = tx.vout ∧ tx'.isCoinBase = tx.isCoinBase ∧ ∀ o, tx'.Spends o ↔ tx.Spends o := by
    intro t tx s₀ ht
    by_cases htx : t = x.getHash
    · obtain ⟨tx', s', ht'⟩ := hsto.exists_entry
      rw [← htx] at ht'
      obtain ⟨htxU, hhash⟩ := hlink.known ht
      obtain ⟨htxU', hhash'⟩ := hlink'.known ht'
      have hsame : tx'.getHash = tx.getHash := hhash'.trans hhash.symm
      exact ⟨tx', s', ht', hU.vout _ htxU' _ htxU hsame, hU.isCoinBase_eq htxU' htxU hsame,
        hU.spends_iff htxU' htxU hsame⟩
    · exact ⟨tx, s₀, by rw [hent t htx, ht], rfl, rfl, fun _ => Iff.rfl⟩
  refine ⟨hht, hent, ?_, ?_, ?_⟩
  · rintro c d ⟨⟨tx, s₀, hc, i, hi, hmem⟩, ⟨txd, sd⟩, hd⟩
    obtain ⟨tx', s', hc', hvout, -⟩ := hbody hc
    obtain ⟨txd', sd', hd', -⟩ := hbody hd
    exact ⟨⟨tx', s', hc', i, by rwa [hvout], hsp _ _ hmem⟩, _, hd'⟩
  · rintro c d ⟨⟨tx, s₀, hc, i, hi, hmem⟩, e, hd⟩
    by_cases hcx : c = x.getHash
    · exact .inr (.inl hcx)
    · by_cases hdx : d = x.getHash
      · exact .inr (.inr hdx)
      · rw [hent c hcx] at hc
        rw [hent d hdx] at hd
        exact .inl ⟨⟨tx, s₀, hc, i, hi, hsp' _ _ hdx hmem⟩, e, hd⟩
  · rintro chain height a ⟨tx, s₀, ha, hcb, o, ho, y, hy⟩
    obtain ⟨tx', s', ha', -, hcb', hsp⟩ := hbody ha
    exact ⟨tx', s', ha', by rw [hcb', hcb], o, (hsp o).mpr ho, y, hy⟩

/-- Storing the transaction that has been apart, as confirmed where it is. -/
theorem Follows.store (hU : TxUniverse U) (hval : NotifiedChain chain)
    (h : v.Follows U X {x.getHash} chain m) (hext : v.Extends {x.getHash} v')
    (hlink : v'.Linked U) (hx : Occurs chain height x)
    (hst : ∀ {tx s}, v'.entry x.getHash = some (tx, s) → tx.isCoinBase = false →
      v'.Clean X x.getHash → ∃ b i, s = .confirmed b height i) : v'.Follows U X ∅ chain m := by
  have hT : ∀ t ∈ ({x.getHash} : Set Uint256), InChain chain t := by
    rintro t rfl
    exact hx.inChain
  have hconf : ∀ {t h'}, v'.ConflictAt chain t h' ↔ v.ConflictAt chain t h' :=
    hext.conflictAt_iff hU hval hlink h.inU hT fun _ _ hy => hy
  refine ⟨hlink, hext.height.trans h.height, h.inU, ?_, ?_⟩
  · intro t tx s hent hcb hcl _
    by_cases htx : t = x.getHash
    · subst htx
      obtain ⟨b, i, rfl⟩ := hst hent hcb hcl
      exact .inl ⟨x, hx, rfl⟩
    · rw [hext.entry t htx] at hent
      have hagrees := h.agrees hent hcb (hext.clean hcl) htx
      simp only [Agrees, Settled, Stale, hconf]
      exact hagrees
  · intro c d tx s tx' s' hch hcl hc hcb hd b height' hs
    have hcleanc : v'.Clean X c := hcl.of_path (.single hch)
    by_cases hcx : c = x.getHash
    · subst hcx
      obtain ⟨b', i, hs'⟩ := hst hc hcb hcleanc
      rw [hs] at hs'
      cases hs'
    · rw [hext.entry c hcx] at hc
      have hagrees := h.agrees hc hcb (hext.clean hcleanc) hcx
      have hdx : d ≠ x.getHash := by
        rintro rfl
        have hin := inChain_of_walletChild hU hval hlink h.inU hch hx.inChain
        obtain ⟨b', h', i, hs'⟩ := hagrees.confirmed_of_inChain hin
        rw [hs] at hs'
        cases hs'
      rw [hext.entry d hdx] at hd
      have hch' : v.WalletChild c d := by
        rcases hext.child_cases hch with hch' | hmem | hmem
        · exact hch'
        · exact absurd hmem hcx
        · exact absurd hmem hdx
      exact h.mono hch' (hext.clean hcl) hc hcb hd hs

end Lithium.WalletView
