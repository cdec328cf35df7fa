import Lithium.Wallet.Sync

/-!
# The chain a wallet has been told about

The active chain as the notifications describe it: blocks with their heights, the
tip first. A transaction enters such a chain behind others whose outputs it spends
and of which none has spent them before. Two transactions of a chain therefore
never spend the same outpoint, and whatever a transaction of the chain was made
from is in the chain as well.
-/

namespace Lithium
open List BlockInfo CTransaction
variable {chain : List BlockInfo} {b : BlockInfo} {height : Int} {x y : CTransaction}
  {o : COutPoint}

/-- The transaction is in the block at the height. -/
def Occurs (chain : List BlockInfo) (height : Int) (x : CTransaction) : Prop :=
  ∃ b ∈ chain, b.height = height ∧ x ∈ b.vtx

def InChain (chain : List BlockInfo) (t : Uint256) : Prop :=
  ∃ height x, Occurs chain height x ∧ x.getHash = t

/-- The block with one more transaction. -/
def BlockInfo.push (b : BlockInfo) (x : CTransaction) : BlockInfo := { b with vtx := b.vtx ++ [x] }

/-- The transaction may come next in the chain. -/
structure FitsAfter (chain : List BlockInfo) (x : CTransaction) : Prop where
  fresh : ¬ InChain chain x.getHash
  unspent : x.isCoinBase = false → ∀ o, x.Spends o → ∀ height y, Occurs chain height y →
    ¬ y.Spends o
  created : x.isCoinBase = false → ∀ o, x.Spends o → InChain chain o.hash
  notNull : x.isCoinBase = false → ∀ o, x.Spends o → o.isNull = false

/-- The chains that consist of blocks in order, with transactions that fit one after
the other; only the first of a block may be a coinbase. -/
inductive NotifiedChain : List BlockInfo → Prop
  | nil : NotifiedChain []
  | block {chain : List BlockInfo} {b : BlockInfo} : NotifiedChain chain → b.height = chain.length →
      b.vtx = [] → NotifiedChain (b :: chain)
  | push {chain : List BlockInfo} {b : BlockInfo} {x : CTransaction} : NotifiedChain (b :: chain) →
      FitsAfter (b :: chain) x → (b.vtx ≠ [] → x.isCoinBase = false) →
      NotifiedChain (b.push x :: chain)

theorem occurs_cons :
    Occurs (b :: chain) height x ↔ (b.height = height ∧ x ∈ b.vtx) ∨ Occurs chain height x := by
  simp [Occurs]

theorem occurs_push : Occurs (b.push x :: chain) height y ↔
      Occurs (b :: chain) height y ∨ (b.height = height ∧ y = x) := by
  rw [occurs_cons, occurs_cons, push]
  simp only [mem_append, mem_singleton]
  tauto

theorem occurs_empty (h : b.vtx = []) : Occurs (b :: chain) height x ↔ Occurs chain height x := by
  rw [occurs_cons, h]
  simp

theorem Occurs.inChain (h : Occurs chain height x) : InChain chain x.getHash := ⟨height, x, h, rfl⟩

theorem inChain_push {t : Uint256} :
    InChain (b.push x :: chain) t ↔ InChain (b :: chain) t ∨ x.getHash = t := by
  constructor
  · rintro ⟨height, y, hocc, rfl⟩
    rcases occurs_push.mp hocc with hocc | ⟨-, rfl⟩
    · exact .inl hocc.inChain
    · exact .inr rfl
  · rintro (⟨height, y, hocc, rfl⟩ | rfl)
    · exact (occurs_push.mpr (.inl hocc)).inChain
    · exact (occurs_push.mpr (.inr ⟨rfl, rfl⟩)).inChain

theorem occurs_push_self (chain : List BlockInfo) (b : BlockInfo) (x : CTransaction) :
    Occurs (b.push x :: chain) b.height x := occurs_push.mpr (.inr ⟨rfl, rfl⟩)

/-- A coinbase spends the null outpoint only. -/
theorem CTransaction.isNull_of_coinBase (h : x.isCoinBase = true) (hsp : x.Spends o) :
    o.isNull = true := by
  obtain ⟨txin, hmem, rfl⟩ := hsp
  rw [isCoinBase] at h
  split at h
  · next hvin =>
    rw [hvin, mem_singleton] at hmem
    rwa [hmem]
  · cases h

namespace NotifiedChain
variable {chain : List BlockInfo}

theorem of_cons (h : NotifiedChain (b :: chain)) :
    b.height = chain.length ∧ NotifiedChain chain := by
  generalize hcons : b :: chain = chain' at h
  induction h generalizing b chain with
  | nil => cases hcons
  | block hchain hht _ _ =>
    cases hcons
    exact ⟨hht, hchain⟩
  | @push chain' b' x _ _ _ ih =>
    cases hcons
    obtain ⟨hb, hchain⟩ := ih (b := b') rfl
    exact ⟨hb, hchain⟩

theorem height_eq (h : NotifiedChain (b :: chain)) : b.height = chain.length := h.of_cons.1

theorem tail (h : NotifiedChain (b :: chain)) : NotifiedChain chain := h.of_cons.2

section
variable (h : NotifiedChain chain) (hx : Occurs chain height x)

include h hx

/-- Heights of a chain are below its length. -/
theorem occurs_lt : 0 ≤ height ∧ height < chain.length := by
  induction chain with
  | nil =>
    obtain ⟨b, hb, -⟩ := hx
    cases hb
  | cons b chain ih =>
    have hb := h.height_eq
    rw [length_cons]
    rcases occurs_cons.mp hx with ⟨rfl, -⟩ | hx
    · rw [hb]
      omega
    · have hlt := ih h.tail hx
      omega

/-- An id occurs at one height only. -/
theorem occurs_unique {height' : Int}
    (hy : Occurs chain height' y) (hhash : x.getHash = y.getHash) : height = height' := by
  induction h with
  | nil =>
    obtain ⟨b, hb, -⟩ := hx
    cases hb
  | block _ _ hemp ih => exact ih ((occurs_empty hemp).mp hx) ((occurs_empty hemp).mp hy)
  | push _ hfits _ ih =>
    rcases occurs_push.mp hx with hx₀ | ⟨hx₀, rfl⟩
    · rcases occurs_push.mp hy with hy₀ | ⟨-, rfl⟩
      · exact ih hx₀ hy₀
      · exact absurd (hhash ▸ hx₀.inChain) hfits.fresh
    · rcases occurs_push.mp hy with hy₀ | ⟨hy₀, -⟩
      · exact absurd (hhash ▸ hy₀.inChain) hfits.fresh
      · exact hx₀.symm.trans hy₀

theorem notNull (hcb : x.isCoinBase = false) (ho : x.Spends o) : o.isNull = false := by
  induction h with
  | nil =>
    obtain ⟨b, hb, -⟩ := hx
    cases hb
  | block _ _ hemp ih => exact ih ((occurs_empty hemp).mp hx)
  | push _ hfits _ ih =>
    rcases occurs_push.mp hx with hx | ⟨-, rfl⟩
    · exact ih hx
    · exact hfits.notNull hcb o ho

/-- No outpoint is spent twice. -/
theorem spender_unique {height' : Int}
    (hy : Occurs chain height' y) (hcb : x.isCoinBase = false) (hxo : x.Spends o)
    (hyo : y.Spends o) : x.getHash = y.getHash := by
  -- the other one is not a coinbase either
  have hnull := h.notNull hx hcb hxo
  have hcb' : y.isCoinBase = false := by
    by_contra hy
    rw [Bool.not_eq_false] at hy
    rw [isNull_of_coinBase hy hyo] at hnull
    cases hnull
  induction h with
  | nil =>
    obtain ⟨b, hb, -⟩ := hx
    cases hb
  | block _ _ hemp ih => exact ih ((occurs_empty hemp).mp hx) ((occurs_empty hemp).mp hy)
  | push _ hfits _ ih =>
    rcases occurs_push.mp hx with hx₀ | ⟨-, rfl⟩
    · rcases occurs_push.mp hy with hy₀ | ⟨-, rfl⟩
      · exact ih hx₀ hy₀
      · exact absurd hxo (hfits.unspent hcb' o hyo _ _ hx₀)
    · rcases occurs_push.mp hy with hy₀ | ⟨-, rfl⟩
      · exact absurd hyo (hfits.unspent hcb o hxo _ _ hy₀)
      · rfl

/-- What a transaction of the chain spends was made by one of the chain. -/
theorem inChain_of_spends
    (hcb : x.isCoinBase = false) (ho : x.Spends o) : InChain chain o.hash := by
  induction h with
  | nil =>
    obtain ⟨b, hb, -⟩ := hx
    cases hb
  | block _ _ hemp ih =>
    obtain ⟨height', y, hy, hhash⟩ := ih ((occurs_empty hemp).mp hx)
    exact ⟨height', y, (occurs_empty hemp).mpr hy, hhash⟩
  | push _ hfits _ ih =>
    rw [inChain_push]
    rcases occurs_push.mp hx with hx | ⟨-, rfl⟩
    · exact .inl (ih hx)
    · exact .inl (hfits.created hcb o ho)

end

/-! ### The transactions of the last block, one by one -/

variable {post pre : List CTransaction}

/-- The last transaction fits after the others. -/
theorem of_snoc (h : NotifiedChain ({ b with vtx := pre ++ [x] } :: chain)) :
    NotifiedChain ({ b with vtx := pre } :: chain) ∧
      FitsAfter ({ b with vtx := pre } :: chain) x ∧ (pre ≠ [] → x.isCoinBase = false) := by
  generalize hcons : { b with vtx := pre ++ [x] } :: chain = chain' at h
  cases h with
  | nil => cases hcons
  | block _ _ hemp =>
    cases hcons
    simp at hemp
  | @push chain₀ b₀ x₀ hval hfits hcb =>
    obtain ⟨b₀hash, b₀prev, b₀height, b₀vtx⟩ := b₀
    simp only [BlockInfo.push, List.cons.injEq, BlockInfo.mk.injEq] at hcons
    obtain ⟨⟨rfl, rfl, rfl, hvtx⟩, rfl⟩ := hcons
    obtain ⟨rfl, hx⟩ := append_inj' hvtx rfl
    cases hx
    exact ⟨hval, hfits, hcb⟩

/-- The block up to some of its transactions. -/
theorem of_append (h : NotifiedChain ({ b with vtx := pre ++ post } :: chain)) :
    NotifiedChain ({ b with vtx := pre } :: chain) := by
  induction post using reverseRecOn with
  | nil => rwa [append_nil] at h
  | append_singleton post x ih =>
    rw [← append_assoc] at h
    exact ih h.of_snoc.1

/-- The next transaction fits. -/
theorem fits_of_append (h : NotifiedChain ({ b with vtx := pre ++ x :: post } :: chain)) :
    FitsAfter ({ b with vtx := pre } :: chain) x ∧ (pre ≠ [] → x.isCoinBase = false) := by
  have h' : NotifiedChain ({ b with vtx := (pre ++ [x]) ++ post } :: chain) := by
    rwa [append_assoc]
  exact h'.of_append.of_snoc.2

/-! ### Checking a chain -/

/-- `FitsAfter` as a test. -/
def fitsCheck (chain : List BlockInfo) (x : CTransaction) : Bool :=
  let txs := chain.flatMap vtx
  !(txs.map getHash).contains x.getHash &&
    (x.isCoinBase || x.vin.all fun txin =>
      txs.all (fun y => !(y.vin.map CTxIn.prevout).contains txin.prevout) &&
        (txs.map getHash).contains txin.prevout.hash && !txin.prevout.isNull)

def blockCheck (chain : List BlockInfo) (b : BlockInfo) : List CTransaction → Bool
  | [] => true
  | x :: xs => fitsCheck (b :: chain) x && (b.vtx.isEmpty || !x.isCoinBase) &&
      blockCheck chain (b.push x) xs

def check : List BlockInfo → Bool
  | [] => true
  | b :: chain => check chain && decide (b.height = chain.length) &&
      blockCheck chain { b with vtx := [] } b.vtx

theorem mem_flatMap_vtx : y ∈ chain.flatMap vtx ↔ ∃ height, Occurs chain height y := by
  rw [mem_flatMap]
  exact ⟨fun ⟨b, hb, hy⟩ => ⟨b.height, b, hb, rfl, hy⟩, fun ⟨_, b, hb, _, hy⟩ => ⟨b, hb, hy⟩⟩

theorem inChain_iff {t : Uint256} : InChain chain t ↔ t ∈ (chain.flatMap vtx).map getHash := by
  simp only [mem_map, mem_flatMap_vtx]
  constructor
  · rintro ⟨height, y, hy, ht⟩
    exact ⟨y, ⟨height, hy⟩, ht⟩
  · rintro ⟨y, ⟨height, hy⟩, ht⟩
    exact ⟨height, y, hy, ht⟩

theorem fitsAfter_of_check (h : fitsCheck chain x = true) : FitsAfter chain x := by
  simp only [fitsCheck, Bool.and_eq_true, Bool.or_eq_true, Bool.not_eq_true', all_eq_true,
    contains_eq_mem, decide_eq_true_eq, decide_eq_false_iff_not] at h
  obtain ⟨hfr, hins⟩ := h
  have hinput : x.isCoinBase = false → ∀ o, x.Spends o →
      ((∀ y ∈ chain.flatMap vtx, o ∉ y.vin.map CTxIn.prevout) ∧
        o.hash ∈ (chain.flatMap vtx).map getHash) ∧ o.isNull = false := by
    rintro hcb o ⟨txin, hmem, rfl⟩
    exact hins.resolve_left (by rw [hcb]; exact Bool.false_ne_true) txin hmem
  refine ⟨fun hin => hfr (inChain_iff.mp hin), ?_, ?_, ?_⟩
  · intro hcb o ho height y hy hyo
    exact (hinput hcb o ho).1.1 y (mem_flatMap_vtx.mpr ⟨height, hy⟩) (spends_iff.mp hyo)
  · intro hcb o ho
    exact inChain_iff.mpr (hinput hcb o ho).1.2
  · intro hcb o ho
    exact (hinput hcb o ho).2

theorem of_blockCheck {xs : List CTransaction} (hb : NotifiedChain (b :: chain))
    (h : blockCheck chain b xs = true) :
    NotifiedChain ({ b with vtx := b.vtx ++ xs } :: chain) := by
  induction xs generalizing b with
  | nil => rwa [append_nil]
  | cons x xs ih =>
    simp only [blockCheck, Bool.and_eq_true, Bool.or_eq_true, List.isEmpty_iff,
      Bool.not_eq_true'] at h
    obtain ⟨⟨hfits, hfst⟩, hrest⟩ := h
    have hpush := NotifiedChain.push hb (fitsAfter_of_check hfits) fun hne =>
      hfst.resolve_left hne
    have happend := ih hpush hrest
    rwa [BlockInfo.push, List.append_assoc] at happend

theorem of_check (h : check chain = true) : NotifiedChain chain := by
  induction chain with
  | nil => exact .nil
  | cons b chain ih =>
    simp only [check, Bool.and_eq_true, decide_eq_true_eq] at h
    obtain ⟨⟨hchain, hht⟩, hblk⟩ := h
    have hemp : NotifiedChain ({ b with vtx := [] } :: chain) := .block (ih hchain) hht rfl
    exact of_blockCheck hemp hblk

end NotifiedChain
end Lithium
