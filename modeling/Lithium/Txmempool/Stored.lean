import Lithium.Txmempool.Totals

/-!
# What a pool stores besides links and totals

Every entry stands under the identifier of its transaction, `mapNextTx` has the spent
outputs with their spenders and nothing else, `vTxHashes` lists the entries once each,
and the two totals of the pool are sums over its entries. This does not depend on
links or on the totals of entries, so it is kept by all that changes only those, and by
the removal of any single entry.
-/

namespace Lithium
open Lib Finset OrdMap CTxMemPoolEntry List Option
namespace CTxMemPoolEntry

/-- An entry without its links and totals. -/
def core (e : CTxMemPoolEntry) : CTxMemPoolEntry :=
  { e with
    parents := ∅
    children := ∅
    nCountWithDescendants := 0
    nSizeWithDescendants := 0
    nModFeesWithDescendants := 0
    nCountWithAncestors := 0
    nSizeWithAncestors := 0
    nModFeesWithAncestors := 0
    nSigOpCostWithAncestors := 0 }

variable {e e' : CTxMemPoolEntry} (h : e'.core = e.core)

include h

theorem tx_eq_of_core : e'.tx = e.tx := congrArg (fun e => e.tx) h

theorem nFee_eq_of_core : e'.nFee = e.nFee := congrArg (fun e => e.nFee) h

theorem getTxSize_eq_of_core : e'.getTxSize = e.getTxSize := congrArg (fun e => e.getTxSize) h

theorem amounts_eq_of_core : e'.amounts = e.amounts := congrArg (fun e => e.amounts) h

/-- Links, totals and the rest make up an entry. -/
theorem ext_of_core (hpars : e'.parents = e.parents) (hchs : e'.children = e.children)
    (hanc : e'.withAncestors = e.withAncestors)
    (hdesc : e'.withDescendants = e.withDescendants) : e' = e := by
  cases e'
  simp only [core, withAncestors, withDescendants, Prod.mk.injEq, mk.injEq] at *
  simp [*]

end CTxMemPoolEntry

/-- The change touches nothing but links and totals. -/
def CoreKept (f : Uint256 → CTxMemPoolEntry → CTxMemPoolEntry) : Prop :=
  ∀ id e, (f id e).core = e.core

/-- The change leaves transaction, fee and size of an entry as they are. -/
structure StoredKept (f : Uint256 → CTxMemPoolEntry → CTxMemPoolEntry) : Prop where
  tx : ∀ id e, (f id e).tx = e.tx
  nFee : ∀ id e, (f id e).nFee = e.nFee
  getTxSize : ∀ id e, (f id e).getTxSize = e.getTxSize

theorem CoreKept.storedKept {f : Uint256 → CTxMemPoolEntry → CTxMemPoolEntry} (hf : CoreKept f) :
    StoredKept f where
  tx id e := tx_eq_of_core (hf id e)
  nFee id e := nFee_eq_of_core (hf id e)
  getTxSize id e := getTxSize_eq_of_core (hf id e)

namespace CTxMemPool

def sizeOf (s : CTxMemPool) (id : Uint256) : Int := (s.mapTx.find? id).elim 0 (·.getTxSize)

def feeOf (s : CTxMemPool) (id : Uint256) : Int := (s.mapTx.find? id).elim 0 (·.nFee)

/-- `vTxHashes` has every entry once, at the place that the entry knows. -/
structure HashesMatch (s : CTxMemPool) : Prop where
  place : ∀ {p : Nat} {w id : Uint256}, s.vTxHashes[p]? = some (w, id) →
    s.vTxHashesIdx.find? id = some p ∧
    ∃ e, s.mapTx.find? id = some e ∧ w = e.tx.getWitnessHash
  listed : ∀ {id : Uint256}, id ∈ s.ids → ∃ (p : Nat) (w : Uint256), s.vTxHashes[p]? = some (w, id)

structure Stored (s : CTxMemPool) : Prop where
  hash : ∀ {id e}, s.mapTx.find? id = some e → e.tx.getHash = id
  next : ∀ {o id}, s.mapNextTx.find? o = some id ↔ ∃ e, s.mapTx.find? id = some e ∧ e.tx.Spends o
  hashes : s.HashesMatch
  size : s.totalTxSize = ∑ id ∈ s.ids, s.sizeOf id
  fee : s.totalFee = ∑ id ∈ s.ids, s.feeOf id

variable {s : CTxMemPool} {f : Uint256 → CTxMemPoolEntry → CTxMemPoolEntry}

/-! ### Changes of links and totals -/

theorem amounts_updateEach (hf : CoreKept f) (id : Uint256) :
    (s.updateEach f).amounts id = s.amounts id :=
  elim_updateEach (fun id e => amounts_eq_of_core (hf id e)) id

theorem Stored.updateEach (hs : s.Stored) (hf : StoredKept f) : (s.updateEach f).Stored := by
  have hback : ∀ {id e'}, (s.updateEach f).mapTx.find? id = some e' →
      ∃ e, s.mapTx.find? id = some e ∧ e'.tx = e.tx := by
    intro id e' he'
    obtain ⟨e, he, rfl⟩ := exists_of_find?_updateEach he'
    exact ⟨e, he, hf.tx id e⟩
  have hthere : ∀ {id e}, s.mapTx.find? id = some e →
      (s.updateEach f).mapTx.find? id = some (f id e) := by
    intro id e he
    rw [find?_updateEach, he, map_some]
  refine ⟨?_, ?_, ⟨?_, ?_⟩, ?_, ?_⟩
  · intro id e' he'
    obtain ⟨e, he, htx⟩ := hback he'
    rw [htx]
    exact hs.hash he
  · intro o id
    refine Iff.trans hs.next ⟨?_, ?_⟩
    · rintro ⟨e, he, hsp⟩
      exact ⟨f id e, hthere he, (hf.tx id e).symm ▸ hsp⟩
    · rintro ⟨e', he', hsp⟩
      obtain ⟨e, he, htx⟩ := hback he'
      exact ⟨e, he, htx ▸ hsp⟩
  · intro p w id hp
    obtain ⟨hidx, e, he, rfl⟩ := hs.hashes.place hp
    exact ⟨hidx, f id e, hthere he, by rw [hf.tx]⟩
  · intro id hid
    exact hs.hashes.listed (ids_updateEach s f ▸ hid)
  · refine hs.size.trans ?_
    rw [ids_updateEach]
    exact sum_congr rfl fun id _ => (elim_updateEach (by simp [hf.getTxSize]) id).symm
  · refine hs.fee.trans ?_
    rw [ids_updateEach]
    exact sum_congr rfl fun id _ => (elim_updateEach hf.nFee id).symm

/-! ### Removing an entry -/

theorem find?_eraseInputs (vin : List CTxIn) (m : OrdMap COutPoint Uint256) (o : COutPoint) :
    (vin.foldl (fun m (txin : CTxIn) => m.erase txin.prevout) m).find? o =
      if ∃ txin ∈ vin, txin.prevout = o then none else m.find? o := by
  induction vin generalizing m with
  | nil => simp
  | cons txin vin ih =>
    rw [foldl_cons, ih, find?_erase]
    by_cases htxin : txin.prevout = o
    · simp [htxin]
    · simp [htxin]

theorem mapTx_removeUnchecked (s : CTxMemPool) (it : Uint256) :
    (s.removeUnchecked it).mapTx = s.mapTx.erase it := by
  rw [removeUnchecked]
  split
  case h_1 hnone =>
    refine ext_find? fun k => ?_
    rw [find?_erase]
    split_ifs with hk
    · rw [← hk, hnone]
    · rfl
  case h_2 => rfl

theorem find?_removeUnchecked (s : CTxMemPool) (it k : Uint256) :
    (s.removeUnchecked it).mapTx.find? k = if it = k then none else s.mapTx.find? k := by
  rw [mapTx_removeUnchecked, find?_erase]

theorem ids_removeUnchecked (s : CTxMemPool) (it : Uint256) :
    (s.removeUnchecked it).ids = s.ids.erase it := by
  rw [ids, mapTx_removeUnchecked, keys_erase]
  rfl

theorem sum_removeUnchecked {it : Uint256} {e : CTxMemPoolEntry} {w : CTxMemPoolEntry → Int}
    (he : s.mapTx.find? it = some e) :
    ∑ id ∈ (s.removeUnchecked it).ids, ((s.removeUnchecked it).mapTx.find? id).elim 0 w =
      ∑ id ∈ s.ids, (s.mapTx.find? id).elim 0 w - w e := by
  rw [ids_removeUnchecked, ← add_sum_erase s.ids _ (mem_ids_of_find? he), he, elim_some,
    add_sub_cancel_left]
  refine sum_congr rfl fun id hid => ?_
  rw [find?_removeUnchecked, if_neg (Ne.symm (ne_of_mem_erase hid))]

/-- What `eraseHash` leaves, when there is more than one element. -/
theorem eraseHash_of_length {it idx : _} {last : Uint256 × Uint256}
    (hlast : s.vTxHashes.getLast? = some last) (hidx : s.vTxHashesIdx.find? it = some idx)
    (hlen : 1 < s.vTxHashes.length) : s.eraseHash it = { s with
      vTxHashes := (s.vTxHashes.set idx last).dropLast
      vTxHashesIdx := (s.vTxHashesIdx.insert last.2 idx).erase it } := by
  rw [eraseHash, hlast, hidx]
  exact if_pos hlen

theorem HashesMatch.removeUnchecked (hs : s.HashesMatch) {it : Uint256} (hit : it ∈ s.ids) :
    (s.removeUnchecked it).HashesMatch := by
  obtain ⟨i, w, hi⟩ := hs.listed hit
  obtain ⟨hidx, e, he, -⟩ := hs.place hi
  have hilt : i < s.vTxHashes.length := (List.getElem?_eq_some_iff.mp hi).1
  obtain ⟨last, hlast⟩ := isSome_iff_exists.mp
    (getLast?_isSome.mpr (ne_nil_of_mem (mem_of_getElem? hi)))
  -- no other place has the entry
  have hsame : ∀ {p w' id}, s.vTxHashes[p]? = some (w', id) → (it = id ↔ p = i) := by
    intro p w' id hp
    constructor
    · rintro rfl
      exact some.inj ((hs.place hp).1.symm.trans hidx)
    · rintro rfl
      exact congrArg Prod.snd (some.inj (hi.symm.trans hp))
  have hids : ∀ k, k ∈ (s.removeUnchecked it).ids ↔ k ≠ it ∧ k ∈ s.ids := fun k => by
    rw [ids_removeUnchecked, mem_erase]
  have hvTx : (s.removeUnchecked it).vTxHashes = (s.eraseHash it).vTxHashes ∧
      (s.removeUnchecked it).vTxHashesIdx = (s.eraseHash it).vTxHashesIdx := by
    rw [CTxMemPool.removeUnchecked, he]
    exact ⟨rfl, rfl⟩
  by_cases hlen : 1 < s.vTxHashes.length
  · have hn : s.vTxHashes[s.vTxHashes.length - 1]? = some (last.1, last.2) := by
      rw [← getLast?_eq_getElem?, hlast]
    obtain ⟨hlastIdx, -⟩ := hs.place hn
    rw [eraseHash_of_length hlast hidx hlen] at hvTx
    -- The list after the removal, place by place.
    have hget : ∀ p, (s.removeUnchecked it).vTxHashes[p]? =
        if p < s.vTxHashes.length - 1 then (if p = i then some last else s.vTxHashes[p]?)
        else none := by
      intro p
      rw [hvTx.1, getElem?_dropLast, length_set]
      split_ifs with hp hpi
      · rw [hpi, getElem?_set_self hilt]
      · rw [getElem?_set_ne (Ne.symm hpi)]
      · rfl
    refine ⟨?_, ?_⟩
    · intro p w' id hp
      rw [hget] at hp
      split_ifs at hp with hpn hpi
      · cases hp
        have hne : it ≠ id := fun heq => by
          have := (hsame hn).mp heq
          omega
        rw [hvTx.2, find?_erase, if_neg hne, find?_insert, if_pos rfl, hpi]
        obtain ⟨-, e', he', hw⟩ := hs.place hn
        exact ⟨rfl, e', by rw [find?_removeUnchecked, if_neg hne, he'], hw⟩
      · obtain ⟨hidx', e', he', hw⟩ := hs.place hp
        have hne : it ≠ id := fun heq => hpi ((hsame hp).mp heq)
        have hnelast : last.2 ≠ id := by
          rintro rfl
          rw [hlastIdx] at hidx'
          have := some.inj hidx'
          omega
        rw [hvTx.2, find?_erase, if_neg hne, find?_insert, if_neg hnelast]
        exact ⟨hidx', e', by rw [find?_removeUnchecked, if_neg hne, he'], hw⟩
    · intro k hk
      obtain ⟨hne, hk⟩ := (hids k).mp hk
      obtain ⟨p, w', hp⟩ := hs.listed hk
      have hpi : p ≠ i := fun heq => hne ((hsame hp).mpr heq).symm
      have hplt : p < s.vTxHashes.length := (List.getElem?_eq_some_iff.mp hp).1
      by_cases hpn : p < s.vTxHashes.length - 1
      · exact ⟨p, w', by rw [hget, if_pos hpn, if_neg hpi, hp]⟩
      · have hpeq : p = s.vTxHashes.length - 1 := by omega
        rw [hpeq, hn] at hp
        have hk : last.2 = k := congrArg Prod.snd (some.inj hp)
        exact ⟨i, last.1, by rw [hget, if_pos (by omega), if_pos rfl, ← hk]⟩
  · have hone : ∀ p < s.vTxHashes.length, p = i := fun p hp => by omega
    have herase : s.eraseHash it =
        { s with vTxHashes := [], vTxHashesIdx := s.vTxHashesIdx.erase it } := by
      rw [eraseHash, hlast, hidx]
      exact if_neg hlen
    rw [herase] at hvTx
    refine ⟨?_, ?_⟩
    · intro p w' id hp
      rw [hvTx.1] at hp
      cases hp
    · intro k hk
      obtain ⟨hne, hk⟩ := (hids k).mp hk
      obtain ⟨p, w', hp⟩ := hs.listed hk
      have hpi := hone p (List.getElem?_eq_some_iff.mp hp).1
      exact absurd ((hsame hp).mpr hpi).symm hne

theorem Stored.removeUnchecked (hs : s.Stored) (it : Uint256) : (s.removeUnchecked it).Stored := by
  by_cases hit : it ∈ s.ids
  case neg =>
    rw [CTxMemPool.removeUnchecked, find?_eq_none.mpr hit]
    exact hs
  case pos =>
    obtain ⟨e, he⟩ := mem_ids.mp hit
    have hfind := find?_removeUnchecked s it
    have hnext : (s.removeUnchecked it).mapNextTx =
        e.tx.vin.foldl (fun m (txin : CTxIn) => m.erase txin.prevout) s.mapNextTx := by
      rw [CTxMemPool.removeUnchecked, he]
    refine ⟨?_, ?_, hs.hashes.removeUnchecked hit, ?_, ?_⟩
    · intro id e' he'
      rw [hfind] at he'
      split_ifs at he'
      exact hs.hash he'
    · intro o id
      rw [hnext, find?_eraseInputs]
      split_ifs with hspent
      · -- The output was spent by the removed entry and by no other.
        refine iff_of_false not_false ?_
        rintro ⟨e', he', hsp⟩
        rw [hfind] at he'
        split_ifs at he' with hne
        have hit := hs.next.mpr ⟨e, he, hspent⟩
        have hid := hs.next.mpr ⟨e', he', hsp⟩
        rw [hit] at hid
        exact absurd (some.inj hid) hne
      · rw [hs.next]
        constructor
        · rintro ⟨e', he', hsp⟩
          have hne : it ≠ id := by
            rintro rfl
            rw [he] at he'
            cases he'
            exact hspent hsp
          exact ⟨e', by rw [hfind, if_neg hne, he'], hsp⟩
        · rintro ⟨e', he', hsp⟩
          rw [hfind] at he'
          split_ifs at he'
          exact ⟨e', he', hsp⟩
    · refine Eq.trans ?_ (sum_removeUnchecked he).symm
      rw [CTxMemPool.removeUnchecked, he]
      exact congrArg (· - _) hs.size
    · refine Eq.trans ?_ (sum_removeUnchecked he).symm
      rw [CTxMemPool.removeUnchecked, he]
      exact congrArg (· - _) hs.fee

/-- The pool without the entries of `D`. The others are changed before. -/
def removing (s : CTxMemPool) (D : Finset Uint256)
    (f : Uint256 → CTxMemPoolEntry → CTxMemPoolEntry) : CTxMemPool :=
  (s.mapTx.keysIn D).foldl removeUnchecked (s.updateEach f)

variable {D : Finset Uint256} {k : Uint256}

theorem Stored.removing (hs : s.Stored) (hf : CoreKept f) : (s.removing D f).Stored := by
  have hloop : ∀ (l : List Uint256) {t : CTxMemPool}, t.Stored →
      (l.foldl CTxMemPool.removeUnchecked t).Stored := by
    intro l
    induction l with
    | nil => exact fun ht => ht
    | cons id l ih => exact fun ht => ih (ht.removeUnchecked id)
  exact hloop _ (hs.updateEach hf.storedKept)

theorem find?_removing : (s.removing D f).mapTx.find? k =
    if k ∈ D then none else (s.mapTx.find? k).map (f k) := by
  have hloop : ∀ (l : List Uint256) (t : CTxMemPool), (l.foldl removeUnchecked t).mapTx.find? k =
      if k ∈ l then none else t.mapTx.find? k := by
    intro l
    induction l with
    | nil => simp
    | cons id l ih =>
      intro t
      rw [foldl_cons, ih, find?_removeUnchecked]
      by_cases hk : id = k
      · simp [hk]
      · simp [hk, Ne.symm hk]
  rw [removing, hloop, find?_updateEach]
  by_cases hid : k ∈ s.mapTx.keys
  · simp only [mem_keysIn, hid, true_and]
  · rw [find?_eq_none.mpr hid]
    simp

theorem exists_of_find?_removing {e' : CTxMemPoolEntry}
    (h : (s.removing D f).mapTx.find? k = some e') :
    k ∉ D ∧ ∃ e, s.mapTx.find? k = some e ∧ f k e = e' := by
  rw [find?_removing] at h
  split_ifs at h with hk
  exact ⟨hk, map_eq_some_iff.mp h⟩

theorem ids_removing : (s.removing D f).ids = s.ids \ D := by
  ext k
  rw [mem_ids, find?_removing, mem_sdiff, mem_ids]
  by_cases hk : k ∈ D <;> simp [hk]

theorem amounts_removing (hf : CoreKept f) (hk : k ∉ D) :
    (s.removing D f).amounts k = s.amounts k := by
  rw [amounts, find?_removing, if_neg hk, ← find?_updateEach]
  exact amounts_updateEach hf k

end CTxMemPool
end Lithium
