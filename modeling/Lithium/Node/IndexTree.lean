import Lithium.BlockTree
import Lithium.Node.BlockStorage

/-!
# The block index is a tree

Every entry is filed under its hash, and is one block higher than its predecessor,
which is in the index as well. The walk along the predecessors then ends at an entry
without one, and the number of entries is enough of a bound for it.
-/

namespace Lithium
open Lib List OrdMap NodeState

structure IndexTree (m : OrdMap Uint256 CBlockIndex) : Prop where
  key : ∀ {hash e}, m.find? hash = some e → e.phashBlock = hash
  nonneg : ∀ {hash e}, m.find? hash = some e → 0 ≤ e.nHeight
  root : ∀ {hash e}, m.find? hash = some e → e.pprev = none → e.nHeight = 0
  parent : ∀ {hash e p}, m.find? hash = some e → e.pprev = some p →
    ∃ e', m.find? p = some e' ∧ e.nHeight = e'.nHeight + 1

namespace IndexTree
variable {m : OrdMap Uint256 CBlockIndex} {hash : Uint256} {e : CBlockIndex}

/-- A change of the entries that leaves the tree alone. -/
theorem modify (h : IndexTree m) (hash : Uint256) {f : CBlockIndex → CBlockIndex}
    (hf : ∀ e, (f e).phashBlock = e.phashBlock ∧ (f e).pprev = e.pprev ∧
      (f e).nHeight = e.nHeight) :
    IndexTree (m.modify hash f) := by
  have hback : ∀ {k e}, (m.modify hash f).find? k = some e → ∃ e', m.find? k = some e' ∧
      e.phashBlock = e'.phashBlock ∧ e.pprev = e'.pprev ∧ e.nHeight = e'.nHeight := by
    intro k e he
    rw [find?_modify] at he
    split_ifs at he
    · obtain ⟨e', he', rfl⟩ := Option.map_eq_some_iff.mp he
      exact ⟨e', he', hf e'⟩
    · exact ⟨e, he, rfl, rfl, rfl⟩
  have hforth : ∀ {k e}, m.find? k = some e →
      ∃ e', (m.modify hash f).find? k = some e' ∧ e'.nHeight = e.nHeight := by
    intro k e he
    rw [find?_modify]
    split_ifs
    · exact ⟨f e, by rw [he, Option.map_some], (hf e).2.2⟩
    · exact ⟨e, he, rfl⟩
  refine ⟨fun he => ?_, fun he => ?_, fun he hroot => ?_, fun he hp => ?_⟩
  · obtain ⟨e', he', hhash, -⟩ := hback he
    exact hhash.trans (h.key he')
  · obtain ⟨e', he', -, -, hht⟩ := hback he
    exact hht ▸ h.nonneg he'
  · obtain ⟨e', he', -, hpprev, hht⟩ := hback he
    exact hht.trans (h.root he' (hpprev ▸ hroot))
  · obtain ⟨e', he', -, hpprev, hht⟩ := hback he
    obtain ⟨q, hq, hnext⟩ := h.parent he' (hpprev ▸ hp)
    obtain ⟨q', hq', hsame⟩ := hforth hq
    exact ⟨q', hq', by rw [hht, hnext, hsame]⟩

/-- An entry is added on top of one that is there, or as a root. -/
theorem insert (h : IndexTree m) (hnew : m.find? hash = none) (hkey : e.phashBlock = hash)
    (hroot : e.pprev = none → e.nHeight = 0)
    (hpar : ∀ p, e.pprev = some p → ∃ e', m.find? p = some e' ∧ e.nHeight = e'.nHeight + 1) :
    IndexTree (m.insert hash e) := by
  have hcases : ∀ {k a}, (m.insert hash e).find? k = some a →
      (k = hash ∧ a = e) ∨ m.find? k = some a := by
    intro k a ha
    rw [find?_insert] at ha
    split_ifs at ha with hk
    · exact .inl ⟨hk.symm, (Option.some.inj ha).symm⟩
    · exact .inr ha
  have hkeep : ∀ {k a}, m.find? k = some a → (m.insert hash e).find? k = some a := by
    intro k a ha
    rw [find?_insert, if_neg, ha]
    rintro rfl
    rw [hnew] at ha
    cases ha
  refine ⟨fun ha => ?_, fun ha => ?_, fun ha hp => ?_, fun ha hp => ?_⟩
  · obtain ⟨rfl, rfl⟩ | ha := hcases ha
    · exact hkey
    · exact h.key ha
  · obtain ⟨rfl, rfl⟩ | ha := hcases ha
    · cases hp : CBlockIndex.pprev _ with
      | none => exact (hroot hp).ge
      | some p =>
        obtain ⟨e', he', hht⟩ := hpar p hp
        have := h.nonneg he'
        omega
    · exact h.nonneg ha
  · obtain ⟨rfl, rfl⟩ | ha := hcases ha
    · exact hroot hp
    · exact h.root ha hp
  · obtain ⟨rfl, rfl⟩ | ha := hcases ha
    · obtain ⟨e', he', hht⟩ := hpar _ hp
      exact ⟨e', hkeep he', hht⟩
    · obtain ⟨e', he', hht⟩ := h.parent ha hp
      exact ⟨e', hkeep he', hht⟩

theorem empty : IndexTree .empty := by
  refine ⟨fun he => ?_, fun he => ?_, fun he _ => ?_, fun he _ => ?_⟩ <;>
    · rw [find?_empty] at he
      cases he

/-- With enough fuel a walk goes down to the root. -/
theorem walk_spec (h : IndexTree m) {n : Nat} (he : m.find? hash = some e) (hn : e.nHeight < n) :
    Rooted (walk m n (some hash)) ∧ ((walk m n (some hash)).length : Int) = e.nHeight + 1 ∧
      ∀ a ∈ walk m n (some hash), m.find? a.phashBlock = some a := by
  induction n generalizing hash e with
  | zero =>
    have := h.nonneg he
    omega
  | succ n ih =>
    have hself : m.find? e.phashBlock = some e := by rw [h.key he, he]
    have hstep : walk m (n + 1) (some hash) = e :: walk m n e.pprev := by
      rw [walk, he]
    rw [hstep]
    cases hpprev : e.pprev with
    | none =>
      have hroot := h.root he hpprev
      have hnil : walk m n none = [] := by cases n <;> rfl
      rw [hnil]
      exact ⟨⟨hroot, trivial⟩, by rw [hroot]; rfl, by simpa using hself⟩
    | some p =>
      obtain ⟨e', he', hht⟩ := h.parent he hpprev
      obtain ⟨hrooted, hlen, hall⟩ := ih he' (by omega)
      refine ⟨⟨by omega, hrooted⟩, ?_, forall_mem_cons.mpr ⟨hself, hall⟩⟩
      rw [length_cons]
      omega

theorem walk_fuel (h : IndexTree m) (n k : Nat) (he : m.find? hash = some e) (hn : e.nHeight < n)
    (hk : e.nHeight < k) : walk m n (some hash) = walk m k (some hash) := by
  induction n generalizing hash e k with
  | zero =>
    have := h.nonneg he
    omega
  | succ n ih =>
    cases k with
    | zero =>
      have := h.nonneg he
      omega
    | succ k =>
      rw [walk, walk, he]
      dsimp only
      cases hpprev : e.pprev with
      | none => cases n <;> cases k <;> rfl
      | some p =>
        obtain ⟨e', he', hht⟩ := h.parent he hpprev
        rw [ih k he' (by omega) (by omega)]

/-- Entries of one branch have different hashes. -/
theorem nodup_hashes {branch : Branch} (hrooted : Rooted branch)
    (hall : ∀ a ∈ branch, m.find? a.phashBlock = some a) :
    (branch.map CBlockIndex.phashBlock).Nodup := by
  induction branch with
  | nil => exact nodup_nil
  | cons e rest ih =>
    rw [forall_mem_cons] at hall
    rw [map_cons, nodup_cons]
    refine ⟨fun hmem => ?_, ih hrooted.2 hall.2⟩
    obtain ⟨a, ha, hhash⟩ := mem_map.mp hmem
    have hfind := hall.2 a ha
    rw [hhash, hall.1] at hfind
    cases hfind
    -- heights decrease along the branch
    have hlt : ∀ {l : Branch}, Rooted l → ∀ a ∈ l, a.nHeight < l.length := by
      intro l
      induction l with
      | nil => exact nofun
      | cons b l ihl =>
        rintro ⟨hb, hl⟩ a ha
        rw [length_cons]
        rcases mem_cons.mp ha with rfl | ha
        · omega
        · have := ihl hl a ha
          omega
    have := hlt hrooted.2 e ha
    rw [hrooted.1] at this
    exact lt_irrefl _ this

/-- There are more entries than a branch is high. -/
theorem nHeight_lt_size (h : IndexTree m) (he : m.find? hash = some e) : e.nHeight < m.size := by
  obtain ⟨hrooted, hlen, hall⟩ := h.walk_spec he (n := e.nHeight.toNat + 1) (by omega)
  have hsub : (walk m (e.nHeight.toNat + 1) (some hash)).map CBlockIndex.phashBlock ⊆
      m.entries.map Prod.fst := by
    intro k hk
    obtain ⟨a, ha, rfl⟩ := mem_map.mp hk
    have hmem := (m.mem_entries_iff a.phashBlock a).mpr (hall a ha)
    exact mem_map.mpr ⟨_, hmem, rfl⟩
  have hle := ((nodup_hashes hrooted hall).subperm hsub).length_le
  rw [length_map, length_map] at hle
  change _ ≤ m.size at hle
  omega

end IndexTree

namespace NodeState
variable {s : NodeState} {hash : Uint256} {e : CBlockIndex}

theorem branch_none (s : NodeState) : s.branch none = [] := by
  rw [branch]
  cases s.blockIndex.size <;> rfl

theorem branch_some (h : IndexTree s.blockIndex) (he : s.lookupBlockIndex hash = some e) :
    s.branch (some hash) = e :: s.branch e.pprev := by
  have hlt := h.nHeight_lt_size he
  have hnn := h.nonneg he
  rw [branch]
  obtain ⟨n, hn⟩ := Nat.exists_eq_succ_of_ne_zero (n := s.blockIndex.size) (by omega)
  have he' : s.blockIndex.find? hash = some e := he
  rw [hn, walk, he']
  dsimp only
  cases hpprev : e.pprev with
  | none =>
    rw [branch_none]
    cases n <;> rfl
  | some p =>
    obtain ⟨e', hp, hht⟩ := h.parent he hpprev
    rw [branch, h.walk_fuel n s.blockIndex.size hp (by omega) (by omega)]

end NodeState
end Lithium
