import Lithium.Versionbits

/-!
# Trees of blocks

The block index as seen by code that only reads it: every hash that is known leads
to an entry with its predecessors, down to the genesis block. A branch of the tree
is told by the hash of its first entry, which stands for the pointer of the source;
the empty branch is the null pointer.
-/

namespace Lithium
open List Option

/-- Heights count down to the genesis block. -/
def Rooted : Branch → Prop
  | [] => True
  | e :: rest => e.nHeight = rest.length ∧ Rooted rest

variable {branch : Branch}

instance decidableRooted : (branch : Branch) → Decidable (Rooted branch)
  | [] => isTrue trivial
  | e :: rest =>
    have := decidableRooted rest
    inferInstanceAs (Decidable (e.nHeight = rest.length ∧ Rooted rest))

theorem Rooted.drop (h : Rooted branch) (n : Nat) : Rooted (branch.drop n) := by
  induction branch generalizing n with
  | nil =>
    rw [drop_nil]
    exact h
  | cons e rest ih =>
    cases n with
    | zero => exact h
    | succ n => exact ih h.2 n

/-- `GetAncestor` on a branch down to the genesis block. -/
theorem Rooted.ancestorBranch {branch : Branch} (h : Rooted branch) {height : Int}
    (hht : height < branch.length) :
    ancestorBranch branch height = branch.drop (branch.length - (height + 1).toNat) := by
  induction branch with
  | nil => exact drop_nil.symm
  | cons e rest ih =>
    rw [Lithium.ancestorBranch]
    by_cases heq : e.nHeight = height
    · rw [dropWhile_cons_of_neg (by simpa using heq)]
      have hlen : (height + 1).toNat = (e :: rest).length := by
        rw [length_cons, ← heq, h.1]
        omega
      rw [hlen, Nat.sub_self, drop_zero]
    · have hlt : height < rest.length := by
        rw [length_cons] at hht
        have := h.1
        omega
      rw [dropWhile_cons_of_pos (by simpa using heq)]
      refine (ih h.2 hlt).trans ?_
      rw [show (e :: rest).length - (height + 1).toNat = rest.length - (height + 1).toNat + 1 by
        rw [length_cons]
        omega, drop_succ_cons]

/-- A block index in which every predecessor is known and which has one root. -/
structure BlockTree where
  find : Uint256 → Option Branch
  head : ∀ {hash branch}, find hash = some branch → branchPtr branch = some hash
  tail : ∀ {hash e p rest}, find hash = some (e :: p :: rest) → find p.phashBlock = some (p :: rest)
  rooted : ∀ {hash branch}, find hash = some branch → Rooted branch
  genesis : ∀ {hash hash' e e'}, find hash = some [e] → find hash' = some [e'] → hash = hash'

namespace BlockTree
variable {T : BlockTree}

/-- The branch belongs to the tree, or there is no entry at all. -/
def Mem (T : BlockTree) (branch : Branch) : Prop :=
  ∀ hash, branchPtr branch = some hash → T.find hash = some branch

theorem mem_nil : T.Mem [] := nofun

theorem mem_of_find {hash : Uint256} (h : T.find hash = some branch) : T.Mem branch := by
  intro hash' hptr
  rw [T.head h] at hptr
  cases hptr
  exact h

theorem Mem.rooted (h : T.Mem branch) : Rooted branch := by
  cases branch with
  | nil => trivial
  | cons e rest => exact T.rooted (h e.phashBlock rfl)

theorem Mem.tail {e : CBlockIndex} {rest : Branch} (h : T.Mem (e :: rest)) : T.Mem rest := by
  cases rest with
  | nil => exact mem_nil
  | cons p rest => exact mem_of_find (T.tail (h e.phashBlock rfl))

theorem Mem.drop (h : T.Mem branch) (n : Nat) : T.Mem (branch.drop n) := by
  induction branch generalizing n with
  | nil =>
    rw [drop_nil]
    exact h
  | cons e rest ih =>
    cases n with
    | zero => exact h
    | succ n => exact ih h.tail n

/-- Branches with the same pointer are the same. -/
theorem Mem.ext {branch' : Branch} (h : T.Mem branch) (h' : T.Mem branch')
    (hptr : branchPtr branch = branchPtr branch') : branch = branch' := by
  cases branch with
  | nil =>
    cases branch' with
    | nil => rfl
    | cons e' rest' => cases hptr
  | cons e rest =>
    have hsame := h' e.phashBlock hptr.symm
    rw [h e.phashBlock rfl] at hsame
    exact some.inj hsame

def ofBranches (branches : List Branch) (htail : ∀ branch ∈ branches, branch.tail ≠ [] →
      branches.find? (branchPtr · = branchPtr branch.tail) = some branch.tail)
    (hrooted : ∀ branch ∈ branches, Rooted branch)
    (hgen : ∀ branch ∈ branches, ∀ branch' ∈ branches, branch.length = 1 →
      branch'.length = 1 → branchPtr branch = branchPtr branch') : BlockTree where
  find hash := branches.find? (branchPtr · = some hash)
  head h := by simpa using find?_some h
  tail h := htail _ (mem_of_find?_eq_some h) (cons_ne_nil _ _)
  rooted h := hrooted _ (mem_of_find?_eq_some h)
  genesis h h' := by
    have hptr := hgen _ (mem_of_find?_eq_some h) _ (mem_of_find?_eq_some h') rfl rfl
    have hhash := find?_some h
    have hhash' := find?_some h'
    rw [decide_eq_true_eq] at hhash hhash'
    exact some.inj ((hhash.symm.trans hptr).trans hhash')

end BlockTree
end Lithium
