import Lithium.Lib.HashPath

/-!
# Merkle roots of lists

The root of a list of digests, computed level by level: neighbours are hashed
in pairs, and a level of odd length hashes its last digest with itself. Two
different lists can have one root, because a list that ends in a repetition
looks like a shorter one that was padded. The computation notices this: a list
is *mutated* if on some level two neighbours of a pair are equal.

`root_inj` is the binding property. For lists that are not mutated the root
determines the list, up to the possibility that a digest of one list is itself
the hash of a pair of the other, which no bound on the lengths can exclude.
As for paths, freedom from collisions is asked for on the pairs that are
hashed.
-/

namespace Lithium.Lib.MerkleTree
open List
variable {D : Type} (node : D → D → D) {xs ys : List D} {n : Nat}

/-- The pairs of neighbours on a level. -/
def levelPairs : List D → List (D × D)
  | [] => []
  | [a] => [(a, a)]
  | a :: b :: rest => (a, b) :: levelPairs rest

def level (xs : List D) : List D := (levelPairs xs).map fun p => node p.1 p.2

/-- Two neighbours of a pair are equal; the padding does not count. -/
def levelMutated [DecidableEq D] : List D → Bool
  | a :: b :: rest => a == b || levelMutated rest
  | _ => false

/-- The root of a nonempty list after at most `n` levels. -/
def root [Inhabited D] : Nat → List D → D
  | 0, xs => xs.headD default
  | n + 1, xs => if xs.length ≤ 1 then xs.headD default else root n (level node xs)

def mutated [DecidableEq D] : Nat → List D → Bool
  | 0, _ => false
  | n + 1, xs => if xs.length ≤ 1 then false else levelMutated xs || mutated n (level node xs)

/-- The pairs hashed on all levels. -/
def pairs : Nat → List D → List (D × D)
  | 0, _ => []
  | n + 1, xs => if xs.length ≤ 1 then [] else levelPairs xs ++ pairs n (level node xs)

/-- The siblings on the way up from a slot, with their sides; the last digest of a level of
odd length is its own sibling. -/
def path [Inhabited D] : Nat → List D → Nat → List (Bool × D)
  | 0, _, _ => []
  | n + 1, xs, i =>
    if xs.length ≤ 1 then []
    else (i % 2 == 1, if i % 2 = 1 then xs.getD (i - 1) default
      else xs.getD (i + 1) (xs.getD i default)) :: path n (level node xs) (i / 2)

variable {node}

theorem levelPairs_length (xs : List D) : (levelPairs xs).length = (xs.length + 1) / 2 := by
  induction xs using levelPairs.induct with
  | case1 | case2 a => simp [levelPairs]
  | case3 a b rest ih =>
    simp only [levelPairs, length_cons, ih]
    omega

theorem level_length (node : D → D → D) (xs : List D) :
    (level node xs).length = (xs.length + 1) / 2 := by
  rw [level, length_map, levelPairs_length]

/-! ### The way up from a slot -/

theorem getD_level (d : D) {j : Nat} (h : 2 * j < xs.length) : (level node xs).getD j d =
    node (xs.getD (2 * j) d) (xs.getD (2 * j + 1) (xs.getD (2 * j) d)) := by
  induction xs using levelPairs.induct generalizing j with
  | case1 => simp at h
  | case2 a =>
    obtain rfl : j = 0 := by rw [length_singleton] at h; omega
    rfl
  | case3 a b rest ih =>
    cases j with
    | zero => rfl
    | succ j => exact ih (by simp at h; omega)

/-- The way up leads to the root. -/
theorem climb_path [Inhabited D] {i : Nat} (hn : xs.length ≤ n + 1) (hi : i < xs.length) :
    climb node (xs.getD i default) (path node n xs i) = root node n xs := by
  induction n generalizing xs i with
  | zero =>
    obtain rfl : i = 0 := by omega
    cases xs <;> rfl
  | succ n ih =>
    rw [path, root]
    by_cases hle : xs.length ≤ 1
    · obtain rfl : i = 0 := by omega
      rw [if_pos hle, if_pos hle]
      cases xs <;> rfl
    · have hlevel := level_length node xs
      rw [if_neg hle, if_neg hle, ← ih (i := i / 2) (by omega) (by omega), getD_level _ (by omega)]
      refine congrArg (climb node · (path node n (level node xs) (i / 2))) ?_
      rcases Nat.mod_two_eq_zero_or_one i with heven | hodd
      · simp [climbStep, heven, show 2 * (i / 2) = i by omega]
      · have hsucc : i - 1 + 1 = i := by omega
        simp [climbStep, hodd, show 2 * (i / 2) = i - 1 by omega, hsucc, hi]

theorem path_length [Inhabited D] {k i : Nat} (hxs : xs.length = 2 ^ k) (hn : k ≤ n) :
    (path node n xs i).length = k := by
  induction n generalizing k xs i with
  | zero => rw [path, Nat.le_zero.mp hn, length_nil]
  | succ n ih =>
    cases k with
    | zero => simp [path, hxs]
    | succ k =>
      have hpow := Nat.two_pow_pos k
      rw [path, if_neg (by omega), length_cons, ih (k := k) ?_ (by omega)]
      rw [level_length]
      omega

theorem mem_of_mem_levelPairs {p : D × D} (h : p ∈ levelPairs xs) : p.1 ∈ xs ∧ p.2 ∈ xs := by
  induction xs using levelPairs.induct with
  | case1 => cases h
  | case2 a =>
    obtain rfl := mem_singleton.mp h
    simp
  | case3 a b rest ih =>
    rcases mem_cons.mp h with rfl | h
    · simp
    · exact ⟨by simp [(ih h).1], by simp [(ih h).2]⟩

/-- A level that is not mutated is determined by its pairs. -/
theorem levelPairs_inj [DecidableEq D] (hx : levelMutated xs = false) (hy : levelMutated ys = false)
    (h : levelPairs xs = levelPairs ys) : xs = ys := by
  induction xs using levelPairs.induct generalizing ys with
  | case1 =>
    cases ys with
    | nil => rfl
    | cons a ys => cases ys <;> simp [levelPairs] at h
  | case2 a =>
    match ys with
    | [] => simp [levelPairs] at h
    | [b] => simpa [levelPairs] using h
    | b :: c :: rest =>
      simp only [levelPairs, cons.injEq, Prod.mk.injEq] at h
      obtain ⟨⟨rfl, rfl⟩, -⟩ := h
      simp [levelMutated] at hy
  | case3 a b rest ih =>
    match ys with
    | [] => simp [levelPairs] at h
    | [c] =>
      simp only [levelPairs, cons.injEq, Prod.mk.injEq] at h
      obtain ⟨⟨rfl, rfl⟩, -⟩ := h
      simp [levelMutated] at hx
    | c :: d :: rest' =>
      simp only [levelPairs, cons.injEq, Prod.mk.injEq] at h
      simp only [levelMutated, Bool.or_eq_false_iff] at hx hy
      obtain ⟨⟨rfl, rfl⟩, hrest⟩ := h
      rw [ih hx.2 hy.2 hrest]

/-- Lists of one length are determined by their pairs, mutated or not. -/
theorem levelPairs_inj_of_length_eq (hlen : xs.length = ys.length)
    (h : levelPairs xs = levelPairs ys) : xs = ys := by
  induction xs using levelPairs.induct generalizing ys with
  | case1 => exact (length_eq_zero_iff.mp hlen.symm).symm
  | case2 a =>
    obtain ⟨b, rfl⟩ : ∃ b, ys = [b] := length_eq_one_iff.mp hlen.symm
    simpa [levelPairs] using h
  | case3 a b rest ih =>
    match ys with
    | [] => simp at hlen
    | [c] => simp at hlen
    | c :: d :: rest' =>
      simp only [levelPairs, cons.injEq, Prod.mk.injEq] at h
      obtain ⟨⟨rfl, rfl⟩, hrest⟩ := h
      rw [ih (by simpa using hlen) hrest]

section Binding
variable {S : Set (D × D)}

theorem map_node_inj (hinj : Set.InjOn (fun p : D × D => node p.1 p.2) S) {ps qs : List (D × D)}
    (hps : ∀ p ∈ ps, p ∈ S) (hqs : ∀ q ∈ qs, q ∈ S)
    (h : ps.map (fun p => node p.1 p.2) = qs.map fun p => node p.1 p.2) : ps = qs := by
  induction ps generalizing qs with
  | nil =>
    cases qs with
    | nil => rfl
    | cons q qs => simp at h
  | cons p ps ih =>
    cases qs with
    | nil => simp at h
    | cons q qs =>
      simp only [map_cons, cons.injEq] at h
      rw [hinj (hps p (by simp)) (hqs q (by simp)) h.1,
        ih (fun x hx => hps x (by simp [hx])) (fun x hx => hqs x (by simp [hx])) h.2]

theorem pairs_succ (h : ¬ xs.length ≤ 1) :
    pairs node (n + 1) xs = levelPairs xs ++ pairs node n (level node xs) := by
  rw [pairs, if_neg h]

/-- What is hashed in a tree is a digest of the list or was hashed before. -/
theorem fst_of_mem_pairs {p : D × D} (h : p ∈ pairs node n xs) :
    p.1 ∈ xs ∨ ∃ q ∈ pairs node n xs, node q.1 q.2 = p.1 := by
  induction n generalizing xs with
  | zero => cases h
  | succ n ih =>
    by_cases hlen : xs.length ≤ 1
    · simp [pairs, hlen] at h
    · rw [pairs_succ hlen] at h ⊢
      rcases mem_append.mp h with h | h
      · exact Or.inl (mem_of_mem_levelPairs h).1
      · right
        rcases ih h with hmem | ⟨q, hq, hnode⟩
        · obtain ⟨q, hq, hnode⟩ := mem_map.mp hmem
          exact ⟨q, mem_append_left _ hq, hnode⟩
        · exact ⟨q, mem_append_right _ hq, hnode⟩

/-- A digest of `xs` is the hash of a pair in the tree of `ys`. -/
def Overlap (node : D → D → D) (xs : List D) (m : Nat) (ys : List D) : Prop :=
  ∃ a ∈ xs, ∃ p ∈ pairs node m ys, node p.1 p.2 = a

theorem overlap_of_level (hinj : Set.InjOn (fun p : D × D => node p.1 p.2) S)
    (hxs : ∀ p ∈ levelPairs xs, p ∈ S) (hys : ∀ p ∈ pairs node (n + 1) ys, p ∈ S)
    (hlen : ¬ ys.length ≤ 1) (h : Overlap node (level node xs) n (level node ys)) :
    Overlap node xs (n + 1) ys := by
  obtain ⟨a, ha, p, hp, hpa⟩ := h
  obtain ⟨q, hq, rfl⟩ := mem_map.mp ha
  rw [pairs_succ hlen] at hys
  -- The shared digest is a hash on both sides, so its two parts are digests of
  -- `xs`, while in the tree of `ys` they lie above the list.
  obtain rfl : p = q := hinj (hys p (mem_append_right _ hp)) (hxs q hq) hpa
  refine ⟨p.1, (mem_of_mem_levelPairs hq).1, ?_⟩
  rw [pairs_succ hlen]
  rcases fst_of_mem_pairs hp with hmem | ⟨r, hr, hnode⟩
  · obtain ⟨r, hr, hnode⟩ := mem_map.mp hmem
    exact ⟨r, mem_append_left _ hr, hnode⟩
  · exact ⟨r, mem_append_right _ hr, hnode⟩

variable [Inhabited D]

/-- The root of a list of at least two digests is the hash of a pair. -/
theorem root_mem_pairs (node : D → D → D) (hn : xs.length ≤ n + 1) (h : ¬ xs.length ≤ 1) :
    ∃ p ∈ pairs node (n + 1) xs, node p.1 p.2 = root node (n + 1) xs := by
  induction n generalizing xs with
  | zero => omega
  | succ n ih =>
    rw [pairs_succ h, root, if_neg h]
    have hlen := level_length node xs
    by_cases hlast : (level node xs).length ≤ 1
    · obtain ⟨a, ha⟩ : ∃ a, level node xs = [a] := length_eq_one_iff.mp (by omega)
      have hroot : root node (n + 1) (level node xs) = a := by simp [ha, root]
      obtain ⟨p, hp, hnode⟩ := mem_map.mp (ha ▸ mem_singleton_self a : a ∈ level node xs)
      exact ⟨p, mem_append_left _ hp, by rw [hroot, hnode]⟩
    · obtain ⟨p, hp, hnode⟩ := ih (by omega) hlast
      exact ⟨p, mem_append_right _ hp, hnode⟩

section
variable (hinj : Set.InjOn (fun p : D × D => node p.1 p.2) S) (hn : xs.length ≤ n)

include hinj hn

/-- Two lists with one root, neither of them mutated, are equal or overlap. -/
theorem root_inj [DecidableEq D] {m : Nat} (hm : ys.length ≤ m) (hxs : xs ≠ []) (hys : ys ≠ [])
    (hxS : ∀ p ∈ pairs node n xs, p ∈ S) (hyS : ∀ p ∈ pairs node m ys, p ∈ S)
    (hx : mutated node n xs = false) (hy : mutated node m ys = false)
    (h : root node n xs = root node m ys) :
    xs = ys ∨ Overlap node xs m ys ∨ Overlap node ys n xs := by
  have hxpos := length_pos_iff.mpr hxs
  have hypos := length_pos_iff.mpr hys
  induction n generalizing m xs ys with
  | zero => omega
  | succ n ih =>
    obtain ⟨m, rfl⟩ : ∃ k, m = k + 1 := ⟨m - 1, by omega⟩
    by_cases hx1 : xs.length ≤ 1 <;> by_cases hy1 : ys.length ≤ 1
    · obtain ⟨a, rfl⟩ : ∃ a, xs = [a] := length_eq_one_iff.mp (by omega)
      obtain ⟨b, rfl⟩ : ∃ b, ys = [b] := length_eq_one_iff.mp (by omega)
      left
      simpa [root] using h
    · obtain ⟨a, rfl⟩ : ∃ a, xs = [a] := length_eq_one_iff.mp (by omega)
      obtain ⟨p, hp, hnode⟩ := root_mem_pairs node hm hy1
      exact Or.inr (Or.inl ⟨a, by simp, p, hp, by rw [hnode, ← h]; simp [root]⟩)
    · obtain ⟨b, rfl⟩ : ∃ b, ys = [b] := length_eq_one_iff.mp (by omega)
      obtain ⟨p, hp, hnode⟩ := root_mem_pairs node hn hx1
      exact Or.inr (Or.inr ⟨b, by simp, p, hp, by rw [hnode, h]; simp [root]⟩)
    · have hxlen := level_length node xs
      have hylen := level_length node ys
      have hxS' := hxS
      have hyS' := hyS
      rw [pairs_succ hx1] at hxS'
      rw [pairs_succ hy1] at hyS'
      simp only [mutated, if_neg hx1, if_neg hy1, Bool.or_eq_false_iff] at hx hy
      simp only [root, if_neg hx1, if_neg hy1] at h
      have hxl : ∀ p ∈ levelPairs xs, p ∈ S := fun p hp => hxS' p (mem_append_left _ hp)
      have hyl : ∀ p ∈ levelPairs ys, p ∈ S := fun p hp => hyS' p (mem_append_left _ hp)
      rcases ih (m := m) (by omega) (by omega) (length_pos_iff.mp (by omega))
          (length_pos_iff.mp (by omega))
          (fun p hp => hxS' p (mem_append_right _ hp))
          (fun p hp => hyS' p (mem_append_right _ hp)) hx.2 hy.2 h (by omega) (by omega)
        with heq | hov | hov
      · exact Or.inl (levelPairs_inj hx.1 hy.1 (map_node_inj hinj hxl hyl heq))
      · exact Or.inr (Or.inl (overlap_of_level hinj hxl hyS hy1 hov))
      · exact Or.inr (Or.inr (overlap_of_level hinj hyl hxS hx1 hov))

/-- Two lists of one length with one root are equal, mutated or not: their trees
have the same shape. -/
theorem root_inj_of_length_eq (hlen : xs.length = ys.length) (hxS : ∀ p ∈ pairs node n xs, p ∈ S)
    (hyS : ∀ p ∈ pairs node n ys, p ∈ S) (h : root node n xs = root node n ys) : xs = ys := by
  induction n generalizing xs ys with
  | zero =>
    obtain rfl := length_eq_zero_iff.mp (Nat.le_zero.mp hn)
    exact (length_eq_zero_iff.mp hlen.symm).symm
  | succ n ih =>
    by_cases hx1 : xs.length ≤ 1
    · rw [root, root, if_pos hx1, if_pos (hlen ▸ hx1)] at h
      match xs, ys, hlen with
      | [], [], _ => rfl
      | [a], [b], _ => simpa using h
    · have hy1 : ¬ ys.length ≤ 1 := hlen ▸ hx1
      rw [pairs_succ hx1] at hxS
      rw [pairs_succ hy1] at hyS
      rw [root, root, if_neg hx1, if_neg hy1] at h
      have hxlen := level_length node xs
      have hylen := level_length node ys
      have hlevel := ih (by omega) (by omega) (fun p hp => hxS p (mem_append_right _ hp))
        (fun p hp => hyS p (mem_append_right _ hp)) h
      exact levelPairs_inj_of_length_eq hlen
        (map_node_inj hinj (fun p hp => hxS p (mem_append_left _ hp))
          (fun p hp => hyS p (mem_append_left _ hp)) hlevel)

end
end Binding
end Lithium.Lib.MerkleTree
